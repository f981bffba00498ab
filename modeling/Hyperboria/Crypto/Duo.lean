/-
Two nodes with one session each for the other, over the symbolic primitives. A
script of moves is played by evaluation, and what can be played is a run of the
network (`run_of_play`): so runs can be exhibited by computing them.
-/
import Hyperboria.Crypto.Symbolic
import Hyperboria.Crypto.Network

namespace Hyperboria.CryptoAuth

open Symbolic (crypto draw key)

/-- Node `false` has the key 1, node `true` the key 2. -/
def duo : Net crypto where
  Node := Bool
  Index := Bool
  priv N := key (if N then 2 else 1)
  node i := i
  peer i := key (if i then 1 else 2)
  distinct := by
    decide

namespace Duo

/-- What a script can make happen. A key is drawn by its number, a packet is named by how many were sent
before it. -/
inductive Move where
  | create (i : Bool)
  | reset (i : Bool)
  | send (i : Bool) (drawn : UInt8)
  | deliver (i : Bool) (k : Nat)

/-- Nothing has happened. -/
def blank : duo.World :=
  { users := fun _ => [], sessions := fun _ => none, sent := [], accepted := [], held := fun _ => [] }

/-- The key is none of those in use. -/
def unused (w : duo.World) (p : Key) : Bool :=
  let x := crypto.scalarmultBase p
  !x.isZero && x ≠ duo.pub false && x ≠ duo.pub true && w.sent.all fun r => x ≠ crypto.scalarmultBase r.temp

/-- One move, if it can be made. -/
def move (w : duo.World) : Move → Option duo.World
  | .create i =>
    match w.sessions i with
    | none => some (w.put i (newSession crypto 0 (duo.peer i) false) (newSession crypto 0 (duo.peer i) false))
    | some _ => none
  | .reset i =>
    match w.sessions i with
    | none => none
    | some s => some (w.put i s (reset s))
  | .send i n =>
    match w.sessions i with
    | none => none
    | some s =>
      match encrypt (w.context i) 0 (draw n) s [7] with
      | .ret (s', packet) =>
        if unused w (key n) then some { w.put i s s' with sent := ⟨i, s', packet, [7], w.sent.length⟩ :: w.sent }
        else none
      | _ => none
  | .deliver i k =>
    match w.sessions i, w.sent.find? (fun r => r.time = k) with
    | some s, some r =>
      match decrypt (w.context i) 0 s r.packet with
      | .ret (err, s', _) => some { w.put i s s' with accepted := w.acceptedAfter i r.packet err }
      | _ => none
    | _, _ => none

/-- A script, each move of which passes a check. -/
def play (check : duo.World → Move → Bool) (w : duo.World) : List Move → Option duo.World
  | [] => some w
  | m :: moves =>
    if check w m then
      match move w m with
      | some w' => play check w' moves
      | none => none
    else none

theorem blank_start : Net.Start blank := ⟨rfl, rfl, rfl, rfl⟩

theorem honestPeer (i : Bool) : duo.HonestPeer i := ⟨!i, .of_eq (by cases i <;> rfl)⟩

theorem fresh {w} {p} (h : unused w p = true) : w.Fresh p := by
  simp only [unused, Bool.and_eq_true, decide_eq_true_eq, List.all_eq_true] at h
  obtain ⟨⟨⟨hz, h1⟩, h2⟩, htemp⟩ := h
  exact {
    ne_zero := fun hzero => by
      have hpoint := Symbolic.alike_iff.mp hzero
      have heq : crypto.scalarmultBase p = Key.zero := (Symbolic.point_point p).symm.trans hpoint
      rw [heq] at hz
      exact absurd hz (by decide)
    ne_pub := fun N => by
      cases N with
      | false => exact h1
      | true => exact h2
    ne_temp := htemp
    ne_peer := fun i _ _ hn => absurd (honestPeer i) hn
    ne_sent := fun r _ hn => absurd (honestPeer r.author) hn }

/-- A packet that was sent can be brought anywhere. -/
theorem arrives {w : duo.World} {r} (h : r ∈ w.sent) (i : Bool) : w.Arrives i r.packet where
  unforged := fun _ _ => ⟨r, h, rfl⟩
  known := fun hn => absurd (honestPeer i) hn

/-- The event a move is. -/
def event (w : duo.World) : Move → Option duo.Event
  | .create i => some (.create i)
  | .reset i => some (.reset i)
  | .send i _ => some (.send i)
  | .deliver i k => (w.sent.find? fun r => r.time = k).map fun r => .deliver i r.packet

theorem step_of_move {w w'} {m} (h : move w m = some w') :
    ∃ e, event w m = some e ∧ Net.Step w e w' := by
  cases m with
  | create i =>
    simp only [move] at h
    split at h
    next hs => exact ⟨.create i, rfl, Option.some.inj h ▸ .create hs fun hn => absurd (honestPeer i) hn⟩
    · exact nomatch h
  | reset i =>
    simp only [move] at h
    split at h
    · exact nomatch h
    next s hs => exact ⟨.reset i, rfl, Option.some.inj h ▸ .reset hs⟩
  | send i n =>
    simp only [move] at h
    split at h
    · exact nomatch h
    next s hs =>
      split at h
      next s' packet hret =>
        split at h
        next hu => exact ⟨.send i, rfl, Option.some.inj h ▸ .send hs hret (fun _ => fresh hu)
            fun hn => absurd (honestPeer i) hn⟩
        · exact nomatch h
      · exact nomatch h
  | deliver i k =>
    simp only [move] at h
    split at h
    next s r hs hr =>
      split at h
      next err s' content hret =>
        refine ⟨.deliver i r.packet, by rw [event, hr]; rfl, ?_⟩
        exact Option.some.inj h ▸ .deliver hs (arrives (List.mem_of_find?_eq_some hr) i) hret
      · exact nomatch h
    · exact nomatch h

/-- What can be played is a run, of the steps the check is for. -/
theorem run_of_play {ok} {check}
    (hcheck : ∀ {w m e}, check w m = true → event w m = some e → ok w e) {w w'} {past}
    {moves} (hrun : Transition.Run (duo.system.restrict ok) w past) (h : play check w moves = some w') :
    ∃ past', Transition.Run (duo.system.restrict ok) w' past' := by
  induction moves generalizing w past with
  | nil => exact ⟨past, Option.some.inj h ▸ hrun⟩
  | cons m moves ih =>
    simp only [play] at h
    split at h
    next hm =>
      split at h
      next w₁ hmove =>
        obtain ⟨e, hevent, hstep⟩ := step_of_move hmove
        exact ih (hrun.step ⟨hcheck hm hevent, hstep⟩) h
      · exact nomatch h
    · exact nomatch h

theorem exists_restricted_run {ok} {check}
    (hcheck : ∀ {w m e}, check w m = true → event w m = some e → ok w e) {moves}
    {shows} (h : (play check blank moves).any shows = true) :
    ∃ w past, Transition.Run (duo.system.restrict ok) w past ∧ shows w = true := by
  cases hw : play check blank moves with
  | none =>
    rw [hw] at h
    exact nomatch h
  | some w =>
    rw [hw] at h
    obtain ⟨past, hrun⟩ := run_of_play hcheck (.start blank_start) hw
    exact ⟨w, past, hrun, h⟩

theorem exists_run {moves} {shows}
    (h : (play (fun _ _ => true) blank moves).any shows = true) :
    ∃ w past, Transition.Run duo.system w past ∧ shows w = true := by
  obtain ⟨w, past, hrun, hw⟩ := @exists_restricted_run (fun _ _ => True) _ (fun _ _ => trivial) _ _ h
  exact ⟨w, past, hrun.of_restrict, hw⟩

/-- Node `true` says hello, node `false` sends its key, and the first data packet of `true` arrives. -/
def shake : List Move :=
  [.create false, .create true, .send true 3, .deliver false 0, .send false 4, .deliver true 1, .send true 5,
    .deliver false 2]

end Duo

end Hyperboria.CryptoAuth
