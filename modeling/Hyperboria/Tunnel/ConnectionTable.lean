/-
The list of connections of `tunnel/IpTunnel.c`. `newConnection` moves the free slot down the list, to
behind the first incoming connection. No connection is lost that way, and no number is used twice. The
incoming connections stay on one side of the outgoing ones as long as none is made with `connectTo`
while an incoming one stands behind an outgoing one.
-/
import Hyperboria.Transition
import Hyperboria.Tunnel.IpTunnel

namespace Hyperboria.IpTunnel

open Er List

/-- What is behind an outgoing connection is outgoing. -/
def IncomingFirst (connections : List Connection) : Prop :=
  connections.Pairwise fun a b => a.isOutgoing = true → b.isOutgoing = true

/-- What is behind an incoming connection is incoming. -/
def OutgoingFirst (connections : List Connection) : Prop :=
  connections.Pairwise fun a b => b.isOutgoing = true → a.isOutgoing = true

/-- All incoming connections stand on one side of the outgoing ones. -/
def OneSided (connections : List Connection) : Prop := IncomingFirst connections ∨ OutgoingFirst connections

theorem OneSided.congr {connections connections'} (h : OneSided connections)
    (hkinds : connections.map Connection.isOutgoing = connections'.map Connection.isOutgoing) : OneSided connections' := by
  unfold OneSided IncomingFirst OutgoingFirst at h ⊢
  rw [← pairwise_map (f := Connection.isOutgoing) (R := fun a b => a = true → b = true),
    ← pairwise_map (f := Connection.isOutgoing) (R := fun a b => b = true → a = true)] at h ⊢
  rwa [← hkinds]

/-- The connections between those to be looked at and the free slot, and those behind it: there was no incoming
one yet, or the first of them is the last before the slot. -/
def Settled (between behind : List Connection) : Prop :=
  ∃ outs, (∀ c ∈ outs, c.isOutgoing = true) ∧
    (between = outs ∧ behind = [] ∨ ∃ c, between = outs ++ [c] ∧ c.isOutgoing = false)

theorem Settled.oneSided {between behind} {x} (h : Settled between behind)
    (hx : x.isOutgoing = false) (hside : OneSided (between ++ behind)) : OneSided (between ++ x :: behind) := by
  obtain ⟨outs, houts, ⟨rfl, rfl⟩ | ⟨c, rfl, hc⟩⟩ := h
  · refine .inr (pairwise_append.mpr ⟨?_, pairwise_singleton _ x, fun a ha b _ _ => houts a ha⟩)
    exact pairwise_of_forall_mem_list fun a ha b _ _ => houts a ha
  · unfold OneSided IncomingFirst OutgoingFirst at hside ⊢
    simp only [append_assoc, singleton_append, pairwise_append, pairwise_cons] at hside ⊢
    grind

variable {before between behind : List Connection} {c d free : Connection}

/-- The connection that is moved into the free slot is outgoing like all before the slot, or the only one there. -/
theorem Settled.move (h : Settled (d :: between) behind) (hc : c.isOutgoing = false)
    (hside : OneSided (before ++ c :: d :: (between ++ behind))) : OneSided (before ++ c :: (between ++ d :: behind)) := by
  obtain ⟨outs, houts, ⟨rfl, rfl⟩ | ⟨e, he, hin⟩⟩ := h
  · have hkinds : between.map Connection.isOutgoing = replicate between.length true :=
      map_eq_replicate_iff.mpr fun e he => houts e (mem_cons_of_mem d he)
    refine hside.congr ?_
    simp only [map_append, map_cons, hkinds, houts d mem_cons_self, append_nil, map_nil]
    rw [← replicate_succ, replicate_succ']
  · cases outs with
    | nil =>
      obtain ⟨rfl, rfl⟩ := List.cons.inj he
      exact hside
    | cons o outs =>
      unfold OneSided IncomingFirst OutgoingFirst at hside
      simp only [mem_cons] at hside houts
      grind

/-- The loop, with the connections before the slot in two parts: what it has not come to and the rest. -/
theorem makeRoom_eq : ∃ between' free' behind',
    makeRoom before.length (before.length + between.length) (before ++ (between ++ free :: behind)) =
      (between'.length, between' ++ free' :: behind') ∧
    between' ++ behind' ~ before ++ (between ++ behind) ∧
    (OneSided (before ++ (between ++ behind)) → Settled between behind →
      Settled between' behind' ∧ OneSided (between' ++ behind')) := by
  induction before using List.reverseRecOn generalizing between free behind with
  | nil => exact ⟨between, free, behind, by simp [makeRoom], .refl _, fun hside h => ⟨h, hside⟩⟩
  | append_singleton before c ih =>
    simp only [length_append, length_singleton, append_assoc, singleton_append]
    rw [makeRoom]
    by_cases hc : c.isOutgoing = false
    · have hsettled : ∀ behind, Settled [c] behind := fun behind => ⟨[], by simp, .inr ⟨c, rfl, hc⟩⟩
      cases between with
      | nil =>
        rw [if_neg (by simp)]
        obtain ⟨b, f, e, heq, hperm, hside⟩ := @ih [c] behind free
        exact ⟨b, f, e, heq, hperm, fun h _ => hside h (hsettled behind)⟩
      | cons d between =>
        rw [if_pos (by simp [hc])]
        obtain ⟨b, f, e, heq, hperm, hside⟩ := @ih [c] (between ++ d :: behind) d
        refine ⟨b, f, e, heq ▸ congrArg (makeRoom _ _) ?_, hperm.trans (.append_left _ (.cons c perm_middle)),
          fun h hd => hside (hd.move hc h) (hsettled _)⟩
        have hlen : before.length + 1 + (d :: between).length = (before ++ c :: d :: between).length := by simp; omega
        rw [hlen]
        simp
    · rw [if_neg (by simp [hc])]
      obtain ⟨b, f, e, heq, hperm, hside⟩ := @ih (c :: between) behind free
      refine ⟨b, f, e, heq ▸ congrArg (makeRoom _ · _) (by simp; omega), hperm, fun h hd => hside h ?_⟩
      obtain ⟨outs, houts, hcases⟩ := hd
      refine ⟨c :: outs, forall_mem_cons.mpr ⟨by simpa using hc, houts⟩, ?_⟩
      simpa using hcases

/-! ## New connections -/

theorem number31_inj {m n} (hm : m < 2 ^ 31) (hn : n < 2 ^ 31) (h : number31 m = number31 n) : m = n := by
  unfold number31 at h
  split at h
  · split at h
    · omega
    · omega
  · split at h
    · omega
    · omega

variable {context context' : IpTunnel} {isOutgoing : Bool} {fill : Connection → Connection} {conn : Connection}

theorem newConnection_number (h : newConnection isOutgoing fill context = .ret (conn, context')) :
    conn = fill { Connection.zero with isOutgoing, number := number31 context.nextConnectionNumber } ∧
      context'.nextConnectionNumber = context.nextConnectionNumber + 1 ∧
      context'.nextConnectionNumber < 2 ^ 31 - 1 := by
  obtain ⟨_, hlimit, h⟩ := bind_inv h
  cases h
  exact ⟨rfl, rfl, of_decide_eq_true (assertTrue_eq_ret.mp hlimit)⟩

theorem newConnection_outgoing (h : newConnection true fill context = .ret (conn, context')) :
    context'.connections = context.connections ++ [conn] := by
  obtain ⟨_, -, h⟩ := bind_inv h
  cases h
  simp

theorem newConnection_incoming (h : newConnection false fill context = .ret (conn, context')) :
    ∃ before behind, context'.connections = before ++ conn :: behind ∧ before ++ behind ~ context.connections ∧
      (OneSided context.connections → Settled before behind ∧ OneSided (before ++ behind)) := by
  obtain ⟨before, free, behind, heq, hperm, hside⟩ := @makeRoom_eq context.connections [] [] .zero
  simp only [append_nil, nil_append, length_nil, Nat.add_zero] at heq hperm hside
  unfold newConnection at h
  simp only [heq] at h
  obtain ⟨_, -, h⟩ := bind_inv h
  cases h
  exact ⟨before, behind, by simp, hperm, fun hs => hside hs ⟨[], by simp, .inl ⟨rfl, rfl⟩⟩⟩

theorem newConnection_perm (h : newConnection isOutgoing fill context = .ret (conn, context')) :
    context'.connections ~ conn :: context.connections := by
  cases isOutgoing with
  | true =>
    rw [newConnection_outgoing h]
    exact perm_append_singleton _ _
  | false =>
    obtain ⟨before, behind, heq, hperm, -⟩ := newConnection_incoming h
    rw [heq]
    exact perm_middle.trans (hperm.cons conn)

/-- The connection that is allowed under a number. -/
def allowed (number : Int) (publicKey : Key) (allowance : Allowance) : Connection :=
  { Connection.zero with number, publicKey }.allow allowance

variable {number : Int} {publicKey : Key} {allowance : Allowance}

theorem allowed_fields : (allowed number publicKey allowance).number = number ∧
    (allowed number publicKey allowance).publicKey = publicKey ∧ (allowed number publicKey allowance).isOutgoing = false := by
  unfold allowed Connection.allow
  cases allowance.ip4 <;> cases allowance.ip6 <;> exact ⟨rfl, rfl, rfl⟩

theorem allowConnection_new (h : allowConnection publicKey allowance context = .ret (number, context')) :
    ∃ fill, newConnection false fill context = .ret (allowed number publicKey allowance, context') ∧
      number = number31 context.nextConnectionNumber := by
  obtain ⟨⟨conn, context₁⟩, hnew, h⟩ := bind_inv h
  obtain ⟨_, -, _, -, h⟩ := bind_inv2 h
  cases h
  have hconn : conn = allowed (number31 context.nextConnectionNumber) publicKey allowance := (newConnection_number hnew).1
  have hnumber : conn.number = number31 context.nextConnectionNumber := by rw [hconn, allowed_fields.1]
  rw [hnumber, ← hconn]
  exact ⟨_, hnew, rfl⟩

/-! ## Runs -/

/-- What the calls have made: the connections that were added and not removed, and all numbers that were given. -/
structure Ledger where
  connections : List Connection
  numbers : List Int

def Ledger.add (ledger : Ledger) (conn : Connection) : Ledger :=
  ⟨conn :: ledger.connections, conn.number :: ledger.numbers⟩

inductive Call where
  | allow (publicKey : Key) (allowance : Allowance)
  | connect (publicKey : Key)
  | remove (number : Int)

/-- A call, and what it is for. -/
def call (context : IpTunnel) (ledger : Ledger) : Call → Er (IpTunnel × Ledger)
  | .allow publicKey allowance => do
    let (number, context) ← allowConnection publicKey allowance context
    .ret (context, ledger.add (allowed number publicKey allowance))
  | .connect publicKey => do
    let (number, context, _) ← connectTo publicKey context
    .ret (context, ledger.add { Connection.zero with number, publicKey, isOutgoing := true })
  | .remove number =>
    .ret ((removeConnection number context).2, { ledger with connections := ledger.connections.eraseP (·.number = number) })

def calls : Transition.System (IpTunnel × Ledger) Call :=
  ⟨(· = (new, ⟨[], []⟩)), fun w c w' => call w.1 w.2 c = .ret w'⟩

/-- No connection is made while an incoming one stands behind an outgoing one. -/
def Orderly (w : IpTunnel × Ledger) : Call → Prop
  | .connect _ => IncomingFirst w.1.connections
  | _ => True

variable {ledger ledger' : Ledger} {c : Call}

theorem call_cases (h : call context ledger c = .ret (context', ledger')) :
    (∃ number, context' = (removeConnection number context).2 ∧
      ledger' = { ledger with connections := ledger.connections.eraseP (·.number = number) }) ∨
    ∃ isOutgoing fill conn, newConnection isOutgoing fill context = .ret (conn, context') ∧ ledger' = ledger.add conn ∧
      conn.isOutgoing = isOutgoing ∧ conn.number = number31 context.nextConnectionNumber ∧
      (isOutgoing = true → ∃ publicKey, c = .connect publicKey) := by
  cases c with
  | allow publicKey allowance =>
    obtain ⟨⟨number, context₁⟩, hallow, h⟩ := bind_inv h
    obtain ⟨fill, hnew, hnumber⟩ := allowConnection_new hallow
    cases h
    refine .inr ⟨false, fill, _, hnew, rfl, allowed_fields.2.2, ?_, fun h => nomatch h⟩
    rw [allowed_fields.1, hnumber]
  | connect publicKey =>
    obtain ⟨⟨number, context₁, outputs⟩, hconnect, h⟩ := bind_inv h
    obtain ⟨⟨conn, context₂⟩, hnew, hconnect⟩ := bind_inv hconnect
    cases h
    cases hconnect
    obtain ⟨rfl, -⟩ := newConnection_number hnew
    exact .inr ⟨true, _, _, hnew, rfl, rfl, rfl, fun _ => ⟨publicKey, rfl⟩⟩
  | remove number =>
    cases h
    exact .inl ⟨number, rfl, rfl⟩

/-- The list holds what the ledger says, and no number was given twice. -/
structure Kept (context : IpTunnel) (ledger : Ledger) : Prop where
  held : context.connections ~ ledger.connections
  unique : ledger.numbers.Nodup
  given : (ledger.connections.map Connection.number).Sublist ledger.numbers
  below : ∀ n ∈ ledger.numbers, ∃ k < context.nextConnectionNumber, n = number31 k
  limit : context.nextConnectionNumber < 2 ^ 31

theorem Kept.add (h : Kept context ledger) (hnew : newConnection isOutgoing fill context = .ret (conn, context'))
    (hnumber : conn.number = number31 context.nextConnectionNumber) : Kept context' (ledger.add conn) := by
  obtain ⟨-, hnext, hlimit⟩ := newConnection_number hnew
  refine ⟨(newConnection_perm hnew).trans (h.held.cons conn), nodup_cons.mpr ⟨fun hmem => ?_, h.unique⟩,
    h.given.cons_cons _, forall_mem_cons.mpr ⟨⟨_, by omega, hnumber⟩, fun n hn => ?_⟩, by omega⟩
  · obtain ⟨k, hk, heq⟩ := h.below _ hmem
    exact hk.ne (number31_inj (hk.trans h.limit) h.limit (heq.symm.trans hnumber))
  · obtain ⟨k, hk, heq⟩ := h.below n hn
    exact ⟨k, by omega, heq⟩

theorem removeConnection_eq : (removeConnection number context).2 =
    { context with connections := context.connections.eraseP (·.number = number) } := by
  rw [eraseP_eq_eraseIdx]
  unfold removeConnection
  split
  next h => simp [h]
  next h => simp [h]

theorem Kept.remove (h : Kept context ledger) : Kept (removeConnection number context).2
    { ledger with connections := ledger.connections.eraseP (·.number = number) } := by
  rw [removeConnection_eq]
  have hnodup : (context.connections.map Connection.number).Nodup :=
    (h.held.map _).nodup_iff.mpr (h.given.nodup h.unique)
  refine ⟨h.held.eraseP _ ?_, h.unique, (eraseP_sublist.map _).trans h.given, h.below, h.limit⟩
  refine (pairwise_map.mp hnodup).imp fun hne ha hb => hne ?_
  rw [of_decide_eq_true ha, of_decide_eq_true hb]

theorem Kept.call (h : Kept context ledger) (hcall : IpTunnel.call context ledger c = .ret (context', ledger')) :
    Kept context' ledger' := by
  rcases call_cases hcall with ⟨number, rfl, rfl⟩ | ⟨_, _, conn, hnew, rfl, -, hnumber, -⟩
  · exact h.remove
  · exact h.add hnew hnumber

theorem OneSided.call (h : OneSided context.connections) (horder : Orderly (context, ledger) c)
    (hcall : IpTunnel.call context ledger c = .ret (context', ledger')) : OneSided context'.connections := by
  rcases call_cases hcall with ⟨number, rfl, -⟩ | ⟨isOutgoing, fill, conn, hnew, -, hkind, -, hconnect⟩
  · rw [removeConnection_eq]
    exact h.imp (·.sublist eraseP_sublist) (·.sublist eraseP_sublist)
  · cases isOutgoing with
    | true =>
      obtain ⟨publicKey, rfl⟩ := hconnect rfl
      rw [newConnection_outgoing hnew]
      refine .inl (pairwise_append.mpr ⟨horder, pairwise_singleton _ conn, fun a _ b hb _ => ?_⟩)
      rw [mem_singleton.mp hb, hkind]
    | false =>
      obtain ⟨before, behind, heq, -, hside⟩ := newConnection_incoming hnew
      obtain ⟨hsettled, hside⟩ := hside h
      rw [heq]
      exact hsettled.oneSided hkind hside

/-- The list holds the connections that were added and not removed, in whatever order, and no number is given twice.
In every run without a connection that is made while an incoming one stands behind an outgoing one, all incoming
connections stand on one side. -/
theorem table_of_orderly {w : IpTunnel × Ledger} {past : List (IpTunnel × Ledger)} (h : Transition.Run calls w past) :
    w.1.connections ~ w.2.connections ∧ (w.2.connections.map Connection.number).Sublist w.2.numbers ∧
      w.2.numbers.Nodup ∧ (Transition.Run (calls.restrict Orderly) w past → OneSided w.1.connections) := by
  have hkept : Kept w.1 w.2 := by
    refine h.invariant (I := fun w => Kept w.1 w.2) (fun w hw => ?_) fun _ _ _ _ _ ih hstep => ih.call hstep
    exact hw ▸ ⟨.nil, nodup_nil, .slnil, fun _ h => (nomatch h), by decide⟩
  refine ⟨hkept.held, hkept.given, hkept.unique, fun horderly => ?_⟩
  refine horderly.invariant (I := fun w => OneSided w.1.connections) (fun w hw => ?_) fun _ _ _ _ _ ih hstep => ?_
  · exact hw ▸ .inl .nil
  · exact ih.call hstep.1 hstep.2

/-- One connection. -/
def single : IpTunnel × Ledger :=
  (⟨[{ Connection.zero with isOutgoing := true }], 1⟩, ⟨[{ Connection.zero with isOutgoing := true }], [0]⟩)

/-- Another one, incoming. -/
def both : IpTunnel × Ledger :=
  (⟨single.1.connections ++ [{ Connection.zero with number := 1 }], 2⟩, single.2.add { Connection.zero with number := 1 })

theorem both_run : Transition.Run (calls.restrict Orderly) both [single, (new, ⟨[], []⟩)] := by
  have hconnect : (calls.restrict Orderly).step (new, ⟨[], []⟩) (.connect .zero) single := ⟨.nil, rfl⟩
  have hallow : (calls.restrict Orderly).step single (.allow .zero ⟨none, 0, 0, none, 0, 0⟩) both := ⟨trivial, rfl⟩
  exact .step (.step (.start rfl) hconnect) hallow

theorem table_of_orderly_both : both.1.connections ~ both.2.connections ∧ OneSided both.1.connections :=
  ⟨(table_of_orderly both_run.of_restrict).1, (table_of_orderly both_run.of_restrict).2.2.2 both_run⟩

/-- A connection that is made then stands behind the incoming one. -/
theorem incoming_between : ∃ w past, Transition.Run calls w past ∧ ¬ OneSided w.1.connections := by
  have hconnect : calls.step both (.connect .zero) _ := rfl
  refine ⟨_, _, both_run.of_restrict.step hconnect, ?_⟩
  unfold OneSided IncomingFirst OutgoingFirst
  decide

end Hyperboria.IpTunnel
