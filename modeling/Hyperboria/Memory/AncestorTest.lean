/-
`isAncestorOf` in `memory/Allocator.c`, which goes up by the natural parent and then by the adopters. The
loop over the adopters does not move on: when the first of them is not below the allocator that is looked
for, the same one is tried again.
-/
import Hyperboria.Memory.Ownership

namespace Hyperboria.Allocator

open Digraph Er List

/-- Where `isAncestorOf` comes to an end. Above an allocator that has other parents than its natural one, it has to find
`a` above the natural parent or above the first of the others. -/
inductive Decided (s : State) (E : List (Option Nat × Nat)) (a : Nat) : Nat → Prop where
  | self : Decided s E a a
  | root {c : Nat} (hc : s.parent c = some c) : Decided s E a c
  | up {c p : Nat} (hp : s.parent c = some p) (hd : Decided s E a p)
    (hf : ¬ Path E a p → ∀ f, (s.adopters c).head? = some f → Decided s E a f)
    (hpath : ¬ Path E a p → ∀ f, (s.adopters c).head? = some f → Path E a f) : Decided s E a c

/-- The test whether `a` is above `c` ends with the right answer, and so do the calls that make it. -/
structure AncestorTest (s : State) (E : List (Option Nat × Nat)) (a c : Nat) : Prop where
  answers : ∃ b enough, (∀ fuel, enough ≤ fuel → isAncestorOf s a fuel (some c) = .ret b) ∧ (b = true ↔ Path E a c)
  adopts : ∃ s' enough, ∀ fuel, enough ≤ fuel → adopt fuel c a s = .ret s'
  disowns : s.parent a ≠ some c → c ∈ s.adopters a →
    ∃ s' enough, ∀ fuel, enough ≤ fuel → disown fuel c a s = .ret s'

section

variable {s : State} {E : List (Option Nat × Nat)} {a c p fuel : Nat} {b : Bool}

theorem isAncestorOf_top (hc : a = c ∨ s.parent c = some c) (hfuel : 0 < fuel) :
    isAncestorOf s a fuel (some c) = .ret (a = c) := by
  obtain ⟨n, rfl⟩ := Nat.exists_eq_add_of_lt hfuel
  by_cases hac : a = c
  · simp [isAncestorOf, hac]
  · have hc : (s.node c).parent = some c := hc.resolve_left hac
    simp [isAncestorOf, hac, hc]

theorem isAncestorOf_up (hac : a ≠ c) (hp : s.parent c = some p) (hpc : p ≠ c) (hfuel : 0 < fuel) :
    isAncestorOf s a fuel (some c) = isAncestorOf s a (fuel - 1) (some p) >>= fun r =>
      if r then .ret true
      else
        match s.adopters c with
        | [] => .ret false
        | f :: _ => isAncestorOf s a (fuel - 1) (some f) >>= fun r => if r then .ret true else .spin := by
  have hp : (s.node c).parent = some p := hp
  obtain ⟨n, rfl⟩ := Nat.exists_eq_add_of_lt hfuel
  rw [isAncestorOf, if_neg hac, hp, if_neg fun heq => hpc (Option.some.inj heq)]
  rfl

variable (h : Sound s E) (ha : s.Live a)
include h ha

theorem Decided.of_ret (hc : s.Live c) (hret : isAncestorOf s a fuel (some c) = .ret b) : Decided s E a c := by
  induction fuel generalizing c b with
  | zero => cases hret
  | succ fuel ih =>
    by_cases hac : a = c
    · exact hac ▸ .self
    by_cases hc0 : c = 0
    · exact .root (hc0 ▸ h.root (hc0 ▸ hc))
    obtain ⟨p, hp, hparent, _⟩ := h.hasParent c hc hc0
    by_cases hpc : p = c
    · exact .root (hpc ▸ hparent)
    rw [isAncestorOf_up hac hparent hpc (Nat.succ_pos _)] at hret
    obtain ⟨r, hr, hret⟩ := bind_inv hret
    have hup := (h.isAncestorOf ha fuel hp).2 r hr
    have hfirst : ¬ Path E a p → ∀ f, (s.adopters c).head? = some f → Decided s E a f ∧ Path E a f := by
      intro hnot f hf
      obtain ⟨rest, hf⟩ := head?_eq_some_iff.mp hf
      rw [if_neg (mt hup.mp hnot), hf] at hret
      have hlive := h.adopter c hc f (hf ▸ mem_cons_self)
      obtain ⟨r, hr, hret⟩ := bind_inv hret
      cases r with
      | true => exact ⟨ih hlive hr, ((h.isAncestorOf ha fuel hlive).2 _ hr).mp rfl⟩
      | false => cases hret
    exact .up hparent (ih hp hr) (fun hnot f hf => (hfirst hnot f hf).1) fun hnot f hf => (hfirst hnot f hf).2

theorem Decided.ends (hd : Decided s E a c) (hc : s.Live c) :
    ∃ b enough, ∀ fuel, enough ≤ fuel → Allocator.isAncestorOf s a fuel (some c) = .ret b := by
  induction hd with
  | self => exact ⟨_, 1, fun fuel => isAncestorOf_top (.inl rfl)⟩
  | root hroot => exact ⟨_, 1, fun fuel => isAncestorOf_top (.inr hroot)⟩
  | @up c p hp _ _ hpath ih ihf =>
    by_cases htop : a = c ∨ s.parent c = some c
    · exact ⟨_, 1, fun fuel => isAncestorOf_top htop⟩
    obtain ⟨hac, hroot⟩ := not_or.mp htop
    have hpc : p ≠ c := fun heq => hroot (heq ▸ hp)
    obtain ⟨q, hq, hparent, _⟩ := h.hasParent c hc fun hc0 => hroot (hc0 ▸ h.root (hc0 ▸ hc))
    cases hparent.symm.trans hp
    obtain ⟨r, enough, hr⟩ := ih hq
    have hup := (h.isAncestorOf ha enough hq).2 r (hr enough le_rfl)
    by_cases htrue : r = true
    · refine ⟨true, enough + 1, fun fuel hle => ?_⟩
      rw [isAncestorOf_up hac hp hpc (by omega), hr _ (by omega), ret_bind, if_pos htrue]
    have hnot := mt hup.mpr htrue
    cases hf : s.adopters c with
    | nil =>
      refine ⟨false, enough + 1, fun fuel hle => ?_⟩
      rw [isAncestorOf_up hac hp hpc (by omega), hr _ (by omega), ret_bind, if_neg htrue, hf]
    | cons f rest =>
      have hhead : (s.adopters c).head? = some f := hf ▸ rfl
      have hlive := h.adopter c hc f (hf ▸ mem_cons_self)
      obtain ⟨r', enough', hr'⟩ := ihf hnot f hhead hlive
      have hup' := ((h.isAncestorOf ha enough' hlive).2 r' (hr' enough' le_rfl)).mpr (hpath hnot f hhead)
      refine ⟨true, enough + enough' + 1, fun fuel hle => ?_⟩
      rw [isAncestorOf_up hac hp hpc (by omega), hr _ (by omega), ret_bind, if_neg htrue, hf]
      dsimp only
      rw [hr' _ (by omega), ret_bind, if_pos hup']

end

/-- After every run of calls, the ancestor test of two allocators ends with the right answer, and the calls that rest on
it return, if and only if each loop over adopters is left in its first turn. -/
theorem ancestorTest_iff {s : State} {E : List (Option Nat × Nat)} (h : Run s E) {a c : Nat} (ha : s.Live a)
    (hc : s.Live c) : AncestorTest s E a c ↔ Decided s E a c := by
  have hsound := h.sound
  constructor
  · intro htest
    obtain ⟨b, enough, hb, _⟩ := htest.answers
    exact .of_ret hsound ha hc (hb enough le_rfl)
  · intro hd
    obtain ⟨b, enough, hb⟩ := hd.ends hsound ha hc
    have hanswer := (hsound.isAncestorOf ha enough hc).2 b (hb enough le_rfl)
    refine ⟨⟨b, enough, hb, hanswer⟩, ?_, fun hnat hadopter => ?_⟩
    · refine ⟨if b then s else relist c a (a :: ·) (c :: ·) s, enough, fun fuel hle => ?_⟩
      rw [hsound.adopt_eq hc ha, hb fuel hle, ret_bind, apply_ite Er.ret]
    · refine ⟨if b then s else relist c a (·.erase a) (·.erase c) s, enough, fun fuel hle => ?_⟩
      rw [hsound.disown_eq hc ha fun _ => hadopter, if_neg hnat, hb fuel hle, ret_bind, apply_ite Er.ret]

/-- Three allocators below the root, of which the first adopts the second. -/
theorem adoption_run : ∃ s, [.child 0, .child 0, .child 0, .adopt 1 2].foldlM (step 9) new = .ret s ∧
    Run s [(some 1, 2), (some 0, 3), (some 0, 2), (some 0, 1), (none, 0)] := by
  have h₁ := @Run.step _ _ _ _ (.child 0) 9 .new (show new.Live 0 by decide) rfl .child
  have h₂ := @Run.step _ _ _ _ (.child 0) 9 h₁ (show State.Live _ 0 by decide) rfl .child
  have h₃ := @Run.step _ _ _ _ (.child 0) 9 h₂ (show State.Live _ 0 by decide) rfl .child
  have hpath : ¬ Path [(some 0, 3), (some 0, 2), (some 0, 1), (none, 0)] 2 1 := by
    intro hpath
    rcases Relation.ReflTransGen.cases_head hpath with heq | ⟨b, hb, _⟩
    · cases heq
    · simp [Edge] at hb
  have h₄ := @Run.step _ _ _ _ (.adopt 1 2) 9 h₃ (show State.Live _ 1 ∧ State.Live _ 2 by decide) rfl (.adopt hpath)
  exact ⟨_, rfl, h₄⟩

/-- The adopter is found above the adopted one, though it is not above its natural parent. -/
theorem ancestorTest_adopter : ∃ s E, Run s E ∧ s.parent 2 = some 0 ∧ s.adopters 2 = [1] ∧
    ∃ b enough, (∀ fuel, enough ≤ fuel → isAncestorOf s 1 fuel (some 2) = .ret b) ∧ (b = true ↔ Path E 1 2) := by
  obtain ⟨s, hs, hrun⟩ := adoption_run
  cases hs
  have htest := (ancestorTest_iff hrun (show State.Live _ 1 by decide) (show State.Live _ 2 by decide)).mpr
    (.up (p := 0) rfl (.root rfl) (fun _ f hf => by cases hf; exact .self) fun _ f hf => by cases hf; exact .refl)
  exact ⟨_, _, hrun, rfl, rfl, htest.answers⟩

/-- It is never found out that the third allocator is not above the second, and the second cannot adopt the third. -/
theorem second_adopter : ∃ s E, Run s E ∧ s.Live 2 ∧ s.Live 3 ∧
    ∀ fuel, isAncestorOf s 3 fuel (some 2) = .spin ∧ adopt fuel 2 3 s = .spin := by
  obtain ⟨s, hs, hrun⟩ := adoption_run
  cases hs
  refine ⟨_, _, hrun, by decide, by decide, fun fuel => ?_⟩
  rcases fuel with _ | _ | _ | fuel
  · exact ⟨rfl, rfl⟩
  · exact ⟨rfl, rfl⟩
  · exact ⟨rfl, rfl⟩
  · exact ⟨rfl, rfl⟩

end Hyperboria.Allocator
