/-
Who owns whom, over a run of calls. A child and an adoption add an edge to the graph of ownership, a
disowning takes away one from the given parent, a freeing takes away the natural edge into its argument.
What has been released after a run is what cannot be reached any more.
-/
import Hyperboria.Memory.Freeing

namespace Hyperboria.Allocator

open Digraph Er List Nat Option

namespace Sound

variable {s s' : State} {E : List (Option Nat × Nat)}

/-! ## Ancestors -/

/-- If `isAncestorOf` comes back, then with the right answer. -/
theorem isAncestorOf (h : Sound s E) {a} (ha : s.Live a) (fuel : Nat) {c} (hc : s.Live c) :
    (Allocator.isAncestorOf s a fuel (some c)).Meets OnlyDepth fun r => r = true ↔ Path E a c := by
  induction fuel generalizing c with
  | zero => exact meets_spin
  | succ fuel ih =>
    rw [Allocator.isAncestorOf]
    by_cases hac : a = c
    · rw [if_pos hac]
      exact meets_ret (iff_of_true rfl (hac ▸ .refl))
    rw [if_neg hac]
    -- A way to another allocator ends with an edge from one of its owners.
    have hlast : Path E a c → ∃ z, Path E a z ∧ some z ∈ s.owners c := by
      intro hpath
      rcases Relation.ReflTransGen.cases_tail hpath with heq | ⟨z, hz, he⟩
      · exact absurd heq.symm hac
      · exact ⟨z, hz, h.owner_of_edge (h.path_live ha hz) he⟩
    by_cases hc0 : c = 0
    · subst hc0
      have hparent : (s.node 0).parent = some 0 := h.root hc
      rw [if_pos hparent]
      refine meets_ret (iff_of_false Bool.false_ne_true fun hpath => ?_)
      obtain ⟨z, _, hz⟩ := hlast hpath
      rcases mem_cons.mp hz with hz | hz
      · exact absurd rfl (natural_eq_some.mp hz.symm).1
      · obtain ⟨j, hj, _⟩ := mem_map.mp hz
        exact h.toWired.adopted_ne_root h.acyclic h.edge hc hj rfl
    · obtain ⟨q, hq, hparent, _⟩ := h.hasParent c hc hc0
      have hnat := natural_eq_some.mpr ⟨hc0, hparent⟩
      have hedge : Edge E q c := h.edge c hc (some q) (hnat ▸ mem_cons_self)
      have hparent : (s.node c).parent = some q := hparent
      have hself : ¬ some q = some c := fun heq => h.acyclic.ne hedge (some.inj heq)
      rw [hparent, if_neg hself]
      refine (ih hq).bind fun r hr => ?_
      by_cases hup : r = true
      · rw [if_pos hup]
        exact meets_ret (iff_of_true rfl ((hr.mp hup).tail hedge))
      rw [if_neg hup]
      split
      · next hnone =>
        refine meets_ret (iff_of_false Bool.false_ne_true fun hpath => ?_)
        obtain ⟨z, hz, howner⟩ := hlast hpath
        have hnone : s.adopters c = [] := hnone
        rw [State.owners, hnat, hnone, map_nil, mem_singleton] at howner
        exact hup (hr.mpr (some.inj howner ▸ hz))
      · next p ps hadopters =>
        have hp : p ∈ s.adopters c := by
          rw [State.adopters, hadopters]
          exact mem_cons_self
        refine (ih (h.adopter c hc p hp)).bind fun r' hr' => ?_
        by_cases hup' : r' = true
        · rw [if_pos hup']
          have he : Edge E p c := h.edge c hc (some p) (mem_cons_of_mem _ (mem_map.mpr ⟨p, hp, rfl⟩))
          exact meets_ret (iff_of_true rfl ((hr'.mp hup').tail he))
        · rw [if_neg hup']
          exact meets_spin

end Sound

/-! ## Adoptions -/

/-- The lists that record what `p` adopted and who adopted `c`, changed. -/
def relist (p c : Nat) (f g : List Nat → List Nat) (s : State) : State :=
  (s.update p fun n => { n with adoptions := { n.adoptions with children := f n.adoptions.children } }).update c
    fun n => { n with adoptions := { n.adoptions with parents := g n.adoptions.parents } }

/-- `s'` has one adoption of `c` by `p` more than `s`. -/
structure Adopted (p c : Nat) (s s' : State) : Prop extends SameTree s s' where
  isFreeing : ∀ a, (s'.node a).isFreeing = (s.node a).isFreeing
  adopters : ∀ a b, (s'.adopters b).count a = (s.adopters b).count a + if a = p ∧ b = c then 1 else 0
  adopted : ∀ a b, (s'.adopted a).count b = (s.adopted a).count b + if a = p ∧ b = c then 1 else 0

section

variable {p c : Nat} {f g : List Nat → List Nat} {s s' : State} {E E' : List (Option Nat × Nat)}

theorem relist_adopters (b : Nat) : (relist p c f g s).adopters b = if b = c then g (s.adopters b) else s.adopters b := by
  simp only [relist, State.adopters, State.update_node]
  split_ifs <;> rfl

theorem relist_adopted (a : Nat) : (relist p c f g s).adopted a = if a = p then f (s.adopted a) else s.adopted a := by
  simp only [relist, State.adopted, State.update_node]
  split_ifs <;> rfl

theorem relist_isFreeing (a : Nat) : ((relist p c f g s).node a).isFreeing = (s.node a).isFreeing := by
  simp only [relist, State.update_node]
  split_ifs <;> rfl

theorem relist_sameTree : SameTree s (relist p c f g s) := by
  refine ⟨rfl, rfl, fun a => ?_, fun a => ?_⟩
  · simp only [relist, State.parent, State.update_node]
    split_ifs <;> rfl
  · simp only [relist, State.children, State.update_node]
    split_ifs <;> rfl

theorem SameTree.symm (h : SameTree s s') : SameTree s' s :=
  ⟨h.next.symm, h.released.symm, fun a => (h.parent a).symm, fun a => (h.children a).symm⟩

theorem count_cons_ite (l : List Nat) (a b : Nat) : (b :: l).count a = l.count a + if a = b then 1 else 0 := by
  by_cases h : a = b
  · subst h
    rw [count_cons_self, if_pos rfl]
  · rw [count_cons_of_ne (Ne.symm h), if_neg h, add_zero]

theorem adopted_cons : Adopted p c s (relist p c (c :: ·) (p :: ·) s) := by
  refine ⟨relist_sameTree, relist_isFreeing, fun a b => ?_, fun a b => ?_⟩
  · rw [relist_adopters]
    by_cases hbc : b = c
    · simp only [hbc, if_true, and_true, count_cons_ite]
    · simp only [hbc, if_false, and_false, add_zero]
  · rw [relist_adopted]
    by_cases hap : a = p
    · simp only [hap, if_true, true_and, count_cons_ite]
    · simp only [hap, if_false, false_and, add_zero]

theorem adopted_erase (hc : c ∈ s.adopted p) (hp : p ∈ s.adopters c) :
    Adopted p c (relist p c (·.erase c) (·.erase p) s) s := by
  refine ⟨relist_sameTree.symm, fun a => (relist_isFreeing a).symm, fun a b => ?_, fun a b => ?_⟩
  · rw [relist_adopters]
    by_cases hbc : b = c
    · simp only [hbc, if_true, and_true]
      rw [(perm_cons_erase hp).count_eq a, count_cons_ite]
    · simp only [hbc, if_false, and_false, add_zero]
  · rw [relist_adopted]
    by_cases hap : a = p
    · simp only [hap, if_true, true_and]
      rw [(perm_cons_erase hc).count_eq b, count_cons_ite]
    · simp only [hap, if_false, false_and, add_zero]

variable (h : Adopted p c s s')
include h

theorem Adopted.mem_adopters {a b} :
    a ∈ s'.adopters b ↔ a ∈ s.adopters b ∨ a = p ∧ b = c := by
  rw [← count_pos_iff, ← count_pos_iff, h.adopters]
  split_ifs with hab
  · exact iff_of_true (succ_pos _) (.inr hab)
  · rw [add_zero, or_iff_left hab]

theorem Adopted.mem_adopted {a b} :
    b ∈ s'.adopted a ↔ b ∈ s.adopted a ∨ a = p ∧ b = c := by
  rw [← count_pos_iff, ← count_pos_iff, h.adopted]
  split_ifs with hab
  · exact iff_of_true (succ_pos _) (.inr hab)
  · rw [add_zero, or_iff_left hab]

theorem Adopted.wired (hs : Wired s) (hp : s.Live p) (hc : s.Live c) : Wired s' := by
  refine h.toSameTree.wired hs ?_ ?_ ?_
  · intro b hb a ha
    rcases h.mem_adopters.mp ha with ha | ⟨ha, _⟩
    · exact hs.adopter b hb a ha
    · exact ha ▸ hp
  · intro a ha b hb
    rcases h.mem_adopted.mp hb with hb | ⟨_, hb⟩
    · exact hs.adoptee a ha b hb
    · exact hb ▸ hc
  · intro a b ha hb
    rw [h.adopters, h.adopted, hs.symm a b ha hb]

theorem Adopted.wired_before (hs : Wired s') : Wired s := by
  refine h.toSameTree.symm.wired hs ?_ ?_ ?_
  · intro b hb a ha
    exact hs.adopter b hb a (h.mem_adopters.mpr (.inl ha))
  · intro a ha b hb
    exact hs.adoptee a ha b (h.mem_adopted.mpr (.inl hb))
  · intro a b ha hb
    have hsymm := hs.symm a b ha hb
    rw [h.adopters, h.adopted] at hsymm
    exact add_right_cancel hsymm

theorem Adopted.owners (a : Option Nat) (b : Nat) :
    (s'.owners b).count a = (s.owners b).count a + if a = some p ∧ b = c then 1 else 0 := by
  rw [State.owners, State.owners, h.natural, count_cons, count_cons]
  cases a with
  | none =>
    rw [count_map_none, count_map_none]
    simp
  | some i =>
    rw [count_map_some, count_map_some, h.adopters]
    simp only [some.injEq]
    omega

omit h

theorem count_cons_edge (a : Option Nat) (b : Nat) :
    ((some p, c) :: E).count (a, b) = E.count (a, b) + if a = some p ∧ b = c then 1 else 0 := by
  by_cases h : a = some p ∧ b = c
  · rw [if_pos h, h.1, h.2, count_cons_self]
  · rw [if_neg h, count_cons_of_ne, add_zero]
    intro heq
    obtain ⟨ha, hb⟩ := Prod.mk.inj heq
    exact h ⟨ha.symm, hb.symm⟩

end

namespace Sound

variable {p c : Nat} {s s' : State} {E E' : List (Option Nat × Nat)}

/-- A change in what was adopted by whom keeps the graph sound, if the edges change with it. -/
theorem readopt (h : Sound s E) (hm : SameTree s s') (hw : Wired s')
    (hmarks : ∀ a, (s'.node a).isFreeing = (s.node a).isFreeing) (hacyclic : Acyclic E')
    (hcount : ∀ b, s.Live b → ∀ a, E.count (a, b) = (s.owners b).count a → E'.count (a, b) = (s'.owners b).count a)
    (hin : ∀ a b, (a, b) ∈ E' → (a, b) ∈ E ∨ s.Live b ∧ ∀ i, a = some i → s.Live i) : Sound s' E' := by
  refine { toWired := hw, unmarked := ?_, counted := ?_, acyclic := hacyclic, closed := ?_, bounded := ?_,
           made := fun b hb => hm.next ▸ h.made b (hm.released ▸ hb), once := hm.released ▸ h.once }
  · intro b hb hmark
    rw [State.Marked, hmarks] at hmark
    exact h.unmarked b ((hm.live b).mp hb) hmark
  · intro b hb a ha
    rw [hm.live] at hb
    exact hcount b hb a (h.counted b hb a fun i hi => (hm.live i).mp (ha i hi))
  · intro b hb
    rw [hm.live]
    induction hb with
    | source he =>
      rcases hin _ _ he with he | he
      · exact h.closed _ (.source he)
      · exact he.1
    | step _ he ih =>
      rcases hin _ _ he with he | he
      · exact h.path_live ih (.single he)
      · exact he.1
  · intro a b hab
    rw [hm.next]
    rcases hin a b hab with hab | hab
    · exact h.bounded a b hab
    · exact ⟨hab.1.1, fun i hi => (hab.2 i hi).1⟩

theorem adopt_eq (h : Sound s E) (hp : s.Live p) (hc : s.Live c) (fuel : Nat) :
    Allocator.adopt fuel p c s = Allocator.isAncestorOf s c fuel (some p) >>= fun r =>
      if r then .ret s else .ret (relist p c (c :: ·) (p :: ·) s) := by
  have hfree : (!(s.node c).isFreeing) = true := by
    rw [Doomed.not_marked_iff.mp (h.unmarked c hc)]
    rfl
  rw [Allocator.adopt, check hp, ret_bind, check hc, ret_bind, if_neg (h.unmarked p hp), assertTrue_bind hfree]
  rfl

/-- `Allocator__adopt` adds an edge, unless the new parent is below the child. -/
theorem adopt (h : Sound s E) (hp : s.Live p) (hc : s.Live c) (fuel : Nat) :
    (Allocator.adopt fuel p c s).Meets OnlyDepth fun s' =>
      Path E c p ∧ s' = s ∨ ¬ Path E c p ∧ Sound s' ((some p, c) :: E) := by
  rw [h.adopt_eq hp hc]
  refine (h.isAncestorOf hc fuel hp).bind fun r hr => ?_
  by_cases hup : r = true
  · rw [if_pos hup]
    exact meets_ret (.inl ⟨hr.mp hup, rfl⟩)
  rw [if_neg hup]
  have hpath : ¬ Path E c p := fun hpath => hup (hr.mpr hpath)
  have hm : Adopted p c s (relist p c (c :: ·) (p :: ·) s) := adopted_cons
  refine meets_ret (.inr ⟨hpath, ?_⟩)
  refine h.readopt hm.toSameTree (hm.wired h.toWired hp hc) hm.isFreeing (h.acyclic.cons hpath) ?_ ?_
  · intro b hb a hcount
    rw [count_cons_edge, hcount]
    exact (hm.owners a b).symm
  · intro a b hab
    rcases mem_cons.mp hab with hab | hab
    · cases hab
      exact .inr ⟨hc, fun i hi => some.inj hi ▸ hp⟩
    · exact .inl hab

theorem disown_eq (h : Sound s E) (hp : s.Live p) (hc : s.Live c)
    (hadopter : s.parent c ≠ some p → p ∈ s.adopters c) (fuel : Nat) :
    Allocator.disown fuel p c s =
      if s.parent c = some p then Allocator.free fuel c s
      else Allocator.isAncestorOf s c fuel (some p) >>= fun r =>
        if r then .ret s else .ret (relist p c (·.erase c) (·.erase p) s) := by
  have hfree : ¬ ((s.node p).isFreeing || (s.node c).isFreeing) = true := by
    rw [Doomed.not_marked_iff.mp (h.unmarked p hp), Doomed.not_marked_iff.mp (h.unmarked c hc)]
    exact Bool.false_ne_true
  rw [Allocator.disown, check hp, ret_bind, check hc, ret_bind, if_neg hfree]
  by_cases hparent : s.parent c = some p
  · rw [if_pos hparent, if_pos hparent]
  · have hpmem := hadopter hparent
    rw [if_neg hparent, if_neg hparent, disconnectAdopted_eq (h.count_pos hc hpmem) hpmem]
    rfl

/-- `Allocator__disown` takes away an edge from the given parent. -/
theorem disown (h : Sound s E) (hp : s.Live p) (hc : s.Live c) (he : Edge E p c) (fuel : Nat) :
    (Allocator.disown fuel p c s).Meets OnlyDepth fun s' => Sound s' (E.erase (some p, c)) := by
  have hadopter : s.parent c ≠ some p → p ∈ s.adopters c := by
    intro hparent
    rcases mem_cons.mp (h.owner_of_edge hp he) with hnat | hmem
    · exact absurd (natural_eq_some.mp hnat.symm).2 hparent
    · obtain ⟨j, hj, hjp⟩ := mem_map.mp hmem
      exact some.inj hjp ▸ hj
  rw [h.disown_eq hp hc hadopter]
  by_cases hparent : s.parent c = some p
  · rw [if_pos hparent]
    have hc0 : c ≠ 0 := by
      intro hc0
      subst hc0
      rw [h.root hc] at hparent
      exact h.acyclic.ne he (some.inj hparent).symm
    rw [← natural_eq_some.mpr ⟨hc0, hparent⟩]
    exact h.free hc fuel
  rw [if_neg hparent]
  have hpmem := hadopter hparent
  have hcmem := h.count_pos hc hpmem
  refine (h.isAncestorOf hc fuel hp).bind fun r hr => ?_
  by_cases hup : r = true
  · exact absurd (hr.mp hup) (h.acyclic.not_path he)
  rw [if_neg hup]
  have hm : Adopted p c (relist p c (·.erase c) (·.erase p) s) s := adopted_erase hcmem hpmem
  have hsub : E.erase (some p, c) ⊆ E := erase_subset
  refine meets_ret (h.readopt hm.toSameTree.symm (hm.wired_before h.toWired) (fun a => (hm.isFreeing a).symm)
    (h.acyclic.mono hsub) ?_ fun a b hab => .inl (hsub hab))
  intro b hb a hcount
  have hmem : (some p, c) ∈ E := he
  rw [(perm_cons_erase hmem).count_eq, count_cons_edge, hm.owners] at hcount
  exact add_right_cancel hcount

end Sound

/-! ## Children -/

/-- A child of `p` was made. -/
structure Born (p : Nat) (s s' : State) : Prop where
  next : s'.next = s.next + 1
  released : s'.released = s.released
  isFreeing : ∀ a, (s'.node a).isFreeing = if a = s.next then (s.node p).isFreeing else (s.node a).isFreeing
  parent : ∀ a, s'.parent a = if a = s.next then some p else s.parent a
  children : ∀ a, s'.children a =
    if a = s.next then [] else if a = p then s.next :: s.children a else s.children a
  adopters : ∀ a, s'.adopters a = if a = s.next then [] else s.adopters a
  adopted : ∀ a, s'.adopted a = if a = s.next then [] else s.adopted a

theorem Wired.born {s} (hs : Wired s) {p} (hp : s.Live p) :
    ∃ s', Allocator.child p s = .ret (s.next, s') ∧ Born p s s' := by
  have hne : p ≠ s.next := hp.1.ne
  have hnot : s.next ∉ s.children p := fun hmem => absurd (hs.child p hp _ hmem).1.1 (lt_irrefl _)
  generalize hs₁ : State.mk (s.update s.next fun _ => ⟨none, [], (s.node p).isFreeing, ⟨[], []⟩⟩).node (s.next + 1)
    s.released = s₁
  have hnode : ∀ a, s₁.node a = if a = s.next then ⟨none, [], (s.node p).isFreeing, ⟨[], []⟩⟩ else s.node a := by
    intro a
    rw [← hs₁]
    exact State.update_node s s.next (fun _ => ⟨none, [], (s.node p).isFreeing, ⟨[], []⟩⟩) a
  have hchild : Allocator.child p s = connect p s.next s₁ >>= fun s' => pure (s.next, s') := by
    rw [Allocator.child, Sound.check hp, ← hs₁]
    rfl
  have hparent : s₁.parent s.next = none := by
    rw [State.parent, hnode, if_pos rfl]
  have hmem : s.next ∉ s₁.children p := by
    rw [State.children, hnode, if_neg hne]
    exact hnot
  rw [hchild, connect_eq hparent hne hmem]
  refine ⟨_, rfl, by rw [← hs₁]; rfl, by rw [← hs₁]; rfl, ?_, ?_, ?_, ?_, ?_⟩
  all_goals
    intro a
    simp only [State.parent, State.children, State.adopters, State.adopted, State.update_node]
    split_ifs <;> simp_all

theorem Born.live {p} {s s'} (h : Born p s s') (hmade : ∀ b ∈ s.released, b < s.next) (a : Nat) :
    s'.Live a ↔ a = s.next ∨ s.Live a := by
  simp only [State.Live, h.next, h.released]
  constructor
  · intro hlive
    obtain ⟨hlt, hnot⟩ := hlive
    rcases Nat.lt_succ_iff_lt_or_eq.mp hlt with hlt | heq
    · exact .inr ⟨hlt, hnot⟩
    · exact .inl heq
  · intro hor
    rcases hor with heq | ⟨hlt, hnot⟩
    · subst heq
      exact ⟨Nat.lt_succ_self _, fun hmem => absurd (hmade _ hmem) (lt_irrefl _)⟩
    · exact ⟨hlt.trans (Nat.lt_succ_self _), hnot⟩

namespace Sound

variable {p : Nat} {s s' : State} {E : List (Option Nat × Nat)}

theorem root_live (h : Sound s E) {b} (hb : s.Live b) : s.Live 0 :=
  h.climb (P := fun _ => s.Live 0) h.acyclic (fun b hb q hq => h.edge b hb (some q) (hq ▸ mem_cons_self))
    (fun h0 => h0) (fun _ _ _ _ _ _ h0 => h0) b hb

theorem born_wired (h : Sound s E) (hp : s.Live p) (hm : Born p s s') : Wired s' := by
  have hlive := hm.live h.made
  have hold : ∀ {a}, s.Live a → a ≠ s.next := fun ha => ha.1.ne
  refine ⟨?_, ?_, ?_, ?_, ?_, ?_, ?_⟩
  · intro _
    have h0 := h.root_live hp
    rw [hm.parent, if_neg (hold h0)]
    exact h.root h0
  · intro b hb hb0
    rcases (hlive b).mp hb with hb | hb
    · refine ⟨p, (hlive p).mpr (.inr hp), by rw [hm.parent, if_pos hb], ?_⟩
      rw [hm.children, if_neg (hold hp), if_pos rfl, hb]
      exact mem_cons_self
    · obtain ⟨q, hq, hbq, hmem⟩ := h.hasParent b hb hb0
      refine ⟨q, (hlive q).mpr (.inr hq), by rw [hm.parent, if_neg (hold hb), hbq], ?_⟩
      rw [hm.children, if_neg (hold hq)]
      split
      · exact mem_cons_of_mem _ hmem
      · exact hmem
  · intro a ha b hb
    rw [hm.children] at hb
    rw [hm.parent]
    rcases (hlive a).mp ha with ha | ha
    · rw [if_pos ha] at hb
      cases hb
    rw [if_neg (hold ha)] at hb
    have hcases : b = s.next ∧ a = p ∨ b ∈ s.children a := by
      split at hb
      · next hap =>
        rcases mem_cons.mp hb with hb | hb
        · exact .inl ⟨hb, hap⟩
        · exact .inr hb
      · exact .inr hb
    rcases hcases with ⟨hb, hap⟩ | hb
    · refine ⟨(hlive b).mpr (.inl hb), ?_, by rw [if_pos hb, hap]⟩
      exact hb ▸ (hold (h.root_live hp)).symm
    · obtain ⟨hblive, hb0, hparent⟩ := h.child a ha b hb
      exact ⟨(hlive b).mpr (.inr hblive), hb0, by rw [if_neg (hold hblive), hparent]⟩
  · intro a ha
    rw [hm.children]
    rcases (hlive a).mp ha with ha | ha
    · rw [if_pos ha]
      exact nodup_nil
    · rw [if_neg (hold ha)]
      split
      · exact nodup_cons.mpr ⟨fun hmem => hold (h.child a ha _ hmem).1 rfl, h.nodup a ha⟩
      · exact h.nodup a ha
  · intro b hb a ha
    rw [hm.adopters] at ha
    rcases (hlive b).mp hb with hb | hb
    · rw [if_pos hb] at ha
      cases ha
    · rw [if_neg (hold hb)] at ha
      exact (hlive a).mpr (.inr (h.adopter b hb a ha))
  · intro a ha b hb
    rw [hm.adopted] at hb
    rcases (hlive a).mp ha with ha | ha
    · rw [if_pos ha] at hb
      cases hb
    · rw [if_neg (hold ha)] at hb
      exact (hlive b).mpr (.inr (h.adoptee a ha b hb))
  · intro a b ha hb
    rw [hm.adopters, hm.adopted]
    rcases (hlive a).mp ha with ha | ha
    · rw [if_pos ha, count_nil]
      rcases (hlive b).mp hb with hb | hb
      · rw [if_pos hb, count_nil]
      · rw [if_neg (hold hb)]
        exact count_eq_zero.mpr fun hmem => hold (h.adopter b hb a hmem) ha
    · rw [if_neg (hold ha)]
      rcases (hlive b).mp hb with hb | hb
      · rw [if_pos hb]
        exact (count_eq_zero.mpr fun hmem => hold (h.adoptee a ha b hmem) hb).symm
      · rw [if_neg (hold hb)]
        exact h.symm a b ha hb

/-- `Allocator__child` adds the natural edge into a new allocator. -/
theorem born (h : Sound s E) (hp : s.Live p) : ∃ s', Allocator.child p s = .ret (s.next, s') ∧
    Sound s' ((some p, s.next) :: E) := by
  obtain ⟨s', hs', hm⟩ := h.toWired.born hp
  refine ⟨s', hs', ?_⟩
  have hlive := hm.live h.made
  have hold : ∀ {a}, s.Live a → a ≠ s.next := fun ha => ha.1.ne
  have h0 := hold (h.root_live hp)
  have hfresh : ∀ a b, (a, b) ∈ E → b ≠ s.next ∧ a ≠ some s.next := by
    intro a b hab
    obtain ⟨hb, ha⟩ := h.bounded a b hab
    exact ⟨hb.ne, fun heq => lt_irrefl _ (ha _ heq)⟩
  have hnew : s'.owners s.next = [some p] := by
    rw [State.owners, State.natural, if_neg h0.symm, hm.parent, hm.adopters, if_pos rfl, if_pos rfl, map_nil]
  have hothers : ∀ b, s.Live b → s'.owners b = s.owners b := by
    intro b hb
    unfold State.owners State.natural
    rw [hm.parent, hm.adopters, if_neg (hold hb), if_neg (hold hb)]
  have hacyclic : Acyclic ((some p, s.next) :: E) := by
    refine h.acyclic.cons fun hpath => ?_
    rcases Relation.ReflTransGen.cases_head hpath with heq | ⟨z, hz, _⟩
    · exact hold hp heq.symm
    · exact (hfresh _ _ hz).2 rfl
  refine { toWired := h.born_wired hp hm, unmarked := ?_, counted := ?_, acyclic := hacyclic, closed := ?_, bounded := ?_,
           made := ?_, once := hm.released ▸ h.once }
  · intro b hb hmark
    rw [State.Marked, hm.isFreeing] at hmark
    rcases (hlive b).mp hb with hb | hb
    · rw [if_pos hb] at hmark
      exact h.unmarked p hp hmark
    · rw [if_neg (hold hb)] at hmark
      exact h.unmarked b hb hmark
  · intro b hb a ha
    rw [count_cons_edge]
    rcases (hlive b).mp hb with hb | hb
    · subst hb
      rw [hnew, count_eq_zero.mpr fun hab => (hfresh a _ hab).1 rfl]
      by_cases hap : a = some p
      · rw [if_pos ⟨hap, rfl⟩, hap, count_singleton_self]
      · rw [if_neg fun hab => hap hab.1, count_eq_zero.mpr fun hmem => hap (mem_singleton.mp hmem)]
    · rw [if_neg fun hab => hold hb hab.2, hothers b hb]
      by_cases hn : a = some s.next
      · -- The new allocator owns nothing.
        rw [count_eq_zero.mpr fun hab => (hfresh a b hab).2 hn]
        refine (count_eq_zero.mpr fun hmem => ?_).symm
        exact hold (h.owner_live hb hmem s.next hn) rfl
      · refine h.counted b hb a fun i hi => ?_
        rcases (hlive i).mp (ha i hi) with hin | hin
        · exact absurd (hin ▸ hi) hn
        · exact hin
  · intro b hb
    rw [hlive]
    have hcases : ∀ {a b}, (a, b) ∈ (some p, s.next) :: E → b = s.next ∨ (a, b) ∈ E := by
      intro a b hab
      rcases mem_cons.mp hab with hab | hab
      · exact .inl (Prod.mk.inj hab).2
      · exact .inr hab
    induction hb with
    | source he =>
      rcases hcases he with hb | he
      · exact .inl hb
      · exact .inr (h.closed _ (.source he))
    | step _ he ih =>
      rcases hcases he with hb | he
      · exact .inl hb
      · rcases ih with ha | ha
        · exact absurd (congrArg some ha) (hfresh _ _ he).2
        · exact .inr (h.path_live ha (.single he))
  · intro a b hab
    rw [hm.next]
    rcases mem_cons.mp hab with hab | hab
    · cases hab
      exact ⟨lt_succ_self _, fun i hi => some.inj hi ▸ hp.1.trans (lt_succ_self _)⟩
    · obtain ⟨hb, ha⟩ := h.bounded a b hab
      exact ⟨hb.trans (lt_succ_self _), fun i hi => (ha i hi).trans (lt_succ_self _)⟩
  · intro b hb
    rw [hm.next]
    exact (h.made b (hm.released ▸ hb)).trans (lt_succ_self _)

end Sound

/-! ## Runs -/

/-- The call is made on allocators that are there, and a disowning ends an adoption that is recorded or
takes the child from its natural parent. -/
def Proper (s : State) (E : List (Option Nat × Nat)) : Op → Prop
  | .child parent => s.Live parent
  | .adopt parent child => s.Live parent ∧ s.Live child
  | .disown parent child => s.Live parent ∧ s.Live child ∧ Edge E parent child
  | .free context => s.Live context

/-- What a call does to the graph of ownership. -/
inductive Changes (s : State) (E : List (Option Nat × Nat)) : Op → List (Option Nat × Nat) → Prop where
  | child {parent : Nat} : Changes s E (.child parent) ((some parent, s.next) :: E)
  | adopt {parent child : Nat} : ¬ Path E child parent → Changes s E (.adopt parent child) ((some parent, child) :: E)
  /-- The parent is below the child already: an adoption would be meaningless. -/
  | decline {parent child : Nat} : Path E child parent → Changes s E (.adopt parent child) E
  | disown {parent child : Nat} : Changes s E (.disown parent child) (E.erase (some parent, child))
  | free {context : Nat} : Changes s E (.free context) (E.erase (s.natural context, context))

/-- A run of calls that all returned has come to `s`, with the graph of ownership `E`. -/
inductive Run : State → List (Option Nat × Nat) → Prop where
  | new : Run new [(none, 0)]
  | step {s s' : State} {E E' : List (Option Nat × Nat)} {op : Op} {fuel : Nat} : Run s E → Proper s E op →
      step fuel s op = .ret s' → Changes s E op E' → Run s' E'

/-- One call: it ends the process only where the tree is too deep, and keeps the graph sound. -/
theorem Sound.step {s} {E E'} (h : Sound s E) (fuel : Nat) {op}
    (hop : Proper s E op) (hchanges : Changes s E op E') :
    (Allocator.step fuel s op).Meets OnlyDepth fun s' => Sound s' E' := by
  cases hchanges with
  | child =>
    obtain ⟨s', hs', hsound⟩ := h.born hop
    rw [Allocator.step, hs']
    exact meets_ret hsound
  | adopt hpath =>
    refine (h.adopt hop.1 hop.2 fuel).imp fun s' hs' => ?_
    rcases hs' with ⟨hpath', _⟩ | ⟨_, hsound⟩
    · exact absurd hpath' hpath
    · exact hsound
  | decline hpath =>
    refine (h.adopt hop.1 hop.2 fuel).imp fun s' hs' => ?_
    rcases hs' with ⟨_, hs'⟩ | ⟨hpath', _⟩
    · exact hs' ▸ h
    · exact absurd hpath hpath'
  | disown => exact h.disown hop.1 hop.2.1 hop.2.2 fuel
  | free => exact h.free hop fuel

theorem Run.sound {s} {E} (h : Run s E) : Sound s E := by
  induction h with
  | new => exact sound_new
  | step _ hop hret hchanges ih => exact (ih.step _ hop hchanges).2 _ hret

theorem exists_changes (s : State) (E : List (Option Nat × Nat)) (op : Op) : ∃ E', Changes s E op E' := by
  cases op with
  | child p => exact ⟨_, .child⟩
  | adopt p c =>
    by_cases hpath : Path E c p
    · exact ⟨_, .decline hpath⟩
    · exact ⟨_, .adopt hpath⟩
  | disown p c => exact ⟨_, .disown⟩
  | free c => exact ⟨_, .free⟩

/-- After every run of calls that returned, the allocators that were released are those made that
cannot be reached, none was released twice, and the next call ends the process only if it frees a tree
that is too deep. -/
theorem released_iff_unreachable {s : State} {E : List (Option Nat × Nat)} (h : Run s E) :
    (∀ a, a ∈ s.released ↔ a < s.next ∧ ¬ Reach E a) ∧ s.released.Nodup ∧
      ∀ (fuel : Nat) (op : Op) (message : String), Proper s E op → step fuel s op = .abort message →
        message = tooDeep := by
  have hsound := h.sound
  refine ⟨fun a => ?_, hsound.once, fun fuel op message hop habort => ?_⟩
  · rw [← hsound.live_iff]
    constructor
    · intro ha
      exact ⟨hsound.made a ha, fun hlive => hlive.2 ha⟩
    · intro ⟨hlt, hnot⟩
      by_contra ha
      exact hnot ⟨hlt, ha⟩
  · obtain ⟨E', hchanges⟩ := exists_changes s E op
    exact (hsound.step fuel hop hchanges).1 message habort

/-- Two allocators below the root, one with a child that the other adopts: when the first is freed, it
alone is released. -/
theorem released_once_adopted : ∃ s E, Run s E ∧ s.released = [1] ∧ ∀ a, a ∈ s.released ↔ a < s.next ∧ ¬ Reach E a := by
  have h₁ := @Run.step _ _ _ _ (.child 0) 9 .new (show new.Live 0 by decide) rfl .child
  have h₂ := @Run.step _ _ _ _ (.child 0) 9 h₁ (show State.Live _ 0 by decide) rfl .child
  have h₃ := @Run.step _ _ _ _ (.child 1) 9 h₂ (show State.Live _ 1 by decide) rfl .child
  have hpath : ¬ Path [(some 1, 3), (some 0, 2), (some 0, 1), (none, 0)] 3 2 := by
    intro hpath
    rcases Relation.ReflTransGen.cases_head hpath with heq | ⟨b, hb, _⟩
    · cases heq
    · simp [Edge] at hb
  have h₄ := @Run.step _ _ _ _ (.adopt 2 3) 9 h₃ (show State.Live _ 2 ∧ State.Live _ 3 by decide) rfl (.adopt hpath)
  set_option maxRecDepth 10000 in
  have h₅ := @Run.step _ _ _ _ (.free 1) 9 h₄ (show State.Live _ 1 by decide) rfl .free
  exact ⟨_, _, h₅, rfl, (released_iff_unreachable h₅).1⟩

end Hyperboria.Allocator
