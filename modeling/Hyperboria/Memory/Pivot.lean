/-
The marking of `pivotChildrenToAdoptedParents`. While it goes on, the natural edge into the allocator
that is freed counts for nothing, and neither do the edges out of those that are marked: every other
edge of the graph is a natural parent or an adoption (`Doomed.counted`). A pass marks or moves the
allocators of one depth and leaves the ones above where they are, so that after a pass that marks none
everything below is marked (`Doomed.marked_below`).
-/
import Hyperboria.Digraph
import Hyperboria.Memory.Allocator

namespace Hyperboria.Allocator

open Digraph Er List Nat

namespace State

abbrev parent (s : State) (a : Nat) : Option Nat := (s.node a).parent

abbrev children (s : State) (a : Nat) : List Nat := (s.node a).children

abbrev adopters (s : State) (a : Nat) : List Nat := (s.node a).adoptions.parents

abbrev adopted (s : State) (a : Nat) : List Nat := (s.node a).adoptions.children

abbrev Marked (s : State) (a : Nat) : Prop := (s.node a).isFreeing = true

/-- Where the natural edge into an allocator comes from; the root hangs on nothing. -/
def natural (s : State) (b : Nat) : Option Nat := if b = 0 then none else s.parent b

/-- Where the edges into an allocator come from. -/
def owners (s : State) (b : Nat) : List (Option Nat) := s.natural b :: (s.adopters b).map some

end State

/-- The lists of one allocator and the parents of the others agree. -/
structure Wired (s : State) : Prop where
  root : s.Live 0 → s.parent 0 = some 0
  hasParent : ∀ b, s.Live b → b ≠ 0 → ∃ p, s.Live p ∧ s.parent b = some p ∧ b ∈ s.children p
  child : ∀ a, s.Live a → ∀ b ∈ s.children a, s.Live b ∧ b ≠ 0 ∧ s.parent b = some a
  nodup : ∀ a, s.Live a → (s.children a).Nodup
  adopter : ∀ b, s.Live b → ∀ a ∈ s.adopters b, s.Live a
  adoptee : ∀ a, s.Live a → ∀ b ∈ s.adopted a, s.Live b
  symm : ∀ a b, s.Live a → s.Live b → (s.adopters b).count a = (s.adopted a).count b

theorem count_map_some (l : List Nat) (i : Nat) : (l.map some).count (some i) = l.count i :=
  count_map_of_injective l some (Option.some_injective _) i

theorem count_map_none (l : List Nat) : (l.map some).count none = 0 :=
  count_eq_zero.mpr (by simp)

/-! ## One allocator moves -/

/-- `c` went from its parent `q` to `p`, which had adopted it. -/
structure Moved (c q p : Nat) (s s' : State) : Prop where
  next : s'.next = s.next
  released : s'.released = s.released
  isFreeing : ∀ a, (s'.node a).isFreeing = (s.node a).isFreeing
  parent : ∀ a, s'.parent a = if a = c then some p else s.parent a
  children : ∀ a, s'.children a =
    (if a = p then [c] else []) ++ (if a = q then (s.children a).erase c else s.children a)
  adopters : ∀ a, s'.adopters a = if a = c then (s.adopters a).erase p else s.adopters a
  adopted : ∀ a, s'.adopted a = if a = p then (s.adopted a).erase c else s.adopted a

variable {c p q : Nat}

variable {s s' : State}

theorem Moved.live (h : Moved c q p s s') (a : Nat) : s'.Live a ↔ s.Live a := by
  simp [State.Live, h.next, h.released]

theorem Moved.marked (h : Moved c q p s s') (a : Nat) : s'.Marked a ↔ s.Marked a := by
  simp [h.isFreeing]

variable {a : Nat}

theorem Wired.not_mem_erase (h : Wired s) (hq : s.parent c = some q) (ha : s.Live a) :
    c ∉ if a = q then (s.children a).erase c else s.children a := by
  intro hc
  by_cases haq : a = q
  · rw [if_pos haq] at hc
    exact (h.nodup a ha).not_mem_erase hc
  · rw [if_neg haq] at hc
    have := (h.child a ha c hc).2.2
    rw [hq] at this
    exact haq (Option.some.inj this).symm

theorem Wired.mem_of_parent (h : Wired s) (hc : s.Live c) (h0 : c ≠ 0) (hq : s.parent c = some q) :
    s.Live q ∧ c ∈ s.children q := by
  obtain ⟨p, hp, hcp, hmem⟩ := h.hasParent c hc h0
  rw [hq] at hcp
  cases hcp
  exact ⟨hp, hmem⟩

theorem Wired.count_pos (h : Wired s) (hc : s.Live c) (hp : p ∈ s.adopters c) :
    c ∈ s.adopted p := by
  have hlive := h.adopter c hc p hp
  rw [← count_pos_iff, ← h.symm p c hlive hc]
  exact count_pos_iff.mpr hp

theorem Moved.wired (h : Moved c q p s s') (hs : Wired s) (hc : s.Live c) (h0 : c ≠ 0) (hq : s.parent c = some q)
    (hp : p ∈ s.adopters c) : Wired s' := by
  have hplive := hs.adopter c hc p hp
  refine ⟨?_, ?_, ?_, ?_, ?_, ?_, ?_⟩
  · intro hr
    rw [h.parent, if_neg (Ne.symm h0)]
    exact hs.root ((h.live 0).mp hr)
  · intro b hb hb0
    rw [h.live] at hb
    rw [h.parent]
    by_cases hbc : b = c
    · refine ⟨p, (h.live p).mpr hplive, if_pos hbc, ?_⟩
      rw [h.children, if_pos rfl, hbc]
      exact mem_append_left _ (mem_singleton.mpr rfl)
    · obtain ⟨r, hr, hbr, hmem⟩ := hs.hasParent b hb hb0
      refine ⟨r, (h.live r).mpr hr, by rw [if_neg hbc, hbr], ?_⟩
      rw [h.children]
      refine mem_append_right _ ?_
      split
      · exact (mem_erase_of_ne hbc).mpr hmem
      · exact hmem
  · intro a ha b hb
    rw [h.live] at ha ⊢
    rw [h.children, mem_append] at hb
    rw [h.parent]
    rcases hb with hb | hb
    · by_cases hap : a = p
      · rw [if_pos hap, mem_singleton] at hb
        exact ⟨hb ▸ hc, hb ▸ h0, by rw [if_pos hb, hap]⟩
      · rw [if_neg hap] at hb
        cases hb
    · have hbc : b ≠ c := fun he => hs.not_mem_erase hq ha (he ▸ hb)
      rw [if_neg hbc]
      refine hs.child a ha b ?_
      split at hb
      · exact mem_of_mem_erase hb
      · exact hb
  · intro a ha
    rw [h.live] at ha
    have hrest : (if a = q then (s.children a).erase c else s.children a).Nodup := by
      split
      · exact (hs.nodup a ha).erase c
      · exact hs.nodup a ha
    rw [h.children]
    by_cases hap : a = p
    · rw [if_pos hap]
      exact nodup_cons.mpr ⟨hs.not_mem_erase hq ha, hrest⟩
    · rw [if_neg hap]
      exact hrest
  · intro b hb a ha
    rw [h.live] at hb ⊢
    rw [h.adopters] at ha
    split at ha
    · exact hs.adopter b hb a (mem_of_mem_erase ha)
    · exact hs.adopter b hb a ha
  · intro a ha b hb
    rw [h.live] at ha ⊢
    rw [h.adopted] at hb
    split at hb
    · exact hs.adoptee a ha b (mem_of_mem_erase hb)
    · exact hs.adoptee a ha b hb
  · intro a b ha hb
    rw [h.live] at ha hb
    have hab := hs.symm a b ha hb
    rw [h.adopters, h.adopted]
    split
    · next hbc =>
      subst hbc
      split
      · next hap => rw [hap, count_erase_self, count_erase_self, ← hap, hab]
      · next hap => rw [count_erase_of_ne hap, hab]
    · next hbc =>
      split
      · rw [count_erase_of_ne hbc, hab]
      · exact hab

theorem disconnect_eq (hq : s.parent c = some q) (hc : c ∈ s.children q) :
    disconnect c s = .ret ((s.update q fun n => { n with children := n.children.erase c }).update c
      fun n => { n with parent := none }) := by
  have hcontains : ((s.node q).children.contains c || q == c) = true := by
    simp [hc]
  simp only [disconnect, hq]
  rw [assertTrue_bind hcontains]
  rfl

theorem connect_eq (hparent : s.parent c = none) (hne : p ≠ c) (hc : c ∉ s.children p) :
    connect p c s = .ret ((s.update p fun n => { n with children := c :: n.children }).update c
      fun n => { n with parent := some p }) := by
  unfold connect
  rw [assertTrue_bind (by simp [hparent]), assertTrue_bind (by simp [hne]), assertTrue_bind (by simp [hc])]
  rfl

theorem disconnectAdopted_eq (hc : c ∈ s.adopted p) (hp : p ∈ s.adopters c) :
    disconnectAdopted p c s = .ret ((s.update p fun n =>
      { n with adoptions := { n.adoptions with children := n.adoptions.children.erase c } }).update c fun n =>
      { n with adoptions := { n.adoptions with parents := n.adoptions.parents.erase p } }) := by
  unfold disconnectAdopted
  rw [assertTrue_bind (by simpa using ne_nil_of_mem hc),
    assertTrue_bind (by simpa using ne_nil_of_mem hp), assertTrue_bind (by simpa using hc),
    assertTrue_bind (by simpa using hp)]
  rfl

/-- What the calls of `pivotChildrenToAdoptedParents0` do where there is a parent to go to. -/
theorem Wired.pivot (hs : Wired s) (hc : s.Live c) (h0 : c ≠ 0) (hq : s.parent c = some q) (hp : p ∈ s.adopters c)
    (hne : p ≠ c) :
    ∃ s₁ s₂ s₃, disconnect c s = .ret s₁ ∧ connect p c s₁ = .ret s₂ ∧ disconnectAdopted p c s₂ = .ret s₃ ∧
      Moved c q p s s₃ := by
  obtain ⟨hqlive, hmem⟩ := hs.mem_of_parent hc h0 hq
  have hplive := hs.adopter c hc p hp
  have hadopted := hs.count_pos hc hp
  have hnot := hs.not_mem_erase hq hplive
  refine ⟨_, _, _, disconnect_eq hq hmem, connect_eq ?_ hne ?_, disconnectAdopted_eq ?_ ?_, rfl, rfl, ?_, ?_, ?_, ?_, ?_⟩
  · simp [State.parent]
  · simp only [State.children, State.update_node, if_neg hne]
    rw [apply_ite Node.children]
    exact hnot
  · simp only [State.adopted, State.update_node, if_neg hne, if_true]
    rw [apply_ite Node.adoptions, ite_self]
    exact hadopted
  · simp only [State.adopters, State.update_node, if_neg (Ne.symm hne), if_true]
    rw [apply_ite Node.adoptions, ite_self]
    exact hp
  all_goals
    intro a
    simp only [State.parent, State.children, State.adopters, State.adopted, State.update_node]
    split_ifs <;> simp_all

/-! ## One allocator is marked -/

/-- The same allocators with the same natural parents. -/
structure SameTree (s s' : State) : Prop where
  next : s'.next = s.next
  released : s'.released = s.released
  parent : ∀ a, s'.parent a = s.parent a
  children : ∀ a, s'.children a = s.children a

theorem SameTree.live (h : SameTree s s') (a : Nat) : s'.Live a ↔ s.Live a := by
  simp [State.Live, h.next, h.released]

theorem SameTree.natural (h : SameTree s s') (a : Nat) : s'.natural a = s.natural a := by
  unfold State.natural
  rw [h.parent]

theorem SameTree.wired (h : SameTree s s') (hs : Wired s) (hadopter : ∀ b, s.Live b → ∀ a ∈ s'.adopters b, s.Live a)
    (hadoptee : ∀ a, s.Live a → ∀ b ∈ s'.adopted a, s.Live b)
    (hsymm : ∀ a b, s.Live a → s.Live b → (s'.adopters b).count a = (s'.adopted a).count b) : Wired s' := by
  refine ⟨?_, ?_, ?_, ?_, ?_, ?_, ?_⟩
  · intro hr
    rw [h.parent]
    exact hs.root ((h.live 0).mp hr)
  · intro b hb hb0
    obtain ⟨p, hp, hbp, hmem⟩ := hs.hasParent b ((h.live b).mp hb) hb0
    exact ⟨p, (h.live p).mpr hp, (h.parent b).trans hbp, by rw [h.children]; exact hmem⟩
  · intro a ha b hb
    rw [h.children] at hb
    rw [h.live, h.parent]
    exact hs.child a ((h.live a).mp ha) b hb
  · intro a ha
    rw [h.children]
    exact hs.nodup a ((h.live a).mp ha)
  · intro b hb a ha
    rw [h.live] at hb ⊢
    exact hadopter b hb a ha
  · intro a ha b hb
    rw [h.live] at ha ⊢
    exact hadoptee a ha b hb
  · intro a b ha hb
    rw [h.live] at ha hb
    exact hsymm a b ha hb

/-- `c` lost everything that it had adopted and was marked. -/
structure Condemned (c : Nat) (s s' : State) : Prop extends SameTree s s' where
  isFreeing : ∀ a, (s'.node a).isFreeing = (decide (a = c) || (s.node a).isFreeing)
  adopters : ∀ b, s.Live b → ∀ a, (s'.adopters b).count a = if a = c then 0 else (s.adopters b).count a
  adopted : ∀ a, s'.adopted a = if a = c then [] else s.adopted a

/-- Adoptions by `c` ended, as many as the list has. -/
structure Dropped (c : Nat) (l : List Nat) (s s' : State) : Prop extends SameTree s s' where
  isFreeing : ∀ a, (s'.node a).isFreeing = (s.node a).isFreeing
  adopters : ∀ b a, (s'.adopters b).count a = (s.adopters b).count a - if a = c then l.count b else 0
  adopted : ∀ a, s'.adopted a = if a = c then [] else s.adopted a

/-- The loop over the adopted ends with none of them left; by induction on the list, which is the one
that the loop takes its cells from. -/
theorem dropAdoptions_dropped : ∀ {l : List Nat} {s : State}, s.adopted c = l →
    (∀ d, l.count d ≤ (s.adopters d).count c) → (∀ d ∈ l, (s.node d).isFreeing = false) →
    ∃ s', dropAdoptions c l s = .ret s' ∧ Dropped c l s s'
  | [], s, hl, _, _ => by
    refine ⟨s, rfl, ⟨rfl, rfl, fun _ => rfl, fun _ => rfl⟩, fun _ => rfl, fun b a => by simp, fun a => ?_⟩
    split
    · next ha => rw [ha, hl]
    · rfl
  | d :: l, s, hl, hcount, hfree => by
    have hd : d ∈ s.adopted c := hl ▸ mem_cons_self
    have hc : c ∈ s.adopters d := by
      have hle := hcount d
      rw [count_cons_self] at hle
      exact count_pos_iff.mp (by omega)
    let s₁ := (s.update c fun n =>
      { n with adoptions := { n.adoptions with children := n.adoptions.children.erase d } }).update d fun n =>
      { n with adoptions := { n.adoptions with parents := n.adoptions.parents.erase c } }
    have h₁ : disconnectAdopted c d s = .ret s₁ := disconnectAdopted_eq hd hc
    have hadopted : ∀ a, s₁.adopted a = if a = c then l else s.adopted a := by
      intro a
      simp only [s₁, State.adopted, State.update_node]
      split_ifs with had hac hac
      · simp [hac, hl]
      · rfl
      · simp [hac, hl]
      · rfl
    have hadopters : ∀ b, s₁.adopters b = if b = d then (s.adopters b).erase c else s.adopters b := by
      intro b
      simp only [s₁, State.adopters, State.update_node]
      split_ifs <;> rfl
    have hkeeps : ∀ a, (s₁.node a).isFreeing = (s.node a).isFreeing ∧ s₁.parent a = s.parent a ∧
        s₁.children a = s.children a := by
      intro a
      simp only [s₁, State.parent, State.children, State.update_node]
      split_ifs <;> exact ⟨rfl, rfl, rfl⟩
    have hcount₁ : ∀ e, l.count e ≤ (s₁.adopters e).count c := by
      intro e
      have hle := hcount e
      rw [hadopters]
      by_cases hed : e = d
      · subst hed
        rw [if_pos rfl, count_erase_self]
        rw [count_cons_self] at hle
        omega
      · rw [if_neg hed]
        rw [count_cons_of_ne (Ne.symm hed)] at hle
        exact hle
    have hfree₁ : ∀ e ∈ l, (s₁.node e).isFreeing = false := fun e he =>
      (hkeeps e).1.trans (hfree e (mem_cons_of_mem _ he))
    obtain ⟨s', hs', hdropped⟩ := dropAdoptions_dropped (by rw [hadopted, if_pos rfl]) hcount₁ hfree₁
    refine ⟨s', ?_, ⟨hdropped.next, hdropped.released, fun a => (hdropped.parent a).trans (hkeeps a).2.1,
      fun a => (hdropped.children a).trans (hkeeps a).2.2⟩, fun a => (hdropped.isFreeing a).trans (hkeeps a).1,
      fun b a => ?_, fun a => ?_⟩
    · unfold dropAdoptions
      rw [assertTrue_bind (by rw [hfree d mem_cons_self]; rfl), h₁, ret_bind]
      exact hs'
    · rw [hdropped.adopters, hadopters]
      by_cases hbd : b = d
      · subst hbd
        rw [if_pos rfl, count_cons_self]
        by_cases hac : a = c
        · subst hac
          rw [if_pos rfl, if_pos rfl, count_erase_self]
          omega
        · rw [if_neg hac, if_neg hac, count_erase_of_ne hac]
      · rw [if_neg hbd, count_cons_of_ne (Ne.symm hbd)]
    · rw [hdropped.adopted]
      split
      · rfl
      · next hac => rw [hadopted, if_neg hac]

theorem Condemned.marked (h : Condemned c s s') (a : Nat) :
    s'.Marked a ↔ a = c ∨ s.Marked a := by
  simp [State.Marked, h.isFreeing]

/-- What the rest of `pivotChildrenToAdoptedParents0` does where there is no parent to go to. -/
theorem Wired.condemn (hs : Wired s) (hc : s.Live c) (hfree : (s.node c).isFreeing = false)
    (hadopted : ∀ d ∈ s.adopted c, (s.node d).isFreeing = false) :
    ∃ s₁, dropAdoptions c (s.adopted c) s = .ret s₁ ∧ (s₁.node c).isFreeing = false ∧
      Condemned c s (s₁.update c fun n => { n with isFreeing := true }) := by
  have hcount : ∀ d, (s.adopted c).count d ≤ (s.adopters d).count c := by
    intro d
    by_cases hd : d ∈ s.adopted c
    · exact (hs.symm c d hc (hs.adoptee c hc d hd)).ge
    · rw [count_eq_zero.mpr hd]
      exact zero_le _
  obtain ⟨s₁, hs₁, h⟩ := dropAdoptions_dropped rfl hcount hadopted
  refine ⟨s₁, hs₁, (h.isFreeing c).trans hfree, ⟨h.next, h.released, ?_, ?_⟩, ?_, ?_, ?_⟩
  · intro a
    rw [← h.parent a]
    simp only [State.parent, State.update_node]
    split <;> rfl
  · intro a
    rw [← h.children a]
    simp only [State.children, State.update_node]
    split <;> rfl
  · intro a
    by_cases hac : a = c
    · simp [hac]
    · simp [hac, h.isFreeing]
  · intro b hb a
    have hsame : (s₁.update c fun n => { n with isFreeing := true }).adopters b = s₁.adopters b := by
      simp only [State.adopters, State.update_node]
      split <;> rfl
    rw [hsame, h.adopters]
    split
    · next hac => rw [hac, hs.symm c b hc hb, Nat.sub_self]
    · rfl
  · intro a
    rw [← h.adopted a]
    simp only [State.adopted, State.update_node]
    split <;> rfl

variable {b : Nat}

theorem Condemned.mem_adopters (h : Condemned c s s') (hb : s.Live b) :
    a ∈ s'.adopters b ↔ a ≠ c ∧ a ∈ s.adopters b := by
  rw [← count_pos_iff, h.adopters b hb]
  by_cases hac : a = c
  · simp [hac]
  · simp [hac]

theorem Condemned.wired (h : Condemned c s s') (hs : Wired s) : Wired s' := by
  refine h.toSameTree.wired hs ?_ ?_ ?_
  · intro b hb a ha
    exact hs.adopter b hb a ((h.mem_adopters hb).mp ha).2
  · intro a ha b hb
    rw [h.adopted] at hb
    split at hb
    · cases hb
    · exact hs.adoptee a ha b hb
  · intro a b ha hb
    rw [h.adopters b hb, h.adopted]
    split
    · rfl
    · exact hs.symm a b ha hb

/-! ## What holds while the marking goes on -/

namespace State

/-- The source of an edge counts: it is there and not marked. -/
def Standing (s : State) (a : Option Nat) : Prop := ∀ i, a = some i → s.Live i ∧ ¬ s.Marked i

/-- What still holds an allocator while `x` is freed. -/
def held (s : State) (x b : Nat) : List (Option Nat) := if b = x then (s.adopters b).map some else s.owners b

theorem Standing.of_marks {s s' : State} {a} (ha : s'.Standing a) (hlive : ∀ i, s'.Live i ↔ s.Live i)
    (hmarks : ∀ i, s.Marked i → s'.Marked i) : s.Standing a :=
  fun i hi => ⟨(hlive i).mp (ha i hi).1, fun hmark => (ha i hi).2 (hmarks i hmark)⟩

end State

/-- `x` is being freed: `E₀` are the edges from before, `E` those without the natural one into `x`, and
`old` the allocators that were marked when the pass began. -/
structure Doomed (E₀ E : List (Option Nat × Nat)) (x : Nat) (old : Nat → Prop) (s : State) : Prop
    extends Wired s where
  acyclic : Acyclic E₀
  top : s.Live x
  edge : ∀ b, s.Live b → ∀ a ∈ s.owners b, (a, b) ∈ E₀
  counted : ∀ b, s.Live b → ∀ a, s.Standing a → E.count (a, b) = (s.held x b).count a
  old_marked : ∀ b, old b → s.Marked b
  hung : ∀ b, s.Live b → s.Marked b → b ≠ x → ∃ q, s.natural b = some q ∧ old q
  bare : ∀ b, s.Live b → s.Marked b → s.adopters b = []
  standing : ∀ b, s.Live b → ∀ a ∈ s.adopters b, ¬ s.Marked a

theorem natural_eq_some : s.natural b = some q ↔ b ≠ 0 ∧ s.parent b = some q := by
  unfold State.natural
  split
  · next h => simp [h]
  · next h => simp [h]

/-- Going up from parent to parent comes to the root, and so does every induction along it. -/
theorem Wired.climb {E₀} (hs : Wired s) (hacyclic : Acyclic E₀)
    (hedge : ∀ b, s.Live b → ∀ q, s.natural b = some q → Edge E₀ q b) {P : Nat → Prop} (hroot : s.Live 0 → P 0)
    (hstep : ∀ b q, s.Live b → s.natural b = some q → s.Live q → b ∈ s.children q → P q → P b) :
    ∀ b, s.Live b → P b := by
  intro b
  induction b using hacyclic.wellFounded.induction with
  | _ b ih =>
    intro hb
    by_cases hb0 : b = 0
    · subst hb0
      exact hroot hb
    · obtain ⟨q, hq, hbq, hmem⟩ := hs.hasParent b hb hb0
      have hnat := natural_eq_some.mpr ⟨hb0, hbq⟩
      exact hstep b q hb hnat hq hmem (ih q (hedge b hb q hnat) hq)

theorem Wired.adopted_ne_root {E₀} (hs : Wired s) (hacyclic : Acyclic E₀)
    (hedge : ∀ b, s.Live b → ∀ a ∈ s.owners b, (a, b) ∈ E₀) (hc : s.Live c) (hp : p ∈ s.adopters c) :
    c ≠ 0 := by
  have hnatural : ∀ b, s.Live b → ∀ q, s.natural b = some q → Edge E₀ q b := fun b hb q hq =>
    hedge b hb (some q) (hq ▸ mem_cons_self)
  have hroot : ∀ b, s.Live b → Path E₀ 0 b :=
    hs.climb hacyclic hnatural (fun _ => .refl) fun b q hb hq _ _ hpath => hpath.tail (hnatural b hb q hq)
  intro h0
  subst h0
  refine hacyclic.not_path (hedge 0 hc (some p) ?_) (hroot p (hs.adopter 0 hc p hp))
  exact mem_cons_of_mem _ (mem_map.mpr ⟨p, hp, rfl⟩)

namespace Doomed

variable {E₀ E : List (Option Nat × Nat)} {x : Nat} {old : Nat → Prop} {s s' : State}

variable (h : Doomed E₀ E x old s)
include h

theorem edge_natural (hb : s.Live b) (hq : s.natural b = some q) :
    Edge E₀ q b := h.edge b hb (some q) (hq ▸ mem_cons_self)

theorem edge_child (ha : s.Live a) (hb : b ∈ s.children a) : Edge E₀ a b := by
  obtain ⟨hlive, h0, hparent⟩ := h.child a ha b hb
  exact h.edge_natural hlive (natural_eq_some.mpr ⟨h0, hparent⟩)

theorem edge_adopter (hc : s.Live c) (hp : p ∈ s.adopters c) : Edge E₀ p c :=
  h.edge c hc (some p) (mem_cons_of_mem _ (mem_map.mpr ⟨p, hp, rfl⟩))

theorem move (hm : Moved c q p s s') (hc : s.Live c) (hcx : c ≠ x) (hfree : ¬ s.Marked c)
    (hq : s.natural c = some q) (hold : s.Marked q) (hp : p ∈ s.adopters c) :
    Doomed E₀ E x old s' := by
  have h0 := h.toWired.adopted_ne_root h.acyclic h.edge hc hp
  have hparent := (natural_eq_some.mp hq).2
  have hnatural : ∀ b, s'.natural b = if b = c then some p else s.natural b := by
    intro b
    unfold State.natural
    rw [hm.parent]
    split_ifs with hb0 hbc hbc
    · exact absurd (hbc ▸ hb0) h0
    all_goals rfl
  refine { toWired := hm.wired h.toWired hc h0 hparent hp, acyclic := h.acyclic, top := (hm.live x).mpr h.top, edge := ?_,
           counted := ?_, old_marked := fun b hb => (hm.marked b).mpr (h.old_marked b hb), hung := ?_, bare := ?_, standing := ?_ }
  · intro b hb a ha
    rw [hm.live] at hb
    rw [State.owners, hnatural, hm.adopters] at ha
    by_cases hbc : b = c
    · subst hbc
      rw [if_pos rfl, if_pos rfl] at ha
      rcases mem_cons.mp ha with ha | ha
      · subst ha
        exact h.edge_adopter hb hp
      · obtain ⟨i, hi, rfl⟩ := mem_map.mp ha
        exact h.edge_adopter hb (mem_of_mem_erase hi)
    · rw [if_neg hbc, if_neg hbc] at ha
      exact h.edge b hb a ha
  · intro b hb a ha
    rw [hm.live] at hb
    have ha' := ha.of_marks hm.live fun i => (hm.marked i).mpr
    rw [h.counted b hb a ha']
    unfold State.held State.owners
    rw [hnatural, hm.adopters]
    by_cases hbc : b = c
    · subst hbc
      rw [if_neg hcx, if_neg hcx, if_pos rfl, if_pos rfl, hq]
      have haq : some q ≠ a := by
        intro haq
        exact (ha' q haq.symm).2 hold
      rw [count_cons_of_ne haq]
      exact ((perm_cons_erase hp).map some).count_eq a
    · rw [if_neg hbc, if_neg hbc]
  · intro b hb hmark hbx
    rw [hm.live] at hb
    rw [hm.marked] at hmark
    have hbc : b ≠ c := fun he => hfree (he ▸ hmark)
    rw [hnatural, if_neg hbc]
    exact h.hung b hb hmark hbx
  · intro b hb hmark
    rw [hm.live] at hb
    rw [hm.marked] at hmark
    have hbc : b ≠ c := fun he => hfree (he ▸ hmark)
    rw [hm.adopters, if_neg hbc]
    exact h.bare b hb hmark
  · intro b hb a ha
    rw [hm.live] at hb
    rw [hm.marked]
    rw [hm.adopters] at ha
    split at ha
    · exact h.standing b hb a (mem_of_mem_erase ha)
    · exact h.standing b hb a ha

theorem condemn (hm : Condemned c s s') (hc : s.Live c) (hbare : s.adopters c = [])
    (hhung : c ≠ x → ∃ q, s.natural c = some q ∧ old q) : Doomed E₀ E x old s' := by
  have hnatural := hm.natural
  refine { toWired := hm.wired h.toWired, acyclic := h.acyclic, top := (hm.live x).mpr h.top, edge := ?_,
           counted := ?_, old_marked := fun b hb => (hm.marked b).mpr (.inr (h.old_marked b hb)), hung := ?_,
           bare := ?_, standing := ?_ }
  · intro b hb a ha
    rw [hm.live] at hb
    rw [State.owners, hnatural] at ha
    rcases mem_cons.mp ha with ha | ha
    · subst ha
      exact h.edge b hb _ mem_cons_self
    · obtain ⟨i, hi, rfl⟩ := mem_map.mp ha
      exact h.edge_adopter hb ((hm.mem_adopters hb).mp hi).2
  · intro b hb a ha
    rw [hm.live] at hb
    have ha' := ha.of_marks hm.live fun i hi => (hm.marked i).mpr (.inr hi)
    have hadopters : ((s'.adopters b).map some).count a = ((s.adopters b).map some).count a := by
      cases a with
      | none => rw [count_map_none, count_map_none]
      | some i =>
        have hic : i ≠ c := fun he => (ha i rfl).2 ((hm.marked i).mpr (.inl he))
        rw [count_map_some, count_map_some, hm.adopters b hb, if_neg hic]
    rw [h.counted b hb a ha']
    unfold State.held State.owners
    split
    · exact hadopters.symm
    · rw [hnatural, count_cons, count_cons, hadopters]
  · intro b hb hmark hbx
    rw [hm.live] at hb
    rw [hnatural]
    rcases (hm.marked b).mp hmark with hbc | hmark
    · subst hbc
      exact hhung hbx
    · exact h.hung b hb hmark hbx
  · intro b hb hmark
    rw [hm.live] at hb
    have hbefore : s.adopters b = [] := by
      rcases (hm.marked b).mp hmark with hbc | hmark
      · rw [hbc, hbare]
      · exact h.bare b hb hmark
    refine eq_nil_iff_forall_not_mem.mpr fun a ha => ?_
    have := ((hm.mem_adopters hb).mp ha).2
    rw [hbefore] at this
    cases this
  · intro b hb a ha hmark
    rw [hm.live] at hb
    obtain ⟨hac, ha⟩ := (hm.mem_adopters hb).mp ha
    rcases (hm.marked a).mp hmark with hac' | hmark
    · exact hac hac'
    · exact h.standing b hb a ha hmark

end Doomed

/-! ## Loops over siblings -/

variable {e : Nat} {before rest : List Nat}

theorem after_append (he : e ∉ before) :
    after e (before ++ e :: rest) = rest.head? := by
  induction before with
  | nil => simp [after]
  | cons a before ih =>
    simp only [mem_cons, not_or] at he
    simp [after, if_neg (Ne.symm he.1), ih he.2]

variable {d : Nat}

theorem nextSibling_eq (hparent : s.parent e = some d) (hnodup : (s.children d).Nodup)
    (h : s.children d = before ++ e :: rest) : nextSibling s e = rest.head? := by
  rw [h] at hnodup
  have hnot : e ∉ before := fun hb => (disjoint_of_nodup_append hnodup) hb mem_cons_self
  simp [nextSibling, hparent, h, after_append hnot]

/-- The rule for the loop: what holds with a list of siblings to come holds in the end with none, if
the next sibling is the next of the list and each turn leaves the rest of it to come. -/
theorem siblings_meets {α} {store} {turn} {excuse}
    {Q : List Nat → α → Prop} (hnext : ∀ e rest y, Q (e :: rest) y → nextSibling (store y) e = rest.head?)
    (hturn : ∀ e rest y, Q (e :: rest) y → (turn e y).Meets excuse (Q rest)) (fuel : Nat) {y} (h : Q rest y) :
    (siblings store turn fuel rest.head? y).Meets excuse (Q []) := by
  induction fuel generalizing rest y with
  | zero =>
    cases rest with
    | nil => exact meets_ret h
    | cons e rest => exact meets_spin
  | succ fuel ih =>
    cases rest with
    | nil => exact meets_ret h
    | cons e rest =>
      rw [head?_cons, siblings, hnext e rest y h]
      exact (hturn e rest y h).bind fun z hz => ih hz

/-- A list that lost at most `e` still ends as it did. -/
theorem suffix_of_sublist {before rest l} (hnodup : (before ++ e :: rest).Nodup)
    (hsub : l.Sublist (before ++ e :: rest)) (hrest : ∀ a ∈ rest, a ∈ l) : ∃ before', l = before' ++ rest := by
  obtain ⟨l₁, l₂, rfl, h₁, h₂⟩ := sublist_append_iff.mp hsub
  obtain ⟨_, htail, hdisjoint⟩ := nodup_append'.mp hnodup
  obtain ⟨he, hrestnodup⟩ := nodup_cons.mp htail
  have hin : rest ⊆ l₂ := by
    intro a ha
    rcases mem_append.mp (hrest a ha) with ha₁ | ha₂
    · exact absurd (mem_cons_of_mem _ ha) (hdisjoint (h₁.subset ha₁))
    · exact ha₂
  cases h₂ with
  | cons _ h₂ =>
    have := h₂.eq_of_length_le (hrestnodup.subperm hin).length_le
    exact ⟨l₁, by rw [this]⟩
  | cons_cons _ h₃ =>
    rename_i l₃
    have hin₃ : rest ⊆ l₃ := by
      intro a ha
      rcases mem_cons.mp (hin ha) with hae | ha₃
      · exact absurd (hae ▸ ha) he
      · exact ha₃
    have := h₃.eq_of_length_le (hrestnodup.subperm hin₃).length_le
    exact ⟨l₁ ++ [e], by rw [this, append_assoc]; rfl⟩

/-! ## One pass -/

/-- `b` is `n` generations below `c`. -/
def Below (s : State) : Nat → Nat → Nat → Prop
  | 0, c, b => b = c
  | n + 1, c, b => ∃ d ∈ s.children c, Below s n d b

/-- The first `n` generations below `c`, itself being the first, are such. -/
def Clear (M : Nat → Prop) (s : State) (n c : Nat) : Prop := ∀ m < n, ∀ b, Below s m c b → M b

/-- The old ones lose children at most. -/
structure Evolves (old : Nat → Prop) (s t : State) : Prop where
  next : t.next = s.next
  released : t.released = s.released
  marks : ∀ b, s.Marked b → t.Marked b
  children : ∀ q, old q → (t.children q).Sublist (s.children q)

section

variable {M M' old : Nat → Prop} {s t u : State}

variable {n : Nat}

theorem Clear.self (h : Clear M s (n + 1) c) : M c := h 0 (Nat.succ_pos n) c rfl

theorem Clear.child (h : Clear M s (n + 1) c) (hd : d ∈ s.children c) : Clear M s n d :=
  fun m hm b hb => h (m + 1) (succ_lt_succ hm) b ⟨d, hd, hb⟩

theorem clear_succ (hc : M c) (h : ∀ d ∈ s.children c, Clear M s n d) : Clear M s (n + 1) c := by
  intro m hm b hb
  cases m with
  | zero =>
    have hbc : b = c := hb
    exact hbc ▸ hc
  | succ m =>
    obtain ⟨d, hd, hb⟩ := hb
    exact h d hd m (lt_of_succ_lt_succ hm) b hb

theorem Evolves.refl : Evolves old s s := ⟨rfl, rfl, fun _ h => h, fun _ _ => .refl _⟩

variable (h : Evolves old s t)
include h

theorem Evolves.trans (h' : Evolves old t u) : Evolves old s u :=
  ⟨h'.next.trans h.next, h'.released.trans h.released, fun b hb => h'.marks b (h.marks b hb),
    fun q hq => (h'.children q hq).trans (h.children q hq)⟩

theorem Evolves.live (a : Nat) : t.Live a ↔ s.Live a := by
  simp [State.Live, h.next, h.released]

/-- Down to where all are old, nothing has come in. -/
theorem Evolves.below : ∀ {n m d b}, Clear old s n d → m ≤ n → Below t m d b → Below s m d b
  | _, 0, _, _, _, _, hb => hb
  | 0, m + 1, _, _, _, hm, _ => absurd hm (Nat.not_succ_le_zero m)
  | n + 1, m + 1, _, _, hclear, hm, ⟨e, he, hb⟩ => by
    have he' := (h.children _ hclear.self).subset he
    exact ⟨e, he', Evolves.below (hclear.child he') (Nat.le_of_succ_le_succ hm) hb⟩

theorem Evolves.clear (hclear : Clear old s n d) : Clear old t n d :=
  fun m hm b hb => hclear m hm b (h.below hclear hm.le hb)

theorem Evolves.clear_marked (hold : Clear old s n d) (hclear : Clear s.Marked s (n + 1) d) :
    Clear t.Marked t (n + 1) d :=
  fun m hm b hb => h.marks b (hclear m hm b (h.below hold (le_of_lt_succ hm) hb))

end

/-- What a call at depth `n` above those to visit does below `d`. -/
structure Pass (E₀ E : List (Option Nat × Nat)) (x : Nat) (old : Nat → Prop) (n d : Nat) (s : State)
    (r : Nat × State) : Prop where
  doomed : Doomed E₀ E x old r.2
  evolves : Evolves old s r.2
  removed : ∀ q, s.Live q → old q → ∀ b ∈ s.children q, b ∉ r.2.children q → Below s n d b
  cleared : (n = 0 ∧ ∀ q, s.Live q → old q → d ∉ r.2.children q) ∨ Clear r.2.Marked r.2 (n + 1) d
  quiet : r.1 = 0 → ∀ b, r.2.Marked b → s.Marked b

/-- The texts that a call may end with. -/
def OnlyDepth (message : String) : Prop := message = tooDeep

namespace Doomed

variable {E₀ E : List (Option Nat × Nat)} {x : Nat} {old : Nat → Prop} {s s' : State}

theorem not_marked_iff {s : State} : ¬ s.Marked a ↔ (s.node a).isFreeing = false := by
  rw [Bool.not_eq_true]

variable (h : Doomed E₀ E x old s)
include h

theorem adopted_free (hc : s.Live c) :
    ∀ d ∈ s.adopted c, (s.node d).isFreeing = false := by
  intro d hd
  have hdlive := h.adoptee c hc d hd
  rw [← not_marked_iff]
  intro hmark
  have hcount := h.symm c d hc hdlive
  rw [h.bare d hdlive hmark] at hcount
  exact absurd hd (count_eq_zero.mp hcount.symm)

/-- `pivotChildrenToAdoptedParents0` at its depth, where there is a parent to go to. -/
theorem pivotOrMark_moved {ps} (hc : s.Live c) (hfree : ¬ s.Marked c)
    (hq : s.natural c = some q) (hp : s.adopters c = p :: ps) :
    ∃ s', pivotOrMark c s = .ret (0, s') ∧ Moved c q p s s' := by
  have hmem : p ∈ s.adopters c := hp ▸ mem_cons_self
  obtain ⟨h0, hparent⟩ := natural_eq_some.mp hq
  obtain ⟨s₁, s₂, s₃, h₁, h₂, h₃, hm⟩ := h.toWired.pivot hc h0 hparent hmem (h.acyclic.ne (h.edge_adopter hc hmem))
  refine ⟨s₃, ?_, hm⟩
  have hstanding := not_marked_iff.mp (h.standing c hc p hmem)
  have hbranch : (s.node c).adoptions.parents = p :: ps := hp
  rw [pivotOrMark, if_neg hfree]
  simp only [hbranch]
  rw [assertTrue_bind (by rw [hstanding]; rfl), h₁, ret_bind, h₂, ret_bind, h₃]
  rfl

theorem pivotOrMark_condemned (hc : s.Live c) (hfree : ¬ s.Marked c) (hp : s.adopters c = []) :
    ∃ s', pivotOrMark c s = .ret (1, s') ∧ Condemned c s s' := by
  obtain ⟨s₁, h₁, hfree₁, hm⟩ := h.toWired.condemn hc (not_marked_iff.mp hfree) (h.adopted_free hc)
  refine ⟨_, ?_, hm⟩
  have hbranch : (s.node c).adoptions.parents = [] := hp
  rw [pivotOrMark, if_neg hfree]
  simp only [hbranch]
  rw [h₁, ret_bind, assertTrue_bind (by rw [hfree₁]; rfl)]
  rfl

theorem pass_zero (hd : s.Live d) (hdx : d ≠ x) (hq : s.natural d = some q) (hold : old q) :
    (pivotOrMark d s).Meets OnlyDepth (Pass E₀ E x old 0 d s) := by
  by_cases hfree : s.Marked d
  · rw [pivotOrMark, if_pos hfree]
    refine meets_ret ⟨h, .refl, fun q _ _ b hb hnot => absurd hb hnot, .inr ?_, fun _ b hb => hb⟩
    exact clear_succ hfree fun e _ m hm => absurd hm (not_lt_zero m)
  · cases hp : s.adopters d with
    | cons p ps =>
      obtain ⟨s', hs', hm⟩ := h.pivotOrMark_moved hd hfree hq hp
      have hmem : p ∈ s.adopters d := hp ▸ mem_cons_self
      have hchildren : ∀ q', old q' → s'.children q' =
          if q' = q then (s.children q').erase d else s.children q' := by
        intro q' hq'
        have hne : q' ≠ p := fun he => h.standing d hd p hmem (he ▸ h.old_marked q' hq')
        rw [hm.children, if_neg hne, nil_append]
      rw [hs']
      refine meets_ret ⟨h.move hm hd hdx hfree hq (h.old_marked q hold) hmem,
        ⟨hm.next, hm.released, fun b hb => (hm.marked b).mpr hb, fun q' hq' => ?_⟩, fun q' _ hq' b hb hnot => ?_,
        .inl ⟨rfl, fun q' hlive hq' => ?_⟩, fun _ b hb => (hm.marked b).mp hb⟩
      · rw [hchildren q' hq']
        split
        · exact erase_sublist
        · exact .refl _
      · rw [hchildren q' hq'] at hnot
        by_contra hbd
        refine hnot ?_
        split
        · exact (mem_erase_of_ne hbd).mpr hb
        · exact hb
      · rw [hchildren q' hq']
        exact h.not_mem_erase (natural_eq_some.mp hq).2 hlive
    | nil =>
      obtain ⟨s', hs', hm⟩ := h.pivotOrMark_condemned hd hfree hp
      rw [hs']
      refine meets_ret ⟨h.condemn hm hd hp fun _ => ⟨q, hq, hold⟩,
        ⟨hm.next, hm.released, fun b hb => (hm.marked b).mpr (.inr hb), fun q' _ => ?_⟩, fun q' _ _ b hb hnot => ?_,
        .inr ?_, fun hout => absurd hout one_ne_zero⟩
      · rw [hm.children]
      · rw [hm.children] at hnot
        exact absurd hb hnot
      · exact clear_succ ((hm.marked d).mpr (.inl rfl)) fun e _ m hm => absurd hm (not_lt_zero m)

theorem path_below : ∀ {n d b}, s.Live d → Below s n d b → Path E₀ d b ∧ s.Live b
  | 0, _, _, hd, hb => by
    exact ⟨hb ▸ .refl, hb ▸ hd⟩
  | _ + 1, _, _, hd, ⟨e, he, hb⟩ => by
    obtain ⟨hpath, hlive⟩ := path_below (h.child _ hd e he).1 hb
    exact ⟨.head (h.edge_child hd he) hpath, hlive⟩

end Doomed

theorem below_last : ∀ {n d b}, Below s (n + 1) d b ↔ ∃ q, Below s n d q ∧ b ∈ s.children q
  | 0, d, b => by
    constructor
    · intro ⟨e, he, hb⟩
      exact ⟨d, rfl, hb ▸ he⟩
    · intro ⟨q, hq, hb⟩
      exact ⟨b, hq ▸ hb, rfl⟩
  | n + 1, d, b => by
    constructor
    · intro ⟨e, he, hb⟩
      obtain ⟨q, hq, hb⟩ := below_last.mp hb
      exact ⟨q, ⟨e, he, hq⟩, hb⟩
    · intro ⟨q, ⟨e, he, hq⟩, hb⟩
      exact ⟨e, he, below_last.mpr ⟨q, hq, hb⟩⟩

/-- In the loop over the children of `d`, with `rest` to come. -/
structure Sweep (E₀ E : List (Option Nat × Nat)) (x : Nat) (old : Nat → Prop) (n d : Nat) (s : State)
    (rest : List Nat) (r : Nat × State) : Prop where
  doomed : Doomed E₀ E x old r.2
  evolves : Evolves old s r.2
  removed : ∀ q, s.Live q → old q → ∀ b ∈ s.children q, b ∉ r.2.children q → Below s (n + 1) d b
  suffix : ∃ before, r.2.children d = before ++ rest
  cleared : ∀ e ∈ r.2.children d, e ∈ rest ∨ Clear r.2.Marked r.2 (n + 1) e
  quiet : r.1 = 0 → ∀ b, r.2.Marked b → s.Marked b

theorem Sweep.first {E₀ E} {x n} {old} {r}
    (h : Sweep E₀ E x old n d s (e :: rest) r) (hd : s.Live d) : r.2.Live d ∧ e ∈ r.2.children d := by
  obtain ⟨before, hbefore⟩ := h.suffix
  refine ⟨(h.evolves.live d).mpr hd, ?_⟩
  rw [hbefore]
  exact mem_append_right _ mem_cons_self

namespace Doomed

variable {E₀ E : List (Option Nat × Nat)} {x : Nat} {old : Nat → Prop} {s s' : State}

theorem not_below_sibling (h : Doomed E₀ E x old s) {n d e f} (hd : s.Live d) (he : e ∈ s.children d)
    (hf : f ∈ s.children d) (hne : f ≠ e) : ¬ Below s n e f := by
  intro hbelow
  have helive := (h.child d hd e he).1
  cases n with
  | zero => exact hne hbelow
  | succ n =>
    obtain ⟨q, hq, hfq⟩ := below_last.mp hbelow
    obtain ⟨hpath, hqlive⟩ := h.path_below helive hq
    have hparent := (h.child q hqlive f hfq).2.2
    rw [(h.child d hd f hf).2.2] at hparent
    cases hparent
    exact h.acyclic.not_path (h.edge_child hd he) hpath

theorem sweep_turn (n d : Nat) (s : State) {r y} (hd : s.Live d) (hold : Clear old s (n + 1) d)
    (h : Sweep E₀ E x old n d s (e :: rest) r) (hy : Pass E₀ E x old n e r.2 y) :
    Sweep E₀ E x old n d s rest (r.1 + y.1, y.2) := by
  have hdold := hold.self
  obtain ⟨before, hbefore⟩ := h.suffix
  obtain ⟨hdlive, he⟩ := h.first hd
  have hoff : ∀ f ∈ r.2.children d, f ≠ e → f ∈ y.2.children d := by
    intro f hf hne
    by_contra hnot
    exact h.doomed.not_below_sibling hdlive he hf hne (hy.removed d hdlive hdold f hf hnot)
  have hclear := h.evolves.clear hold
  have hnodup := h.doomed.nodup d hdlive
  refine ⟨hy.doomed, h.evolves.trans hy.evolves, ?_, ?_, ?_, ?_⟩
  · intro q hq hqold b hb hnot
    by_cases hmid : b ∈ r.2.children q
    · have hbelow := hy.removed q ((h.evolves.live q).mpr hq) hqold b hmid hnot
      have he' := (h.evolves.children d hdold).subset he
      exact ⟨e, he', h.evolves.below (hold.child he') le_rfl hbelow⟩
    · exact h.removed q hq hqold b hb hmid
  · rw [hbefore] at hnodup
    refine suffix_of_sublist hnodup (hbefore ▸ hy.evolves.children d hdold) fun a ha => hoff a ?_ ?_
    · rw [hbefore]
      exact mem_append_right _ (mem_cons_of_mem _ ha)
    · intro hae
      exact (nodup_cons.mp (nodup_append'.mp hnodup).2.1).1 (hae ▸ ha)
  · intro f hf
    have hf' := (hy.evolves.children d hdold).subset hf
    rcases h.cleared f hf' with hmem | hcl
    · rcases mem_cons.mp hmem with hfe | hmem
      · subst hfe
        rcases hy.cleared with ⟨_, hgone⟩ | hcl
        · exact absurd hf (hgone d hdlive hdold)
        · exact .inr hcl
      · exact .inl hmem
    · exact .inr (hy.evolves.clear_marked (hclear.child hf') hcl)
  · intro hout b hb
    exact h.quiet (by omega) b (hy.quiet (by omega) b hb)

/-- One pass below `d`, by induction on the depth that is left. -/
theorem pass (fuel : Nat) : ∀ {n d} {s}, Doomed E₀ E x old s → s.Live d → Path E₀ x d →
    (n = 0 → d ≠ x ∧ ∃ q, s.natural d = some q ∧ old q) → Clear old s n d →
    (pivotChildrenToAdoptedParents0 fuel n d s).Meets OnlyDepth (Pass E₀ E x old n d s)
  | 0, _, _, h, hd, _, hvisit, _ => by
    obtain ⟨hdx, q, hq, hold⟩ := hvisit rfl
    exact h.pass_zero hd hdx hq hold
  | n + 1, d, s, h, hd, hpath, _, hold => by
    have hdold := hold.self
    have hstart : Sweep E₀ E x old n d s (s.children d) (0, s) :=
      ⟨h, .refl, fun q _ _ b hb hnot => absurd hb hnot, ⟨[], rfl⟩, fun e he => .inl he, fun _ b hb => hb⟩
    refine (siblings_meets (Q := Sweep E₀ E x old n d s) ?_ ?_ fuel hstart).imp ?_
    · intro e rest r hr
      obtain ⟨before, hbefore⟩ := hr.suffix
      obtain ⟨hdlive, he⟩ := hr.first hd
      exact nextSibling_eq (hr.doomed.child d hdlive e he).2.2 (hr.doomed.nodup d hdlive) hbefore
    · intro e rest r hr
      obtain ⟨hdlive, he⟩ := hr.first hd
      obtain ⟨helive, he0, hparent⟩ := hr.doomed.child d hdlive e he
      have hedge := hr.doomed.edge_child hdlive he
      rw [assertTrue_bind (by simpa using Ne.symm (h.acyclic.ne hedge))]
      have hvisit : n = 0 → e ≠ x ∧ ∃ q, r.2.natural e = some q ∧ old q := by
        intro _
        refine ⟨fun hex => h.acyclic.not_path hedge (hex ▸ hpath), d, natural_eq_some.mpr ⟨he0, hparent⟩, hdold⟩
      exact (pass fuel hr.doomed helive (hpath.tail hedge) hvisit ((hr.evolves.clear hold).child he)).bind fun y hy =>
        meets_ret (sweep_turn n d s hd hold hr hy)
    · intro r hr
      refine ⟨hr.doomed, hr.evolves, hr.removed, .inr (clear_succ (hr.doomed.old_marked d hdold) fun e he => ?_), hr.quiet⟩
      rcases hr.cleared e he with hmem | hcl
      · cases hmem
      · exact hcl

theorem restart (h : Doomed E₀ E x old s) : Doomed E₀ E x s.Marked s :=
  { h with
    old_marked := fun _ hb => hb
    hung := fun b hb hmark hbx => by
      obtain ⟨q, hq, hold⟩ := h.hung b hb hmark hbx
      exact ⟨q, hq, h.old_marked q hold⟩ }

/-- Before the pass of depth `i`: the generations above are marked, and that one is not. -/
structure Ready (E₀ E : List (Option Nat × Nat)) (x i : Nat) (s : State) : Prop where
  doomed : Doomed E₀ E x s.Marked s
  above : Clear s.Marked s i x
  below : ∀ b, Below s i x b → ¬ s.Marked b

/-- The marking is over. -/
structure Over (E₀ E : List (Option Nat × Nat)) (x : Nat) (s : State) : Prop where
  doomed : Doomed E₀ E x s.Marked s
  top_marked : s.Marked x
  child_marked : ∀ q, s.Live q → s.Marked q → ∀ b ∈ s.children q, s.Marked b

theorem below_ne (h : Doomed E₀ E x old s) {n b} (hb : Below s (n + 1) x b) : b ≠ x := by
  intro hbx
  subst hbx
  obtain ⟨q, hq, hmem⟩ := below_last.mp hb
  obtain ⟨hpath, hlive⟩ := h.path_below h.top hq
  exact h.acyclic.not_path (h.edge_child hlive hmem) hpath

variable {r : Nat × State}

/-- After a pass that marked some, the next can begin. -/
theorem ready_next {i} (h : Ready E₀ E x i s) (hpass : Pass E₀ E x s.Marked i x s r) (hi : i ≠ 0) :
    Ready E₀ E x (i + 1) r.2 := by
  rcases hpass.cleared with ⟨hzero, _⟩ | hclear
  · exact absurd hzero hi
  refine ⟨hpass.doomed.restart, hclear, fun b hb hmark => ?_⟩
  obtain ⟨q, hq, hmem⟩ := below_last.mp hb
  have hqlive := (hpass.doomed.path_below hpass.doomed.top hq).2
  obtain ⟨hblive, hb0, hparent⟩ := hpass.doomed.child q hqlive b hmem
  obtain ⟨q', hq', hold⟩ := hpass.doomed.hung b hblive hmark (hpass.doomed.below_ne hb)
  rw [natural_eq_some.mpr ⟨hb0, hparent⟩] at hq'
  cases hq'
  exact h.below q (hpass.evolves.below h.above le_rfl hq) hold

/-- After a pass that marked none, all that is below marked ones is marked. -/
theorem over_of_quiet {i} (h : Ready E₀ E x i s) (hpass : Pass E₀ E x s.Marked i x s r) (hi : i ≠ 0)
    (hout : r.1 = 0) : Over E₀ E x r.2 := by
  rcases hpass.cleared with ⟨hzero, _⟩ | hclear
  · exact absurd hzero hi
  have hdepth : ∀ b, r.2.Live b → r.2.Marked b → ∃ m < i, Below r.2 m x b := by
    refine hpass.doomed.climb hpass.doomed.acyclic (fun _ hb _ hq => hpass.doomed.edge_natural hb hq) ?_ ?_
    · intro h0 hmark
      by_cases hx : 0 = x
      · exact ⟨0, Nat.pos_of_ne_zero hi, hx⟩
      · obtain ⟨q, hq, _⟩ := hpass.doomed.hung 0 h0 hmark hx
        exact absurd rfl (natural_eq_some.mp hq).1
    · intro b q hb hq hqlive hmem ih hmark
      by_cases hbx : b = x
      · exact ⟨0, Nat.pos_of_ne_zero hi, hbx⟩
      · obtain ⟨q', hq', hold⟩ := hpass.doomed.hung b hb hmark hbx
        rw [hq] at hq'
        cases hq'
        obtain ⟨m, hm, hbelow⟩ := ih (hpass.doomed.old_marked q hold)
        have hb' := below_last.mpr ⟨q, hbelow, hmem⟩
        refine ⟨m + 1, lt_of_le_of_ne hm fun hmi => ?_, hb'⟩
        subst hmi
        exact h.below b (hpass.evolves.below h.above le_rfl hb') (hpass.quiet hout b hmark)
  refine ⟨hpass.doomed.restart, hclear.self, fun q hq hmark b hb => ?_⟩
  obtain ⟨m, hm, hbelow⟩ := hdepth q hq hmark
  exact hclear (m + 1) (succ_lt_succ hm) b (below_last.mpr ⟨q, hbelow, hb⟩)

theorem pivotFrom_over (fuel : Nat) : ∀ {turns i} {s}, Ready E₀ E x i s → i ≠ 0 →
    (pivotFrom fuel x turns i s).Meets OnlyDepth fun r =>
      r.1 = true ∧ Over E₀ E x r.2 ∧ r.2.next = s.next ∧ r.2.released = s.released
  | 0, _, _, _, _ => meets_abort rfl
  | turns + 1, i, s, h, hi => by
    refine (pass fuel h.doomed h.doomed.top .refl (fun hzero => absurd hzero hi) h.above).bind fun r hr => ?_
    dsimp only
    split
    · next hout =>
      exact meets_ret ⟨by simpa using hi, over_of_quiet h hr hi hout, hr.evolves.next, hr.evolves.released⟩
    · refine (pivotFrom_over fuel (ready_next h hr hi) (Nat.succ_ne_zero i)).imp fun r' hr' => ?_
      exact ⟨hr'.1, hr'.2.1, hr'.2.2.1.trans hr.evolves.next, hr'.2.2.2.trans hr.evolves.released⟩

end Doomed

end Hyperboria.Allocator
