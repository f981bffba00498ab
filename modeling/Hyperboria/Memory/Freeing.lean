/-
`freeAllocator` and `Allocator__free`: when the marking is over, what is marked is released, each
allocator once and after all below it. The graph of ownership has an edge for each natural parent and
each adoption, and one from nowhere into the root; between the calls its edges are what the allocators
have recorded, and the allocators that are there are those that can be reached (`Sound`). A freeing
keeps that, with the natural edge into its argument taken away.
-/
import Hyperboria.Memory.Pivot

namespace Hyperboria.Allocator

open Digraph List Option

/-! ## Releasing what is marked -/

/-- The allocators to release are those of `M`: each has all its children in it. -/
structure Falling (E₀ : List (Option Nat × Nat)) (M : Nat → Prop) (s : State) : Prop where
  acyclic : Acyclic E₀
  marked : ∀ b, M b → s.Marked b
  child : ∀ a, M a → ∀ b ∈ s.children a, M b ∧ s.parent b = some a ∧ Edge E₀ a b
  nodup : ∀ a, M a → (s.children a).Nodup

/-- One is a child of the other, in `M`. -/
def Child (M : Nat → Prop) (s : State) (a b : Nat) : Prop := M a ∧ b ∈ s.children a

/-- One is below the other, in `M`. -/
def Under (M : Nat → Prop) (s : State) : Nat → Nat → Prop := Relation.ReflTransGen (Child M s)

/-- `c` was released after all that is below it, each once. -/
structure Fallen (M : Nat → Prop) (c : Nat) (s s' : State) : Prop where
  node : s'.node = s.node
  next : s'.next = s.next
  released : ∃ l, s'.released = s.released ++ l ∧ l.Nodup ∧ ∀ b, b ∈ l ↔ Under M s c b

/-- In the loop over the children of `c`, with `rest` to come. -/
structure Felling (M : Nat → Prop) (c : Nat) (s : State) (rest : List Nat) (s' : State) : Prop where
  node : s'.node = s.node
  next : s'.next = s.next
  released : ∃ done l, s.children c = done ++ rest ∧ s'.released = s.released ++ l ∧ l.Nodup ∧
    ∀ b, b ∈ l ↔ ∃ e ∈ done, Under M s e b

section

variable {E₀ : List (Option Nat × Nat)} {M : Nat → Prop} {s t : State}

theorem under_congr (h : t.node = s.node) : Under M t = Under M s := by
  unfold Under Child State.children
  rw [h]

variable (h : Falling E₀ M s)
include h

theorem Falling.congr (hn : t.node = s.node) : Falling E₀ M t := by
  obtain ⟨h₁, h₂, h₃, h₄⟩ := h
  unfold State.Marked at h₂
  unfold State.children State.parent at h₃
  unfold State.children at h₄
  rw [← hn] at h₂ h₃ h₄
  exact ⟨h₁, h₂, h₃, h₄⟩

theorem Falling.path {a b} (hab : Under M s a b) : Path E₀ a b := by
  induction hab with
  | refl => exact .refl
  | tail _ hstep ih => exact ih.tail (h.child _ hstep.1 _ hstep.2).2.2

theorem Falling.mem {a b} (ha : M a) (hab : Under M s a b) : M b := by
  induction hab with
  | refl => exact ha
  | tail _ hstep ih => exact (h.child _ hstep.1 _ hstep.2).1

theorem Falling.parent_unique : Relator.RightUnique (Function.swap (Child M s)) := by
  intro b a a' hab hab'
  have hparent := (h.child a hab.1 b hab.2).2.1
  rw [(h.child a' hab'.1 b hab'.2).2.1] at hparent
  exact (some.inj hparent).symm

theorem Falling.disjoint {c e f b} (hc : M c) (he : e ∈ s.children c)
    (hf : f ∈ s.children c) (hne : e ≠ f) (heb : Under M s e b) : ¬ Under M s f b := by
  -- A sibling below a sibling would have their parent below it too.
  have hnot : ∀ {e f}, e ∈ s.children c → f ∈ s.children c → e ≠ f → ¬ Under M s e f := by
    intro e f he hf hne hef
    rcases Relation.ReflTransGen.cases_tail hef with heq | ⟨q, hq, hstep⟩
    · exact hne heq.symm
    · have hqc : q = c := h.parent_unique hstep ⟨hc, hf⟩
      exact h.acyclic.not_path (h.child c hc e he).2.2 (hqc ▸ h.path hq)
  intro hfb
  rcases Relation.ReflTransGen.total_of_right_unique h.parent_unique (Relation.reflTransGen_swap.mpr heb)
    (Relation.reflTransGen_swap.mpr hfb) with hef | hfe
  · exact hnot hf he (Ne.symm hne) (Relation.reflTransGen_swap.mp hef)
  · exact hnot he hf hne (Relation.reflTransGen_swap.mp hfe)

theorem Falling.fell {c : Nat} (hc : M c) {fuel : Nat}
    (ih : ∀ {e : Nat} {t}, Falling E₀ M t → M e → (∃ q, t.parent e = some q ∧ t.Marked q) →
      (freeAllocator fuel e t).Meets OnlyDepth (Fallen M e t)) :
    (do
      let s ← siblings id (freeAllocator fuel) fuel (s.node c).children.head? s
      return { s with released := s.released ++ [c] }).Meets OnlyDepth (Fallen M c s) := by
  have hstart : Felling M c s (s.children c) s := ⟨rfl, rfl, [], [], rfl, by simp, nodup_nil, by simp⟩
  refine (siblings_meets (Q := Felling M c s) ?_ ?_ fuel hstart).bind fun t ht => Er.meets_ret ?_
  · intro e rest t ht
    obtain ⟨done, l, hdone, _⟩ := ht.released
    have hfall := h.congr ht.node
    have hchildren : t.children c = done ++ e :: rest := by
      rw [State.children, ht.node]
      exact hdone
    have he : e ∈ t.children c := by
      rw [hchildren]
      exact mem_append_right _ mem_cons_self
    exact nextSibling_eq (hfall.child c hc e he).2.1 (hfall.nodup c hc) hchildren
  · intro e rest t ht
    obtain ⟨done, l, hdone, hl, hnodup, hmem⟩ := ht.released
    have hfall := h.congr ht.node
    have he : e ∈ s.children c := by
      rw [hdone]
      exact mem_append_right _ mem_cons_self
    obtain ⟨hMe, hparent, _⟩ := h.child c hc e he
    have hparent' : ∃ q, t.parent e = some q ∧ t.Marked q := by
      refine ⟨c, ?_, hfall.marked c hc⟩
      rw [State.parent, ht.node]
      exact hparent
    refine (ih hfall hMe hparent').imp fun u hu => ⟨hu.node.trans ht.node, hu.next.trans ht.next, ?_⟩
    obtain ⟨l', hl', hnodup', hmem'⟩ := hu.released
    rw [under_congr ht.node] at hmem'
    refine ⟨done ++ [e], l ++ l', by rw [hdone, append_assoc]; rfl, by rw [hl', hl, append_assoc], ?_, fun b => ?_⟩
    · refine nodup_append'.mpr ⟨hnodup, hnodup', fun b hb hb' => ?_⟩
      obtain ⟨e', he', hb⟩ := (hmem b).mp hb
      have hnodups := h.nodup c hc
      rw [hdone] at hnodups
      have hne : e' ≠ e := by
        intro heq
        exact (disjoint_of_nodup_append hnodups) (heq ▸ he') mem_cons_self
      have he'' : e' ∈ s.children c := by
        rw [hdone]
        exact mem_append_left _ he'
      exact h.disjoint hc he'' he hne hb ((hmem' b).mp hb')
    · rw [mem_append, hmem, hmem']
      constructor
      · intro hb
        rcases hb with ⟨e', he', hb⟩ | hb
        · exact ⟨e', mem_append_left _ he', hb⟩
        · exact ⟨e, mem_append_right _ (mem_singleton.mpr rfl), hb⟩
      · intro ⟨e', he', hb⟩
        rcases mem_append.mp he' with he' | he'
        · exact .inl ⟨e', he', hb⟩
        · rw [mem_singleton.mp he'] at hb
          exact .inr hb
  · obtain ⟨done, l, hdone, hl, hnodup, hmem⟩ := ht.released
    rw [append_nil] at hdone
    refine ⟨ht.node, ht.next, l ++ [c], by rw [← append_assoc, ← hl], ?_, fun b => ?_⟩
    · refine nodup_append'.mpr ⟨hnodup, nodup_singleton c, fun b hb hbc => ?_⟩
      obtain ⟨e, he, hb⟩ := (hmem b).mp hb
      rw [← hdone] at he
      rw [mem_singleton.mp hbc] at hb
      exact h.acyclic.not_path (h.child c hc e he).2.2 (h.path hb)
    · rw [mem_append, hmem, ← hdone, mem_singleton]
      constructor
      · intro hb
        rcases hb with ⟨e, he, hb⟩ | hb
        · exact .head ⟨hc, he⟩ hb
        · exact hb ▸ .refl
      · intro hb
        rcases Relation.ReflTransGen.cases_head hb with hcb | ⟨e, he, hb⟩
        · exact .inr hcb.symm
        · exact .inl ⟨e, he.2, hb⟩

omit h

theorem Falling.free (fuel : Nat) {c} {s} (h : Falling E₀ M s) (hc : M c)
    (hparent : ∃ q, s.parent c = some q ∧ s.Marked q) : (freeAllocator fuel c s).Meets OnlyDepth (Fallen M c s) := by
  induction fuel generalizing c s with
  | zero => exact Er.meets_spin
  | succ fuel ih =>
    obtain ⟨q, hq, hmark⟩ := hparent
    have hleave : leaveParent c s = .ret s := by
      simp [leaveParent, hq, if_pos hmark]
    rw [freeAllocator, Er.assertTrue_bind (h.marked c hc), hleave]
    exact h.fell hc fun hfall he hpar => ih hfall he hpar

end

/-! ## The graph of ownership -/

/-- The edges of the graph `E` between the allocators that are there are their natural parents and
adoptions, and those that are there are all that can be reached. -/
structure Sound (s : State) (E : List (Option Nat × Nat)) : Prop extends Wired s where
  unmarked : ∀ b, s.Live b → ¬ s.Marked b
  counted : ∀ b, s.Live b → ∀ a, (∀ i, a = some i → s.Live i) → E.count (a, b) = (s.owners b).count a
  acyclic : Acyclic E
  closed : ∀ b, Reach E b → s.Live b
  bounded : ∀ a b, (a, b) ∈ E → b < s.next ∧ ∀ i, a = some i → i < s.next
  made : ∀ b ∈ s.released, b < s.next
  once : s.released.Nodup

namespace Sound

variable {s : State} {E : List (Option Nat × Nat)}

variable (h : Sound s E)
include h

theorem owner_live {b} (hb : s.Live b) {a} (ha : a ∈ s.owners b) :
    ∀ i, a = some i → s.Live i := by
  intro i hi
  subst hi
  rcases mem_cons.mp ha with ha | ha
  · obtain ⟨h0, hparent⟩ := natural_eq_some.mp ha.symm
    exact (h.mem_of_parent hb h0 hparent).1
  · obtain ⟨j, hj, hji⟩ := mem_map.mp ha
    obtain rfl := some.inj hji
    exact h.adopter b hb j hj

theorem edge : ∀ b, s.Live b → ∀ a ∈ s.owners b, (a, b) ∈ E := by
  intro b hb a ha
  rw [← count_pos_iff, h.counted b hb a (h.owner_live hb ha)]
  exact count_pos_iff.mpr ha

theorem reach : ∀ b, s.Live b → Reach E b := by
  refine h.climb h.acyclic (fun b hb q hq => h.edge b hb (some q) (hq ▸ mem_cons_self)) ?_ ?_
  · intro h0
    exact .source (h.edge 0 h0 none mem_cons_self)
  · intro b q hb hq _ _ hreach
    exact hreach.step (h.edge b hb (some q) (hq ▸ mem_cons_self))

theorem live_iff (b : Nat) : s.Live b ↔ Reach E b := ⟨h.reach b, h.closed b⟩

theorem path_live {a b} (ha : s.Live a) (hpath : Path E a b) : s.Live b :=
  h.closed b ((h.reach a ha).path hpath)

theorem owner_of_edge {a b} (ha : s.Live a) (he : Edge E a b) : some a ∈ s.owners b := by
  have hb := h.path_live ha (.single he)
  rw [← count_pos_iff, ← h.counted b hb (some a) fun i hi => some.inj hi ▸ ha]
  exact count_pos_iff.mpr he

end Sound

theorem sound_new : Sound new [(none, 0)] := by
  have hlive : ∀ b, new.Live b ↔ b = 0 := by
    intro b
    simp [State.Live, new]
  have hreach : ∀ b, Reach [((none : Option Nat), 0)] b → b = 0 := by
    intro b hb
    cases hb with
    | source h => simpa using h
    | step _ h => cases mem_singleton.mp h
  refine { root := fun _ => rfl, hasParent := fun b hb h0 => absurd ((hlive b).mp hb) h0,
           child := fun _ _ b hb => absurd hb not_mem_nil, nodup := fun _ _ => nodup_nil,
           adopter := fun _ _ b hb => absurd hb not_mem_nil,
           adoptee := fun _ _ b hb => absurd hb not_mem_nil, symm := fun _ _ _ _ => rfl,
           unmarked := fun _ _ h => absurd h Bool.false_ne_true,
           counted := ?_, acyclic := acyclic_source, closed := fun b hb => (hlive b).mpr (hreach b hb), bounded := ?_,
           made := fun _ hb => absurd hb not_mem_nil, once := nodup_nil }
  · intro b hb a ha
    obtain rfl := (hlive b).mp hb
    cases a with
    | none => rfl
    | some i =>
      rfl
  · intro a b hab
    cases mem_singleton.mp hab
    exact ⟨Nat.one_pos, fun i hi => by cases hi⟩

/-! ## Freeing -/

namespace Sound

variable {s s' : State} {E : List (Option Nat × Nat)} {x : Nat}

theorem standing (h : Sound s E) {a} (ha : ∀ i, a = some i → s.Live i) : s.Standing a :=
  fun i hi => ⟨ha i hi, h.unmarked i (ha i hi)⟩

theorem doomed (h : Sound s E) (hx : s.Live x) :
    Doomed E (E.erase (s.natural x, x)) x (fun _ => False) s := by
  refine { toWired := h.toWired, acyclic := h.acyclic, top := hx, edge := h.edge, counted := ?_,
           old_marked := fun b hb => hb.elim, hung := fun b hb hmark => absurd hmark (h.unmarked b hb),
           bare := fun b hb hmark => absurd hmark (h.unmarked b hb),
           standing := fun b hb a ha => h.unmarked a (h.adopter b hb a ha) }
  intro b hb a ha
  have hcount := h.counted b hb a fun i hi => (ha i hi).1
  unfold State.held
  split
  · next hbx =>
    subst hbx
    rw [State.owners] at hcount
    rw [count_erase, hcount]
    by_cases hnat : s.natural b = a
    · simp [hnat]
    · simp [hnat]
  · next hbx =>
    rw [count_erase_of_ne, hcount]
    intro heq
    exact hbx (Prod.mk.inj heq).2

theorem moved (h : Sound s E) (hx : s.Live x) {q p} (hq : s.natural x = some q) (hp : p ∈ s.adopters x)
    (hm : Moved x q p s s') : Sound s' (E.erase (s.natural x, x)) := by
  have hdoomed := h.doomed hx
  obtain ⟨h0, hparent⟩ := natural_eq_some.mp hq
  have hsub : E.erase (s.natural x, x) ⊆ E := erase_subset
  refine { toWired := hm.wired h.toWired hx h0 hparent hp,
           unmarked := fun b hb hmark => h.unmarked b ((hm.live b).mp hb) ((hm.marked b).mp hmark), counted := ?_,
           acyclic := h.acyclic.mono hsub, closed := fun b hb => (hm.live b).mpr (h.closed b (hb.mono hsub)),
           bounded := fun a b hab => hm.next ▸ h.bounded a b (hsub hab),
           made := fun b hb => hm.next ▸ h.made b (hm.released ▸ hb), once := hm.released ▸ h.once }
  intro b hb a ha
  rw [hm.live] at hb
  rw [hdoomed.counted b hb a (h.standing fun i hi => (hm.live i).mp (ha i hi))]
  unfold State.held State.owners State.natural
  rw [hm.parent, hm.adopters]
  by_cases hbx : b = x
  · subst hbx
    rw [if_pos rfl, if_neg h0, if_pos rfl, if_pos rfl]
    exact ((perm_cons_erase hp).map some).count_eq a
  · rw [if_neg hbx, if_neg hbx, if_neg hbx]

end Sound

/-- `x` left its parent, or is the root, which has none. -/
structure Detached (x : Nat) (s t : State) : Prop where
  next : t.next = s.next
  released : t.released = s.released
  isFreeing : ∀ a, (t.node a).isFreeing = (s.node a).isFreeing
  adopters : ∀ a, t.adopters a = s.adopters a
  adopted : ∀ a, t.adopted a = s.adopted a
  parent : ∀ a, a ≠ x → t.parent a = s.parent a
  children : ∀ a, s.Live a → t.children a = (s.children a).erase x

namespace Doomed

variable {E₀ E : List (Option Nat × Nat)} {x : Nat} {s t : State}

variable (h : Over E₀ E x s)
include h

/-- What is marked is `x`, or hangs on something that is marked. -/
theorem Over.climb {motive : Nat → Prop} (top : motive x)
    (tail : ∀ b q, b ≠ x → s.Live b → s.natural b = some q → s.Live q → s.Marked q → b ∈ s.children q → motive q →
      motive b) : ∀ b, s.Live b → s.Marked b → motive b := by
  refine h.doomed.climb h.doomed.acyclic (fun _ hb _ hq => h.doomed.edge_natural hb hq) ?_ ?_
  · intro h0 hmark
    by_cases hx : 0 = x
    · exact hx ▸ top
    · obtain ⟨q, hq, _⟩ := h.doomed.hung 0 h0 hmark hx
      exact absurd rfl (natural_eq_some.mp hq).1
  · intro b q hb hq hqlive hmem ih hmark
    by_cases hbx : b = x
    · exact hbx ▸ top
    · obtain ⟨q', hq', hold⟩ := h.doomed.hung b hb hmark hbx
      rw [hq] at hq'
      cases hq'
      exact tail b q hbx hb hq hqlive hold hmem (ih hold)

theorem Over.path : ∀ b, s.Live b → s.Marked b → Path E₀ x b :=
  h.climb .refl fun _ _ _ hb hq _ _ _ ih => ih.tail (h.doomed.edge_natural hb hq)

/-- `isTop` holds for the allocator that is freed unless it is the root. -/
theorem Over.leaveParent : ∃ t, Allocator.leaveParent x s = .ret t ∧ Detached x s t := by
  have hlive := h.doomed.top
  by_cases h0 : x = 0
  · subst h0
    refine ⟨s, ?_, rfl, rfl, fun _ => rfl, fun _ => rfl, fun _ => rfl, fun _ _ => rfl, fun a ha => ?_⟩
    · simp [Allocator.leaveParent, h.doomed.root hlive, if_pos h.top_marked]
    · rw [erase_of_not_mem fun hmem => (h.doomed.child a ha 0 hmem).2.1 rfl]
  · obtain ⟨q, hq, hparent, hmem⟩ := h.doomed.hasParent x hlive h0
    have hnot : ¬ s.Marked q := fun hmark =>
      h.doomed.acyclic.not_path (h.doomed.edge_child hq hmem) (h.path q hq hmark)
    have htop : Allocator.leaveParent x s = disconnect x s := by
      simp [Allocator.leaveParent, hparent, if_neg hnot]
    refine ⟨_, htop.trans (disconnect_eq hparent hmem), rfl, rfl, fun a => ?_, fun a => ?_, fun a => ?_, fun a ha => ?_,
      fun a ha => ?_⟩
    · simp only [State.update_node]
      split_ifs <;> rfl
    · simp only [State.adopters, State.update_node]
      split_ifs <;> rfl
    · simp only [State.adopted, State.update_node]
      split_ifs <;> rfl
    · simp only [State.parent, State.update_node, if_neg ha]
      split_ifs <;> rfl
    · simp only [State.children, State.update_node]
      by_cases haq : a = q
      · subst haq
        simp [apply_ite]
      · have hax : x ∉ s.children a := by
          intro hxa
          have := (h.doomed.child a ha x hxa).2.2
          rw [hparent] at this
          exact haq (some.inj this).symm
        rw [erase_of_not_mem hax]
        split_ifs <;> rfl

theorem Over.falling (hd : Detached x s t) :
    Falling E₀ (fun b => s.Live b ∧ s.Marked b) t := by
  refine ⟨h.doomed.acyclic, fun b hb => (hd.isFreeing b).trans hb.2, fun a ha b hb => ?_, fun a ha => ?_⟩
  · rw [hd.children a ha.1] at hb
    have hbx : b ≠ x := fun he => (h.doomed.nodup a ha.1).not_mem_erase (he ▸ hb)
    have hb := mem_of_mem_erase hb
    obtain ⟨hlive, _, hparent⟩ := h.doomed.child a ha.1 b hb
    exact ⟨⟨hlive, h.child_marked a ha.1 ha.2 b hb⟩, (hd.parent b hbx).trans hparent, h.doomed.edge_child ha.1 hb⟩
  · rw [hd.children a ha.1]
    exact (h.doomed.nodup a ha.1).erase x

theorem Over.under_iff (hd : Detached x s t) (b : Nat) :
    Under (fun b => s.Live b ∧ s.Marked b) t x b ↔ s.Live b ∧ s.Marked b := by
  constructor
  · exact (h.falling hd).mem ⟨h.doomed.top, h.top_marked⟩
  · intro ⟨hb, hmark⟩
    refine h.climb .refl (fun b q hbx _ _ hqlive hold hmem ih => ih.tail ⟨⟨hqlive, hold⟩, ?_⟩) b hb hmark
    rw [hd.children q hqlive]
    exact (mem_erase_of_ne hbx).mpr hmem

/-- What is not marked hangs on what is not marked. -/
theorem Over.parent_unmarked {b p} (hb : s.Live b) (hb0 : b ≠ 0) (hmark : ¬ s.Marked b)
    (hparent : s.parent b = some p) : ¬ s.Marked p := by
  obtain ⟨hp, hmem⟩ := h.doomed.mem_of_parent hb hb0 hparent
  exact fun hpmark => hmark (h.child_marked p hp hpmark b hmem)

theorem Over.closed (hsub : E ⊆ E₀) (hclosed : ∀ b, Reach E₀ b → s.Live b) :
    ∀ b, Reach E b → s.Live b ∧ ¬ s.Marked b := by
  -- No edge that counts leads into a marked allocator.
  have hnone : ∀ a b, s.Standing a → (a, b) ∈ E → s.Live b → ¬ s.Marked b := by
    intro a b ha he hb hmark
    have hcount := h.doomed.counted b hb a ha
    have hpos := count_pos_iff.mpr he
    unfold State.held State.owners at hcount
    rw [h.doomed.bare b hb hmark] at hcount
    split at hcount
    · rw [map_nil, count_nil] at hcount
      omega
    · next hbx =>
      obtain ⟨q, hq, hqmark⟩ := h.doomed.hung b hb hmark hbx
      have hne : s.natural b ≠ a := fun hna => (ha q (hna ▸ hq)).2 hqmark
      rw [count_cons_of_ne hne, map_nil, count_nil] at hcount
      omega
  intro b hb
  induction hb with
  | source he =>
    have hlive := hclosed _ (.source (hsub he))
    exact ⟨hlive, hnone none _ (fun i hi => nomatch hi) he hlive⟩
  | step hreach he ih =>
    have hlive := hclosed _ ((hreach.mono hsub).step (hsub he))
    exact ⟨hlive, hnone (some _) _ (fun i hi => some.inj hi ▸ ih) he hlive⟩

theorem Over.sound (hsub : E ⊆ E₀) (hclosed : ∀ b, Reach E₀ b → s.Live b)
    (hbounded : ∀ a b, (a, b) ∈ E₀ → b < s.next ∧ ∀ i, a = some i → i < s.next) (hmade : ∀ b ∈ s.released, b < s.next)
    (honce : s.released.Nodup) {u} (hd : Detached x s t)
    (hu : Fallen (fun b => s.Live b ∧ s.Marked b) x t u) : Sound u E := by
  obtain ⟨l, hl, hnodup, hmem⟩ := hu.released
  have hl' : u.released = s.released ++ l := by rw [hl, hd.released]
  have hmem' : ∀ b, b ∈ l ↔ s.Live b ∧ s.Marked b := fun b => (hmem b).trans (h.under_iff hd b)
  have hnext : u.next = s.next := hu.next.trans hd.next
  have hlive : ∀ b, u.Live b ↔ s.Live b ∧ ¬ s.Marked b := by
    intro b
    simp only [hnext, hl', mem_append, hmem', State.Live]
    constructor
    · intro h
      obtain ⟨hlt, hnot⟩ := h
      exact ⟨⟨hlt, fun hr => hnot (.inl hr)⟩, fun hmark => hnot (.inr ⟨⟨hlt, fun hr => hnot (.inl hr)⟩, hmark⟩)⟩
    · intro h
      obtain ⟨⟨hlt, hnot⟩, hmark⟩ := h
      refine ⟨hlt, fun hor => ?_⟩
      rcases hor with hr | hr
      · exact hnot hr
      · exact hmark hr.2
  have hparent : ∀ a, a ≠ x → u.parent a = s.parent a := by
    intro a ha
    rw [State.parent, hu.node]
    exact hd.parent a ha
  have hchildren : ∀ a, s.Live a → u.children a = (s.children a).erase x := by
    intro a ha
    rw [State.children, hu.node]
    exact hd.children a ha
  have hadopters : ∀ a, u.adopters a = s.adopters a := by
    intro a
    rw [State.adopters, hu.node]
    exact hd.adopters a
  have hadopted : ∀ a, u.adopted a = s.adopted a := by
    intro a
    rw [State.adopted, hu.node]
    exact hd.adopted a
  have hne : ∀ b, ¬ s.Marked b → b ≠ x := fun b hmark hbx => hmark (hbx ▸ h.top_marked)
  refine { root := ?_, hasParent := ?_, child := ?_, nodup := ?_, adopter := ?_, adoptee := ?_, symm := ?_,
           unmarked := ?_, counted := ?_, acyclic := h.doomed.acyclic.mono hsub, closed := ?_, bounded := ?_, made := ?_,
           once := ?_ }
  · intro h0
    obtain ⟨h0, hmark⟩ := (hlive 0).mp h0
    rw [hparent 0 (hne 0 hmark)]
    exact h.doomed.root h0
  · intro b hb hb0
    obtain ⟨hb, hmark⟩ := (hlive b).mp hb
    obtain ⟨p, hp, hbp, hbmem⟩ := h.doomed.hasParent b hb hb0
    refine ⟨p, (hlive p).mpr ⟨hp, h.parent_unmarked hb hb0 hmark hbp⟩, (hparent b (hne b hmark)).trans hbp, ?_⟩
    rw [hchildren p hp]
    exact (mem_erase_of_ne (hne b hmark)).mpr hbmem
  · intro a ha b hb
    obtain ⟨ha, hmark⟩ := (hlive a).mp ha
    rw [hchildren a ha] at hb
    have hbx : b ≠ x := fun he => (h.doomed.nodup a ha).not_mem_erase (he ▸ hb)
    obtain ⟨hblive, hb0, hbp⟩ := h.doomed.child a ha b (mem_of_mem_erase hb)
    refine ⟨(hlive b).mpr ⟨hblive, fun hbmark => ?_⟩, hb0, (hparent b hbx).trans hbp⟩
    obtain ⟨q, hq, hqmark⟩ := h.doomed.hung b hblive hbmark hbx
    rw [natural_eq_some.mpr ⟨hb0, hbp⟩] at hq
    exact hmark (some.inj hq ▸ hqmark)
  · intro a ha
    obtain ⟨ha, _⟩ := (hlive a).mp ha
    rw [hchildren a ha]
    exact (h.doomed.nodup a ha).erase x
  · intro b hb a ha
    obtain ⟨hb, _⟩ := (hlive b).mp hb
    rw [hadopters] at ha
    exact (hlive a).mpr ⟨h.doomed.adopter b hb a ha, h.doomed.standing b hb a ha⟩
  · intro a ha b hb
    obtain ⟨ha, _⟩ := (hlive a).mp ha
    rw [hadopted] at hb
    refine (hlive b).mpr ⟨h.doomed.adoptee a ha b hb, ?_⟩
    exact not_marked_iff.mpr (h.doomed.adopted_free ha b hb)
  · intro a b ha hb
    rw [hadopters, hadopted]
    exact h.doomed.symm a b ((hlive a).mp ha).1 ((hlive b).mp hb).1
  · intro b hb hmark
    rw [State.Marked, hu.node, hd.isFreeing] at hmark
    exact ((hlive b).mp hb).2 hmark
  · intro b hb a ha
    obtain ⟨hb, hmark⟩ := (hlive b).mp hb
    have hbx := hne b hmark
    rw [h.doomed.counted b hb a fun i hi => (hlive i).mp (ha i hi), State.held, if_neg hbx]
    unfold State.owners State.natural
    rw [hparent b hbx, hadopters]
  · intro b hb
    exact (hlive b).mpr (h.closed hsub hclosed b hb)
  · intro a b hab
    rw [hnext]
    exact hbounded a b (hsub hab)
  · intro b hb
    rw [hnext]
    rw [hl', mem_append] at hb
    rcases hb with hb | hb
    · exact hmade b hb
    · exact ((hmem' b).mp hb).1.1
  · rw [hl']
    exact nodup_append'.mpr ⟨honce, hnodup, fun b hb hb' => ((hmem' b).mp hb').1.2 hb⟩

theorem Over.freeAllocator (fuel : Nat) : (Allocator.freeAllocator fuel x s).Meets OnlyDepth
    fun u => ∃ t, Detached x s t ∧ Fallen (fun b => s.Live b ∧ s.Marked b) x t u := by
  cases fuel with
  | zero => exact Er.meets_spin
  | succ fuel =>
    obtain ⟨t, ht, hd⟩ := h.leaveParent
    rw [Allocator.freeAllocator, Er.assertTrue_bind h.top_marked, ht]
    refine ((h.falling hd).fell ⟨h.doomed.top, h.top_marked⟩ fun hfall he hpar => hfall.free fuel he hpar).imp ?_
    intro u hu
    exact ⟨t, hd, hu⟩

end Doomed

namespace Sound

variable {s : State} {E : List (Option Nat × Nat)} {x : Nat}

theorem check (hx : s.Live x) : identityCheck s x = .ret () := by
  simp [identityCheck, hx]

/-- The passes and what comes after them, for an allocator that was marked in the first. -/
theorem release (h : Sound s E) (hx : s.Live x) (hp : s.adopters x = []) {s'} (hm : Condemned x s s')
    (fuel turns : Nat) : (do
      let (freeing, s) ← pivotFrom fuel x turns 1 s'
      if freeing then freeAllocator fuel x s else return s).Meets OnlyDepth
        fun u => Sound u (E.erase (s.natural x, x)) := by
  have hdoomed := ((h.doomed hx).condemn hm hx hp fun hne => absurd rfl hne).restart
  have hready : Doomed.Ready E (E.erase (s.natural x, x)) x 1 s' := by
    refine ⟨hdoomed, ?_, ?_⟩
    · exact clear_succ ((hm.marked x).mpr (.inl rfl)) fun e _ m hm => absurd hm (Nat.not_lt_zero m)
    · intro b hb hmark
      rcases (hm.marked b).mp hmark with hbx | hmark
      · exact hdoomed.below_ne hb hbx
      · exact h.unmarked b ((hm.live b).mp (hdoomed.path_below hdoomed.top hb).2) hmark
  refine (Doomed.pivotFrom_over fuel hready Nat.one_ne_zero).bind fun r hr => ?_
  obtain ⟨hfreeing, hover, hnext, hreleased⟩ := hr
  rw [hm.next] at hnext
  rw [hm.released] at hreleased
  have hlive : ∀ b, r.2.Live b ↔ s.Live b := by
    intro b
    simp [State.Live, hnext, hreleased]
  simp only [hfreeing]
  refine (hover.freeAllocator fuel).imp fun u hu => ?_
  obtain ⟨t, hd, hu⟩ := hu
  refine hover.sound erase_subset (fun b hb => (hlive b).mpr (h.closed b hb)) ?_ ?_ ?_ hd hu
  · rw [hnext]
    exact h.bounded
  · rw [hnext, hreleased]
    exact h.made
  · rw [hreleased]
    exact h.once

/-- All passes, from the first, in which the allocator goes to another parent or is marked. -/
theorem passes (h : Sound s E) (hx : s.Live x) (fuel turns : Nat) : (do
      let (freeing, s) ← pivotFrom fuel x (turns + 1) 0 s
      if freeing then freeAllocator fuel x s else return s).Meets OnlyDepth
        fun u => Sound u (E.erase (s.natural x, x)) := by
  have hfree := h.unmarked x hx
  have hdoomed := h.doomed hx
  rw [pivotFrom, pivotChildrenToAdoptedParents0]
  cases hp : s.adopters x with
  | cons p ps =>
    have hmem : p ∈ s.adopters x := hp ▸ mem_cons_self
    have h0 := h.toWired.adopted_ne_root h.acyclic h.edge hx hmem
    obtain ⟨q, _, hq, _⟩ := h.hasParent x hx h0
    have hnat := natural_eq_some.mpr ⟨h0, hq⟩
    obtain ⟨s', hs', hm⟩ := hdoomed.pivotOrMark_moved hx hfree hnat hp
    rw [hs']
    exact Er.meets_ret (h.moved hx hnat hmem hm)
  | nil =>
    obtain ⟨s', hs', hm⟩ := hdoomed.pivotOrMark_condemned hx hfree hp
    rw [hs']
    exact h.release hx hp hm fuel turns

/-- `Allocator__free` takes away the natural edge into its argument. -/
theorem free (h : Sound s E) (hx : s.Live x) (fuel : Nat) : (Allocator.free fuel x s).Meets OnlyDepth
    fun s' => Sound s' (E.erase (s.natural x, x)) := by
  rw [Allocator.free, check hx, if_neg (h.unmarked x hx)]
  exact h.passes hx fuel 9999

end Sound

end Hyperboria.Allocator
