/-
Blocks of addresses as bit strings, a block being the addresses its string is the
beginning of, and two ways to collect blocks. `place` adds a block to a collection
unless one of its parts is in it already. `exclude` cuts a block out: whatever
contains it goes, and the halves that are passed on the way down to it are placed.

Cutting one block out of everything leaves the rest of it (`siblings`). Cutting out
several one after the other does not always: a block that has been cut out comes
back if nothing was cut out inside it and its sibling, or a part of that, is cut out
later. `mem_excludeAll` is the exact list of what is in the collection in the end,
and `routes_iff` says when blocks less other blocks are what comes of it.
-/
import Mathlib

namespace Prefixes

open List

/-- The other half of the block that this one is a half of. -/
def sibling (x : List Bool) : List Bool := x.dropLast ++ (x.getLast?.map not).toList

/-- The siblings passed on the way down to a block, from the smallest on. -/
def siblings (e : List Bool) : List (List Bool) :=
  (List.range e.length).reverse.map fun n => sibling (e.take (n + 1))

/-- The block is properly inside another one. -/
def Inside (e x : List Bool) : Prop := x <+: e ∧ e ≠ x

@[simp] theorem sibling_concat (y : List Bool) (b : Bool) : sibling (y ++ [b]) = y ++ [!b] := by simp [sibling]

variable {x : List Bool}

theorem eq_concat (h : x ≠ []) : ∃ y b, x = y ++ [b] := by
  obtain ⟨y, b, hy⟩ := (eq_nil_or_concat x).resolve_left h
  exact ⟨y, b, hy.trans concat_eq_append⟩

theorem length_sibling (x : List Bool) : (sibling x).length = x.length := by
  by_cases h : x = []
  · subst h
    rfl
  · obtain ⟨y, b, rfl⟩ := eq_concat h
    simp

theorem sibling_sibling (x : List Bool) : sibling (sibling x) = x := by
  by_cases h : x = []
  · subst h
    rfl
  · obtain ⟨y, b, rfl⟩ := eq_concat h
    simp

variable {e : List Bool}

theorem not_prefix_of_sibling (hx : x ≠ []) (h : sibling x <+: e) : ¬ x <+: e := by
  intro hxe
  obtain ⟨y, b, rfl⟩ := eq_concat hx
  rw [sibling_concat] at h
  have heq : y ++ [!b] = y ++ [b] :=
    (prefix_of_prefix_length_le h hxe (by simp)).eq_of_length (by simp)
  simp at heq

theorem Inside.exists_half (h : Inside e x) : ∃ b, x ++ [b] <+: e := by
  obtain ⟨⟨t, rfl⟩, hne⟩ := h
  cases t with
  | nil => exact absurd (append_nil x) hne
  | cons b t => exact ⟨b, t, by simp⟩

variable {a : List Bool}

theorem Inside.sibling (h : Inside a x) : x <+: sibling a ∧ a ≠ [] := by
  have ha : a ≠ [] := by
    rintro rfl
    exact h.2 (prefix_nil.mp h.1).symm
  obtain ⟨y, b, rfl⟩ := eq_concat ha
  rw [sibling_concat]
  rcases prefix_concat_iff.mp h.1 with hx | hx
  · exact absurd hx.symm h.2
  · exact ⟨hx.trans (prefix_append y _), ha⟩

theorem inside_of_prefix_sibling (h : Inside a x) (he : sibling a <+: e) : Inside e x := by
  refine ⟨h.sibling.1.trans he, ?_⟩
  rintro rfl
  have hle := he.length_le
  rw [length_sibling] at hle
  exact h.2 (h.1.eq_of_length_le hle).symm

theorem siblings_concat (y : List Bool) (b : Bool) : siblings (y ++ [b]) = (y ++ [!b]) :: siblings y := by
  unfold siblings
  rw [length_append, length_singleton, range_succ, reverse_append, reverse_singleton,
    singleton_append, map_cons]
  congr 1
  · rw [take_of_length_le (by simp), sibling_concat]
  · apply map_congr_left
    intro n hn
    rw [mem_reverse, mem_range] at hn
    rw [take_append_of_le_length (by omega)]

theorem mem_siblings : x ∈ siblings e ↔ x ≠ [] ∧ sibling x <+: e := by
  unfold siblings
  simp only [mem_map, mem_reverse, mem_range]
  constructor
  · rintro ⟨n, hn, rfl⟩
    refine ⟨?_, ?_⟩
    · intro hnil
      have hlen := congrArg length hnil
      simp only [length_sibling, length_take, length_nil] at hlen
      omega
    · rw [sibling_sibling]
      exact take_prefix _ _
  · rintro ⟨hx, hpre⟩
    have hpos := length_pos_iff.mpr hx
    have hle := hpre.length_le
    rw [length_sibling] at hle
    refine ⟨x.length - 1, by omega, ?_⟩
    rw [Nat.sub_add_cancel hpos, ← length_sibling x, ← prefix_iff_eq_take.mp hpre, sibling_sibling]

theorem pairwise_siblings (e : List Bool) :
    (siblings e).Pairwise fun x y => ∀ bits : List Bool, x <+: bits → ¬ y <+: bits := by
  induction e using reverseRecOn with
  | nil => simp [siblings]
  | append_singleton y b ih =>
    rw [siblings_concat, pairwise_cons]
    refine ⟨fun x hx bits hy => ?_, ih⟩
    obtain ⟨hne, hpre⟩ := mem_siblings.mp hx
    exact not_prefix_of_sibling hne (hpre.trans ((prefix_append _ _).trans hy))

/-- What is not in a block is in one of the siblings on the way down to it. -/
theorem exists_sibling_iff {bits : List Bool} (h : e.length ≤ bits.length) :
    (∃ x ∈ siblings e, x <+: bits) ↔ ¬ e <+: bits := by
  induction e using reverseRecOn with
  | nil => simp [siblings]
  | append_singleton y b ih =>
    simp only [length_append, length_singleton] at h
    rw [siblings_concat, exists_mem_cons_iff, ih (by omega)]
    by_cases hy : y <+: bits
    · obtain ⟨c, hc⟩ := Inside.exists_half ⟨hy, fun heq => by rw [heq] at h; omega⟩
      have hother : ∀ d, d ≠ c → ¬ y ++ [d] <+: bits := by
        intro d hd hpre
        have heq := (prefix_of_prefix_length_le hpre hc (by simp)).eq_of_length (by simp)
        simp [hd] at heq
      cases b <;> cases c <;> simp_all
    · have hnot : ¬ y ++ [b] <+: bits := fun hpre => hy ((prefix_append _ _).trans hpre)
      simp [hy, hnot]

/-! ## Placing -/

/-- The block is added unless a part of it is there. -/
def place (T : Set (List Bool)) (p : List Bool) : Set (List Bool) := {x | x ∈ T ∨ x = p ∧ ∀ t ∈ T, ¬ p <+: t}

def placeAll (T : Set (List Bool)) (ps : List (List Bool)) : Set (List Bool) := ps.foldl place T

theorem placeAll_concat (T : Set (List Bool)) (ps : List (List Bool)) (p : List Bool) :
    placeAll T (ps ++ [p]) = place (placeAll T ps) p := by
  simp [placeAll]

/-- No block before `p` in the list is part of it. -/
def First (ps : List (List Bool)) (p : List Bool) : Prop :=
  ∃ before after, ps = before ++ p :: after ∧ ∀ q ∈ before, ¬ p <+: q

theorem first_concat {ps} {p} :
    First (ps ++ [p]) x ↔ First ps x ∨ x = p ∧ ∀ q ∈ ps, ¬ x <+: q := by
  constructor
  · rintro ⟨before, after, h, hfirst⟩
    rcases eq_nil_or_concat after with rfl | ⟨after, z, rfl⟩
    · obtain ⟨rfl, hp⟩ := append_inj' h rfl
      exact .inr ⟨(cons.inj hp).1.symm, hfirst⟩
    · rw [concat_eq_append, ← cons_append, ← append_assoc] at h
      exact .inl ⟨before, after, (append_inj' h rfl).1, hfirst⟩
  · rintro (⟨before, after, rfl, hfirst⟩ | ⟨rfl, hfirst⟩)
    · exact ⟨before, after ++ [p], by simp, hfirst⟩
    · exact ⟨ps, [], rfl, hfirst⟩

theorem exists_part_placeAll {T} {ps} {x} :
    (∃ t ∈ placeAll T ps, x <+: t) ↔ (∃ t ∈ T, x <+: t) ∨ ∃ q ∈ ps, x <+: q := by
  induction ps using reverseRecOn with
  | nil => simp [placeAll]
  | append_singleton ps p ih =>
    rw [placeAll_concat]
    constructor
    · rintro ⟨t, ht | ⟨rfl, -⟩, hx⟩
      · exact (ih.mp ⟨t, ht, hx⟩).imp_right fun ⟨q, hq, hxq⟩ => ⟨q, mem_append_left _ hq, hxq⟩
      · exact .inr ⟨t, mem_append_right _ mem_cons_self, hx⟩
    · intro h
      by_cases hthere : ∃ t ∈ placeAll T ps, x <+: t
      · obtain ⟨t, ht, hx⟩ := hthere
        exact ⟨t, .inl ht, hx⟩
      · obtain ⟨h, hps⟩ := not_or.mp fun h => hthere (ih.mpr h)
        obtain ⟨q, hq, hx⟩ := ‹_ ∨ _›.resolve_left h
        rcases mem_append.mp hq with hq | hq
        · exact absurd ⟨q, hq, hx⟩ hps
        · obtain rfl := mem_singleton.mp hq
          by_cases hpart : ∃ t ∈ placeAll T ps, q <+: t
          · obtain ⟨t, ht, hqt⟩ := hpart
            exact ⟨t, .inl ht, hx.trans hqt⟩
          · exact ⟨q, .inr ⟨rfl, fun t ht hqt => hpart ⟨t, ht, hqt⟩⟩, hx⟩

theorem mem_placeAll {T} {ps} :
    x ∈ placeAll T ps ↔ x ∈ T ∨ First ps x ∧ ∀ t ∈ T, ¬ x <+: t := by
  induction ps using reverseRecOn with
  | nil => simp [placeAll, First]
  | append_singleton ps p ih =>
    rw [placeAll_concat, first_concat]
    have hpart := @exists_part_placeAll T ps p
    constructor
    · rintro (hx | ⟨rfl, hnone⟩)
      · exact (ih.mp hx).imp_right fun h => ⟨.inl h.1, h.2⟩
      · have hno := mt hpart.mpr fun ⟨t, ht, hxt⟩ => hnone t ht hxt
        obtain ⟨hT, hps⟩ := not_or.mp hno
        exact .inr ⟨.inr ⟨rfl, fun q hq hxq => hps ⟨q, hq, hxq⟩⟩, fun t ht hxt => hT ⟨t, ht, hxt⟩⟩
    · rintro (hx | ⟨hfirst | ⟨rfl, hps⟩, hT⟩)
      · exact .inl (ih.mpr (.inl hx))
      · exact .inl (ih.mpr (.inr ⟨hfirst, hT⟩))
      · refine .inr ⟨rfl, fun t ht hxt => ?_⟩
        rcases hpart.mp ⟨t, ht, hxt⟩ with ⟨t, ht, hxt⟩ | ⟨q, hq, hxq⟩
        · exact hT t ht hxt
        · exact hps q hq hxq

/-! ## Cutting out -/

/-- What contains the block goes, and its siblings are placed. -/
def exclude (A : Set (List Bool)) (e : List Bool) : Set (List Bool) := placeAll {a ∈ A | ¬ a <+: e} (siblings e)

def excludeAll (es : List (List Bool)) : Set (List Bool) := es.foldl exclude ∅

theorem excludeAll_concat (es : List (List Bool)) (e : List Bool) :
    excludeAll (es ++ [e]) = exclude (excludeAll es) e := by
  simp [excludeAll]

theorem first_siblings (h : x ∈ siblings e) : First (siblings e) x := by
  obtain ⟨before, after, hsplit, hbefore⟩ := eq_append_cons_of_mem h
  refine ⟨before, after, hsplit, fun q hq hxq => ?_⟩
  have hq' : q ∈ siblings e := by
    rw [hsplit]
    exact mem_append_left _ hq
  have hne : q ≠ x := fun heq => hbefore (heq ▸ hq)
  obtain ⟨hx, hxe⟩ := mem_siblings.mp h
  exact not_prefix_of_sibling hx hxe (inside_of_prefix_sibling ⟨hxq, hne⟩ (mem_siblings.mp hq').2).1

theorem mem_exclude {A} :
    x ∈ exclude A e ↔ x ∈ A ∧ ¬ x <+: e ∨ x ≠ [] ∧ sibling x <+: e ∧ ∀ a ∈ A, ¬ x <+: a := by
  unfold exclude
  rw [mem_placeAll]
  refine or_congr_right ?_
  constructor
  · rintro ⟨⟨before, after, hsplit, -⟩, hnone⟩
    have hx : x ∈ siblings e := hsplit ▸ mem_append_cons_self
    obtain ⟨hne, hpre⟩ := mem_siblings.mp hx
    refine ⟨hne, hpre, fun a ha hxa => hnone a ⟨ha, fun hae => ?_⟩ hxa⟩
    exact not_prefix_of_sibling hne hpre (hxa.trans hae)
  · rintro ⟨hne, hpre, hnone⟩
    exact ⟨first_siblings (mem_siblings.mpr ⟨hne, hpre⟩), fun a ha => hnone a ha.1⟩

/-- There is something properly inside a block if and only if something was cut out there. -/
theorem exists_inside_exclude {A} :
    (∃ a ∈ exclude A e, Inside a x) ↔ (∃ a ∈ A, Inside a x) ∨ Inside e x := by
  have hcut : Inside e x → ∃ a ∈ exclude A e, Inside a x := by
    intro h
    obtain ⟨b, hb⟩ := h.exists_half
    -- the half of the block that is not cut into
    have hhalf : Inside (x ++ [!b]) x := ⟨prefix_append _ _, by simp⟩
    have hsibling : sibling (x ++ [!b]) <+: e := by simpa using hb
    by_cases hpart : ∃ a ∈ A, x ++ [!b] <+: a
    · obtain ⟨a, ha, hxa⟩ := hpart
      refine ⟨a, mem_exclude.mpr (.inl ⟨ha, fun hae => ?_⟩), ?_⟩
      · exact not_prefix_of_sibling (by simp) hsibling (hxa.trans hae)
      · refine ⟨hhalf.1.trans hxa, ?_⟩
        rintro rfl
        exact hhalf.2 (hxa.eq_of_length_le hhalf.1.length_le)
    · exact ⟨_, mem_exclude.mpr (.inr ⟨by simp, hsibling, fun a ha hxa => hpart ⟨a, ha, hxa⟩⟩), hhalf⟩
  constructor
  · rintro ⟨a, ha, hin⟩
    rcases mem_exclude.mp ha with ⟨ha, -⟩ | ⟨-, hpre, -⟩
    · exact .inl ⟨a, ha, hin⟩
    · exact .inr (inside_of_prefix_sibling hin hpre)
  · rintro (⟨a, ha, hin⟩ | h)
    · by_cases hae : a <+: e
      · refine hcut ⟨hin.1.trans hae, ?_⟩
        rintro rfl
        exact hin.2 (hae.eq_of_length_le hin.1.length_le)
      · exact ⟨a, mem_exclude.mpr (.inl ⟨ha, hae⟩), hin⟩
    · exact hcut h

theorem exists_inside_excludeAll {es} {x} :
    (∃ a ∈ excludeAll es, Inside a x) ↔ ∃ e ∈ es, Inside e x := by
  induction es using reverseRecOn with
  | nil => simp [excludeAll]
  | append_singleton es e ih =>
    rw [excludeAll_concat, exists_inside_exclude, ih]
    simp [or_and_right, exists_or]

/-- Something in the sibling of `x` is cut out after `x` has been for the last time. -/
def Later (es : List (List Bool)) (x : List Bool) : Prop :=
  ∃ before e after, es = before ++ e :: after ∧ sibling x <+: e ∧ x ∉ after

variable {es : List (List Bool)}

theorem later_concat :
    Later (es ++ [e]) x ↔ sibling x <+: e ∨ Later es x ∧ x ≠ e := by
  constructor
  · rintro ⟨before, e', after, h, hpre, hafter⟩
    rcases eq_nil_or_concat after with rfl | ⟨after, z, rfl⟩
    · obtain ⟨rfl, he⟩ := append_inj' h rfl
      exact .inl ((cons.inj he).1 ▸ hpre)
    · rw [concat_eq_append] at h hafter
      rw [← cons_append, ← append_assoc] at h
      obtain ⟨rfl, hz⟩ := append_inj' h rfl
      obtain rfl := (cons.inj hz).1
      simp only [mem_append, mem_singleton, not_or] at hafter
      exact .inr ⟨⟨before, e', after, rfl, hpre, hafter.1⟩, hafter.2⟩
  · rintro (hpre | ⟨⟨before, e', after, rfl, hpre, hafter⟩, hne⟩)
    · exact ⟨es, e, [], rfl, hpre, not_mem_nil⟩
    · exact ⟨before, e', after ++ [e], by simp, hpre, by simp [hafter, hne]⟩

/-- What is left when blocks have been cut out one after the other. -/
theorem mem_excludeAll :
    x ∈ excludeAll es ↔ x ≠ [] ∧ (∀ e ∈ es, ¬ Inside e x) ∧ Later es x := by
  induction es using reverseRecOn with
  | nil => simp [excludeAll, Later]
  | append_singleton es e ih =>
    rw [excludeAll_concat, mem_exclude, later_concat]
    have hin := @exists_inside_excludeAll es x
    constructor
    · rintro (⟨hx, hxe⟩ | ⟨hne, hpre, hnone⟩)
      · obtain ⟨hne, hes, hlater⟩ := ih.mp hx
        refine ⟨hne, fun e' he' => ?_, .inr ⟨hlater, fun h => hxe (h ▸ prefix_rfl)⟩⟩
        rcases mem_append.mp he' with he' | he'
        · exact hes e' he'
        · obtain rfl := mem_singleton.mp he'
          exact fun h => hxe h.1
      · refine ⟨hne, fun e' he' h => ?_, .inl hpre⟩
        rcases mem_append.mp he' with he' | he'
        · obtain ⟨a, ha, hax⟩ := hin.mpr ⟨e', he', h⟩
          exact hnone a ha hax.1
        · obtain rfl := mem_singleton.mp he'
          exact not_prefix_of_sibling hne hpre h.1
    · rintro ⟨hne, hes, hlater⟩
      have hes' : ∀ e' ∈ es, ¬ Inside e' x := fun e' he' => hes e' (mem_append_left _ he')
      have hlast : ¬ Inside e x := hes e (mem_append_right _ mem_cons_self)
      rcases hlater with hpre | ⟨hlater, hxe⟩
      · by_cases hthere : ∃ a ∈ excludeAll es, x <+: a
        · obtain ⟨a, ha, hxa⟩ := hthere
          -- it is the block itself: nothing is properly inside
          have heq : a = x := by
            by_contra hne'
            obtain ⟨e', he', h⟩ := hin.mp ⟨a, ha, hxa, hne'⟩
            exact hes' e' he' h
          exact .inl ⟨heq ▸ ha, not_prefix_of_sibling hne hpre⟩
        · exact .inr ⟨hne, hpre, fun a ha hxa => hthere ⟨a, ha, hxa⟩⟩
      · exact .inl ⟨ih.mpr ⟨hne, hes', hlater⟩, fun h => hlast ⟨h, fun heq => hxe heq.symm⟩⟩

theorem eq_of_mem_excludeAll (hx : x ∈ excludeAll es) (ha : a ∈ excludeAll es) (h : x <+: a) : a = x := by
  by_contra hne
  obtain ⟨e, he, hin⟩ := exists_inside_excludeAll.mp ⟨a, ha, h, hne⟩
  exact (mem_excludeAll.mp hx).2.1 e he hin

/-- A block nothing was cut out of is left if something was cut out of its sibling. -/
theorem mem_excludeAll_of_sibling (hx : x ≠ []) (he : e ∈ es) (hpre : sibling x <+: e) (hnone : ∀ e ∈ es, ¬ x <+: e) :
    x ∈ excludeAll es := by
  obtain ⟨before, after, hsplit⟩ := append_of_mem he
  refine mem_excludeAll.mpr ⟨hx, fun e he h => hnone e he h.1, before, e, after, hsplit, hpre, fun hmem => ?_⟩
  refine hnone x ?_ prefix_rfl
  rw [hsplit]
  exact mem_append_right _ (mem_cons_of_mem _ hmem)

theorem exists_mem_excludeAll {addr p} (hes : ∀ e ∈ es, e.length ≤ addr.length) (hp : p <+: addr)
    (hcut : ∃ e ∈ es, Inside e p) (hout : ¬ ∃ e ∈ es, e <+: addr) :
    ∃ x ∈ excludeAll es, p <+: x ∧ x <+: addr := by
  -- go down to the address from `p` on, to the first block nothing was cut out of
  obtain ⟨rest, rfl⟩ := hp
  obtain ⟨e, he, hin⟩ := hcut
  induction rest generalizing p e with
  | nil =>
    have hle := hes e he
    rw [append_nil] at hle
    exact absurd (hin.1.eq_of_length_le hle).symm hin.2
  | cons b rest ih =>
    have haddr : p ++ b :: rest = (p ++ [b]) ++ rest := by simp
    by_cases hdown : ∃ e ∈ es, Inside e (p ++ [b])
    · obtain ⟨e', he', hin'⟩ := hdown
      rw [haddr] at hes hout ⊢
      obtain ⟨x, hx, hpx, hxa⟩ := ih hes hout e' he' hin'
      exact ⟨x, hx, (prefix_append p [b]).trans hpx, hxa⟩
    · have hnone : ∀ e ∈ es, ¬ p ++ [b] <+: e := by
        intro e' he' hpre
        by_cases heq : e' = p ++ [b]
        · exact hout ⟨e', he', by rw [haddr, heq]; exact prefix_append _ _⟩
        · exact hdown ⟨e', he', hpre, heq⟩
      obtain ⟨b', hb'⟩ := hin.exists_half
      have hother : b' = !b := by
        rw [← Bool.not_eq_not, Bool.not_not]
        rintro rfl
        exact hnone e he hb'
      have hpre : sibling (p ++ [b]) <+: e := by
        rw [sibling_concat, ← hother]
        exact hb'
      refine ⟨p ++ [b], mem_excludeAll_of_sibling (by simp) he hpre hnone, prefix_append _ _, ?_⟩
      rw [haddr]
      exact prefix_append _ _

/-! ## Blocks less other blocks -/

/-- The blocks `es` are cut out, the blocks `ps` are placed in what is left, and what is part of one of them is
kept. -/
def routes (ps es : List (List Bool)) : Set (List Bool) := {t ∈ placeAll (excludeAll es) ps | ∃ p ∈ ps, p <+: t}

/-- The block is cut into, or its sibling is, or no part of it comes before it in the list. -/
def Stands (ps es : List (List Bool)) (p : List Bool) : Prop :=
  (∃ e ∈ es, p <+: e) ∨ (p ≠ [] ∧ ∃ e ∈ es, sibling p <+: e) ∨ First ps p

/-- The blocks do not get into each other's way, for addresses of `w` bits. -/
structure Clear (w : Nat) (ps es : List (List Bool)) : Prop where
  outside : ∀ p ∈ ps, ∀ e ∈ es, ¬ e <+: p
  apart : ∀ e ∈ es, (∃ p ∈ ps, p <+: e) → (∀ e' ∈ es, ¬ Inside e' e) ∧ ¬ Later es e
  standing : ∀ addr, addr.length = w → (∃ p ∈ ps, p <+: addr) → (¬ ∃ e ∈ es, e <+: addr) →
    ∃ p ∈ ps, p <+: addr ∧ Stands ps es p

section
variable {w : Nat} {ps es : List (List Bool)}

variable {t : List Bool}

theorem length_le_of_mem_routes (hps : ∀ p ∈ ps, p.length ≤ w) (hes : ∀ e ∈ es, e.length ≤ w) (ht : t ∈ routes ps es) :
    t.length ≤ w := by
  rcases mem_placeAll.mp ht.1 with ht | ⟨⟨before, after, hsplit, -⟩, -⟩
  · obtain ⟨-, -, before, e, after, hsplit, hpre, -⟩ := mem_excludeAll.mp ht
    rw [← length_sibling]
    exact hpre.length_le.trans (hes e (hsplit ▸ mem_append_cons_self))
  · exact hps t (hsplit ▸ mem_append_cons_self)

/-- No route goes where a block was cut out. -/
theorem routes_sound (houtside : ∀ p ∈ ps, ∀ e ∈ es, ¬ e <+: p)
    (hapart : ∀ e ∈ es, (∃ p ∈ ps, p <+: e) → (∀ e' ∈ es, ¬ Inside e' e) ∧ ¬ Later es e) {addr : List Bool}
    (ht : t ∈ routes ps es) (htaddr : t <+: addr) : ¬ ∃ e ∈ es, e <+: addr := by
  rintro ⟨e, he, headdr⟩
  obtain ⟨hplaced, q, hq, hqt⟩ := ht
  rcases mem_placeAll.mp hplaced with hleft | ⟨⟨before, after, hsplit, -⟩, hnone⟩
  · obtain ⟨-, hinside, hlater⟩ := mem_excludeAll.mp hleft
    by_cases heq : e = t
    · exact (hapart e he ⟨q, hq, heq ▸ hqt⟩).2 (heq ▸ hlater)
    rcases prefix_or_prefix_of_prefix htaddr headdr with hte | het
    · exact hinside e he ⟨hte, heq⟩
    · -- the route is a part of the block, so something is cut out within the block
      have hqe : q <+: e := by
        rcases prefix_or_prefix_of_prefix hqt het with h | h
        · exact h
        · exact absurd h (houtside q hq e he)
      obtain ⟨before, e', after, hsplit, hpre, -⟩ := hlater
      have he' : e' ∈ es := hsplit ▸ mem_append_cons_self
      exact (hapart e he ⟨q, hq, hqe⟩).1 e' he' (inside_of_prefix_sibling ⟨het, fun h => heq h.symm⟩ hpre)
  · have hmem : t ∈ ps := hsplit ▸ mem_append_cons_self
    rcases prefix_or_prefix_of_prefix htaddr headdr with hte | het
    · have hin : Inside e t := ⟨hte, fun h => houtside t hmem e he (h ▸ prefix_rfl)⟩
      obtain ⟨a, ha, hat⟩ := exists_inside_excludeAll.mpr ⟨e, he, hin⟩
      exact hnone a ha hat.1
    · exact houtside t hmem e he het

/-- An address of a block that stands is on a route. -/
theorem routes_complete {addr p : List Bool} (hes : ∀ e ∈ es, e.length ≤ addr.length) (hp : p ∈ ps)
    (hpaddr : p <+: addr) (hout : ¬ ∃ e ∈ es, e <+: addr) (hstands : Stands ps es p) :
    ∃ t ∈ routes ps es, t <+: addr := by
  -- whatever is left and part of a block is a route
  have hleft : ∀ x ∈ excludeAll es, p <+: x → x ∈ routes ps es := fun x hx hpx =>
    ⟨mem_placeAll.mpr (.inl hx), p, hp, hpx⟩
  have hcut : (∃ e ∈ es, Inside e p) → ∃ t ∈ routes ps es, t <+: addr := fun h => by
    obtain ⟨x, hx, hpx, hxa⟩ := exists_mem_excludeAll hes hpaddr h hout
    exact ⟨x, hleft x hx hpx, hxa⟩
  by_cases hinside : ∃ e ∈ es, p <+: e
  · obtain ⟨e, he, hpe⟩ := hinside
    exact hcut ⟨e, he, hpe, fun heq => hout ⟨e, he, heq ▸ hpaddr⟩⟩
  rcases hstands with h | ⟨hne, e, he, hpre⟩ | hfirst
  · exact absurd h hinside
  · have hmem := mem_excludeAll_of_sibling hne he hpre fun e he h => hinside ⟨e, he, h⟩
    exact ⟨p, hleft p hmem prefix_rfl, hpaddr⟩
  · by_cases hpart : ∃ x ∈ excludeAll es, p <+: x
    · obtain ⟨x, hx, hpx⟩ := hpart
      by_cases heq : x = p
      · exact ⟨p, hleft p (heq ▸ hx) prefix_rfl, hpaddr⟩
      · exact hcut (exists_inside_excludeAll.mp ⟨x, hx, hpx, heq⟩)
    · refine ⟨p, ⟨mem_placeAll.mpr (.inr ⟨hfirst, fun t ht hpt => hpart ⟨t, ht, hpt⟩⟩), p, hp, prefix_rfl⟩, hpaddr⟩

theorem exists_stands_of_mem_routes (ht : t ∈ routes ps es) : ∃ p ∈ ps, p <+: t ∧ Stands ps es p := by
  obtain ⟨hplaced, q, hq, hqt⟩ := ht
  rcases mem_placeAll.mp hplaced with hleft | ⟨hfirst, -⟩
  · obtain ⟨hne, -, before, e, after, hsplit, hpre, -⟩ := mem_excludeAll.mp hleft
    have he : e ∈ es := hsplit ▸ mem_append_cons_self
    refine ⟨q, hq, hqt, ?_⟩
    by_cases heq : t = q
    · exact .inr (.inl ⟨heq ▸ hne, e, he, heq ▸ hpre⟩)
    · exact .inl ⟨e, he, (inside_of_prefix_sibling ⟨hqt, heq⟩ hpre).1⟩
  · have hmem : t ∈ ps := by
      obtain ⟨before, after, hsplit, -⟩ := hfirst
      exact hsplit ▸ mem_append_cons_self
    exact ⟨t, hmem, prefix_rfl, .inr (.inr hfirst)⟩

/-- The routes lead to the addresses of the blocks `ps` that are in none of the blocks `es`, and to no other, if
and only if the blocks do not get into each other's way. -/
theorem routes_iff (hps : ∀ p ∈ ps, p.length ≤ w) (hes : ∀ e ∈ es, e.length ≤ w) :
    (∀ addr, addr.length = w → ((∃ t ∈ routes ps es, t <+: addr) ↔
      (∃ p ∈ ps, p <+: addr) ∧ ¬ ∃ e ∈ es, e <+: addr)) ↔ Clear w ps es := by
  constructor
  · intro h
    -- a route does not go into a block that was cut out
    have hsound : ∀ t ∈ routes ps es, ∀ e ∈ es, ¬ e <+: t := by
      intro t ht e he het
      have hlen := length_le_of_mem_routes hps hes ht
      have hpre : t <+: t ++ replicate (w - t.length) false := prefix_append _ _
      have hw : (t ++ replicate (w - t.length) false).length = w := by
        rw [length_append, length_replicate]
        omega
      exact ((h _ hw).mp ⟨t, ht, hpre⟩).2 ⟨e, he, het.trans hpre⟩
    have houtside : ∀ p ∈ ps, ∀ e ∈ es, ¬ e <+: p := by
      intro p hp e he hep
      obtain ⟨t, ht, hpt⟩ := exists_part_placeAll.mpr (.inr ⟨p, hp, prefix_rfl⟩)
      exact hsound t ⟨ht, p, hp, hpt⟩ e he (hep.trans hpt)
    refine ⟨houtside, ?_, ?_⟩
    · rintro e he ⟨p, hp, hpe⟩
      have hroute : ∀ x ∈ excludeAll es, ¬ e <+: x := fun x hx hex =>
        hsound x ⟨mem_placeAll.mpr (.inl hx), p, hp, hpe.trans hex⟩ e he hex
      have hinside : ∀ e' ∈ es, ¬ Inside e' e := by
        intro e' he' hin
        obtain ⟨a, ha, hae⟩ := exists_inside_excludeAll.mpr ⟨e', he', hin⟩
        exact hroute a ha hae.1
      refine ⟨hinside, fun hlater => ?_⟩
      have hne : e ≠ [] := by
        rintro rfl
        exact houtside p hp [] he nil_prefix
      exact hroute e (mem_excludeAll.mpr ⟨hne, hinside, hlater⟩) prefix_rfl
    · intro addr hw hin hout
      obtain ⟨t, ht, hta⟩ := (h addr hw).mpr ⟨hin, hout⟩
      obtain ⟨p, hp, hpt, hstands⟩ := exists_stands_of_mem_routes ht
      exact ⟨p, hp, hpt.trans hta, hstands⟩
  · rintro ⟨houtside, hapart, hstanding⟩ addr hw
    constructor
    · rintro ⟨t, ht, hta⟩
      obtain ⟨p, hp, hpt, -⟩ := exists_stands_of_mem_routes ht
      exact ⟨⟨p, hp, hpt.trans hta⟩, routes_sound houtside hapart ht hta⟩
    · rintro ⟨hin, hout⟩
      obtain ⟨p, hp, hpaddr, hstands⟩ := hstanding addr hw hin hout
      exact routes_complete (hw ▸ hes) hp hpaddr hout hstands

end

end Prefixes
