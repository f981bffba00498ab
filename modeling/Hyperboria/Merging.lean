/-
Two lists merged by their heads, where neither has to be sorted. What comes first then is told by the
largest key on the way: of two elements on different sides the one comes first that is reached with the
smaller keys (`before_merged_iff`). And when the first elements of a list are the least
(`least_take_iff`).
-/
import Hyperboria.Least

namespace Hyperboria

open List

section
variable {α : Type} {l pre post : List α} {a u v : α}

/-- The one comes before the other. -/
def Before (l : List α) (u v : α) : Prop := [u, v].Sublist l

theorem before_cons : Before (a :: l) u v ↔ u = a ∧ v ∈ l ∨ Before l u v := by
  unfold Before
  rw [sublist_cons_iff, or_comm]
  refine or_congr_left ?_
  constructor
  · rintro ⟨r, heq, hr⟩
    obtain ⟨rfl, rfl⟩ := List.cons.inj heq
    exact ⟨rfl, singleton_sublist.mp hr⟩
  · rintro ⟨rfl, hv⟩
    exact ⟨[v], rfl, singleton_sublist.mpr hv⟩

theorem Before.mem (h : Before l u v) : u ∈ l ∧ v ∈ l :=
  ⟨h.subset mem_cons_self, h.subset (mem_cons_of_mem _ mem_cons_self)⟩

theorem Before.asymm (h : Before l u v) (hnodup : l.Nodup) : ¬ Before l v u := by
  induction l with
  | nil => exact absurd h.mem.1 not_mem_nil
  | cons a l ih =>
    obtain ⟨hnot, hnodup⟩ := nodup_cons.mp hnodup
    intro h'
    rcases before_cons.mp h with ⟨rfl, hv⟩ | hrest
    · rcases before_cons.mp h' with ⟨rfl, hu⟩ | hrest'
      · exact hnot hu
      · exact hnot hrest'.mem.2
    · rcases before_cons.mp h' with ⟨rfl, hu⟩ | hrest'
      · exact hnot hrest.mem.2
      · exact ih hrest hnodup hrest'

theorem Before.ne (h : Before l u v) (hnodup : l.Nodup) : u ≠ v := fun heq => h.asymm hnodup (heq ▸ heq ▸ h)

theorem before_or (hu : u ∈ l) (hv : v ∈ l) (hne : u ≠ v) : Before l u v ∨ Before l v u := by
  induction l with
  | nil => cases hu
  | cons a l ih =>
    rw [before_cons, before_cons]
    rcases mem_cons.mp hu with rfl | hu'
    · exact .inl (.inl ⟨rfl, (mem_cons.mp hv).resolve_left hne.symm⟩)
    · rcases mem_cons.mp hv with rfl | hv'
      · exact .inr (.inl ⟨rfl, hu'⟩)
      · exact (ih hu' hv').imp .inr .inr

theorem before_split_iff (hnodup : (pre ++ u :: post).Nodup) : Before (pre ++ u :: post) v u ↔ v ∈ pre := by
  constructor
  · intro h
    induction pre with
    | nil =>
      rcases before_cons.mp h with ⟨rfl, hu⟩ | hrest
      · exact absurd hu (nodup_cons.mp hnodup).1
      · exact absurd hrest.mem.2 (nodup_cons.mp hnodup).1
    | cons a pre ih =>
      rcases before_cons.mp h with ⟨rfl, _⟩ | hrest
      · exact mem_cons_self
      · exact mem_cons_of_mem _ (ih hnodup.of_cons hrest)
  · intro h
    exact List.Sublist.append (singleton_sublist.mpr h) (singleton_sublist.mpr mem_cons_self)

theorem before_iff {R : α → α → Prop} (horder : l.Pairwise R) (hasymm : ∀ a b, R a b → ¬ R b a) :
    Before l u v ↔ u ∈ l ∧ v ∈ l ∧ R u v := by
  have hbefore : ∀ {a b}, Before l a b → R a b := fun h => pairwise_iff_forall_sublist.mp horder h
  refine ⟨fun h => ⟨h.mem.1, h.mem.2, hbefore h⟩, fun ⟨hu, hv, huv⟩ => ?_⟩
  have hne : u ≠ v := fun heq => hasymm u v huv (heq ▸ heq ▸ huv)
  exact (before_or hu hv hne).resolve_right fun hvu => hasymm u v huv (hbefore hvu)

end

/-! ## Merging -/

section
variable {α : Type} {d : α → Nat} {as bs pre post pre' post' : List α} {u v : α}

/-- The heads are compared, and the one with the smaller key goes first. -/
def merged (d : α → Nat) (as bs : List α) : List α := as.merge bs fun a b => decide (d a < d b)

@[simp] theorem nil_merged : merged d [] bs = bs := nil_merge ..

@[simp] theorem merged_nil : merged d as [] = as := merge_right ..

theorem merged_cons {a b} : merged d (a :: as) (b :: bs) =
    if d a < d b then a :: merged d as (b :: bs) else b :: merged d (a :: as) bs := by
  unfold merged
  rw [cons_merge_cons]
  exact if_congr decide_eq_true_iff rfl rfl

theorem mem_merged : u ∈ merged d as bs ↔ u ∈ as ∨ u ∈ bs := mem_merge

theorem nodup_merged (h : (as ++ bs).Nodup) : (merged d as bs).Nodup := (merge_perm_append _).nodup_iff.mpr h

/-- Some key of `ws` is larger than all of `xs`. -/
def Exceeds (d : α → Nat) (ws xs : List α) : Prop := ∃ w ∈ ws, ∀ x ∈ xs, d x < d w

variable {ws xs : List α}

theorem exceeds_cons_left {w} (h : ∃ x ∈ xs, ¬ d x < d w) : Exceeds d (w :: ws) xs ↔ Exceeds d ws xs := by
  refine ⟨fun ⟨y, hy, hall⟩ => ?_, fun ⟨y, hy, hall⟩ => ⟨y, mem_cons_of_mem _ hy, hall⟩⟩
  obtain ⟨x, hx, hnot⟩ := h
  rcases mem_cons.mp hy with rfl | hy
  · exact absurd (hall x hx) hnot
  · exact ⟨y, hy, hall⟩

theorem exceeds_cons_right {x} (h : ∃ w ∈ ws, d x < d w) : Exceeds d ws (x :: xs) ↔ Exceeds d ws xs := by
  refine ⟨fun ⟨y, hy, hall⟩ => ⟨y, hy, fun z hz => hall z (mem_cons_of_mem _ hz)⟩, fun ⟨y, hy, hall⟩ => ?_⟩
  obtain ⟨w, hw, hlt⟩ := h
  rcases Nat.lt_or_ge (d x) (d y) with hxy | hxy
  · exact ⟨y, hy, forall_mem_cons.mpr ⟨hxy, hall⟩⟩
  · refine ⟨w, hw, forall_mem_cons.mpr ⟨hlt, fun z hz => ?_⟩⟩
    have hzy := hall z hz
    omega

theorem not_before_head (hnodup : (as ++ v :: bs).Nodup) (hne : u ≠ v) : ¬ Before (v :: merged d as bs) u v := by
  intro h
  rcases before_cons.mp h with ⟨heq, _⟩ | hrest
  · exact hne heq
  · rw [nodup_middle] at hnodup
    exact (nodup_cons.mp hnodup).1 (mem_append.mpr (mem_merged.mp hrest.mem.2))

theorem before_cons_of_ne {l} {a} (hne : u ≠ a) : Before (a :: l) u v ↔ Before l u v :=
  before_cons.trans (or_iff_right fun h => hne h.1)

theorem before_merged_of_split (hnodup : ((pre ++ u :: post) ++ (pre' ++ v :: post')).Nodup) :
    Before (merged d (pre ++ u :: post) (pre' ++ v :: post')) u v ↔ Exceeds d (pre' ++ [v]) (pre ++ [u]) := by
  have hne : u ≠ v := fun heq => (nodup_append.mp hnodup).2.2 u (by simp) v (by simp) heq
  induction hn : pre.length + pre'.length using Nat.strongRecOn generalizing pre pre' with
  | _ n ih =>
    cases pre with
    | nil =>
      cases pre' with
      | nil =>
        rw [nil_append, nil_append, merged_cons]
        split
        next hlt => exact ⟨fun _ => ⟨v, by simp, by simpa using hlt⟩, fun _ => before_cons.mpr (.inl ⟨rfl, by simp [mem_merged]⟩)⟩
        next hge =>
          refine iff_of_false (not_before_head hnodup hne) ?_
          rintro ⟨w, hw, hall⟩
          obtain rfl := mem_singleton.mp hw
          exact hge (hall u (by simp))
      | cons b pre' =>
        rw [nil_append, cons_append, merged_cons]
        split
        next hlt => exact ⟨fun _ => ⟨b, by simp, by simpa using hlt⟩, fun _ => before_cons.mpr (.inl ⟨rfl, by simp [mem_merged]⟩)⟩
        next hge =>
          have hub : u ≠ b := fun heq => (nodup_append.mp hnodup).2.2 u (by simp) b (by simp) heq
          rw [before_cons_of_ne hub, cons_append, exceeds_cons_left ⟨u, by simp, hge⟩]
          exact ih _ (by simp at hn ⊢; omega) (nodup_middle.mp hnodup |>.of_cons) rfl
    | cons a pre =>
      have hua : u ≠ a := by
        rintro rfl
        exact (nodup_cons.mp (nodup_append.mp hnodup).1).1 (by simp)
      have hnodup' : ((pre ++ u :: post) ++ (pre' ++ v :: post')).Nodup := hnodup.of_cons
      cases pre' with
      | nil =>
        rw [cons_append, nil_append, merged_cons]
        split
        next hlt =>
          rw [before_cons_of_ne hua, cons_append, exceeds_cons_right ⟨v, by simp, hlt⟩]
          exact ih _ (by simp at hn ⊢; omega) hnodup' rfl
        next hge =>
          refine iff_of_false (not_before_head hnodup hne) ?_
          rintro ⟨w, hw, hall⟩
          obtain rfl := mem_singleton.mp hw
          exact hge (hall a (by simp))
      | cons b pre' =>
        rw [cons_append, cons_append, merged_cons]
        split
        next hlt =>
          rw [before_cons_of_ne hua, @cons_append _ _ pre, exceeds_cons_right ⟨b, by simp, hlt⟩]
          exact ih (n - 1) (by simp at hn; omega) hnodup' (by simp at hn ⊢; omega)
        next hge =>
          have hub : u ≠ b := fun heq => (nodup_append.mp hnodup).2.2 u (by simp) b (by simp) heq
          rw [before_cons_of_ne hub, @cons_append _ _ pre', exceeds_cons_left ⟨a, by simp, hge⟩]
          exact ih (n - 1) (by simp at hn; omega) (nodup_middle.mp hnodup |>.of_cons) (by simp at hn ⊢; omega)

theorem exceeds_of_not_exceeds (hne : xs ≠ []) (hd : ∀ x ∈ xs, ∀ w ∈ ws, d x ≠ d w) (h : ¬ Exceeds d ws xs) :
    Exceeds d xs ws := by
  induction ws with
  | nil =>
    obtain ⟨x, hx⟩ := exists_mem_of_ne_nil xs hne
    exact ⟨x, hx, fun _ hw => (nomatch hw)⟩
  | cons w ws ih =>
    have hw : ∃ x ∈ xs, ¬ d x < d w := by
      by_contra hall
      exact h ⟨w, mem_cons_self, fun x hx => by_contra fun hlt => hall ⟨x, hx, hlt⟩⟩
    have hrest : Exceeds d xs ws :=
      ih (fun x hx y hy => hd x hx y (mem_cons_of_mem _ hy)) (mt (exceeds_cons_left hw).mpr h)
    obtain ⟨x, hx, hge⟩ := hw
    have hneq := hd x hx w mem_cons_self
    exact (exceeds_cons_right ⟨x, hx, by omega⟩).mpr hrest

theorem Exceeds.asymm (h : Exceeds d ws xs) : ¬ Exceeds d xs ws := by
  rintro ⟨x, hx, hws⟩
  obtain ⟨w, hw, hxs⟩ := h
  exact Nat.lt_asymm (hws w hw) (hxs x hx)

/-- On the way to `v` along `bs` there is a larger key than all on the way to `u` along `as`. -/
def Outreached (d : α → Nat) (as bs : List α) (u v : α) : Prop :=
  u ∈ as ∧ v ∈ bs ∧ ∃ w, (w = v ∨ Before bs w v) ∧ ∀ x, x = u ∨ Before as x u → d x < d w

theorem outreached_iff (hnodup : (pre ++ u :: post).Nodup) (hnodup' : (pre' ++ v :: post').Nodup) :
    Outreached d (pre ++ u :: post) (pre' ++ v :: post') u v ↔ Exceeds d (pre' ++ [v]) (pre ++ [u]) := by
  have hmem : ∀ {l} {x y : α}, x ∈ l ++ [y] ↔ x = y ∨ x ∈ l := by
    intro l x y
    rw [mem_append, mem_singleton, or_comm]
  simp [Outreached, Exceeds, before_split_iff hnodup, before_split_iff hnodup', hmem]

/-- The one goes before the other when the two lists are merged. -/
def Passed (d : α → Nat) (as bs : List α) (u v : α) : Prop :=
  Before as u v ∨ Before bs u v ∨ Outreached d as bs u v ∨ Outreached d bs as u v

theorem sublist_merged : as.Sublist (merged d as bs) ∧ bs.Sublist (merged d as bs) := by
  induction as generalizing bs with
  | nil => simp
  | cons a as iha =>
    induction bs with
    | nil => simp
    | cons b bs ihb =>
      rw [merged_cons]
      split
      · exact ⟨iha.1.cons_cons a, iha.2.cons a⟩
      · exact ⟨ihb.1.cons b, ihb.2.cons_cons b⟩

theorem outreached_or (hu : u ∈ as) (hv : v ∈ bs) (hnodup : (as ++ bs).Nodup) (hd : ∀ x ∈ as, ∀ w ∈ bs, d x ≠ d w) :
    Outreached d as bs u v ∨ Outreached d bs as v u := by
  obtain ⟨pre, post, rfl⟩ := append_of_mem hu
  obtain ⟨pre', post', rfl⟩ := append_of_mem hv
  obtain ⟨has, hbs, _⟩ := nodup_append.mp hnodup
  rw [outreached_iff has hbs, outreached_iff hbs has]
  by_cases h : Exceeds d (pre' ++ [v]) (pre ++ [u])
  · exact .inl h
  · refine .inr (exceeds_of_not_exceeds (by simp) (fun x hx w hw => hd x ?_ w ?_) h)
    · rw [append_cons]
      exact mem_append_left _ hx
    · rw [append_cons]
      exact mem_append_left _ hw

theorem Passed.before (h : Passed d as bs u v) (hnodup : (as ++ bs).Nodup) : Before (merged d as bs) u v := by
  obtain ⟨has, hbs, hapart⟩ := nodup_append.mp hnodup
  rcases h with h | h | h | h
  · exact h.trans sublist_merged.1
  · exact h.trans sublist_merged.2
  · obtain ⟨pre, post, rfl⟩ := append_of_mem h.1
    obtain ⟨pre', post', rfl⟩ := append_of_mem h.2.1
    exact (before_merged_of_split hnodup).mpr ((outreached_iff has hbs).mp h)
  · obtain ⟨pre', post', rfl⟩ := append_of_mem h.1
    obtain ⟨pre, post, rfl⟩ := append_of_mem h.2.1
    have hne : u ≠ v := fun heq => hapart v h.2.1 u h.1 heq.symm
    refine (before_or (mem_merged.mpr (.inr h.1)) (mem_merged.mpr (.inl h.2.1)) hne).resolve_right fun hvu => ?_
    exact ((outreached_iff hbs has).mp h).asymm ((before_merged_of_split hnodup).mp hvu)

theorem passed_or (hu : u ∈ as ∨ u ∈ bs) (hv : v ∈ as ∨ v ∈ bs) (hne : u ≠ v) (hnodup : (as ++ bs).Nodup)
    (hd : ∀ x ∈ as, ∀ w ∈ bs, d x ≠ d w) :
    Passed d as bs u v ∨ Passed d as bs v u := by
  rcases hu with hu | hu <;> rcases hv with hv | hv
  · exact (before_or hu hv hne).imp .inl .inl
  · exact (outreached_or hu hv hnodup hd).imp (fun h => .inr (.inr (.inl h))) fun h => .inr (.inr (.inr h))
  · exact (outreached_or hv hu hnodup hd).symm.imp (fun h => .inr (.inr (.inr h))) fun h => .inr (.inr (.inl h))
  · exact (before_or hu hv hne).imp (fun h => .inr (.inl h)) fun h => .inr (.inl h)

theorem before_merged_iff (hnodup : (as ++ bs).Nodup) (hd : ∀ x ∈ as, ∀ w ∈ bs, d x ≠ d w) :
    Before (merged d as bs) u v ↔ Passed d as bs u v := by
  refine ⟨fun h => ?_, fun h => h.before hnodup⟩
  have hall := nodup_merged (d := d) hnodup
  refine (passed_or (mem_merged.mp h.mem.1) (mem_merged.mp h.mem.2) (h.ne hall) hnodup hd).resolve_right fun hvu => ?_
  exact h.asymm hall (hvu.before hnodup)

theorem passed_comm : Passed d as bs u v ↔ Passed d bs as u v := by
  unfold Passed
  rw [or_left_comm, or_comm (a := Outreached d as bs u v)]

theorem passed_same (hapart : ∀ x ∈ as, x ∉ bs) (hu : u ∈ as) (hv : v ∈ as) : Passed d as bs u v ↔ Before as u v := by
  refine ⟨fun h => ?_, .inl⟩
  rcases h with h | h | h | h
  · exact h
  · exact absurd h.mem.1 (hapart u hu)
  · exact absurd h.2.1 (hapart v hv)
  · exact absurd h.1 (hapart u hu)

theorem passed_other (hapart : ∀ x ∈ as, x ∉ bs) (hu : u ∈ as) (hv : v ∈ bs) :
    Passed d as bs u v ↔ Outreached d as bs u v := by
  refine ⟨fun h => ?_, fun h => .inr (.inr (.inl h))⟩
  rcases h with h | h | h | h
  · exact absurd hv (hapart v h.mem.2)
  · exact absurd h.mem.1 (hapart u hu)
  · exact h
  · exact absurd h.1 (hapart u hu)

end

/-! ## The least of a list -/

section
variable {α κ : Type} {l : List α} {u v : α}

theorem before_filter {p} : Before (l.filter p) u v ↔ p u ∧ p v ∧ Before l u v := by
  constructor
  · intro h
    exact ⟨(mem_filter.mp h.mem.1).2, (mem_filter.mp h.mem.2).2, h.trans filter_sublist⟩
  · rintro ⟨hu, hv, h⟩
    have hfilter := h.filter p
    rwa [filter_cons_of_pos hu, filter_cons_of_pos hv, filter_nil] at hfilter

/-- At least `k` elements come before. -/
def Behind (l : List α) (k : Nat) (u : α) : Prop := ∃ ws : List α, ws.Nodup ∧ ws.length = k ∧ ∀ w ∈ ws, Before l w u

theorem behind_iff {k} (hnodup : l.Nodup) (hu : u ∈ l) : Behind l k u ↔ u ∉ l.take k := by
  obtain ⟨pre, post, rfl⟩ := append_of_mem hu
  have hout : u ∉ pre := fun h => (nodup_append.mp hnodup).2.2 u h u mem_cons_self rfl
  constructor
  · rintro ⟨ws, hws, hlength, hbefore⟩
    have hk : k ≤ pre.length := hlength ▸ (hws.subperm fun w hw => (before_split_iff hnodup).mp (hbefore w hw)).length_le
    rw [take_append_of_le_length hk]
    exact fun h => hout (mem_of_mem_take h)
  · intro h
    have hk : k ≤ pre.length := by
      by_contra hgt
      refine h ?_
      rw [take_append, take_cons (by omega)]
      exact mem_append_right _ mem_cons_self
    refine ⟨pre.take k, (nodup_append.mp hnodup).1.sublist (take_sublist ..), length_take_of_le hk, fun w hw => ?_⟩
    exact (before_split_iff hnodup).mpr (mem_of_mem_take hw)

/-- The first elements of a list are the least if what comes too early has enough before it. -/
theorem least_take_iff [LinearOrder κ] {key : α → κ} {k} (hnodup : l.Nodup)
    (hkey : ∀ u ∈ l, ∀ v ∈ l, key u = key v → u = v) :
    Least key k (· ∈ l) (l.take k).reverse ↔ ∀ u v, Before l u v → key v < key u → Behind l k u := by
  constructor
  · intro h u v hbefore hlt
    rw [behind_iff hnodup hbefore.mem.1]
    intro hu
    by_cases hv : v ∈ l.take k
    · have hne : u ≠ v := fun heq => lt_irrefl _ (heq ▸ hlt)
      have htake : Before (l.take k) u v :=
        (before_or hu hv hne).resolve_right fun hvu => hbefore.asymm hnodup (hvu.trans (take_sublist ..))
      exact lt_asymm hlt (pairwise_iff_forall_sublist.mp (pairwise_reverse.mp h.order) htake)
    · exact lt_asymm hlt ((h.rest v hbefore.mem.2 fun hmem => hv (mem_reverse.mp hmem)).2 u (mem_reverse.mpr hu))
  · intro h
    have hlt : ∀ u v, u ∈ l.take k → Before l u v → key u < key v := by
      intro u v hu hbefore
      have hne : key u ≠ key v := fun heq =>
        hbefore.ne hnodup (hkey u hbefore.mem.1 v hbefore.mem.2 heq)
      refine lt_of_le_of_ne (le_of_not_gt fun hgt => ?_) hne
      exact (behind_iff hnodup hbefore.mem.1).mp (h u v hbefore hgt) hu
    refine ⟨fun u hu => mem_of_mem_take (mem_reverse.mp hu), ?_, ?_, fun v hv hout => ?_⟩
    · rw [pairwise_reverse, pairwise_iff_forall_sublist]
      intro u v hsub
      exact hlt u v (Before.mem hsub).1 (hsub.trans (take_sublist ..))
    · rw [length_reverse]
      exact length_take_le ..
    · rw [mem_reverse] at hout
      rw [← take_append_drop k l, mem_append] at hv
      have hdrop := hv.resolve_left hout
      have hk := length_pos_of_mem hdrop
      rw [length_drop] at hk
      rw [length_reverse, length_take_of_le (by omega)]
      refine ⟨rfl, fun u hu => hlt u v (mem_reverse.mp hu) ?_⟩
      have hsub := List.Sublist.append (singleton_sublist.mpr (mem_reverse.mp hu)) (singleton_sublist.mpr hdrop)
      rwa [take_append_drop] at hsub

end

end Hyperboria
