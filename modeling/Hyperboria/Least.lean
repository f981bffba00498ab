/-
The least elements of what has been seen, at most `max` of them, the largest first (`Least`), and how
they are kept up to date when one more is seen: it is put in its place, and if there was no room the
largest goes.
-/
import Mathlib

namespace Hyperboria

open List

structure Least {α κ : Type} [LinearOrder κ] (key : α → κ) (max : Nat) (seen : α → Prop) (kept : List α) : Prop where
  mem : ∀ a ∈ kept, seen a
  order : kept.Pairwise fun a b => key b < key a
  length : kept.length ≤ max
  /-- What has been left out is above all that is kept. -/
  rest : ∀ a, seen a → a ∉ kept → kept.length = max ∧ ∀ b ∈ kept, key b < key a

namespace Least

variable {α κ : Type} [LinearOrder κ] {key : α → κ} {max : Nat} {seen : α → Prop} {kept before after : List α} {a : α}

theorem nil : Least key max (fun _ => False) [] :=
  ⟨fun _ h => (nomatch h), .nil, Nat.zero_le _, fun _ h => h.elim⟩

theorem congr {seen'} (h : Least key max seen kept) (heq : ∀ a, seen' a ↔ seen a) :
    Least key max seen' kept :=
  ⟨fun a ha => (heq a).mpr (h.mem a ha), h.order, h.length, fun a ha => h.rest a ((heq a).mp ha)⟩

theorem split (h : Least key max seen kept) (hne : ∀ b ∈ kept, key b ≠ key a) :
    ∃ before after, kept = before ++ after ∧ (∀ b ∈ before, key a < key b) ∧ ∀ b ∈ after, key b < key a := by
  have horder := h.order
  clear h
  induction kept with
  | nil => exact ⟨[], [], rfl, fun _ h => (nomatch h), fun _ h => (nomatch h)⟩
  | cons c kept ih =>
    obtain ⟨hc, horder⟩ := pairwise_cons.mp horder
    rcases lt_or_gt_of_ne (hne c mem_cons_self) with hlt | hgt
    · refine ⟨[], c :: kept, rfl, fun _ h => (nomatch h), fun b hb => ?_⟩
      rcases mem_cons.mp hb with rfl | hb
      · exact hlt
      · exact (hc b hb).trans hlt
    · obtain ⟨before, after, rfl, hbefore, hafter⟩ := ih (fun b hb => hne b (mem_cons_of_mem _ hb)) horder
      refine ⟨c :: before, after, rfl, fun b hb => ?_, hafter⟩
      rcases mem_cons.mp hb with rfl | hb
      · exact hgt
      · exact hbefore b hb

variable (h : Least key max seen (before ++ after)) (hbefore : ∀ b ∈ before, key a < key b)
include h hbefore

theorem order_insert (hafter : ∀ b ∈ after, key b < key a) : (before ++ a :: after).Pairwise fun a b => key b < key a := by
  obtain ⟨hb, ha, hba⟩ := pairwise_append.mp h.order
  refine pairwise_append.mpr ⟨hb, pairwise_cons.mpr ⟨hafter, ha⟩, fun x hx y hy => ?_⟩
  rcases mem_cons.mp hy with rfl | hy
  · exact hbefore x hx
  · exact hba x hx y hy

theorem insert (hafter : ∀ b ∈ after, key b < key a) (hroom : (before ++ after).length < max) :
    Least key max (fun x => x = a ∨ seen x) (before ++ a :: after) := by
  have hmem : ∀ x, x ∈ before ++ a :: after ↔ x = a ∨ x ∈ before ++ after := by
    intro x
    rw [mem_append, mem_cons, mem_append, or_left_comm]
  refine ⟨fun x hx => ((hmem x).mp hx).imp_right (h.mem x), h.order_insert hbefore hafter, ?_, fun x hx hout => ?_⟩
  · rw [length_append, length_cons, ← Nat.add_assoc, ← length_append]
    exact hroom
  · obtain ⟨hne, hout⟩ := not_or.mp (mt (hmem x).mpr hout)
    exact absurd (h.rest x (hx.resolve_left hne) hout).1 (Nat.ne_of_lt hroom)

theorem replace (hafter : ∀ b ∈ after, key b < key a) (hfull : (before ++ after).length = max) :
    Least key max (fun x => x = a ∨ seen x) (before ++ a :: after).tail := by
  have horder := h.order_insert hbefore hafter
  cases before with
  | nil =>
    -- the new one is the largest
    refine ⟨fun x hx => .inr (h.mem x hx), h.order, h.length, fun x hx hout => ?_⟩
    rcases hx with rfl | hx
    · exact ⟨hfull, hafter⟩
    · exact h.rest x hx hout
  | cons first before =>
    obtain ⟨hfirst, horder⟩ := pairwise_cons.mp horder
    have hlength : (before ++ a :: after).length = max := by
      rw [← hfull, cons_append, length_cons, length_append, length_append]
      rfl
    refine ⟨fun x hx => ?_, horder, Nat.le_of_eq hlength, fun x hx hout => ⟨hlength, fun b hb => ?_⟩⟩
    · rcases mem_append.mp hx with hx | hx
      · exact .inr (h.mem x (mem_append_left _ (mem_cons_of_mem _ hx)))
      · exact (mem_cons.mp hx).imp_right fun hx => h.mem x (mem_append_right _ hx)
    · by_cases hxfirst : x = first
      · exact hxfirst ▸ hfirst b hb
      · have hxa : x ≠ a := fun heq => hout (heq ▸ mem_append_right _ mem_cons_self)
        have hold : x ∉ first :: before ++ after := fun hmem => by
          rcases mem_append.mp hmem with hmem | hmem
          · exact hout (mem_append_left _ ((mem_cons.mp hmem).resolve_left hxfirst))
          · exact hout (mem_append_right _ (mem_cons_of_mem _ hmem))
        exact (hfirst b hb).trans ((h.rest x (hx.resolve_left hxa) hold).2 first mem_cons_self)

end Least

end Hyperboria
