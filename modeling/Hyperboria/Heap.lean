/-
Cells of memory that are allocated, written and freed one by one. The address of a cell
is its place in the list of all that were ever allocated, and no address is given out
twice. A cell that was freed holds nothing.
-/
import Mathlib

structure Heap (α : Type) where
  cells : List (Option α)
deriving DecidableEq, Repr

namespace Heap

open List

variable {α : Type}

/-- Nothing has been allocated. -/
def empty : Heap α := ⟨[]⟩

/-- What the cell at this address holds. -/
def get? (h : Heap α) (i : Nat) : Option α := h.cells[i]?.join

/-- The address of the next cell to be allocated. -/
def next (h : Heap α) : Nat := h.cells.length

def alloc (h : Heap α) (a : α) : Heap α := ⟨h.cells ++ [some a]⟩

def set (h : Heap α) (i : Nat) (a : α) : Heap α := ⟨h.cells.set i (some a)⟩

def free (h : Heap α) (i : Nat) : Heap α := ⟨h.cells.set i none⟩

variable {h : Heap α} {i j : Nat} {a b : α}

theorem lt_next (hi : h.get? i = some a) : i < h.next := by
  unfold get? at hi
  by_contra hlt
  rw [getElem?_eq_none (Nat.le_of_not_lt hlt)] at hi
  cases hi

theorem get?_next : h.get? h.next = none := by
  simp [get?, next]

theorem get?_alloc : (h.alloc a).get? j = if j = h.next then some a else h.get? j := by
  unfold get? alloc next
  rcases Nat.lt_trichotomy j h.cells.length with hlt | heq | hgt
  · rw [getElem?_append_left hlt, if_neg (Nat.ne_of_lt hlt)]
  · simp [heq]
  · rw [getElem?_eq_none (by simp; omega), if_neg (Nat.ne_of_gt hgt), getElem?_eq_none (by omega)]

theorem get?_set (hi : h.get? i = some b) : (h.set i a).get? j = if j = i then some a else h.get? j := by
  have hlt := lt_next hi
  unfold next at hlt
  unfold get? set
  rw [getElem?_set]
  by_cases hji : j = i
  · rw [if_pos hji, if_pos hji.symm, if_pos hlt]
    rfl
  · rw [if_neg hji, if_neg (Ne.symm hji)]

theorem get?_set_self (hi : h.get? i = some b) : (h.set i a).get? i = some a := by
  rw [get?_set hi, if_pos rfl]

theorem get?_set_of_ne (hji : j ≠ i) : (h.set i a).get? j = h.get? j := by
  unfold get? set
  rw [getElem?_set, if_neg (Ne.symm hji)]

theorem get?_free : (h.free i).get? j = if j = i then none else h.get? j := by
  unfold get? free
  rw [getElem?_set]
  by_cases hji : j = i
  · rw [if_pos hji.symm]
    split
    · rfl
    · rfl
  · rw [if_neg hji, if_neg (Ne.symm hji)]

theorem set_get? (hi : h.get? i = some a) : h.set i a = h := by
  obtain ⟨hlt, hcell⟩ := List.getElem?_eq_some_iff.mp (Option.join_eq_some_iff.mp hi)
  unfold set
  rw [← hcell, set_getElem_self]

@[simp] theorem next_set : (h.set i a).next = h.next := by
  simp [next, set]

@[simp] theorem next_free : (h.free i).next = h.next := by
  simp [next, free]

@[simp] theorem next_alloc : (h.alloc a).next = h.next + 1 := by
  simp [next, alloc]

/-- The cells freed one after the other hold nothing, the others what they held. -/
theorem get?_foldl_free {is : List Nat} : (is.foldl free h).get? j = if j ∈ is then none else h.get? j := by
  induction is generalizing h with
  | nil => simp
  | cons i is ih =>
    rw [foldl_cons, ih, get?_free]
    by_cases hj : j ∈ is
    · simp [hj]
    · by_cases hji : j = i
      · simp [hji]
      · simp [hji]

theorem next_foldl_free {is : List Nat} : (is.foldl free h).next = h.next := by
  induction is generalizing h with
  | nil => rfl
  | cons i is ih => rw [foldl_cons, ih, next_free]

end Heap
