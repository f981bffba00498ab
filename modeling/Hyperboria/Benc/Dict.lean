/-
`benc/Dict.c` over runs of puts and removals, beside the map a dictionary stands for. The two
agree on dictionaries that are linked in ascending order, as puts into a new one leave them, and
on no others (`lawful_iff_ordered`). The reader links the entries backwards: so a lookup answers
the value that was read last (`lookup_reverse`), but a message with its keys in ascending order,
as bencode has them, is read as a dictionary with the keys in descending order.
-/
import Hyperboria.Benc.BencGrammar

namespace Hyperboria.Benc

open List

/-- A call that changes a dictionary. -/
inductive Change where
  | put (key : List UInt8) (value : Object)
  | remove (key : List UInt8)

/-- The dictionary after a call. -/
def Change.apply (d : Dict) : Change → Dict
  | .put key value => (putObject key value d).2
  | .remove key => (removeObject key d).2

/-- What a call is to do to the map the dictionary stands for. -/
def Change.meant (f : List UInt8 → Option Object) : Change → List UInt8 → Option Object
  | .put key value => fun k => if k = key then some value else f k
  | .remove key => fun k => if k = key then none else f k

/-- The keys, in the order of the links. -/
def keys (d : Dict) : List (List UInt8) := d.map Prod.fst

/-- The map that the entries of a message stand for, in the order in which they are written: the last
value for a key counts. -/
def lastRead (es : Dict) (key : List UInt8) : Option Object :=
  (es.filter fun entry => entry.1 = key).getLast?.map Prod.snd

/-- After these calls on a dictionary that stands for the map `f`, a key that was put occurs once at most,
and lookups give what the calls were to leave. -/
def Lawful (f : List UInt8 → Option Object) (d : Dict) (calls : List Change) : Prop :=
  (∀ key value, .put key value ∈ calls → (keys (calls.foldl Change.apply d)).count key ≤ 1) ∧
  ∀ key, lookupObject key (calls.foldl Change.apply d) = calls.foldl Change.meant f key

/-! ## The order of keys -/

/-- Keys are ordered as lists of signed bytes. -/
def rank (key : List UInt8) : List Int := key.map char

theorem char_injective {x y} (h : char x = char y) : x = y := by
  have hx := x.toNat_lt
  have hy := y.toNat_lt
  obtain ⟨k, hk⟩ := Int.dvd_of_bmod_eq_zero (Int.bmod_eq_bmod_iff_bmod_sub_eq_zero.mp h)
  exact UInt8.toNat_inj.mp (by omega)

theorem rank_inj {a b} : rank a = rank b ↔ a = b :=
  map_inj_right fun _ _ => char_injective

theorem stringCompare_iff (a b : List UInt8) :
    (stringCompare a b < 0 ↔ rank a < rank b) ∧ (stringCompare a b = 0 ↔ a = b) := by
  induction a generalizing b with
  | nil =>
    cases b with
    | nil => simp [stringCompare]
    | cons y b => simp [stringCompare, rank]; omega
  | cons x a ih =>
    cases b with
    | nil => simp [stringCompare, rank]; omega
    | cons y b =>
      rw [stringCompare]
      split
      · next hne =>
        have hxy : x ≠ y := by
          rintro rfl
          omega
        simp only [rank, map_cons, cons_lt_cons_iff, cons.injEq, hxy, false_and, iff_false]
        exact ⟨by omega, hne⟩
      · next heq =>
        obtain rfl := @char_injective x y (by omega)
        have h := ih b
        simp only [rank, map_cons, cons_lt_cons_iff, lt_self_iff_false, false_or, true_and,
          cons.injEq] at h ⊢
        exact h

/-- Linked in ascending order. -/
def Ordered (d : Dict) : Prop := (keys d).Pairwise fun a b => rank a < rank b

variable {key : List UInt8} {value : Object} {d : Dict}

theorem putObject_cons (k : List UInt8) (v : Object) :
    (rank key < rank k ∧ (putObject key value ((k, v) :: d)).2 = (key, value) :: (k, v) :: d) ∨
    (key = k ∧ (putObject key value ((k, v) :: d)).2 = (key, value) :: d) ∨
    (rank k < rank key ∧ (putObject key value ((k, v) :: d)).2 = (k, v) :: (putObject key value d).2) := by
  obtain ⟨hlt, heq⟩ := stringCompare_iff key k
  rw [putObject]
  split
  · next h => exact .inl ⟨hlt.mp h, rfl⟩
  · split
    · next h =>
      obtain rfl := heq.mp h
      exact .inr (.inl ⟨rfl, rfl⟩)
    · next hn hz =>
      refine .inr (.inr ⟨lt_of_le_of_ne (not_lt.mp (mt hlt.mpr hn)) fun h => hz (heq.mpr ?_), rfl⟩)
      exact (rank_inj.mp h).symm

/-! ## What a call does -/

theorem lookup_put (k : List UInt8) :
    lookupObject k (putObject key value d).2 = if k = key then some value else lookupObject k d := by
  induction d with
  | nil => simp [putObject, lookupObject]
  | cons entry d ih =>
    obtain ⟨k', v⟩ := entry
    rcases @putObject_cons key value d k' v with ⟨-, h⟩ | ⟨rfl, h⟩ | ⟨hlt, h⟩
    · rw [h, lookupObject]
    · rw [h, lookupObject, lookupObject]
      split
      · rfl
      · rfl
    · rw [h, lookupObject, lookupObject]
      grind

theorem mem_keys_put {k} (h : k ∈ keys (putObject key value d).2) : k = key ∨ k ∈ keys d := by
  induction d with
  | nil => simpa [putObject, keys] using h
  | cons entry d ih =>
    obtain ⟨k', v⟩ := entry
    rcases @putObject_cons key value d k' v with ⟨-, h'⟩ | ⟨rfl, h'⟩ | ⟨-, h'⟩
    all_goals
      simp only [keys] at h ih ⊢
      grind

theorem Ordered.put (h : Ordered d) : Ordered (putObject key value d).2 := by
  induction d with
  | nil => simp [putObject, Ordered, keys]
  | cons entry d ih =>
    obtain ⟨k, v⟩ := entry
    obtain ⟨hhead, htail⟩ := pairwise_cons.mp h
    rcases @putObject_cons key value d k v with ⟨hlt, h'⟩ | ⟨rfl, h'⟩ | ⟨hlt, h'⟩
    · rw [h']
      refine pairwise_cons.mpr ⟨fun b hb => ?_, h⟩
      rcases mem_cons.mp hb with rfl | hb
      · exact hlt
      · exact hlt.trans (hhead b hb)
    · rw [h']
      exact h
    · rw [h']
      refine pairwise_cons.mpr ⟨fun b hb => ?_, ih htail⟩
      rcases mem_keys_put hb with rfl | hb
      · exact hlt
      · exact hhead b hb

theorem Ordered.nodup (h : Ordered d) : (keys d).Nodup :=
  h.imp fun hlt heq => absurd hlt (by simp [heq])

theorem lookup_eq_none (h : key ∉ keys d) : lookupObject key d = none := by
  induction d with
  | nil => rfl
  | cons entry d ih =>
    simp only [keys, map_cons, mem_cons, not_or] at h ih
    rw [lookupObject, if_neg h.1, ih h.2]

variable (h : Ordered d)
include h

theorem lookup_remove (k : List UInt8) :
    lookupObject k (removeObject key d).2 = if k = key then none else lookupObject k d := by
  induction d with
  | nil => simp [removeObject, lookupObject]
  | cons entry d ih =>
    obtain ⟨k', v⟩ := entry
    have hnew : k' ∉ keys d := (nodup_cons.mp h.nodup).1
    have ih := ih h.of_cons
    rw [removeObject]
    split
    · next heq =>
      subst heq
      by_cases hk : k = key
      · rw [if_pos hk, hk, lookup_eq_none hnew]
      · rw [if_neg hk, lookupObject, if_neg hk]
    · next hne =>
      rw [lookupObject, lookupObject]
      grind

theorem Ordered.remove : Ordered (removeObject key d).2 := by
  refine h.sublist (List.Sublist.map _ ?_)
  induction d with
  | nil => exact .slnil
  | cons entry d ih =>
    rw [removeObject]
    split
    · exact sublist_cons_self _ _
    · exact (ih h.of_cons).cons_cons _

/-! ## Runs -/

theorem Ordered.apply (call : Change) : Ordered (call.apply d) ∧
    (fun key => lookupObject key (call.apply d)) = call.meant fun key => lookupObject key d := by
  cases call with
  | put key value => exact ⟨h.put, funext lookup_put⟩
  | remove key => exact ⟨h.remove, funext (lookup_remove h)⟩

theorem Ordered.run (calls : List Change) : Ordered (calls.foldl Change.apply d) ∧
    (fun key => lookupObject key (calls.foldl Change.apply d)) =
      calls.foldl Change.meant fun key => lookupObject key d := by
  induction calls generalizing d with
  | nil => exact ⟨h, rfl⟩
  | cons call calls ih =>
    obtain ⟨h', heq⟩ := h.apply call
    rw [foldl_cons, foldl_cons, ← heq]
    exact ih h'

theorem Ordered.lawful (calls : List Change) : Lawful (fun key => lookupObject key d) d calls :=
  ⟨fun key _ _ => nodup_iff_count_le_one.mp (h.run calls).1.nodup key, congrFun (h.run calls).2⟩

omit h

theorem count_put_le : (keys (putObject key value d).2).count key ≤ 1 + (keys d).count key := by
  induction d with
  | nil => simp [putObject, keys]
  | cons entry d ih =>
    obtain ⟨k, v⟩ := entry
    rcases @putObject_cons key value d k v with ⟨-, h⟩ | ⟨rfl, h⟩ | ⟨-, h⟩
    all_goals
      simp only [keys] at ih ⊢
      grind

/-- A put that finds a later entry below an earlier one leaves the key twice. -/
theorem ordered_of_count (h : ∀ key, (keys (putObject key value d).2).count key ≤ 1) : Ordered d := by
  induction d with
  | nil => exact .nil
  | cons entry d ih =>
    obtain ⟨k, v⟩ := entry
    have hhead : ∀ b ∈ keys d, rank k < rank b := by
      intro b hb
      have hpos := count_pos_iff.mpr hb
      have hle := h b
      rcases @putObject_cons b value d k v with ⟨-, h'⟩ | ⟨rfl, h'⟩ | ⟨hlt, -⟩
      · rw [h'] at hle
        simp only [keys] at hle hpos
        grind
      · rw [h'] at hle
        simp only [keys] at hle hpos
        grind
      · exact hlt
    refine pairwise_cons.mpr ⟨hhead, ih fun key => ?_⟩
    have hle := h key
    by_cases hmem : key ∈ keys d
    · rcases @putObject_cons key value d k v with ⟨hlt, -⟩ | ⟨rfl, -⟩ | ⟨-, h'⟩
      · exact absurd (hhead key hmem) hlt.le.not_gt
      · exact absurd (hhead key hmem) (lt_irrefl _)
      · rw [h'] at hle
        simp only [keys, map_cons, count_cons] at hle ⊢
        omega
    · have := @count_put_le key value d
      rw [count_eq_zero.mpr hmem] at this
      exact this

theorem lawful_iff_ordered : (∀ calls, Lawful (fun key => lookupObject key d) d calls) ↔ Ordered d := by
  refine ⟨fun h => @ordered_of_count (.integer 0) d fun key => ?_, Ordered.lawful⟩
  exact (h [.put key (.integer 0)]).1 key (.integer 0) (by simp)

/-! ## Dictionaries that were read -/

theorem lookup_eq_find? (key : List UInt8) (d : Dict) :
    lookupObject key d = (d.find? fun entry => entry.1 = key).map Prod.snd := by
  induction d with
  | nil => rfl
  | cons entry d ih =>
    obtain ⟨k, v⟩ := entry
    rw [lookupObject, find?_cons, ih]
    by_cases hk : key = k
    · simp [hk]
    · simp [hk, Ne.symm hk]

/-- The entries are linked backwards, so the first one with the key is the one that was read last. -/
theorem lookup_reverse (es : Dict) : (fun key => lookupObject key es.reverse) = lastRead es := by
  funext key
  rw [lookup_eq_find?, lastRead, getLast?_eq_head?_reverse, ← filter_reverse, head?_filter]

/-- A new dictionary is a finite map whatever is put and removed. Lookups in one that was read give the last value
read for a key; it is a finite map, with these values to begin with, exactly if the keys of the message descend. -/
theorem finite_map_iff {w rest : List UInt8} {es : Dict} (he : Entries w es rest) (pad : List UInt8) :
    (∀ calls, Lawful (fun _ => none) [] calls) ∧
    ∃ d pad', read ⟨pad, 100 :: w⟩ = .ret (d, ⟨pad', rest⟩) ∧ (∀ key, lookupObject key d = lastRead es key) ∧
      ((∀ calls, Lawful (lastRead es) d calls) ↔ (keys es).Pairwise fun a b => rank b < rank a) := by
  obtain ⟨pad', h⟩ := he.read_message pad
  refine ⟨lawful_iff_ordered.mpr .nil, _, pad', h, congrFun (lookup_reverse es), ?_⟩
  rw [← lookup_reverse, lawful_iff_ordered, Ordered, keys, map_reverse, pairwise_reverse]
  rfl

theorem str_one (c : UInt8) (rest : List UInt8) : Str (49 :: 58 :: c :: rest) [c] rest :=
  ⟨1, ⟨⟨false, [49], by decide, by simp [Base10.isDigit], rfl, rfl⟩, fun _ h => Option.some.inj h ▸ rfl⟩, by decide, rfl⟩

/-- `d1:b1:x1:a1:ye`. -/
theorem finite_map_descending : (∀ calls, Lawful (fun _ => none) [] calls) ∧
    ∃ d pad', read ⟨[], [100, 49, 58, 98, 49, 58, 120, 49, 58, 97, 49, 58, 121, 101]⟩ = .ret (d, ⟨pad', []⟩) ∧
      ∀ calls, Lawful (lastRead [([98], .string [120]), ([97], .string [121])]) d calls := by
  obtain ⟨hnew, d, pad', h, -, hiff⟩ := finite_map_iff (.entry (str_one 98 _) (.string rfl (str_one 120 _))
    (.entry (str_one 97 _) (.string rfl (str_one 121 _)) .stop)) []
  exact ⟨hnew, d, pad', h, hiff.mpr (by decide)⟩

/-- `d1:a1:x1:b1:ye`, into which `a` is put and taken out again: between the two `a` is there twice, and
afterwards it is there still. -/
theorem ascending_message_repeats : ∃ d pad',
    read ⟨[], [100, 49, 58, 97, 49, 58, 120, 49, 58, 98, 49, 58, 121, 101]⟩ = .ret (d, ⟨pad', []⟩) ∧
    keys ((Change.put [97] (.integer 0)).apply d) = [[97], [98], [97]] ∧
    lookupObject [97] ((Change.remove [97]).apply ((Change.put [97] (.integer 0)).apply d)) =
      some (.string [120]) := by
  obtain ⟨pad', h⟩ := Entries.read_message (.entry (str_one 97 _) (.string rfl (str_one 120 _))
    (.entry (str_one 98 _) (.string rfl (str_one 121 _)) .stop)) []
  exact ⟨_, pad', h, rfl, rfl⟩

end Hyperboria.Benc
