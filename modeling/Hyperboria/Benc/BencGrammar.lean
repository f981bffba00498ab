/-
What a bencoded dictionary is, said without a reader (`Entries`), and that the
reader returns on a message exactly when the message begins with one
(`read_returns_iff`). On every other message it raises, and a raise ends the
process: the error string `readNoExcept` would hand to its callers is never
handed to them.
-/
import Hyperboria.Benc.BencMessageReader

namespace Hyperboria.Benc

open Er List

open Base10 (isDigit Numeral)

/-! ## The grammar -/

/-- `w` begins with the string `s`, and goes on with `rest`. -/
def Str (w s rest : List UInt8) : Prop :=
  ∃ len : Int, Numeral w len (58 :: (s ++ rest)) ∧ 0 ≤ len ∧ s.length = len.toNat

mutual

/-- `w` begins with a value, and goes on with `rest`. -/
inductive Value : List UInt8 → Object → List UInt8 → Prop where
  | string {c w s rest} : isDigit c = true → Str (c :: w) s rest → Value (c :: w) (.string s) rest
  | integer {w v rest} : Numeral w v (101 :: rest) → Value (105 :: w) (.integer v) rest
  | list {w xs rest} : Items w xs rest → Value (108 :: w) (.list xs.reverse) rest
  | dict {w es rest} : Entries w es rest → Value (100 :: w) (.dict es.reverse) rest

/-- The values of a list up to its `e`, as they stand in the message. -/
inductive Items : List UInt8 → List Object → List UInt8 → Prop where
  | stop {rest} : Items (101 :: rest) [] rest
  | item {w x mid xs rest} : Value w x mid → Items mid xs rest → Items w (x :: xs) rest

/-- The entries of a dictionary up to its `e`, as they stand in the message. -/
inductive Entries : List UInt8 → List (List UInt8 × Object) → List UInt8 → Prop where
  | stop {rest} : Entries (101 :: rest) [] rest
  | entry {w k mid x mid' es rest} : Str w k mid → Value mid x mid' → Entries mid' es rest →
      Entries w ((k, x) :: es) rest

end

/-- The message begins with a bencoded dictionary. -/
def BeginsWithDict (bytes : List UInt8) : Prop := ∃ w es rest, bytes = 100 :: w ∧ Entries w es rest

variable {w s rest : List UInt8}

theorem Str.length_lt (h : Str w s rest) : rest.length < w.length := by
  obtain ⟨len, hn, -, -⟩ := h
  have := hn.length_lt
  simp only [length_cons, length_append] at this
  omega

variable {v : Int}

theorem numeral_head (h : Numeral w v rest) :
    ∃ c w', w = c :: w' ∧ c ≠ 101 := by
  obtain ⟨negative, ds, hne, hd, rfl, -⟩ := h.spelled
  cases ds with
  | nil => exact absurd rfl hne
  | cons d ds =>
    have hdd := hd d (by simp)
    have hd101 : d ≠ 101 := by
      intro he; subst he; exact absurd hdd (by decide)
    cases negative with
    | true => exact ⟨45, _, rfl, by decide⟩
    | false => exact ⟨d, _, rfl, hd101⟩

theorem Str.head {w s rest} (h : Str w s rest) : ∃ c w', w = c :: w' ∧ c ≠ 101 := by
  obtain ⟨len, hn, -, -⟩ := h
  exact numeral_head hn

theorem Value.head {w rest} {x} (h : Value w x rest) : ∃ c w', w = c :: w' ∧ c ≠ 101 := by
  cases h with
  | string hc _ =>
    refine ⟨_, _, rfl, ?_⟩
    intro he; subst he; exact absurd hc (by decide)
  | _ => exact ⟨_, _, rfl, by decide⟩

mutual

theorem Value.length_lt : ∀ {w rest : List UInt8} {x : Object}, Value w x rest → rest.length < w.length
  | _, _, _, .string _ h => h.length_lt
  | _, _, _, .integer h => by
    have := h.length_lt
    simp only [length_cons] at this ⊢
    omega
  | _, _, _, .list h => by
    have := h.length_lt
    simp only [length_cons]
    omega
  | _, _, _, .dict h => by
    have := h.length_lt
    simp only [length_cons]
    omega

theorem Items.length_lt : ∀ {w rest : List UInt8} {xs : List Object}, Items w xs rest → rest.length < w.length
  | _, _, _, .stop => by simp
  | _, _, _, .item hv hi => Nat.lt_trans hi.length_lt hv.length_lt

theorem Entries.length_lt : ∀ {w rest : List UInt8} {es : List (List UInt8 × Object)},
    Entries w es rest → rest.length < w.length
  | _, _, _, .stop => by simp
  | _, _, _, .entry hk hv he => Nat.lt_trans he.length_lt (Nat.lt_trans hv.length_lt hk.length_lt)

end

/-! ## Integers and strings -/

theorem readInt_of_numeral (h : Numeral w v (101 :: rest)) (pad : List UInt8) :
    ∃ pad', readInt ⟨pad, w⟩ = .ret (v, ⟨pad', rest⟩) := by
  obtain ⟨pad', hr⟩ := Base10.read_of_numeral h pad
  exact ⟨101 :: pad', by simp [readInt, hr]⟩

variable {pad : List UInt8} {m : Message}

theorem readInt_sound (h : readInt ⟨pad, w⟩ = .ret (v, m)) :
    Numeral w v (101 :: m.bytes) := by
  simp only [readInt, bind_eq_ret, Prod.exists] at h
  obtain ⟨num, ⟨pad', w'⟩, hr, chr, m', hp, h⟩ := h
  have hn := Base10.numeral_of_read hr
  cases w' with
  | nil => simp at hp
  | cons c w' =>
    simp only [Message.epop8_cons] at hp
    obtain ⟨rfl, rfl⟩ := hp
    split at h
    · simp [raise] at h
    · next hc =>
      cases h
      simp only [not_not] at hc
      rw [hc] at hn
      exact hn

theorem epop8_ne_spin (m : Message) : m.epop8 ≠ .spin := by
  obtain ⟨pad, w⟩ := m
  cases w with
  | nil => simp
  | cons c w => simp

theorem epop_ne_spin (m : Message) (k : Nat) : m.epop k ≠ .spin := by
  by_cases h : k ≤ m.length
  · rw [Message.epop_eq h]; simp
  · rw [Message.epop_underflow (by omega)]; simp

theorem readInt_ne_spin (m : Message) : readInt m ≠ .spin := by
  refine bind_ne_spin (Base10.read_ne_spin m.pad m.bytes) fun ⟨num, m'⟩ _ => ?_
  refine bind_ne_spin (epop8_ne_spin m') fun ⟨c, m''⟩ _ => ?_
  simp only
  split
  · simp [raise]
  · simp

theorem readString_of_str (h : Str w s rest) (pad : List UInt8) :
    ∃ pad', readString ⟨pad, w⟩ = .ret (s, ⟨pad', rest⟩) := by
  obtain ⟨len, hn, hpos, hlen⟩ := h
  obtain ⟨pad', hr⟩ := Base10.read_of_numeral hn pad
  have hneg : ¬ len < 0 := by omega
  have hfit : ¬ len > ((Message.mk (58 :: pad') (s ++ rest)).length : Int) := by
    simp only [Message.length_mk, length_append]
    omega
  have hpop := @Message.epop_eq ⟨58 :: pad', s ++ rest⟩ len.toNat (by simp [← hlen])
  simp only [← hlen, take_left, drop_left] at hpop
  refine ⟨s.reverse ++ 58 :: pad', ?_⟩
  simp only [readString, hr, ret_bind, hneg, Message.epop8_cons, hfit]
  rw [← hlen]
  exact hpop

theorem readString_sound (h : readString ⟨pad, w⟩ = .ret (s, m)) :
    Str w s m.bytes := by
  simp only [readString, bind_eq_ret, Prod.exists] at h
  obtain ⟨len, ⟨pad', w'⟩, hr, h⟩ := h
  have hn := Base10.numeral_of_read hr
  split at h
  · simp [raise] at h
  next hneg =>
  simp only [bind_eq_ret, Prod.exists] at h
  obtain ⟨chr, m', hp, h⟩ := h
  cases w' with
  | nil => simp at hp
  | cons c w' =>
  simp only [Message.epop8_cons] at hp
  obtain ⟨rfl, rfl⟩ := hp
  split at h
  · simp [raise] at h
  next hc =>
  split at h
  · simp [raise] at h
  next hfit =>
  have hle : len.toNat ≤ w'.length := by
    simp only [Message.length_mk] at hfit
    omega
  rw [Message.epop_eq (by simpa using hle)] at h
  cases h
  simp only [not_not] at hc
  refine ⟨len, ?_, by omega, length_take_of_le hle⟩
  rw [take_append_drop, ← hc]
  exact hn

theorem readString_ne_spin (m : Message) : readString m ≠ .spin := by
  refine bind_ne_spin (Base10.read_ne_spin m.pad m.bytes) fun r _ => ?_
  obtain ⟨len, m'⟩ := r
  simp only
  split
  · simp [raise]
  refine bind_ne_spin (epop8_ne_spin m') fun r _ => ?_
  split
  · simp [raise]
  split
  · simp [raise]
  · exact epop_ne_spin _ _

/-! ## One round of the reader -/

theorem readList_nil (n : Nat) (pad : List UInt8) (last : List Object) :
    readList (n + 1) ⟨pad, []⟩ last = .abort "buffer underflow" := by
  simp [readList]

theorem readList_stop (n : Nat) (pad w : List UInt8) (last : List Object) :
    readList (n + 1) ⟨pad, 101 :: w⟩ last = .ret (last, ⟨101 :: pad, w⟩) := by
  simp [readList]

variable {c : UInt8}

theorem readList_item (n : Nat) (pad w : List UInt8) (last : List Object) (hc : c ≠ 101) :
    readList (n + 1) ⟨pad, c :: w⟩ last =
      (readGeneric n ⟨pad, c :: w⟩ >>= fun r => readList n r.2 (r.1 :: last)) := by
  simp [readList, hc]

theorem readDict_nil (n : Nat) (pad : List UInt8) (last : Dict) :
    readDict (n + 1) ⟨pad, []⟩ last = .abort "buffer underflow" := by
  simp [readDict]

theorem readDict_stop (n : Nat) (pad w : List UInt8) (last : Dict) :
    readDict (n + 1) ⟨pad, 101 :: w⟩ last = .ret (last, ⟨101 :: pad, w⟩) := by
  simp [readDict]

theorem readDict_entry (n : Nat) (pad w : List UInt8) (last : Dict) (hc : c ≠ 101) :
    readDict (n + 1) ⟨pad, c :: w⟩ last =
      (readString ⟨pad, c :: w⟩ >>= fun k => readGeneric n k.2 >>= fun r =>
        readDict n r.2 ((k.1, r.1) :: last)) := by
  simp [readDict, hc]

theorem readGeneric_nil (n : Nat) (pad : List UInt8) :
    readGeneric (n + 1) ⟨pad, []⟩ = .abort "buffer underflow" := by
  simp [readGeneric]

theorem readGeneric_list (n : Nat) (pad w : List UInt8) :
    readGeneric (n + 1) ⟨pad, 108 :: w⟩ =
      (readList n ⟨108 :: pad, w⟩ [] >>= fun r => .ret (.list r.1, r.2)) := by
  simp [readGeneric]

theorem readGeneric_dict (n : Nat) (pad w : List UInt8) :
    readGeneric (n + 1) ⟨pad, 100 :: w⟩ =
      (readDict n ⟨100 :: pad, w⟩ [] >>= fun r => .ret (.dict r.1, r.2)) := by
  simp [readGeneric]

theorem readGeneric_integer (n : Nat) (pad w : List UInt8) :
    readGeneric (n + 1) ⟨pad, 105 :: w⟩ = (readInt ⟨105 :: pad, w⟩ >>= fun r => .ret (.integer r.1, r.2)) := by
  simp [readGeneric]

theorem isDigit_ne {d} (h : isDigit c = true) (hd : isDigit d = false) : c ≠ d := by
  intro he
  rw [he, hd] at h
  exact Bool.noConfusion h

theorem readGeneric_string (n : Nat) (pad w : List UInt8) (hc : isDigit c = true) :
    readGeneric (n + 1) ⟨pad, c :: w⟩ = (readString ⟨pad, c :: w⟩ >>= fun r => .ret (.string r.1, r.2)) := by
  simp [readGeneric, hc, isDigit_ne hc (show isDigit 108 = false by decide),
    isDigit_ne hc (show isDigit 100 = false by decide), isDigit_ne hc (show isDigit 105 = false by decide)]

theorem readGeneric_other (n : Nat) (pad w : List UInt8) (h1 : c ≠ 108) (h2 : c ≠ 100) (h3 : c ≠ 105)
    (h4 : isDigit c = false) : (readGeneric (n + 1) ⟨pad, c :: w⟩).Aborts := by
  simp [readGeneric, h1, h2, h3, h4, raise, Er.Aborts]

/-! ## What is read is in the grammar -/

theorem sound (n : Nat) :
    (∀ pad w x m, readGeneric n ⟨pad, w⟩ = .ret (x, m) → Value w x m.bytes) ∧
    (∀ pad w last out m, readList n ⟨pad, w⟩ last = .ret (out, m) →
      ∃ xs, out = xs.reverse ++ last ∧ Items w xs m.bytes) ∧
    (∀ pad w last out m, readDict n ⟨pad, w⟩ last = .ret (out, m) →
      ∃ es, out = es.reverse ++ last ∧ Entries w es m.bytes) := by
  induction n with
  | zero => simp [readGeneric, readList, readDict]
  | succ n ih =>
    obtain ⟨ihg, ihl, ihd⟩ := ih
    refine ⟨fun pad w x m h => ?_, fun pad w last out m h => ?_, fun pad w last out m h => ?_⟩
    · cases w with
      | nil => simp [readGeneric_nil] at h
      | cons c w =>
        by_cases h1 : c = 108
        · subst h1
          simp only [readGeneric_list, bind_eq_ret, ret.injEq, Prod.mk.injEq, Prod.exists] at h
          obtain ⟨xs, m', hl, rfl, rfl⟩ := h
          obtain ⟨ys, rfl, hi⟩ := ihl _ _ _ _ _ hl
          rw [append_nil]
          exact .list hi
        by_cases h2 : c = 100
        · subst h2
          simp only [readGeneric_dict, bind_eq_ret, ret.injEq, Prod.mk.injEq, Prod.exists] at h
          obtain ⟨xs, m', hl, rfl, rfl⟩ := h
          obtain ⟨ys, rfl, hi⟩ := ihd _ _ _ _ _ hl
          rw [append_nil]
          exact .dict hi
        by_cases h3 : c = 105
        · subst h3
          simp only [readGeneric_integer, bind_eq_ret, ret.injEq, Prod.mk.injEq, Prod.exists] at h
          obtain ⟨v, m', hv, rfl, rfl⟩ := h
          exact .integer (readInt_sound hv)
        cases h4 : isDigit c with
        | true =>
          simp only [readGeneric_string n pad w h4, bind_eq_ret, ret.injEq, Prod.mk.injEq,
            Prod.exists] at h
          obtain ⟨s, m', hs, rfl, rfl⟩ := h
          exact .string h4 (readString_sound hs)
        | false =>
          obtain ⟨text, ht⟩ := readGeneric_other n pad w h1 h2 h3 h4
          simp [ht] at h
    · cases w with
      | nil => simp [readList_nil] at h
      | cons c w =>
        by_cases hc : c = 101
        · subst hc
          simp only [readList_stop, ret.injEq, Prod.mk.injEq] at h
          obtain ⟨rfl, rfl⟩ := h
          exact ⟨[], rfl, .stop⟩
        · simp only [readList_item n pad w last hc, bind_eq_ret, Prod.exists] at h
          obtain ⟨x, m', hx, hl⟩ := h
          obtain ⟨xs, rfl, hi⟩ := ihl _ _ _ _ _ hl
          exact ⟨x :: xs, by simp, .item (ihg _ _ _ _ hx) hi⟩
    · cases w with
      | nil => simp [readDict_nil] at h
      | cons c w =>
        by_cases hc : c = 101
        · subst hc
          simp only [readDict_stop, ret.injEq, Prod.mk.injEq] at h
          obtain ⟨rfl, rfl⟩ := h
          exact ⟨[], rfl, .stop⟩
        · simp only [readDict_entry n pad w last hc, bind_eq_ret, Prod.exists] at h
          obtain ⟨k, m', hk, x, m'', hx, hl⟩ := h
          obtain ⟨es, rfl, hi⟩ := ihd _ _ _ _ _ hl
          exact ⟨(k, x) :: es, by simp, .entry (readString_sound hk) (ihg _ _ _ _ hx) hi⟩

/-! ## The steps are enough

Every call takes a byte before it calls again, but for the two loops, which put
theirs back: hence two steps a byte.
-/

theorem readGeneric_length_lt {n} {x} (h : readGeneric n ⟨pad, w⟩ = .ret (x, m)) : m.length < w.length :=
  ((sound n).1 _ _ _ _ h).length_lt

theorem steps_suffice (n : Nat) :
    (∀ pad w, 2 * w.length + 1 ≤ n → readGeneric n ⟨pad, w⟩ ≠ .spin) ∧
    (∀ pad w last, 2 * w.length + 2 ≤ n → readList n ⟨pad, w⟩ last ≠ .spin) ∧
    (∀ pad w last, 2 * w.length + 2 ≤ n → readDict n ⟨pad, w⟩ last ≠ .spin) := by
  induction n with
  | zero => simp
  | succ n ih =>
    obtain ⟨ihg, ihl, ihd⟩ := ih
    refine ⟨fun pad w h => ?_, fun pad w last h => ?_, fun pad w last h => ?_⟩
    · cases w with
      | nil => simp [readGeneric_nil]
      | cons c w =>
        simp only [length_cons] at h
        by_cases h1 : c = 108
        · rw [h1, readGeneric_list]
          exact bind_ne_spin (ihl _ _ _ (by omega)) (by simp)
        by_cases h2 : c = 100
        · rw [h2, readGeneric_dict]
          exact bind_ne_spin (ihd _ _ _ (by omega)) (by simp)
        by_cases h3 : c = 105
        · rw [h3, readGeneric_integer]
          exact bind_ne_spin (readInt_ne_spin _) (by simp)
        cases h4 : isDigit c with
        | true =>
          rw [readGeneric_string n pad w h4]
          exact bind_ne_spin (readString_ne_spin _) (by simp)
        | false =>
          obtain ⟨text, ht⟩ := readGeneric_other n pad w h1 h2 h3 h4
          simp [ht]
    · cases w with
      | nil => simp [readList_nil]
      | cons c w =>
        by_cases hc : c = 101
        · simp [hc, readList_stop]
        · rw [readList_item n pad w last hc]
          refine bind_ne_spin (ihg _ _ (by omega)) fun ⟨x, m⟩ hx => ihl _ _ _ ?_
          have := readGeneric_length_lt hx
          simp only [Message.length] at this
          omega
    · cases w with
      | nil => simp [readDict_nil]
      | cons c w =>
        by_cases hc : c = 101
        · simp [hc, readDict_stop]
        · rw [readDict_entry n pad w last hc]
          refine bind_ne_spin (readString_ne_spin _) fun ⟨k, m⟩ hk => ?_
          have hlt := (readString_sound hk).length_lt
          refine bind_ne_spin (ihg _ _ (by omega)) fun ⟨x, m'⟩ hx => ihd _ _ _ ?_
          have := readGeneric_length_lt hx
          simp only [Message.length] at this hlt
          omega

/-! ## What is in the grammar is read -/

mutual

theorem Value.read : ∀ {w rest : List UInt8} {x : Object}, Value w x rest → ∀ (n : Nat) (pad : List UInt8),
    2 * w.length + 1 ≤ n → ∃ pad', readGeneric n ⟨pad, w⟩ = .ret (x, ⟨pad', rest⟩)
  | _, _, _, .string hc hs, n + 1, pad, _ => by
    obtain ⟨pad', hr⟩ := readString_of_str hs pad
    exact ⟨pad', by rw [readGeneric_string n pad _ hc, hr]; rfl⟩
  | _, _, _, .integer hv, n + 1, pad, _ => by
    obtain ⟨pad', hr⟩ := readInt_of_numeral hv (105 :: pad)
    exact ⟨pad', by rw [readGeneric_integer, hr]; rfl⟩
  | _, _, _, .list hi, n + 1, pad, h => by
    simp only [length_cons] at h
    obtain ⟨pad', hr⟩ := hi.read n (108 :: pad) [] (by omega)
    exact ⟨pad', by rw [readGeneric_list, hr, append_nil]; rfl⟩
  | _, _, _, .dict he, n + 1, pad, h => by
    simp only [length_cons] at h
    obtain ⟨pad', hr⟩ := he.read n (100 :: pad) [] (by omega)
    exact ⟨pad', by rw [readGeneric_dict, hr, append_nil]; rfl⟩

theorem Items.read : ∀ {w rest : List UInt8} {xs : List Object}, Items w xs rest →
    ∀ (n : Nat) (pad : List UInt8) (last : List Object), 2 * w.length + 2 ≤ n →
      ∃ pad', readList n ⟨pad, w⟩ last = .ret (xs.reverse ++ last, ⟨pad', rest⟩)
  | _, _, _, .stop, n + 1, pad, last, _ => ⟨101 :: pad, readList_stop n pad _ last⟩
  | _, _, _, .item hv hi, n + 1, pad, last, h => by
    obtain ⟨c, w', rfl, hc⟩ := hv.head
    have hlt := hv.length_lt
    obtain ⟨pad₁, hg⟩ := hv.read n pad (by omega)
    obtain ⟨pad₂, hl⟩ := hi.read n pad₁ (_ :: last) (by omega)
    refine ⟨pad₂, ?_⟩
    rw [readList_item n pad w' last hc, hg, ret_bind, hl]
    simp

theorem Entries.read : ∀ {w rest : List UInt8} {es : List (List UInt8 × Object)}, Entries w es rest →
    ∀ (n : Nat) (pad : List UInt8) (last : Dict), 2 * w.length + 2 ≤ n →
      ∃ pad', readDict n ⟨pad, w⟩ last = .ret (es.reverse ++ last, ⟨pad', rest⟩)
  | _, _, _, .stop, n + 1, pad, last, _ => ⟨101 :: pad, readDict_stop n pad _ last⟩
  | _, _, _, .entry hk hv he, n + 1, pad, last, h => by
    obtain ⟨c, w', rfl, hc⟩ := hk.head
    have hkl := hk.length_lt
    have hvl := hv.length_lt
    obtain ⟨pad₀, hs⟩ := readString_of_str hk pad
    obtain ⟨pad₁, hg⟩ := hv.read n pad₀ (by omega)
    obtain ⟨pad₂, hl⟩ := he.read n pad₁ (_ :: last) (by omega)
    refine ⟨pad₂, ?_⟩
    rw [readDict_entry n pad w' last hc, hs, ret_bind, hg, ret_bind, hl]
    simp

end

/-! ## The reader -/

theorem read_ne_spin (msg : Message) : read msg ≠ .spin := by
  refine bind_ne_spin (epop8_ne_spin msg) fun ⟨c, m⟩ _ => ?_
  simp only
  split
  · simp [raise]
  · exact (steps_suffice (steps m)).2.2 _ _ _ (by simp [steps, Message.length])

theorem Entries.read_message {w rest} {es : Dict} (h : Entries w es rest) (pad : List UInt8) :
    ∃ pad', Benc.read ⟨pad, 100 :: w⟩ = .ret (es.reverse, ⟨pad', rest⟩) := by
  obtain ⟨pad', hr⟩ := h.read (steps ⟨100 :: pad, w⟩) (100 :: pad) [] (by simp [steps])
  exact ⟨pad', by simpa [Benc.read] using hr⟩

theorem read_returns_iff (msg : Message) : (read msg).Returns ↔ BeginsWithDict msg.bytes := by
  obtain ⟨pad, w⟩ := msg
  refine ⟨fun ⟨⟨d, m⟩, h⟩ => ?_, fun ⟨w', es, rest, hw, he⟩ => ?_⟩
  · cases w with
    | nil => simp [read] at h
    | cons c w =>
      by_cases hc : c = 100
      · simp only [hc] at h
        obtain ⟨es, -, he⟩ := (sound _).2.2 _ _ _ _ _ h
        exact ⟨w, es, m.bytes, by rw [hc], he⟩
      · simp [read, hc, raise] at h
  · obtain ⟨pad', hr⟩ := he.read_message pad
    exact ⟨_, by rw [show w = 100 :: w' from hw, hr]⟩

/-- What a caller is promised: the call comes back, with a dictionary or with an error text. -/
def Answers (msg : Message) : Prop :=
  ∃ error dict msg', readNoExcept msg = .ret (error, dict, msg') ∧
    ((error = none ∧ dict.isSome) ∨ error.isSome)

theorem answers_iff_returns (msg : Message) : Answers msg ↔ (read msg).Returns := by
  refine ⟨fun ⟨error, dict, msg', h, _⟩ => ?_, fun ⟨⟨d, m⟩, h⟩ => ?_⟩
  · simp only [readNoExcept, bind_eq_ret] at h
    obtain ⟨r, hr, -⟩ := h
    exact ⟨r, hr⟩
  · exact ⟨none, some d, m, by simp [readNoExcept, check, h], .inl ⟨rfl, rfl⟩⟩

/-- The reader comes back to its caller exactly when the message begins with a bencoded dictionary;
on any other message the process ends. -/
theorem readNoExcept_answers_iff (msg : Message) :
    (Answers msg ↔ BeginsWithDict msg.bytes) ∧ (¬ BeginsWithDict msg.bytes → (readNoExcept msg).Aborts) := by
  refine ⟨(answers_iff_returns msg).trans (read_returns_iff msg), fun h => ?_⟩
  rw [← read_returns_iff, not_returns_iff (read_ne_spin msg)] at h
  obtain ⟨text, ht⟩ := h
  exact ⟨text, by simp [readNoExcept, check, ht]⟩

/-- A message with no byte in it. -/
theorem readNoExcept_empty : ¬ Answers ⟨[], []⟩ ∧ readNoExcept ⟨[], []⟩ = .abort "buffer underflow" := by
  have h : readNoExcept ⟨[], []⟩ = .abort "buffer underflow" := by
    simp [readNoExcept, check, read]
  refine ⟨fun ⟨error, dict, msg', hr, _⟩ => ?_, h⟩
  simp [h] at hr

end Hyperboria.Benc
