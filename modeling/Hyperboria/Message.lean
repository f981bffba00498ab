/-
`wire/Message.h`: a buffer with a position in it. `bytes` are the `length` bytes
from the position on, `pad` the `padding` bytes before it, nearest first; shifting
moves the position and touches no byte, pushing and popping shift and write or read.
-/
import Hyperboria.Er

namespace Hyperboria

structure Message where
  pad : List UInt8
  bytes : List UInt8
deriving DecidableEq, Repr

namespace Message

/-- The field `length`. -/
def length (msg : Message) : Nat := msg.bytes.length

/-- The field `padding`. -/
def padding (msg : Message) : Nat := msg.pad.length

def eshift (toShift : Message) (amount : Int) : Er Message :=
  let length := toShift.length
  if amount > 0 ∧ (toShift.padding : Int) < amount then
    .raise s!"buffer overflow adding {amount} to length {length}"
  else if (toShift.length : Int) < -amount then .raise "buffer underflow"
  else
    let k := amount.natAbs
    if 0 ≤ amount then .ret ⟨toShift.pad.drop k, (toShift.pad.take k).reverse ++ toShift.bytes⟩
    else .ret ⟨(toShift.bytes.take k).reverse ++ toShift.pad, toShift.bytes.drop k⟩

/-- `Message_epush` of an object. -/
def epush (msg : Message) (object : List UInt8) : Er Message := do
  let msg ← msg.eshift object.length
  .ret { msg with bytes := object ++ msg.bytes.drop object.length }

/-- `Message_epop` of `size` bytes. -/
def epop (msg : Message) (size : Nat) : Er (List UInt8 × Message) := do
  let msg ← msg.eshift (-size)
  .ret ((msg.pad.take size).reverse, msg)

def epush8 (msg : Message) (dat : UInt8) : Er Message := msg.epush [dat]

def epop8 (msg : Message) : Er (UInt8 × Message) := do
  let (out, msg) ← msg.epop 1
  .ret (out.headD 0, msg)

/-- The bytes of `Endian_hostToBigEndian32`. -/
def bigEndian32 (dat : BitVec 32) : List UInt8 :=
  [UInt8.ofNat (dat.toNat / 2 ^ 24), UInt8.ofNat (dat.toNat / 2 ^ 16), UInt8.ofNat (dat.toNat / 2 ^ 8),
    UInt8.ofNat dat.toNat]

def epush32be (msg : Message) (dat : BitVec 32) : Er Message := msg.epush (bigEndian32 dat)

@[simp] theorem length_mk (pad bytes : List UInt8) : (Message.mk pad bytes).length = bytes.length := rfl

@[simp] theorem padding_mk (pad bytes : List UInt8) : (Message.mk pad bytes).padding = pad.length := rfl

theorem eshift_neg {msg : Message} {k} (h : k ≤ msg.length) :
    msg.eshift (-k) = .ret ⟨(msg.bytes.take k).reverse ++ msg.pad, msg.bytes.drop k⟩ := by
  have h0 : ¬ (-(k : Int) > 0 ∧ (msg.padding : Int) < -k) := by omega
  have h1 : ¬ (msg.length : Int) < - -(k : Int) := by omega
  simp only [eshift, h0, h1, if_false, Int.natAbs_neg, Int.natAbs_natCast]
  cases k with
  | zero => simp
  | succ k =>
    have h2 : ¬ 0 ≤ -((k + 1 : Nat) : Int) := by omega
    rw [if_neg h2]

theorem eshift_neg_underflow {msg : Message} {k} (h : msg.length < k) :
    msg.eshift (-k) = .abort "buffer underflow" := by
  have h0 : ¬ (-(k : Int) > 0 ∧ (msg.padding : Int) < -k) := by omega
  have h1 : (msg.length : Int) < - -(k : Int) := by omega
  simp only [eshift, h0, h1]
  rfl

theorem eshift_pos {msg : Message} {k} (h : k ≤ msg.padding) :
    msg.eshift k = .ret ⟨msg.pad.drop k, (msg.pad.take k).reverse ++ msg.bytes⟩ := by
  have h0 : ¬ ((k : Int) > 0 ∧ (msg.padding : Int) < k) := by omega
  have h1 : ¬ (msg.length : Int) < -(k : Int) := by omega
  have h2 : 0 ≤ (k : Int) := by omega
  simp only [eshift, h0, h1, h2, if_false, if_true, Int.natAbs_natCast]

theorem epop_eq {msg : Message} {size} (h : size ≤ msg.length) :
    msg.epop size =
      .ret (msg.bytes.take size, ⟨(msg.bytes.take size).reverse ++ msg.pad, msg.bytes.drop size⟩) := by
  have hl : ((msg.bytes.take size).reverse ++ msg.pad).take size = (msg.bytes.take size).reverse := by
    have hs : (msg.bytes.take size).length = size := List.length_take_of_le h
    rw [List.take_append_of_le_length (by simp [hs]), List.take_of_length_le (by simp [hs])]
  rw [epop, eshift_neg h]
  simp [hl]

theorem epop_underflow {msg : Message} {size} (h : msg.length < size) :
    msg.epop size = .abort "buffer underflow" := by
  rw [epop, eshift_neg_underflow h]
  rfl

@[simp] theorem epop8_nil (pad : List UInt8) : epop8 ⟨pad, []⟩ = .abort "buffer underflow" := by
  rfl

@[simp] theorem epop8_cons (pad bs : List UInt8) (c : UInt8) :
    epop8 ⟨pad, c :: bs⟩ = .ret (c, ⟨c :: pad, bs⟩) := by
  rfl

@[simp] theorem epush8_cons (pad bs : List UInt8) (c d : UInt8) :
    epush8 ⟨c :: pad, bs⟩ d = .ret ⟨pad, d :: bs⟩ := by
  rw [epush8, epush]
  rfl

end Message

end Hyperboria
