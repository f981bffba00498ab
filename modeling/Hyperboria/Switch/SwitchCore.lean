/-
`switch/SwitchCore.c`: one switch, and what it does with a message that comes in
on one of its interfaces (`receiveMessage`): forward it out of another interface
with the label shifted and the way back written into the freed bits, answer with
an error packet (`sendError`), or drop it.

`receiveMessage_forward_iff` says once when the switch forwards and what it then
sends; everything about paths is derived from it.
-/
import Hyperboria.Bits
import Hyperboria.Switch.NumberCompress

namespace Hyperboria.Switch

open NumberCompress BitVec

/-! ## Messages -/

/-- `struct SwitchHeader`, its fields in host order. -/
structure SwitchHeader where
  label : BitVec 64
  congestAndSuppressErrors : BitVec 8
  versionAndLabelShift : BitVec 8
  trafficClass : BitVec 16
deriving DecidableEq

def SwitchHeader_SIZE : Nat := 12

/-- A message at the switch: fewer bytes than a header, or a header and what follows it. -/
inductive Packet where
  | runt (length : Fin SwitchHeader_SIZE)
  | framed (header : SwitchHeader) (payload : List UInt8)
deriving DecidableEq

namespace SwitchHeader

def getLabelShift (h : SwitchHeader) : Nat := (h.versionAndLabelShift &&& 0x3f#8).toNat

/-- `SwitchHeader_setLabelShift`, for a shift below 64. -/
def setLabelShift (h : SwitchHeader) (shift : Nat) : SwitchHeader :=
  { h with versionAndLabelShift := (h.versionAndLabelShift >>> 6 <<< 6) ||| BitVec.ofNat 8 shift }

/-- `SwitchHeader_setVersion`, for a version below 4. -/
def setVersion (h : SwitchHeader) (version : Nat) : SwitchHeader :=
  { h with versionAndLabelShift :=
      (BitVec.ofNat 8 version <<< 6) ||| (h.versionAndLabelShift &&& 0x3f#8) }

def getSuppressErrors (h : SwitchHeader) : Bool := h.congestAndSuppressErrors.getLsbD 0

def setSuppressErrors (h : SwitchHeader) (suppress : Bool) : SwitchHeader :=
  { h with congestAndSuppressErrors :=
      (h.congestAndSuppressErrors >>> 1 <<< 1) ||| (BitVec.ofBool suppress).zeroExtend 8 }

/-- `SwitchHeader_setCongestion`, for a congestion of at most 127. -/
def setCongestion (h : SwitchHeader) (cong : Nat) : SwitchHeader :=
  let cong := if cong = 0 then cong + 1 else cong
  { h with congestAndSuppressErrors :=
      (h.congestAndSuppressErrors &&& 1#8) ||| (BitVec.ofNat 8 cong <<< 1) }

def setTrafficClass (h : SwitchHeader) (tc : BitVec 16) : SwitchHeader := { h with trafficClass := tc }

theorem getLabelShift_setLabelShift (h : SwitchHeader) {k} (hk : k < 64) :
    (h.setLabelShift k).getLabelShift = k := by
  -- the low six bits of the byte are the shift's, the kept ones are shifted clear of them
  have hm : (h.setLabelShift k).versionAndLabelShift &&& 0x3f#8 = BitVec.ofNat 8 k := by
    apply eq_of_getLsbD_eq
    intro i hi
    have hbig : 6 ≤ i → k.testBit i = false := fun h6 =>
      Nat.testBit_lt_two_pow (Nat.lt_of_lt_of_le hk (Nat.pow_le_pow_right (n := 2) (by omega) h6))
    have hmask : ∀ i < 8, (0x3f#8).getLsbD i = decide (i < 6) := by decide
    simp only [setLabelShift, getLsbD_and, getLsbD_or, getLsbD_shiftLeft,
      hmask i hi, getLsbD_ofNat]
    by_cases h6 : i < 6
    · simp [h6]
    · simp [h6, hbig (by omega)]
  rw [getLabelShift, hm, toNat_ofNat]
  omega

end SwitchHeader

/-! ## The switch -/

/-- `SwitchCore_setInterfaceState_ifaceState_*`. -/
inductive IfaceState where
  | down
  | up
deriving DecidableEq

/-- The part of `struct SwitchInterface` that forwarding reads: whether the slot is
taken (`alloc` not NULL) and its state. -/
structure SwitchInterface where
  added : Bool
  state : IfaceState
deriving DecidableEq

/-- `struct SwitchCore_pvt`: the interface slots, `INTERFACES` of them. -/
structure SwitchCore where
  interfaces : Nat → SwitchInterface

namespace SwitchCore

/-- `SwitchCore_new`: the router has slot 1. -/
def new : SwitchCore where
  interfaces ifIndex := if ifIndex = 1 then { added := true, state := .up } else { added := false, state := .down }

/-- The slots with another one at `ifIndex`. -/
def setInterface (ifIndex : Nat) (si : SwitchInterface) (core : SwitchCore) : SwitchCore :=
  { core with interfaces := Function.update core.interfaces ifIndex si }

def setInterfaceState (ifIndex : Nat) (state : IfaceState) (core : SwitchCore) : SwitchCore :=
  core.setInterface ifIndex { core.interfaces ifIndex with state }

/-- `SwitchCore_addInterface`: the first slot nobody has, the label that leads to it and the switch with
the slot taken; `none` is `SwitchCore_addInterface_OUT_OF_SPACE`. -/
def addInterface (core : SwitchCore) : Option (Nat × BitVec 64 × SwitchCore) :=
  match (List.range INTERFACES).find? fun ifIndex => !(core.interfaces ifIndex).added with
  | none => none
  | some ifIndex =>
    let bits := bitsUsedForNumber ifIndex
    some (ifIndex, getCompressed ifIndex bits ||| 1#64 <<< bits,
      core.setInterface ifIndex { added := true, state := .up })

/-- `removeInterface`, which freeing the owner of a slot runs. -/
def removeInterface (ifIndex : Nat) (core : SwitchCore) : SwitchCore :=
  core.setInterface ifIndex { added := false, state := .down }

theorem addInterface_isSome {core : SwitchCore} :
    core.addInterface.isSome ↔ ∃ ifIndex < INTERFACES, (core.interfaces ifIndex).added = false := by
  unfold addInterface
  cases hfind : (List.range INTERFACES).find? fun ifIndex => !(core.interfaces ifIndex).added with
  | none =>
    rw [List.find?_eq_none] at hfind
    constructor
    · intro h
      cases h
    · rintro ⟨i, hi, hfree⟩
      exact absurd (by simp [hfree]) (hfind i (List.mem_range.mpr hi))
  | some i =>
    have hmem := List.mem_range.mp (List.mem_of_find?_eq_some hfind)
    have hfree := List.find?_some hfind
    exact ⟨fun _ => ⟨i, hmem, by simpa using hfree⟩, fun _ => rfl⟩

end SwitchCore

/-- The codes of `wire/Error.h` the switch answers with. -/
inductive Error where
  | malformedAddress
  | undeliverable
  | returnPathInvalid
deriving DecidableEq

/-- `struct ErrorPacket8` with the start of the message that caused it behind it. -/
structure ErrorPacket where
  switchHeader : SwitchHeader
  handle : BitVec 32
  errorType : Error
  causeHeader : SwitchHeader
  causePayload : List UInt8
deriving DecidableEq

/-- What the switch does with a message. -/
inductive Outcome where
  /-- `return NULL` -/
  | drop
  /-- `Iface_next` to the interface `destIndex` -/
  | forward (destIndex : Nat) (message : Packet)
  /-- the error packet goes back out of the interface the message came from -/
  | error (packet : ErrorPacket)
  /-- a failed `Assert_true` -/
  | abort
deriving DecidableEq

def Control_Error_MAX_SIZE : Nat := 256

def sendError (header : SwitchHeader) (payload : List UInt8) (code : Error) : Outcome :=
  if SwitchHeader_SIZE + payload.length < SwitchHeader_SIZE + 4 then .drop
  -- don't send errors if they're asking us to suppress them!
  else if header.getSuppressErrors then .drop
  else
    let zeroed : SwitchHeader :=
      { label := 0#64, congestAndSuppressErrors := 0#8, versionAndLabelShift := 0#8, trafficClass := 0#16 }
    .error {
      switchHeader := ((({ zeroed with label := Bits.bitReverse64 header.label }
        ).setSuppressErrors true).setVersion 1).setTrafficClass 0xffff#16 |>.setCongestion 0
      handle := 0xffffffff#32
      errorType := code
      causeHeader := header
      causePayload := payload.take (Control_Error_MAX_SIZE - SwitchHeader_SIZE) }

/-- The mask `UINT64_MAX >> (64 - sourceBits - 4)` of the return path check. -/
def returnPathMask (sourceBits : Nat) : BitVec 64 := BitVec.allOnes 64 >>> (64 - sourceBits - 4)

/-- `receiveMessage` on the interface `sourceIndex`. -/
def receiveMessage (core : SwitchCore) (sourceIndex : Nat) : Packet → Outcome
  | .runt _ => .drop
  | .framed header payload =>
    let label := header.label
    let bits := bitsUsedForLabel label
    let destIndex := getDecompressed label bits
    let sourceBits := bitsUsedForNumber sourceIndex
    if ¬ destIndex < INTERFACES then .abort
    else if ¬ sourceIndex < INTERFACES then .abort
    -- routing interface: must always be compressed as 0001
    else if 1 = destIndex ∧ 1#64 ≠ label &&& 0xf#64 then sendError header payload .malformedAddress
    else
      -- the rest of the function, at the width it settles on
      let go (bits : Nat) : Outcome :=
        if (core.interfaces destIndex).added = false then sendError header payload .malformedAddress
        else if (core.interfaces destIndex).state = .down ∧ 1 ≠ sourceIndex then
          sendError header payload .undeliverable
        else
          let sourceLabel := Bits.bitReverse64 (getCompressed sourceIndex bits)
          let targetLabel := (label >>> bits) ||| sourceLabel
          let labelShift := header.getLabelShift + bits
          if labelShift > 63 then .drop
          else .forward destIndex (.framed
            ((({ header with label := targetLabel }).setLabelShift labelShift).setTrafficClass 0xffff#16)
            payload)
      if sourceBits > bits then
        if destIndex = 1 then
          if 0 ≠ (label ^^^ 1#64) &&& returnPathMask sourceBits then
            sendError header payload .returnPathInvalid
          else go sourceBits
        else if 1 = sourceIndex then
          if 0 ≠ label >>> (bits + 64 - sourceBits) then sendError header payload .malformedAddress
          else go bits
        else sendError header payload .malformedAddress
      else go bits

/-! ## When a message is forwarded -/

theorem sendError_ne_forward {h p c d m} : sendError h p c ≠ .forward d m := by
  unfold sendError
  split
  · simp
  · split <;> simp

/-- The switch takes a message from `sourceIndex` to `destIndex`, spending `bits` bits of the label. -/
structure Takes (core : SwitchCore) (sourceIndex destIndex bits : Nat) (label : BitVec 64) : Prop where
  source : sourceIndex < INTERFACES
  dest : getDecompressed label (bitsUsedForLabel label) = destIndex
  added : (core.interfaces destIndex).added = true
  up : (core.interfaces destIndex).state = .up ∨ sourceIndex = 1
  /-- The director is as wide as the source needs, or it is the router's own and there is
  room for the wider source behind it. -/
  width : (bitsUsedForNumber sourceIndex ≤ bitsUsedForLabel label ∧ bits = bitsUsedForLabel label) ∨
    (bitsUsedForLabel label < bitsUsedForNumber sourceIndex ∧ bits = bitsUsedForNumber sourceIndex ∧
      destIndex = 1 ∧ (label ^^^ 1#64) &&& returnPathMask (bitsUsedForNumber sourceIndex) = 0)

/-- The header a forwarded message leaves with. -/
def forwarded (header : SwitchHeader) (sourceIndex bits : Nat) : SwitchHeader :=
  ((({ header with label := (header.label >>> bits) ||| (getCompressed sourceIndex bits).reverse }
    ).setLabelShift (header.getLabelShift + bits)).setTrafficClass 0xffff#16)

theorem one_and_mask {l} (h : l.toNat % 16 = 1) : 1#64 = l &&& 0xf#64 := by
  have hm := toNat_and_mask l 0 4 (by omega)
  simp only [ushiftRight_zero, Nat.reducePow, Nat.div_one] at hm
  rw [← toNat_inj, hm, h]
  rfl

/-- The check that the router's director is `0001` never fails with this scheme. -/
theorem not_wrongDiscriminator (l : BitVec 64) :
    ¬ (1 = getDecompressed l (bitsUsedForLabel l) ∧ 1#64 ≠ l &&& 0xf#64) := by
  rintro ⟨h1, h2⟩
  exact h2 (one_and_mask (getDecompressed_eq_one h1.symm).2)

/-- The router's own director is never too narrow for another destination. -/
theorem not_narrow_from_router (l : BitVec 64) : ¬ bitsUsedForNumber 1 > bitsUsedForLabel l := by
  rw [bitsUsedForNumber_one]
  obtain h | h | h := bitsUsedForLabel_width l <;> omega

theorem receiveMessage_forward_iff {core} {s d} {header}
    {payload} {m} :
    receiveMessage core s (.framed header payload) = .forward d m ↔
      ∃ bits, Takes core s d bits header.label ∧ header.getLabelShift + bits ≤ 63 ∧
        m = .framed (forwarded header s bits) payload := by
  have hd := (getDecompressed_fits header.label).1
  by_cases hs : s < INTERFACES
  swap
  · simp only [receiveMessage, hd, hs]
    refine iff_of_false nofun ?_
    rintro ⟨_, ht, _⟩
    exact absurd ht.source hs
  simp only [receiveMessage, hd, hs, not_true, if_false, not_wrongDiscriminator, ne_eq,
    Bits.bitReverse64_eq]
  -- the tail of the function forwards to an interface that is there and up
  have tail : ∀ bits,
      (if (core.interfaces (getDecompressed header.label (bitsUsedForLabel header.label))).added = false then
          sendError header payload .malformedAddress
        else if (core.interfaces (getDecompressed header.label (bitsUsedForLabel header.label))).state = .down ∧
            ¬ 1 = s then sendError header payload .undeliverable
        else if header.getLabelShift + bits > 63 then Outcome.drop
        else .forward (getDecompressed header.label (bitsUsedForLabel header.label))
          (.framed (forwarded header s bits) payload)) = .forward d m ↔
      (getDecompressed header.label (bitsUsedForLabel header.label) = d ∧ (core.interfaces d).added = true ∧
        ((core.interfaces d).state = .up ∨ s = 1) ∧ header.getLabelShift + bits ≤ 63 ∧
        m = .framed (forwarded header s bits) payload) := by
    intro bits
    generalize hdest : getDecompressed header.label (bitsUsedForLabel header.label) = dest
    split
    · next ha =>
      refine iff_of_false sendError_ne_forward ?_
      rintro ⟨rfl, hb, -⟩
      simp [ha] at hb
    split
    · next ha hb =>
      refine iff_of_false sendError_ne_forward ?_
      rintro ⟨rfl, -, hu | hu, -⟩
      · simp [hu] at hb
      · exact absurd hu.symm hb.2
    split
    · next hc =>
      refine iff_of_false nofun ?_
      rintro ⟨-, -, -, hle, -⟩
      omega
    · next ha hb hc =>
      simp only [Outcome.forward.injEq]
      constructor
      · rintro ⟨rfl, rfl⟩
        refine ⟨rfl, by simpa using ha, ?_, by omega, rfl⟩
        by_cases h1 : s = 1
        · exact .inr h1
        · left
          cases hst : (core.interfaces dest).state with
          | up => rfl
          | down => exact absurd ⟨hst, fun h => h1 h.symm⟩ hb
      · rintro ⟨rfl, -, -, -, rfl⟩
        exact ⟨rfl, rfl⟩
  simp only [forwarded] at tail
  by_cases hw : bitsUsedForNumber s > bitsUsedForLabel header.label
  · simp only [hw]
    by_cases h1 : getDecompressed header.label (bitsUsedForLabel header.label) = 1
    · simp only [h1, if_true] at tail ⊢
      split
      · next hz =>
        refine iff_of_false sendError_ne_forward ?_
        rintro ⟨b, ht, -⟩
        rcases ht.width with ⟨hle, -⟩ | ⟨-, -, -, hz'⟩
        · omega
        · exact absurd hz'.symm hz
      · next hz =>
        rw [tail]
        constructor
        · rintro ⟨rfl, ha, hu, hle, rfl⟩
          exact ⟨_, ⟨hs, h1, ha, hu, .inr ⟨hw, rfl, rfl, by simpa using Eq.symm (not_not.mp hz)⟩⟩, hle, rfl⟩
        · rintro ⟨b, ht, hle, rfl⟩
          rcases ht.width with ⟨h', -⟩ | ⟨-, rfl, -, -⟩
          · omega
          · exact ⟨h1.symm.trans ht.dest, ht.added, ht.up, hle, rfl⟩
    · simp only [h1]
      have hs1 : ¬ 1 = s := by
        rintro rfl
        exact not_narrow_from_router _ hw
      simp only [hs1]
      refine iff_of_false sendError_ne_forward ?_
      rintro ⟨b, ht, -⟩
      rcases ht.width with ⟨hle, -⟩ | ⟨-, -, hd1, -⟩
      · omega
      · exact absurd (ht.dest.trans hd1) h1
  · simp only [hw, if_false]
    rw [tail]
    constructor
    · rintro ⟨rfl, ha, hu, hle, rfl⟩
      exact ⟨_, ⟨hs, rfl, ha, hu, .inl ⟨by omega, rfl⟩⟩, hle, rfl⟩
    · rintro ⟨b, ht, hle, rfl⟩
      rcases ht.width with ⟨-, rfl⟩ | ⟨h', -⟩
      · exact ⟨ht.dest, ht.added, ht.up, hle, rfl⟩
      · omega

/-- What comes to the router has the interface it came in by in its label, which is no code of all zeros. -/
theorem receiveMessage_router_label {core} {s} {packet} {header} {payload}
    (h : receiveMessage core s packet = .forward 1 (.framed header payload)) : header.label ≠ 0#64 := by
  cases packet with
  | runt length => simp [receiveMessage] at h
  | framed header₀ payload₀ =>
    obtain ⟨bits, htakes, -, hframed⟩ := receiveMessage_forward_iff.mp h
    obtain ⟨rfl, -⟩ := Packet.framed.inj hframed
    have hfour := (getDecompressed_eq_one htakes.dest).1
    have hwidth : Width bits ∧ (bits = 4 ∨ 8 ≤ s) := by
      rcases htakes.width with ⟨-, rfl⟩ | ⟨hwide, rfl, -⟩
      · exact ⟨bitsUsedForLabel_width _, .inl hfour⟩
      · rw [hfour] at hwide
        refine ⟨bitsUsedForNumber_width _, .inr ?_⟩
        by_contra hsmall
        rw [bitsUsedForNumber, if_pos (by omega)] at hwide
        omega
    intro hzero
    obtain ⟨-, hreverse⟩ := or_eq_zero_iff.mp hzero
    have hcode := getCompressed_toNat htakes.source hwidth.1
    rw [reverse_eq_zero_iff.mp hreverse, code] at hcode
    simp only [toNat_zero] at hcode
    split_ifs at hcode
    all_goals omega

end Hyperboria.Switch
