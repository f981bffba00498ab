/-
`dht/dhtcore/RumorMill.c`: the nodes we have heard of and not yet talked to. When the
mill is full the worst of them makes place, by the distance of its address from ours
and the length of its path.
-/
import Hyperboria.Bits
import Hyperboria.Dht.Address

namespace Hyperboria

/-- `struct RumorMill_pvt`; `addresses` are the `count` that are in use. -/
structure RumorMill where
  selfAddr : Address
  capacity : Nat
  addresses : List Address
deriving DecidableEq

namespace RumorMill

open Bits (log2x64)

/-- `ip6.longs.one_be`, in host order: the union has the two halves of the bytes in the other order. -/
def firstLong (ip6 : List UInt8) : BitVec 64 :=
  BitVec.ofNat 64 (((ip6.drop 8).take 8).foldl (fun n b => n * 256 + b.toNat) 0)

def getBadness (badAddr selfAddr : Address) : Nat :=
  log2x64 (firstLong badAddr.ip6 ^^^ firstLong selfAddr.ip6) + log2x64 badAddr.path

/-- The loop of `getWorst`, from index `i` on: the worst so far, if there is one, and how bad it is. -/
def worstFrom (selfAddr : Address) (i : Nat) (worst : Option Nat) (howBadIsTheWorst : Nat) :
    List Address → Option Nat
  | [] => worst
  | addr :: addresses =>
    let howBad := getBadness addr selfAddr
    if howBad > howBadIsTheWorst then worstFrom selfAddr (i + 1) (some i) howBad addresses
    else worstFrom selfAddr (i + 1) worst howBadIsTheWorst addresses

def getWorst (rm : RumorMill) : Er Nat :=
  match worstFrom rm.selfAddr 0 none 0 rm.addresses with
  | none => .abort "worst"
  | some i => .ret i

/-- `RumorMill__addNode`. -/
def addNode (C : Crypto) (rm : RumorMill) (addr : Address) : Er RumorMill := do
  let addr := addr.getPrefix C
  .assertTrue (addr.protocolVersion ≠ 0) "addr->protocolVersion"
  if rm.addresses.any fun a => a.path = addr.path ∧ a.key = addr.key then .ret rm
  else if addr.key = rm.selfAddr.key then .ret rm
  else if rm.addresses.length < rm.capacity then .ret { rm with addresses := rm.addresses ++ [addr] }
  else do
    let replace ← getWorst rm
    .ret { rm with addresses := rm.addresses.set replace addr }

/-- A mill in which every path leads away from us. -/
structure Sound (rm : RumorMill) : Prop where
  capacity : 0 < rm.capacity
  path : ∀ addr ∈ rm.addresses, 2 ≤ addr.path.toNat

theorem one_le_getBadness {addr selfAddr} (h : 2 ≤ addr.path.toNat) : 1 ≤ getBadness addr selfAddr := by
  have hlog : ¬ addr.path.toNat.log2 ≤ 0 := fun h0 => absurd (Bits.log2_le_iff.mp h0) (by omega)
  unfold getBadness log2x64
  omega

theorem worstFrom_isSome {selfAddr} {i k howBad} {addresses} :
    (worstFrom selfAddr i (some k) howBad addresses).isSome := by
  induction addresses generalizing i k howBad with
  | nil => rfl
  | cons addr addresses ih =>
    unfold worstFrom
    dsimp only
    split
    · exact ih
    · exact ih

theorem Sound.getWorst_returns {rm} (h : Sound rm) (hfull : rm.capacity ≤ rm.addresses.length) :
    rm.getWorst.Returns := by
  have hcapacity := h.capacity
  have hpath := h.path
  unfold getWorst
  cases haddr : rm.addresses with
  | nil =>
    rw [haddr, List.length_nil] at hfull
    omega
  | cons addr addresses =>
    rw [haddr] at hpath
    have hbad := @one_le_getBadness addr rm.selfAddr (hpath addr List.mem_cons_self)
    obtain ⟨k, hk⟩ := Option.isSome_iff_exists.mp
      (@worstFrom_isSome rm.selfAddr 1 0 (getBadness addr rm.selfAddr) addresses)
    rw [worstFrom, if_pos (by omega), hk]
    exact Er.returns_ret _

/-- The mill takes any node with a version and a path that leads away from us. -/
theorem Sound.addNode {C} {rm} (h : Sound rm) {addr}
    (hversion : addr.protocolVersion ≠ 0) (hpath : 2 ≤ addr.path.toNat) :
    ∃ rm', addNode C rm addr = .ret rm' ∧ Sound rm' := by
  have hfields : (addr.getPrefix C).protocolVersion = addr.protocolVersion ∧ (addr.getPrefix C).path = addr.path := by
    unfold Address.getPrefix
    split
    · exact ⟨rfl, rfl⟩
    · exact ⟨rfl, rfl⟩
  unfold RumorMill.addNode
  rw [Er.assertTrue_bind (decide_eq_true (by rw [hfields.1]; exact hversion))]
  split
  · exact ⟨rm, rfl, h⟩
  split
  · exact ⟨rm, rfl, h⟩
  split
  · refine ⟨_, rfl, h.capacity, fun a ha => ?_⟩
    rcases List.mem_append.mp ha with ha | ha
    · exact h.path a ha
    · rw [List.mem_singleton.mp ha, hfields.2]
      exact hpath
  next hfull =>
    obtain ⟨i, hi⟩ := h.getWorst_returns (by omega)
    rw [hi]
    refine ⟨_, rfl, h.capacity, fun a ha => ?_⟩
    rcases List.mem_or_eq_of_mem_set ha with ha | rfl
    · exact h.path a ha
    · rw [hfields.2]
      exact hpath

end RumorMill

end Hyperboria
