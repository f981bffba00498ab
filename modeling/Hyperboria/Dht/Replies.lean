/-
What a reply can do to the router. The nodes taken over from it are handed to the rumor
mill and to a search, which later sends them messages; both assert that a node has a
protocol version, and the router that its path is in canonical form.

`harmless_iff` says exactly which replies are safe: those that name no node with the
path 0 or the version 0 among the ones that are taken over.
-/
import Hyperboria.Crypto.Symbolic
import Hyperboria.Dht.ReplySerializer
import Hyperboria.Dht.RumorMill
import Hyperboria.Dht.SearchStore
import Hyperboria.Switch.Directors

namespace Hyperboria

open List

open Bits (log2x64)
open LabelSplicer (splice routesThrough splice_eq_join splice_lt join_mod)
open EncodingScheme (convertLabel v3x5x8 CANNONICAL INVALID formSize Scheme)

namespace RouterModule

/-- The part of `struct RouterModule` that counts messages. -/
structure State where
  pingsInFlight : Nat
deriving DecidableEq, Repr

/-- `RouterModule_newMessage`, without the pinger. -/
def newMessage (addr : Address) (router : State) : Er State := do
  let cannonical ← convertLabel v3x5x8 addr.path CANNONICAL
  .assertTrue (addr.path = cannonical) "addr->path == EncodingScheme_convertLabel(..)"
  .assertTrue (addr.protocolVersion ≠ 0) "addr->protocolVersion"
  .ret { router with pingsInFlight := router.pingsInFlight + 1 }

theorem newMessage_returns {addr} {router}
    (hpath : convertLabel v3x5x8 addr.path CANNONICAL = .ret addr.path) (hversion : addr.protocolVersion ≠ 0) :
    (newMessage addr router).Returns := by
  unfold newMessage
  rw [hpath]
  simp [hversion]

end RouterModule

namespace SearchRunner

open SearchStore (Search addNodeToSearch getNextNode Holds)

/-- What happens to a search: `searchReplyCallback` adds nodes to it, `searchStep` asks the next one. -/
inductive Op where
  | add (addr : Address)
  | ask

/-- A search, as long as there are nodes to ask. -/
def run : List Op → Search → RouterModule.State → Er (Search × RouterModule.State)
  | [], search, router => .ret (search, router)
  | .add addr :: ops, search, router => run ops (addNodeToSearch addr search).2 router
  | .ask :: ops, search, router =>
    match getNextNode search with
    | none => .ret (search, router)
    | some (addr, search) => do
      let router ← RouterModule.newMessage addr router
      run ops search router

/-- The router can send messages to the node. -/
def Askable (addr : Address) : Prop := ∀ router, (RouterModule.newMessage addr router).Returns

/-- A search that is only ever given nodes messages can be sent to never fails. -/
theorem run_returns {ops} {search} {router} (hsearch : Holds Askable search)
    (hops : ∀ addr, .add addr ∈ ops → Askable addr) : (run ops search router).Returns := by
  induction ops generalizing search router with
  | nil => exact Er.returns_ret _
  | cons op ops ih =>
    have hrest : ∀ addr, .add addr ∈ ops → Askable addr := fun addr h => hops addr (mem_cons_of_mem _ h)
    cases op with
    | add addr => exact ih (hsearch.addNodeToSearch (hops addr mem_cons_self)) hrest
    | ask =>
      unfold run
      split
      · exact Er.returns_ret _
      next addr search' hnext =>
        obtain ⟨haddr, hsearch'⟩ := hsearch.getNextNode hnext
        obtain ⟨router', hrouter⟩ := haddr router
        rw [hrouter]
        exact ih hsearch' hrest

end SearchRunner

namespace ReplySerializer

/-- A path of ours to another node: in canonical form, and with all of its first director. -/
structure ValidPath (path : BitVec 64) : Prop where
  cannonical : convertLabel v3x5x8 path CANNONICAL = .ret path
  complete : NumberCompress.bitsUsedForLabel path ≤ log2x64 path

theorem ValidPath.ne_zero {path} (h : ValidPath path) : path ≠ 0 := by
  rintro rfl
  exact absurd h.complete (by decide)

theorem ValidPath.two_le {path} (h : ValidPath path) : 2 ≤ path.toNat := by
  have hwidth := NumberCompress.bitsUsedForLabel_width path
  have hcomplete := h.complete
  have hlog : ¬ path.toNat.log2 ≤ 0 := by
    unfold log2x64 at hcomplete
    obtain hw | hw | hw := hwidth
    · omega
    · omega
    · omega
  rw [Bits.log2_le_iff] at hlog
  omega

/-- What is spliced to a canonical path is canonical: the first director is the same. -/
theorem ValidPath.splice_cannonical {go via} (hvia : ValidPath via) (hlen : log2x64 go + log2x64 via ≤ 59) :
    convertLabel v3x5x8 (splice go via) CANNONICAL = .ret (splice go via) := by
  have hne := hvia.ne_zero
  have hconvert := (@Scheme.convertLabel_eq .v358 via CANNONICAL).symm.trans hvia.cannonical
  have hvalid : via ≠ INVALID := by
    rintro rfl
    exact absurd (Nat.le_trans (Nat.le_add_left _ _) hlen) (by decide)
  obtain ⟨form, hform, hreads, -⟩ := Scheme.convert_cases (Er.ret.inj hconvert) hvalid
  -- the two labels agree on all of the first director
  have hsize : formSize form ≤ via.toNat.log2 := by
    have hcomplete := hvia.complete
    rw [NumberCompress.bitsUsedForLabel_eq] at hcomplete
    rcases mem_cons.mp hform with rfl | hform
    · rw [if_pos (show via.toNat % 2 = 1 from hreads)] at hcomplete
      exact hcomplete
    rcases mem_cons.mp hform with rfl | hform
    · have hreads : via.toNat % 4 = 2 := hreads
      rw [if_neg (by omega), if_pos (by omega)] at hcomplete
      exact hcomplete
    · cases mem_singleton.mp hform
      have hreads : via.toNat % 4 = 0 := hreads
      rw [if_neg (by omega), if_neg (by omega)] at hcomplete
      exact hcomplete
  have hdvd := Nat.pow_dvd_pow 2 hsize
  have hlow : (splice go via).toNat % 2 ^ formSize form = via.toNat % 2 ^ formSize form := by
    rw [splice_eq_join hne hlen, ← Nat.mod_mod_of_dvd _ hdvd, join_mod,
      Nat.mod_mod_of_dvd _ hdvd]
  refine (@Scheme.convertLabel_eq .v358 _ _).trans (congrArg Er.ret ?_)
  exact Scheme.convert_of_mod hform hreads hlow (Bits.log2_le_iff.mpr (splice_lt hne hlen)) (Er.ret.inj hconvert) hvalid

/-- A node of a reply that is taken over although it has no path or no version. -/
def Blank (C : Crypto) (fromNode e : Address) : Prop :=
  AddressCalc.validAddress (C.addressForPublicKey e.key) = true ∧ log2x64 e.path + log2x64 fromNode.path ≤ 59 ∧
    (e.path = 0 ∨ e.protocolVersion = 0)

/-- What a reply must not do: the nodes taken over from it are fit to be used, the mill takes them, and
a search that is given them can send its messages. -/
structure Harmless (C : Crypto) (fromNode : Address) (result : Benc.Dict) : Prop where
  address : ∀ addr ∈ parsed C fromNode result, AddressCalc.validAddress addr.ip6 = true ∧
    routesThrough addr.path fromNode.path = true ∧ addr.protocolVersion ≠ 0
  mill : ∀ (rm : RumorMill) (list : List Address), rm.Sound → (∀ addr ∈ list, addr ∈ parsed C fromNode result) →
    ∃ rm', list.foldlM (RumorMill.addNode C) rm = .ret rm' ∧ rm'.Sound
  search : ∀ (ops : List SearchRunner.Op) (search : SearchStore.Search) (router : RouterModule.State),
    SearchStore.Holds SearchRunner.Askable search →
    (∀ addr, .add addr ∈ ops → addr ∈ parsed C fromNode result ∨ SearchRunner.Askable addr) →
    (SearchRunner.run ops search router).Returns

theorem addNodes_returns {C} {rm} {list : List Address} (hrm : rm.Sound)
    (hlist : ∀ addr ∈ list, addr.protocolVersion ≠ 0 ∧ 2 ≤ addr.path.toNat) :
    ∃ rm', list.foldlM (RumorMill.addNode C) rm = .ret rm' ∧ rm'.Sound := by
  induction list generalizing rm with
  | nil => exact ⟨rm, rfl, hrm⟩
  | cons addr list ih =>
    obtain ⟨hversion, hpath⟩ := hlist addr mem_cons_self
    obtain ⟨rm₁, hadd, hrm₁⟩ := @RumorMill.Sound.addNode C rm hrm addr hversion hpath
    obtain ⟨rm₂, hfold, hrm₂⟩ := ih hrm₁ fun a ha => hlist a (mem_cons_of_mem _ ha)
    exact ⟨rm₂, by rw [foldlM_cons, hadd, Er.ret_bind, hfold], hrm₂⟩

theorem takenOver_fit {C} {fromNode e} (hfrom : ValidPath fromNode.path)
    (hroom : splice e.path fromNode.path ≠ BitVec.allOnes 64)
    (hvalid : AddressCalc.validAddress (C.addressForPublicKey e.key) = true) (hblank : ¬ Blank C fromNode e) :
    AddressCalc.validAddress (takenOver C fromNode e).ip6 = true ∧
      routesThrough (takenOver C fromNode e).path fromNode.path = true ∧
      (takenOver C fromNode e).protocolVersion ≠ 0 ∧ 2 ≤ (takenOver C fromNode e).path.toNat ∧
      SearchRunner.Askable (takenOver C fromNode e) := by
  have hne := hfrom.ne_zero
  have hlen : log2x64 e.path + log2x64 fromNode.path ≤ 59 :=
    Nat.le_of_not_lt fun h => hroom ((LabelSplicer.splice_eq_allOnes_iff hne).mpr h)
  have hpath : e.path ≠ 0 := fun h => hblank ⟨hvalid, hlen, .inl h⟩
  have hversion : e.protocolVersion ≠ 0 := fun h => hblank ⟨hvalid, hlen, .inr h⟩
  refine ⟨hvalid, (LabelSplicer.routesThrough_splice_iff hne hlen).mpr hpath, hversion, ?_, fun router => ?_⟩
  · have hone : 0 < e.path.toNat := Nat.pos_of_ne_zero fun h => hpath (BitVec.eq_of_toNat_eq h)
    have hle := Nat.le_mul_of_pos_right (2 ^ log2x64 fromNode.path) hone
    have heq := LabelSplicer.toNat_eq hne
    have htwo := hfrom.two_le
    show 2 ≤ (splice e.path fromNode.path).toNat
    rw [LabelSplicer.splice_toNat hne hlen]
    omega
  · exact RouterModule.newMessage_returns (hfrom.splice_cannonical hlen) hversion

/-- A reply of a node we have a path to is harmless if and only if it names no blank node. -/
theorem harmless_iff (C : Crypto) (fromNode : Address) (result : Benc.Dict) (hfrom : ValidPath fromNode.path) :
    Harmless C fromNode result ↔ ∀ e ∈ (entries result).getD [], ¬ Blank C fromNode e := by
  constructor
  · intro hharmless e he hblank
    obtain ⟨hvalid, hlen, hzero⟩ := hblank
    have hne := hfrom.ne_zero
    have hroom : splice e.path fromNode.path ≠ BitVec.allOnes 64 := fun h =>
      absurd ((LabelSplicer.splice_eq_allOnes_iff hne).mp h) (by omega)
    obtain ⟨-, hroutes, hversion⟩ := hharmless.address _ (mem_parsed_iff.mpr ⟨e, he, hroom, hvalid, rfl⟩)
    cases hzero with
    | inl hpath => exact (LabelSplicer.routesThrough_splice_iff hne hlen).mp hroutes hpath
    | inr hversion' => exact hversion hversion'
  · intro hblank
    have hfit : ∀ addr ∈ parsed C fromNode result, AddressCalc.validAddress addr.ip6 = true ∧
        routesThrough addr.path fromNode.path = true ∧ addr.protocolVersion ≠ 0 ∧ 2 ≤ addr.path.toNat ∧
        SearchRunner.Askable addr := by
      intro addr haddr
      obtain ⟨e, he, hroom, hvalid, rfl⟩ := mem_parsed_iff.mp haddr
      exact takenOver_fit hfrom hroom hvalid (hblank e he)
    constructor
    · intro addr haddr
      obtain ⟨hvalid, hroutes, hversion, -⟩ := hfit addr haddr
      exact ⟨hvalid, hroutes, hversion⟩
    · intro rm list hrm hlist
      refine addNodes_returns hrm fun addr haddr => ?_
      obtain ⟨-, -, hversion, hpath, -⟩ := hfit addr (hlist addr haddr)
      exact ⟨hversion, hpath⟩
    · intro ops search router hsearch hops
      refine SearchRunner.run_returns hsearch fun addr haddr => ?_
      exact (hops addr haddr).elim (fun h => (hfit addr h).2.2.2.2) id

/-- A neighbour of ours, at the end of the path `0011` and the mark behind it. -/
def neighbour : Address := { Address.zero with path := 0x13#64, protocolVersion := 21 }

/-- A reply that names one node, with this path and this version. -/
def naming (path version : UInt8) : Benc.Dict :=
  [([110], .string ((Symbolic.key 1).1 ++ [0, 0, 0, 0, 0, 0, 0, path])), ([110, 112], .string [1, version])]

theorem neighbour_valid : ValidPath neighbour.path := ⟨by decide +kernel, by decide +kernel⟩

theorem harmless_naming : Harmless Symbolic.crypto neighbour (naming 0x15 21) :=
  (harmless_iff Symbolic.crypto neighbour (naming 0x15 21) neighbour_valid).mpr (by
    intro e he hblank
    rw [show (entries (naming 0x15 21)).getD [] =
      [{ Address.zero with key := Symbolic.key 1, path := 0x15#64, protocolVersion := 21 }] by decide +kernel] at he
    cases mem_singleton.mp he
    exact hblank.2.2.elim (by decide) (by decide))

theorem blank_taken_over :
    ValidPath neighbour.path ∧
    (∃ addr, parse Symbolic.crypto neighbour (naming 0x15 0) true = some [addr] ∧ addr.protocolVersion = 0 ∧
      RumorMill.addNode Symbolic.crypto { selfAddr := .zero, capacity := 64, addresses := [] } addr =
        .abort "addr->protocolVersion" ∧
      RouterModule.newMessage addr { pingsInFlight := 0 } = .abort "addr->protocolVersion") ∧
    (∃ addr, parse Symbolic.crypto neighbour (naming 0 21) true = some [addr] ∧
      routesThrough addr.path neighbour.path = false) := by
  refine ⟨neighbour_valid, ⟨_, rfl, rfl, rfl, ?_⟩, _, rfl, ?_⟩
  · decide +kernel
  · decide +kernel

end ReplySerializer

end Hyperboria
