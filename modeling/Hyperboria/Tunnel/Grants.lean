/-
What a client of the tunnel was granted. Its connection is made with the addresses it may use, and
its packets go to the TUN device only from these. But an offer of addresses is taken for the
connection whose number it gives, if that one is of the same node: a node that we are connected to
and that we allowed to connect can offer itself the addresses of its client.

`grants_kept`: if no offer is for an incoming connection, what was granted stays as it was.
-/
import Hyperboria.Tunnel.ConnectionTable

namespace Hyperboria.IpTunnel

open Er List BitVec Nat

/-! ## Runs -/

/-- What happens to the tunnel. -/
inductive Event where
  | allow (publicKey : Key) (allowance : Allowance)
  | connect (publicKey : Key)
  | remove (number : Int)
  | arrive (publicKey : Key) (message : Message) (behind : List UInt8)

/-- A call of `IpTunnel_allowConnection` and the number it returned. -/
structure Grant where
  number : Int
  publicKey : Key
  allowance : Allowance
deriving DecidableEq

/-- The connection that was granted. -/
def Grant.connection (g : Grant) : Connection :=
  { Connection.zero with number := g.number, publicKey := g.publicKey }.allow g.allowance

/-- One event, and what it grants. -/
def step (context : IpTunnel) : Event → Er (IpTunnel × List Grant)
  | .allow publicKey allowance => do
    let (number, context) ← allowConnection publicKey allowance context
    .ret (context, [{ number, publicKey, allowance }])
  | .connect publicKey => do
    let (_, context, _) ← connectTo publicKey context
    .ret (context, [])
  | .remove number => .ret ((removeConnection number context).2, [])
  | .arrive publicKey message behind => do
    let (context, _) ← incomingFromNode publicKey message behind context
    .ret (context, [])

/-- Events one after the other, and all that was granted. -/
def run (context : IpTunnel) : List Event → Er (IpTunnel × List Grant)
  | [] => .ret (context, [])
  | event :: events => do
    let (context, granted) ← step context event
    let (context, more) ← run context events
    .ret (context, granted ++ more)

/-- The message is an offer of addresses: a control message that says so and has at least one. -/
structure Offers (message : Message) (behind : List UInt8) (d addresses : Benc.Dict) : Prop where
  control : 40 < message.length ∧ getIpVersion message = 6 ∧ (addresses6 message).all (· = 0)
  read : readControl message behind = .ret (some d)
  offered : d.getDict ADDRESSES = some addresses
  present : (addresses.getString IP4).any (·.length = 4) ∨ (addresses.getString IP6).any (·.length = 16)

/-- An event that does no harm: if the first connection of a node is outgoing, no offer of the node is for an
incoming connection of it. -/
def Fine (context : IpTunnel) : Event → Prop
  | .arrive publicKey message behind => ∀ d addresses number, Offers message behind d addresses →
    txidNumber d = some number →
    (∃ conn c, connectionByPubKey publicKey context = some conn ∧ context.connections[conn]? = some c ∧
      c.isOutgoing = true) →
    ∀ c ∈ context.connections, c.publicKey = publicKey → c.isOutgoing = false → c.number ≠ number
  | .allow .. | .connect _ | .remove _ => True

/-- Events that do no harm when they come. -/
def FineRun (context : IpTunnel) : List Event → Prop
  | [] => True
  | event :: events =>
    Fine context event ∧ ∀ context' granted, step context event = .ret (context', granted) → FineRun context' events

/-- Two addresses of some width have the first bits in common, at least one. -/
def SameBlock (width : Nat) (a b : List UInt8) (length : UInt8) : Prop :=
  length ≠ 0 ∧ length.toNat ≤ width ∧ address a / 2 ^ (width - length.toNat) = address b / 2 ^ (width - length.toNat)

/-- The source of the packet is in a block that was granted. -/
def Grant.Covers (g : Grant) (message : Message) : Prop :=
  (∃ ip6, g.allowance.ip6 = some ip6 ∧ SameBlock 128 ((addresses6 message).take 16) ip6.1 g.allowance.ip6Alloc) ∨
  ∃ ip4, g.allowance.ip4 = some ip4 ∧ SameBlock 32 ((addresses4 message).take 4) ip4.1 g.allowance.ip4Alloc

/-- Clients have what they were granted: every incoming connection is as it was allowed, once and for all,
and what its node gets into the TUN device comes from its addresses. -/
structure Granted (context : IpTunnel) (grants : List Grant) : Prop where
  kept : ∀ c ∈ context.connections, c.isOutgoing = false → ∃ g ∈ grants, c = g.connection
  distinct : (grants.map Grant.number).Nodup
  injected : ∀ publicKey message behind context' outputs packet conn c,
    incomingFromNode publicKey message behind context = .ret (context', outputs) → .toTun packet ∈ outputs →
    connectionByPubKey publicKey context = some conn → context.connections[conn]? = some c →
    c.isOutgoing = false → ∃ g ∈ grants, g.publicKey = publicKey ∧ g.Covers message

/-! ## Blocks of addresses -/

theorem address_append (a b : List UInt8) : address (a ++ b) = address a * 2 ^ (8 * b.length) + address b := by
  have hfold : ∀ n, b.foldl (fun n b => n * 256 + b.toNat) n = n * 2 ^ (8 * b.length) + address b := by
    unfold address
    induction b with
    | nil => intro n; simp
    | cons x b ih =>
      intro n
      rw [foldl_cons, foldl_cons, ih, ih (0 * 256 + x.toNat), length_cons]
      ring
  unfold address at hfold ⊢
  rw [foldl_append, hfold]

theorem address_lt (a : List UInt8) : address a < 2 ^ (8 * a.length) := by
  induction a using List.reverseRecOn with
  | nil => exact one_pos
  | append_singleton a b ih =>
    have hb := b.toNat_lt
    have hone : address [b] = b.toNat := by simp [address]
    rw [address_append, length_append, length_singleton, Nat.mul_add, Nat.pow_add]
    omega

theorem shift_xor_eq_zero {w k} {a b : BitVec w} (h : (a ^^^ b) >>> k = 0) :
    a.toNat / 2 ^ k = b.toNat / 2 ^ k := by
  rw [ushiftRight_xor_distrib] at h
  have heq : a >>> k = b >>> k := BitVec.xor_eq_zero_iff.mp h
  have hnat := congrArg BitVec.toNat heq
  rw [toNat_ushiftRight, toNat_ushiftRight, shiftRight_eq_div_pow, shiftRight_eq_div_pow] at hnat
  exact hnat

theorem prefixMatches4_true {a b} {prefixLen} (ha : a.length = 4) (hb : b.length = 4)
    (h : prefixMatches4 a b prefixLen = .ret true) : SameBlock 32 a b prefixLen := by
  unfold prefixMatches4 at h
  split at h
  · obtain ⟨-, -, h⟩ := bind_inv h
    cases h
  next hzero =>
    obtain ⟨_, hle, h⟩ := bind_inv h
    have hle := of_decide_eq_true (assertTrue_eq_ret.mp hle)
    have hshift := shift_xor_eq_zero (of_decide_eq_true (ret.inj h))
    have ha' := address_lt a
    have hb' := address_lt b
    rw [ha] at ha'
    rw [hb] at hb'
    rw [take_of_length_le (le_of_eq ha), take_of_length_le (le_of_eq hb), toNat_ofNat,
      toNat_ofNat, mod_eq_of_lt ha', mod_eq_of_lt hb'] at hshift
    exact ⟨hzero, UInt8.le_iff_toNat_le.mp hle, hshift⟩

theorem prefixMatches6_true {a b} {prefixLen} (ha : a.length = 16) (hb : b.length = 16)
    (h : prefixMatches6 a b prefixLen = .ret true) : SameBlock 128 a b prefixLen := by
  unfold prefixMatches6 at h
  split at h
  · obtain ⟨-, -, h⟩ := bind_inv h
    cases h
  next hzero =>
    obtain ⟨_, hle, h⟩ := bind_inv h
    have hle : prefixLen.toNat ≤ 128 := UInt8.le_iff_toNat_le.mp (of_decide_eq_true (assertTrue_eq_ret.mp hle))
    -- an address is its two halves
    have hhalves : ∀ {l}, l.length = 16 → address l = address (l.drop 8) + address (l.take 8) * 2 ^ 64 ∧
        address (l.take 8) < 2 ^ 64 ∧ address (l.drop 8) < 2 ^ 64 ∧ (l.drop 8).take 8 = l.drop 8 := by
      intro l hl
      have htake : (l.take 8).length = 8 := by rw [length_take]; omega
      have hdrop : (l.drop 8).length = 8 := by rw [length_drop]; omega
      have hlow := address_lt (l.drop 8)
      have hhigh := address_lt (l.take 8)
      rw [hdrop] at hlow
      rw [htake] at hhigh
      refine ⟨?_, hhigh, hlow, take_of_length_le (le_of_eq hdrop)⟩
      conv_lhs => rw [← take_append_drop 8 l, address_append, hdrop, add_comm]
    obtain ⟨hae, ha0, ha1, hatake⟩ := hhalves ha
    obtain ⟨hbe, hb0, hb1, hbtake⟩ := hhalves hb
    refine ⟨hzero, hle, ?_⟩
    rw [hae, hbe]
    split at h
    next hshort =>
      have hshort : prefixLen.toNat ≤ 64 := UInt8.le_iff_toNat_le.mp hshort
      have hshift := shift_xor_eq_zero (of_decide_eq_true (ret.inj h))
      rw [toNat_ofNat, toNat_ofNat, mod_eq_of_lt ha0, mod_eq_of_lt hb0] at hshift
      have hpow : 2 ^ (128 - prefixLen.toNat) = 2 ^ 64 * 2 ^ (64 - prefixLen.toNat) := by
        rw [← pow_add]
        congr 1
        omega
      rw [hpow, ← Nat.div_div_eq_div_mul, ← Nat.div_div_eq_div_mul, Nat.add_mul_div_right _ _ (by decide),
        add_mul_div_right _ _ (by decide), div_eq_of_lt ha1, div_eq_of_lt hb1, zero_add, zero_add,
        hshift]
    next hlong =>
      have hlong : 64 < prefixLen.toNat := UInt8.lt_iff_toNat_lt.mp (UInt8.not_le.mp hlong)
      obtain ⟨hhigh, hlow⟩ := or_eq_zero_iff.mp (of_decide_eq_true (ret.inj h))
      have hhigh := congrArg BitVec.toNat (BitVec.xor_eq_zero_iff.mp hhigh)
      have hlow := shift_xor_eq_zero hlow
      rw [toNat_ofNat, toNat_ofNat, mod_eq_of_lt ha0, mod_eq_of_lt hb0] at hhigh
      rw [hatake, hbtake, toNat_ofNat, toNat_ofNat, mod_eq_of_lt ha1, mod_eq_of_lt hb1] at hlow
      have hpow : 2 ^ 64 = 2 ^ (prefixLen.toNat - 64) * 2 ^ (128 - prefixLen.toNat) := by
        rw [← pow_add]
        congr 1
        omega
      rw [hhigh, hpow, ← Nat.mul_assoc, Nat.add_mul_div_right _ _ (Nat.two_pow_pos _),
        Nat.add_mul_div_right _ _ (Nat.two_pow_pos _), hlow]

/-! ## Offers -/

theorem accept_isOutgoing {conn : Connection} {addresses} :
    (conn.accept addresses).isOutgoing = conn.isOutgoing := by
  unfold Connection.accept
  repeat' split
  all_goals rfl

/-- The connection an offer is taken for: the one it came by, or the one of its node with its number. -/
theorem selectByNumber_some {number} {pubKey} {i conn k} {connections}
    (h : selectByNumber number pubKey i conn connections = some k) :
    k = conn ∨ ∃ (j : Nat) (c : Connection), k = i + j ∧ connections[j]? = some c ∧ c.number = number ∧
      c.publicKey = pubKey := by
  induction connections generalizing i conn with
  | nil => exact .inl (Option.some.inj h).symm
  | cons c connections ih =>
    -- a later one, seen from the next index
    have hlater : ∀ {conn'}, selectByNumber number pubKey (i + 1) conn' connections = some k →
        k = conn' ∨ ∃ (j : Nat) (d : Connection), k = i + j ∧ (c :: connections)[j]? = some d ∧ d.number = number ∧
          d.publicKey = pubKey := by
      intro conn' h'
      cases ih h' with
      | inl heq => exact .inl heq
      | inr hfound =>
        obtain ⟨j, d, hk, hd, hnumber, hkey⟩ := hfound
        exact .inr ⟨j + 1, d, by omega, hd, hnumber, hkey⟩
    unfold selectByNumber at h
    split at h
    next hnumber =>
      split at h
      · cases h
      next hkey =>
        cases hlater h with
        | inl heq => exact .inr ⟨0, c, heq, rfl, hnumber, (not_not.mp hkey).symm⟩
        | inr hfound => exact .inr hfound
    · exact hlater h

variable {context context' : IpTunnel} {conn : Nat} {c : Connection}

/-- An offer changes nothing, or one connection that is outgoing or has the number of the offer. -/
theorem incomingAddresses_cases {d addresses} (hconn : context.connections[conn]? = some c) :
    incomingAddresses d addresses conn context = context ∨
      ∃ (i : Nat) (s : Connection), context.connections[i]? = some s ∧
        incomingAddresses d addresses conn context =
          { context with connections := context.connections.set i (s.accept addresses) } ∧
        c.isOutgoing = true ∧ (s.isOutgoing = true ∨ s.publicKey = c.publicKey ∧ txidNumber d = some s.number) := by
  have hget : context.connections.getD conn .zero = c := by rw [getD_eq_getElem?_getD, hconn, Option.getD_some]
  unfold incomingAddresses
  dsimp only
  rw [hget]
  split
  · exact .inl rfl
  next hout =>
    have hout : c.isOutgoing = true := by simpa using hout
    split
    · exact .inl rfl
    next number htxid =>
      split
      · exact .inl rfl
      split
      · exact .inl rfl
      next i hselected =>
        refine .inr ?_
        split at hselected
        · cases selectByNumber_some hselected with
          | inl heq =>
            subst heq
            exact ⟨i, c, hconn, by rw [hget], hout, .inl hout⟩
          | inr hfound =>
            obtain ⟨j, s, rfl, hs, hnumber, hkey⟩ := hfound
            rw [zero_add]
            refine ⟨j, s, hs, ?_, hout, .inr ⟨hkey, by rw [hnumber]; exact htxid⟩⟩
            rw [getD_eq_getElem?_getD, hs, Option.getD_some]
        · cases hselected
          exact ⟨conn, c, hconn, by rw [hget], hout, .inl hout⟩

/-! ## Messages from nodes -/

variable {publicKey : Key}

theorem connectionByPubKey_some (h : connectionByPubKey publicKey context = some conn) :
    ∃ c, context.connections[conn]? = some c ∧ c.publicKey = publicKey := by
  obtain ⟨hlt, hkey, -⟩ := findIdx?_eq_some_iff_getElem.mp h
  exact ⟨_, List.getElem?_eq_getElem hlt, (of_decide_eq_true hkey).symm⟩

variable {message : Message} {behind : List UInt8} {outputs : List Output}

theorem not_toTun_requestForAddresses {request} {conn} {packet} :
    .toTun packet ∉ requestForAddresses request conn := by
  unfold requestForAddresses
  split
  · exact not_mem_nil
  split
  · exact not_mem_nil
  · intro hin
    cases mem_singleton.mp hin

/-- Without an address nothing is taken over. -/
theorem accept_of_none {addresses} (hip4 : ¬ (addresses.getString IP4).any (·.length = 4))
    (hip6 : ¬ (addresses.getString IP6).any (·.length = 16)) : c.accept addresses = c := by
  unfold Connection.accept
  cases h4 : addresses.getString IP4 with
  | _ =>
    cases h6 : addresses.getString IP6 with
    | _ => simp_all

/-- A control message is an offer, or changes nothing. -/
theorem incomingControlMessage_cases (h : incomingControlMessage message behind conn context = .ret (context', outputs)) :
    (∀ packet, .toTun packet ∉ outputs) ∧ (context' = context ∨ ∃ d addresses,
      readControl message behind = .ret (some d) ∧ d.getDict ADDRESSES = some addresses ∧
        context' = incomingAddresses d addresses conn context) := by
  obtain ⟨d, hd, h⟩ := bind_inv h
  split at h
  · cases h
    exact ⟨fun _ => not_mem_nil, .inl rfl⟩
  split at h
  next haddresses =>
    cases h
    exact ⟨fun _ => not_mem_nil, .inr ⟨_, _, hd, haddresses, rfl⟩⟩
  split at h
  · cases h
    exact ⟨fun _ => not_toTun_requestForAddresses, .inl rfl⟩
  · cases h
    exact ⟨fun _ => not_mem_nil, .inl rfl⟩

/-- A message from a node is a control message, or one with an address that is valid for the first connection of
the node, or nothing happens. -/
theorem incomingFromNode_cases (h : incomingFromNode publicKey message behind context = .ret (context', outputs)) :
    context' = context ∧ outputs = [] ∨ ∃ conn, connectionByPubKey publicKey context = some conn ∧
      ((40 < message.length ∧ getIpVersion message = 6 ∧ (addresses6 message).all (· = 0)) ∧
        incomingControlMessage message behind conn context = .ret (context', outputs) ∨ context' = context ∧
        (40 < message.length ∧ isValidAddress6 (addresses6 message) (context.connections.getD conn .zero) = .ret true ∨
          20 < message.length ∧ isValidAddress4 (addresses4 message) (context.connections.getD conn .zero) = .ret true)) := by
  -- a packet is sent only when its address is valid
  have hsent : ∀ {x} {ethertype},
      (x >>= fun valid => if (!valid) = true then Er.ret (context, [])
        else sendToTun ethertype message >>= fun outputs => .ret (context, outputs)) = .ret (context', outputs) →
      context' = context ∧ (outputs = [] ∨ x = .ret true) := by
    intro x ethertype h
    obtain ⟨valid, hx, h⟩ := bind_inv h
    cases valid with
    | true =>
      obtain ⟨_, -, h⟩ := bind_inv h
      cases h
      exact ⟨rfl, .inr hx⟩
    | false =>
      cases h
      exact ⟨rfl, .inl rfl⟩
  unfold incomingFromNode at h
  split at h
  · cases h
    exact .inl ⟨rfl, rfl⟩
  next conn hconn =>
    split at h
    next hlen =>
      unfold ip6FromNode at h
      dsimp only at h
      split at h
      · split at h
        next hzero => exact .inr ⟨conn, hconn, .inl ⟨⟨hlen.1, hlen.2, hzero⟩, h⟩⟩
        · cases h
          exact .inl ⟨rfl, rfl⟩
      · obtain ⟨rfl, rfl | hvalid⟩ := hsent h
        · exact .inl ⟨rfl, rfl⟩
        · exact .inr ⟨conn, hconn, .inr ⟨rfl, .inl ⟨hlen.1, hvalid⟩⟩⟩
    split at h
    next hlen =>
      unfold ip4FromNode at h
      dsimp only at h
      split at h
      · cases h
        exact .inl ⟨rfl, rfl⟩
      · obtain ⟨rfl, rfl | hvalid⟩ := hsent h
        · exact .inl ⟨rfl, rfl⟩
        · exact .inr ⟨conn, hconn, .inr ⟨rfl, .inr ⟨hlen.1, hvalid⟩⟩⟩
    · cases h
      exact .inl ⟨rfl, rfl⟩

/-- A message leaves the incoming connections alone, unless it is an offer for one of them. -/
theorem incomingFromNode_incoming (hfine : Fine context (.arrive publicKey message behind))
    (h : incomingFromNode publicKey message behind context = .ret (context', outputs)) :
    context'.nextConnectionNumber = context.nextConnectionNumber ∧
      ∀ c ∈ context'.connections, c.isOutgoing = false → c ∈ context.connections := by
  rcases incomingFromNode_cases h with ⟨rfl, -⟩ | ⟨conn, hconn, ⟨hkind, hcontrol⟩ | ⟨rfl, -⟩⟩
  · exact ⟨rfl, fun c hc _ => hc⟩
  · rcases (incomingControlMessage_cases hcontrol).2 with rfl | ⟨d, addresses, hd, haddresses, rfl⟩
    · exact ⟨rfl, fun c hc _ => hc⟩
    obtain ⟨first, hfirst, hkey⟩ := connectionByPubKey_some hconn
    rcases @incomingAddresses_cases _ _ _ d addresses hfirst with hsame | ⟨i, s, hs, heq, hout, hwhich⟩
    · rw [hsame]
      exact ⟨rfl, fun c hc _ => hc⟩
    rw [heq]
    refine ⟨rfl, fun c hc hin => ?_⟩
    rcases mem_or_eq_of_mem_set hc with hold | rfl
    · exact hold
    rw [accept_isOutgoing] at hin
    obtain ⟨hskey, htxid⟩ := hwhich.resolve_left (by simp [hin])
    -- the connection is as it was if nothing was offered
    by_contra hchanged
    refine hfine d addresses s.number ⟨hkind, hd, haddresses, ?_⟩ htxid ⟨conn, first, hconn, hfirst, hout⟩ s
      (mem_of_getElem? hs) (hskey.trans hkey) hin rfl
    by_contra hnone
    refine hchanged ?_
    rw [accept_of_none (fun h => hnone (.inl h)) fun h => hnone (.inr h)]
    exact mem_of_getElem? hs
  · exact ⟨rfl, fun c hc _ => hc⟩

/-- A message of a node with an incoming connection gets to the TUN device only from an address that is valid
for the connection. -/
theorem incomingFromNode_toTun {packet}
    (h : incomingFromNode publicKey message behind context = .ret (context', outputs))
    (hpacket : .toTun packet ∈ outputs) (hconn : connectionByPubKey publicKey context = some conn)
    (hc : context.connections[conn]? = some c) :
    (40 < message.length ∧ isValidAddress6 (addresses6 message) c = .ret true) ∨
      (20 < message.length ∧ isValidAddress4 (addresses4 message) c = .ret true) := by
  rcases incomingFromNode_cases h with ⟨-, rfl⟩ | ⟨conn', hconn', hcases⟩
  · cases hpacket
  cases hconn.symm.trans hconn'
  rw [getD_eq_getElem?_getD, hc] at hcases
  rcases hcases with ⟨-, hcontrol⟩ | ⟨-, hvalid⟩
  · exact absurd hpacket ((incomingControlMessage_cases hcontrol).1 packet)
  · exact hvalid

/-! ## What was granted stays -/

/-- The tunnel and what was granted agree. -/
structure Sound (context : IpTunnel) (grants : List Grant) : Prop where
  kept : ∀ c ∈ context.connections, c.isOutgoing = false → ∃ g ∈ grants, c = g.connection
  distinct : (grants.map Grant.number).Nodup
  below : ∀ g ∈ grants, ∃ n < context.nextConnectionNumber, g.number = number31 n
  limit : context.nextConnectionNumber < 2 ^ 31

variable {grants : List Grant}

theorem Sound.mono (h : Sound context grants)
    (hkept : ∀ c ∈ context'.connections, c.isOutgoing = false → c ∈ context.connections)
    (hnext : context.nextConnectionNumber ≤ context'.nextConnectionNumber)
    (hlimit : context'.nextConnectionNumber < 2 ^ 31) : Sound context' grants := by
  refine ⟨fun c hc hin => h.kept c (hkept c hc hin) hin, h.distinct, fun g hg => ?_, hlimit⟩
  obtain ⟨n, hn, hnumber⟩ := h.below g hg
  exact ⟨n, by omega, hnumber⟩

theorem Sound.allow (h : Sound context grants) {allowance} {number}
    (hallow : allowConnection publicKey allowance context = .ret (number, context')) :
    Sound context' (grants ++ [⟨number, publicKey, allowance⟩]) := by
  obtain ⟨fill, hnew, hnumber⟩ := allowConnection_new hallow
  obtain ⟨-, hnext, hlimit⟩ := newConnection_number hnew
  have hmono : Sound { context' with connections := context.connections } grants :=
    h.mono (fun c hc _ => hc) (by dsimp only; omega) (by dsimp only; omega)
  refine ⟨fun c hc hin => ?_, ?_, fun g hg => ?_, by omega⟩
  · cases mem_cons.mp ((newConnection_perm hnew).mem_iff.mp hc) with
    | inl heq => exact ⟨_, mem_append_right _ mem_cons_self, heq⟩
    | inr hold =>
      obtain ⟨g, hg, heq⟩ := h.kept c hold hin
      exact ⟨g, mem_append_left _ hg, heq⟩
  · rw [map_append, nodup_append]
    refine ⟨h.distinct, nodup_singleton _, fun a ha b hb => ?_⟩
    obtain ⟨g, hg, rfl⟩ := mem_map.mp ha
    rw [mem_singleton.mp hb]
    obtain ⟨n, hn, hgn⟩ := h.below g hg
    intro heq
    have := number31_inj (by omega) h.limit (hgn.symm.trans (heq.trans hnumber))
    omega
  · cases mem_append.mp hg with
    | inl hold => exact hmono.below g hold
    | inr hnew' =>
      rw [mem_singleton.mp hnew']
      exact ⟨context.nextConnectionNumber, by omega, hnumber⟩

theorem Sound.step {grants granted} {event} (h : Sound context grants)
    (hfine : Fine context event) (hstep : step context event = .ret (context', granted)) :
    Sound context' (grants ++ granted) := by
  cases event with
  | allow publicKey allowance =>
    obtain ⟨⟨number, context₁⟩, hallow, hstep⟩ := bind_inv hstep
    cases hstep
    exact h.allow hallow
  | connect publicKey =>
    obtain ⟨⟨number, context₁, outputs⟩, hconnect, hstep⟩ := bind_inv hstep
    cases hstep
    obtain ⟨⟨conn, context₂⟩, hnew, hconnect⟩ := bind_inv hconnect
    cases hconnect
    obtain ⟨hconn, hnext, hlimit⟩ := newConnection_number hnew
    rw [append_nil]
    refine h.mono (fun c hc hin => ?_) (by omega) (by omega)
    cases mem_cons.mp ((newConnection_perm hnew).mem_iff.mp hc) with
    | inl heq =>
      rw [heq, hconn] at hin
      cases hin
    | inr hold => exact hold
  | remove number =>
    cases hstep
    rw [append_nil]
    unfold removeConnection
    split
    · exact h
    · exact h.mono (fun c hc _ => mem_of_mem_eraseIdx hc) (le_refl _) h.limit
  | arrive publicKey message behind =>
    obtain ⟨⟨context₁, outputs⟩, harrive, hstep⟩ := bind_inv hstep
    cases hstep
    obtain ⟨hnext, hkept⟩ := incomingFromNode_incoming hfine harrive
    rw [append_nil]
    exact h.mono hkept (by omega) (hnext ▸ h.limit)

theorem Sound.run {grants granted} {events} (h : Sound context grants)
    (hfine : FineRun context events) (hrun : run context events = .ret (context', granted)) :
    Sound context' (grants ++ granted) := by
  induction events generalizing context grants granted with
  | nil =>
    cases hrun
    rw [append_nil]
    exact h
  | cons event events ih =>
    obtain ⟨⟨context₁, granted₁⟩, hstep, hrun⟩ := bind_inv hrun
    obtain ⟨⟨context₂, granted₂⟩, hrest, hrun⟩ := bind_inv hrun
    cases hrun
    rw [← List.append_assoc]
    exact ih (h.step hfine.1 hstep) (hfine.2 context₁ granted₁ hstep) hrest

theorem connection_ip6 {g : Grant} {source} (hsource : source.length = 16)
    (h : prefixMatches6 source g.connection.connectionIp6 g.connection.connectionIp6Alloc = .ret true) :
    ∃ ip6, g.allowance.ip6 = some ip6 ∧ SameBlock 128 source ip6.1 g.allowance.ip6Alloc := by
  unfold Grant.connection Connection.allow at h
  cases hip4 : g.allowance.ip4 with
  | _ =>
    rw [hip4] at h
    cases hip6 : g.allowance.ip6 with
    | none =>
      rw [hip6] at h
      exact absurd rfl (prefixMatches6_true hsource rfl h).1
    | some ip6 =>
      rw [hip6] at h
      exact ⟨ip6, rfl, prefixMatches6_true hsource ip6.2 h⟩

theorem connection_ip4 {g : Grant} {source} (hsource : source.length = 4)
    (h : prefixMatches4 source g.connection.connectionIp4 g.connection.connectionIp4Alloc = .ret true) :
    ∃ ip4, g.allowance.ip4 = some ip4 ∧ SameBlock 32 source ip4.1 g.allowance.ip4Alloc := by
  unfold Grant.connection Connection.allow at h
  cases hip6 : g.allowance.ip6 with
  | _ =>
    rw [hip6] at h
    cases hip4 : g.allowance.ip4 with
    | none =>
      rw [hip4] at h
      exact absurd rfl (prefixMatches4_true hsource rfl h).1
    | some ip4 =>
      rw [hip4] at h
      exact ⟨ip4, rfl, prefixMatches4_true hsource ip4.2 h⟩

theorem Sound.granted (h : Sound context grants) :
    Granted context grants := by
  refine ⟨h.kept, h.distinct, ?_⟩
  intro publicKey message behind context' outputs packet conn c hstep hpacket hconn hc hin
  obtain ⟨g, hg, rfl⟩ := h.kept c (mem_of_getElem? hc) hin
  obtain ⟨c', hc', hkey⟩ := connectionByPubKey_some hconn
  rw [hc] at hc'
  cases hc'
  refine ⟨g, hg, ?_, ?_⟩
  · rw [← hkey]
    exact allowed_fields.2.1.symm
  cases incomingFromNode_toTun hstep hpacket hconn hc with
  | inl hsix =>
    obtain ⟨hlen, hvalid⟩ := hsix
    have hlen' : 40 < message.bytes.length := hlen
    refine .inl (connection_ip6 ?_ ?_)
    · unfold addresses6
      rw [length_take, length_take, length_drop]
      omega
    · unfold isValidAddress6 at hvalid
      split at hvalid
      · cases hvalid
      · rw [hin] at hvalid
        exact hvalid
  | inr hfour =>
    obtain ⟨hlen, hvalid⟩ := hfour
    have hlen' : 20 < message.bytes.length := hlen
    refine .inr (connection_ip4 ?_ ?_)
    · unfold addresses4
      rw [length_take, length_take, length_drop]
      omega
    · unfold isValidAddress4 at hvalid
      rw [hin] at hvalid
      exact hvalid

/-- In a run without an offer for an incoming connection, clients have what they were granted. -/
theorem grants_kept (events : List Event) (context : IpTunnel) (grants : List Grant) (hfine : FineRun new events)
    (hrun : run new events = .ret (context, grants)) : Granted context grants := by
  have hnew : Sound new [] :=
    ⟨fun c hc => absurd hc not_mem_nil, nodup_nil, fun g hg => absurd hg not_mem_nil, by decide⟩
  exact (hnew.run hfine hrun).granted

/-- A node for examples. -/
def client : Key := Key.ofBytes [7]

/-- One address for it. -/
def oneAddress : Allowance :=
  { ip6 := none, ip6Prefix := 0, ip6Alloc := 0, ip4 := some ⟨[192, 168, 1, 2], rfl⟩, ip4Prefix := 32, ip4Alloc := 32 }

/-- An offer of the address 10.0.0.1 for the connection with the number 1. -/
def offer : Message :=
  { pad := []
    bytes := [0x60, 0, 0, 0, 0, 46, 17, 0] ++ List.replicate 32 0 ++ [0, 0, 0, 0, 0, 38, 173, 150] ++
      [100, 57, 58] ++ ADDRESSES ++ [100, 51, 58] ++ IP4 ++ [52, 58, 10, 0, 0, 1, 101] ++
      [52, 58] ++ TXID ++ [52, 58, 1, 0, 0, 0, 101] }

/-- The tunnel with the connection that was allowed. -/
def allowedOnly : IpTunnel := { connections := [(Grant.mk 0 client oneAddress).connection], nextConnectionNumber := 1 }

theorem grants_kept_client :
    run new [.allow client oneAddress, .arrive client offer []] = .ret (allowedOnly, [⟨0, client, oneAddress⟩]) ∧
    Granted allowedOnly [⟨0, client, oneAddress⟩] := by
  have hallow : step new (.allow client oneAddress) = .ret (allowedOnly, [⟨0, client, oneAddress⟩]) := by
    decide +kernel
  have hrun : run new [.allow client oneAddress, .arrive client offer []] =
      .ret (allowedOnly, [⟨0, client, oneAddress⟩]) := by decide +kernel
  refine ⟨hrun, grants_kept [.allow client oneAddress, .arrive client offer []] _ _ ⟨trivial, ?_⟩ hrun⟩
  intro context' granted hstep
  cases hstep
  refine ⟨fun d addresses number _ _ hfirst => ?_, fun _ _ _ => trivial⟩
  -- the only connection of the node is incoming
  obtain ⟨conn, c, hconn, hc, hout⟩ := hfirst
  have hin : c ∈ allowedOnly.connections := mem_of_getElem? hc
  cases mem_singleton.mp hin
  exact absurd hout (by decide +kernel)

/-- The tunnel with a connection of each kind, the one that was allowed with another address. -/
def overwritten : IpTunnel :=
  { connections :=
      [{ Connection.zero with publicKey := client, isOutgoing := true },
        { (Grant.mk 1 client oneAddress).connection with connectionIp4 := [10, 0, 0, 1] }]
    nextConnectionNumber := 2 }

/-- We connect to a node and allow it to connect; then it offers itself another address. -/
theorem client_changes_grant :
    run new [.connect client, .allow client oneAddress, .arrive client offer []] =
      .ret (overwritten, [⟨1, client, oneAddress⟩]) ∧
    ¬ Granted overwritten [⟨1, client, oneAddress⟩] := by
  refine ⟨by decide +kernel, fun h => ?_⟩
  obtain ⟨g, hg, heq⟩ := h.kept _ (mem_cons_of_mem _ mem_cons_self) rfl
  cases mem_singleton.mp hg
  exact absurd heq (by decide +kernel)

end Hyperboria.IpTunnel
