/-
What `isControlMessageInvalid` hands to the bencode reader lies in the packet. Nothing there
asks for the eight bytes of a UDP header; a shorter payload is kept out by its checksum, since
the ports are zero and the UDP length is the payload length less eight, modulo 2^16
(`short_invalid`).
-/
import Hyperboria.Tunnel.IpTunnel

namespace Hyperboria

open List

namespace Checksum

theorem fold_small (n : Nat) {s} (h : s ≤ 0xffff) : fold n s = s := by
  cases n with
  | zero => rfl
  | succ n => rw [fold, if_neg (by omega)]

/-- A sum that is folded once at most, and not to the number the checksum has to come to. -/
theorem complete_be_ne_zero {s} (h : s < 2 * 0xffff) (hne : s ≠ 0xffff) : complete_be s ≠ 0 := by
  have hlt : fold s s < 0xffff := by
    by_cases hs : s ≤ 0xffff
    · rw [fold_small s hs]
      omega
    · obtain ⟨n, hn⟩ := Nat.exists_eq_add_of_lt (Nat.lt_of_not_le hs)
      have hand : s &&& 0xffff = s % 2 ^ 16 := Nat.and_two_pow_sub_one_eq_mod s 16
      rw [hn, fold, if_pos (by omega), ← hn, fold_small _ (by omega)]
      omega
  unfold complete_be
  omega

theorem step_zeros (l : List UInt8) (h : ∀ b ∈ l, b = 0) (s : Nat) : step l s = s := by
  induction l, s using step.induct with
  | case1 s => rfl
  | case2 b s => simp [step, h b]
  | case3 b b' l s ih => simpa [step, h b, h b'] using ih fun c hc => h c (by simp [hc])

theorem udpIp6_zeros {addrs p} (h : ∀ b ∈ addrs, b = 0) (hp : p.length < 256) :
    udpIp6_be addrs p = complete_be (step p (p.length * 256 + 4352)) := by
  have hsum : 0 + (p.length % 256 * 256 + p.length / 256) + (17 % 256 * 256 + 17 / 256) = p.length * 256 + 4352 := by
    omega
  rw [← hsum, ← step_zeros addrs h 0]
  rfl

end Checksum

namespace IpTunnel

/-- A payload with less than a UDP header, zero ports and the length that belongs to it never adds up. -/
theorem short_invalid {p} (hp : p.length < 8) (more : List UInt8) (h0 : be16 (p ++ more) 0 = 0)
    (h2 : be16 (p ++ more) 2 = 0) (h4 : be16 (p ++ more) 4 = 2 ^ 16 - 8 + p.length) :
    Checksum.complete_be (Checksum.step p (p.length * 256 + 4352)) ≠ 0 := by
  have hbyte : ∀ i, ((p ++ more).getD i 0).toNat < 256 := fun i => UInt8.toNat_lt _
  have hb0 := hbyte 0
  have hb1 := hbyte 1
  have hb2 := hbyte 2
  have hb3 := hbyte 3
  have hb4 := hbyte 4
  have hb5 := hbyte 5
  have hb6 := hbyte 6
  unfold be16 at h0 h2 h4
  -- one case for each length
  rcases p with _ | ⟨b0, _ | ⟨b1, _ | ⟨b2, _ | ⟨b3, _ | ⟨b4, _ | ⟨b5, _ | ⟨b6, _ | ⟨b7, p⟩⟩⟩⟩⟩⟩⟩⟩
  case cons.cons.cons.cons.cons.cons.cons.cons =>
    simp only [length_cons] at hp
    omega
  all_goals
    simp only [cons_append, nil_append, getD_cons_zero, getD_cons_succ, length_cons,
      length_nil] at h0 h2 h4 hb0 hb1 hb2 hb3 hb4 hb5 hb6
    simp only [Checksum.step]
    exact Checksum.complete_be_ne_zero (by omega) (by omega)

/-- Between zero addresses the check returns, and a content that passes is what follows the UDP header
in a payload that has one. -/
theorem control_content (message : Message) (behind : List UInt8) (hlength : 40 < message.length)
    (hzero : (addresses6 message).all (· = 0) = true) :
    ∃ content, isControlMessageInvalid message behind = .ret content ∧ ∀ c, content = some c →
      8 ≤ be16 message.bytes 4 ∧ be16 message.bytes 4 + 40 ≤ message.length ∧
      c.bytes = (message.bytes.drop 48).take (be16 message.bytes 4 - 8) := by
  unfold isControlMessageInvalid
  dsimp only
  split
  · exact ⟨none, rfl, fun _ h => nomatch h⟩
  next hbad =>
    obtain ⟨-, hfits⟩ := not_or.mp hbad
    have hfits := Nat.le_of_not_lt hfits
    have hlen : be16 message.bytes 4 < 2 ^ 16 := by
      have h4 := (message.bytes.getD 4 0).toNat_lt
      have h5 := (message.bytes.getD (4 + 1) 0).toNat_lt
      unfold be16
      omega
    have h40 : message.eshift (-40) = .ret _ := Message.eshift_neg (k := 40) (by omega)
    rw [h40, Er.ret_bind]
    split
    · exact ⟨none, rfl, fun _ h => nomatch h⟩
    next hsum =>
      split
      · exact ⟨none, rfl, fun _ h => nomatch h⟩
      next hudp =>
        obtain ⟨h4, hports⟩ := not_or.mp hudp
        obtain ⟨h0, h2⟩ := not_or.mp hports
        have hdrop : message.length = message.bytes.length := rfl
        have h8 : 8 ≤ be16 message.bytes 4 := by
          by_contra hshort
          have htake : ((message.bytes.drop 40).take (be16 message.bytes 4)).length = be16 message.bytes 4 :=
            length_take_of_le (by rw [length_drop]; omega)
          have happ : (message.bytes.drop 40).take (be16 message.bytes 4) ++
              ((message.bytes.drop 40).drop (be16 message.bytes 4) ++ behind) = message.bytes.drop 40 ++ behind := by
            rw [← append_assoc, take_append_drop]
          refine short_invalid (by omega) _ (happ ▸ not_not.mp h0) (happ ▸ not_not.mp h2) ?_ ?_
          · rw [happ, not_not.mp h4]
            omega
          · rw [← Checksum.udpIp6_zeros _ (by omega), not_not.mp hsum]
            simpa [addresses6] using hzero
        have hshift := @Message.eshift_neg ⟨(message.bytes.take 40).reverse ++ message.pad, message.bytes.drop 40⟩ 8
          (by simp; omega)
        rw [show Message.eshift _ (-8) = .ret _ from hshift]
        refine ⟨_, rfl, fun c hc => ?_⟩
        rw [← Option.some.inj hc, show (be16 message.bytes 4 + 2 ^ 16 - 8) % 2 ^ 16 = be16 message.bytes 4 - 8 by omega]
        refine ⟨h8, hfits, ?_⟩
        rw [drop_drop, take_append_of_le_length (by rw [length_drop]; omega)]

/-- A frame with a content of one byte. -/
def frame : Message := ⟨[], [0x60, 0, 0, 0, 0, 9, 17, 0] ++ List.replicate 32 0 ++ [0, 0, 0, 0, 0, 1, 155, 228, 100]⟩

theorem control_content_frame : isControlMessageInvalid frame [] = .ret (some ⟨frame.bytes.reverse.drop 1, [100]⟩) ∧
    ∃ content, isControlMessageInvalid frame [] = .ret content ∧ ∀ c, content = some c →
      8 ≤ be16 frame.bytes 4 ∧ be16 frame.bytes 4 + 40 ≤ frame.length ∧
      c.bytes = (frame.bytes.drop 48).take (be16 frame.bytes 4 - 8) :=
  ⟨by decide, control_content frame [] (by decide) (by decide)⟩

end IpTunnel

end Hyperboria
