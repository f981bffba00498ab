/-
A walk along a path ends (`findClosest_ends`). Each hop takes the first director off the path. What is
left then has its own first director rewritten, and that one may get longer. But what follows it stays as
it was: it has been what followed the director that was taken off, and so is shorter by at least a bit.
-/
import Hyperboria.Dht.Operations

namespace Hyperboria

open EncodingScheme (Scheme)
open LabelSplicer (routesThrough unsplice)

/-- What a conversion leaves alone. -/
theorem EncodingScheme.Scheme.rest_convert {S : Scheme} {x y} {convertTo} {form}
    (h : S.convert x convertTo = y) (hy : y ≠ INVALID) (hform : form ∈ S.forms) (hreads : form.Reads y.toNat) :
    ∃ old ∈ S.forms, old.Reads x.toNat ∧ y.toNat / 2 ^ formSize form = x.toNat / 2 ^ formSize old := by
  obtain ⟨old, hold, hxreads, ⟨_, _, rfl⟩ | ⟨_, _, next, htarget, hd, hwrite, _⟩⟩ := convert_cases h hy
  · obtain rfl := reads_unique' hform hold hreads hxreads
    exact ⟨form, hform, hxreads, rfl⟩
  · have hnext := mem_of_target htarget
    have hb := bounds hnext
    obtain rfl := reads_unique' hform hnext hreads (hwrite ▸ Form.reads_write hb.fits)
    refine ⟨old, hold, hxreads, ?_⟩
    rw [hwrite, Form.rest_write hb.fits hd]

/-- A path that goes through a label one director long begins with its director, and something follows. -/
theorem EncodingScheme.Scheme.OneHop.begins {S : Scheme} {label path} (h : S.OneHop label)
    (hroutes : routesThrough path label = true) :
    ∃ form ∈ S.forms, form.Reads path.toNat ∧ label.toNat.log2 = formSize form ∧ 1 ≤ path.toNat / 2 ^ formSize form := by
  have htwo := h.two_le
  obtain ⟨form, hform, hreads, hlog⟩ := h
  obtain ⟨hle, hmod⟩ := (LabelSplicer.routesThrough_iff htwo).mp hroutes
  have hdvd : 2 ^ form.prefixLen ∣ 2 ^ label.toNat.log2 := Nat.pow_dvd_pow 2 (by rw [hlog, formSize]; omega)
  refine ⟨form, hform, ?_, hlog, ?_⟩
  · unfold Form.Reads at hreads ⊢
    rw [← hreads, ← Nat.mod_mod_of_dvd _ hdvd, hmod, Nat.mod_mod_of_dvd _ hdvd]
  · rw [← hlog]
    exact (Nat.one_le_div_iff (Nat.two_pow_pos _)).mpr ((Nat.log2_self_le (by omega)).trans hle)

namespace NodeStore

/-- What follows the first director of the path, where the walk is, is below this power of two. -/
def Ahead (s : NodeStore) (walk : LinkId × BitVec 64) (bits : Nat) : Prop :=
  ∀ link node, s.Live walk.1 link → s.nodes.get? link.child = some node →
    ∀ form ∈ node.encodingScheme.forms, form.Reads walk.2.toNat →
      walk.2.toNat / 2 ^ EncodingScheme.formSize form < 2 ^ bits

section
variable {s : NodeStore} {a b : LinkId × BitVec 64} {bits : Nat}

theorem half_le {form} {S : Scheme} (hform : form ∈ S.forms) (n : Nat) :
    n / 2 ^ EncodingScheme.formSize form ≤ n / 2 := by
  have hpow : 2 ^ 1 ≤ 2 ^ EncodingScheme.formSize form :=
    Nat.pow_le_pow_right (by decide) (Scheme.bounds hform).size_pos
  exact Nat.div_le_div_left hpow (by decide)

theorem ahead_63 (s : NodeStore) (a : LinkId × BitVec 64) : Ahead s a 63 := by
  intro link node _ _ form hform _
  have hhalf := half_le hform a.2.toNat
  omega

theorem ahead_one (s : NodeStore) (l : LinkId) (bits : Nat) : Ahead s (l, 1) bits := by
  intro link node _ _ form hform _
  have hhalf := half_le hform 1
  have hpos := Nat.two_pow_pos bits
  exact (show 1 / 2 ^ EncodingScheme.formSize form < 2 ^ bits by omega)

theorem Hop.ahead (h : Hop s a b) (hs : Wired s) (hahead : Ahead s a bits) :
    ∃ fewer, bits = fewer + 1 ∧ Ahead s b fewer := by
  obtain ⟨link, node, nextLink, hlink, hnode, hnext, hself, hlive, hcases⟩ := h.cases
  obtain ⟨hmem, hroutes⟩ := nextOnPath_spec hnext
  obtain ⟨other, hother, hparent⟩ := hs.peer _ node hnode _ hmem
  obtain rfl := hlive.unique hother
  have hhop := (hs.label _ nextLink node hlive hself (hparent ▸ hnode)).oneHop
  rw [label_eq hlive.1] at hroutes
  obtain ⟨form, hform, hreads, hlog, hone⟩ := hhop.begins hroutes
  have hlt := hahead link node hlink hnode form hform hreads
  cases bits with
  | zero => omega
  | succ fewer =>
    refine ⟨fewer, rfl, ?_⟩
    rcases hcases with ⟨_, hend⟩ | ⟨_, _, child, hchild, hvalid, hconvert⟩
    · have := ahead_one s b.1 fewer
      rwa [← hend] at this
    · intro link' node' hlink' hnode' form' hform' hreads'
      obtain rfl := hlive.unique hlink'
      cases hchild.symm.trans hnode'
      obtain ⟨old, hold, _, hrest⟩ := Scheme.rest_convert hconvert hvalid hform' hreads'
      rw [LabelSplicer.unsplice_toNat, hlog] at hrest
      have hhalf := half_le hold (a.2.toNat / 2 ^ EncodingScheme.formSize form)
      omega

end

/-! ## No hop hangs -/

section
variable (s : NodeStore) (path : BitVec 64) (l : LinkId)

theorem node_ne_spin (n : NodeId) : s.node n ≠ .spin := by
  unfold node
  split
  · exact fun h => (nomatch h)
  · exact fun h => (nomatch h)

theorem link_ne_spin : s.link l ≠ .spin := by
  unfold link
  split
  · split
    · exact fun h => (nomatch h)
    · exact fun h => (nomatch h)
  · exact fun h => (nomatch h)

theorem removeLinkFromLabel_ne_spin (link : Link) : removeLinkFromLabel s link path ≠ .spin := by
  refine Er.bind_ne_spin (node_ne_spin s _) fun child _ => ?_
  rw [Scheme.getFormNum_eq, Er.ret_bind]
  dsimp only
  split
  · exact fun h => (nomatch h)
  · rw [Scheme.convertLabel_eq, Er.ret_bind]
    split
    · exact fun h => (nomatch h)
    · exact Er.bind_ne_spin (Er.assertTrue_ne_spin _ _) fun _ _ h => (nomatch h)

theorem firstHopInPath_ne_spin : firstHopInPath s path l ≠ .spin := by
  refine Er.bind_ne_spin (link_ne_spin s l) fun parent _ => Er.bind_ne_spin (node_ne_spin s _) fun node _ => ?_
  split
  · exact fun h => (nomatch h)
  split
  · exact fun h => (nomatch h)
  split
  · exact fun h => (nomatch h)
  refine Er.bind_ne_spin (link_ne_spin s _) fun next _ => ?_
  split
  · exact fun h => (nomatch h)
  split
  · exact fun h => (nomatch h)
  refine Er.bind_ne_spin (removeLinkFromLabel_ne_spin s path next) fun rest _ => ?_
  split
  · exact fun h => (nomatch h)
  · exact fun h => (nomatch h)

end

/-! ## The walk -/

theorem closestFrom_ne_spin {s} {fuel bits} {path} {l} (hs : Wired s)
    (hahead : Ahead s (l, path) bits) (hfuel : bits < fuel) : closestFrom s fuel path l ≠ .spin := by
  induction fuel generalizing bits path l with
  | zero => omega
  | succ fuel ih =>
    unfold closestFrom
    cases hfirst : firstHopInPath s path l with
    | spin => exact absurd hfirst (firstHopInPath_ne_spin s path l)
    | abort text => exact fun h => (nomatch h)
    | ret r =>
      obtain ⟨nextPath, nextLink⟩ := r
      rw [Er.ret_bind]
      dsimp only
      split
      · exact fun h => (nomatch h)
      split
      · exact fun h => (nomatch h)
      next hvalid =>
        cases nextLink with
        | none => exact fun h => (nomatch h)
        | some next =>
          have hop : Hop s (l, path) (next, nextPath) := ⟨hfirst, Ne.symm hvalid⟩
          obtain ⟨fewer, rfl, hfewer⟩ := hop.ahead hs hahead
          exact ih hfewer (by omega)

theorem closestFrom_add {s} {fuel} {path} {l}
    (h : closestFrom s fuel path l ≠ .spin) (more : Nat) : closestFrom s (fuel + more) path l = closestFrom s fuel path l := by
  induction fuel generalizing path l with
  | zero => exact absurd rfl h
  | succ fuel ih =>
    rw [Nat.succ_add]
    unfold closestFrom at h ⊢
    cases hfirst : firstHopInPath s path l with
    | spin => rfl
    | abort text => rfl
    | ret r =>
      obtain ⟨nextPath, nextLink⟩ := r
      rw [hfirst] at h
      rw [Er.ret_bind] at h ⊢
      rw [Er.ret_bind]
      dsimp only at h ⊢
      split at h
      next hlast => rw [if_pos hlast, if_pos hlast]
      next hlast =>
        rw [if_neg hlast, if_neg hlast]
        split at h
        next hinvalid => rw [if_pos hinvalid, if_pos hinvalid]
        next hinvalid =>
          rw [if_neg hinvalid, if_neg hinvalid]
          cases nextLink with
          | none => rfl
          | some next => exact ih h

/-- Whatever the label, a walk ends within 64 rounds. -/
theorem findClosest_ends {C : Crypto} {paranoia : Bool} {s : NodeStore} (h : Reachable C paranoia s)
    (label : BitVec 64) (l : LinkId) :
    firstHopInPath s label l ≠ .spin ∧ closestFrom s 64 label l ≠ .spin ∧
      findClosest s label l = closestFrom s 64 label l := by
  have hends := closestFrom_ne_spin h.sound.wired (ahead_63 s (l, label)) (by decide : 63 < 64)
  obtain ⟨more, hmore⟩ : ∃ more, rounds = 64 + more := ⟨2 ^ 64 - 64, rfl⟩
  refine ⟨firstHopInPath_ne_spin s label l, hends, ?_⟩
  unfold findClosest
  rw [hmore]
  exact closestFrom_add hends more

theorem findClosest_ends_two_peers : ∃ s, Reachable Symbolic.crypto true s ∧
    firstHopInPath s 0x113 0 ≠ .spin ∧ closestFrom s 64 0x113 0 ≠ .spin ∧
      findClosest s 0x113 0 = closestFrom s 64 0x113 0 := by
  obtain ⟨s, hs⟩ : (history true 128 4096 [.discoverNode (host 1 0x13) .v358 0, .discoverNode (host 2 0x15) .v358 0]).Returns :=
    ⟨_, rfl⟩
  have hreachable := Reachable.of_history (by decide) (by decide) hs
  exact ⟨s, hreachable, findClosest_ends hreachable 0x113 0⟩

end NodeStore

end Hyperboria
