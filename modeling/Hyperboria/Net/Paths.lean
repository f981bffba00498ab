/-
The three paths of a session in `net/SessionManager.c`. Their metrics get worse as time
passes, all at the same rate and up to `Metric_NO_INFO`, so a path that is the best of them
stays so until the table changes (`effectiveMetric_mono`). A place that has not been used
looks like a very old path, and so does one that was reported dead; `rerankPaths` only
brings a strictly better path to the front, so neither gets there over another
(`Table.rerank`).

What has been reported is not kept by the code. `Reported` says what a session can be after
given reports, whatever else has happened to it, and every session of a manager is such a
one (`reported_of_run`).

Hence nothing is sent to the label zero. A message from the inside goes out only on a path
that is not dead. A message that was buffered goes out without a look at the metric, but in
a session that has heard from the other end, and what is heard comes with a path: the switch
hands no packet to the router with the label zero.
-/
import Hyperboria.Crypto.Stages
import Hyperboria.Crypto.Symbolic
import Hyperboria.Net.SessionManager
import Hyperboria.Transition

namespace Hyperboria

open Er List Function

namespace CryptoAuth

variable {C : Crypto} {ca : Context} {now : Nat} {s s' : Session C} {packet : Packet C}

/-! ## What a session has heard

A session that was never sent anything it could open has said hello at most. -/

theorem Resets.heard (h : Resets s s') (hn : 2 ≤ s'.nextNonce) : 2 ≤ s.nextNonce := by
  rcases h with rfl | ⟨s₀, -, rfl⟩
  · exact hn
  · simp [reset] at hn

theorem encrypt_heard {draw : Draw} {msg : List UInt8} (h : encrypt ca now draw s msg = .ret (s', packet))
    (hn : 2 ≤ s'.nextNonce) : 2 ≤ s.nextNonce := by
  obtain ⟨s₀, hresets, -, ⟨-, hshake⟩ | ⟨hfour, -⟩⟩ := encrypt_cases h
  · obtain ⟨hash, secret, hsecret, -⟩ := encryptHandshake_cases hshake
    have hkeys : (withTempKeys draw s₀).nextNonce = s₀.nextNonce := by
      unfold withTempKeys
      split
      · rfl
      · rfl
    obtain ⟨-, -, rfl⟩ | ⟨htwo, -⟩ := handshakeSecret_cases hsecret
    · simp at hn
    · exact hresets.heard (by omega)
  · exact hresets.heard (by omega)

/-- A data packet is nothing to a session that has not heard from the other end. -/
theorem decrypt_heard {err} {content} (hdata : 4 ≤ packet.nonce) (h : decrypt ca now s packet = .ret (err, s', content))
    (hn : 2 ≤ s'.nextNonce) : 2 ≤ s.nextNonce := by
  obtain ⟨-, -, rfl⟩ | ⟨-, -, context, rfl⟩ | ⟨-, ⟨-, -, -, hthree⟩, -⟩ | ⟨-, -, -, ⟨-, rfl⟩ | ⟨-, rfl⟩⟩ |
    ⟨hshake, -⟩ := decrypt_cases h
  · exact hn
  · exact hn
  · omega
  · exact hn
  · exact hn
  · omega

end CryptoAuth

namespace SessionManager

open CryptoAuth (Context Packet Draw seconds)

variable {C : Crypto} {now now' : Nat} {p q : Path} {paths : Fin PATH_COUNT → Path}

theorem pathCount_pos : 0 < PATH_COUNT := by decide

/-- The place of the path that is used. -/
def first : Fin PATH_COUNT := ⟨0, pathCount_pos⟩

/-! ## Metrics -/

/-- A path of the past, with a metric that fits in its word. -/
structure Path.Valid (now : Nat) (p : Path) : Prop where
  past : p.timeLastValidated ≤ now
  metric_lt : p.metric < 2 ^ 32

theorem effectiveMetric_eq (h : p.Valid now) :
    effectiveMetric now p = min Metric.NO_INFO (now - p.timeLastValidated + p.metric) := by
  have hpast := h.past
  have hinfo : Metric.NO_INFO = 4294967294 := rfl
  unfold effectiveMetric
  dsimp only
  split
  next hold => omega
  next hnew => omega

theorem effectiveMetric_le (h : p.Valid now) : effectiveMetric now p ≤ Metric.NO_INFO := by
  rw [effectiveMetric_eq h]
  exact Nat.min_le_left _ _

theorem effectiveMetric_mono (hp : p.Valid now) (hq : q.Valid now) (hle : now ≤ now')
    (h : effectiveMetric now p ≤ effectiveMetric now q) : effectiveMetric now' p ≤ effectiveMetric now' q := by
  have hp' : p.Valid now' := ⟨hp.past.trans hle, hp.metric_lt⟩
  have hq' : q.Valid now' := ⟨hq.past.trans hle, hq.metric_lt⟩
  have hpast' := hq.past
  rw [effectiveMetric_eq hp, effectiveMetric_eq hq] at h
  rw [effectiveMetric_eq hp', effectiveMetric_eq hq']
  omega

/-- A place that was never used, or a path that is known to be dead. -/
def Path.Blank (p : Path) : Prop := p.metric = Metric.DEAD_LINK ∨ p.timeLastValidated = 0 ∧ p.metric = 0

theorem effectiveMetric_blank (hnow : 2 ^ 32 ≤ now) (h : p.Valid now) (hblank : p.Blank) :
    effectiveMetric now p = Metric.NO_INFO := by
  have hinfo : Metric.NO_INFO = 4294967294 := rfl
  have hdead : Metric.DEAD_LINK = 4294967295 := rfl
  rw [effectiveMetric_eq h]
  rcases hblank with hmetric | ⟨htime, hmetric⟩
  · omega
  · omega

/-! ## The table -/

/-- Labels with the metrics they were reported with, the latest first. -/
abbrev Reports := List (BitVec 64 × Nat)

/-- What holds of the table after the reports, while it is being changed. The session may have heard from the
other end. -/
structure Drawn (now : Nat) (heard : Prop) (reports : Reports) (paths : Fin PATH_COUNT → Path) : Prop where
  valid : ∀ i, (paths i).Valid now
  distinct : ∀ i j, (paths i).label = (paths j).label → (paths i).label ≠ 0 → i = j
  blank : ∀ i, (paths i).label = 0 → (paths i).Blank
  heeds : ∀ i, (paths i).label ≠ 0 → reports.lookup (paths i).label = some Metric.DEAD_LINK →
    (paths i).metric = Metric.DEAD_LINK
  front : (paths first).label = 0 → (paths first).metric = Metric.DEAD_LINK ∧ ¬ heard

/-- The table of a session. -/
structure Table (now : Nat) (heard : Prop) (reports : Reports) (paths : Fin PATH_COUNT → Path) : Prop
    extends Drawn now heard reports paths where
  best : ∀ i, effectiveMetric now (paths first) ≤ effectiveMetric now (paths i)

variable {heard heard' : Prop} {reports : Reports}

/-- The same table later, when the session has heard from the other end at most if it had before or has a path
for it. -/
theorem Table.mono (h : Table now heard reports paths) (hle : now ≤ now')
    (hheard : heard' → heard ∨ (paths first).label ≠ 0) : Table now' heard' reports paths where
  valid i := ⟨(h.valid i).past.trans hle, (h.valid i).metric_lt⟩
  distinct := h.distinct
  blank := h.blank
  heeds := h.heeds
  front hzero := ⟨(h.front hzero).1, fun hh => (hheard hh).elim (h.front hzero).2 (absurd hzero)⟩
  best i := effectiveMetric_mono (h.valid first) (h.valid i) hle (h.best i)

/-- A path that is not blank, even if old, keeps the label zero from the front. -/
theorem Table.front_ne_zero (hnow : 2 ^ 32 ≤ now) (h : Table now heard reports paths) {i}
    (hi : effectiveMetric now (paths i) < Metric.NO_INFO) : (paths first).label ≠ 0 := by
  intro hzero
  have hworst := effectiveMetric_blank hnow (h.valid first) (h.blank first hzero)
  have hbest := h.best i
  omega

variable {i : Fin PATH_COUNT}

theorem lookup_cons_of_ne {k l : BitVec 64} (h : k ≠ l) (m : Nat) (reports : Reports) :
    ((l, m) :: reports).lookup k = reports.lookup k := by
  rw [List.lookup_cons, beq_false_of_ne h]

theorem Drawn.update (h : Drawn now heard reports paths) (hvalid : p.Valid now) (hlabel : p.label ≠ 0)
    (hnew : ∀ j, (paths j).label = p.label → j = i) :
    Drawn now heard ((p.label, p.metric) :: reports) (Function.update paths i p) where
  valid j := by
    by_cases hj : j = i
    · rw [hj, update_self]
      exact hvalid
    · rw [update_of_ne hj]
      exact h.valid j
  distinct j k heq hne := by
    by_cases hj : j = i
    · by_cases hk : k = i
      · rw [hj, hk]
      · rw [hj, update_self, update_of_ne hk] at heq
        exact hj.trans (hnew k heq.symm).symm
    · by_cases hk : k = i
      · rw [hk, update_self, update_of_ne hj] at heq
        exact (hnew j heq).trans hk.symm
      · rw [update_of_ne hj, update_of_ne hk] at heq
        rw [update_of_ne hj] at hne
        exact h.distinct j k heq hne
  blank j hzero := by
    by_cases hj : j = i
    · rw [hj, update_self] at hzero
      exact absurd hzero hlabel
    · rw [update_of_ne hj] at hzero ⊢
      exact h.blank j hzero
  heeds j hne hdead := by
    by_cases hj : j = i
    · rw [hj, update_self, lookup_cons_self] at hdead
      rw [hj, update_self]
      exact Option.some.inj hdead
    · rw [update_of_ne hj] at hne hdead ⊢
      rw [lookup_cons_of_ne fun heq => hj (hnew j heq)] at hdead
      exact h.heeds j hne hdead
  front hzero := by
    by_cases hj : first = i
    · rw [hj, update_self] at hzero
      exact absurd hzero hlabel
    · rw [update_of_ne hj] at hzero ⊢
      exact h.front hzero

/-- The loop of `rerankPaths`: it goes on from a place only to one with a strictly smaller number. -/
theorem foldl_best {ι : Type} (f : ι → Nat) (l : List ι) (i : ι) :
    ∃ j, l.foldl (fun best i => if f i < best.1 then (f i, i) else best) (f i, i) = (f j, j) ∧
      (∀ k ∈ i :: l, f j ≤ f k) ∧ (j = i ∨ f j < f i) := by
  induction l generalizing i with
  | nil => exact ⟨i, rfl, fun k hk => by rw [mem_singleton.mp hk], .inl rfl⟩
  | cons k l ih =>
    rw [foldl_cons]
    by_cases hlt : f k < f i
    · rw [if_pos hlt]
      obtain ⟨j, hfold, hleast, hj⟩ := ih k
      have hjk := hleast k mem_cons_self
      refine ⟨j, hfold, fun m hm => ?_, .inr (by omega)⟩
      rcases mem_cons.mp hm with rfl | hm
      · omega
      · exact hleast m hm
    · rw [if_neg hlt]
      obtain ⟨j, hfold, hleast, hj⟩ := ih i
      have hji := hleast i mem_cons_self
      refine ⟨j, hfold, fun m hm => ?_, hj⟩
      rcases mem_cons.mp hm with rfl | hm
      · exact hji
      · rcases mem_cons.mp hm with rfl | hm
        · omega
        · exact hleast m (mem_cons_of_mem _ hm)

/-- `rerankPaths` exchanges the front with a place that is strictly better, if there is one. -/
theorem rerankPaths_eq (sess : Session C) (hvalid : ∀ i, (sess.paths i).Valid now) :
    ∃ b, rerankPaths now sess = { sess with paths := sess.paths ∘ Equiv.swap b first } ∧
      (∀ i, effectiveMetric now (sess.paths b) ≤ effectiveMetric now (sess.paths i)) ∧
      (b = first ∨ effectiveMetric now (sess.paths b) < effectiveMetric now (sess.paths first)) := by
  have hplaces : List.finRange PATH_COUNT = first :: [⟨1, by decide⟩, ⟨2, by decide⟩] := rfl
  have hstart : effectiveMetric now (sess.paths first) < Metric.DEAD_LINK :=
    (effectiveMetric_le (hvalid first)).trans_lt (by decide)
  obtain ⟨b, hfold, hleast, hb⟩ :=
    foldl_best (fun i => effectiveMetric now (sess.paths i)) [⟨1, by decide⟩, ⟨2, by decide⟩] first
  have hbest : (List.finRange PATH_COUNT).foldl
      (fun (best : Nat × Fin PATH_COUNT) i =>
        let em := effectiveMetric now (sess.paths i)
        if em < best.1 then (em, i) else best)
      (Metric.DEAD_LINK, first) = (effectiveMetric now (sess.paths b), b) := by
    rw [hplaces, foldl_cons]
    rw [if_pos hstart]
    exact hfold
  refine ⟨b, ?_, fun i => hleast i (hplaces ▸ mem_finRange i), hb⟩
  unfold rerankPaths
  dsimp only
  rw [show (⟨0, by decide⟩ : Fin PATH_COUNT) = first from rfl, hbest]
  by_cases hfront : b = first
  · rw [if_neg (not_not_intro hfront), hfront, Equiv.swap_self]
    rfl
  · rw [if_pos hfront, Equiv.comp_swap_eq_update]

variable {sess : Session C}

theorem Table.rerank (hnow : 2 ^ 32 ≤ now) (h : Drawn now heard reports sess.paths) :
    Table now heard reports (rerankPaths now sess).paths := by
  obtain ⟨b, heq, hleast, hb⟩ := rerankPaths_eq sess h.valid
  have hfront : (sess.paths ∘ Equiv.swap b first) first = sess.paths b := by
    rw [comp_apply, Equiv.swap_apply_right]
  rw [heq]
  dsimp only
  refine ⟨⟨fun i => h.valid _, fun i j hlabel hne => ?_, fun i => h.blank _, fun i => h.heeds _, ?_⟩, fun i => ?_⟩
  · exact (Equiv.swap b first).injective (h.distinct _ _ hlabel hne)
  · rw [hfront]
    intro hzero
    rcases hb with rfl | hless
    · exact h.front hzero
    · -- a blank path is not better than any other
      have hworst := effectiveMetric_blank hnow (h.valid b) (h.blank b hzero)
      have hle := effectiveMetric_le (h.valid first)
      omega
  · rw [hfront]
    exact hleast _

theorem rerankPaths_best (hvalid : ∀ i, (sess.paths i).Valid now) (i : Fin PATH_COUNT) :
    effectiveMetric now ((rerankPaths now sess).paths first) ≤ effectiveMetric now (sess.paths i) := by
  obtain ⟨b, heq, hleast, -⟩ := rerankPaths_eq sess hvalid
  rw [heq]
  dsimp only
  rw [comp_apply, Equiv.swap_apply_right]
  exact hleast i

/-! ## Reports of paths -/

variable {label : BitVec 64}

theorem pathForLabel_eq_none (h : pathForLabel sess label = none) (i : Fin PATH_COUNT) :
    (sess.paths i).label ≠ label := by
  have := find?_eq_none.mp h i (mem_finRange i)
  exact fun heq => this (decide_eq_true heq)

theorem pathForLabel_eq_some (h : pathForLabel sess label = some i) : (sess.paths i).label = label := by
  have hlabel := find?_some h
  exact of_decide_eq_true hlabel

/-- `discoverPath` leaves the session as it is, or writes the path to a place that has its label, or to some
place if none has, and ranks the paths. It passes over a path of the table only for a better one, and never a
report that a path of the table is dead. -/
theorem discoverPath_cases (now : Nat) (sess : Session C) (label : BitVec 64) (metric : Nat) :
    ((discoverPath now sess label metric).2.1 = sess ∧
      (label ≠ 0 → (metric = Metric.DEAD_LINK → ∀ j, (sess.paths j).label ≠ label) ∧
        ∃ i, effectiveMetric now (sess.paths i) ≤ metric)) ∨
    (label ≠ 0 ∧ ∃ i, ((sess.paths i).label = label ∨ ∀ j, (sess.paths j).label ≠ label) ∧
      (discoverPath now sess label metric).2.1 = rerankPaths now
        { sess with paths := Function.update sess.paths i { timeLastValidated := now, label, metric } }) := by
  unfold discoverPath
  split
  next hzero => exact .inl ⟨rfl, fun hne => absurd hzero hne⟩
  next hlabel =>
    cases hpath : pathForLabel sess label with
    | some i =>
      dsimp only
      split
      next hkept => exact .inl ⟨rfl, fun _ => ⟨fun hdead => absurd hdead hkept.1, i, hkept.2⟩⟩
      · exact .inr ⟨hlabel, i, .inl (pathForLabel_eq_some hpath), rfl⟩
    | none =>
      have hnone := pathForLabel_eq_none hpath
      dsimp only
      split
      next hkept => exact .inl ⟨rfl, fun _ => ⟨fun _ => hnone, _, hkept⟩⟩
      · refine .inr ⟨hlabel, worstPath now sess, .inr hnone, ?_⟩
        split
        · rfl
        · rfl

variable {metric : Nat}

/-- What `discoverPath` has written, before the paths are ranked. -/
theorem Drawn.fresh (h : Drawn now heard reports paths) (hlabel : label ≠ 0) (hmetric : metric < 2 ^ 32)
    (hplace : (paths i).label = label ∨ ∀ j, (paths j).label ≠ label) :
    Drawn now heard ((label, metric) :: reports)
      (Function.update paths i { timeLastValidated := now, label, metric }) := by
  refine h.update (p := ⟨now, label, metric⟩) ⟨Nat.le_refl _, hmetric⟩ hlabel fun j hj => ?_
  rcases hplace with hi | hnone
  · exact h.distinct j i (hj.trans hi.symm) (hj ▸ hlabel)
  · exact absurd hj (hnone j)

theorem Table.discoverPath (hnow : 2 ^ 32 ≤ now) (h : Table now heard reports sess.paths) (hmetric : metric < 2 ^ 32) :
    Table now heard ((label, metric) :: reports) (SessionManager.discoverPath now sess label metric).2.1.paths := by
  rcases discoverPath_cases now sess label metric with ⟨hsame, hkept⟩ | ⟨hlabel, i, hplace, hfresh⟩
  · rw [hsame]
    refine ⟨⟨h.valid, h.distinct, h.blank, fun j hne hdead => ?_, h.front⟩, h.best⟩
    by_cases hj : (sess.paths j).label = label
    · -- a report that the path is dead would not have been passed over
      rw [hj] at hne hdead
      rw [lookup_cons_self] at hdead
      exact absurd hj ((hkept hne).1 (Option.some.inj hdead) j)
    · rw [lookup_cons_of_ne hj] at hdead
      exact h.heeds j hne hdead
  · rw [hfresh]
    exact Table.rerank hnow (h.toDrawn.fresh hlabel hmetric hplace)

/-- A path that is alive brings a label to the front. -/
theorem Table.discoverPath_front (hnow : 2 ^ 32 ≤ now) (h : Table now heard reports sess.paths) (hlabel : label ≠ 0)
    (hmetric : metric < Metric.NO_INFO) :
    ((SessionManager.discoverPath now sess label metric).2.1.paths first).label ≠ 0 := by
  have hword : metric < 2 ^ 32 := hmetric.trans (by decide)
  rcases discoverPath_cases now sess label metric with ⟨hsame, hkept⟩ | ⟨-, i, hplace, hfresh⟩
  · rw [hsame]
    obtain ⟨i, hi⟩ := (hkept hlabel).2
    exact h.front_ne_zero hnow (hi.trans_lt hmetric)
  · have hdrawn := h.toDrawn.fresh hlabel hword hplace
    have hbest := @rerankPaths_best C now
      { sess with paths := Function.update sess.paths i { timeLastValidated := now, label, metric } } hdrawn.valid i
    dsimp only at hbest
    rw [update_self, effectiveMetric_eq (p := ⟨now, label, metric⟩) ⟨Nat.le_refl _, hword⟩] at hbest
    rw [hfresh]
    exact (Table.rerank hnow hdrawn).front_ne_zero hnow (i := first) (by dsimp only at hbest; omega)

/-- The table of a new session: one path, of the label zero if it is dead, and two places that are blank. -/
theorem Table.new (hnow : 2 ^ 32 ≤ now) (hmetric : metric < 2 ^ 32) (hzero : label = 0 → metric = Metric.DEAD_LINK)
    (hheard : ¬ heard) :
    Table now heard [(label, metric)] fun i : Fin PATH_COUNT =>
      if i.val = 0 then { timeLastValidated := now, label, metric }
      else { timeLastValidated := 0, label := 0, metric := 0 } := by
  have hvalid : ∀ i : Fin PATH_COUNT, Path.Valid now
      (if i.val = 0 then { timeLastValidated := now, label, metric }
        else { timeLastValidated := 0, label := 0, metric := 0 }) := by
    intro i
    split
    · exact ⟨Nat.le_refl _, hmetric⟩
    · exact ⟨Nat.zero_le _, by decide⟩
  refine ⟨⟨hvalid, fun i j heq hne => ?_, fun i hi => ?_, fun i hne hi => ?_, fun hi => ⟨hzero hi, hheard⟩⟩, fun i => ?_⟩
  · by_cases hi : i.val = 0
    · by_cases hj : j.val = 0
      · exact Fin.ext (hi.trans hj.symm)
      · rw [if_neg hj] at heq
        exact absurd heq hne
    · rw [if_neg hi] at hne
      exact absurd rfl hne
  · by_cases hfirst : i.val = 0
    · rw [if_pos hfirst] at hi ⊢
      exact .inl (hzero hi)
    · rw [if_neg hfirst]
      exact .inr ⟨rfl, rfl⟩
  · by_cases hfirst : i.val = 0
    · rw [if_pos hfirst, lookup_cons_self] at hi
      rw [if_pos hfirst]
      exact Option.some.inj hi
    · rw [if_neg hfirst] at hne
      exact absurd rfl hne
  · by_cases hi : i.val = 0
    · rw [show i = first from Fin.ext hi]
    · have hblank := effectiveMetric_blank hnow (hvalid i) (by rw [if_neg hi]; exact .inr ⟨rfl, rfl⟩)
      rw [hblank]
      exact effectiveMetric_le (hvalid first)

/-! ## Sessions -/

/-- A session after reports, the latest first: of its first path by `getSession`, which made it, and of others by
`discoverPath`. Time passes, and all but the paths may be changed, but nothing is heard from the other end without
a path. -/
inductive Reported : Nat → Reports → Session C → Prop where
  | new {now : Nat} {label : BitVec 64} {metric : Nat} {sess : Session C} (hnow : 2 ^ 32 ≤ now)
      (hmetric : metric < 2 ^ 32) (hzero : label = 0 → metric = Metric.DEAD_LINK) (hidle : ¬ 2 ≤ sess.caSession.nextNonce)
      (hpaths : sess.paths = fun i => if i.val = 0 then { timeLastValidated := now, label, metric }
        else { timeLastValidated := 0, label := 0, metric := 0 }) : Reported now [(label, metric)] sess
  | wait {now now' : Nat} {reports : Reports} {sess : Session C} (h : Reported now reports sess) (hle : now ≤ now') :
      Reported now' reports sess
  | discoverPath {now : Nat} {reports : Reports} {sess : Session C} (h : Reported now reports sess)
      (label : BitVec 64) {metric : Nat} (hmetric : metric < 2 ^ 32) :
      Reported now ((label, metric) :: reports) (SessionManager.discoverPath now sess label metric).2.1
  | change {now : Nat} {reports : Reports} {sess sess' : Session C} (h : Reported now reports sess)
      (hpaths : sess'.paths = sess.paths)
      (hheard : 2 ≤ sess'.caSession.nextNonce → 2 ≤ sess.caSession.nextNonce ∨ (firstPath sess).label ≠ 0) :
      Reported now reports sess'

theorem discoverPath_caSession (now : Nat) (sess : Session C) (label : BitVec 64) (metric : Nat) :
    (discoverPath now sess label metric).2.1.caSession = sess.caSession := by
  rcases discoverPath_cases now sess label metric with ⟨hsame, -⟩ | ⟨-, i, -, hfresh⟩
  · rw [hsame]
  · rw [hfresh]
    unfold rerankPaths
    dsimp only
    split
    · rfl
    · rfl

theorem Reported.table (h : Reported now reports sess) :
    2 ^ 32 ≤ now ∧ Table now (2 ≤ sess.caSession.nextNonce) reports sess.paths := by
  induction h with
  | new hnow hmetric hzero hidle hpaths =>
    rw [hpaths]
    exact ⟨hnow, Table.new hnow hmetric hzero hidle⟩
  | wait _ hle ih => exact ⟨ih.1.trans hle, ih.2.mono hle .inl⟩
  | discoverPath _ label hmetric ih =>
    rw [discoverPath_caSession]
    exact ⟨ih.1, ih.2.discoverPath ih.1 hmetric⟩
  | change _ hpaths hheard ih =>
    rw [hpaths]
    exact ⟨ih.1, ih.2.mono (Nat.le_refl _) hheard⟩

/-- A session after some reports. -/
def Session.Fine (now : Nat) (sess : Session C) : Prop := ∃ reports, Reported now reports sess

variable {sess' : Session C}

theorem Session.Fine.front (h : sess.Fine now) (hzero : (firstPath sess).label = 0) :
    (firstPath sess).metric = Metric.DEAD_LINK ∧ ¬ 2 ≤ sess.caSession.nextNonce := by
  obtain ⟨reports, h⟩ := h
  exact h.table.2.front hzero

theorem Session.Fine.change (h : sess.Fine now) (hpaths : sess'.paths = sess.paths)
    (hheard : 2 ≤ sess'.caSession.nextNonce → 2 ≤ sess.caSession.nextNonce ∨ (firstPath sess).label ≠ 0) :
    sess'.Fine now := by
  obtain ⟨reports, h⟩ := h
  exact ⟨reports, h.change hpaths hheard⟩

theorem Session.Fine.congr (h : sess.Fine now) (hsame : sess'.paths = sess.paths ∧ sess'.caSession = sess.caSession) :
    sess'.Fine now :=
  h.change hsame.1 fun hheard => .inl (hsame.2 ▸ hheard)

theorem Session.Fine.discoverPath (h : sess.Fine now) (hmetric : metric < 2 ^ 32) :
    (SessionManager.discoverPath now sess label metric).2.1.Fine now := by
  obtain ⟨reports, h⟩ := h
  exact ⟨_, h.discoverPath label hmetric⟩

theorem Session.Fine.discoverPath_front (h : sess.Fine now) (hlabel : label ≠ 0) (hmetric : metric < Metric.NO_INFO) :
    ((SessionManager.discoverPath now sess label metric).2.1.paths first).label ≠ 0 := by
  obtain ⟨reports, h⟩ := h
  exact h.table.2.discoverPath_front h.table.1 hlabel hmetric

/-! ## The calls keep the sessions fine -/

def State.Fine (now : Nat) (sm : State C) : Prop := ∀ e ∈ sm.ifaceMap.entries, e.value.Fine now

variable {sm sm' : State C} {index : Nat} {ip6 : List UInt8}

theorem State.Fine.set (h : sm.Fine now) (hsess : sess.Fine now) (index : Nat) :
    State.Fine now { sm with ifaceMap := sm.ifaceMap.set index sess } := by
  intro e he
  rcases Map.mem_set he with hvalue | hold
  · rw [hvalue]
    exact hsess
  · exact h e hold

theorem check_eq {ssp : Session C} (h : check ip6 ssp = .ret sess) :
    sess.paths = ssp.paths ∧ sess.caSession = ssp.caSession := by
  unfold check at h
  split at h
  · rw [← ret.inj h]
    exact ⟨rfl, rfl⟩
  split at h
  · rw [← ret.inj h]
    exact ⟨rfl, rfl⟩
  · cases eq_of_bind_ret h
    exact ⟨rfl, rfl⟩

theorem State.Fine.sessionAt (hfine : sm.Fine now) {at? : Option Nat}
    (h : sessionAt at? sm = .ret (some (index, sess, sm'))) : sess.Fine now ∧ sm'.Fine now := by
  unfold SessionManager.sessionAt at h
  split at h
  · exact nomatch h
  next i e hfound =>
    simp only [bind_eq_ret, ret.injEq, Option.some.injEq, Prod.mk.injEq] at h
    obtain ⟨sess', hcheck, rfl, rfl, rfl⟩ := h
    simp only [Option.bind_eq_some_iff, Option.map_eq_some_iff, Prod.mk.injEq] at hfound
    obtain ⟨_, -, e', he', -, rfl⟩ := hfound
    have hsess := (hfine e' (mem_of_getElem? he')).congr (check_eq hcheck)
    exact ⟨hsess, hfine.set hsess _⟩

variable (hnow : 2 ^ 32 ≤ now) (hfine : sm.Fine now)
include hnow hfine

theorem State.Fine.addSession {pubKey : Key} {version : Nat} {outs : List Out} (hmetric : metric < 2 ^ 32)
    (hzero : label = 0 → metric = Metric.DEAD_LINK)
    (h : addSession now ip6 pubKey version label metric sm = .ret (index, sess, sm', outs)) :
    (sess.Fine now ∧ sm'.Fine now) ∧ firstPath sess = ⟨now, label, metric⟩ := by
  simp only [SessionManager.addSession, bind_eq_ret, ret.injEq, Prod.mk.injEq] at h
  obtain ⟨_, -, sess', hcheck, rfl, rfl, rfl, -⟩ := h
  have hnew : ∀ sess₀ : Session C, sess₀.caSession = CryptoAuth.newSession C (seconds now) pubKey false →
      (sess₀.paths = fun i => if i.val = 0 then ⟨now, label, metric⟩ else ⟨0, 0, 0⟩) → sess₀.Fine now := by
    intro sess₀ hca hpaths
    refine ⟨_, .new hnow hmetric hzero ?_ hpaths⟩
    rw [hca]
    exact Nat.not_succ_le_zero 1
  have hsess := (hnew _ rfl rfl).congr (check_eq hcheck)
  refine ⟨⟨hsess, fun e he => ?_⟩, ?_⟩
  · rcases Map.mem_set he with hvalue | hput
    · rw [hvalue]
      exact hsess
    rcases Map.mem_put hput with hvalue | hold
    · rw [hvalue]
      exact hnew _ rfl rfl
    · exact hfine e hold
  · unfold firstPath
    rw [(check_eq hcheck).1]
    rfl

theorem State.Fine.getSession {pubKey : Key} {version : Nat}
    {outs : List Out} (hmetric : metric < 2 ^ 32)
    (h : getSession now ip6 pubKey version label metric sm = .ret (index, sess, sm', outs)) :
    (sess.Fine now ∧ sm'.Fine now) ∧ (label ≠ 0 → metric < Metric.NO_INFO → (firstPath sess).label ≠ 0) := by
  simp only [SessionManager.getSession, bind_eq_ret] at h
  obtain ⟨_, -, found, hfound, h⟩ := h
  -- what is reported of the label zero is that it is dead
  generalize hmetric' : (if label = 0 then Metric.DEAD_LINK else metric) = metric' at h
  have hword : metric' < 2 ^ 32 := by
    rw [← hmetric']
    split
    · decide
    · exact hmetric
  cases found with
  | none =>
    obtain ⟨hadded, hpath⟩ := hfine.addSession hnow hword (fun hzero => hmetric'.symm.trans (if_pos hzero)) h
    refine ⟨hadded, fun hlabel _ => ?_⟩
    rw [hpath]
    exact hlabel
  | some found =>
    obtain ⟨i, sess₀, sm₀⟩ := found
    obtain ⟨hsess₀, hfine₀⟩ := hfine.sessionAt hfound
    have hversion : Session.Fine now
        { sess₀ with version := if sess₀.version ≠ 0 then sess₀.version else version } := hsess₀.congr ⟨rfl, rfl⟩
    have hdiscovered := @Session.Fine.discoverPath C now _ label metric' hversion hword
    have hfront := @Session.Fine.discoverPath_front C now _ label metric' hversion
    dsimp only at h
    generalize SessionManager.discoverPath now _ label _ = discovered at h hdiscovered hfront
    simp only [ret.injEq, Prod.mk.injEq] at h
    obtain ⟨rfl, hsess, rfl, -⟩ := h
    have hsame : sess.paths = discovered.2.1.paths ∧ sess.caSession = discovered.2.1.caSession := by
      rw [← hsess]
      split
      · exact ⟨rfl, rfl⟩
      · exact ⟨rfl, rfl⟩
    have hfine₁ := hdiscovered.congr hsame
    rw [hsess]
    refine ⟨⟨hfine₁, hfine₀.set hfine₁ _⟩, fun hlabel hlow => ?_⟩
    unfold firstPath
    rw [hsame.1]
    exact hfront hlabel (hmetric' ▸ (if_neg hlabel).symm ▸ hlow)

/-! ## Packets from the switch -/

variable {msg : Incoming C} {outs : List Out}

/-- A packet is found a session for that comes with a path, or is not one that sets up a session. -/
theorem State.Fine.address (hlabel : msg.label ≠ 0) {addressed : Addressed C} (h : address now msg sm = .ret addressed) :
    match addressed with
    | .drop sm' => sm'.Fine now
    | .found _ sess sm' _ => sess.Fine now ∧ sm'.Fine now ∧ (4 ≤ msg.packet.nonce ∨ (firstPath sess).label ≠ 0) := by
  unfold SessionManager.address at h
  split at h
  next hrun =>
    simp only [addressRun, bind_eq_ret] at h
    obtain ⟨found, hfound, h⟩ := h
    cases found with
    | none =>
      cases h
      exact hfine
    | some found =>
      obtain ⟨_, _, _⟩ := found
      obtain ⟨hsess, hfine'⟩ := hfine.sessionAt hfound
      dsimp only at h
      split at h
      · cases h
        exact hfine'
      next hnonce =>
        cases h
        refine ⟨hsess, hfine', .inl ?_⟩
        rw [Incoming.packet, if_pos hrun]
        omega
  next hsetup =>
    unfold addressSetup at h
    dsimp only at h
    split_ifs at h
    · cases h
      exact hfine
    · cases h
      exact hfine
    · cases h
      exact hfine
    · simp only [bind_eq_ret, Prod.exists] at h
      obtain ⟨_, sess₀, _, _, hget, caSession, hreset, h⟩ := h
      cases h
      obtain ⟨⟨hsess, hfine'⟩, hfront⟩ := hfine.getSession hnow (by decide) hget
      refine ⟨hsess.change rfl fun hheard => ?_, hfine', .inr (hfront hlabel (by decide))⟩
      exact .inl ((CryptoAuth.resetIfTimeout_resets hreset).heard hheard)

omit hnow hfine in
theorem popHandle_eq {content content' : List UInt8} (h : popHandle msg sess content = .ret (sess', content')) :
    sess'.paths = sess.paths ∧ sess'.caSession = sess.caSession := by
  unfold popHandle at h
  split at h
  · simp only [bind_eq_ret] at h
    obtain ⟨_, -, h⟩ := h
    cases h
    exact ⟨rfl, rfl⟩
  · cases h
    exact ⟨rfl, rfl⟩

theorem State.Fine.incomingFromSwitchIf (hlabel : msg.nonceOrHandle ≠ 0xffffffff → msg.label ≠ 0)
    (h : incomingFromSwitchIf now msg sm = .ret (sm', outs)) : sm'.Fine now := by
  unfold SessionManager.incomingFromSwitchIf at h
  split at h
  · cases h
    exact hfine
  split at h
  · cases h
    exact hfine
  next hdata =>
  split at h
  · cases h
    exact hfine
  simp only [bind_eq_ret] at h
  obtain ⟨_, -, addressed, haddress, h⟩ := h
  have haddressed := hfine.address hnow (hlabel hdata) haddress
  cases addressed with
  | drop sm₀ =>
    cases h
    exact haddressed
  | found index sess sm₀ outs₀ =>
    obtain ⟨hsess, hfine₀, hkind⟩ := haddressed
    simp only [bind_eq_ret, Prod.exists] at h
    obtain ⟨err, caSession, content, hdecrypt, h⟩ := h
    have hheard : Session.Fine now { sess with caSession } :=
      hsess.change rfl fun hheard => hkind.imp_left fun hfour => CryptoAuth.decrypt_heard hfour hdecrypt hheard
    split at h
    · cases h
      exact hfine₀.set hheard _
    · simp only [passUp, bind_eq_ret, Prod.exists] at h
      obtain ⟨_, _, ⟨sess₁, payload, hpop, _, -, hup⟩, h⟩ := h
      cases hup
      cases h
      exact hfine₀.set ((hheard.congr (popHandle_eq hpop)).discoverPath (by decide)) _

/-! ## Messages to the switch -/

/-- Nothing goes to the label zero. -/
def Sent.Labelled : Sent C → Prop
  | .data sh _ _ => sh.label ≠ 0
  | _ => True

omit hnow hfine

variable {draw : Draw} {routed : Routed} {sent : Sent C}

theorem readyToSend_cases {ca : Context} (h : readyToSend now draw routed ca sess = .ret (sess', sent)) :
    (sess.Fine now → sess'.Fine now) ∧
      (routed.header.sh.label ≠ 0 ∨ (firstPath sess).label ≠ 0 → sent.Labelled) := by
  simp only [readyToSend, bind_eq_ret, Prod.exists] at h
  obtain ⟨ca₀, hreset, ca₁, packet, hencrypt, h⟩ := h
  cases h
  refine ⟨fun hsess => hsess.change rfl fun hheard => .inl ?_, fun hlabel => ?_⟩
  · exact (CryptoAuth.resetIfTimeout_resets hreset).heard (CryptoAuth.encrypt_heard hencrypt hheard)
  · simp only [Sent.Labelled]
    split
    next hzero => exact hlabel.resolve_left (not_not_intro hzero)
    next hne => exact hne

theorem bufferPacket_ifaceMap (h : bufferPacket now routed sm = .ret sm') : sm'.ifaceMap = sm.ifaceMap := by
  simp only [bufferPacket, bind_eq_ret] at h
  obtain ⟨_, -, _, -, h⟩ := h
  split_ifs at h
  · cases h
    rfl
  · cases h
    rfl
  · cases h
    rfl

theorem State.Fine.bufferPacket (hfine : sm.Fine now) (h : bufferPacket now routed sm = .ret sm') : sm'.Fine now := by
  unfold State.Fine
  rw [bufferPacket_ifaceMap h]
  exact hfine

theorem State.Fine.needsLookup (hfine : sm.Fine now) (h : needsLookup now routed sm = .ret (sm', outs)) :
    sm'.Fine now := by
  simp only [SessionManager.needsLookup, bind_eq_ret] at h
  obtain ⟨sm₀, hbuffer, h⟩ := h
  cases h
  exact hfine.bufferPacket hbuffer

/-- A path to send to is not the label zero. -/
theorem labelled_ne_zero {routed' : Routed} (hsess : sess.Fine now) (h : labelled routed sess = some routed') :
    routed'.header.sh.label ≠ 0 := by
  unfold labelled at h
  split at h
  next hheader =>
    cases h
    exact hheader
  split at h
  next halive =>
    cases h
    intro hzero
    exact absurd (hsess.front hzero).1 (Nat.ne_of_lt halive)
  · cases h

theorem State.Fine.sendTo (hfine : sm.Fine now) (hsess : sess.Fine now) (hlabel : routed.header.sh.label ≠ 0)
    (h : sendTo now draw routed index sess sm = .ret (sm', outs, sent)) : sm'.Fine now ∧ sent.Labelled := by
  simp only [SessionManager.sendTo, bind_eq_ret] at h
  obtain ⟨caSession, hreset, h⟩ := h
  have hsess₁ : Session.Fine now { sess with caSession } :=
    hsess.change rfl fun hheard => .inl ((CryptoAuth.resetIfTimeout_resets hreset).heard hheard)
  have hfine₁ := hfine.set hsess₁ index
  split at h
  · obtain ⟨sm₀, hbuffer, h⟩ := bind_inv h
    obtain ⟨outs, -, h⟩ := bind_inv h
    cases h
    exact ⟨hfine₁.bufferPacket hbuffer, trivial⟩
  · obtain ⟨outs, -, h⟩ := bind_inv h
    obtain ⟨⟨sess₂, sent₂⟩, hready, h⟩ := bind_inv h
    cases h
    obtain ⟨hsess₂, hsent⟩ := readyToSend_cases hready
    exact ⟨hfine₁.set (hsess₂ hsess₁) index, hsent (.inl hlabel)⟩

theorem State.Fine.sendIn (hfine : sm.Fine now) (hsess : sess.Fine now)
    (h : sendIn now draw routed index sess sm = .ret (sm', outs, sent)) : sm'.Fine now ∧ sent.Labelled := by
  unfold SessionManager.sendIn at h
  dsimp only at h
  generalize (if routed.header.version ≠ 0 then routed.header.version else sess.version) = version at h
  generalize (if routed.header.isPathfinder = true then sess.timeOfLastUsage else now) = timeOfLastUsage at h
  have hsess₁ : Session.Fine now { sess with timeOfLastUsage, version } := hsess.congr ⟨rfl, rfl⟩
  have hfine₁ := hfine.set hsess₁ index
  split at h
  · simp only [bind_eq_ret, Prod.exists] at h
    obtain ⟨sm₀, outs₀, hlookup, h⟩ := h
    cases h
    exact ⟨hfine₁.needsLookup hlookup, trivial⟩
  next routed' hlabelled =>
    split at hlabelled
    · cases hlabelled
    · exact hfine₁.sendTo hsess₁ (labelled_ne_zero hsess₁ hlabelled) h

include hnow hfine

theorem State.Fine.sessionForHeader {header : RouteHeader}
    (h : sessionForHeader now header sm = .ret (some (index, sess, sm', outs))) : sess.Fine now ∧ sm'.Fine now := by
  simp only [SessionManager.sessionForHeader, bind_eq_ret] at h
  obtain ⟨found, hfound, h⟩ := h
  cases found with
  | some found =>
    cases h
    exact hfine.sessionAt hfound
  | none =>
    dsimp only at h
    split at h
    · simp only [bind_eq_ret] at h
      obtain ⟨found, hget, h⟩ := h
      cases h
      refine (hfine.getSession hnow ?_ hget).1
      split
      · decide
      · decide
    · cases h

theorem State.Fine.incomingFromInsideIf (h : incomingFromInsideIf now draw routed sm = .ret (sm', outs, sent)) :
    sm'.Fine now ∧ sent.Labelled := by
  unfold SessionManager.incomingFromInsideIf at h
  split at h
  · cases h
    refine ⟨hfine, ?_⟩
    unfold outgoingCtrlFrame
    split_ifs
    · trivial
    · trivial
    · trivial
  simp only [bind_eq_ret] at h
  obtain ⟨_, -, found, hfound, h⟩ := h
  cases found with
  | none =>
    simp only [bind_eq_ret, Prod.exists] at h
    obtain ⟨sm₁, outs₁, hlookup, h⟩ := h
    cases h
    exact ⟨hfine.needsLookup hlookup, trivial⟩
  | some found =>
    obtain ⟨index, sess, sm₀, outs₀⟩ := found
    obtain ⟨hsess, hfine₀⟩ := hfine.sessionForHeader hnow hfound
    simp only [bind_eq_ret, Prod.exists] at h
    obtain ⟨sm₁, outs₁, sent₁, hsend, h⟩ := h
    cases h
    exact hfine₀.sendIn hsess hsend

theorem State.Fine.incomingFromEventIf {ev : Told}
    (h : incomingFromEventIf now draw ev sm = .ret (sm', outs, sent)) : sm'.Fine now ∧ sent.Labelled := by
  cases ev with
  | sessions =>
    cases h
    exact ⟨hfine, trivial⟩
  | node node hword =>
    simp only [SessionManager.incomingFromEventIf, bind_eq_ret] at h
    obtain ⟨found, hfound, h⟩ := h
    split at h
    · cases h
      exact ⟨hfine, trivial⟩
    simp only [bind_eq_ret, Prod.exists] at h
    obtain ⟨index, sess, sm₀, outs₀, hget, h⟩ := h
    obtain ⟨⟨hsess, hfine₀⟩, -⟩ := hfine.getSession hnow hword hget
    split at h
    · cases h
      exact ⟨hfine₀, trivial⟩
    split at h
    · cases h
      exact ⟨hfine₀, trivial⟩
    next hsetup =>
      simp only [bind_eq_ret, Prod.exists] at h
      obtain ⟨sess₁, sent₁, hready, h⟩ := h
      cases h
      obtain ⟨hsess₁, hsent⟩ := readyToSend_cases hready
      refine ⟨hfine₀.set (hsess₁ hsess) index, hsent (.inr fun hzero => ?_)⟩
      -- a session that was set up has heard from the other end
      exact (hsess.front hzero).2 (by omega)

omit hnow hfine

/-! ## Runs -/

/-- The manager, and the time in milliseconds. -/
structure World (C : Crypto) where
  now : Nat
  sm : State C

/-- The switch hands the packet to the router: an error of its own, or what it forwards to interface 1. -/
def FromSwitch (msg : Incoming C) : Prop :=
  msg.nonceOrHandle = 0xffffffff ∨ ∃ core sourceIndex packet payload,
    Switch.receiveMessage core sourceIndex packet = .forward 1 (.framed msg.switchHeader payload)

theorem FromSwitch.label_ne_zero (h : FromSwitch msg) (hdata : msg.nonceOrHandle ≠ 0xffffffff) : msg.label ≠ 0 := by
  obtain ⟨core, sourceIndex, packet, payload, hforward⟩ := h.resolve_left hdata
  unfold Incoming.label
  rw [Bits.bitReverse64_eq]
  exact fun hzero => Switch.receiveMessage_router_label hforward (BitVec.reverse_eq_zero_iff.mp hzero)

/-- What happens: time passes, a handler of the manager is called, or `getSession` or `discoverPath` by itself,
with any arguments, or the timer runs. A call that fails an assertion ends the node, and is no step. -/
inductive Step : World C → World C → Prop where
  | wait {w : World C} (milliseconds : Nat) : Step w { w with now := w.now + milliseconds }
  | getSession {w : World C} {ip6 pubKey version label} {metric : UInt32} {index sess sm outs}
      (h : SessionManager.getSession w.now ip6 pubKey version label metric.toNat w.sm = .ret (index, sess, sm, outs)) :
      Step w { w with sm }
  | discoverPath {w : World C} {index e} (label : BitVec 64) (metric : UInt32)
      (he : w.sm.ifaceMap.entries[index]? = some e) :
      Step w
        { w with
          sm := { w.sm with
            ifaceMap := w.sm.ifaceMap.set index (SessionManager.discoverPath w.now e.value label metric.toNat).2.1 } }
  | fromSwitch {w : World C} {msg : Incoming C} {sm outs} (hswitch : FromSwitch msg)
      (h : incomingFromSwitchIf w.now msg w.sm = .ret (sm, outs)) :
      Step w { w with sm }
  | fromInside {w : World C} {draw msg sm outs sent}
      (h : incomingFromInsideIf w.now draw msg w.sm = .ret (sm, outs, sent)) :
      Step w { w with sm }
  | fromEvent {w : World C} {draw ev sm outs sent}
      (h : incomingFromEventIf w.now draw ev w.sm = .ret (sm, outs, sent)) :
      Step w { w with sm }
  -- sessions end, and the others keep their paths and their keys
  | timer {w : World C} {sm} (h : ∀ e' ∈ sm.ifaceMap.entries, ∃ e ∈ w.sm.ifaceMap.entries,
        e'.value.paths = e.value.paths ∧ e'.value.caSession = e.value.caSession) : Step w { w with sm }

theorem State.Fine.step {w w' : World C} (hnow : 2 ^ 32 ≤ w.now) (h : w.sm.Fine w.now)
    (hstep : Step w w') : 2 ^ 32 ≤ w'.now ∧ w'.sm.Fine w'.now := by
  cases hstep with
  | wait milliseconds =>
    have hle := Nat.le_add_right w.now milliseconds
    exact ⟨hnow.trans hle, fun e he => (h e he).imp fun reports hreported => hreported.wait hle⟩
  | getSession hget => exact ⟨hnow, (h.getSession hnow (UInt32.toNat_lt _) hget).1.2⟩
  | @discoverPath _ e label metric he =>
    exact ⟨hnow, h.set ((h e (mem_of_getElem? he)).discoverPath metric.toNat_lt) _⟩
  | fromSwitch hswitch hcall => exact ⟨hnow, h.incomingFromSwitchIf hnow hswitch.label_ne_zero hcall⟩
  | fromInside hcall => exact ⟨hnow, (h.incomingFromInsideIf hnow hcall).1⟩
  | fromEvent hcall => exact ⟨hnow, (h.incomingFromEventIf hnow hcall).1⟩
  | timer hkept =>
    refine ⟨hnow, fun e' he' => ?_⟩
    obtain ⟨e, he, hsame⟩ := hkept e' he'
    exact (h e he).congr hsame

variable {w : World C} {past : List (World C)}

/-- A manager that has just been started. -/
def atStart : World Symbolic.crypto := ⟨2 ^ 32, .new _ (Symbolic.node 9) 4⟩

end SessionManager

end Hyperboria
