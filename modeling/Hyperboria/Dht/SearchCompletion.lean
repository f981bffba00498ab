/-
How a search ends. The callback of a search is told of every answer, and at last of the end
with no sender and 0 milliseconds. But a request that times out is told the same way, with no
sender; and a search is turned down only when there are more than `maxConcurrentSearches`.

The searches are followed on a board that has the limits and counters of each (`Board`), and
what was seen of a search is its `Life`. `completion_iff` says in which runs the protocol is kept.
-/
import Hyperboria.Dht.SearchRunner

namespace Hyperboria.SearchRunner

open List

/-! ## The protocol -/

/-- What was seen of one search. -/
def history (n : Nat) (log : List Act) : List Act := log.filter fun act => act.search = n

/-- The calls of the callback, in order: the milliseconds and the sender. -/
def calls (log : List Act) : List (Nat × Option Address) :=
  log.filterMap fun
    | .call _ milliseconds sender => some (milliseconds, sender)
    | _ => none

/-- How many requests were sent. -/
def requestCount (log : List Act) : Nat := log.countP fun | .request _ _ => true | _ => false

/-- How many turns `searchStep` took. -/
def turnCount (log : List Act) : Nat := log.countP fun | .turn _ => true | _ => false

/-- How many searches were started. -/
def startCount (log : List Act) : Nat := log.countP fun | .started _ _ _ _ => true | _ => false

/-- How many searches were freed. -/
def freeCount (log : List Act) : Nat := log.countP fun | .freed _ => true | _ => false

/-- No call was without a sender. -/
def Calm (log : List Act) : Prop := ∀ c ∈ calls log, c.2 ≠ none

/-- After the target has answered, requests are sent only as long as there are no more than this in all. -/
def Bounded (n limit : Nat) (h : List Act) : Prop :=
  ∀ before after, h = before ++ after → .found n ∈ before → requestCount after = 0 ∨ requestCount h ≤ limit

/-- The protocol of a search with these limits: a call without a sender is the last one, of 0
milliseconds, and there is one if and only if the search is over; no more requests are sent than the
limits allow; and after more turns than requests are allowed the search is over. -/
structure Orderly (n : Nat) (callback : Bool) (maxRequests maxRequestsIfFound : Nat) (h : List Act) : Prop where
  running : callback = true → .freed n ∉ h → Calm h
  completed : callback = true → .freed n ∈ h →
    ∃ front, calls h = front ++ [(0, none)] ∧ ∀ c ∈ front, c.2 ≠ none
  requests : requestCount h ≤ maxRequests
  ifFound : Bounded n maxRequestsIfFound h
  ends : maxRequests < turnCount h → .freed n ∈ h

/-- At no time are there more searches than this. -/
def Crowd (maxConcurrentSearches : Nat) (log : List Act) : Prop :=
  ∀ before after, log = before ++ after → startCount before ≤ freeCount before + maxConcurrentSearches

/-- The protocol of all searches. -/
structure Proper (maxConcurrentSearches : Nat) (log : List Act) : Prop where
  orderly : ∀ n callback maxRequests maxRequestsIfFound,
    .started n callback maxRequests maxRequestsIfFound ∈ log →
    Orderly n callback maxRequests maxRequestsIfFound (history n log)
  concurrent : Crowd maxConcurrentSearches log

/-- An event that does no harm: no request of a search with a callback times out, and no search is started
when there are as many as there may be. -/
def Fine (r : Runner) : Event → Prop
  | .search _ _ _ _ nodes => nodes ≠ [] → r.searches ≠ r.maxConcurrentSearches
  | .requestTimeout handle _ => ∀ s q, r.requested handle = some (s, q) → s.callback = false
  | .reply .. | .continueTimeout _ => True

/-- Events that do no harm when they come. -/
def FineRun (C : Crypto) (r : Runner) : List Event → Prop
  | [] => True
  | event :: events => Fine r event ∧ ∀ r' acts, step C r event = .ret (r', acts) → FineRun C r' events

/-! ## Counting -/

variable {n : Nat} {acts log : List Act}

theorem history_append :
    history n (log ++ acts) = history n log ++ history n acts := filter_append ..

theorem calls_append : calls (log ++ acts) = calls log ++ calls acts :=
  filterMap_append ..

theorem requestCount_append :
    requestCount (log ++ acts) = requestCount log + requestCount acts := countP_append ..

theorem turnCount_append : turnCount (log ++ acts) = turnCount log + turnCount acts :=
  countP_append ..

theorem startCount_append : startCount (log ++ acts) = startCount log + startCount acts :=
  countP_append ..

theorem freeCount_append : freeCount (log ++ acts) = freeCount log + freeCount acts :=
  countP_append ..

theorem calm_append : Calm (log ++ acts) ↔ Calm log ∧ Calm acts := by
  unfold Calm
  rw [calls_append]
  exact forall_mem_append

theorem history_self (h : ∀ act ∈ acts, act.search = n) : history n acts = acts :=
  filter_eq_self.mpr fun act hact => decide_eq_true (h act hact)

theorem history_other {n m} (h : ∀ act ∈ acts, act.search = n) (hm : m ≠ n) :
    history m acts = [] :=
  filter_eq_nil_iff.mpr fun act hact => by
    rw [h act hact, decide_eq_true_iff]
    exact hm.symm

variable {limit : Nat}

theorem Crowd.append_iff (hstart : startCount acts = 0) :
    Crowd limit (log ++ acts) ↔ Crowd limit log := by
  constructor
  · intro h before after hlog
    exact h before (after ++ acts) (by rw [hlog, append_assoc])
  · intro h before after hlog
    cases append_eq_append_iff.mp hlog with
    | inl hlonger =>
      obtain ⟨more, rfl, hacts⟩ := hlonger
      have hmore : startCount more = 0 := by
        rw [hacts, startCount_append] at hstart
        omega
      have hall := h log [] (append_nil _).symm
      rw [startCount_append, freeCount_append]
      omega
    | inr hshorter =>
      obtain ⟨rest, rfl, -⟩ := hshorter
      exact h before rest rfl

theorem Crowd.started_iff {limit n maxRequests maxRequestsIfFound} {callback} :
    Crowd limit (log ++ [.started n callback maxRequests maxRequestsIfFound]) ↔
      Crowd limit log ∧ startCount log + 1 ≤ freeCount log + limit := by
  constructor
  · intro h
    refine ⟨fun before after hlog => ?_, ?_⟩
    · exact h before (after ++ [_]) (by rw [hlog, append_assoc])
    · have hall := h _ [] (append_nil _).symm
      rw [startCount_append, freeCount_append] at hall
      exact hall
  · intro h before after hlog
    obtain ⟨hcrowd, hroom⟩ := h
    cases append_eq_append_iff.mp hlog with
    | inl hlonger =>
      obtain ⟨more, rfl, hacts⟩ := hlonger
      have hone : startCount more ≤ 1 := by
        have hcount := congrArg startCount hacts
        rw [startCount_append] at hcount
        change 1 = _ at hcount
        omega
      rw [startCount_append, freeCount_append]
      omega
    | inr hshorter =>
      obtain ⟨rest, rfl, -⟩ := hshorter
      exact hcrowd before rest rfl

/-! ## The life of a search -/

/-- The limits and the counters of a search. -/
structure Tally where
  number : Nat
  callback : Bool
  maxRequests : Nat
  maxRequestsIfFound : Nat
  totalRequests : Nat
  numFinds : Nat

/-- What can have been seen of a search that is not over. -/
inductive Life : Tally → List Act → Prop where
  | started {t : Tally} (htotal : t.totalRequests = 0) (hfinds : t.numFinds = 0) :
    Life t [.started t.number t.callback t.maxRequests t.maxRequestsIfFound]
  | found {t : Tally} {h : List Act} (hlife : Life t h) :
    Life { t with numFinds := t.numFinds + 1 } (h ++ [.found t.number])
  | call {t : Tally} {h : List Act} (hlife : Life t h) (hcallback : t.callback = true) (milliseconds : Nat)
    (sender : Option Address) : Life t (h ++ [.call t.number milliseconds sender])
  | asked {t : Tally} {h : List Act} (hlife : Life t h) (htotal : t.totalRequests < t.maxRequests)
    (hfound : 0 < t.numFinds → t.totalRequests < t.maxRequestsIfFound) (address : Address) :
    Life { t with totalRequests := t.totalRequests + 1 } (h ++ [.turn t.number, .request t.number address])

/-- What is seen of a search at its end. -/
def Tally.ending (t : Tally) : List Act :=
  .turn t.number :: (if t.callback then [.call t.number 0 none] else []) ++ [.freed t.number]

/-- What was seen of a search agrees with its counters. -/
structure Told (t : Tally) (h : List Act) : Prop where
  requests : requestCount h = t.totalRequests
  turns : turnCount h = t.totalRequests
  total_le : t.totalRequests ≤ t.maxRequests
  freed : .freed t.number ∉ h
  found : .found t.number ∈ h → 0 < t.numFinds
  started : ∀ n callback maxRequests maxRequestsIfFound, .started n callback maxRequests maxRequestsIfFound ∈ h ↔
    n = t.number ∧ callback = t.callback ∧ maxRequests = t.maxRequests ∧ maxRequestsIfFound = t.maxRequestsIfFound

variable {t : Tally} {h : List Act}

theorem Life.told (hlife : Life t h) : Told t h := by
  induction hlife with
  | started htotal hfinds =>
    refine ⟨htotal.symm, htotal.symm, htotal.symm ▸ Nat.zero_le _, by simp, by simp, fun _ _ _ _ => ?_⟩
    rw [mem_singleton, Act.started.injEq]
  | found _ ih =>
    refine ⟨?_, ?_, ih.total_le, ?_, fun _ => Nat.succ_pos _, fun n cb a b => ?_⟩
    · rw [requestCount_append, ih.requests]
      rfl
    · rw [turnCount_append, ih.turns]
      rfl
    · simp [ih.freed]
    · simp [ih.started]
  | call _ hcallback milliseconds sender ih =>
    refine ⟨?_, ?_, ih.total_le, ?_, ?_, fun n cb a b => ?_⟩
    · rw [requestCount_append, ih.requests]
      rfl
    · rw [turnCount_append, ih.turns]
      rfl
    · simp [ih.freed]
    · simpa using ih.found
    · simp [ih.started]
  | asked _ htotal hfound address ih =>
    refine ⟨?_, ?_, htotal, ?_, ?_, fun n cb a b => ?_⟩
    · rw [requestCount_append, ih.requests]
      rfl
    · rw [turnCount_append, ih.turns]
      rfl
    · simp [ih.freed]
    · simpa using ih.found
    · simp [ih.started]

theorem Bounded.snoc (hbounded : Bounded n limit h) {act} (hact : requestCount [act] = 0) :
    Bounded n limit (h ++ [act]) := by
  intro before after heq hfound
  cases eq_nil_or_concat after with
  | inl hnil => exact .inl (by rw [hnil]; rfl)
  | inr hlast =>
    obtain ⟨init, last, rfl⟩ := hlast
    rw [concat_eq_append, ← append_assoc] at heq
    obtain ⟨hh, hact'⟩ := append_inj' heq rfl
    rw [concat_eq_append, ← hact', requestCount_append, requestCount_append, hact]
    exact hbounded before init hh hfound

theorem Life.bounded (hlife : Life t h) : Bounded t.number t.maxRequestsIfFound h := by
  induction hlife with
  | started _ _ =>
    intro before after heq hfound
    have hin := heq ▸ mem_append_left after hfound
    simp at hin
  | found _ ih => exact ih.snoc rfl
  | call _ _ _ _ ih => exact ih.snoc rfl
  | @asked t h hlife htotal hlimit address ih =>
    intro before after heq hfound
    have hin : .found t.number ∈ h ++ [.turn t.number, .request t.number address] :=
      heq ▸ mem_append_left _ hfound
    have hfinds := hlife.told.found (by simpa using hin)
    rw [requestCount_append, hlife.told.requests]
    exact .inr (hlimit hfinds)

/-- The part of the protocol that a search always keeps, over or not. -/
theorem Life.orderly_iff (hlife : Life t h) :
    Orderly t.number t.callback t.maxRequests t.maxRequestsIfFound h ↔ (t.callback = true → Calm h) := by
  have htold := hlife.told
  constructor
  · intro horderly hcallback
    exact horderly.running hcallback htold.freed
  · intro hcalm
    refine ⟨fun hcallback _ => hcalm hcallback, fun _ hfreed => absurd hfreed htold.freed, ?_, hlife.bounded, ?_⟩
    · rw [htold.requests]
      exact htold.total_le
    · rw [htold.turns]
      exact fun hlt => absurd htold.total_le (by omega)

theorem Life.ending_orderly_iff (hlife : Life t h) :
    Orderly t.number t.callback t.maxRequests t.maxRequestsIfFound (h ++ t.ending) ↔
      (t.callback = true → Calm h) := by
  have htold := hlife.told
  have hfreed : .freed t.number ∈ h ++ t.ending :=
    mem_append_right _ (mem_append_right _ mem_cons_self)
  have hcalls : t.callback = true → calls (h ++ t.ending) = calls h ++ [(0, none)] := by
    intro hcallback
    rw [calls_append, Tally.ending, hcallback]
    rfl
  have hrequests : requestCount t.ending = 0 := by
    unfold Tally.ending
    cases t.callback <;> rfl
  constructor
  · intro horderly hcallback
    obtain ⟨front, hfront, hcalm⟩ := horderly.completed hcallback hfreed
    rw [hcalls hcallback] at hfront
    unfold Calm
    rw [(append_inj' hfront rfl).1]
    exact hcalm
  · intro hcalm
    refine ⟨fun _ hnot => absurd hfreed hnot, fun hcallback _ => ⟨_, hcalls hcallback, hcalm hcallback⟩, ?_, ?_,
      fun _ => hfreed⟩
    · rw [requestCount_append, htold.requests, hrequests]
      exact htold.total_le
    · intro before after heq hfound
      rw [requestCount_append]
      cases append_eq_append_iff.mp heq with
      | inl hlonger =>
        obtain ⟨more, -, hmore⟩ := hlonger
        refine .inl ?_
        rw [hmore, requestCount_append] at hrequests
        omega
      | inr hshorter =>
        obtain ⟨rest, hh, rfl⟩ := hshorter
        rw [requestCount_append, hrequests]
        exact hlife.bounded before rest hh hfound

/-- The protocol of the search `n`, as far as it was started. -/
def Kept (n : Nat) (h : List Act) : Prop :=
  ∀ callback maxRequests maxRequestsIfFound, .started n callback maxRequests maxRequestsIfFound ∈ h →
    Orderly n callback maxRequests maxRequestsIfFound h

theorem proper_iff :
    Proper limit log ↔ (∀ n, Kept n (history n log)) ∧ Crowd limit log := by
  have hmem : ∀ n cb a b, Act.started n cb a b ∈ history n log ↔ .started n cb a b ∈ log := fun n cb a b => by
    simp [history, Act.search]
  constructor
  · intro h
    exact ⟨fun n cb a b hstart => h.orderly n cb a b ((hmem n cb a b).mp hstart), h.concurrent⟩
  · intro h
    exact ⟨fun n cb a b hstart => h.1 n cb a b ((hmem n cb a b).mpr hstart), h.2⟩

theorem Life.kept_iff (hlife : Life t h) :
    Kept t.number h ↔ (t.callback = true → Calm h) := by
  rw [← hlife.orderly_iff]
  constructor
  · intro hkept
    exact hkept _ _ _ ((hlife.told.started _ _ _ _).mpr ⟨rfl, rfl, rfl, rfl⟩)
  · intro horderly cb a b hstart
    obtain ⟨-, rfl, rfl, rfl⟩ := (hlife.told.started _ _ _ _).mp hstart
    exact horderly

theorem Life.ending_kept_iff (hlife : Life t h) :
    Kept t.number (h ++ t.ending) ↔ (t.callback = true → Calm h) := by
  rw [← hlife.ending_orderly_iff]
  constructor
  · intro hkept
    exact hkept _ _ _ (mem_append_left _ ((hlife.told.started _ _ _ _).mpr ⟨rfl, rfl, rfl, rfl⟩))
  · intro horderly cb a b hstart
    have hin : .started t.number cb a b ∈ h := by
      unfold Tally.ending at hstart
      cases hcallback : t.callback <;> simpa [hcallback] using hstart
    obtain ⟨-, rfl, rfl, rfl⟩ := (hlife.told.started _ _ _ _).mp hin
    exact horderly

/-! ## The board -/

/-- The searches, with no more of each than is counted. -/
structure Board where
  searches : Nat
  maxConcurrentSearches : Nat
  nextNumber : Nat
  tallies : List Tally

/-- A search has changed. -/
def Board.put (b : Board) (t : Tally) : Board :=
  { b with tallies := b.tallies.map fun u => if u.number = t.number then t else u }

/-- A search is over. -/
def Board.erase (b : Board) (n : Nat) : Board :=
  { b with searches := b.searches - 1, tallies := b.tallies.filter fun u => u.number ≠ n }

/-- The search after an answer, which was the target's or not. -/
def Tally.hears (t : Tally) (found : Bool) : Tally :=
  { t with numFinds := if found then t.numFinds + 1 else t.numFinds }

/-- What is seen of an answer or of a timeout, before the search goes on. -/
def Tally.heard (t : Tally) (found : Bool) (told : Option (Nat × Option Address)) : List Act :=
  (if found then [.found t.number] else []) ++
    match told with
    | none => []
    | some (milliseconds, sender) => if t.callback then [.call t.number milliseconds sender] else []

/-- The callback is told of a timeout. -/
def Tally.Lost (t : Tally) (told : Option (Nat × Option Address)) : Prop :=
  t.callback = true ∧ ∃ milliseconds, told = some (milliseconds, none)

theorem Tally.not_lost_sender {milliseconds} {sender} :
    ¬ t.Lost (some (milliseconds, some sender)) := by
  intro hlost
  obtain ⟨-, ms, hms⟩ := hlost
  cases hms

theorem Tally.not_lost_none : ¬ t.Lost none := by
  intro hlost
  obtain ⟨-, ms, hms⟩ := hlost
  cases hms

/-- What can happen on the board, what is seen of it, and whether it does no harm. -/
inductive Move (b : Board) : Board → List Act → Prop → Prop where
  | idle : Move b b [] True
  | touched {t : Tally} (ht : t ∈ b.tallies) : Move b (b.put t) [] True
  | started {t : Tally} (hnumber : t.number = b.nextNumber) (htotal : t.totalRequests = 0) (hfinds : t.numFinds = 0)
    (hroom : b.searches ≤ b.maxConcurrentSearches) :
    Move b { b with searches := b.searches + 1, nextNumber := b.nextNumber + 1, tallies := t :: b.tallies }
      [.started t.number t.callback t.maxRequests t.maxRequestsIfFound] (b.searches ≠ b.maxConcurrentSearches)
  | asked {t : Tally} (ht : t ∈ b.tallies) (found : Bool) (told : Option (Nat × Option Address))
    (htotal : t.totalRequests < t.maxRequests)
    (hfound : 0 < (t.hears found).numFinds → t.totalRequests < t.maxRequestsIfFound) (address : Address) :
    Move b (b.put { t.hears found with totalRequests := t.totalRequests + 1 })
      (t.heard found told ++ [.turn t.number, .request t.number address]) (¬ t.Lost told)
  | finished {t : Tally} (ht : t ∈ b.tallies) (found : Bool) (told : Option (Nat × Option Address)) :
    Move b (b.erase t.number) (t.heard found told ++ t.ending) (¬ t.Lost told)

/-- The board and what was seen agree. -/
structure Inv (b : Board) (log : List Act) : Prop where
  alive : ∀ t ∈ b.tallies, Life t (history t.number log)
  distinct : (b.tallies.map Tally.number).Nodup
  below : ∀ t ∈ b.tallies, t.number < b.nextNumber
  unborn : ∀ n, b.nextNumber ≤ n → history n log = []
  searches : b.searches = b.tallies.length
  count : startCount log = freeCount log + b.tallies.length

variable {found : Bool} {told : Option (Nat × Option Address)}

theorem Tally.search_heard :
    ∀ act ∈ t.heard found told, act.search = t.number := by
  unfold Tally.heard
  cases found <;> cases hcallback : t.callback <;> rcases told with _ | ⟨ms, sender⟩ <;> simp [Act.search]

theorem Tally.search_ending : ∀ act ∈ t.ending, act.search = t.number := by
  unfold Tally.ending
  cases hcallback : t.callback <;> simp [Act.search]

theorem Tally.startCount_heard :
    startCount (t.heard found told) = 0 ∧ freeCount (t.heard found told) = 0 := by
  unfold Tally.heard
  cases found <;> cases hcallback : t.callback <;> rcases told with _ | ⟨ms, sender⟩ <;> simp [startCount, freeCount]

theorem Tally.count_ending : startCount t.ending = 0 ∧ freeCount t.ending = 1 := by
  unfold Tally.ending
  cases hcallback : t.callback <;> simp [startCount, freeCount]

theorem Life.heard (hlife : Life t h) (found : Bool) (told : Option (Nat × Option Address)) :
    Life (t.hears found) (h ++ t.heard found told) := by
  have htold : ∀ {u} {h}, Life u h → Life u (h ++ match told with
      | none => []
      | some (milliseconds, sender) => if u.callback then [.call u.number milliseconds sender] else []) := by
    intro u h hlife
    rcases told with _ | ⟨milliseconds, sender⟩
    · rw [append_nil]
      exact hlife
    · dsimp only
      split
      next hcallback => exact hlife.call hcallback milliseconds sender
      · rw [append_nil]
        exact hlife
  unfold Tally.heard
  rw [← append_assoc]
  cases found with
  | true => exact @htold (t.hears true) _ hlife.found
  | false => exact @htold (t.hears false) _ (by rw [if_neg Bool.false_ne_true, append_nil]; exact hlife)

/-- The callback hears of an answer unless it is told of a timeout. -/
theorem Tally.calm_heard_iff :
    (t.callback = true → Calm (t.heard found told)) ↔ ¬ t.Lost told := by
  unfold Tally.heard Tally.Lost Calm
  rcases told with _ | ⟨milliseconds, _ | sender⟩ <;> cases found <;> cases hcallback : t.callback <;>
    simp [calls]

theorem Life.calm_heard_iff (hlife : Life t h) (found : Bool) (told : Option (Nat × Option Address)) :
    (t.callback = true → Calm (h ++ t.heard found told)) ↔ Kept t.number h ∧ ¬ t.Lost told := by
  rw [hlife.kept_iff, ← @Tally.calm_heard_iff t found told, ← imp_and]
  simp only [calm_append]

theorem Life.asked_kept_iff (hlife : Life t h) (found : Bool) (told : Option (Nat × Option Address))
    (htotal : t.totalRequests < t.maxRequests)
    (hfound : 0 < (t.hears found).numFinds → t.totalRequests < t.maxRequestsIfFound) (address : Address) :
    Kept t.number (h ++ (t.heard found told ++ [.turn t.number, .request t.number address])) ↔
      Kept t.number h ∧ ¬ t.Lost told := by
  have hkept : Kept t.number (h ++ t.heard found told ++ [.turn t.number, .request t.number address]) ↔
      (t.callback = true → Calm (h ++ t.heard found told ++ [.turn t.number, .request t.number address])) :=
    ((hlife.heard found told).asked htotal hfound address).kept_iff
  have hquiet : Calm [.turn t.number, .request t.number address] := fun c hc => by simp [calls] at hc
  rw [← append_assoc, hkept, calm_append, and_iff_left hquiet, hlife.calm_heard_iff]

theorem Life.finished_kept_iff (hlife : Life t h) (found : Bool) (told : Option (Nat × Option Address)) :
    Kept t.number (h ++ (t.heard found told ++ t.ending)) ↔ Kept t.number h ∧ ¬ t.Lost told := by
  rw [← append_assoc, ← hlife.calm_heard_iff]
  exact (hlife.heard found told).ending_kept_iff

variable {b : Board}

theorem Inv.put (h : Inv b log) {t t'} (ht : t ∈ b.tallies) (hnumber : t'.number = t.number)
    (hacts : ∀ act ∈ acts, act.search = t.number) (hlife : Life t' (history t.number log ++ acts))
    (hcount : startCount acts = 0 ∧ freeCount acts = 0) :
    Inv (b.put t') (log ++ acts) := by
  have hnumbers : (b.put t').tallies.map Tally.number = b.tallies.map Tally.number := by
    unfold Board.put
    rw [map_map]
    refine map_congr_left fun u _ => ?_
    dsimp [Function.comp]
    split
    next heq => exact heq.symm
    · rfl
  have hmem : ∀ u ∈ (b.put t').tallies, u = t' ∨ u ∈ b.tallies ∧ u.number ≠ t.number := by
    intro u hu
    obtain ⟨v, hv, rfl⟩ := mem_map.mp hu
    split
    · exact .inl rfl
    next hne => exact .inr ⟨hv, hnumber ▸ hne⟩
  refine ⟨fun u hu => ?_, hnumbers ▸ h.distinct, fun u hu => ?_, fun n hn => ?_, ?_, ?_⟩
  · rw [history_append]
    rcases hmem u hu with rfl | ⟨hold, hne⟩
    · rw [hnumber, history_self hacts]
      exact hlife
    · rw [history_other hacts hne, append_nil]
      exact h.alive u hold
  · rcases hmem u hu with rfl | ⟨hold, -⟩
    · exact hnumber.trans_lt (h.below t ht)
    · exact h.below u hold
  · have hlt := h.below t ht
    have hn' : b.nextNumber ≤ n := hn
    rw [history_append, h.unborn n hn, history_other hacts (by omega), append_nil]
  · exact h.searches.trans (length_map _).symm
  · rw [startCount_append, freeCount_append, h.count, hcount.1, hcount.2]
    exact congrArg _ (length_map _).symm

theorem length_filter_number {tallies : List Tally} (hdistinct : (tallies.map Tally.number).Nodup) (ht : t ∈ tallies) :
    (tallies.filter fun u => u.number ≠ t.number).length + 1 = tallies.length := by
  induction tallies with
  | nil => cases ht
  | cons u tallies ih =>
    rw [map_cons, nodup_cons] at hdistinct
    obtain ⟨hnew, hdistinct⟩ := hdistinct
    by_cases hu : u.number = t.number
    · have hall : (tallies.filter fun u => u.number ≠ t.number) = tallies := by
        refine filter_eq_self.mpr fun v hv => decide_eq_true fun hvt => hnew ?_
        exact mem_map.mpr ⟨v, hv, hvt.trans hu.symm⟩
      rw [filter_cons_of_neg (by simp [hu]), hall, length_cons]
    · have hin : t ∈ tallies := (mem_cons.mp ht).resolve_left fun heq => hu (heq ▸ rfl)
      rw [filter_cons_of_pos (by simp [hu]), length_cons, length_cons, ih hdistinct hin]

theorem Inv.erase (h : Inv b log) (ht : t ∈ b.tallies) (hacts : ∀ act ∈ acts, act.search = t.number)
    (hcount : startCount acts = 0 ∧ freeCount acts = 1) :
    Inv (b.erase t.number) (log ++ acts) := by
  have hmem : ∀ u ∈ (b.erase t.number).tallies, u ∈ b.tallies ∧ u.number ≠ t.number := by
    intro u hu
    obtain ⟨hold, hne⟩ := mem_filter.mp hu
    exact ⟨hold, of_decide_eq_true hne⟩
  have hlength := length_filter_number h.distinct ht
  have hsearches := h.searches
  refine ⟨fun u hu => ?_, (filter_sublist.map _).nodup h.distinct, fun u hu => h.below u (hmem u hu).1,
    fun n hn => ?_, ?_, ?_⟩
  · rw [history_append, history_other hacts (hmem u hu).2, append_nil]
    exact h.alive u (hmem u hu).1
  · have hlt := h.below t ht
    have hn' : b.nextNumber ≤ n := hn
    rw [history_append, h.unborn n hn, history_other hacts (by omega), append_nil]
  · unfold Board.erase
    dsimp only
    omega
  · unfold Board.erase
    dsimp only
    rw [startCount_append, freeCount_append, h.count]
    omega

theorem Inv.start (h : Inv b log) (hnumber : t.number = b.nextNumber) (htotal : t.totalRequests = 0)
    (hfinds : t.numFinds = 0) :
    Inv { b with searches := b.searches + 1, nextNumber := b.nextNumber + 1, tallies := t :: b.tallies }
      (log ++ [.started t.number t.callback t.maxRequests t.maxRequestsIfFound]) := by
  have hacts : ∀ act ∈ [Act.started t.number t.callback t.maxRequests t.maxRequestsIfFound],
      act.search = t.number := by simp [Act.search]
  have hold : ∀ u ∈ b.tallies, u.number ≠ t.number := fun u hu => by
    have hlt := h.below u hu
    omega
  refine ⟨fun u hu => ?_, ?_, fun u hu => ?_, fun n hn => ?_, ?_, ?_⟩
  · rw [history_append]
    cases mem_cons.mp hu with
    | inl heq =>
      rw [heq, history_self hacts, h.unborn _ (Nat.le_of_eq hnumber.symm)]
      exact .started htotal hfinds
    | inr hin =>
      rw [history_other hacts (hold u hin), append_nil]
      exact h.alive u hin
  · rw [map_cons, nodup_cons]
    refine ⟨fun hin => ?_, h.distinct⟩
    obtain ⟨u, hu, heq⟩ := mem_map.mp hin
    exact hold u hu heq
  · cases mem_cons.mp hu with
    | inl heq =>
      rw [heq, hnumber]
      exact Nat.lt_succ_self _
    | inr hin => exact Nat.lt_succ_of_lt (h.below u hin)
  · have hn' : b.nextNumber + 1 ≤ n := hn
    rw [history_append, h.unborn n (by omega), history_other hacts (by omega), append_nil]
  · rw [length_cons]
    exact congrArg _ h.searches
  · rw [startCount_append, freeCount_append, h.count]
    rfl

variable {p : Prop}

/-- Only the protocol of the search that the acts are of is in question. -/
theorem kept_append_iff {m} (hacts : ∀ act ∈ acts, act.search = m)
    (hm : Kept m (history m log ++ acts) ↔ Kept m (history m log) ∧ p) :
    (∀ n, Kept n (history n (log ++ acts))) ↔ (∀ n, Kept n (history n log)) ∧ p := by
  have hother : ∀ n, n ≠ m → history n (log ++ acts) = history n log := fun n hn => by
    rw [history_append, history_other hacts hn, append_nil]
  have hself : history m (log ++ acts) = history m log ++ acts := by
    rw [history_append, history_self hacts]
  constructor
  · intro h
    have hm' := hm.mp (hself ▸ h m)
    refine ⟨fun n => ?_, hm'.2⟩
    by_cases hn : n = m
    · exact hn ▸ hm'.1
    · exact hother n hn ▸ h n
  · intro h n
    by_cases hn : n = m
    · rw [hn, hself]
      exact hm.mpr ⟨h.1 m, h.2⟩
    · rw [hother n hn]
      exact h.1 n

/-- One move keeps the agreement of the board, and the protocol if and only if it does no harm. -/
theorem Inv.move {b b'} (h : Inv b log) (hmove : Move b b' acts p) :
    Inv b' (log ++ acts) ∧
      (Proper b.maxConcurrentSearches (log ++ acts) ↔ Proper b.maxConcurrentSearches log ∧ p) := by
  cases hmove with
  | idle =>
    rw [append_nil, and_true]
    exact ⟨h, Iff.rfl⟩
  | touched ht =>
    refine ⟨h.put ht rfl (by simp) (by rw [append_nil]; exact h.alive _ ht) ⟨rfl, rfl⟩, ?_⟩
    rw [append_nil, and_true]
  | @started t hnumber htotal hfinds hroom =>
    have hacts : ∀ act ∈ [Act.started t.number t.callback t.maxRequests t.maxRequestsIfFound],
        act.search = t.number := by simp [Act.search]
    have hnone := h.unborn t.number (Nat.le_of_eq hnumber.symm)
    have hkept : Kept t.number (history t.number log ++ [.started t.number t.callback t.maxRequests
        t.maxRequestsIfFound]) ↔ Kept t.number (history t.number log) ∧ True := by
      rw [hnone, nil_append, (Life.started htotal hfinds).kept_iff]
      refine ⟨fun _ => ⟨fun _ _ _ hin => absurd hin not_mem_nil, trivial⟩, fun _ _ c hc => ?_⟩
      simp [calls] at hc
    have hlimit : startCount log + 1 ≤ freeCount log + b.maxConcurrentSearches ↔
        b.searches ≠ b.maxConcurrentSearches := by
      have hcount := h.count
      have hsearches := h.searches
      omega
    refine ⟨h.start hnumber htotal hfinds, ?_⟩
    rw [proper_iff, proper_iff, kept_append_iff hacts hkept, Crowd.started_iff, hlimit, and_true, and_assoc]
  | @asked t ht found told htotal hfound address =>
    have hlife := h.alive t ht
    have hlife' := (hlife.heard found told).asked htotal hfound address
    rw [append_assoc] at hlife'
    have hkept := hlife.asked_kept_iff found told htotal hfound address
    have hacts : ∀ act ∈ t.heard found told ++ [.turn t.number, .request t.number address],
        act.search = t.number := by
      intro act hact
      cases mem_append.mp hact with
      | inl hin => exact Tally.search_heard act hin
      | inr hin =>
        simp only [mem_cons, not_mem_nil, or_false] at hin
        rcases hin with rfl | rfl <;> rfl
    have hcount : startCount (t.heard found told ++ [.turn t.number, .request t.number address]) = 0 ∧
        freeCount (t.heard found told ++ [.turn t.number, .request t.number address]) = 0 := by
      rw [startCount_append, freeCount_append, Tally.startCount_heard.1, Tally.startCount_heard.2]
      exact ⟨rfl, rfl⟩
    refine ⟨h.put ht rfl hacts hlife' hcount, ?_⟩
    rw [proper_iff, proper_iff, Crowd.append_iff hcount.1, kept_append_iff hacts hkept, and_right_comm]
  | @finished t ht found told =>
    have hkept := (h.alive t ht).finished_kept_iff found told
    have hacts : ∀ act ∈ t.heard found told ++ t.ending, act.search = t.number := by
      intro act hact
      cases mem_append.mp hact with
      | inl hin => exact Tally.search_heard act hin
      | inr hin => exact Tally.search_ending act hin
    have hcount : startCount (t.heard found told ++ t.ending) = 0 ∧ freeCount (t.heard found told ++ t.ending) = 1 := by
      rw [startCount_append, freeCount_append, Tally.startCount_heard.1, Tally.startCount_heard.2,
        Tally.count_ending.1, Tally.count_ending.2]
      exact ⟨rfl, rfl⟩
    refine ⟨h.erase ht hacts hcount, ?_⟩
    rw [proper_iff, proper_iff, Crowd.append_iff hcount.1, kept_append_iff hacts hkept, and_right_comm]

/-! ## The runner on the board -/

/-- The search on the board. -/
def ActiveSearch.tally (s : ActiveSearch) : Tally :=
  { number := s.number, callback := s.callback, maxRequests := s.maxRequests
    maxRequestsIfFound := s.maxRequestsIfFound, totalRequests := s.totalRequests, numFinds := s.numFinds }

/-- The board of a runner. -/
def Runner.board (r : Runner) : Board :=
  { searches := r.searches, maxConcurrentSearches := r.maxConcurrentSearches, nextNumber := r.nextNumber
    tallies := r.active.map ActiveSearch.tally }

variable {r : Runner} {s : ActiveSearch}

theorem board_put : (r.put s).board = r.board.put s.tally := by
  have hmap : (r.active.map fun t => if t.number = s.number then s else t).map ActiveSearch.tally =
      (r.active.map ActiveSearch.tally).map fun u => if u.number = s.tally.number then s.tally else u := by
    rw [map_map, map_map]
    refine map_congr_left fun t _ => ?_
    exact apply_ite ActiveSearch.tally _ _ _
  unfold Runner.board Board.put
  rw [← hmap]
  rfl

variable {C : Crypto}

/-- The search hears of the answer of its target. -/
theorem searchReplyCallback_tally {known} {sender} {result}
    {s s'} {mill mill'} {added}
    (h : searchReplyCallback C known sender result s mill = .ret (s', mill', added)) :
    s'.tally = s.tally.hears (sender.ip6 = s.target.ip6) := by
  obtain ⟨p, -, h⟩ := Er.bind_inv h
  cases h
  unfold ActiveSearch.tally Tally.hears
  simp

variable {r' : Runner}

theorem finish_move (h : finish r s = .ret (r', acts)) (ht : t ∈ r.board.tallies) (hs : s.tally = t.hears found)
    (told : Option (Nat × Option Address)) : Move r.board r'.board (t.heard found told ++ acts) (¬ t.Lost told) := by
  obtain ⟨-, -, h⟩ := Er.bind_inv h
  cases h
  have hnumber : s.number = t.number := congrArg Tally.number hs
  have hcallback : s.callback = t.callback := congrArg Tally.callback hs
  have hmove := Move.finished ht found told
  unfold ActiveSearch.calls
  rw [hnumber, hcallback]
  unfold Board.erase Runner.board at hmove
  rw [filter_map] at hmove
  exact hmove

theorem searchStep_move (h : searchStep r s = .ret (r', acts)) (ht : t ∈ r.board.tallies)
    (hs : s.tally = t.hears found) (told : Option (Nat × Option Address)) :
    Move r.board r'.board (t.heard found told ++ acts) (¬ t.Lost told) := by
  have hnumber : s.number = t.number := congrArg Tally.number hs
  have htotal : s.totalRequests = t.totalRequests := congrArg Tally.totalRequests hs
  have hmax : s.maxRequests = t.maxRequests := congrArg Tally.maxRequests hs
  have hmaxFound : s.maxRequestsIfFound = t.maxRequestsIfFound := congrArg Tally.maxRequestsIfFound hs
  have hfinds : s.numFinds = (t.hears found).numFinds := congrArg Tally.numFinds hs
  unfold searchStep at h
  split at h
  · exact finish_move h ht hs told
  next address search hnext =>
  split at h
  · exact finish_move h ht hs told
  next hmore =>
    split at h
    · exact finish_move h ht hs told
    next hmoreFound =>
      obtain ⟨router, -, h⟩ := Er.bind_inv h
      cases h
      have hmove := Move.asked ht found told (by omega) (by omega) address
      rw [← hs, ← htotal, ← hnumber] at hmove
      rw [board_put]
      exact hmove

theorem requested_mem {handle} {q} (h : r.requested handle = some (s, q)) :
    s.tally ∈ r.board.tallies := by
  obtain ⟨t, ht, hq⟩ := exists_of_findSome?_eq_some h
  obtain ⟨q', -, heq⟩ := Option.map_eq_some_iff.mp hq
  cases heq
  exact mem_map_of_mem ht

/-- An event is a move on the board, and does no harm there if and only if the event does none. -/
theorem step_move {event} (h : step C r event = .ret (r', acts)) :
    ∃ p, Move r.board r'.board acts p ∧ (p ↔ Fine r event) := by
  cases event with
  | search target maxRequests maxRequestsIfFound callback nodes =>
    have h := Er.ret.inj h
    unfold search at h
    split at h
    next hmany =>
      cases h
      exact ⟨True, .idle, iff_of_true trivial fun _ => Nat.ne_of_gt hmany⟩
    next hroom =>
      dsimp only at h
      split at h
      next hnodes =>
        cases h
        exact ⟨True, .idle, iff_of_true trivial fun hne => absurd hnodes hne⟩
      next hnodes =>
        cases h
        refine ⟨_, .started ?_ ?_ ?_ (Nat.le_of_not_lt hroom), ⟨fun hp _ => hp, fun hp => hp hnodes⟩⟩
        · rfl
        · rfl
        · rfl
  | reply handle milliseconds sender result known =>
    unfold step at h
    dsimp only at h
    split at h
    · cases h
      exact ⟨True, .idle, Iff.rfl⟩
    next s q hreq =>
      have hs := requested_mem hreq
      split at h
      · cases h
        refine ⟨True, ?_, Iff.rfl⟩
        rw [board_put]
        exact .touched hs
      · obtain ⟨⟨s', mill, added⟩, hreply, h⟩ := Er.bind_inv h
        obtain ⟨⟨r₁, acts₁⟩, hstep, h⟩ := Er.bind_inv h
        cases h
        have htally := searchReplyCallback_tally hreply
        have hmove := searchStep_move hstep hs htally
          (some (if milliseconds = 0 then 1 else milliseconds, some sender))
        unfold Tally.heard at hmove
        simp only [decide_eq_true_eq] at hmove
        exact ⟨_, hmove, iff_of_true Tally.not_lost_sender trivial⟩
  | requestTimeout handle milliseconds =>
    unfold step at h
    dsimp only at h
    split at h
    next hreq =>
      cases h
      refine ⟨True, .idle, iff_of_true trivial fun s q hsome => ?_⟩
      rw [hreq] at hsome
      cases hsome
    next s q hreq =>
      obtain ⟨⟨r₁, acts₁⟩, hstep, h⟩ := Er.bind_inv h
      cases h
      have hmove := @searchStep_move _ _ false _ _ _ hstep (requested_mem hreq) rfl (some (milliseconds, none))
      refine ⟨_, hmove, ⟨fun hlost s' q' hsome => ?_, fun hfine hlost => ?_⟩⟩
      · rw [hreq] at hsome
        cases hsome
        exact Bool.eq_false_iff.mpr fun hcallback => hlost ⟨hcallback, milliseconds, rfl⟩
      · exact absurd hlost.1 (by rw [show s.tally.callback = s.callback from rfl, hfine s q hreq]; decide)
  | continueTimeout n =>
    unfold step at h
    dsimp only at h
    split at h
    · cases h
      exact ⟨True, .idle, Iff.rfl⟩
    next s hfind =>
      have hs : s.tally ∈ r.board.tallies := mem_map_of_mem (mem_of_find?_eq_some hfind)
      exact ⟨_, @searchStep_move _ _ false _ _ _ h hs rfl none, iff_of_true Tally.not_lost_none trivial⟩

theorem Move.maxConcurrentSearches_eq {b b'} (h : Move b b' acts p) :
    b'.maxConcurrentSearches = b.maxConcurrentSearches := by
  cases h <;> rfl

theorem steps_proper_iff {events} (hinv : Inv r.board log) (h : steps C r events = .ret (r', acts)) :
    Proper r.maxConcurrentSearches (log ++ acts) ↔ Proper r.maxConcurrentSearches log ∧ FineRun C r events := by
  induction events generalizing r log acts with
  | nil =>
    cases h
    rw [append_nil]
    exact (and_iff_left trivial).symm
  | cons event events ih =>
    obtain ⟨⟨r₁, acts₁⟩, hstep, h⟩ := Er.bind_inv h
    obtain ⟨⟨r₂, acts₂⟩, hsteps, h⟩ := Er.bind_inv h
    cases h
    obtain ⟨p, hmove, hp⟩ := step_move hstep
    obtain ⟨hinv₁, hproper⟩ := hinv.move hmove
    have hlimit : r₁.maxConcurrentSearches = r.maxConcurrentSearches := hmove.maxConcurrentSearches_eq
    have hrest := ih hinv₁ hsteps
    rw [hlimit] at hrest
    rw [← append_assoc, hrest, show Proper r.maxConcurrentSearches (log ++ acts₁) ↔ _ from hproper, hp, and_assoc]
    refine and_congr_right fun _ => and_congr_right fun _ => ⟨fun hfine r' acts' h' => ?_, fun hfine => ?_⟩
    · rw [hstep] at h'
      cases h'
      exact hfine
    · exact hfine r₁ acts₁ hstep

/-- A run keeps the protocol of its searches if and only if no event of it does harm. -/
theorem completion_iff (C : Crypto) (mill : RumorMill) (router : RouterModule.State) (events : List Event)
    (r : Runner) (log : List Act) (h : steps C (new mill router) events = .ret (r, log)) :
    Proper (new mill router).maxConcurrentSearches log ↔ FineRun C (new mill router) events := by
  have hinv : Inv (new mill router).board [] :=
    ⟨fun t ht => absurd ht not_mem_nil, nodup_nil, fun t ht => absurd ht not_mem_nil, fun _ _ => rfl,
      rfl, rfl⟩
  have hempty : Proper (new mill router).maxConcurrentSearches [] := by
    refine ⟨fun n cb a b hin => absurd hin not_mem_nil, fun before after heq => ?_⟩
    obtain ⟨rfl, -⟩ := append_eq_nil_iff.mp heq.symm
    exact Nat.zero_le _
  have hiff := steps_proper_iff hinv h
  rw [nil_append] at hiff
  rw [hiff]
  exact and_iff_right hempty

/-- What was seen in a run that did not fail. -/
def seen (C : Crypto) (r : Runner) (events : List Event) : Option (List Act) :=
  match steps C r events with
  | .ret (_, log) => some log
  | _ => none

theorem seen_eq_some {events} (h : seen C r events = some log) :
    ∃ r', steps C r events = .ret (r', log) := by
  unfold seen at h
  split at h
  next r' log' hsteps =>
    cases h
    exact ⟨r', hsteps⟩
  · cases h

/-- A node to ask, told by the first byte of its key, at this path. -/
def asked (byte : UInt8) (path : BitVec 64) : Address :=
  { protocolVersion := 21, ip6 := 0xfc :: byte :: List.replicate 14 0, key := Key.ofBytes [byte], path }

/-- A search that has one node to ask, which answers. -/
def oneRequest : List Event :=
  [.search (0xfc :: List.replicate 15 7) 8 8 true [asked 1 0x13], .continueTimeout 0,
    .reply 0 5 (asked 1 0x13) [] fun _ => false]

def oneRequestSeen : List Act :=
  [.started 0 true 8 8, .turn 0, .request 0 (asked 1 0x13), .call 0 5 (some (asked 1 0x13)), .turn 0,
    .call 0 0 none, .freed 0]

theorem completion_answered : ∃ r,
    steps Symbolic.crypto (new emptyMill ⟨0⟩) oneRequest = .ret (r, oneRequestSeen) ∧
    Proper (new emptyMill ⟨0⟩).maxConcurrentSearches oneRequestSeen := by
  obtain ⟨r, h⟩ := @seen_eq_some oneRequestSeen (new emptyMill ⟨0⟩) Symbolic.crypto oneRequest (by decide +kernel)
  refine ⟨r, h, (completion_iff Symbolic.crypto emptyMill ⟨0⟩ _ r _ h).mpr ?_⟩
  exact ⟨fun _ => by decide, fun _ _ _ => ⟨trivial, fun _ _ _ => ⟨trivial, fun _ _ _ => trivial⟩⟩⟩

/-- A search that has three nodes to ask, none of which answers. With a mean response time of one second the timer
of the search comes every 4 to 6 seconds, and a request times out after 10 seconds: when all three have been asked. -/
def silentNodes : List Event :=
  [.search (0xfc :: List.replicate 15 7) 8 8 true [asked 1 0x13, asked 2 0x15, asked 3 0x17], .continueTimeout 0,
    .continueTimeout 0, .continueTimeout 0, .requestTimeout 0 10000]

def silentNodesSeen : List Act :=
  [.started 0 true 8 8, .turn 0, .request 0 (asked 3 0x17), .turn 0, .request 0 (asked 2 0x15), .turn 0,
    .request 0 (asked 1 0x13), .call 0 10000 none, .turn 0, .call 0 0 none, .freed 0]

/-- The callback is told of the timeout of the first request as it is told of the end. -/
theorem timeout_without_sender : ∃ r,
    steps Symbolic.crypto (new emptyMill ⟨0⟩) silentNodes = .ret (r, silentNodesSeen) ∧
    ¬ Proper (new emptyMill ⟨0⟩).maxConcurrentSearches silentNodesSeen := by
  obtain ⟨r, hrun⟩ := @seen_eq_some silentNodesSeen (new emptyMill ⟨0⟩) Symbolic.crypto silentNodes
    (by decide +kernel)
  refine ⟨r, hrun, fun h => ?_⟩
  obtain ⟨front, hfront, hcalm⟩ :=
    (h.orderly 0 true 8 8 mem_cons_self).completed rfl (by decide +kernel)
  have heq : [(10000, none)] = front := (append_inj' hfront rfl).1
  exact hcalm (10000, none) (by rw [← heq]; exact mem_cons_self) rfl

end Hyperboria.SearchRunner
