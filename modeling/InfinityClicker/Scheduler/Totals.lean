import InfinityClicker.Input.SenderRecord
import InfinityClicker.Scheduler.ThreadMoves

namespace InfinityClicker

open Machines EngineSnapshot

/-!
# The totals of the snapshots

What every snapshot says was recorded since the last reset, against what was recorded.

* `Books` — what is recorded since a reset, and the sender's counters at it; `Engine.books` is
  what the engine makes of its accumulators, the run's statistics and its baselines;
* `Engine.Shows` — what is published on the way shows these books;
* `Thread.Accounts` — a step records what it starts and misses, and an idle reset opens the books
  anew;
* `totals_account` — every published snapshot shows the true totals, as long as no reset that has
  something to reset is consumed in a run; and without a reset no total decreases.
-/

/-! ### What a step records -/

/-- Actions that start in a timed run. -/
def startedIn (events : List Event) : ℕ :=
  (events.map fun
    | .fired _ _ batch => batch
    | _ => 0).sum

/-- Slots reported as missed. -/
def missedIn (events : List Event) : ℕ :=
  (events.map fun
    | .missed n => n
    | _ => 0).sum

/-- The actions a step records: those that start in a timed run, and those of a MAX call. -/
def Thread.recorded (t : Thread) (o : Obs) (events : List Event) : ℕ :=
  match t.loc with
  | .maxSend l _ => if t.e.behind l o then 0 else t.e.maxActions l
  | _ => startedIn events

/-- Events among which no action starts start none. -/
theorem startedIn_eq_zero {events : List Event} (h : ∀ ev ∈ events, ∀ a k n, ev ≠ .fired a k n) :
    startedIn events = 0 := by
  apply List.sum_eq_zero
  intro n hn
  obtain ⟨ev, hev, rfl⟩ := List.mem_map.mp hn
  cases ev with
  | fired a k n => exact absurd rfl (h _ hev a k n)
  | _ => rfl

/-- Nor do events without a report of missed slots miss any. -/
theorem missedIn_eq_zero {events : List Event} (h : ∀ ev ∈ events, ∀ n, ev ≠ .missed n) :
    missedIn events = 0 := by
  apply List.sum_eq_zero
  intro n hn
  obtain ⟨ev, hev, rfl⟩ := List.mem_map.mp hn
  cases ev with
  | missed n => exact absurd rfl (h _ hev n)
  | _ => rfl

/-! ### Books -/

/-- What is recorded since the last reset, and the sender's counters at that reset. -/
structure Books where
  actions : ℕ := 0
  missed : ℕ := 0
  calls : ℕ := 0
  requested : ℕ := 0
  accepted : ℕ := 0
  failedCalls : ℕ := 0
deriving DecidableEq, Repr

namespace Books

/-- The books after a reset. -/
def opened (s : InputSender) : Books :=
  { calls := s.calls
    requested := s.requested
    accepted := s.accepted
    failedCalls := s.failedCalls }

/-- The books after commands are consumed. -/
def seeing (b : Books) (s : InputSender) (cs : List Command) : Books :=
  if .resetTotals ∈ cs then opened s else b

/-- `n` more actions and `m` more missed slots. -/
def record (b : Books) (n m : ℕ) : Books :=
  { b with actions := b.actions + n, missed := b.missed + m }

/-- The totals these books come to. -/
def totals (b : Books) (s : InputSender) : Totals :=
  { actions := b.actions
    missed := b.missed
    calls := s.calls - b.calls
    requested := s.requested - b.requested
    accepted := s.accepted - b.accepted
    failedCalls := s.failedCalls - b.failedCalls }

/-- Nothing recorded changes nothing. -/
@[simp] theorem record_zero (b : Books) : b.record 0 0 = b := rfl

/-- Without commands the books stay. -/
@[simp] theorem seeing_nil (b : Books) (s : InputSender) : b.seeing s [] = b := by simp [seeing]

/-- So they do without a `ResetTotals`. -/
theorem seeing_of_notMem (b : Books) (s : InputSender) {cs : List Command}
    (h : Command.resetTotals ∉ cs) : b.seeing s cs = b := if_neg h

end Books

namespace Engine

variable (P : Platform) (e : Engine)

/-- The books as the engine keeps them: the finished runs, the run that is going on, and the
    baselines. -/
def books : Books :=
  { actions := e.totalActions + if e.state.active then e.stats.actions else 0
    missed := e.totalMissed + if e.state.active then e.stats.missed else 0
    calls := e.baseCalls
    requested := e.baseRequested
    accepted := e.baseAccepted
    failedCalls := e.baseFailed }

/-- A snapshot shows what the books come to. -/
theorem snapshot_totals (now : ℤ) (force : Bool) :
    (e.snapshot P now force).totals = e.books.totals e.sender := by
  unfold snapshot
  split <;> rfl

/-! ### Pieces that record nothing -/

/-- A snapshot is taken of the books and leaves them. -/
@[simp] theorem publish_books (now : ℤ) (force : Bool) :
    (e.publish P now force).books = e.books := by
  unfold publish
  split <;> rfl

/-- The same for one that is due. -/
@[simp] theorem publishDue_books (fire : ℤ) : (e.publishDue P fire).books = e.books := by
  unfold publishDue
  split <;> simp

/-- The latency of the trigger is not in the books. -/
@[simp] theorem recordTriggerLatency_books (q fire : ℤ) :
    (e.recordTriggerLatency P q fire).books = e.books := by
  unfold recordTriggerLatency
  split
  · rfl
  · dsimp only
    split <;> rfl

/-- Nor is what is left of a run's limits. -/
@[simp] theorem useUp_books (n : ℕ) : (e.useUp n).books = e.books := by
  unfold useUp
  split <;> rfl

/-- A command during a run touches no books and publishes nothing. -/
theorem runCommand_books (c : Command) :
    (e.runCommand c).books = e.books ∧ (e.runCommand c).published = e.published := by
  cases c with
  | arm on => cases on <;> exact ⟨rfl, rfl⟩
  | triggerDown qpc =>
    obtain ⟨run, -, -, heq⟩ := e.runCommand_triggerDown qpc
    rw [heq]
    exact ⟨rfl, rfl⟩
  | triggerUp qpc =>
    obtain ⟨run, -, -, heq⟩ := e.runCommand_triggerUp qpc
    rw [heq]
    exact ⟨rfl, rfl⟩
  | _ => exact ⟨rfl, rfl⟩

/-- A whole batch touches none either. -/
theorem runCommands_books (cs : List Command) :
    (e.runCommands cs).books = e.books ∧ (e.runCommands cs).published = e.published := by
  fun_induction runCommands e cs with
  | case1 => exact ⟨rfl, rfl⟩
  | case2 e => exact e.runCommand_books .quit
  | case3 e c cs _ ih =>
    have hone := e.runCommand_books c
    exact ⟨ih.1.trans hone.1, ih.2.trans hone.2⟩

/-- No command consumed in a run touches the books, not even a reset. -/
theorem poll_books : e.poll.1.books = e.books ∧ e.poll.1.published = e.published := by
  unfold poll
  split
  · exact e.drained.runCommands_books e.queue
  · exact ⟨rfl, rfl⟩

/-- A new state that is as active as the old one. -/
theorem books_state {e' : Engine} (hactive : e'.state.active = e.state.active)
    (hactions : e'.totalActions = e.totalActions) (hmissed : e'.totalMissed = e.totalMissed)
    (hstats : e'.stats = e.stats)
    (hbase : e'.baseCalls = e.baseCalls ∧ e'.baseRequested = e.baseRequested ∧
      e'.baseAccepted = e.baseAccepted ∧ e'.baseFailed = e.baseFailed) :
    e'.books = e.books := by
  obtain ⟨hcalls, hreq, hacc, hfail⟩ := hbase
  simp only [books, hactive, hactions, hmissed, hstats, hcalls, hreq, hacc, hfail]

/-! ### What is shown on the way -/

/-- Everything published between `e` and `e'` shows the totals `T`. -/
def Shows (e e' : Engine) (T : Totals) : Prop :=
  ∃ ss, e'.published = e.published ++ ss ∧ ∀ s ∈ ss, s.totals = T

variable {P e} {e' e'' : Engine} {T : Totals} {o : Obs}

/-- Where nothing is published nothing is shown. -/
theorem shows_of_same (h : e'.published = e.published) : e.Shows e' T :=
  ⟨[], by rw [h, List.append_nil], by simp⟩

/-- What one step after the other shows. -/
theorem Shows.trans (h : e.Shows e' T) (h' : e'.Shows e'' T) : e.Shows e'' T := by
  obtain ⟨ss, hss, hall⟩ := h
  obtain ⟨ss', hss', hall'⟩ := h'
  refine ⟨ss ++ ss', by rw [hss', hss, List.append_assoc], ?_⟩
  intro s hs
  rcases List.mem_append.mp hs with hfirst | hthen
  · exact hall s hfirst
  · exact hall' s hthen

/-- Publishing shows the books there are. -/
theorem shows_publish (hT : e.books.totals e.sender = T) (now : ℤ) (force : Bool) :
    e.Shows (e.publish P now force) T := by
  unfold publish
  split
  · exact shows_of_same rfl
  · refine ⟨[e.snapshot P now force], rfl, ?_⟩
    intro s hs
    rw [List.mem_singleton.mp hs, snapshot_totals, hT]

/-- A snapshot that is due shows the books. -/
theorem shows_publishDue (hT : e.books.totals e.sender = T) (fire : ℤ) :
    e.Shows (e.publishDue P fire) T := by
  unfold publishDue
  split
  · exact shows_publish hT fire false
  · exact shows_of_same rfl

/-! ### Every place of the thread -/

/-- Outside a run a reset opens the books anew, and no other command touches them. -/
theorem idleCommand_books (hidle : e.state.active = false) (b : Batch) (r retry : SendResult)
    (c : Command) :
    (e.idleCommand P b r retry c).1.books = e.books.seeing e.sender [c] ∧
      (e.idleCommand P b r retry c).1.published = e.published := by
  cases c with
  | arm on =>
    rw [e.books.seeing_of_notMem e.sender (by simp)]
    refine ⟨books_state e ?_ rfl rfl rfl ⟨rfl, rfl, rfl, rfl⟩, rfl⟩
    rw [hidle]
    cases on <;> rfl
  | emergency q =>
    rw [e.books.seeing_of_notMem e.sender (by simp)]
    refine ⟨books_state e ?_ rfl rfl rfl ⟨rfl, rfl, rfl, rfl⟩, rfl⟩
    rw [hidle]
    rfl
  | triggerDown q =>
    rw [idleCommand_triggerDown, e.books.seeing_of_notMem e.sender (by simp)]
    exact ⟨rfl, rfl⟩
  | triggerUp q =>
    rw [idleCommand_triggerUp, e.books.seeing_of_notMem e.sender (by simp)]
    exact ⟨rfl, rfl⟩
  | resetTotals =>
    have hopened : e.books.seeing e.sender [.resetTotals] = Books.opened e.sender :=
      if_pos (by simp)
    rw [hopened]
    refine ⟨?_, rfl⟩
    simp [idleCommand, books, Books.opened, hidle]
  | _ =>
    rw [e.books.seeing_of_notMem e.sender (by simp)]
    exact ⟨rfl, rfl⟩

/-- A run begins with nothing recorded in it. -/
theorem beginRun_books (hidle : e.state.active = false) (lim : RunLimits) (now : ℤ) :
    (e.beginRun P lim now).books = e.books := by
  have hstats : (e.beginRun P lim now).stats.actions = 0 ∧
      (e.beginRun P lim now).stats.missed = 0 := ⟨rfl, rfl⟩
  simp only [books, hidle, hstats, ite_self]
  rfl

/-- A run that starts leaves the totals as they are, and shows them. -/
theorem doRun_books (hidle : e.state.active = false) (lim : RunLimits) (q : ℤ) :
    (e.doRun P lim q o).1.e.books = e.books ∧
      e.Shows (e.doRun P lim q o).1.e (e.books.totals e.sender) := by
  unfold doRun
  split
  · exact ⟨rfl, shows_of_same rfl⟩
  · have hbegin : ((e.tick (o.dt 1)).beginRun P lim (e.tick (o.dt 1)).clock).books = e.books :=
      beginRun_books (e := e.tick (o.dt 1)) hidle lim _
    have hshows : e.Shows (((e.tick (o.dt 1)).beginRun P lim (e.tick (o.dt 1)).clock).publish P
        (e.tick (o.dt 1)).clock true) (e.books.totals e.sender) := by
      apply Shows.trans (shows_of_same rfl)
      apply shows_publish
      rw [hbegin]
      rfl
    dsimp only
    split
    · rw [(enterMax_spec _ _ _).1]
      exact ⟨by rw [publish_books, hbegin], hshows⟩
    · refine ⟨?_, hshows.trans (shows_of_same rfl)⟩
      show (Engine.publish P _ _ _).books = _
      rw [publish_books, hbegin]

/-- The end of a batch publishes with the sender as it is: the releases of `Quit` come after. -/
theorem stepCommands_nil_books (hidle : e.state.active = false) (b : Batch) :
    (e.stepCommands P [] b o).1.e.books = e.books ∧
      e.Shows (e.stepCommands P [] b o).1.e (e.books.totals e.sender) := by
  have hbooks : ((e.tick (o.dt 0)).publish P (e.tick (o.dt 0)).clock true).books = e.books :=
    publish_books P (e.tick (o.dt 0)) _ _
  have hsender : ((e.tick (o.dt 0)).publish P (e.tick (o.dt 0)).clock true).sender = e.sender := by
    simp
  have hshows : e.Shows ((e.tick (o.dt 0)).publish P (e.tick (o.dt 0)).clock true)
      (e.books.totals e.sender) := (shows_of_same rfl).trans (shows_publish rfl _ _)
  simp only [stepCommands]
  split
  · exact ⟨hbooks, hshows.trans (shows_of_same rfl)⟩
  · split
    · have hrun := doRun_books (P := P) (o := o)
        (e := (e.tick (o.dt 0)).publish P (e.tick (o.dt 0)).clock true)
        (by simpa using hidle) b.lim b.trigQ
      rw [hbooks, hsender] at hrun
      exact ⟨hrun.1, hshows.trans hrun.2⟩
    · exact ⟨hbooks, hshows.trans (shows_of_same rfl)⟩

/-- A step from `e` that records nothing, and shows the books on its way. -/
structure Idles (e e' : Engine) : Prop where
  books : e'.books = e.books
  shows : e.Shows e' (e.books.totals e'.sender)

/-- The same books and the same snapshot. -/
theorem idles_of_same (hbooks : e'.books = e.books) (hpub : e'.published = e.published) :
    e.Idles e' := ⟨hbooks, shows_of_same hpub⟩

/-- Publishing after something that records nothing. -/
theorem idles_publish (hbooks : e'.books = e.books) (hpub : e'.published = e.published) (now : ℤ)
    (force : Bool) : e.Idles (e'.publish P now force) := by
  refine ⟨by rw [publish_books, hbooks], (shows_of_same hpub).trans (shows_publish ?_ now force)⟩
  rw [hbooks, (publish_frame P e' now force).1]

/-- Only the books, the snapshot and the sender count. -/
theorem Idles.congr (h : e.Idles e') (hpub : e''.published = e'.published)
    (hbooks : e''.books = e'.books) (hsender : e''.sender = e'.sender) : e.Idles e'' := by
  refine ⟨hbooks.trans h.books, ?_⟩
  rw [hsender]
  exact h.shows.trans (shows_of_same hpub)

/-- What came before records and publishes nothing. -/
theorem Idles.after (h : e'.Idles e'') (hbooks : e'.books = e.books)
    (hpub : e'.published = e.published) : e.Idles e'' := by
  refine ⟨h.books.trans hbooks, ?_⟩
  rw [← hbooks]
  exact (shows_of_same hpub).trans h.shows

/-- Entering a MAX run records nothing. -/
theorem enterMax_idles {e' : Engine} (q : ℤ) (hbooks : e'.books = e.books)
    (hpub : e'.published = e.published) : e.Idles (e'.enterMax q o).1.e := by
  rw [(enterMax_spec e' q o).1]
  exact idles_of_same hbooks hpub

/-- The top of a timed run's loop records nothing. -/
theorem stepTimed_idles (l : TimedLocals) : e.Idles (e.stepTimed l).1.e := by
  obtain ⟨hbooks, hpub⟩ := e.poll_books
  simp only [stepTimed]
  split
  · exact idles_of_same hbooks hpub
  · split <;> exact idles_of_same hbooks hpub

/-- A configuration applied in a timed run records nothing. -/
theorem stepTimedConfig_idles (l : TimedLocals) : e.Idles (e.stepTimedConfig P l o).1.e := by
  unfold stepTimedConfig
  split
  · exact idles_of_same rfl rfl
  · dsimp only
    split
    · exact enterMax_idles 0 rfl rfl
    · split <;> exact idles_of_same rfl rfl

/-- Entering a pause records nothing, and shows the books. -/
theorem enterPause_idles (hactive : e.state.active = true) (why : PauseReason) :
    e.Idles (e.enterPause P why o).1 := by
  unfold enterPause
  dsimp only
  apply idles_publish
  · apply books_state e
    · rw [hactive]
      rfl
    · rfl
    · rfl
    · rfl
    · exact ⟨rfl, rfl, rfl, rfl⟩
  · rfl

/-- A boundary of a timed run records nothing. -/
theorem stepTimedGate_idles (hactive : e.state.active = true) (l : TimedLocals) :
    e.Idles (e.stepTimedGate P l o).1.e := by
  simp only [stepTimedGate]
  split
  · exact idles_of_same rfl rfl
  · split
    · split
      · exact idles_of_same rfl rfl
      · exact (enterPause_idles (e := e.tick (o.dt 0)) hactive _).after rfl rfl
    · exact idles_of_same rfl rfl

/-- A pause records nothing when what comes after its poll does not. -/
theorem stepPause_idles (hactive : e.state.active = true)
    {resume stay : Engine → Thread × List Event} (hresume : ∀ e', Idles e' (resume e').1.e)
    (hstay : ∀ e', Idles e' (stay e').1.e) : e.Idles (e.stepPause o resume stay).1.e := by
  obtain ⟨hbooks, hpub⟩ := (e.woken o).poll_books
  have hwoken : (e.woken o).books = e.books := rfl
  have hstate : (e.woken o).poll.1.state.active = true := by
    rw [(poll_frame (e.woken o)).2.2.2.2.1]
    exact hactive
  simp only [stepPause]
  split
  · exact idles_of_same (hbooks.trans hwoken) hpub
  · split
    · refine (hresume _).after (Eq.trans ?_ (hbooks.trans hwoken)) hpub
      apply books_state (e.woken o).poll.1
      · rw [hstate]
        rfl
      · rfl
      · rfl
      · rfl
      · exact ⟨rfl, rfl, rfl, rfl⟩
    · exact (hstay _).after (hbooks.trans hwoken) hpub

/-- A round of a pause of a timed run records nothing. -/
theorem stepTimedPause_idles (hactive : e.state.active = true) (l : TimedLocals) :
    e.Idles (e.stepTimedPause P l o).1.e := by
  apply stepPause_idles hactive
  · intro e'
    exact idles_of_same rfl rfl
  · intro e'
    show e'.Idles ((e'.tick (o.dt 1)).publish P (e'.tick (o.dt 1)).clock false)
    apply idles_publish <;> rfl

/-- The top of a MAX run's loop records nothing. -/
theorem stepMax_idles (l : MaxLocals) : e.Idles (e.stepMax l).1.e := by
  obtain ⟨hbooks, hpub⟩ := e.poll_books
  simp only [stepMax]
  split <;> exact idles_of_same hbooks hpub

/-- A configuration applied in a MAX run records nothing. -/
theorem stepMaxConfig_idles (l : MaxLocals) : e.Idles (e.stepMaxConfig P l).1.e := by
  unfold stepMaxConfig
  split
  · exact idles_of_same rfl rfl
  · dsimp only
    split <;> exact idles_of_same rfl rfl

/-- A boundary of a MAX run records nothing. -/
theorem stepMaxGate_idles (hactive : e.state.active = true) (l : MaxLocals) :
    e.Idles (e.stepMaxGate P l o).1.e := by
  simp only [stepMaxGate]
  split
  · exact idles_of_same rfl rfl
  · split
    · exact idles_of_same rfl rfl
    · split
      · split
        · exact idles_of_same rfl rfl
        · exact (enterPause_idles (e := e.tick (o.dt 0)) hactive _).after rfl rfl
      · exact idles_of_same rfl rfl

/-- A round of a pause of a MAX run records nothing. -/
theorem stepMaxPause_idles (hactive : e.state.active = true) (l : MaxLocals) (now : ℤ) :
    e.Idles (e.stepMaxPause P l now o).1.e := by
  apply stepPause_idles hactive
  · intro e'
    exact idles_of_same rfl rfl
  · intro e'
    show e'.Idles ((e'.tick (o.dt 1)).publish P (e'.tick (o.dt 1)).clock false)
    apply idles_publish <;> rfl

/-- The run's statistics join the finished runs. -/
theorem stepEnding_idles (hactive : e.state.active = true) : e.Idles (e.stepEnding P o).1.e := by
  have hend : (((e.releaseAll o.release o.retry).tick (o.dt 0)).endRun).books = e.books := by
    have hstate : (((e.releaseAll o.release o.retry).tick (o.dt 0)).endRun).state.active =
        false := by
      show (if e.armed then EngineState.armed else .disarmed).active = false
      cases e.armed <;> rfl
    simp only [books, hactive, hstate, if_true]
    rfl
  have hpub : e.Idles ((((e.releaseAll o.release o.retry).tick (o.dt 0)).endRun).publish P
      ((e.releaseAll o.release o.retry).tick (o.dt 0)).clock true) := idles_publish hend rfl _ _
  simp only [stepEnding]
  -- The configuration applied after it touches no book.
  unfold applyPending
  split <;> exact hpub.congr rfl rfl rfl

/-! ### Places that record -/

/-- The statistics of a batch. -/
theorem onActionBatch_counts (st : RunStats) (tl : Timeline) (fire : ℤ) (batch : ℕ) :
    (onActionBatch P st tl fire batch).actions = st.actions + batch ∧
      (onActionBatch P st tl fire batch).missed = st.missed := by
  unfold onActionBatch
  induction batch with
  | zero => exact ⟨rfl, rfl⟩
  | succ n ih =>
    rw [List.range_succ, List.foldl_append, List.foldl_cons, List.foldl_nil]
    have hone := RunStats.onAction_counts P
      ((List.range n).foldl (fun st j => st.onAction P fire (tl.slot (tl.k + j))) st) fire
      (tl.slot (tl.k + n))
    rw [hone.1, hone.2, ih.1, ih.2]
    exact ⟨by omega, rfl⟩

/-- A step records what its events say. -/
structure Records (e : Engine) (x : Thread × List Event) : Prop where
  books : x.1.e.books = e.books.record (startedIn x.2) (missedIn x.2)
  shows : e.Shows x.1.e (x.1.e.books.totals x.1.e.sender)

/-- A step that records nothing records the nothing its events say. -/
theorem Idles.records {x : Thread × List Event} (h : e.Idles x.1.e)
    (hstarted : startedIn x.2 = 0) (hmissed : missedIn x.2 = 0) : e.Records x := by
  refine ⟨?_, ?_⟩
  · rw [hstarted, hmissed]
    exact h.books
  · rw [h.books]
    exact h.shows

/-- A wait before it changes nothing of what is recorded. -/
theorem Records.after {x : Thread × List Event} (h : e'.Records x) (hbooks : e'.books = e.books)
    (hpub : e'.published = e.published) : e.Records x :=
  ⟨by rw [h.books, hbooks], (shows_of_same hpub).trans h.shows⟩

/-- The first step of an action records its slots, a later step none. -/
theorem onStarted_books (hactive : e.state.active = true) (l : TimedLocals) (fire : ℤ)
    (batch : ℕ) :
    (e.onStarted P l fire batch).books = e.books.record (if l.step = 0 then batch else 0) 0 ∧
      (e.onStarted P l fire batch).published = e.published := by
  unfold onStarted
  split
  · have hbooks : ({ e with stats := onActionBatch P e.stats l.tl fire batch } : Engine).books =
        e.books.record batch 0 := by
      simp only [books, hactive, onActionBatch_counts, if_true, Books.record]
      congr 1
      omega
    dsimp only
    split
    · refine ⟨by rw [recordTriggerLatency_books, hbooks], ?_⟩
      unfold recordTriggerLatency
      split
      · rfl
      · dsimp only
        split <;> rfl
    · exact ⟨hbooks, rfl⟩
  · exact ⟨rfl, rfl⟩

/-- What is left of the limits is no part of a snapshot. -/
theorem useUp_published (n : ℕ) : (e.useUp n).published = e.published := by
  unfold useUp
  split <;> rfl

/-- A timed step says what it records. -/
theorem startedIn_fireStep (l : TimedLocals) (st : ActionStep) :
    startedIn (e.fireStep P l st o).2 =
        (if l.step = 0 then e.batchSize l (e.clock + o.dt 1) else 0) ∧
      missedIn (e.fireStep P l st o).2 = 0 := by
  have hsent : ∀ cs : List SendCall, startedIn (cs.map Event.sent) = 0 := by
    intro cs
    apply startedIn_eq_zero
    intro ev hev a k n
    obtain ⟨c, -, rfl⟩ := List.mem_map.mp hev
    simp
  rw [fireStep_events]
  constructor
  · have happend : ∀ a b : List Event, startedIn (a ++ b) = startedIn a + startedIn b := by
      simp [startedIn]
    rw [happend, hsent, Nat.add_zero]
    split <;> rfl
  · apply missedIn_eq_zero
    intro ev hev n
    rcases List.mem_append.mp hev with hfired | hcall
    · split at hfired
      · rw [List.mem_singleton.mp hfired]
        simp
      · simp at hfired
    · obtain ⟨c, -, rfl⟩ := List.mem_map.mp hcall
      simp

/-- **A timed step** records the actions that start with it. -/
theorem fireStep_records (hactive : e.state.active = true) (l : TimedLocals) (st : ActionStep) :
    e.Records (e.fireStep P l st o) := by
  obtain ⟨hstarted, hmissed⟩ := startedIn_fireStep (P := P) (e := e) (o := o) l st
  -- The engine as it publishes.
  have hbefore : ∃ e' : Engine, (e.fireStep P l st o).1.e = e'.publishDue P (e.clock + o.dt 1) ∧
      e'.books = e.books.record
        (if l.step = 0 then e.batchSize l (e.clock + o.dt 1) else 0) 0 ∧
      e'.published = e.published := by
    let fire := e.clock + o.dt 1
    let batch := e.batchSize l fire
    let sent := e.sender.send (List.replicate batch st.inputs).flatten o.sent
    let e₁ : Engine := { e.tick (o.dt 1) with sender := sent.sender }.tick (o.dt 2)
    let e₂ : Engine := { e₁ with stats := e₁.stats.onSendDuration P (e₁.clock - fire) }
    have hstart := onStarted_books (P := P) (e := e₂) hactive l fire batch
    by_cases hlast : l.step + 1 = e.prog.steps.length
    · refine ⟨(e₂.onStarted P l fire batch).useUp batch, ?_, ?_, ?_⟩
      · simp [fireStep, hlast, e₁, e₂, fire, batch, sent]
      · rw [useUp_books]
        exact hstart.1
      · rw [useUp_published]
        exact hstart.2
    · refine ⟨e₂.onStarted P l fire batch, ?_, hstart.1, hstart.2⟩
      simp [fireStep, hlast, e₁, e₂, fire, batch, sent]
  obtain ⟨e', heq, hbooks, hpub⟩ := hbefore
  refine ⟨?_, ?_⟩
  · rw [heq, publishDue_books, hbooks, hstarted, hmissed]
  · rw [heq]
    apply (shows_of_same hpub).trans
    apply shows_publishDue
    rw [publishDue_books, (publishDue_frame P e' _).1]

/-- A wait for a step records nothing, unless it ends in the step. -/
theorem stepTimedAct_records (hactive : e.state.active = true) (l : TimedLocals) :
    e.Records (e.stepTimedAct P l o) := by
  have hwait : ∀ (e' : Engine) (loc : Loc), e.Idles e' →
      e.Records (({ e := e', loc := loc } : Thread), []) := by
    intro e' loc h
    exact Idles.records (x := (⟨e', loc⟩, [])) h rfl rfl
  unfold stepTimedAct
  split
  · exact hwait _ _ (idles_of_same rfl rfl)
  · dsimp only
    split
    · split
      · split
        · exact hwait _ _ (idles_of_same rfl rfl)
        · apply hwait
          apply idles_publish <;> rfl
      · split
        · exact hwait _ _ (idles_of_same rfl rfl)
        · split
          · exact hwait _ _ (idles_of_same rfl rfl)
          · refine Records.after (fireStep_records ?_ l _) ?_ ?_
            · exact hactive
            · rfl
            · rfl
    · exact Records.after (fireStep_records (e := e.tick (o.dt 0)) hactive l _) rfl rfl

/-- Skipped slots are recorded as missed. -/
theorem stepTimedLate_records (hactive : e.state.active = true) (l : TimedLocals) (now : ℤ) :
    e.Records (e.stepTimedLate P l now) := by
  have hmissed : ∀ n, missedIn [.missed n] = n ∧ startedIn [.missed n] = 0 := fun n => ⟨rfl, rfl⟩
  have hbooks : ∀ n, ({ e with stats := e.stats.onMissed n } : Engine).books =
      e.books.record 0 n := by
    intro n
    simp only [books, hactive, if_true, RunStats.onMissed, Books.record]
    congr 1
    omega
  simp only [stepTimedLate]
  split
  · refine ⟨?_, shows_of_same rfl⟩
    rw [(hmissed _).1, (hmissed _).2]
    exact hbooks _
  · refine ⟨?_, shows_of_same rfl⟩
    rw [(hmissed _).1, (hmissed _).2]
    exact hbooks _

/-- **A call of a MAX run** records its actions. -/
theorem stepMaxSend_books (hactive : e.state.active = true) (l : MaxLocals) (now : ℤ) :
    (e.stepMaxSend P l now o).1.e.books =
        e.books.record (if e.behind l o then 0 else e.maxActions l) 0 ∧
      e.Shows (e.stepMaxSend P l now o).1.e
        ((e.stepMaxSend P l now o).1.e.books.totals (e.stepMaxSend P l now o).1.e.sender) := by
  unfold stepMaxSend
  by_cases hbehind : e.behind l o = true
  · rw [if_pos hbehind, if_pos hbehind]
    refine ⟨publishDue_books P e now, shows_publishDue ?_ now⟩
    show e.books.totals e.sender =
      (e.publishDue P now).books.totals (e.publishDue P now).sender
    rw [publishDue_books, (publishDue_frame P e now).1]
  · rw [if_neg hbehind, if_neg hbehind]
    -- The engine as it publishes.
    have hbefore : ∃ e' : Engine, (e.fireMax P l o).1.e = e'.publishDue P (e.clock + o.dt 0) ∧
        e'.books = e.books.record (e.maxActions l) 0 ∧ e'.published = e.published := by
      let n := e.maxActions l
      let fire := e.clock + o.dt 0
      let sent := e.sender.send (l.batch.take (n * l.per)) o.sent
      let e₁ : Engine := { e.tick (o.dt 0) with sender := sent.sender }.tick (o.dt 1)
      let e₂ : Engine :=
        { e₁ with stats := (e₁.stats.onSendDuration P (e₁.clock - fire)).onActions fire n }
      have hbooks : e₂.books = e.books.record n 0 := by
        have hstats : e₂.stats.actions = e.stats.actions + n ∧
            e₂.stats.missed = e.stats.missed := RunStats.onActions_counts _ fire n
        have hstate : e₂.state = e.state := rfl
        simp only [books, hstate, hactive, if_true, hstats, Books.record]
        show (⟨e.totalActions + (e.stats.actions + n), _, _, _, _, _⟩ : Books) = _
        congr 1
        omega
      cases hfirst : l.first with
      | true =>
        refine ⟨(e₂.recordTriggerLatency P l.triggerQpc fire).useUp n, ?_, ?_, ?_⟩
        · simp [fireMax, hfirst, e₁, e₂, n, fire, sent]
        · rw [useUp_books, recordTriggerLatency_books, hbooks]
        · rw [useUp_published]
          unfold recordTriggerLatency
          split
          · rfl
          · dsimp only
            split <;> rfl
      | false =>
        refine ⟨e₂.useUp n, ?_, ?_, ?_⟩
        · simp [fireMax, hfirst, e₁, e₂, n, fire, sent]
        · rw [useUp_books, hbooks]
        · rw [useUp_published]
          rfl
    obtain ⟨e', heq, hbooks, hpub⟩ := hbefore
    refine ⟨?_, ?_⟩
    · rw [heq, publishDue_books, hbooks]
    · rw [heq]
      apply (shows_of_same hpub).trans
      apply shows_publishDue
      rw [publishDue_books, (publishDue_frame P e' _).1]

end Engine

/-! ### Every step -/

variable {P : Platform}

/-- Where actions or missed slots are recorded. -/
def Loc.records : Loc → Bool
  | .timedLate _ _ | .timedAct _ | .maxSend _ _ => true
  | _ => false

/-- An action starts and a slot is missed only where something is recorded. -/
theorem Loc.records_of_emits {loc : Loc} {ev : Event} (h : loc.emits ev = true)
    (hev : (∃ a k n, ev = .fired a k n) ∨ ∃ n, ev = .missed n) : loc.records = true := by
  rcases hev with ⟨a, k, n, rfl⟩ | ⟨n, rfl⟩
  · cases loc with
    | timedAct _ => rfl
    | _ => exact absurd h (by simp [emits])
  · cases loc with
    | timedLate _ _ => rfl
    | _ => exact absurd h (by simp [emits])

/-- A poll records nothing. -/
theorem Loc.records_of_polls {loc : Loc} (h : loc.polls = true) : loc.records = false := by
  cases loc <;> simp_all [polls, records]

/-- In a run, or at its end. -/
def Loc.working : Loc → Bool
  | .ending => true
  | loc => loc.inRun

/-- A run at its end is still at work. -/
theorem Loc.working_of {loc : Loc} (h : loc = .ending ∨ loc.inRun = true) :
    loc.working = true := by
  rcases h with rfl | h
  · rfl
  · cases loc <;> simp_all [working, inRun]

/-- A poll is made during a run. -/
theorem Loc.working_of_polls {loc : Loc} (h : loc.polls = true) : loc.working = true := by
  cases loc <;> simp_all [polls, working, inRun]

/-- A configuration is applied during a run. -/
theorem Loc.working_of_configures {loc : Loc} (h : loc.configures = true) :
    loc.working = true := by
  cases loc <;> simp_all [configures, working, inRun]

namespace Thread

/-- The state shows a run exactly while there is one. -/
def Active (t : Thread) : Prop := t.e.state.active = t.loc.working

/-- A state that says a run is on says so throughout the run, and not after it. -/
theorem Active.step {t : Thread} (h : t.Active) (o : Obs) : (t.step P o).1.Active := by
  have hworking : ∀ loc : Loc, loc.inRun = true → loc.working = true := fun loc hrun =>
    Loc.working_of (.inr hrun)
  unfold Active at h ⊢
  cases t.step_moves P o with
  | sleeps hloc hevent h' => rw [h', h]
  | wakes hloc hevent h' =>
    rw [hloc] at h
    rw [h']
    exact h
  -- A command taken while idle: only an emergency changes the state, and to another idle one.
  | command hloc h' =>
    rename_i c cs b
    rw [hloc] at h
    rw [h']
    cases c with
    | arm on => cases on <;> rfl
    | triggerDown q =>
      rw [Engine.idleCommand_triggerDown]
      exact h
    | triggerUp q =>
      rw [Engine.idleCommand_triggerUp]
      exact h
    | emergency q => rfl
    | _ => exact h
  | returns hloc hquit hkeeps hstate hloc' =>
    rw [hloc] at h
    rw [hstate, hloc', h]
    rfl
  | rests hloc hquit hstart hkeeps hstate hloc' =>
    rw [hloc] at h
    rw [hstate, hloc', h]
    rfl
  | starts hloc hquit hstart hok hkeeps hstate hloc' =>
    rw [hstate, Loc.working_of hloc']
    rfl
  -- A poll may find the pause over, but it ends no run by itself.
  | polls hloc e he hkeeps hstate hstop hgo =>
    have hactive : (t.step P o).1.e.state.active = true := by
      rcases hstate with hsame | hrunning
      · rw [hsame, h, Loc.working_of_polls hloc]
      · rw [hrunning]
        rfl
    rw [hactive]
    symm
    cases hend : e.poll.2.2 with
    | true => exact Loc.working_of (.inl (hstop hend).1)
    | false => exact hworking _ (hgo hend)
  | applies hloc hpending hkeeps hstate hloc' =>
    rw [hstate, h, Loc.working_of_configures hloc, Loc.working_of hloc']
  | runs hrun hpoll event hevent hkeeps hstate hloc' =>
    rw [Loc.working_of hloc']
    rcases hstate with hsame | hpaused
    · rw [hsame, h, hworking _ hrun]
    · rw [hpaused]
      rfl
  | ends hloc hkeeps hstate hloc' =>
    rw [hstate, hloc']
    cases t.e.armed <;> rfl
  | stays hloc h' => rw [h', h]

/-- The sender whose counters a step publishes: at the end of a batch the releases of `Quit` come
    after the snapshot. -/
def shownSender (t : Thread) (t' : Thread) : InputSender :=
  match t.loc with
  | .commands _ _ => t.e.sender
  | _ => t'.e.sender

/-- The books after a step, seen from the books before it. -/
def accounts (t : Thread) (b : Books) (o : Obs) (events : List Event) : Books :=
  (b.seeing t.e.sender (commandsOf events)).record (t.recorded o events) (missedIn events)

/-- A step of the thread puts into its books what it records, and shows them; a reset it consumes
    in a run it leaves out. -/
structure Accounts (t : Thread) (o : Obs) (x : Thread × List Event) : Prop where
  books : x.1.e.books = if t.loc.polls then t.e.books else t.accounts t.e.books o x.2
  shows : t.e.Shows x.1.e (x.1.e.books.totals (t.shownSender x.1))

/-- A step without commands moves the ledger by what it records. -/
theorem accounts_quiet {t : Thread} {b : Books} {o : Obs} {events : List Event} {n m : ℕ}
    (hcommands : commandsOf events = []) (hrecorded : t.recorded o events = n)
    (hmissed : missedIn events = m) : t.accounts b o events = b.record n m := by
  rw [accounts, hcommands, Books.seeing_nil, hrecorded, hmissed]

/-- Only three places record anything. -/
theorem recorded_eq_zero {t : Thread} (h : t.loc.records = false) (o : Obs) :
    t.recorded o (t.step P o).2 = 0 ∧ missedIn (t.step P o).2 = 0 := by
  have hplace : ∀ ev ∈ (t.step P o).2,
      ¬((∃ a k n, ev = .fired a k n) ∨ ∃ n, ev = .missed n) := by
    intro ev hev hkind
    have hrecords := Loc.records_of_emits (t.step_emits P o ev hev) hkind
    exact absurd hrecords (by simp [h])
  have hstarted : startedIn (t.step P o).2 = 0 := by
    apply startedIn_eq_zero
    intro ev hev a k n hfired
    exact hplace ev hev (.inl ⟨a, k, n, hfired⟩)
  have hmissed : missedIn (t.step P o).2 = 0 := by
    apply missedIn_eq_zero
    intro ev hev n hmissed
    exact hplace ev hev (.inr ⟨n, hmissed⟩)
  refine ⟨?_, hmissed⟩
  obtain ⟨e, loc⟩ := t
  cases loc with
  | maxSend l now => exact absurd h (by simp [Loc.records])
  | _ => exact hstarted

/-- A place that records nothing. -/
theorem Accounts.of_idles {t : Thread} {o : Obs} (hrecords : t.loc.records = false)
    (hidles : t.e.Idles (t.step P o).1.e)
    (hsender : t.shownSender (t.step P o).1 = (t.step P o).1.e.sender)
    (hquiet : t.loc.polls = true ∨ commandsOf (t.step P o).2 = []) :
    t.Accounts o (t.step P o) := by
  obtain ⟨hrecorded, hmissed⟩ := recorded_eq_zero (P := P) hrecords o
  refine ⟨?_, ?_⟩
  · rw [hidles.books]
    rcases hquiet with hpoll | hcommands
    · rw [if_pos hpoll]
    · rw [accounts_quiet hcommands hrecorded hmissed, Books.record_zero, ite_self]
  · rw [hsender, hidles.books]
    exact hidles.shows

/-- A place away from the polls, where nothing is consumed. -/
theorem Accounts.of_record {t : Thread} {o : Obs} {x : Thread × List Event}
    (hpoll : t.loc.polls = false) (hcommands : commandsOf x.2 = [])
    (hbooks : x.1.e.books = t.e.books.record (t.recorded o x.2) (missedIn x.2))
    (hshows : t.e.Shows x.1.e (x.1.e.books.totals (t.shownSender x.1))) : t.Accounts o x := by
  refine ⟨?_, hshows⟩
  rw [hbooks, if_neg (by simp [hpoll]), accounts_quiet hcommands rfl rfl]

/-- **Every step accounts for what it records.** -/
theorem step_accounts {t : Thread} (h : t.Active) (o : Obs) : t.Accounts o (t.step P o) := by
  obtain ⟨e, loc⟩ := t
  have hstate : e.state.active = loc.working := h
  cases loc with
  | idle =>
    -- A wake-up only takes the queue.
    have hidles : e.Idles (step P ⟨e, .idle⟩ o).1.e := by
      simp only [step]
      split <;> exact Engine.idles_of_same rfl rfl
    refine Accounts.of_idles rfl hidles rfl (.inr ?_)
    simp only [step]
    split <;> rfl
  | commands cmds b =>
    obtain ⟨hrecorded, hmissed⟩ := recorded_eq_zero (P := P) (t := ⟨e, .commands cmds b⟩) rfl o
    cases cmds with
    | nil =>
      obtain ⟨hbooks, hshows⟩ := Engine.stepCommands_nil_books (P := P) (o := o) hstate b
      have hcommands : commandsOf (step P ⟨e, .commands [] b⟩ o).2 = [] :=
        (e.stepCommands_nil P b o).2.1
      apply Accounts.of_record rfl hcommands
      · rw [hrecorded, hmissed]
        exact hbooks
      · show e.Shows (e.stepCommands P [] b o).1.e
          ((e.stepCommands P [] b o).1.e.books.totals e.sender)
        rw [hbooks]
        exact hshows
    | cons c cs =>
      obtain ⟨hbooks, hpub⟩ := Engine.idleCommand_books (P := P) hstate b o.release o.retry c
      have hcommands := (e.stepCommands_cons P c cs b o).2.1
      refine ⟨?_, Engine.shows_of_same hpub⟩
      -- An idle command that resets is seen by the books at once.
      show (e.idleCommand P b o.release o.retry c).1.books = (e.books.seeing e.sender
        (commandsOf (e.stepCommands P (c :: cs) b o).2)).record
          (recorded ⟨e, .commands (c :: cs) b⟩ o (step P ⟨e, .commands (c :: cs) b⟩ o).2)
          (missedIn (step P ⟨e, .commands (c :: cs) b⟩ o).2)
      rw [hbooks, hcommands, hrecorded, hmissed, Books.record_zero]
  | timed l => exact Accounts.of_idles rfl (Engine.stepTimed_idles l) rfl (.inl rfl)
  | timedConfig l =>
    exact Accounts.of_idles rfl (Engine.stepTimedConfig_idles l) rfl
      (.inr (quiet_commands P rfl rfl o))
  | timedGate l =>
    exact Accounts.of_idles rfl (Engine.stepTimedGate_idles hstate l) rfl
      (.inr (quiet_commands P rfl rfl o))
  | timedPause l =>
    exact Accounts.of_idles rfl (Engine.stepTimedPause_idles hstate l) rfl (.inl rfl)
  | timedLate l now =>
    have hrecords := Engine.stepTimedLate_records (P := P) hstate l now
    have hcommands := quiet_commands P (t := ⟨e, .timedLate l now⟩) rfl rfl o
    exact Accounts.of_record rfl hcommands hrecords.books hrecords.shows
  | timedAct l =>
    have hrecords := Engine.stepTimedAct_records (P := P) (o := o) hstate l
    have hcommands := quiet_commands P (t := ⟨e, .timedAct l⟩) rfl rfl o
    exact Accounts.of_record rfl hcommands hrecords.books hrecords.shows
  | max l => exact Accounts.of_idles rfl (Engine.stepMax_idles l) rfl (.inl rfl)
  | maxConfig l =>
    exact Accounts.of_idles rfl (Engine.stepMaxConfig_idles l) rfl
      (.inr (quiet_commands P rfl rfl o))
  | maxGate l =>
    exact Accounts.of_idles rfl (Engine.stepMaxGate_idles hstate l) rfl
      (.inr (quiet_commands P rfl rfl o))
  | maxPause l now =>
    exact Accounts.of_idles rfl (Engine.stepMaxPause_idles hstate l now) rfl (.inl rfl)
  | maxSend l now =>
    obtain ⟨hbooks, hshows⟩ := Engine.stepMaxSend_books (P := P) (o := o) hstate l now
    have hcommands := quiet_commands P (t := ⟨e, .maxSend l now⟩) rfl rfl o
    -- MAX sends without slots, so no slot is missed.
    have hmissed : missedIn (step P ⟨e, .maxSend l now⟩ o).2 = 0 := by
      apply missedIn_eq_zero
      intro ev hev n hmissed
      subst hmissed
      exact absurd (step_emits P ⟨e, .maxSend l now⟩ o _ hev) (by simp [Loc.emits])
    apply Accounts.of_record rfl hcommands
    · rw [hmissed]
      exact hbooks
    · exact hshows
  | ending =>
    have hcommands : commandsOf (step P ⟨e, .ending⟩ o).2 = [] :=
      (Engine.stepEnding_spec (P := P) o).2.2.2.2.2.1
    exact Accounts.of_idles rfl (Engine.stepEnding_idles hstate) rfl (.inr hcommands)
  | done => exact Accounts.of_idles rfl (Engine.idles_of_same rfl rfl) rfl (.inr rfl)

end Thread

/-! ### The sender's counters -/

/-- The counters of `s'` have grown from those of `s`. -/
structure InputSender.Grows (s s' : InputSender) : Prop where
  calls : s.calls ≤ s'.calls
  requested : s.requested ≤ s'.requested
  accepted : s.accepted ≤ s'.accepted
  failedCalls : s.failedCalls ≤ s'.failedCalls

namespace InputSender

/-- Nothing sent. -/
theorem Grows.refl (s : InputSender) : s.Grows s :=
  ⟨le_refl _, le_refl _, le_refl _, le_refl _⟩

/-- One call after the other. -/
theorem Grows.trans {s s' s'' : InputSender} (h : s.Grows s') (h' : s'.Grows s'') : s.Grows s'' :=
  ⟨h.calls.trans h'.calls, h.requested.trans h'.requested, h.accepted.trans h'.accepted,
    h.failedCalls.trans h'.failedCalls⟩

/-- Tracking counts no call. -/
theorem track_calls (s : InputSender) (i : INPUT) :
    (s.track i).calls = s.calls ∧ (s.track i).failedCalls = s.failedCalls := by
  have hset : ∀ (s : InputSender) (c : Bool) (bit : Fin 5) (down : Bool),
      (setMouseIf c bit down s).calls = s.calls ∧
        (setMouseIf c bit down s).failedCalls = s.failedCalls := by
    intro s c bit down
    cases c <;> exact ⟨rfl, rfl⟩
  cases i with
  | hardware => exact ⟨rfl, rfl⟩
  | mouse mi =>
    simp only [track]
    split <;> simp [hset]
  | keyboard ki =>
    simp only [track]
    split
    · exact ⟨rfl, rfl⟩
    · split
      · exact ⟨rfl, rfl⟩
      · split <;> exact ⟨rfl, rfl⟩

/-- What is held is in no counter. -/
theorem trackAll_grows (s : InputSender) (ins : List INPUT) : s.Grows (s.trackAll ins) := by
  induction ins generalizing s with
  | nil => exact Grows.refl s
  | cons i ins ih =>
    have hcalls := s.track_calls i
    have hcounts := s.track_counters i
    refine Grows.trans ?_ (ih (s.track i))
    exact ⟨hcalls.1.ge, hcounts.1.ge, hcounts.2.ge, hcalls.2.ge⟩

/-- A call raises the counters. -/
theorem send_grows (s : InputSender) (ins : List INPUT) (r : SendResult) :
    s.Grows (s.send ins r).sender := by
  have hpublish : ∀ s : InputSender, s.Grows s.publishIfDirty := by
    intro s
    unfold publishIfDirty
    split <;> exact ⟨le_refl _, le_refl _, le_refl _, le_refl _⟩
  have hcount : ∀ n ok error, s.Grows (s.countCall n ok error) := by
    intro n ok error
    refine ⟨Nat.le_succ _, Nat.le_add_right _ _, Nat.le_add_right _ _, ?_⟩
    simp only [countCall]
    split <;> omega
  unfold send
  split
  · exact Grows.refl s
  · exact ((hcount _ _ _).trans (trackAll_grows _ _)).trans (hpublish _)

/-- So does a release. -/
theorem releaseAll_grows (s : InputSender) (r retry : SendResult) :
    s.Grows (s.releaseAll r retry).sender := by
  have hpublish : ∀ s : InputSender, s.Grows s.publish := fun s =>
    ⟨le_refl _, le_refl _, le_refl _, le_refl _⟩
  simp only [releaseAll]
  split
  · exact Grows.refl s
  · split
    · exact ((s.send_grows _ r).trans (trackAll_grows _ _)).trans (hpublish _)
    · exact s.send_grows _ r

end InputSender

/-- So does any move of the sender. -/
theorem SenderMove.grows {o : Obs} {s s' : InputSender} {calls : List SendCall}
    (h : SenderMove o s s' calls) : s.Grows s' := by
  cases h with
  | stay => exact InputSender.Grows.refl s
  | send ins => exact s.send_grows ins o.sent
  | releaseAll => exact s.releaseAll_grows o.release o.retry

/-- No total of `a` is above that of `b`. -/
structure EngineSnapshot.Totals.Le (a b : Totals) : Prop where
  actions : a.actions ≤ b.actions
  missed : a.missed ≤ b.missed
  calls : a.calls ≤ b.calls
  requested : a.requested ≤ b.requested
  accepted : a.accepted ≤ b.accepted
  failedCalls : a.failedCalls ≤ b.failedCalls

/-- Totals that grew twice. -/
theorem EngineSnapshot.Totals.Le.trans {a b c : Totals} (h : a.Le b) (h' : b.Le c) : a.Le c :=
  ⟨h.actions.trans h'.actions, h.missed.trans h'.missed, h.calls.trans h'.calls,
    h.requested.trans h'.requested, h.accepted.trans h'.accepted,
    h.failedCalls.trans h'.failedCalls⟩

/-- Recording and sending make the totals grow. -/
theorem Books.totals_le (b : Books) (n m : ℕ) {s s' : InputSender} (h : s.Grows s') :
    (b.totals s).Le ((b.record n m).totals s') :=
  ⟨Nat.le_add_right _ _, Nat.le_add_right _ _, Nat.sub_le_sub_right h.calls _,
    Nat.sub_le_sub_right h.requested _, Nat.sub_le_sub_right h.accepted _,
    Nat.sub_le_sub_right h.failedCalls _⟩

/-! ### The ledger -/

/-- What the snapshots are compared with, kept beside the engine. -/
structure Ledger where
  /-- What is recorded since the reset consumed last. -/
  books : Books := {}
  /-- The true totals at each snapshot. -/
  due : List Totals := [{}]
  /-- Snapshots published before that reset. -/
  mark : ℕ := 0

/-- The ledger after a step with its events. -/
def Ledger.next (P : Platform) (t : Thread) (r : Ledger) (act : Act) (events : List Event) :
    Ledger :=
  match act with
  | .thread o =>
    let t' := (t.step P o).1
    let books := t.accounts r.books o events
    { books := books
      due := r.due ++ List.replicate (t'.e.published.length - t.e.published.length)
        (books.totals (t.shownSender t'))
      mark := if .resetTotals ∈ commandsOf events then t.e.published.length else r.mark }
  | _ => r

/-- The engine with the ledger beside it. -/
def ledgerMachine (P : Platform) : Machine (Thread × Ledger) Act Event :=
  (engineMachine P).watch (Ledger.next P)

/-- A reset consumed in a run has nothing to reset. -/
def ResetsNothing (P : Platform) (x : Thread × Ledger) : Act → Prop
  | .thread o => x.1.loc.polls = true → .resetTotals ∈ commandsOf (x.1.step P o).2 →
      x.1.e.books = Books.opened x.1.e.sender
  | _ => True

instance (P : Platform) (x : Thread × Ledger) : ∀ act, Decidable (ResetsNothing P x act)
  | .thread _ => inferInstanceAs (Decidable (_ → _))
  | .push _ | .storeFlag | .setEvent | .storeArmed _ => isTrue trivial

/-- The engine keeps the books of the ledger, and its snapshots are as they should be. -/
structure Ledger.Fits (t : Thread) (r : Ledger) : Prop where
  active : t.Active
  books : t.e.books = r.books
  due : t.e.published.map totals = r.due

/-- The snapshots published since the last reset show totals that only grow. -/
structure Ledger.Grows (t : Thread) (r : Ledger) : Prop where
  active : t.Active
  mark : r.mark ≤ t.e.published.length
  sorted : ((t.e.published.drop r.mark).map totals).Pairwise Totals.Le
  below : ∀ s ∈ t.e.published.drop r.mark, s.totals.Le (t.e.books.totals t.e.sender)

namespace Ledger

variable {t : Thread} {r : Ledger}

/-- At its first wait the thread is in no run. -/
theorem start_active (waiter : PreciseWaiter) (clock : ℤ) :
    (Thread.start P waiter clock).Active := by
  simp [Thread.Active, Thread.start, Engine.rebuildProgram, Loc.working, Loc.inRun,
    EngineState.active]

/-- The first snapshot shows nothing. -/
theorem start_published (waiter : PreciseWaiter) (clock : ℤ) :
    (Thread.start P waiter clock).e.books = {} ∧
      (Thread.start P waiter clock).e.published.map totals = [{}] := by
  refine ⟨?_, ?_⟩
  · show (Engine.publish P _ clock true).books = {}
    rw [Engine.publish_books]
    rfl
  · rfl

/-- A step that consumes no reset, or one with nothing to reset, keeps the books together. -/
theorem Fits.step (h : r.Fits t) (o : Obs) (hreset : ResetsNothing P (t, r) (.thread o)) :
    (r.next P t (.thread o) (t.step P o).2).Fits (t.step P o).1 := by
  have haccounts := Thread.step_accounts (P := P) h.active o
  have hbooks : (t.step P o).1.e.books = t.accounts r.books o (t.step P o).2 := by
    rw [haccounts.books, h.books]
    split
    · next hpoll =>
      obtain ⟨hrecorded, hmissed⟩ :=
        Thread.recorded_eq_zero (P := P) (Loc.records_of_polls hpoll) o
      rw [Thread.accounts, hrecorded, hmissed, Books.record_zero]
      by_cases hmem : Command.resetTotals ∈ commandsOf (t.step P o).2
      · rw [Books.seeing, if_pos hmem, ← h.books]
        exact hreset hpoll hmem
      · exact (r.books.seeing_of_notMem t.e.sender hmem).symm
    · rfl
  obtain ⟨ss, hss, hall⟩ := haccounts.shows
  refine ⟨h.active.step o, hbooks, ?_⟩
  have hcount : (t.step P o).1.e.published.length - t.e.published.length = ss.length := by
    rw [hss, List.length_append]
    omega
  show (t.step P o).1.e.published.map totals = r.due ++ List.replicate _ _
  rw [hcount, hss, List.map_append, h.due, ← hbooks]
  congr 1
  rw [List.eq_replicate_iff]
  refine ⟨List.length_map _, ?_⟩
  intro T hT
  obtain ⟨s, hs, rfl⟩ := List.mem_map.mp hT
  exact hall s hs

/-- A reset with something to reset, consumed in a run, leaves the engine with books that are not
    the ledger's: the next snapshot shows them. -/
theorem Fits.reset_dropped (h : r.Fits t) (o : Obs) (hpoll : t.loc.polls = true)
    (hmem : .resetTotals ∈ commandsOf (t.step P o).2)
    (hbooks : t.e.books ≠ Books.opened t.e.sender) :
    (t.step P o).1.e.books ≠ (r.next P t (.thread o) (t.step P o).2).books := by
  have haccounts := Thread.step_accounts (P := P) h.active o
  obtain ⟨hrecorded, hmissed⟩ :=
    Thread.recorded_eq_zero (P := P) (Loc.records_of_polls hpoll) o
  have hledger : (r.next P t (.thread o) (t.step P o).2).books = Books.opened t.e.sender := by
    show t.accounts r.books o (t.step P o).2 = _
    rw [Thread.accounts, hrecorded, hmissed, Books.record_zero, Books.seeing, if_pos hmem]
  rw [haccounts.books, if_pos hpoll, hledger]
  exact hbooks

/-- **Every step** leaves the totals no smaller, unless it resets them. -/
theorem Grows.step (h : r.Grows t) (o : Obs) :
    (r.next P t (.thread o) (t.step P o).2).Grows (t.step P o).1 := by
  have haccounts := Thread.step_accounts (P := P) h.active o
  have hmove := (t.step_sender P o).grows
  obtain ⟨ss, hss, hall⟩ := haccounts.shows
  -- What is shown in the step, against the books before and after it.
  have hshown : t.e.sender.Grows (t.shownSender (t.step P o).1) ∧
      (t.shownSender (t.step P o).1).Grows (t.step P o).1.e.sender := by
    unfold Thread.shownSender
    split
    · exact ⟨InputSender.Grows.refl _, hmove⟩
    · exact ⟨hmove, InputSender.Grows.refl _⟩
  have hafter : ((t.step P o).1.e.books.totals (t.shownSender (t.step P o).1)).Le
      ((t.step P o).1.e.books.totals (t.step P o).1.e.sender) :=
    Books.totals_le _ 0 0 hshown.2
  have hpairs : (ss.map totals).Pairwise Totals.Le := by
    rw [List.pairwise_map]
    apply List.pairwise_of_forall_mem_list
    intro s hs s' hs'
    rw [hall s hs, hall s' hs']
    exact Books.totals_le _ 0 0 (InputSender.Grows.refl _)
  by_cases hreset : Command.resetTotals ∈ commandsOf (t.step P o).2
  · have hmark : (r.next P t (.thread o) (t.step P o).2).mark = t.e.published.length :=
      if_pos hreset
    have hdrop : (t.step P o).1.e.published.drop t.e.published.length = ss := by
      rw [hss, List.drop_left]
    refine ⟨h.active.step o, ?_, ?_, ?_⟩
    · rw [hmark, hss, List.length_append]
      omega
    · rw [hmark, hdrop]
      exact hpairs
    · rw [hmark, hdrop]
      intro s hs
      rw [hall s hs]
      exact hafter
  · have hmark : (r.next P t (.thread o) (t.step P o).2).mark = r.mark := if_neg hreset
    have hdrop : (t.step P o).1.e.published.drop r.mark = t.e.published.drop r.mark ++ ss := by
      rw [hss, List.drop_append_of_le_length h.mark]
    have hbefore : (t.e.books.totals t.e.sender).Le
        ((t.step P o).1.e.books.totals (t.shownSender (t.step P o).1)) := by
      rw [haccounts.books]
      split
      · exact Books.totals_le _ 0 0 hshown.1
      · rw [Thread.accounts, t.e.books.seeing_of_notMem _ hreset]
        exact Books.totals_le _ _ _ hshown.1
    refine ⟨h.active.step o, ?_, ?_, ?_⟩
    · rw [hmark, hss, List.length_append]
      have hle := h.mark
      omega
    · rw [hmark, hdrop, List.map_append, List.pairwise_append]
      refine ⟨h.sorted, hpairs, ?_⟩
      intro T hT T' hT'
      obtain ⟨s, hs, rfl⟩ := List.mem_map.mp hT
      obtain ⟨s', hs', rfl⟩ := List.mem_map.mp hT'
      rw [hall s' hs']
      exact (h.below s hs).trans hbefore
    · rw [hmark, hdrop]
      intro s hs
      rcases List.mem_append.mp hs with hold | hnew
      · exact ((h.below s hold).trans hbefore).trans hafter
      · rw [hall s hnew]
        exact hafter

/-- The other threads change neither the books nor the snapshots. -/
theorem Fits.next (h : r.Fits t) (act : Act) (hreset : ResetsNothing P (t, r) act) :
    ((ledgerMachine P).next (t, r) act).2.Fits ((ledgerMachine P).next (t, r) act).1 := by
  cases act with
  | thread o => exact h.step o hreset
  | _ => exact ⟨h.active, h.books, h.due⟩

/-- The same with the other threads. -/
theorem Grows.next (h : r.Grows t) (act : Act) :
    ((ledgerMachine P).next (t, r) act).2.Grows ((ledgerMachine P).next (t, r) act).1 := by
  cases act with
  | thread o => exact h.step o
  | _ => exact ⟨h.active, h.mark, h.sorted, h.below⟩

/-- At the first wait everything is 0. -/
theorem Fits.start (waiter : PreciseWaiter) (clock : ℤ) :
    Fits (Thread.start P waiter clock) {} :=
  ⟨start_active waiter clock, (start_published waiter clock).1,
    (start_published waiter clock).2⟩

/-- The same for what has been shown. -/
theorem Grows.start (waiter : PreciseWaiter) (clock : ℤ) :
    Grows (Thread.start P waiter clock) {} := by
  have hpub := (start_published (P := P) waiter clock).2
  refine ⟨start_active waiter clock, Nat.zero_le _, ?_, ?_⟩
  · show ((Thread.start P waiter clock).e.published.map totals).Pairwise Totals.Le
    rw [hpub]
    exact List.pairwise_singleton _ _
  · intro s hs
    have hmem : s.totals ∈ (Thread.start P waiter clock).e.published.map totals :=
      List.mem_map_of_mem hs
    rw [hpub, List.mem_singleton] at hmem
    rw [hmem]
    exact ⟨Nat.zero_le _, Nat.zero_le _, Nat.zero_le _, Nat.zero_le _, Nat.zero_le _,
      Nat.zero_le _⟩

end Ledger

/-- Without a reset no published total ever decreases. -/
theorem totals_grow (P : Platform) (waiter : PreciseWaiter) (clock : ℤ) (acts : List Act) :
    Ledger.Grows ((ledgerMachine P).after (Thread.start P waiter clock, {}) acts).1
      ((ledgerMachine P).after (Thread.start P waiter clock, {}) acts).2 :=
  (ledgerMachine P).invariant (I := fun x => x.2.Grows x.1) (fun _ act h => h.next act)
    (Ledger.Grows.start waiter clock) acts

/-- **The totals account for everything since the last reset**: in every run whose resets are
    consumed outside a run, or find nothing to reset, each snapshot published shows the totals of
    the ledger; and those since the last reset only grow. -/
theorem totals_account (P : Platform) (waiter : PreciseWaiter) (clock : ℤ) (acts : List Act)
    (hresets : (ledgerMachine P).Meets (ResetsNothing P) (Thread.start P waiter clock, {}) acts) :
    ((ledgerMachine P).after (Thread.start P waiter clock, {}) acts).1.e.published.map totals =
        ((ledgerMachine P).after (Thread.start P waiter clock, {}) acts).2.due ∧
      ((((ledgerMachine P).after (Thread.start P waiter clock, {}) acts).1.e.published.drop
        ((ledgerMachine P).after (Thread.start P waiter clock, {}) acts).2.mark).map
          totals).Pairwise Totals.Le := by
  have hfits := (ledgerMachine P).invariant_of_meets (I := fun x => x.2.Fits x.1)
    (fun _ act h hact => h.next act hact) (Ledger.Fits.start waiter clock) hresets
  exact ⟨hfits.due, (totals_grow P waiter clock acts).sorted⟩

/-- A run of one click, and a reset after it. -/
def clickThenReset : List Act :=
  Act.post (.startRun { maxActions := 1 } 1) ++ Act.steps 12 ++ Act.post .resetTotals ++
    Act.steps 3

/-- The click is shown, and gone after the reset. -/
theorem clickThenReset_accounts :
    ((ledgerMachine .tenMegahertz).after (Thread.start .tenMegahertz {} 1000000000, {})
        clickThenReset).1.e.published.map totals =
      ((ledgerMachine .tenMegahertz).after (Thread.start .tenMegahertz {} 1000000000, {})
        clickThenReset).2.due ∧
    ((ledgerMachine .tenMegahertz).after (Thread.start .tenMegahertz {} 1000000000, {})
        clickThenReset).2.due =
      [{}, {}, {}, { actions := 1, calls := 1, requested := 2, accepted := 2 }, {}] :=
  ⟨(totals_account .tenMegahertz {} 1000000000 clickThenReset (by decide +kernel)).1,
    by decide +kernel⟩

/-- A run of which one click has gone out when the reset is consumed; then the run is stopped. -/
def resetInRun : List Act :=
  Act.post (.startRun {} 1) ++ Act.steps 8 ++ Act.post .resetTotals ++ Act.post .stopRun ++
    Act.steps 2

/-- A reset consumed in a run is dropped: the snapshot at the end of the run still shows what
    came before it. -/
theorem resetInRun_dropped :
    ¬ ∀ acts : List Act,
      ((ledgerMachine .tenMegahertz).after (Thread.start .tenMegahertz {} 1000000000, {})
          acts).1.e.published.map totals =
        ((ledgerMachine .tenMegahertz).after (Thread.start .tenMegahertz {} 1000000000, {})
          acts).2.due := by
  intro hall
  exact absurd (hall resetInRun) (by decide +kernel)

end InfinityClicker
