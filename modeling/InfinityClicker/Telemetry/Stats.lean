import InfinityClicker.Scheduler.Modes
import InfinityClicker.Scheduler.PreciseWaiter
import InfinityClicker.Telemetry.LogHistogram

namespace InfinityClicker

/-!
# Engine states, a run's statistics and the snapshot

The states the engine publishes, the statistics of a run as its thread records them, and the
snapshot made of them.  A standard deviation stands as its square.

* `Running` — count, sums and extremes of a sequence of numbers;
* `RunStats` — what is recorded of a run: actions, intervals, lateness, the time in `SendInput`,
  and the actions of each completed slot of 100 ms;
* `EngineSnapshot` — what `publish` shows the other threads;
* `RunStats.fill` — the fields of a run in it;
* `EngineSnapshot.Totals` — the totals among its fields.
-/

/-- `EngineState`: what the engine is doing, for the display. -/
inductive EngineState where
  | disarmed
  | armed
  | running
  | paused
deriving DecidableEq, Repr

/-- `PauseReason`: why a run is paused. -/
inductive PauseReason where
  | none
  | targetNotForeground
  | ownWindow
  | testGate
deriving DecidableEq, Repr

/-- A run is going on. -/
def EngineState.active : EngineState → Bool
  | .running | .paused => true
  | .disarmed | .armed => false

/-! ### Accumulators -/

/-- `Running`: a running count with sum, squares and extremes. -/
structure Running where
  n : ℕ := 0
  sum : ℚ := 0
  sumSq : ℚ := 0
  mn : ℚ := 0
  mx : ℚ := 0
deriving DecidableEq, Repr

namespace Running

/-- `Running::add`. -/
def add (r : Running) (v : ℚ) : Running :=
  { n := r.n + 1
    sum := r.sum + v
    sumSq := r.sumSq + v * v
    mn := if r.n = 0 then v else min r.mn v
    mx := if r.n = 0 then v else max r.mx v }

/-- `Running::mean`, zero without samples. -/
def mean (r : Running) : ℚ := if r.n ≠ 0 then r.sum / r.n else 0

/-- `stddev` before the square root. -/
def variance (r : Running) : ℚ :=
  if r.n < 2 then 0
  else
    let var := r.sumSq / r.n - r.mean * r.mean
    if 0 < var then var else 0

end Running

/-- `IntervalSummary`: the intervals between actions, in microseconds. -/
structure IntervalSummary where
  count : ℕ := 0
  minUs : ℚ := 0
  maxUs : ℚ := 0
  avgUs : ℚ := 0
  /-- The square of `stddevUs`. -/
  varianceUs : ℚ := 0
deriving DecidableEq, Repr

/-- `LatenessSummary`: how late actions were, in microseconds. -/
structure LatenessSummary where
  count : ℕ := 0
  avgUs : ℚ := 0
  p50Us : ℚ := 0
  p99Us : ℚ := 0
  p999Us : ℚ := 0
  maxUs : ℚ := 0
  /-- Events fired more than 100 us after their deadline. -/
  over100us : ℕ := 0
deriving DecidableEq, Repr

section Summaries

variable (P : Platform)

/-- The intervals of a run as the snapshot shows them. -/
def Running.summarize (r : Running) : IntervalSummary :=
  { count := r.n
    minUs := Clk.ticksToUs P (toInt64 r.mn)
    maxUs := Clk.ticksToUs P (toInt64 r.mx)
    avgUs := r.mean * 1000000 / P.freq
    varianceUs := r.variance * (1000000 / P.freq) ^ 2 }

/-- The lateness of a run as the snapshot shows it. -/
def Running.summarizeLate (r : Running) (h : LogHistogram) (over100 : ℕ) : LatenessSummary :=
  { count := r.n
    avgUs := r.mean * 1000000 / P.freq
    maxUs := Clk.ticksToUs P (toInt64 r.mx)
    p50Us := h.percentile (50 / 100) / 1000
    p99Us := h.percentile (99 / 100) / 1000
    p999Us := h.percentile (999 / 1000) / 1000
    over100us := over100 }

end Summaries

/-! ### A run's statistics -/

/-- Slots of 100 ms that are kept: 10 s. -/
def kCpsHistory : ℕ := 100

/-- `RunStats`: all that a run counts. -/
structure RunStats where
  start : ℤ := 0
  targetPeriod : ℚ := 0
  actions : ℕ := 0
  missed : ℕ := 0
  lastFire : ℤ := 0
  firstFire : ℤ := 0
  intervalRun : Running := {}
  intervalSec : Running := {}
  intervalLastSec : Running := {}
  lateRun : Running := {}
  lateSec : Running := {}
  lateLastSec : Running := {}
  lateHistRun : LogHistogram := {}
  lateHistSec : LogHistogram := {}
  lateHistLastSec : LogHistogram := {}
  over100Run : ℕ := 0
  over100Sec : ℕ := 0
  over100LastSec : ℕ := 0
  sendHist : LogHistogram := {}
  sendMax : ℤ := 0
  sendMaxSec : ℤ := 0
  sendMaxLastSec : ℤ := 0
  sendAccum : ℤ := 0
  slotTicks : ℤ := 0
  slotEnd : ℤ := 0
  slotCount : BitVec 32 := 0
  /-- The ring of completed slots, the newest first. -/
  slots : List (BitVec 32) := []
  slotsDone : ℕ := 0

namespace RunStats

variable (P : Platform)

/-- `begin(now, targetPeriodTicks)`. -/
def begin (now : ℤ) (targetPeriodTicks : ℚ) : RunStats :=
  { start := now
    targetPeriod := targetPeriodTicks
    slotTicks := Clk.msToTicks P 100
    slotEnd := now + Clk.msToTicks P 100 }

/-- `pushSlot`: the slot that ended goes to the front of the history. -/
def pushSlot (s : RunStats) : RunStats :=
  let s := { s with
    slots := (s.slotCount :: s.slots).take kCpsHistory
    slotCount := 0
    slotsDone := s.slotsDone + 1 }
  if s.slotsDone % 10 = 0 then
    -- One second completed.
    { s with
      intervalLastSec := s.intervalSec
      lateLastSec := s.lateSec
      lateHistLastSec := s.lateHistSec
      over100LastSec := s.over100Sec
      sendMaxLastSec := s.sendMaxSec
      sendMaxSec := 0
      intervalSec := {}
      lateSec := {}
      lateHistSec := {}
      over100Sec := 0 }
  else s

/-- The loop of `advance`, `left` times at most: after a long pause the slots start afresh. -/
def advanceLoop (now : ℤ) : (left : ℕ) → RunStats → RunStats
  | 0, s => { s with slotEnd := now + s.slotTicks }
  | left + 1, s =>
    if s.slotEnd ≤ now then
      advanceLoop now left { s.pushSlot with slotEnd := s.slotEnd + s.slotTicks }
    else s

/-- `advance(now)`: the slots that are over are completed. -/
def advance (s : RunStats) (now : ℤ) : RunStats := advanceLoop now (kCpsHistory + 11) s

/-- `n` actions are counted. -/
def count (s : RunStats) (n : ℕ) : RunStats :=
  { s with actions := s.actions + n, slotCount := s.slotCount + BitVec.ofNat 32 n }

/-- The interval before an action, shared by `n` of them. -/
def noteInterval (s : RunStats) (fire : ℤ) (n : ℕ) : RunStats :=
  let s := if s.firstFire = 0 then { s with firstFire := fire } else s
  let s :=
    if s.lastFire ≠ 0 then
      let iv : ℚ := (fire - s.lastFire : ℤ) / n
      { s with intervalRun := s.intervalRun.add iv, intervalSec := s.intervalSec.add iv }
    else s
  { s with lastFire := fire }

/-- How late an action is. -/
def noteLate (s : RunStats) (late : ℤ) : RunStats :=
  let ns := (toInt64 (Clk.ticksToNs P late)).toNat
  let s := { s with
    lateRun := s.lateRun.add late
    lateSec := s.lateSec.add late
    lateHistRun := s.lateHistRun.add ns
    lateHistSec := s.lateHistSec.add ns }
  if 100000 < ns then
    { s with over100Run := s.over100Run + 1, over100Sec := s.over100Sec + 1 }
  else s

/-- `onAction`: one action of the timed loop, with its deadline. -/
def onAction (s : RunStats) (fire deadline : ℤ) : RunStats :=
  (((s.advance fire).count 1).noteInterval fire 1).noteLate P
    (if deadline < fire then fire - deadline else 0)

/-- MAX mode: `n` actions in one call. -/
def onActions (s : RunStats) (now : ℤ) (n : ℕ) : RunStats :=
  ((s.advance now).count n).noteInterval now n

/-- `onMissed`: slots that were skipped. -/
def onMissed (s : RunStats) (n : ℕ) : RunStats := { s with missed := s.missed + n }

/-- `onSendDuration`: the time one `SendInput` call took. -/
def onSendDuration (s : RunStats) (ticks : ℤ) : RunStats :=
  let ticks := max ticks 0
  { s with
    sendHist := s.sendHist.add (toInt64 (Clk.ticksToNs P ticks)).toNat
    sendMax := max s.sendMax ticks
    sendMaxSec := max s.sendMaxSec ticks
    sendAccum := s.sendAccum + ticks }

/-- The time in `SendInput` is taken out. -/
def takeSendTicks (s : RunStats) : RunStats := { s with sendAccum := 0 }

/-! What each operation leaves alone. -/

/-- `s'` comes of `s` by rolling slots: what is not told by slots and seconds is the same. -/
structure Rolled (s s' : RunStats) : Prop where
  start : s'.start = s.start
  slotTicks : s'.slotTicks = s.slotTicks
  actions : s'.actions = s.actions
  missed : s'.missed = s.missed

/-- `s'` comes of `s` by noting intervals and lateness: the slots are the same too. -/
structure Noted (s s' : RunStats) : Prop extends s.Rolled s' where
  slots : s'.slots = s.slots
  slotCount : s'.slotCount = s.slotCount
  slotEnd : s'.slotEnd = s.slotEnd

/-- Notes compose. -/
theorem Noted.trans {s s' s'' : RunStats} (h : s.Noted s') (h' : s'.Noted s'') : s.Noted s'' where
  start := h'.start.trans h.start
  slotTicks := h'.slotTicks.trans h.slotTicks
  actions := h'.actions.trans h.actions
  missed := h'.missed.trans h.missed
  slots := h'.slots.trans h.slots
  slotCount := h'.slotCount.trans h.slotCount
  slotEnd := h'.slotEnd.trans h.slotEnd

/-- Noting an interval touches no slot. -/
theorem noteInterval_noted (s : RunStats) (fire : ℤ) (n : ℕ) :
    s.Noted (s.noteInterval fire n) := by
  unfold noteInterval
  dsimp only
  split <;> split <;> exact ⟨⟨rfl, rfl, rfl, rfl⟩, rfl, rfl, rfl⟩

/-- Noting a lateness touches no slot. -/
theorem noteLate_noted (s : RunStats) (late : ℤ) : s.Noted (s.noteLate P late) := by
  unfold noteLate
  dsimp only
  split <;> exact ⟨⟨rfl, rfl, rfl, rfl⟩, rfl, rfl, rfl⟩

/-- An action is counted and noted. -/
theorem onAction_noted (s : RunStats) (fire deadline : ℤ) :
    ((s.advance fire).count 1).Noted (s.onAction P fire deadline) :=
  (noteInterval_noted _ fire 1).trans (noteLate_noted P _ _)

/-- A batch is counted and noted. -/
theorem onActions_noted (s : RunStats) (now : ℤ) (n : ℕ) :
    ((s.advance now).count n).Noted (s.onActions now n) :=
  noteInterval_noted _ now n

/-- Pushing a slot keeps the counts of the run. -/
theorem pushSlot_rolled (s : RunStats) : s.Rolled s.pushSlot := by
  unfold pushSlot
  dsimp only
  split <;> exact ⟨rfl, rfl, rfl, rfl⟩

/-- Rolling any number of slots keeps the counts of the run. -/
theorem advanceLoop_rolled (now : ℤ) (left : ℕ) (s : RunStats) :
    s.Rolled (advanceLoop now left s) := by
  induction left generalizing s with
  | zero => exact ⟨rfl, rfl, rfl, rfl⟩
  | succ left ih =>
    rw [advanceLoop]
    split
    · have hpush := s.pushSlot_rolled
      have hrest := ih { s.pushSlot with slotEnd := s.slotEnd + s.slotTicks }
      exact ⟨hrest.start.trans hpush.start, hrest.slotTicks.trans hpush.slotTicks,
        hrest.actions.trans hpush.actions, hrest.missed.trans hpush.missed⟩
    · exact ⟨rfl, rfl, rfl, rfl⟩

/-- **An action** is counted once. -/
theorem onAction_counts (s : RunStats) (fire deadline : ℤ) :
    (s.onAction P fire deadline).actions = s.actions + 1 ∧
      (s.onAction P fire deadline).missed = s.missed := by
  have hnoted := s.onAction_noted P fire deadline
  have hroll : s.Rolled (s.advance fire) := advanceLoop_rolled fire _ s
  exact ⟨hnoted.actions.trans (congrArg (· + 1) hroll.actions), hnoted.missed.trans hroll.missed⟩

/-- A batch of `n` is counted `n` times. -/
theorem onActions_counts (s : RunStats) (now : ℤ) (n : ℕ) :
    (s.onActions now n).actions = s.actions + n ∧ (s.onActions now n).missed = s.missed := by
  have hnoted := s.onActions_noted now n
  have hroll : s.Rolled (s.advance now) := advanceLoop_rolled now _ s
  exact ⟨hnoted.actions.trans (congrArg (· + n) hroll.actions), hnoted.missed.trans hroll.missed⟩

end RunStats

/-! ### The snapshot -/

/-- `EngineSnapshot`: what the engine publishes for the window. -/
structure EngineSnapshot where
  publishSeq : ℕ := 0
  publishQpc : ℤ := 0
  state : EngineState := .disarmed
  pause : PauseReason := .none
  maxMode : Bool := false
  precision : Precision := .standard
  mode : TriggerMode := .toggle
  threadPriority : ℕ := 0
  targetCps : ℚ := 0
  targetIntervalUs : ℚ := 0
  totalActions : ℕ := 0
  totalCalls : ℕ := 0
  totalRequested : ℕ := 0
  totalAccepted : ℕ := 0
  totalFailedCalls : ℕ := 0
  totalMissed : ℕ := 0
  totalRuns : ℕ := 0
  lastError : BitVec 32 := 0
  /-- The current run, or the last finished one. -/
  runId : ℕ := 0
  runElapsedSec : ℚ := 0
  runActions : ℕ := 0
  runMissed : ℕ := 0
  runCalls : ℕ := 0
  runRequested : ℕ := 0
  runAccepted : ℕ := 0
  runFailedCalls : ℕ := 0
  runAvgCps : ℚ := 0
  cps1s : ℚ := 0
  cps5s : ℚ := 0
  runInterval : IntervalSummary := {}
  secInterval : IntervalSummary := {}
  runLate : LatenessSummary := {}
  secLate : LatenessSummary := {}
  avgErrorPct : ℚ := 0
  sendP50Us : ℚ := 0
  sendP99Us : ℚ := 0
  sendMaxUs : ℚ := 0
  sendMaxLastSecUs : ℚ := 0
  triggerSamples : ℕ := 0
  lastTriggerLatUs : ℚ := 0
  avgTriggerLatUs : ℚ := 0
  maxTriggerLatUs : ℚ := 0
  /-- Actions per second in the slots that are kept, the oldest first. -/
  cpsHistory : List ℚ := []
deriving DecidableEq, Repr

namespace RunStats

variable (P : Platform)

/-- The achieved rate: the intervals between the first and the last action, or the actions over
    the time of a run that has no interval. -/
def avgCps (st : RunStats) (now : ℤ) : ℚ :=
  let elapsed := Clk.ticksToSec P (now - st.start)
  if 2 ≤ st.actions ∧ st.firstFire < st.lastFire then
    (st.actions - 1 : ℕ) / Clk.ticksToSec P (st.lastFire - st.firstFire)
  else if 0 < elapsed then st.actions / elapsed else 0

/-- `sumLast`: the actions of the last `n` completed slots, and how many of these there are. -/
def sumLast (st : RunStats) (n : ℕ) : ℕ × ℕ :=
  (((st.slots.take n).map BitVec.toNat).sum, min n st.slots.length)

/-- The rate over the last `n` completed slots. -/
def rollingCps (st : RunStats) (now : ℤ) (n : ℕ) : ℚ :=
  if (st.sumLast n).2 ≠ 0 then (st.sumLast n).1 / (1 / 10 * (st.sumLast n).2)
  else st.avgCps P now

/-- `fill`: the fields of the run. -/
def fill (st : RunStats) (s : EngineSnapshot) (now : ℤ) : EngineSnapshot :=
  { s with
    runElapsedSec := Clk.ticksToSec P (now - st.start)
    runActions := st.actions
    runMissed := st.missed
    runAvgCps := st.avgCps P now
    cps1s := st.rollingCps P now 10
    cps5s := st.rollingCps P now 50
    runInterval := st.intervalRun.summarize P
    secInterval :=
      (if st.intervalLastSec.n ≠ 0 then st.intervalLastSec else st.intervalSec).summarize P
    runLate := st.lateRun.summarizeLate P st.lateHistRun st.over100Run
    secLate :=
      if st.lateLastSec.n ≠ 0 then
        st.lateLastSec.summarizeLate P st.lateHistLastSec st.over100LastSec
      else st.lateSec.summarizeLate P st.lateHistSec st.over100Sec
    avgErrorPct :=
      if 0 < st.targetPeriod ∧ 0 < st.intervalRun.n then
        |st.intervalRun.mean - st.targetPeriod| / st.targetPeriod * 100
      else 0
    sendP50Us := st.sendHist.percentile (50 / 100) / 1000
    sendP99Us := st.sendHist.percentile (99 / 100) / 1000
    sendMaxUs := Clk.ticksToUs P st.sendMax
    sendMaxLastSecUs := Clk.ticksToUs P (max st.sendMaxLastSec st.sendMaxSec)
    cpsHistory := st.slots.reverse.map fun c => c.toNat * 10 }

end RunStats

/-- The totals of a snapshot. -/
structure EngineSnapshot.Totals where
  actions : ℕ := 0
  missed : ℕ := 0
  calls : ℕ := 0
  requested : ℕ := 0
  accepted : ℕ := 0
  failedCalls : ℕ := 0
deriving DecidableEq, Repr

/-- The totals that a snapshot shows. -/
def EngineSnapshot.totals (s : EngineSnapshot) : Totals :=
  { actions := s.totalActions
    missed := s.totalMissed
    calls := s.totalCalls
    requested := s.totalRequested
    accepted := s.totalAccepted
    failedCalls := s.totalFailedCalls }

end InfinityClicker
