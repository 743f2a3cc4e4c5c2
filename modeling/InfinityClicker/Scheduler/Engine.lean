import InfinityClicker.Input.InputSender
import InfinityClicker.Scheduler.Modes
import InfinityClicker.Scheduler.PreciseWaiter
import InfinityClicker.Telemetry.Stats

namespace InfinityClicker

/-!
# The engine's state and what its thread does between waits

`Engine` is the state behind the engine's thread: the command queue, the flags other threads
see, the configuration with its compiled programs, and the controls of the run.

* `Engine.idleCommand` — one command in `threadMain`'s loop;
* `Engine.handleRunCommands` — a whole batch drained during a run;
* `Engine.rebuildProgram`, `Engine.publish`, `Engine.checkGate`, `Engine.releaseAll` — what the
  loops of `Scheduler/EngineLoop` are made of.
-/

/-! ### Configuration and commands -/

/-- `LatePolicy`: what happens to slots that have passed. -/
inductive LatePolicy where
  | skip
  | catchUp
deriving DecidableEq, Repr

/-- `ThreadPrio`: the priority asked for the engine thread. -/
inductive ThreadPrio where
  | normal
  | aboveNormal
  | highest
  | timeCritical
  | mmcss
deriving DecidableEq, Repr

/-- `int(cfg_->priority)`. -/
def ThreadPrio.code : ThreadPrio → ℕ
  | .normal => 0
  | .aboveNormal => 1
  | .highest => 2
  | .timeCritical => 3
  | .mmcss => 4

/-- A rate as `makeEngineConfig` clamps it: 0.01 to a million actions per second. -/
def Cps := { q : ℚ // 1 / 100 ≤ q ∧ q ≤ 1000000 }

instance : DecidableEq Cps := inferInstanceAs (DecidableEq { q : ℚ // 1 / 100 ≤ q ∧ q ≤ 1000000 })

/-- The rate of a default configuration. -/
def Cps.standard : Cps := ⟨20, by norm_num⟩

/-- `EngineConfig`: all that a run is set up by. -/
structure EngineConfig where
  action : InputAction := {}
  mode : ModeParams := {}
  maxMode : Bool := false
  cps : Cps := .standard
  precision : Precision := .standard
  priority : ThreadPrio := .highest
  latePolicy : LatePolicy := .catchUp
  /-- MAX mode: actions per `SendInput` call. -/
  maxBatchActions : BitVec 32 := 8
  /-- MAX mode backpressure on hook-observed events; 0 is off. -/
  maxInflight : BitVec 32 := 0
  /-- The test pad's window, 0 for none. -/
  testTargetHwnd : ℕ := 0
deriving DecidableEq

/-- `Command`: what the other threads ask of the engine. -/
inductive Command where
  | setConfig (cfg : EngineConfig)
  | arm (on : Bool)
  | triggerDown (qpc : ℤ)
  | triggerUp (qpc : ℤ)
  | startRun (limits : RunLimits) (qpc : ℤ)
  | stopRun
  | emergency (qpc : ℤ)
  | quit
  | resetTotals
deriving DecidableEq

/-- `UINT64_MAX`. -/
def kUnlimited : BitVec 64 := BitVec.allOnes 64
/-- `INT64_MAX`: a run without an end. -/
def kNoEnd : ℤ := 9223372036854775807

/-- Most clicks that a late slot catches up with at once. -/
def kMaxCatchUpBatch : ℕ := 8

/-- Time between two snapshots of a run, in milliseconds. -/
def kPublishMs : ℚ := 100

/-- Time between two looks at the gate in the timed loop, in milliseconds. -/
def kGateCheckMs : ℚ := 2

/-- `run_.remaining` of a run started with these limits. -/
def RunLimits.remaining (lim : RunLimits) : BitVec 64 :=
  if lim.maxActions ≠ 0 then lim.maxActions else kUnlimited

/-- `RunCtl`: what can end the run in progress. -/
structure RunCtl where
  stop : Bool := false
  emergency : Bool := false
  remaining : BitVec 64 := 0
  endQpc : ℤ := kNoEnd
deriving DecidableEq, Repr

/-- A program as `compileAction` makes it. -/
def Compiled (P : Platform) (p : ActionProgram) : Prop := ∃ a, p = compileAction P a

/-! ### The engine -/

/-- `Engine`: the fields of the class that its thread works on. -/
structure Engine where
  sender : InputSender := {}
  waiter : PreciseWaiter := {}
  /-- The performance counter at the last reading. -/
  clock : ℤ := 0
  cmdEvent : Bool := false
  cmdFlag : Bool := false
  queue : List Command := []
  state : EngineState := .disarmed
  armed : Bool := false
  runsCompleted : ℕ := 0
  cfg : EngineConfig := {}
  /-- Applied at the next action boundary. -/
  pendingCfg : Option EngineConfig := none
  prog : ActionProgram := {}
  maxProg : ActionProgram := {}
  downTimeClamped : Bool := false
  run : RunCtl := {}
  stats : RunStats := {}
  runId : ℕ := 0
  totalMissed : ℕ := 0
  totalActions : ℕ := 0
  baseCalls : ℕ := 0
  baseRequested : ℕ := 0
  baseAccepted : ℕ := 0
  baseFailed : ℕ := 0
  runStartCalls : ℕ := 0
  runStartReq : ℕ := 0
  runStartAcc : ℕ := 0
  runStartFail : ℕ := 0
  nextPublish : ℤ := 0
  lastPublish : ℤ := 0
  pause : PauseReason := .none
  trigSamples : ℕ := 0
  trigLast : ℚ := 0
  trigSum : ℚ := 0
  trigMax : ℚ := 0
  /-- The snapshot under construction; its run fields outlive the run. -/
  work : EngineSnapshot := {}
  /-- Every snapshot written to `snap_`, the oldest first. -/
  published : List EngineSnapshot := []

/-- What `checkGate` finds when it looks. -/
structure GateView where
  /-- `GetForegroundWindow`. -/
  foreground : ℕ := 0
  /-- `WindowFromPoint` at the cursor. -/
  under : ℕ := 0
  /-- `IsChild(target, under)`. -/
  underIsChild : Bool := false
  /-- The gate flag, where a gate is wired. -/
  gateOpen : Option Bool := none
  /-- The gate's reason, where one is wired. -/
  gateReason : Option PauseReason := none
deriving DecidableEq, Repr

namespace Engine

variable (P : Platform)

/-! ### The queue -/

/-- The batch waiting in the queue is taken out. -/
def drained (e : Engine) : Engine := { e with queue := [], cmdFlag := false }

/-- `post`, from the engine's own thread. -/
def post (e : Engine) (c : Command) : Engine :=
  { e with queue := e.queue ++ [c], cmdFlag := true, cmdEvent := true }

/-! ### Configuration -/

/-- QPC ticks per action. -/
def periodOf (c : EngineConfig) : ℚ := P.freq / c.cps.val

/-- The times of an action scaled by `f`. -/
def scaleTimes (a : InputAction) (f : ℚ) : InputAction :=
  { a with
    downTimeUs := (toInt64 (a.downTimeUs * f)).toNat
    repeatGapUs := (toInt64 (a.repeatGapUs * f)).toNat }

/-- `rebuildProgram`: compiles the action for both loops, scaled into half a slot where needed. -/
def rebuildProgram (e : Engine) : Engine :=
  let prog := compileAction P e.cfg.action
  let period := periodOf P e.cfg
  -- An action must finish before the next one starts: scale hold and gap down to half.
  let clamps := !e.cfg.maxMode && prog.ok && decide (0 < e.cfg.cps.val) &&
    decide (0 < prog.spanTicks) && decide (period * (9 / 10) ≤ prog.spanTicks)
  { e with
    prog :=
      if clamps then
        compileAction P (scaleTimes e.cfg.action (period * (1 / 2) / prog.spanTicks))
      else prog
    downTimeClamped := clamps
    maxProg := compileAction P { e.cfg.action with downTimeUs := 0, repeatGapUs := 0 } }

/-- `applyConfig`: takes the configuration and rebuilds. -/
def applyConfig (e : Engine) (c : EngineConfig) : Engine := rebuildProgram P { e with cfg := c }

/-! ### Telemetry -/

/-- The fields of a snapshot that every `publish` sets. -/
def common (e : Engine) (now : ℤ) : EngineSnapshot :=
  { e.work with
    publishSeq := e.work.publishSeq + 1
    publishQpc := now
    state := e.state
    pause := e.pause
    maxMode := e.cfg.maxMode
    precision := e.cfg.precision
    mode := e.cfg.mode.mode
    threadPriority := e.cfg.priority.code
    targetCps := if e.cfg.maxMode then 0 else e.cfg.cps.val
    targetIntervalUs := if 0 < e.cfg.cps.val then 1000000 / e.cfg.cps.val else 0
    totalCalls := e.sender.calls - e.baseCalls
    totalRequested := e.sender.requested - e.baseRequested
    totalAccepted := e.sender.accepted - e.baseAccepted
    totalFailedCalls := e.sender.failedCalls - e.baseFailed
    totalActions := e.totalActions + if e.state.active then e.stats.actions else 0
    totalMissed := e.totalMissed + if e.state.active then e.stats.missed else 0
    totalRuns := e.runId
    lastError := e.sender.lastError
    triggerSamples := e.trigSamples
    lastTriggerLatUs := e.trigLast
    avgTriggerLatUs := if e.trigSamples ≠ 0 then e.trigSum / e.trigSamples else 0
    maxTriggerLatUs := e.trigMax }

/-- The snapshot `publish` writes: the fields of a run are set while it is going on, and whenever
    publishing is forced. -/
def snapshot (e : Engine) (now : ℤ) (force : Bool) : EngineSnapshot :=
  if 0 < e.runId ∧ (e.state.active = true ∨ force = true) then
    { e.stats.fill P (e.common now) now with
      runId := e.runId
      runCalls := e.sender.calls - e.runStartCalls
      runRequested := e.sender.requested - e.runStartReq
      runAccepted := e.sender.accepted - e.runStartAcc
      runFailedCalls := e.sender.failedCalls - e.runStartFail }
  else e.common now

/-- `publish`: the snapshot, and what the scheduler reads back. -/
def publish (e : Engine) (now : ℤ) (force : Bool) : Engine :=
  if !force && decide (now < e.nextPublish) then e
  else
    let waiter := e.waiter.resetAccounting
    { e with
      work := e.snapshot P now force
      published := e.published ++ [e.snapshot P now force]
      nextPublish := now + Clk.msToTicks P kPublishMs
      stats := e.stats.takeSendTicks
      waiter :=
        if !e.state.active && decide (0 < e.cfg.cps.val) then
          waiter.setPeriodHint (toInt64 (periodOf P e.cfg))
        else waiter
      lastPublish := now }

/-- `recordTriggerLatency`: from the trigger's event to the first click, up to a second. -/
def recordTriggerLatency (e : Engine) (triggerQpc fireQpc : ℤ) : Engine :=
  if triggerQpc ≤ 0 ∨ fireQpc < triggerQpc then e
  else
    let us := Clk.ticksToUs P (fireQpc - triggerQpc)
    if 1000000 < us then e
    else
      { e with
        trigSamples := e.trigSamples + 1
        trigLast := us
        trigSum := e.trigSum + us
        trigMax := max e.trigMax us }

/-- `if (fire >= nextPublish_) publish(fire)`. -/
def publishDue (e : Engine) (fire : ℤ) : Engine :=
  if e.nextPublish ≤ fire then e.publish P fire false else e

/-- `if (run_.remaining != kUnlimited) run_.remaining -= n`. -/
def useUp (e : Engine) (n : ℕ) : Engine :=
  if e.run.remaining ≠ kUnlimited then
    { e with run := { e.run with remaining := e.run.remaining - BitVec.ofNat 64 n } }
  else e

/-- The clock moves on by `dt` ticks and is read. -/
def tick (e : Engine) (dt : ℕ) : Engine := { e with clock := e.clock + dt }

/-! ### Releasing and the gate -/

/-- `sender_.releaseAll()`. -/
def releaseAll (e : Engine) (r retry : SendResult) : Engine :=
  { e with sender := (e.sender.releaseAll r retry).sender }

/-- Why the gate is closed; `none` while output may go out. -/
def checkGate (e : Engine) (v : GateView) : Option PauseReason :=
  if e.cfg.testTargetHwnd ≠ 0 then
    let target := e.cfg.testTargetHwnd
    -- Under the test pad's gate only its own window counts.
    if v.foreground ≠ target ∨ (v.under ≠ target ∧ ¬ v.underIsChild) then some .testGate else none
  else if v.gateOpen = some false then some (v.gateReason.getD .targetNotForeground)
  else none

/-! ### Commands -/

/-- The locals of `threadMain`'s loop while it goes through a batch. -/
structure Batch where
  start : Bool := false
  lim : RunLimits := {}
  trigQ : ℤ := 0
  quit : Bool := false
deriving DecidableEq, Repr

/-- One command in the idle loop. -/
def idleCommand (e : Engine) (b : Batch) (r retry : SendResult) : Command → Engine × Batch
  | .setConfig cfg => (applyConfig P e cfg, b)
  | .arm on => ({ e with armed := on, state := if on then .armed else .disarmed }, b)
  | .triggerDown qpc =>
    if e.armed then
      let d := decideOnTriggerDown e.cfg.mode false
      if d.kind = .start then (e, { b with start := true, lim := d.limits, trigQ := qpc })
      else (e, b)
    else (e, b)
  | .triggerUp _ =>
    -- A Hold tap shorter than the wake-up: down and up in the same batch.
    if b.start ∧ e.cfg.mode.mode = .hold then (e, { b with start := false }) else (e, b)
  | .startRun limits qpc => (e, { b with start := true, lim := limits, trigQ := qpc })
  | .stopRun => (e, { b with start := false })
  | .emergency _ =>
    let e := releaseAll { e with armed := false } r retry
    ({ e with state := .disarmed }, { b with start := false })
  | .resetTotals =>
    ({ e with
        totalActions := 0
        totalMissed := 0
        baseCalls := e.sender.calls
        baseRequested := e.sender.requested
        baseAccepted := e.sender.accepted
        baseFailed := e.sender.failedCalls }, b)
  | .quit => (e, { b with quit := true })

/-- The commands of a batch in the idle loop, from its locals `b` on. -/
def idleCommands (e : Engine) (b : Batch) (r retry : SendResult) : List Command → Engine × Batch
  | [] => (e, b)
  | c :: cs =>
    let (e, b) := e.idleCommand P b r retry c
    idleCommands e b r retry cs

/-- One command during a run. -/
def runCommand (e : Engine) : Command → Engine
  | .setConfig cfg => { e with pendingCfg := some cfg }
  | .arm on =>
    let e := { e with armed := on }
    if on then e else { e with run := { e.run with stop := true } }
  | .triggerDown _ =>
    let d := decideOnTriggerDown e.cfg.mode true
    if d.kind = .stop then { e with run := { e.run with stop := true } }
    else if d.kind = .extend ∧ e.run.remaining ≠ kUnlimited then
      { e with run := { e.run with remaining := e.run.remaining + d.extendBy } }
    else e
  | .triggerUp _ =>
    if (decideOnTriggerUp e.cfg.mode true).kind = .stop then
      { e with run := { e.run with stop := true } }
    else e
  | .startRun _ _ => e
  | .stopRun => { e with run := { e.run with stop := true } }
  | .emergency _ =>
    { e with armed := false, run := { e.run with stop := true, emergency := true } }
  | .resetTotals => e
  -- Queued again, so that the idle loop ends after the run.
  | .quit => post { e with run := { e.run with stop := true } } .quit

/-- A batch during a run: `Quit` returns at once, with the rest of the batch dropped. -/
def runCommands (e : Engine) : List Command → Engine
  | [] => e
  | .quit :: _ => runCommand e .quit
  | c :: cs => runCommands (runCommand e c) cs

/-- The commands of a batch that are looked at. -/
def handled : List Command → List Command
  | [] => []
  | .quit :: _ => []
  | c :: cs => c :: handled cs

/-- A command other than Quit is handled, and so are those after it. -/
theorem handled_cons {c : Command} (hquit : c ≠ .quit) (cs : List Command) :
    handled (c :: cs) = c :: handled cs := by
  cases c with
  | quit => exact absurd rfl hquit
  | _ => rfl

/-- Drains the queue and goes through it; the run must stop when `run.stop` is set after it. -/
def handleRunCommands (e : Engine) : Engine := runCommands e.drained e.queue

/-! ### What each piece leaves alone -/

variable (e : Engine)

/-- Time passes by as much as was said. -/
@[simp] theorem tick_clock (dt : ℕ) : (e.tick dt).clock = e.clock + dt := rfl

/-- Time passing changes nothing but the clock. -/
@[simp] theorem tick_frame (dt : ℕ) :
    (e.tick dt).sender = e.sender ∧ (e.tick dt).cfg = e.cfg ∧ (e.tick dt).prog = e.prog ∧
      (e.tick dt).maxProg = e.maxProg ∧ (e.tick dt).armed = e.armed ∧
      (e.tick dt).state = e.state ∧ (e.tick dt).run = e.run ∧ (e.tick dt).queue = e.queue ∧
      (e.tick dt).pendingCfg = e.pendingCfg ∧ (e.tick dt).cmdFlag = e.cmdFlag :=
  ⟨rfl, rfl, rfl, rfl, rfl, rfl, rfl, rfl, rfl, rfl⟩

/-- Publishing touches no control of the run. -/
@[simp] theorem publish_frame (now : ℤ) (force : Bool) :
    (e.publish P now force).sender = e.sender ∧ (e.publish P now force).cfg = e.cfg ∧
      (e.publish P now force).prog = e.prog ∧ (e.publish P now force).maxProg = e.maxProg ∧
      (e.publish P now force).armed = e.armed ∧ (e.publish P now force).state = e.state ∧
      (e.publish P now force).run = e.run ∧ (e.publish P now force).queue = e.queue ∧
      (e.publish P now force).pendingCfg = e.pendingCfg ∧
      (e.publish P now force).cmdFlag = e.cmdFlag ∧
      (e.publish P now force).clock = e.clock := by
  unfold publish
  split <;> exact ⟨rfl, rfl, rfl, rfl, rfl, rfl, rfl, rfl, rfl, rfl, rfl⟩

/-- The latency record touches nothing else. -/
@[simp] theorem recordTriggerLatency_frame (q fire : ℤ) :
    (e.recordTriggerLatency P q fire).sender = e.sender ∧
      (e.recordTriggerLatency P q fire).cfg = e.cfg ∧
      (e.recordTriggerLatency P q fire).prog = e.prog ∧
      (e.recordTriggerLatency P q fire).maxProg = e.maxProg ∧
      (e.recordTriggerLatency P q fire).armed = e.armed ∧
      (e.recordTriggerLatency P q fire).state = e.state ∧
      (e.recordTriggerLatency P q fire).run = e.run ∧
      (e.recordTriggerLatency P q fire).queue = e.queue ∧
      (e.recordTriggerLatency P q fire).pendingCfg = e.pendingCfg ∧
      (e.recordTriggerLatency P q fire).cmdFlag = e.cmdFlag ∧
      (e.recordTriggerLatency P q fire).clock = e.clock := by
  unfold recordTriggerLatency
  split
  · exact ⟨rfl, rfl, rfl, rfl, rfl, rfl, rfl, rfl, rfl, rfl, rfl⟩
  · dsimp only
    split <;> exact ⟨rfl, rfl, rfl, rfl, rfl, rfl, rfl, rfl, rfl, rfl, rfl⟩

/-- A snapshot that is due leaves the run alone. -/
@[simp] theorem publishDue_frame (fire : ℤ) :
    (e.publishDue P fire).sender = e.sender ∧ (e.publishDue P fire).cfg = e.cfg ∧
      (e.publishDue P fire).prog = e.prog ∧ (e.publishDue P fire).maxProg = e.maxProg ∧
      (e.publishDue P fire).armed = e.armed ∧ (e.publishDue P fire).state = e.state ∧
      (e.publishDue P fire).run = e.run ∧ (e.publishDue P fire).pendingCfg = e.pendingCfg ∧
      (e.publishDue P fire).clock = e.clock := by
  unfold publishDue
  split <;> simp

/-- Counting actions off the limit changes the limit alone. -/
@[simp] theorem useUp_frame (n : ℕ) :
    (e.useUp n).sender = e.sender ∧ (e.useUp n).cfg = e.cfg ∧ (e.useUp n).prog = e.prog ∧
      (e.useUp n).maxProg = e.maxProg ∧ (e.useUp n).armed = e.armed ∧
      (e.useUp n).state = e.state ∧ (e.useUp n).run.endQpc = e.run.endQpc ∧
      (e.useUp n).pendingCfg = e.pendingCfg ∧ (e.useUp n).clock = e.clock := by
  unfold useUp
  split <;> exact ⟨rfl, rfl, rfl, rfl, rfl, rfl, rfl, rfl, rfl⟩

/-- Releasing is the sender's business. -/
@[simp] theorem releaseAll_sender (r retry : SendResult) :
    (e.releaseAll r retry).sender = (e.sender.releaseAll r retry).sender := rfl

/-- Releasing leaves the run alone. -/
@[simp] theorem releaseAll_frame (r retry : SendResult) :
    (e.releaseAll r retry).cfg = e.cfg ∧ (e.releaseAll r retry).prog = e.prog ∧
      (e.releaseAll r retry).maxProg = e.maxProg ∧ (e.releaseAll r retry).armed = e.armed ∧
      (e.releaseAll r retry).state = e.state ∧ (e.releaseAll r retry).run = e.run ∧
      (e.releaseAll r retry).queue = e.queue ∧
      (e.releaseAll r retry).pendingCfg = e.pendingCfg ∧
      (e.releaseAll r retry).cmdFlag = e.cmdFlag ∧ (e.releaseAll r retry).clock = e.clock :=
  ⟨rfl, rfl, rfl, rfl, rfl, rfl, rfl, rfl, rfl, rfl⟩

/-- An applied configuration is the current one. -/
@[simp] theorem applyConfig_cfg (c : EngineConfig) : (e.applyConfig P c).cfg = c := rfl

/-- A configuration changes the programs and nothing a run is controlled by. -/
@[simp] theorem applyConfig_frame (c : EngineConfig) :
    (e.applyConfig P c).sender = e.sender ∧ (e.applyConfig P c).armed = e.armed ∧
      (e.applyConfig P c).state = e.state ∧ (e.applyConfig P c).run = e.run ∧
      (e.applyConfig P c).queue = e.queue ∧ (e.applyConfig P c).pendingCfg = e.pendingCfg ∧
      (e.applyConfig P c).cmdFlag = e.cmdFlag ∧ (e.applyConfig P c).clock = e.clock :=
  ⟨rfl, rfl, rfl, rfl, rfl, rfl, rfl, rfl⟩

/-- In the idle loop a trigger edge is about the batch alone. -/
@[simp] theorem idleCommand_triggerDown (b : Batch) (r retry : SendResult) (q : ℤ) :
    (e.idleCommand P b r retry (.triggerDown q)).1 = e := by
  simp only [idleCommand]
  split
  · split <;> rfl
  · rfl

/-- While idle a trigger going up asks for nothing. -/
@[simp] theorem idleCommand_triggerUp (b : Batch) (r retry : SendResult) (q : ℤ) :
    (e.idleCommand P b r retry (.triggerUp q)).1 = e := by
  simp only [idleCommand]
  split <;> rfl

/-- In a run it is about the run's controls alone, and takes no stop back. -/
theorem runCommand_triggerDown (q : ℤ) : ∃ run : RunCtl,
    run.endQpc = e.run.endQpc ∧ (e.run.stop = true → run.stop = true) ∧
      e.runCommand (.triggerDown q) = { e with run := run } := by
  simp only [runCommand]
  split
  · exact ⟨{ e.run with stop := true }, rfl, fun _ => rfl, rfl⟩
  · split
    · let more := e.run.remaining + (decideOnTriggerDown e.cfg.mode true).extendBy
      exact ⟨{ e.run with remaining := more }, rfl, id, rfl⟩
    · exact ⟨e.run, rfl, id, rfl⟩

/-- In a run a trigger going up can only stop it. -/
theorem runCommand_triggerUp (q : ℤ) : ∃ run : RunCtl,
    run.endQpc = e.run.endQpc ∧ (e.run.stop = true → run.stop = true) ∧
      e.runCommand (.triggerUp q) = { e with run := run } := by
  simp only [runCommand]
  split
  · exact ⟨{ e.run with stop := true }, rfl, fun _ => rfl, rfl⟩
  · exact ⟨e.run, rfl, id, rfl⟩

/-- A command during a run changes the run's controls, the armed flag and the pending
    configuration; the programs and the sender it leaves alone. -/
@[simp] theorem runCommand_frame (c : Command) :
    (e.runCommand c).sender = e.sender ∧ (e.runCommand c).cfg = e.cfg ∧
      (e.runCommand c).prog = e.prog ∧ (e.runCommand c).maxProg = e.maxProg ∧
      (e.runCommand c).state = e.state ∧ (e.runCommand c).clock = e.clock ∧
      (e.runCommand c).run.endQpc = e.run.endQpc := by
  cases c with
  | arm on => cases on <;> exact ⟨rfl, rfl, rfl, rfl, rfl, rfl, rfl⟩
  | triggerDown qpc =>
    obtain ⟨run, hend, -, heq⟩ := e.runCommand_triggerDown qpc
    rw [heq]
    exact ⟨rfl, rfl, rfl, rfl, rfl, rfl, hend⟩
  | triggerUp qpc =>
    obtain ⟨run, hend, -, heq⟩ := e.runCommand_triggerUp qpc
    rw [heq]
    exact ⟨rfl, rfl, rfl, rfl, rfl, rfl, hend⟩
  | _ => exact ⟨rfl, rfl, rfl, rfl, rfl, rfl, rfl⟩

/-- Commands taken in a run leave the sender, the programs and the end of time alone. -/
@[simp] theorem runCommands_frame (cs : List Command) :
    (e.runCommands cs).sender = e.sender ∧ (e.runCommands cs).cfg = e.cfg ∧
      (e.runCommands cs).prog = e.prog ∧ (e.runCommands cs).maxProg = e.maxProg ∧
      (e.runCommands cs).state = e.state ∧ (e.runCommands cs).clock = e.clock ∧
      (e.runCommands cs).run.endQpc = e.run.endQpc := by
  fun_induction runCommands e cs with
  | case1 => exact ⟨rfl, rfl, rfl, rfl, rfl, rfl, rfl⟩
  | case2 e => exact runCommand_frame e .quit
  | case3 e c cs _ ih => simpa using ih

/-- So does draining the queue and going through it. -/
@[simp] theorem handleRunCommands_frame :
    e.handleRunCommands.sender = e.sender ∧ e.handleRunCommands.cfg = e.cfg ∧
      e.handleRunCommands.prog = e.prog ∧ e.handleRunCommands.maxProg = e.maxProg ∧
      e.handleRunCommands.state = e.state ∧ e.handleRunCommands.clock = e.clock ∧
      e.handleRunCommands.run.endQpc = e.run.endQpc :=
  runCommands_frame e.drained e.queue

/-- The engine's programs are compiled ones from the first configuration on. -/
theorem rebuildProgram_compiled :
    Compiled P (e.rebuildProgram P).prog ∧ Compiled P (e.rebuildProgram P).maxProg := by
  refine ⟨?_, _, rfl⟩
  simp only [rebuildProgram]
  split
  · exact ⟨_, rfl⟩
  · exact ⟨_, rfl⟩

end Engine

end InfinityClicker
