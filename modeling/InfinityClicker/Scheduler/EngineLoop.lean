import InfinityClicker.Core.Machine
import InfinityClicker.Scheduler.Engine

namespace InfinityClicker

open Machines

/-!
# The engine's thread as a machine

`threadMain` with `doRun`, `runTimed`, `runMax` and `pauseUntilGate` below it, cut where other
threads can come in between: a `Loc` is a place in the thread's program with the locals alive
there.  The other threads push commands, set the flag and the event, and store `armed_`.

* `Obs` — what one piece of the thread's program meets: clock advances, the gate, waits,
  `SendInput` results;
* `Event` — what it does that others see: commands consumed, gate checks, slots fired, calls
  of `SendInput`;
* `engineMachine` — the thread and the others in any interleaving.
-/

/-- What a step of the thread meets. -/
structure Obs where
  /-- Clock advances before the readings of the step, in order. -/
  dt : ℕ → ℕ := fun _ => 0
  gate : GateView := {}
  waits : List WaitObs := []
  /-- How an action's `SendInput` goes. -/
  sent : SendResult := {}
  /-- How `releaseAll`'s calls go. -/
  release : SendResult := {}
  retry : SendResult := {}
  /-- The hook's counter, where one is wired. -/
  observed : Option ℕ := none

/-- The locals of `runTimed`. -/
structure TimedLocals where
  tl : Timeline
  step : ℕ := 0
  first : Bool := true
  lastGate : ℤ := 0
  triggerQpc : ℤ := 0

/-- The locals of `runMax`. -/
structure MaxLocals where
  batch : List INPUT
  per : ℕ
  B : ℕ
  first : Bool := true
  lastGate : ℤ := 0
  bpSpins : ℕ := 0
  bpBase : ℤ := 0
  triggerQpc : ℤ := 0

/-- Where the thread is. -/
inductive Loc where
  /-- `WaitForSingleObject(cmdEvent_, INFINITE)`. -/
  | idle
  /-- In the idle loop's batch, with the commands still to come. -/
  | commands (cmds : List Command) (b : Engine.Batch)
  /-- `runTimed`: top of the loop, the poll of the command flag. -/
  | timed (l : TimedLocals)
  /-- At an action boundary: a pending configuration. -/
  | timedConfig (l : TimedLocals)
  /-- At an action boundary: the end of the run by count, and the gate. -/
  | timedGate (l : TimedLocals)
  /-- `pauseUntilGate`, called from `runTimed`. -/
  | timedPause (l : TimedLocals)
  /-- At an action boundary, with its reading `now`: late slots, and the end of the run by
      time. -/
  | timedLate (l : TimedLocals) (now : ℤ)
  /-- The wait for the deadline and the `SendInput`. -/
  | timedAct (l : TimedLocals)
  /-- `runMax`: top of the loop, the poll of the command flag. -/
  | max (l : MaxLocals)
  /-- A pending configuration in MAX mode. -/
  | maxConfig (l : MaxLocals)
  /-- The ends of a MAX run, and the gate. -/
  | maxGate (l : MaxLocals)
  /-- `pauseUntilGate`, called from `runMax`; the reading `now` before it. -/
  | maxPause (l : MaxLocals) (now : ℤ)
  /-- Backpressure and the `SendInput`, with the reading `now`. -/
  | maxSend (l : MaxLocals) (now : ℤ)
  /-- `doRun` after the run's loop. -/
  | ending
  /-- The thread has returned. -/
  | done

/-- What a step does that others see. -/
inductive Event where
  | consumed (c : Command)
  /-- A run starts, with its `endQpc`. -/
  | runStarted (triggerQpc endQpc : ℤ)
  | runEnded
  /-- A `checkGate` at a clock reading, and whether the gate was open. -/
  | looked (at_ : ℤ) (isOpen : Bool)
  /-- A grid epoch begins. -/
  | epoch (tl : Timeline)
  /-- A timed action starts at a clock reading, and with it `batch` slots from `k` on. -/
  | fired (at_ : ℤ) (k batch : ℕ)
  /-- Slots reported as missed. -/
  | missed (n : ℕ)
  /-- A `SendInput` of an action. -/
  | sent (c : SendCall)
  /-- A `SendInput` of `releaseAll`. -/
  | released (c : SendCall)

/-- The engine and where its thread is. -/
structure Thread where
  e : Engine
  loc : Loc

namespace Engine

variable (P : Platform)

/-- `sender_.releaseAll()` with its calls. -/
def releaseEvents (e : Engine) (r retry : SendResult) : List Event :=
  (e.sender.releaseAll r retry).calls.map .released

/-! ### The idle loop -/

/-- `runTimed` up to its loop. -/
def enterTimed (e : Engine) (triggerQpc : ℤ) (o : Obs) : Thread × List Event :=
  let period := periodOf P e.cfg
  let e := e.tick (o.dt 2)
  let tl := Timeline.anchor e.clock period
  ({ e := { e with waiter := e.waiter.setPeriodHint (toInt64 period) }
     loc := .timed { tl := tl, triggerQpc := triggerQpc } }, [.epoch tl])

/-- The batch of a MAX run: the program `B` times over. -/
def buildBatch (e : Engine) : List INPUT × ℕ × ℕ :=
  let B := (Max.max 1 (Min.min e.cfg.maxBatchActions.toNat 256))
  ((List.replicate B e.maxProg.flat).flatten, e.maxProg.inputsPerAction, B)

/-- `runMax` up to its loop. -/
def enterMax (e : Engine) (triggerQpc : ℤ) (o : Obs) : Thread × List Event :=
  if !e.maxProg.ok then ({ e := e, loc := .ending }, [])
  else
    let (batch, per, B) := e.buildBatch
    let bpBase := match o.observed with
      | some n => (e.sender.accepted : ℤ) - n
      | none => 0
    ({ e := e
       loc := .max { batch := batch, per := per, B := B, bpBase := bpBase,
                     triggerQpc := triggerQpc } }, [])

/-- Back to the idle wait, from a batch or a run. -/
def backToIdle (e : Engine) : Thread :=
  { e := { e with run := { e.run with emergency := false } }, loc := .idle }

/-- The run's controls and counters as `doRun` sets them up at a reading `now`. -/
def beginRun (e : Engine) (limits : RunLimits) (now : ℤ) : Engine :=
  { e with
    run :=
      { remaining := limits.remaining
        endQpc := if 0 < limits.durationMs then now + Clk.msToTicks P limits.durationMs
          else kNoEnd }
    runId := e.runId + 1
    runStartCalls := e.sender.calls
    runStartReq := e.sender.requested
    runStartAcc := e.sender.accepted
    runStartFail := e.sender.failedCalls
    waiter := e.waiter.resetAccounting
    stats := .begin P now (if e.cfg.maxMode then 0 else periodOf P e.cfg)
    lastPublish := now
    pause := .none
    state := .running }

/-- `doRun` up to the run's loop. -/
def doRun (e : Engine) (limits : RunLimits) (triggerQpc : ℤ) (o : Obs) : Thread × List Event :=
  if !e.prog.ok then (e.backToIdle, [])
  else
    let e := e.tick (o.dt 1)
    let e := (e.beginRun P limits e.clock).publish P e.clock true
    let (t, events) :=
      if e.cfg.maxMode then e.enterMax triggerQpc o else e.enterTimed P triggerQpc o
    (t, .runStarted triggerQpc e.run.endQpc :: events)

/-- The idle loop between its wait and the end of a batch. -/
def stepCommands (e : Engine) (cmds : List Command) (b : Batch) (o : Obs) :
    Thread × List Event :=
  match cmds with
  | c :: cs =>
    let (e', b) := e.idleCommand P b o.release o.retry c
    let released := match c with
      | .emergency _ => e.releaseEvents o.release o.retry
      | _ => []
    ({ e := e', loc := .commands cs b }, .consumed c :: released)
  | [] =>
    let e := e.tick (o.dt 0)
    let e := e.publish P e.clock true
    if b.quit then
      -- `Quit` comes before a start that is still pending.
      let e := { e with run := { e.run with emergency := false } }
      ({ e := e.releaseAll o.release o.retry, loc := .done }, e.releaseEvents o.release o.retry)
    else if b.start then e.doRun P b.lim b.trigQ o
    else (e.backToIdle, [])

/-- The totals and the state a run leaves. -/
def endRun (e : Engine) : Engine :=
  { e with
    totalActions := e.totalActions + e.stats.actions
    totalMissed := e.totalMissed + e.stats.missed
    pause := .none
    state := if e.armed then .armed else .disarmed }

/-- `if (pendingCfg_) applyConfig(..)`. -/
def applyPending (e : Engine) : Engine :=
  match e.pendingCfg with
  | some c => { e.applyConfig P c with pendingCfg := none }
  | none => e

/-- `doRun` after the run's loop. -/
def stepEnding (e : Engine) (o : Obs) : Thread × List Event :=
  let released := e.releaseEvents o.release o.retry
  let e := (e.releaseAll o.release o.retry).tick (o.dt 0)
  let e := e.endRun.publish P e.clock true
  let e := { e with runsCompleted := e.runsCompleted + 1 }
  ((e.applyPending P).backToIdle, released ++ [.runEnded])

/-! ### The poll of the command flag -/

/-- `cmdFlag_.load(..) && handleRunCommands()`: the engine after it, the commands consumed and
    whether the run must stop. -/
def poll (e : Engine) : Engine × List Event × Bool :=
  if e.cmdFlag then
    (e.handleRunCommands, (handled e.queue).map .consumed, e.handleRunCommands.run.stop)
  else (e, [], false)

/-- `pauseUntilGate` up to its loop. -/
def enterPause (e : Engine) (why : PauseReason) (o : Obs) : Engine × List Event :=
  let released := e.releaseEvents o.release o.retry
  let e := e.releaseAll o.release o.retry
  let e := { e with pause := why, state := .paused }
  let e := e.tick (o.dt 1)
  (e.publish P e.clock true, released)

/-- The engine as `pauseUntilGate` wakes up. -/
def woken (e : Engine) (o : Obs) : Engine := { e.tick (o.dt 0) with cmdEvent := false }

/-- One round of `pauseUntilGate`'s loop. -/
def stepPause (e : Engine) (o : Obs) (resume stay : Engine → Thread × List Event) :
    Thread × List Event :=
  let p := (e.woken o).poll
  if p.2.2 then ({ e := { p.1 with pause := .none }, loc := .ending }, p.2.1)
  else
    match p.1.checkGate o.gate with
    | none =>
      let x := resume { p.1 with pause := .none, state := .running }
      (x.1, p.2.1 ++ .looked p.1.clock true :: x.2)
    | some why =>
      let x := stay { p.1 with pause := why }
      (x.1, p.2.1 ++ .looked p.1.clock false :: x.2)

/-! ### The timed run -/

/-- `for (;;)`: commands first. -/
def stepTimed (e : Engine) (l : TimedLocals) : Thread × List Event :=
  let (e, consumed, stop) := e.poll
  if stop then ({ e := e, loc := .ending }, consumed)
  else if l.step = 0 then ({ e := e, loc := .timedConfig l }, consumed)
  else ({ e := e, loc := .timedAct l }, consumed)

/-- `if (pendingCfg_)`. -/
def stepTimedConfig (e : Engine) (l : TimedLocals) (o : Obs) : Thread × List Event :=
  match e.pendingCfg with
  | none => ({ e := e, loc := .timedGate l }, [])
  | some c =>
    let rateChanged := decide (c.cps ≠ e.cfg.cps)
    let e := { e with pendingCfg := none }.applyConfig P c
    -- Switched to MAX while running.
    if e.cfg.maxMode then e.enterMax 0 o
    else if rateChanged then
      let period := periodOf P e.cfg
      let tl := l.tl.changePeriod period
      ({ e := { e with waiter := e.waiter.setPeriodHint (toInt64 period) }
         loc := .timedGate { l with tl := tl } }, [.epoch tl])
    else ({ e := e, loc := .timedGate l }, [])

/-- The gate of a slot: looked at once two milliseconds have passed since the last look. -/
def stepTimedGate (e : Engine) (l : TimedLocals) (o : Obs) : Thread × List Event :=
  if !e.prog.ok ∨ e.run.remaining = 0 then ({ e := e, loc := .ending }, [])
  else
    let e := e.tick (o.dt 0)
    let now := e.clock
    if Clk.msToTicks P kGateCheckMs ≤ now - l.lastGate then
      let l := { l with lastGate := now }
      match e.checkGate o.gate with
      | none => ({ e := e, loc := .timedLate l now }, [.looked now true])
      | some why =>
        let (e, released) := e.enterPause P why o
        ({ e := e, loc := .timedPause l }, .looked now false :: released)
    else ({ e := e, loc := .timedLate l now }, [])

/-- After a pause the grid starts afresh. -/
def stepTimedPause (e : Engine) (l : TimedLocals) (o : Obs) : Thread × List Event :=
  e.stepPause o
    (fun e =>
      let e := e.tick (o.dt 1)
      let tl := Timeline.anchor e.clock l.tl.period
      ({ e := e, loc := .timed { l with tl := tl } }, [.epoch tl]))
    (fun e =>
      let e := e.tick (o.dt 1)
      ({ e := e.publish P e.clock false, loc := .timedPause l }, []))

/-- The slots a late engine skips at a boundary. -/
def lateSlots (e : Engine) (l : TimedLocals) (now : ℤ) : Timeline × ℕ :=
  if l.first then (l.tl, 0)
  else
    match e.cfg.latePolicy with
    | .skip => l.tl.skipLate now
    | .catchUp => if Clk.msToTicks P 250 < now - l.tl.next then l.tl.skipLate now else (l.tl, 0)

/-- Slots that have passed are missed; past the end of the run there is nothing to wait for. -/
def stepTimedLate (e : Engine) (l : TimedLocals) (now : ℤ) : Thread × List Event :=
  let (tl, skipped) := e.lateSlots P l now
  let e := { e with stats := e.stats.onMissed skipped }
  let l := { l with tl := tl }
  if e.run.endQpc ≤ tl.next then ({ e := e, loc := .ending }, [.missed skipped])
  else ({ e := e, loc := .timedAct l }, [.missed skipped])

/-- `while (batch < cap && slot(k + batch) <= fire && slot(k + batch) < endQpc) ++batch`, at most
    `n` times. -/
def growBatch (tl : Timeline) (fire endQpc : ℤ) (cap : ℕ) : ℕ → ℕ → ℕ
  | 0, batch => batch
  | n + 1, batch =>
    if batch < cap ∧ tl.slot (tl.k + batch) ≤ fire ∧ tl.slot (tl.k + batch) < endQpc then
      growBatch tl fire endQpc cap n (batch + 1)
    else batch

/-- The number of actions that go out in one call. -/
def batchSize (e : Engine) (l : TimedLocals) (fire : ℤ) : ℕ :=
  if l.step = 0 ∧ e.cfg.latePolicy = .catchUp ∧ e.prog.steps.length = 1 then
    -- The grid is ahead of what one call per action delivers: slots already due go along.
    growBatch l.tl fire e.run.endQpc (Min.min kMaxCatchUpBatch e.run.remaining.toNat)
      kMaxCatchUpBatch 1
  else 1

/-- `for (j = 0; j < batch; ++j) stats_.onAction(fire, tl.slot(tl.k + j))`. -/
def onActionBatch (st : RunStats) (tl : Timeline) (fire : ℤ) (batch : ℕ) : RunStats :=
  (List.range batch).foldl (fun st j => st.onAction P fire (tl.slot (tl.k + j))) st

/-- The statistics of an action that starts, `batch` slots at once. -/
def onStarted (e : Engine) (l : TimedLocals) (fire : ℤ) (batch : ℕ) : Engine :=
  if l.step = 0 then
    let e := { e with stats := onActionBatch P e.stats l.tl fire batch }
    if l.first then e.recordTriggerLatency P l.triggerQpc fire else e
  else e

/-- `runTimed` from the `SendInput` of a step on; the first step of an action starts it. -/
def fireStep (e : Engine) (l : TimedLocals) (st : ActionStep) (o : Obs) : Thread × List Event :=
  let e := e.tick (o.dt 1)
  let fire := e.clock
  let batch := e.batchSize l fire
  let sent := e.sender.send (List.replicate batch st.inputs).flatten o.sent
  let e := { e with sender := sent.sender }.tick (o.dt 2)
  let e := { e with stats := e.stats.onSendDuration P (e.clock - fire) }
  let e := e.onStarted P l fire batch
  let starts := if l.step = 0 then [Event.fired fire l.tl.k batch] else []
  let lastStep := l.step + 1 = e.prog.steps.length
  let l := { l with
    step := if lastStep then 0 else l.step + 1
    first := l.first && l.step != 0
    tl := if lastStep then { l.tl with k := l.tl.k + batch } else l.tl }
  let e := if lastStep then e.useUp batch else e
  ({ e := e.publishDue P fire, loc := .timed l }, starts ++ sent.calls.map .sent)

/-- `runTimed` from the deadline of a step on.  A step whose wait is not over stays where it
    is. -/
def stepTimedAct (e : Engine) (l : TimedLocals) (o : Obs) : Thread × List Event :=
  match e.prog.steps[l.step]? with
  | none => ({ e := e, loc := .ending }, [])
  | some st =>
    let deadline := l.tl.next + st.offsetTicks
    let e' := e.tick (o.dt 0)
    let now := e'.clock
    if now < deadline then
      -- Long waits are chunked so that telemetry keeps flowing.
      if (Clk.msToTicks P kPublishMs).tdiv 2 < deadline - now ∧ e.nextPublish < deadline then
        match e.waiter.waitUntil now e.nextPublish .eco o.waits with
        | none => ({ e := e, loc := .timedAct l }, [])
        | some w =>
          let e := { e with
            waiter := w.waiter, clock := w.now, cmdEvent := e.cmdEvent && !w.event }
          let e := e.tick (o.dt 1)
          ({ e := e.publish P e.clock false, loc := .timed l }, [])
      else
        match e.waiter.waitUntil now deadline e.cfg.precision o.waits with
        | none => ({ e := e, loc := .timedAct l }, [])
        | some w =>
          let e := { e with
            waiter := w.waiter, clock := w.now, cmdEvent := e.cmdEvent && !w.event }
          match w.result with
          | .interrupted => ({ e := e, loc := .timed l }, [])
          | .reached => e.fireStep P l st o
    else e'.fireStep P l st o

/-! ### The MAX run -/

/-- The head of MAX: commands first. -/
def stepMax (e : Engine) (l : MaxLocals) : Thread × List Event :=
  let (e, consumed, stop) := e.poll
  if stop then ({ e := e, loc := .ending }, consumed)
  else ({ e := e, loc := .maxConfig l }, consumed)

/-- A configuration that came in a MAX run, with the batch built anew. -/
def stepMaxConfig (e : Engine) (l : MaxLocals) : Thread × List Event :=
  match e.pendingCfg with
  | none => ({ e := e, loc := .maxGate l }, [])
  | some c =>
    let e := { e with pendingCfg := none }.applyConfig P c
    -- Left MAX mode: end this run.
    if !e.cfg.maxMode then ({ e := e, loc := .ending }, [])
    else
      let (batch, per, B) := e.buildBatch
      ({ e := e, loc := .maxGate { l with batch := batch, per := per, B := B } }, [])

/-- The gate of MAX, looked at in each round. -/
def stepMaxGate (e : Engine) (l : MaxLocals) (o : Obs) : Thread × List Event :=
  if e.run.remaining = 0 then ({ e := e, loc := .ending }, [])
  else
    let e := e.tick (o.dt 0)
    let now := e.clock
    if e.run.endQpc ≤ now then ({ e := e, loc := .ending }, [])
    else if Clk.msToTicks P 1 ≤ now - l.lastGate then
      let l := { l with lastGate := now }
      match e.checkGate o.gate with
      | none => ({ e := e, loc := .maxSend l now }, [.looked now true])
      | some why =>
        let (e, released) := e.enterPause P why o
        ({ e := e, loc := .maxPause l now }, .looked now false :: released)
    else ({ e := e, loc := .maxSend l now }, [])

/-- A pause of MAX: one wait of it, and on when the gate has opened. -/
def stepMaxPause (e : Engine) (l : MaxLocals) (now : ℤ) (o : Obs) : Thread × List Event :=
  e.stepPause o (fun e => ({ e := e, loc := .maxSend l now }, []))
    (fun e =>
      let e := e.tick (o.dt 1)
      ({ e := e.publish P e.clock false, loc := .maxPause l now }, []))

/-- More own events are in flight than the hook has seen. -/
def behind (e : Engine) (l : MaxLocals) (o : Obs) : Bool :=
  match o.observed with
  | none => false
  | some n =>
    decide (e.cfg.maxInflight ≠ 0) &&
      decide ((e.cfg.maxInflight.toNat : ℤ) < e.sender.accepted - n - l.bpBase)

/-- The number of actions in the next call. -/
def maxActions (e : Engine) (l : MaxLocals) : ℕ :=
  if e.run.remaining = kUnlimited then l.B else Min.min l.B e.run.remaining.toNat

/-- `runMax` from its `SendInput` on. -/
def fireMax (e : Engine) (l : MaxLocals) (o : Obs) : Thread × List Event :=
  let n := e.maxActions l
  let e := e.tick (o.dt 0)
  let fire := e.clock
  let sent := e.sender.send (l.batch.take (n * l.per)) o.sent
  let e := { e with sender := sent.sender }.tick (o.dt 1)
  let e := { e with stats := (e.stats.onSendDuration P (e.clock - fire)).onActions fire n }
  let e := if l.first then e.recordTriggerLatency P l.triggerQpc fire else e
  ({ e := (e.useUp n).publishDue P fire, loc := .max { l with first := false } },
    sent.calls.map .sent)

/-- The send of MAX, or a round of waiting while the target is behind. -/
def stepMaxSend (e : Engine) (l : MaxLocals) (now : ℤ) (o : Obs) : Thread × List Event :=
  if e.behind l o then
    -- Give way after 64 rounds; commands are polled in each of them.
    let spins := if 64 < l.bpSpins + 1 then 0 else l.bpSpins + 1
    ({ e := e.publishDue P now, loc := .max { l with bpSpins := spins } }, [])
  else e.fireMax P l o

/-! ### What each piece leaves alone -/

variable (e : Engine)

/-- A run begins with the programs it has. -/
@[simp] theorem beginRun_frame (limits : RunLimits) (now : ℤ) :
    (e.beginRun P limits now).sender = e.sender ∧ (e.beginRun P limits now).cfg = e.cfg ∧
      (e.beginRun P limits now).prog = e.prog ∧ (e.beginRun P limits now).maxProg = e.maxProg ∧
      (e.beginRun P limits now).armed = e.armed ∧
      (e.beginRun P limits now).state = .running ∧
      (e.beginRun P limits now).run.stop = false ∧
      (e.beginRun P limits now).run.remaining = limits.remaining ∧
      (e.beginRun P limits now).pendingCfg = e.pendingCfg ∧
      (e.beginRun P limits now).clock = e.clock :=
  ⟨rfl, rfl, rfl, rfl, rfl, rfl, rfl, rfl, rfl, rfl⟩

/-- A pending configuration at the end of a run changes the programs alone. -/
@[simp] theorem applyPending_frame :
    (e.applyPending P).sender = e.sender ∧ (e.applyPending P).armed = e.armed ∧
      (e.applyPending P).state = e.state ∧ (e.applyPending P).run = e.run ∧
      (e.applyPending P).clock = e.clock := by
  unfold applyPending
  split <;> simp

/-- The poll changes no program, sender or state. -/
@[simp] theorem poll_frame :
    e.poll.1.sender = e.sender ∧ e.poll.1.cfg = e.cfg ∧ e.poll.1.prog = e.prog ∧
      e.poll.1.maxProg = e.maxProg ∧ e.poll.1.state = e.state ∧ e.poll.1.clock = e.clock ∧
      e.poll.1.run.endQpc = e.run.endQpc := by
  unfold poll
  split <;> simp

/-- A pause releases everything held. -/
@[simp] theorem enterPause_state (why : PauseReason) (o : Obs) :
    (e.enterPause P why o).1.state = .paused ∧
      (e.enterPause P why o).1.sender = (e.sender.releaseAll o.release o.retry).sender := by
  simp [enterPause]

/-- A pause leaves the run as it is. -/
@[simp] theorem enterPause_frame (why : PauseReason) (o : Obs) :
    (e.enterPause P why o).1.cfg = e.cfg ∧ (e.enterPause P why o).1.prog = e.prog ∧
      (e.enterPause P why o).1.maxProg = e.maxProg ∧ (e.enterPause P why o).1.armed = e.armed ∧
      (e.enterPause P why o).1.run = e.run ∧
      (e.enterPause P why o).1.pendingCfg = e.pendingCfg ∧
      (e.enterPause P why o).1.clock = e.clock + o.dt 1 := by
  simp [enterPause]

/-- The first click of a run leaves the run as it is. -/
@[simp] theorem onStarted_frame (l : TimedLocals) (fire : ℤ) (batch : ℕ) :
    (e.onStarted P l fire batch).sender = e.sender ∧ (e.onStarted P l fire batch).cfg = e.cfg ∧
      (e.onStarted P l fire batch).prog = e.prog ∧
      (e.onStarted P l fire batch).maxProg = e.maxProg ∧
      (e.onStarted P l fire batch).state = e.state ∧
      (e.onStarted P l fire batch).armed = e.armed ∧
      (e.onStarted P l fire batch).run = e.run ∧
      (e.onStarted P l fire batch).pendingCfg = e.pendingCfg ∧
      (e.onStarted P l fire batch).clock = e.clock := by
  unfold onStarted
  split
  · dsimp only
    split <;> simp
  · exact ⟨rfl, rfl, rfl, rfl, rfl, rfl, rfl, rfl, rfl⟩

/-! ### Steps in one place -/

/-- Several slots go out at once only for a program of a single step. -/
theorem batchSize_eq_one {l : TimedLocals} (fire : ℤ)
    (h : ¬ (l.step = 0 ∧ e.prog.steps.length = 1)) : e.batchSize l fire = 1 := by
  rw [batchSize, if_neg fun hb => h ⟨hb.1, hb.2.2⟩]

/-- The size of a late batch does not depend on the clock. -/
@[simp] theorem batchSize_tick (dt : ℕ) (l : TimedLocals) (fire : ℤ) :
    (e.tick dt).batchSize l fire = e.batchSize l fire := rfl

/-- What the `SendInput` of a timed step passes. -/
def stepInputs (l : TimedLocals) (st : ActionStep) (o : Obs) : List INPUT :=
  (List.replicate (e.batchSize l (e.clock + o.dt 1)) st.inputs).flatten

/-- The locals after a step: the next step of the action, or the next slot. -/
def stepLocals (l : TimedLocals) (o : Obs) : TimedLocals :=
  { l with
    step := if l.step + 1 = e.prog.steps.length then 0 else l.step + 1
    first := l.first && l.step != 0
    tl :=
      if l.step + 1 = e.prog.steps.length then
        { l.tl with k := l.tl.k + e.batchSize l (e.clock + o.dt 1) }
      else l.tl }

/-- `x` comes of `e` by one `SendInput` of `inputs`: the sender makes it, and beside it only the
    thread's place, the clock and counters change. -/
structure Sends (inputs : List INPUT) (r : SendResult) (x : Thread × List Event) : Prop where
  sender : x.1.e.sender = (e.sender.send inputs r).sender
  cfg : x.1.e.cfg = e.cfg
  prog : x.1.e.prog = e.prog
  maxProg : x.1.e.maxProg = e.maxProg
  state : x.1.e.state = e.state
  armed : x.1.e.armed = e.armed
  endQpc : x.1.e.run.endQpc = e.run.endQpc

/-- **A timed step** makes its `SendInput`. -/
theorem fireStep_sends (l : TimedLocals) (st : ActionStep) (o : Obs) :
    e.Sends (e.stepInputs l st o) o.sent (e.fireStep P l st o) := by
  -- Whether the step is the action's last decides only what is left of the run's limits.
  by_cases hlast : l.step + 1 = e.prog.steps.length <;>
    constructor <;> simp [fireStep, stepInputs, hlast]

/-- A timed step moves on to the next step or slot. -/
theorem fireStep_loc (l : TimedLocals) (st : ActionStep) (o : Obs) :
    (e.fireStep P l st o).1.loc = .timed (e.stepLocals l o) := by
  simp [fireStep, stepLocals]

/-- Sending takes its time before and after the call. -/
theorem fireStep_clock (l : TimedLocals) (st : ActionStep) (o : Obs) :
    (e.fireStep P l st o).1.e.clock = e.clock + o.dt 1 + o.dt 2 := by
  by_cases hlast : l.step + 1 = e.prog.steps.length <;> simp [fireStep, hlast]

/-- The first step of an action says that it starts; every step says what it sends. -/
theorem fireStep_events (l : TimedLocals) (st : ActionStep) (o : Obs) :
    (e.fireStep P l st o).2 =
      (if l.step = 0 then
        [Event.fired (e.clock + o.dt 1) l.tl.k (e.batchSize l (e.clock + o.dt 1))] else []) ++
        (e.sender.send (e.stepInputs l st o) o.sent).calls.map .sent := by
  simp [fireStep, stepInputs]

/-- What a call of a MAX run passes. -/
def maxInputs (l : MaxLocals) : List INPUT := l.batch.take (e.maxActions l * l.per)

/-- **A call of a MAX run.** -/
theorem fireMax_sends (l : MaxLocals) (o : Obs) :
    e.Sends (e.maxInputs l) o.sent (e.fireMax P l o) := by
  cases hfirst : l.first <;> constructor <;> simp [fireMax, maxInputs, hfirst]

/-- After a send MAX is back at its head. -/
theorem fireMax_loc (l : MaxLocals) (o : Obs) :
    (e.fireMax P l o).1.loc = .max { l with first := false } := rfl

/-- A send of MAX takes its time. -/
theorem fireMax_clock (l : MaxLocals) (o : Obs) :
    (e.fireMax P l o).1.e.clock = e.clock + o.dt 0 + o.dt 1 := by
  cases hfirst : l.first <;> simp [fireMax, hfirst]

/-- A send of MAX shows its calls. -/
theorem fireMax_events (l : MaxLocals) (o : Obs) :
    (e.fireMax P l o).2 = (e.sender.send (e.maxInputs l) o.sent).calls.map .sent := rfl

/-- `e'` is `e` after some waiting: the clock has moved on, and nothing that controls a run has
    changed. -/
structure WaitedTo (e e' : Engine) : Prop where
  sender : e'.sender = e.sender
  cfg : e'.cfg = e.cfg
  prog : e'.prog = e.prog
  maxProg : e'.maxProg = e.maxProg
  armed : e'.armed = e.armed
  state : e'.state = e.state
  run : e'.run = e.run
  pendingCfg : e'.pendingCfg = e.pendingCfg
  clock : e.clock ≤ e'.clock

/-- **The wait for a step**: it is still going on, or the loop starts over, or the step is made,
    at or after its deadline. -/
theorem stepTimedAct_cases (l : TimedLocals) (o : Obs) :
    (e.prog.steps[l.step]? = none ∧ e.stepTimedAct P l o = ({ e := e, loc := .ending }, [])) ∨
      ∃ st, e.prog.steps[l.step]? = some st ∧
        (e.stepTimedAct P l o = ({ e := e, loc := .timedAct l }, []) ∨
          (∃ e', e.WaitedTo e' ∧ e.stepTimedAct P l o = ({ e := e', loc := .timed l }, [])) ∨
          ∃ e', e.WaitedTo e' ∧ l.tl.next + st.offsetTicks ≤ e'.clock ∧
            e.stepTimedAct P l o = e'.fireStep P l st o) := by
  unfold stepTimedAct
  cases hst : e.prog.steps[l.step]? with
  | none => exact .inl ⟨rfl, rfl⟩
  | some st =>
    refine .inr ⟨st, rfl, ?_⟩
    dsimp only
    split
    · next hearly =>
      split
      · split
        · exact .inl rfl
        · next w hw =>
          have hspec := PreciseWaiter.waitUntil_spec hw
          rw [tick_clock] at hspec
          refine .inr (.inl ⟨_, ?_, rfl⟩)
          refine ⟨?_, ?_, ?_, ?_, ?_, ?_, ?_, ?_, ?_⟩ <;> simp
          omega
      · split
        · exact .inl rfl
        · next w hw =>
          have hspec := PreciseWaiter.waitUntil_spec hw
          rw [tick_clock] at hspec
          have hclock : e.clock ≤ w.now := by omega
          -- An interrupted wait goes back to the head, a wait that is through has reached its
          -- deadline.
          cases hres : w.result with
          | interrupted =>
            refine .inr (.inl ⟨_, ?_, rfl⟩)
            exact ⟨rfl, rfl, rfl, rfl, rfl, rfl, rfl, rfl, hclock⟩
          | reached =>
            refine .inr (.inr ⟨_, ?_, ?_, rfl⟩)
            · exact ⟨rfl, rfl, rfl, rfl, rfl, rfl, rfl, rfl, hclock⟩
            · exact hspec.2 hres
    -- A deadline that has passed is not waited for.
    · next hdue =>
      rw [not_lt] at hdue
      refine .inr (.inr ⟨_, ?_, ?_, rfl⟩)
      · refine ⟨rfl, rfl, rfl, rfl, rfl, rfl, rfl, rfl, ?_⟩
        rw [tick_clock]
        omega
      · exact hdue

end Engine

/-! ### The machine -/

/-- What happens next: another thread does a piece of a call, or the engine's thread makes a
    step. -/
inductive Act where
  /-- `queue_.push_back(c)` under the lock. -/
  | push (c : Command)
  /-- `cmdFlag_.store(true)`. -/
  | storeFlag
  /-- `SetEvent(cmdEvent_)`. -/
  | setEvent
  /-- `armed_.store(on)` in `arm` and `emergency`. -/
  | storeArmed (on : Bool)
  | thread (o : Obs)

variable (P : Platform)

/-- One step of the engine's thread. -/
def Thread.step (t : Thread) (o : Obs) : Thread × List Event :=
  match t.loc with
  | .idle =>
    if t.e.cmdEvent then
      ({ e := { t.e.drained with cmdEvent := false }, loc := .commands t.e.queue {} }, [])
    else (t, [])
  | .commands cmds b => t.e.stepCommands P cmds b o
  | .timed l => t.e.stepTimed l
  | .timedConfig l => t.e.stepTimedConfig P l o
  | .timedGate l => t.e.stepTimedGate P l o
  | .timedPause l => t.e.stepTimedPause P l o
  | .timedLate l now => t.e.stepTimedLate P l now
  | .timedAct l => t.e.stepTimedAct P l o
  | .max l => t.e.stepMax l
  | .maxConfig l => t.e.stepMaxConfig P l
  | .maxGate l => t.e.stepMaxGate P l o
  | .maxPause l now => t.e.stepMaxPause P l now o
  | .maxSend l now => t.e.stepMaxSend P l now o
  | .ending => t.e.stepEnding P o
  | .done => (t, [])

/-- The engine's thread and the threads around it. -/
def engineMachine : Machine Thread Act Event where
  step t
    | .push c => ({ t with e := { t.e with queue := t.e.queue ++ [c] } }, [])
    | .storeFlag => ({ t with e := { t.e with cmdFlag := true } }, [])
    | .setEvent => ({ t with e := { t.e with cmdEvent := true } }, [])
    | .storeArmed on => ({ t with e := { t.e with armed := on } }, [])
    | .thread o => t.step P o

/-- `post` from another thread. -/
def Act.post (c : Command) : List Act := [.push c, .storeFlag, .setEvent]

/-- `Engine::arm`. -/
def Act.arm (on : Bool) : List Act := .storeArmed on :: Act.post (.arm on)

/-- `Engine::emergency`, at a clock reading. -/
def Act.emergency (qpc : ℤ) : List Act := .storeArmed false :: Act.post (.emergency qpc)

/-- The engine's thread makes `n` steps without delays, with the gate open. -/
def Act.steps (n : ℕ) : List Act := List.replicate n (.thread {})

/-- The thread at its first wait: calibrated, with the program of a default configuration. -/
def Thread.start (waiter : PreciseWaiter) (clock : ℤ) : Thread :=
  let e : Engine := { waiter := waiter, clock := clock }
  { e := (e.rebuildProgram P).publish P clock true, loc := .idle }

/-- Nothing has been sent before the first wait. -/
@[simp] theorem Thread.start_sender (waiter : PreciseWaiter) (clock : ℤ) :
    (Thread.start P waiter clock).e.sender = {} := by
  simp [start, Engine.rebuildProgram]

/-- The engine starts at the clock it is given. -/
@[simp] theorem Thread.start_clock (waiter : PreciseWaiter) (clock : ℤ) :
    (Thread.start P waiter clock).e.clock = clock := by
  simp [start, Engine.rebuildProgram]

/-- The programs of a start are compiled ones. -/
theorem Thread.start_compiled (waiter : PreciseWaiter) (clock : ℤ) :
    Compiled P (Thread.start P waiter clock).e.prog ∧
      Compiled P (Thread.start P waiter clock).e.maxProg := by
  have hc := Engine.rebuildProgram_compiled P { waiter := waiter, clock := clock }
  exact ⟨by simpa [start] using hc.1, by simpa [start] using hc.2⟩

end InfinityClicker
