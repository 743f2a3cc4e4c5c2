import InfinityClicker.Trigger.MouseSources

namespace InfinityClicker

open Machines

/-!
# The trigger thread behind its hooks

The handlers see what the installed hooks hand them, and what raw input reports.  The keyboard
hook is installed for good; the mouse hook comes and goes with what needs it.  Only a hook can
withhold an event from the other applications: what passes none reaches them.

* `HookedTrigger` — the handlers and the message loop that keeps their hooks;
* `hookedMachine` — the events of the hardware, raw input and the moves of the loop;
* `hooked_inStep` — the loop decides by the configuration and the capture state that the
  handlers use.
-/

/-! ### The trigger thread and its hooks -/

/-- The trigger thread: its handlers and its message loop. -/
structure HookedTrigger where
  engine : TriggerEngine := {}
  loop : TriggerLoop := {}

/-- What happens to the thread. -/
inductive HookedInput where
  /-- A key event on its way to the other applications. -/
  | key (down : Bool) (vk : Vk) (scan : BitVec 16) (ext : Bool) (qpc : ℤ) (armed : Bool)
  /-- A button event or a wheel notch on its way to them. -/
  | mouse (b : MouseButton) (down onOwn : Bool) (qpc : ℤ) (armed : Bool)
  /-- The message of raw input about one. -/
  | rawMouse (b : MouseButton) (down onOwn : Bool) (qpc : ℤ) (armed : Bool)
  /-- A move of the loop, or of a thread that calls it. -/
  | loop (a : LoopAct)

namespace HookedTrigger

variable (H : LoopHost) (x : HookedTrigger)

/-- The events of the source pass a hook of the thread. -/
def hooked : Source → Bool
  | .key _ _ => x.loop.kbHook
  | .button _ => x.loop.mouseHook

/-- A handler has run.  Where it ended a capture it has stored that and posts `WM_APP_HOOKS`
    before the thread goes on; its callback may come between any two tasks. -/
def heard (r : Reply) : HookedTrigger where
  engine := r.engine
  loop :=
    if r.engine.captureState = x.engine.captureState then x.loop
    else
      { x.loop with
        captureState := r.engine.captureState
        todo := .postHooks :: x.loop.todo }

/-- The handlers' state after a move of the loop: the two share the configuration and the
    capture state. -/
def engineAfter : LoopAct → TriggerEngine
  | .setConfig c => x.engine.setConfig c.toTriggerConfig
  | .beginCapture allowMouse => x.engine.beginCapture allowMouse
  | .cancelCapture => x.engine.cancelCapture
  | .go _ =>
    if x.loop.todo.head? = some .applyPendingConfig then x.engine.applyPendingConfig
    else x.engine
  | .reinstallHooks | .recomputeGate | .post _ | .startThread | .captured | .foreground _ =>
    x.engine

/-- One move: an event is handled only where its hook is installed. -/
def step : HookedInput → HookedTrigger × List TriggerEvent
  | .key down vk scan ext qpc armed =>
    if x.loop.kbHook then
      let r := x.engine.handleKey down vk scan ext qpc armed
      (x.heard r, r.events)
    else (x, [])
  | .mouse b down onOwn qpc armed =>
    if x.loop.mouseHook then
      let r := x.engine.handleMouse b down onOwn qpc armed
      (x.heard r, r.events)
    else (x, [])
  | .rawMouse b down onOwn qpc armed =>
    -- The verdict on raw input goes nowhere.
    let r := x.engine.handleMouse b down onOwn qpc armed
    (x.heard r, r.calls.map .call)
  -- The end of a capture is a handler's own.
  | .loop .captured => (x, [])
  | .loop a => ({ engine := x.engineAfter a, loop := (x.loop.step H a).1 }, [])

end HookedTrigger

/-- The trigger thread with its hooks. -/
def hookedMachine (H : LoopHost) : Machine HookedTrigger HookedInput TriggerEvent where
  step := HookedTrigger.step H

namespace HookedTrigger

variable {H : LoopHost} {x : HookedTrigger}

/-- The handlers and the loop have one configuration and one capture state. -/
structure InStep (x : HookedTrigger) : Prop where
  captureState : x.loop.captureState = x.engine.captureState
  cfg : x.loop.cfg.toTriggerConfig = x.engine.cfg
  pending : x.loop.pending.map TriggerSettings.toTriggerConfig =
    if x.engine.pendingValid then some x.engine.pending else none

/-- A handler leaves the configuration alone and stores the capture state for both. -/
theorem InStep.heard (h : x.InStep) {r : Reply} (htold : r.engine.told = x.engine.told) :
    (x.heard r).InStep := by
  simp only [TriggerEngine.told, Prod.mk.injEq] at htold
  obtain ⟨hcfg, hpending, hvalid⟩ := htold
  by_cases hcap : r.engine.captureState = x.engine.captureState
  · have hloop : (x.heard r).loop = x.loop := if_pos hcap
    refine ⟨?_, ?_, ?_⟩
    · rw [hloop, h.captureState]
      exact hcap.symm
    · rw [hloop, h.cfg]
      exact hcfg.symm
    · rw [hloop, h.pending, ← hvalid, ← hpending]
      rfl
  · have hloop : (x.heard r).loop = _ := if_neg hcap
    refine ⟨?_, ?_, ?_⟩
    · rw [hloop]
      rfl
    · rw [hloop]
      exact h.cfg.trans hcfg.symm
    · rw [hloop]
      exact h.pending.trans (by rw [← hvalid, ← hpending]; rfl)

/-- A task of the loop that takes no configuration leaves the capture state, the configuration
    and what is pending. -/
theorem run_shared (l : TriggerLoop) (v : LoopView) {task : LoopTask}
    (hne : task ≠ .applyPendingConfig) :
    (l.run H v task).1.captureState = l.captureState ∧ (l.run H v task).1.cfg = l.cfg ∧
      (l.run H v task).1.pending = l.pending := by
  cases task with
  | applyPendingConfig => exact absurd rfl hne
  | installKeyboardHook => exact ⟨rfl, rfl, rfl⟩
  | updateHooks => exact ⟨rfl, rfl, rfl⟩
  | dropHooks => exact ⟨rfl, rfl, rfl⟩
  | forgetName => exact ⟨rfl, rfl, rfl⟩
  | postHooks => exact ⟨rfl, rfl, rfl⟩
  | evaluateGate =>
    have hframe := l.evaluateGate_frame H v.foreground v.processName
    exact ⟨hframe.captureState, hframe.cfg, hframe.pending⟩
  | evaluateGateOf fg =>
    have hframe := l.evaluateGate_frame H fg v.processName
    exact ⟨hframe.captureState, hframe.cfg, hframe.pending⟩

/-- The next task. -/
theorem InStep.task (h : x.InStep) (v : LoopView) (task : LoopTask) (todo : List LoopTask) :
    InStep {
      engine := if task = .applyPendingConfig then x.engine.applyPendingConfig else x.engine
      loop := ({ x.loop with todo := todo }.run H v task).1 } := by
  -- Only `applyPendingConfig` touches what the two share, and both take the same configuration.
  by_cases htask : task = .applyPendingConfig
  · subst htask
    rw [if_pos rfl]
    cases hpending : x.loop.pending with
    | none =>
      -- Nothing waits at the loop, so nothing waits at the handlers.
      have hvalid : x.engine.pendingValid = false := by
        have := h.pending
        rw [hpending] at this
        cases hv : x.engine.pendingValid with
        | false => rfl
        | true => simp [hv] at this
      have hengine : x.engine.applyPendingConfig = x.engine := by
        simp [TriggerEngine.applyPendingConfig, hvalid]
      have hloop : ({ x.loop with todo := todo }.run H v .applyPendingConfig).1 =
          { x.loop with todo := todo } := by
        simp [TriggerLoop.run, TriggerLoop.applyPendingConfig, hpending]
      rw [hengine, hloop]
      exact ⟨h.captureState, h.cfg, h.pending⟩
    | some c =>
      -- What waits at the handlers is the handlers' part of what waits at the loop.
      have hboth : x.engine.pendingValid = true ∧ c.toTriggerConfig = x.engine.pending := by
        have := h.pending
        rw [hpending] at this
        cases hv : x.engine.pendingValid with
        | false => simp [hv] at this
        | true => simpa [hv] using this
      have hloop : ({ x.loop with todo := todo }.run H v .applyPendingConfig).1 =
          { x.loop with
            todo := todo
            pending := none
            cfg := c
            targets := H.targets c.targetProcesses } := by
        simp [TriggerLoop.run, TriggerLoop.applyPendingConfig, hpending]
      rw [hloop, TriggerEngine.applyPendingConfig, if_pos hboth.1]
      exact ⟨h.captureState, hboth.2, rfl⟩
  · rw [if_neg htask]
    obtain ⟨hcapture, hcfg, hpending⟩ :=
      run_shared (H := H) { x.loop with todo := todo } v htask
    exact ⟨hcapture.trans h.captureState, (congrArg _ hcfg).trans h.cfg,
      (congrArg _ hpending).trans h.pending⟩

/-- The loop goes on with a task. -/
theorem step_task {task : LoopTask} {todo : List LoopTask} (htodo : x.loop.todo = task :: todo)
    (v : LoopView) :
    (x.step H (.loop (.go v))).1 = {
      engine := if task = .applyPendingConfig then x.engine.applyPendingConfig else x.engine
      loop := ({ x.loop with todo := todo }.run H v task).1 } := by
  simp [HookedTrigger.step, TriggerLoop.step, engineAfter, htodo]

/-- The loop takes the next message, if there is one. -/
theorem step_message (htodo : x.loop.todo = []) (v : LoopView) :
    ∃ queue todo, (x.step H (.loop (.go v))).1 =
      { x with loop := { x.loop with queue := queue, todo := todo } } := by
  cases hqueue : x.loop.queue with
  | nil =>
    have hsame : (x.step H (.loop (.go v))).1 = x := by
      simp [HookedTrigger.step, TriggerLoop.step, engineAfter, htodo, hqueue]
    exact ⟨x.loop.queue, x.loop.todo, hsame⟩
  | cons msg queue =>
    refine ⟨queue, msg.tasks, ?_⟩
    simp [HookedTrigger.step, TriggerLoop.step, engineAfter, htodo, hqueue]

/-- Every move keeps the two in step. -/
theorem InStep.step (h : x.InStep) (i : HookedInput) : (x.step H i).1.InStep := by
  cases i with
  | key down vk scan ext qpc armed =>
    simp only [HookedTrigger.step]
    split
    · exact h.heard (TriggerEngine.handleKey_told down vk scan ext qpc armed)
    · exact h
  | mouse b down onOwn qpc armed =>
    simp only [HookedTrigger.step]
    split
    · exact h.heard (TriggerEngine.handleMouse_told b down onOwn qpc armed)
    · exact h
  | rawMouse b down onOwn qpc armed =>
    exact h.heard (TriggerEngine.handleMouse_told b down onOwn qpc armed)
  | loop a =>
    cases a with
    -- The calls of other threads change both sides alike, or neither.
    | setConfig c => exact ⟨h.captureState, h.cfg, rfl⟩
    | beginCapture allowMouse => exact ⟨rfl, h.cfg, h.pending⟩
    | cancelCapture => exact ⟨rfl, h.cfg, h.pending⟩
    | reinstallHooks => exact ⟨h.captureState, h.cfg, h.pending⟩
    | recomputeGate => exact ⟨h.captureState, h.cfg, h.pending⟩
    | post i => exact ⟨h.captureState, h.cfg, h.pending⟩
    | captured => exact h
    | startThread =>
      simp only [HookedTrigger.step, TriggerLoop.step]
      split <;> exact ⟨h.captureState, h.cfg, h.pending⟩
    | foreground fg =>
      simp only [HookedTrigger.step, TriggerLoop.step]
      split <;> exact ⟨h.captureState, h.cfg, h.pending⟩
    | go v =>
      cases htodo : x.loop.todo with
      | nil =>
        obtain ⟨queue, todo, hnext⟩ := step_message (H := H) htodo v
        rw [hnext]
        exact ⟨h.captureState, h.cfg, h.pending⟩
      | cons task todo =>
        rw [step_task htodo v]
        exact h.task v task todo

end HookedTrigger

/-- **The hooks follow the configuration the handlers use**: over every run the loop and the
    handlers agree on it and on the capture state. -/
theorem hooked_inStep (H : LoopHost) (is : List HookedInput) :
    ((hookedMachine H).after {} is).InStep :=
  (hookedMachine H).invariant (fun _ i h => h.step i) ⟨rfl, rfl, rfl⟩ is

end InfinityClicker
