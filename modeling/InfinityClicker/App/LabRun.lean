import InfinityClicker.Scheduler.ThreadMoves

namespace InfinityClicker

open Machines

/-!
# Lab runs: the application and the engine's run counter

`App::startTest` gates the engine on the test pad's window and starts a run; `App::tick` takes
the gate away when the engine's `runsCompleted` has passed the value it had before.

* `App` — what the application keeps for this, with `App.call` and `App.startLab` for its calls;
* `appMachine` — the UI thread, the hook's thread and the engine's, in any interleaving;
* `AppState.Handshaken` — the engine does not rest with a lab run unanswered;
* `StartsLabRun` — the batch that takes a lab run's `StartRun` out ends by starting a run;
* `AppState.LabInv` — why runs of such steps are handshaken;
* `lab_runs_complete` — that they are, and that no other end of such a batch is answered.
-/

/-! ### The application -/

/-- What the application keeps, of it what a lab run is made of. -/
structure App where
  /-- `makeEngineConfig` of the active profile, without its in-flight limit where no hook
      counts. -/
  config : EngineConfig := {}
  /-- `pad_.hwnd()`, 0 while the pad is closed. -/
  pad : ℕ := 0
  testTarget : ℕ := 0
  labRunActive : Bool := false
  labRunBase : ℕ := 0

/-- A piece of a call on the UI thread. -/
inductive UiStep where
  | push (c : Command)
  | storeFlag
  | setEvent
  | storeArmed (on : Bool)
  /-- `startTest` from its reading of the run counter on. -/
  | startLab (limits : RunLimits) (qpc : ℤ)

/-- A call on the UI thread. -/
inductive UiCall where
  /-- `startTest`; where the pad has to be opened, its window is `hwnd`. -/
  | startTest (limits : RunLimits) (qpc : ℤ) (hwnd : ℕ)
  /-- `openPad`, after which the pad's window is `hwnd`. -/
  | openPad (hwnd : ℕ)
  /-- `profileChanged`, with the configuration of the active profile. -/
  | profileChanged (config : EngineConfig)
  | setTestTarget (hwnd : ℕ)
  | arm (on : Bool)
  | stop
  | emergency (qpc : ℤ)
  | resetTotals
  | tick
  | shutdown

/-- `Engine::post`. -/
def UiStep.post (c : Command) : List UiStep := [.push c, .storeFlag, .setEvent]

/-- `Engine::arm`. -/
def UiStep.arm (on : Bool) : List UiStep := .storeArmed on :: UiStep.post (.arm on)

namespace App

variable (app : App)

/-- `applyConfigs`, of it what goes to the engine. -/
def applyConfigs : List UiStep :=
  UiStep.post (.setConfig { app.config with testTargetHwnd := app.testTarget })

/-- A call up to its first post: the application after it, and what is left to do. -/
def call (runsCompleted : ℕ) : UiCall → App × List UiStep
  | .startTest limits qpc hwnd =>
    if app.pad = 0 then
      let app := { app with pad := hwnd }
      (app, app.applyConfigs ++ [.startLab limits qpc])
    else (app, [.startLab limits qpc])
  | .openPad hwnd =>
    let app := { app with pad := hwnd }
    (app, app.applyConfigs)
  | .profileChanged config =>
    let app := { app with config := config }
    (app, app.applyConfigs)
  | .setTestTarget hwnd =>
    let app := { app with testTarget := hwnd }
    (app, app.applyConfigs)
  | .arm on => (app, UiStep.arm on ++ if on then [] else UiStep.post .stopRun)
  | .stop => (app, UiStep.post .stopRun)
  | .emergency qpc => (app, .storeArmed false :: UiStep.post (.emergency qpc))
  | .resetTotals => (app, UiStep.post .resetTotals)
  | .tick =>
    if app.labRunActive ∧ app.labRunBase < runsCompleted then
      let app := { app with labRunActive := false, testTarget := 0 }
      (app, app.applyConfigs)
    else (app, [])
  | .shutdown => (app, UiStep.post .stopRun ++ UiStep.post .quit)

/-- `startTest` once the pad is open. -/
def startLab (runsCompleted : ℕ) (limits : RunLimits) (qpc : ℤ) : App × List UiStep :=
  let app := { app with
    labRunBase := runsCompleted, labRunActive := true, testTarget := app.pad }
  (app, app.applyConfigs ++ UiStep.post (.startRun limits qpc))

/-- No call begins a lab run before its `startLab`. -/
theorem call_frame (runsCompleted : ℕ) (c : UiCall) :
    ((app.call runsCompleted c).1.labRunActive = true → app.labRunActive = true) ∧
      (app.call runsCompleted c).1.labRunBase = app.labRunBase := by
  cases c with
  | startTest limits qpc hwnd =>
    simp only [call]
    split <;> exact ⟨id, rfl⟩
  | tick =>
    simp only [call]
    split
    · exact ⟨by simp, rfl⟩
    · exact ⟨id, rfl⟩
  | _ => exact ⟨id, rfl⟩

end App

/-- The engine's thread, the application and what is left of the UI thread's call. -/
structure AppState where
  t : Thread
  app : App
  todo : List UiStep

/-- What happens next. -/
inductive AppAct where
  | call (c : UiCall)
  /-- The UI thread goes on with its call. -/
  | ui
  /-- The engine's thread makes a step, or the hook's thread a piece of a call. -/
  | engine (a : Act)
  /-- The pad's window, on its own thread, opens or is closed. -/
  | padWindow (hwnd : ℕ)

section Machine

variable (P : Platform)

/-- The UI thread goes on. -/
def AppState.ui (x : AppState) : AppState :=
  match x.todo with
  | [] => x
  | .push c :: us => { x with t := (engineMachine P).next x.t (.push c), todo := us }
  | .storeFlag :: us => { x with t := (engineMachine P).next x.t .storeFlag, todo := us }
  | .setEvent :: us => { x with t := (engineMachine P).next x.t .setEvent, todo := us }
  | .storeArmed on :: us =>
    { x with t := (engineMachine P).next x.t (.storeArmed on), todo := us }
  | .startLab limits qpc :: us =>
    let (app, todo) := x.app.startLab x.t.e.runsCompleted limits qpc
    { x with app := app, todo := todo ++ us }

/-- The application over its engine. -/
def appMachine : Machine AppState AppAct Event where
  step x
    | .call c =>
      -- A call begins when the one before it has returned.
      if x.todo.isEmpty then
        let (app, todo) := x.app.call x.t.e.runsCompleted c
        ({ x with app := app, todo := todo }, [])
      else (x, [])
    | .ui => (x.ui P, [])
    | .engine a =>
      ({ x with t := (engineMachine P).next x.t a }, (engineMachine P).out x.t a)
    | .padWindow hwnd => ({ x with app := { x.app with pad := hwnd } }, [])

/-- `App::init` from the start of the engine on. -/
def AppState.start (waiter : PreciseWaiter) (clock : ℤ) (config : EngineConfig)
    (armOnLaunch : Bool) : AppState :=
  let app : App := { config := config }
  { t := Thread.start P waiter clock
    app := app
    todo := app.applyConfigs ++ if armOnLaunch then UiStep.arm true else [] }

end Machine

/-! ### The handshake -/

def Command.startsRun : Command → Bool
  | .startRun _ _ => true
  | _ => false

def UiStep.postsStart : UiStep → Bool
  | .push c => c.startsRun
  | _ => false

namespace AppState

variable (x : AppState)

/-- A `StartRun` is still to be pushed by the call in hand. -/
def posting : Bool := x.todo.any UiStep.postsStart

/-- A `StartRun` waits in the queue. -/
def queued : Bool := x.t.e.queue.any Command.startsRun

/-- The lab run's `StartRun` is taken out of the queue, and no run has ended since it began. -/
def Awaits : Prop :=
  x.app.labRunActive = true ∧ x.t.e.runsCompleted ≤ x.app.labRunBase ∧ x.posting = false ∧
    x.queued = false

/-- The engine is idle with an empty queue. -/
def EngineRests : Prop := x.t.loc = .idle ∧ x.t.e.queue = []

/-- While a lab run is active and its `StartRun` posted, the engine rests only when it has
    completed a run since `startTest`. -/
def Handshaken : Prop :=
  x.app.labRunActive = true → x.posting = false → x.EngineRests →
    x.app.labRunBase < x.t.e.runsCompleted

instance : Decidable x.Awaits := inferInstanceAs (Decidable (_ ∧ _ ∧ _ ∧ _))

instance : Decidable x.EngineRests := inferInstanceAs (Decidable (_ ∧ _))

instance : Decidable x.Handshaken := inferInstanceAs (Decidable (_ → _ → _ → _))

end AppState

/-- At the end of a batch of the idle loop, with the locals `b`. -/
def Loc.batchEnd : Loc → Option Engine.Batch
  | .commands [] b => some b
  | _ => none

/-- The end of a batch of the idle loop that has the `StartRun` of a lab run behind it: the start
    is still pending, and the program compiles. -/
def StartsLabRun (x : AppState) : AppAct → Prop
  | .engine (.thread _) => ∀ b ∈ x.t.loc.batchEnd, b.quit = false → x.Awaits →
    b.start = true ∧ x.t.e.prog.ok = true
  | _ => True

instance (x : AppState) : ∀ a, Decidable (StartsLabRun x a)
  | .engine (.thread _) => inferInstanceAs (Decidable (∀ b ∈ x.t.loc.batchEnd, _ → _ → _ ∧ _))
  | .engine (.push _) | .engine .storeFlag | .engine .setEvent | .engine (.storeArmed _)
  | .call _ | .ui | .padWindow _ => isTrue trivial

/-! ### Why runs of such steps are handshaken -/

/-- A lab run's base was the counter's value once; and while the run waits for nothing any more,
    the counter has passed it. -/
structure AppState.LabInv (x : AppState) : Prop where
  base : x.app.labRunActive = true → x.app.labRunBase ≤ x.t.e.runsCompleted
  answered : x.app.labRunActive = true → x.posting = false → x.queued = false →
    x.t.loc = .idle → x.app.labRunBase < x.t.e.runsCompleted

namespace AppState.LabInv

variable {P : Platform} {x : AppState}

theorem handshaken (h : x.LabInv) : x.Handshaken := by
  intro hactive hposting hrests
  have hqueued : x.queued = false := by
    rw [queued, hrests.2]
    rfl
  exact h.answered hactive hposting hqueued hrests.1

/-- The application and its engine go on, with no lab run begun: the engine comes to rest only
    where it rested before, or with a run completed. -/
theorem go_on (h : x.LabInv) {x' : AppState}
    (hactive : x'.app.labRunActive = true → x.app.labRunActive = true)
    (hbase : x'.app.labRunBase = x.app.labRunBase)
    (hruns : x.t.e.runsCompleted ≤ x'.t.e.runsCompleted)
    (hrest : x.app.labRunActive = true → x'.posting = false → x'.queued = false →
      x'.t.loc = .idle → (x.posting = false ∧ x.queued = false ∧ x.t.loc = .idle) ∨
        x.app.labRunBase < x'.t.e.runsCompleted) : x'.LabInv := by
  constructor
  · intro hactive'
    have hle := h.base (hactive hactive')
    omega
  · intro hactive' hposting' hqueued' hidle'
    rcases hrest (hactive hactive') hposting' hqueued' hidle' with
      ⟨hposting, hqueued, hidle⟩ | hlt
    · have hlt := h.answered (hactive hactive') hposting hqueued hidle
      omega
    · rw [hbase]
      exact hlt

/-- A call begins: none has a `StartRun` to push before `startLab`. -/
theorem call (h : x.LabInv) (htodo : x.todo = []) (c : UiCall) :
    LabInv { x with
      app := (x.app.call x.t.e.runsCompleted c).1
      todo := (x.app.call x.t.e.runsCompleted c).2 } := by
  have hposting : x.posting = false := by
    rw [posting, htodo]
    rfl
  obtain ⟨hactive, hbase⟩ := x.app.call_frame x.t.e.runsCompleted c
  exact h.go_on hactive hbase (le_refl _) fun _ _ hqueued hidle => .inl ⟨hposting, hqueued, hidle⟩

/-- A piece of a call that pushes nothing. -/
theorem piece (h : x.LabInv) {u : UiStep} {us : List UiStep} (htodo : x.todo = u :: us)
    (hstart : u.postsStart = false) {t' : Thread} (hqueue : t'.e.queue = x.t.e.queue)
    (hloc : t'.loc = x.t.loc) (hruns : t'.e.runsCompleted = x.t.e.runsCompleted) :
    LabInv { x with t := t', todo := us } := by
  refine h.go_on id rfl hruns.ge fun _ hposting hqueued hidle => .inl ⟨?_, ?_, ?_⟩
  · rw [posting, htodo, List.any_cons, hstart]
    exact hposting
  · rw [queued, ← hqueue]
    exact hqueued
  · rw [← hloc]
    exact hidle

theorem ui (h : x.LabInv) : (x.ui P).LabInv := by
  unfold AppState.ui
  split
  · exact h
  · next c us htodo =>
    refine h.go_on id rfl (le_refl _) fun _ hposting hqueued hidle => ?_
    -- A `StartRun` moves from the call to the queue.
    have hqueue : x.queued = false ∧ c.startsRun = false := by
      simpa [queued, engineMachine, Machine.next] using hqueued
    refine .inl ⟨?_, hqueue.1, hidle⟩
    rw [posting, htodo, List.any_cons]
    show (c.startsRun || us.any UiStep.postsStart) = false
    rw [hqueue.2]
    exact hposting
  · next us htodo => exact h.piece htodo rfl rfl rfl rfl
  · next us htodo => exact h.piece htodo rfl rfl rfl rfl
  · next on us htodo => exact h.piece htodo rfl rfl rfl rfl
  · next limits qpc us htodo =>
    -- The run begins: its `StartRun` is among what is left to do.
    refine ⟨fun _ => le_refl _, fun _ hposting => ?_⟩
    simp [posting, App.startLab, UiStep.post, UiStep.postsStart, Command.startsRun] at hposting

/-- A step of the engine's thread. -/
theorem thread (h : x.LabInv) (o : Obs) (hstarts : StartsLabRun x (.engine (.thread o))) :
    LabInv { x with t := (x.t.step P o).1 } := by
  have hruns : x.t.e.runsCompleted ≤ (x.t.step P o).1.e.runsCompleted := by
    rcases x.t.step_runsCompleted P o with ⟨-, heq⟩ | ⟨-, heq⟩ <;> omega
  -- What may break the promise is only that the thread comes to rest without the lab's run.
  refine h.go_on id rfl hruns fun hactive hposting hqueued hidle => ?_
  have hrun : ∀ {loc : Loc}, loc = .ending ∨ loc.inRun = true → loc ≠ .idle := by
    rintro _ hloc rfl
    simp [Loc.inRun] at hloc
  change (x.t.step P o).1.loc = .idle at hidle
  rcases x.t.step_moves P o with ⟨hloc, -, heq⟩ | ⟨-, -, heq⟩ | ⟨-, heq⟩ | ⟨-, -, -, -, hloc'⟩ |
    ⟨hloc, hquit, hstart, hkeeps, -, -⟩ | ⟨-, -, -, -, -, -, hloc'⟩ |
    ⟨-, e, -, -, -, hstop, hgo⟩ | ⟨-, -, -, -, hloc'⟩ | ⟨-, -, event, -, -, -, hloc'⟩ |
    ⟨hloc, -, -, -⟩ | ⟨hloc, heq⟩
  case sleeps =>
    refine .inl ⟨hposting, ?_, hloc⟩
    rw [heq] at hqueued
    exact hqueued
  case rests b =>
    have hqueue : x.queued = false := by
      rw [queued, ← hkeeps.queue]
      exact hqueued
    by_cases hlt : x.app.labRunBase < x.t.e.runsCompleted
    · exact .inr (hlt.trans_le hruns)
    · -- The lab run's `StartRun` is behind this batch, which therefore starts a run.
      have hbatch : b ∈ x.t.loc.batchEnd := by
        rw [hloc]
        rfl
      have hgo := hstarts b hbatch hquit ⟨hactive, not_lt.mp hlt, hposting, hqueue⟩
      rcases hstart with hno | hno
      · rw [hgo.1] at hno
        exact absurd hno (by simp)
      · rw [hgo.2] at hno
        exact absurd hno (by simp)
  -- The run that ends is counted, so the lab sees it.
  case ends =>
    have hbase := h.base hactive
    rcases x.t.step_runsCompleted P o with ⟨-, hone⟩ | ⟨hother, -⟩
    · refine .inr ?_
      show x.app.labRunBase < (x.t.step P o).1.e.runsCompleted
      omega
    · exact absurd hloc hother
  -- Every other step leaves the thread away from its wait.
  case wakes =>
    rw [heq] at hidle
    exact absurd hidle (by simp)
  case command =>
    rw [heq] at hidle
    exact absurd hidle (by simp)
  case stays =>
    rw [heq, hloc] at hidle
    exact absurd hidle (by simp)
  case returns => exact absurd hidle (by simp [hloc'])
  case polls =>
    cases hpoll : e.poll.2.2 with
    | true => exact absurd hidle (by simp [(hstop hpoll).1])
    | false => exact absurd hidle (hrun (.inr (hgo hpoll)))
  all_goals exact absurd hidle (hrun hloc')

/-- Every step that keeps a lab run's start keeps the invariant. -/
theorem step (h : x.LabInv) (a : AppAct) (hstarts : StartsLabRun x a) :
    ((appMachine P).next x a).LabInv := by
  cases a with
  | call c =>
    simp only [Machine.next, appMachine]
    split
    · next hempty => exact h.call (List.isEmpty_iff.mp hempty) c
    · exact h
  | ui => exact h.ui
  | padWindow hwnd => exact ⟨h.base, h.answered⟩
  | engine a =>
    cases a with
    | thread o => exact h.thread o hstarts
    | push c =>
      refine h.go_on id rfl (le_refl _) fun _ hposting hqueued hidle => .inl ⟨hposting, ?_, hidle⟩
      have hqueue : x.queued = false ∧ c.startsRun = false := by
        simpa [queued, appMachine, engineMachine, Machine.next] using hqueued
      exact hqueue.1
    | _ => exact ⟨h.base, h.answered⟩

end AppState.LabInv

/-- Nothing is on its way at startup. -/
theorem AppState.LabInv.start (P : Platform) (waiter : PreciseWaiter) (clock : ℤ)
    (config : EngineConfig) (armOnLaunch : Bool) :
    (AppState.start P waiter clock config armOnLaunch).LabInv :=
  ⟨by simp [AppState.start], by simp [AppState.start]⟩

/-! ### Lab runs complete -/

/-- The next `tick` after a handshake takes the gate away: the lab run is over, and the engine is
    sent a configuration without the pad's window. -/
theorem AppState.Handshaken.tick {P : Platform} {x : AppState} (h : x.Handshaken)
    (hactive : x.app.labRunActive = true) (htodo : x.todo = []) (hrests : x.EngineRests) :
    ((appMachine P).after x [.call .tick, .ui]).app.labRunActive = false ∧
      ((appMachine P).after x [.call .tick, .ui]).app.testTarget = 0 ∧
      ((appMachine P).after x [.call .tick, .ui]).t.e.queue =
        [.setConfig { x.app.config with testTargetHwnd := 0 }] := by
  have hposting : x.posting = false := by
    rw [posting, htodo]
    rfl
  have hdone : x.app.labRunActive = true ∧ x.app.labRunBase < x.t.e.runsCompleted :=
    ⟨hactive, h hactive hposting hrests⟩
  have hcall : (appMachine P).next x (.call .tick) =
      { x with
        app := { x.app with labRunActive := false, testTarget := 0 }
        todo := UiStep.post (.setConfig { x.app.config with testTargetHwnd := 0 }) } := by
    simp [Machine.next, appMachine, htodo, App.call, hdone, App.applyConfigs]
  rw [Machine.after_cons, hcall]
  refine ⟨rfl, rfl, ?_⟩
  show x.t.e.queue ++ [_] = _
  rw [hrests.2, List.nil_append]

/-- A batch that leaves a lab run unanswered ends at rest, with the gate on. -/
theorem unanswered_not_handshaken {P : Platform} {x : AppState} {o : Obs}
    (h : ¬ StartsLabRun x (.engine (.thread o))) (hqueue : x.t.e.queue = []) :
    ¬ ((appMachine P).next x (.engine (.thread o))).Handshaken := by
  simp only [StartsLabRun, not_forall] at h
  obtain ⟨b, hbatch, hquit, ⟨hactive, hruns, hposting, -⟩, hno⟩ := h
  have hloc : x.t.loc = .commands [] b := by
    cases hloc : x.t.loc with
    | commands cmds b' =>
      cases cmds with
      | nil =>
        rw [hloc] at hbatch
        simpa [Loc.batchEnd] using hbatch
      | cons c cs => simp [hloc, Loc.batchEnd] at hbatch
    | _ => simp [hloc, Loc.batchEnd] at hbatch
  -- No run starts: the thread goes back to its wait.
  have hrests : x.t.e.Keeps (x.t.step P o).1.e ∧ (x.t.step P o).1.loc = .idle := by
    rcases x.t.step_moves P o with ⟨hloc', -, -⟩ | ⟨hloc', -, -⟩ | ⟨hloc', -⟩ |
      ⟨hloc', hquit', -, -, -⟩ | ⟨-, -, -, hkeeps, -, hidle⟩ | ⟨hloc', -, hstart, hok, -, -, -⟩ |
      ⟨hloc', e, -, -, -, -, -⟩ | ⟨hloc', -, -, -, -⟩ | ⟨hloc', -, event, -, -, -, -⟩ |
      ⟨hloc', -, -, -⟩ | ⟨hloc', -⟩
    case rests => exact ⟨hkeeps, hidle⟩
    case returns b' =>
      obtain rfl : b = b' := by simpa [hloc] using hloc'
      exact absurd hquit' (by simp [hquit])
    case starts b' =>
      obtain rfl : b = b' := by simpa [hloc] using hloc'
      exact absurd ⟨hstart, hok⟩ hno
    all_goals simp [hloc, Loc.polls, Loc.configures, Loc.inRun] at hloc'
  intro hshaken
  have hlt : x.app.labRunBase < (x.t.step P o).1.e.runsCompleted := by
    refine hshaken hactive hposting ⟨hrests.2, ?_⟩
    show (x.t.step P o).1.e.queue = []
    rw [hrests.1.queue, hqueue]
  rw [hrests.1.runsCompleted] at hlt
  omega

/-- What a lab run can rely on in a state: at rest it is answered, and the next `tick` takes the
    gate away; only a batch that starts no run for it leaves it without an answer. -/
structure AppState.CompletesLabRuns (P : Platform) (x : AppState) : Prop where
  handshaken : x.Handshaken
  ungated : x.app.labRunActive = true → x.todo = [] → x.EngineRests →
    ((appMachine P).after x [.call .tick, .ui]).app.labRunActive = false ∧
      ((appMachine P).after x [.call .tick, .ui]).app.testTarget = 0 ∧
      ((appMachine P).after x [.call .tick, .ui]).t.e.queue =
        [.setConfig { x.app.config with testTargetHwnd := 0 }]
  otherwise : ∀ o, ¬ StartsLabRun x (.engine (.thread o)) → x.t.e.queue = [] →
    ¬ ((appMachine P).next x (.engine (.thread o))).Handshaken

/-- **Lab runs complete** as long as every batch that takes a lab run's `StartRun` out ends by
    starting a run. -/
theorem lab_runs_complete (P : Platform) (waiter : PreciseWaiter) (clock : ℤ)
    (config : EngineConfig) (armOnLaunch : Bool) (acts : List AppAct)
    (hstarts : (appMachine P).Meets StartsLabRun
      (AppState.start P waiter clock config armOnLaunch) acts) :
    ((appMachine P).after
      (AppState.start P waiter clock config armOnLaunch) acts).CompletesLabRuns P := by
  have hinv : ((appMachine P).after
      (AppState.start P waiter clock config armOnLaunch) acts).LabInv :=
    (appMachine P).invariant_of_meets (fun y a hy => hy.step a)
      (AppState.LabInv.start P waiter clock config armOnLaunch) hstarts
  constructor
  · exact hinv.handshaken
  · intro hactive htodo hrests
    exact hinv.handshaken.tick hactive htodo hrests
  · intro o hno hqueue
    exact unanswered_not_handshaken hno hqueue

/-- The UI thread's pieces, and the engine's steps. -/
def AppAct.uis (n : ℕ) : List AppAct := List.replicate n .ui

def AppAct.engineSteps (n : ℕ) : List AppAct := (Act.steps n).map .engine

/-- A lab run of one action, up to the engine's rest after it. -/
def answeredLab : List AppAct :=
  AppAct.uis 3 ++ [.call (.startTest { maxActions := 1 } 1 7)] ++ AppAct.uis 10 ++
    List.replicate 16
      (.engine (.thread { dt := fun _ => 600000, gate := { foreground := 7, under := 7 } }))

theorem answeredLab_completes :
    ((appMachine .tenMegahertz).after (AppState.start .tenMegahertz {} 1000000000 {} false)
      answeredLab).CompletesLabRuns .tenMegahertz :=
  lab_runs_complete .tenMegahertz {} 1000000000 {} false answeredLab (by decide +kernel)

example :
    ((appMachine .tenMegahertz).after (AppState.start .tenMegahertz {} 1000000000 {} false)
      answeredLab).EngineRests ∧
    ((appMachine .tenMegahertz).after (AppState.start .tenMegahertz {} 1000000000 {} false)
      answeredLab).app.labRunActive = true ∧
    ((appMachine .tenMegahertz).after (AppState.start .tenMegahertz {} 1000000000 {} false)
      answeredLab).t.e.runsCompleted = 1 := by decide +kernel

/-- A lab run of one action, stopped before the engine has woken up. -/
def stoppedLab : List AppAct :=
  AppAct.uis 3 ++ [.call (.startTest { maxActions := 1 } 1 7)] ++ AppAct.uis 10 ++ [.call .stop] ++
    AppAct.uis 3 ++ AppAct.engineSteps 7

/-- A lab run of a profile whose action is bound to no key. -/
def refusedLab : List AppAct :=
  AppAct.uis 3 ++ [.call (.profileChanged { action := { chord := {} } })] ++ AppAct.uis 3 ++
    [.call (.startTest { maxActions := 1 } 1 7)] ++ AppAct.uis 10 ++ AppAct.engineSteps 7

theorem unanswered_labs :
    ¬ ((appMachine .tenMegahertz).after
        (AppState.start .tenMegahertz {} 1000000000 {} false) stoppedLab).Handshaken ∧
      ¬ ((appMachine .tenMegahertz).after
        (AppState.start .tenMegahertz {} 1000000000 {} false) refusedLab).Handshaken := by
  decide +kernel

end InfinityClicker
