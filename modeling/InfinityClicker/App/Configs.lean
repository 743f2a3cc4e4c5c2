import InfinityClicker.App.LabRun
import InfinityClicker.Profiles.Reload
import InfinityClicker.Scheduler.ConfigUpdates
import InfinityClicker.Trigger.MouseSources

namespace InfinityClicker

open Json Machines Mailboxes

/-!
# The controller keeps its threads consistent

`App::applyConfigs` makes a configuration for the trigger engine and one for the click engine of
the active profile, the settings and its own switches, and hands each to its thread.

* `AppSetup` — what the configurations are made of, with the changes of it;
* `SetupCall.steps` — the calls on the UI thread, in the steps that matter here;
* `controllerMachine` — the UI thread, the pad's, the trigger thread with its callers and the
  engine's thread with its own, in any interleaving;
* `Controller.Synced` — what is on its way to each thread comes to the same setup, with the pad's
  window as it was read for it;
* `controller_consistent` — at rest both threads have the configurations of the setup, and an
  in-flight limit has the hook that counts for it.
-/

/-! ### What the configurations are made of -/

/-- What `applyConfigs` reads. -/
structure AppSetup where
  store : ProfileStore
  /-- `uiHwnd_`, 0 for none. -/
  uiHwnd : ℕ := 0
  /-- `pad_.hwnd()`, 0 while the pad is closed. -/
  pad : ℕ := 0
  labObserve : Bool := false
  acceptBenchTag : Bool := false
  testTarget : ℕ := 0
  padExempt : Bool := true

/-- A change that calls for new configurations. -/
inductive SetupChange where
  | store (a : StoreEdit)
  | uiHwnd (h : ℕ)
  /-- `pad_.open` or `pad_.close`, after which the pad's window is `h`. -/
  | pad (h : ℕ)
  | labObserve (on : Bool)
  | acceptBenchTag (on : Bool)
  | testTarget (h : ℕ)
  /-- `testTarget_ = pad_.hwnd()`. -/
  | aimAtPad
  | padExempt (on : Bool)

namespace AppSetup

variable (P : Platform) (lang : Lang) (H : LoopHost) (x : AppSetup)

/-- The active profile; the profiles are never empty once `active` has been called. -/
def profile : Profile := (x.store.active P lang).2.getD (Profile.initial P)

/-- MAX mode backpressure needs our hook to see delivered mouse events. -/
def bp : Bool :=
  let p := x.profile P lang
  p.maxMode && p.maxBackpressure && p.action.chord.isMouse

/-- The configuration for the trigger engine. -/
def triggerSettings : TriggerSettings :=
  let p := x.profile P lang
  let s := x.store.settings
  { trigger := p.trigger
    suppressTrigger := p.suppressTrigger
    mouseBackend := p.mouseBackend
    filter := { acceptInjected := s.acceptInjectedTriggers, acceptBenchTag := x.acceptBenchTag }
    emergency := s.emergency
    observeMouse := x.labObserve || x.bp P lang
    filterEnabled := p.filterEnabled
    targetProcesses := H.toWide p.targetProcess
    pauseOnOwnWindow := s.pauseOnOwnWindow
    ownWindow := x.uiHwnd != 0
    testPad := if x.padExempt then x.pad else 0 }

/-- The configuration for the click engine. -/
def engineConfig : EngineConfig :=
  let e := makeEngineConfig (x.profile P lang)
  { e with
    maxInflight := if x.bp P lang then e.maxInflight else 0
    testTargetHwnd := x.testTarget }

/-- The setup after a change. -/
def change : SetupChange → AppSetup
  | .store a => { x with store := x.store.edit P a }
  | .uiHwnd h => { x with uiHwnd := h }
  | .pad h => { x with pad := h }
  | .labObserve on => { x with labObserve := on }
  | .acceptBenchTag on => { x with acceptBenchTag := on }
  | .testTarget h => { x with testTarget := h }
  | .aimAtPad => { x with testTarget := x.pad }
  | .padExempt on => { x with padExempt := on }

end AppSetup

/-- A piece of `applyConfigs`: `trigger_.setConfig` up to its message, or a piece of
    `engine_.setConfig`. -/
inductive SetupStep where
  | trigger (cfg : TriggerSettings)
  | engine (a : Act)

/-- `applyConfigs`: the setup after it, for `active` can bring the default profiles back, and what
    it does. -/
def AppSetup.applyConfigs (P : Platform) (lang : Lang) (H : LoopHost) (x : AppSetup) :
    AppSetup × List SetupStep :=
  ({ x with store := (x.store.active P lang).1 },
    .trigger (x.triggerSettings P lang H) ::
      (Act.post (.setConfig (x.engineConfig P lang))).map .engine)

/-! ### The calls on the UI thread -/

/-- A call on the UI thread that hands over configurations. -/
inductive SetupCall where
  /-- An edit of a profile or the settings, with `profileChanged`, `settingsChanged` or
      `selectProfile`. -/
  | edit (a : StoreEdit)
  | setUiWindow (h : ℕ)
  | setLabObserve (on : Bool)
  | setAcceptBenchTag (on : Bool)
  | setTestTarget (h : ℕ)
  | setPadExempt (on : Bool)
  /-- `openPad`, after which the pad's window is `h`. -/
  | openPad (h : ℕ)
  /-- `startTest`, with the window of the pad where the call has to open it. -/
  | startTest (h : ℕ)
  /-- `tick` when a lab run has ended. -/
  | labRunEnded

/-- A step of such a call. -/
inductive CallStep where
  | change (c : SetupChange)
  | applyConfigs

/-- The steps of a call, from the setup as it finds it. -/
def SetupCall.steps (x : AppSetup) : SetupCall → List CallStep
  | .edit a => [.change (.store a), .applyConfigs]
  | .setUiWindow h => [.change (.uiHwnd h), .applyConfigs]
  | .setLabObserve on => [.change (.labObserve on), .applyConfigs]
  | .setAcceptBenchTag on => [.change (.acceptBenchTag on), .applyConfigs]
  | .setTestTarget h => [.change (.testTarget h), .applyConfigs]
  | .setPadExempt on => [.change (.padExempt on), .applyConfigs]
  | .openPad h => [.change (.pad h), .applyConfigs]
  | .startTest h =>
    -- A closed pad is opened by `openPad`, which hands the configurations over once more.
    (if x.pad = 0 then [.change (.pad h), .applyConfigs] else []) ++
      [.change .aimAtPad, .applyConfigs]
  | .labRunEnded => [.change (.testTarget 0), .applyConfigs]

/-! ### The threads -/

/-- The application's threads, as far as configurations go. -/
structure Controller where
  setup : AppSetup
  /-- The pad's window as `applyConfigs` read it last. -/
  padRead : ℕ := 0
  /-- The pad's own thread has opened or closed it since. -/
  padMoved : Bool := false
  /-- What is left of the UI thread's call, -/
  call : List CallStep
  /-- and before that of the `applyConfigs` it is in. -/
  todo : List SetupStep := []
  loop : TriggerLoop := {}
  t : Thread

/-- What happens next, and on which thread. -/
inductive ControllerAct where
  | call (c : SetupCall)
  /-- The UI thread goes on with its call. -/
  | ui
  /-- The trigger thread goes on, or someone calls it; `setConfig` is left to the UI thread. -/
  | loop (a : LoopAct)
  /-- The engine's thread makes a step, or someone posts to it; the same. -/
  | engine (a : Act)
  /-- The pad's window, on its own thread, opens or is closed. -/
  | padWindow (h : ℕ)

/-- The act hands over a configuration. -/
def Act.configures : Act → Bool
  | .push (.setConfig _) => true
  | _ => false

section Machine

variable (P : Platform) (lang : Lang) (H : LoopHost)

namespace Controller

/-- One step of one thread.  The UI thread begins a call when the one before has returned. -/
def step (x : Controller) : ControllerAct → Controller
  | .call c =>
    if x.call.isEmpty && x.todo.isEmpty then { x with call := c.steps x.setup } else x
  | .ui =>
    match x.todo, x.call with
    | .trigger cfg :: todo, _ =>
      { x with loop := (loopMachine H).next x.loop (.setConfig cfg), todo := todo }
    | .engine a :: todo, _ => { x with t := (engineMachine P).next x.t a, todo := todo }
    | [], .change c :: call => { x with setup := x.setup.change P c, call := call }
    | [], .applyConfigs :: call =>
      -- The pad's window is read here, whatever its thread does next.
      let r := x.setup.applyConfigs P lang H
      { x with
        setup := r.1
        padRead := x.setup.pad
        padMoved := false
        call := call
        todo := r.2 }
    | [], [] => x
  | .loop a =>
    if a.cfg?.isSome then x else { x with loop := (loopMachine H).next x.loop a }
  | .engine a => if a.configures then x else { x with t := (engineMachine P).next x.t a }
  | .padWindow h => { x with setup := { x.setup with pad := h }, padMoved := true }

/-- `App::init` from the start of the engine on. -/
def start (waiter : PreciseWaiter) (clock : ℤ) (setup : AppSetup) : Controller :=
  { setup := setup, call := [.applyConfigs], t := Thread.start P waiter clock }

/-- Windows does what the trigger thread asks for. -/
def Answers (_ : Controller) : ControllerAct → Prop
  | .loop a => TriggerLoop.Answers {} a
  | _ => True

end Controller

/-- The controller with its threads. -/
def controllerMachine : Machine Controller ControllerAct Empty where
  step x a := (x.step P lang H a, [])

end Machine

/-! ### What is on its way -/

@[simp] def SetupStep.settings? : SetupStep → Option TriggerSettings
  | .trigger cfg => some cfg
  | .engine _ => none

@[simp] def SetupStep.config? : SetupStep → Option EngineConfig
  | .engine (.push c) => c.cfg?
  | _ => none

/-! ### Stores are never empty -/

namespace ProfileStore

variable {P : Platform} {lang : Lang} {s : ProfileStore}

theorem active_of_ne_nil (h : s.profiles ≠ []) : (s.active P lang).1 = s := by
  have hsome : s.activeIndex ≠ none := by
    unfold activeIndex
    split
    · simp
    · rw [if_neg (by simpa using h)]
      simp
  unfold active
  split
  · rfl
  · next hnone => exact absurd hnone hsome

/-- The last profile cannot be deleted. -/
theorem edit_ne_nil (h : s.profiles ≠ []) (a : StoreEdit) : (s.edit P a).profiles ≠ [] := by
  -- Only a deletion takes a profile away, and it spares the last one.
  cases a with
  | profile i p =>
    show s.profiles.set i p ≠ []
    simpa using h
  | settings settings => exact h
  | manage op =>
    cases op with
    | activate name =>
      show (s.setActive name).1.profiles ≠ []
      unfold setActive
      split <;> exact h
    | rename i nameBuf =>
      show (s.rename i nameBuf).profiles ≠ []
      unfold rename
      split
      · exact h
      · dsimp only
        split
        · simpa using h
        · exact h
    | duplicate i lang =>
      show (s.duplicate i lang).profiles ≠ []
      unfold duplicate
      split
      · exact h
      · simp
    | delete i =>
      show (s.delete i).profiles ≠ []
      unfold delete
      split
      · exact h
      · split
        · exact h
        · next hmore =>
          show s.profiles.eraseIdx i ≠ []
          rw [← List.length_pos_iff]
          have hle := List.le_length_eraseIdx s.profiles i
          omega
    | new lang =>
      show s.profiles ++ _ ≠ []
      simp
    | reset lang => exact defaults_ne_nil P lang

end ProfileStore

/-! ### Both threads -/

section Synced

variable {P : Platform} {lang : Lang} {H : LoopHost} {waiter : PreciseWaiter} {clock : ℤ}

/-- Every call ends in `applyConfigs`. -/
theorem SetupCall.steps_last (x : AppSetup) (c : SetupCall) :
    ∀ s ∈ (c.steps x).getLast?, s = .applyConfigs := by
  cases c with
  | startTest h => simp [steps]
  | _ => simp [steps]

/-- What was handed to each thread, and what the UI thread still hands over, comes to the
    configurations of the setup, unless its call is not at its last `applyConfigs`. -/
structure Controller.Synced (P : Platform) (lang : Lang) (H : LoopHost) (waiter : PreciseWaiter)
    (clock : ℤ) (x : Controller) : Prop where
  nonempty : x.setup.store.profiles ≠ []
  last : ∀ s ∈ x.call.getLast?, s = .applyConfigs
  pad : x.call = [] → x.padMoved = false → x.padRead = x.setup.pad
  loop : ∃ acts, (loopMachine H).Meets TriggerLoop.Answers {} acts ∧
    x.loop = (loopMachine H).after {} acts ∧
    (x.call = [] → lastOf SetupStep.settings? (lastSettings acts) x.todo =
      ({ x.setup with pad := x.padRead } : AppSetup).triggerSettings P lang H)
  engine : ∃ acts, x.t = (engineMachine P).after (Thread.start P waiter clock) acts ∧
    (x.call = [] → lastOf SetupStep.config? (lastConfig {} (pushedBy acts)) x.todo =
      x.setup.engineConfig P lang)

namespace Controller.Synced

variable {x : Controller}

/-- The UI thread is in a call: only what has been done so far counts. -/
theorem busy (h : x.Synced P lang H waiter clock) {setup : AppSetup} {call : List CallStep}
    (hne : setup.store.profiles ≠ []) (hcall : call ≠ [])
    (hlast : ∀ s ∈ call.getLast?, s = .applyConfigs) :
    Synced P lang H waiter clock { x with setup := setup, call := call } := by
  obtain ⟨acts, hmeets, hacts, -⟩ := h.loop
  obtain ⟨acts', hacts', -⟩ := h.engine
  exact ⟨hne, hlast, fun hnil => absurd hnil hcall,
    ⟨acts, hmeets, hacts, fun hnil => absurd hnil hcall⟩,
    ⟨acts', hacts', fun hnil => absurd hnil hcall⟩⟩

/-- `applyConfigs` hands over both configurations, whatever was under way. -/
theorem applyConfigs (h : x.Synced P lang H waiter clock) {call : List CallStep}
    (hlast : ∀ s ∈ call.getLast?, s = .applyConfigs) :
    Synced P lang H waiter clock
      { x with
        setup := (x.setup.applyConfigs P lang H).1
        padRead := x.setup.pad
        padMoved := false
        call := call
        todo := (x.setup.applyConfigs P lang H).2 } := by
  have hsetup : (x.setup.applyConfigs P lang H).1 = x.setup := by
    unfold AppSetup.applyConfigs
    rw [ProfileStore.active_of_ne_nil h.nonempty]
  rw [hsetup]
  obtain ⟨acts, hmeets, hacts, -⟩ := h.loop
  obtain ⟨acts', hacts', -⟩ := h.engine
  exact ⟨h.nonempty, hlast, fun _ _ => rfl, ⟨acts, hmeets, hacts, fun _ => rfl⟩,
    ⟨acts', hacts', fun _ => rfl⟩⟩

/-- A move of the trigger thread or its callers that hands over no configuration. -/
theorem moveLoop (h : x.Synced P lang H waiter clock) {a : LoopAct} (hno : a.cfg? = none)
    (ha : TriggerLoop.Answers {} a) :
    Synced P lang H waiter clock { x with loop := (loopMachine H).next x.loop a } := by
  obtain ⟨acts, hmeets, hacts, hsettings⟩ := h.loop
  refine ⟨h.nonempty, h.last, h.pad, ⟨acts ++ [a], ?_, ?_, fun hcall => ?_⟩, h.engine⟩
  · rw [Machine.meets_append]
    exact ⟨hmeets, ha, trivial⟩
  · rw [Machine.after_append, ← hacts]
    rfl
  · rw [lastSettings, lastOf_append, lastOf_cons, hno]
    exact hsettings hcall

/-- The same for the engine's thread. -/
theorem moveEngine (h : x.Synced P lang H waiter clock) {a : Act} (hno : a.configures = false) :
    Synced P lang H waiter clock { x with t := (engineMachine P).next x.t a } := by
  obtain ⟨acts, hacts, hconfig⟩ := h.engine
  refine ⟨h.nonempty, h.last, h.pad, h.loop, acts ++ [a], ?_, ?_⟩
  · rw [Machine.after_append, ← hacts]
    rfl
  · have hpushed : lastConfig {} (pushedBy (acts ++ [a])) = lastConfig {} (pushedBy acts) := by
      rw [pushedBy_append, lastConfig_append]
      cases a with
      | push c =>
        cases c with
        | setConfig c => exact absurd hno (by simp [Act.configures])
        | _ => rfl
      | _ => rfl
    rw [hpushed]
    exact hconfig

/-- `trigger_.setConfig`, called by `applyConfigs`. -/
theorem handSettings (h : x.Synced P lang H waiter clock) {cfg : TriggerSettings}
    {todo : List SetupStep} (htodo : x.todo = .trigger cfg :: todo) :
    Synced P lang H waiter clock
      { x with loop := (loopMachine H).next x.loop (.setConfig cfg), todo := todo } := by
  obtain ⟨acts, hmeets, hacts, hsettings⟩ := h.loop
  obtain ⟨acts', hacts', hconfig⟩ := h.engine
  rw [htodo, lastOf_cons] at hsettings hconfig
  refine ⟨h.nonempty, h.last, h.pad, ⟨acts ++ [.setConfig cfg], ?_, ?_, fun hcall => ?_⟩, acts',
    hacts', hconfig⟩
  · rw [Machine.meets_append]
    exact ⟨hmeets, trivial, trivial⟩
  · rw [Machine.after_append, ← hacts]
    rfl
  · rw [lastSettings, lastOf_append]
    exact hsettings hcall

/-- A piece of `engine_.setConfig`. -/
theorem handConfig (h : x.Synced P lang H waiter clock) {a : Act} {todo : List SetupStep}
    (htodo : x.todo = .engine a :: todo) :
    Synced P lang H waiter clock
      { x with t := (engineMachine P).next x.t a, todo := todo } := by
  obtain ⟨acts, hmeets, hacts, hsettings⟩ := h.loop
  obtain ⟨acts', hacts', hconfig⟩ := h.engine
  rw [htodo, lastOf_cons] at hsettings hconfig
  refine ⟨h.nonempty, h.last, h.pad, ⟨acts, hmeets, hacts, hsettings⟩, acts' ++ [a], ?_,
    fun hcall => ?_⟩
  · rw [Machine.after_append, ← hacts']
    rfl
  · rw [pushedBy_append, lastConfig_append, ← hconfig hcall]
    cases a with
    | push c =>
      show lastOf _ (lastConfig _ [c]) todo = _
      rw [lastConfig_cons]
      rfl
    | _ => rfl

/-- The UI thread goes on. -/
theorem stepUi (h : x.Synced P lang H waiter clock) :
    (x.step P lang H .ui).Synced P lang H waiter clock := by
  have hrest : ∀ s call, x.call = s :: call → ∀ s' ∈ call.getLast?, s' = .applyConfigs := by
    intro s call hcall s' hs'
    have hlast := h.last
    rw [hcall, List.getLast?_cons] at hlast
    rw [Option.mem_def] at hs'
    exact hlast s' (by simp [hs'])
  unfold Controller.step
  dsimp only
  split
  · next htodo => exact h.handSettings htodo
  · next htodo => exact h.handConfig htodo
  · next c call htodo hcall =>
    -- A change is not the last step of its call.
    have hmore : call ≠ [] := by
      rintro rfl
      have hlast := h.last
      rw [hcall] at hlast
      exact absurd (hlast _ rfl) (by simp)
    have hne : (x.setup.change P c).store.profiles ≠ [] := by
      cases c with
      | store a => exact ProfileStore.edit_ne_nil h.nonempty a
      | _ => exact h.nonempty
    exact h.busy hne hmore (hrest _ _ hcall)
  · next call htodo hcall => exact h.applyConfigs (hrest _ _ hcall)
  · exact h

/-- **Every step of every thread** keeps what is on its way in step with the setup. -/
theorem step (h : x.Synced P lang H waiter clock) {a : ControllerAct}
    (ha : Controller.Answers x a) : (x.step P lang H a).Synced P lang H waiter clock := by
  cases a with
  | call c =>
    unfold Controller.step
    dsimp only
    split
    · have hcall : c.steps x.setup ≠ [] := by cases c <;> simp [SetupCall.steps]
      exact h.busy h.nonempty hcall (c.steps_last x.setup)
    · exact h
  | ui => exact h.stepUi
  | loop a =>
    unfold Controller.step
    dsimp only
    split
    · exact h
    · next hno => exact h.moveLoop (by simpa using hno) ha
  | engine a =>
    unfold Controller.step
    dsimp only
    split
    · exact h
    · next hno => exact h.moveEngine (by simpa using hno)
  | padWindow p =>
    -- What was read for the configurations stays as it is.
    exact ⟨h.nonempty, h.last, fun _ hmoved => absurd hmoved (by simp [Controller.step]), h.loop,
      h.engine⟩

end Controller.Synced

/-- An engine at rest with an empty queue has the configuration posted last. -/
theorem Thread.Follows.rest {t : Thread} {m : EngineConfig} (h : t.Follows P m)
    (hidle : t.loc = .idle) (hqueue : t.e.queue = []) :
    t.e.cfg = m ∧ t.e.pendingCfg = none ∧ t.e.Built P := by
  have hnone : t.e.pendingCfg = none := h.settled (by rw [hidle]; rfl)
  have hlatest := h.queued (by rw [hidle]; rfl) (by rw [hidle]; rfl) (by simp [hidle])
  simp only [hqueue, lastConfig_nil, Engine.latest, hnone, Option.getD_none, List.not_mem_nil,
    false_or] at hlatest
  exact ⟨hlatest, hnone, h.built⟩

/-- The hook is asked for where the engine counts on it. -/
theorem AppSetup.maxInflight_ne_zero {x : AppSetup}
    (h : (x.engineConfig P lang).maxInflight ≠ 0) : x.bp P lang = true := by
  by_contra hno
  rw [Bool.not_eq_true] at hno
  exact h (by simp [engineConfig, hno])

end Synced

/-- **The controller keeps its threads consistent.**  Whatever is edited, switched and captured, and
    however the UI thread, the pad's, the trigger thread, the engine's thread and their other
    callers interleave: once a call has returned,

    * a trigger thread with nothing on its way has the configuration of the setup, and its hooks;
      the test pad in it is the window that `applyConfigs` read last, which is still the pad's
      unless the pad's own thread has opened or closed it since;
    * an engine at rest has the configuration of the same setup, and its programs;
    * with both at rest, an engine that limits what is in flight is in MAX mode with a mouse
      action, and the mouse hook that counts what is delivered is installed. -/
theorem controller_consistent (P : Platform) (lang : Lang) (H : LoopHost) (waiter : PreciseWaiter)
    (clock : ℤ) (setup : AppSetup) (hstore : setup.store.profiles ≠ [])
    (acts : List ControllerAct)
    (hanswers : (controllerMachine P lang H).Meets Controller.Answers
      (.start P waiter clock setup) acts) :
    let x := (controllerMachine P lang H).after (.start P waiter clock setup) acts
    x.call = [] → x.todo = [] →
      (x.loop.Quiet → x.loop.Installed ∧
        x.loop.cfg = ({ x.setup with pad := x.padRead } : AppSetup).triggerSettings P lang H ∧
        (x.padMoved = false → x.padRead = x.setup.pad)) ∧
      (x.t.loc = .idle → x.t.e.queue = [] → x.t.e.cfg = x.setup.engineConfig P lang ∧
        x.t.e.pendingCfg = none ∧ x.t.e.Built P) ∧
      (x.loop.Quiet → x.t.loc = .idle → x.t.e.queue = [] → x.t.e.cfg.maxInflight ≠ 0 →
        x.t.e.cfg.maxMode = true ∧ x.t.e.cfg.action.chord.isMouse = true ∧
          x.loop.mouseHook = true ∧ x.loop.rawOn = false) := by
  intro x hcall htodo
  -- Nothing has been handed over at the start, and the first `applyConfigs` is still to come.
  have hstart : Controller.Synced P lang H waiter clock (.start P waiter clock setup) :=
    ⟨hstore, by simp [Controller.start], by simp [Controller.start],
      ⟨[], trivial, rfl, by simp [Controller.start]⟩, ⟨[], rfl, by simp [Controller.start]⟩⟩
  have hsynced : x.Synced P lang H waiter clock :=
    (controllerMachine P lang H).invariant_of_meets (fun x a h ha => h.step ha) hstart hanswers
  obtain ⟨lacts, hmeets, hloop, hsettings⟩ := hsynced.loop
  obtain ⟨eacts, ht, hconfig⟩ := hsynced.engine
  replace hsettings := hsettings hcall
  replace hconfig := hconfig hcall
  rw [htodo, lastOf_nil] at hsettings hconfig
  -- The loop has taken what was handed to it last, which is the setup's with the pad last read.
  have hquiet : x.loop.Quiet → x.loop.Installed ∧
      x.loop.cfg = ({ x.setup with pad := x.padRead } : AppSetup).triggerSettings P lang H := by
    intro hq
    have hconverging := TriggerLoop.converging_after hmeets
    rw [← hloop, hsettings] at hconverging
    obtain ⟨hcfg, -, hinstalled⟩ := hconverging.settles hq
    exact ⟨hinstalled, hcfg⟩
  -- So has the engine, once it waits with an empty queue.
  have hrest : x.t.loc = .idle → x.t.e.queue = [] → x.t.e.cfg = x.setup.engineConfig P lang ∧
      x.t.e.pendingCfg = none ∧ x.t.e.Built P := by
    intro hidle hqueue
    have hfollows := Thread.follows_after P waiter clock eacts
    rw [← ht, hconfig] at hfollows
    exact hfollows.rest hidle hqueue
  refine ⟨fun hq => ⟨(hquiet hq).1, (hquiet hq).2, hsynced.pad hcall⟩, hrest, ?_⟩
  -- A limit is only ever configured for MAX mode with a mouse action, which needs the hook.
  intro hq hidle hqueue hlimit
  obtain ⟨hinstalled, hcfg⟩ := hquiet hq
  have hengine := (hrest hidle hqueue).1
  rw [hengine] at hlimit
  have hbp := AppSetup.maxInflight_ne_zero hlimit
  have hneed : x.loop.cfg.needHook x.loop.captureState = true := by
    have hobserve : x.loop.cfg.observeMouse = true := by
      rw [hcfg]
      show (x.setup.labObserve || x.setup.bp P lang) = true
      rw [hbp, Bool.or_true]
    simp [TriggerSettings.needHook, hobserve]
  rw [AppSetup.bp, Bool.and_eq_true, Bool.and_eq_true] at hbp
  rw [hengine]
  refine ⟨hbp.1.1, hbp.2, hinstalled.mouse.trans hneed, ?_⟩
  rw [hinstalled.raw, TriggerSettings.needRaw, hneed]
  rfl

/-- A profile in MAX mode. -/
def maxSetup : AppSetup where
  store := {
    profiles := [{ Profile.initial .tenMegahertz with maxMode := true }]
    settings := .initial .tenMegahertz }

/-- The pad is opened as window 7 and the configurations are handed over again; then both threads
    come to rest. -/
def maxSettled : List ControllerAct :=
  List.replicate 5 .ui ++ .call (.openPad 7) :: List.replicate 6 .ui ++
    [.loop .startThread, .loop (.post 0), .loop (.post 0)] ++
    List.replicate 12 (.loop (.go {})) ++ (Act.steps 4).map .engine

/-- The machine of `maxSetup` after `maxSettled`. -/
def maxController : Controller :=
  (controllerMachine .tenMegahertz .en plainHost).after
    (.start .tenMegahertz {} 1000000000 maxSetup) maxSettled

theorem controller_consistent_max :
    (maxController.t.e.cfg.maxMode = true ∧ maxController.t.e.cfg.action.chord.isMouse = true ∧
      maxController.loop.mouseHook = true ∧ maxController.loop.rawOn = false) ∧
      maxController.padRead = 7 := by
  have hok : Controller.Answers maxController (.loop (.go {})) := ⟨rfl, rfl, rfl, rfl⟩
  have hmeets : (controllerMachine .tenMegahertz .en plainHost).Meets Controller.Answers
      (.start .tenMegahertz {} 1000000000 maxSetup) maxSettled :=
    ⟨trivial, trivial, trivial, trivial, trivial, trivial, trivial, trivial, trivial, trivial,
      trivial, trivial, trivial, trivial, trivial, hok, hok, hok, hok, hok, hok, hok, hok, hok, hok,
      hok, hok, trivial, trivial, trivial, trivial, trivial⟩
  have hall := controller_consistent .tenMegahertz .en plainHost {} 1000000000 maxSetup
    (by simp [maxSetup]) maxSettled hmeets (by decide +kernel) (by decide +kernel)
  have hquiet : maxController.loop.Quiet :=
    ⟨by decide +kernel, by decide +kernel, by decide +kernel, by decide +kernel⟩
  exact ⟨hall.2.2 hquiet (by decide +kernel) (by decide +kernel) (by decide +kernel),
    (hall.1 hquiet).2.2 (by decide +kernel)⟩

end InfinityClicker
