import InfinityClicker.Scheduler.EngineSteps

namespace InfinityClicker

open Machines

/-!
# The gate and the clicks of a timed run

`runTimed` looks at the gate at an action boundary, at most every 2 ms, and then waits for the
deadline of the action.  A monitor beside the engine tells from the clock's readings and the gate
alone when a look is due.

* `Covered` — every action of a trace has an open look at most 2 ms before its send;
* `GateClock` — the boundaries that are 2 ms apart, and the rounds of a pause that end it;
* `Ready.step` — the engine looks exactly there, and the last look before an action is an open
  one, through pauses, restarts and changes of the configuration;
* `covered_iff_prompt` — so the actions of a run are covered exactly when the wait for each is over
  within 2 ms of the look that was last due.

At a slow rate it is not: the second click of a run goes out a whole period after the look
(`slow_clicks_leak`).
-/

/-! ### Looks and actions in a trace -/

/-- The look at the gate that an event of the trace is: when, and whether the gate was open. -/
def Event.look? : Event → Option (ℤ × Bool)
  | .looked at_ isOpen => some (at_, isOpen)
  | _ => none

/-- The time of the action that an event of the trace is. -/
def Event.fire? : Event → Option ℤ
  | .fired at_ _ _ => some at_
  | _ => none

/-- The looks at the gate: when, and whether it was open. -/
def looksOf (events : List Event) : List (ℤ × Bool) := events.filterMap Event.look?

/-- When actions start. -/
def firesOf (events : List Event) : List ℤ := events.filterMap Event.fire?

/-- An empty trace has no looks. -/
@[simp] theorem looksOf_nil : looksOf [] = [] := rfl

/-- The looks of a trace, event by event. -/
@[simp] theorem looksOf_cons (ev : Event) (es : List Event) :
    looksOf (ev :: es) = ev.look?.toList ++ looksOf es := by cases ev <;> rfl

/-- Looks are collected piece by piece. -/
@[simp] theorem looksOf_append (a b : List Event) : looksOf (a ++ b) = looksOf a ++ looksOf b :=
  List.filterMap_append

/-- Sends are no looks. -/
@[simp] theorem looksOf_sent (cs : List SendCall) : looksOf (cs.map .sent) = [] := by
  simp [looksOf, List.filterMap_map, Function.comp_def, Event.look?]

/-- Commands taken are no looks. -/
@[simp] theorem looksOf_consumed (cs : List Command) : looksOf (cs.map .consumed) = [] := by
  simp [looksOf, List.filterMap_map, Function.comp_def, Event.look?]

/-- A release of everything held is no look. -/
@[simp] theorem looksOf_releaseEvents (e : Engine) (r retry : SendResult) :
    looksOf (e.releaseEvents r retry) = [] := by
  simp [looksOf, Engine.releaseEvents, List.filterMap_map, Function.comp_def, Event.look?]

/-- An empty trace has no actions. -/
@[simp] theorem firesOf_nil : firesOf [] = [] := rfl

/-- The actions of a trace, event by event. -/
@[simp] theorem firesOf_cons (ev : Event) (es : List Event) :
    firesOf (ev :: es) = ev.fire?.toList ++ firesOf es := by cases ev <;> rfl

/-- Actions are collected piece by piece. -/
@[simp] theorem firesOf_append (a b : List Event) : firesOf (a ++ b) = firesOf a ++ firesOf b :=
  List.filterMap_append

/-- Sends are no actions. -/
@[simp] theorem firesOf_sent (cs : List SendCall) : firesOf (cs.map .sent) = [] := by
  simp [firesOf, List.filterMap_map, Function.comp_def, Event.fire?]

/-- Commands taken are no actions. -/
@[simp] theorem firesOf_consumed (cs : List Command) : firesOf (cs.map .consumed) = [] := by
  simp [firesOf, List.filterMap_map, Function.comp_def, Event.fire?]

/-- A release of everything held is no action. -/
@[simp] theorem firesOf_releaseEvents (e : Engine) (r retry : SendResult) :
    firesOf (e.releaseEvents r retry) = [] := by
  simp [firesOf, Engine.releaseEvents, List.filterMap_map, Function.comp_def, Event.fire?]

/-- Every action in `events`, after those in `past`, has an open look at most `g` before it. -/
def Covered (g : ℤ) (past : List Event) : List Event → Prop
  | [] => True
  | ev :: events =>
    (∀ f ∈ firesOf [ev], ∃ look ∈ looksOf past, look.2 = true ∧ f - g ≤ look.1) ∧
      Covered g (past ++ [ev]) events

/-- A trace is covered when its first part is, and its second part is with the first behind it. -/
theorem covered_append (g : ℤ) (past a b : List Event) :
    Covered g past (a ++ b) ↔ Covered g past a ∧ Covered g (past ++ a) b := by
  induction a generalizing past with
  | nil => simp [Covered]
  | cons ev a ih =>
    have htail := ih (past ++ [ev])
    simp only [List.cons_append, Covered, htail, and_assoc, List.append_assoc, List.nil_append]

/-- Without actions there is nothing to cover. -/
theorem covered_of_firesOf_nil {g : ℤ} {past events : List Event} (h : firesOf events = []) :
    Covered g past events := by
  induction events generalizing past with
  | nil => trivial
  | cons ev events ih =>
    -- None of the events is an action, the first one included.
    rw [firesOf_cons, List.append_eq_nil_iff] at h
    refine ⟨fun f hf => ?_, ih h.2⟩
    rw [firesOf_cons, h.1] at hf
    exact absurd hf (by simp)

/-! ### When a look is due -/

/-- When the gate was last looked at, told from the clock's readings and the gate alone. -/
structure GateClock where
  /-- The last boundary at which 2 ms had passed since the one kept before it; 0 at the start of a
      run. -/
  boundary : ℤ := 0
  /-- That boundary, or the later round of a pause that found the gate open. -/
  look : ℤ := 0

/-- A step of the thread: a boundary counts when it is not too early for a look, and a round of a
    pause when the gate is open.  Outside a timed run nothing is kept. -/
def GateClock.advance (P : Platform) (c : GateClock) (t : Thread) (o : Obs) : GateClock :=
  let now := t.e.clock + o.dt 0
  match t.loc with
  | .timedGate _ =>
    if Clk.msToTicks P kGateCheckMs ≤ now - c.boundary then { boundary := now, look := now } else c
  | .timedPause _ => if t.e.checkGate o.gate = none then { c with look := now } else c
  | .timed _ | .timedConfig _ | .timedLate _ _ | .timedAct _ => c
  | _ => {}

/-- The engine with the clock of its looks. -/
def gateMachine (P : Platform) : Machine (Thread × GateClock) Act Event :=
  (engineMachine P).watch fun t c act _ =>
    match act with
    | .thread o => c.advance P t o
    | _ => c

/-- The reading at which the wait for a step is over: at once when its deadline has come, with
    the waiter's last reading when that reaches it.  A wait that is cut short for telemetry, that
    is interrupted or that still goes on has none. -/
def Engine.waitEnd (P : Platform) (e : Engine) (l : TimedLocals) (o : Obs) : Option ℤ :=
  match e.prog.steps[l.step]? with
  | none => none
  | some st =>
    let deadline := l.tl.next + st.offsetTicks
    let now := e.clock + o.dt 0
    if now < deadline then
      if (Clk.msToTicks P kPublishMs).tdiv 2 < deadline - now ∧ e.nextPublish < deadline then none
      else
        match e.waiter.waitUntil now deadline e.cfg.precision o.waits with
        | some w => if w.result = .reached then some w.now else none
        | none => none
    else some now

/-- `Engine.waitEnd` where the thread waits for the first step of an action. -/
def Thread.actionWait (P : Platform) (t : Thread) (o : Obs) : Option ℤ :=
  match t.loc with
  | .timedAct l => if l.step = 0 then t.e.waitEnd P l o else none
  | _ => none

/-- The wait for an action, with the delay after it, is over within 2 ms of the last look that was
    due. -/
def Prompt (P : Platform) (x : Thread × GateClock) : Act → Prop
  | .thread o =>
    ∀ r ∈ x.1.actionWait P o, r + o.dt 1 ≤ x.2.look + Clk.msToTicks P kGateCheckMs
  | _ => True

instance (P : Platform) (x : Thread × GateClock) : DecidablePred (Prompt P x)
  | .thread o => inferInstanceAs (Decidable (∀ r ∈ x.1.actionWait P o, _))
  | .push _ | .storeFlag | .setEvent | .storeArmed _ => isTrue trivial

/-! ### The last look -/

/-- The last look after more events. -/
def lastLook (last : Option (ℤ × Bool)) (events : List Event) : Option (ℤ × Bool) :=
  (looksOf events).foldl (fun _ look => some look) last

/-- The last look is an open one, at the reading that was due. -/
def LookedAt (c : GateClock) (last : Option (ℤ × Bool)) : Prop := last = some (c.look, true)

/-- What holds at each place of a timed run: the engine's own rate limit is the clock's, and the
    last look is an open one, once the run has looked. -/
def Ready (t : Thread) (c : GateClock) (last : Option (ℤ × Bool)) : Prop :=
  match t.loc with
  | .timed l => l.lastGate = c.boundary ∧ ((c.boundary = 0 ∧ l.step = 0) ∨ LookedAt c last)
  | .timedConfig l | .timedGate l =>
    l.lastGate = c.boundary ∧ (c.boundary = 0 ∨ LookedAt c last)
  | .timedLate l _ | .timedAct l => l.lastGate = c.boundary ∧ LookedAt c last
  | .timedPause l => l.lastGate = c.boundary
  | _ => True

/-! ### One step -/

/-- What a step of `e` does about looks: it makes at most one, at a reading of its own, and leaves
    the thread ready for `c`. -/
structure Watched (e : Engine) (last : Option (ℤ × Bool)) (c : GateClock)
    (x : Thread × List Event) : Prop where
  clock : e.clock ≤ x.1.e.clock
  looks : looksOf x.2 = [] ∨
    ∃ look, looksOf x.2 = [look] ∧ e.clock ≤ look.1 ∧ look.1 ≤ x.1.e.clock
  ready : Ready x.1 c (lastLook last x.2)

/-- A step that does not look leaves the last look as it was. -/
theorem lastLook_of_nil {last : Option (ℤ × Bool)} {events : List Event} (h : looksOf events = []) :
    lastLook last events = last := by
  rw [lastLook, h]
  rfl

/-- A step that looks once makes that look the last one. -/
theorem lastLook_of_look {last : Option (ℤ × Bool)} {events : List Event} {look : ℤ × Bool}
    (h : looksOf events = [look]) : lastLook last events = some look := by
  rw [lastLook, h]
  rfl

/-- A step with no look at all. -/
theorem Watched.of_nil {e : Engine} {last : Option (ℤ × Bool)} {c : GateClock}
    {x : Thread × List Event} (hclock : e.clock ≤ x.1.e.clock) (hlooks : looksOf x.2 = [])
    (hready : Ready x.1 c last) : Watched e last c x :=
  ⟨hclock, .inl hlooks, by rwa [lastLook_of_nil hlooks]⟩

/-- The one look of a step. -/
theorem Watched.of_look {e : Engine} {last : Option (ℤ × Bool)} {c : GateClock}
    {x : Thread × List Event} (look : ℤ × Bool) (hlooks : looksOf x.2 = [look])
    (hfrom : e.clock ≤ look.1) (hto : look.1 ≤ x.1.e.clock) (hready : Ready x.1 c (some look)) :
    Watched e last c x :=
  ⟨hfrom.trans hto, .inr ⟨look, hlooks, hfrom, hto⟩, by rwa [lastLook_of_look hlooks]⟩

namespace Engine

variable {P : Platform} {e : Engine} {last : Option (ℤ × Bool)} {c : GateClock}

/-- No command of a batch takes a reading. -/
theorem idleCommand_clock (b : Batch) (r retry : SendResult) (c : Command) :
    (e.idleCommand P b r retry c).1.clock = e.clock := by
  cases c with
  | triggerDown qpc => rw [idleCommand_triggerDown]
  | triggerUp qpc => rw [idleCommand_triggerUp]
  | setConfig cfg => simp [idleCommand]
  | _ => rfl

/-- Entering MAX looks at nothing. -/
theorem watched_enterMax {e' : Engine} (hclock : e.clock ≤ e'.clock) (q : ℤ) (o : Obs) :
    Watched e last c (e'.enterMax q o) := by
  obtain ⟨he, hev, hloc⟩ := e'.enterMax_spec q o
  refine Watched.of_nil (by rw [he]; exact hclock) (by rw [hev]; rfl) ?_
  unfold Ready
  rcases hloc with hloc | ⟨l, hloc⟩ <;> simp only [hloc]

/-- A run starts with nothing looked at: `lastGate` is 0, as the clock of looks is. -/
theorem watched_doRun {e' : Engine} (hclock : e.clock ≤ e'.clock) (lim : RunLimits) (q : ℤ)
    (o : Obs) : Watched e last {} (e'.doRun P lim q o) := by
  unfold doRun
  split
  · exact Watched.of_nil hclock rfl trivial
  · dsimp only
    have hbegun : e.clock ≤ (((e'.tick (o.dt 1)).beginRun P lim (e'.tick (o.dt 1)).clock).publish P
        (e'.tick (o.dt 1)).clock true).clock := by
      simp
      omega
    split
    · have hmax : Watched e last {} (Engine.enterMax _ q o) := watched_enterMax hbegun q o
      have hev := (Engine.enterMax_spec
        (((e'.tick (o.dt 1)).beginRun P lim (e'.tick (o.dt 1)).clock).publish P
          (e'.tick (o.dt 1)).clock true) q o).2.1
      refine Watched.of_nil hmax.clock (by rw [looksOf_cons, hev]; rfl) ?_
      have hready := hmax.ready
      rwa [hev] at hready
    · refine Watched.of_nil (hbegun.trans ?_) rfl ⟨rfl, .inl ⟨rfl, rfl⟩⟩
      show _ ≤ (_ : ℤ) + o.dt 2
      omega

/-- A batch of commands looks at nothing, and a run it starts has looked at nothing. -/
theorem watched_stepCommands (cmds : List Command) (b : Batch) (o : Obs) :
    Watched e last {} (e.stepCommands P cmds b o) := by
  cases cmds with
  | cons c cs =>
    have hclock := e.idleCommand_clock (P := P) b o.release o.retry c
    refine Watched.of_nil (le_of_eq hclock.symm) ?_ trivial
    cases c <;> simp [stepCommands, Event.look?]
  | nil =>
    have hpub : e.clock ≤ ((e.tick (o.dt 0)).publish P (e.tick (o.dt 0)).clock true).clock := by
      simp
    simp only [stepCommands]
    split
    · exact Watched.of_nil hpub (by simp) trivial
    · split
      · exact watched_doRun hpub b.lim b.trigQ o
      · exact Watched.of_nil hpub rfl trivial

/-- The end of a run looks at nothing. -/
theorem watched_stepEnding (o : Obs) : Watched e last c (e.stepEnding P o) := by
  refine Watched.of_nil ?_ (by simp [stepEnding, Event.look?]) trivial
  simp [stepEnding, backToIdle, endRun]

/-- The poll of the command flag looks at no gate and starts no action. -/
theorem poll_looks : looksOf e.poll.2.1 = [] ∧ firesOf e.poll.2.1 = [] := by
  unfold poll
  split <;> simp

/-- Polling at the head of a slot looks at nothing. -/
theorem watched_stepTimed {l : TimedLocals} (h : Ready ⟨e, .timed l⟩ c last) :
    Watched e last c (e.stepTimed l) := by
  have hclock : e.clock ≤ e.poll.1.clock := by simp
  have hlooks := (poll_looks (e := e)).1
  obtain ⟨hgate, hlast⟩ := h
  simp only [stepTimed]
  split
  · exact Watched.of_nil hclock hlooks trivial
  · split
    · exact Watched.of_nil hclock hlooks ⟨hgate, hlast.imp_left And.left⟩
    · next hstep =>
      -- In the middle of an action the run has looked.
      have hlooked := hlast.resolve_left fun hl => hstep hl.2
      exact Watched.of_nil hclock hlooks ⟨hgate, hlooked⟩

/-- A configuration taken over in a slot leaves the rate limit of the looks. -/
theorem watched_stepTimedConfig {l : TimedLocals} (h : Ready ⟨e, .timedConfig l⟩ c last)
    (o : Obs) : Watched e last c (e.stepTimedConfig P l o) := by
  unfold stepTimedConfig
  split
  · exact Watched.of_nil (le_refl _) rfl h
  · dsimp only
    split
    · exact watched_enterMax (by simp) 0 o
    · split
      · exact Watched.of_nil (by simp) rfl h
      · exact Watched.of_nil (by simp) rfl h

/-- The boundary's look is made exactly when it is due: `lastGate` is the boundary the clock of
    looks has kept, and the run's first boundary is never too early. -/
theorem watched_stepTimedGate {l : TimedLocals} (h : Ready ⟨e, .timedGate l⟩ c last)
    (hlate : Clk.msToTicks P kGateCheckMs ≤ e.clock) (o : Obs) :
    Watched e last (c.advance P ⟨e, .timedGate l⟩ o) (e.stepTimedGate P l o) := by
  obtain ⟨hgate, hlast⟩ := h
  unfold stepTimedGate
  split
  · exact Watched.of_nil (le_refl _) rfl trivial
  · simp only [tick_clock, hgate, GateClock.advance]
    split
    · split
      · refine Watched.of_look (e.clock + o.dt 0, true) rfl ?_ (le_refl _) ⟨rfl, rfl⟩
        simp
      · next why _ =>
        refine Watched.of_look (e.clock + o.dt 0, false) ?_ (by simp) ?_ rfl
        · simp [enterPause, Event.look?]
        · simp
    · next hrecent =>
      have hlooked : LookedAt c last := hlast.resolve_left fun hzero => hrecent (by omega)
      exact Watched.of_nil (by simp) rfl ⟨hgate, hlooked⟩

/-- A round of a pause looks, unless the run is stopped. -/
theorem watched_stepPause (o : Obs) {c' : GateClock} {resume stay : Engine → Thread × List Event}
    (hresume : e.checkGate o.gate = none → ∀ e' : Engine, e'.clock ≤ (resume e').1.e.clock ∧
      looksOf (resume e').2 = [] ∧ Ready (resume e').1 c' (some (e.clock + o.dt 0, true)))
    (hstay : e.checkGate o.gate ≠ none → ∀ e' : Engine, e'.clock ≤ (stay e').1.e.clock ∧
      looksOf (stay e').2 = [] ∧ ∀ look, Ready (stay e').1 c' look) :
    Watched e last c' (e.stepPause o resume stay) := by
  have hclock : (e.woken o).poll.1.clock = e.clock + o.dt 0 := by simp [woken]
  have hlooks := (poll_looks (e := e.woken o)).1
  rcases e.stepPause_cases o resume stay with
    ⟨-, e', hp, heq⟩ | ⟨-, e', go, isOpen, hp, hor, hopen, heq⟩
  · rw [heq]
    refine Watched.of_nil ?_ hlooks trivial
    show e.clock ≤ e'.clock
    rw [hp.clock, hclock]
    omega
  · have hat : e'.clock = e.clock + o.dt 0 := hp.clock.trans hclock
    have hgo : e'.clock ≤ (go e').1.e.clock ∧ looksOf (go e').2 = [] ∧
        Ready (go e').1 c' (some (e'.clock, isOpen)) := by
      rw [hat]
      rcases hor with ⟨rfl, rfl⟩ | ⟨rfl, rfl⟩
      · rw [← hat]
        have hgate := hresume (hopen.mp rfl) e'
        rwa [← hat] at hgate
      · have hgate := hstay (fun hnone => absurd (hopen.mpr hnone) (by simp)) e'
        rw [hat] at hgate
        exact ⟨hgate.1, hgate.2.1, hgate.2.2 _⟩
    rw [heq]
    refine Watched.of_look (e'.clock, isOpen) ?_ ?_ hgo.1 hgo.2.2
    · simp [hlooks, hgo.2.1, Event.look?]
    · show e.clock ≤ e'.clock
      omega

/-- Skipping late slots looks at nothing. -/
theorem watched_stepTimedLate {l : TimedLocals} {now : ℤ}
    (h : Ready ⟨e, .timedLate l now⟩ c last) : Watched e last c (e.stepTimedLate P l now) := by
  simp only [stepTimedLate]
  split
  · exact Watched.of_nil (le_refl _) rfl trivial
  · exact Watched.of_nil (le_refl _) rfl h

/-- The wait for a step and the step itself look at nothing. -/
theorem watched_stepTimedAct {l : TimedLocals} (h : Ready ⟨e, .timedAct l⟩ c last) (o : Obs) :
    Watched e last c (e.stepTimedAct P l o) := by
  obtain ⟨hgate, hlooked⟩ := h
  rcases e.stepTimedAct_cases P l o with ⟨-, heq⟩ | ⟨st, -, heq | ⟨e', hw, heq⟩ | ⟨e', hw, -, heq⟩⟩
  · rw [heq]
    exact Watched.of_nil (le_refl _) rfl trivial
  · rw [heq]
    exact Watched.of_nil (le_refl _) rfl ⟨hgate, hlooked⟩
  · rw [heq]
    exact Watched.of_nil hw.clock rfl ⟨hgate, .inr hlooked⟩
  · rw [heq]
    refine Watched.of_nil ?_ ?_ ?_
    · have hwait := hw.clock
      rw [e'.fireStep_clock P l st o]
      omega
    · rw [e'.fireStep_events P l st o]
      split <;> simp [Event.look?]
    · unfold Ready
      rw [e'.fireStep_loc P l st o]
      exact ⟨hgate, .inr hlooked⟩

/-- The boundary of MAX looks at most once. -/
theorem watched_stepMaxGate (l : MaxLocals) (o : Obs) : Watched e last c (e.stepMaxGate P l o) := by
  unfold stepMaxGate
  split
  · exact Watched.of_nil (le_refl _) rfl trivial
  · dsimp only
    split
    · exact Watched.of_nil (by simp) rfl trivial
    · split
      · split
        · exact Watched.of_look (e.clock + o.dt 0, true) rfl (by simp) (le_refl _)
            trivial
        · refine Watched.of_look (e.clock + o.dt 0, false) ?_ (by simp) ?_ trivial
          · simp [enterPause, Event.look?]
          · simp
      · exact Watched.of_nil (by simp) rfl trivial

/-- A round of a pause in a slot: an open gate is the look to go by from then on. -/
theorem watched_stepTimedPause {l : TimedLocals} (h : Ready ⟨e, .timedPause l⟩ c last) (o : Obs) :
    Watched e last (c.advance P ⟨e, .timedPause l⟩ o) (e.stepTimedPause P l o) := by
  have hgate : l.lastGate = c.boundary := h
  refine watched_stepPause o (fun hopen e' => ⟨by simp, rfl, ?_⟩) (fun _ e' => ⟨by simp, rfl, ?_⟩)
  · -- The open look of the round is the one the clock has moved to.
    simp only [GateClock.advance, hopen, if_true]
    exact ⟨hgate, .inr rfl⟩
  · intro look
    simp only [GateClock.advance]
    split
    · exact hgate
    · exact hgate

/-- Polling in MAX looks at nothing. -/
theorem watched_stepMax (l : MaxLocals) : Watched e last c (e.stepMax l) := by
  have hclock : e.clock ≤ e.poll.1.clock := by simp
  have hlooks := (poll_looks (e := e)).1
  simp only [stepMax]
  split
  · exact Watched.of_nil hclock hlooks trivial
  · exact Watched.of_nil hclock hlooks trivial

/-- A configuration taken over in MAX looks at nothing. -/
theorem watched_stepMaxConfig (l : MaxLocals) : Watched e last c (e.stepMaxConfig P l) := by
  unfold stepMaxConfig
  split
  · exact Watched.of_nil (le_refl _) rfl trivial
  · dsimp only
    split
    · exact Watched.of_nil (by simp) rfl trivial
    · exact Watched.of_nil (by simp) rfl trivial

/-- A round of a pause in MAX looks at most once. -/
theorem watched_stepMaxPause (l : MaxLocals) (now : ℤ) (o : Obs) :
    Watched e last c (e.stepMaxPause P l now o) :=
  watched_stepPause o (fun _ _ => ⟨le_refl _, rfl, trivial⟩)
    (fun _ _ => ⟨by simp, rfl, fun _ => trivial⟩)

/-- A send of MAX looks at nothing. -/
theorem watched_stepMaxSend (l : MaxLocals) (now : ℤ) (o : Obs) :
    Watched e last c (e.stepMaxSend P l now o) := by
  unfold stepMaxSend
  split
  · exact Watched.of_nil (by simp) rfl trivial
  · refine Watched.of_nil ?_ ?_ ?_
    · rw [e.fireMax_clock P l o]
      omega
    · rw [e.fireMax_events P l o]
      simp
    · unfold Ready
      rw [e.fireMax_loc P l o]
      trivial

end Engine

/-- **Every step** looks at most once, exactly when a look is due, and leaves the thread ready. -/
theorem Ready.step {P : Platform} {t : Thread} {c : GateClock} {last : Option (ℤ × Bool)}
    (h : Ready t c last) (hlate : Clk.msToTicks P kGateCheckMs ≤ t.e.clock) (o : Obs) :
    Watched t.e last (c.advance P t o) (t.step P o) := by
  obtain ⟨e, loc⟩ := t
  cases loc with
  | idle =>
    simp only [Thread.step]
    split <;> exact Watched.of_nil (le_refl _) rfl trivial
  | commands cmds b => exact Engine.watched_stepCommands cmds b o
  | timed l => exact Engine.watched_stepTimed h
  | timedConfig l => exact Engine.watched_stepTimedConfig h o
  | timedGate l => exact Engine.watched_stepTimedGate h hlate o
  | timedPause l => exact Engine.watched_stepTimedPause h o
  | timedLate l now => exact Engine.watched_stepTimedLate h
  | timedAct l => exact Engine.watched_stepTimedAct h o
  | max l => exact Engine.watched_stepMax l
  | maxConfig l => exact Engine.watched_stepMaxConfig l
  | maxGate l => exact Engine.watched_stepMaxGate l o
  | maxPause l now => exact Engine.watched_stepMaxPause l now o
  | maxSend l now => exact Engine.watched_stepMaxSend l now o
  | ending => exact Engine.watched_stepEnding o
  | done => exact Watched.of_nil (le_refl _) rfl trivial

/-! ### When actions start -/

/-- The first step of an action starts it where its wait is over, after the delay. -/
theorem Engine.stepTimedAct_fires (P : Platform) (e : Engine) (l : TimedLocals) (o : Obs) :
    firesOf (e.stepTimedAct P l o).2 =
      if l.step = 0 then ((e.waitEnd P l o).map fun r : ℤ => r + o.dt 1).toList else [] := by
  -- A step that is made starts its action at the reading after the wait.
  have hfire : ∀ (e' : Engine) (st : ActionStep), firesOf (e'.fireStep P l st o).2 =
      if l.step = 0 then [e'.clock + o.dt 1] else [] := by
    intro e' st
    rw [e'.fireStep_events P l st o]
    split <;> simp [Event.fire?]
  unfold stepTimedAct waitEnd
  cases e.prog.steps[l.step]? with
  | none => simp
  | some st =>
    dsimp only
    by_cases hearly : e.clock + o.dt 0 < l.tl.next + st.offsetTicks
    · rw [tick_clock, if_pos hearly, if_pos hearly]
      by_cases hlong : (Clk.msToTicks P kPublishMs).tdiv 2 <
          l.tl.next + st.offsetTicks - (e.clock + o.dt 0) ∧
            e.nextPublish < l.tl.next + st.offsetTicks
      · -- A wait that is chunked for telemetry starts over.
        rw [if_pos hlong, if_pos hlong]
        cases e.waiter.waitUntil (e.clock + o.dt 0) e.nextPublish .eco o.waits <;> simp
      · rw [if_neg hlong, if_neg hlong]
        cases e.waiter.waitUntil (e.clock + o.dt 0) (l.tl.next + st.offsetTicks) e.cfg.precision
          o.waits with
        | none => simp
        | some w =>
          dsimp only
          cases w.result with
          | interrupted => simp
          | reached => simp [hfire]
    · rw [tick_clock, if_neg hearly, if_neg hearly, hfire]
      simp

/-- **When actions start**: where their wait is over, after the delay. -/
theorem Thread.step_fires (P : Platform) (t : Thread) (o : Obs) :
    firesOf (t.step P o).2 = ((t.actionWait P o).map fun r : ℤ => r + o.dt 1).toList := by
  obtain ⟨e, loc⟩ := t
  cases loc with
  | timedAct l =>
    simp only [Thread.step, actionWait, e.stepTimedAct_fires P l o]
    split <;> simp
  | _ =>
    refine List.filterMap_eq_nil_iff.mpr fun ev hev => ?_
    have hplace := Thread.step_emits P _ o ev hev
    cases ev <;> simp_all [Loc.emits, Event.fire?]

/-- An action starts before anything else in its step. -/
theorem Thread.starts_first (P : Platform) (t : Thread) (o : Obs) :
    firesOf (t.step P o).2 = [] ∨
      ∃ f k batch rest, (t.step P o).2 = .fired f k batch :: rest ∧ firesOf rest = [] := by
  obtain ⟨e, loc⟩ := t
  cases loc with
  | timedAct l =>
    rcases e.stepTimedAct_cases P l o with ⟨-, heq⟩ | ⟨st, -, heq | ⟨e', -, heq⟩ | ⟨e', -, -, heq⟩⟩
    · simp [Thread.step, heq]
    · simp [Thread.step, heq]
    · simp [Thread.step, heq]
    · simp only [Thread.step, heq, e'.fireStep_events P l st o]
      split
      · exact .inr ⟨_, _, _, _, rfl, by simp⟩
      · exact .inl (by simp)
  | _ =>
    rw [Thread.step_fires]
    exact .inl rfl

/-! ### Whole runs -/

/-- The thread, the clock of its looks and the looks of the trace so far. -/
structure Looked (P : Platform) (x : Thread × GateClock) (last : Option (ℤ × Bool))
    (past : List Event) : Prop where
  ready : Ready x.1 x.2 last
  late : Clk.msToTicks P kGateCheckMs ≤ x.1.e.clock
  /-- The last look is one of the trace, -/
  seen : ∀ look, last = some look → look ∈ looksOf past ∧ look.1 ≤ x.1.e.clock
  /-- and no look of the trace is newer. -/
  newest : ∀ look ∈ looksOf past, ∃ newest, last = some newest ∧ look.1 ≤ newest.1

variable {P : Platform} {x : Thread × GateClock} {last : Option (ℤ × Bool)} {past : List Event}

/-- One act of the monitored engine keeps the last look the last one of the trace. -/
theorem Looked.step (h : Looked P x last past) (act : Act) :
    Looked P ((gateMachine P).next x act) (lastLook last ((gateMachine P).out x act))
      (past ++ (gateMachine P).out x act) := by
  obtain ⟨t, c⟩ := x
  cases act with
  | thread o =>
    show Looked P ((t.step P o).1, c.advance P t o) (lastLook last (t.step P o).2)
      (past ++ (t.step P o).2)
    obtain ⟨hclock, hlooks, hready⟩ := Ready.step h.ready h.late o
    refine ⟨hready, le_trans h.late hclock, ?_, ?_⟩
    · intro look hlook
      -- The last look is the new one if there is one, and the old one otherwise.
      rcases hlooks with hnone | ⟨new, hone, -, hto⟩
      · rw [lastLook_of_nil hnone] at hlook
        have hseen := h.seen look hlook
        rw [looksOf_append]
        exact ⟨List.mem_append_left _ hseen.1, le_trans hseen.2 hclock⟩
      · rw [lastLook_of_look hone] at hlook
        obtain rfl : new = look := Option.some.inj hlook
        rw [looksOf_append, hone]
        exact ⟨by simp, hto⟩
    · intro look hlook
      rw [looksOf_append] at hlook
      rcases hlooks with hnone | ⟨new, hone, hfrom, -⟩
      · rw [hnone, List.append_nil] at hlook
        rw [lastLook_of_nil hnone]
        exact h.newest look hlook
      · refine ⟨new, lastLook_of_look hone, ?_⟩
        rw [hone] at hlook
        rcases List.mem_append.mp hlook with hold | hnew
        · obtain ⟨newest, hsome, hle⟩ := h.newest look hold
          exact le_trans (le_trans hle (h.seen newest hsome).2) hfrom
        · rw [List.mem_singleton.mp hnew]
  | push | storeFlag | setEvent | storeArmed =>
    -- The other threads reach neither the place nor the clock.
    show Looked P (_, c) last (past ++ [])
    rw [List.append_nil]
    exact ⟨h.ready, h.late, h.seen, h.newest⟩

/-- A step keeps its actions covered exactly when it is prompt: the last look is an open one, the
    newest, and made when the last one was due. -/
theorem Looked.covered_iff (h : Looked P x last past) (act : Act) :
    Covered (Clk.msToTicks P kGateCheckMs) past ((gateMachine P).out x act) ↔ Prompt P x act := by
  obtain ⟨t, c⟩ := x
  cases act with
  | thread o =>
    show Covered _ past (t.step P o).2 ↔ ∀ r ∈ t.actionWait P o, r + o.dt 1 ≤ c.look + _
    have hfires := Thread.step_fires P t o
    cases hwait : t.actionWait P o with
    | none =>
      have hnone : firesOf (t.step P o).2 = [] := by rw [hfires, hwait]; rfl
      exact iff_of_true (covered_of_firesOf_nil hnone) (by simp)
    | some r =>
      rw [hwait] at hfires
      rcases Thread.starts_first P t o with hnone | ⟨f, k, batch, rest, hev, hrest⟩
      · rw [hnone] at hfires
        exact absurd hfires (by simp)
      obtain rfl : f = r + o.dt 1 := by
        rw [hev, firesOf_cons, hrest] at hfires
        simpa [Event.fire?] using hfires
      -- Where an action starts, the last look is an open one.
      have hlooked : last = some (c.look, true) := by
        obtain ⟨e, loc⟩ := t
        cases loc with
        | timedAct l => exact h.ready.2
        | _ => exact absurd hwait (by simp [Thread.actionWait])
      rw [hev]
      constructor
      · rintro ⟨hcov, -⟩ r' hr'
        obtain rfl : r = r' := Option.some.inj hr'
        -- Some look is recent enough, so the newest is.
        obtain ⟨look, hlook, -, hle⟩ := hcov (r + o.dt 1) (by simp [Event.fire?])
        obtain ⟨newest, hsome, hnew⟩ := h.newest look hlook
        rw [hlooked] at hsome
        obtain rfl : (c.look, true) = newest := Option.some.inj hsome
        dsimp only at hnew
        omega
      · intro hprompt
        refine ⟨fun f' hf' => ?_, covered_of_firesOf_nil hrest⟩
        obtain rfl : f' = r + o.dt 1 := by simpa [Event.fire?] using hf'
        have hle := hprompt r rfl
        refine ⟨(c.look, true), (h.seen _ hlooked).1, rfl, ?_⟩
        dsimp only
        omega
  | push | storeFlag | setEvent | storeArmed => exact iff_of_true trivial trivial

/-- The same along a run, from any state the last look describes. -/
theorem Looked.covered_trace (h : Looked P x last past) (acts : List Act) :
    Covered (Clk.msToTicks P kGateCheckMs) past ((gateMachine P).trace x acts) ↔
      (gateMachine P).Meets (Prompt P) x acts := by
  induction acts generalizing x last past with
  | nil => simp [Covered]
  | cons act acts ih =>
    rw [Machine.trace_cons, covered_append, Machine.meets_cons, h.covered_iff act]
    exact and_congr_right fun _ => ih (h.step act)

/-- **The actions of a run are covered exactly when the wait for each is over within 2 ms of the
    look that was last due.**  The thread has calibrated its timer for 20 ms before its first wait,
    so the counter is past the 2 ms. -/
theorem covered_iff_prompt (waiter : PreciseWaiter) (clock : ℤ) (acts : List Act)
    (hclock : Clk.msToTicks P kGateCheckMs ≤ clock) :
    Covered (Clk.msToTicks P kGateCheckMs) []
        ((engineMachine P).trace (Thread.start P waiter clock) acts) ↔
      (gateMachine P).Meets (Prompt P) (Thread.start P waiter clock, {}) acts := by
  have hstart : Looked P (Thread.start P waiter clock, {}) none [] := by
    refine ⟨trivial, ?_, fun look h => absurd h (by simp), fun look h => absurd h (by simp)⟩
    simpa using hclock
  have hiff := hstart.covered_trace acts
  simp only [gateMachine, Machine.watch_trace] at hiff
  exact hiff

/-- One click with its look: armed, pressed, sent at once. -/
def promptClick : List Act := Act.arm true ++ Act.post (.triggerDown 5) ++ Act.steps 9

/-- The click of a run that starts at once is covered. -/
theorem promptClick_covered :
    Clk.msToTicks .tenMegahertz kGateCheckMs ≤ 1000000000 ∧
      Covered (Clk.msToTicks .tenMegahertz kGateCheckMs) []
        ((engineMachine .tenMegahertz).trace (Thread.start .tenMegahertz {} 1000000000)
          promptClick) :=
  ⟨by decide +kernel,
    (covered_iff_prompt {} 1000000000 promptClick (by decide +kernel)).mpr (by decide +kernel)⟩

/-- Two clicks at 20 per second.  The gate is looked at before the first one; it closes while
    the engine waits 50 ms for the second. -/
def slowClicks : List Act :=
  promptClick ++ Act.steps 4 ++
    [.thread
      { gate := { gateOpen := some false }
        waits := [{ slept := 499000 }, { spins := [(false, 1000)] }] }]

/-- At 20 clicks per second the second click goes out 50 ms after the last look. -/
theorem slow_clicks_leak :
    ¬ Covered (Clk.msToTicks .tenMegahertz kGateCheckMs) []
        ((engineMachine .tenMegahertz).trace (Thread.start .tenMegahertz {} 1000000000)
          slowClicks) := by
  intro hcov
  have hprompt := (covered_iff_prompt {} 1000000000 slowClicks (by decide +kernel)).mp hcov
  exact absurd hprompt (by decide +kernel)

end InfinityClicker
