import InfinityClicker.Scheduler.EngineSteps
import InfinityClicker.Scheduler.NothingHeld

namespace InfinityClicker

open Presses Machines

/-!
# Emergency stop is final

A monitor beside the engine is `calm` from the consumption of an `Emergency` on, until an
`Arm(true)` or a `StartRun` after it is consumed or `arm(true)` stores its flag.

* `Calm` — where the thread can be while calm: nowhere in a run's loops, and disarmed;
* `Calm.step` — every step keeps it, as long as the releases of the stop have room;
* `emergency_final` — what follows for every run.

The room is the one way in which the code misses: `releaseAll` releases 64 keys and buttons and
no more (`emergency_leaves_held`).
-/

/-! ### The monitor -/

/-- Whether the engine is calm after consuming a command. -/
def calmAfter (calm : Bool) : Command → Bool
  | .emergency _ => true
  | .arm true => false
  | .startRun _ _ => false
  | _ => calm

/-- Whether the engine is calm after a move of the thread or of the others. -/
def watchCalm (calm : Bool) (act : Act) (out : List Event) : Bool :=
  match act with
  | .storeArmed true => false
  | _ => (commandsOf out).foldl calmAfter calm

/-- The engine with the monitor. -/
def calmMachine (P : Platform) : Machine (Thread × Bool) Act Event :=
  (engineMachine P).watch fun _ => watchCalm

/-- The next step of the thread makes the releases of a stop. -/
def releasesForStop (x : Thread × Bool) : Bool :=
  match x.1.loc with
  | .commands (.emergency _ :: _) _ => true
  | .ending => x.2
  | _ => false

/-- The releases of a stop have room in `releaseAll`'s buffer. -/
def HasRoom (x : Thread × Bool) : Act → Prop
  | .thread _ => releasesForStop x = true → x.1.e.sender.heldCount ≤ InputSender.releaseRoom
  | _ => True

instance (x : Thread × Bool) : DecidablePred (HasRoom x)
  | .thread _ => inferInstanceAs (Decidable (_ → _))
  | .push _ | .storeFlag | .setEvent | .storeArmed _ => isTrue trivial

/-- The releases of a step are accepted at once. -/
def ReleasesAccepted : Act → Prop
  | .thread o => o.release.limit = none
  | _ => True

instance : DecidablePred ReleasesAccepted
  | .thread o => inferInstanceAs (Decidable (o.release.limit = none))
  | .push _ | .storeFlag | .setEvent | .storeArmed _ => isTrue trivial

/-- Where a calm engine can be. -/
structure Calm (x : Thread × Bool) : Prop where
  keyZero : x.1.e.sender.heldKeys 0 = false
  armed : x.2 = true → x.1.e.armed = false
  loc : x.2 = true →
    match x.1.loc with
    | .idle => x.1.e.state = .disarmed ∧ x.1.e.sender.held = nothing
    | .commands _ b =>
      b.start = false ∧ x.1.e.state = .disarmed ∧ x.1.e.sender.held = nothing
    | .ending | .done => True
    | _ => False

namespace Engine

variable (P : Platform) (e : Engine)

/-! ### An emergency among the commands of a run -/

theorem runCommand_calm (c : Command) {calm : Bool}
    (h : calm = true → e.run.stop = true ∧ e.armed = false) (hc : calmAfter calm c = true) :
    (e.runCommand c).run.stop = true ∧ (e.runCommand c).armed = false := by
  rw [runCommand_armed]
  cases c with
  | emergency qpc => exact ⟨rfl, rfl⟩
  | arm on =>
    cases on with
    | true => exact absurd hc (by simp [calmAfter])
    | false => exact ⟨rfl, rfl⟩
  | startRun limits qpc => exact absurd hc (by simp [calmAfter])
  | _ => exact ⟨e.runCommand_stop _ (h hc).1, (h hc).2⟩

/-- After a batch that leaves the engine calm the run must stop. -/
theorem runCommands_calm (cs : List Command) {calm : Bool}
    (h : calm = true → e.run.stop = true ∧ e.armed = false)
    (hc : (handled cs).foldl calmAfter calm = true) :
    (e.runCommands cs).run.stop = true ∧ (e.runCommands cs).armed = false := by
  fun_induction runCommands e cs generalizing calm with
  | case1 e => exact h hc
  | case2 e => exact ⟨rfl, (h hc).2⟩
  | case3 e c cs hquit ih =>
    rw [handled_cons hquit, List.foldl_cons] at hc
    exact ih (fun hcalm => e.runCommand_calm c h hcalm) hc

theorem poll_calm (hc : (commandsOf e.poll.2.1).foldl calmAfter false = true) :
    e.poll.2.2 = true ∧ e.poll.1.armed = false := by
  unfold poll at hc ⊢
  split at hc
  · next hflag =>
    rw [commandsOf_consumed] at hc
    rw [if_pos hflag]
    exact e.drained.runCommands_calm e.queue (fun h => absurd h (by simp)) hc
  · exact absurd hc (by simp)

/-! ### An emergency in the idle loop -/

/-- One command of the idle loop, from a state that is disarmed with nothing held if calm. -/
theorem idleCommand_calm (b : Batch) (o : Obs) (c : Command) {calm : Bool}
    (hzero : e.sender.heldKeys 0 = false)
    (hroom : ∀ q, c = .emergency q → e.sender.heldCount ≤ InputSender.releaseRoom)
    (h : calm = true → e.armed = false ∧ b.start = false ∧ e.state = .disarmed ∧
      e.sender.held = nothing) (hc : calmAfter calm c = true) :
    (e.idleCommand P b o.release o.retry c).1.armed = false ∧
      (e.idleCommand P b o.release o.retry c).2.start = false ∧
      (e.idleCommand P b o.release o.retry c).1.state = .disarmed ∧
      (e.idleCommand P b o.release o.retry c).1.sender.held = nothing := by
  cases c with
  | emergency qpc =>
    exact ⟨rfl, rfl, rfl,
      InputSender.releaseAll_nothing (hroom qpc rfl) hzero o.release o.retry⟩
  | arm on =>
    cases on with
    | true => exact absurd hc (by simp [calmAfter])
    | false => exact ⟨rfl, (h hc).2.1, rfl, (h hc).2.2.2⟩
  | startRun limits qpc => exact absurd hc (by simp [calmAfter])
  | triggerDown qpc =>
    -- Disarmed, a press is not looked at.
    obtain ⟨harmed, hrest⟩ := h hc
    simp only [idleCommand, harmed, Bool.false_eq_true, if_false]
    exact ⟨trivial, hrest⟩
  | triggerUp qpc =>
    obtain ⟨harmed, hstart, hrest⟩ := h hc
    simp only [idleCommand, hstart, Bool.false_eq_true, false_and, if_false]
    exact ⟨harmed, trivial, hrest⟩
  | stopRun => exact ⟨(h hc).1, rfl, (h hc).2.2⟩
  | setConfig cfg => simpa [idleCommand] using h hc
  | resetTotals | quit => exact h hc

end Engine

/-! ### Every step -/

variable (P : Platform)

theorem Calm.stepCommands {e : Engine} {cmds : List Command} {b : Engine.Batch} {calm : Bool}
    (h : Calm (⟨e, .commands cmds b⟩, calm)) {o : Obs}
    (hroom : HasRoom (⟨e, .commands cmds b⟩, calm) (.thread o)) :
    Calm ((e.stepCommands P cmds b o).1,
      (commandsOf (e.stepCommands P cmds b o).2).foldl calmAfter calm) := by
  have hzero := (e.stepCommands_sender P cmds b o).keyZero h.keyZero
  cases cmds with
  | cons c cs =>
    obtain ⟨hstep, hcommands, -⟩ := e.stepCommands_cons P c cs b o
    have hone := fun hc : calmAfter calm c = true =>
      e.idleCommand_calm P b o c h.keyZero
        (fun q hq => by subst hq; exact hroom rfl)
        (fun hcalm => ⟨h.armed hcalm, h.loc hcalm⟩) hc
    rw [hcommands]
    refine ⟨hzero, fun hc => ?_, fun hc => ?_⟩
    · rw [hstep]
      exact (hone hc).1
    · rw [hstep]
      exact (hone hc).2
  | nil =>
    obtain ⟨harmed, hcommands, hways⟩ := e.stepCommands_nil P b o
    rw [hcommands]
    refine ⟨hzero, fun hc => harmed.trans (h.armed hc), fun hc => ?_⟩
    obtain ⟨hstart, hstate, hheld⟩ := h.loc hc
    rcases hways with ⟨-, hloc, -⟩ | ⟨-, -, hloc, hs, hsender, -⟩ | ⟨-, hgo, -⟩
    · rw [hloc]
      trivial
    · rw [hloc]
      exact ⟨hs.trans hstate, by rw [hsender]; exact hheld⟩
    · rw [hstart] at hgo
      exact absurd hgo (by simp)

/-- A step inside a run: the engine is not calm before it, and becomes so by a poll alone. -/
theorem Calm.stepRun {t : Thread} {calm : Bool} (h : Calm (t, calm)) (hrun : t.loc.inRun = true)
    (o : Obs) :
    Calm ((t.step P o).1, (commandsOf (t.step P o).2).foldl calmAfter calm) := by
  have hzero := (t.step_sender P o).keyZero h.keyZero
  have hnot : calm = false := by
    by_contra hcalm
    have hloc := h.loc (by simpa using hcalm)
    obtain ⟨e, loc⟩ := t
    cases loc <;> simp_all [Loc.inRun]
  subst hnot
  cases hpoll : t.loc.polls with
  | true =>
    obtain ⟨e', -, hp⟩ := t.step_poll P hpoll o
    rw [hp.commands]
    refine ⟨hzero, fun hc => ?_, fun hc => ?_⟩
    · exact hp.armed.trans (e'.poll_calm hc).2
    · -- The poll stopped the run: what is held goes up at its end.
      rw [hp.stop (e'.poll_calm hc).1]
      trivial
  | false =>
    rw [t.quiet_commands P hrun hpoll o]
    exact ⟨hzero, fun hc => absurd hc (by simp), fun hc => absurd hc (by simp)⟩

/-- The end of a run, where the room of `releaseAll` matters. -/
theorem Calm.stepEnding {e : Engine} {calm : Bool} (h : Calm (⟨e, .ending⟩, calm)) {o : Obs}
    (hroom : HasRoom (⟨e, .ending⟩, calm) (.thread o)) :
    Calm ((e.stepEnding P o).1, (commandsOf (e.stepEnding P o).2).foldl calmAfter calm) := by
  obtain ⟨hmove, harmed, hstate, hloc, hsender, hcommands, -⟩ :=
    Engine.stepEnding_spec (P := P) (e := e) o
  rw [hcommands]
  refine ⟨hmove.keyZero h.keyZero, fun hc => harmed.trans (h.armed hc), fun hc => ?_⟩
  rw [hloc]
  refine ⟨?_, ?_⟩
  · have hoff : e.armed = false := h.armed hc
    rw [hstate, hoff]
    rfl
  · rw [hsender]
    exact InputSender.releaseAll_nothing (hroom hc) h.keyZero o.release o.retry

/-- **Every step keeps a calm engine where it can be.** -/
theorem Calm.step {x : Thread × Bool} (h : Calm x) {act : Act} (hroom : HasRoom x act) :
    Calm ((calmMachine P).next x act) := by
  obtain ⟨⟨e, loc⟩, calm⟩ := x
  cases act with
  | push c => exact ⟨h.keyZero, h.armed, h.loc⟩
  | storeFlag => exact ⟨h.keyZero, h.armed, h.loc⟩
  | setEvent => exact ⟨h.keyZero, h.armed, h.loc⟩
  | storeArmed on =>
    cases on with
    | true => exact ⟨h.keyZero, fun hc => absurd hc (by simp [calmMachine, watchCalm]),
        fun hc => absurd hc (by simp [calmMachine, watchCalm])⟩
    | false => exact ⟨h.keyZero, fun _ => rfl, h.loc⟩
  | thread o =>
    show Calm ((Thread.step P ⟨e, loc⟩ o).1,
      (commandsOf (Thread.step P ⟨e, loc⟩ o).2).foldl calmAfter calm)
    by_cases hrun : loc.inRun = true
    · exact h.stepRun P hrun o
    · cases loc with
      | idle =>
        simp only [Thread.step]
        split
        · exact ⟨h.keyZero, h.armed, fun hc => ⟨rfl, h.loc hc⟩⟩
        · exact h
      | commands cmds b => exact h.stepCommands P hroom
      | ending => exact h.stepEnding P hroom
      | done => exact h
      | _ => exact absurd rfl hrun

/-- A calm engine sends no action and starts no run in its next step. -/
theorem Calm.quiet {x : Thread × Bool} (h : Calm x) (hcalm : x.2 = true) (act : Act) :
    actionsOf ((calmMachine P).out x act) = [] := by
  obtain ⟨⟨e, loc⟩, calm⟩ := x
  cases act with
  | push c | storeFlag | setEvent | storeArmed on => rfl
  | thread o =>
    have hloc := h.loc hcalm
    cases loc with
    | commands cmds b =>
      cases cmds with
      | cons c cs => exact (e.stepCommands_cons P c cs b o).2.2
      | nil =>
        obtain ⟨-, -, ⟨-, -, hev⟩ | ⟨-, -, -, -, -, hev⟩ | ⟨-, hgo, -⟩⟩ := e.stepCommands_nil P b o
        · exact hev
        · exact hev
        · have hstart : b.start = false := hloc.1
          rw [hstart] at hgo
          exact absurd hgo (by simp)
    | idle | ending | done =>
      exact Thread.no_actions P o fun ev hev => by cases ev <;> simp_all [Loc.emits]
    | _ => exact hloc.elim

/-- A step that makes the engine calm sends no action and starts no run. -/
theorem quiet_when_calmed (x : Thread × Bool) (hcalm : x.2 = false) (act : Act)
    (hnext : ((calmMachine P).next x act).2 = true) :
    actionsOf ((calmMachine P).out x act) = [] := by
  obtain ⟨t, calm⟩ := x
  cases act with
  | push c | storeFlag | setEvent | storeArmed on => rfl
  | thread o =>
    -- Only a consumed command calms, and no step both consumes and acts.
    refine t.step_consumes P o fun hnone => ?_
    have hfold : (commandsOf (t.step P o).2).foldl calmAfter calm = true := hnext
    rw [hnone] at hfold
    exact absurd (hcalm.symm.trans hfold) (by simp)

theorem calm_start (waiter : PreciseWaiter) (clock : ℤ) :
    Calm (Thread.start P waiter clock, false) := by
  refine ⟨?_, fun h => absurd h (by simp), fun h => absurd h (by simp)⟩
  show (Thread.start P waiter clock).e.sender.heldKeys 0 = false
  rw [Thread.start_sender]

/-- With the releases accepted at once, the record is the real key state throughout. -/
theorem engine_truthful (waiter : PreciseWaiter) (clock : ℤ) (acts : List Act)
    (hacts : ∀ act ∈ acts, ReleasesAccepted act) :
    ((engineMachine P).after (Thread.start P waiter clock) acts).e.sender.Truthful
      (callsOf ((engineMachine P).trace (Thread.start P waiter clock) acts)) := by
  have hfresh : (Thread.start P waiter clock).e.sender.Truthful (callsOf []) := by
    rw [Thread.start_sender]
    refine ⟨?_, rfl, rfl⟩
    funext c
    cases c <;> rfl
  have hall := (engineMachine P).history_of_meets
    (I := fun t past => t.e.sender.Truthful (callsOf past)) (P := fun _ => ReleasesAccepted)
    (fun t past act ht hact => by
      rw [callsOf_append]
      rcases other_threads P t act with ⟨o, rfl⟩ | ⟨hout, queue, flag, event, armed, hnext⟩
      · exact (t.step_sender P o).truthful hact ht
      · rw [hout, hnext]
        simpa using ht)
    hfresh ((engineMachine P).meets_of_forall hacts)
  simpa using hall

/-- What an emergency stop promises of the state `x` that a run has reached. -/
structure StoppedForGood (x : Thread × Bool) : Prop where
  /-- The step that stops and every step while calm send no action and start no run. -/
  quiet : ∀ act, x.2 = true ∨ ((calmMachine P).next x act).2 = true →
    actionsOf ((calmMachine P).out x act) = []
  /-- Idle means disarmed, with nothing recorded as held. -/
  idle : x.2 = true → x.1.loc = .idle →
    x.1.e.state = .disarmed ∧ x.1.e.armed = false ∧ x.1.e.sender.held = nothing

/-- **Emergency stop is final.**  In every run whose stops have room for their releases: while
    calm no action is sent and no run starts, and the idle engine is disarmed with nothing
    held — nothing in the record, and nothing in fact if the releases were accepted. -/
theorem emergency_final (waiter : PreciseWaiter) (clock : ℤ) (acts : List Act)
    (hroom : (calmMachine P).Meets HasRoom (Thread.start P waiter clock, false) acts) :
    StoppedForGood P ((calmMachine P).after (Thread.start P waiter clock, false) acts) ∧
      (((calmMachine P).after (Thread.start P waiter clock, false) acts).2 = true →
        ((calmMachine P).after (Thread.start P waiter clock, false) acts).1.loc = .idle →
        (∀ act ∈ acts, ReleasesAccepted act) →
        realHeld (callsOf
          ((calmMachine P).trace (Thread.start P waiter clock, false) acts)) = nothing) := by
  have hcalm := (calmMachine P).invariant_of_meets (fun x act hx hact => hx.step P hact)
    (calm_start P waiter clock) hroom
  have hidle : ∀ x : Thread × Bool, Calm x → x.2 = true → x.1.loc = .idle →
      x.1.e.state = .disarmed ∧ x.1.e.armed = false ∧ x.1.e.sender.held = nothing := by
    intro x hx hc hloc
    have hwhere := hx.loc hc
    rw [hloc] at hwhere
    exact ⟨hwhere.1, hx.armed hc, hwhere.2⟩
  refine ⟨⟨fun act hor => ?_, hidle _ hcalm⟩, fun hc hloc hacts => ?_⟩
  · cases hc : ((calmMachine P).after (Thread.start P waiter clock, false) acts).2 with
    | true => exact hcalm.quiet P hc act
    | false => exact quiet_when_calmed P _ hc act (hor.resolve_left (by simp [hc]))
  · have htrue := engine_truthful P waiter clock acts hacts
    have hheld := (hidle _ hcalm hc hloc).2.2
    simp only [calmMachine, Machine.watch_after] at hheld
    simp only [calmMachine, Machine.watch_trace]
    rw [← htrue.held, hheld]

/-- A click held down for 10 ms, stopped while the button is down. -/
def stoppedClick : List Act :=
  Act.post (.setConfig { action := { downTimeUs := 10000 } }) ++ Act.arm true ++
    Act.post (.triggerDown 5) ++ Act.steps 10 ++ Act.emergency 0 ++ Act.steps 2

/-- The engine is stopped with the button held, and idle after it with nothing held. -/
theorem stoppedClick_final :
    ((calmMachine .tenMegahertz).after (Thread.start .tenMegahertz {} 1000000000, false)
        stoppedClick).2 = true ∧
      ((calmMachine .tenMegahertz).after (Thread.start .tenMegahertz {} 1000000000, false)
        stoppedClick).1.loc = .idle ∧
      StoppedForGood .tenMegahertz ((calmMachine .tenMegahertz).after
        (Thread.start .tenMegahertz {} 1000000000, false) stoppedClick) :=
  ⟨by decide +kernel, by decide +kernel,
    (emergency_final .tenMegahertz {} 1000000000 stoppedClick (by decide +kernel)).1⟩

/-- In MAX mode the action becomes the key with VK `vk`, and of its two events only the press
    is accepted. -/
def pressedOnly (vk : ℕ) : List Act :=
  Act.post (.setConfig
      { action := { chord := { device := .keyboard, code := BitVec.ofNat 16 vk, scan := 1 } }
        maxMode := true, maxBatchActions := 1 }) ++
    Act.steps 3 ++ [.thread { sent := { limit := some 1 } }]

/-- 65 keys are pressed and not released by a MAX run; then comes the emergency stop. -/
def stoppedKeys : List Act :=
  Act.post (.setConfig { maxMode := true }) ++ Act.arm true ++ Act.post (.triggerDown 5) ++
    Act.steps 5 ++ (List.range' 65 65).flatMap pressedOnly ++ Act.emergency 0 ++ Act.steps 2

/-- An emergency stop with more than 64 keys held leaves some of them down, although every
    release is accepted. -/
theorem emergency_leaves_held :
    ¬ ∀ acts : List Act,
      ((calmMachine .tenMegahertz).after (Thread.start .tenMegahertz {} 1000000000, false)
        acts).2 = true →
      ((calmMachine .tenMegahertz).after (Thread.start .tenMegahertz {} 1000000000, false)
        acts).1.loc = .idle →
      (∀ act ∈ acts, ReleasesAccepted act) →
      realHeld (callsOf ((calmMachine .tenMegahertz).trace
        (Thread.start .tenMegahertz {} 1000000000, false) acts)) = nothing := by
  intro hall
  -- The 65th key is still in the record, and the record is the truth.
  have haccepted : ∀ act ∈ stoppedKeys, ReleasesAccepted act := by decide +kernel
  have hrun : ((calmMachine .tenMegahertz).after
        (Thread.start .tenMegahertz {} 1000000000, false) stoppedKeys).2 = true ∧
      ((calmMachine .tenMegahertz).after
        (Thread.start .tenMegahertz {} 1000000000, false) stoppedKeys).1.loc = .idle ∧
      ((calmMachine .tenMegahertz).after (Thread.start .tenMegahertz {} 1000000000, false)
        stoppedKeys).1.e.sender.held (.key 129) = true := by decide +kernel
  have hnone := hall stoppedKeys hrun.1 hrun.2.1 haccepted
  have htrue := (engine_truthful .tenMegahertz {} 1000000000 stoppedKeys haccepted).held
  have hheld := hrun.2.2
  simp only [calmMachine, Machine.watch_trace] at hnone
  simp only [calmMachine, Machine.watch_after] at hheld
  rw [htrue, hnone] at hheld
  exact absurd hheld (by simp)

end InfinityClicker
