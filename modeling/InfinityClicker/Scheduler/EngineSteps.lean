import InfinityClicker.Input.Releases
import InfinityClicker.Input.SenderRecord
import InfinityClicker.Scheduler.EngineLoop

namespace InfinityClicker

open Presses Machines

/-!
# What one step of the thread can do

The step functions of `EngineLoop` seen from outside, once for all invariants.

* `Thread.step_sender` — a step makes at most one call of the sender, so the thread's
  `SendInput` calls are a run of `senderMachine` (`sends_as_sender`);
* `Thread.step_quiet` — inside a run and away from the polls, a step consumes no command;
* `Thread.step_poll` — at a poll, a step consumes what is queued and sends no action.
-/

/-! ### Reading the events of a step -/

/-- The `SendInput` call of an event. -/
@[simp] def Event.call? : Event → Option SendCall
  | .sent c | .released c => some c
  | _ => none

/-- The command an event consumes. -/
@[simp] def Event.command? : Event → Option Command
  | .consumed c => some c
  | _ => none

/-- The event sends an action or starts a run. -/
@[simp] def Event.isAction : Event → Bool
  | .sent _ | .runStarted _ _ => true
  | _ => false

/-- The calls of `SendInput` in a trace. -/
def callsOf (events : List Event) : List SendCall := events.filterMap Event.call?

/-- The commands that a trace says were consumed. -/
def commandsOf (events : List Event) : List Command := events.filterMap Event.command?

/-- What a trace says of the actions of runs: their starts, and what they pass. -/
def actionsOf (events : List Event) : List Event := events.filter Event.isAction

/-- No events, no calls. -/
@[simp] theorem callsOf_nil : callsOf [] = [] := rfl

/-- No events, no commands. -/
@[simp] theorem commandsOf_nil : commandsOf [] = [] := rfl

/-- No events, no actions. -/
@[simp] theorem actionsOf_nil : actionsOf [] = [] := rfl

/-- The calls come event by event. -/
@[simp] theorem callsOf_cons (ev : Event) (es : List Event) :
    callsOf (ev :: es) = ev.call?.toList ++ callsOf es := by
  cases ev <;> rfl

/-- The commands come event by event. -/
@[simp] theorem commandsOf_cons (ev : Event) (es : List Event) :
    commandsOf (ev :: es) = ev.command?.toList ++ commandsOf es := by
  cases ev <;> rfl

/-- The actions come event by event. -/
@[simp] theorem actionsOf_cons (ev : Event) (es : List Event) :
    actionsOf (ev :: es) = (if ev.isAction then [ev] else []) ++ actionsOf es := by
  cases ev <;> rfl

/-- The calls of two traces, one after the other. -/
@[simp] theorem callsOf_append (a b : List Event) : callsOf (a ++ b) = callsOf a ++ callsOf b :=
  List.filterMap_append

/-- Their commands. -/
@[simp] theorem commandsOf_append (a b : List Event) :
    commandsOf (a ++ b) = commandsOf a ++ commandsOf b := List.filterMap_append

/-- Their actions. -/
@[simp] theorem actionsOf_append (a b : List Event) :
    actionsOf (a ++ b) = actionsOf a ++ actionsOf b := List.filter_append a b

/-- An action's calls are the calls of the trace. -/
@[simp] theorem callsOf_sent (cs : List SendCall) : callsOf (cs.map .sent) = cs := by
  simp [callsOf, List.filterMap_map, Function.comp_def, Event.call?]

/-- So are those of `releaseAll`. -/
@[simp] theorem callsOf_released (cs : List SendCall) : callsOf (cs.map .released) = cs := by
  simp [callsOf, List.filterMap_map, Function.comp_def, Event.call?]

/-- Consumed commands are no calls. -/
@[simp] theorem callsOf_consumed (cs : List Command) : callsOf (cs.map .consumed) = [] := by
  simp [callsOf, List.filterMap_map, Function.comp_def, Event.call?]

/-- Calls are no commands. -/
@[simp] theorem commandsOf_sent (cs : List SendCall) : commandsOf (cs.map .sent) = [] := by
  simp [commandsOf, List.filterMap_map, Function.comp_def, Event.command?]

/-- Those of `releaseAll` are none either. -/
@[simp] theorem commandsOf_released (cs : List SendCall) : commandsOf (cs.map .released) = [] := by
  simp [commandsOf, List.filterMap_map, Function.comp_def, Event.command?]

/-- Consumed commands are the commands of the trace. -/
@[simp] theorem commandsOf_consumed (cs : List Command) : commandsOf (cs.map .consumed) = cs := by
  simp [commandsOf, List.filterMap_map, Function.comp_def, Event.command?]

/-- A release is no action. -/
@[simp] theorem actionsOf_released (cs : List SendCall) : actionsOf (cs.map .released) = [] := by
  simp [actionsOf, List.filter_map, Function.comp_def, Event.isAction]

/-- Nor is a command. -/
@[simp] theorem actionsOf_consumed (cs : List Command) : actionsOf (cs.map .consumed) = [] := by
  simp [actionsOf, List.filter_map, Function.comp_def, Event.isAction]

/-- The calls of `SendInput` among the events of a step that carry actions. -/
def sentOf (events : List Event) : List SendCall :=
  events.filterMap fun
    | .sent c => some c
    | _ => none

/-- An action's calls are what was sent. -/
@[simp] theorem sentOf_sent (cs : List SendCall) : sentOf (cs.map .sent) = cs := by
  simp [sentOf, List.filterMap_map]

/-- No events, nothing sent. -/
@[simp] theorem sentOf_nil : sentOf [] = [] := rfl

/-- What two traces sent, one after the other. -/
@[simp] theorem sentOf_append (a b : List Event) : sentOf (a ++ b) = sentOf a ++ sentOf b :=
  List.filterMap_append

/-- A trace without an action's call sent nothing. -/
theorem sentOf_eq_nil {events : List Event} (h : ∀ ev ∈ events, ∀ c, ev ≠ .sent c) :
    sentOf events = [] := by
  apply List.filterMap_eq_nil_iff.mpr
  intro ev hev
  have hne := h ev hev
  cases ev with
  | sent c => exact absurd rfl (hne c)
  | _ => rfl

/-! ### Inside a run -/

namespace Loc

/-- In one of the loops of a run. -/
def inRun : Loc → Bool
  | .idle | .commands _ _ | .ending | .done => false
  | _ => true

/-- The thread is in its idle wait. -/
def isIdle : Loc → Bool
  | .idle => true
  | _ => false

/-- There is one such place. -/
theorem isIdle_iff (loc : Loc) : loc.isIdle = true ↔ loc = .idle := by
  cases loc <;> simp [isIdle]

instance (loc : Loc) : Decidable (loc = .idle) := decidable_of_iff _ loc.isIdle_iff

/-- At a poll of the command flag. -/
def polls : Loc → Bool
  | .timed _ | .timedPause _ | .max _ | .maxPause _ _ => true
  | _ => false

/-- Which events a step from a place may have. -/
def emits : Loc → Event → Bool
  | .commands _ _, .consumed _ | .commands _ _, .runStarted _ _ | .commands _ _, .epoch _
  | .commands _ _, .released _ => true
  | .timed _, .consumed _ => true
  | .timedConfig _, .epoch _ => true
  | .timedGate _, .looked _ _ | .timedGate _, .released _ => true
  | .timedPause _, .consumed _ | .timedPause _, .looked _ _ | .timedPause _, .epoch _ => true
  | .timedLate _ _, .missed _ => true
  | .timedAct _, .fired _ _ _ | .timedAct _, .sent _ => true
  | .max _, .consumed _ => true
  | .maxGate _, .looked _ _ | .maxGate _, .released _ => true
  | .maxPause _ _, .consumed _ | .maxPause _ _, .looked _ _ => true
  | .maxSend _ _, .sent _ => true
  | .ending, .released _ | .ending, .runEnded => true
  | _, _ => false

end Loc

/-! ### The calls of the sender -/

/-- What a step may do with the sender: nothing, the `send` of an action, or a `releaseAll`. -/
inductive SenderMove (o : Obs) (s : InputSender) : InputSender → List SendCall → Prop where
  | stay : SenderMove o s s []
  | send (ins : List INPUT) :
      SenderMove o s (s.send ins o.sent).sender (s.send ins o.sent).calls
  | releaseAll :
      SenderMove o s (s.releaseAll o.release o.retry).sender
        (s.releaseAll o.release o.retry).calls

namespace SenderMove

variable {o : Obs} {s s' : InputSender} {calls : List SendCall}

/-- A step's calls are at most one call of the sender machine. -/
theorem run (h : SenderMove o s s' calls) :
    ∃ ops, s' = senderMachine.after s ops ∧ calls = senderMachine.trace s ops := by
  cases h with
  | stay => exact ⟨[], rfl, rfl⟩
  | send ins => exact ⟨[.send ins o.sent], rfl, (List.append_nil _).symm⟩
  | releaseAll => exact ⟨[.releaseAll o.release o.retry], rfl, (List.append_nil _).symm⟩

/-- Key 0 stays up. -/
theorem keyZero (h : SenderMove o s s' calls) (hzero : s.heldKeys 0 = false) :
    s'.heldKeys 0 = false := by
  cases h with
  | stay => exact hzero
  | send ins => exact InputSender.send_keyZero hzero ins o.sent
  | releaseAll => exact InputSender.releaseAll_keyZero hzero o.release o.retry

/-- With its releases accepted at once, a step keeps the record truthful. -/
theorem truthful (h : SenderMove o s s' calls) (ho : o.release.limit = none)
    {past : List SendCall} (hs : s.Truthful past) : s'.Truthful (past ++ calls) := by
  cases h with
  | stay => simpa using hs
  | send ins => exact hs.send ins o.sent
  | releaseAll =>
    -- Accepted at once, a release makes no retry.
    have hno : s.NoRetry (.releaseAll o.release o.retry) := by
      show o.release.accepted _ = _
      rw [SendResult.accepted, ho]
    rw [s.releaseAll_of_noRetry _ _ hno]
    exact hs.send s.releases o.release

end SenderMove

namespace Engine

variable (P : Platform) (e : Engine)

/-- The calls of a release. -/
@[simp] theorem callsOf_releaseEvents (r retry : SendResult) :
    callsOf (e.releaseEvents r retry) = (e.sender.releaseAll r retry).calls := callsOf_released _

/-- A release consumes no commands. -/
@[simp] theorem commandsOf_releaseEvents (r retry : SendResult) :
    commandsOf (e.releaseEvents r retry) = [] := commandsOf_released _

/-- A release starts no action. -/
@[simp] theorem actionsOf_releaseEvents (r retry : SendResult) :
    actionsOf (e.releaseEvents r retry) = [] := actionsOf_released _

/-! ### The armed flag and the stop -/

/-- The armed flag after a command, in the idle loop or in a run. -/
def armedAfter (armed : Bool) : Command → Bool
  | .arm on => on
  | .emergency _ => false
  | _ => armed

/-- A command of an idle batch leaves the engine armed as the command says. -/
theorem idleCommand_armed (b : Batch) (r retry : SendResult) (c : Command) :
    (e.idleCommand P b r retry c).1.armed = armedAfter e.armed c := by
  cases c with
  | triggerDown qpc =>
    rw [idleCommand_triggerDown]
    rfl
  | triggerUp qpc =>
    rw [idleCommand_triggerUp]
    rfl
  | setConfig cfg => simp [idleCommand, armedAfter]
  | _ => rfl

/-- So does a command during a run. -/
theorem runCommand_armed (c : Command) : (e.runCommand c).armed = armedAfter e.armed c := by
  cases c with
  | arm on => cases on <;> rfl
  | triggerDown qpc =>
    obtain ⟨run, -, -, heq⟩ := e.runCommand_triggerDown qpc
    rw [heq]
    rfl
  | triggerUp qpc =>
    obtain ⟨run, -, -, heq⟩ := e.runCommand_triggerUp qpc
    rw [heq]
    rfl
  | _ => rfl

/-- No command takes a stop back. -/
theorem runCommand_stop (c : Command) (h : e.run.stop = true) :
    (e.runCommand c).run.stop = true := by
  cases c with
  | arm on => cases on with
    | true => exact h
    | false => rfl
  | triggerDown qpc =>
    obtain ⟨run, -, hstop, heq⟩ := e.runCommand_triggerDown qpc
    rw [heq]
    exact hstop h
  | triggerUp qpc =>
    obtain ⟨run, -, hstop, heq⟩ := e.runCommand_triggerUp qpc
    rw [heq]
    exact hstop h
  | stopRun | emergency qpc | quit => rfl
  | setConfig cfg | startRun limits qpc | resetTotals => exact h

/-- A run that must stop still must after more commands. -/
theorem runCommands_stop (cs : List Command) (h : e.run.stop = true) :
    (e.runCommands cs).run.stop = true := by
  fun_induction runCommands e cs with
  | case1 e => exact h
  | case2 e => rfl
  | case3 e c cs _ ih => exact ih (e.runCommand_stop c h)

/-- A disarm among the commands of a run stops it. -/
theorem runCommands_disarm (cs : List Command) (h : .arm false ∈ handled cs) :
    (e.runCommands cs).run.stop = true := by
  fun_induction runCommands e cs with
  | case1 e => exact absurd h (by simp [handled])
  | case2 e => rfl
  | case3 e c cs hquit ih =>
    rw [handled_cons hquit] at h
    rcases List.mem_cons.mp h with rfl | hmem
    · exact runCommands_stop _ cs rfl
    · exact ih hmem

/-- A disarm among the commands polled stops the run. -/
theorem poll_disarm (h : .arm false ∈ commandsOf e.poll.2.1) : e.poll.2.2 = true := by
  unfold poll at h ⊢
  split at h
  · next hflag =>
    rw [if_pos hflag]
    rw [commandsOf_consumed] at h
    exact e.drained.runCommands_disarm e.queue h
  · exact absurd h (by simp)

/-! ### The pieces of a step -/

/-- A batch grows up to its cap. -/
theorem growBatch_le (tl : Timeline) (fire endQpc : ℤ) (cap n batch : ℕ) :
    growBatch tl fire endQpc cap n batch ≤ max batch cap := by
  induction n generalizing batch with
  | zero => exact le_max_left _ _
  | succ n ih =>
    rw [growBatch]
    split
    · next h =>
      have hrest := ih (batch + 1)
      have hcap := h.1
      omega
    · exact le_max_left _ _

/-- Back to the idle wait, nothing but the place changes. -/
@[simp] theorem backToIdle_e : e.backToIdle.e.sender = e.sender ∧ e.backToIdle.e.armed = e.armed ∧
    e.backToIdle.e.state = e.state ∧ e.backToIdle.loc = .idle := ⟨rfl, rfl, rfl, rfl⟩

/-- A poll makes no calls. -/
@[simp] theorem poll_calls : callsOf e.poll.2.1 = [] := by
  unfold poll
  split <;> simp

/-- A command in the idle loop moves the sender only by the releases of an emergency. -/
theorem idleCommand_sender (b : Batch) (o : Obs) (c : Command) :
    SenderMove o e.sender (e.idleCommand P b o.release o.retry c).1.sender
      (callsOf (match c with
        | .emergency _ => e.releaseEvents o.release o.retry
        | _ => [])) := by
  cases c with
  | emergency qpc => simpa [idleCommand] using SenderMove.releaseAll
  | triggerDown qpc =>
    rw [idleCommand_triggerDown]
    exact .stay
  | triggerUp qpc =>
    rw [idleCommand_triggerUp]
    exact .stay
  | setConfig cfg => simpa [idleCommand] using SenderMove.stay
  | arm on | startRun limits qpc | stopRun | resetTotals | quit => exact .stay

/-- `runMax` up to its loop. -/
theorem enterMax_spec (q : ℤ) (o : Obs) :
    (e.enterMax q o).1.e = e ∧ (e.enterMax q o).2 = [] ∧
      ((e.enterMax q o).1.loc = .ending ∨ ∃ l, (e.enterMax q o).1.loc = .max l) := by
  unfold enterMax
  split
  · exact ⟨rfl, rfl, .inl rfl⟩
  · exact ⟨rfl, rfl, .inr ⟨_, rfl⟩⟩

/-- `doRun` up to the run's loop: refused, or one run started, with the sender left alone. -/
theorem doRun_spec (lim : RunLimits) (q : ℤ) (o : Obs) :
    e.doRun P lim q o = (e.backToIdle, []) ∨
      ((e.doRun P lim q o).1.e.sender = e.sender ∧ (e.doRun P lim q o).1.e.armed = e.armed ∧
        callsOf (e.doRun P lim q o).2 = [] ∧ commandsOf (e.doRun P lim q o).2 = [] ∧
        ((e.doRun P lim q o).1.loc = .ending ∨ (e.doRun P lim q o).1.loc.inRun = true)) := by
  unfold doRun
  split
  · exact .inl rfl
  · refine .inr ?_
    dsimp only
    split
    · obtain ⟨he, hev, hloc⟩ := Engine.enterMax_spec
        (((e.tick (o.dt 1)).beginRun P lim (e.tick (o.dt 1)).clock).publish P
          (e.tick (o.dt 1)).clock true) q o
      rw [he, hev]
      refine ⟨by simp, by simp, rfl, rfl, ?_⟩
      rcases hloc with hloc | ⟨l, hloc⟩
      · exact .inl hloc
      · exact .inr (by rw [hloc]; rfl)
    · exact ⟨by simp [enterTimed], by simp [enterTimed], rfl, rfl, .inr rfl⟩

/-- A command of a batch is consumed, and no action is sent with it. -/
theorem stepCommands_cons (c : Command) (cs : List Command) (b : Batch) (o : Obs) :
    (e.stepCommands P (c :: cs) b o).1 =
        { e := (e.idleCommand P b o.release o.retry c).1
          loc := .commands cs (e.idleCommand P b o.release o.retry c).2 } ∧
      commandsOf (e.stepCommands P (c :: cs) b o).2 = [c] ∧
      actionsOf (e.stepCommands P (c :: cs) b o).2 = [] := by
  refine ⟨rfl, ?_, ?_⟩
  · cases c <;> simp [stepCommands]
  · cases c <;> simp [stepCommands]

/-- **The end of a batch**: the thread returns, goes back to its wait, or starts a run. -/
theorem stepCommands_nil (b : Batch) (o : Obs) :
    (e.stepCommands P [] b o).1.e.armed = e.armed ∧
      commandsOf (e.stepCommands P [] b o).2 = [] ∧
      ((b.quit = true ∧ (e.stepCommands P [] b o).1.loc = .done ∧
          actionsOf (e.stepCommands P [] b o).2 = []) ∨
        (b.quit = false ∧ b.start = false ∧ (e.stepCommands P [] b o).1.loc = .idle ∧
          (e.stepCommands P [] b o).1.e.state = e.state ∧
          (e.stepCommands P [] b o).1.e.sender = e.sender ∧
          actionsOf (e.stepCommands P [] b o).2 = []) ∨
        (b.quit = false ∧ b.start = true ∧
          ((e.stepCommands P [] b o).1.loc = .idle ∨ (e.stepCommands P [] b o).1.loc = .ending ∨
            (e.stepCommands P [] b o).1.loc.inRun = true))) := by
  have harmed : ((e.tick (o.dt 0)).publish P (e.tick (o.dt 0)).clock true).armed = e.armed := by
    simp
  simp only [stepCommands]
  by_cases hquit : b.quit = true
  · simp [hquit]
  · by_cases hstart : b.start = true
    · rcases doRun_spec P ((e.tick (o.dt 0)).publish P (e.tick (o.dt 0)).clock true) b.lim b.trigQ o
        with heq | ⟨-, ha, -, hcommands, hloc⟩
      · rw [if_neg hquit, if_pos hstart, heq]
        exact ⟨harmed, rfl, .inr (.inr ⟨by simpa using hquit, hstart, .inl rfl⟩)⟩
      · rw [if_neg hquit, if_pos hstart]
        exact ⟨ha.trans harmed, hcommands, .inr (.inr ⟨by simpa using hquit, hstart, .inr hloc⟩)⟩
    · simp [hquit, hstart]

/-! ### A step inside a run -/

/-- What a step inside a run and away from the polls does. -/
structure Quiet (o : Obs) (x : Thread × List Event) : Prop where
  sender : SenderMove o e.sender x.1.e.sender (callsOf x.2)
  armed : x.1.e.armed = e.armed
  loc : x.1.loc = .ending ∨ x.1.loc.inRun = true

/-- What a step at a poll does; `e'` is the engine as it polls. -/
structure Polled (e' : Engine) (x : Thread × List Event) : Prop where
  sender : x.1.e.sender = e.sender
  calls : callsOf x.2 = []
  armed : x.1.e.armed = e'.poll.1.armed
  commands : commandsOf x.2 = commandsOf e'.poll.2.1
  stop : e'.poll.2.2 = true → x.1.loc = .ending
  loc : x.1.loc = .ending ∨ x.1.loc.inRun = true

variable {P e}

/-- Entering a MAX run calls nothing. -/
theorem quiet_enterMax {e' : Engine} (hsender : e'.sender = e.sender) (harmed : e'.armed = e.armed)
    (q : ℤ) (o : Obs) : e.Quiet o (e'.enterMax q o) := by
  obtain ⟨he, hev, hloc⟩ := e'.enterMax_spec q o
  refine ⟨?_, by rw [he]; exact harmed, ?_⟩
  · rw [he, hev, hsender]
    exact .stay
  · rcases hloc with hloc | ⟨l, hloc⟩
    · exact .inl hloc
    · exact .inr (by rw [hloc]; rfl)

/-- A configuration applied at an action's boundary calls nothing. -/
theorem quiet_stepTimedConfig (l : TimedLocals) (o : Obs) :
    e.Quiet o (e.stepTimedConfig P l o) := by
  unfold stepTimedConfig
  split
  · exact ⟨.stay, rfl, .inr rfl⟩
  · next c _ =>
    dsimp only
    split
    · exact quiet_enterMax (by simp) (by simp) 0 o
    · split
      · exact ⟨by simpa using SenderMove.stay, by simp, .inr rfl⟩
      · exact ⟨by simpa using SenderMove.stay, by simp, .inr rfl⟩

/-- Entering a pause releases what is held. -/
theorem enterPause_sender (why : PauseReason) (o : Obs) :
    SenderMove o e.sender (e.enterPause P why o).1.sender
      (callsOf (e.enterPause P why o).2) := by
  simp only [enterPause]
  simpa using SenderMove.releaseAll

/-- A boundary of a timed run calls `SendInput` for the releases of a pause alone. -/
theorem quiet_stepTimedGate (l : TimedLocals) (o : Obs) : e.Quiet o (e.stepTimedGate P l o) := by
  unfold stepTimedGate
  split
  · exact ⟨.stay, rfl, .inl rfl⟩
  · dsimp only
    split
    · split
      · exact ⟨by simpa using SenderMove.stay, rfl, .inr rfl⟩
      · next why _ =>
        exact ⟨enterPause_sender (P := P) (e := e.tick (o.dt 0)) why o, by simp, .inr rfl⟩
    · exact ⟨.stay, rfl, .inr rfl⟩

/-- Late slots are skipped without a call. -/
theorem quiet_stepTimedLate (l : TimedLocals) (now : ℤ) (o : Obs) :
    e.Quiet o (e.stepTimedLate P l now) := by
  simp only [stepTimedLate]
  split
  · exact ⟨.stay, rfl, .inl rfl⟩
  · exact ⟨.stay, rfl, .inr rfl⟩

/-- A timed step makes its one call. -/
theorem quiet_fireStep {e' : Engine} (hsender : e'.sender = e.sender)
    (harmed : e'.armed = e.armed) (l : TimedLocals) (st : ActionStep) (o : Obs) :
    e.Quiet o (e'.fireStep P l st o) := by
  have hsends := e'.fireStep_sends P l st o
  have hcalls : callsOf (e'.fireStep P l st o).2 =
      (e'.sender.send (e'.stepInputs l st o) o.sent).calls := by
    rw [e'.fireStep_events P l st o, callsOf_append, callsOf_sent]
    split <;> rfl
  refine ⟨?_, hsends.armed.trans harmed, .inr (by rw [e'.fireStep_loc P l st o]; rfl)⟩
  rw [hcalls, hsends.sender, hsender]
  exact .send _

/-- So does a wait that ends, and no other wait calls anything. -/
theorem quiet_stepTimedAct (l : TimedLocals) (o : Obs) : e.Quiet o (e.stepTimedAct P l o) := by
  rcases e.stepTimedAct_cases P l o with ⟨-, heq⟩ | ⟨st, -, heq | ⟨e', hw, heq⟩ | ⟨e', hw, -, heq⟩⟩
  · rw [heq]
    exact ⟨.stay, rfl, .inl rfl⟩
  · rw [heq]
    exact ⟨.stay, rfl, .inr rfl⟩
  · rw [heq]
    refine ⟨?_, hw.armed, .inr rfl⟩
    rw [hw.sender]
    exact .stay
  · rw [heq]
    exact quiet_fireStep hw.sender hw.armed l st o

/-- A configuration applied in a MAX run calls nothing. -/
theorem quiet_stepMaxConfig (l : MaxLocals) (o : Obs) : e.Quiet o (e.stepMaxConfig P l) := by
  unfold stepMaxConfig
  split
  · exact ⟨.stay, rfl, .inr rfl⟩
  · dsimp only
    split
    · exact ⟨by simpa using SenderMove.stay, by simp, .inl rfl⟩
    · exact ⟨by simpa using SenderMove.stay, by simp, .inr rfl⟩

/-- A boundary of a MAX run calls `SendInput` for the releases of a pause alone. -/
theorem quiet_stepMaxGate (l : MaxLocals) (o : Obs) : e.Quiet o (e.stepMaxGate P l o) := by
  unfold stepMaxGate
  split
  · exact ⟨.stay, rfl, .inl rfl⟩
  · dsimp only
    split
    · exact ⟨.stay, rfl, .inl rfl⟩
    · split
      · split
        · exact ⟨by simpa using SenderMove.stay, rfl, .inr rfl⟩
        · next why _ =>
          exact ⟨enterPause_sender (P := P) (e := e.tick (o.dt 0)) why o, by simp, .inr rfl⟩
      · exact ⟨.stay, rfl, .inr rfl⟩

/-- A round of a MAX run makes its one call, or gives way. -/
theorem quiet_stepMaxSend (l : MaxLocals) (now : ℤ) (o : Obs) :
    e.Quiet o (e.stepMaxSend P l now o) := by
  unfold stepMaxSend
  split
  · exact ⟨by simpa using SenderMove.stay, by simp, .inr rfl⟩
  · have hsends := e.fireMax_sends P l o
    refine ⟨?_, hsends.armed, .inr (by rw [e.fireMax_loc P l o]; rfl)⟩
    rw [e.fireMax_events P l o, callsOf_sent, hsends.sender]
    exact .send _

/-- The top of a timed run's loop polls. -/
theorem polled_stepTimed (l : TimedLocals) : e.Polled e (e.stepTimed l) := by
  have hsender : e.poll.1.sender = e.sender := by simp
  have hcalls := e.poll_calls
  simp only [stepTimed]
  split
  · exact ⟨hsender, hcalls, rfl, rfl, fun _ => rfl, .inl rfl⟩
  · next hgo =>
    split
    · exact ⟨hsender, hcalls, rfl, rfl, fun h => absurd h hgo, .inr rfl⟩
    · exact ⟨hsender, hcalls, rfl, rfl, fun h => absurd h hgo, .inr rfl⟩

/-- The top of a MAX run's loop polls. -/
theorem polled_stepMax (l : MaxLocals) : e.Polled e (e.stepMax l) := by
  have hsender : e.poll.1.sender = e.sender := by simp
  have hcalls := e.poll_calls
  simp only [stepMax]
  split
  · exact ⟨hsender, hcalls, rfl, rfl, fun _ => rfl, .inl rfl⟩
  · next hgo =>
    exact ⟨hsender, hcalls, rfl, rfl, fun h => absurd h hgo, .inr rfl⟩

/-- `e'` is `e` up to the pause's own bookkeeping. -/
structure PausedAs (e e' : Engine) : Prop where
  sender : e'.sender = e.sender
  cfg : e'.cfg = e.cfg
  prog : e'.prog = e.prog
  armed : e'.armed = e.armed
  run : e'.run = e.run
  clock : e'.clock = e.clock

/-- The gate is looked at through the configuration alone. -/
theorem checkGate_congr {e e' : Engine} (hcfg : e'.cfg = e.cfg) (v : GateView) :
    e'.checkGate v = e.checkGate v := by
  simp only [checkGate, hcfg]

/-- **A round of a pause**: the run is stopped, or it goes on after an open look, or it stays
    paused after a closed one. -/
theorem stepPause_cases (e : Engine) (o : Obs) (resume stay : Engine → Thread × List Event) :
    ((e.woken o).poll.2.2 = true ∧ ∃ e', (e.woken o).poll.1.PausedAs e' ∧
        e.stepPause o resume stay = ({ e := e', loc := .ending }, (e.woken o).poll.2.1)) ∨
      ((e.woken o).poll.2.2 = false ∧ ∃ e' go isOpen, (e.woken o).poll.1.PausedAs e' ∧
        (isOpen = true ∧ go = resume ∨ isOpen = false ∧ go = stay) ∧
        (isOpen = true ↔ e.checkGate o.gate = none) ∧
        e.stepPause o resume stay =
          ((go e').1, (e.woken o).poll.2.1 ++ .looked e'.clock isOpen :: (go e').2)) := by
  simp only [stepPause]
  split
  · next hstop =>
    refine .inl ⟨hstop, _, ?_, rfl⟩
    exact ⟨rfl, rfl, rfl, rfl, rfl, rfl⟩
  · next hgo =>
    refine .inr ⟨by simpa using hgo, ?_⟩
    -- The poll changes no configuration.
    have hgate : (e.woken o).poll.1.checkGate o.gate = e.checkGate o.gate :=
      checkGate_congr (by simp [woken]) o.gate
    split
    · next hopen =>
      refine ⟨{ (e.woken o).poll.1 with pause := .none, state := .running }, resume, true, ?_,
        .inl ⟨rfl, rfl⟩, by simp [← hgate, hopen], rfl⟩
      exact ⟨rfl, rfl, rfl, rfl, rfl, rfl⟩
    · next why hclosed =>
      refine ⟨{ (e.woken o).poll.1 with pause := why }, stay, false, ?_, .inr ⟨rfl, rfl⟩,
        by simp [← hgate, hclosed], rfl⟩
      exact ⟨rfl, rfl, rfl, rfl, rfl, rfl⟩

/-- What holds of a run stopped in its pause, and wherever the run goes on, holds after the
    round. -/
theorem stepPause_rule {I : Thread → Prop} (e : Engine) (o : Obs)
    {resume stay : Engine → Thread × List Event}
    (hstop : ∀ e', (e.woken o).poll.1.PausedAs e' → I { e := e', loc := .ending })
    (hgo : ∀ e', (e.woken o).poll.1.PausedAs e' → I (resume e').1 ∧ I (stay e').1) :
    I (e.stepPause o resume stay).1 := by
  rcases e.stepPause_cases o resume stay with
    ⟨-, e', hp, heq⟩ | ⟨-, e', go, isOpen, hp, hor, -, heq⟩
  · rw [heq]
    exact hstop e' hp
  · rw [heq]
    rcases hor with ⟨-, rfl⟩ | ⟨-, rfl⟩
    · exact (hgo e' hp).1
    · exact (hgo e' hp).2

/-- What `resume` and `stay` do after the poll of a pause. -/
structure Waits (e' : Engine) (x : Thread × List Event) : Prop where
  sender : x.1.e.sender = e'.sender
  armed : x.1.e.armed = e'.armed
  calls : callsOf x.2 = []
  commands : commandsOf x.2 = []
  loc : x.1.loc = .ending ∨ x.1.loc.inRun = true

/-- A round of a pause polls once it wakes up. -/
theorem polled_stepPause (o : Obs) {resume stay : Engine → Thread × List Event}
    (hresume : ∀ e' : Engine, Waits e' (resume e')) (hstay : ∀ e' : Engine, Waits e' (stay e')) :
    e.Polled (e.woken o) (e.stepPause o resume stay) := by
  have hsender : (e.woken o).poll.1.sender = (e.woken o).sender := by simp
  have hcalls := (e.woken o).poll_calls
  rcases e.stepPause_cases o resume stay with
    ⟨-, e', hp, heq⟩ | ⟨hgo, e', go, isOpen, hp, hor, -, heq⟩
  · rw [heq]
    exact ⟨hp.sender.trans hsender, hcalls, hp.armed, rfl, fun _ => rfl, .inl rfl⟩
  · -- Either way the thread goes on with nothing more to say about commands or calls.
    have hw : Waits e' (go e') := by
      rcases hor with ⟨-, rfl⟩ | ⟨-, rfl⟩
      · exact hresume e'
      · exact hstay e'
    rw [heq]
    refine ⟨hw.sender.trans (hp.sender.trans hsender), ?_, hw.armed.trans hp.armed, ?_,
      fun hstop => absurd hstop (by simp [hgo]), hw.loc⟩
    · simp [hcalls, hw.calls]
    · simp [hw.commands]

/-- A round of a pause in a timed run. -/
theorem polled_stepTimedPause (l : TimedLocals) (o : Obs) :
    e.Polled (e.woken o) (e.stepTimedPause P l o) :=
  polled_stepPause o (fun _ => ⟨rfl, rfl, rfl, rfl, .inr rfl⟩)
    (fun _ => ⟨by simp, by simp, rfl, rfl, .inr rfl⟩)

/-- A round of a pause in a MAX run. -/
theorem polled_stepMaxPause (l : MaxLocals) (now : ℤ) (o : Obs) :
    e.Polled (e.woken o) (e.stepMaxPause P l now o) :=
  polled_stepPause o (fun _ => ⟨rfl, rfl, rfl, rfl, .inr rfl⟩)
    (fun _ => ⟨by simp, by simp, rfl, rfl, .inr rfl⟩)

/-! ### What the pieces emit -/

/-- A poll says which commands it consumes, and no more. -/
theorem poll_emits (e : Engine) : ∀ ev ∈ e.poll.2.1, ∃ c, ev = .consumed c := by
  unfold poll
  split
  · intro ev hev
    obtain ⟨c, -, rfl⟩ := List.mem_map.mp hev
    exact ⟨c, rfl⟩
  · simp

/-- A release says which calls it makes. -/
theorem releaseEvents_emits (e : Engine) (r retry : SendResult) :
    ∀ ev ∈ e.releaseEvents r retry, ∃ c, ev = .released c := by
  intro ev hev
  obtain ⟨c, -, rfl⟩ := List.mem_map.mp hev
  exact ⟨c, rfl⟩

/-- A round of a pause consumes commands and looks at the gate; the rest is said by the way on. -/
theorem stepPause_emits {o : Obs} {resume stay : Engine → Thread × List Event} {ev : Event}
    (h : ev ∈ (e.stepPause o resume stay).2) :
    (∃ c, ev = .consumed c) ∨ (∃ a isOpen, ev = .looked a isOpen) ∨
      ∃ e', ev ∈ (resume e').2 ∨ ev ∈ (stay e').2 := by
  rcases e.stepPause_cases o resume stay with ⟨-, e', -, heq⟩ | ⟨-, e', go, isOpen, -, hor, -, heq⟩
  · rw [heq] at h
    exact .inl (poll_emits _ ev h)
  · rw [heq] at h
    rcases List.mem_append.mp h with hpoll | htail
    · exact .inl (poll_emits _ ev hpoll)
    · rcases List.mem_cons.mp htail with hlook | hgo
      · exact .inr (.inl ⟨_, _, hlook⟩)
      · refine .inr (.inr ⟨e', ?_⟩)
        rcases hor with ⟨-, rfl⟩ | ⟨-, rfl⟩
        · exact .inl hgo
        · exact .inr hgo

/-- The end of a run: releases, and back to the idle wait. -/
theorem stepEnding_spec (o : Obs) :
    SenderMove o e.sender (e.stepEnding P o).1.e.sender (callsOf (e.stepEnding P o).2) ∧
      (e.stepEnding P o).1.e.armed = e.armed ∧
      (e.stepEnding P o).1.e.state = (if e.armed then .armed else .disarmed) ∧
      (e.stepEnding P o).1.loc = .idle ∧
      (e.stepEnding P o).1.e.sender = (e.sender.releaseAll o.release o.retry).sender ∧
      commandsOf (e.stepEnding P o).2 = [] ∧ actionsOf (e.stepEnding P o).2 = [] := by
  have hsender : (e.stepEnding P o).1.e.sender =
      (e.sender.releaseAll o.release o.retry).sender := by
    simp [stepEnding, endRun]
  have hcalls : callsOf (e.stepEnding P o).2 = (e.sender.releaseAll o.release o.retry).calls := by
    simp [stepEnding]
  refine ⟨?_, ?_, ?_, rfl, hsender, ?_, ?_⟩
  · rw [hsender, hcalls]
    exact .releaseAll
  · simp [stepEnding, endRun]
  · simp [stepEnding, endRun]
  · simp [stepEnding]
  · simp [stepEnding]

end Engine

/-! ### The step as a whole -/

variable (P : Platform)

/-- **A step's events are those of its place.** -/
theorem Thread.step_emits (t : Thread) (o : Obs) :
    ∀ ev ∈ (t.step P o).2, t.loc.emits ev = true := by
  obtain ⟨e, loc⟩ := t
  intro ev hev
  cases loc with
  | idle =>
    simp only [Thread.step] at hev
    split at hev <;> simp at hev
  | commands cmds b =>
    cases cmds with
    | cons c cs =>
      -- Taking one command shows it, and an emergency its releases as well.
      rcases List.mem_cons.mp hev with rfl | hrel
      · rfl
      · cases c with
        | emergency q =>
          obtain ⟨call, rfl⟩ := Engine.releaseEvents_emits _ _ _ ev hrel
          rfl
        | _ => simp at hrel
    | nil =>
      -- Only at the end of the batch can a run begin, with its epoch, or the thread end.
      simp only [Thread.step, Engine.stepCommands] at hev
      split at hev
      · obtain ⟨call, rfl⟩ := Engine.releaseEvents_emits _ _ _ ev hev
        rfl
      · split at hev
        · unfold Engine.doRun at hev
          split at hev
          · simp at hev
          · dsimp only at hev
            split at hev
            · rw [(Engine.enterMax_spec _ _ _).2.1] at hev
              rw [List.mem_singleton.mp hev]
              rfl
            · rcases List.mem_cons.mp hev with rfl | htail
              · rfl
              · rw [List.mem_singleton.mp htail]
                rfl
        · simp at hev
  | timed l =>
    -- Both heads poll, and show nothing but the commands they take.
    have hpoll : ev ∈ e.poll.2.1 := by
      simp only [Thread.step, Engine.stepTimed] at hev
      split at hev
      · exact hev
      · split at hev <;> exact hev
    obtain ⟨c, rfl⟩ := e.poll_emits ev hpoll
    rfl
  | max l =>
    have hpoll : ev ∈ e.poll.2.1 := by
      simp only [Thread.step, Engine.stepMax] at hev
      split at hev <;> exact hev
    obtain ⟨c, rfl⟩ := e.poll_emits ev hpoll
    rfl
  | timedConfig l =>
    simp only [Thread.step, Engine.stepTimedConfig] at hev
    split at hev
    · simp at hev
    · split at hev
      · rw [(Engine.enterMax_spec _ _ _).2.1] at hev
        simp at hev
      · split at hev
        · rw [List.mem_singleton.mp hev]
          rfl
        · simp at hev
  | timedGate l =>
    -- The look is shown either way; a closed gate shows the releases of the pause too.
    simp only [Thread.step, Engine.stepTimedGate] at hev
    split at hev
    · simp at hev
    · split at hev
      · split at hev
        · rw [List.mem_singleton.mp hev]
          rfl
        · rcases List.mem_cons.mp hev with rfl | hrel
          · rfl
          · obtain ⟨call, rfl⟩ := Engine.releaseEvents_emits _ _ _ ev hrel
            rfl
      · simp at hev
  | maxGate l =>
    simp only [Thread.step, Engine.stepMaxGate] at hev
    split at hev
    · simp at hev
    · split at hev
      · simp at hev
      · split at hev
        · split at hev
          · rw [List.mem_singleton.mp hev]
            rfl
          · rcases List.mem_cons.mp hev with rfl | hrel
            · rfl
            · obtain ⟨call, rfl⟩ := Engine.releaseEvents_emits _ _ _ ev hrel
              rfl
        · simp at hev
  | timedPause l =>
    -- A round of a pause takes a command, looks, or goes on to its two outcomes.
    obtain ⟨c, rfl⟩ | ⟨a, isOpen, rfl⟩ | ⟨e', hgo | hgo⟩ := Engine.stepPause_emits hev
    · rfl
    · rfl
    · rw [List.mem_singleton.mp hgo]
      rfl
    · simp at hgo
  | timedLate l now =>
    simp only [Thread.step, Engine.stepTimedLate] at hev
    split at hev
    · rw [List.mem_singleton.mp hev]
      rfl
    · rw [List.mem_singleton.mp hev]
      rfl
  | timedAct l =>
    -- Of the four ways through a slot only the one that fires shows anything.
    rcases e.stepTimedAct_cases P l o with ⟨-, heq⟩ | ⟨st, -, heq | ⟨e', -, heq⟩ | ⟨e', -, -, heq⟩⟩
    · simp [Thread.step, heq] at hev
    · simp [Thread.step, heq] at hev
    · simp [Thread.step, heq] at hev
    · simp only [Thread.step, heq, e'.fireStep_events P l st o] at hev
      rcases List.mem_append.mp hev with hfire | hsent
      · split at hfire
        · rw [List.mem_singleton.mp hfire]
          rfl
        · simp at hfire
      · obtain ⟨call, -, rfl⟩ := List.mem_map.mp hsent
        rfl
  | maxConfig l =>
    simp only [Thread.step, Engine.stepMaxConfig] at hev
    split at hev
    · simp at hev
    · split at hev <;> simp at hev
  | maxPause l now =>
    obtain ⟨c, rfl⟩ | ⟨a, isOpen, rfl⟩ | ⟨e', hgo | hgo⟩ := Engine.stepPause_emits hev
    · rfl
    · rfl
    · simp at hgo
    · simp at hgo
  | maxSend l now =>
    simp only [Thread.step, Engine.stepMaxSend] at hev
    split at hev
    · simp at hev
    · rw [e.fireMax_events P l o] at hev
      obtain ⟨call, -, rfl⟩ := List.mem_map.mp hev
      rfl
  | ending =>
    rcases List.mem_append.mp hev with hrel | hend
    · obtain ⟨call, rfl⟩ := Engine.releaseEvents_emits _ _ _ ev hrel
      rfl
    · rw [List.mem_singleton.mp hend]
      rfl
  | done => simp [Thread.step] at hev

/-- **A step away from the polls** consumes nothing. -/
theorem Thread.step_quiet {t : Thread} (hrun : t.loc.inRun = true) (hpoll : t.loc.polls = false)
    (o : Obs) : t.e.Quiet o (t.step P o) := by
  obtain ⟨e, loc⟩ := t
  cases loc with
  | timedConfig l => exact Engine.quiet_stepTimedConfig l o
  | timedGate l => exact Engine.quiet_stepTimedGate l o
  | timedLate l now => exact Engine.quiet_stepTimedLate l now o
  | timedAct l => exact Engine.quiet_stepTimedAct l o
  | maxConfig l => exact Engine.quiet_stepMaxConfig l o
  | maxGate l => exact Engine.quiet_stepMaxGate l o
  | maxSend l now => exact Engine.quiet_stepMaxSend l now o
  | idle | commands cmds b | ending | done => exact absurd hrun (by simp [Loc.inRun])
  | timed l | timedPause l | max l | maxPause l now => exact absurd hpoll (by simp [Loc.polls])

/-- In a run and away from the polls nothing is consumed. -/
theorem Thread.quiet_commands {t : Thread} (hrun : t.loc.inRun = true)
    (hpoll : t.loc.polls = false) (o : Obs) : commandsOf (t.step P o).2 = [] := by
  refine List.filterMap_eq_nil_iff.mpr fun ev hev => ?_
  -- The places of a run that are no polls emit no `consumed`.
  have hplace := t.step_emits P o ev hev
  cases hloc : t.loc <;> cases ev <;> simp_all [Loc.emits, Loc.inRun, Loc.polls]

/-- A step sends no action and starts no run where its place emits neither. -/
theorem Thread.no_actions {t : Thread} (o : Obs)
    (hplace : ∀ ev, t.loc.emits ev = true → ev.isAction = false) :
    actionsOf (t.step P o).2 = [] :=
  List.filter_eq_nil_iff.mpr fun ev hev => by
    rw [hplace ev (t.step_emits P o ev hev)]
    simp

/-- **A step at a poll** consumes what the poll consumes, and makes no call of the sender. -/
theorem Thread.step_poll {t : Thread} (hpoll : t.loc.polls = true) (o : Obs) :
    ∃ e', e'.cfg = t.e.cfg ∧ t.e.Polled e' (t.step P o) := by
  obtain ⟨e, loc⟩ := t
  cases loc with
  | timed l => exact ⟨e, rfl, Engine.polled_stepTimed l⟩
  | timedPause l => exact ⟨e.woken o, rfl, Engine.polled_stepTimedPause l o⟩
  | max l => exact ⟨e, rfl, Engine.polled_stepMax l⟩
  | maxPause l now => exact ⟨e.woken o, rfl, Engine.polled_stepMaxPause l now o⟩
  | _ => exact absurd hpoll (by simp [Loc.polls])

/-- **A step that consumes a command sends no action.** -/
theorem Thread.step_consumes (t : Thread) (o : Obs) (hc : commandsOf (t.step P o).2 ≠ []) :
    actionsOf (t.step P o).2 = [] := by
  obtain ⟨e, loc⟩ := t
  cases loc with
  | commands cmds b =>
    cases cmds with
    | cons c cs => exact (e.stepCommands_cons P c cs b o).2.2
    | nil => exact absurd (e.stepCommands_nil P b o).2.1 hc
  | timedAct l => exact absurd (Thread.quiet_commands P rfl rfl o) hc
  | maxSend l now => exact absurd (Thread.quiet_commands P rfl rfl o) hc
  | _ => exact Thread.no_actions P o fun ev hev => by cases ev <;> simp_all [Loc.emits]

/-- The end of a batch moves the sender only by the releases before the thread returns. -/
theorem Engine.stepCommands_sender (e : Engine) (cmds : List Command) (b : Engine.Batch)
    (o : Obs) :
    SenderMove o e.sender (e.stepCommands P cmds b o).1.e.sender
      (callsOf (e.stepCommands P cmds b o).2) := by
  cases cmds with
  | cons c cs => exact e.idleCommand_sender P b o c
  | nil =>
    have hsender : ((e.tick (o.dt 0)).publish P (e.tick (o.dt 0)).clock true).sender =
        e.sender := by
      simp
    simp only [stepCommands]
    split
    · simpa using SenderMove.releaseAll
    · split
      · rcases Engine.doRun_spec P
          ((e.tick (o.dt 0)).publish P (e.tick (o.dt 0)).clock true) b.lim b.trigQ o with
          heq | ⟨hs, -, hcalls, -⟩
        · rw [heq]
          simpa using SenderMove.stay
        · rw [hs, hcalls, hsender]
          exact .stay
      · simpa using SenderMove.stay

/-- **Every step makes at most one call of the sender.** -/
theorem Thread.step_sender (t : Thread) (o : Obs) :
    SenderMove o t.e.sender (t.step P o).1.e.sender (callsOf (t.step P o).2) := by
  by_cases hrun : t.loc.inRun = true
  · cases hpoll : t.loc.polls with
    | true =>
      obtain ⟨e', -, hp⟩ := t.step_poll P hpoll o
      rw [hp.sender, hp.calls]
      exact .stay
    | false => exact (t.step_quiet P hrun hpoll o).sender
  · obtain ⟨e, loc⟩ := t
    cases loc with
    | idle =>
      simp only [Thread.step]
      split <;> exact .stay
    | commands cmds b => exact e.stepCommands_sender P cmds b o
    | ending => exact (Engine.stepEnding_spec o).1
    | done => exact .stay
    | _ => exact absurd rfl hrun

/-- A command in the idle loop leaves a compiled program. -/
theorem Engine.idleCommand_compiled {e : Engine} (h : Compiled P e.prog) (b : Engine.Batch)
    (r retry : SendResult) (c : Command) : Compiled P (e.idleCommand P b r retry c).1.prog := by
  cases c with
  | setConfig cfg => exact (rebuildProgram_compiled P { e with cfg := cfg }).1
  | triggerDown qpc =>
    rw [idleCommand_triggerDown]
    exact h
  | triggerUp qpc =>
    rw [idleCommand_triggerUp]
    exact h
  | _ => exact h

/-- A run starts with the program the engine has. -/
theorem Engine.doRun_prog (e : Engine) (lim : RunLimits) (q : ℤ) (o : Obs) :
    (e.doRun P lim q o).1.e.prog = e.prog := by
  unfold doRun
  split
  · rfl
  · dsimp only
    split
    · rw [(Engine.enterMax_spec _ q o).1]
      simp
    · simp [enterTimed]

/-- **Every step leaves a compiled program.** -/
theorem Thread.step_compiled {t : Thread} (h : Compiled P t.e.prog) (o : Obs) :
    Compiled P (t.step P o).1.e.prog := by
  obtain ⟨e, loc⟩ := t
  -- A poll and a pause keep the program, whatever is consumed in them.
  have hpoll : ∀ e' : Engine, e'.prog = e.prog → Compiled P e'.poll.1.prog := by
    intro e' he'
    simpa [he'] using h
  have hpause : ∀ (resume stay : Engine → Thread × List Event),
      (∀ e' : Engine, (resume e').1.e.prog = e'.prog) →
      (∀ e' : Engine, (stay e').1.e.prog = e'.prog) →
      Compiled P (e.stepPause o resume stay).1.e.prog := by
    intro resume stay hresume hstay
    have hwoken : ∀ e', (e.woken o).poll.1.PausedAs e' → Compiled P e'.prog := by
      intro e' hp
      rw [hp.prog]
      exact hpoll (e.woken o) rfl
    exact e.stepPause_rule (I := fun t => Compiled P t.e.prog) o hwoken fun e' hp =>
      ⟨by rw [hresume]; exact hwoken e' hp, by rw [hstay]; exact hwoken e' hp⟩
  cases loc with
  | idle =>
    simp only [Thread.step]
    split <;> exact h
  | commands cmds b =>
    cases cmds with
    | cons c cs => exact Engine.idleCommand_compiled P h b o.release o.retry c
    | nil =>
      simp only [Thread.step, Engine.stepCommands]
      split
      · simpa using h
      · split
        · rw [Engine.doRun_prog]
          simpa using h
        · simpa [Engine.backToIdle] using h
  | timed l =>
    simp only [Thread.step, Engine.stepTimed]
    split
    · exact hpoll e rfl
    · split <;> exact hpoll e rfl
  | timedConfig l =>
    simp only [Thread.step, Engine.stepTimedConfig]
    split
    · exact h
    · next c _ =>
      have hnew := (Engine.rebuildProgram_compiled P
        { ({ e with pendingCfg := none } : Engine) with cfg := c }).1
      split
      · rw [(Engine.enterMax_spec _ 0 o).1]
        exact hnew
      · split <;> exact hnew
  | timedGate l =>
    simp only [Thread.step, Engine.stepTimedGate]
    split
    · exact h
    · split
      · split
        · exact h
        · simpa using h
      · exact h
  | timedPause l => exact hpause _ _ (fun _ => rfl) (fun e' => by simp)
  | timedLate l now =>
    simp only [Thread.step, Engine.stepTimedLate]
    split <;> exact h
  | timedAct l =>
    show Compiled P (e.stepTimedAct P l o).1.e.prog
    rcases e.stepTimedAct_cases P l o with ⟨-, heq⟩ |
      ⟨st, -, heq | ⟨e', hw, heq⟩ | ⟨e', hw, -, heq⟩⟩
    · rw [heq]
      exact h
    · rw [heq]
      exact h
    · rw [heq]
      show Compiled P e'.prog
      rw [hw.prog]
      exact h
    · rw [heq, (e'.fireStep_sends P l st o).prog, hw.prog]
      exact h
  | max l =>
    simp only [Thread.step, Engine.stepMax]
    split <;> exact hpoll e rfl
  | maxConfig l =>
    simp only [Thread.step, Engine.stepMaxConfig]
    split
    · exact h
    · next c _ =>
      have hnew := (Engine.rebuildProgram_compiled P
        { ({ e with pendingCfg := none } : Engine) with cfg := c }).1
      split <;> exact hnew
  | maxGate l =>
    simp only [Thread.step, Engine.stepMaxGate]
    split
    · exact h
    · split
      · exact h
      · split
        · split
          · exact h
          · simpa using h
        · exact h
  | maxPause l now => exact hpause _ _ (fun _ => rfl) (fun e' => by simp)
  | maxSend l now =>
    simp only [Thread.step, Engine.stepMaxSend]
    split
    · simpa using h
    · rw [(e.fireMax_sends P l o).prog]
      exact h
  | ending =>
    have hend : Compiled P (e.endRun).prog := h
    simp only [Thread.step, Engine.stepEnding, Engine.applyPending]
    split
    · exact (Engine.rebuildProgram_compiled P _).1
    · simpa [Engine.backToIdle, Engine.endRun] using h
  | done => exact h

/-- **What other threads do**: they change the queue, the flags and `armed_`, and nothing else. -/
theorem other_threads (t : Thread) (act : Act) :
    (∃ o, act = .thread o) ∨ ((engineMachine P).out t act = [] ∧ ∃ queue flag event armed,
      (engineMachine P).next t act =
        ⟨{ t.e with queue := queue, cmdFlag := flag, cmdEvent := event, armed := armed },
          t.loc⟩) := by
  cases act with
  | thread o => exact .inl ⟨o, rfl⟩
  | push c => exact .inr ⟨rfl, t.e.queue ++ [c], t.e.cmdFlag, t.e.cmdEvent, t.e.armed, rfl⟩
  | storeFlag => exact .inr ⟨rfl, t.e.queue, true, t.e.cmdEvent, t.e.armed, rfl⟩
  | setEvent => exact .inr ⟨rfl, t.e.queue, t.e.cmdFlag, true, t.e.armed, rfl⟩
  | storeArmed on => exact .inr ⟨rfl, t.e.queue, t.e.cmdFlag, t.e.cmdEvent, on, rfl⟩

/-- **The thread's `SendInput` calls are a run of the sender**, in any interleaving. -/
theorem sends_as_sender (t : Thread) (acts : List Act) :
    ∃ ops, ((engineMachine P).after t acts).e.sender = senderMachine.after t.e.sender ops ∧
      callsOf ((engineMachine P).trace t acts) = senderMachine.trace t.e.sender ops := by
  induction acts generalizing t with
  | nil => exact ⟨[], rfl, rfl⟩
  | cons act acts ih =>
    -- One move of the thread is at most one call; the other threads make none.
    have hstep : ∃ ops,
        ((engineMachine P).next t act).e.sender = senderMachine.after t.e.sender ops ∧
        callsOf ((engineMachine P).out t act) = senderMachine.trace t.e.sender ops := by
      rcases other_threads P t act with ⟨o, rfl⟩ | ⟨hout, queue, flag, event, armed, hnext⟩
      · exact (t.step_sender P o).run
      · rw [hout, hnext]
        exact ⟨[], rfl, rfl⟩
    obtain ⟨ops, hsender, hcalls⟩ := hstep
    obtain ⟨more, hsender', hcalls'⟩ := ih ((engineMachine P).next t act)
    refine ⟨ops ++ more, ?_, ?_⟩
    · rw [Machine.after_cons, hsender', hsender, Machine.after_append]
    · rw [Machine.trace_cons, callsOf_append, hcalls, hcalls', hsender, Machine.trace_append]

end InfinityClicker
