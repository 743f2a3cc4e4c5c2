import InfinityClicker.Scheduler.ConfigUpdates
import InfinityClicker.Scheduler.ArmedState

namespace InfinityClicker

open Machines Mailboxes

/-!
# The engine follows the command protocol

`callerMachine` is the engine's machine with threads that call it in the order the calls have in
the source.  Each of its moves is a run of `protocolMachine`, so that what the protocol promises
holds of the engine.

* `Mirrors` — the protocol's state shows the mailbox, `armed_`, `state_` and the place of the
  engine's thread;
* `Mirrors.thread` — a step of the engine's thread is a run of protocol steps, one case for each
  kind of step in `Thread.Moves`;
* `engine_follows_protocol` — the simulation;
* `engine_rests` — what the protocol says about an engine at rest.
-/

/-! ### The engine with its callers -/

/-- Where the calling threads are. -/
structure Callers (τ : Type) where
  held : τ → Option Command := fun _ => none
  stage : τ → Stage := fun _ => .idle

/-- A step of a calling thread or of the engine's. -/
inductive CallAct (τ : Type) where
  | call (i : τ) (c : Command)
  | next (i : τ)
  | thread (o : Obs)

variable (P : Platform) {τ : Type}

/-- The engine with threads that call `arm`, `emergency` and `post`. -/
def callerMachine (τ : Type) [DecidableEq τ] :
    Machine (Thread × Callers τ) (CallAct τ) Event where
  step x
    | .call i c =>
      if (x.2.held i).isSome || decide (x.2.stage i ≠ .idle) then (x, [])
      else
        match c.arms with
        | some on =>
          (((engineMachine P).next x.1 (.storeArmed on),
            { x.2 with held := Function.update x.2.held i (some c) }), [])
        | none =>
          (((engineMachine P).next x.1 (.push c),
            { x.2 with stage := Function.update x.2.stage i .pushed }), [])
    | .next i =>
      match x.2.held i with
      | some c =>
        (((engineMachine P).next x.1 (.push c),
          { held := Function.update x.2.held i none
            stage := Function.update x.2.stage i .pushed }), [])
      | none =>
        match x.2.stage i with
        | .idle => (x, [])
        | .pushed =>
          (((engineMachine P).next x.1 .storeFlag,
            { x.2 with stage := Function.update x.2.stage i .raised }), [])
        | .raised =>
          (((engineMachine P).next x.1 .setEvent,
            { x.2 with stage := Function.update x.2.stage i .idle }), [])
    | .thread o => (((engineMachine P).next x.1 (.thread o), x.2), (x.1.step P o).2)

/-- The place of the thread in the protocol. -/
def Loc.pc : Loc → Pc
  | .idle => .waiting
  | .commands cmds b => .batch cmds b.quit
  | .timed _ | .max _ => .top
  | .ending => .ending
  | .done => .done
  | _ => .body

/-- The protocol's state shows what the engine shares with its callers. -/
structure Protocol.Shares (p : Protocol τ) (e : Engine) : Prop where
  queue : p.box.queue = e.queue
  flag : p.box.flag = e.cmdFlag
  event : p.box.event = e.cmdEvent
  armed : p.armed = e.armed
  state : p.state = e.state
  own : p.box.stage none = .idle

/-- The protocol's state shows the engine with its callers. -/
structure Mirrors (x : Thread × Callers τ) (p : Protocol τ) : Prop where
  shares : p.Shares x.1.e
  pc : p.pc = x.1.loc.pc
  held : p.held = x.2.held
  stage : ∀ i, p.box.stage (some i) = x.2.stage i

/-- The place of a run's thread is before a poll or between two. -/
theorem Loc.pc_of_inRun {loc : Loc} (h : loc.inRun = true) :
    loc.pc = if loc.tops then .top else .body := by
  cases loc <;> simp_all [inRun, pc, tops]

theorem Loc.pc_of_tops {loc : Loc} (h : loc.tops = true) : loc.pc = .top := by
  cases loc <;> simp_all [tops, pc]

/-- A poll comes at the top of a loop or in a pause. -/
theorem Loc.pc_of_polls {loc : Loc} (h : loc.polls = true) :
    loc.pc = .top ∧ loc.pauses = false ∨ loc.pc = .body ∧ loc.pauses = true := by
  cases loc <;> simp_all [polls, pc, pauses]

theorem Loc.pc_of_quiet {loc : Loc} (hrun : loc.inRun = true) (hpoll : loc.polls = false) :
    loc.pc = .body := by
  cases loc <;> simp_all [inRun, polls, pc]

theorem Loc.pc_of_configures {loc : Loc} (h : loc.configures = true) : loc.pc = .body := by
  cases loc <;> simp_all [configures, pc]

namespace Protocol

section Shares

variable {p : Protocol τ} {e e' : Engine}

/-- What the callers see of the engine is all the protocol shows. -/
theorem Shares.congr (h : p.Shares e) (hqueue : e'.queue = e.queue) (hflag : e'.cmdFlag = e.cmdFlag)
    (hevent : e'.cmdEvent = e.cmdEvent) (harmed : e'.armed = e.armed)
    (hstate : e'.state = e.state) : p.Shares e' :=
  ⟨h.queue.trans hqueue.symm, h.flag.trans hflag.symm, h.event.trans hevent.symm,
    h.armed.trans harmed.symm, h.state.trans hstate.symm, h.own⟩

theorem Shares.keeps (h : p.Shares e) (hkeeps : e.Keeps e') (hstate : e'.state = e.state) :
    p.Shares e' := h.congr hkeeps.queue hkeeps.cmdFlag hkeeps.cmdEvent hkeeps.armed hstate

end Shares

variable [DecidableEq τ]

/-- `p'` comes of `p` by steps of the engine alone. -/
def Leads (p p' : Protocol τ) : Prop :=
  ∃ choices : List Choice, (protocolMachine τ).after p (choices.map .engine) = p'

variable {p p' p'' : Protocol τ}

theorem Leads.refl (p : Protocol τ) : p.Leads p := ⟨[], rfl⟩

theorem Leads.trans (h : p.Leads p') (h' : p'.Leads p'') : p.Leads p'' := by
  obtain ⟨choices, rfl⟩ := h
  obtain ⟨more, rfl⟩ := h'
  exact ⟨choices ++ more, by rw [List.map_append, Machine.after_append]⟩

theorem Leads.one (choice : Choice) (h : (p.engine choice).1 = p') : p.Leads p' :=
  ⟨[choice], h⟩

/-- One step more. -/
theorem Leads.step (h : p.Leads p') (choice : Choice) (h' : (p'.engine choice).1 = p'') :
    p.Leads p'' := h.trans (Leads.one choice h')

/-- The engine leaves the calls of the others alone. -/
theorem engine_callers (p : Protocol τ) (choice : Choice) :
    (p.engine choice).1.held = p.held ∧
      ∀ i, (p.engine choice).1.box.stage (some i) = p.box.stage (some i) := by
  unfold engine
  split
  case h_1 => split <;> exact ⟨rfl, fun _ => rfl⟩
  case h_3 => split <;> exact ⟨rfl, fun _ => rfl⟩
  case h_5 =>
    split
    · exact ⟨rfl, fun _ => rfl⟩
    · split <;> exact ⟨rfl, fun _ => rfl⟩
  case h_9 =>
    split
    · exact ⟨rfl, fun i => Mailbox.push_stage_ne _ (by simp) _⟩
    · exact ⟨rfl, fun _ => rfl⟩
  case h_10 => exact ⟨rfl, fun i => Mailbox.proceed_stage_ne _ (by simp)⟩
  case h_11 =>
    split
    · split <;> exact ⟨rfl, fun _ => rfl⟩
    · exact ⟨rfl, fun _ => rfl⟩
    · exact ⟨rfl, fun _ => rfl⟩
    · exact ⟨rfl, fun _ => rfl⟩
    · exact ⟨rfl, fun _ => rfl⟩
  all_goals exact ⟨rfl, fun _ => rfl⟩

theorem Leads.callers (h : p.Leads p') :
    p'.held = p.held ∧ ∀ i, p'.box.stage (some i) = p.box.stage (some i) := by
  obtain ⟨choices, rfl⟩ := h
  induction choices generalizing p with
  | nil => exact ⟨rfl, fun _ => rfl⟩
  | cons choice choices ih =>
    obtain ⟨hheld, hstage⟩ := p.engine_callers choice
    obtain ⟨hheld', hstage'⟩ := ih (p := (p.engine choice).1)
    exact ⟨hheld'.trans hheld, fun i => (hstage' i).trans (hstage i)⟩

/-! ### Runs of the protocol's engine -/

/-- Steps of the engine alone lead to a state that shows `e` at `pc`. -/
def Reaches (p : Protocol τ) (e : Engine) (pc : Pc) : Prop :=
  ∃ p', p.Leads p' ∧ p'.Shares e ∧ p'.pc = pc

variable {e e' : Engine} {pc pc' : Pc}

namespace Reaches

theorem here (h : p.Shares e) (hpc : p.pc = pc) : p.Reaches e pc := ⟨p, Leads.refl p, h, hpc⟩

/-- One run after the other. -/
theorem andThen (h : p.Reaches e pc)
    (hnext : ∀ p' : Protocol τ, p'.Shares e → p'.pc = pc → p'.Reaches e' pc') :
    p.Reaches e' pc' := by
  obtain ⟨p', hleads, hshares, hpc⟩ := h
  obtain ⟨p'', hleads', hshares', hpc'⟩ := hnext p' hshares hpc
  exact ⟨p'', hleads.trans hleads', hshares', hpc'⟩

theorem keeps (h : p.Reaches e pc) (hkeeps : e.Keeps e') (hstate : e'.state = e.state) :
    p.Reaches e' pc := by
  obtain ⟨p', hleads, hshares, hpc⟩ := h
  exact ⟨p', hleads, hshares.keeps hkeeps hstate, hpc⟩

/-- The idle wait ends, and the queue is drained. -/
theorem wake (h : p.Shares e) (hpc : p.pc = .waiting) (hevent : e.cmdEvent = true) :
    p.Reaches { e.drained with cmdEvent := false } (.batch e.queue false) := by
  have hone : p.Leads { p with box := p.box.consume, pc := .woken } := by
    apply Leads.one .goOn
    simp [engine, hpc, h.event, hevent]
  refine ⟨{ p with box := p.box.consume.drain, pc := .batch p.box.queue false },
    hone.step .goOn rfl, ?_, ?_⟩
  · exact ⟨rfl, rfl, rfl, h.armed, h.state, h.own⟩
  · rw [h.queue]

/-- A command of the idle loop: `armed_` and `state_` follow an `Arm` and an `Emergency`. -/
theorem idle {c : Command} {cs : List Command} {quit : Bool} (h : p.Shares e)
    (hpc : p.pc = .batch (c :: cs) quit) :
    p.Reaches
      { e with
        armed := c.arms.getD e.armed
        state := (c.arms.map EngineState.ofArmed).getD e.state }
      (.batch cs (quit || decide (c = .quit))) := by
  cases harms : c.arms with
  | none =>
    refine ⟨{ p with pc := .batch cs (quit || decide (c = .quit)) }, ?_, ?_, rfl⟩
    · apply Leads.one .goOn
      simp [engine, hpc, harms]
    · exact ⟨h.queue, h.flag, h.event, h.armed, h.state, h.own⟩
  | some on =>
    have hquit : c ≠ .quit := by
      rintro rfl
      simp [Command.arms] at harms
    have hone : p.Leads { p with armed := on, pc := .settling on cs quit } := by
      apply Leads.one .goOn
      simp [engine, hpc, harms]
    refine ⟨{ p with armed := on, state := .ofArmed on, pc := .batch cs quit },
      hone.step .goOn rfl, ?_, ?_⟩
    · exact ⟨h.queue, h.flag, h.event, rfl, rfl, h.own⟩
    · simp [hquit]

/-- The flag is down: the run goes on. -/
theorem pollDown (h : p.Shares e) (hpc : p.pc = .top) (hflag : e.cmdFlag = false) :
    p.Reaches e .body := by
  refine ⟨{ p with pc := .body }, ?_, ⟨h.queue, h.flag, h.event, h.armed, h.state, h.own⟩, rfl⟩
  apply Leads.one .goOn
  simp [engine, hpc, h.flag, hflag]

/-- The flag is up: the queue is drained. -/
theorem pollUp (h : p.Shares e) (hpc : p.pc = .top) (hflag : e.cmdFlag = true) :
    p.Reaches e.drained (.handling e.queue) := by
  have hone : p.Leads { p with pc := .taking } := by
    apply Leads.one .goOn
    simp [engine, hpc, h.flag, hflag]
  refine ⟨{ p with box := p.box.drain, pc := .handling p.box.queue }, hone.step .goOn rfl, ?_, ?_⟩
  · exact ⟨rfl, rfl, h.event, h.armed, h.state, h.own⟩
  · rw [h.queue]

end Reaches

end Protocol

/-- Only `Quit` touches the flag and the event in a run. -/
theorem Engine.runCommand_signals (e : Engine) {c : Command} (hc : c ≠ .quit) :
    (e.runCommand c).cmdFlag = e.cmdFlag ∧ (e.runCommand c).cmdEvent = e.cmdEvent := by
  cases c with
  | quit => exact absurd rfl hc
  | arm on => cases on <;> exact ⟨rfl, rfl⟩
  | triggerDown qpc =>
    obtain ⟨run, -, -, heq⟩ := e.runCommand_triggerDown qpc
    rw [heq]
    exact ⟨rfl, rfl⟩
  | triggerUp qpc =>
    obtain ⟨run, -, -, heq⟩ := e.runCommand_triggerUp qpc
    rw [heq]
    exact ⟨rfl, rfl⟩
  | _ => exact ⟨rfl, rfl⟩

namespace Protocol.Reaches

variable [DecidableEq τ] {p : Protocol τ} {e e' : Engine}

/-- The commands of a batch in a run. -/
theorem handle {cs : List Command} (h : p.Shares e) (hpc : p.pc = .handling cs) :
    p.Reaches (e.runCommands cs)
      (if (e.runCommands cs).run.stop = true then .ending else .body) := by
  fun_induction Engine.runCommands e cs generalizing p with
  | case1 e =>
    cases hstop : e.run.stop with
    | true =>
      refine ⟨{ p with pc := .ending }, ?_,
        ⟨h.queue, h.flag, h.event, h.armed, h.state, h.own⟩, rfl⟩
      apply Leads.one .stop
      simp [engine, hpc]
    | false =>
      refine ⟨{ p with pc := .body }, ?_,
        ⟨h.queue, h.flag, h.event, h.armed, h.state, h.own⟩, rfl⟩
      apply Leads.one .goOn
      simp [engine, hpc]
  | case2 e cs =>
    -- The engine's own post, in three steps.
    have hpush : p.Leads { p with box := p.box.push none .quit, pc := .requeue } := by
      apply Leads.one .goOn
      simp [engine, hpc]
    have hraise : p.Leads
        { p with box := (p.box.push none .quit).raise none, pc := .requeue } := by
      apply hpush.step .goOn
      simp [engine, Mailbox.proceed]
    refine ⟨{ p with box := ((p.box.push none .quit).raise none).signal none, pc := .ending },
      hraise.step .goOn ?_, ?_, rfl⟩
    · simp [engine, Mailbox.proceed, Mailbox.raise]
    · refine ⟨?_, rfl, rfl, h.armed, h.state, by simp [Mailbox.signal]⟩
      exact congrArg (· ++ [Command.quit]) h.queue
  | case3 e c cs hquit ih =>
    have hone : p.Leads { p with armed := c.arms.getD p.armed, pc := .handling cs } := by
      apply Leads.one .goOn
      simp only [engine, hpc]
      rw [if_neg hquit]
    have harmed : (e.runCommand c).armed = c.arms.getD e.armed := by
      rw [e.runCommand_armed]
      cases c <;> rfl
    obtain ⟨hflag, hevent⟩ := e.runCommand_signals hquit
    have hshares : Shares { p with armed := c.arms.getD p.armed, pc := .handling cs }
        (e.runCommand c) := by
      refine ⟨?_, h.flag.trans hflag.symm, h.event.trans hevent.symm, ?_, ?_, h.own⟩
      · rw [e.runCommand_queue hquit]
        exact h.queue
      · show c.arms.getD p.armed = _
        rw [harmed, h.armed]
      · rw [(e.runCommand_frame c).2.2.2.2.1]
        exact h.state
    obtain ⟨p', hleads, hshares', hpc'⟩ := ih hshares rfl
    exact ⟨p', hone.trans hleads, hshares', hpc'⟩

/-- **A poll** is a run of the protocol's engine. -/
theorem poll (h : p.Shares e) (hpc : p.pc = .top) :
    p.Reaches e.poll.1 (if e.poll.2.2 = true then .ending else .body) := by
  unfold Engine.poll
  cases hflag : e.cmdFlag with
  | false => exact pollDown h hpc hflag
  | true => exact (pollUp h hpc hflag).andThen fun p' h' hpc' => handle h' hpc'

/-! ### Between two polls -/

/-- A step of a run between two polls that changes no more than the state. -/
theorem body {state : EngineState} (h : p.Shares e) (hpc : p.pc = .body)
    (hstate : state = e.state ∨ state = .paused ∨ state = .running) :
    p.Reaches { e with state := state } .body := by
  rcases hstate with rfl | rfl | rfl
  · exact here h hpc
  · refine ⟨{ p with state := .paused }, ?_,
      ⟨h.queue, h.flag, h.event, h.armed, rfl, h.own⟩, hpc⟩
    apply Leads.one .pause
    simp [engine, hpc]
  · refine ⟨{ p with state := .running }, ?_,
      ⟨h.queue, h.flag, h.event, h.armed, rfl, h.own⟩, hpc⟩
    apply Leads.one .resume
    simp [engine, hpc]

/-- The run goes back to its poll, over a wait that may consume the event. -/
theorem toTop {event : Bool} (h : p.Shares e) (hpc : p.pc = .body)
    (hevent : event = e.cmdEvent ∨ event = false) :
    p.Reaches { e with cmdEvent := event } .top := by
  by_cases hsame : event = e.cmdEvent
  · refine ⟨{ p with pc := .top }, ?_, ?_, rfl⟩
    · apply Leads.one .goOn
      simp [engine, hpc]
    · exact ⟨h.queue, h.flag, h.event.trans hsame.symm, h.armed, h.state, h.own⟩
  · have hfalse := hevent.resolve_left hsame
    subst hfalse
    have hset : e.cmdEvent = true := by simpa using hsame
    refine ⟨{ p with box := p.box.consume, pc := .top }, ?_, ?_, rfl⟩
    · apply Leads.one .wait
      simp [engine, hpc, h.event, hset]
    · exact ⟨h.queue, h.flag, rfl, h.armed, h.state, h.own⟩

/-- The run is left. -/
theorem leave (h : p.Shares e) (hpc : p.pc = .body) : p.Reaches e .ending := by
  refine ⟨{ p with pc := .ending }, ?_, ⟨h.queue, h.flag, h.event, h.armed, h.state, h.own⟩, rfl⟩
  apply Leads.one .stop
  simp [engine, hpc]

/-- From between two polls a run goes wherever a step of the thread leads. -/
theorem onward {loc : Loc} (h : p.Shares e) (hpc : p.pc = .body)
    (hloc : loc = .ending ∨ loc.inRun = true) : p.Reaches e loc.pc := by
  rcases hloc with rfl | hrun
  · exact leave h hpc
  · rw [Loc.pc_of_inRun hrun]
    cases loc.tops with
    | true => exact toTop h hpc (.inl rfl)
    | false => exact here h hpc

/-- The end of a run: the state shows `armed_`. -/
theorem finish (h : p.Shares e) (hpc : p.pc = .ending) :
    p.Reaches { e with state := .ofArmed e.armed } .waiting := by
  have hone : p.Leads { p with pc := .loaded p.armed } := by
    apply Leads.one .goOn
    simp [engine, hpc]
  refine ⟨{ p with state := .ofArmed p.armed, pc := .waiting }, hone.step .goOn rfl, ?_, rfl⟩
  exact ⟨h.queue, h.flag, h.event, h.armed, by rw [h.armed], h.own⟩

/-- The end of a batch. -/
theorem batchEnds {quit : Bool} (h : p.Shares e) (hpc : p.pc = .batch [] quit) :
    p.Reaches e (if quit = true then .done else .waiting) := by
  cases quit with
  | true =>
    refine ⟨{ p with pc := .done }, ?_, ⟨h.queue, h.flag, h.event, h.armed, h.state, h.own⟩, rfl⟩
    apply Leads.one .goOn
    simp [engine, hpc]
  | false =>
    refine ⟨{ p with pc := .waiting }, ?_, ⟨h.queue, h.flag, h.event, h.armed, h.state, h.own⟩,
      rfl⟩
    apply Leads.one .goOn
    simp [engine, hpc]

/-- A run starts. -/
theorem starts (h : p.Shares e) (hpc : p.pc = .batch [] false) :
    p.Reaches { e with state := .running } .body := by
  refine ⟨{ p with state := .running, pc := .body }, ?_,
    ⟨h.queue, h.flag, h.event, h.armed, rfl, h.own⟩, rfl⟩
  apply Leads.one .start
  simp [engine, hpc]

end Protocol.Reaches

/-! ### The simulation -/

/-- A command of the idle loop, seen by the callers. -/
theorem Engine.idleCommand_shared (e : Engine) (b : Engine.Batch) (r retry : SendResult)
    (c : Command) :
    (e.idleCommand P b r retry c).1.cmdFlag = e.cmdFlag ∧
      (e.idleCommand P b r retry c).1.cmdEvent = e.cmdEvent ∧
      (e.idleCommand P b r retry c).1.armed = c.arms.getD e.armed ∧
      (e.idleCommand P b r retry c).1.state = (c.arms.map EngineState.ofArmed).getD e.state := by
  cases c with
  | triggerDown qpc =>
    rw [idleCommand_triggerDown]
    exact ⟨rfl, rfl, rfl, rfl⟩
  | triggerUp qpc =>
    rw [idleCommand_triggerUp]
    exact ⟨rfl, rfl, rfl, rfl⟩
  | _ => exact ⟨rfl, rfl, rfl, rfl⟩

theorem Engine.applyPending_shared (e : Engine) :
    (e.applyPending P).queue = e.queue ∧ (e.applyPending P).cmdFlag = e.cmdFlag ∧
      (e.applyPending P).cmdEvent = e.cmdEvent ∧ (e.applyPending P).armed = e.armed := by
  unfold applyPending
  split <;> exact ⟨rfl, rfl, rfl, rfl⟩

/-- At startup the protocol shows the engine. -/
theorem mirrors_start (waiter : PreciseWaiter) (clock : ℤ) :
    Mirrors (Thread.start P waiter clock, ({} : Callers τ)) {} := by
  have hkeeps := (Engine.rebuildProgram P { waiter := waiter, clock := clock }).keeps_publish P
    clock true
  have hstate : (Thread.start P waiter clock).e.state = .disarmed := by
    simp [Thread.start, Engine.rebuildProgram]
  refine ⟨⟨?_, ?_, ?_, ?_, ?_, rfl⟩, rfl, rfl, fun _ => rfl⟩
  · exact hkeeps.queue.symm
  · exact hkeeps.cmdFlag.symm
  · exact hkeeps.cmdEvent.symm
  · exact hkeeps.armed.symm
  · exact hstate.symm

variable [DecidableEq τ]

/-- **A step of the engine's thread is a run of the protocol's engine.** -/
theorem Thread.step_reaches (t : Thread) (o : Obs) (p : Protocol τ) (h : p.Shares t.e)
    (hpc : p.pc = t.loc.pc) : p.Reaches (t.step P o).1.e (t.step P o).1.loc.pc := by
  cases t.step_moves P o with
  | sleeps hloc hevent heq => rw [heq]; exact .here h hpc
  | stays hloc heq => rw [heq]; exact .here h hpc
  | wakes hloc hevent heq =>
    rw [hloc] at hpc
    rw [heq]
    exact .wake h hpc hevent
  | @command c cs b hloc heq =>
    rw [hloc] at hpc
    rw [heq]
    obtain ⟨hflag, hevent, harmed, hstate⟩ := t.e.idleCommand_shared P b o.release o.retry c
    have hqueue : (t.e.idleCommand P b o.release o.retry c).1.queue = t.e.queue := by
      cases c with
      | triggerDown qpc => rw [Engine.idleCommand_triggerDown]
      | triggerUp qpc => rw [Engine.idleCommand_triggerUp]
      | _ => rfl
    have hquit := t.e.idleCommand_quit P b o.release o.retry c
    obtain ⟨p', hleads, hshares, hpc'⟩ := Protocol.Reaches.idle h hpc
    refine ⟨p', hleads, hshares.congr hqueue hflag hevent harmed hstate, ?_⟩
    rw [hpc']
    show Pc.batch cs _ = Pc.batch cs _
    rw [hquit]
  | @returns b hloc hquit hkeeps hstate hloc' =>
    rw [hloc] at hpc
    have hends : p.Reaches t.e (if b.quit = true then .done else .waiting) := .batchEnds h hpc
    rw [hquit] at hends
    rw [hloc']
    exact hends.keeps hkeeps hstate
  | @rests b hloc hquit hstart hkeeps hstate hloc' =>
    rw [hloc] at hpc
    have hends : p.Reaches t.e (if b.quit = true then .done else .waiting) := .batchEnds h hpc
    rw [hquit] at hends
    rw [hloc']
    exact hends.keeps hkeeps hstate
  | @starts b hloc hquit hstart hok hkeeps hstate hloc' =>
    rw [hloc] at hpc
    have hpc₀ : p.pc = .batch [] false := by
      rw [hpc, ← hquit]
      rfl
    refine (Protocol.Reaches.starts h hpc₀).andThen fun p' h' hpc' => ?_
    refine Protocol.Reaches.onward ?_ hpc' hloc'
    exact h'.congr hkeeps.queue hkeeps.cmdFlag hkeeps.cmdEvent hkeeps.armed hstate
  | polls hloc e he hkeeps hstate hstop hgo =>
    -- In a pause the wait comes first.
    have htop : p.Reaches e .top := by
      rcases Loc.pc_of_polls hloc with ⟨hlt, hpauses⟩ | ⟨hlt, hpauses⟩
      · rcases he with rfl | ⟨hp, -⟩
        · exact .here h (hpc.trans hlt)
        · exact absurd hp (by simp [hpauses])
      · rcases he with rfl | ⟨-, rfl⟩
        · exact Protocol.Reaches.toTop h (hpc.trans hlt) (.inl rfl)
        · obtain ⟨p', hleads, hshares, hpc'⟩ := Protocol.Reaches.toTop h (hpc.trans hlt) (.inr rfl)
          exact ⟨p', hleads, hshares.congr rfl rfl rfl rfl rfl, hpc'⟩
    refine htop.andThen fun p₁ h₁ hpc₁ => ?_
    refine (Protocol.Reaches.poll h₁ hpc₁).andThen fun p₂ h₂ hpc₂ => ?_
    have hsame : e.poll.1.state = t.e.state := by
      rw [e.poll_state]
      rcases he with rfl | ⟨-, rfl⟩ <;> rfl
    cases hs : e.poll.2.2 with
    | true =>
      obtain ⟨hloc', hstate'⟩ := hstop hs
      rw [hs] at hpc₂
      rw [hloc']
      exact .here (h₂.keeps hkeeps (hstate'.trans hsame.symm)) hpc₂
    | false =>
      rw [hs] at hpc₂
      have hstate' : (t.step P o).1.e.state = e.poll.1.state ∨
          (t.step P o).1.e.state = .paused ∨ (t.step P o).1.e.state = .running := by
        rcases hstate with hkept | hrunning
        · exact .inl (hkept.trans hsame.symm)
        · exact .inr (.inr hrunning)
      refine (Protocol.Reaches.body h₂ hpc₂ hstate').andThen fun p₃ h₃ hpc₃ => ?_
      refine Protocol.Reaches.onward ?_ hpc₃ (.inr (hgo hs))
      exact h₃.congr hkeeps.queue hkeeps.cmdFlag hkeeps.cmdEvent hkeeps.armed rfl
  | applies hloc hpending hkeeps hstate hloc' =>
    have hbody : p.pc = .body := hpc.trans (Loc.pc_of_configures hloc)
    obtain ⟨hqueue, hflag, hevent, harmed⟩ := t.e.applyPending_shared P
    refine Protocol.Reaches.onward ?_ hbody hloc'
    exact h.congr (hkeeps.queue.trans hqueue) (hkeeps.cmdFlag.trans hflag)
      (hkeeps.cmdEvent.trans hevent) (hkeeps.armed.trans harmed) hstate
  | runs hrun hpoll event hevent hkeeps hstate hloc' =>
    have hbody : p.pc = .body := hpc.trans (Loc.pc_of_quiet hrun hpoll)
    have hstate' : (t.step P o).1.e.state = t.e.state ∨ (t.step P o).1.e.state = .paused ∨
        (t.step P o).1.e.state = .running := hstate.imp_right .inl
    refine (Protocol.Reaches.body h hbody hstate').andThen fun p₁ h₁ hpc₁ => ?_
    rcases hevent with hsame | ⟨hnone, htop⟩
    · refine Protocol.Reaches.onward ?_ hpc₁ hloc'
      exact h₁.congr hkeeps.queue hkeeps.cmdFlag (hkeeps.cmdEvent.trans hsame) hkeeps.armed rfl
    · -- A wait of the run consumed the event.
      rw [Loc.pc_of_tops htop]
      obtain ⟨p₂, hleads, h₂, hpc₂⟩ := Protocol.Reaches.toTop h₁ hpc₁ (.inr rfl)
      refine ⟨p₂, hleads, ?_, hpc₂⟩
      exact h₂.congr hkeeps.queue hkeeps.cmdFlag (hkeeps.cmdEvent.trans hnone) hkeeps.armed rfl
  | ends hloc hkeeps hstate hloc' =>
    rw [hloc] at hpc
    rw [hloc']
    obtain ⟨hqueue, hflag, hevent, harmed⟩ := Engine.applyPending_shared P
      { t.e with runsCompleted := t.e.runsCompleted + 1 }
    obtain ⟨p', hleads, h', hpc'⟩ := Protocol.Reaches.finish h hpc
    refine ⟨p', hleads, ?_, hpc'⟩
    exact h'.congr (hkeeps.queue.trans hqueue) (hkeeps.cmdFlag.trans hflag)
      (hkeeps.cmdEvent.trans hevent) (hkeeps.armed.trans harmed) hstate

/-- A caller's step is the protocol's. -/
theorem Mirrors.call {x : Thread × Callers τ} {p : Protocol τ} (h : Mirrors x p) (i : τ)
    (c : Command) :
    Mirrors ((callerMachine P τ).next x (.call i c)) ((protocolMachine τ).next p (.call i c)) := by
  obtain ⟨⟨e, loc⟩, callers⟩ := x
  have hbusy : p.busy i = ((callers.held i).isSome || decide (callers.stage i ≠ .idle)) := by
    rw [Protocol.busy, h.held, h.stage]
  simp only [callerMachine, protocolMachine, Machine.next, Protocol.begin_, hbusy]
  split
  · exact h
  · cases c.arms with
    | some on =>
      have hs := h.shares
      refine ⟨⟨hs.queue, hs.flag, hs.event, rfl, hs.state, hs.own⟩, h.pc, ?_, h.stage⟩
      exact congrArg (Function.update · i (some c)) h.held
    | none =>
      have hs := h.shares
      refine ⟨⟨congrArg (· ++ [c]) hs.queue, hs.flag, hs.event, hs.armed, hs.state, ?_⟩, h.pc,
        h.held, fun j => ?_⟩
      · exact (Mailbox.push_stage_ne _ (by simp) _).trans hs.own
      · by_cases hj : j = i
        · subst hj
          simp
        · rw [Mailbox.push_stage_ne _ (by simpa using hj)]
          simpa [Function.update_of_ne hj] using h.stage j

theorem Mirrors.next {x : Thread × Callers τ} {p : Protocol τ} (h : Mirrors x p) (i : τ) :
    Mirrors ((callerMachine P τ).next x (.next i)) ((protocolMachine τ).next p (.next i)) := by
  obtain ⟨⟨e, loc⟩, callers⟩ := x
  have hs := h.shares
  have hheld : p.held i = callers.held i := congrFun h.held i
  simp only [callerMachine, protocolMachine, Machine.next, Protocol.continue_, hheld]
  cases callers.held i with
  | some c =>
    refine ⟨⟨congrArg (· ++ [c]) hs.queue, hs.flag, hs.event, hs.armed, hs.state, ?_⟩, h.pc, ?_,
      fun j => ?_⟩
    · exact (Mailbox.push_stage_ne _ (by simp) _).trans hs.own
    · exact congrArg (Function.update · i none) h.held
    · by_cases hj : j = i
      · subst hj
        simp
      · rw [Mailbox.push_stage_ne _ (by simpa using hj)]
        simpa [Function.update_of_ne hj] using h.stage j
  | none =>
    have hstage : p.box.stage (some i) = callers.stage i := h.stage i
    -- The posts of the others, and the engine's own, stay where they are.
    have hother : ∀ j : Option τ, j ≠ some i →
        (p.box.proceed (some i)).stage j = p.box.stage j := fun j hj =>
      Mailbox.proceed_stage_ne _ hj
    have hown := (hother none (by simp)).trans hs.own
    have hstages : ∀ st : Stage, (p.box.proceed (some i)).stage (some i) = st →
        ∀ j, (p.box.proceed (some i)).stage (some j) = Function.update callers.stage i st j := by
      intro st hst j
      by_cases hj : j = i
      · subst hj
        rw [hst, Function.update_self]
      · rw [hother _ (by simpa using hj), Function.update_of_ne hj]
        exact h.stage j
    cases hcase : callers.stage i with
    | idle =>
      rw [hcase] at hstage
      have hsame : p.box.proceed (some i) = p.box := by simp [Mailbox.proceed, hstage]
      simp only [hsame]
      exact h
    | pushed =>
      rw [hcase] at hstage
      have hraise : p.box.proceed (some i) = p.box.raise (some i) := by
        simp [Mailbox.proceed, hstage]
      refine ⟨⟨?_, ?_, ?_, hs.armed, hs.state, hown⟩, h.pc, h.held, hstages .raised ?_⟩
      · exact (Mailbox.proceed_queue _ _).trans hs.queue
      · simp [hraise, Mailbox.raise, engineMachine]
      · rw [hraise]
        exact hs.event
      · simp [hraise, Mailbox.raise]
    | raised =>
      rw [hcase] at hstage
      have hsignal : p.box.proceed (some i) = p.box.signal (some i) := by
        simp [Mailbox.proceed, hstage]
      refine ⟨⟨?_, ?_, ?_, hs.armed, hs.state, hown⟩, h.pc, h.held, hstages .idle ?_⟩
      · exact (Mailbox.proceed_queue _ _).trans hs.queue
      · rw [hsignal]
        exact hs.flag
      · simp [hsignal, Mailbox.signal, engineMachine]
      · simp [hsignal, Mailbox.signal]

/-- **The engine with its callers follows the protocol.** -/
theorem mirrors_simulated :
    (callerMachine P τ).SimulatedBy (protocolMachine τ) Mirrors := by
  rintro ⟨t, callers⟩ p act h
  cases act with
  | thread o =>
    obtain ⟨p', ⟨choices, hafter⟩, hshares, hpc⟩ := t.step_reaches P o p h.shares h.pc
    obtain ⟨hheld, hstage⟩ := Protocol.Leads.callers ⟨choices, hafter⟩
    refine ⟨choices.map .engine, ?_⟩
    rw [hafter]
    exact ⟨hshares, hpc, hheld.trans h.held, fun i => (hstage i).trans (h.stage i)⟩
  | call i c => exact ⟨[.call i c], h.call P i c⟩
  | next i => exact ⟨[.next i], h.next P i⟩

/-- **What the protocol promises holds of the engine**: however its callers and its thread are
    interleaved, an engine asleep with no call under way has nothing queued, and with an empty
    queue and no store on its way its state shows `armed_`. -/
theorem engine_rests (waiter : PreciseWaiter) (clock : ℤ) (acts : List (CallAct τ)) :
    let x := (callerMachine P τ).after (Thread.start P waiter clock, {}) acts
    x.1.loc = .idle →
      (x.1.e.cmdEvent = false → (∀ i, x.2.stage i = .idle) → x.1.e.queue = []) ∧
        (x.1.e.queue = [] → (∀ i, x.2.held i = none) →
          x.1.e.state = .ofArmed x.1.e.armed) := by
  intro x hidle
  obtain ⟨moves, hmirrors⟩ := Machine.SimulatedBy.run (callerMachine P τ) (mirrors_simulated P)
    (mirrors_start P waiter clock) acts
  have hsound := Protocol.Sound.after moves
  have hagrees := Protocol.Agrees.after moves
  generalize (protocolMachine τ).after {} moves = p at hmirrors hsound hagrees
  have hs := hmirrors.shares
  have hwaiting : p.pc = .waiting := by
    rw [hmirrors.pc]
    show x.1.loc.pc = _
    rw [hidle]
    rfl
  constructor
  · intro hevent hstages
    rcases hsound.awake hwaiting (hs.event.trans hevent) with hempty | ⟨i, hi⟩
    · exact hs.queue.symm.trans hempty
    · exact absurd ((hmirrors.stage i).trans (hstages i)) hi
  · intro hempty hheld
    have hrests : p.Rests :=
      ⟨hwaiting, hs.queue.trans hempty, fun i => (congrFun hmirrors.held i).trans (hheld i)⟩
    rw [← hs.state, ← hs.armed]
    exact (hagrees.rests hrests).2

end InfinityClicker
