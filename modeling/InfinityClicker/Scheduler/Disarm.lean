import InfinityClicker.Scheduler.EngineSteps

namespace InfinityClicker

open Machines

/-!
# Disarming and the press that starts a run

A monitor beside the engine follows the press a run comes from: `live` from the press on,
`disarmed` once an `Arm(false)` after it is consumed.

* `callsOff` — the rest of a batch takes a start back, or a new press replaces it;
* `Disarms`, `CalledOff` — a disarm while a press of the batch waits, and the condition on it;
* `Off.step` — under the condition a disarmed press never gets its run;
* `disarm_stops_press` — what follows for every run.

The run's own handler stops at every disarm.  The idle loop does not look at `armed_` again
after the batch, so a press and a disarm drained together start the run
(`disarm_in_batch_starts`).
-/

/-! ### The monitor -/

/-- The press behind the pending or running start: none (or a `StartRun`), a press, or a press
    that a disarm came after. -/
inductive Press where
  | none
  | live
  | disarmed
deriving DecidableEq, Repr

namespace Press

def disarm : Press → Press
  | .live => .disarmed
  | m => m

/-- A command in a run: only a disarm is about the press. -/
def afterRun (m : Press) : Command → Press
  | .arm false => m.disarm
  | _ => m

/-- A command in the idle loop. -/
def afterIdle (armed : Bool) (m : Press) : Command → Press
  | .triggerDown _ => if armed then .live else m
  | .startRun _ _ => .none
  | .arm false => m.disarm
  | _ => m

end Press

/-- The press after a move of the thread or of the others. -/
def watchPress (t : Thread) (m : Press) (_ : Act) (out : List Event) : Press :=
  match t.loc with
  | .commands _ _ => (commandsOf out).foldl (Press.afterIdle t.e.armed) m
  | _ => (commandsOf out).foldl Press.afterRun m

/-- The engine with the monitor. -/
def pressMachine (P : Platform) : Machine (Thread × Press) Act Event :=
  (engineMachine P).watch watchPress

/-! ### Disarms in a batch -/

/-- The mode a press is judged by: `hold` for Hold mode.  The rest of the batch takes the start
    back, or a press after a new `Arm(true)` replaces it. -/
def callsOff (hold armed : Bool) : List Command → Bool
  | [] => false
  | .setConfig cfg :: cs => callsOff (decide (cfg.mode.mode = .hold)) armed cs
  | .arm on :: cs => callsOff hold on cs
  | .triggerDown _ :: cs => armed || callsOff hold armed cs
  | .triggerUp _ :: cs => hold || callsOff hold armed cs
  | .resetTotals :: cs => callsOff hold armed cs
  | .startRun _ _ :: _ | .stopRun :: _ | .emergency _ :: _ | .quit :: _ => true

/-- The commands of the batch still to come. -/
def Loc.commandsLeft : Loc → List Command
  | .commands cs _ => cs
  | _ => []

/-- A press of the batch waits for its run. -/
def pressWaits (x : Thread × Press) : Bool :=
  match x.1.loc with
  | .commands _ b => b.start && !b.quit && decide (x.2 ≠ .none)
  | _ => false

def Engine.holdMode (e : Engine) : Bool := decide (e.cfg.mode.mode = .hold)

/-- This step clears `armed_` while a press of the batch waits. -/
def Disarms (x : Thread × Press) : Act → Bool
  | .storeArmed false => pressWaits x
  | .thread _ =>
    match x.1.loc with
    | .commands (.arm false :: _) _ => pressWaits x
    | _ => false
  | _ => false

/-- A waiting press that is disarmed is called off by the rest of its batch. -/
def CalledOff (x : Thread × Press) (act : Act) : Prop :=
  Disarms x act = true → callsOff x.1.e.holdMode false x.1.loc.commandsLeft = true

instance (x : Thread × Press) : DecidablePred (CalledOff x) :=
  fun _ => inferInstanceAs (Decidable (_ → _))

/-- Being armed can only help. -/
theorem callsOff_mono {hold : Bool} {cs : List Command} (armed : Bool)
    (h : callsOff hold false cs = true) : callsOff hold armed cs = true := by
  induction cs generalizing hold with
  | nil => exact absurd h (by simp [callsOff])
  | cons c cs ih =>
    cases c with
    | setConfig cfg => exact ih h
    | arm on => exact h
    | triggerDown qpc =>
      simp only [callsOff, Bool.or_eq_true] at h ⊢
      exact .inr (ih (h.resolve_left (by simp)))
    | triggerUp qpc =>
      simp only [callsOff, Bool.or_eq_true] at h ⊢
      exact h.imp_right ih
    | resetTotals => exact ih h
    | startRun limits qpc | stopRun | emergency qpc | quit => rfl

theorem Press.afterRun_disarmed {m : Press} {cs : List Command}
    (h : cs.foldl afterRun m = .disarmed) : m = .disarmed ∨ .arm false ∈ cs := by
  induction cs generalizing m with
  | nil => exact .inl h
  | cons c cs ih =>
    rcases ih h with hm | hmem
    · cases c with
      | arm on =>
        cases on with
        | true => exact .inl hm
        | false => exact .inr (by simp)
      | _ => exact .inl hm
    · exact .inr (List.mem_cons_of_mem _ hmem)

theorem pressWaits_commands (e : Engine) (cs : List Command) (b : Engine.Batch) (m : Press) :
    pressWaits (⟨e, .commands cs b⟩, m) = true ↔
      b.start = true ∧ b.quit = false ∧ m ≠ .none := by
  simp [pressWaits, and_assoc]

/-! ### Every step -/

/-- Where a press that was disarmed can be: in no run, and in a batch only if called off. -/
structure Off (x : Thread × Press) : Prop where
  run : x.2 = .disarmed → x.1.loc.inRun = false
  batch : pressWaits x = true → x.2 = .disarmed ∨ x.1.e.armed = false →
    callsOff x.1.e.holdMode x.1.e.armed x.1.loc.commandsLeft = true

/-- Away from the idle loop's batches a press that is not disarmed, or in no run, is fine. -/
theorem Off.of_elsewhere {t : Thread} {m : Press} (hbatch : pressWaits (t, m) = false)
    (hrun : m = .disarmed → t.loc.inRun = false) : Off (t, m) :=
  ⟨hrun, fun h => absurd h (by simp [hbatch])⟩

/-- In a run, and where it ends, no press waits. -/
theorem pressWaits_elsewhere {t : Thread} (m : Press)
    (h : t.loc = .idle ∨ t.loc = .ending ∨ t.loc = .done ∨ t.loc.inRun = true) :
    pressWaits (t, m) = false := by
  obtain ⟨e, loc⟩ := t
  cases loc with
  | commands cs b => simp [Loc.inRun] at h
  | _ => rfl

variable (P : Platform)

/-- One command of a batch. -/
theorem Off.command {e : Engine} {c : Command} {cs : List Command} {b : Engine.Batch} {m : Press}
    (h : Off (⟨e, .commands (c :: cs) b⟩, m)) {o : Obs}
    (hoff : CalledOff (⟨e, .commands (c :: cs) b⟩, m) (.thread o)) :
    Off (⟨(e.idleCommand P b o.release o.retry c).1,
      .commands cs (e.idleCommand P b o.release o.retry c).2⟩, Press.afterIdle e.armed m c) := by
  refine ⟨fun _ => rfl, fun hwaits hbad => ?_⟩
  obtain ⟨hstart, hquit, hm⟩ := (pressWaits_commands _ _ _ _).mp hwaits
  have hbefore := fun hs hq hm' hb =>
    h.batch ((pressWaits_commands _ _ _ _).mpr ⟨hs, hq, hm'⟩) hb
  simp only [Engine.idleCommand_armed] at hbad ⊢
  dsimp only [Loc.commandsLeft] at hbefore ⊢
  cases c with
  | setConfig cfg => exact hbefore hstart hquit hm hbad
  | arm on =>
    cases on with
    | true =>
      -- Armed again: only a press disarmed before is of concern.
      have hdisarmed := hbad.resolve_right (by simp [Engine.armedAfter])
      exact hbefore hstart hquit hm (.inl hdisarmed)
    | false =>
      -- The disarm itself: the condition on the step.
      have hm' : m ≠ .none := by
        rintro rfl
        exact hm rfl
      exact hoff ((pressWaits_commands _ _ _ _).mpr ⟨hstart, hquit, hm'⟩)
  | triggerDown qpc =>
    cases harmed : e.armed with
    | true => simp [Press.afterIdle, Engine.armedAfter, harmed] at hbad
    | false =>
      simp only [Engine.idleCommand, Press.afterIdle, harmed, Bool.false_eq_true, if_false]
        at hstart hquit hm hbad ⊢
      have hrest := hbefore hstart hquit hm (.inr harmed)
      simpa [callsOff, harmed, Engine.armedAfter] using hrest
  | triggerUp qpc =>
    simp only [Engine.idleCommand] at hstart hquit ⊢
    split at hstart
    · exact absurd hstart (by simp)
    · next hnot =>
      rw [if_neg hnot] at hquit ⊢
      have hrest := hbefore hstart hquit hm hbad
      -- The release did not take the start back, so this is not Hold mode.
      have hhold : e.holdMode = false := by
        simpa [Engine.holdMode] using fun hh => hnot ⟨hstart, hh⟩
      simpa [callsOff, hhold, Engine.armedAfter] using hrest
  | startRun limits qpc => exact absurd rfl hm
  | stopRun | emergency qpc => exact absurd hstart (by simp [Engine.idleCommand])
  | resetTotals => exact hbefore hstart hquit hm hbad
  | quit => exact absurd hquit (by simp [Engine.idleCommand])

/-- A step inside a run: the press is not disarmed before it, and a disarm ends the run. -/
theorem Off.stepRun {t : Thread} {m : Press} (h : Off (t, m)) (hrun : t.loc.inRun = true)
    (o : Obs) : Off ((t.step P o).1, watchPress t m (.thread o) (t.step P o).2) := by
  have hm : m ≠ .disarmed := fun hd => absurd (h.run hd) (by simp [hrun])
  have hwatch : watchPress t m (.thread o) (t.step P o).2 =
      (commandsOf (t.step P o).2).foldl Press.afterRun m := by
    obtain ⟨e, loc⟩ := t
    cases loc with
    | commands cs b => exact absurd hrun (by simp [Loc.inRun])
    | _ => rfl
  -- In or at the end of a run nothing waits.
  have hwaits : ∀ m', (t.step P o).1.loc = .ending ∨ (t.step P o).1.loc.inRun = true →
      pressWaits ((t.step P o).1, m') = false := by
    rintro m' (hloc | hloc)
    · exact pressWaits_elsewhere _ (.inr (.inl hloc))
    · exact pressWaits_elsewhere _ (.inr (.inr (.inr hloc)))
  rw [hwatch]
  cases hpoll : t.loc.polls with
  | true =>
    obtain ⟨e', -, hp⟩ := t.step_poll P hpoll o
    rw [hp.commands]
    refine Off.of_elsewhere (hwaits _ hp.loc) fun hd => ?_
    -- Disarmed in this poll: it consumed an `Arm(false)`, which stops the run.
    have hmem := (Press.afterRun_disarmed hd).resolve_left hm
    rw [hp.stop (e'.poll_disarm hmem)]
    rfl
  | false =>
    have hq := t.step_quiet P hrun hpoll o
    rw [t.quiet_commands P hrun hpoll o]
    exact Off.of_elsewhere (hwaits _ hq.loc) fun hd => absurd hd hm

/-- A step inside a batch or at its end. -/
theorem Off.stepCommands {e : Engine} {cmds : List Command} {b : Engine.Batch} {m : Press}
    (h : Off (⟨e, .commands cmds b⟩, m)) {o : Obs}
    (hoff : CalledOff (⟨e, .commands cmds b⟩, m) (.thread o)) :
    Off ((e.stepCommands P cmds b o).1,
      watchPress ⟨e, .commands cmds b⟩ m (.thread o) (e.stepCommands P cmds b o).2) := by
  cases cmds with
  | cons c cs =>
    obtain ⟨hstep, hcommands, -⟩ := e.stepCommands_cons P c cs b o
    have hwatch : watchPress ⟨e, .commands (c :: cs) b⟩ m (.thread o)
        (e.stepCommands P (c :: cs) b o).2 = Press.afterIdle e.armed m c := by
      simp [watchPress, hcommands]
    rw [hwatch, hstep]
    exact h.command P hoff
  | nil =>
    obtain ⟨-, hcommands, hways⟩ := e.stepCommands_nil P b o
    have hwatch : watchPress ⟨e, .commands [] b⟩ m (.thread o) (e.stepCommands P [] b o).2 = m := by
      simp [watchPress, hcommands]
    rw [hwatch]
    -- The end of the batch: Quit ends the thread, nothing waited, or a run begins.
    rcases hways with ⟨-, hloc, -⟩ | ⟨-, -, hloc, -⟩ | ⟨hquit, hstart, hloc⟩
    · refine Off.of_elsewhere (pressWaits_elsewhere _ (.inr (.inr (.inl hloc)))) fun _ => ?_
      rw [hloc]
      rfl
    · refine Off.of_elsewhere (pressWaits_elsewhere _ (.inl hloc)) fun _ => ?_
      rw [hloc]
      rfl
    · refine Off.of_elsewhere (pressWaits_elsewhere _ ?_) fun hd => ?_
      · rcases hloc with hloc | hloc | hloc
        · exact .inl hloc
        · exact .inr (.inl hloc)
        · exact .inr (.inr (.inr hloc))
      · -- A disarmed press still waiting at the end of its batch was not called off.
        have hwaits : pressWaits (⟨e, .commands [] b⟩, m) = true :=
          (pressWaits_commands _ _ _ _).mpr ⟨hstart, hquit, by rw [hd]; simp⟩
        exact absurd (h.batch hwaits (.inl hd)) (by simp [Loc.commandsLeft, callsOff])

/-- **Every step keeps a disarmed press off**, as long as disarmed presses are called off. -/
theorem Off.step {x : Thread × Press} (h : Off x) {act : Act} (hoff : CalledOff x act) :
    Off ((pressMachine P).next x act) := by
  obtain ⟨⟨e, loc⟩, m⟩ := x
  have hothers : ∀ act, watchPress ⟨e, loc⟩ m act [] = m := by
    intro act
    unfold watchPress
    split <;> rfl
  cases act with
  | push c =>
    show Off (⟨{ e with queue := e.queue ++ [c] }, loc⟩, watchPress ⟨e, loc⟩ m (.push c) [])
    rw [hothers]
    exact ⟨h.run, h.batch⟩
  | storeFlag =>
    show Off (⟨{ e with cmdFlag := true }, loc⟩, watchPress ⟨e, loc⟩ m .storeFlag [])
    rw [hothers]
    exact ⟨h.run, h.batch⟩
  | setEvent =>
    show Off (⟨{ e with cmdEvent := true }, loc⟩, watchPress ⟨e, loc⟩ m .setEvent [])
    rw [hothers]
    exact ⟨h.run, h.batch⟩
  | storeArmed on =>
    show Off (⟨{ e with armed := on }, loc⟩, watchPress ⟨e, loc⟩ m (.storeArmed on) [])
    rw [hothers]
    refine ⟨h.run, fun hwaits hbad => ?_⟩
    cases on with
    | false => exact hoff hwaits
    | true =>
      -- Arming again does not undo the disarm of the press.
      have hbefore : callsOff e.holdMode e.armed loc.commandsLeft = true :=
        h.batch hwaits (.inl (hbad.resolve_right (by simp)))
      show callsOff e.holdMode true loc.commandsLeft = true
      cases harmed : e.armed with
      | true => rwa [harmed] at hbefore
      | false => exact callsOff_mono true (by rwa [harmed] at hbefore)
  | thread o =>
    show Off ((Thread.step P ⟨e, loc⟩ o).1,
      watchPress ⟨e, loc⟩ m (.thread o) (Thread.step P ⟨e, loc⟩ o).2)
    by_cases hrun : loc.inRun = true
    · exact h.stepRun P hrun o
    · cases loc with
      | idle =>
        simp only [Thread.step]
        split
        · exact Off.of_elsewhere rfl fun _ => rfl
        · exact h
      | commands cmds b => exact h.stepCommands P hoff
      | ending =>
        obtain ⟨-, -, -, hloc, -, hcommands, -⟩ := Engine.stepEnding_spec (P := P) (e := e) o
        show Off ((e.stepEnding P o).1, (commandsOf (e.stepEnding P o).2).foldl Press.afterRun m)
        refine Off.of_elsewhere (pressWaits_elsewhere _ (.inl hloc)) fun _ => ?_
        rw [hloc]
        rfl
      | done => exact h
      | _ => exact absurd rfl hrun

/-! ### Every run -/

/-- What disarming promises of the state `x` that a run has reached. -/
structure PressStopped (x : Thread × Press) : Prop where
  /-- A press starts a run only with `armed_` still set at the end of its batch. -/
  starts : ∀ o q qEnd, .runStarted q qEnd ∈ (pressMachine P).out x (.thread o) → x.2 ≠ .none →
    x.1.e.armed = true
  /-- After its disarm the run of a press is not going on. -/
  notRunning : x.2 = .disarmed → x.1.loc.inRun = false
  /-- The step of the disarm and every step after it send no action and start no run. -/
  quiet : ∀ act, x.2 = .disarmed ∨ ((pressMachine P).next x act).2 = .disarmed →
    actionsOf ((pressMachine P).out x act) = []

/-- A run is started at the end of a batch, by a start that is still pending. -/
theorem runStarted_waits {e : Engine} {loc : Loc} {o : Obs} {q qEnd : ℤ}
    (h : .runStarted q qEnd ∈ (Thread.step P ⟨e, loc⟩ o).2) :
    ∃ b, loc = .commands [] b ∧ b.start = true ∧ b.quit = false := by
  have hplace := Thread.step_emits P ⟨e, loc⟩ o _ h
  have hnot : actionsOf (Thread.step P ⟨e, loc⟩ o).2 ≠ [] :=
    List.ne_nil_of_mem (List.mem_filter.mpr ⟨h, rfl⟩)
  cases loc with
  | commands cmds b =>
    cases cmds with
    | cons c cs => exact absurd (e.stepCommands_cons P c cs b o).2.2 hnot
    | nil =>
      rcases (e.stepCommands_nil P b o).2.2 with ⟨-, -, hev⟩ | ⟨-, -, -, -, -, hev⟩ |
        ⟨hquit, hstart, -⟩
      · exact absurd hev hnot
      · exact absurd hev hnot
      · exact ⟨b, rfl, hstart, hquit⟩
  | _ => exact absurd hplace (by simp [Loc.emits])

/-- A press that starts a run at the end of its batch finds the engine armed, and was not
    disarmed. -/
theorem Off.starts {e : Engine} {b : Engine.Batch} {m : Press}
    (h : Off (⟨e, .commands [] b⟩, m)) (hstart : b.start = true) (hquit : b.quit = false)
    (hm : m ≠ .none) : m ≠ .disarmed ∧ e.armed = true := by
  have hwaits := (pressWaits_commands e [] b m).mpr ⟨hstart, hquit, hm⟩
  refine ⟨fun hd => ?_, by_contra fun harmed => ?_⟩
  · exact absurd (h.batch hwaits (.inl hd)) (by simp [Loc.commandsLeft, callsOff])
  · have hoff : e.armed = false := by simpa using harmed
    exact absurd (h.batch hwaits (.inr hoff)) (by simp [Loc.commandsLeft, callsOff])

/-- After the disarm of a press the next step sends no action and starts no run. -/
theorem Off.quiet {x : Thread × Press} (h : Off x) (hd : x.2 = .disarmed) (act : Act) :
    actionsOf ((pressMachine P).out x act) = [] := by
  obtain ⟨⟨e, loc⟩, m⟩ := x
  cases act with
  | push c | storeFlag | setEvent | storeArmed on => rfl
  | thread o =>
    have hrun : loc.inRun = false := h.run hd
    cases loc with
    | commands cmds b =>
      cases cmds with
      | cons c cs => exact (e.stepCommands_cons P c cs b o).2.2
      | nil =>
        rcases (e.stepCommands_nil P b o).2.2 with ⟨-, -, hev⟩ | ⟨-, -, -, -, -, hev⟩ |
          ⟨hquit, hstart, -⟩
        · exact hev
        · exact hev
        · have hm : m ≠ .none := by
            rw [show m = .disarmed from hd]
            simp
          exact absurd hd (h.starts hstart hquit hm).1
    | idle | ending | done =>
      exact Thread.no_actions P o fun ev hev => by cases ev <;> simp_all [Loc.emits]
    | _ => exact absurd hrun (by simp [Loc.inRun])

/-- Becoming disarmed takes a command. -/
theorem consumes_of_disarmed (t : Thread) {m : Press} (hm : m ≠ .disarmed) (o : Obs)
    (hnext : watchPress t m (.thread o) (t.step P o).2 = .disarmed) :
    commandsOf (t.step P o).2 ≠ [] := by
  intro hnone
  unfold watchPress at hnext
  rw [hnone] at hnext
  split at hnext <;> exact hm hnext

/-- **Disarming stops the press.**  In every run in which disarmed presses of a batch are called
    off: a press starts a run only while armed at the end of its batch, and after its disarm its
    run is not going on, is not started, and sends nothing. -/
theorem disarm_stops_press (waiter : PreciseWaiter) (clock : ℤ) (acts : List Act)
    (hoff : (pressMachine P).Meets CalledOff (Thread.start P waiter clock, .none) acts) :
    PressStopped P ((pressMachine P).after (Thread.start P waiter clock, .none) acts) := by
  have hstart : Off (Thread.start P waiter clock, .none) :=
    Off.of_elsewhere rfl fun h => absurd h (by simp)
  have h := (pressMachine P).invariant_of_meets (fun x act hx hact => hx.step P hact) hstart hoff
  generalize (pressMachine P).after (Thread.start P waiter clock, .none) acts = x at h
  obtain ⟨⟨e, loc⟩, m⟩ := x
  refine ⟨fun o q qEnd hq hm => ?_, h.run, fun act hor => ?_⟩
  · have hstarted : .runStarted q qEnd ∈ (Thread.step P ⟨e, loc⟩ o).2 := hq
    obtain ⟨b, hloc, hgo, hquit⟩ := runStarted_waits P hstarted
    subst hloc
    exact (h.starts hgo hquit hm).2
  · by_cases hd : m = .disarmed
    · exact h.quiet P hd act
    · have hnext := hor.resolve_left hd
      cases act with
      | push c | storeFlag | setEvent | storeArmed on => rfl
      | thread o => exact Thread.step_consumes P _ o (consumes_of_disarmed P _ hd o hnext)

/-- A press, and its disarm after the run has begun. -/
def disarmedRun : List Act :=
  Act.arm true ++ Act.post (.triggerDown 5) ++ Act.steps 9 ++ Act.arm false ++ Act.steps 1

/-- The run of the press is called off by its disarm. -/
theorem disarmedRun_stopped :
    ((pressMachine .tenMegahertz).after (Thread.start .tenMegahertz {} 1000000000, .none)
        disarmedRun).2 = .disarmed ∧
      PressStopped .tenMegahertz ((pressMachine .tenMegahertz).after
        (Thread.start .tenMegahertz {} 1000000000, .none) disarmedRun) :=
  ⟨by decide +kernel,
    disarm_stops_press .tenMegahertz {} 1000000000 disarmedRun (by decide +kernel)⟩

/-- Armed, pressed and disarmed before the thread wakes up: one batch, to its end. -/
def disarmInBatch : List Act :=
  Act.arm true ++ Act.post (.triggerDown 5) ++ Act.arm false ++ Act.steps 5

/-- A press and its disarm in the same batch of the idle loop: the run is started. -/
theorem disarm_in_batch_starts :
    ¬ ∀ acts : List Act, PressStopped .tenMegahertz ((pressMachine .tenMegahertz).after
        (Thread.start .tenMegahertz {} 1000000000, .none) acts) := by
  intro hall
  have hrun : ((pressMachine .tenMegahertz).after
        (Thread.start .tenMegahertz {} 1000000000, .none) disarmInBatch).2 = .disarmed ∧
      ((pressMachine .tenMegahertz).after (Thread.start .tenMegahertz {} 1000000000, .none)
        disarmInBatch).1.loc.inRun = true := by decide +kernel
  have hno := (hall disarmInBatch).notRunning hrun.1
  rw [hrun.2] at hno
  exact absurd hno (by simp)

end InfinityClicker
