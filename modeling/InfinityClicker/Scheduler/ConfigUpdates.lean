import InfinityClicker.Core.Mailbox
import InfinityClicker.Scheduler.ThreadMoves

namespace InfinityClicker

open Machines Mailboxes

/-!
# Configurations arrive

A configuration is posted as a command, waits as `pendingCfg_` while a run is on, and is applied
in the idle loop, at an action boundary, in the MAX loop or at the end of the run.

* `lastConfig` — the configuration of the last `SetConfig` of a list of commands;
* `Engine.Built` — the programs are what `rebuildProgram` computes from the configuration;
* `Thread.Follows` — wherever a configuration waits, the newest of them is the last posted;
* `Loc.betweenActions` — where a run takes up other programs;
* `config_converges` — at rest the engine has the last configuration and its programs, and in a
  run the programs change at action boundaries alone.
-/

/-! ### The last configuration -/

/-- The configuration a command carries. -/
@[simp] def Command.cfg? : Command → Option EngineConfig
  | .setConfig c => some c
  | _ => none

/-- The configuration of the last `SetConfig`, `c` when there is none. -/
def lastConfig (c : EngineConfig) (cmds : List Command) : EngineConfig :=
  lastOf Command.cfg? c cmds

/-- The commands pushed by a list of acts, in order. -/
def pushedBy (acts : List Act) : List Command :=
  acts.filterMap fun
    | .push c => some c
    | _ => none

/-- What is pushed, piece by piece. -/
theorem pushedBy_append (a b : List Act) : pushedBy (a ++ b) = pushedBy a ++ pushedBy b :=
  List.filterMap_append

/-- Without a command the configuration stays. -/
@[simp] theorem lastConfig_nil (c : EngineConfig) : lastConfig c [] = c := rfl

/-- The last configuration is found piece by piece. -/
theorem lastConfig_append (c : EngineConfig) (a b : List Command) :
    lastConfig c (a ++ b) = lastConfig (lastConfig c a) b := lastOf_append _ c a b

/-- The first command decides for the later ones. -/
theorem lastConfig_cons (c : EngineConfig) (cmd : Command) (cmds : List Command) :
    lastConfig c (cmd :: cmds) = lastConfig (cmd.cfg?.getD c) cmds := lastOf_cons _ c cmd cmds

namespace Engine

variable (P : Platform) (e : Engine)

/-- The configuration on its way: the pending one before the one in use. -/
def latest : EngineConfig := e.pendingCfg.getD e.cfg

/-- The programs are those of the configuration. -/
structure Built : Prop where
  prog : e.prog = (e.rebuildProgram P).prog
  maxProg : e.maxProg = (e.rebuildProgram P).maxProg
  downTimeClamped : e.downTimeClamped = (e.rebuildProgram P).downTimeClamped

/-- What `rebuildProgram` computes depends on the configuration alone. -/
theorem rebuildProgram_congr {e e' : Engine} (h : e'.cfg = e.cfg) :
    (e'.rebuildProgram P).prog = (e.rebuildProgram P).prog ∧
      (e'.rebuildProgram P).maxProg = (e.rebuildProgram P).maxProg ∧
      (e'.rebuildProgram P).downTimeClamped = (e.rebuildProgram P).downTimeClamped := by
  unfold rebuildProgram
  rw [h]
  exact ⟨rfl, rfl, rfl⟩

/-- Programs compiled from a configuration stay right while nothing changes them. -/
theorem Built.congr {e e' : Engine} (h : e.Built P) (hcfg : e'.cfg = e.cfg)
    (hprog : e'.prog = e.prog) (hmax : e'.maxProg = e.maxProg)
    (hclamped : e'.downTimeClamped = e.downTimeClamped) : e'.Built P := by
  obtain ⟨hp, hm, hc⟩ := rebuildProgram_congr P hcfg
  exact ⟨by rw [hprog, hp]; exact h.prog, by rw [hmax, hm]; exact h.maxProg,
    by rw [hclamped, hc]; exact h.downTimeClamped⟩

/-- What keeps configuration and programs keeps them built. -/
theorem Keeps.built {e e' : Engine} (h : e.Keeps e') (hb : e.Built P) : e'.Built P :=
  hb.congr P h.cfg h.prog h.maxProg h.downTimeClamped

/-- `rebuildProgram` gives the programs of the configuration. -/
theorem rebuildProgram_built : (e.rebuildProgram P).Built P := by
  obtain ⟨hp, hm, hc⟩ := rebuildProgram_congr P (show (e.rebuildProgram P).cfg = e.cfg from rfl)
  exact ⟨hp.symm, hm.symm, hc.symm⟩

/-- An applied configuration is built. -/
theorem applyConfig_built (c : EngineConfig) : (e.applyConfig P c).Built P :=
  rebuildProgram_built P _

/-- A pending configuration takes its place with its programs. -/
theorem applyPending_spec (hb : e.Built P) :
    (e.applyPending P).Built P ∧ (e.applyPending P).cfg = e.latest ∧
      (e.applyPending P).pendingCfg = none := by
  unfold applyPending latest
  cases hpending : e.pendingCfg with
  | none => exact ⟨hb, rfl, hpending⟩
  | some c =>
    have hc := e.applyConfig_built P c
    exact ⟨⟨hc.prog, hc.maxProg, hc.downTimeClamped⟩, rfl, rfl⟩

/-- Applying takes nothing out of the queue. -/
theorem applyPending_queue : (e.applyPending P).queue = e.queue := by
  unfold applyPending
  split <;> rfl

/-- A waiting configuration changes no program. -/
theorem Built.pending {e : Engine} (h : e.Built P) (c : Option EngineConfig) :
    ({ e with pendingCfg := c } : Engine).Built P := ⟨h.prog, h.maxProg, h.downTimeClamped⟩

/-! ### Commands -/

/-- In the idle loop a configuration is applied at once. -/
theorem idleCommand_config (hb : e.Built P) (b : Batch) (r retry : SendResult) (c : Command) :
    (e.idleCommand P b r retry c).1.Built P ∧
      (e.idleCommand P b r retry c).1.cfg = c.cfg?.getD e.cfg ∧
      (e.idleCommand P b r retry c).1.pendingCfg = e.pendingCfg ∧
      (e.idleCommand P b r retry c).1.queue = e.queue := by
  have hsame : ∀ e' : Engine, e.Keeps e' → e'.Built P := fun _ h => h.built P hb
  cases c with
  | setConfig cfg => exact ⟨e.applyConfig_built P cfg, rfl, rfl, rfl⟩
  | triggerDown qpc =>
    rw [idleCommand_triggerDown]
    exact ⟨hb, rfl, rfl, rfl⟩
  | triggerUp qpc =>
    rw [idleCommand_triggerUp]
    exact ⟨hb, rfl, rfl, rfl⟩
  | arm on | emergency qpc | resetTotals =>
    exact ⟨⟨hb.prog, hb.maxProg, hb.downTimeClamped⟩, rfl, rfl, rfl⟩
  | startRun limits qpc | stopRun | quit => exact ⟨hb, rfl, rfl, rfl⟩

/-- `Quit` is remembered to the end of the batch. -/
theorem idleCommand_quit (b : Batch) (r retry : SendResult) (c : Command) :
    (e.idleCommand P b r retry c).2.quit = (b.quit || decide (c = .quit)) := by
  cases c with
  | triggerDown qpc =>
    simp only [idleCommand]
    split
    · split <;> simp
    · simp
  | triggerUp qpc =>
    simp only [idleCommand]
    split <;> simp
  | _ => simp [idleCommand]

/-- During a run a configuration only waits. -/
theorem runCommand_latest (c : Command) : (e.runCommand c).latest = c.cfg?.getD e.latest := by
  cases c with
  | arm on => cases on <;> rfl
  | triggerDown qpc =>
    obtain ⟨run, -, -, heq⟩ := e.runCommand_triggerDown qpc
    rw [heq]
    rfl
  | triggerUp qpc =>
    obtain ⟨run, -, -, heq⟩ := e.runCommand_triggerUp qpc
    rw [heq]
    rfl
  | _ => rfl

/-- The programs stay whatever is consumed. -/
theorem runCommand_built {e : Engine} (hb : e.Built P) (c : Command) :
    (e.runCommand c).Built P := by
  have hclamped : (e.runCommand c).downTimeClamped = e.downTimeClamped := by
    cases c with
    | arm on => cases on <;> rfl
    | triggerDown qpc =>
      obtain ⟨run, -, -, heq⟩ := e.runCommand_triggerDown qpc
      rw [heq]
    | triggerUp qpc =>
      obtain ⟨run, -, -, heq⟩ := e.runCommand_triggerUp qpc
      rw [heq]
    | _ => rfl
  obtain ⟨-, hcfg, hprog, hmax, -⟩ := e.runCommand_frame c
  exact hb.congr P hcfg hprog hmax hclamped

/-- Only `Quit` puts something into the queue. -/
theorem runCommand_queue {c : Command} (hc : c ≠ .quit) : (e.runCommand c).queue = e.queue := by
  cases c with
  | quit => exact absurd rfl hc
  | arm on => cases on <;> rfl
  | triggerDown qpc =>
    obtain ⟨run, -, -, heq⟩ := e.runCommand_triggerDown qpc
    rw [heq]
  | triggerUp qpc =>
    obtain ⟨run, -, -, heq⟩ := e.runCommand_triggerUp qpc
    rw [heq]
  | _ => rfl

/-- Commands in a run build nothing. -/
theorem runCommands_built {e : Engine} (hb : e.Built P) (cs : List Command) :
    (e.runCommands cs).Built P := by
  fun_induction runCommands e cs with
  | case1 e => exact hb
  | case2 e => exact runCommand_built P hb .quit
  | case3 e c cs _ ih => exact ih (runCommand_built P hb c)

/-- **A batch in a run**: the newest configuration waits, unless `Quit` came, which is queued
    again. -/
theorem runCommands_latest (cs : List Command) :
    (e.runCommands cs).latest = lastConfig e.latest cs ∧ (e.runCommands cs).queue = e.queue ∨
      .quit ∈ (e.runCommands cs).queue := by
  fun_induction runCommands e cs with
  | case1 e => exact .inl ⟨rfl, rfl⟩
  | case2 e => exact .inr (by simp [runCommand, post])
  | case3 e c cs hquit ih =>
    rw [e.runCommand_queue hquit, e.runCommand_latest, ← lastConfig_cons] at ih
    exact ih

/-- A `Quit` of the batch is queued again. -/
theorem runCommands_quit {cs : List Command} (h : .quit ∈ cs) :
    .quit ∈ (e.runCommands cs).queue := by
  fun_induction runCommands e cs with
  | case1 e => exact absurd h (by simp)
  | case2 e => simp [runCommand, post]
  | case3 e c cs hquit ih =>
    exact ih ((List.mem_cons.mp h).resolve_left (Ne.symm hquit))

/-- **The poll loses no configuration**: what was the newest still is, or the thread quits. -/
theorem poll_latest :
    lastConfig e.poll.1.latest e.poll.1.queue = lastConfig e.latest e.queue ∨
      .quit ∈ e.poll.1.queue := by
  unfold poll
  split
  · rcases e.drained.runCommands_latest e.queue with ⟨hlatest, hqueue⟩ | hquit
    · refine .inl ?_
      show lastConfig (e.drained.runCommands e.queue).latest
        (e.drained.runCommands e.queue).queue = _
      rw [hlatest, hqueue]
      rfl
    · exact .inr hquit
  · exact .inl rfl

/-- A poll leaves Quit in the queue. -/
theorem poll_quit (h : .quit ∈ e.queue) : .quit ∈ e.poll.1.queue := by
  unfold poll
  split
  · exact e.drained.runCommands_quit h
  · exact h

/-- A poll builds nothing. -/
theorem poll_built {e : Engine} (hb : e.Built P) : e.poll.1.Built P := by
  unfold poll
  split
  · have hdrained : e.drained.Built P := ⟨hb.prog, hb.maxProg, hb.downTimeClamped⟩
    exact runCommands_built P hdrained e.queue
  · exact hb

end Engine

/-! ### Wherever a configuration waits -/

namespace Loc

/-- The drained commands still to come. -/
def batch : Loc → List Command
  | .commands cmds _ => cmds
  | _ => []

/-- A batch that has met `Quit`. -/
def quits : Loc → Bool
  | .commands _ b => b.quit
  | _ => false

/-- Between an idle wait and the start of a run. -/
def resting : Loc → Bool
  | .idle | .commands _ _ => true
  | _ => false

/-- Outside a batch there is none, and no `Quit` was met. -/
theorem batch_of_not_commands {loc : Loc} (h : ∀ cmds b, loc ≠ .commands cmds b) :
    loc.batch = [] ∧ loc.quits = false := by
  cases loc with
  | commands cmds b => exact absurd rfl (h cmds b)
  | _ => exact ⟨rfl, rfl⟩

/-- A run is no rest and has no batch. -/
theorem of_inRun {loc : Loc} (h : loc = .ending ∨ loc.inRun = true) :
    loc.batch = [] ∧ loc.quits = false ∧ loc.resting = false ∧ loc ≠ .done := by
  cases loc <;> simp_all [inRun, batch, quits, resting]

/-- The engine polls in its runs. -/
theorem inRun_of_polls {loc : Loc} (h : loc.polls = true) : loc.inRun = true := by
  cases loc <;> simp_all [inRun, polls]

/-- It takes over configurations in its runs. -/
theorem inRun_of_configures {loc : Loc} (h : loc.configures = true) : loc.inRun = true := by
  cases loc <;> simp_all [inRun, configures]

end Loc

variable (P : Platform)

/-- The thread is on its way to its return: `Quit` is in the queue, or was met. -/
def Thread.Quits (t : Thread) : Prop :=
  .quit ∈ t.loc.batch ++ t.e.queue ∨ t.loc.quits = true ∨ t.loc = .done

/-- The newest configuration on its way is `m`, nothing is pending outside a run, and the
    programs are those of the configuration in use. -/
structure Thread.Follows (t : Thread) (m : EngineConfig) : Prop where
  built : t.e.Built P
  settled : t.loc.resting = true → t.e.pendingCfg = none
  latest : t.Quits ∨ lastConfig t.e.latest (t.loc.batch ++ t.e.queue) = m

namespace Thread.Follows

variable {P} {t t' : Thread} {m : EngineConfig}

/-- What is said of an engine is said of one that keeps its configurations and its queue. -/
theorem of_keeps {e : Engine} (hb : e.Built P) (hkeeps : e.Keeps t'.e)
    (hloc' : t'.loc.batch = []) (hsettled : t'.loc.resting = true → e.pendingCfg = none)
    (hlatest : .quit ∈ e.queue ∨ lastConfig e.latest e.queue = m) : t'.Follows P m := by
  refine ⟨hkeeps.built P hb, fun hrest => hkeeps.pendingCfg.trans (hsettled hrest), ?_⟩
  have hsame : t'.e.latest = e.latest := by
    rw [Engine.latest, hkeeps.pendingCfg, hkeeps.cfg, Engine.latest]
  unfold Thread.Quits
  rw [hloc', hkeeps.queue, hsame]
  rcases hlatest with hquit | hlast
  · exact .inl (.inl hquit)
  · exact .inr hlast

/-- At a place with no batch the queue alone decides. -/
theorem queued (h : t.Follows P m) (hbatch : t.loc.batch = []) (hquits : t.loc.quits = false)
    (hdone : t.loc ≠ .done) : .quit ∈ t.e.queue ∨ lastConfig t.e.latest t.e.queue = m := by
  have hlatest := h.latest
  rw [hbatch] at hlatest
  rcases hlatest with (hquit | hq | hd) | hlast
  · rw [hbatch] at hquit
    exact .inl hquit
  · exact absurd hq (by simp [hquits])
  · exact absurd hd hdone
  · exact .inr hlast

/-- A command of an idle batch. -/
theorem command (h : t.Follows P m) {c : Command} {cs : List Command} {b : Engine.Batch}
    (hloc : t.loc = .commands (c :: cs) b) (o : Obs) :
    Thread.Follows P ⟨(t.e.idleCommand P b o.release o.retry c).1,
      .commands cs (t.e.idleCommand P b o.release o.retry c).2⟩ m := by
  obtain ⟨hbuilt, hcfg, hpending, hqueue⟩ :=
    t.e.idleCommand_config P h.built b o.release o.retry c
  have hnone : t.e.pendingCfg = none := h.settled (by rw [hloc]; rfl)
  have hquit := t.e.idleCommand_quit P b o.release o.retry c
  refine ⟨hbuilt, fun _ => hpending.trans hnone, ?_⟩
  have hlatest := h.latest
  unfold Thread.Quits at hlatest ⊢
  simp only [hloc, Loc.batch, Loc.quits, List.cons_append, lastConfig_cons, reduceCtorEq,
    or_false, List.mem_cons] at hlatest ⊢
  rw [hqueue, hquit, Bool.or_eq_true, decide_eq_true_eq]
  simp only [Engine.latest, hpending, hnone, hcfg, Option.getD_none] at hlatest ⊢
  rcases hlatest with ((hc | hmem) | hbefore) | hlast
  · exact .inl (.inr (.inr hc.symm))
  · exact .inl (.inl hmem)
  · exact .inl (.inr (.inl hbefore))
  · exact .inr hlast

/-- **Every step of the thread keeps the configurations in order.** -/
theorem step (h : t.Follows P m) (o : Obs) : (t.step P o).1.Follows P m := by
  cases t.step_moves P o with
  | sleeps hloc hevent heq => rw [heq]; exact h
  | stays hloc heq => rw [heq]; exact h
  | wakes hloc hevent heq =>
    rw [heq]
    have hnot : ∀ cmds b, t.loc ≠ .commands cmds b := by simp [hloc]
    obtain ⟨hbatch, hquits⟩ := Loc.batch_of_not_commands hnot
    have hlatest := h.queued hbatch hquits (by simp [hloc])
    refine ⟨⟨h.built.prog, h.built.maxProg, h.built.downTimeClamped⟩,
      fun _ => h.settled (by rw [hloc]; rfl), ?_⟩
    -- The whole queue becomes the batch.
    show (_ ∨ _ ∨ _) ∨ lastConfig t.e.latest (t.e.queue ++ []) = m
    rw [List.append_nil]
    rcases hlatest with hquit | hlast
    · exact .inl (.inl (by simpa [Loc.batch, Engine.drained] using hquit))
    · exact .inr hlast
  | command hloc heq => rw [heq]; exact h.command hloc o
  | returns hloc hquit hkeeps hstate hloc' =>
    refine ⟨hkeeps.built P h.built, fun hrest => absurd hrest (by simp [hloc', Loc.resting]), ?_⟩
    exact .inl (.inr (.inr hloc'))
  | rests hloc hquit hstart hkeeps hstate hloc' =>
    refine of_keeps h.built hkeeps (by rw [hloc']; rfl)
      (fun _ => h.settled (by rw [hloc]; rfl)) ?_
    have hlatest := h.latest
    simpa [Thread.Quits, hloc, Loc.batch, Loc.quits, hquit] using hlatest
  | starts hloc hquit hstart hok hkeeps hstate hloc' =>
    obtain ⟨hbatch', -, hrest', -⟩ := Loc.of_inRun hloc'
    refine of_keeps h.built hkeeps hbatch' (fun hr => absurd hr (by simp [hrest'])) ?_
    have hlatest := h.latest
    simpa [Thread.Quits, hloc, Loc.batch, Loc.quits, hquit] using hlatest
  | polls hloc e he hkeeps hstate hstop hgo =>
    obtain ⟨hbatch, hquits, -, hdone⟩ := Loc.of_inRun (.inr (Loc.inRun_of_polls hloc))
    have hloc' : (t.step P o).1.loc = .ending ∨ (t.step P o).1.loc.inRun = true := by
      cases hs : e.poll.2.2 with
      | true => exact .inl (hstop hs).1
      | false => exact .inr (hgo hs)
    obtain ⟨hbatch', -, hrest', -⟩ := Loc.of_inRun hloc'
    -- The engine as it polls is the one before the step, up to the clock and the event.
    have hbuilt : e.Built P := by
      rcases he with rfl | ⟨-, rfl⟩
      · exact h.built
      · exact ⟨h.built.prog, h.built.maxProg, h.built.downTimeClamped⟩
    have hqueued : .quit ∈ e.queue ∨ lastConfig e.latest e.queue = m := by
      rcases he with rfl | ⟨-, rfl⟩
      · exact h.queued hbatch hquits hdone
      · exact h.queued hbatch hquits hdone
    refine of_keeps (Engine.poll_built P hbuilt) hkeeps hbatch'
      (fun hr => absurd hr (by simp [hrest'])) ?_
    rcases hqueued with hquit | hlast
    · exact .inl (e.poll_quit hquit)
    · rcases e.poll_latest with hsame | hquit
      · exact .inr (hsame.trans hlast)
      · exact .inl hquit
  | applies hloc hpending hkeeps hstate hloc' =>
    obtain ⟨hbatch, hquits, -, hdone⟩ := Loc.of_inRun (.inr (Loc.inRun_of_configures hloc))
    obtain ⟨hbatch', -, hrest', -⟩ := Loc.of_inRun hloc'
    obtain ⟨hbuilt, hcfg, hnone⟩ := t.e.applyPending_spec P h.built
    refine of_keeps hbuilt hkeeps hbatch' (fun _ => hnone) ?_
    rw [t.e.applyPending_queue P, Engine.latest, hnone, hcfg]
    exact h.queued hbatch hquits hdone
  | runs hrun hpoll event hevent hkeeps hstate hloc' =>
    obtain ⟨hbatch, hquits, -, hdone⟩ := Loc.of_inRun (.inr hrun)
    obtain ⟨hbatch', -, hrest', -⟩ := Loc.of_inRun hloc'
    have hbuilt : ({ t.e with cmdEvent := event } : Engine).Built P :=
      ⟨h.built.prog, h.built.maxProg, h.built.downTimeClamped⟩
    refine of_keeps hbuilt hkeeps hbatch' (fun hr => absurd hr (by simp [hrest'])) ?_
    exact h.queued hbatch hquits hdone
  | ends hloc hkeeps hstate hloc' =>
    obtain ⟨hbatch, hquits, -, hdone⟩ := Loc.of_inRun (.inl hloc)
    obtain ⟨hbuilt, hcfg, hnone⟩ := Engine.applyPending_spec P
      { t.e with runsCompleted := t.e.runsCompleted + 1 }
      ⟨h.built.prog, h.built.maxProg, h.built.downTimeClamped⟩
    refine of_keeps hbuilt hkeeps (by rw [hloc']; rfl) (fun _ => hnone) ?_
    rw [Engine.applyPending_queue P, Engine.latest, hnone, hcfg]
    exact h.queued hbatch hquits hdone

/-- A posted configuration is the newest. -/
theorem push (h : t.Follows P m) (c : Command) :
    Thread.Follows P ⟨{ t.e with queue := t.e.queue ++ [c] }, t.loc⟩ (c.cfg?.getD m) := by
  refine ⟨⟨h.built.prog, h.built.maxProg, h.built.downTimeClamped⟩, h.settled, ?_⟩
  rcases h.latest with (hquit | hq | hd) | hlast
  · exact .inl (.inl (by
      show _ ∈ t.loc.batch ++ (t.e.queue ++ [c])
      rw [← List.append_assoc]
      exact List.mem_append_left _ hquit))
  · exact .inl (.inr (.inl hq))
  · exact .inl (.inr (.inr hd))
  · refine .inr ?_
    show lastConfig t.e.latest (t.loc.batch ++ (t.e.queue ++ [c])) = _
    rw [← List.append_assoc, lastConfig_append, hlast, lastConfig_cons, lastConfig_nil]

/-- At startup the engine has the default configuration and its programs. -/
theorem start (waiter : PreciseWaiter) (clock : ℤ) :
    (Thread.start P waiter clock).Follows P {} := by
  have hbuilt := Engine.rebuildProgram_built P { waiter := waiter, clock := clock }
  have hkeeps := (Engine.rebuildProgram P { waiter := waiter, clock := clock }).keeps_publish P
    clock true
  refine ⟨hkeeps.built P hbuilt, fun _ => hkeeps.pendingCfg, .inr ?_⟩
  show lastConfig (Thread.start P waiter clock).e.latest
    ([] ++ (Thread.start P waiter clock).e.queue) = {}
  rw [show (Thread.start P waiter clock).e.queue = [] from hkeeps.queue, List.append_nil,
    lastConfig_nil, Engine.latest, show (Thread.start P waiter clock).e.pendingCfg = none from
      hkeeps.pendingCfg]
  exact hkeeps.cfg

end Thread.Follows

/-! ### Every run -/

/-- Only the boundary of an action leads to the pending configuration of a timed run. -/
theorem Thread.step_boundary (t : Thread) (o : Obs) {l : TimedLocals}
    (h : (t.step P o).1.loc = .timedConfig l) : l.step = 0 := by
  have hleads := t.step_leads P o
  rw [h] at hleads
  obtain ⟨e, loc⟩ := t
  cases loc with
  | timed l' =>
    simp only [Thread.step, Engine.stepTimed] at h
    split at h
    · exact absurd h (by simp)
    · split at h
      · next hzero =>
        obtain rfl := Loc.timedConfig.inj h
        exact hzero
      · exact absurd h (by simp)
  | _ => exact absurd hleads (by simp [Loc.leads])

/-- The places where a run takes up another program: the boundary of a timed action, and a round
    of a MAX run. -/
def Loc.betweenActions : Loc → Prop
  | .timedConfig l => l.step = 0
  | .maxConfig _ => True
  | _ => False

/-- A run looks for a pending configuration between actions only. -/
theorem Thread.configures_between (waiter : PreciseWaiter) (clock : ℤ) (acts : List Act) :
    ((engineMachine P).after (Thread.start P waiter clock) acts).loc.configures = true →
      ((engineMachine P).after (Thread.start P waiter clock) acts).loc.betweenActions := by
  refine (engineMachine P).invariant
    (I := fun t => t.loc.configures = true → t.loc.betweenActions) ?_
    (by simp [start, Loc.configures]) acts
  intro t act hinv
  cases act with
  | thread o =>
    intro hconf
    show (t.step P o).1.loc.betweenActions
    replace hconf : (t.step P o).1.loc.configures = true := hconf
    cases hloc : (t.step P o).1.loc with
    | timedConfig l => exact t.step_boundary P o hloc
    | maxConfig l => trivial
    | _ => simp [hloc, Loc.configures] at hconf
  | _ => exact hinv

/-- One act, of the thread or of another one. -/
theorem Thread.Follows.next {t : Thread} {m : EngineConfig} (h : t.Follows P m) (act : Act) :
    ((engineMachine P).next t act).Follows P (lastConfig m (pushedBy [act])) := by
  cases act with
  | push c =>
    show Follows P _ (lastConfig m [c])
    rw [lastConfig_cons, lastConfig_nil]
    exact h.push c
  | thread o => exact h.step o
  | storeFlag | setEvent | storeArmed on =>
    exact ⟨⟨h.built.prog, h.built.maxProg, h.built.downTimeClamped⟩, h.settled, h.latest⟩

/-- **The newest configuration is never lost**, whatever is posted and whatever the thread does. -/
theorem Thread.follows_after (waiter : PreciseWaiter) (clock : ℤ) (acts : List Act) :
    ((engineMachine P).after (Thread.start P waiter clock) acts).Follows P
      (lastConfig {} (pushedBy acts)) := by
  refine (engineMachine P).record
    (I := fun t acts => t.Follows P (lastConfig {} (pushedBy acts))) ?_
    (Follows.start waiter clock) acts
  intro t before act h
  have hpushed : pushedBy (before ++ [act]) = pushedBy before ++ pushedBy [act] :=
    List.filterMap_append
  rw [hpushed, lastConfig_append]
  exact h.next P act

/-- A step of a run away from the pending configuration leaves the programs. -/
theorem Thread.step_programs (t : Thread) (o : Obs) (hrun : t.loc.inRun = true)
    (hconf : t.loc.configures = false) :
    (t.step P o).1.e.prog = t.e.prog ∧ (t.step P o).1.e.maxProg = t.e.maxProg := by
  have hpolled : ∀ e : Engine, e.poll.1.prog = e.prog ∧ e.poll.1.maxProg = e.maxProg := by
    intro e
    obtain ⟨-, -, hprog, hmax, -⟩ := e.poll_frame
    exact ⟨hprog, hmax⟩
  cases t.step_moves P o with
  | polls hloc e he hkeeps hstate hstop hgo =>
    obtain ⟨hprog, hmax⟩ := hpolled e
    have hsame : e.prog = t.e.prog ∧ e.maxProg = t.e.maxProg := by
      rcases he with rfl | ⟨-, rfl⟩ <;> exact ⟨rfl, rfl⟩
    exact ⟨hkeeps.prog.trans (hprog.trans hsame.1), hkeeps.maxProg.trans (hmax.trans hsame.2)⟩
  | runs hrun' hpoll event hevent hkeeps hstate hloc' => exact ⟨hkeeps.prog, hkeeps.maxProg⟩
  | applies hloc hpending hkeeps hstate hloc' => exact absurd hloc (by simp [hconf])
  | sleeps hloc | wakes hloc | command hloc | returns hloc | rests hloc | starts hloc | ends hloc
  | stays hloc => exact absurd hrun (by simp [hloc, Loc.inRun])

/-- The engine has settled on the configuration `m`: at rest with an empty queue `m` and the
    programs `rebuildProgram` computes from it are in force and nothing is pending, and a step of
    a run changes the programs only between two actions. -/
structure Thread.SettledOn (t : Thread) (m : EngineConfig) : Prop where
  rest : t.loc = .idle → t.e.queue = [] → t.e.cfg = m ∧ t.e.pendingCfg = none ∧ t.e.Built P
  run : ∀ o : Obs, t.loc.inRun = true → ¬ t.loc.betweenActions →
    (t.step P o).1.e.prog = t.e.prog ∧ (t.step P o).1.e.maxProg = t.e.maxProg

/-- **Configurations converge**: after any interleaving of posts, arms and steps of the thread the
    engine settles on the configuration of the last `SetConfig` in queue order. -/
theorem config_converges (waiter : PreciseWaiter) (clock : ℤ) (acts : List Act) :
    ((engineMachine P).after (Thread.start P waiter clock) acts).SettledOn P
      (lastConfig {} (pushedBy acts)) := by
  have hfollows := Thread.follows_after P waiter clock acts
  have hconf := Thread.configures_between P waiter clock acts
  generalize (engineMachine P).after (Thread.start P waiter clock) acts = t at hfollows hconf
  constructor
  · intro hidle hqueue
    have hnone : t.e.pendingCfg = none := hfollows.settled (by rw [hidle]; rfl)
    have hlatest := hfollows.queued (by rw [hidle]; rfl) (by rw [hidle]; rfl) (by simp [hidle])
    simp only [hqueue, lastConfig_nil, Engine.latest, hnone, Option.getD_none, List.not_mem_nil,
      false_or] at hlatest
    exact ⟨hlatest, hnone, hfollows.built⟩
  · intro o hrun hbetween
    apply t.step_programs P o hrun
    simpa using mt hconf hbetween

/-- A configuration posted into a MAX run, and another behind it, with the run stopped. -/
def updatedRun : List Act :=
  Act.post (.setConfig { maxMode := true }) ++ Act.steps 3 ++ Act.post (.startRun {} 0) ++
    Act.steps 4 ++ Act.post (.setConfig {}) ++ Act.steps 3 ++
    Act.post (.setConfig { maxBatchActions := 3 }) ++ Act.post .stopRun ++ Act.steps 6

example :
    ((engineMachine .tenMegahertz).after (Thread.start .tenMegahertz {} 1000000000)
      updatedRun).loc = .idle ∧
    ((engineMachine .tenMegahertz).after (Thread.start .tenMegahertz {} 1000000000)
      updatedRun).e.cfg.maxBatchActions = 3 := by decide +kernel

end InfinityClicker
