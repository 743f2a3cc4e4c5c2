import InfinityClicker.Scheduler.ConfigUpdates
import InfinityClicker.Trigger.Edges

namespace InfinityClicker

open Machines Mailboxes

/-!
# From the key to the clicks, in Hold mode

A hook turns the trigger's key into `onTriggerDown` and `onTriggerUp`; the sink posts a command for
each of them, piece by piece; the engine's thread drains the queue when it gets to it, in its idle
loop or at a poll of a run.  In Hold mode the run is to go on while the key is held.

* `Thread.taking`, `Thread.step_waiting` — commands are taken in their order and none is lost;
* `Thread.Holds` — of an engine in Hold mode: a run goes on only after a Down;
* `holdMachine` — the trigger's thread, the engine's thread and the others in any interleaving;
* `HoldSystem.Follows` — no edge is lost between the two;
* `clicks_only_while_held` — the engine follows the key, over every run.
-/

/-! ### Edges as commands -/

/-- The edge of the trigger that a command carries. -/
@[simp] def Command.edge? : Command → Option Bool
  | .triggerDown _ => some true
  | .triggerUp _ => some false
  | _ => none

/-- The edges of the trigger among commands. -/
def edgesIn (cmds : List Command) : List Bool := cmds.filterMap Command.edge?

/-- No commands carry no edges. -/
@[simp] theorem edgesIn_nil : edgesIn [] = [] := rfl

/-- Edges are collected piece by piece. -/
theorem edgesIn_append (a b : List Command) : edgesIn (a ++ b) = edgesIn a ++ edgesIn b :=
  List.filterMap_append

/-- The trigger was down as of the last edge. -/
def downAfter (down : Bool) (cmds : List Command) : Bool := lastOf Command.edge? down cmds

/-- Without a command the trigger is as it was. -/
@[simp] theorem downAfter_nil (down : Bool) : downAfter down [] = down := rfl

/-- The first command decides for the later ones. -/
theorem downAfter_cons (down : Bool) (c : Command) (cmds : List Command) :
    downAfter down (c :: cmds) = downAfter (c.edge?.getD down) cmds := lastOf_cons _ down c cmds

/-- Hold mode is configured, nothing but the trigger starts runs, and the program goes on. -/
@[simp] def Command.HoldOnly : Command → Prop
  | .setConfig c => c.mode.mode = .hold
  | .startRun _ _ | .quit => False
  | _ => True

instance : DecidablePred Command.HoldOnly
  | .setConfig _ => inferInstanceAs (Decidable (_ = _))
  | .startRun _ _ | .quit => isFalse not_false
  | .arm _ | .triggerDown _ | .triggerUp _ | .stopRun | .emergency _ | .resetTotals =>
    isTrue trivial

/-! ### Commands in their order -/

variable (P : Platform)

namespace Thread

/-- The commands on their way: those of the batch in hand, then those in the queue. -/
def waiting (t : Thread) : List Command := t.loc.batch ++ t.e.queue

/-- The commands the next step takes. -/
def taking (t : Thread) : List Command :=
  match t.loc with
  | .commands (c :: _) _ => [c]
  | .commands [] _ => []
  | loc => if loc.polls && t.e.cmdFlag then Engine.handled t.e.queue else []

end Thread

/-- A poll takes the queue when the flag is up, and nothing otherwise. -/
theorem Engine.poll_commands (e : Engine) :
    commandsOf e.poll.2.1 = if e.cmdFlag then Engine.handled e.queue else [] := by
  unfold Engine.poll
  split
  · rw [commandsOf_consumed]
  · rfl

/-- **What a step consumes.** -/
theorem Thread.step_takes (t : Thread) (o : Obs) : commandsOf (t.step P o).2 = t.taking := by
  obtain ⟨e, loc⟩ := t
  have hpolls : ∀ e' : Engine, e'.cmdFlag = e.cmdFlag → e'.queue = e.queue →
      e.Polled e' (Thread.step P ⟨e, loc⟩ o) → loc.polls = true →
      commandsOf (Thread.step P ⟨e, loc⟩ o).2 =
        if loc.polls && e.cmdFlag then Engine.handled e.queue else [] := by
    intro e' hflag hqueue hpolled hloc
    rw [hpolled.commands, e'.poll_commands, hflag, hqueue, hloc, Bool.true_and]
  cases loc with
  | idle =>
    simp only [Thread.step]
    split <;> rfl
  | commands cmds b =>
    cases cmds with
    | nil => exact (e.stepCommands_nil P b o).2.1
    | cons c cs => exact (e.stepCommands_cons P c cs b o).2.1
  | timed l => exact hpolls e rfl rfl (Engine.polled_stepTimed l) rfl
  | timedPause l => exact hpolls (e.woken o) rfl rfl (Engine.polled_stepTimedPause l o) rfl
  | max l => exact hpolls e rfl rfl (Engine.polled_stepMax l) rfl
  | maxPause l now => exact hpolls (e.woken o) rfl rfl (Engine.polled_stepMaxPause l now o) rfl
  | timedConfig l | timedGate l | timedLate l now | timedAct l | maxConfig l | maxGate l
  | maxSend l now => exact Thread.quiet_commands P rfl rfl o
  | ending =>
    obtain ⟨-, -, -, -, -, hcommands, -⟩ := Engine.stepEnding_spec (P := P) (e := e) o
    exact hcommands
  | done => rfl

/-- Without Quit every command is handled. -/
theorem handled_of_noQuit {cmds : List Command} (h : .quit ∉ cmds) :
    Engine.handled cmds = cmds := by
  induction cmds with
  | nil => rfl
  | cons c cs ih =>
    rw [List.mem_cons, not_or] at h
    rw [Engine.handled_cons (Ne.symm h.1), ih h.2]

namespace Thread

variable {t : Thread}

/-- Without a batch and away from the polls nothing is taken. -/
theorem taking_of_quiet (hbatch : t.loc.batch = []) (hpoll : t.loc.polls = false) :
    t.taking = [] := by
  obtain ⟨e, loc⟩ := t
  cases loc with
  | commands cmds b =>
    cases cmds with
    | nil => rfl
    | cons c cs => exact absurd hbatch (by simp [Loc.batch])
  | _ => simp_all [taking, Loc.polls]

/-- A poll takes what is queued, if it finds the flag up. -/
theorem taking_of_polls (hpoll : t.loc.polls = true) (hquit : .quit ∉ t.e.queue) :
    t.taking = if t.e.cmdFlag then t.e.queue else [] := by
  have hhandled := handled_of_noQuit hquit
  obtain ⟨e, loc⟩ := t
  cases loc <;> simp_all [taking, Loc.polls]

/-- A place that applies a configuration does not poll. -/
theorem polls_of_configures {loc : Loc} (h : loc.configures = true) : loc.polls = false := by
  cases loc <;> simp_all [Loc.configures, Loc.polls]

end Thread

namespace Engine

variable {P} {e : Engine}

/-- A batch in a run is taken as a whole. -/
theorem runCommands_queue {cmds : List Command} (h : .quit ∉ cmds) :
    (e.runCommands cmds).queue = e.queue := by
  fun_induction runCommands e cmds with
  | case1 e => rfl
  | case2 e => exact absurd (List.mem_cons_self) h
  | case3 e c cs hquit ih =>
    rw [ih fun hmem => h (List.mem_cons_of_mem _ hmem), e.runCommand_queue hquit]

/-- A poll that finds the flag empties the queue. -/
theorem poll_queue (h : .quit ∉ e.queue) :
    e.poll.1.queue = if e.cmdFlag then [] else e.queue := by
  unfold poll
  split
  · exact runCommands_queue h
  · rfl

end Engine

/-- **Commands are taken in their order**, and none is lost, doubled or overtaken. -/
theorem Thread.step_waiting (t : Thread) (o : Obs) (hquit : .quit ∉ t.waiting) :
    commandsOf (t.step P o).2 ++ (t.step P o).1.waiting = t.waiting := by
  have hqueue : .quit ∉ t.e.queue := fun hmem => hquit (List.mem_append_right _ hmem)
  -- Where no batch is in hand and nothing is polled, the commands stay where they are.
  have hsame : t.loc.batch = [] → t.loc.polls = false → (t.step P o).1.loc.batch = [] →
      (t.step P o).1.e.queue = t.e.queue →
      commandsOf (t.step P o).2 ++ (t.step P o).1.waiting = t.waiting := by
    intro hbatch hpoll hbatch' hq
    rw [t.step_takes P o, taking_of_quiet hbatch hpoll, waiting, waiting, hbatch, hbatch', hq]
    rfl
  cases t.step_moves P o with
  | sleeps hloc hevent heq =>
    have hbatch : t.loc.batch = [] := by rw [hloc]; rfl
    exact hsame hbatch (by rw [hloc]; rfl) (by rw [heq, hbatch]) (by rw [heq])
  | stays hloc heq =>
    have hbatch : t.loc.batch = [] := by rw [hloc]; rfl
    exact hsame hbatch (by rw [hloc]; rfl) (by rw [heq, hbatch]) (by rw [heq])
  | wakes hloc hevent heq =>
    have htaking := taking_of_quiet (t := t) (by rw [hloc]; rfl) (by rw [hloc]; rfl)
    rw [t.step_takes P o, htaking, heq]
    simp [waiting, hloc, Loc.batch, Engine.drained]
  | @command c cs b hloc heq =>
    have htaking : t.taking = [c] := by simp [taking, hloc]
    have hq : (t.e.idleCommand P b o.release o.retry c).1.queue = t.e.queue := by
      cases c with
      | triggerDown qpc => rw [Engine.idleCommand_triggerDown]
      | triggerUp qpc => rw [Engine.idleCommand_triggerUp]
      | _ => rfl
    rw [t.step_takes P o, htaking, heq]
    simp [waiting, hloc, Loc.batch, hq]
  | returns hloc hq hkeeps hstate hloc' =>
    exact hsame (by rw [hloc]; rfl) (by rw [hloc]; rfl) (by rw [hloc']; rfl) hkeeps.queue
  | rests hloc hq hstart hkeeps hstate hloc' =>
    exact hsame (by rw [hloc]; rfl) (by rw [hloc]; rfl) (by rw [hloc']; rfl) hkeeps.queue
  | starts hloc hq hstart hok hkeeps hstate hloc' =>
    exact hsame (by rw [hloc]; rfl) (by rw [hloc]; rfl) (Loc.of_inRun hloc').1 hkeeps.queue
  | polls hloc e he hkeeps hstate hstop hgo =>
    have hloc' : (t.step P o).1.loc = .ending ∨ (t.step P o).1.loc.inRun = true := by
      cases hs : e.poll.2.2 with
      | true => exact .inl (hstop hs).1
      | false => exact .inr (hgo hs)
    have hbatch := (Loc.of_inRun (.inr (Loc.inRun_of_polls hloc))).1
    have hflag : e.cmdFlag = t.e.cmdFlag ∧ e.queue = t.e.queue := by
      rcases he with rfl | ⟨-, rfl⟩
      · exact ⟨rfl, rfl⟩
      · exact ⟨rfl, rfl⟩
    have hq : e.poll.1.queue = if t.e.cmdFlag then [] else t.e.queue := by
      rw [Engine.poll_queue (by rw [hflag.2]; exact hqueue), hflag.1, hflag.2]
    rw [t.step_takes P o, taking_of_polls hloc hqueue, waiting, waiting, hbatch,
      (Loc.of_inRun hloc').1, hkeeps.queue, hq]
    split <;> simp
  | applies hloc hpending hkeeps hstate hloc' =>
    have hin := Loc.inRun_of_configures hloc
    exact hsame (Loc.of_inRun (.inr hin)).1 (polls_of_configures hloc) (Loc.of_inRun hloc').1
      (hkeeps.queue.trans (t.e.applyPending_queue P))
  | runs hin hpoll event hevent hkeeps hstate hloc' =>
    exact hsame (Loc.of_inRun (.inr hin)).1 hpoll (Loc.of_inRun hloc').1 hkeeps.queue
  | ends hloc hkeeps hstate hloc' =>
    refine hsame (by rw [hloc]; rfl) (by rw [hloc]; rfl) (by rw [hloc']; rfl)
      (hkeeps.queue.trans ?_)
    rw [Engine.applyPending_queue P]

/-! ### A run in Hold mode -/

namespace Engine

variable {P} {e : Engine}

/-- A run in Hold mode that a batch does not stop has seen no Up in it. -/
theorem runCommands_holds (hmode : e.cfg.mode.mode = .hold) {cmds : List Command}
    (honly : ∀ c ∈ cmds, c.HoldOnly) (hgo : (e.runCommands cmds).run.stop = false) :
    downAfter true cmds = true := by
  fun_induction runCommands e cmds with
  | case1 e => rfl
  | case2 e => exact absurd (honly _ (List.mem_cons_self)) (by simp)
  | case3 e c cs hquit ih =>
    have hcfg : (e.runCommand c).cfg.mode.mode = .hold := by rw [(e.runCommand_frame c).2.1, hmode]
    have hrest := ih hcfg (fun d hd => honly d (List.mem_cons_of_mem _ hd)) hgo
    rw [downAfter_cons]
    cases c with
    | triggerUp qpc =>
      -- An Up stops the run, and nothing takes the stop back.
      have hstop : (e.runCommand (.triggerUp qpc)).run.stop = true := by
        simp [runCommand, decideOnTriggerUp, hmode]
      rw [runCommands_stop _ cs hstop] at hgo
      exact absurd hgo (by simp)
    | _ => exact hrest

/-- The configuration that waits in a run is in Hold mode if those of the batch are. -/
theorem runCommands_latest_hold {cmds : List Command} (hlatest : e.latest.mode.mode = .hold)
    (honly : ∀ c ∈ cmds, c.HoldOnly) : (e.runCommands cmds).latest.mode.mode = .hold := by
  fun_induction runCommands e cmds with
  | case1 e => exact hlatest
  | case2 e => exact absurd (honly _ (List.mem_cons_self)) (by simp)
  | case3 e c cs hquit ih =>
    refine ih ?_ fun d hd => honly d (List.mem_cons_of_mem _ hd)
    rw [e.runCommand_latest]
    cases c with
    | setConfig cfg => exact honly _ (List.mem_cons_self)
    | _ => exact hlatest

end Engine

/-- In Hold mode: what is on its way keeps to it, and a run goes on, or is about to start, only
    with the trigger down as of the last edge taken. -/
structure Thread.Holds (t : Thread) (down : Bool) : Prop where
  mode : t.e.cfg.mode.mode = .hold
  latest : t.e.latest.mode.mode = .hold
  waiting : ∀ c ∈ t.waiting, c.HoldOnly
  batch : ∀ cmds b, t.loc = .commands cmds b → b.start = true → down = true
  run : t.loc.inRun = true → down = true

namespace Thread.Holds

variable {P} {t t' : Thread} {down : Bool}

/-- An engine that keeps its configurations, where no batch is in hand. -/
theorem of_keeps {e : Engine} (hmode : e.cfg.mode.mode = .hold)
    (hlatest : e.latest.mode.mode = .hold) (hkeeps : e.Keeps t'.e)
    (hwaiting : ∀ c ∈ t'.waiting, c.HoldOnly) (hbatch : ∀ cmds b, t'.loc ≠ .commands cmds b)
    (hrun : t'.loc.inRun = true → down = true) : t'.Holds down := by
  refine ⟨by rw [hkeeps.cfg, hmode], ?_, hwaiting, fun cmds b h => absurd h (hbatch cmds b), hrun⟩
  rw [Engine.latest, hkeeps.pendingCfg, hkeeps.cfg]
  exact hlatest

/-- A command of an idle batch. -/
theorem command (h : t.Holds down) {c : Command} {cs : List Command} {b : Engine.Batch}
    (hloc : t.loc = .commands (c :: cs) b) (o : Obs) :
    Thread.Holds ⟨(t.e.idleCommand P b o.release o.retry c).1,
      .commands cs (t.e.idleCommand P b o.release o.retry c).2⟩ (c.edge?.getD down) := by
  have hc : c.HoldOnly := h.waiting c (by simp [Thread.waiting, hloc, Loc.batch])
  have hrest : ∀ d ∈ cs ++ t.e.queue, d.HoldOnly := fun d hd =>
    h.waiting d (by simp only [Thread.waiting, hloc, Loc.batch]; exact List.mem_cons_of_mem _ hd)
  have hstart := h.batch _ _ hloc
  have hone : ∀ (b' : Engine.Batch), (b'.start = true → c.edge?.getD down = true) →
      ∀ cmds b'', (Loc.commands cs b') = .commands cmds b'' → b''.start = true →
        c.edge?.getD down = true := by
    intro b' hb' cmds b'' heq
    cases heq
    exact hb'
  have hnorun : ∀ {down' : Bool} (b' : Engine.Batch), (Loc.commands cs b').inRun = true →
      down' = true := fun _ hrun => absurd hrun (by simp [Loc.inRun])
  cases c with
  | setConfig cfg =>
    refine ⟨hc, ?_, hrest, hone _ hstart, hnorun _⟩
    show (t.e.pendingCfg.getD cfg).mode.mode = .hold
    have hlatest := h.latest
    unfold Engine.latest at hlatest
    cases hpending : t.e.pendingCfg with
    | none => exact hc
    | some d =>
      rw [hpending] at hlatest
      exact hlatest
  | triggerDown qpc =>
    refine ⟨?_, ?_, ?_, hone _ fun _ => rfl, hnorun _⟩ <;> rw [Engine.idleCommand_triggerDown]
    · exact h.mode
    · exact h.latest
    · exact hrest
  -- A release while nothing runs takes back the start that an earlier press of the batch asked for.
  | triggerUp qpc =>
    have hoff : (t.e.idleCommand P b o.release o.retry (.triggerUp qpc)).2.start = false := by
      simp only [Engine.idleCommand, h.mode, and_true]
      cases hb : b.start <;> simp [hb]
    refine ⟨?_, ?_, ?_, hone _ fun hs => absurd hs (by simp [hoff]), hnorun _⟩ <;>
      rw [Engine.idleCommand_triggerUp]
    · exact h.mode
    · exact h.latest
    · exact hrest
  | stopRun | emergency qpc =>
    exact ⟨h.mode, h.latest, hrest, hone _ fun hs => absurd hs (by simp [Engine.idleCommand]),
      hnorun _⟩
  | arm on | resetTotals => exact ⟨h.mode, h.latest, hrest, hone _ hstart, hnorun _⟩
  | startRun limits qpc | quit => exact absurd hc (by simp)

/-- **Every step of the thread.** -/
theorem step (h : t.Holds down) (o : Obs) :
    (t.step P o).1.Holds (downAfter down (commandsOf (t.step P o).2)) := by
  have hquit : .quit ∉ t.waiting := fun hmem => h.waiting _ hmem
  have horder := t.step_waiting P o hquit
  have hwaiting : ∀ c ∈ (t.step P o).1.waiting, c.HoldOnly := fun c hc =>
    h.waiting c (horder ▸ List.mem_append_right _ hc)
  have htakes := t.step_takes P o
  -- Where nothing is taken the last edge is the one before.
  have hnone : t.loc.batch = [] → t.loc.polls = false → (t.step P o).1.Holds down →
      (t.step P o).1.Holds (downAfter down (commandsOf (t.step P o).2)) := by
    intro hbatch hpoll hholds
    rw [htakes, taking_of_quiet hbatch hpoll]
    exact hholds
  -- Runs end and go on at places that have no batch in hand.
  have helsewhere : ∀ {loc : Loc}, loc = .ending ∨ loc.inRun = true →
      ∀ cmds b, loc ≠ .commands cmds b := by
    intro loc hin cmds b heq
    simp [heq, Loc.inRun] at hin
  cases t.step_moves P o with
  | sleeps hloc hevent heq =>
    refine hnone (by rw [hloc]; rfl) (by rw [hloc]; rfl) ?_
    rw [heq]
    exact h
  | stays hloc heq =>
    refine hnone (by rw [hloc]; rfl) (by rw [hloc]; rfl) ?_
    rw [heq]
    exact h
  | wakes hloc hevent heq =>
    refine hnone (by rw [hloc]; rfl) (by rw [hloc]; rfl) ?_
    rw [heq] at hwaiting ⊢
    refine ⟨h.mode, h.latest, hwaiting, fun cmds b hb hstart => ?_, fun hrun => ?_⟩
    · cases hb
      exact absurd hstart (by simp)
    · exact absurd hrun (by simp [Loc.inRun])
  | @command c cs b hloc heq =>
    rw [htakes, show t.taking = [c] by simp [taking, hloc], downAfter_cons, downAfter_nil, heq]
    exact h.command hloc o
  | returns hloc hq hkeeps hstate hloc' =>
    exact hnone (by rw [hloc]; rfl) (by rw [hloc]; rfl) (of_keeps h.mode h.latest hkeeps hwaiting
      (by simp [hloc']) (by simp [hloc', Loc.inRun]))
  | rests hloc hq hstart hkeeps hstate hloc' =>
    exact hnone (by rw [hloc]; rfl) (by rw [hloc]; rfl) (of_keeps h.mode h.latest hkeeps hwaiting
      (by simp [hloc']) (by simp [hloc', Loc.inRun]))
  | starts hloc hq hstart hok hkeeps hstate hloc' =>
    exact hnone (by rw [hloc]; rfl) (by rw [hloc]; rfl) (of_keeps h.mode h.latest hkeeps hwaiting
      (helsewhere hloc') fun _ => h.batch _ _ hloc hstart)
  | polls hloc e he hkeeps hstate hstop hgo =>
    have hdown : down = true := h.run (Loc.inRun_of_polls hloc)
    have hsame : e.cfg = t.e.cfg ∧ e.latest = t.e.latest ∧ e.queue = t.e.queue ∧
        e.cmdFlag = t.e.cmdFlag := by
      rcases he with rfl | ⟨-, rfl⟩
      · exact ⟨rfl, rfl, rfl, rfl⟩
      · exact ⟨rfl, rfl, rfl, rfl⟩
    obtain ⟨hcfg, hlatest, hqueue, hflag⟩ := hsame
    have hmode : e.cfg.mode.mode = .hold := by rw [hcfg, h.mode]
    have honly : ∀ c ∈ t.e.queue, c.HoldOnly := fun c hc =>
      h.waiting c (List.mem_append_right _ hc)
    have hmode' : e.poll.1.cfg.mode.mode = .hold := by rw [e.poll_frame.2.1, hmode]
    have hlatest' : e.poll.1.latest.mode.mode = .hold := by
      unfold Engine.poll
      split
      · have hdrained : e.drained.latest.mode.mode = .hold := by
          rw [← h.latest, ← hlatest]
          rfl
        exact Engine.runCommands_latest_hold hdrained (hqueue ▸ honly)
      · rw [hlatest, h.latest]
    rw [htakes, taking_of_polls hloc fun hmem => honly _ hmem]
    cases hs : e.poll.2.2 with
    | true =>
      obtain ⟨hloc', -⟩ := hstop hs
      exact of_keeps hmode' hlatest' hkeeps hwaiting (by simp [hloc']) (by simp [hloc', Loc.inRun])
    | false =>
      have hin := hgo hs
      refine of_keeps hmode' hlatest' hkeeps hwaiting (helsewhere (.inr hin)) fun _ => ?_
      rw [hdown, ← hqueue, ← hflag]
      unfold Engine.poll at hs
      split at hs
      · next hflag' =>
        have hdrained : e.drained.cfg.mode.mode = .hold := hmode
        rw [if_pos hflag']
        exact Engine.runCommands_holds hdrained (hqueue ▸ honly) hs
      · next hflag' =>
        rw [if_neg hflag']
        rfl
  | @applies c hloc hpending hkeeps hstate hloc' =>
    have hin := Loc.inRun_of_configures hloc
    have hc : c.mode.mode = .hold := by
      have hlatest := h.latest
      rwa [Engine.latest, hpending] at hlatest
    have happlied : (t.e.applyPending P).cfg = c ∧ (t.e.applyPending P).pendingCfg = none := by
      rw [Engine.applyPending, hpending]
      exact ⟨rfl, rfl⟩
    refine hnone (Loc.of_inRun (.inr hin)).1 (polls_of_configures hloc)
      (of_keeps ?_ ?_ hkeeps hwaiting (helsewhere hloc') fun _ => h.run hin)
    · rw [happlied.1, hc]
    · rw [Engine.latest, happlied.2, happlied.1]
      exact hc
  | runs hin hpoll event hevent hkeeps hstate hloc' =>
    exact hnone (Loc.of_inRun (.inr hin)).1 hpoll (of_keeps (e := { t.e with cmdEvent := event })
      h.mode h.latest hkeeps hwaiting (helsewhere hloc') fun _ => h.run hin)
  | ends hloc hkeeps hstate hloc' =>
    have happlied : (({ t.e with runsCompleted := t.e.runsCompleted + 1 } : Engine).applyPending
        P).cfg = t.e.latest ∧ (({ t.e with runsCompleted := t.e.runsCompleted + 1 } :
          Engine).applyPending P).pendingCfg = none := by
      unfold Engine.applyPending Engine.latest
      cases hpending : t.e.pendingCfg with
      | none => exact ⟨rfl, hpending⟩
      | some c => exact ⟨rfl, rfl⟩
    refine hnone (by rw [hloc]; rfl) (by rw [hloc]; rfl) (of_keeps ?_ ?_ hkeeps hwaiting
      (by simp [hloc']) (by simp [hloc', Loc.inRun]))
    · rw [happlied.1, h.latest]
    · rw [Engine.latest, happlied.2, happlied.1]
      exact h.latest

/-- An action is sent, and a run started, only with the trigger down as of the last edge taken. -/
theorem acts (h : t.Holds down) {o : Obs} (hacts : actionsOf (t.step P o).2 ≠ []) :
    down = true := by
  obtain ⟨e, loc⟩ := t
  cases loc with
  | commands cmds b =>
    cases cmds with
    | cons c cs => exact absurd (e.stepCommands_cons P c cs b o).2.2 hacts
    | nil =>
      rcases (e.stepCommands_nil P b o).2.2 with ⟨-, -, hnone⟩ | ⟨-, -, -, -, -, hnone⟩ |
        ⟨-, hstart, -⟩
      · exact absurd hnone hacts
      · exact absurd hnone hacts
      · exact h.batch _ _ rfl hstart
  | idle | ending | done =>
    exact absurd (Thread.no_actions P o fun ev hev => by cases ev <;> simp_all [Loc.emits]) hacts
  | _ => exact h.run rfl

end Thread.Holds

/-! ### The trigger's thread, the engine's thread and the others -/

/-- What `App` has the engine called with for a call of the trigger, at a clock reading. -/
def SinkCall.acts (now : ℤ) : SinkCall → List Act
  | .onTriggerDown qpc => Act.post (.triggerDown qpc)
  | .onTriggerUp qpc => Act.post (.triggerUp qpc)
  | .onEmergency => Act.emergency now
  | .onCaptured _ => []

/-- What a trigger event has the engine called with. -/
def TriggerEvent.acts (now : ℤ) : TriggerEvent → List Act
  | .call c => c.acts now
  | .swallowed => []

/-- A piece of a call of the engine is no step of its thread, and the commands of the trigger
    keep to Hold mode. -/
def Act.OfSink : Act → Prop
  | .push c => c.HoldOnly
  | .thread _ => False
  | _ => True

/-- The calls of a trigger event are those a sink makes. -/
theorem TriggerEvent.acts_ofSink (now : ℤ) (ev : TriggerEvent) : ∀ a ∈ ev.acts now, a.OfSink := by
  cases ev with
  | swallowed => simp [acts]
  | call c => cases c <;> simp [acts, SinkCall.acts, Act.post, Act.emergency, Act.OfSink]

/-- The posts of a call carry the edges it gives. -/
theorem TriggerEvent.acts_edges (now : ℤ) (evs : List TriggerEvent) :
    edgesIn (pushedBy (evs.flatMap (TriggerEvent.acts now))) = triggerEdges evs := by
  induction evs with
  | nil => rfl
  | cons ev evs ih =>
    have hone : edgesIn (pushedBy (ev.acts now)) = triggerEdges [ev] := by
      cases ev with
      | swallowed => rfl
      | call c => cases c <;> rfl
    rw [List.flatMap_cons, pushedBy_append, edgesIn_append, ih, hone, ← triggerEdges_append]
    rfl

/-- The trigger's thread, the calls it is still making, and the engine's thread. -/
structure HoldSystem where
  /-- The trigger's engine, and its last Down. -/
  trigger : TriggerEngine × LastDown := edgesStart
  /-- What the trigger's thread still has to do of its calls. -/
  calls : List Act := []
  thread : Thread

/-- What happens next. -/
inductive HoldAct where
  /-- The trigger's thread has an event or a message, and reads the clock in its calls. -/
  | event (i : TriggerInput) (now : ℤ)
  /-- It does the next piece of its calls. -/
  | call
  /-- The engine's thread makes a step, or another thread does a piece of a call. -/
  | act (a : Act)

/-- What the two engines show. -/
inductive HoldEvent where
  | trigger (ev : TriggerEvent)
  | engine (ev : Event)

/-- A move of the engine, or of a thread around it. -/
def HoldSystem.act (s : HoldSystem) (a : Act) : HoldSystem × List HoldEvent :=
  ({ s with thread := (engineMachine P).next s.thread a },
    ((engineMachine P).out s.thread a).map .engine)

/-- The trigger's thread takes the next event when the calls of the last one are over. -/
def holdMachine : Machine HoldSystem HoldAct HoldEvent where
  step s
    | .event i now =>
      match s.calls with
      | [] =>
        ({ s with
            trigger := edgeMachine.next s.trigger i
            calls := (edgeMachine.out s.trigger i).flatMap (TriggerEvent.acts now) },
          (edgeMachine.out s.trigger i).map .trigger)
      | _ :: _ => (s, [])
    | .call =>
      match s.calls with
      | [] => (s, [])
      | a :: rest => { s with calls := rest }.act P a
    | .act a => s.act P a

/-- Whatever the others post, it is no edge of the trigger, and Hold mode stays. -/
def HoldAct.HoldOnly : HoldAct → Prop
  | .act (.push c) => c.HoldOnly ∧ c.edge? = none
  | _ => True

instance : DecidablePred HoldAct.HoldOnly
  | .act (.push _) => inferInstanceAs (Decidable (_ ∧ _))
  | .act .storeFlag | .act .setEvent | .act (.storeArmed _) | .act (.thread _) | .event _ _
  | .call => isTrue trivial

/-- An event the trigger's thread takes is one that serves the trigger's release. -/
def HoldSystem.Serves (s : HoldSystem) : HoldAct → Prop
  | .event i _ => s.calls.isEmpty = true → Served s.trigger i
  | _ => True

instance (s : HoldSystem) : DecidablePred s.Serves
  | .event _ _ => inferInstanceAs (Decidable (_ → _))
  | .call | .act _ => isTrue trivial

/-! ### Reading a history -/

/-- What the trigger shows in a history. -/
def triggerPart (evs : List HoldEvent) : List TriggerEvent :=
  evs.filterMap fun
    | .trigger ev => some ev
    | .engine _ => none

/-- What the engine shows in a history. -/
def enginePart (evs : List HoldEvent) : List Event :=
  evs.filterMap fun
    | .engine ev => some ev
    | .trigger _ => none

/-- An empty history has no part of the trigger. -/
@[simp] theorem triggerPart_nil : triggerPart [] = [] := rfl

/-- The trigger's part is collected piece by piece. -/
@[simp] theorem triggerPart_append (a b : List HoldEvent) :
    triggerPart (a ++ b) = triggerPart a ++ triggerPart b := List.filterMap_append

/-- The engine's part is collected piece by piece. -/
@[simp] theorem enginePart_append (a b : List HoldEvent) :
    enginePart (a ++ b) = enginePart a ++ enginePart b := List.filterMap_append

/-- The trigger's part of what the trigger shows. -/
@[simp] theorem triggerPart_trigger (evs : List TriggerEvent) :
    triggerPart (evs.map .trigger) = evs := by
  simp [triggerPart, List.filterMap_map]

/-- The trigger's part of what the engine shows. -/
@[simp] theorem triggerPart_engine (evs : List Event) : triggerPart (evs.map .engine) = [] := by
  simp [triggerPart, List.filterMap_map]

/-- The engine's part of what the engine shows. -/
@[simp] theorem enginePart_engine (evs : List Event) : enginePart (evs.map .engine) = evs := by
  simp [enginePart, List.filterMap_map]

/-- The engine's part of what the trigger shows. -/
@[simp] theorem enginePart_trigger (evs : List TriggerEvent) :
    enginePart (evs.map .trigger) = [] := by
  simp [enginePart, List.filterMap_map]

/-- The edges the trigger gave. -/
def edgesGiven (evs : List HoldEvent) : List Bool := triggerEdges (triggerPart evs)

/-- The edges the engine took. -/
def edgesTaken (evs : List HoldEvent) : List Bool := edgesIn (commandsOf (enginePart evs))

/-- The commands on their way to the engine, in their order. -/
def HoldSystem.onTheWay (s : HoldSystem) : List Command := s.thread.waiting ++ pushedBy s.calls

/-- The last edge taken was a Down. -/
theorem downAfter_iff (cmds : List Command) :
    downAfter false cmds = true ↔ (edgesIn cmds).getLast? = some true := by
  show ((edgesIn cmds).getLast?).getD false = true ↔ _
  cases (edgesIn cmds).getLast? <;> simp

/-! ### Every move -/

variable {P}

/-- A thread around the engine adds to what is on its way, and touches nothing else of it. -/
theorem Act.other_waiting {a : Act} (ha : ∀ o, a ≠ .thread o) (t : Thread) :
    (engineMachine P).out t a = [] ∧
      ((engineMachine P).next t a).waiting = t.waiting ++ pushedBy [a] := by
  cases a with
  | push c => exact ⟨rfl, (List.append_assoc _ _ _).symm⟩
  | storeFlag | setEvent | storeArmed on => exact ⟨rfl, (List.append_nil _).symm⟩
  | thread o => exact absurd rfl (ha o)

/-- Another thread's piece of a call leaves the engine holding to the trigger. -/
theorem Thread.Holds.other {t : Thread} {down : Bool} (h : t.Holds down) {a : Act}
    (ha : ∀ o, a ≠ .thread o) (honly : ∀ c ∈ pushedBy [a], c.HoldOnly) :
    ((engineMachine P).next t a).Holds down := by
  have hwaiting : ∀ c ∈ ((engineMachine P).next t a).waiting, c.HoldOnly := by
    rw [(Act.other_waiting ha t).2]
    intro c hc
    rcases List.mem_append.mp hc with hold | hnew
    · exact h.waiting c hold
    · exact honly c hnew
  cases a with
  | thread o => exact absurd rfl (ha o)
  | _ => exact ⟨h.mode, h.latest, hwaiting, h.batch, h.run⟩

/-- Every edge given was taken or is on its way, in their order, and the engine holds to the last
    one taken. -/
structure HoldSystem.Follows (s : HoldSystem) (evs : List HoldEvent) : Prop where
  edges : edgesTaken evs ++ edgesIn s.onTheWay = edgesGiven evs
  holds : s.thread.Holds (downAfter false (commandsOf (enginePart evs)))
  calls : ∀ a ∈ s.calls, a.OfSink

namespace HoldSystem.Follows

variable {s : HoldSystem} {evs : List HoldEvent}

/-- A step of the engine's thread takes what comes first. -/
theorem thread (h : s.Follows evs) (o : Obs) :
    (s.act P (.thread o)).1.Follows (evs ++ (s.act P (.thread o)).2) := by
  have hquit : .quit ∉ s.thread.waiting := fun hmem => h.holds.waiting _ hmem
  have horder := s.thread.step_waiting P o hquit
  refine ⟨?_, ?_, h.calls⟩
  · have hedges := h.edges
    unfold edgesTaken edgesGiven HoldSystem.onTheWay at hedges ⊢
    simp only [HoldSystem.act, enginePart_append, enginePart_engine, triggerPart_append,
      triggerPart_engine, List.append_nil, commandsOf_append, edgesIn_append] at hedges ⊢
    rw [← hedges, ← horder, edgesIn_append]
    simp only [List.append_assoc]
    rfl
  · have hstep := h.holds.step (P := P) o
    unfold downAfter at hstep ⊢
    rw [← lastOf_append] at hstep
    simp only [HoldSystem.act, enginePart_append, enginePart_engine, commandsOf_append]
    exact hstep

/-- A piece of a call of another thread goes to the end, unless it is of no interest. -/
theorem other (h : s.Follows evs) {a : Act} (ha : ∀ o, a ≠ .thread o)
    (honly : ∀ c ∈ pushedBy [a], c.HoldOnly) {rest : List Act} (hrest : ∀ a ∈ rest, a.OfSink)
    (hedges : edgesIn (pushedBy [a]) ++ edgesIn (pushedBy rest) = edgesIn (pushedBy s.calls)) :
    HoldSystem.Follows ({ s with calls := rest }.act P a).1
      (evs ++ ({ s with calls := rest }.act P a).2) := by
  obtain ⟨hout, hwaiting⟩ := Act.other_waiting (P := P) ha s.thread
  have hsilent : ({ s with calls := rest }.act P a).2 = [] := by
    show ((engineMachine P).out s.thread a).map HoldEvent.engine = []
    rw [hout]
    rfl
  rw [hsilent, List.append_nil]
  refine ⟨?_, h.holds.other ha honly, hrest⟩
  have hbefore := h.edges
  unfold HoldSystem.onTheWay at hbefore ⊢
  rw [edgesIn_append, ← hedges] at hbefore
  show _ ++ edgesIn (((engineMachine P).next s.thread a).waiting ++ pushedBy rest) = _
  rw [hwaiting, edgesIn_append, edgesIn_append, List.append_assoc]
  exact hbefore

/-- **Every move.** -/
theorem step (h : s.Follows evs) {a : HoldAct} (honly : a.HoldOnly) :
    ((holdMachine P).next s a).Follows (evs ++ (holdMachine P).out s a) := by
  have hsame : s.Follows (evs ++ []) := by
    rw [List.append_nil]
    exact h
  cases a with
  | event i now =>
    obtain ⟨x, calls, t⟩ := s
    cases calls with
    | cons c cs => exact hsame
    | nil =>
      -- The edges of the event are those of the posts to come.
      let out := edgeMachine.out x i
      have hedges : edgesTaken evs ++ edgesIn t.waiting = edgesGiven evs := by
        have hbefore := h.edges
        rwa [HoldSystem.onTheWay, show pushedBy [] = [] from rfl, List.append_nil] at hbefore
      have hpart : enginePart (evs ++ out.map .trigger) = enginePart evs := by simp
      refine ⟨?_, ?_, fun a ha => ?_⟩
      · show edgesTaken (evs ++ out.map .trigger) ++
          edgesIn (t.waiting ++ pushedBy (out.flatMap (TriggerEvent.acts now))) =
            edgesGiven (evs ++ out.map .trigger)
        rw [edgesIn_append, TriggerEvent.acts_edges, edgesTaken, hpart, edgesGiven,
          triggerPart_append, triggerPart_trigger, triggerEdges_append, ← List.append_assoc]
        exact congrArg (· ++ triggerEdges out) hedges
      · show t.Holds (downAfter false (commandsOf (enginePart (evs ++ out.map .trigger))))
        rw [hpart]
        exact h.holds
      · obtain ⟨ev, -, hev⟩ := List.mem_flatMap.mp ha
        exact ev.acts_ofSink now a hev
  | call =>
    obtain ⟨x, calls, t⟩ := s
    cases calls with
    | nil => exact hsame
    | cons a rest =>
      have ha := h.calls a List.mem_cons_self
      have hrest : ∀ b ∈ rest, b.OfSink := fun b hb => h.calls b (List.mem_cons_of_mem _ hb)
      refine h.other (fun o heq => ?_) ?_ hrest ?_
      · rw [heq] at ha
        exact ha
      · intro c hc
        cases a with
        | push d =>
          rw [show c = d by simpa [pushedBy] using hc]
          exact ha
        | _ => exact absurd hc (by simp [pushedBy])
      · rw [← edgesIn_append, ← pushedBy_append]
        rfl
  | act a =>
    cases a with
    | thread o => exact h.thread o
    | push c =>
      refine h.other (by simp) (fun d hd => ?_) h.calls ?_
      · rw [show d = c by simpa [pushedBy] using hd]
        exact honly.1
      · show (edgesIn [c]) ++ _ = _
        rw [edgesIn, List.filterMap_cons, honly.2]
        rfl
    | storeFlag | setEvent | storeArmed on =>
      exact h.other (by simp) (by simp [pushedBy]) h.calls rfl

end HoldSystem.Follows

/-! ### The trigger's side -/

/-- The last of an alternating list of edges is a Down just after an odd number of them. -/
theorem alternating_last {n : ℕ} (h : (alternating n).getLast? = some true) : n % 2 = 1 := by
  cases n with
  | zero => exact absurd h (by simp [alternating])
  | succ n =>
    rw [alternating_succ, List.getLast?_concat] at h
    have hn : n % 2 = 0 := by simpa using h
    omega

/-- A trigger whose last edge was a Down is held. -/
theorem Tracked.held {x : TriggerEngine × LastDown} {evs : List TriggerEvent} (h : Tracked x evs)
    (hlast : (triggerEdges evs).getLast? = some true) :
    x.1.trigDown = true ∧ ∃ src : Source, src.isOf x.1.cfg.trigger = true ∧
      x.2 = { source := some src, released := false, upSent := false } := by
  have hodd : (triggerEdges evs).length % 2 = 1 := by
    rw [h.alternate] at hlast
    exact alternating_last hlast
  have hdown : x.1.trigDown = true := by rw [h.parity, hodd]; rfl
  obtain ⟨src, hof, -, hsrc⟩ := h.down hdown
  exact ⟨hdown, src, hof, hsrc⟩

/-- The trigger's record is kept by every move that serves its release. -/
theorem HoldSystem.tracked_step {s : HoldSystem} {before : List TriggerEvent}
    {evs : List HoldEvent} (h : Tracked s.trigger (before ++ triggerPart evs)) {a : HoldAct}
    (hserves : s.Serves a) :
    Tracked ((holdMachine P).next s a).trigger
      (before ++ triggerPart (evs ++ (holdMachine P).out s a)) := by
  have hengine : ∀ (s' : HoldSystem) (a : Act), s'.trigger = s.trigger →
      Tracked (s'.act P a).1.trigger (before ++ triggerPart (evs ++ (s'.act P a).2)) := by
    intro s' a hsame
    simp only [HoldSystem.act, triggerPart_append, triggerPart_engine, List.append_nil, hsame]
    exact h
  have hsame : Tracked s.trigger (before ++ triggerPart (evs ++ [])) := by
    rw [List.append_nil]
    exact h
  obtain ⟨x, calls, t⟩ := s
  cases a with
  | event i now =>
    cases calls with
    | cons c cs => exact hsame
    | nil =>
      have hstep := h.step (hserves rfl)
      show Tracked (edgeMachine.next x i)
        (before ++ triggerPart (evs ++ (edgeMachine.out x i).map .trigger))
      rwa [triggerPart_append, triggerPart_trigger, ← List.append_assoc]
  | call =>
    cases calls with
    | nil => exact hsame
    | cons a rest => exact hengine _ a rfl
  | act a => exact hengine _ a rfl

/-! ### Every run -/

/-- The engine waits for its first command in Hold mode. -/
structure Thread.WaitsInHold (t : Thread) : Prop where
  loc : t.loc = .idle
  queue : t.e.queue = []
  mode : t.e.cfg.mode.mode = .hold
  pending : t.e.pendingCfg = none

/-- With nothing on its way the engine follows the trigger. -/
theorem Thread.WaitsInHold.follows {t : Thread} (h : t.WaitsInHold)
    (x : TriggerEngine × LastDown) : HoldSystem.Follows { trigger := x, thread := t } [] := by
  have hwaiting : t.waiting = [] := by rw [Thread.waiting, h.loc, h.queue]; rfl
  refine ⟨?_, ⟨h.mode, ?_, ?_, ?_, ?_⟩, by simp⟩
  · rw [HoldSystem.onTheWay, hwaiting]
    rfl
  · rw [Engine.latest, h.pending]
    exact h.mode
  · simp [hwaiting]
  · simp [h.loc]
  · simp [h.loc, Loc.inRun]

variable (P)

/-- **In Hold mode clicks go out only while the trigger is held**, in every run of the two threads
    and of those around them: the engine takes the edges the trigger gave in their order, and none
    is lost on the way; it is in a run, or sends anything, only if the last edge it took was a
    Down; and with nothing on the way a run means that what the Down came from is still held. -/
theorem clicks_only_while_held {t : Thread} (ht : t.WaitsInHold) (ins : List TriggerInput)
    (acts : List HoldAct) (honly : ∀ a ∈ acts, a.HoldOnly) :
    let start : HoldSystem := { trigger := edgeMachine.after edgesStart ins, thread := t }
    let s := (holdMachine P).after start acts
    let evs := (holdMachine P).trace start acts
    edgesTaken evs ++ edgesIn s.onTheWay = edgesGiven evs ∧
      (s.thread.loc.inRun = true → (edgesTaken evs).getLast? = some true) ∧
      (∀ o, actionsOf (s.thread.step P o).2 ≠ [] → (edgesTaken evs).getLast? = some true) ∧
      (edgeMachine.Meets Served edgesStart ins →
        (holdMachine P).Meets HoldSystem.Serves start acts → s.onTheWay = [] →
        s.thread.loc.inRun = true → s.trigger.1.trigDown = true ∧
          ∃ src : Source, src.isOf s.trigger.1.cfg.trigger = true ∧
            s.trigger.2 = { source := some src, released := false, upSent := false }) := by
  intro start s evs
  have h : s.Follows evs := (holdMachine P).history_of_meets (P := fun _ a => a.HoldOnly)
    (fun s evs a hs ha => hs.step ha) (ht.follows _)
    ((holdMachine P).meets_of_forall honly)
  have hrun : s.thread.loc.inRun = true → (edgesTaken evs).getLast? = some true :=
    fun hin => (downAfter_iff _).mp (h.holds.run hin)
  refine ⟨h.edges, hrun, fun o hacts => (downAfter_iff _).mp (h.holds.acts hacts), ?_⟩
  intro hserved hserves hnone hin
  have hbefore : Tracked (edgeMachine.after edgesStart ins)
      ([] ++ edgeMachine.trace edgesStart ins) :=
    edgeMachine.history_of_meets (fun x evs i hx hi => hx.step hi) Tracked.start hserved
  have hstart : Tracked start.trigger (edgeMachine.trace edgesStart ins ++ triggerPart []) := by
    rw [triggerPart_nil, List.append_nil]
    exact hbefore
  have htracked : Tracked s.trigger (edgeMachine.trace edgesStart ins ++ triggerPart evs) :=
    (holdMachine P).history_of_meets
      (I := fun s evs => Tracked s.trigger (edgeMachine.trace edgesStart ins ++ triggerPart evs))
      (fun s evs a hs ha => HoldSystem.tracked_step hs ha) hstart hserves
  -- With nothing on the way the last edge taken is the last one given.
  have hgiven : edgesTaken evs = edgesGiven evs := by
    have hedges := h.edges
    rwa [hnone, edgesIn_nil, List.append_nil] at hedges
  refine htracked.held ?_
  have hlast := hrun hin
  rw [hgiven] at hlast
  rw [triggerEdges_append, List.getLast?_append, show (triggerEdges (triggerPart evs)).getLast? =
    some true from hlast]
  rfl

/-- F8 as the trigger. -/
def holdKey : List TriggerInput :=
  [.setConfig { trigger := { device := .keyboard, code := 0x77 } }, .applyPendingConfig]

/-- An armed engine in Hold mode, at its wait. -/
def holdThread : Thread :=
  (engineMachine .tenMegahertz).after (Thread.start .tenMegahertz {} 1000000000)
    (Act.post (.setConfig { mode := { mode := .hold } }) ++ Act.arm true ++ Act.steps 4)

/-- F8 goes down, its command is posted, and the engine makes `n` steps. -/
def holdPress (n : ℕ) : List HoldAct :=
  .event (.key true 0x77 0x42 false 10 true) 20 :: List.replicate 3 .call ++
    List.replicate n (.act (.thread {}))

/-- A press of F8, with the engine in its run: the key is down there. -/
theorem clicks_only_while_held_press :
    let s := (holdMachine .tenMegahertz).after
      { trigger := edgeMachine.after edgesStart holdKey, thread := holdThread } (holdPress 6)
    s.thread.loc.inRun = true ∧ s.trigger.1.trigDown = true :=
  ⟨by decide +kernel,
    ((clicks_only_while_held .tenMegahertz (t := holdThread)
      ⟨by decide +kernel, by decide +kernel, by decide +kernel, by decide +kernel⟩ holdKey
      (holdPress 6) (by decide +kernel)).2.2.2 (by decide +kernel) (by decide +kernel)
        (by decide +kernel) (by decide +kernel)).1⟩

end InfinityClicker
