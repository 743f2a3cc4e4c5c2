import InfinityClicker.Scheduler.ActionCount
import InfinityClicker.Scheduler.Grid
import InfinityClicker.Scheduler.TriggerBatches

namespace InfinityClicker

open Machines

/-!
# Ending an unlimited run from the trigger

The limits of a run are fixed when it starts; a trigger edge is read in the mode in force when it
arrives.

* `Thread.Stoppable` — a timed run without limits has an edge that stops it;
* `RunCtl.Endless` — no count and no time ends the run;
* `Thread.KeepsTrigger` — Burst never comes into force in an endless run, nor does a run become
  endless under it;
* `endless_stoppable` — then every run is bounded or can be stopped from the trigger.
-/

variable {P : Platform}

/-- Neither a count nor a time ends the run. -/
def RunCtl.Endless (run : RunCtl) : Prop := run.remaining = kUnlimited ∧ run.endQpc = kNoEnd

instance (run : RunCtl) : Decidable run.Endless := inferInstanceAs (Decidable (_ ∧ _))

/-- **A run that can be ended**: in a timed run without limits some trigger edge, handled in the
    mode in force, stops it. -/
def Thread.Stoppable (t : Thread) : Prop :=
  t.loc.timedLocals.isSome = true → t.e.run.Endless →
    ∃ x : TriggerEdge, ({ t.e with queue := [x.command] }).handleRunCommands.run.stop = true

/-! ### The condition -/

/-- A press of the trigger. -/
def Command.isPress : Command → Bool
  | .triggerDown _ => true
  | _ => false

/-- A command that stops a run in every mode. -/
def Command.isStop : Command → Bool
  | .arm on => !on
  | .stopRun | .emergency _ | .quit => true
  | _ => false

/-- The presses of a batch, up to a `Quit`. -/
def presses (cs : List Command) : ℕ := (Engine.handled cs).countP Command.isPress

/-- The presses of a Burst run leave its counter away from `kUnlimited`, also when they wrap it. -/
def Engine.Counts (e : Engine) (cs : List Command) : Prop :=
  ∀ n ≤ presses cs, e.run.remaining + BitVec.ofNat 64 n * e.cfg.mode.burstCount ≠ kUnlimited

/-- Under Burst no run is endless: none starts so, none that is so gets the mode, and the counter
    is not wrapped to `kUnlimited`, by presses or by an action finished at 0. -/
def Engine.KeepsTrigger (P : Platform) (e : Engine) (o : Obs) : Loc → Prop
  | .commands [] b =>
    b.quit = false → b.start = true → e.prog.ok = true → e.cfg.maxMode = false →
      e.cfg.mode.mode = .burst →
        ¬ (e.beginRun P b.lim (e.clock + o.dt 0 + o.dt 1)).run.Endless
  | .timedConfig _ =>
    ∀ c ∈ e.pendingCfg, c.maxMode = false → c.mode.mode = .burst → ¬ e.run.Endless
  | .timed _ | .timedPause _ =>
    e.cfg.mode.mode = .burst → e.run.endQpc = kNoEnd →
      e.queue.any Command.isStop = false → e.Counts e.queue
  | .timedAct l =>
    e.cfg.mode.mode = .burst → e.run.endQpc = kNoEnd → l.step + 1 = e.prog.steps.length →
      e.run.remaining ≠ 0
  | _ => True

/-- The engine's thread keeps its runs in the reach of the trigger. -/
def Thread.KeepsTrigger (P : Platform) (t : Thread) : Act → Prop
  | .thread o => t.e.KeepsTrigger P o t.loc
  | _ => True

instance (e : Engine) (cs : List Command) : Decidable (e.Counts cs) :=
  inferInstanceAs (Decidable (∀ n ≤ _, _ ≠ _))

instance (P : Platform) (e : Engine) (o : Obs) : ∀ loc, Decidable (e.KeepsTrigger P o loc)
  | .commands [] _ => inferInstanceAs (Decidable (_ = _ → _ = _ → _ = _ → _ = _ → _ = _ → ¬ _))
  | .timedConfig _ => inferInstanceAs (Decidable (∀ c ∈ e.pendingCfg, _ = _ → _ = _ → ¬ _))
  | .timed _ | .timedPause _ => inferInstanceAs (Decidable (_ = _ → _ = _ → _ = _ → _))
  | .timedAct _ => inferInstanceAs (Decidable (_ = _ → _ = _ → _ = _ → _ ≠ _))
  | .commands (_ :: _) _ | .idle | .timedGate _ | .timedLate _ _ | .max _ | .maxConfig _
  | .maxGate _ | .maxPause _ _ | .maxSend _ _ | .ending | .done => instDecidableTrue

instance (P : Platform) (t : Thread) : ∀ act, Decidable (t.KeepsTrigger P act)
  | .thread o => inferInstanceAs (Decidable (t.e.KeepsTrigger P o t.loc))
  | .push _ | .storeFlag | .setEvent | .storeArmed _ => instDecidableTrue

/-! ### Edges -/

/-- Outside Burst there is an edge that stops every run. -/
theorem Engine.stoppable_of_ne_burst {e : Engine} (h : e.cfg.mode.mode ≠ .burst) :
    ∃ x : TriggerEdge, ({ e with queue := [x.command] }).handleRunCommands.run.stop = true := by
  by_cases hhold : e.cfg.mode.mode = .hold
  · -- A release.
    refine ⟨.up 0, ?_⟩
    show (e.drained.runCommand (.triggerUp 0)).run.stop = true
    have hkind : (decideOnTriggerUp e.drained.cfg.mode true).kind = .stop := by
      show (decideOnTriggerUp e.cfg.mode true).kind = .stop
      simp [decideOnTriggerUp, hhold]
    simp only [runCommand]
    rw [if_pos hkind]
  · -- A press.
    refine ⟨.down 0, ?_⟩
    show (e.drained.runCommand (.triggerDown 0)).run.stop = true
    have hkind : (decideOnTriggerDown e.drained.cfg.mode true).kind = .stop := by
      show (decideOnTriggerDown e.cfg.mode true).kind = .stop
      unfold decideOnTriggerDown
      cases hmode : e.cfg.mode.mode with
      | hold => exact absurd hmode hhold
      | burst => exact absurd hmode h
      | _ => rfl
    simp only [runCommand]
    rw [if_pos hkind]

/-- Under Burst none does. -/
theorem Engine.not_stopped_of_burst {e : Engine} (h : e.cfg.mode.mode = .burst)
    (hgo : e.run.stop = false) (x : TriggerEdge) :
    ({ e with queue := [x.command] }).handleRunCommands.run.stop = false := by
  cases x with
  | down q =>
    show (e.drained.runCommand (.triggerDown q)).run.stop = false
    have hkind : (decideOnTriggerDown e.drained.cfg.mode true).kind = .extend := by
      show (decideOnTriggerDown e.cfg.mode true).kind = .extend
      simp [decideOnTriggerDown, h]
    simp only [runCommand, hkind]
    split
    · next hstop => exact absurd hstop (by simp)
    · split <;> exact hgo
  | up q =>
    show (e.drained.runCommand (.triggerUp q)).run.stop = false
    have hkind : (decideOnTriggerUp e.drained.cfg.mode true).kind ≠ .stop := by
      show (decideOnTriggerUp e.cfg.mode true).kind ≠ .stop
      simp [decideOnTriggerUp, h]
    simp only [runCommand]
    rw [if_neg hkind]
    exact hgo

/-! ### The counter of a Burst run -/

namespace Engine

variable {e : Engine} {o : Obs}

theorem runCommand_of_stop {c : Command} (h : c.isStop = true) :
    (e.runCommand c).run.stop = true := by
  cases c with
  | arm on =>
    obtain rfl : on = false := by simpa [Command.isStop] using h
    rfl
  | stopRun | emergency qpc | quit => rfl
  | _ => exact absurd h (by simp [Command.isStop])

/-- A batch with a command that stops stops the run. -/
theorem runCommands_of_stop (cs : List Command) (h : cs.any Command.isStop = true) :
    (e.runCommands cs).run.stop = true := by
  fun_induction runCommands e cs with
  | case1 => exact absurd h (by simp)
  | case2 e => rfl
  | case3 e c cs _ ih =>
    rw [List.any_cons, Bool.or_eq_true] at h
    rcases h with hc | hcs
    · exact (e.runCommand c).runCommands_stop cs (runCommand_of_stop hc)
    · exact ih hcs

/-- A press adds its actions while the counter is no `kUnlimited`; nothing else changes it. -/
theorem runCommand_burst (h : e.cfg.mode.mode = .burst) (hne : e.run.remaining ≠ kUnlimited)
    (c : Command) : (e.runCommand c).run.remaining =
      if c.isPress then e.run.remaining + e.cfg.mode.burstCount else e.run.remaining := by
  cases c with
  | triggerDown q =>
    have hkind : (decideOnTriggerDown e.cfg.mode true).kind = .extend := by
      simp [decideOnTriggerDown, h]
    have hmore : (decideOnTriggerDown e.cfg.mode true).extendBy = e.cfg.mode.burstCount := by
      simp [decideOnTriggerDown, h]
    have hstop : (decideOnTriggerDown e.cfg.mode true).kind ≠ .stop := by simp [hkind]
    simp only [runCommand]
    rw [if_neg hstop, if_pos ⟨hkind, hne⟩]
    show e.run.remaining + (decideOnTriggerDown e.cfg.mode true).extendBy = _
    rw [hmore]
    rfl
  | triggerUp q =>
    simp only [runCommand]
    split <;> rfl
  | arm on => cases on <;> rfl
  | _ => rfl

/-- **Presses that keep away from `kUnlimited`** leave a limited run limited. -/
theorem runCommands_burst (cs : List Command) (h : e.cfg.mode.mode = .burst)
    (hcounts : e.Counts cs) : (e.runCommands cs).run.remaining ≠ kUnlimited := by
  fun_induction runCommands e cs with
  | case1 e => simpa using hcounts 0 (Nat.zero_le _)
  | case2 e => simpa [runCommand, post] using hcounts 0 (Nat.zero_le _)
  | case3 e c cs hquit ih =>
    have hne : e.run.remaining ≠ kUnlimited := by simpa using hcounts 0 (Nat.zero_le _)
    have hrem := runCommand_burst h hne c
    have hcfg : (e.runCommand c).cfg = e.cfg := (e.runCommand_frame c).2.1
    apply ih
    · rw [hcfg]
      exact h
    · intro n hn
      rw [hcfg, hrem]
      have hpresses : presses (c :: cs) = presses cs + if c.isPress then 1 else 0 := by
        rw [presses, handled_cons hquit, List.countP_cons]
        rfl
      split
      · next hpress =>
        rw [if_pos hpress] at hpresses
        have hone := hcounts (n + 1) (by omega)
        have hsum : e.run.remaining + e.cfg.mode.burstCount +
            BitVec.ofNat 64 n * e.cfg.mode.burstCount =
              e.run.remaining + BitVec.ofNat 64 (n + 1) * e.cfg.mode.burstCount := by
          rw [BitVec.ofNat_add, BitVec.add_mul, BitVec.one_mul, BitVec.add_assoc,
            BitVec.add_comm e.cfg.mode.burstCount]
        rw [hsum]
        exact hone
      · next hno =>
        rw [if_neg hno] at hpresses
        exact hcounts n (by omega)

/-- A poll that goes on leaves a limited Burst run limited. -/
theorem poll_burst (h : e.cfg.mode.mode = .burst) (hne : e.run.remaining ≠ kUnlimited)
    (hcounts : e.queue.any Command.isStop = false → e.Counts e.queue)
    (hgo : e.poll.2.2 = false) : e.poll.1.run.remaining ≠ kUnlimited := by
  unfold poll at hgo ⊢
  split
  · next hflag =>
    rw [if_pos hflag] at hgo
    have hany : e.queue.any Command.isStop = false := by
      by_contra hstop
      rw [Bool.not_eq_false] at hstop
      have hstopped := runCommands_of_stop (e := e.drained) e.queue hstop
      exact Bool.false_ne_true (hgo.symm.trans hstopped)
    exact runCommands_burst e.queue h (hcounts hany)
  · exact hne

/-- An action finished with something left makes no run endless. -/
theorem useUp_burst {n : ℕ} (hn : n ≤ e.run.remaining.toNat)
    (hne : e.run.remaining ≠ kUnlimited) : (e.useUp n).run.remaining ≠ kUnlimited := by
  have hlt : e.run.remaining.toNat < 2 ^ 64 - 1 := by
    have hbound := e.run.remaining.isLt
    have hmax : e.run.remaining.toNat ≠ 2 ^ 64 - 1 := by
      intro heq
      exact hne (BitVec.eq_of_toNat_eq heq)
    omega
  have hleft := e.useUp_remaining hn hlt
  apply ne_kUnlimited
  omega

end Engine

/-! ### Runs -/

/-- In a timed run under Burst a count or a time is left. -/
def Thread.Bounded (t : Thread) : Prop :=
  t.loc.timedLocals.isSome = true → t.e.cfg.mode.mode = .burst → ¬ t.e.run.Endless

namespace Thread

variable {e : Engine} {o : Obs}

/-- A step of a timed run that keeps the mode and the limits. -/
theorem Bounded.of_same {loc : Loc} {t' : Thread} (h : Bounded ⟨e, loc⟩)
    (htimed : loc.timedLocals.isSome = true) (hcfg : t'.e.cfg = e.cfg) (hrun : t'.e.run = e.run) :
    t'.Bounded := by
  intro _ hmode
  rw [hcfg] at hmode
  rw [hrun]
  exact h htimed hmode

theorem bounded_of_untimed {t : Thread} (h : t.loc.timedLocals = none) : t.Bounded := by
  intro htimed
  rw [h] at htimed
  exact absurd htimed Bool.false_ne_true

/-- A poll that goes on. -/
theorem poll_bounded (h : e.cfg.mode.mode = .burst → ¬ e.run.Endless)
    (hcounts : e.cfg.mode.mode = .burst → e.run.endQpc = kNoEnd →
      e.queue.any Command.isStop = false → e.Counts e.queue)
    (hgo : e.poll.2.2 = false) (hmode : e.poll.1.cfg.mode.mode = .burst) :
    ¬ e.poll.1.run.Endless := by
  rw [e.poll_frame.2.1] at hmode
  intro hendless
  have hend : e.run.endQpc = kNoEnd := by
    rw [← hendless.2]
    simp
  have hne : e.run.remaining ≠ kUnlimited := fun heq => h hmode ⟨heq, hend⟩
  exact Engine.poll_burst hmode hne (hcounts hmode hend) hgo hendless.1

theorem enterMax_bounded (q : ℤ) : (e.enterMax q o).1.Bounded := by
  obtain ⟨-, -, hloc⟩ := e.enterMax_spec q o
  rcases hloc with hloc | ⟨l, hloc⟩
  · exact bounded_of_untimed (by rw [hloc]; rfl)
  · exact bounded_of_untimed (by rw [hloc]; rfl)

/-- **A run that starts** under Burst has a limit. -/
theorem doRun_bounded (lim : RunLimits) (q : ℤ)
    (hkeeps : e.prog.ok = true → e.cfg.maxMode = false → e.cfg.mode.mode = .burst →
      ¬ (e.beginRun P lim (e.clock + o.dt 1)).run.Endless) :
    (e.doRun P lim q o).1.Bounded := by
  unfold Engine.doRun
  split
  · exact bounded_of_untimed rfl
  · next hok =>
    dsimp only
    have hcfg := ((e.tick (o.dt 1)).beginRun P lim (e.tick (o.dt 1)).clock).publish_frame P
      (e.tick (o.dt 1)).clock true
    split
    · exact enterMax_bounded q
    · next hmax =>
      rw [hcfg.2.1] at hmax
      intro _ hmode
      have hburst : e.cfg.mode.mode = .burst := by
        rw [← hmode]
        show e.cfg.mode.mode = (Engine.publish P _ _ _).cfg.mode.mode
        rw [hcfg.2.1]
        rfl
      show ¬ (Engine.publish P _ _ _).run.Endless
      rw [Engine.publish_run]
      exact hkeeps (by simpa using hok) (by simpa using hmax) hburst

theorem stepCommands_bounded (cmds : List Command) (b : Engine.Batch)
    (hkeeps : e.KeepsTrigger P o (.commands cmds b)) :
    (e.stepCommands P cmds b o).1.Bounded := by
  cases cmds with
  | cons c cs => exact bounded_of_untimed rfl
  | nil =>
    have hframe := (e.tick (o.dt 0)).publish_frame P (e.tick (o.dt 0)).clock true
    simp only [Engine.stepCommands]
    split
    · exact bounded_of_untimed rfl
    · next hquit =>
      split
      · next hstart =>
        apply doRun_bounded
        intro hok hmax hmode
        rw [hframe.2.2.1] at hok
        rw [hframe.2.1] at hmax hmode
        rw [hframe.2.2.2.2.2.2.2.2.2.2]
        exact hkeeps (by simpa using hquit) hstart hok hmax hmode
      · exact bounded_of_untimed rfl

theorem stepTimed_bounded (l : TimedLocals) (h : Bounded ⟨e, .timed l⟩)
    (hkeeps : e.KeepsTrigger P o (.timed l)) : (e.stepTimed l).1.Bounded := by
  have hbounded : e.cfg.mode.mode = .burst → ¬ e.run.Endless := h rfl
  simp only [Engine.stepTimed]
  split
  · exact bounded_of_untimed rfl
  · next hgo =>
    rw [Bool.not_eq_true] at hgo
    split
    · exact fun _ => poll_bounded hbounded hkeeps hgo
    · exact fun _ => poll_bounded hbounded hkeeps hgo

theorem stepTimedPause_bounded (l : TimedLocals) (h : Bounded ⟨e, .timedPause l⟩)
    (hkeeps : e.KeepsTrigger P o (.timedPause l)) : (e.stepTimedPause P l o).1.Bounded := by
  have hbounded : e.cfg.mode.mode = .burst → ¬ e.run.Endless := h rfl
  unfold Engine.stepTimedPause
  rcases e.stepPause_cases o _ _ with ⟨-, e', -, heq⟩ | ⟨hgo, e', go, isOpen, hp, hor, -, heq⟩
  · rw [heq]
    exact bounded_of_untimed rfl
  · -- The engine woken up is the one before but for its clock and the event.
    have hpoll := poll_bounded (e := e.woken o) hbounded hkeeps hgo
    rw [← hp.run, ← hp.cfg] at hpoll
    rw [heq]
    rcases hor with ⟨-, rfl⟩ | ⟨-, rfl⟩
    · exact fun _ => hpoll
    · intro _
      show ((e'.tick (o.dt 1)).publish P _ false).cfg.mode.mode = .burst →
        ¬ ((e'.tick (o.dt 1)).publish P _ false).run.Endless
      rw [Engine.publish_run, (Engine.publish_frame P _ _ _).2.1]
      exact hpoll

theorem stepTimedConfig_bounded (l : TimedLocals) (h : Bounded ⟨e, .timedConfig l⟩)
    (hkeeps : e.KeepsTrigger P o (.timedConfig l)) : (e.stepTimedConfig P l o).1.Bounded := by
  unfold Engine.stepTimedConfig
  split
  · exact h.of_same rfl rfl rfl
  · next c hpending =>
    dsimp only
    split
    · exact enterMax_bounded 0
    · next hmax =>
      have hfree := hkeeps c hpending (by simpa using hmax)
      split
      · exact fun _ => hfree
      · exact fun _ => hfree

theorem stepTimedGate_bounded (l : TimedLocals) (h : Bounded ⟨e, .timedGate l⟩) :
    (e.stepTimedGate P l o).1.Bounded := by
  unfold Engine.stepTimedGate
  split
  · exact bounded_of_untimed rfl
  · dsimp only
    split
    · split
      · exact h.of_same rfl rfl rfl
      · next why _ =>
        have hframe := (e.tick (o.dt 0)).enterPause_frame P why o
        exact h.of_same rfl hframe.1 hframe.2.2.2.2.1
    · exact h.of_same rfl rfl rfl

theorem stepTimedLate_bounded (l : TimedLocals) (now : ℤ) (h : Bounded ⟨e, .timedLate l now⟩) :
    (e.stepTimedLate P l now).1.Bounded := by
  unfold Engine.stepTimedLate
  dsimp only
  split
  · exact bounded_of_untimed rfl
  · exact h.of_same rfl rfl rfl

/-- **A step of an action** finishes it with something left. -/
theorem stepTimedAct_bounded (l : TimedLocals) (h : Bounded ⟨e, .timedAct l⟩)
    (hkeeps : e.KeepsTrigger P o (.timedAct l)) : (e.stepTimedAct P l o).1.Bounded := by
  rcases e.stepTimedAct_cases P l o with ⟨-, heq⟩ |
    ⟨st, -, heq | ⟨e', hsame, heq⟩ | ⟨e', hsame, -, heq⟩⟩
  · rw [heq]
    exact bounded_of_untimed rfl
  · rw [heq]
    exact h
  · rw [heq]
    exact h.of_same rfl hsame.cfg hsame.run
  · have hcfg := (Engine.keeps_fireStep (P := P) (e := e') l st o).cfg
    have hrun := Engine.fireStep_run (P := P) (e := e') (o := o) l st
    rw [hsame.prog] at hrun
    rw [heq]
    intro _ hmode
    rw [hcfg, hsame.cfg] at hmode
    rw [hrun]
    split
    · next hlast =>
      rintro ⟨hrem, hend⟩
      have hend' : e.run.endQpc = kNoEnd := by
        rw [← hsame.run, ← hend]
        exact ((e'.useUp_frame _).2.2.2.2.2.2.1).symm
      have hle := e'.batchSize_le l (e'.clock + o.dt 1)
        (by rw [hsame.run]; exact hkeeps hmode hend' hlast)
      refine Engine.useUp_burst hle ?_ hrem
      rw [hsame.run]
      exact fun heq' => h rfl hmode ⟨heq', hend'⟩
    · rw [hsame.run]
      exact h rfl hmode

/-- **A step keeps the runs bounded** that the trigger cannot stop. -/
theorem Bounded.step {t : Thread} (h : t.Bounded) (hkeeps : t.KeepsTrigger P (.thread o)) :
    (t.step P o).1.Bounded := by
  obtain ⟨e, loc⟩ := t
  cases loc with
  | commands cmds b => exact stepCommands_bounded cmds b hkeeps
  | timed l => exact stepTimed_bounded (P := P) (o := o) l h hkeeps
  | timedConfig l => exact stepTimedConfig_bounded l h hkeeps
  | timedGate l => exact stepTimedGate_bounded l h
  | timedPause l => exact stepTimedPause_bounded l h hkeeps
  | timedLate l now => exact stepTimedLate_bounded l now h
  | timedAct l => exact stepTimedAct_bounded l h hkeeps
  | _ => exact bounded_of_untimed (Thread.step_untimed rfl (by simp) o)

theorem Bounded.next {t : Thread} (h : t.Bounded) (act : Act) (hkeeps : t.KeepsTrigger P act) :
    ((engineMachine P).next t act).Bounded := by
  cases act with
  | thread o => exact h.step hkeeps
  | _ => exact h

theorem Bounded.stoppable {t : Thread} (h : t.Bounded) : t.Stoppable := by
  intro htimed hendless
  apply Engine.stoppable_of_ne_burst
  intro hburst
  exact h htimed hburst hendless

end Thread

/-- **An unlimited run can be ended from the trigger** while Burst comes into force in none: every
    state of such a run of the engine is bounded by a count or a time, or an edge stops it. -/
theorem endless_stoppable (P : Platform) (waiter : PreciseWaiter) (clock : ℤ) (acts : List Act)
    (h : (engineMachine P).Meets (Thread.KeepsTrigger P) (Thread.start P waiter clock) acts) :
    ((engineMachine P).after (Thread.start P waiter clock) acts).Stoppable := by
  have hbounded := (engineMachine P).invariant_of_meets (I := Thread.Bounded)
    (fun t act ht hact => ht.next act hact) (Thread.bounded_of_untimed rfl) h
  exact hbounded.stoppable

/-- A Hold run started from the trigger, and in it a configuration with `mode`. -/
def modeInHold (mode : TriggerMode) : List Act :=
  Act.post (.setConfig { mode := { mode := .hold } }) ++ Act.arm true ++
    Act.post (.triggerDown 1) ++ Act.steps 6 ++
    Act.post (.setConfig { mode := { mode := mode } }) ++ Act.steps 8

/-- With Toggle a press stops it. -/
theorem toggleInHold_stoppable :
    (∃ x : TriggerEdge,
      ({ ((engineMachine .tenMegahertz).after (Thread.start .tenMegahertz {} 1000000000)
          (modeInHold .toggle)).e with
        queue := [x.command] }).handleRunCommands.run.stop = true) :=
  endless_stoppable .tenMegahertz {} 1000000000 (modeInHold .toggle) (by decide +kernel)
    (by decide +kernel) (by decide +kernel)

/-- With Burst no edge does. -/
theorem burstInHold_unstoppable : ¬ ∀ acts : List Act,
    ((engineMachine .tenMegahertz).after (Thread.start .tenMegahertz {} 1000000000)
      acts).Stoppable := by
  intro hall
  obtain ⟨x, hx⟩ := hall (modeInHold .burst) (by decide +kernel) (by decide +kernel)
  rw [Engine.not_stopped_of_burst (by decide +kernel) (by decide +kernel)] at hx
  exact Bool.false_ne_true hx

end InfinityClicker
