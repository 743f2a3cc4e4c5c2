import InfinityClicker.Scheduler.EngineSteps

namespace InfinityClicker

open Machines

/-!
# The moves of the thread, seen by the other threads

What a step of the engine's thread does to what the other threads share with it, to the
configuration and to the programs, said once for every place.

* `Engine.Keeps` — the engine is the same up to clocks, counters, the sender, the state and the
  run's own controls;
* `Thread.Moves` — the kinds of step: waking up, a command, the end of a batch, a poll, a
  configuration applied, the rest of a run, its end;
* `Thread.step_moves` — every step is one of them;
* `Thread.step_runsCompleted` — the end of a run is what `runsCompleted` counts;
* `Thread.step_leads` — the places a step can lead to.
-/

namespace Loc

/-- At the top of a run's loop: the next thing is the poll. -/
def tops : Loc → Bool
  | .timed _ | .max _ => true
  | _ => false

/-- In `pauseUntilGate`. -/
def pauses : Loc → Bool
  | .timedPause _ | .maxPause _ _ => true
  | _ => false

/-- Where a run looks at `pendingCfg_`. -/
def configures : Loc → Bool
  | .timedConfig _ | .maxConfig _ => true
  | _ => false

/-- Where a step can lead from a place. -/
def leads : Loc → Loc → Bool
  | .idle, .idle | .idle, .commands _ _ => true
  | .commands _ _, .commands _ _ | .commands _ _, .idle | .commands _ _, .done
  | .commands _ _, .timed _ | .commands _ _, .max _ | .commands _ _, .ending => true
  | .timed _, .timedConfig _ | .timed _, .timedAct _ | .timed _, .ending => true
  | .timedConfig _, .timedGate _ | .timedConfig _, .max _ | .timedConfig _, .ending => true
  | .timedGate _, .timedLate _ _ | .timedGate _, .timedPause _ | .timedGate _, .ending => true
  | .timedPause _, .timed _ | .timedPause _, .timedPause _ | .timedPause _, .ending => true
  | .timedLate _ _, .timedAct _ | .timedLate _ _, .ending => true
  | .timedAct _, .timed _ | .timedAct _, .timedAct _ | .timedAct _, .ending => true
  | .max _, .maxConfig _ | .max _, .ending => true
  | .maxConfig _, .maxGate _ | .maxConfig _, .ending => true
  | .maxGate _, .maxSend _ _ | .maxGate _, .maxPause _ _ | .maxGate _, .ending => true
  | .maxPause _ _, .maxSend _ _ | .maxPause _ _, .maxPause _ _ | .maxPause _ _, .ending => true
  | .maxSend _ _, .max _ => true
  | .ending, .idle | .done, .done => true
  | _, _ => false

end Loc

namespace Engine

variable (P : Platform) (e : Engine)

/-- `e'` is `e` up to clocks, counters, the sender, the state and the run's controls. -/
structure Keeps (e e' : Engine) : Prop where
  queue : e'.queue = e.queue
  cmdFlag : e'.cmdFlag = e.cmdFlag
  cmdEvent : e'.cmdEvent = e.cmdEvent
  armed : e'.armed = e.armed
  runsCompleted : e'.runsCompleted = e.runsCompleted
  cfg : e'.cfg = e.cfg
  pendingCfg : e'.pendingCfg = e.pendingCfg
  prog : e'.prog = e.prog
  maxProg : e'.maxProg = e.maxProg
  downTimeClamped : e'.downTimeClamped = e.downTimeClamped

/-- An engine keeps its own record. -/
theorem Keeps.refl : e.Keeps e := ⟨rfl, rfl, rfl, rfl, rfl, rfl, rfl, rfl, rfl, rfl⟩

/-- What two calls keep, they keep together. -/
theorem Keeps.trans {e₁ e₂ e₃ : Engine} (h : Keeps e₁ e₂) (h' : Keeps e₂ e₃) : Keeps e₁ e₃ :=
  ⟨h'.queue.trans h.queue, h'.cmdFlag.trans h.cmdFlag, h'.cmdEvent.trans h.cmdEvent,
    h'.armed.trans h.armed, h'.runsCompleted.trans h.runsCompleted, h'.cfg.trans h.cfg,
    h'.pendingCfg.trans h.pendingCfg, h'.prog.trans h.prog, h'.maxProg.trans h.maxProg,
    h'.downTimeClamped.trans h.downTimeClamped⟩

/-! ### The pieces of a step -/

/-- Publishing a snapshot keeps the state of the run. -/
theorem keeps_publish (now : ℤ) (force : Bool) : e.Keeps (e.publish P now force) := by
  unfold publish
  split
  · exact Keeps.refl e
  · exact ⟨rfl, rfl, rfl, rfl, rfl, rfl, rfl, rfl, rfl, rfl⟩

/-- A snapshot that is due keeps the state of the run. -/
theorem keeps_publishDue (fire : ℤ) : e.Keeps (e.publishDue P fire) := by
  unfold publishDue
  split
  · exact e.keeps_publish P fire false
  · exact Keeps.refl e

/-- Recording a trigger latency keeps the state of the run. -/
theorem keeps_recordTriggerLatency (q fire : ℤ) : e.Keeps (e.recordTriggerLatency P q fire) := by
  unfold recordTriggerLatency
  split
  · exact Keeps.refl e
  · dsimp only
    split
    · exact Keeps.refl e
    · exact ⟨rfl, rfl, rfl, rfl, rfl, rfl, rfl, rfl, rfl, rfl⟩

/-- Counting actions off a limit keeps the state of the run. -/
theorem keeps_useUp (n : ℕ) : e.Keeps (e.useUp n) := by
  unfold useUp
  split
  · exact ⟨rfl, rfl, rfl, rfl, rfl, rfl, rfl, rfl, rfl, rfl⟩
  · exact Keeps.refl e

/-- The first action of a run keeps its state. -/
theorem keeps_onStarted (l : TimedLocals) (fire : ℤ) (batch : ℕ) :
    e.Keeps (e.onStarted P l fire batch) := by
  unfold onStarted
  split
  · have hstats : e.Keeps { e with stats := onActionBatch P e.stats l.tl fire batch } :=
      ⟨rfl, rfl, rfl, rfl, rfl, rfl, rfl, rfl, rfl, rfl⟩
    dsimp only
    split
    · exact hstats.trans (keeps_recordTriggerLatency P _ _ _)
    · exact hstats
  · exact Keeps.refl e

/-- The `SendInput` of a timed step. -/
theorem keeps_fireStep (l : TimedLocals) (st : ActionStep) (o : Obs) :
    e.Keeps (e.fireStep P l st o).1.e := by
  unfold fireStep
  dsimp only
  refine Keeps.trans ?_ (keeps_publishDue P _ _)
  split
  · refine Keeps.trans ?_ (keeps_useUp _ _)
    refine Keeps.trans ?_ (keeps_onStarted P _ _ _ _)
    exact ⟨rfl, rfl, rfl, rfl, rfl, rfl, rfl, rfl, rfl, rfl⟩
  · refine Keeps.trans ?_ (keeps_onStarted P _ _ _ _)
    exact ⟨rfl, rfl, rfl, rfl, rfl, rfl, rfl, rfl, rfl, rfl⟩

/-- A call of a MAX run. -/
theorem keeps_fireMax (l : MaxLocals) (o : Obs) : e.Keeps (e.fireMax P l o).1.e := by
  unfold fireMax
  dsimp only
  refine Keeps.trans ?_ (keeps_publishDue P _ _)
  refine Keeps.trans ?_ (keeps_useUp _ _)
  split
  · refine Keeps.trans ?_ (keeps_recordTriggerLatency P _ _ _)
    exact ⟨rfl, rfl, rfl, rfl, rfl, rfl, rfl, rfl, rfl, rfl⟩
  · exact ⟨rfl, rfl, rfl, rfl, rfl, rfl, rfl, rfl, rfl, rfl⟩

/-- Going into a pause keeps the state of the run. -/
theorem keeps_enterPause (why : PauseReason) (o : Obs) : e.Keeps (e.enterPause P why o).1 := by
  unfold enterPause
  dsimp only
  refine Keeps.trans ?_ (keeps_publish P _ _ _)
  exact ⟨rfl, rfl, rfl, rfl, rfl, rfl, rfl, rfl, rfl, rfl⟩

/-- A pending configuration replaces the programs whatever they were. -/
theorem Keeps.applyPending {e e' : Engine} (h : e.Keeps e') :
    (e.applyPending P).Keeps (e'.applyPending P) := by
  unfold Engine.applyPending
  rw [h.pendingCfg]
  cases e.pendingCfg with
  | some c =>
    exact ⟨h.queue, h.cmdFlag, h.cmdEvent, h.armed, h.runsCompleted, rfl, rfl, rfl, rfl, rfl⟩
  | none => exact h

/-- The end of a run: one more run is completed, and the pending configuration applied. -/
theorem keeps_stepEnding (o : Obs) :
    (({ e with runsCompleted := e.runsCompleted + 1 } : Engine).applyPending P).Keeps
      (e.stepEnding P o).1.e := by
  have hend : e.Keeps ((e.releaseAll o.release o.retry).tick (o.dt 0)).endRun :=
    ⟨rfl, rfl, rfl, rfl, rfl, rfl, rfl, rfl, rfl, rfl⟩
  have hpub := hend.trans (keeps_publish P _ (e.clock + o.dt 0) true)
  have hdone : ({ e with runsCompleted := e.runsCompleted + 1 } : Engine).Keeps
      { (((e.releaseAll o.release o.retry).tick (o.dt 0)).endRun).publish P
          (e.clock + o.dt 0) true with
        runsCompleted := ((((e.releaseAll o.release o.retry).tick (o.dt 0)).endRun).publish P
          (e.clock + o.dt 0) true).runsCompleted + 1 } :=
    ⟨hpub.queue, hpub.cmdFlag, hpub.cmdEvent, hpub.armed, congrArg (· + 1) hpub.runsCompleted,
      hpub.cfg, hpub.pendingCfg, hpub.prog, hpub.maxProg, hpub.downTimeClamped⟩
  have hback : ∀ e' : Engine, e'.Keeps e'.backToIdle.e := fun _ =>
    ⟨rfl, rfl, rfl, rfl, rfl, rfl, rfl, rfl, rfl, rfl⟩
  exact (hdone.applyPending P).trans (hback _)

end Engine

/-! ### The kinds of step -/

variable (P : Platform)

/-- What a step of the thread does to what it shares, from each place. -/
inductive Thread.Moves (t : Thread) (o : Obs) (t' : Thread) : Prop where
  /-- In the idle wait, with the event unsignalled. -/
  | sleeps (hloc : t.loc = .idle) (hevent : t.e.cmdEvent = false) (h : t' = t)
  /-- The idle wait ends, and the queue is drained. -/
  | wakes (hloc : t.loc = .idle) (hevent : t.e.cmdEvent = true)
      (h : t' = ⟨{ t.e.drained with cmdEvent := false }, .commands t.e.queue {}⟩)
  /-- A command of an idle batch. -/
  | command {c : Command} {cs : List Command} {b : Engine.Batch}
      (hloc : t.loc = .commands (c :: cs) b)
      (h : t' = ⟨(t.e.idleCommand P b o.release o.retry c).1,
        .commands cs (t.e.idleCommand P b o.release o.retry c).2⟩)
  /-- The end of a batch with `Quit`. -/
  | returns {b : Engine.Batch} (hloc : t.loc = .commands [] b) (hquit : b.quit = true)
      (h : t.e.Keeps t'.e) (hstate : t'.e.state = t.e.state) (hloc' : t'.loc = .done)
  /-- The end of a batch that starts no run. -/
  | rests {b : Engine.Batch} (hloc : t.loc = .commands [] b) (hquit : b.quit = false)
      (hstart : b.start = false ∨ t.e.prog.ok = false) (h : t.e.Keeps t'.e)
      (hstate : t'.e.state = t.e.state) (hloc' : t'.loc = .idle)
  /-- The end of a batch that starts a run. -/
  | starts {b : Engine.Batch} (hloc : t.loc = .commands [] b) (hquit : b.quit = false)
      (hstart : b.start = true) (hok : t.e.prog.ok = true) (h : t.e.Keeps t'.e)
      (hstate : t'.e.state = .running) (hloc' : t'.loc = .ending ∨ t'.loc.inRun = true)
  /-- A poll of the command flag, in a pause after its wait. -/
  | polls (hloc : t.loc.polls = true) (e : Engine)
      (he : e = t.e ∨ t.loc.pauses = true ∧ e = t.e.woken o) (h : e.poll.1.Keeps t'.e)
      (hstate : t'.e.state = t.e.state ∨ t'.e.state = .running)
      (hstop : e.poll.2.2 = true → t'.loc = .ending ∧ t'.e.state = t.e.state)
      (hgo : e.poll.2.2 = false → t'.loc.inRun = true)
  /-- The pending configuration is applied in a run. -/
  | applies {c : EngineConfig} (hloc : t.loc.configures = true)
      (hpending : t.e.pendingCfg = some c) (h : (t.e.applyPending P).Keeps t'.e)
      (hstate : t'.e.state = t.e.state) (hloc' : t'.loc = .ending ∨ t'.loc.inRun = true)
  /-- The rest of a run; a wait of it may consume the event, and the loop starts over. -/
  | runs (hrun : t.loc.inRun = true) (hpoll : t.loc.polls = false) (event : Bool)
      (hevent : event = t.e.cmdEvent ∨ event = false ∧ t'.loc.tops = true)
      (h : ({ t.e with cmdEvent := event } : Engine).Keeps t'.e)
      (hstate : t'.e.state = t.e.state ∨ t'.e.state = .paused)
      (hloc' : t'.loc = .ending ∨ t'.loc.inRun = true)
  /-- The end of a run. -/
  | ends (hloc : t.loc = .ending)
      (h : (({ t.e with runsCompleted := t.e.runsCompleted + 1 } : Engine).applyPending P).Keeps
        t'.e)
      (hstate : t'.e.state = if t.e.armed then .armed else .disarmed) (hloc' : t'.loc = .idle)
  /-- After the return. -/
  | stays (hloc : t.loc = .done) (h : t' = t)

namespace Engine

variable {P} {e : Engine} {o : Obs}

/-! ### The end of a batch -/

/-- `doRun` up to the run's loop: refused, or a run started. -/
theorem doRun_moves (lim : RunLimits) (q : ℤ) (hok : e.prog.ok = true) :
    e.Keeps (e.doRun P lim q o).1.e ∧ (e.doRun P lim q o).1.e.state = .running ∧
      ((e.doRun P lim q o).1.loc = .ending ∨ (e.doRun P lim q o).1.loc.inRun = true) := by
  have hbegin : e.Keeps ((e.tick (o.dt 1)).beginRun P lim (e.clock + o.dt 1)) :=
    ⟨rfl, rfl, rfl, rfl, rfl, rfl, rfl, rfl, rfl, rfl⟩
  have hpub := hbegin.trans (keeps_publish P _ (e.clock + o.dt 1) true)
  unfold doRun
  rw [if_neg (by simp [hok])]
  dsimp only
  split
  · obtain ⟨he, -, hloc⟩ := Engine.enterMax_spec
      (((e.tick (o.dt 1)).beginRun P lim (e.clock + o.dt 1)).publish P (e.clock + o.dt 1) true)
      q o
    rw [tick_clock, he]
    refine ⟨hpub, by simp, ?_⟩
    rcases hloc with hloc | ⟨l, hloc⟩
    · exact .inl hloc
    · exact .inr (by rw [hloc]; rfl)
  · refine ⟨?_, by simp [enterTimed], .inr rfl⟩
    exact hpub.trans ⟨rfl, rfl, rfl, rfl, rfl, rfl, rfl, rfl, rfl, rfl⟩

/-- A batch of commands moves on through one of the loop's exits. -/
theorem stepCommands_moves (cmds : List Command) (b : Batch) :
    Thread.Moves P ⟨e, .commands cmds b⟩ o (e.stepCommands P cmds b o).1 := by
  cases cmds with
  | cons c cs => exact .command rfl rfl
  | nil =>
    have htick : e.Keeps (e.tick (o.dt 0)) := ⟨rfl, rfl, rfl, rfl, rfl, rfl, rfl, rfl, rfl, rfl⟩
    have hpub := htick.trans (keeps_publish P _ (e.clock + o.dt 0) true)
    have hstate : ((e.tick (o.dt 0)).publish P (e.clock + o.dt 0) true).state = e.state := by simp
    have hclock : (e.tick (o.dt 0)).clock = e.clock + o.dt 0 := rfl
    simp only [stepCommands, hclock]
    split
    · next hquit =>
      refine .returns rfl hquit (hpub.trans ?_) hstate rfl
      exact ⟨rfl, rfl, rfl, rfl, rfl, rfl, rfl, rfl, rfl, rfl⟩
    · next hquit =>
      rw [Bool.not_eq_true] at hquit
      have hback : ∀ e' : Engine, e'.Keeps e'.backToIdle.e := fun _ =>
        ⟨rfl, rfl, rfl, rfl, rfl, rfl, rfl, rfl, rfl, rfl⟩
      split
      · next hstart =>
        cases hok : e.prog.ok with
        | true =>
          obtain ⟨hkeeps, hrunning, hloc⟩ := doRun_moves (P := P) (o := o) b.lim b.trigQ
            (by rw [hpub.prog]; exact hok)
          exact .starts rfl hquit hstart hok (hpub.trans hkeeps) hrunning hloc
        | false =>
          -- Refused: the program does not compile.
          unfold doRun
          rw [if_pos (by rw [hpub.prog, hok]; rfl)]
          exact .rests rfl hquit (.inr hok) (hpub.trans (hback _)) hstate rfl
      · next hstart =>
        rw [Bool.not_eq_true] at hstart
        exact .rests rfl hquit (.inl hstart) (hpub.trans (hback _)) hstate rfl

/-! ### The polls -/

/-- Polling does not change the state. -/
theorem poll_state (e' : Engine) : e'.poll.1.state = e'.state := by simp

/-- The head of a slot moves on. -/
theorem stepTimed_moves (l : TimedLocals) :
    Thread.Moves P ⟨e, .timed l⟩ o (e.stepTimed l).1 := by
  have hstate := e.poll_state
  simp only [stepTimed]
  split
  · next hstop =>
    exact .polls rfl e (.inl rfl) (Keeps.refl _) (.inl hstate) (fun _ => ⟨rfl, hstate⟩)
      fun hgo => absurd hstop (by simp [hgo])
  · next hgo =>
    split
    · exact .polls rfl e (.inl rfl) (Keeps.refl _) (.inl hstate) (fun h => absurd h hgo)
        fun _ => rfl
    · exact .polls rfl e (.inl rfl) (Keeps.refl _) (.inl hstate) (fun h => absurd h hgo)
        fun _ => rfl

/-- The head of MAX moves on. -/
theorem stepMax_moves (l : MaxLocals) : Thread.Moves P ⟨e, .max l⟩ o (e.stepMax l).1 := by
  have hstate := e.poll_state
  simp only [stepMax]
  split
  · next hstop =>
    exact .polls rfl e (.inl rfl) (Keeps.refl _) (.inl hstate) (fun _ => ⟨rfl, hstate⟩)
      fun hgo => absurd hstop (by simp [hgo])
  · next hgo =>
    exact .polls rfl e (.inl rfl) (Keeps.refl _) (.inl hstate) (fun h => absurd h hgo)
      fun _ => rfl

/-- A round of a pause, whatever its two ways on do beside keeping the engine. -/
theorem stepPause_moves {loc : Loc} (hpolls : loc.polls = true) (hpauses : loc.pauses = true)
    {resume stay : Engine → Thread × List Event}
    (hresume : ∀ e' : Engine, e'.Keeps (resume e').1.e ∧ (resume e').1.e.state = e'.state ∧
      (resume e').1.loc.inRun = true)
    (hstay : ∀ e' : Engine, e'.Keeps (stay e').1.e ∧ (stay e').1.e.state = e'.state ∧
      (stay e').1.loc.inRun = true) :
    Thread.Moves P ⟨e, loc⟩ o (e.stepPause o resume stay).1 := by
  have hstate : (e.woken o).poll.1.state = e.state := poll_state (e.woken o)
  have hwoken : e.woken o = e ∨ loc.pauses = true ∧ e.woken o = e.woken o := .inr ⟨hpauses, rfl⟩
  simp only [stepPause]
  split
  · next hstop =>
    refine .polls hpolls (e.woken o) hwoken ?_ (.inl hstate) (fun _ => ⟨rfl, hstate⟩)
      fun hgo => absurd hstop (by simp [hgo])
    exact ⟨rfl, rfl, rfl, rfl, rfl, rfl, rfl, rfl, rfl, rfl⟩
  · next hgo =>
    split
    · obtain ⟨hkeeps, hrunning, hloc⟩ := hresume
        { (e.woken o).poll.1 with pause := .none, state := .running }
      refine .polls hpolls (e.woken o) hwoken (Keeps.trans ?_ hkeeps) (.inr hrunning)
        (fun h => absurd h hgo) fun _ => hloc
      exact ⟨rfl, rfl, rfl, rfl, rfl, rfl, rfl, rfl, rfl, rfl⟩
    · next why _ =>
      obtain ⟨hkeeps, hsame, hloc⟩ := hstay { (e.woken o).poll.1 with pause := why }
      refine .polls hpolls (e.woken o) hwoken (Keeps.trans ?_ hkeeps)
        (.inl (hsame.trans hstate)) (fun h => absurd h hgo) fun _ => hloc
      exact ⟨rfl, rfl, rfl, rfl, rfl, rfl, rfl, rfl, rfl, rfl⟩

/-- A pause in a slot moves on. -/
theorem stepTimedPause_moves (l : TimedLocals) :
    Thread.Moves P ⟨e, .timedPause l⟩ o (e.stepTimedPause P l o).1 := by
  refine stepPause_moves rfl rfl (fun e' => ⟨?_, rfl, rfl⟩) (fun e' => ⟨?_, by simp, rfl⟩)
  · exact ⟨rfl, rfl, rfl, rfl, rfl, rfl, rfl, rfl, rfl, rfl⟩
  · refine Keeps.trans ?_ (keeps_publish P _ _ _)
    exact ⟨rfl, rfl, rfl, rfl, rfl, rfl, rfl, rfl, rfl, rfl⟩

/-- A pause in MAX moves on. -/
theorem stepMaxPause_moves (l : MaxLocals) (now : ℤ) :
    Thread.Moves P ⟨e, .maxPause l now⟩ o (e.stepMaxPause P l now o).1 := by
  refine stepPause_moves rfl rfl (fun e' => ⟨Keeps.refl _, rfl, rfl⟩)
    (fun e' => ⟨?_, by simp, rfl⟩)
  refine Keeps.trans ?_ (keeps_publish P _ _ _)
  exact ⟨rfl, rfl, rfl, rfl, rfl, rfl, rfl, rfl, rfl, rfl⟩

/-! ### Configurations -/

/-- The programs are those of the new configuration, whatever the run does next. -/
theorem applies_keeps {c : EngineConfig} (hpending : e.pendingCfg = some c) {e' : Engine}
    (h : (({ e with pendingCfg := none } : Engine).applyConfig P c).Keeps e') :
    (e.applyPending P).Keeps e' := by
  refine Keeps.trans ?_ h
  unfold applyPending
  rw [hpending]
  exact ⟨rfl, rfl, rfl, rfl, rfl, rfl, rfl, rfl, rfl, rfl⟩

/-- A configuration in a slot moves on. -/
theorem stepTimedConfig_moves (l : TimedLocals) :
    Thread.Moves P ⟨e, .timedConfig l⟩ o (e.stepTimedConfig P l o).1 := by
  unfold stepTimedConfig
  split
  · exact .runs rfl rfl e.cmdEvent (.inl rfl) (Keeps.refl _) (.inl rfl) (.inr rfl)
  · next c hpending =>
    have hsame : ∀ w : PreciseWaiter,
        (({ e with pendingCfg := none } : Engine).applyConfig P c).Keeps
          { ({ e with pendingCfg := none } : Engine).applyConfig P c with waiter := w } :=
      fun _ => ⟨rfl, rfl, rfl, rfl, rfl, rfl, rfl, rfl, rfl, rfl⟩
    dsimp only
    split
    · obtain ⟨he, -, hloc⟩ :=
        Engine.enterMax_spec (({ e with pendingCfg := none } : Engine).applyConfig P c) 0 o
      refine .applies rfl hpending (applies_keeps hpending (by rw [he]; exact Keeps.refl _))
        (by rw [he]; rfl) ?_
      rcases hloc with hloc | ⟨l', hloc⟩
      · exact .inl hloc
      · exact .inr (by rw [hloc]; rfl)
    · split
      · exact .applies rfl hpending (applies_keeps hpending (hsame _)) rfl (.inr rfl)
      · exact .applies rfl hpending (applies_keeps hpending (Keeps.refl _)) rfl (.inr rfl)

/-- A configuration in MAX moves on. -/
theorem stepMaxConfig_moves (l : MaxLocals) :
    Thread.Moves P ⟨e, .maxConfig l⟩ o (e.stepMaxConfig P l).1 := by
  unfold stepMaxConfig
  split
  · exact .runs rfl rfl e.cmdEvent (.inl rfl) (Keeps.refl _) (.inl rfl) (.inr rfl)
  · next c hpending =>
    dsimp only
    split
    · exact .applies rfl hpending (applies_keeps hpending (Keeps.refl _)) rfl (.inl rfl)
    · exact .applies rfl hpending (applies_keeps hpending (Keeps.refl _)) rfl (.inr rfl)

/-! ### The rest of a run -/

/-- A step of a run that leaves the event alone. -/
theorem moves_of_keeps {loc : Loc} (hrun : loc.inRun = true) (hpoll : loc.polls = false)
    {t' : Thread} (h : e.Keeps t'.e) (hstate : t'.e.state = e.state ∨ t'.e.state = .paused)
    (hloc' : t'.loc = .ending ∨ t'.loc.inRun = true) : Thread.Moves P ⟨e, loc⟩ o t' :=
  .runs hrun hpoll e.cmdEvent (.inl rfl) h hstate hloc'

/-- Time passing keeps the state of the run. -/
theorem keeps_tick (dt : ℕ) : e.Keeps (e.tick dt) :=
  ⟨rfl, rfl, rfl, rfl, rfl, rfl, rfl, rfl, rfl, rfl⟩

/-- The gate of a slot moves on. -/
theorem stepTimedGate_moves (l : TimedLocals) :
    Thread.Moves P ⟨e, .timedGate l⟩ o (e.stepTimedGate P l o).1 := by
  unfold stepTimedGate
  split
  · exact moves_of_keeps rfl rfl (Keeps.refl e) (.inl rfl) (.inl rfl)
  · dsimp only
    split
    · split
      · exact moves_of_keeps rfl rfl (keeps_tick _) (.inl rfl) (.inr rfl)
      · next why _ =>
        exact moves_of_keeps rfl rfl ((keeps_tick _).trans (keeps_enterPause P _ why o))
          (.inr (by simp)) (.inr rfl)
    · exact moves_of_keeps rfl rfl (keeps_tick _) (.inl rfl) (.inr rfl)

/-- The late check of a slot moves on. -/
theorem stepTimedLate_moves (l : TimedLocals) (now : ℤ) :
    Thread.Moves P ⟨e, .timedLate l now⟩ o (e.stepTimedLate P l now).1 := by
  have hmissed : ∀ n, e.Keeps { e with stats := e.stats.onMissed n } := fun _ =>
    ⟨rfl, rfl, rfl, rfl, rfl, rfl, rfl, rfl, rfl, rfl⟩
  simp only [stepTimedLate]
  split
  · exact moves_of_keeps rfl rfl (hmissed _) (.inl rfl) (.inl rfl)
  · exact moves_of_keeps rfl rfl (hmissed _) (.inl rfl) (.inr rfl)

/-- The gate of MAX moves on. -/
theorem stepMaxGate_moves (l : MaxLocals) :
    Thread.Moves P ⟨e, .maxGate l⟩ o (e.stepMaxGate P l o).1 := by
  unfold stepMaxGate
  split
  · exact moves_of_keeps rfl rfl (Keeps.refl e) (.inl rfl) (.inl rfl)
  · dsimp only
    split
    · exact moves_of_keeps rfl rfl (keeps_tick _) (.inl rfl) (.inl rfl)
    · split
      · split
        · exact moves_of_keeps rfl rfl (keeps_tick _) (.inl rfl) (.inr rfl)
        · next why _ =>
          exact moves_of_keeps rfl rfl ((keeps_tick _).trans (keeps_enterPause P _ why o))
            (.inr (by simp)) (.inr rfl)
      · exact moves_of_keeps rfl rfl (keeps_tick _) (.inl rfl) (.inr rfl)

/-- A send of MAX moves on. -/
theorem stepMaxSend_moves (l : MaxLocals) (now : ℤ) :
    Thread.Moves P ⟨e, .maxSend l now⟩ o (e.stepMaxSend P l now o).1 := by
  unfold stepMaxSend
  split
  · exact moves_of_keeps rfl rfl (e.keeps_publishDue P now) (.inl (by simp)) (.inr rfl)
  · exact moves_of_keeps rfl rfl (e.keeps_fireMax P l o) (.inl (e.fireMax_sends P l o).state)
      (.inr (by rw [e.fireMax_loc P l o]; rfl))

/-- A wait may consume the event; then the loop starts over. -/
theorem stepTimedAct_moves (l : TimedLocals) :
    Thread.Moves P ⟨e, .timedAct l⟩ o (e.stepTimedAct P l o).1 := by
  -- A wait moves the clock and the waiter, and may take the event.
  have hwaited : ∀ (w : PreciseWaiter) (now : ℤ) (consumed : Bool),
      ({ e with cmdEvent := e.cmdEvent && !consumed } : Engine).Keeps
        { e with waiter := w, clock := now, cmdEvent := e.cmdEvent && !consumed } := fun _ _ _ =>
    ⟨rfl, rfl, rfl, rfl, rfl, rfl, rfl, rfl, rfl, rfl⟩
  have hevent : ∀ (consumed : Bool) (t' : Thread), t'.loc.tops = true →
      (e.cmdEvent && !consumed) = e.cmdEvent ∨
        (e.cmdEvent && !consumed) = false ∧ t'.loc.tops = true := by
    intro consumed t' htop
    cases consumed with
    | true => exact .inr ⟨by simp, htop⟩
    | false => exact .inl (by simp)
  unfold stepTimedAct
  split
  · exact moves_of_keeps rfl rfl (Keeps.refl e) (.inl rfl) (.inl rfl)
  · next st _ =>
    -- Firing leads back to the head of the loop.
    have hfire : ∀ e' : Engine, (e'.fireStep P l st o).1.loc.tops = true := by
      intro e'
      rw [e'.fireStep_loc P l st o]
      rfl
    have hin : ∀ e' : Engine, (e'.fireStep P l st o).1.loc.inRun = true := by
      intro e'
      rw [e'.fireStep_loc P l st o]
      rfl
    dsimp only
    split
    · split
      -- The deadline is beyond the next publication: wait for that first, and publish.
      · split
        · exact moves_of_keeps rfl rfl (Keeps.refl e) (.inl rfl) (.inr rfl)
        · next w _ =>
          refine .runs rfl rfl (e.cmdEvent && !w.event) (hevent w.event _ rfl) ?_
            (.inl (by simp)) (.inr rfl)
          refine (hwaited w.waiter w.now w.event).trans ((keeps_tick (o.dt 1)).trans ?_)
          exact keeps_publish P _ _ false
      -- Otherwise wait for the deadline, and fire when no command came in between.
      · split
        · exact moves_of_keeps rfl rfl (Keeps.refl e) (.inl rfl) (.inr rfl)
        · next w _ =>
          split
          · exact .runs rfl rfl (e.cmdEvent && !w.event) (hevent w.event _ rfl)
              (hwaited w.waiter w.now w.event) (.inl rfl) (.inr rfl)
          · refine .runs rfl rfl (e.cmdEvent && !w.event) (hevent w.event _ (hfire _)) ?_
              (.inl (Engine.fireStep_sends P _ l st o).state) (.inr (hin _))
            exact (hwaited w.waiter w.now w.event).trans (keeps_fireStep P _ l st o)
    -- The deadline has passed already, and the step is fired late.
    · exact moves_of_keeps rfl rfl ((keeps_tick _).trans (keeps_fireStep P _ l st o))
        (.inl (Engine.fireStep_sends P _ l st o).state) (.inr (hin _))

end Engine

/-! ### Every step -/

/-- **Every step of the thread is one of the moves.** -/
theorem Thread.step_moves (t : Thread) (o : Obs) : t.Moves P o (t.step P o).1 := by
  obtain ⟨e, loc⟩ := t
  cases loc with
  | idle =>
    simp only [Thread.step]
    split
    · next hevent => exact .wakes rfl hevent rfl
    · next hevent => exact .sleeps rfl (by simpa using hevent) rfl
  | commands cmds b => exact Engine.stepCommands_moves cmds b
  | timed l => exact Engine.stepTimed_moves l
  | timedConfig l => exact Engine.stepTimedConfig_moves l
  | timedGate l => exact Engine.stepTimedGate_moves l
  | timedPause l => exact Engine.stepTimedPause_moves l
  | timedLate l now => exact Engine.stepTimedLate_moves l now
  | timedAct l => exact Engine.stepTimedAct_moves l
  | max l => exact Engine.stepMax_moves l
  | maxConfig l => exact Engine.stepMaxConfig_moves l
  | maxGate l => exact Engine.stepMaxGate_moves l
  | maxPause l now => exact Engine.stepMaxPause_moves l now
  | maxSend l now => exact Engine.stepMaxSend_moves l now
  | ending => exact .ends rfl (e.keeps_stepEnding P o) (Engine.stepEnding_spec o).2.2.1 rfl
  | done => exact .stays rfl rfl

/-! ### The run counter -/

namespace Engine

variable (e : Engine)

/-- No command of an idle batch completes a run. -/
theorem idleCommand_runsCompleted (b : Batch) (r retry : SendResult) (c : Command) :
    (e.idleCommand P b r retry c).1.runsCompleted = e.runsCompleted := by
  cases c with
  | triggerDown qpc => rw [idleCommand_triggerDown]
  | triggerUp qpc => rw [idleCommand_triggerUp]
  | _ => rfl

/-- A command taken in a run completes no run. -/
theorem runCommand_runsCompleted (c : Command) :
    (e.runCommand c).runsCompleted = e.runsCompleted := by
  cases c with
  | arm on => cases on <;> rfl
  | triggerDown qpc =>
    obtain ⟨run, -, -, heq⟩ := e.runCommand_triggerDown qpc
    rw [heq]
  | triggerUp qpc =>
    obtain ⟨run, -, -, heq⟩ := e.runCommand_triggerUp qpc
    rw [heq]
  | _ => rfl

/-- Commands taken in a run complete no run. -/
theorem runCommands_runsCompleted (cs : List Command) :
    (e.runCommands cs).runsCompleted = e.runsCompleted := by
  fun_induction runCommands e cs with
  | case1 => rfl
  | case2 e => exact e.runCommand_runsCompleted .quit
  | case3 e c cs _ ih => rw [ih, runCommand_runsCompleted]

/-- A poll completes no run. -/
theorem poll_runsCompleted : e.poll.1.runsCompleted = e.runsCompleted := by
  unfold poll
  split
  · exact runCommands_runsCompleted e.drained e.queue
  · rfl

/-- A configuration applied in a run completes no run. -/
theorem applyPending_runsCompleted : (e.applyPending P).runsCompleted = e.runsCompleted := by
  unfold applyPending
  split <;> rfl

end Engine

/-- **Only the end of a run counts**, and it counts one. -/
theorem Thread.step_runsCompleted (t : Thread) (o : Obs) :
    t.loc = .ending ∧ (t.step P o).1.e.runsCompleted = t.e.runsCompleted + 1 ∨
      t.loc ≠ .ending ∧ (t.step P o).1.e.runsCompleted = t.e.runsCompleted := by
  have hrun : ∀ {loc : Loc}, loc.inRun = true → loc ≠ .ending := by
    rintro _ h rfl
    simp [Loc.inRun] at h
  rcases t.step_moves P o with ⟨hloc, -, h⟩ | ⟨hloc, -, h⟩ | ⟨hloc, h⟩ | ⟨hloc, -, h, -, -⟩ |
    ⟨hloc, -, -, h, -, -⟩ | ⟨hloc, -, -, -, h, -, -⟩ | ⟨hloc, e, he, h, -, -, -⟩ |
    ⟨hloc, -, h, -, -⟩ | ⟨hloc, -, event, -, h, -, -⟩ | ⟨hloc, h, -, -⟩ | ⟨hloc, h⟩
  case ends =>
    refine .inl ⟨hloc, ?_⟩
    rw [h.runsCompleted, Engine.applyPending_runsCompleted]
  case command c cs b =>
    refine .inr ⟨by simp [hloc], ?_⟩
    rw [h]
    exact t.e.idleCommand_runsCompleted P b o.release o.retry c
  case polls =>
    refine .inr ⟨?_, ?_⟩
    · intro hending
      simp [hending, Loc.polls] at hloc
    · rw [h.runsCompleted, e.poll_runsCompleted]
      rcases he with rfl | ⟨-, rfl⟩
      · rfl
      · rfl
  case applies =>
    refine .inr ⟨?_, ?_⟩
    · intro hending
      simp [hending, Loc.configures] at hloc
    · rw [h.runsCompleted, Engine.applyPending_runsCompleted]
  case runs => exact .inr ⟨hrun hloc, h.runsCompleted⟩
  case sleeps => exact .inr ⟨by simp [hloc], by rw [h]⟩
  case wakes => exact .inr ⟨by simp [hloc], congrArg (·.e.runsCompleted) h⟩
  case stays => exact .inr ⟨by simp [hloc], by rw [h]⟩
  all_goals exact .inr ⟨by simp [hloc], h.runsCompleted⟩

/-! ### Where a step leads -/

/-- Entering MAX leads to the head of MAX, or straight to the end of the run. -/
theorem Engine.enterMax_leads {loc : Loc} (hmax : ∀ l, loc.leads (.max l) = true)
    (hend : loc.leads .ending = true) (e : Engine) (q : ℤ) (o : Obs) :
    loc.leads (e.enterMax q o).1.loc = true := by
  rcases (e.enterMax_spec q o).2.2 with h | ⟨l, h⟩
  · rw [h]
    exact hend
  · rw [h]
    exact hmax l

/-- A pause leads to where its two ways on lead. -/
theorem Engine.stepPause_leads {loc : Loc} (e : Engine) (o : Obs)
    {resume stay : Engine → Thread × List Event} (hend : loc.leads .ending = true)
    (hresume : ∀ e', loc.leads (resume e').1.loc = true)
    (hstay : ∀ e', loc.leads (stay e').1.loc = true) :
    loc.leads (e.stepPause o resume stay).1.loc = true :=
  e.stepPause_rule (I := fun t => loc.leads t.loc = true) o (fun _ _ => hend)
    fun e' _ => ⟨hresume e', hstay e'⟩

/-- **The places a step can lead to.** -/
theorem Thread.step_leads (t : Thread) (o : Obs) : t.loc.leads (t.step P o).1.loc = true := by
  obtain ⟨e, loc⟩ := t
  cases loc with
  | idle =>
    simp only [Thread.step]
    split <;> rfl
  | commands cmds b =>
    cases cmds with
    | cons c cs => rfl
    | nil =>
      -- Quit ends the thread, a start enters one of the two loops, anything else goes back to idle.
      simp only [Thread.step, Engine.stepCommands]
      split
      · rfl
      · split
        · unfold Engine.doRun
          split
          · rfl
          · dsimp only
            split
            · exact Engine.enterMax_leads (fun _ => rfl) rfl _ _ _
            · rfl
        · rfl
  | timed l =>
    simp only [Thread.step, Engine.stepTimed]
    split
    · rfl
    · split <;> rfl
  | timedConfig l =>
    simp only [Thread.step, Engine.stepTimedConfig]
    split
    · rfl
    -- A configuration may turn the timed loop into MAX.
    · split
      · exact Engine.enterMax_leads (fun _ => rfl) rfl _ _ _
      · split <;> rfl
  | timedGate l =>
    simp only [Thread.step, Engine.stepTimedGate]
    split
    · rfl
    · split
      · split <;> rfl
      · rfl
  | timedPause l => exact Engine.stepPause_leads e o rfl (fun _ => rfl) fun _ => rfl
  | timedLate l now =>
    simp only [Thread.step, Engine.stepTimedLate]
    split <;> rfl
  | timedAct l =>
    show Loc.leads (.timedAct l) (e.stepTimedAct P l o).1.loc = true
    rcases e.stepTimedAct_cases P l o with ⟨-, heq⟩ |
      ⟨st, -, heq | ⟨e', -, heq⟩ | ⟨e', -, -, heq⟩⟩
    · rw [heq]
      rfl
    · rw [heq]
      rfl
    · rw [heq]
      rfl
    · rw [heq, e'.fireStep_loc P l st o]
      rfl
  | max l =>
    simp only [Thread.step, Engine.stepMax]
    split <;> rfl
  | maxConfig l =>
    simp only [Thread.step, Engine.stepMaxConfig]
    split
    · rfl
    · split <;> rfl
  | maxGate l =>
    simp only [Thread.step, Engine.stepMaxGate]
    split
    · rfl
    · split
      · rfl
      · split
        · split <;> rfl
        · rfl
  | maxPause l now => exact Engine.stepPause_leads e o rfl (fun _ => rfl) fun _ => rfl
  | maxSend l now =>
    simp only [Thread.step, Engine.stepMaxSend]
    split
    · rfl
    · rw [e.fireMax_loc P l o]
      rfl
  | ending => rfl
  | done => rfl

end InfinityClicker
