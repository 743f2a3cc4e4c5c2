import InfinityClicker.Scheduler.Totals

namespace InfinityClicker

open Machines

/-!
# The last finished run in the snapshots

The idle loop publishes after every batch, and each time it makes the fields of the last run anew:
of what is kept of the run, and of the clock's reading at that moment.

* `EngineSnapshot.RunFields` — what a snapshot says of a run;
* `RunRecord` — what the engine keeps of it, and `RunRecord.shown`, what that shows at a reading;
* `Thread.Counted` — a run that is going on has its number;
* `Thread.Rested` — the record stays as it is, and every snapshot shows it;
* `finishedRun_stays_iff` — when a later snapshot says what the one at the end of the run said.
-/

/-! ### What is said of a run -/

/-- The fields of a snapshot that are about the run. -/
structure EngineSnapshot.RunFields where
  runId : ℕ
  elapsedSec : ℚ
  actions : ℕ
  missed : ℕ
  avgCps : ℚ
  calls : ℕ
  requested : ℕ
  accepted : ℕ
  failedCalls : ℕ
  interval : IntervalSummary
  late : LatenessSummary
deriving DecidableEq, Repr

/-- The members of a snapshot that belong to a run. -/
def EngineSnapshot.runFields (s : EngineSnapshot) : RunFields :=
  { runId := s.runId
    elapsedSec := s.runElapsedSec
    actions := s.runActions
    missed := s.runMissed
    avgCps := s.runAvgCps
    calls := s.runCalls
    requested := s.runRequested
    accepted := s.runAccepted
    failedCalls := s.runFailedCalls
    interval := s.runInterval
    late := s.runLate }

/-- What is kept of a run: its number, its statistics, and the sender's counts since its start. -/
structure RunRecord where
  runId : ℕ
  stats : RunStats
  calls : ℕ
  requested : ℕ
  accepted : ℕ
  failedCalls : ℕ

/-- What a record shows at a reading of the clock. -/
def RunRecord.shown (P : Platform) (r : RunRecord) (now : ℤ) : EngineSnapshot.RunFields :=
  { runId := r.runId
    elapsedSec := Clk.ticksToSec P (now - r.stats.start)
    actions := r.stats.actions
    missed := r.stats.missed
    avgCps := r.stats.avgCps P now
    calls := r.calls
    requested := r.requested
    accepted := r.accepted
    failedCalls := r.failedCalls
    interval := r.stats.intervalRun.summarize P
    late := r.stats.lateRun.summarizeLate P r.stats.lateHistRun r.stats.over100Run }

/-- **Two readings show the same** only if they are one. -/
theorem RunRecord.shown_inj (P : Platform) (r : RunRecord) {now now' : ℤ} :
    r.shown P now = r.shown P now' ↔ now = now' := by
  refine ⟨fun h => ?_, fun h => by rw [h]⟩
  have hfreq : (P.freq : ℚ) ≠ 0 := by
    have hge := P.freq_ge
    exact_mod_cast (by omega : P.freq ≠ 0)
  have helapsed : Clk.ticksToSec P (now - r.stats.start) =
      Clk.ticksToSec P (now' - r.stats.start) :=
    congrArg EngineSnapshot.RunFields.elapsedSec h
  rw [Clk.ticksToSec, Clk.ticksToSec, div_left_inj' hfreq, Int.cast_inj] at helapsed
  omega

/-- Only the time since the start and the average depend on the reading. -/
theorem RunRecord.shown_others (P : Platform) (r : RunRecord) (now now' : ℤ) :
    r.shown P now' =
      { r.shown P now with
        elapsedSec := Clk.ticksToSec P (now' - r.stats.start)
        avgCps := r.stats.avgCps P now' } := rfl

namespace Engine

variable (P : Platform) (e : Engine)

/-- What the engine keeps of its last run. -/
def runRecord : RunRecord :=
  { runId := e.runId
    stats := e.stats.takeSendTicks
    calls := e.sender.calls - e.runStartCalls
    requested := e.sender.requested - e.runStartReq
    accepted := e.sender.accepted - e.runStartAcc
    failedCalls := e.sender.failedCalls - e.runStartFail }

/-- A snapshot carries its time. -/
theorem snapshot_publishQpc (now : ℤ) (force : Bool) :
    (e.snapshot P now force).publishQpc = now := by
  unfold snapshot
  split <;> rfl

/-- A forced snapshot shows the last run. -/
theorem snapshot_runFields (hrun : 0 < e.runId) (now : ℤ) :
    (e.snapshot P now true).runFields = e.runRecord.shown P now := by
  unfold snapshot
  rw [if_pos ⟨hrun, .inr rfl⟩]
  rfl

/-- Publishing leaves the record as it is. -/
theorem publish_runRecord (now : ℤ) (force : Bool) :
    (e.publish P now force).runRecord = e.runRecord := by
  unfold publish
  split <;> rfl

/-! ### The number of a run -/

/-- Publishing starts no run. -/
@[simp] theorem publish_runId (now : ℤ) (force : Bool) :
    (e.publish P now force).runId = e.runId :=
  congrArg RunRecord.runId (e.publish_runRecord P now force)

/-- Neither does a snapshot that is due. -/
@[simp] theorem publishDue_runId (fire : ℤ) : (e.publishDue P fire).runId = e.runId := by
  unfold publishDue
  split
  · exact e.publish_runId P fire false
  · rfl

/-- A recorded latency starts no run. -/
@[simp] theorem recordTriggerLatency_runId (q fire : ℤ) :
    (e.recordTriggerLatency P q fire).runId = e.runId := by
  unfold recordTriggerLatency
  split
  · rfl
  · dsimp only
    split <;> rfl

/-- Counting off starts no run. -/
@[simp] theorem useUp_runId (n : ℕ) : (e.useUp n).runId = e.runId := by
  unfold useUp
  split <;> rfl

/-- The first click does not start another run. -/
@[simp] theorem onStarted_runId (l : TimedLocals) (fire : ℤ) (batch : ℕ) :
    (e.onStarted P l fire batch).runId = e.runId := by
  unfold onStarted
  split
  · dsimp only
    split
    · exact recordTriggerLatency_runId P _ _ _
    · rfl
  · rfl

/-- A command in a run starts none. -/
@[simp] theorem runCommand_runId (c : Command) : (e.runCommand c).runId = e.runId := by
  cases c with
  | arm on => cases on <;> rfl
  | triggerDown q =>
    obtain ⟨run, -, -, heq⟩ := e.runCommand_triggerDown q
    rw [heq]
  | triggerUp q =>
    obtain ⟨run, -, -, heq⟩ := e.runCommand_triggerUp q
    rw [heq]
  | _ => rfl

/-- A poll starts no run. -/
@[simp] theorem poll_runId : e.poll.1.runId = e.runId := by
  have hcommands : ∀ (cs : List Command) (e : Engine), (e.runCommands cs).runId = e.runId := by
    intro cs e
    fun_induction runCommands e cs with
    | case1 => rfl
    | case2 e => exact e.runCommand_runId .quit
    | case3 e c cs _ ih => rw [ih, runCommand_runId]
  unfold poll
  split
  · exact hcommands e.queue e.drained
  · rfl

/-- A pause starts no run. -/
@[simp] theorem enterPause_runId (why : PauseReason) (o : Obs) :
    (e.enterPause P why o).1.runId = e.runId := by
  unfold enterPause
  exact publish_runId P _ _ true

/-- A send of a slot starts no run. -/
theorem fireStep_runId (l : TimedLocals) (st : ActionStep) (o : Obs) :
    (e.fireStep P l st o).1.e.runId = e.runId := by
  unfold fireStep
  dsimp only
  rw [publishDue_runId]
  split
  · rw [useUp_runId, onStarted_runId]
    rfl
  · rw [onStarted_runId]
    rfl

/-- A send of MAX starts no run. -/
theorem fireMax_runId (l : MaxLocals) (o : Obs) : (e.fireMax P l o).1.e.runId = e.runId := by
  unfold fireMax
  dsimp only
  rw [publishDue_runId, useUp_runId]
  split
  · exact recordTriggerLatency_runId P _ _ _
  · rfl

/-- A round of a pause keeps the number when its two ways on do. -/
theorem stepPause_runId (o : Obs) {resume stay : Engine → Thread × List Event}
    (hresume : ∀ e' : Engine, (resume e').1.e.runId = e'.runId)
    (hstay : ∀ e' : Engine, (stay e').1.e.runId = e'.runId) :
    (e.stepPause o resume stay).1.e.runId = e.runId := by
  have hpoll : (e.woken o).poll.1.runId = e.runId := (e.woken o).poll_runId
  simp only [stepPause]
  split
  · exact hpoll
  · split
    · exact (hresume _).trans hpoll
    · exact (hstay _).trans hpoll

/-- The sends of a slot start no run. -/
theorem stepTimedAct_runId (l : TimedLocals) (o : Obs) :
    (e.stepTimedAct P l o).1.e.runId = e.runId := by
  unfold stepTimedAct
  split
  · rfl
  · dsimp only
    split
    · split
      · split
        · rfl
        · exact publish_runId P _ _ false
      · split
        · rfl
        · split
          · rfl
          · exact fireStep_runId P _ l _ o
    · exact fireStep_runId P _ l _ o

end Engine

variable {P : Platform}

/-- **A run keeps its number** until it ends. -/
theorem Thread.step_runId {t : Thread} (hworking : t.loc.working = true) (o : Obs) :
    (t.step P o).1.e.runId = t.e.runId := by
  obtain ⟨e, loc⟩ := t
  cases loc with
  | timed l =>
    simp only [Thread.step, Engine.stepTimed]
    split
    · exact e.poll_runId
    · split <;> exact e.poll_runId
  | timedConfig l =>
    simp only [Thread.step, Engine.stepTimedConfig]
    split
    · rfl
    · split
      · rw [(Engine.enterMax_spec _ 0 o).1]
        rfl
      · split <;> rfl
  | timedGate l =>
    simp only [Thread.step, Engine.stepTimedGate]
    split
    · rfl
    · split
      · split
        · rfl
        · exact Engine.enterPause_runId P _ _ o
      · rfl
  | timedPause l => exact e.stepPause_runId o (fun _ => rfl) fun e' => Engine.publish_runId P _ _ _
  | timedLate l now =>
    simp only [Thread.step, Engine.stepTimedLate]
    split <;> rfl
  | timedAct l => exact e.stepTimedAct_runId P l o
  | max l =>
    simp only [Thread.step, Engine.stepMax]
    split <;> exact e.poll_runId
  | maxConfig l =>
    simp only [Thread.step, Engine.stepMaxConfig]
    split
    · rfl
    · split <;> rfl
  | maxGate l =>
    simp only [Thread.step, Engine.stepMaxGate]
    split
    · rfl
    · split
      · rfl
      · split
        · split
          · rfl
          · exact Engine.enterPause_runId P _ _ o
        · rfl
  | maxPause l now =>
    exact e.stepPause_runId o (fun _ => rfl) fun e' => Engine.publish_runId P _ _ _
  | maxSend l now =>
    simp only [Thread.step, Engine.stepMaxSend]
    split
    · exact e.publishDue_runId P now
    · exact e.fireMax_runId P l o
  | ending =>
    simp only [Thread.step, Engine.stepEnding, Engine.applyPending]
    split <;> exact Engine.publish_runId P _ (e.clock + o.dt 0) true
  | idle | commands cmds b | done => exact absurd hworking (by simp [Loc.working, Loc.inRun])

namespace Engine

variable {e : Engine} {o : Obs}

/-! ### Between runs -/

/-- A command that finds nothing held leaves the record of the last run as it is. -/
theorem idleCommand_runRecord (b : Batch) (r retry : SendResult) {c : Command}
    (hheld : (∃ q, c = .emergency q) → e.sender.releases = []) :
    (e.idleCommand P b r retry c).1.runRecord = e.runRecord ∧
      (e.idleCommand P b r retry c).1.published = e.published := by
  cases c with
  | triggerDown q =>
    rw [idleCommand_triggerDown]
    exact ⟨rfl, rfl⟩
  | triggerUp q =>
    rw [idleCommand_triggerUp]
    exact ⟨rfl, rfl⟩
  | emergency q =>
    have hsender : (e.sender.releaseAll r retry).sender = e.sender := by
      rw [InputSender.releaseAll, if_pos (hheld ⟨q, rfl⟩)]
    have hrecord : (releaseAll { e with armed := false } r retry).runRecord = e.runRecord := by
      simp only [runRecord, releaseAll, hsender]
    exact ⟨hrecord, rfl⟩
  | _ => exact ⟨rfl, rfl⟩

/-- `doRun` refuses, or gives the run the next number. -/
theorem doRun_runId (lim : RunLimits) (q : ℤ) (o : Obs) :
    e.doRun P lim q o = (e.backToIdle, []) ∨
      (actionsOf (e.doRun P lim q o).2 ≠ [] ∧ (e.doRun P lim q o).1.e.runId = e.runId + 1) := by
  unfold doRun
  split
  · exact .inl rfl
  · refine .inr ⟨?_, ?_⟩
    · simp [actionsOf]
    · dsimp only
      split
      · rw [(Engine.enterMax_spec _ q o).1]
        exact publish_runId P _ (e.clock + o.dt 1) true
      · exact publish_runId P _ (e.clock + o.dt 1) true

/-- **The end of a batch** starts a run, or shows the last one as it is kept. -/
theorem stepCommands_end (b : Batch) :
    (actionsOf (e.stepCommands P [] b o).2 ≠ [] ∧
        (e.stepCommands P [] b o).1.e.runId = e.runId + 1) ∨
      ((e.stepCommands P [] b o).1.loc.working = false ∧
        (e.stepCommands P [] b o).1.e.published =
          e.published ++ [e.snapshot P (e.clock + o.dt 0) true] ∧
        ((e.stepCommands P [] b o).1.loc ≠ .done →
          (e.stepCommands P [] b o).1.e.runRecord = e.runRecord)) := by
  let e' := (e.tick (o.dt 0)).publish P (e.clock + o.dt 0) true
  have hrecord : e'.runRecord = e.runRecord := publish_runRecord P (e.tick (o.dt 0)) _ true
  have hid : e'.runId = e.runId := congrArg RunRecord.runId hrecord
  have hpublished : e'.published = e.published ++ [e.snapshot P (e.clock + o.dt 0) true] := rfl
  simp only [stepCommands, tick_clock]
  split
  · exact .inr ⟨rfl, hpublished, fun hdone => absurd rfl hdone⟩
  · split
    · rcases e'.doRun_runId (P := P) b.lim b.trigQ o with hrefused | ⟨hstarted, hnext⟩
      · rw [hrefused]
        exact .inr ⟨rfl, hpublished, fun _ => hrecord⟩
      · exact .inl ⟨hstarted, hnext.trans (congrArg (· + 1) hid)⟩
    · exact .inr ⟨rfl, hpublished, fun _ => hrecord⟩

/-- **The end of a run** shows it as it is kept from there on. -/
theorem stepEnding_record (hrun : 0 < e.runId) (o : Obs) :
    (e.stepEnding P o).1.loc = .idle ∧ (e.stepEnding P o).1.e.runId = e.runId ∧
      ∃ E : EngineSnapshot, (e.stepEnding P o).1.e.published = e.published ++ [E] ∧
        E.runFields = (e.stepEnding P o).1.e.runRecord.shown P E.publishQpc := by
  let ended := ((e.releaseAll o.release o.retry).tick (o.dt 0)).endRun
  let now := e.clock + o.dt 0
  have hrecord : (e.stepEnding P o).1.e.runRecord = ended.runRecord := by
    rw [← publish_runRecord P ended now true]
    simp only [stepEnding, applyPending]
    split <;> rfl
  have hpublished : (e.stepEnding P o).1.e.published =
      e.published ++ [ended.snapshot P now true] := by
    simp only [stepEnding, applyPending]
    split <;> rfl
  refine ⟨rfl, ?_, ended.snapshot P now true, hpublished, ?_⟩
  · exact congrArg RunRecord.runId hrecord
  · rw [hrecord, snapshot_publishQpc]
    exact ended.snapshot_runFields P hrun now

end Engine

/-- The next command is an emergency. -/
def Loc.emergency : Loc → Bool
  | .commands (.emergency _ :: _) _ => true
  | _ => false

/-- Working outside a run's loop is ending it. -/
theorem Loc.eq_ending {loc : Loc} (hworking : loc.working = true) (hrun : loc.inRun = false) :
    loc = .ending := by
  cases loc <;> simp_all [working, inRun]

namespace Thread

/-- A run that is going on has its number. -/
def Counted (t : Thread) : Prop := t.loc.working = true → 0 < t.e.runId

/-- Every act keeps the number of the run behind its record. -/
theorem Counted.next {t : Thread} (h : t.Counted) (act : Act) :
    ((engineMachine P).next t act).Counted := by
  cases act with
  | thread o =>
    intro hafter
    show 0 < (t.step P o).1.e.runId
    cases hworking : t.loc.working with
    | true =>
      rw [step_runId hworking o]
      exact h hworking
    | false =>
      -- Only the end of a batch leads into a run.
      obtain ⟨e, loc⟩ := t
      change (Thread.step P ⟨e, loc⟩ o).1.loc.working = true at hafter
      cases loc with
      | commands cmds b =>
        cases cmds with
        | cons c cs => exact absurd hafter (by simp [Thread.step, Engine.stepCommands, Loc.working,
            Loc.inRun])
        | nil =>
          rcases e.stepCommands_end (P := P) (o := o) b with ⟨-, hid⟩ | ⟨hidle, -⟩
          · show 0 < (e.stepCommands P [] b o).1.e.runId
            omega
          · exact absurd hafter (by simp [Thread.step, hidle])
      | idle =>
        simp only [Thread.step] at hafter
        split at hafter <;> simp [Loc.working, Loc.inRun] at hafter
      | done => simp [Thread.step, Loc.working, Loc.inRun] at hafter
      | _ => simp [Loc.working, Loc.inRun] at hworking
  | _ => exact h

/-- **In every run of the engine** a run that is going on has its number. -/
theorem counted (waiter : PreciseWaiter) (clock : ℤ) (acts : List Act) :
    ((engineMachine P).after (Thread.start P waiter clock) acts).Counted := by
  refine (engineMachine P).invariant (I := Counted) (fun t act h => h.next act) ?_ acts
  intro hworking
  simp [start, Loc.working, Loc.inRun] at hworking

/-- No run is started, and an emergency finds nothing to release. -/
def StaysIdle (P : Platform) (t : Thread) : Act → Prop
  | .thread o =>
    actionsOf (t.step P o).2 = [] ∧ (t.loc.emergency = true → t.e.sender.releases = [])
  | _ => True

instance (P : Platform) (t : Thread) : ∀ act, Decidable (StaysIdle P t act)
  | .thread _ => inferInstanceAs (Decidable (_ ∧ (_ → _)))
  | .push _ | .storeFlag | .setEvent | .storeArmed _ => isTrue trivial

/-- Between runs the record `r` of the last one stays as it is, and what is published beyond
    `before` shows it. -/
structure Rested (P : Platform) (r : RunRecord) (before : List EngineSnapshot) (t : Thread) :
    Prop where
  idle : t.loc.working = false
  record : t.loc ≠ .done → t.e.runRecord = r
  shows : ∃ ss, t.e.published = before ++ ss ∧ ∀ s ∈ ss, s.runFields = r.shown P s.publishQpc

variable {r : RunRecord} {before : List EngineSnapshot} {t : Thread}

/-- A step between runs leaves the record and shows it. -/
theorem Rested.step (hrun : 0 < r.runId) (h : t.Rested P r before) {o : Obs}
    (hidle : t.StaysIdle P (.thread o)) : (t.step P o).1.Rested P r before := by
  obtain ⟨hactions, hemergency⟩ := hidle
  obtain ⟨ss, hpublished, hshown⟩ := h.shows
  obtain ⟨e, loc⟩ := t
  cases loc with
  | idle =>
    have hrecord := h.record (by simp)
    simp only [Thread.step]
    split
    · exact ⟨rfl, fun _ => hrecord, ss, hpublished, hshown⟩
    · exact h
  | commands cmds b =>
    have hrecord : e.runRecord = r := h.record (by simp)
    cases cmds with
    | cons c cs =>
      have hheld : (∃ q, c = .emergency q) → e.sender.releases = [] := by
        rintro ⟨q, rfl⟩
        exact hemergency rfl
      obtain ⟨hkept, hsame⟩ := e.idleCommand_runRecord (P := P) b o.release o.retry hheld
      exact ⟨rfl, fun _ => hkept.trans hrecord, ss, hsame.trans hpublished, hshown⟩
    | nil =>
      rcases e.stepCommands_end (P := P) (o := o) b with ⟨hstarted, -⟩ | ⟨hloc, hmore, hkept⟩
      · exact absurd hactions hstarted
      · have hid : 0 < e.runId := by
          rw [← hrecord] at hrun
          exact hrun
        refine ⟨hloc, fun hdone => (hkept hdone).trans hrecord,
          ss ++ [e.snapshot P (e.clock + o.dt 0) true], ?_, ?_⟩
        · rw [← List.append_assoc, ← hpublished]
          exact hmore
        · intro s hs
          rcases List.mem_append.mp hs with hold | hnew
          · exact hshown s hold
          · rw [List.mem_singleton.mp hnew, e.snapshot_publishQpc, e.snapshot_runFields P hid,
              hrecord]
  | done => exact h
  | _ => exact absurd h.idle (by simp [Loc.working, Loc.inRun])

/-- An act between runs leaves the record and shows it. -/
theorem Rested.next (hrun : 0 < r.runId) (h : t.Rested P r before) (act : Act)
    (hidle : t.StaysIdle P act) : ((engineMachine P).next t act).Rested P r before := by
  cases act with
  | thread o => exact h.step hrun hidle
  | _ => exact ⟨h.idle, h.record, h.shows⟩

end Thread

open Thread

/-- **What is published after a run** up to the next one shows the record of that run, each time
    at its own reading of the clock. -/
theorem finishedRun_shown (P : Platform) (waiter : PreciseWaiter) (clock : ℤ) (acts : List Act)
    (o : Obs) (later : List Act) :
    let t := (engineMachine P).after (Thread.start P waiter clock) acts
    let t₁ := (engineMachine P).next t (.thread o)
    let t₂ := (engineMachine P).after t₁ later
    t.loc = .ending → (engineMachine P).Meets (StaysIdle P) t₁ later →
    ∃ (r : RunRecord) (E : EngineSnapshot) (ss : List EngineSnapshot),
      t₁.e.published = t.e.published ++ [E] ∧ t₂.e.published = t₁.e.published ++ ss ∧
        E.runFields = r.shown P E.publishQpc ∧
        ∀ s ∈ ss, s.runFields = r.shown P s.publishQpc := by
  intro t t₁ t₂ hend hidle
  have hrun : 0 < t.e.runId := Thread.counted waiter clock acts (by rw [hend]; rfl)
  have hstep : t₁ = (t.e.stepEnding P o).1 := by
    show (t.step P o).1 = _
    rw [Thread.step, hend]
  obtain ⟨hloc, hid, E, hpublished, hE⟩ := t.e.stepEnding_record (P := P) hrun o
  rw [← hstep] at hloc hid hpublished hE
  have hstart : t₁.Rested P t₁.e.runRecord t₁.e.published :=
    ⟨by rw [hloc]; rfl, fun _ => rfl, [], (List.append_nil _).symm, by simp⟩
  have hpos : 0 < t₁.e.runRecord.runId := by
    show 0 < t₁.e.runId
    omega
  have hrested := (engineMachine P).invariant_of_meets (fun t act h hact => h.next hpos act hact)
    hstart hidle
  obtain ⟨ss, hmore, hshown⟩ := hrested.shows
  exact ⟨t₁.e.runRecord, E, ss, hpublished, hmore, hE, hshown⟩

/-- The fields of a finished run stay, the time since its start and the average apart. -/
theorem finishedRun_others_stay (P : Platform) (waiter : PreciseWaiter) (clock : ℤ)
    (acts : List Act) (o : Obs) (later : List Act) :
    let t := (engineMachine P).after (Thread.start P waiter clock) acts
    let t₁ := (engineMachine P).next t (.thread o)
    let t₂ := (engineMachine P).after t₁ later
    t.loc = .ending → (engineMachine P).Meets (StaysIdle P) t₁ later →
    ∃ (E : EngineSnapshot) (ss : List EngineSnapshot),
      t₁.e.published = t.e.published ++ [E] ∧ t₂.e.published = t₁.e.published ++ ss ∧
        ∀ s ∈ ss, s.runFields =
          { E.runFields with elapsedSec := s.runElapsedSec, avgCps := s.runAvgCps } := by
  intro t t₁ t₂ hend hidle
  obtain ⟨r, E, ss, hpublished, hmore, hE, hshown⟩ :=
    finishedRun_shown P waiter clock acts o later hend hidle
  refine ⟨E, ss, hpublished, hmore, fun s hs => ?_⟩
  have hs' := hshown s hs
  have helapsed : s.runElapsedSec = (r.shown P s.publishQpc).elapsedSec :=
    congrArg EngineSnapshot.RunFields.elapsedSec hs'
  have havg : s.runAvgCps = (r.shown P s.publishQpc).avgCps :=
    congrArg EngineSnapshot.RunFields.avgCps hs'
  rw [hs', hE, helapsed, havg]
  exact r.shown_others P E.publishQpc s.publishQpc

/-- **A finished run's fields stay put** where the clock stands still: a snapshot published after
    the run, and before the next one, says of it what the one at its end said exactly when it is
    published at the same reading. -/
theorem finishedRun_stays_iff (P : Platform) (waiter : PreciseWaiter) (clock : ℤ)
    (acts : List Act) (o : Obs) (later : List Act) :
    let t := (engineMachine P).after (Thread.start P waiter clock) acts
    let t₁ := (engineMachine P).next t (.thread o)
    let t₂ := (engineMachine P).after t₁ later
    t.loc = .ending → (engineMachine P).Meets (StaysIdle P) t₁ later →
    ∃ (E : EngineSnapshot) (ss : List EngineSnapshot),
      t₁.e.published = t.e.published ++ [E] ∧ t₂.e.published = t₁.e.published ++ ss ∧
        ∀ s ∈ ss, s.runFields = E.runFields ↔ s.publishQpc = E.publishQpc := by
  intro t t₁ t₂ hend hidle
  obtain ⟨r, E, ss, hpublished, hmore, hE, hshown⟩ :=
    finishedRun_shown P waiter clock acts o later hend hidle
  refine ⟨E, ss, hpublished, hmore, fun s hs => ?_⟩
  rw [hshown s hs, hE]
  exact r.shown_inj P

/-- A run of one click, up to its end. -/
def clickRun : List Act := Act.post (.startRun { maxActions := 1 } 1) ++ Act.steps 11

/-- It ends 0.1 s after its start. -/
def clickEnd : Obs := { dt := fun _ => 1000000 }

/-- Five seconds later the engine is armed. -/
def armedLater : List Act := Act.arm true ++ Act.steps 2 ++ [.thread { dt := fun _ => 50000000 }]

/-- A one-click run, finished, in the snapshots after it. -/
theorem finishedRun_stays_click :
    let t := (engineMachine .tenMegahertz).after (Thread.start .tenMegahertz {} 1000000000) clickRun
    let t₁ := (engineMachine .tenMegahertz).next t (.thread clickEnd)
    let t₂ := (engineMachine .tenMegahertz).after t₁ armedLater
    ∃ (E : EngineSnapshot) (ss : List EngineSnapshot),
      t₁.e.published = t.e.published ++ [E] ∧ t₂.e.published = t₁.e.published ++ ss ∧
        ∀ s ∈ ss, s.runFields = E.runFields ↔ s.publishQpc = E.publishQpc :=
  finishedRun_stays_iff .tenMegahertz {} 1000000000 clickRun clickEnd armedLater
    (Loc.eq_ending (by decide +kernel) (by decide +kernel)) (by decide +kernel)

/-- The click's run took 0.1 s, and is said to have taken 5.1 s once the engine is armed. -/
theorem finishedRun_grows :
    let t₁ := (engineMachine .tenMegahertz).after (Thread.start .tenMegahertz {} 1000000000)
      (clickRun ++ [.thread clickEnd])
    let t₂ := (engineMachine .tenMegahertz).after t₁ armedLater
    (engineMachine .tenMegahertz).Meets (StaysIdle .tenMegahertz) t₁ armedLater ∧
      t₁.e.published.getLast?.map (fun s => (s.runId, s.runElapsedSec, s.runAvgCps)) =
        some (1, 1 / 10, 10) ∧
      t₂.e.published.getLast?.map (fun s => (s.runId, s.runElapsedSec, s.runAvgCps)) =
        some (1, 51 / 10, 10 / 51) := by
  decide +kernel

end InfinityClicker
