import InfinityClicker.Scheduler.EngineSteps

namespace InfinityClicker

open Machines

/-!
# The timeline of a timed run

`EpochLog` reads a trace: the grid of the current epoch, the slots fired in it and the slots
reported as missed.

* `EpochLog.Faithful` — what a faithful timeline is, in a trace: slots in increasing order, none
  early, none at or after the end of the run;
* `GridAt` — how the locals of `runTimed` stand to the log, at each place;
* `GridAt.step` — one lemma for each place, through waits, interrupts, pauses, configurations,
  steps of an action and catch-up batches;
* `timeline_faithful` — what follows for every run.
-/

/-! ### The log of an epoch -/

/-- What a trace says of the epoch it is in. -/
structure EpochLog where
  /-- The grid as the epoch began. -/
  tl : Timeline := {}
  /-- The end of the run. -/
  endQpc : ℤ := kNoEnd
  /-- Actions sent in the epoch. -/
  fired : ℕ := 0
  /-- Slots of the epoch reported as missed. -/
  missed : ℕ := 0
  /-- The first slot after all that were fired. -/
  nextFree : ℕ := 0

namespace EpochLog

/-- The log after one more event. -/
def see (log : EpochLog) : Event → EpochLog
  | .runStarted _ endQpc => { log with endQpc := endQpc }
  | .epoch tl => { tl := tl, endQpc := log.endQpc }
  | .fired _ k batch => { log with fired := log.fired + batch, nextFree := k + batch }
  | .missed n => { log with missed := log.missed + n }
  | _ => log

/-- The log after more events. -/
def after (log : EpochLog) (events : List Event) : EpochLog := events.foldl see log

/-- Slots `k` to `k + batch - 1` may go out: they were not fired before, each is due, and each
    lies before the end of the run. -/
def Allows (log : EpochLog) : Event → Prop
  | .fired at_ k batch =>
    log.nextFree ≤ k ∧ 0 < batch ∧
      ∀ j < batch, log.tl.slot (k + j) ≤ at_ ∧ log.tl.slot (k + j) < log.endQpc
  | _ => True

/-- Every event is allowed by the log of those before it. -/
def Faithful (log : EpochLog) : List Event → Prop
  | [] => True
  | ev :: events => log.Allows ev ∧ Faithful (log.see ev) events

/-- No events change nothing. -/
@[simp] theorem after_nil (log : EpochLog) : log.after [] = log := rfl

/-- The log follows the events in their order. -/
@[simp] theorem after_cons (log : EpochLog) (ev : Event) (es : List Event) :
    log.after (ev :: es) = (log.see ev).after es := rfl

/-- It follows them piece by piece. -/
@[simp] theorem after_append (log : EpochLog) (a b : List Event) :
    log.after (a ++ b) = (log.after a).after b := List.foldl_append

/-- Events that are not about the grid leave the log as it is. -/
theorem after_of_other {log : EpochLog} {events : List Event}
    (h : ∀ ev ∈ events, log.see ev = log) : log.after events = log := by
  induction events with
  | nil => rfl
  | cons ev events ih =>
    rw [after_cons, h ev (by simp)]
    exact ih fun ev' hev' => h ev' (by simp [hev'])

/-- A trace is faithful when its parts are, each from where the one before it ended. -/
theorem faithful_append (log : EpochLog) (a b : List Event) :
    log.Faithful (a ++ b) ↔ log.Faithful a ∧ (log.after a).Faithful b := by
  induction a generalizing log with
  | nil => simp [Faithful]
  | cons ev a ih => simp [Faithful, ih, and_assoc]

/-- Only actions can be unfaithful. -/
theorem faithful_of_no_fires {log : EpochLog} {events : List Event}
    (h : ∀ at_ k batch, .fired at_ k batch ∉ events) : log.Faithful events := by
  induction events generalizing log with
  | nil => trivial
  | cons ev events ih =>
    refine ⟨?_, ih fun at_ k batch hmem => h at_ k batch (by simp [hmem])⟩
    cases ev with
    | fired at_ k batch => exact absurd (by simp) (h at_ k batch)
    | _ => trivial

end EpochLog

/-! ### The locals and the log -/

/-- The locals of `runTimed` against the log: the grid is the epoch's, and every slot before
    `tl.k` was fired or missed; in the middle of an action its own slot was fired too. -/
structure OnGrid (e : Engine) (l : TimedLocals) (log : EpochLog) : Prop where
  t0 : l.tl.t0 = log.tl.t0
  period : l.tl.period = log.tl.period
  tick : 1 ≤ l.tl.period
  endQpc : e.run.endQpc = log.endQpc
  count : log.fired + log.missed = l.tl.k + (if l.step = 0 then 0 else 1)
  nextFree : log.nextFree ≤ l.tl.k + (if l.step = 0 then 0 else 1)

/-- How the thread stands to the log, at each place. -/
def GridAt (t : Thread) (log : EpochLog) : Prop :=
  match t.loc with
  | .timed l => OnGrid t.e l log
  | .timedConfig l | .timedGate l | .timedPause l | .timedLate l _ =>
    OnGrid t.e l log ∧ l.step = 0
  | .timedAct l => OnGrid t.e l log ∧ (l.step = 0 → l.tl.next < t.e.run.endQpc)
  | _ => True

namespace Loc

/-- The locals of `runTimed`. -/
def timedLocals : Loc → Option TimedLocals
  | .timed l | .timedConfig l | .timedGate l | .timedPause l | .timedLate l _ | .timedAct l =>
    some l
  | _ => none

end Loc

/-- Outside a timed run nothing is said. -/
theorem gridAt_of_untimed {t : Thread} {log : EpochLog} (h : t.loc.timedLocals = none) :
    GridAt t log := by
  obtain ⟨e, loc⟩ := t
  cases loc <;> simp_all [GridAt, Loc.timedLocals]

/-- In the timed loop the engine is on the grid of its log. -/
theorem GridAt.onGrid {t : Thread} {log : EpochLog} {l : TimedLocals} (h : GridAt t log)
    (hl : t.loc.timedLocals = some l) : OnGrid t.e l log := by
  obtain ⟨e, loc⟩ := t
  cases loc with
  | timed l' | timedConfig l' | timedGate l' | timedPause l' | timedLate l' now | timedAct l' =>
    obtain rfl : l' = l := Option.some.inj hl
    first
    | exact h
    | exact h.1
  | _ => exact absurd hl (by simp [Loc.timedLocals])

namespace Engine

variable {P : Platform} {e : Engine} {log : EpochLog}

/-- A period is at least a tick. -/
theorem one_le_periodOf (c : EngineConfig) : 1 ≤ periodOf P c := by
  have hfreq : (1000000 : ℚ) ≤ P.freq := by exact_mod_cast P.freq_ge
  obtain ⟨hlow, hhigh⟩ := c.cps.property
  have hpos : (0 : ℚ) < c.cps.val := by linarith
  rw [periodOf, le_div_iff₀ hpos]
  linarith

/-- At the start of an epoch everything is still to come. -/
theorem onGrid_fresh {l : TimedLocals} {log' : EpochLog} (hstep : l.step = 0) (hk : l.tl.k = 0)
    (htick : 1 ≤ l.tl.period) (hlog : log' = { tl := l.tl, endQpc := e.run.endQpc }) :
    OnGrid e l log' := by
  subst hlog
  exact ⟨rfl, rfl, htick, rfl, by simp [hstep, hk], Nat.zero_le _⟩

/-- Only the end of the run ties the engine to the log. -/
theorem OnGrid.of_endQpc {e' : Engine} {l : TimedLocals} (h : OnGrid e l log)
    (hend : e'.run.endQpc = e.run.endQpc) : OnGrid e' l log :=
  ⟨h.t0, h.period, h.tick, hend.trans h.endQpc, h.count, h.nextFree⟩

/-- What a poll consumes is not about the grid. -/
theorem after_poll (e : Engine) (log : EpochLog) : log.after e.poll.2.1 = log := by
  refine EpochLog.after_of_other fun ev hev => ?_
  obtain ⟨c, rfl⟩ := e.poll_emits ev hev
  rfl

/-- A release is not about the grid. -/
theorem after_releaseEvents (e : Engine) (r retry : SendResult) (log : EpochLog) :
    log.after (e.releaseEvents r retry) = log := by
  refine EpochLog.after_of_other fun ev hev => ?_
  obtain ⟨c, rfl⟩ := e.releaseEvents_emits r retry ev hev
  rfl

/-- Sends are not about the grid. -/
theorem after_sent (calls : List SendCall) (log : EpochLog) :
    log.after (calls.map .sent) = log := by
  refine EpochLog.after_of_other fun ev hev => ?_
  obtain ⟨c, -, rfl⟩ := List.mem_map.mp hev
  rfl

/-! ### Entering a run -/

/-- MAX has no grid. -/
theorem gridAt_enterMax (q : ℤ) (o : Obs) (log : EpochLog) :
    GridAt (e.enterMax q o).1 log := by
  obtain ⟨-, -, hloc | ⟨l, hloc⟩⟩ := e.enterMax_spec q o
  · exact gridAt_of_untimed (by rw [hloc]; rfl)
  · exact gridAt_of_untimed (by rw [hloc]; rfl)

/-- A run begins on a grid of its own. -/
theorem gridAt_doRun (lim : RunLimits) (q : ℤ) (o : Obs) :
    GridAt (e.doRun P lim q o).1 (log.after (e.doRun P lim q o).2) := by
  unfold doRun
  split
  · exact gridAt_of_untimed rfl
  · dsimp only
    split
    · exact gridAt_enterMax q o _
    · exact onGrid_fresh rfl rfl (one_le_periodOf _) rfl

/-- A batch of commands taken while idle begins a run on its grid, or none. -/
theorem gridAt_stepCommands (cmds : List Command) (b : Batch) (o : Obs) :
    GridAt (e.stepCommands P cmds b o).1 (log.after (e.stepCommands P cmds b o).2) := by
  cases cmds with
  | cons c cs => exact gridAt_of_untimed rfl
  | nil =>
    simp only [stepCommands]
    split
    · exact gridAt_of_untimed rfl
    · split
      · exact gridAt_doRun b.lim b.trigQ o
      · exact gridAt_of_untimed rfl

/-! ### The places of a timed run -/

/-- Polling at the head of a slot stays on the grid. -/
theorem gridAt_stepTimed {l : TimedLocals} (h : GridAt ⟨e, .timed l⟩ log) :
    GridAt (e.stepTimed l).1 (log.after (e.stepTimed l).2) := by
  have hend : e.poll.1.run.endQpc = e.run.endQpc := by simp
  simp only [stepTimed]
  split
  · exact gridAt_of_untimed rfl
  · split
    · next hzero =>
      rw [after_poll]
      exact ⟨OnGrid.of_endQpc h hend, hzero⟩
    · next hstep =>
      rw [after_poll]
      exact ⟨OnGrid.of_endQpc h hend, fun hzero => absurd hzero hstep⟩

/-- A new rate begins a new epoch at the next slot. -/
theorem gridAt_stepTimedConfig {l : TimedLocals} (h : GridAt ⟨e, .timedConfig l⟩ log) (o : Obs) :
    GridAt (e.stepTimedConfig P l o).1 (log.after (e.stepTimedConfig P l o).2) := by
  obtain ⟨hgrid, hzero⟩ := h
  unfold stepTimedConfig
  split
  · exact ⟨hgrid, hzero⟩
  · next c _ =>
    dsimp only
    split
    · exact gridAt_enterMax 0 o _
    · split
      · refine ⟨onGrid_fresh hzero rfl (one_le_periodOf _) ?_, hzero⟩
        simp only [EpochLog.after_cons, EpochLog.after_nil, EpochLog.see, ← hgrid.endQpc]
        rfl
      · exact ⟨OnGrid.of_endQpc hgrid rfl, hzero⟩

/-- The gate of a slot stays on the grid. -/
theorem gridAt_stepTimedGate {l : TimedLocals} (h : GridAt ⟨e, .timedGate l⟩ log) (o : Obs) :
    GridAt (e.stepTimedGate P l o).1 (log.after (e.stepTimedGate P l o).2) := by
  obtain ⟨hgrid, hzero⟩ := h
  have hlooked : ∀ lastGate, OnGrid e { l with lastGate := lastGate } log := fun _ =>
    ⟨hgrid.t0, hgrid.period, hgrid.tick, hgrid.endQpc, hgrid.count, hgrid.nextFree⟩
  unfold stepTimedGate
  split
  · exact gridAt_of_untimed rfl
  · dsimp only
    split
    · split
      · exact ⟨OnGrid.of_endQpc (hlooked _) rfl, hzero⟩
      · next why _ =>
        have hlog : log.after (.looked (e.tick (o.dt 0)).clock false ::
            ((e.tick (o.dt 0)).enterPause P why o).2) = log := after_releaseEvents _ _ _ log
        rw [hlog]
        refine ⟨OnGrid.of_endQpc (hlooked _) ?_, hzero⟩
        simp
    · exact ⟨OnGrid.of_endQpc hgrid rfl, hzero⟩

/-- After a pause the grid is anchored afresh. -/
theorem gridAt_stepTimedPause {l : TimedLocals} (h : GridAt ⟨e, .timedPause l⟩ log) (o : Obs) :
    GridAt (e.stepTimedPause P l o).1 (log.after (e.stepTimedPause P l o).2) := by
  obtain ⟨hgrid, hzero⟩ := h
  have hwoken : (e.woken o).poll.1.run.endQpc = e.run.endQpc := by simp [woken]
  unfold stepTimedPause
  rcases stepPause_cases e o _ _ with ⟨-, e', hp, heq⟩ | ⟨-, e', go, isOpen, hp, hor, -, heq⟩
  · rw [heq]
    exact gridAt_of_untimed rfl
  · have hend : e'.run.endQpc = e.run.endQpc := (congrArg RunCtl.endQpc hp.run).trans hwoken
    rw [heq, EpochLog.after_append, after_poll]
    rcases hor with ⟨-, rfl⟩ | ⟨-, rfl⟩
    · refine onGrid_fresh hzero rfl hgrid.tick ?_
      simp only [EpochLog.after_cons, EpochLog.after_nil, EpochLog.see, ← hgrid.endQpc, ← hend]
      rfl
    · refine ⟨OnGrid.of_endQpc hgrid ?_, hzero⟩
      simpa using hend

/-- Skipped slots are counted, and the grid stays. -/
theorem lateSlots_spec {l : TimedLocals} (htick : 1 ≤ l.tl.period) (now : ℤ) :
    (e.lateSlots P l now).1.t0 = l.tl.t0 ∧ (e.lateSlots P l now).1.period = l.tl.period ∧
      (e.lateSlots P l now).1.k = l.tl.k + (e.lateSlots P l now).2 := by
  unfold lateSlots
  split
  · exact ⟨rfl, rfl, rfl⟩
  · split
    · exact Timeline.skipLate_spec htick now
    · split
      · exact Timeline.skipLate_spec htick now
      · exact ⟨rfl, rfl, rfl⟩

/-- The late check moves on along the grid, over the slots it reports. -/
theorem gridAt_stepTimedLate {l : TimedLocals} {now : ℤ}
    (h : GridAt ⟨e, .timedLate l now⟩ log) :
    GridAt (e.stepTimedLate P l now).1 (log.after (e.stepTimedLate P l now).2) := by
  obtain ⟨hgrid, hzero⟩ := h
  obtain ⟨ht0, hperiod, hk⟩ := lateSlots_spec (P := P) (e := e) hgrid.tick now
  have hcount := hgrid.count
  have hfree := hgrid.nextFree
  simp only [hzero, if_true, Nat.add_zero] at hcount hfree
  simp only [stepTimedLate]
  split
  · exact gridAt_of_untimed rfl
  · next hend =>
    refine ⟨⟨ht0.trans hgrid.t0, hperiod.trans hgrid.period, ?_, hgrid.endQpc, ?_, ?_⟩, fun _ => ?_⟩
    · show 1 ≤ (e.lateSlots P l now).1.period
      rw [hperiod]
      exact hgrid.tick
    · simp only [hzero, if_true, Nat.add_zero, EpochLog.after_cons, EpochLog.after_nil,
        EpochLog.see, hk]
      omega
    · simp only [hzero, if_true, Nat.add_zero, EpochLog.after_cons, EpochLog.after_nil,
        EpochLog.see, hk]
      omega
    · exact not_le.mp hend

/-- A catch-up batch takes in slots that are due and before the end of the run. -/
theorem growBatch_spec (tl : Timeline) (fire endQpc : ℤ) (cap n batch : ℕ) :
    batch ≤ growBatch tl fire endQpc cap n batch ∧
      ∀ j, batch ≤ j → j < growBatch tl fire endQpc cap n batch →
        tl.slot (tl.k + j) ≤ fire ∧ tl.slot (tl.k + j) < endQpc := by
  induction n generalizing batch with
  | zero => exact ⟨le_refl _, fun j hj hlt => absurd hlt (not_lt.mpr hj)⟩
  | succ n ih =>
    simp only [growBatch]
    split
    · next hgo =>
      obtain ⟨hle, hslots⟩ := ih (batch + 1)
      refine ⟨by omega, fun j hj hlt => ?_⟩
      -- The loop's own test is about slot `batch`; the rest is about larger ones.
      rcases Nat.eq_or_lt_of_le hj with rfl | hmore
      · exact hgo.2
      · exact hslots j hmore hlt
    · exact ⟨le_refl _, fun j hj hlt => absurd hlt (not_lt.mpr hj)⟩

/-- A late slot takes at least itself along, and further slots only when they are due. -/
theorem batchSize_spec (l : TimedLocals) (fire : ℤ) :
    0 < e.batchSize l fire ∧ ∀ j, 0 < j → j < e.batchSize l fire →
      l.tl.slot (l.tl.k + j) ≤ fire ∧ l.tl.slot (l.tl.k + j) < e.run.endQpc := by
  unfold batchSize
  split
  · exact growBatch_spec l.tl fire e.run.endQpc _ kMaxCatchUpBatch 1
  · exact ⟨Nat.one_pos, fun j hj hlt => by omega⟩

/-- A step of a slot stays on its grid. -/
theorem stepLocals_grid (l : TimedLocals) (o : Obs) :
    (e.stepLocals l o).tl.t0 = l.tl.t0 ∧ (e.stepLocals l o).tl.period = l.tl.period := by
  unfold stepLocals
  split <;> exact ⟨rfl, rfl⟩

/-- Whichever step of the action it is, after it the slots of its batch are accounted for. -/
theorem stepLocals_slots (l : TimedLocals) (o : Obs) :
    (e.stepLocals l o).tl.k + (if (e.stepLocals l o).step = 0 then 0 else 1) =
      l.tl.k + e.batchSize l (e.clock + o.dt 1) := by
  by_cases hlast : l.step + 1 = e.prog.steps.length
  · simp [stepLocals, hlast]
  · -- A further step comes: the batch is one action.
    have hone : e.batchSize l (e.clock + o.dt 1) = 1 :=
      e.batchSize_eq_one _ fun hb => hlast (by omega)
    simp [stepLocals, hlast, hone]

/-- A step of an action: its slots are counted when it starts, and left behind when it ends. -/
theorem onGrid_fireStep {l : TimedLocals} (h : OnGrid e l log) (o : Obs) :
    OnGrid e (e.stepLocals l o)
      (if l.step = 0 then
        log.see (.fired (e.clock + o.dt 1) l.tl.k (e.batchSize l (e.clock + o.dt 1)))
      else log) := by
  obtain ⟨ht0, hperiod, htick, hend, hcount, hfree⟩ := h
  obtain ⟨ht0', hperiod'⟩ := e.stepLocals_grid l o
  have hslots := e.stepLocals_slots l o
  have htick' : 1 ≤ (e.stepLocals l o).tl.period := by
    rw [hperiod']
    exact htick
  by_cases hzero : l.step = 0
  · simp only [hzero, if_true, Nat.add_zero] at hcount hfree ⊢
    refine ⟨ht0'.trans ht0, hperiod'.trans hperiod, htick', hend, ?_, ?_⟩
    · rw [hslots]
      simp only [EpochLog.see]
      omega
    · rw [hslots]
      exact le_refl _
  · -- In the middle of the action: its one slot was counted with its first step.
    have hone : e.batchSize l (e.clock + o.dt 1) = 1 :=
      e.batchSize_eq_one _ fun hb => hzero hb.1
    simp only [if_neg hzero] at hcount hfree ⊢
    refine ⟨ht0'.trans ht0, hperiod'.trans hperiod, htick', hend, ?_, ?_⟩
    · rw [hslots, hone]
      exact hcount
    · rw [hslots, hone]
      exact hfree

/-- The slots of an action that starts are new, due and in time. -/
theorem allows_fireStep {l : TimedLocals} (h : OnGrid e l log) (hzero : l.step = 0)
    (hnext : l.tl.next < e.run.endQpc) (hdue : l.tl.next ≤ e.clock) (o : Obs) :
    log.Allows (.fired (e.clock + o.dt 1) l.tl.k (e.batchSize l (e.clock + o.dt 1))) := by
  obtain ⟨hpos, hslots⟩ := e.batchSize_spec l (e.clock + o.dt 1)
  have hgrid : ∀ idx, log.tl.slot idx = l.tl.slot idx := by
    intro idx
    exact Timeline.slot_eq l.tl log.tl h.t0.symm h.period.symm idx
  refine ⟨?_, hpos, fun j hj => ?_⟩
  · have hfree := h.nextFree
    simpa [hzero] using hfree
  · rw [hgrid, ← h.endQpc]
    -- The first slot was waited for, the others were taken in by the batch.
    rcases Nat.eq_zero_or_pos j with rfl | hjpos
    · refine ⟨?_, hnext⟩
      show l.tl.next ≤ _
      omega
    · exact hslots j hjpos hj

/-- A step that is due is sent in its slot, and never before it. -/
theorem gridAt_fireStep {l : TimedLocals} (h : GridAt ⟨e, .timedAct l⟩ log) {st : ActionStep}
    (hoff : 0 ≤ st.offsetTicks) (hdue : l.tl.next + st.offsetTicks ≤ e.clock) (o : Obs) :
    GridAt (e.fireStep P l st o).1 (log.after (e.fireStep P l st o).2) ∧
      log.Faithful (e.fireStep P l st o).2 := by
  obtain ⟨hgrid, hnext⟩ := h
  have hev := e.fireStep_events P l st o
  have hlog : log.after (e.fireStep P l st o).2 =
      if l.step = 0 then
        log.see (.fired (e.clock + o.dt 1) l.tl.k (e.batchSize l (e.clock + o.dt 1)))
      else log := by
    rw [hev, EpochLog.after_append, after_sent]
    split <;> rfl
  constructor
  · rw [hlog]
    unfold GridAt
    rw [e.fireStep_loc P l st o]
    exact OnGrid.of_endQpc (onGrid_fireStep hgrid o) (e.fireStep_sends P l st o).endQpc
  · rw [hev, EpochLog.faithful_append]
    refine ⟨?_, EpochLog.faithful_of_no_fires fun at_ k batch => by simp⟩
    split
    · next hzero =>
      have hslot : l.tl.next ≤ e.clock := by omega
      exact ⟨allows_fireStep hgrid hzero (hnext hzero) hslot o, trivial⟩
    · trivial

/-- The sends of a slot stay on the grid, one click for each slot. -/
theorem gridAt_stepTimedAct (hprog : Compiled P e.prog) {l : TimedLocals}
    (h : GridAt ⟨e, .timedAct l⟩ log) (o : Obs) :
    GridAt (e.stepTimedAct P l o).1 (log.after (e.stepTimedAct P l o).2) ∧
      log.Faithful (e.stepTimedAct P l o).2 := by
  have hwait : ∀ {e' : Engine}, e.WaitedTo e' → GridAt ⟨e', .timedAct l⟩ log := by
    intro e' hw
    refine ⟨OnGrid.of_endQpc h.1 (congrArg RunCtl.endQpc hw.run), fun hzero => ?_⟩
    show l.tl.next < e'.run.endQpc
    rw [hw.run]
    exact h.2 hzero
  rcases e.stepTimedAct_cases P l o with ⟨-, heq⟩ |
    ⟨st, hst, heq | ⟨e', hw, heq⟩ | ⟨e', hw, hdue, heq⟩⟩
  · rw [heq]
    exact ⟨gridAt_of_untimed rfl, trivial⟩
  · rw [heq]
    exact ⟨h, trivial⟩
  · rw [heq]
    exact ⟨(hwait hw).1, trivial⟩
  · rw [heq]
    -- No step of a compiled program is due before its slot.
    have hoff : 0 ≤ st.offsetTicks := by
      obtain ⟨a, ha⟩ := hprog
      rw [ha] at hst
      exact compileAction_offset_nonneg P a kTagInfClick st (List.mem_of_getElem? hst)
    exact gridAt_fireStep (hwait hw) hoff hdue o

end Engine

/-! ### Every step -/

variable {P : Platform}

/-- Outside a timed run no step leads into one. -/
theorem Thread.step_untimed {e : Engine} {loc : Loc} (h : loc.timedLocals = none)
    (hbatch : ∀ cmds b, loc ≠ .commands cmds b) (o : Obs) :
    (Thread.step P ⟨e, loc⟩ o).1.loc.timedLocals = none := by
  cases loc with
  | idle =>
    simp only [Thread.step]
    split <;> rfl
  | commands cmds b => exact absurd rfl (hbatch cmds b)
  | max l =>
    simp only [Thread.step, Engine.stepMax]
    split <;> rfl
  | maxConfig l =>
    simp only [Thread.step, Engine.stepMaxConfig]
    split
    · rfl
    · split <;> rfl
  | maxGate l =>
    simp only [Thread.step, Engine.stepMaxGate]
    split
    · rfl
    · split
      · rfl
      · split
        · split <;> rfl
        · rfl
  | maxPause l now =>
    exact e.stepPause_rule (I := fun t => t.loc.timedLocals = none) o (fun _ _ => rfl)
      fun _ _ => ⟨rfl, rfl⟩
  | maxSend l now =>
    simp only [Thread.step, Engine.stepMaxSend]
    split
    · rfl
    · rw [e.fireMax_loc P l o]
      rfl
  | ending => rfl
  | done => rfl
  | _ => exact absurd h (by simp [Loc.timedLocals])

/-- Away from the wait for an action a step is faithful. -/
theorem Thread.step_faithful {t : Thread} (h : ∀ l, t.loc ≠ .timedAct l) (o : Obs)
    (log : EpochLog) : log.Faithful (t.step P o).2 := by
  refine EpochLog.faithful_of_no_fires fun at_ k batch hmem => ?_
  have hplace := t.step_emits P o _ hmem
  cases hloc : t.loc with
  | timedAct l => exact h l hloc
  | _ => simp [hloc, Loc.emits] at hplace

/-- **Every step keeps the locals on the grid**, and fires what the log allows. -/
theorem GridAt.step {t : Thread} {log : EpochLog} (hprog : Compiled P t.e.prog)
    (h : GridAt t log) (o : Obs) :
    GridAt (t.step P o).1 (log.after (t.step P o).2) ∧ log.Faithful (t.step P o).2 := by
  obtain ⟨e, loc⟩ := t
  cases loc with
  | timedAct l => exact Engine.gridAt_stepTimedAct hprog h o
  | commands cmds b =>
    exact ⟨Engine.gridAt_stepCommands cmds b o, Thread.step_faithful (by simp) o log⟩
  | timed l => exact ⟨Engine.gridAt_stepTimed h, Thread.step_faithful (by simp) o log⟩
  | timedConfig l => exact ⟨Engine.gridAt_stepTimedConfig h o, Thread.step_faithful (by simp) o log⟩
  | timedGate l => exact ⟨Engine.gridAt_stepTimedGate h o, Thread.step_faithful (by simp) o log⟩
  | timedPause l => exact ⟨Engine.gridAt_stepTimedPause h o, Thread.step_faithful (by simp) o log⟩
  | timedLate l now => exact ⟨Engine.gridAt_stepTimedLate h, Thread.step_faithful (by simp) o log⟩
  | _ =>
    exact ⟨gridAt_of_untimed (Thread.step_untimed rfl (by simp) o),
      Thread.step_faithful (by simp) o log⟩

/-! ### Every run -/

/-- The boundaries of the run find the CatchUp policy and a lateness of at most 250 ms. -/
def OnTime (P : Platform) (t : Thread) : Act → Prop
  | .thread _ =>
    match t.loc with
    | .timedLate l now => t.e.cfg.latePolicy = .catchUp ∧ now - l.tl.next ≤ Clk.msToTicks P 250
    | _ => True
  | _ => True

/-- On time, nothing is skipped. -/
theorem OnTime.missed {t : Thread} {act : Act} (h : OnTime P t act) {n : ℕ}
    (hmem : .missed n ∈ (engineMachine P).out t act) : n = 0 := by
  obtain ⟨e, loc⟩ := t
  rcases other_threads P ⟨e, loc⟩ act with ⟨o, rfl⟩ | ⟨hout, -⟩
  · have hplace := Thread.step_emits P ⟨e, loc⟩ o _ hmem
    cases loc with
    | timedLate l now =>
      obtain ⟨hpolicy, hlate⟩ : e.cfg.latePolicy = .catchUp ∧
        now - l.tl.next ≤ Clk.msToTicks P 250 := h
      have hslots : (e.lateSlots P l now).2 = 0 := by
        simp only [Engine.lateSlots, hpolicy]
        split
        · rfl
        · rw [if_neg (not_lt.mpr hlate)]
      have hout : (engineMachine P).out ⟨e, .timedLate l now⟩ (.thread o) =
          [.missed (e.lateSlots P l now).2] := by
        simp only [Machine.out, engineMachine, Thread.step, Engine.stepTimedLate]
        split <;> rfl
      rw [hout] at hmem
      have hn := List.mem_singleton.mp hmem
      rw [hslots] at hn
      exact Event.missed.inj hn
    | _ => simp [Loc.emits] at hplace
  · rw [hout] at hmem
    exact absurd hmem (by simp)

/-- A run on time misses nothing. -/
theorem missed_of_onTime {t : Thread} {acts : List Act}
    (h : (engineMachine P).Meets (OnTime P) t acts) {n : ℕ}
    (hmem : .missed n ∈ (engineMachine P).trace t acts) : n = 0 := by
  induction acts generalizing t with
  | nil => exact absurd hmem (by simp)
  | cons act acts ih =>
    rcases List.mem_append.mp hmem with hnow | hlater
    · exact h.1.missed hnow
    · exact ih h.2 hlater

/-- The thread and the trace so far. -/
structure KeepsTime (P : Platform) (t : Thread) (past : List Event) : Prop where
  prog : Compiled P t.e.prog
  grid : GridAt t (EpochLog.after {} past)
  faithful : EpochLog.Faithful {} past

/-- One act keeps the engine on its grid and the trace faithful to it. -/
theorem KeepsTime.step {t : Thread} {past : List Event} (h : KeepsTime P t past) (act : Act) :
    KeepsTime P ((engineMachine P).next t act) (past ++ (engineMachine P).out t act) := by
  rcases other_threads P t act with ⟨o, rfl⟩ | ⟨hout, queue, flag, event, armed, hnext⟩
  · obtain ⟨hgrid, hfaithful⟩ := h.grid.step h.prog o
    refine ⟨t.step_compiled P h.prog o, ?_, ?_⟩
    · rw [EpochLog.after_append]
      exact hgrid
    · exact (EpochLog.faithful_append _ _ _).mpr ⟨h.faithful, hfaithful⟩
  · rw [hout, hnext, List.append_nil]
    refine ⟨h.prog, ?_, h.faithful⟩
    obtain ⟨e, loc⟩ := t
    have hgrid := h.grid
    cases loc with
    | timed l => exact Engine.OnGrid.of_endQpc hgrid rfl
    | timedConfig l | timedGate l | timedPause l | timedLate l now =>
      exact ⟨Engine.OnGrid.of_endQpc hgrid.1 rfl, hgrid.2⟩
    | timedAct l => exact ⟨Engine.OnGrid.of_endQpc hgrid.1 rfl, hgrid.2⟩
    | _ => exact gridAt_of_untimed rfl

/-- **The timeline is kept faithfully**, in every run.

    * In each epoch slots go out in increasing order, none twice, none early, and none at or
      after the end of the run.
    * At each place of a timed run the slots are those of the epoch's grid, and at an action
      boundary what was sent and what was missed add up to `tl.k`.
    * With CatchUp and a lateness of at most 250 ms no slot is missed. -/
theorem timeline_faithful (P : Platform) (waiter : PreciseWaiter) (clock : ℤ) (acts : List Act) :
    EpochLog.Faithful {} ((engineMachine P).trace (Thread.start P waiter clock) acts) ∧
      (∀ l, ((engineMachine P).after (Thread.start P waiter clock) acts).loc.timedLocals = some l →
        (∀ idx, l.tl.slot idx = (EpochLog.after {}
          ((engineMachine P).trace (Thread.start P waiter clock) acts)).tl.slot idx) ∧
        (l.step = 0 →
          (EpochLog.after {}
              ((engineMachine P).trace (Thread.start P waiter clock) acts)).fired +
            (EpochLog.after {}
              ((engineMachine P).trace (Thread.start P waiter clock) acts)).missed = l.tl.k)) ∧
      ((engineMachine P).Meets (OnTime P) (Thread.start P waiter clock) acts →
        ∀ n, .missed n ∈ (engineMachine P).trace (Thread.start P waiter clock) acts → n = 0) := by
  have hstart : KeepsTime P (Thread.start P waiter clock) [] :=
    ⟨(Thread.start_compiled P waiter clock).1, trivial, trivial⟩
  have h := (engineMachine P).history (I := KeepsTime P) (fun t past act ht => ht.step act)
    hstart acts
  refine ⟨h.faithful, fun l hl => ?_, fun hmeets n hn => missed_of_onTime hmeets hn⟩
  have hgrid := h.grid.onGrid hl
  refine ⟨Timeline.slot_eq _ _ hgrid.t0 hgrid.period, fun hzero => ?_⟩
  simpa [hzero] using hgrid.count

end InfinityClicker
