import InfinityClicker.Input.Releases
import InfinityClicker.Scheduler.EngineLoop

namespace InfinityClicker

open Presses Machines

/-!
# Nothing stays held

While `SendInput` accepts what it is given, the engine's own events leave keys down only in
the middle of an action.

* `Thread.Tidy` — what is held at each place of the thread: nothing, or what the steps of the
  action so far have pressed;
* `Thread.Tidy.step` — one lemma for each place, from the balance of compiled programs and
  from `releaseAll` on every way out of a run;
* `nothing_held_at_rest` — nothing is held whenever the thread is at rest.
-/

/-- `SendInput` accepts every event it is given in this step. -/
def AcceptsAll : Act → Prop
  | .thread o => o.sent.limit = none ∧ o.release.limit = none ∧ o.retry.limit = none
  | _ => True

instance : DecidablePred AcceptsAll
  | .thread _ => inferInstanceAs (Decidable (_ ∧ _ ∧ _))
  | .push _ | .storeFlag | .setEvent | .storeArmed _ => isTrue trivial

/-- What the first `n` steps of a program send. -/
def ActionProgram.sentBefore (p : ActionProgram) (n : ℕ) : List INPUT :=
  (p.steps.take n).flatMap ActionStep.inputs

/-- The batch of a MAX run is a balanced list of inputs, some number of times over. -/
def MaxLocals.Repeats (l : MaxLocals) : Prop :=
  ∃ flat, Balanced (edgesOf flat) ∧ l.batch = (List.replicate l.B flat).flatten ∧
    l.per = flat.length

namespace Thread

/-- What is held at each place of the thread. -/
structure Tidy (P : Platform) (t : Thread) : Prop where
  prog : Compiled P t.e.prog
  maxProg : Compiled P t.e.maxProg
  held :
    match t.loc with
    | .idle | .commands _ _ | .done => t.e.sender.held = nothing
    | .timed l | .timedAct l =>
      t.e.sender.held = hold nothing (edgesOf (t.e.prog.sentBefore l.step)) ∧
        t.e.state = .running
    | .timedConfig l | .timedGate l | .timedLate l _ =>
      l.step = 0 ∧ t.e.sender.held = nothing ∧ t.e.state = .running
    | .timedPause l => l.step = 0 ∧ t.e.sender.held = nothing
    | .max l | .maxConfig l | .maxGate l | .maxPause l _ | .maxSend l _ =>
      l.Repeats ∧ t.e.sender.held = nothing
    | .ending =>
      t.e.sender.heldCount ≤ InputSender.releaseRoom ∧ t.e.sender.heldKeys 0 = false ∧
        (t.e.state = .running ∨ t.e.sender.held = nothing)

/-- At rest: idle, paused, at an action boundary, or returned.  In the middle of an action and
    before the releases at the end of a run the state is still `running`. -/
def AtRest (t : Thread) : Prop :=
  t.e.state ≠ .running ∨
    match t.loc with
    | .timed l | .timedAct l => l.step = 0
    | .ending => False
    | _ => True

end Thread

variable (P : Platform)

/-! ### Compiled programs -/

/-- The edges of a compiled program balance. -/
theorem Compiled.balanced {p : ActionProgram} (h : Compiled P p) : Balanced (edgesOf p.flat) := by
  obtain ⟨a, rfl⟩ := h
  exact compileAction_balanced P a kTagInfClick

/-- The flat list of a compiled program is its steps in order. -/
theorem Compiled.flat_eq {p : ActionProgram} (h : Compiled P p) :
    p.flat = p.steps.flatMap ActionStep.inputs := by
  obtain ⟨a, rfl⟩ := h
  exact compileAction_flat_steps P a kTagInfClick

/-- A compiled program counts its own inputs. -/
theorem Compiled.per_eq {p : ActionProgram} (h : Compiled P p) :
    p.inputsPerAction = p.flat.length := by
  obtain ⟨a, rfl⟩ := h
  exact compileAction_inputsPerAction P a kTagInfClick

/-- The inputs sent before a step, and those of the step itself. -/
theorem ActionProgram.sentBefore_succ {p : ActionProgram} {n : ℕ} {st : ActionStep}
    (hst : p.steps[n]? = some st) : p.sentBefore (n + 1) = p.sentBefore n ++ st.inputs := by
  rw [sentBefore, List.take_add_one, hst, List.flatMap_append]
  simp [sentBefore]

/-- All steps of a program leave nothing held. -/
theorem Compiled.sentBefore_all {p : ActionProgram} (h : Compiled P p) :
    hold nothing (edgesOf (p.sentBefore p.steps.length)) = nothing := by
  rw [ActionProgram.sentBefore, List.take_length, ← h.flat_eq]
  exact h.balanced.hold_nothing

/-- A part of a program holds so little that `releaseAll` has room for it. -/
theorem Compiled.sentBefore_room {p : ActionProgram} (h : Compiled P p) {s : InputSender} {n : ℕ}
    (hs : s.held = hold nothing (edgesOf (p.sentBefore n))) :
    s.heldCount ≤ InputSender.releaseRoom ∧ s.heldKeys 0 = false := by
  obtain ⟨a, ha⟩ := h
  constructor
  · -- Held are at most the four modifiers and the main key or button.
    have hcover : s.heldCount ≤ (actionControls P a kTagInfClick).length := by
      refine InputSender.heldCount_le fun c hc => ?_
      rw [hs] at hc
      refine compileAction_cover P a kTagInfClick (fun i hi => ?_) hc
      rw [compileAction_flat_steps, ← ha]
      obtain ⟨st, hst, hmem⟩ := List.mem_flatMap.mp hi
      exact List.mem_flatMap.mpr ⟨st, List.mem_of_mem_take hst, hmem⟩
    have hsix := actionControls_length P a kTagInfClick
    have hroom : InputSender.releaseRoom = 64 := rfl
    omega
  · have hzero := congrFun hs (.key 0)
    rw [hold_of_forall_ne fun e he => InputSender.edgesOf_ne_zero he] at hzero
    exact hzero

/-! ### The sender when everything is accepted -/

namespace InputSender

/-- A send that is accepted whole applies every edge of its inputs. -/
theorem send_held_all (s : InputSender) (ins : List INPUT) {r : SendResult}
    (hr : r.limit = none) : (s.send ins r).sender.held = hold s.held (edgesOf ins) := by
  have hall : r.accepted ins.length = ins.length := by
    rw [SendResult.accepted, hr]
  rw [send_held, hall, List.take_length]

/-- With nothing held there is room, and no stray key, in the record. -/
theorem room_of_nothing {s : InputSender} (h : s.held = nothing) :
    s.heldCount ≤ releaseRoom ∧ s.heldKeys 0 = false := by
  refine ⟨?_, congrFun h (.key 0)⟩
  have hnil : s.heldCount ≤ ([] : List Control).length :=
    heldCount_le fun c hc => absurd (h ▸ hc : nothing c = true) (by simp)
  exact Nat.le_trans hnil (Nat.zero_le _)

/-- Releasing with nothing held leaves nothing held. -/
theorem releaseAll_of_nothing {s : InputSender} (h : s.held = nothing) (r retry : SendResult) :
    (s.releaseAll r retry).sender.held = nothing :=
  releaseAll_nothing (room_of_nothing h).1 (room_of_nothing h).2 r retry

end InputSender

/-- The first repetitions of a list. -/
theorem take_flatten_replicate {α : Type*} (xs : List α) {n m : ℕ} (h : n ≤ m) :
    (List.replicate m xs).flatten.take (n * xs.length) = (List.replicate n xs).flatten := by
  have hsplit : (List.replicate m xs).flatten =
      (List.replicate n xs).flatten ++ (List.replicate (m - n) xs).flatten := by
    rw [← List.flatten_append, ← List.replicate_add]
    congr 2
    omega
  have hlen : ((List.replicate n xs).flatten).length = n * xs.length := by simp
  rw [hsplit, ← hlen, List.take_left]

/-- The first actions of a repeated batch leave nothing held. -/
theorem MaxLocals.Repeats.take {l : MaxLocals} (h : l.Repeats) {n : ℕ} (hn : n ≤ l.B) :
    hold nothing (edgesOf (l.batch.take (n * l.per))) = nothing := by
  obtain ⟨flat, hflat, hbatch, hper⟩ := h
  rw [hbatch, hper, take_flatten_replicate flat hn, edgesOf_replicate]
  exact (hflat.replicate n).hold_nothing

/-- A batch of MAX is the program repeated. -/
theorem Engine.buildBatch_repeats {e : Engine} (h : Compiled P e.maxProg) {l : MaxLocals}
    (hbatch : l.batch = e.buildBatch.1) (hper : l.per = e.buildBatch.2.1)
    (hB : l.B = e.buildBatch.2.2) : l.Repeats :=
  ⟨e.maxProg.flat, h.balanced, by rw [hbatch, hB]; rfl, by rw [hper]; exact h.per_eq⟩

/-! ### One lemma for each place of the thread -/

namespace Engine

variable {P} {e : Engine}

/-- The programs are compiled and nothing is held: what holds between actions. -/
structure Clear (P : Platform) (e : Engine) : Prop where
  prog : Compiled P e.prog
  maxProg : Compiled P e.maxProg
  held : e.sender.held = nothing

/-- A configuration rebuilds the programs and presses nothing. -/
theorem Clear.applyConfig (h : e.Clear P) (c : EngineConfig) : (e.applyConfig P c).Clear P :=
  ⟨(rebuildProgram_compiled P _).1, (rebuildProgram_compiled P _).2, by simpa using h.held⟩

/-- A release keeps the engine clear. -/
theorem Clear.releaseAll (h : e.Clear P) (r retry : SendResult) : (e.releaseAll r retry).Clear P :=
  ⟨h.prog, h.maxProg, InputSender.releaseAll_of_nothing h.held r retry⟩

/-- A command taken while idle keeps the engine clear. -/
theorem Clear.idleCommand (h : e.Clear P) (b : Batch) (r retry : SendResult) (c : Command) :
    (e.idleCommand P b r retry c).1.Clear P := by
  cases c with
  | setConfig cfg => exact h.applyConfig cfg
  | emergency qpc =>
    have hrel := h.releaseAll r retry
    exact ⟨hrel.prog, hrel.maxProg, hrel.held⟩
  | triggerDown qpc =>
    rw [Engine.idleCommand_triggerDown]
    exact h
  | triggerUp qpc =>
    rw [Engine.idleCommand_triggerUp]
    exact h
  | _ => exact ⟨h.prog, h.maxProg, h.held⟩

/-- A clear engine may go back to idle. -/
theorem Clear.backToIdle (h : e.Clear P) : e.backToIdle.Tidy P := ⟨h.prog, h.maxProg, h.held⟩

/-- Entering MAX keeps the order. -/
theorem Clear.enterMax (h : e.Clear P) (q : ℤ) (o : Obs) : (e.enterMax q o).1.Tidy P := by
  unfold Engine.enterMax
  split
  · have hroom := InputSender.room_of_nothing h.held
    exact ⟨h.prog, h.maxProg, hroom.1, hroom.2, .inr h.held⟩
  · exact ⟨h.prog, h.maxProg, buildBatch_repeats P h.maxProg rfl rfl rfl, h.held⟩

/-- Entering the timed loop keeps the order. -/
theorem Clear.enterTimed (h : e.Clear P) (hrun : e.state = .running) (q : ℤ) (o : Obs) :
    (e.enterTimed P q o).1.Tidy P := by
  refine ⟨h.prog, h.maxProg, ?_, hrun⟩
  exact h.held

/-- Starting a run keeps the order. -/
theorem Clear.doRun (h : e.Clear P) (lim : RunLimits) (q : ℤ) (o : Obs) :
    (e.doRun P lim q o).1.Tidy P := by
  unfold Engine.doRun
  split
  · exact h.backToIdle
  · dsimp only
    split
    · exact Clear.enterMax
        ⟨by simpa using h.prog, by simpa using h.maxProg, by simpa using h.held⟩ q o
    · exact Clear.enterTimed
        ⟨by simpa using h.prog, by simpa using h.maxProg, by simpa using h.held⟩ (by simp) q o

/-- A batch of commands taken while idle keeps the order. -/
theorem Clear.stepCommands (h : e.Clear P) (cmds : List Command) (b : Batch) (o : Obs) :
    (e.stepCommands P cmds b o).1.Tidy P := by
  cases cmds with
  | cons c cs =>
    have hc := h.idleCommand b o.release o.retry c
    exact ⟨hc.prog, hc.maxProg, hc.held⟩
  | nil =>
    have hpub : ((e.tick (o.dt 0)).publish P (e.tick (o.dt 0)).clock true).Clear P :=
      ⟨by simpa using h.prog, by simpa using h.maxProg, by simpa using h.held⟩
    simp only [Engine.stepCommands]
    split
    · have hrel := hpub.releaseAll o.release o.retry
      exact ⟨hrel.prog, hrel.maxProg, hrel.held⟩
    · split
      · exact hpub.doRun b.lim b.trigQ o
      · exact hpub.backToIdle

/-- The end of a run releases whatever a part of an action still holds. -/
theorem tidy_stepEnding (h : Thread.Tidy P ⟨e, .ending⟩) (o : Obs) :
    (e.stepEnding P o).1.Tidy P := by
  obtain ⟨hprog, hmax, hroom, hzero, -⟩ := h
  have hheld : (e.releaseAll o.release o.retry).sender.held = nothing :=
    InputSender.releaseAll_nothing hroom hzero o.release o.retry
  have hclear : (e.releaseAll o.release o.retry).Clear P := ⟨hprog, hmax, hheld⟩
  refine Clear.backToIdle ?_
  simp only [applyPending]
  split
  · next c _ =>
    have hc := hclear.applyConfig c
    refine ⟨(rebuildProgram_compiled P _).1, (rebuildProgram_compiled P _).2, ?_⟩
    simpa [endRun] using hheld
  · exact ⟨by simpa [endRun] using hprog, by simpa [endRun] using hmax,
      by simpa [endRun] using hheld⟩

/-- The poll of a timed run, in the middle of an action or not. -/
theorem tidy_stepTimed {l : TimedLocals} (h : Thread.Tidy P ⟨e, .timed l⟩) :
    (e.stepTimed l).1.Tidy P := by
  obtain ⟨hprog, hmax, hheld, hstate⟩ := h
  have hroom := hprog.sentBefore_room P hheld
  have hp : Compiled P e.poll.1.prog := by simpa using hprog
  have hm : Compiled P e.poll.1.maxProg := by simpa using hmax
  have hs : e.poll.1.state = .running := by simpa using hstate
  simp only [stepTimed]
  split
  · exact ⟨hp, hm, by simpa using hroom.1, by simpa using hroom.2, .inl hs⟩
  · split
    · next hzero =>
      -- At an action boundary none of the action has been sent.
      have hnothing : e.sender.held = nothing := by
        rw [hheld, hzero]
        rfl
      exact ⟨hp, hm, hzero, by simpa using hnothing, hs⟩
    · exact ⟨hp, hm, by simpa using hheld, hs⟩

/-- Taking over a configuration in a slot keeps the order. -/
theorem tidy_stepTimedConfig {l : TimedLocals} (h : Thread.Tidy P ⟨e, .timedConfig l⟩) (o : Obs) :
    (e.stepTimedConfig P l o).1.Tidy P := by
  obtain ⟨hprog, hmax, hzero, hheld, hstate⟩ := h
  unfold stepTimedConfig
  split
  · exact ⟨hprog, hmax, hzero, hheld, hstate⟩
  · next c _ =>
    have hnone : ({ e with pendingCfg := none } : Engine).Clear P := ⟨hprog, hmax, hheld⟩
    have hclear := hnone.applyConfig c
    dsimp only
    split
    · exact hclear.enterMax 0 o
    · split
      · exact ⟨hclear.prog, hclear.maxProg, hzero, hclear.held, hstate⟩
      · exact ⟨hclear.prog, hclear.maxProg, hzero, hclear.held, hstate⟩

/-- The gate of a slot keeps the order. -/
theorem tidy_stepTimedGate {l : TimedLocals} (h : Thread.Tidy P ⟨e, .timedGate l⟩) (o : Obs) :
    (e.stepTimedGate P l o).1.Tidy P := by
  obtain ⟨hprog, hmax, hzero, hheld, hstate⟩ := h
  have hroom := InputSender.room_of_nothing hheld
  unfold stepTimedGate
  split
  · exact ⟨hprog, hmax, hroom.1, hroom.2, .inl hstate⟩
  · dsimp only
    split
    · split
      · exact ⟨hprog, hmax, hzero, hheld, hstate⟩
      · next why _ =>
        -- Nothing is held at a boundary: the releases of the pause are none.
        refine ⟨by simpa using hprog, by simpa using hmax, hzero, ?_⟩
        rw [(enterPause_state P _ why o).2]
        exact InputSender.releaseAll_of_nothing hheld _ _
    · exact ⟨hprog, hmax, hzero, hheld, hstate⟩

/-- A round of `pauseUntilGate` ends the run, or goes on where its caller says. -/
theorem tidy_stepPause (h : e.Clear P) (o : Obs) {resume stay : Engine → Thread × List Event}
    (hresume : ∀ e' : Engine, e'.Clear P → e'.state = .running → (resume e').1.Tidy P)
    (hstay : ∀ e' : Engine, e'.Clear P → (stay e').1.Tidy P) :
    (e.stepPause o resume stay).1.Tidy P := by
  have hclear : (e.woken o).poll.1.Clear P :=
    ⟨by simpa [woken] using h.prog, by simpa [woken] using h.maxProg,
      by simpa [woken] using h.held⟩
  have hroom := InputSender.room_of_nothing hclear.held
  simp only [stepPause]
  split
  · exact ⟨hclear.prog, hclear.maxProg, hroom.1, hroom.2, .inr hclear.held⟩
  · split
    · exact hresume _ ⟨hclear.prog, hclear.maxProg, hclear.held⟩ rfl
    · exact hstay _ ⟨hclear.prog, hclear.maxProg, hclear.held⟩

/-- A pause in a slot keeps the order: everything held is released first. -/
theorem tidy_stepTimedPause {l : TimedLocals} (h : Thread.Tidy P ⟨e, .timedPause l⟩) (o : Obs) :
    (e.stepTimedPause P l o).1.Tidy P := by
  obtain ⟨hprog, hmax, hzero, hheld⟩ := h
  refine tidy_stepPause ⟨hprog, hmax, hheld⟩ o (fun e' hc hrun => ?_) (fun e' hc => ?_)
  · refine ⟨hc.prog, hc.maxProg, ?_, hrun⟩
    dsimp only
    rw [hzero]
    exact hc.held
  · exact ⟨by simpa using hc.prog, by simpa using hc.maxProg, hzero, by simpa using hc.held⟩

/-- Skipping late slots keeps the order. -/
theorem tidy_stepTimedLate {l : TimedLocals} {now : ℤ} (h : Thread.Tidy P ⟨e, .timedLate l now⟩) :
    (e.stepTimedLate P l now).1.Tidy P := by
  obtain ⟨hprog, hmax, hzero, hheld, hstate⟩ := h
  have hroom := InputSender.room_of_nothing hheld
  simp only [stepTimedLate]
  split
  · exact ⟨hprog, hmax, hroom.1, hroom.2, .inl hstate⟩
  · refine ⟨hprog, hmax, ?_, hstate⟩
    dsimp only
    rw [hzero]
    exact hheld

/-- A step of an action: the balance of the program is used where the action ends. -/
theorem tidy_fireStep {l : TimedLocals} (h : Thread.Tidy P ⟨e, .timedAct l⟩) {st : ActionStep}
    (hst : e.prog.steps[l.step]? = some st) {o : Obs} (ho : o.sent.limit = none) :
    (e.fireStep P l st o).1.Tidy P := by
  obtain ⟨hprog, hmax, hheld, hstate⟩ := h
  have hsends := e.fireStep_sends P l st o
  refine ⟨by rw [hsends.prog]; exact hprog, by rw [hsends.maxProg]; exact hmax, ?_⟩
  rw [e.fireStep_loc P l st o]
  refine ⟨?_, hsends.state.trans hstate⟩
  rw [hsends.sender, hsends.prog, InputSender.send_held_all _ _ ho, hheld]
  by_cases hsingle : l.step = 0 ∧ e.prog.steps.length = 1
  · -- The one step is the whole program, sent any number of times.
    obtain ⟨hzero, hlen⟩ := hsingle
    have hsteps : e.prog.steps = [st] := by
      obtain ⟨st', hst'⟩ := List.length_eq_one_iff.mp hlen
      rw [hst', hzero] at hst
      rw [hst', Option.some.inj hst]
    have hflat : e.prog.flat = st.inputs := by
      rw [hprog.flat_eq, hsteps]
      simp
    have hbal := hprog.balanced
    rw [hflat] at hbal
    simp only [stepInputs, stepLocals, edgesOf_replicate, hzero, hlen, zero_add, if_true]
    exact (hbal.replicate _).hold_nothing
  -- Of several steps each is sent alone, and what is held is what was sent before it.
  · have hinputs : e.stepInputs l st o = st.inputs := by
      rw [stepInputs, e.batchSize_eq_one _ hsingle]
      simp
    rw [hinputs, ← hold_append, ← edgesOf_append, ← ActionProgram.sentBefore_succ hst]
    simp only [stepLocals]
    split
    · next hlast =>
      rw [hlast]
      exact hprog.sentBefore_all
    · rfl

/-- The sends of a slot: an accepted program ends with nothing held. -/
theorem tidy_stepTimedAct {l : TimedLocals} (h : Thread.Tidy P ⟨e, .timedAct l⟩) {o : Obs}
    (ho : o.sent.limit = none) : (e.stepTimedAct P l o).1.Tidy P := by
  obtain ⟨hprog, hmax, hheld, hstate⟩ := h
  have hroom := hprog.sentBefore_room P hheld
  rcases e.stepTimedAct_cases P l o with ⟨-, heq⟩ |
    ⟨st, hst, heq | ⟨e', hw, heq⟩ | ⟨e', hw, -, heq⟩⟩
  · rw [heq]
    exact ⟨hprog, hmax, hroom.1, hroom.2, .inl hstate⟩
  · rw [heq]
    exact ⟨hprog, hmax, hheld, hstate⟩
  · rw [heq]
    refine ⟨by rw [hw.prog]; exact hprog, by rw [hw.maxProg]; exact hmax, ?_, hw.state.trans hstate⟩
    rw [hw.sender, hw.prog]
    exact hheld
  · rw [heq]
    refine tidy_fireStep ⟨by rw [hw.prog]; exact hprog, by rw [hw.maxProg]; exact hmax, ?_,
      hw.state.trans hstate⟩ (by rw [hw.prog]; exact hst) ho
    rw [hw.sender, hw.prog]
    exact hheld

/-! ### MAX mode -/

/-- Polling the commands in MAX keeps the order. -/
theorem tidy_stepMax {l : MaxLocals} (h : Thread.Tidy P ⟨e, .max l⟩) :
    (e.stepMax l).1.Tidy P := by
  obtain ⟨hprog, hmax, hrep, hheld⟩ := h
  have hclear : e.poll.1.Clear P :=
    ⟨by simpa using hprog, by simpa using hmax, by simpa using hheld⟩
  have hroom := InputSender.room_of_nothing hclear.held
  simp only [stepMax]
  split
  · exact ⟨hclear.prog, hclear.maxProg, hroom.1, hroom.2, .inr hclear.held⟩
  · exact ⟨hclear.prog, hclear.maxProg, hrep, hclear.held⟩

/-- Taking over a configuration in MAX keeps the order. -/
theorem tidy_stepMaxConfig {l : MaxLocals} (h : Thread.Tidy P ⟨e, .maxConfig l⟩) :
    (e.stepMaxConfig P l).1.Tidy P := by
  obtain ⟨hprog, hmax, hrep, hheld⟩ := h
  unfold stepMaxConfig
  split
  · exact ⟨hprog, hmax, hrep, hheld⟩
  · next c _ =>
    have hnone : ({ e with pendingCfg := none } : Engine).Clear P := ⟨hprog, hmax, hheld⟩
    have hclear := hnone.applyConfig c
    have hroom := InputSender.room_of_nothing hclear.held
    dsimp only
    split
    · exact ⟨hclear.prog, hclear.maxProg, hroom.1, hroom.2, .inr hclear.held⟩
    · exact ⟨hclear.prog, hclear.maxProg, buildBatch_repeats P hclear.maxProg rfl rfl rfl,
        hclear.held⟩

/-- The gate of MAX keeps the order. -/
theorem tidy_stepMaxGate {l : MaxLocals} (h : Thread.Tidy P ⟨e, .maxGate l⟩) (o : Obs) :
    (e.stepMaxGate P l o).1.Tidy P := by
  obtain ⟨hprog, hmax, hrep, hheld⟩ := h
  have hroom := InputSender.room_of_nothing hheld
  unfold stepMaxGate
  split
  · exact ⟨hprog, hmax, hroom.1, hroom.2, .inr hheld⟩
  · dsimp only
    split
    · exact ⟨hprog, hmax, hroom.1, hroom.2, .inr hheld⟩
    · split
      · split
        · exact ⟨hprog, hmax, hrep, hheld⟩
        · next why _ =>
          refine ⟨by simpa using hprog, by simpa using hmax, hrep, ?_⟩
          rw [(enterPause_state P _ why o).2]
          exact InputSender.releaseAll_of_nothing hheld _ _
      · exact ⟨hprog, hmax, hrep, hheld⟩

/-- A pause in MAX keeps the order. -/
theorem tidy_stepMaxPause {l : MaxLocals} {now : ℤ} (h : Thread.Tidy P ⟨e, .maxPause l now⟩)
    (o : Obs) : (e.stepMaxPause P l now o).1.Tidy P := by
  obtain ⟨hprog, hmax, hrep, hheld⟩ := h
  refine tidy_stepPause ⟨hprog, hmax, hheld⟩ o (fun e' hc _ => ?_) (fun e' hc => ?_)
  · exact ⟨hc.prog, hc.maxProg, hrep, hc.held⟩
  · exact ⟨by simpa using hc.prog, by simpa using hc.maxProg, hrep, by simpa using hc.held⟩

/-- A send of MAX: an accepted batch ends with nothing held. -/
theorem tidy_stepMaxSend {l : MaxLocals} {now : ℤ} (h : Thread.Tidy P ⟨e, .maxSend l now⟩)
    {o : Obs} (ho : o.sent.limit = none) : (e.stepMaxSend P l now o).1.Tidy P := by
  obtain ⟨hprog, hmax, hrep, hheld⟩ := h
  unfold stepMaxSend
  split
  · exact ⟨by simpa using hprog, by simpa using hmax, hrep, by simpa using hheld⟩
  · have hsends := e.fireMax_sends P l o
    have hle : e.maxActions l ≤ l.B := by
      unfold maxActions
      split
      · exact le_refl _
      · exact Nat.min_le_left _ _
    refine ⟨by rw [hsends.prog]; exact hprog, by rw [hsends.maxProg]; exact hmax, ?_⟩
    rw [e.fireMax_loc P l o]
    refine ⟨hrep, ?_⟩
    rw [hsends.sender, InputSender.send_held_all _ _ ho, hheld]
    -- The call is a whole number of actions of a balanced program.
    exact hrep.take hle

end Engine

/-! ### Every run -/

/-- **Every step keeps the thread tidy** while `SendInput` accepts what it is given. -/
theorem Thread.Tidy.step {t : Thread} (h : t.Tidy P) {act : Act} (hact : AcceptsAll act) :
    ((engineMachine P).next t act).Tidy P := by
  -- The other threads reach neither the programs nor the sender.
  cases act with
  | push c => exact ⟨h.prog, h.maxProg, h.held⟩
  | storeFlag => exact ⟨h.prog, h.maxProg, h.held⟩
  | setEvent => exact ⟨h.prog, h.maxProg, h.held⟩
  | storeArmed on => exact ⟨h.prog, h.maxProg, h.held⟩
  | thread o =>
    obtain ⟨e, loc⟩ := t
    cases loc with
    | idle =>
      show (Thread.step P ⟨e, .idle⟩ o).1.Tidy P
      simp only [Thread.step]
      split
      · exact ⟨h.prog, h.maxProg, h.held⟩
      · exact h
    | commands cmds b => exact Engine.Clear.stepCommands ⟨h.prog, h.maxProg, h.held⟩ cmds b o
    | timed l => exact Engine.tidy_stepTimed h
    | timedConfig l => exact Engine.tidy_stepTimedConfig h o
    | timedGate l => exact Engine.tidy_stepTimedGate h o
    | timedPause l => exact Engine.tidy_stepTimedPause h o
    | timedLate l now => exact Engine.tidy_stepTimedLate h
    | timedAct l => exact Engine.tidy_stepTimedAct h hact.1
    | max l => exact Engine.tidy_stepMax h
    | maxConfig l => exact Engine.tidy_stepMaxConfig h
    | maxGate l => exact Engine.tidy_stepMaxGate h o
    | maxPause l now => exact Engine.tidy_stepMaxPause h o
    | maxSend l now => exact Engine.tidy_stepMaxSend h hact.1
    | ending => exact Engine.tidy_stepEnding h o
    | done => exact h

/-- The engine starts in order. -/
theorem Thread.start_tidy (waiter : PreciseWaiter) (clock : ℤ) :
    (Thread.start P waiter clock).Tidy P := by
  obtain ⟨hprog, hmax⟩ := Thread.start_compiled P waiter clock
  refine ⟨hprog, hmax, ?_⟩
  show (Thread.start P waiter clock).e.sender.held = nothing
  rw [Thread.start_sender]
  funext c
  cases c <;> rfl

/-- **No stuck keys**: with `SendInput` accepting what it is given, nothing is recorded as held
    whenever the thread is at rest, whatever the other threads did and when. -/
theorem nothing_held_at_rest (waiter : PreciseWaiter) (clock : ℤ) (acts : List Act)
    (hacts : ∀ act ∈ acts, AcceptsAll act)
    (hrest : ((engineMachine P).after (Thread.start P waiter clock) acts).AtRest) :
    ((engineMachine P).after (Thread.start P waiter clock) acts).e.sender.held = nothing := by
  have htidy := (engineMachine P).invariant_of_meets (I := fun t => t.Tidy P)
    (fun t act ht hact => ht.step P hact) (Thread.start_tidy P waiter clock)
    ((engineMachine P).meets_of_forall hacts)
  generalize (engineMachine P).after (Thread.start P waiter clock) acts = t at htidy hrest ⊢
  obtain ⟨e, loc⟩ := t
  obtain ⟨hprog, -, hheld⟩ := htidy
  cases loc with
  | timed l | timedAct l =>
    obtain ⟨hheld, hstate⟩ := hheld
    -- At rest in a timed run means at an action boundary.
    have hzero : l.step = 0 := hrest.resolve_left fun hne => hne hstate
    rw [hheld, hzero]
    rfl
  | ending =>
    obtain ⟨-, -, hend⟩ := hheld
    rcases hrest with hne | hfalse
    · exact hend.resolve_left hne
    · exact hfalse.elim
  | idle | commands cmds b | done => exact hheld
  | timedConfig l | timedGate l | timedLate l now => exact hheld.2.1
  | timedPause l | max l | maxConfig l | maxGate l | maxPause l now | maxSend l now =>
    exact hheld.2

/-- Armed, started, one click sent, stopped. -/
def oneClick : List Act :=
  Act.arm true ++ Act.post (.triggerDown 5) ++ Act.steps 9 ++ Act.post .stopRun ++ Act.steps 2

/-- After one click and a stop the engine is idle with nothing held. -/
theorem oneClick_nothing_held :
    ((engineMachine .tenMegahertz).after (Thread.start .tenMegahertz {} 1000000000)
        oneClick).e.sender.accepted = 2 ∧
      ((engineMachine .tenMegahertz).after (Thread.start .tenMegahertz {} 1000000000)
        oneClick).e.sender.held = nothing := by
  exact ⟨by decide +kernel,
    nothing_held_at_rest _ _ _ _ (by decide +kernel) (.inl (by decide +kernel))⟩

end InfinityClicker
