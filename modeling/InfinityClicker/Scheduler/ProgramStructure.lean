import InfinityClicker.Input.ProgramTiming
import InfinityClicker.Scheduler.EngineSteps

namespace InfinityClicker

open Machines

/-!
# What a program injects, whatever its times

The hold time and the gap of an action say when its events are due.  Which events they are, and
in which order, they do not say.

* `ActionProgram.Laid` — how the steps of a program are laid out;
* `InputAction.untimed` — an action without its times: two actions that differ only in them have
  the same;
* `compileAction_structure` — the layout, and one event sequence for the program as it was
  compiled, the clamped program and the MAX program.
-/

/-- The layout of a compiled program. -/
structure ActionProgram.Laid (p : ActionProgram) : Prop where
  increasing : (p.steps.map ActionStep.offsetTicks).Pairwise (· < ·)
  starts : (p.steps.map ActionStep.offsetTicks).head? = some 0
  ends : (p.steps.map ActionStep.offsetTicks).getLast? = some p.spanTicks
  counts : ∀ st ∈ p.steps, 1 ≤ st.count ∧ st.count ≤ 14
  flat : p.flat = p.steps.flatMap ActionStep.inputs
  total : p.inputsPerAction = p.flat.length

/-- The action without its times, which is what a MAX run compiles. -/
def InputAction.untimed (a : InputAction) : InputAction :=
  { a with downTimeUs := 0, repeatGapUs := 0 }

section Compile

variable (P : Platform) (a : InputAction) (tag : BitVec 64)

theorem compileAction_laid (hv : a.chord.valid = true) : (compileAction P a tag).Laid where
  increasing := (compileAction_increasing P a tag).1
  starts := compileAction_first P a tag hv
  ends := by
    rw [compileAction_spanTicks P a tag hv]
    exact (compileAction_grouped P a tag hv).last
  counts := compileAction_count P a tag
  flat := compileAction_flat_steps P a tag
  total := compileAction_inputsPerAction P a tag

/-- The flat list is that of the action without its times. -/
theorem compileAction_flat_untimed :
    (compileAction P a.untimed tag).flat = (compileAction P a tag).flat := by
  cases hv : a.chord.valid with
  | false =>
    have hv' : a.untimed.chord.valid = false := hv
    rw [compileAction_invalid P a tag hv, compileAction_invalid P a.untimed tag hv']
  | true =>
    have hv' : a.untimed.chord.valid = true := hv
    rw [compileAction_flat P a tag hv, compileAction_flat P a.untimed tag hv',
      actionEvents_inputs, actionEvents_inputs]
    rfl

/-- Actions that differ in their times alone have the same flat list. -/
theorem compileAction_flat_eq {a b : InputAction} (h : a.untimed = b.untimed) :
    (compileAction P a tag).flat = (compileAction P b tag).flat := by
  have hleft := compileAction_flat_untimed P a tag
  have hright := compileAction_flat_untimed P b tag
  rw [← hleft, h, hright]

/-- Without times an action takes no time. -/
theorem untimed_span : a.untimed.span P = 0 := by
  have hzero : Clk.usToTicks P 0 = 0 := by
    rw [Clk.usToTicks, toInt64]
    norm_num
  have hhold : Clk.usToTicks P a.untimed.downTimeUs = 0 := by
    show Clk.usToTicks P ((0 : ℕ) : ℚ) = 0
    rw [Nat.cast_zero, hzero]
  have hgap : Clk.usToTicks P a.untimed.repeatGapUs = 0 := by
    show Clk.usToTicks P ((0 : ℕ) : ℚ) = 0
    rw [Nat.cast_zero, hzero]
  rw [InputAction.span, hhold, hgap]
  split <;> simp

/-- Increasing numbers from zero to zero are only one. -/
theorem eq_singleton_of_head_last {l : List ℤ} (hinc : l.Pairwise (· < ·))
    (hhead : l.head? = some 0) (hlast : l.getLast? = some 0) : l = [0] := by
  cases l with
  | nil => simp at hhead
  | cons x xs =>
    have hx : x = 0 := by simpa using hhead
    cases hxs : xs.getLast? with
    | none =>
      rw [List.getLast?_eq_none_iff] at hxs
      rw [hx, hxs]
    | some y =>
      have hy : y = 0 := by simpa [List.getLast?_cons, hxs] using hlast
      have hlt := (List.pairwise_cons.mp hinc).1 y (List.mem_of_getLast? hxs)
      omega

/-- **The MAX program is a single step.** -/
theorem compileAction_untimed_single (hv : a.chord.valid = true) :
    (compileAction P a.untimed tag).steps.length = 1 := by
  have hlaid := compileAction_laid P a.untimed tag hv
  have hspan := compileAction_spanTicks P a.untimed tag hv
  have hends := hlaid.ends
  rw [hspan, untimed_span] at hends
  have hoffsets := eq_singleton_of_head_last hlaid.increasing hlaid.starts hends
  have hlength := congrArg List.length hoffsets
  rwa [List.length_map] at hlength

end Compile

namespace Engine

variable {P : Platform} (e : Engine)

/-- `rebuildProgram` compiles the action, with times of its own where they are too long, and
    the action without its times. -/
theorem rebuildProgram_untimed :
    (∃ b : InputAction, b.untimed = e.cfg.action.untimed ∧
      (e.rebuildProgram P).prog = compileAction P b) ∧
      (e.rebuildProgram P).maxProg = compileAction P e.cfg.action.untimed := by
  refine ⟨?_, rfl⟩
  simp only [rebuildProgram]
  split
  · exact ⟨scaleTimes e.cfg.action _, rfl, rfl⟩
  · exact ⟨e.cfg.action, rfl, rfl⟩

/-- At most eight actions go out in one call. -/
theorem batchSize_le_cap (l : TimedLocals) (fire : ℤ) : e.batchSize l fire ≤ kMaxCatchUpBatch := by
  rw [batchSize]
  split
  · have hgrow := growBatch_le l.tl fire e.run.endQpc
      (Min.min kMaxCatchUpBatch e.run.remaining.toNat) kMaxCatchUpBatch 1
    simp only [kMaxCatchUpBatch] at hgrow ⊢
    omega
  · decide

/-- The copies of a step fit the buffer of a catch-up batch. -/
theorem batch_room (hprog : Compiled P e.prog) (l : TimedLocals) (fire : ℤ) :
    ∀ st ∈ e.prog.steps,
      e.batchSize l fire * st.count ≤ kMaxCatchUpBatch * kMaxStepInputs := by
  intro st hst
  obtain ⟨a, ha⟩ := hprog
  rw [ha] at hst
  have hcount : st.count ≤ kMaxStepInputs :=
    le_trans (compileAction_count P a kTagInfClick st hst).2 (by decide)
  exact Nat.mul_le_mul (e.batchSize_le_cap l fire) hcount

end Engine

/-- The program of the engine's thread is a compiled one, in every run. -/
theorem compiled_always (P : Platform) (waiter : PreciseWaiter) (clock : ℤ) (acts : List Act) :
    Compiled P ((engineMachine P).after (Thread.start P waiter clock) acts).e.prog := by
  refine (engineMachine P).invariant (I := fun t => Compiled P t.e.prog) ?_
    (Thread.start_compiled P waiter clock).1 acts
  intro t act ht
  cases act with
  | thread o => exact t.step_compiled P ht o
  | push c => exact ht
  | storeFlag => exact ht
  | setEvent => exact ht
  | storeArmed on => exact ht

/-- **Structure of a program and independence of the times.**

    * A valid action compiles to steps at strictly increasing offsets from 0 to `spanTicks`,
      with 1 to 14 inputs each; `flat` is the steps one after the other and `inputsPerAction`
      its length.
    * In every run the copies of a step that go out in one call fit `runTimed`'s buffer.
    * Actions that differ in their times alone have the same `flat`, and so have the program of
      an engine, scaled or not, and its MAX program, which is a single step. -/
theorem compileAction_structure (P : Platform) (a : InputAction) (tag : BitVec 64)
    (hv : a.chord.valid = true) :
    (compileAction P a tag).Laid ∧
      (∀ waiter clock acts,
        let e := ((engineMachine P).after (Thread.start P waiter clock) acts).e
        ∀ l fire, ∀ st ∈ e.prog.steps,
          e.batchSize l fire * st.count ≤ kMaxCatchUpBatch * kMaxStepInputs) ∧
      (∀ b : InputAction, b.untimed = a.untimed →
        (compileAction P b tag).flat = (compileAction P a tag).flat) ∧
      ∀ e : Engine, e.cfg.action = a →
        (e.rebuildProgram P).prog.Laid ∧
        (e.rebuildProgram P).prog.flat = (compileAction P a).flat ∧
        (e.rebuildProgram P).maxProg.flat = (compileAction P a).flat ∧
        (e.rebuildProgram P).maxProg.steps.length = 1 := by
  refine ⟨compileAction_laid P a tag hv, ?_, ?_, ?_⟩
  · intro waiter clock acts e l fire
    exact e.batch_room (compiled_always P waiter clock acts) l fire
  · intro b hb
    exact compileAction_flat_eq P tag hb
  · intro e he
    obtain ⟨⟨b, hb, hprog⟩, hmax⟩ := e.rebuildProgram_untimed (P := P)
    rw [he] at hb hmax
    have hchord : b.chord = a.chord := by
      show b.untimed.chord = a.untimed.chord
      rw [hb]
    have hvb : b.chord.valid = true := by rw [hchord, hv]
    rw [hprog, hmax]
    exact ⟨compileAction_laid P b kTagInfClick hvb, compileAction_flat_eq P kTagInfClick hb,
      compileAction_flat_untimed P a kTagInfClick,
      compileAction_untimed_single P a kTagInfClick hv⟩

/-- Three held clicks with Shift: six steps, and one event sequence whatever the times. -/
theorem tripleClick_structure :
    let a : InputAction :=
      { chord := { KeyChord.mouse .left with mods := ModShift }, downTimeUs := 20000,
        repeatCount := 3, repeatGapUs := 5000 }
    (compileAction .tenMegahertz a).Laid ∧
      (compileAction .tenMegahertz a.untimed).flat = (compileAction .tenMegahertz a).flat := by
  intro a
  obtain ⟨hlaid, -, hflat, -⟩ :=
    compileAction_structure .tenMegahertz a kTagInfClick (by decide +kernel)
  exact ⟨hlaid, hflat a.untimed rfl⟩

end InfinityClicker
