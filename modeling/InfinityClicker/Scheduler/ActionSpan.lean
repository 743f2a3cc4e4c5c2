import InfinityClicker.Input.ProgramTiming
import InfinityClicker.Scheduler.LateSlots
import InfinityClicker.Scheduler.Engine

namespace InfinityClicker

open RoundedGrid

/-!
# An action fits into its period

On a 10 MHz counter a microsecond is ten ticks and a period at least ten, so what is left of a
period after an action is more than the rounding of two slots takes away.

* `Timeline.slot_add_lt` — a span a tick short of the period ends before the next slot;
* `Timeline.deadlines` — when the steps of the actions on one grid are due;
* `scaleTimes_span` — scaled times make a span scaled no less;
* `rebuildProgram_finishes` — an action finishes before the next one starts.
-/

namespace Timeline

/-- When the steps of the first `n` actions of a grid are due, in the order they are waited for:
    `next() + offsetTicks` each. -/
def deadlines (tl : Timeline) (prog : ActionProgram) (n : ℕ) : List ℤ :=
  (List.range n).flatMap fun k => prog.steps.map fun st => tl.slot k + st.offsetTicks

/-- A span at least a tick short of the period ends before the next slot, however the two slots
    are rounded. -/
theorem slot_add_lt (tl : Timeline) {span : ℤ} (h : (span : ℚ) ≤ tl.period - 1) (k : ℕ) :
    tl.slot k + span < tl.slot (k + 1) := by
  have hgap := sub_one_lt_gap tl.period k
  have hspan : span < point tl.period (k + 1) - point tl.period k := by
    exact_mod_cast lt_of_le_of_lt h hgap
  rw [slot_eq_point, slot_eq_point]
  omega

/-- Steps that are due in order within their action, and before the next action's slot, are due
    in order on the whole grid. -/
theorem deadlines_increasing {tl : Timeline} (hp : 1 ≤ tl.period) {prog : ActionProgram}
    (hsteps : (prog.steps.map ActionStep.offsetTicks).Pairwise (· < ·))
    (hfirst : ∀ st ∈ prog.steps, 0 ≤ st.offsetTicks)
    (hfits : ∀ k, ∀ st ∈ prog.steps, tl.slot k + st.offsetTicks < tl.slot (k + 1)) (n : ℕ) :
    (tl.deadlines prog n).Pairwise (· < ·) := by
  rw [deadlines, List.pairwise_flatMap]
  constructor
  · intro k _
    rw [List.pairwise_map] at hsteps ⊢
    refine hsteps.imp ?_
    intro st st' hlt
    omega
  · refine List.pairwise_lt_range.imp ?_
    intro k k' hk d hd d' hd'
    obtain ⟨st, hst, rfl⟩ := List.mem_map.mp hd
    obtain ⟨st', hst', rfl⟩ := List.mem_map.mp hd'
    have hbefore := hfits k st hst
    have hstart := hfirst st' hst'
    have hslots : tl.slot (k + 1) ≤ tl.slot k' := by
      rcases Nat.eq_or_lt_of_le (Nat.succ_le_of_lt hk) with heq | hlt
      · exact le_of_eq (congrArg tl.slot heq)
      · exact le_of_lt (slot_lt_slot hp hlt)
    omega

end Timeline

/-! ### Ten ticks to a microsecond -/

section TenMegahertz

variable {P : Platform} (hP : P.freq = 10000000)
include hP

theorem usToTicks_nat (us : ℕ) : Clk.usToTicks P us = 10 * us := by
  have hnonneg : (0 : ℚ) ≤ (us : ℚ) * P.freq / 1000000 + 1 / 2 := by positivity
  rw [Clk.usToTicks, toInt64, if_pos hnonneg, Int.floor_eq_iff, hP]
  push_cast
  constructor <;> linarith

/-- At a million actions a second a period has ten ticks. -/
theorem ten_le_periodOf (c : EngineConfig) : 10 ≤ Engine.periodOf P c := by
  obtain ⟨hlow, hhigh⟩ := c.cps.property
  have hpos : (0 : ℚ) < c.cps.val := by linarith
  rw [Engine.periodOf, le_div_iff₀ hpos, hP]
  push_cast
  linarith

end TenMegahertz

/-! ### Scaling -/

/-- A time scaled and cut to whole microseconds is no longer than the scaled time. -/
theorem scaled_le (us : ℕ) {f : ℚ} (hf : 0 ≤ f) : ((toInt64 (us * f)).toNat : ℚ) ≤ us * f := by
  have hnonneg : 0 ≤ (us : ℚ) * f := by positivity
  have hint := toInt64_nonneg hnonneg
  have hcast : ((toInt64 (us * f)).toNat : ℚ) = (toInt64 (us * f) : ℚ) := by
    exact_mod_cast Int.toNat_of_nonneg hint
  rw [hcast]
  exact toInt64_le hnonneg

namespace InputAction

/-- The span of an action in microseconds, ten ticks each. -/
theorem span_eq {P : Platform} (hP : P.freq = 10000000) (a : InputAction) :
    a.span P = 10 * ((if a.chord.isWheel then 0 else (a.times : ℤ) * a.downTimeUs) +
      (a.times - 1 : ℕ) * a.repeatGapUs) := by
  rw [span, usToTicks_nat hP, usToTicks_nat hP]
  split <;> ring

/-- **Scaled times make a span that is scaled no less.** -/
theorem scaleTimes_span {P : Platform} (hP : P.freq = 10000000) (a : InputAction) {f : ℚ}
    (hf : 0 ≤ f) : ((Engine.scaleTimes a f).span P : ℚ) ≤ f * a.span P := by
  have hhold := scaled_le a.downTimeUs hf
  have hgap := scaled_le a.repeatGapUs hf
  have htimes : (0 : ℚ) ≤ a.times := by positivity
  have hgaps : (0 : ℚ) ≤ (a.times - 1 : ℕ) := by positivity
  have hholds := mul_le_mul_of_nonneg_left hhold htimes
  have hbetween := mul_le_mul_of_nonneg_left hgap hgaps
  rw [span_eq hP, span_eq hP]
  show ((10 * ((if a.chord.isWheel then 0
      else (a.times : ℤ) * (toInt64 (a.downTimeUs * f)).toNat) +
      (a.times - 1 : ℕ) * (toInt64 (a.repeatGapUs * f)).toNat) : ℤ) : ℚ) ≤ _
  cases a.chord.isWheel with
  | true =>
    simp only [if_true]
    push_cast
    linarith
  | false =>
    simp only [Bool.false_eq_true, if_false]
    push_cast
    linarith

end InputAction

/-! ### The rebuilt program -/

namespace Engine

variable {P : Platform} (e : Engine)

theorem compileAction_span_nonneg (a : InputAction) : 0 ≤ (compileAction P a).spanTicks := by
  by_cases hv : a.chord.valid = true
  · rw [compileAction_spanTicks P a _ hv]
    exact (InputAction.presses_runs P a kTagInfClick).2
  · rw [compileAction_invalid P a _ (Bool.not_eq_true _ ▸ hv)]

/-- When `rebuildProgram` scales an action. -/
def Clamps (P : Platform) (c : EngineConfig) : Prop :=
  (compileAction P c.action).ok = true ∧ 0 < (compileAction P c.action).spanTicks ∧
    periodOf P c * (9 / 10) ≤ (compileAction P c.action).spanTicks

/-- In a timed configuration the program is the action's, scaled where it is too long. -/
theorem rebuildProgram_cases (htimed : e.cfg.maxMode = false) :
    (Clamps P e.cfg ∧ (e.rebuildProgram P).downTimeClamped = true ∧
      (e.rebuildProgram P).prog = compileAction P (scaleTimes e.cfg.action
        (periodOf P e.cfg * (1 / 2) / (compileAction P e.cfg.action).spanTicks))) ∨
    (¬ Clamps P e.cfg ∧ (e.rebuildProgram P).downTimeClamped = false ∧
      (e.rebuildProgram P).prog = compileAction P e.cfg.action) := by
  have hcps : (0 : ℚ) < e.cfg.cps.val := by
    have hlow := e.cfg.cps.property.1
    linarith
  by_cases hclamps : Clamps P e.cfg
  · obtain ⟨hok, hspan, hlong⟩ := hclamps
    exact .inl ⟨⟨hok, hspan, hlong⟩, by simp [rebuildProgram, htimed, hok, hcps, hspan, hlong],
      by simp [rebuildProgram, htimed, hok, hcps, hspan, hlong]⟩
  · have hnot : (!e.cfg.maxMode && (compileAction P e.cfg.action).ok &&
        decide (0 < e.cfg.cps.val) && decide (0 < (compileAction P e.cfg.action).spanTicks) &&
        decide (periodOf P e.cfg * (9 / 10) ≤ (compileAction P e.cfg.action).spanTicks)) =
        false := by
      rw [← Bool.not_eq_true]
      intro hall
      simp only [Bool.and_eq_true, decide_eq_true_eq] at hall
      exact hclamps ⟨hall.1.1.1.2, hall.1.2, hall.2⟩
    refine .inr ⟨hclamps, ?_, ?_⟩
    · simpa only [rebuildProgram] using hnot
    · simp only [rebuildProgram, hnot, Bool.false_eq_true, if_false]

/-- A scaled action takes half its period at most. -/
theorem scaled_span_le (hP : P.freq = 10000000) (hclamps : Clamps P e.cfg) :
    ((compileAction P (scaleTimes e.cfg.action
      (periodOf P e.cfg * (1 / 2) / (compileAction P e.cfg.action).spanTicks))).spanTicks : ℚ) ≤
      periodOf P e.cfg / 2 := by
  obtain ⟨hok, hspan, -⟩ := hclamps
  have hv : e.cfg.action.chord.valid = true := by rw [← compileAction_ok P e.cfg.action, hok]
  have hunscaled := compileAction_spanTicks P e.cfg.action kTagInfClick hv
  have hperiod := ten_le_periodOf hP e.cfg
  have hpos : (0 : ℚ) < (compileAction P e.cfg.action).spanTicks := by exact_mod_cast hspan
  have hf : 0 ≤ periodOf P e.cfg * (1 / 2) / (compileAction P e.cfg.action).spanTicks := by
    apply div_nonneg
    · linarith
    · exact hpos.le
  have hscaled := InputAction.scaleTimes_span hP e.cfg.action hf
  rw [← hunscaled, div_mul_cancel₀ _ hpos.ne'] at hscaled
  have hspan' := compileAction_spanTicks P (scaleTimes e.cfg.action
    (periodOf P e.cfg * (1 / 2) / (compileAction P e.cfg.action).spanTicks)) kTagInfClick hv
  rw [hspan']
  linarith

/-- An action is at least a tick shorter than its period. -/
theorem rebuildProgram_span_le (hP : P.freq = 10000000) (htimed : e.cfg.maxMode = false) :
    ((e.rebuildProgram P).prog.spanTicks : ℚ) ≤ periodOf P e.cfg - 1 := by
  have hperiod := ten_le_periodOf hP e.cfg
  rcases e.rebuildProgram_cases (P := P) htimed with ⟨hclamps, -, hprog⟩ | ⟨hclamps, -, hprog⟩
  · have hhalf := e.scaled_span_le hP hclamps
    rw [hprog]
    linarith
  · rw [hprog]
    rcases eq_or_lt_of_le (compileAction_span_nonneg (P := P) e.cfg.action) with hzero | hspan
    · rw [← hzero]
      push_cast
      linarith
    · -- Nine tenths of ten ticks or more leave a tick.
      have hok : (compileAction P e.cfg.action).ok = true := by
        rw [compileAction_ok]
        by_contra hv
        rw [compileAction_invalid P _ _ (Bool.not_eq_true _ ▸ hv)] at hspan
        exact absurd hspan (lt_irrefl 0)
      have hshort : ¬ periodOf P e.cfg * (9 / 10) ≤ (compileAction P e.cfg.action).spanTicks :=
        fun hlong => hclamps ⟨hok, hspan, hlong⟩
      linarith

/-- **An action finishes before the next one starts**: at every rate its span is below the
    period and ends before the next slot of every grid, a scaled action takes half its period at
    most, and so the steps of a run are due in order. -/
theorem rebuildProgram_finishes (hP : P.freq = 10000000) (htimed : e.cfg.maxMode = false) :
    ((e.rebuildProgram P).prog.spanTicks : ℚ) < periodOf P e.cfg ∧
      (∀ t0 k, (Timeline.anchor t0 (periodOf P e.cfg)).slot k +
          (e.rebuildProgram P).prog.spanTicks <
        (Timeline.anchor t0 (periodOf P e.cfg)).slot (k + 1)) ∧
      ((e.rebuildProgram P).downTimeClamped = true →
        ((e.rebuildProgram P).prog.spanTicks : ℚ) ≤ periodOf P e.cfg / 2) ∧
      ∀ t0 n, ((Timeline.anchor t0 (periodOf P e.cfg)).deadlines
        (e.rebuildProgram P).prog n).Pairwise (· < ·) := by
  -- The span is at most a tick short of the period, which is ten ticks at least.
  have hspan := e.rebuildProgram_span_le hP htimed
  have hperiod := ten_le_periodOf hP e.cfg
  have hslots : ∀ t0 k, (Timeline.anchor t0 (periodOf P e.cfg)).slot k +
      (e.rebuildProgram P).prog.spanTicks <
        (Timeline.anchor t0 (periodOf P e.cfg)).slot (k + 1) := by
    intro t0 k
    apply Timeline.slot_add_lt
    show ((e.rebuildProgram P).prog.spanTicks : ℚ) ≤ periodOf P e.cfg - 1
    exact hspan
  refine ⟨by linarith, hslots, ?_, ?_⟩
  -- A scaled action was cut to half the period; one that was not scaled is not marked.
  · intro hclamped
    rcases e.rebuildProgram_cases (P := P) htimed with ⟨hclamps, -, hprog⟩ | ⟨-, hnot, -⟩
    · rw [hprog]
      exact e.scaled_span_le hP hclamps
    · rw [hnot] at hclamped
      exact absurd hclamped Bool.false_ne_true
  -- Within an action the offsets increase, and the last one is before the next slot.
  · intro t0 n
    obtain ⟨a, ha⟩ := (e.rebuildProgram_compiled P).1
    obtain ⟨hinc, hlast⟩ := compileAction_increasing P a kTagInfClick
    have hfirst := compileAction_offset_nonneg P a kTagInfClick
    refine Timeline.deadlines_increasing ?_ ?_ ?_ ?_ n
    · show 1 ≤ periodOf P e.cfg
      linarith
    · rw [ha]
      exact hinc
    · rw [ha]
      exact hfirst
    · intro k st hst
      have hend := hslots t0 k
      rw [ha] at hst hend
      have hoffset := hlast st hst
      omega

/-- A left click held 100 ms, a million times a second: it is cut down to nothing. -/
def fastClicks : EngineConfig :=
  { action := { downTimeUs := 100000 }, cps := ⟨1000000, by norm_num⟩ }

/-- At the highest rate a held click still ends within its ten ticks. -/
theorem fastClicks_finishes :
    ((({ cfg := fastClicks } : Engine).rebuildProgram .tenMegahertz).prog.spanTicks : ℚ) <
      periodOf .tenMegahertz fastClicks ∧
    ((({ cfg := fastClicks } : Engine).rebuildProgram .tenMegahertz).prog.spanTicks : ℚ) ≤
      periodOf .tenMegahertz fastClicks / 2 := by
  obtain ⟨hspan, -, hhalf, -⟩ :=
    rebuildProgram_finishes (P := .tenMegahertz) { cfg := fastClicks } rfl rfl
  exact ⟨hspan, hhalf (by decide +kernel)⟩

end Engine

end InfinityClicker
