import InfinityClicker.Scheduler.ActionSpan
import InfinityClicker.Profiles.LoadSave

namespace InfinityClicker

/-!
# The clamp warning of the settings page

`drawEngineTab` warns that the down time will be clamped.  It compares the down time with nine
tenths of the interval; `rebuildProgram` compares the span of the whole action.

* `drawEngineTabClamp` — the page's condition;
* `Engine.downTimeClamped_iff` — the engine's, in microseconds;
* `Profile.ClampsAlike` — when the two say the same;
* `clampWarning_agrees` — that they do then, and only then;
* `clampWarning_disagrees` — a double click where they do not.
-/

/-- The local `clamp` of `drawEngineTab`: whether the page says that the down time will be
    clamped. -/
def drawEngineTabClamp (p : Profile) : Bool :=
  !p.maxMode && decide (0 < p.action.downTimeUs) &&
    decide ((9 / 10 : ℚ) * 1000000 / p.cps ≤ p.action.downTimeUs)

/-! ### Spans in microseconds -/

namespace InputAction

/-- All gaps of an action, in microseconds. -/
def gapsUs (a : InputAction) : ℕ := (a.times - 1) * a.repeatGapUs

/-- The span of an action with holds, in microseconds. -/
def heldUs (a : InputAction) : ℕ := a.times * a.downTimeUs + a.gapsUs

/-- The span of an action, in microseconds: notches are not held. -/
def spanUs (a : InputAction) : ℕ := if a.chord.isWheel then a.gapsUs else a.heldUs

theorem span_spanUs {P : Platform} (hP : P.freq = 10000000) (a : InputAction) :
    a.span P = 10 * (a.spanUs : ℤ) := by
  rw [span_eq hP, spanUs, heldUs, gapsUs]
  cases a.chord.isWheel with
  | true =>
    simp only [if_true]
    push_cast
    ring
  | false =>
    simp only [Bool.false_eq_true, if_false]
    push_cast
    ring

theorem downTimeUs_le_heldUs (a : InputAction) : a.downTimeUs ≤ a.heldUs := by
  have htimes := a.times_bounds
  have hone : 1 * a.downTimeUs ≤ a.times * a.downTimeUs := Nat.mul_le_mul_right _ htimes.1
  rw [heldUs]
  omega

/-- Three presses of ten seconds each, and ten seconds between them. -/
theorem heldUs_le (a : InputAction) (hdown : a.downTimeUs ≤ 10000000)
    (hgap : a.repeatGapUs ≤ 10000000) : a.heldUs ≤ 50000000 := by
  have htimes := a.times_bounds
  have hholds : a.times * a.downTimeUs ≤ 3 * 10000000 := Nat.mul_le_mul htimes.2 hdown
  have hgaps : (a.times - 1) * a.repeatGapUs ≤ 2 * 10000000 :=
    Nat.mul_le_mul (by omega) hgap
  rw [heldUs, gapsUs]
  omega

end InputAction

/-! ### The engine's condition -/

namespace Engine

variable {P : Platform}

/-- Nine tenths of an action's interval, in microseconds. -/
def limitUs (cps : ℚ) : ℚ := (9 / 10 : ℚ) * 1000000 / cps

theorem limitUs_pos {cps : ℚ} (h : 0 < cps) : 0 < limitUs cps := by
  rw [limitUs]
  positivity

/-- On a 10 MHz counter an action is scaled when it has a key or button and its span in
    microseconds reaches nine tenths of the interval. -/
theorem clamps_iff (hP : P.freq = 10000000) (c : EngineConfig) :
    Clamps P c ↔ c.action.chord.valid = true ∧ limitUs c.cps.val ≤ c.action.spanUs := by
  have hcps : (0 : ℚ) < c.cps.val := by
    have hlow := c.cps.property.1
    linarith
  have hlimit : periodOf P c * (9 / 10) = 10 * limitUs c.cps.val := by
    rw [periodOf, limitUs, hP]
    push_cast
    ring
  rw [Clamps, compileAction_ok]
  constructor
  · rintro ⟨hv, -, hlong⟩
    rw [compileAction_spanTicks P c.action kTagInfClick hv, InputAction.span_spanUs hP,
      hlimit] at hlong
    push_cast at hlong
    exact ⟨hv, by linarith⟩
  · rintro ⟨hv, hlong⟩
    rw [compileAction_spanTicks P c.action kTagInfClick hv, InputAction.span_spanUs hP, hlimit]
    -- The limit is positive, so a span that reaches it is.
    have hspan : (0 : ℚ) < c.action.spanUs := lt_of_lt_of_le (limitUs_pos hcps) hlong
    have hspan' : 0 < c.action.spanUs := by exact_mod_cast hspan
    refine ⟨hv, by omega, ?_⟩
    push_cast
    linarith

/-- When `rebuildProgram` sets `downTimeClamped_`. -/
theorem downTimeClamped_iff (hP : P.freq = 10000000) (e : Engine) :
    (e.rebuildProgram P).downTimeClamped = true ↔
      e.cfg.maxMode = false ∧ e.cfg.action.chord.valid = true ∧
        limitUs e.cfg.cps.val ≤ e.cfg.action.spanUs := by
  rw [← clamps_iff hP]
  cases hmax : e.cfg.maxMode with
  | true => simp [rebuildProgram, hmax]
  | false =>
    rcases e.rebuildProgram_cases (P := P) hmax with ⟨hclamps, hset, -⟩ | ⟨hclamps, hset, -⟩
    · simp [hset, hclamps]
    · simp [hset, hclamps]

end Engine

/-! ### Where the two agree -/

namespace Profile

open Engine

/-- When the page and the engine say the same.  In MAX mode nothing is clamped.  Otherwise,
    * with no key or button assigned: when the down time is below the limit;
    * on a wheel, which does not hold: when the gaps reach the limit together with the down
      time, or neither does;
    * on a key or button: when the down time alone reaches the limit, or the whole action does
      not. -/
def ClampsAlike (p : Profile) : Prop :=
  p.maxMode = true ∨
    if p.action.chord.valid = false then (p.action.downTimeUs : ℚ) < limitUs p.cps
    else if p.action.chord.isWheel = true then
      limitUs p.cps ≤ p.action.downTimeUs ↔ limitUs p.cps ≤ p.action.gapsUs
    else
      limitUs p.cps ≤ p.action.downTimeUs ∨ (p.action.heldUs : ℚ) < limitUs p.cps

variable {p : Profile}

/-- What the page compares, the positive limit left out. -/
theorem drawEngineTabClamp_iff (hcps : 0 < p.cps) :
    drawEngineTabClamp p = true ↔
      p.maxMode = false ∧ limitUs p.cps ≤ p.action.downTimeUs := by
  have hlimit := limitUs_pos hcps
  simp only [drawEngineTabClamp, Bool.and_eq_true, Bool.not_eq_true', decide_eq_true_eq]
  constructor
  · rintro ⟨⟨hmax, -⟩, hlong⟩
    exact ⟨hmax, hlong⟩
  · rintro ⟨hmax, hlong⟩
    have hdown : (0 : ℚ) < p.action.downTimeUs := lt_of_lt_of_le hlimit hlong
    have hdown' : 0 < p.action.downTimeUs := by exact_mod_cast hdown
    exact ⟨⟨hmax, hdown'⟩, hlong⟩

/-- The two conditions at one rate. -/
theorem clampsAlike_iff (p : Profile) :
    ((p.maxMode = false ∧ limitUs p.cps ≤ p.action.downTimeUs) ↔
      p.maxMode = false ∧ p.action.chord.valid = true ∧ limitUs p.cps ≤ p.action.spanUs) ↔
      p.ClampsAlike := by
  rw [ClampsAlike]
  cases p.maxMode with
  | true => simp
  | false =>
    cases hv : p.action.chord.valid with
    | false => simp
    | true =>
      cases hw : p.action.chord.isWheel with
      | true => simp [InputAction.spanUs, hw]
      | false =>
        -- An action that holds its key takes no less than one hold.
        have hone : (p.action.downTimeUs : ℚ) ≤ p.action.heldUs := by
          exact_mod_cast p.action.downTimeUs_le_heldUs
        simp only [InputAction.spanUs, hw, true_and, Bool.true_eq_false, Bool.false_eq_true,
          if_false, false_or]
        constructor
        · intro hiff
          by_cases hlong : limitUs p.cps ≤ p.action.heldUs
          · exact .inl (hiff.mpr hlong)
          · exact .inr (not_le.mp hlong)
        · rintro (hlong | hshort)
          · exact iff_of_true hlong (le_trans hlong hone)
          · exact iff_of_false (by linarith) (not_le.mpr hshort)

/-- Below the least double from 0.01 on, no action reaches the limit. -/
theorem short_of_slow {cps : ℚ} (hlow : 0 < cps) (hslow : cps ≤ minCps) {us : ℕ}
    (hus : us ≤ 50000000) : (us : ℚ) < limitUs cps := by
  have hcps : cps ≤ 11 / 1000 := le_trans hslow (by rw [minCps_eq]; norm_num)
  have hus' : (us : ℚ) ≤ 50000000 := by exact_mod_cast hus
  rw [limitUs, lt_div_iff₀ hlow]
  nlinarith

end Profile

/-- **The clamp warning and the engine.**  On a 10 MHz counter, at any rate and for any action
    of the admitted ranges, the page warns exactly when the engine scales the action, if and
    only if the profile is one of `ClampsAlike`. -/
theorem clampWarning_agrees {P : Platform} (hP : P.freq = 10000000) (e : Engine) (p : Profile)
    (hcps : 1 / 100 ≤ p.cps ∧ p.cps ≤ 1000000) (hdown : p.action.downTimeUs ≤ 10000000)
    (hgap : p.action.repeatGapUs ≤ 10000000) :
    (drawEngineTabClamp p = true ↔
      (e.applyConfig P (makeEngineConfig p)).downTimeClamped = true) ↔ p.ClampsAlike := by
  have hpos : 0 < p.cps := by linarith [hcps.1]
  have hengine := Engine.downTimeClamped_iff hP { e with cfg := makeEngineConfig p }
  rw [Profile.drawEngineTabClamp_iff hpos, Engine.applyConfig, hengine, ← Profile.clampsAlike_iff]
  show (_ ↔ p.maxMode = false ∧ p.action.chord.valid = true ∧
    Engine.limitUs (clamp p.cps minCps 1000000) ≤ p.action.spanUs) ↔ _
  rcases le_total minCps p.cps with hfast | hslow
  -- The engine runs the rate of the page, so both compare with the same limit.
  · rw [clamp_eq hfast hcps.2]
  · -- Between 0.01 and the least double from there on neither side reaches its limit.
    have hheld := p.action.heldUs_le hdown hgap
    have hone := p.action.downTimeUs_le_heldUs
    have hspan : p.action.spanUs ≤ 50000000 := by
      rw [InputAction.spanUs]
      split
      · rw [InputAction.heldUs] at hheld
        omega
      · exact hheld
    have hmin : 0 < minCps := by linarith [minCps_bounds.1]
    have hfastest : minCps < 1000000 := by
      rw [minCps_eq]
      norm_num
    have hpage : (p.action.downTimeUs : ℚ) < Engine.limitUs p.cps :=
      Profile.short_of_slow hpos hslow (by omega)
    have hclamped := Profile.short_of_slow hmin (le_refl minCps) hspan
    have hunclamped := Profile.short_of_slow hpos hslow hspan
    have hrate : clamp p.cps minCps 1000000 = minCps :=
      le_antisymm ((clamp_le_lo_iff hfastest).mpr hslow) (clamp_mem p.cps minCps_bounds.2).1
    rw [hrate]
    simp only [not_le.mpr hpage, not_le.mpr hclamped, not_le.mpr hunclamped, and_false]

/-- Left clicks held 20 ms each, a hundred of them a second. -/
def heldClicks : Profile :=
  { trigger := KeyChord.mouse .left, action := { downTimeUs := 20000 }, cps := 100 }

/-- A click held longer than the interval: the page warns, and the engine scales it. -/
theorem heldClicks_warned :
    drawEngineTabClamp heldClicks = true ↔
      (({} : Engine).applyConfig .tenMegahertz (makeEngineConfig heldClicks)).downTimeClamped =
        true := by
  refine (clampWarning_agrees rfl {} heldClicks ?_ (by decide) (by decide)).mpr ?_
  · show (1 / 100 : ℚ) ≤ 100 ∧ (100 : ℚ) ≤ 1000000
    norm_num
  · refine .inr (.inl ?_)
    show (9 / 10 : ℚ) * 1000000 / 100 ≤ ((20000 : ℕ) : ℚ)
    norm_num

/-- A double click, each half of it held half a millisecond, a thousand times a second. -/
def doubleClicks : Profile :=
  { trigger := KeyChord.mouse .left, action := { downTimeUs := 500, repeatCount := 2 },
    cps := 1000 }

/-- **The page does not warn of every clamp**: the double click takes the whole interval, and
    its down time only half of it. -/
theorem clampWarning_disagrees :
    ¬ ∀ (e : Engine) (p : Profile), 1 / 100 ≤ p.cps ∧ p.cps ≤ 1000000 → p.action.Admitted →
      (drawEngineTabClamp p = true ↔
        (e.applyConfig .tenMegahertz (makeEngineConfig p)).downTimeClamped = true) := by
  intro hall
  have hcps : (1 / 100 : ℚ) ≤ doubleClicks.cps ∧ doubleClicks.cps ≤ 1000000 := by
    show (1 / 100 : ℚ) ≤ 1000 ∧ (1000 : ℚ) ≤ 1000000
    norm_num
  have haction : doubleClicks.action.Admitted :=
    ⟨KeyChord.mouse_admitted .left, by decide, by decide, by decide, by decide⟩
  have hlimit : Engine.limitUs doubleClicks.cps = 900 := by
    show (9 / 10 : ℚ) * 1000000 / 1000 = 900
    norm_num
  -- The page compares the down time of one press, which is below the limit, with it.
  have hpage : ¬ Engine.limitUs doubleClicks.cps ≤ doubleClicks.action.downTimeUs := by
    rw [hlimit]
    show ¬ (900 : ℚ) ≤ ((500 : ℕ) : ℚ)
    norm_num
  have hspan : ¬ (doubleClicks.action.heldUs : ℚ) < Engine.limitUs doubleClicks.cps := by
    rw [hlimit]
    show ¬ ((1000 : ℕ) : ℚ) < 900
    norm_num
  have hengine := Engine.downTimeClamped_iff (P := .tenMegahertz) rfl
    { ({} : Engine) with cfg := makeEngineConfig doubleClicks }
  have hslowest : minCps ≤ doubleClicks.cps := by
    rw [minCps_eq]
    show (5764607523034235 / 2 ^ 59 : ℚ) ≤ 1000
    norm_num
  have hrate : (makeEngineConfig doubleClicks).cps.val = doubleClicks.cps :=
    clamp_eq hslowest hcps.2
  -- The engine compares the whole double click, which is not.
  have hclamped := hengine.mpr ⟨rfl, rfl, by
    show Engine.limitUs (makeEngineConfig doubleClicks).cps.val ≤ doubleClicks.action.heldUs
    rw [hrate]
    exact not_lt.mp hspan⟩
  have hpage' := (hall {} doubleClicks hcps haction).mpr hclamped
  exact hpage ((Profile.drawEngineTabClamp_iff (by linarith [hcps.1])).mp hpage').2

end InfinityClicker
