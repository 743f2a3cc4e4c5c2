import InfinityClicker.Scheduler.PreciseWaiter

namespace InfinityClicker

/-!
# The phases of a wait, and the budget of the spin

A round of `waitUntil`'s loop sleeps in the kernel or goes over to the busy wait.  The busy wait
is meant to be short: none with ECO, a tenth of the interval with STANDARD.  The margin keeps to
that, but a kernel wait must also be at least `minSleep` long, and the time that is too short for
one is spun as well.

* `PreciseWaiter.waitPhases` — what the rounds of a wait go on to, beside what `waitUntil`
  returns (`waitPhases_snd`);
* `PreciseWaiter.waitPhases_decided` — how a round decides;
* `PreciseWaiter.spins_within_budget_iff` — a wait keeps to the budget unless one of its rounds
  reads a remaining time in the gap between the budget and the shortest kernel wait;
* `PreciseWaiter.always_within_budget_iff` — the intervals for which there is no such gap.
-/

/-- What a round of the wait loop goes on to, when the deadline is ahead and nothing interrupts:
    the waiter and the reading `now` it decides by. -/
inductive WaitPhase where
  /-- `timerSleep(sleepFor, ..)`. -/
  | sleep (w : PreciseWaiter) (now sleepFor : ℤ)
  /-- The busy wait. -/
  | spin (w : PreciseWaiter) (now : ℤ)

namespace WaitPhase

def waiter : WaitPhase → PreciseWaiter
  | sleep w _ _ => w
  | spin w _ => w

def now : WaitPhase → ℤ
  | sleep _ now _ => now
  | spin _ now => now

/-- The branch `waitUntil` takes for a deadline at a precision. -/
def Decided (deadline : ℤ) (p : Precision) : WaitPhase → Prop
  | sleep w now sleepFor =>
    now < deadline ∧ sleepFor = deadline - now - w.marginTicks p ∧ w.minSleep p ≤ sleepFor
  | spin w now => now < deadline ∧ deadline - now - w.marginTicks p < w.minSleep p

/-- The budget of a busy wait for an interval of `h` ticks. -/
def WithinBudget (h deadline : ℤ) : Precision → WaitPhase → Prop
  | .eco, spin _ _ => False
  | .standard, spin _ now => 10 * (deadline - now) ≤ h
  | _, _ => True

/-- The early wake-up that covers the oversleep, before the budget caps it. -/
def wanted (ph : WaitPhase) : ℤ :=
  clamp (ph.waiter.p99 + toInt64 (100 * ph.waiter.perUs))
    (toInt64 (100 * ph.waiter.perUs)) (toInt64 (2500 * ph.waiter.perUs))

/-- The remaining time is over the budget, and less than 30 µs with ECO, less than 120 µs above
    the early wake-up with STANDARD. -/
def InGap (h deadline : ℤ) : Precision → WaitPhase → Prop
  | .eco, ph => deadline - ph.now < toInt64 (30 * ph.waiter.perUs)
  | .standard, ph =>
    h < 10 * (deadline - ph.now) ∧
      deadline - ph.now < min ph.wanted (h / 10) + toInt64 (120 * ph.waiter.perUs)
  | .ultra, _ => False

instance (h deadline : ℤ) (p : Precision) (ph : WaitPhase) : Decidable (ph.InGap h deadline p) :=
  match p with
  | .eco => inferInstanceAs (Decidable (_ < _))
  | .standard => inferInstanceAs (Decidable (_ ∧ _))
  | .ultra => inferInstanceAs (Decidable False)

end WaitPhase

namespace PreciseWaiter

open WaitPhase

/-- `PreciseWaiter()`: a conservative seed until real samples arrive. -/
def create (P : Platform) : PreciseWaiter :=
  let perUs : ℚ := P.freq / 1000000
  { perUs := perUs
    p50 := toInt64 (250 * perUs)
    p75 := toInt64 (400 * perUs)
    p99 := toInt64 (600 * perUs)
    max := toInt64 (1000 * perUs) }

/-- `waitUntil` with the phases it goes through. -/
def waitPhases (w : PreciseWaiter) (clock deadline : ℤ) (p : Precision) :
    List WaitObs → List WaitPhase × Option Waited
  | [] => ([], none)
  | o :: os =>
    let now := clock + o.dt
    let rem := deadline - now
    if rem ≤ 0 then ([], some ⟨w, now, .reached, false⟩)
    else if o.flag then ([], some ⟨w, now, .interrupted, false⟩)
    else
      let sleepFor := rem - w.marginTicks p
      if w.minSleep p ≤ sleepFor then
        let woke := now + o.slept
        let w' := { w with
          sleepTicks := w.sleepTicks + (woke - now)
          timerWaits := w.timerWaits + 1 }
        if !o.ok then ([sleep w now sleepFor], some ⟨w', woke, .interrupted, true⟩)
        else
          let rest := (w'.recordOversleep (woke - (now + sleepFor))).waitPhases woke deadline p os
          (sleep w now sleepFor :: rest.1, rest.2)
      else
        ([spin w now],
          match spinUntil deadline now o.spins with
          | none => none
          | some (t, result) =>
            some ⟨{ w with spinTicks := w.spinTicks + (t - now) }, t, result, false⟩)

variable {w : PreciseWaiter} {clock deadline : ℤ} {p : Precision}

/-- The phases leave the wait as it is. -/
theorem waitPhases_snd (w : PreciseWaiter) (clock deadline : ℤ) (p : Precision)
    (os : List WaitObs) :
    (w.waitPhases clock deadline p os).2 = w.waitUntil clock deadline p os := by
  induction os generalizing w clock with
  | nil => rfl
  | cons o os ih =>
    simp only [waitPhases, waitUntil]
    split
    · rfl
    split
    · rfl
    split
    · split
      · rfl
      · exact ih ..
    · rfl

/-- What the waiter is set up with. -/
structure SameSetup (w w' : PreciseWaiter) : Prop where
  perUs : w'.perUs = w.perUs
  fixedMarginTicks : w'.fixedMarginTicks = w.fixedMarginTicks
  periodHint : w'.periodHint = w.periodHint

theorem SameSetup.refl (w : PreciseWaiter) : SameSetup w w := ⟨rfl, rfl, rfl⟩

theorem SameSetup.trans {w₁ w₂ w₃ : PreciseWaiter} (h : SameSetup w₁ w₂) (h' : SameSetup w₂ w₃) :
    SameSetup w₁ w₃ :=
  ⟨h'.perUs.trans h.perUs, h'.fixedMarginTicks.trans h.fixedMarginTicks,
    h'.periodHint.trans h.periodHint⟩

theorem recomputeModel_setup (w : PreciseWaiter) : SameSetup w w.recomputeModel := by
  rw [recomputeModel]
  split
  · exact ⟨rfl, rfl, rfl⟩
  · exact ⟨rfl, rfl, rfl⟩

/-- The oversleep history has no part in it. -/
theorem recordOversleep_setup (w : PreciseWaiter) (ticks : ℤ) :
    SameSetup w (w.recordOversleep ticks) := by
  rw [recordOversleep]
  generalize (if w.count < kSamples then w.count + 1 else w.count) = count
  dsimp only
  split
  · have hmodel := recomputeModel_setup { w with
      samples := Function.update w.samples w.head ticks
      head := (w.head + 1) % kSamples
      count := count
      sinceModel := w.sinceModel + 1 }
    exact ⟨hmodel.perUs, hmodel.fixedMarginTicks, hmodel.periodHint⟩
  · exact ⟨rfl, rfl, rfl⟩

/-- **How a round decides**: by the margin of the waiter as the round finds it. -/
theorem waitPhases_decided {os : List WaitObs} {ph : WaitPhase}
    (hph : ph ∈ (w.waitPhases clock deadline p os).1) :
    ph.Decided deadline p ∧ SameSetup w ph.waiter := by
  -- The rounds are gone through by induction; the setup of the waiter is that of the first.
  induction os generalizing w clock with
  | nil => exact absurd hph (by simp [waitPhases])
  | cons o os ih =>
    simp only [waitPhases] at hph
    split at hph
    · exact absurd hph (by simp)
    split at hph
    · exact absurd hph (by simp)
    next hrem _ =>
    split at hph
    · next hsleep =>
      have hhere : (sleep w (clock + o.dt) (deadline - (clock + o.dt) - w.marginTicks p)).Decided
          deadline p := ⟨by omega, rfl, hsleep⟩
      split at hph
      · rw [List.mem_singleton] at hph
        subst hph
        exact ⟨hhere, SameSetup.refl w⟩
      -- A kernel wait that was not interrupted records its oversleep, and the next round follows.
      · rcases List.mem_cons.mp hph with rfl | hrest
        · exact ⟨hhere, SameSetup.refl w⟩
        · obtain ⟨hdec, hset⟩ := ih hrest
          have hrecord := recordOversleep_setup { w with
            sleepTicks := w.sleepTicks + (clock + o.dt + o.slept - (clock + o.dt))
            timerWaits := w.timerWaits + 1 }
            (clock + o.dt + o.slept
              - (clock + o.dt + (deadline - (clock + o.dt) - w.marginTicks p)))
          exact ⟨hdec, SameSetup.trans ⟨hrecord.perUs, hrecord.fixedMarginTicks,
            hrecord.periodHint⟩ hset⟩
    -- With too little left for a kernel wait the round is the busy wait, and the last one.
    · next hspin =>
      rw [List.mem_singleton] at hph
      subst hph
      refine ⟨⟨?_, ?_⟩, SameSetup.refl w⟩
      · omega
      · omega

/-! ### The budget -/

/-- Without a fixed margin STANDARD wakes up early by what it wants, within the budget. -/
theorem marginTicks_standard {ph : WaitPhase} (hfixed : ph.waiter.fixedMarginTicks < 0)
    (hh : 0 < ph.waiter.periodHint) :
    ph.waiter.marginTicks .standard = min ph.wanted (ph.waiter.periodHint / 10) := by
  rw [marginTicks, if_neg (by omega)]
  dsimp only
  rw [if_pos hh, Int.tdiv_eq_ediv_of_nonneg (by omega)]
  rfl

theorem marginTicks_eco (w : PreciseWaiter) : w.marginTicks .eco = 0 := by
  rw [marginTicks]
  split <;> rfl

/-- A round goes over to the busy wait when it reads a remaining time below these. -/
theorem spin_of_short {ph : WaitPhase} (hdec : ph.Decided deadline p)
    (hshort : deadline - ph.now < ph.waiter.marginTicks p + ph.waiter.minSleep p) :
    ph = spin ph.waiter ph.now := by
  cases ph with
  | sleep w now sleepFor =>
    obtain ⟨-, hfor, hmin⟩ := hdec
    replace hshort : deadline - now < w.marginTicks p + w.minSleep p := hshort
    omega
  | spin w now => rfl

theorem short_of_spin {w : PreciseWaiter} {now : ℤ} (hdec : (spin w now).Decided deadline p) :
    deadline - now < w.marginTicks p + w.minSleep p := by
  have hshort := hdec.2
  omega

/-- **The spin budget.** Without a fixed margin the busy waits of a wait keep to the budget of its
    precision exactly when no round reads a remaining time in the gap. -/
theorem spins_within_budget_iff (w : PreciseWaiter) (hfixed : w.fixedMarginTicks < 0)
    (hh : 0 < w.periodHint) (clock deadline : ℤ) (p : Precision) (os : List WaitObs) :
    (∀ ph ∈ (w.waitPhases clock deadline p os).1, ph.WithinBudget w.periodHint deadline p) ↔
      ∀ ph ∈ (w.waitPhases clock deadline p os).1, ¬ ph.InGap w.periodHint deadline p := by
  refine forall_congr' fun ph => forall_congr' fun hph => ?_
  obtain ⟨hdec, hset⟩ := waitPhases_decided hph
  cases p with
  -- ECO has no margin, so it spins below the least kernel wait of 30 us.
  | eco =>
    have hmargin := marginTicks_eco ph.waiter
    have hmin : ph.waiter.minSleep .eco = toInt64 (30 * ph.waiter.perUs) := rfl
    constructor
    · intro hin hgap
      replace hgap : deadline - ph.now < toInt64 (30 * ph.waiter.perUs) := hgap
      rw [spin_of_short hdec (by omega)] at hin
      exact hin
    · intro hgap
      cases ph with
      | sleep w' now sleepFor => trivial
      | spin w' now =>
        refine absurd ?_ hgap
        have hshort := short_of_spin hdec
        rw [marginTicks_eco, zero_add] at hshort
        exact hshort
  -- STANDARD spins below its margin and the least kernel wait of 120 us together.
  | standard =>
    have hmargin : ph.waiter.marginTicks .standard = min ph.wanted (w.periodHint / 10) := by
      rw [← hset.periodHint]
      exact marginTicks_standard (by rw [hset.fixedMarginTicks]; exact hfixed)
        (by rw [hset.periodHint]; exact hh)
    have hmin : ph.waiter.minSleep .standard = toInt64 (120 * ph.waiter.perUs) := rfl
    constructor
    · rintro hin ⟨hover, hgap⟩
      rw [spin_of_short hdec (by omega)] at hin
      replace hin : 10 * (deadline - ph.now) ≤ w.periodHint := hin
      omega
    · intro hgap
      cases ph with
      | sleep w' now sleepFor => trivial
      | spin w' now =>
        show 10 * (deadline - now) ≤ w.periodHint
        by_contra hover
        refine hgap ⟨not_le.mp hover, ?_⟩
        rw [← hmargin]
        exact short_of_spin hdec
  -- ULTRA has no budget to keep to.
  | ultra =>
    refine iff_of_true ?_ id
    cases ph <;> trivial

/-- A 1 ms interval before any oversleep is known. -/
def millisecond : PreciseWaiter := (create Platform.tenMegahertz).setPeriodHint 10000

/-- A kernel wait up to the margin, and a busy wait for the tenth of the interval that is left. -/
theorem spins_within_budget_iff_millisecond :
    (millisecond.waitPhases 0 10000 .standard
        [{ slept := 9000 }, { spins := [(false, 1000)] }]).1.length = 2 ∧
      ∀ ph ∈ (millisecond.waitPhases 0 10000 .standard
        [{ slept := 9000 }, { spins := [(false, 1000)] }]).1,
        ph.WithinBudget 10000 10000 .standard :=
  ⟨by decide +kernel, (spins_within_budget_iff millisecond (by decide) (by decide) 0 10000 .standard
    [{ slept := 9000 }, { spins := [(false, 1000)] }]).mpr (by decide +kernel)⟩

/-- With 219.9 µs of a 1 ms interval to go STANDARD spins for all of them, and with 29.9 µs to go
    ECO spins. -/
theorem spins_over_budget :
    (∃ ph ∈ (millisecond.waitPhases 7801 10000 .standard [{ spins := [(false, 2199)] }]).1,
      ¬ ph.WithinBudget 10000 10000 .standard) ∧
      ∃ ph ∈ (millisecond.waitPhases 9701 10000 .eco [{ spins := [(false, 299)] }]).1,
        ¬ ph.WithinBudget 10000 10000 .eco := by
  constructor
  · have hmargin : millisecond.marginTicks .standard = 1000 := by decide +kernel
    have hmin : millisecond.minSleep .standard = 1200 := by decide +kernel
    refine ⟨spin millisecond 7801, ?_, ?_⟩
    · simp [waitPhases, hmargin, hmin]
    · show ¬ (10 * (10000 - 7801) ≤ (10000 : ℤ))
      decide
  · have hmargin : millisecond.marginTicks .eco = 0 := marginTicks_eco _
    have hmin : millisecond.minSleep .eco = 300 := by decide +kernel
    refine ⟨spin millisecond 9701, ?_, id⟩
    simp [waitPhases, hmargin, hmin]

/-! ### The intervals without a gap -/

/-- More microseconds are no fewer ticks. -/
theorem usTicks_mono {perUs a b : ℚ} (hper : 0 ≤ perUs) (hab : a ≤ b) :
    toInt64 (a * perUs) ≤ toInt64 (b * perUs) :=
  toInt64_mono (mul_le_mul_of_nonneg_right hab hper)

theorem wanted_le {ph : WaitPhase} (hper : 0 ≤ ph.waiter.perUs) :
    ph.wanted ≤ toInt64 (2500 * ph.waiter.perUs) := by
  have hlohi : toInt64 (100 * ph.waiter.perUs) ≤ toInt64 (2500 * ph.waiter.perUs) :=
    usTicks_mono hper (by norm_num)
  exact (clamp_mem _ hlohi).2

/-- **STANDARD keeps to its budget whatever it meets** exactly for the intervals of which a tenth
    covers the largest margin and the shortest kernel wait: 26.2 ms and more. -/
theorem always_within_budget_iff {perUs : ℚ} (hper : 1 ≤ perUs) {h : ℤ} (hh : 0 < h) :
    (∀ w : PreciseWaiter, w.perUs = perUs → w.fixedMarginTicks < 0 → w.periodHint = h →
      ∀ clock deadline os, ∀ ph ∈ (w.waitPhases clock deadline .standard os).1,
        ph.WithinBudget h deadline .standard) ↔
      toInt64 (2500 * perUs) + toInt64 (120 * perUs) ≤ h / 10 + 1 := by
  constructor
  · intro hall
    by_contra hshort
    have hmin : 2 ≤ toInt64 (120 * perUs) := by
      rw [toInt64, if_pos (by linarith)]
      exact Int.le_floor.mpr (by push_cast; linarith)
    have hlohi : toInt64 (100 * perUs) ≤ toInt64 (2500 * perUs) :=
      usTicks_mono (by linarith) (by norm_num)
    have hlo : 0 ≤ toInt64 (100 * perUs) := toInt64_nonneg (by linarith)
    -- The largest margin, and a tick less to go than a kernel wait needs.
    let w : PreciseWaiter := { perUs := perUs, periodHint := h, p99 := toInt64 (2500 * perUs) }
    have hfixed : (spin w 0).waiter.fixedMarginTicks < 0 := neg_one_lt_zero
    have hmargin : w.marginTicks .standard = min (toInt64 (2500 * perUs)) (h / 10) := by
      have hwanted : (spin w 0).wanted = toInt64 (2500 * perUs) := by
        show clamp (toInt64 (2500 * perUs) + toInt64 (100 * perUs)) (toInt64 (100 * perUs))
          (toInt64 (2500 * perUs)) = _
        rw [clamp, if_neg (by omega)]
        split
        · rfl
        · omega
      rw [← hwanted]
      exact marginTicks_standard hfixed hh
    have hminw : w.minSleep .standard = toInt64 (120 * perUs) := rfl
    have hphases : (w.waitPhases 0 (min (toInt64 (2500 * perUs)) (h / 10)
        + toInt64 (120 * perUs) - 1) .standard [{ }]).1 = [spin w 0] := by
      simp only [waitPhases, hmargin, hminw]
      rw [if_neg (by simp only [Nat.cast_zero]; omega), if_neg Bool.false_ne_true,
        if_neg (by simp only [Nat.cast_zero]; omega)]
      simp
    have hin := hall w rfl hfixed rfl 0 _ [{ }] (spin w 0)
      (by rw [hphases]; exact List.mem_singleton_self _)
    replace hin : 10 * (min (toInt64 (2500 * perUs)) (h / 10) + toInt64 (120 * perUs) - 1 - 0)
      ≤ h := hin
    omega
  · rintro hlong w rfl hfixed rfl clock deadline os
    rw [spins_within_budget_iff w hfixed hh]
    rintro ph hph ⟨hover, hgap⟩
    have hset := (waitPhases_decided hph).2
    have hwanted : ph.wanted ≤ toInt64 (2500 * ph.waiter.perUs) :=
      wanted_le (by rw [hset.perUs]; linarith)
    rw [hset.perUs] at hwanted hgap
    omega

end PreciseWaiter

end InfinityClicker
