import InfinityClicker.Core.Clock
import Mathlib.Data.List.Sort

namespace InfinityClicker

/-!
# The hybrid wait: sleep, then spin

`PreciseWaiter.waitUntil` sleeps in a kernel timer for as long as the model of the timer's
oversleep allows and spins for the rest.  What it meets on the way (clock readings, the
interrupt flag, how each kernel wait ends) is a list of `WaitObs`, one for each round of its
loop; when the list is used up first, the wait is still going on.

* `PreciseWaiter.waitUntil_spec` — the clock does not go back over a wait, and a wait that is
  not interrupted ends at or after its deadline.
-/

inductive Precision where
  | eco
  | standard
  | ultra
deriving DecidableEq, Repr

inductive WaitResult where
  | reached
  | interrupted
deriving DecidableEq, Repr

/-- One round of the wait loop as it meets the machine. -/
structure WaitObs where
  /-- Ticks before the reading `now`. -/
  dt : ℕ := 0
  /-- The interrupt flag at the check. -/
  flag : Bool := false
  /-- Length of the kernel wait in ticks. -/
  slept : ℕ := 0
  /-- `timerSleep`'s result: not ended by the interrupt event. -/
  ok : Bool := true
  /-- The spins: the interrupt flag at each, and the ticks it takes. -/
  spins : List (Bool × ℕ) := []

/-- `kSamples`. -/
def kSamples : ℕ := 256

structure PreciseWaiter where
  /-- QPC ticks per microsecond. -/
  perUs : ℚ := 10
  /-- Overrides the adaptive margin when not negative. -/
  fixedMarginTicks : ℤ := -1
  periodHint : ℤ := 0
  spinTicks : ℤ := 0
  sleepTicks : ℤ := 0
  timerWaits : ℕ := 0
  /-- The oversleep ring. -/
  samples : ℕ → ℤ := fun _ => 0
  count : ℕ := 0
  head : ℕ := 0
  sinceModel : ℕ := 0
  p50 : ℤ := 0
  p75 : ℤ := 0
  p99 : ℤ := 0
  max : ℤ := 0

namespace PreciseWaiter

def resetAccounting (w : PreciseWaiter) : PreciseWaiter :=
  { w with spinTicks := 0, sleepTicks := 0, timerWaits := 0 }

def setPeriodHint (w : PreciseWaiter) (ticks : ℤ) : PreciseWaiter := { w with periodHint := ticks }

/-- The order statistic of the sorted samples at quantile `q`, at least 0. -/
def quantile (sorted : List ℤ) (q : ℚ) : ℤ :=
  let n := sorted.length
  Max.max 0 (sorted.getD (Min.min (n - 1) (toInt64 (q * (n - 1 : ℕ) + 1 / 2)).toNat) 0)

def recomputeModel (w : PreciseWaiter) : PreciseWaiter :=
  let w := { w with sinceModel := 0 }
  if w.count < 8 then w
  else
    let tmp := ((List.range w.count).map w.samples).mergeSort
    { w with
      p50 := quantile tmp (1 / 2)
      p75 := quantile tmp (3 / 4)
      p99 := quantile tmp (99 / 100)
      max := Max.max 0 (tmp.getD (w.count - 1) 0) }

def recordOversleep (w : PreciseWaiter) (ticks : ℤ) : PreciseWaiter :=
  let w := { w with
    samples := Function.update w.samples w.head ticks
    head := (w.head + 1) % kSamples
    count := if w.count < kSamples then w.count + 1 else w.count
    sinceModel := w.sinceModel + 1 }
  if 32 ≤ w.sinceModel ∨ w.count < 32 then w.recomputeModel else w

def marginTicks (w : PreciseWaiter) (p : Precision) : ℤ :=
  if 0 ≤ w.fixedMarginTicks then
    if p = .eco then 0 else w.fixedMarginTicks
  else
    match p with
    | .eco => 0
    | .standard =>
      let want := clamp (w.p99 + toInt64 (100 * w.perUs)) (toInt64 (100 * w.perUs))
        (toInt64 (2500 * w.perUs))
      if 0 < w.periodHint then Min.min want (w.periodHint.tdiv 10) else want
    | .ultra =>
      clamp (Max.max (w.p99 + toInt64 (200 * w.perUs)) w.max) (toInt64 (300 * w.perUs))
        (toInt64 (3000 * w.perUs))

/-- The busy wait on the counter from a reading `t`. -/
def spinUntil (deadline : ℤ) : ℤ → List (Bool × ℕ) → Option (ℤ × WaitResult)
  | t, [] => if deadline ≤ t then some (t, .reached) else none
  | t, (flag, dt) :: spins =>
    if deadline ≤ t then some (t, .reached)
    else if flag then some (t, .interrupted)
    else spinUntil deadline (t + dt) spins

/-- A kernel wait must be worth its while. -/
def minSleep (w : PreciseWaiter) (p : Precision) : ℤ :=
  toInt64 ((if p = .eco then 30 else 120) * w.perUs)

/-- How a wait ends. -/
structure Waited where
  waiter : PreciseWaiter
  /-- The last clock reading. -/
  now : ℤ
  result : WaitResult
  /-- The interrupt event ended a kernel wait, which resets it. -/
  event : Bool := false

/-- Waits until the counter reaches `deadline`, from a reading `clock` on, interrupted by the
    command event and flag.  No caller bounds its kernel waits (`maxSleepChunkTicks` is 0). -/
def waitUntil (w : PreciseWaiter) (clock deadline : ℤ) (p : Precision) :
    List WaitObs → Option Waited
  | [] => none
  | o :: os =>
    let now := clock + o.dt
    let rem := deadline - now
    if rem ≤ 0 then some ⟨w, now, .reached, false⟩
    else if o.flag then some ⟨w, now, .interrupted, false⟩
    else
      let sleepFor := rem - w.marginTicks p
      if w.minSleep p ≤ sleepFor then
        -- Sleep in the kernel timer up to the margin.
        let woke := now + o.slept
        let w := { w with
          sleepTicks := w.sleepTicks + (woke - now)
          timerWaits := w.timerWaits + 1 }
        if !o.ok then some ⟨w, woke, .interrupted, true⟩
        else (w.recordOversleep (woke - (now + sleepFor))).waitUntil woke deadline p os
      else
        -- Too short for the kernel: spin for the rest.
        match spinUntil deadline now o.spins with
        | none => none
        | some (t, result) =>
          some ⟨{ w with spinTicks := w.spinTicks + (t - now) }, t, result, false⟩

/-! ### What a wait guarantees -/

theorem spinUntil_spec {deadline t t' : ℤ} {spins : List (Bool × ℕ)} {r : WaitResult}
    (h : spinUntil deadline t spins = some (t', r)) :
    t ≤ t' ∧ (r = .reached → deadline ≤ t') := by
  induction spins generalizing t with
  | nil =>
    simp only [spinUntil] at h
    split at h
    · next hreached =>
      obtain ⟨rfl, -⟩ := Prod.mk.inj (Option.some.inj h)
      exact ⟨le_refl _, fun _ => hreached⟩
    · exact absurd h (by simp)
  | cons spin spins ih =>
    obtain ⟨flag, dt⟩ := spin
    simp only [spinUntil] at h
    split at h
    · next hreached =>
      obtain ⟨rfl, -⟩ := Prod.mk.inj (Option.some.inj h)
      exact ⟨le_refl _, fun _ => hreached⟩
    · split at h
      · obtain ⟨rfl, rfl⟩ := Prod.mk.inj (Option.some.inj h)
        exact ⟨le_refl _, fun hr => absurd hr (by simp)⟩
      · have hrest := ih h
        exact ⟨by omega, hrest.2⟩

/-- **A wait that is not interrupted ends at or after its deadline**, and no wait ends before
    it began. -/
theorem waitUntil_spec {w : PreciseWaiter} {clock deadline : ℤ} {p : Precision}
    {os : List WaitObs} {r : Waited} (h : w.waitUntil clock deadline p os = some r) :
    clock ≤ r.now ∧ (r.result = .reached → deadline ≤ r.now) := by
  -- A round ends the wait or leaves a shorter list of rounds, at a later reading.
  induction os generalizing w clock with
  | nil => exact absurd h (by simp [waitUntil])
  | cons o os ih =>
    simp only [waitUntil] at h
    split at h
    · next hrem =>
      obtain rfl := Option.some.inj h
      exact ⟨by dsimp; omega, fun _ => by dsimp; omega⟩
    split at h
    · obtain rfl := Option.some.inj h
      exact ⟨by dsimp; omega, fun hr => absurd hr (by simp)⟩
    split at h
    · split at h
      · obtain rfl := Option.some.inj h
        exact ⟨by dsimp; omega, fun hr => absurd hr (by simp)⟩
      · have hrest := ih h
        exact ⟨by omega, hrest.2⟩
    · split at h
      · exact absurd h (by simp)
      · next t' r' hspin =>
        obtain rfl := Option.some.inj h
        have hs := spinUntil_spec hspin
        exact ⟨by dsimp; omega, hs.2⟩

end PreciseWaiter

end InfinityClicker
