import InfinityClicker.Core.Clock

namespace InfinityClicker

/-!
# Trigger modes and the absolute timeline

The parts of the scheduler that touch no operating system.

* `decideOnTriggerDown` / `decideOnTriggerUp` — what a trigger edge means in each mode;
* `Timeline` — slot `k` lies at `t0 + round(k * period)`, whatever happened before it;
* `Timeline.slot_lt_slot`, `Timeline.skipLate_spec` — with a period of at least a tick the slots
  are strictly increasing and skipping never goes back.
-/

/-! ### Trigger modes -/

inductive TriggerMode where
  | hold
  | toggle
  | burst
  | count
  | duration
deriving DecidableEq, Repr

structure ModeParams where
  mode : TriggerMode := .toggle
  /-- Burst: actions per press. -/
  burstCount : BitVec 64 := 10
  /-- Count: actions per run. -/
  fixedCount : BitVec 64 := 100
  /-- Duration: run length. -/
  durationMs : BitVec 32 := 1000
deriving DecidableEq, Repr

/-- The limits of a run; 0 is unlimited. -/
structure RunLimits where
  maxActions : BitVec 64 := 0
  durationMs : ℚ := 0
deriving DecidableEq, Repr

inductive ModeDecision.Kind where
  | none
  | start
  | stop
  | extend
deriving DecidableEq, Repr

structure ModeDecision where
  kind : ModeDecision.Kind := .none
  limits : RunLimits := {}
  extendBy : BitVec 64 := 0
deriving DecidableEq, Repr

def decideOnTriggerDown (p : ModeParams) (running : Bool) : ModeDecision :=
  match p.mode with
  | .hold => { kind := if running then .none else .start }
  | .toggle => { kind := if running then .stop else .start }
  | .burst =>
    if running then { kind := .extend, extendBy := p.burstCount }
    else
      { kind := .start
        limits := { maxActions := if p.burstCount ≠ 0 then p.burstCount else 1 } }
  | .count =>
    { kind := if running then .stop else .start
      limits := { maxActions := if p.fixedCount ≠ 0 then p.fixedCount else 1 } }
  | .duration =>
    { kind := if running then .stop else .start
      limits := { durationMs := if p.durationMs ≠ 0 then p.durationMs.toNat else 1 } }

def decideOnTriggerUp (p : ModeParams) (running : Bool) : ModeDecision :=
  if p.mode = .hold ∧ running then { kind := .stop } else {}

/-- A press always starts a run when none is going. -/
theorem decideOnTriggerDown_idle (p : ModeParams) :
    (decideOnTriggerDown p false).kind = .start := by
  unfold decideOnTriggerDown
  cases p.mode <;> rfl

/-! ### The timeline -/

structure Timeline where
  t0 : ℤ := 0
  /-- QPC ticks per action, fractional. -/
  period : ℚ := 0
  /-- Index of the next action. -/
  k : ℕ := 0
deriving DecidableEq, Repr

namespace Timeline

/-- `anchor(start, periodTicks)`. -/
def anchor (start : ℤ) (periodTicks : ℚ) : Timeline := ⟨start, periodTicks, 0⟩

def slot (tl : Timeline) (idx : ℕ) : ℤ := tl.t0 + ⌊(idx : ℚ) * tl.period + 1 / 2⌋

def next (tl : Timeline) : ℤ := tl.slot tl.k

/-- `while (idx > k && slot(idx) > now) --idx`. -/
def guardRounding (tl : Timeline) (now : ℤ) : ℕ → ℕ
  | 0 => 0
  | idx + 1 =>
    if tl.k < idx + 1 ∧ now < tl.slot (idx + 1) then tl.guardRounding now idx else idx + 1

/-- Jumps to the latest slot that is due, at least one full period late; with the number of
    slots skipped. -/
def skipLate (tl : Timeline) (now : ℤ) : Timeline × ℕ :=
  if tl.period ≤ 0 ∨ now < tl.slot (tl.k + 1) then (tl, 0)
  else
    let idx := tl.guardRounding now ⌊((now - tl.t0 : ℤ) : ℚ) / tl.period⌋.toNat
    ({ tl with k := idx }, if tl.k < idx then idx - tl.k else 0)

/-- Changes the rate without a phase jump: the next slot stays where it is. -/
def changePeriod (tl : Timeline) (periodTicks : ℚ) : Timeline :=
  ⟨tl.slot tl.k, periodTicks, 0⟩

/-- The grid of a timeline: every slot depends on these two alone. -/
theorem slot_eq (tl tl' : Timeline) (ht0 : tl'.t0 = tl.t0) (hperiod : tl'.period = tl.period)
    (idx : ℕ) : tl'.slot idx = tl.slot idx := by
  rw [slot, slot, ht0, hperiod]

/-- With a period of at least a tick the slots are strictly increasing. -/
theorem slot_lt_slot {tl : Timeline} (hp : 1 ≤ tl.period) {i j : ℕ} (hij : i < j) :
    tl.slot i < tl.slot j := by
  have hstep : (i : ℚ) * tl.period + 1 / 2 + 1 ≤ (j : ℚ) * tl.period + 1 / 2 := by
    have hij' : (i : ℚ) + 1 ≤ j := by exact_mod_cast hij
    nlinarith
  -- Two products a tick apart round to different ticks.
  have hfloor : ⌊(i : ℚ) * tl.period + 1 / 2⌋ + 1 ≤ ⌊(j : ℚ) * tl.period + 1 / 2⌋ := by
    rw [Int.le_floor]
    have hle := Int.floor_le ((i : ℚ) * tl.period + 1 / 2)
    push_cast
    linarith
  simp only [slot]
  omega

/-- The correction of the index never goes below `k`, nor above where it starts. -/
theorem guardRounding_bounds (tl : Timeline) (now : ℤ) (idx : ℕ) :
    tl.guardRounding now idx ≤ idx ∧ (tl.k ≤ idx → tl.k ≤ tl.guardRounding now idx) := by
  induction idx with
  | zero => exact ⟨le_refl 0, fun h => h⟩
  | succ idx ih =>
    simp only [guardRounding]
    split
    · next hgo => exact ⟨Nat.le_succ_of_le ih.1, fun _ => ih.2 (by omega)⟩
    · exact ⟨le_refl _, fun h => h⟩

/-- **Skipping never goes back**, and reports exactly the slots it jumps over. -/
theorem skipLate_spec {tl : Timeline} (hp : 1 ≤ tl.period) (now : ℤ) :
    (tl.skipLate now).1.t0 = tl.t0 ∧ (tl.skipLate now).1.period = tl.period ∧
      (tl.skipLate now).1.k = tl.k + (tl.skipLate now).2 := by
  unfold skipLate
  split
  · exact ⟨rfl, rfl, rfl⟩
  · next hlate =>
    rw [not_or, not_le, not_lt] at hlate
    refine ⟨rfl, rfl, ?_⟩
    -- One full period late: the quotient is at least `k`.
    have hk : tl.k ≤ ⌊((now - tl.t0 : ℤ) : ℚ) / tl.period⌋.toNat := by
      -- The slot after `k` is due, up to its rounding.
      have hslot : (tl.k + 1 : ℕ) * tl.period - 1 / 2 < ((now - tl.t0 : ℤ) : ℚ) := by
        have hle := hlate.2
        simp only [slot] at hle
        have hfloor := Int.lt_floor_add_one (((tl.k + 1 : ℕ) : ℚ) * tl.period + 1 / 2)
        have hcast : ((⌊((tl.k + 1 : ℕ) : ℚ) * tl.period + 1 / 2⌋ : ℤ) : ℚ) ≤
            ((now - tl.t0 : ℤ) : ℚ) := by
          exact_mod_cast (by omega : ⌊((tl.k + 1 : ℕ) : ℚ) * tl.period + 1 / 2⌋ ≤ now - tl.t0)
        linarith
      have hpos : (0 : ℚ) < tl.period := by linarith
      have hquot : ((tl.k : ℤ) : ℚ) ≤ ((now - tl.t0 : ℤ) : ℚ) / tl.period := by
        rw [le_div_iff₀ hpos]
        push_cast at hslot ⊢
        nlinarith
      have hfl := Int.le_floor.mpr hquot
      omega
    have hbounds := tl.guardRounding_bounds now ⌊((now - tl.t0 : ℤ) : ℚ) / tl.period⌋.toNat
    have hge := hbounds.2 hk
    dsimp only
    split <;> omega

end Timeline

end InfinityClicker
