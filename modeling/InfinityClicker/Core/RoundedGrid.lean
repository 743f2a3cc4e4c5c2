import Mathlib.Algebra.Order.Floor.Ring
import Mathlib.Data.Rat.Floor
import Mathlib.Tactic.Linarith

namespace RoundedGrid

/-!
# Grids of rounded multiples

The multiples of a rational step, each rounded to the nearest integer: the deadlines of a clock
that ticks in integers while its period is a fraction.

* `point` — the `k`-th point, rounded from its exact place `k * p`;
* `point_le_iff` — a point against an integer, without the rounding;
* `sub_one_lt_gap` — the gap between neighbours is less than a unit short of the step;
* `RoundedDown` — a point that lies before its exact place;
* `latest_iff` — the floor of the exact quotient is the index of the latest point up to `n`,
  unless `n` itself is a point rounded down.
-/

/-- The `k`-th point: `k * p` rounded to the nearest integer. -/
def point (p : ℚ) (k : ℕ) : ℤ := ⌊(k : ℚ) * p + 1 / 2⌋

theorem point_le_iff (p : ℚ) (k : ℕ) (n : ℤ) : point p k ≤ n ↔ (k : ℚ) * p < n + 1 / 2 := by
  rw [point, ← Int.lt_add_one_iff, Int.floor_lt]
  push_cast
  constructor <;> intro h <;> linarith

/-- The gap between two neighbours is less than a unit short of the step. -/
theorem sub_one_lt_gap (p : ℚ) (k : ℕ) : p - 1 < (point p (k + 1) - point p k : ℤ) := by
  have hlow : (point p k : ℚ) ≤ k * p + 1 / 2 := Int.floor_le _
  have hhigh : ((k + 1 : ℕ) : ℚ) * p + 1 / 2 < point p (k + 1) + 1 := Int.lt_floor_add_one _
  push_cast at hhigh ⊢
  linarith

/-- With a step of at least a unit the points are strictly increasing. -/
theorem point_lt_point {p : ℚ} (hp : 1 ≤ p) {i j : ℕ} (hij : i < j) : point p i < point p j := by
  induction j with
  | zero => omega
  | succ j ih =>
    have hgap := sub_one_lt_gap p j
    have hstep : point p j < point p (j + 1) := by
      have hpos : (0 : ℚ) < (point p (j + 1) - point p j : ℤ) := by linarith
      have hint : 0 < point p (j + 1) - point p j := by exact_mod_cast hpos
      omega
    rcases Nat.lt_succ_iff_lt_or_eq.mp hij with hlt | rfl
    · exact lt_trans (ih hlt) hstep
    · exact hstep

/-! ### The latest point up to an integer -/

/-- The point lies before its exact place. -/
def RoundedDown (p : ℚ) (k : ℕ) : Prop := (point p k : ℚ) < k * p

section Latest

variable {p : ℚ} (hp : 1 ≤ p) {n : ℤ} (hn : 0 ≤ n)
include hp hn

/-- The floor of the exact quotient, between its bounds. -/
theorem quotient_bounds : ((⌊(n : ℚ) / p⌋.toNat : ℕ) : ℚ) * p ≤ n ∧
    (n : ℚ) < ((⌊(n : ℚ) / p⌋.toNat : ℕ) + 1 : ℚ) * p := by
  have hpos : (0 : ℚ) < p := by linarith
  have hquot : (0 : ℚ) ≤ (n : ℚ) / p := div_nonneg (by exact_mod_cast hn) hpos.le
  have hcast : ((⌊(n : ℚ) / p⌋.toNat : ℕ) : ℚ) = (⌊(n : ℚ) / p⌋ : ℚ) := by
    exact_mod_cast Int.toNat_of_nonneg (Int.floor_nonneg.mpr hquot)
  rw [hcast, ← le_div_iff₀ hpos, ← div_lt_iff₀ hpos]
  exact ⟨Int.floor_le _, Int.lt_floor_add_one _⟩

/-- The point at the exact quotient is never too late. -/
theorem point_quotient_le : point p ⌊(n : ℚ) / p⌋.toNat ≤ n := by
  rw [point_le_iff]
  have hlow := (quotient_bounds hp hn).1
  linarith

/-- The point after the exact quotient comes by `n` only if it is `n`, rounded down. -/
theorem point_next_le_iff : point p (⌊(n : ℚ) / p⌋.toNat + 1) ≤ n ↔
    ∃ j, point p j = n ∧ RoundedDown p j := by
  obtain ⟨hlow, hhigh⟩ := quotient_bounds hp hn
  constructor
  · intro hle
    have hexact : (n : ℚ) < ((⌊(n : ℚ) / p⌋.toNat + 1 : ℕ) : ℚ) * p := by
      push_cast
      exact hhigh
    -- Less than a half before its exact place, which is past `n`.
    have hge : n ≤ point p (⌊(n : ℚ) / p⌋.toNat + 1) := by
      rw [point, Int.le_floor]
      linarith
    have heq := le_antisymm hle hge
    exact ⟨_, heq, by rw [RoundedDown, heq]; exact hexact⟩
  · rintro ⟨j, hj, hdown⟩
    rw [RoundedDown, hj] at hdown
    -- Its exact place is past `n`, so it is no earlier than the point after the quotient.
    have hnext : ⌊(n : ℚ) / p⌋.toNat + 1 ≤ j := by
      by_contra hge
      rw [not_le, Nat.lt_succ_iff] at hge
      have hmul : (j : ℚ) * p ≤ (⌊(n : ℚ) / p⌋.toNat : ℕ) * p := by
        have hcast : (j : ℚ) ≤ (⌊(n : ℚ) / p⌋.toNat : ℕ) := by exact_mod_cast hge
        nlinarith
      linarith
    rcases Nat.eq_or_lt_of_le hnext with heq | hlater
    · rw [heq]
      exact hj.le
    · exact le_trans (le_of_lt (point_lt_point hp hlater)) hj.le

/-- **The latest point up to `n`** is the one at the floor of the exact quotient, unless `n` is a
    point that was rounded down. -/
theorem latest_iff :
    (point p ⌊(n : ℚ) / p⌋.toNat ≤ n ∧ n < point p (⌊(n : ℚ) / p⌋.toNat + 1)) ↔
      ∀ j, point p j = n → ¬ RoundedDown p j := by
  have hnext := point_next_le_iff hp hn
  constructor
  · rintro ⟨-, hlt⟩ j hj hdown
    exact absurd (hnext.mpr ⟨j, hj, hdown⟩) (not_le.mpr hlt)
  · intro h
    refine ⟨point_quotient_le hp hn, ?_⟩
    by_contra hle
    obtain ⟨j, hj, hdown⟩ := hnext.mp (not_lt.mp hle)
    exact h j hj hdown

end Latest

end RoundedGrid
