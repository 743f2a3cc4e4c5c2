import InfinityClicker.Core.Binary64

namespace DecimalRounding

open Binary64

/-!
# Rounding to significant decimal digits

A positive number rounded to `N + 1` significant digits is an integer of so many digits with the
exponent of the first of them.

* `significant` — the rounding, ties to even;
* `significant_spec`, `significant_eq` — what characterises it;
* `significant_nearest` — ten digits of a double are the ten digits of the double nearest to
  them.
-/

/-- The digits of `q` as an integer, and the exponent of the first one. -/
def significant (N : ℕ) (q : ℚ) : ℤ × ℤ :=
  let x := Int.log 10 q
  let m := roundEven (q / 10 ^ (x - N))
  -- The rounded digits may carry into one more.
  if m = 10 ^ (N + 1) then (10 ^ N, x + 1) else (m, x)

/-- The number that digits and an exponent stand for. -/
def value (N : ℕ) (d : ℤ × ℤ) : ℚ := d.1 * 10 ^ (d.2 - N)

variable {N : ℕ} {q : ℚ}

theorem log_eq {x : ℤ} (hlow : (10 : ℚ) ^ x ≤ q) (hhigh : q < 10 ^ (x + 1)) :
    Int.log 10 q = x := by
  have hpos : 0 < q := lt_of_lt_of_le (zpow_pos (by norm_num) x) hlow
  have hge := (Int.zpow_le_iff_le_log (b := 10) (by norm_num) hpos).mp (by exact_mod_cast hlow)
  have hlt := (Int.lt_zpow_iff_log_lt (b := 10) (by norm_num) hpos).mp (by exact_mod_cast hhigh)
  omega

theorem log_bounds (hq : 0 < q) : (10 : ℚ) ^ Int.log 10 q ≤ q ∧ q < 10 ^ (Int.log 10 q + 1) := by
  have hlow := Int.zpow_log_le_self (b := 10) (by norm_num) hq
  have hhigh := Int.lt_zpow_succ_log_self (b := 10) (by norm_num) q
  exact ⟨by exact_mod_cast hlow, by exact_mod_cast hhigh⟩

/-- A power of ten in units of the last digit. -/
theorem zpow_eq_unit (N : ℕ) (x : ℤ) : (10 : ℚ) ^ x = 10 ^ N * 10 ^ (x - N) := by
  rw [← zpow_natCast, ← zpow_add₀ (by norm_num)]
  congr 1
  ring

theorem unit_pos (N : ℕ) (x : ℤ) : (0 : ℚ) < 10 ^ (x - N) := zpow_pos (by norm_num) _

theorem ten_mul_zpow {x y : ℤ} (h : y = x + 1) : (10 : ℚ) ^ y = 10 * 10 ^ x := by
  rw [h, zpow_add_one₀ (by norm_num), mul_comm]

/-- The digits and exponent that `q` rounds to: as many digits as there should be, within a half of
    the last one, even at a half, and below a power of ten within a half of the smaller unit
    there. -/
structure Rounds (N : ℕ) (q : ℚ) (d : ℤ × ℤ) : Prop where
  low : 10 ^ N ≤ d.1
  high : d.1 < 10 ^ (N + 1)
  near : |q / 10 ^ (d.2 - N) - d.1| ≤ 1 / 2
  even : |q / 10 ^ (d.2 - N) - d.1| = 1 / 2 → d.1 % 2 = 0
  below : q < 10 ^ d.2 → 10 ^ d.2 - q ≤ 10 ^ (d.2 - N) / 20

/-- **What `q` is rounded to.** -/
theorem significant_spec (N : ℕ) (hq : 0 < q) : Rounds N q (significant N q) := by
  obtain ⟨hlow, hhigh⟩ := log_bounds hq
  have hunit := unit_pos N (Int.log 10 q)
  obtain ⟨hnear, heven⟩ :=
    roundEven_eq_iff.mp (rfl : roundEven (q / 10 ^ (Int.log 10 q - N)) = _)
  have hlow' : (10 : ℚ) ^ N ≤ q / 10 ^ (Int.log 10 q - N) := by
    rw [le_div_iff₀ hunit, ← zpow_eq_unit]
    exact hlow
  have hhigh' : q / 10 ^ (Int.log 10 q - N) < 10 ^ (N + 1) := by
    rw [div_lt_iff₀ hunit, pow_succ', mul_assoc, ← zpow_eq_unit, ← zpow_one_add₀ (by norm_num),
      add_comm]
    exact hhigh
  obtain ⟨hnear₁, hnear₂⟩ := abs_le.mp hnear
  rw [significant]
  split
  · next hcarry =>
    -- A unit is ten times as large, and `q` lies just below a power of ten.
    rw [hcarry] at hnear₂ hnear₁
    push_cast at hnear₁ hnear₂
    have hscale : q / 10 ^ (Int.log 10 q + 1 - N) = q / 10 ^ (Int.log 10 q - N) / 10 := by
      rw [ten_mul_zpow (x := Int.log 10 q - N) (by ring), div_div, mul_comm]
    have hdist : |q / 10 ^ (Int.log 10 q + 1 - N) - ((10 ^ N : ℤ) : ℚ)| ≤ 1 / 20 := by
      rw [hscale]
      push_cast
      rw [pow_succ] at hnear₁ hhigh'
      rw [abs_le]
      constructor <;> linarith
    refine ⟨le_refl _, ?_, le_trans hdist (by norm_num), fun htie => ?_, fun _ => ?_⟩
    · exact pow_lt_pow_right₀ (by norm_num) (Nat.lt_succ_self N)
    · rw [htie] at hdist
      norm_num at hdist
    · have hunit' := unit_pos N (Int.log 10 q + 1)
      have hlow' := neg_le_of_abs_le hdist
      rw [neg_le_sub_iff_le_add, ← sub_le_iff_le_add, le_div_iff₀ hunit', sub_mul] at hlow'
      push_cast at hlow'
      dsimp only
      rw [zpow_eq_unit N (Int.log 10 q + 1)]
      linarith
  · next hcarry =>
    refine ⟨?_, ?_, hnear, heven, fun hlt => absurd hlow (not_le.mpr hlt)⟩
    · have hge : (10 : ℚ) ^ N - 1 < roundEven (q / 10 ^ (Int.log 10 q - N)) := by linarith
      have hge' : (10 : ℤ) ^ N - 1 < roundEven (q / 10 ^ (Int.log 10 q - N)) := by
        exact_mod_cast hge
      dsimp only
      omega
    · have hle : (roundEven (q / 10 ^ (Int.log 10 q - N)) : ℚ) < 10 ^ (N + 1) + 1 := by linarith
      have hle' : roundEven (q / 10 ^ (Int.log 10 q - N)) < (10 : ℤ) ^ (N + 1) + 1 := by
        exact_mod_cast hle
      dsimp only
      omega

/-- Just below a power of ten the digits carry over to those of the power. -/
theorem below_power {x : ℤ} (hbelow : q < 10 ^ x) (hclose : 10 ^ x - q ≤ 10 ^ (x - N) / 20) :
    Int.log 10 q = x - 1 ∧ roundEven (q / 10 ^ (x - 1 - N)) = 10 ^ (N + 1) := by
  have hunit := unit_pos N (x - 1)
  have hpow : (0 : ℚ) < 10 ^ x := zpow_pos (by norm_num) x
  have hten : (10 : ℚ) ^ (x - N) = 10 * 10 ^ (x - 1 - N) := ten_mul_zpow (by ring)
  have hprev : (10 : ℚ) ^ (x - 1) ≤ q := by
    have hstep : (10 : ℚ) ^ x = 10 * 10 ^ (x - 1) := ten_mul_zpow (by ring)
    have hsmall : (10 : ℚ) ^ (x - N) ≤ 10 ^ x := zpow_le_zpow_right₀ (by norm_num) (by omega)
    linarith
  constructor
  · refine log_eq hprev ?_
    rw [sub_add_cancel]
    exact hbelow
  · have hquot : (10 : ℚ) ^ (N + 1) - q / 10 ^ (x - 1 - N) = (10 ^ x - q) / 10 ^ (x - 1 - N) := by
      rw [sub_div, zpow_eq_unit N x, hten, pow_succ, mul_div_assoc, mul_div_assoc,
        div_self hunit.ne', mul_one]
    rw [roundEven_eq_iff]
    push_cast
    rw [abs_sub_comm, hquot, abs_of_nonneg (div_nonneg (by linarith) hunit.le),
      div_le_iff₀ hunit]
    refine ⟨by linarith, fun _ => ?_⟩
    rw [pow_succ]
    omega

/-- **Nothing else rounds like that.** -/
theorem significant_eq {d : ℤ × ℤ} (hd : Rounds N q d) : significant N q = d := by
  obtain ⟨m, x⟩ := d
  obtain ⟨hlow, hhigh, hnear, heven, hbelow⟩ := hd
  dsimp only at hlow hhigh hnear heven hbelow
  have hunit := unit_pos N x
  obtain ⟨hnear₁, hnear₂⟩ := abs_le.mp hnear
  by_cases hx : (10 : ℚ) ^ x ≤ q
  · have hhigh' : (m : ℚ) ≤ 10 ^ (N + 1) - 1 := by
      have hle : m ≤ 10 ^ (N + 1) - 1 := by omega
      exact_mod_cast hle
    have hnext : q < 10 ^ (x + 1) := by
      rw [zpow_add_one₀ (by norm_num), zpow_eq_unit N, mul_right_comm, ← pow_succ,
        ← div_lt_iff₀ hunit]
      linarith
    have hround : roundEven (q / 10 ^ (x - N)) = m := roundEven_eq_iff.mpr ⟨hnear, heven⟩
    rw [significant, log_eq hx hnext, hround, if_neg (by omega)]
  · -- Below `10 ^ x` the digits are those of `10 ^ x` itself.
    rw [not_le] at hx
    obtain ⟨hdecade, hround⟩ := below_power hx (hbelow hx)
    have hm : m = 10 ^ N := by
      have hlt : q / 10 ^ (x - N) < 10 ^ N := by
        rw [div_lt_iff₀ hunit, ← zpow_eq_unit]
        exact hx
      have hlt' : (m : ℚ) < 10 ^ N + 1 := by linarith
      have hlt'' : m < 10 ^ N + 1 := by exact_mod_cast hlt'
      omega
    rw [significant, hdecade, hround, if_pos rfl, hm, sub_add_cancel]

/-- The distance to the rounded value, scaled back. -/
theorem abs_sub_value (N : ℕ) (q : ℚ) (d : ℤ × ℤ) :
    |q - value N d| = |q / 10 ^ (d.2 - N) - d.1| * 10 ^ (d.2 - N) := by
  have hunit := unit_pos N d.2
  rw [value, ← abs_of_pos hunit, ← abs_mul, abs_of_pos hunit, sub_mul,
    div_mul_cancel₀ _ hunit.ne']

/-- **What is no farther from the rounded value is rounded to it as well**, with some care below a
    power of ten. -/
theorem significant_stable {r : ℚ} (hq : 0 < q)
    (hcloser : |r - value N (significant N q)| ≤ |q - value N (significant N q)|)
    (hbelow : r < 10 ^ (significant N q).2 →
      10 ^ (significant N q).2 - r ≤ 10 ^ ((significant N q).2 - N) / 20) :
    significant N r = significant N q := by
  have hspec := significant_spec N hq
  have hunit := unit_pos N (significant N q).2
  rw [abs_sub_value, abs_sub_value] at hcloser
  have hnear := le_of_mul_le_mul_right hcloser hunit
  refine significant_eq
    ⟨hspec.low, hspec.high, le_trans hnear hspec.near, fun htie => ?_, hbelow⟩
  -- A tie for the closer one is a tie for the other.
  exact hspec.even (le_antisymm hspec.near (htie ▸ hnear))

theorem value_pos {d : ℤ × ℤ} (hd : 10 ^ N ≤ d.1) : 0 < value N d :=
  mul_pos (by exact_mod_cast lt_of_lt_of_le (pow_pos (by norm_num) N) hd) (unit_pos N d.2)

/-! ### Comparing a rounded value -/

/-- A value lies in the decade of its exponent. -/
theorem value_bounds {d : ℤ × ℤ} (hd : Rounds N q d) :
    (10 : ℚ) ^ d.2 ≤ value N d ∧ value N d < 10 ^ (d.2 + 1) := by
  have hunit := unit_pos N d.2
  have hlow : (10 : ℚ) ^ N ≤ d.1 := by exact_mod_cast hd.low
  have hhigh : (d.1 : ℚ) < 10 ^ (N + 1) := by exact_mod_cast hd.high
  rw [value]
  constructor
  · rw [zpow_eq_unit N]
    exact mul_le_mul_of_nonneg_right hlow hunit.le
  · rw [zpow_add_one₀ (by norm_num), zpow_eq_unit N d.2, mul_right_comm, ← pow_succ]
    exact mul_lt_mul_of_pos_right hhigh hunit

/-- What is rounded lies in the decade of its rounded value, or just below it. -/
theorem mem_decade {d : ℤ × ℤ} (hd : Rounds N q d) :
    10 ^ d.2 - 10 ^ (d.2 - N) / 20 ≤ q ∧ q ≤ 10 ^ (d.2 + 1) - 10 ^ (d.2 - N) / 2 := by
  have hunit := unit_pos N d.2
  constructor
  · by_cases hbelow : q < 10 ^ d.2
    · have hgap := hd.below hbelow
      linarith
    · linarith
  · have hhigh : (d.1 : ℚ) ≤ 10 ^ (N + 1) - 1 := by
      have hle : d.1 ≤ 10 ^ (N + 1) - 1 := by
        have hlt := hd.high
        omega
      exact_mod_cast hle
    have hnear := le_of_abs_le hd.near
    have hq : q / 10 ^ (d.2 - N) ≤ 10 ^ (N + 1) - 1 / 2 := by linarith
    rw [div_le_iff₀ hunit, sub_mul, pow_succ, mul_right_comm, ← zpow_eq_unit,
      ← zpow_add_one₀ (by norm_num)] at hq
    linarith

/-- What is half a step below `b`, or over that, has at least the digits `b`; at the half, where `b`
    is even. -/
theorem Rounds.le_digits {d : ℤ × ℤ} (hd : Rounds N q d) {b : ℤ}
    (h : (b : ℚ) - 1 / 2 < q / 10 ^ (d.2 - N) ∨
      b % 2 = 0 ∧ (b : ℚ) - 1 / 2 = q / 10 ^ (d.2 - N)) : b ≤ d.1 := by
  have hge : (b : ℚ) - 1 / 2 ≤ q / 10 ^ (d.2 - N) := h.elim le_of_lt fun h => le_of_eq h.2
  have hnear := le_of_abs_le hd.near
  have hcast : (b : ℚ) - 1 ≤ d.1 := by linarith
  have hcast' : b - 1 ≤ d.1 := by exact_mod_cast hcast
  by_contra hlt
  have hprev : d.1 = b - 1 := by omega
  have hprev' : (d.1 : ℚ) = b - 1 := by exact_mod_cast hprev
  -- One below: then it is a tie, and the even one is taken.
  have htie : q / 10 ^ (d.2 - N) - d.1 = 1 / 2 := by
    rw [hprev'] at hnear ⊢
    linarith
  have heven := hd.even (by rw [htie]; norm_num)
  rcases h with h | ⟨hb, -⟩
  · rw [hprev'] at htie
    linarith
  · omega

/-- What is half a step above `b`, or under that, has at most the digits `b`; at the half, where `b`
    is even. -/
theorem Rounds.digits_le {d : ℤ × ℤ} (hd : Rounds N q d) {b : ℤ}
    (h : q / 10 ^ (d.2 - N) < (b : ℚ) + 1 / 2 ∨
      b % 2 = 0 ∧ q / 10 ^ (d.2 - N) = (b : ℚ) + 1 / 2) : d.1 ≤ b := by
  have hle : q / 10 ^ (d.2 - N) ≤ (b : ℚ) + 1 / 2 := h.elim le_of_lt fun h => le_of_eq h.2
  have hnear := neg_le_of_abs_le hd.near
  have hcast : (d.1 : ℚ) ≤ b + 1 := by linarith
  have hcast' : d.1 ≤ b + 1 := by exact_mod_cast hcast
  by_contra hlt
  have hnext : d.1 = b + 1 := by omega
  have hnext' : (d.1 : ℚ) = b + 1 := by exact_mod_cast hnext
  have htie : q / 10 ^ (d.2 - N) - d.1 = -(1 / 2) := by
    rw [hnext'] at hnear ⊢
    linarith
  have heven := hd.even (by rw [htie]; norm_num)
  rcases h with h | ⟨hb, -⟩
  · rw [hnext'] at htie
    linarith
  · omega

section Thresholds

variable {b x : ℤ}

/-- The rounded value of what is over a half step is at least the next step; at the half, where that
    is even. -/
theorem le_value (hq : 0 < q) (hlow : 10 ^ N < b)
    (h : ((b : ℚ) - 1 / 2) * 10 ^ (x - N) < q ∨
      b % 2 = 0 ∧ ((b : ℚ) - 1 / 2) * 10 ^ (x - N) = q) (hhigh : b ≤ 10 ^ (N + 1)) :
    b * 10 ^ (x - N) ≤ value N (significant N q) := by
  have hspec := significant_spec N hq
  generalize significant N q = d at hspec ⊢
  have hunit := unit_pos N x
  have hle : ((b : ℚ) - 1 / 2) * 10 ^ (x - N) ≤ q := h.elim le_of_lt fun h => le_of_eq h.2
  rcases lt_trichotomy d.2 x with hlt | rfl | hgt
  · -- A smaller exponent: too small a number.
    exfalso
    have hdecade := (mem_decade hspec).2
    have hpos := unit_pos N d.2
    have hpow : (10 : ℚ) ^ (d.2 + 1) ≤ 10 ^ x := zpow_le_zpow_right₀ (by norm_num) (by omega)
    have hb : (10 : ℚ) ^ N + 1 ≤ b := by exact_mod_cast hlow
    have hmul := mul_le_mul_of_nonneg_right hb hunit.le
    rw [add_mul, ← zpow_eq_unit] at hmul
    linarith
  · have hd : b ≤ d.1 := by
      refine hspec.le_digits ?_
      rw [lt_div_iff₀ hunit, eq_div_iff hunit.ne']
      exact h
    rw [value]
    exact mul_le_mul_of_nonneg_right (by exact_mod_cast hd) hunit.le
  · have hb : (b : ℚ) ≤ 10 ^ (N + 1) := by exact_mod_cast hhigh
    calc (b : ℚ) * 10 ^ (x - N) ≤ 10 ^ (N + 1) * 10 ^ (x - N) :=
          mul_le_mul_of_nonneg_right hb hunit.le
      _ = 10 ^ (x + 1) := by
          rw [zpow_add_one₀ (by norm_num), zpow_eq_unit N x, pow_succ, mul_right_comm]
      _ ≤ 10 ^ d.2 := zpow_le_zpow_right₀ (by norm_num) (by omega)
      _ ≤ value N d := (value_bounds hspec).1

/-- The rounded value of what is under a half step is at most the step before; at the half, where
    that is even. -/
theorem value_le (hq : 0 < q) (hlow : 10 ^ N ≤ b)
    (h : q < ((b : ℚ) + 1 / 2) * 10 ^ (x - N) ∨
      b % 2 = 0 ∧ q = ((b : ℚ) + 1 / 2) * 10 ^ (x - N)) (hhigh : b < 10 ^ (N + 1)) :
    value N (significant N q) ≤ b * 10 ^ (x - N) := by
  have hspec := significant_spec N hq
  generalize significant N q = d at hspec ⊢
  have hunit := unit_pos N x
  have hle : q ≤ ((b : ℚ) + 1 / 2) * 10 ^ (x - N) := h.elim le_of_lt fun h => le_of_eq h.2
  rcases lt_trichotomy d.2 x with hlt | rfl | hgt
  · have hb : (10 : ℚ) ^ N ≤ b := by exact_mod_cast hlow
    calc value N d ≤ 10 ^ (d.2 + 1) := (value_bounds hspec).2.le
      _ ≤ 10 ^ x := zpow_le_zpow_right₀ (by norm_num) (by omega)
      _ = 10 ^ N * 10 ^ (x - N) := zpow_eq_unit N x
      _ ≤ b * 10 ^ (x - N) := mul_le_mul_of_nonneg_right hb hunit.le
  · have hd : d.1 ≤ b := by
      refine hspec.digits_le ?_
      rw [div_lt_iff₀ hunit, div_eq_iff hunit.ne']
      exact h
    rw [value]
    exact mul_le_mul_of_nonneg_right (by exact_mod_cast hd) hunit.le
  · -- A larger exponent: too large a number.
    exfalso
    have hdecade := (mem_decade hspec).1
    have hstep : 10 * (10 : ℚ) ^ (x - N) ≤ 10 ^ (d.2 - N) := by
      rw [← ten_mul_zpow (y := x - N + 1) rfl]
      exact zpow_le_zpow_right₀ (by norm_num) (by omega)
    have hge : ((10 : ℚ) ^ (N + 1) - 1 / 2) * 10 ^ (x - N) ≤ q := by
      have hone : (1 : ℚ) ≤ 10 ^ N := one_le_pow₀ (by norm_num)
      have hmul := mul_le_mul_of_nonneg_left hstep (by linarith : 0 ≤ (10 : ℚ) ^ N - 1 / 20)
      rw [zpow_eq_unit N d.2] at hdecade
      rw [pow_succ]
      linarith
    have hten : (10 : ℤ) ^ (N + 1) = 2 * (5 * 10 ^ N) := by ring
    -- An even step below the last one leaves room.
    have hstrict : ((b : ℚ) + 1 / 2) * 10 ^ (x - N) ≤ (10 ^ (N + 1) - 1 / 2) * 10 ^ (x - N) ∧
        (b % 2 = 0 → ((b : ℚ) + 1 / 2) * 10 ^ (x - N) < (10 ^ (N + 1) - 1 / 2) * 10 ^ (x - N)) := by
      constructor
      · have hb : (b : ℚ) ≤ 10 ^ (N + 1) - 1 := by
          have hle' : b ≤ 10 ^ (N + 1) - 1 := by omega
          exact_mod_cast hle'
        exact mul_le_mul_of_nonneg_right (by linarith) hunit.le
      · intro heven
        have hb : (b : ℚ) ≤ 10 ^ (N + 1) - 2 := by
          have hle' : b ≤ 10 ^ (N + 1) - 2 := by omega
          exact_mod_cast hle'
        exact mul_lt_mul_of_pos_right (by linarith) hunit
    rcases h with h | ⟨heven, heq⟩
    · linarith [hstrict.1]
    · linarith [hstrict.2 heven]

end Thresholds

/-! ### Ten digits of a double -/

/-- The smallest double among the powers of ten. -/
theorem subnormal_bounds :
    (10 : ℚ) ^ (-324 : ℤ) < 2 ^ (-1074 : ℤ) ∧ (2 : ℚ) ^ (-1074 : ℤ) ≤ 10 ^ (-323 : ℤ) := by
  have hlow : (2 : ℕ) ^ 1074 < 10 ^ 324 := by decide +kernel
  have hhigh : (10 : ℕ) ^ 323 ≤ 2 ^ 1074 := by decide +kernel
  have hten : ∀ e : ℤ, (0 : ℚ) < 10 ^ e := fun e => zpow_pos (by norm_num) e
  have htwo : (0 : ℚ) < 2 ^ (1074 : ℤ) := zpow_pos (by norm_num) _
  rw [zpow_neg, zpow_neg, zpow_neg]
  constructor
  · exact inv_strictAnti₀ htwo (by exact_mod_cast hlow)
  · exact inv_anti₀ (hten 323) (by exact_mod_cast hhigh)

/-- How far `10 ^ -314` is from the multiple of the last bit below it. -/
theorem last_bit_below_power :
    (2024022533 : ℤ) * (2 : ℚ) ^ (-1074 : ℤ) ≤ 10 ^ (-314 : ℤ) ∧
      (10 : ℚ) ^ (-314 : ℤ) - (2024022533 : ℤ) * 2 ^ (-1074 : ℤ) ≤ 10 ^ (-323 : ℤ) / 20 := by
  have hlow : (2024022533 * 10 ^ 314 : ℕ) ≤ 2 ^ 1074 := by decide +kernel
  have hhigh : (19999999999 * 2 ^ 1074 : ℕ) ≤ 20000000000 * 2024022533 * 10 ^ 314 := by
    decide +kernel
  have hpow : (10 : ℚ) ^ (-323 : ℤ) = 10 ^ (-314 : ℤ) / 10 ^ 9 := by
    rw [show (-323 : ℤ) = -314 - 9 by norm_num, zpow_sub₀ (by norm_num)]
    norm_num
  rw [hpow, zpow_neg, zpow_neg]
  have hten : (0 : ℚ) < 10 ^ (314 : ℤ) := zpow_pos (by norm_num) _
  have htwo : (0 : ℚ) < 2 ^ (1074 : ℤ) := zpow_pos (by norm_num) _
  have hlow' : (2024022533 : ℚ) * 10 ^ (314 : ℤ) ≤ 2 ^ (1074 : ℤ) := by exact_mod_cast hlow
  have hhigh' : (19999999999 : ℚ) * 2 ^ (1074 : ℤ) ≤
      20000000000 * 2024022533 * 10 ^ (314 : ℤ) := by exact_mod_cast hhigh
  generalize (10 : ℚ) ^ (314 : ℤ) = B at *
  generalize (2 : ℚ) ^ (1074 : ℤ) = A at *
  push_cast
  constructor
  · rw [← div_eq_mul_inv, ← one_div, div_le_div_iff₀ htwo hten]
    linarith
  · have hA : (2024022533 : ℚ) * A⁻¹ = 2024022533 * B * (A * B)⁻¹ := by
      rw [mul_inv]
      field_simp
    have hB : B⁻¹ = A * (A * B)⁻¹ := by
      rw [mul_inv]
      field_simp
    have hAB : (0 : ℚ) < (A * B)⁻¹ := inv_pos.mpr (mul_pos htwo hten)
    have hmul := mul_le_mul_of_nonneg_right hhigh' hAB.le
    rw [hA, hB]
    linarith

/-- The one power of ten below the normal doubles to which ten digits of a double can round up. -/
theorem nearest_below_power {r : ℚ} (hr : r = nearest (10 ^ (-314 : ℤ)))
    (hlt : r < 10 ^ (-314 : ℤ)) : 10 ^ (-314 : ℤ) - r ≤ (10 : ℚ) ^ (-323 : ℤ) / 20 := by
  obtain ⟨hbelow, hgap⟩ := last_bit_below_power
  have hgrid : OnGrid ((2024022533 : ℤ) * 2 ^ (-1074 : ℤ)) :=
    ⟨2024022533, -1074, by norm_num, le_refl _, rfl⟩
  have hclose := nearest_closest hgrid (10 ^ (-314 : ℤ))
  rw [← hr, abs_sub_comm, abs_of_pos (by linarith), abs_sub_comm, abs_of_nonneg (by linarith)]
    at hclose
  exact le_trans hclose hgap

/-- The double nearest to a power of ten is close below it, if ten digits of another double round to
    that power. -/
theorem nearest_power_gap {n : ℚ} {x : ℤ} (hn : OnGrid n) (hne : nearest (10 ^ x) ≠ n)
    (hnear : |n - 10 ^ x| ≤ 10 ^ (x - 9) / 2) (hlt : nearest (10 ^ x) < 10 ^ x) :
    10 ^ x - nearest (10 ^ x) ≤ (10 : ℚ) ^ (x - 9) / 20 := by
  have hpow : (0 : ℚ) < 10 ^ x := zpow_pos (by norm_num) x
  have hclose := nearest_closest hn (10 ^ x)
  have hhalf := abs_nearest_sub_le_half (10 ^ x)
  rw [abs_sub_comm, abs_of_pos (sub_pos.mpr hlt)] at hhalf
  obtain ⟨hsmall, hlarge⟩ := subnormal_bounds
  -- Two doubles lie within half a unit of the power, so a unit is at least the smallest double.
  have hunit : (2 : ℚ) ^ (-1074 : ℤ) ≤ 10 ^ (x - 9) := by
    have hgap := multiple_gap (nearest_multiple (10 ^ x)) hn.multiple hne
    have htriangle := abs_sub_le (nearest (10 ^ x)) (10 ^ x) n
    rw [abs_sub_comm (10 ^ x) n] at htriangle
    linarith
  have hx : -314 ≤ x := by
    by_contra hlow
    have hle : (10 : ℚ) ^ (x - 9) ≤ 10 ^ (-324 : ℤ) :=
      zpow_le_zpow_right₀ (by norm_num) (by omega)
    exact absurd (le_trans hunit hle) (not_le.mpr hsmall)
  rcases le_or_gt (Int.log 2 |(10 : ℚ) ^ x| - 52) (-1074) with hsub | hnormal
  · -- Below the normal doubles the last bit is the smallest double.
    have hulp : ulp (10 ^ x) = -1074 := by
      rw [ulp]
      omega
    rcases eq_or_lt_of_le hx with rfl | hx'
    · exact nearest_below_power rfl hlt
    · have hten : (10 : ℚ) ^ (-323 : ℤ) ≤ 10 ^ (x - 10) :=
        zpow_le_zpow_right₀ (by norm_num) (by omega)
      have hstep : (10 : ℚ) ^ (x - 9) = 10 * 10 ^ (x - 10) := ten_mul_zpow (by ring)
      rw [hulp] at hhalf
      rw [hstep]
      linarith
  · -- Above, the last bit is the 52nd after the first.
    have hulp : (2 : ℚ) ^ ulp (10 ^ x) ≤ 10 ^ x / 2 ^ 52 := by
      have hlog : (2 : ℚ) ^ Int.log 2 |(10 : ℚ) ^ x| ≤ |(10 : ℚ) ^ x| := by
        exact_mod_cast Int.zpow_log_le_self (b := 2) (by norm_num) (abs_pos.mpr hpow.ne')
      have hmax : ulp (10 ^ x) = Int.log 2 |(10 : ℚ) ^ x| - 52 := by
        rw [ulp]
        omega
      rw [hmax, zpow_sub₀ (by norm_num)]
      rw [abs_of_pos hpow] at hlog ⊢
      exact div_le_div_of_nonneg_right hlog (by norm_num)
    have hunit9 : (10 : ℚ) ^ x = 10 ^ 9 * 10 ^ (x - 9) := zpow_eq_unit 9 x
    rw [hunit9] at hulp hhalf
    rw [hunit9]
    norm_num at hulp hhalf ⊢
    linarith

/-- **Ten digits of a double are those of the double nearest to them.** -/
theorem significant_nearest {n : ℚ} (hn : OnGrid n) (hpos : 0 < n) :
    significant 9 (nearest (value 9 (significant 9 n))) = significant 9 n := by
  have hspec := significant_spec 9 hpos
  by_cases hsame : nearest (value 9 (significant 9 n)) = n
  · rw [hsame]
  refine significant_stable hpos (nearest_closest hn _) fun hbelow => ?_
  have hclose := nearest_closest hn (value 9 (significant 9 n))
  have hnear : |n - value 9 (significant 9 n)| ≤ 10 ^ ((significant 9 n).2 - 9) / 2 := by
    rw [abs_sub_value]
    have hmul := mul_le_mul_of_nonneg_right hspec.near (unit_pos 9 (significant 9 n).2).le
    push_cast at hmul ⊢
    linarith
  -- Only what rounds to the power itself has its nearest double below it.
  have hpower : value 9 (significant 9 n) = 10 ^ (significant 9 n).2 := by
    have hunit := unit_pos 9 (significant 9 n).2
    have hlow := neg_le_of_abs_le (le_trans hclose hnear)
    have hm : (significant 9 n).1 = 10 ^ 9 := by
      have hlt : (((significant 9 n).1 : ℤ) : ℚ) < 10 ^ 9 + 1 := by
        rw [zpow_eq_unit 9 (significant 9 n).2] at hbelow
        rw [← mul_lt_mul_iff_of_pos_right hunit]
        rw [value] at hlow hbelow
        push_cast at hlow hbelow hunit ⊢
        linarith
      have hlt' : (significant 9 n).1 < 10 ^ 9 + 1 := by exact_mod_cast hlt
      have hge := hspec.low
      omega
    rw [value, hm, zpow_eq_unit 9 (significant 9 n).2]
    norm_num
  rw [hpower] at hnear hsame hbelow ⊢
  exact nearest_power_gap hn hsame hnear hbelow

end DecimalRounding
