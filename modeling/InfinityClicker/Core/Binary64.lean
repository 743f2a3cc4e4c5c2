import Mathlib.Data.Int.Log
import Mathlib.Data.Rat.Floor
import Mathlib.Tactic.Linarith
import Mathlib.Tactic.NormNum

namespace Binary64

/-!
# Binary64 numbers by their values

A finite double is the rational it stands for; the two zeros are one.

* `Representable` — the values of finite doubles;
* `nearest` — the value a correctly rounded conversion gives, ties to even;
* `nearest_of_representable` — what is representable is its own nearest value;
* `roundEven_eq_iff` — the nearest integer, by its distance;
* `nearest_closest` — no double is nearer than the nearest one;
* `onGrid_nearest`, `nearest_mono` — rounding ends on a double and keeps the order.
-/

/-- The values of finite doubles: `m * 2 ^ e` with a mantissa of 53 bits. -/
def Representable (q : ℚ) : Prop :=
  ∃ m e : ℤ, |m| < 2 ^ 53 ∧ -1074 ≤ e ∧ e ≤ 971 ∧ q = m * 2 ^ e

/-- The nearest integer, the even one of two. -/
def roundEven (q : ℚ) : ℤ :=
  let n := ⌊q⌋
  if q - n < 1 / 2 then n
  else if 1 / 2 < q - n then n + 1
  else if n % 2 = 0 then n
  else n + 1

/-- The exponent of the last bit of a double next to `q`. -/
def ulp (q : ℚ) : ℤ := max (-1074) (Int.log 2 |q| - 52)

/-- The value nearest to `q` with the exponents of doubles unbounded above. -/
def nearest (q : ℚ) : ℚ := roundEven (q / 2 ^ ulp q) * 2 ^ ulp q

/-- A conversion of `q` does not overflow to an infinity. -/
def IsFinite (q : ℚ) : Prop := |nearest q| < 2 ^ 1024

instance (q : ℚ) : Decidable (IsFinite q) := inferInstanceAs (Decidable (_ < _))

/-- Integers are rounded to themselves. -/
theorem roundEven_intCast (z : ℤ) : roundEven z = z := by
  simp [roundEven]

/-- Between two powers of two the last bit is that of the lower one. -/
theorem ulp_of_mem {q : ℚ} {e : ℤ} (hlow : (2 : ℚ) ^ e ≤ |q|) (hhigh : |q| < (2 : ℚ) ^ (e + 1)) :
    ulp q = max (-1074) (e - 52) := by
  have hpos : 0 < |q| := lt_of_lt_of_le (zpow_pos (by norm_num) e) hlow
  have hge := (Int.zpow_le_iff_le_log (by norm_num : 1 < 2) hpos).mp hlow
  have hlt := (Int.lt_zpow_iff_log_lt (by norm_num : 1 < 2) hpos).mp hhigh
  have hlog : Int.log 2 |q| = e := by omega
  rw [ulp, hlog]

/-- A representable value's own exponent is not below that of its last bit. -/
theorem ulp_le {q : ℚ} {m e : ℤ} (hm : |m| < 2 ^ 53) (he : -1074 ≤ e) (hq : q = m * 2 ^ e)
    (hne : q ≠ 0) : ulp q ≤ e := by
  have hpow : (0 : ℚ) < 2 ^ e := zpow_pos (by norm_num) e
  have hlt : |q| < (2 : ℕ) ^ (53 + e) := by
    have hcast : (|m| : ℚ) < 2 ^ 53 := by exact_mod_cast hm
    rw [hq, abs_mul, abs_of_pos hpow, zpow_add₀ (by norm_num)]
    push_cast
    exact mul_lt_mul_of_pos_right (by exact_mod_cast hcast) hpow
  have hlog := (Int.lt_zpow_iff_log_lt (by norm_num : 1 < 2) (abs_pos.mpr hne)).mp hlt
  exact max_le he (by omega)

/-- **What is representable is its own nearest value.** -/
theorem nearest_of_representable {q : ℚ} (h : Representable q) : nearest q = q := by
  obtain ⟨m, e, hm, he, -, hq⟩ := h
  by_cases hne : q = 0
  · rw [nearest, hne, zero_div]
    have hzero := roundEven_intCast 0
    simp only [Int.cast_zero] at hzero
    rw [hzero]
    simp
  · have hulp := ulp_le hm he hq hne
    -- Scaled to its last bit the value is an integer.
    have hscaled : q / 2 ^ ulp q = ((m * 2 ^ (e - ulp q).toNat : ℤ) : ℚ) := by
      have hexp : ((e - ulp q).toNat : ℤ) = e - ulp q := by omega
      push_cast
      rw [← zpow_natCast, hexp, zpow_sub₀ (by norm_num), ← mul_div_assoc, ← hq]
    rw [nearest, hscaled, roundEven_intCast, ← hscaled]
    exact div_mul_cancel₀ q (zpow_ne_zero _ (by norm_num))

/-- Integers below `2 ^ 53` are representable. -/
theorem representable_intCast {z : ℤ} (h : |z| < 2 ^ 53) : Representable z :=
  ⟨z, 0, h, by norm_num, by norm_num, by simp⟩

/-- A double with a fraction has a bit for it. -/
theorem integral_or_lt {q : ℚ} (h : Representable q) : (⌊q⌋ : ℚ) = q ∨ |q| < 2 ^ 52 := by
  obtain ⟨m, e, hm, -, -, hq⟩ := h
  rcases le_or_gt 0 e with he | he
  · left
    have hint : q = ((m * 2 ^ e.toNat : ℤ) : ℚ) := by
      push_cast
      rw [hq, ← zpow_natCast, Int.toNat_of_nonneg he]
    rw [hint, Int.floor_intCast]
  · right
    have hcast : (|m| : ℚ) < 2 ^ 53 := by exact_mod_cast hm
    have hpow : (2 : ℚ) ^ e ≤ 2 ^ (-1 : ℤ) := zpow_le_zpow_right₀ (by norm_num) (by omega)
    have hpos : (0 : ℚ) < 2 ^ (-1 : ℤ) := by norm_num
    have hpos' : (0 : ℚ) < 2 ^ e := zpow_pos (by norm_num) e
    calc |q| = |(m : ℚ)| * 2 ^ e := by rw [hq, abs_mul, abs_of_pos hpos']
      _ ≤ |(m : ℚ)| * 2 ^ (-1 : ℤ) := mul_le_mul_of_nonneg_left hpow (abs_nonneg _)
      _ < 2 ^ 53 * 2 ^ (-1 : ℤ) := mul_lt_mul_of_pos_right (by exact_mod_cast hcast) hpos
      _ = 2 ^ 52 := by norm_num

/-- Small integers are `double`s. -/
theorem nearest_intCast {z : ℤ} (h : |z| < 2 ^ 53) : nearest z = z :=
  nearest_of_representable (representable_intCast h)

/-- Small integers are finite. -/
theorem isFinite_intCast {z : ℤ} (h : |z| < 2 ^ 53) : IsFinite z := by
  have hcast : (|z| : ℚ) < 2 ^ 53 := by exact_mod_cast h
  have hpow : (2 : ℚ) ^ 53 < 2 ^ 1024 := pow_lt_pow_right₀ (by norm_num) (by norm_num)
  rw [IsFinite, nearest_intCast h]
  exact lt_trans (by exact_mod_cast hcast) hpow

/-! ### How near the nearest is -/

/-- **The nearest integer** is within a half, and even at a half. -/
theorem roundEven_eq_iff {q : ℚ} {k : ℤ} :
    roundEven q = k ↔ |q - k| ≤ 1 / 2 ∧ (|q - k| = 1 / 2 → k % 2 = 0) := by
  have hlow := Int.floor_le q
  have hhigh := Int.lt_floor_add_one q
  constructor
  · intro h
    simp only [roundEven] at h
    split at h
    · next hlt =>
      rw [← h, abs_of_nonneg (by linarith)]
      exact ⟨le_of_lt hlt, fun heq => absurd hlt (by linarith)⟩
    split at h
    · next hgt =>
      rw [← h, abs_of_nonpos (by push_cast; linarith)]
      push_cast
      exact ⟨by linarith, fun heq => absurd hgt (by linarith)⟩
    next hge hle =>
    have hhalf : q - ⌊q⌋ = 1 / 2 := by linarith
    split at h
    · next heven =>
      rw [← h, hhalf]
      exact ⟨by norm_num, fun _ => heven⟩
    · next hodd =>
      rw [← h, abs_of_nonpos (by push_cast; linarith)]
      push_cast
      exact ⟨by linarith, fun _ => by omega⟩
  · rintro ⟨hle, heven⟩
    obtain ⟨hle₁, hle₂⟩ := abs_le.mp hle
    -- The integers within a half are the floor and the one above it.
    have hk : k = ⌊q⌋ ∨ k = ⌊q⌋ + 1 := by
      have h₁ : (k : ℚ) < ⌊q⌋ + 2 := by linarith
      have h₂ : (⌊q⌋ : ℚ) - 1 < k := by linarith
      have h₁' : k < ⌊q⌋ + 2 := by exact_mod_cast h₁
      have h₂' : ⌊q⌋ - 1 < k := by exact_mod_cast h₂
      omega
    simp only [roundEven]
    rcases hk with rfl | rfl
    · rw [abs_of_nonneg (by linarith)] at hle heven
      split
      · rfl
      · next hge =>
        have hhalf : q - ⌊q⌋ = 1 / 2 := by linarith
        rw [if_neg (by linarith), if_pos (heven hhalf)]
    · push_cast at hle hle₁ hle₂ heven
      rw [abs_of_nonpos (by linarith)] at heven
      rw [if_neg (by linarith)]
      split
      · rfl
      · next hgt =>
        have hhalf : -(q - (⌊q⌋ + 1)) = 1 / 2 := by linarith
        have hodd := heven hhalf
        rw [if_neg (by omega)]

/-- The sign goes through rounding to the nearest integer. -/
theorem roundEven_neg (q : ℚ) : roundEven (-q) = -roundEven q := by
  obtain ⟨hle, heven⟩ := roundEven_eq_iff.mp (rfl : roundEven q = _)
  have hdist : |-q - ((-roundEven q : ℤ) : ℚ)| = |q - roundEven q| := by
    rw [← abs_neg]
    congr 1
    push_cast
    ring
  rw [roundEven_eq_iff, hdist]
  refine ⟨hle, fun htie => ?_⟩
  have hzero := heven htie
  omega

/-- It goes through rounding to a `double`. -/
theorem nearest_neg (q : ℚ) : nearest (-q) = -nearest q := by
  have hulp : ulp (-q) = ulp q := by rw [ulp, ulp, abs_neg]
  rw [nearest, nearest, hulp, neg_div, roundEven_neg]
  push_cast
  ring

/-- No integer is nearer. -/
theorem abs_roundEven_sub_le (q : ℚ) (k : ℤ) : |roundEven q - q| ≤ |k - q| := by
  obtain ⟨hle, -⟩ := roundEven_eq_iff.mp (rfl : roundEven q = roundEven q)
  rw [abs_sub_comm] at hle
  by_cases hk : k = roundEven q
  · rw [hk]
  · have hstep : (1 : ℚ) ≤ |((k - roundEven q : ℤ) : ℚ)| := by
      exact_mod_cast Int.one_le_abs (by omega)
    push_cast at hstep
    have htriangle := abs_sub_le (k : ℚ) q (roundEven q)
    rw [abs_sub_comm q] at htriangle
    linarith

/-- A multiple of the last bit is not nearer. -/
theorem abs_nearest_sub_le (q : ℚ) (k : ℤ) : |nearest q - q| ≤ |k * 2 ^ ulp q - q| := by
  have hpow : (0 : ℚ) < 2 ^ ulp q := zpow_pos (by norm_num) _
  have hscale : ∀ z : ℤ, |z * 2 ^ ulp q - q| = |z - q / 2 ^ ulp q| * 2 ^ ulp q := by
    intro z
    rw [← abs_of_pos hpow, ← abs_mul, abs_of_pos hpow, sub_mul, div_mul_cancel₀ _ hpow.ne']
  rw [nearest, hscale, hscale]
  exact mul_le_mul_of_nonneg_right (abs_roundEven_sub_le _ _) hpow.le

/-- A `double` is half a unit away at most. -/
theorem abs_nearest_sub_le_half (q : ℚ) : |nearest q - q| ≤ 2 ^ ulp q / 2 := by
  have hpow : (0 : ℚ) < 2 ^ ulp q := zpow_pos (by norm_num) _
  obtain ⟨hle, -⟩ := roundEven_eq_iff.mp (rfl : roundEven (q / 2 ^ ulp q) = _)
  have hscale : nearest q - q = -((q / 2 ^ ulp q - roundEven (q / 2 ^ ulp q)) * 2 ^ ulp q) := by
    rw [nearest, sub_mul, div_mul_cancel₀ _ hpow.ne']
    ring
  rw [hscale, abs_neg, abs_mul, abs_of_pos hpow]
  calc |q / 2 ^ ulp q - roundEven (q / 2 ^ ulp q)| * 2 ^ ulp q
      ≤ 1 / 2 * 2 ^ ulp q := mul_le_mul_of_nonneg_right hle hpow.le
    _ = 2 ^ ulp q / 2 := by ring

/-- The values of doubles with the exponents unbounded above. -/
def OnGrid (q : ℚ) : Prop := ∃ m e : ℤ, |m| < 2 ^ 53 ∧ -1074 ≤ e ∧ q = m * 2 ^ e

/-- What a `double` can be is on the grid. -/
theorem Representable.onGrid {q : ℚ} (h : Representable q) : OnGrid q := by
  obtain ⟨m, e, hm, he, -, hq⟩ := h
  exact ⟨m, e, hm, he, hq⟩

/-- A grid value of a larger exponent is a multiple of a smaller power. -/
theorem multiple_of_le {q : ℚ} {m e u : ℤ} (hq : q = m * 2 ^ e) (hu : u ≤ e) :
    ∃ k : ℤ, q = k * 2 ^ u := by
  refine ⟨m * 2 ^ (e - u).toNat, ?_⟩
  have hexp : ((e - u).toNat : ℤ) = e - u := by omega
  push_cast
  rw [hq, mul_assoc, ← zpow_natCast, hexp, ← zpow_add₀ (by norm_num)]
  congr 2
  omega

/-- **No double is nearer than the nearest one.** -/
theorem nearest_closest {n : ℚ} (hn : OnGrid n) (q : ℚ) : |nearest q - q| ≤ |n - q| := by
  obtain ⟨m, e, hm, he, hme⟩ := hn
  by_cases hq : q = 0
  · have hzero : nearest 0 = 0 := by
      have hint := nearest_intCast (z := 0) (by norm_num)
      rwa [Int.cast_zero] at hint
    rw [hq, hzero, sub_zero, abs_zero]
    exact abs_nonneg _
  by_cases hu : ulp q ≤ e
  · obtain ⟨k, hk⟩ := multiple_of_le hme hu
    rw [hk]
    exact abs_nearest_sub_le q k
  · -- A value with a smaller last bit lies below the lower end of the binade of `q`.
    have hulp : ulp q = Int.log 2 |q| - 52 := by
      rw [ulp] at hu ⊢
      omega
    have hpos := abs_pos.mpr hq
    have hlow : (2 : ℚ) ^ Int.log 2 |q| ≤ |q| := by
      exact_mod_cast Int.zpow_log_le_self (b := 2) (by norm_num) hpos
    have hsmall : |n| ≤ 2 ^ Int.log 2 |q| := by
      have hpow : (0 : ℚ) < 2 ^ e := zpow_pos (by norm_num) e
      have hcast : (|m| : ℚ) ≤ 2 ^ (53 : ℤ) := by exact_mod_cast hm.le
      calc |n| = |(m : ℚ)| * 2 ^ e := by rw [hme, abs_mul, abs_of_pos hpow]
        _ ≤ 2 ^ (53 : ℤ) * 2 ^ e := mul_le_mul_of_nonneg_right hcast hpow.le
        _ = 2 ^ (53 + e) := by rw [← zpow_add₀ (by norm_num)]
        _ ≤ 2 ^ Int.log 2 |q| := zpow_le_zpow_right₀ (by norm_num) (by omega)
    -- That end, with the sign of `q`, is a multiple of the last bit.
    have hend : ((2 ^ 52 : ℤ) : ℚ) * 2 ^ ulp q = 2 ^ Int.log 2 |q| := by
      have hcast : ((2 ^ 52 : ℤ) : ℚ) = 2 ^ (52 : ℤ) := by norm_num
      rw [hcast, ← zpow_add₀ (by norm_num), hulp]
      congr 1
      ring
    rcases lt_or_gt_of_ne hq with hneg | hpos'
    · rw [abs_of_neg hneg] at hlow hsmall hend
      have hcast : ((-2 ^ 52 : ℤ) : ℚ) * 2 ^ ulp q = -2 ^ Int.log 2 (-q) := by
        rw [← hend]
        push_cast
        ring
      calc |nearest q - q| ≤ |((-2 ^ 52 : ℤ) : ℚ) * 2 ^ ulp q - q| := abs_nearest_sub_le q _
        _ = -2 ^ Int.log 2 (-q) - q := by rw [hcast, abs_of_nonneg (by linarith)]
        _ ≤ n - q := sub_le_sub_right (neg_le_of_abs_le hsmall) q
        _ ≤ |n - q| := le_abs_self _
    · rw [abs_of_pos hpos'] at hlow hsmall hend
      calc |nearest q - q| ≤ |((2 ^ 52 : ℤ) : ℚ) * 2 ^ ulp q - q| := abs_nearest_sub_le q _
        _ = q - 2 ^ Int.log 2 q := by rw [hend, abs_of_nonpos (by linarith), neg_sub]
        _ ≤ q - n := sub_le_sub_left (le_of_abs_le hsmall) q
        _ ≤ |n - q| := by rw [abs_sub_comm]; exact le_abs_self _

/-- Rounding does not cross a double. -/
theorem le_nearest {b q : ℚ} (hb : OnGrid b) (h : b ≤ q) : b ≤ nearest q := by
  have hclose := nearest_closest hb q
  rw [abs_of_nonpos (by linarith : b - q ≤ 0)] at hclose
  have hlow := neg_le_of_abs_le hclose
  linarith

/-- Rounding does not pass a number on the grid. -/
theorem nearest_le {b q : ℚ} (hb : OnGrid b) (h : q ≤ b) : nearest q ≤ b := by
  have hclose := nearest_closest hb q
  rw [abs_of_nonneg (by linarith : 0 ≤ b - q)] at hclose
  have hhigh := le_of_abs_le hclose
  linarith

/-- The grid lies on both sides of zero. -/
theorem OnGrid.neg {q : ℚ} (h : OnGrid q) : OnGrid (-q) := by
  obtain ⟨m, e, hm, he, hq⟩ := h
  exact ⟨-m, e, by rwa [abs_neg], he, by rw [hq]; push_cast; ring⟩

/-- Nor does it in absolute value. -/
theorem abs_nearest_le {b q : ℚ} (hb : OnGrid b) (h : |q| ≤ b) : |nearest q| ≤ b := by
  obtain ⟨hlow, hhigh⟩ := abs_le.mp h
  exact abs_le.mpr ⟨le_nearest hb.neg hlow, nearest_le hb hhigh⟩

/-- Powers of two are on the grid, from the least on. -/
theorem onGrid_two_zpow {e : ℤ} (he : -1074 ≤ e) : OnGrid (2 ^ e) :=
  ⟨1, e, by norm_num, he, by norm_num⟩

/-- Rounding ends on a double. -/
theorem onGrid_nearest (q : ℚ) : OnGrid (nearest q) := by
  have hpow : (0 : ℚ) < 2 ^ ulp q := zpow_pos (by norm_num) _
  have hlow : -1074 ≤ ulp q := le_max_left _ _
  -- In units of the last bit the number is below `2 ^ 53`, and so it rounds to that at most.
  have hsmall : |q / 2 ^ ulp q| < 2 ^ 53 := by
    have hlog : |q| < (2 : ℚ) ^ (Int.log 2 |q| + 1) := by
      exact_mod_cast Int.lt_zpow_succ_log_self (b := 2) (by norm_num) |q|
    have hle : (2 : ℚ) ^ (Int.log 2 |q| + 1) ≤ 2 ^ (53 + ulp q) := by
      have hulp : Int.log 2 |q| - 52 ≤ ulp q := le_max_right _ _
      exact zpow_le_zpow_right₀ (by norm_num) (by omega)
    rw [abs_div, abs_of_pos hpow, div_lt_iff₀ hpow]
    calc |q| < 2 ^ (53 + ulp q) := lt_of_lt_of_le hlog hle
      _ = 2 ^ 53 * 2 ^ ulp q := by rw [zpow_add₀ (by norm_num)]; norm_num
  have hround : |roundEven (q / 2 ^ ulp q)| ≤ 2 ^ 53 := by
    obtain ⟨hneg, hpos⟩ := abs_lt.mp hsmall
    have hhigh := abs_roundEven_sub_le (q / 2 ^ ulp q) (2 ^ 53)
    have hback := abs_roundEven_sub_le (q / 2 ^ ulp q) (-2 ^ 53)
    push_cast at hhigh hback
    rw [abs_of_pos (by linarith : (0 : ℚ) < 9007199254740992 - q / 2 ^ ulp q)] at hhigh
    rw [abs_of_neg (by linarith : -9007199254740992 - q / 2 ^ ulp q < (0 : ℚ))] at hback
    have hup := le_of_abs_le hhigh
    have hdown := neg_le_of_abs_le hback
    rw [abs_le]
    constructor
    · exact_mod_cast (by linarith : (-(2 : ℚ) ^ 53) ≤ roundEven (q / 2 ^ ulp q))
    · exact_mod_cast (by linarith : (roundEven (q / 2 ^ ulp q) : ℚ) ≤ 2 ^ 53)
  rcases lt_or_eq_of_le hround with hlt | heq
  · exact ⟨_, _, hlt, hlow, rfl⟩
  · -- At `2 ^ 53` the last bit is one higher.
    have hnext : ∀ m : ℤ, ((2 * m : ℤ) : ℚ) * 2 ^ ulp q = m * 2 ^ (ulp q + 1) := by
      intro m
      rw [zpow_add_one₀ (by norm_num)]
      push_cast
      ring
    rcases abs_eq (by norm_num) |>.mp heq with hpos | hneg
    · refine ⟨2 ^ 52, ulp q + 1, by norm_num, by omega, ?_⟩
      rw [nearest, hpos, ← hnext]
      norm_num
    · refine ⟨-2 ^ 52, ulp q + 1, by norm_num, by omega, ?_⟩
      rw [nearest, hneg, ← hnext]
      norm_num

/-- Rounding keeps the order. -/
theorem nearest_mono {a b : ℚ} (h : a ≤ b) : nearest a ≤ nearest b := by
  rcases le_or_gt (nearest a) b with hle | hgt
  · exact le_nearest (onGrid_nearest a) hle
  · -- Both round up past `b`: the larger of the two is no further from the upper double.
    by_contra hlt
    have hfirst := nearest_closest (onGrid_nearest b) a
    have hsecond := nearest_closest (onGrid_nearest a) b
    rw [abs_of_nonneg (by linarith)] at hfirst
    rw [abs_of_pos (by linarith : 0 < nearest a - b)] at hsecond
    have hdown := neg_le_of_abs_le hsecond
    rcases le_or_gt a (nearest b) with hin | hout
    · rw [abs_of_nonneg (by linarith)] at hfirst
      linarith
    · rw [abs_of_neg (by linarith)] at hfirst
      have hsame : a = b := by linarith
      rw [hsame] at hlt
      exact hlt le_rfl

/-- What is no larger than a double converts to one. -/
theorem isFinite_of_abs_le {b q : ℚ} (hb : OnGrid b) (hmax : b < 2 ^ 1024) (h : |q| ≤ b) :
    IsFinite q :=
  lt_of_le_of_lt (abs_nearest_le hb h) hmax

/-- Every double is a multiple of the smallest one. -/
theorem OnGrid.multiple {q : ℚ} (h : OnGrid q) : ∃ k : ℤ, q = k * 2 ^ (-1074 : ℤ) := by
  obtain ⟨m, e, -, he, hq⟩ := h
  exact multiple_of_le hq he

/-- A `double` is a multiple of the least one. -/
theorem nearest_multiple (q : ℚ) : ∃ k : ℤ, nearest q = k * 2 ^ (-1074 : ℤ) :=
  multiple_of_le rfl (le_max_left _ _)

/-- Two doubles differ by the smallest one at least. -/
theorem multiple_gap {a b : ℚ} (ha : ∃ k : ℤ, a = k * 2 ^ (-1074 : ℤ))
    (hb : ∃ k : ℤ, b = k * 2 ^ (-1074 : ℤ)) (hne : a ≠ b) : 2 ^ (-1074 : ℤ) ≤ |a - b| := by
  obtain ⟨k, hk⟩ := ha
  obtain ⟨k', hk'⟩ := hb
  have hpow : (0 : ℚ) < 2 ^ (-1074 : ℤ) := zpow_pos (by norm_num) _
  have hkk : k ≠ k' := by
    rintro rfl
    exact hne (hk.trans hk'.symm)
  have hstep : (1 : ℚ) ≤ |((k - k' : ℤ) : ℚ)| := by
    exact_mod_cast Int.one_le_abs (by omega)
  rw [hk, hk', ← sub_mul, abs_mul, abs_of_pos hpow]
  push_cast at hstep
  exact le_mul_of_one_le_left hpow.le hstep

end Binary64
