import Mathlib.Data.Rat.Floor
import Mathlib.Tactic.Linarith
import Mathlib.Tactic.NormNum

namespace InfinityClicker

/-!
# The machine underneath, and QPC tick arithmetic

`Platform` collects what the program reads from the machine it runs on and never changes:
the frequency of the performance counter and the active keyboard layout.  Clock readings are
integers (raw QPC ticks).  A C++ `double` is a rational here: the tick arithmetic is exact.
-/

/-- What the program takes from the machine it runs on. -/
structure Platform where
  /-- `QueryPerformanceFrequency`: ticks per second. -/
  freq : ℕ
  /-- The counter is a high-resolution one: a tick is at most a microsecond. -/
  freq_ge : 1000000 ≤ freq
  /-- `MapVirtualKeyW(vk, MAPVK_VK_TO_VSC_EX)` under the active layout. -/
  mapVirtualKey : BitVec 16 → BitVec 32

/-- The usual counter, 10 MHz, under a layout that names no scan code. -/
def Platform.tenMegahertz : Platform := ⟨10000000, by norm_num, fun _ => 0⟩

/-- C++'s conversion of a `double` to `int64_t`: towards zero. -/
def toInt64 (x : ℚ) : ℤ := if 0 ≤ x then ⌊x⌋ else ⌈x⌉

/-- An integer is converted to itself. -/
theorem toInt64_intCast (z : ℤ) : toInt64 (z : ℚ) = z := by
  rw [toInt64]
  split <;> simp

/-- What is not negative stays so. -/
theorem toInt64_nonneg {x : ℚ} (hx : 0 ≤ x) : 0 ≤ toInt64 x := by
  rw [toInt64, if_pos hx]
  exact Int.floor_nonneg.mpr hx

/-- What is not negative is rounded down. -/
theorem toInt64_le {x : ℚ} (hx : 0 ≤ x) : (toInt64 x : ℚ) ≤ x := by
  rw [toInt64, if_pos hx]
  exact Int.floor_le x

/-- The conversion keeps the order. -/
theorem toInt64_mono {x y : ℚ} (h : x ≤ y) : toInt64 x ≤ toInt64 y := by
  rw [toInt64, toInt64]
  split
  · next hx =>
    rw [if_pos (le_trans hx h)]
    exact Int.floor_le_floor h
  · next hx =>
    split
    · next hy =>
      have hceil : ⌈x⌉ ≤ 0 := Int.ceil_le.mpr (by exact_mod_cast (not_le.mp hx).le)
      have hfloor := Int.floor_nonneg.mpr hy
      omega
    · exact Int.ceil_le_ceil h

/-- `std::clamp`. -/
def clamp {α : Type} [LT α] [DecidableLT α] (v lo hi : α) : α :=
  if v < lo then lo else if hi < v then hi else v

section Clamp

variable {α : Type} [LinearOrder α] {v lo hi : α}

/-- The result lies in the interval. -/
theorem clamp_mem (v : α) (h : lo ≤ hi) : lo ≤ clamp v lo hi ∧ clamp v lo hi ≤ hi := by
  rw [clamp]
  split
  · exact ⟨le_refl lo, h⟩
  · next hlo =>
    split
    · exact ⟨h, le_refl hi⟩
    · next hhi => exact ⟨not_lt.mp hlo, not_lt.mp hhi⟩

/-- What lies in the interval stays as it is. -/
theorem clamp_eq (hlo : lo ≤ v) (hhi : v ≤ hi) : clamp v lo hi = v := by
  rw [clamp, if_neg (not_lt.mpr hlo), if_neg (not_lt.mpr hhi)]

/-- What lies above it becomes the upper bound. -/
theorem clamp_eq_hi (h : lo ≤ hi) (hv : hi ≤ v) : clamp v lo hi = hi := by
  rw [clamp, if_neg (not_lt.mpr (le_trans h hv))]
  split
  · rfl
  · next hnot => exact le_antisymm (not_lt.mp hnot) hv

/-- The lower bound is what lies at it or below. -/
theorem clamp_le_lo_iff (h : lo < hi) : clamp v lo hi ≤ lo ↔ v ≤ lo := by
  rw [clamp]
  split
  · next hlo => exact iff_of_true (le_refl lo) hlo.le
  · split
    · next hhi => exact iff_of_false (not_le.mpr h) (not_le.mpr (lt_trans h hhi))
    · exact Iff.rfl

/-- Clamping keeps the order. -/
theorem clamp_mono {w : α} (h : lo ≤ hi) (hvw : v ≤ w) : clamp v lo hi ≤ clamp w lo hi := by
  have hw := clamp_mem w h
  rw [clamp]
  split
  · exact hw.1
  · next hlo =>
    split
    · next hhi => exact (clamp_eq_hi h (le_trans hhi.le hvw)).ge
    · by_cases hmax : w ≤ hi
      · rw [clamp_eq (le_trans (not_lt.mp hlo) hvw) hmax]
        exact hvw
      · next hhi =>
        rw [clamp_eq_hi h (not_le.mp hmax).le]
        exact not_lt.mp hhi

end Clamp

namespace Clk

variable (P : Platform)

/-- Seconds in ticks, rounded to the nearest. -/
def secToTicks (s : ℚ) : ℤ := toInt64 (s * P.freq + 1 / 2)
/-- Milliseconds in ticks. -/
def msToTicks (ms : ℚ) : ℤ := toInt64 (ms * P.freq / 1000 + 1 / 2)
/-- Microseconds in ticks. -/
def usToTicks (us : ℚ) : ℤ := toInt64 (us * P.freq / 1000000 + 1 / 2)
/-- Ticks in seconds, unrounded. -/
def ticksToSec (t : ℤ) : ℚ := t / P.freq
/-- Ticks in microseconds. -/
def ticksToUs (t : ℤ) : ℚ := t * 1000000 / P.freq
/-- Ticks in nanoseconds. -/
def ticksToNs (t : ℤ) : ℚ := t * 1000000000 / P.freq

/-- The counter counts. -/
theorem freq_pos : (0 : ℚ) < P.freq := by
  have h := P.freq_ge
  exact_mod_cast (by omega : 0 < P.freq)

/-- A length of time is no negative number of ticks. -/
theorem usToTicks_nonneg {us : ℚ} (h : 0 ≤ us) : 0 ≤ usToTicks P us := by
  have hf := freq_pos P
  exact toInt64_nonneg (by positivity)

end Clk

end InfinityClicker
