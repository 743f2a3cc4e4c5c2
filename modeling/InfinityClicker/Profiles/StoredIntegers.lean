import InfinityClicker.Profiles.Profile

namespace InfinityClicker

open Json

/-!
# Integers past their type

A stored number goes through `int64_t` before the program looks at it, and a chord's code through 16
bits more.  What does not fit comes out as another integer, in the range or not.

* `getInt_of_number` — what the shared accessor returns for a number;
* `KeyChord.acceptsInRange_iff` — the codes for which the range test sees the number itself;
* `ClampedSetting` — the settings that are clamped, and the objects they are read from;
* `ClampedSetting.saturates_iff` — the numbers for which clamping saturates.
-/

/-! ### The shared accessor -/

namespace Json.Value

/-- What the conversion to `int64_t` makes of a number's integer part. -/
def int64 (z : ℤ) : ℤ := if -2 ^ 63 ≤ z ∧ z < 2 ^ 63 then z else -2 ^ 63

variable {v : Value} {k : Bytes}

/-- A stored number is read as a 64-bit integer. -/
theorem getInt_of_number {n : ℚ} (hfind : v.find k = some (.number n)) (dflt : ℤ) :
    v.getInt k dflt = int64 (toInt64 n) := by
  rw [getInt, hfind]
  rfl

/-- A 64-bit integer is itself. -/
theorem int64_eq {z : ℤ} (hlow : -2 ^ 63 ≤ z) (hhigh : z < 2 ^ 63) : int64 z = z :=
  if_pos ⟨hlow, hhigh⟩

/-- What is no number counts as 0. -/
theorem getInt_zero (v : Value) (k : Bytes) :
    v.getInt k 0 = int64 (toInt64 (v.getNumber k 0)) := by
  have hzero : int64 (toInt64 0) = 0 := by decide +kernel
  rw [getInt, getNumber]
  cases v.find k with
  | none => exact hzero.symm
  | some x =>
    cases x with
    | number n => rfl
    | _ => exact hzero.symm

end Json.Value

/-! ### Codes of chords -/

namespace KeyChord

/-- The integer part of the number stored as the code; 0 where none is. -/
def storedCode (v : Value) : ℤ := toInt64 (v.getNumber (bytes "code") 0)

/-- The codes there are for a device. -/
def CodeInRange : Device → ℤ → Prop
  | .mouse, z => 0 ≤ z ∧ z ≤ 8
  | .keyboard, z => 1 ≤ z ∧ z ≤ 254
  | .none, _ => False

instance (d : Device) (z : ℤ) : Decidable (CodeInRange d z) := by
  cases d <;> unfold CodeInRange <;> infer_instance

/-- A chord that is assigned has the code that is stored, and it is one of its device. -/
def AcceptsInRange (v : Value) : Prop :=
  (fromJson v).device ≠ .none →
    CodeInRange (fromJson v).device (storedCode v) ∧ storedCode v = (fromJson v).code.toNat

/-- The residue that is left of an integer in 16 bits; what is no `int64_t` leaves 0. -/
def low16 (z : ℤ) : ℤ := if -2 ^ 63 ≤ z ∧ z < 2 ^ 63 then z % 65536 else 0

/-- The low sixteen bits, arithmetically. -/
theorem low16_eq (z : ℤ) : low16 z = Value.int64 z % 65536 := by
  rw [low16, Value.int64]
  split
  · rfl
  · norm_num

/-- A code in range loses nothing. -/
theorem low16_of_codeInRange {d : Device} {z : ℤ} (h : CodeInRange d z) : low16 z = z := by
  have hbounds : 0 ≤ z ∧ z ≤ 254 := by
    cases d with
    | none => exact absurd h id
    | mouse => exact ⟨h.1, by have hle := h.2; omega⟩
    | keyboard => exact ⟨by have hle := h.1; omega, h.2⟩
  rw [low16, if_pos (by omega)]
  omega

/-- The code that is read is the stored one, cut to sixteen bits. -/
theorem fromJson_code (v : Value) : ((fromJson v).code.toNat : ℤ) = low16 (storedCode v) := by
  show ((BitVec.ofInt 16 (v.getInt (bytes "code") 0)).toNat : ℤ) = _
  rw [BitVec.toNat_ofInt, Value.getInt_zero, low16_eq]
  exact Int.toNat_of_nonneg (Int.emod_nonneg _ (by norm_num))

/-- The device that is stored is kept where the 16 bits of the code are one of its codes. -/
theorem fromJson_device (v : Value) :
    (fromJson v).device =
      if CodeInRange (parseDevice (v.getString (bytes "device") (bytes "none")))
        (low16 (storedCode v)) then
        parseDevice (v.getString (bytes "device") (bytes "none"))
      else .none := by
  have hcode := fromJson_code v
  have hfield : (fromJson v).code = BitVec.ofInt 16 (v.getInt (bytes "code") 0) := rfl
  rw [hfield] at hcode
  simp only [fromJson, ← hcode]
  generalize BitVec.ofInt 16 (v.getInt (bytes "code") 0) = code
  have hmouse : buttonCount ≤ code ↔ ¬ CodeInRange .mouse code.toNat := by
    have hcount : buttonCount ≤ code ↔ 9 ≤ code.toNat := BitVec.le_def
    rw [hcount, CodeInRange]
    omega
  have hkeyboard : code = 0 ∨ 0xFE < code ↔ ¬ CodeInRange .keyboard code.toNat := by
    have hzero : code = 0 ↔ code.toNat = 0 := BitVec.toNat_eq
    have hmax : 0xFE < code ↔ 254 < code.toNat := BitVec.lt_def
    rw [hzero, hmax, CodeInRange]
    omega
  cases parseDevice (v.getString (bytes "device") (bytes "none")) with
  | none => simp only [reduceCtorEq, false_and, ite_self]
  | mouse =>
    simp only [true_and, hmouse]
    by_cases h : CodeInRange .mouse code.toNat
    · simp only [h, not_true_eq_false, if_false, reduceCtorEq, false_and, if_true]
    · simp only [h, not_false_eq_true, if_true, reduceCtorEq, false_and, if_false]
  | keyboard =>
    simp only [reduceCtorEq, false_and, if_false, true_and, hkeyboard]
    by_cases h : CodeInRange .keyboard code.toNat
    · simp only [h, not_true_eq_false, if_false, if_true]
    · simp only [h, not_false_eq_true, if_true, if_false]

/-- **A stored binding is accepted only if it is in range**, unless its code is out of range and the
    16 bits left of it are not. -/
theorem acceptsInRange_iff (v : Value) :
    AcceptsInRange v ↔
      CodeInRange (parseDevice (v.getString (bytes "device") (bytes "none"))) (storedCode v) ∨
        ¬ CodeInRange (parseDevice (v.getString (bytes "device") (bytes "none")))
          (low16 (storedCode v)) := by
  rw [AcceptsInRange, fromJson_device, fromJson_code]
  generalize parseDevice (v.getString (bytes "device") (bytes "none")) = d
  by_cases hlow : CodeInRange d (low16 (storedCode v))
  · have hd : d ≠ .none := by
      rintro rfl
      exact hlow
    rw [if_pos hlow, or_iff_left (not_not_intro hlow)]
    constructor
    · intro h
      exact (h hd).1
    · intro h _
      exact ⟨h, (low16_of_codeInRange h).symm⟩
  · rw [if_neg hlow]
    exact iff_of_true (fun h => absurd rfl h) (.inr hlow)

/-- The button of code 65537 is the right one. -/
theorem accepts_wrapped_code :
    ¬ AcceptsInRange (.object [(bytes "device", .string (bytes "mouse")),
      (bytes "code", .number 65537)]) := by
  intro h
  have hvalid : (fromJson (.object [(bytes "device", .string (bytes "mouse")),
      (bytes "code", .number 65537)])).device ≠ .none := by
    decide +kernel
  have hstored := (h hvalid).2
  revert hstored
  decide +kernel

end KeyChord

/-! ### Clamped settings -/

/-- The integer settings that are clamped to an interval. -/
inductive ClampedSetting where
  | downTimeUs | repeatCount | repeatGapUs | wheelDelta
  | burstCount | fixedCount | durationMs
  | maxBatch | maxInflight
  | windowW | windowH
deriving DecidableEq

namespace ClampedSetting

/-- The member it is stored in. -/
def key : ClampedSetting → String
  | downTimeUs => "downTimeUs"
  | repeatCount => "repeat"
  | repeatGapUs => "repeatGapUs"
  | wheelDelta => "wheelDelta"
  | burstCount => "burstCount"
  | fixedCount => "fixedCount"
  | durationMs => "durationMs"
  | maxBatch => "maxBatch"
  | maxInflight => "maxInflight"
  | windowW => "w"
  | windowH => "h"

/-- Its value where none is stored. -/
def dflt : ClampedSetting → ℤ
  | downTimeUs | repeatGapUs => 0
  | repeatCount => 1
  | wheelDelta => 120
  | burstCount => 10
  | fixedCount => 100
  | durationMs => 1000
  | maxBatch => 8
  | maxInflight => 2000
  | windowW => 720
  | windowH => 552

/-- Its lower bound. -/
def lo : ClampedSetting → ℤ
  | downTimeUs | repeatGapUs => 0
  | maxInflight => 16
  | windowW => 620
  | windowH => 480
  | _ => 1

/-- Its upper bound. -/
def hi : ClampedSetting → ℤ
  | downTimeUs | repeatGapUs => 10000000
  | repeatCount => 3
  | wheelDelta => 1200
  | burstCount => 1000000000
  | fixedCount => 1000000000000
  | durationMs => 86400000
  | maxBatch => 256
  | maxInflight => 1000000
  | windowW | windowH => 4000

/-- The bounds leave room. -/
theorem lo_lt_hi (x : ClampedSetting) : x.lo < x.hi := by
  cases x <;> decide

/-- No setting is negative. -/
theorem lo_nonneg (x : ClampedSetting) : 0 ≤ x.lo := by
  cases x <;> decide

/-- Every setting fits into 64 bits. -/
theorem hi_lt (x : ClampedSetting) : x.hi < 2 ^ 63 := by
  cases x <;> decide

variable (P : Platform)

/-- The member of an action, a profile or the settings that has the number. -/
def owner (v : Value) : ClampedSetting → Value
  | downTimeUs | repeatCount | repeatGapUs | wheelDelta => v
  | burstCount | fixedCount | durationMs => v.get (bytes "mode")
  | maxBatch | maxInflight => v.get (bytes "speed")
  | windowW | windowH => v.get (bytes "window")

/-- What is loaded from an action, a profile or the settings. -/
def loaded (v : Value) : ClampedSetting → ℤ
  | downTimeUs => (InputAction.fromJson v).downTimeUs
  | repeatCount => (InputAction.fromJson v).repeatCount
  | repeatGapUs => (InputAction.fromJson v).repeatGapUs
  | wheelDelta => (InputAction.fromJson v).wheelDelta.toInt
  | burstCount => (Profile.fromJson P v).mode.burstCount.toNat
  | fixedCount => (Profile.fromJson P v).mode.fixedCount.toNat
  | durationMs => (Profile.fromJson P v).mode.durationMs.toNat
  | maxBatch => (Profile.fromJson P v).maxBatch.toNat
  | maxInflight => (Profile.fromJson P v).maxInflight.toNat
  | windowW => (AppSettings.fromJson P v).windowW.toInt
  | windowH => (AppSettings.fromJson P v).windowH.toInt

/-- A number is stored for the setting; a window's size counts only in the layout there is now. -/
structure Stores (x : ClampedSetting) (v : Value) (n : ℚ) : Prop where
  find : (x.owner v).find (bytes x.key) = some (.number n)
  layout : x = windowW ∨ x = windowH →
    (AppSettings.initial P).uiLayout.toInt ≤ (BitVec.ofInt 32 (v.getInt (bytes "uiLayout") 1)).toInt

/-! Narrowing what lies in the interval of a setting loses nothing. -/

/-- A number that fits survives its machine type. -/
theorem toNat_ofInt_of_mem {w : ℕ} {z : ℤ} (hlow : 0 ≤ z) (hhigh : z < 2 ^ w) :
    ((BitVec.ofInt w z).toNat : ℤ) = z := by
  rw [BitVec.toNat_ofInt, Nat.cast_pow, Nat.cast_ofNat, Int.emod_eq_of_lt hlow hhigh]
  exact Int.toNat_of_nonneg hlow

/-- A number of 31 bits survives `int32_t`. -/
theorem toInt_ofInt_of_mem {z : ℤ} (hlow : 0 ≤ z) (hhigh : z < 2 ^ 31) :
    (BitVec.ofInt 32 z).toInt = z :=
  BitVec.toInt_ofInt_eq_self (by norm_num) (by omega) (by omega)

variable {P} {x : ClampedSetting} {v : Value} {n : ℚ}

/-- **Each setting** is the shared accessor's integer, clamped. -/
theorem loaded_eq (h : x.Stores P v n) :
    x.loaded P v = clamp (Value.int64 (toInt64 n)) x.lo x.hi := by
  have hclamped : clamp (Value.int64 (toInt64 n)) x.lo x.hi =
      (x.owner v).getClamped (bytes x.key) x.dflt x.lo x.hi := by
    rw [Value.getClamped, Value.getInt_of_number h.find]
  have hmem := (x.owner v).getClamped_mem (bytes x.key) x.dflt x.lo_lt_hi.le
  have hlow := le_trans x.lo_nonneg hmem.1
  have hread := h.layout
  rw [hclamped]
  cases x with
  | downTimeUs | repeatCount | repeatGapUs => exact Int.toNat_of_nonneg hlow
  | wheelDelta => exact toInt_ofInt_of_mem hlow (lt_of_le_of_lt hmem.2 (by decide))
  | burstCount | fixedCount | durationMs | maxBatch | maxInflight =>
    exact toNat_ofInt_of_mem hlow (lt_of_le_of_lt hmem.2 (by decide))
  | windowW | windowH =>
    simp only [loaded, AppSettings.fromJson]
    rw [if_pos (hread (by simp))]
    exact toInt_ofInt_of_mem hlow (lt_of_le_of_lt hmem.2 (by decide))

/-- A number from `2 ^ 63` on is loaded as the least one. -/
theorem int64_toInt64 (n : ℚ) :
    (n < 2 ^ 63 ∧ (toInt64 n < 2 ^ 63) ∧
      clamp (Value.int64 (toInt64 n)) x.lo x.hi = clamp (toInt64 n) x.lo x.hi) ∨
    (¬ n < 2 ^ 63 ∧ 2 ^ 63 ≤ toInt64 n ∧ clamp (Value.int64 (toInt64 n)) x.lo x.hi = x.lo) := by
  have hmin : clamp (-2 ^ 63) x.lo x.hi = x.lo := by
    have hlow := x.lo_nonneg
    rw [clamp, if_pos (by omega)]
  by_cases hn : n < 2 ^ 63
  · refine .inl ⟨hn, ?_⟩
    have hlt : toInt64 n < 2 ^ 63 := by
      rw [toInt64]
      split
      · exact Int.floor_lt.mpr (by exact_mod_cast hn)
      · next hneg =>
        have hceil : ⌈n⌉ ≤ 0 := Int.ceil_le.mpr (by exact_mod_cast (not_le.mp hneg).le)
        omega
    refine ⟨hlt, ?_⟩
    by_cases hlow : -2 ^ 63 ≤ toInt64 n
    · rw [Value.int64_eq hlow hlt]
    · -- Too small a number is clamped to the least one in any case.
      have hlo := x.lo_nonneg
      rw [Value.int64, if_neg fun h => hlow h.1, hmin, clamp, if_pos (by omega)]
  · have hpos : (0 : ℚ) ≤ n := by
      norm_num at hn
      linarith
    have hge : 2 ^ 63 ≤ toInt64 n := by
      rw [toInt64, if_pos hpos]
      exact Int.le_floor.mpr (by exact_mod_cast not_lt.mp hn)
    refine .inr ⟨hn, hge, ?_⟩
    rw [Value.int64, if_neg (by omega), hmin]

/-- **Numeric settings saturate** for the numbers below `2 ^ 63` and no others: with them they are
    the integer part clamped, and so too large a number is loaded as the greatest one and a larger
    number as no smaller one. -/
theorem saturates_iff {w : Value} {m : ℚ} (hv : x.Stores P v n) (hw : x.Stores P w m) :
    (x.loaded P v = clamp (toInt64 n) x.lo x.hi ↔ n < 2 ^ 63) ∧
    (x.hi ≤ toInt64 n → (x.loaded P v = x.hi ↔ n < 2 ^ 63)) ∧
    (n ≤ m → (x.loaded P v ≤ x.loaded P w ↔ m < 2 ^ 63 ∨ toInt64 n ≤ x.lo ∨ 2 ^ 63 ≤ n)) := by
  have hbounds := x.lo_lt_hi
  rw [loaded_eq hv, loaded_eq hw]
  refine ⟨?_, ?_, ?_⟩
  · rcases int64_toInt64 (x := x) n with ⟨hn, -, heq⟩ | ⟨hn, hge, heq⟩
    · exact iff_of_true heq hn
    · have hmax := x.hi_lt
      rw [heq, clamp_eq_hi hbounds.le (by omega)]
      exact iff_of_false hbounds.ne hn
  · intro hlarge
    rcases int64_toInt64 (x := x) n with ⟨hn, -, heq⟩ | ⟨hn, -, heq⟩
    · rw [heq, clamp_eq_hi hbounds.le hlarge]
      exact iff_of_true rfl hn
    · rw [heq]
      exact iff_of_false hbounds.ne hn
  · intro hle
    have hmono := toInt64_mono hle
    rcases int64_toInt64 (x := x) n with ⟨hn, -, heq⟩ | ⟨hn, -, heq⟩
    · rcases int64_toInt64 (x := x) m with ⟨hm, -, heq'⟩ | ⟨hm, -, heq'⟩
      · rw [heq, heq']
        exact iff_of_true (clamp_mono hbounds.le hmono) (.inl hm)
      · -- The larger number is loaded as the least one.
        rw [heq, heq', clamp_le_lo_iff hbounds, or_iff_right hm, or_iff_left (not_le.mpr hn)]
    · rw [heq]
      exact iff_of_true (clamp_mem _ hbounds.le).1 (.inr (.inr (not_lt.mp hn)))

/-- A repeat count of 3 and one of `10 ^ 19`. -/
theorem saturates_repeat :
    ((repeatCount.loaded .tenMegahertz (.object [(bytes "repeat", .number 3)]) =
        clamp (toInt64 3) repeatCount.lo repeatCount.hi ↔ (3 : ℚ) < 2 ^ 63) ∧
      (repeatCount.hi ≤ toInt64 3 →
        (repeatCount.loaded .tenMegahertz (.object [(bytes "repeat", .number 3)]) =
          repeatCount.hi ↔ (3 : ℚ) < 2 ^ 63)) ∧
      ((3 : ℚ) ≤ 10 ^ 19 →
        (repeatCount.loaded .tenMegahertz (.object [(bytes "repeat", .number 3)]) ≤
          repeatCount.loaded .tenMegahertz (.object [(bytes "repeat", .number (10 ^ 19))]) ↔
            (10 : ℚ) ^ 19 < 2 ^ 63 ∨ toInt64 3 ≤ repeatCount.lo ∨ (2 : ℚ) ^ 63 ≤ 3))) :=
  saturates_iff ⟨rfl, by decide⟩ ⟨rfl, by decide⟩

/-- A click count of `10 ^ 19` per start is loaded as 1. -/
theorem loads_least :
    fixedCount.Stores .tenMegahertz
      (.object [(bytes "mode", .object [(bytes "fixedCount", .number (10 ^ 19))])]) (10 ^ 19) ∧
    fixedCount.loaded .tenMegahertz
      (.object [(bytes "mode", .object [(bytes "fixedCount", .number (10 ^ 19))])]) ≠
        clamp (toInt64 (10 ^ 19)) fixedCount.lo fixedCount.hi := by
  have hstores : fixedCount.Stores .tenMegahertz
      (.object [(bytes "mode", .object [(bytes "fixedCount", .number (10 ^ 19))])]) (10 ^ 19) :=
    ⟨rfl, by decide⟩
  refine ⟨hstores, ?_⟩
  rw [loaded_eq hstores]
  decide +kernel

end ClampedSetting

end InfinityClicker
