import InfinityClicker.Core.RoundedGrid
import InfinityClicker.Scheduler.Modes

namespace InfinityClicker

open RoundedGrid

/-!
# Where skipping lands

`skipLate` computes an index from the exact period while the slots are rounded to ticks, and its
correction goes one way.

* `Timeline.slot_eq_point` — the slots of a timeline are a grid of rounded multiples;
* `Timeline.guardRounding_eq` — in exact arithmetic the correction finds nothing to correct;
* `Timeline.landsOnLatest_iff` — skipping lands on the latest due slot unless the clock reads
  exactly a later slot that was rounded down.
-/

namespace Timeline

/-- What the comment on `skipLate` promises at a reading `now`: the latest slot that is due, never
    an earlier index, and the number of slots jumped over. -/
structure LandsOnLatest (tl : Timeline) (now : ℤ) : Prop where
  due : (tl.skipLate now).1.next ≤ now
  latest : now < (tl.skipLate now).1.slot ((tl.skipLate now).1.k + 1)
  forward : tl.k ≤ (tl.skipLate now).1.k
  reported : (tl.skipLate now).2 = (tl.skipLate now).1.k - tl.k

/-- The slot lies before its exact time. -/
def EarlySlot (tl : Timeline) (j : ℕ) : Prop := (tl.slot j : ℚ) < tl.t0 + j * tl.period

instance (tl : Timeline) (j : ℕ) : Decidable (tl.EarlySlot j) :=
  inferInstanceAs (Decidable (_ < _))

variable {tl : Timeline} {now : ℤ}

theorem slot_eq_point (tl : Timeline) (idx : ℕ) : tl.slot idx = tl.t0 + point tl.period idx := rfl

/-- Seen from the anchor, a slot is due when its point is. -/
theorem slot_le_iff (tl : Timeline) (idx : ℕ) (now : ℤ) :
    tl.slot idx ≤ now ↔ point tl.period idx ≤ now - tl.t0 := by
  rw [slot_eq_point]
  omega

theorem earlySlot_iff (tl : Timeline) (j : ℕ) : tl.EarlySlot j ↔ RoundedDown tl.period j := by
  rw [EarlySlot, RoundedDown, slot_eq_point]
  push_cast
  constructor <;> intro h <;> linarith

/-- An index whose slot is due is left as it is. -/
theorem guardRounding_eq {idx : ℕ} (hdue : tl.slot idx ≤ now) : tl.guardRounding now idx = idx := by
  cases idx with
  | zero => rfl
  | succ idx =>
    rw [guardRounding, if_neg]
    rintro ⟨-, hlt⟩
    omega

/-- The index skipping lands on, a full period late. -/
theorem skipLate_late (hp : 1 ≤ tl.period) (hanchor : tl.t0 ≤ now)
    (hlate : tl.slot (tl.k + 1) ≤ now) :
    (tl.skipLate now).1 =
      { tl with k := ⌊((now - tl.t0 : ℤ) : ℚ) / tl.period⌋.toNat } := by
  have hdue : tl.slot ⌊((now - tl.t0 : ℤ) : ℚ) / tl.period⌋.toNat ≤ now := by
    rw [slot_le_iff]
    exact point_quotient_le hp (by omega)
  have hgo : ¬ (tl.period ≤ 0 ∨ now < tl.slot (tl.k + 1)) := by
    rw [not_or, not_le, not_lt]
    exact ⟨by linarith, hlate⟩
  rw [skipLate, if_neg hgo]
  dsimp only
  rw [guardRounding_eq hdue]

/-- Whatever it lands on, skipping goes forward and reports what it jumps over. -/
theorem landsOnLatest_of (hp : 1 ≤ tl.period) (hdue : (tl.skipLate now).1.next ≤ now)
    (hlatest : now < (tl.skipLate now).1.slot ((tl.skipLate now).1.k + 1)) :
    tl.LandsOnLatest now := by
  obtain ⟨-, -, hk⟩ := skipLate_spec hp now
  exact ⟨hdue, hlatest, by omega, by omega⟩

/-- **Skipping lands on the latest due slot** from any due slot on, except at a reading that is
    exactly a later slot before its exact time. -/
theorem landsOnLatest_iff (tl : Timeline) (now : ℤ) (hp : 1 ≤ tl.period) (hdue : tl.next ≤ now) :
    tl.LandsOnLatest now ↔ ∀ j, tl.k < j → tl.slot j = now → ¬ tl.EarlySlot j := by
  have hanchor : tl.t0 ≤ now := by
    have hzero : tl.slot 0 = tl.t0 := by norm_num [slot]
    have hfirst : tl.slot 0 ≤ tl.next := by
      rcases Nat.eq_zero_or_pos tl.k with hk | hk
      · rw [next, hk]
      · exact le_of_lt (slot_lt_slot hp hk)
    omega
  by_cases hlate : tl.slot (tl.k + 1) ≤ now
  · have hlatest := latest_iff hp (n := now - tl.t0) (by omega)
    have hskip := skipLate_late hp hanchor hlate
    -- A slot that is read now comes after the next one.
    have hlater : ∀ j, tl.slot j = now → tl.k < j := by
      intro j hj
      by_contra hle
      have hlt : tl.slot j < tl.slot (tl.k + 1) := slot_lt_slot hp (by omega)
      omega
    constructor
    · rintro ⟨hd, hl, -, -⟩ j - hj
      rw [hskip] at hd hl
      rw [earlySlot_iff]
      refine hlatest.mp ⟨?_, ?_⟩ j ?_
      · exact (slot_le_iff tl _ now).mp hd
      · rw [← not_le, ← slot_le_iff]
        exact not_le.mpr hl
      · rw [slot_eq_point] at hj
        omega
    · intro h
      have hboth := hlatest.mpr fun j hj => by
        have hnow : tl.slot j = now := by
          rw [slot_eq_point]
          omega
        rw [← earlySlot_iff]
        exact h j (hlater j hnow) hnow
      apply landsOnLatest_of hp
      · rw [hskip]
        exact (slot_le_iff tl _ now).mpr hboth.1
      · rw [hskip, ← not_le]
        show ¬ tl.slot _ ≤ now
        rw [slot_le_iff]
        exact not_le.mpr hboth.2
  · -- Not a full period late: nothing is skipped, and no later slot is due.
    rw [not_le] at hlate
    have hstay : tl.skipLate now = (tl, 0) := by rw [skipLate, if_pos (Or.inr hlate)]
    refine iff_of_true (landsOnLatest_of hp ?_ ?_) ?_
    · rw [hstay]
      exact hdue
    · rw [hstay]
      exact hlate
    · intro j hj hnow
      have hle : tl.slot (tl.k + 1) ≤ tl.slot j := by
        rcases Nat.eq_or_lt_of_le (Nat.succ_le_of_lt hj) with rfl | hlt
        · exact le_refl _
        · exact le_of_lt (slot_lt_slot hp hlt)
      omega

/-- Three actions a second on a 10 MHz counter: a third of a second is no whole number of ticks. -/
def thirds : Timeline := { period := 10000000 / 3 }

/-- A tick after the second slot, skipping lands on it. -/
theorem thirds_lands : thirds.LandsOnLatest 6666668 ∧ ¬ thirds.LandsOnLatest 3333333 := by
  have hp : 1 ≤ thirds.period := by norm_num [thirds]
  have hslot : ∀ j, thirds.slot j = ⌊(j : ℚ) * (10000000 / 3) + 1 / 2⌋ := fun j => zero_add _
  constructor
  · refine (landsOnLatest_iff thirds 6666668 hp (by norm_num [next, slot, thirds])).mpr ?_
    intro j _ hj
    rw [hslot, Int.floor_eq_iff] at hj
    norm_num at hj
    -- No multiple of a third of a second is rounded to this reading.
    have hlow : (1 : ℚ) < j := by linarith
    have hhigh : (j : ℚ) < 3 := by linarith
    have hj2 : j = 2 := by
      have h1 : 1 < j := by exact_mod_cast hlow
      have h3 : j < 3 := by exact_mod_cast hhigh
      omega
    subst hj2
    norm_num at hj
  · rw [landsOnLatest_iff thirds 3333333 hp (by norm_num [next, slot, thirds])]
    intro h
    refine h 1 (by norm_num [thirds]) ?_ ?_
    · rw [hslot]
      norm_num
    · norm_num [EarlySlot, slot, thirds]

/-- At the reading of the next slot, rounded down to it, skipping stays on the slot before. -/
theorem thirds_stays : ¬ ∀ (tl : Timeline) (now : ℤ), 1 ≤ tl.period → tl.next ≤ now →
    tl.LandsOnLatest now := by
  intro h
  have hlands := h thirds 3333333 (by decide +kernel) (by decide +kernel)
  exact absurd hlands.latest (by decide +kernel)

end Timeline

end InfinityClicker
