import Mathlib.Algebra.BigOperators.Group.List.Basic
import Mathlib.Algebra.Order.Group.Int
import Mathlib.Tactic.Ring

namespace TimedCounts

/-!
# Counting events by time

Events happen so many at a time; how many fall into a window of time, and into the slots of equal
length before a moment.

* `countIn` — the events in a half-open window, additive in it;
* `slot` — the events in a slot; `sum_slots` adds slots up to a window;
* `countIn_eq_iff` — when a window that has moved on holds as many events as before.
-/

/-- The number of events in `[a, b)`; each entry is a time and how many happen then. -/
def countIn (events : List (ℤ × ℕ)) (a b : ℤ) : ℕ :=
  (events.map fun e => if a ≤ e.1 ∧ e.1 < b then e.2 else 0).sum

variable {events : List (ℤ × ℕ)} {a b c d : ℤ}

theorem countIn_snoc (events : List (ℤ × ℕ)) (t : ℤ) (n : ℕ) (a b : ℤ) :
    countIn (events ++ [(t, n)]) a b = countIn events a b + if a ≤ t ∧ t < b then n else 0 := by
  rw [countIn, List.map_append, List.sum_append, List.map_singleton, List.sum_singleton]
  rfl

theorem countIn_eq_zero (h : ∀ e ∈ events, e.1 < a ∨ b ≤ e.1) : countIn events a b = 0 := by
  apply List.sum_eq_zero
  intro n hn
  obtain ⟨e, he, rfl⟩ := List.mem_map.mp hn
  have hout := h e he
  rw [if_neg (by omega)]

theorem countIn_self (events : List (ℤ × ℕ)) (a : ℤ) : countIn events a a = 0 :=
  countIn_eq_zero fun e _ => lt_or_ge e.1 a

/-- A window is two after one another. -/
theorem countIn_add (events : List (ℤ × ℕ)) (hab : a ≤ b) (hbc : b ≤ c) :
    countIn events a b + countIn events b c = countIn events a c := by
  rw [countIn, countIn, countIn, ← List.sum_map_add]
  congr 1
  refine List.map_congr_left fun e _ => ?_
  by_cases hb : e.1 < b
  · have hc : e.1 < c := by omega
    simp [hb, hc]
  · have ha : a ≤ e.1 := by omega
    simp [hb, ha, not_lt.mp hb]

/-- **A window that has moved on** holds as many events as before when as many have left it as have
    come in. -/
theorem countIn_eq_iff (events : List (ℤ × ℕ)) (hac : a ≤ c) (hbd : b ≤ d) :
    countIn events a b = countIn events c d ↔
      countIn events a (min b c) = countIn events (max b c) d := by
  rcases le_total b c with hbc | hcb
  · rw [min_eq_left hbc, max_eq_right hbc]
  · have hleft := countIn_add events hac hcb
    have hright := countIn_add events hcb hbd
    rw [min_eq_right hcb, max_eq_left hcb]
    omega

/-! ### Slots -/

/-- The events in the `k`-th slot of length `len` before `s`, the last one's number being 0. -/
def slot (events : List (ℤ × ℕ)) (s len : ℤ) (k : ℕ) : ℕ :=
  countIn events (s - (k + 1) * len) (s - k * len)

theorem slot_zero (events : List (ℤ × ℕ)) (s len : ℤ) :
    slot events (s + len) len 0 = countIn events s (s + len) := by
  rw [slot]
  congr 1 <;> push_cast <;> ring

/-- A slot later every slot is one further back. -/
theorem slot_succ (events : List (ℤ × ℕ)) (s len : ℤ) (k : ℕ) :
    slot events (s + len) len (k + 1) = slot events s len k := by
  rw [slot, slot]
  congr 1 <;> push_cast <;> ring

theorem slot_snoc {events : List (ℤ × ℕ)} {s len t : ℤ} (hlen : 0 ≤ len) (ht : s ≤ t) (n k : ℕ) :
    slot (events ++ [(t, n)]) s len k = slot events s len k := by
  have hpast : 0 ≤ k * len := Int.mul_nonneg (by omega) hlen
  rw [slot, countIn_snoc, if_neg (by omega), Nat.add_zero]
  rfl

/-- Slots after all events are empty. -/
theorem slot_eq_zero {events : List (ℤ × ℕ)} {s len : ℤ} {k n : ℕ} (hlen : 0 ≤ len) (hk : k < n)
    (h : ∀ e ∈ events, e.1 < s - n * len) : slot events s len k = 0 := by
  refine countIn_eq_zero fun e he => .inl (lt_of_lt_of_le (h e he) ?_)
  have hle : ((k : ℤ) + 1) * len ≤ n * len := Int.mul_le_mul_of_nonneg_right (by omega) hlen
  omega

/-- **Slots** add up to the window they fill. -/
theorem sum_slots (events : List (ℤ × ℕ)) (s : ℤ) {len : ℤ} (hlen : 0 ≤ len) (n : ℕ) :
    ((List.range n).map (slot events s len)).sum = countIn events (s - n * len) s := by
  induction n with
  | zero => simp [countIn_self]
  | succ n ih =>
    have hpast : 0 ≤ n * len := Int.mul_nonneg (by omega) hlen
    rw [List.range_succ, List.map_append, List.sum_append, ih, List.map_singleton,
      List.sum_singleton, slot, Nat.add_comm, countIn_add events]
    · push_cast
      rfl
    · have hstep : ((n : ℤ) + 1) * len = n * len + len := by ring
      omega
    · omega

end TimedCounts
