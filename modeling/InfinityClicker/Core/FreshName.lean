import Mathlib.Data.Finset.Card
import Mathlib.Order.Interval.Finset.Nat

namespace Fresh

/-!
# Searching a free name among numbered candidates

* `firstFree` — the first of a bounded run of candidates that is not taken;
* `firstFree_spec` — it is a candidate and it is free;
* `exists_firstFree` — more candidates than names are taken: there is one.
-/

variable {α : Type*}

/-- The first free candidate among `cand lo, …, cand (lo + n - 1)`. -/
def firstFree (taken : α → Bool) (cand : ℕ → α) (lo : ℕ) : ℕ → Option α
  | 0 => none
  | n + 1 => if taken (cand lo) then firstFree taken cand (lo + 1) n else some (cand lo)

theorem firstFree_spec {taken : α → Bool} {cand : ℕ → α} {lo n : ℕ} {x : α}
    (h : firstFree taken cand lo n = some x) :
    taken x = false ∧ ∃ i, lo ≤ i ∧ i < lo + n ∧ x = cand i := by
  fun_induction firstFree taken cand lo n with
  | case1 => exact absurd h (by simp)
  | case2 lo n htaken ih =>
    obtain ⟨hfree, i, hlo, hhi, hx⟩ := ih h
    exact ⟨hfree, i, by omega, by omega, hx⟩
  | case3 lo n hfree =>
    obtain rfl : cand lo = x := by simpa using h
    exact ⟨by simpa using hfree, lo, by omega, by omega, rfl⟩

/-- No candidate is free: all are taken. -/
theorem taken_of_firstFree {taken : α → Bool} {cand : ℕ → α} {lo n : ℕ}
    (h : firstFree taken cand lo n = none) :
    ∀ i ∈ Finset.Ico lo (lo + n), taken (cand i) = true := by
  fun_induction firstFree taken cand lo n with
  | case1 =>
    intro i hi
    rw [Finset.mem_Ico] at hi
    omega
  | case2 lo n htaken ih =>
    intro i hi
    rw [Finset.mem_Ico] at hi
    by_cases heq : i = lo
    · rw [heq]
      exact htaken
    · apply ih h
      rw [Finset.mem_Ico]
      omega
  | case3 => exact absurd h (by simp)

/-- **There is a free candidate** when the candidates differ and fewer names than candidates are
    in their way. -/
theorem exists_firstFree {taken : α → Bool} {cand : ℕ → α} {lo n : ℕ} (used : List α)
    (hinj : Function.Injective cand) (hused : ∀ i, taken (cand i) = true → cand i ∈ used)
    (hlen : used.length < n) : ∃ x, firstFree taken cand lo n = some x := by
  classical
  by_contra hnone
  rw [not_exists] at hnone
  have htaken := taken_of_firstFree (Option.eq_none_iff_forall_ne_some.mpr hnone)
  -- All `n` candidates would be among the names in the way.
  have hmaps : ∀ i ∈ Finset.Ico lo (lo + n), cand i ∈ used.toFinset := by
    intro i hi
    rw [List.mem_toFinset]
    exact hused i (htaken i hi)
  have hcard := Finset.card_le_card_of_injOn cand hmaps hinj.injOn
  rw [Nat.card_Ico] at hcard
  have hnames := used.toFinset_card_le
  omega

end Fresh
