import Mathlib.Algebra.Order.Floor.Ring
import Mathlib.Data.List.Sort
import Mathlib.Data.Rat.Floor

namespace NearestRank

/-!
# Nearest ranks

The nearest-rank percentile of a list is one of its elements, told by two counts: how many elements
are no larger and how many are smaller.  Under a monotone map to buckets the counts are those of the
buckets, so cumulated counts find the bucket of the element without the list.

* `Ranked` — the element of a rank, by counting;
* `percentile` — the element of a sorted list; `percentile_ranked`;
* `Ranked.bucket`, `sum_countP` — where the cumulated counts reach the rank.
-/

variable {α β : Type} [LinearOrder α] [LinearOrder β]

/-- `x` is the element of rank `k` in ascending order, the least one's being 1. -/
structure Ranked (xs : List α) (k : ℕ) (x : α) : Prop where
  mem : x ∈ xs
  le : k ≤ xs.countP (· ≤ x)
  lt : xs.countP (· < x) < k

/-- A larger rank, no smaller an element. -/
theorem Ranked.mono {xs : List α} {k l : ℕ} {x y : α} (hx : Ranked xs k x) (hy : Ranked xs l y)
    (h : k ≤ l) : x ≤ y := by
  by_contra hlt
  rw [not_le] at hlt
  have hcount : xs.countP (· ≤ y) ≤ xs.countP (· < x) := by
    refine List.countP_mono_left fun z _ hz => ?_
    rw [decide_eq_true_iff] at hz ⊢
    exact lt_of_le_of_lt hz hlt
  have hle := hy.le
  have hlt' := hx.lt
  omega

/-- **The bucket of the element** is the first whose cumulated count reaches the rank. -/
theorem Ranked.bucket {f : α → β} {xs : List α} {k : ℕ} {x : α} (h : Ranked xs k x)
    (hf : ∀ y ∈ xs, ∀ z ∈ xs, y ≤ z → f y ≤ f z) :
    k ≤ xs.countP (fun y => f y ≤ f x) ∧ xs.countP (fun y => f y < f x) < k := by
  constructor
  · refine le_trans h.le (List.countP_mono_left fun y hy hle => ?_)
    rw [decide_eq_true_iff] at hle ⊢
    exact hf y hy x h.mem hle
  · refine lt_of_le_of_lt (List.countP_mono_left fun y hy hlt => ?_) h.lt
    rw [decide_eq_true_iff] at hlt ⊢
    by_contra hge
    exact absurd hlt (not_lt.mpr (hf x h.mem y hy (not_lt.mp hge)))

/-- **Cumulated counts.** The counts of several buckets add up to that of all of them. -/
theorem sum_countP {α γ : Type} [DecidableEq γ] (f : α → γ) (xs : List α) {is : List γ}
    (his : is.Nodup) :
    (is.map fun i => xs.countP (f · = i)).sum = xs.countP (f · ∈ is) := by
  induction xs with
  | nil => simp
  | cons x xs ih =>
    -- One element counts in one bucket.
    have hcount : (is.map fun i => if f x = i then 1 else 0).sum = is.count (f x) := by
      clear his ih
      induction is with
      | nil => rfl
      | cons i is ih =>
        rw [List.map_cons, List.sum_cons, ih, List.count_cons]
        simp only [beq_iff_eq, eq_comm (a := i)]
        exact Nat.add_comm _ _
    have hone : (is.map fun i => if f x = i then 1 else 0).sum = if f x ∈ is then 1 else 0 := by
      rw [hcount, his.count]
    have hcons : ∀ i, (x :: xs).countP (f · = i) = xs.countP (f · = i) + if f x = i then 1 else 0 :=
      fun i => by simp [List.countP_cons]
    simp only [hcons, List.sum_map_add, ih, hone, List.countP_cons, decide_eq_true_iff]

/-! ### Sorted lists -/

/-- In a sorted list the place is the rank. -/
theorem ranked_getElem {s : List α} (hs : s.Pairwise (· ≤ ·)) {i : ℕ} (hi : i < s.length) :
    Ranked s (i + 1) s[i] := by
  have hsplit := List.take_append_drop i s
  have hrest := List.drop_eq_getElem_cons hi
  have hpair := hs
  rw [← hsplit, hrest, List.pairwise_append, List.pairwise_cons] at hpair
  obtain ⟨-, ⟨hafter, -⟩, hbefore⟩ := hpair
  have hlen : (s.take i).length = i := by
    rw [List.length_take]
    omega
  refine ⟨List.getElem_mem hi, ?_, ?_⟩
  · -- The elements up to it are no larger.
    have hall : (s.take i).countP (· ≤ s[i]) = i := by
      rw [List.countP_eq_length.mpr fun y hy => ?_, hlen]
      exact decide_eq_true (hbefore y hy s[i] List.mem_cons_self)
    have hcount : s.countP (· ≤ s[i]) =
        (s.take i).countP (· ≤ s[i]) + (s[i] :: s.drop (i + 1)).countP (· ≤ s[i]) := by
      rw [← hrest, ← List.countP_append, hsplit]
    have hself : 0 < (s[i] :: s.drop (i + 1)).countP (· ≤ s[i]) :=
      List.countP_pos_iff.mpr ⟨s[i], List.mem_cons_self, by simp⟩
    omega
  · -- The elements from it on are no smaller.
    have hnone : (s[i] :: s.drop (i + 1)).countP (· < s[i]) = 0 := by
      rw [List.countP_eq_zero]
      intro y hy
      rw [decide_eq_true_iff, not_lt]
      rcases List.mem_cons.mp hy with rfl | hy
      · exact le_refl _
      · exact hafter y hy
    have hcount : s.countP (· < s[i]) =
        (s.take i).countP (· < s[i]) + (s[i] :: s.drop (i + 1)).countP (· < s[i]) := by
      rw [← hrest, ← List.countP_append, hsplit]
    have hle : (s.take i).countP (· < s[i]) ≤ (s.take i).length := List.countP_le_length
    omega

/-- Ranks do not depend on the order of the list. -/
theorem Ranked.perm {xs ys : List α} {k : ℕ} {x : α} (h : Ranked xs k x) (hp : xs.Perm ys) :
    Ranked ys k x := by
  refine ⟨hp.mem_iff.mp h.mem, ?_, ?_⟩
  · rw [← hp.countP_eq]
    exact h.le
  · rw [← hp.countP_eq]
    exact h.lt

/-! ### Percentiles -/

/-- The rank of a quantile among `n`. -/
def rank (q : ℚ) (n : ℕ) : ℕ := ⌈q * n⌉.toNat

theorem rank_pos {q : ℚ} (hq : 0 < q) {n : ℕ} (hn : 0 < n) : 0 < rank q n := by
  have hpos : (0 : ℚ) < q * n := mul_pos hq (by exact_mod_cast hn)
  have hceil := Int.ceil_pos.mpr hpos
  rw [rank]
  omega

theorem rank_le {q : ℚ} (hq : q ≤ 1) (n : ℕ) : rank q n ≤ n := by
  have hle : q * n ≤ n := mul_le_of_le_one_left (Nat.cast_nonneg n) hq
  have hceil : ⌈q * n⌉ ≤ n := Int.ceil_le.mpr (by exact_mod_cast hle)
  rw [rank]
  omega

theorem rank_mono {q r : ℚ} (h : q ≤ r) (n : ℕ) : rank q n ≤ rank r n := by
  have hle : q * n ≤ r * n := mul_le_mul_of_nonneg_right h (Nat.cast_nonneg n)
  have hceil := Int.ceil_le_ceil hle
  rw [rank, rank]
  omega

/-- The nearest-rank percentile: the `⌈q * n⌉`-th smallest of `n` elements. -/
def percentile (xs : List α) (q : ℚ) : Option α :=
  (xs.insertionSort (· ≤ ·))[rank q xs.length - 1]?

/-- **A percentile** is the element of its rank, and there is one. -/
theorem percentile_ranked {xs : List α} (hne : xs ≠ []) {q : ℚ} (hpos : 0 < q) (hle : q ≤ 1) :
    ∃ x, percentile xs q = some x ∧ Ranked xs (rank q xs.length) x := by
  have hrank := rank_pos hpos (List.length_pos_of_ne_nil hne)
  have hlen := rank_le hle xs.length
  have hi : rank q xs.length - 1 < (xs.insertionSort (· ≤ ·)).length := by
    rw [List.length_insertionSort]
    omega
  refine ⟨_, List.getElem?_eq_getElem hi, ?_⟩
  have hranked := ranked_getElem (List.pairwise_insertionSort (· ≤ ·) xs) hi
  rw [Nat.sub_add_cancel hrank] at hranked
  exact hranked.perm (List.perm_insertionSort (· ≤ ·) xs)

end NearestRank
