import Mathlib.Data.List.DropRight
import Mathlib.Order.Interval.Finset.Nat

namespace RingBuffers

/-!
# Ring buffers that overwrite their oldest element

A ring of `cap` cells takes any number of elements and keeps the newest `cap` of them.  It has a
head, the cell the next element goes to, and the number of cells that are filled.

* `Buffer.push` — an element is put in;
* `Holds` — what a ring keeps of the elements pushed so far; `holds_new`, `Holds.push`,
  `Holds.pushAll`;
* `Holds.oldest_first`, `Holds.newest_first` — the two readings that count from the head;
* `Holds.cells_perm` — the reading of the cells as they lie.
-/

variable {α : Type*} {cap : ℕ}

structure Buffer (α : Type*) where
  cells : ℕ → α
  /-- The cell the next element goes to. -/
  head : ℕ := 0
  filled : ℕ := 0

namespace Buffer

def push (cap : ℕ) (r : Buffer α) (x : α) : Buffer α :=
  { cells := Function.update r.cells r.head x
    head := (r.head + 1) % cap
    filled := if r.filled < cap then r.filled + 1 else r.filled }

def pushAll (cap : ℕ) (r : Buffer α) (xs : List α) : Buffer α := xs.foldl (push cap) r

end Buffer

/-- The ring holds the newest of the elements pushed so far, each in the cell of its number. -/
structure Holds (cap : ℕ) (r : Buffer α) (pushed : List α) : Prop where
  head : r.head = pushed.length % cap
  filled : r.filled = min cap pushed.length
  cell : ∀ j < pushed.length, pushed.length ≤ j + cap → pushed[j]? = some (r.cells (j % cap))

variable {r : Buffer α} {pushed : List α}

theorem holds_new (cap : ℕ) (cells : ℕ → α) : Holds cap ⟨cells, 0, 0⟩ [] where
  head := (Nat.zero_mod cap).symm
  filled := (Nat.min_zero cap).symm
  cell j hj := absurd hj (Nat.not_lt_zero j)

/-- Numbers less than `cap` apart have different cells. -/
theorem mod_ne_of_lt {j n : ℕ} (hlt : j < n) (hnear : n < j + cap) : j % cap ≠ n % cap := by
  intro hsame
  have hmod := Nat.sub_mod_eq_zero_of_mod_eq hsame.symm
  have hsmall : n - j < cap := by omega
  rw [Nat.mod_eq_of_lt hsmall] at hmod
  omega

/-- **A push** takes the cell of the oldest element once the ring is full. -/
theorem Holds.push (h : Holds cap r pushed) (x : α) :
    Holds cap (r.push cap x) (pushed ++ [x]) where
  head := by
    show (r.head + 1) % cap = _
    rw [List.length_append, List.length_singleton, h.head, Nat.mod_add_mod]
  filled := by
    show (if r.filled < cap then r.filled + 1 else r.filled) = _
    rw [List.length_append, List.length_singleton, h.filled]
    split <;> omega
  cell j hj hnear := by
    rw [List.length_append, List.length_singleton] at hj hnear
    show _ = some (Function.update r.cells r.head x (j % cap))
    rw [h.head]
    rcases Nat.lt_or_eq_of_le (Nat.le_of_lt_succ hj) with hlt | rfl
    · -- An older element keeps its cell.
      have hne : j % cap ≠ pushed.length % cap := mod_ne_of_lt hlt (by omega)
      rw [Function.update_of_ne hne, List.getElem?_append_left hlt]
      exact h.cell j hlt (by omega)
    · rw [Function.update_self, List.getElem?_concat_length]

theorem Holds.pushAll (h : Holds cap r pushed) (xs : List α) :
    Holds cap (r.pushAll cap xs) (pushed ++ xs) := by
  induction xs generalizing r pushed with
  | nil =>
    rw [List.append_nil]
    exact h
  | cons x xs ih =>
    have hrest := ih (h.push x)
    rw [List.append_assoc] at hrest
    exact hrest

/-! ### Readings from the head -/

/-- Counting back from the head. -/
theorem back_mod {n i : ℕ} (hcap : i ≤ cap) (hn : i ≤ n) :
    (n % cap + cap - i) % cap = (n - i) % cap := by
  have hdiv := Nat.div_add_mod n cap
  have hsplit : n - i + cap = n % cap + cap - i + cap * (n / cap) := by omega
  calc (n % cap + cap - i) % cap
      = (n % cap + cap - i + cap * (n / cap)) % cap := (Nat.add_mul_mod_self_left _ _ _).symm
    _ = (n - i + cap) % cap := by rw [hsplit]
    _ = (n - i) % cap := Nat.add_mod_right _ _

theorem Holds.filled_le (h : Holds cap r pushed) :
    r.filled ≤ cap ∧ r.filled ≤ pushed.length := by
  rw [h.filled]
  exact ⟨Nat.min_le_left _ _, Nat.min_le_right _ _⟩

/-- The newest elements are in the cells of their numbers. -/
theorem Holds.rtake_eq (h : Holds cap r pushed) :
    pushed.rtake cap =
      (List.range r.filled).map fun i => r.cells ((pushed.length - r.filled + i) % cap) := by
  have hfilled := h.filled
  have hstart : pushed.length - cap = pushed.length - r.filled := by omega
  rw [List.rtake, hstart]
  refine List.ext_getElem? fun i => ?_
  rw [List.getElem?_drop, List.getElem?_map]
  rcases Nat.lt_or_ge i r.filled with hi | hi
  · rw [List.getElem?_range hi]
    exact h.cell _ (by omega) (by omega)
  · have hout : (List.range r.filled)[i]? = none :=
      List.getElem?_eq_none (by rw [List.length_range]; exact hi)
    rw [List.getElem?_eq_none (by omega), hout]
    rfl

/-- **The oldest first**: from as many cells before the head as are filled. -/
theorem Holds.oldest_first (h : Holds cap r pushed) :
    ((List.range r.filled).map fun i => r.cells ((r.head + cap - r.filled + i) % cap)) =
      pushed.rtake cap := by
  obtain ⟨hcap, hlen⟩ := h.filled_le
  rw [h.rtake_eq]
  refine List.map_congr_left fun i _ => ?_
  rw [h.head, ← Nat.mod_add_mod, back_mod hcap hlen, Nat.mod_add_mod]

/-- **The newest first**: back from the cell before the head. -/
theorem Holds.newest_first (h : Holds cap r pushed) (n : ℕ) :
    ((List.range (min n r.filled)).map fun i => r.cells ((r.head + cap - (i + 1)) % cap)) =
      pushed.reverse.take (min n cap) := by
  obtain ⟨hcap, hlen⟩ := h.filled_le
  have hfilled := h.filled
  refine List.ext_getElem? fun i => ?_
  rw [List.getElem?_map, List.getElem?_take]
  rcases Nat.lt_or_ge i (min n r.filled) with hi | hi
  · have hback : pushed.length - 1 - i = pushed.length - (i + 1) := by omega
    rw [List.getElem?_range hi, if_pos (by omega), List.getElem?_reverse (by omega), hback,
      h.cell _ (by omega) (by omega), h.head, ← back_mod (by omega) (by omega)]
    rfl
  · have hout : (List.range (min n r.filled))[i]? = none :=
      List.getElem?_eq_none (by rw [List.length_range]; exact hi)
    rw [hout]
    split
    · rw [List.getElem?_eq_none (by rw [List.length_reverse]; omega)]
      rfl
    · rfl

/-! ### The cells as they lie -/

/-- `cap` numbers in a row have the cells from 0 on. -/
theorem range_mod_perm (start cap : ℕ) :
    ((List.range cap).map fun i => (start + i) % cap).Perm (List.range cap) := by
  have hcells := Nat.multiset_Ico_map_mod start cap
  have hrow : (List.range cap).map (fun i => (start + i) % cap) =
      (List.range' start (start + cap - start)).map (· % cap) := by
    rw [Nat.add_sub_cancel_left, List.range'_eq_map_range, List.map_map]
    rfl
  rw [hrow]
  exact Multiset.coe_eq_coe.mp hcells

/-- **The cells from 0 on** are the newest elements in some order. -/
theorem Holds.cells_perm (h : Holds cap r pushed) :
    ((List.range r.filled).map r.cells).Perm (pushed.rtake cap) := by
  have hfilled := h.filled
  rw [h.rtake_eq]
  rcases Nat.le_total pushed.length cap with hfew | hfull
  · -- No cell has been used twice.
    have hsame : ((List.range r.filled).map fun i =>
        r.cells ((pushed.length - r.filled + i) % cap)) = (List.range r.filled).map r.cells := by
      refine List.map_congr_left fun i hi => ?_
      have hlt := List.mem_range.mp hi
      have hcell : pushed.length - r.filled + i = i := by omega
      rw [hcell, Nat.mod_eq_of_lt (by omega)]
    rw [hsame]
  · have hcap : r.filled = cap := by omega
    have hperm := (range_mod_perm (pushed.length - cap) cap).map r.cells
    rw [List.map_map] at hperm
    rw [hcap]
    exact hperm.symm

/-- A ring that has been given one element often enough holds nothing else. -/
theorem rtake_append_replicate (xs : List α) (x : α) {m : ℕ} (hm : cap ≤ m) :
    (xs ++ List.replicate m x).rtake cap = List.replicate cap x := by
  have hstart : (xs ++ List.replicate m x).length - cap = xs.length + (m - cap) := by
    rw [List.length_append, List.length_replicate]
    omega
  rw [List.rtake, hstart, List.drop_append, List.drop_of_length_le (by omega), List.nil_append,
    List.drop_replicate]
  congr 1
  omega

end RingBuffers
