import InfinityClicker.Core.NearestRank
import Mathlib.Algebra.Order.BigOperators.Group.List

namespace InfinityClicker

open NearestRank

/-!
# The log-linear histogram

Durations in nanoseconds are counted in buckets, eight for each power of two; a percentile is the
middle of the bucket where the cumulated counts reach its rank.

* `LogHistogram.index` / `bucketMid` — the bucket of a sample, and its middle;
* `bucket_of_lt` — the two in one closed form, from which they are monotone and near each other;
* `buckets_logLinear` — each sample has one bucket, and each bucket its middle;
* `ofSamples_counts` — what the cells hold after samples were added;
* `percentile_bucket` — the loop ends at the bucket of the sample of the rank;
* `percentile_accurate` — how far the middle is from that sample.
-/

namespace LogHistogram

/-- Bits of a value below its highest one that tell the buckets of an octave. -/
def kSubBits : ℕ := 3

/-- Buckets of an octave. -/
def kSub : ℕ := 1 <<< kSubBits
/-- About 1100 s. -/
def kMaxMsb : ℕ := 40

/-- Buckets in all; below the first octave each value has its own. -/
def kBuckets : ℕ := (kMaxMsb - kSubBits + 1) * kSub + kSub

/-- `LogHistogram::index`. -/
def index (v : ℕ) : ℕ :=
  if v < kSub then v
  else
    -- `_BitScanReverse64`.
    let msb := Nat.log2 v
    if kMaxMsb < msb then kBuckets - 1
    else
      let shift := msb - kSubBits
      let sub := v >>> shift &&& (kSub - 1)
      (msb - kSubBits + 1) * kSub + sub

/-- `LogHistogram::bucketMid`: the value that stands for a bucket. -/
def bucketMid (idx : ℕ) : ℕ :=
  if idx < kSub then idx
  else
    let msb := idx / kSub + kSubBits - 1
    let sub := idx % kSub
    let shift := msb - kSubBits
    let lower := (kSub + sub) <<< shift
    lower + (1 <<< shift) >>> 1

/-! ### Buckets -/

/-- **The bucket of a sample** is told by the shift that leaves four bits of it. -/
theorem bucket_of_lt {v : ℕ} (hv : v < 2 ^ 41) :
    ∃ shift ≤ 37, v < 16 * 2 ^ shift ∧ (shift = 0 ∨ 8 * 2 ^ shift ≤ v) ∧
      index v = shift * 8 + v / 2 ^ shift ∧
      bucketMid (index v) = v / 2 ^ shift * 2 ^ shift + 2 ^ shift / 2 := by
  have hsub : kSub = 8 := rfl
  by_cases hsmall : v < 8
  · have hindex : index v = v := if_pos hsmall
    refine ⟨0, by omega, by omega, .inl rfl, by rw [hindex]; omega, ?_⟩
    rw [hindex, bucketMid, if_pos (by omega)]
    omega
  · -- The three bits below the first one are the place in its eight buckets.
    obtain ⟨shift, hshift⟩ : ∃ shift, Nat.log2 v = shift + 3 := by
      have hlog : 3 ≤ Nat.log2 v := (Nat.le_log2 (by omega)).mpr (by omega)
      exact ⟨Nat.log2 v - 3, by omega⟩
    -- The highest bit tells the octave, and the three bits below it the bucket.
    have hlow : 2 ^ (shift + 3) ≤ v := by
      rw [← hshift]
      exact Nat.log2_self_le (by omega)
    have hhigh : v < 2 ^ (shift + 3 + 1) := by
      rw [← hshift]
      exact Nat.lt_log2_self
    have hle : shift ≤ 37 := by
      have hlog : Nat.log2 v < 41 := (Nat.log2_lt (by omega)).mpr hv
      omega
    have hpos : 0 < 2 ^ shift := by positivity
    rw [pow_add] at hlow
    rw [pow_add, pow_add] at hhigh
    have hdiv : 8 ≤ v / 2 ^ shift := (Nat.le_div_iff_mul_le hpos).mpr (by omega)
    have hdiv' : v / 2 ^ shift < 16 := (Nat.div_lt_iff_lt_mul hpos).mpr (by omega)
    have hindex : index v = shift * 8 + v / 2 ^ shift := by
      have hmask : v / 2 ^ shift &&& 7 = v / 2 ^ shift % 8 :=
        Nat.and_two_pow_sub_one_eq_mod (v / 2 ^ shift) 3
      rw [index, if_neg (by omega)]
      dsimp only
      rw [hshift, if_neg (by unfold kMaxMsb; omega), kSubBits, hsub, Nat.add_sub_cancel,
        Nat.shiftRight_eq_div_pow, hmask]
      omega
    refine ⟨shift, hle, by omega, .inr (by omega), hindex, ?_⟩
    -- The middle of the bucket lies half a bucket above its lower end.
    rw [hindex, bucketMid, if_neg (by omega)]
    dsimp only
    have hquot : (shift * 8 + v / 2 ^ shift) / 8 + 3 - 1 - 3 = shift := by omega
    have hrem : 8 + (shift * 8 + v / 2 ^ shift) % 8 = v / 2 ^ shift := by omega
    rw [hsub, kSubBits, hquot, hrem, Nat.shiftLeft_eq, Nat.shiftLeft_eq, one_mul,
      Nat.shiftRight_eq_div_pow, pow_one]

/-- The samples past the greatest bit are in the last bucket. -/
theorem index_of_le {v : ℕ} (hv : 2 ^ 41 ≤ v) : index v = kBuckets - 1 := by
  have hlog : 41 ≤ Nat.log2 v := (Nat.le_log2 (by omega)).mpr hv
  have hsub : kSub = 8 := rfl
  rw [index, if_neg (by omega)]
  dsimp only
  rw [if_pos (by unfold kMaxMsb; omega)]

/-- Each sample has a cell. -/
theorem index_lt (v : ℕ) : index v < kBuckets := by
  have hbuckets : kBuckets = 312 := rfl
  by_cases hv : v < 2 ^ 41
  · obtain ⟨shift, hshift, hlt, -, hindex, -⟩ := bucket_of_lt hv
    have hdiv : v / 2 ^ shift < 16 := (Nat.div_lt_iff_lt_mul (by positivity)).mpr hlt
    omega
  · rw [index_of_le (not_lt.mp hv)]
    omega

/-- Of two samples the larger one is in the same eight buckets, or past them. -/
theorem shift_cases {v w s t : ℕ} (h : v ≤ w) (hs : s = 0 ∨ 8 * 2 ^ s ≤ v) (hw : w < 16 * 2 ^ t) :
    s = t ∨ s < t ∧ 2 * 2 ^ s ≤ 2 ^ t := by
  have hdouble : ∀ {a b : ℕ}, a < b → 2 * 2 ^ a ≤ 2 ^ b := by
    intro a b hab
    calc 2 * 2 ^ a = 2 ^ (a + 1) := (pow_succ' 2 a).symm
      _ ≤ 2 ^ b := Nat.pow_le_pow_right (by norm_num) hab
  rcases lt_trichotomy s t with hlt | heq | hgt
  · exact .inr ⟨hlt, hdouble hlt⟩
  · exact .inl heq
  · have htwo := hdouble hgt
    omega

/-- A larger value is in no lower bucket. -/
theorem index_mono {v w : ℕ} (hw : w < 2 ^ 41) (h : v ≤ w) : index v ≤ index w := by
  obtain ⟨s, -, hslt, hs, hv, -⟩ := bucket_of_lt (lt_of_le_of_lt h hw)
  obtain ⟨t, -, htlt, ht, hw, -⟩ := bucket_of_lt hw
  rw [hv, hw]
  rcases shift_cases h hs htlt with rfl | ⟨hlt, -⟩
  · have hdiv := Nat.div_le_div_right (c := 2 ^ s) h
    omega
  · have hlow : v / 2 ^ s < 16 := (Nat.div_lt_iff_lt_mul (by positivity)).mpr hslt
    have hhigh : 8 ≤ w / 2 ^ t := (Nat.le_div_iff_mul_le (by positivity)).mpr (by omega)
    omega

/-- Nor is the value that stands for it smaller. -/
theorem bucketMid_mono {v w : ℕ} (hw : w < 2 ^ 41) (h : v ≤ w) :
    bucketMid (index v) ≤ bucketMid (index w) := by
  obtain ⟨s, -, hslt, hs, -, hv⟩ := bucket_of_lt (lt_of_le_of_lt h hw)
  obtain ⟨t, -, htlt, ht, -, hw⟩ := bucket_of_lt hw
  rw [hv, hw]
  rcases shift_cases h hs htlt with rfl | ⟨hlt, htwo⟩
  · have hdiv := Nat.mul_le_mul_right (2 ^ s) (Nat.div_le_div_right (c := 2 ^ s) h)
    omega
  · -- The larger sample's bucket starts where the smaller one's eight end.
    have hlow : v / 2 ^ s < 16 := (Nat.div_lt_iff_lt_mul (by positivity)).mpr hslt
    have hhigh : 8 ≤ w / 2 ^ t := (Nat.le_div_iff_mul_le (by positivity)).mpr (by omega)
    have hv16 : v / 2 ^ s * 2 ^ s ≤ 15 * 2 ^ s := Nat.mul_le_mul_right _ (by omega)
    have hw8 : 8 * 2 ^ t ≤ w / 2 ^ t * 2 ^ t := Nat.mul_le_mul_right _ hhigh
    omega

/-- **The middle of a bucket** is within a sixteenth of the bucket's samples. -/
theorem bucketMid_near {v : ℕ} (hv : v < 2 ^ 41) :
    |(bucketMid (index v) : ℚ) - v| ≤ v / 16 ∧ (v < 8 → bucketMid (index v) = v) := by
  obtain ⟨s, -, -, hs, -, hmid⟩ := bucket_of_lt hv
  have hsplit := Nat.div_add_mod' v (2 ^ s)
  have hrem := Nat.mod_lt v (show 0 < 2 ^ s by positivity)
  have hbounds : 16 * bucketMid (index v) ≤ 17 * v ∧ 15 * v ≤ 16 * bucketMid (index v) := by
    rw [hmid]
    rcases Nat.eq_zero_or_pos s with rfl | hpos
    · omega
    · have hhalf : 2 ^ s = 2 * 2 ^ (s - 1) := by
        rw [← pow_succ', Nat.sub_add_cancel hpos]
      omega
  constructor
  · have hhigh : (16 * bucketMid (index v) : ℚ) ≤ 17 * v := by exact_mod_cast hbounds.1
    have hlow : (15 * v : ℚ) ≤ 16 * bucketMid (index v) := by exact_mod_cast hbounds.2
    rw [abs_le]
    constructor <;> linarith
  · intro hsmall
    rcases hs with rfl | hs
    · omega
    · have hpos : 0 < 2 ^ s := by positivity
      omega

/-- **Each bucket holds its middle.** -/
theorem index_bucketMid {i : ℕ} (hi : i < kBuckets) : index (bucketMid i) = i := by
  have hsub : kSub = 8 := rfl
  have hbuckets : kBuckets = 312 := rfl
  by_cases hsmall : i < 8
  · have hmid : bucketMid i = i := if_pos hsmall
    have hindex : index i = i := if_pos hsmall
    rw [hmid, hindex]
  · obtain ⟨shift, hshift⟩ : ∃ shift, i / 8 = shift + 1 := ⟨i / 8 - 1, by omega⟩
    have hmid : bucketMid i = (8 + i % 8) * 2 ^ shift + 2 ^ shift / 2 := by
      have hquot : i / 8 + 3 - 1 - 3 = shift := by omega
      rw [bucketMid, if_neg (by omega)]
      dsimp only
      rw [hsub, kSubBits, hquot, Nat.shiftLeft_eq, Nat.shiftLeft_eq, one_mul,
        Nat.shiftRight_eq_div_pow, pow_one]
    have hpos : 0 < 2 ^ shift := by positivity
    have hle : 8 * 2 ^ shift ≤ (8 + i % 8) * 2 ^ shift := Nat.mul_le_mul_right _ (by omega)
    have hge : (8 + i % 8) * 2 ^ shift ≤ 15 * 2 ^ shift := Nat.mul_le_mul_right _ (by omega)
    have hpow : 2 ^ shift ≤ 2 ^ 37 := Nat.pow_le_pow_right (by norm_num) (by omega)
    obtain ⟨s, -, hlt, hlow, hindex, -⟩ := bucket_of_lt (v := bucketMid i) (by omega)
    -- The middle lies in the eight buckets it was taken from.
    have hsame : s = shift := by
      rcases shift_cases (le_refl (bucketMid i)) hlow (t := shift) (by omega) with
        heq | ⟨-, htwo⟩
      · exact heq
      · omega
    have hdiv : bucketMid i / 2 ^ shift = 8 + i % 8 := by
      rw [hmid, Nat.add_comm, Nat.add_mul_div_right _ _ hpos, Nat.div_eq_of_lt (by omega)]
      omega
    rw [hindex, hsame, hdiv]
    omega

/-- **Log-linear bucketing.**  Every sample has a bucket, and of two samples the larger one is not
    in an earlier bucket; below 2⁴¹ the middle of the bucket is within a sixteenth of the sample,
    and below 8 it is the sample; and the middle of each bucket is in that bucket, so none is
    empty and no two overlap. -/
theorem buckets_logLinear :
    (∀ v, index v < kBuckets) ∧ (∀ v w, v ≤ w → index v ≤ index w) ∧
      (∀ v < 2 ^ 41, |(bucketMid (index v) : ℚ) - v| ≤ v / 16 ∧
        (v < 8 → bucketMid (index v) = v)) ∧
      ∀ i < kBuckets, index (bucketMid i) = i := by
  refine ⟨index_lt, ?_, fun v hv => bucketMid_near hv, fun i hi => index_bucketMid hi⟩
  intro v w hvw
  by_cases hw : w < 2 ^ 41
  · exact index_mono hw hvw
  · have hv := index_lt v
    rw [index_of_le (not_lt.mp hw)]
    omega

end LogHistogram

/-! ### The histogram -/

/-- `LogHistogram`. -/
structure LogHistogram where
  counts : Fin LogHistogram.kBuckets → BitVec 32 := fun _ => 0
  total : BitVec 64 := 0

namespace LogHistogram

/-- The cell of a sample. -/
def cell (ns : ℕ) : Fin kBuckets := ⟨index ns, index_lt ns⟩

/-- `add`: one more sample in its bucket. -/
def add (h : LogHistogram) (ns : ℕ) : LogHistogram :=
  { counts := Function.update h.counts (cell ns) (h.counts (cell ns) + 1)
    total := h.total + 1 }

/-- The loop of `percentile` over the cells that are left. -/
def scan (h : LogHistogram) (target : ℕ) : List (Fin kBuckets) → (acc : ℕ) → ℕ
  | [], _ => bucketMid (kBuckets - 1)
  | i :: is, acc =>
    let acc := acc + (h.counts i).toNat
    if target ≤ acc ∧ h.counts i ≠ 0 then bucketMid i else scan h target is acc

/-- `percentile`: the middle of the bucket the rank falls into. -/
def percentile (h : LogHistogram) (q : ℚ) : ℕ :=
  if h.total = 0 then 0
  else scan h (rank q h.total.toNat) (List.finRange kBuckets) 0

/-- The histogram of the samples since a reset. -/
def ofSamples (xs : List ℕ) : LogHistogram := xs.foldl add {}

/-- No cell has wrapped. -/
def NoWrap (xs : List ℕ) : Prop := ∀ i, xs.countP (cell · = i) < 2 ^ 32

/-! ### What the cells hold -/

/-- A counter counts the samples of its bucket. -/
theorem foldl_add_counts (xs : List ℕ) (h : LogHistogram) (i : Fin kBuckets) :
    (xs.foldl add h).counts i = h.counts i + BitVec.ofNat 32 (xs.countP (cell · = i)) := by
  induction xs generalizing h with
  | nil => simp
  | cons v xs ih =>
    rw [List.foldl_cons, ih, List.countP_cons]
    by_cases hcell : cell v = i
    · subst hcell
      have hadd : (h.add v).counts (cell v) = h.counts (cell v) + 1 := Function.update_self ..
      rw [hadd, if_pos (by simp), BitVec.ofNat_add, BitVec.add_assoc, BitVec.add_comm 1]
      rfl
    · have hadd : (h.add v).counts i = h.counts i := Function.update_of_ne (Ne.symm hcell) ..
      rw [hadd, if_neg (by simpa using hcell), Nat.add_zero]

/-- The total counts the samples. -/
theorem foldl_add_total (xs : List ℕ) (h : LogHistogram) :
    (xs.foldl add h).total = h.total + BitVec.ofNat 64 xs.length := by
  induction xs generalizing h with
  | nil => simp
  | cons v xs ih =>
    rw [List.foldl_cons, ih, List.length_cons, BitVec.ofNat_add]
    show h.total + 1 + BitVec.ofNat 64 xs.length = _
    rw [BitVec.add_assoc, BitVec.add_comm 1]
    rfl

section Samples

variable {xs : List ℕ}

/-- A counter wraps at 32 bits. -/
theorem counts_toNat (xs : List ℕ) (i : Fin kBuckets) :
    ((ofSamples xs).counts i).toNat = xs.countP (cell · = i) % 2 ^ 32 := by
  rw [ofSamples, foldl_add_counts]
  show (0#32 + BitVec.ofNat 32 (xs.countP (cell · = i))).toNat = _
  rw [BitVec.zero_add, BitVec.toNat_ofNat]

/-- The total wraps at 64. -/
theorem total_toNat (xs : List ℕ) : (ofSamples xs).total.toNat = xs.length % 2 ^ 64 := by
  rw [ofSamples, foldl_add_total]
  show (0#64 + BitVec.ofNat 64 xs.length).toNat = _
  rw [BitVec.zero_add, BitVec.toNat_ofNat]

/-- Each sample has one cell. -/
theorem sum_cells (xs : List ℕ) :
    ((List.finRange kBuckets).map fun i => xs.countP (cell · = i)).sum = xs.length := by
  rw [sum_countP cell xs (List.nodup_finRange kBuckets)]
  simp

/-- **A cell** holds the number of its samples. -/
theorem ofSamples_counts (hwrap : NoWrap xs) (i : Fin kBuckets) :
    ((ofSamples xs).counts i).toNat = xs.countP (cell · = i) := by
  rw [counts_toNat, Nat.mod_eq_of_lt (hwrap i)]

/-- The counts of several cells are the number of the samples in them. -/
theorem sum_counts (hwrap : NoWrap xs) {is : List (Fin kBuckets)} (his : is.Nodup) :
    (is.map fun i => ((ofSamples xs).counts i).toNat).sum = xs.countP (cell · ∈ is) := by
  rw [← sum_countP cell xs his]
  congr 1
  exact List.map_congr_left fun i _ => ofSamples_counts hwrap i

/-- Short of a wrap the total is the number of samples. -/
theorem ofSamples_total (hwrap : NoWrap xs) : (ofSamples xs).total.toNat = xs.length := by
  -- Some three hundred cells of 32 bits hold less than 64 bits.
  have hcells : ∀ is : List (Fin kBuckets),
      (is.map fun i => xs.countP (cell · = i)).sum ≤ is.length * 2 ^ 32 := by
    intro is
    induction is with
    | nil => simp
    | cons i is ih =>
      have hi := hwrap i
      rw [List.map_cons, List.sum_cons, List.length_cons]
      omega
  have hlen : xs.length < 2 ^ 64 := by
    have hle := hcells (List.finRange kBuckets)
    rw [sum_cells, List.length_finRange] at hle
    exact lt_of_le_of_lt hle (by decide)
  rw [total_toNat, Nat.mod_eq_of_lt hlen]

/-- No cell has wrapped where the cells hold all the samples that are counted. -/
theorem noWrap_iff (hlen : xs.length < 2 ^ 64) :
    NoWrap xs ↔ (ofSamples xs).total.toNat =
      ((List.finRange kBuckets).map fun i => ((ofSamples xs).counts i).toNat).sum := by
  rw [total_toNat, Nat.mod_eq_of_lt hlen]
  constructor
  · intro hwrap
    simp only [ofSamples_counts hwrap]
    exact (sum_cells xs).symm
  · intro hsum i
    by_contra hlarge
    -- A cell that has wrapped holds less than its samples, and no cell holds more.
    have hlt : ((List.finRange kBuckets).map fun i => ((ofSamples xs).counts i).toNat).sum <
        ((List.finRange kBuckets).map fun i => xs.countP (cell · = i)).sum := by
      refine List.sum_lt_sum _ _ (fun j _ => ?_) ⟨i, List.mem_finRange i, ?_⟩
      · rw [counts_toNat]
        exact Nat.mod_le _ _
      · have hmod := Nat.mod_lt (xs.countP (cell · = i)) (show 0 < 2 ^ 32 by decide)
        rw [counts_toNat]
        omega
    rw [← hsum, sum_cells] at hlt
    exact absurd hlt (lt_irrefl _)

/-! ### The loop -/

/-- The loop passes over the cells below the rank and ends at the one that reaches it. -/
theorem scan_eq {h : LogHistogram} {target : ℕ} {pre post : List (Fin kBuckets)} {i : Fin kBuckets}
    {acc : ℕ} (hpre : acc + (pre.map fun j => (h.counts j).toNat).sum < target)
    (hi : target ≤ acc + (pre.map fun j => (h.counts j).toNat).sum + (h.counts i).toNat) :
    scan h target (pre ++ i :: post) acc = bucketMid i := by
  induction pre generalizing acc with
  | nil =>
    rw [List.map_nil, List.sum_nil] at hpre hi
    have hne : h.counts i ≠ 0 := by
      intro hzero
      rw [hzero] at hi
      exact absurd hi (by simpa using hpre)
    rw [List.nil_append, scan]
    exact if_pos ⟨hi, hne⟩
  | cons j pre ih =>
    rw [List.map_cons, List.sum_cons] at hpre hi
    rw [List.cons_append, scan]
    rw [if_neg fun hstop => absurd hstop.1 (by omega)]
    exact ih (by omega) (by omega)

/-- A position splits the list of buckets. -/
theorem finRange_split {n : ℕ} (i : Fin n) :
    ∃ pre post, List.finRange n = pre ++ i :: post ∧ ∀ j, j ∈ pre ↔ j < i := by
  have hi : (i : ℕ) < (List.finRange n).length := by
    rw [List.length_finRange]
    exact i.isLt
  have hget : (List.finRange n)[(i : ℕ)] = i := by
    rw [List.getElem_finRange]
    rfl
  have hdrop := List.drop_eq_getElem_cons hi
  rw [hget] at hdrop
  refine ⟨(List.finRange n).take i, (List.finRange n).drop (i + 1), ?_, ?_⟩
  · rw [← hdrop, List.take_append_drop]
  · intro j
    rw [List.mem_take_iff_getElem]
    constructor
    · rintro ⟨k, hk, rfl⟩
      rw [List.getElem_finRange, Fin.lt_def]
      exact lt_of_lt_of_le hk (min_le_left _ _)
    · intro hlt
      refine ⟨j, lt_min hlt (by rw [List.length_finRange]; exact j.isLt), ?_⟩
      rw [List.getElem_finRange]
      rfl

/-- **A percentile** is the middle of the bucket of the sample of its rank. -/
theorem percentile_bucket (hsmall : ∀ v ∈ xs, v < 2 ^ 41) (hwrap : NoWrap xs) {q : ℚ} {x : ℕ}
    (hx : Ranked xs (rank q xs.length) x) :
    (ofSamples xs).percentile q = bucketMid (index x) := by
  have hmono : ∀ v ∈ xs, ∀ w ∈ xs, v ≤ w → cell v ≤ cell w :=
    fun v _ w hw h => index_mono (hsmall w hw) h
  obtain ⟨hreach, hbefore⟩ := hx.bucket hmono
  obtain ⟨pre, post, hsplit, hpre⟩ := finRange_split (cell x)
  have hnodup : (pre ++ [cell x]).Nodup := by
    have hall := List.nodup_finRange kBuckets
    rw [hsplit] at hall
    exact hall.sublist ((List.sublist_append_left [cell x] post).append_left pre)
  have hpassed : xs.countP (cell · ∈ pre) = xs.countP (cell · < cell x) :=
    List.countP_congr fun v _ => by simp [hpre]
  have hwith : xs.countP (cell · ∈ pre ++ [cell x]) = xs.countP (cell · ≤ cell x) :=
    List.countP_congr fun v _ => by simp [hpre, le_iff_lt_or_eq]
  have hsum := sum_counts hwrap hnodup
  rw [hwith, List.map_append, List.sum_append, List.map_singleton, List.sum_singleton] at hsum
  have hsum' := sum_counts hwrap (List.nodup_append.mp hnodup).1
  rw [hpassed] at hsum'
  have htotal := ofSamples_total hwrap
  have hne : (ofSamples xs).total ≠ 0 := by
    intro hzero
    rw [hzero] at htotal
    have hlen := List.length_pos_of_mem hx.mem
    rw [← htotal] at hlen
    exact absurd hlen (by decide)
  rw [percentile, if_neg hne, htotal, hsplit]
  exact scan_eq (by omega) (by omega)

/-- **Histogram percentiles are accurate**: within a sixteenth of the sample of the nearest rank,
    exact below 8, and no smaller for a larger quantile. -/
theorem percentile_accurate (hne : xs ≠ []) (hsmall : ∀ v ∈ xs, v < 2 ^ 41) (hwrap : NoWrap xs)
    {q r : ℚ} (hq : 0 < q) (hqr : q ≤ r) (hr : r ≤ 1) :
    (∃ x : ℕ, NearestRank.percentile xs q = some x ∧
      |((ofSamples xs).percentile q : ℚ) - x| ≤ x / 16 ∧
      (x < 8 → (ofSamples xs).percentile q = x)) ∧
    (ofSamples xs).percentile q ≤ (ofSamples xs).percentile r := by
  obtain ⟨x, hx, hrank⟩ := percentile_ranked hne hq (le_trans hqr hr)
  obtain ⟨y, -, hrank'⟩ := percentile_ranked hne (lt_of_lt_of_le hq hqr) hr
  have hle := hrank.mono hrank' (rank_mono hqr xs.length)
  rw [percentile_bucket hsmall hwrap hrank, percentile_bucket hsmall hwrap hrank']
  exact ⟨⟨x, hx, bucketMid_near (hsmall x hrank.mem)⟩, bucketMid_mono (hsmall y hrank'.mem) hle⟩

end Samples

/-- The median of 7, 1000 and 100000 ns is below their maximum. -/
theorem percentile_accurate_three :
    (∃ x : ℕ, NearestRank.percentile [7, 1000, 100000] (1 / 2) = some x ∧
      |((ofSamples [7, 1000, 100000]).percentile (1 / 2) : ℚ) - x| ≤ x / 16 ∧
      (x < 8 → (ofSamples [7, 1000, 100000]).percentile (1 / 2) = x)) ∧
    (ofSamples [7, 1000, 100000]).percentile (1 / 2) ≤
      (ofSamples [7, 1000, 100000]).percentile 1 := by
  have hsmall : ∀ v ∈ [7, 1000, 100000], v < 2 ^ 41 := by decide
  have hwrap : NoWrap [7, 1000, 100000] :=
    fun i => lt_of_le_of_lt List.countP_le_length (by decide)
  refine percentile_accurate (by decide) hsmall hwrap ?_ ?_ (le_refl 1)
  · norm_num
  · norm_num

end LogHistogram

end InfinityClicker
