import InfinityClicker.Core.Machine
import InfinityClicker.Core.NearestRank
import InfinityClicker.Core.RingBuffer
import InfinityClicker.Scheduler.SpinBudget
import Mathlib.Algebra.Order.Round
import Mathlib.Data.List.GetD

namespace InfinityClicker

open Machines RingBuffers NearestRank

/-!
# The oversleep model

How late the timer wakes the thread is kept in a ring of 256 samples, and every so often the margins
are sized from their order statistics.  The ring is read as a plain array from its first cell on:
for statistics the order of the samples does not matter.

* `PreciseWaiter.sampler` — the calls that change the model; its outputs are the samples;
* `PreciseWaiter.Statistic` — an order statistic, by counting; `quantile_statistic`;
* `PreciseWaiter.ModelOf` — the model of some samples; `recomputeModel_remodels`,
  `ModelOf.ordered`;
* `PreciseWaiter.margins_ordered` — what any model makes of the margins;
* `PreciseWaiter.oversleep_model` — all of it in every run;
* `PreciseWaiter.model_schedule` — of how many samples the model is, at any time.
-/

namespace PreciseWaiter

/-- A call that changes the model; `calibrate` ends with one to recompute it. -/
inductive ModelCall where
  | recordOversleep (ticks : ℤ)
  | recomputeModel

/-- The waiter; the outputs are the samples. -/
def sampler : Machine PreciseWaiter ModelCall ℤ where
  step w
    | .recordOversleep ticks => (w.recordOversleep ticks, [ticks])
    | .recomputeModel => (w.recomputeModel, [])

/-- The first half of `recordOversleep`: the sample is stored. -/
def store (w : PreciseWaiter) (ticks : ℤ) : PreciseWaiter :=
  { w with
    samples := Function.update w.samples w.head ticks
    head := (w.head + 1) % kSamples
    count := if w.count < kSamples then w.count + 1 else w.count
    sinceModel := w.sinceModel + 1 }

/-- The call ends in `recomputeModel`. -/
def Recomputes (w : PreciseWaiter) : ModelCall → Prop
  | .recordOversleep ticks => 32 ≤ (w.store ticks).sinceModel ∨ (w.store ticks).count < 32
  | .recomputeModel => True

instance (w : PreciseWaiter) : ∀ c, Decidable (w.Recomputes c)
  | .recordOversleep _ => inferInstanceAs (Decidable (_ ∨ _))
  | .recomputeModel => isTrue trivial

/-- The sample of rank `round(q * (m - 1))` among `m`, the least one's being 0, or 0 where it is
    negative. -/
def Statistic (samples : List ℤ) (q : ℚ) (v : ℤ) : Prop :=
  ∃ x, Ranked samples ((round (q * (samples.length - 1 : ℕ))).toNat + 1) x ∧ v = Max.max 0 x

/-- The model is that of the samples. -/
structure ModelOf (samples : List ℤ) (w : PreciseWaiter) : Prop where
  p50 : Statistic samples (1 / 2) w.p50
  p75 : Statistic samples (3 / 4) w.p75
  p99 : Statistic samples (99 / 100) w.p99
  max : Statistic samples 1 w.max

/-- `w'` has the statistics and the margins of `w`. -/
structure SameModel (w w' : PreciseWaiter) : Prop where
  p50 : w'.p50 = w.p50
  p75 : w'.p75 = w.p75
  p99 : w'.p99 = w.p99
  max : w'.max = w.max

/-- Where a recomputation is due the model becomes that of the newest samples, if there are eight;
    else it stays. -/
structure Remodels (due : Prop) (samples : List ℤ) (w w' : PreciseWaiter) : Prop where
  anew : due → 8 ≤ (samples.rtake kSamples).length → ModelOf (samples.rtake kSamples) w'
  stays : ¬ (due ∧ 8 ≤ (samples.rtake kSamples).length) → SameModel w w'

/-- The statistics lie in their order. -/
structure Ordered (w : PreciseWaiter) : Prop where
  nonneg : 0 ≤ w.p50
  p50_le : w.p50 ≤ w.p75
  p75_le : w.p75 ≤ w.p99
  p99_le : w.p99 ≤ w.max

variable {w w' : PreciseWaiter} {samples : List ℤ}

/-! ### Order statistics -/

/-- A statistic of oversleeps is not negative. -/
theorem Statistic.nonneg {q : ℚ} {v : ℤ} (h : Statistic samples q v) : 0 ≤ v := by
  obtain ⟨x, -, rfl⟩ := h
  exact le_max_left 0 x

/-- A larger quantile has no smaller a statistic. -/
theorem Statistic.mono {q q' : ℚ} {v v' : ℤ} (h : Statistic samples q v)
    (h' : Statistic samples q' v') (hq : q ≤ q') : v ≤ v' := by
  obtain ⟨x, hx, rfl⟩ := h
  obtain ⟨x', hx', rfl⟩ := h'
  have hmul : q * (samples.length - 1 : ℕ) ≤ q' * (samples.length - 1 : ℕ) :=
    mul_le_mul_of_nonneg_right hq (Nat.cast_nonneg _)
  have hround : round (q * (samples.length - 1 : ℕ)) ≤ round (q' * (samples.length - 1 : ℕ)) := by
    rw [round_eq, round_eq]
    exact Int.floor_mono (by linarith)
  exact max_le_max (le_refl 0) (hx.mono hx' (by omega))

/-- The model of any samples is in order. -/
theorem ModelOf.ordered (h : ModelOf samples w) : Ordered w where
  nonneg := h.p50.nonneg
  p50_le := h.p50.mono h.p75 (by norm_num)
  p75_le := h.p75.mono h.p99 (by norm_num)
  p99_le := h.p99.mono h.max (by norm_num)

/-- Order is a matter of the statistics. -/
theorem Ordered.same (h : Ordered w) (hs : SameModel w w') : Ordered w' where
  nonneg := by
    rw [hs.p50]
    exact h.nonneg
  p50_le := by
    rw [hs.p50, hs.p75]
    exact h.p50_le
  p75_le := by
    rw [hs.p75, hs.p99]
    exact h.p75_le
  p99_le := by
    rw [hs.p99, hs.max]
    exact h.p99_le

/-- **The quantile** of the sorted samples is the statistic of the samples in any order. -/
theorem quantile_statistic {sorted : List ℤ} (hsorted : sorted.Pairwise (· ≤ ·))
    (hperm : sorted.Perm samples) (hne : samples ≠ []) {q : ℚ} (hq : 0 ≤ q) (hq1 : q ≤ 1) :
    Statistic samples q (quantile sorted q) := by
  have hlen := hperm.length_eq
  have hpos := List.length_pos_of_ne_nil hne
  generalize hm : samples.length - 1 = m
  have hprod : 0 ≤ q * (m : ℚ) := mul_nonneg hq (Nat.cast_nonneg m)
  have hround : toInt64 (q * (m : ℚ) + 1 / 2) = round (q * (m : ℚ)) := by
    rw [toInt64, if_pos (by linarith), round_eq]
  have hle : round (q * (m : ℚ)) ≤ m := by
    have hmul : q * (m : ℚ) ≤ 1 * m := mul_le_mul_of_nonneg_right hq1 (Nat.cast_nonneg m)
    have hlt : round (q * (m : ℚ)) < (m : ℤ) + 1 := by
      rw [round_eq, Int.floor_lt]
      push_cast
      linarith
    omega
  have hi : (round (q * (m : ℚ))).toNat < sorted.length := by omega
  refine ⟨sorted[(round (q * (m : ℚ))).toNat], ?_, ?_⟩
  · rw [hm]
    exact (ranked_getElem hsorted hi).perm hperm
  · rw [quantile, hlen, hm, hround, Nat.min_eq_right (by omega), List.getD_eq_getElem _ _ hi]

/-- The greatest sample is the last quantile. -/
theorem quantile_one (sorted : List ℤ) :
    quantile sorted 1 = Max.max 0 (sorted.getD (sorted.length - 1) 0) := by
  rw [quantile]
  generalize sorted.length - 1 = k
  have hfloor : toInt64 (1 * (k : ℚ) + 1 / 2) = k := by
    have hk : (0 : ℚ) ≤ k := Nat.cast_nonneg k
    rw [toInt64, if_pos (by linarith), Int.floor_eq_iff, Int.cast_natCast]
    constructor <;> linarith
  rw [hfloor, Int.toNat_natCast, Nat.min_self]

/-! ### Recomputing -/

/-- The samples, with the cell of the next one and their number. -/
def ring (w : PreciseWaiter) : Buffer ℤ := ⟨w.samples, w.head, w.count⟩

/-- A sample is stored, and the model is recomputed when it is due. -/
theorem recordOversleep_eq (w : PreciseWaiter) (ticks : ℤ) :
    w.recordOversleep ticks =
      if w.Recomputes (.recordOversleep ticks) then (w.store ticks).recomputeModel
      else w.store ticks := rfl

/-- Recomputing keeps the samples and starts a new count. -/
theorem recomputeModel_ring (w : PreciseWaiter) :
    w.recomputeModel.ring = w.ring ∧ w.recomputeModel.sinceModel = 0 := by
  rw [recomputeModel]
  split
  · exact ⟨rfl, rfl⟩
  · exact ⟨rfl, rfl⟩

/-- **A recomputation** makes the model that of the samples in the ring, once there are eight. -/
theorem recomputeModel_remodels (h : Holds kSamples w.ring samples) :
    Remodels True samples w w.recomputeModel := by
  have hcells := h.cells_perm
  have hcount : (samples.rtake kSamples).length = w.count := by
    rw [← hcells.length_eq, List.length_map, List.length_range]
    rfl
  constructor
  · intro _ hmany
    have hne : samples.rtake kSamples ≠ [] := List.length_pos_iff.mp (by omega)
    have hsorted := List.pairwise_mergeSort' (· ≤ ·) ((List.range w.count).map w.samples)
    have hperm := (List.mergeSort_perm ((List.range w.count).map w.samples) (· ≤ ·)).trans hcells
    have hstat : ∀ q : ℚ, 0 ≤ q → q ≤ 1 → Statistic (samples.rtake kSamples) q
        (quantile ((List.range w.count).map w.samples).mergeSort q) :=
      fun q hq hq1 => quantile_statistic hsorted hperm hne hq hq1
    have hlast := hstat 1 (by norm_num) (le_refl 1)
    rw [quantile_one, List.length_mergeSort, List.length_map, List.length_range] at hlast
    rw [recomputeModel]
    dsimp only
    rw [if_neg (by omega)]
    exact ⟨hstat _ (by norm_num) (by norm_num), hstat _ (by norm_num) (by norm_num),
      hstat _ (by norm_num) (by norm_num), hlast⟩
  · intro hnot
    have hfew : w.count < 8 := by
      by_contra hmany
      exact hnot ⟨trivial, by omega⟩
    rw [recomputeModel]
    dsimp only
    rw [if_pos hfew]
    exact ⟨rfl, rfl, rfl, rfl⟩

/-- **A call** recomputes the model or leaves it. -/
theorem next_remodels (h : Holds kSamples w.ring samples) (c : ModelCall) :
    Remodels (w.Recomputes c) (samples ++ sampler.out w c) w (sampler.next w c) := by
  cases c with
  | recordOversleep ticks =>
    have hstored : Holds kSamples (w.store ticks).ring (samples ++ [ticks]) := h.push ticks
    have hmodel := recomputeModel_remodels hstored
    show Remodels _ (samples ++ [ticks]) w (w.recordOversleep ticks)
    rw [recordOversleep_eq]
    by_cases hdue : w.Recomputes (.recordOversleep ticks)
    · rw [if_pos hdue]
      refine ⟨fun _ => hmodel.anew trivial, fun hnot => ?_⟩
      have hsame := hmodel.stays fun hboth => hnot ⟨hdue, hboth.2⟩
      exact ⟨hsame.p50, hsame.p75, hsame.p99, hsame.max⟩
    · rw [if_neg hdue]
      exact ⟨fun hyes => absurd hyes hdue, fun _ => ⟨rfl, rfl, rfl, rfl⟩⟩
  | recomputeModel =>
    show Remodels True (samples ++ []) w w.recomputeModel
    rw [List.append_nil]
    exact recomputeModel_remodels h

/-! ### The margins -/

/-- Clamping is monotone, in the value and in both bounds. -/
theorem clamp_le_clamp {v v' lo lo' hi hi' : ℤ} (hv : v ≤ v') (hlo : lo ≤ lo') (hhi : hi ≤ hi')
    (h : lo ≤ hi) : clamp v lo hi ≤ clamp v' lo' hi' := by
  rw [clamp, clamp]
  split <;> split <;> try split
  all_goals omega

/-- What the margins of the modes are to be, for ticks of `perUs` a microsecond. -/
structure MarginsOrdered (w : PreciseWaiter) : Prop where
  eco : w.marginTicks .eco = 0
  eco_le : w.marginTicks .eco ≤ w.marginTicks .standard
  standard_le : w.marginTicks .standard ≤ w.marginTicks .ultra
  ultra_le : (w.marginTicks .ultra : ℚ) ≤ 3000 * w.perUs
  budget : 0 < w.periodHint → w.marginTicks .standard ≤ w.periodHint / 10

/-- The margin of ULTRA, where none is fixed. -/
theorem marginTicks_ultra (hfixed : w.fixedMarginTicks < 0) :
    w.marginTicks .ultra = clamp (Max.max (w.p99 + toInt64 (200 * w.perUs)) w.max)
      (toInt64 (300 * w.perUs)) (toInt64 (3000 * w.perUs)) := by
  rw [marginTicks, if_neg (by omega)]

/-- The margin of STANDARD stays below its own bounds and a tenth of the period. -/
theorem marginTicks_standard_le (hfixed : w.fixedMarginTicks < 0) :
    w.marginTicks .standard ≤ clamp (w.p99 + toInt64 (100 * w.perUs)) (toInt64 (100 * w.perUs))
        (toInt64 (2500 * w.perUs)) ∧
      (0 < w.periodHint → w.marginTicks .standard ≤ w.periodHint / 10) := by
  rw [marginTicks, if_neg (by omega)]
  dsimp only
  split
  · next hhint =>
    rw [Int.tdiv_eq_ediv_of_nonneg hhint.le]
    exact ⟨min_le_left _ _, fun _ => min_le_right _ _⟩
  · next hnone => exact ⟨le_refl _, fun hhint => absurd hhint hnone⟩

/-- **The margins are in order** whatever the model. -/
theorem margins_ordered (hper : 0 ≤ w.perUs) (hfixed : w.fixedMarginTicks < 0) :
    MarginsOrdered w := by
  have hlow : 0 ≤ toInt64 (100 * w.perUs) := toInt64_nonneg (mul_nonneg (by norm_num) hper)
  have hstandard : toInt64 (100 * w.perUs) ≤ toInt64 (2500 * w.perUs) :=
    usTicks_mono hper (by norm_num)
  have hultra : toInt64 (300 * w.perUs) ≤ toInt64 (3000 * w.perUs) :=
    usTicks_mono hper (by norm_num)
  obtain ⟨hwanted, hbudget⟩ := marginTicks_standard_le hfixed
  refine ⟨marginTicks_eco w, ?_, ?_, ?_, hbudget⟩
  · -- A tenth of a positive period is not negative.
    have hwant := (clamp_mem (w.p99 + toInt64 (100 * w.perUs)) hstandard).1
    rw [marginTicks_eco, marginTicks, if_neg (by omega)]
    dsimp only
    split
    · next hhint =>
      rw [Int.tdiv_eq_ediv_of_nonneg hhint.le]
      exact le_min (by omega) (by omega)
    · omega
  · -- ULTRA covers more of the oversleep, between bounds that are higher.
    have hmore : w.p99 + toInt64 (100 * w.perUs) ≤
        Max.max (w.p99 + toInt64 (200 * w.perUs)) w.max := by
      have h200 : toInt64 (100 * w.perUs) ≤ toInt64 (200 * w.perUs) :=
        usTicks_mono hper (by norm_num)
      exact le_trans (by omega) (le_max_left _ _)
    rw [marginTicks_ultra hfixed]
    exact le_trans hwanted (clamp_le_clamp hmore (usTicks_mono hper (by norm_num))
      (usTicks_mono hper (by norm_num)) hstandard)
  · rw [marginTicks_ultra hfixed]
    have hceil := (clamp_mem (Max.max (w.p99 + toInt64 (200 * w.perUs)) w.max) hultra).2
    calc ((clamp (Max.max (w.p99 + toInt64 (200 * w.perUs)) w.max) (toInt64 (300 * w.perUs))
            (toInt64 (3000 * w.perUs)) : ℤ) : ℚ)
        ≤ (toInt64 (3000 * w.perUs) : ℚ) := Int.cast_le.mpr hceil
      _ ≤ 3000 * w.perUs := toInt64_le (mul_nonneg (by norm_num) hper)

/-! ### Every run -/

/-- The ring keeps the samples so far, and the model is in order; the setup is the constructor's. -/
structure Samples (P : Platform) (w : PreciseWaiter) (samples : List ℤ) : Prop where
  holds : Holds kSamples w.ring samples
  ordered : Ordered w
  setup : SameSetup (create P) w

variable {P : Platform}

/-- The conservative seed is in order. -/
theorem create_samples (P : Platform) : Samples P (create P) [] where
  holds := holds_new _ _
  ordered := by
    have hper : (0 : ℚ) ≤ P.freq / 1000000 := by positivity
    exact ⟨toInt64_nonneg (mul_nonneg (by norm_num) hper), usTicks_mono hper (by norm_num),
      usTicks_mono hper (by norm_num), usTicks_mono hper (by norm_num)⟩
  setup := SameSetup.refl _

/-- A call stores its sample and no other. -/
theorem step_samples (w : PreciseWaiter) (samples : List ℤ) (c : ModelCall)
    (h : Samples P w samples) :
    Samples P (sampler.next w c) (samples ++ sampler.out w c) where
  holds := by
    cases c with
    | recordOversleep ticks =>
      have hstored : Holds kSamples (w.store ticks).ring (samples ++ [ticks]) := h.holds.push ticks
      show Holds kSamples (w.recordOversleep ticks).ring (samples ++ [ticks])
      rw [recordOversleep_eq]
      split
      · rw [(recomputeModel_ring _).1]
        exact hstored
      · exact hstored
    | recomputeModel =>
      show Holds kSamples w.recomputeModel.ring (samples ++ [])
      rw [List.append_nil, (recomputeModel_ring w).1]
      exact h.holds
  ordered := by
    have hmodel := next_remodels h.holds c
    by_cases hboth : w.Recomputes c ∧ 8 ≤ ((samples ++ sampler.out w c).rtake kSamples).length
    · exact (hmodel.anew hboth.1 hboth.2).ordered
    · exact h.ordered.same (hmodel.stays hboth)
  setup := by
    cases c with
    | recordOversleep ticks => exact h.setup.trans (recordOversleep_setup w ticks)
    | recomputeModel => exact h.setup.trans (recomputeModel_setup w)

/-- After any calls the ring holds the last samples. -/
theorem run_samples (P : Platform) (calls : List ModelCall) :
    Samples P (sampler.after (create P) calls) (sampler.trace (create P) calls) :=
  sampler.history step_samples (create_samples P) calls

/-- **The oversleep model.** After every run of calls each further one makes the model that of the
    newest 256 samples or leaves it; the model is in order; and so are the margins, whatever the
    period. -/
theorem oversleep_model (P : Platform) (calls : List ModelCall) :
    let w := sampler.after (create P) calls
    let samples := sampler.trace (create P) calls
    (∀ c, Remodels (w.Recomputes c) (samples ++ sampler.out w c) w (sampler.next w c)) ∧
      Ordered w ∧ ∀ hint, MarginsOrdered (w.setPeriodHint hint) := by
  intro w samples
  have hrun : Samples P w samples := run_samples P calls
  refine ⟨next_remodels hrun.holds, hrun.ordered, fun hint => margins_ordered ?_ ?_⟩
  · show 0 ≤ w.perUs
    rw [hrun.setup.perUs]
    show (0 : ℚ) ≤ P.freq / 1000000
    positivity
  · show w.fixedMarginTicks < 0
    rw [hrun.setup.fixedMarginTicks]
    show (-1 : ℤ) < 0
    decide

/-! ### The schedule -/

/-- Of `n` samples, those of the last recomputation: all of them up to 31, then every 32nd. -/
def modelled (n : ℕ) : ℕ := if n < 32 then n else n - (n + 1) % 32

/-- The model is that of the samples of the last recomputation, or the seed. -/
structure Scheduled (P : Platform) (w : PreciseWaiter) (samples : List ℤ) : Prop where
  run : Samples P w samples
  since : w.sinceModel = if samples.length < 32 then 0 else (samples.length + 1) % 32
  seed : samples.length < 8 → SameModel (create P) w
  model : 8 ≤ samples.length →
    ModelOf ((samples.take (modelled samples.length)).rtake kSamples) w

/-- Keeping the model composes. -/
theorem SameModel.trans {w'' : PreciseWaiter} (h : SameModel w w') (h' : SameModel w' w'') :
    SameModel w w'' :=
  ⟨h'.p50.trans h.p50, h'.p75.trans h.p75, h'.p99.trans h.p99, h'.max.trans h.max⟩

/-- The statistics of the samples stay theirs. -/
theorem ModelOf.same (h : ModelOf samples w) (hs : SameModel w w') : ModelOf samples w' where
  p50 := by
    rw [hs.p50]
    exact h.p50
  p75 := by
    rw [hs.p75]
    exact h.p75
  p99 := by
    rw [hs.p99]
    exact h.p99
  max := by
    rw [hs.max]
    exact h.max

/-- A sample is counted, and a recomputation starts over. -/
theorem recordOversleep_since (w : PreciseWaiter) (ticks : ℤ) :
    (w.recordOversleep ticks).sinceModel =
      if w.Recomputes (.recordOversleep ticks) then 0 else w.sinceModel + 1 := by
  rw [recordOversleep_eq]
  split
  · exact (recomputeModel_ring _).2
  · rfl

/-- When the next sample makes the model anew. -/
theorem Scheduled.recomputes_iff (h : Scheduled P w samples) (ticks : ℤ) :
    w.Recomputes (.recordOversleep ticks) ↔
      samples.length + 1 < 32 ∨ (samples.length + 2) % 32 = 0 := by
  have hcount : w.count = min kSamples samples.length := h.run.holds.filled
  have hcap : kSamples = 256 := rfl
  show 32 ≤ w.sinceModel + 1 ∨ (if w.count < kSamples then w.count + 1 else w.count) < 32 ↔ _
  rw [h.since, hcount]
  split <;> split <;> omega

/-- A sample keeps the schedule of the recomputations. -/
theorem Scheduled.record (h : Scheduled P w samples) (ticks : ℤ) :
    Scheduled P (w.recordOversleep ticks) (samples ++ [ticks]) := by
  have hmodel : Remodels _ (samples ++ [ticks]) w (w.recordOversleep ticks) :=
    next_remodels h.run.holds (.recordOversleep ticks)
  have hdue := h.recomputes_iff ticks
  have hlen : (samples ++ [ticks]).length = samples.length + 1 := by
    rw [List.length_append, List.length_singleton]
  have hkept : ((samples ++ [ticks]).rtake kSamples).length =
      min kSamples (samples.length + 1) := by
    rw [List.rtake, List.length_drop, hlen]
    omega
  have hcap : kSamples = 256 := rfl
  refine ⟨step_samples w samples (.recordOversleep ticks) h.run, ?_, ?_, ?_⟩
  · rw [recordOversleep_since, hlen, h.since]
    by_cases hnow : w.Recomputes (.recordOversleep ticks)
    · have hwhen := hdue.mp hnow
      rw [if_pos hnow]
      split <;> omega
    · have hwhen := mt hdue.mpr hnow
      rw [if_neg hnow]
      split <;> split <;> omega
  · intro hfew
    rw [hlen] at hfew
    exact (h.seed (by omega)).trans (hmodel.stays fun hboth => by omega)
  · intro hmany
    rw [hlen] at hmany ⊢
    by_cases hnow : w.Recomputes (.recordOversleep ticks)
    · -- All samples are in the model.
      have hall : modelled (samples.length + 1) = samples.length + 1 := by
        have hwhen := hdue.mp hnow
        rw [modelled]
        split <;> omega
      rw [hall, ← hlen, List.take_length]
      exact hmodel.anew hnow (by omega)
    · -- The model is the one before.
      have hwhen := mt hdue.mpr hnow
      have hold : modelled (samples.length + 1) = modelled samples.length := by
        rw [modelled, modelled]
        split <;> split <;> omega
      have hle : modelled samples.length ≤ samples.length := by
        rw [modelled]
        split <;> omega
      rw [hold, List.take_append_of_le_length hle]
      exact (h.model (by omega)).same (hmodel.stays fun hboth => hnow hboth.1)

/-- **The schedule**: at any time of how many samples the model is. -/
theorem model_schedule (P : Platform) (samples : List ℤ) :
    Scheduled P (samples.foldl recordOversleep (create P)) samples := by
  -- By induction on the samples, the last one first.
  induction samples using List.reverseRecOn with
  | nil =>
    refine ⟨create_samples P, rfl, fun _ => ⟨rfl, rfl, rfl, rfl⟩, fun hmany => ?_⟩
    exact absurd hmany (by decide)
  | append_singleton samples ticks ih =>
    rw [List.foldl_append]
    exact ih.record ticks

end PreciseWaiter

end InfinityClicker
