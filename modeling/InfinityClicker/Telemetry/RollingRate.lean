import InfinityClicker.Core.Machine
import InfinityClicker.Core.TimedCounts
import InfinityClicker.Telemetry.Stats

namespace InfinityClicker

open Machines TimedCounts

/-!
# The rolling rate

The completed slots of a run are rolled when an action is recorded, and only then: what `fill`
reports is the rate as of the last action's slot.

* `RunStats.recorder` — a run's statistics as its actions are recorded;
* `RunStats.Ring` — what the slots hold; `advance_ring`, `run_ring`;
* `RunStats.due` — the actions of the ten slots completed before a publish time;
* `RunStats.cps1s_current_iff` — when the reported rate is theirs.
-/

namespace RunStats

variable (P : Platform)

/-- What the thread records, at a clock reading `dt` ticks after the one before. -/
inductive Recording where
  | action (dt : ℕ) (deadline : ℤ)
  | actions (dt n : ℕ)

/-- A run's statistics and the clock; the outputs are the fires, with the actions of each. -/
def recorder : Machine (RunStats × ℤ) Recording (ℤ × ℕ) where
  step x
    | .action dt deadline => ((x.1.onAction P (x.2 + dt) deadline, x.2 + dt), [(x.2 + dt, 1)])
    | .actions dt n => ((x.1.onActions (x.2 + dt) n, x.2 + dt), [(x.2 + dt, n)])

theorem slotTicks_pos : 0 < Clk.msToTicks P 100 := by
  have hfreq := P.freq_ge
  have hlow : (1 : ℚ) ≤ 100 * P.freq / 1000 + 1 / 2 := by
    have hcast : (1000000 : ℚ) ≤ P.freq := by exact_mod_cast hfreq
    linarith
  have hfloor : 1 ≤ ⌊(100 * P.freq / 1000 + 1 / 2 : ℚ)⌋ := Int.le_floor.mpr (by exact_mod_cast hlow)
  rw [Clk.msToTicks, toInt64, if_pos (by linarith)]
  omega

/-! ### What the slots hold -/

/-- The end of the last slot that is completed. -/
def lastEnd (s : RunStats) : ℤ := s.slotEnd - s.slotTicks

theorem slotEnd_eq (s : RunStats) : s.slotEnd = s.lastEnd + s.slotTicks := by
  rw [lastEnd]
  omega

/-- The slots tell the fires: the completed ones in the ring, the last one in the count, and none
    after it.  The first slot starts at `start` as long as the ring is not full. -/
structure Ring (start : ℤ) (s : RunStats) (fires : List (ℤ × ℕ)) : Prop where
  pos : 0 < s.slotTicks
  start_le : start ≤ s.lastEnd
  fires_lt : ∀ f ∈ fires, f.1 < s.slotEnd
  count : s.slotCount = BitVec.ofNat 32 (countIn fires s.lastEnd s.slotEnd)
  length_le : s.slots.length ≤ kCpsHistory
  slots : s.slots = (List.range s.slots.length).map
    fun k => BitVec.ofNat 32 (slot fires s.lastEnd s.slotTicks k)
  early : s.slots.length < kCpsHistory → s.lastEnd - s.slots.length * s.slotTicks = start

variable {P} {start : ℤ} {s s' : RunStats} {fires : List (ℤ × ℕ)}

theorem begin_ring (start : ℤ) (period : ℚ) : Ring start (begin P start period) [] where
  pos := slotTicks_pos P
  start_le := by
    show start ≤ start + Clk.msToTicks P 100 - Clk.msToTicks P 100
    omega
  fires_lt := by simp
  count := rfl
  length_le := Nat.zero_le _
  slots := rfl
  early _ := by
    show start + Clk.msToTicks P 100 - Clk.msToTicks P 100 - ((0 : ℕ) : ℤ) * _ = start
    rw [Nat.cast_zero, zero_mul]
    omega

/-- What is noted beside the slots does not matter. -/
theorem Ring.noted (h : Ring start s fires) (hn : s.Noted s') : Ring start s' fires := by
  have hend : s'.lastEnd = s.lastEnd := by rw [lastEnd, hn.slotEnd, hn.slotTicks, lastEnd]
  constructor
  · rw [hn.slotTicks]
    exact h.pos
  · rw [hend]
    exact h.start_le
  · rw [hn.slotEnd]
    exact h.fires_lt
  · rw [hn.slotCount, hend, hn.slotEnd]
    exact h.count
  · rw [hn.slots]
    exact h.length_le
  · rw [hn.slots, hend, hn.slotTicks]
    exact h.slots
  · rw [hn.slots, hend, hn.slotTicks]
    exact h.early

/-- Actions in the slot that is going on are counted. -/
theorem Ring.count_snoc (h : Ring start s fires) {t : ℤ} (n : ℕ) (hlow : s.lastEnd ≤ t)
    (hhigh : t < s.slotEnd) : Ring start (s.count n) (fires ++ [(t, n)]) where
  pos := h.pos
  start_le := h.start_le
  fires_lt := by
    intro f hf
    rcases List.mem_append.mp hf with hf | hf
    · exact h.fires_lt f hf
    · rw [List.mem_singleton.mp hf]
      exact hhigh
  count := by
    show s.slotCount + BitVec.ofNat 32 n = BitVec.ofNat 32 (countIn _ s.lastEnd s.slotEnd)
    rw [countIn_snoc, if_pos ⟨hlow, hhigh⟩, BitVec.ofNat_add, ← h.count]
  length_le := h.length_le
  slots := by
    refine h.slots.trans (List.map_congr_left fun k _ => ?_)
    show BitVec.ofNat 32 (slot fires s.lastEnd s.slotTicks k) =
      BitVec.ofNat 32 (slot (fires ++ [(t, n)]) s.lastEnd s.slotTicks k)
    rw [slot_snoc h.pos.le hlow]
  early := h.early

/-! ### Rolling -/

/-- The loop's body: a slot is completed and the next one begins. -/
def roll (s : RunStats) : RunStats := { s.pushSlot with slotEnd := s.slotEnd + s.slotTicks }

theorem pushSlot_slots (s : RunStats) :
    s.pushSlot.slots = (s.slotCount :: s.slots).take kCpsHistory ∧ s.pushSlot.slotCount = 0 ∧
      s.pushSlot.slotTicks = s.slotTicks := by
  unfold pushSlot
  dsimp only
  split <;> exact ⟨rfl, rfl, rfl⟩

theorem roll_lastEnd (s : RunStats) : s.roll.lastEnd = s.slotEnd := by
  have hticks : s.roll.slotTicks = s.slotTicks := s.pushSlot_slots.2.2
  rw [lastEnd, hticks]
  show s.slotEnd + s.slotTicks - s.slotTicks = s.slotEnd
  omega

/-- The slot that is going on and those before it, once it is completed. -/
theorem Ring.completed (h : Ring start s fires) :
    s.slotCount :: s.slots = (List.range (s.slots.length + 1)).map
      fun k => BitVec.ofNat 32 (slot fires s.slotEnd s.slotTicks k) := by
  have hroll := s.slotEnd_eq
  rw [List.range_succ_eq_map, List.map_cons, List.map_map, hroll, slot_zero, ← hroll, ← h.count]
  congr 1
  nth_rewrite 1 [h.slots]
  refine List.map_congr_left fun k _ => ?_
  rw [Function.comp_apply, hroll, slot_succ]

theorem Ring.roll (h : Ring start s fires) : Ring start s.roll fires := by
  obtain ⟨hslots, hcount, hticks⟩ := s.pushSlot_slots
  have hend := s.roll_lastEnd
  have hroll := s.slotEnd_eq
  have hpos := h.pos
  have hstart := h.start_le
  constructor
  · show 0 < s.pushSlot.slotTicks
    rw [hticks]
    exact hpos
  · rw [hend]
    omega
  · intro f hf
    have hlt := h.fires_lt f hf
    show f.1 < s.slotEnd + s.slotTicks
    omega
  · -- The next slot has no action yet.
    have hnone : countIn fires s.slotEnd (s.slotEnd + s.slotTicks) = 0 :=
      countIn_eq_zero fun f hf => .inl (h.fires_lt f hf)
    rw [hend]
    show s.pushSlot.slotCount = BitVec.ofNat 32 (countIn fires s.slotEnd (s.slotEnd + s.slotTicks))
    rw [hcount, hnone]
    rfl
  · show s.pushSlot.slots.length ≤ kCpsHistory
    rw [hslots]
    exact List.length_take_le _ _
  -- The slot that ended goes in front; the oldest one may fall off the end.
  · rw [hend]
    show s.pushSlot.slots = (List.range s.pushSlot.slots.length).map
      fun k => BitVec.ofNat 32 (slot fires s.slotEnd s.pushSlot.slotTicks k)
    rw [hslots, hticks, h.completed, ← List.map_take, List.take_range, List.length_map,
      List.length_range]
  · intro hlt
    -- As long as the ring is not full, the oldest slot began where the run did.
    have hlen : s.pushSlot.slots.length = min kCpsHistory (s.slots.length + 1) := by
      rw [hslots, List.length_take, List.length_cons]
    have hlt' : s.pushSlot.slots.length < kCpsHistory := hlt
    have hfew : s.slots.length < kCpsHistory := by omega
    have hmany : s.pushSlot.slots.length = s.slots.length + 1 := by omega
    have hearly := h.early hfew
    rw [hend]
    show s.slotEnd - (s.pushSlot.slots.length : ℤ) * s.pushSlot.slotTicks = start
    rw [hmany, hticks, ← hearly, hroll]
    push_cast
    ring

/-- After a pause of more slots than the ring has all of them are empty, and they may start afresh
    anywhere. -/
theorem Ring.resync (h : Ring start s fires) {now first : ℤ} (hfires : ∀ f ∈ fires, f.1 < first)
    (hstart : start + s.slotTicks ≤ first) (hlong : first + 110 * s.slotTicks = s.lastEnd)
    (hnow : s.lastEnd ≤ now) : Ring start { s with slotEnd := now + s.slotTicks } fires := by
  have hpos := h.pos
  have hend : ({ s with slotEnd := now + s.slotTicks } : RunStats).lastEnd = now := by
    show now + s.slotTicks - s.slotTicks = now
    omega
  have hcap : kCpsHistory = 100 := rfl
  -- A ring that is not full has a slot for each since the start, more than there are.
  have hfull : s.slots.length = 100 := by
    by_contra hne
    have hlen := h.length_le
    have hearly := h.early (by omega)
    have hle : (s.slots.length : ℤ) * s.slotTicks ≤ 99 * s.slotTicks :=
      Int.mul_le_mul_of_nonneg_right (by omega) hpos.le
    omega
  have hempty : ∀ t, s.lastEnd ≤ t → ∀ k < 100, slot fires t s.slotTicks k = 0 := by
    intro t ht k hk
    refine slot_eq_zero hpos.le hk fun f hf => ?_
    have hlt := hfires f hf
    push_cast
    omega
  constructor
  · exact hpos
  · rw [hend]
    omega
  · intro f hf
    have hlt := hfires f hf
    show f.1 < now + s.slotTicks
    omega
  · have hbefore : countIn fires s.lastEnd s.slotEnd = 0 :=
      countIn_eq_zero fun f hf => .inl (by have hlt := hfires f hf; omega)
    have hafter : countIn fires now (now + s.slotTicks) = 0 :=
      countIn_eq_zero fun f hf => .inl (by have hlt := hfires f hf; omega)
    rw [hend]
    show s.slotCount = BitVec.ofNat 32 (countIn fires now (now + s.slotTicks))
    rw [h.count, hbefore, hafter]
  · exact h.length_le
  · rw [hend]
    refine h.slots.trans (List.map_congr_left fun k hk => ?_)
    have hk' : k < 100 := by
      rw [List.mem_range, hfull] at hk
      exact hk
    show BitVec.ofNat 32 (slot fires s.lastEnd s.slotTicks k) =
      BitVec.ofNat 32 (slot fires now s.slotTicks k)
    rw [hempty s.lastEnd (le_refl _) k hk', hempty now hnow k hk']
  · intro hlt
    have hlt' : s.slots.length < kCpsHistory := hlt
    omega

theorem advanceLoop_succ (now : ℤ) (left : ℕ) (s : RunStats) :
    advanceLoop now (left + 1) s = if s.slotEnd ≤ now then advanceLoop now left s.roll else s := rfl

/-- **The loop** rolls the slots that are over; the slot it ends in holds `now`. -/
theorem advanceLoop_ring {now len : ℤ} {left : ℕ} (first : ℤ) (done : ℕ)
    (h : Ring start s fires) (hlen : s.slotTicks = len) (hrounds : left + done = 111)
    (hfirst : s.slotEnd = first + done * len) (hfires : ∀ f ∈ fires, f.1 < first)
    (hstart : start + len ≤ first) (hnow : s.lastEnd ≤ now) :
    Ring start (advanceLoop now left s) fires ∧ (advanceLoop now left s).lastEnd ≤ now ∧
      now < (advanceLoop now left s).slotEnd := by
  induction left generalizing s done with
  | zero =>
    have hlong : first + 110 * s.slotTicks = s.lastEnd := by
      have hdone : (done : ℤ) = 111 := by omega
      rw [lastEnd, hfirst, hlen, hdone]
      ring
    have hpos := h.pos
    refine ⟨h.resync hfires (by omega) hlong hnow, ?_, ?_⟩
    · show now + s.slotTicks - s.slotTicks ≤ now
      omega
    · show now < now + s.slotTicks
      omega
  | succ left ih =>
    rw [advanceLoop_succ]
    split
    · next hover =>
      have hticks : s.roll.slotTicks = len := s.pushSlot_slots.2.2.trans hlen
      refine ih (done + 1) h.roll hticks (by omega) ?_ ?_
      · show s.slotEnd + s.slotTicks = first + ((done + 1 : ℕ) : ℤ) * len
        rw [hfirst, hlen]
        push_cast
        ring
      · rw [roll_lastEnd]
        exact hover
    · next hin => exact ⟨h, hnow, not_le.mp hin⟩

/-- **Rolling** up to a time that is not before the slot that is going on. -/
theorem advance_ring (h : Ring start s fires) {now : ℤ} (hnow : s.lastEnd ≤ now) :
    Ring start (s.advance now) fires ∧ (s.advance now).lastEnd ≤ now ∧
      now < (s.advance now).slotEnd := by
  have hstart := h.start_le
  rw [lastEnd] at hstart
  refine advanceLoop_ring s.slotEnd 0 h rfl rfl ?_ h.fires_lt ?_ hnow
  · simp
  · omega

/-! ### Runs -/

/-- The statistics, the clock and the fires so far belong together. -/
structure Tracks (start : ℤ) (x : RunStats × ℤ) (fires : List (ℤ × ℕ)) : Prop where
  ring : Ring start x.1 fires
  clock : x.1.lastEnd ≤ x.2

/-- A step rolls up to its fire and counts it there. -/
theorem step_tracks (P : Platform) (x : RunStats × ℤ) (fires : List (ℤ × ℕ)) (r : Recording)
    (h : Tracks start x fires) :
    Tracks start ((recorder P).next x r) (fires ++ (recorder P).out x r) := by
  have hring := h.ring
  have hclock := h.clock
  -- What is noted after the count moves no slot.
  have hone : ∀ (t : ℤ) (n : ℕ) (s' : RunStats), x.2 ≤ t → ((x.1.advance t).count n).Noted s' →
      Tracks start (s', t) (fires ++ [(t, n)]) := by
    intro t n s' ht hnoted
    obtain ⟨hadv, hlow, hhigh⟩ := advance_ring hring (le_trans hclock ht)
    refine ⟨(hadv.count_snoc n hlow hhigh).noted hnoted, ?_⟩
    show s'.lastEnd ≤ t
    rw [lastEnd, hnoted.slotEnd, hnoted.slotTicks]
    exact hlow
  cases r with
  | action dt deadline => exact hone _ 1 _ (by omega) (onAction_noted P _ _ _)
  | actions dt n => exact hone _ n _ (by omega) (onActions_noted _ _ _)

/-- **In every run** the slots tell the fires. -/
theorem run_tracks (P : Platform) (start : ℤ) (period : ℚ) (recs : List Recording) :
    Tracks start ((recorder P).after (begin P start period, start) recs)
      ((recorder P).trace (begin P start period, start) recs) := by
  refine (recorder P).history (fun x fires r h => step_tracks P x fires r h) ⟨?_, ?_⟩ recs
  · exact begin_ring start period
  · show start + Clk.msToTicks P 100 - Clk.msToTicks P 100 ≤ start
    omega

/-! ### The reported rate -/

/-- The end of the last slot that is over at `now`. -/
def endBefore (s : RunStats) (now : ℤ) : ℤ :=
  s.lastEnd + (now - s.lastEnd) / s.slotTicks * s.slotTicks

/-- The actions of the ten slots completed before `now`. -/
def due (s : RunStats) (fires : List (ℤ × ℕ)) (now : ℤ) : ℕ :=
  countIn fires (s.endBefore now - 10 * s.slotTicks) (s.endBefore now)

/-- Ten slots have been rolled, and each holds its count. -/
def TenRolled (s : RunStats) (fires : List (ℤ × ℕ)) : Prop :=
  10 ≤ s.slots.length ∧ ∀ k < 10, slot fires s.lastEnd s.slotTicks k < 2 ^ 32

/-- The actions of the last `n` slots that were completed, each slot's count with its wrap. -/
def rolledCount (s : RunStats) (fires : List (ℤ × ℕ)) (n : ℕ) : ℕ :=
  ((List.range n).map fun k => slot fires s.lastEnd s.slotTicks k % 2 ^ 32).sum

/-- The actions over the time they took, that of the whole run where they have no interval, are `d`
    a second. -/
def AverageIs (P : Platform) (s : RunStats) (now : ℤ) (d : ℕ) : Prop :=
  if 2 ≤ s.actions ∧ s.firstFire < s.lastFire then
    (s.actions - 1 : ℕ) * (P.freq : ℤ) = d * (s.lastFire - s.firstFire)
  else if s.start < now then s.actions * (P.freq : ℤ) = d * (now - s.start) else d = 0

/-- With ten slots rolled, as many actions have come into the ten slots since as have left them;
    with fewer, or one that wrapped, their rate is that of the ten; with none the run's average
    is. -/
def RateHolds (P : Platform) (s : RunStats) (fires : List (ℤ × ℕ)) (now : ℤ) : Prop :=
  let n := min 10 s.slots.length
  (s.TenRolled fires ∧
    countIn fires (s.lastEnd - 10 * s.slotTicks)
        (min s.lastEnd (s.endBefore now - 10 * s.slotTicks)) =
      countIn fires (max s.lastEnd (s.endBefore now - 10 * s.slotTicks)) (s.endBefore now)) ∨
  (¬ s.TenRolled fires ∧ n ≠ 0 ∧ 10 * s.rolledCount fires n = n * s.due fires now) ∨
  (n = 0 ∧ s.AverageIs P now (s.due fires now))

theorem endBefore_bounds (hpos : 0 < s.slotTicks) {now : ℤ} (hnow : s.lastEnd ≤ now) :
    s.lastEnd ≤ s.endBefore now ∧ s.endBefore now ≤ now ∧ now < s.endBefore now + s.slotTicks := by
  have hdiv : 0 ≤ (now - s.lastEnd) / s.slotTicks := Int.ediv_nonneg (by omega) hpos.le
  have hmul := Int.mul_nonneg hdiv hpos.le
  have hle := Int.ediv_mul_le (now - s.lastEnd) hpos.ne'
  have hlt := Int.lt_ediv_add_one_mul_self (now - s.lastEnd) hpos
  rw [Int.add_mul, Int.one_mul] at hlt
  rw [endBefore]
  omega

/-- The slots that `sumLast` adds up are the last that were completed. -/
theorem sumLast_rolled (h : Ring start s fires) :
    ((s.slots.take 10).map BitVec.toNat).sum = s.rolledCount fires (min 10 s.slots.length) := by
  have hslots := h.slots
  unfold rolledCount
  generalize s.slots.length = n at hslots ⊢
  rw [hslots, ← List.map_take, List.take_range, List.map_map]
  congr 1

/-- **What is reported** is told by the slots that have been rolled. -/
theorem rollingCps_eq (h : Ring start s fires) (now : ℤ) :
    s.rollingCps P now 10 =
      if min 10 s.slots.length = 0 then s.avgCps P now
      else s.rolledCount fires (min 10 s.slots.length) /
        (1 / 10 * (min 10 s.slots.length : ℕ)) := by
  rw [rollingCps, sumLast, sumLast_rolled h]
  by_cases hn : min 10 s.slots.length = 0
  · rw [if_neg (not_not_intro hn), if_pos hn]
  · rw [if_pos hn, if_neg hn]

/-- A count over a part of a second is a rate of `d` where it is as much of `d`. -/
theorem rate_eq_iff {n c d : ℕ} (hn : n ≠ 0) :
    (c : ℚ) / (1 / 10 * (n : ℕ)) = d ↔ 10 * c = n * d := by
  have hn' : (n : ℚ) ≠ 0 := Nat.cast_ne_zero.mpr hn
  have hscale : (c : ℚ) / (1 / 10 * (n : ℕ)) = 10 * c / n := by
    field_simp
  rw [hscale, div_eq_iff hn', mul_comm (d : ℚ)]
  exact_mod_cast Iff.rfl

/-- A count over a time in ticks is a rate of `d` where it is as much of `d`. -/
theorem div_ticksToSec_eq_iff {t : ℤ} (ht : 0 < t) {c d : ℕ} :
    (c : ℚ) / Clk.ticksToSec P t = d ↔ c * (P.freq : ℤ) = d * t := by
  have hfreq := Clk.freq_pos P
  have ht' : (0 : ℚ) < t := by exact_mod_cast ht
  rw [Clk.ticksToSec, div_div_eq_mul_div, div_eq_iff ht'.ne']
  exact_mod_cast Iff.rfl

/-- **The average** is `d` where the run says so. -/
theorem avgCps_eq_iff {now : ℤ} {d : ℕ} : s.avgCps P now = d ↔ s.AverageIs P now d := by
  have helapsed : 0 < Clk.ticksToSec P (now - s.start) ↔ s.start < now := by
    rw [Clk.ticksToSec, div_pos_iff_of_pos_right (Clk.freq_pos P), Int.cast_pos]
    exact sub_pos
  rw [avgCps, AverageIs]
  by_cases hfires : 2 ≤ s.actions ∧ s.firstFire < s.lastFire
  · rw [if_pos hfires, if_pos hfires]
    exact div_ticksToSec_eq_iff (sub_pos.mpr hfires.2)
  · rw [if_neg hfires, if_neg hfires]
    by_cases hnow : s.start < now
    · rw [if_pos (helapsed.mpr hnow), if_pos hnow]
      exact div_ticksToSec_eq_iff (sub_pos.mpr hnow)
    · rw [if_neg (mt helapsed.mp hnow), if_neg hnow]
      exact_mod_cast eq_comm

/-- Ten slots that hold their counts hold those of a second. -/
theorem rolledCount_ten (hpos : 0 < s.slotTicks) (hten : s.TenRolled fires) :
    s.rolledCount fires 10 = countIn fires (s.lastEnd - 10 * s.slotTicks) s.lastEnd := by
  have hcells : (List.range 10).map (fun k => slot fires s.lastEnd s.slotTicks k % 2 ^ 32) =
      (List.range 10).map (slot fires s.lastEnd s.slotTicks) := by
    refine List.map_congr_left fun k hk => ?_
    exact Nat.mod_eq_of_lt (hten.2 k (List.mem_range.mp hk))
  rw [rolledCount, hcells, sum_slots fires s.lastEnd hpos.le]
  norm_num

/-- The rate is current in the slot of the last action, ten slots after the start. -/
theorem rateHolds_same_slot (h : Ring start s fires) {now : ℤ}
    (hten : start + 10 * s.slotTicks ≤ now) (hlow : s.lastEnd ≤ now) (hhigh : now < s.slotEnd)
    (hwrap : ∀ k < 10, slot fires s.lastEnd s.slotTicks k < 2 ^ 32) : s.RateHolds P fires now := by
  have hpos := h.pos
  have hlen : 10 ≤ s.slots.length := by
    by_contra hfew
    have hcap : kCpsHistory = 100 := rfl
    have hearly := h.early (by omega)
    have hle : (s.slots.length : ℤ) * s.slotTicks ≤ 9 * s.slotTicks :=
      Int.mul_le_mul_of_nonneg_right (by omega) hpos.le
    have hend := s.slotEnd_eq
    omega
  have hsame : s.endBefore now = s.lastEnd := by
    have hdiv : (now - s.lastEnd) / s.slotTicks = 0 := by
      refine Int.ediv_eq_zero_of_lt (by omega) ?_
      rw [lastEnd]
      omega
    rw [endBefore, hdiv, zero_mul, add_zero]
  refine .inl ⟨⟨hlen, hwrap⟩, ?_⟩
  rw [hsame, min_eq_right (by omega), max_eq_left (by omega), countIn_self, countIn_self]

/-- **The rolling rate is current** where the slots have been rolled up to the publish time or the
    window has lost as many actions as it has gained since. -/
theorem cps1s_current_iff (P : Platform) (start : ℤ) (period : ℚ) (recs : List Recording)
    (snap : EngineSnapshot) (dt : ℕ) :
    let x := (recorder P).after (begin P start period, start) recs
    let fires := (recorder P).trace (begin P start period, start) recs
    let now := x.2 + dt
    (x.1.fill P snap now).cps1s = x.1.due fires now ↔ x.1.RateHolds P fires now := by
  intro x fires now
  have htracks : Tracks start x fires := run_tracks P start period recs
  have hring := htracks.ring
  have hclock := htracks.clock
  have hpos := hring.pos
  have hnow : x.1.lastEnd ≤ now := le_trans hclock (by omega)
  have hbounds := endBefore_bounds hpos hnow
  have hshown : (x.1.fill P snap now).cps1s = x.1.rollingCps P now 10 := rfl
  rw [hshown, rollingCps_eq hring, RateHolds]
  by_cases hten : x.1.TenRolled fires
  · have hn : min 10 x.1.slots.length = 10 := min_eq_left hten.1
    -- Of two windows as long as each other the later one.
    have hmoved := countIn_eq_iff fires (a := x.1.lastEnd - 10 * x.1.slotTicks)
      (c := x.1.endBefore now - 10 * x.1.slotTicks) (b := x.1.lastEnd) (d := x.1.endBefore now)
      (by omega) hbounds.1
    rw [hn, if_neg (by norm_num), rate_eq_iff (by norm_num), rolledCount_ten hpos hten,
      Nat.mul_right_inj (by norm_num), due, hmoved]
    refine ⟨fun h => .inl ⟨hten, h⟩, ?_⟩
    rintro (⟨-, h⟩ | ⟨hno, -⟩ | ⟨hzero, -⟩)
    · exact h
    · exact absurd hten hno
    · exact absurd hzero (by norm_num)
  · by_cases hn : min 10 x.1.slots.length = 0
    · rw [if_pos hn, avgCps_eq_iff]
      refine ⟨fun h => .inr (.inr ⟨hn, h⟩), ?_⟩
      rintro (⟨hyes, -⟩ | ⟨-, hne, -⟩ | ⟨-, h⟩)
      · exact absurd hyes hten
      · exact absurd hn hne
      · exact h
    · rw [if_neg hn, rate_eq_iff hn]
      refine ⟨fun h => .inr (.inl ⟨hten, hn, h⟩), ?_⟩
      rintro (⟨hyes, -⟩ | ⟨-, -, h⟩ | ⟨hzero, -⟩)
      · exact absurd hyes hten
      · exact h
      · exact absurd hzero hn

/-- Clicks every 100 ms for two seconds, and none for eight: the rate reported is still ten a
    second. -/
theorem cps1s_stale :
    let x := (recorder .tenMegahertz).after (begin .tenMegahertz 1000000 0, 1000000)
      (List.replicate 21 (.action 1000000 0))
    let fires := (recorder .tenMegahertz).trace (begin .tenMegahertz 1000000 0, 1000000)
      (List.replicate 21 (.action 1000000 0))
    (x.1.fill .tenMegahertz {} (x.2 + 80000000)).cps1s = 10 ∧
      x.1.due fires (x.2 + 80000000) = 0 := by
  decide +kernel

end RunStats

end InfinityClicker
