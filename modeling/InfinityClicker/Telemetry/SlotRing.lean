import InfinityClicker.Core.RingBuffer
import InfinityClicker.Telemetry.RollingRate

namespace InfinityClicker

open Machines RingBuffers

/-!
# The ring of completed slots

`RunStats` keeps the actions of each slot of 100 ms in an array that wraps, and `fill` reads it by
index arithmetic.  Here the array stands as the source has it; what `RunStats` keeps by seconds
and by action has no part in it.

* `SlotRing` — the slots of a run, with the operations that write them and the two readings of
  `fill`;
* `SlotRing.recorder` — the slots as actions are recorded; its outputs are the slots completed;
* `SlotRing.Kept` — what the ring keeps of them; `advance_kept`, `run_kept`;
* `SlotRing.slots_exact` — nothing is lost, nothing is counted twice, and a long gap leaves what
  completing every slot of it would;
* `SlotRing.fill_reads` — the lists of `RunStats` are what the array shows.
-/

/-- The slot counters of `RunStats`, with the history in the array the code keeps it in. -/
structure SlotRing where
  actions : ℕ := 0
  slotTicks : ℤ := 0
  slotEnd : ℤ := 0
  slotCount : BitVec 32 := 0
  slots : ℕ → BitVec 32 := fun _ => 0
  slotHead : ℕ := 0
  slotFilled : ℕ := 0

namespace SlotRing

variable (P : Platform)

/-- `begin`: the first slot ends a tenth of a second from now. -/
def begin (now : ℤ) : SlotRing :=
  { slotTicks := Clk.msToTicks P 100
    slotEnd := now + Clk.msToTicks P 100 }

/-- `pushSlot`: the current slot goes to the head of the array, over the oldest one. -/
def pushSlot (s : SlotRing) : SlotRing :=
  { s with
    slots := Function.update s.slots s.slotHead s.slotCount
    slotHead := (s.slotHead + 1) % kCpsHistory
    slotFilled := if s.slotFilled < kCpsHistory then s.slotFilled + 1 else s.slotFilled
    slotCount := 0 }

/-- The body of `advance`'s loop. -/
def roll (s : SlotRing) : SlotRing := { s.pushSlot with slotEnd := s.slotEnd + s.slotTicks }

/-- The loop of `advance`, `left` times at most: after a long pause it resyncs. -/
def advanceLoop (now : ℤ) : (left : ℕ) → SlotRing → SlotRing
  | 0, s => { s with slotEnd := now + s.slotTicks }
  | left + 1, s => if s.slotEnd ≤ now then advanceLoop now left s.roll else s

/-- `advance`: rolls the slots that have ended, at most a history and eleven of them. -/
def advance (s : SlotRing) (now : ℤ) : SlotRing := advanceLoop now (kCpsHistory + 11) s

/-- One action of the timed loop. -/
def onAction (s : SlotRing) (fire : ℤ) : SlotRing :=
  let s := s.advance fire
  { s with actions := s.actions + 1, slotCount := s.slotCount + 1 }

/-- A batch of actions of MAX. -/
def onActions (s : SlotRing) (now : ℤ) (n : ℕ) : SlotRing :=
  let s := s.advance now
  { s with actions := s.actions + n, slotCount := s.slotCount + BitVec.ofNat 32 n }

/-- `(i + kCpsHistory) % kCpsHistory`, the index of both readings. -/
def wrapped (i : ℤ) : ℕ := ((i + kCpsHistory).tmod kCpsHistory).toNat

/-- `sumLast(n)`: from the slot before the head back. -/
def sumLast (s : SlotRing) (n : ℕ) : ℕ × ℕ :=
  let present := min n s.slotFilled
  (((List.range present).map fun i : ℕ =>
    (s.slots (wrapped (s.slotHead - (i + 1)))).toNat).sum, present)

/-- The slots of `cpsHistory`. -/
def history (s : SlotRing) : List (BitVec 32) :=
  (List.range s.slotFilled).map fun i : ℕ => s.slots (wrapped (s.slotHead - s.slotFilled + i))

/-- The history in actions per second; a slot is a tenth of one. -/
def cpsHistory (s : SlotRing) : List ℚ := s.history.map fun c => c.toNat * 10

/-! ### The slots that are completed -/

/-- The counts that the loop of `advance` pushes. -/
def completedLoop (now : ℤ) : (left : ℕ) → SlotRing → List (BitVec 32)
  | 0, _ => []
  | left + 1, s => if s.slotEnd ≤ now then s.slotCount :: completedLoop now left s.roll else []

/-- The slots that this call completes, the skipped empty ones included. -/
def completed (s : SlotRing) (now : ℤ) : List (BitVec 32) :=
  completedLoop now (kCpsHistory + 11) s

/-- The slots that are over at `now`. -/
def elapsed (s : SlotRing) (now : ℤ) : ℕ := ((now - s.slotEnd) / s.slotTicks + 1).toNat

/-- `advance` without its shortcut: every slot that is over is pushed. -/
def advanceAll (s : SlotRing) (now : ℤ) : SlotRing := roll^[s.elapsed now] s

/-- A call that records, `dt` ticks after the one before. -/
inductive SlotCall where
  | onAction (dt : ℕ)
  | onActions (dt n : ℕ)
  | advance (dt : ℕ)

/-- Time that passes before the call. -/
def SlotCall.dt : SlotCall → ℕ
  | onAction dt | onActions dt _ | advance dt => dt

/-- The actions it counts. -/
def SlotCall.n : SlotCall → ℕ
  | onAction _ => 1
  | onActions _ n => n
  | advance _ => 0

/-- The slots and the clock; the outputs are the slots completed. -/
def recorder : Machine (SlotRing × ℤ) SlotCall (BitVec 32) where
  step x c :=
    let now := x.2 + c.dt
    match c with
    | .onAction _ => ((x.1.onAction now, now), x.1.completed now)
    | .onActions _ n => ((x.1.onActions now n, now), x.1.completed now)
    | .advance _ => ((x.1.advance now, now), x.1.completed now)

/-- The slot that the actions of a call fall in does not reach 2^32. -/
def Fits (x : SlotRing × ℤ) (c : SlotCall) : Prop :=
  (x.1.advance (x.2 + c.dt)).slotCount.toNat + c.n < 2 ^ 32

instance (x : SlotRing × ℤ) (c : SlotCall) : Decidable (Fits x c) :=
  inferInstanceAs (Decidable (_ < _))

/-! ### One slot -/

/-- The array, its head and its fill count. -/
def ring (s : SlotRing) : Buffer (BitVec 32) := ⟨s.slots, s.slotHead, s.slotFilled⟩

variable {s : SlotRing} {now : ℤ}

/-- On the ring, rolling is a push. -/
theorem roll_ring (s : SlotRing) : s.roll.ring = s.ring.push kCpsHistory s.slotCount := rfl

/-- What rolling leaves alone. -/
structure Rolled (s s' : SlotRing) : Prop where
  actions : s'.actions = s.actions
  slotTicks : s'.slotTicks = s.slotTicks

/-- One roll rolls. -/
theorem roll_rolled (s : SlotRing) : Rolled s s.roll := ⟨rfl, rfl⟩

/-- Rolls compose. -/
theorem Rolled.trans {s s' s'' : SlotRing} (h : Rolled s s') (h' : Rolled s' s'') : Rolled s s'' :=
  ⟨h'.actions.trans h.actions, h'.slotTicks.trans h.slotTicks⟩

/-- The loop only rolls. -/
theorem advanceLoop_rolled (now : ℤ) (left : ℕ) (s : SlotRing) :
    Rolled s (advanceLoop now left s) := by
  induction left generalizing s with
  | zero => exact ⟨rfl, rfl⟩
  | succ left ih =>
    rw [advanceLoop]
    split
    · exact s.roll_rolled.trans (ih s.roll)
    · exact ⟨rfl, rfl⟩

/-- **The slot clock is ahead** of the time that has been passed on, resynced or not. -/
theorem lt_advanceLoop (hpos : 0 < s.slotTicks) (left : ℕ) :
    now < (advanceLoop now left s).slotEnd := by
  induction left generalizing s with
  | zero =>
    show now < now + s.slotTicks
    omega
  | succ left ih =>
    rw [advanceLoop]
    split
    · exact ih (s := s.roll) hpos
    · next hin => exact not_le.mp hin

/-- The loop pushes the slots it completes. -/
theorem advanceLoop_ring (now : ℤ) (left : ℕ) (s : SlotRing) :
    (advanceLoop now left s).ring = s.ring.pushAll kCpsHistory (completedLoop now left s) := by
  induction left generalizing s with
  | zero => rfl
  | succ left ih =>
    rw [advanceLoop, completedLoop]
    split
    · exact ih s.roll
    · rfl

/-- What was counted in the slot that was going on is pushed or still there. -/
theorem completedLoop_sum (now : ℤ) (left : ℕ) (s : SlotRing) :
    ((completedLoop now left s).map BitVec.toNat).sum + (advanceLoop now left s).slotCount.toNat =
      s.slotCount.toNat := by
  induction left generalizing s with
  | zero => exact Nat.zero_add _
  | succ left ih =>
    rw [advanceLoop, completedLoop]
    split
    · have hrest : _ = (0 : ℕ) := ih s.roll
      rw [List.map_cons, List.sum_cons, Nat.add_assoc, hrest, Nat.add_zero]
    · exact Nat.zero_add _

/-! ### Every run -/

/-- The ring keeps the newest slots, and the slot that is going on ends after the clock. -/
structure Kept (x : SlotRing × ℤ) (pushed : List (BitVec 32)) : Prop where
  pos : 0 < x.1.slotTicks
  clock : x.2 < x.1.slotEnd
  holds : Holds kCpsHistory x.1.ring pushed

variable {x : SlotRing × ℤ} {pushed : List (BitVec 32)}

/-- The slots are rolled up to `now` and some actions are counted. -/
theorem advance_kept (h : Kept x pushed) (now : ℤ) (actions : ℕ) (slotCount : BitVec 32) :
    Kept ({ x.1.advance now with actions := actions, slotCount := slotCount }, now)
      (pushed ++ x.1.completed now) where
  pos := by
    show 0 < (x.1.advance now).slotTicks
    rw [advance, (advanceLoop_rolled now _ x.1).slotTicks]
    exact h.pos
  clock := lt_advanceLoop h.pos _
  holds := by
    show Holds kCpsHistory (x.1.advance now).ring _
    rw [advance, advanceLoop_ring]
    exact h.holds.pushAll _

/-- A call keeps the ring equal to the last slots completed. -/
theorem step_kept (x : SlotRing × ℤ) (pushed : List (BitVec 32)) (c : SlotCall)
    (h : Kept x pushed) : Kept (recorder.next x c) (pushed ++ recorder.out x c) := by
  cases c with
  | onAction dt => exact advance_kept h _ _ _
  | onActions dt n => exact advance_kept h _ _ _
  | advance dt => exact advance_kept h _ _ _

/-- At the start no slot is completed. -/
theorem begin_kept (start : ℤ) : Kept (begin P start, start) [] where
  pos := RunStats.slotTicks_pos P
  clock := by
    have hpos := RunStats.slotTicks_pos P
    show start < start + Clk.msToTicks P 100
    omega
  holds := holds_new _ _

/-- After any calls the ring holds the last slots completed. -/
theorem run_kept (start : ℤ) (calls : List SlotCall) :
    Kept (recorder.after (begin P start, start) calls)
      (recorder.trace (begin P start, start) calls) :=
  recorder.history step_kept (begin_kept P start) calls

/-- The slots pushed and the one that is going on add up to the actions. -/
def AddsUp (x : SlotRing × ℤ) (pushed : List (BitVec 32)) : Prop :=
  (pushed.map BitVec.toNat).sum + x.1.slotCount.toNat = x.1.actions

/-- A call's actions are counted once, where the slot has room for them. -/
theorem step_addsUp (x : SlotRing × ℤ) (pushed : List (BitVec 32)) (c : SlotCall)
    (h : AddsUp x pushed) (hfits : Fits x c) :
    AddsUp (recorder.next x c) (pushed ++ recorder.out x c) := by
  have hsum := completedLoop_sum (x.2 + c.dt) (kCpsHistory + 11) x.1
  have hactions := (advanceLoop_rolled (x.2 + c.dt) (kCpsHistory + 11) x.1).actions
  -- The counts of the call fit in the slot.
  have hcount : ∀ n, (x.1.advance (x.2 + c.dt)).slotCount.toNat + n < 2 ^ 32 →
      ((x.1.advance (x.2 + c.dt)).slotCount + BitVec.ofNat 32 n).toNat =
        (x.1.advance (x.2 + c.dt)).slotCount.toNat + n := by
    intro n hn
    rw [BitVec.toNat_add, BitVec.toNat_ofNat, Nat.add_mod_mod, Nat.mod_eq_of_lt hn]
  have hout : recorder.out x c = x.1.completed (x.2 + c.dt) := by
    cases c <;> rfl
  have hnext : (recorder.next x c).1.slotCount.toNat =
        (x.1.advance (x.2 + c.dt)).slotCount.toNat + c.n ∧
      (recorder.next x c).1.actions = (x.1.advance (x.2 + c.dt)).actions + c.n := by
    cases c with
    | onAction dt => exact ⟨hcount 1 hfits, rfl⟩
    | onActions dt n => exact ⟨hcount n hfits, rfl⟩
    | advance dt => exact ⟨rfl, rfl⟩
  rw [AddsUp] at h ⊢
  rw [hout, List.map_append, List.sum_append, hnext.1, hnext.2]
  rw [advance, hactions, ← h, ← hsum, completed]
  omega

/-- No call loses an action. -/
theorem actions_after (x : SlotRing × ℤ) (calls : List SlotCall) :
    (recorder.after x calls).1.actions = x.1.actions + (calls.map SlotCall.n).sum := by
  induction calls generalizing x with
  | nil => rfl
  | cons c calls ih =>
    have hone : (recorder.next x c).1.actions = x.1.actions + c.n := by
      have hrolled := (advanceLoop_rolled (x.2 + c.dt) (kCpsHistory + 11) x.1).actions
      cases c with
      | onAction dt => exact congrArg (· + 1) hrolled
      | onActions dt n => exact congrArg (· + n) hrolled
      | advance dt => exact hrolled
    rw [Machine.after_cons, ih, hone, List.map_cons, List.sum_cons, Nat.add_assoc]

/-! ### What the readings show -/

/-- The index that the code wraps by hand is the remainder. -/
theorem wrapped_eq {i : ℤ} {k : ℕ} (h : i + kCpsHistory = k) : wrapped i = k % kCpsHistory := by
  rw [wrapped, h, ← Int.ofNat_tmod, Int.toNat_natCast]

/-- **The history** is the newest slots, the oldest first. -/
theorem history_eq (h : Holds kCpsHistory s.ring pushed) :
    s.history = pushed.rtake kCpsHistory := by
  have hfilled : s.slotFilled ≤ kCpsHistory := h.filled_le.1
  rw [← h.oldest_first]
  refine List.map_congr_left fun i _ => ?_
  have hindex : (s.slotHead - s.slotFilled + i + kCpsHistory : ℤ) =
      (s.slotHead + kCpsHistory - s.slotFilled + i : ℕ) := by
    omega
  rw [wrapped_eq hindex]
  rfl

/-- **The sum** is that of the newest slots of the history. -/
theorem sumLast_eq (h : Holds kCpsHistory s.ring pushed) (n : ℕ) :
    s.sumLast n = (((s.history.rtake n).map BitVec.toNat).sum, min n s.history.length) := by
  have hfilled : s.slotFilled ≤ kCpsHistory := h.filled_le.1
  have hread : ((List.range (min n s.slotFilled)).map fun i : ℕ =>
      (s.slots (wrapped (s.slotHead - (i + 1)))).toNat) =
        (pushed.reverse.take (min n kCpsHistory)).map BitVec.toNat := by
    rw [← h.newest_first n, List.map_map]
    refine List.map_congr_left fun i hi => ?_
    have hlt := List.mem_range.mp hi
    have hindex : (s.slotHead - (i + 1) + kCpsHistory : ℤ) =
        (s.slotHead + kCpsHistory - (i + 1) : ℕ) := by
      omega
    rw [wrapped_eq hindex]
    rfl
  have hnewest : (s.history.rtake n).reverse = pushed.reverse.take (min n kCpsHistory) := by
    rw [history_eq h, List.rtake_eq_reverse_take_reverse, List.rtake_eq_reverse_take_reverse,
      List.reverse_reverse, List.reverse_reverse, List.take_take]
  have hlen : s.history.length = s.slotFilled := by
    rw [history, List.length_map, List.length_range]
  rw [sumLast, hread, ← hnewest, List.map_reverse, List.sum_reverse, hlen]

/-! ### The shortcut of a long gap -/

/-- The slots of a gap: the one that was going on, and empty ones. -/
def gap (slotCount : BitVec 32) : ℕ → List (BitVec 32)
  | 0 => []
  | k + 1 => slotCount :: List.replicate k 0

/-- With nothing counted in the slot, all of them are empty. -/
theorem gap_zero (k : ℕ) : gap 0 k = List.replicate k 0 := by
  cases k with
  | zero => rfl
  | succ k => rfl

/-- Inside the slot nothing has ended. -/
theorem elapsed_of_lt (hpos : 0 < s.slotTicks) (h : now < s.slotEnd) : s.elapsed now = 0 := by
  have hneg : (now - s.slotEnd) / s.slotTicks < 0 := Int.ediv_neg_of_neg_of_pos (by omega) hpos
  rw [elapsed]
  omega

/-- A slot that has ended is one more than those after it. -/
theorem elapsed_of_le (hpos : 0 < s.slotTicks) (h : s.slotEnd ≤ now) :
    s.elapsed now = s.roll.elapsed now + 1 := by
  have hnonneg : 0 ≤ (now - s.slotEnd) / s.slotTicks := Int.ediv_nonneg (by omega) hpos.le
  have hsplit : now - (s.slotEnd + s.slotTicks) = now - s.slotEnd + -1 * s.slotTicks := by ring
  have hdiv : (now - s.roll.slotEnd) / s.roll.slotTicks =
      (now - s.slotEnd) / s.slotTicks + -1 := by
    show (now - (s.slotEnd + s.slotTicks)) / s.slotTicks = _
    rw [hsplit, Int.add_mul_ediv_right _ _ hpos.ne']
  rw [elapsed, elapsed, hdiv]
  omega

/-- The loop pushes the slots that are over, `left` at most. -/
theorem completedLoop_eq (hpos : 0 < s.slotTicks) (left : ℕ) :
    completedLoop now left s = gap s.slotCount (min left (s.elapsed now)) := by
  induction left generalizing s with
  | zero =>
    rw [Nat.zero_min]
    rfl
  | succ left ih =>
    rw [completedLoop]
    split
    · next hover =>
      have hrest : completedLoop now left s.roll = gap 0 (min left (s.roll.elapsed now)) :=
        ih (s := s.roll) hpos
      rw [hrest, gap_zero, elapsed_of_le hpos hover, Nat.add_min_add_right]
      rfl
    · next hin =>
      rw [elapsed_of_lt hpos (not_le.mp hin), Nat.min_zero]
      rfl

/-- Rolling several times pushes the slot and the empty ones after it. -/
theorem iterate_roll_ring (k : ℕ) (s : SlotRing) :
    (roll^[k] s).ring = s.ring.pushAll kCpsHistory (gap s.slotCount k) := by
  induction k generalizing s with
  | zero => rfl
  | succ k ih =>
    have hrest : (roll^[k] s.roll).ring = s.roll.ring.pushAll kCpsHistory (gap 0 k) := ih s.roll
    rw [Function.iterate_succ_apply, hrest, gap_zero, roll_ring]
    rfl

/-- `advanceAll` is the loop with nothing to end it but the time: the slots it pushes are over,
    and the one it leaves is not. -/
theorem advanceAll_spec (hpos : 0 < s.slotTicks) :
    now < (s.advanceAll now).slotEnd ∧
      ∀ j < s.elapsed now, (roll^[j] s).slotEnd ≤ now := by
  rw [advanceAll]
  generalize hk : s.elapsed now = k
  induction k generalizing s with
  | zero =>
    refine ⟨?_, fun j hj => absurd hj (Nat.not_lt_zero j)⟩
    by_contra hover
    have hsucc := elapsed_of_le hpos (not_lt.mp hover)
    omega
  | succ k ih =>
    have hover : s.slotEnd ≤ now := by
      by_contra hin
      have hzero := elapsed_of_lt hpos (not_le.mp hin)
      omega
    have hsucc := elapsed_of_le hpos hover
    obtain ⟨hend, hrounds⟩ := ih (s := s.roll) hpos (by omega)
    refine ⟨hend, fun j hj => ?_⟩
    cases j with
    | zero => exact hover
    | succ j => exact hrounds j (by omega)

/-- A gap longer than the ring leaves it with empty slots. -/
theorem gap_rtake (pushed : List (BitVec 32)) (slotCount : BitVec 32) {k : ℕ}
    (hk : kCpsHistory < k) :
    (pushed ++ gap slotCount k).rtake kCpsHistory = List.replicate kCpsHistory 0 := by
  obtain ⟨m, rfl⟩ : ∃ m, k = m + 1 := ⟨k - 1, by omega⟩
  rw [gap, List.append_cons]
  exact rtake_append_replicate _ _ (by omega)

/-- **The shortcut** leaves the history that completing every slot would. -/
theorem advance_history (h : Holds kCpsHistory s.ring pushed) (hpos : 0 < s.slotTicks) (now : ℤ) :
    (s.advance now).history = (s.advanceAll now).history := by
  have hshort : Holds kCpsHistory (s.advance now).ring
      (pushed ++ gap s.slotCount (min (kCpsHistory + 11) (s.elapsed now))) := by
    rw [advance, advanceLoop_ring, completedLoop_eq hpos]
    exact h.pushAll _
  have hall : Holds kCpsHistory (s.advanceAll now).ring
      (pushed ++ gap s.slotCount (s.elapsed now)) := by
    rw [advanceAll, iterate_roll_ring]
    exact h.pushAll _
  rw [history_eq hshort, history_eq hall]
  rcases Nat.le_total (s.elapsed now) (kCpsHistory + 11) with hfew | hmany
  · rw [Nat.min_eq_right hfew]
  · rw [gap_rtake _ _ (by omega), gap_rtake _ _ (by omega)]

/-- **The slots are exact.** After every run of calls the slot that is going on ends after the
    time passed on; the slots pushed and that one add up to the actions while they fit; both
    readings of `fill` show the newest slots in order; and however long the gap that follows, the
    history is that of all its slots. -/
theorem slots_exact (start : ℤ) (calls : List SlotCall) :
    let x := recorder.after (begin P start, start) calls
    let pushed := recorder.trace (begin P start, start) calls
    x.2 < x.1.slotEnd ∧
      x.1.actions = (calls.map SlotCall.n).sum ∧
      (recorder.Meets Fits (begin P start, start) calls →
        (pushed.map BitVec.toNat).sum + x.1.slotCount.toNat = x.1.actions) ∧
      x.1.history = pushed.rtake kCpsHistory ∧
      (∀ n, x.1.sumLast n =
        (((x.1.history.rtake n).map BitVec.toNat).sum, min n x.1.history.length)) ∧
      ∀ dt : ℕ, (x.1.advance (x.2 + dt)).history = (x.1.advanceAll (x.2 + dt)).history ∧
        x.2 + dt < (x.1.advanceAll (x.2 + dt)).slotEnd ∧
        ∀ j < x.1.elapsed (x.2 + dt), (roll^[j] x.1).slotEnd ≤ x.2 + dt := by
  intro x pushed
  have hkept : Kept x pushed := run_kept P start calls
  refine ⟨hkept.clock, ?_, ?_, history_eq hkept.holds, sumLast_eq hkept.holds, ?_⟩
  · have hcounted := actions_after (begin P start, start) calls
    rw [show (begin P start, start).1.actions = 0 from rfl, Nat.zero_add] at hcounted
    exact hcounted
  · intro hfits
    exact recorder.history_of_meets step_addsUp (h := []) rfl hfits
  · intro dt
    exact ⟨advance_history hkept.holds hkept.pos _, advanceAll_spec hkept.pos⟩

/-- A click, five in one call two slots later, and a pause. -/
theorem slots_exact_six :
    let x := recorder.after (begin .tenMegahertz 0, 0)
      [.onAction 0, .onActions 2000000 5, .advance 3000000]
    let pushed := recorder.trace (begin .tenMegahertz 0, 0)
      [.onAction 0, .onActions 2000000 5, .advance 3000000]
    (pushed.map BitVec.toNat).sum + x.1.slotCount.toNat = x.1.actions :=
  (slots_exact .tenMegahertz 0 [.onAction 0, .onActions 2000000 5, .advance 3000000]).2.2.1
    (by decide +kernel)

/-! ### The lists of `RunStats` -/

/-- The recording as the ring sees it. -/
def call : RunStats.Recording → SlotCall
  | .action dt _ => .onAction dt
  | .actions dt n => .onActions dt n

/-- The statistics have the fields of the ring, and the newest slots in a list. -/
structure Shown (r : SlotRing) (s : RunStats) (pushed : List (BitVec 32)) : Prop where
  actions : s.actions = r.actions
  slotTicks : s.slotTicks = r.slotTicks
  slotEnd : s.slotEnd = r.slotEnd
  slotCount : s.slotCount = r.slotCount
  slots : s.slots = pushed.reverse.take kCpsHistory

variable {r : SlotRing} {st : RunStats}

/-- A roll of the array and a roll of the list show the same. -/
theorem Shown.roll (h : Shown r st pushed) : Shown r.roll st.roll (pushed ++ [r.slotCount]) where
  actions := st.pushSlot_rolled.actions.trans h.actions
  slotTicks := st.pushSlot_slots.2.2.trans h.slotTicks
  slotEnd := by
    show st.slotEnd + st.slotTicks = r.slotEnd + r.slotTicks
    rw [h.slotEnd, h.slotTicks]
  slotCount := st.pushSlot_slots.2.1
  slots := by
    show st.pushSlot.slots = _
    have hcap : kCpsHistory = 99 + 1 := rfl
    rw [st.pushSlot_slots.1, h.slotCount, h.slots, List.reverse_append, List.reverse_singleton,
      List.singleton_append, hcap, List.take_succ_cons, List.take_succ_cons, List.take_take]
    rfl

/-- The two loops show the same. -/
theorem Shown.advanceLoop (h : Shown r st pushed) (now : ℤ) (left : ℕ) :
    Shown (advanceLoop now left r) (RunStats.advanceLoop now left st)
      (pushed ++ completedLoop now left r) := by
  induction left generalizing r st pushed with
  | zero =>
    rw [completedLoop, List.append_nil]
    refine ⟨h.actions, h.slotTicks, ?_, h.slotCount, h.slots⟩
    show now + st.slotTicks = now + r.slotTicks
    rw [h.slotTicks]
  | succ left ih =>
    rw [RunStats.advanceLoop_succ, SlotRing.advanceLoop, completedLoop, h.slotEnd]
    split
    · have hrest := ih h.roll
      rw [List.append_assoc] at hrest
      exact hrest
    · rw [List.append_nil]
      exact h

/-- What is noted beside the slots leaves them as they are. -/
theorem Shown.count {st' : RunStats} (h : Shown r st pushed) (n : ℕ)
    (hnoted : (st.count n).Noted st') :
    Shown { r with actions := r.actions + n, slotCount := r.slotCount + BitVec.ofNat 32 n } st'
      pushed where
  actions := hnoted.actions.trans (congrArg (· + n) h.actions)
  slotTicks := hnoted.slotTicks.trans h.slotTicks
  slotEnd := hnoted.slotEnd.trans h.slotEnd
  slotCount := hnoted.slotCount.trans (congrArg (· + BitVec.ofNat 32 n) h.slotCount)
  slots := hnoted.slots.trans h.slots

/-- Over any recordings the array shows what the list does. -/
theorem run_shown (P : Platform) {t : ℤ} (h : Shown r st pushed)
    (recs : List RunStats.Recording) :
    Shown (recorder.after (r, t) (recs.map call)).1 ((RunStats.recorder P).after (st, t) recs).1
      (pushed ++ recorder.trace (r, t) (recs.map call)) := by
  induction recs generalizing r st t pushed with
  | nil =>
    rw [List.map_nil, Machine.trace_nil, List.append_nil]
    exact h
  | cons rec recs ih =>
    rw [List.map_cons, Machine.trace_cons, ← List.append_assoc]
    cases rec with
    | action dt deadline =>
      exact ih ((h.advanceLoop _ _).count 1 (RunStats.onAction_noted P _ _ _))
    | actions dt n =>
      exact ih ((h.advanceLoop _ _).count n (RunStats.onActions_noted _ _ _))

/-- **What `fill` reads** of the array is what the statistics' list of slots says. -/
theorem fill_reads (start : ℤ) (period : ℚ) (recs : List RunStats.Recording) :
    let st := ((RunStats.recorder P).after (RunStats.begin P start period, start) recs).1
    let r := (recorder.after (begin P start, start) (recs.map call)).1
    (∀ n, st.sumLast n = r.sumLast n) ∧
      ∀ (snap : EngineSnapshot) (now : ℤ), (st.fill P snap now).cpsHistory = r.cpsHistory := by
  intro st r
  have hstart : Shown (begin P start) (RunStats.begin P start period) [] :=
    ⟨rfl, rfl, rfl, rfl, rfl⟩
  have hshown := (run_shown P (t := start) hstart recs).slots
  have hholds := (run_kept P start (recs.map call)).holds
  have hread : r.history = st.slots.reverse := by
    rw [history_eq hholds, List.rtake_eq_reverse_take_reverse, hshown, List.nil_append]
  constructor
  · intro n
    rw [sumLast_eq hholds, hread, List.rtake_eq_reverse_take_reverse, List.reverse_reverse,
      List.map_reverse, List.sum_reverse, List.length_reverse]
    rfl
  · intro snap now
    rw [cpsHistory, hread]
    rfl

end SlotRing

end InfinityClicker
