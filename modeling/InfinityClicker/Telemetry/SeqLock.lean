import InfinityClicker.Core.Machine
import Mathlib.Algebra.Ring.Nat
import Mathlib.Data.Fin.Basic
import Mathlib.Data.List.GetD
import Mathlib.Logic.Function.Basic

namespace InfinityClicker

open Machines

/-!
# The snapshot lock

`SeqLock<T>` publishes a value from one writer to any number of readers: a sequence number that
is odd while the words of the value are written, and readers that try again when it has changed.
The loads and stores of all threads are interleaved one by one.

* `seqLockMachine` — the steps of `write` and `read`, in any order;
* `Sightings` — the values written, and for each reader the values it was given with the number
  of writes completed as its attempt began;
* `Locked` — how the lock, the writer and every reader stand to the values written;
* `seqLock_untorn` — what a successful read returns is one value that was written, and one reader
  never goes back.
-/

/-! ### The lock and its threads -/

/-- The fields of a `SeqLock<T>`, the value in `n` words. -/
structure SeqLock (W : Type*) (n : ℕ) where
  seq : BitVec 32 := 0
  data : Fin n → W

/-- Attempts of one `read`. -/
def kReadAttempts : ℕ := 1000

/-- Where the writer is: outside `write(v)`, after the load of `seq_`, or after the first store
    with `i` words copied. -/
inductive WriterAt (W : Type*) (n : ℕ) where
  | idle
  | loaded (s : BitVec 32) (v : Fin n → W)
  | copying (s : BitVec 32) (v : Fin n → W) (i : ℕ)

/-- Where a reader is: outside `read(out)`, before the load of attempt `i`, or after a load of
    `s1` with `j` words copied. -/
inductive ReaderAt (W : Type*) (n : ℕ) where
  | idle
  | loading (i : ℕ) (out : Fin n → W)
  | copying (i : ℕ) (s1 : BitVec 32) (out : Fin n → W) (j : ℕ)

/-- The lock with its writer and its readers. -/
structure LockWorld (ρ W : Type*) (n : ℕ) where
  lock : SeqLock W n
  writer : WriterAt W n := .idle
  readers : ρ → ReaderAt W n := fun _ => .idle

/-- The writer calls `write(v)` or makes its next step, or a reader calls `read(out)` or makes
    its. -/
inductive LockMove (ρ W : Type*) (n : ℕ) where
  | write (v : Fin n → W)
  | writer
  | read (r : ρ) (out : Fin n → W)
  | reader (r : ρ)

/-- `write(v)` returns, an attempt of a reader loads an even number, or `read` returns: true with
    a value, or false. -/
inductive LockEvent (ρ W : Type*) (n : ℕ) where
  | wrote (v : Fin n → W)
  | loaded (r : ρ)
  | returned (r : ρ) (out : Option (Fin n → W))

section Machine

variable {ρ W : Type*} [DecidableEq ρ] {n : ℕ}

namespace LockWorld

/-- The next step of `write`. -/
def stepWriter (x : LockWorld ρ W n) : LockWorld ρ W n × List (LockEvent ρ W n) :=
  match x.writer with
  | .idle => (x, [])
  | .loaded s v => ({ x with lock.seq := s + 1, writer := .copying s v 0 }, [])
  | .copying s v i =>
    if h : i < n then
      ({ x with
        lock.data := Function.update x.lock.data ⟨i, h⟩ (v ⟨i, h⟩)
        writer := .copying s v (i + 1) }, [])
    else ({ x with lock.seq := s + 2, writer := .idle }, [.wrote v])

/-- The reader `r` goes on from `next`. -/
def setReader (x : LockWorld ρ W n) (r : ρ) (next : ReaderAt W n) : LockWorld ρ W n :=
  { x with readers := Function.update x.readers r next }

/-- The next step of `read`. -/
def stepReader (x : LockWorld ρ W n) (r : ρ) : LockWorld ρ W n × List (LockEvent ρ W n) :=
  match x.readers r with
  | .idle => (x, [])
  | .loading i out =>
    if i < kReadAttempts then
      if x.lock.seq &&& 1 ≠ 0 then (x.setReader r (.loading (i + 1) out), [])
      else (x.setReader r (.copying i x.lock.seq out 0), [.loaded r])
    else (x.setReader r .idle, [.returned r none])
  | .copying i s1 out j =>
    if h : j < n then
      (x.setReader r (.copying i s1 (Function.update out ⟨j, h⟩ (x.lock.data ⟨j, h⟩)) (j + 1)), [])
    else if x.lock.seq = s1 then (x.setReader r .idle, [.returned r (some out)])
    else (x.setReader r (.loading (i + 1) out), [])

/-- One word of the writer's or of a reader's. -/
def step (x : LockWorld ρ W n) : LockMove ρ W n → LockWorld ρ W n × List (LockEvent ρ W n)
  | .write v =>
    match x.writer with
    | .idle => ({ x with writer := .loaded x.lock.seq v }, [])
    | _ => (x, [])
  | .writer => x.stepWriter
  | .read r out =>
    match x.readers r with
    | .idle => (x.setReader r (.loading 0 out), [])
    | _ => (x, [])
  | .reader r => x.stepReader r

end LockWorld

/-- The writer and the readers, one step at a time. -/
def seqLockMachine : Machine (LockWorld ρ W n) (LockMove ρ W n) (LockEvent ρ W n) where
  step := LockWorld.step

/-! ### What is seen -/

/-- The values written so far, for each reader how many they were as its attempt began, and what
    its successful reads returned, each with that number. -/
structure Sightings (ρ W : Type*) (n : ℕ) where
  written : List (Fin n → W) := []
  loadedAt : ρ → ℕ := fun _ => 0
  reads : ρ → List (ℕ × (Fin n → W)) := fun _ => []

namespace Sightings

/-- What is known after one more event. -/
def see (g : Sightings ρ W n) : LockEvent ρ W n → Sightings ρ W n
  | .wrote v => { g with written := g.written ++ [v] }
  | .loaded r => { g with loadedAt := Function.update g.loadedAt r g.written.length }
  | .returned r (some out) =>
    { g with reads := Function.update g.reads r (g.reads r ++ [(g.loadedAt r, out)]) }
  | .returned _ none => g

/-- The value after `k` writes. -/
def version (init : Fin n → W) (g : Sightings ρ W n) (k : ℕ) : Fin n → W :=
  (init :: g.written).getD k init

end Sightings

/-- The machine with its sightings beside it. -/
def watchedLock : Machine (LockWorld ρ W n × Sightings ρ W n) (LockMove ρ W n)
    (LockEvent ρ W n) :=
  seqLockMachine.watch fun _ g _ evs => evs.foldl Sightings.see g

/-- No attempt that is under way has seen 2³¹ writes. -/
def FewWrites (x : LockWorld ρ W n × Sightings ρ W n) (_ : LockMove ρ W n) : Prop :=
  ∀ r i s1 out j, x.1.readers r = .copying i s1 out j →
    x.2.written.length < x.2.loadedAt r + 2 ^ 31

/-! ### How the threads stand to the values written -/

/-- No store has been made since `k` writes were complete. -/
def WriterAt.Undisturbed (w : WriterAt W n) (written k : ℕ) : Prop :=
  written = k ∧
    match w with
    | .copying _ _ _ => False
    | _ => True

/-- The number in `seq_`, and the words in the lock, at each place of the writer. -/
def WriterOk (init : Fin n → W) (g : Sightings ρ W n) (lock : SeqLock W n) :
    WriterAt W n → Prop
  | .idle =>
    lock.seq = BitVec.ofNat 32 (2 * g.written.length) ∧
      lock.data = g.version init g.written.length
  | .loaded s _ =>
    s = BitVec.ofNat 32 (2 * g.written.length) ∧
      lock.seq = BitVec.ofNat 32 (2 * g.written.length) ∧
      lock.data = g.version init g.written.length
  | .copying s v i =>
    s = BitVec.ofNat 32 (2 * g.written.length) ∧
      lock.seq = BitVec.ofNat 32 (2 * g.written.length + 1) ∧
      ∀ j : Fin n, j.val < i → lock.data j = v j

/-- An attempt that has loaded `s1`, and copied `j` words. -/
structure Reading (init : Fin n → W) (g : Sightings ρ W n) (w : WriterAt W n) (r : ρ)
    (s1 : BitVec 32) (out : Fin n → W) (j : ℕ) : Prop where
  le : g.loadedAt r ≤ g.written.length
  even : s1 = BitVec.ofNat 32 (2 * g.loadedAt r)
  words : w.Undisturbed g.written.length (g.loadedAt r) →
    ∀ i : Fin n, i.val < j → out i = g.version init (g.loadedAt r) i
  later : ∀ e ∈ g.reads r, e.1 ≤ g.loadedAt r

/-- A reader at its place. -/
def ReaderOk (init : Fin n → W) (g : Sightings ρ W n) (w : WriterAt W n) (r : ρ) :
    ReaderAt W n → Prop
  | .copying _ s1 out j => Reading init g w r s1 out j
  | _ => True

/-- What a reader was given: values that were written, none before an earlier one. -/
structure ReadsOk (init : Fin n → W) (g : Sightings ρ W n) (r : ρ) : Prop where
  written : ∀ e ∈ g.reads r, e.1 ≤ g.written.length ∧ e.2 = g.version init e.1
  forward : ((g.reads r).map Prod.fst).Pairwise (· ≤ ·)

/-- The lock, its writer and its readers agree with what was seen. -/
structure Locked (init : Fin n → W) (x : LockWorld ρ W n) (g : Sightings ρ W n) : Prop where
  writer : WriterOk init g x.lock x.writer
  readers : ∀ r, ReaderOk init g x.writer r (x.readers r)
  reads : ∀ r, ReadsOk init g r

/-! ### Numbers in `seq_` -/

/-- The low bit tells odd from even. -/
theorem low_bit (m : ℕ) : (BitVec.ofNat 32 m &&& 1).toNat = m % 2 := by
  rw [BitVec.toNat_and, BitVec.toNat_ofNat]
  show m % 2 ^ 32 &&& 1 = m % 2
  rw [Nat.and_one_is_mod]
  omega

/-- The number is odd while the words are written. -/
theorem odd_seq (k : ℕ) : BitVec.ofNat 32 (2 * k + 1) &&& 1 ≠ 0 := by
  intro h
  have hbit := low_bit (2 * k + 1)
  rw [h] at hbit
  have hzero : (0 : BitVec 32).toNat = 0 := rfl
  omega

/-- Two even numbers are the same only after 2³¹ writes. -/
theorem seq_inj {k m : ℕ} (hle : k ≤ m) (hfew : m < k + 2 ^ 31)
    (h : BitVec.ofNat 32 (2 * m) = BitVec.ofNat 32 (2 * k)) : m = k := by
  have hmod := congrArg BitVec.toNat h
  simp only [BitVec.toNat_ofNat] at hmod
  omega

/-- An odd number is no even one, wrapped or not. -/
theorem seq_odd_ne (k m : ℕ) : BitVec.ofNat 32 (2 * m + 1) ≠ BitVec.ofNat 32 (2 * k) := by
  intro h
  have hmod := congrArg BitVec.toNat h
  simp only [BitVec.toNat_ofNat] at hmod
  omega

/-! ### Versions -/

namespace Sightings

variable {init : Fin n → W} {g : Sightings ρ W n}

/-- A version written keeps the older ones. -/
theorem version_wrote_of_le (v : Fin n → W) {k : ℕ} (hk : k ≤ g.written.length) :
    (g.see (.wrote v)).version init k = g.version init k := by
  show ((init :: g.written) ++ [v]).getD k init = (init :: g.written).getD k init
  rw [List.getD_append]
  simpa using Nat.lt_succ_of_le hk

/-- It is the newest. -/
theorem version_wrote (v : Fin n → W) :
    (g.see (.wrote v)).version init (g.written.length + 1) = v := by
  show ((init :: g.written) ++ [v]).getD (g.written.length + 1) init = v
  rw [List.getD_append_right _ _ _ _ (by simp)]
  simp

end Sightings

/-! ### What an event about one reader leaves alone -/

section Same

variable {init : Fin n → W} {g g' : Sightings ρ W n}

omit [DecidableEq ρ] in

/-- Versions depend on what was written alone. -/
theorem Sightings.version_same (init : Fin n → W) (hw : g'.written = g.written) (k : ℕ) :
    g'.version init k = g.version init k := by
  rw [version, version, hw]

omit [DecidableEq ρ] in

/-- The writer depends on what was written alone. -/
theorem WriterOk.of_same {lock : SeqLock W n} {w : WriterAt W n} (h : WriterOk init g lock w)
    (hw : g'.written = g.written) : WriterOk init g' lock w := by
  have hversion := Sightings.version_same init hw
  cases w with
  | idle =>
    simp only [WriterOk, hw, hversion]
    exact h
  | loaded s v =>
    simp only [WriterOk, hw, hversion]
    exact h
  | copying s v i =>
    simp only [WriterOk, hw]
    exact h

omit [DecidableEq ρ] in

/-- A reader depends on what was written and on its own reads. -/
theorem ReaderOk.of_same {w : WriterAt W n} {r : ρ} {pc : ReaderAt W n}
    (h : ReaderOk init g w r pc) (hw : g'.written = g.written)
    (hload : g'.loadedAt r = g.loadedAt r) (hreads : g'.reads r = g.reads r) :
    ReaderOk init g' w r pc := by
  have hversion := Sightings.version_same init hw
  cases pc with
  | copying i s1 out j =>
    obtain ⟨hle, heven, hwords, hlater⟩ := h
    refine ⟨?_, ?_, ?_, ?_⟩
    · rw [hw, hload]
      exact hle
    · rw [hload]
      exact heven
    · rw [hw, hload]
      intro hun i hi
      rw [hversion]
      exact hwords hun i hi
    · rw [hreads, hload]
      exact hlater
  | _ => trivial

omit [DecidableEq ρ] in

/-- The reads of a reader depend on what was written and on itself. -/
theorem ReadsOk.of_same {r : ρ} (h : ReadsOk init g r) (hw : g'.written = g.written)
    (hreads : g'.reads r = g.reads r) : ReadsOk init g' r := by
  have hversion := Sightings.version_same init hw
  refine ⟨?_, ?_⟩
  · rw [hreads, hw]
    intro e he
    rw [hversion]
    exact h.written e he
  · rw [hreads]
    exact h.forward

end Same

/-! ### Steps of the writer -/

section Writer

variable {init : Fin n → W} {x : LockWorld ρ W n} {g : Sightings ρ W n}

omit [DecidableEq ρ] in
/-- A reader stays as it is while no store is made that was not known to be. -/
theorem ReaderOk.of_writer {w w' : WriterAt W n} {r : ρ} {pc : ReaderAt W n}
    (h : ReaderOk init g w r pc)
    (hw : ∀ k, w'.Undisturbed g.written.length k → w.Undisturbed g.written.length k) :
    ReaderOk init g w' r pc := by
  cases pc with
  | copying i s1 out j =>
    obtain ⟨hle, heven, hwords, hlater⟩ := h
    exact ⟨hle, heven, fun hun => hwords (hw _ hun), hlater⟩
  | _ => trivial

/-- After a write that is complete nothing an attempt under way has copied is known any more. -/
theorem ReaderOk.of_wrote {w w' : WriterAt W n} {r : ρ} {pc : ReaderAt W n}
    (h : ReaderOk init g w r pc) (v : Fin n → W) : ReaderOk init (g.see (.wrote v)) w' r pc := by
  have hlength : (g.see (LockEvent.wrote v : LockEvent ρ W n)).written.length =
      g.written.length + 1 := by
    simp [Sightings.see]
  cases pc with
  | copying i s1 out j =>
    obtain ⟨hle, heven, -, hlater⟩ := h
    refine ⟨?_, heven, ?_, hlater⟩
    · rw [hlength]
      show g.loadedAt r ≤ g.written.length + 1
      omega
    · rintro ⟨hsame, -⟩
      have hsame' : g.written.length + 1 = g.loadedAt r := hlength.symm.trans hsame
      omega
  | _ => trivial

/-- What was read is still a version after one more. -/
theorem ReadsOk.of_wrote {r : ρ} (h : ReadsOk init g r) (v : Fin n → W) :
    ReadsOk init (g.see (.wrote v)) r := by
  refine ⟨?_, h.forward⟩
  intro e he
  obtain ⟨hle, hvalue⟩ := h.written e he
  refine ⟨?_, ?_⟩
  · have hlength : (g.see (LockEvent.wrote v : LockEvent ρ W n)).written.length =
        g.written.length + 1 := by
      simp [Sightings.see]
    omega
  · rw [Sightings.version_wrote_of_le v hle]
    exact hvalue

/-- **A step of `write`** keeps the lock. -/
theorem Locked.stepWriter (h : Locked init x g) :
    Locked init x.stepWriter.1 (x.stepWriter.2.foldl Sightings.see g) := by
  obtain ⟨hwriter, hreaders, hreads⟩ := h
  obtain ⟨lock, writer, readers⟩ := x
  cases writer with
  | idle => exact ⟨hwriter, hreaders, hreads⟩
  | loaded s v =>
    -- The first store makes the number odd.
    obtain ⟨hs, -, -⟩ := hwriter
    refine ⟨⟨hs, ?_, ?_⟩, ?_, hreads⟩
    · show s + 1 = BitVec.ofNat 32 (2 * g.written.length + 1)
      rw [hs, BitVec.ofNat_add]
      rfl
    · intro j hj
      exact absurd hj (Nat.not_lt_zero _)
    · intro r
      exact (hreaders r).of_writer fun k hk => hk.2.elim
  | copying s v i =>
    obtain ⟨hs, hseq, hwords⟩ := hwriter
    rw [LockWorld.stepWriter]
    dsimp only
    split
    · next hi =>
      refine ⟨⟨hs, hseq, ?_⟩, ?_, hreads⟩
      · intro j hj
        show Function.update lock.data ⟨i, hi⟩ (v ⟨i, hi⟩) j = v j
        by_cases hji : j = ⟨i, hi⟩
        · rw [hji, Function.update_self]
        · have hne : j.val ≠ i := fun h => hji (Fin.ext h)
          rw [Function.update_of_ne hji]
          exact hwords j (by omega)
      · intro r
        exact (hreaders r).of_writer fun k hk => hk.2.elim
    · next hi =>
      -- The last store: the value is the next version.
      have hlength : (g.see (LockEvent.wrote v : LockEvent ρ W n)).written.length =
          g.written.length + 1 := by
        simp [Sightings.see]
      refine ⟨⟨?_, ?_⟩, ?_, ?_⟩
      · show s + 2 = BitVec.ofNat 32 (2 * (g.see (.wrote v)).written.length)
        rw [hlength, hs, Nat.mul_add, BitVec.ofNat_add]
        rfl
      · show lock.data = (g.see (.wrote v)).version init (g.see (.wrote v)).written.length
        rw [hlength, Sightings.version_wrote]
        funext j
        exact hwords j (by have := j.isLt; omega)
      · intro r
        exact (hreaders r).of_wrote v
      · intro r
        exact (hreads r).of_wrote v

omit [DecidableEq ρ] in
/-- `write(v)` is called: its first step is a load. -/
theorem Locked.write (h : Locked init x g) (v : Fin n → W) (hidle : x.writer = .idle) :
    Locked init { x with writer := .loaded x.lock.seq v } g := by
  obtain ⟨hwriter, hreaders, hreads⟩ := h
  obtain ⟨lock, writer, readers⟩ := x
  obtain rfl : writer = .idle := hidle
  obtain ⟨hseq, hdata⟩ := hwriter
  refine ⟨⟨hseq, hseq, hdata⟩, ?_, hreads⟩
  intro r
  exact (hreaders r).of_writer fun k hk => ⟨hk.1, trivial⟩

end Writer

/-! ### Steps of a reader -/

section Reader

variable {init : Fin n → W} {x : LockWorld ρ W n} {g : Sightings ρ W n} {r : ρ}

/-- One reader goes on; what was seen is the same. -/
theorem Locked.setReader (h : Locked init x g) {next : ReaderAt W n}
    (hnext : ReaderOk init g x.writer r next) : Locked init (x.setReader r next) g := by
  refine ⟨h.writer, ?_, h.reads⟩
  intro r'
  show ReaderOk init g x.writer r' (Function.update x.readers r next r')
  by_cases hr : r' = r
  · rw [hr, Function.update_self]
    exact hnext
  · rw [Function.update_of_ne hr]
    exact h.readers r'

omit [DecidableEq ρ] in
/-- An even number is loaded only while no words are written. -/
theorem Locked.even_load (h : Locked init x g) (heven : ¬ x.lock.seq &&& 1 ≠ 0) :
    x.lock.seq = BitVec.ofNat 32 (2 * g.written.length) := by
  have hwriter := h.writer
  cases hw : x.writer with
  | idle =>
    rw [hw] at hwriter
    exact hwriter.1
  | loaded s v =>
    rw [hw] at hwriter
    exact hwriter.2.1
  | copying s v i =>
    rw [hw] at hwriter
    rw [hwriter.2.1] at heven
    exact absurd (odd_seq _) heven

omit [DecidableEq ρ] in
/-- The number is the one that was loaded only when no store has been made since. -/
theorem Locked.undisturbed (h : Locked init x g) {k : ℕ} (hle : k ≤ g.written.length)
    (hfew : g.written.length < k + 2 ^ 31) (hseq : x.lock.seq = BitVec.ofNat 32 (2 * k)) :
    x.writer.Undisturbed g.written.length k := by
  have hwriter := h.writer
  cases hw : x.writer with
  | idle =>
    rw [hw] at hwriter
    exact ⟨seq_inj hle hfew (hwriter.1.symm.trans hseq), trivial⟩
  | loaded s v =>
    rw [hw] at hwriter
    exact ⟨seq_inj hle hfew (hwriter.2.1.symm.trans hseq), trivial⟩
  | copying s v i =>
    rw [hw] at hwriter
    exact absurd (hwriter.2.1.symm.trans hseq) (seq_odd_ne k _)

omit [DecidableEq ρ] in
/-- While no store is made the lock holds the version that was loaded. -/
theorem Locked.data_eq (h : Locked init x g) {k : ℕ}
    (hun : x.writer.Undisturbed g.written.length k) : x.lock.data = g.version init k := by
  obtain ⟨hk, hw⟩ := hun
  have hwriter := h.writer
  cases hw' : x.writer with
  | idle =>
    rw [hw'] at hwriter
    rw [← hk]
    exact hwriter.2
  | loaded s v =>
    rw [hw'] at hwriter
    rw [← hk]
    exact hwriter.2.2
  | copying s v i =>
    rw [hw'] at hw
    exact hw.elim

/-- An attempt begins: it has the number of the writes that are complete. -/
theorem Locked.load (h : Locked init x g) (i : ℕ) (out : Fin n → W)
    (heven : ¬ x.lock.seq &&& 1 ≠ 0) :
    Locked init (x.setReader r (.copying i x.lock.seq out 0)) (g.see (.loaded r)) := by
  have hseq := h.even_load heven
  have hmine : (g.see (.loaded r)).loadedAt r = g.written.length := by
    show Function.update g.loadedAt r _ r = _
    rw [Function.update_self]
  refine ⟨h.writer.of_same rfl, ?_, fun r' => (h.reads r').of_same rfl rfl⟩
  intro r'
  show ReaderOk init _ x.writer r' (Function.update x.readers r _ r')
  by_cases hr : r' = r
  · rw [hr, Function.update_self]
    refine ⟨le_of_eq hmine, ?_, ?_, ?_⟩
    · rw [hmine]
      exact hseq
    · intro _ w hw
      exact absurd hw (Nat.not_lt_zero _)
    · rw [hmine]
      intro e he
      exact ((h.reads r).written e he).1
  · rw [Function.update_of_ne hr]
    exact (h.readers r').of_same rfl (Function.update_of_ne hr _ _) rfl

/-- **`read` returns true**: what it returns is the version that was loaded. -/
theorem Locked.returned (h : Locked init x g) {s1 : BitVec 32} {out : Fin n → W} {j : ℕ}
    (hreading : Reading init g x.writer r s1 out j) (hall : ¬ j < n)
    (hfew : g.written.length < g.loadedAt r + 2 ^ 31) (hseq : x.lock.seq = s1) :
    Locked init (x.setReader r .idle) (g.see (.returned r (some out))) := by
  have hun := h.undisturbed hreading.le hfew (hseq.trans hreading.even)
  have hout : out = g.version init (g.loadedAt r) := by
    funext w
    exact hreading.words hun w (by have := w.isLt; omega)
  have hmine : (g.see (.returned r (some out))).reads r = g.reads r ++ [(g.loadedAt r, out)] :=
    Function.update_self r _ g.reads
  refine ⟨h.writer.of_same rfl, ?_, ?_⟩
  · intro r'
    show ReaderOk init _ x.writer r' (Function.update x.readers r _ r')
    by_cases hr : r' = r
    · rw [hr, Function.update_self]
      trivial
    · rw [Function.update_of_ne hr]
      exact (h.readers r').of_same rfl rfl (Function.update_of_ne hr _ _)
  · intro r'
    by_cases hr : r' = r
    · subst hr
      refine ⟨?_, ?_⟩
      · rw [hmine]
        intro e he
        rcases List.mem_append.mp he with hold | hnew
        · exact (h.reads r').written e hold
        · rw [List.mem_singleton.mp hnew]
          exact ⟨hreading.le, hout⟩
      · -- The new one is of no older version than the attempt found there.
        rw [hmine, List.map_append, List.pairwise_append]
        refine ⟨(h.reads r').forward, List.pairwise_singleton _ _, ?_⟩
        intro k hk k' hk'
        obtain ⟨e, he, rfl⟩ := List.mem_map.mp hk
        rw [List.map_singleton, List.mem_singleton] at hk'
        rw [hk']
        exact hreading.later e he
    · exact (h.reads r').of_same rfl (Function.update_of_ne hr _ _)

/-- **A step of `read`** keeps the lock. -/
theorem Locked.stepReader (h : Locked init x g)
    (hfew : ∀ i s1 out j, x.readers r = .copying i s1 out j →
      g.written.length < g.loadedAt r + 2 ^ 31) :
    Locked init (x.stepReader r).1 ((x.stepReader r).2.foldl Sightings.see g) := by
  have hme := h.readers r
  unfold LockWorld.stepReader
  cases hpc : x.readers r with
  | idle => exact h
  | loading i out =>
    dsimp only
    split
    · split
      · exact h.setReader trivial
      · next heven => exact h.load i out heven
    · exact h.setReader trivial
  | copying i s1 out j =>
    rw [hpc] at hme
    dsimp only
    split
    · next hj =>
      -- A word is copied; it is the version's while no store is made.
      refine h.setReader ⟨hme.le, hme.even, ?_, hme.later⟩
      intro hun w hw
      by_cases hwj : w = ⟨j, hj⟩
      · rw [hwj, Function.update_self, h.data_eq hun]
      · have hne : w.val ≠ j := fun heq => hwj (Fin.ext heq)
        rw [Function.update_of_ne hwj]
        exact hme.words hun w (by omega)
    · next hj =>
      split
      · next hseq => exact h.returned hme hj (hfew i s1 out j hpc) hseq
      · exact h.setReader trivial

end Reader

/-! ### Runs -/

/-- A move of few writes keeps the lock sound. -/
theorem Locked.step {init : Fin n → W} {x : LockWorld ρ W n × Sightings ρ W n}
    {m : LockMove ρ W n} (h : Locked init x.1 x.2) (hfew : FewWrites x m) :
    Locked init (watchedLock.next x m).1 (watchedLock.next x m).2 := by
  obtain ⟨x, g⟩ := x
  show Locked init (x.step m).1 ((x.step m).2.foldl Sightings.see g)
  cases m with
  | write v =>
    rw [LockWorld.step]
    split
    · next hidle => exact Locked.write h v hidle
    · exact h
  | writer => exact Locked.stepWriter h
  | read r out =>
    rw [LockWorld.step]
    split
    · exact Locked.setReader h trivial
    · exact h
  | reader r => exact Locked.stepReader h fun i s1 out j hpc => hfew r i s1 out j hpc

/-- The sightings are those of the events. -/
theorem watchedLock_sightings (x : LockWorld ρ W n) (g : Sightings ρ W n)
    (moves : List (LockMove ρ W n)) :
    (watchedLock.after (x, g) moves).2 = (seqLockMachine.trace x moves).foldl Sightings.see g := by
  induction moves generalizing x g with
  | nil => rfl
  | cons m moves ih =>
    rw [Machine.after_cons, Machine.trace_cons, List.foldl_append]
    exact ih _ _

/-- **Snapshots are never torn.**  One writer and any number of readers, their loads and stores in
    any order, and no attempt of a reader during which 2³¹ writes complete: each value that a
    `read` returns is the initial value or the value of one completed write, whole, and the
    values one reader is given are never of an earlier write than those it was given before. -/
theorem seqLock_untorn (init : Fin n → W) (moves : List (LockMove ρ W n))
    (hfew : watchedLock.Meets FewWrites ({ lock := { data := init } }, {}) moves) :
    let g := (seqLockMachine.trace { lock := { data := init } } moves).foldl Sightings.see
      ({} : Sightings ρ W n)
    ∀ r, (∀ e ∈ g.reads r, e.1 ≤ g.written.length ∧ e.2 = (init :: g.written).getD e.1 init) ∧
      ((g.reads r).map Prod.fst).Pairwise (· ≤ ·) := by
  have hstart : Locked init ({ lock := { data := init } } : LockWorld ρ W n) {} := by
    refine ⟨⟨rfl, rfl⟩, fun r => trivial, fun r => ⟨?_, List.Pairwise.nil⟩⟩
    intro e he
    exact absurd he (List.not_mem_nil)
  have hlocked := watchedLock.invariant_of_meets
    (I := fun x : LockWorld ρ W n × Sightings ρ W n => Locked init x.1 x.2)
    (fun x m hx hm => hx.step hm) hstart hfew
  rw [watchedLock_sightings] at hlocked
  intro g r
  exact ⟨(hlocked.reads r).written, (hlocked.reads r).forward⟩

omit [DecidableEq ρ] in
/-- Fewer than 2³¹ writes in all. -/
theorem fewWrites_of_written {x : LockWorld ρ W n × Sightings ρ W n}
    (h : x.2.written.length < 2 ^ 31) (m : LockMove ρ W n) : FewWrites x m := by
  intro r i s1 out j _
  exact lt_of_lt_of_le h (Nat.le_add_left _ _)

end Machine

/-- A write of two words, with a read that begins between them and ends after the write. -/
def overlappingRead : List (LockMove Unit ℕ 2) :=
  [.write fun _ => 7, .writer, .writer, .read () fun _ => 0, .reader (), .writer, .writer,
    .reader (), .reader (), .reader (), .reader ()]

/-- The read finds the number odd, tries again, and is given both words of the write. -/
theorem overlappingRead_untorn :
    let g := (seqLockMachine.trace { lock := { data := fun _ => 0 } } overlappingRead).foldl
      Sightings.see {}
    (g.reads ()).map (fun e => (e.1, e.2 0, e.2 1)) = [(1, 7, 7)] ∧
      ((g.reads ()).map Prod.fst).Pairwise (· ≤ ·) := by
  have hfew : watchedLock.Meets FewWrites ({ lock := { data := fun _ => 0 } }, {})
      overlappingRead := by
    refine ⟨?_, ?_, ?_, ?_, ?_, ?_, ?_, ?_, ?_, ?_, ?_, trivial⟩
    all_goals exact fewWrites_of_written (by decide) _
  intro g
  exact ⟨by decide, (seqLock_untorn (fun _ => 0) overlappingRead hfew ()).2⟩

end InfinityClicker
