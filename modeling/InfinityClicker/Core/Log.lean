import Mathlib.Data.List.DropRight
import InfinityClicker.Core.Folder
import InfinityClicker.Core.Machine

namespace InfinityClicker

open Json Machines

/-!
# The log

Any thread appends a line to the ring that the UI shows and, while the log file is on, to a queue;
a thread of the log's own writes the queue to the file in batches.

* `LogFiles.appendToFile` — one batch, with the rotation before it;
* `logMachine` — the threads that log, the writer and the calls that start and end it, one move
  under the lock at a time;
* `LogState.Accounted` — every line queued is in one place, and every byte written in one file;
* `log_accounts` — over every run.
-/

/-- Lines kept for the window of the log. -/
def kRingLines : ℕ := 400

/-- A larger file is moved away before it is written to. -/
def kRotateBytes : ℕ := 2 * 1024 * 1024

/-- `LogLevel`, the most urgent first. -/
inductive LogLevel where
  | error
  | warn
  | info
  | debug
deriving DecidableEq, Repr

/-! ### The files -/

/-- How the calls of `appendToFile` go. -/
structure AppendObs where
  /-- `CreateFileW`. -/
  opened : Bool := true
  /-- `GetFileSizeEx`; the size stays 0 when it fails. -/
  sized : Bool := true
  /-- `MoveFileExW`. -/
  moved : Bool := true
  /-- `CreateFileW` after it. -/
  reopened : Bool := true
  /-- How many bytes `WriteFile` writes at most. -/
  written : ℕ := 2 ^ 32
deriving DecidableEq, Repr

/-- The log and the one before it. -/
structure LogFiles where
  /-- `path` is not empty. -/
  hasPath : Bool := false
  file : Option Bytes := none
  old : Option Bytes := none
deriving DecidableEq

/-- What is written of some lines. -/
def blob (lines : List Bytes) : Bytes := lines.flatMap fun l => l ++ bytes "\r\n"

namespace LogFiles

variable (f : LogFiles)

/-- `appendToFile` up to its `WriteFile`: the log is open, and a large one was moved away. -/
def openLog (o : AppendObs) : LogFiles × Bool :=
  if !o.opened then (f, false)
  else
    -- `OPEN_ALWAYS` makes the file where there is none.
    let text := f.file.getD []
    let size := if o.sized then text.length else 0
    if kRotateBytes < size then
      if o.moved then ({ f with file := if o.reopened then some [] else none, old := some text },
        o.reopened)
      else ({ f with file := some text }, o.reopened)
    else ({ f with file := some text }, true)

/-- `appendToFile`: the files after it and the bytes that were written. -/
def appendToFile (lines : List Bytes) (o : AppendObs) : LogFiles × Bytes :=
  if !f.hasPath ∨ lines = [] then (f, [])
  else
    let r := f.openLog o
    if r.2 then
      -- `WriteFile` takes its length as a 32-bit number.
      let data := (blob lines).take (min o.written ((blob lines).length % 2 ^ 32))
      ({ r.1 with file := some (r.1.file.getD [] ++ data) }, data)
    else (r.1, [])

/-- The two files one after the other. -/
def content : Bytes := f.old.getD [] ++ f.file.getD []

/-- Neither file passes `n` bytes. -/
def Within (n : ℕ) : Prop := (f.file.getD []).length ≤ n ∧ (f.old.getD []).length ≤ n

variable {f}

/-- The files `f'` hold the end of what `f` held before some more bytes: all of it, or more than
    2 MB. -/
def KeepsEnd (f f' : LogFiles) (more : Bytes) : Prop :=
  ∃ gone, gone ++ f'.content = f.content ++ more ∧
    (gone = [] ∨ kRotateBytes < f'.content.length)

/-- Files that are not touched keep their end. -/
theorem KeepsEnd.refl (f : LogFiles) : f.KeepsEnd f [] :=
  ⟨[], (List.append_nil _).symm, .inl rfl⟩

/-- What is kept of what is kept. -/
theorem KeepsEnd.trans {f f' f'' : LogFiles} {more more' : Bytes} (h : f.KeepsEnd f' more)
    (h' : f'.KeepsEnd f'' more') : f.KeepsEnd f'' (more ++ more') := by
  obtain ⟨gone, heq, hend⟩ := h
  obtain ⟨gone', heq', hend'⟩ := h'
  refine ⟨gone ++ gone', ?_, ?_⟩
  · rw [List.append_assoc, heq', ← List.append_assoc, heq, List.append_assoc]
  · rcases hend' with rfl | hmore
    · rw [List.append_nil]
      refine hend.imp id fun hlong => ?_
      have hlength := congrArg List.length heq'
      simp only [List.nil_append, List.length_append] at hlength
      omega
    · exact .inr hmore

/-- Writing at the end keeps everything. -/
theorem KeepsEnd.written {f f' f'' : LogFiles} {more : Bytes} (h : f.KeepsEnd f' [])
    (hmore : f''.content = f'.content ++ more) : f.KeepsEnd f'' more :=
  h.trans ⟨[], hmore, .inl rfl⟩

/-- What is moved over is the oldest. -/
theorem openLog_keepsEnd (f : LogFiles) (o : AppendObs) : f.KeepsEnd (f.openLog o).1 [] := by
  unfold openLog
  split
  · exact .refl f
  · dsimp only
    generalize hsize : (if o.sized then (f.file.getD []).length else 0) = size
    have hle : size ≤ (f.file.getD []).length := by
      rw [← hsize]
      split
      · exact le_refl _
      · exact Nat.zero_le _
    split
    · next hlarge =>
      split
      · refine ⟨f.old.getD [], ?_, .inr ?_⟩
        · cases o.reopened <;> simp [content]
        · show kRotateBytes < (f.file.getD [] ++ _).length
          rw [List.length_append]
          omega
      · exact .refl f
    · exact .refl f

/-- **A batch** goes behind everything that is kept. -/
theorem appendToFile_keepsEnd (f : LogFiles) (lines : List Bytes) (o : AppendObs) :
    f.KeepsEnd (f.appendToFile lines o).1 (f.appendToFile lines o).2 := by
  have hopen := f.openLog_keepsEnd o
  unfold appendToFile
  split
  · exact .refl f
  · dsimp only
    split
    · exact hopen.written (by simp [content])
    · exact hopen

/-- What is written is the beginning of the batch. -/
theorem appendToFile_prefix (f : LogFiles) (lines : List Bytes) (o : AppendObs) :
    (f.appendToFile lines o).2 <+: blob lines := by
  unfold appendToFile
  split
  · exact List.nil_prefix
  · dsimp only
    split
    · exact List.take_prefix _ _
    · exact List.nil_prefix

/-- A file that can be moved away is open with 2 MB at most. -/
theorem openLog_within {n : ℕ} (h : f.Within n) {o : AppendObs} (hsized : o.sized = true)
    (hmoved : o.moved = true) : (f.openLog o).1.Within n ∧
      ((f.openLog o).2 = true → ((f.openLog o).1.file.getD []).length ≤ kRotateBytes) := by
  unfold openLog
  rw [hsized, hmoved]
  split
  · exact ⟨h, by simp⟩
  · simp only [if_true]
    split
    · refine ⟨⟨?_, h.1⟩, ?_⟩
      · cases o.reopened <;> exact Nat.zero_le n
      · intro _
        cases o.reopened <;> exact Nat.zero_le _
    · next hsmall => exact ⟨h, fun _ => not_lt.mp hsmall⟩

/-- It never passes 2 MB by more than a batch. -/
theorem Within.appendToFile {n : ℕ} (h : f.Within n) {lines : List Bytes} {o : AppendObs}
    (hsized : o.sized = true) (hmoved : o.moved = true)
    (hn : kRotateBytes + (blob lines).length ≤ n) : (f.appendToFile lines o).1.Within n := by
  obtain ⟨hwithin, hopen⟩ := openLog_within h hsized hmoved
  unfold LogFiles.appendToFile
  split
  · exact h
  · dsimp only
    split
    · next hopened =>
      refine ⟨?_, hwithin.2⟩
      have hbefore := hopen hopened
      have hdata := List.length_take_le (min o.written ((blob lines).length % 2 ^ 32)) (blob lines)
      show ((f.openLog o).1.file.getD [] ++ (blob lines).take _).length ≤ n
      rw [List.length_append]
      omega
    · exact hwithin

end LogFiles

/-! ### The threads -/

/-- Where the writer is. -/
inductive LogWriterAt where
  | absent
  /-- At the head of its loop. -/
  | top
  /-- In `wait_for`. -/
  | waiting
  /-- With a batch in hand, outside the lock. -/
  | writing (batch : List Bytes)
  /-- The same behind the loop. -/
  | closing (batch : List Bytes)
  | ended
deriving DecidableEq

/-- The writer will look at the queue again. -/
def LogWriterAt.looks : LogWriterAt → Bool
  | .top | .waiting | .writing _ => true
  | _ => false

/-- `LogState`, with the writer thread's place and the files it writes. -/
structure LogState where
  ring : List Bytes := []
  pending : List Bytes := []
  files : LogFiles := {}
  writer : LogWriterAt := .absent
  quit : Bool := false
  fileOn : Bool := false
  debugOn : Bool := false
  counter : ℕ := 0
  started : Bool := false

/-- What a thread can do to the log. -/
inductive LogAct where
  /-- `write`, from any thread; `line` is the line it formats. -/
  | write (lvl : LogLevel) (line : Bytes)
  | setFileEnabled (e : Bool)
  | setVerbose (d : Bool)
  /-- `init`, for a directory or for none. -/
  | init (hasDir : Bool)
  /-- `shutdown` up to the join of the writer. -/
  | shutdown
  /-- The rest of it. -/
  | joined
  | writer (o : AppendObs)

/-- What the log shows: a line that came through the filter, and a batch the writer is done with. -/
inductive LogEvent where
  | accepted (line : Bytes) (queued : Bool)
  /-- The writer is done with a batch, of which it wrote `data`. -/
  | taken (batch : List Bytes) (data : Bytes)
deriving DecidableEq

namespace LogState

variable (s : LogState)

/-- `write`: into the ring in any case, into the queue when a file is wanted. -/
def write (lvl : LogLevel) (line : Bytes) : LogState × List LogEvent :=
  if lvl = .debug ∧ !s.debugOn then (s, [])
  else
    let queued := s.fileOn && s.started
    ({ s with
        ring := (s.ring ++ [line]).rtake kRingLines
        pending := if queued then s.pending ++ [line] else s.pending
        counter := s.counter + 1 },
      [.accepted line queued])

/-- The next move of `writerLoop`. -/
def writerStep (o : AppendObs) : LogState × List LogEvent :=
  match s.writer with
  | .absent | .ended => (s, [])
  | .top =>
    if !s.quit then ({ s with writer := .waiting }, [])
    else if s.pending ≠ [] ∧ s.fileOn then
      ({ s with pending := [], writer := .closing s.pending }, [])
    else ({ s with writer := .ended }, [])
  | .waiting =>
    if s.pending = [] then ({ s with writer := .top }, [])
    else ({ s with pending := [], writer := .writing s.pending }, [])
  | .writing batch =>
    if s.fileOn then
      let r := s.files.appendToFile batch o
      ({ s with files := r.1, writer := .top }, [.taken batch r.2])
    else ({ s with writer := .top }, [.taken batch []])
  | .closing batch =>
    let r := s.files.appendToFile batch o
    ({ s with files := r.1, writer := .ended }, [.taken batch r.2])

/-- One move of a caller or of the writer. -/
def step : LogAct → LogState × List LogEvent
  | .write lvl line => s.write lvl line
  | .setFileEnabled e => ({ s with fileOn := e }, [])
  | .setVerbose d => ({ s with debugOn := d }, [])
  | .init hasDir =>
    if s.started then (s, [])
    else
      ({ s with
          files := { s.files with hasPath := s.files.hasPath || hasDir }
          quit := false, writer := .top, started := true }, [])
  | .shutdown => (if s.started then { s with quit := true } else s, [])
  | .joined =>
    (if s.started ∧ s.quit ∧ s.writer = .ended then { s with writer := .absent, started := false }
      else s, [])
  | .writer o => s.writerStep o

/-- `tail`: the last lines for the UI. -/
def tail (maxLines : ℕ) : List Bytes := s.ring.rtake (min maxLines s.ring.length)

/-- The batch in hand. -/
def inHand : List Bytes :=
  match s.writer with
  | .writing batch | .closing batch => batch
  | _ => []

end LogState

/-- The log under all its threads. -/
def logMachine : Machine LogState LogAct LogEvent where
  step := LogState.step

/-! ### Where the lines are -/

/-- The lines that were accepted. -/
def acceptedLines : List LogEvent → List Bytes :=
  List.filterMap fun
    | .accepted line _ => some line
    | .taken _ _ => none

/-- Those that were queued for the file. -/
def queuedLines : List LogEvent → List Bytes :=
  List.filterMap fun
    | .accepted line queued => if queued then some line else none
    | .taken _ _ => none

/-- The batches the writer is done with, each with what it wrote of it. -/
def takenBatches : List LogEvent → List (List Bytes × Bytes) :=
  List.filterMap fun
    | .accepted _ _ => none
    | .taken batch data => some (batch, data)

/-- The lines accepted, piece by piece. -/
theorem acceptedLines_append (h h' : List LogEvent) :
    acceptedLines (h ++ h') = acceptedLines h ++ acceptedLines h' := List.filterMap_append

/-- The lines queued, piece by piece. -/
theorem queuedLines_append (h h' : List LogEvent) :
    queuedLines (h ++ h') = queuedLines h ++ queuedLines h' := List.filterMap_append

/-- The batches taken, piece by piece. -/
theorem takenBatches_append (h h' : List LogEvent) :
    takenBatches (h ++ h') = takenBatches h ++ takenBatches h' := List.filterMap_append

/-- The last `n` of more lines are the last `n` of the last `n`. -/
theorem rtake_rtake_append {α : Type*} (n : ℕ) (xs ys : List α) :
    (xs.rtake n ++ ys).rtake n = (xs ++ ys).rtake n := by
  simp only [List.rtake_eq_reverse_take_reverse, List.reverse_append, List.reverse_reverse,
    List.take_append, List.take_take]
  congr 3
  omega

namespace LogState

/-- After the events `h`, from the files `f₀` on. -/
structure Accounted (f₀ : LogFiles) (s : LogState) (h : List LogEvent) : Prop where
  ring : s.ring = (acceptedLines h).rtake kRingLines
  counter : s.counter = (acceptedLines h).length
  /-- Every line queued was taken, is in hand or waits, in their order. -/
  queued : queuedLines h = (takenBatches h).flatMap Prod.fst ++ s.inHand ++ s.pending
  written : ∀ r ∈ takenBatches h, r.2 <+: blob r.1
  files : f₀.KeepsEnd s.files ((takenBatches h).flatMap Prod.snd)
  unstarted : s.started = false → s.writer = .absent

namespace Accounted

variable {f₀ : LogFiles} {s : LogState} {h : List LogEvent}

/-- A move that shows nothing. -/
theorem nothing (hs : s.Accounted f₀ h) : s.Accounted f₀ (h ++ []) := by
  rwa [List.append_nil]

/-- A move that leaves the lines where they are. -/
theorem keep (hs : s.Accounted f₀ h) {s' : LogState} (hring : s'.ring = s.ring)
    (hcounter : s'.counter = s.counter) (hhand : s'.inHand = s.inHand)
    (hpending : s'.pending = s.pending) (hfiles : s'.files.content = s.files.content)
    (hunstarted : s'.started = false → s'.writer = .absent) : s'.Accounted f₀ (h ++ []) := by
  rw [List.append_nil]
  exact ⟨by rw [hring]; exact hs.ring, by rw [hcounter]; exact hs.counter,
    by rw [hhand, hpending]; exact hs.queued, hs.written,
    by rw [LogFiles.KeepsEnd, hfiles]; exact hs.files, hunstarted⟩

/-- A line written stands at the end of the ring, and of the queue. -/
theorem write (hs : s.Accounted f₀ h) (lvl : LogLevel) (line : Bytes) :
    (s.write lvl line).1.Accounted f₀ (h ++ (s.write lvl line).2) := by
  unfold LogState.write
  split
  · exact hs.nothing
  · dsimp only
    -- Whether the line is queued or not, it is the last one of the ring.
    generalize (s.fileOn && s.started) = queued
    have haccepted : acceptedLines (h ++ [.accepted line queued]) = acceptedLines h ++ [line] :=
      acceptedLines_append _ _
    have hqueued : queuedLines (h ++ [.accepted line queued]) =
        queuedLines h ++ if queued then [line] else [] := by
      rw [queuedLines_append]
      cases queued <;> rfl
    have htaken : takenBatches (h ++ [.accepted line queued]) = takenBatches h := by
      rw [takenBatches_append]
      exact List.append_nil _
    refine ⟨?_, ?_, ?_, ?_, ?_, hs.unstarted⟩
    · dsimp only
      rw [haccepted, hs.ring, rtake_rtake_append]
    · dsimp only
      rw [haccepted, List.length_append, hs.counter, List.length_singleton]
    · rw [hqueued, htaken, hs.queued, inHand, inHand]
      cases queued <;> simp
    · rw [htaken]
      exact hs.written
    · rw [htaken]
      exact hs.files

/-- The writer is done with the batch in hand. -/
theorem done (hs : s.Accounted f₀ h) {s' : LogState} {batch : List Bytes} {data : Bytes}
    (hhand : s.inHand = batch) (hhand' : s'.inHand = []) (hring : s'.ring = s.ring)
    (hcounter : s'.counter = s.counter) (hpending : s'.pending = s.pending)
    (hdata : data <+: blob batch)
    (hfiles : s.files.KeepsEnd s'.files data)
    (hunstarted : s'.started = false → s'.writer = .absent) :
    s'.Accounted f₀ (h ++ [.taken batch data]) := by
  have htaken : takenBatches (h ++ [.taken batch data]) = takenBatches h ++ [(batch, data)] :=
    takenBatches_append _ _
  have haccepted : acceptedLines (h ++ [.taken batch data]) = acceptedLines h := by
    rw [acceptedLines_append]
    exact List.append_nil _
  have hqueued : queuedLines (h ++ [.taken batch data]) = queuedLines h := by
    rw [queuedLines_append]
    exact List.append_nil _
  -- The batch goes from the hand to those taken; the lines are the same.
  refine ⟨?_, ?_, ?_, ?_, ?_, hunstarted⟩
  · rw [hring, haccepted]
    exact hs.ring
  · rw [hcounter, haccepted]
    exact hs.counter
  · rw [hqueued, htaken, hs.queued, hhand, hhand', hpending]
    simp
  · rw [htaken]
    -- What was written is a part of the batch from its start.
    intro r hr
    rcases List.mem_append.mp hr with hold | hnew
    · exact hs.written r hold
    · rw [List.mem_singleton.mp hnew]
      exact hdata
  · have hboth := hs.files.trans hfiles
    rw [htaken, List.flatMap_append]
    simpa using hboth

/-- The writer moves a batch from the queue to its hand and from there to the files. -/
theorem writerStep (hs : s.Accounted f₀ h) (o : AppendObs) :
    (s.writerStep o).1.Accounted f₀ (h ++ (s.writerStep o).2) := by
  have hhand : ∀ w : LogWriterAt, s.writer = w → s.inHand =
      match w with
      | .writing batch | .closing batch => batch
      | _ => [] := by
    rintro w rfl
    rfl
  -- A writer that moves was started.
  have hrunning : ∀ (w w' : LogWriterAt), s.writer = w → w ≠ .absent → s.started = false →
      w' = .absent := by
    intro w w' hw hne hno
    exact absurd (hw.symm.trans (hs.unstarted hno)) hne
  unfold LogState.writerStep
  split
  · exact hs.nothing
  · exact hs.nothing
  · next hw =>
    split
    · exact hs.keep rfl rfl (hhand _ hw).symm rfl rfl (hrunning _ _ hw (by simp))
    · split
      · -- What waited is in hand now.
        rw [List.append_nil]
        refine ⟨hs.ring, hs.counter, ?_, hs.written, hs.files, hrunning _ _ hw (by simp)⟩
        rw [hs.queued, hhand _ hw]
        simp [inHand]
      · exact hs.keep rfl rfl (hhand _ hw).symm rfl rfl (hrunning _ _ hw (by simp))
  -- The wait is over: what is queued is taken into the hand.
  · next hw =>
    split
    · exact hs.keep rfl rfl (hhand _ hw).symm rfl rfl (hrunning _ _ hw (by simp))
    · rw [List.append_nil]
      refine ⟨hs.ring, hs.counter, ?_, hs.written, hs.files, hrunning _ _ hw (by simp)⟩
      rw [hs.queued, hhand _ hw]
      simp [inHand]
  -- The batch is written, or dropped when the file was turned off meanwhile.
  · next batch hw =>
    split
    · exact hs.done (hhand _ hw) rfl rfl rfl rfl (s.files.appendToFile_prefix batch o)
        (s.files.appendToFile_keepsEnd batch o) (hrunning _ _ hw (by simp))
    · exact hs.done (hhand _ hw) rfl rfl rfl rfl List.nil_prefix (.refl s.files)
        (hrunning _ _ hw (by simp))
  -- The last batch is written whatever the switch says.
  · next batch hw =>
    exact hs.done (hhand _ hw) rfl rfl rfl rfl (s.files.appendToFile_prefix batch o)
      (s.files.appendToFile_keepsEnd batch o) (hrunning _ _ hw (by simp))

/-- Every move keeps the account. -/
theorem step (hs : s.Accounted f₀ h) (a : LogAct) :
    (s.step a).1.Accounted f₀ (h ++ (s.step a).2) := by
  cases a with
  | write lvl line => exact hs.write lvl line
  | setFileEnabled e => exact hs.keep rfl rfl rfl rfl rfl hs.unstarted
  | setVerbose d => exact hs.keep rfl rfl rfl rfl rfl hs.unstarted
  | init hasDir =>
    rw [LogState.step]
    split
    · exact hs.nothing
    -- A log that was not started has no writer.
    · next hno =>
      have habsent := hs.unstarted (by simpa using hno)
      refine hs.keep rfl rfl ?_ rfl rfl (by simp)
      show [] = s.inHand
      rw [inHand, habsent]
  | shutdown =>
    rw [LogState.step]
    dsimp only
    split
    · exact hs.keep rfl rfl rfl rfl rfl hs.unstarted
    · exact hs.nothing
  | joined =>
    rw [LogState.step]
    dsimp only
    split
    · next hjoined =>
      refine hs.keep rfl rfl ?_ rfl rfl fun _ => rfl
      show [] = s.inHand
      rw [inHand, hjoined.2.2]
    · exact hs.nothing
  | writer o => exact hs.writerStep o

/-- Before the first line there is nothing to account for. -/
theorem start (f₀ : LogFiles) : Accounted f₀ { files := f₀ } [] :=
  ⟨rfl, rfl, rfl, by simp [takenBatches], .refl f₀, fun _ => rfl⟩

end Accounted

/-! ### How large the files get, and how the writer ends -/

/-- The size is read and a large file can be moved away. -/
def Rotates (_ : LogState) : LogAct → Prop
  | .writer o => o.sized = true ∧ o.moved = true
  | _ => True

/-- A bound for the files at the start and for every batch is kept. -/
theorem within_step {s : LogState} {a : LogAct} (ha : s.Rotates a) {n : ℕ}
    (hs : s.files.Within n)
    (htaken : ∀ r ∈ takenBatches (s.step a).2, kRotateBytes + (blob r.1).length ≤ n) :
    (s.step a).1.files.Within n := by
  cases a with
  | write lvl line =>
    rw [LogState.step, LogState.write]
    split <;> exact hs
  | setFileEnabled e => exact hs
  | setVerbose d => exact hs
  | init hasDir =>
    rw [LogState.step]
    split <;> exact hs
  | shutdown =>
    rw [LogState.step]
    dsimp only
    split <;> exact hs
  | joined =>
    rw [LogState.step]
    dsimp only
    split <;> exact hs
  -- Only a batch that is written makes the files grow.
  | writer o =>
    rw [LogState.step] at htaken ⊢
    unfold LogState.writerStep at htaken ⊢
    split
    · exact hs
    · exact hs
    · split
      · exact hs
      · split <;> exact hs
    · split <;> exact hs
    · next batch hw =>
      simp only [hw] at htaken
      split
      · next hon =>
        rw [if_pos hon] at htaken
        exact hs.appendToFile ha.1 ha.2
          (htaken (batch, (s.files.appendToFile batch o).2) (by simp [takenBatches]))
      · exact hs
    · next batch hw =>
      simp only [hw] at htaken
      exact hs.appendToFile ha.1 ha.2
        (htaken (batch, (s.files.appendToFile batch o).2) (by simp [takenBatches]))

/-- A writer that has ended stays where it is. -/
theorem ended_after {s : LogState} (hw : s.writer = .ended) (os : List AppendObs) :
    logMachine.after s (os.map .writer) = s := by
  induction os with
  | nil => rfl
  | cons o os ih =>
    have hone : logMachine.next s (.writer o) = s := by
      show (s.writerStep o).1 = s
      rw [LogState.writerStep, hw]
    rw [List.map_cons, Machine.after_cons, hone, ih]

/-- Three moves bring a writer that is told to quit to its end; it puts down what it has, and takes
    what waits if it looks again. -/
theorem three_moves {s : LogState} (hquit : s.quit = true) (habsent : s.writer ≠ .absent)
    (o₁ o₂ o₃ : AppendObs) :
    (((s.writerStep o₁).1.writerStep o₂).1.writerStep o₃).1.writer = .ended ∧
      (s.writer.looks = true → s.fileOn = true →
        (((s.writerStep o₁).1.writerStep o₂).1.writerStep o₃).1.pending = []) := by
  cases hw : s.writer with
  | absent => exact absurd hw habsent
  | ended | closing batch => simp [LogState.writerStep, hw, LogWriterAt.looks]
  | top | waiting | writing batch =>
    by_cases hp : s.pending = [] <;> by_cases hon : s.fileOn = true <;>
      simp [LogState.writerStep, hw, hquit, hp, hon]

/-- **The join returns.** -/
theorem drains {s : LogState} (hquit : s.quit = true) (habsent : s.writer ≠ .absent)
    {os : List AppendObs} (hos : 3 ≤ os.length) :
    (logMachine.after s (os.map .writer)).writer = .ended ∧
      (s.writer.looks = true → s.fileOn = true →
        (logMachine.after s (os.map .writer)).pending = []) := by
  match os, hos with
  | o₁ :: o₂ :: o₃ :: rest, _ =>
    obtain ⟨hended, hempty⟩ := three_moves hquit habsent o₁ o₂ o₃
    rw [List.map_cons, List.map_cons, List.map_cons, Machine.after_cons, Machine.after_cons,
      Machine.after_cons]
    show (logMachine.after (((s.writerStep o₁).1.writerStep o₂).1.writerStep o₃).1 _).writer = _ ∧
      (_ → _ →
        (logMachine.after (((s.writerStep o₁).1.writerStep o₂).1.writerStep o₃).1 _).pending = _)
    rw [ended_after hended rest]
    exact ⟨hended, hempty⟩

/-- `tail` gives the last lines asked for, of those the ring keeps. -/
theorem tail_eq {s : LogState} {lines : List Bytes} (h : s.ring = lines.rtake kRingLines) (n : ℕ) :
    s.tail n = lines.rtake (min n kRingLines) := by
  rw [tail, h]
  simp only [List.rtake_eq_reverse_take_reverse, List.reverse_reverse, List.take_take,
    List.length_reverse, List.length_take]
  congr 1
  rw [List.take_eq_take_iff, List.length_reverse]
  omega

end LogState

/-- **The log accounts for every line.**  Whatever threads log and switch, whenever the writer moves
    and however its calls go, at any moment:

    * the UI is shown the last lines accepted, 400 at most, and their number;
    * of the lines queued for the file, in the order of their queueing, the writer is done with the
      first, has the next in hand, and the rest wait: none is lost, doubled or overtaken;
    * what was written of a batch is its beginning, and the two files hold the end of everything
      that was written: all of it, or more than 2 MB;
    * where large files can be moved away, no file passes 2 MB and a batch;
    * a writer that is told to quit ends after three moves running; the queue is then empty if the
      writer was to look at it once more and the log file is on. -/
theorem log_accounts (f₀ : LogFiles) (acts : List LogAct) :
    let s := logMachine.after { files := f₀ } acts
    let h := logMachine.trace { files := f₀ } acts
    ((∀ n, s.tail n = (acceptedLines h).rtake (min n kRingLines)) ∧
        s.counter = (acceptedLines h).length) ∧
      queuedLines h = (takenBatches h).flatMap Prod.fst ++ s.inHand ++ s.pending ∧
      ((∀ r ∈ takenBatches h, r.2 <+: blob r.1) ∧
        f₀.KeepsEnd s.files ((takenBatches h).flatMap Prod.snd)) ∧
      (logMachine.Meets LogState.Rotates { files := f₀ } acts → ∀ n, f₀.Within n →
        (∀ r ∈ takenBatches h, kRotateBytes + (blob r.1).length ≤ n) → s.files.Within n) ∧
      (s.quit = true → s.writer ≠ .absent → ∀ os : List AppendObs, 3 ≤ os.length →
        (logMachine.after s (os.map .writer)).writer = .ended ∧
          (s.writer.looks = true → s.fileOn = true →
            (logMachine.after s (os.map .writer)).pending = [])) := by
  intro s h
  have haccounted : s.Accounted f₀ h :=
    logMachine.history (fun _ _ a hs => hs.step a) (LogState.Accounted.start f₀) acts
  refine ⟨⟨LogState.tail_eq haccounted.ring, haccounted.counter⟩, haccounted.queued,
    ⟨haccounted.written, haccounted.files⟩, ?_, fun hquit habsent os hos =>
      LogState.drains hquit habsent hos⟩
  intro hrotates n hstart
  have hrun := logMachine.history_of_meets (h := [])
    (I := fun s h => (∀ r ∈ takenBatches h, kRotateBytes + (blob r.1).length ≤ n) →
      s.files.Within n)
    (fun s h a hs ha htaken => ?_) (fun _ => hstart) hrotates
  · rwa [List.nil_append] at hrun
  · rw [takenBatches_append, List.forall_mem_append] at htaken
    exact LogState.within_step ha (hs htaken.1) htaken.2

end InfinityClicker
