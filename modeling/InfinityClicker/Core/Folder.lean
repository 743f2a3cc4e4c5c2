import InfinityClicker.Core.Json

namespace InfinityClicker

open Json

/-!
# The files of the data folder

A folder is its files by name.  Every call of the system can go wrong; how it goes is given beside
the call.

* `Folder.readFile` — the whole text of a file that can be opened and is not too large;
* `Folder.writeFileAtomic` — a temporary file first, which then replaces the target;
* `Folder.copyFile` — `CopyFileW` over an existing file.
-/

/-- The files by name. -/
abbrev Folder := String → Option Bytes

/-- How the calls of `readFile` go. -/
structure ReadObs where
  /-- `CreateFileW`: no other process keeps the file locked. -/
  opened : Bool := true
  /-- `GetFileSizeEx`. -/
  sized : Bool := true
  /-- `ReadFile` delivers the whole file. -/
  complete : Bool := true
deriving DecidableEq, Repr

/-- How the calls of `writeFileAtomic` go. -/
structure WriteObs where
  /-- `CreateFileW` of the temporary file. -/
  created : Bool := true
  /-- What `WriteFile` returns, and how many bytes it has written at most. -/
  wrote : Bool := true
  written : ℕ := 2 ^ 32
  /-- `MoveFileExW`. -/
  moved : Bool := true
  /-- `DeleteFileW` of the temporary file. -/
  deleted : Bool := true
deriving DecidableEq, Repr

/-- How `CopyFileW` goes; a copy that fails can leave anything under the new name. -/
inductive CopyObs where
  | copied
  | failed (left : Option Bytes)
deriving DecidableEq

/-- Larger files are not read. -/
def kMaxReadSize : ℕ := 64 * 1024 * 1024

namespace Folder

variable (f : Folder)

def readFile (path : String) (o : ReadObs) : Option Bytes :=
  match f path with
  | none => none
  | some data =>
    if !o.opened then none
    else if !o.sized ∨ kMaxReadSize < data.length then none
    else if data ≠ [] ∧ !o.complete then none
    else some data

/-- The name of the temporary file. -/
def tmp (path : String) : String := path ++ ".tmp"

/-- `WriteFile` takes its length as a 32-bit number. -/
def bytesWritten (data : Bytes) (o : WriteObs) : ℕ := min o.written (data.length % 2 ^ 32)

/-- The temporary file is complete. -/
def writes (data : Bytes) (o : WriteObs) : Bool :=
  o.created && o.wrote && bytesWritten data o == data.length

/-- `DeleteFileW`. -/
def deleteFile (path : String) (deleted : Bool) : Folder :=
  if deleted then Function.update f path none else f

/-- `MoveFileExW` with `MOVEFILE_REPLACE_EXISTING`. -/
def moveFile (source target : String) : Folder :=
  Function.update (Function.update f target (f source)) source none

def writeFileAtomic (path : String) (data : Bytes) (o : WriteObs) : Folder × Bool :=
  if !o.created then (f, false)
  else
    let f : Folder := Function.update f (tmp path) (some (data.take (bytesWritten data o)))
    if !o.wrote ∨ bytesWritten data o ≠ data.length then
      (f.deleteFile (tmp path) o.deleted, false)
    else if !o.moved then (f.deleteFile (tmp path) o.deleted, false)
    else (f.moveFile (tmp path) path, true)

/-- `CopyFileW` with `bFailIfExists` false. -/
def copyFile (source target : String) (o : CopyObs) : Folder :=
  match f source, o with
  | none, _ => f
  | some data, .copied => Function.update f target (some data)
  | some _, .failed left => Function.update f target left

/-! ### What the calls do -/

variable {f} {path : String} {data : Bytes} {o : WriteObs}

/-- A copy changes the target alone. -/
theorem copyFile_of_ne {source target name : String} (o : CopyObs) (h : name ≠ target) :
    f.copyFile source target o name = f name := by
  unfold copyFile
  cases f source with
  | none => rfl
  | some data =>
    cases o with
    | copied => exact Function.update_of_ne h _ _
    | failed left => exact Function.update_of_ne h _ _

/-- What is read is there. -/
theorem eq_of_readFile {o : ReadObs} (h : f.readFile path o = some data) : f path = some data := by
  unfold readFile at h
  split at h
  · exact absurd h (by simp)
  · next old hold =>
    rw [hold]
    split at h
    · exact absurd h (by simp)
    · split at h
      · exact absurd h (by simp)
      · split at h
        · exact absurd h (by simp)
        · exact h

theorem tmp_ne (path : String) : tmp path ≠ path := by
  intro h
  have hlength := congrArg String.length h
  simp [tmp] at hlength

/-- The new text replaces the file. -/
def replaces (data : Bytes) (o : WriteObs) : Bool := writes data o && o.moved

/-- What is left in the temporary file. -/
def tmpLeft (f : Folder) (path : String) (data : Bytes) (o : WriteObs) : Option Bytes :=
  if o.created then
    if replaces data o ∨ o.deleted then none else some (data.take (bytesWritten data o))
  else f (tmp path)

/-- Nothing is left where the temporary file can be deleted. -/
theorem tmpLeft_of_deleted (hcreated : o.created = true) (hdeleted : o.deleted = true) :
    f.tmpLeft path data o = none := by
  rw [tmpLeft, if_pos hcreated, if_pos (Or.inr hdeleted)]

/-- A write that fails leaves at most the temporary file. -/
theorem deleteFile_apply (hcreated : o.created = true) (hfails : replaces data o = false)
    (name : String) :
    deleteFile (Function.update f (tmp path) (some (data.take (bytesWritten data o)))) (tmp path)
        o.deleted name =
      if name = path then f path
      else if name = tmp path then tmpLeft f path data o
      else f name := by
  have hne := tmp_ne path
  unfold deleteFile tmpLeft
  rw [hfails, hcreated]
  by_cases hpath : name = path
  · subst hpath
    split <;> simp [Function.update_of_ne hne.symm]
  · by_cases htmp : name = tmp path
    · subst htmp
      split
      · next hdel => simp [hdel]
      · next hdel => simp [hdel]
    · split <;> simp [htmp]

/-- A write that succeeds leaves the new text alone. -/
theorem moveFile_apply (hdone : replaces data o = true) (name : String) :
    moveFile (Function.update f (tmp path) (some (data.take (bytesWritten data o)))) (tmp path) path
        name =
      if name = path then some data
      else if name = tmp path then tmpLeft f path data o
      else f name := by
  have hne := tmp_ne path
  have hwrites := hdone
  simp only [replaces, writes, Bool.and_eq_true, beq_iff_eq] at hwrites
  obtain ⟨⟨⟨hcreated, -⟩, hlen⟩, -⟩ := hwrites
  unfold moveFile tmpLeft
  rw [hdone, hcreated, hlen, List.take_length]
  by_cases hpath : name = path
  · subst hpath
    simp [Function.update_of_ne hne.symm]
  · by_cases htmp : name = tmp path
    · subst htmp
      simp [hne]
    · simp [hpath, htmp]

/-- **The three kinds of file** after `writeFileAtomic`. -/
theorem writeFileAtomic_apply (f : Folder) (path : String) (data : Bytes) (o : WriteObs)
    (name : String) : (f.writeFileAtomic path data o).1 name =
      if name = path then if replaces data o then some data else f path
      else if name = tmp path then tmpLeft f path data o
      else f name := by
  unfold writeFileAtomic
  split
  · next hcreated =>
    -- No temporary file could be made, so nothing is touched.
    have hno : o.created = false := by simpa using hcreated
    have hfails : replaces data o = false := by simp [replaces, writes, hno]
    by_cases hpath : name = path
    · rw [if_pos hpath, hfails, hpath]
      rfl
    · rw [if_neg hpath]
      split
      · next htmp =>
        rw [htmp, tmpLeft, hno]
        rfl
      · rfl
  · next hcreated =>
    have hyes : o.created = true := by simpa using hcreated
    dsimp only
    split
    -- The disk was full, or the write failed: the temporary file is deleted.
    · next hshort =>
      have hfails : replaces data o = false := by
        unfold replaces writes
        rcases hshort with hno | hlen
        · simp [(by simpa using hno : o.wrote = false)]
        · simp [hlen]
      rw [hfails]
      exact deleteFile_apply hyes hfails name
    · next hfull =>
      rw [not_or] at hfull
      split
      -- Everything is written, but the file in use cannot be replaced.
      · next hmoved =>
        have hfails : replaces data o = false := by
          simp [replaces, (by simpa using hmoved : o.moved = false)]
        rw [hfails]
        exact deleteFile_apply hyes hfails name
      · next hmoved =>
        -- The new text is moved over the old one.
        have hdone : replaces data o = true := by
          have hlen : bytesWritten data o = data.length := by simpa using hfull.2
          have hwrote : o.wrote = true := by simpa using hfull.1
          have hmove : o.moved = true := by simpa using hmoved
          simp [replaces, writes, hyes, hwrote, hlen, hmove]
        rw [hdone]
        exact moveFile_apply hdone name

/-- It returns true when the new text replaces the file. -/
theorem writeFileAtomic_ok : (f.writeFileAtomic path data o).2 = replaces data o := by
  unfold writeFileAtomic replaces writes
  split
  · next h => simp [(by simpa using h : o.created = false)]
  · next hcreated =>
    dsimp only
    split
    · next hshort =>
      rcases hshort with hno | hlen
      · simp [(by simpa using hno : o.wrote = false)]
      · simp [hlen]
    · next hfull =>
      rw [not_or] at hfull
      split
      · next h => simp [(by simpa using h : o.moved = false)]
      · next h => simp_all

end Folder

end InfinityClicker
