import InfinityClicker.Core.Folder
import InfinityClicker.Core.Machine

namespace InfinityClicker

open Json Machines

/-!
# `writeFileAtomic` call by call

`Folder.writeFileAtomic` is what the calls of the source come to.  Here they are made one at a
time, each goes as it likes, and the process can die between any two.

* `WriteAt` — which call comes next;
* `Folder.stepWrite` — one call;
* `Folder.Replacing` — the target before and after it is replaced, and the temporary file whole
  before it;
* `writeMachine_atomic` — at any moment of any run the target is the old file or the new one;
* `Folder.runCalls_writeFileAtomic` — calls that are all made come to `Folder.writeFileAtomic`.
-/

/-- How one call goes: what it returns, and for `WriteFile` how many bytes it writes at most. -/
structure CallObs where
  ok : Bool := true
  written : ℕ := 2 ^ 32
deriving DecidableEq, Repr

/-- The call of `writeFileAtomic` that comes next; `complete` is `ok && written == data.size()`. -/
inductive WriteAt where
  | createTmp
  | write
  | flush (complete : Bool)
  | close (complete : Bool)
  | move
  | deleteTmp
  | returned (ok : Bool)
deriving DecidableEq, Repr

namespace Folder

section Step

variable (path : String) (data : Bytes)

/-- One call: the folder after it, the call after it, and the file it replaces. -/
def stepWrite (f : Folder) : WriteAt → CallObs → Folder × WriteAt × List String
  | .createTmp, o =>
    -- `CREATE_ALWAYS` empties a file that is there.
    if o.ok then (Function.update f (tmp path) (some []), .write, [])
    else (f, .returned false, [])
  | .write, o =>
    let n := min o.written (data.length % 2 ^ 32)
    (Function.update f (tmp path) (some (data.take n)), .flush (o.ok && n == data.length), [])
  | .flush complete, _ => (f, .close complete, [])
  | .close complete, _ => (f, if complete then .move else .deleteTmp, [])
  | .move, o =>
    if o.ok then (f.moveFile (tmp path) path, .returned true, [path]) else (f, .deleteTmp, [])
  | .deleteTmp, o => (f.deleteFile (tmp path) o.ok, .returned false, [])
  | .returned ok, _ => (f, .returned ok, [])

/-- The calls that are made, one after the other. -/
def runCalls (x : Folder × WriteAt) (os : List CallObs) : Folder × WriteAt :=
  os.foldl (fun x o => ((stepWrite path data x.1 x.2 o).1, (stepWrite path data x.1 x.2 o).2.1)) x

/-- The temporary file holds the whole text from here on. -/
def TmpWhole : WriteAt → Prop
  | .flush complete => complete = true
  | .close complete => complete = true
  | .move => True
  | _ => False

/-- How far the update of `path` from `f₀` is: the target is the new file once the call that
    replaces it is made, and the old one until then. -/
structure Replacing (f₀ f : Folder) (at' : WriteAt) : Prop where
  target : f path = if at' = .returned true then some data else f₀ path
  whole : TmpWhole at' → f (tmp path) = some data

end Step

variable {path : String} {data : Bytes}

theorem Replacing.start (f : Folder) : Replacing path data f f .createTmp :=
  ⟨rfl, False.elim⟩

/-- A call on one file changes nothing else. -/
theorem stepWrite_other (f : Folder) (at' : WriteAt) (o : CallObs) {name : String}
    (hpath : name ≠ path) (htmp : name ≠ tmp path) :
    (stepWrite path data f at' o).1 name = f name := by
  have hupdate : ∀ v, Function.update f (tmp path) v name = f name :=
    fun v => Function.update_of_ne htmp v f
  cases at' with
  | createTmp =>
    rw [stepWrite]
    split
    · exact hupdate _
    · rfl
  | write => exact hupdate _
  | flush complete => rfl
  | close complete => rfl
  | move =>
    rw [stepWrite]
    split
    · show Function.update (Function.update f path _) (tmp path) none name = f name
      rw [Function.update_of_ne htmp, Function.update_of_ne hpath]
    · rfl
  | deleteTmp =>
    show f.deleteFile (tmp path) o.ok name = f name
    rw [deleteFile]
    split
    · exact hupdate _
    · rfl
  | returned ok => rfl

/-- What another file's update leaves alone. -/
theorem Replacing.of_same {f₀ f f' : Folder} {at' : WriteAt} (h : Replacing path data f₀ f at')
    (htarget : f' path = f path) (htmp : f' (tmp path) = f (tmp path)) :
    Replacing path data f₀ f' at' :=
  ⟨by rw [htarget, h.target], fun hwhole => by rw [htmp, h.whole hwhole]⟩

/-- **Every call keeps the target old or new**, and it is new after the move alone. -/
theorem Replacing.step {f₀ f : Folder} {at' : WriteAt} (h : Replacing path data f₀ f at')
    (o : CallObs) :
    Replacing path data f₀ (stepWrite path data f at' o).1 (stepWrite path data f at' o).2.1 := by
  have hne := tmp_ne path
  -- A write to the temporary file is not one to the target.
  have htarget : ∀ v, Function.update f (tmp path) v path = f path :=
    fun v => Function.update_of_ne hne.symm v f
  obtain ⟨hold, hwhole⟩ := h
  cases at' with
  | createTmp =>
    rw [stepWrite]
    split
    · refine ⟨?_, False.elim⟩
      show Function.update f (tmp path) (some []) path = _
      rw [htarget, hold]
      rfl
    · exact ⟨hold, False.elim⟩
  | write =>
    refine ⟨?_, ?_⟩
    · show Function.update f (tmp path) _ path = _
      rw [htarget, hold]
      rfl
    · intro hcomplete
      show Function.update f (tmp path) _ (tmp path) = some data
      have hall : min o.written (data.length % 2 ^ 32) = data.length := by
        have hboth : (o.ok && min o.written (data.length % 2 ^ 32) == data.length) = true :=
          hcomplete
        simpa using (Bool.and_eq_true_iff.mp hboth).2
      rw [Function.update_self, hall, List.take_length]
  | flush complete => exact ⟨hold, hwhole⟩
  | close complete =>
    cases complete with
    | true => exact ⟨hold, fun _ => hwhole rfl⟩
    | false => exact ⟨hold, False.elim⟩
  | move =>
    rw [stepWrite]
    split
    · refine ⟨?_, False.elim⟩
      show Function.update (Function.update f path (f (tmp path))) (tmp path) none path = _
      rw [Function.update_of_ne hne.symm, Function.update_self, hwhole trivial]
      rfl
    · exact ⟨hold, False.elim⟩
  | deleteTmp =>
    refine ⟨?_, False.elim⟩
    show f.deleteFile (tmp path) o.ok path = _
    rw [deleteFile]
    split
    · rw [htarget, hold]
      rfl
    · exact hold
  | returned ok => exact ⟨hold, hwhole⟩

/-- The call that replaces the file is the one it returns true after. -/
theorem stepWrite_moved (f : Folder) (at' : WriteAt) (o : CallObs) {moved : List String}
    (h : path ∈ moved ↔ at' = .returned true) :
    path ∈ moved ++ (stepWrite path data f at' o).2.2 ↔
      (stepWrite path data f at' o).2.1 = .returned true := by
  rw [List.mem_append, h]
  cases at' with
  | createTmp => rw [stepWrite]; split <;> simp
  | write => simp [stepWrite]
  | flush complete => simp [stepWrite]
  | close complete => cases complete <;> simp [stepWrite]
  | move => rw [stepWrite]; split <;> simp
  | deleteTmp => simp [stepWrite]
  | returned ok => simp [stepWrite]

end Folder

/-! ### One file -/

/-- The process at work on a file. -/
structure Writing where
  folder : Folder
  next : WriteAt := .createTmp
  alive : Bool := true

/-- The next call is made, or the process dies before it. -/
inductive FileMove where
  | call (o : CallObs)
  | die
deriving DecidableEq

/-- `writeFileAtomic` call by call; the output is the file that is replaced. -/
def writeMachine (path : String) (data : Bytes) : Machine Writing FileMove String where
  step x
    | .die => ({ x with alive := false }, [])
    | .call o =>
      if x.alive then
        let next := Folder.stepWrite path data x.folder x.next o
        ({ x with folder := next.1, next := next.2.1 }, next.2.2)
      else (x, [])

/-- **The target is the old file or the new one**, at any moment of any run, whatever fails and
    wherever the process dies: the new one exactly from the call that replaces it on, and only
    then does `writeFileAtomic` return true. -/
theorem writeMachine_atomic (path : String) (data : Bytes) (f : Folder) (moves : List FileMove) :
    (((writeMachine path data).after { folder := f } moves).folder path =
        if path ∈ (writeMachine path data).trace { folder := f } moves then some data
        else f path) ∧
      (((writeMachine path data).after { folder := f } moves).next = .returned true ↔
        path ∈ (writeMachine path data).trace { folder := f } moves) := by
  have hrun := (writeMachine path data).history
    (I := fun x moved => Folder.Replacing path data f x.folder x.next ∧
      (path ∈ moved ↔ x.next = .returned true)) (s := { folder := f }) ?_
    ⟨Folder.Replacing.start f, by simp⟩ moves
  · obtain ⟨hreplacing, hmoved⟩ := hrun
    refine ⟨?_, hmoved.symm⟩
    rw [hreplacing.target]
    simp only [hmoved]
  · intro x moved m hx
    cases m with
    | die => simpa [writeMachine, Machine.next, Machine.out] using hx
    | call o =>
      cases halive : x.alive with
      | false => simpa [writeMachine, Machine.next, Machine.out, halive] using hx
      | true =>
        simp only [writeMachine, Machine.next, Machine.out, halive, if_true]
        exact ⟨hx.1.step o, Folder.stepWrite_moved x.folder x.next o hx.2⟩

/-! ### All calls made -/

/-- The calls that `writeFileAtomic` makes when they go as `o` has it. -/
def WriteObs.calls (data : Bytes) (o : WriteObs) : List CallObs :=
  if o.created then
    {} :: { ok := o.wrote, written := o.written } :: {} :: {} ::
      (if Folder.writes data o then
        if o.moved then [{}] else [{ ok := false }, { ok := o.deleted }]
      else [{ ok := o.deleted }])
  else [{ ok := false }]

namespace Folder

/-- No call comes after the one that returns. -/
def CallsMade (path : String) (data : Bytes) : Folder → WriteAt → List CallObs → Prop
  | _, _, [] => True
  | f, at', o :: os =>
    (∀ ok, at' ≠ .returned ok) ∧
      CallsMade path data (stepWrite path data f at' o).1 (stepWrite path data f at' o).2.1 os

theorem callsMade_calls (f : Folder) (path : String) (data : Bytes) (o : WriteObs) :
    CallsMade path data f .createTmp (o.calls data) := by
  cases hcreated : o.created with
  | false => simp [WriteObs.calls, CallsMade, hcreated]
  | true =>
    have hcomplete : (o.wrote && min o.written (data.length % 2 ^ 32) == data.length) =
        writes data o := by
      rw [writes, hcreated, Bool.true_and, bytesWritten]
    cases hwrites : writes data o <;> cases hmoved : o.moved
    all_goals
      have hreported := hcomplete.trans hwrites
      simp only [WriteObs.calls, CallsMade, stepWrite, hcreated, hwrites, hmoved, hreported,
        Bool.false_eq_true, if_true, if_false]
      simp

/-- **Calls that are all made come to `writeFileAtomic`.** -/
theorem runCalls_writeFileAtomic (f : Folder) (path : String) (data : Bytes) (o : WriteObs) :
    runCalls path data (f, .createTmp) (o.calls data) =
      ((f.writeFileAtomic path data o).1, .returned (f.writeFileAtomic path data o).2) := by
  have hover : Function.update (Function.update f (tmp path) (some [])) (tmp path)
      (some (data.take (bytesWritten data o))) =
      Function.update f (tmp path) (some (data.take (bytesWritten data o))) :=
    Function.update_idem _ _ _
  cases hcreated : o.created with
  | false => simp [WriteObs.calls, runCalls, writeFileAtomic, stepWrite, hcreated]
  | true =>
    -- What `WriteFile` reports decides between the move and the deletion.
    have hcomplete : (o.wrote && bytesWritten data o == data.length) = writes data o := by
      rw [writes, hcreated, Bool.true_and]
    have hshort : (o.wrote = false ∨ bytesWritten data o ≠ data.length) ↔
        writes data o = false := by
      rw [← hcomplete]
      simp [imp_iff_not_or]
    cases hwrites : writes data o <;> cases hmoved : o.moved
    all_goals
      simp only [WriteObs.calls, runCalls, writeFileAtomic, stepWrite, hcreated, hwrites, hmoved,
        Bool.not_true, Bool.not_eq_true', Bool.false_eq_true, if_true, if_false, hshort,
        List.foldl_cons, List.foldl_nil]
      rw [← hover]
      simp only [bytesWritten] at hcomplete ⊢
      rw [hcomplete, hwrites]
      rfl

end Folder

end InfinityClicker
