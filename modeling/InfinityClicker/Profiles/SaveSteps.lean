import InfinityClicker.Core.FileSteps
import InfinityClicker.Profiles.ProfileStore

namespace InfinityClicker

open Json Machines Folder

/-!
# `ProfileStore::save` call by call

`save` updates `profiles.json` and then `settings.json`, each by `writeFileAtomic`.

* `saveMachine` — the calls of both updates, one after the other;
* `Saving.Kept` — how far the two updates are, in one folder;
* `save_atomic` — each file is its old one or its new one at any moment, `save` returns true
  exactly when both were replaced, and neither update depends on how the other goes.
-/

/-- The process at work on the two files. -/
structure Saving where
  folder : Folder
  profiles : WriteAt := .createTmp
  settings : WriteAt := .createTmp
  alive : Bool := true

namespace Saving

/-- What `save` returns, when it has. -/
def returned (x : Saving) : Option Bool :=
  match x.profiles, x.settings with
  | .returned first, .returned second => some (second && first)
  | _, _ => none

/-- The next call of `save`: of the second update once the first has returned. -/
def call (texts : Bytes × Bytes) (x : Saving) (o : CallObs) : Saving × List String :=
  match x.profiles with
  | .returned _ =>
    let next := stepWrite "settings.json" texts.2 x.folder x.settings o
    ({ x with folder := next.1, settings := next.2.1 }, next.2.2)
  | at' =>
    let next := stepWrite "profiles.json" texts.1 x.folder at' o
    ({ x with folder := next.1, profiles := next.2.1 }, next.2.2)

end Saving

/-- `save` call by call, for the texts of the two files; the outputs are the files that are
    replaced. -/
def saveMachine (texts : Bytes × Bytes) : Machine Saving FileMove String where
  step x
    | .die => ({ x with alive := false }, [])
    | .call o => if x.alive then x.call texts o else (x, [])

namespace Saving

variable {texts : Bytes × Bytes}

/-- How far the two updates are, from the folder `dir` on, after the files `moved` have been
    replaced. -/
structure Kept (texts : Bytes × Bytes) (dir : Folder) (x : Saving) (moved : List String) :
    Prop where
  profiles : Replacing "profiles.json" texts.1 dir x.folder x.profiles
  settings : Replacing "settings.json" texts.2 dir x.folder x.settings
  profilesMoved : "profiles.json" ∈ moved ↔ x.profiles = .returned true
  settingsMoved : "settings.json" ∈ moved ↔ x.settings = .returned true

theorem Kept.start (dir : Folder) : Kept texts dir { folder := dir } [] :=
  ⟨Replacing.start dir, Replacing.start dir, by simp, by simp⟩

/-- The file a call replaces is its own. -/
theorem notMem_moved {path name : String} (hne : name ≠ path) {data : Bytes} (f : Folder)
    (at' : WriteAt) (o : CallObs) : name ∉ (stepWrite path data f at' o).2.2 := by
  cases at' with
  | createTmp => rw [stepWrite]; split <;> simp
  | move => rw [stepWrite]; split <;> simp [hne]
  | _ => simp [stepWrite]

theorem mem_append_moved {path name : String} (hne : name ≠ path) {data : Bytes} (f : Folder)
    (at' : WriteAt) (o : CallObs) (moved : List String) :
    name ∈ moved ++ (stepWrite path data f at' o).2.2 ↔ name ∈ moved := by
  have hnot : name ∉ (stepWrite path data f at' o).2.2 := notMem_moved hne f at' o
  rw [List.mem_append]
  constructor
  · rintro (hmem | hmem)
    · exact hmem
    · exact absurd hmem hnot
  · exact .inl

/-- A call of the first update. -/
theorem Kept.callProfiles {dir : Folder} {x : Saving} {moved : List String}
    (h : Kept texts dir x moved) (o : CallObs) :
    Kept texts dir
      { x with
        folder := (stepWrite "profiles.json" texts.1 x.folder x.profiles o).1
        profiles := (stepWrite "profiles.json" texts.1 x.folder x.profiles o).2.1 }
      (moved ++ (stepWrite "profiles.json" texts.1 x.folder x.profiles o).2.2) where
  profiles := h.profiles.step o
  settings := h.settings.of_same (stepWrite_other _ _ o (by decide) (by decide))
    (stepWrite_other _ _ o (by decide) (by decide))
  profilesMoved := stepWrite_moved x.folder x.profiles o h.profilesMoved
  settingsMoved := by
    rw [mem_append_moved (by decide)]
    exact h.settingsMoved

/-- A call of the second update. -/
theorem Kept.callSettings {dir : Folder} {x : Saving} {moved : List String}
    (h : Kept texts dir x moved) (o : CallObs) :
    Kept texts dir
      { x with
        folder := (stepWrite "settings.json" texts.2 x.folder x.settings o).1
        settings := (stepWrite "settings.json" texts.2 x.folder x.settings o).2.1 }
      (moved ++ (stepWrite "settings.json" texts.2 x.folder x.settings o).2.2) where
  profiles := h.profiles.of_same (stepWrite_other _ _ o (by decide) (by decide))
    (stepWrite_other _ _ o (by decide) (by decide))
  settings := h.settings.step o
  profilesMoved := by
    rw [mem_append_moved (by decide)]
    exact h.profilesMoved
  settingsMoved := stepWrite_moved x.folder x.settings o h.settingsMoved

theorem Kept.call {dir : Folder} {x : Saving} {moved : List String} (h : Kept texts dir x moved)
    (o : CallObs) : Kept texts dir (x.call texts o).1 (moved ++ (x.call texts o).2) := by
  rw [Saving.call]
  split
  · exact h.callSettings o
  · exact h.callProfiles o

theorem Kept.move {dir : Folder} {x : Saving} {moved : List String} (h : Kept texts dir x moved)
    (m : FileMove) :
    Kept texts dir ((saveMachine texts).next x m) (moved ++ (saveMachine texts).out x m) := by
  cases m with
  | die =>
    show Kept texts dir { x with alive := false } (moved ++ [])
    rw [List.append_nil]
    exact ⟨h.profiles, h.settings, h.profilesMoved, h.settingsMoved⟩
  | call o =>
    show Kept texts dir (if x.alive then x.call texts o else (x, [])).1
      (moved ++ (if x.alive then x.call texts o else (x, [])).2)
    split
    · exact h.call o
    · rw [List.append_nil]
      exact h

/-- `save` returns the conjunction of the two updates. -/
theorem returned_eq_some {x : Saving} {ok : Bool} (h : x.returned = some ok) :
    ok = true ↔ x.profiles = .returned true ∧ x.settings = .returned true := by
  rw [returned] at h
  split at h
  · next first second hprofiles hsettings =>
    rw [hprofiles, hsettings]
    have hok : (second && first) = ok := by simpa using h
    rw [← hok, Bool.and_eq_true]
    constructor
    · rintro ⟨rfl, rfl⟩
      exact ⟨rfl, rfl⟩
    · rintro ⟨hfirst, hsecond⟩
      exact ⟨WriteAt.returned.inj hsecond, WriteAt.returned.inj hfirst⟩
  · exact absurd h (by simp)

/-! ### All calls made -/

/-- The calls of the first update, when it has not returned before the last of them. -/
theorem after_profiles {x : Saving} (halive : x.alive = true) {os : List CallObs}
    (hmade : CallsMade "profiles.json" texts.1 x.folder x.profiles os) :
    (saveMachine texts).after x (os.map .call) =
      { x with
        folder := (runCalls "profiles.json" texts.1 (x.folder, x.profiles) os).1
        profiles := (runCalls "profiles.json" texts.1 (x.folder, x.profiles) os).2 } := by
  induction os generalizing x with
  | nil => rfl
  | cons o os ih =>
    obtain ⟨hnot, hrest⟩ := hmade
    have hcall : (saveMachine texts).next x (.call o) =
        { x with
          folder := (stepWrite "profiles.json" texts.1 x.folder x.profiles o).1
          profiles := (stepWrite "profiles.json" texts.1 x.folder x.profiles o).2.1 } := by
      show (if x.alive then x.call texts o else (x, [])).1 = _
      rw [if_pos halive, Saving.call]
      split
      · next ok hreturned => exact absurd hreturned (hnot ok)
      · rfl
    rw [List.map_cons, Machine.after_cons, hcall]
    refine ih ?_ ?_
    · exact halive
    · exact hrest

/-- The calls of the second update, once the first has returned. -/
theorem after_settings {x : Saving} (halive : x.alive = true) {first : Bool}
    (hfirst : x.profiles = .returned first) (os : List CallObs) :
    (saveMachine texts).after x (os.map .call) =
      { x with
        folder := (runCalls "settings.json" texts.2 (x.folder, x.settings) os).1
        settings := (runCalls "settings.json" texts.2 (x.folder, x.settings) os).2 } := by
  induction os generalizing x with
  | nil => rfl
  | cons o os ih =>
    have hcall : (saveMachine texts).next x (.call o) =
        { x with
          folder := (stepWrite "settings.json" texts.2 x.folder x.settings o).1
          settings := (stepWrite "settings.json" texts.2 x.folder x.settings o).2.1 } := by
      show (if x.alive then x.call texts o else (x, [])).1 = _
      rw [if_pos halive, Saving.call, hfirst]
    rw [List.map_cons, Machine.after_cons, hcall]
    refine ih ?_ ?_
    · exact halive
    · exact hfirst

end Saving

/-- The calls that `save` makes when they go as `o` has it. -/
def SaveObs.moves (texts : Bytes × Bytes) (o : SaveObs) : List FileMove :=
  (o.profiles.calls texts.1).map .call ++ (o.settings.calls texts.2).map .call

section Save

variable (L : Labels) (s : ProfileStore)

/-- The texts of the two files. -/
def ProfileStore.texts : Bytes × Bytes := (s.profilesText L, s.settingsText L)

/-- **Calls that are all made come to `ProfileStore.save`.** -/
theorem after_moves (dir : Folder) (o : SaveObs) :
    ((saveMachine (s.texts L)).after { folder := dir } (o.moves (s.texts L))).folder =
        (s.save L dir o).2.1 ∧
      ((saveMachine (s.texts L)).after { folder := dir } (o.moves (s.texts L))).returned =
        some (s.save L dir o).2.2 := by
  have hmade := callsMade_calls dir "profiles.json" (s.texts L).1 o.profiles
  have hfirst := Saving.after_profiles (x := { folder := dir }) rfl hmade
  rw [runCalls_writeFileAtomic] at hfirst
  rw [SaveObs.moves, Machine.after_append, hfirst,
    Saving.after_settings rfl rfl (o.settings.calls (s.texts L).2), runCalls_writeFileAtomic]
  exact ⟨rfl, congrArg some (Bool.and_comm _ _)⟩

/-- **Saving is atomic per file.**

    * `writeFileAtomic`, for any file, folder and text: at any moment of any run, whatever fails and
      wherever the process dies, the target holds the whole new text once it is replaced and what
      it held before until then; the call returns true only after it is replaced.
    * `save`, at any moment of any run: the same for `profiles.json` and for `settings.json`, and
      if it returns, it returns true exactly when both were replaced.
    * A `save` that is not cut short returns, and each file is replaced when its own calls succeed,
      however those of the other go. -/
theorem save_atomic (dir : Folder) :
    (∀ path data moves,
      let x := (writeMachine path data).after { folder := dir } moves
      let moved := (writeMachine path data).trace { folder := dir } moves
      x.folder path = (if path ∈ moved then some data else dir path) ∧
        (x.next = .returned true ↔ path ∈ moved)) ∧
      (∀ moves,
        let x := (saveMachine (s.texts L)).after { folder := dir } moves
        let moved := (saveMachine (s.texts L)).trace { folder := dir } moves
        x.folder "profiles.json" =
            (if "profiles.json" ∈ moved then some (s.profilesText L) else dir "profiles.json") ∧
          x.folder "settings.json" =
            (if "settings.json" ∈ moved then some (s.settingsText L) else dir "settings.json") ∧
          ∀ ok, x.returned = some ok →
            (ok = true ↔ "profiles.json" ∈ moved ∧ "settings.json" ∈ moved)) ∧
      ∀ o : SaveObs,
        let x := (saveMachine (s.texts L)).after { folder := dir } (o.moves (s.texts L))
        x.folder = (s.save L dir o).2.1 ∧ x.returned = some (s.save L dir o).2.2 ∧
          x.folder "profiles.json" =
            (if replaces (s.profilesText L) o.profiles then some (s.profilesText L)
            else dir "profiles.json") ∧
          x.folder "settings.json" =
            (if replaces (s.settingsText L) o.settings then some (s.settingsText L)
            else dir "settings.json") ∧
          ((s.save L dir o).2.2 = true ↔
            replaces (s.profilesText L) o.profiles ∧ replaces (s.settingsText L) o.settings) := by
  refine ⟨fun path data moves => writeMachine_atomic path data dir moves, ?_, ?_⟩
  · intro moves x moved
    have hkept : Saving.Kept (s.texts L) dir x moved :=
      (saveMachine (s.texts L)).history (fun _ _ m h => h.move m) (Saving.Kept.start dir) moves
    refine ⟨?_, ?_, ?_⟩
    · rw [hkept.profiles.target]
      simp only [hkept.profilesMoved]
      rfl
    · rw [hkept.settings.target]
      simp only [hkept.settingsMoved]
      rfl
    · intro ok hok
      rw [Saving.returned_eq_some hok, hkept.profilesMoved, hkept.settingsMoved]
  · intro o x
    obtain ⟨hfolder, hreturned⟩ := after_moves L s dir o
    -- The folder between the two updates.
    let between := (dir.writeFileAtomic "profiles.json" (s.profilesText L) o.profiles).1
    have hfirst : (dir.writeFileAtomic "profiles.json" (s.profilesText L) o.profiles).2 =
        replaces (s.profilesText L) o.profiles := writeFileAtomic_ok
    have hsecond : (between.writeFileAtomic "settings.json" (s.settingsText L) o.settings).2 =
        replaces (s.settingsText L) o.settings := writeFileAtomic_ok
    have hsettings : between "settings.json" = dir "settings.json" := by
      show (dir.writeFileAtomic "profiles.json" (s.profilesText L) o.profiles).1 _ = _
      rw [writeFileAtomic_apply, if_neg (by decide), if_neg (by decide)]
    have hprofiles : between "profiles.json" =
        if replaces (s.profilesText L) o.profiles then some (s.profilesText L)
        else dir "profiles.json" := by
      show (dir.writeFileAtomic "profiles.json" (s.profilesText L) o.profiles).1 _ = _
      rw [writeFileAtomic_apply, if_pos rfl]
    refine ⟨hfolder, hreturned, ?_, ?_, ?_⟩
    · rw [hfolder]
      show (between.writeFileAtomic "settings.json" (s.settingsText L) o.settings).1 _ = _
      rw [writeFileAtomic_apply, if_neg (by decide), if_neg (by decide), hprofiles]
    · rw [hfolder]
      show (between.writeFileAtomic "settings.json" (s.settingsText L) o.settings).1 _ = _
      rw [writeFileAtomic_apply, if_pos rfl, hsettings]
    · show ((dir.writeFileAtomic "profiles.json" (s.profilesText L) o.profiles).2 &&
        (between.writeFileAtomic "settings.json" (s.settingsText L) o.settings).2) = true ↔ _
      rw [hfirst, hsecond, Bool.and_eq_true]

end Save

end InfinityClicker
