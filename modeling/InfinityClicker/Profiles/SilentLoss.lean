import InfinityClicker.Profiles.StoreInvariant

namespace InfinityClicker

open Json

/-!
# What a load and a save can lose

A `profiles.json` that is not read, or not understood, is replaced by the next save.

* `LoadSave` — a load and the save after it, with how every call goes;
* `LoadSave.LosesNothing` — every entry of the old list was loaded, or the old bytes are kept;
* `LoadSave.Safe` — the file was read and has its list, or it was copied, or it is not replaced;
* `loses_nothing_iff` — nothing is lost exactly then, coincidences apart.
-/

/-- What is taken for the profile list of a file: where its tree has one in the usual place, that
    one. -/
structure ListReading where
  list : Value → List Value
  usual : ∀ (v : Value) (a : List Value), v.get (bytes "profiles") = .array a → list v = a

/-- As `load` does: a tree of another shape has no entries. -/
def ListReading.asLoad : ListReading where
  list v := (v.get (bytes "profiles")).items
  usual := by
    intro v a h
    rw [h]
    rfl

/-- The profile list of a file; a text that does not parse has none. -/
def ListReading.ofText (R : ListReading) (text : Bytes) : Option (List Value) :=
  if (parse text).ok then some (R.list (parse text).value) else none

/-- A load and the save after it. -/
structure LoadSave where
  store : ProfileStore
  dir : Folder
  load : LoadObs := {}
  save : SaveObs := {}

/-- An entry is among the profiles, whatever its name has become. -/
def EntryLoaded (P : Platform) (profiles : List Profile) (e : Value) : Prop :=
  ∃ p ∈ profiles, { p with name := (Profile.fromJson P e).name } = Profile.fromJson P e

instance (P : Platform) (profiles : List Profile) (e : Value) :
    Decidable (EntryLoaded P profiles e) :=
  inferInstanceAs (Decidable (∃ p ∈ profiles, _))

theorem entryLoaded_cons {P : Platform} {p : Profile} {profiles : List Profile} {e : Value} :
    EntryLoaded P (p :: profiles) e ↔
      { p with name := (Profile.fromJson P e).name } = Profile.fromJson P e ∨
        EntryLoaded P profiles e :=
  List.exists_mem_cons_iff _ _ _

namespace LoadSave

variable (P : Platform) (lang : Lang) (L : Labels) (x : LoadSave)

def loaded : ProfileStore := (x.store.load P lang x.dir x.load).1

/-- The folder after the save. -/
def after : Folder :=
  ((x.loaded P lang).save L (x.store.load P lang x.dir x.load).2.1 x.save).2.1

/-- **No silent loss**: every entry of the old list was loaded, or some file has the old bytes. -/
def LosesNothing (R : ListReading) : Prop :=
  ∀ old, x.dir "profiles.json" = some old →
    (∃ es, R.ofText old = some es ∧ ∀ e ∈ es, EntryLoaded P (x.loaded P lang).profiles e) ∨
      ∃ name, x.after P lang L name = some old

/-! ### The condition -/

/-- What `load` has of `profiles.json`. -/
def text : Option Bytes := x.dir.readFile "profiles.json" x.load.profiles

/-- The file is read and does not parse. -/
def corrupt : Prop := ∃ text, x.text = some text ∧ (parse text).ok = false

/-- The new text replaces `profiles.json`. -/
def replaced : Bool := Folder.replaces ((x.loaded P lang).profilesText L) x.save.profiles

/-- What other files of the folder are after the save, by coincidence the old text. -/
inductive Beside (old : Bytes) : Prop where
  /-- A file neither of the two touches. -/
  | other (name : String)
      (hname : name ∉ ["profiles.json", Folder.tmp "profiles.json", "settings.json",
        Folder.tmp "settings.json", "profiles.corrupt.json"])
      (h : x.dir name = some old)
  /-- An earlier backup, or what a copy that failed has left. -/
  | backup (hcorrupt : ¬ x.corrupt) (h : x.dir "profiles.corrupt.json" = some old)
  | leftover (hcorrupt : x.corrupt) (h : x.load.copy = .failed (some old))
  | temporary (h : x.dir.tmpLeft "profiles.json" ((x.loaded P lang).profilesText L)
      x.save.profiles = some old)
  | settings (h : (if Folder.replaces ((x.loaded P lang).settingsText L) x.save.settings then
      some ((x.loaded P lang).settingsText L) else x.dir "settings.json") = some old)
  | settingsTemporary (h : x.dir.tmpLeft "settings.json" ((x.loaded P lang).settingsText L)
      x.save.settings = some old)

/-- **When nothing is lost.** -/
inductive Safe (R : ListReading) (old : Bytes) : Prop where
  /-- The file is read and has its list. -/
  | read (htext : x.text = some old) (hok : (parse old).ok = true)
      (hlist : ((parse old).value.get (bytes "profiles")).isArray = true)
  /-- It is read, does not parse and is copied. -/
  | copied (htext : x.text = some old) (hbad : (parse old).ok = false)
      (hcopy : x.load.copy = .copied)
  /-- It is not replaced, or by the same text. -/
  | kept (h : x.replaced P lang L = false ∨ (x.loaded P lang).profilesText L = old)
  /-- What it lists are the built-in profiles. -/
  | builtIn (es : List Value) (hes : R.ofText old = some es)
      (h : ∀ e ∈ es, EntryLoaded P (ProfileStore.defaults P lang) e)
  | beside (h : x.Beside P lang L old)

/-! ### What was loaded -/

variable {P lang L x} {R : ListReading} {old : Bytes}

/-- The repair of the names loses no entry and brings in none. -/
theorem entryLoaded_repair (profiles : List Profile) (e : Value) :
    EntryLoaded P (repairNames [] profiles) e ↔ EntryLoaded P profiles e := by
  obtain ⟨repaired, heq, hkeeps⟩ := repairNames_keeps [] profiles
  rw [heq, List.nil_append]
  have hrename : ∀ p q : Profile, { q with name := p.name } = p →
      ({ q with name := (Profile.fromJson P e).name } = Profile.fromJson P e ↔
        { p with name := (Profile.fromJson P e).name } = Profile.fromJson P e) := by
    intro p q h
    rw [← h]
  clear heq
  induction hkeeps with
  | nil => rfl
  | cons hone _ ih =>
    rw [entryLoaded_cons, entryLoaded_cons]
    exact or_congr (hrename _ _ hone) ih

theorem loaded_profiles : (x.loaded P lang).profiles =
    repairNames [] (ProfileStore.found P lang x.text) := rfl

/-- A list in its usual place is loaded. -/
theorem entries_loaded (htext : x.text = some old) (hok : (parse old).ok = true)
    (hlist : ((parse old).value.get (bytes "profiles")).isArray = true) :
    ∃ es, R.ofText old = some es ∧ ∀ e ∈ es, EntryLoaded P (x.loaded P lang).profiles e := by
  cases hget : (parse old).value.get (bytes "profiles") with
  | array a =>
    refine ⟨a, ?_, ?_⟩
    · rw [ListReading.ofText, if_pos hok, R.usual _ a hget]
    · intro e he
      rw [loaded_profiles, entryLoaded_repair]
      have hread : (ProfileStore.readProfiles P x.text).1 = a.map (Profile.fromJson P) := by
        simp [htext, ProfileStore.readProfiles, hok, hget, Value.items]
      have hmem : Profile.fromJson P e ∈ ProfileStore.found P lang x.text := by
        have hsome : (a.map (Profile.fromJson P)).isEmpty = false := by
          rw [List.isEmpty_eq_false_iff_exists_mem]
          exact ⟨_, List.mem_map_of_mem he⟩
        rw [ProfileStore.found, hread, if_neg (by rw [hsome]; exact Bool.false_ne_true)]
        exact List.mem_map_of_mem he
      exact ⟨_, hmem, rfl⟩
  | _ => simp [hget, Value.isArray] at hlist

/-- A file that is not read, or in which no list is found, leaves the built-in profiles. -/
theorem found_defaults (hdir : x.dir "profiles.json" = some old)
    (h : ¬ (x.text = some old ∧ (parse old).ok = true ∧
      ((parse old).value.get (bytes "profiles")).isArray = true)) :
    ProfileStore.found P lang x.text = ProfileStore.defaults P lang := by
  have hread : (ProfileStore.readProfiles P x.text).1 = [] := by
    cases htext : x.text with
    | none => rfl
    | some text =>
      have hsame : text = old := by
        have hthere := Folder.eq_of_readFile htext
        rw [hdir] at hthere
        exact (Option.some.inj hthere).symm
      subst hsame
      by_cases hok : (parse text).ok = true
      · cases hget : (parse text).value.get (bytes "profiles") with
        | array a => exact absurd ⟨htext, hok, by rw [hget]; rfl⟩ h
        | _ => simp [ProfileStore.readProfiles, hok, hget, Value.items]
      · simp [ProfileStore.readProfiles, hok]
  rw [ProfileStore.found, hread]
  rfl

/-! ### The files -/

/-- The folder as `load` leaves it: a file that does not parse is copied. -/
theorem load_folder (x : LoadSave) : (x.store.load P lang x.dir x.load).2.1 =
    if (ProfileStore.readProfiles P x.text).2 then x.dir
    else x.dir.copyFile "profiles.json" "profiles.corrupt.json" x.load.copy := by
  show (if (!(ProfileStore.readProfiles P x.text).2) = true then _ else _) = _
  cases (ProfileStore.readProfiles P x.text).2 with
  | true => rfl
  | false => rfl

theorem corrupt_iff (x : LoadSave) :
    x.corrupt ↔ (ProfileStore.readProfiles P x.text).2 = false := by
  unfold corrupt
  cases htext : x.text with
  | none => simp [ProfileStore.readProfiles]
  | some text =>
    cases hok : (parse text).ok with
    | true => simp [ProfileStore.readProfiles, hok]
    | false => simp [ProfileStore.readProfiles, hok]

/-- Beside the backup, `load` leaves every file. -/
theorem load_folder_of_ne {name : String} (h : name ≠ "profiles.corrupt.json") :
    (x.store.load P lang x.dir x.load).2.1 name = x.dir name := by
  rw [load_folder]
  split
  · rfl
  · exact Folder.copyFile_of_ne _ h

/-- The backup after `load`. -/
theorem load_backup (hdir : x.dir "profiles.json" = some old) :
    (x.store.load P lang x.dir x.load).2.1 "profiles.corrupt.json" = some old ↔
      (x.corrupt ∧ (x.load.copy = .copied ∨ x.load.copy = .failed (some old))) ∨
        (¬ x.corrupt ∧ x.dir "profiles.corrupt.json" = some old) := by
  rw [load_folder, corrupt_iff (P := P)]
  cases (ProfileStore.readProfiles P x.text).2 with
  | true => simp
  | false =>
    rw [if_neg Bool.false_ne_true]
    unfold Folder.copyFile
    rw [hdir]
    cases x.load.copy with
    | copied => simp
    | failed left => simp

/-- **The files after the save**: the two files, their temporary ones, and the others. -/
theorem after_apply (name : String) : x.after P lang L name =
    if name = "settings.json" then
      if Folder.replaces ((x.loaded P lang).settingsText L) x.save.settings then
        some ((x.loaded P lang).settingsText L)
      else x.dir "settings.json"
    else if name = Folder.tmp "settings.json" then
      x.dir.tmpLeft "settings.json" ((x.loaded P lang).settingsText L) x.save.settings
    else if name = "profiles.json" then
      if x.replaced P lang L then some ((x.loaded P lang).profilesText L)
      else x.dir "profiles.json"
    else if name = Folder.tmp "profiles.json" then
      x.dir.tmpLeft "profiles.json" ((x.loaded P lang).profilesText L) x.save.profiles
    else (x.store.load P lang x.dir x.load).2.1 name := by
  have hload : ∀ n, n ≠ "profiles.corrupt.json" →
      (x.store.load P lang x.dir x.load).2.1 n = x.dir n := fun n hn => load_folder_of_ne hn
  -- The folder between the two files.
  have hfirst := Folder.writeFileAtomic_apply (x.store.load P lang x.dir x.load).2.1
    "profiles.json" ((x.loaded P lang).profilesText L) x.save.profiles
  have hsettings := hfirst "settings.json"
  have htmp := hfirst (Folder.tmp "settings.json")
  have hother := hfirst name
  rw [if_neg (by decide), if_neg (by decide), hload _ (by decide)] at hsettings htmp
  unfold after ProfileStore.save
  dsimp only
  rw [Folder.writeFileAtomic_apply]
  split
  · rw [hsettings]
  · split
    · unfold Folder.tmpLeft
      rw [htmp]
    · rw [hother]
      split
      · rw [hload _ (by decide)]
        rfl
      · split
        · unfold Folder.tmpLeft
          rw [hload _ (by decide)]
        · rfl

/-! ### The theorem -/

/-- Some file has the old text: `profiles.json` itself, the backup, or another by coincidence. -/
theorem kept_iff (hdir : x.dir "profiles.json" = some old) :
    (∃ name, x.after P lang L name = some old) ↔
      (x.replaced P lang L = false ∨ (x.loaded P lang).profilesText L = old) ∨
        (x.corrupt ∧ x.load.copy = .copied) ∨ x.Beside P lang L old := by
  have hbackup := @load_backup P lang x old hdir
  constructor
  · rintro ⟨name, hname⟩
    rw [after_apply] at hname
    split at hname
    · exact .inr (.inr (.settings hname))
    · split at hname
      · exact .inr (.inr (.settingsTemporary hname))
      · split at hname
        · split at hname
          · exact .inl (.inr (Option.some.inj hname))
          · next hno => exact .inl (.inl (by simpa using hno))
        · split at hname
          · exact .inr (.inr (.temporary hname))
          · next hs hst hp hpt =>
            by_cases hcorrupt : name = "profiles.corrupt.json"
            · rw [hcorrupt, hbackup] at hname
              rcases hname with ⟨hbad, hcopied | hleft⟩ | ⟨hgood, hthere⟩
              · exact .inr (.inl ⟨hbad, hcopied⟩)
              · exact .inr (.inr (.leftover hbad hleft))
              · exact .inr (.inr (.backup hgood hthere))
            · rw [load_folder_of_ne hcorrupt] at hname
              exact .inr (.inr (.other name (by simp [hs, hst, hp, hpt, hcorrupt]) hname))
  · intro h
    -- The backup is none of the files that are written.
    have hbeside : ∀ name, name ∉ ["profiles.json", Folder.tmp "profiles.json", "settings.json",
        Folder.tmp "settings.json"] → x.after P lang L name =
          (x.store.load P lang x.dir x.load).2.1 name := by
      intro name hname
      simp only [List.mem_cons, List.not_mem_nil, or_false, not_or] at hname
      rw [after_apply, if_neg hname.2.2.1, if_neg hname.2.2.2, if_neg hname.1, if_neg hname.2.1]
    have hkept : (x.store.load P lang x.dir x.load).2.1 "profiles.corrupt.json" = some old →
        ∃ name, x.after P lang L name = some old := by
      intro hthere
      exact ⟨_, (hbeside "profiles.corrupt.json" (by decide)).trans hthere⟩
    rcases h with (hno | hsame) | ⟨hbad, hcopied⟩ | hother
    · refine ⟨"profiles.json", ?_⟩
      rw [after_apply, if_neg (by decide), if_neg (by decide), if_pos rfl, if_neg (by simp [hno])]
      exact hdir
    · refine ⟨"profiles.json", ?_⟩
      rw [after_apply, if_neg (by decide), if_neg (by decide), if_pos rfl, hsame, hdir]
      split <;> rfl
    · exact hkept (hbackup.mpr (.inl ⟨hbad, .inl hcopied⟩))
    · cases hother with
      | other name hname h =>
        simp only [List.mem_cons, List.not_mem_nil, or_false, not_or] at hname
        refine ⟨name, ?_⟩
        rw [hbeside name (by simp [hname]), load_folder_of_ne hname.2.2.2.2]
        exact h
      | backup hgood h => exact hkept (hbackup.mpr (.inr ⟨hgood, h⟩))
      | leftover hbad h => exact hkept (hbackup.mpr (.inl ⟨hbad, .inr h⟩))
      | temporary h =>
        refine ⟨Folder.tmp "profiles.json", ?_⟩
        rw [after_apply, if_neg (by decide), if_neg (by decide), if_neg (by decide), if_pos rfl]
        exact h
      | settings h =>
        refine ⟨"settings.json", ?_⟩
        rw [after_apply, if_pos rfl]
        exact h
      | settingsTemporary h =>
        refine ⟨Folder.tmp "settings.json", ?_⟩
        rw [after_apply, if_neg (by decide), if_pos rfl]
        exact h

end LoadSave

/-- **Nothing is lost silently** exactly when a `profiles.json` that is there is read with its list,
    or copied as one that does not parse, or not replaced; or when its profiles or its text are
    there all the same. -/
theorem loses_nothing_iff (P : Platform) (lang : Lang) (L : Labels) (R : ListReading)
    (x : LoadSave) : x.LosesNothing P lang L R ↔
      ∀ old, x.dir "profiles.json" = some old → x.Safe P lang L R old := by
  refine forall_congr' fun old => forall_congr' fun hdir => ?_
  rw [LoadSave.kept_iff hdir]
  constructor
  · rintro (⟨es, hes, hloaded⟩ | hkept | ⟨⟨text, htext, hbad⟩, hcopied⟩ | hbeside)
    · by_cases hread : x.text = some old ∧ (parse old).ok = true ∧
          ((parse old).value.get (bytes "profiles")).isArray = true
      · exact .read hread.1 hread.2.1 hread.2.2
      · -- The profiles are the built-in ones.
        refine .builtIn es hes fun e he => ?_
        rw [← LoadSave.found_defaults hdir hread, ← LoadSave.entryLoaded_repair]
        exact hloaded e he
    · exact .kept hkept
    · have hthere := Folder.eq_of_readFile htext
      obtain rfl : text = old := Option.some.inj (hthere.symm.trans hdir)
      exact .copied htext hbad hcopied
    · exact .beside hbeside
  · intro hsafe
    cases hsafe with
    | read htext hok hlist => exact .inl (LoadSave.entries_loaded htext hok hlist)
    | copied htext hbad hcopy => exact .inr (.inr (.inl ⟨⟨old, htext, hbad⟩, hcopy⟩))
    | kept h => exact .inr (.inl h)
    | builtIn es hes h =>
      by_cases hread : x.text = some old ∧ (parse old).ok = true ∧
          ((parse old).value.get (bytes "profiles")).isArray = true
      · exact .inl (LoadSave.entries_loaded hread.1 hread.2.1 hread.2.2)
      · refine .inl ⟨es, hes, fun e he => ?_⟩
        rw [LoadSave.loaded_profiles, LoadSave.entryLoaded_repair,
          LoadSave.found_defaults hdir hread]
        exact h e he
    | beside h => exact .inr (.inr (.inr h))

/-- The old text: one profile. -/
def oneProfile : Bytes := bytes "\x7b\"profiles\": [\x7b\"name\": \"Mine\"\x7d]\x7d"

/-- A `profiles.json` that another process keeps locked while it is loaded. -/
def lockedProfiles : LoadSave where
  store := { settings := .initial .tenMegahertz }
  dir name := if name = "profiles.json" then some oneProfile else none
  load := { profiles := { opened := false } }

/-- A layout under which no key has a name. -/
def noLabels : Labels := ⟨bytes "(none)", fun _ => []⟩

/-- The texts a save of the built-in profiles writes are not the old one. -/
theorem lockedProfiles_texts :
    (lockedProfiles.loaded .tenMegahertz .en).profilesText noLabels ≠ oneProfile ∧
      (lockedProfiles.loaded .tenMegahertz .en).settingsText noLabels ≠ oneProfile :=
  ⟨by decide +kernel, by decide +kernel⟩

/-- The built-in profiles take the place of the one that could not be read. -/
theorem lockedProfiles_lost : ¬ ∀ x : LoadSave,
    x.LosesNothing .tenMegahertz .en noLabels .asLoad := by
  intro hall
  have hdir : lockedProfiles.dir "profiles.json" = some oneProfile := rfl
  have hlost := hall lockedProfiles oneProfile hdir
  rw [LoadSave.kept_iff hdir] at hlost
  obtain ⟨hprofiles, hsettings⟩ := lockedProfiles_texts
  have hunread : ¬ lockedProfiles.corrupt := by
    rintro ⟨text, htext, -⟩
    exact absurd htext (by simp [LoadSave.text, lockedProfiles, Folder.readFile])
  rcases hlost with ⟨es, hes, hloaded⟩ | (hkept | hsame) | ⟨hcorrupt, -⟩ | hbeside
  · have hok : (parse oneProfile).ok = true := by decide +kernel
    rw [ListReading.ofText, if_pos hok, Option.some.injEq] at hes
    rw [← hes] at hloaded
    exact absurd hloaded (by decide +kernel)
  · exact absurd hkept (by decide +kernel)
  · exact hprofiles hsame
  · exact hunread hcorrupt
  · -- No other file is there, and the temporary ones are gone.
    cases hbeside with
    | other name hname h =>
      have hnone : lockedProfiles.dir name = none := if_neg fun heq => hname (by simp [heq])
      exact absurd (hnone.symm.trans h) (by simp)
    | backup _ h => exact absurd h (by decide)
    | leftover hcorrupt _ => exact hunread hcorrupt
    | temporary h =>
      rw [Folder.tmpLeft_of_deleted rfl rfl] at h
      exact absurd h (by simp)
    | settings h =>
      split at h
      · exact hsettings (Option.some.inj h)
      · exact absurd h (by decide)
    | settingsTemporary h =>
      rw [Folder.tmpLeft_of_deleted rfl rfl] at h
      exact absurd h (by simp)

end InfinityClicker
