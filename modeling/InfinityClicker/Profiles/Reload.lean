import InfinityClicker.Core.JsonStored
import InfinityClicker.Profiles.SaveSteps
import InfinityClicker.Profiles.LoadSave
import InfinityClicker.Profiles.StoreInvariant

namespace InfinityClicker

open Json Machines Folder

/-!
# A store is loaded as it was saved

`ProfileStore::save` writes the profiles and the settings as two texts, and `load` reads them back,
repairs names and picks an active profile.

* `ProfileStore.reloaded` — the store with what its files keep of it: rates to ten digits, and the
  scan codes of keys alone;
* `Profile.readsAs`, `AppSettings.readsAs` — what becomes of their trees;
* `repairNames_id` — names that are in order are left alone;
* `ProfileStore.Storable` — what a store is after any load and any of the manager's operations;
* `ProfileStore.Storable.load_files` — the files of such a store are loaded as the store;
* `store_reloads` — over every load, every run of operations and every folder.
-/

/-! ### What the files keep -/

/-- A chord as it is read back: scan code and extended flag are stored for keys alone. -/
def KeyChord.reloaded (c : KeyChord) : KeyChord :=
  if c.device = .keyboard then c else { c with scan := 0, extended := false }

/-- An action as the next start of the program reads it. -/
def InputAction.reloaded (a : InputAction) : InputAction := { a with chord := a.chord.reloaded }

/-- A profile as it is read back: its rate has ten digits. -/
def Profile.reloaded (p : Profile) : Profile :=
  { p with
    trigger := p.trigger.reloaded
    action := p.action.reloaded
    cps := readBack p.cps }

/-- The settings as the next start of the program reads them. -/
def AppSettings.reloaded (s : AppSettings) : AppSettings :=
  { s with emergency := s.emergency.reloaded }

/-- A whole store as the next start of the program reads it. -/
def ProfileStore.reloaded (s : ProfileStore) : ProfileStore :=
  { s with profiles := s.profiles.map Profile.reloaded, settings := s.settings.reloaded }

/-! ### Rates -/

/-- The slowest and the fastest rate are read back as they are, and the others stay between. -/
theorem readBack_cps {a : ℚ} (hlow : minCps ≤ a) (hhigh : a ≤ 1000000) :
    minCps ≤ readBack a ∧ readBack a ≤ 1000000 := by
  have hmin : (1 : ℚ) / 100 ≤ a := le_trans minCps_bounds.1 hlow
  have ha : 0 < a := by linarith
  have hbounds : 1 / 100 ≤ printed a ∧ printed a ≤ 1000000 := by
    rw [printed_pos ha]
    split
    · exact ⟨hmin, hhigh⟩
    · have hge := DecimalRounding.le_value (N := 9) (b := 10 ^ 10) (x := -3) ha (by norm_num)
        (.inl (by norm_num; linarith)) (by norm_num)
      have hle := DecimalRounding.value_le (N := 9) (b := 10 ^ 9) (x := 6) ha (by norm_num)
        (.inl (by norm_num; linarith)) (by norm_num)
      norm_num at hge hle ⊢
      exact ⟨hge, hle⟩
  have htop : Binary64.nearest 1000000 = 1000000 := by
    have h := Binary64.nearest_intCast (z := 1000000) (by norm_num)
    exact_mod_cast h
  constructor
  · exact Binary64.nearest_mono hbounds.1
  · rw [← htop]
    exact Binary64.nearest_mono hbounds.2

/-- A rate on the grid of `double`s and in range comes back from its text. -/
theorem steady_cps {a : ℚ} (hgrid : Binary64.OnGrid a) (hlow : minCps ≤ a) (hhigh : a ≤ 1000000) :
    Steady a := by
  have hmin := minCps_bounds.1
  have hback := (readBack_cps hlow hhigh).1
  exact steady_of_onGrid hgrid (by linarith) (by norm_num; linarith) (by linarith)

/-! ### Trees -/

/-- The text of a chord reads back as the same tree. -/
theorem KeyChord.readsAs (L : Labels) (c : KeyChord) (d : ℕ) :
    ReadsAs (d + 1) (c.toJson L) (c.toJson L) := by
  have hcode := c.code.isLt
  have hscan := c.scan.isLt
  have hmods := c.mods.isLt
  have hkind := ReadsAs.empty.set (.string (d := d) (bytes (deviceKey c.device))) (bytes "device")
  have hhead := hkind.set (.ofInt (by rw [abs_lt]; omega : |(c.code.toNat : ℤ)| < 2 ^ 53))
    (bytes "code")
  have hkey := (hhead.set (.ofInt (by rw [abs_lt]; omega : |(c.scan.toNat : ℤ)| < 2 ^ 53))
    (bytes "scan")).set (.bool c.extended) (bytes "extended")
  unfold KeyChord.toJson
  dsimp only
  split
  · exact (hkey.set (.ofInt (by rw [abs_lt]; omega)) _).set (.string _) _
  · exact (hhead.set (.ofInt (by rw [abs_lt]; omega)) _).set (.string _) _

/-- The text of an admitted action reads back as the same tree. -/
theorem InputAction.readsAs (L : Labels) {a : InputAction} (ha : a.Admitted) (d : ℕ) :
    ReadsAs (d + 2) (a.toJson L) (a.toJson L) := by
  obtain ⟨-, hdown, hrepeat, hgap, hwheel⟩ := ha
  refine ReadsAs.set ?_ (.string _) _
  refine ReadsAs.set ?_ (.ofInt (by rw [abs_lt]; omega)) _
  refine ReadsAs.set ?_ (.ofInt (by rw [abs_lt]; omega)) _
  refine ReadsAs.set ?_ (.ofInt (by rw [abs_lt]; omega)) _
  refine ReadsAs.set ?_ (.ofInt (by rw [abs_lt]; omega)) _
  exact ReadsAs.empty.set (a.chord.readsAs L d) _

namespace Profile

/-- A profile's tree is read back as that of the profile with its rate read back. -/
theorem readsAs (L : Labels) {p : Profile} (hp : p.Admitted) (hcps : Steady p.cps) (d : ℕ) :
    ReadsAs (d + 3) (p.toJson L) ({ p with cps := readBack p.cps }.toJson L) := by
  have htrigger : ReadsAs (d + 2) (p.triggerJson L) (p.triggerJson L) :=
    ((ReadsAs.empty.set (p.trigger.readsAs L d) _).set (.bool _) _).set (.string _) _
  have hmode : ReadsAs (d + 2) p.modeJson p.modeJson := by
    have hburst := hp.burstCount
    have hfixed := hp.fixedCount
    have hms := hp.durationMs
    refine ReadsAs.set ?_ (.ofInt (by rw [abs_lt]; omega)) _
    refine ReadsAs.set ?_ (.ofInt (by rw [abs_lt]; omega)) _
    refine ReadsAs.set ?_ (.ofInt (by rw [abs_lt]; omega)) _
    exact ReadsAs.empty.set (.string _) _
  have hspeed : ReadsAs (d + 2) p.speedJson { p with cps := readBack p.cps }.speedJson := by
    have hbatch := hp.maxBatch
    have hinflight := hp.maxInflight
    refine ReadsAs.set ?_ (.ofInt (by rw [abs_lt]; omega)) _
    refine ReadsAs.set ?_ (.bool _) _
    refine ReadsAs.set ?_ (.ofInt (by rw [abs_lt]; omega)) _
    refine ReadsAs.set ?_ (.bool _) _
    exact (ReadsAs.empty.set (.string _) _).set (.number hcps) _
  have htiming : ReadsAs (d + 2) p.timingJson p.timingJson :=
    ((ReadsAs.empty.set (.string _) _).set (.string _) _).set (.string _) _
  have htarget : ReadsAs (d + 2) p.targetAppJson p.targetAppJson :=
    (ReadsAs.empty.set (.bool _) _).set (.string _) _
  refine ReadsAs.set ?_ htarget _
  refine ReadsAs.set ?_ htiming _
  refine ReadsAs.set ?_ hspeed _
  refine ReadsAs.set ?_ hmode _
  refine ReadsAs.set ?_ (InputAction.readsAs L hp.action d) _
  exact (ReadsAs.empty.set (.string _) _).set htrigger _

end Profile

/-- The text of the settings reads back as the same tree. -/
theorem AppSettings.readsAs (L : Labels) (s : AppSettings) (d : ℕ) :
    ReadsAs (d + 2) (s.toJson L) (s.toJson L) := by
  have hint : ∀ {d : ℕ} (x : BitVec 32), ReadsAs d (.ofInt x.toInt) (.ofInt x.toInt) :=
    fun x => .ofInt (abs_toInt_lt x)
  have hwindow : ReadsAs (d + 1) s.windowJson s.windowJson :=
    (((ReadsAs.empty.set (hint _) _).set (hint _) _).set (hint _) _).set (hint _) _
  refine ReadsAs.set ?_ hwindow _
  refine ReadsAs.set ?_ (hint _) _
  refine ReadsAs.set ?_ (.string _) _
  refine ReadsAs.set ?_ (.bool _) _
  refine ReadsAs.set ?_ (.bool _) _
  refine ReadsAs.set ?_ (.bool _) _
  refine ReadsAs.set ?_ (.bool _) _
  refine ReadsAs.set ?_ (.bool _) _
  refine ReadsAs.set ?_ (.bool _) _
  refine ReadsAs.set ?_ (.bool _) _
  refine ReadsAs.set ?_ (.bool _) _
  refine ReadsAs.set ?_ (.bool _) _
  refine ReadsAs.set ?_ (.bool _) _
  exact (ReadsAs.empty.set (.string _) _).set (s.emergency.readsAs L d) _

/-! ### What profiles and settings are read back as -/

/-- What is read back of an admitted chord is admitted. -/
theorem KeyChord.reloaded_admitted {c : KeyChord} (hc : c.Admitted) : c.reloaded.Admitted := by
  unfold KeyChord.reloaded
  split
  · exact hc
  · exact ⟨hc.mods, hc.mouse, hc.keyboard⟩

/-- A second reload changes nothing on a chord. -/
theorem KeyChord.reloaded_reloaded (c : KeyChord) : c.reloaded.reloaded = c.reloaded := by
  unfold KeyChord.reloaded
  split <;> rfl

/-- A profile in the ranges of its loader, its rate a double. -/
structure Profile.Storable (p : Profile) : Prop where
  admitted : p.Admitted
  grid : Binary64.OnGrid p.cps

namespace Profile.Storable

variable {p : Profile}

/-- The rate of a storable profile comes back from its text. -/
theorem steady (h : p.Storable) : Steady p.cps :=
  steady_cps h.grid h.admitted.cps.1 h.admitted.cps.2

/-- Only the name has no range. -/
theorem of_name {q : Profile} (h : p.Storable) (hsame : { q with name := p.name } = p) :
    q.Storable := by
  rw [← hsame] at h
  obtain ⟨⟨htrigger, haction, hburst, hfixed, hms, hcps, hbatch, hinflight⟩, hgrid⟩ := h
  exact ⟨⟨htrigger, haction, hburst, hfixed, hms, hcps, hbatch, hinflight⟩, hgrid⟩

/-- Reading back the rate keeps a storable profile admitted. -/
theorem rate (h : p.Storable) : ({ p with cps := readBack p.cps } : Profile).Admitted := by
  have hcps := readBack_cps h.admitted.cps.1 h.admitted.cps.2
  obtain ⟨htrigger, haction, hburst, hfixed, hms, -, hbatch, hinflight⟩ := h.admitted
  exact ⟨htrigger, haction, hburst, hfixed, hms, hcps, hbatch, hinflight⟩

/-- What is read back of a storable profile is storable. -/
theorem reloaded (h : p.Storable) : p.reloaded.Storable := by
  obtain ⟨htrigger, haction, hburst, hfixed, hms, hcps, hbatch, hinflight⟩ := h.rate
  obtain ⟨hchord, hdown, hrepeat, hgap, hwheel⟩ := haction
  exact ⟨⟨KeyChord.reloaded_admitted htrigger,
    ⟨KeyChord.reloaded_admitted hchord, hdown, hrepeat, hgap, hwheel⟩, hburst, hfixed, hms, hcps,
    hbatch, hinflight⟩, Binary64.onGrid_nearest _⟩

/-- A second reload changes nothing on a storable profile. -/
theorem reloaded_reloaded (h : p.Storable) : p.reloaded.reloaded = p.reloaded := by
  unfold Profile.reloaded InputAction.reloaded
  simp only [KeyChord.reloaded_reloaded, h.steady.readBack_readBack]

/-- The loader reads a storable profile's own tree back as its reload. -/
theorem fromJson_toJson (h : p.Storable) (P : Platform) (L : Labels) :
    Profile.fromJson P ({ p with cps := readBack p.cps }.toJson L) = p.reloaded := by
  rw [Profile.fromJson_toJson P L h.rate, InputAction.fromJson_toJson L h.admitted.action,
    KeyChord.fromJson_toJson L h.admitted.trigger,
    KeyChord.fromJson_toJson L h.admitted.action.chord]
  rfl

end Profile.Storable

namespace AppSettings

variable {s : AppSettings}

/-- What is read back of admitted settings is admitted. -/
theorem reloaded_admitted (hs : s.Admitted) : s.reloaded.Admitted := by
  obtain ⟨hemergency, hvalid, hlanguage, hlayout, hw, hh⟩ := hs
  refine ⟨KeyChord.reloaded_admitted hemergency, ?_, hlanguage, hlayout, hw, hh⟩
  have hdevice : s.emergency.reloaded.device = s.emergency.device := by
    unfold KeyChord.reloaded
    split <;> rfl
  rw [reloaded, KeyChord.valid, hdevice]
  exact hvalid

/-- A second reload changes nothing on the settings. -/
theorem reloaded_reloaded : s.reloaded.reloaded = s.reloaded := by
  unfold reloaded
  rw [KeyChord.reloaded_reloaded]

/-- The loader reads the tree of admitted settings back as their reload. -/
theorem fromJson_toJson_reloaded (hs : s.Admitted) (P : Platform) (L : Labels) :
    fromJson P (s.toJson L) = s.reloaded := by
  rw [fromJson_toJson P L hs, KeyChord.fromJson_toJson L hs.emergency]
  rfl

/-- The name of the active profile has no range. -/
theorem Admitted.activate (hs : s.Admitted) (name : Bytes) :
    ({ s with activeProfile := name } : AppSettings).Admitted := by
  obtain ⟨hemergency, hvalid, hlanguage, hlayout, hw, hh⟩ := hs
  exact ⟨hemergency, hvalid, hlanguage, hlayout, hw, hh⟩

end AppSettings

/-! ### Names that are in order -/

/-- A profile with a name of its own passes the repair unchanged. -/
theorem repairOne_id {done : List Profile} {p : Profile} (hname : p.name ∉ names done)
    (hblank : trim p.name ≠ []) (rest : List Profile) : repairOne done p rest = p := by
  have hfold : ∀ ahead : List Profile, p.name ∉ names ahead →
      ahead.foldl (repairAgainst done rest) p = p := by
    intro ahead hnot
    induction ahead with
    | nil => rfl
    | cons d ahead ih =>
      rw [names, List.map_cons, List.mem_cons, not_or] at hnot
      rw [List.foldl_cons, repairAgainst, if_neg (Ne.symm hnot.1)]
      exact ih hnot.2
  rw [repairOne, if_neg hblank]
  exact hfold done hname

/-- Names that differ and are not blank are left alone. -/
theorem repairNames_id {done rest : List Profile} (hnodup : (names (done ++ rest)).Nodup)
    (hnamed : ∀ n ∈ names rest, trim n ≠ []) : repairNames done rest = done ++ rest := by
  induction rest generalizing done with
  | nil => rw [repairNames, List.append_nil]
  | cons p rest ih =>
    have hname : p.name ∉ names done := by
      intro hmem
      rw [names, List.map_append, List.nodup_append] at hnodup
      exact hnodup.2.2 p.name hmem p.name (by simp) rfl
    rw [repairNames, repairOne_id hname (hnamed p.name (by simp [names])), ih]
    · rw [List.append_assoc]
      rfl
    · rwa [List.append_assoc]
    · intro n hn
      exact hnamed n (List.mem_cons_of_mem _ hn)

/-! ### Stores -/

namespace ProfileStore

variable {P : Platform} {lang : Lang} {L : Labels} {s : ProfileStore}

/-- What a store is after any load: sound, and everything in it in the ranges of its loader. -/
structure Storable (s : ProfileStore) : Prop where
  sound : s.Sound
  profiles : ∀ p ∈ s.profiles, p.Storable
  settings : s.settings.Admitted

namespace Storable

/-- A reload keeps every name. -/
theorem names_reloaded (s : ProfileStore) : names s.reloaded.profiles = names s.profiles := by
  rw [names, reloaded, List.map_map]
  rfl

/-- What is read back of a storable store is storable. -/
theorem reloaded (h : s.Storable) : s.reloaded.Storable := by
  refine ⟨?_, ?_, AppSettings.reloaded_admitted h.settings⟩
  · have hnames := names_reloaded s
    apply sound_of_mem
    · rw [hnames]
      exact h.sound.nodup
    · rw [hnames]
      exact h.sound.named
    · rw [hnames]
      exact h.sound.mem
  · intro p hp
    obtain ⟨q, hq, rfl⟩ := List.mem_map.mp hp
    exact (h.profiles q hq).reloaded

/-- **What was loaded once** is loaded again as it is. -/
theorem reloaded_reloaded (h : s.Storable) : s.reloaded.reloaded = s.reloaded := by
  have hprofiles : (s.profiles.map Profile.reloaded).map Profile.reloaded =
      s.profiles.map Profile.reloaded := by
    rw [List.map_map]
    exact List.map_congr_left fun p hp => (h.profiles p hp).reloaded_reloaded
  simp only [ProfileStore.reloaded, hprofiles, AppSettings.reloaded_reloaded]

/-- The profiles are read back in their order. -/
theorem readProfiles_profilesText (h : s.Storable) :
    readProfiles P (some (s.profilesText L)) = (s.profiles.map Profile.reloaded, true) := by
  have harray : ReadsAs 63 (.array (s.profiles.map (Profile.toJson L)))
      (.array (s.profiles.map fun p => { p with cps := readBack p.cps }.toJson L)) :=
    .array fun p hp => Profile.readsAs L (h.profiles p hp).admitted (h.profiles p hp).steady 59
  have hroot := ((ReadsAs.empty.set (.string (bytes "infclick-profiles")) (bytes "format")).set
    (.ofInt (by norm_num : |(1 : ℤ)| < 2 ^ 53)) (bytes "version")).set harray (bytes "profiles")
  obtain ⟨hok, hvalue⟩ := hroot.parse true
  have hitems : ∀ a : List Value, ((((((Value.object []).set (bytes "format")
      (.string (bytes "infclick-profiles"))).set (bytes "version") (.ofInt 1)).set
      (bytes "profiles") (.array a)).get (bytes "profiles")).items) = a := fun _ => rfl
  have hread : ∀ p ∈ s.profiles,
      Profile.fromJson P ({ p with cps := readBack p.cps }.toJson L) = p.reloaded :=
    fun p hp => (h.profiles p hp).fromJson_toJson P L
  unfold readProfiles profilesText
  dsimp only
  rw [hok, if_pos rfl, hvalue, hitems, List.map_map]
  exact congrArg (·, true) (List.map_congr_left hread)

/-- The settings file reads back as the reloaded settings, without a complaint. -/
theorem readSettings_settingsText (h : s.Storable) (old : AppSettings) :
    readSettings P old (some (s.settingsText L)) = (s.settings.reloaded, true) := by
  obtain ⟨hok, hvalue⟩ := (s.settings.readsAs L 62).parse true
  unfold readSettings settingsText
  dsimp only
  rw [hok, if_pos rfl, hvalue, AppSettings.fromJson_toJson_reloaded h.settings]

/-- What `load` makes of the two texts. -/
theorem loaded_texts (h : s.Storable) (t : ProfileStore) :
    t.loaded P lang (some (s.settingsText L)) (some (s.profilesText L)) =
      { s.reloaded with lastError := t.lastError } := by
  have hfound : found P lang (some (s.profilesText L)) = s.profiles.map Profile.reloaded := by
    rw [found, h.readProfiles_profilesText]
    exact if_neg (by simpa using h.sound.nonempty)
  have hsound := h.reloaded.sound
  have hrepair : repairNames [] (s.profiles.map Profile.reloaded) =
      s.profiles.map Profile.reloaded := repairNames_id hsound.nodup hsound.named
  have hactive : keepActive s.settings.reloaded (s.profiles.map Profile.reloaded) =
      s.settings.reloaded := if_pos ((any_name_iff _ _).mpr hsound.mem)
  unfold loaded
  rw [hfound, hrepair, h.readSettings_settingsText]
  dsimp only
  rw [hactive]
  rfl

end Storable

/-! ### The two files -/

/-- A save that succeeds leaves both texts in the folder. -/
theorem save_folder {dir : Folder} {o : SaveObs} (hsaved : (s.save L dir o).2.2 = true) :
    (s.save L dir o).2.1 "profiles.json" = some (s.profilesText L) ∧
      (s.save L dir o).2.1 "settings.json" = some (s.settingsText L) := by
  have hboth : ((dir.writeFileAtomic "profiles.json" (s.profilesText L) o.profiles).2 &&
      ((dir.writeFileAtomic "profiles.json" (s.profilesText L) o.profiles).1.writeFileAtomic
        "settings.json" (s.settingsText L) o.settings).2) = true := hsaved
  rw [Bool.and_eq_true, writeFileAtomic_ok, writeFileAtomic_ok] at hboth
  constructor
  · show (writeFileAtomic _ "settings.json" (s.settingsText L) o.settings).1 "profiles.json" = _
    rw [writeFileAtomic_apply, if_neg (by decide), if_neg (by decide), writeFileAtomic_apply,
      if_pos rfl, if_pos hboth.1]
  · show (writeFileAtomic _ "settings.json" (s.settingsText L) o.settings).1 "settings.json" = _
    rw [writeFileAtomic_apply, if_pos rfl, if_pos hboth.2]

/-- Both texts are small enough to be read. -/
def Readable (L : Labels) (s : ProfileStore) : Prop :=
  (s.profilesText L).length ≤ kMaxReadSize ∧ (s.settingsText L).length ≤ kMaxReadSize

instance (L : Labels) (s : ProfileStore) : Decidable (s.Readable L) :=
  inferInstanceAs (Decidable (_ ∧ _))

/-- A file below the loader's limit is read in full. -/
theorem readFile_of_small {dir : Folder} {name : String} {text : Bytes}
    (hthere : dir name = some text) (hsmall : text.length ≤ kMaxReadSize) :
    dir.readFile name {} = some text := by
  simp [readFile, hthere, not_lt.mpr hsmall]

/-- **The files of a store** are loaded as the store, whatever is in memory by then. -/
theorem Storable.load_files (h : s.Storable) {dir : Folder}
    (hprofiles : dir "profiles.json" = some (s.profilesText L))
    (hsettings : dir "settings.json" = some (s.settingsText L)) (hsmall : s.Readable L)
    (t : ProfileStore) (copy : CopyObs) :
    t.load P lang dir { copy := copy } =
      ({ s.reloaded with lastError := t.lastError }, dir, true) := by
  unfold load
  dsimp only
  rw [readFile_of_small hprofiles hsmall.1, readFile_of_small hsettings hsmall.2,
    h.readProfiles_profilesText, h.readSettings_settingsText, h.loaded_texts]
  rfl

/-! ### Every store is storable -/

section Storable

open Value

/-- A member of a tree of doubles. -/
theorem allNumbers_get {p : ℚ → Prop} {v : Value} (h : v.AllNumbers p) (k : Bytes) :
    (v.get k).AllNumbers p := by
  cases hfind : v.find k with
  | none =>
    rw [Value.get, hfind]
    exact .null
  | some w =>
    rw [Value.get, hfind]
    cases v with
    | object o =>
      obtain ⟨before, later, heq, -⟩ := List.lookup_eq_some_iff.mp hfind
      have hmem : (k, w) ∈ (Value.object o).members := by
        rw [heq]
        simp
      exact allNumbers_object.mp h _ hmem
    | _ => simp [find, members] at hfind

/-- A number taken from a tree on the grid is on the grid. -/
theorem onGrid_getNumber {v : Value} (h : v.AllNumbers Binary64.OnGrid) (k : Bytes) {dflt : ℚ}
    (hdflt : Binary64.OnGrid dflt) : Binary64.OnGrid (v.getNumber k dflt) := by
  have hmember := allNumbers_get h k
  unfold getNumber
  unfold Value.get at hmember
  cases hfind : v.find k with
  | none => exact hdflt
  | some w =>
    rw [hfind] at hmember
    cases w with
    | number n => exact allNumbers_number.mp hmember
    | _ => exact hdflt

/-- Integers below 2^53 are on the grid. -/
theorem onGrid_intCast {z : ℤ} (hz : |z| < 2 ^ 53) : Binary64.OnGrid (z : ℚ) :=
  (Binary64.representable_intCast hz).onGrid

/-- A profile that is read from a text. -/
theorem fromJson_storable (P : Platform) {v : Value} (h : v.AllNumbers Binary64.OnGrid) :
    (Profile.fromJson P v).Storable := by
  refine ⟨Profile.fromJson_admitted P v, ?_⟩
  have hdflt : Binary64.OnGrid (20 : ℚ) := by
    exact_mod_cast onGrid_intCast (z := 20) (by norm_num)
  have htop : Binary64.OnGrid (1000000 : ℚ) := by
    exact_mod_cast onGrid_intCast (z := 1000000) (by norm_num)
  have hnumber := onGrid_getNumber (allNumbers_get h (bytes "speed")) (bytes "cps") hdflt
  show Binary64.OnGrid (clamp _ minCps 1000000)
  unfold clamp
  split
  · exact Binary64.onGrid_nearest _
  · split
    · exact htop
    · exact hnumber

/-- A profile of the source: its rate is a whole number. -/
theorem storable_of_whole {p : Profile} (z : ℤ) (hcps : p.cps = z) (hz : 1 ≤ z ∧ z ≤ 1000000)
    (htrigger : p.trigger.Admitted) (haction : p.action.Admitted)
    (hcounts : p.mode.burstCount ∈ [10, 100] ∧ p.mode.fixedCount = 100 ∧ p.mode.durationMs = 1000)
    (hmax : p.maxBatch = 8 ∧ p.maxInflight = 2000) : p.Storable := by
  obtain ⟨hburst, hfixed, hms⟩ := hcounts
  refine ⟨⟨htrigger, haction, ?_, ?_, ?_, ?_, ?_, ?_⟩, ?_⟩
  · rcases List.mem_cons.mp hburst with hten | hmore
    · rw [hten]
      decide
    · rw [List.mem_singleton.mp hmore]
      decide
  · rw [hfixed]
    decide
  · rw [hms]
    decide
  · have hmin : minCps ≤ 1 := by
      rw [minCps_eq]
      norm_num
    have hlow : (1 : ℚ) ≤ z := by exact_mod_cast hz.1
    have hhigh : (z : ℚ) ≤ 1000000 := by exact_mod_cast hz.2
    rw [hcps]
    exact ⟨by linarith, hhigh⟩
  · rw [hmax.1]
    decide
  · rw [hmax.2]
    decide
  · rw [hcps]
    exact onGrid_intCast (by rw [abs_lt]; omega)

/-- A new profile can be stored. -/
theorem initial_storable (P : Platform) : (Profile.initial P).Storable :=
  storable_of_whole 20 (by norm_num [Profile.initial]) (by decide)
    (KeyChord.key_admitted P (by decide) (by decide)) InputAction.default_admitted
    ⟨by simp [Profile.initial], rfl, rfl⟩ ⟨rfl, rfl⟩

/-- The profiles of a first start can be stored. -/
theorem defaults_storable (P : Platform) (lang : Lang) : ∀ p ∈ defaults P lang, p.Storable := by
  have haction : ∀ {c : KeyChord} {us : ℕ}, c.Admitted → us ≤ 10000000 →
      ({ chord := c, downTimeUs := us } : InputAction).Admitted := by
    intro c us hc hus
    obtain ⟨-, -, hrepeat, hgap, hwheel⟩ := InputAction.default_admitted
    exact ⟨hc, hus, hrepeat, hgap, hwheel⟩
  have hdown : ∀ {us : ℕ}, us ≤ 10000000 → ({ downTimeUs := us } : InputAction).Admitted :=
    haction (KeyChord.mouse_admitted .left)
  unfold defaults
  dsimp only
  simp only [List.forall_mem_cons, List.not_mem_nil, false_implies, implies_true, and_true]
  refine ⟨?_, ?_, ?_, ?_, ?_, ?_⟩
  · exact storable_of_whole 20 (by norm_num) (by decide) (KeyChord.mouse_admitted .x2)
      (hdown (by decide)) ⟨by simp, rfl, rfl⟩ ⟨rfl, rfl⟩
  · exact storable_of_whole 16 (by norm_num) (by decide) (KeyChord.mouse_admitted .x1)
      (hdown (by decide)) ⟨by simp, rfl, rfl⟩ ⟨rfl, rfl⟩
  · exact storable_of_whole 10 (by norm_num) (by decide)
      (KeyChord.key_admitted P (by decide) (by decide)) (hdown (by decide))
      ⟨by simp, rfl, rfl⟩ ⟨rfl, rfl⟩
  · exact storable_of_whole 100 (by norm_num) (by decide)
      (KeyChord.key_admitted P (by decide) (by decide)) (hdown (by decide))
      ⟨by simp, rfl, rfl⟩ ⟨rfl, rfl⟩
  · exact storable_of_whole 1000 (by norm_num) (by decide)
      (KeyChord.key_admitted P (by decide) (by decide)) (hdown (by decide))
      ⟨by simp, rfl, rfl⟩ ⟨rfl, rfl⟩
  · exact storable_of_whole 25 (by norm_num) (by decide)
      (KeyChord.key_admitted P (by decide) (by decide))
      (haction (KeyChord.key_admitted P (by decide) (by decide)) (by decide))
      ⟨by simp, rfl, rfl⟩ ⟨rfl, rfl⟩

/-- What is found in a folder before the names are repaired. -/
theorem found_storable (P : Platform) (lang : Lang) (text : Option Bytes) :
    ∀ p ∈ found P lang text, p.Storable := by
  have hread : ∀ p ∈ (readProfiles P text).1, p.Storable := by
    unfold readProfiles
    split
    · simp
    · next text =>
      dsimp only
      split
      · intro p hp
        obtain ⟨v, hv, rfl⟩ := List.mem_map.mp hp
        have hlist := allNumbers_get (parse_onGrid text) (bytes "profiles")
        refine fromJson_storable P ?_
        cases hprofiles : (parse text).value.get (bytes "profiles") with
        | array a =>
          rw [hprofiles] at hlist hv
          exact allNumbers_array.mp hlist v hv
        | _ => simp [hprofiles, items] at hv
      · simp
  unfold found
  dsimp only
  split
  · exact defaults_storable P lang
  · exact hread

/-- The repair changes names alone. -/
theorem repairNames_storable {profiles : List Profile} (h : ∀ p ∈ profiles, p.Storable) :
    ∀ p ∈ repairNames [] profiles, p.Storable := by
  obtain ⟨rest, heq, hkeeps⟩ := repairNames_keeps [] profiles
  rw [heq, List.nil_append]
  clear heq
  induction hkeeps with
  | nil => simp
  | cons hsame _ ih =>
    rw [List.forall_mem_cons] at h ⊢
    exact ⟨h.1.of_name hsame, ih h.2⟩

/-- **A load** leaves a storable store, whatever the folder holds. -/
theorem load_storable {t : ProfileStore} (ht : t.settings.Admitted) (dir : Folder) (o : LoadObs)
    (hmax : (t.load P lang dir o).1.profiles.length ≤ 9998) :
    (t.load P lang dir o).1.Storable := by
  refine ⟨?_, repairNames_storable (found_storable P lang _), ?_⟩
  · apply loaded_sound
    rw [← repairNames_length]
    exact hmax
  · have hsettings :
        (readSettings P t.settings (dir.readFile "settings.json" o.settings)).1.Admitted := by
      unfold readSettings
      split
      · exact ht
      · dsimp only
        split
        · exact AppSettings.fromJson_admitted P _
        · exact ht
    show (keepActive _ _).Admitted
    unfold keepActive
    split
    · exact hsettings
    · exact hsettings.activate _

/-- The operations of the profile manager, on profiles that are there or new ones. -/
theorem apply_profiles (h : ∀ p ∈ s.profiles, p.Storable) (op : StoreOp) :
    ∀ p ∈ (s.apply P op).profiles, p.Storable := by
  -- A profile that is there is storable under any name the manager gives it.
  have hat : ∀ {i : ℕ} {p : Profile}, s.profiles[i]? = some p → p.Storable :=
    fun hp => h _ (List.mem_of_getElem? hp)
  cases op with
  | activate name =>
    show ∀ p ∈ (s.setActive name).1.profiles, p.Storable
    unfold setActive
    split
    · exact h
    · exact h
  | rename i nameBuf =>
    show ∀ p ∈ (s.rename i nameBuf).profiles, p.Storable
    unfold rename
    split
    · exact h
    · next p hp =>
      dsimp only
      split
      · intro q hq
        rcases List.mem_or_eq_of_mem_set hq with hold | rfl
        · exact h q hold
        · exact (hat hp).of_name rfl
      · exact h
  | duplicate i lang =>
    show ∀ p ∈ (s.duplicate i lang).profiles, p.Storable
    unfold duplicate
    split
    · exact h
    · next p hp =>
      intro q hq
      rcases List.mem_append.mp hq with hold | hnew
      · exact h q hold
      · rw [List.mem_singleton.mp hnew]
        exact (hat hp).of_name rfl
  | delete i =>
    show ∀ p ∈ (s.delete i).profiles, p.Storable
    unfold delete
    split
    · exact h
    · split
      · exact h
      · exact fun q hq => h q (List.mem_of_mem_eraseIdx hq)
  | new lang =>
    intro q hq
    rcases List.mem_append.mp hq with hold | hnew
    · exact h q hold
    · rw [List.mem_singleton.mp hnew]
      exact (initial_storable P).of_name rfl
  | reset lang => exact defaults_storable P lang

/-- They change nothing of the settings but the active profile. -/
theorem apply_settings (h : s.settings.Admitted) (op : StoreOp) :
    (s.apply P op).settings.Admitted := by
  cases op with
  | activate name =>
    show (s.setActive name).1.settings.Admitted
    unfold setActive
    split
    · exact h.activate name
    · exact h
  | rename i nameBuf =>
    show (s.rename i nameBuf).settings.Admitted
    unfold rename
    split
    · exact h
    · dsimp only
      split
      · show (ite _ _ _ : AppSettings).Admitted
        split
        · exact h.activate _
        · exact h
      · exact h
  | duplicate i lang =>
    show (s.duplicate i lang).settings.Admitted
    unfold duplicate
    split
    · exact h
    · exact h
  | delete i =>
    show (s.delete i).settings.Admitted
    unfold delete
    split
    · exact h
    · split
      · exact h
      · show (ite _ _ _ : AppSettings).Admitted
        split
        · exact h.activate _
        · exact h
  | new lang => exact h
  | reset lang => exact h.activate _

end Storable

end ProfileStore

/-! ### Over every run -/

/-- What is done to the store while the program runs. -/
inductive StoreEdit where
  /-- The profile manager. -/
  | manage (op : StoreOp)
  /-- The pages of a profile leave it as `p`. -/
  | profile (i : ℕ) (p : Profile)
  /-- The settings pages leave them as `settings`. -/
  | settings (settings : AppSettings)

/-- An edit of the user's, through the store's operations or through the pages. -/
def ProfileStore.edit (P : Platform) (s : ProfileStore) : StoreEdit → ProfileStore
  | .manage op => s.apply P op
  | .profile i p => { s with profiles := s.profiles.set i p }
  | .settings settings => { s with settings := settings }

/-- The store under everything that is done to it. -/
def editMachine (P : Platform) : Machine ProfileStore StoreEdit Empty where
  step s a := (s.edit P a, [])

/-- The pages keep to the ranges, and leave names to the profile manager. -/
def ProfileStore.Edits (P : Platform) (s : ProfileStore) : StoreEdit → Prop
  | .manage op => s.Fits P op
  | .profile i p => p.Storable ∧ (s.profiles[i]?).map Profile.name = some p.name
  | .settings settings =>
    settings.Admitted ∧ settings.activeProfile = s.settings.activeProfile

namespace ProfileStore.Storable

variable {P : Platform} {s : ProfileStore}

/-- An edit in the loader's ranges keeps a store storable and small enough to name. -/
theorem edit (h : s.Storable) (hmax : s.profiles.length ≤ 9998) (a : StoreEdit)
    (ha : s.Edits P a) : (s.edit P a).Storable ∧ (s.edit P a).profiles.length ≤ 9998 := by
  cases a with
  | manage op =>
    exact ⟨⟨h.sound.apply hmax op, apply_profiles h.profiles op, apply_settings h.settings op⟩, ha⟩
  | profile i p =>
    obtain ⟨hp, hname⟩ := ha
    -- The page keeps the name, so the names in the store are the same as before.
    have hnames : names (s.profiles.set i p) = names s.profiles := by
      rw [names, List.map_set, ← names]
      apply List.ext_getElem?
      intro j
      rw [List.getElem?_set]
      split
      · next hij =>
        subst hij
        have hat : (names s.profiles)[i]? = some p.name := by rw [names, List.getElem?_map, hname]
        rw [hat]
        exact if_pos (List.getElem?_eq_some_iff.mp hat).1
      · rfl
    have hsound : ({ s with profiles := s.profiles.set i p } : ProfileStore).Sound := by
      apply sound_of_mem
      · show (names (s.profiles.set i p)).Nodup
        rw [hnames]
        exact h.sound.nodup
      · show ∀ n ∈ names (s.profiles.set i p), trim n ≠ []
        rw [hnames]
        exact h.sound.named
      · show s.settings.activeProfile ∈ names (s.profiles.set i p)
        rw [hnames]
        exact h.sound.mem
    refine ⟨⟨hsound, ?_, h.settings⟩, ?_⟩
    · intro q hq
      rcases List.mem_or_eq_of_mem_set hq with hold | rfl
      · exact h.profiles q hold
      · exact hp
    · show (s.profiles.set i p).length ≤ 9998
      rw [List.length_set]
      exact hmax
  | settings settings =>
    obtain ⟨hsettings, hactive⟩ := ha
    refine ⟨⟨sound_of_mem h.sound.nodup h.sound.named ?_, h.profiles, hsettings⟩, hmax⟩
    show settings.activeProfile ∈ names s.profiles
    rw [hactive]
    exact h.sound.mem

end ProfileStore.Storable

/-- **A store is loaded as it was saved.**  After any load, from any folder, and any edits within
    the ranges, a save that succeeds leaves files that any later load reads back: the profiles in
    their order and under their names, the active one, the settings, with rates to ten digits and
    the scan codes of keys alone.  What such a load gives is saved and loaded again as it is. -/
theorem store_reloads (P : Platform) (lang lang' : Lang) (L : Labels) {t t' : ProfileStore}
    (ht : t.settings.Admitted) (dir : Folder) (o : LoadObs) (edits : List StoreEdit)
    (hload : (t.load P lang dir o).1.profiles.length ≤ 9998)
    (hedits : (editMachine P).Meets (ProfileStore.Edits P) (t.load P lang dir o).1 edits)
    (dir' : Folder) (o' : SaveObs) (copy : CopyObs)
    (hsaved : (((editMachine P).after (t.load P lang dir o).1 edits).save L dir' o').2.2 = true)
    (hsmall : ((editMachine P).after (t.load P lang dir o).1 edits).Readable L) :
    let s := (editMachine P).after (t.load P lang dir o).1 edits
    t'.load P lang' (s.save L dir' o').2.1 { copy := copy } =
        ({ s.reloaded with lastError := t'.lastError }, (s.save L dir' o').2.1, true) ∧
      s.reloaded.reloaded = s.reloaded := by
  have hafter := (editMachine P).invariant_of_meets
    (I := fun s => s.Storable ∧ s.profiles.length ≤ 9998)
    (fun s a h ha => h.1.edit h.2 a ha)
    ⟨ProfileStore.load_storable ht dir o hload, hload⟩ hedits
  obtain ⟨hprofiles, hsettings⟩ := ProfileStore.save_folder hsaved
  exact ⟨hafter.1.load_files hprofiles hsettings hsmall t' copy, hafter.1.reloaded_reloaded⟩

/-- Texts of keys and buttons that are all empty. -/
def bareLabels : Labels := ⟨bytes "(none)", fun _ => []⟩

/-- The settings of a first start are in the loader's ranges. -/
theorem initial_admitted (P : Platform) : (AppSettings.initial P).Admitted :=
  ⟨KeyChord.key_admitted P (by decide) (by decide), rfl, .inl rfl, rfl,
    (by decide : 620 ≤ (720#32).toInt ∧ (720#32).toInt ≤ 4000),
    (by decide : 480 ≤ (552#32).toInt ∧ (552#32).toInt ≤ 4000)⟩

/-- The store of `blankTwins` with its first profile renamed, saved into an empty folder. -/
theorem store_reloads_blankTwins :
    let s := (editMachine .tenMegahertz).after
      (ProfileStore.load .tenMegahertz .en { settings := .initial .tenMegahertz } blankTwins {}).1
        [.manage (.rename 0 (bytes "Mine"))]
    ProfileStore.load .tenMegahertz .ru { settings := .initial .tenMegahertz }
        (s.save bareLabels (fun _ => none) {}).2.1 {} =
      ({ s.reloaded with lastError := [] }, (s.save bareLabels (fun _ => none) {}).2.1, true) ∧
    s.reloaded.reloaded = s.reloaded :=
  store_reloads .tenMegahertz .en .ru bareLabels (initial_admitted _) blankTwins {}
    [.manage (.rename 0 (bytes "Mine"))] (by decide +kernel)
    ⟨(by decide +kernel : ProfileStore.Fits _ _ _), trivial⟩ (fun _ => none) {} .copied
    (by decide +kernel) (by decide +kernel)

end InfinityClicker
