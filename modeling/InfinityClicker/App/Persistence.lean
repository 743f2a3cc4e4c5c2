import InfinityClicker.Core.Clock
import InfinityClicker.Profiles.Reload

namespace InfinityClicker

open Json Machines Folder

/-!
# Saving while the program runs

An edit is applied at once and saved 600 ms after the last one, from the UI loop's `tick`; exits
save as well.  The place of the window goes into the settings without counting as an edit, and
`--lang` does too.

* `AppStore` — what the application keeps for this, with its calls under their names;
* `ProfileStore.fitted` — a store with the window and the language as a load would have them;
* `AppStore.Kept` — the invariant: what waits, what the files hold, and what memory differs by;
* `edits_are_saved` — over every session.
-/

/-! ### What a load makes of a window and a language -/

/-- The place of the window, as `saveWindowPlacement` finds it. -/
structure Placement where
  x : BitVec 32
  y : BitVec 32
  w : BitVec 32
  h : BitVec 32
deriving DecidableEq, Repr

namespace AppSettings

variable (s : AppSettings)

/-- The window's placement goes into the settings. -/
def place (p : Placement) : AppSettings :=
  { s with windowX := p.x, windowY := p.y, windowW := p.w, windowH := p.h }

/-- The settings with their window and language as they are read back. -/
def fitted : AppSettings :=
  { s with
    language := parseLanguage s.language
    windowW := BitVec.ofInt 32 (clamp s.windowW.toInt 620 4000)
    windowH := BitVec.ofInt 32 (clamp s.windowH.toInt 480 4000) }

variable {s}

/-- A size that is clamped fits into 32 bits. -/
theorem toInt_clamp (v : ℤ) {lo hi : ℤ} (h : lo ≤ hi) (hlo : -2 ^ 31 ≤ lo) (hhi : hi < 2 ^ 31) :
    (BitVec.ofInt 32 (clamp v lo hi)).toInt = clamp v lo hi := by
  have hmem := clamp_mem v h
  exact BitVec.toInt_ofInt_eq_self (by norm_num) (by omega) (by omega)

/-- Only the chord and the layout matter then. -/
theorem fitted_admitted_iff : s.fitted.Admitted ↔
    s.emergency.Admitted ∧ s.emergency.valid = true ∧ s.uiLayout = 2 := by
  constructor
  · intro h
    exact ⟨h.emergency, h.valid, h.uiLayout⟩
  · rintro ⟨hemergency, hvalid, hlayout⟩
    have hclamp : ∀ (v : ℤ) {lo hi : ℤ}, lo ≤ hi → -2 ^ 31 ≤ lo → hi < 2 ^ 31 →
        lo ≤ (BitVec.ofInt 32 (clamp v lo hi)).toInt ∧
          (BitVec.ofInt 32 (clamp v lo hi)).toInt ≤ hi := by
      intro v lo hi h hlo hhi
      rw [toInt_clamp v h hlo hhi]
      exact clamp_mem v h
    exact ⟨hemergency, hvalid, parseLanguage_mem _, hlayout,
      hclamp _ (by norm_num) (by norm_num) (by norm_num),
      hclamp _ (by norm_num) (by norm_num) (by norm_num)⟩

/-- A language that was read reads as itself. -/
theorem parseLanguage_parseLanguage (l : Bytes) :
    parseLanguage (parseLanguage l) = parseLanguage l :=
  parseLanguage_eq (parseLanguage_mem l)

/-- A size that was fitted is read as the size itself is. -/
theorem getClamped_fitted {v v' : Value} {k : Bytes} {z lo hi : ℤ} (dflt : ℤ)
    (hfind : v.find k = some (.ofInt z)) (hz : |z| < 2 ^ 53)
    (hfitted : v'.find k = some (.ofInt (BitVec.ofInt 32 (clamp z lo hi)).toInt)) (h : lo ≤ hi)
    (hlo : -2 ^ 31 ≤ lo) (hhi : hi < 2 ^ 31) :
    v'.getClamped k dflt lo hi = v.getClamped k dflt lo hi := by
  have hmem := clamp_mem z h
  rw [toInt_clamp z h hlo hhi] at hfitted
  rw [Value.getClamped_ofInt hfitted (by rw [abs_lt]; omega) hmem.1 hmem.2, Value.getClamped,
    Value.getInt_ofInt hfind hz]

/-- The other settings are stored as they are. -/
theorem find_fitted (L : Labels) (s : AppSettings) {k : Bytes} (hlanguage : k ≠ bytes "language")
    (hwindow : k ≠ bytes "window") : (s.fitted.toJson L).find k = (s.toJson L).find k := by
  rw [toJson_eq, toJson_eq]
  show List.lookup k (s.fitted.stored L) = List.lookup k (s.stored L)
  unfold stored
  simp only [List.lookup_cons, beq_false_of_ne hlanguage, beq_false_of_ne hwindow]
  rfl

/-- **A load does not tell** settings from the fitted ones. -/
theorem fromJson_fitted (P : Platform) (L : Labels) (s : AppSettings) :
    fromJson P (s.fitted.toJson L) = fromJson P (s.toJson L) := by
  have hwindow : ∀ t : AppSettings, (t.toJson L).get (bytes "window") = t.windowJson := by
    intro t
    rw [toJson_eq]
    rfl
  have hlanguage : ∀ t : AppSettings,
      (t.toJson L).getString (bytes "language") (bytes "auto") = t.language := by
    intro t
    rw [toJson_eq]
    rfl
  -- The size of the window is clamped by the reader just as by the fitting.
  have hw : s.fitted.windowJson.getClamped (bytes "w") 720 620 4000 =
      s.windowJson.getClamped (bytes "w") 720 620 4000 :=
    getClamped_fitted 720 rfl (abs_toInt_lt s.windowW) rfl (by norm_num) (by norm_num) (by norm_num)
  have hh : s.fitted.windowJson.getClamped (bytes "h") 552 480 4000 =
      s.windowJson.getClamped (bytes "h") 552 480 4000 :=
    getClamped_fitted 552 rfl (abs_toInt_lt s.windowH) rfl (by norm_num) (by norm_num) (by norm_num)
  have hfitted : parseLanguage s.fitted.language = parseLanguage s.language :=
    parseLanguage_parseLanguage s.language
  have hplace : s.fitted.windowX = s.windowX ∧ s.fitted.windowY = s.windowY := ⟨rfl, rfl⟩
  have hx : ∀ t : AppSettings, t.windowJson.getInt (bytes "x") (-2 ^ 31) = t.windowX.toInt :=
    fun t => Value.getInt_ofInt rfl (abs_toInt_lt t.windowX) _
  have hy : ∀ t : AppSettings, t.windowJson.getInt (bytes "y") (-2 ^ 31) = t.windowY.toInt :=
    fun t => Value.getInt_ofInt rfl (abs_toInt_lt t.windowY) _
  -- Every other member is the same in both trees.
  have hlayout : (s.fitted.toJson L).getInt (bytes "uiLayout") 1 =
      (s.toJson L).getInt (bytes "uiLayout") 1 := by
    rw [Value.getInt, Value.getInt, find_fitted L s (by decide +kernel) (by decide +kernel)]
  have hemergency : (initial P).loadEmergency (s.fitted.toJson L) =
      (initial P).loadEmergency (s.toJson L) := by
    rw [loadEmergency, loadEmergency, find_fitted L s (by decide +kernel) (by decide +kernel)]
  have hactive : (s.fitted.toJson L).getString (bytes "activeProfile") (initial P).activeProfile =
      (s.toJson L).getString (bytes "activeProfile") (initial P).activeProfile := by
    rw [Value.getString, Value.getString,
      find_fitted L s (by decide +kernel) (by decide +kernel)]
  have hbool : ∀ {k : Bytes} (dflt : Bool), k ≠ bytes "language" → k ≠ bytes "window" →
      (s.fitted.toJson L).getBool k dflt = (s.toJson L).getBool k dflt := by
    intro k dflt hlang hwin
    rw [Value.getBool, Value.getBool, find_fitted L s hlang hwin]
  unfold fromJson
  dsimp only
  rw [hlayout, hemergency, hactive, hwindow s, hwindow s.fitted, hlanguage s, hlanguage s.fitted,
    hfitted, hx s, hx s.fitted, hy s, hy s.fitted, hplace.1, hplace.2, hw, hh]
  simp (disch := decide +kernel) only [hbool]

end AppSettings

namespace ProfileStore

variable {P : Platform} {lang : Lang} {L : Labels} {s : ProfileStore}

/-- The placement goes into the store's settings. -/
def place (s : ProfileStore) (p : Placement) : ProfileStore :=
  { s with settings := s.settings.place p }

/-- The store as a loader of its files would have it. -/
def fitted (s : ProfileStore) : ProfileStore := { s with settings := s.settings.fitted }

/-- **The files of a store** whose window may be anywhere are loaded as the fitted store. -/
theorem load_files_fitted (h : s.fitted.Storable) {dir : Folder}
    (hprofiles : dir "profiles.json" = some (s.profilesText L))
    (hsettings : dir "settings.json" = some (s.settingsText L)) (hsmall : s.Readable L)
    (t : ProfileStore) (copy : CopyObs) :
    t.load P lang dir { copy := copy } =
      ({ s.fitted.reloaded with lastError := t.lastError }, dir, true) := by
  have hread : ∀ old, readSettings P old (some (s.settingsText L)) =
      readSettings P old (some (s.fitted.settingsText L)) := by
    intro old
    obtain ⟨hok, hvalue⟩ := (s.settings.readsAs L 62).parse true
    obtain ⟨hok', hvalue'⟩ := (s.settings.fitted.readsAs L 62).parse true
    unfold readSettings settingsText fitted
    dsimp only
    rw [hok, hok', hvalue, hvalue', AppSettings.fromJson_fitted]
  have hloaded : t.loaded P lang (some (s.settingsText L)) (some (s.profilesText L)) =
      t.loaded P lang (some (s.fitted.settingsText L)) (some (s.fitted.profilesText L)) := by
    unfold loaded
    rw [hread]
    rfl
  have hprofilesRead : readProfiles P (some (s.profilesText L)) =
      (s.profiles.map Profile.reloaded, true) := h.readProfiles_profilesText
  unfold load
  dsimp only
  rw [readFile_of_small hprofiles hsmall.1, readFile_of_small hsettings hsmall.2, hprofilesRead,
    hread, h.readSettings_settingsText, hloaded, h.loaded_texts]
  rfl

/-- What is loaded is fitted, whatever the language is overridden with. -/
theorem Storable.fitted_override (h : s.Storable) (l : Bytes) :
    ({ s with settings := { s.settings with language := l } } : ProfileStore).fitted.Storable :=
  ⟨sound_of_mem h.sound.nodup h.sound.named h.sound.mem, h.profiles,
    AppSettings.fitted_admitted_iff.mpr
      ⟨h.settings.emergency, h.settings.valid, h.settings.uiLayout⟩⟩

/-- A placement that fits keeps the store storable. -/
theorem fitted_place (h : s.fitted.Storable) (p : Placement) : (s.place p).fitted.Storable :=
  have hsettings : s.settings.emergency.Admitted ∧ s.settings.emergency.valid = true ∧
      s.settings.uiLayout = 2 := AppSettings.fitted_admitted_iff.mp h.settings
  ⟨sound_of_mem h.sound.nodup h.sound.named h.sound.mem, h.profiles,
    AppSettings.fitted_admitted_iff.mpr hsettings⟩

end ProfileStore

/-! ### The application -/

/-- Whether an edit takes effect; the manager's buttons do nothing otherwise. -/
def ProfileStore.takes (s : ProfileStore) : StoreEdit → Bool
  | .manage (.activate name) => s.profiles.any fun p => p.name == name
  | .manage (.rename i nameBuf) =>
    match s.profiles[i]? with
    | none => false
    | some p => trim (cString nameBuf) ≠ [] ∧ trim (cString nameBuf) ≠ p.name
  | .manage (.duplicate i _) => i < s.profiles.length
  | .manage (.delete i) => i < s.profiles.length ∧ 1 < s.profiles.length
  | _ => true

/-- What the application keeps for saving. -/
structure AppStore where
  store : ProfileStore
  dir : Folder
  dirty : Bool := false
  saveAt : ℤ := 0
  /-- `shutdown` has been called. -/
  done : Bool := false

/-- What happens to the store: an edit at a time, or a save of `q` that succeeds or not. -/
inductive SaveEvent where
  | edited (now : ℤ)
  | saved (q : ProfileStore) (ok : Bool)
deriving DecidableEq

/-- The saves among the events. -/
def saves : List SaveEvent → List (ProfileStore × Bool) :=
  List.filterMap fun
    | .edited _ => none
    | .saved q ok => some (q, ok)

/-- A call on the UI thread. -/
inductive StoreCall where
  /-- An edit, and `profileChanged` or `settingsChanged` after it. -/
  | edit (a : StoreEdit) (now : ℤ)
  /-- `saveWindowPlacement`. -/
  | place (p : Placement)
  | tick (now : ℤ) (o : SaveObs)
  | saveNow (o : SaveObs)
  | shutdown (o : SaveObs)

namespace AppStore

variable (P : Platform) (L : Labels)

/-- `App::init`, of it what concerns the store; `lang` is the language of new profiles' names. -/
def init (lang : Lang) (langOverride : Bytes) (dir : Folder) (o : LoadObs) : AppStore :=
  let r := ProfileStore.load P lang { settings := .initial P } dir o
  let store := r.1
  let store :=
    if langOverride ≠ [] then
      { store with settings := { store.settings with language := langOverride } }
    else store
  { store := store, dir := r.2.1 }

variable (s : AppStore)

/-- `profileChanged`: something is to be saved, six tenths of a second from now. -/
def profileChanged (now : ℤ) : AppStore :=
  { s with dirty := true, saveAt := now + Clk.msToTicks P 600 }

/-- `saveNow`: both files are written, whatever comes of it. -/
def saveNow (o : SaveObs) : AppStore × List SaveEvent :=
  let r := s.store.save L s.dir o
  ({ s with dirty := false, store := r.1, dir := r.2.1 }, [.saved s.store r.2.2])

/-- `shutdown`: a second call does nothing. -/
def shutdown (o : SaveObs) : AppStore × List SaveEvent :=
  if s.done then (s, [])
  else
    let s := { s with done := true }
    if s.dirty then s.saveNow L o else (s, [])

/-- One call into the program's store. -/
def step : StoreCall → AppStore × List SaveEvent
  | .edit a now =>
    if s.store.takes a then
      (profileChanged P { s with store := s.store.edit P a } now, [.edited now])
    else (s, [])
  | .place p => ({ s with store := s.store.place p }, [])
  | .tick now o => if s.dirty ∧ s.saveAt ≤ now then s.saveNow L o else (s, [])
  | .saveNow o => s.saveNow L o
  | .shutdown o => s.shutdown L o

end AppStore

/-- The application's store under the calls of the UI thread. -/
def storeSession (P : Platform) (L : Labels) : Machine AppStore StoreCall SaveEvent where
  step := AppStore.step P L

/-- The pages keep to the ranges that a load keeps to. -/
def StoreEdit.fitted : StoreEdit → StoreEdit
  | .settings new => .settings new.fitted
  | a => a

/-- What an edit of this session may be. -/
def AppStore.Edits (P : Platform) (s : AppStore) : StoreCall → Prop
  | .edit a _ => s.store.fitted.Edits P a.fitted
  | _ => True

/-! ### Edits and the fitted store -/

namespace ProfileStore

variable {P : Platform} {L : Labels}

/-- **An edit and the fitting** go in either order. -/
theorem edit_fitted (s : ProfileStore) (a : StoreEdit) :
    (s.edit P a).fitted = s.fitted.edit P a.fitted := by
  have hprofiles : s.fitted.profiles = s.profiles := rfl
  have hactive : s.fitted.settings.activeProfile = s.settings.activeProfile := rfl
  -- Only renaming and deleting look at the settings, and they look at the active profile's name.
  cases a with
  | profile i p => rfl
  | settings settings => rfl
  | manage op =>
    cases op with
    | activate name =>
      show (s.setActive name).1.fitted = (s.fitted.setActive name).1
      rw [setActive, setActive, hprofiles]
      split <;> rfl
    | rename i nameBuf =>
      show (s.rename i nameBuf).fitted = s.fitted.rename i nameBuf
      rw [rename, rename, hprofiles]
      split
      · rfl
      · dsimp only
        rw [hactive]
        split
        · split <;> rfl
        · rfl
    | duplicate i lang =>
      show (s.duplicate i lang).fitted = s.fitted.duplicate i lang
      rw [duplicate, duplicate, hprofiles]
      split <;> rfl
    | delete i =>
      show (s.delete i).fitted = s.fitted.delete i
      rw [delete, delete, hprofiles]
      split
      · rfl
      · split
        · rfl
        · dsimp only
          rw [hactive]
          split <;> rfl
    | new lang => rfl
    | reset lang => rfl

end ProfileStore

/-! ### The folder -/

/-- Each of the two files is that of `f₀` or the whole text of one of the stores. -/
structure WholeFiles (L : Labels) (f₀ f : Folder) (stores : List ProfileStore) : Prop where
  profiles : f "profiles.json" = f₀ "profiles.json" ∨
    ∃ q ∈ stores, f "profiles.json" = some (q.profilesText L)
  settings : f "settings.json" = f₀ "settings.json" ∨
    ∃ q ∈ stores, f "settings.json" = some (q.settingsText L)

namespace WholeFiles

variable {L : Labels} {f₀ f : Folder} {stores : List ProfileStore}

/-- **A save that dies anywhere** leaves whole files. -/
theorem killed (h : WholeFiles L f₀ f stores) (q : ProfileStore) (moves : List FileMove) :
    WholeFiles L f₀ ((saveMachine (q.texts L)).after { folder := f } moves).folder
      (stores ++ [q]) := by
  have hkept : Saving.Kept (q.texts L) f ((saveMachine (q.texts L)).after { folder := f } moves)
      ((saveMachine (q.texts L)).trace { folder := f } moves) :=
    (saveMachine (q.texts L)).history (fun _ _ m h => h.move m) (Saving.Kept.start f) moves
  have hmore : ∀ {text : ProfileStore → Bytes} {data : Option Bytes},
      (∃ r ∈ stores, data = some (text r)) → ∃ r ∈ stores ++ [q], data = some (text r) := by
    rintro text data ⟨r, hr, hdata⟩
    exact ⟨r, List.mem_append_left _ hr, hdata⟩
  constructor
  · rw [hkept.profiles.target]
    split
    · exact .inr ⟨q, by simp, rfl⟩
    · exact h.profiles.imp id hmore
  · rw [hkept.settings.target]
    split
    · exact .inr ⟨q, by simp, rfl⟩
    · exact h.settings.imp id hmore

/-- So does one that is not cut short. -/
theorem save (h : WholeFiles L f₀ f stores) (q : ProfileStore) (o : SaveObs) :
    WholeFiles L f₀ (q.save L f o).2.1 (stores ++ [q]) := by
  have hkilled := h.killed q (o.moves (q.texts L))
  rwa [(after_moves L q f o).1] at hkilled

end WholeFiles

/-! ### What every session keeps -/

namespace AppStore

variable {P : Platform} {L : Labels} {dir : Folder} {s : AppStore} {h : List SaveEvent}

/-- Between calls, after the events `h`. -/
structure Kept (P : Platform) (L : Labels) (dir : Folder) (s : AppStore) (h : List SaveEvent) :
    Prop where
  storable : s.store.fitted.Storable
  few : s.store.profiles.length ≤ 9998
  /-- What waits is an edit after which nothing was saved. -/
  waiting : s.dirty = true ↔ ∃ T, h.getLast? = some (.edited T)
  due : ∀ T, h.getLast? = some (.edited T) → s.saveAt = T + Clk.msToTicks P 600
  /-- Otherwise memory is as it was saved, but for the window. -/
  same : s.dirty = false → ∀ q ok, (saves h).getLast? = some (q, ok) →
    ∃ p e, s.store = { q.place p with lastError := e }
  saved : ∀ q, (saves h).getLast? = some (q, true) → q.fitted.Storable ∧
    s.dir "profiles.json" = some (q.profilesText L) ∧
      s.dir "settings.json" = some (q.settingsText L)
  files : WholeFiles L dir s.dir ((saves h).map Prod.fst)

/-- An edit is no save. -/
theorem saves_edited (h : List SaveEvent) (now : ℤ) : saves (h ++ [.edited now]) = saves h := by
  simp [saves]

/-- A save is the last of the saves. -/
theorem saves_saved (h : List SaveEvent) (q : ProfileStore) (ok : Bool) :
    saves (h ++ [.saved q ok]) = saves h ++ [(q, ok)] := by
  simp [saves]

namespace Kept

/-- An edit keeps the account of what is to be saved. -/
theorem edit (hk : s.Kept P L dir h) (a : StoreEdit) (now : ℤ)
    (ha : s.store.fitted.Edits P a.fitted) :
    (profileChanged P { s with store := s.store.edit P a } now).Kept P L dir
      (h ++ [.edited now]) := by
  have hedit := hk.storable.edit hk.few a.fitted ha
  rw [← ProfileStore.edit_fitted] at hedit
  refine ⟨hedit.1, hedit.2, ?_, ?_, ?_, ?_, ?_⟩
  · simp [profileChanged]
  · intro T hT
    have hnow : now = T := by simpa using hT
    rw [← hnow]
    rfl
  · exact fun hclean => absurd hclean (by simp [profileChanged])
  · rw [saves_edited]
    exact hk.saved
  · rw [saves_edited]
    exact hk.files

/-- A placement keeps it: the window's place alone is worth no save. -/
theorem place (hk : s.Kept P L dir h) (p : Placement) :
    ({ s with store := s.store.place p } : AppStore).Kept P L dir h := by
  refine ⟨ProfileStore.fitted_place hk.storable p, hk.few, hk.waiting, hk.due, ?_, hk.saved,
    hk.files⟩
  intro hclean q ok hq
  obtain ⟨_, e, heq⟩ := hk.same hclean q ok hq
  refine ⟨p, e, ?_⟩
  show s.store.place p = _
  rw [heq]
  rfl

/-- **A save** takes what waits, whether it succeeds or not. -/
theorem saveNow (hk : s.Kept P L dir h) (o : SaveObs) :
    (s.saveNow L o).1.Kept P L dir (h ++ (s.saveNow L o).2) := by
  -- Saving changes nothing of the store but the last complaint.
  have hstore : ∃ e, (s.store.save L s.dir o).1 = { s.store with lastError := e } := by
    unfold ProfileStore.save
    dsimp only
    split
    · exact ⟨s.store.lastError, rfl⟩
    · exact ⟨_, rfl⟩
  obtain ⟨e, he⟩ := hstore
  show ({ s with
      dirty := false, store := (s.store.save L s.dir o).1, dir := (s.store.save L s.dir o).2.1 } :
    AppStore).Kept P L dir (h ++ [.saved s.store (s.store.save L s.dir o).2.2])
  have hlast : ∀ {q ok}, (saves h ++ [(s.store, (s.store.save L s.dir o).2.2)]).getLast? =
      some (q, ok) → s.store = q ∧ (s.store.save L s.dir o).2.2 = ok := by
    intro q ok hq
    simpa using hq
  rw [he]
  refine ⟨?_, hk.few, by simp, by simp, ?_, ?_, ?_⟩
  · exact ⟨ProfileStore.sound_of_mem hk.storable.sound.nodup hk.storable.sound.named
      hk.storable.sound.mem, hk.storable.profiles, hk.storable.settings⟩
  · intro _ q ok hq
    rw [saves_saved] at hq
    rw [← (hlast hq).1]
    exact ⟨⟨s.store.settings.windowX, s.store.settings.windowY, s.store.settings.windowW,
      s.store.settings.windowH⟩, e, rfl⟩
  · intro q hq
    rw [saves_saved] at hq
    obtain ⟨rfl, hok⟩ := hlast hq
    exact ⟨hk.storable, ProfileStore.save_folder hok⟩
  · rw [saves_saved, List.map_append]
    exact hk.files.save s.store o

/-- Every call keeps it. -/
theorem step (hk : s.Kept P L dir h) (c : StoreCall) (hc : s.Edits P c) :
    (s.step P L c).1.Kept P L dir (h ++ (s.step P L c).2) := by
  have hnothing : s.Kept P L dir (h ++ []) := by
    rw [List.append_nil]
    exact hk
  cases c with
  | edit a now =>
    rw [AppStore.step]
    split
    · exact hk.edit a now hc
    · exact hnothing
  | place p =>
    rw [AppStore.step, List.append_nil]
    exact hk.place p
  | tick now o =>
    rw [AppStore.step]
    split
    · exact hk.saveNow o
    · exact hnothing
  | saveNow o => exact hk.saveNow o
  -- A second shutdown, and one with nothing to be saved, write nothing.
  | shutdown o =>
    have hdone : ({ s with done := true } : AppStore).Kept P L dir h :=
      ⟨hk.storable, hk.few, hk.waiting, hk.due, hk.same, hk.saved, hk.files⟩
    rw [AppStore.step, shutdown]
    split
    · exact hnothing
    · dsimp only
      split
      · exact hdone.saveNow o
      · rw [List.append_nil]
        exact hdone

/-- After a load there is nothing to be saved. -/
theorem start (P : Platform) (L : Labels) (lang : Lang) (langOverride : Bytes) (dir : Folder)
    (o : LoadObs) (hmax : (init P lang langOverride dir o).store.profiles.length ≤ 9998) :
    (init P lang langOverride dir o).Kept P L dir [] := by
  have hprofiles : (init P lang langOverride dir o).store.profiles =
      (ProfileStore.load P lang { settings := .initial P } dir o).1.profiles := by
    unfold init
    dsimp only
    split <;> rfl
  rw [hprofiles] at hmax
  have hload := ProfileStore.load_storable (t := { settings := .initial P }) (initial_admitted P)
    dir o hmax
  refine ⟨?_, by rwa [hprofiles], by simp [init], by simp, by simp [saves], by simp [saves], ?_⟩
  · show ProfileStore.Storable (ProfileStore.fitted (ite _ _ _))
    split
    · exact hload.fitted_override langOverride
    · exact hload.fitted_override _
  · have hsame : ∀ name, name ≠ "profiles.corrupt.json" →
        (init P lang langOverride dir o).dir name = dir name := by
      intro name hname
      show (ite _ _ _ : Folder) name = dir name
      split
      · exact copyFile_of_ne o.copy hname
      · rfl
    exact ⟨.inl (hsame _ (by decide)), .inl (hsame _ (by decide))⟩

end Kept

end AppStore

/-! ### Over every session -/

/-- **Edits are saved.**  In every session whose pages keep to the ranges, at any moment:

    * what waits is an edit after which nothing was saved; `tick` saves it from 600 ms after it on
      and never before, and `shutdown` at once; a save that fails waits for the next edit;
    * while nothing waits, memory is what was saved last, but for the window's place;
    * when the last save succeeded, whatever was edited since, the next load gives what was saved,
      with a window and a language as a load has them;
    * a process that is killed, in the middle of a save too, leaves each file whole: the one that
      was there before the session, or one of the stores that were saved, or were being saved. -/
theorem edits_are_saved (P : Platform) (L : Labels) (lang : Lang) (langOverride : Bytes)
    (dir : Folder) (o : LoadObs) (calls : List StoreCall)
    (hmax : (AppStore.init P lang langOverride dir o).store.profiles.length ≤ 9998)
    (hcalls : (storeSession P L).Meets (AppStore.Edits P) (.init P lang langOverride dir o)
      calls) :
    let s := (storeSession P L).after (.init P lang langOverride dir o) calls
    let h := (storeSession P L).trace (.init P lang langOverride dir o) calls
    (s.dirty = true ↔ ∃ T, h.getLast? = some (.edited T)) ∧
      (∀ now o', (storeSession P L).out s (.tick now o') ≠ [] ↔
        ∃ T, h.getLast? = some (.edited T) ∧ T + Clk.msToTicks P 600 ≤ now) ∧
      (∀ o', (storeSession P L).out s (.shutdown o') ≠ [] ↔
        s.done = false ∧ ∃ T, h.getLast? = some (.edited T)) ∧
      (s.dirty = false → ∀ q ok, (saves h).getLast? = some (q, ok) →
        ∃ p e, s.store = { q.place p with lastError := e }) ∧
      (∀ q, (saves h).getLast? = some (q, true) → q.Readable L → ∀ (t : ProfileStore) lang' copy,
        t.load P lang' s.dir { copy := copy } =
          ({ q.fitted.reloaded with lastError := t.lastError }, s.dir, true)) ∧
      ∀ moves, WholeFiles L dir
        ((saveMachine (s.store.texts L)).after { folder := s.dir } moves).folder
        ((saves h).map Prod.fst ++ [s.store]) := by
  intro s h
  -- The account holds after every call, by induction over the session.
  have hkept : s.Kept P L dir h := by
    have hrun := (storeSession P L).history_of_meets (h := [])
      (I := fun s h => s.Kept P L dir h) (fun s h c hk hc => hk.step c hc)
      (AppStore.Kept.start P L lang langOverride dir o hmax) hcalls
    rwa [List.nil_append] at hrun
  refine ⟨hkept.waiting, ?_, ?_, hkept.same, ?_, hkept.files.killed s.store⟩
  -- The tick saves what is due: something waits, and its time has come.
  · intro now o'
    have hout : (storeSession P L).out s (.tick now o') ≠ [] ↔
        s.dirty = true ∧ s.saveAt ≤ now := by
      show (ite _ _ _ : AppStore × List SaveEvent).2 ≠ [] ↔ _
      split
      · next hdue => exact ⟨fun _ => hdue, fun _ => by simp [AppStore.saveNow]⟩
      · next hnot => exact ⟨fun hne => absurd rfl hne, fun hdue => absurd hdue hnot⟩
    rw [hout, hkept.waiting]
    constructor
    · rintro ⟨⟨T, hT⟩, hdue⟩
      exact ⟨T, hT, hkept.due T hT ▸ hdue⟩
    · rintro ⟨T, hT, hdue⟩
      exact ⟨⟨T, hT⟩, hkept.due T hT ▸ hdue⟩
  · intro o'
    rw [← hkept.waiting]
    show (s.shutdown L o').2 ≠ [] ↔ _
    unfold AppStore.shutdown
    by_cases hdone : s.done = true
    · simp [hdone]
    · by_cases hdirty : s.dirty = true
      · simp [hdone, hdirty, AppStore.saveNow]
      · simp [hdone, hdirty]
  · intro q hq hsmall t lang' copy
    obtain ⟨hstorable, hprofiles, hsettings⟩ := hkept.saved q hq
    exact ProfileStore.load_files_fitted hstorable hprofiles hsettings hsmall t copy

/-- The store of `blankTwins` with its first profile renamed is saved 600 ms later. -/
theorem edits_are_saved_rename :
    let s := (storeSession .tenMegahertz bareLabels).after
      (.init .tenMegahertz .en (bytes "ru") blankTwins {})
      [.edit (.manage (.rename 0 (bytes "Mine"))) 5, .place ⟨0, 0, 5000, 400⟩]
    ∀ now o, (storeSession .tenMegahertz bareLabels).out s (.tick now o) ≠ [] ↔
      6000005 ≤ now := by
  intro s now o
  have hkept := edits_are_saved .tenMegahertz bareLabels .en (bytes "ru") blankTwins {}
    [.edit (.manage (.rename 0 (bytes "Mine"))) 5, .place ⟨0, 0, 5000, 400⟩] (by decide +kernel)
    ⟨(by decide +kernel : ProfileStore.Fits _ _ _), trivial, trivial⟩
  have hlast : ((storeSession .tenMegahertz bareLabels).trace
      (.init .tenMegahertz .en (bytes "ru") blankTwins {})
      [.edit (.manage (.rename 0 (bytes "Mine"))) 5, .place ⟨0, 0, 5000, 400⟩]).getLast? =
      some (.edited 5) := by decide +kernel
  have hdelay : Clk.msToTicks .tenMegahertz 600 = 6000000 := by decide +kernel
  refine (hkept.2.1 now o).trans ?_
  rw [hlast, hdelay]
  constructor
  · rintro ⟨T, hT, hdue⟩
    have h5 : 5 = T := by simpa using hT
    omega
  · intro hdue
    exact ⟨5, rfl, by omega⟩

end InfinityClicker
