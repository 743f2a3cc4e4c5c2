import InfinityClicker.Core.Folder
import InfinityClicker.Core.FreshName
import InfinityClicker.Profiles.Profile

namespace InfinityClicker

open Json

/-!
# The profile store

The profiles and the settings of the data folder, and what the profile manager does with them.

* `uniqueName` — a name no profile has, searched among numbered ones;
* `ProfileStore.load` / `ProfileStore.save` — the two files of the folder;
* `StoreOp`, `storeMachine` — the operations of the profile manager, in any order.
-/

/-! ### Texts -/

/-- `Lang`. -/
inductive Lang where
  | en
  | ru
deriving DecidableEq, Repr

/-- The bytes of a literal of the source, which is UTF-8. -/
def utf8 (s : String) : Bytes := s.toList.flatMap fun c => appendUtf8 c.toNat

/-- The Russian texts that become names. -/
def ruNames : List (String × String) :=
  [("Default", "Стандартный"), ("Browser", "Браузер"), ("Testing", "Тест"), ("Fast", "Быстрый"),
    ("Custom", "Свой"), (" copy", " (копия)"), ("New profile", "Новый профиль")]

/-- `tr(en)`: the text itself where there is no translation. -/
def tr (lang : Lang) (en : String) : Bytes :=
  match lang with
  | .en => utf8 en
  | .ru => utf8 ((ruNames.lookup en).getD en)

/-- White space in a profile's name. -/
def isBlank (c : UInt8) : Bool := c == ch ' ' || c == ch '\t' || c == ch '\r' || c == ch '\n'

/-- `trim`, from both ends. -/
def trim (s : Bytes) : Bytes := (s.dropWhile isBlank).rdropWhile isBlank

/-- A byte string as a C string: up to the first zero. -/
def cString (s : Bytes) : Bytes := s.takeWhile (· != 0)

/-- `strFormat("%s (%d)", base.c_str(), i)`. -/
def numbered (base : Bytes) (i : ℕ) : Bytes := cString base ++ bytes " (" ++ decimal i ++ bytes ")"

/-! ### Names -/

/-- `uniqueName(base)` among these profiles. -/
def uniqueName (profiles : List Profile) (base : Bytes) : Bytes :=
  let exists_ (n : Bytes) : Bool := profiles.any fun p => p.name == n
  if !exists_ base then base
  else
    match Fresh.firstFree exists_ (numbered base) 2 9998 with
    | some n => n
    | none => base ++ bytes " *"

/-- The inner loop of the repair in `load`: the profile `p`, after the profiles `done` and before
    the profiles `rest`, is compared with `q`. -/
def repairAgainst (done rest : List Profile) (p q : Profile) : Profile :=
  if q.name = p.name then { p with name := uniqueName (done ++ p :: rest) p.name } else p

/-- One round of the repair. -/
def repairOne (done : List Profile) (p : Profile) (rest : List Profile) : Profile :=
  let p := if trim p.name = [] then { p with name := bytes "Profile" } else p
  done.foldl (repairAgainst done rest) p

/-- Unique, non-empty names: the profiles `done` have them. -/
def repairNames (done : List Profile) : List Profile → List Profile
  | [] => done
  | p :: rest => repairNames (done ++ [repairOne done p rest]) rest

/-! ### The store -/

/-- F7. -/
def VK_F7 : BitVec 16 := 0x76

/-- F8. -/
def VK_F8 : BitVec 16 := 0x77

/-- F9. -/
def VK_F9 : BitVec 16 := 0x78

/-- F10. -/
def VK_F10 : BitVec 16 := 0x79

/-- `ProfileStore`: the profiles, the settings and the last complaint. -/
structure ProfileStore where
  profiles : List Profile := []
  settings : AppSettings
  lastError : Bytes := []
deriving DecidableEq

/-- How the files are met by `load`. -/
structure LoadObs where
  settings : ReadObs := {}
  profiles : ReadObs := {}
  copy : CopyObs := .copied

/-- How the files are met by `save`. -/
structure SaveObs where
  profiles : WriteObs := {}
  settings : WriteObs := {}

namespace ProfileStore

variable (P : Platform) (lang : Lang) (L : Labels)

/-- The profiles of a new installation. -/
def defaults : List Profile :=
  let p := Profile.initial P
  [{ p with
      name := tr lang "Default"
      -- "Mouse Button 5".
      trigger := KeyChord.mouse .x2
      mode := { mode := .hold }
      cps := 20
      -- Long enough for games that poll the button once per frame.
      action := { downTimeUs := 10000 } },
    { p with
      name := utf8 "Minecraft"
      trigger := KeyChord.mouse .x1
      suppressTrigger := true
      mode := { mode := .hold }
      cps := 16
      action := { downTimeUs := 12000 }
      filterEnabled := true
      targetProcess := utf8 "javaw.exe; java.exe" },
    { p with
      name := tr lang "Browser"
      trigger := KeyChord.key P VK_F8
      mode := { mode := .toggle }
      cps := 10
      action := { downTimeUs := 5000 }
      precision := .eco },
    { p with
      name := tr lang "Testing"
      trigger := KeyChord.key P VK_F7
      mode := { mode := .burst, burstCount := 100 }
      cps := 100
      action := { downTimeUs := 0 } },
    { p with
      name := tr lang "Fast"
      trigger := KeyChord.key P VK_F9
      mode := { mode := .toggle }
      cps := 1000
      action := { downTimeUs := 0 }
      precision := .ultra },
    { p with
      name := tr lang "Custom"
      trigger := KeyChord.key P VK_F10
      mode := { mode := .hold }
      action := { chord := KeyChord.key P (BitVec.ofNat 16 'E'.toNat), downTimeUs := 15000 }
      cps := 25 }]

/-- The settings read from `settings.json`: the old ones where it is missing or corrupt; and
    whether it is not corrupt. -/
def readSettings (old : AppSettings) : Option Bytes → AppSettings × Bool
  | none => (old, true)
  | some text =>
    let r := parse text
    if r.ok then (AppSettings.fromJson P r.value, true) else (old, false)

/-- The profiles read from `profiles.json`, and whether it is not corrupt. -/
def readProfiles : Option Bytes → List Profile × Bool
  | none => ([], true)
  | some text =>
    let r := parse text
    if r.ok then ((r.value.get (bytes "profiles")).items.map (Profile.fromJson P), true)
    else ([], false)

/-- The profiles before their names are repaired. -/
def found (profiles : Option Bytes) : List Profile :=
  let profiles := (readProfiles P profiles).1
  if profiles.isEmpty then defaults P lang else profiles

/-- An active profile that does not exist becomes the first. -/
def keepActive (settings : AppSettings) (profiles : List Profile) : AppSettings :=
  if profiles.any fun p => p.name == settings.activeProfile then settings
  else { settings with activeProfile := (profiles.head?.map Profile.name).getD [] }

/-- The store after its two files have been read. -/
def loaded (s : ProfileStore) (settings profiles : Option Bytes) : ProfileStore :=
  let profiles := repairNames [] (found P lang profiles)
  { s with
    profiles := profiles
    settings := keepActive (readSettings P s.settings settings).1 profiles }

/-- `load(dir)`; a corrupt `profiles.json` is copied first. -/
def load (s : ProfileStore) (dir : Folder) (o : LoadObs) : ProfileStore × Folder × Bool :=
  let settings := dir.readFile "settings.json" o.settings
  let profiles := dir.readFile "profiles.json" o.profiles
  let corrupt := !(readProfiles P profiles).2
  let dir :=
    if corrupt then dir.copyFile "profiles.json" "profiles.corrupt.json" o.copy else dir
  (s.loaded P lang settings profiles, dir, (readSettings P s.settings settings).2 && !corrupt)

/-- The text of `profiles.json`. -/
def profilesText (s : ProfileStore) : Bytes :=
  let root := Value.object []
  let root := root.set (bytes "format") (.string (bytes "infclick-profiles"))
  let root := root.set (bytes "version") (.ofInt 1)
  let root := root.set (bytes "profiles") (.array (s.profiles.map (Profile.toJson L)))
  stringify root

/-- The text of the settings file. -/
def settingsText (s : ProfileStore) : Bytes := stringify (s.settings.toJson L)

/-- `save`: both files are written, also when the first one fails. -/
def save (s : ProfileStore) (dir : Folder) (o : SaveObs) : ProfileStore × Folder × Bool :=
  let first := dir.writeFileAtomic "profiles.json" (s.profilesText L) o.profiles
  let second := first.1.writeFileAtomic "settings.json" (s.settingsText L) o.settings
  let ok := first.2 && second.2
  (if ok then s else { s with lastError := bytes "could not write settings to the data folder" },
    second.1, ok)

/-- `activeIndex()`; `none` for -1. -/
def activeIndex (s : ProfileStore) : Option ℕ :=
  match s.profiles.findIdx? fun p => p.name == s.settings.activeProfile with
  | some i => some i
  | none => if s.profiles.isEmpty then none else some 0

/-- `active()`: the store after it and the profile it refers to. -/
def active (s : ProfileStore) : ProfileStore × Option Profile :=
  match s.activeIndex with
  | some i => (s, s.profiles[i]?)
  | none => ({ s with profiles := defaults P lang }, (defaults P lang).head?)

/-- `setActive`: a profile of that name becomes the active one. -/
def setActive (s : ProfileStore) (name : Bytes) : ProfileStore × Bool :=
  if s.profiles.any fun p => p.name == name then
    ({ s with settings := { s.settings with activeProfile := name } }, true)
  else (s, false)

end ProfileStore

/-! ### The profile manager -/

/-- What a user does in the profile manager; `i` is the selected profile. -/
inductive StoreOp where
  | activate (name : Bytes)
  | rename (i : ℕ) (nameBuf : Bytes)
  | duplicate (i : ℕ) (lang : Lang)
  | delete (i : ℕ)
  | new (lang : Lang)
  | reset (lang : Lang)
deriving DecidableEq

namespace ProfileStore

variable (P : Platform) (s : ProfileStore)

/-- "Rename": the active profile stays active under its new name. -/
def rename (i : ℕ) (nameBuf : Bytes) : ProfileStore :=
  match s.profiles[i]? with
  | none => s
  | some p =>
    let nn := trim (cString nameBuf)
    if nn ≠ [] ∧ nn ≠ p.name then
      let nn := uniqueName s.profiles nn
      let settings :=
        if s.settings.activeProfile = p.name then { s.settings with activeProfile := nn }
        else s.settings
      { s with profiles := s.profiles.set i { p with name := nn }, settings := settings }
    else s

/-- `duplicate`: a copy goes behind the profile, under a name of its own. -/
def duplicate (i : ℕ) (lang : Lang) : ProfileStore :=
  match s.profiles[i]? with
  | none => s
  | some p =>
    let c := { p with name := uniqueName s.profiles (p.name ++ tr lang " copy") }
    { s with profiles := s.profiles ++ [c] }

/-- "Delete", which the last profile does not offer. -/
def delete (i : ℕ) : ProfileStore :=
  match s.profiles[i]? with
  | none => s
  | some p =>
    if s.profiles.length ≤ 1 then s
    else
      let profiles := s.profiles.eraseIdx i
      let settings :=
        if s.settings.activeProfile = p.name then
          { s.settings with activeProfile := (profiles.head?.map Profile.name).getD [] }
        else s.settings
      { s with profiles := profiles, settings := settings }

/-- The New button: a fresh profile at the end. -/
def new (lang : Lang) : ProfileStore :=
  let n := { Profile.initial P with name := uniqueName s.profiles (tr lang "New profile") }
  { s with profiles := s.profiles ++ [n] }

/-- Back to the profiles of a first start. -/
def reset (lang : Lang) : ProfileStore :=
  let profiles := defaults P lang
  { s with
    profiles := profiles
    settings := { s.settings with activeProfile := (profiles.head?.map Profile.name).getD [] } }

/-- One operation. -/
def apply : StoreOp → ProfileStore
  | .activate name => (s.setActive name).1
  | .rename i nameBuf => s.rename i nameBuf
  | .duplicate i lang => s.duplicate i lang
  | .delete i => s.delete i
  | .new lang => s.new P lang
  | .reset lang => s.reset P lang

end ProfileStore

end InfinityClicker
