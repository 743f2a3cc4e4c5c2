import InfinityClicker.Profiles.Fields

namespace InfinityClicker

open Json

/-!
# Profiles and application settings as they are stored

A profile describes one use (trigger, action, mode, speed, timing, target window); the settings
are the same for all of them.

* `Profile.toJson` / `Profile.fromJson`, `AppSettings.toJson` / `AppSettings.fromJson`;
* `modeKey`, `precisionKey`, `prioKey`, `rateKey` — the words an enumerator is stored as, each with
  the parser that reads it back (`parseMode_modeKey` and so on).
-/

/-- Where button events come from. -/
inductive TriggerBackend where
  | hook
  | rawInput
deriving DecidableEq, Repr

/-- The unit a rate is shown in. -/
inductive RateUnit where
  | cps
  | intervalMs
  | intervalUs
deriving DecidableEq, Repr

/-! ### Words -/

/-- The word a mode is stored as. -/
def modeKey : TriggerMode → String
  | .hold => "hold"
  | .toggle => "toggle"
  | .burst => "burst"
  | .count => "count"
  | .duration => "duration"

/-- The mode of a stored word; Toggle where it says nothing. -/
def parseMode (s : Bytes) : TriggerMode :=
  if s = bytes "hold" then .hold
  else if s = bytes "burst" then .burst
  else if s = bytes "count" then .count
  else if s = bytes "duration" then .duration
  else .toggle

/-- The word a precision is stored as. -/
def precisionKey : Precision → String
  | .eco => "eco"
  | .standard => "standard"
  | .ultra => "ultra"

/-- The precision of a stored word; Standard where it says nothing. -/
def parsePrecision (s : Bytes) : Precision :=
  if s = bytes "eco" then .eco else if s = bytes "ultra" then .ultra else .standard

/-- The word a thread's priority is stored as. -/
def prioKey : ThreadPrio → String
  | .normal => "normal"
  | .aboveNormal => "above_normal"
  | .highest => "highest"
  | .timeCritical => "time_critical"
  | .mmcss => "mmcss"

/-- The priority of a stored word; Highest where it says nothing. -/
def parsePrio (s : Bytes) : ThreadPrio :=
  if s = bytes "normal" then .normal
  else if s = bytes "above_normal" then .aboveNormal
  else if s = bytes "time_critical" then .timeCritical
  else if s = bytes "mmcss" then .mmcss
  else .highest

/-- The word a unit is stored as. -/
def rateKey : RateUnit → String
  | .cps => "cps"
  | .intervalMs => "interval_ms"
  | .intervalUs => "interval_us"

/-- The unit of a stored word; clicks per second where it says nothing. -/
def parseRate (s : Bytes) : RateUnit :=
  if s = bytes "interval_ms" then .intervalMs
  else if s = bytes "interval_us" then .intervalUs
  else .cps

/-- The word a backend is stored as. -/
def backendKey (b : TriggerBackend) : String := if b = .rawInput then "rawinput" else "hook"

/-- The backend of a stored word; the hook where it says nothing. -/
def parseBackend (s : Bytes) : TriggerBackend := if s = bytes "rawinput" then .rawInput else .hook

/-- The word a late policy is stored as. -/
def latePolicyKey (l : LatePolicy) : String := if l = .catchUp then "catchup" else "skip"

/-- The late policy of a stored word; CatchUp where it says nothing. -/
def parseLatePolicy (s : Bytes) : LatePolicy := if s = bytes "skip" then .skip else .catchUp

/-- Every mode is read back. -/
theorem parseMode_modeKey (m : TriggerMode) : parseMode (bytes (modeKey m)) = m := by
  cases m <;> rfl

/-- Every precision is read back. -/
theorem parsePrecision_precisionKey (p : Precision) :
    parsePrecision (bytes (precisionKey p)) = p := by
  cases p <;> rfl

/-- Every priority is read back. -/
theorem parsePrio_prioKey (p : ThreadPrio) : parsePrio (bytes (prioKey p)) = p := by
  cases p <;> rfl

/-- Every unit is read back. -/
theorem parseRate_rateKey (u : RateUnit) : parseRate (bytes (rateKey u)) = u := by
  cases u <;> rfl

/-- Every backend is read back. -/
theorem parseBackend_backendKey (b : TriggerBackend) : parseBackend (bytes (backendKey b)) = b := by
  cases b <;> rfl

/-- Every late policy is read back. -/
theorem parseLatePolicy_latePolicyKey (l : LatePolicy) :
    parseLatePolicy (bytes (latePolicyKey l)) = l := by
  cases l <;> rfl

/-! ### Profiles -/

/-- The key of the initial trigger. -/
def VK_F6 : BitVec 16 := 0x75

/-- The key of the initial emergency stop. -/
def VK_F12 : BitVec 16 := 0x7B

/-- The `double` written `0.01`, the slowest rate there is. -/
def minCps : ℚ := Binary64.nearest (1 / 100)

/-- A profile, as it is stored. -/
structure Profile where
  name : Bytes := bytes "Default"
  trigger : KeyChord
  suppressTrigger : Bool := false
  mouseBackend : TriggerBackend := .hook
  action : InputAction := {}
  mode : ModeParams := {}
  rateUnit : RateUnit := .cps
  cps : ℚ := 20
  maxMode : Bool := false
  maxBatch : BitVec 32 := 8
  maxBackpressure : Bool := true
  maxInflight : BitVec 32 := 2000
  precision : Precision := .standard
  priority : ThreadPrio := .highest
  latePolicy : LatePolicy := .catchUp
  filterEnabled : Bool := false
  /-- A list separated by `;`. -/
  targetProcess : Bytes := []
deriving DecidableEq

namespace Profile

/-- A profile with the source's initial values. -/
def initial (P : Platform) : Profile := { trigger := KeyChord.key P VK_F6 }

/-- The member `trigger`. -/
def triggerJson (L : Labels) (p : Profile) : Value :=
  let t := Value.object []
  let t := t.set (bytes "chord") (p.trigger.toJson L)
  let t := t.set (bytes "suppress") (.bool p.suppressTrigger)
  t.set (bytes "mouseBackend") (.string (bytes (backendKey p.mouseBackend)))

/-- The member `mode`. -/
def modeJson (p : Profile) : Value :=
  let m := Value.object []
  let m := m.set (bytes "type") (.string (bytes (modeKey p.mode.mode)))
  let m := m.set (bytes "burstCount") (.ofInt p.mode.burstCount.toNat)
  let m := m.set (bytes "fixedCount") (.ofInt p.mode.fixedCount.toNat)
  m.set (bytes "durationMs") (.ofInt p.mode.durationMs.toNat)

/-- The member `speed`. -/
def speedJson (p : Profile) : Value :=
  let s := Value.object []
  let s := s.set (bytes "unit") (.string (bytes (rateKey p.rateUnit)))
  let s := s.set (bytes "cps") (.number p.cps)
  let s := s.set (bytes "max") (.bool p.maxMode)
  let s := s.set (bytes "maxBatch") (.ofInt p.maxBatch.toNat)
  let s := s.set (bytes "maxBackpressure") (.bool p.maxBackpressure)
  s.set (bytes "maxInflight") (.ofInt p.maxInflight.toNat)

/-- The member `timing`. -/
def timingJson (p : Profile) : Value :=
  let q := Value.object []
  let q := q.set (bytes "precision") (.string (bytes (precisionKey p.precision)))
  let q := q.set (bytes "threadPriority") (.string (bytes (prioKey p.priority)))
  q.set (bytes "latePolicy") (.string (bytes (latePolicyKey p.latePolicy)))

/-- The member `targetApp`. -/
def targetAppJson (p : Profile) : Value :=
  let f := Value.object []
  let f := f.set (bytes "enabled") (.bool p.filterEnabled)
  f.set (bytes "process") (.string p.targetProcess)

/-- `Profile::toJson`. -/
def toJson (L : Labels) (p : Profile) : Value :=
  let v := Value.object []
  let v := v.set (bytes "name") (.string p.name)
  let v := v.set (bytes "trigger") (p.triggerJson L)
  let v := v.set (bytes "action") (p.action.toJson L)
  let v := v.set (bytes "mode") p.modeJson
  let v := v.set (bytes "speed") p.speedJson
  let v := v.set (bytes "timing") p.timingJson
  v.set (bytes "targetApp") p.targetAppJson

/-- The member `mode`, read with its defaults and bounds. -/
def modeFromJson (m : Value) : ModeParams where
  mode := parseMode (m.getString (bytes "type") (bytes "toggle"))
  burstCount := BitVec.ofInt 64 (m.getClamped (bytes "burstCount") 10 1 1000000000)
  fixedCount := BitVec.ofInt 64 (m.getClamped (bytes "fixedCount") 100 1 1000000000000)
  durationMs := BitVec.ofInt 32 (m.getClamped (bytes "durationMs") 1000 1 86400000)

/-- `Profile::fromJson`. -/
def fromJson (P : Platform) (v : Value) : Profile :=
  let t := v.get (bytes "trigger")
  let s := v.get (bytes "speed")
  let q := v.get (bytes "timing")
  let f := v.get (bytes "targetApp")
  { name := v.getString (bytes "name") (bytes "Profile")
    trigger :=
      match t.find (bytes "chord") with
      | some c => KeyChord.fromJson c
      | none => (initial P).trigger
    suppressTrigger := t.getBool (bytes "suppress") false
    mouseBackend := parseBackend (t.getString (bytes "mouseBackend") (bytes "hook"))
    action :=
      match v.find (bytes "action") with
      | some a => InputAction.fromJson a
      | none => (initial P).action
    mode := modeFromJson (v.get (bytes "mode"))
    rateUnit := parseRate (s.getString (bytes "unit") (bytes "cps"))
    cps := clamp (s.getNumber (bytes "cps") 20) minCps 1000000
    maxMode := s.getBool (bytes "max") false
    maxBatch := BitVec.ofInt 32 (s.getClamped (bytes "maxBatch") 8 1 256)
    maxBackpressure := s.getBool (bytes "maxBackpressure") true
    maxInflight := BitVec.ofInt 32 (s.getClamped (bytes "maxInflight") 2000 16 1000000)
    precision := parsePrecision (q.getString (bytes "precision") (bytes "standard"))
    priority := parsePrio (q.getString (bytes "threadPriority") (bytes "highest"))
    latePolicy := parseLatePolicy (q.getString (bytes "latePolicy") (bytes "catchup"))
    filterEnabled := f.getBool (bytes "enabled") false
    targetProcess := f.getString (bytes "process") [] }

end Profile

/-! ### Settings -/

/-- The settings, as they are stored. -/
structure AppSettings where
  activeProfile : Bytes := bytes "Default"
  emergency : KeyChord
  armOnLaunch : Bool := true
  startMinimized : Bool := false
  minimizeToTray : Bool := true
  closeToTray : Bool := false
  pauseOnOwnWindow : Bool := true
  acceptInjectedTriggers : Bool := false
  fileLogging : Bool := true
  debugLogging : Bool := false
  guardian : Bool := true
  alwaysOnTop : Bool := false
  /-- The Windows language ("auto"), "en" or "ru". -/
  language : Bytes := bytes "auto"
  /-- Grows when the window layout changes. -/
  uiLayout : BitVec 32 := 2
  windowX : BitVec 32 := BitVec.intMin 32
  windowY : BitVec 32 := BitVec.intMin 32
  windowW : BitVec 32 := 720
  windowH : BitVec 32 := 552
deriving DecidableEq

namespace AppSettings

/-- The settings of a first start. -/
def initial (P : Platform) : AppSettings :=
  { emergency := KeyChord.key P VK_F12 (ModCtrl ||| ModShift) }

/-- The member `window`. -/
def windowJson (s : AppSettings) : Value :=
  let w := Value.object []
  let w := w.set (bytes "x") (.ofInt s.windowX.toInt)
  let w := w.set (bytes "y") (.ofInt s.windowY.toInt)
  let w := w.set (bytes "w") (.ofInt s.windowW.toInt)
  w.set (bytes "h") (.ofInt s.windowH.toInt)

/-- `AppSettings::toJson`. -/
def toJson (L : Labels) (s : AppSettings) : Value :=
  let v := Value.object []
  let v := v.set (bytes "activeProfile") (.string s.activeProfile)
  let v := v.set (bytes "emergencyStop") (s.emergency.toJson L)
  let v := v.set (bytes "armOnLaunch") (.bool s.armOnLaunch)
  let v := v.set (bytes "startMinimized") (.bool s.startMinimized)
  let v := v.set (bytes "minimizeToTray") (.bool s.minimizeToTray)
  let v := v.set (bytes "closeToTray") (.bool s.closeToTray)
  let v := v.set (bytes "pauseOnOwnWindow") (.bool s.pauseOnOwnWindow)
  let v := v.set (bytes "acceptInjectedTriggers") (.bool s.acceptInjectedTriggers)
  let v := v.set (bytes "fileLogging") (.bool s.fileLogging)
  let v := v.set (bytes "debugLogging") (.bool s.debugLogging)
  let v := v.set (bytes "guardian") (.bool s.guardian)
  let v := v.set (bytes "alwaysOnTop") (.bool s.alwaysOnTop)
  let v := v.set (bytes "language") (.string s.language)
  let v := v.set (bytes "uiLayout") (.ofInt s.uiLayout.toInt)
  v.set (bytes "window") s.windowJson

/-- The chord of the emergency stop that is kept: an invalid one is not taken. -/
def loadEmergency (s : AppSettings) (v : Value) : KeyChord :=
  match v.find (bytes "emergencyStop") with
  | some e => if (KeyChord.fromJson e).valid then KeyChord.fromJson e else s.emergency
  | none => s.emergency

/-- A stored language; `auto` unless it is one there is. -/
def parseLanguage (l : Bytes) : Bytes :=
  if l ≠ bytes "en" ∧ l ≠ bytes "ru" then bytes "auto" else l

/-- `AppSettings::fromJson`. -/
def fromJson (P : Platform) (v : Value) : AppSettings :=
  let s := initial P
  let layout : BitVec 32 := BitVec.ofInt 32 (v.getInt (bytes "uiLayout") 1)
  let w := v.get (bytes "window")
  let s := { s with
    activeProfile := v.getString (bytes "activeProfile") s.activeProfile
    emergency := s.loadEmergency v
    armOnLaunch := v.getBool (bytes "armOnLaunch") s.armOnLaunch
    startMinimized := v.getBool (bytes "startMinimized") s.startMinimized
    minimizeToTray := v.getBool (bytes "minimizeToTray") s.minimizeToTray
    closeToTray := v.getBool (bytes "closeToTray") s.closeToTray
    pauseOnOwnWindow := v.getBool (bytes "pauseOnOwnWindow") s.pauseOnOwnWindow
    acceptInjectedTriggers := v.getBool (bytes "acceptInjectedTriggers") s.acceptInjectedTriggers
    fileLogging := v.getBool (bytes "fileLogging") s.fileLogging
    debugLogging := v.getBool (bytes "debugLogging") s.debugLogging
    guardian := v.getBool (bytes "guardian") s.guardian
    alwaysOnTop := v.getBool (bytes "alwaysOnTop") s.alwaysOnTop
    language := parseLanguage (v.getString (bytes "language") (bytes "auto"))
    windowX := BitVec.ofInt 32 (w.getInt (bytes "x") (-2 ^ 31))
    windowY := BitVec.ofInt 32 (w.getInt (bytes "y") (-2 ^ 31)) }
  -- Window sizes saved by an older layout would open the compact UI far too large.
  if s.uiLayout.toInt ≤ layout.toInt then
    { s with
      windowW := BitVec.ofInt 32 (w.getClamped (bytes "w") 720 620 4000)
      windowH := BitVec.ofInt 32 (w.getClamped (bytes "h") 552 480 4000) }
  else s

end AppSettings

end InfinityClicker
