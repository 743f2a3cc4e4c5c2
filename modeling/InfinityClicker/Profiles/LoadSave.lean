import InfinityClicker.Profiles.Profile

namespace InfinityClicker

open Json

/-!
# Loading normalises and saving is faithful

`fromJson` reads any tree into a profile or settings with every number in its interval, and reads
back what `toJson` writes of these.

* `Profile.Admitted`, `AppSettings.Admitted` — the intervals;
* `makeEngineConfig` — the engine's configuration of a profile;
* `Profile.fromJson_toJson`, `AppSettings.fromJson_toJson` — what is admitted is read back;
* `load_save` — both for what was loaded from any tree.
-/

/-! ### The slowest rate -/

/-- `0.01` is stored a little above a hundredth. -/
theorem minCps_eq : minCps = 5764607523034235 / 2 ^ 59 := by
  have habs : |(1 / 100 : ℚ)| = 1 / 100 := abs_of_pos (by norm_num)
  have hulp : Binary64.ulp (1 / 100) = -59 := by
    rw [Binary64.ulp_of_mem (e := -7) (by rw [habs]; norm_num) (by rw [habs]; norm_num)]
    rfl
  have hscaled : (1 / 100 / 2 ^ (-59 : ℤ) : ℚ) = 2 ^ 59 / 100 := by norm_num
  have hfloor : ⌊(2 ^ 59 / 100 : ℚ)⌋ = 5764607523034234 := by norm_num
  have hround : Binary64.roundEven (2 ^ 59 / 100) = 5764607523034235 := by
    rw [Binary64.roundEven, hfloor]
    norm_num
  rw [minCps, Binary64.nearest, hulp, hscaled, hround]
  norm_num

/-- The least rate is a hundredth or barely more. -/
theorem minCps_bounds : 1 / 100 ≤ minCps ∧ minCps ≤ 1000000 := by
  rw [minCps_eq]
  constructor <;> norm_num

/-! ### Profiles -/

namespace Profile

/-- What a profile is after loading. -/
structure Admitted (p : Profile) : Prop where
  trigger : p.trigger.Admitted
  action : p.action.Admitted
  burstCount : 1 ≤ p.mode.burstCount.toNat ∧ p.mode.burstCount.toNat ≤ 1000000000
  fixedCount : 1 ≤ p.mode.fixedCount.toNat ∧ p.mode.fixedCount.toNat ≤ 1000000000000
  durationMs : 1 ≤ p.mode.durationMs.toNat ∧ p.mode.durationMs.toNat ≤ 86400000
  cps : minCps ≤ p.cps ∧ p.cps ≤ 1000000
  maxBatch : 1 ≤ p.maxBatch.toNat ∧ p.maxBatch.toNat ≤ 256
  maxInflight : 16 ≤ p.maxInflight.toNat ∧ p.maxInflight.toNat ≤ 1000000

/-- Whatever is read, the numbers of the mode are in range. -/
theorem modeFromJson_bounds (m : Value) :
    (1 ≤ (modeFromJson m).burstCount.toNat ∧ (modeFromJson m).burstCount.toNat ≤ 1000000000) ∧
    (1 ≤ (modeFromJson m).fixedCount.toNat ∧ (modeFromJson m).fixedCount.toNat ≤ 1000000000000) ∧
    (1 ≤ (modeFromJson m).durationMs.toNat ∧ (modeFromJson m).durationMs.toNat ≤ 86400000) := by
  have hburst := m.getClamped_mem (bytes "burstCount") 10 (by norm_num : (1 : ℤ) ≤ 1000000000)
  have hfixed := m.getClamped_mem (bytes "fixedCount") 100 (by norm_num : (1 : ℤ) ≤ 1000000000000)
  have hms := m.getClamped_mem (bytes "durationMs") 1000 (by norm_num : (1 : ℤ) ≤ 86400000)
  simp only [modeFromJson, BitVec.toNat_ofInt]
  omega

/-- Whatever is read is a profile the program admits. -/
theorem fromJson_admitted (P : Platform) (v : Value) : (fromJson P v).Admitted where
  trigger := by
    unfold fromJson
    dsimp only
    split
    · exact KeyChord.fromJson_admitted _
    · exact KeyChord.key_admitted P (by decide) (by decide)
  action := by
    unfold fromJson
    dsimp only
    split
    · exact InputAction.fromJson_admitted _
    · exact InputAction.default_admitted
  burstCount := (modeFromJson_bounds _).1
  fixedCount := (modeFromJson_bounds _).2.1
  durationMs := (modeFromJson_bounds _).2.2
  cps := clamp_mem _ minCps_bounds.2
  maxBatch := by
    have h := (v.get (bytes "speed")).getClamped_mem (bytes "maxBatch") 8
      (by norm_num : (1 : ℤ) ≤ 256)
    simp only [fromJson, BitVec.toNat_ofInt]
    omega
  maxInflight := by
    have h := (v.get (bytes "speed")).getClamped_mem (bytes "maxInflight") 2000
      (by norm_num : (16 : ℤ) ≤ 1000000)
    simp only [fromJson, BitVec.toNat_ofInt]
    omega

/-- Equal in every field, chords as `KeyChord.Alike` has it. -/
structure Alike (p q : Profile) : Prop where
  trigger : p.trigger.Alike q.trigger
  actionChord : p.action.chord.Alike q.action.chord
  others : { p with trigger := q.trigger, action := { p.action with chord := q.action.chord } } = q

/-- The mode of an admitted profile is read back. -/
theorem modeFromJson_modeJson {p : Profile} (hp : p.Admitted) :
    modeFromJson p.modeJson = p.mode := by
  have hburst : p.modeJson.getClamped (bytes "burstCount") 10 1 1000000000 =
      p.mode.burstCount.toNat := by
    have h := hp.burstCount
    exact Value.getClamped_ofInt rfl (by rw [abs_lt]; omega) (by omega) (by omega) 10
  have hfixed : p.modeJson.getClamped (bytes "fixedCount") 100 1 1000000000000 =
      p.mode.fixedCount.toNat := by
    have h := hp.fixedCount
    exact Value.getClamped_ofInt rfl (by rw [abs_lt]; omega) (by omega) (by omega) 100
  have hms : p.modeJson.getClamped (bytes "durationMs") 1000 1 86400000 =
      p.mode.durationMs.toNat := by
    have h := hp.durationMs
    exact Value.getClamped_ofInt rfl (by rw [abs_lt]; omega) (by omega) (by omega) 1000
  have htype : p.modeJson.getString (bytes "type") (bytes "toggle") =
      bytes (modeKey p.mode.mode) := rfl
  rw [modeFromJson, hburst, hfixed, hms, htype, parseMode_modeKey]
  simp only [BitVec.ofInt_natCast, BitVec.ofNat_toNat, BitVec.setWidth_eq]

/-- **A profile is read back**, its chords as chords are. -/
theorem fromJson_toJson (P : Platform) (L : Labels) {p : Profile} (hp : p.Admitted) :
    fromJson P (p.toJson L) =
      { p with
        trigger := KeyChord.fromJson (p.trigger.toJson L)
        action := InputAction.fromJson (p.action.toJson L) } := by
  -- Each part is found under its own name.
  have htrigger : (p.toJson L).get (bytes "trigger") = p.triggerJson L := rfl
  have haction : (p.toJson L).find (bytes "action") = some (p.action.toJson L) := rfl
  have hmode : (p.toJson L).get (bytes "mode") = p.modeJson := rfl
  have hspeed : (p.toJson L).get (bytes "speed") = p.speedJson := rfl
  have htiming : (p.toJson L).get (bytes "timing") = p.timingJson := rfl
  have htarget : (p.toJson L).get (bytes "targetApp") = p.targetAppJson := rfl
  have hchord : (p.triggerJson L).find (bytes "chord") = some (p.trigger.toJson L) := rfl
  have hbackend : (p.triggerJson L).getString (bytes "mouseBackend") (bytes "hook") =
      bytes (backendKey p.mouseBackend) := rfl
  have hunit : p.speedJson.getString (bytes "unit") (bytes "cps") =
      bytes (rateKey p.rateUnit) := rfl
  have hcps : clamp (p.speedJson.getNumber (bytes "cps") 20) minCps 1000000 = p.cps :=
    clamp_eq hp.cps.1 hp.cps.2
  have hbatch : p.speedJson.getClamped (bytes "maxBatch") 8 1 256 = p.maxBatch.toNat := by
    have h := hp.maxBatch
    exact Value.getClamped_ofInt rfl (by rw [abs_lt]; omega) (by omega) (by omega) 8
  have hinflight : p.speedJson.getClamped (bytes "maxInflight") 2000 16 1000000 =
      p.maxInflight.toNat := by
    have h := hp.maxInflight
    exact Value.getClamped_ofInt rfl (by rw [abs_lt]; omega) (by omega) (by omega) 2000
  have hprecision : p.timingJson.getString (bytes "precision") (bytes "standard") =
      bytes (precisionKey p.precision) := rfl
  have hprio : p.timingJson.getString (bytes "threadPriority") (bytes "highest") =
      bytes (prioKey p.priority) := rfl
  have hlate : p.timingJson.getString (bytes "latePolicy") (bytes "catchup") =
      bytes (latePolicyKey p.latePolicy) := rfl
  simp only [fromJson, htrigger, haction, hmode, hspeed, htiming, htarget, hchord, hbackend, hunit,
    hcps, hbatch, hinflight, hprecision, hprio, hlate, modeFromJson_modeJson hp,
    parseBackend_backendKey, parseRate_rateKey, parsePrecision_precisionKey, parsePrio_prioKey,
    parseLatePolicy_latePolicyKey, BitVec.ofInt_natCast, BitVec.ofNat_toNat, BitVec.setWidth_eq]
  rfl

/-- What is read back of a profile that was loaded is that profile. -/
theorem alike_fromJson_toJson (P : Platform) (L : Labels) {p : Profile} (hp : p.Admitted) :
    (fromJson P (p.toJson L)).Alike p := by
  have haction := InputAction.fromJson_toJson L hp.action
  rw [fromJson_toJson P L hp, haction]
  exact ⟨KeyChord.alike_fromJson_toJson L hp.trigger,
    KeyChord.alike_fromJson_toJson L hp.action.chord, rfl⟩

end Profile

/-- The engine's configuration. -/
def makeEngineConfig (p : Profile) : EngineConfig where
  action := p.action
  mode := p.mode
  maxMode := p.maxMode
  cps := ⟨clamp p.cps minCps 1000000,
    le_trans minCps_bounds.1 (clamp_mem p.cps minCps_bounds.2).1,
    (clamp_mem p.cps minCps_bounds.2).2⟩
  precision := p.precision
  priority := p.priority
  latePolicy := p.latePolicy
  maxBatchActions := p.maxBatch
  maxInflight := if p.maxBackpressure then p.maxInflight else 0

/-! ### Settings -/

namespace AppSettings

/-- What the settings are after loading. -/
structure Admitted (s : AppSettings) : Prop where
  emergency : s.emergency.Admitted
  valid : s.emergency.valid = true
  language : s.language = bytes "auto" ∨ s.language = bytes "en" ∨ s.language = bytes "ru"
  uiLayout : s.uiLayout = 2
  windowW : 620 ≤ s.windowW.toInt ∧ s.windowW.toInt ≤ 4000
  windowH : 480 ≤ s.windowH.toInt ∧ s.windowH.toInt ≤ 4000

/-- Equal in every field, the chord as `KeyChord.Alike` has it. -/
structure Alike (s t : AppSettings) : Prop where
  emergency : s.emergency.Alike t.emergency
  others : { s with emergency := t.emergency } = t

/-- The emergency stop always has a chord. -/
theorem loadEmergency_admitted (P : Platform) (v : Value) :
    ((initial P).loadEmergency v).Admitted ∧ ((initial P).loadEmergency v).valid = true := by
  have hdefault : (initial P).emergency.Admitted ∧ (initial P).emergency.valid = true :=
    ⟨KeyChord.key_admitted P (by decide) (by decide), rfl⟩
  unfold loadEmergency
  split
  · split
    · next hvalid => exact ⟨KeyChord.fromJson_admitted _, hvalid⟩
    · exact hdefault
  · exact hdefault

/-- A language that was read is one of three. -/
theorem parseLanguage_mem (l : Bytes) : parseLanguage l = bytes "auto" ∨
    parseLanguage l = bytes "en" ∨ parseLanguage l = bytes "ru" := by
  unfold parseLanguage
  split
  · exact Or.inl rfl
  · next h =>
    rw [not_and_or, not_not, not_not] at h
    exact Or.inr h

/-- Each of the three is read as itself. -/
theorem parseLanguage_eq {l : Bytes} (h : l = bytes "auto" ∨ l = bytes "en" ∨ l = bytes "ru") :
    parseLanguage l = l := by
  rcases h with rfl | rfl | rfl <;> rfl

/-- A clamped number survives `int32_t`. -/
theorem toInt_getClamped (w : Value) (k : Bytes) (dflt : ℤ) {lo hi : ℤ} (h : lo ≤ hi)
    (hlo : -2 ^ 31 ≤ lo) (hhi : hi < 2 ^ 31) :
    lo ≤ (BitVec.ofInt 32 (w.getClamped k dflt lo hi)).toInt ∧
      (BitVec.ofInt 32 (w.getClamped k dflt lo hi)).toInt ≤ hi := by
  have hmem := w.getClamped_mem k dflt h
  rw [BitVec.toInt_ofInt_eq_self (by norm_num) (by omega) (by omega)]
  exact hmem

/-- Whatever is read are settings the program admits. -/
theorem fromJson_admitted (P : Platform) (v : Value) : (fromJson P v).Admitted := by
  obtain ⟨hemergency, hvalid⟩ := loadEmergency_admitted P v
  have hlanguage := parseLanguage_mem (v.getString (bytes "language") (bytes "auto"))
  unfold fromJson
  dsimp only
  split
  · exact ⟨hemergency, hvalid, hlanguage, rfl,
      toInt_getClamped _ _ _ (by norm_num) (by norm_num) (by norm_num),
      toInt_getClamped _ _ _ (by norm_num) (by norm_num) (by norm_num)⟩
  · have hw : 620 ≤ (720#32).toInt ∧ (720#32).toInt ≤ 4000 := by decide
    have hh : 480 ≤ (552#32).toInt ∧ (552#32).toInt ≤ 4000 := by decide
    exact ⟨hemergency, hvalid, hlanguage, rfl, hw, hh⟩

/-- A 32-bit number is far inside the exact integers. -/
theorem abs_toInt_lt (x : BitVec 32) : |x.toInt| < 2 ^ 53 := by
  have hlow := BitVec.le_toInt x
  have hhigh := BitVec.toInt_lt (x := x)
  rw [abs_lt]
  omega

/-- The names the settings are stored under. -/
def settingKeys : List String :=
  ["activeProfile", "emergencyStop", "armOnLaunch", "startMinimized", "minimizeToTray",
    "closeToTray", "pauseOnOwnWindow", "acceptInjectedTriggers", "fileLogging", "debugLogging",
    "guardian", "alwaysOnTop", "language", "uiLayout", "window"]

/-- No two settings share a name. -/
theorem settingKeys_nodup : (settingKeys.map bytes).Nodup := by decide +kernel

/-- The settings under their names. -/
def stored (L : Labels) (s : AppSettings) : List (Bytes × Value) :=
  [(bytes "activeProfile", .string s.activeProfile),
    (bytes "emergencyStop", s.emergency.toJson L), (bytes "armOnLaunch", .bool s.armOnLaunch),
    (bytes "startMinimized", .bool s.startMinimized),
    (bytes "minimizeToTray", .bool s.minimizeToTray), (bytes "closeToTray", .bool s.closeToTray),
    (bytes "pauseOnOwnWindow", .bool s.pauseOnOwnWindow),
    (bytes "acceptInjectedTriggers", .bool s.acceptInjectedTriggers),
    (bytes "fileLogging", .bool s.fileLogging), (bytes "debugLogging", .bool s.debugLogging),
    (bytes "guardian", .bool s.guardian), (bytes "alwaysOnTop", .bool s.alwaysOnTop),
    (bytes "language", .string s.language), (bytes "uiLayout", .ofInt s.uiLayout.toInt),
    (bytes "window", s.windowJson)]

/-- The tree of the settings, member by member. -/
theorem toJson_eq (L : Labels) (s : AppSettings) : s.toJson L = .object (s.stored L) :=
  Value.foldl_set (o := s.stored L) settingKeys_nodup

/-- **The settings are read back**, their chord as chords are. -/
theorem fromJson_toJson (P : Platform) (L : Labels) {s : AppSettings} (hs : s.Admitted) :
    fromJson P (s.toJson L) = { s with emergency := KeyChord.fromJson (s.emergency.toJson L) } := by
  have hlayout : (s.toJson L).getInt (bytes "uiLayout") 1 = s.uiLayout.toInt :=
    Value.getInt_ofInt (by rw [toJson_eq]; rfl) (abs_toInt_lt s.uiLayout) 1
  have hui : (initial P).uiLayout = s.uiLayout := hs.uiLayout.symm
  -- Each member is looked up in the tree, and is what was stored there.
  have hfind : (s.toJson L).find (bytes "emergencyStop") = some (s.emergency.toJson L) := by
    rw [toJson_eq]
    rfl
  have hwindow : (s.toJson L).get (bytes "window") = s.windowJson := by
    rw [toJson_eq]
    rfl
  have hvalid : (KeyChord.fromJson (s.emergency.toJson L)).valid = true := by
    have hdevice : (KeyChord.fromJson (s.emergency.toJson L)).device = s.emergency.device := by
      rw [KeyChord.fromJson_toJson L hs.emergency]
      split <;> rfl
    rw [KeyChord.valid, hdevice]
    exact hs.valid
  have hemergency : (initial P).loadEmergency (s.toJson L) =
      KeyChord.fromJson (s.emergency.toJson L) := by
    rw [loadEmergency, hfind]
    exact if_pos hvalid
  have hlanguage : (s.toJson L).getString (bytes "language") (bytes "auto") = s.language := by
    rw [toJson_eq]
    rfl
  have hx : s.windowJson.getInt (bytes "x") (-2 ^ 31) = s.windowX.toInt :=
    Value.getInt_ofInt rfl (abs_toInt_lt s.windowX) _
  have hy : s.windowJson.getInt (bytes "y") (-2 ^ 31) = s.windowY.toInt :=
    Value.getInt_ofInt rfl (abs_toInt_lt s.windowY) _
  have hw : s.windowJson.getClamped (bytes "w") 720 620 4000 = s.windowW.toInt := by
    have h := hs.windowW
    exact Value.getClamped_ofInt rfl (abs_toInt_lt s.windowW) h.1 h.2 720
  have hh : s.windowJson.getClamped (bytes "h") 552 480 4000 = s.windowH.toInt := by
    have h := hs.windowH
    exact Value.getClamped_ofInt rfl (abs_toInt_lt s.windowH) h.1 h.2 552
  unfold fromJson
  dsimp only
  rw [hlayout, hui, BitVec.ofInt_toInt, if_pos (le_refl _), hemergency, hlanguage,
    parseLanguage_eq hs.language, hwindow, hx, hy, hw, hh, toJson_eq]
  simp only [BitVec.ofInt_toInt]
  rfl

/-- The loader reads admitted settings back as they were. -/
theorem alike_fromJson_toJson (P : Platform) (L : Labels) {s : AppSettings} (hs : s.Admitted) :
    (fromJson P (s.toJson L)).Alike s := by
  rw [fromJson_toJson P L hs]
  exact ⟨KeyChord.alike_fromJson_toJson L hs.emergency, rfl⟩

end AppSettings

/-- **Loading normalises and saving is faithful.** Whatever tree a profile or the settings are
    loaded from, every number is in its interval and the emergency stop has a chord; and what they
    are saved as is loaded as the same again. -/
theorem load_save (P : Platform) (L : Labels) (v : Value) :
    ((Profile.fromJson P v).Admitted ∧ 1 / 100 ≤ (Profile.fromJson P v).cps ∧
      (Profile.fromJson P ((Profile.fromJson P v).toJson L)).Alike (Profile.fromJson P v)) ∧
    ((AppSettings.fromJson P v).Admitted ∧ (AppSettings.fromJson P v).emergency.valid = true ∧
      (AppSettings.fromJson P ((AppSettings.fromJson P v).toJson L)).Alike
        (AppSettings.fromJson P v)) := by
  have hprofile := Profile.fromJson_admitted P v
  have hsettings := AppSettings.fromJson_admitted P v
  refine ⟨⟨hprofile, ?_, Profile.alike_fromJson_toJson P L hprofile⟩, hsettings, hsettings.valid,
    AppSettings.alike_fromJson_toJson P L hsettings⟩
  exact le_trans minCps_bounds.1 hprofile.cps.1

end InfinityClicker
