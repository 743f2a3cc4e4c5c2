import InfinityClicker.Core.Json
import InfinityClicker.Scheduler.Engine

namespace InfinityClicker

open Json

/-!
# Members of settings objects

How the settings' numbers, words and chords are read from an object and written into one.

* `Value.getClamped` — an integer setting, clamped to its interval;
* `KeyChord.toJson` / `KeyChord.fromJson`, `InputAction.toJson` / `InputAction.fromJson`;
* `KeyChord.Admitted`, `InputAction.Admitted` — what the readers return, whatever they read;
* `KeyChord.fromJson_toJson`, `InputAction.fromJson_toJson` — what is admitted is read back.
-/

/-! ### Numbers -/

namespace Json.Value

/-- `std::clamp<int64_t>(v.getInt(k, dflt), lo, hi)`. -/
def getClamped (v : Value) (k : Bytes) (dflt lo hi : ℤ) : ℤ := clamp (v.getInt k dflt) lo hi

/-- An integer of 53 bits is what it was stored as. -/
theorem asInt_ofInt {z : ℤ} (hz : |z| < 2 ^ 53) (dflt : ℤ) : (ofInt z).asInt dflt = z := by
  obtain ⟨hlow, hhigh⟩ := abs_lt.mp hz
  rw [ofInt, Binary64.nearest_intCast hz, asInt, toInt64_intCast]
  exact if_pos ⟨by omega, by omega⟩

variable {v : Value} {k : Bytes}

/-- A member that holds a small integer is read as that integer. -/
theorem getInt_ofInt {z : ℤ} (hfind : v.find k = some (ofInt z)) (hz : |z| < 2 ^ 53) (dflt : ℤ) :
    v.getInt k dflt = z := by
  rw [getInt, hfind]
  exact asInt_ofInt hz dflt

/-- A clamped member lies in its range. -/
theorem getClamped_mem (v : Value) (k : Bytes) (dflt : ℤ) {lo hi : ℤ} (h : lo ≤ hi) :
    lo ≤ v.getClamped k dflt lo hi ∧ v.getClamped k dflt lo hi ≤ hi :=
  clamp_mem (v.getInt k dflt) h

/-- What lies in its interval is read back. -/
theorem getClamped_ofInt {z lo hi : ℤ} (hfind : v.find k = some (ofInt z)) (hz : |z| < 2 ^ 53)
    (hlo : lo ≤ z) (hhi : z ≤ hi) (dflt : ℤ) : v.getClamped k dflt lo hi = z := by
  rw [getClamped, getInt_ofInt hfind hz, clamp_eq hlo hhi]

/-! ### Objects built member by member -/

/-- Setting a member that is not there puts it at the end. -/
theorem setMember_append {o : List (Bytes × Value)} (hk : k ∉ o.map Prod.fst) (x : Value) :
    setMember k x o = o ++ [(k, x)] := by
  induction o with
  | nil => rfl
  | cons m o ih =>
    rw [List.map_cons, List.mem_cons, not_or] at hk
    rw [setMember, if_neg (Ne.symm hk.1), ih hk.2, List.cons_append]

/-- Members set one after another under different keys are the object. -/
theorem foldl_set {o : List (Bytes × Value)} (hkeys : (o.map Prod.fst).Nodup) :
    o.foldl (fun v m => set v m.1 m.2) (Value.object []) = .object o := by
  induction o using List.reverseRecOn with
  | nil => rfl
  | append_singleton o m ih =>
    rw [List.map_append, List.map_singleton, List.nodup_append] at hkeys
    have hnew : m.1 ∉ o.map Prod.fst := by
      intro hmem
      exact hkeys.2.2 m.1 hmem m.1 (by simp) rfl
    rw [List.foldl_append, ih hkeys.1, List.foldl_cons, List.foldl_nil, set, members,
      setMember_append hnew]

end Json.Value

/-! ### Chords -/

/-- What keys and buttons are called in the user's language and under the active layout. -/
structure Labels where
  /-- `tr("(none)")`. -/
  none : Bytes
  keyName : KeyChord → Bytes

/-- `modsToString`: the names of the modifiers, each with a plus behind it. -/
def modsToString (mods : BitVec 8) : Bytes :=
  (if mods &&& ModCtrl ≠ 0 then bytes "Ctrl + " else []) ++
    (if mods &&& ModShift ≠ 0 then bytes "Shift + " else []) ++
    (if mods &&& ModAlt ≠ 0 then bytes "Alt + " else []) ++
    (if mods &&& ModWin ≠ 0 then bytes "Win + " else [])

namespace KeyChord

/-- `KeyChord::key`: scan code and extended flag from the layout. -/
def key (P : Platform) (vk : BitVec 16) (mods : BitVec 8 := 0) : KeyChord :=
  { device := .keyboard, code := vk, scan := (vkToScan P vk).1, extended := (vkToScan P vk).2,
    mods := mods }

/-- `KeyChord::name`: the modifiers and the key, without a modifier standing for itself. -/
def name (L : Labels) (c : KeyChord) : Bytes :=
  if c.device = .none then L.none
  else
    let m := if c.device = .keyboard then c.mods &&& ~~~modBitForVk c.code else c.mods
    modsToString m ++ L.keyName c

/-- The text of a device in a file. -/
def deviceKey : Device → String
  | .mouse => "mouse"
  | .keyboard => "keyboard"
  | .none => "none"

/-- The device of a text; any other text is none. -/
def parseDevice (d : Bytes) : Device :=
  if d = bytes "mouse" then .mouse else if d = bytes "keyboard" then .keyboard else .none

/-- `KeyChord::toJson`: the members of a keyboard chord are written for a keyboard only. -/
def toJson (L : Labels) (c : KeyChord) : Value :=
  let v := Value.object []
  let v := v.set (bytes "device") (.string (bytes (deviceKey c.device)))
  let v := v.set (bytes "code") (.ofInt c.code.toNat)
  let v :=
    if c.device = .keyboard then
      (v.set (bytes "scan") (.ofInt c.scan.toNat)).set (bytes "extended") (.bool c.extended)
    else v
  let v := v.set (bytes "mods") (.ofInt c.mods.toNat)
  -- The name is informational only.
  v.set (bytes "name") (.string (c.name L))

/-- `MouseButton::Count`. -/
def buttonCount : BitVec 16 := 9

/-- `KeyChord::fromJson`: codes that no device has make the chord none. -/
def fromJson (v : Value) : KeyChord :=
  let device := parseDevice (v.getString (bytes "device") (bytes "none"))
  let code := BitVec.ofInt 16 (v.getInt (bytes "code") 0)
  let device := if device = .mouse ∧ buttonCount ≤ code then .none else device
  let device := if device = .keyboard ∧ (code = 0 ∨ 0xFE < code) then .none else device
  { device := device
    code := code
    scan := BitVec.ofInt 16 (v.getInt (bytes "scan") 0)
    extended := v.getBool (bytes "extended") false
    mods := (BitVec.ofInt 64 (v.getInt (bytes "mods") 0) &&& 0x0F).setWidth 8 }

/-- What a chord is after loading: its code is one of its device, its modifiers are the four there
    are. -/
structure Admitted (c : KeyChord) : Prop where
  mods : c.mods &&& 0x0F = c.mods
  mouse : c.device = .mouse → c.code < buttonCount
  keyboard : c.device = .keyboard → c.code ≠ 0 ∧ c.code ≤ 0xFE

/-- Equal by `operator==`, and for keyboard chords in the scan code too. -/
def Alike (c o : KeyChord) : Prop := c.same o = true ∧ (c.device = .keyboard → c.scan = o.scan)

/-- Whatever is read is a chord the program admits. -/
theorem fromJson_admitted (v : Value) : (fromJson v).Admitted := by
  constructor
  · have hmods : (fromJson v).mods =
        (BitVec.ofInt 64 (v.getInt (bytes "mods") 0)).setWidth 8 &&& 0x0F#8 := by
      show (BitVec.ofInt 64 (v.getInt (bytes "mods") 0) &&& 0x0F).setWidth 8 = _
      rw [BitVec.setWidth_and]
      rfl
    rw [hmods]
    show _ &&& 0x0F#8 &&& 0x0F#8 = _
    rw [BitVec.and_assoc, BitVec.and_self]
  · intro hd
    simp only [fromJson] at hd ⊢
    split_ifs at hd
    simp_all
  · intro hd
    simp only [fromJson] at hd ⊢
    split_ifs at hd
    simp_all

/-- A key that is on the keyboard gives an admitted chord. -/
theorem key_admitted (P : Platform) {vk : BitVec 16} {mods : BitVec 8} (hvk : vk ≠ 0 ∧ vk ≤ 0xFE)
    (hmods : mods &&& 0x0F = mods) : (key P vk mods).Admitted :=
  ⟨hmods, fun h => by simp [key] at h, fun _ => hvk⟩

/-- A chord of one button is admitted. -/
theorem mouse_admitted (b : MouseButton) : (mouse b).Admitted :=
  ⟨by simp [mouse], fun _ => by cases b <;> decide, fun h => by simp [mouse] at h⟩

/-- The text of a device names it. -/
theorem parseDevice_deviceKey (d : Device) : parseDevice (bytes (deviceKey d)) = d := by
  cases d <;> rfl

section Saved

variable (L : Labels) {c : KeyChord}

/-- The device member of a chord's own tree. -/
theorem getString_device :
    (c.toJson L).getString (bytes "device") (bytes "none") = bytes (deviceKey c.device) := by
  cases hd : c.device <;> simp only [toJson, hd] <;> rfl

/-- The code member of a chord's own tree. -/
theorem getInt_code : (c.toJson L).getInt (bytes "code") 0 = c.code.toNat := by
  have hlt := c.code.isLt
  refine Value.getInt_ofInt ?_ (by rw [abs_lt]; omega) 0
  cases hd : c.device <;> simp only [toJson, hd] <;> rfl

/-- The modifier member of a chord's own tree. -/
theorem getInt_mods : (c.toJson L).getInt (bytes "mods") 0 = c.mods.toNat := by
  have hlt := c.mods.isLt
  refine Value.getInt_ofInt ?_ (by rw [abs_lt]; omega) 0
  cases hd : c.device <;> simp only [toJson, hd] <;> rfl

/-- The scan code and the extended flag are saved for keyboard chords only. -/
theorem getInt_scan : (c.toJson L).getInt (bytes "scan") 0 =
    if c.device = .keyboard then (c.scan.toNat : ℤ) else 0 := by
  have hlt := c.scan.isLt
  split
  · next hd =>
    refine Value.getInt_ofInt ?_ (by rw [abs_lt]; omega) 0
    simp only [toJson, hd, if_true]
    rfl
  · next hd =>
    simp only [toJson, hd, if_false]
    rfl

/-- The extended member of a chord's own tree. -/
theorem getBool_extended : (c.toJson L).getBool (bytes "extended") false =
    if c.device = .keyboard then c.extended else false := by
  split
  · next hd =>
    simp only [toJson, hd, if_true]
    rfl
  · next hd =>
    simp only [toJson, hd, if_false]
    rfl

/-- **A chord is read back**, of another device than the keyboard without what is not saved. -/
theorem fromJson_toJson (hc : c.Admitted) : fromJson (c.toJson L) =
    if c.device = .keyboard then c else { c with scan := 0, extended := false } := by
  have hmods : (c.mods.setWidth 64 &&& 0x0F).setWidth 8 = c.mods := by
    rw [BitVec.setWidth_and, BitVec.setWidth_setWidth_of_le _ (by norm_num), BitVec.setWidth_eq]
    exact hc.mods
  have hmouse : ¬(c.device = .mouse ∧ buttonCount ≤ c.code) := by
    rintro ⟨hd, hle⟩
    exact absurd (hc.mouse hd) (BitVec.not_lt.mpr hle)
  have hkeyboard : ¬(c.device = .keyboard ∧ (c.code = 0 ∨ 0xFE < c.code)) := by
    rintro ⟨hd, hzero | hlt⟩
    · exact (hc.keyboard hd).1 hzero
    · exact absurd (hc.keyboard hd).2 (BitVec.not_le.mpr hlt)
  simp only [fromJson, getString_device, getInt_code, getInt_mods, getInt_scan, getBool_extended,
    parseDevice_deviceKey, BitVec.ofInt_natCast, BitVec.ofNat_toNat, BitVec.setWidth_eq, hmouse,
    hkeyboard, if_false, hmods]
  by_cases hd : c.device = .keyboard
  · rw [if_pos hd, if_pos hd, if_pos hd, BitVec.ofInt_natCast, BitVec.ofNat_toNat,
      BitVec.setWidth_eq]
  · simp [hd]

/-- What is read back of an admitted chord presses the same. -/
theorem alike_fromJson_toJson (hc : c.Admitted) : (fromJson (c.toJson L)).Alike c := by
  rw [fromJson_toJson L hc]
  split
  · exact ⟨by simp [same], fun _ => rfl⟩
  · next hd => exact ⟨by simp [same, hd], fun h => absurd h hd⟩

end Saved

end KeyChord

/-! ### Actions -/

namespace InputAction

/-- The text of an injection mode in a file. -/
def keyModeKey (m : KeyInjectMode) : String := if m = .scanCode then "scancode" else "vk"

/-- The injection mode of a text; any other text is by scan code. -/
def parseKeyMode (s : Bytes) : KeyInjectMode := if s = bytes "vk" then .virtualKey else .scanCode

/-- `InputAction::toJson`. -/
def toJson (L : Labels) (a : InputAction) : Value :=
  let v := Value.object []
  let v := v.set (bytes "chord") (a.chord.toJson L)
  let v := v.set (bytes "downTimeUs") (.ofInt a.downTimeUs)
  let v := v.set (bytes "repeat") (.ofInt a.repeatCount)
  let v := v.set (bytes "repeatGapUs") (.ofInt a.repeatGapUs)
  let v := v.set (bytes "wheelDelta") (.ofInt a.wheelDelta.toInt)
  v.set (bytes "keyMode") (.string (bytes (keyModeKey a.keyMode)))

/-- `InputAction::fromJson`: numbers are brought into range. -/
def fromJson (v : Value) : InputAction where
  chord :=
    match v.find (bytes "chord") with
    | some c => KeyChord.fromJson c
    | none => KeyChord.mouse .left
  downTimeUs := (v.getClamped (bytes "downTimeUs") 0 0 10000000).toNat
  repeatCount := (v.getClamped (bytes "repeat") 1 1 3).toNat
  repeatGapUs := (v.getClamped (bytes "repeatGapUs") 0 0 10000000).toNat
  wheelDelta := BitVec.ofInt 32 (v.getClamped (bytes "wheelDelta") 120 1 1200)
  keyMode := parseKeyMode (v.getString (bytes "keyMode") (bytes "scancode"))

/-- What an action is after loading: every number in its interval. -/
structure Admitted (a : InputAction) : Prop where
  chord : a.chord.Admitted
  downTimeUs : a.downTimeUs ≤ 10000000
  repeatCount : 1 ≤ a.repeatCount ∧ a.repeatCount ≤ 3
  repeatGapUs : a.repeatGapUs ≤ 10000000
  wheelDelta : 1 ≤ a.wheelDelta.toInt ∧ a.wheelDelta.toInt ≤ 1200

/-- Whatever is read is an action the program admits. -/
theorem fromJson_admitted (v : Value) : (fromJson v).Admitted where
  chord := by
    unfold fromJson
    dsimp only
    split
    · exact KeyChord.fromJson_admitted _
    · exact KeyChord.mouse_admitted .left
  downTimeUs := by
    have h := v.getClamped_mem (bytes "downTimeUs") 0 (by norm_num : (0 : ℤ) ≤ 10000000)
    show (v.getClamped (bytes "downTimeUs") 0 0 10000000).toNat ≤ 10000000
    omega
  repeatCount := by
    have h := v.getClamped_mem (bytes "repeat") 1 (by norm_num : (1 : ℤ) ≤ 3)
    show 1 ≤ (v.getClamped (bytes "repeat") 1 1 3).toNat ∧
      (v.getClamped (bytes "repeat") 1 1 3).toNat ≤ 3
    omega
  repeatGapUs := by
    have h := v.getClamped_mem (bytes "repeatGapUs") 0 (by norm_num : (0 : ℤ) ≤ 10000000)
    show (v.getClamped (bytes "repeatGapUs") 0 0 10000000).toNat ≤ 10000000
    omega
  wheelDelta := by
    have h := v.getClamped_mem (bytes "wheelDelta") 120 (by norm_num : (1 : ℤ) ≤ 1200)
    have hint := BitVec.toInt_ofInt_eq_self (by norm_num : 0 < 32)
      (by omega : -2 ^ (32 - 1) ≤ v.getClamped (bytes "wheelDelta") 120 1 1200) (by omega)
    show 1 ≤ (BitVec.ofInt 32 (v.getClamped (bytes "wheelDelta") 120 1 1200)).toInt ∧
      (BitVec.ofInt 32 (v.getClamped (bytes "wheelDelta") 120 1 1200)).toInt ≤ 1200
    rw [hint]
    exact h

/-- The action no file is needed for. -/
theorem default_admitted : Admitted {} :=
  ⟨KeyChord.mouse_admitted .left, by decide, by decide, by decide, by decide⟩

/-- The text of an injection mode names it. -/
theorem parseKeyMode_keyModeKey (m : KeyInjectMode) : parseKeyMode (bytes (keyModeKey m)) = m := by
  cases m <;> rfl

/-- **An action is read back**, its chord as chords are. -/
theorem fromJson_toJson (L : Labels) {a : InputAction} (ha : a.Admitted) :
    fromJson (a.toJson L) = { a with chord := KeyChord.fromJson (a.chord.toJson L) } := by
  have hdown : (a.toJson L).getClamped (bytes "downTimeUs") 0 0 10000000 = a.downTimeUs := by
    have hle := ha.downTimeUs
    exact Value.getClamped_ofInt rfl (by rw [abs_lt]; omega) (by omega) (by omega) 0
  have hrepeat : (a.toJson L).getClamped (bytes "repeat") 1 1 3 = a.repeatCount := by
    have hle := ha.repeatCount
    exact Value.getClamped_ofInt rfl (by rw [abs_lt]; omega) (by omega) (by omega) 1
  have hgap : (a.toJson L).getClamped (bytes "repeatGapUs") 0 0 10000000 = a.repeatGapUs := by
    have hle := ha.repeatGapUs
    exact Value.getClamped_ofInt rfl (by rw [abs_lt]; omega) (by omega) (by omega) 0
  have hwheel : (a.toJson L).getClamped (bytes "wheelDelta") 120 1 1200 = a.wheelDelta.toInt := by
    have hle := ha.wheelDelta
    exact Value.getClamped_ofInt rfl (by rw [abs_lt]; omega) hle.1 hle.2 120
  have hchord : (a.toJson L).find (bytes "chord") = some (a.chord.toJson L) := rfl
  have hmode : (a.toJson L).getString (bytes "keyMode") (bytes "scancode") =
      bytes (keyModeKey a.keyMode) := rfl
  rw [fromJson, hdown, hrepeat, hgap, hwheel, hchord, hmode, parseKeyMode_keyModeKey,
    BitVec.ofInt_toInt]
  rfl

end InputAction

end InfinityClicker
