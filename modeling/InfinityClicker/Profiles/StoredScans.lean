import InfinityClicker.Input.PressMetadata
import InfinityClicker.Profiles.Fields

namespace InfinityClicker

open Presses Machines InputSender Json

/-!
# Stored scan codes and the release of their keys

`KeyChord.fromJson` bounds the code of a chord and masks its modifiers, and takes any 16-bit
value for the scan code.  The word a press is recorded with has one byte for it.

* `mainInput_press` — what `compileAction` presses is built from an admitted chord;
* `release_addresses_iff` — the UP events of `releaseAll` and `releaseHeldFrom` are those of the
  press exactly when the scan code is one byte;
* `release_addresses_other` — a loaded chord where they are not.
-/

/-- A layout's make code is one byte. -/
theorem vkToScan_lt (P : Platform) (vk : BitVec 16) : (vkToScan P vk).1.toNat < 256 := by
  have hbyte : ∀ sc : BitVec 32, ((sc &&& 0xFF#32).setWidth 16).toNat < 256 := by
    intro sc
    have hle : (sc &&& 0xFF#32).toNat ≤ 0xFF := by
      rw [BitVec.toNat_and]
      exact Nat.and_le_right
    rw [BitVec.toNat_setWidth]
    omega
  exact hbyte _

/-- The press of an action on a key is built from a chord with the same key, and a scan code that
    is the stored one or one byte. -/
theorem mainInput_press (P : Platform) (a : InputAction) (tag : BitVec 64)
    (hc : a.chord.Admitted) (hk : a.chord.device = .keyboard) :
    ∃ (c : KeyChord) (mode : KeyInjectMode),
      c.Admitted ∧ c.device = .keyboard ∧ c.code = a.chord.code ∧
      mainInput P a tag true = makeKeyInput c.code c.scan c.extended false mode tag ∧
      (c.scan.toNat < 256 ↔ a.chord.scan.toNat < 256) := by
  have hkeyboard : a.chord.isKeyboard = true := by rw [KeyChord.isKeyboard, hk]; rfl
  have hmouse : a.chord.isMouse = false := by rw [KeyChord.isMouse, hk]; rfl
  have hadmitted : ∀ scan ext,
      ({ a.chord with scan := scan, extended := ext } : KeyChord).Admitted :=
    fun _ _ => ⟨hc.mods, hc.mouse, hc.keyboard⟩
  obtain ⟨ext, mode, hmain⟩ : ∃ ext mode, mainInput P a tag true = makeKeyInput a.chord.code
      (if a.chord.scan = 0 then (vkToScan P a.chord.code).1 else a.chord.scan) ext false mode
      tag := by
    simp only [mainInput, hkeyboard, hmouse, Bool.true_and, Bool.false_eq_true, if_false,
      beq_iff_eq, Bool.not_true]
    by_cases hzero : a.chord.scan = 0
    · rw [if_pos hzero, if_pos hzero]
      exact ⟨_, _, rfl⟩
    · rw [if_neg hzero, if_neg hzero]
      exact ⟨_, _, rfl⟩
  refine ⟨{ a.chord with
    scan := if a.chord.scan = 0 then (vkToScan P a.chord.code).1 else a.chord.scan
    extended := ext }, mode, hadmitted _ _, hk, rfl, hmain, ?_⟩
  show (if a.chord.scan = 0 then (vkToScan P a.chord.code).1 else a.chord.scan).toNat < 256 ↔ _
  by_cases hzero : a.chord.scan = 0
  · have hbyte := vkToScan_lt P a.chord.code
    rw [if_pos hzero, hzero]
    exact iff_of_true hbyte (by decide)
  · rw [if_neg hzero]

/-- **A release addresses the key that was pressed, exactly when its scan code is one byte.**

    `ki` is the press of an admitted keyboard chord, which the record took while the key was up;
    nothing among the events it has seen since lets the key up, and the calls of the sender and
    what `SendInput` accepted of each are arbitrary.  The UP events for the key that `releaseAll`
    and `releaseHeldFrom` build are those of the press if and only if the scan code is below 256;
    with at most 64 keys and buttons held each of the two builds one. -/
theorem release_addresses_iff {c : KeyChord} (hc : c.Admitted) (hk : c.device = .keyboard)
    (mode : KeyInjectMode) (tag : BitVec 64) {ki : KeybdInput}
    (hki : makeKeyInput c.code c.scan c.extended false mode tag = .keyboard ki)
    {ops : List SenderOp} {pre post : List INPUT}
    (hrec : (fresh (some createdShared)).recorded ops = pre ++ .keyboard ki :: post)
    (hfree : hold nothing (edgesOf pre) (.key (c.code.setWidth 8)) = false)
    (hkept : (Control.key (c.code.setWidth 8), false) ∉ edgesOf post) :
    let s := senderMachine.after (fresh (some createdShared)) ops
    ∃ h, s.shared = some h ∧
      ∀ ups, (∃ r retry, ups = firstList (s.releaseAll r retry).calls) ∨
          (∃ r, ups = firstList (releaseHeldFrom h r).2) →
        (∀ ku : KeybdInput, .keyboard ku ∈ ups → ku.wVk.setWidth 8 = c.code.setWidth 8 →
          (ku.LetsUp ki ↔ c.scan.toNat < 256)) ∧
        (s.heldCount ≤ releaseRoom →
          ∃ ku : KeybdInput, .keyboard ku ∈ ups ∧ ku.wVk.setWidth 8 = c.code.setWidth 8) := by
  intro s
  have hcode := hc.keyboard hk
  have hki' := hki
  rw [makeKeyInput_eq] at hki'
  have hevent := INPUT.keyboard.inj hki'
  have hvk : ki.wVk = c.code := by rw [← hevent]
  have hdown : hasFlag ki.dwFlags KEYEVENTF_KEYUP = false := by
    rw [← hevent]
    exact (hasFlag_keyFlags _ _ _).1
  have hle : c.code.toNat ≤ 0xFE := hcode.2
  have hne : c.code.setWidth 8 ≠ 0#8 := by
    intro hzero
    have htoNat := congrArg BitVec.toNat hzero
    have hpos : c.code.toNat ≠ 0 := fun h => hcode.1 (BitVec.eq_of_toNat_eq h)
    simp only [BitVec.toNat_setWidth, BitVec.toNat_ofNat] at htoNat
    omega
  obtain ⟨hheld, hword⟩ := press_recorded hrec (by rwa [hvk]) hdown (by rwa [hvk])
    (by rwa [hvk])
  rw [hvk] at hheld hword
  obtain ⟨h, hs, -, -, -, -, hsame⟩ := crash_path_eq_releaseAll ops
  refine ⟨h, hs, ?_⟩
  intro ups hups
  -- The two routines build one list.
  have hlist : ups = s.releases := by
    rcases hups with ⟨r, retry, rfl⟩ | ⟨r, rfl⟩
    · exact releaseAll_firstList s r retry
    · rw [hsame r {} {}]
      exact releaseAll_firstList s {} {}
  rw [hlist]
  constructor
  · intro ku hku hsameKey
    have hup := mem_releases_key hku
    rw [hsameKey] at hup
    exact keyUpFor_letsUp_iff hcode.2 c.extended mode tag hki hword hup
  · intro hroom
    obtain ⟨ku, hku, hkey⟩ := keyUpFor_key s.keyMeta (c.code.setWidth 8)
    have hup := keyUpFor_mem_releases hroom hheld
    rw [hku] at hup
    exact ⟨ku, hup, hkey⟩

/-- The key A, pressed by its make code. -/
def aKey : KeyChord := { device := .keyboard, code := 0x41, scan := 0x1E }

/-- A press of A on its own is let up by its own UP. -/
theorem aKey_released :
    ∃ h, (senderMachine.after (fresh (some createdShared))
        [.send [makeKeyInput 0x41 0x1E false false .scanCode kTagInfClick] {}]).shared = some h ∧
      ∀ r, ∀ ku : KeybdInput, .keyboard ku ∈ firstList (releaseHeldFrom h r).2 →
        ku.wVk.setWidth 8 = (0x41 : Vk) → ku.LetsUp ⟨0x41, 0x1E, 0x8, kTagInfClick⟩ := by
  have hc : aKey.Admitted := ⟨by decide, by decide, by decide⟩
  have hpress : makeKeyInput aKey.code aKey.scan aKey.extended false .scanCode kTagInfClick =
      .keyboard ⟨0x41, 0x1E, 0x8, kTagInfClick⟩ := by decide
  have hrec : (fresh (some createdShared)).recorded
      [.send [makeKeyInput 0x41 0x1E false false .scanCode kTagInfClick] {}] =
      [] ++ .keyboard ⟨0x41, 0x1E, 0x8, kTagInfClick⟩ :: [] := by decide
  obtain ⟨h, hs, hups⟩ :=
    release_addresses_iff hc rfl .scanCode kTagInfClick hpress hrec rfl (by simp)
  refine ⟨h, hs, ?_⟩
  intro r ku hku hkey
  exact ((hups _ (.inr ⟨r, rfl⟩)).1 ku hku hkey).mpr (by decide)

/-- The object of the key A with the scan code 0x11E. -/
def wideScan : Value :=
  .object [(bytes "device", .string (bytes "keyboard")), (bytes "code", .number 65),
    (bytes "scan", .number 286)]

/-- **A loaded scan code above one byte is not let up**: A is pressed with the scan code 0x11E, and
    the release has 0x1E. -/
theorem release_addresses_other :
    ¬ ∀ (v : Value) (mode : KeyInjectMode) (tag : BitVec 64) (ki : KeybdInput),
      (KeyChord.fromJson v).device = .keyboard →
      makeKeyInput (KeyChord.fromJson v).code (KeyChord.fromJson v).scan
        (KeyChord.fromJson v).extended false mode tag = .keyboard ki →
      ∀ (ops : List SenderOp) (pre post : List INPUT),
        (fresh (some createdShared)).recorded ops = pre ++ .keyboard ki :: post →
        hold nothing (edgesOf pre) (.key (ki.wVk.setWidth 8)) = false →
        (Control.key (ki.wVk.setWidth 8), false) ∉ edgesOf post →
        ∀ (r retry : SendResult) (ku : KeybdInput),
          .keyboard ku ∈ firstList ((senderMachine.after (fresh (some createdShared))
            ops).releaseAll r retry).calls →
          ku.wVk.setWidth 8 = (ki.wVk.setWidth 8 : Vk) → ku.LetsUp ki := by
  intro hall
  have hlets := hall wideScan .scanCode kTagInfClick ⟨0x41, 0x11E, 0x8, kTagInfClick⟩
    (by decide +kernel) (by decide +kernel)
    [.send [.keyboard ⟨0x41, 0x11E, 0x8, kTagInfClick⟩] {}] [] [] rfl rfl (by simp) {} {}
    ⟨0x41, 0x1E, 0xA, kTagInfClick⟩ (by decide +kernel) rfl
  exact absurd hlets.wScan (by decide)

end InfinityClicker
