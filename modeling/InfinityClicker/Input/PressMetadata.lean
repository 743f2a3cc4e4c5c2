import InfinityClicker.Input.CrashPath

namespace InfinityClicker

open Presses Machines

/-!
# The metadata of a press

`track` packs a key press into one word, and `releaseAll` and `releaseHeldFrom` build the UP from
that word alone.

* `INPUT.packed` — the three parts of the word;
* `keyUpFor_letsUp_iff` — the UP is the press's own exactly when its scan code is one byte;
* `InputSender.recorded` — the events the record has seen, over any calls of the sender;
* `RealKeys.press_kept` — the word of a press stays until the key is let up;
* `InputSender.press_recorded` — after any calls the record has the word of a key that is down;
* `InputSender.mem_releases_key` — the UP events that `releaseAll` builds from it.
-/

/-! ### Key events -/

/-- The flags of a key event. -/
def keyFlags (up extended scanCode : Bool) : BitVec 32 :=
  (if scanCode then KEYEVENTF_SCANCODE else 0) |||
    ((if extended then KEYEVENTF_EXTENDEDKEY else 0) ||| (if up then KEYEVENTF_KEYUP else 0))

theorem hasFlag_keyFlags (up extended scanCode : Bool) :
    hasFlag (keyFlags up extended scanCode) KEYEVENTF_KEYUP = up ∧
      hasFlag (keyFlags up extended scanCode) KEYEVENTF_EXTENDEDKEY = extended ∧
      hasFlag (keyFlags up extended scanCode) KEYEVENTF_SCANCODE = scanCode := by
  revert up extended scanCode
  decide

/-- The event `makeKeyInput` builds; a key without a make code goes by its VK. -/
theorem makeKeyInput_eq (vk scan : BitVec 16) (extended up : Bool) (mode : KeyInjectMode)
    (tag : BitVec 64) :
    makeKeyInput vk scan extended up mode tag =
      .keyboard { wVk := vk, wScan := scan,
                  dwFlags := keyFlags up extended (decide (mode = .scanCode ∧ scan ≠ 0)),
                  dwExtraInfo := tag } := by
  have hflags : ∀ up extended scanCode : Bool,
      (let f : BitVec 32 := 0
        let f := if up then f ||| KEYEVENTF_KEYUP else f
        let f := if extended then f ||| KEYEVENTF_EXTENDEDKEY else f
        if scanCode then f ||| KEYEVENTF_SCANCODE else f) = keyFlags up extended scanCode := by
    decide
  rw [← hflags, makeKeyInput]
  simp only [decide_eq_true_eq]

/-- The UP `ku` is that of the press `ki`: the same key by its VK and its scan code, with the same
    extended flag, injected the same way. -/
structure KeybdInput.LetsUp (ku ki : KeybdInput) : Prop where
  up : hasFlag ku.dwFlags KEYEVENTF_KEYUP = true
  wVk : ku.wVk = ki.wVk
  wScan : ku.wScan = ki.wScan
  extended : hasFlag ku.dwFlags KEYEVENTF_EXTENDEDKEY = hasFlag ki.dwFlags KEYEVENTF_EXTENDEDKEY
  scanCode : hasFlag ku.dwFlags KEYEVENTF_SCANCODE = hasFlag ki.dwFlags KEYEVENTF_SCANCODE

/-! ### The packed word -/

namespace InputSender

/-- The low byte of the scan code is kept, the extended flag, and the way the key is injected. -/
theorem packMeta_parts (ki : KeybdInput) :
    packMeta ki &&& 0xFF = ki.wScan &&& 0xFF ∧
      (packMeta ki &&& 0x100#16 != 0) = hasFlag ki.dwFlags KEYEVENTF_EXTENDEDKEY ∧
      (if packMeta ki &&& 0x200#16 ≠ 0 then KeyInjectMode.virtualKey else .scanCode) =
        if hasFlag ki.dwFlags KEYEVENTF_SCANCODE then .scanCode else .virtualKey := by
  have hbyte : ∀ mask : BitVec 16, ki.wScan &&& 0xFF &&& mask = ki.wScan &&& (0xFF &&& mask) :=
    fun mask => BitVec.and_assoc _ _ _
  rw [packMeta]
  simp only [BitVec.and_or_distrib_right, hbyte]
  cases hasFlag ki.dwFlags KEYEVENTF_EXTENDEDKEY <;>
    cases hasFlag ki.dwFlags KEYEVENTF_SCANCODE <;> simp

/-- A scan code is its low byte when it is one byte. -/
theorem low_byte_iff (scan : BitVec 16) : scan &&& 0xFF = scan ↔ scan.toNat < 256 := by
  have hlow : (scan &&& 0xFF).toNat = scan.toNat % 256 := by
    rw [BitVec.toNat_and]
    exact Nat.and_two_pow_sub_one_eq_mod scan.toNat 8
  rw [← BitVec.toNat_inj, hlow]
  omega

/-- **The UP built from the word of a press is the press's own exactly when the scan code is one
    byte.** -/
theorem keyUpFor_letsUp_iff {vk scan : BitVec 16} (hvk : vk ≤ 0xFE) (extended : Bool)
    (mode : KeyInjectMode) (tag : BitVec 64) {ki : KeybdInput}
    (hki : makeKeyInput vk scan extended false mode tag = .keyboard ki) {keyMeta : Vk → BitVec 16}
    (hmeta : keyMeta (vk.setWidth 8) = packMeta ki) {ku : KeybdInput}
    (hku : keyUpFor keyMeta (vk.setWidth 8) = .keyboard ku) :
    ku.LetsUp ki ↔ scan.toNat < 256 := by
  obtain ⟨hbyte, hext, hmode⟩ := packMeta_parts ki
  have hback : (vk.setWidth 8).setWidth 16 = vk := by
    rw [← BitVec.toNat_inj]
    have hle : vk.toNat ≤ 0xFE := hvk
    simp only [BitVec.toNat_setWidth]
    omega
  obtain ⟨-, hkext, hksc⟩ := hasFlag_keyFlags false extended (decide (mode = .scanCode ∧ scan ≠ 0))
  rw [makeKeyInput_eq] at hki
  obtain rfl := (INPUT.keyboard.inj hki).symm
  simp only [keyUpFor, hmeta, hback, hbyte, hext, hmode, hkext, hksc, makeKeyInput_eq] at hku
  obtain rfl := (INPUT.keyboard.inj hku).symm
  rw [← low_byte_iff]
  constructor
  · intro h
    exact h.wScan
  · intro hlow
    refine ⟨(hasFlag_keyFlags _ _ _).1, rfl, hlow, ?_, ?_⟩
    · rw [(hasFlag_keyFlags _ _ _).2.1, hkext]
    · -- A scan code of one byte is zero when its low byte is.
      rw [(hasFlag_keyFlags _ _ _).2.2, hksc, hlow]
      by_cases hsc : mode = .scanCode ∧ scan ≠ 0
      · simp [hsc]
      · simp

/-! ### What the record has seen -/

/-- The events a call makes the record see: those `SendInput` accepts, and after a retry all the
    releases. -/
def recordedBy (s : InputSender) : SenderOp → List INPUT
  | .send ins r => ins.take (r.accepted ins.length)
  | .releaseAll r _ =>
    s.releases.take (r.accepted s.releases.length) ++
      if r.accepted s.releases.length = s.releases.length then [] else s.releases

/-- The events the record sees over a list of calls. -/
def recorded (s : InputSender) : List SenderOp → List INPUT
  | [] => []
  | op :: ops => s.recordedBy op ++ (senderMachine.next s op).recorded ops

theorem Knows.publishIfDirty {s : InputSender} {k : RealKeys} (h : s.Knows k) :
    s.publishIfDirty.Knows k := by
  rw [InputSender.publishIfDirty]
  split
  · exact ⟨h.held, h.keyMeta⟩
  · exact h

theorem Knows.send {s : InputSender} {k : RealKeys} (h : s.Knows k) (ins : List INPUT)
    (r : SendResult) :
    (s.send ins r).sender.Knows (k.acceptAll (ins.take (r.accepted ins.length))) := by
  by_cases hnil : ins = []
  · subst hnil
    have hsame : (s.send [] r).sender = s := by simp [InputSender.send]
    rw [hsame, List.take_nil]
    exact h
  · rw [s.send_sender r hnil]
    exact (h.tracked ins r).publishIfDirty

/-- **The record is exact about what it has seen**, whatever becomes of the releases. -/
theorem Knows.call {s : InputSender} {k : RealKeys} (h : s.Knows k) (op : SenderOp) :
    (senderMachine.next s op).Knows (k.acceptAll (s.recordedBy op)) := by
  cases op with
  | send ins r => exact h.send ins r
  | releaseAll r retry =>
    by_cases hno : s.NoRetry (.releaseAll r retry)
    · have hall : r.accepted s.releases.length = s.releases.length := hno
      show (s.releaseAll r retry).sender.Knows _
      rw [s.releaseAll_of_noRetry r retry hno, recordedBy, if_pos hall, List.append_nil]
      exact h.send s.releases r
    · have hpart : ¬ r.accepted s.releases.length = s.releases.length := hno
      have hsent := (h.send s.releases r).trackAll s.releases
      show (s.releaseAll r retry).sender.Knows _
      rw [(s.releaseAll_of_retry r retry hno).1, recordedBy, if_neg hpart,
        RealKeys.acceptAll_append]
      exact ⟨hsent.held, hsent.keyMeta⟩

theorem Knows.after {s : InputSender} {k : RealKeys} (h : s.Knows k) (ops : List SenderOp) :
    (senderMachine.after s ops).Knows (k.acceptAll (s.recorded ops)) := by
  induction ops generalizing s k with
  | nil => exact h
  | cons op ops ih =>
    rw [recorded, RealKeys.acceptAll_append]
    exact ih (h.call op)

end InputSender

/-! ### A press and what comes after it -/

namespace RealKeys

/-- An event that does not let the key up changes nothing about a key that is down. -/
theorem accept_kept {k : RealKeys} {vk : Vk} (hdown : k.held (.key vk) = true) {i : INPUT}
    (hup : (Control.key vk, false) ∉ inputEdges i) :
    (k.accept i).held (.key vk) = true ∧ (k.accept i).press vk = k.press vk := by
  constructor
  · show hold k.held (inputEdges i) (.key vk) = true
    exact hold_of_up_notMem hdown hup
  · cases i with
    | hardware => rfl
    | mouse mi => rfl
    | keyboard ki =>
      simp only [accept]
      split
      · rfl
      · next hnew =>
        rw [Function.update_of_ne]
        rintro rfl
        exact hnew (.inr (.inr hdown))

/-- **The word of a press stays until the key is let up.** -/
theorem press_kept {k : RealKeys} {vk : Vk} (hdown : k.held (.key vk) = true) {ins : List INPUT}
    (hup : (Control.key vk, false) ∉ edgesOf ins) :
    (k.acceptAll ins).held (.key vk) = true ∧ (k.acceptAll ins).press vk = k.press vk := by
  induction ins generalizing k with
  | nil => exact ⟨hdown, rfl⟩
  | cons i ins ih =>
    rw [edgesOf_cons, List.mem_append, not_or] at hup
    obtain ⟨hone, hsame⟩ := accept_kept hdown hup.1
    obtain ⟨hrest, hrestSame⟩ := ih hone hup.2
    exact ⟨hrest, hrestSame.trans hsame⟩

/-- A press of a key that is up. -/
theorem accept_press {k : RealKeys} {ki : KeybdInput} (hvk : ki.wVk.setWidth 8 ≠ 0#8)
    (hdown : hasFlag ki.dwFlags KEYEVENTF_KEYUP = false)
    (hup : k.held (.key (ki.wVk.setWidth 8)) = false) :
    (k.accept (.keyboard ki)).held (.key (ki.wVk.setWidth 8)) = true ∧
      (k.accept (.keyboard ki)).press (ki.wVk.setWidth 8) = InputSender.packMeta ki := by
  simp [accept, inputEdges, hvk, hdown, hup, edge_same]

end RealKeys

namespace InputSender

/-- **After any calls the record has the word of a press** that it took while the key was up and
    that nothing has let up since. -/
theorem press_recorded {ops : List SenderOp} {pre post : List INPUT} {ki : KeybdInput}
    (hrec : (fresh (some createdShared)).recorded ops = pre ++ .keyboard ki :: post)
    (hvk : ki.wVk.setWidth 8 ≠ 0#8) (hdown : hasFlag ki.dwFlags KEYEVENTF_KEYUP = false)
    (hfree : hold nothing (edgesOf pre) (.key (ki.wVk.setWidth 8)) = false)
    (hkept : (Control.key (ki.wVk.setWidth 8), false) ∉ edgesOf post) :
    (senderMachine.after (fresh (some createdShared)) ops).heldKeys (ki.wVk.setWidth 8) = true ∧
      (senderMachine.after (fresh (some createdShared)) ops).keyMeta (ki.wVk.setWidth 8) =
        packMeta ki := by
  have hknows := fresh_synced.knows.after ops
  have hfree' : (RealKeys.acceptAll {} pre).held (.key (ki.wVk.setWidth 8)) = false := by
    rw [RealKeys.acceptAll_held]
    exact hfree
  obtain ⟨hheld, hword⟩ := RealKeys.accept_press hvk hdown hfree'
  obtain ⟨hheld', hword'⟩ := RealKeys.press_kept hheld hkept
  have hevents : (RealKeys.ofCalls []).acceptAll ((fresh (some createdShared)).recorded ops) =
      ((RealKeys.acceptAll {} pre).accept (.keyboard ki)).acceptAll post := by
    rw [hrec, RealKeys.acceptAll_append]
    rfl
  rw [hevents] at hknows
  have hkeys : (senderMachine.after (fresh (some createdShared)) ops).heldKeys
      (ki.wVk.setWidth 8) = true := by
    show (senderMachine.after (fresh (some createdShared)) ops).held
      (.key (ki.wVk.setWidth 8)) = true
    rw [hknows.held]
    exact hheld'
  exact ⟨hkeys, by rw [hknows.keyMeta _ hkeys, hword', hword]⟩

/-- The UP for a key is an event on that key. -/
theorem keyUpFor_key (keyMeta : Vk → BitVec 16) (vk : Vk) :
    ∃ ku : KeybdInput, keyUpFor keyMeta vk = .keyboard ku ∧ ku.wVk.setWidth 8 = vk := by
  rw [keyUpFor, makeKeyInput_eq]
  refine ⟨_, rfl, ?_⟩
  show (vk.setWidth 16).setWidth 8 = vk
  rw [BitVec.setWidth_setWidth_of_le vk (by omega), BitVec.setWidth_eq]

/-- The UP events for keys are those of the keys recorded as held, each from its word. -/
theorem mem_releases_key {s : InputSender} {ku : KeybdInput} (h : .keyboard ku ∈ s.releases) :
    keyUpFor s.keyMeta (ku.wVk.setWidth 8) = .keyboard ku := by
  rcases List.mem_append.mp (List.mem_of_mem_take h) with hkey | hbutton
  · obtain ⟨vk, -, heq⟩ := List.mem_map.mp hkey
    obtain ⟨ku', hku', hvk⟩ := keyUpFor_key s.keyMeta vk
    rw [hku'] at heq
    obtain rfl := INPUT.keyboard.inj heq
    rw [hvk, hku']
  · obtain ⟨b, -, heq⟩ := List.mem_map.mp hbutton
    unfold mouseUpFor makeMouseInput at heq
    split at heq <;> exact absurd heq (by simp)

/-- With room for all of them every key recorded as held has its UP. -/
theorem keyUpFor_mem_releases {s : InputSender} (hroom : s.heldCount ≤ releaseRoom) {vk : Vk}
    (hvk : s.heldKeys vk = true) : keyUpFor s.keyMeta vk ∈ s.releases := by
  have hall : s.releases = (vks.filter s.heldKeys).map (keyUpFor s.keyMeta) ++
      ((List.finRange 5).filter s.heldMouse).map mouseUpFor :=
    List.take_of_length_le (by simpa [heldCount] using hroom)
  rw [hall]
  exact List.mem_append_left _ (List.mem_map_of_mem (List.mem_filter.mpr ⟨mem_vks vk, hvk⟩))

end InputSender

end InfinityClicker
