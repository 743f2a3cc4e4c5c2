import InfinityClicker.App.Capture
import InfinityClicker.Input.ProgramTiming
import InfinityClicker.Profiles.Reload
import InfinityClicker.Trigger.Edges
import InfinityClicker.Trigger.Repeats

namespace InfinityClicker

open Machines

/-!
# What a captured chord is good for

A capture makes a chord of one key or button and of the modifiers held with it.  The same chord is
then matched against the hooks' events, written to the profiles and compiled into an action, by
code that reads its fields in other ways.

* `KeyChord.MadeOf` — the chord a capture makes of a source;
* `TriggerEngine.captured_madeOf` — the handlers capture nothing else;
* `KeyCapture.Sourced` — nor is anything else on its way to a binding;
* `KeyChord.Works` — what the rest of the program makes of such a chord;
* `captured_chords_work` — over every run of the two threads.
-/

/-! ### Sources and chords -/

/-- The key or button an event presses. -/
def TriggerInput.pressed? : TriggerInput → Option Source
  | .key true vk _ ext _ _ => some (.key vk ext)
  | .mouse b true _ _ _ => some (.button b)
  | _ => none

namespace TriggerInput

variable {i : TriggerInput}

/-- Only a key going down presses a key. -/
theorem eq_key_down {vk : Vk} {ext : Bool} (h : i.pressed? = some (.key vk ext)) :
    ∃ scan qpc armed, i = .key true vk scan ext qpc armed := by
  unfold pressed? at h
  split at h <;> simp_all

/-- Only a button going down presses a button. -/
theorem eq_mouse_down {b : MouseButton} (h : i.pressed? = some (.button b)) :
    ∃ onOwn qpc armed, i = .mouse b true onOwn qpc armed := by
  unfold pressed? at h
  split at h <;> simp_all

/-- Only a key coming up releases a key. -/
theorem eq_key_up {vk : Vk} {ext : Bool} (h : i.released? = some (.key vk ext)) :
    ∃ scan qpc armed, i = .key false vk scan ext qpc armed := by
  unfold released? at h
  split at h <;> simp_all

/-- Only a button coming up releases a button. -/
theorem eq_mouse_up {b : MouseButton} (h : i.released? = some (.button b)) :
    ∃ onOwn qpc armed, i = .mouse b false onOwn qpc armed := by
  unfold released? at h
  split at h <;> simp_all

end TriggerInput

/-- A hook reports keys by the codes there are, 1 to 254. -/
def TriggerInput.OnKeyboard : TriggerInput → Prop
  | .key _ vk _ _ _ _ => vk ≠ 0 ∧ vk ≠ 0xFF
  | _ => True

instance : DecidablePred TriggerInput.OnKeyboard
  | .key _ _ _ _ _ _ => inferInstanceAs (Decidable (_ ∧ _))
  | .mouse _ _ _ _ _ | .setConfig _ | .applyPendingConfig | .beginCapture _ | .cancelCapture =>
    isTrue trivial

/-- A modifier that is reported without its side. -/
def Source.sideless : Source → Bool
  | .key vk _ => [VK_CONTROL, VK_SHIFT, VK_MENU].contains (vk.setWidth 16)
  | .button _ => false

/-- The chord is of the source, with its code, and asks for modifiers that can be held. -/
structure KeyChord.MadeOf (c : KeyChord) (src : Source) : Prop where
  mods : c.pressable = true
  code : match src with
    | .key vk ext => c.device = .keyboard ∧ c.code = vk.setWidth 16 ∧
        (c.code = VK_RETURN → c.extended = ext)
    | .button b => ∃ mods, c = .mouse b mods

namespace TriggerEngine

/-- The press is the emergency chord's. -/
def emergencyTakes (e : TriggerEngine) : Source → Bool
  | .key vk ext => e.stopsOn vk ext
  | .button b => mouseMatches e.cfg.emergency b && e.modsHeld e.cfg.emergency

/-- The source is up.  No button is asked whether it is. -/
def isUp (e : TriggerEngine) : Source → Bool
  | .key vk _ => !e.physKey vk
  | .button _ => true

end TriggerEngine

/-- What the program makes of a chord that stands for the source. -/
structure KeyChord.Works (P : Platform) (c : KeyChord) (src : Source) : Prop where
  /-- The source is one of the chord's. -/
  isOf : src.isOf c = true
  /-- Unless it was reported without a side, all of them have its key code, or are its button; of
      the two Enter keys it is one alone. -/
  only : src.sideless = false → ∀ src' : Source, src'.isOf c = true →
    src'.shares src = true ∧ (c.code = VK_RETURN → src' = src)
  /-- The loader admits it, and the files keep all of it. -/
  admitted : c.Admitted
  reloaded : c.reloaded = c
  /-- As the trigger it presses and releases. -/
  triggers : ∀ e : TriggerEngine, e.cfg.trigger = c → e.captureState = .off → e.trigDown = false →
    e.modsHeld c = true → e.emergencyTakes src = false → ∀ press release : TriggerInput,
      press.pressed? = some src → release.released? = some src →
        triggerEdges (triggerMachine.trace e [press, release]) = [true, false]
  /-- As the emergency chord it stops. -/
  stops : ∀ e : TriggerEngine, e.cfg.emergency = c → e.captureState = .off →
    e.modsHeld c = true → e.isUp src = true → ∀ press : TriggerInput,
      press.pressed? = some src → .call .onEmergency ∈ triggerMachine.out e press
  /-- As the action's chord it can be sent. -/
  sends : ∀ (a : InputAction) (tag : BitVec 64), a.chord = c → (compileAction P a tag).ok = true

/-! ### What the handlers capture -/

namespace TriggerEngine

variable {e : TriggerEngine}

/-- The key remembered for a lone modifier is one, if there is any. -/
def RemembersModifier (e : TriggerEngine) : Prop :=
  e.captureModVk = 0 ∨ isModifierVk (e.captureModVk.setWidth 16) = true

/-- A key event leaves only a modifier to be remembered. -/
theorem handleKey_remembers (h : e.RemembersModifier) (down : Bool) (vk : Vk) (scan : BitVec 16)
    (ext : Bool) (qpc : ℤ) (armed : Bool) :
    (e.handleKey down vk scan ext qpc armed).engine.RemembersModifier := by
  by_cases hcap : e.captureState = .off
  · rw [RemembersModifier, (handleKey_off hcap down vk scan ext qpc armed).captureModVk]
    exact h
  · cases down with
    | true =>
      cases hmod : isModifierVk (vk.setWidth 16) with
      | true =>
        obtain ⟨-, hvk, -⟩ := handleKey_modifier hcap hmod scan ext qpc armed
        rw [RemembersModifier, hvk]
        split
        · exact h
        · exact .inr hmod
      -- A chord with a key of its own forgets the modifier.
      | false => exact .inl (handleKey_captured hcap hmod scan ext qpc armed).2
    | false =>
      by_cases hvk : e.captureModVk = vk
      · exact .inl (handleKey_lone hcap hvk scan ext qpc armed).2.1
      · rw [RemembersModifier, (handleKey_up_other hcap hvk scan ext qpc armed).captureModVk]
        exact h

/-- A mouse event leaves only a modifier to be remembered. -/
theorem handleMouse_remembers (h : e.RemembersModifier) (b : MouseButton) (down onOwn : Bool)
    (qpc : ℤ) (armed : Bool) :
    (e.handleMouse b down onOwn qpc armed).engine.RemembersModifier := by
  by_cases htakes : down = true ∧ e.takesPress b onOwn
  · obtain ⟨rfl, htakes⟩ := htakes
    rw [RemembersModifier, (handleMouse_taken htakes qpc armed).2]
    exact h
  · have hsame := handleMouse_untaken (fun hdown ht => htakes ⟨hdown, ht⟩) qpc armed
    rw [RemembersModifier, hsame.captureModVk]
    exact h

/-- A configuration remembers no other key. -/
theorem applyPendingConfig_remembers (h : e.RemembersModifier) :
    e.applyPendingConfig.RemembersModifier := by
  rw [applyPendingConfig]
  split <;> exact h

/-- Whatever the trigger is given, it remembers only a modifier. -/
theorem next_remembers (h : e.RemembersModifier) (i : TriggerInput) :
    (triggerMachine.next e i).RemembersModifier := by
  cases i with
  | key down vk scan ext qpc armed => exact handleKey_remembers h down vk scan ext qpc armed
  | mouse b down onOwn qpc armed => exact handleMouse_remembers h b down onOwn qpc armed
  | applyPendingConfig => exact applyPendingConfig_remembers h
  | setConfig cfg => exact h
  | beginCapture allowMouse => exact h
  | cancelCapture => exact h

/-- The modifiers physically held can be held. -/
theorem physMods_pressable {c : KeyChord} (h : c.mods = e.physMods) : c.pressable = true := by
  rw [KeyChord.pressable, h, physMods_and]
  exact beq_self_eq_true _

/-- A chord captured at a key event is made of that key. -/
theorem handleKey_madeOf (h : e.RemembersModifier) {down : Bool} {vk : Vk} {scan : BitVec 16}
    {ext : Bool} {qpc : ℤ} {armed : Bool} {c : KeyChord}
    (hc : c ∈ capturedChords (e.handleKey down vk scan ext qpc armed).events) :
    c.MadeOf (.key vk ext) := by
  by_cases hcap : e.captureState = .off
  -- Outside a capture no chord is handed on.
  · rw [(handleKey_off hcap down vk scan ext qpc armed).captured] at hc
    exact absurd hc (by simp)
  rw [capturedChords_events, handleKey, if_pos (by exact hcap), captureKey] at hc
  cases down with
  | true =>
    -- A key that is no modifier: the chord has all its fields.
    rw [if_pos rfl] at hc
    split at hc
    · simp [capturedChords] at hc
    · simp only [capturedChords, List.map_cons, List.map_nil, List.filterMap_cons,
        List.filterMap_nil, List.mem_singleton] at hc
      subst hc
      exact ⟨physMods_pressable rfl, rfl, rfl, fun _ => rfl⟩
  | false =>
    -- A modifier on its own: the extended flag is that of its press, and none is Enter.
    have hlone : c ∈ capturedChords
        (((e.setPhysKey vk false).captureModifier vk).calls.map .call) := by
      rw [if_neg (by simp)] at hc
      dsimp only at hc
      split at hc <;> exact hc
    rw [captureModifier] at hlone
    split at hlone
    · next hvk =>
      simp only [capturedChords, List.map_cons, List.map_nil, List.filterMap_cons,
        List.filterMap_nil, List.mem_singleton] at hlone
      subst hlone
      refine ⟨physMods_pressable rfl, rfl, rfl, fun henter => ?_⟩
      -- The key that went up is the one remembered, which no press of Enter ever is.
      have hmod : vk = 0 ∨ isModifierVk (vk.setWidth 16) = true := hvk ▸ h
      rcases hmod with rfl | hmod
      · have hzero : (0 : Vk).setWidth 16 ≠ VK_RETURN := by decide
        exact absurd henter hzero
      · rw [show vk.setWidth 16 = VK_RETURN from henter] at hmod
        exact absurd hmod (by decide)
    · simp [capturedChords] at hlone

/-- A chord captured at a mouse event is made of that button. -/
theorem handleMouse_madeOf {b : MouseButton} {down onOwn : Bool} {qpc : ℤ} {armed : Bool}
    {c : KeyChord} (hc : c ∈ capturedChords (e.handleMouse b down onOwn qpc armed).events) :
    c.MadeOf (.button b) := by
  by_cases htakes : down = true ∧ e.takesPress b onOwn
  · obtain ⟨rfl, htakes⟩ := htakes
    rw [capturedChords_events, handleMouse, if_pos htakes.1, if_neg htakes.2, if_pos rfl] at hc
    have hone : c = .mouse b e.physMods := by simpa [capturedChords] using hc
    exact ⟨physMods_pressable (by rw [hone]; rfl), _, hone⟩
  · rw [(handleMouse_untaken (fun hdown ht => htakes ⟨hdown, ht⟩) qpc armed).captured] at hc
    exact absurd hc (by simp)

/-! ### What a chord does that stands for a source -/

/-- One more key down leaves the modifiers held. -/
theorem modsHeld_press {c : KeyChord} (h : e.modsHeld c = true) (vk : Vk) :
    (e.setPhysKey vk true).modsHeld c = true := by
  have hkeys : ∀ l r : BitVec 16, (e.physKey (l.setWidth 8) || e.physKey (r.setWidth 8)) = true →
      ((e.setPhysKey vk true).physKey (l.setWidth 8) ||
        (e.setPhysKey vk true).physKey (r.setWidth 8)) = true := by
    intro l r hheld
    have hone : ∀ k, e.physKey k = true → (e.setPhysKey vk true).physKey k = true := by
      intro k hk
      show Function.update e.physKey vk true k = true
      rw [Function.update_apply]
      split
      · rfl
      · exact hk
    rw [Bool.or_eq_true] at hheld ⊢
    exact hheld.imp (hone _) (hone _)
  -- The bits of fewer keys are among those of more: eight truth values decide it.
  have hbits : ∀ p₁ p₂ p₃ p₄ q₁ q₂ q₃ q₄ : Bool, (p₁ = true → q₁ = true) →
      (p₂ = true → q₂ = true) → (p₃ = true → q₃ = true) → (p₄ = true → q₄ = true) →
      (((if p₁ then ModCtrl else 0) ||| (if p₂ then ModShift else 0) |||
        (if p₃ then ModAlt else 0) ||| (if p₄ then ModWin else 0)) |||
      ((if q₁ then ModCtrl else 0) ||| (if q₂ then ModShift else 0) |||
        (if q₃ then ModAlt else 0) ||| (if q₄ then ModWin else 0))) =
      ((if q₁ then ModCtrl else 0) ||| (if q₂ then ModShift else 0) |||
        (if q₃ then ModAlt else 0) ||| (if q₄ then ModWin else 0)) := by decide
  have hmore : e.physMods ||| (e.setPhysKey vk true).physMods = (e.setPhysKey vk true).physMods :=
    hbits _ _ _ _ _ _ _ _ (hkeys _ _) (hkeys _ _) (hkeys _ _) (hkeys _ _)
  rw [modsHeld, beq_iff_eq] at h ⊢
  rw [← hmore]
  generalize (e.setPhysKey vk true).physMods = more
  ext i hi
  have hbit := congrArg (fun m => m[i]) h
  simp only [BitVec.getElem_and, BitVec.getElem_or] at hbit ⊢
  cases hm : c.mods[i] <;> simp_all

/-- The trigger's key goes down and up again. -/
theorem key_press_release {vk : Vk} {ext : Bool} (hof : keyMatches e.cfg.trigger vk ext = true)
    (hcap : e.captureState = .off) (hoff : e.trigDown = false)
    (hmods : e.modsHeld e.cfg.trigger = true) (hfree : e.stopsOn vk ext = false)
    (scan scan' : BitVec 16) (qpc qpc' : ℤ) (armed armed' : Bool) :
    triggerEdges (triggerMachine.trace e
      [.key true vk scan ext qpc armed, .key false vk scan' ext qpc' armed']) = [true, false] := by
  -- Neither the emergency stop nor an open press stands in the way of the trigger's branch.
  have hbranch : e.downBranch false (.key vk ext) = .presses := by
    have hstops : (!e.physKey vk && keyMatches e.cfg.emergency vk ext &&
        (e.setPhysKey vk true).modsHeld e.cfg.emergency) = false := hfree
    simp [downBranch, hcap, hstops, hof, hoff, modsHeld_press hmods vk]
  have hdown := e.handleKey_down vk scan ext qpc armed false
  rw [hbranch] at hdown
  obtain ⟨-, -, hpress⟩ := hdown
  have hsame := handleKey_off hcap true vk scan ext qpc armed
  have hup := handleKey_up (e := (e.handleKey true vk scan ext qpc armed).engine) vk scan' ext qpc'
    armed' (hsame.captureState.trans hcap)
  -- The press has left the trigger down, so its key's up is the release.
  rw [UpSpec, if_pos (by
    rw [hpress.trigDown, hpress.cfg, Bool.true_and]
    exact hof)] at hup
  show triggerEdges ((e.handleKey true vk scan ext qpc armed).events ++
    (((e.handleKey true vk scan ext qpc armed).engine.handleKey false vk scan' ext qpc'
      armed').events ++ [])) = _
  rw [List.append_nil, triggerEdges_append, hpress.edges, hup.edges]
  rfl

/-- The trigger's button goes down and up again, or its notch comes. -/
theorem mouse_press_release {b : MouseButton} (hof : mouseMatches e.cfg.trigger b = true)
    (hcap : e.captureState = .off) (hoff : e.trigDown = false)
    (hmods : e.modsHeld e.cfg.trigger = true)
    (hfree : (mouseMatches e.cfg.emergency b && e.modsHeld e.cfg.emergency) = false)
    (onOwn onOwn' : Bool) (qpc qpc' : ℤ) (armed armed' : Bool) :
    triggerEdges (triggerMachine.trace e
      [.mouse b true onOwn qpc armed, .mouse b false onOwn' qpc' armed']) = [true, false] := by
  show triggerEdges ((e.handleMouse b true onOwn qpc armed).events ++
    (((e.handleMouse b true onOwn qpc armed).engine.handleMouse b false onOwn' qpc'
      armed').events ++ [])) = _
  rw [List.append_nil, triggerEdges_append]
  cases hb : b.wheel with
  | true =>
    -- A notch is the whole press, and its up is nothing.
    have hnotch : e.handleMouse b true onOwn qpc armed =
        { engine := e
          calls := [.onTriggerDown qpc, .onTriggerUp qpc]
          swallow := e.cfg.suppressTrigger && armed } := by
      simp [handleMouse, hcap, hb, hfree, hof, hmods]
    have hnothing : (e.handleMouse b false onOwn' qpc' armed').calls = [] := by
      simp [handleMouse, hcap, hb, hof]
    rw [hnotch, triggerEdges_events, triggerEdges_events, hnothing]
    rfl
  | false =>
    have hbranch : e.downBranch onOwn (.button b) = .presses := by
      simp [downBranch, hcap, hfree, hof, hoff, hmods]
    have hdown := e.handleMouse_down hb onOwn qpc armed
    rw [hbranch] at hdown
    obtain ⟨-, -, hpress⟩ := hdown
    have huntaken : ¬ e.takesPress b onOwn := fun htakes => by simp [takesPress, hcap] at htakes
    have hsame := handleMouse_untaken (fun (_ : true = true) => huntaken) qpc armed
    have hup := handleMouse_up (e := (e.handleMouse b true onOwn qpc armed).engine) hb onOwn' qpc'
      armed' (by rw [hsame.captureState, hcap]; simp)
    rw [UpSpec, if_pos (by
      rw [hpress.trigDown, hpress.cfg, Bool.true_and]
      exact hof)] at hup
    rw [hpress.edges, hup.edges]
    rfl

/-- The emergency chord's key goes down. -/
theorem key_stops {vk : Vk} {ext : Bool} (hof : keyMatches e.cfg.emergency vk ext = true)
    (hcap : e.captureState = .off) (hup : e.physKey vk = false)
    (hmods : e.modsHeld e.cfg.emergency = true) (scan : BitVec 16) (qpc : ℤ) (armed : Bool) :
    (e.handleKey true vk scan ext qpc armed).calls = [.onEmergency] := by
  have hheld := modsHeld_press hmods vk
  simp [handleKey, hcap, hup, hof, hheld]

/-- The emergency chord's button goes down, or its notch comes. -/
theorem mouse_stops {b : MouseButton} (hof : mouseMatches e.cfg.emergency b = true)
    (hcap : e.captureState = .off) (hmods : e.modsHeld e.cfg.emergency = true) (onOwn : Bool)
    (qpc : ℤ) (armed : Bool) :
    (e.handleMouse b true onOwn qpc armed).calls = [.onEmergency] := by
  simp [handleMouse, hcap, hof, hmods]

/-- The two Enter keys are told apart by the extended flag. -/
theorem keyMatches_enter {c : KeyChord} {vk : Vk} {ext : Bool} (henter : c.code = VK_RETURN)
    (h : keyMatches c vk ext = true) : ext = c.extended := by
  have hplain : c.code ≠ VK_CONTROL ∧ c.code ≠ VK_SHIFT ∧ c.code ≠ VK_MENU := by
    rw [henter]
    decide
  simp only [keyMatches, if_neg hplain.1, if_neg hplain.2.1, if_neg hplain.2.2, if_pos henter,
    Bool.and_eq_true, beq_iff_eq] at h
  exact h.2.2

/-- A key that stands for a chord has the chord's code. -/
theorem keyMatches_code {c : KeyChord} {vk vk' : Vk} {ext ext' : Bool}
    (hcode : c.code = vk.setWidth 16)
    (hside : (Source.key vk ext).sideless = false)
    (hof : keyMatches c vk' ext' = true) : vk' = vk := by
  -- A code of a hook has eight bits, and the chord keeps all of them.
  have hinj : vk'.setWidth 16 = vk.setWidth 16 → vk' = vk := fun h => by
    have hn := congrArg BitVec.toNat h
    simp only [BitVec.toNat_setWidth] at hn
    apply BitVec.eq_of_toNat_eq
    omega
  simp only [Source.sideless, ← hcode, List.contains_cons, List.contains_nil, Bool.or_false,
    Bool.or_eq_false_iff, beq_eq_false_iff_ne] at hside
  obtain ⟨hcontrol, hshift, hmenu⟩ := hside
  simp only [keyMatches, if_neg hcontrol, if_neg hshift, if_neg hmenu, Bool.and_eq_true] at hof
  obtain ⟨-, hof⟩ := hof
  split at hof
  -- Enter is matched with its extended flag too, any other key by its code alone.
  · next hreturn =>
    rw [Bool.and_eq_true, beq_iff_eq] at hof
    exact hinj (hof.1.trans (hreturn.symm.trans hcode))
  · exact hinj ((beq_iff_eq.mp hof).symm.trans hcode)

/-- The key a chord was made of stands for it. -/
theorem keyMatches_self {c : KeyChord} {vk : Vk} {ext : Bool} (hdevice : c.device = .keyboard)
    (hcode : c.code = vk.setWidth 16) (hext : c.code = VK_RETURN → c.extended = ext) :
    keyMatches c vk ext = true := by
  have hkeyboard : c.isKeyboard = true := by simp [KeyChord.isKeyboard, hdevice]
  rw [keyMatches, hkeyboard, Bool.true_and, ← hcode]
  split
  · next h => simp [h]
  · split
    · next h => simp [h]
    · split
      · next h => simp [h]
      · split
        · next h => simp [h, hext h]
        · exact beq_self_eq_true _

end TriggerEngine

open TriggerEngine

namespace KeyChord.MadeOf

variable {c : KeyChord} {src : Source}

/-- The source a chord was made of stands for it. -/
theorem isOf (h : c.MadeOf src) : src.isOf c = true := by
  cases src with
  | key vk ext =>
    obtain ⟨hdevice, hcode, hext⟩ := h.code
    exact keyMatches_self hdevice hcode hext
  | button b =>
    obtain ⟨mods, rfl⟩ := h.code
    simp [Source.isOf, mouseMatches, KeyChord.mouse, KeyChord.isMouse]

/-- Nothing else has the chord's code, and nothing else is its Enter. -/
theorem only (h : c.MadeOf src) (hside : src.sideless = false) {src' : Source}
    (hof : src'.isOf c = true) : src'.shares src = true ∧ (c.code = VK_RETURN → src' = src) := by
  cases src with
  | key vk ext =>
    obtain ⟨hdevice, hcode, hext⟩ := h.code
    cases src' with
    | key vk' ext' =>
      have hvk : vk' = vk := keyMatches_code hcode hside hof
      rw [hvk] at hof ⊢
      refine ⟨by simp [Source.shares], fun henter => ?_⟩
      rw [keyMatches_enter henter hof, hext henter]
    | button b =>
      simp [Source.isOf, mouseMatches, KeyChord.isMouse, hdevice] at hof
  | button b =>
    rw [Source.isOf_button h.isOf hof]
    exact ⟨Source.shares_self _, fun _ => rfl⟩

/-- A chord made of a source can be bound. -/
theorem valid (h : c.MadeOf src) : c.valid = true := by
  cases src with
  | key vk ext =>
    obtain ⟨hdevice, -, -⟩ := h.code
    simp [KeyChord.valid, hdevice]
  | button b =>
    obtain ⟨mods, rfl⟩ := h.code
    rfl

/-- A chord made of a source comes back from the file unchanged. -/
theorem reloaded (h : c.MadeOf src) : c.reloaded = c := by
  cases src with
  | key vk ext =>
    obtain ⟨hdevice, -, -⟩ := h.code
    rw [KeyChord.reloaded, if_pos hdevice]
  | button b =>
    obtain ⟨mods, rfl⟩ := h.code
    rfl

/-- The loader admits what the hooks can report. -/
theorem admitted (h : c.MadeOf src) {i : TriggerInput} (hi : i.OnKeyboard)
    (hsrc : i.source? = some src) : c.Admitted := by
  have hmods : c.mods &&& 0x0F = c.mods := by simpa [KeyChord.pressable] using h.mods
  cases i with
  | key down vk scan ext qpc armed =>
    obtain rfl := Option.some.inj hsrc
    obtain ⟨hdevice, hcode, -⟩ := h.code
    -- The loader wants a code of a key between 1 and 254, which is what hooks report.
    refine ⟨hmods, fun hmouse => by simp [hdevice] at hmouse, fun _ => ?_⟩
    rw [hcode]
    obtain ⟨hzero, hlast⟩ := hi
    constructor <;> bv_omega
  | mouse b down onOwn qpc armed =>
    obtain rfl := Option.some.inj hsrc
    obtain ⟨mods, rfl⟩ := h.code
    refine ⟨hmods, fun _ => ?_, fun hkey => by simp [KeyChord.mouse] at hkey⟩
    exact (KeyChord.mouse_admitted b).mouse rfl
  | setConfig _ | applyPendingConfig | beginCapture _ | cancelCapture =>
    simp [TriggerInput.source?] at hsrc

/-- As trigger it gives one Down and one Up when its source is pressed and let go. -/
theorem pressReleases (h : c.MadeOf src) {e : TriggerEngine} (htrigger : e.cfg.trigger = c)
    (hcap : e.captureState = .off) (hoff : e.trigDown = false) (hmods : e.modsHeld c = true)
    (hfree : e.emergencyTakes src = false) {press release : TriggerInput}
    (hpress : press.pressed? = some src) (hrelease : release.released? = some src) :
    triggerEdges (triggerMachine.trace e [press, release]) = [true, false] := by
  have hof := h.isOf
  subst htrigger
  cases src with
  | key vk ext =>
    obtain ⟨scan, qpc, armed, rfl⟩ := TriggerInput.eq_key_down hpress
    obtain ⟨scan', qpc', armed', rfl⟩ := TriggerInput.eq_key_up hrelease
    exact key_press_release hof hcap hoff hmods hfree scan scan' qpc qpc' armed armed'
  | button b =>
    obtain ⟨onOwn, qpc, armed, rfl⟩ := TriggerInput.eq_mouse_down hpress
    obtain ⟨onOwn', qpc', armed', rfl⟩ := TriggerInput.eq_mouse_up hrelease
    exact mouse_press_release hof hcap hoff hmods hfree onOwn onOwn' qpc qpc' armed armed'

/-- As emergency stop it stops at a press of its source. -/
theorem stops (h : c.MadeOf src) {e : TriggerEngine} (hemergency : e.cfg.emergency = c)
    (hcap : e.captureState = .off) (hmods : e.modsHeld c = true) (hup : e.isUp src = true)
    {press : TriggerInput} (hpress : press.pressed? = some src) :
    .call .onEmergency ∈ triggerMachine.out e press := by
  have hof := h.isOf
  subst hemergency
  have hcall : ∀ r : Reply, r.calls = [.onEmergency] → .call .onEmergency ∈ r.events := by
    intro r hr
    simp [Reply.events, hr]
  cases src with
  | key vk ext =>
    obtain ⟨scan, qpc, armed, rfl⟩ := TriggerInput.eq_key_down hpress
    have hphys : e.physKey vk = false := by simpa [TriggerEngine.isUp] using hup
    exact hcall _ (key_stops hof hcap hphys hmods scan qpc armed)
  | button b =>
    obtain ⟨onOwn, qpc, armed, rfl⟩ := TriggerInput.eq_mouse_down hpress
    exact hcall _ (mouse_stops hof hcap hmods onOwn qpc armed)

/-- **Everything that a chord of a real key or button is good for.** -/
theorem works (h : c.MadeOf src) (P : Platform) {i : TriggerInput} (hi : i.OnKeyboard)
    (hsrc : i.source? = some src) : c.Works P src where
  isOf := h.isOf
  only hside _ hof := h.only hside hof
  admitted := h.admitted hi hsrc
  reloaded := h.reloaded
  triggers _ htrigger hcap hoff hmods hfree _ _ hpress hrelease :=
    h.pressReleases htrigger hcap hoff hmods hfree hpress hrelease
  stops _ hemergency hcap hmods hup _ hpress := h.stops hemergency hcap hmods hup hpress
  sends a tag ha := by rw [compileAction_ok, ha, h.valid]

end KeyChord.MadeOf

/-! ### On the way to a binding -/

/-- The chord was made of a key or button that the trigger thread took in the run. -/
def TakenFrom (acts : List CaptureAct) (c : KeyChord) : Prop :=
  ∃ i src, .thread i ∈ acts ∧ i.source? = some src ∧ c.MadeOf src

/-- What was captured once stays captured. -/
theorem TakenFrom.mono {acts : List CaptureAct} {c : KeyChord} (h : TakenFrom acts c)
    (later : List CaptureAct) : TakenFrom (acts ++ later) c := by
  obtain ⟨i, src, hi, hrest⟩ := h
  exact ⟨i, src, List.mem_append_left _ hi, hrest⟩

namespace KeyCapture

/-- Every chord on its way to a binding was taken from the hooks. -/
structure Sourced (k : KeyCapture) (acts : List CaptureAct) : Prop where
  modifier : k.engine.RemembersModifier
  callback : ∀ c, .note c ∈ k.callback → TakenFrom acts c
  captured : k.capturedValid = true → TakenFrom acts k.captured

namespace Sourced

variable {k : KeyCapture} {acts : List CaptureAct}

/-- At the start nothing is bound that was not there. -/
theorem start (config : TriggerConfig) (action : KeyChord) :
    Sourced (KeyCapture.start config action) [] :=
  ⟨.inl rfl, fun c hc => absurd hc (by simp [KeyCapture.start]),
    fun hvalid => absurd hvalid (by simp [KeyCapture.start])⟩

/-- Moves that leave the chords on their way alone, or drop some. -/
theorem keep (h : Sourced k acts) (later : List CaptureAct) {k' : KeyCapture}
    (hmodifier : k'.engine.RemembersModifier)
    (hcallback : ∀ c, .note c ∈ k'.callback → .note c ∈ k.callback)
    (hvalid : k'.capturedValid = true → k.capturedValid = true ∧ k'.captured = k.captured) :
    Sourced k' (acts ++ later) := by
  refine ⟨hmodifier, fun c hc => (h.callback c (hcallback c hc)).mono later, fun hv => ?_⟩
  obtain ⟨hbefore, hsame⟩ := hvalid hv
  rw [hsame]
  exact (h.captured hbefore).mono later

/-- A hook's handler. -/
theorem hook (h : Sourced k acts) (hidle : k.callback = []) {i : TriggerInput} {src : Source}
    (hsrc : i.source? = some src) {r : Reply} (hmodifier : r.engine.RemembersModifier)
    (hmade : ∀ c ∈ capturedChords r.events, c.MadeOf src) :
    Sourced (k.hook r) (acts ++ [.thread i]) := by
  have htaken : ∀ c ∈ capturedChords r.events, TakenFrom (acts ++ [.thread i]) c := fun c hc =>
    ⟨i, src, List.mem_append_right _ (List.mem_singleton_self _), hsrc, hmade c hc⟩
  unfold KeyCapture.hook
  split
  · next c cs hcs =>
    -- The callback it leaves notes this chord alone.
    refine ⟨hmodifier, fun c' hc' => ?_, fun hv => (h.captured hv).mono _⟩
    have hc : c' = c := by simpa using hc'
    rw [hc]
    exact htaken c (by simp [hcs])
  · exact ⟨hmodifier, fun c hc => absurd hc (by simp [hidle]), fun hv => (h.captured hv).mono _⟩

/-- The trigger thread takes what it finds next. -/
theorem take (h : Sourced k acts) (hidle : k.callback = []) (i : TriggerInput) :
    Sourced (k.take i) (acts ++ [.thread i]) := by
  cases i with
  | key down vk scan ext qpc armed =>
    exact h.hook hidle rfl (handleKey_remembers h.modifier _ _ _ _ _ _)
      fun c hc => handleKey_madeOf h.modifier hc
  | mouse b down onOwn qpc armed =>
    exact h.hook hidle rfl (handleMouse_remembers h.modifier _ _ _ _ _)
      fun c hc => handleMouse_madeOf hc
  | applyPendingConfig =>
    exact h.keep _ (applyPendingConfig_remembers h.modifier) (fun _ hc => hc) fun hv => ⟨hv, rfl⟩
  | setConfig cfg => exact h.keep _ h.modifier (fun _ hc => hc) fun hv => ⟨hv, rfl⟩
  | beginCapture allowMouse => exact h.keep _ h.modifier (fun _ hc => hc) fun hv => ⟨hv, rfl⟩
  | cancelCapture => exact h.keep _ h.modifier (fun _ hc => hc) fun hv => ⟨hv, rfl⟩

/-- The trigger thread goes on with its callback. -/
theorem go (h : Sourced k acts) (later : List CaptureAct) : Sourced k.go.1 (acts ++ later) := by
  unfold KeyCapture.go
  split
  · exact h.keep later h.modifier (fun _ hc => hc) fun hv => ⟨hv, rfl⟩
  · next cs hcs =>
    exact h.keep later h.modifier (fun c hc => by simp [hcs, hc]) fun hv => ⟨hv, rfl⟩
  · next c cs hcs =>
    -- What is noted now was on its way in the callback.
    have hnoted : TakenFrom acts c := h.callback c (by simp [hcs])
    exact ⟨h.modifier, fun c' hc' => (h.callback c' (by simp [hcs, hc'])).mono later,
      fun _ => hnoted.mono later⟩
  · next cs hcs =>
    exact h.keep later h.modifier (fun c hc => by simp [hcs, hc]) fun hv => ⟨hv, rfl⟩

/-- The UI thread's calls drop chords and make none. -/
theorem applyCaptured (h : Sourced k acts) (later : List CaptureAct) :
    Sourced k.applyCaptured.1 (acts ++ later) := by
  unfold KeyCapture.applyCaptured
  split
  · dsimp only
    split
    · exact h.keep later h.modifier (fun _ hc => hc) fun hv => absurd hv (by simp [applyConfigs])
    · exact h.keep later h.modifier (fun _ hc => hc) fun hv => absurd hv (by simp [applyConfigs])
    · split
      · exact h.keep later h.modifier (fun _ hc => hc) fun hv => absurd hv (by simp)
      · exact h.keep later h.modifier (fun _ hc => hc) fun hv => absurd hv (by simp [applyConfigs])
    · exact h.keep later h.modifier (fun _ hc => hc) fun hv => absurd hv (by simp)
  · exact h.keep later h.modifier (fun _ hc => hc) fun hv => ⟨hv, rfl⟩

/-- **Every move.** -/
theorem step (P : Platform) (h : Sourced k acts) (a : CaptureAct) :
    Sourced ((captureMachine P).next k a) (acts ++ [a]) := by
  have hsame : Sourced k (acts ++ [a]) :=
    h.keep _ h.modifier (fun _ hc => hc) fun hv => ⟨hv, rfl⟩
  -- A call that is not taken, because another is under way, changes nothing.
  have hfree : ∀ r : KeyCapture × List CaptureEvent, Sourced r.1 (acts ++ [a]) →
      Sourced (k.whenFree r).1 (acts ++ [a]) := by
    intro r hr
    unfold KeyCapture.whenFree
    split
    · exact hr
    · exact hsame
  cases a with
  | beginCapture t now =>
    -- A new request forgets the chord that was reported before.
    exact hfree _ (h.keep _ h.modifier (fun _ hc => hc)
      fun hv => absurd hv (by simp [beginCapture]))
  | cancelCapture => exact hfree _ (h.keep _ h.modifier (fun _ hc => hc) fun hv => ⟨hv, rfl⟩)
  | tick now =>
    refine hfree _ ?_
    unfold KeyCapture.tick
    split
    · exact h.keep _ h.modifier (fun _ hc => hc) fun hv => ⟨hv, rfl⟩
    · exact hsame
  | profileChanged config action =>
    exact hfree _ (h.keep _ h.modifier (fun _ hc => hc) fun hv => ⟨hv, rfl⟩)
  | message =>
    show Sourced (ite _ _ _ : KeyCapture × List CaptureEvent).1 _
    split
    -- The message is read, and the chord goes where it was asked for.
    · have hread : Sourced { k with inbox := k.inbox - 1 } acts :=
        ⟨h.modifier, h.callback, h.captured⟩
      exact hfree _ (hread.applyCaptured _)
    · exact hsame
  | ui =>
    show Sourced k.ui _
    unfold KeyCapture.ui
    split
    · exact hsame
    · exact h.keep _ (next_remembers h.modifier _) (fun _ hc => hc) fun hv => ⟨hv, rfl⟩
  | thread i =>
    show Sourced (ite _ _ _ : KeyCapture × List CaptureEvent).1 _
    split
    · next hidle => exact h.take hidle i
    · exact hsame
  | go => exact h.go _

end Sourced

/-- What is bound is the chord that was noted. -/
theorem bound_captured (P : Platform) {k : KeyCapture} {a : CaptureAct} {t : CaptureTarget}
    {c : KeyChord} (h : .bound t c ∈ (captureMachine P).out k a) :
    k.capturedValid = true ∧ c = k.captured := by
  -- A call that is not taken binds nothing.
  have hfree : ∀ r : KeyCapture × List CaptureEvent, .bound t c ∈ (k.whenFree r).2 →
      .bound t c ∈ r.2 := by
    intro r hr
    unfold whenFree at hr
    split at hr
    · exact hr
    · exact absurd hr (by simp)
  cases a with
  | beginCapture t' now => simpa [KeyCapture.beginCapture] using hfree _ h
  | cancelCapture => simpa [KeyCapture.cancelCapture] using hfree _ h
  | tick now =>
    have htick := hfree _ h
    unfold KeyCapture.tick at htick
    split at htick <;> simp [KeyCapture.cancelCapture] at htick
  | profileChanged config action => simpa [KeyCapture.profileChanged] using hfree _ h
  | message =>
    have hmessage : .bound t c ∈ (ite _ _ _ : KeyCapture × List CaptureEvent).2 := h
    split at hmessage
    · have happlied := hfree _ hmessage
      unfold KeyCapture.applyCaptured at happlied
      split at happlied
      -- Only `applyCaptured` with a valid chord binds, and it binds that chord.
      · next hvalid =>
        refine ⟨hvalid, ?_⟩
        have hone : ∀ t', (.bound t c : CaptureEvent) ∈ [.bound t' k.captured] →
            c = k.captured := by
          intro t' ht'
          have heq : t = t' ∧ c = k.captured := by simpa using ht'
          exact heq.2
        dsimp only at happlied
        split at happlied
        · exact hone _ happlied
        · exact hone _ happlied
        · split at happlied
          · simp at happlied
          · exact hone _ happlied
        · simp at happlied
      · simp at happlied
    · simp at hmessage
  -- The trigger's thread and the frame loop themselves bind nothing.
  | ui => exact absurd h (by simp [captureMachine, Machine.out, KeyCapture.step])
  | thread i =>
    have hthread : .bound t c ∈ (ite _ _ _ : KeyCapture × List CaptureEvent).2 := h
    split at hthread <;> simp at hthread
  | go =>
    have hgo : .bound t c ∈ k.go.2 := h
    unfold KeyCapture.go at hgo
    split at hgo <;> simp at hgo

end KeyCapture

/-- **What is bound works.**  In every interleaving of the two threads, each chord that a capture
    binds was made of a key or button that the hooks saw in the run, and is good for that key or
    button everywhere: the files keep it, its press is the trigger's, the emergency stop's or can
    be sent, and no other key code's is. -/
theorem captured_chords_work (P : Platform) (config : TriggerConfig) (action : KeyChord)
    (acts : List CaptureAct) (hkeys : ∀ i, CaptureAct.thread i ∈ acts → i.OnKeyboard)
    {t : CaptureTarget} {c : KeyChord}
    (hbound : .bound t c ∈ (captureMachine P).trace (.start config action) acts) :
    ∃ i src, .thread i ∈ acts ∧ i.source? = some src ∧ c.Works P src := by
  obtain ⟨before, a, later, rfl, hout⟩ := (captureMachine P).mem_trace hbound
  obtain ⟨hvalid, rfl⟩ := KeyCapture.bound_captured P hout
  have hsourced := (captureMachine P).record (I := KeyCapture.Sourced)
    (fun k past a h => h.step P a) (KeyCapture.Sourced.start config action) before
  obtain ⟨i, src, hi, hsrc, hmade⟩ := hsourced.captured hvalid
  have hacts : .thread i ∈ before ++ a :: later := List.mem_append_left _ hi
  exact ⟨i, src, hacts, hsrc, hmade.works P (hkeys i hacts) hsrc⟩

/-- A trigger is asked for, and F8 is pressed with the left Ctrl held. -/
def ctrlF8 : List CaptureAct :=
  [.beginCapture .trigger 0, .ui, .thread (.key true 0xA2 0x1D false 0 false),
    .thread (.key true 0x77 0x42 false 1 false), .go, .go, .go, .message]

/-- Ctrl+F8 captured as the trigger works. -/
theorem captured_chords_work_ctrlF8 :
    ∃ i src, .thread i ∈ ctrlF8 ∧ i.source? = some src ∧
      ({ device := .keyboard, code := 0x77, scan := 0x42, mods := ModCtrl } : KeyChord).Works
        .tenMegahertz src := by
  refine captured_chords_work .tenMegahertz {} {} ctrlF8 ?_ (t := .trigger) (by decide +kernel)
  intro i hi
  simp only [ctrlF8, List.mem_cons, List.not_mem_nil, or_false, reduceCtorEq, false_or,
    CaptureAct.thread.injEq] at hi
  rcases hi with rfl | rfl <;> decide

end InfinityClicker
