import InfinityClicker.Trigger.TriggerEngine

namespace InfinityClicker

open Machines

/-!
# Auto-repeat and the trigger

A key that stays down sends further key-downs.  What tells them from presses of the trigger is
`trigDown_`, which belongs to the trigger and not to the key.

* `FreshPress` — the promise: a key-down that acts as a press of the trigger is the key's first;
* `Watched` — no key of the trigger is down behind the back of `trigDown_`;
* `KeepsWatch` — the condition on a step: a key of the trigger that goes down with the trigger up
  presses it, one that releases it is the last one down, and no trigger is bound to a held key;
* `repeats_press_nothing` — what follows for every run, and that the condition is needed.
-/

/-! ### The promise and the condition -/

/-- A key-down sends `onTriggerDown` only if the key was up before. -/
def FreshPress (e : TriggerEngine) : TriggerInput → Prop
  | .key true vk scan ext qpc armed =>
    true ∈ triggerEdges (triggerMachine.out e (.key true vk scan ext qpc armed)) →
      e.physKey vk = false
  | _ => True

instance (e : TriggerEngine) : DecidablePred (FreshPress e)
  | .key true _ _ _ _ _ => inferInstanceAs (Decidable (_ ∈ _ → _ = _))
  | .key false _ _ _ _ _ | .mouse _ _ _ _ _ | .setConfig _ | .applyPendingConfig
  | .beginCapture _ | .cancelCapture => isTrue trivial

/-- The virtual-key code is one of the chord's, for one value of the extended flag at least:
    `physKey_` does not tell the two Enter keys apart. -/
def KeyChord.hasCode (c : KeyChord) (vk : Vk) : Bool :=
  TriggerEngine.keyMatches c vk false || TriggerEngine.keyMatches c vk true

/-- The chord asks for no other modifiers than the four there are. -/
def KeyChord.pressable (c : KeyChord) : Bool := c.mods &&& 0x0F == c.mods

namespace TriggerEngine

/-- No key of the chord is physically down. -/
def keysUp (e : TriggerEngine) (c : KeyChord) : Prop :=
  ∀ vk, c.hasCode vk = true → e.physKey vk = false

/-- The first down of a key that completes the emergency chord. -/
def stopsOn (e : TriggerEngine) (vk : Vk) (ext : Bool) : Bool :=
  !e.physKey vk && keyMatches e.cfg.emergency vk ext &&
    (e.setPhysKey vk true).modsHeld e.cfg.emergency

/-- The step leaves no key of the trigger down with the trigger up.  A trigger whose modifiers
    can never be held is never pressed, whatever its keys do. -/
def KeepsWatch (e : TriggerEngine) : TriggerInput → Prop
  | .key true vk _ ext _ _ =>
    e.trigDown = false → e.cfg.trigger.pressable = true → e.cfg.trigger.hasCode vk = true →
      e.captureState = .off ∧ e.stopsOn vk ext = false ∧
        keyMatches e.cfg.trigger vk ext = true ∧
          (e.setPhysKey vk true).modsHeld e.cfg.trigger = true
  | .key false vk _ ext _ _ =>
    e.trigDown = true → e.cfg.trigger.pressable = true → e.captureState = .off →
      keyMatches e.cfg.trigger vk ext = true → (e.setPhysKey vk false).keysUp e.cfg.trigger
  | .applyPendingConfig =>
    e.pendingValid = true → e.pending.trigger.pressable = true →
      e.pending.trigger.same e.cfg.trigger = false → e.keysUp e.pending.trigger
  | _ => True

instance (e : TriggerEngine) (c : KeyChord) : Decidable (e.keysUp c) :=
  inferInstanceAs (Decidable (∀ vk, c.hasCode vk = true → e.physKey vk = false))

instance (e : TriggerEngine) : DecidablePred e.KeepsWatch
  | .key true _ _ _ _ _ => inferInstanceAs (Decidable (_ → _ → _ → _ ∧ _ ∧ _ ∧ _))
  | .key false _ _ _ _ _ => inferInstanceAs (Decidable (_ → _ → _ → _ → keysUp _ _))
  | .applyPendingConfig => inferInstanceAs (Decidable (_ → _ → _ → keysUp _ _))
  | .mouse _ _ _ _ _ | .setConfig _ | .beginCapture _ | .cancelCapture => isTrue trivial

/-- With the trigger up all its keys are up. -/
def Watched (e : TriggerEngine) : Prop :=
  e.trigDown = false → e.cfg.trigger.pressable = true → e.keysUp e.cfg.trigger

/-! ### Chords and modifiers -/

/-- A key that stands for a chord carries one of its codes. -/
theorem hasCode_of_matches {c : KeyChord} {vk : Vk} {ext : Bool}
    (h : keyMatches c vk ext = true) : c.hasCode vk = true := by
  rw [KeyChord.hasCode, Bool.or_eq_true]
  cases ext with
  | false => exact .inl h
  | true => exact .inr h

/-- A code of the chord stands for it with some extended flag. -/
theorem matches_of_hasCode {c : KeyChord} {vk : Vk} (h : c.hasCode vk = true) :
    ∃ ext, keyMatches c vk ext = true := by
  rw [KeyChord.hasCode, Bool.or_eq_true] at h
  rcases h with h | h
  · exact ⟨false, h⟩
  · exact ⟨true, h⟩

/-- A chord of the mouse has no keys. -/
theorem hasCode_of_mouse {c : KeyChord} {b : MouseButton}
    (h : (Source.button b).isOf c = true) (vk : Vk) : c.hasCode vk = false := by
  rw [← Bool.not_eq_true]
  intro hcode
  obtain ⟨ext, hmatch⟩ := matches_of_hasCode hcode
  have hsrc : Source.key vk ext = .button b := Source.isOf_button h hmatch
  exact absurd hsrc (by simp)

/-- The same chord has the same keys and asks for the same modifiers. -/
theorem hasCode_same {c c' : KeyChord} (h : c.same c' = true) (vk : Vk) :
    c.hasCode vk = c'.hasCode vk := by
  have hkey : ∀ ext, keyMatches c vk ext = keyMatches c' vk ext := fun ext =>
    Source.isOf_same h (.key vk ext)
  rw [KeyChord.hasCode, KeyChord.hasCode, hkey, hkey]

/-- Chords that press the same are pressable together. -/
theorem pressable_same {c c' : KeyChord} (h : c.same c' = true) :
    c.pressable = c'.pressable := by
  simp only [KeyChord.same, Bool.and_eq_true, beq_iff_eq] at h
  rw [KeyChord.pressable, KeyChord.pressable, h.1.2]

/-- Only the four modifiers can be held. -/
theorem physMods_and (e : TriggerEngine) : e.physMods &&& 0x0F = e.physMods := by
  unfold physMods
  dsimp only
  split <;> split <;> split <;> split <;> decide

/-- A chord whose modifiers are held can be pressed. -/
theorem pressable_of_modsHeld {e : TriggerEngine} {c : KeyChord} (h : e.modsHeld c = true) :
    c.pressable = true := by
  have hheld : e.physMods &&& c.mods = c.mods := by simpa [modsHeld] using h
  have hmods : c.mods &&& 0x0F = c.mods := by
    calc c.mods &&& 0x0F = e.physMods &&& c.mods &&& 0x0F := by rw [hheld]
      _ = e.physMods &&& 0x0F &&& c.mods := by
        rw [BitVec.and_assoc, BitVec.and_comm c.mods, BitVec.and_assoc]
      _ = c.mods := by rw [physMods_and, hheld]
  simpa [KeyChord.pressable] using hmods

variable {e e' : TriggerEngine}

/-! ### What a step does to the keys -/

/-- A captured modifier moves no key. -/
theorem captureModifier_physKey (vk : Vk) :
    (e.captureModifier vk).engine.physKey = e.physKey := by
  unfold captureModifier
  split
  · rfl
  · rfl

/-- A captured key moves no key. -/
theorem captureKey_physKey (wasDown down : Bool) (vk : Vk) (scan : BitVec 16) (ext : Bool) :
    (e.captureKey wasDown down vk scan ext).engine.physKey = e.physKey := by
  have hmod := @captureModifier_physKey e vk
  unfold captureKey
  split
  · split
    · cases wasDown <;> rfl
    · rfl
  · dsimp only
    split
    · exact hmod
    · exact hmod

/-- The branches of a handler one by one. -/
theorem ite_physKey {c : Prop} [Decidable c] {r r' : Reply} {keys : Vk → Bool}
    (h : r.engine.physKey = keys) (h' : r'.engine.physKey = keys) :
    (if c then r else r').engine.physKey = keys := by
  split
  · exact h
  · exact h'

/-- Every key event is recorded, whatever becomes of it. -/
theorem handleKey_physKey (down : Bool) (vk : Vk) (scan : BitVec 16) (ext : Bool) (qpc : ℤ)
    (armed : Bool) :
    (e.handleKey down vk scan ext qpc armed).engine.physKey =
      Function.update e.physKey vk down := by
  have hclear : ∀ swallow : Bool,
      (if swallow then (e.setPhysKey vk down).setSwallowUp vk false
        else e.setPhysKey vk down).physKey = Function.update e.physKey vk down := by
    intro swallow
    cases swallow <;> rfl
  refine ite_physKey (captureKey_physKey _ _ _ _ _) ?_
  -- Once the mark is cleared, the branches differ in what they do with the trigger.
  refine ite_physKey (hclear _) (ite_physKey (hclear _) (ite_physKey ?_ (hclear _)))
  refine ite_physKey (ite_physKey (hclear _) (ite_physKey (hclear _) (hclear _))) ?_
  exact ite_physKey (hclear _) (hclear _)

/-- A mouse event moves no key. -/
theorem handleMouse_physKey (b : MouseButton) (down onOwn : Bool) (qpc : ℤ) (armed : Bool) :
    (e.handleMouse b down onOwn qpc armed).engine.physKey = e.physKey := by
  have hclear : ∀ swallow : Bool,
      (if swallow then e.setSwallowMouseUp b false else e).physKey = e.physKey := by
    intro swallow
    cases swallow <;> rfl
  have hmark : ∀ (e' : TriggerEngine) (wheel : Bool), e'.physKey = e.physKey →
      (if wheel then e' else e'.setSwallowMouseUp b true).physKey = e.physKey := by
    intro e' wheel h
    cases wheel with
    | true => exact h
    | false => exact h
  refine ite_physKey (ite_physKey rfl (ite_physKey (hmark _ _ rfl) rfl)) ?_
  refine ite_physKey (hclear _) (ite_physKey (hmark _ _ (hclear _)) (ite_physKey ?_ (hclear _)))
  refine ite_physKey (ite_physKey (hclear _) (hclear _)) (ite_physKey ?_ ?_)
  · exact ite_physKey (hclear _) (ite_physKey (hclear _) (hclear _))
  · exact ite_physKey (hclear _) (hclear _)

/-- A key that comes up leaves the others up. -/
theorem keysUp_setPhysKey_up {c : KeyChord} (h : e.keysUp c) (vk : Vk) :
    (e.setPhysKey vk false).keysUp c := by
  intro vk' hcode
  show Function.update e.physKey vk false vk' = false
  rw [Function.update_apply]
  split
  · rfl
  · exact h vk' hcode

/-- A key that goes down is down; the others are as they were. -/
theorem keysUp_setPhysKey_down {c : KeyChord} {vk : Vk} :
    (e.setPhysKey vk true).keysUp c ↔
      c.hasCode vk = false ∧ ∀ vk', vk' ≠ vk → c.hasCode vk' = true → e.physKey vk' = false := by
  have hself : (e.setPhysKey vk true).physKey vk = true := Function.update_self ..
  have hother : ∀ vk', vk' ≠ vk → (e.setPhysKey vk true).physKey vk' = e.physKey vk' :=
    fun vk' hne => Function.update_of_ne hne ..
  constructor
  · intro h
    refine ⟨?_, fun vk' hne hcode => ?_⟩
    · rw [← Bool.not_eq_true]
      intro hcode
      exact absurd (h vk hcode) (by simp [hself])
    · rw [← hother vk' hne]
      exact h vk' hcode
  · intro ⟨hvk, h⟩ vk' hcode
    have hne : vk' ≠ vk := by
      rintro rfl
      exact absurd hcode (by simp [hvk])
    rw [hother vk' hne]
    exact h vk' hne hcode

/-- When a key-down is the press of the trigger. -/
theorem downBranch_presses_iff (vk : Vk) (ext onOwn : Bool) :
    e.downBranch onOwn (.key vk ext) = .presses ↔
      e.trigDown = false ∧ e.captureState = .off ∧ e.stopsOn vk ext = false ∧
        keyMatches e.cfg.trigger vk ext = true ∧
          (e.setPhysKey vk true).modsHeld e.cfg.trigger = true := by
  have hbranch : e.downBranch onOwn (.key vk ext) =
      if e.captureState ≠ .off then .hidden
      else if e.stopsOn vk ext then .hidden
      else if keyMatches e.cfg.trigger vk ext then
        if e.trigDown then if e.trigSuppressed then .repeats else .passes
        else if (e.setPhysKey vk true).modsHeld e.cfg.trigger then .presses
        else .passes
      else .passes := rfl
  rw [hbranch]
  split
  -- A capture, and then the emergency stop, take the key before the trigger is asked.
  · next hcap => exact iff_of_false (by simp) fun h => hcap h.2.1
  · next hcap =>
    split
    · next hstops => exact iff_of_false (by simp) fun h => absurd hstops (by simp [h.2.2.1])
    · next hstops =>
      split
      · next hmatch =>
        split
        · next hdown =>
          refine iff_of_false ?_ fun h => absurd hdown (by simp [h.1])
          split
          · simp
          · simp
        · next hdown =>
          split
          · next hmods =>
            rw [Bool.not_eq_true] at hdown hstops
            exact iff_of_true rfl ⟨hdown, not_not.mp hcap, hstops, hmatch, hmods⟩
          · next hmods => exact iff_of_false (by simp) fun h => hmods h.2.2.2.2
      · next hmatch => exact iff_of_false (by simp) fun h => hmatch h.2.2.2.1

/-- A key-down changes the trigger only by pressing it. -/
theorem handleKey_down_trigDown (vk : Vk) (scan : BitVec 16) (ext : Bool) (qpc : ℤ)
    (armed : Bool) :
    (e.handleKey true vk scan ext qpc armed).engine.cfg = e.cfg ∧
      (e.handleKey true vk scan ext qpc armed).engine.trigDown =
        (e.trigDown || e.downBranch false (.key vk ext) == .presses) ∧
      (true ∈ triggerEdges (e.handleKey true vk scan ext qpc armed).events ↔
        e.downBranch false (.key vk ext) = .presses) := by
  have hspec := e.handleKey_down vk scan ext qpc armed false
  -- Any other branch sends no edge and leaves the trigger as it is.
  have hquiet : ∀ {br : DownBranch} {sup marked swallow}, br ≠ .presses →
      Effect e (e.handleKey true vk scan ext qpc armed) e.trigDown sup marked [] swallow →
      (e.handleKey true vk scan ext qpc armed).engine.cfg = e.cfg ∧
        (e.handleKey true vk scan ext qpc armed).engine.trigDown =
          (e.trigDown || br == .presses) ∧
        (true ∈ triggerEdges (e.handleKey true vk scan ext qpc armed).events ↔
          br = .presses) := by
    intro br sup marked swallow hbr hr
    refine ⟨hr.cfg, ?_, ?_⟩
    · rw [hr.trigDown, beq_false_of_ne hbr, Bool.or_false]
    · rw [hr.edges]
      exact iff_of_false (by simp) hbr
  generalize e.downBranch false (.key vk ext) = br at hspec
  cases br with
  | presses =>
    obtain ⟨-, -, hr⟩ := hspec
    refine ⟨hr.cfg, ?_, ?_⟩
    · rw [hr.trigDown, beq_self_eq_true, Bool.or_true]
    · rw [hr.edges]
      exact iff_of_true (by simp) rfl
  | hidden => exact hquiet (by simp) hspec
  | repeats => exact hquiet (by simp) hspec.2
  | passes => exact hquiet (by simp) hspec

/-- A key-up changes the trigger only by releasing it. -/
theorem handleKey_up_trigDown (vk : Vk) (scan : BitVec 16) (ext : Bool) (qpc : ℤ)
    (armed : Bool) :
    (e.handleKey false vk scan ext qpc armed).engine.cfg = e.cfg ∧
      (e.handleKey false vk scan ext qpc armed).engine.trigDown =
        (e.trigDown && !(e.captureState == .off && keyMatches e.cfg.trigger vk ext)) := by
  by_cases hcap : e.captureState = .off
  · have hspec := handleKey_up vk scan ext qpc armed hcap
    rw [UpSpec] at hspec
    split at hspec
    · next hon =>
      have hboth : e.trigDown = true ∧ keyMatches e.cfg.trigger vk ext = true := by
        simpa [Source.isOf] using hon
      refine ⟨hspec.cfg, hspec.trigDown.trans ?_⟩
      simp [hcap, hboth]
    · next hoff =>
      refine ⟨hspec.cfg, hspec.trigDown.trans ?_⟩
      have hnot : e.trigDown = true → keyMatches e.cfg.trigger vk ext = false := by
        simpa [Source.isOf] using hoff
      cases hon : e.trigDown with
      | true => simp [hnot hon]
      | false => simp
  · have hr := handleKey_up_capture vk scan ext qpc armed hcap
    refine ⟨hr.cfg, hr.trigDown.trans ?_⟩
    simp [hcap]

/-- The mouse changes the trigger only where the trigger is of the mouse. -/
theorem handleMouse_trigDown (b : MouseButton) (down onOwn : Bool) (qpc : ℤ) (armed : Bool) :
    (e.handleMouse b down onOwn qpc armed).engine.cfg = e.cfg ∧
      ((Source.button b).isOf e.cfg.trigger = true ∨
        (e.handleMouse b down onOwn qpc armed).engine.trigDown = e.trigDown) := by
  cases hb : b.wheel with
  | true =>
    obtain ⟨_, _, hr, -⟩ := handleMouse_wheel hb down onOwn qpc armed
    exact ⟨hr.cfg, .inr hr.trigDown⟩
  | false =>
    cases down with
    | true =>
      have hspec := @handleMouse_down e b hb onOwn qpc armed
      generalize e.downBranch onOwn (.button b) = br at hspec
      cases br with
      | presses => exact ⟨hspec.2.2.cfg, .inl hspec.2.1⟩
      | hidden => exact ⟨Effect.cfg hspec, .inr (Effect.trigDown hspec)⟩
      | repeats => exact ⟨hspec.2.cfg, .inr hspec.2.trigDown⟩
      | passes => exact ⟨Effect.cfg hspec, .inr (Effect.trigDown hspec)⟩
    | false =>
      by_cases hcap : e.captureState = .keyboardMouse
      · have hr := @handleMouse_up_capture e b onOwn qpc armed hcap
        exact ⟨hr.cfg, .inr hr.trigDown⟩
      · have hspec := @handleMouse_up e b hb onOwn qpc armed hcap
        rw [UpSpec] at hspec
        split at hspec
        · next hon =>
          rw [Bool.and_eq_true] at hon
          exact ⟨hspec.cfg, .inl hon.2⟩
        · exact ⟨hspec.cfg, .inr hspec.trigDown⟩

/-! ### Every step -/

/-- A state in which the trigger and its keys are as they were. -/
theorem Watched.of_same (hcfg : e'.cfg = e.cfg) (hdown : e'.trigDown = e.trigDown)
    (hkey : e'.physKey = e.physKey) : e'.Watched ↔ e.Watched := by
  unfold Watched keysUp
  rw [hcfg, hdown, hkey]

/-- A key-down: a key of the trigger must press it. -/
theorem Watched.key_down_iff (h : e.Watched) (vk : Vk) (scan : BitVec 16) (ext : Bool) (qpc : ℤ)
    (armed : Bool) :
    (e.handleKey true vk scan ext qpc armed).engine.Watched ↔
      e.KeepsWatch (.key true vk scan ext qpc armed) := by
  obtain ⟨hcfg, hdown, -⟩ := @handleKey_down_trigDown e vk scan ext qpc armed
  have hkeys : (e.handleKey true vk scan ext qpc armed).engine.keysUp e.cfg.trigger ↔
      (e.setPhysKey vk true).keysUp e.cfg.trigger := by
    unfold keysUp
    rw [handleKey_physKey]
    exact Iff.rfl
  have hpress := @downBranch_presses_iff e vk ext false
  unfold Watched
  rw [hdown, hcfg, hkeys, keysUp_setPhysKey_down]
  constructor
  · intro hwatched hoff hpressable hcode
    by_contra hnot
    have hbranch : e.downBranch false (.key vk ext) ≠ .presses :=
      fun hbranch => hnot (hpress.mp hbranch).2
    -- The key is down, and nothing has pressed the trigger.
    have hup := hwatched (by simp [hoff, hbranch]) hpressable
    exact absurd hcode (by simp [hup.1])
  · intro hkeeps hoff hpressable
    rw [Bool.or_eq_false_iff] at hoff
    refine ⟨?_, fun vk' _ hcode => h hoff.1 hpressable vk' hcode⟩
    rw [← Bool.not_eq_true]
    intro hcode
    have hbranch := hpress.mpr ⟨hoff.1, hkeeps hoff.1 hpressable hcode⟩
    exact absurd hoff.2 (by simp [hbranch])

/-- A key-up: the key that releases the trigger must be the last one down. -/
theorem Watched.key_up_iff (h : e.Watched) (vk : Vk) (scan : BitVec 16) (ext : Bool) (qpc : ℤ)
    (armed : Bool) :
    (e.handleKey false vk scan ext qpc armed).engine.Watched ↔
      e.KeepsWatch (.key false vk scan ext qpc armed) := by
  obtain ⟨hcfg, hdown⟩ := @handleKey_up_trigDown e vk scan ext qpc armed
  have hkeys : (e.handleKey false vk scan ext qpc armed).engine.keysUp e.cfg.trigger ↔
      (e.setPhysKey vk false).keysUp e.cfg.trigger := by
    unfold keysUp
    rw [handleKey_physKey]
    exact Iff.rfl
  unfold Watched
  rw [hdown, hcfg, hkeys]
  constructor
  · intro hwatched hon hpressable hcap hmatch
    exact hwatched (by simp [hcap, hmatch]) hpressable
  · intro hkeeps hoff hpressable
    cases hon : e.trigDown with
    | false => exact keysUp_setPhysKey_up (h hon hpressable) vk
    | true =>
      have hrelease : e.captureState = .off ∧ keyMatches e.cfg.trigger vk ext = true := by
        simpa [hon] using hoff
      exact hkeeps hon hpressable hrelease.1 hrelease.2

/-- A new configuration: the keys of a changed trigger must be up. -/
theorem Watched.apply_iff (h : e.Watched) :
    e.applyPendingConfig.Watched ↔ e.KeepsWatch .applyPendingConfig := by
  unfold applyPendingConfig
  cases hvalid : e.pendingValid with
  | false =>
    rw [if_neg (by simp)]
    refine iff_of_true h fun hv => ?_
    exact absurd hv (by simp [hvalid])
  | true =>
    rw [if_pos rfl]
    cases hsame : e.pending.trigger.same e.cfg.trigger with
    | true =>
      -- The trigger stays: it is down if it was, and has the same keys.
      refine iff_of_true (fun hoff hpressable vk hcode => ?_) fun _ _ hchanged => ?_
      · have hoff' : e.trigDown = false := by simpa [hsame] using hoff
        rw [pressable_same hsame] at hpressable
        exact h hoff' hpressable vk ((hasCode_same hsame vk).symm.trans hcode)
      · exact absurd hchanged (by simp [hsame])
    | false =>
      constructor
      · intro hwatched _ hpressable _
        exact hwatched (by simp) hpressable
      · intro hkeeps _ hpressable
        exact hkeeps hvalid hpressable hsame

/-- **A step keeps the watch exactly when it meets the condition.** -/
theorem Watched.step_iff (h : e.Watched) (i : TriggerInput) :
    (triggerMachine.next e i).Watched ↔ e.KeepsWatch i := by
  cases i with
  | key down vk scan ext qpc armed =>
    cases down with
    | true => exact h.key_down_iff vk scan ext qpc armed
    | false => exact h.key_up_iff vk scan ext qpc armed
  | mouse b down onOwn qpc armed =>
    obtain ⟨hcfg, hdown⟩ := @handleMouse_trigDown e b down onOwn qpc armed
    have hkey := @handleMouse_physKey e b down onOwn qpc armed
    refine iff_of_true ?_ trivial
    rcases hdown with hmouse | hdown
    · -- The trigger is a button and has no keys.
      intro _ _ vk hcode
      rw [show (triggerMachine.next e (.mouse b down onOwn qpc armed)).cfg = e.cfg from hcfg,
        hasCode_of_mouse hmouse] at hcode
      exact absurd hcode (by simp)
    · exact (Watched.of_same hcfg hdown hkey).mpr h
  | setConfig cfg => exact iff_of_true ((Watched.of_same rfl rfl rfl).mpr h) trivial
  | applyPendingConfig => exact h.apply_iff
  | beginCapture allowMouse => exact iff_of_true ((Watched.of_same rfl rfl rfl).mpr h) trivial
  | cancelCapture => exact iff_of_true ((Watched.of_same rfl rfl rfl).mpr h) trivial

/-- Under the watch a press of the trigger comes from a key that was up. -/
theorem Watched.fresh (h : e.Watched) (i : TriggerInput) : FreshPress e i := by
  cases i with
  | key down vk scan ext qpc armed =>
    cases down with
    | true =>
      intro hpress
      have hbranch := (@handleKey_down_trigDown e vk scan ext qpc armed).2.2.mp hpress
      obtain ⟨hoff, -, -, hmatch, hmods⟩ := (downBranch_presses_iff vk ext false).mp hbranch
      have hmods' : e.cfg.trigger.pressable = true := pressable_of_modsHeld hmods
      exact h hoff hmods' vk (hasCode_of_matches hmatch)
    | false => trivial
  | mouse b down onOwn qpc armed => trivial
  | setConfig cfg => trivial
  | applyPendingConfig => trivial
  | beginCapture allowMouse => trivial
  | cancelCapture => trivial

/-! ### The way to a repeat that presses -/

/-- Modifiers pressed during a capture: they are down, and nothing else has changed. -/
theorem hold_modifiers (vks : List Vk) (hmods : ∀ vk ∈ vks, isModifierVk (vk.setWidth 16) = true)
    (hcap : e.captureState ≠ .off) :
    let e' := triggerMachine.after e (vks.map fun vk => .key true vk 0 false 0 false)
    e'.cfg = e.cfg ∧ e'.trigDown = e.trigDown ∧
      (∀ vk ∈ vks, e'.physKey vk = true) ∧ ∀ vk, e.physKey vk = true → e'.physKey vk = true := by
  induction vks generalizing e with
  | nil => exact ⟨rfl, rfl, by simp, fun vk hdown => hdown⟩
  -- Key by key: each is a modifier, so the capture goes on and the configuration stays.
  | cons vk vks ih =>
    have hmod : isModifierVk (vk.setWidth 16) = true := hmods vk (by simp)
    have hnext : (e.handleKey true vk 0 false 0 false).engine.captureState = e.captureState ∧
        (e.handleKey true vk 0 false 0 false).engine.cfg = e.cfg ∧
        (e.handleKey true vk 0 false 0 false).engine.trigDown = e.trigDown := by
      unfold handleKey
      rw [if_pos (by exact hcap), captureKey, if_pos rfl, if_pos hmod]
      cases e.physKey vk <;> exact ⟨rfl, rfl, rfl⟩
    have hphys := @handleKey_physKey e true vk 0 false 0 false
    obtain ⟨hcfg, hdown, hheld, hkept⟩ :=
      @ih (e.handleKey true vk 0 false 0 false).engine
        (fun v hv => hmods v (by simp [hv])) (by rw [hnext.1]; exact hcap)
    have hkeep : ∀ v, e.physKey v = true ∨ v = vk →
        (e.handleKey true vk 0 false 0 false).engine.physKey v = true := by
      intro v hv
      rw [hphys, Function.update_apply]
      split
      · rfl
      · next hne => exact hv.resolve_right hne
    refine ⟨hcfg.trans hnext.2.1, hdown.trans hnext.2.2, fun v hv => ?_, fun v hv => ?_⟩
    · rcases List.mem_cons.mp hv with rfl | hv
      · exact hkept v (hkeep v (.inr rfl))
      · exact hheld v hv
    · exact hkept v (hkeep v (.inl hv))

/-- One key of each modifier. -/
def modifierKeys : List Vk :=
  [VK_LCONTROL, VK_LSHIFT, VK_LMENU, VK_LWIN].map (BitVec.setWidth 8)

/-- With every modifier held those of a chord are. -/
theorem modsHeld_of_all {c : KeyChord} (hall : ∀ vk ∈ modifierKeys, e.physKey vk = true)
    (hpressable : c.pressable = true) : e.modsHeld c = true := by
  have hmods : e.physMods = 0x0F := by
    simp only [modifierKeys, List.map_cons, List.map_nil, List.mem_cons, List.not_mem_nil,
      or_false, forall_eq_or_imp, forall_eq] at hall
    simp only [physMods, hall, Bool.true_or, if_true]
    decide
  have hkept : c.mods &&& 0x0F = c.mods := by simpa [KeyChord.pressable] using hpressable
  rw [modsHeld, hmods, BitVec.and_comm, hkept]
  exact beq_self_eq_true _

/-- All four modifiers go down in a capture that is then cancelled; then the key repeats. -/
def repeatAfter (vk : Vk) (ext : Bool) : List TriggerInput :=
  .beginCapture false :: modifierKeys.map (fun vk => .key true vk 0 false 0 false) ++
    [.cancelCapture, .key true vk 0 ext 0 false]

/-- A further down of a held key of the trigger, with the trigger up and its modifiers held. -/
theorem repeat_not_fresh {vk : Vk} {ext : Bool} (hoff : e.trigDown = false)
    (hcap : e.captureState = .off) (hmatch : keyMatches e.cfg.trigger vk ext = true)
    (hphys : e.physKey vk = true) (hmods : (e.setPhysKey vk true).modsHeld e.cfg.trigger = true) :
    ¬FreshPress e (.key true vk 0 ext 0 false) := by
  -- The key is down, so the emergency chord is not looked at.
  have hstops : e.stopsOn vk ext = false := by simp [stopsOn, hphys]
  have hbranch : e.downBranch false (.key vk ext) = .presses :=
    (downBranch_presses_iff vk ext false).mpr ⟨hoff, hcap, hstops, hmatch, hmods⟩
  intro hfresh
  have hup : e.physKey vk = false :=
    hfresh ((@handleKey_down_trigDown e vk 0 ext 0 false).2.2.mpr hbranch)
  exact absurd hup (by simp [hphys])

/-- Off the watch some key of the trigger is down, and its repeat can press the trigger. -/
theorem repeat_presses (h : ¬e.Watched) :
    ∃ more, ¬triggerMachine.Meets FreshPress e more := by
  simp only [Watched, keysUp, not_forall, Bool.not_eq_false] at h
  obtain ⟨hoff, hpressable, vk, hcode, hphys⟩ := h
  obtain ⟨ext, hmatch⟩ := matches_of_hasCode hcode
  -- Whatever else the presses in the capture did, the repeat finds the trigger up.
  have hlast : ∀ e₁ : TriggerEngine, e₁.cfg = e.cfg ∧ e₁.trigDown = e.trigDown ∧
      (∀ v ∈ modifierKeys, e₁.physKey v = true) ∧
      (∀ v, e.physKey v = true → e₁.physKey v = true) →
      ¬FreshPress e₁.cancelCapture (.key true vk 0 ext 0 false) := by
    intro e₁ ⟨hcfg, hdown, hheld, hkept⟩
    have hcfg' : e₁.cancelCapture.cfg = e.cfg := hcfg
    refine repeat_not_fresh (hdown.trans hoff) rfl (by rw [hcfg', hmatch]) (hkept vk hphys) ?_
    rw [hcfg']
    refine modsHeld_of_all (fun v hv => ?_) hpressable
    show Function.update e₁.physKey vk true v = true
    rw [Function.update_apply]
    split
    · rfl
    · exact hheld v hv
  have hheld := @hold_modifiers (e.beginCapture false) modifierKeys (by decide)
    (by simp [beginCapture])
  refine ⟨repeatAfter vk ext, fun hmeets => ?_⟩
  rw [repeatAfter, List.cons_append, Machine.meets_cons, Machine.meets_append] at hmeets
  obtain ⟨-, -, -, hfresh, -⟩ := hmeets
  exact hlast _ hheld hfresh

end TriggerEngine

/-! ### Every run -/

open TriggerEngine in
/-- **An auto-repeat does not press the trigger** in every run whose steps keep the watch.  After
    a step that does not, a key of the trigger is down with the trigger up, and a repeat of it
    can act as a press. -/
theorem repeats_press_nothing (ins : List TriggerInput)
    (hkeeps : triggerMachine.Meets KeepsWatch {} ins) :
    triggerMachine.Meets FreshPress {} ins ∧
      ∀ i, ¬(triggerMachine.after {} ins).KeepsWatch i →
        ∃ more, ¬triggerMachine.Meets FreshPress {} (ins ++ i :: more) := by
  have hstart : ({} : TriggerEngine).Watched := fun _ _ _ _ => rfl
  have hstep : ∀ e i, e.Watched → e.KeepsWatch i → (triggerMachine.next e i).Watched :=
    fun e i h hi => (h.step_iff i).mpr hi
  refine ⟨triggerMachine.meets_of_meets hstep (fun e i h _ => h.fresh i) hstart hkeeps, ?_⟩
  intro i hi
  have hend : (triggerMachine.after {} ins).Watched :=
    triggerMachine.invariant_of_meets hstep hstart hkeeps
  obtain ⟨more, hmore⟩ := repeat_presses fun hnext => hi ((hend.step_iff i).mp hnext)
  refine ⟨more, fun hmeets => hmore ?_⟩
  exact ((triggerMachine.meets_append FreshPress _ ins (i :: more)).mp hmeets).2.2

/-- F6 is the trigger: pressed, repeated, released. -/
def repeatedPress : List TriggerInput :=
  [.setConfig { trigger := { device := .keyboard, code := 0x75 } }, .applyPendingConfig,
    .key true 0x75 0x40 false 10 true, .key true 0x75 0x40 false 20 true,
    .key false 0x75 0x40 false 30 true]

/-- F6 goes down and becomes the trigger while it is held; then it repeats. -/
def boundWhileHeld : List TriggerInput :=
  [.key true 0x75 0x40 false 10 true,
    .setConfig { trigger := { device := .keyboard, code := 0x75 } }, .applyPendingConfig,
    .key true 0x75 0x40 false 20 true]

/-- F6 pressed and repeated presses once; bound while it is held, some repeat presses it. -/
theorem repeatedPress_presses_once :
    triggerMachine.Meets FreshPress {} repeatedPress ∧
      ∃ more, ¬triggerMachine.Meets FreshPress {}
        (boundWhileHeld.take 2 ++ .applyPendingConfig :: more) :=
  ⟨(repeats_press_nothing repeatedPress (by decide +kernel)).1,
    (repeats_press_nothing (boundWhileHeld.take 2) (by decide +kernel)).2 _ (by decide +kernel)⟩

/-- A key that is bound while it is held presses the trigger by repeating. -/
theorem bound_while_held_presses :
    ¬ ∀ ins : List TriggerInput, triggerMachine.Meets FreshPress {} ins := by
  intro hall
  exact absurd (hall boundWhileHeld) (by decide +kernel)

end InfinityClicker
