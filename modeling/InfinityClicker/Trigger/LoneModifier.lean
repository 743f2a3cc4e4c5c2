import InfinityClicker.Trigger.TriggerEngine

namespace InfinityClicker

open Machines

/-!
# A modifier captured on its own

A capture takes a modifier when it is released, if nothing else came since it went down.  The
engine remembers that modifier in `captureModVk_`, which outlives the capture.

* `LoneCapture` — the promise: the release follows the modifier's own fresh key-down in the same
  capture, with no other press or capture between;
* `KeepsCandidate` — the condition on a step: with a modifier remembered no capture is begun and
  no button goes down that the running capture does not take;
* `Remembered` — under the condition a modifier remembered in a capture is on its own so far;
* `lone_modifier_genuine` — what follows for every run, and that the condition is needed.
-/

/-! ### The promise and the condition -/

/-- The chords a list of calls hands to `onCaptured`. -/
def capturedChords (evs : List TriggerEvent) : List KeyChord :=
  evs.filterMap fun
    | .call (.onCaptured c) => some c
    | _ => none

/-- Swallowing captures nothing. -/
theorem capturedChords_events (r : Reply) :
    capturedChords r.events = capturedChords (r.calls.map .call) := by
  rw [Reply.events, capturedChords, List.filterMap_append]
  cases r.swallow <;> simp [capturedChords]

/-- The step captures nothing and presses nothing anew, and the capture goes on. -/
def Undisturbed (e : TriggerEngine) (i : TriggerInput) : Prop :=
  capturedChords (triggerMachine.out e i) = [] ∧
    match i with
    | .key true vk _ _ _ _ => e.physKey vk = true
    | .mouse _ true _ _ _ | .beginCapture _ | .cancelCapture => False
    | _ => True

/-- After `ins` the key is down since a fresh key-down in the capture that still runs, and
    nothing else was pressed or captured meanwhile. -/
def LoneCapture (ins : List TriggerInput) (vk : Vk) : Prop :=
  ∃ before scan ext qpc armed since,
    ins = before ++ .key true vk scan ext qpc armed :: since ∧
    (triggerMachine.after {} before).captureState ≠ .off ∧
    (triggerMachine.after {} before).physKey vk = false ∧
    triggerMachine.Meets Undisturbed
      (triggerMachine.after {} (before ++ [.key true vk scan ext qpc armed])) since

/-- A modifier that is captured by its release after `ins` was on its own. -/
def GenuineStep (ins : List TriggerInput) : TriggerInput → Prop
  | .key false vk scan ext qpc armed =>
    isModifierVk (vk.setWidth 16) = true →
      capturedChords (triggerMachine.out (triggerMachine.after {} ins)
        (.key false vk scan ext qpc armed)) ≠ [] → LoneCapture ins vk
  | _ => True

/-- So was every modifier captured by its release in the run. -/
def Genuine (ins : List TriggerInput) : Prop :=
  ∀ before i later, ins = before ++ i :: later → GenuineStep before i

namespace TriggerEngine

/-- A capture of keys and buttons takes the press, unless it is a left click on the own window. -/
def takesPress (e : TriggerEngine) (b : MouseButton) (onOwn : Bool) : Prop :=
  e.captureState = .keyboardMouse ∧ ¬(b = .left ∧ e.cfg.ownWindow = true ∧ onOwn = true)

/-- With a modifier remembered no capture begins and none lets a press pass. -/
def KeepsCandidate (e : TriggerEngine) : TriggerInput → Prop
  | .beginCapture _ => e.captureModVk = 0
  | .mouse b true onOwn _ _ =>
    e.captureState ≠ .off → ¬e.takesPress b onOwn → e.captureModVk = 0
  | _ => True

instance (e : TriggerEngine) (b : MouseButton) (onOwn : Bool) : Decidable (e.takesPress b onOwn) :=
  inferInstanceAs (Decidable (_ ∧ ¬_))

instance (e : TriggerEngine) : DecidablePred e.KeepsCandidate
  | .beginCapture _ => inferInstanceAs (Decidable (_ = _))
  | .mouse _ true _ _ _ => inferInstanceAs (Decidable (_ → ¬_ → _ = _))
  | .key _ _ _ _ _ _ | .mouse _ false _ _ _ | .setConfig _ | .applyPendingConfig
  | .cancelCapture => isTrue trivial

variable {e e' : TriggerEngine}

/-! ### What a step does to the capture -/

/-- The capture and the modifier it remembers are as they were, and nothing was captured. -/
structure SameCapture (e e' : TriggerEngine) (evs : List TriggerEvent) : Prop where
  captureState : e'.captureState = e.captureState
  captureModVk : e'.captureModVk = e.captureModVk
  captured : capturedChords evs = []

/-- A reply whose engine has the same capture and whose calls capture nothing. -/
theorem SameCapture.reply {r : Reply} (hstate : r.engine.captureState = e.captureState)
    (hmod : r.engine.captureModVk = e.captureModVk)
    (hcalls : capturedChords (r.calls.map .call) = []) : SameCapture e r.engine r.events :=
  ⟨hstate, hmod, (capturedChords_events r).trans hcalls⟩

/-- The same for a reply built on an engine on the way, as after a mark is cleared. -/
theorem SameCapture.through {r : Reply} (h : SameCapture e e' [])
    (hstate : r.engine.captureState = e'.captureState)
    (hmod : r.engine.captureModVk = e'.captureModVk)
    (hcalls : capturedChords (r.calls.map .call) = []) : SameCapture e r.engine r.events :=
  .reply (hstate.trans h.captureState) (hmod.trans h.captureModVk) hcalls

/-- The branches of a handler one by one. -/
theorem SameCapture.ite {c : Prop} [Decidable c] {r r' : Reply}
    (h : SameCapture e r.engine r.events) (h' : SameCapture e r'.engine r'.events) :
    SameCapture e (if c then r else r').engine (if c then r else r').events := by
  split
  · exact h
  · exact h'

/-- Outside captures no key is captured. -/
theorem handleKey_off (hcap : e.captureState = .off) (down : Bool) (vk : Vk) (scan : BitVec 16)
    (ext : Bool) (qpc : ℤ) (armed : Bool) :
    SameCapture e (e.handleKey down vk scan ext qpc armed).engine
      (e.handleKey down vk scan ext qpc armed).events := by
  have hoff : ¬(e.setPhysKey vk down).captureState ≠ .off := not_not.mpr hcap
  have hclear : ∀ swallow : Bool, SameCapture e
      (if swallow then (e.setPhysKey vk down).setSwallowUp vk false
        else e.setPhysKey vk down) [] := by
    intro swallow
    cases swallow <;> exact ⟨rfl, rfl, rfl⟩
  have hkey := hclear (!down && (e.setPhysKey vk down).swallowUp vk)
  unfold handleKey
  rw [if_neg hoff]
  apply SameCapture.ite (hkey.through rfl rfl rfl)
  apply SameCapture.ite (hkey.through rfl rfl rfl)
  refine .ite (.ite ?_ ?_) (hkey.through rfl rfl rfl)
  · apply SameCapture.ite (hkey.through rfl rfl rfl)
    exact .ite (hkey.through rfl rfl rfl) (hkey.through rfl rfl rfl)
  · exact .ite (hkey.through rfl rfl rfl) (hkey.through rfl rfl rfl)

/-- A press the capture does not take, or a release, captures nothing. -/
theorem handleMouse_untaken {b : MouseButton} {down onOwn : Bool}
    (h : down = true → ¬e.takesPress b onOwn) (qpc : ℤ) (armed : Bool) :
    SameCapture e (e.handleMouse b down onOwn qpc armed).engine
      (e.handleMouse b down onOwn qpc armed).events := by
  unfold handleMouse
  by_cases hcap : e.captureState = .keyboardMouse
  · rw [if_pos hcap]
    split
    · exact .reply rfl rfl rfl
    · next hown =>
      rw [if_neg fun hdown => h hdown ⟨hcap, hown⟩]
      exact .reply rfl rfl rfl
  · rw [if_neg hcap]
    have hclear : ∀ swallow : Bool,
        SameCapture e (if swallow then e.setSwallowMouseUp b false else e) [] := by
      intro swallow
      cases swallow <;> exact ⟨rfl, rfl, rfl⟩
    have hbutton := hclear (!b.wheel && !down && e.swallowMouseUp b)
    -- The emergency chord marks a button's up.
    have hmark : ∀ (e' : TriggerEngine) (wheel : Bool), SameCapture e e' [] →
        SameCapture e (if wheel then e' else e'.setSwallowMouseUp b true) [] := by
      intro e' wheel h
      cases wheel with
      | true => exact h
      | false => exact ⟨h.captureState, h.captureModVk, rfl⟩
    apply SameCapture.ite (hbutton.through rfl rfl rfl)
    apply SameCapture.ite ((hmark _ b.wheel hbutton).through rfl rfl rfl)
    refine .ite (.ite ?_ (.ite ?_ ?_)) (hbutton.through rfl rfl rfl)
    · exact .ite (hbutton.through rfl rfl rfl) (hbutton.through rfl rfl rfl)
    · apply SameCapture.ite (hbutton.through rfl rfl rfl)
      exact .ite (hbutton.through rfl rfl rfl) (hbutton.through rfl rfl rfl)
    · exact .ite (hbutton.through rfl rfl rfl) (hbutton.through rfl rfl rfl)

/-- A press the capture takes ends it. -/
theorem handleMouse_taken {b : MouseButton} {onOwn : Bool} (h : e.takesPress b onOwn) (qpc : ℤ)
    (armed : Bool) :
    (e.handleMouse b true onOwn qpc armed).engine.captureState = .off ∧
      (e.handleMouse b true onOwn qpc armed).engine.captureModVk = e.captureModVk := by
  unfold handleMouse
  rw [if_pos h.1, if_neg h.2, if_pos rfl]
  dsimp only
  split
  · exact ⟨rfl, rfl⟩
  · exact ⟨rfl, rfl⟩

/-- A modifier that goes down in a capture is remembered, if it was up. -/
theorem handleKey_modifier {vk : Vk} (hcap : e.captureState ≠ .off)
    (hmod : isModifierVk (vk.setWidth 16) = true) (scan : BitVec 16) (ext : Bool) (qpc : ℤ)
    (armed : Bool) :
    let r := e.handleKey true vk scan ext qpc armed
    r.engine.captureState = e.captureState ∧
      r.engine.captureModVk = (if e.physKey vk then e.captureModVk else vk) ∧
      capturedChords r.events = [] := by
  dsimp only
  rw [capturedChords_events]
  unfold handleKey
  rw [if_pos (by exact hcap), captureKey, if_pos rfl, if_pos hmod]
  cases e.physKey vk with
  | true => exact ⟨rfl, rfl, rfl⟩
  | false => exact ⟨rfl, rfl, rfl⟩

/-- Any other key ends the capture and nothing is remembered. -/
theorem handleKey_captured {vk : Vk} (hcap : e.captureState ≠ .off)
    (hmod : isModifierVk (vk.setWidth 16) = false) (scan : BitVec 16) (ext : Bool) (qpc : ℤ)
    (armed : Bool) :
    let r := e.handleKey true vk scan ext qpc armed
    r.engine.captureState = .off ∧ r.engine.captureModVk = 0 := by
  dsimp only
  unfold handleKey
  rw [if_pos (by exact hcap), captureKey, if_pos rfl, if_neg (by simp [hmod])]
  exact ⟨rfl, rfl⟩

/-- The release of the remembered modifier captures it. -/
theorem handleKey_lone {vk : Vk} (hcap : e.captureState ≠ .off) (hvk : e.captureModVk = vk)
    (scan : BitVec 16) (ext : Bool) (qpc : ℤ) (armed : Bool) :
    let r := e.handleKey false vk scan ext qpc armed
    r.engine.captureState = .off ∧ r.engine.captureModVk = 0 ∧ capturedChords r.events ≠ [] := by
  dsimp only
  rw [capturedChords_events]
  unfold handleKey
  rw [if_pos (by exact hcap), captureKey, if_neg (by simp)]
  dsimp only
  have hcall : ((e.setPhysKey vk false).captureModifier vk).engine.captureState = .off ∧
      ((e.setPhysKey vk false).captureModifier vk).engine.captureModVk = 0 ∧
      capturedChords (((e.setPhysKey vk false).captureModifier vk).calls.map .call) ≠ [] := by
    rw [captureModifier, if_pos (by exact hvk)]
    exact ⟨rfl, rfl, by simp [capturedChords]⟩
  split
  · exact hcall
  · exact hcall

/-- The release of any other key is nothing to the capture. -/
theorem handleKey_up_other {vk : Vk} (hcap : e.captureState ≠ .off) (hvk : e.captureModVk ≠ vk)
    (scan : BitVec 16) (ext : Bool) (qpc : ℤ) (armed : Bool) :
    SameCapture e (e.handleKey false vk scan ext qpc armed).engine
      (e.handleKey false vk scan ext qpc armed).events := by
  have hother : (e.setPhysKey vk false).captureModifier vk = { engine := e.setPhysKey vk false } :=
    if_neg (by exact hvk)
  unfold handleKey
  rw [if_pos (by exact hcap), captureKey, if_neg (by simp), hother]
  dsimp only
  split
  · exact .reply rfl rfl rfl
  · exact .reply rfl rfl rfl

end TriggerEngine

/-! ### Every step -/

open TriggerEngine

variable {ins : List TriggerInput} {vk : Vk}

/-- A fresh key-down in a capture: on its own so far. -/
theorem LoneCapture.pressed (hcap : (triggerMachine.after {} ins).captureState ≠ .off)
    (hup : (triggerMachine.after {} ins).physKey vk = false) (scan : BitVec 16) (ext : Bool)
    (qpc : ℤ) (armed : Bool) : LoneCapture (ins ++ [.key true vk scan ext qpc armed]) vk :=
  ⟨ins, scan, ext, qpc, armed, [], rfl, hcap, hup, trivial⟩

/-- It stays so over an undisturbed step. -/
theorem LoneCapture.undisturbed (h : LoneCapture ins vk) {i : TriggerInput}
    (hi : Undisturbed (triggerMachine.after {} ins) i) : LoneCapture (ins ++ [i]) vk := by
  obtain ⟨before, scan, ext, qpc, armed, since, rfl, hcap, hup, hquiet⟩ := h
  refine ⟨before, scan, ext, qpc, armed, since ++ [i], by simp, hcap, hup, ?_⟩
  rw [Machine.meets_append, ← Machine.after_append]
  refine ⟨hquiet, ?_, trivial⟩
  rw [show before ++ .key true vk scan ext qpc armed :: since =
    before ++ [.key true vk scan ext qpc armed] ++ since by simp] at hi
  exact hi

/-- The last step was the key-down itself or an undisturbed one. -/
theorem LoneCapture.last {i : TriggerInput} (h : LoneCapture (ins ++ [i]) vk) :
    (∃ scan ext qpc armed, i = .key true vk scan ext qpc armed) ∨
      Undisturbed (triggerMachine.after {} ins) i := by
  obtain ⟨before, scan, ext, qpc, armed, since, hins, -, -, hquiet⟩ := h
  rcases List.eq_nil_or_concat since with rfl | ⟨since, j, rfl⟩
  · have hlast := (List.append_inj' hins rfl).2
    exact .inl ⟨scan, ext, qpc, armed, List.singleton_inj.mp hlast⟩
  · rw [List.concat_eq_append, ← List.cons_append, ← List.append_assoc] at hins
    obtain ⟨hbefore, hlast⟩ := List.append_inj' hins rfl
    rw [List.concat_eq_append, Machine.meets_append, ← Machine.after_append] at hquiet
    right
    rw [hbefore, List.singleton_inj.mp hlast,
      show before ++ .key true vk scan ext qpc armed :: since =
        before ++ [.key true vk scan ext qpc armed] ++ since by simp]
    exact hquiet.2.1

/-- A modifier remembered while a capture runs has been on its own so far. -/
structure Remembered (e : TriggerEngine) (ins : List TriggerInput) : Prop where
  state : e = triggerMachine.after {} ins
  modifier : e.captureModVk = 0 ∨ isModifierVk (e.captureModVk.setWidth 16) = true
  lone : e.captureState ≠ .off → e.captureModVk ≠ 0 → LoneCapture ins e.captureModVk

namespace Remembered

variable {e : TriggerEngine}

theorem next_state (h : Remembered e ins) (i : TriggerInput) :
    triggerMachine.next e i = triggerMachine.after {} (ins ++ [i]) := by
  rw [Machine.after_append, ← h.state]
  rfl

/-- A step after which no capture runs. -/
theorem of_off (h : Remembered e ins) {i : TriggerInput}
    (hoff : (triggerMachine.next e i).captureState = .off)
    (hmod : (triggerMachine.next e i).captureModVk = 0 ∨
      (triggerMachine.next e i).captureModVk = e.captureModVk) :
    Remembered (triggerMachine.next e i) (ins ++ [i]) := by
  refine ⟨h.next_state i, ?_, fun hcap => absurd hoff hcap⟩
  rcases hmod with hmod | hmod
  · exact .inl hmod
  · rw [hmod]
    exact h.modifier

/-- A step that leaves the capture alone and a modifier remembered undisturbed. -/
theorem of_same (h : Remembered e ins) {i : TriggerInput}
    (hsame : SameCapture e (triggerMachine.next e i) (triggerMachine.out e i))
    (hquiet : e.captureState ≠ .off → e.captureModVk ≠ 0 → Undisturbed e i) :
    Remembered (triggerMachine.next e i) (ins ++ [i]) := by
  refine ⟨h.next_state i, ?_, ?_⟩
  · rw [hsame.captureModVk]
    exact h.modifier
  · rw [hsame.captureState, hsame.captureModVk]
    intro hcap hmod
    have hi : Undisturbed (triggerMachine.after {} ins) i := by
      rw [← h.state]
      exact hquiet hcap hmod
    exact (h.lone hcap hmod).undisturbed hi

/-- A key-down. -/
theorem key_down (h : Remembered e ins) (vk : Vk) (scan : BitVec 16) (ext : Bool) (qpc : ℤ)
    (armed : Bool) :
    Remembered (triggerMachine.next e (.key true vk scan ext qpc armed))
      (ins ++ [.key true vk scan ext qpc armed]) := by
  by_cases hcap : e.captureState = .off
  · exact h.of_same (handleKey_off hcap true vk scan ext qpc armed) fun hon => absurd hcap hon
  cases hmod : isModifierVk (vk.setWidth 16) with
  | false =>
    obtain ⟨hoff, hnone⟩ := handleKey_captured hcap hmod scan ext qpc armed
    exact h.of_off hoff (.inl hnone)
  | true =>
    obtain ⟨hstate, hvk, hcaptured⟩ := handleKey_modifier hcap hmod scan ext qpc armed
    cases hphys : e.physKey vk with
    | true =>
      -- A repeat: whatever is remembered stays.
      rw [hphys, if_pos rfl] at hvk
      exact h.of_same ⟨hstate, hvk, hcaptured⟩ fun _ _ => ⟨hcaptured, hphys⟩
    | false =>
      rw [hphys, if_neg (by simp)] at hvk
      have hvk' : (triggerMachine.next e (.key true vk scan ext qpc armed)).captureModVk = vk :=
        hvk
      refine ⟨h.next_state _, .inr (by rw [hvk', hmod]), fun _ _ => ?_⟩
      rw [hvk']
      rw [h.state] at hcap hphys
      exact .pressed hcap hphys scan ext qpc armed

/-- A key-up. -/
theorem key_up (h : Remembered e ins) (vk : Vk) (scan : BitVec 16) (ext : Bool) (qpc : ℤ)
    (armed : Bool) :
    Remembered (triggerMachine.next e (.key false vk scan ext qpc armed))
      (ins ++ [.key false vk scan ext qpc armed]) := by
  by_cases hcap : e.captureState = .off
  · exact h.of_same (handleKey_off hcap false vk scan ext qpc armed) fun hon => absurd hcap hon
  by_cases hvk : e.captureModVk = vk
  · obtain ⟨hoff, hnone, -⟩ := handleKey_lone hcap hvk scan ext qpc armed
    exact h.of_off hoff (.inl hnone)
  · have hsame := handleKey_up_other hcap hvk scan ext qpc armed
    exact h.of_same hsame fun _ _ => ⟨hsame.captured, trivial⟩

/-- A mouse event. -/
theorem mouse (h : Remembered e ins) {b : MouseButton} {down onOwn : Bool} {qpc : ℤ}
    {armed : Bool} (hi : e.KeepsCandidate (.mouse b down onOwn qpc armed)) :
    Remembered (triggerMachine.next e (.mouse b down onOwn qpc armed))
      (ins ++ [.mouse b down onOwn qpc armed]) := by
  cases down with
  | false =>
    have hsame := @handleMouse_untaken e b false onOwn (by simp) qpc armed
    exact h.of_same hsame fun _ _ => ⟨hsame.captured, trivial⟩
  | true =>
    by_cases htakes : e.takesPress b onOwn
    · obtain ⟨hoff, hkept⟩ := handleMouse_taken htakes qpc armed
      exact h.of_off hoff (.inr hkept)
    · -- The press passes by the capture, which remembers nothing.
      have hsame := @handleMouse_untaken e b true onOwn (fun _ => htakes) qpc armed
      exact h.of_same hsame fun hcap hmod => absurd (hi hcap htakes) hmod

/-- **Every step that meets the condition keeps what is remembered on its own.** -/
theorem step (h : Remembered e ins) {i : TriggerInput} (hi : e.KeepsCandidate i) :
    Remembered (triggerMachine.next e i) (ins ++ [i]) := by
  cases i with
  | key down vk scan ext qpc armed =>
    cases down with
    | true => exact h.key_down vk scan ext qpc armed
    | false => exact h.key_up vk scan ext qpc armed
  | mouse b down onOwn qpc armed => exact h.mouse hi
  | setConfig cfg => exact h.of_same ⟨rfl, rfl, rfl⟩ fun _ _ => ⟨rfl, trivial⟩
  | applyPendingConfig =>
    have hsame : SameCapture e e.applyPendingConfig [] := by
      unfold applyPendingConfig
      split
      · exact ⟨rfl, rfl, rfl⟩
      · exact ⟨rfl, rfl, rfl⟩
    exact h.of_same hsame fun _ _ => ⟨rfl, trivial⟩
  | beginCapture allowMouse =>
    have hnone : (e.beginCapture allowMouse).captureModVk = 0 := hi
    exact ⟨h.next_state _, .inl hnone, fun _ hmod => absurd hnone hmod⟩
  | cancelCapture => exact h.of_off rfl (.inr rfl)

/-- What is captured by its release was on its own. -/
theorem genuineStep (h : Remembered e ins) (i : TriggerInput) : GenuineStep ins i := by
  cases i with
  | key down vk scan ext qpc armed =>
    cases down with
    | true => trivial
    | false =>
      intro hmod hcaptured
      rw [← h.state] at hcaptured
      by_cases hcap : e.captureState = .off
      · exact absurd (handleKey_off hcap false vk scan ext qpc armed).captured hcaptured
      · by_cases hvk : e.captureModVk = vk
        · subst hvk
          refine h.lone hcap fun hnone => ?_
          rw [hnone] at hmod
          exact absurd hmod (by decide)
        · exact absurd (handleKey_up_other hcap hvk scan ext qpc armed).captured hcaptured
  | mouse b down onOwn qpc armed => trivial
  | setConfig cfg => trivial
  | applyPendingConfig => trivial
  | beginCapture allowMouse => trivial
  | cancelCapture => trivial

end Remembered

/-! ### Every run -/

theorem Remembered.start : Remembered {} [] :=
  ⟨rfl, .inl rfl, fun hcap => absurd rfl hcap⟩

theorem Remembered.run (hkeeps : triggerMachine.Meets KeepsCandidate {} ins) :
    Remembered (triggerMachine.after {} ins) ins := by
  have hrun : Remembered (triggerMachine.after {} ins) ([] ++ ins) :=
    triggerMachine.record_of_meets (I := Remembered) (P := KeepsCandidate)
      (fun _ _ _ h hi => h.step hi) .start hkeeps
  exact hrun

/-- A capture that runs with a modifier remembered takes it when it is released, with whatever
    came last before. -/
theorem not_genuine {i : TriggerInput}
    (hcap : (triggerMachine.after {} (ins ++ [i])).captureState ≠ .off)
    (hvk : (triggerMachine.after {} (ins ++ [i])).captureModVk = vk)
    (hmod : isModifierVk (vk.setWidth 16) = true)
    (hsource : ∀ vk ext, i.source? ≠ some (.key vk ext))
    (hi : ¬Undisturbed (triggerMachine.after {} ins) i) :
    ¬Genuine (ins ++ i :: [.key false vk 0 false 0 false]) := by
  intro hgenuine
  have hcaptured := (handleKey_lone hcap hvk 0 false 0 false).2.2
  have hlone : LoneCapture (ins ++ [i]) vk :=
    hgenuine (ins ++ [i]) (.key false vk 0 false 0 false) [] (by simp) hmod hcaptured
  rcases hlone.last with ⟨scan, ext, qpc, armed, rfl⟩ | hquiet
  · exact hsource vk ext rfl
  · exact hi hquiet

/-- **A modifier captured on its own was on its own** in every run whose steps keep the
    candidate: it went down in the capture that takes it, and nothing else was pressed or
    captured since.  After a step that does not, the next release captures a modifier that was
    not. -/
theorem lone_modifier_genuine (ins : List TriggerInput)
    (hkeeps : triggerMachine.Meets KeepsCandidate {} ins) :
    Genuine ins ∧ ∀ i, ¬(triggerMachine.after {} ins).KeepsCandidate i →
      ∃ vk, ¬Genuine (ins ++ i :: [.key false vk 0 false 0 false]) := by
  constructor
  -- Up to every release the candidate is the modifier that was pressed since.
  · intro before i later hins
    rw [hins, Machine.meets_append] at hkeeps
    exact (Remembered.run hkeeps.1).genuineStep i
  · intro i hi
    have h := Remembered.run hkeeps
    have hlast : triggerMachine.after {} (ins ++ [i]) =
        triggerMachine.next (triggerMachine.after {} ins) i :=
      triggerMachine.after_append {} ins [i]
    -- What goes on is the release of the candidate that the step should have dropped.
    refine ⟨(triggerMachine.after {} ins).captureModVk, ?_⟩
    cases i with
    | beginCapture allowMouse =>
      have hmod := h.modifier.resolve_left hi
      refine not_genuine ?_ ?_ hmod (by simp [TriggerInput.source?]) fun hquiet => hquiet.2
      · rw [hlast]
        show (if allowMouse then CaptureState.keyboardMouse else .keyboard) ≠ .off
        cases allowMouse <;> simp
      · rw [hlast]
        rfl
    | mouse b down onOwn qpc armed =>
      cases down with
      | false => exact absurd trivial hi
      | true =>
        simp only [KeepsCandidate, Classical.not_imp] at hi
        obtain ⟨hcap, htakes, hvk⟩ := hi
        have hmod := h.modifier.resolve_left hvk
        have hsame := handleMouse_untaken (fun _ : true = true => htakes) qpc armed
        refine not_genuine ?_ ?_ hmod (by simp [TriggerInput.source?]) fun hquiet => hquiet.2
        · rw [hlast]
          exact hsame.captureState.trans_ne hcap
        · rw [hlast]
          exact hsame.captureModVk
    | key down vk scan ext qpc armed => exact absurd trivial hi
    | setConfig cfg => exact absurd trivial hi
    | applyPendingConfig => exact absurd trivial hi
    | cancelCapture => exact absurd trivial hi

/-- A capture; left Ctrl is pressed and released. -/
def loneCtrl : List TriggerInput :=
  [.beginCapture true, .key true 0xA2 0x1D false 10 false, .key false 0xA2 0x1D false 20 false]

/-- A capture that Mouse 4 ends while left Ctrl is down; a second one, and left Ctrl goes up. -/
def ctrlFromBefore : List TriggerInput :=
  [.beginCapture true, .key true 0xA2 0x1D false 10 false, .mouse .x1 true false 20 false,
    .mouse .x1 false false 30 false, .beginCapture true, .key false 0xA2 0 false 0 false]

theorem loneCtrl_genuine :
    Genuine loneCtrl ∧
      ∃ vk, ¬Genuine
        (ctrlFromBefore.take 4 ++ .beginCapture true :: [.key false vk 0 false 0 false]) :=
  ⟨(lone_modifier_genuine loneCtrl (by decide +kernel)).1,
    (lone_modifier_genuine (ctrlFromBefore.take 4) (by decide +kernel)).2 _ (by decide +kernel)⟩

/-- The second capture takes the modifier of the first. -/
theorem ctrl_from_before_captured : ¬ ∀ ins : List TriggerInput, Genuine ins := by
  intro hall
  have hlast : ¬Genuine (ctrlFromBefore.take 4 ++ .beginCapture true ::
      [.key false 0xA2 0 false 0 false]) :=
    not_genuine (by decide +kernel) (by decide +kernel) (by decide +kernel)
      (by simp [TriggerInput.source?]) fun hquiet => hquiet.2
  exact hlast (hall _)

end InfinityClicker
