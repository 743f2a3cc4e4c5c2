import InfinityClicker.Core.Machine
import InfinityClicker.Input.KeyChord

namespace InfinityClicker

open Machines

/-!
# Trigger engine

Turns physical key and mouse events into trigger edges, emergency stops and captured chords,
and decides which events are swallowed (withheld from the other applications).

* `TriggerEngine.handleKey`, `TriggerEngine.handleMouse` — the two handlers the hooks call;
* `triggerMachine` — the handlers interleaved with configuration changes and captures;
* `Effect` — what a handled event can do to the state, as the results read it;
* `handleKey_down`, `handleKey_up`, `handleMouse_down`, `handleMouse_up`, `handleMouse_wheel`
  — what each kind of event does.
-/

/-! ### State -/

/-- The part of the configuration the handlers read. -/
structure TriggerConfig where
  trigger : KeyChord := {}
  suppressTrigger : Bool := false
  emergency : KeyChord := {}
  /-- `ownWindow` is not null. -/
  ownWindow : Bool := false
deriving DecidableEq, Repr

/-- `captureState_`: 0 off, 1 keyboard only, 2 keyboard and mouse. -/
inductive CaptureState where
  | off
  | keyboard
  | keyboardMouse
deriving DecidableEq, Repr

/-- The calls made to the `TriggerSink`. -/
inductive SinkCall where
  | onTriggerDown (qpc : ℤ)
  | onTriggerUp (qpc : ℤ)
  | onEmergency
  | onCaptured (chord : KeyChord)
deriving DecidableEq, Repr

/-- The state of `TriggerEngine` that its handlers and the calls from other threads use. -/
structure TriggerEngine where
  pending : TriggerConfig := {}
  pendingValid : Bool := false
  cfg : TriggerConfig := {}
  physKey : Vk → Bool := fun _ => false
  swallowUp : Vk → Bool := fun _ => false
  /-- Only the five entries of real buttons are ever set. -/
  swallowMouseUp : MouseButton → Bool := fun _ => false
  trigDown : Bool := false
  trigSuppressed : Bool := false
  captureModVk : Vk := 0
  captureModScan : BitVec 16 := 0
  captureModExt : Bool := false
  captureState : CaptureState := .off

/-- What a handler leaves behind: the state, its calls in order, whether the event is
    swallowed, and whether the handler took it as its own. -/
structure Reply where
  engine : TriggerEngine
  calls : List SinkCall := []
  swallow : Bool := false
  handled : Bool := true

/-- `b >= MouseButton::WheelUp`. -/
def MouseButton.wheel (b : MouseButton) : Bool := decide (MouseButton.wheelUp.code ≤ b.code)

namespace TriggerEngine

/-- The modifiers held down by the physical keys. -/
def physMods (e : TriggerEngine) : BitVec 8 :=
  let held (l r : BitVec 16) (bit : BitVec 8) : BitVec 8 :=
    if e.physKey (l.setWidth 8) || e.physKey (r.setWidth 8) then bit else 0
  held VK_LCONTROL VK_RCONTROL ModCtrl ||| held VK_LSHIFT VK_RSHIFT ModShift |||
    held VK_LMENU VK_RMENU ModAlt ||| held VK_LWIN VK_RWIN ModWin

/-- `(physMods() & c.mods) == c.mods`. -/
def modsHeld (e : TriggerEngine) (c : KeyChord) : Bool := e.physMods &&& c.mods == c.mods

/-- A generic modifier stands for both of its keys; Enter is told from the keypad's Enter. -/
def keyMatches (c : KeyChord) (vk : Vk) (ext : Bool) : Bool :=
  let v := vk.setWidth 16
  c.isKeyboard &&
    if c.code = VK_CONTROL then v == VK_LCONTROL || v == VK_RCONTROL || v == VK_CONTROL
    else if c.code = VK_SHIFT then v == VK_LSHIFT || v == VK_RSHIFT || v == VK_SHIFT
    else if c.code = VK_MENU then v == VK_LMENU || v == VK_RMENU || v == VK_MENU
    else if c.code = VK_RETURN then v == VK_RETURN && ext == c.extended
    else c.code == v

/-- `c.isMouse() && c.code == int(b)`. -/
def mouseMatches (c : KeyChord) (b : MouseButton) : Bool := c.isMouse && c.code == b.code

/-- `physKey_[vk] = down`. -/
def setPhysKey (e : TriggerEngine) (vk : Vk) (down : Bool) : TriggerEngine :=
  { e with physKey := Function.update e.physKey vk down }

/-- `swallowUp_[vk] = v`. -/
def setSwallowUp (e : TriggerEngine) (vk : Vk) (v : Bool) : TriggerEngine :=
  { e with swallowUp := Function.update e.swallowUp vk v }

/-- `swallowMouseUp_[b] = v`. -/
def setSwallowMouseUp (e : TriggerEngine) (b : MouseButton) (v : Bool) : TriggerEngine :=
  { e with swallowMouseUp := Function.update e.swallowMouseUp b v }

/-! ### Configuration and captures -/

/-- `setConfig`: the configuration waits until the trigger thread takes it. -/
def setConfig (e : TriggerEngine) (cfg : TriggerConfig) : TriggerEngine :=
  { e with pending := cfg, pendingValid := true }

/-- `applyPendingConfig`: the trigger thread takes it; a new trigger is up. -/
def applyPendingConfig (e : TriggerEngine) : TriggerEngine :=
  if e.pendingValid then
    let triggerChanged := !e.pending.trigger.same e.cfg.trigger
    { e with
      pendingValid := false
      cfg := e.pending
      trigDown := e.trigDown && !triggerChanged
      trigSuppressed := e.trigSuppressed && !triggerChanged }
  else e

/-- `beginCapture`: the handlers listen for a chord. -/
def beginCapture (e : TriggerEngine) (allowMouse : Bool) : TriggerEngine :=
  { e with captureState := if allowMouse then .keyboardMouse else .keyboard }

/-- `cancelCapture`: they stop listening. -/
def cancelCapture (e : TriggerEngine) : TriggerEngine := { e with captureState := .off }

/-! ### Keys -/

/-- A modifier pressed and released on its own is a chord. -/
def captureModifier (e : TriggerEngine) (vk : Vk) : Reply :=
  if e.captureModVk = vk then
    let c : KeyChord := {
      device := .keyboard
      code := vk.setWidth 16
      scan := e.captureModScan
      extended := e.captureModExt
      mods := e.physMods }
    { engine := { e with captureModVk := 0, captureState := .off }, calls := [.onCaptured c] }
  else { engine := e }

/-- Binding capture of a key: absolute priority, eats the keys it uses. -/
def captureKey (e : TriggerEngine) (wasDown down : Bool) (vk : Vk) (scan : BitVec 16)
    (ext : Bool) : Reply :=
  if down then
    if isModifierVk (vk.setWidth 16) then
      -- An auto-repeat does not become the captured modifier.
      let e := if wasDown then e
        else { e with captureModVk := vk, captureModScan := scan, captureModExt := ext }
      { engine := e.setSwallowUp vk true, swallow := true }
    else
      let c : KeyChord := {
        device := .keyboard
        code := vk.setWidth 16
        scan := scan
        extended := ext
        mods := e.physMods }
      { engine := { e with captureModVk := 0, captureState := .off }.setSwallowUp vk true
        calls := [.onCaptured c]
        swallow := true }
  else
    -- The release of a modifier may end the capture; its mark is looked at all the same.
    let r := e.captureModifier vk
    if r.engine.swallowUp vk then
      { r with engine := r.engine.setSwallowUp vk false, swallow := true }
    else r

/-- A press of the trigger. -/
def pressTrigger (e : TriggerEngine) (qpc : ℤ) (armed : Bool) : Reply :=
  let suppressed := e.cfg.suppressTrigger && armed
  { engine := { e with trigDown := true, trigSuppressed := suppressed }
    calls := [.onTriggerDown qpc]
    swallow := suppressed }

/-- The release of a pressed trigger; `swallow` is what the event had so far. -/
def releaseTrigger (e : TriggerEngine) (qpc : ℤ) (swallow : Bool) : Reply :=
  { engine := { e with trigDown := false, trigSuppressed := false }
    calls := [.onTriggerUp qpc]
    swallow := swallow || e.trigSuppressed }

/-- `handleKey`, with its out-parameter `swallow` in the reply. -/
def handleKey (e : TriggerEngine) (down : Bool) (vk : Vk) (scan : BitVec 16) (ext : Bool)
    (qpc : ℤ) (armed : Bool) : Reply :=
  let wasDown := e.physKey vk
  let e := e.setPhysKey vk down
  -- 1) Binding capture.
  if e.captureState ≠ .off then e.captureKey wasDown down vk scan ext
  else
    -- 2) Key-ups whose key-down was swallowed.
    let swallow := !down && e.swallowUp vk
    let e := if swallow then e.setSwallowUp vk false else e
    if swallow && !(e.trigDown && keyMatches e.cfg.trigger vk ext) then
      { engine := e, swallow := true }
    -- 3) Emergency stop, independent of mode, profile and armed state.
    else if down && !wasDown && keyMatches e.cfg.emergency vk ext && e.modsHeld e.cfg.emergency then
      { engine := e.setSwallowUp vk true, calls := [.onEmergency], swallow := true }
    -- 4) Trigger.
    else if keyMatches e.cfg.trigger vk ext then
      if down then
        if e.trigDown then { engine := e, swallow := e.trigSuppressed } -- auto-repeat
        else if e.modsHeld e.cfg.trigger then e.pressTrigger qpc armed
        else { engine := e }
      else if e.trigDown then e.releaseTrigger qpc swallow
      else { engine := e, swallow := swallow }
    else { engine := e, swallow := swallow, handled := false }

/-! ### Mouse buttons and wheel -/

/-- `onOwn`: the pointer is over the own window. -/
def handleMouse (e : TriggerEngine) (b : MouseButton) (down : Bool) (onOwn : Bool) (qpc : ℤ)
    (armed : Bool) : Reply :=
  if e.captureState = .keyboardMouse then
    -- Left clicks on the own window pass, so that its Cancel stays clickable.
    if b = .left ∧ e.cfg.ownWindow = true ∧ onOwn = true then { engine := e, handled := false }
    else if down then
      let e' := { e with captureState := .off }
      { engine := if b.wheel then e' else e'.setSwallowMouseUp b true
        calls := [.onCaptured (.mouse b e.physMods)]
        swallow := true }
    else { engine := e }
  else
    let swallow := !b.wheel && !down && e.swallowMouseUp b
    let e := if swallow then e.setSwallowMouseUp b false else e
    if swallow && !(e.trigDown && mouseMatches e.cfg.trigger b) then
      { engine := e, swallow := true }
    -- Emergency stop; a wheel notch has no up to swallow.
    else if down && mouseMatches e.cfg.emergency b && e.modsHeld e.cfg.emergency then
      { engine := if b.wheel then e else e.setSwallowMouseUp b true
        calls := [.onEmergency]
        swallow := true }
    else if mouseMatches e.cfg.trigger b then
      let modsOk := e.modsHeld e.cfg.trigger
      if b.wheel then
        -- A wheel notch is a momentary press.
        if down && modsOk then
          { engine := e
            calls := [.onTriggerDown qpc, .onTriggerUp qpc]
            swallow := e.cfg.suppressTrigger && armed }
        else { engine := e, swallow := swallow }
      else if down then
        if e.trigDown then { engine := e }
        else if modsOk then e.pressTrigger qpc armed
        else { engine := e }
      else if e.trigDown then e.releaseTrigger qpc swallow
      else { engine := e, swallow := swallow }
    else { engine := e, swallow := swallow, handled := false }

end TriggerEngine

/-! ### The machine -/

/-- What happens to the engine: a key or mouse event, or a call from another thread.  `armed` is
    the sink's answer to `isArmed`. -/
inductive TriggerInput where
  | key (down : Bool) (vk : Vk) (scan : BitVec 16) (ext : Bool) (qpc : ℤ) (armed : Bool)
  | mouse (b : MouseButton) (down onOwn : Bool) (qpc : ℤ) (armed : Bool)
  | setConfig (cfg : TriggerConfig)
  | applyPendingConfig
  | beginCapture (allowMouse : Bool)
  | cancelCapture

/-- What a move shows: the calls to the sink, and that the event was swallowed. -/
inductive TriggerEvent where
  | call (c : SinkCall)
  | swallowed
deriving DecidableEq, Repr

/-- What a handler's call is to the others: the calls it makes, then its verdict. -/
def Reply.events (r : Reply) : List TriggerEvent :=
  r.calls.map .call ++ if r.swallow then [.swallowed] else []

/-- One input of the trigger thread. -/
def TriggerEngine.step (e : TriggerEngine) : TriggerInput → TriggerEngine × List TriggerEvent
  | .key down vk scan ext qpc armed =>
    let r := e.handleKey down vk scan ext qpc armed
    (r.engine, r.events)
  | .mouse b down onOwn qpc armed =>
    let r := e.handleMouse b down onOwn qpc armed
    (r.engine, r.events)
  | .setConfig cfg => (e.setConfig cfg, [])
  | .applyPendingConfig => (e.applyPendingConfig, [])
  | .beginCapture allowMouse => (e.beginCapture allowMouse, [])
  | .cancelCapture => (e.cancelCapture, [])

/-- The trigger thread. -/
def triggerMachine : Machine TriggerEngine TriggerInput TriggerEvent where
  step := TriggerEngine.step

/-! ### What a handled event does -/

/-- A physical key (a virtual-key code and the extended flag), a mouse button or a wheel
    direction. -/
inductive Source where
  | key (vk : Vk) (ext : Bool)
  | button (b : MouseButton)
deriving DecidableEq, Repr

namespace Source

/-- The source is a direction of the wheel, which is never held. -/
def wheel : Source → Bool
  | .key _ _ => false
  | .button b => b.wheel

/-- The two have one entry in the tables of swallowed ups. -/
def shares : Source → Source → Bool
  | .key vk _, .key vk' _ => vk == vk'
  | .button b, .button b' => b == b'
  | _, _ => false

/-- The source is the key or button of the chord. -/
def isOf (c : KeyChord) : Source → Bool
  | .key vk ext => TriggerEngine.keyMatches c vk ext
  | .button b => TriggerEngine.mouseMatches c b

/-- A source has its own entry. -/
@[simp] theorem shares_self (src : Source) : src.shares src = true := by
  cases src <;> simp [shares]

end Source

/-- Chords that `operator==` takes for the same have the same sources. -/
theorem Source.isOf_same {c c' : KeyChord} (h : c.same c' = true) (src : Source) :
    src.isOf c = src.isOf c' := by
  obtain ⟨d, code, scan, ext, mods⟩ := c
  obtain ⟨d', code', scan', ext', mods'⟩ := c'
  simp only [KeyChord.same, Bool.and_eq_true, Bool.or_eq_true, beq_iff_eq, bne_iff_ne] at h
  obtain ⟨⟨⟨rfl, rfl⟩, -⟩, hext⟩ := h
  cases src with
  | key vk e =>
    rcases hext with hdev | rfl
    · -- Only a keyboard chord looks at the extended flag.
      have hno : (d == Device.keyboard) = false := by simpa using hdev
      simp [Source.isOf, TriggerEngine.keyMatches, KeyChord.isKeyboard, hno]
    · rfl
  | button b => rfl

/-- The code tells the buttons apart. -/
theorem MouseButton.code_injective {b b' : MouseButton} (h : b.code = b'.code) : b = b' := by
  cases b <;> cases b' <;> first | rfl | exact absurd h (by decide)

/-- A button is the only source of its chord. -/
theorem Source.isOf_button {c : KeyChord} {b : MouseButton} {src : Source}
    (hb : (Source.button b).isOf c = true) (hsrc : src.isOf c = true) : src = .button b := by
  simp only [Source.isOf, TriggerEngine.mouseMatches, KeyChord.isMouse, Bool.and_eq_true,
    beq_iff_eq] at hb
  cases src with
  | key vk ext =>
    simp [Source.isOf, TriggerEngine.keyMatches, KeyChord.isKeyboard, hb.1] at hsrc
  | button b' =>
    simp only [Source.isOf, TriggerEngine.mouseMatches, Bool.and_eq_true, beq_iff_eq] at hsrc
    rw [MouseButton.code_injective (hsrc.2.symm.trans hb.2)]

/-- Every button. -/
def MouseButton.all : List MouseButton :=
  [.left, .right, .middle, .x1, .x2, .wheelUp, .wheelDown, .wheelLeft, .wheelRight]

/-- There are no others. -/
theorem MouseButton.mem_all (b : MouseButton) : b ∈ all := by
  cases b <;> decide

/-- A fact about all sources can be checked: there are 512 keys and 9 buttons. -/
instance Source.decidableForall {p : Source → Prop} [DecidablePred p] : Decidable (∀ s, p s) :=
  decidable_of_iff ((∀ vk ext, p (.key vk ext)) ∧ ∀ b ∈ MouseButton.all, p (.button b))
    ⟨fun h s => match s with
      | .key vk ext => h.1 vk ext
      | .button b => h.2 b b.mem_all,
    fun h => ⟨fun _ _ => h _, fun _ _ => h _⟩⟩

/-- The source of a key or mouse event. -/
def TriggerInput.source? : TriggerInput → Option Source
  | .key _ vk _ ext _ _ => some (.key vk ext)
  | .mouse b _ _ _ _ => some (.button b)
  | _ => none

/-- The release of a source. -/
def Source.up : Source → TriggerInput
  | .key vk ext => .key false vk 0 ext 0 false
  | .button b => .mouse b false false 0 false

namespace TriggerEngine

/-- The tables have the source's next up marked to be swallowed. -/
def marked (e : TriggerEngine) : Source → Bool
  | .key vk _ => e.swallowUp vk
  | .button b => !b.wheel && e.swallowMouseUp b

/-- The source holds the suppressed trigger down. -/
def heldBack (e : TriggerEngine) (src : Source) : Bool :=
  e.trigDown && e.trigSuppressed && src.isOf e.cfg.trigger

end TriggerEngine

/-- The trigger edges of a list of calls: a press is `true`. -/
def triggerEdges (evs : List TriggerEvent) : List Bool :=
  evs.filterMap fun
    | .call (.onTriggerDown _) => some true
    | .call (.onTriggerUp _) => some false
    | _ => none

/-- No events, no edges. -/
@[simp] theorem triggerEdges_nil : triggerEdges [] = [] := rfl

/-- The edges of two traces, one after the other. -/
theorem triggerEdges_append (evs evs' : List TriggerEvent) :
    triggerEdges (evs ++ evs') = triggerEdges evs ++ triggerEdges evs' := List.filterMap_append

/-- Swallowing is no edge. -/
theorem triggerEdges_events (r : Reply) :
    triggerEdges r.events = triggerEdges (r.calls.map .call) := by
  rw [Reply.events, triggerEdges_append]
  cases r.swallow <;> simp [triggerEdges]

/-- The verdict is in the reply. -/
theorem swallowed_mem_events (r : Reply) : .swallowed ∈ r.events ↔ r.swallow = true := by
  simp [Reply.events]

/-- What a handled event did: the trigger's state, the marks, the edges, the verdict. -/
structure Effect (e : TriggerEngine) (r : Reply) (trigDown trigSuppressed : Bool)
    (marked : Source → Bool) (edges : List Bool) (swallow : Bool) : Prop where
  cfg : r.engine.cfg = e.cfg
  trigDown : r.engine.trigDown = trigDown
  trigSuppressed : r.engine.trigSuppressed = trigSuppressed
  marked : ∀ src, r.engine.marked src = marked src
  edges : triggerEdges r.events = edges
  swallow : r.swallow = swallow

/-- Which branch a key-down or button-down takes. -/
inductive DownBranch where
  /-- Eaten by a capture or as the emergency chord; its up is marked. -/
  | hidden
  /-- A press of the trigger. -/
  | presses
  /-- An auto-repeat of the suppressed trigger. -/
  | repeats
  /-- Left to the other applications. -/
  | passes
deriving DecidableEq, Repr

namespace TriggerEngine

/-- The branch that a down takes. -/
def downBranch (e : TriggerEngine) (onOwn : Bool) : Source → DownBranch
  | .key vk ext =>
    let mods := (e.setPhysKey vk true).modsHeld
    if e.captureState ≠ .off then .hidden
    else if !e.physKey vk && keyMatches e.cfg.emergency vk ext && mods e.cfg.emergency then .hidden
    else if keyMatches e.cfg.trigger vk ext then
      if e.trigDown then if e.trigSuppressed then .repeats else .passes
      else if mods e.cfg.trigger then .presses
      else .passes
    else .passes
  | .button b =>
    if e.captureState = .keyboardMouse then
      if b = .left ∧ e.cfg.ownWindow = true ∧ onOwn = true then .passes else .hidden
    else if mouseMatches e.cfg.emergency b && e.modsHeld e.cfg.emergency then .hidden
    else if mouseMatches e.cfg.trigger b then
      -- No auto-repeat here: a second down of a pressed trigger passes.
      if e.trigDown then .passes
      else if e.modsHeld e.cfg.trigger then .presses
      else .passes
    else .passes

/-- What a down of `src` does in its branch. -/
def DownSpec (e : TriggerEngine) (src : Source) (armed : Bool) (r : Reply) : DownBranch → Prop
  | .hidden =>
    Effect e r e.trigDown e.trigSuppressed (fun s => e.marked s || src.shares s) [] true
  | .presses =>
    e.trigDown = false ∧ src.isOf e.cfg.trigger = true ∧
      Effect e r true (e.cfg.suppressTrigger && armed) e.marked [true]
        (e.cfg.suppressTrigger && armed)
  | .repeats =>
    e.heldBack src = true ∧ Effect e r e.trigDown e.trigSuppressed e.marked [] true
  | .passes => Effect e r e.trigDown e.trigSuppressed e.marked [] false

/-- What an up of `src` does outside captures. -/
def UpSpec (e : TriggerEngine) (src : Source) (r : Reply) : Prop :=
  if e.trigDown && src.isOf e.cfg.trigger then
    Effect e r false false (fun s => e.marked s && !src.shares s) [false]
      (e.marked src || e.trigSuppressed)
  else
    Effect e r e.trigDown e.trigSuppressed (fun s => e.marked s && !src.shares s) []
      (e.marked src)

/-! ### The handlers meet their specifications -/

/-- The trigger's state and configuration are the same. -/
structure SameTrigger (e e' : TriggerEngine) : Prop where
  cfg : e'.cfg = e.cfg
  trigDown : e'.trigDown = e.trigDown
  trigSuppressed : e'.trigSuppressed = e.trigSuppressed

variable {e e' : TriggerEngine}

namespace SameTrigger

/-- Nothing has changed. -/
theorem refl (e : TriggerEngine) : SameTrigger e e := ⟨rfl, rfl, rfl⟩

/-- Which keys are down is no part of the trigger's state. -/
theorem setPhysKey (h : SameTrigger e e') (vk : Vk) (down : Bool) :
    SameTrigger e (e'.setPhysKey vk down) := ⟨h.cfg, h.trigDown, h.trigSuppressed⟩

/-- Nor is which key-ups are to be swallowed. -/
theorem setSwallowUp (h : SameTrigger e e') (vk : Vk) (v : Bool) :
    SameTrigger e (e'.setSwallowUp vk v) := ⟨h.cfg, h.trigDown, h.trigSuppressed⟩

/-- Nor which button-ups. -/
theorem setSwallowMouseUp (h : SameTrigger e e') (b : MouseButton) (v : Bool) :
    SameTrigger e (e'.setSwallowMouseUp b v) := ⟨h.cfg, h.trigDown, h.trigSuppressed⟩

/-- Nor is the capture. -/
theorem setCapture (h : SameTrigger e e') (vk : Vk) (scan : BitVec 16) (ext : Bool)
    (c : CaptureState) :
    SameTrigger e { e' with
      captureModVk := vk
      captureModScan := scan
      captureModExt := ext
      captureState := c } := ⟨h.cfg, h.trigDown, h.trigSuppressed⟩

/-- A reply that leaves the trigger alone and sends no edge. -/
theorem reply {r : Reply} (h : SameTrigger e r.engine) {marked : Source → Bool}
    (hmarked : ∀ src, r.engine.marked src = marked src)
    (hcalls : triggerEdges (r.calls.map .call) = []) :
    Effect e r e.trigDown e.trigSuppressed marked [] r.swallow :=
  ⟨h.cfg, h.trigDown, h.trigSuppressed, hmarked, (triggerEdges_events r).trans hcalls, rfl⟩

/-- A branch that leaves the trigger alone and calls nothing for it. -/
theorem effect (h : SameTrigger e e') {marked : Source → Bool}
    (hmarked : ∀ src, e'.marked src = marked src) {calls : List SinkCall}
    (hcalls : triggerEdges (calls.map .call) = []) (swallow handled : Bool) :
    Effect e { engine := e', calls := calls, swallow := swallow, handled := handled }
      e.trigDown e.trigSuppressed marked [] swallow :=
  reply (by exact h) hmarked hcalls

end SameTrigger

/-- A key's state is not in the configuration. -/
@[simp] theorem setPhysKey_cfg (vk : Vk) (d : Bool) : (e.setPhysKey vk d).cfg = e.cfg := rfl

/-- It is not in the trigger's state. -/
@[simp] theorem setPhysKey_trigDown (vk : Vk) (d : Bool) :
    (e.setPhysKey vk d).trigDown = e.trigDown := rfl

/-- Nor in whether its press is suppressed. -/
@[simp] theorem setPhysKey_trigSuppressed (vk : Vk) (d : Bool) :
    (e.setPhysKey vk d).trigSuppressed = e.trigSuppressed := rfl

/-- Nor in the capture. -/
@[simp] theorem setPhysKey_captureState (vk : Vk) (d : Bool) :
    (e.setPhysKey vk d).captureState = e.captureState := rfl

/-- Nor in the marks. -/
@[simp] theorem setPhysKey_swallowUp (vk : Vk) (d : Bool) :
    (e.setPhysKey vk d).swallowUp = e.swallowUp := rfl

/-- Marking a key sets or clears the entry all keys of its code share. -/
theorem setSwallowUp_marked (vk : Vk) (ext v : Bool) (src : Source) :
    (e.setSwallowUp vk v).marked src =
      if (Source.key vk ext).shares src then v else e.marked src := by
  cases src with
  | key vk' ext' =>
    simp only [marked, setSwallowUp, Function.update_apply, Source.shares, beq_iff_eq]
    by_cases h : vk' = vk
    · simp [h]
    · simp [h, Ne.symm h]
  | button b => rfl

/-- A button's mark is the button's alone. -/
theorem setSwallowMouseUp_marked {b : MouseButton} (hb : b.wheel = false) (v : Bool)
    (src : Source) :
    (e.setSwallowMouseUp b v).marked src =
      if (Source.button b).shares src then v else e.marked src := by
  cases src with
  | key vk ext => rfl
  | button b' =>
    simp only [marked, setSwallowMouseUp, Function.update_apply, Source.shares, beq_iff_eq]
    by_cases h : b' = b
    · simp [h, hb]
    · simp [h, Ne.symm h]

/-- A key's mark is set for its virtual-key code. -/
theorem marked_set (he' : e'.marked = e.marked) (vk : Vk) (ext : Bool) (src : Source) :
    (e'.setSwallowUp vk true).marked src = (e.marked src || (Source.key vk ext).shares src) := by
  rw [setSwallowUp_marked vk ext, he']
  cases (Source.key vk ext).shares src <;> simp

/-- Clearing a mark that may not be there. -/
theorem marked_clear (he' : e'.marked = e.marked) (vk : Vk) (ext : Bool) (src : Source) :
    (if e.swallowUp vk then e'.setSwallowUp vk false else e').marked src =
      (e.marked src && !(Source.key vk ext).shares src) := by
  split
  · rw [setSwallowUp_marked vk ext, he']
    cases (Source.key vk ext).shares src <;> simp
  · next hoff =>
    -- Nothing to clear: no key of the code is marked.
    rw [he']
    cases src with
    | key vk' ext' =>
      by_cases h : vk = vk'
      · subst h
        simp [marked, hoff]
      · simp [Source.shares, h]
    | button b => simp [Source.shares]

/-- A press of the trigger, with its marks as they were. -/
theorem pressTrigger_effect (hcfg : e'.cfg = e.cfg) (hmarked : e'.marked = e.marked) (qpc : ℤ)
    (armed : Bool) :
    Effect e (e'.pressTrigger qpc armed) true (e.cfg.suppressTrigger && armed) e.marked [true]
      (e.cfg.suppressTrigger && armed) := by
  have hedges : triggerEdges (e'.pressTrigger qpc armed).events = [true] := by
    rw [triggerEdges_events]
    rfl
  rw [← hcfg]
  exact ⟨hcfg, rfl, rfl, fun src => congrFun hmarked src, hedges, rfl⟩

/-- The release of the trigger, its mark cleared on the way. -/
theorem releaseTrigger_effect (h : SameTrigger e e') {marked : Source → Bool}
    (hmarked : ∀ src, e'.marked src = marked src) (qpc : ℤ) (swallow : Bool) :
    Effect e (e'.releaseTrigger qpc swallow) false false marked [false]
      (swallow || e.trigSuppressed) := by
  have hedges : triggerEdges (e'.releaseTrigger qpc swallow).events = [false] := by
    rw [triggerEdges_events]
    rfl
  rw [← h.trigSuppressed]
  exact ⟨h.cfg, rfl, rfl, hmarked, hedges, rfl⟩

/-- The handlers' common way through an up, after its mark is cleared. -/
theorem up_spec {src : Source} (h : SameTrigger e e')
    (hclear : ∀ s, e'.marked s = (e.marked s && !src.shares s)) (qpc : ℤ) :
    UpSpec e src
      (if e.marked src && !(e'.trigDown && src.isOf e'.cfg.trigger) then
        { engine := e', swallow := true }
      else if src.isOf e'.cfg.trigger then
        if e'.trigDown then e'.releaseTrigger qpc (e.marked src)
        else { engine := e', swallow := e.marked src }
      else { engine := e', swallow := e.marked src, handled := false }) := by
  have hquiet : ∀ swallow handled,
      Effect e { engine := e', swallow := swallow, handled := handled } e.trigDown
        e.trigSuppressed (fun s => e.marked s && !src.shares s) [] swallow :=
    h.effect hclear rfl
  rw [h.cfg, h.trigDown]
  unfold UpSpec
  cases hd : e.trigDown with
  | true =>
    rw [hd] at hquiet
    cases src.isOf e.cfg.trigger with
    | true =>
      -- The source holds the trigger: the up goes on past the mark and releases it.
      simp only [Bool.not_true, Bool.and_false, Bool.and_self, Bool.false_eq_true, if_false,
        if_true]
      exact releaseTrigger_effect h hclear qpc _
    | false =>
      cases e.marked src with
      | true => exact hquiet _ _
      | false => exact hquiet _ _
  | false =>
    rw [hd] at hquiet
    cases e.marked src with
    | true => exact hquiet _ _
    | false =>
      cases src.isOf e.cfg.trigger with
      | true => exact hquiet _ _
      | false => exact hquiet _ _

/-! ### What a handler leaves alone -/

/-- What the engine has been told by `setConfig` and what it has taken of that. -/
def told (e : TriggerEngine) : TriggerConfig × TriggerConfig × Bool :=
  (e.cfg, e.pending, e.pendingValid)

/-- The branches of a handler one by one. -/
theorem ite_told {c : Prop} [Decidable c] {r r' : Reply} (h : r.engine.told = e.told)
    (h' : r'.engine.told = e.told) : (if c then r else r').engine.told = e.told := by
  split
  · exact h
  · exact h'

/-- A lone modifier that ends a capture leaves the configurations. -/
theorem captureModifier_told (vk : Vk) : (e.captureModifier vk).engine.told = e.told := by
  rw [captureModifier]
  exact ite_told rfl rfl

/-- So does any key of a capture. -/
theorem captureKey_told (wasDown down : Bool) (vk : Vk) (scan : BitVec 16) (ext : Bool) :
    (e.captureKey wasDown down vk scan ext).engine.told = e.told := by
  refine ite_told (ite_told ?_ rfl) (ite_told ?_ ?_)
  · cases wasDown <;> rfl
  · exact captureModifier_told vk
  · exact captureModifier_told vk

/-- A handler leaves the configuration to `setConfig` and `applyPendingConfig`. -/
theorem handleKey_told (down : Bool) (vk : Vk) (scan : BitVec 16) (ext : Bool) (qpc : ℤ)
    (armed : Bool) : (e.handleKey down vk scan ext qpc armed).engine.told = e.told := by
  have hclear : ∀ swallow : Bool, (if swallow then (e.setPhysKey vk down).setSwallowUp vk false
      else e.setPhysKey vk down).told = e.told := by
    intro swallow
    cases swallow <;> rfl
  -- The branches of `handleKey` in their order: capture, swallowed up, emergency stop, trigger.
  refine ite_told (captureKey_told _ _ _ _ _) ?_
  refine ite_told (hclear _) (ite_told (hclear _) (ite_told ?_ (hclear _)))
  refine ite_told (ite_told (hclear _) (ite_told (hclear _) (hclear _))) ?_
  exact ite_told (hclear _) (hclear _)

/-- So does a button. -/
theorem handleMouse_told (b : MouseButton) (down onOwn : Bool) (qpc : ℤ) (armed : Bool) :
    (e.handleMouse b down onOwn qpc armed).engine.told = e.told := by
  have hclear : ∀ swallow : Bool,
      (if swallow then e.setSwallowMouseUp b false else e).told = e.told := by
    intro swallow
    cases swallow <;> rfl
  have hmark : ∀ (e' : TriggerEngine) (wheel : Bool), e'.told = e.told →
      (if wheel then e' else e'.setSwallowMouseUp b true).told = e.told := by
    intro e' wheel h
    cases wheel with
    | true => exact h
    | false => exact h
  refine ite_told (ite_told rfl (ite_told (hmark _ _ rfl) rfl)) ?_
  refine ite_told (hclear _) (ite_told (hmark _ _ (hclear _)) (ite_told ?_ (hclear _)))
  refine ite_told (ite_told (hclear _) (hclear _)) (ite_told ?_ ?_)
  · exact ite_told (hclear _) (ite_told (hclear _) (hclear _))
  · exact ite_told (hclear _) (hclear _)

/-! ### The key handler -/

/-- A capture eats a key-down and marks its up. -/
theorem captureKey_down (wasDown : Bool) (vk : Vk) (scan : BitVec 16) (ext : Bool) :
    Effect e ((e.setPhysKey vk true).captureKey wasDown true vk scan ext) e.trigDown
      e.trigSuppressed (fun s => e.marked s || (Source.key vk ext).shares s) [] true := by
  have hsame := (SameTrigger.refl e).setPhysKey vk true
  have hset := fun (e' : TriggerEngine) (he' : e'.marked = e.marked) => marked_set he' vk ext
  unfold captureKey
  rw [if_pos rfl]
  split
  · -- A modifier: the capture goes on until it is released or another key comes.
    cases wasDown with
    | true => exact (hsame.setSwallowUp vk true).effect (hset _ rfl) rfl _ _
    | false =>
      exact ((hsame.setCapture vk scan ext _).setSwallowUp vk true).effect (hset _ rfl) rfl _ _
  · exact ((hsame.setCapture 0 _ _ .off).setSwallowUp vk true).effect (hset _ rfl) rfl _ _

/-- Capturing a chord from a modifier's up is only about the capture. -/
theorem captureModifier_same (h : SameTrigger e e') (vk : Vk) :
    SameTrigger e (e'.captureModifier vk).engine ∧
      (e'.captureModifier vk).engine.swallowUp = e'.swallowUp ∧
      (e'.captureModifier vk).engine.marked = e'.marked ∧
      triggerEdges ((e'.captureModifier vk).calls.map .call) = [] ∧
      (e'.captureModifier vk).swallow = false := by
  unfold captureModifier
  split
  · exact ⟨h.setCapture 0 _ _ .off, rfl, rfl, rfl, rfl⟩
  · exact ⟨h, rfl, rfl, rfl, rfl⟩

/-- A capture swallows a key-up whose key-down was, and forgets the mark. -/
theorem captureKey_up (wasDown : Bool) (vk : Vk) (scan : BitVec 16) (ext : Bool) :
    Effect e ((e.setPhysKey vk false).captureKey wasDown false vk scan ext) e.trigDown
      e.trigSuppressed (fun s => e.marked s && !(Source.key vk ext).shares s) []
      (e.marked (.key vk ext)) := by
  obtain ⟨hsame, hswallowUp, hmarked, hcalls, hswallow⟩ :=
    captureModifier_same ((SameTrigger.refl e).setPhysKey vk false) vk
  have hclear := @marked_clear e _ hmarked vk ext
  show Effect e _ _ _ _ [] (e.swallowUp vk)
  unfold captureKey
  rw [if_neg (by simp)]
  dsimp only
  rw [hswallowUp, setPhysKey_swallowUp]
  cases hmark : e.swallowUp vk with
  | true =>
    rw [hmark, if_pos rfl] at hclear
    exact (hsame.setSwallowUp vk false).effect hclear hcalls _ _
  | false =>
    rw [hmark, if_neg (by simp)] at hclear
    have heffect := hsame.reply hclear hcalls
    rw [hswallow] at heffect
    exact heffect

/-- **A key-down**, by its branch. -/
theorem handleKey_down (vk : Vk) (scan : BitVec 16) (ext : Bool) (qpc : ℤ) (armed onOwn : Bool) :
    DownSpec e (.key vk ext) armed (e.handleKey true vk scan ext qpc armed)
      (e.downBranch onOwn (.key vk ext)) := by
  have hsame := (SameTrigger.refl e).setPhysKey vk true
  have hpasses : ∀ swallow handled,
      Effect e { engine := e.setPhysKey vk true, swallow := swallow, handled := handled }
        e.trigDown e.trigSuppressed e.marked [] swallow := hsame.effect (fun _ => rfl) rfl
  by_cases hcap : e.captureState = .off
  · simp only [handleKey, downBranch, setPhysKey_captureState, hcap, ne_eq, not_true, if_false,
      Bool.not_true, Bool.false_and, Bool.true_and, Bool.false_eq_true, setPhysKey_cfg,
      setPhysKey_trigDown, setPhysKey_trigSuppressed, if_true]
    -- The emergency chord is looked at only on the first down of the key.
    generalize (!e.physKey vk && keyMatches e.cfg.emergency vk ext &&
      (e.setPhysKey vk true).modsHeld e.cfg.emergency) = stops
    cases stops with
    | true => exact (hsame.setSwallowUp vk true).effect (marked_set rfl vk ext) rfl _ _
    | false =>
      cases hmatch : keyMatches e.cfg.trigger vk ext with
      | false => exact hpasses _ _
      | true =>
        cases hdown : e.trigDown with
        | true =>
          cases hsup : e.trigSuppressed with
          | true =>
            have hheld : e.heldBack (.key vk ext) = true := by
              simp [heldBack, Source.isOf, hdown, hsup, hmatch]
            exact ⟨hheld, hpasses _ _⟩
          | false => exact hpasses _ _
        | false =>
          cases (e.setPhysKey vk true).modsHeld e.cfg.trigger with
          | true =>
            exact ⟨hdown, hmatch,
              @pressTrigger_effect e (e.setPhysKey vk true) rfl rfl qpc armed⟩
          | false => exact hpasses _ _
  · simp only [handleKey, downBranch, setPhysKey_captureState, hcap, ne_eq, not_false_eq_true,
      if_true]
    exact captureKey_down _ vk scan ext

/-- **A key-up** outside captures. -/
theorem handleKey_up (vk : Vk) (scan : BitVec 16) (ext : Bool) (qpc : ℤ) (armed : Bool)
    (hcap : e.captureState = .off) :
    UpSpec e (.key vk ext) (e.handleKey false vk scan ext qpc armed) := by
  have hclear := @marked_clear e (e.setPhysKey vk false) rfl vk ext
  have hsame : SameTrigger e (if e.swallowUp vk = true then
      (e.setPhysKey vk false).setSwallowUp vk false else e.setPhysKey vk false) := by
    have hkey := (SameTrigger.refl e).setPhysKey vk false
    split
    · exact hkey.setSwallowUp vk false
    · exact hkey
  simp only [handleKey, setPhysKey_captureState, hcap, ne_eq, not_true, if_false,
    Bool.not_false, Bool.true_and, Bool.false_and, Bool.false_eq_true, setPhysKey_swallowUp]
  exact up_spec hsame hclear qpc

/-- A key-up during a capture: swallowed if marked, and never a release of the trigger. -/
theorem handleKey_up_capture (vk : Vk) (scan : BitVec 16) (ext : Bool) (qpc : ℤ) (armed : Bool)
    (hcap : e.captureState ≠ .off) :
    Effect e (e.handleKey false vk scan ext qpc armed) e.trigDown e.trigSuppressed
      (fun s => e.marked s && !(Source.key vk ext).shares s) [] (e.marked (.key vk ext)) := by
  unfold handleKey
  rw [if_pos (by exact hcap)]
  exact captureKey_up _ vk scan ext

/-! ### The mouse handler -/

/-- **A button-down**, by its branch. -/
theorem handleMouse_down {b : MouseButton} (hb : b.wheel = false) (onOwn : Bool) (qpc : ℤ)
    (armed : Bool) :
    DownSpec e (.button b) armed (e.handleMouse b true onOwn qpc armed)
      (e.downBranch onOwn (.button b)) := by
  have hsame := SameTrigger.refl e
  have hpasses : ∀ swallow handled,
      Effect e { engine := e, swallow := swallow, handled := handled } e.trigDown
        e.trigSuppressed e.marked [] swallow := hsame.effect (fun _ => rfl) rfl
  have hmark : ∀ (e' : TriggerEngine), e'.marked = e.marked → ∀ src,
      (e'.setSwallowMouseUp b true).marked src =
        (e.marked src || (Source.button b).shares src) := by
    intro e' he' src
    rw [setSwallowMouseUp_marked hb, he']
    cases (Source.button b).shares src <;> simp
  by_cases hcap : e.captureState = .keyboardMouse
  -- The capture takes the button, unless it is the left one on the program's own window.
  · simp only [handleMouse, downBranch, hcap, if_true, hb, Bool.false_eq_true, if_false]
    by_cases hown : b = .left ∧ e.cfg.ownWindow = true ∧ onOwn = true
    · rw [if_pos hown, if_pos hown]
      exact hpasses _ _
    · rw [if_neg hown, if_neg hown]
      exact ((hsame.setCapture _ _ _ .off).setSwallowMouseUp b true).effect (hmark _ rfl) rfl _ _
  · simp only [handleMouse, downBranch, hcap, if_false, hb, Bool.not_false, Bool.not_true,
      Bool.true_and, Bool.false_and, Bool.false_eq_true, Bool.and_false, if_true]
    -- Outside a capture: the emergency stop first, then the trigger, and its modifiers.
    cases mouseMatches e.cfg.emergency b && e.modsHeld e.cfg.emergency with
    | true => exact (hsame.setSwallowMouseUp b true).effect (hmark _ rfl) rfl _ _
    | false =>
      cases hmatch : mouseMatches e.cfg.trigger b with
      | false => exact hpasses _ _
      | true =>
        cases hdown : e.trigDown with
        | true => exact hpasses _ _
        | false =>
          cases e.modsHeld e.cfg.trigger with
          | true => exact ⟨hdown, hmatch, @pressTrigger_effect e e rfl rfl qpc armed⟩
          | false => exact hpasses _ _

/-- An up during a mouse capture: left alone, whatever it belongs to. -/
theorem handleMouse_up_capture {b : MouseButton} (onOwn : Bool) (qpc : ℤ) (armed : Bool)
    (hcap : e.captureState = .keyboardMouse) :
    Effect e (e.handleMouse b false onOwn qpc armed) e.trigDown e.trigSuppressed e.marked []
      false := by
  simp only [handleMouse, hcap, if_true, Bool.false_eq_true, if_false]
  split
  · exact (SameTrigger.refl e).effect (fun _ => rfl) rfl _ _
  · exact (SameTrigger.refl e).effect (fun _ => rfl) rfl _ _

/-- **A button-up** outside mouse captures. -/
theorem handleMouse_up {b : MouseButton} (hb : b.wheel = false) (onOwn : Bool) (qpc : ℤ)
    (armed : Bool) (hcap : e.captureState ≠ .keyboardMouse) :
    UpSpec e (.button b) (e.handleMouse b false onOwn qpc armed) := by
  have hmark : e.marked (.button b) = e.swallowMouseUp b := by simp [marked, hb]
  have hsame : SameTrigger e
      (if e.marked (.button b) = true then e.setSwallowMouseUp b false else e) := by
    split
    · exact (SameTrigger.refl e).setSwallowMouseUp b false
    · exact SameTrigger.refl e
  have hclear : ∀ s,
      (if e.marked (.button b) = true then e.setSwallowMouseUp b false else e).marked s =
        (e.marked s && !(Source.button b).shares s) := by
    intro s
    split
    · rw [setSwallowMouseUp_marked hb]
      cases (Source.button b).shares s <;> simp
    -- Nothing was marked, so clearing the mark of this button clears nothing.
    · next hoff =>
      cases s with
      | key vk ext => simp [Source.shares]
      | button b' =>
        by_cases h : b = b'
        · subst h
          simp [hoff]
        · simp [Source.shares, h]
  simp only [handleMouse, hcap, if_false, hb, Bool.not_false, Bool.true_and, Bool.false_and,
    Bool.false_eq_true, ← hmark]
  exact up_spec hsame hclear qpc

/-- A wheel notch: a whole press of the trigger, or none. -/
theorem handleMouse_wheel {b : MouseButton} (hb : b.wheel = true) (down onOwn : Bool) (qpc : ℤ)
    (armed : Bool) :
    ∃ edges swallow, Effect e (e.handleMouse b down onOwn qpc armed) e.trigDown e.trigSuppressed
        e.marked edges swallow ∧
      (edges = [] ∨ edges = [true, false] ∧ (Source.button b).isOf e.cfg.trigger = true) := by
  have hsame := SameTrigger.refl e
  have hquiet : ∀ swallow handled,
      Effect e { engine := e, swallow := swallow, handled := handled } e.trigDown
        e.trigSuppressed e.marked [] swallow := hsame.effect (fun _ => rfl) rfl
  -- A capture takes the notch for its chord.
  by_cases hcap : e.captureState = .keyboardMouse
  · simp only [handleMouse, hcap, if_true, hb]
    split
    · exact ⟨[], _, hquiet _ _, .inl rfl⟩
    · cases down with
      | true =>
        exact ⟨[], _, (hsame.setCapture _ _ _ .off).effect (fun _ => rfl) rfl _ _, .inl rfl⟩
      | false => exact ⟨[], _, hquiet _ _, .inl rfl⟩
  · simp only [handleMouse, hcap, if_false, hb, Bool.not_true, Bool.false_and, Bool.false_eq_true,
      if_true]
    cases down && mouseMatches e.cfg.emergency b && e.modsHeld e.cfg.emergency with
    | true => exact ⟨[], _, hsame.effect (fun _ => rfl) rfl _ _, .inl rfl⟩
    | false =>
      cases hmatch : mouseMatches e.cfg.trigger b with
      | false => exact ⟨[], _, hquiet _ _, .inl rfl⟩
      | true =>
        cases down && e.modsHeld e.cfg.trigger with
        | false => exact ⟨[], _, hquiet _ _, .inl rfl⟩
        | true =>
          refine ⟨[true, false], _, ⟨rfl, rfl, rfl, fun _ => rfl, ?_, rfl⟩, .inr ⟨rfl, hmatch⟩⟩
          rw [triggerEdges_events]
          rfl

end TriggerEngine

end InfinityClicker
