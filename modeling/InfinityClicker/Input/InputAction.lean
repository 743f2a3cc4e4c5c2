import InfinityClicker.Input.KeyChord

namespace InfinityClicker

/-!
# Input actions and their compiled programs

`compileAction` turns the description of an action (chord, hold time, repeats, gap) into an
`ActionProgram`: steps at tick offsets, each one `SendInput` call.

* `INPUT` — one synthesized event, with the fields the program reads or fills;
* `makeMouseInput` / `makeKeyInput` — the builders;
* `compileAction` — the event timeline (`pressLoop` between the two `appendMods`) grouped into
  steps by equal time (`pushEvent`).
-/

/-! ### `INPUT` -/

/-- `MOUSEINPUT`, the members that the program fills. -/
structure MouseInput where
  mouseData : BitVec 32 := 0
  dwFlags : BitVec 32 := 0
  dwExtraInfo : BitVec 64 := 0
deriving DecidableEq, Repr

/-- `KEYBDINPUT`, the members that the program fills. -/
structure KeybdInput where
  wVk : BitVec 16 := 0
  wScan : BitVec 16 := 0
  dwFlags : BitVec 32 := 0
  dwExtraInfo : BitVec 64 := 0
deriving DecidableEq, Repr

/-- An `INPUT`: its `type` and the union member it selects. -/
inductive INPUT where
  | mouse (mi : MouseInput)
  | keyboard (ki : KeybdInput)
  | hardware
deriving DecidableEq, Repr

/-- Left button goes down. -/
def MOUSEEVENTF_LEFTDOWN : BitVec 32 := 0x0002

/-- Left button comes up. -/
def MOUSEEVENTF_LEFTUP : BitVec 32 := 0x0004

/-- Right button goes down. -/
def MOUSEEVENTF_RIGHTDOWN : BitVec 32 := 0x0008

/-- Right button comes up. -/
def MOUSEEVENTF_RIGHTUP : BitVec 32 := 0x0010

/-- Middle button goes down. -/
def MOUSEEVENTF_MIDDLEDOWN : BitVec 32 := 0x0020

/-- Middle button comes up. -/
def MOUSEEVENTF_MIDDLEUP : BitVec 32 := 0x0040

/-- One of the X buttons goes down; `mouseData` says which. -/
def MOUSEEVENTF_XDOWN : BitVec 32 := 0x0080

/-- One of the X buttons comes up; `mouseData` says which. -/
def MOUSEEVENTF_XUP : BitVec 32 := 0x0100

/-- The vertical wheel turns by `mouseData`. -/
def MOUSEEVENTF_WHEEL : BitVec 32 := 0x0800

/-- The horizontal wheel turns by `mouseData`. -/
def MOUSEEVENTF_HWHEEL : BitVec 32 := 0x1000

/-- First X button, in `mouseData`. -/
def XBUTTON1 : BitVec 32 := 0x0001

/-- Second X button, in `mouseData`. -/
def XBUTTON2 : BitVec 32 := 0x0002

/-- The scan code carries the E0 prefix. -/
def KEYEVENTF_EXTENDEDKEY : BitVec 32 := 0x0001

/-- The key comes up. -/
def KEYEVENTF_KEYUP : BitVec 32 := 0x0002

/-- The key is named by its scan code. -/
def KEYEVENTF_SCANCODE : BitVec 32 := 0x0008

/-- Whether a flag word has a flag set. -/
def hasFlag (f flag : BitVec 32) : Bool := f &&& flag != 0

/-- `dwExtraInfo` of output actions ("INFC"). -/
def kTagInfClick : BitVec 64 := 0x494E4643
/-- `dwExtraInfo` of autotest-simulated physical input ("IBCN"). -/
def kTagBench : BitVec 64 := 0x4942434E

/-- How keys are named to `SendInput`. -/
inductive KeyInjectMode where
  | scanCode
  | virtualKey
deriving DecidableEq, Repr

/-- `makeMouseInput`: one `INPUT` for a button or for one notch of a wheel. -/
def makeMouseInput (b : Option MouseButton) (down : Bool) (wheelDelta : BitVec 32)
    (tag : BitVec 64) : INPUT :=
  match b with
  | some .left =>
    .mouse { dwFlags := if down then MOUSEEVENTF_LEFTDOWN else MOUSEEVENTF_LEFTUP,
             dwExtraInfo := tag }
  | some .right =>
    .mouse { dwFlags := if down then MOUSEEVENTF_RIGHTDOWN else MOUSEEVENTF_RIGHTUP,
             dwExtraInfo := tag }
  | some .middle =>
    .mouse { dwFlags := if down then MOUSEEVENTF_MIDDLEDOWN else MOUSEEVENTF_MIDDLEUP,
             dwExtraInfo := tag }
  | some .x1 =>
    .mouse { dwFlags := if down then MOUSEEVENTF_XDOWN else MOUSEEVENTF_XUP,
             mouseData := XBUTTON1, dwExtraInfo := tag }
  | some .x2 =>
    .mouse { dwFlags := if down then MOUSEEVENTF_XDOWN else MOUSEEVENTF_XUP,
             mouseData := XBUTTON2, dwExtraInfo := tag }
  | some .wheelUp =>
    .mouse { dwFlags := MOUSEEVENTF_WHEEL, mouseData := wheelDelta, dwExtraInfo := tag }
  | some .wheelDown =>
    .mouse { dwFlags := MOUSEEVENTF_WHEEL, mouseData := -wheelDelta, dwExtraInfo := tag }
  | some .wheelRight =>
    .mouse { dwFlags := MOUSEEVENTF_HWHEEL, mouseData := wheelDelta, dwExtraInfo := tag }
  | some .wheelLeft =>
    .mouse { dwFlags := MOUSEEVENTF_HWHEEL, mouseData := -wheelDelta, dwExtraInfo := tag }
  | none => .mouse { dwExtraInfo := tag }

/-- `makeKeyInput`: one `INPUT` for a key, by scan code or by virtual key. -/
def makeKeyInput (vk scan : BitVec 16) (extended up : Bool) (mode : KeyInjectMode)
    (tag : BitVec 64) : INPUT :=
  let f : BitVec 32 := 0
  let f := if up then f ||| KEYEVENTF_KEYUP else f
  let f := if extended then f ||| KEYEVENTF_EXTENDEDKEY else f
  let f := if mode = .scanCode ∧ scan ≠ 0 then f ||| KEYEVENTF_SCANCODE else f
  .keyboard { wVk := vk, wScan := scan, dwFlags := f, dwExtraInfo := tag }

/-! ### Actions -/

/-- `InputAction`: what one action presses, how long it holds and how often it repeats. -/
structure InputAction where
  chord : KeyChord := KeyChord.mouse .left
  /-- DOWN to UP hold time; 0 puts both in one `SendInput` batch. -/
  downTimeUs : ℕ := 0
  /-- Presses per action. -/
  repeatCount : ℕ := 1
  /-- UP to the next DOWN inside one action. -/
  repeatGapUs : ℕ := 0
  wheelDelta : BitVec 32 := 120
  keyMode : KeyInjectMode := .scanCode
deriving DecidableEq, Repr

/-- Room for inputs in one step of a program. -/
def kMaxStepInputs : ℕ := 16

/-- `ActionStep`: the inputs that one `SendInput` call sends. -/
structure ActionStep where
  /-- QPC ticks relative to the action start. -/
  offsetTicks : ℤ := 0
  /-- The filled part of the input array; its length is `count`. -/
  inputs : List INPUT := []
deriving DecidableEq, Repr

/-- Filled part of the input array. -/
def ActionStep.count (s : ActionStep) : ℕ := s.inputs.length

/-- `ActionProgram`: an action compiled into steps at fixed offsets. -/
structure ActionProgram where
  steps : List ActionStep := []
  /-- Offset of the last step. -/
  spanTicks : ℤ := 0
  /-- Total inputs for one action. -/
  inputsPerAction : ℕ := 0
  /-- All steps concatenated (MAX mode batching). -/
  flat : List INPUT := []
  /-- Non-empty if the action could not be compiled. -/
  error : String := ""
deriving DecidableEq, Repr

/-- `ActionProgram::ok`: compiled without an error, with something to send. -/
def ActionProgram.ok (p : ActionProgram) : Bool := p.error == "" && !p.steps.isEmpty

/-! ### The compiler -/

/-- The modifier keys in the order they are pressed. -/
def kModKeys : List (BitVec 8 × BitVec 16) :=
  [(ModCtrl, VK_LCONTROL), (ModShift, VK_LSHIFT), (ModAlt, VK_LMENU), (ModWin, VK_LWIN)]

/-- Whether a modifier is pressed around the main key: the chord asks for it and the main key is
    not of its own kind. -/
def modWanted (mods own bit : BitVec 8) : Bool := mods &&& bit != 0 && own &&& bit == 0

/-- One modifier's event, where it is wanted. -/
def modInput (P : Platform) (mods own : BitVec 8) (up : Bool) (mode : KeyInjectMode)
    (tag : BitVec 64) (m : BitVec 8 × BitVec 16) : List INPUT :=
  if modWanted mods own m.1 then
    [makeKeyInput m.2 (vkToScan P m.2).1 (vkToScan P m.2).2 up mode tag]
  else []

/-- `appendMods`: the modifiers of a chord, pressed in order and released in reverse. -/
def appendMods (P : Platform) (mods : BitVec 8) (mainVk : BitVec 16) (up : Bool)
    (mode : KeyInjectMode) (tag : BitVec 64) : List INPUT :=
  let own := modBitForVk mainVk
  let one := modInput P mods own up mode tag
  if !up then kModKeys.flatMap one else kModKeys.reverse.flatMap one

/-- A timed event of the timeline. -/
structure Ev where
  t : ℤ
  input : INPUT

/-- The repeated presses from time `t` on, `left` of them still to come, and the time after
    the last one. -/
def pressLoop (press : Bool → INPUT) (wheel : Bool) (hold gap : ℤ) : ℕ → ℤ → List Ev × ℤ
  | 0, t => ([], t)
  | left + 1, t =>
    let (evs, t) :=
      if wheel then ([⟨t, press true⟩], t)
      else ([⟨t, press true⟩, ⟨t + hold, press false⟩], t + hold)
    let t := if left > 0 then t + gap else t
    let (rest, t) := pressLoop press wheel hold gap left t
    (evs ++ rest, t)

/-- Group by timestamp, stable: an event joins the last step when it has its time and the step
    has room. -/
def pushEvent (steps : List ActionStep) (e : Ev) : List ActionStep :=
  match steps.getLast? with
  | none => [⟨e.t, [e.input]⟩]
  | some s =>
    if s.offsetTicks ≠ e.t ∨ kMaxStepInputs ≤ s.count then steps ++ [⟨e.t, [e.input]⟩]
    else steps.dropLast ++ [{ s with inputs := s.inputs ++ [e.input] }]

/-- The press or release of the chord's main key or button. -/
def mainInput (P : Platform) (a : InputAction) (tag : BitVec 64) (down : Bool) : INPUT :=
  let c := a.chord
  let (scan, ext) :=
    if c.isKeyboard && c.scan == 0 then vkToScan P c.code else (c.scan, c.extended)
  let ext := if c.isKeyboard && c.code == VK_RETURN then c.extended else ext
  if c.isMouse then makeMouseInput c.button down a.wheelDelta tag
  else
    -- Numpad digits share scan codes with Home, End, arrows: inject them by VK.
    let numpadVk :=
      (decide (VK_NUMPAD0 ≤ c.code) && decide (c.code ≤ VK_NUMPAD9)) || c.code == VK_DECIMAL
    makeKeyInput c.code scan ext (!down) (if numpadVk then .virtualKey else a.keyMode) tag

/-- The event timeline of one action: modifiers down, the presses, modifiers up. -/
def actionEvents (P : Platform) (a : InputAction) (tag : BitVec 64) : List Ev :=
  let c := a.chord
  let repeats := max 1 (min a.repeatCount 3)
  let hold := Clk.usToTicks P a.downTimeUs
  let gap := Clk.usToTicks P a.repeatGapUs
  let mainVk := if c.isKeyboard then c.code else 0
  let (presses, t) := pressLoop (mainInput P a tag) c.isWheel hold gap repeats 0
  (appendMods P c.mods mainVk false a.keyMode tag).map (⟨0, ·⟩) ++ presses ++
    (appendMods P c.mods mainVk true a.keyMode tag).map (⟨t, ·⟩)

/-- `compileAction`: the chord's events cut into steps, with the span and the counts. -/
def compileAction (P : Platform) (a : InputAction) (tag : BitVec 64 := kTagInfClick) :
    ActionProgram :=
  if !a.chord.valid then { error := "no action key/button assigned" }
  else
    let steps := (actionEvents P a tag).foldl pushEvent []
    { steps := steps
      spanTicks := (steps.getLast?.map ActionStep.offsetTicks).getD 0
      inputsPerAction := (steps.map ActionStep.count).sum
      flat := steps.flatMap ActionStep.inputs }

/-! ### What the compiled program sends -/

/-- Grouping keeps every event and their order. -/
theorem pushEvent_flat (steps : List ActionStep) (e : Ev) :
    (pushEvent steps e).flatMap ActionStep.inputs =
      steps.flatMap ActionStep.inputs ++ [e.input] := by
  unfold pushEvent
  cases hlast : steps.getLast? with
  | none =>
    have hnil : steps = [] := List.getLast?_eq_none_iff.mp hlast
    simp [hnil]
  | some s =>
    -- The event goes into a new step, or to the end of the last one.
    have hsplit : steps = steps.dropLast ++ [s] :=
      (List.dropLast_append_getLast? s hlast).symm
    by_cases hnew : s.offsetTicks ≠ e.t ∨ kMaxStepInputs ≤ s.count
    · simp [hnew]
    · simp only [hnew, if_false]
      rw [List.flatMap_append]
      conv_rhs => rw [hsplit, List.flatMap_append]
      simp

/-- Cutting events into steps keeps every input, in order. -/
theorem foldl_pushEvent_flat (evs : List Ev) (steps : List ActionStep) :
    (evs.foldl pushEvent steps).flatMap ActionStep.inputs =
      steps.flatMap ActionStep.inputs ++ evs.map Ev.input := by
  induction evs generalizing steps with
  | nil => simp
  | cons e evs ih => simp [ih, pushEvent_flat]

/-- The flat list of a compiled action is its event timeline. -/
theorem compileAction_flat (P : Platform) (a : InputAction) (tag : BitVec 64)
    (hv : a.chord.valid = true) :
    (compileAction P a tag).flat = (actionEvents P a tag).map Ev.input := by
  simp [compileAction, hv, foldl_pushEvent_flat]

/-- The flat list is the steps one after the other, whatever was compiled. -/
theorem compileAction_flat_steps (P : Platform) (a : InputAction) (tag : BitVec 64) :
    (compileAction P a tag).flat =
      (compileAction P a tag).steps.flatMap ActionStep.inputs := by
  unfold compileAction
  split <;> simp

/-- The number of inputs of an action is the length of its flat list. -/
theorem compileAction_inputsPerAction (P : Platform) (a : InputAction) (tag : BitVec 64) :
    (compileAction P a tag).inputsPerAction = (compileAction P a tag).flat.length := by
  unfold compileAction
  split
  · rfl
  · simp only [List.length_flatMap]
    rfl

/-- The presses of an action as inputs: one wheel event or a press and its release each. -/
theorem pressLoop_inputs (press : Bool → INPUT) (wheel : Bool) (hold gap : ℤ) (n : ℕ) (t : ℤ) :
    (pressLoop press wheel hold gap n t).1.map Ev.input =
      (List.replicate n
        (if wheel then [press true] else [press true, press false])).flatten := by
  induction n generalizing t with
  | zero => rfl
  | succ n ih =>
    cases wheel <;> simp [pressLoop, ih, List.replicate_succ]

/-- The event timeline as inputs. -/
theorem actionEvents_inputs (P : Platform) (a : InputAction) (tag : BitVec 64) :
    (actionEvents P a tag).map Ev.input =
      appendMods P a.chord.mods (if a.chord.isKeyboard then a.chord.code else 0) false a.keyMode
          tag ++
        (List.replicate (max 1 (min a.repeatCount 3))
          (if a.chord.isWheel then [mainInput P a tag true]
            else [mainInput P a tag true, mainInput P a tag false])).flatten ++
        appendMods P a.chord.mods (if a.chord.isKeyboard then a.chord.code else 0) true a.keyMode
          tag := by
  simp [actionEvents, pressLoop_inputs, Function.comp_def]

/-! ### When the steps are due -/

/-- The presses come at no negative time, and neither does what follows them. -/
theorem pressLoop_nonneg (press : Bool → INPUT) (wheel : Bool) {hold gap : ℤ} (hhold : 0 ≤ hold)
    (hgap : 0 ≤ gap) (n : ℕ) {t : ℤ} (ht : 0 ≤ t) :
    (∀ e ∈ (pressLoop press wheel hold gap n t).1, 0 ≤ e.t) ∧
      0 ≤ (pressLoop press wheel hold gap n t).2 := by
  induction n generalizing t with
  | zero => exact ⟨by simp [pressLoop], ht⟩
  | succ n ih =>
    -- Whatever the time after this press is, it is not negative.
    have hrest : ∀ t' : ℤ, 0 ≤ t' →
        (∀ e ∈ (pressLoop press wheel hold gap n (if n > 0 then t' + gap else t')).1, 0 ≤ e.t) ∧
          0 ≤ (pressLoop press wheel hold gap n (if n > 0 then t' + gap else t')).2 := by
      intro t' ht'
      refine ih ?_
      split <;> omega
    cases wheel with
    | true =>
      obtain ⟨hevs, hlast⟩ := hrest t ht
      refine ⟨fun e he => ?_, hlast⟩
      rcases List.mem_append.mp he with hone | htail
      · rw [List.mem_singleton.mp hone]
        exact ht
      · exact hevs e htail
    | false =>
      obtain ⟨hevs, hlast⟩ := hrest (t + hold) (by omega)
      refine ⟨fun e he => ?_, hlast⟩
      rcases List.mem_append.mp he with htwo | htail
      · simp only [List.mem_cons, List.not_mem_nil, or_false] at htwo
        rcases htwo with rfl | rfl
        · exact ht
        · show 0 ≤ t + hold
          omega
      · exact hevs e htail

/-- No event of an action lies before its start. -/
theorem actionEvents_nonneg (P : Platform) (a : InputAction) (tag : BitVec 64) :
    ∀ e ∈ actionEvents P a tag, 0 ≤ e.t := by
  have hhold : (0 : ℚ) ≤ a.downTimeUs := by positivity
  have hgap : (0 : ℚ) ≤ a.repeatGapUs := by positivity
  have hloop := pressLoop_nonneg (mainInput P a tag) a.chord.isWheel
    (Clk.usToTicks_nonneg P hhold) (Clk.usToTicks_nonneg P hgap)
    (max 1 (min a.repeatCount 3)) (le_refl 0)
  intro e he
  simp only [actionEvents, List.mem_append, List.mem_map] at he
  rcases he with (⟨i, -, rfl⟩ | hpress) | ⟨i, -, rfl⟩
  · exact le_refl 0
  · exact hloop.1 e hpress
  · exact hloop.2

/-- What every new step has and no further input takes away, every step has. -/
theorem pushEvent_all {Q : ActionStep → Prop} {steps : List ActionStep} {e : Ev}
    (hs : ∀ st ∈ steps, Q st) (hnew : Q ⟨e.t, [e.input]⟩)
    (hmore : ∀ st i, Q st → Q { st with inputs := st.inputs ++ [i] }) :
    ∀ st ∈ pushEvent steps e, Q st := by
  intro st hst
  unfold pushEvent at hst
  split at hst
  · rw [List.mem_singleton.mp hst]
    exact hnew
  · next last hlast =>
    split at hst
    · rcases List.mem_append.mp hst with hold | hone
      · exact hs st hold
      · rw [List.mem_singleton.mp hone]
        exact hnew
    · rcases List.mem_append.mp hst with hold | hone
      · exact hs st (List.dropLast_subset steps hold)
      · rw [List.mem_singleton.mp hone]
        exact hmore last e.input (hs last (List.mem_of_getLast? hlast))

/-- A property of steps that new and growing steps have holds of every step that is cut. -/
theorem foldl_pushEvent_all {Q : ActionStep → Prop} (evs : List Ev) (steps : List ActionStep)
    (hs : ∀ st ∈ steps, Q st) (hnew : ∀ e ∈ evs, Q ⟨e.t, [e.input]⟩)
    (hmore : ∀ st i, Q st → Q { st with inputs := st.inputs ++ [i] }) :
    ∀ st ∈ evs.foldl pushEvent steps, Q st := by
  induction evs generalizing steps with
  | nil => exact hs
  | cons e evs ih =>
    apply ih
    · exact pushEvent_all hs (hnew e (by simp)) hmore
    · intro e' he'
      exact hnew e' (by simp [he'])

/-- **No step of a compiled action is due before the action.** -/
theorem compileAction_offset_nonneg (P : Platform) (a : InputAction) (tag : BitVec 64) :
    ∀ st ∈ (compileAction P a tag).steps, 0 ≤ st.offsetTicks := by
  unfold compileAction
  split
  · simp
  · exact foldl_pushEvent_all (actionEvents P a tag) [] (by simp) (actionEvents_nonneg P a tag)
      fun _ _ h => h

/-- No step of a compiled action is without inputs. -/
theorem compileAction_inputs_ne_nil (P : Platform) (a : InputAction) (tag : BitVec 64) :
    ∀ st ∈ (compileAction P a tag).steps, st.inputs ≠ [] := by
  unfold compileAction
  split
  · simp
  · exact foldl_pushEvent_all (Q := fun st => st.inputs ≠ []) (actionEvents P a tag) [] (by simp)
      (by simp) (by simp)

end InfinityClicker
