import InfinityClicker.Input.InputSender

namespace InfinityClicker

open Presses

/-!
# The held-key record as a fold of edges

The abstract key state is a held set over `Control` (a VK or one of the five buttons), and an
`INPUT` is a list of edges on it (`inputEdges`).  `InputSender.track` refines that fold
(`track_held`), and every compiled action is balanced on it (`compileAction_balanced`), from
any chord.
-/

/-- What can be held: a key or a button with a down and an up. -/
inductive Control where
  | key (vk : Vk)
  | button (b : Fin 5)
deriving DecidableEq, Repr

/-- The edges of a mouse event, in the order the flags are looked at. -/
def mouseEdges (mi : MouseInput) : List (Control × Bool) :=
  let f := mi.dwFlags
  let edgeIf (c : Bool) (b : Fin 5) (down : Bool) : List (Control × Bool) :=
    if c then [(.button b, down)] else []
  edgeIf (hasFlag f MOUSEEVENTF_LEFTDOWN) 0 true ++ edgeIf (hasFlag f MOUSEEVENTF_LEFTUP) 0 false ++
    edgeIf (hasFlag f MOUSEEVENTF_RIGHTDOWN) 1 true ++
    edgeIf (hasFlag f MOUSEEVENTF_RIGHTUP) 1 false ++
    edgeIf (hasFlag f MOUSEEVENTF_MIDDLEDOWN) 2 true ++
    edgeIf (hasFlag f MOUSEEVENTF_MIDDLEUP) 2 false ++
    if hasFlag f (MOUSEEVENTF_XDOWN ||| MOUSEEVENTF_XUP) then
      edgeIf (hasFlag mi.mouseData XBUTTON1) 3 (hasFlag f MOUSEEVENTF_XDOWN) ++
        edgeIf (hasFlag mi.mouseData XBUTTON2) 4 (hasFlag f MOUSEEVENTF_XDOWN)
    else []

/-- The edges of an event.  A keyboard event that names no VK is no edge. -/
def inputEdges : INPUT → List (Control × Bool)
  | .mouse mi => mouseEdges mi
  | .keyboard ki =>
    if ki.wVk.setWidth 8 = (0 : Vk) then []
    else [(.key (ki.wVk.setWidth 8), !hasFlag ki.dwFlags KEYEVENTF_KEYUP)]
  | .hardware => []

/-- The edges of a list of events. -/
def edgesOf (ins : List INPUT) : List (Control × Bool) := ins.flatMap inputEdges

/-- No inputs, no edges. -/
@[simp] theorem edgesOf_nil : edgesOf [] = [] := rfl

/-- The edges of a list, input by input. -/
@[simp] theorem edgesOf_cons (i : INPUT) (ins : List INPUT) :
    edgesOf (i :: ins) = inputEdges i ++ edgesOf ins := rfl

/-- Edges are collected piece by piece. -/
theorem edgesOf_append (ins js : List INPUT) : edgesOf (ins ++ js) = edgesOf ins ++ edgesOf js :=
  List.flatMap_append

/-- A repeated program repeats its edges. -/
theorem edgesOf_replicate (n : ℕ) (ins : List INPUT) :
    edgesOf (List.replicate n ins).flatten = (List.replicate n (edgesOf ins)).flatten := by
  induction n with
  | zero => rfl
  | succ n ih => simp [List.replicate_succ, edgesOf_append, ih]

/-- Fewer inputs have fewer edges. -/
theorem edgesOf_subset {ins js : List INPUT} (h : js ⊆ ins) : edgesOf js ⊆ edgesOf ins := by
  intro e he
  obtain ⟨i, hi, hei⟩ := List.mem_flatMap.mp he
  exact List.mem_flatMap.mpr ⟨i, h hi, hei⟩

namespace InputSender

/-- The record as a held set. -/
def held (s : InputSender) : Control → Bool
  | .key vk => s.heldKeys vk
  | .button b => s.heldMouse b

/-- Setting a button is its edge. -/
theorem setMouse_held (s : InputSender) (b : Fin 5) (d : Bool) :
    (s.setMouse b d).held = edge s.held (.button b, d) := by
  funext c
  cases c with
  | key vk => simp [setMouse, held, edge]
  | button b' =>
    by_cases hb : b' = b
    · subst hb; simp [setMouse, held, edge]
    · simp [setMouse, held, edge, hb]

/-- Setting it under a condition is its edge or none. -/
theorem setMouseIf_held (s : InputSender) (c : Bool) (b : Fin 5) (d : Bool) :
    (s.setMouseIf c b d).held = hold s.held (if c then [(.button b, d)] else []) := by
  cases c with
  | false => rfl
  | true => simpa [setMouseIf] using s.setMouse_held b d

/-- A key bit written into the record is an edge on the key. -/
theorem held_eq_edge_key {s s' : InputSender} {vk : Vk} {d : Bool}
    (hkeys : s'.heldKeys = Function.update s.heldKeys vk d) (hmouse : s'.heldMouse = s.heldMouse) :
    s'.held = edge s.held (.key vk, d) := by
  funext c
  cases c with
  | button b => simp [held, edge, hmouse]
  | key vk' =>
    by_cases hvk : vk' = vk
    · subst hvk; simp [held, edge, hkeys]
    · simp [held, edge, hkeys, hvk]

/-- An edge to where the control already is changes nothing. -/
theorem edge_of_eq {h : Control → Bool} {c : Control} {d : Bool} (hc : h c = d) :
    edge h (c, d) = h := by
  rw [edge, ← hc, Function.update_eq_self]

/-- **`track` refines the fold**: the record after an event is the held set after its edges. -/
theorem track_held (s : InputSender) (i : INPUT) :
    (s.track i).held = hold s.held (inputEdges i) := by
  cases i with
  | hardware => rfl
  | mouse mi =>
    simp only [track, inputEdges, mouseEdges, hold_append]
    split
    · simp only [setMouseIf_held, hold_append]
    · simp only [setMouseIf_held, hold_nil]
  | keyboard ki =>
    by_cases hvk : ki.wVk.setWidth 8 = (0 : Vk)
    · simp [track, inputEdges, hvk]
    · have hkey : s.held (.key (ki.wVk.setWidth 8)) = s.heldKeys (ki.wVk.setWidth 8) := rfl
      simp only [track, inputEdges, hvk, if_false, hold_cons, hold_nil]
      -- The record only changes when the key is not yet where the event puts it.
      cases hup : hasFlag ki.dwFlags KEYEVENTF_KEYUP <;>
        cases hwas : s.heldKeys (ki.wVk.setWidth 8)
      · exact held_eq_edge_key rfl rfl
      · exact (edge_of_eq (hkey.trans hwas)).symm
      · exact (edge_of_eq (hkey.trans hwas)).symm
      · exact held_eq_edge_key rfl rfl

/-- Tracking a list is holding its edges. -/
theorem trackAll_held (s : InputSender) (ins : List INPUT) :
    (s.trackAll ins).held = hold s.held (edgesOf ins) := by
  induction ins generalizing s with
  | nil => rfl
  | cons i ins ih =>
    rw [edgesOf_cons, hold_append, ← track_held]
    exact ih (s.track i)

/-- Publishing changes nothing held. -/
@[simp] theorem publish_held (s : InputSender) : s.publish.held = s.held := rfl

/-- Nor does publishing what is dirty. -/
@[simp] theorem publishIfDirty_held (s : InputSender) : s.publishIfDirty.held = s.held := by
  unfold publishIfDirty
  split <;> rfl

/-- Nor does counting a call. -/
@[simp] theorem countCall_held (s : InputSender) (n ok : ℕ) (e : BitVec 32) :
    (s.countCall n ok e).held = s.held := rfl

/-- After `send` the record has folded in the events Windows accepted. -/
theorem send_held (s : InputSender) (ins : List INPUT) (r : SendResult) :
    (s.send ins r).sender.held =
      hold s.held (edgesOf (ins.take (r.accepted ins.length))) := by
  unfold send
  split
  · next hnil => simp [hnil]
  · simp only [sendInput, SendCall.acceptedEvents, publishIfDirty_held, trackAll_held,
      countCall_held]

end InputSender

/-! ### Compiled actions are balanced -/

/-- A built key event is one edge on its key, or none when its VK is 0. -/
theorem makeKeyInput_edges (vk scan : BitVec 16) (extended up : Bool) (mode : KeyInjectMode)
    (tag : BitVec 64) :
    inputEdges (makeKeyInput vk scan extended up mode tag) =
      if vk.setWidth 8 = (0 : Vk) then [] else [(.key (vk.setWidth 8), !up)] := by
  have hflag : hasFlag (match makeKeyInput vk scan extended up mode tag with
      | .keyboard ki => ki.dwFlags
      | _ => 0) KEYEVENTF_KEYUP = up := by
    simp only [makeKeyInput]
    -- The extended and scan-code flags are other bits.
    cases up <;> cases extended <;> split <;> decide
  simp only [makeKeyInput, inputEdges] at hflag ⊢
  rw [hflag]

/-- A built mouse event is one edge on its button, or none for a wheel notch. -/
theorem makeMouseInput_edges (b : Option MouseButton) (down : Bool) (wheelDelta : BitVec 32)
    (tag : BitVec 64) :
    inputEdges (makeMouseInput b down wheelDelta tag) =
      match b.bind MouseButton.bit? with
      | none => []
      | some i => [(.button i, down)] := by
  rcases b with _ | b
  · simp [makeMouseInput, inputEdges, mouseEdges, hasFlag]
  · cases b <;> cases down <;> simp [makeMouseInput, inputEdges, mouseEdges, hasFlag,
      MouseButton.bit?, MOUSEEVENTF_LEFTDOWN, MOUSEEVENTF_LEFTUP, MOUSEEVENTF_RIGHTDOWN,
      MOUSEEVENTF_RIGHTUP, MOUSEEVENTF_MIDDLEDOWN, MOUSEEVENTF_MIDDLEUP, MOUSEEVENTF_XDOWN,
      MOUSEEVENTF_XUP, MOUSEEVENTF_WHEEL, MOUSEEVENTF_HWHEEL, XBUTTON1, XBUTTON2]

/-- The modifier keys a chord presses around its main key. -/
def modControls (mods own : BitVec 8) : List Control :=
  (kModKeys.filter fun m => modWanted mods own m.1).map fun m => .key (m.2.setWidth 8)

/-- A modifier that is wanted has one edge, any other none. -/
theorem modInput_edges (P : Platform) (mods own : BitVec 8) (up : Bool) (mode : KeyInjectMode)
    (tag : BitVec 64) {m : BitVec 8 × BitVec 16} (hm : m ∈ kModKeys) :
    edgesOf (modInput P mods own up mode tag m) =
      ([m].filter fun m => modWanted mods own m.1).map fun m => (.key (m.2.setWidth 8), !up) := by
  have hvk : m.2.setWidth 8 ≠ (0 : Vk) := by
    simp only [kModKeys, List.mem_cons, List.not_mem_nil, or_false] at hm
    rcases hm with rfl | rfl | rfl | rfl <;> decide
  cases hwant : modWanted mods own m.1 with
  | false => simp [modInput, hwant]
  | true => simpa [modInput, hwant, makeKeyInput_edges] using hvk

/-- A list of modifiers as edges. -/
theorem flatMap_modInput_edges (P : Platform) (mods own : BitVec 8) (up : Bool)
    (mode : KeyInjectMode) (tag : BitVec 64) (ms : List (BitVec 8 × BitVec 16))
    (hms : ∀ m ∈ ms, m ∈ kModKeys) :
    edgesOf (ms.flatMap (modInput P mods own up mode tag)) =
      (ms.filter fun m => modWanted mods own m.1).map fun m => (.key (m.2.setWidth 8), !up) := by
  induction ms with
  | nil => rfl
  | cons m ms ih =>
    have hcons : m :: ms = [m] ++ ms := rfl
    rw [List.flatMap_cons, edgesOf_append, modInput_edges P mods own up mode tag (hms m (by simp)),
      ih (fun m' hm' => hms m' (by simp [hm'])), hcons, List.filter_append, List.map_append]

/-- Modifiers go down in order and up in the reverse order. -/
theorem appendMods_edges (P : Platform) (mods : BitVec 8) (mainVk : BitVec 16) (up : Bool)
    (mode : KeyInjectMode) (tag : BitVec 64) :
    edgesOf (appendMods P mods mainVk up mode tag) =
      if up then (modControls mods (modBitForVk mainVk)).reverse.map (·, false)
      else (modControls mods (modBitForVk mainVk)).map (·, true) := by
  cases up with
  | false =>
    simp only [appendMods, Bool.not_false, if_true]
    rw [flatMap_modInput_edges P mods _ false mode tag kModKeys (fun _ h => h)]
    simp [modControls, List.map_map, Function.comp_def]
  | true =>
    simp only [appendMods, Bool.not_true]
    rw [if_neg (by simp), flatMap_modInput_edges P mods _ true mode tag kModKeys.reverse
      (fun _ h => List.mem_reverse.mp h)]
    simp [modControls, List.map_map, Function.comp_def, List.filter_reverse]

/-- The main key or button of an action goes down and up. -/
theorem mainInput_balanced (P : Platform) (a : InputAction) (tag : BitVec 64) :
    Balanced (edgesOf [mainInput P a tag true, mainInput P a tag false]) := by
  simp only [edgesOf_cons, edgesOf_nil, List.append_nil, mainInput]
  by_cases hmouse : a.chord.isMouse = true
  · simp only [hmouse, if_true, makeMouseInput_edges]
    cases a.chord.button.bind MouseButton.bit? with
    | none => exact Balanced.nil
    | some i => exact Balanced.tap (Control.button i)
  · simp only [Bool.not_eq_true] at hmouse
    simp only [hmouse, Bool.false_eq_true, if_false, makeKeyInput_edges]
    by_cases hvk : a.chord.code.setWidth 8 = (0 : Vk)
    · rw [if_pos hvk, if_pos hvk]
      exact Balanced.nil
    · rw [if_neg hvk, if_neg hvk]
      exact Balanced.tap (Control.key (a.chord.code.setWidth 8))

/-- The codes of a wheel chord are the four directions. -/
theorem KeyChord.wheel_codes {c : KeyChord} (hw : c.isWheel = true) :
    c.isMouse = true ∧ (c.code = 5#16 ∨ c.code = 6#16 ∨ c.code = 7#16 ∨ c.code = 8#16) := by
  simp only [isWheel, Bool.and_eq_true, decide_eq_true_eq] at hw
  obtain ⟨⟨hmouse, hlo⟩, hhi⟩ := hw
  have hlo' : 5 ≤ c.code.toNat := by simpa [MouseButton.code, BitVec.le_def] using hlo
  have hhi' : c.code.toNat ≤ 8 := by simpa [MouseButton.code, BitVec.le_def] using hhi
  exact ⟨hmouse, by bv_omega⟩

/-- A wheel chord's main event is no edge. -/
theorem mainInput_wheel (P : Platform) (a : InputAction) (tag : BitVec 64)
    (hw : a.chord.isWheel = true) : edgesOf [mainInput P a tag true] = [] := by
  obtain ⟨hmouse, hcodes⟩ := KeyChord.wheel_codes hw
  simp only [edgesOf_cons, edgesOf_nil, List.append_nil, mainInput, hmouse, if_true,
    makeMouseInput_edges, KeyChord.button]
  rcases hcodes with h | h | h | h <;> rw [h] <;> rfl

/-- **Every compiled action is balanced**, from any chord, hold time, repeat and gap: after the
    whole flat list nothing is down that was not down before it. -/
theorem compileAction_balanced (P : Platform) (a : InputAction) (tag : BitVec 64) :
    Balanced (edgesOf (compileAction P a tag).flat) := by
  by_cases hv : a.chord.valid = true
  · rw [compileAction_flat P a tag hv, actionEvents_inputs, edgesOf_append, edgesOf_append,
      appendMods_edges, appendMods_edges]
    -- The modifiers are nested around the presses.
    refine Balanced.nest ?_ _
    rw [edgesOf_replicate]
    refine Balanced.replicate ?_ _
    split
    · next hw => rw [mainInput_wheel P a tag hw]; exact Balanced.nil
    · exact mainInput_balanced P a tag
  · simp [compileAction, hv, Balanced.nil]

end InfinityClicker
