import InfinityClicker.Input.CrashPath

namespace InfinityClicker

open Presses

/-!
# The shape of a compiled action

Every action of a valid chord is modifiers down, the main presses, modifiers up.

* `AreEdges` — a list of events that are single edges, read one by one;
* `KeyChord.control` — the key or button a chord is about;
* `WellNested` — what a target program sees of an action;
* `compileAction_wellNested` — every compiled action has that shape and leaves nothing held.
-/

/-! ### Events read one by one -/

/-- `dwExtraInfo`. -/
def INPUT.tag : INPUT → BitVec 64
  | .mouse mi => mi.dwExtraInfo
  | .keyboard ki => ki.dwExtraInfo
  | .hardware => 0

/-- A wheel notch: neither a down nor an up. -/
def INPUT.IsNotch : INPUT → Prop
  | .mouse mi => mi.dwFlags = MOUSEEVENTF_WHEEL ∨ mi.dwFlags = MOUSEEVENTF_HWHEEL
  | _ => False

/-- The events are these edges in order, one each. -/
def AreEdges (ins : List INPUT) (es : List (Control × Bool)) : Prop :=
  ins.map inputEdges = es.map fun e => [e]

theorem AreEdges.nil : AreEdges [] [] := rfl

theorem AreEdges.append {ins js : List INPUT} {es fs : List (Control × Bool)}
    (h : AreEdges ins es) (h' : AreEdges js fs) : AreEdges (ins ++ js) (es ++ fs) := by
  rw [AreEdges, List.map_append, List.map_append, h, h']

theorem AreEdges.replicate {ins : List INPUT} {es : List (Control × Bool)} (h : AreEdges ins es)
    (n : ℕ) : AreEdges (List.replicate n ins).flatten (List.replicate n es).flatten := by
  induction n with
  | zero => exact AreEdges.nil
  | succ n ih =>
    rw [List.replicate_succ, List.replicate_succ, List.flatten_cons, List.flatten_cons]
    exact h.append ih

/-- Events with an edge each are the edges of the list. -/
theorem areEdges_of_single {ins : List INPUT} (h : ∀ i ∈ ins, ∃ e, inputEdges i = [e]) :
    AreEdges ins (edgesOf ins) := by
  induction ins with
  | nil => exact AreEdges.nil
  | cons i ins ih =>
    obtain ⟨e, he⟩ := h i (by simp)
    have htail := ih fun j hj => h j (by simp [hj])
    have hone : AreEdges [i] [e] := by simp [AreEdges, he]
    rw [edgesOf_cons, he]
    exact hone.append htail

theorem makeKeyInput_tag (vk scan : BitVec 16) (extended up : Bool) (mode : KeyInjectMode)
    (tag : BitVec 64) : (makeKeyInput vk scan extended up mode tag).tag = tag := rfl

theorem makeMouseInput_tag (b : Option MouseButton) (down : Bool) (wheelDelta : BitVec 32)
    (tag : BitVec 64) : (makeMouseInput b down wheelDelta tag).tag = tag := by
  rcases b with _ | b
  · rfl
  · cases b <;> rfl

/-! ### The modifiers -/

/-- Every event of `appendMods` is built from one of the modifier keys. -/
theorem mem_appendMods {P : Platform} {mods : BitVec 8} {mainVk : BitVec 16} {up : Bool}
    {mode : KeyInjectMode} {tag : BitVec 64} {i : INPUT}
    (hi : i ∈ appendMods P mods mainVk up mode tag) :
    ∃ m ∈ kModKeys, i = makeKeyInput m.2 (vkToScan P m.2).1 (vkToScan P m.2).2 up mode tag := by
  have hone : ∀ ms : List (BitVec 8 × BitVec 16), ms ⊆ kModKeys →
      i ∈ ms.flatMap (modInput P mods (modBitForVk mainVk) up mode tag) →
      ∃ m ∈ kModKeys,
        i = makeKeyInput m.2 (vkToScan P m.2).1 (vkToScan P m.2).2 up mode tag := by
    intro ms hms hmem
    obtain ⟨m, hm, him⟩ := List.mem_flatMap.mp hmem
    rw [modInput] at him
    split at him
    · exact ⟨m, hms hm, List.mem_singleton.mp him⟩
    · simp at him
  simp only [appendMods] at hi
  split at hi
  · exact hone kModKeys (fun _ h => h) hi
  · exact hone kModKeys.reverse (fun _ h => List.mem_reverse.mp h) hi

/-- The modifiers' events are their edges, one each. -/
theorem appendMods_areEdges (P : Platform) (mods : BitVec 8) (mainVk : BitVec 16) (up : Bool)
    (mode : KeyInjectMode) (tag : BitVec 64) :
    AreEdges (appendMods P mods mainVk up mode tag)
      (if up then (modControls mods (modBitForVk mainVk)).reverse.map (·, false)
        else (modControls mods (modBitForVk mainVk)).map (·, true)) := by
  rw [← appendMods_edges P mods mainVk up mode tag]
  apply areEdges_of_single
  intro i hi
  obtain ⟨m, hm, rfl⟩ := mem_appendMods hi
  have hvk : ∀ m ∈ kModKeys, m.2.setWidth 8 ≠ (0 : Vk) :=
    List.forall_iff_forall_mem.mp (by decide)
  rw [makeKeyInput_edges, if_neg (hvk m hm)]
  exact ⟨_, rfl⟩

/-- A modifier goes down around the main key iff the chord names it and the main key is not of its
    kind. -/
theorem mem_modControls (mods own : BitVec 8) {m : BitVec 8 × BitVec 16} (hm : m ∈ kModKeys) :
    .key (m.2.setWidth 8) ∈ modControls mods own ↔ mods &&& m.1 ≠ 0 ∧ own &&& m.1 = 0 := by
  have hwanted : modWanted mods own m.1 = true ↔ mods &&& m.1 ≠ 0 ∧ own &&& m.1 = 0 := by
    simp [modWanted]
  -- The four modifier keys are told apart by their codes.
  have hsame : ∀ m ∈ kModKeys, ∀ m' ∈ kModKeys,
      m'.2.setWidth 8 = (m.2.setWidth 8 : Vk) → m' = m := by
    simp only [← List.forall_iff_forall_mem]
    decide
  rw [← hwanted, modControls, List.mem_map]
  constructor
  · rintro ⟨m', hm', heq⟩
    rw [List.mem_filter] at hm'
    rw [← hsame m hm m' hm'.1 (Control.key.inj heq)]
    exact hm'.2
  · intro h
    exact ⟨m, List.mem_filter.mpr ⟨hm, h⟩, rfl⟩

/-- Every modifier once. -/
theorem modControls_nodup (mods own : BitVec 8) : (modControls mods own).Nodup := by
  have hall : (kModKeys.map fun m => Control.key (m.2.setWidth 8)).Nodup := by decide
  exact hall.sublist (List.filter_sublist.map _)

/-! ### The main presses -/

namespace KeyChord

/-- A valid chord: a mouse code up to 8 or a keyboard code from 1 to 254. -/
def InRange (c : KeyChord) : Prop :=
  (c.device = .mouse ∧ c.code ≤ 8) ∨ (c.device = .keyboard ∧ 1 ≤ c.code ∧ c.code ≤ 254)

instance (c : KeyChord) : Decidable c.InRange := inferInstanceAs (Decidable (_ ∨ _))

/-- The modifier bit of the main key's own kind. -/
def ownMods (c : KeyChord) : BitVec 8 := modBitForVk (if c.isKeyboard then c.code else 0)

/-- The key or button a chord that is not the wheel's is about. -/
def control (c : KeyChord) : Control :=
  if c.isMouse then .button (Fin.ofNat 5 c.code.toNat) else .key (c.code.setWidth 8)

theorem InRange.valid {c : KeyChord} (h : c.InRange) : c.valid = true := by
  rcases h with ⟨hdev, -⟩ | ⟨hdev, -⟩ <;> rw [KeyChord.valid, hdev] <;> rfl

/-- The main key is none of the modifiers around it. -/
theorem control_notMem (c : KeyChord) (hc : c.InRange) :
    c.control ∉ modControls c.mods c.ownMods := by
  intro hmem
  rw [modControls, List.mem_map] at hmem
  obtain ⟨m, hm, heq⟩ := hmem
  rw [List.mem_filter] at hm
  rcases hc with ⟨hdev, -⟩ | ⟨hdev, hlo, hhi⟩
  · simp [control, isMouse, hdev] at heq
  · -- A modifier key as the main key is of its own kind.
    have hcode : c.code = m.2 := by
      have hkey : c.control = .key (c.code.setWidth 8) := by simp [control, isMouse, hdev]
      rw [hkey] at heq
      have hm2 : m.2.toNat < 256 := by
        have hall : ∀ m ∈ kModKeys, m.2.toNat < 256 := List.forall_iff_forall_mem.mp (by decide)
        exact hall m hm.1
      apply BitVec.eq_of_toNat_eq
      have hnat := congrArg BitVec.toNat (Control.key.inj heq)
      simp only [BitVec.toNat_setWidth] at hnat
      have hle : c.code.toNat ≤ 254 := by simpa [BitVec.le_def] using hhi
      omega
    have hown : ∀ m ∈ kModKeys, modBitForVk m.2 &&& m.1 ≠ 0 :=
      List.forall_iff_forall_mem.mp (by decide)
    have hwant := hm.2
    simp only [modWanted, ownMods, isKeyboard, hdev, hcode, Bool.and_eq_true, beq_iff_eq,
      if_true] at hwant
    exact hown m hm.1 hwant.2

end KeyChord

/-- A wheel chord's main event is a notch. -/
theorem mainInput_notch (P : Platform) (a : InputAction) (tag : BitVec 64)
    (hw : a.chord.isWheel = true) : (mainInput P a tag true).IsNotch := by
  obtain ⟨hmouse, hcodes⟩ := KeyChord.wheel_codes hw
  simp only [mainInput, hmouse, if_true, KeyChord.button]
  rcases hcodes with h | h | h | h <;> rw [h] <;>
    simp [MouseButton.ofCode, makeMouseInput, INPUT.IsNotch]

/-- Any other chord's main event is one edge on its control. -/
theorem mainInput_edges (P : Platform) (a : InputAction) (tag : BitVec 64)
    (hc : a.chord.InRange) (hw : a.chord.isWheel = false) (down : Bool) :
    inputEdges (mainInput P a tag down) = [(a.chord.control, down)] := by
  rcases hc with ⟨hdev, hcode⟩ | ⟨hdev, hlo, hhi⟩
  · have hmouse : a.chord.isMouse = true := by rw [KeyChord.isMouse, hdev]; rfl
    have hlt : a.chord.code.toNat < 5 := by
      simp only [KeyChord.isWheel, hmouse, Bool.true_and, Bool.and_eq_false_iff,
        decide_eq_false_iff_not, MouseButton.code, BitVec.le_def] at hw hcode
      simp at hw hcode
      omega
    have hcases : a.chord.code = 0#16 ∨ a.chord.code = 1#16 ∨ a.chord.code = 2#16 ∨
        a.chord.code = 3#16 ∨ a.chord.code = 4#16 := by
      bv_omega
    simp only [mainInput, hmouse, if_true, makeMouseInput_edges, KeyChord.button,
      KeyChord.control]
    rcases hcases with h | h | h | h | h <;> rw [h] <;> rfl
  · have hkey : a.chord.isMouse = false := by rw [KeyChord.isMouse, hdev]; rfl
    have hvk : a.chord.code.setWidth 8 ≠ (0 : Vk) := by
      bv_omega
    simp only [mainInput, hkey, Bool.false_eq_true, if_false, makeKeyInput_edges, if_neg hvk,
      Bool.not_not, KeyChord.control]

theorem mainInput_tag (P : Platform) (a : InputAction) (tag : BitVec 64) (down : Bool) :
    (mainInput P a tag down).tag = tag := by
  rw [mainInput]
  dsimp only
  split
  · exact makeMouseInput_tag _ _ _ tag
  · exact makeKeyInput_tag _ _ _ _ _ tag

/-! ### The whole action -/

/-- An action of a chord as a target program sees it: its modifiers down, its key or button down
    and up `times` times, or that many notches, its modifiers up in the reverse order; and nothing
    held after it. -/
structure WellNested (c : KeyChord) (times : ℕ) (tag : BitVec 64) (ins : List INPUT) : Prop where
  nested : ∃ downs mains ups, ins = downs ++ mains ++ ups ∧
    AreEdges downs ((modControls c.mods c.ownMods).map (·, true)) ∧
    AreEdges ups ((modControls c.mods c.ownMods).reverse.map (·, false)) ∧
    if c.isWheel then mains.length = times ∧ ∀ i ∈ mains, i.IsNotch
    else AreEdges mains (List.replicate times [(c.control, true), (c.control, false)]).flatten
  once : (c.control :: modControls c.mods c.ownMods).Nodup
  wanted : ∀ m ∈ kModKeys, .key (m.2.setWidth 8) ∈ modControls c.mods c.ownMods ↔
    c.mods &&& m.1 ≠ 0 ∧ c.ownMods &&& m.1 = 0
  tagged : ∀ i ∈ ins, i.tag = tag
  released : ∀ s : InputSender, s.Counts → s.held = nothing →
    (s.trackAll ins).held = nothing ∧ ¬ (s.trackAll ins).anyHeld

/-- A sender whose counter counts its bits holds nothing when its record is empty. -/
theorem InputSender.not_anyHeld {s : InputSender} (hcounts : s.Counts) (hheld : s.held = nothing) :
    ¬ s.anyHeld := by
  rintro (⟨b, hb⟩ | hcount)
  · have hoff : s.heldMouse b = false := congrFun hheld (.button b)
    rw [hoff] at hb
    exact absurd hb (by simp)
  · have hkeys : s.heldKeys = fun _ => false := funext fun vk => congrFun hheld (.key vk)
    apply hcount
    rw [show s.heldKeyCount = s.heldBits from hcounts, heldBits, hkeys]
    simp

/-- **Every compiled action is well nested**, whatever its modifiers, repeats, times, wheel delta
    and injection mode. -/
theorem compileAction_wellNested (P : Platform) (a : InputAction) (tag : BitVec 64)
    (hc : a.chord.InRange) :
    WellNested a.chord (max 1 (min a.repeatCount 3)) tag (compileAction P a tag).flat := by
  -- Modifiers down, the presses, modifiers up: the list as `actionEvents` has it.
  have hflat : (compileAction P a tag).flat = _ :=
    (compileAction_flat P a tag hc.valid).trans (actionEvents_inputs P a tag)
  have hdowns := appendMods_areEdges P a.chord.mods
    (if a.chord.isKeyboard then a.chord.code else 0) false a.keyMode tag
  have hups := appendMods_areEdges P a.chord.mods
    (if a.chord.isKeyboard then a.chord.code else 0) true a.keyMode tag
  rw [if_neg (show ¬ false = true by simp)] at hdowns
  rw [if_pos (show true = true from rfl)] at hups
  refine ⟨⟨_, _, _, hflat, hdowns, hups, ?_⟩, ?_, ?_, ?_, ?_⟩
  -- A wheel chord has a notch where any other has a down and an up.
  · cases hw : a.chord.isWheel with
    | true =>
      simp only [if_true]
      refine ⟨by simp, ?_⟩
      intro i hi
      simp only [List.mem_flatten, List.mem_replicate] at hi
      obtain ⟨l, ⟨-, rfl⟩, hi⟩ := hi
      rw [List.mem_singleton.mp hi]
      exact mainInput_notch P a tag hw
    | false =>
      simp only [Bool.false_eq_true, if_false]
      apply AreEdges.replicate
      rw [AreEdges, List.map_cons, List.map_cons, mainInput_edges P a tag hc hw,
        mainInput_edges P a tag hc hw]
      rfl
  · exact List.nodup_cons.mpr ⟨a.chord.control_notMem hc, modControls_nodup _ _⟩
  · exact fun m hm => mem_modControls a.chord.mods a.chord.ownMods hm
  -- The tag is that of the call, in each of the three parts.
  · intro i hi
    rw [hflat, List.mem_append, List.mem_append] at hi
    rcases hi with (hdown | hmain) | hup
    · obtain ⟨m, -, rfl⟩ := mem_appendMods hdown
      exact makeKeyInput_tag _ _ _ _ _ tag
    · simp only [List.mem_flatten, List.mem_replicate] at hmain
      obtain ⟨l, ⟨-, rfl⟩, hi⟩ := hmain
      split at hi
      · rw [List.mem_singleton.mp hi]
        exact mainInput_tag P a tag true
      · rcases List.mem_pair.mp hi with rfl | rfl
        · exact mainInput_tag P a tag true
        · exact mainInput_tag P a tag false
    · obtain ⟨m, -, rfl⟩ := mem_appendMods hup
      exact makeKeyInput_tag _ _ _ _ _ tag
  -- The edges balance, so tracking the whole action leaves the record empty.
  · intro s hcounts hheld
    have hafter : (s.trackAll (compileAction P a tag).flat).held = nothing := by
      rw [InputSender.trackAll_held, hheld]
      exact (compileAction_balanced P a tag).hold_nothing
    exact ⟨hafter, InputSender.not_anyHeld (hcounts.trackAll _) hafter⟩

/-- A double left Ctrl, with Ctrl and Shift asked for around it: only Shift goes around. -/
def shiftCtrlCtrl : InputAction :=
  { chord := { device := .keyboard, code := VK_LCONTROL, mods := ModCtrl ||| ModShift }
    repeatCount := 2 }

theorem shiftCtrlCtrl_wellNested : WellNested shiftCtrlCtrl.chord 2 kTagInfClick
    (compileAction Platform.tenMegahertz shiftCtrlCtrl).flat :=
  compileAction_wellNested Platform.tenMegahertz shiftCtrlCtrl kTagInfClick (by decide)

end InfinityClicker
