import InfinityClicker.Trigger.HookedTrigger

namespace InfinityClicker

open Machines

/-!
# Presses and their verdicts

A press of a key or button is its first down, the repeated downs and its up.  A monitor beside the
trigger thread records the verdict on every down of the presses in progress and, at the up, the
whole press.

* `PressLog` — the monitor, and its promise `PressLog.Paired`;
* `HookedTrigger.owed` — what would become of the source's up now: swallowed, or not;
* `PairedStep` — by branch of the handlers, the condition on a step;
* `Settled` — `owed` is the truth about every press in progress.
-/

/-! ### The monitor -/

/-- A press that is over: the source, which of its downs were swallowed, whether its up was. -/
structure KeyPress where
  source : Source
  downs : List Bool
  up : Bool
deriving DecidableEq, Repr

/-- Every down was swallowed. -/
def allSwallowed (downs : List Bool) : Bool := downs.all id

/-- The presses in progress (the verdicts of their downs so far; none when the source is up) and
    the presses that are over. -/
structure PressLog where
  downs : Source → List Bool := fun _ => []
  finished : List KeyPress := []

namespace PressLog

/-- The source is down. -/
def held (m : PressLog) (src : Source) : Prop := m.downs src ≠ []

instance (m : PressLog) (src : Source) : Decidable (m.held src) :=
  inferInstanceAs (Decidable (_ ≠ _))

/-- A down, with its verdict. -/
def down (m : PressLog) (src : Source) (swallowed : Bool) : PressLog :=
  { m with downs := Function.update m.downs src (m.downs src ++ [swallowed]) }

/-- An up without a press in progress ends none. -/
def up (m : PressLog) (src : Source) (swallowed : Bool) : PressLog :=
  if m.held src then
    { downs := Function.update m.downs src []
      finished := m.finished ++ [{ source := src, downs := m.downs src, up := swallowed }] }
  else m

/-- A down is of one source alone. -/
theorem down_of_ne {m : PressLog} {src s : Source} (hs : s ≠ src) (b : Bool) :
    (m.down src b).downs s = m.downs s := Function.update_of_ne hs _ _

/-- The source has one down more. -/
theorem down_self (m : PressLog) (src : Source) (b : Bool) :
    (m.down src b).downs src = m.downs src ++ [b] := Function.update_self _ _ _

/-- An up is of one source alone. -/
theorem up_of_ne {m : PressLog} {src s : Source} (hs : s ≠ src) (b : Bool) :
    (m.up src b).downs s = m.downs s := by
  unfold up
  split
  · exact Function.update_of_ne hs _ _
  · rfl

/-- After its up the source is up. -/
theorem up_self (m : PressLog) (src : Source) (b : Bool) : ¬(m.up src b).held src := by
  unfold up
  split
  · exact not_not.mpr (Function.update_self _ _ _)
  · assumption

/-- The promise: the up of a press is swallowed exactly if every down of it was. -/
def Paired (m : PressLog) : Prop := ∀ p ∈ m.finished, p.up = true ↔ ∀ d ∈ p.downs, d = true

end PressLog

/-- What a move is to the monitor: events of the hardware only, each with its verdict. -/
def watchPresses (_ : HookedTrigger) (m : PressLog) (i : HookedInput)
    (out : List TriggerEvent) : PressLog :=
  let swallowed := decide (.swallowed ∈ out)
  match i with
  | .key down vk _ ext _ _ =>
    if down then m.down (.key vk ext) swallowed else m.up (.key vk ext) swallowed
  | .mouse b down _ _ _ =>
    if b.wheel then m
    else if down then m.down (.button b) swallowed else m.up (.button b) swallowed
  | _ => m

/-- The trigger thread with the monitor. -/
def swallowMachine (H : LoopHost) : Machine (HookedTrigger × PressLog) HookedInput TriggerEvent :=
  (hookedMachine H).watch watchPresses

/-! ### The condition -/

namespace TriggerEngine

/-- A hook would swallow the up of the source: it is marked, or the source holds the suppressed
    trigger. -/
def owed (e : TriggerEngine) (src : Source) : Bool := e.marked src || e.heldBack src

end TriggerEngine

/-- The up of the source would be swallowed. -/
def HookedTrigger.owed (x : HookedTrigger) (src : Source) : Bool :=
  x.hooked src && x.engine.owed src

/-- A down, by the branch it takes. -/
def DownPaired (e : TriggerEngine) (m : PressLog) (src : Source) (armed : Bool) :
    DownBranch → Prop
  -- What is marked now has not shown a down to the other applications.
  | .hidden => ∀ s, m.held s → src.shares s = true → e.owed s = true
  -- The same for every key of the trigger when its press is suppressed.
  | .presses =>
    if e.cfg.suppressTrigger && armed then
      ∀ s, m.held s → s.isOf e.cfg.trigger = true → e.owed s = true
    else e.owed src = false
  | .repeats => True
  -- A down the other applications see is not one whose up they will miss.
  | .passes => e.owed src = false

/-- An up outside captures: no other held source loses the mark its up needs. -/
def UpPaired (e : TriggerEngine) (m : PressLog) (src : Source) : Prop :=
  ∀ s, s ≠ src → m.held s → e.owed s = true →
    (e.marked s && !src.shares s || e.heldBack s && !e.heldBack src) = true

/-- A key-up during a capture, which goes by the marks alone. -/
def CapturedUpPaired (e : TriggerEngine) (m : PressLog) (src : Source) : Prop :=
  (m.held src → e.heldBack src = true → e.marked src = true) ∧
    ∀ s, s ≠ src → m.held s → src.shares s = true → e.marked s = true → e.heldBack s = true

/-- A change of the trigger. -/
def ChangePaired (x : HookedTrigger) (m : PressLog) : Prop :=
  ∀ s, m.held s → x.hooked s = true → x.engine.heldBack s = true → x.engine.marked s = true

/-- A button-down that raw input reports while a hook judges the button events. -/
def RawDownPaired (e : TriggerEngine) (m : PressLog) (src : Source) (armed : Bool) :
    DownBranch → Prop
  | .hidden => ∀ s, m.held s → src.shares s = true → e.owed s = true
  | .presses =>
    e.cfg.suppressTrigger && armed →
      ∀ s, m.held s → s.isOf e.cfg.trigger = true → e.owed s = true
  | .repeats | .passes => True

/-- A button-up that raw input reports meanwhile: no held source loses the mark its up needs. -/
def RawUpPaired (e : TriggerEngine) (m : PressLog) (src : Source) : Prop :=
  ∀ s, m.held s → e.owed s = true →
    (e.marked s && !src.shares s || e.heldBack s && !e.heldBack src) = true

/-- A task of the loop.  The hook of a held source whose up is marked neither comes nor goes. -/
def TaskPaired (x : HookedTrigger) (m : PressLog) (v : LoopView) :
    LoopTask → Prop
  | .applyPendingConfig =>
    x.engine.pendingValid = true → x.engine.pending.trigger.same x.engine.cfg.trigger = false →
      ChangePaired x m
  | .installKeyboardHook =>
    ∀ s, m.held s → x.engine.owed s = true →
      { x with loop := x.loop.installKeyboardHook v }.hooked s = x.hooked s
  | .updateHooks =>
    ∀ s, m.held s → x.engine.owed s = true →
      { x with loop := x.loop.updateHooks v }.hooked s = x.hooked s
  | .dropHooks =>
    ∀ s, m.held s → x.engine.owed s = true →
      { x with loop := x.loop.dropHooks v }.hooked s = x.hooked s
  | .forgetName | .evaluateGate | .evaluateGateOf _ | .postHooks => True

/-- The next task of the loop, if it has one. -/
def NextPaired (x : HookedTrigger) (m : PressLog) (v : LoopView) : List LoopTask → Prop
  | [] => True
  | task :: _ => TaskPaired x m v task

/-- The condition on a step.  What passes no hook reaches the other applications, down and up
    alike. -/
def PairedStep (x : HookedTrigger × PressLog) : HookedInput → Prop
  | .key true vk _ ext _ armed =>
    x.1.loop.kbHook = true →
      DownPaired x.1.engine x.2 (.key vk ext) armed (x.1.engine.downBranch false (.key vk ext))
  | .key false vk _ ext _ _ =>
    x.1.loop.kbHook = true →
      if x.1.engine.captureState = .off then UpPaired x.1.engine x.2 (.key vk ext)
      else CapturedUpPaired x.1.engine x.2 (.key vk ext)
  | .mouse b true onOwn _ armed =>
    x.1.loop.mouseHook = true → b.wheel = false →
      DownPaired x.1.engine x.2 (.button b) armed (x.1.engine.downBranch onOwn (.button b))
  | .mouse b false _ _ _ =>
    x.1.loop.mouseHook = true → b.wheel = false →
      -- A mouse capture shows every up.
      if x.1.engine.captureState = .keyboardMouse then
        x.2.held (.button b) → x.1.engine.owed (.button b) = false
      else UpPaired x.1.engine x.2 (.button b)
  | .rawMouse b true onOwn _ armed =>
    x.1.loop.mouseHook = true → b.wheel = false →
      RawDownPaired x.1.engine x.2 (.button b) armed (x.1.engine.downBranch onOwn (.button b))
  | .rawMouse b false _ _ _ =>
    x.1.loop.mouseHook = true → b.wheel = false →
      x.1.engine.captureState ≠ .keyboardMouse → RawUpPaired x.1.engine x.2 (.button b)
  | .loop (.go v) => NextPaired x.1 x.2 v x.1.loop.todo
  | .loop _ => True

section Decidable

variable (e : TriggerEngine) (x : HookedTrigger) (m : PressLog) (src : Source)

instance (armed : Bool) : DecidablePred (DownPaired e m src armed)
  | .hidden =>
    inferInstanceAs (Decidable (∀ s, m.held s → src.shares s = true → e.owed s = true))
  | .presses =>
    inferInstanceAs (Decidable (if e.cfg.suppressTrigger && armed then
      ∀ s, m.held s → s.isOf e.cfg.trigger = true → e.owed s = true
    else e.owed src = false))
  | .repeats => isTrue trivial
  | .passes => inferInstanceAs (Decidable (e.owed src = false))

instance : Decidable (UpPaired e m src) :=
  inferInstanceAs (Decidable (∀ s, s ≠ src → m.held s → e.owed s = true →
    (e.marked s && !src.shares s || e.heldBack s && !e.heldBack src) = true))

instance : Decidable (CapturedUpPaired e m src) :=
  inferInstanceAs (Decidable ((m.held src → e.heldBack src = true → e.marked src = true) ∧
    ∀ s, s ≠ src → m.held s → src.shares s = true → e.marked s = true → e.heldBack s = true))

instance : Decidable (ChangePaired x m) :=
  inferInstanceAs (Decidable (∀ s, m.held s → x.hooked s = true → x.engine.heldBack s = true →
    x.engine.marked s = true))

instance (armed : Bool) : DecidablePred (RawDownPaired e m src armed)
  | .hidden =>
    inferInstanceAs (Decidable (∀ s, m.held s → src.shares s = true → e.owed s = true))
  | .presses =>
    inferInstanceAs (Decidable (e.cfg.suppressTrigger && armed →
      ∀ s, m.held s → s.isOf e.cfg.trigger = true → e.owed s = true))
  | .repeats | .passes => isTrue trivial

instance : Decidable (RawUpPaired e m src) :=
  inferInstanceAs (Decidable (∀ s, m.held s → e.owed s = true →
    (e.marked s && !src.shares s || e.heldBack s && !e.heldBack src) = true))

instance (v : LoopView) : DecidablePred (TaskPaired x m v)
  | .applyPendingConfig =>
    inferInstanceAs (Decidable (x.engine.pendingValid = true →
      x.engine.pending.trigger.same x.engine.cfg.trigger = false → ChangePaired x m))
  | .installKeyboardHook =>
    inferInstanceAs (Decidable (∀ s, m.held s → x.engine.owed s = true →
      { x with loop := x.loop.installKeyboardHook v }.hooked s = x.hooked s))
  | .updateHooks =>
    inferInstanceAs (Decidable (∀ s, m.held s → x.engine.owed s = true →
      { x with loop := x.loop.updateHooks v }.hooked s = x.hooked s))
  | .dropHooks =>
    inferInstanceAs (Decidable (∀ s, m.held s → x.engine.owed s = true →
      { x with loop := x.loop.dropHooks v }.hooked s = x.hooked s))
  | .forgetName | .evaluateGate | .evaluateGateOf _ | .postHooks => isTrue trivial

instance (v : LoopView) : DecidablePred (NextPaired x m v)
  | [] => isTrue trivial
  | task :: _ => inferInstanceAs (Decidable (TaskPaired x m v task))

instance (x : HookedTrigger × PressLog) : DecidablePred (PairedStep x) := fun i =>
  match i with
  | .key true _ _ _ _ _ => inferInstanceAs (Decidable (_ → DownPaired _ _ _ _ _))
  | .key false vk _ ext _ _ =>
    inferInstanceAs (Decidable (_ → if x.1.engine.captureState = .off then
        UpPaired x.1.engine x.2 (.key vk ext)
      else CapturedUpPaired x.1.engine x.2 (.key vk ext)))
  | .mouse b true _ _ _ =>
    inferInstanceAs (Decidable (_ → b.wheel = false → DownPaired _ _ _ _ _))
  | .mouse b false _ _ _ =>
    inferInstanceAs (Decidable (_ → b.wheel = false →
      if x.1.engine.captureState = .keyboardMouse then
        x.2.held (.button b) → x.1.engine.owed (.button b) = false
      else UpPaired x.1.engine x.2 (.button b)))
  | .rawMouse b true _ _ _ =>
    inferInstanceAs (Decidable (_ → b.wheel = false → RawDownPaired _ _ _ _ _))
  | .rawMouse b false _ _ _ =>
    inferInstanceAs (Decidable (_ → b.wheel = false →
      x.1.engine.captureState ≠ .keyboardMouse → RawUpPaired _ _ _))
  | .loop (.go v) => inferInstanceAs (Decidable (NextPaired x.1 x.2 v x.1.loop.todo))
  | .loop (.setConfig _) | .loop (.beginCapture _) | .loop .cancelCapture
  | .loop .reinstallHooks | .loop .recomputeGate | .loop (.post _) | .loop .startThread
  | .loop .captured | .loop (.foreground _) => isTrue trivial

end Decidable

/-! ### Presses in progress -/

/-- The thread knows of every press in progress whether all of it was swallowed. -/
structure Settled (x : HookedTrigger × PressLog) : Prop where
  owed : ∀ s, x.2.held s → x.1.owed s = allSwallowed (x.2.downs s)
  wheel : ∀ s, x.2.held s → s.wheel = false
  paired : x.2.Paired

/-- A further down counts with the others. -/
theorem allSwallowed_append (downs : List Bool) (b : Bool) :
    allSwallowed (downs ++ [b]) = (allSwallowed downs && b) := by
  simp [allSwallowed]

/-- All of them, one by one. -/
theorem allSwallowed_iff (downs : List Bool) :
    allSwallowed downs = true ↔ ∀ d ∈ downs, d = true := by
  simp [allSwallowed]

namespace Settled

variable {x x' : HookedTrigger} {m : PressLog} {src : Source}

/-- A source that is up has no down that was seen. -/
theorem allSwallowed_eq (h : Settled (x, m)) (src : Source) :
    allSwallowed (m.downs src) = true ↔ (m.held src → x.owed src = true) := by
  by_cases hheld : m.held src
  · rw [← h.owed src hheld]
    simp [hheld]
  · have hnil : m.downs src = [] := not_not.mp hheld
    simp [hheld, hnil, allSwallowed]

/-- After a down the engine must owe each press in progress what it did before, and the source
    what its downs say. -/
theorem down_iff (h : Settled (x, m)) (hwheel : src.wheel = false) (swallowed : Bool) :
    Settled (x', m.down src swallowed) ↔
      (∀ s, s ≠ src → m.held s → x'.owed s = x.owed s) ∧
        x'.owed src = (allSwallowed (m.downs src) && swallowed) := by
  rw [← allSwallowed_append, ← PressLog.down_self]
  have hsrc : (m.down src swallowed).held src := by
    rw [PressLog.held, PressLog.down_self]
    simp
  constructor
  · intro h'
    refine ⟨fun s hs hheld => ?_, h'.owed src hsrc⟩
    have howed := h'.owed s (by rwa [PressLog.held, PressLog.down_of_ne hs])
    rw [PressLog.down_of_ne hs] at howed
    exact howed.trans (h.owed s hheld).symm
  · rintro ⟨hrest, hself⟩
    refine ⟨fun s hheld => ?_, fun s hheld => ?_, h.paired⟩
    · by_cases hs : s = src
      · rw [hs]
        exact hself
      · rw [PressLog.held, PressLog.down_of_ne hs] at hheld
        rw [PressLog.down_of_ne hs]
        exact (hrest s hs hheld).trans (h.owed s hheld)
    · by_cases hs : s = src
      · rw [hs]
        exact hwheel
      · rw [PressLog.held, PressLog.down_of_ne hs] at hheld
        exact h.wheel s hheld

/-- The press that is over must have the verdict its downs say. -/
theorem up_paired_iff (h : Settled (x, m)) (swallowed : Bool) :
    (m.up src swallowed).Paired ↔ (m.held src → swallowed = x.owed src) := by
  unfold PressLog.up
  split
  · next hheld =>
    rw [imp_iff_right hheld, h.owed src hheld, PressLog.Paired]
    simp only [List.mem_append, List.mem_singleton]
    constructor
    · intro hall
      have hlast := hall _ (.inr rfl)
      rw [← allSwallowed_iff] at hlast
      exact Bool.eq_iff_iff.mpr hlast
    · rintro rfl p (hp | rfl)
      · exact h.paired p hp
      · exact allSwallowed_iff _
  · next hheld => exact iff_of_true h.paired fun hs => absurd hs hheld

/-- After an up the others must be owed what they were, and the press that is over must have its
    up's verdict. -/
theorem up_iff (h : Settled (x, m)) (swallowed : Bool) :
    Settled (x', m.up src swallowed) ↔
      (∀ s, s ≠ src → m.held s → x'.owed s = x.owed s) ∧
        (m.held src → swallowed = x.owed src) := by
  rw [← h.up_paired_iff]
  constructor
  · intro h'
    refine ⟨fun s hs hheld => ?_, h'.paired⟩
    have howed := h'.owed s (by rwa [PressLog.held, PressLog.up_of_ne hs])
    rw [PressLog.up_of_ne hs] at howed
    exact howed.trans (h.owed s hheld).symm
  · rintro ⟨hrest, hpaired⟩
    have hother : ∀ s, (m.up src swallowed).held s → s ≠ src ∧ m.held s := by
      intro s hheld
      have hs : s ≠ src := by
        rintro rfl
        exact m.up_self s swallowed hheld
      exact ⟨hs, by rwa [PressLog.held, PressLog.up_of_ne hs] at hheld⟩
    refine ⟨fun s hheld => ?_, fun s hheld => h.wheel s (hother s hheld).2, hpaired⟩
    obtain ⟨hs, hheld⟩ := hother s hheld
    rw [PressLog.up_of_ne hs]
    exact (hrest s hs hheld).trans (h.owed s hheld)

/-- A step that is no key or button event. -/
theorem same_iff (h : Settled (x, m)) :
    Settled (x', m) ↔ ∀ s, m.held s → x'.owed s = x.owed s := by
  constructor
  · intro h' s hs
    exact (h'.owed s hs).trans (h.owed s hs).symm
  · intro hsame
    exact ⟨fun s hs => (hsame s hs).trans (h.owed s hs), h.wheel, h.paired⟩

end Settled

end InfinityClicker
