import InfinityClicker.Core.Purge
import InfinityClicker.Trigger.Hooks

namespace InfinityClicker

open Machines

/-!
# No feedback

The program's output comes back through the hooks and raw input, tagged as its own.  It is
counted and has no other effect: not on the calls to the sink, not on what is swallowed, not on
the state the handlers work with.

* `TriggerHooks.own` — the events tagged as the program's own output, or as the benchmark's
  while that tag is not accepted;
* `TriggerHooks.same` — the same up to the counters of observed events;
* `no_feedback` — streams that differ by own events are told apart by these counters alone.
-/

/-- A tag of the program's own output. -/
def HookFilter.ownTag (f : HookFilter) (extra : BitVec 64) : Bool :=
  extra == kTagInfClick || (extra == kTagBench && !f.acceptBenchTag)

namespace TriggerHooks

/-- The event is the program's own output. -/
def own (h : TriggerHooks) : HookInput → Bool
  | .kbProc _ _ k _ => h.filter.ownTag k.dwExtraInfo
  | .mouseProc _ _ m _ => h.filter.ownTag m.dwExtraInfo
  | .rawInput (some m) _ => h.filter.ownTag (m.ulExtraInformation.setWidth 64)
  | _ => false

/-- The two differ at most in their counters of observed events. -/
def same (h h' : TriggerHooks) : Prop := h' = { h with counters := h'.counters }

variable {h h' h'' : TriggerHooks}

theorem same_counters (h : TriggerHooks) (c : ObservedCounters) :
    h.same { h with counters := c } := rfl

theorem same_symm (hs : h.same h') : h'.same h := by
  rw [same, hs]

theorem same_trans (hs : h.same h') (hs' : h'.same h'') : h.same h'' := by
  rw [same, hs', hs]

/-! ### Own events -/

/-- An own event that is not tagged with the output's own tag is not physical. -/
theorem classifyPhysical_own {extra : BitVec 64} (hown : h.filter.ownTag extra = true)
    (htag : extra ≠ kTagInfClick) (injected : Bool) :
    h.classifyPhysical extra injected = false := by
  have hbench : extra = kTagBench ∧ h.filter.acceptBenchTag = false := by
    simpa [HookFilter.ownTag, htag] using hown
  rw [classifyPhysical, if_pos hbench.1]
  exact hbench.2

theorem passOn_quiet (h : TriggerHooks) (injected : Bool) :
    (h.passOn injected).2 = [] ∧ h.same (h.passOn injected).1 := by
  unfold passOn
  cases injected <;> exact ⟨rfl, rfl⟩

/-- **An own event** makes no call and is not swallowed; it moves counters only. -/
theorem own_quiet (i : HookInput) (hown : h.own i = true) :
    (h.step i).2 = [] ∧ h.same (h.step i).1 := by
  cases i with
  | kbProc code wp k v =>
    simp only [step, kbProc]
    split
    · exact ⟨rfl, rfl⟩
    · split
      · exact ⟨rfl, rfl⟩
      -- The event carries a tag of our own, so no branch takes it for a press.
      · next htag =>
        rw [classifyPhysical_own hown htag]
        exact h.passOn_quiet _
  | mouseProc code wp m v =>
    simp only [step, mouseProc]
    split
    · exact ⟨rfl, rfl⟩
    · split
      · exact ⟨rfl, rfl⟩
      · next htag =>
        rw [classifyPhysical_own hown htag]
        exact h.passOn_quiet _
  | rawInput ri v =>
    cases ri with
    | none => exact ⟨rfl, rfl⟩
    | some m =>
      simp only [step, handleRawInput]
      split
      · exact ⟨rfl, rfl⟩
      · split
        · exact ⟨rfl, rfl⟩
        · next htag =>
          have hbench : m.ulExtraInformation.setWidth 64 = kTagBench ∧
              h.filter.acceptBenchTag = false := by
            simpa [own, HookFilter.ownTag, htag] using hown
          rw [if_pos hbench]
          exact ⟨rfl, rfl⟩
  | _ => simp [own] at hown

/-! ### Other events -/

/-- The handler calls of a raw input event do not read the counters. -/
theorem handleEdges_counters (c : ObservedCounters) (v : HookView) (n : ℕ) (h : TriggerHooks)
    (edges : List (MouseButton × Bool)) :
    handleEdges v n { h with counters := c } edges =
      ({ (handleEdges v n h edges).1 with counters := c }, (handleEdges v n h edges).2) := by
  induction edges generalizing n h with
  | nil => rfl
  | cons edge edges ih =>
    obtain ⟨b, down⟩ := edge
    have hone : ({ h with counters := c } : TriggerHooks).handleMouse b down v n =
        ({ (h.handleMouse b down v n).1 with counters := c }, (h.handleMouse b down v n).2) := rfl
    simp only [handleEdges, hone]
    rw [ih (n + 1) (h.handleMouse b down v n).1]

theorem passOn_counters (h : TriggerHooks) (c : ObservedCounters) (injected : Bool) :
    (({ h with counters := c } : TriggerHooks).passOn injected).2 = (h.passOn injected).2 ∧
      (h.passOn injected).1.same (({ h with counters := c } : TriggerHooks).passOn injected).1 := by
  unfold passOn
  cases injected <;> exact ⟨rfl, rfl⟩

/-- **No event reads the counters.** -/
theorem step_counters (h : TriggerHooks) (c : ObservedCounters) (i : HookInput) :
    (({ h with counters := c } : TriggerHooks).step i).2 = (h.step i).2 ∧
      (h.step i).1.same (({ h with counters := c } : TriggerHooks).step i).1 := by
  -- The handlers look at the filter, never at the counters.
  have hclass : ∀ extra injected, ({ h with counters := c } : TriggerHooks).classifyPhysical
      extra injected = h.classifyPhysical extra injected := fun _ _ => rfl
  cases i with
  | kbProc code wp k v =>
    simp only [step, kbProc, hclass]
    split
    · exact ⟨rfl, rfl⟩
    · split
      · exact ⟨rfl, rfl⟩
      · split
        · exact h.passOn_counters c _
        · exact ⟨rfl, rfl⟩
  | mouseProc code wp m v =>
    simp only [step, mouseProc, hclass]
    split
    · exact ⟨rfl, rfl⟩
    · split
      · exact ⟨rfl, rfl⟩
      · split
        · exact h.passOn_counters c _
        · split <;> exact ⟨rfl, rfl⟩
  | rawInput ri v =>
    simp only [step, handleRawInput]
    split
    · exact ⟨rfl, rfl⟩
    · next m =>
      split
      · exact ⟨rfl, rfl⟩
      · split
        · exact ⟨rfl, rfl⟩
        · split
          · exact ⟨rfl, rfl⟩
          · rw [handleEdges_counters]
            exact ⟨rfl, rfl⟩
  | _ => exact ⟨rfl, rfl⟩

/-- Own events are hidden from the rest of the stream. -/
theorem hides_own : hooksMachine.Hides own same where
  refl h := same_counters h h.counters
  symm := same_symm
  trans := same_trans
  agrees := by
    intro h h' i hs
    have hfilter : h'.filter = h.filter := by rw [hs]
    cases i with
    | rawInput ri v =>
      cases ri with
      | none => rfl
      | some m => simp only [own, hfilter]
    | kbProc code wp k v => simp only [own, hfilter]
    | mouseProc code wp m v => simp only [own, hfilter]
    | _ => rfl
  quiet := fun hown => own_quiet _ hown
  consistent := by
    intro h h' i hs _
    obtain ⟨hout, hnext⟩ := h.step_counters h'.counters i
    rw [← show h' = { h with counters := h'.counters } from hs] at hout hnext
    exact ⟨hout.symm, hnext⟩

end TriggerHooks

/-- What two streams of events cannot tell apart: what each event that is not own makes the
    program call and whether it is swallowed, all calls in order, and the state but for the
    counters of observed events. -/
structure Indistinguishable (h : TriggerHooks) (is js : List HookInput) : Prop where
  shown : hooksMachine.shown TriggerHooks.own h is = hooksMachine.shown TriggerHooks.own h js
  trace : hooksMachine.trace h is = hooksMachine.trace h js
  state : (hooksMachine.after h is).same (hooksMachine.after h js)

/-- **No feedback**: streams of hook and raw input events, configurations and captures that are
    the same but for own events, at any positions, are indistinguishable. -/
theorem no_feedback (h : TriggerHooks) (is js : List HookInput)
    (hothers : hooksMachine.purge TriggerHooks.own h is =
      hooksMachine.purge TriggerHooks.own h js) : Indistinguishable h is js := by
  obtain ⟨hshown, hafter⟩ := TriggerHooks.hides_own.run hothers
  refine ⟨hshown, ?_, hafter⟩
  rw [TriggerHooks.hides_own.trace_eq_shown, TriggerHooks.hides_own.trace_eq_shown, hshown]

/-- A press of the left button, at the mouse hook. -/
def leftPress (tag : BitVec 64) : HookInput :=
  .mouseProc HC_ACTION WM_LBUTTONDOWN { dwExtraInfo := tag } {}

/-- The left button's release in raw input. -/
def leftRelease (tag : BitVec 32) : HookInput :=
  .rawInput (some { usButtonFlags := 0x0002, ulExtraInformation := tag }) {}

/-- The left button as its own trigger: configured, pressed and released, with the output's clicks
    in between. -/
def clicksBetween : List HookInput :=
  [.setConfig { trigger := .mouse .left } {}, .applyPendingConfig, leftPress kTagInfClick,
    leftPress 0, leftPress kTagInfClick, leftPress kTagBench, leftRelease 0x494E4643,
    leftRelease 0]

theorem clicksBetween_indistinguishable :
    Indistinguishable {} clicksBetween
      [.setConfig { trigger := .mouse .left } {}, .applyPendingConfig, leftPress 0,
        leftRelease 0] :=
  no_feedback {} clicksBetween _ rfl

example : hooksMachine.trace {} clicksBetween =
    [.call (.onTriggerDown 0), .call (.onTriggerUp 0)] := by decide +kernel

end InfinityClicker
