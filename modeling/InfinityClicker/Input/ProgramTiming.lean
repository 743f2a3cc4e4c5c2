import Mathlib.Algebra.Order.BigOperators.Group.List
import InfinityClicker.Input.InputAction

namespace InfinityClicker

/-!
# When the steps of a program are due

The timeline of an action only goes forward, and equal times are one step.

* `compileAction_ok` — an action compiles when a key or button is assigned;
* `compileAction_spanTicks` — the offset of the last step: every hold and every gap between;
* `actionEvents_length` — an action has at most 14 events, so no step runs out of room;
* `compileAction_increasing` — the offsets of the steps are strictly increasing;
* `compileAction_first` — the first of them is zero;
* `compileAction_count` — a step holds between 1 and 14 inputs.
-/

/-! ### Times of the timeline -/

/-- The time after the presses: a hold each, unless they are notches, and the gaps between. -/
theorem pressLoop_time (press : Bool → INPUT) (wheel : Bool) (hold gap : ℤ) (n : ℕ) (t : ℤ) :
    (pressLoop press wheel hold gap n t).2 =
      t + (if wheel then 0 else n * hold) + (n - 1 : ℕ) * gap := by
  induction n generalizing t with
  | zero => cases wheel <;> simp [pressLoop]
  | succ n ih =>
    -- Only the last press is not followed by a gap.
    have hgap : ((n - 1 : ℕ) : ℤ) * gap + (if n > 0 then gap else 0) = n * gap := by
      cases n with
      | zero => simp
      | succ n =>
        simp
        ring
    rw [Nat.add_sub_cancel, ← hgap]
    cases wheel with
    | true =>
      simp only [pressLoop, if_true, ih]
      split <;> ring
    | false =>
      simp only [pressLoop, Bool.false_eq_true, if_false, ih]
      push_cast
      split <;> ring

theorem pressLoop_length (press : Bool → INPUT) (wheel : Bool) (hold gap : ℤ) (n : ℕ) (t : ℤ) :
    (pressLoop press wheel hold gap n t).1.length ≤ 2 * n := by
  induction n generalizing t with
  | zero => simp [pressLoop]
  | succ n ih =>
    cases wheel with
    | true =>
      have hrest := ih (if n > 0 then t + gap else t)
      simp only [pressLoop, if_true, List.length_append, List.length_singleton]
      omega
    | false =>
      have hrest := ih (if n > 0 then t + hold + gap else t + hold)
      simp only [pressLoop, Bool.false_eq_true, if_false, List.length_append, List.length_cons,
        List.length_nil]
      omega

/-- The events come one after the other, between two times. -/
structure Runs (evs : List Ev) (t t' : ℤ) : Prop where
  sorted : (evs.map Ev.t).Pairwise (· ≤ ·)
  within : ∀ e ∈ evs, t ≤ e.t ∧ e.t ≤ t'

namespace Runs

/-- Events at one time. -/
theorem at_once (ins : List INPUT) (t : ℤ) : Runs (ins.map (⟨t, ·⟩)) t t := by
  refine ⟨?_, ?_⟩
  · rw [List.map_map]
    exact List.pairwise_map.mpr (List.pairwise_of_forall fun _ _ => le_refl t)
  · intro e he
    obtain ⟨i, -, rfl⟩ := List.mem_map.mp he
    exact ⟨le_refl t, le_refl t⟩

/-- One timeline after another. -/
theorem append {evs evs' : List Ev} {t t₁ t₂ t' : ℤ} (h : Runs evs t t₁) (h' : Runs evs' t₂ t')
    (ht : t ≤ t₂) (hmid : t₁ ≤ t₂) (ht' : t₁ ≤ t') : Runs (evs ++ evs') t t' := by
  refine ⟨?_, ?_⟩
  · rw [List.map_append, List.pairwise_append]
    refine ⟨h.sorted, h'.sorted, ?_⟩
    intro a ha b hb
    obtain ⟨e, he, rfl⟩ := List.mem_map.mp ha
    obtain ⟨e', he', rfl⟩ := List.mem_map.mp hb
    have hleft := (h.within e he).2
    have hright := (h'.within e' he').1
    omega
  · intro e he
    rcases List.mem_append.mp he with hleft | hright
    · have hbetween := h.within e hleft
      omega
    · have hbetween := h'.within e hright
      omega

end Runs

/-- The presses go forward, and the last of them is at the time after them. -/
theorem pressLoop_runs (press : Bool → INPUT) (wheel : Bool) {hold gap : ℤ} (hhold : 0 ≤ hold)
    (hgap : 0 ≤ gap) (n : ℕ) (t : ℤ) :
    Runs (pressLoop press wheel hold gap n t).1 t (pressLoop press wheel hold gap n t).2 ∧
      t ≤ (pressLoop press wheel hold gap n t).2 := by
  induction n generalizing t with
  | zero => exact ⟨⟨by simp [pressLoop], by simp [pressLoop]⟩, le_refl t⟩
  | succ n ih =>
    cases wheel with
    | true =>
      obtain ⟨hrest, hle⟩ := ih (if n > 0 then t + gap else t)
      have hlater : t ≤ if n > 0 then t + gap else t := by split <;> omega
      have hone : Runs [⟨t, press true⟩] t t := Runs.at_once [press true] t
      have hend := le_trans hlater hle
      exact ⟨hone.append hrest hlater hlater hend, hend⟩
    | false =>
      obtain ⟨hrest, hle⟩ := ih (if n > 0 then t + hold + gap else t + hold)
      have hlater : t + hold ≤ if n > 0 then t + hold + gap else t + hold := by split <;> omega
      have htwo : Runs [⟨t, press true⟩, ⟨t + hold, press false⟩] t (t + hold) :=
        (Runs.at_once [press true] t).append (Runs.at_once [press false] (t + hold)) (by omega)
          (by omega) (by omega)
      have hend := le_trans hlater hle
      exact ⟨htwo.append hrest (by omega) hlater hend, le_trans (by omega) hend⟩

theorem pressLoop_last (press : Bool → INPUT) (wheel : Bool) (hold gap : ℤ) (n : ℕ) (t : ℤ) :
    (pressLoop press wheel hold gap (n + 1) t).1.getLast?.map Ev.t =
      some (pressLoop press wheel hold gap (n + 1) t).2 := by
  induction n generalizing t with
  | zero => cases wheel <;> rfl
  | succ n ih =>
    rw [pressLoop]
    cases wheel with
    | true =>
      have hrest := ih (t + gap)
      simp only [if_true, Nat.zero_lt_succ, List.getLast?_append] at hrest ⊢
      cases hl : (pressLoop press true hold gap (n + 1) (t + gap)).1.getLast? with
      | none => simp [hl] at hrest
      | some e => simpa [hl] using hrest
    | false =>
      have hrest := ih (t + hold + gap)
      simp only [Bool.false_eq_true, if_false, if_true, Nat.zero_lt_succ,
        List.getLast?_append] at hrest ⊢
      cases hl : (pressLoop press false hold gap (n + 1) (t + hold + gap)).1.getLast? with
      | none => simp [hl] at hrest
      | some e => simpa [hl] using hrest

/-! ### The timeline of an action -/

theorem flatMap_modInput_length (P : Platform) (mods own : BitVec 8) (up : Bool)
    (mode : KeyInjectMode) (tag : BitVec 64) (ms : List (BitVec 8 × BitVec 16)) :
    (ms.flatMap (modInput P mods own up mode tag)).length ≤ ms.length := by
  induction ms with
  | nil => simp
  | cons m ms ih =>
    have hone : (modInput P mods own up mode tag m).length ≤ 1 := by
      rw [modInput]
      split <;> simp
    rw [List.flatMap_cons, List.length_append, List.length_cons]
    omega

theorem appendMods_length (P : Platform) (mods : BitVec 8) (mainVk : BitVec 16) (up : Bool)
    (mode : KeyInjectMode) (tag : BitVec 64) :
    (appendMods P mods mainVk up mode tag).length ≤ 4 := by
  simp only [appendMods]
  split
  · exact flatMap_modInput_length P mods _ up mode tag kModKeys
  · exact flatMap_modInput_length P mods _ up mode tag kModKeys.reverse

namespace InputAction

variable (P : Platform) (a : InputAction)

/-- Presses per action. -/
def times : ℕ := max 1 (min a.repeatCount 3)

/-- The time from the first press to the last event, in ticks. -/
def span : ℤ :=
  (if a.chord.isWheel then 0 else a.times * Clk.usToTicks P a.downTimeUs) +
    (a.times - 1 : ℕ) * Clk.usToTicks P a.repeatGapUs

/-- The presses of the action and the time after them. -/
def presses (tag : BitVec 64) : List Ev × ℤ :=
  pressLoop (mainInput P a tag) a.chord.isWheel (Clk.usToTicks P a.downTimeUs)
    (Clk.usToTicks P a.repeatGapUs) a.times 0

theorem times_bounds : 1 ≤ a.times ∧ a.times ≤ 3 := by
  rw [times]
  omega

theorem presses_span (tag : BitVec 64) : (a.presses P tag).2 = a.span P := by
  rw [presses, pressLoop_time, zero_add, span]

theorem presses_runs (tag : BitVec 64) :
    Runs (a.presses P tag).1 0 (a.span P) ∧ 0 ≤ a.span P := by
  have hhold : 0 ≤ Clk.usToTicks P a.downTimeUs := Clk.usToTicks_nonneg P (by positivity)
  have hgap : 0 ≤ Clk.usToTicks P a.repeatGapUs := Clk.usToTicks_nonneg P (by positivity)
  rw [← presses_span P a tag]
  exact pressLoop_runs (mainInput P a tag) a.chord.isWheel hhold hgap a.times 0

theorem presses_last (tag : BitVec 64) :
    (a.presses P tag).1.getLast?.map Ev.t = some (a.span P) := by
  obtain ⟨n, hn⟩ : ∃ n, a.times = n + 1 := ⟨a.times - 1, by have h := a.times_bounds; omega⟩
  rw [← presses_span P a tag, presses, hn]
  exact pressLoop_last _ _ _ _ n 0

end InputAction

section Action

variable (P : Platform) (a : InputAction) (tag : BitVec 64)

/-- The modifiers' presses or releases. -/
def modEvents (up : Bool) : List INPUT :=
  appendMods P a.chord.mods (if a.chord.isKeyboard then a.chord.code else 0) up a.keyMode tag

/-- The timeline: modifiers at the start, the presses, modifiers at the end. -/
theorem actionEvents_eq : actionEvents P a tag =
    (modEvents P a tag false).map (⟨0, ·⟩) ++ (a.presses P tag).1 ++
      (modEvents P a tag true).map (⟨a.span P, ·⟩) := by
  rw [← InputAction.presses_span P a tag]
  rfl

theorem actionEvents_runs : Runs (actionEvents P a tag) 0 (a.span P) := by
  obtain ⟨hpresses, hspan⟩ := InputAction.presses_runs P a tag
  rw [actionEvents_eq]
  exact ((Runs.at_once _ 0).append hpresses (le_refl 0) (le_refl 0) hspan).append
    (Runs.at_once _ (a.span P)) hspan (le_refl _) (le_refl _)

/-- The last event is at the end of the span. -/
theorem actionEvents_last : (actionEvents P a tag).getLast?.map Ev.t = some (a.span P) := by
  have hlast := InputAction.presses_last P a tag
  rw [actionEvents_eq, List.getLast?_append, List.getLast?_map]
  cases hup : (modEvents P a tag true).getLast? with
  | some i => rfl
  | none =>
    cases hl : (a.presses P tag).1.getLast? with
    | none => simp [hl] at hlast
    | some e => simpa [hl, List.getLast?_append] using hlast

/-- **An action has at most 14 events**: four modifiers twice and three presses. -/
theorem actionEvents_length : (actionEvents P a tag).length ≤ 14 := by
  have hpresses := pressLoop_length (mainInput P a tag) a.chord.isWheel
    (Clk.usToTicks P a.downTimeUs) (Clk.usToTicks P a.repeatGapUs) a.times 0
  have hdowns := appendMods_length P a.chord.mods
    (if a.chord.isKeyboard then a.chord.code else 0) false a.keyMode tag
  have hups := appendMods_length P a.chord.mods
    (if a.chord.isKeyboard then a.chord.code else 0) true a.keyMode tag
  have htimes := a.times_bounds
  rw [actionEvents_eq]
  simp only [List.length_append, List.length_map, modEvents, InputAction.presses]
  omega

end Action

/-! ### Grouping -/

/-- Steps of `n` events in all, the last of them at `t`. -/
structure Grouped (steps : List ActionStep) (n : ℕ) (t : ℤ) : Prop where
  increasing : (steps.map ActionStep.offsetTicks).Pairwise (· < ·)
  last : (steps.map ActionStep.offsetTicks).getLast? = some t
  events : (steps.map ActionStep.count).sum = n

namespace Grouped

theorem first (e : Ev) : Grouped (pushEvent [] e) 1 e.t :=
  ⟨by simp [pushEvent], rfl, rfl⟩

/-- An event no earlier than the last step, while the steps have room. -/
theorem push {steps : List ActionStep} {n : ℕ} {t : ℤ} (h : Grouped steps n t) {e : Ev}
    (ht : t ≤ e.t) (hroom : n < kMaxStepInputs) : Grouped (pushEvent steps e) (n + 1) e.t := by
  obtain ⟨hinc, hlast, hevents⟩ := h
  cases hl : steps.getLast? with
  | none => simp [List.getLast?_map, hl] at hlast
  | some s =>
    have hs : s.offsetTicks = t := by simpa [List.getLast?_map, hl] using hlast
    have hsplit : steps = steps.dropLast ++ [s] :=
      (List.dropLast_append_getLast? s hl).symm
    -- No step has more inputs than there were events.
    have hcount : s.count < kMaxStepInputs := by
      rw [hsplit] at hevents
      simp only [List.map_append, List.sum_append, List.map_singleton,
        List.sum_singleton] at hevents
      omega
    rw [pushEvent, hl]
    dsimp only
    by_cases hnew : s.offsetTicks = e.t
    · rw [if_neg (by omega)]
      have hoffsets : (steps.dropLast ++ [{ s with inputs := s.inputs ++ [e.input] }]).map
          ActionStep.offsetTicks = steps.map ActionStep.offsetTicks := by
        conv_rhs => rw [hsplit]
        simp
      refine ⟨?_, ?_, ?_⟩
      · rw [hoffsets]
        exact hinc
      · rw [hoffsets, hlast, ← hs, hnew]
      · rw [hsplit] at hevents
        simp only [List.map_append, List.sum_append, List.map_singleton, List.sum_singleton,
          ActionStep.count, List.length_append, List.length_singleton] at hevents ⊢
        omega
    · rw [if_pos (Or.inl hnew)]
      refine ⟨?_, by simp, by simp [hevents, ActionStep.count]⟩
      rw [List.map_append, List.pairwise_append]
      refine ⟨hinc, by simp, ?_⟩
      intro o ho o' ho'
      rw [List.map_singleton, List.mem_singleton] at ho'
      -- The last step is the latest.
      have hle : o ≤ s.offsetTicks := by
        rw [hsplit, List.map_append, List.mem_append] at ho
        rw [hsplit, List.map_append, List.pairwise_append] at hinc
        rcases ho with hold | hs'
        · exact le_of_lt (hinc.2.2 o hold s.offsetTicks (by simp))
        · rw [List.map_singleton, List.mem_singleton] at hs'
          exact le_of_eq hs'
      rw [ho']
      show o < e.t
      omega

/-- A whole timeline that goes forward. -/
theorem pushAll (evs : List Ev) {steps : List ActionStep} {n : ℕ} {t : ℤ} (h : Grouped steps n t)
    (hsorted : (t :: evs.map Ev.t).Pairwise (· ≤ ·)) (hroom : n + evs.length ≤ kMaxStepInputs) :
    Grouped (evs.foldl pushEvent steps) (n + evs.length) ((evs.getLast?.map Ev.t).getD t) := by
  induction evs generalizing steps n t with
  | nil => simpa using h
  | cons e evs ih =>
    rw [List.length_cons] at hroom ⊢
    rw [List.map_cons, List.pairwise_cons] at hsorted
    have hpush := h.push (hsorted.1 e.t (by simp)) (by omega)
    have hrest := ih hpush hsorted.2 (by omega)
    rw [List.foldl_cons, show n + (evs.length + 1) = n + 1 + evs.length by omega]
    cases hl : evs.getLast? with
    | none =>
      rw [List.getLast?_eq_none_iff] at hl
      subst hl
      exact hpush
    | some last => simpa [List.getLast?_cons, hl] using hrest

end Grouped

/-- The steps of a compiled action are its timeline, grouped. -/
theorem compileAction_grouped (P : Platform) (a : InputAction) (tag : BitVec 64)
    (hv : a.chord.valid = true) :
    Grouped (compileAction P a tag).steps (actionEvents P a tag).length (a.span P) := by
  have hsteps : (compileAction P a tag).steps = (actionEvents P a tag).foldl pushEvent [] := by
    simp [compileAction, hv]
  have hlast := actionEvents_last P a tag
  have hsorted := (actionEvents_runs P a tag).sorted
  have hlength := actionEvents_length P a tag
  rw [hsteps]
  cases hevs : actionEvents P a tag with
  | nil => simp [hevs] at hlast
  | cons e evs =>
    rw [hevs] at hlast hsorted hlength
    rw [List.length_cons] at hlength
    have hall := (Grouped.first e).pushAll evs hsorted (by rw [kMaxStepInputs]; omega)
    rw [List.foldl_cons, List.length_cons, Nat.add_comm]
    cases hl : evs.getLast? with
    | none =>
      rw [List.getLast?_eq_none_iff] at hl
      subst hl
      have hspan : e.t = a.span P := by simpa using hlast
      simpa [hspan] using hall
    | some last =>
      have hspan : last.t = a.span P := by simpa [List.getLast?_cons, hl] using hlast
      simpa [hl, hspan] using hall

/-- Nothing is compiled without a key or button. -/
theorem compileAction_invalid (P : Platform) (a : InputAction) (tag : BitVec 64)
    (hv : a.chord.valid = false) :
    compileAction P a tag = { error := "no action key/button assigned" } := by
  rw [compileAction, if_pos (by rw [hv]; rfl)]

/-- An action compiles when a key or button is assigned. -/
theorem compileAction_ok (P : Platform) (a : InputAction) (tag : BitVec 64) :
    (compileAction P a tag).ok = a.chord.valid := by
  cases hv : a.chord.valid with
  | false =>
    rw [compileAction_invalid P a tag hv]
    rfl
  | true =>
    have hlast := (compileAction_grouped P a tag hv).last
    have herror : (compileAction P a tag).error = "" := by simp [compileAction, hv]
    rw [ActionProgram.ok, herror]
    cases hsteps : (compileAction P a tag).steps with
    | nil => simp [hsteps] at hlast
    | cons st sts => rfl

/-- The offset of the last step. -/
theorem compileAction_spanTicks (P : Platform) (a : InputAction) (tag : BitVec 64)
    (hv : a.chord.valid = true) : (compileAction P a tag).spanTicks = a.span P := by
  have hlast := (compileAction_grouped P a tag hv).last
  have hspan : (compileAction P a tag).spanTicks =
      ((compileAction P a tag).steps.getLast?.map ActionStep.offsetTicks).getD 0 := by
    simp [compileAction, hv]
  rw [hspan, ← List.getLast?_map, hlast, Option.getD_some]

/-- **The offsets of the steps are strictly increasing**, and none is past the span. -/
theorem compileAction_increasing (P : Platform) (a : InputAction) (tag : BitVec 64) :
    ((compileAction P a tag).steps.map ActionStep.offsetTicks).Pairwise (· < ·) ∧
      ∀ st ∈ (compileAction P a tag).steps,
        st.offsetTicks ≤ (compileAction P a tag).spanTicks := by
  by_cases hv : a.chord.valid = true
  · have hgrouped := compileAction_grouped P a tag hv
    refine ⟨hgrouped.increasing, ?_⟩
    intro st hst
    rw [compileAction_spanTicks P a tag hv]
    have hinc := hgrouped.increasing
    have hlast := hgrouped.last
    rw [List.getLast?_eq_some_iff] at hlast
    obtain ⟨before, hsplit⟩ := hlast
    have hmem : st.offsetTicks ∈ (compileAction P a tag).steps.map ActionStep.offsetTicks :=
      List.mem_map_of_mem hst
    rw [hsplit] at hinc hmem
    rcases List.mem_append.mp hmem with hbefore | hend
    · exact le_of_lt ((List.pairwise_append.mp hinc).2.2 _ hbefore _ (by simp))
    · exact le_of_eq (List.mem_singleton.mp hend)
  · simp [compileAction, hv]

/-! ### The first step, and how full the steps are -/

/-- An event changes the offset of no step, and adds at most one step behind them. -/
theorem pushEvent_offsets (steps : List ActionStep) (e : Ev) :
    steps.map ActionStep.offsetTicks <+: (pushEvent steps e).map ActionStep.offsetTicks := by
  rw [pushEvent]
  cases hl : steps.getLast? with
  | none =>
    rw [List.getLast?_eq_none_iff] at hl
    subst hl
    exact List.nil_prefix
  | some s =>
    have hsplit : steps = steps.dropLast ++ [s] :=
      (List.dropLast_append_getLast? s hl).symm
    dsimp only
    split
    · rw [List.map_append]
      exact List.prefix_append _ _
    · -- The last step takes the event and keeps its time.
      have hsame : (steps.dropLast ++ [{ s with inputs := s.inputs ++ [e.input] }]).map
          ActionStep.offsetTicks = steps.map ActionStep.offsetTicks := by
        conv_rhs => rw [hsplit]
        simp
      rewrite [hsame]
      exact List.prefix_rfl

theorem foldl_pushEvent_offsets (evs : List Ev) (steps : List ActionStep) :
    steps.map ActionStep.offsetTicks <+:
      (evs.foldl pushEvent steps).map ActionStep.offsetTicks := by
  induction evs generalizing steps with
  | nil => exact List.prefix_rfl
  | cons e evs ih =>
    have hone := pushEvent_offsets steps e
    rw [List.foldl_cons]
    exact hone.trans (ih (pushEvent steps e))

/-- The first event of a timeline is at its start: a modifier's, or the first press. -/
theorem actionEvents_first (P : Platform) (a : InputAction) (tag : BitVec 64) :
    ∃ e evs, actionEvents P a tag = e :: evs ∧ e.t = 0 := by
  obtain ⟨n, hn⟩ : ∃ n, a.times = n + 1 := ⟨a.times - 1, by have h := a.times_bounds; omega⟩
  rw [actionEvents_eq]
  cases modEvents P a tag false with
  | cons i is => exact ⟨⟨0, i⟩, _, rfl, rfl⟩
  | nil =>
    rw [InputAction.presses, hn, pressLoop]
    cases a.chord.isWheel with
    | true => exact ⟨⟨0, mainInput P a tag true⟩, _, rfl, rfl⟩
    | false => exact ⟨⟨0, mainInput P a tag true⟩, _, rfl, rfl⟩

/-- **The first step is due as the action starts.** -/
theorem compileAction_first (P : Platform) (a : InputAction) (tag : BitVec 64)
    (hv : a.chord.valid = true) :
    ((compileAction P a tag).steps.map ActionStep.offsetTicks).head? = some 0 := by
  have hsteps : (compileAction P a tag).steps = (actionEvents P a tag).foldl pushEvent [] := by
    simp [compileAction, hv]
  obtain ⟨e, evs, hevs, hzero⟩ := actionEvents_first P a tag
  have hprefix := foldl_pushEvent_offsets evs (pushEvent [] e)
  rw [hsteps, hevs, List.foldl_cons]
  obtain ⟨rest, hrest⟩ := hprefix
  rw [← hrest]
  show some e.t = some 0
  rw [hzero]

/-- **A step holds between 1 and 14 inputs.** -/
theorem compileAction_count (P : Platform) (a : InputAction) (tag : BitVec 64) :
    ∀ st ∈ (compileAction P a tag).steps, 1 ≤ st.count ∧ st.count ≤ 14 := by
  intro st hst
  have hne := compileAction_inputs_ne_nil P a tag st hst
  refine ⟨List.length_pos_iff.mpr hne, ?_⟩
  by_cases hv : a.chord.valid = true
  · -- No step holds more than all of them together.
    have hall := (compileAction_grouped P a tag hv).events
    have hlength := actionEvents_length P a tag
    have hone : st.count ≤ ((compileAction P a tag).steps.map ActionStep.count).sum :=
      List.le_sum_of_mem (List.mem_map_of_mem hst)
    omega
  · simp [compileAction, hv] at hst

end InfinityClicker
