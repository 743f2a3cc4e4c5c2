import Mathlib.Data.List.Nodup
import InfinityClicker.Input.HeldKeys

namespace InfinityClicker

open Presses

/-!
# What `releaseAll` releases

`releaseAll` clears from the record what its buffer has room for (`releaseAll_held`): with at
most 64 keys and buttons held nothing is left (`releaseAll_nothing`).  One compiled action
never holds more than six (`compileAction_cover`).
-/

namespace InputSender

/-- The number of keys and buttons recorded as held. -/
def heldCount (s : InputSender) : ℕ :=
  (vks.filter s.heldKeys).length + ((List.finRange 5).filter s.heldMouse).length

/-- Every VK is visited by the word and bit loops. -/
theorem mem_vks (vk : Vk) : vk ∈ vks := by
  refine List.mem_map.mpr ⟨vk.toNat, List.mem_range.mpr vk.isLt, ?_⟩
  simp

theorem vks_nodup : vks.Nodup := by
  refine List.Nodup.map_on (fun a ha b hb hab => ?_) List.nodup_range
  have heq := congrArg BitVec.toNat hab
  simp only [BitVec.toNat_ofNat] at heq
  have ha' := List.mem_range.mp ha
  have hb' := List.mem_range.mp hb
  omega

/-- The held keys and buttons, in the order they are released. -/
def heldList (s : InputSender) : List Control :=
  (vks.filter s.heldKeys).map .key ++ ((List.finRange 5).filter s.heldMouse).map .button

theorem mem_heldList (s : InputSender) (c : Control) : c ∈ s.heldList ↔ s.held c = true := by
  cases c with
  | key vk => simp [heldList, held, mem_vks]
  | button b => simp [heldList, held]

theorem heldList_nodup (s : InputSender) : s.heldList.Nodup := by
  refine List.Nodup.append ?_ ?_ ?_
  · exact (vks_nodup.filter _).map fun a b h => Control.key.inj h
  · exact ((List.nodup_finRange 5).filter _).map fun a b h => Control.button.inj h
  · intro c hkey hbutton
    obtain ⟨vk, -, rfl⟩ := List.mem_map.mp hkey
    obtain ⟨b, -, hb⟩ := List.mem_map.mp hbutton
    exact absurd hb (by simp)

/-- Controls that cover what is held bound its number. -/
theorem heldCount_le {s : InputSender} {cs : List Control}
    (hcover : ∀ c, s.held c = true → c ∈ cs) : s.heldCount ≤ cs.length := by
  -- No control is listed twice, so a cover is no shorter than the list.
  have hsub : s.heldList ⊆ cs := fun c hc => hcover c ((s.mem_heldList c).mp hc)
  have hlen := (s.heldList_nodup.subperm hsub).length_le
  simpa [heldList, heldCount] using hlen

/-- The release built for a key lets it up; key 0 is no key. -/
theorem keyUpFor_edges (keyMeta : Vk → BitVec 16) (vk : Vk) :
    inputEdges (keyUpFor keyMeta vk) = if vk = 0 then [] else [(.key vk, false)] := by
  have hback : (vk.setWidth 16).setWidth 8 = vk := by
    rw [BitVec.setWidth_setWidth_of_le vk (by omega), BitVec.setWidth_eq]
  simp only [keyUpFor, makeKeyInput_edges, hback, Bool.not_true]

/-- The release built for a button lets it up. -/
theorem mouseUpFor_edges (b : Fin 5) : inputEdges (mouseUpFor b) = [(.button b, false)] := by
  simp only [mouseUpFor, makeMouseInput_edges]
  revert b
  decide

/-- A release is an up edge. -/
theorem releases_up (s : InputSender) : ∀ e ∈ edgesOf s.releases, e.2 = false := by
  intro e he
  obtain ⟨i, hi, hei⟩ := List.mem_flatMap.mp he
  rcases List.mem_append.mp (List.mem_of_mem_take hi) with hkey | hmouse
  · obtain ⟨vk, -, rfl⟩ := List.mem_map.mp hkey
    rw [keyUpFor_edges] at hei
    split at hei
    · exact absurd hei (by simp)
    · simp [List.mem_singleton.mp hei]
  · obtain ⟨b, -, rfl⟩ := List.mem_map.mp hmouse
    rw [mouseUpFor_edges] at hei
    simp [List.mem_singleton.mp hei]

/-- Releasing a part of it first makes no difference to releasing everything. -/
theorem hold_subset_all {h : Control → Bool} {ins js : List INPUT} (hsub : js ⊆ ins)
    (hup : ∀ e ∈ edgesOf ins, e.2 = false) :
    hold (hold h (edgesOf js)) (edgesOf ins) = hold h (edgesOf ins) := by
  have hpart : ∀ e ∈ edgesOf js, e.2 = false := by
    intro e he
    exact hup e (edgesOf_subset hsub he)
  funext c
  rw [Bool.eq_iff_iff, hold_ups hup, hold_ups hpart, hold_ups hup]
  constructor
  · rintro ⟨⟨hc, -⟩, hnot⟩
    exact ⟨hc, hnot⟩
  · rintro ⟨hc, hnot⟩
    exact ⟨⟨hc, fun hmem => hnot (edgesOf_subset hsub hmem)⟩, hnot⟩

/-- **`releaseAll` clears what it builds releases for**, accepted or not. -/
theorem releaseAll_held (s : InputSender) (r retry : SendResult) :
    (s.releaseAll r retry).sender.held = hold s.held (edgesOf s.releases) := by
  unfold releaseAll
  by_cases hnil : s.releases = []
  · simp [hnil]
  · simp only [hnil, if_false]
    split
    · -- With a retry every release is tracked, on top of those already accepted.
      rw [publish_held, trackAll_held, send_held]
      exact hold_subset_all (List.take_subset _ _) s.releases_up
    · next hall =>
      have hok : (s.send s.releases r).ok = r.accepted s.releases.length := by
        simp [send, hnil, sendInput]
      rw [not_not, hok] at hall
      rw [send_held, hall, List.take_length]

/-- With room for all of them every held control gets its release. -/
theorem releases_cover {s : InputSender} (hroom : s.heldCount ≤ releaseRoom)
    (hzero : s.heldKeys 0 = false) {c : Control} (hc : s.held c = true) :
    (c, false) ∈ edgesOf s.releases := by
  have hall : s.releases = (vks.filter s.heldKeys).map (keyUpFor s.keyMeta) ++
      ((List.finRange 5).filter s.heldMouse).map mouseUpFor :=
    List.take_of_length_le (by simpa [heldCount] using hroom)
  rw [hall, edgesOf_append]
  cases c with
  | key vk =>
    -- A release of key 0 would be no edge.
    have hne : vk ≠ 0 := by
      intro h
      subst h
      exact absurd (hzero.symm.trans hc) (by simp)
    refine List.mem_append_left _ (List.mem_flatMap.mpr ⟨keyUpFor s.keyMeta vk, ?_, ?_⟩)
    · exact List.mem_map_of_mem (List.mem_filter.mpr ⟨mem_vks vk, hc⟩)
    · rw [keyUpFor_edges, if_neg hne]
      exact List.mem_singleton_self _
  | button b =>
    refine List.mem_append_right _ (List.mem_flatMap.mpr ⟨mouseUpFor b, ?_, ?_⟩)
    · exact List.mem_map_of_mem (List.mem_filter.mpr ⟨List.mem_finRange b, hc⟩)
    · rw [mouseUpFor_edges]
      exact List.mem_singleton_self _

/-- **With at most 64 keys and buttons held, `releaseAll` leaves nothing held.** -/
theorem releaseAll_nothing {s : InputSender} (hroom : s.heldCount ≤ releaseRoom)
    (hzero : s.heldKeys 0 = false) (r retry : SendResult) :
    (s.releaseAll r retry).sender.held = nothing := by
  rw [releaseAll_held]
  exact hold_eq_nothing s.releases_up fun c hc => releases_cover hroom hzero hc

/-- No event is about key 0. -/
theorem edgesOf_ne_zero {ins : List INPUT} {e : Control × Bool} (he : e ∈ edgesOf ins) :
    e.1 ≠ .key 0 := by
  obtain ⟨i, -, hi⟩ := List.mem_flatMap.mp he
  cases i with
  | hardware => exact absurd hi (by simp [inputEdges])
  | keyboard ki =>
    simp only [inputEdges] at hi
    split at hi
    · exact absurd hi (by simp)
    · next hne =>
      rw [List.mem_singleton.mp hi]
      exact fun h => hne (Control.key.inj h)
  | mouse mi =>
    intro h
    obtain ⟨c, d⟩ := e
    dsimp only at h
    subst h
    simp only [inputEdges, mouseEdges, List.mem_append, List.mem_ite_nil_right,
      List.mem_singleton, Prod.mk.injEq, reduceCtorEq, false_and, and_false, or_self] at hi

/-- So key 0 is never recorded as held. -/
theorem send_keyZero {s : InputSender} (hzero : s.heldKeys 0 = false) (ins : List INPUT)
    (r : SendResult) : (s.send ins r).sender.heldKeys 0 = false := by
  have hheld := congrFun (send_held s ins r) (.key 0)
  rw [hold_of_forall_ne fun e he => edgesOf_ne_zero he] at hheld
  exact hheld.trans hzero

theorem releaseAll_keyZero {s : InputSender} (hzero : s.heldKeys 0 = false)
    (r retry : SendResult) : (s.releaseAll r retry).sender.heldKeys 0 = false := by
  have hheld := congrFun (s.releaseAll_held r retry) (.key 0)
  rw [hold_of_forall_ne fun e he => edgesOf_ne_zero he] at hheld
  exact hheld.trans hzero

end InputSender

/-! ### What one action can hold -/

/-- The controls an action presses. -/
def actionControls (P : Platform) (a : InputAction) (tag : BitVec 64) : List Control :=
  modControls a.chord.mods (modBitForVk (if a.chord.isKeyboard then a.chord.code else 0)) ++
    (edgesOf [mainInput P a tag true, mainInput P a tag false]).map Prod.fst

theorem actionControls_length (P : Platform) (a : InputAction) (tag : BitVec 64) :
    (actionControls P a tag).length ≤ 6 := by
  have hmods : (modControls a.chord.mods
      (modBitForVk (if a.chord.isKeyboard then a.chord.code else 0))).length ≤ 4 := by
    rw [modControls, List.length_map]
    exact List.length_filter_le _ _
  have hone : ∀ down, (inputEdges (mainInput P a tag down)).length ≤ 1 := by
    intro down
    simp only [mainInput]
    split
    · rw [makeMouseInput_edges]
      split <;> simp
    · rw [makeKeyInput_edges]
      split <;> simp
  have hdown := hone true
  have hup := hone false
  simp only [actionControls, edgesOf_cons, edgesOf_nil, List.length_append, List.length_map,
    List.append_nil]
  omega

/-- What any part of a compiled action leaves held is among its controls. -/
theorem compileAction_cover (P : Platform) (a : InputAction) (tag : BitVec 64)
    {ins : List INPUT} (hins : ins ⊆ (compileAction P a tag).flat) {c : Control}
    (hc : hold nothing (edgesOf ins) c = true) : c ∈ actionControls P a tag := by
  -- What is held was pressed by one of the events, and those are the action's.
  have hmem : (c, true) ∈ edgesOf (compileAction P a tag).flat := by
    rcases hold_eq_true hc with hnone | hedge
    · exact absurd hnone (by simp)
    · exact edgesOf_subset hins hedge
  by_cases hv : a.chord.valid = true
  · rw [compileAction_flat P a tag hv, actionEvents_inputs, edgesOf_append, edgesOf_append,
      appendMods_edges, appendMods_edges] at hmem
    simp only [Bool.false_eq_true, if_false, if_true, List.mem_append, List.mem_map] at hmem
    rcases hmem with (⟨m, hm, heq⟩ | hmain) | ⟨m, hm, heq⟩
    · obtain rfl := (Prod.mk.inj heq).1
      exact List.mem_append_left _ hm
    · refine List.mem_append_right _ (List.mem_map.mpr ⟨(c, true), ?_, rfl⟩)
      obtain ⟨i, hi, hedge⟩ := List.mem_flatMap.mp hmain
      obtain ⟨press, hpress, hip⟩ := List.mem_flatten.mp hi
      rw [List.eq_of_mem_replicate hpress] at hip
      refine List.mem_flatMap.mpr ⟨i, ?_, hedge⟩
      split at hip
      · simp only [List.mem_singleton] at hip
        simp [hip]
      · exact hip
    · exact absurd (Prod.mk.inj heq).2 (by simp)
  · simp [compileAction, hv] at hmem

end InfinityClicker
