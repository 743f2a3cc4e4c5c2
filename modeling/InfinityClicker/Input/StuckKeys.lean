import InfinityClicker.Input.GuardianOutcome

namespace InfinityClicker

open Presses Machines

/-!
# Which keys stay down when the process dies

The engine thread stores into the record what the crash handler takes out of it, and both may
be cut short by the death of the process.

* `Guarded.InFlight` — what waits for a store of the engine thread, or is in the hands of the
  crash handler between an exchange and its `SendInput`;
* `Guarded.Found` — at any moment everything really down is recorded or in flight;
* `Guarded.stuck_iff` — what the guardian leaves down is exactly what was down, in flight and
  not recorded at the death.
-/

/-! ### What the stores and the releases carry -/

/-- The store puts the bit of a control. -/
def Store.Sets : Store → Control → Prop
  | .keyWord w bits, .key vk => Vk.word vk = w ∧ bits vk = true
  | .mouseMask mask, .button b => mask b = true
  | _, _ => False

/-- The store writes the held set. -/
def Store.Carries (held : Control → Bool) : Store → Prop
  | .keyScan _ _ => True
  | .keyWord _ bits => ∀ vk, bits vk = held (.key vk)
  | .mouseMask mask => ∀ b, mask b = held (.button b)

/-- A store that carries the held set keeps the bits of what is held. -/
theorem Store.Carries.bit {held : Control → Bool} {st : Store} (h : st.Carries held)
    (rec : HeldShared) {c : Control} (hc : held c = true)
    (hbit : rec.bit c = true ∨ st.Sets c) : (Store.apply rec st).bit c = true := by
  cases st with
  | keyScan vk value => exact hbit.resolve_right (by simp [Store.Sets])
  | keyWord w bits =>
    cases c with
    | key vk =>
      show (if Vk.word vk = w then bits vk else rec.keyBits vk) = true
      split
      · exact (h vk).trans hc
      · next hword => exact hbit.resolve_right fun hsets => hword hsets.1
    | button b => exact hbit.resolve_right (by simp [Store.Sets])
  | mouseMask mask =>
    cases c with
    | key vk => exact hbit.resolve_right (by simp [Store.Sets])
    | button b => exact (h b).trans hc

namespace InputSender

/-- A publication stores what is held. -/
theorem publishStores_carries (s : InputSender) :
    ∀ st ∈ s.publishStores, st.Carries s.held := by
  intro st hst
  rcases List.mem_append.mp hst with hkeys | hmouse
  · rcases List.mem_append.mp hkeys with hmeta | hword
    · obtain ⟨vk, -, rfl⟩ := List.mem_map.mp hmeta
      trivial
    · obtain ⟨w, -, rfl⟩ := List.mem_map.mp hword
      exact fun vk => rfl
  · rw [List.mem_singleton.mp hmouse]
    exact fun b => rfl

/-- A `publish` has a store for everything held. -/
theorem publishStores_sets {s : InputSender} {c : Control} (hc : s.held c = true) :
    ∃ st ∈ s.publishStores, st.Sets c := by
  cases c with
  | key vk =>
    refine ⟨.keyWord (Vk.word vk) s.heldKeys, ?_, rfl, hc⟩
    exact List.mem_append_left _ (List.mem_append_right _
      (List.mem_map.mpr ⟨_, List.mem_finRange _, rfl⟩))
  | button b => exact ⟨.mouseMask s.heldMouse, List.mem_append_right _ (by simp), hc⟩

/-- The `set` calls of a mouse event, with the flag each depends on. -/
def mouseSets (mi : MouseInput) : List (Bool × Fin 5 × Bool) :=
  let f := mi.dwFlags
  [(hasFlag f MOUSEEVENTF_LEFTDOWN, 0, true), (hasFlag f MOUSEEVENTF_LEFTUP, 0, false),
    (hasFlag f MOUSEEVENTF_RIGHTDOWN, 1, true), (hasFlag f MOUSEEVENTF_RIGHTUP, 1, false),
    (hasFlag f MOUSEEVENTF_MIDDLEDOWN, 2, true), (hasFlag f MOUSEEVENTF_MIDDLEUP, 2, false)] ++
    if hasFlag f (MOUSEEVENTF_XDOWN ||| MOUSEEVENTF_XUP) then
      [(hasFlag mi.mouseData XBUTTON1, 3, hasFlag f MOUSEEVENTF_XDOWN),
        (hasFlag mi.mouseData XBUTTON2, 4, hasFlag f MOUSEEVENTF_XDOWN)]
    else []

/-- A mouse event sets buttons, one after the other. -/
theorem track_mouse_eq (s : InputSender) (mi : MouseInput) :
    s.track (.mouse mi) =
      (mouseSets mi).foldl (fun s x => s.setMouseIf x.1 x.2.1 x.2.2) s := by
  simp only [track, mouseSets]
  split <;> rfl

/-- The edges of a mouse event are the buttons it sets. -/
theorem mouseEdges_eq (mi : MouseInput) :
    mouseEdges mi = (mouseSets mi).flatMap fun x =>
      if x.1 then [(.button x.2.1, x.2.2)] else [] := by
  by_cases hx : hasFlag mi.dwFlags (MOUSEEVENTF_XDOWN ||| MOUSEEVENTF_XUP) = true <;>
    simp [mouseEdges, mouseSets, hx, List.flatMap_cons]

/-- An edge of a mouse event is one of its `set` calls. -/
theorem mem_mouseEdges {mi : MouseInput} {e : Control × Bool} (he : e ∈ mouseEdges mi) :
    ∃ b d, (true, b, d) ∈ mouseSets mi ∧ e = (.button b, d) := by
  rw [mouseEdges_eq] at he
  obtain ⟨⟨c, b, d⟩, hx, hmem⟩ := List.mem_flatMap.mp he
  cases c with
  | false => exact absurd hmem (by simp)
  | true => exact ⟨b, d, hx, List.mem_singleton.mp hmem⟩

/-- No event is an edge of key 0. -/
theorem inputEdges_ne_zero (i : INPUT) : ∀ e ∈ inputEdges i, e.1 ≠ .key 0 := by
  intro e he hzero
  cases i with
  | hardware => exact absurd he (by simp [inputEdges])
  | keyboard ki =>
    simp only [inputEdges] at he
    split at he
    · exact absurd he (by simp)
    · next hne =>
      rw [List.mem_singleton.mp he] at hzero
      exact hne (Control.key.inj hzero)
  | mouse mi =>
    obtain ⟨b, d, -, rfl⟩ := mem_mouseEdges he
    cases hzero

/-- Key 0 never goes down. -/
theorem acceptAll_zero {k : RealKeys} (hk : k.held (.key 0) = false) (ins : List INPUT) :
    (k.acceptAll ins).held (.key 0) = false := by
  rw [RealKeys.acceptAll_held, hold_of_forall_ne, hk]
  intro e he
  obtain ⟨i, -, hi⟩ := List.mem_flatMap.mp he
  exact inputEdges_ne_zero i e hi

/-! ### Events that change nothing -/

/-- Buttons that leave the record clean were where the events put them. -/
theorem foldl_setMouseIf_clean {sets : List (Bool × Fin 5 × Bool)} {s : InputSender}
    (hclean : (sets.foldl (fun s x => s.setMouseIf x.1 x.2.1 x.2.2) s).dirty = false) :
    SameRecord s (sets.foldl (fun s x => s.setMouseIf x.1 x.2.1 x.2.2) s) ∧
      ∀ b d, (true, b, d) ∈ sets → s.heldMouse b = d := by
  induction sets generalizing s with
  | nil => exact ⟨⟨hclean, rfl, rfl⟩, fun b d hmem => absurd hmem (by simp)⟩
  | cons x sets ih =>
    obtain ⟨hrest, hothers⟩ := ih hclean
    have hone := setMouseIf_clean _ _ _ _ hrest.dirty
    refine ⟨hone.trans hrest, fun b d hmem => ?_⟩
    rcases List.mem_cons.mp hmem with rfl | hmem
    · -- This very call left the record clean.
      have hdirty := hrest.dirty
      simp only [setMouseIf, if_true, setMouse, Bool.or_eq_false_iff,
        bne_eq_false_iff_eq] at hdirty
      exact hdirty.2
    · rw [← hothers b d hmem]
      exact (congrFun hone.held (.button b)).symm

/-- An event that leaves the record clean puts every control where it is. -/
theorem track_clean_edges (s : InputSender) (i : INPUT) (hclean : (s.track i).dirty = false) :
    ∀ e ∈ inputEdges i, s.held e.1 = e.2 := by
  intro e he
  cases i with
  | hardware => exact absurd he (by simp [inputEdges])
  | mouse mi =>
    rw [track_mouse_eq] at hclean
    obtain ⟨b, d, hmem, rfl⟩ := mem_mouseEdges he
    exact (foldl_setMouseIf_clean hclean).2 b d hmem
  | keyboard ki =>
    simp only [inputEdges] at he
    split at he
    · exact absurd he (by simp)
    · next hzero =>
      rw [List.mem_singleton.mp he]
      show s.heldKeys (ki.wVk.setWidth 8) = !hasFlag ki.dwFlags KEYEVENTF_KEYUP
      simp only [track, if_neg hzero] at hclean
      cases hup : hasFlag ki.dwFlags KEYEVENTF_KEYUP <;>
        cases hwas : s.heldKeys (ki.wVk.setWidth 8)
      · simp [hup, hwas] at hclean
      · rfl
      · rfl
      · simp [hup, hwas] at hclean

/-- Every DOWN among the events meets a control that is up. -/
def FreshDowns (held : Control → Bool) : List INPUT → Prop
  | [] => True
  | i :: ins => (∀ e ∈ inputEdges i, e.2 = true → held e.1 = false) ∧
      FreshDowns (hold held (inputEdges i)) ins

/-- Fresh events that leave the record clean press nothing. -/
theorem no_downs_of_clean {s : InputSender} {ins : List INPUT} (h : FreshDowns s.held ins)
    (hclean : (s.trackAll ins).dirty = false) : ∀ e ∈ edgesOf ins, e.2 = false := by
  induction ins generalizing s with
  | nil => simp
  | cons i ins ih =>
    have hsame := trackAll_clean (s.track i) ins hclean
    intro e he
    rcases List.mem_append.mp he with hhead | htail
    · have hput := s.track_clean_edges i hsame.dirty e hhead
      cases hd : e.2 with
      | false => rfl
      | true =>
        have hup := h.1 e hhead hd
        rw [hput, hd] at hup
        exact hup
    · refine ih ?_ hclean e htail
      rw [track_held]
      exact h.2

end InputSender

/-! ### What a release has in hand -/

namespace Releaser

/-- Taken out of the record, its UP not yet sent. -/
def InHand : Releaser → Control → Prop
  | .keys _ taken buf, c => (∃ vk ∈ taken, c = .key vk) ∨ (c, false) ∈ edgesOf buf
  | .full buf, c => (c, false) ∈ edgesOf buf
  | .done _, _ => False

/-- The buffer holds releases only. -/
def Ups : Releaser → Prop
  | .keys _ _ buf | .full buf => ∀ e ∈ edgesOf buf, e.2 = false
  | .done _ => True

/-- The step finds room in the buffer, and its `SendInput` accepts everything. -/
def Unhindered (h : HeldShared) (r : SendResult) : Releaser → Prop
  | .keys _ (_ :: _) buf => buf.length < InputSender.releaseRoom
  | .keys [] [] buf => buf.length + (mouseUps h).length ≤ InputSender.releaseRoom
  | .full buf => r.accepted buf.length = buf.length
  | _ => True

/-- A buffer with room takes the input. -/
theorem push_of_room {buf : List INPUT} (hroom : buf.length < InputSender.releaseRoom)
    (i : INPUT) : push buf i = buf ++ [i] := if_pos hroom

/-- The releases of the buttons are the ups of those held. -/
theorem mouseUps_edges (h : HeldShared) (e : Control × Bool) :
    e ∈ edgesOf (mouseUps h) ↔ ∃ b, h.mouseMask b = true ∧ e = (.button b, false) := by
  simp only [mouseUps, edgesOf, List.mem_flatMap, List.mem_map, List.mem_filter,
    List.mem_finRange, true_and]
  constructor
  · rintro ⟨i, ⟨b, hb, rfl⟩, he⟩
    rw [InputSender.mouseUpFor_edges, List.mem_singleton] at he
    exact ⟨b, hb, he⟩
  · rintro ⟨b, hb, rfl⟩
    exact ⟨_, ⟨b, hb, rfl⟩, by rw [InputSender.mouseUpFor_edges]; simp⟩

/-- The release of a key has no down in it. -/
theorem keyUpFor_up (keyMeta : Vk → BitVec 16) (vk : Vk) :
    ∀ e ∈ inputEdges (InputSender.keyUpFor keyMeta vk), e.2 = false := by
  intro e he
  rw [InputSender.keyUpFor_edges] at he
  split at he
  · exact absurd he (by simp)
  · rw [List.mem_singleton.mp he]

/-- What the watchdog starts with are ups. -/
theorem enter_ups (h : HeldShared) : (enter h).Ups := by
  unfold enter
  split
  · trivial
  · intro e he
    exact absurd he (by simp)

/-- A pass of the watchdog makes ups of what it finds. -/
theorem Ups.step {rl : Releaser} (hups : rl.Ups) (hwf : rl.WellFormed) (h : HeldShared)
    (r : SendResult) : (rl.step h r).2.1.Ups := by
  match rl with
  | .keys words (vk :: taken) buf =>
    intro e he
    obtain ⟨i, hi, hei⟩ := List.mem_flatMap.mp he
    unfold push at hi
    split at hi
    · rcases List.mem_append.mp hi with hbuf | hnew
      · exact hups e (List.mem_flatMap.mpr ⟨i, hbuf, hei⟩)
      · rw [List.mem_singleton.mp hnew] at hei
        exact keyUpFor_up h.keyScan vk e hei
    · exact hups e (List.mem_flatMap.mpr ⟨i, hi, hei⟩)
  | .keys (w :: words) [] buf => exact hups
  | .keys [] [] buf =>
    intro e he
    rw [foldl_push hwf.2] at he
    have hmem := edgesOf_subset (List.take_subset _ _) he
    rw [edgesOf_append] at hmem
    rcases List.mem_append.mp hmem with hbuf | hmouse
    · exact hups e hbuf
    · obtain ⟨b, -, rfl⟩ := (mouseUps_edges h e).mp hmouse
      rfl
  | .full buf =>
    simp only [Releaser.step]
    split <;> trivial
  | .done n => trivial

/-- **A step of a release loses nothing**: what was recorded or in hand is afterwards recorded,
    in hand, or its UP is among the events accepted. -/
theorem step_keeps {rl : Releaser} {h : HeldShared} {r : SendResult}
    (hun : rl.Unhindered h r) (hwf : rl.WellFormed) {c : Control} (hzero : c ≠ .key 0)
    (hc : h.bit c = true ∨ rl.InHand c) :
    (rl.step h r).1.bit c = true ∨ (rl.step h r).2.1.InHand c ∨
      (c, false) ∈ edgesOf ((rl.step h r).2.2.flatMap SendCall.acceptedEvents) := by
  match rl with
  | .keys words (vk :: taken) buf =>
    -- The key in front goes from the list of keys taken into the buffer as its UP.
    rcases hc with hbit | ⟨vk', hvk', rfl⟩ | hbuf
    · exact .inl hbit
    · right; left
      simp only [Releaser.step, InHand, push_of_room hun]
      rcases List.mem_cons.mp hvk' with rfl | hvk'
      · right
        rw [edgesOf_append]
        refine List.mem_append_right _ ?_
        have hne : vk' ≠ 0 := fun heq => hzero (by rw [heq])
        rw [edgesOf_cons, InputSender.keyUpFor_edges, if_neg hne]
        simp
      · exact .inl ⟨vk', hvk', rfl⟩
    · right; left
      simp only [Releaser.step, InHand, push_of_room hun, edgesOf_append]
      exact .inr (List.mem_append_left _ hbuf)
  | .keys (w :: words) [] buf =>
    -- A new word is taken out of the record as a whole, and its keys are then in hand.
    rcases hc with hbit | ⟨vk', hvk', -⟩ | hbuf
    · cases c with
      | button b => exact .inl hbit
      | key vk =>
        by_cases hword : Vk.word vk = w
        · right; left
          exact .inl ⟨vk, List.mem_filter.mpr ⟨(mem_wordKeys w vk).mpr hword, hbit⟩, rfl⟩
        · left
          show (if Vk.word vk = w then false else h.keyBits vk) = true
          rw [if_neg hword]
          exact hbit
    · exact absurd hvk' (by simp)
    · exact .inr (.inl (.inr hbuf))
  | .keys [] [] buf =>
    -- The buttons are put behind the keys; there is room for them.
    have hall : (mouseUps h).foldl push buf = buf ++ mouseUps h := by
      rw [foldl_push hwf.2, List.take_of_length_le]
      rw [List.length_append]
      exact hun
    rcases hc with hbit | ⟨vk', hvk', -⟩ | hbuf
    · cases c with
      | key vk => exact .inl hbit
      | button b =>
        right; left
        simp only [Releaser.step, InHand, hall, edgesOf_append]
        exact List.mem_append_right _ ((mouseUps_edges h _).mpr ⟨b, hbit, rfl⟩)
    · exact absurd hvk' (by simp)
    · right; left
      simp only [Releaser.step, InHand, hall, edgesOf_append]
      exact List.mem_append_left _ hbuf
  | .full buf =>
    -- The full buffer is sent, and is accepted whole.
    rcases hc with hbit | hbuf
    · left
      simp only [Releaser.step]
      split <;> exact hbit
    · right; right
      have hmem : (c, false) ∈ edgesOf buf := hbuf
      have hne : buf ≠ [] := by
        rintro rfl
        exact absurd hmem (by simp)
      have haccepted : r.accepted buf.length = buf.length := hun
      simpa [Releaser.step, hne, sendInput, SendCall.acceptedEvents, haccepted] using hmem
  | .done n =>
    rcases hc with hbit | hhand
    · exact .inl hbit
    · exact absurd hhand id

/-- Everything a release gets accepted is a release. -/
theorem step_accepted_ups {rl : Releaser} (hups : rl.Ups) (h : HeldShared) (r : SendResult) :
    ∀ e ∈ edgesOf ((rl.step h r).2.2.flatMap SendCall.acceptedEvents), e.2 = false := by
  intro e he
  rw [step_calls] at he
  match rl with
  | .keys _ _ _ | .done _ => exact absurd he (by simp)
  | .full buf =>
    simp only at he
    split at he
    · exact absurd he (by simp)
    · simp only [List.flatMap_cons, List.flatMap_nil, List.append_nil] at he
      exact hups e (edgesOf_subset (List.take_subset _ _) he)

end Releaser

/-! ### Where everything down is found -/

/-- A retry still to be made, of a list of releases with `held` as the record so far. -/
structure Retry.Pending (a : Retry) (held : Control → Bool) : Prop where
  ups : ∀ e ∈ edgesOf a.buf, e.2 = false
  rest : (sendInput (a.buf.drop a.ok) a.result).acceptedEvents = a.buf.drop a.ok
  first : ∀ c, held c = true → (c, false) ∉ edgesOf (a.buf.take a.ok)

namespace Guarded

/-- A store still to be made puts its bit. -/
def Waits (w : Guarded) (c : Control) : Prop := ∃ st ∈ w.work.stores, st.Sets c

/-- Waiting for its store, or in the hands of the crash handler. -/
def InFlight (w : Guarded) (c : Control) : Prop :=
  w.Waits c ∨ ∃ rl, w.inCrash = some rl ∧ rl.InHand c

/-- What the environment and the engine give a living process: releases are accepted in the
    end, the crash handler is not cut short, and once it has begun the engine presses only what
    its own record shows up. -/
def Unhindered (w : Guarded) : GuardAct → Prop
  | .call op =>
    w.sender.Released op ∧
      (w.inCrash.isSome →
        InputSender.FreshDowns w.sender.held (w.sender.firstAccepted op))
  | .crash r => ∀ rl, w.inCrash = some rl → rl.Unhindered w.record r
  | _ => True

/-- **Everything down is found**: in the record, or in flight. -/
structure Found (w : Guarded) : Prop where
  early : Early w.guardian
  zero : w.real.held (.key 0) = false
  known : ∀ c, w.real.held c = true → w.sender.held c = true
  carries : ∀ st ∈ w.work.stores, st.Carries w.sender.held
  again : ∀ a, w.work.again = some a → a.Pending w.sender.held
  releaser : ∀ rl, w.inCrash = some rl → rl.WellFormed ∧ rl.Ups
  /-- As long as nobody crashed the record lacks nothing of the private one. -/
  shown : w.inCrash = none → ∀ c, w.sender.held c = true → w.record.bit c = true ∨ w.Waits c
  found : ∀ c, w.real.held c = true → w.record.bit c = true ∨ w.InFlight c

/-- At the start nothing is to be found. -/
theorem found_start : Found {} where
  early := trivial
  zero := rfl
  known := fun c hc => absurd hc (by simp [nothing])
  carries := fun st hst => absurd hst (by simp)
  again := fun a ha => by cases ha
  releaser := fun rl hrl => by cases hrl
  shown := fun _ c hc => by
    cases c with
    | key vk => exact absurd hc (by simp [InputSender.held])
    | button b => exact absurd hc (by simp [InputSender.held])
  found := fun c hc => absurd hc (by simp [nothing])

/-- Accepted events do to the keys what their edges say. -/
theorem accept_held (k : RealKeys) (calls : List SendCall) :
    (accept k calls).held = hold k.held (edgesOf (calls.flatMap SendCall.acceptedEvents)) :=
  RealKeys.acceptAll_held k _

/-- No event presses the key with code zero. -/
theorem accept_zero {k : RealKeys} (hk : k.held (.key 0) = false) (calls : List SendCall) :
    (accept k calls).held (.key 0) = false :=
  InputSender.acceptAll_zero hk _

/-- The first `SendInput` of a call. -/
theorem Found.sent {w : Guarded} (h : Found w) (hidle : w.work.stores = []) (ins : List INPUT)
    (r : SendResult) (again : Option Retry)
    (hagain : ∀ a, again = some a → a.Pending (w.sender.tracked ins r).held)
    (hfresh : w.inCrash.isSome →
      InputSender.FreshDowns w.sender.held (ins.take (r.accepted ins.length))) :
    Found (w.sent ins r again).1 := by
  by_cases hne : ins = []
  · rwa [Guarded.sent, if_pos hne]
  · have hheld : (w.sender.tracked ins r).held =
        hold w.sender.held (edgesOf (ins.take (r.accepted ins.length))) := by
      rw [InputSender.tracked, InputSender.trackAll_held, InputSender.countCall_held]
    have hreal : (accept w.real [sendInput ins r]).held =
        hold w.real.held (edgesOf (ins.take (r.accepted ins.length))) := by
      rw [accept_held]
      simp [sendInput, SendCall.acceptedEvents]
    have hknown : ∀ c, (accept w.real [sendInput ins r]).held c = true →
        (w.sender.tracked ins r).held c = true := by
      intro c hc
      rw [hreal] at hc
      rw [hheld]
      exact hold_mono h.known _ hc
    have hnone : ∀ c, ¬ w.Waits c := by
      rintro c ⟨st, hst, -⟩
      simp [hidle] at hst
    cases hdirty : (w.sender.tracked ins r).dirty with
    | true =>
      -- Something changed: everything the sender holds is stored anew.
      have hwaits : ∀ c, (w.sender.tracked ins r).held c = true →
          ∃ st ∈ (w.sender.tracked ins r).publishStores, st.Sets c :=
        fun c hc => InputSender.publishStores_sets hc
      have hout : (w.sent ins r again).1 =
          { w with
            sender := { w.sender.tracked ins r with dirty := false }
            work := { stores := (w.sender.tracked ins r).publishStores, again := again }
            real := accept w.real [sendInput ins r] } := by
        simp [Guarded.sent, hne, hdirty]
      rw [hout]
      exact ⟨h.early, accept_zero h.zero _, hknown,
        (w.sender.tracked ins r).publishStores_carries, hagain, h.releaser,
        fun _ c hc => .inr (hwaits c hc), fun c hc => .inr (.inl (hwaits c (hknown c hc)))⟩
    | false =>
      have hout : (w.sent ins r again).1 =
          { w with
            sender := { w.sender.tracked ins r with dirty := false }
            work := { again := again }
            real := accept w.real [sendInput ins r] } := by
        simp [Guarded.sent, hne, hdirty]
      have hsame := w.sender.tracked_clean ins r hdirty
      rw [hout]
      refine ⟨h.early, accept_zero h.zero _, hknown, fun st hst => absurd hst (by simp),
        hagain, h.releaser, fun hcrash c hc => ?_, fun c hc => ?_⟩
      · have hbefore : w.sender.held c = true := by
          rw [← hsame.held]
          exact hc
        exact .inl ((h.shown hcrash c hbefore).resolve_right (hnone c))
      · cases hcrash : w.inCrash with
        | none =>
          have hbefore : w.sender.held c = true := by
            rw [← hsame.held]
            exact hknown c hc
          exact .inl ((h.shown hcrash c hbefore).resolve_right (hnone c))
        | some rl =>
          -- Nothing was pressed, so what is down was down before.
          have hdowns := InputSender.no_downs_of_clean
            (s := w.sender.countCall ins.length (r.accepted ins.length) r.error)
            (hfresh (by simp [hcrash])) hdirty
          have hedge : hold w.real.held (edgesOf (ins.take (r.accepted ins.length))) c = true := by
            rw [← hreal]
            exact hc
          have hbefore := (hold_eq_true hedge).resolve_right fun hmem => by
            simpa using hdowns _ hmem
          rcases h.found c hbefore with hbit | hwait | hhand
          · exact .inl hbit
          · exact absurd hwait (hnone c)
          · exact .inr (.inr (hcrash ▸ hhand))

/-- A call of the sender leaves everything held to be found. -/
theorem Found.call {w : Guarded} (h : Found w) (hidle : w.work.stores = []) {op : SenderOp}
    (hun : w.Unhindered (.call op)) : Found (w.call op).1 := by
  cases op with
  | send ins r => exact h.sent hidle ins r none (fun a ha => by cases ha) hun.2
  | releaseAll r retry =>
    refine h.sent hidle _ r _ (fun a ha => ?_) hun.2
    split at ha
    · next hne =>
      obtain rfl := Option.some.inj ha
      have hretry := hun.1.resolve_left hne
      refine ⟨w.sender.releases_up, ?_, fun c hc => ?_⟩
      · rw [← List.length_drop] at hretry
        simp only [sendInput, SendCall.acceptedEvents, hretry, List.take_length]
      · -- What the first call let up is not held any more.
        rw [InputSender.tracked, InputSender.trackAll_held, InputSender.countCall_held,
          hold_ups fun e he => w.sender.releases_up e (edgesOf_subset (List.take_subset _ _) he)]
          at hc
        exact hc.2
    · cases ha

/-- A store, or the retry. -/
theorem Found.go {w : Guarded} (h : Found w) : Found w.go.1 := by
  cases hstores : w.work.stores with
  | cons st stores =>
    have hout : w.go.1 = { w with
        record := Store.apply w.record st
        work := { stores := stores, again := w.work.again } } := by
      simp [Guarded.go, hstores]
    have hcarries : st.Carries w.sender.held := h.carries st (by simp [hstores])
    -- What waited for this store is recorded now, what waited for another still waits.
    have hkeep : ∀ c, w.sender.held c = true → w.record.bit c = true ∨ w.Waits c →
        (Store.apply w.record st).bit c = true ∨ ∃ st' ∈ stores, st'.Sets c := by
      rintro c hc (hbit | ⟨st', hst', hsets⟩)
      · exact .inl (hcarries.bit w.record hc (.inl hbit))
      · rw [hstores] at hst'
        rcases List.mem_cons.mp hst' with rfl | hst'
        · exact .inl (hcarries.bit w.record hc (.inr hsets))
        · exact .inr ⟨st', hst', hsets⟩
    rw [hout]
    refine ⟨h.early, h.zero, h.known, fun st' hst' => h.carries st' ?_, h.again, h.releaser,
      fun hcrash c hc => hkeep c hc (h.shown hcrash c hc), fun c hc => ?_⟩
    · rw [hstores]
      exact List.mem_cons_of_mem _ hst'
    · rcases h.found c hc with hbit | hwait | hhand
      · exact (hkeep c (h.known c hc) (.inl hbit)).imp id .inl
      · exact (hkeep c (h.known c hc) (.inr hwait)).imp id .inl
      · exact .inr (.inr hhand)
  | nil =>
    cases hagain : w.work.again with
    | none =>
      have hout : w.go.1 = w := by simp [Guarded.go, hstores, hagain]
      rwa [hout]
    | some a =>
      have hout : w.go.1 = { w with
          sender := { w.sender.trackAll a.buf with dirty := false }
          work := { stores := (w.sender.trackAll a.buf).publishStores }
          real := accept w.real [sendInput (a.buf.drop a.ok) a.result] } := by
        simp [Guarded.go, hstores, hagain]
      have hpending := h.again a hagain
      have hknown : ∀ c, (accept w.real [sendInput (a.buf.drop a.ok) a.result]).held c = true →
          (w.sender.trackAll a.buf).held c = true := by
        intro c hc
        rw [accept_held] at hc
        simp only [List.flatMap_cons, List.flatMap_nil, List.append_nil, hpending.rest] at hc
        rw [hold_ups fun e he => hpending.ups e (edgesOf_subset (List.drop_subset _ _) he)] at hc
        have hheld := h.known c hc.1
        rw [InputSender.trackAll_held, hold_ups hpending.ups]
        refine ⟨hheld, fun hmem => ?_⟩
        rw [← List.take_append_drop a.ok a.buf, edgesOf_append] at hmem
        exact (List.mem_append.mp hmem).elim (hpending.first c hheld) hc.2
      have hwaits : ∀ c, (w.sender.trackAll a.buf).held c = true →
          ∃ st ∈ (w.sender.trackAll a.buf).publishStores, st.Sets c :=
        fun c hc => InputSender.publishStores_sets hc
      rw [hout]
      exact ⟨h.early, accept_zero h.zero _, hknown,
        (w.sender.trackAll a.buf).publishStores_carries, fun a' ha' => (by cases ha'), h.releaser,
        fun _ c hc => .inr (hwaits c hc), fun c hc => .inr (.inl (hwaits c (hknown c hc)))⟩

/-- A step of the crash handler: what it takes out of the record it has in hand, and what it had
    in hand it lets up. -/
theorem Found.crash {w : Guarded} (h : Found w) {r : SendResult}
    (hun : w.Unhindered (.crash r)) : Found (w.crashStep r).1 := by
  cases hcrash : w.inCrash with
  -- Entering takes nothing out of the record yet.
  | none =>
    have hout : (w.crashStep r).1 = { w with inCrash := some (Releaser.enter w.record) } := by
      simp [crashStep, hcrash]
    rw [hout]
    refine ⟨h.early, h.zero, h.known, h.carries, h.again, fun rl hrl => ?_,
      fun hnone => (by cases hnone), fun c hc => ?_⟩
    · obtain rfl := Option.some.inj hrl
      exact ⟨Releaser.enter_wellFormed _, Releaser.enter_ups _⟩
    · exact (h.shown hcrash c (h.known c hc)).imp id .inl
  | some rl =>
    have hout : (w.crashStep r).1 = { w with
        record := (rl.step w.record r).1
        inCrash := some (rl.step w.record r).2.1
        real := accept w.real (rl.step w.record r).2.2 } := by
      simp [crashStep, hcrash]
    obtain ⟨hwf, hups⟩ := h.releaser rl hcrash
    have haccepted := Releaser.step_accepted_ups hups w.record r
    -- The handler only lets up, so what is down now was down and was not let up.
    have hdown : ∀ c, (accept w.real (rl.step w.record r).2.2).held c = true →
        w.real.held c = true ∧
          (c, false) ∉ edgesOf ((rl.step w.record r).2.2.flatMap SendCall.acceptedEvents) := by
      intro c hc
      rwa [accept_held, hold_ups haccepted] at hc
    rw [hout]
    refine ⟨h.early, accept_zero h.zero _, fun c hc => h.known c (hdown c hc).1, h.carries,
      h.again, fun rl' hrl' => ?_, fun hnone => (by cases hnone), fun c hc => ?_⟩
    · obtain rfl := Option.some.inj hrl'
      exact ⟨Releaser.step_wellFormed hwf _ _, hups.step hwf _ _⟩
    · obtain ⟨hbefore, hnotup⟩ := hdown c hc
      have hzero : c ≠ .key 0 := by
        rintro rfl
        rw [h.zero] at hbefore
        exact absurd hbefore (by simp)
      have hstep := Releaser.step_keeps (hun rl hcrash) hwf hzero (r := r) (h := w.record)
      rcases h.found c hbefore with hbit | hwait | ⟨rl', hrl', hhand⟩
      · rcases hstep (.inl hbit) with hbit' | hhand' | hup
        · exact .inl hbit'
        · exact .inr (.inr ⟨_, rfl, hhand'⟩)
        · exact absurd hup hnotup
      · exact .inr (.inl hwait)
      · obtain rfl := Option.some.inj (hcrash.symm.trans hrl')
        rcases hstep (.inr hhand) with hbit' | hhand' | hup
        · exact .inl hbit'
        · exact .inr (.inr ⟨_, rfl, hhand'⟩)
        · exact absurd hup hnotup

/-- **Every step of a living process keeps everything down found.** -/
theorem Found.step {w : Guarded} (h : Found w) {a : GuardAct} (hun : w.Unhindered a)
    (halive : (w.step a).1.alive = true) : Found (w.step a).1 := by
  cases a with
  | call op =>
    simp only [Guarded.step]
    split
    · next hidle => exact h.call hidle.2.1 hun
    · exact h
  | go =>
    simp only [Guarded.step]
    split
    · exact h.go
    · exact h
  | crash r =>
    simp only [Guarded.step]
    split
    · exact h.crash hun
    · exact h
  | markCleanExit =>
    simp only [Guarded.step]
    split
    · exact ⟨h.early, h.zero, h.known, h.carries, h.again, h.releaser, h.shown, h.found⟩
    · exact h
  | die => exact absurd halive (by simp [Guarded.step])
  | guardian ok r =>
    have hw : w.alive = true := by
      rw [← (w.guardianStep_frame ok r).1]
      exact halive
    -- The guardian of a living process moves nothing but itself.
    have hout : ∃ g, Early g ∧ (w.guardianStep ok r).1 = { w with guardian := g } := by
      refine ⟨(w.guardianStep ok r).1.guardian, (early_guardianStep hw h.early ok r).1, ?_⟩
      have hearly := h.early
      unfold guardianStep
      split
      · rfl
      · split <;> rfl
      · rewrite [if_pos hw]
        rfl
      · rfl
      · next hg =>
        rw [hg] at hearly
        exact absurd hearly id
      · rfl
    obtain ⟨g, hg, hout⟩ := hout
    show Found (w.guardianStep ok r).1
    rw [hout]
    exact ⟨hg, h.zero, h.known, h.carries, h.again, h.releaser, h.shown, h.found⟩

/-! ### What stays down -/

/-- As long as the process lives, everything held can be found. -/
theorem found_after {acts : List GuardAct} (hmeets : guardedMachine.Meets Unhindered {} acts)
    (halive : (guardedMachine.after {} acts).alive = true) :
    Found (guardedMachine.after {} acts) := by
  have hrun := guardedMachine.invariant_of_meets
    (I := fun w => w.alive = true → Found w) (P := Unhindered) (fun w a h hun halive => ?_)
    (s := {}) (fun _ => found_start) hmeets
  · exact hrun halive
  · refine Found.step (h ?_) hun halive
    by_cases ha : ∃ ok r, a = .guardian ok r
    · obtain ⟨ok, r, rfl⟩ := ha
      rw [← (w.guardianStep_frame ok r).1]
      exact halive
    · exact (w.others_step fun ok r heq => ha ⟨ok, r, heq⟩).alive halive

/-- The releases from a record with room for all of them let up exactly what it records. -/
theorem releasesFrom_edges {h : HeldShared}
    (hroom : (InputSender.vks.filter h.keyBits).length +
      ((List.finRange 5).filter h.mouseMask).length ≤ InputSender.releaseRoom)
    (e : Control × Bool) :
    e ∈ edgesOf (InputSender.releasesFrom h) ↔
      e.2 = false ∧ h.bit e.1 = true ∧ e.1 ≠ .key 0 := by
  -- With room for all nothing is cut off the list of releases.
  have hall : InputSender.releasesFrom h =
      (InputSender.vks.filter h.keyBits).map (InputSender.keyUpFor h.keyScan) ++
        Releaser.mouseUps h :=
    List.take_of_length_le (by simpa [Releaser.mouseUps] using hroom)
  rw [hall, edgesOf_append, List.mem_append, Releaser.mouseUps_edges]
  simp only [edgesOf, List.mem_flatMap, List.mem_map, List.mem_filter]
  constructor
  · rintro (⟨i, ⟨vk, ⟨-, hvk⟩, rfl⟩, he⟩ | ⟨b, hb, rfl⟩)
    · rw [InputSender.keyUpFor_edges] at he
      split at he
      · exact absurd he (by simp)
      · next hne =>
        rw [List.mem_singleton.mp he]
        exact ⟨rfl, hvk, fun heq => hne (Control.key.inj heq)⟩
    · exact ⟨rfl, hb, by simp⟩
  · obtain ⟨c, d⟩ := e
    rintro ⟨hd, hbit, hne⟩
    obtain rfl : d = false := hd
    cases c with
    | key vk =>
      have hvk : vk ≠ 0 := fun heq => hne (by rw [heq])
      refine .inl ⟨_, ⟨vk, ⟨InputSender.mem_vks vk, hbit⟩, rfl⟩, ?_⟩
      rw [InputSender.keyUpFor_edges, if_neg hvk]
      simp
    | button b => exact .inr ⟨b, hbit, rfl⟩

/-- No step changes the magic of the record. -/
theorem record_magic (acts : List GuardAct) :
    (guardedMachine.after {} acts).record.magic = kMagic := by
  refine guardedMachine.invariant (I := fun w => w.record.magic = kMagic) (fun w a h => ?_) rfl
    acts
  -- The word that marks the record is set up once and stored by nobody.
  have hstore : ∀ st : Store, (Store.apply w.record st).magic = w.record.magic := by
    intro st
    cases st <;> rfl
  have hsent : ∀ ins r again, (w.sent ins r again).1.record = w.record := by
    intro ins r again
    unfold Guarded.sent
    split <;> rfl
  show (w.step a).1.record.magic = kMagic
  cases a with
  | call op =>
    simp only [Guarded.step]
    split
    · cases op with
      | send ins r =>
        rw [show (w.call (.send ins r)).1.record = w.record from hsent ins r none]
        exact h
      | releaseAll r retry =>
        rw [show (w.call (.releaseAll r retry)).1.record = w.record from hsent _ r _]
        exact h
    · exact h
  | go =>
    simp only [Guarded.step, Guarded.go]
    split
    · split
      · exact (hstore _).trans h
      · exact h
      · exact h
    · exact h
  | crash r =>
    simp only [Guarded.step, crashStep]
    split
    · split
      · exact h
      · exact (Releaser.step_frame _ _ _).2.trans h
    · exact h
  | markCleanExit =>
    simp only [Guarded.step]
    split <;> exact h
  | die => exact h
  | guardian ok r =>
    show (w.guardianStep ok r).1.record.magic = kMagic
    unfold guardianStep
    split
    · exact h
    · split <;> exact h
    · split
      · exact h
      · split <;> exact h
    · exact h
    · exact (Releaser.step_frame _ _ _).2.trans h
    · exact h

/-- **What stays down, exactly, when nothing but the death goes wrong.**  The process dies watched
    and without a clean exit, after any `Unhindered` interleaving of its engine thread, its crash
    handler and the guardian, with at most 64 keys and buttons recorded, and all the guardian
    sends is accepted.  Once the guardian is done, a key or button is down iff it was down at the
    death, missing in the record and in flight: waiting for its store, or taken by a crash handler
    that has not yet sent. -/
theorem stuck_iff (before later : List GuardAct) (rc : ℕ)
    (hmeets : guardedMachine.Meets Unhindered {} before)
    (halive : (guardedMachine.after {} before).alive = true)
    (hwatch : (guardedMachine.after {} before).Watching)
    (hroom : (InputSender.vks.filter (guardedMachine.after {} before).record.keyBits).length +
      ((List.finRange 5).filter (guardedMachine.after {} before).record.mouseMask).length ≤
        InputSender.releaseRoom)
    (hexit : (guardedMachine.after {} (before ++ .die :: later)).guardian = .exited rc)
    (haccepted : ∀ call ∈ fromGuardian (guardedMachine.trace {} (before ++ .die :: later)),
      call.ok = call.events.length) (c : Control) :
    (guardedMachine.after {} (before ++ .die :: later)).real.held c = true ↔
      (guardedMachine.after {} before).real.held c = true ∧
        (guardedMachine.after {} before).record.bit c = false ∧
        (guardedMachine.after {} before).InFlight c := by
  obtain ⟨r, hcalls, -, hreal, -, -⟩ := guardian_outcome before later rc halive hexit
  have hfound := found_after hmeets halive
  have hmagic := record_magic before
  rw [hcalls] at haccepted
  rw [hreal]
  generalize guardedMachine.after {} before = d at halive hwatch hroom hfound hmagic haccepted ⊢
  rw [outcome, if_pos hwatch, InputSender.releaseHeldFrom_of_magic hmagic] at haccepted ⊢
  -- The guardian's one call is accepted whole, so its edges are those of the releases.
  have hedges : edgesOf ((if InputSender.releasesFrom d.record = [] then []
      else [sendInput (InputSender.releasesFrom d.record) r]).flatMap
        SendCall.acceptedEvents) = edgesOf (InputSender.releasesFrom d.record) := by
    by_cases hnil : InputSender.releasesFrom d.record = []
    · simp [hnil]
    · rw [if_neg hnil] at haccepted ⊢
      have hwhole := haccepted _ (List.mem_singleton_self _)
      simp only [List.flatMap_cons, List.flatMap_nil, List.append_nil, SendCall.acceptedEvents,
        hwhole]
      rw [show (sendInput (InputSender.releasesFrom d.record) r).events =
        InputSender.releasesFrom d.record from rfl, List.take_length]
  have hup := fun e => releasesFrom_edges hroom e
  rw [accept_held, hedges, hold_ups fun e he => ((hup e).mp he).1, hup]
  constructor
  -- What is still down is not in the record, so it was found elsewhere: in flight.
  · rintro ⟨hdown, hnot⟩
    have hzero : c ≠ .key 0 := by
      rintro rfl
      rw [hfound.zero] at hdown
      exact absurd hdown (by simp)
    have hbit : d.record.bit c = false := by
      cases hb : d.record.bit c with
      | false => rfl
      | true => exact absurd ⟨rfl, hb, hzero⟩ hnot
    refine ⟨hdown, hbit, (hfound.found c hdown).resolve_left ?_⟩
    simp [hbit]
  · rintro ⟨hdown, hbit, -⟩
    refine ⟨hdown, fun hmem => ?_⟩
    rw [hbit] at hmem
    exact absurd hmem.2.1 (by simp)

/-- The left button goes down and four of the nine stores are made. -/
def leftInFlight : List GuardAct :=
  [.guardian true {}, .guardian true {}, .call InputSender.leftPress] ++ List.replicate 4 .go

/-- Killed before the mouse word is stored, the left button stays down. -/
theorem stuck_iff_leftInFlight :
    (guardedMachine.after {} (leftInFlight ++ .die :: watched)).real.held (.button 0) = true ↔
      (guardedMachine.after {} leftInFlight).real.held (.button 0) = true ∧
        (guardedMachine.after {} leftInFlight).record.bit (.button 0) = false ∧
        (guardedMachine.after {} leftInFlight).InFlight (.button 0) :=
  stuck_iff leftInFlight watched 0
    ⟨trivial, trivial, ⟨trivial, fun hcrash => by cases hcrash⟩, trivial, trivial, trivial,
      trivial, trivial⟩
    (by decide +kernel) (by decide +kernel) (by decide +kernel) (by decide +kernel)
    (by decide +kernel) (.button 0)

end Guarded

end InfinityClicker
