import InfinityClicker.Trigger.PressLog

namespace InfinityClicker

open Machines

/-!
# Swallowed presses

* `Settled.of_down`, `Settled.of_up`, `Settled.of_unhooked`, `Settled.of_rawDown` — what each
  kind of event means for the presses in progress;
* `next_key_of_hooked`, `next_mouse_of_hooked`, `next_mouse_of_wheel` — what an event of the
  hardware does to the thread and to the record, with its hook and (`_of_unhooked`) without;
* `Settled.step_iff` — a step keeps the record exactly when it meets the condition;
* `swallow_paired` — what follows for every run, and that the condition is needed.
-/

/-! ### What a handler does to what is owed -/

namespace Source

/-- The device of a source. -/
def device : Source → Device
  | .key _ _ => .keyboard
  | .button _ => .mouse

/-- Sources with one entry in the tables are of one device. -/
theorem device_of_shares {src s : Source} (h : src.shares s = true) : s.device = src.device := by
  cases src <;> cases s <;> simp [shares, device] at h ⊢

/-- The sources of a chord are of its device. -/
theorem device_of_isOf {c : KeyChord} {s : Source} (h : s.isOf c = true) : s.device = c.device := by
  cases s with
  | key vk ext =>
    simp only [isOf, TriggerEngine.keyMatches, Bool.and_eq_true] at h
    exact (beq_iff_eq.mp h.1).symm
  | button b =>
    simp only [isOf, TriggerEngine.mouseMatches, Bool.and_eq_true] at h
    exact (beq_iff_eq.mp h.1).symm

end Source

namespace HookedTrigger

/-- One hook serves a device. -/
theorem hooked_of_device (x : HookedTrigger) {s src : Source} (h : s.device = src.device) :
    x.hooked s = x.hooked src := by
  cases s <;> cases src <;> first | rfl | simp [Source.device] at h

/-- No handler touches a hook. -/
@[simp] theorem heard_hooked (x : HookedTrigger) (r : Reply) : (x.heard r).hooked = x.hooked := by
  have hloop : (x.heard r).loop.kbHook = x.loop.kbHook ∧
      (x.heard r).loop.mouseHook = x.loop.mouseHook := by
    simp only [heard]
    split <;> exact ⟨rfl, rfl⟩
  funext s
  cases s with
  | key vk ext => exact hloop.1
  | button b => exact hloop.2

/-- After a handler the engine's word decides for the sources whose events pass a hook. -/
theorem heard_owed (x : HookedTrigger) (r : Reply) (s : Source) :
    (x.heard r).owed s = (x.hooked s && r.engine.owed s) := by
  rw [owed, heard_hooked]
  rfl

end HookedTrigger

variable {e : TriggerEngine} {x : HookedTrigger} {m : PressLog} {src : Source} {r : Reply}

/-- What is owed after a handled event. -/
theorem Effect.owed {trigDown trigSuppressed : Bool} {marked : Source → Bool} {edges : List Bool}
    {swallow : Bool} (hr : Effect e r trigDown trigSuppressed marked edges swallow) (s : Source) :
    r.engine.owed s = (marked s || (trigDown && trigSuppressed && s.isOf e.cfg.trigger)) := by
  rw [TriggerEngine.owed, TriggerEngine.heldBack, hr.marked, hr.trigDown, hr.trigSuppressed, hr.cfg]

/-- An event that changes nothing of the trigger and no mark leaves what is owed. -/
theorem Effect.owed_same {edges : List Bool} {swallow : Bool}
    (hr : Effect e r e.trigDown e.trigSuppressed e.marked edges swallow) (s : Source) :
    r.engine.owed s = e.owed s := hr.owed s

/-- What is owed after a hidden down. -/
theorem hidden_owed (hr : e.DownSpec src armed r .hidden) (s : Source) :
    r.engine.owed s = (e.owed s || src.shares s) := by
  have hr : Effect e r _ _ _ _ _ := hr
  rw [hr.owed, TriggerEngine.owed, TriggerEngine.heldBack, Bool.or_right_comm]

/-- What is owed after a press of the trigger. -/
theorem presses_owed (hr : e.DownSpec src armed r .presses) (s : Source) :
    r.engine.owed s =
      (e.owed s || (e.cfg.suppressTrigger && armed && s.isOf e.cfg.trigger)) := by
  obtain ⟨hoff, -, hr⟩ := hr
  -- The trigger is up, so before the press only the marks are owed.
  have hbefore : e.owed s = e.marked s := by
    simp [TriggerEngine.owed, TriggerEngine.heldBack, hoff]
  rw [hr.owed, hbefore, Bool.true_and]

/-- A source whose hook judges it owes what the engine says. -/
theorem owed_of_hooked (hook : x.hooked src = true) : x.owed src = x.engine.owed src := by
  rw [HookedTrigger.owed, hook, Bool.true_and]

/-- A down that passes a hook. -/
theorem Settled.of_down (h : Settled (x, m)) (hwheel : src.wheel = false)
    (hook : x.hooked src = true) {armed : Bool} {br : DownBranch}
    (hr : x.engine.DownSpec src armed r br) :
    Settled (x.heard r, m.down src r.swallow) ↔ DownPaired x.engine m src armed br := by
  rw [h.down_iff hwheel]
  simp only [HookedTrigger.heard_owed]
  simp only [HookedTrigger.owed, hook, Bool.true_and]
  have hseen : allSwallowed (m.downs src) = true ↔ (m.held src → x.engine.owed src = true) := by
    rw [h.allSwallowed_eq src, owed_of_hooked hook]
  cases br with
  | hidden =>
    -- The mark is one for all keys that share the entry, and they have one hook.
    have howed := hidden_owed hr
    have hr : Effect _ r _ _ _ _ _ := hr
    rw [hr.swallow, howed src, Source.shares_self, Bool.or_true, Bool.and_true, eq_comm, hseen]
    constructor
    · rintro ⟨hrest, hsrc⟩ s hheld hshares
      by_cases hs : s = src
      · rw [hs] at hheld ⊢
        exact hsrc hheld
      · have hsame := hrest s hs hheld
        rw [x.hooked_of_device (Source.device_of_shares hshares), hook, howed, hshares] at hsame
        simpa using hsame.symm
    · intro hall
      refine ⟨fun s hs hheld => ?_, fun hheld => hall src hheld src.shares_self⟩
      rw [howed]
      cases hshares : src.shares s with
      | true => simp [hall s hheld hshares]
      | false => simp
  | presses =>
    have howed := presses_owed hr
    obtain ⟨-, hof, hr⟩ := hr
    rw [hr.swallow, howed src, hof]
    unfold DownPaired
    cases hsup : x.engine.cfg.suppressTrigger && armed with
    | true =>
      simp only [hsup, Bool.and_true, Bool.or_true, if_true, Bool.true_and] at howed ⊢
      rw [eq_comm, hseen]
      constructor
      · rintro ⟨hrest, hsrc⟩ s hheld hof'
        by_cases hs : s = src
        · rw [hs] at hheld ⊢
          exact hsrc hheld
        · have hsame := hrest s hs hheld
          have hdevice := (Source.device_of_isOf hof').trans (Source.device_of_isOf hof).symm
          rw [x.hooked_of_device hdevice, hook, howed, hof'] at hsame
          simpa using hsame.symm
      · intro hall
        refine ⟨fun s hs hheld => ?_, fun hheld => hall src hheld hof⟩
        rw [howed]
        cases hof' : s.isOf x.engine.cfg.trigger with
        | true => simp [hall s hheld hof']
        | false => simp
    | false =>
      simp only [hsup, Bool.false_and, Bool.and_false, Bool.or_false, Bool.false_eq_true,
        if_false] at howed ⊢
      exact and_iff_right fun s _ _ => by rw [howed s]
  | repeats =>
    obtain ⟨hheld, hr⟩ := hr
    -- The trigger is held back already: nothing changes, and the down is swallowed too.
    have hsrc : x.engine.owed src = true := by simp [TriggerEngine.owed, hheld]
    rw [hr.swallow, Bool.and_true, hr.owed_same, hsrc, eq_comm, hseen]
    exact iff_of_true ⟨fun s _ _ => by rw [hr.owed_same s], fun _ => hsrc⟩ trivial
  | passes =>
    have hr : Effect _ r _ _ _ _ _ := hr
    rw [hr.swallow, Bool.and_false, hr.owed_same]
    exact and_iff_right fun s _ _ => by rw [hr.owed_same s]

/-- Outside captures an up is swallowed if that is owed. -/
theorem up_swallow (hr : e.UpSpec src r) : r.swallow = e.owed src := by
  unfold TriggerEngine.UpSpec at hr
  rw [TriggerEngine.owed, TriggerEngine.heldBack]
  split at hr
  · next hof =>
    rw [hr.swallow]
    simp only [Bool.and_eq_true] at hof
    simp [hof.1, hof.2]
  · next hof =>
    rw [hr.swallow]
    cases hd : e.trigDown with
    | false => simp
    | true =>
      have hno : src.isOf e.cfg.trigger = false := by simpa [hd] using hof
      simp [hno]

/-- An up clears the source's mark, and the trigger if the source holds it. -/
theorem up_owed (hr : e.UpSpec src r) (s : Source) :
    r.engine.owed s = (e.marked s && !src.shares s || e.heldBack s && !e.heldBack src) := by
  unfold TriggerEngine.UpSpec at hr
  split at hr
  · next hof =>
    rw [hr.owed, TriggerEngine.heldBack, TriggerEngine.heldBack]
    simp only [Bool.and_eq_true] at hof
    cases e.trigSuppressed <;> simp [hof.1, hof.2]
  · next hof =>
    rw [hr.owed, TriggerEngine.heldBack, TriggerEngine.heldBack]
    cases hd : e.trigDown with
    | false => simp
    | true =>
      have hno : src.isOf e.cfg.trigger = false := by simpa [hd] using hof
      simp [hno]

/-- A source that comes out of an up as it was owed, exactly. -/
theorem up_owed_eq_iff (hr : e.UpSpec src r) (s : Source) :
    r.engine.owed s = e.owed s ↔ (e.owed s = true →
      (e.marked s && !src.shares s || e.heldBack s && !e.heldBack src) = true) := by
  rw [up_owed hr]
  constructor
  · intro heq howed
    rw [heq]
    exact howed
  · intro himp
    cases howed : e.owed s with
    | true => exact himp howed
    | false =>
      -- What was not owed is not owed after it either.
      have hno : e.marked s = false ∧ e.heldBack s = false := by
        simpa [TriggerEngine.owed] using howed
      simp [hno.1, hno.2]

/-- An up is nothing to the other device. -/
theorem up_owed_of_device {s : Source} (hdevice : s.device ≠ src.device)
    (howed : e.owed s = true) :
    (e.marked s && !src.shares s || e.heldBack s && !e.heldBack src) = true := by
  have hshares : src.shares s = false := by
    rw [Bool.eq_false_iff]
    exact fun h => hdevice (Source.device_of_shares h)
  rw [TriggerEngine.owed, Bool.or_eq_true] at howed
  rcases howed with hmarked | hback
  · simp [hmarked, hshares]
  · have hsrc : e.heldBack src = false := by
      rw [Bool.eq_false_iff]
      intro h
      simp only [TriggerEngine.heldBack, Bool.and_eq_true] at h hback
      exact hdevice ((Source.device_of_isOf hback.2).trans (Source.device_of_isOf h.2).symm)
    simp [hback, hsrc]

/-- A source keeps what it was owed through an up: the other device always does. -/
theorem up_kept_iff (hook : x.hooked src = true) (hr : x.engine.UpSpec src r) (s : Source) :
    (x.heard r).owed s = x.owed s ↔ (x.engine.owed s = true →
      (x.engine.marked s && !src.shares s ||
        x.engine.heldBack s && !x.engine.heldBack src) = true) := by
  rw [HookedTrigger.heard_owed, HookedTrigger.owed]
  by_cases hdevice : s.device = src.device
  · rw [x.hooked_of_device hdevice, hook, Bool.true_and, Bool.true_and, up_owed_eq_iff hr]
  · have hkept := fun howed => up_owed_of_device hdevice (e := x.engine) howed
    exact iff_of_true (by rw [(up_owed_eq_iff hr s).mpr hkept]) hkept

/-- An up that passes a hook outside captures. -/
theorem Settled.of_up (h : Settled (x, m)) (hook : x.hooked src = true)
    (hr : x.engine.UpSpec src r) :
    Settled (x.heard r, m.up src r.swallow) ↔ UpPaired x.engine m src := by
  rw [h.up_iff, up_swallow hr, owed_of_hooked hook, and_iff_left fun _ => rfl]
  exact forall_congr' fun s => forall_congr' fun _ => forall_congr' fun _ => up_kept_iff hook hr s

/-- A key-up during a capture. -/
theorem Settled.of_capture (h : Settled (x, m)) (hook : x.hooked src = true)
    (hr : Effect x.engine r x.engine.trigDown x.engine.trigSuppressed
      (fun s => x.engine.marked s && !src.shares s) [] (x.engine.marked src)) :
    Settled (x.heard r, m.up src r.swallow) ↔ CapturedUpPaired x.engine m src := by
  have howed : ∀ s, r.engine.owed s =
      (x.engine.marked s && !src.shares s || x.engine.heldBack s) := hr.owed
  rw [h.up_iff, hr.swallow, owed_of_hooked hook, and_comm]
  refine and_congr (forall_congr' fun _ => ?_)
    (forall_congr' fun s => forall_congr' fun _ => forall_congr' fun _ => ?_)
  · rw [TriggerEngine.owed]
    cases x.engine.marked src <;> cases x.engine.heldBack src <;> simp
  · rw [HookedTrigger.heard_owed, howed, HookedTrigger.owed, TriggerEngine.owed]
    cases hshares : src.shares s with
    | true =>
      -- A shared entry means the same device, so the hook judges this one too.
      rw [x.hooked_of_device (Source.device_of_shares hshares), hook]
      cases x.engine.marked s <;> cases x.engine.heldBack s <;> simp
    | false => simp

/-- What passes no hook reaches the other applications, and no up is owed to it. -/
theorem Settled.of_unhooked (h : Settled (x, m)) (hook : x.hooked src = false) :
    (src.wheel = false → Settled (x, m.down src false)) ∧ Settled (x, m.up src false) := by
  have hnone : x.owed src = false := by rw [HookedTrigger.owed, hook, Bool.false_and]
  refine ⟨fun hwheel => (h.down_iff hwheel false).mpr ⟨fun _ _ _ => rfl, ?_⟩,
    (h.up_iff false).mpr ⟨fun _ _ _ => rfl, fun _ => hnone.symm⟩⟩
  rw [hnone, Bool.and_false]

/-- What raw input reports of a button-down. -/
theorem Settled.of_rawDown (h : Settled (x, m)) (hook : x.hooked src = true) {armed : Bool}
    {br : DownBranch} (hr : x.engine.DownSpec src armed r br) :
    Settled (x.heard r, m) ↔ RawDownPaired x.engine m src armed br := by
  rw [h.same_iff]
  simp only [HookedTrigger.heard_owed]
  simp only [HookedTrigger.owed]
  cases br with
  -- A hidden press marks its source, so a source that shares the mark must have owed its up.
  | hidden =>
    have howed := hidden_owed hr
    refine forall_congr' fun s => forall_congr' fun _ => ?_
    rw [howed]
    cases hshares : src.shares s with
    | true =>
      rw [x.hooked_of_device (Source.device_of_shares hshares), hook]
      cases x.engine.owed s <;> simp
    | false => simp
  -- The trigger's press owes its up when it is suppressed.
  | presses =>
    have howed := presses_owed hr
    obtain ⟨-, hof, -⟩ := hr
    unfold RawDownPaired
    cases hsup : x.engine.cfg.suppressTrigger && armed with
    | true =>
      rw [imp_iff_right rfl]
      refine forall_congr' fun s => forall_congr' fun _ => ?_
      rw [howed, hsup]
      cases hof' : s.isOf x.engine.cfg.trigger with
      | true =>
        have hdevice := (Source.device_of_isOf hof').trans (Source.device_of_isOf hof).symm
        rw [x.hooked_of_device hdevice, hook]
        cases x.engine.owed s <;> simp
      | false => simp
    | false =>
      refine iff_of_true (fun s _ => ?_) (fun hno => absurd hno (by simp))
      rw [howed, hsup, Bool.false_and, Bool.or_false]
  -- A repeat and a press of something else owe what they owed.
  | repeats =>
    obtain ⟨-, hr⟩ := hr
    exact iff_of_true (fun s _ => by rw [hr.owed_same s]) trivial
  | passes =>
    have hr : Effect _ r _ _ _ _ _ := hr
    exact iff_of_true (fun s _ => by rw [hr.owed_same s]) trivial

/-- What raw input reports of a button-up. -/
theorem Settled.of_rawUp (h : Settled (x, m)) (hook : x.hooked src = true)
    (hr : x.engine.UpSpec src r) :
    Settled (x.heard r, m) ↔ RawUpPaired x.engine m src := by
  rw [h.same_iff]
  exact forall_congr' fun s => forall_congr' fun _ => up_kept_iff hook hr s

/-- A handler that leaves what is owed. -/
theorem Settled.of_same (h : Settled (x, m)) {r : Reply}
    (hsame : ∀ s, r.engine.owed s = x.engine.owed s) : Settled (x.heard r, m) := by
  refine h.same_iff.mpr fun s _ => ?_
  rw [HookedTrigger.heard_owed, hsame, HookedTrigger.owed]

/-- A down is nothing to the other device. -/
theorem down_owed_of_device {armed : Bool} {br : DownBranch} (hr : e.DownSpec src armed r br)
    {s : Source} (hdevice : s.device ≠ src.device) : r.engine.owed s = e.owed s := by
  cases br with
  | hidden =>
    have hshares : src.shares s = false := by
      rw [Bool.eq_false_iff]
      exact fun h => hdevice (Source.device_of_shares h)
    rw [hidden_owed hr, hshares, Bool.or_false]
  | presses =>
    have hof : s.isOf e.cfg.trigger = false := by
      rw [Bool.eq_false_iff]
      exact fun h => hdevice ((Source.device_of_isOf h).trans (Source.device_of_isOf hr.2.1).symm)
    rw [presses_owed hr, hof, Bool.and_false, Bool.or_false]
  | repeats => exact hr.2.owed_same s
  | passes =>
    have hr : Effect _ r _ _ _ _ _ := hr
    exact hr.owed_same s

/-- While no hook judges the button events, raw input changes nothing for any press. -/
theorem Settled.of_rawUnhooked (h : Settled (x, m)) (hook : x.hooked src = false)
    (hother : ∀ s, s.device ≠ src.device → r.engine.owed s = x.engine.owed s) :
    Settled (x.heard r, m) := by
  refine h.same_iff.mpr fun s _ => ?_
  rw [HookedTrigger.heard_owed, HookedTrigger.owed]
  by_cases hdevice : s.device = src.device
  · rw [x.hooked_of_device hdevice, hook, Bool.false_and, Bool.false_and]
  · rw [hother s hdevice]

/-- A change of the trigger forgets that its press is held back. -/
theorem applyPendingConfig_owed (hvalid : e.pendingValid = true) (s : Source) :
    e.applyPendingConfig.owed s =
      (e.marked s || (e.heldBack s && e.pending.trigger.same e.cfg.trigger)) := by
  have hmarked : e.applyPendingConfig.marked s = e.marked s := by
    rw [TriggerEngine.applyPendingConfig, if_pos hvalid]
    cases s <;> rfl
  have hheld : e.applyPendingConfig.heldBack s =
      (e.heldBack s && e.pending.trigger.same e.cfg.trigger) := by
    rw [TriggerEngine.applyPendingConfig, if_pos hvalid]
    simp only [TriggerEngine.heldBack]
    cases hsame : e.pending.trigger.same e.cfg.trigger with
    | true => simp [Source.isOf_same hsame s]
    | false => simp
  rw [TriggerEngine.owed, hmarked, hheld]

/-! ### One event of the hardware -/

section Event

variable {H : LoopHost}

/-- The verdict of a handler is what its events show. -/
theorem verdict_of_events (r : Reply) : decide (.swallowed ∈ r.events) = r.swallow := by
  simp [swallowed_mem_events]

/-- The keyboard hook hands a key event to `handleKey`, and its verdict is on record. -/
theorem next_key_of_hooked {vk : Vk} {ext : Bool} (hook : x.hooked (.key vk ext) = true)
    (down : Bool) (scan : BitVec 16) (qpc : ℤ) (armed : Bool) :
    (swallowMachine H).next (x, m) (.key down vk scan ext qpc armed) =
      (x.heard (x.engine.handleKey down vk scan ext qpc armed),
        if down then m.down (.key vk ext) (x.engine.handleKey down vk scan ext qpc armed).swallow
        else m.up (.key vk ext) (x.engine.handleKey down vk scan ext qpc armed).swallow) := by
  have hkb : x.loop.kbHook = true := hook
  show ((x.step H _).1, watchPresses x m _ (x.step H _).2) = _
  simp only [HookedTrigger.step, hkb, if_true, watchPresses, verdict_of_events]

/-- Without the keyboard hook a key event goes by unheard, and is not swallowed. -/
theorem next_key_of_unhooked {vk : Vk} {ext : Bool} (hook : x.hooked (.key vk ext) = false)
    (down : Bool) (scan : BitVec 16) (qpc : ℤ) (armed : Bool) :
    (swallowMachine H).next (x, m) (.key down vk scan ext qpc armed) =
      (x, if down then m.down (.key vk ext) false else m.up (.key vk ext) false) := by
  have hkb : x.loop.kbHook = false := hook
  show ((x.step H _).1, watchPresses x m _ (x.step H _).2) = _
  simp [HookedTrigger.step, hkb, watchPresses]

/-- The mouse hook hands a button event to `handleMouse`, and its verdict is on record. -/
theorem next_mouse_of_hooked {b : MouseButton} (hb : b.wheel = false)
    (hook : x.hooked (.button b) = true) (down onOwn : Bool) (qpc : ℤ) (armed : Bool) :
    (swallowMachine H).next (x, m) (.mouse b down onOwn qpc armed) =
      (x.heard (x.engine.handleMouse b down onOwn qpc armed),
        if down then m.down (.button b) (x.engine.handleMouse b down onOwn qpc armed).swallow
        else m.up (.button b) (x.engine.handleMouse b down onOwn qpc armed).swallow) := by
  have hmouse : x.loop.mouseHook = true := hook
  show ((x.step H _).1, watchPresses x m _ (x.step H _).2) = _
  simp only [HookedTrigger.step, hmouse, if_true, watchPresses, hb, Bool.false_eq_true, if_false,
    verdict_of_events]

/-- Without the mouse hook a button event goes by unheard, and is not swallowed. -/
theorem next_mouse_of_unhooked {b : MouseButton} (hb : b.wheel = false)
    (hook : x.hooked (.button b) = false) (down onOwn : Bool) (qpc : ℤ) (armed : Bool) :
    (swallowMachine H).next (x, m) (.mouse b down onOwn qpc armed) =
      (x, if down then m.down (.button b) false else m.up (.button b) false) := by
  have hmouse : x.loop.mouseHook = false := hook
  show ((x.step H _).1, watchPresses x m _ (x.step H _).2) = _
  simp [HookedTrigger.step, hmouse, watchPresses, hb]

/-- A notch of the wheel is no press: the hook may hear of it, the record does not. -/
theorem next_mouse_of_wheel {b : MouseButton} (hb : b.wheel = true) (down onOwn : Bool) (qpc : ℤ)
    (armed : Bool) :
    (swallowMachine H).next (x, m) (.mouse b down onOwn qpc armed) =
      (if x.loop.mouseHook then x.heard (x.engine.handleMouse b down onOwn qpc armed) else x,
        m) := by
  show ((x.step H _).1, watchPresses x m _ (x.step H _).2) = _
  rw [HookedTrigger.step]
  split <;> simp only [watchPresses, hb, if_true]

end Event

/-! ### Every move keeps the record exactly when it meets the condition -/

namespace Settled

variable {H : LoopHost}

/-- A move that changes neither the handlers nor the hooks. -/
theorem of_loop (h : Settled (x, m)) {x' : HookedTrigger} (hengine : x'.engine.owed = x.engine.owed)
    (hkb : x'.loop.kbHook = x.loop.kbHook) (hmouse : x'.loop.mouseHook = x.loop.mouseHook) :
    Settled (x', m) := by
  refine h.same_iff.mpr fun s _ => ?_
  have hhooked : x'.hooked s = x.hooked s := by
    cases s with
    | key vk ext => exact hkb
    | button b => exact hmouse
  rw [HookedTrigger.owed, HookedTrigger.owed, hengine, hhooked]

/-- A task that changes the hooks alone. -/
theorem of_hooks (h : Settled (x, m)) {l : TriggerLoop} :
    Settled ({ x with loop := l }, m) ↔ ∀ s, m.held s → x.engine.owed s = true →
      { x with loop := l }.hooked s = x.hooked s := by
  rw [h.same_iff]
  refine forall_congr' fun s => forall_congr' fun _ => ?_
  rw [HookedTrigger.owed, HookedTrigger.owed]
  cases x.engine.owed s with
  | true => simp
  | false => simp

/-- The next task of the loop. -/
theorem task_iff (h : Settled (x, m)) (v : LoopView) (task : LoopTask) (todo : List LoopTask) :
    Settled ({
      engine := if task = .applyPendingConfig then x.engine.applyPendingConfig else x.engine
      loop := ({ x.loop with todo := todo }.run H v task).1 }, m) ↔ TaskPaired x m v task := by
  cases task with
  | applyPendingConfig =>
    have hkeeps : ∀ l : TriggerLoop, (l.applyPendingConfig H).kbHook = l.kbHook ∧
        (l.applyPendingConfig H).mouseHook = l.mouseHook := by
      intro l
      rw [TriggerLoop.applyPendingConfig]
      split <;> exact ⟨rfl, rfl⟩
    obtain ⟨hkb, hmouse⟩ := hkeeps { x.loop with todo := todo }
    rw [if_pos rfl]
    show _ ↔ (x.engine.pendingValid = true → _)
    cases hvalid : x.engine.pendingValid with
    | false =>
      refine iff_of_true (h.of_loop ?_ hkb hmouse) (fun hno => absurd hno (by simp))
      simp only [TriggerEngine.applyPendingConfig, hvalid, Bool.false_eq_true, if_false]
    | true =>
      -- A change of the trigger is the only way to lose a press that is held back.
      rw [imp_iff_right rfl]
      cases hsame : x.engine.pending.trigger.same x.engine.cfg.trigger with
      | true =>
        refine iff_of_true (h.of_loop (funext fun s => ?_) hkb hmouse)
          (fun hno => absurd hno (by simp))
        rw [applyPendingConfig_owed hvalid, hsame, Bool.and_true, TriggerEngine.owed]
      | false =>
        rw [imp_iff_right rfl, h.same_iff]
        refine forall_congr' fun s => forall_congr' fun _ => ?_
        have hhooked : HookedTrigger.hooked
            { engine := x.engine.applyPendingConfig
              loop := ({ x.loop with todo := todo }.run H v .applyPendingConfig).1 } s =
              x.hooked s := by
          cases s with
          | key vk ext => exact hkb
          | button b => exact hmouse
        rw [HookedTrigger.owed, HookedTrigger.owed, hhooked, applyPendingConfig_owed hvalid, hsame,
          Bool.and_false, TriggerEngine.owed]
        cases x.hooked s <;> cases x.engine.marked s <;> cases x.engine.heldBack s <;> simp
  | installKeyboardHook => exact h.of_hooks
  | updateHooks => exact h.of_hooks
  | dropHooks => exact h.of_hooks
  | forgetName => exact iff_of_true (h.of_loop rfl rfl rfl) trivial
  | postHooks => exact iff_of_true (h.of_loop rfl rfl rfl) trivial
  | evaluateGate =>
    have hframe := { x.loop with todo := todo }.evaluateGate_frame H v.foreground v.processName
    exact iff_of_true (h.of_loop rfl hframe.kbHook hframe.mouseHook) trivial
  | evaluateGateOf fg =>
    have hframe := { x.loop with todo := todo }.evaluateGate_frame H fg v.processName
    exact iff_of_true (h.of_loop rfl hframe.kbHook hframe.mouseHook) trivial

/-- A move of the loop, or of a thread that calls it. -/
theorem loop_iff (h : Settled (x, m)) (a : LoopAct) :
    Settled ((x.step H (.loop a)).1, m) ↔ PairedStep (x, m) (.loop a) := by
  cases a with
  | setConfig c => exact iff_of_true (h.of_loop rfl rfl rfl) trivial
  | beginCapture allowMouse => exact iff_of_true (h.of_loop rfl rfl rfl) trivial
  | cancelCapture => exact iff_of_true (h.of_loop rfl rfl rfl) trivial
  | reinstallHooks => exact iff_of_true (h.of_loop rfl rfl rfl) trivial
  | recomputeGate => exact iff_of_true (h.of_loop rfl rfl rfl) trivial
  | post i => exact iff_of_true (h.of_loop rfl rfl rfl) trivial
  | captured => exact iff_of_true h trivial
  | startThread =>
    refine iff_of_true ?_ trivial
    simp only [HookedTrigger.step, TriggerLoop.step]
    split <;> exact h.of_loop rfl rfl rfl
  | foreground fg =>
    refine iff_of_true ?_ trivial
    simp only [HookedTrigger.step, TriggerLoop.step]
    split <;> exact h.of_loop rfl rfl rfl
  | go v =>
    show _ ↔ NextPaired x m v x.loop.todo
    cases htodo : x.loop.todo with
    | nil =>
      obtain ⟨queue, todo, hnext⟩ := HookedTrigger.step_message (H := H) htodo v
      rw [hnext]
      exact iff_of_true (h.of_loop rfl rfl rfl) trivial
    | cons task todo =>
      rw [HookedTrigger.step_task htodo v]
      exact h.task_iff v task todo

/-- A key event. -/
theorem key_iff (h : Settled (x, m)) (down : Bool) (vk : Vk) (scan : BitVec 16) (ext : Bool)
    (qpc : ℤ) (armed : Bool) :
    Settled ((swallowMachine H).next (x, m) (.key down vk scan ext qpc armed)) ↔
      PairedStep (x, m) (.key down vk scan ext qpc armed) := by
  cases hook : x.hooked (.key vk ext) with
  | true =>
    -- The hook hands the event to `handleKey`, and the pairing is decided by its answer.
    have hkb : x.loop.kbHook = true := hook
    rw [next_key_of_hooked hook]
    cases down with
    | true =>
      show _ ↔ (x.loop.kbHook = true → _)
      rw [imp_iff_right hkb]
      exact h.of_down rfl hook (x.engine.handleKey_down vk scan ext qpc armed false)
    | false =>
      show _ ↔ (x.loop.kbHook = true → if x.engine.captureState = .off then _ else _)
      rw [imp_iff_right hkb, if_neg (by simp)]
      split
      · next hcap => exact h.of_up hook (x.engine.handleKey_up vk scan ext qpc armed hcap)
      · next hcap =>
        exact h.of_capture hook (TriggerEngine.handleKey_up_capture vk scan ext qpc armed hcap)
  | false =>
    have hkb : ¬x.loop.kbHook = true := fun hno => absurd (hook.symm.trans hno) (by simp)
    obtain ⟨hdown, hup⟩ := h.of_unhooked hook
    rw [next_key_of_unhooked hook]
    cases down with
    | true => exact iff_of_true (hdown rfl) (fun hno => absurd hno hkb)
    | false => exact iff_of_true hup (fun hno => absurd hno hkb)

/-- A wheel notch is no press, and changes nothing that is owed. -/
theorem of_wheel (h : Settled (x, m)) {b : MouseButton} (hb : b.wheel = true) (down onOwn : Bool)
    (qpc : ℤ) (armed : Bool) :
    Settled (x.heard (x.engine.handleMouse b down onOwn qpc armed), m) := by
  obtain ⟨edges, swallow, hr, -⟩ :=
    @TriggerEngine.handleMouse_wheel x.engine b hb down onOwn qpc armed
  exact h.of_same hr.owed_same

/-- A button event or a wheel notch. -/
theorem mouse_iff (h : Settled (x, m)) (b : MouseButton) (down onOwn : Bool) (qpc : ℤ)
    (armed : Bool) :
    Settled ((swallowMachine H).next (x, m) (.mouse b down onOwn qpc armed)) ↔
      PairedStep (x, m) (.mouse b down onOwn qpc armed) := by
  -- A notch of the wheel is no press: whatever the hook does with it, nothing is to be paired.
  cases hb : b.wheel with
  | true =>
    have hpaired : PairedStep (x, m) (.mouse b down onOwn qpc armed) := by
      cases down <;> exact fun _ hno => absurd (hno.symm.trans hb) (by simp)
    refine iff_of_true ?_ hpaired
    rw [next_mouse_of_wheel hb]
    split
    · exact h.of_wheel hb down onOwn qpc armed
    · exact h
  | false =>
    cases hook : x.hooked (.button b) with
    | true =>
      have hmouse : x.loop.mouseHook = true := hook
      rw [next_mouse_of_hooked hb hook]
      -- The thread answers the event, and the pairing is decided by how it answers.
      cases down with
      | true =>
        show _ ↔ (x.loop.mouseHook = true → b.wheel = false → _)
        rw [imp_iff_right hmouse, imp_iff_right hb]
        exact h.of_down (by exact hb) hook
          (@TriggerEngine.handleMouse_down x.engine b hb onOwn qpc armed)
      | false =>
        show _ ↔ (x.loop.mouseHook = true → b.wheel = false →
          if x.engine.captureState = .keyboardMouse then _ else _)
        rw [imp_iff_right hmouse, imp_iff_right hb, if_neg (by simp)]
        -- A capture takes the up for itself, so it passes; the promise must have been not to
        -- swallow.
        split
        · next hcap =>
          have hr := @TriggerEngine.handleMouse_up_capture x.engine b onOwn qpc armed hcap
          have hsame : ∀ s, (x.heard (x.engine.handleMouse b false onOwn qpc armed)).owed s =
              x.owed s := by
            intro s
            rw [HookedTrigger.heard_owed, hr.owed_same, HookedTrigger.owed]
          rw [h.up_iff, hr.swallow, and_iff_right fun s _ _ => hsame s, owed_of_hooked hook]
          exact forall_congr' fun _ => eq_comm
        · next hcap =>
          exact h.of_up hook (TriggerEngine.handleMouse_up hb onOwn qpc armed hcap)
    | false =>
      have hmouse : ¬x.loop.mouseHook = true := fun hno => absurd (hook.symm.trans hno) (by simp)
      obtain ⟨hdown, hup⟩ := h.of_unhooked hook
      rw [next_mouse_of_unhooked hb hook]
      cases down with
      | true => exact iff_of_true (hdown hb) (fun hno => absurd hno hmouse)
      | false => exact iff_of_true hup (fun hno => absurd hno hmouse)

/-- A message of raw input. -/
theorem rawMouse_iff (h : Settled (x, m)) (b : MouseButton) (down onOwn : Bool) (qpc : ℤ)
    (armed : Bool) :
    Settled ((swallowMachine H).next (x, m) (.rawMouse b down onOwn qpc armed)) ↔
      PairedStep (x, m) (.rawMouse b down onOwn qpc armed) := by
  have hnext : (swallowMachine H).next (x, m) (.rawMouse b down onOwn qpc armed) =
      (x.heard (x.engine.handleMouse b down onOwn qpc armed), m) := rfl
  rw [hnext]
  cases hb : b.wheel with
  | true =>
    refine iff_of_true (h.of_wheel hb down onOwn qpc armed) ?_
    cases down <;> exact fun _ hno => absurd (hno.symm.trans hb) (by simp)
  | false =>
    by_cases hmouse : x.loop.mouseHook = true
    · have hook : x.hooked (.button b) = true := hmouse
      cases down with
      | true =>
        show _ ↔ (x.loop.mouseHook = true → b.wheel = false → _)
        rw [imp_iff_right hmouse, imp_iff_right hb]
        exact h.of_rawDown hook (@TriggerEngine.handleMouse_down x.engine b hb onOwn qpc armed)
      | false =>
        show _ ↔ (x.loop.mouseHook = true → b.wheel = false →
          x.engine.captureState ≠ .keyboardMouse → _)
        rw [imp_iff_right hmouse, imp_iff_right hb]
        by_cases hcap : x.engine.captureState = .keyboardMouse
        · have hr := @TriggerEngine.handleMouse_up_capture x.engine b onOwn qpc armed hcap
          exact iff_of_true (h.of_same hr.owed_same) (fun hno => absurd hcap hno)
        · rw [imp_iff_right hcap]
          exact h.of_rawUp hook (TriggerEngine.handleMouse_up hb onOwn qpc armed hcap)
    · have hook : x.hooked (.button b) = false := by
        rw [Bool.not_eq_true] at hmouse
        exact hmouse
      -- The handlers hear of the press, but no hook of theirs stands in its way.
      have hother : ∀ s : Source, s.device ≠ (Source.button b).device →
          (x.engine.handleMouse b down onOwn qpc armed).engine.owed s = x.engine.owed s := by
        intro s hdevice
        cases down with
        | true =>
          exact down_owed_of_device
            (@TriggerEngine.handleMouse_down x.engine b hb onOwn qpc armed) hdevice
        | false =>
          by_cases hcap : x.engine.captureState = .keyboardMouse
          · have hr := @TriggerEngine.handleMouse_up_capture x.engine b onOwn qpc armed hcap
            exact hr.owed_same s
          · have hr := TriggerEngine.handleMouse_up hb onOwn qpc armed hcap
            exact (up_owed_eq_iff hr s).mpr fun howed => up_owed_of_device hdevice howed
      refine iff_of_true (h.of_rawUnhooked hook hother) ?_
      cases down <;> exact fun hno => absurd hno hmouse

/-- **A step keeps the record exactly when it meets the condition.** -/
theorem step_iff {x : HookedTrigger × PressLog} (h : Settled x) (i : HookedInput) :
    Settled ((swallowMachine H).next x i) ↔ PairedStep x i := by
  cases i with
  | key down vk scan ext qpc armed => exact h.key_iff down vk scan ext qpc armed
  | mouse b down onOwn qpc armed => exact h.mouse_iff b down onOwn qpc armed
  | rawMouse b down onOwn qpc armed => exact h.rawMouse_iff b down onOwn qpc armed
  | loop a => exact h.loop_iff a

end Settled

/-! ### Every run -/

/-- Where every run starts: the thread is not started and no hook is installed. -/
def swallowStart : HookedTrigger × PressLog := ({}, {})

/-- At the start no press is in progress. -/
theorem Settled.start : Settled swallowStart :=
  ⟨fun _ hs => absurd rfl hs, fun _ hs => absurd rfl hs,
    fun p hp => absurd hp (by simp [swallowStart])⟩

variable {H : LoopHost}

/-- Only keys and buttons come to be held. -/
theorem held_next {x : HookedTrigger × PressLog} {i : HookedInput} {s : Source}
    (hheld : ((swallowMachine H).next x i).2.held s) : x.2.held s ∨ s.wheel = false := by
  -- A source is held by its down, and stops being held by its up.
  obtain ⟨x, m⟩ := x
  have hdown : ∀ {src swallowed}, src.wheel = false → (m.down src swallowed).held s →
      m.held s ∨ s.wheel = false := by
    intro src swallowed hwheel hs
    by_cases heq : s = src
    · exact .inr (heq ▸ hwheel)
    · exact .inl (by rwa [PressLog.held, PressLog.down_of_ne heq] at hs)
  have hup : ∀ {src swallowed}, (m.up src swallowed).held s → m.held s ∨ s.wheel = false := by
    intro src swallowed hs
    by_cases heq : s = src
    · subst heq
      exact absurd hs (m.up_self s _)
    · exact .inl (by rwa [PressLog.held, PressLog.up_of_ne heq] at hs)
  rw [swallowMachine, Machine.watch_next] at hheld
  cases i with
  | key down vk scan ext qpc armed =>
    cases down with
    | true => exact hdown rfl hheld
    | false => exact hup hheld
  | mouse b down onOwn qpc armed =>
    dsimp only [watchPresses] at hheld
    split at hheld
    · exact .inl hheld
    · next hb =>
      split at hheld
      · exact hdown (by simpa [Source.wheel] using hb) hheld
      · exact hup hheld
  | rawMouse b down onOwn qpc armed => exact .inl hheld
  | loop a => exact .inl hheld

/-- The source is let up. -/
def Source.released : Source → HookedInput
  | .key vk ext => .key false vk 0 ext 0 false
  | .button b => .mouse b false false 0 false

/-- With captures off the release of a held source ends its press as it is owed. -/
theorem release_finishes (hcap : x.engine.captureState = .off) {s : Source} (hheld : m.held s)
    (hwheel : s.wheel = false) :
    ⟨s, m.downs s, x.owed s⟩ ∈ ((swallowMachine H).next (x, m) s.released).2.finished := by
  -- It is enough that the up is swallowed exactly when the thread owes it.
  have hend : ∀ swallowed, swallowed = x.owed s →
      ⟨s, m.downs s, x.owed s⟩ ∈ (m.up s swallowed).finished := by
    rintro _ rfl
    rw [PressLog.up, if_pos hheld]
    simp
  cases s with
  | key vk ext =>
    rw [Source.released]
    cases hook : x.hooked (.key vk ext) with
    | true =>
      rw [next_key_of_hooked hook, if_neg (by simp)]
      refine hend _ ?_
      rw [up_swallow (x.engine.handleKey_up vk 0 ext 0 false hcap), owed_of_hooked hook]
    | false =>
      rw [next_key_of_unhooked hook, if_neg (by simp)]
      exact hend false (by rw [HookedTrigger.owed, hook, Bool.false_and])
  | button b =>
    rw [Source.released]
    cases hook : x.hooked (.button b) with
    | true =>
      rw [next_mouse_of_hooked hwheel hook, if_neg (by simp)]
      refine hend _ ?_
      rw [up_swallow (@TriggerEngine.handleMouse_up x.engine b hwheel false 0 false
        (by simp [hcap])), owed_of_hooked hook]
    | false =>
      rw [next_mouse_of_unhooked hwheel hook, if_neg (by simp)]
      exact hend false (by rw [HookedTrigger.owed, hook, Bool.false_and])

/-- A wrong record comes out: with captures off, the press in progress ends against the
    promise. -/
theorem not_paired_of_unsettled (hwheel : ∀ s, m.held s → s.wheel = false)
    (hno : ¬Settled (x, m)) : ∃ more, ¬((swallowMachine H).after (x, m) more).2.Paired := by
  by_cases hpaired : m.Paired
  · -- A held source of which the thread is wrong: its own release shows it.
    have hwrong : ∃ s, m.held s ∧ x.owed s ≠ allSwallowed (m.downs s) := by
      by_contra hall
      simp only [not_exists, not_and, not_not] at hall
      exact hno ⟨hall, hwheel, hpaired⟩
    obtain ⟨s, hheld, hwrong⟩ := hwrong
    refine ⟨[.loop .cancelCapture, s.released], fun hafter => hwrong ?_⟩
    have hfin := @release_finishes (x.step H (.loop .cancelCapture)).1 m H rfl s hheld
      (hwheel s hheld)
    have howed : (x.step H (.loop .cancelCapture)).1.owed s = x.owed s := by
      cases s <;> rfl
    rw [howed] at hfin
    rw [Bool.eq_iff_iff, allSwallowed_iff]
    exact hafter _ hfin
  · exact ⟨[], hpaired⟩

/-- **Swallowing is paired per press** in every run whose steps meet the condition: the up of a
    finished press is swallowed exactly if every down of it was.  After a step that does not
    meet it, a press can end that breaks this. -/
theorem swallow_paired (H : LoopHost) (ins : List HookedInput)
    (hmeets : (swallowMachine H).Meets PairedStep swallowStart ins) :
    ((swallowMachine H).after swallowStart ins).2.Paired ∧
      ∀ i, ¬PairedStep ((swallowMachine H).after swallowStart ins) i →
        ∃ more, ¬((swallowMachine H).after swallowStart (ins ++ i :: more)).2.Paired := by
  have h : Settled ((swallowMachine H).after swallowStart ins) :=
    (swallowMachine H).invariant_of_meets (fun x i hx hi => (hx.step_iff i).mpr hi)
      Settled.start hmeets
  refine ⟨h.paired, fun i hi => ?_⟩
  -- A step against the condition leaves the record wrong.
  obtain ⟨more, hmore⟩ := not_paired_of_unsettled (H := H)
    (fun s hs => (held_next hs).elim (h.wheel s) id) (fun hnext => hi ((h.step_iff i).mp hnext))
  exact ⟨more, by rw [Machine.after_append]; exact hmore⟩

/-- The thread is started with F6 as the suppressed trigger and F12 as the emergency key. -/
def suppressedF6 : List HookedInput :=
  [.loop (.setConfig {
      trigger := { device := .keyboard, code := 0x75 }
      suppressTrigger := true
      emergency := { device := .keyboard, code := 0x7B } }),
    .loop (.post 0), .loop .startThread] ++ List.replicate 4 (.loop (.go {}))

/-- F6 with an auto-repeat, then F12 without one. -/
def pairedPresses : List HookedInput :=
  suppressedF6 ++ [.key true 0x75 0x40 false 10 true, .key true 0x75 0x40 false 15 true,
    .key false 0x75 0x40 false 20 true, .key true 0x7B 0x58 false 30 true,
    .key false 0x7B 0x58 false 40 true]

/-- F12 with an auto-repeat. -/
def repeatedEmergency : List HookedInput :=
  suppressedF6 ++ [.key true 0x7B 0x58 false 30 true, .key true 0x7B 0x58 false 35 true,
    .key false 0x7B 0x58 false 40 true]

/-- The presses are paired; with an auto-repeat of the emergency key they would not be. -/
theorem pairedPresses_paired :
    ((swallowMachine plainHost).after swallowStart pairedPresses).2.Paired ∧
      ∃ more, ¬((swallowMachine plainHost).after swallowStart
        (repeatedEmergency.take 8 ++ .key true 0x7B 0x58 false 35 true :: more)).2.Paired :=
  ⟨(swallow_paired plainHost pairedPresses (by decide +kernel)).1,
    (swallow_paired plainHost (repeatedEmergency.take 8) (by decide +kernel)).2 _
      (by decide +kernel)⟩

/-- The emergency key held down: its repeated downs are seen by the other applications, its up
    is not. -/
theorem repeated_emergency_unpaired :
    ¬ ∀ ins : List HookedInput,
      ((swallowMachine plainHost).after swallowStart ins).2.Paired := by
  intro hall
  have hfin : ⟨.key 0x7B false, [true, false], true⟩ ∈
      ((swallowMachine plainHost).after swallowStart repeatedEmergency).2.finished := by
    decide +kernel
  exact absurd ((hall repeatedEmergency _ hfin).mp rfl) (by decide)

/-- Nothing else needs the mouse hook: a button is bound in a capture, and when its up comes the
    hook that swallowed its down is gone. -/
def capturedButton : List HookedInput :=
  suppressedF6 ++ [.loop (.beginCapture true), .loop (.post 0), .loop (.go {}), .loop (.go {}),
    .mouse .x1 true false 50 false] ++ List.replicate 3 (.loop (.go {})) ++
    [.mouse .x1 false false 60 false]

/-- Its down was swallowed, its up was not. -/
example : ⟨.button .x1, [true], false⟩ ∈
    ((swallowMachine plainHost).after swallowStart capturedButton).2.finished := by
  decide +kernel

end InfinityClicker
