import InfinityClicker.Trigger.TriggerEngine

namespace InfinityClicker

open Machines

/-!
# Trigger edges and the physical trigger

The scheduler sees the trigger only as `onTriggerDown` and `onTriggerUp`.  A monitor beside the
engine remembers what the last Down came from and whether that key or button was released.

* `Served` — the step does not take the trigger's release away from the handlers: no capture
  gets it, and no change of the trigger comes while it is down;
* `Tracked` — under the condition `trigDown_` is the truth about the edges sent and about the
  key or button that holds the trigger;
* `trigger_edges_faithful` — what follows for every run, and that the condition is needed.
-/

/-! ### The monitor -/

/-- Down, Up, Down, …: the first `n` edges. -/
def alternating (n : ℕ) : List Bool := (List.range n).map fun i => i % 2 == 0

theorem alternating_succ (n : ℕ) : alternating (n + 1) = alternating n ++ [n % 2 == 0] := by
  simp [alternating, List.range_succ]

/-- The last `onTriggerDown`: its key or button, whether that was released since, and whether
    the `onTriggerUp` was sent. -/
structure LastDown where
  source : Option Source := none
  released : Bool := false
  upSent : Bool := true
deriving DecidableEq, Repr

namespace LastDown

/-- A key or button goes up. -/
def release (m : LastDown) (src : Source) : LastDown :=
  if m.source = some src then { m with released := true } else m

/-- An edge is sent on behalf of a source. -/
def edge (src : Option Source) (m : LastDown) : Bool → LastDown
  | true => { source := src, released := false, upSent := false }
  | false => { m with upSent := true }

end LastDown

/-- The key or button an event releases. -/
def TriggerInput.released? : TriggerInput → Option Source
  | .key false vk _ ext _ _ => some (.key vk ext)
  | .mouse b false _ _ _ => some (.button b)
  | _ => none

def watchEdges (_ : TriggerEngine) (m : LastDown) (i : TriggerInput) (out : List TriggerEvent) :
    LastDown :=
  (triggerEdges out).foldl (LastDown.edge i.source?) ((i.released?.elim m m.release))

/-- The engine with the monitor. -/
def edgeMachine : Machine (TriggerEngine × LastDown) TriggerInput TriggerEvent :=
  triggerMachine.watch watchEdges

/-- What the sink is promised of a state and of all calls so far. -/
structure EdgesFaithful (x : TriggerEngine × LastDown) (evs : List TriggerEvent) : Prop where
  /-- Down and Up alternate, a Down first. -/
  alternate : triggerEdges evs = alternating (triggerEdges evs).length
  /-- Once what the last Down came from is released, its Up has been sent. -/
  released : x.2.released = true → x.2.upSent = true

/-- While the trigger is down, its release is not delivered during a capture of its device, and
    no change of the trigger is applied. -/
def Served (x : TriggerEngine × LastDown) : TriggerInput → Prop
  | .key false vk _ ext _ _ =>
    x.1.trigDown = true ∧ x.2.source = some (.key vk ext) → x.1.captureState = .off
  | .mouse b false _ _ _ =>
    x.1.trigDown = true ∧ x.2.source = some (.button b) → x.1.captureState ≠ .keyboardMouse
  | .applyPendingConfig =>
    x.1.trigDown = true ∧ x.1.pendingValid = true →
      x.1.pending.trigger.same x.1.cfg.trigger = true
  | _ => True

instance (x : TriggerEngine × LastDown) : DecidablePred (Served x)
  | .key false _ _ _ _ _ => inferInstanceAs (Decidable (_ ∧ _ → _ = _))
  | .mouse _ false _ _ _ => inferInstanceAs (Decidable (_ ∧ _ → _ ≠ _))
  | .applyPendingConfig => inferInstanceAs (Decidable (_ ∧ _ → _ = _))
  | .key true _ _ _ _ _ | .mouse _ true _ _ _ | .setConfig _ | .beginCapture _
  | .cancelCapture => isTrue trivial

/-! ### Every step -/

/-- `trigDown_` tells whether a Down is open, and the source of an open Down still holds the
    trigger. -/
structure Tracked (x : TriggerEngine × LastDown) (evs : List TriggerEvent) : Prop where
  alternate : triggerEdges evs = alternating (triggerEdges evs).length
  parity : x.1.trigDown = ((triggerEdges evs).length % 2 == 1)
  down : x.1.trigDown = true → ∃ src, src.isOf x.1.cfg.trigger = true ∧ src.wheel = false ∧
    x.2 = { source := some src, released := false, upSent := false }
  up : x.1.trigDown = false → x.2.upSent = true

theorem Tracked.faithful {x : TriggerEngine × LastDown} {evs : List TriggerEvent}
    (h : Tracked x evs) : EdgesFaithful x evs := by
  refine ⟨h.alternate, fun hreleased => ?_⟩
  cases hdown : x.1.trigDown with
  | false => exact h.up hdown
  | true =>
    obtain ⟨src, -, -, hm⟩ := h.down hdown
    simp [hm] at hreleased

namespace Tracked

variable {e e' : TriggerEngine} {m m' : LastDown} {evs out : List TriggerEvent}

/-- One more edge in turn. -/
theorem alternate_next {es : List Bool} (h : es = alternating es.length) {b : Bool}
    (hb : b = (es.length % 2 == 0)) : es ++ [b] = alternating (es ++ [b]).length := by
  rw [List.length_append, List.length_singleton, alternating_succ, ← h, ← hb]

/-- A move without an edge that leaves an open Down alone. -/
theorem still (h : Tracked (e, m) evs) (hout : triggerEdges out = [])
    (hdown : e'.trigDown = e.trigDown)
    (htrigger : e.trigDown = true → ∀ src : Source,
      src.isOf e'.cfg.trigger = src.isOf e.cfg.trigger)
    (hm : e.trigDown = true → m' = m) (hup : m'.upSent = m.upSent) :
    Tracked (e', m') (evs ++ out) := by
  have hedges : triggerEdges (evs ++ out) = triggerEdges evs := by
    rw [triggerEdges_append, hout, List.append_nil]
  refine ⟨?_, ?_, fun hd => ?_, fun hd => ?_⟩
  · rw [hedges]
    exact h.alternate
  · rw [hedges]
    exact hdown.trans h.parity
  · obtain ⟨src, hof, hwheel, hsrc⟩ := h.down (hdown ▸ hd)
    exact ⟨src, (htrigger (hdown ▸ hd) src).trans hof, hwheel, (hm (hdown ▸ hd)).trans hsrc⟩
  · exact hup.trans (h.up (hdown ▸ hd))

/-- A press of the trigger. -/
theorem pressed (h : Tracked (e, m) evs) (hout : triggerEdges out = [true])
    (hoff : e.trigDown = false) (hdown : e'.trigDown = true) {src : Source}
    (hof : src.isOf e'.cfg.trigger = true) (hwheel : src.wheel = false) :
    Tracked (e', { source := some src, released := false, upSent := false }) (evs ++ out) := by
  have hedges : triggerEdges (evs ++ out) = triggerEdges evs ++ [true] := by
    rw [triggerEdges_append, hout]
  have hparity : (triggerEdges evs).length % 2 = 0 := by simpa [hoff] using h.parity
  refine ⟨?_, ?_, fun _ => ⟨src, hof, hwheel, rfl⟩, fun hd => ?_⟩
  · rw [hedges]
    exact alternate_next h.alternate (by simp [hparity])
  · rw [hedges]
    simp [hdown, Nat.add_mod, hparity]
  · exact absurd hd (by simp [hdown])

/-- The release of the trigger. -/
theorem released (h : Tracked (e, m) evs) (hout : triggerEdges out = [false])
    (hon : e.trigDown = true) (hdown : e'.trigDown = false) (hup : m'.upSent = true) :
    Tracked (e', m') (evs ++ out) := by
  have hedges : triggerEdges (evs ++ out) = triggerEdges evs ++ [false] := by
    rw [triggerEdges_append, hout]
  have hparity : (triggerEdges evs).length % 2 = 1 := by simpa [hon] using h.parity
  refine ⟨?_, ?_, fun hd => ?_, fun _ => hup⟩
  · rw [hedges]
    exact alternate_next h.alternate (by simp [hparity])
  · rw [hedges]
    simp [hdown, Nat.add_mod, hparity]
  · exact absurd hd (by simp [hdown])

/-- A wheel notch: Down and Up in one move. -/
theorem notch (h : Tracked (e, m) evs) (hout : triggerEdges out = [true, false])
    (hoff : e.trigDown = false) (hdown : e'.trigDown = false) (hup : m'.upSent = true) :
    Tracked (e', m') (evs ++ out) := by
  have hedges : triggerEdges (evs ++ out) = (triggerEdges evs ++ [true]) ++ [false] := by
    rw [triggerEdges_append, hout, List.append_assoc]
    rfl
  have hparity : (triggerEdges evs).length % 2 = 0 := by simpa [hoff] using h.parity
  refine ⟨?_, ?_, fun hd => ?_, fun _ => hup⟩
  · rw [hedges]
    refine alternate_next (alternate_next h.alternate (by simp [hparity])) ?_
    simp [Nat.add_mod, hparity]
  · rw [hedges]
    simp [hdown, hparity]
  · exact absurd hd (by simp [hdown])

/-- A release of something else leaves an open Down's record alone. -/
theorem release_other {src : Source} (h : m.source ≠ some src) : m.release src = m := by
  rw [LastDown.release, if_neg h]

theorem release_upSent (m : LastDown) (src : Source) : (m.release src).upSent = m.upSent := by
  unfold LastDown.release
  split <;> rfl

/-- A key-down or button-down. -/
theorem of_down (h : Tracked (e, m) evs) {src : Source} (hwheel : src.wheel = false) {armed : Bool}
    {r : Reply} {br : DownBranch} (hr : e.DownSpec src armed r br) :
    Tracked (r.engine, (triggerEdges r.events).foldl (LastDown.edge (some src)) m)
      (evs ++ r.events) := by
  have hstill : ∀ {sup marked swallow}, Effect e r e.trigDown sup marked [] swallow →
      Tracked (r.engine, (triggerEdges r.events).foldl (LastDown.edge (some src)) m)
        (evs ++ r.events) := by
    intro sup marked swallow hr
    rw [hr.edges]
    exact h.still hr.edges hr.trigDown (fun _ _ => by rw [hr.cfg]) (fun _ => rfl) rfl
  -- Only a press of the trigger sends an edge.
  cases br with
  | hidden => exact hstill hr
  | presses =>
    obtain ⟨hoff, hof, hr⟩ := hr
    rw [hr.edges]
    exact h.pressed hr.edges hoff hr.trigDown (by rw [hr.cfg]; exact hof) hwheel
  | repeats => exact hstill hr.2
  | passes => exact hstill hr

/-- A key-up or button-up outside captures. -/
theorem of_up (h : Tracked (e, m) evs) {src : Source} {r : Reply} (hr : e.UpSpec src r) :
    Tracked (r.engine, (triggerEdges r.events).foldl (LastDown.edge (some src)) (m.release src))
      (evs ++ r.events) := by
  unfold TriggerEngine.UpSpec at hr
  split at hr
  · next hof =>
    rw [hr.edges]
    exact h.released hr.edges (Bool.and_eq_true _ _ ▸ hof).1 hr.trigDown rfl
  · next hof =>
    rw [hr.edges]
    refine h.still hr.edges hr.trigDown (fun _ _ => by rw [hr.cfg]) (fun hon => ?_)
      (release_upSent m src)
    -- The holder of the trigger is one of its keys, so this is not its release.
    obtain ⟨src', hof', -, rfl⟩ := h.down hon
    refine release_other fun heq => hof ?_
    cases heq
    rw [Bool.and_eq_true]
    exact ⟨hon, hof'⟩

/-- An up that a capture takes: not the release of the open Down. -/
theorem of_capture (h : Tracked (e, m) evs) {src : Source} {r : Reply} {sup : Bool}
    {marked : Source → Bool} {swallow : Bool}
    (hr : Effect e r e.trigDown sup marked [] swallow)
    (hother : ¬(e.trigDown = true ∧ m.source = some src)) :
    Tracked (r.engine, (triggerEdges r.events).foldl (LastDown.edge (some src)) (m.release src))
      (evs ++ r.events) := by
  rw [hr.edges]
  refine h.still hr.edges hr.trigDown (fun _ _ => by rw [hr.cfg]) (fun hon => ?_)
    (release_upSent m src)
  exact release_other fun heq => hother ⟨hon, heq⟩

/-- A wheel notch or, with `down = false`, nothing. -/
theorem of_wheel (h : Tracked (e, m) evs) {b : MouseButton} (hb : b.wheel = true) {r : Reply}
    {sup : Bool} {marked : Source → Bool} {edges : List Bool} {swallow : Bool}
    (hr : Effect e r e.trigDown sup marked edges swallow)
    (hedges : edges = [] ∨
      edges = [true, false] ∧ (Source.button b).isOf e.cfg.trigger = true)
    {m' : LastDown} (hm : e.trigDown = true → m' = m) (hup : m'.upSent = m.upSent) :
    Tracked (r.engine, (triggerEdges r.events).foldl (LastDown.edge (some (.button b))) m')
      (evs ++ r.events) := by
  rw [hr.edges]
  rcases hedges with rfl | ⟨rfl, hof⟩
  · exact h.still hr.edges hr.trigDown (fun _ _ => by rw [hr.cfg]) hm hup
  · -- A wheel direction is the trigger, and no key or button can hold that down.
    have hoff : e.trigDown = false := by
      by_contra hon
      obtain ⟨src, hof', hwheel, -⟩ := h.down (by simpa using hon)
      rw [Source.isOf_button hof hof'] at hwheel
      exact absurd hwheel (by simp [Source.wheel, hb])
    exact h.notch hr.edges hoff (hr.trigDown.trans hoff) rfl

/-- **Every step that serves the trigger's release keeps the record.** -/
theorem step {x : TriggerEngine × LastDown} (h : Tracked x evs) {i : TriggerInput}
    (hi : Served x i) : Tracked (edgeMachine.next x i) (evs ++ edgeMachine.out x i) := by
  obtain ⟨e, m⟩ := x
  have hquiet : ∀ e' : TriggerEngine, e'.trigDown = e.trigDown → e'.cfg = e.cfg →
      Tracked (e', m) (evs ++ []) := fun e' hdown hcfg =>
    h.still rfl hdown (fun _ _ => by rw [hcfg]) (fun _ => rfl) rfl
  cases i with
  | key down vk scan ext qpc armed =>
    cases down with
    | true => exact h.of_down rfl (e.handleKey_down vk scan ext qpc armed false)
    | false =>
      by_cases hcap : e.captureState = .off
      · exact h.of_up (e.handleKey_up vk scan ext qpc armed hcap)
      · exact h.of_capture (TriggerEngine.handleKey_up_capture vk scan ext qpc armed hcap)
          fun hheld => hcap (hi hheld)
  | mouse b down onOwn qpc armed =>
    cases hb : b.wheel with
    | true =>
      obtain ⟨edges, swallow, hr, hedges⟩ := TriggerEngine.handleMouse_wheel hb down onOwn qpc armed
      cases down with
      | true => exact h.of_wheel hb hr hedges (fun _ => rfl) rfl
      | false =>
        -- The holder of an open Down is no wheel direction.
        refine h.of_wheel hb hr hedges (fun hon => ?_) (release_upSent m _)
        obtain ⟨src, -, hwheel, rfl⟩ := h.down hon
        refine release_other fun heq => ?_
        cases heq
        exact absurd hwheel (by simp [Source.wheel, hb])
    | false =>
      cases down with
      | true =>
        have hr := @TriggerEngine.handleMouse_down e b hb onOwn qpc armed
        exact h.of_down (by exact hb) hr
      | false =>
        by_cases hcap : e.captureState = .keyboardMouse
        · exact h.of_capture (TriggerEngine.handleMouse_up_capture onOwn qpc armed hcap)
            fun hheld => hi hheld hcap
        · exact h.of_up (TriggerEngine.handleMouse_up hb onOwn qpc armed hcap)
  | setConfig cfg => exact hquiet _ rfl rfl
  | applyPendingConfig =>
    cases hvalid : e.pendingValid with
    | false =>
      show Tracked (e.applyPendingConfig, m) (evs ++ [])
      rw [TriggerEngine.applyPendingConfig, if_neg (by simp [hvalid])]
      exact hquiet e rfl rfl
    | true =>
      have hsame : e.trigDown = true → e.pending.trigger.same e.cfg.trigger = true :=
        fun hon => hi ⟨hon, hvalid⟩
      show Tracked (e.applyPendingConfig, m) (evs ++ [])
      rw [TriggerEngine.applyPendingConfig, if_pos hvalid]
      -- No Down is open, or the new trigger has the same keys as the old one.
      refine h.still rfl ?_ (fun hon src => Source.isOf_same (hsame hon) src) (fun _ => rfl) rfl
      cases hon : e.trigDown with
      | true => simp [hsame hon]
      | false => rfl
  | beginCapture allowMouse => exact hquiet _ rfl rfl
  | cancelCapture => exact hquiet _ rfl rfl

end Tracked

/-! ### Every run -/

/-- Where every run starts. -/
def edgesStart : TriggerEngine × LastDown := ({}, {})

theorem Tracked.start : Tracked edgesStart [] :=
  ⟨rfl, rfl, fun h => absurd h (by simp [edgesStart]), fun _ => rfl⟩

/-- With the trigger not down the release of a key or a button sends nothing. -/
theorem up_silent {e : TriggerEngine} (hoff : e.trigDown = false) {src : Source}
    (hwheel : src.wheel = false) : triggerEdges (triggerMachine.out e src.up) = [] := by
  have hspec : ∀ {r : Reply}, e.UpSpec src r → triggerEdges r.events = [] := by
    intro r hr
    rw [TriggerEngine.UpSpec, hoff] at hr
    exact hr.edges
  cases src with
  | key vk ext =>
    by_cases hcap : e.captureState = .off
    · exact hspec (e.handleKey_up vk 0 ext 0 false hcap)
    · exact (TriggerEngine.handleKey_up_capture vk 0 ext 0 false hcap).edges
  | button b =>
    by_cases hcap : e.captureState = .keyboardMouse
    · exact (TriggerEngine.handleMouse_up_capture false 0 false hcap).edges
    · exact hspec (TriggerEngine.handleMouse_up hwheel false 0 false hcap)

/-- Once a release has been missed, the sink was not told of it. -/
theorem not_faithful {x : TriggerEngine × LastDown} {evs : List TriggerEvent}
    (hreleased : x.2.released = true) (hup : x.2.upSent = false) : ¬EdgesFaithful x evs := by
  intro h
  exact absurd (h.released hreleased) (by simp [hup])

/-- A step that takes the release away: at the latest when the holder is up, its Up is missing. -/
theorem Tracked.unserved {x : TriggerEngine × LastDown} {evs : List TriggerEvent}
    (h : Tracked x evs) {i : TriggerInput} (hi : ¬Served x i) :
    ∃ more, ∀ evs', ¬EdgesFaithful (edgeMachine.after x (i :: more)) evs' := by
  obtain ⟨e, m⟩ := x
  -- A silent release of the holder.
  have hmissed : ∀ {src : Source} {out : List TriggerEvent} {e' : TriggerEngine} {evs'},
      e.trigDown = true → m.source = some src → triggerEdges out = [] →
      ¬EdgesFaithful
        (e', (triggerEdges out).foldl (LastDown.edge (some src)) (m.release src)) evs' := by
    intro src out e' evs' hon hsource hout
    obtain ⟨src', -, -, hm⟩ := h.down hon
    rw [hout, List.foldl_nil, LastDown.release, if_pos hsource]
    refine not_faithful rfl ?_
    have hm' : m = { source := some src', released := false, upSent := false } := hm
    rw [hm']
  cases i with
  | key down vk scan ext qpc armed =>
    cases down with
    | true => exact absurd trivial hi
    | false =>
      obtain ⟨⟨hon, hsource⟩, hcap⟩ := Classical.not_imp.mp hi
      have hr := TriggerEngine.handleKey_up_capture vk scan ext qpc armed hcap
      exact ⟨[], fun evs' => hmissed hon hsource hr.edges⟩
  | mouse b down onOwn qpc armed =>
    cases down with
    | true => exact absurd trivial hi
    | false =>
      obtain ⟨⟨hon, hsource⟩, hcap⟩ := Classical.not_imp.mp hi
      have hr := @TriggerEngine.handleMouse_up_capture e b onOwn qpc armed (not_not.mp hcap)
      exact ⟨[], fun evs' => hmissed hon hsource hr.edges⟩
  | applyPendingConfig =>
    obtain ⟨⟨hon, hvalid⟩, hsame⟩ := Classical.not_imp.mp hi
    obtain ⟨src, -, hwheel, hm⟩ := h.down hon
    -- The change forgets the open Down: the holder's own release then sends nothing.
    have hoff : e.applyPendingConfig.trigDown = false := by
      rw [TriggerEngine.applyPendingConfig, if_pos hvalid]
      simp [hsame]
    refine ⟨[src.up], fun evs' => ?_⟩
    have hsilent := up_silent hoff hwheel
    have hsource : src.up.source? = some src ∧ src.up.released? = some src := by
      cases src <;> exact ⟨rfl, rfl⟩
    show ¬EdgesFaithful (_, watchEdges _ m src.up (triggerMachine.out e.applyPendingConfig src.up))
      evs'
    rw [watchEdges, hsource.1, hsource.2]
    exact hmissed hon (by rw [show m = _ from hm]) hsilent
  | setConfig cfg | beginCapture allowMouse | cancelCapture => exact absurd trivial hi

/-- **Trigger edges are faithful to the trigger** in every run that leaves the release of the
    trigger to the handlers: the edges alternate and a released trigger is up.  After a step that
    does not, the release of the trigger goes without its Up. -/
theorem trigger_edges_faithful (ins : List TriggerInput)
    (hserved : edgeMachine.Meets Served edgesStart ins) :
    EdgesFaithful (edgeMachine.after edgesStart ins) (edgeMachine.trace edgesStart ins) ∧
      ∀ i, ¬Served (edgeMachine.after edgesStart ins) i →
        ∃ more, ¬EdgesFaithful (edgeMachine.after edgesStart (ins ++ i :: more))
          (edgeMachine.trace edgesStart (ins ++ i :: more)) := by
  have h : Tracked (edgeMachine.after edgesStart ins) ([] ++ edgeMachine.trace edgesStart ins) :=
    edgeMachine.history_of_meets (fun x evs i hx hi => hx.step hi) Tracked.start hserved
  refine ⟨h.faithful, fun i hi => ?_⟩
  obtain ⟨more, hmore⟩ := h.unserved hi
  exact ⟨more, by rw [Machine.after_append]; exact hmore _⟩

/-- F6 as the trigger, pressed and released. -/
def servedPress : List TriggerInput :=
  [.setConfig { trigger := { device := .keyboard, code := 0x75 } }, .applyPendingConfig,
    .key true 0x75 0x40 false 10 true, .key false 0x75 0x40 false 20 true]

/-- F6 pressed, a binding capture begun while it is held, F6 released. -/
def capturedRelease : List TriggerInput :=
  servedPress.take 3 ++ [.beginCapture false, .key false 0x75 0x40 false 20 true]

theorem servedPress_faithful :
    EdgesFaithful (edgeMachine.after edgesStart servedPress)
        (edgeMachine.trace edgesStart servedPress) ∧
      ∃ more, ¬EdgesFaithful (edgeMachine.after edgesStart (servedPress.take 3 ++
          [.beginCapture false] ++ .key false 0x75 0x40 false 20 true :: more))
        (edgeMachine.trace edgesStart (servedPress.take 3 ++ [.beginCapture false] ++
          .key false 0x75 0x40 false 20 true :: more)) :=
  ⟨(trigger_edges_faithful servedPress (by decide +kernel)).1,
    (trigger_edges_faithful (servedPress.take 3 ++ [.beginCapture false])
      (by decide +kernel)).2 _ (by decide +kernel)⟩

/-- A capture that takes the release of the trigger: nothing holds it, and no Up is sent. -/
theorem captured_release_unserved :
    ¬ ∀ ins : List TriggerInput, EdgesFaithful (edgeMachine.after edgesStart ins)
        (edgeMachine.trace edgesStart ins) := by
  intro hall
  refine absurd ((hall capturedRelease).released ?_) ?_ <;> decide +kernel

end InfinityClicker
