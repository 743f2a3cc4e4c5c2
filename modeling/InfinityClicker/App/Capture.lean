import InfinityClicker.Core.Clock
import InfinityClicker.Trigger.LoneModifier

namespace InfinityClicker

open Machines

/-!
# Binding a key: the UI thread asks, the trigger thread answers

`App::beginCapture` names the binding it wants and makes the hooks listen; the hook that sees a key
stops listening, leaves the chord under a lock and posts a message; `App::applyCaptured` binds it.
The two threads share `captureState_`, `captured_` and `capturedValid_`, and nothing makes these
three change together.

* `KeyCapture` — the application, its trigger engine and the two calls in hand;
* `captureMachine` — the two threads in any interleaving;
* `KeyCapture.thread_alone` — a hook's callback that nothing interrupts is the engine's handler;
* `Asked` — what the events so far have asked for and got;
* `capture_sound` — what is bound was asked for, and answered since;
* `KeyCapture.Met`, `KeyCapture.Apart` — why at rest the hooks listen for what is asked for, and
  for nothing else;
* `KeyCapture.Met.settles` — which requests leave the hooks listening for nobody;
* `capture_agrees` — the two together, over every run.
-/

/-! ### The two threads -/

/-- `CaptureTarget`. -/
inductive CaptureTarget where
  | none
  | trigger
  | action
  | emergency
deriving DecidableEq, Repr

/-- A piece of the callback of a hook that has found its chord. -/
inductive CallbackStep where
  /-- `captureState_.store(0)`. -/
  | storeOff
  /-- `App::onCaptured`, of it what it does under the lock. -/
  | note (c : KeyChord)
  /-- `PostMessageW` of `WM_APP_CAPTURED`. -/
  | post
deriving DecidableEq, Repr

/-- The application and its trigger engine, of them what a captured chord goes through.  The UI
    window is open: no view can ask for a chord before. -/
structure KeyCapture where
  engine : TriggerEngine := {}
  /-- What is left of the callback the trigger thread is in. -/
  callback : List CallbackStep := []
  captured : KeyChord := {}
  capturedValid : Bool := false
  /-- The `WM_APP_CAPTURED` messages that wait for the UI thread. -/
  inbox : ℕ := 0
  captureTarget : CaptureTarget := .none
  captureDeadline : ℤ := 0
  /-- What `applyConfigs` sends, with the profile's trigger and the settings' emergency stop. -/
  config : TriggerConfig := {}
  /-- `profile().action.chord`. -/
  action : KeyChord := {}
  /-- The calls of the trigger engine that the UI thread's call still has to make. -/
  todo : List TriggerInput := []

/-- What happens next. -/
inductive CaptureAct where
  | beginCapture (t : CaptureTarget) (now : ℤ)
  | cancelCapture
  | tick (now : ℤ)
  /-- `profileChanged`, with what the active profile and the settings are now. -/
  | profileChanged (config : TriggerConfig) (action : KeyChord)
  /-- `WM_APP_CAPTURED` is dispatched. -/
  | message
  /-- The UI thread goes on with its call. -/
  | ui
  /-- The trigger thread takes an event or a pending configuration. -/
  | thread (i : TriggerInput)
  /-- The trigger thread goes on with its callback. -/
  | go

/-- What the two threads show of their moves. -/
inductive CaptureEvent where
  | begun (t : CaptureTarget)
  | cancelled
  | edited (config : TriggerConfig) (action : KeyChord)
  | noted (c : KeyChord)
  | bound (t : CaptureTarget) (c : KeyChord)
  /-- The chord cannot be the emergency stop. -/
  | refused (c : KeyChord)
  /-- Nobody asks for the chord any more. -/
  | dropped (c : KeyChord)
deriving DecidableEq, Repr

/-- `c.isMouse() && c.button() == MouseButton::Left && !c.mods`. -/
def KeyChord.bareLeft (c : KeyChord) : Bool :=
  c.isMouse && c.code == MouseButton.left.code && c.mods == 0

namespace KeyCapture

variable (P : Platform) (k : KeyCapture)

/-- A handler up to its store to `captureState_`: nothing else of the engine is another thread's,
    so that only this store and what follows it are left for later. -/
def hook (r : Reply) : KeyCapture :=
  match capturedChords r.events with
  | c :: _ =>
    { k with
      engine := { r.engine with captureState := k.engine.captureState }
      callback := [.storeOff, .note c, .post] }
  | [] => { k with engine := r.engine }

/-- The trigger thread takes what it finds next. -/
def take : TriggerInput → KeyCapture
  | .key down vk scan ext qpc armed => k.hook (k.engine.handleKey down vk scan ext qpc armed)
  | .mouse b down onOwn qpc armed => k.hook (k.engine.handleMouse b down onOwn qpc armed)
  | .applyPendingConfig => { k with engine := k.engine.applyPendingConfig }
  -- The other inputs are calls from the UI thread.
  | .setConfig _ | .beginCapture _ | .cancelCapture => k

/-- The trigger thread goes on with its callback. -/
def go : KeyCapture × List CaptureEvent :=
  match k.callback with
  | [] => (k, [])
  | .storeOff :: cs =>
    ({ k with engine := { k.engine with captureState := .off }, callback := cs }, [])
  | .note c :: cs => ({ k with captured := c, capturedValid := true, callback := cs }, [.noted c])
  | .post :: cs => ({ k with inbox := k.inbox + 1, callback := cs }, [])

/-- `App::applyConfigs` as this loop sees it: the program's configuration goes to the trigger. -/
def applyConfigs : KeyCapture := { k with todo := [.setConfig k.config] }

/-- `App::beginCapture`: asks for a chord, with a deadline eight seconds ahead. -/
def beginCapture (t : CaptureTarget) (now : ℤ) : KeyCapture × List CaptureEvent :=
  ({ k with
      capturedValid := false
      captureTarget := t
      captureDeadline := now + Clk.secToTicks P 8
      todo := [.beginCapture true] }, [.begun t])

/-- `App::cancelCapture`: forgets the request and takes the trigger out of capture mode. -/
def cancelCapture : KeyCapture × List CaptureEvent :=
  ({ k with captureTarget := .none, todo := [.cancelCapture] }, [.cancelled])

/-- `tick`, of it what happens to a capture. -/
def tick (now : ℤ) : KeyCapture × List CaptureEvent :=
  if k.captureTarget ≠ .none ∧ k.captureDeadline < now then k.cancelCapture else (k, [])

/-- An edit on the profile pages, which writes both chords and hands the configuration on. -/
def profileChanged (config : TriggerConfig) (action : KeyChord) :
    KeyCapture × List CaptureEvent :=
  ({ k with config := config, action := action }.applyConfigs, [.edited config action])

/-- `App::applyCaptured`: the chord the trigger reported goes where it was asked for. -/
def applyCaptured : KeyCapture × List CaptureEvent :=
  if k.capturedValid then
    let c := k.captured
    let k' := { k with capturedValid := false, captureTarget := .none }
    match k.captureTarget with
    | .trigger =>
      ({ k' with config := { k.config with trigger := c } }.applyConfigs, [.bound .trigger c])
    | .action => ({ k' with action := c }.applyConfigs, [.bound .action c])
    | .emergency =>
      if c.bareLeft then (k', [.refused c])
      else
        ({ k' with config := { k.config with emergency := c } }.applyConfigs,
          [.bound .emergency c])
    | .none => (k', [.dropped c])
  else (k, [])

/-- The UI thread goes on: its call makes the next of its calls of the trigger engine. -/
def ui : KeyCapture :=
  match k.todo with
  | [] => k
  | i :: is => { k with engine := triggerMachine.next k.engine i, todo := is }

/-- A call on the UI thread begins when the one before it has returned. -/
def whenFree (r : KeyCapture × List CaptureEvent) : KeyCapture × List CaptureEvent :=
  if k.todo = [] then r else (k, [])

/-- One move of the UI thread or of the trigger thread. A pass of the frame loop starts only when
    the calls of the pass before it are through. -/
def step : CaptureAct → KeyCapture × List CaptureEvent
  | .beginCapture t now => k.whenFree (k.beginCapture P t now)
  | .cancelCapture => k.whenFree k.cancelCapture
  | .tick now => k.whenFree (k.tick now)
  | .profileChanged config action => k.whenFree (k.profileChanged config action)
  | .message =>
    if 0 < k.inbox then k.whenFree { k with inbox := k.inbox - 1 }.applyCaptured else (k, [])
  | .ui => (k.ui, [])
  | .thread i => if k.callback = [] then (k.take i, []) else (k, [])
  | .go => k.go

/-- The window opens: the active profile's bindings are what the hooks were told. -/
def start (config : TriggerConfig) (action : KeyChord) : KeyCapture :=
  { engine := { cfg := config }, config := config, action := action }

end KeyCapture

/-- The UI thread and the trigger thread. -/
def captureMachine (P : Platform) : Machine KeyCapture CaptureAct CaptureEvent where
  step k a := k.step P a

/-! ### A callback on its own -/

/-- A handler ends the capture with the one chord it hands on, or leaves it as it was. -/
def Reply.Captures (e : TriggerEngine) (r : Reply) : Prop :=
  (∃ c, capturedChords r.events = [c] ∧ r.engine.captureState = .off) ∨
    capturedChords r.events = [] ∧ r.engine.captureState = e.captureState

namespace TriggerEngine

variable {e : TriggerEngine}

/-- A call that leaves the capture alone reports nothing. -/
theorem SameCapture.captures {r : Reply} (h : SameCapture e r.engine r.events) : r.Captures e :=
  .inr ⟨h.captured, h.captureState⟩

/-- A configuration leaves the capture alone. -/
theorem applyPendingConfig_captureState :
    e.applyPendingConfig.captureState = e.captureState := by
  rw [applyPendingConfig]
  split <;> rfl

/-- A modifier captured on its own comes back as one chord. -/
theorem captureModifier_captured {vk : Vk} (h : e.captureModVk = vk) :
    ∃ c, capturedChords ((e.captureModifier vk).calls.map .call) = [c] := by
  rw [captureModifier, if_pos h]
  exact ⟨_, rfl⟩

/-- A key event reports a chord only while a capture runs, and then ends it. -/
theorem handleKey_captures (down : Bool) (vk : Vk) (scan : BitVec 16) (ext : Bool) (qpc : ℤ)
    (armed : Bool) : (e.handleKey down vk scan ext qpc armed).Captures e := by
  -- Outside a capture nothing is handed on; in one a modifier is only remembered until it goes up.
  by_cases hcap : e.captureState = .off
  · exact (handleKey_off hcap down vk scan ext qpc armed).captures
  · cases down with
    | true =>
      cases hmod : isModifierVk (vk.setWidth 16) with
      | true =>
        obtain ⟨hstate, -, hnone⟩ := handleKey_modifier hcap hmod scan ext qpc armed
        exact .inr ⟨hnone, hstate⟩
      | false =>
        have hone : ∃ c, capturedChords (e.handleKey true vk scan ext qpc armed).events = [c] := by
          rw [capturedChords_events, handleKey, if_pos (by exact hcap), captureKey, if_pos rfl,
            if_neg (by simp [hmod])]
          exact ⟨_, rfl⟩
        obtain ⟨c, hc⟩ := hone
        exact .inl ⟨c, hc, (handleKey_captured hcap hmod scan ext qpc armed).1⟩
    | false =>
      by_cases hvk : e.captureModVk = vk
      · have hone : ∃ c, capturedChords (e.handleKey false vk scan ext qpc armed).events = [c] := by
          rw [capturedChords_events, handleKey, if_pos (by exact hcap), captureKey,
            if_neg (by simp)]
          dsimp only
          split
          · exact captureModifier_captured hvk
          · exact captureModifier_captured hvk
        obtain ⟨c, hc⟩ := hone
        exact .inl ⟨c, hc, (handleKey_lone hcap hvk scan ext qpc armed).1⟩
      · exact (handleKey_up_other hcap hvk scan ext qpc armed).captures

/-- A mouse event reports a chord only while a capture runs, and then ends it. -/
theorem handleMouse_captures (b : MouseButton) (down onOwn : Bool) (qpc : ℤ) (armed : Bool) :
    (e.handleMouse b down onOwn qpc armed).Captures e := by
  by_cases htakes : down = true ∧ e.takesPress b onOwn
  · obtain ⟨rfl, htakes⟩ := htakes
    refine .inl ⟨.mouse b e.physMods, ?_, (handleMouse_taken htakes qpc armed).1⟩
    rw [capturedChords_events, handleMouse, if_pos htakes.1, if_neg htakes.2, if_pos rfl]
    rfl
  · exact (handleMouse_untaken (fun hdown h => htakes ⟨hdown, h⟩) qpc armed).captures

end TriggerEngine

namespace KeyCapture

variable (P : Platform) {k : KeyCapture}

/-- A hook's handler: it finds its chord, or it is done. -/
theorem hook_moves {r : Reply} (hcaptures : r.Captures k.engine)
    (htold : r.engine.told = k.engine.told) :
    ∃ e', e'.captureState = k.engine.captureState ∧ e'.told = k.engine.told ∧
      (k.hook r = { k with engine := e' } ∨
        ∃ c, k.hook r = { k with engine := e', callback := [.storeOff, .note c, .post] }) := by
  rcases hcaptures with ⟨c, hc, -⟩ | ⟨hnone, hstate⟩
  · refine ⟨{ r.engine with captureState := k.engine.captureState }, rfl, htold, .inr ⟨c, ?_⟩⟩
    simp [hook, hc]
  · refine ⟨r.engine, hstate, htold, .inl ?_⟩
    simp [hook, hnone]

/-- The trigger thread takes an event or the pending configuration: of what the threads share it
    touches only the configuration it takes. -/
theorem take_moves (i : TriggerInput) :
    ∃ e', e'.captureState = k.engine.captureState ∧
      (e'.told = k.engine.told ∨ e'.told = k.engine.applyPendingConfig.told) ∧
      (k.take i = { k with engine := e' } ∨
        ∃ c, k.take i = { k with engine := e', callback := [.storeOff, .note c, .post] }) := by
  cases i with
  | key down vk scan ext qpc armed =>
    obtain ⟨e', hstate, htold, h⟩ := @hook_moves k _
      (TriggerEngine.handleKey_captures down vk scan ext qpc armed)
      (TriggerEngine.handleKey_told down vk scan ext qpc armed)
    exact ⟨e', hstate, .inl htold, h⟩
  | mouse b down onOwn qpc armed =>
    obtain ⟨e', hstate, htold, h⟩ := @hook_moves k _
      (TriggerEngine.handleMouse_captures b down onOwn qpc armed)
      (TriggerEngine.handleMouse_told b down onOwn qpc armed)
    exact ⟨e', hstate, .inl htold, h⟩
  | applyPendingConfig =>
    exact ⟨_, TriggerEngine.applyPendingConfig_captureState, .inr rfl, .inl rfl⟩
  | _ => exact ⟨k.engine, rfl, .inl rfl, .inl rfl⟩

/-- A hook's callback that nothing interrupts leaves the engine as its handler does, and notes
    the chord that the handler hands on. -/
theorem hook_alone {r : Reply} (hcaptures : r.Captures k.engine) (hfree : k.callback = []) :
    ((captureMachine P).after (k.hook r) [.go, .go, .go]).engine = r.engine ∧
      (captureMachine P).trace (k.hook r) [.go, .go, .go] =
        (capturedChords r.events).map .noted := by
  rcases hcaptures with ⟨c, hc, hoff⟩ | ⟨hnone, -⟩
  -- The three pieces of the callback make up for the store that `hook` left out.
  · have hhook : k.hook r = { k with
        engine := { r.engine with captureState := k.engine.captureState }
        callback := [.storeOff, .note c, .post] } := by
      simp [hook, hc]
    have hengine : { r.engine with captureState := .off } = r.engine := by
      rw [← hoff]
    rw [hhook, hc]
    exact ⟨hengine, rfl⟩
  · have hhook : k.hook r = { k with engine := r.engine } := by simp [hook, hnone]
    have hgo : (captureMachine P).step { k with engine := r.engine } .go =
        ({ k with engine := r.engine }, []) := by
      show go { k with engine := r.engine } = _
      simp [go, hfree]
    rw [hhook, hnone]
    simp [Machine.next, Machine.out, hgo]

/-- The events a hook gets, and the configuration the trigger thread takes. -/
def ofThread : TriggerInput → Bool
  | .key .. | .mouse .. | .applyPendingConfig => true
  | .setConfig _ | .beginCapture _ | .cancelCapture => false

/-- The trigger thread on its own is the trigger engine. -/
theorem thread_alone (hfree : k.callback = []) {i : TriggerInput} (hi : ofThread i = true) :
    ((captureMachine P).after k [.thread i, .go, .go, .go]).engine =
        triggerMachine.next k.engine i ∧
      (captureMachine P).trace k [.thread i, .go, .go, .go] =
        (capturedChords (triggerMachine.out k.engine i)).map .noted := by
  have htake : (captureMachine P).step k (.thread i) = (k.take i, []) := if_pos hfree
  rw [Machine.after_cons, Machine.trace_cons, Machine.next, Machine.out, htake, List.nil_append]
  cases i with
  | key down vk scan ext qpc armed =>
    exact hook_alone P (TriggerEngine.handleKey_captures down vk scan ext qpc armed) hfree
  | mouse b down onOwn qpc armed =>
    exact hook_alone P (TriggerEngine.handleMouse_captures b down onOwn qpc armed) hfree
  | applyPendingConfig =>
    exact @hook_alone P k { engine := k.engine.applyPendingConfig }
      (.inr ⟨rfl, TriggerEngine.applyPendingConfig_captureState⟩) hfree
  | _ => simp [ofThread] at hi

end KeyCapture

/-! ### What is bound was asked for -/

namespace CaptureEvent

/-- The event neither asks for a chord nor answers. -/
def quiet : CaptureEvent → Bool
  | .edited _ _ | .noted _ => true
  | _ => false

/-- The chord that an event of the log says the trigger reported. -/
def noted? : CaptureEvent → Option KeyChord
  | .noted c => some c
  | _ => none

/-- The bindings after an event: the configuration for the hooks, and the action's chord. -/
def rebind (b : TriggerConfig × KeyChord) : CaptureEvent → TriggerConfig × KeyChord
  | .edited config action => (config, action)
  | .bound .trigger c => ({ b.1 with trigger := c }, b.2)
  | .bound .action c => (b.1, c)
  | .bound .emergency c => ({ b.1 with emergency := c }, b.2)
  | _ => b

end CaptureEvent

/-- The last request of the events is for `t`, and `since` neither repeats nor answers it. -/
def Asked (evs : List CaptureEvent) (t : CaptureTarget) (since : List CaptureEvent) : Prop :=
  (∃ before, evs = before ++ .begun t :: since) ∧ ∀ e ∈ since, e.quiet = true

/-- The last request of the events is for `t`, and `c` is the last chord noted since. -/
def Answered (evs : List CaptureEvent) (t : CaptureTarget) (c : KeyChord) : Prop :=
  ∃ since, Asked evs t since ∧ (since.filterMap CaptureEvent.noted?).getLast? = some c

/-- Every binding was asked for and answered, and none makes a plain left click the emergency
    stop. -/
def Licensed (evs : List CaptureEvent) : Prop :=
  ∀ before t c later, evs = before ++ .bound t c :: later →
    Answered before t c ∧ (t = .emergency → c.bareLeft = false)

/-- An event that neither asks nor answers leaves the last request as it was. -/
theorem Asked.push {evs since : List CaptureEvent} {t : CaptureTarget} {e : CaptureEvent}
    (h : Asked evs t since) (he : e.quiet = true) : Asked (evs ++ [e]) t (since ++ [e]) := by
  obtain ⟨⟨before, rfl⟩, hquiet⟩ := h
  refine ⟨⟨before, by simp⟩, ?_⟩
  intro e' he'
  rcases List.mem_append.mp he' with hold | hnew
  · exact hquiet e' hold
  · rw [List.mem_singleton.mp hnew]
    exact he

/-- A log stays licensed under one more event, when a binding at its end is. -/
theorem Licensed.push {evs : List CaptureEvent} {e : CaptureEvent} (h : Licensed evs)
    (he : ∀ t c, e = .bound t c → Answered evs t c ∧ (t = .emergency → c.bareLeft = false)) :
    Licensed (evs ++ [e]) := by
  intro before t c later heq
  rcases List.eq_nil_or_concat later with rfl | ⟨later', x, rfl⟩
  -- The binding is the new event, or it stands before it.
  · obtain ⟨rfl, hlast⟩ := List.append_inj' heq rfl
    exact he t c (List.cons.inj hlast).1
  · rw [List.concat_eq_append, ← List.cons_append, ← List.append_assoc] at heq
    exact h before t c later' (List.append_inj' heq rfl).1

/-- The configuration that holds once the engine has taken what it was told. -/
def TriggerEngine.latest (e : TriggerEngine) : TriggerConfig :=
  if e.pendingValid then e.pending else e.cfg

/-- A trigger that was told the same ends up with the same configuration. -/
theorem TriggerEngine.latest_of_told {e e' : TriggerEngine} (h : e'.told = e.told) :
    e'.latest = e.latest := by
  simp only [TriggerEngine.told, Prod.mk.injEq] at h
  rw [latest, latest, h.1, h.2.1, h.2.2]

/-- Taking over a waiting configuration does not change the configuration heard last. -/
theorem TriggerEngine.applyPendingConfig_latest (e : TriggerEngine) :
    e.applyPendingConfig.latest = e.latest := by
  rw [applyPendingConfig, latest, latest]
  cases h : e.pendingValid <;> simp [h]

namespace KeyCapture

/-- The engine was told of the bindings, or the call in hand is about to tell it. -/
def Told (k : KeyCapture) : Prop :=
  k.todo = [.setConfig k.config] ∨
    (k.todo = [] ∨ k.todo = [.beginCapture true] ∨ k.todo = [.cancelCapture]) ∧
      k.engine.latest = k.config

/-- What the events so far say about the state, with the bindings `b` at the start. -/
structure Sound (b : TriggerConfig × KeyChord) (k : KeyCapture) (evs : List CaptureEvent) :
    Prop where
  asked : k.captureTarget ≠ .none → ∃ since, Asked evs k.captureTarget since ∧
    (k.capturedValid = true →
      (since.filterMap CaptureEvent.noted?).getLast? = some k.captured)
  licensed : Licensed evs
  replayed : (k.config, k.action) = evs.foldl CaptureEvent.rebind b
  told : k.Told

/-- Once nothing is on its way, the trigger has the program's configuration. -/
theorem Told.latest {k : KeyCapture} (h : k.Told) (hfree : k.todo = []) :
    k.engine.latest = k.config := by
  rcases h with hset | ⟨-, hlatest⟩
  · simp [hfree] at hset
  · exact hlatest

namespace Sound

variable {P : Platform} {b : TriggerConfig × KeyChord} {k : KeyCapture} {evs : List CaptureEvent}

/-- A program that has just started has asked for nothing. -/
theorem start (config : TriggerConfig) (action : KeyChord) :
    Sound (config, action) (KeyCapture.start config action) [] := by
  refine ⟨fun h => absurd rfl h, ?_, rfl, .inr ⟨.inl rfl, rfl⟩⟩
  intro before t c later heq
  simp at heq

/-- The trigger engine and the callback go on, and nothing is said. -/
theorem engine (h : Sound b k evs) {k' : KeyCapture}
    (heq : k' = { k with engine := k'.engine, callback := k'.callback, inbox := k'.inbox })
    (hlatest : k'.engine.latest = k.engine.latest) : Sound b k' evs := by
  rw [heq]
  refine ⟨h.asked, h.licensed, h.replayed, ?_⟩
  rcases h.told with htodo | ⟨htodo, htold⟩
  · exact .inl htodo
  · exact .inr ⟨htodo, hlatest.trans htold⟩

/-- A move that says one thing. -/
theorem say (h : Sound b k evs) {k' : KeyCapture} {e : CaptureEvent}
    (hasked : k'.captureTarget ≠ .none → ∃ since, Asked (evs ++ [e]) k'.captureTarget since ∧
      (k'.capturedValid = true →
        (since.filterMap CaptureEvent.noted?).getLast? = some k'.captured))
    (hlicense : ∀ t c, e = .bound t c → Answered evs t c ∧ (t = .emergency → c.bareLeft = false))
    (hrebind : (k'.config, k'.action) = CaptureEvent.rebind (k.config, k.action) e)
    (htold : k'.Told) : Sound b k' (evs ++ [e]) := by
  refine ⟨hasked, h.licensed.push hlicense, ?_, htold⟩
  rw [List.foldl_append, ← h.replayed, hrebind]
  rfl

/-- Asking for a chord keeps the account of who asked for what. -/
theorem beginCapture (h : Sound b k evs) (hfree : k.todo = []) (t : CaptureTarget) (now : ℤ) :
    Sound b (k.beginCapture P t now).1 (evs ++ (k.beginCapture P t now).2) := by
  refine h.say ?_ ?_ rfl (.inr ⟨.inr (.inl rfl), h.told.latest hfree⟩)
  · intro _
    exact ⟨[], ⟨⟨evs, rfl⟩, by simp⟩, fun hvalid => absurd hvalid Bool.false_ne_true⟩
  · intro t c he
    cases he

/-- A cancelled request is no longer owed an answer. -/
theorem cancelCapture (h : Sound b k evs) (hfree : k.todo = []) :
    Sound b k.cancelCapture.1 (evs ++ k.cancelCapture.2) := by
  refine h.say (fun ht => absurd rfl ht) ?_ rfl (.inr ⟨.inr (.inr rfl), h.told.latest hfree⟩)
  intro t c he
  cases he

/-- A request that runs out of time is no longer owed an answer. -/
theorem tick (h : Sound b k evs) (hfree : k.todo = []) (now : ℤ) :
    Sound b (k.tick now).1 (evs ++ (k.tick now).2) := by
  unfold KeyCapture.tick
  split
  · exact h.cancelCapture hfree
  · rw [List.append_nil]
    exact h

/-- A request stays open while the bindings are edited. -/
theorem profileChanged (h : Sound b k evs) (config : TriggerConfig) (action : KeyChord) :
    Sound b (k.profileChanged config action).1 (evs ++ (k.profileChanged config action).2) := by
  refine h.say ?_ ?_ rfl (.inl rfl)
  · intro ht
    obtain ⟨since, hasked, hlast⟩ := h.asked ht
    refine ⟨since ++ [.edited config action], hasked.push rfl, ?_⟩
    intro hvalid
    rw [List.filterMap_append]
    exact (congrArg List.getLast? (List.append_nil _)).trans (hlast hvalid)
  · intro t c he
    cases he

/-- A chord that is dispatched ends the request it is for. -/
theorem applyCaptured (h : Sound b k evs) (hfree : k.todo = []) :
    Sound b k.applyCaptured.1 (evs ++ k.applyCaptured.2) := by
  have hanswered : k.capturedValid = true → k.captureTarget ≠ .none →
      Answered evs k.captureTarget k.captured := by
    intro hvalid ht
    obtain ⟨since, hasked, hlast⟩ := h.asked ht
    exact ⟨since, hasked, hlast hvalid⟩
  unfold KeyCapture.applyCaptured
  cases hvalid : k.capturedValid with
  | false =>
    rw [if_neg (by simp), List.append_nil]
    exact h
  | true =>
    rw [if_pos rfl]
    cases ht : k.captureTarget with
    -- A chord nobody asks for any more is dropped.
    | none =>
      refine h.say (fun ht' => absurd rfl ht') ?_ rfl (.inr ⟨.inl hfree, h.told.latest hfree⟩)
      intro t c he
      cases he
    | trigger =>
      refine h.say (fun ht' => absurd rfl ht') ?_ rfl (.inl rfl)
      intro t c he
      cases he
      exact ⟨ht ▸ hanswered hvalid (by simp [ht]), by simp⟩
    | action =>
      refine h.say (fun ht' => absurd rfl ht') ?_ rfl (.inl rfl)
      intro t c he
      cases he
      exact ⟨ht ▸ hanswered hvalid (by simp [ht]), by simp⟩
    | emergency =>
      -- A bare left button cannot be the emergency stop; the request ends without an answer.
      cases hleft : k.captured.bareLeft with
      | true =>
        simp only [hleft, if_true]
        refine h.say (fun ht' => absurd rfl ht') ?_ rfl (.inr ⟨.inl hfree, h.told.latest hfree⟩)
        intro t c he
        cases he
      | false =>
        simp only [hleft, Bool.false_eq_true, if_false]
        refine h.say (fun ht' => absurd rfl ht') ?_ rfl (.inl rfl)
        intro t c he
        cases he
        exact ⟨ht ▸ hanswered hvalid (by simp [ht]), fun _ => hleft⟩

/-- The chord of a callback is noted: it is the last one since any open request. -/
theorem go (h : Sound b k evs) : Sound b k.go.1 (evs ++ k.go.2) := by
  unfold KeyCapture.go
  split
  · rw [List.append_nil]
    exact h
  · rw [List.append_nil]
    exact h.engine rfl rfl
  · next c cs _ =>
    refine h.say ?_ ?_ rfl h.told
    · intro ht
      obtain ⟨since, hasked, -⟩ := h.asked ht
      refine ⟨since ++ [.noted c], hasked.push rfl, ?_⟩
      intro _
      rw [List.filterMap_append]
      simp [CaptureEvent.noted?]
    · intro t c he
      cases he
  · rw [List.append_nil]
    exact h.engine rfl rfl

/-- A pass of the frame loop keeps the account. -/
theorem ui (h : Sound b k evs) : Sound b k.ui evs := by
  unfold KeyCapture.ui
  split
  · exact h
  · next i is htodo =>
    refine ⟨h.asked, h.licensed, h.replayed, ?_⟩
    rcases h.told with hset | ⟨hother, hlatest⟩
    -- `setConfig` tells the engine of the bindings; the other two calls change no configuration.
    · obtain ⟨rfl, rfl⟩ := List.cons.inj (htodo.symm.trans hset)
      exact .inr ⟨.inl rfl, rfl⟩
    · rcases hother with hnil | hbegin | hcancel
      · simp [htodo] at hnil
      · obtain ⟨rfl, rfl⟩ := List.cons.inj (htodo.symm.trans hbegin)
        exact .inr ⟨.inl rfl, hlatest⟩
      · obtain ⟨rfl, rfl⟩ := List.cons.inj (htodo.symm.trans hcancel)
        exact .inr ⟨.inl rfl, hlatest⟩

/-- Every move keeps the account. -/
theorem step (h : Sound b k evs) (a : CaptureAct) :
    Sound b (k.step P a).1 (evs ++ (k.step P a).2) := by
  have hcall : ∀ r : KeyCapture × List CaptureEvent,
      (k.todo = [] → Sound b r.1 (evs ++ r.2)) →
      Sound b (k.whenFree r).1 (evs ++ (k.whenFree r).2) := by
    intro r hr
    unfold whenFree
    split
    · next hfree => exact hr hfree
    · rw [List.append_nil]
      exact h
  cases a with
  | beginCapture t now => exact hcall _ fun hfree => h.beginCapture hfree t now
  | cancelCapture => exact hcall _ fun hfree => h.cancelCapture hfree
  | tick now => exact hcall _ fun hfree => h.tick hfree now
  | profileChanged config action => exact hcall _ fun _ => h.profileChanged config action
  | message =>
    unfold KeyCapture.step
    dsimp only
    split
    · refine hcall _ fun hfree => ?_
      have hmessage : Sound b { k with inbox := k.inbox - 1 } evs := h.engine rfl rfl
      exact hmessage.applyCaptured hfree
    · rw [List.append_nil]
      exact h
  | ui =>
    rw [show (k.step P .ui).2 = [] from rfl, List.append_nil]
    exact h.ui
  | go => exact h.go
  | thread i =>
    unfold KeyCapture.step
    dsimp only
    obtain ⟨e', -, htold, htake⟩ := @take_moves k i
    have hlatest : e'.latest = k.engine.latest := by
      -- Taking the pending configuration is no news to `latest`.
      rcases htold with htold | htold
      · exact TriggerEngine.latest_of_told htold
      · rw [TriggerEngine.latest_of_told htold, TriggerEngine.applyPendingConfig_latest]
    split
    · rw [List.append_nil]
      rcases htake with htake | ⟨c, htake⟩
      · rw [htake]
        exact h.engine rfl hlatest
      · rw [htake]
        exact h.engine rfl hlatest
    · rw [List.append_nil]
      exact h

end Sound

end KeyCapture

/-- **What is bound was asked for.**  In every interleaving of the two threads each binding answers
    the last request, with the last chord noted since, and nothing was bound, cancelled or refused
    in between; the bindings are the edits and captures in their order, and the hooks are told of
    them before the next call. -/
theorem capture_sound (P : Platform) (config : TriggerConfig) (action : KeyChord)
    (acts : List CaptureAct) :
    let k := (captureMachine P).after (KeyCapture.start config action) acts
    let evs := (captureMachine P).trace (KeyCapture.start config action) acts
    Licensed evs ∧ (k.config, k.action) = evs.foldl CaptureEvent.rebind (config, action) ∧
      (k.todo = [] → k.engine.latest = k.config) := by
  have h := (captureMachine P).history (I := KeyCapture.Sound (config, action))
    (fun k evs a h => h.step a) (KeyCapture.Sound.start config action) acts
  exact ⟨h.licensed, h.replayed, h.told.latest⟩

/-! ### Listening for what is asked for -/

namespace KeyCapture

section

variable (k : KeyCapture)

/-- The hooks capture keys and buttons. -/
def Listening : Prop := k.engine.captureState = .keyboardMouse

/-- Both threads have returned from their calls, and no message waits. -/
def AtRest : Prop := k.todo = [] ∧ k.callback = [] ∧ k.inbox = 0

/-- A chord that has already ended the listening is on its way to the UI thread. -/
def Loose : Prop := k.capturedValid = true ∨ ∃ c, k.callback = [.note c, .post]

/-- A chord is on its way that has ended the listening, and no hook is about to end it again. -/
def Strands : Prop := k.Loose ∧ ∀ c, k.callback ≠ [.storeOff, .note c, .post]

/-- Every request asks for a binding, and makes the hooks listen with no chord on its way. -/
def Uncrossed : CaptureAct → Prop
  | .beginCapture t _ => t ≠ .none
  | .ui => k.todo = [.beginCapture true] → ¬k.Loose
  | _ => True

/-- Why a request is not forgotten: a noted chord has its message, and as long as something is
    asked for the hooks listen, or are about to, or have their chord on its way. -/
structure Met : Prop where
  calls : k.todo = [] ∨ k.todo = [.beginCapture true] ∨
    k.todo = [.cancelCapture] ∧ k.captureTarget = .none ∨ ∃ config, k.todo = [.setConfig config]
  shape : k.callback = [] ∨ (∃ c, k.callback = [.storeOff, .note c, .post]) ∨
    (∃ c, k.callback = [.note c, .post]) ∨ k.callback = [.post]
  owed : k.capturedValid = true → k.callback = [.post] ∨ 0 < k.inbox
  asked : k.captureTarget ≠ .none → k.Listening ∨ k.todo = [.beginCapture true] ∨ k.Loose

/-- Why the hooks do not listen for nobody, as long as requests are uncrossed. -/
structure Apart : Prop where
  loose : k.engine.captureState ≠ .off → ¬k.Loose
  wanted : k.engine.captureState ≠ .off →
    k.captureTarget ≠ .none ∨ k.todo = [.cancelCapture]
  asking : k.todo = [.beginCapture true] → k.captureTarget ≠ .none

end

namespace Met

variable {P : Platform} {k : KeyCapture}

/-- At the start no promise is open. -/
theorem start (config : TriggerConfig) (action : KeyChord) : (start config action).Met :=
  ⟨.inl rfl, .inl rfl, fun h => absurd h Bool.false_ne_true, fun h => absurd rfl h⟩

/-- A call leaves the callback alone, and what it asks for it is about to listen for. -/
theorem call (h : k.Met) {k' : KeyCapture}
    (hcalls : k'.todo = [] ∨ k'.todo = [.beginCapture true] ∨
      k'.todo = [.cancelCapture] ∧ k'.captureTarget = .none ∨
      ∃ config, k'.todo = [.setConfig config])
    (hcallback : k'.callback = k.callback)
    (howed : k'.capturedValid = true → k.capturedValid = true ∧ k.inbox ≤ k'.inbox)
    (hasked : k'.captureTarget ≠ .none → k'.todo = [.beginCapture true] ∨
      k'.captureTarget = k.captureTarget ∧ k'.engine = k.engine ∧
        k'.capturedValid = k.capturedValid ∧ k.todo = []) : k'.Met := by
  refine ⟨hcalls, hcallback ▸ h.shape, ?_, ?_⟩
  · intro hvalid
    obtain ⟨hvalid', hle⟩ := howed hvalid
    rcases h.owed hvalid' with hpost | hpos
    · exact .inl (hcallback.trans hpost)
    · exact .inr (by omega)
  · intro ht
    rcases hasked ht with htodo | ⟨htarget, hengine, hvalid, hfree⟩
    · exact .inr (.inl htodo)
    · rw [Listening, Loose, hengine, hvalid, hcallback]
      rcases h.asked (htarget ▸ ht) with hon | hbegin | hloose
      · exact .inl hon
      · simp [hfree] at hbegin
      · exact .inr (.inr hloose)

/-- A request that runs out of time leaves no promise behind. -/
theorem tick (h : k.Met) (now : ℤ) : (k.tick now).1.Met := by
  unfold KeyCapture.tick
  split
  · exact h.call (.inr (.inr (.inl ⟨rfl, rfl⟩))) rfl (fun hv => ⟨hv, le_refl _⟩)
      fun ht => absurd rfl ht
  · exact h

/-- A dispatched message takes the chord that is noted: none is left without its message. -/
theorem applyCaptured (h : k.Met) (hfree : k.todo = []) :
    { k with inbox := k.inbox - 1 }.applyCaptured.1.Met := by
  unfold KeyCapture.applyCaptured
  cases hvalid : k.capturedValid with
  | false =>
    rw [if_neg (by simp)]
    exact h.call (.inl hfree) rfl (fun hv => absurd hv Bool.false_ne_true)
      fun _ => .inr ⟨rfl, rfl, hvalid.symm, hfree⟩
  | true =>
    rw [if_pos rfl]
    -- Whatever becomes of the chord, its message is used up with it.
    have htaken : ∀ {k' : KeyCapture}, (k'.todo = [] ∨ ∃ config, k'.todo = [.setConfig config]) →
        k'.callback = k.callback → k'.capturedValid = false → k'.captureTarget = .none →
        k'.Met := by
      intro k' htodo hcallback hno htarget
      refine h.call (htodo.imp_right fun hset => .inr (.inr hset)) hcallback ?_ ?_
      · exact fun hv => absurd hv (by simp [hno])
      · exact fun ht => absurd htarget ht
    cases k.captureTarget with
    | none => exact htaken (.inl hfree) rfl rfl rfl
    | trigger => exact htaken (.inr ⟨_, rfl⟩) rfl rfl rfl
    | action => exact htaken (.inr ⟨_, rfl⟩) rfl rfl rfl
    | emergency =>
      dsimp only
      split
      · exact htaken (.inl hfree) rfl rfl rfl
      · exact htaken (.inr ⟨_, rfl⟩) rfl rfl rfl

/-- The callback goes on: from its store to the note, from the note to the message. -/
theorem go (h : k.Met) : k.go.1.Met := by
  unfold KeyCapture.go
  rcases h.shape with hnil | ⟨c, hoff⟩ | ⟨c, hnote⟩ | hpost
  · rw [hnil]
    exact h
  · rw [hoff]
    refine ⟨h.calls, .inr (.inr (.inl ⟨c, rfl⟩)), ?_, fun _ => .inr (.inr (.inr ⟨c, rfl⟩))⟩
    intro hvalid
    -- Before the store nothing of this callback is noted, so the message owed is an older one.
    rcases h.owed hvalid with hpost | hpos
    · simp [hoff] at hpost
    · exact .inr hpos
  · rw [hnote]
    exact ⟨h.calls, .inr (.inr (.inr rfl)), fun _ => .inl rfl, fun _ => .inr (.inr (.inl rfl))⟩
  -- The message that was owed is now in the queue.
  · rw [hpost]
    refine ⟨h.calls, .inl rfl, fun _ => .inr (Nat.succ_pos _), ?_⟩
    intro ht
    rcases h.asked ht with hon | hbegin | hvalid | ⟨c, hnote⟩
    · exact .inl hon
    · exact .inr (.inl hbegin)
    · exact .inr (.inr (.inl hvalid))
    · simp [hpost] at hnote

/-- A hook takes its chord with the hooks still listening. -/
theorem take (h : k.Met) (hfree : k.callback = []) (i : TriggerInput) : (k.take i).Met := by
  obtain ⟨e', hstate, -, htake⟩ := @take_moves k i
  have hasked : k.captureTarget ≠ .none →
      e'.captureState = .keyboardMouse ∨ k.todo = [.beginCapture true] ∨
        k.capturedValid = true := by
    intro ht
    rcases h.asked ht with hon | hbegin | hvalid | ⟨c, hnote⟩
    · exact .inl (hstate.trans hon)
    · exact .inr (.inl hbegin)
    · exact .inr (.inr hvalid)
    · simp [hfree] at hnote
  have howed : k.capturedValid = true → 0 < k.inbox := by
    intro hvalid
    rcases h.owed hvalid with hpost | hpos
    · simp [hfree] at hpost
    · exact hpos
  rcases htake with htake | ⟨c, htake⟩
  · rw [htake]
    exact ⟨h.calls, .inl hfree, fun hv => .inr (howed hv), fun ht => (hasked ht).imp_right
      fun hor => hor.imp_right .inl⟩
  · rw [htake]
    exact ⟨h.calls, .inr (.inl ⟨c, rfl⟩), fun hv => .inr (howed hv), fun ht => (hasked ht).imp_right
      fun hor => hor.imp_right .inl⟩

/-- A call of the engine by the UI thread. -/
theorem ui (h : k.Met) : k.ui.Met := by
  unfold KeyCapture.ui
  split
  · exact h
  · next i is htodo =>
    rcases h.calls with hnil | hbegin | ⟨hcancel, htarget⟩ | ⟨config, hset⟩
    · simp [htodo] at hnil
    · obtain ⟨rfl, rfl⟩ := List.cons.inj (htodo.symm.trans hbegin)
      exact ⟨.inl rfl, h.shape, h.owed, fun _ => .inl rfl⟩
    · obtain ⟨rfl, rfl⟩ := List.cons.inj (htodo.symm.trans hcancel)
      exact ⟨.inl rfl, h.shape, h.owed, fun ht => absurd htarget ht⟩
    · obtain ⟨rfl, rfl⟩ := List.cons.inj (htodo.symm.trans hset)
      refine ⟨.inl rfl, h.shape, h.owed, fun ht => ?_⟩
      rcases h.asked ht with hon | hbegin | hloose
      · exact .inl hon
      · simp [hset] at hbegin
      · exact .inr (.inr hloose)

/-- Every move keeps the promises. -/
theorem step (h : k.Met) (a : CaptureAct) : ((captureMachine P).next k a).Met := by
  have hcall : ∀ r : KeyCapture × List CaptureEvent,
      (k.todo = [] → r.1.Met) → (k.whenFree r).1.Met := by
    intro r hr
    unfold whenFree
    split
    · next hfree => exact hr hfree
    · exact h
  cases a with
  | beginCapture t now =>
    exact hcall _ fun _ => h.call (.inr (.inl rfl)) rfl
      (fun hv => absurd hv Bool.false_ne_true) fun _ => .inl rfl
  | cancelCapture =>
    exact hcall _ fun _ => h.call (.inr (.inr (.inl ⟨rfl, rfl⟩))) rfl
      (fun hv => ⟨hv, le_refl _⟩) fun ht => absurd rfl ht
  | tick now => exact hcall _ fun _ => h.tick now
  | profileChanged config action =>
    exact hcall _ fun hfree => h.call (.inr (.inr (.inr ⟨_, rfl⟩))) rfl
      (fun hv => ⟨hv, le_refl _⟩) fun _ => .inr ⟨rfl, rfl, rfl, hfree⟩
  | message =>
    show (if 0 < k.inbox then _ else _ : KeyCapture × List CaptureEvent).1.Met
    split
    · exact hcall _ fun hfree => h.applyCaptured hfree
    · exact h
  | ui => exact h.ui
  | go => exact h.go
  | thread i =>
    show (if k.callback = [] then _ else _ : KeyCapture × List CaptureEvent).1.Met
    split
    · next hfree => exact h.take hfree i
    · exact h

end Met

namespace Apart

variable {P : Platform} {k : KeyCapture}

/-- At the start no message is on its way. -/
theorem start (config : TriggerConfig) (action : KeyChord) : (start config action).Apart :=
  ⟨fun h => absurd rfl h, fun h => absurd rfl h, fun h => by simp [KeyCapture.start] at h⟩

/-- With the listening over there is nobody to listen for. -/
theorem of_off {k' : KeyCapture} (hoff : k'.engine.captureState = .off)
    (htodo : k'.todo ≠ [.beginCapture true]) : k'.Apart :=
  ⟨fun h => absurd hoff h, fun h => absurd hoff h, fun h => absurd h htodo⟩

/-- A move that leaves the listening as it is and makes no chord loose. -/
theorem keep (h : k.Apart) {k' : KeyCapture}
    (hstate : k'.engine.captureState = k.engine.captureState) (hloose : k'.Loose → k.Loose)
    (hwanted : k'.captureTarget ≠ .none ∨ k'.todo = [.cancelCapture] ∨
      k'.captureTarget = k.captureTarget ∧ k.todo ≠ [.cancelCapture] ∨
      k'.captureTarget = k.captureTarget ∧ k'.todo = k.todo)
    (hasking : k'.todo = [.beginCapture true] →
      k'.captureTarget ≠ .none ∨ k'.captureTarget = k.captureTarget ∧ k'.todo = k.todo) :
    k'.Apart := by
  refine ⟨fun hon hl => h.loose (hstate ▸ hon) (hloose hl), fun hon => ?_, fun htodo => ?_⟩
  · have hold := h.wanted (hstate ▸ hon)
    rcases hwanted with ht | hcancel | ⟨ht, hcancel⟩ | ⟨ht, hsame⟩
    · exact .inl ht
    · exact .inr hcancel
    · exact .inl (ht ▸ hold.resolve_right hcancel)
    · rw [ht, hsame]
      exact hold
  · rcases hasking htodo with ht | ⟨ht, hsame⟩
    · exact ht
    · rw [ht]
      exact h.asking (hsame ▸ htodo)

/-- A cancelled request leaves the cancelling message as the only one. -/
theorem cancelCapture (h : k.Apart) : k.cancelCapture.1.Apart :=
  h.keep rfl id (.inr (.inl rfl)) fun htodo => by simp [KeyCapture.cancelCapture] at htodo

/-- A request that runs out of time leaves the cancelling message as the only one. -/
theorem tick (h : k.Apart) (now : ℤ) : (k.tick now).1.Apart := by
  unfold KeyCapture.tick
  split
  · exact h.cancelCapture
  · exact h

/-- A chord that is dispatched has ended the listening before. -/
theorem applyCaptured (h : k.Apart) (hfree : k.todo = []) :
    { k with inbox := k.inbox - 1 }.applyCaptured.1.Apart := by
  unfold KeyCapture.applyCaptured
  cases hvalid : k.capturedValid with
  | false =>
    rw [if_neg (by simp)]
    refine h.keep rfl ?_ (.inr (.inr (.inr ⟨rfl, rfl⟩))) fun _ => .inr ⟨rfl, rfl⟩
    rintro (hv | hnote)
    · exact absurd hv Bool.false_ne_true
    · exact .inr hnote
  | true =>
    rw [if_pos rfl]
    -- A noted chord is loose, so the hooks no longer listen.
    have hoff : k.engine.captureState = .off := by
      by_contra hon
      exact h.loose hon (.inl hvalid)
    cases k.captureTarget with
    | emergency =>
      dsimp only
      split
      · exact of_off hoff (by simp [hfree])
      · exact of_off hoff (by simp [applyConfigs])
    | none => exact of_off hoff (by simp [hfree])
    | _ => exact of_off hoff (by simp [applyConfigs])

/-- A call of the engine: an uncrossed request makes the hooks listen. -/
theorem ui (h : k.Apart) (hmet : k.Met) (huncrossed : k.Uncrossed .ui) : k.ui.Apart := by
  unfold KeyCapture.ui
  split
  · exact h
  · next i is htodo =>
    rcases hmet.calls with hnil | hbegin | ⟨hcancel, -⟩ | ⟨config, hset⟩
    · simp [htodo] at hnil
    -- The one call that turns the listening on: here the request must be uncrossed.
    · obtain ⟨rfl, rfl⟩ := List.cons.inj (htodo.symm.trans hbegin)
      exact ⟨fun _ => huncrossed hbegin, fun _ => .inl (h.asking hbegin), fun hnil => by
        simp at hnil⟩
    · obtain ⟨rfl, rfl⟩ := List.cons.inj (htodo.symm.trans hcancel)
      exact of_off rfl (by simp)
    · obtain ⟨rfl, rfl⟩ := List.cons.inj (htodo.symm.trans hset)
      refine h.keep rfl id (.inr (.inr (.inl ⟨rfl, ?_⟩))) fun hnil => ?_
      · simp [hset]
      · simp at hnil

/-- Handing over a message leaves the rest apart. -/
theorem go (h : k.Apart) (hmet : k.Met) : k.go.1.Apart := by
  unfold KeyCapture.go
  rcases hmet.shape with hnil | ⟨c, hoff⟩ | ⟨c, hnote⟩ | hpost
  · rw [hnil]
    exact h
  · rw [hoff]
    exact ⟨fun hon => absurd rfl hon, fun hon => absurd rfl hon, h.asking⟩
  · rw [hnote]
    exact h.keep rfl (fun _ => .inr ⟨c, hnote⟩) (.inr (.inr (.inr ⟨rfl, rfl⟩)))
      fun _ => .inr ⟨rfl, rfl⟩
  · rw [hpost]
    refine h.keep rfl ?_ (.inr (.inr (.inr ⟨rfl, rfl⟩))) fun _ => .inr ⟨rfl, rfl⟩
    rintro (hv | ⟨c, hnote⟩)
    · exact .inl hv
    · simp at hnote

/-- A physical event leaves the messages on their way apart. -/
theorem take (h : k.Apart) (i : TriggerInput) : (k.take i).Apart := by
  obtain ⟨e', hstate, -, htake⟩ := @take_moves k i
  rcases htake with htake | ⟨c, htake⟩
  · rw [htake]
    exact h.keep hstate id (.inr (.inr (.inr ⟨rfl, rfl⟩))) fun _ => .inr ⟨rfl, rfl⟩
  · rw [htake]
    -- The chord a hook has just found is not loose before its store.
    refine h.keep hstate ?_ (.inr (.inr (.inr ⟨rfl, rfl⟩))) fun _ => .inr ⟨rfl, rfl⟩
    rintro (hv | ⟨c', hnote⟩)
    · exact .inl hv
    · simp at hnote

/-- A move that crosses no other keeps the messages apart. -/
theorem step (h : k.Apart) (hmet : k.Met) (a : CaptureAct) (huncrossed : k.Uncrossed a) :
    ((captureMachine P).next k a).Apart := by
  have hcall : ∀ r : KeyCapture × List CaptureEvent,
      (k.todo = [] → r.1.Apart) → (k.whenFree r).1.Apart := by
    intro r hr
    unfold whenFree
    split
    · next hfree => exact hr hfree
    · exact h
  cases a with
  | beginCapture t now =>
    refine hcall _ fun _ => h.keep rfl ?_ (.inl huncrossed) fun _ => .inl huncrossed
    rintro (hv | hnote)
    · exact absurd hv Bool.false_ne_true
    · exact .inr hnote
  | cancelCapture => exact hcall _ fun _ => h.cancelCapture
  | tick now => exact hcall _ fun _ => h.tick now
  | profileChanged config action =>
    refine hcall _ fun hfree => ?_
    have hother : k.todo ≠ [.cancelCapture] := by simp [hfree]
    refine h.keep rfl id (.inr (.inr (.inl ⟨rfl, hother⟩))) fun hset => ?_
    simp [KeyCapture.profileChanged, applyConfigs] at hset
  | message =>
    show (if 0 < k.inbox then _ else _ : KeyCapture × List CaptureEvent).1.Apart
    split
    · exact hcall _ fun hfree => h.applyCaptured hfree
    · exact h
  | ui => exact h.ui hmet huncrossed
  | go => exact h.go hmet
  | thread i =>
    show (if k.callback = [] then _ else _ : KeyCapture × List CaptureEvent).1.Apart
    split
    · exact h.take i
    · exact h

end Apart

/-! ### Crossed requests -/

/-- Both threads finish what they have in hand, and the UI thread takes its messages. -/
def settle (k : KeyCapture) : List CaptureAct :=
  [.ui, .go, .go, .go] ++ (List.replicate (k.inbox + 1) [.message, .ui]).flatten

section Settle

variable (P : Platform) {k : KeyCapture}

/-- A message is taken, and what it binds is told to the engine: the chord is used up, and so is
    the request. -/
theorem message_ui (hfree : k.todo = []) (hinbox : 0 < k.inbox) :
    let k' := (captureMachine P).after k [.message, .ui]
    k'.todo = [] ∧ k'.callback = k.callback ∧ k'.inbox = k.inbox - 1 ∧
      k'.engine.captureState = k.engine.captureState ∧ k'.capturedValid = false ∧
      k'.captureTarget = if k.capturedValid then .none else k.captureTarget := by
  have hmessage : (captureMachine P).next k .message =
      { k with inbox := k.inbox - 1 }.applyCaptured.1 := by
    simp [Machine.next, captureMachine, KeyCapture.step, hinbox, whenFree, hfree]
  have hui : ∀ k' : KeyCapture, (captureMachine P).next k' .ui = k'.ui := fun _ => rfl
  dsimp only
  rw [Machine.after_cons, Machine.after_cons, Machine.after_nil, hmessage, hui]
  unfold KeyCapture.applyCaptured
  cases hvalid : k.capturedValid with
  | false => simp [KeyCapture.ui, hfree]
  | true =>
    cases k.captureTarget with
    | none => simp [KeyCapture.ui, hfree]
    | emergency =>
      cases hleft : k.captured.bareLeft with
      | true => simp [KeyCapture.ui, hfree, hleft]
      | false =>
        simp [KeyCapture.ui, hleft, applyConfigs, Machine.next, triggerMachine,
          TriggerEngine.step, TriggerEngine.setConfig]
    | _ =>
      simp [KeyCapture.ui, applyConfigs, Machine.next, triggerMachine, TriggerEngine.step,
        TriggerEngine.setConfig]

/-- Taking the messages to the last, where a noted chord has its message. -/
theorem drain (n : ℕ) (hfree : k.todo = []) (hn : k.inbox ≤ n)
    (howed : k.capturedValid = true → 0 < k.inbox) :
    let k' := (captureMachine P).after k (List.replicate n [.message, .ui]).flatten
    k'.todo = [] ∧ k'.callback = k.callback ∧ k'.inbox = 0 ∧
      k'.engine.captureState = k.engine.captureState ∧
      k'.captureTarget = if k.capturedValid then .none else k.captureTarget := by
  induction n generalizing k with
  | zero =>
    have hinbox : k.inbox = 0 := by omega
    -- With no message left no chord is noted, as every noted one has its message.
    have hno : k.capturedValid = false := by
      by_contra hvalid
      have hpos := howed (by simpa using hvalid)
      omega
    exact ⟨hfree, rfl, hinbox, rfl, by simp [hno]⟩
  | succ n ih =>
    dsimp only
    rw [List.replicate_succ, List.flatten_cons, Machine.after_append]
    by_cases hinbox : 0 < k.inbox
    · obtain ⟨htodo, hcallback, hless, hstate, hno, htarget⟩ := message_ui P hfree hinbox
      obtain ⟨htodo', hcallback', hinbox', hstate', htarget'⟩ :=
        ih htodo (by omega) (fun hv => absurd (hno.symm.trans hv) Bool.false_ne_true)
      refine ⟨htodo', hcallback'.trans hcallback, hinbox', hstate'.trans hstate, ?_⟩
      -- The first message uses the chord up; those behind it find nothing.
      rw [htarget', hno, htarget]
      simp
    · have hsame : (captureMachine P).after k [.message, .ui] = k := by
        simp [Machine.next, captureMachine, KeyCapture.step, hinbox, KeyCapture.ui, hfree]
      rw [hsame]
      exact ih hfree (by omega) howed

/-- Both threads finish what they have in hand: the hooks listen, with a chord noted, if and only
    if the request crossed that chord. -/
theorem Met.finish (h : k.Met) (hbegin : k.todo = [.beginCapture true]) :
    let k' := (captureMachine P).after k [.ui, .go, .go, .go]
    k'.todo = [] ∧ k'.callback = [] ∧ k'.inbox ≤ k.inbox + 1 ∧
      (k'.capturedValid = true → 0 < k'.inbox) ∧ k'.captureTarget = k.captureTarget ∧
      (k'.Listening ∧ k'.capturedValid = true ↔ k.Strands) := by
  have hui : (captureMachine P).next k .ui =
      { k with engine := k.engine.beginCapture true, todo := [] } := by
    show k.ui = _
    rw [KeyCapture.ui, hbegin]
    rfl
  have hgo : ∀ k' : KeyCapture, (captureMachine P).next k' .go = k'.go.1 := fun _ => rfl
  dsimp only
  simp only [Machine.after_cons, Machine.after_nil, hui, hgo]
  -- Where the callback stands when the request is made decides: only a store behind it ends it.
  rcases h.shape with hnil | ⟨c, hoff⟩ | ⟨c, hnote⟩ | hpost
  · have howed : k.capturedValid = true → 0 < k.inbox := by
      intro hvalid
      exact (h.owed hvalid).resolve_left (by simp [hnil])
    simpa [KeyCapture.go, hnil, Listening, Strands, Loose, TriggerEngine.beginCapture] using howed
  · simp [KeyCapture.go, hoff, Listening, Strands]
  · simp [KeyCapture.go, hnote, Listening, Strands, Loose, TriggerEngine.beginCapture]
  · simp [KeyCapture.go, hpost, Listening, Strands, Loose, TriggerEngine.beginCapture]

/-- A request settles with the hooks listening for nobody if and only if it crossed a chord. -/
theorem Met.settles (h : k.Met) (hbegin : k.todo = [.beginCapture true])
    (ht : k.captureTarget ≠ .none) :
    let k' := (captureMachine P).after k k.settle
    k'.AtRest ∧ (k'.Listening ∧ k'.captureTarget = .none ↔ k.Strands) := by
  obtain ⟨hfree, hcallback, hinbox, howed, htarget, hcrossed⟩ := h.finish P hbegin
  obtain ⟨htodo, hcallback', hempty, hstate, htarget'⟩ := drain P (k.inbox + 1) hfree hinbox howed
  dsimp only at *
  rw [settle, Machine.after_append]
  refine ⟨⟨htodo, hcallback'.trans hcallback, hempty⟩, ?_⟩
  rw [← hcrossed, htarget', htarget, Listening, Listening, hstate]
  -- The messages close the request exactly if a chord was noted.
  refine and_congr_right fun _ => ?_
  split
  · next hvalid => exact ⟨fun _ => hvalid, fun _ => rfl⟩
  · next hvalid => exact ⟨fun hnone => absurd hnone ht, fun hv => absurd hv hvalid⟩

end Settle

end KeyCapture

/-- **The hooks listen for what is asked for, and for nothing else.**  In every interleaving a
    request is never forgotten: at rest, as long as one is open, the hooks listen.  They listen for
    nobody only if a request has made them listen with a chord on its way, and a request that does
    so leaves them that way. -/
theorem capture_agrees (P : Platform) (config : TriggerConfig) (action : KeyChord)
    (acts : List CaptureAct) :
    let k := (captureMachine P).after (KeyCapture.start config action) acts
    (k.AtRest → k.captureTarget ≠ .none → k.Listening) ∧
      ((captureMachine P).Meets KeyCapture.Uncrossed (KeyCapture.start config action) acts →
        k.AtRest → k.engine.captureState ≠ .off → k.captureTarget ≠ .none) ∧
      (k.todo = [.beginCapture true] → k.captureTarget ≠ .none →
        ((captureMachine P).after k k.settle).AtRest ∧
          (((captureMachine P).after k k.settle).Listening ∧
            ((captureMachine P).after k k.settle).captureTarget = .none ↔ k.Strands)) := by
  have hmet := (captureMachine P).invariant (fun k a (h : k.Met) => h.step a)
    (KeyCapture.Met.start config action) acts
  refine ⟨?_, ?_, fun hbegin ht => hmet.settles P hbegin ht⟩
  · intro hrest ht
    rcases hmet.asked ht with hon | hbegin | hvalid | ⟨c, hnote⟩
    · exact hon
    · simp [hrest.1] at hbegin
    · rcases hmet.owed hvalid with hpost | hpos
      · simp [hrest.2.1] at hpost
      · exact absurd hpos (by simp [hrest.2.2])
    · simp [hrest.2.1] at hnote
  · intro huncrossed hrest hon
    have hboth := (captureMachine P).invariant_of_meets
      (I := fun k => k.Met ∧ k.Apart) (fun k a h hun => ⟨h.1.step a, h.2.step h.1 a hun⟩)
      ⟨KeyCapture.Met.start config action, KeyCapture.Apart.start config action⟩ huncrossed
    exact (hboth.2.wanted hon).resolve_right (by simp [hrest.1])

/-- F8 is on its way to the action's binding when the trigger's is asked for: it becomes the
    trigger, and the hooks go on listening. -/
example :
    let k := (captureMachine .tenMegahertz).after (KeyCapture.start {} {})
      [.beginCapture .action 0, .ui, .thread (.key true 0x77 0x42 false 0 false), .go,
        .beginCapture .trigger 1, .ui, .go, .go, .message, .ui]
    k.captureTarget = .none ∧ k.engine.captureState = .keyboardMouse ∧
      k.config.trigger.code = 0x77 ∧ k.action = {} := by decide +kernel

end InfinityClicker
