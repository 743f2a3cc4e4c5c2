import InfinityClicker.Trigger.MessageLoop

namespace InfinityClicker

open Machines Mailboxes

/-!
# Configurations and hooks reach the trigger thread

A posted message is the only thing that makes the trigger thread look at what others left for
it, so nothing may be left without a message on its way.

* `TriggerLoop.Installed` — the hooks, raw input and the hotkey are what the configuration and
  the capture state need;
* `TriggerLoop.OwesHooks` — something on its way leads to `updateHooks`;
* `loop_converges` — when nothing is on its way the last configuration is in use and installed;
* `one_mouse_source` — the mouse never reaches the trigger logic twice.
-/

/-- The configuration a call leaves. -/
@[simp] def LoopAct.cfg? : LoopAct → Option TriggerSettings
  | .setConfig c => some c
  | _ => none

/-- The configuration of the last `setConfig`. -/
def lastSettings (acts : List LoopAct) : TriggerSettings := lastOf LoopAct.cfg? {} acts

namespace TriggerLoop

/-- What is installed is what is needed. -/
structure Installed (l : TriggerLoop) : Prop where
  mouse : l.mouseHook = l.cfg.needHook l.captureState
  mouseOn : l.mouseHookOn = l.mouseHook
  raw : l.rawOn = l.cfg.needRaw l.captureState
  keyboard : l.kbHook = true ∧ l.kbHookOn = true
  hotkey : l.hotkeyOn = l.cfg.needHotkey

theorem Installed.congr {l l' : TriggerLoop} (h : l.Installed)
    (hcapture : l'.captureState = l.captureState) (hcfg : l'.cfg = l.cfg)
    (hkb : l'.kbHook = l.kbHook) (hkbOn : l'.kbHookOn = l.kbHookOn)
    (hmouse : l'.mouseHook = l.mouseHook) (hmouseOn : l'.mouseHookOn = l.mouseHookOn)
    (hraw : l'.rawOn = l.rawOn) (hhotkey : l'.hotkeyOn = l.hotkeyOn) : l'.Installed where
  mouse := by rw [hmouse, hcfg, hcapture, h.mouse]
  mouseOn := by rw [hmouseOn, hmouse, h.mouseOn]
  raw := by rw [hraw, hcfg, hcapture, h.raw]
  keyboard := by rw [hkb, hkbOn]; exact h.keyboard
  hotkey := by rw [hhotkey, hcfg, h.hotkey]

/-- Something on its way leads to `updateHooks`. -/
def OwesHooks (l : TriggerLoop) : Prop :=
  l.msgWnd = false ∨ .updateHooks ∈ l.todo ∨ .postHooks ∈ l.todo ∨
    ∃ m ∈ l.queue ++ l.posting, .updateHooks ∈ m.tasks

/-- Something on its way leads to `applyPendingConfig`. -/
def OwesConfig (l : TriggerLoop) : Prop :=
  l.msgWnd = false ∨ .applyPendingConfig ∈ l.todo ∨ .reconfig ∈ l.queue ++ l.posting

/-- A task that disturbs the hooks is followed by `updateHooks`, one that changes the
    configuration by `evaluateGate` as well. -/
def Ordered : List LoopTask → Prop
  | [] => True
  | .applyPendingConfig :: todo =>
    .updateHooks ∈ todo ∧ .evaluateGate ∈ todo ∧ Ordered todo
  | .installKeyboardHook :: todo | .dropHooks :: todo => .updateHooks ∈ todo ∧ Ordered todo
  | .forgetName :: todo => .evaluateGate ∈ todo ∧ Ordered todo
  | _ :: todo => Ordered todo

/-- The trigger thread works in order, and not before it is started. -/
structure Orderly (l : TriggerLoop) : Prop where
  ordered : Ordered l.todo
  unstarted : l.msgWnd = false → l.todo = [] ∧ l.queue = []

theorem tasks_ordered (m : LoopMessage) : Ordered m.tasks := by
  cases m <;> simp [LoopMessage.tasks, Ordered]

theorem Ordered.tail {task : LoopTask} {todo : List LoopTask} (h : Ordered (task :: todo)) :
    Ordered todo := by
  cases task with
  | applyPendingConfig => exact h.2.2
  | installKeyboardHook => exact h.2
  | dropHooks => exact h.2
  | forgetName => exact h.2
  | updateHooks => exact h
  | evaluateGate => exact h
  | evaluateGateOf fg => exact h
  | postHooks => exact h

/-- `l'` differs from `l` in the gate and the name shown alone. -/
structure GateOnly (l l' : TriggerLoop) : Prop where
  pending : l'.pending = l.pending
  captureState : l'.captureState = l.captureState
  posting : l'.posting = l.posting
  msgWnd : l'.msgWnd = l.msgWnd
  queue : l'.queue = l.queue
  todo : l'.todo = l.todo
  cfg : l'.cfg = l.cfg
  targets : l'.targets = l.targets
  kbHook : l'.kbHook = l.kbHook
  kbHookOn : l'.kbHookOn = l.kbHookOn
  mouseHook : l'.mouseHook = l.mouseHook
  mouseHookOn : l'.mouseHookOn = l.mouseHookOn
  rawOn : l'.rawOn = l.rawOn
  hotkeyOn : l'.hotkeyOn = l.hotkeyOn

theorem evaluateGate_frame (H : LoopHost) (l : TriggerLoop) (fg : Option ForegroundWindow)
    (names : BitVec 32 → WString) : GateOnly l (l.evaluateGate H fg names).1 := by
  simp only [evaluateGate, showName]
  split <;> constructor <;> rfl

/-- What no task but its own changes. -/
theorem run_frame (H : LoopHost) (l : TriggerLoop) (v : LoopView) (task : LoopTask) :
    (l.run H v task).1.todo = l.todo ∧ (l.run H v task).1.msgWnd = l.msgWnd ∧
      (l.run H v task).1.posting = l.posting ∧
      (l.run H v task).1.captureState = l.captureState ∧
      ((l.run H v task).1.queue = l.queue ∨
        task = .postHooks ∧ (l.run H v task).1.queue = l.queue ++ [.hooks]) := by
  cases task with
  | applyPendingConfig =>
    simp only [run, applyPendingConfig]
    split <;> exact ⟨rfl, rfl, rfl, rfl, .inl rfl⟩
  | postHooks => exact ⟨rfl, rfl, rfl, rfl, .inr ⟨rfl, rfl⟩⟩
  | installKeyboardHook => exact ⟨rfl, rfl, rfl, rfl, .inl rfl⟩
  | updateHooks => exact ⟨rfl, rfl, rfl, rfl, .inl rfl⟩
  | dropHooks => exact ⟨rfl, rfl, rfl, rfl, .inl rfl⟩
  | forgetName => exact ⟨rfl, rfl, rfl, rfl, .inl rfl⟩
  | evaluateGate =>
    have h := l.evaluateGate_frame H v.foreground v.processName
    exact ⟨h.todo, h.msgWnd, h.posting, h.captureState, .inl h.queue⟩
  | evaluateGateOf fg =>
    have h := l.evaluateGate_frame H fg v.processName
    exact ⟨h.todo, h.msgWnd, h.posting, h.captureState, .inl h.queue⟩

theorem Orderly.step (H : LoopHost) {l : TriggerLoop} (h : l.Orderly) (a : LoopAct) :
    (l.step H a).1.Orderly := by
  cases a with
  | setConfig c => exact ⟨h.ordered, h.unstarted⟩
  | beginCapture allowMouse => exact ⟨h.ordered, h.unstarted⟩
  | cancelCapture => exact ⟨h.ordered, h.unstarted⟩
  | reinstallHooks => exact ⟨h.ordered, h.unstarted⟩
  | recomputeGate => exact ⟨h.ordered, h.unstarted⟩
  -- Before the window is there, nothing is posted to it.
  | post i =>
    refine ⟨h.ordered, fun hno => ?_⟩
    have hwnd : l.msgWnd = false := hno
    simpa [TriggerLoop.step, hwnd] using h.unstarted hwnd
  | startThread =>
    simp only [TriggerLoop.step]
    split
    · exact h
    · exact ⟨by simp [startTasks, Ordered], fun hno => absurd hno (by simp)⟩
  -- The task done is the first of the list, and the list without it is still in order.
  | go v =>
    simp only [TriggerLoop.step]
    split
    · next task todo htodo =>
      obtain ⟨htodo', hwnd, -, -, -⟩ := run_frame H { l with todo := todo } v task
      have hstarted : l.msgWnd ≠ false := by
        intro hno
        rw [(h.unstarted hno).1] at htodo
        cases htodo
      refine ⟨?_, fun hno => absurd (hwnd.symm.trans hno) hstarted⟩
      rw [htodo']
      have hordered := h.ordered
      rw [htodo] at hordered
      exact hordered.tail
    · split
      · next m queue hqueue =>
        refine ⟨tasks_ordered m, fun hno => ?_⟩
        rw [(h.unstarted hno).2] at hqueue
        cases hqueue
      · exact h
  | captured =>
    simp only [TriggerLoop.step]
    split
    · next hc => exact ⟨by simp [Ordered], fun hno => absurd (hno.symm.trans hc.1) (by simp)⟩
    · exact h
  | foreground fg =>
    simp only [TriggerLoop.step]
    split
    · next hc => exact ⟨by simp [Ordered], fun hno => absurd (hno.symm.trans hc.1) (by simp)⟩
    · exact h

/-! ### Nothing left without a message -/

/-- A call under way is still under way, or is the one that posts. -/
theorem mem_eraseIdx_or {α : Type*} {xs : List α} {x : α} (hx : x ∈ xs) (i : ℕ) :
    x ∈ xs.eraseIdx i ∨ xs[i]? = some x := by
  induction xs generalizing i with
  | nil => exact absurd hx (by simp)
  | cons y xs ih =>
    cases i with
    | zero =>
      rcases List.mem_cons.mp hx with rfl | hx
      · exact .inr rfl
      · exact .inl (by simpa using hx)
    | succ i =>
      rcases List.mem_cons.mp hx with rfl | hx
      · exact .inl (by simp)
      · rcases ih hx i with h | h
        · exact .inl (by simp [h])
        · exact .inr (by simpa using h)

/-- A post loses no message once there is a window. -/
theorem mem_post {l : TriggerLoop} (hwnd : l.msgWnd = true) (H : LoopHost) (i : ℕ)
    {m : LoopMessage} (hm : m ∈ l.queue ++ l.posting) :
    m ∈ (l.step H (.post i)).1.queue ++ (l.step H (.post i)).1.posting := by
  simp only [step, hwnd, if_true]
  rcases List.mem_append.mp hm with hq | hp
  · simp [hq]
  · rcases mem_eraseIdx_or hp i with h | h
    · simp [h]
    · simp [h]

/-- The threads around the loop: what is on its way, and what is in use. -/
structure Converging (H : LoopHost) (l : TriggerLoop) (last : TriggerSettings) : Prop where
  orderly : l.Orderly
  config : l.pending.getD l.cfg = last
  pending : l.pending ≠ none → l.OwesConfig
  targets : l.targets = H.targets l.cfg.targetProcesses
  keyboard : l.kbHookOn = l.kbHook
  hooks : l.Installed ∨ l.OwesHooks

/-- Windows does what the loop asks for. -/
def Answers (_ : TriggerLoop) : LoopAct → Prop
  | .go v => v.mouseHookOk = true ∧ v.kbHookOk = true ∧ v.rawOk = true ∧ v.hotkeyOk = true
  | _ => True

theorem updateHooks_installed (l : TriggerLoop) {v : LoopView} (hmouse : v.mouseHookOk = true)
    (hkb : v.kbHookOk = true) (hraw : v.rawOk = true) (hhotkey : v.hotkeyOk = true)
    (hkbOn : l.kbHookOn = l.kbHook) : (l.updateHooks v).Installed where
  mouse := by
    show (if _ then _ else _ : Bool) = l.cfg.needHook l.captureState
    cases l.cfg.needHook l.captureState <;> cases l.mouseHook <;> simp [hmouse]
  mouseOn := rfl
  raw := by
    show (if _ then _ else _ : Bool) = l.cfg.needRaw l.captureState
    rw [hraw]
    cases l.cfg.needRaw l.captureState <;> cases l.rawOn <;> simp
  keyboard := by
    show (if _ then _ else _ : Bool) = true ∧ (if _ then _ else _ : Bool) = true
    cases hk : l.kbHook with
    | true => exact ⟨by simp, by simpa using hkbOn.trans hk⟩
    | false => simp [hkb]
  hotkey := by
    show (l.cfg.needHotkey && v.hotkeyOk) = l.cfg.needHotkey
    rw [hhotkey, Bool.and_true]

/-- What is owed when a task begins is owed after it, unless it is what was owed. -/
theorem OwesConfig.tail {l : TriggerLoop} {task : LoopTask} {todo : List LoopTask}
    (h : l.OwesConfig) (htodo : l.todo = task :: todo) (hne : task ≠ .applyPendingConfig)
    {l' : TriggerLoop} (hwnd : l'.msgWnd = l.msgWnd) (htodo' : l'.todo = todo)
    (hmsgs : ∀ m ∈ l.queue ++ l.posting, m ∈ l'.queue ++ l'.posting) : l'.OwesConfig := by
  rcases h with hno | htask | hmsg
  · exact .inl (hwnd.trans hno)
  · rw [htodo] at htask
    exact .inr (.inl (htodo' ▸ (List.mem_cons.mp htask).resolve_left (Ne.symm hne)))
  · exact .inr (.inr (hmsgs _ hmsg))

theorem OwesHooks.tail {l : TriggerLoop} {task : LoopTask} {todo : List LoopTask}
    (h : l.OwesHooks) (htodo : l.todo = task :: todo) (hne : task ≠ .updateHooks)
    (hne' : task ≠ .postHooks) {l' : TriggerLoop} (hwnd : l'.msgWnd = l.msgWnd)
    (htodo' : l'.todo = todo)
    (hmsgs : ∀ m ∈ l.queue ++ l.posting, m ∈ l'.queue ++ l'.posting) : l'.OwesHooks := by
  rcases h with hno | hup | hpost | ⟨m, hm, htasks⟩
  · exact .inl (hwnd.trans hno)
  · rw [htodo] at hup
    exact .inr (.inl (htodo' ▸ (List.mem_cons.mp hup).resolve_left (Ne.symm hne)))
  · rw [htodo] at hpost
    exact .inr (.inr (.inl (htodo' ▸ (List.mem_cons.mp hpost).resolve_left (Ne.symm hne'))))
  · exact .inr (.inr (.inr ⟨m, hmsgs m hm, htasks⟩))

/-- A task that changes the gate alone. -/
theorem Converging.gateOnly {H : LoopHost} {l l' : TriggerLoop} {last : TriggerSettings}
    (h : Converging H l last) {task : LoopTask} {todo : List LoopTask}
    (htodo : l.todo = task :: todo) (happly : task ≠ .applyPendingConfig)
    (hup : task ≠ .updateHooks) (hpost : task ≠ .postHooks)
    (hg : GateOnly { l with todo := todo } l') (horderly : l'.Orderly) :
    Converging H l' last := by
  have hsame : ∀ m ∈ l.queue ++ l.posting, m ∈ l'.queue ++ l'.posting := by
    rw [hg.queue, hg.posting]
    exact fun _ hm => hm
  refine ⟨horderly, ?_, fun hne => ?_, ?_, ?_, h.hooks.imp (fun hi => ?_) fun ho => ?_⟩
  · rw [hg.pending, hg.cfg]
    exact h.config
  · rw [hg.pending] at hne
    exact (h.pending hne).tail htodo happly hg.msgWnd hg.todo hsame
  · rw [hg.targets, hg.cfg]
    exact h.targets
  · rw [hg.kbHookOn, hg.kbHook]
    exact h.keyboard
  · exact hi.congr hg.captureState hg.cfg hg.kbHook hg.kbHookOn hg.mouseHook hg.mouseHookOn
      hg.rawOn hg.hotkeyOn
  · exact ho.tail htodo hup hpost hg.msgWnd hg.todo hsame

/-- A task of the trigger thread. -/
theorem Converging.run {H : LoopHost} {l : TriggerLoop} {last : TriggerSettings}
    (h : Converging H l last) {v : LoopView} {task : LoopTask} {todo : List LoopTask}
    (htodo : l.todo = task :: todo) (hv : Answers l (.go v)) :
    Converging H ({ l with todo := todo }.run H v task).1 last := by
  obtain ⟨hmouse, hkb, hraw, hhotkey⟩ := hv
  have horder := h.orderly.ordered
  rw [htodo] at horder
  have horderly : ({ l with todo := todo }.run H v task).1.Orderly := by
    have hstep := h.orderly.step H (.go v)
    simpa only [step, htodo] using hstep
  -- No message on its way is taken by a task.
  have hsame : ∀ m ∈ l.queue ++ l.posting, m ∈ l.queue ++ l.posting := fun _ hm => hm
  cases task with
  | applyPendingConfig =>
    -- Behind a configuration the tasks for the hooks are still to come.
    have howes : ∀ l' : TriggerLoop, l'.todo = todo → l'.OwesHooks := fun l' hl' =>
      .inr (.inl (hl' ▸ horder.1))
    have hconfig := h.config
    simp only [TriggerLoop.run, applyPendingConfig] at horderly ⊢
    cases hp : l.pending with
    | none =>
      rw [hp] at horderly hconfig
      exact ⟨horderly, hconfig, fun hne => absurd rfl hne, h.targets, h.keyboard,
        .inr (howes _ rfl)⟩
    | some c =>
      rw [hp] at horderly hconfig
      exact ⟨horderly, hconfig, fun hne => absurd rfl hne, rfl, h.keyboard, .inr (howes _ rfl)⟩
  | installKeyboardHook =>
    exact ⟨horderly, h.config, fun hne => (h.pending hne).tail htodo (by simp) rfl rfl hsame,
      h.targets, rfl, .inr (.inr (.inl horder.1))⟩
  | updateHooks =>
    -- Windows grants what is asked, so the hooks are now as the configuration needs them.
    have hinstalled := updateHooks_installed { l with todo := todo } hmouse hkb hraw hhotkey
      h.keyboard
    refine ⟨horderly, h.config, fun hne => (h.pending hne).tail htodo (by simp) rfl rfl hsame,
      h.targets, ?_, .inl hinstalled⟩
    exact hinstalled.keyboard.2.trans hinstalled.keyboard.1.symm
  | dropHooks =>
    exact ⟨horderly, h.config, fun hne => (h.pending hne).tail htodo (by simp) rfl rfl hsame,
      h.targets, rfl, .inr (.inr (.inl horder.1))⟩
  | forgetName =>
    exact ⟨horderly, h.config, fun hne => (h.pending hne).tail htodo (by simp) rfl rfl hsame,
      h.targets, h.keyboard,
      h.hooks.imp (fun hi => hi.congr rfl rfl rfl rfl rfl rfl rfl rfl)
        fun ho => ho.tail htodo (by simp) (by simp) rfl rfl hsame⟩
  | evaluateGate =>
    exact h.gateOnly htodo (by simp) (by simp) (by simp)
      ({ l with todo := todo }.evaluateGate_frame H v.foreground v.processName) horderly
  | evaluateGateOf fg =>
    exact h.gateOnly htodo (by simp) (by simp) (by simp)
      ({ l with todo := todo }.evaluateGate_frame H fg v.processName) horderly
  -- What was to be done is now a message on its way.
  | postHooks =>
    refine ⟨horderly, h.config, fun hne => (h.pending hne).tail htodo (by simp) rfl rfl ?_,
      h.targets, h.keyboard, .inr (.inr (.inr (.inr ⟨.hooks, ?_, ?_⟩)))⟩
    · intro m hm
      show m ∈ (l.queue ++ [.hooks]) ++ l.posting
      rcases List.mem_append.mp hm with hq | hp
      · simp [hq]
      · simp [hp]
    · show LoopMessage.hooks ∈ (l.queue ++ [.hooks]) ++ l.posting
      simp
    · simp [LoopMessage.tasks]

/-- **No move leaves anything without a message on its way.** -/
theorem Converging.step {H : LoopHost} {l : TriggerLoop} {last : TriggerSettings}
    (h : Converging H l last) {a : LoopAct} (ha : Answers l a) :
    Converging H (l.step H a).1 (lastOf LoopAct.cfg? last [a]) := by
  have horderly := h.orderly.step H a
  rw [lastOf_cons, lastOf_nil]
  -- What was owed stays owed while a call is added to those under way.
  have hmore : ∀ (l' : TriggerLoop) (m : LoopMessage), l'.msgWnd = l.msgWnd →
      l'.todo = l.todo → l'.queue = l.queue → l'.posting = l.posting ++ [m] →
      (l.OwesConfig → l'.OwesConfig) ∧ (l.OwesHooks → l'.OwesHooks) := by
    intro l' m hwnd htodo hqueue hposting
    have hmem : ∀ x ∈ l.queue ++ l.posting, x ∈ l'.queue ++ l'.posting := by
      intro x hx
      rw [hqueue, hposting, ← List.append_assoc]
      exact List.mem_append_left _ hx
    rw [OwesConfig, OwesConfig, OwesHooks, OwesHooks, hwnd, htodo]
    exact ⟨fun ho => ho.imp id (Or.imp id (hmem _)),
      fun ho => ho.imp id (Or.imp id (Or.imp id fun ⟨x, hx, ht⟩ => ⟨x, hmem x hx, ht⟩))⟩
  cases a with
  | setConfig c =>
    have hm := hmore (l.step H (.setConfig c)).1 .reconfig rfl rfl rfl rfl
    refine ⟨horderly, rfl, fun _ => .inr (.inr ?_), h.targets, h.keyboard, h.hooks.imp
      (fun hi => hi.congr rfl rfl rfl rfl rfl rfl rfl rfl) hm.2⟩
    show LoopMessage.reconfig ∈ l.queue ++ (l.posting ++ [.reconfig])
    simp
  | beginCapture allowMouse =>
    have hm := hmore (l.step H (.beginCapture allowMouse)).1 .hooks rfl rfl rfl rfl
    refine ⟨horderly, h.config, fun hne => hm.1 (h.pending hne), h.targets, h.keyboard,
      .inr (.inr (.inr (.inr ⟨.hooks, ?_, by simp [LoopMessage.tasks]⟩)))⟩
    show LoopMessage.hooks ∈ l.queue ++ (l.posting ++ [.hooks])
    simp
  | cancelCapture =>
    have hm := hmore (l.step H .cancelCapture).1 .hooks rfl rfl rfl rfl
    refine ⟨horderly, h.config, fun hne => hm.1 (h.pending hne), h.targets, h.keyboard,
      .inr (.inr (.inr (.inr ⟨.hooks, ?_, by simp [LoopMessage.tasks]⟩)))⟩
    show LoopMessage.hooks ∈ l.queue ++ (l.posting ++ [.hooks])
    simp
  | reinstallHooks =>
    have hm := hmore (l.step H .reinstallHooks).1 .reinstall rfl rfl rfl rfl
    exact ⟨horderly, h.config, fun hne => hm.1 (h.pending hne), h.targets, h.keyboard,
      h.hooks.imp (fun hi => hi.congr rfl rfl rfl rfl rfl rfl rfl rfl) hm.2⟩
  | recomputeGate =>
    have hm := hmore (l.step H .recomputeGate).1 .gate rfl rfl rfl rfl
    exact ⟨horderly, h.config, fun hne => hm.1 (h.pending hne), h.targets, h.keyboard,
      h.hooks.imp (fun hi => hi.congr rfl rfl rfl rfl rfl rfl rfl rfl) hm.2⟩
  | post i =>
    have hconfig : l.OwesConfig → (l.step H (.post i)).1.OwesConfig := by
      cases hwnd : l.msgWnd with
      | false => exact fun _ => .inl hwnd
      | true => exact fun ho => ho.imp id (Or.imp id (mem_post hwnd H i))
    have hhooks : l.OwesHooks → (l.step H (.post i)).1.OwesHooks := by
      cases hwnd : l.msgWnd with
      | false => exact fun _ => .inl hwnd
      | true =>
        exact fun ho => ho.imp id (Or.imp id (Or.imp id
          fun ⟨m, hm, ht⟩ => ⟨m, mem_post hwnd H i hm, ht⟩))
    exact ⟨horderly, h.config, fun hne => hconfig (h.pending hne), h.targets, h.keyboard,
      h.hooks.imp (fun hi => hi.congr rfl rfl rfl rfl rfl rfl rfl rfl) hhooks⟩
  | startThread =>
    simp only [TriggerLoop.step] at horderly ⊢
    split
    · exact h
    · next hwnd =>
      rw [if_neg hwnd] at horderly
      exact ⟨horderly, h.config, fun _ => .inr (.inl (by simp [startTasks])), h.targets,
        h.keyboard, .inr (.inr (.inl (by simp [startTasks])))⟩
  | go v =>
    show Converging H (l.step H (.go v)).1 last
    cases htodo : l.todo with
    | cons task todo => simpa only [TriggerLoop.step, htodo] using h.run htodo ha
    | nil =>
      cases hqueue : l.queue with
      | nil => simpa only [TriggerLoop.step, htodo, hqueue] using h
      | cons m queue =>
        simp only [TriggerLoop.step, htodo, hqueue] at horderly ⊢
        refine ⟨horderly, h.config, fun hne => ?_, h.targets, h.keyboard, h.hooks.imp
          (fun hi => hi.congr rfl rfl rfl rfl rfl rfl rfl rfl) fun ho => ?_⟩
        · rcases h.pending hne with hno | htask | hmsg
          · exact .inl hno
          · rw [htodo] at htask
            exact absurd htask (by simp)
          · rw [hqueue, List.cons_append] at hmsg
            rcases List.mem_cons.mp hmsg with rfl | hmsg
            · exact .inr (.inl (by simp [LoopMessage.tasks]))
            · exact .inr (.inr hmsg)
        · rcases ho with hno | hup | hpost | ⟨x, hx, ht⟩
          · exact .inl hno
          · rw [htodo] at hup
            exact absurd hup (by simp)
          · rw [htodo] at hpost
            exact absurd hpost (by simp)
          · rw [hqueue, List.cons_append] at hx
            rcases List.mem_cons.mp hx with rfl | hx
            · exact .inr (.inl ht)
            · exact .inr (.inr (.inr ⟨x, hx, ht⟩))
  | captured =>
    simp only [TriggerLoop.step] at horderly ⊢
    split
    · next hc =>
      rw [if_pos hc] at horderly
      refine ⟨horderly, h.config, fun hne => ?_, h.targets, h.keyboard,
        .inr (.inr (.inr (.inl (by simp))))⟩
      rcases h.pending hne with hno | htask | hmsg
      · exact .inl hno
      · rw [hc.2.1] at htask
        exact absurd htask (by simp)
      · exact .inr (.inr hmsg)
    · exact h
  | foreground fg =>
    simp only [TriggerLoop.step] at horderly ⊢
    split
    · next hc =>
      rw [if_pos hc] at horderly
      refine ⟨horderly, h.config, fun hne => ?_, h.targets, h.keyboard, h.hooks.imp
        (fun hi => hi.congr rfl rfl rfl rfl rfl rfl rfl rfl) fun ho => ?_⟩
      · rcases h.pending hne with hno | htask | hmsg
        · exact .inl hno
        · rw [hc.2] at htask
          exact absurd htask (by simp)
        · exact .inr (.inr hmsg)
      · rcases ho with hno | hup | hpost | hmsg
        · exact .inl hno
        · rw [hc.2] at hup
          exact absurd hup (by simp)
        · rw [hc.2] at hpost
          exact absurd hpost (by simp)
        · exact .inr (.inr (.inr hmsg))
    · exact h

theorem converging_start (H : LoopHost) : Converging H {} {} where
  orderly := ⟨trivial, fun _ => ⟨rfl, rfl⟩⟩
  config := rfl
  pending := fun hne => absurd rfl hne
  targets := by simp [LoopHost.targets, LoopHost.toUtf8, targetItems, targetItem, trim,
    toLowerAscii]
  keyboard := rfl
  hooks := .inr (.inl rfl)

/-- Nothing is on its way: no call under way, no message and no task left. -/
structure Quiet (l : TriggerLoop) : Prop where
  started : l.msgWnd = true
  posting : l.posting = []
  queue : l.queue = []
  todo : l.todo = []

variable {H : LoopHost}

/-- The run keeps what is on its way. -/
theorem converging_after {acts : List LoopAct}
    (hanswers : (loopMachine H).Meets Answers {} acts) :
    Converging H ((loopMachine H).after {} acts) (lastSettings acts) := by
  have hrun := (loopMachine H).record_of_meets
    (I := fun l acts => Converging H l (lastSettings acts)) (P := Answers)
    (fun l past a h ha => ?_) (s := {}) (h := []) (converging_start H) hanswers
  · rwa [List.nil_append] at hrun
  · rw [lastSettings, lastOf_append]
    exact h.step ha

/-- With nothing on its way, what is in use is the last. -/
theorem Converging.settles {l : TriggerLoop} {last : TriggerSettings} (h : Converging H l last)
    (hquiet : l.Quiet) :
    l.cfg = last ∧ l.targets = H.targets last.targetProcesses ∧ l.Installed := by
  have hnone : l.pending = none := by
    by_contra hne
    rcases h.pending hne with hno | htask | hmsg
    · exact absurd (hquiet.started.symm.trans hno) (by simp)
    · exact absurd htask (by simp [hquiet.todo])
    · exact absurd hmsg (by simp [hquiet.queue, hquiet.posting])
  have hcfg : l.cfg = last := by
    rw [← h.config, hnone]
    rfl
  refine ⟨hcfg, hcfg ▸ h.targets, h.hooks.resolve_right ?_⟩
  rintro (hno | hup | hpost | ⟨m, hm, -⟩)
  · exact absurd (hquiet.started.symm.trans hno) (by simp)
  · exact absurd hup (by simp [hquiet.todo])
  · exact absurd hpost (by simp [hquiet.todo])
  · exact absurd hm (by simp [hquiet.queue, hquiet.posting])

end TriggerLoop

/-- **Configurations and captures reach the trigger thread.**  Any number of calls from other
    threads, each leaving its value and posting its message at any later moment, before and
    after the thread starts, interleaved with captures and foreground changes: as soon as
    nothing is on its way the last configuration is in use, its target list is read, and the
    hooks, raw input and the hotkey are what it and the capture state need. -/
theorem loop_converges (H : LoopHost) (acts : List LoopAct)
    (hanswers : (loopMachine H).Meets TriggerLoop.Answers {} acts)
    (hquiet : ((loopMachine H).after {} acts).Quiet) :
    ((loopMachine H).after {} acts).cfg = lastSettings acts ∧
      ((loopMachine H).after {} acts).targets =
        H.targets (lastSettings acts).targetProcesses ∧
      ((loopMachine H).after {} acts).Installed :=
  (TriggerLoop.converging_after hanswers).settles hquiet

/-- A host whose texts are plain bytes. -/
def plainHost : LoopHost where
  multiByteToWideChar s := s.map fun c => c.toUInt16
  wideCharToMultiByte w := w.map fun c => c.toUInt8
  towlower c := if 65 ≤ c ∧ c ≤ 90 then c + 32 else c
  currentProcessId := 7

/-- The thread is started, a mouse trigger is set through raw input, and every message taken. -/
def rawTrigger : List LoopAct :=
  [.startThread] ++ List.replicate 4 (.go {}) ++
    [.setConfig { trigger := KeyChord.mouse .x1, mouseBackend := .rawInput }, .post 0] ++
    List.replicate 4 (.go {})

theorem loop_converges_rawTrigger :
    ((loopMachine plainHost).after {} rawTrigger).cfg = lastSettings rawTrigger ∧
      ((loopMachine plainHost).after {} rawTrigger).targets =
        plainHost.targets (lastSettings rawTrigger).targetProcesses ∧
      ((loopMachine plainHost).after {} rawTrigger).Installed := by
  have hok : TriggerLoop.Answers {} (.go {}) := ⟨rfl, rfl, rfl, rfl⟩
  exact loop_converges plainHost rawTrigger
    ⟨trivial, hok, hok, hok, hok, trivial, trivial, hok, hok, hok, hok, trivial⟩
    ⟨by decide +kernel, by decide +kernel, by decide +kernel, by decide +kernel⟩

/-! ### One source -/

/-- When raw input is given up, Windows stops it. -/
def TriggerLoop.StopsRaw (l : TriggerLoop) : LoopAct → Prop
  | .go v =>
    l.todo.head? = some .updateHooks → l.rawOn = true →
      l.cfg.needRaw l.captureState = false → v.rawOk = true
  | _ => True

/-- **The mouse never reaches the trigger logic twice.**  Whatever is configured and captured,
    and whatever else fails, the low-level hook and raw input are never both on, as long as
    raw input stops when it is given up. -/
theorem one_mouse_source (H : LoopHost) (acts : List LoopAct)
    (hstops : (loopMachine H).Meets TriggerLoop.StopsRaw {} acts) :
    ¬ (((loopMachine H).after {} acts).mouseHook = true ∧
      ((loopMachine H).after {} acts).rawOn = true) := by
  refine (loopMachine H).invariant_of_meets
    (I := fun l => ¬ (l.mouseHook = true ∧ l.rawOn = true)) (P := TriggerLoop.StopsRaw)
    (fun l a h ha => ?_) (by simp) hstops
  show ¬ ((l.step H a).1.mouseHook = true ∧ (l.step H a).1.rawOn = true)
  cases a with
  | setConfig c => exact h
  | beginCapture allowMouse => exact h
  | cancelCapture => exact h
  | reinstallHooks => exact h
  | recomputeGate => exact h
  | post i => exact h
  | startThread =>
    simp only [TriggerLoop.step]
    split <;> exact h
  | captured =>
    simp only [TriggerLoop.step]
    split <;> exact h
  | foreground fg =>
    simp only [TriggerLoop.step]
    split <;> exact h
  | go v =>
    simp only [TriggerLoop.step]
    split
    · next task todo htodo =>
      cases task with
      | applyPendingConfig =>
        simp only [TriggerLoop.run, TriggerLoop.applyPendingConfig]
        split <;> exact h
      | installKeyboardHook => exact h
      | dropHooks =>
        exact fun hboth => absurd hboth.1 (by simp [TriggerLoop.run, TriggerLoop.dropHooks])
      | forgetName => exact h
      | evaluateGate =>
        have hg := { l with todo := todo }.evaluateGate_frame H v.foreground v.processName
        simpa only [TriggerLoop.run, hg.mouseHook, hg.rawOn] using h
      | evaluateGateOf fg =>
        have hg := { l with todo := todo }.evaluateGate_frame H fg v.processName
        simpa only [TriggerLoop.run, hg.mouseHook, hg.rawOn] using h
      | postHooks => exact h
      | updateHooks =>
        have hraw : l.rawOn = true → l.cfg.needRaw l.captureState = false → v.rawOk = true :=
          ha (by simp [htodo])
        rintro ⟨hmouse, hon⟩
        -- With the hook on afterwards raw input is not needed, so it was given up.
        have hneed : l.cfg.needHook l.captureState = true := by
          by_contra hno
          rw [Bool.not_eq_true] at hno
          cases hm : l.mouseHook <;>
            simp [TriggerLoop.run, TriggerLoop.updateHooks, hno, hm] at hmouse
        have hnotRaw : l.cfg.needRaw l.captureState = false := by
          simp [TriggerSettings.needRaw, hneed]
        cases hwas : l.rawOn with
        | false => simp [TriggerLoop.run, TriggerLoop.updateHooks, hnotRaw, hwas] at hon
        | true =>
          have hok := hraw hwas hnotRaw
          simp [TriggerLoop.run, TriggerLoop.updateHooks, hnotRaw, hwas, hok] at hon
    · split <;> exact h

/-- From raw input to the hook and back, by a capture that is cancelled. -/
theorem one_mouse_source_capture :
    ¬ (((loopMachine plainHost).after {} (rawTrigger ++
          [.beginCapture true, .post 0, .go {}, .go {}])).mouseHook = true ∧
      ((loopMachine plainHost).after {} (rawTrigger ++
          [.beginCapture true, .post 0, .go {}, .go {}])).rawOn = true) := by
  have hok : ∀ l : TriggerLoop, l.StopsRaw (.go {}) := fun _ _ _ _ => rfl
  exact one_mouse_source plainHost _
    ⟨trivial, hok _, hok _, hok _, hok _, trivial, trivial, hok _, hok _, hok _, hok _, trivial,
      trivial, hok _, hok _, trivial⟩

end InfinityClicker
