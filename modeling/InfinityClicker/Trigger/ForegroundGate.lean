import InfinityClicker.Trigger.MouseSources

namespace InfinityClicker

open Machines Mailboxes

/-!
# The gate follows the foreground window

The gate is decided when the configuration changes and when the foreground window does; between
two messages it is what the configuration in use says about the window looked at last.

* `lastForeground` — the window `evaluateGate` looked at last;
* `TriggerLoop.Gated` — the gate is decided for that window and the configuration in use, or is
  about to be decided anew;
* `gate_follows` — between two messages it is decided.
-/

/-- The window an event looks at. -/
@[simp] def LoopEvent.look? : LoopEvent → Option (Option ForegroundWindow)
  | .looked fg => some fg
  | .gateChanged => none

/-- The window looked at last, `none` when there was no window. -/
def lastForeground (events : List LoopEvent) : Option ForegroundWindow :=
  lastOf LoopEvent.look? none events

namespace TriggerLoop

/-- The name the gate is decided by. -/
def nameOf (names : BitVec 32 → WString) (pid : BitVec 32) : WString :=
  if pid ≠ 0 then names pid else []

/-- What the gate is for a configuration and a window. -/
def gateFor (H : LoopHost) (names : BitVec 32 → WString) (cfg : TriggerSettings)
    (fg : Option ForegroundWindow) : Bool × PauseReason :=
  decideGate H cfg (H.targets cfg.targetProcesses) (pidOf fg) (rootOf fg)
    (nameOf names (pidOf fg))

/-- The gate of the state. -/
def gate (l : TriggerLoop) : Bool × PauseReason := (l.gateOpen, l.gateReason)

/-- The name kept is the name of the process kept. -/
def NameKept (names : BitVec 32 → WString) (l : TriggerLoop) : Prop :=
  l.lastFgPid ≠ 0 → l.lastFgName = names l.lastFgPid

/-- The gate and the name shown are those of the window `fg`. -/
structure GateIs (H : LoopHost) (names : BitVec 32 → WString) (l : TriggerLoop)
    (fg : Option ForegroundWindow) : Prop where
  gate : l.gate = gateFor H names l.cfg fg
  shown : l.fgName = nameOf names (pidOf fg)

/-- The state after some events: the gate is decided, or is about to be. -/
structure Gated (H : LoopHost) (names : BitVec 32 → WString) (l : TriggerLoop)
    (events : List LoopEvent) : Prop where
  orderly : l.Orderly
  targets : l.targets = H.targets l.cfg.targetProcesses
  kept : NameKept names l
  decided : l.msgWnd = false ∨ .evaluateGate ∈ l.todo ∨ GateIs H names l (lastForeground events)

/-- Every process has its name for good. -/
def Named (names : BitVec 32 → WString) (_ : TriggerLoop) : LoopAct → Prop
  | .go v => v.processName = names
  | _ => True

theorem lastForeground_append (past events : List LoopEvent) :
    lastForeground (past ++ events) = lastOf LoopEvent.look? (lastForeground past) events :=
  lastOf_append _ _ _ _

/-- The name shown is the process's own, and it is kept. -/
theorem showName_spec {names : BitVec 32 → WString} {l : TriggerLoop}
    (hkept : NameKept names l) (pid : BitVec 32) :
    NameKept names (l.showName pid names) ∧ (l.showName pid names).fgName = nameOf names pid := by
  unfold showName
  split
  · next hknown =>
    obtain ⟨hpid, hsame⟩ := hknown
    refine ⟨hkept, ?_⟩
    rw [nameOf, if_pos hpid, hsame]
    exact hkept (hsame ▸ hpid)
  · refine ⟨fun hne => ?_, rfl⟩
    have hpid : pid ≠ 0 := hne
    show (if pid ≠ 0 then names pid else []) = names pid
    rw [if_pos hpid]

/-- Looking at a window decides the gate for it. -/
theorem evaluateGate_spec (H : LoopHost) {names : BitVec 32 → WString} {l : TriggerLoop}
    (hkept : NameKept names l) (htargets : l.targets = H.targets l.cfg.targetProcesses)
    (fg : Option ForegroundWindow) (past : List LoopEvent) :
    NameKept names (l.evaluateGate H fg names).1 ∧
      lastForeground (past ++ (l.evaluateGate H fg names).2) = fg ∧
      GateIs H names (l.evaluateGate H fg names).1 fg := by
  obtain ⟨hkept', hname⟩ := showName_spec hkept (pidOf fg)
  refine ⟨hkept', ?_, ?_, hname⟩
  · rw [lastForeground_append]
    simp only [evaluateGate]
    rw [lastOf_cons]
    split
    · rw [lastOf_cons]
      rfl
    · rfl
  · show decideGate H l.cfg l.targets (pidOf fg) (rootOf fg) (l.showName (pidOf fg) names).fgName =
      gateFor H names (l.evaluateGate H fg names).1.cfg fg
    rw [(l.evaluateGate_frame H fg names).cfg, hname, htargets]
    rfl

/-- A task that moves neither the configuration nor what the gate is made of. -/
theorem Gated.keep {H : LoopHost} {names : BitVec 32 → WString} {l l' : TriggerLoop}
    {events : List LoopEvent} (h : Gated H names l events) (horderly : l'.Orderly)
    (hcfg : l'.cfg = l.cfg) (htargets : l'.targets = l.targets) (hpid : l'.lastFgPid = l.lastFgPid)
    (hname : l'.lastFgName = l.lastFgName) (hshown : l'.fgName = l.fgName)
    (hgate : l'.gate = l.gate)
    (howed : l.msgWnd = false ∨ .evaluateGate ∈ l.todo →
      l'.msgWnd = false ∨ .evaluateGate ∈ l'.todo) : Gated H names l' events := by
  refine ⟨horderly, ?_, ?_, ?_⟩
  · rw [htargets, hcfg]
    exact h.targets
  · rw [NameKept, hpid, hname]
    exact h.kept
  · rcases h.decided with hno | htask | his
    · exact (howed (.inl hno)).imp id .inl
    · exact (howed (.inr htask)).imp id .inl
    · refine .inr (.inr ⟨?_, ?_⟩)
      · rw [hgate, hcfg]
        exact his.gate
      · rw [hshown]
        exact his.shown

/-- **Every move leaves the gate decided, or about to be.** -/
theorem Gated.step {H : LoopHost} {names : BitVec 32 → WString} {l : TriggerLoop}
    {events : List LoopEvent} (h : Gated H names l events) {a : LoopAct} (ha : Named names l a) :
    Gated H names (l.step H a).1 (events ++ (l.step H a).2) := by
  have horderly := h.orderly.step H a
  have hsame : ∀ l' : TriggerLoop, l'.Orderly → l'.cfg = l.cfg → l'.targets = l.targets →
      l'.lastFgPid = l.lastFgPid → l'.lastFgName = l.lastFgName → l'.fgName = l.fgName →
      l'.gate = l.gate → l'.msgWnd = l.msgWnd → l'.todo = l.todo →
      Gated H names l' (events ++ []) := by
    intro l' ho hcfg htargets hpid hname hshown hgate hwnd htodo
    rw [List.append_nil]
    exact h.keep ho hcfg htargets hpid hname hshown hgate (by rw [hwnd, htodo]; exact id)
  cases a with
  | setConfig c => exact hsame _ horderly rfl rfl rfl rfl rfl rfl rfl rfl
  | beginCapture allowMouse => exact hsame _ horderly rfl rfl rfl rfl rfl rfl rfl rfl
  | cancelCapture => exact hsame _ horderly rfl rfl rfl rfl rfl rfl rfl rfl
  | reinstallHooks => exact hsame _ horderly rfl rfl rfl rfl rfl rfl rfl rfl
  | recomputeGate => exact hsame _ horderly rfl rfl rfl rfl rfl rfl rfl rfl
  | post i => exact hsame _ horderly rfl rfl rfl rfl rfl rfl rfl rfl
  | startThread =>
    simp only [TriggerLoop.step] at horderly ⊢
    split
    · exact hsame _ h.orderly rfl rfl rfl rfl rfl rfl rfl rfl
    · next hwnd =>
      rw [if_neg hwnd] at horderly
      rw [List.append_nil]
      exact h.keep horderly rfl rfl rfl rfl rfl rfl fun _ => .inr (by simp [startTasks])
  | captured =>
    simp only [TriggerLoop.step] at horderly ⊢
    split
    · next hc =>
      rw [if_pos hc] at horderly
      rw [List.append_nil]
      refine h.keep horderly rfl rfl rfl rfl rfl rfl fun ho => ?_
      rw [hc.1, hc.2.1] at ho
      exact absurd ho (by simp)
    · exact hsame _ h.orderly rfl rfl rfl rfl rfl rfl rfl rfl
  | foreground fg =>
    simp only [TriggerLoop.step] at horderly ⊢
    split
    · next hc =>
      rw [if_pos hc] at horderly
      rw [List.append_nil]
      refine h.keep horderly rfl rfl rfl rfl rfl rfl fun ho => ?_
      rw [hc.1, hc.2] at ho
      exact absurd ho (by simp)
    · exact hsame _ h.orderly rfl rfl rfl rfl rfl rfl rfl rfl
  | go v =>
    obtain rfl : v.processName = names := ha
    cases htodo : l.todo with
    | nil =>
      cases hqueue : l.queue with
      | nil =>
        have hout : l.step H (.go v) = (l, []) := by simp [TriggerLoop.step, htodo, hqueue]
        rw [hout]
        exact hsame _ h.orderly rfl rfl rfl rfl rfl rfl rfl rfl
      | cons m queue =>
        have hout : l.step H (.go v) = ({ l with queue := queue, todo := m.tasks }, []) := by
          simp [TriggerLoop.step, htodo, hqueue]
        rw [hout] at horderly ⊢
        rw [List.append_nil]
        refine h.keep horderly rfl rfl rfl rfl rfl rfl fun ho => ?_
        rw [htodo] at ho
        exact ho.imp id fun hmem => absurd hmem (by simp)
    | cons task todo =>
      have hout : l.step H (.go v) = ({ l with todo := todo } : TriggerLoop).run H v task := by
        simp [TriggerLoop.step, htodo]
      have horder := h.orderly.ordered
      rw [htodo] at horder
      rw [hout] at horderly ⊢
      -- A task other than these two leaves the gate owed where it was owed.
      have howed : ∀ l' : TriggerLoop, task ≠ .evaluateGate → l'.msgWnd = l.msgWnd →
          l'.todo = todo → l.msgWnd = false ∨ .evaluateGate ∈ l.todo →
          l'.msgWnd = false ∨ .evaluateGate ∈ l'.todo := by
        intro l' hne hwnd htodo' ho
        rw [htodo] at ho
        rw [hwnd, htodo']
        exact ho.imp id fun hmem => (List.mem_cons.mp hmem).resolve_left (Ne.symm hne)
      have hlook : ∀ fg, Gated H v.processName
          (({ l with todo := todo } : TriggerLoop).evaluateGate H fg v.processName).1
          (events ++
            (({ l with todo := todo } : TriggerLoop).evaluateGate H fg v.processName).2) := by
        intro fg
        have hframe := ({ l with todo := todo } : TriggerLoop).evaluateGate_frame H fg
          v.processName
        obtain ⟨hkept, hlast, his⟩ := evaluateGate_spec H (l := { l with todo := todo }) h.kept
          h.targets fg events
        refine ⟨⟨?_, ?_⟩, ?_, hkept, .inr (.inr (by rw [hlast]; exact his))⟩
        · rw [hframe.todo]
          exact horder.tail
        · intro hno
          rw [hframe.msgWnd] at hno
          have hnil := (h.orderly.unstarted hno).1
          rw [htodo] at hnil
          exact absurd hnil (by simp)
        · rw [hframe.targets, hframe.cfg]
          exact h.targets
      cases task with
      | applyPendingConfig =>
        simp only [TriggerLoop.run, List.append_nil] at horderly ⊢
        refine ⟨horderly, ?_, ?_, .inr (.inl ?_)⟩
        · unfold TriggerLoop.applyPendingConfig
          split
          · exact h.targets
          · rfl
        · unfold TriggerLoop.applyPendingConfig
          split <;> exact h.kept
        · have hframe := (run_frame H { l with todo := todo } v .applyPendingConfig).1
          simp only [TriggerLoop.run] at hframe
          rw [hframe]
          exact horder.2.1
      | forgetName =>
        simp only [TriggerLoop.run, List.append_nil] at horderly ⊢
        exact ⟨horderly, h.targets, fun hne => absurd rfl hne, .inr (.inl horder.1)⟩
      | installKeyboardHook =>
        simp only [TriggerLoop.run, List.append_nil] at horderly ⊢
        exact h.keep horderly rfl rfl rfl rfl rfl rfl (howed _ (by simp) rfl rfl)
      | updateHooks =>
        simp only [TriggerLoop.run, List.append_nil] at horderly ⊢
        exact h.keep horderly rfl rfl rfl rfl rfl rfl (howed _ (by simp) rfl rfl)
      | dropHooks =>
        simp only [TriggerLoop.run, List.append_nil] at horderly ⊢
        exact h.keep horderly rfl rfl rfl rfl rfl rfl (howed _ (by simp) rfl rfl)
      | postHooks =>
        simp only [TriggerLoop.run, List.append_nil] at horderly ⊢
        exact h.keep horderly rfl rfl rfl rfl rfl rfl (howed _ (by simp) rfl rfl)
      | evaluateGate => exact hlook v.foreground
      | evaluateGateOf fg => exact hlook fg

theorem gated_start (H : LoopHost) (names : BitVec 32 → WString) : Gated H names {} [] where
  orderly := ⟨trivial, fun _ => ⟨rfl, rfl⟩⟩
  targets := (converging_start H).targets
  kept := fun hne => absurd rfl hne
  decided := .inl rfl

end TriggerLoop

/-- **The gate follows the foreground window.**  Whatever other threads call, the gate that the
    engine reads between two messages is decided for the window looked at last and the
    configuration in use, and the name shown is that of the window's process. -/
theorem gate_follows (H : LoopHost) (names : BitVec 32 → WString) (acts : List LoopAct)
    (hnames : (loopMachine H).Meets (TriggerLoop.Named names) {} acts)
    (hstarted : ((loopMachine H).after {} acts).msgWnd = true)
    (hbetween : ((loopMachine H).after {} acts).todo = []) :
    ((loopMachine H).after {} acts).gate =
        TriggerLoop.gateFor H names ((loopMachine H).after {} acts).cfg
          (lastForeground ((loopMachine H).trace {} acts)) ∧
      ((loopMachine H).after {} acts).fgName =
        TriggerLoop.nameOf names
          (TriggerLoop.pidOf (lastForeground ((loopMachine H).trace {} acts))) := by
  have hrun := (loopMachine H).history_of_meets (I := TriggerLoop.Gated H names)
    (P := TriggerLoop.Named names) (fun l past a h ha => h.step ha) (s := {}) (h := [])
    (TriggerLoop.gated_start H names) hnames
  rw [List.nil_append] at hrun
  rcases hrun.decided with hno | htask | his
  · exact absurd (hstarted.symm.trans hno) (by simp)
  · rw [hbetween] at htask
    exact absurd htask (by simp)
  · exact ⟨his.gate, his.shown⟩

/-- Every process is the Notepad. -/
def notepads : BitVec 32 → WString := fun _ => plainHost.toWide (Json.bytes "Notepad.exe")

/-- The filter is set to another program, and the Notepad comes to the foreground. -/
def notepadForward : List LoopAct :=
  [.startThread] ++ List.replicate 4 (.go { processName := notepads }) ++
    [.setConfig {
        filterEnabled := true
        targetProcesses := plainHost.toWide (Json.bytes "javaw.exe") }, .post 0] ++
    List.replicate 4 (.go { processName := notepads }) ++
    [.foreground (some ⟨9, 3⟩), .go { processName := notepads }]

theorem gate_follows_notepad :
    ((loopMachine plainHost).after {} notepadForward).gate =
        TriggerLoop.gateFor plainHost notepads
          ((loopMachine plainHost).after {} notepadForward).cfg
          (lastForeground ((loopMachine plainHost).trace {} notepadForward)) ∧
      ((loopMachine plainHost).after {} notepadForward).fgName =
        TriggerLoop.nameOf notepads
          (TriggerLoop.pidOf (lastForeground ((loopMachine plainHost).trace {} notepadForward))) :=
  gate_follows plainHost notepads notepadForward
    ⟨trivial, rfl, rfl, rfl, rfl, trivial, trivial, rfl, rfl, rfl, rfl, trivial, rfl, trivial⟩
    (by decide +kernel) (by decide +kernel)

end InfinityClicker
