import InfinityClicker.Core.Mailbox
import InfinityClicker.Telemetry.Stats
import InfinityClicker.Trigger.Hooks
import InfinityClicker.Trigger.TargetList

namespace InfinityClicker

open Machines

/-!
# The message loop of the trigger thread

Other threads leave a configuration or a capture state and post a message; the trigger thread
takes the messages in order and does what each asks for.  Hooks and the foreground window are
kept by that thread alone.

* `TriggerSettings` — the whole configuration, of which the handlers read a part;
* `TriggerLoop` — what the threads share and what the trigger thread keeps;
* `TriggerLoop.updateHooks`, `TriggerLoop.evaluateGate` — what the messages lead to;
* `loopMachine` — the posting threads, the trigger thread, captures and foreground changes, one
  move at a time.
-/

/-! ### Settings -/

/-- A UTF-16 text. -/
abbrev WString := List UInt16

/-- What the loop uses of Windows and the C library that never changes. -/
structure LoopHost where
  /-- `MultiByteToWideChar` on a text that is not empty. -/
  multiByteToWideChar : Json.Bytes → WString
  /-- `WideCharToMultiByte` on a text that is not empty. -/
  wideCharToMultiByte : WString → Json.Bytes
  towlower : UInt16 → UInt16
  currentProcessId : BitVec 32

namespace LoopHost

variable (H : LoopHost)

/-- `toWide`. -/
def toWide (s : Json.Bytes) : WString := if s = [] then [] else H.multiByteToWideChar s

/-- `toUtf8`. -/
def toUtf8 (w : WString) : Json.Bytes := if w = [] then [] else H.wideCharToMultiByte w

/-- Lower case, letter by letter. -/
def toLowerW (w : WString) : WString := w.map H.towlower

/-- What `applyPendingConfig` makes of the text of the target programs. -/
def targets (targetProcesses : WString) : List WString :=
  (targetItems (H.toUtf8 targetProcesses)).map fun item => H.toLowerW (H.toWide item)

end LoopHost

/-- `TriggerConfig` with all its fields. -/
structure TriggerSettings extends TriggerConfig where
  filter : HookFilter := {}
  mouseBackend : TriggerBackend := .hook
  observeMouse : Bool := false
  filterEnabled : Bool := false
  targetProcesses : WString := []
  pauseOnOwnWindow : Bool := true
  /-- The window of the test pad, 0 for none. -/
  testPad : ℕ := 0
deriving DecidableEq, Repr

namespace TriggerSettings

variable (cfg : TriggerSettings)

/-- Whether a chord of the configuration needs the mouse. -/
def mouseTrig : Bool := cfg.trigger.isMouse || cfg.emergency.isMouse

/-- The low-level mouse hook is needed. -/
def needHook (capture : CaptureState) : Bool :=
  capture == .keyboardMouse || cfg.observeMouse ||
    (cfg.mouseTrig && (cfg.mouseBackend == .hook || cfg.suppressTrigger))

/-- Raw input is needed instead. -/
def needRaw (capture : CaptureState) : Bool := !cfg.needHook capture && cfg.mouseTrig

/-- The emergency stop is registered as a hotkey too. -/
def needHotkey : Bool := cfg.emergency.isKeyboard && cfg.emergency.mods != 0

end TriggerSettings

/-! ### Messages and what they lead to -/

/-- The thread messages of the loop. -/
inductive LoopMessage where
  | reconfig
  | hooks
  | gate
  | reinstall
deriving DecidableEq, Repr

/-- The window in the foreground: its process, 0 when unknown, and its root window. -/
structure ForegroundWindow where
  pid : BitVec 32
  root : ℕ
deriving DecidableEq, Repr

/-- A part of the trigger thread's work between two accesses to what the threads share. -/
inductive LoopTask where
  | applyPendingConfig
  | installKeyboardHook
  | updateHooks
  /-- The first half of a reinstallation. -/
  | dropHooks
  /-- `lastFgPid_ = 0`. -/
  | forgetName
  | evaluateGate
  /-- The same, for the window of a foreground event. -/
  | evaluateGateOf (fg : Option ForegroundWindow)
  /-- The `PostMessage` after a capture. -/
  | postHooks
deriving DecidableEq, Repr

/-- What `wndProc` does on a message. -/
def LoopMessage.tasks : LoopMessage → List LoopTask
  | .reconfig => [.applyPendingConfig, .updateHooks, .evaluateGate]
  | .hooks => [.updateHooks]
  | .gate => [.forgetName, .evaluateGate]
  | .reinstall => [.dropHooks, .updateHooks]

/-- What `threadMain` does before its loop. -/
def startTasks : List LoopTask :=
  [.applyPendingConfig, .installKeyboardHook, .updateHooks, .evaluateGate]

/-- What Windows answers during one task. -/
structure LoopView where
  mouseHookOk : Bool := true
  kbHookOk : Bool := true
  /-- `RegisterRawInputDevices`. -/
  rawOk : Bool := true
  hotkeyOk : Bool := true
  /-- `GetForegroundWindow`, `none` for no window. -/
  foreground : Option ForegroundWindow := none
  processName : BitVec 32 → WString := fun _ => []

/-- What others see of a task. -/
inductive LoopEvent where
  /-- `evaluateGate` looked at a window. -/
  | looked (fg : Option ForegroundWindow)
  /-- The gate event is set and `onGateChanged` called. -/
  | gateChanged
deriving DecidableEq, Repr

/-! ### State -/

/-- `TriggerEngine`, the part its message loop works on. -/
structure TriggerLoop where
  /-- `pending_` while `pendingValid_`. -/
  pending : Option TriggerSettings := none
  captureState : CaptureState := .off
  /-- The messages that other threads are about to post. -/
  posting : List LoopMessage := []
  /-- `msgWnd_` exists. -/
  msgWnd : Bool := false
  queue : List LoopMessage := []
  /-- What the trigger thread still has to do before it takes the next message. -/
  todo : List LoopTask := []
  cfg : TriggerSettings := {}
  targets : List WString := []
  kbHook : Bool := false
  kbHookOn : Bool := false
  mouseHook : Bool := false
  mouseHookOn : Bool := false
  rawOn : Bool := false
  hotkeyOn : Bool := false
  lastFgPid : BitVec 32 := 0
  lastFgName : WString := []
  fgName : WString := []
  gateOpen : Bool := true
  gateReason : PauseReason := .none

namespace TriggerLoop

variable (H : LoopHost) (l : TriggerLoop)

/-- `applyPendingConfig`, but for the edge state of the trigger. -/
def applyPendingConfig : TriggerLoop :=
  match l.pending with
  | none => l
  | some c =>
    { l with pending := none, cfg := c, targets := H.targets c.targetProcesses }

/-- `installKeyboardHook`. -/
def installKeyboardHook (v : LoopView) : TriggerLoop :=
  { l with kbHook := v.kbHookOk, kbHookOn := v.kbHookOk }

/-- `updateHooks`: the mouse hook and raw input come and go with the need for them. -/
def updateHooks (v : LoopView) : TriggerLoop :=
  let needHook := l.cfg.needHook l.captureState
  let needRaw := l.cfg.needRaw l.captureState
  let mouseHook :=
    if needHook && !l.mouseHook then v.mouseHookOk
    else if !needHook && l.mouseHook then false
    else l.mouseHook
  { l with
    mouseHook := mouseHook
    mouseHookOn := mouseHook
    rawOn := if needRaw != l.rawOn then (if v.rawOk then needRaw else l.rawOn) else l.rawOn
    kbHook := if !l.kbHook then v.kbHookOk else l.kbHook
    kbHookOn := if !l.kbHook then v.kbHookOk else l.kbHookOn
    hotkeyOn := l.cfg.needHotkey && v.hotkeyOk }

/-- The health check's reinstallation, up to `updateHooks`. -/
def dropHooks (v : LoopView) : TriggerLoop :=
  { l with
    kbHook := v.kbHookOk
    kbHookOn := v.kbHookOk
    mouseHook := false
    mouseHookOn := if l.mouseHook then false else l.mouseHookOn }

/-- The gate for a foreground process and its root window: open, and the reason when not. -/
def decideGate (cfg : TriggerSettings) (targets : List WString) (pid : BitVec 32) (root : ℕ)
    (name : WString) : Bool × PauseReason :=
  let own := decide (pid ≠ 0 ∧ pid = H.currentProcessId)
  if own && (cfg.testPad != 0 && root == cfg.testPad) then (true, .none)
  else if own && cfg.pauseOnOwnWindow then (false, .ownWindow)
  else if cfg.filterEnabled && !targets.isEmpty then
    if H.toLowerW name ∈ targets then (true, .none) else (false, .targetNotForeground)
  else (true, .none)

/-- The process of a window, 0 when unknown. -/
def pidOf (fg : Option ForegroundWindow) : BitVec 32 := (fg.map ForegroundWindow.pid).getD 0

/-- `GetAncestor(fg, GA_ROOT)`. -/
def rootOf (fg : Option ForegroundWindow) : ℕ := (fg.map ForegroundWindow.root).getD 0

/-- The name of the foreground process; that of the last one is kept. -/
def showName (pid : BitVec 32) (processName : BitVec 32 → WString) : TriggerLoop :=
  if pid ≠ 0 ∧ pid = l.lastFgPid then { l with fgName := l.lastFgName }
  else
    let name := if pid ≠ 0 then processName pid else []
    { l with lastFgPid := pid, lastFgName := name, fgName := name }

/-- `evaluateGate`: the window in front decides, and is shown when it changed. -/
def evaluateGate (fg : Option ForegroundWindow) (processName : BitVec 32 → WString) :
    TriggerLoop × List LoopEvent :=
  let shown := l.showName (pidOf fg) processName
  let gate := decideGate H l.cfg l.targets (pidOf fg) (rootOf fg) shown.fgName
  ({ shown with gateOpen := gate.1, gateReason := gate.2 },
    .looked fg ::
      if l.gateOpen ≠ gate.1 ∨ l.gateReason ≠ gate.2 then [.gateChanged] else [])

/-- One task. -/
def run (v : LoopView) : LoopTask → TriggerLoop × List LoopEvent
  | .applyPendingConfig => (l.applyPendingConfig H, [])
  | .installKeyboardHook => (l.installKeyboardHook v, [])
  | .updateHooks => (l.updateHooks v, [])
  | .dropHooks => (l.dropHooks v, [])
  | .forgetName => ({ l with lastFgPid := 0 }, [])
  | .evaluateGate => l.evaluateGate H v.foreground v.processName
  | .evaluateGateOf fg => l.evaluateGate H fg v.processName
  | .postHooks => ({ l with queue := l.queue ++ [.hooks] }, [])

end TriggerLoop

/-! ### The machine -/

/-- A move of some thread. -/
inductive LoopAct where
  | setConfig (cfg : TriggerSettings)
  | beginCapture (allowMouse : Bool)
  | cancelCapture
  | reinstallHooks
  | recomputeGate
  /-- The `i`-th call under way posts its message, if there is a window to post it to. -/
  | post (i : ℕ)
  | startThread
  /-- The trigger thread goes on: its next task, or the next message. -/
  | go (v : LoopView)
  /-- A hook procedure captured a chord. -/
  | captured
  /-- The foreground window changed. -/
  | foreground (fg : Option ForegroundWindow)

namespace TriggerLoop

/-- One move of the loop, or of a thread that posts to it. -/
def step (H : LoopHost) (l : TriggerLoop) : LoopAct → TriggerLoop × List LoopEvent
  | .setConfig c => ({ l with pending := some c, posting := l.posting ++ [.reconfig] }, [])
  | .beginCapture allowMouse =>
    ({ l with
        captureState := if allowMouse then .keyboardMouse else .keyboard
        posting := l.posting ++ [.hooks] }, [])
  | .cancelCapture => ({ l with captureState := .off, posting := l.posting ++ [.hooks] }, [])
  | .reinstallHooks => ({ l with posting := l.posting ++ [.reinstall] }, [])
  | .recomputeGate => ({ l with posting := l.posting ++ [.gate] }, [])
  | .post i =>
    ({ l with
        posting := l.posting.eraseIdx i
        queue := if l.msgWnd then l.queue ++ (l.posting[i]?).toList else l.queue }, [])
  | .startThread =>
    if l.msgWnd then (l, []) else ({ l with msgWnd := true, todo := startTasks }, [])
  | .go v =>
    match l.todo with
    | task :: todo => { l with todo := todo }.run H v task
    | [] =>
      match l.queue with
      | m :: queue => ({ l with queue := queue, todo := m.tasks }, [])
      | [] => (l, [])
  | .captured =>
    if l.msgWnd ∧ l.todo = [] ∧ l.captureState ≠ .off then
      ({ l with captureState := .off, todo := [.postHooks] }, [])
    else (l, [])
  | .foreground fg =>
    if l.msgWnd ∧ l.todo = [] then ({ l with todo := [.evaluateGateOf fg] }, []) else (l, [])

end TriggerLoop

/-- The threads around the message loop as a machine. -/
def loopMachine (H : LoopHost) : Machine TriggerLoop LoopAct LoopEvent where
  step := TriggerLoop.step H

end InfinityClicker
