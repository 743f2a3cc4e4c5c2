import InfinityClicker.Input.InputAction
import InfinityClicker.Trigger.TriggerEngine

namespace InfinityClicker

open Machines

/-!
# The hooks

The three ways physical input reaches the trigger engine: the low-level keyboard hook, the
low-level mouse hook and raw input.  Each tells the program's own output by its tag and counts
it, classifies the rest, and hands what counts as physical to the handlers.

* `TriggerHooks` — the trigger engine with what the hooks keep beside it;
* `TriggerHooks.kbProc`, `TriggerHooks.mouseProc`, `TriggerHooks.handleRawInput`;
* `hooksMachine` — hook events, configurations and captures in any order;
* `hooks_run_trigger` — its trigger engine runs as `triggerMachine` does.
-/

/-! ### What the system passes -/

/-- `POINT`. -/
structure Point where
  x : ℤ := 0
  y : ℤ := 0
deriving DecidableEq, Repr

/-- `RECT`; the right and bottom edges lie outside. -/
structure Rect where
  left : ℤ
  top : ℤ
  right : ℤ
  bottom : ℤ
deriving DecidableEq, Repr

/-- `PtInRect`. -/
def Rect.contains (r : Rect) (p : Point) : Bool :=
  decide (r.left ≤ p.x) && decide (p.x < r.right) && decide (r.top ≤ p.y) && decide (p.y < r.bottom)

/-- `KBDLLHOOKSTRUCT`. -/
structure KbdHookInfo where
  vkCode : BitVec 32
  scanCode : BitVec 32
  flags : BitVec 32 := 0
  dwExtraInfo : BitVec 64 := 0
deriving DecidableEq, Repr

/-- `MSLLHOOKSTRUCT`. -/
structure MouseHookInfo where
  pt : Point := {}
  mouseData : BitVec 32 := 0
  flags : BitVec 32 := 0
  dwExtraInfo : BitVec 64 := 0
deriving DecidableEq, Repr

/-- `RAWMOUSE`. -/
structure RawMouse where
  usButtonFlags : BitVec 16
  usButtonData : BitVec 16 := 0
  ulExtraInformation : BitVec 32 := 0
deriving DecidableEq, Repr

/-- What the handlers ask the sink and the system for; a raw input event has several handler
    calls, which may get different answers. -/
structure HookView where
  qpc : ℤ := 0
  /-- `sink_->isArmed()`. -/
  armed : ℕ → Bool := fun _ => false
  /-- `GetWindowRect(ownWindow)`, `none` when it fails. -/
  ownRect : ℕ → Option Rect := fun _ => none

/-- The hook call carries a message to look at. -/
def HC_ACTION : ℤ := 0

/-- A key goes down. -/
def WM_KEYDOWN : BitVec 64 := 0x0100

/-- A key goes down with Alt held. -/
def WM_SYSKEYDOWN : BitVec 64 := 0x0104

/-- The pointer moves. -/
def WM_MOUSEMOVE : BitVec 64 := 0x0200

/-- Left button goes down. -/
def WM_LBUTTONDOWN : BitVec 64 := 0x0201

/-- Left button comes up. -/
def WM_LBUTTONUP : BitVec 64 := 0x0202

/-- Right button goes down. -/
def WM_RBUTTONDOWN : BitVec 64 := 0x0204

/-- Right button comes up. -/
def WM_RBUTTONUP : BitVec 64 := 0x0205

/-- Middle button goes down. -/
def WM_MBUTTONDOWN : BitVec 64 := 0x0207

/-- Middle button comes up. -/
def WM_MBUTTONUP : BitVec 64 := 0x0208

/-- The vertical wheel turns. -/
def WM_MOUSEWHEEL : BitVec 64 := 0x020A

/-- An X button goes down. -/
def WM_XBUTTONDOWN : BitVec 64 := 0x020B

/-- An X button comes up. -/
def WM_XBUTTONUP : BitVec 64 := 0x020C

/-- The horizontal wheel turns. -/
def WM_MOUSEHWHEEL : BitVec 64 := 0x020E

/-- The key has the E0 prefix. -/
def LLKHF_EXTENDED : BitVec 32 := 0x01

/-- The key event comes from some `SendInput`. -/
def LLKHF_INJECTED : BitVec 32 := 0x10

/-- The mouse event comes from some `SendInput`. -/
def LLMHF_INJECTED : BitVec 32 := 0x01

/-- The raw packet turns the vertical wheel. -/
def RI_MOUSE_WHEEL : BitVec 16 := 0x0400

/-- The raw packet turns the horizontal wheel. -/
def RI_MOUSE_HWHEEL : BitVec 16 := 0x0800

/-- `HIWORD`. -/
def hiword (x : BitVec 32) : BitVec 16 := (x >>> 16).setWidth 16

/-- `handleRawInput`'s `kMap`: a flag, its button and whether it is a press. -/
def kMap : List (BitVec 16 × MouseButton × Bool) :=
  [(0x0001, .left, true), (0x0002, .left, false), (0x0004, .right, true), (0x0008, .right, false),
    (0x0010, .middle, true), (0x0020, .middle, false), (0x0040, .x1, true), (0x0080, .x1, false),
    (0x0100, .x2, true), (0x0200, .x2, false)]

/-- The button a message of the mouse hook is about, and whether it is a press; `none` for the
    messages that are passed on. -/
def mouseMessage (wp : BitVec 64) (mouseData : BitVec 32) : Option (MouseButton × Bool) :=
  if wp = WM_LBUTTONDOWN then some (.left, true)
  else if wp = WM_LBUTTONUP then some (.left, false)
  else if wp = WM_RBUTTONDOWN then some (.right, true)
  else if wp = WM_RBUTTONUP then some (.right, false)
  else if wp = WM_MBUTTONDOWN then some (.middle, true)
  else if wp = WM_MBUTTONUP then some (.middle, false)
  else if wp = WM_XBUTTONDOWN ∨ wp = WM_XBUTTONUP then
    some (if (hiword mouseData).setWidth 32 = XBUTTON1 then .x1 else .x2, wp == WM_XBUTTONDOWN)
  else if wp = WM_MOUSEWHEEL then
    some (if 0 < (hiword mouseData).toInt then .wheelUp else .wheelDown, true)
  else if wp = WM_MOUSEHWHEEL then
    some (if 0 < (hiword mouseData).toInt then .wheelRight else .wheelLeft, true)
  else none

/-- The handler calls of a raw input event. -/
def RawMouse.edges (m : RawMouse) : List (MouseButton × Bool) :=
  let f := m.usButtonFlags
  ((kMap.filter fun e => f &&& e.1 != 0).map fun e => e.2) ++
    (if f &&& RI_MOUSE_WHEEL ≠ 0 then
      [(if 0 < m.usButtonData.toInt then .wheelUp else .wheelDown, true)] else []) ++
    if f &&& RI_MOUSE_HWHEEL ≠ 0 then
      [(if 0 < m.usButtonData.toInt then .wheelRight else .wheelLeft, true)] else []

/-! ### The state -/

/-- The part of the configuration the hooks read. -/
structure HookFilter where
  acceptInjected : Bool := false
  acceptBenchTag : Bool := false
deriving DecidableEq, Repr

/-- The counters of the program's own output and of other programs' input. -/
structure ObservedCounters where
  observedOursMouse : ℕ := 0
  observedOursKeyboard : ℕ := 0
  observedOurs : ℕ := 0
  observedForeignInjected : ℕ := 0
deriving DecidableEq, Repr

namespace ObservedCounters

variable (c : ObservedCounters)

/-- One more mouse event of our own. -/
def oursMouse : ObservedCounters :=
  { c with observedOursMouse := c.observedOursMouse + 1, observedOurs := c.observedOurs + 1 }

/-- One more key event of our own. -/
def oursKeyboard : ObservedCounters :=
  { c with observedOursKeyboard := c.observedOursKeyboard + 1, observedOurs := c.observedOurs + 1 }

/-- One more injected event of another program. -/
def foreign : ObservedCounters :=
  { c with observedForeignInjected := c.observedForeignInjected + 1 }

end ObservedCounters

/-- The trigger engine with what the hooks keep beside it. -/
structure TriggerHooks where
  engine : TriggerEngine := {}
  /-- Of `cfg_`. -/
  filter : HookFilter := {}
  /-- Of `pending_`. -/
  pendingFilter : HookFilter := {}
  lastPt : Point := {}
  physicalButtonEvents : ℕ := 0
  counters : ObservedCounters := {}

namespace TriggerHooks

variable (h : TriggerHooks)

/-! ### The hook procedures -/

/-- Whether the handlers take an event for a press of the user's. -/
def classifyPhysical (extra : BitVec 64) (injected : Bool) : Bool :=
  if extra = kTagBench then h.filter.acceptBenchTag
  else if !injected then true
  else h.filter.acceptInjected

/-- Input of another program, where it is marked as injected, is counted and passed on. -/
def passOn (injected : Bool) : TriggerHooks × List TriggerEvent :=
  (if injected then { h with counters := h.counters.foreign } else h, [])

/-- `kbProc`, the low-level keyboard hook: counts what is injected and hands on the rest. -/
def kbProc (code : ℤ) (wp : BitVec 64) (k : KbdHookInfo) (v : HookView) :
    TriggerHooks × List TriggerEvent :=
  if code ≠ HC_ACTION then (h, [])
  else if k.dwExtraInfo = kTagInfClick then ({ h with counters := h.counters.oursKeyboard }, [])
  else
    let injected := hasFlag k.flags LLKHF_INJECTED
    if !h.classifyPhysical k.dwExtraInfo injected then h.passOn injected
    else
      let down := wp == WM_KEYDOWN || wp == WM_SYSKEYDOWN
      let r := h.engine.handleKey down (k.vkCode.setWidth 8) (k.scanCode.setWidth 16)
        (hasFlag k.flags LLKHF_EXTENDED) v.qpc (v.armed 0)
      ({ h with engine := r.engine }, r.events)

/-- The pointer was over the own window at the last message of the mouse hook. -/
def onOwn (v : HookView) (n : ℕ) : Bool :=
  match v.ownRect n with
  | some r => r.contains h.lastPt
  | none => false

/-- `handleMouse`, called for the `n`-th time in an event. -/
def handleMouse (b : MouseButton) (down : Bool) (v : HookView) (n : ℕ) : TriggerHooks × Reply :=
  let r := h.engine.handleMouse b down (h.onOwn v n) v.qpc (v.armed n)
  ({ h with
      engine := r.engine
      physicalButtonEvents := h.physicalButtonEvents + if b.wheel then 0 else 1 }, r)

/-- `mouseProc`, the low-level mouse hook: counts what is injected and hands on the rest. -/
def mouseProc (code : ℤ) (wp : BitVec 64) (m : MouseHookInfo) (v : HookView) :
    TriggerHooks × List TriggerEvent :=
  if code ≠ HC_ACTION ∨ wp = WM_MOUSEMOVE then (h, [])
  else if m.dwExtraInfo = kTagInfClick then ({ h with counters := h.counters.oursMouse }, [])
  else
    let injected := hasFlag m.flags LLMHF_INJECTED
    if !h.classifyPhysical m.dwExtraInfo injected then h.passOn injected
    else
      match mouseMessage wp m.mouseData with
      | none => (h, [])
      | some (b, down) =>
        let (h, r) := { h with lastPt := m.pt }.handleMouse b down v 0
        (h, r.events)

/-- The handler calls of a raw input event from the `n`-th on; raw input cannot be swallowed. -/
def handleEdges (v : HookView) (n : ℕ) (h : TriggerHooks) :
    List (MouseButton × Bool) → TriggerHooks × List TriggerEvent
  | [] => (h, [])
  | (b, down) :: edges =>
    let (h, r) := h.handleMouse b down v n
    let (h, events) := handleEdges v (n + 1) h edges
    (h, r.calls.map .call ++ events)

/-- `ri` is `none` where the data cannot be read or is no mouse's. -/
def handleRawInput (ri : Option RawMouse) (v : HookView) : TriggerHooks × List TriggerEvent :=
  match ri with
  | none => (h, [])
  | some m =>
    if m.usButtonFlags = 0 then (h, [])
    else
      let extra : BitVec 64 := m.ulExtraInformation.setWidth 64
      if extra = kTagInfClick then ({ h with counters := h.counters.oursMouse }, [])
      else if extra = kTagBench ∧ h.filter.acceptBenchTag = false then (h, [])
      else handleEdges v 0 h m.edges

/-! ### Configuration -/

/-- `setConfig` with the filter that travels beside it. -/
def setConfig (cfg : TriggerConfig) (filter : HookFilter) : TriggerHooks :=
  { h with engine := h.engine.setConfig cfg, pendingFilter := filter }

/-- `applyPendingConfig`: the filter changes hands together with the configuration. -/
def applyPendingConfig : TriggerHooks :=
  { h with
    engine := h.engine.applyPendingConfig
    filter := if h.engine.pendingValid then h.pendingFilter else h.filter }

end TriggerHooks

/-! ### The machine -/

/-- What happens to the hooks. -/
inductive HookInput where
  | kbProc (code : ℤ) (wp : BitVec 64) (k : KbdHookInfo) (v : HookView)
  | mouseProc (code : ℤ) (wp : BitVec 64) (m : MouseHookInfo) (v : HookView)
  | rawInput (ri : Option RawMouse) (v : HookView)
  | setConfig (cfg : TriggerConfig) (filter : HookFilter)
  | applyPendingConfig
  | beginCapture (allowMouse : Bool)
  | cancelCapture

/-- One call of the hook thread. -/
def TriggerHooks.step (h : TriggerHooks) : HookInput → TriggerHooks × List TriggerEvent
  | .kbProc code wp k v => h.kbProc code wp k v
  | .mouseProc code wp m v => h.mouseProc code wp m v
  | .rawInput ri v => h.handleRawInput ri v
  | .setConfig cfg filter => (h.setConfig cfg filter, [])
  | .applyPendingConfig => (h.applyPendingConfig, [])
  | .beginCapture allowMouse => ({ h with engine := h.engine.beginCapture allowMouse }, [])
  | .cancelCapture => ({ h with engine := h.engine.cancelCapture }, [])

/-- The trigger thread with its hooks. -/
def hooksMachine : Machine TriggerHooks HookInput TriggerEvent where
  step := TriggerHooks.step

/-! ### The trigger engine behind the hooks -/

namespace TriggerHooks

/-- The handler calls of a raw input event are mouse inputs of the trigger engine. -/
theorem handleEdges_engine (v : HookView) (n : ℕ) (h : TriggerHooks)
    (edges : List (MouseButton × Bool)) :
    ∃ is, (handleEdges v n h edges).1.engine = triggerMachine.after h.engine is := by
  induction edges generalizing n h with
  | nil => exact ⟨[], rfl⟩
  | cons edge edges ih =>
    obtain ⟨b, down⟩ := edge
    obtain ⟨is, his⟩ := ih (n + 1) (h.handleMouse b down v n).1
    exact ⟨.mouse b down (h.onOwn v n) v.qpc (v.armed n) :: is, his⟩

/-- A move of the hooks is at most a few moves of the trigger engine. -/
theorem step_engine (h : TriggerHooks) (i : HookInput) :
    ∃ is, (h.step i).1.engine = triggerMachine.after h.engine is := by
  cases i with
  | kbProc code wp k v =>
    simp only [step, kbProc]
    split
    · exact ⟨[], rfl⟩
    · split
      · exact ⟨[], rfl⟩
      · split
        · refine ⟨[], ?_⟩
          unfold passOn
          split <;> rfl
        · exact ⟨[.key _ _ _ _ v.qpc (v.armed 0)], rfl⟩
  | mouseProc code wp m v =>
    simp only [step, mouseProc]
    split
    · exact ⟨[], rfl⟩
    · split
      · exact ⟨[], rfl⟩
      · split
        · refine ⟨[], ?_⟩
          unfold passOn
          split <;> rfl
        · split
          · exact ⟨[], rfl⟩
          · next b down _ => exact ⟨[.mouse b down _ v.qpc (v.armed 0)], rfl⟩
  | rawInput ri v =>
    simp only [step, handleRawInput]
    split
    · exact ⟨[], rfl⟩
    · next m =>
      split
      · exact ⟨[], rfl⟩
      · split
        · exact ⟨[], rfl⟩
        · split
          · exact ⟨[], rfl⟩
          · exact handleEdges_engine v 0 h m.edges
  | setConfig cfg filter => exact ⟨[.setConfig cfg], rfl⟩
  | applyPendingConfig => exact ⟨[.applyPendingConfig], rfl⟩
  | beginCapture allowMouse => exact ⟨[.beginCapture allowMouse], rfl⟩
  | cancelCapture => exact ⟨[.cancelCapture], rfl⟩

end TriggerHooks

/-- **The trigger engine behind the hooks** goes through states `triggerMachine` goes through. -/
theorem hooks_run_trigger (h : TriggerHooks) (is : List HookInput) :
    ∃ is', (hooksMachine.after h is).engine = triggerMachine.after h.engine is' := by
  have hsim : hooksMachine.SimulatedBy triggerMachine fun h e => h.engine = e := by
    rintro h _ i rfl
    exact h.step_engine i
  exact Machine.SimulatedBy.run _ hsim rfl is

end InfinityClicker
