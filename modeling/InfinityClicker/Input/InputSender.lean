import InfinityClicker.Input.InputAction
import InfinityClicker.Core.Presses

namespace InfinityClicker

/-!
# The sender: `SendInput`, the held-key record and its shared mirror

`InputSender` is the only caller of `SendInput` for output.  It records every key and button
left down (`track`) and mirrors the record into shared memory (`publish`) for the guardian.

* `SendResult` — what one `SendInput` call does: it accepts a prefix of the events;
* `HeldShared`, `Store` — the shared record and the stores `publish` makes to it, one by one;
* `InputSender.send` / `InputSender.releaseAll` — with the `SendInput` calls they make;
* `releaseHeldFrom` — the guardian's and the crash handler's release from the shared record.
-/

/-! ### `SendInput` -/

/-- How one `SendInput` call goes: Windows accepts the first `limit` events of the call (all of
    them for `none`) and leaves `error` for `GetLastError`. -/
structure SendResult where
  limit : Option ℕ := none
  error : BitVec 32 := 0
deriving DecidableEq, Repr

/-- The number of events accepted out of `n`. -/
def SendResult.accepted (r : SendResult) (n : ℕ) : ℕ :=
  match r.limit with
  | none => n
  | some k => min k n

/-- One call of `SendInput`: the events passed and how many were accepted. -/
structure SendCall where
  events : List INPUT
  ok : ℕ
deriving DecidableEq, Repr

/-- The events of a call that Windows accepted: they change the real key state. -/
def SendCall.acceptedEvents (c : SendCall) : List INPUT := c.events.take c.ok

/-- `SendInput(n, in, ..)`. -/
def sendInput (events : List INPUT) (r : SendResult) : SendCall :=
  ⟨events, r.accepted events.length⟩

/-- No more is accepted than was sent. -/
theorem SendResult.accepted_le (r : SendResult) (n : ℕ) : r.accepted n ≤ n := by
  unfold SendResult.accepted
  split
  · exact le_refl n
  · exact Nat.min_le_right _ n

/-- Without a limit everything is accepted. -/
@[simp] theorem SendResult.accepted_none (e : BitVec 32) (n : ℕ) :
    SendResult.accepted ⟨none, e⟩ n = n := rfl

/-! ### The shared record -/

/-- The cross-process record of every key and button held down. -/
structure HeldShared where
  magic : BitVec 32
  /-- Bit `i`: `MouseButton(i)` held (left to X2). -/
  mouseMask : Fin 5 → Bool
  /-- The 256-bit VK set. -/
  keyBits : Vk → Bool
  /-- scan | 0x100 (extended) | 0x200 (VK mode), per VK. -/
  keyScan : Vk → BitVec 16

/-- The word that marks a shared record as set up. -/
def kMagic : BitVec 32 := 0x44484C54

/-- The 32-bit word of the key set a VK lives in. -/
def Vk.word (vk : Vk) : Fin 8 := ⟨vk.toNat / 32, by have := vk.isLt; omega⟩

/-- One store to the shared record. -/
inductive Store where
  /-- `keyScan[vk] = meta`. -/
  | keyScan (vk : Vk) (value : BitVec 16)
  /-- `InterlockedExchange(&keyBits[w], ..)`, the 32 bits of word `w` taken from `bits`. -/
  | keyWord (w : Fin 8) (bits : Vk → Bool)
  /-- `InterlockedExchange(&mouseMask, ..)`. -/
  | mouseMask (mask : Fin 5 → Bool)

/-- One store of `publish` into the shared record. -/
def Store.apply (h : HeldShared) : Store → HeldShared
  | .keyScan vk value => { h with keyScan := Function.update h.keyScan vk value }
  | .keyWord w bits =>
    { h with keyBits := fun vk => if Vk.word vk = w then bits vk else h.keyBits vk }
  | .mouseMask mask => { h with mouseMask := mask }

/-! ### The sender -/

/-- `InputSender`: the counters, the record of what is held and its shared copy. -/
structure InputSender where
  calls : ℕ := 0
  requested : ℕ := 0
  accepted : ℕ := 0
  failedCalls : ℕ := 0
  lastError : BitVec 32 := 0
  shared : Option HeldShared := none
  heldMouse : Fin 5 → Bool := fun _ => false
  heldKeys : Vk → Bool := fun _ => false
  keyMeta : Vk → BitVec 16 := fun _ => 0
  heldKeyCount : ℤ := 0
  dirty : Bool := false

namespace InputSender

/-- `track`'s `set(bit, down)`. -/
def setMouse (s : InputSender) (bit : Fin 5) (down : Bool) : InputSender :=
  { s with
    heldMouse := Function.update s.heldMouse bit down
    dirty := s.dirty || s.heldMouse bit != down }

/-- `setMouse` under a condition. -/
def setMouseIf (c : Bool) (bit : Fin 5) (down : Bool) (s : InputSender) : InputSender :=
  if c then s.setMouse bit down else s

/-- The metadata word of a key press. -/
def packMeta (ki : KeybdInput) : BitVec 16 :=
  (ki.wScan &&& 0xFF) ||| (if hasFlag ki.dwFlags KEYEVENTF_EXTENDEDKEY then 0x100 else 0) |||
    (if hasFlag ki.dwFlags KEYEVENTF_SCANCODE then 0 else 0x200)

/-- `track`: what one accepted event does to the record. -/
def track (s : InputSender) : INPUT → InputSender
  | .mouse mi =>
    let f := mi.dwFlags
    let s := s.setMouseIf (hasFlag f MOUSEEVENTF_LEFTDOWN) 0 true
    let s := s.setMouseIf (hasFlag f MOUSEEVENTF_LEFTUP) 0 false
    let s := s.setMouseIf (hasFlag f MOUSEEVENTF_RIGHTDOWN) 1 true
    let s := s.setMouseIf (hasFlag f MOUSEEVENTF_RIGHTUP) 1 false
    let s := s.setMouseIf (hasFlag f MOUSEEVENTF_MIDDLEDOWN) 2 true
    let s := s.setMouseIf (hasFlag f MOUSEEVENTF_MIDDLEUP) 2 false
    if hasFlag f (MOUSEEVENTF_XDOWN ||| MOUSEEVENTF_XUP) then
      let down := hasFlag f MOUSEEVENTF_XDOWN
      let s := s.setMouseIf (hasFlag mi.mouseData XBUTTON1) 3 down
      s.setMouseIf (hasFlag mi.mouseData XBUTTON2) 4 down
    else s
  | .keyboard ki =>
    let vk : Vk := ki.wVk.setWidth 8
    if vk = 0 then s
    else
      let up := hasFlag ki.dwFlags KEYEVENTF_KEYUP
      let was := s.heldKeys vk
      if !up && !was then
        { s with
          heldKeys := Function.update s.heldKeys vk true
          heldKeyCount := s.heldKeyCount + 1
          keyMeta := Function.update s.keyMeta vk (packMeta ki)
          dirty := true }
      else if up && was then
        { s with
          heldKeys := Function.update s.heldKeys vk false
          heldKeyCount := s.heldKeyCount - 1
          dirty := true }
      else s
  | .hardware => s

/-- The accepted events of a call, in their order. -/
def trackAll (s : InputSender) (ins : List INPUT) : InputSender := ins.foldl track s

/-- Every VK, in the order the word and bit loops visit them. -/
def vks : List Vk := (List.range 256).map (BitVec.ofNat 8)

/-- The stores of `publish` in order: the metadata of every held key, then the eight key
    words, then the mouse word. -/
def publishStores (s : InputSender) : List Store :=
  (vks.filter s.heldKeys).map (fun vk => .keyScan vk (s.keyMeta vk)) ++
    (List.finRange 8).map (fun w => .keyWord w s.heldKeys) ++ [.mouseMask s.heldMouse]

/-- `publish`: the record goes to the shared copy, word by word. -/
def publish (s : InputSender) : InputSender :=
  { s with
    dirty := false
    shared := s.shared.map fun h => s.publishStores.foldl Store.apply h }

/-- `if (dirty_) publish()`. -/
def publishIfDirty (s : InputSender) : InputSender := if s.dirty then s.publish else s

/-- The counters of `send` after its `SendInput` call. -/
def countCall (s : InputSender) (n ok : ℕ) (error : BitVec 32) : InputSender :=
  { s with
    calls := s.calls + 1
    requested := s.requested + n
    accepted := s.accepted + ok
    failedCalls := if ok ≠ n then s.failedCalls + 1 else s.failedCalls
    lastError := if ok ≠ n then error else s.lastError }

/-- What an operation of the sender leaves, returns and passed to `SendInput`. -/
structure Result where
  sender : InputSender
  ok : ℕ := 0
  calls : List SendCall := []

/-- `send`: one call, the events it accepted tracked and published. -/
def send (s : InputSender) (ins : List INPUT) (r : SendResult) : Result :=
  if ins = [] then { sender := s }
  else
    let c := sendInput ins r
    let s := (s.countCall ins.length c.ok r.error).trackAll c.acceptedEvents
    { sender := s.publishIfDirty, ok := c.ok, calls := [c] }

/-- The release of a key, made as its press was. -/
def keyUpFor (keyMeta : Vk → BitVec 16) (vk : Vk) : INPUT :=
  let m := keyMeta vk
  let mode := if m &&& 0x200#16 ≠ 0 then KeyInjectMode.virtualKey else .scanCode
  makeKeyInput (vk.setWidth 16) (m &&& 0xFF) (m &&& 0x100#16 != 0) true mode kTagInfClick

/-- The release of a button. -/
def mouseUpFor (b : Fin 5) : INPUT :=
  makeMouseInput (MouseButton.ofCode (BitVec.ofNat 16 b)) false 0 kTagInfClick

/-- The room of `releaseAll`'s buffer. -/
def releaseRoom : ℕ := 64

/-- The releases `releaseAll` builds: keys in VK order, then buttons, as far as the buffer
    has room. -/
def releases (s : InputSender) : List INPUT :=
  ((vks.filter s.heldKeys).map (keyUpFor s.keyMeta) ++
    ((List.finRange 5).filter s.heldMouse).map mouseUpFor).take releaseRoom

/-- Sends UP for what is recorded as held; one retry of the events not accepted. -/
def releaseAll (s : InputSender) (r retry : SendResult) : Result :=
  let buf := s.releases
  if buf = [] then { sender := s }
  else
    let sent := s.send buf r
    if sent.ok ≠ buf.length then
      -- The record is cleared whatever the retry does: `trackAll` takes all of `buf`.
      let again := sendInput (buf.drop sent.ok) retry
      { sender := (sent.sender.trackAll buf).publish
        ok := sent.ok + again.ok
        calls := sent.calls ++ [again] }
    else sent

/-- `anyHeld`. -/
def anyHeld (s : InputSender) : Prop := (∃ b, s.heldMouse b = true) ∨ s.heldKeyCount ≠ 0

end InputSender

/-! ### Release from the shared record -/

/-- Builds and sends UP for everything recorded in `h`, then clears it. -/
def releaseHeldFrom (h : HeldShared) (r : SendResult) : HeldShared × List SendCall :=
  if h.magic ≠ kMagic then (h, [])
  else
    let buf :=
      ((InputSender.vks.filter h.keyBits).map (InputSender.keyUpFor h.keyScan) ++
        ((List.finRange 5).filter h.mouseMask).map InputSender.mouseUpFor).take
          InputSender.releaseRoom
    -- Cleared before the call, as in the source.
    let h := { h with keyBits := fun _ => false, mouseMask := fun _ => false }
    if buf = [] then (h, []) else (h, [sendInput buf r])

end InfinityClicker
