import InfinityClicker.Core.Clock

namespace InfinityClicker

/-!
# Keys, buttons and chords

`KeyChord` is one physical key or mouse button plus modifiers, used for triggers, the
emergency hotkey and output actions.  Virtual-key codes are 16-bit words; the arrays the
program indexes by key have 256 entries and every index is masked to a byte, so a `Vk` is one.
-/

/-- An index into the program's 256-entry key arrays. -/
abbrev Vk := BitVec 8

/-- `Device`: what a chord is pressed on. -/
inductive Device where
  | none
  | keyboard
  | mouse
deriving DecidableEq, Repr

/-- `MouseButton`: the buttons, with the four wheel directions as further ones. -/
inductive MouseButton where
  | left
  | right
  | middle
  | x1
  | x2
  | wheelUp
  | wheelDown
  | wheelLeft
  | wheelRight
deriving DecidableEq, Repr

/-- The enumerator's value. -/
def MouseButton.code : MouseButton → BitVec 16
  | .left => 0
  | .right => 1
  | .middle => 2
  | .x1 => 3
  | .x2 => 4
  | .wheelUp => 5
  | .wheelDown => 6
  | .wheelLeft => 7
  | .wheelRight => 8

/-- `MouseButton(code)`: the cast keeps the low byte; a value past the last enumerator names
    no button. -/
def MouseButton.ofCode (code : BitVec 16) : Option MouseButton :=
  match (code &&& 0xFF#16).toNat with
  | 0 => some .left
  | 1 => some .right
  | 2 => some .middle
  | 3 => some .x1
  | 4 => some .x2
  | 5 => some .wheelUp
  | 6 => some .wheelDown
  | 7 => some .wheelLeft
  | 8 => some .wheelRight
  | _ => none

/-- The literals of the five bit indices. -/
instance MouseButton.neZeroFive : NeZero 5 := ⟨by decide⟩

/-- The buttons with a down and an up, as a bit index; a wheel notch has neither. -/
def MouseButton.bit? : MouseButton → Option (Fin 5)
  | .left => some 0
  | .right => some 1
  | .middle => some 2
  | .x1 => some 3
  | .x2 => some 4
  | _ => none

/-- Bit of the Ctrl keys in a modifier mask. -/
def ModCtrl : BitVec 8 := 1

/-- Bit of the Shift keys. -/
def ModShift : BitVec 8 := 2

/-- Bit of the Alt keys. -/
def ModAlt : BitVec 8 := 4

/-- Bit of the Windows keys. -/
def ModWin : BitVec 8 := 8

/-- Enter, on the main block and on the numeric pad. -/
def VK_RETURN : BitVec 16 := 0x0D

/-- Either Shift. -/
def VK_SHIFT : BitVec 16 := 0x10

/-- Either Ctrl. -/
def VK_CONTROL : BitVec 16 := 0x11

/-- Either Alt. -/
def VK_MENU : BitVec 16 := 0x12

/-- Left Windows key. -/
def VK_LWIN : BitVec 16 := 0x5B

/-- Right Windows key. -/
def VK_RWIN : BitVec 16 := 0x5C

/-- First digit of the numeric pad. -/
def VK_NUMPAD0 : BitVec 16 := 0x60

/-- Last digit of the numeric pad. -/
def VK_NUMPAD9 : BitVec 16 := 0x69

/-- Decimal point of the numeric pad. -/
def VK_DECIMAL : BitVec 16 := 0x6E

/-- Left Shift. -/
def VK_LSHIFT : BitVec 16 := 0xA0

/-- Right Shift. -/
def VK_RSHIFT : BitVec 16 := 0xA1

/-- Left Ctrl. -/
def VK_LCONTROL : BitVec 16 := 0xA2

/-- Right Ctrl. -/
def VK_RCONTROL : BitVec 16 := 0xA3

/-- Left Alt. -/
def VK_LMENU : BitVec 16 := 0xA4

/-- Right Alt. -/
def VK_RMENU : BitVec 16 := 0xA5

/-- `KeyChord`: a key or a button with the modifiers held around it. -/
structure KeyChord where
  device : Device := .none
  /-- VK code (keyboard) or `MouseButton` (mouse). -/
  code : BitVec 16 := 0
  /-- Keyboard make code without the E0 prefix; 0 derives it from the layout. -/
  scan : BitVec 16 := 0
  extended : Bool := false
  mods : BitVec 8 := 0
deriving DecidableEq, Repr

namespace KeyChord

/-- Some device is named. -/
def valid (c : KeyChord) : Bool := c.device != .none

/-- The chord is a mouse chord. -/
def isMouse (c : KeyChord) : Bool := c.device == .mouse

/-- The chord is a keyboard chord. -/
def isKeyboard (c : KeyChord) : Bool := c.device == .keyboard

/-- The chord is one of the four wheel directions. -/
def isWheel (c : KeyChord) : Bool :=
  c.isMouse && decide (MouseButton.wheelUp.code ≤ c.code) &&
    decide (c.code ≤ MouseButton.wheelRight.code)

/-- The button that the code of a mouse chord names. -/
def button (c : KeyChord) : Option MouseButton := MouseButton.ofCode c.code

/-- `operator==`: the stored scan code does not count. -/
def same (c o : KeyChord) : Bool :=
  c.device == o.device && c.code == o.code && c.mods == o.mods &&
    (c.device != .keyboard || c.extended == o.extended)

/-- `KeyChord::mouse`. -/
def mouse (b : MouseButton) (mods : BitVec 8 := 0) : KeyChord :=
  { device := .mouse, code := b.code, mods := mods }

end KeyChord

/-- `modBitForVk`: the bit of a modifier key, zero for every other key. -/
def modBitForVk (vk : BitVec 16) : BitVec 8 :=
  if vk = VK_CONTROL ∨ vk = VK_LCONTROL ∨ vk = VK_RCONTROL then ModCtrl
  else if vk = VK_SHIFT ∨ vk = VK_LSHIFT ∨ vk = VK_RSHIFT then ModShift
  else if vk = VK_MENU ∨ vk = VK_LMENU ∨ vk = VK_RMENU then ModAlt
  else if vk = VK_LWIN ∨ vk = VK_RWIN then ModWin
  else 0

/-- `isModifierVk`: the key is a modifier, in either spelling. -/
def isModifierVk (vk : BitVec 16) : Bool := modBitForVk vk != 0

/-- The keys that are E0-prefixed by default: right Ctrl and Alt, the Windows and menu keys,
    the editing and arrow cluster, keypad divide, Num Lock, Print Screen, the media keys. -/
def defaultExtendedVks : List (BitVec 16) :=
  [VK_RCONTROL, VK_RMENU, VK_LWIN, VK_RWIN, 0x5D, 0x2D, 0x2E, 0x24, 0x23, 0x21, 0x22, 0x26, 0x28,
    0x25, 0x27, 0x6F, 0x90, 0x2C, 0xAD, 0xAE, 0xAF, 0xB0, 0xB1, 0xB2, 0xB3, 0xA6, 0xA7]

/-- `vkDefaultExtended`: whether the key carries the E0 prefix where none is known. -/
def vkDefaultExtended (vk : BitVec 16) : Bool := defaultExtendedVks.contains vk

/-- The make code and the extended flag of a key under the active layout. -/
def vkToScan (P : Platform) (vk : BitVec 16) : BitVec 16 × Bool :=
  -- Generic modifiers map to their left-hand key.
  let vk := if vk = VK_CONTROL then VK_LCONTROL else vk
  let vk := if vk = VK_SHIFT then VK_LSHIFT else vk
  let vk := if vk = VK_MENU then VK_LMENU else vk
  let sc := P.mapVirtualKey vk
  let e := sc &&& 0xFF00#32 == 0xE000#32 || vkDefaultExtended vk
  -- Pause is an E1 sequence: it has no single make code.
  let sc := if sc &&& 0xFF00#32 = 0xE100#32 then 0#32 else sc
  ((sc &&& 0xFF#32).setWidth 16, e)

end InfinityClicker
