import Mathlib.Data.List.GetD
import Mathlib.Tactic.Common

/-!
# The keyboard

`KeyboardSource` turns a scan code of the PS/2 keyboard into a key, by the table `keys`. The code
that the keyboard sends when a key is released has its highest bit set and is behind the end of the
table, so a key that is pressed and released is one key (`pressed_strokes`).
-/

namespace Juos.Terminal

/-! ## The table -/

inductive SpecialCharacterType where
  | normal
  | escape
  | backspace
  | tab
  | enter
  | leftControl
  | leftShift
  | rightShift
  | leftAlt
  | capsLock
  | fKey
  deriving DecidableEq, Repr

structure KeyDescriptor where
  value : UInt8
  specialType : SpecialCharacterType
  deriving DecidableEq, Repr

/-- A key with a character, and no special one. -/
def plain (c : Char) : KeyDescriptor := ⟨c.toUInt8, .normal⟩

def special (type : SpecialCharacterType) : KeyDescriptor := ⟨0, type⟩

def function (c : Char) : KeyDescriptor := ⟨c.toUInt8, .fKey⟩

/-- In the order of the scan codes. The character 96 of the first key is the one of the key left
of the digits. -/
def keys : List KeyDescriptor := [
  ⟨96, .escape⟩, plain '1', plain '2', plain '3', plain '4', plain '5', plain '6', plain '7',
  plain '8', plain '9', plain '0', plain '-', plain '+', special .backspace, special .tab,
  plain 'Q', plain 'W', plain 'E', plain 'R', plain 'T', plain 'Y', plain 'U', plain 'I', plain 'O',
  plain 'P', plain '[', plain ']', special .enter, special .leftControl,
  plain 'A', plain 'S', plain 'D', plain 'F', plain 'G', plain 'H', plain 'J', plain 'K', plain 'L',
  plain ';', plain '\'', ⟨96, .normal⟩, special .leftShift, plain '\\',
  plain 'Z', plain 'X', plain 'C', plain 'V', plain 'B', plain 'N', plain 'M', plain ',', plain '.',
  plain '/', special .rightShift, plain '*', special .leftAlt, plain ' ', special .capsLock,
  function '1', function '2', function '3', function '4', function '5', function '6', function '7',
  function '8', function '9', function '0', function '-']

/-! ## The source -/

structure InputKeyType where
  character : UInt32
  error : Bool
  deriving DecidableEq, Repr

/-- The character of a key in the table. -/
def KeyDescriptor.character (key : KeyDescriptor) : UInt32 :=
  match key.specialType with
  | .enter => 10
  | .backspace => 8
  | _ => key.value.toUInt32

/-- `ps2::keyboard::KeyboardSource` on the byte at the data port. The character of a key that is
an error is never assigned, and is whatever the stack held. -/
def keyboardSource (junk : UInt32) (input : UInt8) : InputKeyType :=
  if 0 < input.toNat ∧ input.toNat < keys.length then
    ⟨(keys.getD (input.toNat - 1) ⟨0, .normal⟩).character, false⟩
  else ⟨junk, true⟩

/-- The character that a scan code stands for, if it stands for any. -/
def pressed (input : UInt8) : Option UInt8 :=
  if 0 < input.toNat ∧ input.toNat < keys.length then
    some (keys.getD (input.toNat - 1) ⟨0, .normal⟩).character.toUInt8
  else none

/-! ## Scan codes -/

variable {input : UInt8} {junk : UInt32}

theorem character_small : ∀ key ∈ keys, key.character.toUInt8.toUInt32 = key.character := by
  decide +kernel

theorem keyboardSource_none (h : pressed input = none) :
    keyboardSource junk input = ⟨junk, true⟩ := by
  rw [pressed, ite_eq_right_iff] at h
  exact if_neg fun hTable => nomatch h hTable

theorem keyboardSource_some {c : UInt8} (h : pressed input = some c) :
    keyboardSource junk input = ⟨c.toUInt32, false⟩ := by
  rw [pressed] at h
  split_ifs at h with hTable
  obtain rfl := Option.some.inj h
  have hIndex : input.toNat - 1 < keys.length := by omega
  have hMem : keys.getD (input.toNat - 1) ⟨0, .normal⟩ ∈ keys := by
    rw [List.getD_eq_getElem _ _ hIndex]
    exact List.getElem_mem hIndex
  rw [keyboardSource, if_pos hTable, character_small _ hMem]

/-- The code of a key that is released stands for nothing. -/
theorem pressed_release (h : input.toNat < 128) : pressed (input + 128) = none := by
  apply if_neg
  rintro ⟨-, hLt⟩
  have hValue : (input + 128).toNat = input.toNat + 128 := by
    rw [UInt8.toNat_add]
    exact Nat.mod_eq_of_lt (by change input.toNat + 128 < 256; omega)
  have hLength : keys.length = 69 := rfl
  omega

/-- What the keyboard sends when the keys with these codes are pressed and released in turn. -/
def strokes (codes : List UInt8) : List UInt8 := codes.flatMap fun code => [code, code + 128]

theorem pressed_strokes {codes : List UInt8} (h : ∀ code ∈ codes, code.toNat < 128) :
    (strokes codes).filterMap pressed = codes.filterMap pressed := by
  induction codes with
  | nil => rfl
  | cons code codes ih =>
    obtain ⟨hHead, hTail⟩ := List.forall_mem_cons.mp h
    have hRelease := pressed_release hHead
    rw [strokes, List.flatMap_cons, List.filterMap_append, ← strokes, ih hTail]
    cases hCode : pressed code with
    | none => simp [hCode, hRelease]
    | some c => simp [hCode, hRelease]

end Juos.Terminal
