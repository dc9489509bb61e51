import Juos.Machine.Run
import Mathlib.Data.Nat.Basic
import Mathlib.Order.Basic
import Mathlib.Algebra.Group.Nat.Defs

/-!
# The text terminal

`Tty::Putchar` and the calls next to it, over the cursor and the text buffer. `OnScreen` says that
the cursor is on the screen and that nothing outside the text buffer was ever written. A backspace
takes one from the column without looking at it; `onScreen_throughout_iff` says that this is the
only way off the screen, in any sequence of calls.
-/

namespace Juos.Terminal

open Machine

abbrev VGA_WIDTH : Nat := 80
abbrev VGA_HEIGHT : Nat := 25

/-- `_VgaEntryColor`. -/
def vgaEntryColor (fg bg : Nat) : UInt8 := UInt8.ofNat (fg ||| bg <<< 4)

/-- `_VgaEntry`. -/
def vgaEntry (uc color : UInt8) : UInt16 := uc.toUInt16 ||| color.toUInt16 <<< 8

def vgaColorBlack : Nat := 0
def vgaColorWhite : Nat := 15

/-- The variables of `tty.cpp`. A `size_t` has 32 bits. -/
structure Tty where
  terminalRow : Nat
  terminalColumn : Nat
  terminalColor : UInt8
  terminalBuffer : Nat → UInt16
  /-- every index of `terminal_buffer` that was written so far -/
  written : List Nat

namespace Tty

/-- `terminal_buffer[index] = entry`. -/
def store (t : Tty) (index : Nat) (entry : UInt16) : Tty :=
  { t with
    terminalBuffer := Function.update t.terminalBuffer index entry
    written := index :: t.written }

/-- `_terminal_putentryat`. -/
def putentryat (t : Tty) (c color : UInt8) (x y : Nat) : Tty :=
  t.store ((y * VGA_WIDTH + x) % 2 ^ 32) (vgaEntry c color)

/-- The two loops of `Tty::Clean`. -/
@[irreducible] def clean (t : Tty) : Tty :=
  (List.range VGA_WIDTH).foldl (fun t i =>
    (List.range VGA_HEIGHT).foldl (fun t j => t.store (i + j * VGA_WIDTH) 0) t) t

def setColor (t : Tty) (fg bg : Nat) : Tty := { t with terminalColor := vgaEntryColor fg bg }

/-- The switch of `Tty::Putchar`. -/
def putcharAt (t : Tty) (uc : UInt8) : Tty :=
  if uc = 10 then
    { t with terminalColumn := 0, terminalRow := (t.terminalRow + 1) % 2 ^ 32 }
  else if uc = 8 then
    let t := { t with terminalColumn := (t.terminalColumn + (2 ^ 32 - 1)) % 2 ^ 32 }
    t.putentryat 0 (vgaEntryColor vgaColorBlack vgaColorBlack) t.terminalColumn t.terminalRow
  else
    let t := t.putentryat uc t.terminalColor t.terminalColumn t.terminalRow
    { t with terminalColumn := (t.terminalColumn + 1) % 2 ^ 32 }

/-- The two tests at the end of `Tty::Putchar`. -/
def wrapColumn (t : Tty) : Tty :=
  if t.terminalColumn = VGA_WIDTH then
    { t with terminalColumn := 0, terminalRow := (t.terminalRow + 1) % 2 ^ 32 }
  else t

def wrapRow (t : Tty) : Tty :=
  if t.terminalRow = VGA_HEIGHT then { t.clean with terminalRow := 0 } else t

def putchar (t : Tty) (uc : UInt8) : Tty := (t.putcharAt uc).wrapColumn.wrapRow

/-- The assignments of `Tty::Initialize`; nothing was written before it. -/
def reset (terminalBuffer : Nat → UInt16) : Tty :=
  ⟨0, 0, vgaEntryColor vgaColorWhite vgaColorBlack, terminalBuffer, []⟩

end Tty

/-- `Tty::Initialize`. -/
def ttyInitialize (terminalBuffer : Nat → UInt16) : Tty :=
  (List.range VGA_HEIGHT).foldl (fun t y =>
    (List.range VGA_WIDTH).foldl (fun t x =>
      t.store (y * VGA_WIDTH + x) (vgaEntry 32 t.terminalColor)) t)
    (Tty.reset terminalBuffer)

/-! ## The cursor and the writes -/

/-- Every write was inside the text buffer. -/
def Tty.WritesInside (t : Tty) : Prop := ∀ i ∈ t.written, i < VGA_WIDTH * VGA_HEIGHT

structure OnScreen (t : Tty) : Prop where
  column : t.terminalColumn < VGA_WIDTH
  row : t.terminalRow < VGA_HEIGHT
  writes : t.WritesInside

/-- Stores inside the text buffer that leave the cursor where it is. -/
structure Drawn (t t' : Tty) : Prop where
  column : t'.terminalColumn = t.terminalColumn
  row : t'.terminalRow = t.terminalRow
  writes : t.WritesInside → t'.WritesInside

namespace Drawn

variable {t t' t'' : Tty}

theorem refl (t : Tty) : Drawn t t := ⟨rfl, rfl, id⟩

theorem trans (h : Drawn t t') (h' : Drawn t' t'') : Drawn t t'' where
  column := h'.column.trans h.column
  row := h'.row.trans h.row
  writes hWrites := h'.writes (h.writes hWrites)

theorem store {i : Nat} (hi : i < VGA_WIDTH * VGA_HEIGHT) (entry : UInt16) :
    Drawn t (t.store i entry) where
  column := rfl
  row := rfl
  writes hWrites := by
    intro j hj
    rcases List.mem_cons.mp hj with rfl | hOld
    · exact hi
    · exact hWrites j hOld

theorem foldl {f : Tty → Nat → Tty} {n : Nat} (hf : ∀ t i, i < n → Drawn t (f t i)) :
    Drawn t ((List.range n).foldl f t) := by
  apply List.foldlRecOn (List.range n) f (refl t)
  intro u hu i hi
  exact hu.trans (hf u i (List.mem_range.mp hi))

theorem clean (t : Tty) : Drawn t t.clean := by
  unfold Tty.clean
  apply foldl
  intro t i hi
  apply foldl
  intro t j hj
  apply store
  unfold VGA_WIDTH VGA_HEIGHT at *
  omega

theorem onScreen (h : Drawn t t') (hOn : OnScreen t) : OnScreen t' where
  column := h.column.trans_lt hOn.column
  row := h.row.trans_lt hOn.row
  writes := h.writes hOn.writes

end Drawn

theorem drawn_ttyInitialize (terminalBuffer : Nat → UInt16) :
    Drawn (Tty.reset terminalBuffer) (ttyInitialize terminalBuffer) := by
  apply Drawn.foldl
  intro t y hy
  apply Drawn.foldl
  intro t x hx
  apply Drawn.store
  unfold VGA_WIDTH VGA_HEIGHT at *
  omega

theorem onScreen_ttyInitialize (terminalBuffer : Nat → UInt16) :
    OnScreen (ttyInitialize terminalBuffer) := by
  apply (drawn_ttyInitialize terminalBuffer).onScreen
  exact ⟨Nat.zero_lt_succ _, Nat.zero_lt_succ _, fun i hi => nomatch hi⟩

/-! ## One character -/

variable {t : Tty}

/-- The cursor between the switch and the tests: it may stand just behind the last column or the
last row. -/
structure AtEdge (t : Tty) : Prop where
  column : t.terminalColumn ≤ VGA_WIDTH
  row : t.terminalRow ≤ VGA_HEIGHT
  corner : t.terminalColumn = VGA_WIDTH → t.terminalRow < VGA_HEIGHT
  writes : t.WritesInside

theorem drawn_putentryat (hOn : OnScreen t) (c color : UInt8) {x : Nat} (hx : x < VGA_WIDTH) :
    Drawn t (t.putentryat c color x t.terminalRow) := by
  have hRow := hOn.row
  apply Drawn.store
  apply Nat.lt_of_le_of_lt (Nat.mod_le _ _)
  unfold VGA_WIDTH VGA_HEIGHT at *
  omega

/-- The switch leaves the cursor at most one step outside, unless a backspace comes in the first
column. -/
theorem atEdge_putcharAt (hOn : OnScreen t) {uc : UInt8}
    (hBackspace : uc = 8 → t.terminalColumn ≠ 0) : AtEdge (t.putcharAt uc) := by
  have hColumn := hOn.column
  have hRow := hOn.row
  rw [Tty.putcharAt]
  split_ifs with hNewline hBack
  · constructor
    · exact Nat.zero_le _
    · exact (Nat.mod_le _ _).trans hRow
    · intro hZero
      cases hZero
    · exact hOn.writes
  · have hPos := hBackspace hBack
    have hPred : (t.terminalColumn + (2 ^ 32 - 1)) % 2 ^ 32 = t.terminalColumn - 1 := by
      unfold VGA_WIDTH at hColumn
      omega
    have hDrawn := @drawn_putentryat { t with terminalColumn := t.terminalColumn - 1 }
      ⟨(Nat.sub_le _ _).trans_lt hColumn, hRow, hOn.writes⟩ 0
      (vgaEntryColor vgaColorBlack vgaColorBlack) _ ((Nat.sub_le _ 1).trans_lt hColumn)
    dsimp only
    rw [hPred]
    constructor
    · exact ((Nat.sub_le _ _).trans_lt hColumn).le
    · exact hRow.le
    · exact fun _ => hRow
    · exact hDrawn.writes hOn.writes
  · have hDrawn := drawn_putentryat hOn uc t.terminalColor hColumn
    constructor
    · exact (Nat.mod_le _ _).trans hColumn
    · exact hRow.le
    · exact fun _ => hRow
    · exact hDrawn.writes hOn.writes

/-- The tests bring the cursor back. -/
theorem onScreen_wrap (hEdge : AtEdge t) : OnScreen t.wrapColumn.wrapRow := by
  obtain ⟨hColumn, hRow, hCorner, hWrites⟩ := hEdge
  have hWrapped : t.wrapColumn.terminalColumn < VGA_WIDTH ∧ t.wrapColumn.terminalRow ≤ VGA_HEIGHT ∧
      t.wrapColumn.WritesInside := by
    rw [Tty.wrapColumn]
    split_ifs with hEnd
    · exact ⟨Nat.zero_lt_succ _, (Nat.mod_le _ _).trans (hCorner hEnd), hWrites⟩
    · exact ⟨lt_of_le_of_ne hColumn hEnd, hRow, hWrites⟩
  obtain ⟨hColumn', hRow', hWrites'⟩ := hWrapped
  rw [Tty.wrapRow]
  split_ifs with hBottom
  · have hDrawn := Drawn.clean t.wrapColumn
    exact ⟨hDrawn.column.trans_lt hColumn', Nat.zero_lt_succ 24, hDrawn.writes hWrites'⟩
  · exact ⟨hColumn', lt_of_le_of_ne hRow' hBottom, hWrites'⟩

/-- A backspace in the first column takes the column below zero, and no test brings it back. -/
theorem column_putchar_backspace (hZero : t.terminalColumn = 0) :
    (t.putchar 8).terminalColumn = 2 ^ 32 - 1 := by
  have hSwitch : (t.putcharAt 8).terminalColumn = 2 ^ 32 - 1 := by
    simp [Tty.putcharAt, Tty.putentryat, Tty.store, hZero]
  have hWrap : (t.putcharAt 8).wrapColumn = t.putcharAt 8 := by
    rw [Tty.wrapColumn, if_neg]
    rw [hSwitch]
    decide
  rw [Tty.putchar, hWrap, Tty.wrapRow]
  split_ifs
  · exact (Drawn.clean (t.putcharAt 8)).column.trans hSwitch
  · exact hSwitch

theorem onScreen_putchar_iff (hOn : OnScreen t) (uc : UInt8) :
    OnScreen (t.putchar uc) ↔ (uc = 8 → t.terminalColumn ≠ 0) := by
  constructor
  · rintro hAfter rfl hZero
    have hColumn := hAfter.column
    rw [column_putchar_backspace hZero] at hColumn
    exact absurd hColumn (by decide)
  · intro hBackspace
    exact onScreen_wrap (atEdge_putcharAt hOn hBackspace)

/-! ## Sequences of calls -/

inductive TtyCall where
  | putchar (c : UInt8)
  | setColor (fg bg : Nat)
  | clean
  deriving DecidableEq, Repr

def Tty.call (t : Tty) : TtyCall → Tty
  | .putchar c => t.putchar c
  | .setColor fg bg => t.setColor fg bg
  | .clean => t.clean

def TtyStep (t : Tty) (x : TtyCall) (t' : Tty) : Prop := t' = t.call x

/-- The call is not a backspace in the first column. -/
def NoUnderflow (t : Tty) (x : TtyCall) : Prop := x = .putchar 8 → t.terminalColumn ≠ 0

theorem onScreen_call_iff (hOn : OnScreen t) (x : TtyCall) :
    OnScreen (t.call x) ↔ NoUnderflow t x := by
  cases x with
  | putchar c =>
    rw [NoUnderflow, TtyCall.putchar.injEq]
    exact onScreen_putchar_iff hOn c
  | setColor fg bg =>
    constructor
    · intro _ hEq
      cases hEq
    · exact fun _ => ⟨hOn.column, hOn.row, hOn.writes⟩
  | clean =>
    constructor
    · intro _ hEq
      cases hEq
    · exact fun _ => (Drawn.clean t).onScreen hOn

/-- After `Tty::Initialize`, every call of a sequence leaves the cursor on the screen and writes
inside the buffer exactly when no backspace comes in the first column. -/
theorem onScreen_throughout_iff (terminalBuffer : Nat → UInt16) (xs : List TtyCall) :
    Throughout TtyStep (fun t x => OnScreen (t.call x)) (ttyInitialize terminalBuffer) xs ↔
      Throughout TtyStep NoUnderflow (ttyInitialize terminalBuffer) xs := by
  apply Throughout.iff (I := OnScreen) (onScreen_ttyInitialize terminalBuffer)
  · intro t x hOn
    exact onScreen_call_iff hOn x
  · rintro t x t' hOn hCond rfl
    exact (onScreen_call_iff hOn x).mpr hCond

/-- A backspace as the first character. -/
theorem not_onScreen_backspace : ¬ Throughout TtyStep (fun t x => OnScreen (t.call x))
    (ttyInitialize fun _ => 0) [.putchar 8] := by
  intro hAll
  have hColumn := (Throughout.singleton_iff.mp hAll).column
  rw [Tty.call, column_putchar_backspace (drawn_ttyInitialize _).column] at hColumn
  exact absurd hColumn (by decide)

end Juos.Terminal
