import Juos.Terminal.Tty

/-!
# The screen as a page of a roll

What is printed goes, in an idealised terminal, to a roll of lines without an end, and a character
stays where it was printed. The screen has 25 lines. `shows_of_run` says that it always shows the
page of the roll that the cursor is on, as long as no backspace comes in the first column: the
screen that `Tty::Putchar` cleans at its end is the next page, on which nothing was printed yet.
-/

namespace Juos.Terminal

open Machine

/-- The number of cells on the screen. -/
abbrev PAGE : Nat := VGA_WIDTH * VGA_HEIGHT

@[ext]
structure Roll where
  /-- the number of cells in front of the cursor -/
  cursor : Nat
  colour : UInt8
  cells : Nat → UInt16

namespace Roll

def page (r : Roll) : Nat := r.cursor / PAGE

/-- Nothing was printed. The first page has the characters that it was initialised with. -/
def blank : Roll where
  cursor := 0
  colour := vgaEntryColor vgaColorWhite vgaColorBlack
  cells i := if i < PAGE then vgaEntry 32 (vgaEntryColor vgaColorWhite vgaColorBlack) else 0

def putchar (r : Roll) (uc : UInt8) : Roll :=
  if uc = 10 then { r with cursor := (r.cursor / VGA_WIDTH + 1) * VGA_WIDTH }
  else if uc = 8 then
    { r with cursor := r.cursor - 1, cells := Function.update r.cells (r.cursor - 1) 0 }
  else
    { r with
      cursor := r.cursor + 1
      cells := Function.update r.cells r.cursor (vgaEntry uc r.colour) }

/-- Whatever is in the text buffer is on a page that nothing was printed on. -/
def raw (terminalBuffer : Nat → UInt16) : Roll where
  cursor := 0
  colour := vgaEntryColor vgaColorWhite vgaColorBlack
  cells i := if i < PAGE then terminalBuffer i else 0

/-- The page is filled with spaces, and the cursor stays. -/
def fill (r : Roll) : Roll :=
  { r with cells := fun i => if i / PAGE = r.page then vgaEntry 32 r.colour else r.cells i }

/-- The page is blank again, and the cursor stays. -/
def clean (r : Roll) : Roll :=
  { r with cells := fun i => if i / PAGE = r.page then 0 else r.cells i }

def call (r : Roll) : TtyCall → Roll
  | .putchar c => r.putchar c
  | .setColor fg bg => { r with colour := vgaEntryColor fg bg }
  | .clean => r.clean

end Roll

/-- The screen shows page `page`, nothing is on the pages behind it, and the cursor, which may stand
behind the last column or the last line yet, is at its place. -/
structure Drawing (t : Tty) (r : Roll) (page : Nat) : Prop where
  column : t.terminalColumn ≤ VGA_WIDTH
  row : t.terminalRow ≤ VGA_HEIGHT
  corner : t.terminalColumn = VGA_WIDTH → t.terminalRow < VGA_HEIGHT
  bottom : t.terminalRow = VGA_HEIGHT → t.terminalColumn = 0
  cursor : r.cursor = page * PAGE + t.terminalRow * VGA_WIDTH + t.terminalColumn
  colour : t.terminalColor = r.colour
  cells : ∀ i < PAGE, t.terminalBuffer i = r.cells (page * PAGE + i)
  ahead : ∀ i, (page + 1) * PAGE ≤ i → r.cells i = 0

/-- The screen shows the page that the cursor is on. -/
structure Shows (t : Tty) (r : Roll) : Prop where
  row : t.terminalRow = r.cursor % PAGE / VGA_WIDTH
  column : t.terminalColumn = r.cursor % VGA_WIDTH
  colour : t.terminalColor = r.colour
  cells : ∀ i < PAGE, t.terminalBuffer i = r.cells (r.page * PAGE + i)
  ahead : ∀ i, (r.page + 1) * PAGE ≤ i → r.cells i = 0

/-! ## Filling the screen -/

/-- The loops of `Tty::Initialize`. -/
def Tty.fill (t : Tty) : Tty :=
  (List.range VGA_HEIGHT).foldl (fun t y =>
    (List.range VGA_WIDTH).foldl (fun t x =>
      t.store (y * VGA_WIDTH + x) (vgaEntry 32 t.terminalColor)) t) t

/-- A loop over all indices that changes every `t` to meet `P`, at the index `k`, meets it at its
end, where no other index undoes it. -/
theorem foldl_meets {P Q : Tty → Prop} {g : Tty → Nat → Tty} {n k : Nat} {t : Tty} (hk : k < n)
    (hQ : ∀ t j, Q t → Q (g t j)) (hP : ∀ t, Q t → P (g t k)) (hKeep : ∀ t j, Q t → P t → P (g t j))
    (ht : Q t) : P ((List.range n).foldl g t) := by
  induction n with
  | zero => exact absurd hk (Nat.not_lt_zero k)
  | succ n ih =>
    have hBefore : Q ((List.range n).foldl g t) := by
      apply List.foldlRecOn (List.range n) g ht
      intro u hu j _
      exact hQ u j hu
    rw [List.range_succ, List.foldl_append, List.foldl_cons, List.foldl_nil]
    rcases Nat.lt_succ_iff_lt_or_eq.mp hk with hLt | rfl
    · exact hKeep _ n hBefore (ih hLt)
    · exact hP _ hBefore

section Filling

variable {t : Tty} {i : Nat} {color : UInt8}

theorem store_meets {entry : UInt8 → UInt16} (hColor : t.terminalColor = color)
    (hi : t.terminalBuffer i = entry color) (j : Nat) :
    (t.store j (entry t.terminalColor)).terminalBuffer i = entry color := by
  refine (Function.update_apply t.terminalBuffer j _ i).trans ?_
  split_ifs
  · rw [hColor]
  · exact hi

/-- A row of a filling. -/
def fillRow (n : Nat) (place : Nat → Nat) (entry : UInt8 → UInt16) (t : Tty) : Tty :=
  (List.range n).foldl (fun t k => t.store (place k) (entry t.terminalColor)) t

theorem fillRow_color (n : Nat) (place : Nat → Nat) (entry : UInt8 → UInt16) (t : Tty) :
    (fillRow n place entry t).terminalColor = t.terminalColor := by
  unfold fillRow
  apply List.foldlRecOn (motive := fun u : Tty => u.terminalColor = t.terminalColor) _ _ rfl
  exact fun u hu k _ => hu

/-- The two loops of a filling: the same entry is stored at every `place x y`. -/
theorem fill_buffer (place : Nat → Nat → Nat) (entry : UInt8 → UInt16) {m n x y : Nat}
    (hx : x < m) (hy : y < n) (t : Tty) :
    ((List.range m).foldl (fun t j => fillRow n (place j) entry t) t).terminalBuffer
      (place x y) = entry t.terminalColor := by
  generalize hColor : t.terminalColor = color
  let Q (u : Tty) : Prop := u.terminalColor = color
  let P (u : Tty) : Prop := u.terminalBuffer (place x y) = entry color
  have hKept : ∀ (u : Tty) (j : Nat), Q u → Q (fillRow n (place j) entry u) := fun u j hu =>
    (fillRow_color n (place j) entry u).trans hu
  apply foldl_meets (P := P) hx hKept _ _ hColor
  · intro u hu
    unfold fillRow
    apply foldl_meets (P := P) (Q := Q) hy _ _ _ hu
    · exact fun v k hv => hv
    · intro v hv
      change _ = entry color
      rw [← show v.terminalColor = color from hv]
      exact Function.update_self ..
    · exact fun v k hv hi => store_meets hv hi _
  · intro u j hu hi
    have hBoth : Q (fillRow n (place j) entry u) ∧ P (fillRow n (place j) entry u) := by
      unfold fillRow
      apply List.foldlRecOn (motive := fun v => Q v ∧ P v) _ _ ⟨hu, hi⟩
      exact fun v hv k _ => ⟨hv.1, store_meets hv.1 hv.2 _⟩
    exact hBoth.2

theorem exists_place (hi : i < PAGE) :
    ∃ x y, x < VGA_WIDTH ∧ y < VGA_HEIGHT ∧ i = x + y * VGA_WIDTH := by
  refine ⟨i % VGA_WIDTH, i / VGA_WIDTH, ?_, ?_, ?_⟩ <;> unfold PAGE VGA_WIDTH VGA_HEIGHT at * <;>
    omega

theorem clean_buffer (t : Tty) (hi : i < PAGE) : t.clean.terminalBuffer i = 0 := by
  obtain ⟨x, y, hx, hy, rfl⟩ := exists_place hi
  unfold Tty.clean
  exact fill_buffer (fun x y => x + y * VGA_WIDTH) (fun _ => 0) hx hy t

theorem clean_color (t : Tty) : t.clean.terminalColor = t.terminalColor := by
  unfold Tty.clean
  apply List.foldlRecOn (motive := fun u : Tty => u.terminalColor = t.terminalColor) _ _ rfl
  intro u hu x _
  exact (fillRow_color VGA_HEIGHT (fun y => x + y * VGA_WIDTH) (fun _ => 0) u).trans hu

theorem buffer_fill (t : Tty) (hi : i < PAGE) :
    t.fill.terminalBuffer i = vgaEntry 32 t.terminalColor := by
  obtain ⟨x, y, hx, hy, rfl⟩ := exists_place hi
  rw [Nat.add_comm]
  exact fill_buffer (fun y x => y * VGA_WIDTH + x) (vgaEntry 32) hy hx t

theorem color_fill (t : Tty) : t.fill.terminalColor = t.terminalColor := by
  unfold Tty.fill
  apply List.foldlRecOn (motive := fun u : Tty => u.terminalColor = t.terminalColor) _ _ rfl
  intro u hu y _
  exact (fillRow_color VGA_WIDTH (fun x => y * VGA_WIDTH + x) (vgaEntry 32) u).trans hu

theorem drawn_fill (t : Tty) : Drawn t t.fill := by
  apply Drawn.foldl
  intro u y hy
  apply Drawn.foldl
  intro u x hx
  apply Drawn.store
  unfold VGA_WIDTH VGA_HEIGHT at *
  omega

end Filling

/-! ## One character -/

section Putchar

variable {t : Tty} {r : Roll} {page : Nat}

theorem next_row (h : t.terminalRow < VGA_HEIGHT) :
    (t.terminalRow + 1) % 2 ^ 32 = t.terminalRow + 1 := by
  unfold VGA_HEIGHT at h
  omega

theorem Drawing.wrapColumn (h : Drawing t r page) :
    Drawing t.wrapColumn r page ∧ t.wrapColumn.terminalColumn < VGA_WIDTH := by
  unfold Tty.wrapColumn
  split_ifs with hEnd
  · have hRow := h.corner hEnd
    have hNext : (t.terminalRow + 1) % 2 ^ 32 = t.terminalRow + 1 := next_row hRow
    have hCursor : r.cursor = page * PAGE + (t.terminalRow + 1) % 2 ^ 32 * VGA_WIDTH + 0 := by
      rw [hNext, h.cursor, hEnd]
      unfold PAGE VGA_WIDTH VGA_HEIGHT
      omega
    exact ⟨⟨Nat.zero_le _, (Nat.mod_le _ _).trans hRow, nofun, fun _ => rfl, hCursor, h.colour,
      h.cells, h.ahead⟩, Nat.zero_lt_succ _⟩
  · exact ⟨h, lt_of_le_of_ne h.column hEnd⟩

/-- The tests at the end of `Tty::Putchar` turn the page when the cursor is behind it. -/
theorem Drawing.shows (h : Drawing t r page) : Shows t.wrapColumn.wrapRow r := by
  obtain ⟨h, hColumn⟩ := h.wrapColumn
  generalize t.wrapColumn = t at h hColumn
  have hCursor := h.cursor
  have hRow := h.row
  unfold Tty.wrapRow
  split_ifs with hEnd
  · have hZero := h.bottom hEnd
    have hPage : r.page = page + 1 := by
      unfold Roll.page PAGE VGA_WIDTH VGA_HEIGHT at *
      omega
    have hCleanColumn := (Drawn.clean t).column
    refine ⟨?_, ?_, (clean_color t).trans h.colour, fun i hi => ?_, fun i hi => ?_⟩
    · change 0 = _
      unfold PAGE VGA_WIDTH VGA_HEIGHT at *
      omega
    · change t.clean.terminalColumn = _
      unfold PAGE VGA_WIDTH VGA_HEIGHT at *
      omega
    · refine (clean_buffer t hi).trans (h.ahead _ ?_).symm
      rw [hPage]
      exact Nat.le_add_right _ _
    · rw [hPage] at hi
      exact h.ahead i ((Nat.mul_le_mul_right PAGE (Nat.le_succ _)).trans hi)
  · have hPage : r.page = page := by
      unfold Roll.page PAGE VGA_WIDTH VGA_HEIGHT at *
      omega
    refine ⟨?_, ?_, h.colour, fun i hi => ?_, fun i hi => ?_⟩
    · unfold PAGE VGA_WIDTH VGA_HEIGHT at *
      omega
    · unfold PAGE VGA_WIDTH VGA_HEIGHT at *
      omega
    · exact hPage ▸ h.cells i hi
    · exact h.ahead i (hPage ▸ hi)

/-- The place of the cursor on its page. -/
theorem Shows.cursor_eq (h : Shows t r) : r.cursor =
    r.page * PAGE + t.terminalRow * VGA_WIDTH + t.terminalColumn ∧
      t.terminalRow < VGA_HEIGHT ∧ t.terminalColumn < VGA_WIDTH := by
  have hRow := h.row
  have hColumn := h.column
  unfold Roll.page PAGE VGA_WIDTH VGA_HEIGHT at *
  omega

/-- A cell of the cursor's line is printed, and the cursor goes to another column of it. -/
theorem Shows.print (h : Shows t r) {c d : Nat} (hc : c < VGA_WIDTH) (hd : d ≤ VGA_WIDTH)
    (entry : UInt16) :
    Drawing { t.store ((t.terminalRow * VGA_WIDTH + c) % 2 ^ 32) entry with terminalColumn := d }
      { r with
        cursor := r.page * PAGE + t.terminalRow * VGA_WIDTH + d
        cells := Function.update r.cells (r.page * PAGE + t.terminalRow * VGA_WIDTH + c) entry }
      r.page := by
  obtain ⟨-, hRow, -⟩ := h.cursor_eq
  have hPlace : (t.terminalRow * VGA_WIDTH + c) % 2 ^ 32 = t.terminalRow * VGA_WIDTH + c ∧
      t.terminalRow * VGA_WIDTH + c < PAGE := by
    unfold PAGE VGA_WIDTH VGA_HEIGHT at *
    omega
  rw [hPlace.1]
  have hCells : ∀ i < PAGE, Function.update t.terminalBuffer (t.terminalRow * VGA_WIDTH + c) entry i
      = Function.update r.cells (r.page * PAGE + t.terminalRow * VGA_WIDTH + c) entry
        (r.page * PAGE + i) := by
    intro i hi
    by_cases hSame : i = t.terminalRow * VGA_WIDTH + c
    · rw [hSame, ← Nat.add_assoc, Function.update_self, Function.update_self]
    · rw [Function.update_of_ne hSame, Function.update_of_ne (by omega)]
      exact h.cells i hi
  have hAhead : ∀ i, (r.page + 1) * PAGE ≤ i →
      Function.update r.cells (r.page * PAGE + t.terminalRow * VGA_WIDTH + c) entry i = 0 := by
    intro i hi
    rw [Function.update_of_ne]
    · exact h.ahead i hi
    · rw [Nat.succ_mul] at hi
      omega
  exact ⟨hd, hRow.le, fun _ => hRow, fun hEnd => absurd hEnd hRow.ne, rfl, h.colour, hCells, hAhead⟩

theorem black_entry : vgaEntry 0 (vgaEntryColor vgaColorBlack vgaColorBlack) = 0 := rfl

/-- The switch of `Tty::Putchar`. -/
theorem Shows.putcharAt (h : Shows t r) {uc : UInt8} (hBackspace : uc = 8 → t.terminalColumn ≠ 0) :
    Drawing (t.putcharAt uc) (r.putchar uc) r.page := by
  obtain ⟨hCursor, hRow, hColumn⟩ := h.cursor_eq
  unfold Tty.putcharAt Roll.putchar
  split_ifs with hNewline hBack
  · have hLine : (r.cursor / VGA_WIDTH + 1) * VGA_WIDTH =
        r.page * PAGE + (t.terminalRow + 1) % 2 ^ 32 * VGA_WIDTH + 0 := by
      rw [next_row hRow]
      unfold PAGE VGA_WIDTH VGA_HEIGHT at *
      omega
    exact ⟨Nat.zero_le _, (Nat.mod_le _ _).trans hRow, nofun, fun _ => rfl, hLine, h.colour,
      h.cells, h.ahead⟩
  · have hNotFirst := hBackspace hBack
    have hBefore : (t.terminalColumn + (2 ^ 32 - 1)) % 2 ^ 32 = t.terminalColumn - 1 := by
      unfold VGA_WIDTH at hColumn
      omega
    have hHere : r.cursor - 1 =
        r.page * PAGE + t.terminalRow * VGA_WIDTH + (t.terminalColumn - 1) := by omega
    have hLess : t.terminalColumn - 1 < VGA_WIDTH := (Nat.sub_le _ _).trans_lt hColumn
    rw [hBefore, hHere, ← black_entry]
    exact h.print hLess hLess.le _
  · have hNext : (t.terminalColumn + 1) % 2 ^ 32 = t.terminalColumn + 1 := by
      unfold VGA_WIDTH at hColumn
      omega
    have hStore : t.putentryat uc t.terminalColor t.terminalColumn t.terminalRow =
        t.store ((t.terminalRow * VGA_WIDTH + t.terminalColumn) % 2 ^ 32)
          (vgaEntry uc r.colour) := by
      rw [← h.colour]
      rfl
    have hColumn' : (t.putentryat uc t.terminalColor t.terminalColumn t.terminalRow).terminalColumn
        = t.terminalColumn := rfl
    dsimp only
    rw [hColumn', hNext, hStore, hCursor, Nat.add_assoc _ t.terminalColumn 1]
    exact h.print (d := t.terminalColumn + 1) hColumn hColumn _

theorem Shows.putchar (h : Shows t r) {uc : UInt8} (hBackspace : uc = 8 → t.terminalColumn ≠ 0) :
    Shows (t.putchar uc) (r.putchar uc) :=
  (h.putcharAt hBackspace).shows

/-! ## The page as a whole -/

theorem page_div (r : Roll) {i : Nat} (hi : i < PAGE) : (r.page * PAGE + i) / PAGE = r.page := by
  unfold PAGE VGA_WIDTH VGA_HEIGHT at *
  omega

theorem Shows.clean (h : Shows t r) : Shows t.clean r.clean where
  row := (Drawn.clean t).row.trans h.row
  column := (Drawn.clean t).column.trans h.column
  colour := (clean_color t).trans h.colour
  cells i hi := (clean_buffer t hi).trans (if_pos (page_div r hi)).symm
  ahead i hi := by
    change (if i / PAGE = r.page then 0 else r.cells i) = 0
    rw [h.ahead i hi, ite_self]

theorem Shows.fill (h : Shows t r) : Shows t.fill r.fill where
  row := (drawn_fill t).row.trans h.row
  column := (drawn_fill t).column.trans h.column
  colour := (color_fill t).trans h.colour
  cells i hi := by
    rw [buffer_fill t hi, h.colour]
    exact (if_pos (page_div r hi)).symm
  ahead i hi := by
    have hNot : i / PAGE ≠ r.page := fun hEq =>
      absurd (hEq ▸ (Nat.le_div_iff_mul_le (by decide)).mpr hi) (Nat.not_succ_le_self _)
    exact (if_neg hNot).trans (h.ahead i hi)

theorem shows_raw (terminalBuffer : Nat → UInt16) :
    Shows (Tty.reset terminalBuffer) (.raw terminalBuffer) := by
  have hPage : (Roll.raw terminalBuffer).page = 0 := Nat.zero_div PAGE
  have hRow : 0 = 0 % PAGE / VGA_WIDTH := by decide
  have hColumn : 0 = 0 % VGA_WIDTH := by decide
  refine ⟨hRow, hColumn, rfl, fun i hi => ?_, fun i hi => ?_⟩
  · rw [hPage, Nat.zero_mul, Nat.zero_add]
    exact (if_pos hi).symm
  · rw [hPage, Nat.zero_add, Nat.one_mul] at hi
    exact if_neg (Nat.not_lt.mpr hi)

/-- Filling the first page undoes what was printed on it, but for the cursor. -/
theorem fill_first (hPage : r.page = 0) (hColour : r.colour = Roll.blank.colour)
    (hAhead : ∀ i, PAGE ≤ i → r.cells i = 0) : r.fill = { Roll.blank with cursor := r.cursor } := by
  refine Roll.ext rfl hColour (funext fun i => ?_)
  change (if i / PAGE = r.page then vgaEntry 32 r.colour else r.cells i) = Roll.blank.cells i
  rw [hPage, hColour]
  by_cases hi : i < PAGE
  · exact (if_pos (Nat.div_eq_of_lt hi)).trans (if_pos hi).symm
  · have hNot : i / PAGE ≠ 0 := fun hZero => hi ((Nat.div_eq_zero_iff_lt (by decide)).mp hZero)
    exact (if_neg hNot).trans ((hAhead i (Nat.not_lt.mp hi)).trans (if_neg hi).symm)

theorem shows_ttyInitialize (terminalBuffer : Nat → UInt16) :
    Shows (ttyInitialize terminalBuffer) .blank := by
  have hPage : (Roll.raw terminalBuffer).page = 0 := Nat.zero_div PAGE
  have hShows := (shows_raw terminalBuffer).fill
  rw [fill_first hPage rfl fun i hi => if_neg (Nat.not_lt.mpr hi)] at hShows
  exact hShows

end Putchar

/-! ## Sequences of calls -/

theorem Shows.call {t : Tty} {r : Roll} (h : Shows t r) {x : TtyCall} (hx : NoUnderflow t x) :
    Shows (t.call x) (r.call x) := by
  cases x with
  | putchar c => exact h.putchar fun hc => hx (congrArg _ hc)
  | setColor fg bg => exact ⟨h.row, h.column, rfl, h.cells, h.ahead⟩
  | clean => exact h.clean

theorem Shows.run {t t' : Tty} {r : Roll} {xs : List TtyCall} (h : Shows t r)
    (hRun : Run (Guarded TtyStep NoUnderflow) t xs t') : Shows t' (xs.foldl Roll.call r) := by
  induction hRun with
  | refl => exact h
  | tail prior last ih =>
    obtain ⟨hCond, rfl⟩ := last
    rw [List.foldl_append]
    exact ih.call hCond

/-- After `Tty::Initialize` and any calls, none of them a backspace in the first column, the screen
shows the page of the roll that the cursor is on. -/
theorem shows_of_run {terminalBuffer : Nat → UInt16} {xs : List TtyCall} {t : Tty}
    (h : Run (Guarded TtyStep NoUnderflow) (ttyInitialize terminalBuffer) xs t) :
    Shows t (xs.foldl Roll.call .blank) :=
  (shows_ttyInitialize terminalBuffer).run h

/-- A character and a backspace behind it. -/
theorem shows_erased : ∃ t, Run (Guarded TtyStep NoUnderflow) (ttyInitialize fun _ => 0)
    [.putchar 65, .putchar 8] t ∧ Shows t ((Roll.blank.putchar 65).putchar 8) := by
  have hFirst : Shows ((ttyInitialize fun _ => 0).putchar 65) (Roll.blank.putchar 65) :=
    (shows_ttyInitialize _).putchar (by decide)
  have hColumn : ((ttyInitialize fun _ => 0).putchar 65).terminalColumn = 1 := hFirst.column
  have hRun : Run (Guarded TtyStep NoUnderflow) (ttyInitialize fun _ => 0)
      [.putchar 65, .putchar 8] (((ttyInitialize fun _ => 0).putchar 65).putchar 8) := by
    refine .cons ⟨nofun, rfl⟩ (.single ⟨fun _ => ?_, rfl⟩)
    rw [Tty.call, hColumn]
    decide
  exact ⟨_, hRun, shows_of_run hRun⟩

end Juos.Terminal
