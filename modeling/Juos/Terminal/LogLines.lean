import Juos.Stdio.Format
import Juos.Terminal.Screen

/-!
# Log lines

`LOG_SA` as a logging kernel is built with it: one `printf` for the subject, between two colour
escapes, and one for the message. `Tty::Initialize` logs a line itself, to a screen that it fills
afterwards, and goes on in the second line.

`logged_of_run` puts the format, the terminal and the screen together: what is on the screen after
any log lines.
-/

namespace Juos.Terminal

open Machine Stdio

/-! ## The calls -/

/-- What `printf` calls. -/
def ttyCall : Output → TtyCall
  | .putchar c => .putchar c
  | .setColor fg bg => .setColor fg.toNat bg.toNat

/-- `"$&\x4\x0" subject "$&\xF\x0"` -/
def subjectFormat (subject : List UInt8) : Nat → UInt8 :=
  literal ([36, 38, 4, 0] ++ subject ++ [36, 38, 15, 0])

/-- A call of `LOG_SA` -/
structure LogCall where
  subject : List UInt8
  /-- the format of the message -/
  message : Nat → UInt8
  args : Args
  items : List Item
  plain : ∀ c ∈ subject, c ≠ 0 ∧ c ≠ 37 ∧ c ≠ 36
  reads : ∃ n, Reads message 0 items n ∧ Ends message n
  uncoloured : ∀ fg bg, Item.colours fg bg ∉ items

def Output.char? : Output → Option UInt8
  | .putchar c => some c
  | .setColor _ _ => none

/-- The characters of the message. -/
def LogCall.text (l : LogCall) : List UInt8 :=
  (printed l.args 0 l.items).filterMap Output.char?

/-- `LOG_SA`, with no backspace in the first column. -/
def LogStep (t : Tty) (l : LogCall) (t' : Tty) : Prop :=
  ∃ a subject k count message k' count', Printf (subjectFormat l.subject) a subject k count ∧
    Printf l.message l.args message k' count' ∧
    Run (Guarded TtyStep NoUnderflow) t ((subject ++ message).map ttyCall) t'

namespace Roll

/-- Characters in one colour. -/
def write (r : Roll) (fg : Nat) (text : List UInt8) : Roll :=
  text.foldl putchar { r with colour := vgaEntryColor fg vgaColorBlack }

/-- The subject in red, the message in white. -/
def log (r : Roll) (l : LogCall) : Roll := (r.write 4 l.subject).write vgaColorWhite l.text

end Roll

/-! ## The formats -/

section Formats

variable {subject : List UInt8} {xs : List Item}

theorem reads_subject (hPlain : ∀ c ∈ subject, c ≠ 0 ∧ c ≠ 37 ∧ c ≠ 36) :
    ∃ n, Reads (subjectFormat subject) 0
      (.colours 4 0 :: (plainItems subject hPlain ++ [.colours 15 0])) n ∧
        Ends (subjectFormat subject) n := by
  have hRed : Occurs (subjectFormat subject) 0 (Item.colours 4 0).spelling := by
    rw [subjectFormat, List.append_assoc]
    exact occurs_literal [] [36, 38, 4, 0] (subject ++ [36, 38, 15, 0])
  have hSubject : Occurs (subjectFormat subject) 4 subject :=
    occurs_literal [36, 38, 4, 0] subject [36, 38, 15, 0]
  have hWhite : Occurs (subjectFormat subject) (4 + subject.length)
      (Item.colours 15 0).spelling := by
    have hOccurs := occurs_literal ([36, 38, 4, 0] ++ subject) [36, 38, 15, 0] []
    rw [List.append_nil, List.length_append] at hOccurs
    exact hOccurs
  refine ⟨4 + subject.length + 4, .item hRed ?_, .inl ?_⟩
  · exact reads_append (reads_plainItems hPlain hSubject) (.item hWhite (.done _))
  · refine List.getD_eq_default _ _ ?_
    rw [List.length_append, List.length_append]
    exact Nat.le_refl _

/-- The format of a subject prints it between the two colours, whatever the arguments. -/
theorem printf_subject (hPlain : ∀ c ∈ subject, c ≠ 0 ∧ c ≠ 37 ∧ c ≠ 36) {a : Args}
    {out : List Output} {k : Nat} {count : UInt32}
    (h : Printf (subjectFormat subject) a out k count) :
    out = [.setColor 4 0] ++ subject.map .putchar ++ [.setColor 15 0] := by
  obtain ⟨n, hReads, hEnds⟩ := reads_subject hPlain
  obtain ⟨items, n', hReads', hEnds', rfl, -, -⟩ := (printf_iff _ _ _ _ _).mp h
  rw [reads_unique hReads' hEnds' hReads hEnds, printed, printed_plainItems]
  rfl

/-- Where no colour is changed, only characters are printed. -/
theorem printed_uncoloured {a : Args} {k : Nat} (h : ∀ fg bg, Item.colours fg bg ∉ xs) :
    printed a k xs = ((printed a k xs).filterMap Output.char?).map .putchar := by
  induction xs generalizing k with
  | nil => rfl
  | cons x xs ih =>
    have hRest := ih (k := k + x.takes) fun fg bg hMem => h fg bg (List.mem_cons_of_mem x hMem)
    have hItem : x.output a (a.word k) =
        ((x.output a (a.word k)).filterMap Output.char?).map .putchar := by
      cases x with
      | colours fg bg => exact absurd List.mem_cons_self (h fg bg)
      | conversion c =>
        rw [Item.output, List.filterMap_map]
        exact congrArg _ (List.filterMap_some).symm
      | _ => rfl
    rw [printed, List.filterMap_append, List.map_append, ← hItem, ← hRest]

end Formats

/-! ## The screen -/

section Lines

variable {t t' : Tty} {r : Roll} {l : LogCall} {ls : List LogCall}

theorem foldl_putchar (r : Roll) (text : List UInt8) :
    ((text.map Output.putchar).map ttyCall).foldl Roll.call r = text.foldl Roll.putchar r := by
  rw [List.foldl_map, List.foldl_map]
  rfl

theorem Shows.log (h : Shows t r) (hStep : LogStep t l t') : Shows t' (r.log l) := by
  obtain ⟨a, subject, k, count, message, k', count', hSubject, hMessage, hRun⟩ := hStep
  obtain rfl := printf_subject l.plain hSubject
  obtain ⟨n, hReads, hEnds⟩ := l.reads
  obtain ⟨items, n', hReads', hEnds', rfl, -, -⟩ := (printf_iff _ _ _ _ _).mp hMessage
  obtain rfl := reads_unique hReads' hEnds' hReads hEnds
  have hShows := h.run hRun
  rw [printed_uncoloured l.uncoloured, List.map_append, List.map_append, List.map_append,
    List.foldl_append, List.foldl_append, List.foldl_append, foldl_putchar, foldl_putchar] at hShows
  exact hShows

/-- Every call that is not a backspace can be made. -/
theorem exists_run {xs : List TtyCall} (h : .putchar 8 ∉ xs) (t : Tty) :
    ∃ t', Run (Guarded TtyStep NoUnderflow) t xs t' := by
  induction xs generalizing t with
  | nil => exact ⟨t, .refl⟩
  | cons x xs ih =>
    obtain ⟨t', hRun⟩ := ih (fun hMem => h (List.mem_cons_of_mem x hMem)) (t.call x)
    refine ⟨t', .cons ⟨?_, rfl⟩ hRun⟩
    rintro rfl
    exact absurd List.mem_cons_self h

/-- A line with no backspace can be logged. -/
theorem exists_logStep (hSubject : 8 ∉ l.subject) (hText : 8 ∉ l.text) (t : Tty) :
    ∃ t', LogStep t l t' := by
  obtain ⟨n, hReads, hEnds⟩ := reads_subject l.plain
  obtain ⟨n', hReads', hEnds'⟩ := l.reads
  have hPrintf := (printf_iff _ l.args _ _ _).mpr ⟨_, n, hReads, hEnds, rfl, rfl, rfl⟩
  have hNone : TtyCall.putchar 8 ∉ (([Output.setColor 4 0] ++ l.subject.map Output.putchar ++
      [Output.setColor 15 0]) ++ l.text.map Output.putchar).map ttyCall := by
    simp [ttyCall, hSubject, hText]
  obtain ⟨t', hRun⟩ := exists_run hNone t
  rw [← printf_subject l.plain hPrintf, LogCall.text, ← printed_uncoloured l.uncoloured] at hRun
  exact ⟨t', l.args, _, _, _, _, _, _, hPrintf,
    (printf_iff _ _ _ _ _).mpr ⟨l.items, n', hReads', hEnds', rfl, rfl, rfl⟩, hRun⟩

end Lines

/-! ## The line of `Tty::Initialize` -/

/-- `"Initializing. Width: %d Height: %d\n"` -/
def ttyMessage : List UInt8 :=
  [73, 110, 105, 116, 105, 97, 108, 105, 122, 105, 110, 103, 46, 32, 87, 105, 100, 116, 104, 58, 32,
    37, 100, 32, 72, 101, 105, 103, 104, 116, 58, 32, 37, 100, 10]

def ttyItems : List Item :=
  plainItems (ttyMessage.take 21) (by decide +kernel) ++ [.conversion .decimal] ++
    plainItems ((ttyMessage.drop 23).take 9) (by decide +kernel) ++
      [.conversion .decimal, .byte 10 (by decide)]

theorem spelling_ttyItems : ttyItems.flatMap Item.spelling = ttyMessage := rfl

/-- `LOG_SA("TTY: ", "Initializing. Width: %d Height: %d\n", VGA_WIDTH, VGA_HEIGHT)` -/
def ttyLog : LogCall where
  subject := [84, 84, 89, 58, 32]
  message := literal ttyMessage
  args := ⟨fun k => if k = 0 then 80 else 25, fun _ => []⟩
  items := ttyItems
  plain := by decide +kernel
  reads := ⟨_, spelling_ttyItems ▸ reads_spelled [] ttyItems, .inl rfl⟩
  uncoloured fg bg := by simp [ttyItems, ttyMessage, plainItems]

/-- `Tty::Initialize` of a kernel that logs. -/
def TtyInitialize (terminalBuffer : Nat → UInt16) (t : Tty) : Prop :=
  ∃ logged, LogStep (Tty.reset terminalBuffer) ttyLog logged ∧ t = logged.fill

section Initialize

variable {t t' : Tty} {r : Roll} {terminalBuffer : Nat → UInt16}

/-- The first page is blank and the cursor is in its second line. -/
def Roll.secondLine : Roll := { Roll.blank with cursor := VGA_WIDTH }

/-- `"Initializing. Width: 80 Height: 25\n"` -/
theorem text_ttyLog : ttyLog.text =
    ttyMessage.take 21 ++ [56, 48] ++ (ttyMessage.drop 23).take 9 ++ [50, 53] ++ [10] := by
  have hWidth : positional 10 80 = [56, 48] := by simp [positional, digitsOf, representation]
  have hHeight : positional 10 25 = [50, 53] := by simp [positional, digitsOf, representation]
  have hPrinted : printed ttyLog.args 0 ttyLog.items =
      (ttyMessage.take 21 ++ positional 10 80 ++ (ttyMessage.drop 23).take 9 ++
        positional 10 25 ++ [10]).map .putchar := rfl
  rw [LogCall.text, hPrinted, hWidth, hHeight]
  rfl

theorem colour_write (r : Roll) (fg : Nat) (text : List UInt8) :
    (r.write fg text).colour = vgaEntryColor fg vgaColorBlack := by
  apply List.foldlRecOn
    (motive := fun r : Roll => r.colour = vgaEntryColor fg vgaColorBlack) _ _ rfl
  intro r hr c _
  unfold Roll.putchar
  split_ifs <;> exact hr

/-- Characters on one line move the cursor behind them. -/
theorem cursor_write (r : Roll) (fg : Nat) {text : List UInt8} (h : ∀ c ∈ text, c ≠ 10 ∧ c ≠ 8) :
    (r.write fg text).cursor = r.cursor + text.length := by
  suffices hAny : ∀ r : Roll, (text.foldl Roll.putchar r).cursor = r.cursor + text.length from
    hAny { r with colour := vgaEntryColor fg vgaColorBlack }
  induction text with
  | nil => exact fun r => rfl
  | cons c text ih =>
    intro r
    have hFirst : (r.putchar c).cursor = r.cursor + 1 := by
      rw [Roll.putchar, if_neg (h c List.mem_cons_self).1, if_neg (h c List.mem_cons_self).2]
    rw [List.foldl_cons, ih (fun d hd => h d (List.mem_cons_of_mem c hd)), hFirst,
      List.length_cons, Nat.add_assoc, Nat.add_comm 1]

/-- The line that is logged ends in the first column of the second line. -/
theorem cursor_log : ((Roll.raw terminalBuffer).log ttyLog).cursor = VGA_WIDTH := by
  have hSubject : ((Roll.raw terminalBuffer).write 4 ttyLog.subject).cursor = 5 :=
    cursor_write _ _ (by decide +kernel)
  have hText : (((Roll.raw terminalBuffer).write 4 ttyLog.subject).write vgaColorWhite
      (ttyMessage.take 21 ++ [56, 48] ++ (ttyMessage.drop 23).take 9 ++ [50, 53])).cursor = 39 := by
    rw [cursor_write _ _ (by decide +kernel), hSubject]
    rfl
  rw [Roll.log, text_ttyLog, Roll.write, List.foldl_append]
  exact congrArg (fun n => (n / VGA_WIDTH + 1) * VGA_WIDTH) hText

theorem shows_tty_initialize {t : Tty} (h : TtyInitialize terminalBuffer t) :
    Shows t .secondLine := by
  obtain ⟨logged, hLog, rfl⟩ := h
  have hShows := (shows_raw terminalBuffer).log hLog
  have hPage : ((Roll.raw terminalBuffer).log ttyLog).page = 0 := by
    rw [Roll.page, cursor_log]
    decide
  have hColour := colour_write ((Roll.raw terminalBuffer).write 4 ttyLog.subject) vgaColorWhite
    ttyLog.text
  have hFill := hShows.fill
  rw [fill_first hPage hColour fun i hi => hShows.ahead i (by rwa [hPage, Nat.zero_add,
    Nat.one_mul]), cursor_log] at hFill
  exact hFill

end Initialize

/-- After `Tty::Initialize` and any log lines the screen shows the page of the roll that the cursor
is on, where every line has its subject in red and its message in white, from the second line
on. -/
theorem logged_of_run {terminalBuffer : Nat → UInt16} {ls : List LogCall} {t₀ t : Tty}
    (hInit : TtyInitialize terminalBuffer t₀) (hRun : Run LogStep t₀ ls t) :
    Shows t (ls.foldl Roll.log .secondLine) := by
  induction hRun with
  | refl => exact shows_tty_initialize hInit
  | tail prior last ih =>
    rw [List.foldl_append]
    exact ih.log last

/-- The line of `Tty::Initialize` again. -/
theorem logged_twice : ∃ t₀ t, TtyInitialize (fun _ => 0) t₀ ∧ Run LogStep t₀ [ttyLog] t ∧
    Shows t ([ttyLog].foldl Roll.log .secondLine) := by
  have hSubject : 8 ∉ ttyLog.subject := by decide
  have hText : 8 ∉ ttyLog.text := by
    rw [text_ttyLog]
    decide
  obtain ⟨logged, hLogged⟩ := exists_logStep hSubject hText (Tty.reset fun _ => 0)
  obtain ⟨t, hLog⟩ := exists_logStep hSubject hText logged.fill
  have hInit : TtyInitialize (fun _ => 0) logged.fill := ⟨logged, hLogged, rfl⟩
  exact ⟨logged.fill, t, hInit, .single hLog, logged_of_run hInit (.single hLog)⟩

end Juos.Terminal
