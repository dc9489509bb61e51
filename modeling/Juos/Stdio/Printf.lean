import Juos.Stdio.ConvertToBase

/-!
# Reading a format

`printf` as the kernel is built with it, over the bytes of its format. What is printed is recorded
next to every index of the format that is looked at.

A format is read as items: `%` with the byte behind it, `$&` with two colours, `$` with the byte
behind it, and every other byte alone. Of the two escapes only `%` looks for the end of the format;
`printf_stays_iff` says that a `$` that stands alone there is the one way past it.
-/

namespace Juos.Stdio

open Machine

/-! ## The function -/

/-- The arguments behind the format, as words, and the text that a pointer points to. -/
structure Args where
  word : Nat → UInt32
  text : UInt32 → List UInt8

inductive Output where
  | putchar (c : UInt8)
  /-- `Tty::SetColor` -/
  | setColor (fg bg : UInt32)
  deriving DecidableEq, Repr

structure Scan where
  /-- the index that `format` points to -/
  format : Nat
  /-- the number of arguments that were taken -/
  arg : Nat
  argsPrinted : UInt32
  output : List Output
  /-- every index of the format that was looked at so far -/
  examined : List Nat

/-- The text that a call of `_convert_to_base` returns. -/
def numeral (value : Int32) (base : UInt32) : List UInt8 :=
  match convertToBase value base with
  | some (buf, start) => cString ((List.range (maxStrSize - start)).map fun i => buf (start + i))
  | none => []

theorem numeral_eq (value : Int32) {base : UInt32} (hBase : 2 ≤ base.toNat)
    (hBase' : base.toNat ≤ 16) : numeral value base = (characters base value).reverse := by
  obtain ⟨buf, start, hRun, hRoom, hText⟩ : Returns value base _ :=
    returns_characters hBase hBase'
  rw [numeral, hRun]
  exact hText.cString_eq (by omega)

/-- What is printed for a number is its positional notation. -/
theorem numeral_encodes (value : Int32) {base : UInt32} (hBase : 2 ≤ base.toNat)
    (hBase' : base.toNat ≤ 16) : Encodes base.toNat (unsigned value) (numeral value base) := by
  rw [numeral_eq value hBase hBase']
  exact encodes_characters value hBase hBase'

namespace Scan

def start : Scan := ⟨0, 0, 0, [], []⟩

/-- Look at `format[k]`. -/
def look (s : Scan) (k : Nat) : Scan := { s with examined := s.examined ++ [s.format + k] }

def advance (s : Scan) (k : Nat) : Scan := { s with format := s.format + k }

def printS (s : Scan) (text : List UInt8) : Scan :=
  { s with output := s.output ++ text.map .putchar }

/-- `va_arg(args, int)` -/
def nextArg (s : Scan) : Scan := { s with arg := s.arg + 1 }

def printN (s : Scan) (a : Args) (base : UInt32) : Scan :=
  (s.printS (numeral (a.word s.arg).toInt32 base)).nextArg

def printed (s : Scan) : Scan := { s with argsPrinted := s.argsPrinted + 1 }

/-- `char` to `unsigned int` -/
def colour (c : UInt8) : UInt32 := c.toInt8.toInt32.toUInt32

/-- The cases of the switch over `format[1]`, behind a `%`; `none` is the default. -/
def convert (a : Args) (c : UInt8) (s : Scan) : Option Scan :=
  if c = 99 then some (s.printS [(a.word s.arg).toUInt8]).nextArg
  else if c = 115 then some (s.printS (a.text (a.word s.arg))).nextArg
  else if c = 100 then some (s.printN a 10)
  else if c = 120 then some (s.printN a 16)
  else if c = 111 then some (s.printN a 8)
  else if c = 98 then some (s.printN a 2)
  else if c = 112 then some ((s.printS [48, 120]).printN a 16)
  else none

/-- `%`; the second component is false where the loop is left. -/
def percent (f : Nat → UInt8) (a : Args) (s : Scan) : Scan × Bool :=
  let c := f (s.format + 1)
  let s := s.look 1
  if c = 0 then (s, false)
  else
    match s.convert a c with
    | some s => (((s.advance 1).printed).advance 1, true)
    | none => (((s.printS [37, c]).advance 1).advance 1, true)

/-- `$` -/
def dollar (f : Nat → UInt8) (s : Scan) : Scan × Bool :=
  let c := f (s.format + 1)
  let s := s.look 1
  if c = 38 then
    let fg := f (s.format + 2)
    let bg := f (s.format + 3)
    let s := (s.look 2).look 3
    let s := { s with output := s.output ++ [Output.setColor (colour fg) (colour bg)] }
    (((s.advance 3).printed).advance 1, true)
  else ((((s.printS [36, c]).advance 1).printed).advance 1, true)

/-- The body of the loop. -/
def pass (f : Nat → UInt8) (a : Args) (s : Scan) : Scan × Bool :=
  let c := f s.format
  if c = 37 then s.percent f a
  else if c = 36 then s.dollar f
  else ((s.printS [c]).advance 1, true)

end Scan

/-- The loop of `printf`; the last state holds what is returned. -/
def printf (f : Nat → UInt8) (a : Args) : Nat → Scan → Option Scan
  | 0, _ => none
  | fuel + 1, s =>
    let s := s.look 0
    if f s.format = 0 then some s
    else
      let r := s.pass f a
      if r.2 then printf f a fuel r.1 else some r.1

/-! ## Items -/

/-- The length of the item at `i`. -/
def itemLength (f : Nat → UInt8) (i : Nat) : Nat :=
  if f i = 37 then 2 else if f i = 36 then (if f (i + 1) = 38 then 4 else 2) else 1

/-- No item is read at `i`: the format ends there, or right behind a `%`. -/
def Ends (f : Nat → UInt8) (i : Nat) : Prop := f i = 0 ∨ f i = 37 ∧ f (i + 1) = 0

/-- Read from the front, an item begins at `i`. -/
inductive ItemAt (f : Nat → UInt8) : Nat → Prop
  | first : ItemAt f 0
  | next {i : Nat} (h : ItemAt f i) (hEnds : ¬ Ends f i) : ItemAt f (i + itemLength f i)

/-- The format ends at `n`: there is a NUL, two bytes stand behind every `$&`, and they are the only
NULs before the end. -/
structure Format (f : Nat → UInt8) (n : Nat) : Prop where
  terminated : f n = 0
  colours : ∀ i < n, f i = 36 → f (i + 1) = 38 → i + 3 < n
  nul : ∀ i < n, f i = 0 → ∃ j, f j = 36 ∧ f (j + 1) = 38 ∧ (i = j + 2 ∨ i = j + 3)

/-- No `$` that begins an item stands right before the end. -/
def NoLoneDollar (f : Nat → UInt8) (n : Nat) : Prop := ∀ i, ItemAt f i → i + 1 = n → f i ≠ 36

section Items

variable {f : Nat → UInt8} {n i : Nat}

theorem itemLength_pos : 0 < itemLength f i := by
  rw [itemLength]
  split_ifs <;> decide

theorem item_end_le (hFormat : Format f n) (hAlone : i + 1 = n → f i ≠ 36) (hi : i < n)
    (hEnds : ¬ Ends f i) : i + itemLength f i ≤ n := by
  have hNext : f (i + 1) ≠ 0 → i + 1 ≠ n := fun hNul hEq => hNul (hEq ▸ hFormat.terminated)
  rw [itemLength]
  split_ifs with hPercent hDollar hColour
  · have := hNext fun hNul => hEnds (.inr ⟨hPercent, hNul⟩)
    omega
  · have := hFormat.colours i hi hDollar hColour
    omega
  · have : i + 1 ≠ n := fun hEq => hAlone hEq hDollar
    omega
  · omega

end Items

/-! ## The body of the loop -/

section Pass

variable {f : Nat → UInt8} {a : Args} {s t : Scan} {c : UInt8}

theorem convert_keeps (h : s.convert a c = some t) :
    t.format = s.format ∧ t.examined = s.examined := by
  rw [Scan.convert] at h
  split_ifs at h <;> cases h <;> exact ⟨rfl, rfl⟩

/-- What was looked at between `s` and `t`, and where `t` goes on. -/
structure Passed (f : Nat → UInt8) (s t : Scan) : Prop where
  format : t.format = s.format + itemLength f s.format
  examined : ∃ seen, t.examined = s.examined ++ seen ∧
    ∀ i ∈ seen, i < s.format + itemLength f s.format

theorem percent_ends (h : f (s.format + 1) = 0) : s.percent f a = (s.look 1, false) :=
  if_pos h

theorem percent_passed (hPercent : f s.format = 37) (h : f (s.format + 1) ≠ 0) :
    (s.percent f a).2 = true ∧ Passed f s (s.percent f a).1 := by
  have hLength : itemLength f s.format = 2 := if_pos hPercent
  rw [Scan.percent]
  rw [if_neg h]
  cases hConvert : (s.look 1).convert a (f (s.format + 1)) with
  | none => exact ⟨rfl, by rw [hLength]; rfl, [s.format + 1], rfl, by simp [hLength]⟩
  | some t =>
    obtain ⟨hFormat, hExamined⟩ := convert_keeps hConvert
    refine ⟨rfl, ?_, [s.format + 1], hExamined, by simp [hLength]⟩
    rw [hLength]
    exact congrArg (· + 1 + 1) hFormat

theorem dollar_passed (hDollar : f s.format = 36) :
    (s.dollar f).2 = true ∧ Passed f s (s.dollar f).1 := by
  have hLength : itemLength f s.format = if f (s.format + 1) = 38 then 4 else 2 := by
    rw [itemLength, if_neg (by rw [hDollar]; decide), if_pos hDollar]
  rw [Scan.dollar]
  split_ifs at hLength ⊢ with hColour
  · refine ⟨rfl, by rw [hLength]; rfl, [s.format + 1, s.format + 2, s.format + 3], ?_, ?_⟩
    · simp [Scan.look, Scan.advance, Scan.printed]
    · simp [hLength]
  · exact ⟨rfl, by rw [hLength]; rfl, [s.format + 1], rfl, by simp [hLength]⟩

theorem pass_ends (hNul : f s.format ≠ 0) (h : Ends f s.format) :
    s.pass f a = (s.look 1, false) := by
  obtain ⟨hPercent, hNext⟩ := h.resolve_left hNul
  rw [Scan.pass]
  rw [if_pos hPercent, percent_ends hNext]

theorem pass_passed (h : ¬ Ends f s.format) :
    (s.pass f a).2 = true ∧ Passed f s (s.pass f a).1 := by
  rw [Scan.pass]
  split_ifs with hPercent hDollar
  · exact percent_passed hPercent fun hNext => h (.inr ⟨hPercent, hNext⟩)
  · exact dollar_passed hDollar
  · have hLength : itemLength f s.format = 1 := by rw [itemLength, if_neg hPercent, if_neg hDollar]
    exact ⟨rfl, by rw [hLength]; rfl, [], by simp [Scan.printS, Scan.advance], by simp⟩

end Pass

/-! ## The loop -/

section Loop

variable {f : Nat → UInt8} {a : Args} {s t r : Scan} {fuel i n : Nat}

theorem printf_ends (h : Ends f s.format) : ∃ r seen, (∀ fuel, printf f a (fuel + 1) s = some r) ∧
    r.examined = s.examined ++ s.format :: seen ∧
    ∀ i ∈ seen, f s.format ≠ 0 ∧ i = s.format + 1 := by
  by_cases hNul : f s.format = 0
  · exact ⟨s.look 0, [], fun fuel => if_pos hNul, rfl, by simp⟩
  · refine ⟨(s.look 0).look 1, [s.format + 1], fun fuel => ?_, List.append_assoc .., by simp [hNul]⟩
    refine (if_neg hNul).trans ?_
    rw [pass_ends (s := s.look 0) hNul h]
    rfl

theorem printf_next (h : ¬ Ends f s.format) :
    ∃ t seen, t.format = s.format + itemLength f s.format ∧
      t.examined = s.examined ++ s.format :: seen ∧
      (∀ i ∈ seen, i < s.format + itemLength f s.format) ∧
      ∀ fuel, printf f a (fuel + 1) s = printf f a fuel t := by
  obtain ⟨hGo, hFormat, seen, hExamined, hSeen⟩ := pass_passed (a := a) (s := s.look 0) h
  refine ⟨((s.look 0).pass f a).1, seen, hFormat, ?_, hSeen, fun fuel => ?_⟩
  · rw [hExamined]
    exact List.append_assoc ..
  · refine (if_neg fun hNul => h (.inl hNul)).trans ?_
    exact if_pos hGo

/-- The format is read to its end, where no `$` stands alone before it. -/
theorem printf_inside (hFormat : Format f n) (hAlone : NoLoneDollar f n)
    (hItem : ItemAt f s.format) (hLe : s.format ≤ n) (hSeen : ∀ i ∈ s.examined, i ≤ n) :
    ∃ fuel r, printf f a fuel s = some r ∧ ∀ i ∈ r.examined, i ≤ n := by
  -- what is left of the format gets shorter with every item
  induction hLeft : n - s.format using Nat.strongRecOn generalizing s with
  | ind left ih =>
    have hInside : f s.format ≠ 0 → s.format < n := fun hNul =>
      Nat.lt_of_le_of_ne hLe fun hEq => hNul (hEq ▸ hFormat.terminated)
    by_cases hEnds : Ends f s.format
    · obtain ⟨r, seen, hRun, hExamined, hNew⟩ := printf_ends (a := a) hEnds
      refine ⟨1, r, hRun 0, fun i hi => ?_⟩
      rcases List.mem_append.mp (hExamined ▸ hi) with hOld | hSome
      · exact hSeen i hOld
      · rcases List.mem_cons.mp hSome with rfl | hBehind
        · exact hLe
        · obtain ⟨hNul, rfl⟩ := hNew i hBehind
          exact hInside hNul
    · obtain ⟨t, seen, hNext, hExamined, hNew, hRun⟩ := printf_next (a := a) hEnds
      have hHere := hInside fun hNul => hEnds (.inl hNul)
      have hEnd := item_end_le hFormat (hAlone s.format hItem) hHere hEnds
      have hPos := itemLength_pos (f := f) (i := s.format)
      have hSeen' : ∀ i ∈ t.examined, i ≤ n := by
        intro i hi
        rcases List.mem_append.mp (hExamined ▸ hi) with hOld | hSome
        · exact hSeen i hOld
        · rcases List.mem_cons.mp hSome with rfl | hBehind
          · exact hLe
          · exact (hNew i hBehind).le.trans hEnd
      obtain ⟨fuel, r, hRun', hExamined'⟩ := ih (n - t.format) (by omega) (s := t)
        (hNext ▸ hItem.next hEnds) (hNext ▸ hEnd) hSeen' rfl
      exact ⟨fuel + 1, r, (hRun fuel).trans hRun', hExamined'⟩

/-- A run that returns has read every item. -/
theorem printf_reaches (h : ItemAt f i) (hRun : printf f a fuel .start = some r) :
    ∃ fuel' s, s.format = i ∧ printf f a fuel' s = some r := by
  induction h with
  | first => exact ⟨fuel, .start, rfl, hRun⟩
  | next _ hEnds ih =>
    obtain ⟨fuel', s, rfl, hRun'⟩ := ih
    obtain ⟨t, -, hFormat, -, -, hNext⟩ := printf_next (a := a) hEnds
    cases fuel' with
    | zero => cases hRun'
    | succ fuel' => exact ⟨fuel', t, hFormat, (hNext fuel').symm.trans hRun'⟩

/-- What was looked at stays so, and every iteration looks at the byte that it begins with. -/
theorem mem_examined (hRun : printf f a fuel s = some r) :
    s.format ∈ r.examined ∧ ∀ i ∈ s.examined, i ∈ r.examined := by
  induction fuel generalizing s with
  | zero => cases hRun
  | succ fuel ih =>
    by_cases hEnds : Ends f s.format
    · obtain ⟨_, seen, hRun', hExamined, -⟩ := printf_ends (a := a) hEnds
      obtain rfl := Option.some.inj ((hRun' fuel).symm.trans hRun)
      rw [hExamined]
      exact ⟨List.mem_append_right _ List.mem_cons_self, fun i => List.mem_append_left _⟩
    · obtain ⟨t, seen, -, hExamined, -, hNext⟩ := printf_next (a := a) hEnds
      have hKept := (ih ((hNext fuel).symm.trans hRun)).2
      rw [hExamined] at hKept
      exact ⟨hKept _ (List.mem_append_right _ List.mem_cons_self),
        fun i hi => hKept i (List.mem_append_left _ hi)⟩

/-- A `$` takes the byte behind it along, also when the format ends there. -/
theorem mem_examined_of_lone_dollar (hItem : ItemAt f i) (hDollar : f i = 36)
    (hEnd : f (i + 1) = 0) (hRun : printf f a fuel .start = some r) : i + 2 ∈ r.examined := by
  have hEnds : ¬ Ends f i := by
    rintro (hNul | ⟨hPercent, -⟩)
    · exact absurd (hNul.symm.trans hDollar) (by decide)
    · exact absurd (hPercent.symm.trans hDollar) (by decide)
  have hLength : itemLength f i = 2 := by
    rw [itemLength, hDollar, hEnd]
    rfl
  obtain ⟨_, s, hHere, hRun'⟩ := printf_reaches (hItem.next hEnds) hRun
  have hMem := (mem_examined hRun').1
  rwa [hHere, hLength] at hMem

end Loop

/-- `printf` returns, and looks at nothing behind the end of its format. -/
def StaysInside (f : Nat → UInt8) (a : Args) (n : Nat) : Prop :=
  ∃ fuel r, printf f a fuel .start = some r ∧ ∀ i ∈ r.examined, i ≤ n

/-- Whatever the arguments are, a format is left exactly if a `$` stands alone right before its
end. -/
theorem printf_stays_iff {f : Nat → UInt8} {n : Nat} (hFormat : Format f n) (a : Args) :
    StaysInside f a n ↔ NoLoneDollar f n := by
  constructor
  · rintro ⟨fuel, r, hRun, hInside⟩ i hItem rfl hDollar
    have hMem := mem_examined_of_lone_dollar hItem hDollar hFormat.terminated hRun
    exact absurd (hInside _ hMem) (Nat.not_succ_le_self _)
  · intro hAlone
    exact printf_inside hFormat hAlone .first (Nat.zero_le n) (by simp [Scan.start])

/-- `"$&\x4\x0K"` -/
def logFormat (i : Nat) : UInt8 := [36, 38, 4, 0, 75].getD i 0

theorem printf_stays_log : StaysInside logFormat ⟨fun _ => 0, fun _ => []⟩ 5 := by
  have hFormat : Format logFormat 5 := by
    refine ⟨rfl, by decide, fun i hi hNul => ⟨0, rfl, rfl, ?_⟩⟩
    revert i
    decide
  refine (printf_stays_iff hFormat _).mpr fun i _ hLast => ?_
  obtain rfl : i = 4 := Nat.succ.inj hLast
  decide

/-- The format `"$"` is left. -/
theorem printf_lone_dollar : ¬ ∀ (f : Nat → UInt8) (a : Args) (n : Nat), Format f n →
    StaysInside f a n := by
  intro h
  let f (i : Nat) : UInt8 := [36].getD i 0
  have hFormat : Format f 1 := by
    refine ⟨rfl, by decide, fun i hi hNul => ?_⟩
    obtain rfl : i = 0 := by omega
    cases hNul
  obtain ⟨fuel, r, hRun, hInside⟩ := h f ⟨fun _ => 0, fun _ => []⟩ 1 hFormat
  have hMem := mem_examined_of_lone_dollar .first rfl rfl hRun
  exact absurd (hInside _ hMem) (by decide)

end Juos.Stdio
