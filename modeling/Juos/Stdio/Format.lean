import Juos.Stdio.Printf
import Mathlib.Data.List.GetD

/-!
# What a format means

A format is a row of items, each with its spelling, and what is printed for an item depends on the
item and on the first argument that is left alone. `printf_iff` says that `printf` returns exactly
where such a row can be read, and that output, arguments and the returned number are those of the
row; `reads_unique` says that there is no other one.

A colour escape and a `$` that escapes nothing are counted as printed arguments, a `%` that
converts nothing is not.
-/

namespace Juos.Stdio

open Machine

/-! ## Items -/

inductive Conversion where
  | char
  | string
  | decimal
  | hexadecimal
  | octal
  | binary
  | pointer
  deriving DecidableEq, Repr

def Conversion.letter : Conversion → UInt8
  | .char => 99
  | .string => 115
  | .decimal => 100
  | .hexadecimal => 120
  | .octal => 111
  | .binary => 98
  | .pointer => 112

/-- A number in the positional system, as a text. -/
def positional (base n : Nat) : List UInt8 :=
  ((digitsOf base n).map (representation.getD · 0)).reverse

/-- What is printed for the argument `w`. Numbers are unsigned. -/
def Conversion.text (a : Args) (w : UInt32) : Conversion → List UInt8
  | .char => [w.toUInt8]
  | .string => a.text w
  | .decimal => positional 10 w.toNat
  | .hexadecimal => positional 16 w.toNat
  | .octal => positional 8 w.toNat
  | .binary => positional 2 w.toNat
  | .pointer => [48, 120] ++ positional 16 w.toNat

/-- An item of a format, with what keeps its spelling apart from the others. -/
inductive Item where
  /-- `%` and a letter -/
  | conversion (k : Conversion)
  /-- `%` and a byte that is no letter of a conversion -/
  | unknown (c : UInt8) (h : c ≠ 0 ∧ ∀ k : Conversion, c ≠ k.letter)
  /-- `$&` and two colours -/
  | colours (fg bg : UInt8)
  /-- `$` and another byte, which may be the end of the format -/
  | dollar (c : UInt8) (h : c ≠ 38)
  | byte (c : UInt8) (h : c ≠ 0 ∧ c ≠ 37 ∧ c ≠ 36)

namespace Item

def spelling : Item → List UInt8
  | conversion k => [37, k.letter]
  | unknown c _ => [37, c]
  | colours fg bg => [36, 38, fg, bg]
  | dollar c _ => [36, c]
  | byte c _ => [c]

/-- What is printed for the item, with `w` the next argument. -/
def output (a : Args) (w : UInt32) : Item → List Output
  | conversion k => (k.text a w).map .putchar
  | unknown c _ => [.putchar 37, .putchar c]
  | colours fg bg => [.setColor (Scan.colour fg) (Scan.colour bg)]
  | dollar c _ => [.putchar 36, .putchar c]
  | byte c _ => [.putchar c]

/-- The number of arguments that the item takes. -/
def takes : Item → Nat
  | conversion _ => 1
  | _ => 0

/-- What the item adds to the number that is returned. -/
def counts : Item → Nat
  | conversion _ => 1
  | colours _ _ => 1
  | dollar _ _ => 1
  | _ => 0

end Item

/-- What is printed for a row of items, the first one with the argument `k`. -/
def printed (a : Args) (k : Nat) : List Item → List Output
  | [] => []
  | x :: xs => x.output a (a.word k) ++ printed a (k + x.takes) xs

def taken (items : List Item) : Nat := (items.map Item.takes).sum

def counted (items : List Item) : Nat := (items.map Item.counts).sum

/-! ## Reading -/

/-- A string literal in memory. -/
def literal (bytes : List UInt8) (i : Nat) : UInt8 := bytes.getD i 0

/-- Bytes that mean themselves. -/
def plainItems : (bytes : List UInt8) → (∀ c ∈ bytes, c ≠ 0 ∧ c ≠ 37 ∧ c ≠ 36) → List Item
  | [], _ => []
  | c :: bytes, h => .byte c (h c List.mem_cons_self) ::
      plainItems bytes fun d hd => h d (List.mem_cons_of_mem c hd)

/-- The bytes stand in memory from `i` on. -/
def Occurs (f : Nat → UInt8) (i : Nat) : List UInt8 → Prop
  | [] => True
  | b :: bs => f i = b ∧ Occurs f (i + 1) bs

/-- The items are spelled one behind the other, from `i` up to `n`. -/
inductive Reads (f : Nat → UInt8) : Nat → List Item → Nat → Prop
  | done (i : Nat) : Reads f i [] i
  | item {i n : Nat} {x : Item} {xs : List Item} (h : Occurs f i x.spelling)
      (rest : Reads f (i + x.spelling.length) xs n) : Reads f i (x :: xs) n

section Reading

variable {f : Nat → UInt8} {i n n' m : Nat} {x y : Item} {xs ys : List Item}
  {bytes : List UInt8}

/-- No item is spelled where a format ends. -/
theorem not_ends_of_occurs (h : Occurs f i x.spelling) : ¬ Ends f i := by
  rintro (hNul | ⟨hPercent, hNext⟩)
  · have hFirst : f i ≠ 0 := by
      cases x with
      | byte c hc => exact h.1 ▸ hc.1
      | _ => exact h.1 ▸ by decide
    exact hFirst hNul
  · cases x with
    | conversion k =>
      have hLetter : f (i + 1) = k.letter := h.2.1
      rw [hNext] at hLetter
      cases k <;> cases hLetter
    | unknown c hc => exact hc.1 (h.2.1.symm.trans hNext)
    | colours fg bg => exact absurd (h.1.symm.trans hPercent) (by decide)
    | dollar c hc => exact absurd (h.1.symm.trans hPercent) (by decide)
    | byte c hc => exact hc.2.1 (h.1.symm.trans hPercent)

theorem exists_item (hEnds : ¬ Ends f i) : ∃ x : Item, Occurs f i x.spelling := by
  by_cases hPercent : f i = 37
  · have hNext : f (i + 1) ≠ 0 := fun hNul => hEnds (.inr ⟨hPercent, hNul⟩)
    by_cases hLetter : ∃ k : Conversion, f (i + 1) = k.letter
    · obtain ⟨k, hk⟩ := hLetter
      exact ⟨.conversion k, hPercent, hk, trivial⟩
    · exact ⟨.unknown (f (i + 1)) ⟨hNext, fun k hk => hLetter ⟨k, hk⟩⟩, hPercent, rfl, trivial⟩
  · by_cases hDollar : f i = 36
    · by_cases hColour : f (i + 1) = 38
      · exact ⟨.colours (f (i + 2)) (f (i + 3)), hDollar, hColour, rfl, rfl, trivial⟩
      · exact ⟨.dollar (f (i + 1)) hColour, hDollar, rfl, trivial⟩
    · exact ⟨.byte (f i) ⟨fun hNul => hEnds (.inl hNul), hPercent, hDollar⟩, rfl, trivial⟩

theorem letter_inj {k l : Conversion} (h : k.letter = l.letter) : k = l := by
  cases k <;> cases l <;> first | rfl | cases h

/-- A spelling tells its item. -/
theorem item_unique (hx : Occurs f i x.spelling) (hy : Occurs f i y.spelling) : x = y := by
  cases x with
  | conversion k =>
    obtain ⟨hx, hx', -⟩ := hx
    cases y with
    | conversion l => exact congrArg _ (letter_inj (hx'.symm.trans hy.2.1))
    | unknown c h => exact absurd (hy.2.1.symm.trans hx') (h.2 k)
    | byte c h => exact absurd (hy.1.symm.trans hx) h.2.1
    | _ => exact absurd (hy.1.symm.trans hx) (by decide)
  | unknown c h =>
    obtain ⟨hx, hx', -⟩ := hx
    cases y with
    | conversion l => exact absurd (hx'.symm.trans hy.2.1) (h.2 l)
    | unknown d h' =>
      obtain rfl : c = d := hx'.symm.trans hy.2.1
      rfl
    | byte c h => exact absurd (hy.1.symm.trans hx) h.2.1
    | _ => exact absurd (hy.1.symm.trans hx) (by decide)
  | colours fg bg =>
    obtain ⟨hx, hx', hx'', hx''', -⟩ := hx
    cases y with
    | colours fg bg => rw [← hx'', ← hx''', ← hy.2.2.1, ← hy.2.2.2.1]
    | dollar d h => exact absurd (hy.2.1.symm.trans hx') h
    | byte c h => exact absurd (hy.1.symm.trans hx) h.2.2
    | _ => exact absurd (hy.1.symm.trans hx) (by decide)
  | dollar c h =>
    obtain ⟨hx, hx', -⟩ := hx
    cases y with
    | colours fg bg => exact absurd (hx'.symm.trans hy.2.1) h
    | dollar d h =>
      obtain rfl : c = d := hx'.symm.trans hy.2.1
      rfl
    | byte c h => exact absurd (hy.1.symm.trans hx) h.2.2
    | _ => exact absurd (hy.1.symm.trans hx) (by decide)
  | byte c h =>
    obtain ⟨hx, -⟩ := hx
    cases y with
    | byte d h =>
      obtain rfl : c = d := hx.symm.trans hy.1
      rfl
    | conversion l => exact absurd (hx.symm.trans hy.1) h.2.1
    | unknown c h' => exact absurd (hx.symm.trans hy.1) h.2.1
    | _ => exact absurd (hx.symm.trans hy.1) h.2.2

/-- Between its front and its end a format is read in one way. -/
theorem reads_unique (hx : Reads f i xs n) (hEnds : Ends f n) (hy : Reads f i ys n')
    (hEnds' : Ends f n') : xs = ys := by
  induction hx generalizing ys with
  | done i =>
    cases hy with
    | done => rfl
    | item hOccurs _ => exact absurd hEnds (not_ends_of_occurs hOccurs)
  | item hOccurs _ ih =>
    cases hy with
    | done => exact absurd hEnds' (not_ends_of_occurs hOccurs)
    | item hOccurs' hRest =>
      obtain rfl := item_unique hOccurs hOccurs'
      rw [ih hEnds hRest]

theorem occurs_literal (front bytes rest : List UInt8) :
    Occurs (literal (front ++ bytes ++ rest)) front.length bytes := by
  induction bytes generalizing front with
  | nil => trivial
  | cons b bytes ih =>
    constructor
    · rw [literal, List.append_assoc, List.getD_append_right _ _ _ _ (Nat.le_refl _),
        Nat.sub_self]
      rfl
    · have hNext := ih (front ++ [b])
      rw [List.length_append, List.append_assoc front [b] bytes] at hNext
      exact hNext

theorem reads_append (hx : Reads f i xs n) (hy : Reads f n ys m) : Reads f i (xs ++ ys) m := by
  induction hx with
  | done => exact hy
  | item hOccurs _ ih => exact .item hOccurs (ih hy)

theorem reads_plainItems (hPlain : ∀ c ∈ bytes, c ≠ 0 ∧ c ≠ 37 ∧ c ≠ 36)
    (hOccurs : Occurs f i bytes) :
    Reads f i (plainItems bytes hPlain) (i + bytes.length) := by
  induction bytes generalizing i with
  | nil => exact .done i
  | cons c bytes ih =>
    refine .item ⟨hOccurs.1, trivial⟩ ?_
    rw [List.length_cons, Nat.add_comm bytes.length 1, ← Nat.add_assoc]
    exact ih _ hOccurs.2

theorem printed_plainItems (hPlain : ∀ c ∈ bytes, c ≠ 0 ∧ c ≠ 37 ∧ c ≠ 36) (a : Args) (k : Nat)
    (ys : List Item) : printed a k (plainItems bytes hPlain ++ ys) =
      bytes.map .putchar ++ printed a k ys := by
  induction bytes with
  | nil => rfl
  | cons c bytes ih =>
    exact congrArg (Output.putchar c :: ·) (ih fun d hd => hPlain d (List.mem_cons_of_mem c hd))

/-- A row of items is read where it is spelled. -/
theorem reads_spelled (front : List UInt8) (xs : List Item) :
    Reads (literal (front ++ xs.flatMap Item.spelling)) front.length xs
      (front ++ xs.flatMap Item.spelling).length := by
  induction xs generalizing front with
  | nil =>
    rw [List.flatMap_nil, List.append_nil]
    exact .done _
  | cons x xs ih =>
    have hLength : (front ++ x.spelling).length = front.length + x.spelling.length :=
      List.length_append
    have hRest := ih (front ++ x.spelling)
    rw [List.append_assoc, hLength] at hRest
    refine .item ?_ hRest
    rw [List.flatMap_cons, ← List.append_assoc]
    exact occurs_literal front x.spelling _

end Reading

/-! ## The body of the loop -/

section Pass

variable {f : Nat → UInt8} {a : Args} {s t : Scan} {x : Item}

theorem numeral_word {base : UInt32} (hBase : 2 ≤ base.toNat) (hBase' : base.toNat ≤ 16)
    (w : UInt32) : numeral w.toInt32 base = positional base.toNat w.toNat := by
  rw [numeral_eq _ hBase hBase', characters, unsigned, UInt32.toUInt32_toInt32]
  rfl

/-- What a conversion prints, and that it takes one argument. -/
theorem convert_letter (k : Conversion) : ∃ t, s.convert a k.letter = some t ∧
    t.output = s.output ++ (k.text a (a.word s.arg)).map .putchar ∧ t.arg = s.arg + 1 ∧
    t.format = s.format ∧ t.argsPrinted = s.argsPrinted := by
  have hNumber : ∀ (s : Scan) (base : UInt32), 2 ≤ base.toNat → base.toNat ≤ 16 →
      (s.printN a base).output =
        s.output ++ (positional base.toNat (a.word s.arg).toNat).map .putchar := by
    intro s base hBase hBase'
    rw [← numeral_word hBase hBase']
    rfl
  cases k with
  | char => exact ⟨_, rfl, rfl, rfl, rfl, rfl⟩
  | string => exact ⟨_, rfl, rfl, rfl, rfl, rfl⟩
  | decimal => exact ⟨_, rfl, hNumber s 10 (by decide) (by decide), rfl, rfl, rfl⟩
  | hexadecimal => exact ⟨_, rfl, hNumber s 16 (by decide) (by decide), rfl, rfl, rfl⟩
  | octal => exact ⟨_, rfl, hNumber s 8 (by decide) (by decide), rfl, rfl, rfl⟩
  | binary => exact ⟨_, rfl, hNumber s 2 (by decide) (by decide), rfl, rfl, rfl⟩
  | pointer =>
    refine ⟨_, rfl, ?_, rfl, rfl, rfl⟩
    rw [Conversion.text, List.map_append, ← List.append_assoc]
    exact hNumber (s.printS [48, 120]) 16 (by decide) (by decide)

theorem convert_unknown {c : UInt8} (h : ∀ k : Conversion, c ≠ k.letter) :
    s.convert a c = none := by
  refine (if_neg (h .char)).trans ((if_neg (h .string)).trans ((if_neg (h .decimal)).trans ?_))
  refine (if_neg (h .hexadecimal)).trans ((if_neg (h .octal)).trans ?_)
  exact (if_neg (h .binary)).trans (if_neg (h .pointer))

/-- `t` is `s` after the item `x`. -/
structure Prints (a : Args) (x : Item) (s t : Scan) : Prop where
  format : t.format = s.format + x.spelling.length
  arg : t.arg = s.arg + x.takes
  output : t.output = s.output ++ x.output a (a.word s.arg)
  argsPrinted : t.argsPrinted = s.argsPrinted + UInt32.ofNat x.counts

/-- The loop's body prints one item. -/
theorem pass_item (h : Occurs f s.format x.spelling) :
    (s.pass f a).2 = true ∧ Prints a x s (s.pass f a).1 := by
  cases x with
  | conversion k =>
    obtain ⟨hPercent, hLetter, -⟩ := h
    obtain ⟨t, hConvert, hOutput, hArg, hFormat, hCount⟩ := convert_letter (a := a)
      (s := s.look 1) k
    have hPass : s.pass f a = (((t.advance 1).printed).advance 1, true) := by
      rw [Scan.pass, if_pos hPercent, Scan.percent, hLetter, if_neg, hConvert]
      cases k <;> decide
    rw [hPass]
    exact ⟨rfl, congrArg (· + 1 + 1) hFormat, hArg, hOutput, congrArg (· + 1) hCount⟩
  | unknown c hc =>
    obtain ⟨hPercent, hLetter, -⟩ := h
    rw [Scan.pass, if_pos hPercent, Scan.percent, hLetter]
    rw [if_neg hc.1, convert_unknown hc.2]
    exact ⟨rfl, rfl, rfl, rfl, (UInt32.add_zero _).symm⟩
  | colours fg bg =>
    obtain ⟨hDollar, hColour, hfg, hbg, -⟩ := h
    rw [Scan.pass, if_neg (hDollar ▸ by decide), if_pos hDollar, Scan.dollar]
    rw [if_pos hColour]
    exact ⟨rfl, rfl, rfl, by rw [← hfg, ← hbg]; rfl, rfl⟩
  | dollar c hc =>
    obtain ⟨hDollar, hNext, -⟩ := h
    rw [Scan.pass, if_neg (hDollar ▸ by decide), if_pos hDollar, Scan.dollar, hNext]
    rw [if_neg hc]
    exact ⟨rfl, rfl, rfl, rfl, rfl⟩
  | byte c hc =>
    obtain ⟨hByte, -⟩ := h
    rw [Scan.pass, hByte, if_neg hc.2.1, if_neg hc.2.2]
    exact ⟨rfl, rfl, rfl, rfl, (UInt32.add_zero _).symm⟩

end Pass

/-! ## The loop -/

/-- `r` is `s` after a row of items. -/
structure PrintsAll (a : Args) (items : List Item) (s r : Scan) : Prop where
  arg : r.arg = s.arg + taken items
  output : r.output = s.output ++ printed a s.arg items
  argsPrinted : r.argsPrinted = s.argsPrinted + UInt32.ofNat (counted items)

section Loop

variable {f : Nat → UInt8} {a : Args} {s t r : Scan} {x : Item} {items : List Item}
  {fuel i n : Nat}

theorem PrintsAll.cons (hFirst : Prints a x s t) (hRest : PrintsAll a items t r) :
    PrintsAll a (x :: items) s r where
  arg := by rw [hRest.arg, hFirst.arg, Nat.add_assoc, taken, taken, List.map_cons, List.sum_cons]
  output := by rw [hRest.output, hFirst.output, hFirst.arg, List.append_assoc, printed]
  argsPrinted := by
    rw [hRest.argsPrinted, hFirst.argsPrinted, UInt32.add_assoc, ← UInt32.ofNat_add, counted,
      counted, List.map_cons, List.sum_cons]

theorem printf_item (h : Occurs f s.format x.spelling) :
    ∃ t, Prints a x s t ∧ ∀ fuel, printf f a (fuel + 1) s = printf f a fuel t := by
  obtain ⟨hGo, hPrints⟩ := pass_item (a := a) (s := s.look 0) h
  refine ⟨_, ⟨hPrints.format, hPrints.arg, hPrints.output, hPrints.argsPrinted⟩, fun fuel => ?_⟩
  refine (if_neg fun hNul => not_ends_of_occurs h (.inl hNul)).trans ?_
  exact if_pos hGo

theorem printf_end (h : Ends f s.format) :
    ∃ r, PrintsAll a [] s r ∧ ∀ fuel, printf f a (fuel + 1) s = some r := by
  by_cases hNul : f s.format = 0
  · exact ⟨s.look 0, ⟨rfl, (List.append_nil _).symm, (UInt32.add_zero _).symm⟩,
      fun fuel => if_pos hNul⟩
  · refine ⟨(s.look 0).look 1, ⟨rfl, (List.append_nil _).symm, (UInt32.add_zero _).symm⟩,
      fun fuel => (if_neg hNul).trans ?_⟩
    rw [pass_ends (s := s.look 0) hNul h]
    rfl

/-- A row of items up to the end of the format is printed. -/
theorem printf_of_reads (hReads : Reads f i items n) (hEnds : Ends f n) (hStart : s.format = i) :
    ∃ fuel r, printf f a fuel s = some r ∧ PrintsAll a items s r := by
  induction hReads generalizing s with
  | done i =>
    obtain ⟨r, hPrints, hRun⟩ := printf_end (a := a) (hStart ▸ hEnds)
    exact ⟨1, r, hRun 0, hPrints⟩
  | item hOccurs _ ih =>
    obtain ⟨t, hPrints, hRun⟩ := printf_item (a := a) (hStart ▸ hOccurs)
    obtain ⟨fuel, r, hRest, hPrintsAll⟩ := ih hEnds (hPrints.format.trans (hStart ▸ rfl))
    exact ⟨fuel + 1, r, (hRun fuel).trans hRest, hPrintsAll.cons hPrints⟩

/-- A run that returns has printed a row of items up to the end of the format. -/
theorem reads_of_printf (hRun : printf f a fuel s = some r) :
    ∃ items n, Reads f s.format items n ∧ Ends f n ∧ PrintsAll a items s r := by
  induction fuel generalizing s with
  | zero => cases hRun
  | succ fuel ih =>
    by_cases hEnds : Ends f s.format
    · obtain ⟨r', hPrints, hRun'⟩ := printf_end (a := a) hEnds
      obtain rfl : r' = r := Option.some.inj ((hRun' fuel).symm.trans hRun)
      exact ⟨[], s.format, .done _, hEnds, hPrints⟩
    · obtain ⟨x, hOccurs⟩ := exists_item hEnds
      obtain ⟨t, hPrints, hRun'⟩ := printf_item (a := a) hOccurs
      obtain ⟨items, n, hReads, hEnds', hPrintsAll⟩ := ih ((hRun' fuel).symm.trans hRun)
      exact ⟨x :: items, n, .item hOccurs (hPrints.format ▸ hReads), hEnds',
        hPrintsAll.cons hPrints⟩

end Loop

/-- `printf` returns `count`, with `taken` arguments taken and `output` printed. -/
def Printf (f : Nat → UInt8) (a : Args) (output : List Output) (taken : Nat) (count : UInt32) :
    Prop :=
  ∃ fuel r, printf f a fuel .start = some r ∧ r.output = output ∧ r.arg = taken ∧
    r.argsPrinted = count

/-- `printf` returns exactly where a row of items can be read from the front of the format to its
end, and what it prints, takes and returns is what the row means. -/
theorem printf_iff (f : Nat → UInt8) (a : Args) (output : List Output) (k : Nat)
    (count : UInt32) : Printf f a output k count ↔
      ∃ items n, Reads f 0 items n ∧ Ends f n ∧ output = printed a 0 items ∧ k = taken items ∧
        count = UInt32.ofNat (counted items) := by
  constructor
  · rintro ⟨fuel, r, hRun, rfl, rfl, rfl⟩
    obtain ⟨items, n, hReads, hEnds, hPrints⟩ := reads_of_printf hRun
    refine ⟨items, n, hReads, hEnds, hPrints.output, ?_, ?_⟩
    · exact hPrints.arg.trans (Nat.zero_add _)
    · exact hPrints.argsPrinted.trans (UInt32.zero_add _)
  · rintro ⟨items, n, hReads, hEnds, rfl, rfl, rfl⟩
    obtain ⟨fuel, r, hRun, hPrints⟩ := printf_of_reads (a := a) (s := .start) hReads hEnds rfl
    refine ⟨fuel, r, hRun, hPrints.output, ?_, ?_⟩
    · exact hPrints.arg.trans (Nat.zero_add _)
    · exact hPrints.argsPrinted.trans (UInt32.zero_add _)

end Juos.Stdio
