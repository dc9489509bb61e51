import Juos.Machine.CString
import Mathlib.Data.Nat.Digits.Lemmas

/-!
# Numbers as texts

`_convert_to_base` for `int`, as `printf` calls it. The base is unsigned, so that every division is
one of the value read as an unsigned number, also the first one of a negative value. The digits are
stored backwards from the last place but one of a static buffer.

`printed_eq` says that the text is made of Mathlib's digits of that number; what
`convertToBase_faithful` says about texts are their properties.
-/

namespace Juos.Stdio

open Machine

/-- `MaxStrSize` -/
abbrev maxStrSize : Nat := 64

/-- `"0123456789abcdef"` -/
def representation : List UInt8 :=
  [48, 49, 50, 51, 52, 53, 54, 55, 56, 57, 97, 98, 99, 100, 101, 102]

/-- The loop of `_convert_to_base`, with `place` bytes of the buffer in front of the last digit. It
returns the buffer and the index of its first digit, and nothing where a digit is to be stored in
front of the buffer. -/
def convertLoop (base : UInt32) : Nat → Int32 → (Nat → UInt8) → Option ((Nat → UInt8) × Nat)
  | 0, _, _ => none
  | place + 1, value, buf =>
    let digit := representation.getD (value.toUInt32 % base).toNat 0
    let buf := Function.update buf place digit
    let value := (value.toUInt32 / base).toInt32
    if value ≠ 0 then convertLoop base place value buf else some (buf, place)

/-- `_convert_to_base<int>` -/
def convertToBase (value : Int32) (base : UInt32) : Option ((Nat → UInt8) × Nat) :=
  convertLoop base (maxStrSize - 1) value fun _ => 0

/-! ## Digits -/

/-- The digits of a number, the last one first; zero has one. -/
def digitsOf (base n : Nat) : List Nat := if n = 0 then [0] else Nat.digits base n

section Digits

variable {base n m : Nat}

theorem digitsOf_eq (hBase : 2 ≤ base) :
    digitsOf base n = n % base :: if n / base = 0 then [] else digitsOf base (n / base) := by
  rw [digitsOf]
  split_ifs with hZero hDiv hDiv
  · rw [hZero, Nat.zero_mod]
  · exact absurd (by rw [hZero, Nat.zero_div]) hDiv
  · rw [Nat.digits_def' hBase (Nat.pos_of_ne_zero hZero), hDiv, Nat.digits_zero]
  · rw [Nat.digits_def' hBase (Nat.pos_of_ne_zero hZero), digitsOf, if_neg hDiv]

theorem digitsOf_lt (hBase : 2 ≤ base) {d : Nat} (hd : d ∈ digitsOf base n) : d < base := by
  rw [digitsOf] at hd
  split_ifs at hd
  · rw [List.mem_singleton.mp hd]
    omega
  · exact Nat.digits_lt_base hBase hd

theorem ofDigits_digitsOf : Nat.ofDigits base (digitsOf base n) = n := by
  rw [digitsOf]
  split_ifs with hZero
  · rw [hZero, Nat.ofDigits_singleton]
  · exact Nat.ofDigits_digits base n

theorem length_digitsOf (hBase : 2 ≤ base) (hn : n < 4294967296) :
    (digitsOf base n).length ≤ 32 := by
  rw [digitsOf]
  split_ifs with hZero
  · exact Nat.le_of_ble_eq_true rfl
  · rw [Nat.digits_length_le_iff hBase]
    exact hn.trans_le (Nat.pow_le_pow_left hBase 32)

theorem digitsOf_ne_nil : digitsOf base n ≠ [] := by
  rw [digitsOf]
  split_ifs with hZero
  · exact List.cons_ne_nil _ _
  · exact Nat.digits_ne_nil_iff_ne_zero.mpr hZero

theorem getLast?_digitsOf (h : (digitsOf base n).getLast? = some 0) : n = 0 := by
  by_contra hZero
  rw [digitsOf, if_neg hZero, List.getLast?_eq_some_getLast
    (Nat.digits_ne_nil_iff_ne_zero.mpr hZero)] at h
  exact Nat.getLast_digit_ne_zero base hZero (Option.some.inj h)

end Digits

/-! ## The loop -/

/-- The value read as an unsigned number. -/
def unsigned (value : Int32) : Nat := value.toUInt32.toNat

theorem unsigned_lt (value : Int32) : unsigned value < 4294967296 := value.toUInt32.toNat_lt

theorem unsigned_inj {value value' : Int32} (h : unsigned value = unsigned value') :
    value = value' := by
  rw [← Int32.toInt32_toUInt32 value, ← Int32.toInt32_toUInt32 value', UInt32.toNat_inj.mp h]

/-- The characters of the digits, the last one first. -/
def characters (base : UInt32) (value : Int32) : List UInt8 :=
  (digitsOf base.toNat (unsigned value)).map (representation.getD · 0)

section Loop

variable {base : UInt32} {value : Int32} {place : Nat}

theorem unsigned_divided : unsigned (value.toUInt32 / base).toInt32 =
    unsigned value / base.toNat := by
  rw [unsigned, UInt32.toUInt32_toInt32, UInt32.toNat_div, unsigned]

theorem divided_ne_zero_iff :
    (value.toUInt32 / base).toInt32 ≠ 0 ↔ unsigned value / base.toNat ≠ 0 := by
  rw [← unsigned_divided, not_iff_not]
  exact ⟨fun h => congrArg unsigned h, fun h => unsigned_inj h⟩

theorem characters_eq (hBase : 2 ≤ base.toNat) : characters base value =
    representation.getD (value.toUInt32 % base).toNat 0 ::
      if (value.toUInt32 / base).toInt32 ≠ 0 then
        characters base (value.toUInt32 / base).toInt32 else [] := by
  rw [characters, digitsOf_eq hBase, List.map_cons, UInt32.toNat_mod]
  by_cases hDiv : unsigned value / base.toNat = 0
  · rw [if_pos hDiv, if_neg fun h => divided_ne_zero_iff.mp h hDiv]
    rfl
  · rw [if_neg hDiv, if_pos (divided_ne_zero_iff.mpr hDiv), characters, unsigned_divided]
    rfl

/-- The digits are stored in front of `place`, the last one next to it, and nothing else is. -/
theorem convertLoop_eq (hBase : 2 ≤ base.toNat) (buf : Nat → UInt8)
    (hRoom : (characters base value).length ≤ place) :
    ∃ buf', convertLoop base place value buf =
        some (buf', place - (characters base value).length) ∧
      (∀ i, place ≤ i → buf' i = buf i) ∧
      ∀ i < (characters base value).length,
        (characters base value)[i]? = some (buf' (place - 1 - i)) := by
  induction place generalizing value buf with
  | zero =>
    rw [characters_eq hBase] at hRoom
    exact absurd hRoom (Nat.not_succ_le_zero _)
  | succ place ih =>
    rw [convertLoop]
    rw [characters_eq hBase] at hRoom ⊢
    split_ifs at hRoom ⊢ with hMore
    · obtain ⟨buf', hRun, hFrame, hDigits⟩ := ih _ (Nat.le_of_succ_le_succ hRoom)
      refine ⟨buf', ?_, fun i hi => ?_, fun i hi => ?_⟩
      · rw [hRun, List.length_cons, Nat.add_sub_add_right]
      · rw [hFrame i (Nat.le_of_succ_le hi), Function.update_of_ne (by omega)]
      · cases i with
        | zero =>
          rw [List.getElem?_cons_zero, Nat.add_sub_cancel, Nat.sub_zero,
            hFrame place (Nat.le_refl place), Function.update_self]
        | succ i =>
          rw [List.getElem?_cons_succ, hDigits i (Nat.lt_of_succ_lt_succ hi)]
          congr 2
          omega
    · refine ⟨_, rfl, fun i hi => Function.update_of_ne (by omega) _ _, fun i hi => ?_⟩
      obtain rfl : i = 0 := by simpa using hi
      rw [List.getElem?_cons_zero, Nat.add_sub_cancel, Nat.sub_zero, Function.update_self]

end Loop

/-! ## The text -/

/-- `_convert_to_base` returns a pointer to `text`, which ends inside the buffer. -/
def Returns (value : Int32) (base : UInt32) (text : List UInt8) : Prop :=
  ∃ buf start, convertToBase value base = some (buf, start) ∧ start + text.length < maxStrSize ∧
    TextOf (fun i => buf (start + i)) text

/-- The number that a text stands for. -/
def evaluate (base : Nat) (text : List UInt8) : Nat :=
  Nat.ofDigits base (text.reverse.map representation.idxOf)

/-- The text is a number's, in the positional system. -/
structure Encodes (base n : Nat) (text : List UInt8) : Prop where
  nonempty : text ≠ []
  digits : ∀ c ∈ text, ∃ d < base, representation[d]? = some c
  /-- 48 is the character of the digit zero -/
  leading : text.head? = some 48 → n = 0
  value : evaluate base text = n

theorem representation_spec : ∀ d < 16, representation[d]? = some (representation.getD d 0) ∧
    representation.getD d 0 ≠ 0 ∧ representation.idxOf (representation.getD d 0) = d := by
  decide

section Text

variable {base : UInt32} {value value' : Int32} {text text' : List UInt8}

theorem Returns.unique (h : Returns value base text) (h' : Returns value base text') :
    text = text' := by
  obtain ⟨buf, start, hRun, -, hText⟩ := h
  obtain ⟨_, _, hRun', -, hText'⟩ := h'
  cases hRun.symm.trans hRun'
  exact hText.unique hText'

theorem exists_digit (hBase : 2 ≤ base.toNat) {c : UInt8} (hc : c ∈ characters base value) :
    ∃ d < base.toNat, c = representation.getD d 0 := by
  obtain ⟨d, hd, rfl⟩ := List.mem_map.mp hc
  exact ⟨d, digitsOf_lt hBase hd, rfl⟩

theorem returns_characters (hBase : 2 ≤ base.toNat) (hBase' : base.toNat ≤ 16) :
    Returns value base (characters base value).reverse := by
  have hLength : (characters base value).length ≤ 32 := by
    rw [characters, List.length_map]
    exact length_digitsOf hBase (unsigned_lt value)
  have hRoom : (characters base value).length ≤ maxStrSize - 1 := hLength.trans (by decide)
  obtain ⟨buf, hRun, hFrame, hDigits⟩ := convertLoop_eq hBase (fun _ => 0) hRoom
  refine ⟨buf, _, hRun, ?_, fun c hc => ?_, fun i hi => ?_, ?_⟩
  · rw [List.length_reverse, Nat.sub_add_cancel hRoom]
    decide
  · obtain ⟨d, hd, rfl⟩ := exists_digit hBase (List.mem_reverse.mp hc)
    exact (representation_spec d (hd.trans_le hBase')).2.1
  · rw [List.length_reverse] at hi
    rw [List.getElem?_reverse hi, hDigits _ (by omega)]
    congr 2
    omega
  · rw [List.length_reverse, Nat.sub_add_cancel hRoom]
    exact hFrame _ (Nat.le_refl _)

theorem encodes_characters (value : Int32) (hBase : 2 ≤ base.toNat) (hBase' : base.toNat ≤ 16) :
    Encodes base.toNat (unsigned value) (characters base value).reverse where
  nonempty := by
    rw [characters, ne_eq, List.reverse_eq_nil_iff, List.map_eq_nil_iff]
    exact digitsOf_ne_nil
  digits c hc := by
    obtain ⟨d, hd, rfl⟩ := exists_digit hBase (List.mem_reverse.mp hc)
    exact ⟨d, hd, (representation_spec d (hd.trans_le hBase')).1⟩
  leading h := by
    rw [List.head?_reverse, characters, List.getLast?_map, Option.map_eq_some_iff] at h
    obtain ⟨d, hLast, hZero⟩ := h
    have hd : d < 16 := (digitsOf_lt hBase (List.mem_of_getLast? hLast)).trans_le hBase'
    have hIndex := (representation_spec d hd).2.2
    rw [hZero] at hIndex
    exact getLast?_digitsOf (hIndex ▸ hLast)
  value := by
    have hBack : ((digitsOf base.toNat (unsigned value)).map (representation.getD · 0)).map
        representation.idxOf = digitsOf base.toNat (unsigned value) := by
      rw [List.map_map]
      refine (List.map_congr_left fun d hd => ?_).trans (List.map_id _)
      exact (representation_spec d ((digitsOf_lt hBase hd).trans_le hBase')).2.2
    rw [evaluate, List.reverse_reverse, characters, hBack, ofDigits_digitsOf]

end Text

/-- Every value is printed in every base as the positional notation of the unsigned number, in its
buffer, and no two values are printed alike. -/
theorem convertToBase_faithful (value : Int32) {base : UInt32} (hBase : 2 ≤ base.toNat)
    (hBase' : base.toNat ≤ 16) : ∃ text, Returns value base text ∧
      Encodes base.toNat (unsigned value) text ∧
      ∀ value', Returns value' base text → value' = value := by
  have hReturns : ∀ v, Returns v base (characters base v).reverse := fun v =>
    returns_characters hBase hBase'
  have hEncodes := encodes_characters value hBase hBase'
  refine ⟨_, hReturns value, hEncodes, fun value' hSame => unsigned_inj ?_⟩
  rw [← hEncodes.value, hSame.unique (hReturns value'),
    (encodes_characters value' hBase hBase').value]

/-- The largest number, from the value -1. -/
theorem convertToBase_negative : ∃ text, Returns (-1) 16 text ∧ Encodes 16 (unsigned (-1)) text ∧
    ∀ value', Returns value' 16 text → value' = -1 :=
  convertToBase_faithful (-1) (by decide) (by decide)

end Juos.Stdio
