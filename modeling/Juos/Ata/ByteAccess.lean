import Juos.Kmm.Allocator
import Juos.Machine.Sectors

/-!
# Reading and writing bytes on the disk

The byte-level calls of `ata.cpp` go through a temporary buffer of whole sectors. Its size is
rounded up from the count alone, and `ReadSectors` and `WriteSectors` transfer one sector whatever
number they are asked for. So a range is read and written in full exactly when it lies in one
sector (`byteAccess_iff`); behind that sector the result depends on what was in the buffer, or on
the disk, before.

Left out are the waits for the controller and the status that the calls return, which says nothing
about the bytes.
-/

namespace Juos.Ata

open Machine

abbrev sectorSizeBytes : Nat := 512

/-! ## One sector -/

/-- The registers of the controller that select what a command transfers. -/
structure Registers where
  head : Nat
  sectorCount : Nat
  lbaLow : Nat
  lbaMid : Nat
  lbaHigh : Nat

/-- `SET_HEAD`, with the upper four bits of the address -/
def setHead (lba slavebit : Nat) (r : Registers) : Registers :=
  { r with head := (0xE0 ||| slavebit <<< 4 ||| (lba >>> 24 &&& 0x0F)) % 256 }

def setSectorCount (count : Nat) (r : Registers) : Registers :=
  { r with sectorCount := count % 256 }

def setLba (lba : Nat) (r : Registers) : Registers :=
  { r with lbaLow := lba % 256, lbaMid := (lba >>> 8) % 256, lbaHigh := (lba >>> 16) % 256 }

/-- The sector a command begins at: an address of 28 bits. -/
def Registers.lba (r : Registers) : Nat :=
  r.lbaLow + 256 * r.lbaMid + 65536 * r.lbaHigh + 16777216 * (r.head % 16)

/-- What both `ReadSectors` and `WriteSectors` set before their command. -/
def select (lba : Nat) : Registers :=
  setLba lba (setSectorCount 1 (setHead lba 0 ⟨0, 0, 0, 0, 0⟩))

theorem lba_select (lba : Nat) : (select lba).lba = lba % 268435456 := by
  have hMask : lba >>> 24 &&& 0x0F = lba / 16777216 % 16 := by
    rw [Nat.shiftRight_eq_div_pow]
    exact Nat.and_two_pow_sub_one_eq_mod _ 4
  -- the upper four bits are the drive's
  have hHead : (0xE0 ||| 0 <<< 4 ||| (lba >>> 24 &&& 0x0F)) % 16 = lba / 16777216 % 16 := by
    have hOr : (0xE0 ||| 0 <<< 4 ||| lba / 16777216 % 16) % 2 ^ 4 =
        (0xE0 ||| 0 <<< 4) % 2 ^ 4 ||| lba / 16777216 % 16 % 2 ^ 4 := Nat.or_mod_two_pow
    rw [hMask]
    refine hOr.trans ?_
    rw [show (0xE0 ||| 0 <<< 4) % 2 ^ 4 = 0 from rfl, Nat.zero_or]
    exact Nat.mod_mod _ 16
  have hTop : (select lba).head % 16 = lba / 16777216 % 16 := by
    show (0xE0 ||| 0 <<< 4 ||| (lba >>> 24 &&& 0x0F)) % 256 % 16 = _
    rw [Nat.mod_mod_of_dvd _ (by decide : 16 ∣ 256), hHead]
  have hMid : (select lba).lbaMid = lba / 256 % 256 := by
    show lba >>> 8 % 256 = _
    rw [Nat.shiftRight_eq_div_pow]
  have hHigh : (select lba).lbaHigh = lba / 65536 % 256 := by
    show lba >>> 16 % 256 = _
    rw [Nat.shiftRight_eq_div_pow]
  have hLow : (select lba).lbaLow = lba % 256 := rfl
  rw [Registers.lba, hTop, hMid, hHigh, hLow]
  omega

/-- What `rep_insw` and `rep_outsw` transfer: 256 words. -/
abbrev transferBytes : Nat := 2 * 256

def readSectors (buffer : Buffer) (lba _sectors : Nat) (d : Device) : Buffer × Device :=
  (memcpy buffer 0 (advance d.bytes ((select lba).lba * sectorSizeBytes)) transferBytes,
    { d with accesses := d.accesses ++ [.read (select lba).lba] })

def writeSectors (buffer : Buffer) (lba _sectors : Nat) (d : Device) : Device where
  bytes := memcpy d.bytes ((select lba).lba * sectorSizeBytes) buffer transferBytes
  accesses := d.accesses ++ [.write (select lba).lba]

/-! ## Bytes -/

/-- The number of sectors that is computed for `count` bytes -/
def sectorsFor (count : Nat) : Nat := Kmm.alignVal count sectorSizeBytes / sectorSizeBytes

def offsetIn (location : Nat) : Nat := if location = 0 then 0 else location % sectorSizeBytes

/-- The temporary buffer of a call: its size, and the ranges of it that were read or written, each
with its start and length. -/
structure Temporary where
  size : Nat
  ranges : List (Nat × Nat)

/-- Nothing past the buffer was read or written. -/
def Temporary.Inside (buffer : Temporary) : Prop :=
  ∀ range ∈ buffer.ranges, ∀ i, range.1 ≤ i → i < range.1 + range.2 → i < buffer.size

/-- The size of the temporary buffer, a `size_t` of 32 bits -/
def temporarySize (count : Nat) : Nat := sectorsFor count * sectorSizeBytes % 4294967296

/-- `Device::read_bytes`. The memory that the temporary buffer gets holds `fresh`. -/
def readBytes (fresh output : Buffer) (location count : Nat) (d : Device) :
    Buffer × Temporary × Device :=
  let r := readSectors fresh (location / sectorSizeBytes) (sectorsFor count) d
  (memcpy output 0 (advance r.1 (offsetIn location)) count,
    ⟨temporarySize count, [(0, transferBytes), (offsetIn location, count)]⟩, r.2)

/-- `Device::write_bytes` -/
def writeBytes (fresh input : Buffer) (location count : Nat) (d : Device) : Temporary × Device :=
  let r := readSectors fresh (location / sectorSizeBytes) (sectorsFor count) d
  let buffer := memcpy r.1 (offsetIn location) input count
  (⟨temporarySize count,
      [(0, transferBytes), (offsetIn location, count), (0, transferBytes)]⟩,
    writeSectors buffer (location / sectorSizeBytes) (sectorsFor count) r.2)

variable {fresh output input : Buffer} {location count i : Nat} {d : Device}
  {ranges : List (Nat × Nat)}

/-- The call returned the bytes of the range and left everything else alone. -/
def ReadRight (fresh output : Buffer) (location count : Nat) (d : Device) : Prop :=
  let r := readBytes fresh output location count d
  (∀ i < count, r.1 i = d.bytes (location + i)) ∧ (∀ i, count ≤ i → r.1 i = output i) ∧
    r.2.1.Inside ∧ r.2.2.bytes = d.bytes

/-- The call changed the bytes of the range and nothing else. -/
def WriteRight (fresh input : Buffer) (location count : Nat) (d : Device) : Prop :=
  let r := writeBytes fresh input location count d
  (∀ i < count, r.2.bytes (location + i) = input i) ∧
    (∀ a, a < location ∨ location + count ≤ a → r.2.bytes a = d.bytes a) ∧ r.1.Inside

/-- The range, moved to its place in the temporary buffer, has room in it. -/
def Fits (location count : Nat) : Prop :=
  0 < count ∧ location % sectorSizeBytes + count ≤ temporarySize count

/-! ## The temporary buffer -/

theorem offsetIn_eq (location : Nat) : offsetIn location = location % sectorSizeBytes := by
  unfold offsetIn
  split_ifs with hZero
  · rw [hZero]
    rfl
  · rfl

theorem lba_of_location (h : location < 4294967296) :
    (select (location / sectorSizeBytes)).lba = location / sectorSizeBytes := by
  rw [lba_select]
  unfold sectorSizeBytes
  omega

/-- The temporary buffer of a range that fits one sector is that sector. -/
theorem temporarySize_of_le (hPos : 0 < count) (hLe : count ≤ sectorSizeBytes) :
    temporarySize count = sectorSizeBytes := by
  have hMask : (18446744073709551616 - count) % 18446744073709551616 &&& (512 - 1) =
      (18446744073709551616 - count) % 18446744073709551616 % 512 :=
    Nat.and_two_pow_sub_one_eq_mod _ 9
  unfold sectorSizeBytes at hLe
  unfold temporarySize sectorsFor Kmm.alignVal sectorSizeBytes
  rw [hMask]
  omega

theorem inside_iff (hRanges : ∀ range, range ∈ ranges ↔
    range = (0, transferBytes) ∨ range = (location % sectorSizeBytes, count)) :
    Temporary.Inside ⟨temporarySize count, ranges⟩ ↔ Fits location count := by
  constructor
  · intro hInside
    have hSector : 0 < temporarySize count :=
      hInside (0, transferBytes) ((hRanges _).mpr (Or.inl rfl)) 0 (Nat.zero_le 0) (by decide)
    have hPos : 0 < count := by
      rcases Nat.eq_zero_or_pos count with rfl | hPos
      · exact absurd hSector (by decide : ¬0 < temporarySize 0)
      · exact hPos
    have hLast := hInside (location % sectorSizeBytes, count) ((hRanges _).mpr (Or.inr rfl))
      (location % sectorSizeBytes + (count - 1)) (Nat.le_add_right _ _)
      (Nat.add_lt_add_left (Nat.sub_lt hPos (by decide)) _)
    simp only at hLast
    exact ⟨hPos, by omega⟩
  · rintro ⟨hPos, hLe⟩ range hMem i hFrom hTo
    rcases (hRanges range).mp hMem with rfl | rfl
    · -- the size is a multiple of a sector's
      simp only at hTo ⊢
      unfold temporarySize sectorSizeBytes transferBytes at *
      omega
    · exact Nat.lt_of_lt_of_le hTo hLe

/-! ## One call -/

/-- What was read of a range: the bytes of its first sector, and behind it what was in the
buffer. -/
theorem readBytes_apply (hLocation : location < 4294967296) (hi : i < count) :
    (readBytes fresh output location count d).1 i =
      if location % sectorSizeBytes + i < sectorSizeBytes then d.bytes (location + i)
      else fresh (location % sectorSizeBytes + i) := by
  have hSplit := Nat.div_add_mod' location sectorSizeBytes
  simp only [readBytes, readSectors]
  rw [memcpy_zero_apply hi, offsetIn_eq, lba_of_location hLocation, advance]
  split_ifs with hSector
  · rw [memcpy_zero_apply hSector, advance, ← Nat.add_assoc, hSplit]
  · apply memcpy_of_not_mem
    unfold transferBytes
    unfold sectorSizeBytes at hSector ⊢
    omega

theorem readRight_iff (hLocation : location < 4294967296) :
    ReadRight fresh output location count d ↔
      Fits location count ∧
        ∀ i < count, sectorSizeBytes ≤ location % sectorSizeBytes + i →
          fresh (location % sectorSizeBytes + i) = d.bytes (location + i) := by
  have hInside : (readBytes fresh output location count d).2.1.Inside ↔ Fits location count := by
    apply inside_iff
    intro range
    rw [← offsetIn_eq]
    simp
  constructor
  · rintro ⟨hBytes, -, hTemporary, -⟩
    refine ⟨hInside.mp hTemporary, fun i hi hBehind => ?_⟩
    have hByte := hBytes i hi
    rw [readBytes_apply hLocation hi, if_neg (Nat.not_lt_of_le hBehind)] at hByte
    exact hByte
  · rintro ⟨hFits, hBehind⟩
    refine ⟨fun i hi => ?_, fun i hi => ?_, hInside.mpr hFits, rfl⟩
    · rw [readBytes_apply hLocation hi]
      split_ifs with hSector
      · rfl
      · exact hBehind i hi (Nat.le_of_not_lt hSector)
    · exact memcpy_of_not_mem (by omega)

/-- What a write leaves: in the sector of the location the bytes of the range are new, and all else
is as before. -/
theorem writeBytes_apply (hLocation : location < 4294967296) (a : Nat) :
    (writeBytes fresh input location count d).2.bytes a =
      if location ≤ a ∧ a < location + count ∧
          a < location / sectorSizeBytes * sectorSizeBytes + sectorSizeBytes then
        input (a - location)
      else d.bytes a := by
  have hSplit := Nat.div_add_mod' location sectorSizeBytes
  simp only [writeBytes, readSectors, writeSectors]
  rw [offsetIn_eq, lba_of_location hLocation]
  generalize location / sectorSizeBytes * sectorSizeBytes = start at hSplit ⊢
  unfold transferBytes sectorSizeBytes at *
  by_cases hSector : start ≤ a ∧ a < start + 512
  · rw [memcpy_of_mem hSector.1 hSector.2]
    split_ifs with hRange
    · rw [memcpy_of_mem (by omega) (by omega)]
      congr 1
      omega
    · rw [memcpy_of_not_mem (by omega), memcpy_zero_apply (by omega), advance]
      congr 1
      omega
  · rw [memcpy_of_not_mem (by omega), if_neg (by omega)]

theorem writeRight_iff (hLocation : location < 4294967296) :
    WriteRight fresh input location count d ↔
      Fits location count ∧
        ∀ i < count, sectorSizeBytes ≤ location % sectorSizeBytes + i →
          d.bytes (location + i) = input i := by
  have hSplit := Nat.div_add_mod' location sectorSizeBytes
  have hInside : (writeBytes fresh input location count d).1.Inside ↔ Fits location count := by
    apply inside_iff
    intro range
    rw [← offsetIn_eq]
    simp only [List.mem_cons, List.not_mem_nil, or_false]
    tauto
  constructor
  · rintro ⟨hBytes, -, hTemporary⟩
    refine ⟨hInside.mp hTemporary, fun i hi hBehind => ?_⟩
    have hByte := hBytes i hi
    rw [writeBytes_apply hLocation, if_neg (by omega)] at hByte
    exact hByte
  · rintro ⟨hFits, hBehind⟩
    refine ⟨fun i hi => ?_, fun a ha => ?_, hInside.mpr hFits⟩
    · rw [writeBytes_apply hLocation, Nat.add_sub_cancel_left]
      split_ifs with hSector
      · rfl
      · exact hBehind i hi (by omega)
    · rw [writeBytes_apply hLocation, if_neg (by omega)]

/-- A call that is right whatever the disk and the memory hold has its range in one sector. -/
theorem always_right_iff (hLocation : location < 4294967296) :
    (∀ fresh output input d, ReadRight fresh output location count d ∧
      WriteRight fresh input location count d) ↔
    0 < count ∧ location % sectorSizeBytes + count ≤ sectorSizeBytes := by
  constructor
  · intro hRight
    have hAll := (hRight (fun _ => 0) (fun _ => 0) (fun _ => 1) ⟨fun _ => 0, []⟩).2
    obtain ⟨hFits, hBehind⟩ := (writeRight_iff hLocation).mp hAll
    refine ⟨hFits.1, ?_⟩
    by_contra hLong
    have hMod := Nat.mod_lt location (by decide : 0 < sectorSizeBytes)
    have hByte := hBehind (sectorSizeBytes - location % sectorSizeBytes) (by omega) (by omega)
    exact absurd hByte (by decide : (0 : UInt8) ≠ 1)
  · rintro ⟨hPos, hLe⟩ fresh output input d
    have hFits : Fits location count := by
      refine ⟨hPos, ?_⟩
      rw [temporarySize_of_le hPos (by omega)]
      exact hLe
    refine ⟨(readRight_iff hLocation).mpr ⟨hFits, fun i hi hBehind => ?_⟩,
      (writeRight_iff hLocation).mpr ⟨hFits, fun i hi hBehind => ?_⟩⟩
    · omega
    · omega

/-- A read is right exactly when the range has room in the temporary buffer and the memory behind
the first sector of it holds the right bytes by chance; a write, when the disk holds them already.
For every content of both this is so exactly when the range is not empty and lies in one sector. -/
theorem byteAccess_iff (hLocation : location < 4294967296) :
    (∀ fresh output d, ReadRight fresh output location count d ↔
      Fits location count ∧
        ∀ i < count, sectorSizeBytes ≤ location % sectorSizeBytes + i →
          fresh (location % sectorSizeBytes + i) = d.bytes (location + i)) ∧
    (∀ fresh input d, WriteRight fresh input location count d ↔
      Fits location count ∧
        ∀ i < count, sectorSizeBytes ≤ location % sectorSizeBytes + i →
          d.bytes (location + i) = input i) ∧
    ((∀ fresh output input d, ReadRight fresh output location count d ∧
      WriteRight fresh input location count d) ↔
      0 < count ∧ location % sectorSizeBytes + count ≤ sectorSizeBytes) :=
  ⟨fun _ _ _ => readRight_iff hLocation, fun _ _ _ => writeRight_iff hLocation,
    always_right_iff hLocation⟩

/-- Four bytes in the middle of a sector. -/
theorem byteAccess_inside :
    ReadRight (fun _ => 7) (fun _ => 0) 700 4 ⟨fun _ => 1, []⟩ ∧
      WriteRight (fun _ => 7) (fun _ => 0) 700 4 ⟨fun _ => 1, []⟩ := by
  have hAlways := (byteAccess_iff (by decide : 700 < 4294967296)).2.2.mpr
    (⟨by decide, by decide⟩ : 0 < 4 ∧ 700 % sectorSizeBytes + 4 ≤ sectorSizeBytes)
  exact hAlways (fun _ => 7) (fun _ => 0) (fun _ => 0) ⟨fun _ => 1, []⟩

/-- Two sectors are not written in full, and four bytes across a boundary run over the temporary
buffer. -/
theorem not_byteAccess :
    ¬ReadRight (fun _ => 0) (fun _ => 0) 0 1024 ⟨fun _ => 1, []⟩ ∧
      ¬WriteRight (fun _ => 0) (fun _ => 1) 0 1024 ⟨fun _ => 0, []⟩ ∧
      ∀ fresh output d, ¬(readBytes fresh output 510 4 d).2.1.Inside := by
  refine ⟨fun hRead => ?_, fun hWrite => ?_, fun fresh output d hInside => ?_⟩
  · have hBehind := ((readRight_iff (by decide)).mp hRead).2 600 (by decide) (by decide)
    exact absurd hBehind (by decide)
  · have hBehind := ((writeRight_iff (by decide)).mp hWrite).2 600 (by decide) (by decide)
    exact absurd hBehind (by decide)
  · have hOver := hInside (510, 4) (.tail _ (.head _)) 513 (by decide) (by decide)
    exact absurd hOver (by decide : ¬513 < temporarySize 4)

end Juos.Ata
