import Juos.Ext2.Fs

/-!
# Reading and writing blocks

The two conversions of a block to sectors, `sectors_per_block` and `BLOCK_TO_SECTOR`, agree on a
mounted file system, so `_read_storage` and `_write_storage` are copies of whole blocks. An object
is written with zeros behind it, and read back through the same block (`blockIO`).

`Touched s t` is what every operation on blocks keeps: all of the volume but its device and the
block buffer.
-/

namespace Juos.Ext2

open Machine

variable {s t u : Volume} {buffer obj dst : Buffer} {b n objSize : Nat}

/-- The block size was accepted and the number of sectors of a block fits it. -/
structure Sized (s : Volume) : Prop where
  pos : 0 < s.info.blockSize
  aligned : s.info.blockSize % sectorSizeBytes = 0
  sectors : s.sectorsPerBlock = s.info.blockSize / sectorSizeBytes

/-- What the constructor establishes. -/
structure Mounted (s : Volume) : Prop extends Sized s where
  superBlockIdx : s.superBlockIdx = s.info.superBlockIdx
  blockSize : s.globalSuperBlock.blockSize = s.info.blockSize
  groupInodeSize : s.globalSuperBlock.groupInodeSize = s.info.blockSize

theorem Mounted.divisible (h : Mounted s) : Divisible s := by
  rw [Divisible, h.groupInodeSize, h.blockSize]
  exact ⟨Nat.ne_of_gt h.pos, Nat.ne_of_gt h.pos⟩

/-- The sectors of the `n` blocks from `b` have numbers of 32 bits. -/
structure InRange (s : Volume) (b n : Nat) : Prop where
  last : (b + n) * s.sectorsPerBlock ≤ 4294967296
  count : n * s.sectorsPerBlock < 4294967296

/-- The sectors of the `n` blocks from `b`, in order. -/
def sectorsOf (s : Volume) (b n : Nat) : List Nat :=
  (List.range n).flatMap fun k =>
    (List.range s.sectorsPerBlock).map fun i => (b + k) * s.sectorsPerBlock + i

/-- Only the device and the block buffer differ. -/
structure Touched (s t : Volume) : Prop where
  globalSuperBlock : t.globalSuperBlock = s.globalSuperBlock
  sectorsPerBlock : t.sectorsPerBlock = s.sectorsPerBlock
  superBlockIdx : t.superBlockIdx = s.superBlockIdx
  info : t.info = s.info
  cache : t.cache = s.cache

theorem Touched.trans (h : Touched s t) (h' : Touched t u) : Touched s u :=
  ⟨h'.globalSuperBlock.trans h.globalSuperBlock, h'.sectorsPerBlock.trans h.sectorsPerBlock,
    h'.superBlockIdx.trans h.superBlockIdx, h'.info.trans h.info, h'.cache.trans h.cache⟩

theorem Sized.touched (h : Sized s) (hSame : Touched s t) : Sized t := by
  refine ⟨?_, ?_, ?_⟩
  · rw [hSame.info]
    exact h.pos
  · rw [hSame.info]
    exact h.aligned
  · rw [hSame.info, hSame.sectorsPerBlock]
    exact h.sectors

theorem InRange.touched (h : InRange s b n) (hSame : Touched s t) : InRange t b n := by
  refine ⟨?_, ?_⟩
  · rw [hSame.sectorsPerBlock]
    exact h.last
  · rw [hSame.sectorsPerBlock]
    exact h.count

/-! ## Sectors -/

theorem Sized.mul (h : Sized s) : s.sectorsPerBlock * sectorSizeBytes = s.info.blockSize := by
  rw [h.sectors]
  exact Nat.div_mul_cancel (Nat.dvd_of_mod_eq_zero h.aligned)

theorem Sized.sectors_lt (h : Sized s) : s.sectorsPerBlock < 4294967296 := by
  have hLt := s.info.blockSize_lt
  have hMul := h.mul
  unfold sectorSizeBytes at hMul
  omega

theorem inRange_one (h : Sized s) (hLast : (b + 1) * s.sectorsPerBlock ≤ 4294967296) :
    InRange s b 1 := by
  refine ⟨hLast, ?_⟩
  rw [Nat.one_mul]
  exact h.sectors_lt

/-- The sectors of consecutive blocks are consecutive. -/
theorem sectorsOf_eq (s : Volume) (b n : Nat) :
    sectorsOf s b n =
      (List.range (n * s.sectorsPerBlock)).map fun i => b * s.sectorsPerBlock + i := by
  induction n with
  | zero => simp [sectorsOf]
  | succ n ih =>
    unfold sectorsOf at ih ⊢
    rw [List.range_succ, List.flatMap_append, ih, Nat.succ_mul, List.range_add, List.map_append]
    simp [Nat.add_mul, Nat.add_assoc]

theorem mem_sectorsOf {sector : Nat} : sector ∈ sectorsOf s b n ↔
    b * s.sectorsPerBlock ≤ sector ∧ sector < (b + n) * s.sectorsPerBlock := by
  rw [sectorsOf_eq, List.mem_map, Nat.add_mul]
  constructor
  · rintro ⟨i, hi, rfl⟩
    have := List.mem_range.mp hi
    omega
  · rintro ⟨hLe, hLt⟩
    exact ⟨sector - b * s.sectorsPerBlock, List.mem_range.mpr (by omega), by omega⟩

/-- The bytes of another sector lie outside of the blocks. -/
theorem offset_of_not_mem (h : Sized s) {sector i : Nat} (hOut : sector ∉ sectorsOf s b n)
    (hi : i < sectorSizeBytes) :
    sector * sectorSizeBytes + i < b * s.info.blockSize ∨
      b * s.info.blockSize + n * s.info.blockSize ≤ sector * sectorSizeBytes + i := by
  rw [mem_sectorsOf, Nat.add_mul] at hOut
  rw [← h.mul, ← Nat.mul_assoc, ← Nat.mul_assoc]
  exact offset_outside (by omega) hi

theorem sector_eq (h : Sized s) (hRange : InRange s b n) :
    ∀ i < n * s.sectorsPerBlock,
      (blockToSector b s.info.blockSize + i) % 4294967296 = b * s.sectorsPerBlock + i := by
  intro i hi
  have hLast := hRange.last
  rw [Nat.add_mul] at hLast
  rw [blockToSector, ← h.sectors, Nat.mod_add_mod]
  exact Nat.mod_eq_of_lt (by omega)

theorem count_eq (hRange : InRange s b n) :
    s.sectorsPerBlock * n % 4294967296 = n * s.sectorsPerBlock := by
  rw [Nat.mul_comm]
  exact Nat.mod_eq_of_lt hRange.count

/-! ## Storage -/

theorem readStorage_eq (h : Sized s) (hRange : InRange s b n) (buffer : Buffer) :
    readStorage buffer b n s =
      (memcpy buffer 0 (block s.info.blockSize s.device.bytes b) (n * s.info.blockSize),
        { s with device :=
          { s.device with
            accesses := s.device.accesses ++ (sectorsOf s b n).map Access.read } }) := by
  have hStart : b * s.sectorsPerBlock * sectorSizeBytes = b * s.info.blockSize := by
    rw [Nat.mul_assoc, h.mul]
  have hCount : n * s.sectorsPerBlock * sectorSizeBytes = n * s.info.blockSize := by
    rw [Nat.mul_assoc, h.mul]
  simp only [readStorage, count_eq hRange, readSectors_eq buffer s.device (sector_eq h hRange),
    hStart, hCount, sectorsOf_eq, List.map_map]
  rfl

theorem writeStorage_eq (h : Sized s) (hRange : InRange s b n) (buffer : Buffer) :
    writeStorage buffer b n s =
      { s with device :=
        { bytes := memcpy s.device.bytes (b * s.info.blockSize) buffer (n * s.info.blockSize)
          accesses := s.device.accesses ++ (sectorsOf s b n).map Access.write } } := by
  have hStart : b * s.sectorsPerBlock * sectorSizeBytes = b * s.info.blockSize := by
    rw [Nat.mul_assoc, h.mul]
  have hCount : n * s.sectorsPerBlock * sectorSizeBytes = n * s.info.blockSize := by
    rw [Nat.mul_assoc, h.mul]
  simp only [writeStorage, count_eq hRange, writeSectors_eq buffer s.device (sector_eq h hRange),
    hStart, hCount, sectorsOf_eq, List.map_map]
  rfl

/-! ## Objects -/

/-- The block that holds an object: its bytes, then zeros. -/
def padded (obj : Buffer) (objSize : Nat) : Buffer := fun i => if i < objSize then obj i else 0

theorem blockBuffer_touched (s : Volume) (prepared : Buffer) :
    Touched s { s with blockBuffer := prepared } := ⟨rfl, rfl, rfl, rfl, rfl⟩

theorem zeroBuffer_touched (s : Volume) : Touched s (zeroBuffer s) := blockBuffer_touched s _

theorem writeStorage_touched (s : Volume) (b n : Nat) (buffer : Buffer) :
    Touched s (writeStorage buffer b n s) := ⟨rfl, rfl, rfl, rfl, rfl⟩

theorem readStorage_touched (s : Volume) (b n : Nat) (buffer : Buffer) :
    Touched s (readStorage buffer b n s).2 := ⟨rfl, rfl, rfl, rfl, rfl⟩

theorem writeObjectToBlock_touched (s : Volume) (obj : Buffer) (b objSize : Nat) :
    Touched s (writeObjectToBlock obj b objSize s) :=
  (blockBuffer_touched s _).trans (writeStorage_touched _ b 1 _)

theorem readObjectFromBlock_touched (s : Volume) (obj : Buffer) (b objSize : Nat) :
    Touched s (readObjectFromBlock obj b objSize s).2 :=
  ((zeroBuffer_touched s).trans (readStorage_touched _ b 1 _)).trans (blockBuffer_touched _ _)

/-- A block that is prepared in a buffer and written. -/
theorem writeStorage_content (h : Sized s) (hRange : InRange s b 1) (hTouched : Touched s t)
    (hDevice : t.device = s.device) {content : Buffer}
    (hContent : ∀ i < s.info.blockSize, buffer i = content i) :
    Touched s (writeStorage buffer b 1 t) ∧
      (writeStorage buffer b 1 t).device =
        { bytes := putBlock s.info.blockSize s.device.bytes b content
          accesses := s.device.accesses ++ (sectorsOf s b 1).map Access.write } := by
  refine ⟨hTouched.trans (writeStorage_touched t b 1 buffer), ?_⟩
  have hCopy := memcpy_congr s.device.bytes (b * s.info.blockSize) hContent
  have hSectors : sectorsOf t b 1 = sectorsOf s b 1 := by
    rw [sectorsOf, hTouched.sectorsPerBlock]
    rfl
  rw [writeStorage_eq (h.touched hTouched) (hRange.touched hTouched), hSectors, hDevice,
    hTouched.info, Nat.one_mul, hCopy]
  rfl

/-- The buffer that is prepared for an object, whatever it held before. -/
theorem prepared_apply (b obj : Buffer) (objSize : Nat) {size i : Nat} (hi : i < size) :
    memcpy (memset b 0 0 size) 0 obj objSize i = padded obj objSize i := by
  unfold padded
  by_cases hObj : i < objSize
  · rw [memcpy_zero_apply hObj, if_pos hObj]
  · rw [memcpy_of_not_mem (by omega), memset_of_mem (Nat.zero_le i) (by omega), if_neg hObj]

theorem writeObjectToBlock_spec (h : Sized s) (hRange : InRange s b 1) (obj : Buffer)
    (objSize : Nat) :
    Touched s (writeObjectToBlock obj b objSize s) ∧
      (writeObjectToBlock obj b objSize s).device =
        { bytes := putBlock s.info.blockSize s.device.bytes b (padded obj objSize)
          accesses := s.device.accesses ++ (sectorsOf s b 1).map Access.write } := by
  have hContent : ∀ i < s.info.blockSize,
      memcpy (memset s.blockBuffer 0 0 s.info.blockSize) 0 obj objSize i =
        padded obj objSize i := fun i hi => prepared_apply s.blockBuffer obj objSize hi
  have hTouched := blockBuffer_touched s
    (memcpy (memset s.blockBuffer 0 0 s.info.blockSize) 0 obj objSize)
  exact writeStorage_content h hRange hTouched rfl hContent

theorem readObjectFromBlock_spec (h : Sized s) (hRange : InRange s b 1) (dst : Buffer)
    (hSize : objSize ≤ s.info.blockSize) :
    Touched s (readObjectFromBlock dst b objSize s).2 ∧
      (readObjectFromBlock dst b objSize s).1 =
        memcpy dst 0 (block s.info.blockSize s.device.bytes b) objSize ∧
      (readObjectFromBlock dst b objSize s).2.device =
        { bytes := s.device.bytes
          accesses := s.device.accesses ++ (sectorsOf s b 1).map Access.read } := by
  have hTouched := zeroBuffer_touched s
  have hRead := readStorage_eq (h.touched hTouched) (hRange.touched hTouched)
    (zeroBuffer s).blockBuffer
  have hStep : readObjectFromBlock dst b objSize s =
      (memcpy dst 0 (readStorage (zeroBuffer s).blockBuffer b 1 (zeroBuffer s)).1 objSize,
        { (readStorage (zeroBuffer s).blockBuffer b 1 (zeroBuffer s)).2 with
          blockBuffer := (readStorage (zeroBuffer s).blockBuffer b 1 (zeroBuffer s)).1 }) := rfl
  refine ⟨readObjectFromBlock_touched s dst b objSize, ?_⟩
  rw [hStep, hRead]
  refine ⟨?_, rfl⟩
  apply memcpy_congr _ _
  intro i hi
  exact memcpy_zero_apply (by rw [Nat.one_mul]; exact Nat.lt_of_lt_of_le hi hSize)

theorem zeroBlock_spec (h : Sized s) (hRange : InRange s b 1) :
    Touched s (zeroBlock b s) ∧
      (zeroBlock b s).device =
        { bytes := putBlock s.info.blockSize s.device.bytes b fun _ => 0
          accesses := s.device.accesses ++ (sectorsOf s b 1).map Access.write } := by
  have hContent : ∀ i < s.info.blockSize, (zeroBuffer s).blockBuffer i = (fun _ => 0 : Buffer) i :=
    fun i hi => memset_of_mem (Nat.zero_le i) (by omega)
  exact writeStorage_content h hRange (zeroBuffer_touched s) rfl hContent

/-- An object reads back as it was written, with zeros behind it, and no other sector changes. -/
theorem object_roundtrip (h : Sized s) (hRange : InRange s b 1) (obj dst : Buffer)
    (hSize : objSize ≤ s.info.blockSize) :
    (∀ i < objSize,
      (readObjectFromBlock dst b objSize (writeObjectToBlock obj b objSize s)).1 i = obj i) ∧
    (∀ i, objSize ≤ i → i < s.info.blockSize →
      (writeObjectToBlock obj b objSize s).device.bytes (b * s.info.blockSize + i) = 0) ∧
    ∀ sector ∉ sectorsOf s b 1, ∀ i < sectorSizeBytes,
      (writeObjectToBlock obj b objSize s).device.bytes (sector * sectorSizeBytes + i) =
        s.device.bytes (sector * sectorSizeBytes + i) := by
  obtain ⟨hTouched, hDevice⟩ := writeObjectToBlock_spec h hRange obj objSize
  refine ⟨fun i hi => ?_, fun i hLe hLt => ?_, fun sector hOut i hi => ?_⟩
  · have hLt : i < s.info.blockSize := Nat.lt_of_lt_of_le hi hSize
    obtain ⟨-, hRead, -⟩ := readObjectFromBlock_spec (h.touched hTouched)
      (hRange.touched hTouched) dst (hTouched.info ▸ hSize)
    rw [hRead, memcpy_zero_apply hi, hDevice, hTouched.info, block_putBlock_self hLt]
    exact if_pos hi
  · have hSelf : block s.info.blockSize
        (putBlock s.info.blockSize s.device.bytes b (padded obj objSize)) b i =
          padded obj objSize i := block_putBlock_self hLt
    rw [hDevice]
    exact hSelf.trans (if_neg (by omega))
  · have hAway := offset_of_not_mem h hOut hi
    rw [Nat.one_mul] at hAway
    rw [hDevice]
    exact putBlock_of_not_mem hAway

/-! ## Writing nothing -/

/-- No byte of the device changes and no sector is written. -/
def WritesNothing (s t : Volume) : Prop :=
  t.device.bytes = s.device.bytes ∧ t.device.writes = s.device.writes

theorem WritesNothing.trans (h : WritesNothing s t) (h' : WritesNothing t u) :
    WritesNothing s u := ⟨h'.1.trans h.1, h'.2.trans h.2⟩

theorem readStorage_writesNothing (s : Volume) (buffer : Buffer) (b n : Nat) :
    WritesNothing s (readStorage buffer b n s).2 := readSectors_device buffer s.device

theorem readObjectFromBlock_writesNothing (s : Volume) (obj : Buffer) (b objSize : Nat) :
    WritesNothing s (readObjectFromBlock obj b objSize s).2 :=
  readStorage_writesNothing (zeroBuffer s) _ b 1

/-- Whatever the number of the block, all of its sectors are written. -/
theorem length_writes_writeStorage (h : Sized s) (buffer : Buffer) (b : Nat) :
    (writeStorage buffer b 1 s).device.writes.length =
      s.device.writes.length + s.sectorsPerBlock := by
  have hCount : s.sectorsPerBlock * 1 % 4294967296 = s.sectorsPerBlock := by
    rw [Nat.mul_one]
    exact Nat.mod_eq_of_lt h.sectors_lt
  have hWrites : (writeStorage buffer b 1 s).device.writes = s.device.writes ++ _ :=
    writeSectors_writes buffer s.device
  rw [hWrites, List.length_append, List.length_map, List.length_range, hCount]

theorem length_writes_writeObjectToBlock (h : Sized s) (obj : Buffer) (b objSize : Nat) :
    (writeObjectToBlock obj b objSize s).device.writes.length =
      s.device.writes.length + s.sectorsPerBlock :=
  length_writes_writeStorage (h.touched (blockBuffer_touched s _)) _ b

/-! ## All of it -/

/-- `_read_storage` copies whole blocks into the buffer and accesses their sectors in order. -/
theorem readStorage_exact (h : Sized s) (hRange : InRange s b n) (buffer : Buffer) :
    (readStorage buffer b n s).2.device =
      { bytes := s.device.bytes
        accesses := s.device.accesses ++ (sectorsOf s b n).map Access.read } ∧
    ∀ i < n * s.info.blockSize,
      (readStorage buffer b n s).1 i = s.device.bytes (b * s.info.blockSize + i) := by
  rw [readStorage_eq h hRange]
  exact ⟨rfl, fun i hi => memcpy_zero_apply hi⟩

/-- `_write_storage` copies the buffer to whole blocks and to nothing else. -/
theorem writeStorage_exact (h : Sized s) (hRange : InRange s b n) (buffer : Buffer) :
    (writeStorage buffer b n s).device.accesses =
      s.device.accesses ++ (sectorsOf s b n).map Access.write ∧
    (∀ i < n * s.info.blockSize,
      (writeStorage buffer b n s).device.bytes (b * s.info.blockSize + i) = buffer i) ∧
    ∀ sector ∉ sectorsOf s b n, ∀ i < sectorSizeBytes,
      (writeStorage buffer b n s).device.bytes (sector * sectorSizeBytes + i) =
        s.device.bytes (sector * sectorSizeBytes + i) := by
  rw [writeStorage_eq h hRange]
  refine ⟨rfl, fun i hi => ?_, fun sector hOut i hi => ?_⟩
  · simp only
    rw [memcpy_of_mem (Nat.le_add_right _ _) (by omega), Nat.add_sub_cancel_left]
  · exact memcpy_of_not_mem (offset_of_not_mem h hOut hi)

/-- Block I/O of a mounted file system: objects make the round trip, and reads and writes access the
sectors of their blocks, in order, and no others. -/
theorem blockIO (h : Mounted s) :
    (∀ b objSize obj dst, (b + 1) * s.sectorsPerBlock ≤ 4294967296 → objSize ≤ s.info.blockSize →
      let t := writeObjectToBlock obj b objSize s
      (∀ i < objSize, (readObjectFromBlock dst b objSize t).1 i = obj i) ∧
      (∀ i, objSize ≤ i → i < s.info.blockSize →
        t.device.bytes (b * s.info.blockSize + i) = 0) ∧
      ∀ sector ∉ sectorsOf s b 1, ∀ i < sectorSizeBytes,
        t.device.bytes (sector * sectorSizeBytes + i) =
          s.device.bytes (sector * sectorSizeBytes + i)) ∧
    ∀ b n buffer, InRange s b n →
      ((readStorage buffer b n s).2.device =
        { bytes := s.device.bytes
          accesses := s.device.accesses ++ (sectorsOf s b n).map Access.read } ∧
      ∀ i < n * s.info.blockSize,
        (readStorage buffer b n s).1 i = s.device.bytes (b * s.info.blockSize + i)) ∧
      (writeStorage buffer b n s).device.accesses =
        s.device.accesses ++ (sectorsOf s b n).map Access.write ∧
      (∀ i < n * s.info.blockSize,
        (writeStorage buffer b n s).device.bytes (b * s.info.blockSize + i) = buffer i) ∧
      ∀ sector ∉ sectorsOf s b n, ∀ i < sectorSizeBytes,
        (writeStorage buffer b n s).device.bytes (sector * sectorSizeBytes + i) =
          s.device.bytes (sector * sectorSizeBytes + i) := by
  refine ⟨fun b objSize obj dst hLast hSize => ?_, fun b n buffer hRange => ⟨?_, ?_⟩⟩
  · exact object_roundtrip h.toSized (inRange_one h.toSized hLast) obj dst hSize
  · exact readStorage_exact h.toSized hRange buffer
  · exact writeStorage_exact h.toSized hRange buffer

/-- A volume with blocks of two sectors, on a device of ones. -/
def twoSectorBlocks : Volume where
  globalSuperBlock := .create 1 ⟨1024, 1, FsDescriptor.twoSectors_lt, FsDescriptor.one_lt⟩
  blockBuffer := fun _ => 0xFF
  sectorsPerBlock := 2
  superBlockIdx := 1
  info := ⟨1024, 1, FsDescriptor.twoSectors_lt, FsDescriptor.one_lt⟩
  cache := fun _ => 0
  device := ⟨fun _ => 0xFF, []⟩

theorem mounted_twoSectorBlocks : Mounted twoSectorBlocks :=
  ⟨⟨by decide, by decide, by decide⟩, by decide, by decide, by decide⟩

theorem blockIO_twoSectorBlocks :
    (∀ i < 84, (readObjectFromBlock (fun _ => 0) 3 84
      (writeObjectToBlock twoSectorBlocks.globalSuperBlock.bytes 3 84 twoSectorBlocks)).1 i =
        twoSectorBlocks.globalSuperBlock.bytes i) ∧
      (writeStorage (fun _ => 7) 5 2 twoSectorBlocks).device.accesses =
        [.write 10, .write 11, .write 12, .write 13] := by
  obtain ⟨hObject, hStorage⟩ := blockIO mounted_twoSectorBlocks
  have hRange : InRange twoSectorBlocks 5 2 := ⟨by decide, by decide⟩
  exact ⟨(hObject 3 84 _ (fun _ => 0) (by decide) (by decide)).1, (hStorage 5 2 _ hRange).2.1⟩

end Juos.Ext2
