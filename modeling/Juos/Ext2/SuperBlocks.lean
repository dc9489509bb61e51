import Juos.Ext2.Files

/-!
# Looking for a superblock

`_get_super_block` is asked for the superblock of a block, but it reads and writes block 1, and with
`CreateIfNotFound` it creates without a look at what it has read. So an existing superblock is never
kept, and a new one is where it was asked for only when that is block 1
(`respectsSuperBlock_iff`).

The block asked for may be any number. Its first sector, in which the superblock lies, is the one
that `BLOCK_TO_SECTOR` computes with 32 bits.
-/

namespace Juos.Ext2

open Machine

variable {s t : Volume} {descriptor : FsDescriptor} {superBlock : SuperBlock} {sbBlockIdx : Nat}

/-! ## A superblock on disk -/

/-- A superblock whose fields fit reads back what was written. -/
theorem SuperBlock.ofBytes_of_eq {b : Buffer} (sb : SuperBlock)
    (hFits : ∀ field ∈ sb.fields, field.2 < 256 ^ field.1)
    (h : ∀ i < sizeofSuperBlock, b i = sb.bytes i) : SuperBlock.ofBytes b = sb := by
  have hWord : ∀ a n, a + n ≤ sizeofSuperBlock → word b a n = word sb.bytes a n := by
    intro a n hLe
    apply word_congr
    intro i hi
    exact h (a + i) (Nat.lt_of_lt_of_le (Nat.add_lt_add_left hi a) hLe)
  unfold sizeofSuperBlock at hWord
  have hFields : SuperBlock.ofBytes b = SuperBlock.ofBytes sb.bytes := by
    simp [SuperBlock.ofBytes, hWord]
  rw [hFields]
  simp only [SuperBlock.fields, List.forall_mem_cons, Nat.reducePow] at hFits
  simp [SuperBlock.ofBytes, SuperBlock.bytes, SuperBlock.fields, word_layOut_zero,
    word_layOut_of_le, Nat.mod_eq_of_lt, hFits]

theorem SuperBlock.create_fits (hIdx : sbBlockIdx < 4294967296) (descriptor : FsDescriptor) :
    ∀ field ∈ (SuperBlock.create sbBlockIdx descriptor).fields, field.2 < 256 ^ field.1 := by
  have hSize := descriptor.blockSize_lt
  simp [SuperBlock.fields, SuperBlock.create, Ext2.ext2Sign, hIdx, hSize]

/-- What the block `b` holds as a superblock. -/
def superBlockAt (s : Volume) (b : Nat) : SuperBlock :=
  .ofBytes (advance s.device.bytes (blockToSector b s.info.blockSize * sectorSizeBytes))

theorem blockToSector_one (h : Sized s) :
    blockToSector superBlockBlock s.info.blockSize = s.sectorsPerBlock := by
  rw [blockToSector, ← h.sectors, Nat.one_mul]
  exact Nat.mod_eq_of_lt h.sectors_lt

/-- The blocks of the device are told apart by their first sectors. -/
theorem blockToSector_eq_iff (h : Sized s) (hRange : InRange s sbBlockIdx 1) :
    blockToSector sbBlockIdx s.info.blockSize = blockToSector superBlockBlock s.info.blockSize ↔
      sbBlockIdx = superBlockBlock := by
  have hFirst := sector_eq h hRange 0 (by rw [Nat.one_mul]; exact h.sectors_pos)
  rw [blockToSector_one h]
  constructor
  · intro hEq
    rw [hEq, Nat.add_zero, Nat.add_zero, Nat.mod_eq_of_lt h.sectors_lt] at hFirst
    exact (Nat.eq_of_mul_eq_mul_right h.sectors_pos ((Nat.one_mul _).trans hFirst)).symm
  · rintro rfl
    exact blockToSector_one h

/-! ## Mounting -/

/-- A superblock that is there is returned and nothing is written, otherwise one is created in that
block; either way it is found there afterwards. -/
def RespectsSuperBlock (s : Volume) (sbBlockIdx : Nat) (descriptor : FsDescriptor) : Prop :=
  ∃ superBlock t,
    getSuperBlock sbBlockIdx .createIfNotFound (some descriptor) s = some (superBlock, t) ∧
    ((superBlockAt s sbBlockIdx).ext2Sign ≠ 0 →
      superBlock = superBlockAt s sbBlockIdx ∧ WritesNothing s t) ∧
    ((superBlockAt s sbBlockIdx).ext2Sign = 0 →
      superBlock = .create sbBlockIdx descriptor ∧ superBlockAt t sbBlockIdx = superBlock) ∧
    ∃ u, getSuperBlock sbBlockIdx .noCreate none t = some (superBlock, u)

/-- `CreateIfNotFound` creates a superblock in block 1, whatever it was asked for. -/
theorem getSuperBlock_creates (h : Sized s)
    (hGet : getSuperBlock sbBlockIdx .createIfNotFound (some descriptor) s = some (superBlock, t)) :
    superBlock = .create sbBlockIdx descriptor ∧ Touched s t ∧ ¬WritesNothing s t ∧
      t.device.bytes = putBlock s.info.blockSize s.device.bytes superBlockBlock
        (padded superBlock.bytes sizeofSuperBlock) := by
  obtain ⟨v, hGet', hTouched, hBytes⟩ := getSuperBlock_spec h sbBlockIdx descriptor
  obtain ⟨rfl, rfl⟩ := Prod.mk.inj (Option.some.inj (hGet.symm.trans hGet'))
  refine ⟨rfl, hTouched, fun hNothing => ?_, hBytes⟩
  obtain ⟨-, rfl⟩ := Prod.mk.inj (Option.some.inj hGet)
  have hRead := readObjectFromBlock_writesNothing s (fun _ => 0) superBlockBlock sizeofSuperBlock
  have hSized := h.touched (readObjectFromBlock_touched s (fun _ => 0) superBlockBlock
    sizeofSuperBlock)
  have hLength := length_writes_writeObjectToBlock hSized
    (SuperBlock.create sbBlockIdx descriptor).bytes superBlockBlock sizeofSuperBlock
  have hSame := congrArg List.length (hNothing.2.trans hRead.2.symm)
  have hPos := hSized.sectors_pos
  rw [hSame] at hLength
  omega

/-- A superblock that is there is never kept. -/
theorem not_respects_of_sign (h : Sized s) (hSign : (superBlockAt s sbBlockIdx).ext2Sign ≠ 0) :
    ¬RespectsSuperBlock s sbBlockIdx descriptor := by
  intro hRespects
  obtain ⟨superBlock, t, hGet, hKeeps, -⟩ := hRespects
  obtain ⟨-, -, hWrites, -⟩ := getSuperBlock_creates h hGet
  exact hWrites (hKeeps hSign).2

/-- What block 1 holds then. -/
theorem block_created (h : Sized s)
    (hGet : getSuperBlock sbBlockIdx .createIfNotFound (some descriptor) s = some (superBlock, t)) :
    ∀ i < sizeofSuperBlock,
      block s.info.blockSize t.device.bytes superBlockBlock i = superBlock.bytes i := by
  intro i hi
  obtain ⟨-, -, -, hBytes⟩ := getSuperBlock_creates h hGet
  have hLt : i < sectorSizeBytes := Nat.lt_trans hi (by decide)
  rw [hBytes, block_putBlock_self (Nat.lt_of_lt_of_le hLt h.sector_le)]
  exact if_pos hi

/-- What a superblock created in block 1 leaves in the first sector of a block. -/
theorem superBlockAt_created (h : Sized s) (hIdx : sbBlockIdx < 4294967296)
    (hGet : getSuperBlock sbBlockIdx .createIfNotFound (some descriptor) s = some (superBlock, t))
    (b : Nat) :
    (blockToSector b s.info.blockSize = blockToSector superBlockBlock s.info.blockSize →
      superBlockAt t b = superBlock) ∧
    (blockToSector b s.info.blockSize ≠ blockToSector superBlockBlock s.info.blockSize →
      (superBlockAt s b).ext2Sign = 0 → (superBlockAt t b).ext2Sign = 0) := by
  obtain ⟨rfl, hTouched, -, hBytes⟩ := getSuperBlock_creates h hGet
  have hMul := h.mul
  unfold superBlockAt
  rw [blockToSector_one h, hTouched.info]
  refine ⟨fun hSame => ?_, fun hne hSign => ?_⟩
  · have hCreated := block_created h hGet
    rw [block, superBlockBlock, Nat.one_mul, ← hMul, ← hSame] at hCreated
    exact SuperBlock.ofBytes_of_eq _ (SuperBlock.create_fits hIdx descriptor) hCreated
  · generalize blockToSector b s.info.blockSize = sector at hne hSign ⊢
    unfold sectorSizeBytes at hMul hSign ⊢
    rw [hBytes, putBlock, superBlockBlock, Nat.one_mul]
    by_cases hInside : s.sectorsPerBlock < sector ∧ sector < 2 * s.sectorsPerBlock
    · -- behind the superblock its block is zero
      apply word_eq_zero
      intro i hi
      rw [advance, memcpy_of_mem (by omega) (by omega)]
      exact if_neg (by unfold sizeofSuperBlock; omega)
    · refine Eq.trans (word_congr fun i hi => ?_) hSign
      exact memcpy_of_not_mem (by omega)

/-- `NoCreate` finds what was created, since it reads block 1 as well. -/
theorem getSuperBlock_noCreate (h : Sized s) (hIdx : sbBlockIdx < 4294967296)
    (hGet : getSuperBlock sbBlockIdx .createIfNotFound (some descriptor) s = some (superBlock, t)) :
    ∃ u, getSuperBlock sbBlockIdx .noCreate none t = some (superBlock, u) := by
  obtain ⟨hCreate, hTouched, -⟩ := getSuperBlock_creates h hGet
  have hCreated := block_created h hGet
  have hSized := h.touched hTouched
  obtain ⟨-, hObj, -⟩ := readObjectFromBlock_spec hSized
    (inRange_superBlock hSized) (fun _ => 0) hSized.superBlock_le
  have hRead : SuperBlock.ofBytes
      (readObjectFromBlock (fun _ => 0) superBlockBlock sizeofSuperBlock t).1 = superBlock := by
    apply SuperBlock.ofBytes_of_eq
    · rw [hCreate]
      exact SuperBlock.create_fits hIdx descriptor
    · intro i hi
      rw [hObj, memcpy_zero_apply hi, hTouched.info]
      exact hCreated i hi
  have hSign : superBlock.ext2Sign ≠ 0 := by
    rw [hCreate]
    exact (by decide : Ext2.ext2Sign ≠ 0)
  refine ⟨(readObjectFromBlock (fun _ => 0) superBlockBlock sizeofSuperBlock t).2, ?_⟩
  simp only [getSuperBlock]
  rw [hRead, if_pos hSign]

/-- A superblock that is not there is created where it was asked for exactly when that is the first
sector of block 1. -/
theorem respects_iff_sector (h : Sized s) (hIdx : sbBlockIdx < 4294967296)
    (descriptor : FsDescriptor) :
    RespectsSuperBlock s sbBlockIdx descriptor ↔
      (superBlockAt s sbBlockIdx).ext2Sign = 0 ∧
        blockToSector sbBlockIdx s.info.blockSize =
          blockToSector superBlockBlock s.info.blockSize := by
  constructor
  · intro hRespects
    have hSign : (superBlockAt s sbBlockIdx).ext2Sign = 0 := by
      by_contra hThere
      exact not_respects_of_sign h hThere hRespects
    refine ⟨hSign, ?_⟩
    by_contra hne
    obtain ⟨superBlock, t, hGet, -, hCreates, -⟩ := hRespects
    obtain ⟨hCreate, hAt⟩ := hCreates hSign
    have hZero := (superBlockAt_created h hIdx hGet sbBlockIdx).2 hne hSign
    rw [hAt, hCreate] at hZero
    exact absurd hZero (by decide : Ext2.ext2Sign ≠ 0)
  · rintro ⟨hSign, hSame⟩
    obtain ⟨t, hGet, -⟩ := getSuperBlock_spec h sbBlockIdx descriptor
    refine ⟨_, t, hGet, fun hThere => absurd hSign hThere, fun _ => ⟨rfl, ?_⟩, ?_⟩
    · exact (superBlockAt_created h hIdx hGet sbBlockIdx).1 hSame
    · exact getSuperBlock_noCreate h hIdx hGet

/-- Mounting respects what the block asked for holds exactly when that is no superblock and the
block begins at the sector of block 1; a block of the device is then block 1 itself. -/
theorem respectsSuperBlock_iff (h : Sized s) (hIdx : sbBlockIdx < 4294967296)
    (descriptor : FsDescriptor) :
    (RespectsSuperBlock s sbBlockIdx descriptor ↔
      (superBlockAt s sbBlockIdx).ext2Sign = 0 ∧
        blockToSector sbBlockIdx s.info.blockSize =
          blockToSector superBlockBlock s.info.blockSize) ∧
    (InRange s sbBlockIdx 1 → (RespectsSuperBlock s sbBlockIdx descriptor ↔
      (superBlockAt s sbBlockIdx).ext2Sign = 0 ∧ sbBlockIdx = superBlockBlock)) := by
  have hSector := respects_iff_sector h hIdx descriptor
  refine ⟨hSector, fun hRange => ?_⟩
  rw [hSector, blockToSector_eq_iff h hRange]

/-- A device with blocks of one sector whose block 2 holds the superblock of a volume with blocks of
two sectors. -/
def otherSuperBlock : Volume :=
  { oneSectorBlocks with
    superBlockIdx := 2
    info := ⟨512, 2, FsDescriptor.sector_lt, by decide⟩
    device := ⟨memcpy (fun _ => 0) 1024 twoSectorBlocks.globalSuperBlock.bytes 84, []⟩ }

theorem sized_otherSuperBlock : Sized otherSuperBlock := ⟨by decide, by decide, by decide⟩

/-- Nothing is in block 1, so a superblock is created there. -/
theorem respectsSuperBlock_one : RespectsSuperBlock otherSuperBlock 1 oneSectorBlocks.info :=
  (respectsSuperBlock_iff sized_otherSuperBlock (by decide) _).1.mpr ⟨by decide, rfl⟩

/-- The superblock in block 2 is passed over: a new one is returned and written to block 1. -/
theorem not_respectsSuperBlock :
    ¬RespectsSuperBlock otherSuperBlock 2 otherSuperBlock.info ∧
      (superBlockAt otherSuperBlock 2).blockSize = 1024 ∧
      ∀ superBlock t,
        getSuperBlock 2 .createIfNotFound (some otherSuperBlock.info) otherSuperBlock =
          some (superBlock, t) → superBlock.blockSize = 512 := by
  refine ⟨not_respects_of_sign sized_otherSuperBlock (by decide), by decide, ?_⟩
  intro superBlock t hGet
  rw [(getSuperBlock_creates sized_otherSuperBlock hGet).1]
  rfl

end Juos.Ext2
