import Juos.Ext2.BlockIO

/-!
# Where inodes and block groups lie

The block of an inode is found by dividing by the block size, its offset in the block by a fixed
modulus of four, the number of inodes in one sector. Both agree for blocks of one sector only: with
larger blocks the inodes 1 and 5 have one slot (`inodeSlots_apart_iff`).

A second block group exists only when there are fewer inodes in a group than files, which is again
the case for blocks of one sector only. It begins at the block behind the first group's descriptor,
so the two groups overlap (`groupsApart_iff`).
-/

namespace Juos.Ext2

open Machine

variable {s : Volume} {a b table : Nat}

/-! ## Inode slots -/

/-- Where `_write_block_group` puts the inode `idx` of the group whose inode table begins at the
block `table`. -/
def inodeSlot (s : Volume) (table idx : Nat) : Nat :=
  (table + inodeIdxContainingBlock s idx) * s.info.blockSize + sizeofInode * (idx % 4)

/-- Two ranges of the size of an inode share no byte. -/
def Apart (p q : Nat) : Prop := p + sizeofInode ≤ q ∨ q + sizeofInode ≤ p

/-- A range of the size of an inode lies inside one block. -/
def InOneBlock (s : Volume) (p : Nat) : Prop :=
  p / s.info.blockSize = (p + sizeofInode - 1) / s.info.blockSize

/-- An index that `_get_available_inode_idx` can hand out. -/
def FileIdx (idx : Nat) : Prop := 1 ≤ idx ∧ idx ≤ maxFiles

instance (idx : Nat) : Decidable (FileIdx idx) := inferInstanceAs (Decidable (_ ∧ _))

theorem Sized.sector_le (h : Sized s) : sectorSizeBytes ≤ s.info.blockSize :=
  Nat.le_of_dvd h.pos (Nat.dvd_of_mod_eq_zero h.aligned)

theorem Sized.superBlock_le (h : Sized s) : sizeofSuperBlock ≤ s.info.blockSize :=
  Nat.le_trans (by decide) h.sector_le

theorem Sized.sectors_pos (h : Sized s) : 0 < s.sectorsPerBlock := by
  rw [h.sectors]
  exact Nat.div_pos h.sector_le (by decide)

theorem Sized.inodes_mul (h : Sized s) :
    s.info.blockSize = s.info.blockSize / sizeofInode * sizeofInode := by
  have hAligned := h.aligned
  unfold sectorSizeBytes at hAligned
  unfold sizeofInode
  omega

theorem containingBlock_eq (h : Mounted s) (hIdx : a ≤ maxFiles) :
    inodeIdxContainingBlock s a = a * sizeofInode / s.info.blockSize := by
  have hLt : a * sizeofInode < 4294967296 := by
    unfold maxFiles at hIdx
    unfold sizeofInode
    omega
  rw [inodeIdxContainingBlock, h.blockSize, Nat.mod_eq_of_lt hLt]

/-- The block of an inode, counted in inodes. -/
theorem containingBlock_eq_div (h : Mounted s) (hIdx : a ≤ maxFiles) :
    inodeIdxContainingBlock s a = a / (s.info.blockSize / sizeofInode) := by
  rw [containingBlock_eq h hIdx]
  conv_lhs => rw [h.inodes_mul]
  exact Nat.mul_div_mul_right _ _ (by decide)

/-- The inode table of `maxFiles` files. -/
theorem containingBlock_le (h : Mounted s) (hIdx : a ≤ maxFiles) :
    inodeIdxContainingBlock s a ≤ 256 := by
  have hSector := h.sector_le
  unfold sectorSizeBytes at hSector
  rw [containingBlock_eq_div h hIdx]
  have hFour : 4 ≤ s.info.blockSize / sizeofInode := by
    unfold sizeofInode
    omega
  unfold maxFiles at hIdx
  exact Nat.div_le_of_le_mul (by omega)

/-- The slot ends inside its block. -/
theorem slot_end_le (h : Sized s) (idx : Nat) :
    sizeofInode * (idx % 4) + sizeofInode ≤ s.info.blockSize := by
  have hSector := h.sector_le
  unfold sectorSizeBytes at hSector
  unfold sizeofInode
  omega

/-- Writing an inode changes the block of its slot only. -/
theorem block_slot_of_ne (h : Sized s) {bytes inode : Buffer} {idx c k : Nat}
    (hne : c ≠ table + inodeIdxContainingBlock s idx) (hk : k < s.info.blockSize) :
    block s.info.blockSize (memcpy bytes (inodeSlot s table idx) inode sizeofInode) c k =
      block s.info.blockSize bytes c k := by
  have hEnd := slot_end_le h idx
  have hAway := offset_of_ne hne hk
  unfold block advance inodeSlot
  exact memcpy_of_not_mem (by omega)

theorem inodeSlot_inOneBlock (h : Sized s) (table idx : Nat) :
    InOneBlock s (inodeSlot s table idx) := by
  have hEnd := slot_end_le h idx
  have hFirst : sizeofInode * (idx % 4) < s.info.blockSize := by
    unfold sizeofInode at hEnd ⊢
    omega
  have hLast : sizeofInode * (idx % 4) + (sizeofInode - 1) < s.info.blockSize := by
    unfold sizeofInode at hEnd ⊢
    omega
  have hBlock : ∀ off < s.info.blockSize,
      ((table + inodeIdxContainingBlock s idx) * s.info.blockSize + off) / s.info.blockSize =
        table + inodeIdxContainingBlock s idx := by
    intro off hOff
    rw [Nat.mul_comm, Nat.mul_add_div h.pos, Nat.div_eq_of_lt hOff, Nat.add_zero]
  unfold InOneBlock inodeSlot
  rw [Nat.add_sub_assoc (by decide : 1 ≤ sizeofInode), Nat.add_assoc, hBlock _ hFirst,
    hBlock _ hLast]

/-- Slots in different blocks are apart. -/
theorem apart_of_block_lt (h : Sized s) (table : Nat)
    (hLt : inodeIdxContainingBlock s a < inodeIdxContainingBlock s b) :
    inodeSlot s table a + sizeofInode ≤ inodeSlot s table b := by
  have hEnd := slot_end_le h a
  have hBlocks : (table + inodeIdxContainingBlock s a) * s.info.blockSize + s.info.blockSize ≤
      (table + inodeIdxContainingBlock s b) * s.info.blockSize := by
    rw [← Nat.succ_mul]
    exact Nat.mul_le_mul_right _ (by omega)
  unfold inodeSlot
  omega

/-- Two slots share no byte unless they have one block and one offset. -/
theorem apart_iff (h : Sized s) (table : Nat) :
    Apart (inodeSlot s table a) (inodeSlot s table b) ↔
      ¬(a % 4 = b % 4 ∧ inodeIdxContainingBlock s a = inodeIdxContainingBlock s b) := by
  rcases Nat.lt_trichotomy (inodeIdxContainingBlock s a) (inodeIdxContainingBlock s b) with
    hLt | hSame | hGt
  · have hApart := apart_of_block_lt h table hLt
    exact ⟨fun _ hBoth => absurd hBoth.2 (Nat.ne_of_lt hLt), fun _ => Or.inl hApart⟩
  · unfold Apart inodeSlot sizeofInode
    rw [hSame]
    omega
  · have hApart := apart_of_block_lt h table hGt
    exact ⟨fun _ hBoth => absurd hBoth.2 (Nat.ne_of_gt hGt), fun _ => Or.inr hApart⟩

/-- No two inodes of a group share a byte, and none lies across a block boundary. -/
def SlotsApart (s : Volume) : Prop :=
  ∀ table a b, FileIdx a → FileIdx b → a ≠ b →
    inodeIdxToBlockGroup s a = inodeIdxToBlockGroup s b →
    Apart (inodeSlot s table a) (inodeSlot s table b) ∧
      InOneBlock s (inodeSlot s table a) ∧ InOneBlock s (inodeSlot s table b)

/-- The inodes 1 and 5 of the first group. -/
theorem sameGroup_one_five (h : Mounted s) :
    inodeIdxToBlockGroup s 1 = inodeIdxToBlockGroup s 5 := by
  have hSector := h.sector_le
  unfold sectorSizeBytes at hSector
  have hFour : 4 / s.info.blockSize = 0 := Nat.div_eq_of_lt (by omega)
  simp [inodeIdxToBlockGroup, h.groupInodeSize, hFour]

theorem not_slotsApart_of_gt (h : Mounted s) (hGt : sectorSizeBytes < s.info.blockSize) :
    ¬SlotsApart s := by
  intro hSlots
  have hAligned := h.aligned
  unfold sectorSizeBytes at hGt hAligned
  have hEight : 8 ≤ s.info.blockSize / sizeofInode := by
    unfold sizeofInode
    omega
  have hFirst : inodeIdxContainingBlock s 1 = 0 := by
    rw [containingBlock_eq_div h (by decide)]
    exact Nat.div_eq_of_lt (by omega)
  have hFifth : inodeIdxContainingBlock s 5 = 0 := by
    rw [containingBlock_eq_div h (by decide)]
    exact Nat.div_eq_of_lt (by omega)
  have hApart := (hSlots 0 1 5 (by decide) (by decide) (by decide) (sameGroup_one_five h)).1
  exact (apart_iff h.toSized 0).mp hApart ⟨by decide, hFirst.trans hFifth.symm⟩

/-- Two inodes of a group share no byte, and lie inside their blocks, exactly when they differ in
the offset or in the block; this is so for all of them exactly when a block is one sector. -/
theorem inodeSlots_apart_iff (h : Mounted s) :
    (∀ table a b, FileIdx a → FileIdx b → a ≠ b →
      inodeIdxToBlockGroup s a = inodeIdxToBlockGroup s b →
      ((Apart (inodeSlot s table a) (inodeSlot s table b) ∧
        InOneBlock s (inodeSlot s table a) ∧ InOneBlock s (inodeSlot s table b)) ↔
        ¬(a % 4 = b % 4 ∧
          a / (s.info.blockSize / sizeofInode) = b / (s.info.blockSize / sizeofInode)))) ∧
    (SlotsApart s ↔ s.info.blockSize = sectorSizeBytes) := by
  have hPair : ∀ table a b, FileIdx a → FileIdx b →
      ((Apart (inodeSlot s table a) (inodeSlot s table b) ∧
        InOneBlock s (inodeSlot s table a) ∧ InOneBlock s (inodeSlot s table b)) ↔
        ¬(a % 4 = b % 4 ∧
          a / (s.info.blockSize / sizeofInode) = b / (s.info.blockSize / sizeofInode))) := by
    intro table a b ha hb
    rw [apart_iff h.toSized, containingBlock_eq_div h ha.2, containingBlock_eq_div h hb.2]
    exact and_iff_left
      ⟨inodeSlot_inOneBlock h.toSized table a, inodeSlot_inOneBlock h.toSized table b⟩
  refine ⟨fun table a b ha hb _ _ => hPair table a b ha hb, fun hSlots => ?_, fun hOne => ?_⟩
  · by_contra hne
    exact not_slotsApart_of_gt h (Nat.lt_of_le_of_ne h.sector_le (Ne.symm hne)) hSlots
  · intro table a b ha hb hne _
    refine (hPair table a b ha hb).mpr fun hBoth => hne ?_
    have hFour : s.info.blockSize / sizeofInode = 4 := by
      rw [hOne]
      rfl
    rw [hFour] at hBoth
    omega

/-- A volume with blocks of one sector. -/
def oneSectorBlocks : Volume where
  globalSuperBlock := .create 1 ⟨512, 1, FsDescriptor.sector_lt, FsDescriptor.one_lt⟩
  blockBuffer := fun _ => 0xFF
  sectorsPerBlock := 1
  superBlockIdx := 1
  info := ⟨512, 1, FsDescriptor.sector_lt, FsDescriptor.one_lt⟩
  cache := fun _ => 0
  device := ⟨fun _ => 0xFF, []⟩

theorem mounted_oneSectorBlocks : Mounted oneSectorBlocks :=
  ⟨⟨by decide, by decide, by decide⟩, by decide, by decide, by decide⟩

theorem slotsApart_oneSectorBlocks : SlotsApart oneSectorBlocks :=
  (inodeSlots_apart_iff mounted_oneSectorBlocks).2.mpr (by decide)

/-- With blocks of two sectors the inodes 1 and 5 have one slot. -/
theorem inodeSlots_clash :
    ¬SlotsApart twoSectorBlocks ∧ inodeSlot twoSectorBlocks 5 1 = inodeSlot twoSectorBlocks 5 5 :=
  ⟨not_slotsApart_of_gt mounted_twoSectorBlocks (by decide), by decide⟩

/-! ## Block groups -/

/-- The block that holds the superblock. -/
abbrev superBlockBlock : Nat := 1

/-- The blocks of the group at `n` with descriptor `d`: the descriptor itself, the two bitmaps and
the inode table. -/
def groupBlocks (s : Volume) (d : BlockGroupDescriptor) (n : Nat) : List Nat :=
  [n, d.blockBitmapBlock.toNat, d.inodeBitmapBlock.toNat] ++
    (List.range (s.globalSuperBlock.groupInodeSize * sizeofInode / s.info.blockSize)).map
      fun i => d.inodeTableStartBlock.toNat + i

/-- The groups of two files that are not in one group share no block, and neither holds the
superblock. -/
def GroupsApart (s : Volume) : Prop :=
  ∀ a b unused unused', FileIdx a → FileIdx b →
    inodeIdxToBlockGroup s a ≠ inodeIdxToBlockGroup s b →
    let blocks := groupBlocks s (.create unused (inodeIdxToBlockGroup s a) s.info)
      (inodeIdxToBlockGroup s a)
    let blocks' := groupBlocks s (.create unused' (inodeIdxToBlockGroup s b) s.info)
      (inodeIdxToBlockGroup s b)
    blocks.Disjoint blocks' ∧ superBlockBlock ∉ blocks ∧ superBlockBlock ∉ blocks'

theorem blockGroup_eq (h : Mounted s) (ha : FileIdx a) :
    inodeIdxToBlockGroup s a =
      ((a - 1) / s.info.blockSize + s.superBlockIdx + 1) % 4294967296 := by
  have hMax := ha.2
  unfold maxFiles at hMax
  have hPred : (a + 4294967295) % 4294967296 = a - 1 := by
    have := ha.1
    omega
  rw [inodeIdxToBlockGroup, h.groupInodeSize, hPred]

/-- Blocks of two sectors or more put all files into one group. -/
theorem groupsApart_of_gt (h : Mounted s) (hGt : sectorSizeBytes < s.info.blockSize) :
    GroupsApart s := by
  have hAligned := h.aligned
  unfold sectorSizeBytes at hGt hAligned
  have hZero : ∀ idx, FileIdx idx → (idx - 1) / s.info.blockSize = 0 := by
    intro idx hIdx
    have hMax := hIdx.2
    unfold maxFiles at hMax
    have hMin := hIdx.1
    exact Nat.div_eq_of_lt (by omega)
  intro a b _ _ ha hb hne
  refine absurd ?_ hne
  rw [blockGroup_eq h ha, blockGroup_eq h hb, hZero a ha, hZero b hb]

/-- The inode bitmap of the first group is the block bitmap of the second. -/
theorem not_groupsApart_of_eq (h : Mounted s) (hOne : s.info.blockSize = sectorSizeBytes) :
    ¬GroupsApart s := by
  intro hGroups
  have hFirst : FileIdx 1 := by decide
  have hSecond : FileIdx 513 := by decide
  have hFirstGroup := blockGroup_eq h hFirst
  have hSecondGroup := blockGroup_eq h hSecond
  rw [hOne, show (1 - 1) / sectorSizeBytes = 0 from rfl] at hFirstGroup
  rw [hOne, show (513 - 1) / sectorSizeBytes = 1 from rfl] at hSecondGroup
  have hne : inodeIdxToBlockGroup s 1 ≠ inodeIdxToBlockGroup s 513 := by
    rw [hFirstGroup, hSecondGroup]
    omega
  have hShared : (BlockGroupDescriptor.create 0 (inodeIdxToBlockGroup s 513)
      s.info).blockBitmapBlock.toNat =
      (BlockGroupDescriptor.create 0 (inodeIdxToBlockGroup s 1) s.info).inodeBitmapBlock.toNat := by
    simp only [BlockGroupDescriptor.create, BitVec.toNat_ofNat]
    rw [hFirstGroup, hSecondGroup]
    omega
  have hIn : (BlockGroupDescriptor.create 0 (inodeIdxToBlockGroup s 1)
      s.info).inodeBitmapBlock.toNat ∈ groupBlocks s
        (.create 0 (inodeIdxToBlockGroup s 1) s.info) (inodeIdxToBlockGroup s 1) := by
    simp [groupBlocks]
  apply (hGroups 1 513 0 0 hFirst hSecond hne).1 hIn
  rw [← hShared]
  simp [groupBlocks]

/-- Block groups are apart exactly when a block is more than one sector. -/
theorem groupsApart_iff (h : Mounted s) :
    GroupsApart s ↔ s.info.blockSize ≠ sectorSizeBytes := by
  refine ⟨fun hGroups hOne => not_groupsApart_of_eq h hOne hGroups, fun hne => ?_⟩
  exact groupsApart_of_gt h (Nat.lt_of_le_of_ne h.sector_le (Ne.symm hne))

theorem groupsApart_twoSectorBlocks : GroupsApart twoSectorBlocks :=
  (groupsApart_iff mounted_twoSectorBlocks).mpr (by decide)

/-- With blocks of one sector the groups of the inodes 1 and 513 share a block. -/
theorem groups_overlap : ¬GroupsApart oneSectorBlocks :=
  not_groupsApart_of_eq mounted_oneSectorBlocks (by decide)

end Juos.Ext2
