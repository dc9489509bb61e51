import Juos.Ext2.Groups

/-!
# What is read back of a block group

A descriptor is written with block numbers of four bits and counts of two. The counts of a new group
are the block size, a multiple of 512, so they always read back as 0 (`create_counts`). The
block numbers are right for the groups up to block 12. The test for a missing group looks at the
truncated numbers: a group whose bitmap would lie in a block that is a multiple of 16 is never
found, and it is created again by each `CreateIfNotFound` (`getBlockGroup_created_iff`).
-/

namespace Juos.Ext2

open Machine

variable {s t : Volume} {unused unused' : BitVec 14} {n : Nat} {create : Bool}
  {bg : BlockGroupTable} {d : BlockGroupDescriptor}

/-- The block numbers of the group at `n`. -/
structure BlocksBack (d : BlockGroupDescriptor) (n : Nat) : Prop where
  blockBitmapBlock : d.blockBitmapBlock.toNat = n + 1
  inodeBitmapBlock : d.inodeBitmapBlock.toNat = n + 2
  inodeTableStartBlock : d.inodeTableStartBlock.toNat = n + 3

/-- The descriptor of a new group at `n`. -/
structure ReadsBack (d : BlockGroupDescriptor) (blockSize n : Nat) : Prop extends
    BlocksBack d n where
  groupNUnallocBlocks : d.groupNUnallocBlocks.toNat = blockSize
  groupNUnallocInodes : d.groupNUnallocInodes.toNat = blockSize

/-- After the group at `n` was created, both `NoCreate` and `CreateIfNotFound` read it back, and the
latter does not create it again. -/
def GroupRoundTrip (s : Volume) (unused unused' : BitVec 14) (n : Nat) : Prop :=
  let created := (createBlockGroup unused n s).2
  (∃ bg t, getBlockGroup unused' n false created = some (bg, t) ∧
    ReadsBack bg.groupDescriptor s.info.blockSize n) ∧
  ∃ bg t, getBlockGroup unused' n true created = some (bg, t) ∧
    ReadsBack bg.groupDescriptor s.info.blockSize n ∧ WritesNothing created t

/-! ## Counts -/

/-- A count has two bits, and a block at least 512 bytes. -/
theorem not_readsBack (h : Sized s) : ¬ReadsBack d s.info.blockSize n := by
  intro hBack
  have hLt := d.groupNUnallocBlocks.isLt
  have hSector := h.sector_le
  rw [hBack.groupNUnallocBlocks] at hLt
  unfold sectorSizeBytes at hSector
  omega

/-- The counts of a new group are zero. -/
theorem create_counts (h : Sized s) (unused : BitVec 14) (n : Nat) :
    (BlockGroupDescriptor.create unused n s.info).groupNUnallocBlocks = 0 ∧
      (BlockGroupDescriptor.create unused n s.info).groupNUnallocInodes = 0 := by
  have hZero : BitVec.ofNat 2 s.info.blockSize = 0 := by
    have hAligned := h.aligned
    unfold sectorSizeBytes at hAligned
    rw [← BitVec.toNat_inj, BitVec.toNat_ofNat]
    show s.info.blockSize % 4 = 0
    omega
  exact ⟨hZero, hZero⟩

/-! ## Block numbers -/

theorem blocksBack_create_iff (unused : BitVec 14) (descriptor : FsDescriptor) (n : Nat) :
    BlocksBack (.create unused n descriptor) n ↔ n ≤ 12 := by
  have hTable : (BlockGroupDescriptor.create unused n descriptor).inodeTableStartBlock.toNat =
      (n + 3) % 16 := BitVec.toNat_ofNat _ _
  constructor
  · intro hBack
    have hSame := hBack.inodeTableStartBlock
    rw [hTable] at hSame
    omega
  · intro hFits
    obtain ⟨hBlock, hInode, -⟩ := create_blocks unused descriptor (Nat.le_succ_of_le hFits)
    refine ⟨hBlock, hInode, ?_⟩
    rw [hTable]
    omega

theorem missing_create_iff (unused : BitVec 14) (descriptor : FsDescriptor) (n : Nat) :
    (BlockGroupDescriptor.create unused n descriptor).Missing ↔ 14 ≤ n % 16 := by
  have hZero : ∀ k, BitVec.ofNat 4 (n + k) = 0 ↔ (n + k) % 16 = 0 := by
    intro k
    rw [← BitVec.toNat_inj, BitVec.toNat_ofNat]
    rfl
  refine (or_congr (hZero 1) (hZero 2)).trans ?_
  omega

/-! ## Looking for the group -/

theorem readBitmaps_writesNothing (h : readBitmaps d s = some (bg, t)) :
    bg.groupDescriptor = d ∧ WritesNothing s t := by
  have hSize := (readBitmaps_touched h).2
  rw [readBitmaps, if_pos hSize] at h
  obtain ⟨rfl, rfl⟩ := Prod.mk.inj (Option.some.inj h)
  exact ⟨rfl, (readStorage_writesNothing s _ _ 1).trans (readStorage_writesNothing _ _ _ 1)⟩

theorem length_writes_zeroBlock (h : Sized s) (b : Nat) :
    (zeroBlock b s).device.writes.length = s.device.writes.length + s.sectorsPerBlock :=
  length_writes_writeStorage (h.touched (zeroBuffer_touched s)) _ b

/-- Creating a group writes to the device. -/
theorem length_writes_createBlockGroup (h : Sized s) (unused : BitVec 14) (n : Nat) :
    s.device.writes.length < (createBlockGroup unused n s).2.device.writes.length := by
  let d := BlockGroupDescriptor.create unused n s.info
  have h₁ := h.touched (writeObjectToBlock_touched s d.bytes n sizeofBlockGroupDescriptor)
  have h₂ := h₁.touched (zeroBlock_touched _ d.blockBitmapBlock.toNat)
  have h₃ := h₂.touched (zeroBlock_touched _ d.inodeBitmapBlock.toNat)
  have hDescriptor := length_writes_writeObjectToBlock h d.bytes n sizeofBlockGroupDescriptor
  have hBlock := length_writes_zeroBlock h₁ d.blockBitmapBlock.toNat
  have hInode := length_writes_zeroBlock h₂ d.inodeBitmapBlock.toNat
  have hTable : (createBlockGroup unused n s).2.device.writes.length = _ :=
    length_writes_zeroBlock h₃ d.inodeTableStartBlock.toNat
  have hPos := h₃.sectors_pos
  omega

theorem readDescriptor_writesNothing (s : Volume) (n : Nat) :
    WritesNothing s (readDescriptor n s).2 :=
  readObjectFromBlock_writesNothing s (fun _ => 0) n sizeofBlockGroupDescriptor

/-- A group that is found is read. -/
theorem getBlockGroup_of_found (h : Sized s) (hRange : InRange s n 1)
    (hAt : descriptorAt s.info.blockSize s.device.bytes n = d) (hFound : ¬d.Missing) :
    ∃ bg t, getBlockGroup unused n create s = some (bg, t) ∧ bg.groupDescriptor = d ∧
      WritesNothing s t := by
  obtain ⟨hRead, hDescriptor, hBytes⟩ := readDescriptor_spec h hRange
  rw [hAt] at hDescriptor
  have hSame : descriptorAt (readDescriptor n s).2.info.blockSize
      (readDescriptor n s).2.device.bytes n = d := by
    rw [hRead.info, hBytes, hAt]
  obtain ⟨bg, t, hBitmaps, -⟩ := readBitmaps_spec (h.touched hRead) hSame
  obtain ⟨hBg, hNothing⟩ := readBitmaps_writesNothing hBitmaps
  refine ⟨bg, t, ?_, hBg, (readDescriptor_writesNothing s n).trans hNothing⟩
  rw [getBlockGroup, hDescriptor, if_neg hFound]
  exact hBitmaps

/-- A group that is not found is created, or not returned. -/
theorem getBlockGroup_of_not_found (h : Sized s) (unused : BitVec 14) (hRange : InRange s n 1)
    (hAt : (descriptorAt s.info.blockSize s.device.bytes n).Missing) :
    getBlockGroup unused n false s = none ∧
      ∀ bg t, getBlockGroup unused n true s = some (bg, t) → ¬WritesNothing s t := by
  obtain ⟨hRead, hDescriptor, -⟩ := readDescriptor_spec h hRange
  rw [← hDescriptor] at hAt
  refine ⟨?_, fun bg t hGet hNothing => ?_⟩
  · rw [getBlockGroup, if_pos hAt]
    rfl
  · rw [getBlockGroup, if_pos hAt, if_pos rfl] at hGet
    have hSized := h.touched hRead
    have hLonger := length_writes_createBlockGroup hSized unused n
    have hCreated := (readBitmaps_writesNothing hGet).2
    rw [(readDescriptor_writesNothing s n).2, ← hNothing.2, hCreated.2] at hLonger
    exact Nat.lt_irrefl _ hLonger

/-- Right after its creation a group is found, by either option, exactly when its bitmaps do not lie
in a block whose number is a multiple of 16. -/
theorem getBlockGroup_created_iff (h : Sized s) (hRange : InRange s n 1)
    (unused unused' : BitVec 14) :
    let created := (createBlockGroup unused n s).2
    ((∃ bg t, getBlockGroup unused' n false created = some (bg, t)) ↔ n % 16 < 14) ∧
    ((∃ bg t, getBlockGroup unused' n true created = some (bg, t) ∧ WritesNothing created t) ↔
      n % 16 < 14) ∧
    ((∃ bg t, getBlockGroup unused' n false created = some (bg, t) ∧
      BlocksBack bg.groupDescriptor n) ↔ n ≤ 12) := by
  intro created
  have hTouched := createBlockGroup_touched s unused n
  have hSized := h.touched hTouched
  have hRange' := hRange.touched hTouched
  have hAt := descriptorAt_created h unused hRange
  rw [← hTouched.info] at hAt
  have hMissing := missing_create_iff unused created.info n
  have hBack := blocksBack_create_iff unused created.info n
  rcases Nat.lt_or_ge (n % 16) 14 with hLow | hHigh
  · have hFound := hMissing.not.mpr (Nat.not_le_of_lt hLow)
    obtain ⟨bg, t, hGet, hBg, -⟩ := getBlockGroup_of_found hSized hRange' hAt hFound
    refine ⟨iff_of_true ⟨bg, t, hGet⟩ hLow, iff_of_true ?_ hLow, ?_⟩
    · obtain ⟨bg', t', hGet', -, hNothing⟩ := getBlockGroup_of_found hSized hRange' hAt hFound
      exact ⟨bg', t', hGet', hNothing⟩
    · rw [← hBack, ← hBg]
      refine ⟨fun hSome => ?_, fun hBlocks => ⟨bg, t, hGet, hBlocks⟩⟩
      obtain ⟨bg', t', hGet', hBlocks⟩ := hSome
      obtain ⟨rfl, -⟩ := Prod.mk.inj (Option.some.inj (hGet.symm.trans hGet'))
      exact hBlocks
  · have hLost : (descriptorAt created.info.blockSize created.device.bytes n).Missing := by
      rw [hAt]
      exact hMissing.mpr hHigh
    obtain ⟨hNone, hWrites⟩ := getBlockGroup_of_not_found hSized unused' hRange' hLost
    refine ⟨iff_of_false ?_ (Nat.not_lt_of_le hHigh), iff_of_false ?_ (Nat.not_lt_of_le hHigh),
      iff_of_false ?_ (by omega)⟩
    · rintro ⟨bg, t, hGet⟩
      exact absurd (hGet.symm.trans hNone) (by simp)
    · rintro ⟨bg, t, hGet, hNothing⟩
      exact hWrites bg t hGet hNothing
    · rintro ⟨bg, t, hGet, -⟩
      exact absurd (hGet.symm.trans hNone) (by simp)

/-- The counts that are read back are zero. -/
theorem counts_created (h : Sized s) (hRange : InRange s n 1)
    (hGet : getBlockGroup unused' n false (createBlockGroup unused n s).2 = some (bg, t)) :
    bg.groupDescriptor.groupNUnallocBlocks = 0 ∧ bg.groupDescriptor.groupNUnallocInodes = 0 := by
  have hTouched := createBlockGroup_touched s unused n
  have hSized := h.touched hTouched
  have hRange' := hRange.touched hTouched
  have hAt := descriptorAt_created h unused hRange
  rw [← hTouched.info] at hAt
  by_cases hMissing : (BlockGroupDescriptor.create unused n s.info).Missing
  · rw [← hTouched.info, ← hAt] at hMissing
    have hNone := (getBlockGroup_of_not_found hSized unused' hRange' hMissing).1
    exact absurd (hGet.symm.trans hNone) (by simp)
  · rw [← hTouched.info] at hMissing
    obtain ⟨bg', t', hGet', hBg, -⟩ := getBlockGroup_of_found hSized hRange' hAt hMissing
    obtain ⟨rfl, -⟩ := Prod.mk.inj (Option.some.inj (hGet.symm.trans hGet'))
    rw [hBg]
    exact create_counts hSized unused n

/-- No group is read back as it was created: its counts are not. A group of the device is found
again except where a bitmap would lie in a multiple of 16, its block numbers are right up to block
12, and its counts read back as zero. -/
theorem groupRoundTrip_never (h : Sized s) (unused unused' : BitVec 14) (n : Nat) :
    ¬GroupRoundTrip s unused unused' n ∧
    (InRange s n 1 →
      let created := (createBlockGroup unused n s).2
      ((∃ bg t, getBlockGroup unused' n true created = some (bg, t) ∧ WritesNothing created t) ↔
        n % 16 < 14) ∧
      ((∃ bg t, getBlockGroup unused' n false created = some (bg, t) ∧
        BlocksBack bg.groupDescriptor n) ↔ n ≤ 12) ∧
      ∀ bg t, getBlockGroup unused' n false created = some (bg, t) →
        bg.groupDescriptor.groupNUnallocBlocks = 0 ∧
          bg.groupDescriptor.groupNUnallocInodes = 0) := by
  refine ⟨fun hTrip => ?_, fun hRange => ?_⟩
  · obtain ⟨⟨bg, t, -, hBack⟩, -⟩ := hTrip
    exact not_readsBack h hBack
  · obtain ⟨-, hAgain, hBlocks⟩ := getBlockGroup_created_iff h hRange unused unused'
    exact ⟨hAgain, hBlocks, fun bg t => counts_created h hRange⟩

theorem groupRoundTrip_twoSectorBlocks :
    ¬GroupRoundTrip twoSectorBlocks 0 0 2 ∧
      ∃ bg t, getBlockGroup 0 2 false (createBlockGroup 0 2 twoSectorBlocks).2 = some (bg, t) ∧
        BlocksBack bg.groupDescriptor 2 := by
  have hSized := mounted_twoSectorBlocks.toSized
  obtain ⟨hNever, hBlocks⟩ := groupRoundTrip_never hSized 0 0 2
  exact ⟨hNever, (hBlocks (inRange_of_lt hSized (by decide))).2.1.mpr (by decide)⟩

/-- The counts of the first group are not what was written; the group at block 14 is lost at
once. -/
theorem not_groupRoundTrip :
    ¬GroupRoundTrip twoSectorBlocks 0 0 2 ∧
      getBlockGroup 0 14 false (createBlockGroup 0 14 twoSectorBlocks).2 = none := by
  have hSized := mounted_twoSectorBlocks.toSized
  refine ⟨fun hTrip => ?_, ?_⟩
  · obtain ⟨⟨bg, t, -, hBack⟩, -⟩ := hTrip
    exact not_readsBack hSized hBack
  · have hTouched := createBlockGroup_touched twoSectorBlocks 0 14
    have hRange := inRange_of_lt hSized (by decide : 14 < 512)
    refine (getBlockGroup_of_not_found (hSized.touched hTouched) 0 (hRange.touched hTouched) ?_).1
    rw [hTouched.info, descriptorAt_created hSized 0 hRange]
    exact (missing_create_iff 0 _ 14).mpr (by decide)

end Juos.Ext2
