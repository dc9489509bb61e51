import Juos.Ext2.Geometry

/-!
# Block groups on disk

What `_get_block_group` and `_write_block_group` do to the device, block by block. `GroupAt` says
that a group lies at the block `n` in the layout of the source, its block bitmap zero and its inode
bitmap as given. The block numbers of such a group fit into four bits: `n ≤ 13`.
-/

namespace Juos.Ext2

open Machine

variable {s t v : Volume} {b n idx : Nat} {bitmap : Buffer}

/-! ## Single blocks -/

theorem inRange_of_lt (h : Sized s) (hb : b < 512) : InRange s b 1 := by
  have hMul := h.mul
  have hLt := s.info.blockSize_lt
  apply inRange_one h
  have hLe : (b + 1) * s.sectorsPerBlock ≤ sectorSizeBytes * s.sectorsPerBlock :=
    Nat.mul_le_mul_right _ hb
  rw [Nat.mul_comm sectorSizeBytes, hMul] at hLe
  omega

/-- What no call changes once a file system is mounted. -/
structure Kept (s t : Volume) : Prop where
  globalSuperBlock : t.globalSuperBlock = s.globalSuperBlock
  sectorsPerBlock : t.sectorsPerBlock = s.sectorsPerBlock
  superBlockIdx : t.superBlockIdx = s.superBlockIdx
  info : t.info = s.info

theorem Touched.kept (h : Touched s t) : Kept s t :=
  ⟨h.globalSuperBlock, h.sectorsPerBlock, h.superBlockIdx, h.info⟩

theorem Kept.refl (s : Volume) : Kept s s := ⟨rfl, rfl, rfl, rfl⟩

theorem Kept.trans (h : Kept s t) (h' : Kept t v) : Kept s v :=
  ⟨h'.globalSuperBlock.trans h.globalSuperBlock, h'.sectorsPerBlock.trans h.sectorsPerBlock,
    h'.superBlockIdx.trans h.superBlockIdx, h'.info.trans h.info⟩

theorem Mounted.kept (h : Mounted s) (hKept : Kept s t) : Mounted t := by
  refine ⟨⟨?_, ?_, ?_⟩, ?_, ?_, ?_⟩
  · rw [hKept.info]
    exact h.pos
  · rw [hKept.info]
    exact h.aligned
  · rw [hKept.info, hKept.sectorsPerBlock]
    exact h.sectors
  · rw [hKept.superBlockIdx, hKept.info]
    exact h.superBlockIdx
  · rw [hKept.globalSuperBlock, hKept.info]
    exact h.blockSize
  · rw [hKept.globalSuperBlock, hKept.info]
    exact h.groupInodeSize

theorem Mounted.touched (h : Mounted s) (hSame : Touched s t) : Mounted t := h.kept hSame.kept

theorem readStorage_one (h : Sized s) (hb : b < 512) (buffer : Buffer) :
    Touched s (readStorage buffer b 1 s).2 ∧
      (readStorage buffer b 1 s).1 =
        memcpy buffer 0 (block s.info.blockSize s.device.bytes b) s.info.blockSize ∧
      (readStorage buffer b 1 s).2.device.bytes = s.device.bytes := by
  refine ⟨readStorage_touched s b 1 buffer, ?_, ?_⟩
  · rw [readStorage_eq h (inRange_of_lt h hb), Nat.one_mul]
  · rw [readStorage_eq h (inRange_of_lt h hb)]

/-- The blocks at which groups in the layout of the source lie. -/
theorem inRange_group (h : Sized s) (hFits : n ≤ 13) : InRange s n 1 :=
  inRange_of_lt h (Nat.lt_of_le_of_lt hFits (by decide))

theorem inRange_superBlock (h : Sized s) : InRange s superBlockBlock 1 :=
  inRange_of_lt h (by decide : superBlockBlock < 512)

theorem writeStorage_one (h : Sized s) (hb : b < 512) (buffer : Buffer) :
    Touched s (writeStorage buffer b 1 s) ∧
      (writeStorage buffer b 1 s).device.bytes =
        putBlock s.info.blockSize s.device.bytes b buffer := by
  refine ⟨writeStorage_touched s b 1 buffer, ?_⟩
  rw [writeStorage_eq h (inRange_of_lt h hb), Nat.one_mul, putBlock]

/-! ## Reading a group -/

/-- The descriptor that the block `n` holds. -/
def descriptorAt (size : Nat) (bytes : Buffer) (n : Nat) : BlockGroupDescriptor :=
  .ofBytes (block size bytes n)

theorem ofBytes_congr {c c' : Buffer} (h : ∀ i < sizeofBlockGroupDescriptor, c' i = c i) :
    BlockGroupDescriptor.ofBytes c' = BlockGroupDescriptor.ofBytes c := by
  have hWord : word c' 0 sizeofBlockGroupDescriptor = word c 0 sizeofBlockGroupDescriptor := by
    apply word_congr
    intro i hi
    rw [Nat.zero_add]
    exact h i hi
  rw [BlockGroupDescriptor.ofBytes, BlockGroupDescriptor.ofBytes, hWord]

theorem Sized.descriptor_le (h : Sized s) : sizeofBlockGroupDescriptor ≤ s.info.blockSize :=
  Nat.le_trans (by decide) h.sector_le

theorem readDescriptor_touched (s : Volume) (n : Nat) : Touched s (readDescriptor n s).2 :=
  readObjectFromBlock_touched s (fun _ => 0) n sizeofBlockGroupDescriptor

theorem readDescriptor_spec (h : Sized s) (hRange : InRange s n 1) :
    Touched s (readDescriptor n s).2 ∧
      (readDescriptor n s).1 = descriptorAt s.info.blockSize s.device.bytes n ∧
      (readDescriptor n s).2.device.bytes = s.device.bytes := by
  obtain ⟨hTouched, hObj, hDevice⟩ := readObjectFromBlock_spec h hRange (fun _ => 0)
    h.descriptor_le
  refine ⟨hTouched, ?_, ?_⟩
  · unfold readDescriptor descriptorAt
    apply ofBytes_congr
    intro i hi
    rw [hObj, memcpy_zero_apply hi]
  · show (readObjectFromBlock (fun _ => 0) n sizeofBlockGroupDescriptor s).2.device.bytes = _
    rw [hDevice]

/-- A table holds what the group at `n` has on disk. -/
structure Loaded (s : Volume) (bg : BlockGroupTable) (n : Nat) : Prop where
  descriptor : descriptorAt s.info.blockSize s.device.bytes n = bg.groupDescriptor
  blockBitmap : ∀ i < s.info.blockSize, bg.blockBitmap i =
    block s.info.blockSize s.device.bytes bg.groupDescriptor.blockBitmapBlock.toNat i
  inodeBitmap : ∀ i < s.info.blockSize, bg.inodeBitmap i =
    block s.info.blockSize s.device.bytes bg.groupDescriptor.inodeBitmapBlock.toNat i

theorem readBitmaps_spec (h : Sized s)
    {d : BlockGroupDescriptor} (hDescriptor : descriptorAt s.info.blockSize s.device.bytes n = d) :
    ∃ bg t, readBitmaps d s = some (bg, t) ∧ Touched s t ∧ t.device.bytes = s.device.bytes ∧
      Loaded t bg n := by
  have hBlockIdx : d.blockBitmapBlock.toNat < 512 :=
    Nat.lt_trans d.blockBitmapBlock.isLt (by decide)
  have hInodeIdx : d.inodeBitmapBlock.toNat < 512 :=
    Nat.lt_trans d.inodeBitmapBlock.isLt (by decide)
  obtain ⟨hFirst, hBlock, hBytes⟩ := readStorage_one h hBlockIdx (fun _ => 0)
  obtain ⟨hSecond, hInode, hBytes'⟩ := readStorage_one (h.touched hFirst) hInodeIdx (fun _ => 0)
  rw [hBytes, hFirst.info] at hInode
  rw [hBytes] at hBytes'
  have hBoth := hFirst.trans hSecond
  refine ⟨_, _, if_pos (Nat.ne_of_gt h.pos), hBoth, hBytes', ?_, fun i hi => ?_, fun i hi => ?_⟩
  · rw [hBoth.info, hBytes', hDescriptor]
  · rw [hBoth.info] at hi ⊢
    simp only
    rw [hBytes', hBlock, memcpy_zero_apply hi]
  · rw [hBoth.info] at hi ⊢
    simp only
    rw [hBytes', hInode, memcpy_zero_apply hi]

theorem zeroBlock_touched (s : Volume) (b : Nat) : Touched s (zeroBlock b s) :=
  (zeroBuffer_touched s).trans (writeStorage_touched _ b 1 _)

theorem createBlockGroup_touched (s : Volume) (unused : BitVec 14) (n : Nat) :
    Touched s (createBlockGroup unused n s).2 := by
  have hDescriptor := writeObjectToBlock_touched s
    (BlockGroupDescriptor.create unused n s.info).bytes n sizeofBlockGroupDescriptor
  exact ((hDescriptor.trans (zeroBlock_touched _ _)).trans (zeroBlock_touched _ _)).trans
    (zeroBlock_touched _ _)

theorem readBitmaps_touched {d : BlockGroupDescriptor} {bg : BlockGroupTable}
    (h : readBitmaps d s = some (bg, t)) : Touched s t ∧ s.info.blockSize ≠ 0 := by
  by_cases hSize : s.info.blockSize ≠ 0
  · rw [readBitmaps, if_pos hSize] at h
    obtain ⟨-, rfl⟩ := Prod.mk.inj (Option.some.inj h)
    exact ⟨(readStorage_touched s _ 1 _).trans (readStorage_touched _ _ 1 _), hSize⟩
  · rw [readBitmaps, if_neg hSize] at h
    exact absurd h (by simp)

/-- Getting a group changes the device and the block buffer only, and divides by the block size. -/
theorem getBlockGroup_touched {unused : BitVec 14} {bg : BlockGroupTable}
    (h : getBlockGroup unused n true s = some (bg, t)) :
    Touched s t ∧ s.info.blockSize ≠ 0 := by
  have hRead := readDescriptor_touched s n
  by_cases hMissing : (readDescriptor n s).1.Missing
  · have hCreate := createBlockGroup_touched (readDescriptor n s).2 unused n
    rw [getBlockGroup, if_pos hMissing, if_pos rfl] at h
    obtain ⟨hBitmaps, hSize⟩ := readBitmaps_touched h
    rw [(hRead.trans hCreate).info] at hSize
    exact ⟨(hRead.trans hCreate).trans hBitmaps, hSize⟩
  · rw [getBlockGroup, if_neg hMissing] at h
    obtain ⟨hBitmaps, hSize⟩ := readBitmaps_touched h
    rw [hRead.info] at hSize
    exact ⟨hRead.trans hBitmaps, hSize⟩

/-! ## Groups in the layout of the source -/

/-- The group at `n` has its bitmaps and its inode table right behind it, its block bitmap is
zero and its inode bitmap is `bitmap`. -/
structure GroupAt (size : Nat) (bytes : Buffer) (n : Nat) (bitmap : Buffer) : Prop where
  pos : 1 ≤ n
  fits : n ≤ 13
  blockBitmapBlock : (descriptorAt size bytes n).blockBitmapBlock.toNat = n + 1
  inodeBitmapBlock : (descriptorAt size bytes n).inodeBitmapBlock.toNat = n + 2
  inodeTableStartBlock : (descriptorAt size bytes n).inodeTableStartBlock.toNat = (n + 3) % 16
  blockBitmap : ∀ i < size, block size bytes (n + 1) i = 0
  inodeBitmap : ∀ i < size, block size bytes (n + 2) i = bitmap i

theorem GroupAt.not_missing {size : Nat} {bytes : Buffer} (h : GroupAt size bytes n bitmap) :
    ¬(descriptorAt size bytes n).Missing := by
  have hBlock := h.blockBitmapBlock
  have hInode := h.inodeBitmapBlock
  rintro (hZero | hZero)
  · rw [hZero] at hBlock
    exact absurd hBlock (Nat.zero_ne_add_one n)
  · rw [hZero] at hInode
    exact absurd hInode (Nat.zero_ne_add_one (n + 1))

theorem descriptorAt_congr {size : Nat} {bytes bytes' : Buffer}
    (hSize : sizeofBlockGroupDescriptor ≤ size)
    (h : ∀ i < size, block size bytes' n i = block size bytes n i) :
    descriptorAt size bytes' n = descriptorAt size bytes n :=
  ofBytes_congr fun i hi => h i (Nat.lt_of_lt_of_le hi hSize)

/-- A group stays where its three blocks are left alone. -/
theorem GroupAt.congr {size : Nat} {bytes bytes' : Buffer} (h : GroupAt size bytes n bitmap)
    (hSize : sizeofBlockGroupDescriptor ≤ size)
    (hSame : ∀ c, c = n ∨ c = n + 1 ∨ c = n + 2 →
      ∀ i < size, block size bytes' c i = block size bytes c i) :
    GroupAt size bytes' n bitmap := by
  have hDescriptor := descriptorAt_congr hSize (hSame n (Or.inl rfl))
  refine ⟨h.pos, h.fits, ?_, ?_, ?_, fun i hi => ?_, fun i hi => ?_⟩
  · rw [hDescriptor]
    exact h.blockBitmapBlock
  · rw [hDescriptor]
    exact h.inodeBitmapBlock
  · rw [hDescriptor]
    exact h.inodeTableStartBlock
  · rw [hSame (n + 1) (Or.inr (Or.inl rfl)) i hi]
    exact h.blockBitmap i hi
  · rw [hSame (n + 2) (Or.inr (Or.inr rfl)) i hi]
    exact h.inodeBitmap i hi

theorem GroupAt.of_bitmap {size : Nat} {bytes bitmap' : Buffer} (h : GroupAt size bytes n bitmap)
    (hSame : ∀ i, bitmap' i = bitmap i) : GroupAt size bytes n bitmap' :=
  { h with inodeBitmap := fun i hi => (h.inodeBitmap i hi).trans (hSame i).symm }

/-- A block that begins with zeros holds no group. -/
theorem missing_of_zero {size : Nat} {bytes : Buffer}
    (h : ∀ i < sizeofBlockGroupDescriptor, block size bytes n i = 0) :
    (descriptorAt size bytes n).Missing := by
  have hWord : word (block size bytes n) 0 sizeofBlockGroupDescriptor = 0 := by
    apply word_eq_zero
    intro i hi
    rw [Nat.zero_add]
    exact h i hi
  left
  rw [descriptorAt, BlockGroupDescriptor.ofBytes, hWord]
  rfl

/-- A block that holds a descriptor. -/
theorem descriptorAt_padded {size : Nat} {bytes : Buffer} (d : BlockGroupDescriptor)
    (hSize : sizeofBlockGroupDescriptor ≤ size)
    (h : ∀ i < size, block size bytes n i = padded d.bytes sizeofBlockGroupDescriptor i) :
    descriptorAt size bytes n = d := by
  apply BlockGroupDescriptor.ofBytes_of_eq d
  intro i hi
  rw [h i (Nat.lt_of_lt_of_le hi hSize)]
  exact if_pos hi

/-! ## Creating a group -/

theorem createBlockGroup_spec (h : Sized s) (unused : BitVec 14) (hRange : InRange s n 1) :
    let d := BlockGroupDescriptor.create unused n s.info
    Touched s (createBlockGroup unused n s).2 ∧
      (createBlockGroup unused n s).2.device.bytes =
        putBlock s.info.blockSize (putBlock s.info.blockSize (putBlock s.info.blockSize
          (putBlock s.info.blockSize s.device.bytes n (padded d.bytes sizeofBlockGroupDescriptor))
          d.blockBitmapBlock.toNat fun _ => 0) d.inodeBitmapBlock.toNat fun _ => 0)
          d.inodeTableStartBlock.toNat fun _ => 0 := by
  intro d
  have hSmall : ∀ b : BitVec 4, b.toNat < 512 := fun b => Nat.lt_trans b.isLt (by decide)
  obtain ⟨hTouched₁, hDevice₁⟩ := writeObjectToBlock_spec h hRange d.bytes
    sizeofBlockGroupDescriptor
  have h₁ := h.touched hTouched₁
  obtain ⟨hTouched₂, hDevice₂⟩ := zeroBlock_spec h₁ (inRange_of_lt h₁ (hSmall d.blockBitmapBlock))
  have h₂ := h₁.touched hTouched₂
  obtain ⟨hTouched₃, hDevice₃⟩ := zeroBlock_spec h₂ (inRange_of_lt h₂ (hSmall d.inodeBitmapBlock))
  have h₃ := h₂.touched hTouched₃
  obtain ⟨hTouched₄, hDevice₄⟩ := zeroBlock_spec h₃
    (inRange_of_lt h₃ (hSmall d.inodeTableStartBlock))
  have hInfo₂ := (hTouched₁.trans hTouched₂).info
  have hInfo₃ := ((hTouched₁.trans hTouched₂).trans hTouched₃).info
  refine ⟨((hTouched₁.trans hTouched₂).trans hTouched₃).trans hTouched₄, ?_⟩
  show (zeroBlock _ _).device.bytes = _
  rw [hDevice₄, hDevice₃, hDevice₂, hDevice₁, hInfo₃, hInfo₂, hTouched₁.info]

/-- Creating a group does not write over its own descriptor, wherever the truncated block numbers
point. -/
theorem descriptorAt_created (h : Sized s) (unused : BitVec 14) (hRange : InRange s n 1) :
    descriptorAt s.info.blockSize (createBlockGroup unused n s).2.device.bytes n =
      .create unused n s.info := by
  obtain ⟨-, hBytes⟩ := createBlockGroup_spec h unused hRange
  have hne : ∀ k, k % 16 ≠ 0 → n ≠ (BitVec.ofNat 4 (n + k)).toNat := by
    intro k hk
    rw [BitVec.toNat_ofNat]
    omega
  have hBlock : n ≠ (BlockGroupDescriptor.create unused n s.info).blockBitmapBlock.toNat :=
    hne 1 (by decide)
  have hInode : n ≠ (BlockGroupDescriptor.create unused n s.info).inodeBitmapBlock.toNat :=
    hne 2 (by decide)
  have hTable : n ≠ (BlockGroupDescriptor.create unused n s.info).inodeTableStartBlock.toNat :=
    hne 3 (by decide)
  rw [hBytes]
  apply descriptorAt_padded _ h.descriptor_le
  intro i hi
  rw [block_putBlock_of_ne hTable hi, block_putBlock_of_ne hInode hi,
    block_putBlock_of_ne hBlock hi, block_putBlock_self hi]

/-- Where `_get_block_group` puts a group whose block numbers fit into four bits. -/
theorem create_blocks (unused : BitVec 14) (descriptor : FsDescriptor) (hFits : n ≤ 13) :
    (BlockGroupDescriptor.create unused n descriptor).blockBitmapBlock.toNat = n + 1 ∧
      (BlockGroupDescriptor.create unused n descriptor).inodeBitmapBlock.toNat = n + 2 ∧
      (BlockGroupDescriptor.create unused n descriptor).inodeTableStartBlock.toNat =
        (n + 3) % 16 := by
  refine ⟨?_, ?_, ?_⟩
  · exact (BitVec.toNat_ofNat _ _).trans (Nat.mod_eq_of_lt (by omega))
  · exact (BitVec.toNat_ofNat _ _).trans (Nat.mod_eq_of_lt (by omega))
  · exact BitVec.toNat_ofNat _ _

theorem groupAt_created (h : Sized s) (unused : BitVec 14) (hPos : 1 ≤ n) (hFits : n ≤ 13) :
    descriptorAt s.info.blockSize (createBlockGroup unused n s).2.device.bytes n =
        (createBlockGroup unused n s).1 ∧
      GroupAt s.info.blockSize (createBlockGroup unused n s).2.device.bytes n (fun _ => 0) ∧
      ∀ c, c ≠ n → c ≠ n + 1 → c ≠ n + 2 → c ≠ (n + 3) % 16 → ∀ i < s.info.blockSize,
        block s.info.blockSize (createBlockGroup unused n s).2.device.bytes c i =
          block s.info.blockSize s.device.bytes c i := by
  have hRange := inRange_group h hFits
  obtain ⟨-, hBytes⟩ := createBlockGroup_spec h unused hRange
  obtain ⟨hBlock, hInode, hTable⟩ := create_blocks unused s.info hFits
  have hDescriptor := descriptorAt_created h unused hRange
  rw [hBlock, hInode, hTable] at hBytes
  rw [hBytes] at hDescriptor ⊢
  refine ⟨hDescriptor, ⟨hPos, hFits, ?_, ?_, ?_, fun i hi => ?_, fun i hi => ?_⟩, ?_⟩
  · rw [hDescriptor, hBlock]
  · rw [hDescriptor, hInode]
  · rw [hDescriptor, hTable]
  · rw [block_putBlock_of_ne (by omega) hi, block_putBlock_of_ne (by omega) hi,
      block_putBlock_self hi]
  · rw [block_putBlock_of_ne (by omega) hi, block_putBlock_self hi]
  · intro c hne hneBlock hneInode hneTable i hi
    rw [block_putBlock_of_ne hneTable hi, block_putBlock_of_ne hneInode hi,
      block_putBlock_of_ne hneBlock hi, block_putBlock_of_ne hne hi]

/-- What `getBlockGroup` leaves: a loaded table, a group in the layout of the source, and all other
blocks as they were. -/
structure Obtained (s : Volume) (n : Nat) (bitmap : Buffer) (bg : BlockGroupTable) (t : Volume) :
    Prop where
  touched : Touched s t
  loaded : Loaded t bg n
  group : GroupAt t.info.blockSize t.device.bytes n bitmap
  others : ∀ c, c ≠ n → c ≠ n + 1 → c ≠ n + 2 → c ≠ (n + 3) % 16 → ∀ i < s.info.blockSize,
    block s.info.blockSize t.device.bytes c i = block s.info.blockSize s.device.bytes c i

/-- A group that is there is read. -/
theorem getBlockGroup_of_groupAt (h : Sized s) (unused : BitVec 14) (create : Bool)
    (hGroup : GroupAt s.info.blockSize s.device.bytes n bitmap) :
    ∃ bg t, getBlockGroup unused n create s = some (bg, t) ∧ Obtained s n bitmap bg t ∧
      t.device.bytes = s.device.bytes := by
  obtain ⟨hRead, hDescriptor, hBytes⟩ := readDescriptor_spec h (inRange_group h hGroup.fits)
  have hSame : descriptorAt (readDescriptor n s).2.info.blockSize
      (readDescriptor n s).2.device.bytes n = (readDescriptor n s).1 := by
    rw [hRead.info, hBytes, hDescriptor]
  obtain ⟨bg, t, hEq, hTouched, hDevice, hLoaded⟩ := readBitmaps_spec (h.touched hRead) hSame
  rw [hBytes] at hDevice
  have hBoth := hRead.trans hTouched
  refine ⟨bg, t, ?_, ⟨hBoth, hLoaded, ?_, fun c _ _ _ _ i _ => by rw [hDevice]⟩, hDevice⟩
  · unfold getBlockGroup
    rw [if_neg (hDescriptor ▸ hGroup.not_missing)]
    exact hEq
  · rw [hBoth.info, hDevice]
    exact hGroup

/-- A group that is not there is created, with empty bitmaps. -/
theorem getBlockGroup_of_missing (h : Sized s) (unused : BitVec 14) (hPos : 1 ≤ n)
    (hFits : n ≤ 13) (hMissing : (descriptorAt s.info.blockSize s.device.bytes n).Missing) :
    ∃ bg t, getBlockGroup unused n true s = some (bg, t) ∧ Obtained s n (fun _ => 0) bg t := by
  obtain ⟨hRead, hDescriptor, hBytes⟩ := readDescriptor_spec h (inRange_group h hFits)
  have hSized := h.touched hRead
  obtain ⟨hCreated, hGroup, hOthers⟩ := groupAt_created hSized unused hPos hFits
  have hCreate := createBlockGroup_touched (readDescriptor n s).2 unused n
  have hSame : descriptorAt (createBlockGroup unused n (readDescriptor n s).2).2.info.blockSize
      (createBlockGroup unused n (readDescriptor n s).2).2.device.bytes n =
        (createBlockGroup unused n (readDescriptor n s).2).1 := by
    rw [hCreate.info]
    exact hCreated
  obtain ⟨bg, t, hEq, hTouched, hDevice, hLoaded⟩ :=
    readBitmaps_spec (hSized.touched hCreate) hSame
  have hAll := (hRead.trans hCreate).trans hTouched
  refine ⟨bg, t, ?_, ⟨hAll, hLoaded, ?_, fun c h₀ h₁ h₂ h₃ i hi => ?_⟩⟩
  · unfold getBlockGroup
    rw [if_pos (hDescriptor ▸ hMissing)]
    exact hEq
  · rw [hAll.info, hDevice, ← hRead.info]
    exact hGroup
  · rw [← hRead.info] at hi ⊢
    rw [hDevice, hOthers c h₀ h₁ h₂ h₃ i hi, hBytes]

/-! ## Writing a group -/

theorem bytesToBlocks_eq (h : Mounted s) : bytesToBlocks s s.info.blockSize = 1 := by
  rw [bytesToBlocks, h.blockSize]
  exact Nat.div_self h.pos

/-- `_write_block_group` puts the descriptor and both bitmaps into their blocks and the inode into
its slot. -/
theorem writeBlockGroup_spec (h : Mounted s) (bg : BlockGroupTable) (inode : Buffer) (hn : n < 512)
    (hInode : bg.groupDescriptor.inodeTableStartBlock.toNat + inodeIdxContainingBlock s idx < 512) :
    Touched s (writeBlockGroup bg n inode idx s) ∧
      (writeBlockGroup bg n inode idx s).device.bytes =
        memcpy (putBlock s.info.blockSize (putBlock s.info.blockSize (putBlock s.info.blockSize
          s.device.bytes n (padded bg.groupDescriptor.bytes sizeofBlockGroupDescriptor))
          bg.groupDescriptor.blockBitmapBlock.toNat bg.blockBitmap)
          bg.groupDescriptor.inodeBitmapBlock.toNat bg.inodeBitmap)
          (inodeSlot s bg.groupDescriptor.inodeTableStartBlock.toNat idx) inode sizeofInode := by
  have hSmall : ∀ b : BitVec 4, b.toNat < 512 := fun b => Nat.lt_trans b.isLt (by decide)
  obtain ⟨hTouched₁, hDevice₁⟩ := writeObjectToBlock_spec h.toSized (inRange_of_lt h.toSized hn)
    bg.groupDescriptor.bytes sizeofBlockGroupDescriptor
  simp only [writeBlockGroup]
  generalize writeObjectToBlock bg.groupDescriptor.bytes n sizeofBlockGroupDescriptor s = s₁ at *
  have h₁ := h.touched hTouched₁
  obtain ⟨hTouched₂, hBytes₂⟩ := writeStorage_one h₁.toSized
    (hSmall bg.groupDescriptor.blockBitmapBlock) bg.blockBitmap
  rw [bytesToBlocks_eq h₁]
  generalize writeStorage bg.blockBitmap bg.groupDescriptor.blockBitmapBlock.toNat 1 s₁ = s₂ at *
  have h₂ := h₁.touched hTouched₂
  obtain ⟨hTouched₃, hBytes₃⟩ := writeStorage_one h₂.toSized
    (hSmall bg.groupDescriptor.inodeBitmapBlock) bg.inodeBitmap
  rw [bytesToBlocks_eq h₂]
  generalize writeStorage bg.inodeBitmap bg.groupDescriptor.inodeBitmapBlock.toNat 1 s₂ = s₃ at *
  have h₃ := h₂.touched hTouched₃
  have hTo₂ := hTouched₁.trans hTouched₂
  have hTo₃ := hTo₂.trans hTouched₃
  have hSame : inodeIdxContainingBlock s₃ idx = inodeIdxContainingBlock s idx := by
    unfold inodeIdxContainingBlock
    rw [hTo₃.globalSuperBlock]
  rw [hSame, inodeSlot]
  generalize bg.groupDescriptor.inodeTableStartBlock.toNat + inodeIdxContainingBlock s idx = c at *
  obtain ⟨hTouched₄, hRead, hBytes₄⟩ := readStorage_one h₃.toSized hInode s₃.blockBuffer
  generalize readStorage s₃.blockBuffer c 1 s₃ = r at *
  have hTouched₅ : Touched s₃ { r.2 with
      blockBuffer := memcpy (memset r.1 (sizeofInode * (idx % 4)) 0 sizeofInode)
        (sizeofInode * (idx % 4)) inode sizeofInode } :=
    hTouched₄.trans (blockBuffer_touched _ _)
  obtain ⟨hTouched₆, hBytes₆⟩ := writeStorage_one (h₃.touched hTouched₅).toSized hInode
    (memcpy (memset r.1 (sizeofInode * (idx % 4)) 0 sizeofInode) (sizeofInode * (idx % 4)) inode
      sizeofInode)
  refine ⟨(hTo₃.trans hTouched₅).trans hTouched₆, hBytes₆.trans ?_⟩
  simp only [hTouched₄.info]
  rw [hBytes₄, hRead, putBlock_patch (slot_end_le h₃.toSized idx), hBytes₃, hBytes₂, hDevice₁,
    hTo₃.info, hTo₂.info, hTouched₁.info]

end Juos.Ext2
