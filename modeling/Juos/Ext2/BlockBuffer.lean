import Juos.Ext2.Files

/-!
# What was in the block buffer

Blocks pass through `ext2_block_buffer`, which is never cleared as a whole: reading fills a block of
it, and writing takes a block from it. When a block is the size the buffer is used with, nothing of
what was there before gets out: `Alike.createFile` and `mount_alike` say that a call does the same
on two volumes that differ in the block buffer, and a constructor whatever the statics were.
-/

namespace Juos.Ext2

open Machine

variable {s t v : Volume} {unused : BitVec 14} {n objSize idx : Nat}
  {bg : BlockGroupTable} {d : BlockGroupDescriptor} {filename : List UInt8}

/-! ## The block buffer -/

/-- Two volumes that differ at most in the superblock in memory and in the block buffer. -/
structure Alike (s t : Volume) : Prop where
  sectorsPerBlock : t.sectorsPerBlock = s.sectorsPerBlock
  superBlockIdx : t.superBlockIdx = s.superBlockIdx
  info : t.info = s.info
  cache : t.cache = s.cache
  device : t.device = s.device

theorem Alike.blockBuffer (hAlike : Alike s t) (buffer buffer' : Buffer) :
    Alike { s with blockBuffer := buffer } { t with blockBuffer := buffer' } :=
  ⟨hAlike.sectorsPerBlock, hAlike.superBlockIdx, hAlike.info, hAlike.cache, hAlike.device⟩

theorem Sized.count_mul (h : Sized s) :
    s.sectorsPerBlock * 1 % 4294967296 * sectorSizeBytes = s.info.blockSize := by
  rw [Nat.mul_one, Nat.mod_eq_of_lt h.sectors_lt, h.mul]

/-- A block is written from its bytes of the buffer. -/
theorem Alike.writeBlock (h : Sized s) (hAlike : Alike s t) {buffer buffer' : Buffer}
    (hSame : ∀ i < s.info.blockSize, buffer' i = buffer i) (b : Nat) :
    Alike (writeStorage buffer b 1 s) (writeStorage buffer' b 1 t) := by
  refine ⟨hAlike.sectorsPerBlock, hAlike.superBlockIdx, hAlike.info, hAlike.cache, ?_⟩
  simp only [writeStorage]
  rw [hAlike.sectorsPerBlock, hAlike.info, hAlike.device]
  apply writeSectors_congr
  rw [h.count_mul]
  exact hSame

/-- A block that is prepared in the block buffer and written. -/
theorem Alike.writePrepared (h : Sized s) (hAlike : Alike s t) {buffer buffer' content : Buffer}
    (hBuffer : ∀ i < s.info.blockSize, buffer i = content i)
    (hBuffer' : ∀ i < t.info.blockSize, buffer' i = content i) (b : Nat) :
    Alike (writeStorage buffer b 1 { s with blockBuffer := buffer })
      (writeStorage buffer' b 1 { t with blockBuffer := buffer' }) := by
  rw [hAlike.info] at hBuffer'
  apply Alike.writeBlock (h.touched (blockBuffer_touched s buffer)) (hAlike.blockBuffer _ _)
  intro i hi
  exact (hBuffer' i hi).trans (hBuffer i hi).symm

theorem Alike.writeStorage (hAlike : Alike s t) (buffer : Buffer) (b n : Nat) :
    Alike (writeStorage buffer b n s) (writeStorage buffer b n t) := by
  refine ⟨hAlike.sectorsPerBlock, hAlike.superBlockIdx, hAlike.info, hAlike.cache, ?_⟩
  simp only [Ext2.writeStorage]
  rw [hAlike.sectorsPerBlock, hAlike.info, hAlike.device]

/-- What is read of a block does not depend on the buffer. -/
theorem Alike.readBlock (h : Sized s) (hAlike : Alike s t) (buffer buffer' : Buffer) (b : Nat) :
    (∀ i < s.info.blockSize, (readStorage buffer' b 1 t).1 i = (readStorage buffer b 1 s).1 i) ∧
      Alike (readStorage buffer b 1 s).2 (readStorage buffer' b 1 t).2 := by
  simp only [readStorage]
  rw [hAlike.sectorsPerBlock, hAlike.info, hAlike.device]
  refine ⟨?_, rfl, hAlike.superBlockIdx, rfl, hAlike.cache,
    (readSectors_congr buffer buffer' s.device).2⟩
  intro i hi
  apply (readSectors_congr buffer buffer' s.device).1
  rwa [h.count_mul]

theorem Alike.readStorage (hAlike : Alike s t) (buffer : Buffer) (b n : Nat) :
    (readStorage buffer b n t).1 = (readStorage buffer b n s).1 ∧
      Alike (readStorage buffer b n s).2 (readStorage buffer b n t).2 := by
  simp only [Ext2.readStorage]
  rw [hAlike.sectorsPerBlock, hAlike.info, hAlike.device]
  exact ⟨rfl, rfl, hAlike.superBlockIdx, rfl, hAlike.cache, rfl⟩

theorem Alike.zeroBuffer (hAlike : Alike s t) : Alike (zeroBuffer s) (zeroBuffer t) :=
  hAlike.blockBuffer _ _

theorem Alike.zeroBlock (h : Sized s) (hAlike : Alike s t) (b : Nat) :
    Alike (zeroBlock b s) (zeroBlock b t) := by
  have hZero : ∀ w : Volume, ∀ i < w.info.blockSize,
      (Ext2.zeroBuffer w).blockBuffer i = (fun _ => 0 : Buffer) i :=
    fun w i hi => memset_of_mem (Nat.zero_le i) (by omega)
  exact hAlike.writePrepared h (hZero s) (hZero t) b

theorem Alike.writeObjectToBlock (h : Sized s) (hAlike : Alike s t) (obj : Buffer)
    (b objSize : Nat) :
    Alike (writeObjectToBlock obj b objSize s) (writeObjectToBlock obj b objSize t) := by
  apply hAlike.writePrepared h
  · intro i hi
    exact prepared_apply s.blockBuffer obj objSize hi
  · intro i hi
    exact prepared_apply t.blockBuffer obj objSize hi

theorem Alike.readObjectFromBlock (h : Sized s) (hAlike : Alike s t) (dst : Buffer) (b : Nat)
    (hSize : objSize ≤ s.info.blockSize) :
    (readObjectFromBlock dst b objSize t).1 = (readObjectFromBlock dst b objSize s).1 ∧
      Alike (readObjectFromBlock dst b objSize s).2 (readObjectFromBlock dst b objSize t).2 := by
  obtain ⟨hBytes, hRest⟩ := Alike.readBlock (h.touched (zeroBuffer_touched s)) hAlike.zeroBuffer
    (Ext2.zeroBuffer s).blockBuffer (Ext2.zeroBuffer t).blockBuffer b
  refine ⟨?_, hRest.blockBuffer _ _⟩
  apply memcpy_congr
  intro i hi
  exact hBytes i (Nat.lt_of_lt_of_le hi hSize)

/-! ## Groups and files -/

/-- Two operations on blocks leave the superblocks as alike as they were. -/
theorem globalSuperBlock_touched {s' t' : Volume} (hFirst : Touched s s') (hSecond : Touched t t')
    (hSuper : t.globalSuperBlock = s.globalSuperBlock) :
    t'.globalSuperBlock = s'.globalSuperBlock := by
  rw [hFirst.globalSuperBlock, hSecond.globalSuperBlock, hSuper]

theorem Alike.createBlockGroup (h : Sized s) (hAlike : Alike s t) (unused : BitVec 14) (n : Nat) :
    (createBlockGroup unused n t).1 = (createBlockGroup unused n s).1 ∧
      Alike (createBlockGroup unused n s).2 (createBlockGroup unused n t).2 := by
  let d := BlockGroupDescriptor.create unused n s.info
  have h₁ := h.touched (writeObjectToBlock_touched s d.bytes n sizeofBlockGroupDescriptor)
  have h₂ := h₁.touched (zeroBlock_touched _ d.blockBitmapBlock.toNat)
  have h₃ := h₂.touched (zeroBlock_touched _ d.inodeBitmapBlock.toNat)
  have hDescriptor := hAlike.writeObjectToBlock h d.bytes n sizeofBlockGroupDescriptor
  have hBlock := hDescriptor.zeroBlock h₁ d.blockBitmapBlock.toNat
  have hInode := hBlock.zeroBlock h₂ d.inodeBitmapBlock.toNat
  have hTable := hInode.zeroBlock h₃ d.inodeTableStartBlock.toNat
  simp only [Ext2.createBlockGroup, hAlike.info]
  exact ⟨trivial, hTable⟩

theorem Alike.readDescriptor (h : Sized s) (hAlike : Alike s t) (n : Nat) :
    (readDescriptor n t).1 = (readDescriptor n s).1 ∧
      Alike (readDescriptor n s).2 (readDescriptor n t).2 := by
  obtain ⟨hObj, hRest⟩ := hAlike.readObjectFromBlock h (fun _ => 0) n h.descriptor_le
  exact ⟨congrArg BlockGroupDescriptor.ofBytes hObj, hRest⟩

/-- Both bitmaps are read into new memory. -/
theorem Alike.readBitmaps (hAlike : Alike s t) (hSuper : t.globalSuperBlock = s.globalSuperBlock)
    (h : readBitmaps d s = some (bg, v)) :
    ∃ v', readBitmaps d t = some (bg, v') ∧ Alike v v' := by
  obtain ⟨hBlock, hFirst⟩ := hAlike.readStorage (fun _ => 0) d.blockBitmapBlock.toNat 1
  obtain ⟨hInode, hSecond⟩ := hFirst.readStorage (fun _ => 0) d.inodeBitmapBlock.toNat 1
  have hSize := (readBitmaps_touched h).2
  rw [Ext2.readBitmaps, if_pos hSize] at h
  obtain ⟨rfl, rfl⟩ := Prod.mk.inj (Option.some.inj h)
  refine ⟨_, ?_, hSecond⟩
  rw [Ext2.readBitmaps, if_pos (by rw [hAlike.info]; exact hSize)]
  simp only [hBlock, hInode, hSuper, hAlike.info]

theorem Alike.getBlockGroup (h : Sized s) (hAlike : Alike s t)
    (hSuper : t.globalSuperBlock = s.globalSuperBlock)
    (hGet : getBlockGroup unused n true s = some (bg, v)) :
    ∃ v', getBlockGroup unused n true t = some (bg, v') ∧ Alike v v' := by
  obtain ⟨hDescriptor, hRead⟩ := hAlike.readDescriptor h n
  have hTouched := readDescriptor_touched s n
  have hSuper' := globalSuperBlock_touched hTouched (readDescriptor_touched t n) hSuper
  by_cases hMissing : (Ext2.readDescriptor n s).1.Missing
  · rw [Ext2.getBlockGroup, if_pos hMissing, if_pos rfl] at hGet
    obtain ⟨hNew, hCreate⟩ := hRead.createBlockGroup (h.touched hTouched) unused n
    have hSuperNew := globalSuperBlock_touched
      (createBlockGroup_touched (Ext2.readDescriptor n s).2 unused n)
      (createBlockGroup_touched (Ext2.readDescriptor n t).2 unused n) hSuper'
    rw [Ext2.getBlockGroup, hDescriptor, if_pos hMissing, if_pos rfl]
    dsimp only
    rw [hNew]
    exact hCreate.readBitmaps hSuperNew hGet
  · rw [Ext2.getBlockGroup, if_neg hMissing] at hGet
    rw [Ext2.getBlockGroup, hDescriptor, if_neg hMissing]
    exact hRead.readBitmaps hSuper' hGet

theorem Alike.bytesToBlocks (hAlike : Alike s t)
    (hSuper : t.globalSuperBlock = s.globalSuperBlock) :
    bytesToBlocks t t.info.blockSize = bytesToBlocks s s.info.blockSize := by
  rw [Ext2.bytesToBlocks, Ext2.bytesToBlocks, hSuper, hAlike.info]

/-- The end of `_write_block_group`: the block of the inode is read, patched and written back. -/
theorem Alike.patchInode (h : Sized s) (hAlike : Alike s t) (inode : Buffer) (b off : Nat) :
    let patched (w : Volume) :=
      memcpy (memset (Ext2.readStorage w.blockBuffer b 1 w).1 off 0 sizeofInode) off inode
        sizeofInode
    Alike
      (Ext2.writeStorage (patched s) b 1
        { (Ext2.readStorage s.blockBuffer b 1 s).2 with blockBuffer := patched s })
      (Ext2.writeStorage (patched t) b 1
        { (Ext2.readStorage t.blockBuffer b 1 t).2 with blockBuffer := patched t }) := by
  intro patched
  obtain ⟨hBytes, hRead⟩ := hAlike.readBlock h s.blockBuffer t.blockBuffer b
  have hTouched := (readStorage_touched s b 1 s.blockBuffer).trans
    (blockBuffer_touched _ (patched s))
  apply Alike.writeBlock (h.touched hTouched) (hRead.blockBuffer _ _)
  intro i hi
  simp only [patched, memcpy, memset, hBytes i hi]

theorem Alike.writeBlockGroup (h : Sized s) (hAlike : Alike s t)
    (hSuper : t.globalSuperBlock = s.globalSuperBlock) (bg : BlockGroupTable) (n : Nat)
    (inode : Buffer) (idx : Nat) :
    Alike (writeBlockGroup bg n inode idx s) (writeBlockGroup bg n inode idx t) := by
  have h₁ := h.touched (writeObjectToBlock_touched s bg.groupDescriptor.bytes n
    sizeofBlockGroupDescriptor)
  have hDescriptor := hAlike.writeObjectToBlock h bg.groupDescriptor.bytes n
    sizeofBlockGroupDescriptor
  have hBlock := hDescriptor.writeStorage bg.blockBitmap bg.groupDescriptor.blockBitmapBlock.toNat
    (Ext2.bytesToBlocks s s.info.blockSize)
  have h₂ := h₁.touched (writeStorage_touched _ bg.groupDescriptor.blockBitmapBlock.toNat
    (Ext2.bytesToBlocks s s.info.blockSize) bg.blockBitmap)
  have hInode := hBlock.writeStorage bg.inodeBitmap bg.groupDescriptor.inodeBitmapBlock.toNat
    (Ext2.bytesToBlocks s s.info.blockSize)
  have h₃ := h₂.touched (writeStorage_touched _ bg.groupDescriptor.inodeBitmapBlock.toNat
    (Ext2.bytesToBlocks s s.info.blockSize) bg.inodeBitmap)
  have hPatch := hInode.patchInode h₃ inode
    (bg.groupDescriptor.inodeTableStartBlock.toNat + inodeIdxContainingBlock s idx)
    (sizeofInode * (idx % 4))
  have hBlocks := hAlike.bytesToBlocks hSuper
  have hContaining : inodeIdxContainingBlock t idx = inodeIdxContainingBlock s idx := by
    rw [inodeIdxContainingBlock, inodeIdxContainingBlock, hSuper]
  dsimp only at hPatch
  conv at hPatch => arg 2; rw [← hBlocks, ← hContaining]
  exact hPatch

theorem writeBlockGroup_touched (s : Volume) (bg : BlockGroupTable) (n : Nat) (inode : Buffer)
    (idx : Nat) : Touched s (writeBlockGroup bg n inode idx s) := by
  unfold Ext2.writeBlockGroup
  refine Touched.trans ?_ (writeStorage_touched _ _ 1 _)
  refine Touched.trans ?_ (blockBuffer_touched _ _)
  refine Touched.trans ?_ (readStorage_touched _ _ 1 _)
  refine Touched.trans ?_ (writeStorage_touched _ _ _ _)
  refine Touched.trans ?_ (writeStorage_touched _ _ _ _)
  exact writeObjectToBlock_touched s _ n sizeofBlockGroupDescriptor

theorem createFile_kept (h : createFile unused filename s = some (idx, v)) : Kept s v := by
  obtain ⟨k, hAvailable, hRest⟩ := Option.bind_eq_some_iff.mp h
  by_cases hAccept : filename.length < filenameLength ∧ Divisible s
  · rw [if_pos hAccept] at hRest
    obtain ⟨⟨bg, w⟩, hGet, hPair⟩ := Option.map_eq_some_iff.mp hRest
    obtain ⟨rfl, rfl⟩ := Prod.mk.inj hPair
    have hEntered : Kept w { w with cache := setFileInode w.cache (k - 1) k filename } :=
      ⟨rfl, rfl, rfl, rfl⟩
    exact ((getBlockGroup_touched hGet).1.kept.trans hEntered).trans
      (writeBlockGroup_touched _ _ _ _ _).kept
  · rw [if_neg hAccept] at hRest
    exact absurd hRest (by simp)

/-- A call does not depend on what was in the block buffer. -/
theorem Alike.createFile (h : Sized s) (hAlike : Alike s t)
    (hSuper : t.globalSuperBlock = s.globalSuperBlock)
    (hCreate : createFile unused filename s = some (idx, v)) :
    ∃ v', createFile unused filename t = some (idx, v') ∧ Alike v v' := by
  obtain ⟨k, hAvailable, hRest⟩ := Option.bind_eq_some_iff.mp hCreate
  by_cases hAccept : filename.length < filenameLength ∧ Divisible s
  · rw [if_pos hAccept] at hRest
    obtain ⟨⟨bg, w⟩, hGet, hPair⟩ := Option.map_eq_some_iff.mp hRest
    obtain ⟨rfl, rfl⟩ := Prod.mk.inj hPair
    have hAvailable' : getAvailableInodeIdx t = some k := by
      rw [getAvailableInodeIdx, hAlike.cache]
      exact hAvailable
    have hGroup : inodeIdxToBlockGroup t k = inodeIdxToBlockGroup s k := by
      rw [inodeIdxToBlockGroup, inodeIdxToBlockGroup, hSuper, hAlike.superBlockIdx]
    have hInGroup : inodeIdxInBlockGroup t k = inodeIdxInBlockGroup s k := by
      rw [inodeIdxInBlockGroup, inodeIdxInBlockGroup, hSuper]
    obtain ⟨w', hGet', hAfter⟩ := hAlike.getBlockGroup h hSuper hGet
    have hTouched := (getBlockGroup_touched hGet).1
    have hTouched' := (getBlockGroup_touched hGet').1
    have hSized := h.touched hTouched
    have hEntered : Alike { w with cache := setFileInode w.cache (k - 1) k filename }
        { w' with cache := setFileInode w'.cache (k - 1) k filename } := by
      refine ⟨hAfter.sectorsPerBlock, hAfter.superBlockIdx, hAfter.info, ?_, hAfter.device⟩
      rw [hAfter.cache]
    have hSuper' := globalSuperBlock_touched hTouched hTouched' hSuper
    have hSized' : Sized { w with cache := setFileInode w.cache (k - 1) k filename } :=
      ⟨hSized.pos, hSized.aligned, hSized.sectors⟩
    have hWrite := hEntered.writeBlockGroup hSized' hSuper'
      { bg with inodeBitmap := Function.update bg.inodeBitmap (inodeIdxInBlockGroup s k) 1 }
      (inodeIdxToBlockGroup s k) newInode k
    refine ⟨_, ?_, hWrite⟩
    have hAccept' : filename.length < filenameLength ∧ Divisible t := by
      rw [Divisible, hSuper]
      exact hAccept
    rw [Ext2.createFile, hAvailable', Option.bind_some, if_pos hAccept']
    simp only [hGroup, hInGroup, hGet', Option.map_some]
  · rw [if_neg hAccept] at hRest
    exact absurd hRest (by simp)

/-- What the constructor sets. -/
theorem mount_statics {descriptor : FsDescriptor} (h : mount descriptor unused s = some v) :
    v.info = descriptor ∧ v.sectorsPerBlock = descriptor.blockSize / sectorSizeBytes ∧
      v.superBlockIdx = descriptor.superBlockIdx ∧
      v.globalSuperBlock = .create descriptor.superBlockIdx descriptor := by
  by_cases hAligned : descriptor.blockSize % sectorSizeBytes = 0
  · rw [mount, if_pos hAligned] at h
    obtain ⟨⟨sb, w⟩, hSuper, hRest⟩ := Option.bind_eq_some_iff.mp h
    obtain ⟨⟨bg, u⟩, hGet, rfl⟩ := Option.map_eq_some_iff.mp hRest
    obtain ⟨rfl, rfl⟩ := Prod.mk.inj (Option.some.inj hSuper)
    have hTouched := (getBlockGroup_touched hGet).1
    exact ⟨hTouched.info, hTouched.sectorsPerBlock, hTouched.superBlockIdx,
      hTouched.globalSuperBlock⟩
  · rw [mount, if_neg hAligned] at h
    exact absurd h (by simp)

/-- A constructor depends on the device and on the memory of the object only. -/
theorem mount_alike {descriptor : FsDescriptor} (hCache : t.cache = s.cache)
    (hDevice : t.device = s.device) (h : mount descriptor unused s = some v) :
    ∃ v', mount descriptor unused t = some v' ∧ Alike v v' := by
  obtain ⟨-, hPos, hAligned⟩ := used_mount h
  rw [mount, if_pos hAligned] at h
  obtain ⟨⟨sb, w⟩, hSuper, hRest⟩ := Option.bind_eq_some_iff.mp h
  obtain ⟨⟨bg, u⟩, hGet, rfl⟩ := Option.map_eq_some_iff.mp hRest
  obtain ⟨rfl, rfl⟩ := Prod.mk.inj (Option.some.inj hSuper)
  let start (w : Volume) : Volume := { w with
    info := descriptor
    cache := memset w.cache 0 0 (sizeofFileInode * maxFiles)
    sectorsPerBlock := descriptor.blockSize / sectorSizeBytes
    superBlockIdx := descriptor.superBlockIdx }
  have hStart : Alike (start s) (start t) := by
    refine ⟨rfl, rfl, rfl, ?_, hDevice⟩
    show memset t.cache 0 0 _ = _
    rw [hCache]
  have hSized : Sized (start s) := ⟨hPos, hAligned, rfl⟩
  obtain ⟨-, hRead⟩ := hStart.readObjectFromBlock hSized (fun _ => 0) superBlockBlock
    hSized.superBlock_le
  have hReadSized := hSized.touched (readObjectFromBlock_touched (start s) (fun _ => 0)
    superBlockBlock sizeofSuperBlock)
  have hWrite := hRead.writeObjectToBlock hReadSized
    (SuperBlock.create descriptor.superBlockIdx descriptor).bytes superBlockBlock sizeofSuperBlock
  let mounted (w : Volume) : Volume :=
    { Ext2.writeObjectToBlock (SuperBlock.create descriptor.superBlockIdx descriptor).bytes
        superBlockBlock sizeofSuperBlock
        (Ext2.readObjectFromBlock (fun _ => 0) superBlockBlock sizeofSuperBlock (start w)).2 with
      globalSuperBlock := .create descriptor.superBlockIdx descriptor }
  have hMounted : Alike (mounted s) (mounted t) :=
    ⟨hWrite.sectorsPerBlock, hWrite.superBlockIdx, hWrite.info, hWrite.cache, hWrite.device⟩
  obtain ⟨u', hGet', hAfter⟩ := hMounted.getBlockGroup ⟨hPos, hAligned, rfl⟩ rfl hGet
  refine ⟨{ u' with cache := setFileInode u'.cache 0 1 rootName }, ?_, ?_⟩
  · rw [mount, if_pos hAligned]
    refine Option.bind_eq_some_iff.mpr ⟨_, rfl, ?_⟩
    exact Option.map_eq_some_iff.mpr ⟨(bg, u'), hGet', rfl⟩
  · refine ⟨hAfter.sectorsPerBlock, hAfter.superBlockIdx, hAfter.info, ?_, hAfter.device⟩
    show setFileInode u'.cache 0 1 rootName = setFileInode u.cache 0 1 rootName
    rw [hAfter.cache]

end Juos.Ext2
