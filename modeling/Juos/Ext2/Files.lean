import Juos.Ext2.Groups
import Juos.Machine.Run

/-!
# Creating files

`_get_available_inode_idx` looks for the first free entry of the cache, while the bit of an inode
is on disk. Within one mount the two agree: `FirstGroup s u` says that the first `u` entries of the
cache are in use, and that of the inode bitmap the bytes of all but the root's are set.

`createFiles_onDisk`: after any run of calls that the first group has inodes for, the disk shows
exactly the files that were created.
-/

namespace Juos.Ext2

open Machine

variable {s t v : Volume} {n u i j idx : Nat} {cache bitmap : Buffer} {filename : List UInt8}

/-! ## The cache -/

/-- The first `u` entries of the cache are in use. -/
def Used (cache : Buffer) (u : Nat) : Prop :=
  ∀ i < maxFiles, cachedInodeIdx cache i = 0 ↔ u ≤ i

theorem availableInodeIdx_of_used (h : Used s.cache u) (hu : u < maxFiles) :
    getAvailableInodeIdx s = some (u + 1) := by
  have hFind : (List.range maxFiles).find? (fun i => cachedInodeIdx s.cache i = 0) = some u := by
    rw [List.find?_range_eq_some]
    refine ⟨decide_eq_true ((h u hu).mpr (Nat.le_refl u)), List.mem_range.mpr hu, fun i hi => ?_⟩
    have hUsed := (h i (Nat.lt_trans hi hu)).not.mpr (Nat.not_le_of_lt hi)
    rw [decide_eq_false hUsed]
    rfl
  rw [getAvailableInodeIdx, hFind]
  rfl

/-- The bytes of an entry's index lie behind the longest name of the entry before. -/
theorem cachedInodeIdx_setFileInode_of_ne (hne : j ≠ i) (hLen : filename.length < filenameLength) :
    cachedInodeIdx (setFileInode cache i idx filename) j = cachedInodeIdx cache j := by
  unfold filenameLength at hLen
  unfold cachedInodeIdx setFileInode sizeofFileInode
  apply word_congr
  intro k hk
  rw [memcpy_of_not_mem (by omega), memcpy_of_not_mem (by omega)]

theorem cachedInodeIdx_setFileInode_self (hLen : filename.length ≤ 256) (hIdx : idx < 4294967296) :
    cachedInodeIdx (setFileInode cache i idx filename) i = idx := by
  unfold cachedInodeIdx setFileInode sizeofFileInode
  have hWord : word (memcpy (memcpy cache (260 * i + 256) (le idx) 4) (260 * i)
      (fun k => filename.getD k 0) filename.length) (260 * i + 256) 4 = word (le idx) 0 4 := by
    apply word_congr
    intro k hk
    rw [memcpy_of_not_mem (by omega), memcpy_of_mem (by omega) (by omega), Nat.zero_add,
      Nat.add_sub_cancel_left]
  rw [hWord, word_le, Nat.pow_zero, Nat.div_one]
  exact Nat.mod_eq_of_lt hIdx

/-- A name may run over the index of its own entry, but what it leaves there is not zero. -/
theorem cachedInodeIdx_setFileInode_ne_zero (hString : (0 : UInt8) ∉ filename) (hPos : 0 < idx)
    (hIdx : idx < 4294967296) : cachedInodeIdx (setFileInode cache i idx filename) i ≠ 0 := by
  rcases Nat.lt_or_ge 256 filename.length with hLong | hShort
  · have hByte : setFileInode cache i idx filename (260 * i + 256) ≠ 0 := by
      unfold setFileInode sizeofFileInode
      rw [memcpy_of_mem (by omega) (by omega), Nat.add_sub_cancel_left,
        List.getD_eq_getElem?_getD, List.getElem?_eq_getElem hLong, Option.getD_some]
      exact fun hZero => hString (hZero ▸ List.getElem_mem hLong)
    have hNat : (setFileInode cache i idx filename (260 * i + 256)).toNat ≠ 0 :=
      fun hZero => hByte (UInt8.toNat_inj.mp hZero)
    unfold cachedInodeIdx sizeofFileInode
    rw [word]
    omega
  · rw [cachedInodeIdx_setFileInode_self hShort hIdx]
    exact Nat.ne_of_gt hPos

theorem used_setFileInode (h : Used cache u) (hLen : filename.length < filenameLength)
    (hSelf : cachedInodeIdx (setFileInode cache u (u + 1) filename) u ≠ 0) :
    Used (setFileInode cache u (u + 1) filename) (u + 1) := by
  intro i hi
  rcases eq_or_ne i u with rfl | hne
  · exact ⟨fun hZero => absurd hZero hSelf, fun hLe => absurd hLe (Nat.not_succ_le_self i)⟩
  · rw [cachedInodeIdx_setFileInode_of_ne hne hLen, h i hi]
    omega

/-- The cache of a new `Fs`: cleared, with the root in its first entry. -/
theorem used_root (cache : Buffer) :
    Used (setFileInode (memset cache 0 0 (sizeofFileInode * maxFiles)) 0 1 rootName) 1 := by
  have hClear : Used (memset cache 0 0 (sizeofFileInode * maxFiles)) 0 := by
    intro i hi
    unfold maxFiles at hi
    refine ⟨fun _ => Nat.zero_le i, fun _ => word_eq_zero fun k hk => ?_⟩
    unfold sizeofFileInode maxFiles
    exact memset_of_mem (Nat.zero_le _) (by omega)
  apply used_setFileInode hClear (by decide)
  rw [cachedInodeIdx_setFileInode_self (by decide) (by decide)]
  decide

theorem eq_of_availableInodeIdx (h : Used s.cache u) (hSome : getAvailableInodeIdx s = some idx) :
    u < maxFiles ∧ idx = u + 1 := by
  obtain ⟨i, hFind, rfl⟩ := Option.map_eq_some_iff.mp hSome
  obtain ⟨hFree, hMem, hFirst⟩ := List.find?_range_eq_some.mp hFind
  have hi := List.mem_range.mp hMem
  have hLe : u ≤ i := (h i hi).mp (of_decide_eq_true hFree)
  rcases Nat.eq_or_lt_of_le hLe with rfl | hLt
  · exact ⟨hi, rfl⟩
  · have hUsed := (h u (Nat.lt_trans hLt hi)).mpr (Nat.le_refl u)
    have hNot := hFirst u hLt
    rw [decide_eq_true hUsed] at hNot
    exact absurd hNot (by decide)

/-- Whatever the device holds, `CreateFile` hands out the index behind the used entries. -/
theorem used_createFile {unused : BitVec 14} (h : Used s.cache u)
    (hString : (0 : UInt8) ∉ filename) (hCreate : createFile unused filename s = some (idx, t)) :
    u < maxFiles ∧ filename.length < filenameLength ∧ idx = u + 1 ∧ Used t.cache (u + 1) := by
  obtain ⟨k, hAvailable, hRest⟩ := Option.bind_eq_some_iff.mp hCreate
  obtain ⟨hu, rfl⟩ := eq_of_availableInodeIdx h hAvailable
  by_cases hAccept : filename.length < filenameLength ∧ Divisible s
  · rw [if_pos hAccept] at hRest
    obtain ⟨⟨bg, v⟩, hGet, hPair⟩ := Option.map_eq_some_iff.mp hRest
    obtain ⟨rfl, rfl⟩ := Prod.mk.inj hPair
    refine ⟨hu, hAccept.1, rfl, ?_⟩
    show Used (setFileInode v.cache u (u + 1) filename) (u + 1)
    rw [(getBlockGroup_touched hGet).1.cache]
    unfold maxFiles at hu
    apply used_setFileInode h hAccept.1
    exact cachedInodeIdx_setFileInode_ne_zero hString (Nat.succ_pos u) (by omega)
  · rw [if_neg hAccept] at hRest
    exact absurd hRest (by simp)

/-- Whatever the device holds, a new `Fs` knows the root only, and its block size was accepted. -/
theorem used_mount {descriptor : FsDescriptor} {unused : BitVec 14}
    (h : mount descriptor unused s = some t) :
    Used t.cache 1 ∧ 0 < descriptor.blockSize ∧ descriptor.blockSize % sectorSizeBytes = 0 := by
  by_cases hAligned : descriptor.blockSize % sectorSizeBytes = 0
  · rw [mount, if_pos hAligned] at h
    obtain ⟨⟨sb, v⟩, hSuper, hRest⟩ := Option.bind_eq_some_iff.mp h
    obtain ⟨⟨bg, w⟩, hGet, rfl⟩ := Option.map_eq_some_iff.mp hRest
    obtain ⟨hTouched, hSize⟩ := getBlockGroup_touched hGet
    obtain ⟨-, rfl⟩ := Prod.mk.inj (Option.some.inj hSuper)
    refine ⟨?_, Nat.pos_of_ne_zero hSize, hAligned⟩
    show Used (setFileInode w.cache 0 1 rootName) 1
    rw [hTouched.cache]
    exact used_root s.cache
  · rw [mount, if_neg hAligned] at h
    exact absurd h (by simp)

/-! ## One call of `CreateFile` -/

/-- An inode is written to the table of its group, behind the bitmaps: the group is as before but
for the bit of the inode, and so are all blocks that are not the group's. -/
theorem groupAt_write {bg : BlockGroupTable} (inode : Buffer) (h : Mounted s)
    (hGroup : GroupAt s.info.blockSize s.device.bytes n bitmap) (hLoaded : Loaded s bg n)
    (hIdx : idx ≤ maxFiles) (hTable : n + 2 < (n + 3) % 16 + inodeIdxContainingBlock s idx) :
    let bg' := { bg with inodeBitmap := Function.update bg.inodeBitmap i 1 }
    Touched s (writeBlockGroup bg' n inode idx s) ∧
      GroupAt s.info.blockSize (writeBlockGroup bg' n inode idx s).device.bytes n
        (Function.update bitmap i 1) ∧
      ∀ c, c ≠ n → c ≠ n + 1 → c ≠ n + 2 →
        c ≠ (n + 3) % 16 + inodeIdxContainingBlock s idx → ∀ k < s.info.blockSize,
          block s.info.blockSize (writeBlockGroup bg' n inode idx s).device.bytes c k =
            block s.info.blockSize s.device.bytes c k := by
  intro bg'
  have hFits := hGroup.fits
  have hBlock := hGroup.blockBitmapBlock
  have hInode := hGroup.inodeBitmapBlock
  have hStart := hGroup.inodeTableStartBlock
  rw [hLoaded.descriptor] at hBlock hInode hStart
  have hContaining := containingBlock_le h hIdx
  have hLt : bg'.groupDescriptor.inodeTableStartBlock.toNat + inodeIdxContainingBlock s idx <
      512 := by
    show bg.groupDescriptor.inodeTableStartBlock.toNat + _ < 512
    omega
  obtain ⟨hTouched, hBytes⟩ :=
    writeBlockGroup_spec h bg' inode (by omega : n < 512) hLt
  have hBytes' : (writeBlockGroup bg' n inode idx s).device.bytes =
      memcpy (putBlock s.info.blockSize (putBlock s.info.blockSize (putBlock s.info.blockSize
        s.device.bytes n (padded bg.groupDescriptor.bytes sizeofBlockGroupDescriptor)) (n + 1)
        bg.blockBitmap) (n + 2) (Function.update bg.inodeBitmap i 1))
        (inodeSlot s ((n + 3) % 16) idx) inode sizeofInode := by
    rw [hBytes, ← hBlock, ← hInode, ← hStart]
  have hDescriptor : descriptorAt s.info.blockSize
      (writeBlockGroup bg' n inode idx s).device.bytes n = bg.groupDescriptor := by
    apply descriptorAt_padded _ h.descriptor_le
    intro k hk
    rw [hBytes', block_slot_of_ne h.toSized (by omega) hk, block_putBlock_of_ne (by omega) hk,
      block_putBlock_of_ne (by omega) hk, block_putBlock_self hk]
  refine ⟨hTouched, ⟨hGroup.pos, hFits, ?_, ?_, ?_, fun k hk => ?_, fun k hk => ?_⟩, ?_⟩
  · rw [hDescriptor, hBlock]
  · rw [hDescriptor, hInode]
  · rw [hDescriptor, hStart]
  · rw [hBytes', block_slot_of_ne h.toSized (by omega) hk, block_putBlock_of_ne (by omega) hk,
      block_putBlock_self hk, hLoaded.blockBitmap k hk, hBlock, hGroup.blockBitmap k hk]
  · rw [hBytes', block_slot_of_ne h.toSized (by omega) hk, block_putBlock_self hk,
      Function.update_apply, Function.update_apply, hLoaded.inodeBitmap k hk, hInode,
      hGroup.inodeBitmap k hk]
  · intro c hne hneBlock hneInode hneTable k hk
    rw [hBytes', block_slot_of_ne h.toSized hneTable hk, block_putBlock_of_ne hneInode hk,
      block_putBlock_of_ne hneBlock hk, block_putBlock_of_ne hne hk]

theorem containingBlock_kept (h : Kept s t) (idx : Nat) :
    inodeIdxContainingBlock t idx = inodeIdxContainingBlock s idx := by
  unfold inodeIdxContainingBlock
  rw [h.globalSuperBlock]

theorem createFile_spec (unused : BitVec 14) (h : Mounted s) (hUsed : Used s.cache u)
    (hu : u < maxFiles) (hLen : filename.length < filenameLength)
    (hGroup : inodeIdxToBlockGroup s (u + 1) = n)
    (hObtain : ∃ bg v, getBlockGroup unused n true s = some (bg, v) ∧ Obtained s n bitmap bg v)
    (hTable : n + 2 < (n + 3) % 16 + inodeIdxContainingBlock s (u + 1)) :
    ∃ t, createFile unused filename s = some (u + 1, t) ∧ Kept s t ∧
      GroupAt s.info.blockSize t.device.bytes n
        (Function.update bitmap (inodeIdxInBlockGroup s (u + 1)) 1) ∧
      ∀ c, c ≠ n → c ≠ n + 1 → c ≠ n + 2 → c ≠ (n + 3) % 16 →
        c ≠ (n + 3) % 16 + inodeIdxContainingBlock s (u + 1) → ∀ k < s.info.blockSize,
          block s.info.blockSize t.device.bytes c k =
            block s.info.blockSize s.device.bytes c k := by
  obtain ⟨bg, v, hGet, hObtained⟩ := hObtain
  let w : Volume := { v with cache := setFileInode v.cache u (u + 1) filename }
  have hKept : Kept s w := hObtained.touched.kept.trans ⟨rfl, rfl, rfl, rfl⟩
  have hLoaded : Loaded w bg n :=
    ⟨hObtained.loaded.descriptor, hObtained.loaded.blockBitmap, hObtained.loaded.inodeBitmap⟩
  have hContaining := containingBlock_kept hKept (u + 1)
  obtain ⟨hTouched, hAt, hOthers⟩ := groupAt_write (i := inodeIdxInBlockGroup s (u + 1))
    newInode (h.kept hKept) hObtained.group hLoaded (Nat.succ_le_of_lt hu)
    (hContaining ▸ hTable)
  have hInfo : w.info = s.info := hKept.info
  rw [hContaining] at hOthers
  rw [hInfo] at hAt hOthers
  refine ⟨_, ?_, hKept.trans hTouched.kept, hAt, fun c h₀ h₁ h₂ h₃ h₄ k hk => ?_⟩
  · rw [createFile, availableInodeIdx_of_used hUsed hu, Option.bind_some,
      if_pos ⟨hLen, h.divisible⟩]
    simp only [hGroup, hGet, Option.map_some]
    rfl
  · rw [hOthers c h₀ h₁ h₂ h₄ k hk]
    exact hObtained.others c h₀ h₁ h₂ h₃ k hk

/-! ## Files of the first group -/

/-- The root and the files `2`, ..., `u` exist and are in the first group. -/
structure FirstGroup (s : Volume) (u : Nat) : Prop where
  mounted : Mounted s
  pos : 1 ≤ u
  used : Used s.cache u
  group : GroupAt s.info.blockSize s.device.bytes (s.superBlockIdx + 1)
    fun i => if 1 ≤ i ∧ i < u then 1 else 0

theorem firstGroup_idx (h : Mounted s) (hIdx : s.superBlockIdx ≤ 11)
    (hSize : u < s.info.blockSize) (hu : u < maxFiles) :
    inodeIdxToBlockGroup s (u + 1) = s.superBlockIdx + 1 ∧ inodeIdxInBlockGroup s (u + 1) = u := by
  have hFile : FileIdx (u + 1) := ⟨Nat.succ_pos u, hu⟩
  constructor
  · rw [blockGroup_eq h hFile, Nat.add_sub_cancel, Nat.div_eq_of_lt hSize]
    omega
  · unfold maxFiles at hu
    rw [inodeIdxInBlockGroup, h.groupInodeSize,
      show (u + 1 + 4294967295) % 4294967296 = u by omega]
    exact Nat.mod_eq_of_lt hSize

theorem firstGroup_create (unused : BitVec 14) (filename : List UInt8) (h : FirstGroup s u)
    (hIdx : s.superBlockIdx ≤ 11) (hSize : u < s.info.blockSize) (hu : u < maxFiles)
    (hLen : filename.length < filenameLength) (hString : (0 : UInt8) ∉ filename) :
    ∃ t, createFile unused filename s = some (u + 1, t) ∧ FirstGroup t (u + 1) ∧ Kept s t ∧
      ∀ c, c < s.superBlockIdx + 1 → ∀ k < s.info.blockSize,
        block s.info.blockSize t.device.bytes c k =
          block s.info.blockSize s.device.bytes c k := by
  have hMounted := h.mounted
  obtain ⟨hGroupIdx, hInGroup⟩ := firstGroup_idx hMounted hIdx hSize hu
  obtain ⟨bg, v, hGet, hObtained, -⟩ :=
    getBlockGroup_of_groupAt hMounted.toSized unused true h.group
  obtain ⟨t, hCreate, hKept, hGroup, hOthers⟩ := createFile_spec unused hMounted h.used hu hLen
    hGroupIdx ⟨bg, v, hGet, hObtained⟩ (by omega)
  obtain ⟨-, -, -, hUsed⟩ := used_createFile h.used hString hCreate
  refine ⟨t, hCreate, ⟨hMounted.kept hKept, Nat.succ_pos u, hUsed, ?_⟩, hKept, fun c hc k hk => ?_⟩
  · rw [hKept.info, hKept.superBlockIdx]
    apply hGroup.of_bitmap
    intro i
    rw [hInGroup, Function.update_apply]
    have hPos := h.pos
    split_ifs <;> first | rfl | omega
  · exact hOthers c (by omega) (by omega) (by omega) (by omega) (by omega) k hk

/-! ## Mounting a device without files -/

theorem getSuperBlock_spec (h : Sized s) (sbBlockIdx : Nat) (descriptor : FsDescriptor) :
    ∃ v, getSuperBlock sbBlockIdx .createIfNotFound (some descriptor) s =
        some (SuperBlock.create sbBlockIdx descriptor, v) ∧ Touched s v ∧
      v.device.bytes = putBlock s.info.blockSize s.device.bytes superBlockBlock
        (padded (SuperBlock.create sbBlockIdx descriptor).bytes sizeofSuperBlock) := by
  obtain ⟨hRead, -, hDevice⟩ := readObjectFromBlock_spec h
    (inRange_superBlock h) (fun _ => 0) h.superBlock_le
  have h' := h.touched hRead
  obtain ⟨hWrite, hDevice'⟩ := writeObjectToBlock_spec h' (inRange_superBlock h')
    (SuperBlock.create sbBlockIdx descriptor).bytes sizeofSuperBlock
  refine ⟨_, rfl, hRead.trans hWrite, ?_⟩
  rw [hDevice', hDevice, hRead.info]

/-- What the superblock's block holds is no block group. -/
theorem missing_superBlock {size : Nat} {bytes : Buffer} (sbBlockIdx : Nat)
    (descriptor : FsDescriptor) (hSize : sizeofSuperBlock ≤ size)
    (h : ∀ i < size, block size bytes superBlockBlock i =
      padded (SuperBlock.create sbBlockIdx descriptor).bytes sizeofSuperBlock i) :
    (descriptorAt size bytes superBlockBlock).Missing := by
  apply missing_of_zero
  intro i hi
  have hLt : i < sizeofSuperBlock := Nat.lt_trans hi (by decide)
  rw [h i (Nat.lt_of_lt_of_le hLt hSize), padded, if_pos hLt]
  show (if i < 4 then le 0 i else _) = 0
  rw [if_pos hi, le, Nat.zero_div]
  rfl

/-- No file is on the device: the first group was not created, or its bitmaps are empty. Where the
group would lie in the superblock's block, that is written first. -/
def NoFiles (descriptor : FsDescriptor) (bytes : Buffer) : Prop :=
  descriptor.superBlockIdx = 0 ∨
    (descriptorAt descriptor.blockSize bytes (descriptor.superBlockIdx + 1)).Missing ∨
    GroupAt descriptor.blockSize bytes (descriptor.superBlockIdx + 1) fun _ => 0

/-- Writing the superblock leaves the groups behind it alone. -/
theorem block_superBlock_of_le {size c i : Nat} {bytes content : Buffer} (hc : 2 ≤ c)
    (hi : i < size) :
    block size (putBlock size bytes superBlockBlock content) c i = block size bytes c i :=
  block_putBlock_of_ne (by unfold superBlockBlock; omega) hi

/-- The constructor gets a group with empty bitmaps. -/
theorem obtained_of_noFiles {descriptor : FsDescriptor} {bytes : Buffer} (unused : BitVec 14)
    (h : Mounted s) (hInfo : s.info = descriptor) (hIdx : descriptor.superBlockIdx ≤ 11)
    (hNoFiles : NoFiles descriptor bytes)
    (hBytes : s.device.bytes = putBlock descriptor.blockSize bytes superBlockBlock
      (padded (SuperBlock.create descriptor.superBlockIdx descriptor).bytes sizeofSuperBlock)) :
    ∃ bg t, getBlockGroup unused (descriptor.superBlockIdx + 1) true s = some (bg, t) ∧
      Obtained s (descriptor.superBlockIdx + 1) (fun _ => 0) bg t := by
  subst hInfo
  have hMissing : (descriptorAt s.info.blockSize s.device.bytes
      (s.info.superBlockIdx + 1)).Missing → ∃ bg t,
        getBlockGroup unused (s.info.superBlockIdx + 1) true s = some (bg, t) ∧
          Obtained s (s.info.superBlockIdx + 1) (fun _ => 0) bg t :=
    getBlockGroup_of_missing h.toSized unused (by omega) (by omega)
  rcases Nat.eq_zero_or_pos s.info.superBlockIdx with hZero | hPos
  · apply hMissing
    rw [hZero, hBytes]
    refine missing_superBlock s.info.superBlockIdx s.info
      (Nat.le_trans (by decide) h.sector_le) fun i hi => ?_
    exact block_putBlock_self hi
  · have hSame : ∀ c, 2 ≤ c → ∀ i < s.info.blockSize,
        block s.info.blockSize s.device.bytes c i = block s.info.blockSize bytes c i := by
      intro c hc i hi
      rw [hBytes, block_superBlock_of_le hc hi]
    rcases hNoFiles with hZero | hAbsent | hGroup
    · omega
    · apply hMissing
      rw [descriptorAt_congr h.descriptor_le (hSame _ (by omega))]
      exact hAbsent
    · have hGroup' := hGroup.congr h.descriptor_le fun c hc => hSame c (by omega)
      obtain ⟨bg, t, hGet, hObtained, -⟩ := getBlockGroup_of_groupAt h.toSized unused true hGroup'
      exact ⟨bg, t, hGet, hObtained⟩

/-- The constructor writes the superblock and gets the first group, whatever its bitmap. -/
theorem mount_spec {descriptor : FsDescriptor} (unused : BitVec 14)
    (hPos : 0 < descriptor.blockSize)
    (hAligned : descriptor.blockSize % sectorSizeBytes = 0) (hIdx : descriptor.superBlockIdx ≤ 11)
    (hObtain : ∀ w : Volume, Mounted w → w.info = descriptor →
      w.device.bytes = putBlock descriptor.blockSize s.device.bytes superBlockBlock
        (padded (SuperBlock.create descriptor.superBlockIdx descriptor).bytes sizeofSuperBlock) →
      ∃ bg t, getBlockGroup unused (descriptor.superBlockIdx + 1) true w = some (bg, t) ∧
        Obtained w (descriptor.superBlockIdx + 1) bitmap bg t) :
    ∃ t, mount descriptor unused s = some t ∧ Mounted t ∧ t.info = descriptor ∧
      GroupAt descriptor.blockSize t.device.bytes (descriptor.superBlockIdx + 1) bitmap := by
  let s₀ : Volume := { s with
    info := descriptor
    cache := memset s.cache 0 0 (sizeofFileInode * maxFiles)
    sectorsPerBlock := descriptor.blockSize / sectorSizeBytes
    superBlockIdx := descriptor.superBlockIdx }
  have hSized : Sized s₀ := ⟨hPos, hAligned, rfl⟩
  obtain ⟨v, hSuper, hTouched, hBytes⟩ :=
    getSuperBlock_spec hSized descriptor.superBlockIdx descriptor
  let w : Volume :=
    { v with globalSuperBlock := SuperBlock.create descriptor.superBlockIdx descriptor }
  have hInfo : w.info = descriptor := hTouched.info
  have hMounted : Mounted w := by
    refine ⟨⟨?_, ?_, ?_⟩, ?_, ?_, ?_⟩
    · rw [hInfo]
      exact hPos
    · rw [hInfo]
      exact hAligned
    · rw [hInfo]
      exact hTouched.sectorsPerBlock
    · rw [hInfo]
      exact hTouched.superBlockIdx
    · rw [hInfo]
      rfl
    · rw [hInfo]
      rfl
  obtain ⟨bg, t, hGet, hObtained⟩ := hObtain w hMounted hInfo hBytes
  have hKept : Kept w { t with cache := setFileInode t.cache 0 1 rootName } :=
    hObtained.touched.kept.trans ⟨rfl, rfl, rfl, rfl⟩
  have hGroup := hObtained.group
  rw [hObtained.touched.info, hInfo] at hGroup
  refine ⟨{ t with cache := setFileInode t.cache 0 1 rootName }, ?_, hMounted.kept hKept,
    hKept.info.trans hInfo, hGroup⟩
  rw [mount, if_pos hAligned]
  show (getSuperBlock descriptor.superBlockIdx .createIfNotFound (some descriptor) s₀).bind _ = _
  rw [hSuper, Option.bind_some]
  show (getBlockGroup unused ((v.superBlockIdx + 1) % 4294967296) true w).map _ = _
  rw [hTouched.superBlockIdx]
  show (getBlockGroup unused ((descriptor.superBlockIdx + 1) % 4294967296) true w).map _ = _
  rw [Nat.mod_eq_of_lt (by omega), hGet]
  rfl

/-- Mounting a device without files. -/
theorem firstGroup_mount (descriptor : FsDescriptor) (unused : BitVec 14)
    (hPos : 0 < descriptor.blockSize)
    (hAligned : descriptor.blockSize % sectorSizeBytes = 0) (hIdx : descriptor.superBlockIdx ≤ 11)
    (hNoFiles : NoFiles descriptor s.device.bytes) :
    ∃ t, mount descriptor unused s = some t ∧ FirstGroup t 1 ∧ t.info = descriptor := by
  obtain ⟨t, hMount, hMounted, hInfo, hGroup⟩ := mount_spec unused hPos hAligned hIdx
    fun w hMounted hInfo hBytes => obtained_of_noFiles unused hMounted hInfo hIdx hNoFiles hBytes
  refine ⟨t, hMount, ⟨hMounted, Nat.le_refl 1, (used_mount hMount).1, ?_⟩, hInfo⟩
  rw [hMounted.superBlockIdx, hInfo]
  exact hGroup.of_bitmap fun i => if_neg (by omega)

/-! ## Runs of `CreateFile` -/

/-- A call of `CreateFile`, with the index that it handed out. -/
structure FileCall where
  filename : List UInt8
  inodeIdx : Nat

/-- A name is a string of the language: it holds no zero. -/
def CreateStep (s : Volume) (call : FileCall) (t : Volume) : Prop :=
  (0 : UInt8) ∉ call.filename ∧
    ∃ unused, createFile unused call.filename s = some (call.inodeIdx, t)

/-- The indices that were handed out, the first one first. -/
def handed (calls : List FileCall) : List Nat := calls.map FileCall.inodeIdx

/-- The device of `t` shows that the files with the inodes `idxs` were created since `s`. -/
structure OnDisk (s t : Volume) (idxs : List Nat) : Prop where
  nodup : idxs.Nodup
  inodeBitmap : ∀ i < t.info.blockSize, block t.info.blockSize t.device.bytes 4 i =
    if i + 1 ∈ idxs then 1 else 0
  blockBitmap : ∀ i < t.info.blockSize, block t.info.blockSize t.device.bytes 3 i = 0
  blockBitmapBlock : (descriptorAt t.info.blockSize t.device.bytes 2).blockBitmapBlock.toNat = 3
  inodeBitmapBlock : (descriptorAt t.info.blockSize t.device.bytes 2).inodeBitmapBlock.toNat = 4
  inodeTableStartBlock :
    (descriptorAt t.info.blockSize t.device.bytes 2).inodeTableStartBlock.toNat = 5
  info : t.info = s.info
  globalSuperBlock : t.globalSuperBlock = s.globalSuperBlock
  superBlock : ∀ i < t.info.blockSize, block t.info.blockSize t.device.bytes superBlockBlock i =
    block s.info.blockSize s.device.bytes superBlockBlock i

/-- The inodes of the first group are handed out in order. -/
theorem firstGroup_run {calls : List FileCall} (hFirst : FirstGroup s 1)
    (hIdx : s.superBlockIdx ≤ 11) (hRun : Run CreateStep s calls t)
    (hCount : calls.length + 1 ≤ min s.info.blockSize maxFiles) :
    FirstGroup t (calls.length + 1) ∧ Kept s t ∧ handed calls = List.range' 2 calls.length ∧
      ∀ c, c < s.superBlockIdx + 1 → ∀ k < s.info.blockSize,
        block s.info.blockSize t.device.bytes c k =
          block s.info.blockSize s.device.bytes c k := by
  induction hRun with
  | refl => exact ⟨hFirst, Kept.refl s, rfl, fun _ _ _ _ => rfl⟩
  | @tail calls call v t prior last ih =>
    rw [List.length_append, List.length_singleton] at hCount ⊢
    have hLt : calls.length + 1 < min s.info.blockSize maxFiles := by omega
    obtain ⟨hGroup, hKept, hHanded, hBelow⟩ := ih (Nat.le_of_lt hLt)
    obtain ⟨hString, unused, hCreate⟩ := last
    obtain ⟨t', hCreate', hGroup', hKept', hBelow'⟩ := firstGroup_create unused _ hGroup
      (hKept.superBlockIdx.symm ▸ hIdx)
      (hKept.info.symm ▸ Nat.lt_of_lt_of_le hLt (Nat.min_le_left _ _))
      (Nat.lt_of_lt_of_le hLt (Nat.min_le_right _ _))
      (used_createFile hGroup.used hString hCreate).2.1 hString
    obtain ⟨hIdxEq, rfl⟩ := Prod.mk.inj (Option.some.inj (hCreate.symm.trans hCreate'))
    refine ⟨hGroup', hKept.trans hKept', ?_, fun c hc k hk => ?_⟩
    · have hNext : 2 + calls.length = call.inodeIdx := by omega
      rw [handed, List.map_append, ← handed, hHanded, List.range'_1_concat, hNext]
      rfl
    · have hSame := hBelow' c (hKept.superBlockIdx.symm ▸ hc) k (hKept.info.symm ▸ hk)
      rw [hKept.info] at hSame
      exact hSame.trans (hBelow c hc k hk)

theorem mem_range'_two {m i : Nat} : i + 1 ∈ List.range' 2 m ↔ 1 ≤ i ∧ i < m + 1 := by
  rw [List.mem_range'_1]
  omega

/-- On a device where the group is freshly created, every run of calls that the group has inodes
for leaves the disk as the created files require, and the next call finds an inode. -/
theorem createFiles_onDisk (v : Volume) (descriptor : FsDescriptor) (unused : BitVec 14)
    (hPos : 0 < descriptor.blockSize) (hAligned : descriptor.blockSize % sectorSizeBytes = 0)
    (hIdx : descriptor.superBlockIdx = 1)
    (hFresh : (descriptorAt descriptor.blockSize v.device.bytes 2).Missing) :
    ∃ s, mount descriptor unused v = some s ∧ s.info = descriptor ∧
      ∀ calls t, Run CreateStep s calls t →
        calls.length ≤ min descriptor.blockSize maxFiles - 1 →
        OnDisk s t (handed calls) ∧
          (calls.length < min descriptor.blockSize maxFiles - 1 → ∀ filename : List UInt8,
            filename.length < filenameLength → (0 : UInt8) ∉ filename →
              ∃ call t', call.filename = filename ∧ CreateStep t call t') := by
  have hNoFiles : NoFiles descriptor v.device.bytes := by
    refine Or.inr (Or.inl ?_)
    rw [hIdx]
    exact hFresh
  obtain ⟨s, hMount, hFirst, hInfo⟩ :=
    firstGroup_mount descriptor unused hPos hAligned (by omega) hNoFiles
  have hMountIdx : s.superBlockIdx = 1 := by
    rw [hFirst.mounted.superBlockIdx, hInfo, hIdx]
  have hMin : 1 ≤ min descriptor.blockSize maxFiles := Nat.le_min.mpr ⟨hPos, by decide⟩
  refine ⟨s, hMount, hInfo, fun calls t hRun hCount => ?_⟩
  obtain ⟨hGroup, hKept, hHanded, hBelow⟩ := firstGroup_run hFirst (by omega) hRun
    (by rw [hInfo]; omega)
  have hAt := hGroup.group
  rw [hKept.superBlockIdx, hMountIdx] at hAt
  refine ⟨⟨?_, fun i hi => ?_, hAt.blockBitmap, hAt.blockBitmapBlock, hAt.inodeBitmapBlock,
    hAt.inodeTableStartBlock, hKept.info, hKept.globalSuperBlock, fun i hi => ?_⟩, ?_⟩
  · rw [hHanded]
    exact List.nodup_range'
  · rw [hAt.inodeBitmap i hi, hHanded]
    exact if_congr mem_range'_two.symm rfl rfl
  · rw [hKept.info] at hi ⊢
    exact hBelow superBlockBlock (by rw [hMountIdx]; decide) i hi
  · intro hMore filename hLen hString
    obtain ⟨t', hCreate, -⟩ := firstGroup_create unused _ hGroup
      (by rw [hKept.superBlockIdx, hMountIdx]; decide)
      (by rw [hKept.info, hInfo]; omega) (by omega) hLen hString
    exact ⟨⟨filename, _⟩, t', rfl, hString, unused, hCreate⟩

/-- Nothing mounted yet, and a device of zeros. -/
def blankDevice : Volume where
  globalSuperBlock := .create 0 ⟨0, 0, by decide, by decide⟩
  blockBuffer := fun _ => 0
  sectorsPerBlock := 0
  superBlockIdx := 0
  info := ⟨0, 0, by decide, by decide⟩
  cache := fun _ => 0
  device := ⟨fun _ => 0, []⟩

/-- Blocks of two sectors, the superblock in block 1. -/
def twoSectorDescriptor : FsDescriptor :=
  ⟨1024, 1, FsDescriptor.twoSectors_lt, FsDescriptor.one_lt⟩

/-- A file is created on a device of zeros. -/
theorem createFiles_onDisk_one : ∃ s call t,
    mount twoSectorDescriptor 0 blankDevice = some s ∧
      CreateStep s call t ∧ call.filename = [97] ∧ OnDisk s t [call.inodeIdx] := by
  obtain ⟨s, hMount, -, hRuns⟩ := createFiles_onDisk blankDevice twoSectorDescriptor 0
    (by decide) (by decide) rfl (by decide)
  obtain ⟨-, hNext⟩ := hRuns [] s .refl (by decide)
  obtain ⟨call, t, hName, hStep⟩ := hNext (by decide) [97] (by decide) (by decide)
  have hOne : [call].length ≤ min 1024 maxFiles - 1 := show 1 ≤ 1023 by decide
  exact ⟨s, call, t, hMount, hStep, hName, (hRuns [call] t (.single hStep) hOne).1⟩

end Juos.Ext2
