import Juos.Ext2.BlockBuffer
import Juos.Machine.Run

/-!
# Several file systems

`global_super_block`, `sectors_per_block`, `super_block_idx` and `ext2_block_buffer` are statics of
`ext2.cpp`. Every constructor sets them for its own object, and every destructor deletes the buffer,
while the calls on an object read them next to the fields of that object. So an object is
independent of the others as long as the statics at each of its calls are its own
(`asAlone_of_undisturbed`).

There may be any number of objects, each on a device of its own.
-/

namespace Juos.Ext2

open Machine

variable {unused : BitVec 14}

/-! ## Objects and statics -/

/-- An `Fs` object, with the device it was constructed for. -/
structure FsObject where
  /-- constructed and not destroyed since -/
  live : Bool
  /-- `_info` -/
  info : FsDescriptor
  /-- `_file_inodes_cache` -/
  cache : Buffer
  device : Device

/-- The statics of `ext2.cpp`, and the objects. -/
structure Driver (ι : Type) where
  globalSuperBlock : SuperBlock
  /-- the bytes at `ext2_block_buffer` -/
  blockBuffer : Buffer
  /-- the size the block buffer was allocated with, none if there is no buffer or it was deleted -/
  bufferSize : Option Nat
  sectorsPerBlock : Nat
  superBlockIdx : Nat
  objects : ι → FsObject

inductive ObjectCall where
  | construct (descriptor : FsDescriptor) (unused : BitVec 14)
  | createFile (filename : List UInt8) (unused : BitVec 14)
  | destroy

section Driver

variable {ι : Type} [DecidableEq ι] {a b c : Driver ι} {who : ι}

/-- What a call on an object sees: the statics and the fields of the object. -/
def Driver.volume (a : Driver ι) (who : ι) : Volume where
  globalSuperBlock := a.globalSuperBlock
  blockBuffer := a.blockBuffer
  sectorsPerBlock := a.sectorsPerBlock
  superBlockIdx := a.superBlockIdx
  info := (a.objects who).info
  cache := (a.objects who).cache
  device := (a.objects who).device

def Driver.store (a : Driver ι) (who : ι) (v : Volume) : Driver ι where
  globalSuperBlock := v.globalSuperBlock
  blockBuffer := v.blockBuffer
  bufferSize := a.bufferSize
  sectorsPerBlock := v.sectorsPerBlock
  superBlockIdx := v.superBlockIdx
  objects := Function.update a.objects who ⟨true, v.info, v.cache, v.device⟩

/-- There is a block buffer with room for a block of the object. -/
def Driver.Usable (a : Driver ι) (who : ι) : Prop :=
  ∃ size, a.bufferSize = some size ∧ (a.objects who).info.blockSize ≤ size

/-- A call on one of the objects. Through a buffer that was deleted or is too small, anything can
happen, and so it can when it is deleted twice. -/
def DriverStep (a : Driver ι) : ι × ObjectCall → Driver ι → Prop
  | (who, .construct descriptor unused), b =>
    (a.objects who).live = false ∧ ∃ v, mount descriptor unused (a.volume who) = some v ∧
      b = { a.store who v with bufferSize := some descriptor.blockSize }
  | (who, .createFile filename unused), b =>
    (a.objects who).live = true ∧ (a.Usable who →
      ∃ idx v, createFile unused filename (a.volume who) = some (idx, v) ∧ b = a.store who v)
  | (who, .destroy), b =>
    (a.objects who).live = true ∧ (a.bufferSize ≠ none →
      b = { a with
        bufferSize := none
        objects := Function.update a.objects who { a.objects who with live := false } })

/-- The statics are those that the object's own constructor sets. -/
structure OwnStatics (a : Driver ι) (who : ι) : Prop where
  bufferSize : a.bufferSize = some (a.objects who).info.blockSize
  sectorsPerBlock : a.sectorsPerBlock = (a.objects who).info.blockSize / sectorSizeBytes
  superBlockIdx : a.superBlockIdx = (a.objects who).info.superBlockIdx
  globalSuperBlock : a.globalSuperBlock =
    .create (a.objects who).info.superBlockIdx (a.objects who).info

/-- A file is created with the object's own statics, and the buffer is not deleted twice. -/
def Undisturbed (a : Driver ι) : ι × ObjectCall → Prop
  | (_, .construct _ _) => True
  | (who, .createFile _ _) => OwnStatics a who
  | (_, .destroy) => a.bufferSize ≠ none

/-- Before the first object. -/
structure Initial (a : Driver ι) : Prop where
  live : ∀ who, (a.objects who).live = false
  bufferSize : a.bufferSize = none

/-- The cache and the device of each object are as if only its own calls had been made. -/
def AsAlone (a : Driver ι) (calls : List (ι × ObjectCall)) (b : Driver ι) : Prop :=
  ∀ who,
    let own := calls.filter fun call => call.1 = who
    (∃ c, Run DriverStep a own c) ∧
      ∀ c, Run DriverStep a own c →
        (c.objects who).cache = (b.objects who).cache ∧
          (c.objects who).device.bytes = (b.objects who).device.bytes

/-! ## One object on its own -/

/-- The object is in both, and in `c` the statics are its own. -/
structure Twin (who : ι) (a c : Driver ι) : Prop where
  object : c.objects who = a.objects who
  statics : (a.objects who).live = true → OwnStatics c who
  sized : (a.objects who).live = true →
    0 < (a.objects who).info.blockSize ∧ (a.objects who).info.blockSize % sectorSizeBytes = 0

omit [DecidableEq ι] in
theorem OwnStatics.usable (h : OwnStatics a who) : a.Usable who :=
  ⟨_, h.bufferSize, Nat.le_refl _⟩

@[simp]
theorem store_objects_self (a : Driver ι) (who : ι) (v : Volume) :
    (a.store who v).objects who = ⟨true, v.info, v.cache, v.device⟩ := Function.update_self ..

theorem store_objects_of_ne {other : ι} (hne : who ≠ other) (a : Driver ι) (v : Volume) :
    (a.store other v).objects who = a.objects who := Function.update_of_ne hne ..

theorem Alike.store_objects {v v' : Volume} (h : Alike v v') (a c : Driver ι) (who : ι) :
    (c.store who v').objects who = (a.store who v).objects who := by
  rw [store_objects_self, store_objects_self, h.info, h.cache, h.device]

/-- A constructor makes the statics those of its object. -/
theorem ownStatics_construct {descriptor : FsDescriptor} {v : Volume}
    (hMount : mount descriptor unused (a.volume who) = some v) :
    OwnStatics { a.store who v with bufferSize := some descriptor.blockSize } who := by
  obtain ⟨hInfo, hSectors, hIdx, hSuper⟩ := mount_statics hMount
  have hObject : ((a.store who v).objects who).info = descriptor := by
    rw [store_objects_self]
    exact hInfo
  refine ⟨?_, ?_, ?_, ?_⟩
  · show _ = some ((a.store who v).objects who).info.blockSize
    rw [hObject]
  · show v.sectorsPerBlock = ((a.store who v).objects who).info.blockSize / sectorSizeBytes
    rw [hObject, hSectors]
  · show v.superBlockIdx = ((a.store who v).objects who).info.superBlockIdx
    rw [hObject, hIdx]
  · show v.globalSuperBlock = .create ((a.store who v).objects who).info.superBlockIdx
      ((a.store who v).objects who).info
    rw [hObject, hSuper]

/-- `CreateFile` leaves the statics alone. -/
theorem OwnStatics.store {v : Volume} (h : OwnStatics a who) (hKept : Kept (a.volume who) v) :
    OwnStatics (a.store who v) who := by
  have hObject : ((a.store who v).objects who).info = (a.objects who).info := by
    rw [store_objects_self]
    exact hKept.info
  refine ⟨?_, ?_, ?_, ?_⟩
  · rw [hObject]
    exact h.bufferSize
  · rw [hObject]
    exact hKept.sectorsPerBlock.trans h.sectorsPerBlock
  · rw [hObject]
    exact hKept.superBlockIdx.trans h.superBlockIdx
  · rw [hObject]
    exact hKept.globalSuperBlock.trans h.globalSuperBlock

omit [DecidableEq ι] in
/-- The volumes that a call sees in both. -/
theorem Twin.alike (h : Twin who a c) (hLive : (a.objects who).live = true)
    (hOwn : OwnStatics a who) :
    Alike (a.volume who) (c.volume who) ∧ Sized (a.volume who) ∧
      (c.volume who).globalSuperBlock = (a.volume who).globalSuperBlock := by
  have hStatics := h.statics hLive
  have hObject := h.object
  obtain ⟨hPos, hAligned⟩ := h.sized hLive
  refine ⟨⟨?_, ?_, ?_, ?_, ?_⟩, ⟨hPos, hAligned, hOwn.sectorsPerBlock⟩, ?_⟩
  · exact hStatics.sectorsPerBlock.trans (hObject ▸ hOwn.sectorsPerBlock.symm)
  · exact hStatics.superBlockIdx.trans (hObject ▸ hOwn.superBlockIdx.symm)
  · exact congrArg FsObject.info hObject
  · exact congrArg FsObject.cache hObject
  · exact congrArg FsObject.device hObject
  · exact hStatics.globalSuperBlock.trans (hObject ▸ hOwn.globalSuperBlock.symm)

/-- The object does its own calls in the same way when it is alone. -/
theorem Twin.own {call : ObjectCall} (h : Twin who a c) (hCond : Undisturbed a (who, call))
    (hStep : DriverStep a (who, call) b) :
    (∃ c', DriverStep c (who, call) c') ∧ ∀ c', DriverStep c (who, call) c' → Twin who b c' := by
  cases call with
  | construct descriptor unused =>
    obtain ⟨hDead, v, hMount, rfl⟩ := hStep
    have hCache : (c.volume who).cache = (a.volume who).cache := congrArg FsObject.cache h.object
    have hDevice : (c.volume who).device = (a.volume who).device :=
      congrArg FsObject.device h.object
    obtain ⟨v', hMount', hAlike⟩ := mount_alike hCache hDevice hMount
    have hDead' : (c.objects who).live = false := by
      rw [h.object]
      exact hDead
    refine ⟨⟨_, hDead', v', hMount', rfl⟩, ?_⟩
    rintro c' ⟨-, w, hMount'', rfl⟩
    obtain rfl := Option.some.inj (hMount'.symm.trans hMount'')
    obtain ⟨-, hSize⟩ := used_mount hMount
    refine ⟨hAlike.store_objects a c who, fun _ => ownStatics_construct hMount', fun _ => ?_⟩
    show 0 < ((a.store who v).objects who).info.blockSize ∧
      ((a.store who v).objects who).info.blockSize % sectorSizeBytes = 0
    rw [store_objects_self, (mount_statics hMount).1]
    exact hSize
  | createFile filename unused =>
    obtain ⟨hLive, hRun⟩ := hStep
    obtain ⟨idx, v, hCreate, rfl⟩ := hRun (OwnStatics.usable hCond)
    obtain ⟨hAlike, hSized, hSuper⟩ := h.alike hLive hCond
    obtain ⟨v', hCreate', hAfter⟩ := hAlike.createFile hSized hSuper hCreate
    have hOwn := h.statics hLive
    have hLive' : (c.objects who).live = true := by
      rw [h.object]
      exact hLive
    refine ⟨⟨c.store who v', hLive', fun _ => ⟨idx, v', hCreate', rfl⟩⟩, ?_⟩
    rintro c' ⟨-, hRun'⟩
    obtain ⟨idx', w, hCreate'', rfl⟩ := hRun' hOwn.usable
    obtain ⟨-, rfl⟩ := Prod.mk.inj (Option.some.inj (hCreate'.symm.trans hCreate''))
    refine ⟨hAfter.store_objects a c who, fun _ => hOwn.store (createFile_kept hCreate'),
      fun _ => ?_⟩
    rw [store_objects_self, (createFile_kept hCreate).info]
    exact ⟨hSized.pos, hSized.aligned⟩
  | destroy =>
    obtain ⟨hLive, hRun⟩ := hStep
    obtain rfl := hRun hCond
    have hOwn := h.statics hLive
    have hLive' : (c.objects who).live = true := by
      rw [h.object]
      exact hLive
    refine ⟨⟨_, hLive', fun _ => rfl⟩, ?_⟩
    rintro c' ⟨-, hRun'⟩
    obtain rfl := hRun' (by rw [hOwn.bufferSize]; exact Option.some_ne_none _)
    refine ⟨?_, ?_, ?_⟩
    · simp only [Function.update_self, h.object]
    · intro hDead
      simp only [Function.update_self] at hDead
      exact absurd hDead (by decide)
    · intro hDead
      simp only [Function.update_self] at hDead
      exact absurd hDead (by decide)

/-- The calls on the others leave the object alone. -/
theorem Twin.other {call : ObjectCall} {other : ι} (h : Twin who a c) (hne : other ≠ who)
    (hCond : Undisturbed a (other, call)) (hStep : DriverStep a (other, call) b) :
    Twin who b c := by
  have hSame : b.objects who = a.objects who := by
    cases call with
    | construct descriptor unused =>
      obtain ⟨-, v, -, rfl⟩ := hStep
      exact store_objects_of_ne hne.symm a v
    | createFile filename unused =>
      obtain ⟨-, hRun⟩ := hStep
      obtain ⟨idx, v, -, rfl⟩ := hRun (OwnStatics.usable hCond)
      exact store_objects_of_ne hne.symm a v
    | destroy =>
      obtain ⟨-, hRun⟩ := hStep
      obtain rfl := hRun hCond
      exact Function.update_of_ne hne.symm ..
  refine ⟨?_, ?_, ?_⟩
  · rw [hSame]
    exact h.object
  · rw [hSame]
    exact h.statics
  · rw [hSame]
    exact h.sized

/-- In every run in which each file is created with the object's own statics, and no buffer is
deleted twice, every object is as if it were alone. -/
theorem asAlone_of_undisturbed {calls : List (ι × ObjectCall)} (hInit : Initial a)
    (hRun : Run (Guarded DriverStep Undisturbed) a calls b) : AsAlone a calls b := by
  intro who
  have hTwin : Twin who a a := by
    refine ⟨rfl, fun hLive => ?_, fun hLive => ?_⟩
    · rw [hInit.live who] at hLive
      exact absurd hLive (by decide)
    · rw [hInit.live who] at hLive
      exact absurd hLive (by decide)
  have hOwn : ∀ a call b c, decide (call.1 = who) = true → Twin who a c →
      Guarded DriverStep Undisturbed a call b →
      (∃ c', DriverStep c call c') ∧ ∀ c', DriverStep c call c' → Twin who b c' := by
    rintro a ⟨other, call⟩ b c hSame hTwin ⟨hCond, hStep⟩
    obtain rfl : other = who := of_decide_eq_true hSame
    exact hTwin.own hCond hStep
  have hOther : ∀ a call b c, decide (call.1 = who) = false → Twin who a c →
      Guarded DriverStep Undisturbed a call b → Twin who b c := by
    rintro a ⟨other, call⟩ b c hDiff hTwin ⟨hCond, hStep⟩
    exact hTwin.other (of_decide_eq_false hDiff) hCond hStep
  obtain ⟨hSome, hAll⟩ := Run.project hTwin hOwn hOther hRun
  refine ⟨hSome, fun c hAlone => ?_⟩
  rw [(hAll c hAlone).object]
  exact ⟨rfl, rfl⟩

end Driver

/-! ## Two objects -/

/-- Two devices without content, and no object yet. -/
def twoBlankDevices : Driver Bool where
  globalSuperBlock := .ofBytes fun _ => 0
  blockBuffer := fun _ => 0
  bufferSize := none
  sectorsPerBlock := 0
  superBlockIdx := 0
  objects := fun _ => ⟨false, twoSectorDescriptor, fun _ => 0, ⟨fun _ => 0, []⟩⟩

theorem initial_twoBlankDevices : Initial twoBlankDevices := ⟨fun _ => rfl, rfl⟩

/-- A descriptor with another superblock index. -/
def laterDescriptor : FsDescriptor := ⟨1024, 3, FsDescriptor.twoSectors_lt, by decide⟩

theorem volume_store {ι : Type} [DecidableEq ι] (a : Driver ι) (who : ι) (size : Option Nat)
    (v : Volume) : ({ a.store who v with bufferSize := size } : Driver ι).volume who = v := by
  simp [Driver.volume, Driver.store]

/-- On a blank device an object can be constructed. -/
theorem construct_blank {a : Driver Bool} {who : Bool} {descriptor : FsDescriptor}
    (hBlank : a.objects who = twoBlankDevices.objects who) (hPos : 0 < descriptor.blockSize)
    (hAligned : descriptor.blockSize % sectorSizeBytes = 0) (hIdx : descriptor.superBlockIdx ≤ 11) :
    ∃ v, mount descriptor 0 (a.volume who) = some v ∧ FirstGroup v 1 ∧ v.info = descriptor ∧
      DriverStep a (who, .construct descriptor 0)
        { a.store who v with bufferSize := some descriptor.blockSize } := by
  have hMissing : (descriptorAt descriptor.blockSize (a.volume who).device.bytes
      (descriptor.superBlockIdx + 1)).Missing := by
    apply missing_of_zero
    intro i _
    show (a.objects who).device.bytes _ = 0
    rw [hBlank]
    rfl
  obtain ⟨v, hMount, hFirst, hInfo⟩ := firstGroup_mount descriptor 0 hPos hAligned hIdx
    (Or.inr (Or.inl hMissing))
  refine ⟨v, hMount, hFirst, hInfo, ?_, v, hMount, rfl⟩
  rw [hBlank]
  rfl

/-- Writing a group does not look at the superblock index. -/
theorem writeBlockGroup_superBlockIdx (s : Volume) (bg : BlockGroupTable) (n : Nat) (inode : Buffer)
    (idx superBlockIdx : Nat) :
    (writeBlockGroup bg n inode idx { s with superBlockIdx := superBlockIdx }).device =
      (writeBlockGroup bg n inode idx s).device := rfl

/-- With the superblock index of another object the first file is entered in a group of its own,
where that index puts it. -/
theorem createFile_elsewhere {s : Volume} (h : Sized s) (unused : BitVec 14)
    (filename : List UInt8)
    (hSize : s.globalSuperBlock.blockSize = s.info.blockSize)
    (hGroupSize : s.globalSuperBlock.groupInodeSize = s.info.blockSize) (hUsed : Used s.cache 1)
    (hIdx : s.superBlockIdx ≤ 11) (hLen : filename.length < filenameLength)
    (hMissing : (descriptorAt s.info.blockSize s.device.bytes (s.superBlockIdx + 1)).Missing) :
    ∃ t, createFile unused filename s = some (2, t) ∧
      (descriptorAt s.info.blockSize t.device.bytes (s.superBlockIdx + 1)).blockBitmapBlock.toNat =
        s.superBlockIdx + 2 := by
  have hSector := h.sector_le
  unfold sectorSizeBytes at hSector
  have hGroup : inodeIdxToBlockGroup s 2 = s.superBlockIdx + 1 := by
    rw [inodeIdxToBlockGroup, hGroupSize, Nat.div_eq_of_lt (by omega)]
    omega
  obtain ⟨bg, v, hGet, hObtained⟩ :=
    getBlockGroup_of_missing h unused (by omega : 1 ≤ s.superBlockIdx + 1) (by omega) hMissing
  have hTouched := hObtained.touched
  let entered : Volume := { v with cache := setFileInode v.cache 1 2 filename }
  let w : Volume := { entered with superBlockIdx := v.info.superBlockIdx }
  have hMounted : Mounted w := by
    have hSized := h.touched hTouched
    refine ⟨⟨hSized.pos, hSized.aligned, hSized.sectors⟩, rfl, ?_, ?_⟩
    · show v.globalSuperBlock.blockSize = v.info.blockSize
      rw [hTouched.globalSuperBlock, hTouched.info, hSize]
    · show v.globalSuperBlock.groupInodeSize = v.info.blockSize
      rw [hTouched.globalSuperBlock, hTouched.info, hGroupSize]
  have hLoaded : Loaded w bg (s.superBlockIdx + 1) :=
    ⟨hObtained.loaded.descriptor, hObtained.loaded.blockBitmap, hObtained.loaded.inodeBitmap⟩
  obtain ⟨-, hAt, -⟩ := groupAt_write (i := inodeIdxInBlockGroup s 2) newInode hMounted
    hObtained.group hLoaded (by decide : 2 ≤ maxFiles) (by omega)
  have hBlock := hAt.blockBitmapBlock
  have hInfo : w.info.blockSize = s.info.blockSize := congrArg FsDescriptor.blockSize hTouched.info
  rw [hInfo, writeBlockGroup_superBlockIdx entered] at hBlock
  refine ⟨_, ?_, hBlock⟩
  have hDivisible : Divisible s := by
    rw [Divisible, hGroupSize, hSize]
    exact ⟨Nat.ne_of_gt h.pos, Nat.ne_of_gt h.pos⟩
  rw [createFile, availableInodeIdx_of_used hUsed (by decide), Option.bind_some,
    if_pos ⟨hLen, hDivisible⟩]
  simp only [Nat.reduceAdd, Nat.reduceSub, hGroup, hGet, Option.map_some, entered]

/-- The first block number of a descriptor lies in its first byte. -/
theorem blockBitmapBlock_of_zero {size n : Nat} {bytes : Buffer} (h : block size bytes n 0 = 0) :
    (descriptorAt size bytes n).blockBitmapBlock.toNat = 0 := by
  have hWord : word (block size bytes n) 0 sizeofBlockGroupDescriptor =
      (0 : UInt8).toNat + 256 * word (block size bytes n) 1 3 := by
    rw [← h]
    rfl
  show (BitVec.ofNat 4 (word (block size bytes n) 0 sizeofBlockGroupDescriptor)).toNat = 0
  rw [BitVec.toNat_ofNat, hWord, UInt8.toNat_zero]
  omega

/-- Two objects with one block size, the second with another superblock index: the first file of
the first object is not what it would be without the second. -/
theorem create_differs {v w : Volume} (hFirst : FirstGroup v 1)
    (hInfo : v.info = twoSectorDescriptor) (hLater : FirstGroup w 1)
    (hInfo' : w.info = laterDescriptor) :
    ∃ t u, createFile 0 [97] v = some (2, t) ∧
      createFile 0 [97] { w with info := v.info, cache := v.cache, device := v.device } =
        some (2, u) ∧ t.device.bytes ≠ u.device.bytes := by
  have hIdx : v.superBlockIdx = 1 := by
    rw [hFirst.mounted.superBlockIdx, hInfo]
    rfl
  have hSize : v.info.blockSize = 1024 := by
    rw [hInfo]
    rfl
  have hIdx' : w.superBlockIdx = 3 := by
    rw [hLater.mounted.superBlockIdx, hInfo']
    rfl
  have hSize' : w.info.blockSize = v.info.blockSize := by
    rw [hInfo, hInfo']
    rfl
  have hGroup := hFirst.group
  rw [hIdx] at hGroup
  obtain ⟨t, hAlone, hAfter, hKept, -⟩ := firstGroup_create 0 [97] hFirst (by omega) (by omega)
    (by decide) (by decide) (by decide)
  have hGroup' := hAfter.group
  rw [hKept.superBlockIdx, hKept.info, hIdx] at hGroup'
  -- where the other index puts a group, this object has its inode bitmap
  have hMissing : (descriptorAt v.info.blockSize v.device.bytes (w.superBlockIdx + 1)).Missing := by
    apply missing_of_zero
    intro i hi
    rw [hIdx', hGroup.inodeBitmap i (Nat.lt_of_lt_of_le hi hFirst.mounted.descriptor_le)]
    exact if_neg (by omega)
  have hSized : Sized { w with info := v.info, cache := v.cache, device := v.device } := by
    refine ⟨hFirst.mounted.pos, hFirst.mounted.aligned, ?_⟩
    rw [← hSize']
    exact hLater.mounted.sectors
  obtain ⟨u, hDisturbed, hAt⟩ := createFile_elsewhere hSized 0 [97]
    (hLater.mounted.blockSize.trans hSize') (hLater.mounted.groupInodeSize.trans hSize')
    hFirst.used (by show w.superBlockIdx ≤ 11; omega) (by decide) hMissing
  refine ⟨t, u, hAlone, hDisturbed, fun hSame => ?_⟩
  have hZero : block v.info.blockSize t.device.bytes (w.superBlockIdx + 1) 0 = 0 := by
    rw [hIdx', hGroup'.inodeBitmap 0 hFirst.mounted.pos]
    rfl
  rw [← hSame] at hAt
  rw [blockBitmapBlock_of_zero hZero] at hAt
  exact absurd hAt (by omega)

/-- What the first constructor leaves of the two devices: `a`, where the object sees `v`. -/
structure FirstConstructed (a : Driver Bool) (v : Volume) : Prop where
  step : DriverStep twoBlankDevices (false, .construct twoSectorDescriptor 0) a
  own : OwnStatics a false
  object : a.objects false = ⟨true, v.info, v.cache, v.device⟩
  other : a.objects true = twoBlankDevices.objects true
  volume : a.volume false = v
  firstGroup : FirstGroup v 1
  info : v.info = twoSectorDescriptor

theorem firstConstructed : ∃ a v, FirstConstructed a v := by
  obtain ⟨v, hMount, hFirst, hInfo, hStep⟩ :
      ∃ v, mount twoSectorDescriptor 0 (twoBlankDevices.volume false) = some v ∧ FirstGroup v 1 ∧
        v.info = twoSectorDescriptor ∧
        DriverStep twoBlankDevices (false, .construct twoSectorDescriptor 0)
          { twoBlankDevices.store false v with bufferSize := some 1024 } :=
    construct_blank rfl (by decide) (by decide) (by decide)
  refine ⟨_, v, hStep, ownStatics_construct hMount, ?_, ?_, ?_, hFirst, hInfo⟩
  · exact store_objects_self twoBlankDevices false v
  · exact store_objects_of_ne (by decide : true ≠ false) twoBlankDevices v
  · exact volume_store twoBlankDevices false (some 1024) v

/-- The second object can be constructed at any time. -/
theorem construct_second {a : Driver Bool}
    (hOther : a.objects true = twoBlankDevices.objects true) :
    ∃ w, FirstGroup w 1 ∧ w.info = laterDescriptor ∧
      DriverStep a (true, .construct laterDescriptor 0)
        { a.store true w with bufferSize := some 1024 } := by
  obtain ⟨w, -, hLater, hInfo, hStep⟩ :
      ∃ w, mount laterDescriptor 0 (a.volume true) = some w ∧ FirstGroup w 1 ∧
        w.info = laterDescriptor ∧ DriverStep a (true, .construct laterDescriptor 0)
          { a.store true w with bufferSize := some 1024 } :=
    construct_blank hOther (by decide) (by decide) (by decide)
  exact ⟨w, hLater, hInfo, hStep⟩

theorem FirstConstructed.create {a : Driver Bool} {v t : Volume} (h : FirstConstructed a v)
    (hCreate : createFile 0 [97] v = some (2, t)) :
    DriverStep a (false, .createFile [97] 0) (a.store false t) := by
  refine ⟨?_, fun _ => ⟨2, t, ?_, rfl⟩⟩
  · rw [h.object]
  · rw [h.volume]
    exact hCreate

/-- The first object's file is entered in the wrong group after the second object was
constructed. -/
theorem not_asAlone : Initial twoBlankDevices ∧ ∃ calls b,
    Run DriverStep twoBlankDevices calls b ∧ ¬AsAlone twoBlankDevices calls b := by
  obtain ⟨a, v, hFirst⟩ := firstConstructed
  obtain ⟨w, hLater, hInfo, hStep⟩ := construct_second hFirst.other
  let b : Driver Bool := { a.store true w with bufferSize := some 1024 }
  obtain ⟨t, u, hAlone, hDisturbed, hDiffers⟩ :=
    create_differs hFirst.firstGroup hFirst.info hLater hInfo
  have hObject : b.objects false = ⟨true, v.info, v.cache, v.device⟩ :=
    (store_objects_of_ne (by decide : false ≠ true) a w).trans hFirst.object
  have hVolume : b.volume false =
      { w with info := v.info, cache := v.cache, device := v.device } := by
    rw [Driver.volume, hObject]
    rfl
  have hLive : (b.objects false).live = true := by
    rw [hObject]
  rw [← hVolume] at hDisturbed
  have hCreate : DriverStep b (false, .createFile [97] 0) (b.store false u) :=
    ⟨hLive, fun _ => ⟨2, u, hDisturbed, rfl⟩⟩
  refine ⟨initial_twoBlankDevices, _, b.store false u,
    .cons hFirst.step (.cons hStep (.single hCreate)), fun hAsAlone => ?_⟩
  have hRun : Run DriverStep twoBlankDevices
      [(false, .construct twoSectorDescriptor 0), (false, .createFile [97] 0)] (a.store false t) :=
    .cons hFirst.step (.single (hFirst.create hAlone))
  have hSame := ((hAsAlone false).2 (a.store false t) hRun).2
  rw [store_objects_self, store_objects_self] at hSame
  exact hDiffers hSame

/-- A file is created before the second object is constructed. -/
theorem asAlone_twoBlankDevices : ∃ b,
    AsAlone twoBlankDevices
      [(false, .construct twoSectorDescriptor 0), (false, .createFile [97] 0),
        (true, .construct laterDescriptor 0)] b := by
  obtain ⟨a, v, hFirst⟩ := firstConstructed
  obtain ⟨w, hLater, hInfo, -⟩ := construct_second hFirst.other
  obtain ⟨t, -, hAlone, -⟩ := create_differs hFirst.firstGroup hFirst.info hLater hInfo
  have hOther : (a.store false t).objects true = twoBlankDevices.objects true :=
    (store_objects_of_ne (by decide : true ≠ false) a t).trans hFirst.other
  obtain ⟨w', -, -, hStep⟩ := construct_second hOther
  have hConstruct : Guarded DriverStep Undisturbed twoBlankDevices
      (false, .construct twoSectorDescriptor 0) a := ⟨trivial, hFirst.step⟩
  have hCreate : Guarded DriverStep Undisturbed a (false, .createFile [97] 0)
      (a.store false t) := ⟨hFirst.own, hFirst.create hAlone⟩
  exact ⟨_, asAlone_of_undisturbed initial_twoBlankDevices
    (.cons hConstruct (.cons hCreate (.single ⟨trivial, hStep⟩)))⟩

end Juos.Ext2
