import Juos.Ext2.Layout

/-!
# The file system of `ext2.cpp`

The code of `ext2.cpp` over a sector device. A `Volume` holds the statics of the file, the one
mounted `Fs` object and its device. The file cache is kept as the bytes of `_file_inodes_cache`, 260
for each of the 1024 entries, since names are copied into it without a bound of their own.

`none` is a failed assertion, which holds the machine, or a division by zero, which traps.
-/

namespace Juos.Ext2

open Machine

structure Volume where
  /-- `global_super_block` -/
  globalSuperBlock : SuperBlock
  /-- the bytes at `ext2_block_buffer` -/
  blockBuffer : Buffer
  sectorsPerBlock : Nat
  superBlockIdx : Nat
  /-- `_info` -/
  info : FsDescriptor
  /-- `_file_inodes_cache` -/
  cache : Buffer
  device : Device

/-! ## Arithmetic on blocks and inodes -/

def blockToSector (block blockSize : Nat) : Nat :=
  block * (blockSize / sectorSizeBytes) % 4294967296

def bytesToBlocks (s : Volume) (bytes : Nat) : Nat := bytes / s.globalSuperBlock.blockSize

def inodeIdxToBlockGroup (s : Volume) (idx : Nat) : Nat :=
  ((idx + 4294967295) % 4294967296 / s.globalSuperBlock.groupInodeSize + s.superBlockIdx + 1) %
    4294967296

def inodeIdxInBlockGroup (s : Volume) (idx : Nat) : Nat :=
  (idx + 4294967295) % 4294967296 % s.globalSuperBlock.groupInodeSize

def inodeIdxContainingBlock (s : Volume) (idx : Nat) : Nat :=
  idx * sizeofInode % 4294967296 / s.globalSuperBlock.blockSize

/-- The divisors of these, both read from the superblock, are not zero. -/
def Divisible (s : Volume) : Prop :=
  s.globalSuperBlock.groupInodeSize ≠ 0 ∧ s.globalSuperBlock.blockSize ≠ 0

instance (s : Volume) : Decidable (Divisible s) := inferInstanceAs (Decidable (_ ∧ _))

/-! ## Blocks -/

def readStorage (buffer : Buffer) (block n : Nat) (s : Volume) : Buffer × Volume :=
  let nSectors := s.sectorsPerBlock * n % 4294967296
  let sectorStart := blockToSector block s.info.blockSize
  let r := readSectors sectorSizeBytes (fun i => (sectorStart + i) % 4294967296) nSectors buffer
    s.device
  (r.1, { s with device := r.2 })

def writeStorage (buffer : Buffer) (block n : Nat) (s : Volume) : Volume :=
  let nSectors := s.sectorsPerBlock * n % 4294967296
  let sectorStart := blockToSector block s.info.blockSize
  { s with
    device := writeSectors sectorSizeBytes (fun i => (sectorStart + i) % 4294967296) nSectors buffer
      s.device }

/-- `ZERO_BUFFER(ext2_block_buffer, _info.block_size)` -/
def zeroBuffer (s : Volume) : Volume :=
  { s with blockBuffer := memset s.blockBuffer 0 0 s.info.blockSize }

def writeObjectToBlock (obj : Buffer) (block objSize : Nat) (s : Volume) : Volume :=
  let s := zeroBuffer s
  let s := { s with blockBuffer := memcpy s.blockBuffer 0 obj objSize }
  writeStorage s.blockBuffer block 1 s

def readObjectFromBlock (obj : Buffer) (block objSize : Nat) (s : Volume) : Buffer × Volume :=
  let s := zeroBuffer s
  let r := readStorage s.blockBuffer block 1 s
  (memcpy obj 0 r.1 objSize, { r.2 with blockBuffer := r.1 })

def zeroBlock (block : Nat) (s : Volume) : Volume :=
  let s := zeroBuffer s
  writeStorage s.blockBuffer block 1 s

/-! ## The superblock and the block groups -/

inductive GetObjectOptions where
  | noCreate
  | createIfNotFound
  | forceCreate
  deriving DecidableEq, Repr

/-- The `ForceCreate` branch of `_get_super_block`. It writes block 1, whatever block it was asked
for. -/
def createSuperBlock (sbBlockIdx : Nat) (descriptor : Option FsDescriptor) (s : Volume) :
    Option (SuperBlock × Volume) :=
  descriptor.map fun descriptor =>
    let superBlock := SuperBlock.create sbBlockIdx descriptor
    (superBlock, writeObjectToBlock superBlock.bytes 1 sizeofSuperBlock s)

def getSuperBlock (sbBlockIdx : Nat) (opt : GetObjectOptions) (descriptor : Option FsDescriptor)
    (s : Volume) : Option (SuperBlock × Volume) :=
  match opt with
  | .forceCreate => createSuperBlock sbBlockIdx descriptor s
  | .noCreate =>
    let r := readObjectFromBlock (fun _ => 0) 1 sizeofSuperBlock s
    let superBlock := SuperBlock.ofBytes r.1
    if superBlock.ext2Sign ≠ 0 then some (superBlock, r.2) else none
  | .createIfNotFound =>
    -- what was read is not looked at
    createSuperBlock sbBlockIdx descriptor
      (readObjectFromBlock (fun _ => 0) 1 sizeofSuperBlock s).2

structure BlockGroupTable where
  groupDescriptor : BlockGroupDescriptor
  blockBitmap : Buffer
  inodeBitmap : Buffer
  inodeTableBlockSize : Nat

/-- The `ForceCreate` branch of `_get_block_group`, which returns no bitmaps. `unused` is what the
new object's memory holds. -/
def createBlockGroup (unused : BitVec 14) (blockIdx : Nat) (s : Volume) :
    BlockGroupDescriptor × Volume :=
  let descriptor := BlockGroupDescriptor.create unused blockIdx s.info
  let s := writeObjectToBlock descriptor.bytes blockIdx sizeofBlockGroupDescriptor s
  let s := zeroBlock descriptor.blockBitmapBlock.toNat s
  let s := zeroBlock descriptor.inodeBitmapBlock.toNat s
  (descriptor, zeroBlock descriptor.inodeTableStartBlock.toNat s)

/-- The test for a block group that was never created. -/
def BlockGroupDescriptor.Missing (d : BlockGroupDescriptor) : Prop :=
  d.blockBitmapBlock = 0 ∨ d.inodeBitmapBlock = 0

instance (d : BlockGroupDescriptor) : Decidable d.Missing :=
  inferInstanceAs (Decidable (_ ∨ _))

/-- The descriptor at `blockIdx`, read from the device. -/
def readDescriptor (blockIdx : Nat) (s : Volume) : BlockGroupDescriptor × Volume :=
  let r := readObjectFromBlock (fun _ => 0) blockIdx sizeofBlockGroupDescriptor s
  (BlockGroupDescriptor.ofBytes r.1, r.2)

/-- The end of `_get_block_group`: both bitmaps are read. -/
def readBitmaps (descriptor : BlockGroupDescriptor) (s : Volume) :
    Option (BlockGroupTable × Volume) :=
  let blockBitmap := readStorage (fun _ => 0) descriptor.blockBitmapBlock.toNat 1 s
  let inodeBitmap := readStorage (fun _ => 0) descriptor.inodeBitmapBlock.toNat 1 blockBitmap.2
  if s.info.blockSize ≠ 0 then
    some
      ({ groupDescriptor := descriptor
         blockBitmap := blockBitmap.1
         inodeBitmap := inodeBitmap.1
         inodeTableBlockSize := s.globalSuperBlock.groupInodeSize * sizeofInode % 4294967296 /
           s.info.blockSize % 256 },
        inodeBitmap.2)
  else none

/-- `_get_block_group` without `ForceCreate`. -/
def getBlockGroup (unused : BitVec 14) (blockIdx : Nat) (create : Bool) (s : Volume) :
    Option (BlockGroupTable × Volume) :=
  let r := readDescriptor blockIdx s
  if r.1.Missing then
    if create then
      let r := createBlockGroup unused blockIdx r.2
      readBitmaps r.1 r.2
    else none
  else readBitmaps r.1 r.2

/-! ## Files -/

abbrev sizeofFileInode : Nat := 260

/-- `_file_inodes_cache[i].inode_idx` -/
def cachedInodeIdx (cache : Buffer) (i : Nat) : Nat := word cache (sizeofFileInode * i + 256) 4

/-- Set the index of an entry, then copy a name into it. -/
def setFileInode (cache : Buffer) (i inodeIdx : Nat) (name : List UInt8) : Buffer :=
  let cache := memcpy cache (sizeofFileInode * i + 256) (le inodeIdx) 4
  memcpy cache (sizeofFileInode * i) (fun k => name.getD k 0) name.length

def getAvailableInodeIdx (s : Volume) : Option Nat :=
  ((List.range maxFiles).find? fun i => cachedInodeIdx s.cache i = 0).map fun i => i + 1

def writeBlockGroup (bg : BlockGroupTable) (blockIdx : Nat) (inode : Buffer) (inodeIdx : Nat)
    (s : Volume) : Volume :=
  let descriptor := bg.groupDescriptor
  let s := writeObjectToBlock descriptor.bytes blockIdx sizeofBlockGroupDescriptor s
  let s := writeStorage bg.blockBitmap descriptor.blockBitmapBlock.toNat
    (bytesToBlocks s s.info.blockSize) s
  let s := writeStorage bg.inodeBitmap descriptor.inodeBitmapBlock.toNat
    (bytesToBlocks s s.info.blockSize) s
  let inodeBlock := descriptor.inodeTableStartBlock.toNat + inodeIdxContainingBlock s inodeIdx
  let offset := sizeofInode * (inodeIdx % 4)
  let r := readStorage s.blockBuffer inodeBlock 1 s
  let buffer := memcpy (memset r.1 offset 0 sizeofInode) offset inode sizeofInode
  writeStorage buffer inodeBlock 1 { r.2 with blockBuffer := buffer }

/-- `Fs::CreateFile`, with the index of the inode it hands out. The superblock is not written on
the way, so its divisors are looked at once. -/
def createFile (unused : BitVec 14) (filename : List UInt8) (s : Volume) : Option (Nat × Volume) :=
  (getAvailableInodeIdx s).bind fun inodeIdx =>
    if filename.length < filenameLength ∧ Divisible s then
      let bgIdx := inodeIdxToBlockGroup s inodeIdx
      (getBlockGroup unused bgIdx true s).map fun r =>
        let bg := { r.1 with
          inodeBitmap :=
            Function.update r.1.inodeBitmap (inodeIdxInBlockGroup s inodeIdx) 1 }
        let s := { r.2 with cache := setFileInode r.2.cache (inodeIdx - 1) inodeIdx filename }
        (inodeIdx, writeBlockGroup bg bgIdx newInode inodeIdx s)
    else none

/-- `"root"` -/
def rootName : List UInt8 := [114, 111, 111, 116, 0]

/-- `Fs::Fs`. What a new block buffer holds is unknown; it is taken to hold what the old one did. -/
def mount (descriptor : FsDescriptor) (unused : BitVec 14) (s : Volume) : Option Volume :=
  if descriptor.blockSize % sectorSizeBytes = 0 then
    let s := { s with
      info := descriptor
      cache := memset s.cache 0 0 (sizeofFileInode * maxFiles)
      sectorsPerBlock := descriptor.blockSize / sectorSizeBytes
      superBlockIdx := descriptor.superBlockIdx }
    (getSuperBlock s.superBlockIdx .createIfNotFound (some descriptor) s).bind fun r =>
      let s := { r.2 with globalSuperBlock := r.1 }
      (getBlockGroup unused ((s.superBlockIdx + 1) % 4294967296) true s).map fun r =>
        { r.2 with cache := setFileInode r.2.cache 0 1 rootName }
  else none

end Juos.Ext2
