import Juos.Machine.Sectors

/-!
# The structures of `ext2.h` on disk

`SuperBlock` is packed and has 84 bytes. `BlockGroupDescriptor` is one word of bit fields; the
block numbers have four bits each, the counts two. Of an `Inode`, 128 bytes, only the field
`os_specific_1` is ever set.
-/

namespace Juos.Ext2

open Machine

abbrev sectorSizeBytes : Nat := 512

abbrev ext2Sign : Nat := 0xef53

abbrev filenameLength : Nat := 512

abbrev maxFiles : Nat := 1024

/-! ## The descriptor of a file system -/

structure FsDescriptor where
  blockSize : Nat
  superBlockIdx : Nat
  blockSize_lt : blockSize < 4294967296
  superBlockIdx_lt : superBlockIdx < 4294967296
  deriving DecidableEq

namespace FsDescriptor

/-- The proofs that the descriptors used as inputs have in common. -/
theorem one_lt : 1 < 4294967296 := by decide

theorem sector_lt : 512 < 4294967296 := by decide

theorem twoSectors_lt : 1024 < 4294967296 := by decide

end FsDescriptor

/-! ## The superblock -/

structure SuperBlock where
  totalInodes : Nat
  totalBlocks : Nat
  nSuBlocks : Nat
  unallocatedBlocks : Nat
  unallocatedInodes : Nat
  sbBlock : Nat
  blockSize : Nat
  fragmentSize : Nat
  groupBlockSize : Nat
  groupFragmentSize : Nat
  groupInodeSize : Nat
  lastMountTime : Nat
  lastWrittenTime : Nat
  mountSinceLastCk : Nat
  nMountsBeforeCk : Nat
  ext2Sign : Nat
  fsState : Nat
  errHandling : Nat
  versionMinor : Nat
  lastCkTime : Nat
  forcedCkInterval : Nat
  osId : Nat
  versionMajor : Nat
  uidCanReserve : Nat
  gidCanReserve : Nat
  deriving DecidableEq, Repr

abbrev sizeofSuperBlock : Nat := 84

namespace SuperBlock

/-- The fields in the order of the structure, with their widths in bytes. -/
def fields (sb : SuperBlock) : List (Nat × Nat) :=
  [(4, sb.totalInodes), (4, sb.totalBlocks), (4, sb.nSuBlocks), (4, sb.unallocatedBlocks),
    (4, sb.unallocatedInodes), (4, sb.sbBlock), (4, sb.blockSize), (4, sb.fragmentSize),
    (4, sb.groupBlockSize), (4, sb.groupFragmentSize), (4, sb.groupInodeSize),
    (4, sb.lastMountTime), (4, sb.lastWrittenTime), (2, sb.mountSinceLastCk),
    (2, sb.nMountsBeforeCk), (2, sb.ext2Sign), (2, sb.fsState), (2, sb.errHandling),
    (2, sb.versionMinor), (4, sb.lastCkTime), (4, sb.forcedCkInterval), (4, sb.osId),
    (4, sb.versionMajor), (2, sb.uidCanReserve), (2, sb.gidCanReserve)]

example (sb : SuperBlock) : (sb.fields.map Prod.fst).sum = sizeofSuperBlock := by
  simp [fields]

def bytes (sb : SuperBlock) : Buffer := layOut sb.fields

def ofBytes (b : Buffer) : SuperBlock where
  totalInodes := word b 0 4
  totalBlocks := word b 4 4
  nSuBlocks := word b 8 4
  unallocatedBlocks := word b 12 4
  unallocatedInodes := word b 16 4
  sbBlock := word b 20 4
  blockSize := word b 24 4
  fragmentSize := word b 28 4
  groupBlockSize := word b 32 4
  groupFragmentSize := word b 36 4
  groupInodeSize := word b 40 4
  lastMountTime := word b 44 4
  lastWrittenTime := word b 48 4
  mountSinceLastCk := word b 52 2
  nMountsBeforeCk := word b 54 2
  ext2Sign := word b 56 2
  fsState := word b 58 2
  errHandling := word b 60 2
  versionMinor := word b 62 2
  lastCkTime := word b 64 4
  forcedCkInterval := word b 68 4
  osId := word b 72 4
  versionMajor := word b 76 4
  uidCanReserve := word b 80 2
  gidCanReserve := word b 82 2

/-- The superblock that `_get_super_block` creates. -/
def create (sbBlockIdx : Nat) (descriptor : FsDescriptor) : SuperBlock where
  totalInodes := 0
  totalBlocks := 0
  nSuBlocks := 0
  unallocatedBlocks := 0
  unallocatedInodes := 0
  sbBlock := sbBlockIdx
  blockSize := descriptor.blockSize
  fragmentSize := 0xffffffff
  groupBlockSize := descriptor.blockSize
  groupFragmentSize := 0xffffffff
  groupInodeSize := descriptor.blockSize
  lastMountTime := 0xffffffff
  lastWrittenTime := 0xffffffff
  mountSinceLastCk := 0xffff
  nMountsBeforeCk := 0xffff
  ext2Sign := Ext2.ext2Sign
  -- `FsState::Clean`, `ErrorHandleGuide::Panic` and `OsId::Other`
  fsState := 0
  errHandling := 2
  versionMinor := 0x69
  lastCkTime := 0xffffffff
  forcedCkInterval := 0xffffffff
  osId := 4
  versionMajor := 0x420
  uidCanReserve := 0xffff
  gidCanReserve := 0xffff

end SuperBlock

/-! ## Block groups -/

structure BlockGroupDescriptor where
  blockBitmapBlock : BitVec 4
  inodeBitmapBlock : BitVec 4
  inodeTableStartBlock : BitVec 4
  groupNUnallocBlocks : BitVec 2
  groupNUnallocInodes : BitVec 2
  nDirsInGroup : BitVec 2
  unused : BitVec 14
  deriving DecidableEq, Repr

abbrev sizeofBlockGroupDescriptor : Nat := 4

namespace BlockGroupDescriptor

/-- The word that holds the bit fields, the first field in the lowest bits. -/
def toWord (d : BlockGroupDescriptor) : Nat :=
  d.blockBitmapBlock.toNat + 16 * d.inodeBitmapBlock.toNat + 256 * d.inodeTableStartBlock.toNat +
    4096 * d.groupNUnallocBlocks.toNat + 16384 * d.groupNUnallocInodes.toNat +
    65536 * d.nDirsInGroup.toNat + 262144 * d.unused.toNat

def ofWord (w : Nat) : BlockGroupDescriptor where
  blockBitmapBlock := BitVec.ofNat 4 w
  inodeBitmapBlock := BitVec.ofNat 4 (w / 16)
  inodeTableStartBlock := BitVec.ofNat 4 (w / 256)
  groupNUnallocBlocks := BitVec.ofNat 2 (w / 4096)
  groupNUnallocInodes := BitVec.ofNat 2 (w / 16384)
  nDirsInGroup := BitVec.ofNat 2 (w / 65536)
  unused := BitVec.ofNat 14 (w / 262144)

def bytes (d : BlockGroupDescriptor) : Buffer := le d.toWord

def ofBytes (b : Buffer) : BlockGroupDescriptor := ofWord (word b 0 sizeofBlockGroupDescriptor)

/-- The descriptor of the group at `blockIdx` as `_get_block_group` creates it. The source leaves
`_unused` as it was. -/
def create (unused : BitVec 14) (blockIdx : Nat) (descriptor : FsDescriptor) :
    BlockGroupDescriptor where
  blockBitmapBlock := BitVec.ofNat 4 (blockIdx + 1)
  inodeBitmapBlock := BitVec.ofNat 4 (blockIdx + 2)
  inodeTableStartBlock := BitVec.ofNat 4 (blockIdx + 3)
  groupNUnallocBlocks := BitVec.ofNat 2 descriptor.blockSize
  groupNUnallocInodes := BitVec.ofNat 2 descriptor.blockSize
  nDirsInGroup := 0
  unused := unused

theorem toWord_lt (d : BlockGroupDescriptor) : d.toWord < 4294967296 := by
  have h₁ := d.blockBitmapBlock.isLt
  have h₂ := d.inodeBitmapBlock.isLt
  have h₃ := d.inodeTableStartBlock.isLt
  have h₄ := d.groupNUnallocBlocks.isLt
  have h₅ := d.groupNUnallocInodes.isLt
  have h₆ := d.nDirsInGroup.isLt
  have h₇ := d.unused.isLt
  unfold toWord
  omega

theorem ofWord_toWord (d : BlockGroupDescriptor) : ofWord d.toWord = d := by
  have h₁ := d.blockBitmapBlock.isLt
  have h₂ := d.inodeBitmapBlock.isLt
  have h₃ := d.inodeTableStartBlock.isLt
  have h₄ := d.groupNUnallocBlocks.isLt
  have h₅ := d.groupNUnallocInodes.isLt
  have h₆ := d.nDirsInGroup.isLt
  have h₇ := d.unused.isLt
  cases d
  simp only [ofWord, toWord, mk.injEq, ← BitVec.toNat_inj, BitVec.toNat_ofNat] at *
  omega

/-- A descriptor reads back what was written. -/
theorem ofBytes_of_eq {b : Buffer} (d : BlockGroupDescriptor)
    (h : ∀ i < sizeofBlockGroupDescriptor, b i = d.bytes i) : ofBytes b = d := by
  have hWord : word b 0 4 = d.toWord := by
    have hSame : word b 0 4 = word (le d.toWord) 0 4 :=
      word_congr fun i hi => by rw [Nat.zero_add]; exact h i hi
    rw [hSame, word_le, Nat.pow_zero, Nat.div_one]
    exact Nat.mod_eq_of_lt d.toWord_lt
  rw [ofBytes, sizeofBlockGroupDescriptor, hWord, ofWord_toWord]

end BlockGroupDescriptor

/-! ## Inodes -/

abbrev sizeofInode : Nat := 128

/-- The inode of a new file: zeros except for `os_specific_1`, at offset 36. -/
def newInode : Buffer := memcpy (fun _ => 0) 36 (le 0x9999) 4

end Juos.Ext2
