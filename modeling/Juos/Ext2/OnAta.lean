import Juos.Ata.ByteAccess
import Juos.Ext2.BlockIO
import Mathlib.Data.List.Induction
import Mathlib.Data.Set.Pairwise.Basic

/-!
# Blocks on a drive of the ATA driver

The block operations of `ext2.cpp` with `ReadSectors` and `WriteSectors` of `ata.cpp` behind them.
The file system hands a sector on as a number of 32 bits, and the driver sends 28 of them to the
drive. `_lba_28_sectors` is not compared with anything, so a block behind the last address lies on
sectors at the front of the drive, and what is sent to a sector the drive does not have is lost.

`independent_iff` says which blocks can be used side by side: each of them reads back what was
written to it last in every run, if and only if no two have a sector in common and the drive has
all of their sectors.
-/

namespace Juos.Ext2

open Machine

/-! ## The operations -/

/-- The loop of `_read_storage`. -/
def readLoop (sectorStart : Nat) : Nat → Buffer → Device → Buffer × Device
  | 0, buffer, d => (buffer, d)
  | i + 1, buffer, d =>
    let r := readLoop sectorStart i buffer d
    let sector := Ata.readSectors (advance r.1 (i * sectorSizeBytes))
      ((sectorStart + i) % 4294967296) 0 r.2
    (memcpy r.1 (i * sectorSizeBytes) sector.1 sectorSizeBytes, sector.2)

/-- `WriteSectors` on a drive of `capacity` sectors. For a sector that the drive does not have the
command is sent all the same, and `bytes` keeps what is read for it. -/
def OnAta.writeSectors (capacity : Nat) (buffer : Buffer) (lba sectors : Nat) (d : Device) :
    Device :=
  if (Ata.select lba).lba < capacity then Ata.writeSectors buffer lba sectors d
  else { d with accesses := d.accesses ++ [.write (Ata.select lba).lba] }

/-- The loop of `_write_storage`. -/
def writeLoop (capacity sectorStart : Nat) : Nat → Buffer → Device → Device
  | 0, _, d => d
  | i + 1, buffer, d =>
    OnAta.writeSectors capacity (advance buffer (i * sectorSizeBytes))
      ((sectorStart + i) % 4294967296) 0 (writeLoop capacity sectorStart i buffer d)

namespace OnAta

def readStorage (buffer : Buffer) (block n : Nat) (s : Volume) : Buffer × Volume :=
  let r := readLoop (blockToSector block s.info.blockSize) (s.sectorsPerBlock * n % 4294967296)
    buffer s.device
  (r.1, { s with device := r.2 })

def writeStorage (capacity : Nat) (buffer : Buffer) (block n : Nat) (s : Volume) : Volume :=
  { s with
    device := writeLoop capacity (blockToSector block s.info.blockSize)
      (s.sectorsPerBlock * n % 4294967296) buffer s.device }

def writeObjectToBlock (capacity : Nat) (obj : Buffer) (block objSize : Nat) (s : Volume) :
    Volume :=
  let s := zeroBuffer s
  let s := { s with blockBuffer := memcpy s.blockBuffer 0 obj objSize }
  writeStorage capacity s.blockBuffer block 1 s

def readObjectFromBlock (obj : Buffer) (block objSize : Nat) (s : Volume) : Buffer × Volume :=
  let s := zeroBuffer s
  let r := readStorage s.blockBuffer block 1 s
  (memcpy obj 0 r.1 objSize, { r.2 with blockBuffer := r.1 })

def zeroBlock (capacity block : Nat) (s : Volume) : Volume :=
  let s := zeroBuffer s
  writeStorage capacity s.blockBuffer block 1 s

end OnAta

inductive BlockCall where
  | write (obj : Buffer) (block objSize : Nat)
  | zero (block : Nat)
  | read (dst : Buffer) (block objSize : Nat)

def BlockCall.block : BlockCall → Nat
  | .write _ b _ => b
  | .zero b => b
  | .read _ b _ => b

/-- The size of the object that is copied through the block buffer. -/
def BlockCall.objSize : BlockCall → Nat
  | .write _ _ objSize => objSize
  | .zero _ => 0
  | .read _ _ objSize => objSize

def BlockCall.run (capacity : Nat) (s : Volume) : BlockCall → Volume
  | .write obj b objSize => OnAta.writeObjectToBlock capacity obj b objSize s
  | .zero b => OnAta.zeroBlock capacity b s
  | .read dst b objSize => (OnAta.readObjectFromBlock dst b objSize s).2

/-- What the call puts into its block. -/
def BlockCall.content : BlockCall → Option Buffer
  | .write obj _ objSize => some (padded obj objSize)
  | .zero _ => some fun _ => 0
  | .read _ _ _ => none

/-- The blocks after a call if they are kept apart. -/
def BlockCall.put (blocks : Nat → Buffer) (e : BlockCall) : Nat → Buffer := fun c =>
  if c = e.block then e.content.getD (blocks c) else blocks c

/-! ## Where the blocks lie -/

/-- Sector `i` of block `b` on the drive, with `k` sectors for each block. -/
def driveSector (k b i : Nat) : Nat := (b * k + i) % 268435456

/-- The two blocks have no sector in common. -/
def SectorsApart (k b b' : Nat) : Prop := ∀ i < k, ∀ j < k, driveSector k b i ≠ driveSector k b' j

/-- A drive of `capacity` sectors has all the sectors of the block. -/
def OnDrive (capacity k b : Nat) : Prop := ∀ i < k, driveSector k b i < capacity

/-- The content of block `b` on the drive. -/
def stored (s : Volume) (b : Nat) : Buffer := fun a =>
  s.device.bytes (driveSector s.sectorsPerBlock b (a / sectorSizeBytes) * sectorSizeBytes +
    a % sectorSizeBytes)

variable {s t : Volume} {b b' c n k start capacity : Nat} {buffer : Buffer} {d : Device}

theorem readLoop_eq : readLoop start n buffer d =
    readSectors sectorSizeBytes (fun i => (start + i) % 4294967296 % 268435456) n buffer d := by
  induction n with
  | zero => rfl
  | succ n ih =>
    rw [readLoop, ih, readSectors]
    dsimp only
    rw [Ata.readSectors, Ata.lba_select]
    congr 1
    exact memcpy_congr _ _ fun i hi => memcpy_zero_apply hi

/-- A byte of a sector when sector `lba` is copied to. -/
theorem memcpy_sector (dst src : Buffer) (lba : Nat) {l j : Nat} (hj : j < sectorSizeBytes) :
    memcpy dst (lba * sectorSizeBytes) src sectorSizeBytes (l * sectorSizeBytes + j) =
      if l = lba then src j else dst (l * sectorSizeBytes + j) := by
  split_ifs with hSame
  · rw [hSame, memcpy_of_mem (Nat.le_add_right _ _) (by omega), Nat.add_sub_cancel_left]
  · exact memcpy_of_not_mem (offset_of_ne hSame hj)

/-- The sectors that the drive has are written, and the others are left alone. -/
theorem writeLoop_apply (capacity start n : Nat) (buffer : Buffer) (d : Device) {l j : Nat}
    (hj : j < sectorSizeBytes) :
    (writeLoop capacity start n buffer d).bytes (l * sectorSizeBytes + j) =
      if l < capacity then
        (writeSectors sectorSizeBytes (fun i => (start + i) % 4294967296 % 268435456) n buffer
          d).bytes (l * sectorSizeBytes + j)
      else d.bytes (l * sectorSizeBytes + j) := by
  induction n with
  | zero => exact (ite_self _).symm
  | succ n ih =>
    rw [writeLoop, OnAta.writeSectors, writeSectors, Ata.lba_select]
    dsimp only
    rw [memcpy_sector _ _ _ hj]
    split_ifs at ih ⊢ with hLba hHas hSame hHas hSame
    · rw [Ata.writeSectors, Ata.lba_select]
      exact (memcpy_sector _ _ _ hj).trans (if_pos hSame)
    · rw [Ata.writeSectors, Ata.lba_select]
      exact ((memcpy_sector _ _ _ hj).trans (if_neg hSame)).trans ih
    · rw [Ata.writeSectors, Ata.lba_select]
      -- the sector that is written is one the drive has
      have hOther : l ≠ _ := fun hSame => hHas (hSame.symm ▸ hLba)
      exact ((memcpy_sector _ _ _ hj).trans (if_neg hOther)).trans ih
    · exact absurd (hSame ▸ hHas) hLba
    · exact ih
    · exact ih

/-- The 32 bits of the file system lose nothing that the 28 of the drive keep. -/
theorem driveSector_eq (h : Sized s) (b i : Nat) :
    (blockToSector b s.info.blockSize + i) % 4294967296 % 268435456 =
      driveSector s.sectorsPerBlock b i := by
  rw [blockToSector, ← h.sectors, driveSector]
  omega

/-- The sectors of one block differ. -/
theorem driveSector_inj (h : Sized s) {i j : Nat} (hi : i < s.sectorsPerBlock)
    (hj : j < s.sectorsPerBlock)
    (hSame : driveSector s.sectorsPerBlock b i = driveSector s.sectorsPerBlock b j) : i = j := by
  have hLt := s.info.blockSize_lt
  have hMul := h.mul
  unfold sectorSizeBytes at hMul
  unfold driveSector at hSame
  omega

/-- Blocks in front of the last address are apart. -/
theorem sectorsApart_of_le (hb : (b + 1) * k ≤ 268435456) (hb' : (b' + 1) * k ≤ 268435456)
    (hne : b ≠ b') : SectorsApart k b b' := by
  intro i hi j hj
  rw [Nat.succ_mul] at hb hb'
  rw [driveSector, driveSector, Nat.mod_eq_of_lt (by omega), Nat.mod_eq_of_lt (by omega)]
  rcases Nat.lt_or_gt_of_ne hne with hLt | hGt
  · have := Nat.mul_le_mul_right k (Nat.succ_le_of_lt hLt)
    rw [Nat.succ_mul] at this
    omega
  · have := Nat.mul_le_mul_right k (Nat.succ_le_of_lt hGt)
    rw [Nat.succ_mul] at this
    omega

/-- The first byte of a sector. -/
theorem stored_first (s : Volume) (b i : Nat) :
    stored s b (i * sectorSizeBytes) =
      s.device.bytes (driveSector s.sectorsPerBlock b i * sectorSizeBytes) := by
  rw [stored, Nat.mul_div_cancel i (by decide), Nat.mul_mod_left, Nat.add_zero]

/-! ## One call -/

theorem place_lt (h : Sized s) {a : Nat} (ha : a < s.info.blockSize) :
    a / sectorSizeBytes < s.sectorsPerBlock ∧ a % sectorSizeBytes < sectorSizeBytes := by
  have hMul := h.mul
  unfold sectorSizeBytes at hMul ⊢
  omega

theorem count_one (h : Sized s) : s.sectorsPerBlock * 1 % 4294967296 = s.sectorsPerBlock := by
  rw [Nat.mul_one]
  exact Nat.mod_eq_of_lt h.sectors_lt

theorem OnAta.readStorage_spec (h : Sized s) (buffer : Buffer) (b : Nat) :
    (∀ a < s.info.blockSize, (OnAta.readStorage buffer b 1 s).1 a = stored s b a) ∧
      (OnAta.readStorage buffer b 1 s).2.device.bytes = s.device.bytes := by
  have hRead : OnAta.readStorage buffer b 1 s =
      let r := readSectors sectorSizeBytes (driveSector s.sectorsPerBlock b) s.sectorsPerBlock
        buffer s.device
      (r.1, { s with device := r.2 }) := by
    rw [OnAta.readStorage, readLoop_eq, count_one h]
    simp only [driveSector_eq h]
  rw [hRead]
  refine ⟨fun a ha => ?_, (readSectors_device _ _).1⟩
  obtain ⟨hSector, hOffset⟩ := place_lt h ha
  rw [stored, ← readSectors_apply buffer s.device hSector hOffset, Nat.div_add_mod']

/-- What becomes of a byte of a block in a write of one block. -/
theorem OnAta.stored_writeStorage (capacity : Nat) (h : Sized s) (buffer : Buffer) (b c : Nat)
    {a : Nat} (ha : a < s.info.blockSize) :
    stored (OnAta.writeStorage capacity buffer b 1 s) c a =
      if driveSector s.sectorsPerBlock c (a / sectorSizeBytes) < capacity then
        (Machine.writeSectors sectorSizeBytes (driveSector s.sectorsPerBlock b) s.sectorsPerBlock
          buffer s.device).bytes (driveSector s.sectorsPerBlock c (a / sectorSizeBytes) *
            sectorSizeBytes + a % sectorSizeBytes)
      else stored s c a := by
  rw [stored, OnAta.writeStorage, count_one h]
  refine (writeLoop_apply _ _ _ _ _ (place_lt h ha).2).trans ?_
  simp only [driveSector_eq h]
  rfl

/-- A block that the drive has is written, and the blocks apart from it are left alone. -/
theorem OnAta.writeStorage_spec (capacity : Nat) (h : Sized s) (buffer : Buffer) (b : Nat) :
    (OnDrive capacity s.sectorsPerBlock b → ∀ a < s.info.blockSize,
      stored (OnAta.writeStorage capacity buffer b 1 s) b a = buffer a) ∧
      ∀ c, SectorsApart s.sectorsPerBlock c b → ∀ a < s.info.blockSize,
        stored (OnAta.writeStorage capacity buffer b 1 s) c a = stored s c a := by
  constructor
  · intro hHas a ha
    obtain ⟨hSector, hOffset⟩ := place_lt h ha
    have hByte := writeSectors_apply buffer s.device
      (fun i hi j hj => driveSector_inj (b := b) h hi hj) hSector hOffset
    rw [Nat.div_add_mod'] at hByte
    rw [OnAta.stored_writeStorage capacity h buffer b b ha, if_pos (hHas _ hSector)]
    exact hByte
  · intro c hApart a ha
    obtain ⟨hSector, hOffset⟩ := place_lt h ha
    rw [OnAta.stored_writeStorage capacity h buffer b c ha]
    split_ifs
    · exact writeSectors_of_ne buffer s.device (fun i hi => hApart _ hSector i hi) hOffset
    · rfl

/-! ## Runs -/

theorem OnAta.writeStorage_touched (s : Volume) (b : Nat) (buffer : Buffer) :
    Touched s (OnAta.writeStorage capacity buffer b 1 s) := ⟨rfl, rfl, rfl, rfl, rfl⟩

theorem BlockCall.run_touched (s : Volume) (e : BlockCall) : Touched s (e.run capacity s) := by
  cases e with
  | write obj b objSize =>
    exact (blockBuffer_touched s _).trans (OnAta.writeStorage_touched _ b _)
  | zero b => exact (zeroBuffer_touched s).trans (OnAta.writeStorage_touched _ b _)
  | read dst b objSize => exact ⟨rfl, rfl, rfl, rfl, rfl⟩

/-- A call changes its own block, and at most those that are not apart from it. -/
theorem BlockCall.run_spec (capacity : Nat) (h : Sized s) (e : BlockCall) :
    (OnDrive capacity s.sectorsPerBlock e.block → ∀ a < s.info.blockSize,
        stored (e.run capacity s) e.block a = e.content.getD (stored s e.block) a) ∧
      ∀ c, SectorsApart s.sectorsPerBlock c e.block → ∀ a < s.info.blockSize,
        stored (e.run capacity s) c a = stored s c a := by
  cases e with
  | write obj b objSize =>
    have hTouched := blockBuffer_touched s
      (memcpy (memset s.blockBuffer 0 0 s.info.blockSize) 0 obj objSize)
    obtain ⟨hSelf, hOther⟩ := OnAta.writeStorage_spec capacity (h.touched hTouched)
      (memcpy (memset s.blockBuffer 0 0 s.info.blockSize) 0 obj objSize) b
    refine ⟨fun hHas a ha => (hSelf hHas a ha).trans ?_, hOther⟩
    exact prepared_apply s.blockBuffer obj objSize ha
  | zero b =>
    obtain ⟨hSelf, hOther⟩ := OnAta.writeStorage_spec capacity (h.touched (zeroBuffer_touched s))
      (zeroBuffer s).blockBuffer b
    refine ⟨fun hHas a ha => (hSelf hHas a ha).trans ?_, hOther⟩
    exact memset_of_mem (Nat.zero_le a) (by omega)
  | read dst b objSize =>
    have hBytes := (OnAta.readStorage_spec (h.touched (zeroBuffer_touched s))
      (zeroBuffer s).blockBuffer b).2
    have hStored : stored ((BlockCall.read dst b objSize).run capacity s) = stored s := by
      funext c a
      exact congrFun hBytes _
    rw [hStored]
    exact ⟨fun _ _ _ => rfl, fun _ _ _ _ => rfl⟩

/-- Reading an object gives the front of its block. -/
theorem OnAta.readObjectFromBlock_apply (h : Sized s) (dst : Buffer) (b : Nat) {objSize i : Nat}
    (hSize : objSize ≤ s.info.blockSize) (hi : i < objSize) :
    (OnAta.readObjectFromBlock dst b objSize s).1 i = stored s b i := by
  have hRead := (OnAta.readStorage_spec (h.touched (zeroBuffer_touched s))
    (zeroBuffer s).blockBuffer b).1 i (Nat.lt_of_lt_of_le hi hSize)
  rw [OnAta.readObjectFromBlock]
  exact (memcpy_zero_apply hi).trans hRead

/-- The blocks of `B` hold what they would if they were kept apart. -/
theorem stored_run {B : Set Nat} {es : List BlockCall} (h : Sized s)
    (hApart : B.Pairwise (SectorsApart s.sectorsPerBlock))
    (hHas : ∀ b ∈ B, OnDrive capacity s.sectorsPerBlock b) (hBlocks : ∀ e ∈ es, e.block ∈ B) :
    Touched s (es.foldl (BlockCall.run capacity) s) ∧ ∀ b ∈ B, ∀ a < s.info.blockSize,
      stored (es.foldl (BlockCall.run capacity) s) b a = es.foldl BlockCall.put (stored s) b a := by
  induction es using List.reverseRecOn with
  | nil => exact ⟨⟨rfl, rfl, rfl, rfl, rfl⟩, fun _ _ _ _ => rfl⟩
  | append_singleton es e ih =>
    obtain ⟨hTouched, hStored⟩ := ih fun e he => hBlocks e (List.mem_append_left _ he)
    have hMem := hBlocks e (List.mem_append_right _ (List.mem_singleton_self e))
    obtain ⟨hSelf, hOther⟩ := BlockCall.run_spec capacity (h.touched hTouched) e
    rw [List.foldl_append, List.foldl_append]
    refine ⟨hTouched.trans (e.run_touched _), fun b hb a ha => ?_⟩
    rw [hTouched.info] at hSelf hOther
    rw [hTouched.sectorsPerBlock] at hSelf hOther
    rw [List.foldl_cons, List.foldl_nil, List.foldl_cons, List.foldl_nil, BlockCall.put]
    split_ifs with hBlock
    · rw [hBlock, hSelf (hHas _ hMem) a ha]
      cases e.content with
      | none => exact hStored _ hMem a ha
      | some content => rfl
    · rw [hOther b (hApart hb hMem hBlock) a ha]
      exact hStored b hb a ha

/-- A volume of this format on a drive of zeros. -/
def emptyDrive (info : FsDescriptor) : Volume where
  globalSuperBlock := .create info.superBlockIdx info
  blockBuffer := fun _ => 0
  sectorsPerBlock := info.blockSize / sectorSizeBytes
  superBlockIdx := info.superBlockIdx
  info := info
  cache := fun _ => 0
  device := ⟨fun _ => 0, []⟩

/-- Block `b` is filled with ones on a drive of zeros. -/
def onesIn (info : FsDescriptor) (b : Nat) : BlockCall := .write (fun _ => 1) b info.blockSize

/-- The blocks of `B` can be used side by side, each reading back what was written to it last, if
and only if no two of them have a sector in common on the drive and the drive has all their
sectors. -/
theorem independent_iff (capacity : Nat) {info : FsDescriptor} (hPos : 0 < info.blockSize)
    (hAligned : info.blockSize % sectorSizeBytes = 0) (B : Set Nat) :
    (∀ s, Sized s → s.info = info → ∀ es : List BlockCall,
      (∀ e ∈ es, e.block ∈ B ∧ e.objSize ≤ info.blockSize) →
      ∀ b ∈ B, ∀ dst objSize, objSize ≤ info.blockSize → ∀ i < objSize,
        (OnAta.readObjectFromBlock dst b objSize (es.foldl (BlockCall.run capacity) s)).1 i =
          es.foldl BlockCall.put (stored s) b i) ↔
    B.Pairwise (SectorsApart (info.blockSize / sectorSizeBytes)) ∧
      ∀ b ∈ B, OnDrive capacity (info.blockSize / sectorSizeBytes) b := by
  constructor
  · intro hReads
    have hSized : Sized (emptyDrive info) := ⟨hPos, hAligned, rfl⟩
    have hInside : ∀ l < info.blockSize / sectorSizeBytes, l * sectorSizeBytes < info.blockSize :=
      fun l hl => Nat.lt_of_lt_of_eq (Nat.mul_lt_mul_of_pos_right hl (by decide)) hSized.mul
    -- after the ones the sector holds what the blocks kept apart would
    have hFirst : ∀ b ∈ B, ∀ b' ∈ B, ∀ l < info.blockSize / sectorSizeBytes,
        stored ((onesIn info b).run capacity (emptyDrive info)) b' (l * sectorSizeBytes) =
          (onesIn info b).put (stored (emptyDrive info)) b' (l * sectorSizeBytes) := by
      intro b hb b' hb' l hl
      have hTouched : Touched (emptyDrive info) ((onesIn info b).run capacity (emptyDrive info)) :=
        (onesIn info b).run_touched _
      have hRead := OnAta.readObjectFromBlock_apply (hSized.touched hTouched) (fun _ => 0) b'
        (hTouched.info ▸ Nat.le_refl info.blockSize) (hInside l hl)
      exact hRead.symm.trans (hReads (emptyDrive info) hSized rfl [onesIn info b]
        (by simp [onesIn, BlockCall.block, hb, BlockCall.objSize]) b' hb' (fun _ => 0)
        info.blockSize (Nat.le_refl _) _ (hInside l hl))
    have hOnes : ∀ b, ∀ l < info.blockSize / sectorSizeBytes,
        (onesIn info b).put (stored (emptyDrive info)) b (l * sectorSizeBytes) = 1 :=
      fun b l hl => (congrFun (if_pos rfl) _).trans (if_pos (hInside l hl))
    have hHas : ∀ b ∈ B, OnDrive capacity (info.blockSize / sectorSizeBytes) b := by
      intro b hb l hl
      by_contra hOut
      have hLost : stored ((onesIn info b).run capacity (emptyDrive info)) b
          (l * sectorSizeBytes) = 0 :=
        (OnAta.stored_writeStorage capacity (hSized.touched (blockBuffer_touched _ _)) _ b b
          (hInside l hl)).trans (if_neg (by rwa [Nat.mul_div_cancel l (by decide)]))
      exact absurd (hLost.symm.trans ((hFirst b hb b hb l hl).trans (hOnes b l hl))) (by decide)
    refine ⟨fun b hb b' hb' hne i hi j hj hSame => ?_, hHas⟩
    -- the sector in common is read in block `b'` after the ones in block `b`
    have hCommon : stored ((onesIn info b).run capacity (emptyDrive info)) b (i * sectorSizeBytes) =
        stored ((onesIn info b).run capacity (emptyDrive info)) b' (j * sectorSizeBytes) := by
      rw [stored_first, stored_first, ((onesIn info b).run_touched _).sectorsPerBlock]
      exact congrArg (fun sector => ((onesIn info b).run capacity (emptyDrive info)).device.bytes
        (sector * sectorSizeBytes)) hSame
    have hZero : (onesIn info b).put (stored (emptyDrive info)) b' (j * sectorSizeBytes) = 0 :=
      congrFun (if_neg hne.symm) _
    have hOne := (hFirst b hb b hb i hi).trans (hOnes b i hi)
    exact absurd (hOne.symm.trans (hCommon.trans ((hFirst b hb b' hb' j hj).trans hZero)))
      (by decide)
  · rintro ⟨hApart, hHas⟩ s h rfl es hCalls b hb dst objSize hSize i hi
    rw [← h.sectors] at hApart hHas
    obtain ⟨hTouched, hStored⟩ := stored_run h hApart hHas fun e he => (hCalls e he).1
    rw [OnAta.readObjectFromBlock_apply (h.touched hTouched) dst b (hTouched.info ▸ hSize) hi]
    exact hStored b hb i (Nat.lt_of_lt_of_le hi hSize)

/-- Blocks of two sectors on a drive of ten mebibytes: block 5 keeps its object while block 6 is
cleared. -/
theorem independent_twoSectors :
    (OnAta.readObjectFromBlock (fun _ => 0) 5 84
      ([BlockCall.write (fun _ => 7) 5 84, .zero 6].foldl (BlockCall.run 20480)
        twoSectorBlocks)).1 83 = 7 := by
  have hLe : ∀ b < 10240, (b + 1) * 2 ≤ 20480 :=
    fun b hb => Nat.mul_le_mul_right 2 (Nat.succ_le_of_lt hb)
  have hApart : {b : Nat | b < 10240}.Pairwise (SectorsApart (1024 / sectorSizeBytes)) :=
    fun b hb b' hb' hne => sectorsApart_of_le ((hLe b hb).trans (by decide))
      ((hLe b' hb').trans (by decide)) hne
  have hHas : ∀ b ∈ {b : Nat | b < 10240}, OnDrive 20480 (1024 / sectorSizeBytes) b := by
    intro b hb i hi
    have hEnd := hLe b hb
    exact Nat.lt_of_le_of_lt (Nat.mod_le _ _) (by unfold sectorSizeBytes at hi ⊢; omega)
  have hCalls : ∀ e ∈ [BlockCall.write (fun _ => 7) 5 84, .zero 6],
      e.block ∈ {b : Nat | b < 10240} ∧ e.objSize ≤ 1024 := by
    simp [BlockCall.block, BlockCall.objSize]
  have hReads := (@independent_iff 20480 twoSectorBlocks.info (by decide) (by decide)
    {b | b < 10240}).mpr ⟨hApart, hHas⟩ twoSectorBlocks mounted_twoSectorBlocks.toSized rfl
  exact hReads _ hCalls 5 (by decide : 5 < 10240) _ 84 (by decide) 83 (by decide)

end Juos.Ext2
