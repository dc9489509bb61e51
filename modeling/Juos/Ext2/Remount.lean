import Juos.Ext2.Files
import Mathlib.Data.List.Induction

/-!
# Remounts

A new `Fs` clears the cache, so after a remount `_get_available_inode_idx` starts again behind the
root, whatever the inode bitmap on disk says. Inodes are safe as long as no file is created after a
remount that comes after the creation of a file (`inodes_survive_iff`); this includes the blocks of
one sector, whose second group is created over the first one.
-/

namespace Juos.Ext2

open Machine

variable {descriptor : FsDescriptor} {s t v : Volume} {n u idx : Nat} {bitmap : Buffer}

inductive Event where
  | mount
  | createFile (call : FileCall)

/-- Mounting again with the same descriptor, or creating a file. -/
def SessionStep (descriptor : FsDescriptor) (s : Volume) : Event → Volume → Prop
  | .mount, t => ∃ unused, mount descriptor unused s = some t
  | .createFile call, t => CreateStep s call t

/-- The calls of `CreateFile` in a run. -/
def filesOf (events : List Event) : List FileCall :=
  events.filterMap fun
    | .mount => none
    | .createFile call => some call

/-- How far a run has come. -/
inductive Phase where
  /-- no file was created -/
  | empty
  | created
  /-- mounted again after files were created -/
  | remounted
  /-- and files were created after that -/
  | reused
  deriving DecidableEq

def Phase.next : Phase → Event → Phase
  | .empty, .createFile _ => .created
  | .created, .mount => .remounted
  | .remounted, .createFile _ => .reused
  | phase, _ => phase

def phaseOf (events : List Event) : Phase := events.foldl Phase.next .empty

theorem Phase.of_next_mount {phase : Phase}
    (h : phase.next .mount = .empty ∨ phase.next .mount = .created) : phase = .empty := by
  cases phase with
  | empty => rfl
  | created => exact absurd h (by decide)
  | remounted => exact absurd h (by decide)
  | reused => exact absurd h (by decide)

theorem Phase.of_next_createFile {phase : Phase} (call : FileCall)
    (h : phase.next (.createFile call) ≠ .reused) : phase = .empty ∨ phase = .created := by
  cases phase with
  | empty => exact Or.inl rfl
  | created => exact Or.inr rfl
  | remounted => exact absurd rfl h
  | reused => exact absurd rfl h

/-- The descriptor on the device of the group of an inode. -/
def groupDescriptor (s : Volume) (idx : Nat) : BlockGroupDescriptor :=
  descriptorAt s.info.blockSize s.device.bytes (inodeIdxToBlockGroup s idx)

/-- The bit of an inode is set in the inode bitmap of its group on the device. -/
def BitSet (s : Volume) (idx : Nat) : Prop :=
  ¬(groupDescriptor s idx).Missing ∧
    block s.info.blockSize s.device.bytes (groupDescriptor s idx).inodeBitmapBlock.toNat
      (inodeIdxInBlockGroup s idx) ≠ 0

theorem phaseOf_concat (events : List Event) (event : Event) :
    phaseOf (events ++ [event]) = (phaseOf events).next event := by
  rw [phaseOf, List.foldl_append]
  rfl

theorem filesOf_mount (events : List Event) : filesOf (events ++ [.mount]) = filesOf events := by
  rw [filesOf, List.filterMap_append]
  exact List.append_nil _

theorem filesOf_createFile (events : List Event) (call : FileCall) :
    filesOf (events ++ [.createFile call]) = filesOf events ++ [call] := by
  rw [filesOf, List.filterMap_append]
  rfl

/-! ## Bits -/

theorem not_bitSet_of_missing (hGroup : inodeIdxToBlockGroup s idx = n)
    (hMissing : (descriptorAt s.info.blockSize s.device.bytes n).Missing) : ¬BitSet s idx := by
  intro hSet
  have hFound := hSet.1
  rw [groupDescriptor, hGroup] at hFound
  exact hFound hMissing

theorem bitSet_iff_of_groupAt (hGroup : inodeIdxToBlockGroup s idx = n)
    (hAt : GroupAt s.info.blockSize s.device.bytes n bitmap)
    (hLt : inodeIdxInBlockGroup s idx < s.info.blockSize) :
    BitSet s idx ↔ bitmap (inodeIdxInBlockGroup s idx) ≠ 0 := by
  unfold BitSet groupDescriptor
  rw [hGroup, hAt.inodeBitmapBlock, hAt.inodeBitmap _ hLt]
  exact and_iff_right hAt.not_missing

/-! ## The second group -/

/-- The group at `n` is there, or will be created with an empty bitmap. -/
def GroupOrMissing (s : Volume) (n : Nat) (bitmap : Buffer) : Prop :=
  GroupAt s.info.blockSize s.device.bytes n bitmap ∨
    1 ≤ n ∧ n ≤ 13 ∧ (descriptorAt s.info.blockSize s.device.bytes n).Missing ∧
      bitmap = fun _ => 0

theorem GroupOrMissing.obtained (h : GroupOrMissing s n bitmap) (hSized : Sized s)
    (unused : BitVec 14) :
    ∃ bg t, getBlockGroup unused n true s = some (bg, t) ∧ Obtained s n bitmap bg t := by
  rcases h with hAt | ⟨hPos, hFits, hMissing, rfl⟩
  · obtain ⟨bg, t, hGet, hObtained, -⟩ := getBlockGroup_of_groupAt hSized unused true hAt
    exact ⟨bg, t, hGet, hObtained⟩
  · exact getBlockGroup_of_missing hSized unused hPos hFits hMissing

/-- The first group is full, and the bits of the second one, which lies over it, are those of the
files from `513` to `u`. -/
structure SecondGroup (s : Volume) (u : Nat) : Prop where
  mounted : Mounted s
  size : s.info.blockSize = sectorSizeBytes
  le : sectorSizeBytes ≤ u
  used : Used s.cache u
  group : GroupOrMissing s (s.superBlockIdx + 2) fun i => if sectorSizeBytes + i < u then 1 else 0

/-- The block bitmap of the first group is no descriptor. -/
theorem FirstGroup.secondGroup (h : FirstGroup s u) (hIdx : s.superBlockIdx ≤ 11)
    (hSize : s.info.blockSize = sectorSizeBytes) (hu : u = sectorSizeBytes) : SecondGroup s u := by
  refine ⟨h.mounted, hSize, Nat.le_of_eq hu.symm, h.used, Or.inr ⟨by omega, by omega, ?_, ?_⟩⟩
  · apply missing_of_zero
    intro i hi
    exact h.group.blockBitmap i (Nat.lt_of_lt_of_le hi h.mounted.descriptor_le)
  · funext i
    exact if_neg (by omega)

theorem secondGroup_idx (h : SecondGroup s u) (hIdx : s.superBlockIdx ≤ 11) (hu : u < maxFiles) :
    inodeIdxToBlockGroup s (u + 1) = s.superBlockIdx + 2 ∧
      inodeIdxInBlockGroup s (u + 1) = u - sectorSizeBytes := by
  have hLe := h.le
  unfold sectorSizeBytes at hLe ⊢
  unfold maxFiles at hu
  have hFile : FileIdx (u + 1) := ⟨Nat.succ_pos u, hu⟩
  constructor
  · rw [blockGroup_eq h.mounted hFile, h.size]
    unfold sectorSizeBytes
    omega
  · rw [inodeIdxInBlockGroup, h.mounted.groupInodeSize, h.size]
    unfold sectorSizeBytes
    omega

theorem secondGroup_create (unused : BitVec 14) {filename : List UInt8} (h : SecondGroup s u)
    (hIdx : s.superBlockIdx ≤ 11) (hu : u < maxFiles) (hLen : filename.length < filenameLength)
    (hString : (0 : UInt8) ∉ filename) :
    ∃ t, createFile unused filename s = some (u + 1, t) ∧ SecondGroup t (u + 1) ∧ Kept s t := by
  obtain ⟨hGroupIdx, hInGroup⟩ := secondGroup_idx h hIdx hu
  have hLe := h.le
  have hTable : inodeIdxContainingBlock s (u + 1) ≥ 128 := by
    rw [containingBlock_eq_div h.mounted hu, h.size]
    unfold sectorSizeBytes sizeofInode at *
    omega
  obtain ⟨t, hCreate, hKept, hGroup, -⟩ := createFile_spec unused h.mounted h.used hu hLen
    hGroupIdx (h.group.obtained h.mounted.toSized unused) (by omega)
  obtain ⟨-, -, -, hUsed⟩ := used_createFile h.used hString hCreate
  refine ⟨t, hCreate, ⟨h.mounted.kept hKept, ?_, by omega, hUsed, Or.inl ?_⟩, hKept⟩
  · rw [hKept.info]
    exact h.size
  · rw [hKept.info, hKept.superBlockIdx]
    apply hGroup.of_bitmap
    intro i
    rw [hInGroup, Function.update_apply]
    split_ifs <;> first | rfl | omega

/-! ## Runs without reuse -/

/-- The root and the files `2`, ..., `u` were created since the device had none. -/
def Allocated (s : Volume) (u : Nat) : Prop :=
  (FirstGroup s u ∧ u ≤ s.info.blockSize) ∨ SecondGroup s u

theorem Allocated.mounted (h : Allocated s u) : Mounted s := by
  rcases h with ⟨hFirst, -⟩ | hSecond
  · exact hFirst.mounted
  · exact hSecond.mounted

theorem Allocated.used (h : Allocated s u) : Used s.cache u := by
  rcases h with ⟨hFirst, -⟩ | hSecond
  · exact hFirst.used
  · exact hSecond.used

/-- A new file gets an inode whose bit is clear. -/
theorem allocated_create (unused : BitVec 14) {filename : List UInt8} (h : Allocated s u)
    (hIdx : s.superBlockIdx ≤ 11) (hu : u < maxFiles) (hLen : filename.length < filenameLength)
    (hString : (0 : UInt8) ∉ filename) :
    ∃ t, createFile unused filename s = some (u + 1, t) ∧ Allocated t (u + 1) ∧ Kept s t ∧
      ¬BitSet s (u + 1) := by
  have hSplit : (FirstGroup s u ∧ u < s.info.blockSize) ∨ SecondGroup s u := by
    rcases h with ⟨hFirst, hLe⟩ | hSecond
    · rcases Nat.eq_or_lt_of_le hLe with hFull | hLt
      · have hAligned := hFirst.mounted.aligned
        have hPos := hFirst.mounted.pos
        have hSize : s.info.blockSize = sectorSizeBytes := by
          unfold maxFiles at hu
          unfold sectorSizeBytes at hAligned ⊢
          omega
        exact Or.inr (hFirst.secondGroup hIdx hSize (hFull.trans hSize))
      · exact Or.inl ⟨hFirst, hLt⟩
    · exact Or.inr hSecond
  rcases hSplit with ⟨hFirst, hLt⟩ | hSecond
  · obtain ⟨t, hCreate, hNext, hKept, -⟩ :=
      firstGroup_create unused filename hFirst hIdx hLt hu hLen hString
    obtain ⟨hGroupIdx, hInGroup⟩ := firstGroup_idx hFirst.mounted hIdx hLt hu
    have hIn : inodeIdxInBlockGroup s (u + 1) < s.info.blockSize := by
      rw [hInGroup]
      exact hLt
    have hNextLe : u + 1 ≤ t.info.blockSize := by
      rw [hKept.info]
      exact hLt
    refine ⟨t, hCreate, Or.inl ⟨hNext, hNextLe⟩, hKept, ?_⟩
    rw [bitSet_iff_of_groupAt hGroupIdx hFirst.group hIn, hInGroup]
    exact not_not.mpr (if_neg (by omega))
  · obtain ⟨t, hCreate, hNext, hKept⟩ := secondGroup_create unused hSecond hIdx hu hLen hString
    obtain ⟨hGroupIdx, hInGroup⟩ := secondGroup_idx hSecond hIdx hu
    refine ⟨t, hCreate, Or.inr hNext, hKept, ?_⟩
    rcases hSecond.group with hAt | ⟨-, -, hMissing, -⟩
    · have hLe := hSecond.le
      have hIn : inodeIdxInBlockGroup s (u + 1) < s.info.blockSize := by
        rw [hInGroup, hSecond.size]
        unfold maxFiles at hu
        unfold sectorSizeBytes
        omega
      rw [bitSet_iff_of_groupAt hGroupIdx hAt hIn, hInGroup]
      exact not_not.mpr (if_neg (by omega))
    · exact not_bitSet_of_missing hGroupIdx hMissing

/-- What a run leaves in which no file was created after a remount. -/
structure Session (descriptor : FsDescriptor) (events : List Event) (t : Volume) : Prop where
  info : t.info = descriptor
  allocated : Allocated t ((filesOf events).length + 1)

theorem filesOf_eq_nil {events : List Event} (h : phaseOf events = .empty) :
    filesOf events = [] := by
  induction events using List.reverseRecOn with
  | nil => rfl
  | append_singleton events event ih =>
    rw [phaseOf_concat] at h
    cases event with
    | mount =>
      rw [filesOf_mount]
      exact ih (Phase.of_next_mount (Or.inl h))
    | createFile call =>
      rcases Phase.of_next_createFile call (by rw [h]; decide) with hEmpty | hCreated
      · rw [hEmpty] at h
        exact absurd h (by simp [Phase.next])
      · rw [hCreated] at h
        exact absurd h (by simp [Phase.next])

theorem session_mount {events : List Event} {unused : BitVec 14}
    (h : Session descriptor events t) (hIdx : descriptor.superBlockIdx ≤ 11)
    (hNone : filesOf events = []) (hMount : mount descriptor unused t = some v) :
    Session descriptor (events ++ [.mount]) v := by
  have hMounted := h.allocated.mounted
  have hFirst : FirstGroup t 1 := by
    have hAllocated := h.allocated
    rw [hNone] at hAllocated
    rcases hAllocated with ⟨hFirst, -⟩ | hSecond
    · exact hFirst
    · exact absurd hSecond.le (by decide)
  have hNoFiles : NoFiles descriptor t.device.bytes := by
    have hGroup := hFirst.group
    rw [hMounted.superBlockIdx, h.info] at hGroup
    exact Or.inr (Or.inr (hGroup.of_bitmap fun i => (if_neg (by omega)).symm))
  have hPos := hMounted.pos
  have hAligned := hMounted.aligned
  rw [h.info] at hPos hAligned
  obtain ⟨w, hMount', hFirst', hInfo⟩ :=
    firstGroup_mount descriptor unused hPos hAligned hIdx hNoFiles
  obtain rfl : v = w := Option.some.inj (hMount.symm.trans hMount')
  refine ⟨hInfo, ?_⟩
  rw [filesOf_mount, hNone]
  exact Or.inl ⟨hFirst', hFirst'.mounted.pos⟩

/-- The step that creates a file gets an inode with a clear bit. -/
theorem session_create {events : List Event} {call : FileCall} (h : Session descriptor events t)
    (hIdx : descriptor.superBlockIdx ≤ 11) (hStep : CreateStep t call v) :
    Session descriptor (events ++ [.createFile call]) v ∧ ¬BitSet t call.inodeIdx := by
  obtain ⟨hString, unused, hCreate⟩ := hStep
  obtain ⟨hu, hLen, hNext, -⟩ := used_createFile h.allocated.used hString hCreate
  have hSuperIdx : t.superBlockIdx ≤ 11 := by
    rw [h.allocated.mounted.superBlockIdx, h.info]
    exact hIdx
  obtain ⟨w, hCreate', hAllocated, hKept, hClear⟩ :=
    allocated_create unused h.allocated hSuperIdx hu hLen hString
  obtain ⟨-, rfl⟩ := Prod.mk.inj (Option.some.inj (hCreate.symm.trans hCreate'))
  refine ⟨⟨hKept.info.trans h.info, ?_⟩, ?_⟩
  · rw [filesOf_createFile, List.length_append, List.length_singleton]
    exact hAllocated
  · rw [hNext]
    exact hClear

theorem session_run {events : List Event} (hFirst : FirstGroup s 1) (hInfo : s.info = descriptor)
    (hIdx : descriptor.superBlockIdx ≤ 11) (hRun : Run (SessionStep descriptor) s events t)
    (hPhase : phaseOf events = .empty ∨ phaseOf events = .created) :
    Session descriptor events t := by
  induction hRun with
  | refl => exact ⟨hInfo, Or.inl ⟨hFirst, hFirst.mounted.pos⟩⟩
  | @tail events event v w prior last ih =>
    rw [phaseOf_concat] at hPhase
    cases event with
    | mount =>
      obtain ⟨unused, hMount⟩ := last
      have hEmpty := Phase.of_next_mount hPhase
      exact session_mount (ih (Or.inl hEmpty)) hIdx (filesOf_eq_nil hEmpty) hMount
    | createFile call =>
      have hBefore : phaseOf events = .empty ∨ phaseOf events = .created := by
        apply Phase.of_next_createFile call
        intro hReused
        rw [hReused] at hPhase
        exact absurd hPhase (by decide)
      exact (session_create (ih hBefore) hIdx last).1

/-! ## The indices that are handed out -/

/-- What the phase says about the next index, `u + 1`, and the indices `idxs` before it: they count
up from `2`, until a remount makes `2` the next one again. -/
def Counting (phase : Phase) (u : Nat) (idxs : List Nat) : Prop :=
  match phase with
  | .empty => u = 1 ∧ idxs = []
  | .created => 2 ≤ u ∧ idxs = List.range' 2 (u - 1)
  | .remounted => u = 1 ∧ 2 ∈ idxs
  | .reused => ¬idxs.Nodup

variable {phase : Phase} {idxs : List Nat}

theorem Counting.mount (h : Counting phase u idxs) : Counting (phase.next .mount) 1 idxs := by
  cases phase with
  | empty => exact ⟨rfl, h.2⟩
  | created =>
    obtain ⟨hTwo, rfl⟩ := h
    refine ⟨rfl, List.mem_range'_1.mpr ?_⟩
    omega
  | remounted => exact ⟨rfl, h.2⟩
  | reused => exact h

theorem Counting.createFile (h : Counting phase u idxs) (call : FileCall) :
    Counting (phase.next (.createFile call)) (u + 1) (idxs ++ [u + 1]) := by
  cases phase with
  | empty =>
    obtain ⟨rfl, rfl⟩ := h
    exact ⟨Nat.le_refl 2, rfl⟩
  | created =>
    obtain ⟨hTwo, rfl⟩ := h
    refine ⟨Nat.le_succ_of_le hTwo, ?_⟩
    obtain ⟨m, rfl⟩ := Nat.exists_eq_add_of_le' hTwo
    rw [show m + 2 + 1 - 1 = m + 2 - 1 + 1 by omega, List.range'_1_concat,
      show 2 + (m + 2 - 1) = m + 2 + 1 by omega]
  | remounted =>
    obtain ⟨rfl, hTaken⟩ := h
    intro hNodup
    exact (List.nodup_append.mp hNodup).2.2 2 hTaken 2 (List.mem_singleton_self 2) rfl
  | reused => exact fun hNodup => h (List.nodup_append.mp hNodup).1

theorem Counting.not_mem (h : Counting phase u idxs) (hPhase : phase = .empty ∨ phase = .created) :
    u + 1 ∉ idxs := by
  rcases hPhase with rfl | rfl
  · obtain ⟨-, rfl⟩ := h
    exact List.not_mem_nil
  · obtain ⟨hTwo, rfl⟩ := h
    rw [List.mem_range'_1]
    omega

/-- Whatever the device holds, the cache decides which inodes are handed out. -/
theorem counting_run {events : List Event} (hUsed : Used s.cache 1)
    (hRun : Run (SessionStep descriptor) s events t) :
    ∃ u, Used t.cache u ∧ Counting (phaseOf events) u (handed (filesOf events)) := by
  induction hRun with
  | refl => exact ⟨1, hUsed, rfl, rfl⟩
  | @tail events event v w prior last ih =>
    obtain ⟨u, hCache, hCounting⟩ := ih
    rw [phaseOf_concat]
    cases event with
    | mount =>
      obtain ⟨unused, hMount⟩ := last
      rw [filesOf_mount]
      exact ⟨1, (used_mount hMount).1, hCounting.mount⟩
    | createFile call =>
      obtain ⟨hString, unused, hCreate⟩ := last
      obtain ⟨-, -, hNext, hCache'⟩ := used_createFile hCache hString hCreate
      rw [filesOf_createFile, handed, List.map_append, List.map_singleton, hNext]
      exact ⟨u + 1, hCache', hCounting.createFile call⟩

/-- After a remount the first file gets the inode `2`, though its bit is set on the device. -/
theorem bitSet_remount (unused : BitVec 14) (filename : List UInt8) (h : FirstGroup s u)
    (hFiles : 2 ≤ u) (hPos : 1 ≤ s.superBlockIdx) (hIdx : s.superBlockIdx ≤ 11)
    (hLen : filename.length < filenameLength) :
    ∃ t t', mount s.info unused s = some t ∧ createFile unused filename t = some (2, t') ∧
      BitSet t 2 := by
  have hSuperIdx := h.mounted.superBlockIdx
  obtain ⟨t, hMount, hMounted, hInfo, hGroup⟩ := mount_spec unused h.mounted.pos h.mounted.aligned
    (hSuperIdx ▸ hIdx) fun w hSized hInfo hBytes => by
      have hSame : GroupAt w.info.blockSize w.device.bytes (s.info.superBlockIdx + 1)
          fun i => if 1 ≤ i ∧ i < u then 1 else 0 := by
        rw [hInfo, hBytes, ← hSuperIdx]
        apply h.group.congr h.mounted.descriptor_le
        intro c hc i hi
        exact block_superBlock_of_le (by omega) hi
      obtain ⟨bg, t, hGet, hObtained, -⟩ :=
        getBlockGroup_of_groupAt hSized.toSized unused true hSame
      exact ⟨bg, t, hGet, hObtained⟩
  have hIdx' : t.superBlockIdx ≤ 11 := by
    rw [hMounted.superBlockIdx, hInfo, ← hSuperIdx]
    exact hIdx
  have hSector := hMounted.sector_le
  obtain ⟨hGroupIdx, hInGroup⟩ := firstGroup_idx hMounted hIdx'
    (Nat.lt_of_lt_of_le (by decide : 1 < sectorSizeBytes) hSector) (by decide)
  rw [← hInfo, ← hMounted.superBlockIdx] at hGroup
  obtain ⟨bg, v, hGet, hObtained, -⟩ := getBlockGroup_of_groupAt hMounted.toSized unused true hGroup
  obtain ⟨t', hCreate, -⟩ := createFile_spec unused hMounted (used_mount hMount).1 (by decide) hLen
    hGroupIdx ⟨bg, v, hGet, hObtained⟩ (by omega)
  refine ⟨t, t', hMount, hCreate, ?_⟩
  rw [bitSet_iff_of_groupAt hGroupIdx hGroup
    (hInGroup.symm ▸ Nat.lt_of_lt_of_le (by decide : 1 < sectorSizeBytes) hSector), hInGroup]
  rw [if_pos ⟨Nat.le_refl 1, hFiles⟩]
  decide

/-- Inodes survive remounts: no file gets an inode whose bit is set on the device or that was handed
out before. -/
def InodesSurvive (descriptor : FsDescriptor) (v : Volume) : Prop :=
  ∀ unused s events t call t', mount descriptor unused v = some s →
    Run (SessionStep descriptor) s events t → CreateStep t call t' →
    ¬BitSet t call.inodeIdx ∧ call.inodeIdx ∉ handed (filesOf events)

/-- No index is handed out twice in a run exactly when no file is created after a remount behind the
creation of a file; and then no file gets an inode whose bit is set, on a device without files whose
first group has block numbers of four bits. -/
theorem inodes_survive_iff (unused : BitVec 14) (hMount : mount descriptor unused v = some s) :
    (∀ events t call t', Run (SessionStep descriptor) s events t → CreateStep t call t' →
      phaseOf (events ++ [.createFile call]) ≠ .reused →
      call.inodeIdx ∉ handed (filesOf events) ∧
        (descriptor.superBlockIdx ≤ 11 → NoFiles descriptor v.device.bytes →
          ¬BitSet t call.inodeIdx)) ∧
    ∀ events t, Run (SessionStep descriptor) s events t → phaseOf events = .reused →
      ¬(handed (filesOf events)).Nodup := by
  obtain ⟨hUsed, hPos, hAligned⟩ := used_mount hMount
  refine ⟨fun events t call t' hRun hStep hPhase => ?_, fun events t hRun hPhase => ?_⟩
  · rw [phaseOf_concat] at hPhase
    have hBefore := Phase.of_next_createFile call hPhase
    obtain ⟨u, hCache, hCounting⟩ := counting_run hUsed hRun
    obtain ⟨-, -, hNext, -⟩ := used_createFile hCache hStep.1 hStep.2.choose_spec
    refine ⟨hNext ▸ hCounting.not_mem hBefore, fun hIdx hNoFiles => ?_⟩
    obtain ⟨w, hMount', hFirst, hInfo⟩ :=
      firstGroup_mount descriptor unused hPos hAligned hIdx hNoFiles
    obtain rfl : s = w := Option.some.inj (hMount.symm.trans hMount')
    exact (session_create (session_run hFirst hInfo hIdx hRun hBefore) hIdx hStep).2
  · obtain ⟨u, -, hCounting⟩ := counting_run hUsed hRun
    rw [hPhase] at hCounting
    exact hCounting

theorem firstGroup_blank : ∃ s, mount twoSectorDescriptor 0 blankDevice = some s ∧
    FirstGroup s 1 ∧ s.info = twoSectorDescriptor :=
  firstGroup_mount twoSectorDescriptor 0 (by decide) (by decide) (by decide)
    (Or.inr (Or.inl (by decide)))

/-- A file on a new device. -/
theorem firstGroup_blank_create (h : FirstGroup s u) (hInfo : s.info = twoSectorDescriptor)
    (hu : u < maxFiles) :
    ∃ t, CreateStep s ⟨[97], u + 1⟩ t ∧ FirstGroup t (u + 1) ∧ t.info = twoSectorDescriptor := by
  have hIdx : s.superBlockIdx = 1 := by
    rw [h.mounted.superBlockIdx, hInfo]
    rfl
  have hSize : u < s.info.blockSize := by
    rw [hInfo]
    exact hu
  obtain ⟨t, hCreate, hNext, hKept, -⟩ :=
    firstGroup_create 0 [97] h (by omega) hSize hu (by decide) (by decide)
  have hString : (0 : UInt8) ∉ [(97 : UInt8)] := by decide
  exact ⟨t, ⟨hString, 0, hCreate⟩, hNext, hKept.info.trans hInfo⟩

/-- Two files without a remount in between have two inodes. -/
theorem inodes_survive_two : ∃ s call t call' t',
    mount twoSectorDescriptor 0 blankDevice = some s ∧ CreateStep s call t ∧
      CreateStep t call' t' ∧ ¬BitSet t call'.inodeIdx ∧ call'.inodeIdx ∉ handed [call] := by
  obtain ⟨s, hMount, hFirst, hInfo⟩ := firstGroup_blank
  obtain ⟨hSafe, -⟩ := inodes_survive_iff 0 hMount
  obtain ⟨t, hOne, hSecond, hInfo'⟩ := firstGroup_blank_create hFirst hInfo (by decide)
  obtain ⟨t', hTwo, -⟩ := firstGroup_blank_create hSecond hInfo' (by decide)
  have hRun : Run (SessionStep twoSectorDescriptor) s [.createFile ⟨[97], 2⟩] t := .single hOne
  obtain ⟨hNew, hClear⟩ := hSafe _ t _ t' hRun hTwo (by decide)
  have hBit := hClear (by decide) (Or.inr (Or.inl (by decide)))
  exact ⟨s, _, t, _, t', hMount, hOne, hTwo, hBit, hNew⟩

/-- A file, a remount and another file: the second file gets the inode of the first. -/
theorem not_inodes_survive : ¬InodesSurvive twoSectorDescriptor blankDevice := by
  intro hSurvive
  obtain ⟨s, hMount, hFirst, hInfo⟩ := firstGroup_blank
  obtain ⟨t, hOne, hSecond, hInfo'⟩ := firstGroup_blank_create hFirst hInfo (by decide)
  have hIdx : t.superBlockIdx = 1 := by
    rw [hSecond.mounted.superBlockIdx, hInfo']
    rfl
  obtain ⟨v, v', hRemount, hAgain, hSet⟩ := bitSet_remount 0 [97] hSecond
    (Nat.le_refl 2) (by omega) (by omega) (by decide)
  rw [hInfo'] at hRemount
  have hRun : Run (SessionStep twoSectorDescriptor) s [.createFile ⟨[97], 2⟩, .mount] v :=
    .cons hOne (.single ⟨0, hRemount⟩)
  exact (hSurvive 0 s _ v ⟨[97], 2⟩ v' hMount hRun ⟨by decide, 0, hAgain⟩).1 hSet

end Juos.Ext2
