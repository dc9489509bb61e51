import Juos.Ext2.Files

/-!
# The entry of a new file in the cache

`CreateFile` accepts names of less than 512 bytes, but an entry of `_file_inodes_cache` has room for
256, and the copy of the name ends before its NUL. So the entry of a new file is right exactly when
the name fits with its NUL and the entry already holds a zero behind it (`ownEntryOnly_iff`). A
longer name runs over the index of its own entry, then over the next entry, or past the array.
-/

namespace Juos.Ext2

open Machine

variable {s t : Volume} {cache : Buffer} {filename : List UInt8} {i idx a : Nat}

/-- The size of `FileInode::name` -/
abbrev sizeofName : Nat := 256

/-- Between two states of the cache, a file was entered at `i` and nothing else was changed. -/
structure OwnEntryOnly (cache cache' : Buffer) (i idx : Nat) (filename : List UInt8) : Prop where
  index : cachedInodeIdx cache' i = idx
  fits : filename.length < sizeofName
  name : ∀ k (hk : k < filename.length), cache' (sizeofFileInode * i + k) = filename[k]
  terminated : cache' (sizeofFileInode * i + filename.length) = 0
  others : ∀ j < maxFiles, j ≠ i → ∀ k < sizeofFileInode,
    cache' (sizeofFileInode * j + k) = cache (sizeofFileInode * j + k)
  outside : ∀ a, sizeofFileInode * maxFiles ≤ a → cache' a = cache a

/-! ## The copy of a name -/

theorem setFileInode_name {k : Nat} (hk : k < filename.length) :
    setFileInode cache i idx filename (sizeofFileInode * i + k) = filename[k] := by
  rw [setFileInode, memcpy_of_mem (Nat.le_add_right _ _) (Nat.add_lt_add_left hk _),
    Nat.add_sub_cancel_left, List.getD_eq_getElem?_getD, List.getElem?_eq_getElem hk,
    Option.getD_some]

/-- The byte behind a name that fits is left as it was. -/
theorem setFileInode_terminator (hFits : filename.length < sizeofName) :
    setFileInode cache i idx filename (sizeofFileInode * i + filename.length) =
      cache (sizeofFileInode * i + filename.length) := by
  unfold sizeofName at hFits
  rw [setFileInode, memcpy_of_not_mem (Or.inr (Nat.le_refl _)), memcpy_of_not_mem (by omega)]

/-- A name that fits stays in its entry. -/
theorem setFileInode_of_away (hFits : filename.length < sizeofName)
    (hAway : a < sizeofFileInode * i ∨ sizeofFileInode * i + sizeofFileInode ≤ a) :
    setFileInode cache i idx filename a = cache a := by
  unfold sizeofName at hFits
  unfold sizeofFileInode at hAway
  unfold setFileInode sizeofFileInode
  rw [memcpy_of_not_mem (by omega), memcpy_of_not_mem (by omega)]

theorem ownEntryOnly_setFileInode_iff (hi : i < maxFiles) (hIdx : idx < 4294967296) :
    OwnEntryOnly cache (setFileInode cache i idx filename) i idx filename ↔
      filename.length < sizeofName ∧
        cache (sizeofFileInode * i + filename.length) = 0 := by
  constructor
  · intro hOwn
    exact ⟨hOwn.fits, (setFileInode_terminator hOwn.fits).symm.trans hOwn.terminated⟩
  · rintro ⟨hFits, hZero⟩
    unfold maxFiles at hi
    refine ⟨?_, hFits, fun k hk => setFileInode_name hk, ?_, fun j _ hne k hk => ?_, fun a ha => ?_⟩
    · exact cachedInodeIdx_setFileInode_self (Nat.le_of_lt hFits) hIdx
    · rw [setFileInode_terminator hFits]
      exact hZero
    · exact setFileInode_of_away hFits (by unfold sizeofFileInode at hk ⊢; omega)
    · unfold sizeofFileInode maxFiles at ha
      exact setFileInode_of_away hFits (by unfold sizeofFileInode; omega)

/-! ## The call -/

theorem readBitmaps_isSome (hSize : s.info.blockSize ≠ 0) (d : BlockGroupDescriptor) :
    ∃ bg t, readBitmaps d s = some (bg, t) := ⟨_, _, if_pos hSize⟩

/-- Where the block size is not zero a group is always returned. -/
theorem getBlockGroup_isSome (unused : BitVec 14) (hSize : s.info.blockSize ≠ 0) (n : Nat) :
    ∃ bg t, getBlockGroup unused n true s = some (bg, t) := by
  have hRead := readDescriptor_touched s n
  have hCreate := createBlockGroup_touched (readDescriptor n s).2 unused n
  by_cases hMissing : (readDescriptor n s).1.Missing
  · rw [getBlockGroup, if_pos hMissing, if_pos rfl]
    apply readBitmaps_isSome
    rw [(hRead.trans hCreate).info]
    exact hSize
  · rw [getBlockGroup, if_neg hMissing]
    apply readBitmaps_isSome
    rw [hRead.info]
    exact hSize

/-- With a free entry and an accepted name a call returns exactly where it divides by no zero. -/
theorem exists_createFile_iff (unused : BitVec 14) (hIdx : getAvailableInodeIdx s = some idx)
    (hLen : filename.length < filenameLength) :
    (∃ t, createFile unused filename s = some (idx, t)) ↔ s.info.blockSize ≠ 0 ∧ Divisible s := by
  rw [createFile, hIdx, Option.bind_some]
  constructor
  · rintro ⟨t, hCreate⟩
    by_cases hAccept : filename.length < filenameLength ∧ Divisible s
    · rw [if_pos hAccept] at hCreate
      obtain ⟨⟨bg, v⟩, hGet, -⟩ := Option.map_eq_some_iff.mp hCreate
      exact ⟨(getBlockGroup_touched hGet).2, hAccept.2⟩
    · rw [if_neg hAccept] at hCreate
      exact absurd hCreate (by simp)
  · rintro ⟨hSize, hDivisible⟩
    obtain ⟨bg, v, hGet⟩ := getBlockGroup_isSome unused hSize (inodeIdxToBlockGroup s idx)
    rw [if_pos ⟨hLen, hDivisible⟩]
    simp only [hGet, Option.map_some]
    exact ⟨_, rfl⟩

/-- What a call leaves of the cache. -/
theorem createFile_cache {unused : BitVec 14} (h : createFile unused filename s = some (idx, t)) :
    t.cache = setFileInode s.cache (idx - 1) idx filename := by
  obtain ⟨k, -, hRest⟩ := Option.bind_eq_some_iff.mp h
  by_cases hAccept : filename.length < filenameLength ∧ Divisible s
  · rw [if_pos hAccept] at hRest
    obtain ⟨⟨bg, v⟩, hGet, hPair⟩ := Option.map_eq_some_iff.mp hRest
    obtain ⟨rfl, rfl⟩ := Prod.mk.inj hPair
    show setFileInode v.cache (k - 1) k filename = _
    rw [(getBlockGroup_touched hGet).1.cache]
  · rw [if_neg hAccept] at hRest
    exact absurd hRest (by simp)

/-- The index that is handed out is that of an entry. -/
theorem availableInodeIdx_le (hIdx : getAvailableInodeIdx s = some idx) :
    1 ≤ idx ∧ idx ≤ maxFiles := by
  obtain ⟨i, hFind, rfl⟩ := Option.map_eq_some_iff.mp hIdx
  obtain ⟨-, hMem, -⟩ := List.find?_range_eq_some.mp hFind
  exact ⟨Nat.succ_pos i, List.mem_range.mp hMem⟩

/-- With a free entry and an accepted name a call of `CreateFile` returns exactly where it divides
by no zero. It then touches only its own entry, and completes it, exactly when the name has room in
it with its NUL and a zero is there already. -/
theorem ownEntryOnly_iff (unused : BitVec 14) (hIdx : getAvailableInodeIdx s = some idx)
    (hLen : filename.length < filenameLength) :
    ((∃ t, createFile unused filename s = some (idx, t)) ↔
        s.info.blockSize ≠ 0 ∧ Divisible s) ∧
      ∀ t, createFile unused filename s = some (idx, t) →
        (OwnEntryOnly s.cache t.cache (idx - 1) idx filename ↔
          filename.length < sizeofName ∧
            s.cache (sizeofFileInode * (idx - 1) + filename.length) = 0) := by
  obtain ⟨hPos, hLe⟩ := availableInodeIdx_le hIdx
  unfold maxFiles at hLe
  refine ⟨exists_createFile_iff unused hIdx hLen, fun t hCreate => ?_⟩
  rw [createFile_cache hCreate]
  exact ownEntryOnly_setFileInode_iff (by unfold maxFiles; omega) (by omega)

/-- A volume with the cache of a new `Fs`. -/
def newCache : Volume :=
  { oneSectorBlocks with
    cache := setFileInode (memset (fun _ => 0xFF) 0 0 (sizeofFileInode * maxFiles)) 0 1 rootName }

theorem availableInodeIdx_newCache : getAvailableInodeIdx newCache = some 2 :=
  availableInodeIdx_of_used (used_root _) (by decide)

/-- A name of one letter is entered behind the root. -/
theorem ownEntryOnly_newCache : ∃ t, createFile 0 [97] newCache = some (2, t) ∧
    OwnEntryOnly newCache.cache t.cache 1 2 [97] := by
  obtain ⟨hReturns, hIff⟩ := ownEntryOnly_iff 0 availableInodeIdx_newCache
    (by decide : [(97 : UInt8)].length < filenameLength)
  obtain ⟨t, hCreate⟩ := hReturns.mpr ⟨by decide, by decide⟩
  exact ⟨t, hCreate, (hIff t hCreate).mpr ⟨by decide, by decide⟩⟩

/-- A name of 300 letters runs into the entry behind its own. -/
theorem not_ownEntryOnly : ∃ t,
    createFile 0 (List.replicate 300 97) newCache = some (2, t) ∧
      ¬OwnEntryOnly newCache.cache t.cache 1 2 (List.replicate 300 97) ∧
      newCache.cache (sizeofFileInode * 2) = 0 ∧ t.cache (sizeofFileInode * 2) = 97 := by
  have hLen : (List.replicate 300 (97 : UInt8)).length = 300 := List.length_replicate
  obtain ⟨t, hCreate⟩ := (exists_createFile_iff 0 availableInodeIdx_newCache
    (by rw [hLen]; decide : (List.replicate 300 (97 : UInt8)).length < filenameLength)).mpr
      ⟨by decide, by decide⟩
  have hCache := createFile_cache hCreate
  refine ⟨t, hCreate, fun hOwn => ?_, by decide, ?_⟩
  · have hFits := hOwn.fits
    rw [hLen] at hFits
    exact absurd hFits (by decide)
  · have hName : setFileInode newCache.cache 1 2 (List.replicate 300 97)
        (sizeofFileInode * 1 + sizeofFileInode) = _ := setFileInode_name (by rw [hLen]; decide)
    rw [List.getElem_replicate] at hName
    rw [hCache]
    exact hName

end Juos.Ext2
