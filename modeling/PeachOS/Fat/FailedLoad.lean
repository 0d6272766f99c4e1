import PeachOS.Fat.Subdirectory
import PeachOS.Memory.Blocks

/-!
# A subdirectory that cannot be loaded

`fat16_load_fat_directory` frees the directory when its buffer cannot be allocated
or read, and returns the pointer all the same.  The item that is made for the
directory keeps that pointer, and `fat16_find_item_in_directory` reads through it.
-/

namespace PeachOS

open Lib

/-- What the functions keep in their blocks: a `struct fat_item` with the pointer that
its type selects, a `struct fat_directory`, its buffer, and the copy of an entry. -/
inductive ItemBlock where
  | directoryItem (directory : Ptr)
  | fileItem (item : Ptr)
  | directory (item : Ptr) (total : Int)
  | buffer (bytes : List Byte)
  | entry (item : FatDirectoryItem)

abbrev ItemBlocks := Blocks ItemBlock

def fat16FreeDirectoryBlocks (b : ItemBlocks) (directory : Ptr) : Except Halt ItemBlocks :=
  if directory = 0 then
    .ok b
  else
    match b.live directory with
    | some (.directory item _) =>
        let freed := if item = 0 then .ok b else b.kfree item
        freed >>= fun b => b.kfree directory
    | _ => .error .fault

def fat16FatItemFreeBlocks (b : ItemBlocks) (item : Ptr) : Except Halt ItemBlocks :=
  match b.live item with
  | some (.directoryItem directory) => do
      let b ← fat16FreeDirectoryBlocks b directory
      b.kfree item
  | some (.fileItem entry) => do
      let b ← b.kfree entry
      b.kfree item
  | _ => .error .fault

/-- What `fat16_load_fat_directory` does behind `out`. -/
def fat16LoadOut (res : Int) (directory : Ptr) (b : ItemBlocks) :
    Except Halt (Int × Ptr × ItemBlocks) :=
  if res ≠ 0 then do
    let b ← fat16FreeDirectoryBlocks b directory
    pure (res, directory, b)
  else
    .ok (res, directory, b)

section Functions

variable (disk : Disk) (fatPrivate : FatPrivate) (stale : Nat → Byte)

/-- The status, which stays inside the function, and the pointer that is returned;
`stale` is what the blocks of the buffer held before. -/
def fat16LoadFatDirectoryBlocks (item : FatDirectoryItem) (b : ItemBlocks) :
    Except Halt (Int × Ptr × ItemBlocks) :=
  if item.attributes &&& fatFileSubdirectory = 0 then
    fat16LoadOut (-einvarg) 0 b
  else
    let (directory, b) := b.kzalloc (.directory 0 0)
    if directory = 0 then
      fat16LoadOut (-enomem) 0 b
    else do
      let cluster := fat16GetFirstCluster item
      let clusterSector ← fat16ClusterToSector fatPrivate cluster
      let totalItems ←
        fat16GetItemsForDirectory disk fatPrivate (BitVec.ofInt 32 clusterSector).toNat
      let directorySize := toInt (totalItems + fatItemSize)
      let zeroed := kzallocBlocks stale directorySize.toNat
      let (buffer, b) := b.kzalloc (.buffer zeroed)
      let b ← b.write directory (.directory buffer totalItems)
      if buffer = 0 then
        fat16LoadOut (-enomem) directory b
      else do
        let (res, out) ← fat16ReadInternal disk fatPrivate cluster 0 directorySize
        let b ← b.write buffer (.buffer (out ++ zeroed.drop out.length))
        fat16LoadOut res directory b

/-- Without a block for the copy of an entry the pointer to it is null. -/
def fat16NewFatItemBlocks (item : FatDirectoryItem) (b : ItemBlocks) :
    Except Halt (Ptr × ItemBlocks) :=
  let (fItem, b) := b.kzalloc (.directoryItem 0)
  if fItem = 0 then
    .ok (0, b)
  else if item.attributes &&& fatFileSubdirectory ≠ 0 then do
    let (_, directory, b) ← fat16LoadFatDirectoryBlocks disk fatPrivate stale item b
    let b ← b.write fItem (.directoryItem directory)
    pure (fItem, b)
  else do
    let (entry, b) := b.kzalloc (.entry item)
    let b ← b.write fItem (.fileItem entry)
    pure (fItem, b)

/-- `n` more rounds from index `i` on, with the item found so far. -/
def fat16FindItemInDirectoryBlocksLoop (directory : Ptr) (name : List Byte) :
    Nat → Nat → Ptr → ItemBlocks → Except Halt (Ptr × ItemBlocks)
  | 0, _, fItem, b => .ok (fItem, b)
  | n + 1, i, fItem, b =>
      match b.live directory with
      | some (.directory items total) =>
          match b.live items with
          | some (.buffer bytes) =>
              match (FatDirectory.mk bytes total 0 0).itemAt i with
              | none => .error .fault
              | some item =>
                  if istrncmp (fat16GetFullRelativeFilename item) name maxPath = 0 then do
                    let (fItem, b) ← fat16NewFatItemBlocks disk fatPrivate stale item b
                    fat16FindItemInDirectoryBlocksLoop directory name n (i + 1) fItem b
                  else
                    fat16FindItemInDirectoryBlocksLoop directory name n (i + 1) fItem b
          | _ => .error .fault
      | _ => .error .fault

/-- The loop starts with a read of `directory->total`. -/
def fat16FindItemInDirectoryBlocks (directory : Ptr) (name : List Byte) (b : ItemBlocks) :
    Except Halt (Ptr × ItemBlocks) :=
  match b.live directory with
  | some (.directory _ total) =>
      fat16FindItemInDirectoryBlocksLoop disk fatPrivate stale directory name total.toNat 0 0 b
  | _ => .error .fault

end Functions

section Load

variable {disk : Disk} {fatPrivate : FatPrivate} {stale : Nat → Byte} {item : FatDirectoryItem}
  {b b' : ItemBlocks}

/-- Behind `out` the directory of a failed load is freed, and returned. -/
theorem fat16LoadOut_inv
    {res res' : Int} {directory directory' : Ptr}
    (h : fat16LoadOut res directory b = .ok (res', directory', b')) :
    res' = res ∧ directory' = directory ∧
      (res ≠ 0 → fat16FreeDirectoryBlocks b directory = .ok b') := by
  rw [fat16LoadOut] at h
  split_ifs at h with hres
  · obtain ⟨b₁, hfree, h⟩ := bind_eq_ok_iff.mp h
    cases h
    exact ⟨rfl, rfl, fun _ => hfree⟩
  · cases h
    exact ⟨rfl, rfl, fun h => absurd h hres⟩

theorem fat16FreeDirectoryBlocks_inv
    {directory buffer : Ptr} {total : Int}
    (hlive : b.live directory = some (.directory buffer total))
    (h : fat16FreeDirectoryBlocks b directory = .ok b') :
    b'.live directory = none ∧
      ∀ q, q ≠ directory → q ≠ buffer → b'.live q = b.live q := by
  rw [fat16FreeDirectoryBlocks, if_neg (Blocks.ne_zero_of_live hlive), hlive] at h
  obtain ⟨b₁, hbuffer, hfree⟩ := bind_eq_ok_iff.mp h
  obtain ⟨-, rfl⟩ := Blocks.kfree_inv hfree
  refine ⟨by rw [Blocks.live_set_none, if_pos rfl], fun q hq hqb => ?_⟩
  rw [Blocks.set_live_of_ne _ _ hq]
  split_ifs at hbuffer
  · rw [Except.ok.inj hbuffer]
  · obtain ⟨-, rfl⟩ := Blocks.kfree_inv hbuffer
    exact Blocks.set_live_of_ne _ _ hqb

theorem fat16LoadOut_freed
    {res res' : Int} {directory directory' buffer : Ptr} {total : Int}
    (hlive : b.live directory = some (.directory buffer total))
    (h : fat16LoadOut res directory b = .ok (res', directory', b')) (hres : res' ≠ 0) :
    directory' = directory ∧ b'.live directory = none ∧
      ∀ q, q ≠ directory → q ≠ buffer → b'.live q = b.live q := by
  obtain ⟨rfl, rfl, hfree⟩ := fat16LoadOut_inv h
  exact ⟨rfl, fat16FreeDirectoryBlocks_inv hlive (hfree hres)⟩

theorem fat16FreeDirectoryBlocks_noBuffer
    {directory : Ptr} {total : Int} (hlive : b.live directory = some (.directory 0 total)) :
    fat16FreeDirectoryBlocks b directory = .ok (b.set directory none) := by
  rw [fat16FreeDirectoryBlocks, if_neg (Blocks.ne_zero_of_live hlive), hlive]
  dsimp only
  rw [if_pos rfl, ok_bind, Blocks.kfree_of_live hlive]

/-- Without a block for the directory a null pointer is returned. -/
theorem fat16LoadFatDirectoryBlocks_null
    (hsub : item.attributes &&& fatFileSubdirectory ≠ 0) (hnull : b.answer b.asked = 0) :
    fat16LoadFatDirectoryBlocks disk fatPrivate stale item b =
      .ok (-enomem, 0, { b with asked := b.asked + 1 }) := by
  rw [fat16LoadFatDirectoryBlocks, if_neg hsub, Blocks.kzalloc_of_eq_zero hnull]
  rfl

/-- A load that fails later returns the directory that it has freed. -/
theorem fat16LoadFatDirectoryBlocks_freed
    (hsub : item.attributes &&& fatFileSubdirectory ≠ 0) (hdir : b.answer b.asked ≠ 0)
    (happart : b.answer (b.asked + 1) ≠ b.answer b.asked) {res : Int} {directory : Ptr}
    (h : fat16LoadFatDirectoryBlocks disk fatPrivate stale item b = .ok (res, directory, b'))
    (hres : res ≠ 0) :
    directory = b.answer b.asked ∧ b'.live directory = none ∧
      ∀ q, q ≠ directory → q ≠ b.answer (b.asked + 1) → b'.live q = b.live q := by
  rw [fat16LoadFatDirectoryBlocks, if_neg hsub, Blocks.kzalloc_of_ne_zero hdir] at h
  dsimp only at h
  rw [if_neg hdir] at h
  generalize hb₁ : ({ b with asked := b.asked + 1 } : ItemBlocks).set (b.answer b.asked)
    (some (.directory 0 0)) = b₁ at h
  have hanswer : b₁.answer b₁.asked = b.answer (b.asked + 1) := by rw [← hb₁]; rfl
  have hlive₁ : ∀ q, q ≠ b.answer b.asked → b₁.live q = b.live q := by
    intro q hq
    rw [← hb₁, Blocks.set_live_of_ne _ _ hq]
    rfl
  obtain ⟨clusterSector, -, h⟩ := bind_eq_ok_iff.mp h
  obtain ⟨totalItems, -, h⟩ := bind_eq_ok_iff.mp h
  obtain ⟨b₂, hwrite, h⟩ := bind_eq_ok_iff.mp h
  obtain ⟨-, rfl⟩ := Blocks.write_inv hwrite
  rw [(b₁.kzalloc_fields _).1, hanswer] at h
  obtain ⟨status, b₃, hout, hmade, hkept₃⟩ : ∃ status b₃,
      fat16LoadOut status (b.answer b.asked) b₃ = .ok (res, directory, b') ∧
      b₃.live (b.answer b.asked) =
        some (.directory (b.answer (b.asked + 1)) totalItems) ∧
      ∀ q, q ≠ b.answer b.asked → q ≠ b.answer (b.asked + 1) → b₃.live q = b.live q := by
    have hkept₂ : ∀ bytes q, q ≠ b.answer b.asked → q ≠ b.answer (b.asked + 1) →
        ((b₁.kzalloc (.buffer bytes)).2.set (b.answer b.asked)
          (some (.directory (b.answer (b.asked + 1)) totalItems))).live q = b.live q := by
      intro bytes q hq hbuffer
      rw [Blocks.set_live_of_ne _ _ hq, Blocks.kzalloc_live_of_ne _ _ (by rwa [hanswer]),
        hlive₁ q hq]
    split_ifs at h
    · exact ⟨_, _, h, Blocks.set_live_self _ _ hdir, hkept₂ _⟩
    · obtain ⟨⟨status, out⟩, -, h⟩ := bind_eq_ok_iff.mp h
      obtain ⟨b₃, hwrite, h⟩ := bind_eq_ok_iff.mp h
      obtain ⟨-, rfl⟩ := Blocks.write_inv hwrite
      refine ⟨_, _, h, ?_, fun q hq hbuffer => ?_⟩
      · rw [Blocks.set_live_of_ne _ _ happart.symm, Blocks.set_live_self _ _ hdir]
      · rw [Blocks.set_live_of_ne _ _ hbuffer, hkept₂ _ q hq hbuffer]
  obtain ⟨rfl, hfreed, hkept⟩ := fat16LoadOut_freed hmade hout hres
  exact ⟨rfl, hfreed, fun q hq hbuffer => (hkept q hq hbuffer).trans (hkept₃ q hq hbuffer)⟩

/-- A subdirectory without a block for its buffer. -/
theorem fat16LoadFatDirectoryBlocks_noBuffer
    {volume : Fat16Volume} {cluster n : Nat} (hitem : SubdirectoryAt volume item cluster n)
    (hend : clusterPos volume.fatPrivate cluster + (n + 1) * directoryItemSize < 2147483648)
    (hdir : b.answer b.asked ≠ 0) (hbuffer : b.answer (b.asked + 1) = 0) :
    ∃ b', fat16LoadFatDirectoryBlocks volume.disk volume.fatPrivate stale item b =
      .ok (-enomem, b.answer b.asked, b') := by
  have hpos : clusterPos volume.fatPrivate cluster < 2147483648 := by omega
  have hsector : clusterSector volume.fatPrivate cluster < 2147483648 := by
    rw [clusterPos_eq, sectorSize] at hpos
    omega
  rw [fat16LoadFatDirectoryBlocks, if_neg hitem.subdirectory, Blocks.kzalloc_of_ne_zero hdir]
  dsimp only
  rw [if_neg hdir, hitem.firstCluster, fat16ClusterToSector_eq volume hitem.data,
    if_pos hsector, ok_bind,
    (fat16GetItemsForDirectory_subdirectory hitem hpos _).mpr ⟨hend, rfl⟩, ok_bind]
  generalize hb₁ : ({ b with asked := b.asked + 1 } : ItemBlocks).set (b.answer b.asked)
    (some (.directory 0 0)) = b₁
  have hnull : b₁.answer b₁.asked = 0 := by rw [← hb₁, Blocks.set_answer, ← hbuffer]; rfl
  have hlive : b₁.live (b.answer b.asked) = some (.directory 0 0) := by
    rw [← hb₁, Blocks.set_live_self _ _ hdir]
  rw [Blocks.kzalloc_of_eq_zero hnull]
  dsimp only
  have hwrite := Blocks.write_of_live (b := { b₁ with asked := b₁.asked + 1 }) hlive
    (.directory 0 n)
  have hstored := Blocks.set_live_self ({ b₁ with asked := b₁.asked + 1 } : ItemBlocks)
    (some (.directory 0 n)) hdir
  rw [hwrite, ok_bind, if_pos rfl, fat16LoadOut, if_pos (by decide),
    fat16FreeDirectoryBlocks_noBuffer hstored]
  exact ⟨_, rfl⟩

/-- What is returned is what `fat16_load_fat_directory` returns without a look at its
blocks. -/
theorem fat16LoadFatDirectoryBlocks_value
    {res : Int} {directory : Ptr}
    (h : fat16LoadFatDirectoryBlocks disk fatPrivate stale item b = .ok (res, directory, b')) :
    ∃ loaded, fat16LoadFatDirectory disk fatPrivate
        ⟨b.answer b.asked ≠ 0, b.answer (b.asked + 1) ≠ 0, stale⟩ item = .ok loaded ∧
      (loaded = .null ↔ directory = 0) ∧ (loaded = .freed ↔ directory ≠ 0 ∧ res ≠ 0) := by
  rw [fat16LoadFatDirectory]
  by_cases hsub : item.attributes &&& fatFileSubdirectory = 0
  · rw [fat16LoadFatDirectoryBlocks, if_pos hsub] at h
    obtain ⟨-, rfl, -⟩ := fat16LoadOut_inv h
    exact ⟨.null, if_pos hsub, by simp, by simp⟩
  · by_cases hdir : b.answer b.asked = 0
    · rw [fat16LoadFatDirectoryBlocks_null hsub hdir] at h
      cases h
      refine ⟨.null, ?_, iff_of_true rfl rfl,
        iff_of_false (fun heq => by cases heq) fun h => h.1 rfl⟩
      rw [if_neg hsub, if_pos (by simpa using hdir)]
    · rw [fat16LoadFatDirectoryBlocks, if_neg hsub, Blocks.kzalloc_of_ne_zero hdir] at h
      dsimp only at h
      rw [if_neg hdir] at h
      generalize hb₁ : ({ b with asked := b.asked + 1 } : ItemBlocks).set (b.answer b.asked)
        (some (.directory 0 0)) = b₁ at h
      have hbuffer : ∀ bytes, (b₁.kzalloc (.buffer bytes)).1 = b.answer (b.asked + 1) := by
        intro bytes
        rw [(b₁.kzalloc_fields _).1, ← hb₁]
        rfl
      rw [if_neg hsub, if_neg (by simpa using hdir)]
      obtain ⟨clusterSector, hsector, h⟩ := bind_eq_ok_iff.mp h
      obtain ⟨totalItems, htotal, h⟩ := bind_eq_ok_iff.mp h
      obtain ⟨b₂, -, h⟩ := bind_eq_ok_iff.mp h
      dsimp only at h ⊢
      rw [hsector, ok_bind, htotal, ok_bind]
      rw [hbuffer] at h
      by_cases hnull : b.answer (b.asked + 1) = 0
      · rw [if_pos hnull] at h
        obtain ⟨rfl, rfl, -⟩ := fat16LoadOut_inv h
        refine ⟨.freed, if_pos (by simpa using hnull),
          iff_of_false (fun heq => by cases heq) hdir, ?_⟩
        exact iff_of_true rfl ⟨hdir, by decide⟩
      · rw [if_neg hnull] at h
        obtain ⟨⟨status, out⟩, hread, h⟩ := bind_eq_ok_iff.mp h
        obtain ⟨b₃, -, h⟩ := bind_eq_ok_iff.mp h
        obtain ⟨rfl, rfl, -⟩ := fat16LoadOut_inv h
        rw [if_neg (by simpa using hnull), hread, ok_bind]
        by_cases hres : res = 0
        · exact ⟨.loaded _, if_neg (not_not.mpr hres), iff_of_false (fun heq => by cases heq) hdir,
            iff_of_false (fun heq => by cases heq) fun h => h.2 hres⟩
        · exact ⟨.freed, if_pos hres, iff_of_false (fun heq => by cases heq) hdir,
            iff_of_true rfl ⟨hdir, hres⟩⟩

/-- A search in a directory that is gone reads it all the same. -/
theorem fat16FindItemInDirectoryBlocks_gone
    {directory : Ptr} (hgone : b.live directory = none) (name : List Byte) :
    fat16FindItemInDirectoryBlocks disk fatPrivate stale directory name b = .error .fault := by
  rw [fat16FindItemInDirectoryBlocks, hgone]

end Load

/-- Every search in the directory of the item returns. -/
def Searchable (disk : Disk) (fatPrivate : FatPrivate) (stale : Nat → Byte) (b : ItemBlocks)
    (fItem : Ptr) : Prop :=
  ∃ directory, b.live fItem = some (.directoryItem directory) ∧
    ∀ name, ∃ found,
      fat16FindItemInDirectoryBlocks disk fatPrivate stale directory name b = .ok found

/-- An item made from `b` on can be searched, and freeing it leaves what was there
before. -/
def ItemUsable (disk : Disk) (fatPrivate : FatPrivate) (stale : Nat → Byte)
    (item : FatDirectoryItem) (b : ItemBlocks) : Prop :=
  ∃ fItem b', fat16NewFatItemBlocks disk fatPrivate stale item b = .ok (fItem, b') ∧
    Searchable disk fatPrivate stale b' fItem ∧
    ∃ b'', fat16FatItemFreeBlocks b' fItem = .ok b'' ∧ ∀ q, b''.live q = b.live q

/-- A load for an item made from `b` on that has failed, returned `directory` and left
`b'`: it returns null and leaves no block behind, and the item can be used. -/
structure FailsSafely (disk : Disk) (fatPrivate : FatPrivate) (stale : Nat → Byte)
    (item : FatDirectoryItem) (b : ItemBlocks) (directory : Ptr) (b' : ItemBlocks) : Prop where
  null : directory = 0
  blocks : ∀ q, b'.live q = (b.kzalloc (.directoryItem 0)).2.live q
  usable : ItemUsable disk fatPrivate stale item b

section Item

variable {disk : Disk} {fatPrivate : FatPrivate} {stale : Nat → Byte} {item : FatDirectoryItem}
  {b b' : ItemBlocks}

/-- The item stores the pointer that the load returns. -/
theorem fat16NewFatItemBlocks_eq
    (hitem : b.answer b.asked ≠ 0) (hsub : item.attributes &&& fatFileSubdirectory ≠ 0)
    {res : Int} {directory : Ptr}
    (hload : fat16LoadFatDirectoryBlocks disk fatPrivate stale item
      (b.kzalloc (.directoryItem 0)).2 = .ok (res, directory, b'))
    (hkept : b'.live (b.answer b.asked) = some (.directoryItem 0)) :
    fat16NewFatItemBlocks disk fatPrivate stale item b =
      .ok (b.answer b.asked,
        b'.set (b.answer b.asked) (some (.directoryItem directory))) := by
  rw [Blocks.kzalloc_of_ne_zero hitem] at hload
  rw [fat16NewFatItemBlocks, Blocks.kzalloc_of_ne_zero hitem]
  dsimp only
  rw [if_neg hitem, if_pos hsub, hload, ok_bind]
  dsimp only
  rw [Blocks.write_of_live hkept, ok_bind]
  rfl

theorem fat16FatItemFreeBlocks_dangling
    {fItem directory : Ptr} (hlive : b.live fItem = some (.directoryItem directory))
    (hne : directory ≠ 0) (hfreed : b.live directory = none) :
    fat16FatItemFreeBlocks b fItem = .error .fault := by
  rw [fat16FatItemFreeBlocks, hlive]
  dsimp only
  rw [fat16FreeDirectoryBlocks, if_neg hne, hfreed]
  rfl

/-- The item of a load that has failed later leads to a directory that is gone: it can
not be searched, and freeing it frees the directory again. -/
theorem fat16NewFatItemBlocks_dangling
    (hfresh : b.Fresh 3) (hitem : b.answer b.asked ≠ 0)
    (hsub : item.attributes &&& fatFileSubdirectory ≠ 0)
    (hdir : b.answer (b.asked + 1) ≠ 0) {res : Int} {directory : Ptr}
    (hload : fat16LoadFatDirectoryBlocks disk fatPrivate stale item
      (b.kzalloc (.directoryItem 0)).2 = .ok (res, directory, b')) (hres : res ≠ 0) :
    directory ≠ 0 ∧ ∃ b₂, fat16NewFatItemBlocks disk fatPrivate stale item b =
        .ok (b.answer b.asked, b₂) ∧
      ¬ Searchable disk fatPrivate stale b₂ (b.answer b.asked) ∧
      fat16FatItemFreeBlocks b₂ (b.answer b.asked) = .error .fault := by
  obtain ⟨-, hanswer, hasked⟩ := b.kzalloc_fields (.directoryItem 0)
  have hdir' : (b.kzalloc (.directoryItem 0)).2.answer (b.kzalloc (.directoryItem 0)).2.asked ≠
      0 := by rwa [hanswer, hasked]
  have happart : (b.kzalloc (.directoryItem 0)).2.answer
      ((b.kzalloc (.directoryItem 0)).2.asked + 1) ≠
      (b.kzalloc (.directoryItem 0)).2.answer (b.kzalloc (.directoryItem 0)).2.asked := by
    rw [hanswer, hasked]
    by_cases hnull : b.answer (b.asked + 1 + 1) = 0
    · rw [hnull]
      exact hdir.symm
    · exact ((hfresh 2 (by omega) hnull).2 1 (by omega)).symm
  obtain ⟨rfl, hfreed, hkept⟩ := fat16LoadFatDirectoryBlocks_freed hsub hdir' happart hload hres
  rw [hanswer, hasked] at hload hfreed hkept ⊢
  have hne : b.answer b.asked ≠ b.answer (b.asked + 1) :=
    (hfresh 1 (by omega) hdir).2 0 (by omega)
  have hbuffer : b.answer b.asked ≠ b.answer (b.asked + 1 + 1) := by
    by_cases hnull : b.answer (b.asked + 1 + 1) = 0
    · rwa [hnull]
    · exact (hfresh 2 (by omega) hnull).2 0 (by omega)
  have hmade : b'.live (b.answer b.asked) = some (.directoryItem 0) := by
    rw [hkept _ hne hbuffer, Blocks.kzalloc_live_self hitem]
  have hnew := fat16NewFatItemBlocks_eq hitem hsub hload hmade
  have hstored := Blocks.set_live_self b' (some (.directoryItem (b.answer (b.asked + 1)))) hitem
  have hgone : (b'.set (b.answer b.asked)
      (some (.directoryItem (b.answer (b.asked + 1))))).live (b.answer (b.asked + 1)) = none := by
    rw [Blocks.set_live_of_ne _ _ hne.symm, hfreed]
  refine ⟨hdir, _, hnew, ?_, fat16FatItemFreeBlocks_dangling hstored hdir hgone⟩
  rintro ⟨directory, hlive, hsearch⟩
  rw [hstored] at hlive
  obtain rfl := ItemBlock.directoryItem.inj (Option.some.inj hlive)
  obtain ⟨found, hfound⟩ := hsearch []
  rw [fat16FindItemInDirectoryBlocks_gone hgone] at hfound
  cases hfound

end Item

/-- A load that has failed behind the allocation of its directory is never safe: the
pointer that it returns is not null, and the item that keeps it can be neither searched
nor freed. -/
theorem fat16LoadFatDirectory_neverFailsSafely
    (disk : Disk) (fatPrivate : FatPrivate) (stale : Nat → Byte) (item : FatDirectoryItem)
    (b b' : ItemBlocks) (hfresh : b.Fresh 3) (hitem : b.answer b.asked ≠ 0)
    (hdir : b.answer (b.asked + 1) ≠ 0) (hsub : item.attributes &&& fatFileSubdirectory ≠ 0)
    (res : Int) (directory : Ptr) (hload : fat16LoadFatDirectoryBlocks disk fatPrivate stale item
      (b.kzalloc (.directoryItem 0)).2 = .ok (res, directory, b')) (hres : res ≠ 0) :
    directory ≠ 0 ∧ ¬ ItemUsable disk fatPrivate stale item b ∧
      ¬ FailsSafely disk fatPrivate stale item b directory b' := by
  obtain ⟨hne, b₂, hnew, hsearch, -⟩ :=
    fat16NewFatItemBlocks_dangling hfresh hitem hsub hdir hload hres
  have husable : ¬ ItemUsable disk fatPrivate stale item b := by
    rintro ⟨fItem, b₃, hnew', hsearch', -⟩
    cases hnew.symm.trans hnew'
    exact hsearch hsearch'
  exact ⟨hne, husable, fun hsafe => hne hsafe.null⟩

/-- A heap that has `n` blocks left. -/
def lastBlocks (n : Nat) : ItemBlocks where
  answer := fun k => if k < n then BitVec.ofNat 32 (4096 * (k % 1024 + 4096)) else 0
  asked := 0
  block := fun _ => none

theorem lastBlocks_fresh
    (n : Nat) (hn : n ≤ 2) :
    (lastBlocks n).Fresh 3 := by
  intro i _ hne
  have hlt : 0 + i < n := by
    by_contra h
    exact hne (if_neg h)
  refine ⟨ite_self none, fun j hj => ?_⟩
  obtain rfl : i = 1 := by omega
  obtain rfl : j = 0 := by omega
  have h0 : (lastBlocks n).answer 0 = 0x1000000 := if_pos (by omega)
  have h1 : (lastBlocks n).answer 1 = 0x1001000 := if_pos (by omega)
  change (lastBlocks n).answer 0 ≠ (lastBlocks n).answer 1
  rw [h0, h1]
  decide

/-- There is a block for the item and one for its directory, and none for the buffer. -/
theorem lastBlocks_load :
    ∃ b', fat16LoadFatDirectoryBlocks (subdirectoryVolume 0).disk
      (subdirectoryVolume 0).fatPrivate (fun _ => 0) subdirectoryEntry
      ((lastBlocks 2).kzalloc (.directoryItem 0)).2 = .ok (-enomem, 0x1001000, b') :=
  fat16LoadFatDirectoryBlocks_noBuffer (subdirectoryVolume_at 0 (Or.inl rfl)) (by decide)
    (by decide) rfl

theorem fat16LoadFatDirectory_neverFailsSafely_noBuffer :
    ∃ b', ¬ FailsSafely (subdirectoryVolume 0).disk (subdirectoryVolume 0).fatPrivate
      (fun _ => 0) subdirectoryEntry (lastBlocks 2) 0x1001000 b' := by
  obtain ⟨b', hload⟩ := lastBlocks_load
  exact ⟨b', (fat16LoadFatDirectory_neverFailsSafely (subdirectoryVolume 0).disk
    (subdirectoryVolume 0).fatPrivate (fun _ => 0) subdirectoryEntry (lastBlocks 2) b'
    (lastBlocks_fresh 2 (by decide)) (by decide) (by decide) (by decide) _ _ hload
    (by decide)).2.2⟩

/-- Every load of a subdirectory that fails for want of a buffer or in the read is safe. -/
def FailedLoadsSafe : Prop :=
  ∀ (disk : Disk) (fatPrivate : FatPrivate) (stale : Nat → Byte) (item : FatDirectoryItem)
    (b b' : ItemBlocks), b.Fresh 3 → b.answer b.asked ≠ 0 → b.answer (b.asked + 1) ≠ 0 →
    item.attributes &&& fatFileSubdirectory ≠ 0 →
    ∀ (res : Int) (directory : Ptr), fat16LoadFatDirectoryBlocks disk fatPrivate stale item
      (b.kzalloc (.directoryItem 0)).2 = .ok (res, directory, b') → res ≠ 0 →
      FailsSafely disk fatPrivate stale item b directory b'

theorem failedLoadsSafe_false : ¬ FailedLoadsSafe := by
  intro h
  obtain ⟨b', hload⟩ := lastBlocks_load
  have hsafe := h _ _ _ _ (lastBlocks 2) b' (lastBlocks_fresh 2 (by decide)) (by decide)
    (by decide) (by decide) _ _ hload (by decide)
  exact absurd hsafe.null (by decide)

end PeachOS
