import PeachOS.Fat.RootScan
import PeachOS.Memory.Blocks

/-!
# What a failed mount leaves behind

`fat16_resolve` takes its blocks and hangs them on the disk before it looks at
the boot sector.  Behind `out` it closes one stream and frees the private data; the
other streams and the pointers of the disk stay.
-/

namespace PeachOS

open Lib

/-- What `fat16_resolve` keeps in its blocks. -/
inductive MountBlock where
  | fatPrivate (clusterReadStream fatReadStream directoryStream : Ptr)
  | stream
  | directory

abbrev MountBlocks := Blocks MountBlock

/-- The fields of `struct disk` that `fat16_resolve` stores to. -/
structure DiskRecord where
  filesystem : Ptr
  fsPrivate : Ptr
deriving DecidableEq

/-- The disk of the kernel, and where `fat16_fs` stands. -/
structure MountDisk extends Disk where
  fat16Fs : Ptr

/-- A null pointer for the stream is stored through. -/
def diskstreamerNewBlock (disk : MountDisk) (b : MountBlocks) : Except Halt (Ptr × MountBlocks) :=
  if !disk.primary then
    .ok (0, b)
  else
    let (streamer, b) := b.kzalloc .stream
    if streamer = 0 then .error .fault else .ok (streamer, b)

def fat16InitPrivateBlocks (disk : MountDisk) (fatPrivate : Ptr) (b : MountBlocks) :
    Except Halt MountBlocks := do
  let b ← b.write fatPrivate (.fatPrivate 0 0 0)
  let (clusterReadStream, b) ← diskstreamerNewBlock disk b
  let (fatReadStream, b) ← diskstreamerNewBlock disk b
  let (directoryStream, b) ← diskstreamerNewBlock disk b
  b.write fatPrivate (.fatPrivate clusterReadStream fatReadStream directoryStream)

/-- The root directory is kept in its block when it is loaded. -/
def fat16GetRootDirectoryBlock (disk : MountDisk) (header : FatHeader) (b : MountBlocks) :
    Except Halt (Int × MountBlocks) := do
  let (dir, b) := b.kzalloc .directory
  let (res, _) ← fat16GetRootDirectory disk.toDisk
    ⟨header, ⟨[], 0, 0, 0⟩, some ⟨0, []⟩, some ⟨0, []⟩, some ⟨0, []⟩⟩ (dir ≠ 0)
  let b ← if res ≠ 0 ∧ dir ≠ 0 then b.kfree dir else pure b
  pure (res, b)

/-- What `fat16_resolve` does behind `out`; the statement `disk->fs_private;` does
nothing. -/
def fat16ResolveOut (record : DiskRecord) (stream : Ptr) (res : Int) (b : MountBlocks) :
    Except Halt (Int × DiskRecord × MountBlocks) :=
  let closed := if stream ≠ 0 then b.kfree stream else .ok b
  let freed := if res < 0 then closed >>= fun b => b.kfree record.fsPrivate else closed
  freed >>= fun b => .ok (res, record, b)

/-- `fat16_resolve` with its blocks and what it stores to the disk. -/
def fat16ResolveBlocks (disk : MountDisk) (b : MountBlocks) :
    Except Halt (Int × DiskRecord × MountBlocks) := do
  let (fatPrivate, b) := b.kzalloc (.fatPrivate 0 0 0)
  let b ← fat16InitPrivateBlocks disk fatPrivate b
  let record : DiskRecord := ⟨disk.fat16Fs, fatPrivate⟩
  let (stream, b) ← diskstreamerNewBlock disk b
  if stream = 0 then
    fat16ResolveOut record stream (-enomem) b
  else do
    let (read, _, bytes) ← diskstreamerRead disk.toDisk ⟨0, []⟩ fatHeaderSize
    let res := if read ≠ 0 then -eio else 0
    if headerSignature bytes ≠ fatSignature then
      fat16ResolveOut record stream (-efsnotus) b
    else do
      let (status, b) ← fat16GetRootDirectoryBlock disk (.ofBytes bytes) b
      if status ≠ 0 then
        fat16ResolveOut record stream (-eio) b
      else
        fat16ResolveOut record stream res b

section Calls

variable {disk : MountDisk} {b b' : MountBlocks}

theorem diskstreamerNewBlock_spec
    (hdisk : disk.primary = true) {streamer : Ptr}
    (h : diskstreamerNewBlock disk b = .ok (streamer, b')) :
    streamer = b.answer b.asked ∧ streamer ≠ 0 ∧ b'.answer = b.answer ∧
      b'.asked = b.asked + 1 ∧
      ∀ q, b'.live q = if q = streamer then some .stream else b.live q := by
  rw [diskstreamerNewBlock, hdisk] at h
  by_cases hnull : b.answer b.asked = 0
  · rw [Blocks.kzalloc_of_eq_zero hnull] at h
    cases h
  · rw [Blocks.kzalloc_of_ne_zero hnull] at h
    rw [Bool.not_true, if_neg Bool.false_ne_true] at h
    dsimp only at h
    rw [if_neg hnull] at h
    obtain ⟨rfl, rfl⟩ := Prod.mk.inj (Except.ok.inj h)
    exact ⟨rfl, hnull, rfl, rfl, Blocks.live_set _ _ hnull⟩

/-- The streams of the private data are open behind `fat16_init_private`. -/
theorem fat16InitPrivateBlocks_spec
    (hdisk : disk.primary = true) {fatPrivate : Ptr}
    (h : fat16InitPrivateBlocks disk fatPrivate b = .ok b') :
    b'.answer = b.answer ∧ b'.asked = b.asked + 3 ∧
      ∀ i < 3, b.answer (b.asked + i) ≠ 0 ∧
        (b.answer (b.asked + i) ≠ fatPrivate →
          b'.live (b.answer (b.asked + i)) = some .stream) := by
  simp only [fat16InitPrivateBlocks, bind_eq_ok_iff] at h
  obtain ⟨b₀, hclear, ⟨s₁, b₁⟩, h₁, ⟨s₂, b₂⟩, h₂, ⟨s₃, b₃⟩, h₃, hset⟩ := h
  obtain ⟨hfat, rfl⟩ := Blocks.write_inv hclear
  obtain ⟨rfl, hs₁, ha₁, hn₁, hl₁⟩ := diskstreamerNewBlock_spec hdisk h₁
  obtain ⟨rfl, hs₂, ha₂, hn₂, hl₂⟩ := diskstreamerNewBlock_spec hdisk h₂
  obtain ⟨rfl, hs₃, ha₃, hn₃, hl₃⟩ := diskstreamerNewBlock_spec hdisk h₃
  obtain ⟨-, rfl⟩ := Blocks.write_inv hset
  simp only [Blocks.set_answer, Blocks.set_asked] at ha₁ hn₁ hs₁ hl₁
  simp only [ha₁, hn₁] at ha₂ hn₂ hs₂ hl₂
  simp only [ha₂, hn₂] at ha₃ hn₃ hs₃ hl₃
  refine ⟨ha₃, hn₃, fun i hi => ?_⟩
  have hstream : b.answer (b.asked + i) ≠ 0 ∧
      b₃.live (b.answer (b.asked + i)) = some .stream := by
    rw [hl₃, hl₂, hl₁]
    obtain rfl | rfl | rfl : i = 0 ∨ i = 1 ∨ i = 2 := by omega
    · exact ⟨hs₁, by simp⟩
    · exact ⟨hs₂, by simp⟩
    · exact ⟨hs₃, if_pos rfl⟩
  refine ⟨hstream.1, fun hne => ?_⟩
  rw [Blocks.set_live_of_ne _ _ hne, hstream.2]

/-- The block of the root directory is the only one that is touched for it. -/
theorem fat16GetRootDirectoryBlock_spec
    {header : FatHeader} {status : Int}
    (h : fat16GetRootDirectoryBlock disk header b = .ok (status, b')) {q : Ptr}
    (hq : q ≠ b.answer b.asked) :
    b'.live q = b.live q := by
  rw [fat16GetRootDirectoryBlock] at h
  by_cases hnull : b.answer b.asked = 0
  · rw [Blocks.kzalloc_of_eq_zero hnull] at h
    dsimp only at h
    obtain ⟨⟨res, directory⟩, -, h⟩ := bind_eq_ok_iff.mp h
    dsimp only at h
    rw [if_neg (fun h => h.2 rfl)] at h
    obtain ⟨-, rfl⟩ := Prod.mk.inj (Except.ok.inj h)
    rfl
  · rw [Blocks.kzalloc_of_ne_zero hnull] at h
    dsimp only at h
    obtain ⟨⟨res, directory⟩, -, h⟩ := bind_eq_ok_iff.mp h
    dsimp only at h
    split_ifs at h
    · obtain ⟨b₁, hfree, h⟩ := bind_eq_ok_iff.mp h
      obtain ⟨-, rfl⟩ := Blocks.kfree_inv hfree
      obtain ⟨-, rfl⟩ := Prod.mk.inj (Except.ok.inj h)
      rw [Blocks.set_live_of_ne _ _ hq, Blocks.set_live_of_ne _ _ hq]
      rfl
    · obtain ⟨-, rfl⟩ := Prod.mk.inj (Except.ok.inj h)
      exact Blocks.set_live_of_ne _ _ hq

/-- The status is that of the load into a buffer, or without one. -/
theorem fat16GetRootDirectoryBlock_status
    {header : FatHeader} {status : Int}
    (h : fat16GetRootDirectoryBlock disk header b = .ok (status, b')) :
    ∃ directory, fat16GetRootDirectory disk.toDisk
      ⟨header, ⟨[], 0, 0, 0⟩, some ⟨0, []⟩, some ⟨0, []⟩, some ⟨0, []⟩⟩
      (b.answer b.asked ≠ 0) = .ok (status, directory) := by
  rw [fat16GetRootDirectoryBlock] at h
  dsimp only at h
  rw [(b.kzalloc_fields .directory).1] at h
  obtain ⟨⟨res, directory⟩, hload, h⟩ := bind_eq_ok_iff.mp h
  refine ⟨directory, ?_⟩
  dsimp only at h
  split_ifs at h
  · obtain ⟨b₁, -, h⟩ := bind_eq_ok_iff.mp h
    rw [← (Prod.mk.inj (Except.ok.inj h)).1]
    exact hload
  · rw [← (Prod.mk.inj (Except.ok.inj h)).1]
    exact hload

/-- Behind `out` the pointers of the disk stay, the stream is closed and the private
data of a mount that has failed is freed. -/
theorem fat16ResolveOut_spec
    {record record' : DiskRecord} {stream : Ptr} {res res' : Int}
    (h : fat16ResolveOut record stream res b = .ok (res', record', b')) :
    res' = res ∧ record' = record ∧ (res < 0 → b'.live record.fsPrivate = none) ∧
      ∀ q, q ≠ stream → q ≠ record.fsPrivate → b'.live q = b.live q := by
  rw [fat16ResolveOut] at h
  obtain ⟨b₂, hfreed, hout⟩ := bind_eq_ok_iff.mp h
  obtain ⟨rfl, hrecord⟩ := Prod.mk.inj (Except.ok.inj hout)
  obtain ⟨rfl, rfl⟩ := Prod.mk.inj hrecord
  have hclosed : ∀ b₁, (if stream ≠ 0 then b.kfree stream else .ok b) = .ok b₁ →
      ∀ q, q ≠ stream → b₁.live q = b.live q := by
    intro b₁ hclose q hq
    split_ifs at hclose
    · obtain ⟨-, rfl⟩ := Blocks.kfree_inv hclose
      exact Blocks.set_live_of_ne _ _ hq
    · rw [Except.ok.inj hclose]
  by_cases hneg : res < 0
  · rw [if_pos hneg] at hfreed
    obtain ⟨b₁, hclose, hfree⟩ := bind_eq_ok_iff.mp hfreed
    obtain ⟨-, rfl⟩ := Blocks.kfree_inv hfree
    refine ⟨rfl, rfl, fun _ => ?_, fun q hq hne => ?_⟩
    · rw [Blocks.live_set_none, if_pos rfl]
    · rw [Blocks.set_live_of_ne _ _ hne, hclosed b₁ hclose q hq]
  · rw [if_neg hneg] at hfreed
    exact ⟨rfl, rfl, fun h => absurd h hneg, fun q hq _ => hclosed b₂ hfreed q hq⟩

/-- Every way through `fat16_resolve` that returns goes through `out`. -/
theorem fat16ResolveBlocks_inv
    {record : DiskRecord} {res : Int}
    (h : fat16ResolveBlocks disk b = .ok (res, record, b')) :
    ∃ (b₁ b₂ b₃ : MountBlocks) (stream : Ptr) (status : Int),
      fat16InitPrivateBlocks disk (b.kzalloc (.fatPrivate 0 0 0)).1
        (b.kzalloc (.fatPrivate 0 0 0)).2 = .ok b₁ ∧
      diskstreamerNewBlock disk b₁ = .ok (stream, b₂) ∧
      (∀ q, q ≠ b₂.answer b₂.asked → b₃.live q = b₂.live q) ∧
      fat16ResolveOut ⟨disk.fat16Fs, (b.kzalloc (.fatPrivate 0 0 0)).1⟩ stream status b₃ =
        .ok (res, record, b') := by
  rw [fat16ResolveBlocks] at h
  dsimp only at h
  obtain ⟨b₁, hinit, h⟩ := bind_eq_ok_iff.mp h
  obtain ⟨⟨stream, b₂⟩, hnew, h⟩ := bind_eq_ok_iff.mp h
  refine ⟨b₁, b₂, ?_⟩
  dsimp only at h
  split_ifs at h with hstream
  · exact ⟨b₂, stream, -enomem, hinit, hnew, fun _ _ => rfl, h⟩
  · obtain ⟨⟨read, after, bytes⟩, hread, h⟩ := bind_eq_ok_iff.mp h
    dsimp only at h
    split_ifs at h with hsignature hread
    · exact ⟨b₂, stream, -efsnotus, hinit, hnew, fun _ _ => rfl, h⟩
    all_goals
      obtain ⟨⟨status, b₃⟩, hroot, h⟩ := bind_eq_ok_iff.mp h
      have hkept := fun q (hq : q ≠ b₂.answer b₂.asked) =>
        fat16GetRootDirectoryBlock_spec hroot hq
      dsimp only at h
      split_ifs at h
      · exact ⟨b₃, stream, -eio, hinit, hnew, hkept, h⟩
      · exact ⟨b₃, stream, _, hinit, hnew, hkept, h⟩

end Calls

/-- What the allocations of a mount return. -/
def MountBlocks.memory (b : MountBlocks) : ResolveMemory where
  fatPrivate := b.answer b.asked ≠ 0
  clusterReadStream := b.answer (b.asked + 1) ≠ 0
  fatReadStream := b.answer (b.asked + 2) ≠ 0
  directoryStream := b.answer (b.asked + 3) ≠ 0
  stream := b.answer (b.asked + 4) ≠ 0
  directory := b.answer (b.asked + 5) ≠ 0

/-- The private data before the header has been read. -/
def clearedPrivate : FatPrivate :=
  ⟨⟨0, 0, 0, 0, 0⟩, ⟨[], 0, 0, 0⟩, some ⟨0, []⟩, some ⟨0, []⟩, some ⟨0, []⟩⟩

theorem diskstreamerNew_of_memory
    {disk : MountDisk} {memory : Bool} (hdisk : disk.primary = true) (hmemory : memory = true) :
    diskstreamerNew disk.toDisk memory = .ok (some ⟨0, []⟩) := by
  rw [hmemory, diskstreamerNew, hdisk]
  rfl

/-- The private data is cleared when there is memory for all its streams. -/
theorem fat16InitPrivate_of_blocks
    {disk : MountDisk} {b b₁ : MountBlocks} (hdisk : disk.primary = true)
    (h : fat16InitPrivateBlocks disk (b.answer b.asked) (b.kzalloc (.fatPrivate 0 0 0)).2 = .ok b₁) :
    fat16InitPrivate disk.toDisk b.memory = .ok clearedPrivate ∧ b₁.answer = b.answer ∧
      b₁.asked = b.asked + 4 := by
  obtain ⟨-, hanswer, hasked⟩ := b.kzalloc_fields (.fatPrivate 0 0 0)
  have hfat : b.answer b.asked ≠ 0 := by
    rw [fat16InitPrivateBlocks, bind_eq_ok_iff] at h
    obtain ⟨b₀, hwrite, -⟩ := h
    exact (Blocks.write_inv hwrite).1
  obtain ⟨ha₁, hn₁, hstreams⟩ := fat16InitPrivateBlocks_spec hdisk h
  rw [hanswer, hasked] at hstreams
  rw [hanswer] at ha₁
  rw [hasked] at hn₁
  have hmemory : b.memory.fatPrivate = true := decide_eq_true hfat
  have hcluster : b.memory.clusterReadStream = true := decide_eq_true (hstreams 0 (by omega)).1
  have htable : b.memory.fatReadStream = true := decide_eq_true (hstreams 1 (by omega)).1
  have hdirectory : b.memory.directoryStream = true := decide_eq_true (hstreams 2 (by omega)).1
  refine ⟨?_, ha₁, hn₁⟩
  rw [fat16InitPrivate, hmemory, diskstreamerNew_of_memory hdisk hcluster,
    diskstreamerNew_of_memory hdisk htable, diskstreamerNew_of_memory hdisk hdirectory]
  rfl

/-- On the disk of the kernel the status is the one that `fat16_resolve` has without a
look at its blocks. -/
theorem fat16ResolveBlocks_status
    {disk : MountDisk} {b b' : MountBlocks} {record : DiskRecord} {res : Int}
    (hdisk : disk.primary = true)
    (h : fat16ResolveBlocks disk b = .ok (res, record, b')) :
    ∃ fatPrivate, fat16Resolve disk.toDisk b.memory = .ok (res, fatPrivate) := by
  rw [fat16ResolveBlocks] at h
  dsimp only at h
  rw [(b.kzalloc_fields (.fatPrivate 0 0 0)).1] at h
  obtain ⟨b₁, hinit, h⟩ := bind_eq_ok_iff.mp h
  obtain ⟨⟨stream, b₂⟩, hnew, h⟩ := bind_eq_ok_iff.mp h
  obtain ⟨hvalue, ha₁, hn₁⟩ := fat16InitPrivate_of_blocks hdisk hinit
  obtain ⟨rfl, hstream, ha₂, hn₂, -⟩ := diskstreamerNewBlock_spec hdisk hnew
  have hopened : b.memory.stream = true := by
    rw [ha₁, hn₁] at hstream
    exact decide_eq_true hstream
  rw [fat16Resolve, hvalue, ok_bind, diskstreamerNew_of_memory hdisk hopened, ok_bind]
  dsimp only at h ⊢
  rw [if_neg hstream] at h
  obtain ⟨⟨read, after, bytes⟩, hread, h⟩ := bind_eq_ok_iff.mp h
  rw [hread, ok_bind]
  dsimp only at h ⊢
  by_cases hsignature : headerSignature bytes ≠ fatSignature
  · rw [if_pos hsignature] at h ⊢
    obtain ⟨rfl, -⟩ := fat16ResolveOut_spec h
    exact ⟨_, rfl⟩
  · rw [if_neg hsignature] at h ⊢
    obtain ⟨⟨status, b₃⟩, hroot, h⟩ := bind_eq_ok_iff.mp h
    obtain ⟨directory, hdirectory⟩ := fat16GetRootDirectoryBlock_status hroot
    rw [ha₂, ha₁, hn₂, hn₁] at hdirectory
    have hvalue' : fat16GetRootDirectory disk.toDisk
        { clearedPrivate with header := .ofBytes bytes } b.memory.directory =
          .ok (status, directory) := hdirectory
    rw [hvalue', ok_bind]
    dsimp only at h ⊢
    by_cases hstatus : status ≠ 0
    · rw [if_pos hstatus] at h ⊢
      obtain ⟨rfl, -⟩ := fat16ResolveOut_spec h
      exact ⟨_, rfl⟩
    · rw [if_neg hstatus] at h ⊢
      obtain ⟨rfl, -⟩ := fat16ResolveOut_spec h
      exact ⟨_, rfl⟩

/-- The disk and the blocks are as they were, and the disk does not point to the private
data. -/
structure LeavesNoTrace (fatPrivate : Ptr) (record record' : DiskRecord) (b b' : MountBlocks) :
    Prop where
  filesystem : record'.filesystem = record.filesystem
  fsPrivate : record'.fsPrivate = record.fsPrivate
  unreachable : record'.fsPrivate ≠ fatPrivate
  blocks : ∀ q, b'.live q = b.live q

/-- What a failed mount leaves: the disk points to the private data that has been
freed, and the three streams of the private data are still open. -/
theorem fat16ResolveBlocks_failed
    {disk : MountDisk} {b b' : MountBlocks} {record : DiskRecord} {res : Int}
    (h : fat16ResolveBlocks disk b = .ok (res, record, b')) (hneg : res < 0) :
    record = ⟨disk.fat16Fs, b.answer b.asked⟩ ∧ b'.live (b.answer b.asked) = none ∧
      (disk.primary = true → b.Fresh 6 →
        ∀ i < 3, b'.live (b.answer (b.asked + (i + 1))) = some .stream) := by
  obtain ⟨b₁, b₂, b₃, stream, status, hinit, hnew, hroot, hout⟩ := fat16ResolveBlocks_inv h
  obtain ⟨rfl, rfl, hfreed, hkept⟩ := fat16ResolveOut_spec hout
  obtain ⟨hprivate, hanswer, hasked⟩ := b.kzalloc_fields (.fatPrivate 0 0 0)
  rw [hprivate] at hfreed hkept
  refine ⟨by rw [hprivate], hfreed hneg, fun hdisk hfresh i hi => ?_⟩
  obtain ⟨ha₁, hn₁, hstreams⟩ := fat16InitPrivateBlocks_spec hdisk hinit
  rw [hanswer, hasked, hprivate] at hstreams
  rw [hanswer] at ha₁
  rw [hasked] at hn₁
  obtain ⟨rfl, hstream, ha₂, hn₂, hl₂⟩ := diskstreamerNewBlock_spec hdisk hnew
  rw [ha₁, hn₁] at hstream hl₂ hkept
  rw [ha₂, ha₁, hn₂, hn₁] at hroot
  obtain ⟨hne, hlive⟩ := hstreams i hi
  rw [Nat.add_assoc, Nat.add_comm 1 i] at hne hlive
  obtain ⟨-, hother⟩ := hfresh (i + 1) (by omega) hne
  have hprivate' : b.answer (b.asked + (i + 1)) ≠ b.answer b.asked :=
    (hother 0 (by omega)).symm
  have hstream' : b.answer (b.asked + (i + 1)) ≠ b.answer (b.asked + 4) :=
    (hfresh 4 (by omega) hstream).2 (i + 1) (by omega)
  have hdir : b.answer (b.asked + (i + 1)) ≠ b.answer (b.asked + 5) := by
    by_cases hnull : b.answer (b.asked + 5) = 0
    · rwa [hnull]
    · exact (hfresh 5 (by omega) hnull).2 (i + 1) (by omega)
  rw [hkept _ hstream' hprivate', hroot _ hdir, hl₂, if_neg hstream', hlive hprivate']

/-- Every failed mount leaves no trace. -/
def FailedMountsLeaveNoTrace : Prop :=
  ∀ (disk : MountDisk) (b : MountBlocks) (record : DiskRecord) (res : Int)
    (record' : DiskRecord) (b' : MountBlocks),
    fat16ResolveBlocks disk b = .ok (res, record', b') → res < 0 →
      LeavesNoTrace (b.answer b.asked) record record' b b'

/-- No failed mount leaves no trace. -/
theorem fat16ResolveBlocks_leavesTrace
    (disk : MountDisk) (b : MountBlocks) (record : DiskRecord) (res : Int)
    (record' : DiskRecord) (b' : MountBlocks)
    (h : fat16ResolveBlocks disk b = .ok (res, record', b')) (hneg : res < 0) :
    ¬ LeavesNoTrace (b.answer b.asked) record record' b b' := by
  intro htrace
  obtain ⟨rfl, -, -⟩ := fat16ResolveBlocks_failed h hneg
  exact htrace.unreachable rfl

def zeroDisk : MountDisk where
  primary := true
  content := fun _ => 0
  fat16Fs := 0x00104000

/-- A heap that hands out one block after the other. -/
def mountBlocks : MountBlocks where
  answer := fun n => BitVec.ofNat 32 (4096 * (n % 1024 + 4096))
  asked := 0
  block := fun _ => none

/-- The signature of a boot sector of zeros is refused. -/
theorem fat16ResolveBlocks_zeroDisk :
    ∃ record b', fat16ResolveBlocks zeroDisk mountBlocks = .ok (-efsnotus, record, b') := by
  have hdisk : zeroDisk.toDisk.primary = true := rfl
  have hread := diskstreamerRead_eq_ok hdisk [] (show 0 + fatHeaderSize < 2147483648 by decide)
  have hsignature : headerSignature (zeroDisk.toDisk.bytes 0 fatHeaderSize) ≠ fatSignature := by
    decide
  rw [Int.natCast_zero] at hread
  obtain ⟨b₁, b₂, stream, record, b', hinit, hnew, hstream, hout⟩ :
      ∃ b₁ b₂ stream record b', fat16InitPrivateBlocks zeroDisk
          (mountBlocks.kzalloc (.fatPrivate 0 0 0)).1
          (mountBlocks.kzalloc (.fatPrivate 0 0 0)).2 = .ok b₁ ∧
        diskstreamerNewBlock zeroDisk b₁ = .ok (stream, b₂) ∧ stream ≠ 0 ∧
        fat16ResolveOut ⟨zeroDisk.fat16Fs, (mountBlocks.kzalloc (.fatPrivate 0 0 0)).1⟩ stream
          (-efsnotus) b₂ = .ok (-efsnotus, record, b') :=
    ⟨_, _, _, _, _, rfl, rfl, by decide, rfl⟩
  refine ⟨record, b', ?_⟩
  rw [fat16ResolveBlocks]
  dsimp only
  rw [hinit, ok_bind, hnew, ok_bind]
  dsimp only
  rw [if_neg hstream, hread, ok_bind]
  dsimp only
  rw [if_pos hsignature, hout]

theorem fat16ResolveBlocks_leavesTrace_zeroDisk :
    ∃ record' b', ¬ LeavesNoTrace (mountBlocks.answer mountBlocks.asked) ⟨0, 0⟩ record'
      mountBlocks b' := by
  obtain ⟨record', b', h⟩ := fat16ResolveBlocks_zeroDisk
  exact ⟨record', b', fat16ResolveBlocks_leavesTrace zeroDisk mountBlocks ⟨0, 0⟩ (-efsnotus)
    record' b' h (by decide)⟩

theorem failedMountsLeaveNoTrace_false : ¬ FailedMountsLeaveNoTrace := by
  intro h
  obtain ⟨record', b', hmount⟩ := fat16ResolveBlocks_zeroDisk
  have htrace := h zeroDisk mountBlocks ⟨0, 0⟩ (-efsnotus) record' b' hmount (by decide)
  obtain ⟨rfl, -, -⟩ := fat16ResolveBlocks_failed hmount (by decide)
  exact htrace.unreachable rfl

end PeachOS
