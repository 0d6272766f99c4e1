import PeachOS.Memory.FirstFit
import PeachOS.Memory.Pool
import PeachOS.Lib.Simulation

/-!
# The kernel heap is a first-fit allocator (`memory/heap/kheap.c`)

The pool that the rest of the kernel relies on has a map of live blocks.  The
heap has a table of entries.  When the table is the encoding of the map, a
request is answered by the first pages that no live block has, in both.  One
kind of request is not: there are no such pages, but the last block of the heap
is free, and the heap answers with the free blocks at its end.
-/

namespace PeachOS

open Lib

/-- The number of blocks of the heap. -/
def heapTotal : Nat := heapSizeBytes / heapBlockSize

/-- The address of a block of the heap. -/
def heapBlock (i : Nat) : Ptr := BitVec.ofNat 32 (heapAddress + heapBlockSize * i)

/-- `kmalloc` and `kfree`.  A free has no answer. -/
def kheapServe (heap : Heap) : HeapOp → Ptr × Heap
  | .malloc size => heapMalloc heap size
  | .free ptr => (0, heapFree heap ptr)

namespace Pool

/-- The `n` pages from block `i` on are in the pool, and no live block has one
of them. -/
def Fits (live : Ptr → Option Nat) (n i : Nat) : Prop :=
  i + n ≤ heapTotal ∧ ∀ q m, live q = some m → Apart (heapBlock i) n q m

open Classical in
/-- A request is answered by the first pages that fit. -/
noncomputable def firstFit (_asked : Nat) (live : Ptr → Option Nat) (size : Word) : Ptr :=
  if h : ∃ i, Fits live (pagesOf size) i then heapBlock (Nat.find h) else 0

/-- The pool without blocks. -/
noncomputable def kernelPool : Pool where
  choose := firstFit
  asked := 0
  live := fun _ => none

def answer (b : Pool) : HeapOp → Ptr × Pool
  | .malloc size => b.kmalloc size
  | .free ptr => (0, b.kfree ptr)

/-- At least one byte is requested, and a live block is freed. -/
def Asks (b : Pool) : HeapOp → Prop
  | .malloc size => size ≠ 0
  | .free ptr => (b.live ptr).isSome = true

/-- A live block ends with the pool. -/
def EndInUse (live : Ptr → Option Nat) : Prop :=
  ∃ q m, live q = some m ∧ q.toNat + heapBlockSize * m = heapAddress + heapSizeBytes

/-- A request fits, or the end of the pool is in use. -/
def Answerable (b : Pool) : HeapOp → Prop
  | .malloc size => (∃ i, Fits b.live (pagesOf size) i) ∨ EndInUse b.live
  | .free _ => True

end Pool

theorem toNat_heapBlock
    {i : Nat} (h : i ≤ heapTotal) :
    (heapBlock i).toNat = heapAddress + heapBlockSize * i := by
  unfold heapTotal heapSizeBytes heapBlockSize at h
  rw [heapBlock, BitVec.toNat_ofNat]
  unfold heapAddress heapBlockSize
  omega

theorem heapBlock_inj
    {i j : Nat} (hi : i ≤ heapTotal) (hj : j ≤ heapTotal) :
    heapBlock i = heapBlock j ↔ i = j := by
  constructor
  · intro h
    have heq := congrArg BitVec.toNat h
    rw [toNat_heapBlock hi, toNat_heapBlock hj] at heq
    unfold heapBlockSize at heq
    omega
  · exact congrArg heapBlock

theorem heapBlock_ne_zero
    {i : Nat} (h : i ≤ heapTotal) :
    heapBlock i ≠ 0 := by
  intro h0
  have heq := congrArg BitVec.toNat h0
  rw [toNat_heapBlock h] at heq
  simp [heapAddress] at heq

theorem heapBlockToAddress_eq
    {heap : Heap} (h : heap.saddr = BitVec.ofNat 32 heapAddress) (i : Nat) :
    heapBlockToAddress heap i = heapBlock i := by
  rw [heapBlockToAddress, h, heapBlock, BitVec.ofNat_add, ← Int.natCast_mul, BitVec.ofInt_natCast,
    Nat.mul_comm]

namespace Pool

/-- A block that is placed is a range of blocks of the heap. -/
theorem Placed.exists_range
    {p : Ptr} {n : Nat} (h : Placed p n) :
    ∃ r : BlockRange, p = heapBlock r.start ∧ n = r.count ∧ r.stop ≤ heapTotal := by
  obtain ⟨haligned, hlower, hupper, hpages⟩ := h
  unfold PageAligned heapAddress heapSizeBytes pagingPageSize at *
  have hstop : (p.toNat - 0x01000000) / 4096 + n ≤ 104857600 / 4096 := by omega
  refine ⟨⟨(p.toNat - 0x01000000) / 4096, n, hpages⟩, BitVec.eq_of_toNat_eq ?_, rfl, hstop⟩
  dsimp only
  rw [toNat_heapBlock ((Nat.le_add_right _ n).trans hstop)]
  unfold heapAddress heapBlockSize
  omega

theorem placed_heapBlock
    {r : BlockRange} (h : r.stop ≤ heapTotal) :
    Placed (heapBlock r.start) r.count := by
  have hpos := r.count_pos
  have htoNat := toNat_heapBlock ((Nat.le_add_right r.start r.count).trans h)
  unfold BlockRange.stop heapTotal heapSizeBytes at h
  unfold heapAddress heapBlockSize at *
  refine ⟨?_, ?_, ?_, hpos⟩
  · unfold PageAligned pagingPageSize
    omega
  · unfold heapAddress
    omega
  · unfold heapAddress heapSizeBytes pagingPageSize
    omega

theorem apart_heapBlock
    {q r : BlockRange} (hq : q.stop ≤ heapTotal) (hr : r.stop ≤ heapTotal) :
    Apart (heapBlock q.start) q.count (heapBlock r.start) r.count ↔ q.Apart r := by
  unfold Apart BlockRange.Apart
  rw [toNat_heapBlock ((Nat.le_add_right _ _).trans hq),
    toNat_heapBlock ((Nat.le_add_right _ _).trans hr)]
  unfold BlockRange.stop heapBlockSize pagingPageSize
  omega

end Pool

/-- The ranges of blocks that are live. -/
def rangesOf (live : Ptr → Option Nat) : Set BlockRange :=
  {r | r.stop ≤ heapTotal ∧ live (heapBlock r.start) = some r.count}

theorem start_eq_of_mem
    {live : Ptr → Option Nat} {q r : BlockRange} (hq : q ∈ rangesOf live)
    (hr : r ∈ rangesOf live) (h : q.start = r.start) :
    q = r := by
  refine BlockRange.ext h (Option.some.inj ?_)
  rw [← hq.2, ← hr.2, h]

theorem heapBlock_start_inj
    {q r : BlockRange} (hq : q.stop ≤ heapTotal) (hr : r.stop ≤ heapTotal) :
    heapBlock q.start = heapBlock r.start ↔ q.start = r.start :=
  heapBlock_inj ((Nat.le_add_right _ _).trans hq) ((Nat.le_add_right _ _).trans hr)

theorem rangesOf_kfree
    {b : Pool} {r : BlockRange} (hr : r ∈ rangesOf b.live) :
    rangesOf (b.kfree (heapBlock r.start)).live = rangesOf b.live \ {r} := by
  ext q
  simp only [rangesOf, Pool.kfree_live, Set.mem_ofPred_eq, Set.mem_sdiff, Set.mem_singleton_iff]
  constructor
  · rintro ⟨hstop, hlive⟩
    split_ifs at hlive with hsame
    exact ⟨⟨hstop, hlive⟩, fun heq => hsame (heq ▸ rfl)⟩
  · rintro ⟨⟨hstop, hlive⟩, hne⟩
    refine ⟨hstop, ?_⟩
    rw [if_neg, hlive]
    intro hsame
    exact hne (start_eq_of_mem ⟨hstop, hlive⟩ hr ((heapBlock_start_inj hstop hr.1).mp hsame))

theorem rangesOf_taken
    {b b' : Pool} {r : BlockRange} (hr : r.stop ≤ heapTotal)
    (h : Pool.Taken b b' (heapBlock r.start) r.count) :
    rangesOf b'.live = insert r (rangesOf b.live) := by
  ext q
  simp only [rangesOf, h.live, Set.mem_ofPred_eq, Set.mem_insert_iff]
  constructor
  · rintro ⟨hstop, hlive⟩
    split_ifs at hlive with hsame
    · exact Or.inl (BlockRange.ext ((heapBlock_start_inj hstop hr).mp hsame)
        (Option.some.inj hlive).symm)
    · exact Or.inr ⟨hstop, hlive⟩
  · rintro (rfl | ⟨hstop, hlive⟩)
    · exact ⟨hr, if_pos rfl⟩
    · refine ⟨hstop, ?_⟩
      rw [if_neg (Pool.ne_of_live hlive h.fresh), hlive]

/-- The heap of the kernel with a table that encodes the live blocks of the pool. -/
structure Stores (heap : Heap) (b : Pool) : Prop where
  saddr : heap.saddr = BitVec.ofNat 32 heapAddress
  total : heap.table.total = heapTotal
  choose : b.choose = Pool.firstFit
  inv : b.Inv
  encodes : Encodes heap.table (rangesOf b.live)

namespace Stores

variable {heap : Heap} {b : Pool}

/-- A live block is a range of the table. -/
theorem exists_range
    (h : Stores heap b) {q : Ptr} {m : Nat} (hq : b.live q = some m) :
    ∃ r ∈ rangesOf b.live, q = heapBlock r.start ∧ m = r.count := by
  obtain ⟨r, rfl, rfl, hstop⟩ := (h.inv.placed q m hq).exists_range
  exact ⟨r, ⟨hstop, hq⟩, rfl, rfl⟩

/-- Free blocks in a row are pages that no live block has. -/
theorem freeRun_iff
    (h : Stores heap b) {n : Nat} (hn : 0 < n) (i : Nat) :
    FreeRun heap.table n i ↔ Pool.Fits b.live n i := by
  rw [FreeRun, Pool.Fits, h.total]
  refine and_congr_right fun hle => ?_
  have hapart (r : BlockRange) (hr : r ∈ rangesOf b.live) :
      Pool.Apart (heapBlock i) n (heapBlock r.start) r.count ↔
        ∀ j, i ≤ j ∧ j < i + n → ¬ r.Contains j :=
    (Pool.apart_heapBlock (q := ⟨i, n, hn⟩) hle hr.1).trans BlockRange.apart_iff
  constructor
  · intro hfree q m hq
    obtain ⟨r, hr, rfl, rfl⟩ := h.exists_range hq
    refine (hapart r hr).mpr fun j hj => ?_
    have hlt : j < heap.table.total := by
      rw [h.total]
      omega
    exact (h.encodes.freeBlock_iff hlt).mp (hfree j hj.1 hj.2) r hr
  · intro hlive j hlo hhi
    have hlt : j < heap.table.total := by
      rw [h.total]
      omega
    rw [h.encodes.freeBlock_iff hlt]
    exact fun r hr => (hapart r hr).mp (hlive _ _ hr.2) j ⟨hlo, hhi⟩

/-- The last block of the table is free exactly when no live block ends with the pool. -/
theorem freeBlock_last_iff
    (h : Stores heap b) :
    FreeBlock heap.table (heap.table.total - 1) ↔ ¬ Pool.EndInUse b.live := by
  have hlt : heap.table.total - 1 < heap.table.total := by
    rw [h.total]
    decide
  rw [h.encodes.freeBlock_iff hlt, h.total]
  have hend (r : BlockRange) (hr : r ∈ rangesOf b.live) : r.Contains (heapTotal - 1) ↔
      (heapBlock r.start).toNat + heapBlockSize * r.count = heapAddress + heapSizeBytes := by
    have hstop := hr.1
    have hpos := r.count_pos
    rw [toNat_heapBlock ((Nat.le_add_right _ _).trans hstop)]
    unfold BlockRange.Contains BlockRange.stop heapTotal heapSizeBytes heapBlockSize at *
    omega
  constructor
  · rintro hnone ⟨q, m, hq, hlast⟩
    obtain ⟨r, hr, rfl, rfl⟩ := h.exists_range hq
    exact hnone r hr ((hend r hr).mpr hlast)
  · intro hnone r hr hcontains
    exact hnone ⟨_, _, hr.2, (hend r hr).mp hcontains⟩

theorem kfree
    (h : Stores heap b) {p : Ptr} (hp : (b.live p).isSome = true) :
    Stores (heapFree heap p) (b.kfree p) := by
  obtain ⟨m, hm⟩ := Option.isSome_iff_exists.mp hp
  obtain ⟨r, hr, rfl, rfl⟩ := h.exists_range hm
  have hstart : r.start ≤ heapTotal := (Nat.le_add_right _ _).trans hr.1
  have hoffset : (heapBlock r.start - heap.saddr).toNat = heapBlockSize * r.start := by
    rw [h.saddr, heapBlock, BitVec.ofNat_add, add_sub_cancel_left, BitVec.toNat_ofNat]
    unfold heapTotal heapSizeBytes heapBlockSize at *
    omega
  have hblock : heapFree heap (heapBlock r.start) = heapMarkBlocksFree heap r.start := by
    rw [heapFree, heapAddressToBlock_eq]
    · rw [hoffset, Nat.mul_div_cancel_left _ (by decide)]
    · rw [hoffset]
      unfold heapTotal heapSizeBytes heapBlockSize at *
      omega
  rw [hblock]
  exact
    { saddr := h.saddr
      total := by
        rw [heapMarkBlocksFree_total]
        exact h.total
      choose := h.choose
      inv := h.inv.kfree _
      encodes := by
        rw [rangesOf_kfree hr]
        refine h.encodes.freed ?_ hr
        rw [h.total]
        decide }

theorem heapTotalBlocks_eq_pagesOf
    {size : Word} (h : size.toNat ≤ 0xFFFFF000) :
    heapTotalBlocks size = pagesOf size :=
  heapTotalBlocks_eq h

/-- A size that wraps needs more pages than the pool has. -/
theorem not_fits_of_wraps
    {live : Ptr → Option Nat} {size : Word} (h : 0xFFFFF000 < size.toNat) (i : Nat) :
    ¬ Pool.Fits live (pagesOf size) i := by
  rintro ⟨hle, -⟩
  unfold pagesOf heapTotal heapSizeBytes heapBlockSize pagingPageSize at hle
  omega

theorem exists_lastRun
    {t : HeapTable} {n : Nat} (h : FreeBlock t (n - 1)) (hn : 0 < n) :
    ∃ i, LastRun t n i := by
  induction n, hn using Nat.le_induction with
  | base => exact ⟨0, LastRun.single h (Or.inl rfl)⟩
  | succ n hn ih =>
      by_cases hprev : FreeBlock t (n - 1)
      · obtain ⟨i, hi⟩ := ih hprev
        exact ⟨i, hi.extend h⟩
      · exact ⟨n, LastRun.single h (Or.inr hprev)⟩

/-- What a request finds in the table. -/
inductive Found (heap : Heap) (b : Pool) (size : Word) : Prop
  | fits (i : Nat) (hfirst : IsLeast {i | Pool.Fits b.live (pagesOf size) i} i)
      (heq : heapMalloc heap size = (heapBlock i, heapMarkBlocksTaken heap i (pagesOf size)))
  | refused (hnone : ∀ i, ¬ Pool.Fits b.live (pagesOf size) i) (hend : Pool.EndInUse b.live)
      (heq : heapMalloc heap size = (0, heap))
  | overrun (hnone : ∀ i, ¬ Pool.Fits b.live (pagesOf size) i)
      (hend : ¬ Pool.EndInUse b.live) (hne : (heapMalloc heap size).1 ≠ 0)

theorem found
    (h : Stores heap b) {size : Word} (hsize : size ≠ 0) :
    Found heap b size := by
  have hpos := Pool.pagesOf_pos hsize
  by_cases hwrap : size.toNat ≤ 0xFFFFF000
  · have hmalloc : heapMalloc heap size = heapMallocBlocks heap (pagesOf size) := by
      rw [heapMalloc, heapTotalBlocks_eq_pagesOf hwrap]
    simp only [heapMallocBlocks] at hmalloc
    rcases heapGetStartBlock_cases heap hpos with
      ⟨hres, hno, hlast⟩ | ⟨i, hres, hrun, hfirst⟩ | ⟨i, hres, hlt, -, hfree, hno⟩
    · refine .refused (fun i => (h.freeRun_iff hpos i).not.mp (hno i)) ?_ ?_
      · by_contra hend
        rcases hlast with h0 | hlast
        · exact absurd (h.total.symm.trans h0) (by decide)
        · exact hlast (h.freeBlock_last_iff.mpr hend)
      · rw [hmalloc, hres]
        rfl
    · refine .fits i ⟨(h.freeRun_iff hpos i).mp hrun, fun j hj => ?_⟩ ?_
      · by_contra hlt
        exact hfirst j (Nat.lt_of_not_le hlt) ((h.freeRun_iff hpos j).mpr hj)
      · rw [hmalloc, hres, if_neg (by omega), heapBlockToAddress_eq h.saddr]
    · refine .overrun (fun i => (h.freeRun_iff hpos i).not.mp (hno i)) ?_ ?_
      · exact h.freeBlock_last_iff.mp (hfree _ (by omega) (by omega))
      · rw [hmalloc, hres, if_neg (by omega), heapBlockToAddress_eq h.saddr]
        exact heapBlock_ne_zero (by rw [← h.total]; omega)
  · have hzero : heapTotalBlocks size = 0 :=
      (heapTotalBlocks_eq_zero_iff size).mpr (Or.inr (Nat.lt_of_not_le hwrap))
    have hnone (i : Nat) : ¬ Pool.Fits b.live (pagesOf size) i :=
      not_fits_of_wraps (Nat.lt_of_not_le hwrap) i
    by_cases hend : Pool.EndInUse b.live
    · refine .refused hnone hend (heapMalloc_noBlock_refused hzero fun i hi => ?_)
      exact h.freeBlock_last_iff.not.mpr (not_not.mpr hend)
        (hi.free _ (Nat.le_sub_one_of_lt hi.lt) (Nat.sub_one_lt_of_lt hi.lt))
    · obtain ⟨i, hi⟩ := exists_lastRun (h.freeBlock_last_iff.mpr hend) (by rw [h.total]; decide)
      refine .overrun hnone hend ?_
      rw [heapMalloc_noBlock hzero hi, heapBlockToAddress_eq h.saddr]
      exact heapBlock_ne_zero (by rw [← h.total]; exact Nat.le_of_lt hi.lt)

theorem firstFit_eq
    {live : Ptr → Option Nat} {size : Word} {i : Nat} (asked : Nat)
    (h : IsLeast {i | Pool.Fits live (pagesOf size) i} i) :
    Pool.firstFit asked live size = heapBlock i := by
  classical
  have hexists : ∃ i, Pool.Fits live (pagesOf size) i := ⟨i, h.1⟩
  rw [Pool.firstFit, dif_pos hexists]
  exact congrArg heapBlock ((Nat.find_eq_iff hexists).mpr
    ⟨h.1, fun j hlt hj => absurd (h.2 hj) (Nat.not_le.mpr hlt)⟩)

theorem firstFit_eq_zero
    {live : Ptr → Option Nat} {size : Word} (asked : Nat)
    (h : ∀ i, ¬ Pool.Fits live (pagesOf size) i) :
    Pool.firstFit asked live size = 0 :=
  dif_neg fun ⟨i, hi⟩ => h i hi

/-- A request that fits, or one that is refused with the end of the heap in use,
is answered as by the pool. -/
theorem kmalloc
    (h : Stores heap b) {size : Word} (hsize : size ≠ 0)
    (hok : b.Answerable (.malloc size)) :
    (heapMalloc heap size).1 = (b.kmalloc size).1 ∧
      Stores (heapMalloc heap size).2 (b.kmalloc size).2 := by
  cases h.found hsize with
  | fits i hfirst heq =>
      obtain ⟨r, rfl, hcount⟩ : ∃ r : BlockRange, r.start = i ∧ r.count = pagesOf size :=
        ⟨⟨i, pagesOf size, Pool.pagesOf_pos hsize⟩, rfl, rfl⟩
      have hfits := hfirst.1
      rw [← hcount] at hfits
      have hstart : r.start < heapTotal := Nat.lt_of_lt_of_le r.contains_start.2 hfits.1
      have hanswer : (b.kmalloc size).1 = heapBlock r.start := by
        rw [Pool.kmalloc, h.choose, firstFit_eq _ hfirst,
          if_neg (heapBlock_ne_zero (Nat.le_of_lt hstart))]
      have htaken := Pool.kmalloc_taken h.inv hsize
        (hanswer ▸ heapBlock_ne_zero (Nat.le_of_lt hstart))
      rw [hanswer, ← hcount] at htaken
      have hapart : ∀ q ∈ rangesOf b.live, r.Apart q := fun q hq =>
        (Pool.apart_heapBlock hfits.1 hq.1).mp (hfits.2 _ _ hq.2)
      rw [heq, ← hcount]
      refine ⟨hanswer.symm, ?_⟩
      exact
        { saddr := h.saddr
          total := by
            rw [heapMarkBlocksTaken_total]
            exact h.total
          choose := (Pool.kmalloc_choose b size).trans h.choose
          inv := h.inv.kmalloc hsize
          encodes := by
            rw [rangesOf_taken hfits.1 htaken]
            exact h.encodes.taken r (h.total ▸ hstart) hapart }
  | refused hnone hend heq =>
      have hanswer : (b.kmalloc size).1 = 0 := by
        rw [Pool.kmalloc, h.choose, firstFit_eq_zero _ hnone]
        rfl
      rw [heq]
      refine ⟨hanswer.symm, h.saddr, h.total, ?_, h.inv.kmalloc hsize, ?_⟩
      · rw [Pool.kmalloc_choose, h.choose]
      · rw [Pool.kmalloc_live_of_null hanswer]
        exact h.encodes
  | overrun hnone hend hne => exact absurd hok (not_or.mpr ⟨not_exists.mpr hnone, hend⟩)

/-- Any other request is granted by the heap and refused by the pool. -/
theorem kmalloc_ne
    (h : Stores heap b) {size : Word} (hsize : size ≠ 0)
    (hok : ¬ b.Answerable (.malloc size)) :
    (heapMalloc heap size).1 ≠ 0 ∧ (b.kmalloc size).1 = 0 := by
  obtain ⟨hfits, hend⟩ := not_or.mp hok
  have hnone : ∀ i, ¬ Pool.Fits b.live (pagesOf size) i := fun i hi => hfits ⟨i, hi⟩
  refine ⟨?_, ?_⟩
  · cases h.found hsize with
    | fits i hfirst heq => exact absurd hfirst.1 (hnone i)
    | refused _ hend' heq => exact absurd hend' hend
    | overrun _ _ hne => exact hne
  · rw [Pool.kmalloc, h.choose, firstFit_eq_zero _ hnone]
    rfl

end Stores

theorem firstFit_sound : Pool.Sound Pool.firstFit := by
  intro asked live size hsize hne
  rw [Pool.firstFit] at hne ⊢
  split_ifs at hne ⊢ with hexists
  · classical
    have hfits := Nat.find_spec hexists
    exact ⟨Pool.placed_heapBlock (r := ⟨Nat.find hexists, pagesOf size, Pool.pagesOf_pos hsize⟩)
      hfits.1, hfits.2⟩
  · exact absurd rfl hne

theorem kernelPool_inv : Pool.kernelPool.Inv where
  sound := firstFit_sound
  placed := by
    intro p n hp
    cases hp
  apart := by
    intro p m q n hp
    cases hp

theorem emptyHeap_stores : Stores emptyHeap Pool.kernelPool where
  saddr := by
    rw [emptyHeap_eq]
    rfl
  total := emptyHeap_total
  choose := rfl
  inv := kernelPool_inv
  encodes := by
    have hnone : rangesOf Pool.kernelPool.live = ∅ :=
      Set.eq_empty_iff_forall_notMem.mpr fun r hr => by cases hr.2
    rw [hnone]
    refine Encodes.empty fun i hi => ?_
    rw [emptyHeap_total] at hi
    rw [emptyHeap_eq, memsetEntries_entries _ _ _ _ hi]

/-- A request is answered as by the pool. -/
theorem Stores.serve
    {heap : Heap} {b : Pool} (h : Stores heap b) {op : HeapOp} (hop : b.Asks op)
    (hok : b.Answerable op) :
    (kheapServe heap op).1 = (b.answer op).1 ∧ Stores (kheapServe heap op).2 (b.answer op).2 := by
  cases op with
  | malloc size => exact h.kmalloc hop hok
  | free p => exact ⟨rfl, h.kfree hop⟩

/-- From boot on, `kmalloc` and `kfree` answer any sequence of requests as the
first-fit allocator does if and only if no request comes that does not fit while
the last block of the heap is free.  Then the table encodes the live blocks. -/
theorem kheap_refines_firstFit
    (requests : List HeapOp) (hasks : Admitted Pool.Asks Pool.answer Pool.kernelPool requests) :
    ((serve kheapServe emptyHeap requests).1 =
        (serve Pool.answer Pool.kernelPool requests).1 ↔
      Admitted Pool.Answerable Pool.answer Pool.kernelPool requests) ∧
    (Admitted Pool.Answerable Pool.answer Pool.kernelPool requests →
      Stores (serve kheapServe emptyHeap requests).2
        (serve Pool.answer Pool.kernelPool requests).2) := by
  refine ⟨?_, fun hok => ?_⟩
  · refine serve_eq_iff_admitted (R := Stores) ?_ ?_ emptyHeap_stores hasks
    · exact fun heap b op h hop hok => h.serve hop hok
    · intro heap b op h hop hok
      cases op with
      | malloc size =>
          obtain ⟨hne, h0⟩ := h.kmalloc_ne hop hok
          rw [kheapServe, Pool.answer, h0]
          exact hne
      | free p => exact absurd trivial hok
  · exact (serve_simulates (fun heap b op h hop => h.serve hop.1 hop.2) emptyHeap_stores
      (hasks.and hok)).2

theorem kernelPool_page :
    Pool.answer Pool.kernelPool (.malloc 4096) =
      (0x1000000, ⟨Pool.firstFit, 1, fun q => if q = 0x1000000 then some 1 else none⟩) := by
  have hfirst : Pool.firstFit 0 (fun _ => none) 4096 = 0x1000000 :=
    Stores.firstFit_eq 0 ⟨⟨by decide, fun _ _ hq => by cases hq⟩, fun i _ => Nat.zero_le i⟩
  simp only [Pool.answer, Pool.kmalloc, Pool.kernelPool, hfirst]
  rfl

/-- A page is granted and freed, and two pages take its place. -/
theorem kheap_refines_firstFit_page :
    (serve kheapServe emptyHeap [.malloc 4096, .free 0x1000000, .malloc 8192]).1 =
      (serve Pool.answer Pool.kernelPool [.malloc 4096, .free 0x1000000, .malloc 8192]).1 := by
  refine (kheap_refines_firstFit [.malloc 4096, .free 0x1000000, .malloc 8192]
    ⟨by unfold Pool.Asks; decide, ?_, by unfold Pool.Asks; decide, trivial⟩).1.mpr
    ⟨Or.inl ⟨0, by decide, fun q m hq => ?_⟩, trivial, Or.inl ⟨0, by decide, fun q m hq => ?_⟩,
      trivial⟩
  · rw [kernelPool_page]
    rfl
  · cases hq
  · rw [kernelPool_page, Pool.answer, Pool.kfree] at hq
    dsimp only at hq
    split_ifs at hq

end PeachOS
