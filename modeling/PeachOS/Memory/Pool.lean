import PeachOS.Memory.Bytes

/-!
# The blocks of the heap pool

`kmalloc` and `kfree` as the rest of the kernel relies on them: what the
allocator returns is given by `choose`, and `Sound` says that a block is made
of pages of the pool that no live block has.
-/

namespace PeachOS

open Lib

structure Pool where
  /-- The answer to a request: its number, the live blocks with their pages, and
  the size. -/
  choose : Nat → (Ptr → Option Nat) → Word → Ptr
  asked : Nat
  live : Ptr → Option Nat

/-- The pages of a block of `size` bytes. -/
def pagesOf (size : Word) : Nat := (size.toNat + 4095) / pagingPageSize

/-- An address in the block of `n` pages at `p`. -/
def InBlock (p : Ptr) (n : Nat) (addr : Ptr) : Prop :=
  p.toNat ≤ addr.toNat ∧ addr.toNat < p.toNat + pagingPageSize * n

namespace Pool

def kmalloc (b : Pool) (size : Word) : Ptr × Pool :=
  let p := b.choose b.asked b.live size
  if p = 0 then
    (0, { b with asked := b.asked + 1 })
  else
    (p,
      { b with
        asked := b.asked + 1
        live := fun q => if q = p then some (pagesOf size) else b.live q })

def kfree (b : Pool) (p : Ptr) : Pool :=
  { b with live := fun q => if q = p then none else b.live q }

/-- The answers to requests that come one after another. -/
def requests (b : Pool) : List Word → List Ptr
  | [] => []
  | size :: sizes => (b.kmalloc size).1 :: (b.kmalloc size).2.requests sizes

/-- A block of the pool. -/
structure Placed (p : Ptr) (n : Nat) : Prop where
  aligned : PageAligned p
  lower : heapAddress ≤ p.toNat
  upper : p.toNat + pagingPageSize * n ≤ heapAddress + heapSizeBytes
  pages : 0 < n

def Apart (p : Ptr) (m : Nat) (q : Ptr) (n : Nat) : Prop :=
  p.toNat + pagingPageSize * m ≤ q.toNat ∨ q.toNat + pagingPageSize * n ≤ p.toNat

/-- What is promised of an allocator: the blocks are placed in the pool and do
not overlap. -/
def Sound (choose : Nat → (Ptr → Option Nat) → Word → Ptr) : Prop :=
  ∀ asked live size, size ≠ 0 → choose asked live size ≠ 0 →
    Placed (choose asked live size) (pagesOf size) ∧
      ∀ q n, live q = some n → Apart (choose asked live size) (pagesOf size) q n

structure Inv (b : Pool) : Prop where
  sound : Sound b.choose
  placed : ∀ p n, b.live p = some n → Placed p n
  apart : ∀ p m q n, b.live p = some m → b.live q = some n → p ≠ q → Apart p m q n

theorem Apart.symm
    {p q : Ptr} {m n : Nat} (h : Apart p m q n) :
    Apart q n p m :=
  Or.symm h

/-- No address is in two blocks. -/
theorem Apart.not_inBlock
    {p q : Ptr} {m n : Nat} (h : Apart p m q n) {addr : Ptr} (hp : InBlock p m addr) :
    ¬ InBlock q n addr := by
  rintro ⟨hlo, hhi⟩
  obtain ⟨hlo', hhi'⟩ := hp
  rcases h with h | h
  · omega
  · omega

theorem Placed.ne_zero
    {p : Ptr} {n : Nat} (h : Placed p n) :
    p ≠ 0 := by
  rintro rfl
  have hlower := h.lower
  rw [heapAddress] at hlower
  simp at hlower

/-- The first byte of a block. -/
theorem Placed.inBlock
    {p : Ptr} {n : Nat} (h : Placed p n) :
    InBlock p n p := by
  have hpages := h.pages
  refine ⟨Nat.le_refl _, ?_⟩
  rw [pagingPageSize]
  omega

/-- The pages of a block are those from its first one on. -/
theorem Placed.inBlock_iff_pageAt
    {p : Ptr} {n : Nat} (h : Placed p n) {page : Ptr} (hpage : PageAligned page) :
    InBlock p n page ↔ ∃ i < n, page = pageAt p i := by
  have haligned := h.aligned
  have hupper := h.upper
  unfold PageAligned InBlock heapAddress heapSizeBytes pagingPageSize at *
  constructor
  · rintro ⟨hlo, hhi⟩
    refine ⟨(page.toNat - p.toNat) / 4096, by omega, BitVec.eq_of_toNat_eq ?_⟩
    rw [toNat_pageAt]
    omega
  · rintro ⟨i, hi, rfl⟩
    rw [toNat_pageAt]
    omega

/-- A block has the whole of a page or nothing of it. -/
theorem Placed.inBlock_iff
    {p : Ptr} {n : Nat} (h : Placed p n) {page addr : Ptr}
    (hpage : PageAligned page) (haddr : OnPage page addr) :
    InBlock p n addr ↔ InBlock p n page := by
  have haligned := h.aligned
  unfold PageAligned OnPage InBlock pagingPageSize at *
  omega

/-- Pages outside a block when only bytes in it are written. -/
theorem Placed.ofBytes
    {p : Ptr} {n : Nat} (h : Placed p n) {mem : Pages} {m : Memory}
    (hm : ∀ addr, ¬ InBlock p n addr → m addr = mem.bytes addr)
    {page : Ptr} (hpage : PageAligned page) (hout : ¬ InBlock p n page) :
    Pages.ofBytes m page = mem page :=
  Pages.ofBytes_of_agree hpage fun addr haddr =>
    hm addr fun hin => hout ((h.inBlock_iff hpage haddr).mp hin)

theorem pagesOf_pos
    {size : Word} (h : size ≠ 0) :
    0 < pagesOf size := by
  have hpos : size.toNat ≠ 0 := fun h0 => h (BitVec.eq_of_toNat_eq h0)
  rw [pagesOf, pagingPageSize]
  omega

section Calls

variable {b : Pool}

@[simp] theorem kfree_live
    (b : Pool) (p q : Ptr) :
    (b.kfree p).live q = if q = p then none else b.live q :=
  rfl

theorem kmalloc_choose
    (b : Pool) (size : Word) :
    (b.kmalloc size).2.choose = b.choose := by
  rw [kmalloc]
  split_ifs
  · rfl
  · rfl

/-- A request that fails leaves the blocks as they are. -/
theorem kmalloc_live_of_null
    {size : Word} (h : (b.kmalloc size).1 = 0) :
    (b.kmalloc size).2.live = b.live := by
  rw [kmalloc] at h ⊢
  split_ifs at h ⊢ with h0
  · rfl
  · exact absurd h h0

/-- The block that a request returns. -/
structure Taken (b b' : Pool) (p : Ptr) (n : Nat) : Prop where
  placed : Placed p n
  fresh : b.live p = none
  apart : ∀ q m, b.live q = some m → Apart p n q m
  live : ∀ q, b'.live q = if q = p then some n else b.live q

theorem kmalloc_taken
    (h : b.Inv) {size : Word} (hsize : size ≠ 0) (hne : (b.kmalloc size).1 ≠ 0) :
    Taken b (b.kmalloc size).2 (b.kmalloc size).1 (pagesOf size) := by
  rw [kmalloc] at hne ⊢
  split_ifs at hne ⊢ with h0
  · exact absurd rfl hne
  · obtain ⟨hplaced, hapart⟩ := h.sound b.asked b.live size hsize h0
    refine ⟨hplaced, ?_, hapart, fun q => rfl⟩
    cases hlive : b.live (b.choose b.asked b.live size) with
    | none => rfl
    | some n =>
        have hself := (hapart _ n hlive).not_inBlock hplaced.inBlock
        exact absurd (h.placed _ n hlive).inBlock hself

/-- A block that is live is not one that is not. -/
theorem ne_of_live
    {p q : Ptr} {n : Nat} (hq : b.live q = some n) (hp : b.live p = none) :
    q ≠ p := by
  rintro rfl
  rw [hp] at hq
  cases hq

theorem Inv.kfree
    (h : b.Inv) (p : Ptr) :
    (b.kfree p).Inv := by
  have hold (q : Ptr) (n : Nat) (hq : (b.kfree p).live q = some n) : b.live q = some n := by
    rw [kfree_live] at hq
    split_ifs at hq
    exact hq
  exact ⟨h.sound, fun q n hq => h.placed q n (hold q n hq),
    fun q m r n hq hr hne => h.apart q m r n (hold q m hq) (hold r n hr) hne⟩

theorem Inv.kmalloc
    (h : b.Inv) {size : Word} (hsize : size ≠ 0) :
    (b.kmalloc size).2.Inv := by
  by_cases h0 : (b.kmalloc size).1 = 0
  · have hlive := kmalloc_live_of_null h0
    refine ⟨kmalloc_choose b size ▸ h.sound, fun p n hp => h.placed p n (hlive ▸ hp), ?_⟩
    intro p m q n hp hq
    exact h.apart p m q n (hlive ▸ hp) (hlive ▸ hq)
  · have htaken := kmalloc_taken h hsize h0
    refine ⟨kmalloc_choose b size ▸ h.sound, fun p n hp => ?_, fun p m q n hp hq hne => ?_⟩
    · rw [htaken.live] at hp
      split_ifs at hp with heq
      · cases hp
        rw [heq]
        exact htaken.placed
      · exact h.placed p n hp
    · rw [htaken.live] at hp hq
      split_ifs at hp hq with hp' hq' hq'
      · exact absurd (hp'.trans hq'.symm) hne
      · cases hp
        rw [hp']
        exact htaken.apart q n hq
      · cases hq
        rw [hq']
        exact (htaken.apart p m hp).symm
      · exact h.apart p m q n hp hq hne

/-- No request fails, and `b'` is the pool behind them. -/
inductive Granted : Pool → List Word → Pool → Prop
  | nil (b : Pool) : Granted b [] b
  | cons {b b' : Pool} {size : Word} {sizes : List Word} (hne : (b.kmalloc size).1 ≠ 0)
      (hrest : Granted (b.kmalloc size).2 sizes b') : Granted b (size :: sizes) b'

theorem Granted.append
    {b' b'' : Pool} {sizes sizes' : List Word} (h : Granted b sizes b')
    (h' : Granted b' sizes' b'') :
    Granted b (sizes ++ sizes') b'' := by
  induction h with
  | nil b => exact h'
  | cons hne _ ih => exact Granted.cons hne (ih h')

theorem Granted.not_mem
    {b' : Pool} {sizes : List Word} (h : Granted b sizes b') :
    0 ∉ b.requests sizes := by
  induction h with
  | nil b => exact List.not_mem_nil
  | cons hne _ ih => exact List.not_mem_cons_of_ne_of_not_mem hne.symm ih

/-- `b'` has the blocks `bs` more than `b`. -/
structure Grown (b : Pool) (bs : List Ptr) (b' : Pool) : Prop where
  nodup : bs.Nodup
  fresh : ∀ p ∈ bs, b.live p = none
  live : ∀ p ∈ bs, (b'.live p).isSome = true
  others : ∀ p, p ∉ bs → b'.live p = b.live p

theorem Grown.refl (b : Pool) : Grown b [] b :=
  ⟨List.nodup_nil, fun _ h => absurd h List.not_mem_nil, fun _ h => absurd h List.not_mem_nil,
    fun _ _ => rfl⟩

variable {b' b'' : Pool} {bs : List Ptr}

theorem Grown.congr
    (h : Grown b bs b') (hlive : b''.live = b'.live) :
    Grown b bs b'' where
  nodup := h.nodup
  fresh := h.fresh
  live := fun p hp => by rw [hlive]; exact h.live p hp
  others := fun p hp => by rw [hlive]; exact h.others p hp

theorem Grown.perm
    (h : Grown b bs b') {bs' : List Ptr} (hperm : bs.Perm bs') :
    Grown b bs' b' where
  nodup := hperm.nodup_iff.mp h.nodup
  fresh := fun p hp => h.fresh p (hperm.mem_iff.mpr hp)
  live := fun p hp => h.live p (hperm.mem_iff.mpr hp)
  others := fun p hp => h.others p fun hmem => hp (hperm.mem_iff.mp hmem)

theorem Grown.not_mem
    (h : Grown b bs b') {p : Ptr} (hp : b'.live p = none) :
    p ∉ bs := by
  intro hmem
  have hlive := h.live p hmem
  rw [hp] at hlive
  cases hlive

theorem Grown.trans
    (h : Grown b bs b') {bs' : List Ptr} (h' : Grown b' bs' b'') :
    Grown b (bs' ++ bs) b'' := by
  have hnew (p : Ptr) (hp : p ∈ bs') : p ∉ bs := h.not_mem (h'.fresh p hp)
  refine ⟨?_, ?_, ?_, ?_⟩
  · rw [List.nodup_append]
    exact ⟨h'.nodup, h.nodup, fun p hp q hq heq => hnew p hp (heq ▸ hq)⟩
  · intro p hp
    rcases List.mem_append.mp hp with hmem | hmem
    · rw [← h.others p (hnew p hmem)]
      exact h'.fresh p hmem
    · exact h.fresh p hmem
  · intro p hp
    rcases List.mem_append.mp hp with hmem | hmem
    · exact h'.live p hmem
    · rw [h'.others p fun hp' => hnew p hp' hmem]
      exact h.live p hmem
  · intro p hp
    rw [List.mem_append, not_or] at hp
    rw [h'.others p hp.1, h.others p hp.2]

/-- A block that is taken is one more. -/
theorem Grown.take
    (h : Grown b bs b') {p : Ptr} {n : Nat} (htaken : Taken b' b'' p n) :
    Grown b (p :: bs) b'' := by
  have hp := h.not_mem htaken.fresh
  refine ⟨List.nodup_cons.mpr ⟨hp, h.nodup⟩, ?_, ?_, ?_⟩
  · intro q hq
    rcases List.mem_cons.mp hq with rfl | hmem
    · rw [← h.others q hp]
      exact htaken.fresh
    · exact h.fresh q hmem
  · intro q hq
    rw [htaken.live]
    split_ifs with heq
    · rfl
    · exact h.live q ((List.mem_cons.mp hq).resolve_left heq)
  · intro q hq
    rw [List.mem_cons, not_or] at hq
    rw [htaken.live, if_neg hq.1]
    exact h.others q hq.2

/-- A block that is freed is one less. -/
theorem Grown.free
    {p : Ptr} (h : Grown b (p :: bs) b') :
    Grown b bs (b'.kfree p) := by
  obtain ⟨hp, hnodup⟩ := List.nodup_cons.mp h.nodup
  refine ⟨hnodup, fun q hq => h.fresh q (List.mem_cons_of_mem _ hq), ?_, ?_⟩
  · intro q hq
    have hne : q ≠ p := fun heq => hp (heq ▸ hq)
    rw [kfree_live, if_neg hne]
    exact h.live q (List.mem_cons_of_mem _ hq)
  · intro q hq
    rw [kfree_live]
    split_ifs with heq
    · rw [heq]
      exact (h.fresh p List.mem_cons_self).symm
    · exact h.others q fun hmem => (List.mem_cons.mp hmem).elim heq hq

/-- The live blocks are the same again when no new one is left. -/
theorem Grown.live_eq_iff
    (h : Grown b bs b') :
    b'.live = b.live ↔ bs = [] := by
  constructor
  · intro hlive
    cases bs with
    | nil => rfl
    | cons p bs =>
        have hsome := h.live p List.mem_cons_self
        rw [hlive, h.fresh p List.mem_cons_self] at hsome
        cases hsome
  · rintro rfl
    funext p
    exact h.others p List.not_mem_nil

end Calls

/-- The pages of a request, when each has `pages` of them. -/
def packAddress (pages asked : Nat) : Ptr :=
  BitVec.ofNat 32 (heapAddress + pagingPageSize * (pages * asked))

open Classical in
/-- Requests of at most `pages` pages are answered as long as `limit` is not reached. -/
noncomputable def pack (pages limit asked : Nat) (live : Ptr → Option Nat) (size : Word) : Ptr :=
  if asked < limit ∧ pagesOf size ≤ pages ∧
      ∀ q n, live q = some n → Apart (packAddress pages asked) (pagesOf size) q n then
    packAddress pages asked
  else
    0

section Pack

variable {pages limit asked n : Nat}

theorem toNat_packAddress
    (h : pages * asked < 25600) :
    (packAddress pages asked).toNat = heapAddress + pagingPageSize * (pages * asked) := by
  rw [packAddress, BitVec.toNat_ofNat, heapAddress, pagingPageSize]
  omega

theorem placed_packAddress
    (h : pages * asked + pages ≤ 25600) (h0 : 0 < n) (hn : n ≤ pages) :
    Placed (packAddress pages asked) n where
  aligned := by
    rw [PageAligned, toNat_packAddress (by omega), heapAddress, pagingPageSize]
    omega
  lower := by
    rw [toNat_packAddress (by omega)]
    omega
  upper := by
    rw [toNat_packAddress (by omega), heapAddress, heapSizeBytes, pagingPageSize]
    omega
  pages := h0

/-- A request before the limit has its pages in the pool. -/
theorem pack_room
    (h : pages * limit ≤ 25600) (hasked : asked < limit) :
    pages * asked + pages ≤ 25600 := by
  have hstep := Nat.mul_le_mul_left pages (Nat.succ_le_of_lt hasked)
  rw [Nat.mul_succ] at hstep
  omega

theorem pack_sound
    (h : pages * limit ≤ 25600) :
    Sound (pack pages limit) := by
  intro asked live size hsize hne
  rw [pack] at hne ⊢
  split_ifs at hne ⊢ with hroom
  · exact ⟨placed_packAddress (pack_room h hroom.1) (pagesOf_pos hsize) hroom.2.1, hroom.2.2⟩
  · exact absurd rfl hne

end Pack

/-- There is space for `n` requests of at most `pages` pages. -/
def HasSpace (pages : Nat) (b : Pool) (n : Nat) : Prop :=
  ∃ limit, pages * limit ≤ 25600 ∧ b.choose = pack pages limit ∧ b.asked + n = limit ∧
    ∀ q m, b.live q = some m →
      q.toNat + pagingPageSize * m ≤ heapAddress + pagingPageSize * (pages * b.asked)

section Space

variable {b : Pool} {pages n : Nat} {sizes : List Word}

theorem HasSpace.kmalloc
    (h : HasSpace pages b (n + 1)) {size : Word} (hsize : size ≠ 0)
    (hpages : pagesOf size ≤ pages) :
    (b.kmalloc size).1 ≠ 0 ∧ HasSpace pages (b.kmalloc size).2 n := by
  obtain ⟨limit, hlimit, hchoose, hasked, hbelow⟩ := h
  have hroom := pack_room hlimit (show b.asked < limit by omega)
  have hpos := pagesOf_pos hsize
  have hplaced : Placed (packAddress pages b.asked) (pagesOf size) :=
    placed_packAddress hroom hpos hpages
  have haddress := toNat_packAddress (show pages * b.asked < 25600 by omega)
  have hanswer : b.choose b.asked b.live size = packAddress pages b.asked := by
    rw [hchoose]
    refine if_pos ⟨by omega, hpages, fun q m hq => Or.inr ?_⟩
    rw [haddress]
    exact hbelow q m hq
  rw [Pool.kmalloc, hanswer, if_neg hplaced.ne_zero]
  refine ⟨hplaced.ne_zero, limit, hlimit, hchoose, ?_, ?_⟩
  · dsimp only
    omega
  · intro q m hq
    dsimp only at hq ⊢
    rw [Nat.mul_succ, pagingPageSize] at *
    split_ifs at hq with heq
    · cases hq
      rw [heq, haddress]
      omega
    · have := hbelow q m hq
      omega

theorem HasSpace.kfree
    (h : HasSpace pages b n) (p : Ptr) :
    HasSpace pages (b.kfree p) n := by
  obtain ⟨limit, hlimit, hchoose, hasked, hbelow⟩ := h
  refine ⟨limit, hlimit, hchoose, hasked, fun q m hq => ?_⟩
  rw [kfree_live] at hq
  split_ifs at hq
  exact hbelow q m hq

/-- Behind the last request there is no memory. -/
theorem HasSpace.refuses
    (h : HasSpace pages b 0) (size : Word) :
    (b.kmalloc size).1 = 0 := by
  obtain ⟨limit, -, hchoose, hasked, -⟩ := h
  have hanswer : b.choose b.asked b.live size = 0 := by
    rw [hchoose]
    exact if_neg fun hroom => absurd hroom.1 (by omega)
  rw [Pool.kmalloc, hanswer]
  rfl

theorem HasSpace.granted
    (h : HasSpace pages b (n + sizes.length))
    (hsizes : ∀ size ∈ sizes, size ≠ 0 ∧ pagesOf size ≤ pages) :
    ∃ b', Granted b sizes b' ∧ HasSpace pages b' n := by
  induction sizes generalizing b with
  | nil => exact ⟨b, Granted.nil b, h⟩
  | cons size sizes ih =>
      obtain ⟨hsize, hpages⟩ := hsizes size List.mem_cons_self
      obtain ⟨hne, h'⟩ := HasSpace.kmalloc h hsize hpages
      obtain ⟨b', hgranted, hrest⟩ := ih h' fun s hs => hsizes s (List.mem_cons_of_mem size hs)
      exact ⟨b', Granted.cons hne hgranted, hrest⟩

end Space

/-- A pool without blocks that grants `limit` requests of at most `pages` pages. -/
noncomputable def packed (pages limit : Nat) : Pool where
  choose := pack pages limit
  asked := 0
  live := fun _ => none

theorem packed_inv
    {pages limit : Nat} (h : pages * limit ≤ 25600) :
    (packed pages limit).Inv where
  sound := pack_sound h
  placed := by
    intro p n hp
    cases hp
  apart := by
    intro p m q n hp
    cases hp

theorem packed_hasSpace
    {pages limit : Nat} (h : pages * limit ≤ 25600) :
    HasSpace pages (packed pages limit) limit :=
  ⟨limit, h, rfl, Nat.zero_add limit, by
    intro q m hq
    cases hq⟩

end Pool

end PeachOS
