import PeachOS.Task.Kernel

/-!
# The blocks that a call holds

`Holds` says which blocks there are since an earlier state, and that the log
has every one of them taken and not yet freed.  Each call of `Kernel` is
described by what it adds to these blocks and what it takes away.
-/

namespace PeachOS

open Lib

/-- The blocks that are taken and not freed, when only such blocks are freed. -/
def replay (own : List Ptr) : List HeapEvent → Option (List Ptr)
  | [] => some own
  | .taken p :: es => replay (p :: own) es
  | .opened _ :: es => replay own es
  | .freed p :: es => if p ∈ own then replay (own.erase p) es else none

theorem replay_append
    (own : List Ptr) (es es' : List HeapEvent) :
    replay own (es ++ es') = (replay own es).bind fun own => replay own es' := by
  induction es generalizing own with
  | nil => rfl
  | cons e es ih =>
      cases e with
      | taken p => exact ih _
      | opened p => exact ih _
      | freed p =>
          rw [List.cons_append, replay, replay]
          split_ifs
          · exact ih _
          · rfl

/-- What happens to some blocks happens beside others as well. -/
theorem replay_beside
    {own own' : List Ptr} {es : List HeapEvent} (h : replay own es = some own')
    (others : List Ptr) :
    replay (own ++ others) es = some (own' ++ others) := by
  induction es generalizing own with
  | nil =>
      cases h
      rfl
  | cons e es ih =>
      cases e with
      | taken p => exact ih h
      | opened p => exact ih h
      | freed p =>
          rw [replay] at h ⊢
          split_ifs at h with hmem
          rw [if_pos (List.mem_append_left others hmem), List.erase_append_left _ hmem]
          exact ih h

theorem follow_of_some
    {α : Type} {records : Ptr → Option α} {p : Ptr} {record : α}
    (h0 : p ≠ 0) (h : records p = some record) :
    follow records p = .ok record := by
  rw [follow, if_neg h0, h]

theorem follow_inv
    {α : Type} {records : Ptr → Option α} {p : Ptr} {record : α}
    (h : follow records p = .ok record) :
    p ≠ 0 ∧ records p = some record := by
  rw [follow] at h
  split_ifs at h with h0
  refine ⟨h0, ?_⟩
  cases hrecord : records p with
  | none =>
      rw [hrecord] at h
      cases h
  | some record' =>
      rw [hrecord] at h
      cases h
      rfl

/-- A list of events since a pool `b`, at the end of which the blocks `bs` are
taken and not freed, and `os` have been opened. -/
structure Ledger (b : Pool) (bs os : List Ptr) (es : List HeapEvent) : Prop where
  balance : ∃ own, replay [] es = some own ∧ own.Perm bs
  opened : ∀ p ∈ os, .opened p ∈ es
  fresh : ∀ p, .taken p ∈ es → b.live p = none

theorem Ledger.perm
    {b : Pool} {bs bs' os : List Ptr} {es : List HeapEvent} (h : Ledger b bs os es)
    (hperm : bs.Perm bs') :
    Ledger b bs' os es where
  balance := by
    obtain ⟨own, hreplay, hown⟩ := h.balance
    exact ⟨own, hreplay, hown.trans hperm⟩
  opened := h.opened
  fresh := h.fresh

theorem Ledger.append
    {b b' : Pool} {bs bs' os os' : List Ptr} {es es' : List HeapEvent} (h : Ledger b bs os es)
    (hgrown : b.Grown (bs ++ os) b') (h' : Ledger b' bs' os' es') :
    Ledger b (bs' ++ bs) (os' ++ os) (es ++ es') where
  balance := by
    obtain ⟨own, hreplay, hown⟩ := h.balance
    obtain ⟨own', hreplay', hown'⟩ := h'.balance
    have hbeside := replay_beside hreplay' own
    rw [List.nil_append] at hbeside
    refine ⟨own' ++ own, ?_, hown'.append hown⟩
    rw [replay_append, hreplay]
    exact hbeside
  opened := by
    intro p hp
    rcases List.mem_append.mp hp with hmem | hmem
    · exact List.mem_append_right es (h'.opened p hmem)
    · exact List.mem_append_left es' (h.opened p hmem)
  fresh := by
    intro p hp
    rcases List.mem_append.mp hp with hmem | hmem
    · exact h.fresh p hmem
    · have hnone := h'.fresh p hmem
      rw [← hgrown.others p (hgrown.not_mem hnone)]
      exact hnone

namespace Kernel

/-- The blocks `bs`, and `os` of `fopen`, are those that are new since `k₀`. -/
structure Holds (k₀ : Kernel) (bs os : List Ptr) (k : Kernel) : Prop where
  inv : k.pool.Inv
  grown : k₀.pool.Grown (bs ++ os) k.pool
  log : ∃ es, k.log = k₀.log ++ es ∧ Ledger k₀.pool bs os es

section Blocks

variable {k₀ k : Kernel} {bs os : List Ptr}

theorem Holds.refl (h : k.pool.Inv) : Holds k [] [] k where
  inv := h
  grown := Pool.Grown.refl k.pool
  log := ⟨[], (List.append_nil _).symm, ⟨[], rfl, List.Perm.refl _⟩,
    fun _ hp => absurd hp List.not_mem_nil, fun _ hp => absurd hp List.not_mem_nil⟩

theorem Holds.congr
    (h : Holds k₀ bs os k) {k' : Kernel} (hpool : k'.pool = k.pool) (hlog : k'.log = k.log) :
    Holds k₀ bs os k' where
  inv := hpool ▸ h.inv
  grown := hpool ▸ h.grown
  log := hlog ▸ h.log

theorem Holds.perm
    (h : Holds k₀ bs os k) {bs' : List Ptr} (hperm : bs.Perm bs') :
    Holds k₀ bs' os k where
  inv := h.inv
  grown := h.grown.perm (hperm.append_right os)
  log := by
    obtain ⟨es, hlog, hledger⟩ := h.log
    exact ⟨es, hlog, hledger.perm hperm⟩

/-- A call behind another one. -/
theorem Holds.trans
    (h : Holds k₀ bs os k) {bs' os' : List Ptr} {k' : Kernel} (h' : Holds k bs' os' k') :
    Holds k₀ (bs' ++ bs) (os' ++ os) k' where
  inv := h'.inv
  grown := by
    refine (h.grown.trans h'.grown).perm ?_
    rw [List.append_assoc, List.append_assoc]
    refine List.Perm.append_left bs' ?_
    rw [← List.append_assoc, ← List.append_assoc]
    exact List.Perm.append_right os List.perm_append_comm
  log := by
    obtain ⟨es, hlog, hledger⟩ := h.log
    obtain ⟨es', hlog', hledger'⟩ := h'.log
    refine ⟨es ++ es', ?_, hledger.append h.grown hledger'⟩
    rw [hlog', hlog, List.append_assoc]

theorem Holds.nodup (h : Holds k₀ bs os k) : bs.Nodup :=
  (List.nodup_append.mp h.grown.nodup).1

/-- A block that the kernel has is not at the null pointer. -/
theorem Holds.ne_zero
    (h : Holds k₀ bs os k) {p : Ptr} (hp : p ∈ bs) :
    p ≠ 0 := by
  have hlive := h.grown.live p (List.mem_append_left os hp)
  obtain ⟨n, hn⟩ := Option.isSome_iff_exists.mp hlive
  exact (h.inv.placed p n hn).ne_zero

/-- What an allocation changes. -/
structure Allocated (k k' : Kernel) (p : Ptr) (n : Nat) : Prop where
  pool : Pool.Taken k.pool k'.pool p n
  mem : ∀ page, PageAligned page → ¬ InBlock p n page → k'.mem page = k.mem page
  chunks : k'.chunks = k.chunks
  elfFiles : k'.elfFiles = k.elfFiles
  records : k'.records = k.records
  sched : k'.sched = k.sched

theorem kzallocFor_of_null
    {size : Word} (h : (k.pool.kmalloc size).1 = 0) (event : Ptr → HeapEvent) :
    k.kzallocFor event size = (0, { k with pool := (k.pool.kmalloc size).2 }) :=
  if_pos h

theorem kzallocFor_of_ne
    {size : Word} (h : (k.pool.kmalloc size).1 ≠ 0) (event : Ptr → HeapEvent) :
    k.kzallocFor event size =
      ((k.pool.kmalloc size).1,
        { k with
          pool := (k.pool.kmalloc size).2
          log := k.log ++ [event (k.pool.kmalloc size).1]
          mem := Pages.ofBytes
            (fill k.mem.bytes (k.pool.kmalloc size).1 0 size.toNat) }) :=
  if_neg h

/-- `kzalloc` returns what `kmalloc` does. -/
theorem kzallocFor_ptr
    (k : Kernel) (event : Ptr → HeapEvent) (size : Word) :
    (k.kzallocFor event size).1 = (k.pool.kmalloc size).1 := by
  by_cases h0 : (k.pool.kmalloc size).1 = 0
  · rw [kzallocFor_of_null h0, h0]
  · rw [kzallocFor_of_ne h0]

theorem kzallocFor_pool
    (k : Kernel) (event : Ptr → HeapEvent) (size : Word) :
    (k.kzallocFor event size).2.pool = (k.pool.kmalloc size).2 := by
  by_cases h0 : (k.pool.kmalloc size).1 = 0
  · rw [kzallocFor_of_null h0]
  · rw [kzallocFor_of_ne h0]

/-- `memset` stays in the pages of a block. -/
theorem fill_zeroed
    {p : Ptr} {size : Word} (hp : Pool.Placed p (pagesOf size)) (m : Memory)
    (addr : Ptr) (h : ¬ InBlock p (pagesOf size) addr) :
    fill m p 0 size.toNat addr = m addr := by
  have hupper := hp.upper
  unfold pagesOf InBlock heapAddress heapSizeBytes pagingPageSize at *
  refine fill_of_not_mem m 0 (by omega) (by omega)

theorem kzallocFor_allocated
    (hinv : k.pool.Inv) (event : Ptr → HeapEvent) {size : Word} (hsize : size ≠ 0)
    (hne : (k.kzallocFor event size).1 ≠ 0) :
    Allocated k (k.kzallocFor event size).2 (k.kzallocFor event size).1 (pagesOf size) ∧
      (k.kzallocFor event size).2.log = k.log ++ [event (k.kzallocFor event size).1] := by
  rw [kzallocFor_ptr] at hne
  rw [kzallocFor_of_ne hne]
  have htaken := Pool.kmalloc_taken hinv hsize hne
  refine ⟨⟨htaken, ?_, rfl, rfl, rfl, rfl⟩, rfl⟩
  exact fun page hpage => htaken.placed.ofBytes (fill_zeroed htaken.placed k.mem.bytes) hpage

/-- A request that fails changes no more than the number of requests. -/
structure Refused (k k' : Kernel) : Prop where
  live : k'.pool.live = k.pool.live
  choose : k'.pool.choose = k.pool.choose
  log : k'.log = k.log
  mem : k'.mem = k.mem
  chunks : k'.chunks = k.chunks
  elfFiles : k'.elfFiles = k.elfFiles
  records : k'.records = k.records
  sched : k'.sched = k.sched

theorem kzallocFor_refused
    {event : Ptr → HeapEvent} {size : Word} (h : (k.kzallocFor event size).1 = 0) :
    Refused k (k.kzallocFor event size).2 := by
  rw [kzallocFor_ptr] at h
  rw [kzallocFor_of_null h]
  exact ⟨Pool.kmalloc_live_of_null h, Pool.kmalloc_choose _ _, rfl, rfl, rfl, rfl, rfl, rfl⟩

theorem Holds.refused
    (h : Holds k₀ bs os k) {k' : Kernel} (hrefused : Refused k k') :
    Holds k₀ bs os k' where
  inv :=
    ⟨hrefused.choose ▸ h.inv.sound, fun p n hp => h.inv.placed p n (hrefused.live ▸ hp),
      fun p m q n hp hq => h.inv.apart p m q n (hrefused.live ▸ hp) (hrefused.live ▸ hq)⟩
  grown := h.grown.congr hrefused.live
  log := hrefused.log ▸ h.log

theorem Holds.kzalloc
    (h : Holds k₀ bs os k) {size : Word} (hsize : size ≠ 0) (hne : (k.kzalloc size).1 ≠ 0) :
    Holds k₀ ((k.kzalloc size).1 :: bs) os (k.kzalloc size).2 := by
  obtain ⟨hallocated, hlog⟩ := kzallocFor_allocated h.inv .taken hsize hne
  refine ⟨?_, h.grown.take hallocated.pool, ?_⟩
  · rw [Kernel.kzalloc, kzallocFor_pool]
    exact h.inv.kmalloc hsize
  · obtain ⟨es, hes, hledger⟩ := h.log
    have hone : Ledger k.pool [(k.kzalloc size).1] [] [.taken (k.kzalloc size).1] := by
      refine ⟨⟨_, rfl, List.Perm.refl _⟩, fun _ hp => absurd hp List.not_mem_nil, ?_⟩
      intro p hp
      cases List.mem_singleton.mp hp
      exact hallocated.pool.fresh
    refine ⟨_, ?_, hledger.append h.grown hone⟩
    rw [Kernel.kzalloc, hlog, hes, List.append_assoc]

/-- A block of `fopen` is one that nobody frees. -/
theorem Holds.opened
    (h : Holds k₀ bs os k) {size : Word} (hsize : size ≠ 0)
    (hne : (k.kzallocFor .opened size).1 ≠ 0) :
    Holds k₀ bs ((k.kzallocFor .opened size).1 :: os) (k.kzallocFor .opened size).2 := by
  obtain ⟨hallocated, hlog⟩ := kzallocFor_allocated h.inv .opened hsize hne
  refine ⟨?_, (h.grown.take hallocated.pool).perm List.perm_middle.symm, ?_⟩
  · rw [kzallocFor_pool]
    exact h.inv.kmalloc hsize
  · obtain ⟨es, hes, hledger⟩ := h.log
    have hone : Ledger k.pool [] [(k.kzallocFor .opened size).1]
        [.opened (k.kzallocFor .opened size).1] := by
      refine ⟨⟨_, rfl, List.Perm.refl _⟩, ?_, ?_⟩
      · intro p hp
        rw [List.mem_singleton.mp hp]
        exact List.mem_cons_self
      · intro p hp
        cases List.mem_singleton.mp hp
    refine ⟨_, ?_, hledger.append h.grown hone⟩
    rw [hlog, hes, List.append_assoc]

theorem Holds.kfree
    {p : Ptr} (h : Holds k₀ (p :: bs) os k) :
    Holds k₀ bs os (k.kfree p) := by
  refine ⟨h.inv.kfree p, h.grown.free, ?_⟩
  obtain ⟨es, hes, ⟨own, hreplay, hown⟩, hopened, hfresh⟩ := h.log
  have hmem : p ∈ own := hown.mem_iff.mpr List.mem_cons_self
  refine ⟨es ++ [.freed p], ?_, ⟨own.erase p, ?_, ?_⟩, ?_, ?_⟩
  · rw [Kernel.kfree, hes, List.append_assoc]
  · rw [replay_append, hreplay]
    exact if_pos hmem
  · have herase := hown.erase p
    rwa [List.erase_cons_head] at herase
  · exact fun q hq => List.mem_append_left _ (hopened q hq)
  · intro q hq
    rcases List.mem_append.mp hq with hold | hnew
    · exact hfresh q hold
    · cases List.mem_singleton.mp hnew

end Blocks

@[simp] theorem setElfFile_elfFiles
    (k : Kernel) (p q : Ptr) (elfFile : ElfFile) :
    (k.setElfFile p elfFile).elfFiles q = if q = p then some elfFile else k.elfFiles q :=
  rfl

/-- The block at `b` is as it was, with what is in it. -/
structure SameBlock (k k' : Kernel) (b : Ptr) : Prop where
  live : k'.pool.live b = k.pool.live b
  chunks : k'.chunks b = k.chunks b
  elfFiles : k'.elfFiles b = k.elfFiles b
  records : k'.records b = k.records b
  mem : ∀ n page, k.pool.live b = some n → PageAligned page → InBlock b n page →
    k'.mem page = k.mem page

theorem SameBlock.refl (k : Kernel) (b : Ptr) : SameBlock k k b :=
  ⟨rfl, rfl, rfl, rfl, fun _ _ _ _ _ => rfl⟩

theorem SameBlock.trans
    {k k' k'' : Kernel} {b : Ptr} (h : SameBlock k k' b) (h' : SameBlock k' k'' b) :
    SameBlock k k'' b where
  live := h'.live.trans h.live
  chunks := h'.chunks.trans h.chunks
  elfFiles := h'.elfFiles.trans h.elfFiles
  records := h'.records.trans h.records
  mem := fun n page hlive hpage hin =>
    (h'.mem n page (h.live.trans hlive) hpage hin).trans (h.mem n page hlive hpage hin)

/-- Of the blocks that there are, none but those in `bs` has changed. -/
def Spares (bs : List Ptr) (k k' : Kernel) : Prop :=
  ∀ b, (k.pool.live b).isSome = true → b ∉ bs → SameBlock k k' b

section Spares

variable {k k' k'' : Kernel} {bs : List Ptr}

theorem Spares.refl (bs : List Ptr) (k : Kernel) : Spares bs k k := fun b _ _ => SameBlock.refl k b

/-- Behind a call that spares all but `bs`, another one may change these and the
blocks that are new. -/
theorem Spares.trans
    {bs' : List Ptr} (h : Spares bs k k') (h' : Spares bs' k' k'')
    (hsub : ∀ b ∈ bs', b ∈ bs ∨ k.pool.live b = none) :
    Spares bs k k'' := by
  intro b hlive hb
  have hsame := h b hlive hb
  refine hsame.trans (h' b (hsame.live ▸ hlive) fun hb' => ?_)
  rcases hsub b hb' with hmem | hnone
  · exact hb hmem
  · rw [hnone] at hlive
    cases hlive

theorem Spares.mono
    (h : Spares bs k k') {bs' : List Ptr} (hsub : bs ⊆ bs') :
    Spares bs' k k' :=
  fun b hlive hb => h b hlive fun hmem => hb (hsub hmem)

theorem Refused.spares (h : Refused k k') : Spares [] k k' := by
  intro b _ _
  refine ⟨congrFun h.live b, ?_, ?_, ?_, fun _ _ _ _ _ => by rw [h.mem]⟩
  · rw [h.chunks]
  · rw [h.elfFiles]
  · rw [h.records]

theorem Allocated.spares
    {p : Ptr} {n : Nat} (h : Allocated k k' p n) :
    Spares [] k k' := by
  intro b hlive _
  have hne : b ≠ p := by
    rintro rfl
    rw [h.pool.fresh] at hlive
    cases hlive
  refine ⟨?_, ?_, ?_, ?_, ?_⟩
  · rw [h.pool.live, if_neg hne]
  · rw [h.chunks]
  · rw [h.elfFiles]
  · rw [h.records]
  · intro m page hm hpage hin
    exact h.mem page hpage ((h.pool.apart b m hm).symm.not_inBlock hin)

theorem kfree_spares (k : Kernel) (p : Ptr) : Spares [p] k (k.kfree p) := by
  intro b _ hb
  have hne : b ≠ p := fun heq => hb (heq ▸ List.mem_singleton_self p)
  exact ⟨if_neg hne, if_neg hne, if_neg hne, if_neg hne, fun _ _ _ _ _ => rfl⟩

theorem setRecord_spares
    (k : Kernel) (p : Ptr) (record : ProcessRecord) :
    Spares [p] k (k.setRecord p record) := by
  intro b _ hb
  have hne : b ≠ p := fun heq => hb (heq ▸ List.mem_singleton_self p)
  exact ⟨rfl, rfl, rfl, if_neg hne, fun _ _ _ _ _ => rfl⟩

theorem setElfFile_spares
    (k : Kernel) (p : Ptr) (elfFile : ElfFile) :
    Spares [p] k (k.setElfFile p elfFile) := by
  intro b _ hb
  have hne : b ≠ p := fun heq => hb (heq ▸ List.mem_singleton_self p)
  exact ⟨rfl, rfl, if_neg hne, rfl, fun _ _ _ _ _ => rfl⟩

theorem sched_spares
    (k : Kernel) (sched : Sched) :
    Spares [] k { k with sched := sched } :=
  fun _ _ _ => ⟨rfl, rfl, rfl, rfl, fun _ _ _ _ _ => rfl⟩

/-- Pages of blocks are written. -/
theorem mem_spares
    (hinv : k.pool.Inv) {mem : Pages}
    (hmem : ∀ page, PageAligned page →
      (∀ b ∈ bs, ∀ n, k.pool.live b = some n → ¬ InBlock b n page) → mem page = k.mem page) :
    Spares bs k { k with mem := mem } := by
  intro b _ hb
  refine ⟨rfl, rfl, rfl, rfl, fun n page hn hpage hin => hmem page hpage ?_⟩
  intro b' hb' n' hn'
  exact (hinv.apart b n b' n' hn hn' fun heq => hb (heq ▸ hb')).not_inBlock hin

/-- Bytes of a block are written. -/
theorem write_spares
    (hinv : k.pool.Inv) {p : Ptr} {n : Nat} (hp : k.pool.live p = some n) {m : Memory}
    (hm : ∀ addr, ¬ InBlock p n addr → m addr = k.mem.bytes addr) :
    Spares [p] k { k with mem := Pages.ofBytes m } :=
  mem_spares hinv fun _ hpage hout =>
    (hinv.placed p n hp).ofBytes hm hpage (hout p (List.mem_singleton_self p) n hp)

end Spares

/-- The call adds `bs`, and `os` of `fopen`, and leaves what there was alone. -/
structure Extends (k : Kernel) (bs os : List Ptr) (k' : Kernel) : Prop where
  holds : Holds k bs os k'
  spares : Spares [] k k'
  sched : k'.sched = k.sched

section Extends

variable {k k' k'' : Kernel} {bs os : List Ptr}

theorem Extends.refl (h : k.pool.Inv) : Extends k [] [] k :=
  ⟨Holds.refl h, Spares.refl [] k, rfl⟩

theorem Extends.trans
    {bs' os' : List Ptr} (h : Extends k bs os k') (h' : Extends k' bs' os' k'') :
    Extends k (bs' ++ bs) (os' ++ os) k'' where
  holds := h.holds.trans h'.holds
  spares := h.spares.trans h'.spares fun _ hb => absurd hb List.not_mem_nil
  sched := h'.sched.trans h.sched

theorem Extends.perm
    (h : Extends k bs os k') {bs' : List Ptr} (hperm : bs.Perm bs') :
    Extends k bs' os k' :=
  ⟨h.holds.perm hperm, h.spares, h.sched⟩

/-- A new block changes. -/
theorem Extends.change
    (h : Extends k bs os k') {p : Ptr} (hp : p ∈ bs) (hspares : Spares [p] k' k'')
    (hpool : k''.pool = k'.pool) (hlog : k''.log = k'.log) (hsched : k''.sched = k'.sched) :
    Extends k bs os k'' where
  holds := h.holds.congr hpool hlog
  spares := h.spares.trans hspares fun b hb => by
    rw [List.mem_singleton.mp hb]
    exact Or.inr (h.holds.grown.fresh p (List.mem_append_left os hp))
  sched := hsched.trans h.sched

theorem Extends.kfree
    {p : Ptr} (h : Extends k (p :: bs) os k') :
    Extends k bs os (k'.kfree p) where
  holds := h.holds.kfree
  spares := h.spares.trans (kfree_spares k' p) fun b hb => by
    rw [List.mem_singleton.mp hb]
    exact Or.inr (h.holds.grown.fresh p List.mem_cons_self)
  sched := h.sched

theorem extends_kzalloc
    (hinv : k.pool.Inv) {size : Word} (hsize : size ≠ 0) {p : Ptr}
    (h : k.kzalloc size = (p, k')) (hne : p ≠ 0) :
    Extends k [p] [] k' ∧ k'.pool.live p = some (pagesOf size) := by
  obtain ⟨rfl, rfl⟩ := Prod.ext_iff.mp h
  have hallocated := (kzallocFor_allocated hinv .taken hsize hne).1
  exact ⟨⟨(Holds.refl hinv).kzalloc hsize hne, hallocated.spares, hallocated.sched⟩,
    (hallocated.pool.live _).trans (if_pos rfl)⟩

theorem extends_opened
    (hinv : k.pool.Inv) {size : Word} (hsize : size ≠ 0) {p : Ptr}
    (h : k.kzallocFor .opened size = (p, k')) (hne : p ≠ 0) :
    Extends k [] [p] k' := by
  obtain ⟨rfl, rfl⟩ := Prod.ext_iff.mp h
  have hallocated := (kzallocFor_allocated hinv .opened hsize hne).1
  exact ⟨(Holds.refl hinv).opened hsize hne, hallocated.spares, hallocated.sched⟩

theorem kzalloc_refused
    {size : Word} (h : k.kzalloc size = (0, k')) :
    Refused k k' := by
  obtain ⟨h0, rfl⟩ := Prod.ext_iff.mp h
  exact kzallocFor_refused h0

end Extends

end Kernel

end PeachOS
