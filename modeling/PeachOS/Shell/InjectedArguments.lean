import PeachOS.Shell.CommandList

/-!
# The arguments of a new process

`process_inject_arguments` walks the list of the shell and gives the new process
a copy of each string, and `argv` with their addresses.
-/

namespace PeachOS

open Lib

namespace Kernel

theorem CommandList.length_eq
    {m : Memory} {root : Ptr} {ps : List Ptr} {ss : List (List Byte)}
    (h : CommandList m root ps ss) :
    ps.length = ss.length := by
  induction h with
  | nil => rfl
  | cons _ _ _ ih => rw [List.length_cons, List.length_cons, ih]

/-- The walk counts the nodes. -/
theorem processCountCommandArguments_eq
    {m : Memory} {root : Ptr} {ps : List Ptr} {ss : List (List Byte)} {fuel : Nat}
    (h : CommandList m root ps ss) (hfuel : ps.length < fuel) :
    processCountCommandArguments m fuel root = .ok ps.length := by
  induction h generalizing fuel with
  | nil =>
      cases fuel with
      | zero => exact absurd hfuel (Nat.not_lt_zero _)
      | succ fuel => rfl
  | @cons p ps s ss hne _ _ ih =>
      rw [List.length_cons] at hfuel
      cases fuel with
      | zero => exact absurd hfuel (Nat.not_lt_zero _)
      | succ fuel =>
          rw [processCountCommandArguments, if_neg hne, ih (by omega)]
          rfl

section Write

variable {k₀ k : Kernel} {process argv current p : Ptr} {f : Footprint} {rest os : List Ptr}
  {n i : Nat} {s : List Byte}

/-- The string of one block is copied to another. -/
theorem strncpy_eq
    (hinv : k.pool.Inv) (hp : k.pool.live p = some 1) (hcurrent : k.pool.live current = some 1)
    (hne : p ≠ current) (hstring : BytesAt k.mem.bytes current (s ++ [0])) (hs : 0 ∉ s)
    (hlength : s.length ≤ 511) :
    strncpy k.mem.bytes p current sizeofArgument.toNat = storeBytes k.mem.bytes p (s ++ [0]) := by
  have hupper := (hinv.placed p 1 hp).upper
  have hupper' := (hinv.placed current 1 hcurrent).upper
  have hapart := hinv.apart p 1 current 1 hp hcurrent hne
  have htake : s.take 511 = s := List.take_of_length_le hlength
  unfold heapAddress heapSizeBytes pagingPageSize at hupper hupper'
  unfold Pool.Apart pagingPageSize at hapart
  have heq := @copyString_eq k.mem.bytes p current s 511 hstring hs (by omega) (by omega) (by omega)
  rwa [htake] at heq

/-- A string has been written to `p`, and `p` to the `i`-th word of `argv`. -/
structure ArgumentWritten (k : Kernel) (f : Footprint) (argv p : Ptr) (i : Nat) (s : List Byte)
    (k' : Kernel) : Prop where
  string : BytesAt k'.mem.bytes p (s ++ [0])
  word : load32 k'.mem.bytes (argv + BitVec.ofNat 32 (4 * i)) = p
  before : ∀ addr, (addr - argv).toNat < 4 * i → k'.mem.bytes addr = k.mem.bytes addr
  spares : Spares [p, argv] k k'
  tables : tablesOf k'.mem f.directory = tablesOf k.mem f.directory
  get : ∀ v, PageAligned v → pagingGet k'.mem f.directory v = pagingGet k.mem f.directory v
  pool : k'.pool = k.pool
  sched : k'.sched = k.sched

theorem Keeps.writeArgument
    (h : Keeps k₀ process f rest os k) (hmaps : MapsAllocations k f) (hp : p ∈ allocated f.record)
    (hplive : k.pool.live p = some 1) (hargv : argv ∈ allocated f.record)
    (hargvLive : k.pool.live argv = some n) (hne : argv ≠ p) (hroom : 4 * (i + 1) ≤ 4096 * n)
    (hlength : s.length ≤ 511) {k' : Kernel}
    (hk' : k' = { k with
      mem := Pages.ofBytes
        (store32 (storeBytes k.mem.bytes p (s ++ [0])) (argv + BitVec.ofNat 32 (4 * i)) p) }) :
    Keeps k₀ process f rest os k' ∧ MapsAllocations k' f ∧ ArgumentWritten k f argv p i s k' := by
  have hbytes : (s ++ [0]).length ≤ 512 := by
    rw [List.length_append, List.length_singleton]
    omega
  obtain ⟨k₁, hk₁⟩ : ∃ k₁, k₁ = { k with
      mem := Pages.ofBytes (storeBytes k.mem.bytes (p + BitVec.ofNat 32 0) (s ++ [0])) } :=
    ⟨_, rfl⟩
  obtain ⟨h₁, hmaps₁, hwrote₁⟩ := h.wrote hmaps hp hplive (by omega) hk₁
  rw [BitVec.add_zero] at hk₁ hwrote₁
  have hk'₁ : k' = { k₁ with
      mem := Pages.ofBytes
        (storeBytes k₁.mem.bytes (argv + BitVec.ofNat 32 (4 * i)) (wordBytes p)) } := by
    rw [hk', hwrote₁.bytes, hk₁, store32_eq_storeBytes]
  obtain ⟨h', hmaps', hwrote⟩ := h₁.wrote hmaps₁ hargv (hwrote₁.pool ▸ hargvLive)
    (by rw [length_wordBytes]; omega) hk'₁
  refine ⟨h', hmaps', ?_, ?_, fun addr haddr => ?_, ?_, hwrote.tables.trans hwrote₁.tables,
    fun v hv => (hwrote.get v hv).trans (hwrote₁.get v hv), hwrote.pool.trans hwrote₁.pool,
    hwrote.sched.trans hwrote₁.sched⟩
  · have hstored : BytesAt k₁.mem.bytes p (s ++ [0]) := by
      rw [hwrote₁.bytes]
      exact bytesAt_storeBytes (by omega)
    exact hstored.congr fun b hb => hwrote.spares.bytes h₁.holds.inv (hwrote₁.pool ▸ hplive)
      (fun hmem => hne (List.mem_singleton.mp hmem).symm) (by omega)
  · rw [hwrote.bytes, ← store32_eq_storeBytes]
    exact load32_store32_same _ _ _
  · rw [hwrote.bytes, storeBytes_of_not_mem]
    · exact hwrote₁.spares.bytes h.holds.inv hargvLive
        (fun hmem => hne (List.mem_singleton.mp hmem)) (by omega)
    · have hupper := (h.holds.inv.placed argv n hargvLive).upper
      unfold heapAddress heapSizeBytes pagingPageSize at hupper
      rw [BitVec.toNat_sub] at haddr
      rw [length_wordBytes, BitVec.toNat_sub, BitVec.toNat_add, BitVec.toNat_ofNat]
      omega
  · refine (hwrote₁.spares.mono (by simp)).trans hwrote.spares fun b hb => Or.inl ?_
    rw [List.mem_singleton.mp hb]
    exact List.mem_cons_of_mem p List.mem_cons_self

end Write

/-- What the loop does for the node at `current`. -/
structure ArgumentInjected (k : Kernel) (process argv current : Ptr) (f : Footprint) (i : Nat)
    (s : List Byte) (p : Ptr) (f' : Footprint) (k' : Kernel) : Prop where
  fresh : k.pool.live p = none
  live : k'.pool.live p = some 1
  perm : (allocated f'.record).Perm (p :: allocated f.record)
  old : ∀ q ∈ allocated f.record, k'.pool.live q = k.pool.live q
  same : ∃ allocations, f' = { f with record := { f.record with allocations := allocations } }
  string : BytesAt k'.mem.bytes p (s ++ [0])
  word : load32 k'.mem.bytes (argv + BitVec.ofNat 32 (4 * i)) = p
  before : ∀ addr, (addr - argv).toNat < 4 * i → k'.mem.bytes addr = k.mem.bytes addr
  spares : Spares (argv :: process :: tablesOf k.mem f.directory) k k'
  tables : tablesOf k'.mem f'.directory = tablesOf k.mem f.directory
  below : ∀ v, PageAligned v → v.toNat < heapAddress →
    pagingGet k'.mem f'.directory v = pagingGet k.mem f.directory v
  pool : k'.pool = (k.pool.kmalloc sizeofArgument).2
  sched : k'.sched = k.sched

section Inject

variable {k₀ k : Kernel} {process argv current : Ptr} {f : Footprint} {rest os : List Ptr}
  {n i : Nat} {s : List Byte}

/-- A copy of the string, and its address in `argv`. -/
theorem Keeps.injectArgument
    (h : Keeps k₀ process f rest os k) (hmaps : MapsAllocations k f)
    (hargv : argv ∈ allocated f.record) (hargvLive : k.pool.live argv = some n)
    (hroom : 4 * (i + 1) ≤ 4096 * n) (hstring : BytesAt k.mem.bytes current (s ++ [0]))
    (hlength : s.length ≤ 511) (hs : 0 ∉ s) (hlive : k.pool.live current = some 1)
    (hout : current ∉ argv :: process :: tablesOf k.mem f.directory)
    (hgranted : (k.pool.kmalloc sizeofArgument).1 ≠ 0)
    (hentry : (allocated f.record).length < maxProgramAllocations) :
    ∃ p k₁ f' k', k.processMalloc process sizeofArgument = .ok (p, k₁) ∧ p ≠ 0 ∧
      k' = { k₁ with
        mem := Pages.ofBytes
          (store32 (strncpy k₁.mem.bytes p current sizeofArgument.toNat)
            (argv + BitVec.ofNat 32 (4 * i)) p) } ∧
      Keeps k₀ process f' rest os k' ∧ MapsAllocations k' f' ∧
      ArgumentInjected k process argv current f i s p f' k' := by
  obtain ⟨p, k₁, f', hmalloc, h₁, hmalloced, hpool⟩ :=
    h.processMalloc_granted (by decide) hgranted hentry
  have hplive : k₁.pool.live p = some 1 := hmalloced.live
  have hperm := hmalloced.perm h₁
  have hargv₁ : argv ∈ allocated f'.record := hperm.mem_iff.mpr (List.mem_cons_of_mem p hargv)
  obtain ⟨hargvLive₁, hargvNe⟩ := hmalloced.old h hargv
  have hcurrentOut := List.not_mem_of_not_mem_cons hout
  have hlive₁ : k₁.pool.live current = some 1 :=
    (hmalloced.spares current (by rw [hlive]; rfl) hcurrentOut).live.trans hlive
  have hstring₁ : BytesAt k₁.mem.bytes current (s ++ [0]) :=
    hstring.congr fun b hb => hmalloced.spares.bytes h.holds.inv hlive hcurrentOut (by
      rw [List.length_append, List.length_singleton] at hb
      omega)
  have hcopy := strncpy_eq h₁.holds.inv hplive hlive₁ (Pool.ne_of_live hlive hmalloced.fresh).symm
    hstring₁ hs hlength
  obtain ⟨h', hmaps', hwritten⟩ := h₁.writeArgument (i := i) (hmaps.malloc h h₁ hmalloced)
    (hperm.mem_iff.mpr List.mem_cons_self) hplive hargv₁ (hargvLive₁.trans hargvLive) hargvNe hroom
    hlength rfl
  obtain ⟨hdirectory, hentries, hget⟩ := hmalloced.tables h h₁
  refine ⟨p, k₁, f', _, hmalloc, (h₁.holds.inv.placed p 1 hplive).ne_zero, by rw [hcopy], h', hmaps',
    hmalloced.fresh, hplive, hperm, fun q hq => (hmalloced.old h hq).1, ?_, hwritten.string,
    hwritten.word, fun addr haddr => ?_, ?_, ?_, fun v hv hlow => ?_, hpool, hmalloced.sched⟩
  · obtain ⟨j, -, -, heq⟩ := hmalloced.entry
    exact ⟨_, heq⟩
  · rw [hwritten.before addr haddr]
    exact hmalloced.spares.bytes h.holds.inv hargvLive (h.allocated_out hargv) (by omega)
  · refine (hmalloced.spares.mono (List.subset_cons_self _ _)).trans hwritten.spares fun b hb => ?_
    rcases List.mem_cons.mp hb with rfl | hb
    · exact Or.inr hmalloced.fresh
    · rw [List.mem_singleton.mp hb]
      exact Or.inl List.mem_cons_self
  · rw [hwritten.tables, tablesOf, tablesOf, hdirectory, tableAt_congr hentries]
  · have hlower := (h₁.holds.inv.placed p 1 hplive).lower
    rw [hwritten.get v hv, hdirectory]
    exact (hget v hv).2 fun hin => absurd hin.1 (by omega)

/-- A string in an allocation. -/
def HasString (k : Kernel) (f : Footprint) (arg : Ptr) (s : List Byte) : Prop :=
  arg ∈ allocated f.record ∧ k.pool.live arg = some 1 ∧ s.length ≤ 511 ∧
    BytesAt k.mem.bytes arg (s ++ [0])

/-- The strings that a process has been given, and where `argv` says they are. -/
structure ArgumentsInjected (k : Kernel) (process argv : Ptr) (f : Footprint) (i : Nat)
    (ss : List (List Byte)) (args : List Ptr) (f' : Footprint) (k' : Kernel) : Prop where
  words : ∀ j arg, args[j]? = some arg →
    load32 k'.mem.bytes (argv + BitVec.ofNat 32 (4 * (i + j))) = arg
  strings : List.Forall₂ (HasString k' f') args ss
  before : ∀ addr, (addr - argv).toNat < 4 * i → k'.mem.bytes addr = k.mem.bytes addr
  old : ∀ p ∈ allocated f.record, p ∈ allocated f'.record ∧ k'.pool.live p = k.pool.live p
  same : ∃ allocations, f' = { f with record := { f.record with allocations := allocations } }
  spares : Spares (argv :: process :: tablesOf k.mem f.directory) k k'
  below : ∀ v, PageAligned v → v.toNat < heapAddress →
    pagingGet k'.mem f'.directory v = pagingGet k.mem f.directory v
  sched : k'.sched = k.sched

/-- One string, and those behind it. -/
theorem ArgumentInjected.cons
    {k₁ k' : Kernel} {f₁ f' : Footprint} {arg : Ptr} {args : List Ptr} {ss : List (List Byte)}
    (h : ArgumentInjected k process argv current f i s arg f₁ k₁)
    (hkeeps : Keeps k₀ process f rest os k) (hkeeps₁ : Keeps k₀ process f₁ rest os k₁)
    (hargvLive : k.pool.live argv = some n) (hlength : s.length ≤ 511)
    (hall : ArgumentsInjected k₁ process argv f₁ (i + 1) ss args f' k') :
    ArgumentsInjected k process argv f i (s :: ss) (arg :: args) f' k' := by
  have hargMem : arg ∈ allocated f₁.record := h.perm.mem_iff.mpr List.mem_cons_self
  have hargNe : arg ≠ argv := (Pool.ne_of_live hargvLive h.fresh).symm
  refine ⟨fun j a hj => ?_, List.Forall₂.cons ⟨(hall.old arg hargMem).1, ?_, hlength, ?_⟩
    hall.strings, fun addr haddr => ?_, fun q hq => ?_, ?_, ?_, fun v hv hlow => ?_,
    hall.sched.trans h.sched⟩
  · cases j with
    | zero =>
        cases hj
        have hupper := (hkeeps.holds.inv.placed argv n hargvLive).upper
        unfold heapAddress heapSizeBytes pagingPageSize at hupper
        rw [Nat.add_zero, ← h.word]
        refine load32_congr fun b hb => hall.before b ?_
        rw [BitVec.toNat_sub, BitVec.toNat_add, BitVec.toNat_ofNat] at hb
        rw [BitVec.toNat_sub]
        omega
    | succ j =>
        rw [show i + (j + 1) = i + 1 + j by omega]
        exact hall.words j a hj
  · rw [(hall.old arg hargMem).2, h.live]
  · refine h.string.congr fun b hb => ?_
    rw [List.length_append, List.length_singleton] at hb
    exact hall.spares.bytes hkeeps₁.holds.inv h.live
      (List.not_mem_cons_of_ne_of_not_mem hargNe (hkeeps₁.allocated_out hargMem)) (by omega)
  · rw [hall.before addr (by omega), h.before addr haddr]
  · obtain ⟨hq', hlive'⟩ := hall.old q (h.perm.mem_iff.mpr (List.mem_cons_of_mem arg hq))
    exact ⟨hq', hlive'.trans (h.old q hq)⟩
  · obtain ⟨a₁, rfl⟩ := h.same
    obtain ⟨a₂, rfl⟩ := hall.same
    exact ⟨a₂, rfl⟩
  · have hspares := hall.spares
    rw [h.tables] at hspares
    exact h.spares.trans hspares fun q hq => Or.inl hq
  · exact (hall.below v hv hlow).trans (h.below v hv hlow)

/-- The list is as it was when its nodes are spared. -/
theorem Spares.commandList
    {k' : Kernel} {bs ps : List Ptr} {root : Ptr} {ss : List (List Byte)} (h : Spares bs k k')
    (hinv : k.pool.Inv) (hlist : CommandList k.mem.bytes root ps ss)
    (hss : ∀ s ∈ ss, s.length ≤ 511) (hnodes : ∀ p ∈ ps, k.pool.live p = some 1 ∧ p ∉ bs) :
    CommandList k'.mem.bytes root ps ss ∧ ∀ p ∈ ps, k'.pool.live p = some 1 := by
  refine ⟨hlist.congr hss fun p hp addr haddr => ?_, fun p hp => ?_⟩
  · rw [OnNode] at haddr
    exact h.bytes hinv (hnodes p hp).1 (hnodes p hp).2 (by omega)
  · obtain ⟨hlive, hout⟩ := hnodes p hp
    rw [(h p (by rw [hlive]; rfl) hout).live, hlive]

/-- The pass of the loop for one argument. -/
theorem injectCommandArguments_succ
    {p arg : Ptr} {k₁ k₂ : Kernel} (hne : p ≠ 0) (harg : arg ≠ 0)
    (hmalloc : k.processMalloc process sizeofArgument = .ok (arg, k₁))
    (hk₂ : k₂ = { k₁ with
      mem := Pages.ofBytes (store32 (strncpy k₁.mem.bytes arg p sizeofArgument.toNat)
        (argv + BitVec.ofNat 32 (4 * i)) arg) })
    (fuel : Nat) :
    Kernel.injectCommandArguments process argv (fuel + 1) k p i =
      Kernel.injectCommandArguments process argv fuel k₂ (load32 k₂.mem.bytes (p + nextOffset))
        (i + 1) := by
  rw [Kernel.injectCommandArguments, if_neg hne, hmalloc, ok_bind]
  dsimp only
  rw [if_neg harg]
  have hm : store32 (strncpy k₁.mem.bytes arg p sizeofArgument.toNat)
      (argv + BitVec.ofNat 32 (4 * i)) arg = k₂.mem.bytes := by
    rw [hk₂, Pages.bytes_ofBytes]
  rw [hm] at hk₂ ⊢
  rw [← hk₂]

theorem Keeps.injectCommandArguments
    {ps : List Ptr} {ss : List (List Byte)} {b : Pool} {fuel : Nat}
    (h : Keeps k₀ process f rest os k) (hmaps : MapsAllocations k f)
    (hargv : argv ∈ allocated f.record) (hargvLive : k.pool.live argv = some n)
    (hroom : 4 * (i + ps.length) ≤ 4096 * n) (hlist : CommandList k.mem.bytes current ps ss)
    (hss : ∀ s ∈ ss, s.length ≤ 511 ∧ 0 ∉ s)
    (hnodes : ∀ p ∈ ps, k.pool.live p = some 1 ∧
      p ∉ argv :: process :: tablesOf k.mem f.directory)
    (hgranted : Pool.Granted k.pool (List.replicate ps.length sizeofArgument) b)
    (hentries : (allocated f.record).length + ps.length ≤ maxProgramAllocations)
    (hfuel : ps.length < fuel) :
    ∃ args f' k', Kernel.injectCommandArguments process argv fuel k current i = .ok (0, k') ∧
      Keeps k₀ process f' rest os k' ∧ MapsAllocations k' f' ∧
      ArgumentsInjected k process argv f i ss args f' k' := by
  induction ps generalizing k f current i ss fuel with
  | nil =>
      cases hlist
      cases fuel with
      | zero => exact absurd hfuel (Nat.not_lt_zero _)
      | succ fuel =>
          refine ⟨[], f, k, rfl, h, hmaps, ?_⟩
          exact ⟨fun j arg hj => (by cases hj), List.Forall₂.nil, fun _ _ => rfl,
            fun p hp => ⟨hp, rfl⟩, ⟨_, rfl⟩, Spares.refl _ k, fun _ _ _ => rfl, rfl⟩
  | cons p ps ih =>
      rw [List.length_cons] at hroom hgranted hentries hfuel
      rw [List.replicate_succ] at hgranted
      cases fuel with
      | zero => exact absurd hfuel (Nat.not_lt_zero _)
      | succ fuel =>
          cases hlist with
          | @cons _ _ s ss hne hargument hrest =>
              cases hgranted with
              | cons hfirst hgranted =>
                  obtain ⟨hlive, hout⟩ := hnodes p List.mem_cons_self
                  obtain ⟨hlength, hs⟩ := hss s List.mem_cons_self
                  obtain ⟨arg, k₁, f₁, k₂, hmalloc, harg, hk₂, h₂, hmaps₂, hone⟩ :=
                    h.injectArgument (i := i) hmaps hargv hargvLive (by omega) hargument hlength hs
                      hlive hout hfirst (by omega)
                  have hnext : load32 k₂.mem.bytes (p + nextOffset) =
                      load32 k.mem.bytes (p + nextOffset) := load32_congr fun b hb => by
                    have hnode := onNode_next hb
                    rw [OnNode] at hnode
                    exact hone.spares.bytes h.holds.inv hlive hout (by omega)
                  obtain ⟨hrest₂, hlive₂⟩ := hone.spares.commandList h.holds.inv hrest
                    (fun s' hs' => (hss s' (List.mem_cons_of_mem s hs')).1)
                    fun q hq => hnodes q (List.mem_cons_of_mem p hq)
                  rw [← hnext] at hrest₂
                  obtain ⟨args, f', k', hcall, h', hmaps', hall⟩ := @ih k₂ _ f₁ (i + 1) ss fuel h₂
                    hmaps₂ (hone.perm.mem_iff.mpr (List.mem_cons_of_mem arg hargv))
                    ((hone.old argv hargv).trans hargvLive) (by omega) hrest₂
                    (fun s' hs' => hss s' (List.mem_cons_of_mem s hs'))
                    (fun q hq => ⟨hlive₂ q hq, by
                      rw [hone.tables]
                      exact (hnodes q (List.mem_cons_of_mem p hq)).2⟩)
                    (hone.pool ▸ hgranted)
                    (by rw [hone.perm.length_eq, List.length_cons]; omega) (by omega)
                  refine ⟨arg :: args, f', k', ?_, h', hmaps', hone.cons h h₂ hargvLive hlength hall⟩
                  exact (injectCommandArguments_succ hne harg hmalloc hk₂ fuel).trans hcall

/-- The record has `argc` and `argv`, and `argv` the addresses of the strings. -/
structure HasArguments (k : Kernel) (f : Footprint) (ss : List (List Byte)) (args : List Ptr) :
    Prop where
  argc : f.record.argc = BitVec.ofNat 32 ss.length
  argv : f.record.argv ∈ allocated f.record ∧
    ∃ n, k.pool.live f.record.argv = some n ∧ 4 * ss.length ≤ 4096 * n
  words : ∀ j arg, args[j]? = some arg →
    load32 k.mem.bytes (f.record.argv + BitVec.ofNat 32 (4 * j)) = arg
  strings : List.Forall₂ (HasString k f) args ss

/-- What `process_inject_arguments` gives a process. -/
structure ArgumentsGiven (k : Kernel) (f : Footprint) (ss : List (List Byte)) (args : List Ptr)
    (f' : Footprint) (k' : Kernel) : Prop where
  arguments : HasArguments k' f' ss args
  same : ∃ record, f' = { f with record := record } ∧ record.stack = f.record.stack
  below : ∀ v, PageAligned v → v.toNat < heapAddress →
    pagingGet k'.mem f'.directory v = pagingGet k.mem f.directory v
  sched : k'.sched = k.sched

/-- The block of `argv` has room for the addresses of all arguments. -/
theorem argvSize_spec
    {n : Nat} (hpos : 0 < n) (hle : n ≤ maxProgramAllocations) :
    BitVec.ofNat 32 (4 * n) ≠ 0 ∧ 4 * n ≤ 4096 * pagesOf (BitVec.ofNat 32 (4 * n)) := by
  have hnat : (BitVec.ofNat 32 (4 * n)).toNat = 4 * n := by
    unfold maxProgramAllocations at hle
    rw [BitVec.toNat_ofNat]
    omega
  refine ⟨fun heq => ?_, ?_⟩
  · rw [heq] at hnat
    have h0 : (0 : Word).toNat = 0 := rfl
    omega
  · rw [pagesOf, hnat, pagingPageSize]
    omega

/-- The list is as it was once `argv` has been allocated, and apart from it. -/
theorem Malloced.commandList
    {f' : Footprint} {k' : Kernel} {root argv : Ptr} {ps : List Ptr} {ss : List (List Byte)}
    {size : Word} (hmalloced : Malloced k process f f' size argv k')
    (h : Keeps k₀ process f rest os k) (h' : Keeps k₀ process f' rest os k')
    (hlist : CommandList k.mem.bytes root ps ss) (hss : ∀ s ∈ ss, s.length ≤ 511)
    (hnodes : ∀ p ∈ ps, k.pool.live p = some 1 ∧ p ∉ process :: tablesOf k.mem f.directory) :
    CommandList k'.mem.bytes root ps ss ∧ ∀ q ∈ ps, k'.pool.live q = some 1 ∧
      q ∉ argv :: process :: tablesOf k'.mem f'.directory := by
  obtain ⟨hdirectory, hentries, -⟩ := hmalloced.tables h h'
  have htables : tablesOf k'.mem f'.directory = tablesOf k.mem f.directory := by
    rw [tablesOf, tablesOf, hdirectory, tableAt_congr hentries]
  obtain ⟨hlist', hlive'⟩ := hmalloced.spares.commandList h.holds.inv hlist hss hnodes
  refine ⟨hlist', fun q hq => ?_⟩
  obtain ⟨hlive, hout⟩ := hnodes q hq
  rw [htables]
  exact ⟨hlive' q hq, List.not_mem_cons_of_ne_of_not_mem
    (Pool.ne_of_live hlive hmalloced.fresh) hout⟩

theorem Keeps.processInjectCommandArguments
    {root : Ptr} {ps : List Ptr} {ss : List (List Byte)} {b : Pool} {fuel : Nat}
    (h : Keeps k₀ process f rest os k) (hmaps : MapsAllocations k f)
    (hlist : CommandList k.mem.bytes root ps ss) (hne : ss ≠ [])
    (hss : ∀ s ∈ ss, s.length ≤ 511 ∧ 0 ∉ s)
    (hnodes : ∀ p ∈ ps, k.pool.live p = some 1 ∧ p ∉ process :: tablesOf k.mem f.directory)
    (hgranted : Pool.Granted k.pool
      (BitVec.ofNat 32 (4 * ss.length) :: List.replicate ss.length sizeofArgument) b)
    (hentries : (allocated f.record).length + (ss.length + 1) ≤ maxProgramAllocations)
    (hfuel : ss.length < fuel) :
    ∃ args f' k', Kernel.processInjectCommandArguments fuel k process root = .ok (0, k') ∧
      Keeps k₀ process f' rest os k' ∧ MapsAllocations k' f' ∧
      ArgumentsGiven k f ss args f' k' := by
  have hcount := hlist.length_eq
  have hpos := List.length_pos_of_ne_nil hne
  obtain ⟨hsize, hroom⟩ := argvSize_spec hpos (by omega)
  cases hgranted with
  | cons hfirst hgranted =>
      obtain ⟨argv, k₁, f₁, hmalloc, h₁, hmalloced, hpool⟩ :=
        h.processMalloc_granted hsize hfirst (by omega)
      have hperm := hmalloced.perm h₁
      have hargv : argv ∈ allocated f₁.record := hperm.mem_iff.mpr List.mem_cons_self
      have hplaced := h₁.holds.inv.placed argv _ hmalloced.live
      obtain ⟨hdirectory, -, hget⟩ := hmalloced.tables h h₁
      obtain ⟨hlist₁, hnodes₁⟩ := hmalloced.commandList h h₁ hlist (fun s hs => (hss s hs).1) hnodes
      rw [← hpool, ← hcount] at hgranted
      obtain ⟨args, f₂, k₂, hloop, h₂, hmaps₂, hall⟩ :=
        h₁.injectCommandArguments (i := 0) (hmaps.malloc h h₁ hmalloced) hargv hmalloced.live
          (by omega) hlist₁ hss hnodes₁ hgranted
          (by rw [hperm.length_eq, List.length_cons]; omega) (show ps.length < fuel by omega)
      obtain ⟨hargv₂, hlive₂⟩ := hall.old argv hargv
      refine ⟨args, _, _, ?_, h₂.setArguments (BitVec.ofNat 32 ss.length) argv,
        ⟨hmaps₂.entry, hmaps₂.allocation⟩,
        ⟨rfl, ⟨hargv₂, _, hlive₂.trans hmalloced.live, hroom⟩, ?_, hall.strings⟩, ?_, ?_,
        hall.sched.trans hmalloced.sched⟩
      · have hwalk := @processCountCommandArguments_eq _ _ _ _ fuel hlist (by omega)
        rw [Kernel.processInjectCommandArguments, hwalk, ok_bind, hcount]
        dsimp only
        rw [if_neg (by omega), hmalloc, ok_bind]
        dsimp only
        rw [if_neg hplaced.ne_zero, hloop, ok_bind]
        dsimp only
        rw [if_neg (by decide), follow_of_some h₂.process_ne_zero h₂.owns.recorded]
        rfl
      · intro j arg hj
        have hword := hall.words j arg hj
        rwa [Nat.zero_add] at hword
      · obtain ⟨i, -, -, rfl⟩ := hmalloced.entry
        obtain ⟨allocations, rfl⟩ := hall.same
        exact ⟨_, rfl, rfl⟩
      · intro v hv hlow
        have hlower := hplaced.lower
        refine (hall.below v hv hlow).trans ?_
        rw [hdirectory]
        exact (hget v hv).2 fun hin => absurd hin.1 (by omega)

end Inject

end Kernel

end PeachOS
