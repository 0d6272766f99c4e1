import PeachOS.Shell.Running

/-!
# The list of arguments

The list that `peachos_parse_command` builds in the memory of its process has
an argument for each token of the line, in their order.
-/

namespace PeachOS

open Lib

namespace Kernel

/-- The list of `struct command_argument` at an address: its nodes, and the
strings in them. -/
inductive CommandList (m : Memory) : Ptr → List Ptr → List (List Byte) → Prop
  | nil : CommandList m 0 [] []
  | cons {p : Ptr} {ps : List Ptr} {s : List Byte} {ss : List (List Byte)} (hne : p ≠ 0)
      (hargument : BytesAt m p (s ++ [0]))
      (hrest : CommandList m (load32 m (p + nextOffset)) ps ss) :
      CommandList m p (p :: ps) (s :: ss)

/-- What is kept of a token. -/
def cut (token : List Byte) : List Byte := token.take 511

/-- The bytes of a node. -/
def OnNode (p addr : Ptr) : Prop := (addr - p).toNat < 516

theorem onNode_next
    {p b : Ptr} (hb : (b - (p + nextOffset)).toNat < 4) :
    OnNode p b := by
  have hoffset : nextOffset.toNat = 512 := rfl
  rw [BitVec.toNat_sub, BitVec.toNat_add, hoffset] at hb
  rw [OnNode, BitVec.toNat_sub]
  omega

theorem CommandList.congr
    {m m' : Memory} {root : Ptr} {ps : List Ptr} {ss : List (List Byte)}
    (h : CommandList m root ps ss) (hss : ∀ s ∈ ss, s.length ≤ 511)
    (heq : ∀ p ∈ ps, ∀ addr, OnNode p addr → m' addr = m addr) :
    CommandList m' root ps ss := by
  induction h with
  | nil => exact CommandList.nil
  | @cons p ps s ss hne hargument _ ih =>
      have hnode := heq p List.mem_cons_self
      have hnext : load32 m' (p + nextOffset) = load32 m (p + nextOffset) :=
        load32_congr fun b hb => hnode b (onNode_next hb)
      refine CommandList.cons hne (hargument.congr fun b hb => hnode b ?_) ?_
      · have hlength := hss s List.mem_cons_self
        rw [List.length_append, List.length_singleton] at hb
        rw [OnNode]
        omega
      · rw [hnext]
        exact ih (fun s' hs' => hss s' (List.mem_cons_of_mem s hs'))
          fun q hq => heq q (List.mem_cons_of_mem p hq)

theorem length_cut_le (token : List Byte) : (cut token).length ≤ 511 := List.length_take_le 511 token

/-- What `peachos_parse_command` does for a token. -/
structure NewArgument (k : Kernel) (shell : Ptr) (f f' : Footprint) (token : List Byte) (p : Ptr)
    (k' : Kernel) : Prop where
  fresh : k.pool.live p = none
  live : k'.pool.live p = some 1
  perm : (allocated f'.record).Perm (p :: allocated f.record)
  argument : BytesAt k'.mem.bytes p (cut token ++ [0])
  next : load32 k'.mem.bytes (p + nextOffset) = 0
  spares : Spares (shell :: tablesOf k.mem f.directory) k k'
  tables : tablesOf k'.mem f'.directory = tablesOf k.mem f.directory
  pool : k'.pool = (k.pool.kmalloc sizeofCommandArgument).2
  sched : k'.sched = k.sched

section Build

variable {k₀ k : Kernel} {shell current : Ptr} {f : Footprint} {rest os : List Ptr}

theorem Running.peachosMalloc
    (h : Running k₀ shell f rest os k) {size : Word} (hsize : size ≠ 0)
    (hgranted : (k.pool.kmalloc size).1 ≠ 0)
    (hentry : (allocated f.record).length < maxProgramAllocations) :
    ∃ p k' f', k.peachosMalloc size = .ok (p, k') ∧ Running k₀ shell f' rest os k' ∧
      Malloced k shell f f' size p k' ∧ k'.pool = (k.pool.kmalloc size).2 := by
  obtain ⟨task, htask, hprocess, -⟩ := h.taskCurrent
  obtain ⟨p, k', f', hcall, hkeeps, hmalloced, hpool⟩ :=
    h.keeps.processMalloc_granted hsize hgranted hentry
  have hsame : f'.task = f.task := by
    obtain ⟨i, -, -, rfl⟩ := hmalloced.entry
    rfl
  refine ⟨p, k', f', ?_, ⟨hkeeps, h.maps.malloc h.keeps hkeeps hmalloced, ?_, ?_⟩, hmalloced, hpool⟩
  · rw [Kernel.peachosMalloc, htask, ok_bind, hprocess, hcall]
  · rw [hmalloced.sched, h.current, hsame]
  · rw [hmalloced.sched, hsame, h.processOf]

/-- There is no memory for a block of that size, or no entry. -/
def RefusesMalloc (k : Kernel) (f : Footprint) (size : Word) : Prop :=
  (k.pool.kmalloc size).1 = 0 ∨ maxProgramAllocations ≤ (allocated f.record).length

theorem Running.peachosMalloc_refused
    (h : Running k₀ shell f rest os k) {size : Word} (hsize : size ≠ 0)
    (hrefuses : RefusesMalloc k f size) :
    ∃ k', k.peachosMalloc size = .ok (0, k') ∧ Running k₀ shell f rest os k' ∧
      Spares [] k k' ∧ k'.sched = k.sched := by
  obtain ⟨task, htask, hprocess, -⟩ := h.taskCurrent
  obtain ⟨p, k', hcall⟩ := h.keeps.processMalloc_returns hsize
  have hmalloc : k.peachosMalloc size = .ok (p, k') := by
    rw [Kernel.peachosMalloc, htask, ok_bind, hprocess, hcall]
  rcases h.keeps.processMalloc hsize hcall with
    ⟨rfl, hkeeps, hspares, hsched⟩ | ⟨f', hkeeps, hmalloced⟩
  · have hlive (b : Ptr) (hb : b ∈ f.blocks shell k.mem) : SameBlock k k' b :=
      hspares b (h.keeps.holds.isSome (List.mem_append_left rest hb)) List.not_mem_nil
    refine ⟨k', hmalloc, ⟨hkeeps, ?_, ?_, ?_⟩, hspares, hsched⟩
    · refine h.maps.same h.keeps (fun b hb => hlive b ?_) fun q hq => (hlive q ?_).live
      · exact List.mem_append_right _ (List.mem_append_left _ hb)
      · exact List.mem_append_left _ hq
    · rw [hsched, h.current]
    · rw [hsched, h.processOf]
  · -- the block and the entry are there after all
    exfalso
    have hne : p ≠ 0 := (hkeeps.holds.inv.placed p _ hmalloced.live).ne_zero
    rcases hrefuses with hnone | hfull
    · refine hne ?_
      rw [Kernel.processMalloc] at hcall
      rcases hk : k.kzalloc size with ⟨ptr, k₁⟩
      have hptr : ptr = 0 := by
        rw [← hnone, ← kzallocFor_ptr k .taken, ← Kernel.kzalloc, hk]
      rw [hk] at hcall
      cases (if_pos hptr).symm.trans hcall
      rfl
    · have hlength := length_allocated_le f'.record
      rw [(hmalloced.perm hkeeps).length_eq, List.length_cons] at hlength
      omega

/-- `next` is set; the argument in front of it stays. -/
theorem Running.setNext
    (h : Running k₀ shell f rest os k) (hp : current ∈ allocated f.record)
    (hlive : k.pool.live current = some 1) (new : Ptr) :
    ∃ k', k.userStores (current + nextOffset) (wordBytes new) = .ok k' ∧
      Running k₀ shell f rest os k' ∧
      Wrote k f current (current + nextOffset) (wordBytes new) k' ∧
      load32 k'.mem.bytes (current + nextOffset) = new ∧
      ∀ addr, (addr - current).toNat < 512 → k'.mem.bytes addr = k.mem.bytes addr := by
  obtain ⟨k', hstores, hrunning, hwrote⟩ := @Running.wrote _ _ _ _ _ _ _ _ h hp hlive 512
    (wordBytes new) (List.cons_ne_nil _ _) (by rw [length_wordBytes]; decide)
  refine ⟨k', hstores, hrunning, hwrote, ?_, fun addr haddr => ?_⟩
  · rw [hwrote.bytes, ← store32_eq_storeBytes]
    exact load32_store32_same _ _ _
  · rw [hwrote.bytes]
    refine storeBytes_of_not_mem ?_
    rw [BitVec.toNat_sub] at haddr
    rw [length_wordBytes, BitVec.toNat_sub, BitVec.toNat_add, BitVec.toNat_ofNat]
    omega

theorem Running.newCommandArgument
    (h : Running k₀ shell f rest os k)
    (hgranted : (k.pool.kmalloc sizeofCommandArgument).1 ≠ 0)
    (hentry : (allocated f.record).length < maxProgramAllocations) (token : List Byte) :
    ∃ p k' f', k.newCommandArgument token = .ok (p, k') ∧ p ≠ 0 ∧
      Running k₀ shell f' rest os k' ∧ NewArgument k shell f f' token p k' := by
  obtain ⟨p, k₁, f', hmalloc, h₁, hmalloced, hpool⟩ := h.peachosMalloc (by decide) hgranted hentry
  have hlive : k₁.pool.live p = some 1 := hmalloced.live
  have hne := (h₁.placed hlive).ne_zero
  have hperm := hmalloced.perm h₁.keeps
  have hp : p ∈ allocated f'.record := hperm.mem_iff.mpr List.mem_cons_self
  have hcut : (cut token ++ [0]).length ≤ 512 := by
    have hle : (cut token).length ≤ 511 := length_cut_le token
    rw [List.length_append, List.length_singleton]
    omega
  obtain ⟨k₂, hstring, h₂, hwrote₂⟩ := @Running.wrote _ _ _ _ _ _ _ _ h₁ hp hlive 0
    (cut token ++ [0]) (List.append_ne_nil_of_right_ne_nil _ (List.cons_ne_nil 0 [])) (by omega)
  rw [BitVec.add_zero] at hstring hwrote₂
  obtain ⟨k₃, hnext, h₃, hwrote₃, hload, hbefore⟩ := h₂.setNext hp (hwrote₂.pool ▸ hlive) 0
  obtain ⟨hdirectory, hentries, -⟩ := hmalloced.tables h.keeps h₁.keeps
  refine ⟨p, k₃, f', ?_, hne, h₃, hmalloced.fresh, ?_, hperm, ?_, hload, ?_, ?_, ?_, ?_⟩
  · rw [Kernel.newCommandArgument, hmalloc, ok_bind]
    dsimp only
    rw [if_neg hne]
    change (k₁.userStores p (cut token ++ [0]) >>= _) = _
    rw [hstring, ok_bind, hnext]
    rfl
  · rw [hwrote₃.pool, hwrote₂.pool, hlive]
  · have hbytes : BytesAt k₂.mem.bytes p (cut token ++ [0]) := by
      rw [hwrote₂.bytes]
      exact bytesAt_storeBytes (by omega)
    exact hbytes.congr fun b hb => hbefore b (by omega)
  · refine hmalloced.spares.trans (hwrote₂.spares.trans hwrote₃.spares fun b hb => Or.inl hb) ?_
    intro b hb
    rw [List.mem_singleton.mp hb]
    exact Or.inr hmalloced.fresh
  · rw [hwrote₃.tables, hwrote₂.tables, tablesOf, tablesOf, hdirectory, tableAt_congr hentries]
  · rw [hwrote₃.pool, hwrote₂.pool, hpool]
  · rw [hwrote₃.sched, hwrote₂.sched, hmalloced.sched]

theorem Running.newCommandArgument_refused
    (h : Running k₀ shell f rest os k) (hrefuses : RefusesMalloc k f sizeofCommandArgument)
    (token : List Byte) :
    ∃ k', k.newCommandArgument token = .ok (0, k') ∧ Running k₀ shell f rest os k' ∧
      Spares [] k k' ∧ k'.sched = k.sched := by
  obtain ⟨k', hmalloc, hrunning, hspares, hsched⟩ := h.peachosMalloc_refused (by decide) hrefuses
  refine ⟨k', ?_, hrunning, hspares, hsched⟩
  rw [Kernel.newCommandArgument, hmalloc, ok_bind]
  exact if_pos rfl

/-- An allocation that is not the node keeps its bytes. -/
theorem Running.bytes_same
    {k' : Kernel} (h : Running k₀ shell f rest os k) {p : Ptr} (hp : p ∈ allocated f.record)
    (hlive : k.pool.live p = some 1) (hne : p ≠ current)
    (hspares : Spares (current :: shell :: tablesOf k.mem f.directory) k k') {addr : Ptr}
    (haddr : OnNode p addr) :
    k'.mem.bytes addr = k.mem.bytes addr := by
  rw [OnNode] at haddr
  exact hspares.bytes h.keeps.holds.inv hlive
    (List.not_mem_cons_of_ne_of_not_mem hne (h.keeps.allocated_out hp)) (by omega)

/-- A node for a token hangs behind the one at `current`. -/
structure ArgumentLinked (k : Kernel) (shell current : Ptr) (f : Footprint) (token : List Byte)
    (new : Ptr) (f' : Footprint) (k' : Kernel) : Prop where
  ne_zero : new ≠ 0
  fresh : k.pool.live new = none
  live : k'.pool.live new = some 1
  perm : (allocated f'.record).Perm (new :: allocated f.record)
  old : ∀ p ∈ allocated f.record, k'.pool.live p = k.pool.live p
  string : BytesAt k'.mem.bytes new (cut token ++ [0])
  zero : load32 k'.mem.bytes (new + nextOffset) = 0
  next : load32 k'.mem.bytes (current + nextOffset) = new
  argument : ∀ addr, (addr - current).toNat < 512 → k'.mem.bytes addr = k.mem.bytes addr
  spares : Spares (current :: shell :: tablesOf k.mem f.directory) k k'
  tables : tablesOf k'.mem f'.directory = tablesOf k.mem f.directory
  pool : k'.pool = (k.pool.kmalloc sizeofCommandArgument).2
  sched : k'.sched = k.sched

/-- A new node is hung behind the one at `current`. -/
theorem Running.linkNew
    {k₁ : Kernel} {f' : Footprint} {token : List Byte} {new : Ptr}
    (h : Running k₀ shell f rest os k) (hcurrent : current ∈ allocated f.record)
    (hlive : k.pool.live current = some 1) (h₁ : Running k₀ shell f' rest os k₁) (hne : new ≠ 0)
    (hnew : NewArgument k shell f f' token new k₁) :
    ∃ k', k₁.userStores (current + nextOffset) (wordBytes new) = .ok k' ∧
      Running k₀ shell f' rest os k' ∧ ArgumentLinked k shell current f token new f' k' := by
  have hold (p : Ptr) (hp : p ∈ allocated f.record) : k₁.pool.live p = k.pool.live p :=
    (hnew.spares p (h.isSome hp) (h.keeps.allocated_out hp)).live
  have hdiff : current ≠ new := Pool.ne_of_live hlive hnew.fresh
  have hcurrent' : current ∈ allocated f'.record :=
    hnew.perm.mem_iff.mpr (List.mem_cons_of_mem new hcurrent)
  obtain ⟨k', hstores, h', hwrote, hload, hbefore⟩ :=
    h₁.setNext hcurrent' ((hold current hcurrent).trans hlive) new
  have hkept {addr : Ptr} (haddr : OnNode new addr) : k'.mem.bytes addr = k₁.mem.bytes addr :=
    h₁.bytes_same (hnew.perm.mem_iff.mpr List.mem_cons_self) hnew.live hdiff.symm
      (hwrote.spares.mono (by simp)) haddr
  refine ⟨k', hstores, h', hne, hnew.fresh, hwrote.pool ▸ hnew.live, hnew.perm,
    fun p hp => hwrote.pool ▸ hold p hp, ?_, ?_, hload, ?_, ?_, hwrote.tables.trans hnew.tables,
    hwrote.pool.trans hnew.pool, hwrote.sched.trans hnew.sched⟩
  · refine hnew.argument.congr fun b hb => hkept ?_
    have hcut : (cut token).length ≤ 511 := length_cut_le token
    rw [List.length_append, List.length_singleton] at hb
    rw [OnNode]
    omega
  · rw [← hnew.next]
    exact load32_congr fun b hb => hkept (onNode_next hb)
  · intro addr haddr
    have hspares : Spares (new :: shell :: tablesOf k.mem f.directory) k k₁ :=
      hnew.spares.mono (by simp)
    rw [hbefore addr haddr, h.bytes_same hcurrent hlive hdiff hspares (by rw [OnNode]; omega)]
  · refine (hnew.spares.mono (List.subset_cons_self _ _)).trans hwrote.spares ?_
    exact fun b hb => Or.inl (by simp [List.mem_singleton.mp hb])

/-- What the loop does for one token. -/
theorem Running.linkArgument
    (h : Running k₀ shell f rest os k) (hcurrent : current ∈ allocated f.record)
    (hlive : k.pool.live current = some 1)
    (hgranted : (k.pool.kmalloc sizeofCommandArgument).1 ≠ 0)
    (hentry : (allocated f.record).length < maxProgramAllocations) (token : List Byte) :
    ∃ new k₁ f' k', k.newCommandArgument token = .ok (new, k₁) ∧
      k₁.userStores (current + nextOffset) (wordBytes new) = .ok k' ∧
      Running k₀ shell f' rest os k' ∧ ArgumentLinked k shell current f token new f' k' := by
  obtain ⟨new, k₁, f', hcall, hne, h₁, hnew⟩ := h.newCommandArgument hgranted hentry token
  obtain ⟨k', hstores, h', hlinked⟩ := h.linkNew hcurrent hlive h₁ hne hnew
  exact ⟨new, k₁, f', k', hcall, hstores, h', hlinked⟩

/-- The list that is built behind a node. -/
structure ArgumentsBuilt (k : Kernel) (shell current : Ptr) (f : Footprint)
    (toks : List (List Byte)) (b : Pool) (ps : List Ptr) (f' : Footprint) (k' : Kernel) :
    Prop where
  list : CommandList k'.mem.bytes (load32 k'.mem.bytes (current + nextOffset)) ps (toks.map cut)
  live : ∀ p ∈ ps, k'.pool.live p = some 1
  argument : ∀ addr, (addr - current).toNat < 512 → k'.mem.bytes addr = k.mem.bytes addr
  old : ∀ p ∈ allocated f.record, p ∈ allocated f'.record ∧ k'.pool.live p = k.pool.live p
  spares : Spares (current :: shell :: tablesOf k.mem f.directory) k k'
  pool : k'.pool = b
  sched : k'.sched = k.sched

/-- A node, and the list behind it. -/
theorem ArgumentLinked.cons
    {k₁ k' : Kernel} {f₁ f' : Footprint} {new : Ptr} {token : List Byte}
    {toks : List (List Byte)} {b : Pool} {ps : List Ptr}
    (h : ArgumentLinked k shell current f token new f₁ k₁) (hrunning : Running k₀ shell f₁ rest os k₁)
    (hcurrent : current ∈ allocated f.record) (hlive : k.pool.live current = some 1)
    (hbuilt : ArgumentsBuilt k₁ shell new f₁ toks b ps f' k') :
    ArgumentsBuilt k shell current f (token :: toks) b (new :: ps) f' k' := by
  have hmem (p : Ptr) (hp : p ∈ allocated f.record) : p ∈ allocated f₁.record :=
    h.perm.mem_iff.mpr (List.mem_cons_of_mem new hp)
  have hlive₁ := (h.old current hcurrent).trans hlive
  have hdiff : current ≠ new := Pool.ne_of_live hlive h.fresh
  have hafter {addr : Ptr} (haddr : OnNode current addr) : k'.mem.bytes addr = k₁.mem.bytes addr :=
    hrunning.bytes_same (hmem current hcurrent) hlive₁ hdiff hbuilt.spares haddr
  refine ⟨?_, fun p hp => ?_, fun addr haddr => ?_, fun p hp => ?_, ?_, hbuilt.pool,
    hbuilt.sched.trans h.sched⟩
  · have hnext : load32 k'.mem.bytes (current + nextOffset) = new := by
      rw [← h.next]
      exact load32_congr fun b hb => hafter (onNode_next hb)
    rw [List.map_cons, hnext]
    refine CommandList.cons h.ne_zero (h.string.congr fun b hb => hbuilt.argument b ?_) hbuilt.list
    have hcut : (cut token).length ≤ 511 := length_cut_le token
    rw [List.length_append, List.length_singleton] at hb
    omega
  · rcases List.mem_cons.mp hp with rfl | hp
    · rw [(hbuilt.old p (h.perm.mem_iff.mpr List.mem_cons_self)).2, h.live]
    · exact hbuilt.live p hp
  · rw [hafter (by rw [OnNode]; omega), h.argument addr haddr]
  · obtain ⟨hp', hlive'⟩ := hbuilt.old p (hmem p hp)
    exact ⟨hp', hlive'.trans (h.old p hp)⟩
  · have hspares := hbuilt.spares
    rw [h.tables] at hspares
    refine h.spares.trans hspares fun b hb => ?_
    rcases List.mem_cons.mp hb with rfl | hb
    · exact Or.inr h.fresh
    · exact Or.inl (List.mem_cons_of_mem current hb)

/-- Nothing is built when the next argument is refused. -/
theorem Running.argumentsBuilt_nil
    {k' : Kernel} (h : Running k₀ shell f rest os k) (hlive : k.pool.live current = some 1)
    (hend : load32 k.mem.bytes (current + nextOffset) = 0) (hspares : Spares [] k k')
    (hsched : k'.sched = k.sched) :
    ArgumentsBuilt k shell current f [] k'.pool [] f k' := by
  have hbytes {addr : Ptr} (haddr : OnNode current addr) : k'.mem.bytes addr = k.mem.bytes addr := by
    rw [OnNode] at haddr
    exact hspares.bytes h.keeps.holds.inv hlive List.not_mem_nil (by omega)
  refine ⟨?_, fun _ hp => absurd hp List.not_mem_nil, fun addr haddr => hbytes ?_,
    fun p hp => ⟨hp, (hspares p (h.isSome hp) List.not_mem_nil).live⟩,
    hspares.mono (List.nil_subset _), rfl, hsched⟩
  · rw [load32_congr fun b hb => hbytes (onNode_next hb), hend]
    exact CommandList.nil
  · rw [OnNode]
    omega

/-- How many tokens of a string have become arguments, and what is left of it. -/
structure TokensTaken (k : Kernel) (f : Footprint) (s : List Byte) (n : Nat) (f' : Footprint)
    (sp' : Option (List Byte)) (k' : Kernel) : Prop where
  count : (allocated f'.record).length = (allocated f.record).length + n
  whole : sp' = none ↔ n = (tokens s).length
  nothing : n = 0 ↔ tokens s = [] ∨ RefusesMalloc k f sizeofCommandArgument
  granted : ∀ b, Pool.Granted k.pool (List.replicate (tokens s).length sizeofCommandArgument) b →
    (allocated f.record).length + (tokens s).length ≤ maxProgramAllocations →
      n = (tokens s).length ∧ k'.pool = b

theorem tokensTaken_nil
    {s : List Byte} (h : tokens s = []) :
    TokensTaken k f s 0 f none k where
  count := (Nat.add_zero _).symm
  whole := iff_of_true rfl (by rw [h, List.length_nil])
  nothing := iff_of_true rfl (Or.inl h)
  granted := fun b hgranted _ => by
    rw [h, List.length_nil] at hgranted ⊢
    cases hgranted
    exact ⟨rfl, rfl⟩

theorem tokensTaken_refused
    {s token left : List Byte} {toks : List (List Byte)} {k' : Kernel}
    (htokens : tokens s = token :: toks) (h : RefusesMalloc k f sizeofCommandArgument) :
    TokensTaken k f s 0 f (some left) k' where
  count := (Nat.add_zero _).symm
  whole := iff_of_false (Option.some_ne_none left) (by rw [htokens]; exact Nat.zero_ne_add_one _)
  nothing := iff_of_true rfl (Or.inr h)
  granted := fun b hgranted hentries => by
    rw [htokens, List.length_cons] at hgranted hentries
    rw [List.replicate_succ] at hgranted
    cases hgranted with
    | cons hfirst _ =>
        rcases h with hnone | hfull
        · exact absurd hnone hfirst
        · omega

/-- One token, and those behind it. -/
theorem TokensTaken.cons
    {s s' token : List Byte} {n : Nat} {f₁ f' : Footprint} {k₁ k' : Kernel}
    {sp' : Option (List Byte)} (h : TokensTaken k₁ f₁ s' n f' sp' k')
    (htokens : tokens s = token :: tokens s')
    (hgives : ¬ RefusesMalloc k f sizeofCommandArgument)
    (hpool : k₁.pool = (k.pool.kmalloc sizeofCommandArgument).2)
    (hlength : (allocated f₁.record).length = (allocated f.record).length + 1) :
    TokensTaken k f s (n + 1) f' sp' k' where
  count := by rw [h.count, hlength, Nat.add_assoc, Nat.add_comm 1]
  whole := by
    rw [h.whole, htokens, List.length_cons]
    omega
  nothing := iff_of_false (Nat.succ_ne_zero n)
    (not_or.mpr ⟨by rw [htokens]; exact List.cons_ne_nil _ _, hgives⟩)
  granted := fun b hgranted hentries => by
    rw [htokens, List.length_cons] at hgranted hentries ⊢
    rw [List.replicate_succ] at hgranted
    cases hgranted with
    | cons _ hrest =>
        rw [← hpool] at hrest
        obtain ⟨hn, hb⟩ := h.granted b hrest (by omega)
        exact ⟨by rw [hn], hb⟩

/-- The loop goes on until a token or an argument is not there. -/
theorem Running.parseCommandLoop_outcome
    {s : List Byte} (h : Running k₀ shell f rest os k)
    (hcurrent : current ∈ allocated f.record) (hlive : k.pool.live current = some 1)
    (hend : load32 k.mem.bytes (current + nextOffset) = 0) :
    ∃ ps f' sp' k', k.parseCommandLoop current (some s) = .ok (sp', k') ∧
      Running k₀ shell f' rest os k' ∧ TokensTaken k f s ps.length f' sp' k' ∧
      ArgumentsBuilt k shell current f ((tokens s).take ps.length) k'.pool ps f' k' := by
  induction hn : s.length using Nat.strong_induction_on generalizing s k f current with
  | h n ih =>
      rcases strtok_spec none s with ⟨hnone, hstrtok⟩ | ⟨token, s', htokens, hne, -, hlength, hstrtok⟩
      · exact ⟨[], f, none, k, parseCommandLoop_none hstrtok, h, tokensTaken_nil hnone,
          h.argumentsBuilt_nil hlive hend (Spares.refl _ k) rfl⟩
      · have hpos := List.length_pos_of_ne_nil hne
        by_cases hrefuses : RefusesMalloc k f sizeofCommandArgument
        · obtain ⟨k', hcall, h', hspares, hsched⟩ := h.newCommandArgument_refused hrefuses token
          refine ⟨[], f, some s', k', ?_, h', tokensTaken_refused htokens hrefuses,
            h.argumentsBuilt_nil hlive hend hspares hsched⟩
          rw [parseCommandLoop_some hstrtok, hcall, ok_bind]
          exact if_pos rfl
        · obtain ⟨hfirst, hentry⟩ := not_or.mp hrefuses
          obtain ⟨new, k₁, f₂, k₂, hcall, hstores, h₂, hlinked⟩ :=
            h.linkArgument hcurrent hlive hfirst (by omega) token
          obtain ⟨ps, f', sp', k', hcall', h', htaken, hbuilt⟩ := ih s'.length (by omega) h₂
            (hlinked.perm.mem_iff.mpr List.mem_cons_self) hlinked.live hlinked.zero rfl
          have hlength₂ : (allocated f₂.record).length = (allocated f.record).length + 1 := by
            rw [hlinked.perm.length_eq, List.length_cons]
          refine ⟨new :: ps, f', sp', k', ?_, h', htaken.cons htokens hrefuses hlinked.pool hlength₂,
            ?_⟩
          · rw [parseCommandLoop_some hstrtok, hcall, ok_bind]
            dsimp only
            rw [if_neg hlinked.ne_zero, hstores, ok_bind, hcall']
          · rw [htokens, List.length_cons, List.take_succ_cons]
            exact hlinked.cons h₂ hcurrent hlive hbuilt

/-- The list for the tokens that there was memory for. -/
structure CommandBuilt (k : Kernel) (toks : List (List Byte)) (root : Ptr) (ps : List Ptr)
    (f' : Footprint) (k' : Kernel) : Prop where
  list : CommandList k'.mem.bytes root ps (toks.map cut)
  root_mem : root ≠ 0 → root ∈ allocated f'.record
  live : ∀ p ∈ ps, k'.pool.live p = some 1
  sched : k'.sched = k.sched

theorem commandBuilt_nil
    {k' : Kernel} (hsched : k'.sched = k.sched) :
    CommandBuilt k [] 0 [] f k' :=
  ⟨CommandList.nil, fun hne => absurd rfl hne, fun _ hp => absurd hp List.not_mem_nil, hsched⟩

/-- The root, and the list behind it. -/
theorem NewArgument.commandBuilt
    {k₁ k' : Kernel} {f₁ f' : Footprint} {root : Ptr} {ps : List Ptr} {token : List Byte}
    {toks : List (List Byte)} {b : Pool} (hnew : NewArgument k shell f f₁ token root k₁)
    (hroot : root ≠ 0) (hbuilt : ArgumentsBuilt k₁ shell root f₁ toks b ps f' k') :
    CommandBuilt k (token :: toks) root (root :: ps) f' k' := by
  have hmem : root ∈ allocated f₁.record := hnew.perm.mem_iff.mpr List.mem_cons_self
  refine ⟨?_, fun _ => (hbuilt.old root hmem).1, fun p hp => ?_, hbuilt.sched.trans hnew.sched⟩
  · rw [List.map_cons]
    refine CommandList.cons hroot (hnew.argument.congr fun b hb => hbuilt.argument b ?_)
      hbuilt.list
    have hcut : (cut token).length ≤ 511 := length_cut_le token
    rw [List.length_append, List.length_singleton] at hb
    omega
  · rcases List.mem_cons.mp hp with rfl | hp
    · rw [(hbuilt.old p hmem).2, hnew.live]
    · exact hbuilt.live p hp

/-- The string that the tokens of a call are taken from. -/
def parsedString (sp : Option (List Byte)) (command : List Byte) : List Byte :=
  sp.getD (strncpyString command 1025)

theorem strtok_parsedString
    (sp : Option (List Byte)) (command : List Byte) :
    strtok (some (strncpyString command 1025)) sp [space] =
      strtok none (some (parsedString sp command)) [space] := by
  cases sp with
  | none => rfl
  | some s => rfl

/-- Whatever `sp` points to and however much memory there is, the call returns. -/
theorem Running.peachosParseCommand_outcome
    (h : Running k₀ shell f rest os k) (sp : Option (List Byte)) (command : List Byte) {max : Int}
    (hmax : max < 1025) :
    ∃ root ps f' sp' k', k.peachosParseCommand sp command max = .ok (root, sp', k') ∧
      Running k₀ shell f' rest os k' ∧
      TokensTaken k f (parsedString sp command) ps.length f' sp' k' ∧
      CommandBuilt k ((tokens (parsedString sp command)).take ps.length) root ps f' k' := by
  have hstrtok := strtok_parsedString sp command
  rcases strtok_spec none (parsedString sp command) with
    ⟨hnone, hspec⟩ | ⟨token, s, htokens, -, -, -, hspec⟩
  · refine ⟨0, [], f, none, k, ?_, h, tokensTaken_nil hnone, commandBuilt_nil rfl⟩
    rw [Kernel.peachosParseCommand, if_neg (by omega)]
    dsimp only
    rw [hstrtok, hspec]
  · by_cases hrefuses : RefusesMalloc k f sizeofCommandArgument
    · obtain ⟨k', hcall, h', -, hsched⟩ := h.newCommandArgument_refused hrefuses token
      refine ⟨0, [], f, some s, k', ?_, h', tokensTaken_refused htokens hrefuses,
        commandBuilt_nil hsched⟩
      rw [Kernel.peachosParseCommand, if_neg (by omega)]
      dsimp only
      rw [hstrtok, hspec]
      dsimp only
      rw [hcall, ok_bind]
      exact if_pos rfl
    · obtain ⟨hfirst, hentry⟩ := not_or.mp hrefuses
      obtain ⟨root, k₁, f₁, hcall, hroot, h₁, hnew⟩ :=
        h.newCommandArgument hfirst (by omega) token
      have hmem : root ∈ allocated f₁.record := hnew.perm.mem_iff.mpr List.mem_cons_self
      obtain ⟨ps, f', sp', k', hloop, h', htaken, hbuilt⟩ :=
        h₁.parseCommandLoop_outcome hmem hnew.live hnew.next
      have hlength : (allocated f₁.record).length = (allocated f.record).length + 1 := by
        rw [hnew.perm.length_eq, List.length_cons]
      refine ⟨root, root :: ps, f', sp', k', ?_, h',
        htaken.cons htokens hrefuses hnew.pool hlength, ?_⟩
      · rw [Kernel.peachosParseCommand, if_neg (by omega)]
        dsimp only
        rw [hstrtok, hspec]
        dsimp only
        rw [hcall, ok_bind]
        dsimp only
        rw [if_neg hroot, hloop]
        rfl
      · rw [htokens, List.length_cons, List.take_succ_cons]
        exact hnew.commandBuilt hroot hbuilt

/-- The list that a command line becomes. -/
structure CommandParsed (line : List Byte) (b : Pool) (sched : Sched) (root : Ptr)
    (ps : List Ptr) (f' : Footprint) (k' : Kernel) : Prop where
  list : CommandList k'.mem.bytes root ps ((tokens line).map cut)
  root_mem : root ∈ allocated f'.record
  live : ∀ p ∈ ps, k'.pool.live p = some 1
  pool : k'.pool = b
  sched : k'.sched = sched

theorem Running.peachosParseCommand
    {line : List Byte} {b : Pool} (h : Running k₀ shell f rest os k) (hlength : line.length ≤ 1024)
    (hne : tokens line ≠ [])
    (hgranted : Pool.Granted k.pool
      (List.replicate (tokens line).length sizeofCommandArgument) b)
    (hentries : (allocated f.record).length + (tokens line).length ≤ maxProgramAllocations) :
    ∃ root ps f' k', k.peachosParseCommand none line 1024 = .ok (root, none, k') ∧ root ≠ 0 ∧
      Running k₀ shell f' rest os k' ∧ CommandParsed line b k.sched root ps f' k' := by
  obtain ⟨root, ps, f', sp', k', hcall, h', htaken, hbuilt⟩ :=
    h.peachosParseCommand_outcome none line (show (1024 : Int) < 1025 by decide)
  have hline : parsedString none line = line := List.take_of_length_le hlength
  rw [hline] at htaken hbuilt
  obtain ⟨hps, hpool⟩ := htaken.granted b hgranted hentries
  obtain rfl := htaken.whole.mpr hps
  have hlist := hbuilt.list
  rw [List.take_of_length_le (Nat.le_of_eq hps.symm)] at hlist
  have hroot : root ≠ 0 := by
    rintro rfl
    generalize hss : (tokens line).map cut = ss at hlist
    cases hlist with
    | nil => exact hne (List.map_eq_nil_iff.mp hss)
    | cons hne0 _ _ => exact hne0 rfl
  exact ⟨root, ps, f', k', hcall, hroot, h', hlist, hbuilt.root_mem hroot, hbuilt.live, hpool,
    hbuilt.sched⟩

end Build

end Kernel

end PeachOS
