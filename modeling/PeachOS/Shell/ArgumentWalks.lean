import PeachOS.Lib.Loop
import PeachOS.Shell.CommandLine
import PeachOS.Task.Allocations
import PeachOS.Task.Holdings

/-!
# The walks through a list of arguments

`process_count_command_arguments` follows the pointers of the list until it comes
to a null pointer.  The loop that copies the arguments follows them as well, but each
of its rounds takes an entry of the allocations of the process.
-/

namespace PeachOS

open Lib

namespace Kernel

/-- A round of the loop of `process_count_command_arguments`. -/
def countRound (m : Memory) : Ptr × Nat → Nat ⊕ (Ptr × Nat)
  | (current, i) =>
      if current = 0 then .inl i else .inr (load32 m (current + nextOffset), i + 1)

/-- A round of the loop of `process_inject_arguments`. -/
def copyRound (process argv : Ptr) :
    Kernel × Ptr × Nat → Except Halt (Int × Kernel) ⊕ (Kernel × Ptr × Nat)
  | (k, current, i) =>
      if current = 0 then
        .inl (.ok (0, k))
      else
        match k.processMalloc process sizeofArgument with
        | .error halt => .inl (.error halt)
        | .ok (argumentStr, k) =>
            if argumentStr = 0 then
              .inl (.ok (-enomem, k))
            else
              let m := strncpy k.mem.bytes argumentStr current sizeofArgument.toNat
              let m := store32 m (argv + BitVec.ofNat 32 (4 * i)) argumentStr
              .inr ({ k with mem := Pages.ofBytes m }, load32 m (current + nextOffset), i + 1)

/-- A round of a walk that only follows the pointers. -/
def nextRound (m : Memory) (current : Ptr) : Unit ⊕ Ptr :=
  if current = 0 then .inl () else .inr (load32 m (current + nextOffset))

theorem countRound_null
    (m : Memory) (i : Nat) :
    countRound m (0, i) = .inl i := by
  rw [countRound, if_pos rfl]

theorem countRound_next
    (m : Memory) {current : Ptr} (h : current ≠ 0) (i : Nat) :
    countRound m (current, i) = .inr (load32 m (current + nextOffset), i + 1) := by
  rw [countRound, if_neg h]

/-- With as much fuel as the loop has rounds the count is what it ends with. -/
theorem processCountCommandArguments_of_rounds
    {m : Memory} {current : Ptr} {i n total : Nat}
    (h : rounds (countRound m) n (current, i) = .inl total) :
    ∃ count, total = i + count ∧ ∀ fuel ≥ n,
      processCountCommandArguments m fuel current = .ok count := by
  induction n generalizing current i with
  | zero => cases h
  | succ n ih =>
      by_cases hnull : current = 0
      · rw [hnull, rounds_succ_of_inl (countRound_null m i)] at h
        obtain rfl := Sum.inl.inj h
        refine ⟨0, rfl, fun fuel hfuel => ?_⟩
        obtain ⟨f, rfl⟩ := Nat.exists_eq_add_of_le' (Nat.le_trans (Nat.succ_pos n) hfuel)
        rw [processCountCommandArguments, if_pos hnull]
      · rw [rounds_succ_of_inr (countRound_next m hnull i)] at h
        obtain ⟨count, rfl, hcount⟩ := ih h
        refine ⟨count + 1, by omega, fun fuel hfuel => ?_⟩
        obtain ⟨f, rfl⟩ := Nat.exists_eq_add_of_le' (Nat.le_trans (Nat.succ_pos n) hfuel)
        rw [processCountCommandArguments, if_neg hnull, hcount f (by omega)]
        rfl

/-- With as much fuel as the loop has rounds the copy ends as it does. -/
theorem injectCommandArguments_of_rounds
    {process argv current : Ptr} {k : Kernel} {i n : Nat} {out : Except Halt (Int × Kernel)}
    (h : rounds (copyRound process argv) n (k, current, i) = .inl out) :
    ∀ fuel ≥ n, injectCommandArguments process argv fuel k current i = out := by
  induction n generalizing k current i with
  | zero => cases h
  | succ n ih =>
      intro fuel hfuel
      obtain ⟨f, rfl⟩ := Nat.exists_eq_add_of_le' (Nat.le_trans (Nat.succ_pos n) hfuel)
      rw [rounds, copyRound] at h
      rw [injectCommandArguments]
      by_cases hnull : current = 0
      · rw [if_pos hnull] at h ⊢
        exact Sum.inl.inj h
      · rw [if_neg hnull] at h ⊢
        cases hmalloc : k.processMalloc process sizeofArgument with
        | error halt =>
            rw [hmalloc] at h
            exact Sum.inl.inj h
        | ok out =>
            obtain ⟨argumentStr, k'⟩ := out
            rw [hmalloc] at h
            rw [ok_bind]
            dsimp only at h ⊢
            by_cases hstr : argumentStr = 0
            · rw [if_pos hstr] at h ⊢
              exact Sum.inl.inj h
            · rw [if_neg hstr] at h ⊢
              exact ih h f (by omega)

/-- The free entries among the allocations of a process. -/
def freeAllocations (k : Kernel) (process : Ptr) : Nat :=
  match k.records process with
  | some record => maxProgramAllocations - (allocated record).length
  | none => 0

theorem records_kzalloc
    (k : Kernel) (size : Word) :
    (k.kzalloc size).2.records = k.records := by
  rw [kzalloc, kzallocFor]
  dsimp only
  split_ifs <;> rfl

/-- An allocation that succeeds uses one of the free entries. -/
theorem freeAllocations_processMalloc
    {k k' : Kernel} {process ptr : Ptr} {size : Word}
    (h : k.processMalloc process size = .ok (ptr, k')) (h0 : ptr ≠ 0) :
    k'.freeAllocations process < k.freeAllocations process := by
  rw [processMalloc] at h
  rcases hk : k.kzalloc size with ⟨p, k₁⟩
  rw [hk] at h
  dsimp only at h
  split_ifs at h with hp
  · cases h
    exact absurd rfl h0
  · obtain ⟨record, hfollow, h⟩ := bind_eq_ok_iff.mp h
    have hrecords : k₁.records = k.records := by rw [← records_kzalloc k size, hk]
    have hrecord := (follow_inv hfollow).2
    rw [hrecords] at hrecord
    cases hindex : processFindFreeAllocationIndex record with
    | none =>
        rw [hindex] at h
        cases h
        exact absurd rfl h0
    | some index =>
        obtain ⟨hi, hfree⟩ := processFindFreeAllocationIndex_some hindex
        rw [hindex] at h
        obtain ⟨directory, -, h⟩ := bind_eq_ok_iff.mp h
        have hlength := (allocated_use hi hfree hp size).length_eq
        have hle := length_allocated_le { record with
          allocations := fun j => if j = index then ⟨p, size⟩ else record.allocations j }
        rw [hlength, List.length_cons] at hle
        cases h
        rw [freeAllocations, freeAllocations, hrecord, setRecord]
        dsimp only
        rw [if_pos rfl]
        dsimp only
        rw [hlength, List.length_cons]
        omega

/-- The copy of the arguments ends, whatever the list is. -/
theorem copyRound_terminates
    (process argv : Ptr) (s : Kernel × Ptr × Nat) :
    Terminates (copyRound process argv) s := by
  refine terminates_of_measure (fun s => s.1.freeAllocations process) ?_ s
  rintro ⟨k, current, i⟩ t hround
  rw [copyRound] at hround
  by_cases hnull : current = 0
  · rw [if_pos hnull] at hround
    cases hround
  · rw [if_neg hnull] at hround
    cases hmalloc : k.processMalloc process sizeofArgument with
    | error halt =>
        rw [hmalloc] at hround
        cases hround
    | ok out =>
        obtain ⟨argumentStr, k'⟩ := out
        rw [hmalloc] at hround
        dsimp only at hround
        by_cases hstr : argumentStr = 0
        · rw [if_pos hstr] at hround
          cases hround
        · rw [if_neg hstr] at hround
          have hless := freeAllocations_processMalloc hmalloc hstr
          cases hround
          exact hless

/-- The node behind the root of a list that so many `next` pointers lead to. -/
def argumentAt (m : Memory) : Nat → Ptr → Ptr
  | 0, current => current
  | n + 1, current => argumentAt m n (load32 m (current + nextOffset))

/-- The pointers from the root of a list lead back to a node, and to no null pointer
before. -/
def ArgumentsCycle (m : Memory) (rootArgument : Ptr) : Prop :=
  ∃ i j, i < j ∧ (∀ k < j, argumentAt m k rootArgument ≠ 0) ∧
    argumentAt m i rootArgument = argumentAt m j rootArgument

theorem rounds_nextRound_iff
    {m : Memory} {current p : Ptr} {n : Nat} :
    rounds (nextRound m) n current = .inr p ↔
      (∀ k < n, argumentAt m k current ≠ 0) ∧ argumentAt m n current = p := by
  induction n generalizing current with
  | zero => simp [rounds, argumentAt]
  | succ n ih =>
      rw [Nat.forall_lt_succ_left]
      by_cases hnull : current = 0
      · have hround : nextRound m current = .inl () := if_pos hnull
        rw [rounds_succ_of_inl hround]
        exact iff_of_false Sum.inl_ne_inr fun h => h.1.1 hnull
      · have hround : nextRound m current = .inr (load32 m (current + nextOffset)) :=
          if_neg hnull
        rw [rounds_succ_of_inr hround, ih]
        exact ⟨fun h => ⟨⟨hnull, h.1⟩, h.2⟩, fun h => ⟨h.1.2, h.2⟩⟩

theorem repeats_nextRound_iff
    (m : Memory) (rootArgument : Ptr) :
    Repeats (nextRound m) rootArgument ↔ ArgumentsCycle m rootArgument := by
  constructor
  · rintro ⟨i, j, p, hij, hi, hj⟩
    obtain ⟨-, hi⟩ := rounds_nextRound_iff.mp hi
    obtain ⟨hnodes, hj⟩ := rounds_nextRound_iff.mp hj
    exact ⟨i, j, hij, hnodes, hi.trans hj.symm⟩
  · rintro ⟨i, j, hij, hnodes, heq⟩
    exact ⟨i, j, _, hij,
      rounds_nextRound_iff.mpr ⟨fun k hk => hnodes k (Nat.lt_trans hk hij), heq⟩,
      rounds_nextRound_iff.mpr ⟨hnodes, rfl⟩⟩

/-- Counting the arguments ends, and so does copying them in whatever state that
begins. -/
structure WalksTerminate (m : Memory) (rootArgument : Ptr) : Prop where
  count : Terminates (countRound m) (rootArgument, 0)
  copy : ∀ (process argv : Ptr) (k : Kernel),
    Terminates (copyRound process argv) (k, rootArgument, 0)

theorem countRound_terminates_iff
    (m : Memory) (s : Ptr × Nat) :
    Terminates (countRound m) s ↔ Terminates (nextRound m) s.1 := by
  refine terminates_iff_of_map Prod.fst (fun _ => ()) ?_ s
  rintro ⟨current, i⟩
  rw [nextRound, countRound]
  split_ifs <;> rfl

/-- The walks through a list of arguments end exactly when it has no cycle. -/
theorem argumentWalks_terminate_iff
    (m : Memory) (rootArgument : Ptr) :
    WalksTerminate m rootArgument ↔ ¬ ArgumentsCycle m rootArgument := by
  have hfinite : Finite Ptr := Finite.of_injective BitVec.toFin fun a b => BitVec.toFin_inj.mp
  have hcount : Terminates (countRound m) (rootArgument, 0) ↔ ¬ ArgumentsCycle m rootArgument := by
    rw [countRound_terminates_iff, terminates_iff_not_repeats, repeats_nextRound_iff]
  constructor
  · exact fun h => hcount.mp h.count
  · intro h
    exact ⟨hcount.mpr h, fun process argv k => copyRound_terminates process argv _⟩

/-- A list of arguments, whatever it is, does not hang the kernel. -/
def ArgumentWalksTerminate : Prop :=
  ∀ (m : Memory) (rootArgument : Ptr), WalksTerminate m rootArgument

/-- An argument in a block that the call `malloc` returns, which is mapped to itself;
its `next` leads to itself. -/
theorem argumentWalksTerminate_false : ¬ ArgumentWalksTerminate := by
  intro h
  have hself : load32 (store32 (fun _ => 0) (0x1800000 + nextOffset) 0x1800000)
      (0x1800000 + nextOffset) = 0x1800000 :=
    load32_store32_same _ _ _
  have hcount := (h (store32 (fun _ => 0) (0x1800000 + nextOffset) 0x1800000) 0x1800000).count
  rw [countRound_terminates_iff] at hcount
  refine Repeats.not_terminates ((repeats_nextRound_iff _ _).mpr ⟨0, 1, Nat.one_pos, ?_, ?_⟩) hcount
  · intro k hk
    obtain rfl : k = 0 := by omega
    exact (by decide : (0x1800000 : Ptr) ≠ 0)
  · exact hself.symm

end Kernel

end PeachOS
