import PeachOS.Shell.ProgramArguments
import PeachOS.Strings
import PeachOS.Task.ProgramPath

/-!
# A command that is not copied

`peachos_system_run` with what `strncpy` really does.  It leaves the arrays on the stack
and the arguments of the list as they are, so the list that comes to the kernel has empty
arguments only, and system call 7 refuses it.
-/

namespace PeachOS

open Lib Kernel

/-- `strncpy` of a string on a stack to memory of the program. -/
def Copying.userStrncpy (copying : Copying) (k : Kernel) (dest : Ptr) (src : List Byte)
    (count : Int) : Except Halt Kernel :=
  copying.strncpy (fun _ i => load .fault (src ++ [0]) i)
    (fun k i c => k.userStore (dest + BitVec.ofNat 32 i) c) k count

/-- A `struct command_argument` for a token, with no next one. -/
def Copying.newCommandArgument (copying : Copying) (k : Kernel) (token : List Byte) :
    Except Halt (Ptr × Kernel) := do
  let (new, k) ← k.peachosMalloc sizeofCommandArgument
  if new = 0 then
    pure (0, k)
  else
    let k ← copying.userStrncpy k new token 512
    let k ← k.userStores (new + nextOffset) (wordBytes 0)
    pure (new, k)

/-- The loop of `peachos_parse_command`: what it leaves `sp` at. -/
def Copying.parseCommandLoop (copying : Copying) (k : Kernel) (current : Ptr)
    (sp : Option (List Byte)) : Except Halt (Option (List Byte) × Kernel) :=
  match _hstrtok : strtok none sp [space] with
  | (none, sp') => .ok (sp', k)
  | (some token, sp') => do
      let (new, k) ← copying.newCommandArgument k token
      if new = 0 then
        pure (sp', k)
      else
        let k ← k.userStores (current + nextOffset) (wordBytes new)
        copying.parseCommandLoop k new sp'
termination_by (sp.map fun s => s.length + 1).getD 0
decreasing_by exact strtok_length_lt _hstrtok

/-- `strtok` of an array, which is only read when `sp` is null. -/
def strtokArray (array : List Byte) :
    Option (List Byte) → Except Halt (Option (List Byte) × Option (List Byte))
  | none => do
      let str ← stringIn array
      pure (strtok (some str) none [space])
  | some s => .ok (strtok none (some s) [space])

/-- The string that is taken apart is the one behind `sp`, or what the array holds. -/
theorem strtokArray_of_mem
    {array : List Byte} {sp : Option (List Byte)} (h : sp = none → 0 ∈ array) :
    strtokArray array sp =
      .ok (strtok none (some (sp.getD (array.takeWhile fun b => b ≠ 0))) [space]) := by
  cases sp with
  | none =>
      obtain ⟨str, behind, rfl, hnul⟩ := List.eq_append_cons_of_mem (h rfl)
      have hall : ∀ b ∈ str, decide (b ≠ 0) = true :=
        fun b hb => decide_eq_true fun h0 => hnul (h0 ▸ hb)
      rw [strtokArray, stringIn_append hnul, Option.getD_none, List.takeWhile_append_of_pos hall,
        List.takeWhile_cons_of_neg (by decide), List.append_nil]
      rfl
  | some s => rfl

/-- `peachos_parse_command`; `scommand` is what its array holds before. -/
def Copying.peachosParseCommand (copying : Copying) (k : Kernel) (sp : Option (List Byte))
    (scommand command : List Byte) (max : Int) :
    Except Halt (Ptr × Option (List Byte) × Kernel) :=
  if 1025 ≤ max then
    .ok (0, sp, k)
  else do
    let scommand ← copying.strncpyBuffer scommand command 1025
    let (token, sp) ← strtokArray scommand sp
    match token with
    | none => pure (0, sp, k)
    | some token => do
        let (root, k) ← copying.newCommandArgument k token
        if root = 0 then
          pure (0, sp, k)
        else
          let (sp, k) ← copying.parseCommandLoop k root sp
          pure (root, sp, k)

/-- `peachos_system_run`; `buf`, `scommand` and the `path` of system call 7 are what these
arrays hold before. -/
def Copying.peachosSystemRun (copying : Copying) (load : Loader) (fuel : Nat) (k : Kernel)
    (sp : Option (List Byte)) (buf scommand path command : List Byte) :
    Except Halt (Handled × Option (List Byte) × Kernel) := do
  let buf ← copying.strncpyBuffer buf (command ++ [0]) 1024
  let (rootCommandArgument, sp, k) ← copying.peachosParseCommand k sp scommand buf 1024
  if rootCommandArgument = 0 then
    pure (.returns (-1), sp, k)
  else
    let (handled, k) ← k.isr80hCommand7InvokePath load copying fuel path rootCommandArgument
    pure (handled, sp, k)

section Loop

variable {copying : Copying} {k : Kernel} {current : Ptr} {sp sp' : Option (List Byte)}
  {token : List Byte}

theorem Copying.parseCommandLoop_none
    (h : strtok none sp [space] = (none, sp')) :
    copying.parseCommandLoop k current sp = .ok (sp', k) := by
  rw [Copying.parseCommandLoop]
  split
  next heq =>
    cases h.symm.trans heq
    rfl
  next heq => cases h.symm.trans heq

theorem Copying.parseCommandLoop_some
    (h : strtok none sp [space] = (some token, sp')) :
    copying.parseCommandLoop k current sp = (do
      let (new, k) ← copying.newCommandArgument k token
      if new = 0 then
        pure (sp', k)
      else
        let k ← k.userStores (current + nextOffset) (wordBytes new)
        copying.parseCommandLoop k new sp') := by
  rw [Copying.parseCommandLoop]
  split
  next heq => cases h.symm.trans heq
  next heq =>
    cases h.symm.trans heq
    rfl

end Loop

section Assigns

variable {token str s command scommand : List Byte} {dest : Ptr}

/-- The bytes up to the NUL, and the NUL. -/
theorem strncpyLoop_userStores
    (hstr : 0 ∉ str) (k : Kernel) {i : Nat} (hi : i ≤ str.length) (n : Nat) :
    (strncpyLoop (fun _ i => load .fault (str ++ [0]) i)
        (fun k i c => k.userStore (dest + BitVec.ofNat 32 i) c) k i n >>= fun r =>
      r.1.userStore (dest + BitVec.ofNat 32 r.2) 0) =
        k.userStores (dest + BitVec.ofNat 32 i) ((str.drop i).take n ++ [0]) := by
  have hnul (k : Kernel) (a : Ptr) : k.userStores a [0] = k.userStore a 0 := by
    rw [userStores]
    exact bind_pure _
  induction n generalizing k i with
  | zero => exact (hnul k _).symm
  | succ n ih =>
      rw [strncpyLoop]
      rcases Nat.lt_or_eq_of_le hi with hlt | rfl
      · have hc : (str ++ [0])[i]? = some str[i] :=
          (List.getElem?_append_left hlt).trans (List.getElem?_eq_getElem hlt)
        have hne : str[i] ≠ 0 := fun h0 => hstr (h0 ▸ List.getElem_mem hlt)
        rw [load_of_getElem? Halt.fault hc, ok_bind, if_neg hne, List.drop_eq_getElem_cons hlt,
          List.take_succ_cons, List.cons_append, userStores, bind_assoc]
        refine bind_congr fun k' => ?_
        rw [ih k' hlt, add_ofNat_succ, add_right_comm]
      · have hc : (str ++ [0])[str.length]? = some 0 := List.getElem?_concat_length
        rw [load_of_getElem? Halt.fault hc, ok_bind, if_pos rfl, List.drop_length, List.take_nil]
        exact (hnul k _).symm

theorem userStrncpy_assigns
    (hstr : 0 ∉ str) (k : Kernel) (dest : Ptr) :
    Copying.assigns.userStrncpy k dest str 512 =
      k.userStores dest (strncpyString str sizeofArgument.toNat ++ [0]) := by
  have hloop := @strncpyLoop_userStores str dest hstr k 0 (Nat.zero_le _) 511
  rwa [BitVec.add_zero, List.drop_zero] at hloop

theorem newCommandArgument_assigns
    (htoken : 0 ∉ token) (k : Kernel) :
    Copying.assigns.newCommandArgument k token = k.newCommandArgument token := by
  rw [Copying.newCommandArgument, Kernel.newCommandArgument]
  refine bind_congr fun r => ?_
  obtain ⟨new, k⟩ := r
  dsimp only
  rw [userStrncpy_assigns htoken]

theorem parseCommandLoop_assigns
    (hs : 0 ∉ s) (k : Kernel) (current : Ptr) :
    Copying.assigns.parseCommandLoop k current (some s) = k.parseCommandLoop current (some s) := by
  induction hn : s.length using Nat.strong_induction_on generalizing s k current with
  | _ n ih =>
      rcases strtok_spec none s with ⟨-, hstrtok⟩ | ⟨token, s', -, hne, hsub, hlength, hstrtok⟩
      · rw [Copying.parseCommandLoop_none hstrtok, Kernel.parseCommandLoop_none hstrtok]
      · obtain ⟨htoken, hrest⟩ := List.append_subset.mp hsub
        have hpos := List.length_pos_of_ne_nil hne
        rw [Copying.parseCommandLoop_some hstrtok, Kernel.parseCommandLoop_some hstrtok,
          newCommandArgument_assigns fun h0 => hs (htoken h0)]
        refine bind_congr fun r => ?_
        obtain ⟨new, k⟩ := r
        dsimp only
        refine if_congr Iff.rfl rfl (bind_congr fun k' => ?_)
        exact ih s'.length (by omega) (fun h0 => hs (hrest h0)) k' new rfl

/-- With strings in `command` and behind `sp` the call is the one that copies. -/
theorem peachosParseCommand_assigns
    (hcommand : 0 ∉ command) (hscommand : scommand.length = 1025) (sp : Option CString)
    (k : Kernel) (max : Int) :
    Copying.assigns.peachosParseCommand k (sp.map CString.bytes) scommand (command ++ [0]) max =
      k.peachosParseCommand (sp.map CString.bytes) command max := by
  have hcopy : Copying.assigns.strncpyBuffer scommand (command ++ [0]) 1025 =
      .ok (strncpyString command 1025 ++ 0 :: scommand.drop (copiedLength command 1025 + 1)) := by
    have hlength : command.take (copiedLength command 1025) = strncpyString command 1025 := by
      rw [copiedLength, strncpyString, List.take_eq_take_iff]
      omega
    rw [← hlength]
    exact strncpy_assigns hcommand (fun i c _ hc => load_of_getElem? Halt.fault hc) (by decide)
      (by omega)
  have hcut : 0 ∉ strncpyString command 1025 := fun h0 => hcommand (List.mem_of_mem_take h0)
  have hstrtok : strtokArray (strncpyString command 1025 ++
      0 :: scommand.drop (copiedLength command 1025 + 1)) (sp.map CString.bytes) =
        .ok (strtok (some (strncpyString command 1025)) (sp.map CString.bytes) [space]) := by
    cases sp with
    | none =>
        rw [Option.map_none, strtokArray, stringIn_append hcut]
        rfl
    | some s => rfl
  rw [Copying.peachosParseCommand, Kernel.peachosParseCommand]
  refine if_congr Iff.rfl rfl ?_
  dsimp only
  rw [hcopy, ok_bind, hstrtok, ok_bind, strtok_parsedString]
  have hs : 0 ∉ parsedString (sp.map CString.bytes) command := by
    cases sp with
    | none => exact hcut
    | some s => exact s.noNul
  rcases strtok_spec none (parsedString (sp.map CString.bytes) command) with
    ⟨-, hspec⟩ | ⟨token, s, -, -, hsub, -, hspec⟩
  · rw [hspec]
    rfl
  · obtain ⟨htoken, hrest⟩ := List.append_subset.mp hsub
    rw [hspec]
    dsimp only
    rw [newCommandArgument_assigns fun h0 => hs (htoken h0)]
    refine bind_congr fun r => ?_
    obtain ⟨root, k⟩ := r
    dsimp only
    rw [parseCommandLoop_assigns fun h0 => hs (hrest h0)]

end Assigns

/-- In a source that ends in a NUL, or is long enough, the loop comes to an end. -/
theorem strncpyLoop_compares
    {σ : Type} {put : σ → Nat → Byte → Except Halt σ} {src : List Byte} (s : σ) {i n : Nat}
    (h : i + n ≤ src.length ∨ 0 ∈ src.drop i) :
    ∃ j, strncpyLoop (fun _ i => load .fault src i) (Copying.compares.put put) s i n =
      .ok (s, j) := by
  induction n generalizing i with
  | zero => exact ⟨i, rfl⟩
  | succ n ih =>
      have hlt : i < src.length := by
        rcases h with h | h
        · omega
        · exact Nat.not_le.mp fun hle => by
            rw [List.drop_eq_nil_of_le hle] at h
            cases h
      rw [strncpyLoop, load_of_getElem? Halt.fault (List.getElem?_eq_getElem hlt), ok_bind]
      by_cases h0 : src[i] = 0
      · exact ⟨i, if_pos h0⟩
      · rw [if_neg h0]
        refine ih (h.imp (fun h => by omega) fun h => ?_)
        rw [List.drop_eq_getElem_cons hlt] at h
        exact (List.mem_cons.mp h).resolve_left fun heq => h0 heq.symm

theorem strncpy_compares_ok
    {σ : Type} {put : σ → Nat → Byte → Except Halt σ} {src : List Byte} {count : Int} (s : σ)
    (h : (count - 1).toNat ≤ src.length ∨ 0 ∈ src) :
    Copying.compares.strncpy (fun _ i => load .fault src i) put s count = .ok s := by
  obtain ⟨j, hloop⟩ := @strncpyLoop_compares σ put src s 0 (count - 1).toNat (by simpa using h)
  rw [Copying.strncpy, hloop]
  rfl

namespace Kernel

section Compares

variable {k₀ k : Kernel} {shell current : Ptr} {f : Footprint} {rest os : List Ptr}

/-- The block of `peachos_malloc` is zeroed. -/
theorem Running.peachosMalloc_zeroed
    {size : Word} {p : Ptr} {k' : Kernel} (h : Running k₀ shell f rest os k) (hsize : size ≠ 0)
    (hcall : k.peachosMalloc size = .ok (p, k')) (hp : p ≠ 0) :
    k'.mem.bytes p = 0 := by
  obtain ⟨task, htask, hprocess, -⟩ := h.taskCurrent
  rw [Kernel.peachosMalloc, htask, ok_bind, hprocess] at hcall
  rcases hk : k.kzalloc size with ⟨ptr, k₁⟩
  by_cases h0 : ptr = 0
  · rw [Kernel.processMalloc, hk] at hcall
    cases (if_pos h0).symm.trans hcall
    exact absurd rfl hp
  · obtain ⟨-, hlive⟩ := extends_kzalloc h.keeps.holds.inv hsize hk h0
    obtain ⟨h₁, heq⟩ := h.keeps.processMalloc_eq hsize hk h0
    have hzero : k₁.mem.bytes ptr = 0 := by
      obtain ⟨rfl, rfl⟩ := Prod.ext_iff.mp hk
      rw [Kernel.kzalloc, kzallocFor_ptr] at h0 ⊢
      rw [kzallocFor_of_ne h0]
      dsimp only
      rw [Pages.bytes_ofBytes]
      refine if_pos ?_
      rw [BitVec.sub_self]
      exact Nat.pos_of_ne_zero fun hzero => hsize (BitVec.eq_of_toNat_eq hzero)
    rw [heq] at hcall
    cases hindex : processFindFreeAllocationIndex f.record with
    | none =>
        rw [hindex] at hcall
        cases hcall
        exact absurd rfl hp
    | some index =>
        have hplaced := h₁.holds.inv.placed ptr _ hlive
        obtain ⟨hmappable, -⟩ := hplaced.mappable hplaced.aligned
        obtain ⟨mem, hmap, hmaps⟩ := pagingMapTo_spec h₁.pageDirectory hmappable
          (pagingIsWriteable ||| pagingIsPresent ||| pagingAccessFromAll)
        rw [hindex] at hcall
        dsimp only at hcall
        rw [hmap] at hcall
        cases hcall
        have hout : p ∉ tablesOf k₁.mem f.directory := fun hmem =>
          h₁.not_mem p (h₁.own_mem (List.mem_cons_of_mem _ hmem)) (List.mem_singleton_self p)
        refine ((h₁.tables_spares hmaps.frame).bytes h₁.holds.inv hlive hout ?_).trans hzero
        have hpages := hplaced.pages
        rw [BitVec.sub_self]
        change 0 < _
        omega

/-- Of a token comes an empty argument. -/
theorem Running.newCommandArgument_compares
    (h : Running k₀ shell f rest os k)
    (hgranted : (k.pool.kmalloc sizeofCommandArgument).1 ≠ 0)
    (hentry : (allocated f.record).length < maxProgramAllocations) (token : List Byte) :
    ∃ p k' f', Copying.compares.newCommandArgument k token = .ok (p, k') ∧ p ≠ 0 ∧
      Running k₀ shell f' rest os k' ∧ NewArgument k shell f f' [] p k' := by
  obtain ⟨p, k₁, f', hmalloc, h₁, hmalloced, hpool⟩ := h.peachosMalloc (by decide) hgranted hentry
  have hlive : k₁.pool.live p = some 1 := hmalloced.live
  have hne := (h₁.placed hlive).ne_zero
  have hperm := hmalloced.perm h₁.keeps
  have hzero := h.peachosMalloc_zeroed (by decide) hmalloc hne
  obtain ⟨k₂, hnext, h₂, hwrote, hload, hbefore⟩ :=
    h₁.setNext (hperm.mem_iff.mpr List.mem_cons_self) hlive 0
  obtain ⟨hdirectory, hentries, -⟩ := hmalloced.tables h.keeps h₁.keeps
  refine ⟨p, k₂, f', ?_, hne, h₂, hmalloced.fresh, hwrote.pool ▸ hlive, hperm, ?_, hload, ?_, ?_,
    hwrote.pool.trans hpool, hwrote.sched.trans hmalloced.sched⟩
  · have hcopy : Copying.compares.userStrncpy k₁ p token 512 = .ok k₁ :=
      strncpy_compares_ok k₁ (Or.inr (List.mem_append_right token (List.mem_singleton_self 0)))
    rw [Copying.newCommandArgument, hmalloc, ok_bind]
    dsimp only
    rw [if_neg hne, hcopy, ok_bind, hnext]
    rfl
  · have hbytes : BytesAt k₁.mem.bytes p (cut [] ++ [0]) := by
      intro i c hi
      cases i with
      | zero =>
          cases hi
          rw [BitVec.add_zero, hzero]
      | succ i => cases hi
    exact hbytes.congr fun b hb => hbefore b (Nat.lt_trans hb (by decide))
  · refine hmalloced.spares.trans hwrote.spares fun b hb => ?_
    rw [List.mem_singleton.mp hb]
    exact Or.inr hmalloced.fresh
  · rw [hwrote.tables, tablesOf, tablesOf, hdirectory, tableAt_congr hentries]

theorem Running.newCommandArgument_compares_refused
    (h : Running k₀ shell f rest os k) (hrefuses : RefusesMalloc k f sizeofCommandArgument)
    (token : List Byte) :
    ∃ k', Copying.compares.newCommandArgument k token = .ok (0, k') ∧
      Running k₀ shell f rest os k' ∧ Spares [] k k' ∧ k'.sched = k.sched := by
  obtain ⟨k', hmalloc, hrunning, hspares, hsched⟩ := h.peachosMalloc_refused (by decide) hrefuses
  refine ⟨k', ?_, hrunning, hspares, hsched⟩
  rw [Copying.newCommandArgument, hmalloc, ok_bind]
  exact if_pos rfl

/-- Behind a node, each token that there is memory for becomes an empty argument. -/
theorem Running.parseCommandLoop_compares
    {s : List Byte} (h : Running k₀ shell f rest os k)
    (hcurrent : current ∈ allocated f.record) (hlive : k.pool.live current = some 1)
    (hend : load32 k.mem.bytes (current + nextOffset) = 0) :
    ∃ ps f' sp' k', Copying.compares.parseCommandLoop k current (some s) = .ok (sp', k') ∧
      Running k₀ shell f' rest os k' ∧ TokensTaken k f s ps.length f' sp' k' ∧
      ArgumentsBuilt k shell current f (List.replicate ps.length []) k'.pool ps f' k' := by
  induction hn : s.length using Nat.strong_induction_on generalizing s k f current with
  | h n ih =>
      rcases strtok_spec none s with
        ⟨hnone, hstrtok⟩ | ⟨token, s', htokens, hne, -, hlength, hstrtok⟩
      · exact ⟨[], f, none, k, Copying.parseCommandLoop_none hstrtok, h, tokensTaken_nil hnone,
          h.argumentsBuilt_nil hlive hend (Spares.refl _ k) rfl⟩
      · have hpos := List.length_pos_of_ne_nil hne
        by_cases hrefuses : RefusesMalloc k f sizeofCommandArgument
        · obtain ⟨k', hcall, h', hspares, hsched⟩ :=
            h.newCommandArgument_compares_refused hrefuses token
          refine ⟨[], f, some s', k', ?_, h', tokensTaken_refused htokens hrefuses,
            h.argumentsBuilt_nil hlive hend hspares hsched⟩
          rw [Copying.parseCommandLoop_some hstrtok, hcall, ok_bind]
          exact if_pos rfl
        · obtain ⟨hfirst, hentry⟩ := not_or.mp hrefuses
          obtain ⟨new, k₁, f₂, hcall, hnew, h₁, hadded⟩ :=
            h.newCommandArgument_compares hfirst (by omega) token
          obtain ⟨k₂, hstores, h₂, hlinked⟩ := h.linkNew hcurrent hlive h₁ hnew hadded
          obtain ⟨ps, f', sp', k', hcall', h', htaken, hbuilt⟩ := ih s'.length (by omega) h₂
            (hlinked.perm.mem_iff.mpr List.mem_cons_self) hlinked.live hlinked.zero rfl
          have hlength₂ : (allocated f₂.record).length = (allocated f.record).length + 1 := by
            rw [hlinked.perm.length_eq, List.length_cons]
          refine ⟨new :: ps, f', sp', k', ?_, h',
            htaken.cons htokens hrefuses hlinked.pool hlength₂,
            hlinked.cons h₂ hcurrent hlive hbuilt⟩
          rw [Copying.parseCommandLoop_some hstrtok, hcall, ok_bind]
          dsimp only
          rw [if_neg hnew, hstores, ok_bind, hcall']

/-- The list has an empty argument for each token of the string that is taken apart, if there
is memory for it. -/
theorem Running.peachosParseCommand_compares
    {scommand command str : List Byte} {sp : Option (List Byte)}
    (h : Running k₀ shell f rest os k) (hcommand : 1024 ≤ command.length)
    (hstrtok : strtokArray scommand sp = .ok (strtok none (some str) [space])) :
    ∃ root ps f' sp' k',
      Copying.compares.peachosParseCommand k sp scommand command 1024 = .ok (root, sp', k') ∧
      Running k₀ shell f' rest os k' ∧ TokensTaken k f str ps.length f' sp' k' ∧
      CommandBuilt k (List.replicate ps.length []) root ps f' k' := by
  have hcopy : Copying.compares.strncpyBuffer scommand command 1025 = .ok scommand :=
    strncpy_compares_ok scommand (Or.inl hcommand)
  rcases strtok_spec none str with ⟨hnone, hspec⟩ | ⟨token, s, htokens, -, -, -, hspec⟩
  · refine ⟨0, [], f, none, k, ?_, h, tokensTaken_nil hnone, commandBuilt_nil rfl⟩
    rw [Copying.peachosParseCommand, if_neg (by decide), hcopy, ok_bind, hstrtok, hspec]
    rfl
  · by_cases hrefuses : RefusesMalloc k f sizeofCommandArgument
    · obtain ⟨k', hcall, h', -, hsched⟩ := h.newCommandArgument_compares_refused hrefuses token
      refine ⟨0, [], f, some s, k', ?_, h', tokensTaken_refused htokens hrefuses,
        commandBuilt_nil hsched⟩
      rw [Copying.peachosParseCommand, if_neg (by decide), hcopy, ok_bind, hstrtok, hspec, ok_bind]
      dsimp only
      rw [hcall, ok_bind]
      exact if_pos rfl
    · obtain ⟨hfirst, hentry⟩ := not_or.mp hrefuses
      obtain ⟨root, k₁, f₁, hcall, hroot, h₁, hnew⟩ :=
        h.newCommandArgument_compares hfirst (by omega) token
      have hmem : root ∈ allocated f₁.record := hnew.perm.mem_iff.mpr List.mem_cons_self
      obtain ⟨ps, f', sp', k', hloop, h', htaken, hbuilt⟩ :=
        h₁.parseCommandLoop_compares hmem hnew.live hnew.next
      have hlength : (allocated f₁.record).length = (allocated f.record).length + 1 := by
        rw [hnew.perm.length_eq, List.length_cons]
      refine ⟨root, root :: ps, f', sp', k', ?_, h',
        htaken.cons htokens hrefuses hnew.pool hlength, hnew.commandBuilt hroot hbuilt⟩
      rw [Copying.peachosParseCommand, if_neg (by decide), hcopy, ok_bind, hstrtok, hspec, ok_bind]
      dsimp only
      rw [hcall, ok_bind]
      dsimp only
      rw [if_neg hroot, hloop]
      rfl

end Compares

/-- A call of `peachos_system_run`, with what the arrays on the stacks hold. -/
structure ShellCall where
  command : CString
  buf : List Byte
  scommand : List Byte
  path : List Byte
  stale : Option CString
  kernel : Kernel
  footprint : Footprint

def ShellCall.run (c : ShellCall) (load : Loader) (fuel : Nat) :
    Except Halt (Handled × Option (List Byte) × Kernel) :=
  Copying.compares.peachosSystemRun load fuel c.kernel (c.stale.map CString.bytes) c.buf c.scommand
    c.path c.command.bytes

/-- The string that is taken apart: what a call before has left, or what stands in `scommand`. -/
def ShellCall.string (c : ShellCall) : List Byte :=
  (c.stale.map CString.bytes).getD (c.scommand.takeWhile fun b => b ≠ 0)

/-- There is no token to be made an argument, or no memory for the first one. -/
def ShellCall.BuildsNothing (c : ShellCall) : Prop :=
  tokens c.string = [] ∨ RefusesMalloc c.kernel c.footprint sizeofCommandArgument

/-- The shell runs, with `m` live allocations, and what its array holds is a string. -/
structure ShellCall.Waits (c : ShellCall) (shell : Ptr) (m : Nat) : Prop where
  running : ∃ k₀ rest os, Running k₀ shell c.footprint rest os c.kernel
  allocations : (allocated c.footprint.record).length = m
  buf : c.buf.length = 1024
  scommand : 0 ∈ c.scommand

/-- The answers to the commands of a shell, and its live allocations behind them. -/
inductive ShellSession (load : Loader) (fuel : Nat) (shell : Ptr) (n : Nat) :
    List Handled → Nat → Prop
  | nil : ShellSession load fuel shell n [] n
  | snoc {answers : List Handled} {m : Nat} {c : ShellCall} {handled : Handled}
      {sp : Option (List Byte)} {k : Kernel} {record : ProcessRecord}
      (h : ShellSession load fuel shell n answers m) (hwaits : c.Waits shell m)
      (hcall : c.run load fuel = .ok (handled, sp, k)) (hrecord : k.records shell = some record) :
      ShellSession load fuel shell n (answers ++ [handled]) (allocated record).length

/-- What a call returns, and whether it has left allocations. -/
def Refuses (m : Nat) (answer : Word) (m' : Nat) : Prop :=
  (answer = -1 ∧ m' = m) ∨ (answer = errorValue (-einvarg) ∧ m < m')

/-- System call 7 refuses an empty name. -/
theorem Running.invokePath_refuses
    {k₀ k : Kernel} {shell root : Ptr} {f : Footprint} {rest os ps : List Ptr}
    {ss : List (List Byte)} (h : Running k₀ shell f rest os k) (hroot : root ∈ allocated f.record)
    (hlive : k.pool.live root = some 1) (hlist : CommandList k.mem.bytes root ps ([] :: ss))
    (load : Loader) (fuel : Nat) (path : List Byte) :
    k.isr80hCommand7InvokePath load .compares fuel path root =
      .ok (.returns (errorValue (-einvarg)), k) := by
  have hempty : k.mem.bytes root = 0 := by
    cases hlist with
    | cons _ hargument _ => exact hargument.head
  have haddress : k.argumentsOf root = .ok root := by
    rw [argumentsOf, h.currentDirectory, ok_bind, h.physicalAddress hroot hlive]
    rfl
  rw [isr80hCommand7InvokePath, invokeSystemCommandPath, haddress, ok_bind, if_pos (Or.inr hempty)]
  rfl

/-- Behind a call there is one allocation more for each token that has become an argument. -/
theorem ShellCall.outcome
    {c : ShellCall} {k₀ : Kernel} {shell : Ptr} {rest os : List Ptr}
    (h : Running k₀ shell c.footprint rest os c.kernel) (hbuf : c.buf.length = 1024)
    (hnul : c.stale = none → 0 ∈ c.scommand) (load : Loader) (fuel : Nat) :
    ∃ answer sp k', ∃ f' : Footprint, c.run load fuel = .ok (.returns answer, sp, k') ∧
      k'.sched = c.kernel.sched ∧ k'.records shell = some f'.record ∧
      Refuses (allocated c.footprint.record).length answer (allocated f'.record).length ∧
      ((allocated f'.record).length = (allocated c.footprint.record).length ↔
        c.BuildsNothing) := by
  obtain ⟨root, ps, f', sp, k', hparse, h', htaken, hbuilt⟩ :=
    h.peachosParseCommand_compares (Nat.le_of_eq hbuf.symm)
      (strtokArray_of_mem fun hsp => hnul (Option.map_eq_none_iff.mp hsp))
  have hcopy : Copying.compares.strncpyBuffer c.buf (c.command.bytes ++ [0]) 1024 = .ok c.buf :=
    strncpy_compares_ok c.buf (Or.inr (List.mem_append_right _ (List.mem_singleton_self 0)))
  have hcount := htaken.count
  have hnothing : (allocated f'.record).length = (allocated c.footprint.record).length ↔
      c.BuildsNothing := by
    have hiff : ps.length = 0 ↔ c.BuildsNothing := htaken.nothing
    rw [← hiff]
    omega
  have hlist := hbuilt.list
  cases ps with
  | nil =>
      rw [List.length_nil, Nat.add_zero] at hcount
      have hroot : root = 0 := by
        cases hlist with
        | nil => rfl
      refine ⟨-1, sp, k', f', ?_, hbuilt.sched, h'.keeps.owns.recorded, Or.inl ⟨rfl, hcount⟩,
        hnothing⟩
      rw [ShellCall.run, Copying.peachosSystemRun, hcopy, ok_bind, hparse, ok_bind]
      exact if_pos hroot
  | cons p ps =>
      rw [List.length_cons, List.replicate_succ, List.map_cons] at hlist
      have hroot : root ≠ 0 ∧ root = p := by
        cases hlist with
        | cons hne _ _ => exact ⟨hne, rfl⟩
      have hrefuse := h'.invokePath_refuses (hbuilt.root_mem hroot.1)
        (hroot.2 ▸ hbuilt.live p List.mem_cons_self) hlist load fuel c.path
      rw [List.length_cons] at hcount
      refine ⟨errorValue (-einvarg), sp, k', f', ?_, hbuilt.sched, h'.keeps.owns.recorded,
        Or.inr ⟨rfl, by omega⟩, hnothing⟩
      rw [ShellCall.run, Copying.peachosSystemRun, hcopy, ok_bind, hparse, ok_bind]
      dsimp only
      rw [if_neg hroot.1, hrefuse]
      rfl

theorem ShellCall.Waits.refused
    {c : ShellCall} {shell : Ptr} {m : Nat} (h : c.Waits shell m) (load : Loader) (fuel : Nat) :
    ∃ answer sp k', ∃ f' : Footprint, c.run load fuel = .ok (.returns answer, sp, k') ∧
      k'.sched = c.kernel.sched ∧ k'.records shell = some f'.record ∧
      Refuses m answer (allocated f'.record).length := by
  obtain ⟨k₀, rest, os, hrunning⟩ := h.running
  obtain ⟨answer, sp, k', f', hrun, hsched, hrecord, hrefuses, -⟩ :=
    ShellCall.outcome hrunning h.buf (fun _ => h.scommand) load fuel
  rw [h.allocations] at hrefuses
  exact ⟨answer, sp, k', f', hrun, hsched, hrecord, hrefuses⟩

/-- A call that comes to an end has found a string to take apart. -/
theorem ShellCall.mem_of_returns
    {c : ShellCall} {load : Loader} {fuel : Nat} {r : Handled × Option (List Byte) × Kernel}
    (hbuf : c.buf.length = 1024) (h : c.run load fuel = .ok r) (hstale : c.stale = none) :
    0 ∈ c.scommand := by
  by_contra hnul
  have hcopy : Copying.compares.strncpyBuffer c.buf (c.command.bytes ++ [0]) 1024 = .ok c.buf :=
    strncpy_compares_ok c.buf (Or.inr (List.mem_append_right _ (List.mem_singleton_self 0)))
  have hcopy' : Copying.compares.strncpyBuffer c.scommand c.buf 1025 = .ok c.scommand :=
    strncpy_compares_ok c.scommand (Or.inl (Nat.le_of_eq hbuf.symm))
  rw [ShellCall.run, hstale, Copying.peachosSystemRun, hcopy, ok_bind,
    Copying.peachosParseCommand, if_neg (by decide), hcopy', ok_bind, Option.map_none, strtokArray,
    stringIn_of_not_mem hnul] at h
  cases h

/-- The answers of a session, and the allocations that it leaves. -/
theorem ShellSession.refused
    {load : Loader} {fuel n m : Nat} {shell : Ptr} {answers : List Handled}
    (h : ShellSession load fuel shell n answers m) (hn : n ≤ maxProgramAllocations) :
    (∀ a ∈ answers, a = .returns (-1) ∨ a = .returns (errorValue (-einvarg))) ∧
      n + answers.count (.returns (errorValue (-einvarg))) ≤ m ∧ m ≤ maxProgramAllocations := by
  induction h with
  | nil => exact ⟨fun a ha => (by cases ha), Nat.le_refl n, hn⟩
  | @snoc answers m c handled sp k record _ hwaits hcall hrecord ih =>
      obtain ⟨hanswers, hcount, -⟩ := ih
      obtain ⟨answer, sp', k', f', hrun, -, hrecord', hrefuses⟩ := hwaits.refused load fuel
      cases hrun.symm.trans hcall
      cases hrecord'.symm.trans hrecord
      refine ⟨fun a ha => ?_, ?_, length_allocated_le _⟩
      · rcases List.mem_append.mp ha with ha | ha
        · exact hanswers a ha
        · rw [List.mem_singleton.mp ha]
          exact hrefuses.imp (fun h => congrArg _ h.1) fun h => congrArg _ h.1
      · rw [List.count_append]
        rcases hrefuses with ⟨rfl, hm⟩ | ⟨rfl, hm⟩
        · rw [List.count_singleton, if_neg (by decide)]
          omega
        · rw [List.count_singleton_self]
          omega

/-- No command of the shell starts a program, whatever has been typed: each call returns an
error with the scheduler as it was, and those that have built a list leave it allocated, of
which there are 1024 at most. -/
theorem shell_starts_nothing
    (load : Loader) (fuel n m : Nat) (shell : Ptr) (answers : List Handled)
    (h : ShellSession load fuel shell n answers m) (hn : n ≤ maxProgramAllocations) :
    (∀ a ∈ answers, a = .returns (-1) ∨ a = .returns (errorValue (-einvarg))) ∧
      n + answers.count (.returns (errorValue (-einvarg))) ≤ maxProgramAllocations ∧
      ∀ c : ShellCall, c.Waits shell m → ∃ answer sp k',
        c.run load fuel = .ok (.returns answer, sp, k') ∧ k'.sched = c.kernel.sched := by
  obtain ⟨hanswers, hcount, hm⟩ := h.refused hn
  refine ⟨hanswers, hcount.trans hm, fun c hwaits => ?_⟩
  obtain ⟨answer, sp, k', f', hrun, hsched, -⟩ := hwaits.refused load fuel
  exact ⟨answer, sp, k', hrun, hsched⟩

/-- The shell of `oneProgram`, on whose stack a word stands. -/
theorem shell_starts_nothing_oneWord :
    ∃ shell answers m, answers ≠ [] ∧
      ShellSession (oneProgram [97] oneByte) 2 shell 0 answers m ∧
      0 + answers.count (.returns (errorValue (-einvarg))) ≤ maxProgramAllocations := by
  obtain ⟨k₀, shell, f, os, k, hrunning, -, hnone, -⟩ := exists_shell
  let c : ShellCall :=
    ⟨⟨[97], by decide⟩, List.replicate 1024 0, [97, 0], [], none, k, f⟩
  have hwaits : c.Waits shell 0 :=
    ⟨⟨k₀, [], os, hrunning⟩, by rw [hnone]; rfl, List.length_replicate,
      List.mem_cons_of_mem _ (List.mem_singleton_self 0)⟩
  obtain ⟨answer, sp, k', f', hrun, -, hrecord, -⟩ :=
    hwaits.refused (oneProgram [97] oneByte) 2
  have hsession := @ShellSession.snoc (oneProgram [97] oneByte) 2 shell 0 [] 0 c _ sp k' _
    ShellSession.nil hwaits hrun hrecord
  exact ⟨shell, _, _, List.concat_ne_nil _ _, hsession,
    (shell_starts_nothing _ 2 0 _ shell _ hsession (Nat.zero_le _)).2.1⟩

end Kernel

end PeachOS
