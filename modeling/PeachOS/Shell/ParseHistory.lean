import PeachOS.Shell.ProgramArguments
import PeachOS.Strings

/-!
# Commands one after the other

Between two calls of `peachos_parse_command` nothing of the parser remains but
`sp`.  When it is not null it still points to the buffer of a call that is over,
and what is there by then can be any string.
-/

namespace PeachOS

open Lib

namespace Kernel

/-- A process runs that has these blocks. -/
def IsRunning (k : Kernel) (f : Footprint) : Prop :=
  ∃ k₀ shell rest os, Running k₀ shell f rest os k

/-- Memory and entries for so many arguments. -/
def RoomForArguments (k : Kernel) (f : Footprint) (n : Nat) : Prop :=
  (∃ b, Pool.Granted k.pool (List.replicate n sizeofCommandArgument) b) ∧
    (allocated f.record).length + n ≤ maxProgramAllocations

/-- A call, and the kernel that it is made in. -/
structure ParseCall where
  command : CString
  max : Int
  kernel : Kernel
  footprint : Footprint

/-- The call has what it needs for the tokens of its command. -/
def ParseCall.Completes (c : ParseCall) : Prop :=
  c.max < 1025 →
    RoomForArguments c.kernel c.footprint (tokens (strncpyString c.command.bytes 1025)).length

/-- Calls that have been made, and whether they have left `sp` set. -/
inductive ParseRun : List ParseCall → Bool → Prop
  | nil : ParseRun [] false
  | snoc {calls : List ParseCall} {left : Bool} {c : ParseCall} {stale : Option CString} {root : Ptr}
      {sp : Option (List Byte)} {k : Kernel} (h : ParseRun calls left)
      (hrunning : IsRunning c.kernel c.footprint) (hstale : stale.isSome = left)
      (hcall : c.kernel.peachosParseCommand (stale.map CString.bytes) c.command.bytes c.max =
        .ok (root, sp, k)) :
      ParseRun (calls ++ [c]) sp.isSome

/-- The strings of the list that a call returns. -/
def ReturnsList (k : Kernel) (stale : Option CString) (command : CString) (max : Int)
    (ss : List (List Byte)) : Prop :=
  ∃ root ps sp k', k.peachosParseCommand (stale.map CString.bytes) command.bytes max =
      .ok (root, sp, k') ∧
    CommandList k'.mem.bytes root ps ss ∧ ∀ s ∈ ss, 0 ∉ s

/-- A call with room for its tokens returns, and the list is the same behind any calls. -/
def ParsesIndependently : Prop :=
  ∀ (command : CString) (max : Int), ∃ ss, ∀ calls left, ParseRun calls left →
    ∀ (stale : Option CString) (k : Kernel) (f : Footprint),
      stale.isSome = left → IsRunning k f →
      RoomForArguments k f (tokens (parsedString (stale.map CString.bytes) command.bytes)).length →
        ∀ ss', ReturnsList k stale command max ss' ↔ ss' = ss

/-- What a list says is determined by the memory. -/
theorem CommandList.strings_unique
    {m : Memory} {root : Ptr} {ps ps' : List Ptr} {ss ss' : List (List Byte)}
    (h : CommandList m root ps ss) (h' : CommandList m root ps' ss') (hss : ∀ s ∈ ss, 0 ∉ s)
    (hss' : ∀ s ∈ ss', 0 ∉ s) :
    ss = ss' := by
  induction h generalizing ps' ss' with
  | nil =>
      cases h' with
      | nil => rfl
      | cons hne _ _ => exact absurd rfl hne
  | @cons p ps s ss hne hargument _ ih =>
      cases h' with
      | nil => exact absurd rfl hne
      | @cons _ ps' s' ss' _ hargument' hrest' =>
          have hread := readString_eq hargument (hss s List.mem_cons_self) (s.length + s'.length)
          have hread' := readString_eq hargument' (hss' s' List.mem_cons_self) (s.length + s'.length)
          rw [List.take_of_length_le (Nat.le_add_right _ _)] at hread
          rw [List.take_of_length_le (Nat.le_add_left _ _)] at hread'
          rw [hread.symm.trans hread', ih hrest' (fun x hx => hss x (List.mem_cons_of_mem s hx))
            fun x hx => hss' x (List.mem_cons_of_mem s' hx)]

/-- The arguments that a call finds. -/
def argumentsFound (stale : Option CString) (command : CString) (max : Int) : List (List Byte) :=
  if 1025 ≤ max then []
  else (tokens (parsedString (stale.map CString.bytes) command.bytes)).map cut

theorem parsedString_noNul
    (stale : Option CString) (command : CString) :
    0 ∉ parsedString (stale.map CString.bytes) command.bytes := by
  cases stale with
  | none => exact fun h0 => command.noNul (List.mem_of_mem_take h0)
  | some s => exact s.noNul

theorem not_mem_of_mem_argumentsFound
    {stale : Option CString} {command : CString} {max : Int} {s : List Byte}
    (h : s ∈ argumentsFound stale command max) :
    0 ∉ s := by
  rw [argumentsFound] at h
  split_ifs at h
  · cases h
  · obtain ⟨token, htoken, rfl⟩ := List.mem_map.mp h
    exact fun h0 => parsedString_noNul stale command
      (subset_of_mem_tokens htoken (List.mem_of_mem_take h0))

section Call

variable {k : Kernel} {f : Footprint} {stale : Option CString} {command : CString} {max : Int}

/-- With room for them a call returns the arguments that it finds, and is through with the string. -/
theorem IsRunning.parse
    (h : IsRunning k f)
    (hroom : max < 1025 →
      RoomForArguments k f (tokens (parsedString (stale.map CString.bytes) command.bytes)).length) :
    ∃ root ps sp k', k.peachosParseCommand (stale.map CString.bytes) command.bytes max =
        .ok (root, sp, k') ∧
      (stale = none → sp = none) ∧
      CommandList k'.mem.bytes root ps (argumentsFound stale command max) := by
  by_cases hmax : 1025 ≤ max
  · refine ⟨0, [], stale.map CString.bytes, k, ?_, fun hstale => by rw [hstale]; rfl, ?_⟩
    · rw [Kernel.peachosParseCommand, if_pos hmax]
    · rw [argumentsFound, if_pos hmax]
      exact CommandList.nil
  · obtain ⟨k₀, shell, rest, os, hrunning⟩ := h
    obtain ⟨⟨b, hgranted⟩, hentries⟩ := hroom (by omega)
    obtain ⟨root, ps, f', sp', k', hcall, -, htaken, hbuilt⟩ :=
      hrunning.peachosParseCommand_outcome (stale.map CString.bytes) command.bytes
        (show max < 1025 by omega)
    have hps := (htaken.granted b hgranted hentries).1
    have hlist := hbuilt.list
    rw [List.take_of_length_le (Nat.le_of_eq hps.symm)] at hlist
    rw [argumentsFound, if_neg hmax]
    exact ⟨root, ps, sp', k', hcall, fun _ => htaken.whole.mpr hps, hlist⟩

theorem IsRunning.returnsList_iff
    (h : IsRunning k f)
    (hroom : RoomForArguments k f
      (tokens (parsedString (stale.map CString.bytes) command.bytes)).length)
    (ss : List (List Byte)) :
    ReturnsList k stale command max ss ↔ ss = argumentsFound stale command max := by
  obtain ⟨root, ps, sp, k', hcall, -, hlist⟩ :=
    @IsRunning.parse k f stale command max h fun _ => hroom
  constructor
  · rintro ⟨root', ps', sp', k'', hcall', hlist', hss⟩
    cases hcall.symm.trans hcall'
    exact hlist'.strings_unique hlist hss fun s hs => not_mem_of_mem_argumentsFound hs
  · rintro rfl
    exact ⟨root, ps, sp, k', hcall, hlist, fun s hs => not_mem_of_mem_argumentsFound hs⟩

end Call

/-- Calls that complete leave nothing behind. -/
theorem ParseRun.left_eq_false
    {calls : List ParseCall} {left : Bool} (h : ParseRun calls left)
    (hall : ∀ c ∈ calls, c.Completes) :
    left = false := by
  induction h with
  | nil => rfl
  | @snoc calls left c stale root sp k _ hrunning hstale hcall ih =>
      have hleft := ih fun c' hc' => hall c' (List.mem_append_left _ hc')
      rw [hleft, Option.isSome_eq_false_iff, Option.isNone_iff_eq_none] at hstale
      rw [hstale] at hcall
      obtain ⟨_, _, _, _, hcall', hnone, -⟩ :=
        @IsRunning.parse _ _ none _ _ hrunning (hall c (by simp))
      cases hcall'.symm.trans hcall
      rw [hnone rfl]
      rfl

/-- As long as no allocation of an earlier call has failed, a call returns the arguments of its
own command. -/
theorem parseRun_returnsList_iff
    {calls : List ParseCall} {left : Bool} (h : ParseRun calls left)
    (hall : ∀ c ∈ calls, c.Completes) {stale : Option CString} {k : Kernel} {f : Footprint}
    (hstale : stale.isSome = left) (hrunning : IsRunning k f) {command : CString} (max : Int)
    (hroom : RoomForArguments k f
      (tokens (parsedString (stale.map CString.bytes) command.bytes)).length)
    (ss : List (List Byte)) :
    ReturnsList k stale command max ss ↔ ss = argumentsFound none command max := by
  rw [h.left_eq_false hall, Option.isSome_eq_false_iff, Option.isNone_iff_eq_none] at hstale
  rw [hstale] at hroom ⊢
  exact hrunning.returnsList_iff hroom ss

/-- A shell with memory for an argument. -/
theorem exists_shell_room :
    ∃ k f, IsRunning k f ∧ RoomForArguments k f 1 := by
  obtain ⟨k₀, shell, f, os, k, hshell, hspace, hnone, -⟩ := exists_shell
  obtain ⟨b, hgranted, -⟩ := @Pool.HasSpace.granted k.pool 4 5359
    (List.replicate 1 sizeofCommandArgument) hspace
    fun size hsize => by rw [List.eq_of_mem_replicate hsize]; decide
  refine ⟨k, f, ⟨k₀, shell, [], os, hshell⟩, ⟨b, hgranted⟩, ?_⟩
  rw [hnone]
  decide

/-- `c` behind `b`. -/
theorem parseRun_returnsList_iff_afterOne :
    ∃ k f, ParseRun [⟨⟨[98], by decide⟩, 1024, k, f⟩] false ∧
      ∀ ss, ReturnsList k none ⟨[99], by decide⟩ 1024 ss ↔ ss = [[99]] := by
  obtain ⟨k, f, hrunning, hroom⟩ := exists_shell_room
  let b : ParseCall := ⟨⟨[98], by decide⟩, 1024, k, f⟩
  obtain ⟨root, ps, sp, k', hcall, hnone, -⟩ :=
    @IsRunning.parse k f none b.command 1024 hrunning fun _ => hroom
  obtain rfl := hnone rfl
  have hrun : ParseRun [b] false :=
    @ParseRun.snoc [] false b none _ _ _ ParseRun.nil hrunning rfl hcall
  have hall (c : ParseCall) (hc : c ∈ [b]) : c.Completes := by
    rw [List.mem_singleton.mp hc]
    exact fun _ => hroom
  exact ⟨k, f, hrun, fun ss =>
    @parseRun_returnsList_iff [b] false hrun hall none k f rfl hrunning ⟨[99], by decide⟩ 1024
      hroom ss⟩

/-- A call that gets no memory for a token leaves the rest of its command to the next one. -/
theorem parseRun_refused
    {c : ParseCall} (hrunning : IsRunning c.kernel c.footprint) (hmax : c.max < 1025)
    (hrefuses : RefusesMalloc c.kernel c.footprint sizeofCommandArgument)
    (htokens : tokens (strncpyString c.command.bytes 1025) ≠ []) :
    ParseRun [c] true := by
  obtain ⟨k₀, shell, rest, os, h⟩ := id hrunning
  obtain ⟨root, ps, f', sp, k', hcall, -, htaken, -⟩ :=
    h.peachosParseCommand_outcome none c.command.bytes hmax
  have hps : ps.length = 0 := htaken.nothing.mpr (Or.inr hrefuses)
  have hsp : sp ≠ none := fun hnone => by
    have hlength := htaken.whole.mp hnone
    rw [hps] at hlength
    exact htokens (List.length_eq_zero_iff.mp hlength.symm)
  have hrun := @ParseRun.snoc [] false c none _ _ _ ParseRun.nil hrunning rfl hcall
  rw [Option.isSome_iff_ne_none.mpr hsp] at hrun
  exact hrun

/-- A shell that has been loaded into the last memory. -/
theorem exists_shell_outOfMemory :
    ∃ k f, IsRunning k f ∧ RefusesMalloc k f sizeofCommandArgument := by
  have hinv : (blank 1040).pool.Inv := Pool.packed_inv (by decide)
  obtain ⟨shell, k, hload, hnone⟩ := @processLoadForSlot_oneByte (blank 1040) 0 0
    (Pool.packed_hasSpace (by decide)) hinv rfl (Or.inl rfl)
  obtain ⟨f, os, hloaded⟩ := processLoadForSlot_loaded (fun _ _ => True) hinv hload
    fun _ _ _ k₂ f _ _ _ _ _ => Leads.any k₂ f
  exact ⟨_, f, ⟨_, shell, _, _, hloaded.running⟩,
    Or.inl (Pool.HasSpace.refuses hnone sizeofCommandArgument)⟩

/-- Behind `a b`, which there was no memory for, `c` can return the `b`. -/
theorem parsesIndependently_false : ¬ ParsesIndependently := by
  intro hall
  let c : CString := ⟨[99], by decide⟩
  let b : CString := ⟨[98], by decide⟩
  obtain ⟨ss, hss⟩ := hall c 1024
  obtain ⟨k, f, hrunning, hroom⟩ := exists_shell_room
  obtain ⟨k₁, f₁, hrunning₁, hrefuses⟩ := exists_shell_outOfMemory
  have hbroken : ParseRun [⟨⟨[97, space, 98], by decide⟩, 1024, k₁, f₁⟩] true :=
    parseRun_refused hrunning₁ (show (1024 : Int) < 1025 by decide) hrefuses
      (show tokens (strncpyString [97, space, 98] 1025) ≠ [] by decide)
  have hfirst := hss [] false ParseRun.nil none k f rfl hrunning hroom
  have hsecond := hss _ true hbroken (some b) k f rfl hrunning hroom
  have hc := (hfirst [[99]]).mp
    ((@IsRunning.returnsList_iff k f none c 1024 hrunning hroom _).mpr rfl)
  have hb := (hsecond [[98]]).mp
    ((@IsRunning.returnsList_iff k f (some b) c 1024 hrunning hroom _).mpr rfl)
  exact absurd (hc.trans hb.symm) (by decide)

end Kernel

end PeachOS
