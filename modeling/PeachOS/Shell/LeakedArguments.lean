import PeachOS.Shell.UncopiedCommand

/-!
# What a command leaves allocated

Nothing frees the list that `peachos_parse_command` builds: every argument of a
command stays an allocation of the process that has given it.
-/

namespace PeachOS

open Lib

namespace Kernel

/-- Commands that a process has given, whether they have left `sp` set, and the live allocations
of the process before and behind them. -/
inductive SystemRuns (load : Loader) (fuel : Nat) (shell : Ptr) (n : Nat) :
    List ShellCall → Bool → Nat → Prop
  | nil : SystemRuns load fuel shell n [] false n
  | snoc {calls : List ShellCall} {left : Bool} {c : ShellCall} {k₀ k : Kernel}
      {rest os : List Ptr} {handled : Handled} {sp : Option (List Byte)} {record : ProcessRecord}
      (h : SystemRuns load fuel shell n calls left (allocated c.footprint.record).length)
      (hrunning : Running k₀ shell c.footprint rest os c.kernel) (hbuf : c.buf.length = 1024)
      (hstale : c.stale.isSome = left) (hcall : c.run load fuel = .ok (handled, sp, k))
      (hrecord : k.records shell = some record) :
      SystemRuns load fuel shell n (calls ++ [c]) sp.isSome (allocated record).length

/-- No command changes the number of live allocations. -/
def CommandsLeakNothing : Prop :=
  ∀ load fuel shell n calls left m, SystemRuns load fuel shell n calls left m → m = n

/-- A command leaves the number of allocations as it is exactly when it builds no list. -/
theorem ShellCall.leaks_iff
    {c : ShellCall} {k₀ k : Kernel} {shell : Ptr} {rest os : List Ptr} {load : Loader} {fuel : Nat}
    {handled : Handled} {sp : Option (List Byte)} {record : ProcessRecord}
    (h : Running k₀ shell c.footprint rest os c.kernel) (hbuf : c.buf.length = 1024)
    (hcall : c.run load fuel = .ok (handled, sp, k)) (hrecord : k.records shell = some record) :
    (allocated record).length = (allocated c.footprint.record).length ↔ c.BuildsNothing := by
  obtain ⟨answer, sp', k', f', hrun, -, hrecord', -, hnothing⟩ :=
    ShellCall.outcome h hbuf (ShellCall.mem_of_returns hbuf hcall) load fuel
  cases hrun.symm.trans hcall
  cases hrecord'.symm.trans hrecord
  exact hnothing

/-- Commands that build no list leave the number of allocations as it is. -/
theorem systemRuns_allocations_eq
    {load : Loader} {fuel n m : Nat} {shell : Ptr} {calls : List ShellCall} {left : Bool}
    (h : SystemRuns load fuel shell n calls left m) (hall : ∀ c ∈ calls, c.BuildsNothing) :
    m = n := by
  induction h with
  | nil => rfl
  | @snoc calls left c k₀ k rest os handled sp record _ hrunning hbuf _ hcall hrecord ih =>
      have hn := ih fun c' hc' => hall c' (List.mem_append_left _ hc')
      have hnothing : c.BuildsNothing :=
        hall c (List.mem_append_right _ (List.mem_singleton_self c))
      rw [(ShellCall.leaks_iff hrunning hbuf hcall hrecord).mpr hnothing, hn]

/-- A blank line that is typed at a shell with memory to spare, on whose stack `word` stands where
`scommand` is. -/
theorem exists_systemRuns
    (word : List Byte) :
    ∃ c shell left m, c.command.bytes = [space] ∧ c.scommand = word ++ List.replicate 1024 0 ∧
      c.stale = none ∧ ¬ RefusesMalloc c.kernel c.footprint sizeofCommandArgument ∧
      SystemRuns (oneProgram [97] oneByte) 2 shell 0 [c] left m ∧ (m = 0 ↔ c.BuildsNothing) := by
  obtain ⟨k₀, shell, f, os, k, hrunning, hspace, hnone, -⟩ := exists_shell
  let c : ShellCall :=
    ⟨⟨[space], by decide⟩, List.replicate 1024 0, word ++ List.replicate 1024 0, [], none, k, f⟩
  have hgives : ¬ RefusesMalloc k f sizeofCommandArgument := by
    refine not_or.mpr ⟨(hspace.kmalloc (by decide) (by decide)).1, ?_⟩
    rw [hnone]
    decide
  have hbuf : c.buf.length = 1024 := List.length_replicate
  have hnul : c.stale = none → 0 ∈ c.scommand :=
    fun _ => List.mem_append_right _ (List.mem_replicate.mpr ⟨by decide, rfl⟩)
  have hempty : (allocated c.footprint.record).length = 0 := by
    rw [show allocated c.footprint.record = [] from hnone, List.length_nil]
  obtain ⟨answer, sp, k', f', hcall, -, hrecord, -, hnothing⟩ :=
    ShellCall.outcome hrunning hbuf hnul (oneProgram [97] oneByte) 2
  have hnil : SystemRuns (oneProgram [97] oneByte) 2 shell 0 [] false
      (allocated c.footprint.record).length := by
    rw [hempty]
    exact SystemRuns.nil
  have hruns := SystemRuns.snoc hnil hrunning hbuf rfl hcall hrecord
  rw [hempty] at hnothing
  exact ⟨c, shell, _, _, rfl, rfl, rfl, hgives, hruns, hnothing⟩

/-- The stack is clear where `scommand` is. -/
theorem systemRuns_allocations_eq_clearStack :
    ∃ c shell left m, c.scommand = List.replicate 1024 0 ∧
      SystemRuns (oneProgram [97] oneByte) 2 shell 0 [c] left m ∧ m = 0 := by
  obtain ⟨c, shell, left, m, -, hword, hstale, -, hruns, -⟩ := exists_systemRuns []
  have hnothing : c.BuildsNothing := by
    refine Or.inl ?_
    rw [ShellCall.string, hstale, hword]
    rfl
  exact ⟨c, shell, left, m, hword, hruns,
    systemRuns_allocations_eq hruns fun c' hc' => List.mem_singleton.mp hc' ▸ hnothing⟩

/-- A `b` has been left on the stack where `scommand` is. -/
theorem commandsLeakNothing_false : ¬ CommandsLeakNothing := by
  intro hall
  obtain ⟨c, shell, left, m, -, hword, hstale, hgives, hruns, hnothing⟩ := exists_systemRuns [98]
  have htokens : tokens c.string = [[98]] := by
    rw [ShellCall.string, hstale, hword]
    rfl
  rcases hnothing.mp (hall _ _ _ _ _ _ _ hruns) with hnil | hrefuses
  · rw [htokens] at hnil
    exact absurd hnil (List.cons_ne_nil _ _)
  · exact hgives hrefuses

end Kernel

end PeachOS
