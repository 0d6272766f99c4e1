import Mathlib.Data.List.Basic

/-!
# Programs that look entries up

A program that asks a table for entries, one after the other, each question
chosen from the answers so far.  What it returns and what it asks for are
functions of the table.
-/

namespace PeachOS
namespace Lib

inductive Lookup (Q A α : Type) : Type
  | done (result : α)
  | ask (question : Q) (next : A → Lookup Q A α)

namespace Lookup

variable {Q A α : Type}

/-- The result, with answers that may fail. -/
def run {ε : Type} (answer : Q → Except ε A) : Lookup Q A α → Except ε α
  | done result => .ok result
  | ask question next =>
      match answer question with
      | .error e => .error e
      | .ok a => run answer (next a)

/-- The result on a table. -/
def eval (table : Q → A) : Lookup Q A α → α
  | done result => result
  | ask question next => eval table (next (table question))

/-- The questions asked of a table, in order. -/
def asked (table : Q → A) : Lookup Q A α → List Q
  | done _ => []
  | ask question next => question :: asked table (next (table question))

theorem run_ok
    {ε : Type} (table : Q → A) (program : Lookup Q A α) :
    program.run (fun q => (.ok (table q) : Except ε A)) = .ok (program.eval table) := by
  induction program with
  | done result => rfl
  | ask question next ih => exact ih (table question)

end Lookup

end Lib
end PeachOS
