import PeachOS.Config
import PeachOS.Lib.Buffer
import PeachOS.Lib.CInt
import PeachOS.Lib.Decimal

/-!
# `itoa`

`itoa` of the user library writes the digits of a number from the end of a static
buffer of 12 bytes towards its start.  A store outside the buffer and a signed
overflow are faults.
-/

namespace PeachOS
namespace Stdlib

open Lib

/-- `sizeof(text)`. -/
def sizeofText : Nat := 12

/-- `text[--loc] = c`. -/
def putFront (text : List Byte) (loc : Int) (c : Byte) : Except Halt (List Byte × Int) := do
  let text ← store .fault text (loc - 1) c
  pure (text, loc - 1)

/-- `while(i)`: the buffer and `loc` behind the loop.  The number is not positive,
and `%` and `/` truncate towards 0. -/
def itoaLoop (text : List Byte) (loc i : Int) : Except Halt (List Byte × Int) :=
  if _h : i = 0 then
    .ok (text, loc)
  else do
    let digit ← checkInt .fault (48 - i.tmod 10)
    let (text, loc) ← putFront text loc (BitVec.ofInt 8 digit)
    itoaLoop text loc (i.tdiv 10)
termination_by i.natAbs
decreasing_by
  rw [Int.natAbs_tdiv]
  exact Nat.div_lt_self (Int.natAbs_pos.mpr _h) (by decide)

/-- `if(i >= 0)`: the number that the digits are taken of. -/
def notPositive (i : Int) : Except Halt Int := if 0 ≤ i then checkInt .fault (-i) else .ok i

def putZero (text : List Byte) (loc : Int) : Except Halt (List Byte × Int) :=
  if loc = 11 then putFront text loc 48 else .ok (text, loc)

def putSign (neg : Bool) (text : List Byte) (loc : Int) : Except Halt (List Byte × Int) :=
  if neg then putFront text loc 45 else .ok (text, loc)

/-- The static buffer behind the call, and the index in it of what is returned. -/
def itoa (text : List Byte) (i : Int) : Except Halt (List Byte × Int) := do
  let text ← store .fault text 11 0
  let neg := ¬ 0 ≤ i
  let i ← notPositive i
  let (text, loc) ← itoaLoop text 11 i
  let (text, loc) ← putZero text loc
  putSign neg text loc

theorem itoaLoop_zero (text : List Byte) (loc : Int) : itoaLoop text loc 0 = .ok (text, loc) := by
  rw [itoaLoop, dif_pos rfl]

/-- The remainder of a number that is not positive is the last digit, negated. -/
theorem digit_neg (n : Nat) :
    checkInt Halt.fault (48 - (-(n : Int)).tmod 10) = .ok (48 + (n % 10 : Nat)) := by
  have hmod : (-(n : Int)).tmod 10 = -((n % 10 : Nat) : Int) := by
    rw [Int.neg_tmod]
    rfl
  rw [hmod, checkInt_of_isInt Halt.fault (isInt_of_bounds (by omega) (by omega))]
  exact congrArg Except.ok (by omega)

theorem putFront_append
    (before : List Byte) (old : Byte) (text : List Byte) (c : Byte) :
    putFront (before ++ [old] ++ text) (before ++ [old]).length c =
      .ok (before ++ c :: text, (before.length : Int)) := by
  have hindex : (((before ++ [old]).length : Nat) : Int) - 1 = (before.length : Nat) := by
    rw [List.length_append, List.length_singleton]
    omega
  rw [putFront, hindex, List.append_assoc, List.singleton_append, store_append_cons]
  rfl

/-- The digits are written in front of what stands in the buffer, as far as there
is room for them. -/
theorem itoaLoop_neg
    (before : List Byte) (text : List Byte) (n : Nat)
    (hroom : (digitBytes n).length ≤ before.length) :
    ∃ before', before'.length + (digitBytes n).length = before.length ∧
      itoaLoop (before ++ text) before.length (-(n : Int)) =
        .ok (before' ++ (digitBytes n ++ text), (before'.length : Int)) := by
  induction n using Nat.strong_induction_on generalizing before text with
  | _ n ih =>
      by_cases hn : n = 0
      · subst hn
        rw [Nat.cast_zero, neg_zero, itoaLoop_zero, digitBytes_zero]
        exact ⟨before, rfl, rfl⟩
      · have hdigits := digitBytes_of_ne_zero hn
        have hlength : (digitBytes n).length = (digitBytes (n / 10)).length + 1 := by
          rw [hdigits, List.length_append, List.length_singleton]
        obtain rfl | ⟨before, old, rfl⟩ := before.eq_nil_or_concat'
        · rw [hlength] at hroom
          exact absurd hroom (Nat.not_succ_le_zero _)
        · have hquotient : (-(n : Int)).tdiv 10 = -((n / 10 : Nat) : Int) := by
            rw [Int.neg_tdiv]
            rfl
          have hbyte : BitVec.ofInt 8 (48 + (n % 10 : Nat)) = digitByte (n % 10) := rfl
          have hbefore : (before ++ [old]).length = before.length + 1 := by
            rw [List.length_append, List.length_singleton]
          obtain ⟨before', hlength', hloop⟩ := ih (n / 10)
            (Nat.div_lt_self (Nat.pos_of_ne_zero hn) (by decide)) before
            (digitByte (n % 10) :: text) (by omega)
          refine ⟨before', by omega, ?_⟩
          rw [itoaLoop, dif_neg (by omega), digit_neg, ok_bind, hbyte, putFront_append, ok_bind]
          dsimp only
          rw [hquotient, hloop, hdigits, List.append_assoc]
          rfl

theorem isInt_toInt (i : BitVec 32) : IsInt i.toInt := by
  have hlo := BitVec.le_toInt i
  have hhi := BitVec.toInt_lt (x := i)
  exact ⟨by omega, by omega⟩

theorem notPositive_eq
    {i : Int} (hi : IsInt i) :
    notPositive i = .ok (-(i.natAbs : Int)) := by
  obtain ⟨hlo, hhi⟩ := hi
  rw [notPositive]
  split_ifs with hpos
  · rw [checkInt_of_isInt _ ⟨by omega, by omega⟩]
    exact congrArg Except.ok (by omega)
  · exact congrArg Except.ok (by omega)

theorem length_decimalNat_le
    {n : Nat} (h : n ≤ 2147483648) :
    (decimalNat n).length ≤ 10 := by
  rw [decimalNat]
  split_ifs
  · decide
  · rw [length_digitBytes_le_iff]
    omega

/-- The digits, with the one of 0, in front of the NUL. -/
theorem itoaLoop_putZero
    {text : List Byte} (htext : text.length = 11) {n : Nat} (hn : n ≤ 2147483648) :
    ∃ before, before.length + (decimalNat n).length = 11 ∧
      ∃ text' loc, itoaLoop (text ++ [0]) 11 (-(n : Int)) = .ok (text', loc) ∧
        putZero text' loc = .ok (before ++ (decimalNat n ++ [0]), (before.length : Int)) := by
  by_cases h0 : n = 0
  · subst h0
    obtain rfl | ⟨before, old, rfl⟩ := text.eq_nil_or_concat'
    · cases htext
    · have hput := putFront_append before old [0] 48
      rw [htext] at hput
      rw [List.length_append, List.length_singleton] at htext
      rw [Nat.cast_zero, neg_zero, itoaLoop_zero]
      exact ⟨before, htext, _, _, rfl, (if_pos rfl).trans hput⟩
  · have hlength := length_decimalNat_le hn
    rw [decimalNat, if_neg h0] at hlength ⊢
    have hpos : (digitBytes n).length ≠ 0 := by
      rw [digitBytes_of_ne_zero h0, List.length_append, List.length_singleton]
      omega
    obtain ⟨before, hbefore, hloop⟩ := itoaLoop_neg text [0] n (by omega)
    rw [htext] at hbefore hloop
    exact ⟨before, hbefore, _, _, hloop, if_neg (by omega)⟩

/-- The number stands at the end of the buffer. -/
theorem itoa_spec
    {text : List Byte} (htext : text.length = sizeofText) {i : Int} (hi : IsInt i) :
    ∃ before, before.length + (decimal i).length = 11 ∧
      itoa text i = .ok (before ++ (decimal i ++ [0]), (before.length : Int)) := by
  obtain rfl | ⟨text, old, rfl⟩ := text.eq_nil_or_concat'
  · cases htext
  · rw [List.length_append, List.length_singleton] at htext
    have h11 : text.length = 11 := Nat.succ.inj htext
    have hstore : store Halt.fault (text ++ [old]) 11 0 = .ok (text ++ [0]) := by
      rw [show (11 : Int) = (text.length : Nat) by rw [h11]; rfl]
      exact store_append_cons _ text old [] 0
    have hn : i.natAbs ≤ 2147483648 := by
      obtain ⟨hlo, hhi⟩ := hi
      omega
    have hdigits := length_decimalNat_le hn
    obtain ⟨before, hbefore, text', loc, hloop, hzero⟩ := itoaLoop_putZero h11 hn
    rw [itoa, hstore, ok_bind, notPositive_eq hi, ok_bind, hloop, ok_bind]
    dsimp only
    rw [hzero, ok_bind, decimal, putSign]
    by_cases hneg : i < 0
    · obtain rfl | ⟨before, old, rfl⟩ := before.eq_nil_or_concat'
      · rw [List.length_nil] at hbefore
        omega
      · rw [if_pos hneg, if_pos (decide_eq_true (not_le.mpr hneg)), putFront_append]
        rw [List.length_append, List.length_singleton] at hbefore
        exact ⟨before, by rw [List.length_append, List.length_singleton]; omega, rfl⟩
    · rw [if_neg hneg, if_neg (by simpa using hneg)]
      exact ⟨before, hbefore, rfl⟩

/-- `itoa` returns the canonical decimal form of every `int`. -/
theorem itoa_isDecimal
    (text : List Byte) (htext : text.length = sizeofText) (i : BitVec 32) :
    ∃ (text' s : List Byte) (loc : Nat), itoa text i.toInt = .ok (text', (loc : Int)) ∧
      text'.length = sizeofText ∧ text'.drop loc = s ++ [0] ∧ IsDecimal i.toInt s ∧
      readDecimal s = i.toInt := by
  obtain ⟨before, hlength, hitoa⟩ := itoa_spec htext (isInt_toInt i)
  have hdecimal : IsDecimal i.toInt (decimal i.toInt) := isDecimal_iff.mpr rfl
  refine ⟨_, decimal i.toInt, before.length, hitoa, ?_, List.drop_left, hdecimal,
    hdecimal.readDecimal⟩
  rw [List.length_append, List.length_append, ← Nat.add_assoc, hlength]
  rfl

/-- The most negative number fills the buffer. -/
theorem itoa_isDecimal_minimum :
    ∃ (text' s : List Byte) (loc : Nat),
      itoa (List.replicate 12 0) (BitVec.intMin 32).toInt = .ok (text', (loc : Int)) ∧
        text'.length = sizeofText ∧ text'.drop loc = s ++ [0] ∧
        IsDecimal (BitVec.intMin 32).toInt s ∧ readDecimal s = (BitVec.intMin 32).toInt :=
  itoa_isDecimal (List.replicate 12 0) rfl (BitVec.intMin 32)

end Stdlib
end PeachOS
