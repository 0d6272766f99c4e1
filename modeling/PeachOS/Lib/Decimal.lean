import Mathlib.Data.BitVec
import Mathlib.Data.Nat.Digits.Lemmas

/-!
# Decimal numbers in ASCII

The digits of a number, the canonical form of an integer with its sign, and the
value of a string of digits.  A canonical form is determined by its value.
-/

namespace PeachOS
namespace Lib

def digitByte (d : Nat) : BitVec 8 := BitVec.ofNat 8 (48 + d)

/-- The digits of a number, none of them for 0. -/
def digitBytes (n : Nat) : List (BitVec 8) := ((Nat.digits 10 n).map digitByte).reverse

def decimalNat (n : Nat) : List (BitVec 8) := if n = 0 then [48] else digitBytes n

def decimal (i : Int) : List (BitVec 8) :=
  (if i < 0 then [45] else []) ++ decimalNat i.natAbs

/-- The value of a string of digits. -/
def readDigits (s : List (BitVec 8)) : Nat :=
  Nat.ofDigits 10 (s.reverse.map fun c => c.toNat - 48)

def readDecimal (s : List (BitVec 8)) : Int :=
  if s.head? = some 45 then -(readDigits s.tail : Int) else readDigits s

/-- Digits of which the first one is 0 only if it is the only one. -/
structure CanonicalDigits (s : List (BitVec 8)) : Prop where
  ne_nil : s ≠ []
  digit : ∀ c ∈ s, 48 ≤ c.toNat ∧ c.toNat ≤ 57
  leading : s.head? = some 48 → s = [48]

/-- The canonical form of an integer: canonical digits, behind a sign exactly if
it is negative. -/
def IsDecimal (i : Int) (s : List (BitVec 8)) : Prop :=
  ∃ ds, s = (if i < 0 then [45] else []) ++ ds ∧ CanonicalDigits ds ∧ readDigits ds = i.natAbs

theorem toNat_digitByte
    {d : Nat} (h : d < 10) :
    (digitByte d).toNat = 48 + d := by
  rw [digitByte, BitVec.toNat_ofNat]
  omega

theorem digitByte_eq_zero_iff
    {d : Nat} (h : d < 10) :
    digitByte d = 48 ↔ d = 0 := by
  constructor
  · intro heq
    have hnat := congrArg BitVec.toNat heq
    rw [toNat_digitByte h] at hnat
    change 48 + d = 48 at hnat
    omega
  · rintro rfl
    rfl

theorem lt_ten_of_mem
    {n d : Nat} (h : d ∈ Nat.digits 10 n) :
    d < 10 :=
  Nat.digits_lt_base (by decide) h

theorem digitBytes_zero : digitBytes 0 = [] := by
  rw [digitBytes, Nat.digits_zero]
  rfl

/-- The last digit comes off the end. -/
theorem digitBytes_of_ne_zero
    {n : Nat} (h : n ≠ 0) :
    digitBytes n = digitBytes (n / 10) ++ [digitByte (n % 10)] := by
  rw [digitBytes, Nat.digits_def' (by decide) (Nat.pos_of_ne_zero h), List.map_cons,
    List.reverse_cons, digitBytes]

theorem length_digitBytes_le_iff
    {n k : Nat} :
    (digitBytes n).length ≤ k ↔ n < 10 ^ k := by
  rw [digitBytes, List.length_reverse, List.length_map]
  exact Nat.digits_length_le_iff (by decide) n

/-- The value of the digits is the number. -/
theorem readDigits_digitBytes (n : Nat) : readDigits (digitBytes n) = n := by
  have hvalues : ((digitBytes n).reverse.map fun c => c.toNat - 48) = Nat.digits 10 n := by
    rw [digitBytes, List.reverse_reverse, List.map_map]
    refine (List.map_congr_left fun d hd => ?_).trans (List.map_id _)
    rw [Function.comp_apply, toNat_digitByte (lt_ten_of_mem hd)]
    exact Nat.add_sub_cancel_left 48 d
  rw [readDigits, hvalues, Nat.ofDigits_digits]

theorem canonicalDigits_digitBytes
    {n : Nat} (h : n ≠ 0) :
    CanonicalDigits (digitBytes n) where
  ne_nil := by
    rw [digitBytes_of_ne_zero h]
    exact List.concat_ne_nil _ _
  digit := by
    intro c hc
    rw [digitBytes, List.mem_reverse] at hc
    obtain ⟨d, hd, rfl⟩ := List.mem_map.mp hc
    have hlt := lt_ten_of_mem hd
    rw [toNat_digitByte hlt]
    omega
  leading := by
    intro hhead
    have hne : Nat.digits 10 n ≠ [] := Nat.digits_ne_nil_iff_ne_zero.mpr h
    rw [digitBytes, List.head?_reverse, List.getLast?_map, List.getLast?_eq_getLast_of_ne_nil hne,
      Option.map_some, Option.some.injEq,
      digitByte_eq_zero_iff (lt_ten_of_mem (List.getLast_mem hne))] at hhead
    exact absurd hhead (Nat.getLast_digit_ne_zero 10 h)

theorem canonicalDigits_decimalNat (n : Nat) : CanonicalDigits (decimalNat n) := by
  rw [decimalNat]
  split_ifs with h
  · exact ⟨List.cons_ne_nil _ _, by decide, fun _ => rfl⟩
  · exact canonicalDigits_digitBytes h

theorem readDigits_decimalNat (n : Nat) : readDigits (decimalNat n) = n := by
  rw [decimalNat]
  split_ifs with h
  · rw [h]
    rfl
  · exact readDigits_digitBytes n

theorem zero_not_mem_decimal (i : Int) : 0 ∉ decimal i := by
  intro h
  rcases List.mem_append.mp h with hsign | hdigits
  · split_ifs at hsign
    · exact absurd hsign (by decide)
    · cases hsign
  · have hdigit := ((canonicalDigits_decimalNat i.natAbs).digit 0 hdigits).1
    change 48 ≤ 0 at hdigit
    omega

theorem CanonicalDigits.head?_ne_sign
    {s : List (BitVec 8)} (h : CanonicalDigits s) :
    s.head? ≠ some 45 := by
  intro hhead
  have hdigit := (h.digit 45 (List.mem_of_mem_head? hhead)).1
  change 48 ≤ 45 at hdigit
  omega

section Form

variable {i : Int} {s s' : List (BitVec 8)}

/-- The sign is there exactly for a negative number. -/
theorem IsDecimal.sign_iff
    (h : IsDecimal i s) :
    s.head? = some 45 ↔ i < 0 := by
  obtain ⟨ds, rfl, hds, -⟩ := h
  split_ifs with hneg
  · exact iff_of_true rfl hneg
  · exact iff_of_false hds.head?_ne_sign hneg

/-- What is read of the canonical form. -/
theorem IsDecimal.readDecimal
    (h : IsDecimal i s) :
    readDecimal s = i := by
  have hsign := h.sign_iff
  obtain ⟨ds, rfl, -, hvalue⟩ := h
  rw [Lib.readDecimal]
  split_ifs at hsign ⊢ with hneg hhead hhead
  · rw [List.singleton_append, List.tail_cons, hvalue]
    omega
  · exact absurd rfl hhead
  · exact absurd (hsign.mp hhead) hneg
  · rw [List.nil_append, hvalue]
    omega

/-- Digits without a leading zero are those of their value. -/
theorem CanonicalDigits.eq_decimalNat
    (h : CanonicalDigits s) :
    s = decimalNat (readDigits s) := by
  have hbyte (c : BitVec 8) (hc : c ∈ s) : digitByte (c.toNat - 48) = c := by
    have hdigit := h.digit c hc
    refine BitVec.eq_of_toNat_eq ?_
    rw [toNat_digitByte (by omega)]
    omega
  have hback : ((s.reverse.map fun c => c.toNat - 48).map digitByte).reverse = s := by
    rw [List.map_map, ← List.map_reverse, List.reverse_reverse]
    exact (List.map_congr_left hbyte).trans (List.map_id s)
  by_cases hzero : s = [48]
  · rw [hzero]
    rfl
  · have hlast (hne : (s.reverse.map fun c => c.toNat - 48) ≠ []) :
        (s.reverse.map fun c => c.toNat - 48).getLast hne ≠ 0 := by
      obtain ⟨c, cs, rfl⟩ := List.exists_cons_of_ne_nil h.ne_nil
      simp only [List.reverse_cons, List.map_append, List.map_cons, List.map_nil,
        List.getLast_append_singleton]
      intro hsub
      have hdigit := h.digit c List.mem_cons_self
      exact hzero (h.leading (congrArg some (BitVec.eq_of_toNat_eq (show c.toNat = 48 by omega))))
    have hdigits : Nat.digits 10 (readDigits s) = s.reverse.map fun c => c.toNat - 48 := by
      refine Nat.digits_ofDigits 10 (by decide) _ (fun d hd => ?_) hlast
      obtain ⟨c, hc, rfl⟩ := List.mem_map.mp hd
      have hdigit := h.digit c (List.mem_reverse.mp hc)
      omega
    have hne : readDigits s ≠ 0 := by
      rw [← Nat.digits_ne_nil_iff_ne_zero (b := 10), hdigits]
      simp [h.ne_nil]
    rw [decimalNat, if_neg hne, digitBytes, hdigits, hback]

/-- There is one canonical form. -/
theorem IsDecimal.unique
    (h : IsDecimal i s) :
    s = decimal i := by
  obtain ⟨ds, rfl, hds, hvalue⟩ := h
  rw [decimal, ← hvalue, ← hds.eq_decimalNat]

/-- The canonical form of an integer is its decimal form. -/
theorem isDecimal_iff : IsDecimal i s ↔ s = decimal i := by
  constructor
  · exact IsDecimal.unique
  · rintro rfl
    exact ⟨decimalNat i.natAbs, rfl, canonicalDigits_decimalNat _, readDigits_decimalNat _⟩

end Form

end Lib
end PeachOS
