import Mathlib.Data.List.Basic
import PeachOS.Config

/-!
# Strings of the kernel

The functions of `string.c` that file names and modes are compared with.  A C
string is the list of its bytes before the terminating NUL.
-/

namespace PeachOS

structure CString where
  bytes : List Byte
  noNul : (0 : Byte) ∉ bytes

/-- `char` is signed: a byte from 0x80 on is negative, and no letter. -/
def tolower (s1 : Byte) : Byte :=
  if 65 ≤ s1.toInt ∧ s1.toInt ≤ 90 then s1 + 32 else s1

def istrncmp : List Byte → List Byte → Nat → Int
  | _, _, 0 => 0
  | s1, s2, n + 1 =>
      let u1 := s1.headD 0
      let u2 := s2.headD 0
      if u1 ≠ u2 ∧ tolower u1 ≠ tolower u2 then
        (u1.toNat : Int) - u2.toNat
      else if u1 = 0 then
        0
      else
        istrncmp s1.tail s2.tail n

def strncmp : List Byte → List Byte → Nat → Int
  | _, _, 0 => 0
  | str1, str2, n + 1 =>
      let u1 := str1.headD 0
      let u2 := str2.headD 0
      if u1 ≠ u2 then
        (u1.toNat : Int) - u2.toNat
      else if u1 = 0 then
        0
      else
        strncmp str1.tail str2.tail n

theorem tolower_eq_zero_iff :
    ∀ c : Byte, tolower c = 0 ↔ c = 0 := by
  decide

/-- Two strings are equal up to the case of ASCII letters. -/
def SameUpToCase (s1 s2 : List Byte) : Prop :=
  s1.map tolower = s2.map tolower

instance (s1 s2 : List Byte) : Decidable (SameUpToCase s1 s2) :=
  inferInstanceAs (Decidable (_ = _))

theorem SameUpToCase.refl (s : List Byte) : SameUpToCase s s := rfl

theorem SameUpToCase.symm
    {s1 s2 : List Byte}
    (h : SameUpToCase s1 s2) :
    SameUpToCase s2 s1 :=
  Eq.symm h

theorem SameUpToCase.trans
    {s1 s2 s3 : List Byte}
    (h : SameUpToCase s1 s2) (h' : SameUpToCase s2 s3) :
    SameUpToCase s1 s3 :=
  Eq.trans h h'

/-- One step of the comparison finds no difference in the first bytes. -/
theorem istrncmp_succ_eq_zero_iff
    (s1 s2 : List Byte) (n : Nat) :
    istrncmp s1 s2 (n + 1) = 0 ↔
      tolower (s1.headD 0) = tolower (s2.headD 0) ∧
        (s1.headD 0 = 0 ∨ istrncmp s1.tail s2.tail n = 0) := by
  simp only [istrncmp]
  generalize s1.headD 0 = u1
  generalize s2.headD 0 = u2
  split_ifs with hdiff hend
  · refine iff_of_false ?_ (fun h => hdiff.2 h.1)
    intro h
    exact hdiff.1 (BitVec.eq_of_toNat_eq (by omega))
  · refine iff_of_true rfl ⟨?_, Or.inl hend⟩
    exact not_not.mp fun hne => hdiff ⟨fun h => hne (congrArg _ h), hne⟩
  · have hsame : tolower u1 = tolower u2 :=
      not_not.mp fun hne => hdiff ⟨fun h => hne (congrArg _ h), hne⟩
    exact ⟨fun h => ⟨hsame, Or.inr h⟩, fun h => h.2.resolve_left hend⟩

/-- A comparison of more bytes than the first string has is 0 exactly for
strings that are equal up to case. -/
theorem istrncmp_eq_zero_iff
    {s1 s2 : List Byte} {n : Nat}
    (h1 : (0 : Byte) ∉ s1) (h2 : (0 : Byte) ∉ s2) (hn : s1.length < n) :
    istrncmp s1 s2 n = 0 ↔ SameUpToCase s1 s2 := by
  induction n generalizing s1 s2 with
  | zero => omega
  | succ n ih =>
      rw [istrncmp_succ_eq_zero_iff]
      cases s1 with
      | nil =>
          cases s2 with
          | nil => simp [SameUpToCase]
          | cons u2 s2 =>
              have hu2 : u2 ≠ 0 := fun h => h2 (h ▸ List.mem_cons_self)
              refine iff_of_false ?_ (by simp [SameUpToCase])
              rintro ⟨h, -⟩
              exact hu2 ((tolower_eq_zero_iff u2).mp (h.symm.trans rfl))
      | cons u1 s1 =>
          have hu1 : u1 ≠ 0 := fun h => h1 (h ▸ List.mem_cons_self)
          cases s2 with
          | nil =>
              refine iff_of_false ?_ (by simp [SameUpToCase])
              rintro ⟨h, -⟩
              exact hu1 ((tolower_eq_zero_iff u1).mp (h.trans rfl))
          | cons u2 s2 =>
              have hrest := ih (fun h => h1 (List.mem_cons_of_mem _ h))
                (fun h => h2 (List.mem_cons_of_mem _ h)) (by simpa using hn)
              simp only [List.headD_cons, List.tail_cons, or_iff_right hu1, hrest, SameUpToCase,
                List.map_cons, List.cons.injEq]

end PeachOS
