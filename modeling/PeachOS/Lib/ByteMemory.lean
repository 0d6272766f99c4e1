import Mathlib.Data.BitVec
import Mathlib.Tactic.Common

/-!
# Words in a memory of bytes

A memory has a byte at each of the `2^32` addresses, and a word takes four of
them, the low byte first.  A store changes the words that overlap it; `Words`
is the view of a stack, a list of words at consecutive addresses.
-/

namespace PeachOS
namespace Lib

abbrev Memory := BitVec 32 → BitVec 8

def load32 (m : Memory) (a : BitVec 32) : BitVec 32 :=
  m (a + 3) ++ m (a + 2) ++ m (a + 1) ++ m a

def store32 (m : Memory) (a v : BitVec 32) : Memory :=
  fun b => if (b - a).toNat < 4 then v.extractLsb' (8 * (b - a).toNat) 8 else m b

/-- `memset` of `n` bytes. -/
def fill (m : Memory) (a : BitVec 32) (c : BitVec 8) (n : Nat) : Memory :=
  fun b => if (b - a).toNat < n then c else m b

/-- Four bytes at `a` end before `b`. -/
def Below (a b : BitVec 32) : Prop := a.toNat + 4 ≤ b.toNat

/-- A word is made of its four bytes. -/
theorem append_bytes
    (v : BitVec 32) :
    v.extractLsb' (8 * 3) 8 ++ v.extractLsb' (8 * 2) 8 ++ v.extractLsb' (8 * 1) 8 ++
      v.extractLsb' (8 * 0) 8 = v := by
  have h32 : v.extractLsb' (8 * 3) 8 ++ v.extractLsb' (8 * 2) 8 =
      v.extractLsb' (8 * 2) (8 + 8) :=
    BitVec.extractLsb'_append_extractLsb'_eq_extractLsb' rfl
  have h21 : v.extractLsb' (8 * 2) (8 + 8) ++ v.extractLsb' (8 * 1) 8 =
      v.extractLsb' (8 * 1) (8 + 8 + 8) :=
    BitVec.extractLsb'_append_extractLsb'_eq_extractLsb' rfl
  have h10 : v.extractLsb' (8 * 1) (8 + 8 + 8) ++ v.extractLsb' (8 * 0) 8 =
      v.extractLsb' (8 * 0) (8 + 8 + 8 + 8) :=
    BitVec.extractLsb'_append_extractLsb'_eq_extractLsb' rfl
  rw [h32, h21, h10]
  exact BitVec.extractLsb'_eq_self

/-- A byte of a word that is read from memory. -/
theorem extractLsb'_load32
    (m : Memory) (a : BitVec 32) {i : Nat} (hi : i < 4) :
    (load32 m a).extractLsb' (8 * i) 8 = m (a + BitVec.ofNat 32 i) := by
  have hbit (b₃ b₂ b₁ b₀ : BitVec 8) (j : Nat) : (b₃ ++ b₂ ++ b₁ ++ b₀).getLsbD j =
      if j < 8 then b₀.getLsbD j else if j < 16 then b₁.getLsbD (j - 8) else
        if j < 24 then b₂.getLsbD (j - 16) else b₃.getLsbD (j - 24) := by
    rw [BitVec.getLsbD_append, BitVec.getLsbD_append, BitVec.getLsbD_append]
    grind
  refine BitVec.eq_of_getLsbD_eq fun j hj => ?_
  rw [BitVec.getLsbD_extractLsb', load32]
  refine (congrArg (decide (j < 8) && ·) (hbit _ _ _ _ (8 * i + j))).trans ?_
  have hcases : i = 0 ∨ i = 1 ∨ i = 2 ∨ i = 3 := by omega
  rcases hcases with rfl | rfl | rfl | rfl
  · simp [hj]
  · simp [hj]
    grind
  · simp [hj]
    grind
  · simp [hj]
    grind

theorem load32_store32_same
    (m : Memory) (a v : BitVec 32) :
    load32 (store32 m a v) a = v := by
  have h (k : BitVec 32) : a + k - a = k := by
    rw [BitVec.add_comm, BitVec.add_sub_cancel]
  have h0 : a - a = 0 := BitVec.sub_self a
  have hbyte (i : Nat) (hi : i < 4) (b : BitVec 32) (hb : (b - a).toNat = i) :
      store32 m a v b = v.extractLsb' (8 * i) 8 := by
    rw [store32, hb, if_pos hi]
  rw [load32, hbyte 3 (by omega) _ (by rw [h]; rfl), hbyte 2 (by omega) _ (by rw [h]; rfl),
    hbyte 1 (by omega) _ (by rw [h]; rfl), hbyte 0 (by omega) _ (by rw [h0]; rfl)]
  exact append_bytes v

theorem store32_store32_same
    (m : Memory) (a v w : BitVec 32) :
    store32 (store32 m a v) a w = store32 m a w := by
  funext b
  unfold store32
  split_ifs with hb
  · rfl
  · rfl

/-- A word is read from its four bytes. -/
theorem load32_congr
    {m m' : Memory} {a : BitVec 32}
    (h : ∀ b : BitVec 32, (b - a).toNat < 4 → m' b = m b) :
    load32 m' a = load32 m a := by
  have hk (k : BitVec 32) : a + k - a = k := by
    rw [BitVec.add_comm, BitVec.add_sub_cancel]
  have h0 : a - a = 0 := BitVec.sub_self a
  rw [load32, load32, h (a + 3) (by rw [hk]; decide), h (a + 2) (by rw [hk]; decide),
    h (a + 1) (by rw [hk]; decide), h a (by rw [h0]; decide)]

theorem store32_of_ge
    (m : Memory) {a b : BitVec 32} (v : BitVec 32)
    (h : Below a b) :
    store32 m a v b = m b := by
  refine if_neg ?_
  rw [Below] at h
  rw [BitVec.toNat_sub_of_le (BitVec.le_def.mpr (by omega))]
  omega

/-- A byte that is not one of the four keeps its value. -/
theorem store32_of_lt
    (m : Memory) {a b : BitVec 32} (v : BitVec 32)
    (ha : a.toNat + 4 ≤ 2 ^ 32) (h : b.toNat < a.toNat) :
    store32 m a v b = m b := by
  refine if_neg ?_
  rw [BitVec.toNat_sub]
  omega

theorem toNat_of_sub_lt
    {a b : BitVec 32} {n : Nat}
    (hb : (b - a).toNat < n) (ha : a.toNat + n ≤ 2 ^ 32) :
    a.toNat ≤ b.toNat ∧ b.toNat < a.toNat + n := by
  rw [BitVec.toNat_sub] at hb
  omega

/-- A word above a store keeps its value. -/
theorem load32_store32_of_ge
    (m : Memory) {a b : BitVec 32} (v : BitVec 32)
    (h : Below a b) (hb : b.toNat + 4 ≤ 2 ^ 32) :
    load32 (store32 m a v) b = load32 m b := by
  refine load32_congr fun c hc => store32_of_ge m v ?_
  have := (toNat_of_sub_lt hc hb).1
  rw [Below] at *
  omega

/-- A word below a store keeps its value. -/
theorem load32_store32_of_le
    (m : Memory) {a b : BitVec 32} (v : BitVec 32)
    (h : Below b a) (ha : a.toNat + 4 ≤ 2 ^ 32) :
    load32 (store32 m a v) b = load32 m b := by
  rw [Below] at h
  refine load32_congr fun c hc => store32_of_lt m v ha ?_
  have := (toNat_of_sub_lt hc (by omega)).2
  omega

theorem fill_of_not_mem
    (m : Memory) {a b : BitVec 32} (c : BitVec 8) {n : Nat}
    (ha : a.toNat + n ≤ 2 ^ 32) (hb : b.toNat < a.toNat ∨ a.toNat + n ≤ b.toNat) :
    fill m a c n b = m b := by
  refine if_neg fun hlt => ?_
  have := toNat_of_sub_lt hlt ha
  omega

/-- A word of zeroed memory is zero. -/
theorem load32_fill_zero
    (m : Memory) {a b : BitVec 32} {n : Nat}
    (ha : a.toNat ≤ b.toNat) (hb : b.toNat + 4 ≤ a.toNat + n) (hroom : b.toNat + 4 ≤ 2 ^ 32) :
    load32 (fill m a 0 n) b = 0 := by
  have hzero : load32 (fun _ => 0) b = 0 := by
    rw [load32]
    decide
  rw [← hzero]
  refine load32_congr fun c hc => if_pos ?_
  have := toNat_of_sub_lt hc hroom
  rw [BitVec.toNat_sub_of_le (BitVec.le_def.mpr (by omega))]
  omega

/-- The words `vs` stand at `a` and the addresses behind it. -/
def Words (m : Memory) : BitVec 32 → List (BitVec 32) → Prop
  | _, [] => True
  | a, v :: vs => load32 m a = v ∧ Words m (a + 4) vs

theorem Words.congr
    {m m' : Memory} {a : BitVec 32} {vs : List (BitVec 32)}
    (h : Words m a vs) (hroom : a.toNat + 4 * vs.length ≤ 2 ^ 32)
    (heq : ∀ b : BitVec 32, a.toNat ≤ b.toNat → b.toNat < a.toNat + 4 * vs.length →
      m' b = m b) :
    Words m' a vs := by
  induction vs generalizing a with
  | nil => trivial
  | cons v vs ih =>
      rw [List.length_cons] at hroom heq
      refine ⟨?_, ?_⟩
      · rw [← h.1]
        refine load32_congr fun b hb => ?_
        have := toNat_of_sub_lt hb (by omega)
        exact heq b this.1 (by omega)
      · cases vs with
        | nil => trivial
        | cons w ws =>
            have h4 : (a + 4).toNat = a.toNat + 4 := by
              rw [BitVec.toNat_add]
              exact Nat.mod_eq_of_lt (by rw [List.length_cons] at hroom; change _ + 4 < _; omega)
            refine ih h.2 (by rw [h4]; omega) fun b hlo hhi => heq b ?_ ?_
            · omega
            · omega

/-- The word at a place in the list. -/
theorem Words.get
    {m : Memory} {a v : BitVec 32} {vs : List (BitVec 32)} {i : Nat}
    (h : Words m a vs) (hi : vs[i]? = some v) :
    load32 m (a + BitVec.ofNat 32 (4 * i)) = v := by
  induction vs generalizing a i with
  | nil => cases hi
  | cons w vs ih =>
      cases i with
      | zero =>
          cases hi
          rw [Nat.mul_zero, BitVec.add_zero]
          exact h.1
      | succ i =>
          have hadd : a + BitVec.ofNat 32 (4 * (i + 1)) = a + 4 + BitVec.ofNat 32 (4 * i) := by
            rw [BitVec.add_assoc, Nat.mul_succ, Nat.add_comm, BitVec.ofNat_add]
            rfl
          rw [hadd]
          exact ih h.2 hi

theorem toNat_sub_four
    {a : BitVec 32}
    (h : 4 ≤ a.toNat) :
    (a - 4).toNat = a.toNat - 4 :=
  BitVec.toNat_sub_of_le (show (4 : BitVec 32) ≤ a from h)

/-- A push puts one more word in front. -/
theorem Words.push
    {m : Memory} {a : BitVec 32} {vs : List (BitVec 32)}
    (h : Words m a vs) (hlo : 4 ≤ a.toNat) (hroom : a.toNat + 4 * vs.length ≤ 2 ^ 32)
    (v : BitVec 32) :
    Words (store32 m (a - 4) v) (a - 4) (v :: vs) := by
  refine ⟨load32_store32_same m (a - 4) v, ?_⟩
  rw [BitVec.sub_add_cancel]
  refine h.congr hroom fun b hb _ => store32_of_ge m v ?_
  rw [Below, toNat_sub_four hlo]
  omega

end Lib
end PeachOS
