import Mathlib.Data.List.GetD
import PeachOS.Lib.ByteMemory

/-!
# Bytes and strings in memory

What stands in memory from an address on, and what a store of some bytes or the
copy of a string that ends with a zero byte makes of it.
-/

namespace PeachOS
namespace Lib

/-- The bytes `bs` stand at `a` and the addresses behind it. -/
def BytesAt (m : Memory) (a : BitVec 32) (bs : List (BitVec 8)) : Prop :=
  ∀ i c, bs[i]? = some c → m (a + BitVec.ofNat 32 i) = c

def storeBytes (m : Memory) (a : BitVec 32) (bs : List (BitVec 8)) : Memory :=
  fun b => bs.getD (b - a).toNat (m b)

/-- The bytes of a word, the low one first. -/
def wordBytes (v : BitVec 32) : List (BitVec 8) :=
  (List.range 4).map fun i => v.extractLsb' (8 * i) 8

/-- The bytes of a half word, the low one first. -/
def halfBytes (v : BitVec 16) : List (BitVec 8) :=
  [v.extractLsb' 0 8, v.extractLsb' 8 8]

/-- The string at `a`, or its first `n` bytes. -/
def readString (m : Memory) (a : BitVec 32) : Nat → List (BitVec 8)
  | 0 => []
  | n + 1 => if m a = 0 then [] else m a :: readString m (a + 1) n

/-- The string at `src` is copied up to `n` bytes, and a zero behind them. -/
def copyString (m : Memory) (dest src : BitVec 32) : Nat → Memory
  | 0 => storeBytes m dest [0]
  | n + 1 =>
      if m src = 0 then
        storeBytes m dest [0]
      else
        copyString (storeBytes m dest [m src]) (dest + 1) (src + 1) n

section Stores

variable {m m' : Memory} {a b : BitVec 32} {bs : List (BitVec 8)}

theorem append_halfBytes
    (v : BitVec 16) :
    v.extractLsb' 8 8 ++ v.extractLsb' 0 8 = v := by
  have happend : v.extractLsb' 8 8 ++ v.extractLsb' 0 8 = v.extractLsb' 0 (8 + 8) :=
    BitVec.extractLsb'_append_extractLsb'_eq_extractLsb' rfl
  rw [happend]
  exact BitVec.extractLsb'_eq_self

theorem add_ofNat_succ (a : BitVec 32) (i : Nat) :
    a + BitVec.ofNat 32 (i + 1) = a + 1 + BitVec.ofNat 32 i := by
  rw [BitVec.add_assoc, Nat.add_comm i 1, BitVec.ofNat_add]
  rfl

theorem storeBytes_of_not_mem
    (h : bs.length ≤ (b - a).toNat) :
    storeBytes m a bs b = m b :=
  List.getD_eq_default _ _ h

/-- A store one byte after the other. -/
theorem storeBytes_cons
    {c : BitVec 8} (ha : a.toNat + (c :: bs).length ≤ 2 ^ 32) :
    storeBytes m a (c :: bs) = storeBytes (storeBytes m a [c]) (a + 1) bs := by
  rw [List.length_cons] at ha
  funext b
  have hone : (1 : BitVec 32).toNat = 1 := rfl
  have hb := b.isLt
  by_cases h0 : (b - a).toNat = 0
  · have hout : bs.length ≤ (b - (a + 1)).toNat := by
      rw [BitVec.toNat_sub] at h0 ⊢
      rw [BitVec.toNat_add, hone]
      omega
    rw [storeBytes_of_not_mem hout, storeBytes, storeBytes, h0]
    rfl
  · obtain ⟨i, hi⟩ := Nat.exists_eq_succ_of_ne_zero h0
    have hrest : storeBytes m a [c] b = m b := storeBytes_of_not_mem (by
      rw [hi, List.length_singleton]
      omega)
    rw [storeBytes, storeBytes, hrest, hi, List.getD_cons_succ]
    by_cases hlast : i < bs.length
    · have hsub : (b - (a + 1)).toNat = i := by
        rw [BitVec.toNat_sub] at hi ⊢
        rw [BitVec.toNat_add, hone]
        omega
      rw [hsub]
    · rw [List.getD_eq_default _ _ (by omega), List.getD_eq_default]
      rw [BitVec.toNat_sub] at hi ⊢
      rw [BitVec.toNat_add, hone]
      omega

/-- A store of some bytes and of others behind them. -/
theorem storeBytes_append
    {cs : List (BitVec 8)} (ha : a.toNat + (bs ++ cs).length ≤ 2 ^ 32) :
    storeBytes m a (bs ++ cs) =
      storeBytes (storeBytes m a bs) (a + BitVec.ofNat 32 bs.length) cs := by
  induction bs generalizing m a with
  | nil =>
      have hnil : storeBytes m a [] = m := rfl
      rw [hnil, List.nil_append, List.length_nil, BitVec.add_zero]
  | cons c bs ih =>
      rw [List.cons_append, List.length_cons] at ha
      rw [List.cons_append, storeBytes_cons (by rw [List.length_cons]; exact ha), List.length_cons,
        add_ofNat_succ]
      by_cases hend : a.toNat + 1 = 2 ^ 32
      · -- nothing is left behind the last address
        have hnone : (bs ++ cs).length = 0 := by omega
        rw [List.length_append] at hnone
        obtain rfl := List.length_eq_zero_iff.mp (Nat.eq_zero_of_add_eq_zero_right hnone)
        obtain rfl := List.length_eq_zero_iff.mp (Nat.eq_zero_of_add_eq_zero_left hnone)
        rfl
      · have hnext : (a + 1).toNat = a.toNat + 1 := by
          rw [BitVec.toNat_add]
          exact Nat.mod_eq_of_lt (by have := a.isLt; change a.toNat + 1 < _; omega)
        rw [ih (by rw [hnext]; omega), ← storeBytes_cons]
        rw [List.length_cons]
        rw [List.length_append] at ha
        omega

theorem bytesAt_storeBytes
    (h : bs.length ≤ 2 ^ 32) :
    BytesAt (storeBytes m a bs) a bs := by
  intro i c hi
  have hlt : i < bs.length := (List.getElem?_eq_some_iff.mp hi).1
  have hsub : (a + BitVec.ofNat 32 i - a).toNat = i := by
    rw [BitVec.add_comm, BitVec.add_sub_cancel, BitVec.toNat_ofNat]
    omega
  rw [storeBytes, hsub, List.getD_eq_getElem?_getD, hi]
  rfl

/-- Only the bytes themselves matter. -/
theorem BytesAt.congr
    (h : BytesAt m a bs)
    (heq : ∀ b : BitVec 32, (b - a).toNat < bs.length → m' b = m b) :
    BytesAt m' a bs := by
  intro i c hi
  have hlt : i < bs.length := (List.getElem?_eq_some_iff.mp hi).1
  rw [← h i c hi]
  refine heq _ ?_
  rw [BitVec.add_comm, BitVec.add_sub_cancel, BitVec.toNat_ofNat]
  exact Nat.lt_of_le_of_lt (Nat.mod_le _ _) hlt

/-- A byte behind the bytes. -/
theorem BytesAt.snoc
    {c : BitVec 8} (h : BytesAt m a bs) (hroom : bs.length < 2 ^ 32) :
    BytesAt (storeBytes m (a + BitVec.ofNat 32 bs.length) [c]) a (bs ++ [c]) := by
  intro i d hi
  have hlt : i < (bs ++ [c]).length := (List.getElem?_eq_some_iff.mp hi).1
  rw [List.length_append, List.length_singleton] at hlt
  rcases Nat.lt_or_eq_of_le (Nat.le_of_lt_succ hlt) with hold | rfl
  · rw [List.getElem?_append_left hold] at hi
    rw [← h i d hi]
    refine storeBytes_of_not_mem ?_
    rw [List.length_singleton, BitVec.toNat_sub, BitVec.toNat_add, BitVec.toNat_add,
      BitVec.toNat_ofNat, BitVec.toNat_ofNat]
    omega
  · rw [List.getElem?_concat_length] at hi
    cases hi
    rw [storeBytes, BitVec.sub_self]
    rfl

theorem BytesAt.head
    {c : BitVec 8} (h : BytesAt m a (c :: bs)) :
    m a = c := by
  have h0 := h 0 c rfl
  rwa [BitVec.add_zero] at h0

theorem BytesAt.tail
    {c : BitVec 8} (h : BytesAt m a (c :: bs)) :
    BytesAt m (a + 1) bs := by
  intro i d hi
  rw [← add_ofNat_succ]
  exact h (i + 1) d hi

theorem length_wordBytes (v : BitVec 32) : (wordBytes v).length = 4 := rfl

theorem store32_eq_storeBytes (m : Memory) (a v : BitVec 32) :
    store32 m a v = storeBytes m a (wordBytes v) := by
  funext b
  rw [store32]
  split_ifs with hb
  · rw [storeBytes, List.getD_eq_getElem?_getD, wordBytes, List.getElem?_map,
      List.getElem?_range hb]
    rfl
  · rw [storeBytes_of_not_mem (by rw [length_wordBytes]; omega)]

/-- Bytes that are stored elsewhere leave a word as it is. -/
theorem load32_storeBytes_of_apart
    (ha : a.toNat + bs.length ≤ 2 ^ 32) (hb : b.toNat + 4 ≤ 2 ^ 32)
    (h : b.toNat + 4 ≤ a.toNat ∨ a.toNat + bs.length ≤ b.toNat) :
    load32 (storeBytes m a bs) b = load32 m b := by
  refine load32_congr fun c hc => storeBytes_of_not_mem ?_
  have hmem := toNat_of_sub_lt hc hb
  by_contra hlt
  have := toNat_of_sub_lt (Nat.lt_of_not_le hlt) ha
  omega

/-- A word and bytes that are apart are stored in either order. -/
theorem store32_storeBytes_comm
    (v : BitVec 32) (ha : a.toNat + bs.length ≤ 2 ^ 32) (hb : b.toNat + 4 ≤ 2 ^ 32)
    (h : b.toNat + 4 ≤ a.toNat ∨ a.toNat + bs.length ≤ b.toNat) :
    store32 (storeBytes m a bs) b v = storeBytes (store32 m b v) a bs := by
  funext c
  by_cases hc : (c - b).toNat < 4
  · have hout : bs.length ≤ (c - a).toNat := by
      have hmem := toNat_of_sub_lt hc hb
      by_contra hlt
      have := toNat_of_sub_lt (Nat.lt_of_not_le hlt) ha
      omega
    rw [storeBytes_of_not_mem hout, store32, store32, if_pos hc, if_pos hc]
  · rw [storeBytes, store32, store32, if_neg hc, if_neg hc]
    rfl

theorem bytesAt_wordBytes
    {v : BitVec 32} (h : load32 m a = v) :
    BytesAt m a (wordBytes v) := by
  intro i c hi
  have hlt : i < 4 := (List.getElem?_eq_some_iff.mp hi).1
  rw [wordBytes, List.getElem?_map, List.getElem?_range hlt] at hi
  cases hi
  rw [← h]
  exact (extractLsb'_load32 m a hlt).symm

end Stores

section Strings

variable {m : Memory} {a dest src : BitVec 32} {s : List (BitVec 8)}

/-- What is read of a string. -/
theorem readString_eq
    (h : BytesAt m a (s ++ [0])) (hs : 0 ∉ s) (n : Nat) :
    readString m a n = s.take n := by
  induction n generalizing a s with
  | zero => rfl
  | succ n ih =>
      rw [readString]
      cases s with
      | nil => rw [if_pos h.head, List.take_nil]
      | cons c cs =>
          have hc : c ≠ 0 := fun h0 => hs (h0 ▸ List.mem_cons_self)
          rw [h.head, if_neg hc, List.take_succ_cons,
            ih h.tail fun h0 => hs (List.mem_cons_of_mem c h0)]

/-- A copy to another place. -/
theorem copyString_eq
    {n : Nat} (h : BytesAt m src (s ++ [0])) (hs : 0 ∉ s) (hdest : dest.toNat + n < 2 ^ 32)
    (hsrc : src.toNat + s.length < 2 ^ 32)
    (hapart : dest.toNat + n < src.toNat ∨ src.toNat + s.length < dest.toNat) :
    copyString m dest src n = storeBytes m dest (s.take n ++ [0]) := by
  induction n generalizing m dest src s with
  | zero => rfl
  | succ n ih =>
      rw [copyString]
      cases s with
      | nil => rw [if_pos h.head, List.take_nil, List.nil_append]
      | cons c cs =>
          rw [List.length_cons] at hsrc hapart
          have hc : c ≠ 0 := fun h0 => hs (h0 ▸ List.mem_cons_self)
          have hone : (1 : BitVec 32).toNat = 1 := rfl
          have hdest' : (dest + 1).toNat = dest.toNat + 1 := by
            rw [BitVec.toNat_add, hone]
            omega
          have hsrc' : (src + 1).toNat = src.toNat + 1 := by
            rw [BitVec.toNat_add, hone]
            omega
          have hrest : BytesAt (storeBytes m dest [c]) (src + 1) (cs ++ [0]) := by
            have htail : BytesAt m (src + 1) (cs ++ [0]) := h.tail
            refine htail.congr fun b hb => storeBytes_of_not_mem ?_
            rw [List.length_append, List.length_singleton] at hb
            obtain ⟨hlo, hhi⟩ := toNat_of_sub_lt hb (by omega)
            rw [List.length_singleton, BitVec.toNat_sub]
            omega
          rw [h.head, if_neg hc, ih hrest (fun h0 => hs (List.mem_cons_of_mem c h0)) (by omega)
            (by omega) (by omega), List.take_succ_cons, List.cons_append, ← storeBytes_cons]
          rw [List.length_cons, List.length_append, List.length_take, List.length_singleton]
          omega

end Strings

end Lib
end PeachOS
