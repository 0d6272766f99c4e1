import PeachOS.Config
import PeachOS.Lib.Buffer
import PeachOS.Lib.ByteStrings
import PeachOS.Lib.CInt

/-!
# `strncpy` and `strcpy`

`strncpy` of `string.c` has `==` where it should assign, in the kernel and in the user
library: it compares the bytes of its two arguments and writes none.  The loop is
modelled with what its statements on `dest` do left open, so that the function which
its comment describes is another instance.
-/

namespace PeachOS

open Lib

/-- What `strncpy` does with a byte of `dest`: the code compares it, and its comment
says that it is assigned. -/
inductive Copying where
  | compares
  | assigns
deriving DecidableEq

section Copy

variable {σ : Type}

def Copying.put (copying : Copying) (put : σ → Nat → Byte → Except Halt σ) :
    σ → Nat → Byte → Except Halt σ :=
  match copying with
  | .compares => fun s _ _ => .ok s
  | .assigns => put

/-- The loop of `strncpy` at index `i`, with `n` rounds to go: the state and `i` behind
it.  `get` reads `src[i]` and `put` writes `dest[i]`. -/
def strncpyLoop (get : σ → Nat → Except Halt Byte) (put : σ → Nat → Byte → Except Halt σ)
    (s : σ) (i : Nat) : Nat → Except Halt (σ × Nat)
  | 0 => .ok (s, i)
  | n + 1 => do
      let c ← get s i
      if c = 0 then
        pure (s, i)
      else
        let s ← put s i c
        strncpyLoop get put s (i + 1) n

def Copying.strncpy (copying : Copying) (get : σ → Nat → Except Halt Byte)
    (put : σ → Nat → Byte → Except Halt σ) (s : σ) (count : Int) : Except Halt σ := do
  let (s, i) ← strncpyLoop get (copying.put put) s 0 (count - 1).toNat
  copying.put put s i 0

/-- `strcpy` of a string, from index `i` of `dest` on. -/
def strcpy (put : σ → Nat → Byte → Except Halt σ) (s : σ) (i : Nat) : List Byte → Except Halt σ
  | [] => put s i 0
  | c :: src => do
      let s ← put s i c
      strcpy put s (i + 1) src

variable {get : σ → Nat → Except Halt Byte} {put : σ → Nat → Byte → Except Halt σ} {s s' : σ}
  {n i j : Nat}

/-- What the writes keep is kept, and the index stays in range. -/
theorem strncpyLoop_inv
    (P : σ → Prop) (hput : ∀ s k c s', k < i + n → P s → put s k c = .ok s' → P s') (hs : P s)
    (h : strncpyLoop get put s i n = .ok (s', j)) :
    P s' ∧ j ≤ i + n := by
  induction n generalizing s i with
  | zero =>
      cases h
      exact ⟨hs, Nat.le_refl _⟩
  | succ n ih =>
      obtain ⟨c, -, h⟩ := bind_eq_ok_iff.mp h
      split_ifs at h
      · cases h
        exact ⟨hs, Nat.le_add_right _ _⟩
      · obtain ⟨s₁, hfirst, hrest⟩ := bind_eq_ok_iff.mp h
        have hs₁ : P s₁ := hput s i c s₁ (by omega) hs hfirst
        rw [show i + (n + 1) = i + 1 + n by omega] at hput ⊢
        exact ih hput hs₁ hrest

/-- With a string to read, and writes that lead from what holds behind `i` bytes to what
holds behind one more, the loop ends at the end of the string or of its rounds. -/
theorem strncpyLoop_spec
    (R : Nat → σ → Prop) {str : List Byte} (hstr : 0 ∉ str)
    (hget : ∀ k c s, (str ++ [0])[k]? = some c → R k s → get s k = .ok c)
    (hput : ∀ k c s, k < i + n → str[k]? = some c → R k s → ∃ s', put s k c = .ok s' ∧ R (k + 1) s')
    (hs : R i s) (hi : i ≤ str.length) :
    ∃ s', strncpyLoop get put s i n = .ok (s', min str.length (i + n)) ∧
      R (min str.length (i + n)) s' := by
  induction n generalizing s i with
  | zero =>
      rw [Nat.add_zero, Nat.min_eq_right hi]
      exact ⟨s, rfl, hs⟩
  | succ n ih =>
      rw [strncpyLoop]
      rcases Nat.lt_or_eq_of_le hi with hlt | rfl
      · have hc : str[i]? = some str[i] := List.getElem?_eq_getElem hlt
        have hread := hget i str[i] s ((List.getElem?_append_left hlt).trans hc) hs
        have hne : str[i] ≠ 0 := fun h0 => hstr (h0 ▸ List.getElem_mem hlt)
        obtain ⟨s₁, hfirst, hs₁⟩ := hput i str[i] s (by omega) hc hs
        rw [hread, ok_bind, if_neg hne, hfirst, ok_bind]
        rw [show i + (n + 1) = i + 1 + n by omega] at hput ⊢
        exact ih hput hs₁ hlt
      · have hread := hget str.length 0 s (by simp) hs
        rw [hread, ok_bind, if_pos rfl, Nat.min_eq_left (Nat.le_add_right _ _)]
        exact ⟨s, rfl, hs⟩

/-- How many bytes of `src` a copy of `count` bytes takes. -/
def copiedLength (src : List Byte) (count : Int) : Nat := min src.length (count - 1).toNat

theorem Copying.strncpy_spec
    (copying : Copying) (put : σ → Nat → Byte → Except Halt σ) (count : Int) (R : Nat → σ → Prop)
    {str : List Byte} (hstr : 0 ∉ str)
    (hget : ∀ k c s, (str ++ [0])[k]? = some c → R k s → get s k = .ok c)
    (hput : ∀ (k : Nat) c s, (k : Int) < count - 1 → str[k]? = some c → R k s →
      ∃ s', copying.put put s k c = .ok s' ∧ R (k + 1) s')
    (hs : R 0 s) :
    ∃ s', copying.strncpy get put s count = copying.put put s' (copiedLength str count) 0 ∧
      R (copiedLength str count) s' := by
  obtain ⟨s', hloop, hs'⟩ := strncpyLoop_spec (n := (count - 1).toNat) R hstr hget
    (fun k c s hk => hput k c s (by omega)) hs (Nat.zero_le _)
  rw [Nat.zero_add] at hloop hs'
  refine ⟨s', ?_, hs'⟩
  rw [Copying.strncpy, hloop]
  rfl

theorem Copying.strncpy_inv
    {copying : Copying} {count : Int} (hcount : 1 ≤ count) (P : σ → Prop)
    (hput : ∀ s (k : Nat) c s', (k : Int) < count → P s → put s k c = .ok s' → P s') (hs : P s)
    (h : copying.strncpy get put s count = .ok s') :
    P s' := by
  obtain ⟨⟨s₁, k⟩, hloop, hlast⟩ := bind_eq_ok_iff.mp h
  have hput' (s : σ) (k : Nat) (c : Byte) (s' : σ) (hk : (k : Int) < count) (hs : P s)
      (hcopy : copying.put put s k c = .ok s') : P s' := by
    cases copying with
    | compares =>
        cases hcopy
        exact hs
    | assigns => exact hput s k c s' hk hs hcopy
  obtain ⟨hs₁, hk⟩ := strncpyLoop_inv P (fun s k c s' hk => hput' s k c s' (by omega)) hs hloop
  exact hput' s₁ k 0 s' (by omega) hs₁ hlast

/-- In memory, where every byte can be written, it is `copyString`. -/
theorem strncpy_copyString
    (m : Memory) (dest src : Ptr) (count : Int) :
    Copying.assigns.strncpy (fun m i => .ok (m (src + BitVec.ofNat 32 i)))
      (fun m i c => .ok (storeBytes m (dest + BitVec.ofNat 32 i) [c])) m count =
        .ok (copyString m dest src (count - 1).toNat) := by
  suffices hloop : ∀ (n i : Nat) (m : Memory),
      (strncpyLoop (fun m i => .ok (m (src + BitVec.ofNat 32 i)))
        (fun m i c => .ok (storeBytes m (dest + BitVec.ofNat 32 i) [c])) m i n >>= fun r =>
          (.ok (storeBytes r.1 (dest + BitVec.ofNat 32 r.2) [0]) : Except Halt Memory)) =
        .ok (copyString m (dest + BitVec.ofNat 32 i) (src + BitVec.ofNat 32 i) n) by
    have hstart := hloop (count - 1).toNat 0 m
    rwa [BitVec.add_zero, BitVec.add_zero] at hstart
  intro n
  induction n with
  | zero => exact fun i m => rfl
  | succ n ih =>
      intro i m
      have hnext (a : Ptr) : a + BitVec.ofNat 32 i + 1 = a + BitVec.ofNat 32 (i + 1) := by
        rw [add_ofNat_succ, BitVec.add_assoc, BitVec.add_comm _ 1, ← BitVec.add_assoc]
      rw [strncpyLoop, ok_bind, copyString]
      by_cases h0 : m (src + BitVec.ofNat 32 i) = 0
      · rw [if_pos h0, if_pos h0]
        rfl
      · rw [if_neg h0, if_neg h0, ok_bind, ih, hnext, hnext]

/-- Where the loop stops in a source that is read the same all the time. -/
theorem strncpyLoop_stops
    {g : Nat → Byte} (hget : ∀ s k, get s k = .ok (g k))
    (h : strncpyLoop get put s i n = .ok (s', j)) :
    i ≤ j ∧ j ≤ i + n ∧ (∀ k, i ≤ k → k < j → g k ≠ 0) ∧ (j < i + n → g j = 0) := by
  induction n generalizing s i with
  | zero =>
      cases h
      exact ⟨Nat.le_refl _, Nat.le_refl _, fun k _ _ => by omega, fun _ => by omega⟩
  | succ n ih =>
      rw [strncpyLoop, hget, ok_bind] at h
      split_ifs at h with h0
      · cases h
        exact ⟨Nat.le_refl _, Nat.le_add_right _ _, fun k _ _ => by omega, fun _ => h0⟩
      · obtain ⟨s₁, -, hrest⟩ := bind_eq_ok_iff.mp h
        obtain ⟨hle, hend, hbefore, hstop⟩ := ih hrest
        refine ⟨by omega, by omega, fun k hlo hhi => ?_, fun hlt => hstop (by omega)⟩
        rcases Nat.lt_or_eq_of_le hlo with hlt | rfl
        · exact hbefore k hlt hhi
        · exact h0

end Copy

def storeByte (dest : List Byte) (i : Nat) (c : Byte) : Except Halt (List Byte) :=
  store .fault dest i c

/-- The string that a buffer holds. -/
def stringIn : List Byte → Except Halt (List Byte)
  | [] => .error .fault
  | c :: buf =>
      if c = 0 then
        .ok []
      else do
        let str ← stringIn buf
        pure (c :: str)

/-- A read of an array without a NUL goes on behind it. -/
theorem stringIn_of_not_mem
    {buf : List Byte} (h : 0 ∉ buf) :
    stringIn buf = .error .fault := by
  induction buf with
  | nil => rfl
  | cons c buf ih =>
      have hc : c ≠ 0 := fun h0 => h (h0 ▸ List.mem_cons_self)
      rw [stringIn, if_neg hc, ih fun hmem => h (List.mem_cons_of_mem c hmem)]
      rfl

theorem stringIn_append
    {str : List Byte} (h : 0 ∉ str) (behind : List Byte) :
    stringIn (str ++ 0 :: behind) = .ok str := by
  induction str with
  | nil => exact if_pos rfl
  | cons c str ih =>
      have hc : c ≠ 0 := fun h0 => h (h0 ▸ List.mem_cons_self)
      rw [List.cons_append, stringIn, if_neg hc, ih fun hmem => h (List.mem_cons_of_mem c hmem)]
      rfl

/-- `strcpy` to a place in a buffer with room behind it. -/
theorem strcpy_append
    {str : List Byte} (before behind : List Byte) (h : str.length < behind.length) :
    strcpy storeByte (before ++ behind) before.length str =
      .ok (before ++ str ++ 0 :: behind.drop (str.length + 1)) := by
  induction str generalizing before behind with
  | nil =>
      obtain ⟨old, rest, rfl⟩ := List.exists_cons_of_length_pos h
      rw [strcpy, storeByte, store_append_cons, List.append_nil]
      rfl
  | cons c str ih =>
      obtain ⟨old, rest, rfl⟩ := List.exists_cons_of_length_pos (Nat.zero_lt_of_lt h)
      rw [List.length_cons, List.length_cons] at h
      have hnext := ih (before ++ [c]) rest (by omega)
      rw [List.append_assoc, List.singleton_append, List.length_append, List.length_singleton]
        at hnext
      rw [strcpy, storeByte, store_append_cons, ok_bind, hnext]
      simp

/-- `strncpy` from one object into another. -/
def Copying.strncpyBuffer (copying : Copying) (dest src : List Byte) (count : Int) :
    Except Halt (List Byte) :=
  copying.strncpy (fun _ i => load .fault src i) storeByte dest count

/-- `strncpy` of the kernel. -/
def KernelString.strncpy (dest src : List Byte) (count : Int) : Except Halt (List Byte) :=
  Copying.compares.strncpyBuffer dest src count

/-- `strncpy` of the user library. -/
def Stdlib.strncpy (dest src : List Byte) (count : Int) : Except Halt (List Byte) :=
  Copying.compares.strncpyBuffer dest src count

/-- `dest` begins with what of `src` has room in `count` bytes, and a NUL behind it. -/
def HoldsCopy (dest src : List Byte) (count : Int) : Prop :=
  dest.take (copiedLength src count) = src.take (copiedLength src count) ∧
    dest[copiedLength src count]? = some 0

/-- What `strncpy` is to make of `dest`. -/
structure Copied (dest src : List Byte) (count : Int) (dest' : List Byte) : Prop where
  holds : HoldsCopy dest' src count
  length : dest'.length = dest.length
  behind : ∀ i, copiedLength src count < i → dest'[i]? = dest[i]?

section Buffers

variable {dest src : List Byte} {count : Int}

theorem copiedLength_lt (src : List Byte) (hcount : 1 ≤ count) (hdest : count ≤ dest.length) :
    copiedLength src count < dest.length := by
  have hle : copiedLength src count ≤ (count - 1).toNat := Nat.min_le_right _ _
  omega

/-- A store between the bytes that are copied and the rest of `dest`. -/
theorem store_copied
    {k : Nat} (hk : k < dest.length) (hsrc : k ≤ src.length) (c : Byte) :
    store Halt.fault (src.take k ++ dest.drop k) k c =
      .ok (src.take k ++ c :: dest.drop (k + 1)) := by
  have hlength : (src.take k).length = k := List.length_take_of_le hsrc
  have hstore := store_append_cons Halt.fault (src.take k) dest[k] (dest.drop (k + 1)) c
  rwa [hlength, List.cons_getElem_drop_succ] at hstore

/-- The copy that the comment describes, from a string that `get` reads. -/
theorem strncpy_assigns
    {get : List Byte → Nat → Except Halt Byte} (hsrc : 0 ∉ src)
    (hget : ∀ k c buf, (src ++ [0])[k]? = some c → get buf k = .ok c) (hcount : 1 ≤ count)
    (hdest : count ≤ dest.length) :
    Copying.assigns.strncpy get storeByte dest count =
      .ok (src.take (copiedLength src count) ++ 0 :: dest.drop (copiedLength src count + 1)) := by
  have hstep (k : Nat) (c : Byte) (buf : List Byte) (hk : (k : Int) < count - 1)
      (hc : src[k]? = some c) (hbuf : buf = src.take k ++ dest.drop k) :
      ∃ buf', storeByte buf k c = .ok buf' ∧ buf' = src.take (k + 1) ++ dest.drop (k + 1) := by
    have hlt : k < src.length := (List.getElem?_eq_some_iff.mp hc).1
    rw [hbuf, storeByte, store_copied (by omega) hlt.le, List.take_add_one, hc]
    exact ⟨_, rfl, by simp⟩
  obtain ⟨buf, hcopy, hbuf⟩ := Copying.strncpy_spec .assigns storeByte count
    (fun k buf => buf = src.take k ++ dest.drop k) hsrc (fun k c buf hc _ => hget k c buf hc) hstep
    (show dest = src.take 0 ++ dest.drop 0 from rfl)
  rw [hcopy, hbuf]
  exact store_copied (copiedLength_lt src hcount hdest) (Nat.min_le_left _ _) 0

/-- The code reads the source up to its NUL, and leaves `dest` as it is. -/
theorem strncpy_compares
    {get : List Byte → Nat → Except Halt Byte} (dest : List Byte) (count : Int) (hsrc : 0 ∉ src)
    (hget : ∀ k c buf, (src ++ [0])[k]? = some c → get buf k = .ok c) :
    Copying.compares.strncpy get storeByte dest count = .ok dest := by
  obtain ⟨buf, hcopy, hbuf⟩ := Copying.strncpy_spec .compares storeByte count
    (fun _ buf => buf = dest) hsrc (fun k c buf hc _ => hget k c buf hc)
    (fun k c buf _ _ hbuf => ⟨buf, rfl, hbuf⟩) rfl
  rw [hcopy, hbuf]
  rfl

/-- The copy that the comment describes is one. -/
theorem copied_assigns
    (hsrc : 0 ∉ src) (hcount : 1 ≤ count) (hdest : count ≤ dest.length) :
    ∃ dest', Copying.assigns.strncpyBuffer dest (src ++ [0]) count = .ok dest' ∧
      Copied dest src count dest' := by
  have hlt := copiedLength_lt src hcount hdest
  have hlength : (src.take (copiedLength src count)).length = copiedLength src count :=
    List.length_take_of_le (Nat.min_le_left _ _)
  refine ⟨_, strncpy_assigns hsrc (fun k c _ hc => load_of_getElem? Halt.fault hc) hcount hdest,
    ⟨?_, ?_⟩, ?_, ?_⟩
  · exact List.take_left' hlength
  · rw [List.getElem?_append_right hlength.le, hlength, Nat.sub_self]
    rfl
  · rw [List.length_append, hlength, List.length_cons, List.length_drop]
    omega
  · intro i hi
    obtain ⟨d, rfl⟩ := Nat.exists_eq_add_of_lt hi
    rw [List.getElem?_append_right (by omega), hlength,
      show copiedLength src count + d + 1 - copiedLength src count = d + 1 by omega,
      List.getElem?_cons_succ, List.getElem?_drop]
    congr 1
    omega

theorem copied_self_iff : Copied dest src count dest ↔ HoldsCopy dest src count :=
  ⟨Copied.holds, fun h => ⟨h, rfl, fun _ _ => rfl⟩⟩

/-- What `strncpy` of the kernel and of the user library is to do. -/
def StrncpyCopies (dest src : List Byte) (count : Int) : Prop :=
  ∃ dest', KernelString.strncpy dest (src ++ [0]) count = .ok dest' ∧
    Stdlib.strncpy dest (src ++ [0]) count = .ok dest' ∧ Copied dest src count dest'

end Buffers

/-- Only a `dest` that holds the copy before the call holds it behind the call. -/
theorem strncpy_copies_iff
    (dest src : List Byte) (count : Int) (hsrc : 0 ∉ src) :
    StrncpyCopies dest src count ↔ HoldsCopy dest src count := by
  have hcopy := strncpy_compares dest count hsrc fun k c _ hc => load_of_getElem? Halt.fault hc
  constructor
  · rintro ⟨dest', hkernel, -, hcopied⟩
    cases hkernel.symm.trans hcopy
    exact copied_self_iff.mp hcopied
  · intro h
    exact ⟨dest, hcopy, hcopy, copied_self_iff.mpr h⟩

theorem strncpy_copies_iff_held :
    StrncpyCopies [65, 0, 7] [65, 66] 2 ↔ HoldsCopy [65, 0, 7] [65, 66] 2 :=
  strncpy_copies_iff [65, 0, 7] [65, 66] 2 (by decide)

/-- `"A"` does not get into a buffer of two other bytes. -/
theorem strncpyCopies_false :
    ¬ ∀ (dest src : List Byte) (count : Int), 0 ∉ src → 1 ≤ count → count ≤ dest.length →
      StrncpyCopies dest src count := by
  intro h
  have hsrc : 0 ∉ ([65] : List Byte) := by decide
  obtain ⟨dest', hkernel, -, hcopied⟩ := h [7, 7] [65] 2 hsrc (by decide) (by decide)
  have hcopy := strncpy_compares [7, 7] 2 hsrc fun k c _ hc => load_of_getElem? Halt.fault hc
  cases hkernel.symm.trans hcopy
  have hholds : HoldsCopy [7, 7] [65] 2 := hcopied.holds
  cases hholds.2

end PeachOS
