import PeachOS.Lib.CInt
import PeachOS.Lib.Fields
import PeachOS.Shell.Strtok
import PeachOS.Strings

/-!
# `strtok` in its buffer

The string that `strtok` takes apart stands in a buffer of its bytes and the zero
byte behind them; a pointer is a place in the buffer, and there is nothing to read
behind it.
-/

namespace PeachOS

open Lib

/-- Where the loop over the delimiters leaves `i`. -/
def delimiterIndex (delimiters : List Byte) (c : Byte) : Nat := delimiters.idxOf c

/-- The loop that moves `p_start` past delimiters. -/
def skipDelimiters (delimiters buf : List Byte) (pStart : Nat) : Except Halt Nat :=
  match _h : buf[pStart]? with
  | none => .error .fault
  | some c =>
      if delimiterIndex delimiters c < delimiters.length then
        skipDelimiters delimiters buf (pStart + 1)
      else
        .ok pStart
termination_by buf.length - pStart
decreasing_by
  have hlt := (List.getElem?_eq_some_iff.mp _h).1
  omega

/-- The loop that finds the end of the substring. -/
def endSubstring (delimiters buf : List Byte) (sp : Nat) : Except Halt (Nat × List Byte) :=
  match _h : buf[sp]? with
  | none => .error .fault
  | some c =>
      if c = 0 then
        .ok (sp, buf)
      else if delimiterIndex delimiters c < delimiters.length then
        .ok (sp + 1, buf.set sp 0)
      else
        endSubstring delimiters buf (sp + 1)
termination_by buf.length - sp
decreasing_by
  have hlt := (List.getElem?_eq_some_iff.mp _h).1
  omega

/-- The pointer that is returned, and `sp` and the buffer behind the call. -/
def strtokBuffer (delimiters buf : List Byte) (str sp : Option Nat) :
    Except Halt (Option Nat × Option Nat × List Byte) :=
  match sp.or str with
  | none => .ok (none, none, buf)
  | some p => do
      let pStart ← skipDelimiters delimiters buf p
      match buf[pStart]? with
      | none => .error .fault
      | some c =>
          if c = 0 then
            pure (none, none, buf)
          else do
            let (sp, buf) ← endSubstring delimiters buf pStart
            pure (some pStart, some sp, buf)

/-- So many calls with a null pointer for the string. -/
def strtokCalls (delimiters : List Byte) :
    Nat → List Byte → Option Nat → Except Halt (List (Option Nat) × Option Nat × List Byte)
  | 0, buf, sp => .ok ([], sp, buf)
  | n + 1, buf, sp => do
      let (found, sp, buf) ← strtokBuffer delimiters buf none sp
      let (rest, sp, buf) ← strtokCalls delimiters n buf sp
      pure (found :: rest, sp, buf)

/-- A call with the string, and `n` calls behind it. -/
def strtokString (delimiters s : List Byte) (n : Nat) :
    Except Halt (List (Option Nat) × Option Nat × List Byte) := do
  let (found, sp, buf) ← strtokBuffer delimiters (s ++ [0]) (some 0) none
  let (rest, sp, buf) ← strtokCalls delimiters n buf sp
  pure (found :: rest, sp, buf)

section Rounds

variable {delimiters buf : List Byte} {c : Byte} {q : Nat}

theorem delimiterIndex_lt_iff :
    delimiterIndex delimiters c < delimiters.length ↔ c ∈ delimiters :=
  List.idxOf_lt_length_iff

theorem skipDelimiters_of_getElem
    (h : buf[q]? = some c) :
    skipDelimiters delimiters buf q =
      if c ∈ delimiters then skipDelimiters delimiters buf (q + 1) else .ok q := by
  rw [skipDelimiters]
  split
  next heq => cases h.symm.trans heq
  next heq =>
    cases h.symm.trans heq
    simp only [delimiterIndex_lt_iff]

theorem endSubstring_of_getElem
    (h : buf[q]? = some c) :
    endSubstring delimiters buf q =
      if c = 0 then
        .ok (q, buf)
      else if c ∈ delimiters then
        .ok (q + 1, buf.set q 0)
      else
        endSubstring delimiters buf (q + 1) := by
  rw [endSubstring]
  split
  next heq => cases h.symm.trans heq
  next heq =>
    cases h.symm.trans heq
    simp only [delimiterIndex_lt_iff]

end Rounds

section Scans

variable {delimiters skip token : List Byte} {c : Byte}

theorem getElem?_length_append
    (pre more : List Byte) (c : Byte) :
    (pre ++ c :: more)[pre.length]? = some c := by
  rw [List.getElem?_append_right (Nat.le_refl _), Nat.sub_self]
  rfl

/-- Delimiters are skipped up to the first byte that is none. -/
theorem skipDelimiters_eq
    (hskip : ∀ d ∈ skip, d ∈ delimiters) (hc : c ∉ delimiters) (pre more : List Byte) :
    skipDelimiters delimiters (pre ++ (skip ++ c :: more)) pre.length =
      .ok (pre ++ skip).length := by
  induction skip generalizing pre with
  | nil =>
      rw [List.nil_append, skipDelimiters_of_getElem (getElem?_length_append pre more c),
        if_neg hc, List.append_nil]
  | cons d skip ih =>
      have hrest := ih (fun x hx => hskip x (List.mem_cons_of_mem d hx)) (pre ++ [d])
      rw [List.append_assoc, List.singleton_append, List.length_append, List.length_singleton,
        List.append_assoc, List.singleton_append] at hrest
      rw [List.cons_append, skipDelimiters_of_getElem (getElem?_length_append pre _ d),
        if_pos (hskip d List.mem_cons_self), hrest]

/-- A token that ends at a delimiter. -/
theorem endSubstring_delimiter
    (htoken : ∀ x ∈ token, x ∉ delimiters ∧ x ≠ 0) (hc : c ∈ delimiters) (h0 : c ≠ 0)
    (pre more : List Byte) :
    endSubstring delimiters (pre ++ (token ++ c :: more)) pre.length =
      .ok ((pre ++ token).length + 1, pre ++ (token ++ 0 :: more)) := by
  induction token generalizing pre with
  | nil =>
      rw [List.nil_append, endSubstring_of_getElem (getElem?_length_append pre more c),
        if_neg h0, if_pos hc, List.append_nil, List.set_append_right _ _ (Nat.le_refl _),
        Nat.sub_self]
      rfl
  | cons x token ih =>
      have hrest := ih (fun y hy => htoken y (List.mem_cons_of_mem x hy)) (pre ++ [x])
      rw [List.append_assoc, List.singleton_append, List.length_append, List.length_singleton,
        List.append_assoc, List.append_assoc, List.singleton_append,
        List.singleton_append] at hrest
      obtain ⟨hmem, hx⟩ := htoken x List.mem_cons_self
      rw [List.cons_append, endSubstring_of_getElem (getElem?_length_append pre _ x),
        if_neg hx, if_neg hmem, hrest, List.cons_append]

/-- A token that ends with the string. -/
theorem endSubstring_end
    (htoken : ∀ x ∈ token, x ∉ delimiters ∧ x ≠ 0) (pre more : List Byte) :
    endSubstring delimiters (pre ++ (token ++ 0 :: more)) pre.length =
      .ok ((pre ++ token).length, pre ++ (token ++ 0 :: more)) := by
  induction token generalizing pre with
  | nil =>
      rw [List.nil_append, endSubstring_of_getElem (getElem?_length_append pre more 0),
        if_pos rfl, List.append_nil]
  | cons x token ih =>
      have hrest := ih (fun y hy => htoken y (List.mem_cons_of_mem x hy)) (pre ++ [x])
      rw [List.append_assoc, List.singleton_append, List.length_append, List.length_singleton,
        List.append_assoc, List.singleton_append] at hrest
      obtain ⟨hmem, hx⟩ := htoken x List.mem_cons_self
      rw [List.cons_append, endSubstring_of_getElem (getElem?_length_append pre _ x),
        if_neg hx, if_neg hmem, hrest]

end Scans

section Call

variable {delimiters skip token : List Byte} {c : Byte}

/-- A call that finds only delimiters. -/
theorem strtokBuffer_all
    (h0 : 0 ∉ delimiters) (hskip : ∀ d ∈ skip, d ∈ delimiters) (pre : List Byte) :
    strtokBuffer delimiters (pre ++ (skip ++ [0])) none (some pre.length) =
      .ok (none, none, pre ++ (skip ++ [0])) := by
  have hend : (pre ++ (skip ++ [0]))[(pre ++ skip).length]? = some 0 := by
    rw [← List.append_assoc]
    exact getElem?_length_append (pre ++ skip) [] 0
  rw [strtokBuffer, Option.some_or]
  dsimp only
  rw [skipDelimiters_eq hskip h0, ok_bind, hend]
  rfl

/-- A call that finds a token goes on to its end. -/
theorem strtokBuffer_token
    (hskip : ∀ d ∈ skip, d ∈ delimiters) (htoken : ∀ x ∈ token, x ∉ delimiters ∧ x ≠ 0)
    (hne : token ≠ []) (pre more : List Byte) {sp : Nat} {buf : List Byte}
    (hend : endSubstring delimiters (pre ++ (skip ++ (token ++ more))) (pre ++ skip).length =
      .ok (sp, buf)) :
    strtokBuffer delimiters (pre ++ (skip ++ (token ++ more))) none (some pre.length) =
      .ok (some (pre ++ skip).length, some sp, buf) := by
  obtain ⟨x, xs, rfl⟩ := List.exists_cons_of_ne_nil hne
  obtain ⟨hmem, hx⟩ := htoken x List.mem_cons_self
  have hstart : (pre ++ (skip ++ (x :: xs ++ more)))[(pre ++ skip).length]? = some x := by
    rw [← List.append_assoc]
    exact getElem?_length_append (pre ++ skip) (xs ++ more) x
  rw [strtokBuffer, Option.some_or]
  dsimp only
  rw [List.cons_append, skipDelimiters_eq hskip hmem, ok_bind, ← List.cons_append, hstart]
  dsimp only
  rw [if_neg hx, hend]
  rfl

/-- The last token of the string. -/
theorem strtokBuffer_last
    (hskip : ∀ d ∈ skip, d ∈ delimiters) (htoken : ∀ x ∈ token, x ∉ delimiters ∧ x ≠ 0)
    (hne : token ≠ []) (pre : List Byte) :
    strtokBuffer delimiters (pre ++ (skip ++ (token ++ [0]))) none (some pre.length) =
      .ok (some (pre ++ skip).length, some (pre ++ (skip ++ token)).length,
        pre ++ (skip ++ (token ++ [0]))) := by
  have hend := endSubstring_end htoken (pre ++ skip) []
  simp only [List.append_assoc] at hend
  exact strtokBuffer_token hskip htoken hne pre [0] hend

/-- A token with a delimiter behind it, which is overwritten. -/
theorem strtokBuffer_more
    (hskip : ∀ d ∈ skip, d ∈ delimiters) (htoken : ∀ x ∈ token, x ∉ delimiters ∧ x ≠ 0)
    (hne : token ≠ []) (hc : c ∈ delimiters) (h0 : c ≠ 0) (pre more : List Byte) :
    strtokBuffer delimiters (pre ++ (skip ++ (token ++ c :: more))) none (some pre.length) =
      .ok (some (pre ++ skip).length, some ((pre ++ (skip ++ token)).length + 1),
        pre ++ (skip ++ (token ++ 0 :: more))) := by
  have hend := endSubstring_delimiter htoken hc h0 (pre ++ skip) more
  simp only [List.append_assoc] at hend
  exact strtokBuffer_token hskip htoken hne pre (c :: more) hend

end Call

def stringAt (buf : List Byte) (q : Nat) : List Byte := (buf.drop q).takeWhile (· ≠ 0)

section Call

variable {delimiters skip token rest : List Byte} {d : Byte}

theorem takeWhile_token
    (htoken : ∀ x ∈ token, x ≠ 0) (more : List Byte) :
    (token ++ 0 :: more).takeWhile (· ≠ 0) = token := by
  rw [List.takeWhile_append_of_pos (by simpa using htoken)]
  simp

theorem stringAt_behind
    (before buf : List Byte) (q : Nat) :
    stringAt (before ++ buf) (q + before.length) = stringAt buf q := by
  rw [stringAt, stringAt, Nat.add_comm, ← List.drop_drop, List.drop_left]

theorem stringAt_append
    (htoken : ∀ x ∈ token, x ≠ 0) (pre more : List Byte) :
    stringAt (pre ++ (token ++ 0 :: more)) pre.length = token := by
  rw [stringAt, List.drop_left]
  exact takeWhile_token htoken more

theorem length_behind
    (pre skip token : List Byte) :
    (pre ++ (skip ++ (token ++ [0]))).length = (pre ++ (skip ++ token)).length + 1 := by
  simp only [List.length_append, List.length_singleton]
  omega

/-- A call in the buffer is one on the string that is left. -/
theorem strtokBuffer_strtok
    (hzero : 0 ∉ delimiters) (s : List Byte) (hs : 0 ∉ s) (pre : List Byte) :
    ∃ found sp buf,
      strtokBuffer delimiters (pre ++ (s ++ [0])) none (some pre.length) = .ok (found, sp, buf) ∧
      strtok none (some s) delimiters = (found.map (stringAt buf), sp.map (stringAt buf)) := by
  induction s using fields_induction (· ∈ delimiters) with
  | all skip hskip =>
      have hskip : ∀ c ∈ skip, c ∈ delimiters := by simpa using hskip
      exact ⟨none, none, _, strtokBuffer_all hzero hskip pre, strtok_all hskip⟩
  | last skip token hskip htoken hne =>
      have hskip : ∀ c ∈ skip, c ∈ delimiters := by simpa using hskip
      have htoken : ∀ x ∈ token, x ∉ delimiters := by simpa using htoken
      have h0 : ∀ x ∈ token, x ≠ 0 := fun x hx hzero =>
        hs (List.mem_append_right _ (hzero ▸ hx))
      have hcall := strtokBuffer_last hskip (fun x hx => ⟨htoken x hx, h0 x hx⟩) hne pre
      have hlist : strtok none (some (skip ++ (token ++ []))) delimiters = (some token, some []) :=
        strtok_token hskip htoken hne (by simp)
      have hstring := stringAt_append h0 (pre ++ skip) []
      have hleft : stringAt (pre ++ (skip ++ token) ++ ([] ++ [0])) _ = [] :=
        stringAt_append (by simp) (pre ++ (skip ++ token)) []
      simp only [List.append_assoc, List.append_nil, List.nil_append] at hlist hstring hleft ⊢
      refine ⟨_, _, _, hcall, ?_⟩
      rw [hlist, Option.map_some, Option.map_some, hstring, hleft]
  | more skip token d rest hskip htoken hne hd _ =>
      have hskip : ∀ c ∈ skip, c ∈ delimiters := by simpa using hskip
      have htoken : ∀ x ∈ token, x ∉ delimiters := by simpa using htoken
      have hd : d ∈ delimiters := by simpa using hd
      simp only [List.mem_append, List.mem_cons, not_or] at hs
      have h0 : ∀ x ∈ token, x ≠ 0 := fun x hx hzero => hs.2.1 (hzero ▸ hx)
      have hcall := strtokBuffer_more hskip (fun x hx => ⟨htoken x hx, h0 x hx⟩) hne hd
        (Ne.symm hs.2.2.1) pre (rest ++ [0])
      have hlist : strtok none (some (skip ++ (token ++ d :: rest))) delimiters =
          (some token, some rest) :=
        strtok_token hskip htoken hne (by simpa using hd)
      have hstring := stringAt_append h0 (pre ++ skip) (rest ++ [0])
      have hleft := stringAt_append (fun x hx hzero => hs.2.2.2 (hzero ▸ hx))
        (pre ++ (skip ++ (token ++ [0]))) []
      rw [length_behind] at hleft
      simp only [List.append_assoc, List.cons_append, List.nil_append] at hstring hleft ⊢
      refine ⟨_, _, _, hcall, ?_⟩
      rw [hlist, Option.map_some, Option.map_some, hstring, hleft]

end Call

/-- The places of the tokens of a string, and the buffer behind the calls: a token ends at
the byte behind it, and the other bytes are as they were. -/
structure Tokenizes (delimiters s : List Byte) (qs : List Nat) (buf : List Byte) : Prop where
  places : FieldsAt (· ∈ delimiters) s qs
  buffer : ∀ j, buf[j]? =
    if j ∈ fieldEnds (· ∈ delimiters) s qs then some 0 else (s ++ [0])[j]?
  strings : List.Forall₂ (fun q token => stringAt buf q = token) qs (fields (· ∈ delimiters) s)

section Calls

variable {delimiters skip token rest : List Byte} {d : Byte}

theorem tokenizes_all
    (h : ∀ c ∈ skip, decide (c ∈ delimiters) = true) :
    Tokenizes delimiters skip [] (skip ++ [0]) where
  places := fieldsAt_of_all h
  buffer := fun j => by rw [fieldEnds_of_all h, if_neg List.not_mem_nil]
  strings := by
    rw [fields_of_all h]
    exact List.Forall₂.nil

theorem tokenizes_last
    (hskip : ∀ c ∈ skip, decide (c ∈ delimiters) = true)
    (htoken : ∀ c ∈ token, decide (c ∈ delimiters) = false) (hne : token ≠ [])
    (h0 : 0 ∉ skip ++ token) :
    Tokenizes delimiters (skip ++ token) [skip.length] (skip ++ token ++ [0]) where
  places := fieldsAt_last hskip htoken hne
  buffer := fun j => by
    simp only [fieldEnds_last hskip htoken hne, List.mem_singleton]
    split_ifs with hj
    · rw [hj]
      exact getElem?_length_append (skip ++ token) [] 0
    · rfl
  strings := by
    rw [fields_append_of_all hskip, fields_of_none htoken hne]
    refine List.Forall₂.cons ?_ List.Forall₂.nil
    rw [List.append_assoc]
    exact stringAt_append (fun x hx hzero => h0 (List.mem_append_right _ (hzero ▸ hx))) skip []

/-- The zero bytes at `ends`, behind one more at the end of `before`. -/
theorem getElem?_ended
    {s buf : List Byte} {ends : List Nat} (before : List Byte) (d : Byte)
    (h : ∀ j, buf[j]? = if j ∈ ends then some 0 else s[j]?) (j : Nat) :
    (before ++ 0 :: buf)[j]? =
      if j ∈ before.length :: ends.map (· + (before.length + 1)) then some 0
      else (before ++ d :: s)[j]? := by
  rcases Nat.lt_trichotomy j before.length with hlt | rfl | hgt
  · have hout : j ∉ before.length :: ends.map (· + (before.length + 1)) := by
      simp only [List.mem_cons, List.mem_map, not_or, not_exists, not_and]
      exact ⟨by omega, fun q _ => by omega⟩
    rw [if_neg hout, List.getElem?_append_left hlt, List.getElem?_append_left hlt]
  · rw [if_pos List.mem_cons_self, getElem?_length_append]
  · obtain ⟨k, rfl⟩ := Nat.exists_eq_add_of_lt hgt
    have hmem : before.length + k + 1 ∈ before.length :: ends.map (· + (before.length + 1)) ↔
        k ∈ ends := by
      rw [List.mem_cons, List.mem_map]
      constructor
      · rintro (heq | ⟨q, hq, heq⟩)
        · omega
        · obtain rfl : q = k := by omega
          exact hq
      · exact fun hk => Or.inr ⟨k, hk, by omega⟩
    have hindex : before.length + k + 1 - before.length = k + 1 := by omega
    simp only [hmem]
    rw [List.getElem?_append_right (by omega), List.getElem?_append_right (by omega), hindex,
      List.getElem?_cons_succ, List.getElem?_cons_succ]
    exact h k

theorem tokenizes_more
    (hskip : ∀ c ∈ skip, decide (c ∈ delimiters) = true)
    (htoken : ∀ c ∈ token, decide (c ∈ delimiters) = false) (hne : token ≠ [])
    (hd : decide (d ∈ delimiters) = true) (h0 : 0 ∉ token) {qs : List Nat} {buf : List Byte}
    (h : Tokenizes delimiters rest qs buf) :
    Tokenizes delimiters (skip ++ (token ++ d :: rest))
      (skip.length :: qs.map (· + ((skip ++ token).length + 1)))
      (skip ++ (token ++ 0 :: buf)) where
  places := fieldsAt_more hskip htoken hne hd h.places
  buffer := fun j => by
    have hs : skip ++ (token ++ d :: rest) ++ [0] = (skip ++ token) ++ d :: (rest ++ [0]) := by
      simp
    have hbuf : skip ++ (token ++ 0 :: buf) = (skip ++ token) ++ 0 :: buf := by simp
    rw [hs, hbuf, fieldEnds_more hskip htoken hne hd]
    exact getElem?_ended (skip ++ token) d h.buffer j
  strings := by
    rw [fields_append_of_all hskip, fields_append_cons htoken hne hd]
    refine List.Forall₂.cons ?_ ?_
    · exact stringAt_append (fun x hx hzero => h0 (hzero ▸ hx)) skip buf
    · rw [List.forall₂_map_left_iff]
      refine h.strings.imp fun q field hfield => ?_
      have hbuf : skip ++ (token ++ 0 :: buf) = (skip ++ token ++ [0]) ++ buf := by simp
      have hlength : q + ((skip ++ token).length + 1) = q + (skip ++ token ++ [0]).length := by
        simp only [List.length_append, List.length_singleton]
      rw [hbuf, hlength, stringAt_behind, hfield]

theorem strtokCalls_succ
    {buf buf' buf'' : List Byte} {sp sp' sp'' found : Option Nat} {founds : List (Option Nat)}
    {n : Nat} (h : strtokBuffer delimiters buf none sp = .ok (found, sp', buf'))
    (hrest : strtokCalls delimiters n buf' sp' = .ok (founds, sp'', buf'')) :
    strtokCalls delimiters (n + 1) buf sp = .ok (found :: founds, sp'', buf'') := by
  rw [strtokCalls, h, ok_bind]
  dsimp only
  rw [hrest]
  rfl

/-- All calls from a place on. -/
theorem strtokCalls_tokenizes
    (hzero : 0 ∉ delimiters) (s : List Byte) (hs : 0 ∉ s) (pre : List Byte) :
    ∃ qs buf,
      strtokCalls delimiters ((fields (· ∈ delimiters) s).length + 1) (pre ++ (s ++ [0]))
          (some pre.length) =
        .ok (qs.map (fun q => some (pre.length + q)) ++ [none], none, pre ++ buf) ∧
      Tokenizes delimiters s qs buf := by
  induction s using fields_induction (· ∈ delimiters) generalizing pre with
  | all skip hskip =>
      refine ⟨[], skip ++ [0], ?_, tokenizes_all hskip⟩
      rw [fields_of_all hskip]
      exact strtokCalls_succ (strtokBuffer_all hzero (by simpa using hskip) pre) rfl
  | last skip token hskip htoken hne =>
      refine ⟨[skip.length], skip ++ token ++ [0], ?_, tokenizes_last hskip htoken hne hs⟩
      have hbytes : ∀ x ∈ token, x ∉ delimiters ∧ x ≠ 0 := fun x hx =>
        ⟨by simpa using htoken x hx, fun h0 => hs (List.mem_append_right _ (h0 ▸ hx))⟩
      have hfirst := strtokBuffer_last (by simpa using hskip) hbytes hne pre
      have hlast := @strtokBuffer_all delimiters [] hzero (by simp) (pre ++ (skip ++ token))
      simp only [List.append_assoc, List.nil_append] at hlast
      rw [fields_append_of_all hskip, fields_of_none htoken hne]
      simp only [List.append_assoc, List.map_singleton, List.singleton_append,
        ← List.length_append]
      exact strtokCalls_succ hfirst (strtokCalls_succ hlast rfl)
  | more skip token d rest hskip htoken hne hd ih =>
      simp only [List.mem_append, List.mem_cons, not_or] at hs
      have hbytes : ∀ x ∈ token, x ∉ delimiters ∧ x ≠ 0 := fun x hx =>
        ⟨by simpa using htoken x hx, fun h0 => hs.2.1 (h0 ▸ hx)⟩
      obtain ⟨qs, buf, hcalls, htokenizes⟩ := ih hs.2.2.2 (pre ++ (skip ++ (token ++ [0])))
      refine ⟨_, _, ?_, tokenizes_more hskip htoken hne hd hs.2.1 htokenizes⟩
      have hfirst := strtokBuffer_more (by simpa using hskip) hbytes hne (by simpa using hd)
        (Ne.symm hs.2.2.1) pre (rest ++ [0])
      rw [fields_append_of_all hskip, fields_append_cons htoken hne hd]
      have hplace : (fun q => some ((pre ++ (skip ++ (token ++ [0]))).length + q)) =
          (fun q => some (pre.length + q)) ∘ (· + ((skip ++ token).length + 1)) := by
        funext q
        simp only [List.length_append, List.length_singleton, Function.comp_apply,
          Option.some.injEq]
        omega
      rw [hplace, length_behind, ← List.map_map] at hcalls
      simp only [List.append_assoc, List.cons_append, List.nil_append] at hcalls hfirst ⊢
      rw [List.length_append] at hfirst
      exact strtokCalls_succ hfirst hcalls

/-- The calls for one string find its tokens, one each, and then nothing. -/
theorem strtokString_tokenizes
    (delimiters s : CString) :
    ∃ qs buf,
      strtokString delimiters.bytes s.bytes (fields (· ∈ delimiters.bytes) s.bytes).length =
        .ok (qs.map some ++ [none], none, buf) ∧
      Tokenizes delimiters.bytes s.bytes qs buf := by
  obtain ⟨qs, buf, hcalls, htokenizes⟩ :=
    strtokCalls_tokenizes delimiters.noNul s.bytes s.noNul []
  refine ⟨qs, buf, ?_, htokenizes⟩
  simp only [List.nil_append, List.length_nil, Nat.zero_add] at hcalls
  exact hcalls

end Calls

end PeachOS
