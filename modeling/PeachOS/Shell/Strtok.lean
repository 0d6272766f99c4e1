import PeachOS.Config
import PeachOS.Lib.Fields

/-!
# The tokens of a command line

`strtok` of the programs' library.  A `char*` is the rest of the string that it
points into, or `none` for the null pointer; the zero byte that ends a token is
written over the delimiter behind it.
-/

namespace PeachOS

open Lib

def space : Byte := 32

/-- The token, and `sp` behind the call. -/
def strtok (str sp : Option (List Byte)) (delimiters : List Byte) :
    Option (List Byte) × Option (List Byte) :=
  -- `sp` is only set to `str` when it is null
  match sp.or str with
  | none => (none, none)
  | some s =>
      let start := s.dropWhile (· ∈ delimiters)
      if start = [] then
        (none, none)
      else
        (some (start.takeWhile (· ∉ delimiters)), some (start.dropWhile (· ∉ delimiters)).tail)

/-- The maximal parts of a line without a space. -/
def tokens (line : List Byte) : List (List Byte) :=
  (line.splitOnP (· = space)).filter (· ≠ [])

theorem tokens_eq_fields (line : List Byte) : tokens line = fields (· = space) line := rfl

section Call

variable {delimiters skip token rest : List Byte}

theorem strtok_all
    (hskip : ∀ c ∈ skip, c ∈ delimiters) :
    strtok none (some skip) delimiters = (none, none) := by
  have hstart : skip.dropWhile (· ∈ delimiters) = [] := by simpa using hskip
  rw [strtok, Option.some_or]
  dsimp only
  rw [if_pos hstart]

theorem strtok_token
    (hskip : ∀ c ∈ skip, c ∈ delimiters) (htoken : ∀ c ∈ token, c ∉ delimiters)
    (hne : token ≠ []) (hrest : ∀ d ∈ rest.head?, d ∈ delimiters) :
    strtok none (some (skip ++ (token ++ rest))) delimiters = (some token, some rest.tail) := by
  have hstart : (skip ++ (token ++ rest)).dropWhile (· ∈ delimiters) = token ++ rest := by
    rw [List.dropWhile_append_of_pos (by simpa using hskip)]
    obtain ⟨c, cs, rfl⟩ := List.exists_cons_of_ne_nil hne
    rw [List.cons_append, List.dropWhile_cons_of_neg (by simpa using htoken c List.mem_cons_self)]
  have hbehind : rest.takeWhile (· ∉ delimiters) = [] ∧
      rest.dropWhile (· ∉ delimiters) = rest := by
    cases rest with
    | nil => exact ⟨rfl, rfl⟩
    | cons d rest => simp [hrest d rfl]
  rw [strtok, Option.some_or]
  dsimp only
  rw [hstart, if_neg (by simp [hne]), List.takeWhile_append_of_pos (by simpa using htoken),
    List.dropWhile_append_of_pos (by simpa using htoken), hbehind.1, hbehind.2, List.append_nil]

end Call

/-- One call of `strtok` takes the first token of what is left. -/
theorem strtok_spec
    (str : Option (List Byte)) (s : List Byte) :
    (tokens s = [] ∧ strtok str (some s) [space] = (none, none)) ∨
      ∃ token rest, tokens s = token :: tokens rest ∧ token ≠ [] ∧ token ++ rest ⊆ s ∧
        token.length + rest.length ≤ s.length ∧
        strtok str (some s) [space] = (some token, some rest) := by
  change (tokens s = [] ∧ strtok none (some s) [space] = (none, none)) ∨
    ∃ token rest, tokens s = token :: tokens rest ∧ token ≠ [] ∧ token ++ rest ⊆ s ∧
      token.length + rest.length ≤ s.length ∧
      strtok none (some s) [space] = (some token, some rest)
  simp only [tokens_eq_fields]
  induction s using fields_induction (· = space) with
  | all skip hskip => exact Or.inl ⟨fields_of_all hskip, strtok_all (by simpa using hskip)⟩
  | last skip token hskip htoken hne =>
      have hstrtok : strtok none (some (skip ++ (token ++ []))) [space] = (some token, some []) :=
        strtok_token (by simpa using hskip) (by simpa using htoken) hne (by simp)
      refine Or.inr ⟨token, [], ?_, hne, ?_, ?_, ?_⟩
      · rw [fields_append_of_all hskip, fields_of_none htoken hne]
        rfl
      · simp
      · simp
      · rw [← hstrtok, List.append_nil]
  | more skip token d rest hskip htoken hne hd _ =>
      have hstrtok : strtok none (some (skip ++ (token ++ d :: rest))) [space] =
          (some token, some rest) :=
        strtok_token (by simpa using hskip) (by simpa using htoken) hne (by simpa using hd)
      refine Or.inr ⟨token, rest, ?_, hne, ?_, ?_, hstrtok⟩
      · rw [fields_append_of_all hskip, fields_append_cons htoken hne hd]
      · rw [List.append_subset]
        exact ⟨by simp, fun x hx => by simp [hx]⟩
      · simp only [List.length_append, List.length_cons]
        omega

/-- A line that is not blank has a token. -/
theorem tokens_ne_nil
    {s : List Byte} (h : ∃ c ∈ s, c ≠ space) :
    tokens s ≠ [] := by
  rw [tokens_eq_fields]
  induction s using fields_induction (· = space) with
  | all skip hskip =>
      obtain ⟨c, hc, hne⟩ := h
      exact absurd (of_decide_eq_true (hskip c hc)) hne
  | last skip token hskip htoken hne =>
      rw [fields_append_of_all hskip, fields_of_none htoken hne]
      exact List.cons_ne_nil _ _
  | more skip token d rest hskip htoken hne hd _ =>
      rw [fields_append_of_all hskip, fields_append_cons htoken hne hd]
      exact List.cons_ne_nil _ _

/-- A line has no more tokens than bytes. -/
theorem length_tokens_le
    (s : List Byte) :
    (tokens s).length ≤ s.length := by
  induction hn : s.length using Nat.strong_induction_on generalizing s with
  | h n ih =>
      rcases strtok_spec none s with ⟨hnone, -⟩ | ⟨token, rest, htokens, hne, -, hlength, -⟩
      · rw [hnone]
        exact Nat.zero_le n
      · have hpos := List.length_pos_of_ne_nil hne
        have hrest := ih rest.length (by omega) rest rfl
        rw [htokens, List.length_cons]
        omega

theorem ne_nil_of_mem_tokens
    {s token : List Byte} (h : token ∈ tokens s) :
    token ≠ [] := by
  simpa using (List.mem_filter.mp h).2

/-- The bytes of a token are bytes of the line. -/
theorem subset_of_mem_tokens
    {s token : List Byte} (h : token ∈ tokens s) :
    token ⊆ s := by
  induction hn : s.length using Nat.strong_induction_on generalizing s with
  | h n ih =>
      rcases strtok_spec none s with ⟨hnone, -⟩ | ⟨first, rest, htokens, hne, hsub, hlength, -⟩
      · rw [hnone] at h
        cases h
      · have hpos := List.length_pos_of_ne_nil hne
        rw [List.append_subset] at hsub
        rw [htokens] at h
        rcases List.mem_cons.mp h with rfl | hmem
        · exact hsub.1
        · exact List.Subset.trans (ih rest.length (by omega) hmem rfl) hsub.2

example : tokens [space, 97, 98, space, space, 99] = [[97, 98], [99]] := by decide

end PeachOS
