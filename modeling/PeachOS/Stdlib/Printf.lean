import Mathlib.Algebra.Group.Even
import PeachOS.Lib.Loop
import PeachOS.Stdlib.Itoa
import PeachOS.Strings

/-!
# `printf`

The loop of `printf` moves its pointer at the end of each round and once more
inside the `switch`.  What it prints are calls of the kernel; what it reads of the
format is remembered, as there are bytes behind the NUL as well.
-/

namespace PeachOS
namespace Stdlib

open Lib

/-- An argument behind the format. -/
inductive VaArg where
  | int (i : Word)
  | string (s : CString)

/-- `va_arg(ap, int)`, with the arguments that are left. -/
def vaArgInt : List VaArg → Option (Word × List VaArg)
  | .int i :: ap => some (i, ap)
  | _ => none

/-- `va_arg(ap, char*)`. -/
def vaArgString : List VaArg → Option (CString × List VaArg)
  | .string sval :: ap => some (sval, ap)
  | _ => none

/-- A call of the kernel that prints. -/
inductive Printed where
  | putchar (c : Byte)
  | print (message : List Byte)

def Printed.text : Printed → List Byte
  | .putchar c => [c]
  | .print message => message

/-- `p` is an index into the format, `ap` has the arguments that are left and
`itoaText` is the static buffer of `itoa`; `read` remembers what has been read of the
format. -/
structure Printf where
  p : Nat
  ap : List VaArg
  itoaText : List Byte
  printed : List Printed
  read : List Nat

def Printf.start (ap : List VaArg) (itoaText : List Byte) : Printf := ⟨0, ap, itoaText, [], []⟩

def Printf.print (s : Printf) (printed : Printed) : Printf :=
  { s with printed := s.printed ++ [printed] }

/-- The `switch`; `va_arg` with a type that is not that of the argument is undefined. -/
def Printf.conversion (s : Printf) (c : Byte) : Except Halt Printf :=
  if c = 105 then
    match vaArgInt s.ap with
    | none => .error .fault
    | some (ival, ap) => do
        let (itoaText, loc) ← itoa s.itoaText ival.toInt
        pure ({ s with ap := ap, itoaText := itoaText }.print
          (.print ((itoaText.drop loc.toNat).takeWhile (· ≠ 0))))
  else if c = 115 then
    match vaArgString s.ap with
    | none => .error .fault
    | some (sval, ap) => .ok ({ s with ap := ap }.print (.print sval.bytes))
  else
    .ok (s.print (.putchar c))

/-- A round of the loop, with the bytes from the format on. -/
def printfRound (fmt : Nat → Byte) (s : Printf) : Except Halt Printf ⊕ Printf :=
  let s := { s with read := s.read ++ [s.p] }
  if fmt s.p = 0 then
    .inl (.ok s)
  else if fmt s.p ≠ 37 then
    .inr { s.print (.putchar (fmt s.p)) with p := s.p + 1 }
  else
    let s := { s with p := s.p + 1, read := s.read ++ [s.p + 1] }
    match s.conversion (fmt s.p) with
    | .error halt => .inl (.error halt)
    | .ok s => .inr { s with p := s.p + 1 }

/-- What is printed for a conversion, and the arguments that are left. -/
def converted (c : Byte) (ap : List VaArg) : Option (List Byte × List VaArg) :=
  if c = 105 then
    (vaArgInt ap).map fun (i, ap) => (decimal i.toInt, ap)
  else if c = 115 then
    (vaArgString ap).map fun (sval, ap) => (sval.bytes, ap)
  else
    some ([c], ap)

/-- The text of a format with its arguments, and the arguments that are left.  A
lone `%` at the end says nothing. -/
def formatted : List Byte → List VaArg → Option (List Byte × List VaArg)
  | [], ap => some ([], ap)
  | [c], ap => some (if c = 37 then [] else [c], ap)
  | c :: d :: s, ap =>
      if c = 37 then do
        let (piece, ap) ← converted d ap
        let (out, ap) ← formatted s ap
        pure (piece ++ out, ap)
      else do
        let (out, ap) ← formatted (d :: s) ap
        pure (c :: out, ap)

/-- The number of `%` at the end of a format. -/
def percentsAtEnd (s : List Byte) : Nat := (s.reverse.takeWhile (· = 37)).length

/-- The string and its NUL stand at the place. -/
def StringAt (bytes : Nat → Byte) (s : List Byte) : Prop :=
  ∀ i c, (s ++ [0])[i]? = some c → bytes i = c

/-- `printf` ends, has printed `out` and left the arguments `rest`, and has read
nothing behind the NUL. -/
def Prints (fmt : Nat → Byte) (s : List Byte) (ap : List VaArg) (itoaText out : List Byte)
    (rest : List VaArg) : Prop :=
  ∃ n final, rounds (printfRound fmt) n (Printf.start ap itoaText) = .inl (.ok final) ∧
    final.printed.flatMap Printed.text = out ∧ final.ap = rest ∧ ∀ i ∈ final.read, i ≤ s.length

section Formats

variable {bytes : Nat → Byte} {c : Byte} {s : List Byte} {ap rest : List VaArg} {out : List Byte}

theorem StringAt.nul (h : StringAt bytes []) : bytes 0 = 0 := h 0 0 rfl

theorem StringAt.head (h : StringAt bytes (c :: s)) : bytes 0 = c := h 0 c rfl

theorem StringAt.tail
    (h : StringAt bytes (c :: s)) :
    StringAt (fun i => bytes (i + 1)) s :=
  fun i d hi => h (i + 1) d hi

theorem StringAt.add
    {p : Nat} (h : StringAt (fun i => bytes (p + i)) (c :: s)) :
    StringAt (fun i => bytes (p + 1 + i)) s := by
  intro i d hi
  have hbyte := h.tail i d hi
  dsimp only at hbyte ⊢
  rwa [Nat.add_assoc, Nat.add_comm 1 i]

/-- A string with zeros behind it. -/
theorem stringAt_getD (s : List Byte) : StringAt (fun i => s.getD i 0) s := by
  intro i c hi
  dsimp only
  rw [List.getD_eq_getElem?_getD]
  rcases Nat.lt_or_ge i s.length with hlt | hge
  · rw [List.getElem?_append_left hlt] at hi
    rw [hi]
    rfl
  · rw [List.getElem?_append_right hge] at hi
    rw [List.getElem?_eq_none hge]
    exact (List.mem_singleton.mp (List.mem_of_getElem? hi)).symm

theorem formatted_char
    (hc : c ≠ 37) (h : formatted (c :: s) ap = some (out, rest)) :
    ∃ out', formatted s ap = some (out', rest) ∧ out = c :: out' := by
  cases s with
  | nil =>
      rw [formatted, if_neg hc] at h
      cases h
      exact ⟨[], rfl, rfl⟩
  | cons d s =>
      rw [formatted, if_neg hc] at h
      obtain ⟨⟨out', ap'⟩, hs, heq⟩ := Option.bind_eq_some_iff.mp h
      cases heq
      exact ⟨out', hs, rfl⟩

theorem formatted_conversion
    (h : formatted (37 :: c :: s) ap = some (out, rest)) :
    ∃ piece ap' out', converted c ap = some (piece, ap') ∧
      formatted s ap' = some (out', rest) ∧ out = piece ++ out' := by
  rw [formatted, if_pos rfl] at h
  obtain ⟨⟨piece, ap'⟩, hconverted, h⟩ := Option.bind_eq_some_iff.mp h
  obtain ⟨⟨out', ap''⟩, hs, heq⟩ := Option.bind_eq_some_iff.mp h
  cases heq
  exact ⟨piece, ap', out', hconverted, hs, rfl⟩

theorem percentsAtEnd_cons :
    percentsAtEnd (c :: s) =
      if percentsAtEnd s = s.length then s.length + (if c = 37 then 1 else 0)
      else percentsAtEnd s := by
  rw [percentsAtEnd, percentsAtEnd, List.reverse_cons, List.takeWhile_append, List.length_reverse]
  split_ifs with hall hc
  · rw [List.length_append, List.length_reverse, List.takeWhile_cons_of_pos (by simpa using hc)]
    rfl
  · rw [List.length_append, List.length_reverse, List.takeWhile_cons_of_neg (by simpa using hc)]
    rfl
  · rfl

theorem even_percentsAtEnd_char
    (hc : c ≠ 37) :
    Even (percentsAtEnd (c :: s)) ↔ Even (percentsAtEnd s) := by
  rw [percentsAtEnd_cons]
  split_ifs with hall
  · rw [hall, Nat.add_zero]
  · rfl

/-- A conversion is passed over with its two bytes. -/
theorem even_percentsAtEnd_conversion :
    Even (percentsAtEnd (37 :: c :: s)) ↔ Even (percentsAtEnd s) := by
  rw [percentsAtEnd_cons, percentsAtEnd_cons, List.length_cons]
  have hle : percentsAtEnd s ≤ s.length := by
    have hsub := (List.takeWhile_sublist (· = (37 : Byte)) (l := s.reverse)).length_le
    rwa [List.length_reverse] at hsub
  by_cases hall : percentsAtEnd s = s.length
  · by_cases hc : c = 37
    · rw [if_pos hall, if_pos hc, if_pos rfl, if_pos rfl, hall]
      exact Nat.even_add.trans (by simp [Nat.even_add_one])
    · rw [if_pos hall, if_neg hc, if_neg (by omega), hall, Nat.add_zero]
  · rw [if_neg hall, if_neg (by omega)]

end Formats

section Rounds

variable {fmt : Nat → Byte} {st st' : Printf} {c : Byte} {s : List Byte} {rest : List VaArg}
  {out : List Byte}

theorem printfRound_nul
    (h : fmt st.p = 0) :
    printfRound fmt st = .inl (.ok { st with read := st.read ++ [st.p] }) :=
  if_pos h

theorem printfRound_char
    (h : fmt st.p = c) (h0 : c ≠ 0) (hc : c ≠ 37) :
    printfRound fmt st =
      .inr { st.print (.putchar c) with p := st.p + 1, read := st.read ++ [st.p] } := by
  subst h
  exact (if_neg h0).trans (if_pos hc)

theorem printfRound_percent
    (h : fmt st.p = 37)
    (hconversion : { st with p := st.p + 1, read := st.read ++ [st.p] ++ [st.p + 1] }.conversion
      (fmt (st.p + 1)) = .ok st') :
    printfRound fmt st = .inr { st' with p := st'.p + 1 } := by
  rw [printfRound]
  dsimp only
  rw [if_neg (by rw [h]; decide), if_neg (not_not.mpr h), hconversion]

/-- What a conversion with an argument for it does. -/
structure Converted (st : Printf) (piece : List Byte) (ap : List VaArg) (st' : Printf) : Prop where
  printed : st'.printed.flatMap Printed.text = st.printed.flatMap Printed.text ++ piece
  ap : st'.ap = ap
  p : st'.p = st.p
  read : st'.read = st.read
  itoaText : st'.itoaText.length = sizeofText

theorem print_text
    (st : Printf) (printed : Printed) :
    (st.print printed).printed.flatMap Printed.text =
      st.printed.flatMap Printed.text ++ printed.text := by
  rw [Printf.print, List.flatMap_append, List.flatMap_singleton]

/-- The string that `itoa` returns is read up to its NUL. -/
theorem takeWhile_decimal
    (before : List Byte) (i : Int) :
    ((before ++ (decimal i ++ [0])).drop before.length).takeWhile (· ≠ 0) = decimal i := by
  have hnul (c : Byte) (hc : c ∈ decimal i) : decide (c ≠ 0) = true :=
    decide_eq_true fun h0 => zero_not_mem_decimal i (h0 ▸ hc)
  rw [List.drop_left, List.takeWhile_append_of_pos hnul, List.takeWhile_cons_of_neg (by simp),
    List.append_nil]

theorem conversion_eq
    {ap : List VaArg} {piece : List Byte} (htext : st.itoaText.length = sizeofText)
    (h : converted c st.ap = some (piece, ap)) :
    ∃ st', st.conversion c = .ok st' ∧ Converted st piece ap st' := by
  by_cases hi : c = 105
  · rw [converted, if_pos hi] at h
    obtain ⟨⟨i, ap'⟩, hap, heq⟩ := Option.map_eq_some_iff.mp h
    cases heq
    obtain ⟨before, hlength, hitoa⟩ := itoa_spec htext (isInt_toInt i)
    rw [Printf.conversion, if_pos hi, hap]
    dsimp only
    rw [hitoa, ok_bind]
    refine ⟨_, rfl, ?_, rfl, rfl, rfl, ?_⟩
    · rw [print_text]
      exact congrArg (_ ++ ·) (takeWhile_decimal before i.toInt)
    · change (before ++ (decimal i.toInt ++ [0])).length = _
      rw [List.length_append, List.length_append, ← Nat.add_assoc, hlength]
      rfl
  · by_cases hstring : c = 115
    · rw [converted, if_neg hi, if_pos hstring] at h
      obtain ⟨⟨sval, ap'⟩, hap, heq⟩ := Option.map_eq_some_iff.mp h
      cases heq
      rw [Printf.conversion, if_neg hi, if_pos hstring, hap]
      exact ⟨_, rfl, print_text _ _, rfl, rfl, rfl, htext⟩
    · rw [converted, if_neg hi, if_neg hstring] at h
      cases h
      rw [Printf.conversion, if_neg hi, if_neg hstring]
      exact ⟨_, rfl, print_text _ _, rfl, rfl, rfl, htext⟩

/-- Where the loop is behind some rounds: it has printed `piece`, and has read
nothing from the byte `bound` on. -/
structure Passed (st : Printf) (piece : List Byte) (ap : List VaArg) (p bound : Nat)
    (st' : Printf) : Prop extends Converted { st with p := p, read := st'.read } piece ap st' where
  bounded : ∀ i ∈ st'.read, i ∈ st.read ∨ i < bound

theorem Passed.char
    (h : fmt st.p = c) (h0 : c ≠ 0) (hc : c ≠ 37) (htext : st.itoaText.length = sizeofText) :
    ∃ st', printfRound fmt st = .inr st' ∧
      Passed st [c] st.ap (st.p + 1) (st.p + 1) st' := by
  refine ⟨_, printfRound_char h h0 hc, ⟨print_text st (.putchar c), rfl, rfl, rfl, htext⟩, ?_⟩
  intro i hi
  rcases List.mem_append.mp hi with hi | hi
  · exact Or.inl hi
  · rw [List.mem_singleton.mp hi]
    exact Or.inr (Nat.lt_succ_self _)

/-- A conversion, or a lone `%`, whose second byte is the NUL. -/
theorem Passed.percent
    {piece : List Byte} {ap : List VaArg} (h : fmt st.p = 37)
    (hconverted : converted (fmt (st.p + 1)) st.ap = some (piece, ap))
    (htext : st.itoaText.length = sizeofText) :
    ∃ st', printfRound fmt st = .inr st' ∧ Passed st piece ap (st.p + 2) (st.p + 2) st' := by
  have htext' : ({ st with
      p := st.p + 1, read := st.read ++ [st.p] ++ [st.p + 1] } : Printf).itoaText.length =
        sizeofText := htext
  obtain ⟨st', hconversion, hst'⟩ := conversion_eq htext' hconverted
  refine ⟨_, printfRound_percent h hconversion,
    ⟨hst'.printed, hst'.ap, congrArg (· + 1) hst'.p, rfl, hst'.itoaText⟩, ?_⟩
  intro i hi
  rw [hst'.read] at hi
  rcases List.mem_append.mp hi with hi | hi
  · rcases List.mem_append.mp hi with hi | hi
    · exact Or.inl hi
    · rw [List.mem_singleton.mp hi]
      omega
  · rw [List.mem_singleton.mp hi]
    omega

theorem Passed.trans
    {st₁ st₂ : Printf} {piece piece' : List Byte} {ap ap' : List VaArg} {p p' bound bound' : Nat}
    (h : Passed st piece ap p bound st₁) (h' : Passed st₁ piece' ap' p' bound' st₂)
    (hle : bound ≤ bound') :
    Passed st (piece ++ piece') ap' p' bound' st₂ := by
  refine ⟨⟨?_, h'.ap, h'.p, rfl, h'.itoaText⟩, fun i hi => ?_⟩
  · rw [h'.printed, ← List.append_assoc]
    exact congrArg (· ++ piece') h.printed
  · rcases h'.bounded i hi with hi | hi
    · rcases h.bounded i hi with hi | hi
      · exact Or.inl hi
      · exact Or.inr (Nat.lt_of_lt_of_le hi hle)
    · exact Or.inr hi

/-- The loop has come to the NUL behind the rest `s` of the format if the number of
`%` at its end is even, and has stepped over the NUL otherwise. -/
def Passes (st : Printf) (s out : List Byte) (rest : List VaArg) (st' : Printf) : Prop :=
  if Even (percentsAtEnd s) then
    Passed st out rest (st.p + s.length) (st.p + s.length) st'
  else
    Passed st (out ++ [0]) rest (st.p + s.length + 1) (st.p + s.length + 1) st'

theorem Passed.passes
    {st₁ st₂ : Printf} {piece out : List Byte} {ap : List VaArg} {s s' : List Byte} {k : Nat}
    (h : Passed st piece ap (st.p + k) (st.p + k) st₁) (h' : Passes st₁ s out rest st₂)
    (heven : Even (percentsAtEnd s') ↔ Even (percentsAtEnd s))
    (hlength : s'.length = s.length + k) :
    Passes st s' (piece ++ out) rest st₂ := by
  have hp : st₁.p + s.length = st.p + s'.length := by
    have hp₁ : st₁.p = st.p + k := h.p
    omega
  rw [Passes, hp] at h'
  rw [Passes, if_congr heven rfl rfl]
  split_ifs at h' ⊢
  · exact h.trans h' (by omega)
  · rw [List.append_assoc]
    exact h.trans h' (by omega)

theorem printf_passes
    (h : StringAt (fun i => fmt (st.p + i)) s) (hs : 0 ∉ s)
    (htext : st.itoaText.length = sizeofText)
    (hformatted : formatted s st.ap = some (out, rest)) :
    ∃ n st', rounds (printfRound fmt) n st = .inr st' ∧ Passes st s out rest st' := by
  induction hn : s.length using Nat.strong_induction_on generalizing st s out with
  | _ n ih =>
      subst hn
      match s with
      | [] =>
          cases hformatted
          refine ⟨0, st, rfl, ?_⟩
          rw [Passes, if_pos (by decide)]
          exact ⟨⟨(List.append_nil _).symm, rfl, rfl, rfl, htext⟩, fun i hi => Or.inl hi⟩
      | c :: s =>
          have hc : fmt st.p = c := h.head
          have h0 : c ≠ 0 := fun h0 => hs (h0 ▸ List.mem_cons_self)
          have hs' : 0 ∉ s := fun h0 => hs (List.mem_cons_of_mem c h0)
          by_cases hpercent : c = 37
          · subst hpercent
            cases s with
            | nil =>
                have hnul : fmt (st.p + 1) = 0 := h.add.nul
                cases hformatted
                have hconverted : converted (fmt (st.p + 1)) st.ap = some ([0], st.ap) := by
                  rw [hnul]
                  rfl
                obtain ⟨st', hround, hpassed⟩ := Passed.percent hc hconverted htext
                refine ⟨1, st', rounds_succ_of_inr hround 0, ?_⟩
                rw [Passes, if_neg (by decide)]
                exact hpassed
            | cons d s =>
                obtain ⟨piece, ap', out', hconverted, hformatted, rfl⟩ :=
                  formatted_conversion hformatted
                have hd : fmt (st.p + 1) = d := h.add.head
                obtain ⟨st', hround, hpassed⟩ := Passed.percent hc (by rwa [hd]) htext
                have hrest : StringAt (fun i => fmt (st'.p + i)) s := by
                  rw [hpassed.p]
                  exact h.add.add
                have hs'' : 0 ∉ s := fun h0 => hs' (List.mem_cons_of_mem d h0)
                obtain ⟨n, st'', hrounds, hpasses⟩ := ih s.length (by simp) hrest hs''
                  hpassed.itoaText (by rwa [hpassed.ap]) rfl
                exact ⟨n + 1, st'', (rounds_succ_of_inr hround n).trans hrounds,
                  hpassed.passes hpasses even_percentsAtEnd_conversion rfl⟩
          · obtain ⟨out', hformatted, rfl⟩ := formatted_char hpercent hformatted
            obtain ⟨st', hround, hpassed⟩ := Passed.char hc h0 hpercent htext
            have hrest : StringAt (fun i => fmt (st'.p + i)) s := by
              rw [hpassed.p]
              exact h.add
            obtain ⟨n, st'', hrounds, hpasses⟩ := ih s.length (by simp) hrest hs'
              hpassed.itoaText (by rwa [hpassed.ap]) rfl
            exact ⟨n + 1, st'', (rounds_succ_of_inr hround n).trans hrounds,
              hpassed.passes hpasses (even_percentsAtEnd_char hpercent) rfl⟩

theorem conversion_read
    (h : st.conversion c = .ok st') :
    st'.read = st.read := by
  rw [Printf.conversion] at h
  split_ifs at h
  · cases hap : vaArgInt st.ap with
    | none =>
        rw [hap] at h
        cases h
    | some found =>
        rw [hap] at h
        obtain ⟨out, -, heq⟩ := bind_eq_ok_iff.mp h
        cases heq
        rfl
  · cases hap : vaArgString st.ap with
    | none =>
        rw [hap] at h
        cases h
    | some found =>
        rw [hap] at h
        cases h
        rfl
  · cases h
    rfl

/-- A round reads the byte at `p`. -/
theorem read_of_round
    (h : printfRound fmt st = .inr st' ∨ printfRound fmt st = .inl (.ok st')) :
    st.read ++ [st.p] <+: st'.read := by
  rw [printfRound] at h
  dsimp only at h
  split_ifs at h with hnul hchar
  · obtain h | h := h
    · cases h
    · cases h
      exact List.prefix_rfl
  · obtain h | h := h
    · cases h
      exact List.prefix_rfl
    · cases h
  · split at h
    next => obtain h | h := h <;> cases h
    next hconversion =>
      obtain h | h := h
      · cases h
        exact ⟨[st.p + 1], (conversion_read hconversion).symm⟩
      · cases h

/-- A run that ends has read the byte that it starts at. -/
theorem read_of_rounds
    {n : Nat} {final : Printf} (h : rounds (printfRound fmt) n st = .inl (.ok final)) :
    st.read ++ [st.p] <+: final.read := by
  induction n generalizing st with
  | zero => cases h
  | succ n ih =>
      cases hround : printfRound fmt st with
      | inl out =>
          rw [rounds_succ_of_inl hround] at h
          cases h
          exact read_of_round (Or.inr hround)
      | inr st' =>
          rw [rounds_succ_of_inr hround] at h
          have hfirst := read_of_round (Or.inl hround)
          exact hfirst.trans ((List.prefix_append st'.read [st'.p]).trans (ih h))

/-- A format with an even number of `%` at its end. -/
theorem prints_of_even
    {ap : List VaArg} {itoaText : List Byte} (h : StringAt fmt s) (hs : 0 ∉ s)
    (htext : itoaText.length = sizeofText) (hformatted : formatted s ap = some (out, rest))
    (heven : Even (percentsAtEnd s)) :
    Prints fmt s ap itoaText out rest := by
  have hstart : StringAt (fun i => fmt ((Printf.start ap itoaText).p + i)) s := by
    simpa only [Printf.start, Nat.zero_add] using h
  obtain ⟨n, st', hrounds, hpasses⟩ := printf_passes hstart hs htext hformatted
  rw [Passes, if_pos heven] at hpasses
  have hp : st'.p = s.length := hpasses.p.trans (Nat.zero_add _)
  have hnul : fmt st'.p = 0 := by
    rw [hp]
    exact h s.length 0 (by simp)
  refine ⟨n + 1, _, (rounds_add hrounds 1).trans (rounds_succ_of_inl (printfRound_nul hnul) 0),
    hpasses.printed, hpasses.ap, fun i hi => ?_⟩
  rcases List.mem_append.mp hi with hi | hi
  · rcases hpasses.bounded i hi with hi | hi
    · cases hi
    · change i < 0 + s.length at hi
      omega
  · rw [List.mem_singleton.mp hi, hp]

/-- With an odd number of `%` at the end of the format the byte behind its NUL is
read, if the loop ends at all. -/
theorem not_prints_of_odd
    {ap : List VaArg} {itoaText : List Byte} (h : StringAt fmt s) (hs : 0 ∉ s)
    (htext : itoaText.length = sizeofText) (hformatted : formatted s ap = some (out, rest))
    (hodd : ¬ Even (percentsAtEnd s)) :
    ¬ Prints fmt s ap itoaText out rest := by
  rintro ⟨m, final, hfinal, -, -, hread⟩
  have hstart : StringAt (fun i => fmt ((Printf.start ap itoaText).p + i)) s := by
    simpa only [Printf.start, Nat.zero_add] using h
  obtain ⟨n, st', hrounds, hpasses⟩ := printf_passes hstart hs htext hformatted
  rw [Passes, if_neg hodd] at hpasses
  have hp : st'.p = 0 + s.length + 1 := hpasses.p
  have hbehind : rounds (printfRound fmt) m st' = .inl (.ok final) := by
    rw [← rounds_add hrounds m, Nat.add_comm]
    exact rounds_ended hfinal n
  have hle := hread st'.p ((read_of_rounds hbehind).subset
    (List.mem_append_right _ (List.mem_singleton_self _)))
  omega

/-- `printf` does what the format says exactly if the format does not end in an odd
number of `%`. -/
theorem printf_prints_iff
    (fmt : Nat → Byte) (s : List Byte) (ap rest : List VaArg) (itoaText out : List Byte)
    (h : StringAt fmt s) (hs : 0 ∉ s) (htext : itoaText.length = sizeofText)
    (hformatted : formatted s ap = some (out, rest)) :
    Prints fmt s ap itoaText out rest ↔ Even (percentsAtEnd s) :=
  ⟨fun hprints => not_not.mp fun hodd => not_prints_of_odd h hs htext hformatted hodd hprints,
    prints_of_even h hs htext hformatted⟩

end Rounds

/-- A format with a number and a `%` that is printed. -/
theorem printf_prints_iff_percent :
    Prints (fun i => [37, 105, 32, 37, 37].getD i 0) [37, 105, 32, 37, 37] [.int 7]
      (List.replicate 12 0) [55, 32, 37] [] ↔ Even (percentsAtEnd [37, 105, 32, 37, 37]) :=
  printf_prints_iff _ _ _ _ _ _ (stringAt_getD _) (by decide) rfl rfl

/-- `printf` does what the format says, for every format with arguments for it. -/
def FormatsPrinted : Prop :=
  ∀ (fmt : Nat → Byte) (s : List Byte) (ap rest : List VaArg) (itoaText out : List Byte),
    StringAt fmt s → 0 ∉ s → itoaText.length = sizeofText → formatted s ap = some (out, rest) →
      Prints fmt s ap itoaText out rest

/-- The format is a single `%`. -/
theorem formatsPrinted_false : ¬ FormatsPrinted := by
  intro h
  exact not_prints_of_odd (stringAt_getD [37]) (by decide) rfl rfl (by decide)
    (h _ [37] [] [] (List.replicate 12 0) [] (stringAt_getD [37]) (by decide) rfl rfl)

end Stdlib
end PeachOS
