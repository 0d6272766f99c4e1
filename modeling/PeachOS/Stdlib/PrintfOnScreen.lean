import PeachOS.Stdlib.LineOnScreen
import PeachOS.Stdlib.Printf
import PeachOS.Task.PrintCall

/-!
# `printf` on the screen

What `printf` of a program makes of the screen, through the system calls `putchar` and
`print`.  With the `strncpy` of the kernel the arguments have no part in it: in the place
of each number and each string stands what is on the stack of the kernel.
-/

namespace PeachOS
namespace Stdlib

open Lib Terminal

/-- The system calls, one after another; `bufs` has what the array of `print` on the stack
of the kernel holds at each. -/
def showPrinted (copying : Copying) :
    (Nat → List Byte) → Terminal → List Printed → Except Halt Terminal
  | _, t, [] => .ok t
  | bufs, t, .putchar c :: rest =>
      showPrinted copying (fun n => bufs (n + 1)) (isr80hCommand3Putchar t (c.signExtend 32)) rest
  | bufs, t, .print message :: rest => do
      let shown ← shownString copying (bufs 0) message
      showPrinted copying (fun n => bufs (n + 1)) (t.print shown) rest

section Conversion

variable {st st' : Printf} {c : Byte}

/-- An `%i` prints the number. -/
theorem conversion_int
    {i : Word} {ap : List VaArg} (htext : st.itoaText.length = sizeofText)
    (hap : st.ap = .int i :: ap) :
    ∃ itoaText, itoaText.length = sizeofText ∧
      st.conversion 105 =
        .ok ({ st with ap := ap, itoaText := itoaText }.print (.print (decimal i.toInt))) := by
  obtain ⟨before, hlength, hitoa⟩ := itoa_spec htext (isInt_toInt i)
  refine ⟨before ++ (decimal i.toInt ++ [0]), ?_, ?_⟩
  · rw [List.length_append, List.length_append, ← Nat.add_assoc, hlength]
    rfl
  · rw [Printf.conversion, if_pos rfl, hap]
    dsimp only [vaArgInt]
    rw [hitoa, ok_bind]
    dsimp only
    rw [Int.toNat_natCast, takeWhile_decimal]
    rfl

theorem conversion_string
    {sval : CString} {ap : List VaArg} (hap : st.ap = .string sval :: ap) :
    st.conversion 115 = .ok ({ st with ap := ap }.print (.print sval.bytes)) := by
  rw [Printf.conversion, if_neg (by decide), if_pos rfl, hap]
  rfl

theorem conversion_char
    (hi : c ≠ 105) (hs : c ≠ 115) :
    st.conversion c = .ok (st.print (.putchar c)) := by
  rw [Printf.conversion, if_neg hi, if_neg hs]

/-- The next argument is a number or a string. -/
theorem vaArgs_cases
    (ap : List VaArg) :
    ap = [] ∨ (∃ i rest, ap = .int i :: rest) ∨ ∃ sval rest, ap = .string sval :: rest := by
  rcases ap with _ | ⟨i | sval, rest⟩
  · exact Or.inl rfl
  · exact Or.inr (Or.inl ⟨i, rest, rfl⟩)
  · exact Or.inr (Or.inr ⟨sval, rest, rfl⟩)

/-- A conversion that returns has found an argument of its type. -/
theorem conversion_ok
    (h : st.conversion c = .ok st') :
    (c = 105 ∧ ∃ i ap, st.ap = .int i :: ap) ∨ (c = 115 ∧ ∃ sval ap, st.ap = .string sval :: ap) ∨
      (c ≠ 105 ∧ c ≠ 115) := by
  by_cases hi : c = 105
  · refine Or.inl ⟨hi, ?_⟩
    rw [Printf.conversion, if_pos hi] at h
    rcases vaArgs_cases st.ap with hap | ⟨i, ap, hap⟩ | ⟨sval, ap, hap⟩
    · rw [hap] at h
      cases h
    · exact ⟨i, ap, hap⟩
    · rw [hap] at h
      cases h
  · by_cases hs : c = 115
    · refine Or.inr (Or.inl ⟨hs, ?_⟩)
      rw [Printf.conversion, if_neg hi, if_pos hs] at h
      rcases vaArgs_cases st.ap with hap | ⟨i, ap, hap⟩ | ⟨sval, ap, hap⟩
      · rw [hap] at h
        cases h
      · rw [hap] at h
        cases h
      · exact ⟨sval, ap, hap⟩
    · exact Or.inr (Or.inr ⟨hi, hs⟩)

/-- The two bytes of a conversion. -/
def Printf.toConversion (st : Printf) : Printf :=
  { st with p := st.p + 1, read := st.read ++ [st.p] ++ [st.p + 1] }

theorem printfRound_conversion
    {fmt : Nat → Byte} (h : fmt st.p = 37) :
    printfRound fmt st =
      match st.toConversion.conversion (fmt (st.p + 1)) with
      | .error halt => .inl (.error halt)
      | .ok st' => .inr { st' with p := st'.p + 1 } := by
  rw [printfRound]
  dsimp only
  rw [if_neg (by rw [h]; decide), if_neg (not_not.mpr h)]
  rfl

end Conversion

def SameKind : VaArg → VaArg → Prop
  | .int _, .int _ => True
  | .string _, .string _ => True
  | _, _ => False

/-- The same system call, with any message. -/
def SameCall : Printed → Printed → Prop
  | .putchar c, .putchar d => c = d
  | .print _, .print _ => True
  | _, _ => False

/-- Two runs of `printf` with one format. -/
structure Alike (st st' : Printf) : Prop where
  p : st.p = st'.p
  itoaText : st.itoaText.length = sizeofText
  itoaText' : st'.itoaText.length = sizeofText
  ap : List.Forall₂ SameKind st.ap st'.ap
  printed : List.Forall₂ SameCall st.printed st'.printed

theorem showPrinted_compares
    (bufs : Nat → List Byte) (t : Terminal) {printed printed' : List Printed}
    (h : List.Forall₂ SameCall printed printed') :
    showPrinted .compares bufs t printed = showPrinted .compares bufs t printed' := by
  induction h generalizing bufs t with
  | nil => rfl
  | @cons p p' printed printed' hp _ ih =>
      cases p with
      | putchar c =>
          cases p' with
          | putchar d =>
              obtain rfl : c = d := hp
              exact ih _ _
          | print message => exact hp.elim
      | print message =>
          cases p' with
          | putchar d => exact hp.elim
          | print message' =>
              rw [showPrinted, showPrinted]
              exact bind_congr fun shown => ih _ _

section Alike

variable {fmt : Nat → Byte} {st st' final : Printf} {c : Byte}

theorem Alike.print
    (h : Alike st st') {p p' : Printed} (hp : SameCall p p') :
    Alike (st.print p) (st'.print p') :=
  ⟨h.p, h.itoaText, h.itoaText', h.ap, List.rel_append h.printed (.cons hp .nil)⟩

theorem Alike.conversion
    (h : Alike st st') (hconversion : st.conversion c = .ok final) :
    ∃ final', st'.conversion c = .ok final' ∧ Alike final final' := by
  have hkinds := h.ap
  rcases conversion_ok hconversion with ⟨rfl, i, ap, hap⟩ | ⟨rfl, sval, ap, hap⟩ | ⟨hi, hs⟩
  · rw [hap] at hkinds
    obtain ⟨arg, ap', harg, hrest, hap'⟩ := List.forall₂_cons_left_iff.mp hkinds
    cases arg with
    | int j =>
        obtain ⟨itoaText, hlength, heq⟩ := conversion_int h.itoaText hap
        obtain ⟨itoaText', hlength', heq'⟩ := conversion_int h.itoaText' hap'
        cases heq.symm.trans hconversion
        have hnext : Alike { st with ap := ap, itoaText := itoaText }
            { st' with ap := ap', itoaText := itoaText' } :=
          ⟨h.p, hlength, hlength', hrest, h.printed⟩
        exact ⟨_, heq', hnext.print trivial⟩
    | string s => exact harg.elim
  · rw [hap] at hkinds
    obtain ⟨arg, ap', harg, hrest, hap'⟩ := List.forall₂_cons_left_iff.mp hkinds
    cases arg with
    | int j => exact harg.elim
    | string sval' =>
        cases (conversion_string hap).symm.trans hconversion
        have hnext : Alike { st with ap := ap } { st' with ap := ap' } :=
          ⟨h.p, h.itoaText, h.itoaText', hrest, h.printed⟩
        exact ⟨_, conversion_string hap', hnext.print trivial⟩
  · cases (conversion_char hi hs).symm.trans hconversion
    exact ⟨_, conversion_char hi hs, h.print (show SameCall (.putchar c) (.putchar c) from rfl)⟩

theorem Alike.symm
    (h : Alike st st') :
    Alike st' st := by
  refine ⟨h.p.symm, h.itoaText', h.itoaText, h.ap.flip.imp fun a b hab => ?_,
    h.printed.flip.imp fun a b hab => ?_⟩
  · cases a <;> cases b <;> exact hab
  · cases a <;> cases b <;> first | exact hab | exact Eq.symm hab

/-- Results of two runs. -/
def AlikeResults : Except Halt Printf → Except Halt Printf → Prop
  | .ok final, .ok final' => List.Forall₂ SameCall final.printed final'.printed
  | .error _, .error _ => True
  | _, _ => False

/-- A round of one run, and one of the other. -/
theorem Alike.round
    (h : Alike st st') :
    (∃ next next', printfRound fmt st = .inr next ∧ printfRound fmt st' = .inr next' ∧
        Alike next next') ∨
      ∃ res res', printfRound fmt st = .inl res ∧ printfRound fmt st' = .inl res' ∧
        AlikeResults res res' := by
  have hp := h.p
  by_cases hnul : fmt st.p = 0
  · exact Or.inr ⟨_, _, printfRound_nul hnul, printfRound_nul (hp ▸ hnul), h.printed⟩
  · by_cases hpercent : fmt st.p = 37
    · have hread : Alike st.toConversion st'.toConversion :=
        ⟨congrArg (· + 1) hp, h.itoaText, h.itoaText', h.ap, h.printed⟩
      rw [printfRound_conversion hpercent, printfRound_conversion (hp ▸ hpercent), ← hp]
      cases hconversion : st.toConversion.conversion (fmt (st.p + 1)) with
      | ok next =>
          obtain ⟨next', hconversion', hnext⟩ := hread.conversion hconversion
          rw [hconversion']
          exact Or.inl ⟨_, _, rfl, rfl, congrArg (· + 1) hnext.p, hnext.itoaText,
            hnext.itoaText', hnext.ap, hnext.printed⟩
      | error halt =>
          cases hconversion' : st'.toConversion.conversion (fmt (st.p + 1)) with
          | ok next' =>
              obtain ⟨next, hok, -⟩ := hread.symm.conversion hconversion'
              cases hconversion.symm.trans hok
          | error halt' => exact Or.inr ⟨_, _, rfl, rfl, trivial⟩
    · have hchar : SameCall (.putchar (fmt st.p)) (.putchar (fmt st'.p)) := congrArg fmt hp
      have hnext := h.print hchar
      refine Or.inl ⟨_, _, printfRound_char rfl hnul hpercent,
        printfRound_char rfl (hp ▸ hnul) (hp ▸ hpercent), ?_⟩
      exact ⟨congrArg (· + 1) hp, hnext.itoaText, hnext.itoaText', hnext.ap, hnext.printed⟩

end Alike

/-- What is printed for a conversion with the `strncpy` of the kernel: for a number or a
string it is what the array has held before. -/
def stackPiece (buf : List Byte) (c : Byte) : Except Halt (List Byte) :=
  if c = 105 ∨ c = 115 then stringIn buf else .ok [c]

/-- What is printed of a format. -/
def stackText : (Nat → List Byte) → List Byte → Except Halt (List Byte)
  | _, [] => .ok []
  | _, [c] => .ok (if c = 37 then [] else [c])
  | bufs, c :: d :: s =>
      if c = 37 then do
        let piece ← stackPiece (bufs 0) d
        let out ← stackText (fun n => bufs (n + 1)) s
        pure (piece ++ out)
      else do
        let out ← stackText (fun n => bufs (n + 1)) (d :: s)
        pure (c :: out)

section Page

variable {fmt : Nat → Byte} {st st' : Printf} {c : Byte} {s out piece : List Byte}
  {ap rest : List VaArg}

/-- A conversion prints its piece with one system call. -/
structure ShownCall (st : Printf) (c : Byte) (ap : List VaArg) (call : Printed) (st' : Printf) :
    Prop where
  conversion : st.conversion c = .ok st'
  printed : st'.printed = st.printed ++ [call]
  ap : st'.ap = ap
  p : st'.p = st.p
  itoaText : st'.itoaText.length = sizeofText
  shows : ∀ bufs t calls, showPrinted .compares bufs t (call :: calls) =
    stackPiece (bufs 0) c >>= fun shown =>
      showPrinted .compares (fun n => bufs (n + 1)) (t.print shown) calls

theorem showPrinted_putchar
    (copying : Copying) (bufs : Nat → List Byte) (t : Terminal) (c : Byte)
    (calls : List Printed) :
    showPrinted copying bufs t (.putchar c :: calls) =
      showPrinted copying (fun n => bufs (n + 1)) (t.print [c]) calls := by
  rw [showPrinted, isr80hCommand3Putchar_signExtend]
  rfl

theorem shownCall_of_converted
    (htext : st.itoaText.length = sizeofText) (h : converted c st.ap = some (piece, ap)) :
    ∃ call st', ShownCall st c ap call st' := by
  by_cases hi : c = 105
  · subst hi
    rw [converted, if_pos rfl] at h
    obtain ⟨⟨i, ap'⟩, hint, heq⟩ := Option.map_eq_some_iff.mp h
    cases heq
    rcases vaArgs_cases st.ap with hap | ⟨j, ap, hap⟩ | ⟨sval, ap, hap⟩
    · rw [hap] at hint
      cases hint
    · rw [hap] at hint
      cases hint
      obtain ⟨itoaText, hlength, hconversion⟩ := conversion_int htext hap
      exact ⟨_, _, hconversion, rfl, rfl, rfl, hlength, fun bufs t calls => rfl⟩
    · rw [hap] at hint
      cases hint
  · by_cases hstring : c = 115
    · subst hstring
      rw [converted, if_neg (by decide), if_pos rfl] at h
      obtain ⟨⟨sval, ap'⟩, hsval, heq⟩ := Option.map_eq_some_iff.mp h
      cases heq
      rcases vaArgs_cases st.ap with hap | ⟨j, ap, hap⟩ | ⟨sval, ap, hap⟩
      · rw [hap] at hsval
        cases hsval
      · rw [hap] at hsval
        cases hsval
      · rw [hap] at hsval
        cases hsval
        exact ⟨_, _, conversion_string hap, rfl, rfl, rfl, htext, fun bufs t calls => rfl⟩
    · rw [converted, if_neg hi, if_neg hstring] at h
      cases h
      refine ⟨_, _, conversion_char hi hstring, rfl, rfl, rfl, htext, fun bufs t calls => ?_⟩
      rw [stackPiece, if_neg (not_or.mpr ⟨hi, hstring⟩), ok_bind]
      exact showPrinted_putchar .compares bufs t c calls

/-- What the loop prints from a place in the format on. -/
def ShowsRest (fmt : Nat → Byte) (st : Printf) (s : List Byte) : Prop :=
  ∃ n final calls, rounds (printfRound fmt) n st = .inl (.ok final) ∧
    final.printed = st.printed ++ calls ∧
    ∀ bufs t, showPrinted .compares bufs t calls = (stackText bufs s).map t.print

/-- The rest behind a system call. -/
theorem ShowsRest.call
    {p : Printed} {s' : List Byte} (h : ShowsRest fmt st' s)
    (hround : printfRound fmt st = .inr st') (hprinted : st'.printed = st.printed ++ [p])
    (hshows : ∀ calls, (∀ bufs t,
        showPrinted .compares bufs t calls = (stackText bufs s).map t.print) →
      ∀ bufs t, showPrinted .compares bufs t (p :: calls) = (stackText bufs s').map t.print) :
    ShowsRest fmt st s' := by
  obtain ⟨n, final, calls, hrounds, hfinal, hcalls⟩ := h
  refine ⟨n + 1, final, p :: calls, (rounds_succ_of_inr hround n).trans hrounds, ?_,
    hshows calls hcalls⟩
  rw [hfinal, hprinted, List.append_assoc]
  rfl

theorem showsRest
    (h : StringAt (fun i => fmt (st.p + i)) s) (hs : 0 ∉ s) (heven : Even (percentsAtEnd s))
    (htext : st.itoaText.length = sizeofText) (hformatted : formatted s st.ap = some (out, rest)) :
    ShowsRest fmt st s := by
  induction hn : s.length using Nat.strong_induction_on generalizing st s out with
  | _ n ih =>
      subst hn
      match s with
      | [] =>
          have hnul : fmt st.p = 0 := h.nul
          exact ⟨1, _, [], rounds_succ_of_inl (printfRound_nul hnul) 0,
            (List.append_nil _).symm, fun bufs t => rfl⟩
      | c :: s =>
          have hc : fmt st.p = c := h.head
          have h0 : c ≠ 0 := fun h0 => hs (h0 ▸ List.mem_cons_self)
          have hs' : 0 ∉ s := fun h0 => hs (List.mem_cons_of_mem c h0)
          by_cases hpercent : c = 37
          · subst hpercent
            cases s with
            | nil => exact absurd heven (by decide)
            | cons d s =>
                obtain ⟨piece, ap', out', hconverted, hrest, rfl⟩ := formatted_conversion hformatted
                have hd : fmt (st.p + 1) = d := h.add.head
                obtain ⟨call, st', hcall⟩ := @shownCall_of_converted st.toConversion _ _ _ htext
                  hconverted
                have hround : printfRound fmt st = .inr { st' with p := st'.p + 1 } := by
                  rw [printfRound_conversion hc, hd, hcall.conversion]
                have hp : st'.p + 1 = st.p + 1 + 1 := congrArg (· + 1) hcall.p
                have hrest : ShowsRest fmt { st' with p := st'.p + 1 } s := by
                  refine ih s.length ?_ ?_ (fun h0 => hs' (List.mem_cons_of_mem d h0))
                    (even_percentsAtEnd_conversion.mp heven) hcall.itoaText
                    (by rw [← hcall.ap] at hrest; exact hrest) rfl
                  · rw [List.length_cons, List.length_cons]
                    omega
                  · dsimp only
                    rw [hp]
                    exact h.add.add
                refine hrest.call hround hcall.printed fun calls hcalls bufs t => ?_
                rw [hcall.shows, stackText, if_pos rfl]
                cases stackPiece (bufs 0) d with
                | error halt => rfl
                | ok shown =>
                    rw [ok_bind, ok_bind, hcalls]
                    cases stackText (fun n => bufs (n + 1)) s with
                    | error halt => rfl
                    | ok more => exact congrArg Except.ok (print_append t shown more).symm
          · obtain ⟨out', hformatted', rfl⟩ := formatted_char hpercent hformatted
            have hround := printfRound_char hc h0 hpercent
            have hrest : ShowsRest fmt
                { st.print (.putchar c) with p := st.p + 1, read := st.read ++ [st.p] } s :=
              ih s.length (by rw [List.length_cons]; omega) h.add hs'
                ((even_percentsAtEnd_char hpercent).mp heven) htext hformatted' rfl
            refine hrest.call hround rfl fun calls hcalls bufs t => ?_
            rw [showPrinted_putchar, hcalls]
            cases s with
            | nil =>
                rw [stackText, stackText, if_neg hpercent]
                rfl
            | cons d s =>
                rw [stackText.eq_3, if_neg hpercent]
                cases stackText (fun n => bufs (n + 1)) (d :: s) with
                | error halt => rfl
                | ok more => exact congrArg Except.ok (print_append t [c] more).symm

end Page

/-- The text of a format, with an even number of `%` at its end, stands on the screen as
its page, but for a number or a string there is what the stack of the kernel holds. -/
theorem printf_shows_stack
    (fmt : Nat → Byte) (s : List Byte) (ap rest : List VaArg) (itoaText out : List Byte)
    (hfmt : StringAt fmt s) (hs : 0 ∉ s) (htext : itoaText.length = sizeofText)
    (hformatted : formatted s ap = some (out, rest)) (heven : Even (percentsAtEnd s)) :
    ∃ n final, rounds (printfRound fmt) n (Printf.start ap itoaText) = .inl (.ok final) ∧
      ∀ bufs t text, stackText bufs s = .ok text → 0x08 ∉ text → t.terminalCol.toNat < vgaWidth →
        t.cursorCell + (pageCells t.terminalCol.toNat (text.splitOn 0x0A)).length ≤
          vgaWidth * vgaHeight →
        ∃ t', showPrinted .compares bufs t final.printed = .ok t' ∧
          ShowsPage t (pageCells t.terminalCol.toNat (text.splitOn 0x0A)) t' := by
  have hstart : StringAt (fun i => fmt ((Printf.start ap itoaText).p + i)) s := by
    simpa only [Printf.start, Nat.zero_add] using hfmt
  obtain ⟨n, final, calls, hrounds, hprinted, hshows⟩ :=
    showsRest hstart hs heven htext hformatted
  refine ⟨n, final, hrounds, fun bufs t text htext hback hcol hroom => ⟨t.print text, ?_,
    showsPage_print t text hback hcol hroom⟩⟩
  rw [hprinted]
  refine (hshows bufs t).trans ?_
  rw [htext]
  rfl

/-- With the `strncpy` of the kernel nothing of the arguments comes to the screen: calls
with one format and arguments of the same types leave the same screen. -/
theorem printf_hides_arguments
    (fmt : Nat → Byte) (ap ap' : List VaArg) (itoaText itoaText' : List Byte)
    (hkinds : List.Forall₂ SameKind ap ap') (htext : itoaText.length = sizeofText)
    (htext' : itoaText'.length = sizeofText) (n : Nat) (final : Printf)
    (hrounds : rounds (printfRound fmt) n (Printf.start ap itoaText) = .inl (.ok final)) :
    ∃ final', rounds (printfRound fmt) n (Printf.start ap' itoaText') = .inl (.ok final') ∧
      ∀ bufs t, showPrinted .compares bufs t final.printed =
        showPrinted .compares bufs t final'.printed := by
  have hstart : Alike (Printf.start ap itoaText) (Printf.start ap' itoaText') :=
    ⟨rfl, htext, htext', hkinds, .nil⟩
  obtain ⟨res, hres, halike⟩ := rounds_related (R := Alike) (Q := AlikeResults)
    (fun st st' next hst hround => by
      rcases @Alike.round fmt st st' hst with
        ⟨next₁, next', hnext, hnext', hR⟩ | ⟨a, b, hend, -, -⟩
      · cases hnext.symm.trans hround
        exact ⟨next', hnext', hR⟩
      · cases hend.symm.trans hround)
    (fun st st' res hst hround => by
      rcases @Alike.round fmt st st' hst with
        ⟨next, next', hnext, -, -⟩ | ⟨a, b, hend, hend', hQ⟩
      · cases hnext.symm.trans hround
      · cases hend.symm.trans hround
        exact ⟨b, hend', hQ⟩)
    hstart hrounds
  cases res with
  | error halt => exact halike.elim
  | ok final' => exact ⟨final', hres, fun bufs t => showPrinted_compares bufs t halike⟩

/-- A format with a number and a string. -/
def labelled : List Byte := [37, 115, 61, 37, 105]

/-- On a stack with one character in each array. -/
theorem printf_shows_stack_labelled :
    ∃ n final t', rounds (printfRound fun i => labelled.getD i 0) n
        (Printf.start [.string ⟨[120], by decide⟩, .int 42] (List.replicate 12 0)) =
          .inl (.ok final) ∧
      showPrinted .compares (fun _ => [63, 0]) prompt final.printed = .ok t' ∧
      ShowsPage prompt (pageCells prompt.terminalCol.toNat ([63, 61, 63].splitOn 0x0A)) t' := by
  obtain ⟨n, final, hrounds, hshows⟩ := printf_shows_stack (fun i => labelled.getD i 0) labelled
    [.string ⟨[120], by decide⟩, .int 42] [] (List.replicate 12 0) [120, 61, 52, 50]
    (stringAt_getD labelled) (by decide) rfl rfl (by decide)
  obtain ⟨t', hcall, hpage⟩ := hshows (fun _ => [63, 0]) prompt [63, 61, 63] rfl (by decide)
    (by decide) (by decide +kernel)
  exact ⟨n, final, t', hrounds, hcall, hpage⟩

/-- Another string and another number. -/
theorem printf_hides_arguments_labelled :
    ∃ n final final', rounds (printfRound fun i => labelled.getD i 0) n
        (Printf.start [.string ⟨[120], by decide⟩, .int 42] (List.replicate 12 0)) =
          .inl (.ok final) ∧
      rounds (printfRound fun i => labelled.getD i 0) n
        (Printf.start [.string ⟨[121], by decide⟩, .int 7] (List.replicate 12 0)) =
          .inl (.ok final') ∧
      ∀ bufs t, showPrinted .compares bufs t final.printed =
        showPrinted .compares bufs t final'.printed := by
  have hprints : Prints (fun i => labelled.getD i 0) labelled
      [.string ⟨[120], by decide⟩, .int 42] (List.replicate 12 0) [120, 61, 52, 50] [] :=
    prints_of_even (stringAt_getD labelled) (by decide) rfl rfl (by decide)
  obtain ⟨n, final, hrounds, -⟩ := hprints
  obtain ⟨final', hrounds', hsame⟩ := printf_hides_arguments (fun i => labelled.getD i 0)
    [.string ⟨[120], by decide⟩, .int 42] [.string ⟨[121], by decide⟩, .int 7]
    (List.replicate 12 0) (List.replicate 12 0) (.cons trivial (.cons trivial .nil)) rfl rfl n
    final hrounds
  exact ⟨n, final, final', hrounds, hrounds', hsame⟩

end Stdlib
end PeachOS
