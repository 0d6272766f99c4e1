import PeachOS.Fat.Directory

/-!
# Names of directory entries

`fat16_get_full_relative_filename` writes the name of an entry into a buffer of
zeros, through a pointer that it moves along.  The buffer is kept here, so that
every store is seen to be inside it and the name to end with a NUL; what it holds
is the name that `fat16GetFullRelativeFilename` lists.
-/

namespace PeachOS

open Lib

/-- `*out = c`, for `out` at index `pos` of the buffer. -/
def putByte (out : List Byte) (pos : Nat) (c : Byte) : Except Halt (List Byte) :=
  if pos < out.length then .ok (out.set pos c) else .error .fault

/-- `fat16_to_proper_string` from index `i` of a field on, with the rest of the
field, the buffer and the index that `*out` is at. -/
def fat16ToProperStringIn (size : Nat) :
    Nat → List Byte → List Byte → Nat → Except Halt (List Byte × Nat)
  | _, [], _, _ => .error .fault
  | i, c :: rest, out, pos =>
      if c ≠ 0x00 ∧ c ≠ 0x20 then do
        let out ← putByte out pos c
        if i ≥ size - 1 then do
          let out ← putByte out (pos + 1) 0x00
          pure (out, pos + 1)
        else
          fat16ToProperStringIn size (i + 1) rest out (pos + 1)
      else do
        let out ← putByte out pos 0x00
        pure (out, pos)

/-- The buffer of `maxLen` bytes afterwards. -/
def fat16GetFullRelativeFilenameIn (item : FatDirectoryItem) (maxLen : Nat) :
    Except Halt (List Byte) := do
  let out := List.replicate maxLen 0x00
  let (out, pos) ← fat16ToProperStringIn 8 0 item.filename out 0
  if item.ext.headD 0 ≠ 0x00 ∧ item.ext.headD 0 ≠ 0x20 then do
    let out ← putByte out pos 0x2E
    let (out, _) ← fat16ToProperStringIn 3 0 item.ext out (pos + 1)
    pure out
  else
    pure out

/-- A buffer that holds a string, with NULs up to its end. -/
def bufferOf (maxLen : Nat) (s : List Byte) : List Byte :=
  s ++ List.replicate (maxLen - s.length) 0x00

theorem length_bufferOf
    {maxLen : Nat} {s : List Byte} (h : s.length ≤ maxLen) :
    (bufferOf maxLen s).length = maxLen := by
  rw [bufferOf, List.length_append, List.length_replicate]
  omega

theorem set_bufferOf
    {maxLen : Nat} {s : List Byte} (h : s.length < maxLen) (c : Byte) :
    (bufferOf maxLen s).set s.length c =
      s ++ c :: List.replicate (maxLen - (s.length + 1)) 0x00 := by
  obtain ⟨n, rfl⟩ := Nat.exists_eq_add_of_lt h
  rw [bufferOf, List.set_append_right _ _ (Nat.le_refl _), Nat.sub_self,
    show s.length + n + 1 - s.length = n + 1 by omega,
    show s.length + n + 1 - (s.length + 1) = n by omega, List.replicate_succ, List.set_cons_zero]

/-- A byte stored behind the string is added to it. -/
theorem putByte_bufferOf
    {maxLen : Nat} {s : List Byte} (h : s.length < maxLen) (c : Byte) :
    putByte (bufferOf maxLen s) s.length c = .ok (bufferOf maxLen (s ++ [c])) := by
  rw [putByte, if_pos (by rwa [length_bufferOf (Nat.le_of_lt h)]), set_bufferOf h, bufferOf,
    List.length_append, List.length_singleton, List.append_assoc]
  rfl

/-- A NUL stored behind the string changes nothing. -/
theorem putByte_bufferOf_nul
    {maxLen : Nat} {s : List Byte} (h : s.length < maxLen) :
    putByte (bufferOf maxLen s) s.length 0x00 = .ok (bufferOf maxLen s) := by
  obtain ⟨n, rfl⟩ := Nat.exists_eq_add_of_lt h
  rw [putByte, if_pos (by rwa [length_bufferOf (Nat.le_of_lt h)]), set_bufferOf h, bufferOf,
    show s.length + n + 1 - s.length = n + 1 by omega,
    show s.length + n + 1 - (s.length + 1) = n by omega, List.replicate_succ]

/-- The field without its padding is added to the string, whether a terminator or
the size of the field ends it. -/
theorem fat16ToProperStringIn_eq
    {size maxLen i : Nat} {field s : List Byte}
    (hfield : i + field.length = size) (hi : i < size) (hroom : s.length + field.length < maxLen) :
    fat16ToProperStringIn size i field (bufferOf maxLen s) s.length =
      .ok (bufferOf maxLen (s ++ unpadded field), (s ++ unpadded field).length) := by
  induction field generalizing i s with
  | nil =>
      rw [List.length_nil] at hfield
      omega
  | cons c rest ih =>
      rw [List.length_cons] at hfield hroom
      rw [fat16ToProperStringIn, unpadded_cons]
      split_ifs with hc hlast
      · -- the last byte of the field
        obtain rfl : rest = [] := List.eq_nil_of_length_eq_zero (by omega)
        have hend : (s ++ [c]).length < maxLen := by
          rw [List.length_append, List.length_singleton]
          omega
        have hput := putByte_bufferOf_nul hend
        rw [List.length_append, List.length_singleton] at hput
        rw [putByte_bufferOf (by omega)]
        change (do
          let out ← putByte (bufferOf maxLen (s ++ [c])) (s.length + 1) 0x00
          pure (out, s.length + 1)) = _
        rw [hput]
        simp [unpadded]
      · have hrest := ih (i := i + 1) (s := s ++ [c]) (by omega) (by omega)
          (by rw [List.length_append, List.length_singleton]; omega)
        rw [List.append_assoc, List.length_append, List.length_singleton] at hrest
        rw [putByte_bufferOf (by omega)]
        exact hrest
      · rw [putByte_bufferOf_nul (by omega), List.append_nil]
        rfl

/-- The buffer holds the 8.3 name of the entry. -/
theorem fat16GetFullRelativeFilenameIn_eq
    {item : FatDirectoryItem} (hbase : item.filename.length = 8) (hext : item.ext.length = 3)
    {maxLen : Nat} (hroom : 13 ≤ maxLen) :
    fat16GetFullRelativeFilenameIn item maxLen = .ok (bufferOf maxLen item.fullName) := by
  have hlength : (unpadded item.filename).length ≤ 8 :=
    hbase ▸ (List.takeWhile_prefix _).length_le
  have hbaseIn : fat16ToProperStringIn 8 0 item.filename (List.replicate maxLen 0x00) 0 =
      .ok (bufferOf maxLen (unpadded item.filename), (unpadded item.filename).length) :=
    fat16ToProperStringIn_eq (s := []) (by omega) (by omega) (by rw [List.length_nil]; omega)
  rw [fat16GetFullRelativeFilenameIn, hbaseIn, FatDirectoryItem.fullName]
  by_cases hnone : unpadded item.ext = []
  · rw [if_pos hnone]
    exact if_neg ((unpadded_eq_nil_iff _).mp hnone)
  · have hroomExt : (unpadded item.filename ++ [0x2E]).length + item.ext.length < maxLen := by
      rw [List.length_append, List.length_singleton]
      omega
    have hextIn := fat16ToProperStringIn_eq (show 0 + item.ext.length = 3 by omega)
      (show 0 < 3 by omega) hroomExt
    rw [List.append_assoc, List.length_append, List.length_singleton] at hextIn
    rw [if_neg hnone]
    refine (if_pos (not_not.mp fun h => hnone ((unpadded_eq_nil_iff _).mpr h))).trans ?_
    dsimp only
    rw [putByte_bufferOf (by omega)]
    change (do
      let (out, _) ← fat16ToProperStringIn 3 0 item.ext
        (bufferOf maxLen (unpadded item.filename ++ [0x2E])) ((unpadded item.filename).length + 1)
      pure out) = _
    rw [hextIn]
    rfl

/-- The string that a buffer holds ends at its first NUL. -/
theorem takeWhile_bufferOf
    {s : List Byte} (h : (0 : Byte) ∉ s) (maxLen : Nat) :
    (bufferOf maxLen s).takeWhile (fun c => c ≠ 0x00) = s := by
  have hs : ∀ c ∈ s, decide (c ≠ 0x00) = true := fun c hc =>
    decide_eq_true fun heq => h (heq ▸ hc)
  rw [bufferOf, List.takeWhile_append_of_pos hs]
  cases maxLen - s.length with
  | zero => simp
  | succ n => simp [List.replicate_succ]

/-- The comparison ends at the NUL behind the string. -/
theorem istrncmp_bufferOf
    (maxLen : Nat) (s t : List Byte) (n : Nat) :
    istrncmp (bufferOf maxLen s) t n = istrncmp s t n := by
  have hzeros : ∀ k, (List.replicate k (0 : Byte)).headD 0 = 0 := fun k => by cases k <;> rfl
  induction n generalizing maxLen s t with
  | zero => rfl
  | succ n ih =>
      cases s with
      | nil =>
          rw [bufferOf, List.nil_append]
          simp only [istrncmp, hzeros, List.headD_nil, if_true]
      | cons c s =>
          have htail : (bufferOf maxLen (c :: s)).tail = bufferOf (maxLen - 1) s := by
            rw [bufferOf, List.cons_append, List.tail_cons, List.length_cons, bufferOf,
              show maxLen - (s.length + 1) = maxLen - 1 - s.length by omega]
          simp only [istrncmp, htail, ih, List.tail_cons]
          rfl

/-- The lookup that lists the name compares as the one with the buffer does. -/
theorem istrncmp_fat16GetFullRelativeFilenameIn
    {item : FatDirectoryItem} (hbase : item.filename.length = 8) (hext : item.ext.length = 3)
    (name : List Byte) :
    ∃ buffer, fat16GetFullRelativeFilenameIn item maxPath = .ok buffer ∧
      istrncmp buffer name maxPath =
        istrncmp (fat16GetFullRelativeFilename item) name maxPath := by
  refine ⟨_, fat16GetFullRelativeFilenameIn_eq hbase hext (by decide), ?_⟩
  rw [istrncmp_bufferOf, fat16GetFullRelativeFilename_eq hbase.le hext.le]

/-- The same ASCII letter, or the same byte. -/
def SameLetter (a b : Byte) : Prop :=
  a = b ∨ (65 ≤ a.toNat ∧ a.toNat ≤ 90 ∧ b = a + 32) ∨ (65 ≤ b.toNat ∧ b.toNat ≤ 90 ∧ a = b + 32)

theorem tolower_of_upper :
    ∀ c : Byte, 65 ≤ c.toNat ∧ c.toNat ≤ 90 → tolower c = c + 32 := by
  decide

theorem tolower_of_not_upper :
    ∀ c : Byte, ¬ (65 ≤ c.toNat ∧ c.toNat ≤ 90) → tolower c = c := by
  decide

theorem tolower_eq_iff_sameLetter
    (a b : Byte) :
    tolower a = tolower b ↔ SameLetter a b := by
  unfold SameLetter
  by_cases ha : 65 ≤ a.toNat ∧ a.toNat ≤ 90 <;> by_cases hb : 65 ≤ b.toNat ∧ b.toNat ≤ 90
  · rw [tolower_of_upper a ha, tolower_of_upper b hb]
    bv_omega
  · rw [tolower_of_upper a ha, tolower_of_not_upper b hb]
    bv_omega
  · rw [tolower_of_not_upper a ha, tolower_of_upper b hb]
    bv_omega
  · rw [tolower_of_not_upper a ha, tolower_of_not_upper b hb]
    bv_omega

/-- Two strings have the same letters. -/
theorem sameUpToCase_iff_forall
    (s t : List Byte) :
    SameUpToCase s t ↔ List.Forall₂ SameLetter s t := by
  rw [SameUpToCase, ← List.forall₂_eq_eq_eq, List.forall₂_map_left_iff,
    List.forall₂_map_right_iff]
  simp only [tolower_eq_iff_sameLetter]

/-- A base name and an extension as they may stand in an entry. -/
structure ShortName where
  base : List Byte
  ext : List Byte
  base_pos : 1 ≤ base.length
  base_le : base.length ≤ 8
  ext_le : ext.length ≤ 3
  base_plain : ∀ c ∈ base, c ≠ 0x00 ∧ c ≠ 0x20 ∧ c ≠ 0x2E
  ext_plain : ∀ c ∈ ext, c ≠ 0x00 ∧ c ≠ 0x20 ∧ c ≠ 0x2E

namespace ShortName

/-- The base name, and a dot and the extension where there is one. -/
def text (name : ShortName) : List Byte :=
  name.base ++ if name.ext = [] then [] else 0x2E :: name.ext

/-- A field padded with spaces. -/
def padded (size : Nat) (field : List Byte) : List Byte :=
  field ++ List.replicate (size - field.length) 0x20

/-- The entry of a name, with the bytes behind the name. -/
def stored (name : ShortName) (rest : List Byte) : FatDirectoryItem :=
  .ofBytes (padded 8 name.base ++ padded 3 name.ext ++ rest)

theorem length_padded
    {size : Nat} {field : List Byte} (h : field.length ≤ size) :
    (padded size field).length = size := by
  rw [padded, List.length_append, List.length_replicate]
  omega

theorem unpadded_padded
    {field : List Byte} (h : ∀ c ∈ field, c ≠ 0x00 ∧ c ≠ 0x20 ∧ c ≠ 0x2E) (size : Nat) :
    unpadded (padded size field) = field := by
  rw [unpadded, padded, List.takeWhile_append_of_pos (by simpa using fun c hc =>
    ⟨(h c hc).1, (h c hc).2.1⟩)]
  cases size - field.length with
  | zero => simp
  | succ n => simp [List.replicate_succ]

variable (name : ShortName) (rest : List Byte)

theorem filename_stored : (name.stored rest).filename = padded 8 name.base := by
  rw [stored, FatDirectoryItem.ofBytes, List.append_assoc]
  exact List.take_left' (length_padded name.base_le)

theorem ext_stored : (name.stored rest).ext = padded 3 name.ext := by
  rw [stored, FatDirectoryItem.ofBytes, List.append_assoc]
  dsimp only
  rw [List.drop_left' (length_padded name.base_le)]
  exact List.take_left' (length_padded name.ext_le)

theorem fullName_stored : (name.stored rest).fullName = name.text := by
  rw [FatDirectoryItem.fullName, filename_stored, ext_stored, unpadded_padded name.base_plain,
    unpadded_padded name.ext_plain, text]
  split_ifs
  · rw [List.append_nil]
  · rfl

/-- The name of a stored entry as it stands in the buffer of a lookup. -/
theorem buffer_stored :
    fat16GetFullRelativeFilenameIn (name.stored rest) maxPath =
      .ok (bufferOf maxPath name.text) := by
  rw [← name.fullName_stored rest]
  refine fat16GetFullRelativeFilenameIn_eq ?_ ?_ (by decide)
  · rw [filename_stored, length_padded name.base_le]
  · rw [ext_stored, length_padded name.ext_le]

/-- The base name ends at the only dot. -/
theorem takeWhile_text :
    name.text.takeWhile (fun c => c ≠ 0x2E) = name.base := by
  rw [text, List.takeWhile_append_of_pos (by simpa using fun c hc => (name.base_plain c hc).2.2)]
  split_ifs <;> simp

theorem dropWhile_text :
    (name.text.dropWhile fun c => c ≠ 0x2E).tail = name.ext := by
  rw [text, List.dropWhile_append_of_pos (by simpa using fun c hc => (name.base_plain c hc).2.2)]
  split_ifs with h
  · rw [h]
    rfl
  · simp

theorem ext_injective
    {name name' : ShortName} (hbase : name.base = name'.base) (hext : name.ext = name'.ext) :
    name = name' := by
  cases name
  cases name'
  subst hbase hext
  rfl

theorem text_injective
    {name name' : ShortName} (h : name.text = name'.text) :
    name = name' := by
  refine ext_injective ?_ ?_
  · rw [← name.takeWhile_text, h, takeWhile_text]
  · rw [← name.dropWhile_text, h, dropWhile_text]

theorem zero_not_mem_text : (0 : Byte) ∉ name.text := by
  rw [← name.fullName_stored []]
  exact (name.stored []).zero_not_mem_fullName

theorem length_text_lt : name.text.length < 13 := by
  have hbase := name.base_le
  have hext := name.ext_le
  rw [text, List.length_append]
  split_ifs
  · simp
    omega
  · rw [List.length_cons]
    omega

end ShortName

/-- An 8.3 name that is stored in an entry is decoded to its text with NULs
behind it, no two names to the same text, and the comparison of a lookup finds it
for the components that have the letters of the text. -/
theorem fat16GetFullRelativeFilename_decodes
    (name : ShortName) (rest : List Byte) :
    ∃ buffer, fat16GetFullRelativeFilenameIn (name.stored rest) maxPath = .ok buffer ∧
      buffer.length = maxPath ∧
      buffer = name.text ++ List.replicate (maxPath - name.text.length) 0x00 ∧
      name.text.length < maxPath ∧ (0 : Byte) ∉ name.text ∧
      (∀ (name' : ShortName) (rest' : List Byte),
        fat16GetFullRelativeFilenameIn (name'.stored rest') maxPath = .ok buffer →
          name = name') ∧
      ∀ component : CString,
        istrncmp buffer component.bytes maxPath = 0 ↔
          List.Forall₂ SameLetter name.text component.bytes := by
  have hlength : name.text.length < maxPath :=
    Nat.lt_trans name.length_text_lt (by decide)
  refine ⟨_, name.buffer_stored rest, length_bufferOf (Nat.le_of_lt hlength), rfl, hlength,
    name.zero_not_mem_text, fun name' rest' h => ?_, fun component => ?_⟩
  · rw [name'.buffer_stored] at h
    have hbuffer := congrArg (List.takeWhile fun c => c ≠ 0x00) (Except.ok.inj h)
    rw [takeWhile_bufferOf name'.zero_not_mem_text,
      takeWhile_bufferOf name.zero_not_mem_text] at hbuffer
    exact ShortName.text_injective hbuffer.symm
  · rw [istrncmp_bufferOf, istrncmp_eq_zero_iff name.zero_not_mem_text component.noNul hlength,
      sameUpToCase_iff_forall]

end PeachOS
