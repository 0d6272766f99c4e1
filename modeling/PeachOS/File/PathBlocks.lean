import PeachOS.File.PathParser

/-!
# The blocks of a path

What `pathparser_parse` leaves behind of the blocks that it allocates, and what
`pathparser_free` frees.
-/

namespace PeachOS

open Lib

/-- The loop of `pathparser_free`; `fuel` bounds its rounds. -/
def pathparserFreeLoop : Nat → PathBlocks → Ptr → Except Halt PathBlocks
  | 0, _, _ => .error .fault
  | fuel + 1, b, part =>
      if part = 0 then
        .ok b
      else
        match b.live part with
        | some (.part p) => do
            let b ← b.kfree p.part
            let b ← b.kfree part
            pathparserFreeLoop fuel b p.next
        | _ => .error .fault

def pathparserFree (fuel : Nat) (b : PathBlocks) (root : Ptr) : Except Halt PathBlocks :=
  match b.live root with
  | some (.root r) => do
      let b ← pathparserFreeLoop fuel b r.first
      b.kfree root
  | _ => .error .fault

/-- The blocks of the list at a component: of each its name and its record. -/
inductive PartsAt (b : PathBlocks) : Ptr → List Ptr → Prop
  | nil : PartsAt b 0 []
  | cons {part : Ptr} {p : PathPart} {name : List Byte} {ps : List Ptr}
      (hpart : b.live part = some (.part p)) (hname : b.live p.part = some (.name name))
      (hnext : PartsAt b p.next ps) :
      PartsAt b part (p.part :: part :: ps)

theorem PartsAt.congr
    {b b' : PathBlocks} {part : Ptr} {ps : List Ptr}
    (h : PartsAt b part ps) (hlive : ∀ p ∈ ps, b'.live p = b.live p) :
    PartsAt b' part ps := by
  induction h with
  | nil => exact PartsAt.nil
  | @cons part p name ps hpart hname _ ih =>
      exact PartsAt.cons ((hlive part (by simp)).trans hpart) ((hlive p.part (by simp)).trans hname)
        (ih fun q hq => hlive q (by simp [hq]))

/-- The loop frees the blocks of the list and no others. -/
theorem pathparserFreeLoop_spec
    {b : PathBlocks} {part : Ptr} {ps : List Ptr} {fuel : Nat}
    (h : PartsAt b part ps) (hnodup : ps.Nodup) (hfuel : ps.length < fuel) :
    ∃ b', pathparserFreeLoop fuel b part = .ok b' ∧
      ∀ q, b'.live q = if q ∈ ps then none else b.live q := by
  induction fuel generalizing b part ps with
  | zero => omega
  | succ fuel ih =>
      cases h with
      | nil => exact ⟨b, if_pos rfl, fun q => rfl⟩
      | @cons _ p name ps hpart hname hnext =>
          have hne : part ≠ 0 := Blocks.ne_zero_of_live hpart
          obtain ⟨hpname, hnodup⟩ := List.nodup_cons.mp hnodup
          obtain ⟨hpart', hnodup⟩ := List.nodup_cons.mp hnodup
          rw [List.mem_cons, not_or] at hpname
          have hpart₁ : (b.set p.part none).live part = some (.part p) := by
            rw [Blocks.live_set_none, if_neg (Ne.symm hpname.1), hpart]
          have hnext₁ : PartsAt ((b.set p.part none).set part none) p.next ps := by
            refine hnext.congr fun q hq => ?_
            rw [Blocks.live_set_none, if_neg (ne_of_mem_of_not_mem hq hpart'), Blocks.live_set_none,
              if_neg (ne_of_mem_of_not_mem hq hpname.2)]
          rw [List.length_cons, List.length_cons] at hfuel
          obtain ⟨b', hfree, hlive⟩ := ih hnext₁ hnodup (by omega)
          refine ⟨b', ?_, fun q => ?_⟩
          · rw [pathparserFreeLoop, if_neg hne, hpart]
            dsimp only
            rw [Blocks.kfree_of_live hname, ok_bind, Blocks.kfree_of_live hpart₁, ok_bind, hfree]
          · rw [hlive, Blocks.live_set_none, Blocks.live_set_none]
            simp only [List.mem_cons]
            split_ifs <;> simp_all

/-- `pathparser_free` frees the root with its list. -/
theorem pathparserFree_spec
    {b : PathBlocks} {root : Ptr} {r : PathRoot} {ps : List Ptr} {fuel : Nat}
    (hroot : b.live root = some (.root r)) (h : PartsAt b r.first ps)
    (hnodup : (root :: ps).Nodup) (hfuel : ps.length < fuel) :
    ∃ b', pathparserFree fuel b root = .ok b' ∧
      ∀ q, b'.live q = if q ∈ root :: ps then none else b.live q := by
  obtain ⟨hout, hnodup⟩ := List.nodup_cons.mp hnodup
  obtain ⟨b₁, hfree, hlive⟩ := pathparserFreeLoop_spec h hnodup hfuel
  have hroot₁ : b₁.live root = some (.root r) := by rw [hlive, if_neg hout, hroot]
  refine ⟨b₁.set root none, ?_, fun q => ?_⟩
  · rw [pathparserFree, hroot]
    dsimp only
    rw [hfree, ok_bind, Blocks.kfree_of_live hroot₁]
  · rw [Blocks.live_set_none, hlive]
    simp only [List.mem_cons]
    split_ifs <;> simp_all

/-- A string that `pathparser_get_drive_by_path` gets a drive from. -/
def HasDrive (path : CString) : Prop :=
  path.bytes.length ≤ maxPath ∧ pathparserPathValidFormat path.bytes = true

/-- The parse returns, and what it has allocated is freed behind it, or by
`pathparser_free` of the root that it returns. -/
def ParseFreesAll (b : PathBlocks) (path : CString) : Prop :=
  ∃ pathRoot b', pathparserParse b path = .ok (pathRoot, b') ∧
    if pathRoot = 0 then
      ∀ q, b'.live q = b.live q
    else
      ∃ fuel b'', pathparserFree fuel b' pathRoot = .ok b'' ∧ ∀ q, b''.live q = b.live q

/-- A string without a drive is refused before anything is allocated. -/
theorem pathparserParse_noDrive
    (b : PathBlocks) {path : CString} (h : ¬ HasDrive path) :
    pathparserParse b path = .ok (0, b) := by
  rw [pathparserParse]
  split_ifs with hlong
  · rfl
  · have hformat : ¬ pathparserPathValidFormat path.bytes = true := fun hvalid =>
      h ⟨Nat.le_of_not_lt hlong, hvalid⟩
    rw [pathparserGetDriveByPath, if_pos hformat]
    rfl

theorem pathparserGetDriveByPath_of_hasDrive
    {path : CString} (h : HasDrive path) :
    ∃ drive : Int, 0 ≤ drive ∧
      pathparserGetDriveByPath path.bytes = (drive, path.bytes.drop 3) := by
  refine ⟨tonumericdigit (path.bytes.headD 0), ?_, if_neg (not_not.mpr h.2)⟩
  have hformat := h.2
  simp only [pathparserPathValidFormat, isdigit, decide_eq_true_eq] at hformat
  rw [tonumericdigit]
  omega

/-- The blocks with a root that has no component yet. -/
def Blocks.withRoot (b : PathBlocks) (driveNumber : Int) : PathBlocks :=
  ({ b with asked := b.asked + 1 }.set (b.answer b.asked) (some (.root ⟨0, 0⟩))).set
    (b.answer b.asked) (some (.root ⟨driveNumber, 0⟩))

/-- Without a buffer for a name the parser writes to it all the same, or frees
it. -/
theorem pathparserParsePathPart_noBuffer
    {b : PathBlocks} (h : b.answer b.asked = 0) (lastPart : Ptr) (path : List Byte) :
    pathparserParsePathPart b lastPart path = .error .fault := by
  have hpart : pathparserGetPathPart b path = .error .fault := by
    rw [pathparserGetPathPart, Blocks.kzalloc_of_eq_zero h]
    dsimp only
    rw [if_neg (not_not.mpr rfl)]
    cases path with
    | nil => rfl
    | cons c path =>
        rw [copyPathPart]
        split_ifs
        · rfl
        · rw [Blocks.live_zero]
          rfl
  rw [pathparserParsePathPart, hpart]
  rfl

/-- The buffer for a name is forgotten. -/
theorem pathparserParsePathPart_buffer
    {b : PathBlocks} (h : b.answer b.asked ≠ 0) (lastPart : Ptr) (path : List Byte) :
    pathparserParsePathPart b lastPart path = .ok (0, path, (b.kzalloc (.name [])).2) := by
  have hstr : (b.kzalloc (.name [])).1 ≠ 0 := by rwa [Blocks.kzalloc_of_ne_zero h]
  simp only [pathparserParsePathPart, pathparserGetPathPart, if_pos hstr, ok_bind, if_true]
  rfl

/-- With a root the parser faults over the first name, or it leaves the buffer for it
behind. -/
theorem pathparserParse_root
    {b : PathBlocks} {path : CString} (h : HasDrive path) (hroot : b.answer b.asked ≠ 0) :
    pathparserParse b path =
      if b.answer (b.asked + 1) = 0 then
        .error .fault
      else
        .ok (0, ((b.withRoot (pathparserGetDriveByPath path.bytes).1).kzalloc (.name [])).2.set
          (b.answer b.asked) none) := by
  obtain ⟨drive, hpos, hdrive⟩ := pathparserGetDriveByPath_of_hasDrive h
  have hcreate : pathparserCreateRoot b drive = (b.answer b.asked, b.withRoot drive) := by
    rw [pathparserCreateRoot, Blocks.kzalloc_of_ne_zero hroot]
    exact if_neg hroot
  rw [pathparserParse, if_neg (Nat.not_lt.mpr h.1), hdrive]
  dsimp only
  rw [if_neg (by omega), hcreate]
  dsimp only
  rw [if_neg hroot]
  split_ifs with hname
  · rw [pathparserParsePathPart_noBuffer (b := b.withRoot drive) hname]
    rfl
  · rw [pathparserParsePathPart_buffer (b := b.withRoot drive) hname]
    have hlive : (b.withRoot drive).live (b.answer b.asked) = some (.root ⟨drive, 0⟩) :=
      Blocks.set_live_self _ _ hroot
    obtain ⟨x, hkept⟩ : ∃ x, ((b.withRoot drive).kzalloc (.name [])).2.live (b.answer b.asked) =
        some x := by
      rw [Blocks.kzalloc_of_ne_zero (b := b.withRoot drive) hname]
      exact Blocks.exists_live_set hlive
    exact pathparserCleanUp_root hkept

/-- The block of a name is not the root's, and it was not live before. -/
theorem not_parseFreesAll_of_root
    {b : PathBlocks} {path : CString} (h : HasDrive path) (hfresh : b.Fresh 2)
    (hroot : b.answer b.asked ≠ 0) :
    ¬ ParseFreesAll b path := by
  rintro ⟨pathRoot, b', hparse, hfrees⟩
  rw [pathparserParse_root h hroot] at hparse
  split_ifs at hparse with hname
  obtain ⟨rfl, rfl⟩ := Prod.mk.inj (Except.ok.inj hparse)
  rw [if_pos rfl] at hfrees
  obtain ⟨hbefore, hother⟩ := hfresh 1 (by omega) hname
  have hne : b.answer (b.asked + 1) ≠ b.answer b.asked := (hother 0 (by omega)).symm
  have hafter := hfrees (b.answer (b.asked + 1))
  rw [Blocks.set_live_of_ne _ _ hne,
    Blocks.kzalloc_of_ne_zero (b := b.withRoot _) hname, hbefore] at hafter
  cases (Blocks.set_live_self _ _ hname).symm.trans hafter

/-- Without a root there is nothing to free. -/
theorem pathparserParse_noRoot
    {b : PathBlocks} {path : CString} (h : HasDrive path) (hroot : b.answer b.asked = 0) :
    pathparserParse b path = .ok (0, { b with asked := b.asked + 1 }) := by
  obtain ⟨drive, hpos, hdrive⟩ := pathparserGetDriveByPath_of_hasDrive h
  have hcreate : pathparserCreateRoot b drive = (0, { b with asked := b.asked + 1 }) := by
    rw [pathparserCreateRoot, Blocks.kzalloc_of_eq_zero hroot]
    exact if_pos rfl
  rw [pathparserParse, if_neg (Nat.not_lt.mpr h.1), hdrive]
  dsimp only
  rw [if_neg (by omega), hcreate]
  rfl

/-- The parser has no root to return. -/
theorem pathparserParse_null
    {b b' : PathBlocks} {path : CString} {pathRoot : Ptr}
    (h : pathparserParse b path = .ok (pathRoot, b')) :
    pathRoot = 0 := by
  by_cases hdrive : HasDrive path
  · by_cases hroot : b.answer b.asked = 0
    · rw [pathparserParse_noRoot hdrive hroot] at h
      exact (congrArg Prod.fst (Except.ok.inj h)).symm
    · rw [pathparserParse_root hdrive hroot] at h
      split_ifs at h
      exact (congrArg Prod.fst (Except.ok.inj h)).symm
  · rw [pathparserParse_noDrive b hdrive] at h
    exact (congrArg Prod.fst (Except.ok.inj h)).symm

/-- A parse that returns null has freed everything when the blocks are those of
before. -/
theorem parseFreesAll_of_null
    {b b' : PathBlocks} {path : CString}
    (h : pathparserParse b path = .ok (0, b')) (hlive : ∀ q, b'.live q = b.live q) :
    ParseFreesAll b path :=
  ⟨0, b', h, by rwa [if_pos rfl]⟩

def ParsingLeaksNothing : Prop :=
  ∀ (b : PathBlocks) (path : CString), b.Fresh 2 → path.bytes.length ≤ maxPath →
    ParseFreesAll b path

/-- The blocks of a parse are freed exactly when there is no drive in the string or no
block for the root. -/
theorem pathparserParse_freesAll_iff
    (b : PathBlocks) (path : CString)
    (hfresh : b.Fresh 2) :
    ParseFreesAll b path ↔ ¬ HasDrive path ∨ b.answer b.asked = 0 := by
  constructor
  · intro hfrees
    by_contra hnot
    obtain ⟨hdrive, hroot⟩ := not_or.mp hnot
    exact not_parseFreesAll_of_root (not_not.mp hdrive) hfresh hroot hfrees
  · rintro (hdrive | hroot)
    · exact parseFreesAll_of_null (pathparserParse_noDrive b hdrive) fun _ => rfl
    · by_cases hdrive : HasDrive path
      · exact parseFreesAll_of_null (pathparserParse_noRoot hdrive hroot) fun _ => rfl
      · exact parseFreesAll_of_null (pathparserParse_noDrive b hdrive) fun _ => rfl

theorem freshBlocks_fresh : freshBlocks.Fresh 2 := by
  intro i hi _
  refine ⟨ite_self none, fun j hj => ?_⟩
  obtain rfl : i = 1 := by omega
  obtain rfl : j = 0 := by omega
  decide

theorem pathparserParse_freesAll_noDrive :
    ParseFreesAll freshBlocks ⟨[0x61], by decide⟩ :=
  (pathparserParse_freesAll_iff freshBlocks ⟨[0x61], by decide⟩ freshBlocks_fresh).mpr
    (Or.inl fun hdrive => absurd hdrive.2 (by decide))

theorem parsingLeaksNothing_false : ¬ ParsingLeaksNothing := by
  intro h
  have hroot : freshBlocks.answer freshBlocks.asked ≠ 0 := freshBlocks_plenty 0
  have hdrive : HasDrive shortPath := ⟨by decide, by decide⟩
  exact not_parseFreesAll_of_root hdrive freshBlocks_fresh hroot
    (h freshBlocks shortPath freshBlocks_fresh (by decide))

end PeachOS
