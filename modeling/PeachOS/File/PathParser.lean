import PeachOS.Memory.Blocks
import PeachOS.Strings

/-!
# Parsing a path

`pparser.c` splits a path such as `0:/bin/shell` into a drive number and a
linked list of components.  The cursor `tmp_path` is what is left of the path.
-/

namespace PeachOS

open Lib

structure PathRoot where
  driverNo : Int
  first : Ptr

structure PathPart where
  part : Ptr
  next : Ptr

/-- What the parser keeps in its blocks; of a buffer for a name, the bytes
written so far. -/
inductive PathBlock where
  | root (root : PathRoot)
  | part (part : PathPart)
  | name (bytes : List Byte)

abbrev PathBlocks := Blocks PathBlock

def colon : Byte := 0x3A
def slash : Byte := 0x2F

def isdigit (c : Byte) : Bool := 48 ≤ c.toInt ∧ c.toInt ≤ 57

def tonumericdigit (c : Byte) : Int := c.toInt - 48

def pathparserPathValidFormat (filename : List Byte) : Bool :=
  let len := min filename.length maxPath
  len ≥ 3 ∧ isdigit (filename.headD 0) ∧ (filename.drop 1).take 2 = [colon, slash]

/-- The drive number or the error, and what is left of the path. -/
def pathparserGetDriveByPath (path : List Byte) : Int × List Byte :=
  if ¬ pathparserPathValidFormat path then
    (-ebadpath, path)
  else
    (tonumericdigit (path.headD 0), path.drop 3)

def pathparserCreateRoot (b : PathBlocks) (driveNumber : Int) : Ptr × PathBlocks :=
  let (pathR, b) := b.kzalloc (.root ⟨0, 0⟩)
  if pathR = 0 then (0, b) else (pathR, b.set pathR (some (.root ⟨driveNumber, 0⟩)))

/-- The loop of `pathparser_get_path_part`, with the number of bytes copied
so far. -/
def copyPathPart (resultPathPart : Ptr) :
    List Byte → Nat → PathBlocks → Except Halt (Nat × List Byte × PathBlocks)
  | [], i, b => .ok (i, [], b)
  | c :: path, i, b =>
      if c = slash then
        .ok (i, c :: path, b)
      else
        match b.live resultPathPart with
        | some (.name bytes) =>
            if bytes.length < maxPath then
              copyPathPart resultPathPart path (i + 1)
                (b.set resultPathPart (some (.name (bytes ++ [c]))))
            else
              .error .fault
        | _ => .error .fault

def pathparserGetPathPart (b : PathBlocks) (path : List Byte) :
    Except Halt (Ptr × List Byte × PathBlocks) :=
  let (resultPathPart, b) := b.kzalloc (.name [])
  -- The test is the wrong way round: it leaves when there is a buffer.
  if resultPathPart ≠ 0 then
    .ok (0, path, b)
  else do
    let (i, path, b) ← copyPathPart resultPathPart path 0 b
    let path := if path.headD 0 = slash then path.tail else path
    if i = 0 then
      let b ← b.kfree resultPathPart
      pure (0, path, b)
    else
      pure (resultPathPart, path, b)

def linkPathPart (b : PathBlocks) (lastPart part : Ptr) : Except Halt PathBlocks :=
  if lastPart = 0 then
    .ok b
  else
    match b.live lastPart with
    | some (.part last) => .ok (b.set lastPart (some (.part { last with next := part })))
    | _ => .error .fault

def pathparserParsePathPart (b : PathBlocks) (lastPart : Ptr) (path : List Byte) :
    Except Halt (Ptr × List Byte × PathBlocks) := do
  let (pathPartStr, path, b) ← pathparserGetPathPart b path
  if pathPartStr = 0 then
    pure (0, path, b)
  else
    let (part, b) := b.kzalloc (.part ⟨0, 0⟩)
    if part = 0 then
      let b ← b.kfree pathPartStr
      pure (0, path, b)
    else
      let b := b.set part (some (.part ⟨pathPartStr, 0⟩))
      let b ← linkPathPart b lastPart part
      pure (part, path, b)

/-- With a buffer there is no component, so the list never grows. -/
theorem pathparserGetPathPart_str
    {b b' : PathBlocks} {path path' : List Byte} {str : Ptr}
    (h : pathparserGetPathPart b path = .ok (str, path', b')) :
    str = 0 := by
  simp only [pathparserGetPathPart] at h
  split_ifs at h with hstr
  · exact (congrArg Prod.fst (Except.ok.inj h)).symm
  · rw [not_not] at hstr
    obtain ⟨⟨i, rest, b₁⟩, -, h⟩ := bind_eq_ok_iff.mp h
    dsimp only at h
    split_ifs at h
    · obtain ⟨b₂, -, h⟩ := bind_eq_ok_iff.mp h
      exact (congrArg Prod.fst (Except.ok.inj h)).symm
    · obtain ⟨b₂, -, h⟩ := bind_eq_ok_iff.mp h
      exact (congrArg Prod.fst (Except.ok.inj h)).symm
    · rw [← hstr]
      exact (congrArg Prod.fst (Except.ok.inj h)).symm
    · rw [← hstr]
      exact (congrArg Prod.fst (Except.ok.inj h)).symm

theorem pathparserParsePathPart_part
    {b b' : PathBlocks} {path path' : List Byte} {lastPart part : Ptr}
    (h : pathparserParsePathPart b lastPart path = .ok (part, path', b')) :
    part = 0 := by
  obtain ⟨⟨str, rest, b₁⟩, hstr, h⟩ := bind_eq_ok_iff.mp h
  rw [pathparserGetPathPart_str hstr] at h
  exact (congrArg Prod.fst (Except.ok.inj h)).symm

/-- The loop of `pathparser_parse`, which goes round at most once: there is no
component to go on with. -/
def parseParts (b : PathBlocks) (part : Ptr) (path : List Byte) : Except Halt PathBlocks :=
  if part = 0 then
    .ok b
  else
    match _h : pathparserParsePathPart b part path with
    | .error halt => .error halt
    | .ok (next, path', b') =>
        if _hnext : next = 0 then .ok b' else parseParts b' next path'
termination_by path.length
decreasing_by exact absurd (pathparserParsePathPart_part _h) _hnext

/-- What `pathparser_parse` does behind `out` with a negative status. -/
def pathparserCleanUp (b : PathBlocks) (pathRoot firstPart : Ptr) :
    Except Halt (Ptr × PathBlocks) := do
  let b ← if pathRoot = 0 then pure b else b.kfree pathRoot
  let b ← if firstPart = 0 then pure b else b.kfree firstPart
  pure (0, b)

def setFirst (b : PathBlocks) (pathRoot firstPart : Ptr) : Except Halt PathBlocks :=
  match b.live pathRoot with
  | some (.root root) => .ok (b.set pathRoot (some (.root { root with first := firstPart })))
  | _ => .error .fault

/-- The root, or null. -/
def pathparserParse (b : PathBlocks) (path : CString) : Except Halt (Ptr × PathBlocks) :=
  if path.bytes.length > maxPath then
    pathparserCleanUp b 0 0
  else
    let (res, tmpPath) := pathparserGetDriveByPath path.bytes
    if res < 0 then
      pathparserCleanUp b 0 0
    else
      let (pathRoot, b) := pathparserCreateRoot b res
      if pathRoot = 0 then
        pathparserCleanUp b 0 0
      else do
        let (firstPart, tmpPath, b) ← pathparserParsePathPart b 0 tmpPath
        if firstPart = 0 then
          pathparserCleanUp b pathRoot 0
        else
          let b ← setFirst b pathRoot firstPart
          let (part, tmpPath, b) ← pathparserParsePathPart b firstPart tmpPath
          let b ← parseParts b part tmpPath
          pure (pathRoot, b)

/-- The components of a path up to its end or the first empty one. -/
def components (path : List Byte) : List (List Byte) :=
  if path.takeWhile (· ≠ slash) = [] then
    []
  else
    path.takeWhile (· ≠ slash) :: components ((path.dropWhile (· ≠ slash)).drop 1)
termination_by path.length
decreasing_by
  have hpos : 0 < (path.takeWhile (· ≠ slash)).length :=
    List.length_pos_iff.mpr (by assumption)
  have hlength :=
    congrArg List.length (List.takeWhile_append_dropWhile (p := (· ≠ slash)) (l := path))
  rw [List.length_append] at hlength
  rw [List.length_drop]
  omega

/-- A path names a digit and at least one component. -/
structure Names (path : List Byte) (digit : Byte) (rest : List Byte) : Prop where
  bytes : path = digit :: colon :: slash :: rest
  digit : isdigit digit
  first : components rest ≠ []

/-- The list from `part` on holds the components. -/
def HoldsParts (b : PathBlocks) : Ptr → List (List Byte) → Prop
  | part, [] => part = 0
  | part, name :: names => ∃ p : PathPart, b.live part = some (.part p) ∧
      b.live p.part = some (.name name) ∧ HoldsParts b p.next names

structure HoldsPath (b : PathBlocks) (pathRoot : Ptr) (digit : Byte) (rest : List Byte) :
    Prop where
  live : ∃ root, b.live pathRoot = some (.root root) ∧ root.driverNo = tonumericdigit digit ∧
    HoldsParts b root.first (components rest)

theorem pathparserParsePathPart_plenty
    {b : PathBlocks} (hb : b.Plenty) (lastPart : Ptr) (path : List Byte) :
    pathparserParsePathPart b lastPart path = .ok (0, path, (b.kzalloc (.name [])).2) := by
  have hstr : (b.kzalloc (.name [])).1 ≠ 0 := by
    rw [hb.kzalloc]
    exact hb b.asked
  simp only [pathparserParsePathPart, pathparserGetPathPart, if_pos hstr, ok_bind, if_true]
  rfl

theorem pathparserCleanUp_root
    {b : PathBlocks} {pathRoot : Ptr} {x : PathBlock}
    (h : b.live pathRoot = some x) :
    pathparserCleanUp b pathRoot 0 = .ok (0, b.set pathRoot none) := by
  rw [pathparserCleanUp, if_neg (Blocks.ne_zero_of_live h), Blocks.kfree_of_live h]
  rfl

theorem pathparserCreateRoot_plenty
    {b : PathBlocks} (hb : b.Plenty) (driveNumber : Int) :
    ∃ b', pathparserCreateRoot b driveNumber = (b.answer b.asked, b') ∧ b'.Plenty ∧
      b'.live (b.answer b.asked) = some (.root ⟨driveNumber, 0⟩) := by
  have hroot := hb b.asked
  refine ⟨({ b with asked := b.asked + 1 }.set (b.answer b.asked) (some (.root ⟨0, 0⟩))).set
    (b.answer b.asked) (some (.root ⟨driveNumber, 0⟩)), ?_, hb, Blocks.set_live_self _ _ hroot⟩
  rw [pathparserCreateRoot, hb.kzalloc]
  exact if_neg hroot

/-- With a buffer for every component no path is parsed. -/
theorem pathparserParse_plenty
    {b : PathBlocks} (hb : b.Plenty) (path : CString) :
    ∃ b', pathparserParse b path = .ok (0, b') := by
  rw [pathparserParse]
  split_ifs with hlong
  · exact ⟨b, rfl⟩
  · generalize pathparserGetDriveByPath path.bytes = drive
    obtain ⟨res, tmpPath⟩ := drive
    obtain ⟨b₁, hcreate, hb₁, hroot⟩ := pathparserCreateRoot_plenty hb res
    dsimp only
    rw [hcreate]
    split_ifs with hres hnull
    · exact ⟨b, rfl⟩
    · exact absurd hnull (hb b.asked)
    · simp only [pathparserParsePathPart_plenty hb₁, ok_bind, if_true]
      have hkept : ∃ x, (b₁.kzalloc (.name [])).2.live (b.answer b.asked) = some x := by
        rw [hb₁.kzalloc]
        exact Blocks.exists_live_set hroot
      obtain ⟨x, hlive⟩ := hkept
      rw [pathparserCleanUp_root hlive]
      exact ⟨_, rfl⟩

/-- The root is null exactly for the strings outside the grammar, and otherwise
it holds the drive and the components. -/
def ParsesExactly (b : PathBlocks) (path : CString) : Prop :=
  ∃ pathRoot b', pathparserParse b path = .ok (pathRoot, b') ∧
    (pathRoot ≠ 0 ↔ ∃ digit rest, Names path.bytes digit rest) ∧
    (pathRoot ≠ 0 → ∀ digit rest, Names path.bytes digit rest →
      HoldsPath b' pathRoot digit rest)

def ParsesPaths : Prop :=
  ∀ (b : PathBlocks) (path : CString), b.Plenty → path.bytes.length ≤ maxPath →
    ParsesExactly b path

/-- A path is parsed as it should be exactly when it should be refused. -/
theorem pathparserParse_exact_iff
    (b : PathBlocks) (path : CString)
    (hb : b.Plenty) :
    ParsesExactly b path ↔ ¬ ∃ digit rest, Names path.bytes digit rest := by
  obtain ⟨b', hparse⟩ := pathparserParse_plenty hb path
  constructor
  · rintro ⟨pathRoot, b'', hparse', hiff, -⟩
    rw [hparse] at hparse'
    obtain ⟨rfl, -⟩ := Prod.mk.inj (Except.ok.inj hparse')
    exact fun hnames => hiff.mpr hnames rfl
  · intro hnames
    refine ⟨0, b', hparse, ?_, fun h => absurd rfl h⟩
    exact iff_of_false (fun h => h rfl) hnames

/-- A heap that hands out one block after the other. -/
def freshBlocks : PathBlocks where
  answer := fun n => BitVec.ofNat 32 (4096 * (n % 1024 + 4096))
  asked := 0
  block := fun _ => none

theorem freshBlocks_plenty : freshBlocks.Plenty := by
  intro n h
  have hzero : 4096 * (n % 1024 + 4096) % 2 ^ 32 = 0 := by
    rw [← BitVec.toNat_ofNat]
    exact congrArg BitVec.toNat h
  omega

/-- The path `0:/a`. -/
def shortPath : CString := ⟨[0x30, 0x3A, 0x2F, 0x61], by decide⟩

theorem shortPath_names : Names shortPath.bytes 0x30 [0x61] where
  bytes := rfl
  digit := by decide
  first := by
    rw [components]
    decide

theorem pathparserParse_exact_noDrive :
    ParsesExactly freshBlocks ⟨[0x61], by decide⟩ := by
  refine (pathparserParse_exact_iff freshBlocks ⟨[0x61], by decide⟩ freshBlocks_plenty).mpr ?_
  rintro ⟨digit, rest, hnames⟩
  simpa using hnames.bytes

theorem parsesPaths_false : ¬ ParsesPaths := by
  intro h
  obtain ⟨pathRoot, b', hparse, hiff, -⟩ :=
    h freshBlocks shortPath freshBlocks_plenty (by decide)
  obtain ⟨b'', hnull⟩ := pathparserParse_plenty freshBlocks_plenty shortPath
  rw [hnull] at hparse
  obtain ⟨rfl, -⟩ := Prod.mk.inj (Except.ok.inj hparse)
  exact hiff.mpr ⟨_, _, shortPath_names⟩ rfl

end PeachOS
