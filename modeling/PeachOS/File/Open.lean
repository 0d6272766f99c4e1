import PeachOS.Fat.Position
import PeachOS.File.NewDescriptor
import PeachOS.File.PathBlocks

/-!
# Opening a file

`fopen` goes through seven points of failure to one block that releases what
there is by then.  An error of the filesystem's `open` comes in the variable of the
private data, which that block hands to `close`.
-/

namespace PeachOS

open Lib

def fileModeWrite : Word := 1
def fileModeAppend : Word := 2
def fileModeInvalid : Word := 3

/-- A `struct filesystem` with its `open`, which gets the components of the path, and
the blocks that it holds in a state. -/
structure OpenFilesystem (σ : Type) extends Filesystem σ where
  openFile : PathBlocks → σ → Ptr → Word → Except Halt (Ptr × σ)
  Holds : σ → Ptr → Prop

/-- What `fopen` reads and writes. -/
structure OpenKernel (σ : Type) where
  blocks : PathBlocks
  table : DescriptorTable
  /-- What `kzalloc` returns for the record of a descriptor. -/
  descriptor : Option Ptr
  /-- The filesystem of the one disk. -/
  filesystem : Option (OpenFilesystem σ)
  fs : σ
  /-- What has been handed to `close`, in order. -/
  closed : List Ptr

variable {σ : Type}

def iserr (value : Ptr) : Bool := value.toInt < 0

def fileGetModeByString (str : CString) : Word :=
  let mode := fileModeInvalid
  let mode :=
    if strncmp str.bytes [0x72] 1 = 0 then
      fileModeRead
    else if strncmp str.bytes [0x77] 1 = 0 then
      fileModeWrite
    else
      mode
  if strncmp str.bytes [0x61] 1 = 0 then fileModeAppend else mode

/-- The disk with its filesystem, which may be null. -/
def diskGet (k : OpenKernel σ) (index : Int) : Option (Option (OpenFilesystem σ)) :=
  if index ≠ 0 then none else some k.filesystem

/-- The call of `close` behind `out`. -/
def closePrivate (k : OpenKernel σ) (filesystem : Option (OpenFilesystem σ)) (priv : Ptr) :
    Except Halt Int × OpenKernel σ :=
  match filesystem with
  | none => (.error .fault, k)
  | some filesystem =>
      let k := { k with closed := k.closed ++ [priv] }
      match filesystem.close k.fs priv with
      | .error halt => (.error halt, k)
      | .ok (_, fs) => (.ok 0, { k with fs := fs })

/-- What `fopen` does behind `out` with a negative status; `desc` is null there. -/
def fopenOut (fuel : Nat) (k : OpenKernel σ) (rootPath : Ptr)
    (disk : Option (Option (OpenFilesystem σ))) (priv : Ptr) :
    Except Halt Int × OpenKernel σ :=
  match if rootPath = 0 then .ok k.blocks else pathparserFree fuel k.blocks rootPath with
  | .error halt => (.error halt, k)
  | .ok b =>
      let k := { k with blocks := b }
      match disk with
      | none => (.ok 0, k)
      | some filesystem => if priv = 0 then (.ok 0, k) else closePrivate k filesystem priv

/-- `fopen` once the filesystem has opened the file.  The new descriptor is stored
over `disk`, `desc` stays null and is written through. -/
def fopenDescriptor (fuel : Nat) (k : OpenKernel σ) (rootPath : Ptr)
    (filesystem : OpenFilesystem σ) (priv : Ptr) : Except Halt Int × OpenKernel σ :=
  match fileNewDescriptor k.descriptor k.table with
  | .error halt => (.error halt, k)
  | .ok out =>
      let k := { k with table := out.table }
      match out.res, out.descOut with
      | some res, none =>
          if res < 0 then
            fopenOut fuel k rootPath (some (some filesystem)) priv
          else
            (.error .fault, k)
      | _, _ => (.error .fault, k)

/-- `fopen` once the path is parsed. -/
def fopenRoot (fuel : Nat) (k : OpenKernel σ) (rootPath : Ptr) (modeStr : CString) :
    Except Halt Int × OpenKernel σ :=
  if rootPath = 0 then
    fopenOut fuel k rootPath none 0
  else
    match k.blocks.live rootPath with
    | some (.root root) =>
        if root.first = 0 then
          fopenOut fuel k rootPath none 0
        else
          match diskGet k root.driverNo with
          | none => fopenOut fuel k rootPath none 0
          | some none => fopenOut fuel k rootPath (some none) 0
          | some (some filesystem) =>
              let mode := fileGetModeByString modeStr
              if mode = fileModeInvalid then
                fopenOut fuel k rootPath (some (some filesystem)) 0
              else
                match filesystem.openFile k.blocks k.fs root.first mode with
                | .error halt => (.error halt, k)
                | .ok (priv, fs) =>
                    let k := { k with fs := fs }
                    if iserr priv then
                      fopenOut fuel k rootPath (some (some filesystem)) priv
                    else
                      fopenDescriptor fuel k rootPath filesystem priv
    | _ => (.error .fault, k)

/-- `fuel` bounds the rounds of `pathparser_free`. -/
def fopen (fuel : Nat) (k : OpenKernel σ) (filename modeStr : CString) :
    Except Halt Int × OpenKernel σ :=
  match pathparserParse k.blocks filename with
  | .error halt => (.error halt, k)
  | .ok (rootPath, b) => fopenRoot fuel { k with blocks := b } rootPath modeStr

def Opened (res : Except Halt Int) : Prop := ∃ fd > 0, res = .ok fd

/-- Everything is as before, and `close` has been called on private data only. -/
structure CleansUp (k : OpenKernel σ) (res : Except Halt Int) (k' : OpenKernel σ) : Prop where
  status : res = .ok 0
  closed : ∃ privs, k'.closed = k.closed ++ privs ∧ ∀ priv ∈ privs, iserr priv = false
  table : k'.table = k.table
  blocks : ∀ p, k'.blocks.live p = k.blocks.live p
  held : ∀ filesystem, k.filesystem = some filesystem →
    ∀ p, filesystem.Holds k'.fs p ↔ filesystem.Holds k.fs p

/-- An open either succeeds or cleans up. -/
def OpensOrCleansUp (fuel : Nat) (k : OpenKernel σ) (filename modeStr : CString) : Prop :=
  ¬ Opened (fopen fuel k filename modeStr).1 →
    CleansUp k (fopen fuel k filename modeStr).1 (fopen fuel k filename modeStr).2

section Root

variable {fuel : Nat} {k : OpenKernel σ} {rootPath : Ptr} {root : PathRoot} {ps : List Ptr}
  {modeStr : CString}

/-- The block behind `out` frees the path, and closes the private data that there is. -/
theorem fopenOut_root
    (hroot : k.blocks.live rootPath = some (.root root)) (hparts : PartsAt k.blocks root.first ps)
    (hnodup : (rootPath :: ps).Nodup) (hfuel : ps.length < fuel)
    (disk : Option (Option (OpenFilesystem σ))) (priv : Ptr) :
    ∃ b : PathBlocks, (∀ q, b.live q = if q ∈ rootPath :: ps then none else k.blocks.live q) ∧
      fopenOut fuel k rootPath disk priv =
        match disk with
        | none => (.ok 0, { k with blocks := b })
        | some filesystem =>
            if priv = 0 then
              (.ok 0, { k with blocks := b })
            else
              closePrivate { k with blocks := b } filesystem priv := by
  obtain ⟨b, hfree, hlive⟩ := pathparserFree_spec hroot hparts hnodup hfuel
  refine ⟨b, hlive, ?_⟩
  rw [fopenOut, if_neg (Blocks.ne_zero_of_live hroot), hfree]

/-- A failure before the filesystem is asked frees the path and nothing else. -/
theorem fopenRoot_beforeOpen
    (hroot : k.blocks.live rootPath = some (.root root)) (hparts : PartsAt k.blocks root.first ps)
    (hnodup : (rootPath :: ps).Nodup) (hfuel : ps.length < fuel)
    (hfail : root.first = 0 ∨ root.driverNo ≠ 0 ∨ k.filesystem = none ∨
      fileGetModeByString modeStr = fileModeInvalid) :
    ∃ b : PathBlocks, (∀ q, b.live q = if q ∈ rootPath :: ps then none else k.blocks.live q) ∧
      fopenRoot fuel k rootPath modeStr = (.ok 0, { k with blocks := b }) := by
  rw [fopenRoot, if_neg (Blocks.ne_zero_of_live hroot), hroot]
  dsimp only
  have hout := fopenOut_root hroot hparts hnodup hfuel
  by_cases hfirst : root.first = 0
  · rw [if_pos hfirst]
    exact hout none 0
  · rw [if_neg hfirst]
    cases hdisk : diskGet k root.driverNo with
    | none => exact hout none 0
    | some disk =>
        cases disk with
        | none => exact hout (some none) 0
        | some filesystem =>
            have hdriver : root.driverNo = 0 := by
              by_contra h
              rw [diskGet, if_pos h] at hdisk
              cases hdisk
            have hmode : fileGetModeByString modeStr = fileModeInvalid := by
              rw [diskGet, if_neg (not_not.mpr hdriver)] at hdisk
              rcases hfail with h | h | h | h
              · exact absurd h hfirst
              · exact absurd hdriver h
              · rw [h] at hdisk
                cases hdisk
              · exact h
            dsimp only
            rw [if_pos hmode]
            exact hout (some (some filesystem)) 0

/-- An error of the filesystem's `open` is handed to its `close`. -/
theorem fopenRoot_openError
    {filesystem : OpenFilesystem σ} {priv : Ptr} {fs : σ}
    (hroot : k.blocks.live rootPath = some (.root root)) (hparts : PartsAt k.blocks root.first ps)
    (hnodup : (rootPath :: ps).Nodup) (hfuel : ps.length < fuel)
    (hfirst : root.first ≠ 0) (hdriver : root.driverNo = 0)
    (hfilesystem : k.filesystem = some filesystem)
    (hmode : fileGetModeByString modeStr ≠ fileModeInvalid)
    (hopen : filesystem.openFile k.blocks k.fs root.first (fileGetModeByString modeStr) =
      .ok (priv, fs))
    (herr : iserr priv = true) :
    (fopenRoot fuel k rootPath modeStr).2.closed = k.closed ++ [priv] := by
  have hpriv : priv ≠ 0 := fun h0 => by
    rw [h0] at herr
    exact absurd herr (by decide)
  have hdisk : diskGet k root.driverNo = some (some filesystem) := by
    rw [diskGet, if_neg (not_not.mpr hdriver), hfilesystem]
  rw [fopenRoot, if_neg (Blocks.ne_zero_of_live hroot), hroot]
  dsimp only
  rw [if_neg hfirst, hdisk]
  dsimp only
  rw [if_neg hmode, hopen]
  dsimp only
  rw [if_pos herr]
  obtain ⟨b, -, hout⟩ := fopenOut_root (k := { k with fs := fs }) hroot hparts hnodup hfuel
    (some (some filesystem)) priv
  rw [hout]
  dsimp only
  rw [if_neg hpriv, closePrivate]
  dsimp only
  split <;> rfl

end Root

/-- Without a root nothing is released, whatever the parser has left behind. -/
theorem fopen_of_null
    {fuel : Nat} {k : OpenKernel σ} {filename : CString} {b : PathBlocks}
    (h : pathparserParse k.blocks filename = .ok (0, b)) (modeStr : CString) :
    fopen fuel k filename modeStr = (.ok 0, { k with blocks := b }) := by
  rw [fopen, h]
  dsimp only
  rw [fopenRoot, if_pos rfl, fopenOut]
  rfl

theorem opensOrCleansUp_of_null
    {fuel : Nat} {k : OpenKernel σ} {filename : CString} {b : PathBlocks}
    (h : pathparserParse k.blocks filename = .ok (0, b)) (hlive : ∀ q, b.live q = k.blocks.live q)
    (modeStr : CString) :
    OpensOrCleansUp fuel k filename modeStr := by
  intro _
  rw [fopen_of_null h]
  exact ⟨rfl, ⟨[], (List.append_nil _).symm, by simp⟩, rfl, hlive, fun _ _ _ => Iff.rfl⟩

/-- An open that cleans up has parsed without a block left behind. -/
theorem parseFreesAll_of_opensOrCleansUp
    {fuel : Nat} {k : OpenKernel σ} {filename modeStr : CString}
    (h : OpensOrCleansUp fuel k filename modeStr) :
    ParseFreesAll k.blocks filename := by
  cases hparse : pathparserParse k.blocks filename with
  | error halt =>
      have hout : fopen fuel k filename modeStr = (.error halt, k) := by rw [fopen, hparse]
      rw [OpensOrCleansUp, hout] at h
      have hfailed : ¬ Opened (.error halt) := by
        rintro ⟨fd, -, heq⟩
        cases heq
      cases (h hfailed).status
  | ok out =>
      obtain ⟨rootPath, b⟩ := out
      obtain rfl := pathparserParse_null hparse
      rw [OpensOrCleansUp, fopen_of_null hparse] at h
      have hfailed : ¬ Opened (.ok 0) := by
        rintro ⟨fd, hpos, heq⟩
        cases heq
        omega
      exact parseFreesAll_of_null hparse (h hfailed).blocks

/-- Every failed open cleans up. -/
def FailedOpensCleanUp (σ : Type) : Prop :=
  ∀ (fuel : Nat) (k : OpenKernel σ) (filename modeStr : CString), k.blocks.Fresh 2 →
    OpensOrCleansUp fuel k filename modeStr

/-- A failed open cleans up exactly when there is no drive in the name or no block for
the root of its path. -/
theorem fopen_cleansUp_iff
    (fuel : Nat) (k : OpenKernel σ) (filename modeStr : CString)
    (hfresh : k.blocks.Fresh 2) :
    OpensOrCleansUp fuel k filename modeStr ↔
      ¬ HasDrive filename ∨ k.blocks.answer k.blocks.asked = 0 := by
  constructor
  · intro h
    by_contra hnot
    obtain ⟨hdrive, hroot⟩ := not_or.mp hnot
    exact not_parseFreesAll_of_root (not_not.mp hdrive) hfresh hroot
      (parseFreesAll_of_opensOrCleansUp h)
  · intro h
    by_cases hdrive : HasDrive filename
    · have hroot := h.resolve_left (not_not.mpr hdrive)
      exact opensOrCleansUp_of_null (pathparserParse_noRoot hdrive hroot) (fun _ => rfl) modeStr
    · exact opensOrCleansUp_of_null (pathparserParse_noDrive k.blocks hdrive) (fun _ => rfl) modeStr

def idleKernel : OpenKernel Unit where
  blocks := freshBlocks
  table := ⟨fun _ => none, fun _ => none⟩
  descriptor := none
  filesystem := none
  fs := ()
  closed := []

/-- The mode `r`. -/
def readMode : CString := ⟨[0x72], by decide⟩

theorem fopen_cleansUp_noDrive :
    OpensOrCleansUp 1 idleKernel ⟨[0x61], by decide⟩ readMode :=
  (fopen_cleansUp_iff 1 idleKernel ⟨[0x61], by decide⟩ readMode freshBlocks_fresh).mpr
    (Or.inl fun hdrive => absurd hdrive.2 (by decide))

/-- The open of `0:/a` leaves the buffer for its component behind. -/
theorem failedOpensCleanUp_false : ¬ FailedOpensCleanUp Unit := by
  intro h
  have hdrive : HasDrive shortPath := ⟨by decide, by decide⟩
  have hroot : freshBlocks.answer freshBlocks.asked ≠ 0 := freshBlocks_plenty 0
  have hfrees := parseFreesAll_of_opensOrCleansUp
    (h 1 idleKernel shortPath readMode freshBlocks_fresh)
  exact not_parseFreesAll_of_root hdrive freshBlocks_fresh hroot hfrees

end PeachOS
