import PeachOS.Fat.File
import PeachOS.Fat.PathLookup
import PeachOS.Lib.Run

/-!
# The position of an open file

`fat16_open` starts a file at its first byte, `fat16_seek` and `fat16_read` move
its position.  A seek compares only its argument with the size of the file, and
a read compares nothing.
-/

namespace PeachOS

open Lib

def fileModeRead : Word := 0

/-- What `kzalloc` returns for the record of the file and for the items of its
path. -/
structure OpenMemory where
  descriptor : Option Ptr
  items : Nat → Nat → ItemMemory

/-- The private data of the file or an error, and the records afterwards. -/
def fat16Open (loadFatDirectory : FatDirectoryItem → Option FatDirectory) (mem : OpenMemory)
    (fs : Fat16State) (part : CString) (parts : List CString) (mode : Word) :
    Except Halt (Except Int Ptr × Fat16State) :=
  if mode ≠ fileModeRead then
    .ok (.error (-erdonly), fs)
  else
    match mem.descriptor with
    | none => .ok (.error (-enomem), fs)
    | some priv => do
        let (item, store) ← fat16GetDirectoryEntry loadFatDirectory mem.items
          fs.fatPrivate.rootDirectory part parts
        match item.bind store.live with
        | none => pure (.error (-eio), fs)
        | some item => pure (.ok priv, fs.setDescriptor priv (some ⟨item, 0⟩))

/-- The calls that move the position of a file. -/
inductive MoveCall where
  | seek (offset seekMode : Word)
  | read (size nmemb : Word)

/-- The status and the bytes delivered. -/
def MoveCall.run (fs : Fat16State) (priv : Ptr) :
    MoveCall → Except Halt ((Int × List Byte) × Fat16State)
  | .seek offset seekMode => do
      let (res, fs) ← fat16Seek fs priv offset seekMode
      pure ((res, []), fs)
  | .read size nmemb => fat16Read fs priv size nmemb

/-- One call that returns. -/
def moveStep (priv : Ptr) (fs : Fat16State) (call : MoveCall) (fs' : Fat16State) : Prop :=
  ∃ res, call.run fs priv = .ok (res, fs')

/-- The file of an entry is open at a position. -/
def FileAt (priv : Ptr) (item : FatDirectoryItem) (fs : Fat16State) (pos : Word) : Prop :=
  fs.descriptors priv = some ⟨.file (some item), pos⟩

/-- What a call should do to a file at position `pos`. -/
def MovesInside (priv : Ptr) (item : FatDirectoryItem) (pos : Word)
    (res : Int × List Byte) (fs' : Fat16State) : Prop :=
  ∃ pos', FileAt priv item fs' pos' ∧ pos'.toNat ≤ item.filesize.toNat ∧
    pos.toNat + res.2.length ≤ item.filesize.toNat ∧ (res.1 < 0 → pos' = pos)

/-- A read asks for bytes of the file, fewer than `2^31` elements of them unless
they are empty, and a relative seek for a position in it. -/
def MoveCall.AsksInside (item : FatDirectoryItem) (pos : Word) : MoveCall → Prop
  | .seek offset seekMode =>
      offset < item.filesize → seekMode = seekCur → pos + offset ≤ item.filesize
  | .read size nmemb =>
      pos.toNat + nmemb.toNat * size.toNat ≤ item.filesize.toNat ∧
        (size = 0 ∨ nmemb.toNat < 2147483648)

def callsInside (priv : Ptr) (item : FatDirectoryItem) (fs : Fat16State) (call : MoveCall) :
    Prop :=
  ∀ pos, FileAt priv item fs pos → call.AsksInside item pos

@[simp] theorem fileAt_setDescriptor
    (priv : Ptr) (item : FatDirectoryItem) (fs : Fat16State) (pos : Word) :
    FileAt priv item (fs.setDescriptor priv (some ⟨.file (some item), pos⟩)) pos :=
  if_pos rfl

/-- An open that returns a record starts the file at its first byte. -/
theorem fat16Open_inv
    {loadFatDirectory : FatDirectoryItem → Option FatDirectory} {mem : OpenMemory}
    {fs fs' : Fat16State} {part : CString} {parts : List CString} {mode : Word} {priv : Ptr}
    (h : fat16Open loadFatDirectory mem fs part parts mode = .ok (.ok priv, fs')) :
    ∃ item, fs' = fs.setDescriptor priv (some ⟨item, 0⟩) := by
  unfold fat16Open at h
  split_ifs at h
  · cases h
  · split at h
    · cases h
    · rw [bind_eq_ok_iff] at h
      obtain ⟨⟨item, store⟩, -, h⟩ := h
      dsimp only at h
      split at h
      · cases h
      · cases h
        exact ⟨_, rfl⟩

theorem fat16Seek_movesInside
    {fs fs' : Fat16State} {priv : Ptr} {item : FatDirectoryItem} {pos offset seekMode : Word}
    {res : Int} (hat : FileAt priv item fs pos) (hpos : pos.toNat ≤ item.filesize.toNat)
    (hasks : (MoveCall.seek offset seekMode).AsksInside item pos)
    (h : fat16Seek fs priv offset seekMode = .ok (res, fs')) :
    MovesInside priv item pos (res, []) fs' := by
  have hstay : MovesInside priv item pos (res, []) fs :=
    ⟨pos, hat, hpos, hpos, fun _ => rfl⟩
  rw [fat16Seek, hat] at h
  dsimp only at h
  split_ifs at h with hoffset hset hend hcur <;> obtain ⟨rfl, rfl⟩ := Prod.mk.inj (Except.ok.inj h)
  · exact hstay
  · exact ⟨offset, fileAt_setDescriptor priv item fs offset, by bv_omega, hpos, by simp⟩
  · exact hstay
  · have hinside := hasks (by bv_omega) hcur
    exact ⟨pos + offset, fileAt_setDescriptor priv item fs _, hinside, hpos, by simp⟩
  · exact hstay

theorem ofInt_toInt
    (x : Int) :
    BitVec.ofInt 32 (toInt x) = BitVec.ofInt 32 x := by
  rw [toInt, BitVec.ofInt_toInt]

/-- An element takes no more bytes than its size, which is negative as an `int`
from `2^31` on. -/
theorem length_fat16ReadInternal_le
    {disk : Disk} {fatPrivate : FatPrivate} {cluster offset res : Int} {size : Word}
    {out : List Byte}
    (h : fat16ReadInternal disk fatPrivate cluster offset size.toInt = .ok (res, out)) :
    out.length ≤ size.toNat := by
  unfold fat16ReadInternal at h
  split at h
  · cases h
  · refine (length_fat16ReadInternalFromStream_le h).trans ?_
    have := size.isLt
    rw [BitVec.toInt_eq_toNat_cond]
    split_ifs <;> omega

/-- The elements that are read follow each other in the file. -/
theorem fat16ReadLoop_spec
    {fs : Fat16State} {cluster : Int} {size : Word} {n : Nat} {offset offset' res : Int}
    {out : List Byte} (h : fat16ReadLoop fs cluster size n offset = .ok (res, offset', out)) :
    out.length ≤ n * size.toNat ∧
      (0 ≤ res → BitVec.ofInt 32 offset' = BitVec.ofInt 32 (offset + n * size.toNat)) := by
  induction n generalizing offset out with
  | zero =>
      cases h
      simp
  | succ n ih =>
      rw [fat16ReadLoop, bind_eq_ok_iff] at h
      obtain ⟨⟨status, piece⟩, hread, h⟩ := h
      have hpiece := length_fat16ReadInternal_le hread
      dsimp only at h
      split_ifs at h with hfail
      · cases h
        refine ⟨?_, fun hnonneg => absurd hnonneg (not_le.mpr hfail)⟩
        exact hpiece.trans (Nat.le_mul_of_pos_left _ (Nat.succ_pos n))
      · rw [bind_eq_ok_iff] at h
        obtain ⟨⟨status', after, rest⟩, hrest, h⟩ := h
        cases h
        obtain ⟨hlength, hoffset⟩ := ih hrest
        refine ⟨?_, fun hnonneg => ?_⟩
        · simp only [List.length_append, Nat.succ_mul]
          omega
        · rw [hoffset hnonneg, BitVec.ofInt_add, ofInt_toInt, ← BitVec.ofInt_add]
          congr 1
          push_cast
          ring

theorem fat16Read_movesInside
    {fs fs' : Fat16State} {priv : Ptr} {item : FatDirectoryItem} {pos size nmemb : Word}
    {res : Int × List Byte} (hat : FileAt priv item fs pos)
    (hasks : (MoveCall.read size nmemb).AsksInside item pos)
    (h : fat16Read fs priv size nmemb = .ok (res, fs')) :
    MovesInside priv item pos res fs' := by
  obtain ⟨hinside, hcount⟩ := hasks
  rw [fat16Read, hat] at h
  dsimp only at h
  rw [bind_eq_ok_iff] at h
  obtain ⟨⟨status, offset, out⟩, hloop, h⟩ := h
  obtain ⟨hlength, hoffset⟩ := fat16ReadLoop_spec hloop
  dsimp only at h
  split_ifs at h with hfail <;> obtain ⟨rfl, rfl⟩ := Prod.mk.inj (Except.ok.inj h)
  · exact ⟨pos, hat, by omega, by dsimp only; omega, fun _ => rfl⟩
  · -- the new position is the exact sum
    have hsum : BitVec.ofInt 32 offset = pos + nmemb * size := by
      rw [hoffset (by omega), BitVec.ofInt_add, BitVec.ofInt_toInt, BitVec.ofInt_mul]
      simp
    have htoNat : (pos + nmemb * size).toNat = pos.toNat + nmemb.toNat * size.toNat := by
      have := item.filesize.isLt
      rw [BitVec.toNat_add, BitVec.toNat_mul, Nat.add_mod_mod, Nat.mod_eq_of_lt (by omega)]
    refine ⟨_, fileAt_setDescriptor priv item fs _, ?_, by dsimp only; omega, fun hneg => ?_⟩
    · rw [hsum, htoNat]
      exact hinside
    · rcases hcount with rfl | hcount
      · rw [hsum]
        simp
      · rw [BitVec.toInt_eq_toNat_of_lt (by omega)] at hneg
        omega

/-- A call that asks for a part of the file stays in it. -/
theorem moveCall_movesInside
    {fs fs' : Fat16State} {priv : Ptr} {item : FatDirectoryItem} {pos : Word} {call : MoveCall}
    {res : Int × List Byte} (hat : FileAt priv item fs pos)
    (hpos : pos.toNat ≤ item.filesize.toNat) (hasks : call.AsksInside item pos)
    (h : call.run fs priv = .ok (res, fs')) :
    MovesInside priv item pos res fs' := by
  cases call with
  | seek offset seekMode =>
      rw [MoveCall.run, bind_eq_ok_iff] at h
      obtain ⟨⟨status, fs₁⟩, hseek, h⟩ := h
      cases h
      exact fat16Seek_movesInside hat hpos hasks hseek
  | read size nmemb => exact fat16Read_movesInside hat hasks h

/-- From the open on, while every call asks for a part of the file, its position
is in it, no read delivers a byte behind it and a call that fails does not move
it. -/
theorem filePosition_staysInside
    (loadFatDirectory : FatDirectoryItem → Option FatDirectory) (mem : OpenMemory)
    (fs₀ fs₁ fs : Fat16State) (part : CString) (parts : List CString) (mode : Word)
    (priv : Ptr) (item : FatDirectoryItem) (calls : List MoveCall)
    (hopen : fat16Open loadFatDirectory mem fs₀ part parts mode = .ok (.ok priv, fs₁))
    (hfile : ∃ pos, FileAt priv item fs₁ pos)
    (hrun : Run (Guarded (callsInside priv item) (moveStep priv)) fs₁ calls fs) :
    ∃ pos, FileAt priv item fs pos ∧ pos.toNat ≤ item.filesize.toNat ∧
      ∀ (call : MoveCall) (res : Int × List Byte) (fs' : Fat16State),
        callsInside priv item fs call → call.run fs priv = .ok (res, fs') →
          MovesInside priv item pos res fs' := by
  have hstart : ∃ pos, FileAt priv item fs₁ pos ∧ pos.toNat ≤ item.filesize.toNat := by
    obtain ⟨found, rfl⟩ := fat16Open_inv hopen
    obtain ⟨pos, hpos⟩ := hfile
    obtain rfl : 0 = pos := by
      have := (if_pos rfl).symm.trans hpos
      cases this
      rfl
    exact ⟨0, hpos, Nat.zero_le _⟩
  obtain ⟨pos, hat, hpos⟩ := hrun.invariant
    (fun fs => ∃ pos, FileAt priv item fs pos ∧ pos.toNat ≤ item.filesize.toNat)
    (fun fs call fs' ⟨pos, hat, hpos⟩ ⟨hguard, res, hcall⟩ => by
      obtain ⟨pos', hat', hpos', -⟩ := moveCall_movesInside hat hpos (hguard pos hat) hcall
      exact ⟨pos', hat', hpos'⟩) hstart
  exact ⟨pos, hat, hpos, fun call res fs' hguard hcall =>
    moveCall_movesInside hat hpos (hguard pos hat) hcall⟩

/-- The entry of a file with the name `A`. -/
def twoByteEntry : List Byte :=
  65 :: List.replicate 10 0x20 ++ List.replicate 17 0 ++ [2, 0, 0, 0]

def twoByteItem : FatDirectoryItem := .ofBytes twoByteEntry

/-- A volume with that file in its root directory, and no file open. -/
def twoByteVolume : Fat16State where
  disk := linkedVolume.disk
  fatPrivate :=
    { linkedVolume.fatPrivate with
      rootDirectory := { item := twoByteEntry, total := 1, sectorPos := 0, endingSectorPos := 0 } }
  descriptors _ := none

def twoByteMemory : OpenMemory where
  descriptor := some 0x1004000
  items _ _ := { item := true, clone := true }

/-- The file at a position. -/
def twoByteFile (pos : Word) : Fat16State :=
  twoByteVolume.setDescriptor 0x1004000 (some ⟨.file (some twoByteItem), pos⟩)

theorem fat16Open_twoByteFile :
    fat16Open (fun _ => none) twoByteMemory twoByteVolume ⟨[65], by decide⟩ [] fileModeRead =
      .ok (.ok 0x1004000, twoByteFile 0) :=
  rfl

theorem twoByteFile_setDescriptor
    (pos pos' : Word) :
    (twoByteFile pos).setDescriptor 0x1004000 (some ⟨.file (some twoByteItem), pos'⟩) =
      twoByteFile pos' := by
  simp only [twoByteFile, Fat16State.setDescriptor]
  congr 1
  funext p
  split_ifs <;> rfl

/-- A relative seek by one. -/
theorem moveStep_seekCur
    (pos : Word) :
    moveStep 0x1004000 (twoByteFile pos) (.seek 1 seekCur) (twoByteFile (pos + 1)) := by
  refine ⟨(0, []), ?_⟩
  rw [← twoByteFile_setDescriptor pos (pos + 1)]
  rfl

theorem filePosition_staysInside_seekCur :
    ∃ pos, FileAt 0x1004000 twoByteItem (twoByteFile 1) pos ∧
      pos.toNat ≤ twoByteItem.filesize.toNat := by
  have hguard : callsInside 0x1004000 twoByteItem (twoByteFile 0) (.seek 1 seekCur) := by
    intro pos hat _ _
    cases (fileAt_setDescriptor 0x1004000 twoByteItem twoByteVolume 0).symm.trans hat
    decide
  obtain ⟨pos, hat, hpos, -⟩ := filePosition_staysInside (fun _ => none) twoByteMemory
    twoByteVolume (twoByteFile 0) (twoByteFile 1) ⟨[65], by decide⟩ [] fileModeRead 0x1004000
    twoByteItem [.seek 1 seekCur] fat16Open_twoByteFile
    ⟨0, fileAt_setDescriptor _ _ _ _⟩
    (.cons ⟨hguard, moveStep_seekCur 0⟩ (.nil _))
  exact ⟨pos, hat, hpos⟩

/-- The position stays in the file whatever is called. -/
def FilePositionsInside : Prop :=
  ∀ (loadFatDirectory : FatDirectoryItem → Option FatDirectory) (mem : OpenMemory)
    (fs₀ fs₁ fs : Fat16State) (part : CString) (parts : List CString) (mode : Word)
    (priv : Ptr) (item : FatDirectoryItem) (calls : List MoveCall),
    fat16Open loadFatDirectory mem fs₀ part parts mode = .ok (.ok priv, fs₁) →
    (∃ pos, FileAt priv item fs₁ pos) → Run (moveStep priv) fs₁ calls fs →
    ∃ pos, FileAt priv item fs pos ∧ pos.toNat ≤ item.filesize.toNat ∧
      ∀ (call : MoveCall) (res : Int × List Byte) (fs' : Fat16State),
        call.run fs priv = .ok (res, fs') → MovesInside priv item pos res fs'

/-- Three relative seeks by one leave a file of two bytes at position 3. -/
theorem filePositionsInside_false : ¬ FilePositionsInside := by
  intro h
  obtain ⟨pos, hat, hpos, -⟩ := h (fun _ => none) twoByteMemory twoByteVolume (twoByteFile 0)
    (twoByteFile 3) ⟨[65], by decide⟩ [] fileModeRead 0x1004000 twoByteItem
    [.seek 1 seekCur, .seek 1 seekCur, .seek 1 seekCur] fat16Open_twoByteFile
    ⟨0, fileAt_setDescriptor _ _ _ _⟩
    (.cons (moveStep_seekCur 0) (.cons (moveStep_seekCur 1)
      (.cons (moveStep_seekCur 2) (.nil _))))
  cases (fileAt_setDescriptor 0x1004000 twoByteItem twoByteVolume 3).symm.trans hat
  exact absurd hpos (by decide)

end PeachOS
