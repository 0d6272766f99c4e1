import PeachOS.Fat.Read
import PeachOS.File.Descriptor

/-!
# Open files of a FAT16 volume

What the functions that `fat16.c` hands to `file.c` do to an open file.  The
private data of a file is a record that holds its item and its position.
-/

namespace PeachOS

open Lib

def fatFileReadOnly : Byte := 0x01

structure FatFileDescriptor where
  item : FatItem
  pos : Word

/-- The one disk of the kernel with its filesystem's data, and the records of
the open files. -/
structure Fat16State where
  disk : Disk
  fatPrivate : FatPrivate
  descriptors : Ptr → Option FatFileDescriptor

def Fat16State.setDescriptor (fs : Fat16State) (priv : Ptr)
    (descriptor : Option FatFileDescriptor) : Fat16State :=
  { fs with descriptors := fun p => if p = priv then descriptor else fs.descriptors p }

def fat16GetFirstCluster (item : FatDirectoryItem) : Int :=
  toInt (item.high16BitsFirstCluster.toNat * 65536 + item.lower16BitsFirstCluster.toNat)

/-- `n` more elements from an offset on: the status, the offset afterwards and
the bytes stored. -/
def fat16ReadLoop (fs : Fat16State) (cluster : Int) (size : Word) :
    Nat → Int → Except Halt (Int × Int × List Byte)
  | 0, offset => .ok (0, offset, [])
  | n + 1, offset => do
      let (res, out) ← fat16ReadInternal fs.disk fs.fatPrivate cluster offset size.toInt
      if res < 0 then
        pure (res, offset, out)
      else
        let (res, offset, rest) ← fat16ReadLoop fs cluster size n (toInt (offset + size.toNat))
        pure (res, offset, out ++ rest)

/-- The item is taken for a file's without a look at its type: with a directory
the fields of an entry would be read from another record. -/
def fat16Read (fs : Fat16State) (priv : Ptr) (size nmemb : Word) :
    Except Halt ((Int × List Byte) × Fat16State) :=
  match fs.descriptors priv with
  | some ⟨.file (some item), pos⟩ => do
      let (res, offset, out) ←
        fat16ReadLoop fs (fat16GetFirstCluster item) size nmemb.toNat pos.toInt
      if res < 0 then
        pure ((res, out), fs)
      else
        pure ((nmemb.toInt, out),
          fs.setDescriptor priv (some ⟨.file (some item), BitVec.ofInt 32 offset⟩))
  | _ => .error .fault

def fat16Seek (fs : Fat16State) (priv : Ptr) (offset seekMode : Word) :
    Except Halt (Int × Fat16State) :=
  match fs.descriptors priv with
  | none => .error .fault
  | some ⟨.directory _, _⟩ => .ok (-einvarg, fs)
  | some ⟨.file none, _⟩ => .error .fault
  | some ⟨.file (some item), pos⟩ =>
      if offset ≥ item.filesize then
        .ok (-eio, fs)
      else if seekMode = seekSet then
        .ok (0, fs.setDescriptor priv (some ⟨.file (some item), offset⟩))
      else if seekMode = seekEnd then
        .ok (-eunimp, fs)
      else if seekMode = seekCur then
        .ok (0, fs.setDescriptor priv (some ⟨.file (some item), pos + offset⟩))
      else
        .ok (-einvarg, fs)

def fat16Stat (fs : Fat16State) (priv : Ptr) :
    Except Halt ((Int × Option FileStat) × Fat16State) :=
  match fs.descriptors priv with
  | none => .error .fault
  | some ⟨.directory _, _⟩ => .ok ((-einvarg, none), fs)
  | some ⟨.file none, _⟩ => .error .fault
  | some ⟨.file (some item), _⟩ =>
      let flags := if item.attributes &&& fatFileReadOnly ≠ 0 then fileStatReadOnly else 0
      .ok ((0, some ⟨flags, item.filesize⟩), fs)

/-- Frees the item and then the record.  A null pointer to an entry is handed
to `kfree`, which stores before the block table. -/
def fat16Close (fs : Fat16State) (priv : Ptr) : Except Halt (Int × Fat16State) :=
  match fs.descriptors priv with
  | none => .error .fault
  | some ⟨.file none, _⟩ => .error .fault
  | some _ => .ok (0, fs.setDescriptor priv none)

def fat16Fs : Filesystem Fat16State where
  read := fat16Read
  seek := fat16Seek
  stat := fat16Stat
  close := fat16Close

/-- The record is there, and what its item points to as well. -/
def OpenFile (fs : Fat16State) (priv : Ptr) : Prop :=
  ∃ descriptor, fs.descriptors priv = some descriptor ∧ descriptor.item ≠ .file none

/-- Moving the position of a file keeps every file open. -/
theorem openFile_setDescriptor
    {fs : Fat16State} {priv q : Ptr} {item : FatDirectoryItem} (pos : Word)
    (h : OpenFile fs q) :
    OpenFile (fs.setDescriptor priv (some ⟨.file (some item), pos⟩)) q := by
  obtain ⟨descriptor, hq, hitem⟩ := h
  rcases Decidable.em (q = priv) with rfl | hne
  · exact ⟨_, if_pos rfl, by simp⟩
  · exact ⟨descriptor, (if_neg hne).trans hq, hitem⟩

theorem openFile_fat16Read
    {fs fs' : Fat16State} {priv q : Ptr} {size nmemb : Word} {res : Int × List Byte}
    (hread : fat16Read fs priv size nmemb = .ok (res, fs')) (h : OpenFile fs q) :
    OpenFile fs' q := by
  unfold fat16Read at hread
  split at hread
  case h_1 =>
    rw [bind_eq_ok_iff] at hread
    obtain ⟨⟨res, offset, out⟩, -, hread⟩ := hread
    simp only at hread
    split_ifs at hread
    · obtain ⟨-, rfl⟩ := Prod.mk.inj (Except.ok.inj hread)
      exact h
    · obtain ⟨-, rfl⟩ := Prod.mk.inj (Except.ok.inj hread)
      exact openFile_setDescriptor _ h
  case h_2 => cases hread

theorem openFile_fat16Seek
    {fs fs' : Fat16State} {priv q : Ptr} {offset seekMode : Word} {res : Int}
    (hseek : fat16Seek fs priv offset seekMode = .ok (res, fs')) (h : OpenFile fs q) :
    OpenFile fs' q := by
  unfold fat16Seek at hseek
  split at hseek
  case h_1 => cases hseek
  case h_2 =>
    obtain ⟨-, rfl⟩ := Prod.mk.inj (Except.ok.inj hseek)
    exact h
  case h_3 => cases hseek
  case h_4 =>
    split_ifs at hseek <;> obtain ⟨-, rfl⟩ := Prod.mk.inj (Except.ok.inj hseek)
    · exact h
    · exact openFile_setDescriptor _ h
    · exact h
    · exact openFile_setDescriptor _ h
    · exact h

theorem fat16Stat_state
    {fs fs' : Fat16State} {priv : Ptr} {res : Int × Option FileStat}
    (hstat : fat16Stat fs priv = .ok (res, fs')) :
    fs' = fs := by
  unfold fat16Stat at hstat
  split at hstat
  case h_1 => cases hstat
  case h_2 => exact (Prod.mk.inj (Except.ok.inj hstat)).2.symm
  case h_3 => cases hstat
  case h_4 => exact (Prod.mk.inj (Except.ok.inj hstat)).2.symm

/-- Closing an open file succeeds. -/
theorem fat16Close_of_openFile
    {fs : Fat16State} {priv : Ptr}
    (h : OpenFile fs priv) :
    fat16Close fs priv = .ok (0, fs.setDescriptor priv none) := by
  obtain ⟨⟨item, pos⟩, hpriv, hitem⟩ := h
  unfold fat16Close
  rw [hpriv]
  cases item with
  | directory directory => rfl
  | file item =>
      cases item with
      | none => exact absurd rfl hitem
      | some item => rfl

end PeachOS
