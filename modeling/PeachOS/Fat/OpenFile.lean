import PeachOS.Fat.Position
import PeachOS.Fat.Subdirectory
import PeachOS.Lib.Simulation

/-!
# What an open file is to a program

A program that reads, seeks, stats and closes files sees their contents and a
position in each.  The functions that `fat16.c` hands to `file.c` find the
contents on the disk, cluster by cluster.  A file that lies in its first cluster
is served as its contents, however the requests to several open files follow
each other, as long as no read goes behind the end of its file.
-/

namespace PeachOS

open Lib

/-- The contents of an open file, its flags, and the position in it. -/
structure OpenedFile where
  bytes : List Byte
  flags : Word
  pos : Word

inductive FileRequest where
  | read (size nmemb : Word)
  | seek (offset seekMode : Word)
  | stat
  | close

/-- The status, the bytes that are stored, and the record of a `stat`. -/
structure FileAnswer where
  res : Int
  out : List Byte := []
  stat : Option FileStat := none

/-- The answer to a request, and the file if it is still open. -/
def OpenedFile.answer (f : OpenedFile) : FileRequest → FileAnswer × Option OpenedFile
  | .read size nmemb =>
      (⟨nmemb.toNat, (f.bytes.drop f.pos.toNat).take (nmemb.toNat * size.toNat), none⟩,
        some { f with pos := f.pos + nmemb * size })
  | .seek offset seekMode =>
      if f.bytes.length ≤ offset.toNat then
        (⟨-eio, [], none⟩, some f)
      else if seekMode = seekSet then
        (⟨0, [], none⟩, some { f with pos := offset })
      else if seekMode = seekEnd then
        (⟨-eunimp, [], none⟩, some f)
      else if seekMode = seekCur then
        (⟨0, [], none⟩, some { f with pos := f.pos + offset })
      else
        (⟨-einvarg, [], none⟩, some f)
  | .stat => (⟨0, [], some ⟨f.flags, BitVec.ofNat 32 f.bytes.length⟩⟩, some f)
  | .close => (⟨0, [], none⟩, none)

/-- A read is one of bytes of the file. -/
def OpenedFile.Inside (f : OpenedFile) : FileRequest → Prop
  | .read size nmemb => size ≠ 0 ∧ f.pos.toNat + nmemb.toNat * size.toNat ≤ f.bytes.length
  | _ => True

/-- The open files. -/
abbrev OpenedFiles := Ptr → Option OpenedFile

def OpenedFiles.set (files : OpenedFiles) (priv : Ptr) (f : Option OpenedFile) : OpenedFiles :=
  fun p => if p = priv then f else files p

/-- A request to one of the open files. -/
def OpenedFiles.answer (files : OpenedFiles) (r : Ptr × FileRequest) :
    FileAnswer × OpenedFiles :=
  match files r.1 with
  | none => (⟨0, [], none⟩, files)
  | some f => ((f.answer r.2).1, files.set r.1 (f.answer r.2).2)

def OpenedFiles.Inside (files : OpenedFiles) (r : Ptr × FileRequest) : Prop :=
  ∃ f, files r.1 = some f ∧ f.Inside r.2

/-- The call that a request makes. -/
def FileRequest.run (fs : Fat16State) (priv : Ptr) :
    FileRequest → Except Halt (FileAnswer × Fat16State)
  | .read size nmemb => do
      let ((res, out), fs) ← fat16Fs.read fs priv size nmemb
      pure (⟨res, out, none⟩, fs)
  | .seek offset seekMode => do
      let (res, fs) ← fat16Fs.seek fs priv offset seekMode
      pure (⟨res, [], none⟩, fs)
  | .stat => do
      let ((res, out), fs) ← fat16Fs.stat fs priv
      pure (⟨res, [], out⟩, fs)
  | .close => do
      let (res, fs) ← fat16Fs.close fs priv
      pure (⟨res, [], none⟩, fs)

/-- The bytes of an entry's file are in its first cluster. -/
structure InFirstCluster (volume : Fat16Volume) (item : FatDirectoryItem) (bytes : List Byte) :
    Prop where
  data : ∃ cluster, IsDataCluster cluster ∧ fat16GetFirstCluster item = cluster ∧
    clusterPos volume.fatPrivate cluster + bytes.length < 2147483648 ∧
    volume.disk.bytes (clusterPos volume.fatPrivate cluster) bytes.length = bytes
  filesize : item.filesize.toNat = bytes.length
  fits : bytes.length ≤ clusterLength volume.fatPrivate

/-- The flags that `fat16_stat` finds. -/
def statFlags (item : FatDirectoryItem) : Word :=
  if item.attributes &&& fatFileReadOnly ≠ 0 then fileStatReadOnly else 0

/-- The open files of a program are open on the volume. -/
structure FilesOn (volume : Fat16Volume) (fs : Fat16State) (files : OpenedFiles) : Prop where
  disk : fs.disk = volume.disk
  fatPrivate : fs.fatPrivate = volume.fatPrivate
  opened : ∀ priv f, files priv = some f →
    ∃ item, FileAt priv item fs f.pos ∧ InFirstCluster volume item f.bytes ∧
      f.flags = statFlags item

section Read

variable {volume : Fat16Volume} {cluster : Nat} {bytes : List Byte}

/-- A read in the first cluster is made in one piece. -/
theorem fat16ReadInternal_inside
    (hcluster : IsDataCluster cluster) {offset size : Nat} (hone : 1 ≤ size)
    (hin : offset + size ≤ clusterLength volume.fatPrivate)
    (hpos : clusterPos volume.fatPrivate cluster + (offset + size) < 2147483648) :
    fat16ReadInternal volume.disk volume.fatPrivate cluster offset size =
      .ok (0, volume.disk.bytes (clusterPos volume.fatPrivate cluster + offset) size) := by
  obtain ⟨stream, hstream⟩ := Option.isSome_iff_exists.mp volume.clusterStream
  have hspc : volume.fatPrivate.header.sectorsPerCluster ≠ 0 := by
    intro h
    simp [clusterLength, h] at hin
    omega
  have hbyte : bytePos volume.fatPrivate (fun _ => cluster) offset =
      clusterPos volume.fatPrivate cluster + offset := by
    rw [bytePos, Nat.mod_eq_of_lt (by omega)]
  have hpiece := fat16ReadInternalFromStream_piece volume hspc (fun _ _ => hcluster)
    (fat16GetClusterForOffset_looksUp hspc cluster) stream.requested stream.pos hone
    (show offset + size ≤ 1 * clusterLength volume.fatPrivate by omega)
  rw [hbyte, Nat.min_eq_right (by omega), if_pos (by omega), if_neg (by omega)] at hpiece
  simp only [fat16ReadInternal, hstream]
  exact hpiece

/-- The elements of a read follow each other in the cluster. -/
theorem fat16ReadLoop_inside
    (hcluster : IsDataCluster cluster) {fs : Fat16State} (hdisk : fs.disk = volume.disk)
    (hpriv : fs.fatPrivate = volume.fatPrivate) {size : Word} (hsize : size ≠ 0)
    {n offset : Nat} (hin : offset + n * size.toNat ≤ clusterLength volume.fatPrivate)
    (hpos : clusterPos volume.fatPrivate cluster + (offset + n * size.toNat) < 2147483648) :
    fat16ReadLoop fs cluster size n offset =
      .ok (0, (offset + n * size.toNat : Nat),
        volume.disk.bytes (clusterPos volume.fatPrivate cluster + offset) (n * size.toNat)) := by
  have hone : 1 ≤ size.toNat := by
    by_contra h
    exact hsize (BitVec.eq_of_toNat_eq (by simpa using h))
  induction n generalizing offset with
  | zero => simp [fat16ReadLoop, Disk.bytes]
  | succ n ih =>
      rw [Nat.succ_mul, Nat.add_comm (n * size.toNat)] at hin hpos ⊢
      have htoInt : size.toInt = size.toNat :=
        BitVec.toInt_eq_toNat_of_lt (by omega)
      have hnext : toInt ((offset : Int) + size.toNat) = (offset + size.toNat : Nat) := by
        rw [← Int.natCast_add]
        exact toInt_of_isInt (isInt_of_bounds (by omega) (by omega))
      rw [fat16ReadLoop, hdisk, hpriv, htoInt,
        fat16ReadInternal_inside hcluster hone (by omega) (by omega), ok_bind]
      simp only [lt_irrefl, if_false]
      rw [hnext, ih (by omega) (by omega), ok_bind]
      rw [← volume.disk.bytes_append, Nat.add_assoc, Nat.add_assoc]
      rfl

end Read

theorem OpenedFiles.set_self
    {files : OpenedFiles} {priv : Ptr} {f : OpenedFile} (h : files priv = some f) :
    files.set priv (some f) = files := by
  funext p
  rw [OpenedFiles.set]
  split_ifs with heq
  · rw [heq, h]
  · rfl

namespace FilesOn

variable {volume : Fat16Volume} {fs : Fat16State} {files : OpenedFiles} {priv : Ptr}
  {f : OpenedFile}

/-- A file whose position is moved. -/
theorem setPos
    (h : FilesOn volume fs files) {item : FatDirectoryItem}
    (hbytes : InFirstCluster volume item f.bytes) (hflags : f.flags = statFlags item) (pos : Word) :
    FilesOn volume (fs.setDescriptor priv (some ⟨.file (some item), pos⟩))
      (files.set priv (some { f with pos := pos })) := by
  refine ⟨h.disk, h.fatPrivate, fun p g hg => ?_⟩
  rw [OpenedFiles.set] at hg
  split_ifs at hg with heq
  · cases hg
    exact ⟨item, if_pos heq, hbytes, hflags⟩
  · obtain ⟨item', hat, hrest⟩ := h.opened p g hg
    exact ⟨item', (if_neg heq).trans hat, hrest⟩

theorem close
    (h : FilesOn volume fs files) (priv : Ptr) :
    FilesOn volume (fs.setDescriptor priv none) (files.set priv none) := by
  refine ⟨h.disk, h.fatPrivate, fun p g hg => ?_⟩
  rw [OpenedFiles.set] at hg
  split_ifs at hg with heq
  obtain ⟨item', hat, hrest⟩ := h.opened p g hg
  exact ⟨item', (if_neg heq).trans hat, hrest⟩

theorem read
    (h : FilesOn volume fs files) (hf : files priv = some f) {size nmemb : Word}
    (hin : f.Inside (.read size nmemb)) :
    ∃ fs', FileRequest.run fs priv (.read size nmemb) =
        .ok ((f.answer (.read size nmemb)).1, fs') ∧
      FilesOn volume fs' (files.set priv (f.answer (.read size nmemb)).2) := by
  obtain ⟨item, hat, hbytes, hflags⟩ := h.opened priv f hf
  have hrecord : fs.descriptors priv = some ⟨.file (some item), f.pos⟩ := hat
  obtain ⟨cluster, hcluster, hfirst, hpos, hdisk⟩ := hbytes.data
  obtain ⟨hsize, hin⟩ := hin
  have hfits := hbytes.fits
  have hlen := clusterLength_lt volume.fatPrivate
  have hone : 1 ≤ size.toNat := by
    by_contra h0
    exact hsize (BitVec.eq_of_toNat_eq (by simpa using h0))
  have hnmemb : nmemb.toNat ≤ nmemb.toNat * size.toNat := Nat.le_mul_of_pos_right _ hone
  have hloop := fat16ReadLoop_inside hcluster h.disk h.fatPrivate hsize
    (show f.pos.toNat + nmemb.toNat * size.toNat ≤ clusterLength volume.fatPrivate by omega)
    (by omega)
  have hposInt : f.pos.toInt = f.pos.toNat := BitVec.toInt_eq_toNat_of_lt (by omega)
  have hnmembInt : nmemb.toInt = nmemb.toNat := BitVec.toInt_eq_toNat_of_lt (by omega)
  have hmoved : BitVec.ofInt 32 (f.pos.toNat + nmemb.toNat * size.toNat : Nat) =
      f.pos + nmemb * size := by
    rw [BitVec.ofInt_natCast, BitVec.ofNat_add, BitVec.ofNat_mul]
    simp
  have hout : volume.disk.bytes (clusterPos volume.fatPrivate cluster + f.pos.toNat)
      (nmemb.toNat * size.toNat) = (f.bytes.drop f.pos.toNat).take (nmemb.toNat * size.toNat) := by
    rw [← volume.disk.take_drop_bytes _ hin, hdisk]
  refine ⟨_, ?_, h.setPos hbytes hflags (f.pos + nmemb * size)⟩
  simp only [FileRequest.run, fat16Fs, fat16Read, hrecord, hfirst, hposInt, hloop, ok_bind,
    lt_irrefl, if_false, hmoved, hnmembInt, hout]
  rfl

theorem seek
    (h : FilesOn volume fs files) (hf : files priv = some f) (offset seekMode : Word) :
    ∃ fs', FileRequest.run fs priv (.seek offset seekMode) =
        .ok ((f.answer (.seek offset seekMode)).1, fs') ∧
      FilesOn volume fs' (files.set priv (f.answer (.seek offset seekMode)).2) := by
  obtain ⟨item, hat, hbytes, hflags⟩ := h.opened priv f hf
  have hrecord : fs.descriptors priv = some ⟨.file (some item), f.pos⟩ := hat
  have hstay : FilesOn volume fs (files.set priv (some f)) := by
    rw [OpenedFiles.set_self hf]
    exact h
  have hbound : offset ≥ item.filesize ↔ f.bytes.length ≤ offset.toNat := by
    rw [← hbytes.filesize]
    exact Iff.rfl
  simp only [FileRequest.run, fat16Fs, fat16Seek, hrecord, OpenedFile.answer, hbound]
  split_ifs
  · exact ⟨fs, rfl, hstay⟩
  · exact ⟨_, rfl, h.setPos hbytes hflags offset⟩
  · exact ⟨fs, rfl, hstay⟩
  · exact ⟨_, rfl, h.setPos hbytes hflags (f.pos + offset)⟩
  · exact ⟨fs, rfl, hstay⟩

/-- A request to an open file is answered as by its contents. -/
theorem simulates (volume : Fat16Volume) :
    Simulates (FilesOn volume) OpenedFiles.Inside
      (fun fs (r : Ptr × FileRequest) => r.2.run fs r.1) OpenedFiles.answer := by
  rintro fs files ⟨priv, request⟩ h ⟨f, hf, hin⟩
  have hanswer : files.answer (priv, request) =
      ((f.answer request).1, files.set priv (f.answer request).2) := by
    rw [OpenedFiles.answer, hf]
  rw [hanswer]
  cases request with
  | read size nmemb => exact h.read hf hin
  | seek offset seekMode => exact h.seek hf offset seekMode
  | stat =>
      obtain ⟨item, hat, hbytes, hflags⟩ := h.opened priv f hf
      have hrecord : fs.descriptors priv = some ⟨.file (some item), f.pos⟩ := hat
      refine ⟨fs, ?_, ?_⟩
      · simp only [FileRequest.run, fat16Fs, fat16Stat, hrecord, OpenedFile.answer, ok_bind,
          hflags, statFlags, ← hbytes.filesize]
        simp
      · rw [OpenedFile.answer, OpenedFiles.set_self hf]
        exact h
  | close =>
      obtain ⟨item, hat, -⟩ := h.opened priv f hf
      have hrecord : fs.descriptors priv = some ⟨.file (some item), f.pos⟩ := hat
      refine ⟨_, ?_, h.close priv⟩
      simp only [FileRequest.run, fat16Fs, fat16Close, hrecord, OpenedFile.answer, ok_bind]

end FilesOn

/-- Whatever order the requests to the open files come in, each is answered as
by the contents and the position of its file alone, and none halts. -/
theorem fat16_serves_contents
    (volume : Fat16Volume) (fs : Fat16State) (files : OpenedFiles)
    (requests : List (Ptr × FileRequest)) (hfiles : FilesOn volume fs files)
    (hinside : Admitted OpenedFiles.Inside OpenedFiles.answer files requests) :
    ∃ fs', serveM (fun fs (r : Ptr × FileRequest) => r.2.run fs r.1) fs requests =
        .ok ((serve OpenedFiles.answer files requests).1, fs') ∧
      FilesOn volume fs' (serve OpenedFiles.answer files requests).2 :=
  (FilesOn.simulates volume).serve hfiles hinside

/-- A volume with clusters of one sector, in which each byte is the low one of its
position. -/
def countedVolume : Fat16Volume :=
  { linkedVolume with disk := ⟨true, fun pos => BitVec.ofNat 8 pos⟩, primary := rfl }

/-- The entry of a file. -/
def countedItem (cluster : Half) (filesize : Word) : FatDirectoryItem :=
  ⟨[], [], 0, 0, cluster, filesize⟩

/-- Files in clusters 2 and 3 are open. -/
def countedState : Fat16State where
  disk := countedVolume.disk
  fatPrivate := countedVolume.fatPrivate
  descriptors p :=
    if p = 0x1004000 then some ⟨.file (some (countedItem 2 2)), 0⟩
    else if p = 0x1005000 then some ⟨.file (some (countedItem 3 3)), 0⟩
    else none

def countedFiles : OpenedFiles := fun p =>
  if p = 0x1004000 then some ⟨[0, 1], 0, 0⟩
  else if p = 0x1005000 then some ⟨[0, 1, 2], 0, 0⟩
  else none

theorem countedState_filesOn : FilesOn countedVolume countedState countedFiles where
  disk := rfl
  fatPrivate := rfl
  opened := by
    intro priv f hf
    unfold countedFiles at hf
    split_ifs at hf with h₁ h₂ <;> obtain rfl := Option.some.inj hf
    · refine ⟨countedItem 2 2, if_pos h₁, ⟨⟨2, by decide, by decide, by decide, by decide⟩,
        by decide, by decide⟩, by decide⟩
    · refine ⟨countedItem 3 3, (if_neg h₁).trans (if_pos h₂),
        ⟨⟨3, by decide, by decide, by decide, by decide⟩, by decide, by decide⟩, by decide⟩

/-- A read of the second file between two requests to the first. -/
theorem fat16_serves_contents_twoFiles :
    ∃ fs', serveM (fun fs (r : Ptr × FileRequest) => r.2.run fs r.1) countedState
        [(0x1004000, .seek 1 seekSet), (0x1005000, .read 1 3), (0x1004000, .read 1 1),
          (0x1004000, .close)] =
      .ok ([⟨0, [], none⟩, ⟨3, [0, 1, 2], none⟩, ⟨1, [1], none⟩, ⟨0, [], none⟩], fs') := by
  obtain ⟨fs', hserve, -⟩ := fat16_serves_contents countedVolume countedState countedFiles
    [(0x1004000, .seek 1 seekSet), (0x1005000, .read 1 3), (0x1004000, .read 1 1),
      (0x1004000, .close)]
    countedState_filesOn
    ⟨⟨_, rfl, trivial⟩, ⟨_, rfl, by decide, by decide⟩, ⟨_, rfl, by decide, by decide⟩,
      ⟨_, rfl, trivial⟩, trivial⟩
  exact ⟨fs', hserve⟩

end PeachOS
