import PeachOS.Fat.Image

/-!
# A program on a volume

A volume that holds an image is mounted, and a program opens its files under
their names and makes requests to those that are open.  Every answer is the one
that the list of files alone gives.
-/

namespace PeachOS

open Lib

inductive VolumeRequest where
  /-- `priv` is what `kzalloc` returns for the record of the file. -/
  | openFile (priv : Ptr) (part : CString) (parts : List CString) (mode : Word)
  | file (priv : Ptr) (request : FileRequest)

inductive VolumeAnswer where
  | opened (res : Except Int Ptr)
  | file (answer : FileAnswer)

/-- The call that a request makes; `kzalloc` returns every record of an item. -/
def VolumeRequest.run (loadFatDirectory : FatDirectoryItem → Option FatDirectory)
    (fs : Fat16State) : VolumeRequest → Except Halt (VolumeAnswer × Fat16State)
  | .openFile priv part parts mode => do
      let (res, fs) ← fat16Open loadFatDirectory ⟨some priv, fun _ _ => ⟨true, true⟩⟩ fs part
        parts mode
      pure (.opened res, fs)
  | .file priv request => do
      let (answer, fs) ← request.run fs priv
      pure (.file answer, fs)

/-- A file right after it is opened. -/
def VolumeFile.opened (f : VolumeFile) : OpenedFile :=
  ⟨f.bytes, if f.attributes &&& fatFileReadOnly ≠ 0 then fileStatReadOnly else 0, 0⟩

namespace VolumeImage

variable (image : VolumeImage)

/-- The files of a name, up to case. -/
def named (name : CString) : List VolumeFile :=
  image.files.filter fun f => SameUpToCase f.name.text name.bytes

/-- There are no directories, so that only a path of one component leads to a file. -/
def answer (files : OpenedFiles) : VolumeRequest → VolumeAnswer × OpenedFiles
  | .openFile priv part parts mode =>
      if mode ≠ fileModeRead then
        (.opened (.error (-erdonly)), files)
      else
        match parts, (image.named part).getLast? with
        | [], some f => (.opened (.ok priv), files.set priv (some f.opened))
        | _, _ => (.opened (.error (-eio)), files)
  | .file priv request =>
      (.file (files.answer (priv, request)).1, (files.answer (priv, request)).2)

/-- A request to a file is one to an open file, and a read is one of its bytes. -/
def Inside (files : OpenedFiles) : VolumeRequest → Prop
  | .openFile _ _ _ _ => True
  | .file priv request => files.Inside (priv, request)

end VolumeImage

theorem VolumeFile.inUse_item
    (f : VolumeFile) :
    f.item.InUse := by
  have hfirst : f.item.firstByte = f.name.base.headD 0 := by
    have hname : f.item.filename = ShortName.padded 8 f.name.base := f.name.filename_stored f.fields
    rw [FatDirectoryItem.firstByte, hname, ShortName.padded]
    cases hbase : f.name.base with
    | nil => exact absurd f.name.base_pos (by simp [hbase])
    | cons c rest => rfl
  rw [FatDirectoryItem.InUse, hfirst]
  refine ⟨?_, f.notDeleted⟩
  cases hbase : f.name.base with
  | nil => exact absurd f.name.base_pos (by simp [hbase])
  | cons c rest => exact (f.name.base_plain c (by rw [hbase]; exact List.mem_cons_self)).1

namespace HoldsImage

variable {disk : Disk} {image : VolumeImage} (h : HoldsImage disk image)

include h

theorem rootEntry_eq
    {i : Nat} (hi : i < image.files.length) :
    rootEntry disk image.header i = image.files[i].item := by
  rw [rootEntry, h.entry i hi]
  rfl

theorem endMarkerAt : EndMarkerAt disk image.header image.files.length where
  inside := image.room
  marker := h.marker
  before := by
    intro i hi
    rw [h.rootEntry_eq hi]
    exact (image.files[i].inUse_item).1

theorem inUseCount_eq :
    inUseCount disk image.header image.files.length = image.files.length := by
  refine (Nat.count_iff_forall).mpr fun i hi => ?_
  rw [h.rootEntry_eq hi]
  exact image.files[i].inUse_item

end HoldsImage

/-- The root directory of a disk that holds an image. -/
def imageRoot (disk : Disk) (image : VolumeImage) : FatDirectory :=
  loadedRoot disk image.header image.files.length

theorem mountedPrivate_rootEnd (disk : Disk) :
    0 ≤ (mountedPrivate disk).rootDirectory.endingSectorPos :=
  Int.le_refl 0

/-- A disk that holds an image, before its root directory is loaded. -/
def blankVolume {disk : Disk} {image : VolumeImage} (h : HoldsImage disk image) :
    Fat16Volume where
  disk := disk
  fatPrivate := mountedPrivate disk
  primary := h.primary
  clusterStream := rfl
  fatStream := rfl
  directoryStream := rfl
  rootEnd := mountedPrivate_rootEnd disk

/-- A mounted disk that holds an image. -/
def imageVolume {disk : Disk} {image : VolumeImage} (h : HoldsImage disk image) :
    Fat16Volume where
  disk := disk
  fatPrivate := { mountedPrivate disk with rootDirectory := imageRoot disk image }
  primary := h.primary
  clusterStream := rfl
  fatStream := rfl
  directoryStream := rfl
  rootEnd := Int.add_nonneg (Int.natCast_nonneg _) (Int.natCast_nonneg _)

namespace HoldsImage

variable {disk : Disk} {image : VolumeImage} (h : HoldsImage disk image)

include h

theorem header_imageVolume : (imageVolume h).fatPrivate.header = image.header := h.header

theorem root_loaded :
    fat16GetRootDirectory disk (mountedPrivate disk) true = .ok (0, imageRoot disk image) := by
  have hheader : (blankVolume h).fatPrivate.header = image.header := h.header
  have hm : EndMarkerAt (blankVolume h).disk (blankVolume h).fatPrivate.header
      image.files.length := by
    rw [hheader]
    exact h.endMarkerAt
  have hregions := image.regions.2.2
  have hend := image.rootEnd
  have hroot := fat16GetRootDirectory_eq hm (by rw [hheader]; omega)
  rw [hheader] at hroot
  exact hroot

/-- The mount succeeds. -/
theorem fat16Resolve_image :
    fat16Resolve disk ⟨true, true, true, true, true, true⟩ =
      .ok (0, (imageVolume h).fatPrivate) :=
  fat16Resolve_eq h.primary h.signature h.root_loaded

theorem clusterPos_eq_dataPos (cluster : Nat) :
    clusterPos (imageVolume h).fatPrivate cluster = dataPos image.header cluster := by
  have hend : (imageVolume h).fatPrivate.rootDirectory.endingSectorPos =
      (dataSector image.header : Nat) :=
    (Int.natCast_add _ _).symm
  rw [clusterPos, h.header_imageVolume, hend, Int.toNat_natCast, dataPos]

theorem itemAt_eq
    {i : Nat} (hi : i < image.files.length) :
    (imageRoot disk image).itemAt i = some image.files[i].item := by
  have hheader : (blankVolume h).fatPrivate.header = image.header := h.header
  have hlt : i < (blankVolume h).fatPrivate.header.rootDirEntries.toNat := by
    rw [hheader]
    exact Nat.lt_trans hi image.room
  rw [@itemAt_of_lt (blankVolume h) true _ h.root_loaded i hlt, hheader]
  exact congrArg some (h.rootEntry_eq hi)

variable (loadFatDirectory : FatDirectoryItem → Option FatDirectory)

/-- A lookup makes the items of the files of the name. -/
theorem itemsFrom_eq
    (name : CString) {n i : Nat} (hn : i + n = image.files.length) :
    itemsFrom loadFatDirectory (fun _ => ⟨true, true⟩) (imageRoot disk image) name n i =
      ((image.files.drop i).filter fun f => SameUpToCase f.name.text name.bytes).map
        fun f => some (FatItem.file (some f.item)) := by
  induction n generalizing i with
  | zero =>
      rw [List.drop_eq_nil_of_le (by omega)]
      rfl
  | succ n ih =>
      have hi : i < image.files.length := by omega
      have hnew : fat16NewFatItemForDirectoryItem loadFatDirectory ⟨true, true⟩
          image.files[i].item = some (.file (some image.files[i].item)) := by
        rw [fat16NewFatItemForDirectoryItem, VolumeFile.attributes_item, if_neg (by simp),
          if_neg (not_not_intro image.files[i].plain)]
        rfl
      rw [itemsFrom_succ _ _ (h.itemAt_eq hi), List.drop_eq_getElem_cons hi, List.filter_cons,
        VolumeFile.fullName_item, hnew, ih (by omega)]
      by_cases hname : SameUpToCase image.files[i].name.text name.bytes
      · rw [if_pos hname, if_pos (decide_eq_true hname), List.map_cons]
      · rw [if_neg hname, if_neg (by simpa using hname)]

/-- A lookup leads to the item of the last file of the name. -/
theorem findItem_found
    (name : CString) :
    ∃ found store,
      findItem loadFatDirectory (fun _ => ⟨true, true⟩) (imageRoot disk image) name.bytes [] =
        .ok (found, store) ∧
      match (image.named name).getLast? with
      | none => found = none
      | some f => ∃ p, found = some p ∧ store.live p = some (.file (some f.item)) := by
  have htotal : (imageRoot disk image).total.toNat = image.files.length := by
    rw [imageRoot, loadedRoot, h.inUseCount_eq]
    rfl
  have hinside : (0 + image.files.length) * directoryItemSize ≤
      (imageRoot disk image).item.length := by
    have hle := image.rootEntry_lt (Nat.le_refl _)
    rw [Nat.succ_mul] at hle
    rw [imageRoot, loadedRoot, Disk.length_bytes, Nat.zero_add]
    omega
  have hspec := lastPointer_spec [] ((image.named name).map fun f => some (.file (some f.item)))
  rw [List.getLastD_eq_getLast?, List.getLast?_map] at hspec
  rw [findItem, htotal, findItemLoop_eq loadFatDirectory _ hinside,
    h.itemsFrom_eq loadFatDirectory name (by omega), List.drop_zero]
  refine ⟨_, _, rfl, ?_⟩
  cases hlast : (image.named name).getLast? with
  | none =>
      rw [hlast] at hspec
      exact hspec
  | some f =>
      rw [hlast] at hspec
      obtain ⟨p, hp, -, hlive⟩ := hspec
      exact ⟨p, hp, hlive⟩

/-- The item of a path is that of the last file of its only component. -/
theorem fat16GetDirectoryEntry_found
    (part : CString) (parts : List CString) :
    ∃ found store, fat16GetDirectoryEntry loadFatDirectory (fun _ _ => ⟨true, true⟩)
        (imageRoot disk image) part parts = .ok (found, store) ∧
      found.bind store.live =
        if parts = [] then
          (image.named part).getLast?.map fun f => FatItem.file (some f.item)
        else
          none := by
  obtain ⟨found, store, hfind, hfound⟩ := h.findItem_found loadFatDirectory part
  rw [fat16GetDirectoryEntry, hfind, ok_bind]
  cases hlast : (image.named part).getLast? with
  | none =>
      rw [hlast] at hfound
      obtain rfl := hfound
      exact ⟨none, store, rfl, by simp⟩
  | some f =>
      rw [hlast] at hfound
      obtain ⟨p, rfl, hlive⟩ := hfound
      cases parts with
      | nil => exact ⟨some p, store, rfl, hlive⟩
      | cons next rest =>
          refine ⟨none, store, ?_, by simp⟩
          simp only [fat16GetDirectoryEntryLoop, hlive]

theorem inFirstCluster
    {f : VolumeFile} (hf : f ∈ image.files) :
    InFirstCluster (imageVolume h) f.item f.bytes where
  data := by
    refine ⟨f.cluster, f.data, f.firstCluster_item, ?_, ?_⟩
    · rw [h.clusterPos_eq_dataPos]
      exact image.inside f hf
    · rw [h.clusterPos_eq_dataPos]
      exact h.bytes f hf
  filesize := by
    have hinside := image.inside f hf
    rw [f.filesize_item, BitVec.toNat_ofNat, Nat.mod_eq_of_lt (by omega)]
  fits := by
    rw [clusterLength, h.header_imageVolume]
    exact image.fits f hf

/-- A file is opened under its name, and under no other. -/
theorem openFile
    {fs : Fat16State} {files : OpenedFiles} (hfs : FilesOn (imageVolume h) fs files) (priv : Ptr)
    (part : CString) (parts : List CString) (mode : Word) :
    ∃ fs', VolumeRequest.run loadFatDirectory fs (.openFile priv part parts mode) =
        .ok ((image.answer files (.openFile priv part parts mode)).1, fs') ∧
      FilesOn (imageVolume h) fs' (image.answer files (.openFile priv part parts mode)).2 := by
  have hroot : fs.fatPrivate.rootDirectory = imageRoot disk image := by
    rw [hfs.fatPrivate]
    rfl
  obtain ⟨found, store, hentry, hitem⟩ :=
    h.fat16GetDirectoryEntry_found loadFatDirectory part parts
  simp only [VolumeRequest.run, VolumeImage.answer, fat16Open, hroot]
  by_cases hmode : mode = fileModeRead
  · rw [if_neg (not_not_intro hmode), if_neg (not_not_intro hmode)]
    simp only [hentry, ok_bind, hitem]
    cases parts with
    | cons next rest => exact ⟨fs, rfl, hfs⟩
    | nil =>
        cases hlast : (image.named part).getLast? with
        | none => exact ⟨fs, rfl, hfs⟩
        | some f =>
            have hf : f ∈ image.files := List.mem_of_mem_filter (List.mem_of_getLast? hlast)
            have hflags : f.opened.flags = statFlags f.item := by
              rw [statFlags, f.attributes_item]
              rfl
            exact ⟨_, rfl, hfs.setPos (f := f.opened) (h.inFirstCluster hf) hflags 0⟩
  · rw [if_pos hmode, if_pos hmode]
    exact ⟨fs, rfl, hfs⟩

/-- A request is answered as by the list of files. -/
theorem simulates :
    Simulates (FilesOn (imageVolume h)) VolumeImage.Inside
      (VolumeRequest.run loadFatDirectory) image.answer := by
  intro fs files request hfs hin
  cases request with
  | openFile priv part parts mode => exact h.openFile loadFatDirectory hfs priv part parts mode
  | file priv request =>
      obtain ⟨fs', hrun, hfs'⟩ := FilesOn.simulates _ fs files (priv, request) hfs hin
      refine ⟨fs', ?_, hfs'⟩
      rw [VolumeRequest.run, VolumeImage.answer]
      rw [show request.run fs priv = _ from hrun]
      rfl

end HoldsImage

/-- A disk that an image is written to is mounted, and on every disk that holds
the image a program that opens files and makes requests to the open ones, in any
order, gets the answers that the list of files gives. -/
theorem fat16_serves_image
    (image : VolumeImage) (loadFatDirectory : FatDirectoryItem → Option FatDirectory) :
    HoldsImage image.disk image ∧
      ∀ disk, HoldsImage disk image →
        ∃ fatPrivate, fat16Resolve disk ⟨true, true, true, true, true, true⟩ =
            .ok (0, fatPrivate) ∧
          ∀ requests, Admitted VolumeImage.Inside image.answer (fun _ => none) requests →
            ∃ fs', serveM (VolumeRequest.run loadFatDirectory) ⟨disk, fatPrivate, fun _ => none⟩
                requests =
              .ok ((serve image.answer (fun _ => none) requests).1, fs') := by
  refine ⟨image.holds, fun disk h => ⟨_, h.fat16Resolve_image, fun requests hinside => ?_⟩⟩
  have hstart : FilesOn (imageVolume h)
      ⟨disk, (imageVolume h).fatPrivate, fun _ => none⟩ (fun _ => none) :=
    ⟨rfl, rfl, fun priv f hf => by cases hf⟩
  obtain ⟨fs', hserve, -⟩ := (h.simulates loadFatDirectory).serve hstart hinside
  exact ⟨fs', hserve⟩

/-- `a` and `b.txt`. -/
def pairImage : VolumeImage where
  header := ⟨1, 1, 1, 16, 1⟩
  files :=
    [{ name := ⟨[0x61], [], by decide, by decide, by decide, by decide, by decide⟩
       attributes := 0
       cluster := 2
       bytes := [0x68, 0x69]
       notDeleted := by decide
       plain := by decide
       data := by decide },
     { name := ⟨[0x62], [0x74, 0x78, 0x74], by decide, by decide, by decide, by decide, by decide⟩
       attributes := fatFileReadOnly
       cluster := 4
       bytes := [0x6F, 0x6B, 0x21]
       notDeleted := by decide
       plain := by decide
       data := by decide }]
  clusterSize := by decide
  bootSector := by decide
  room := by decide
  rootEnd := by decide
  apart := by decide
  fits := by decide
  inside := by decide

/-- `B.TXT` is opened, read from its second byte on, and described; `c` is not
there. -/
theorem fat16_serves_image_pair :
    ∃ fatPrivate fs', fat16Resolve pairImage.disk ⟨true, true, true, true, true, true⟩ =
        .ok (0, fatPrivate) ∧
      serveM (VolumeRequest.run fun _ => none) ⟨pairImage.disk, fatPrivate, fun _ => none⟩
          [.openFile 0x1004000 ⟨[0x42, 0x2E, 0x54, 0x58, 0x54], by decide⟩ [] fileModeRead,
            .file 0x1004000 (.seek 1 seekSet), .file 0x1004000 (.read 1 2),
            .openFile 0x1005000 ⟨[0x63], by decide⟩ [] fileModeRead,
            .file 0x1004000 .stat] =
        .ok ([.opened (.ok 0x1004000), .file ⟨0, [], none⟩, .file ⟨2, [0x6B, 0x21], none⟩,
          .opened (.error (-eio)), .file ⟨0, [], some ⟨fileStatReadOnly, 3⟩⟩], fs') := by
  obtain ⟨hholds, hserves⟩ := fat16_serves_image pairImage fun _ => none
  obtain ⟨fatPrivate, hmount, hserve⟩ := hserves pairImage.disk hholds
  obtain ⟨fs', h⟩ := hserve
    [.openFile 0x1004000 ⟨[0x42, 0x2E, 0x54, 0x58, 0x54], by decide⟩ [] fileModeRead,
      .file 0x1004000 (.seek 1 seekSet), .file 0x1004000 (.read 1 2),
      .openFile 0x1005000 ⟨[0x63], by decide⟩ [] fileModeRead,
      .file 0x1004000 .stat]
    ⟨trivial, ⟨_, rfl, trivial⟩, ⟨_, rfl, by decide, by decide⟩, trivial, ⟨_, rfl, trivial⟩,
      trivial⟩
  exact ⟨fatPrivate, fs', hmount, h⟩

end PeachOS
