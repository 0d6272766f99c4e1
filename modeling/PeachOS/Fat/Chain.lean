import PeachOS.Fat.Fat16

/-!
# Following the cluster chain of a file

`fat16_get_fat_entry` reads the table entry of a cluster, and
`fat16_get_cluster_for_offset` follows the entries from the first cluster of a
file to the one that holds an offset.
-/

namespace PeachOS

open Lib

def fat16GetFirstFatSector (fatPrivate : FatPrivate) : Nat :=
  fatPrivate.header.reservedSectors.toNat

/-- The 16-bit entry is read into a local variable, which nothing reads: what
is returned is the status of the read.  The position of the stream is not
kept, since every use of it starts with a seek. -/
def fat16GetFatEntry (disk : Disk) (fatPrivate : FatPrivate) (cluster : Int) :
    Except Halt Int :=
  match fatPrivate.fatReadStream with
  | none => .ok (-1)
  | some stream => do
      let fatTablePosition := fat16GetFirstFatSector fatPrivate * sectorSize
      let entryOffset ← checkInt .fault (cluster * fatEntrySize)
      let (res, _, _result) ← diskstreamerRead disk
        (diskstreamerSeek stream (toInt (fatTablePosition + entryOffset))) fatEntrySize
      pure res

/-- `n` more steps of the loop from the cluster reached so far. -/
def fat16GetClusterForOffsetLoop (disk : Disk) (fatPrivate : FatPrivate) :
    Nat → Int → Except Halt Int
  | 0, clusterToUse => .ok clusterToUse
  | n + 1, clusterToUse => do
      let entry ← fat16GetFatEntry disk fatPrivate clusterToUse
      if entry = 0xFFF8 ∨ entry = 0xFFFF then
        pure (-eio)
      else if entry = fatBadSector then
        pure (-eio)
      else if entry = 0xFF0 ∨ entry = 0xFF6 then
        pure (-eio)
      else if entry = 0x00 then
        pure (-eio)
      else
        fat16GetClusterForOffsetLoop disk fatPrivate n entry

def fat16GetClusterForOffset (disk : Disk) (fatPrivate : FatPrivate)
    (startingCluster offset : Int) : Except Halt Int :=
  if sizeOfClusterBytes fatPrivate = 0 then
    .error .divide
  else
    let clustersAhead := offset.tdiv (sizeOfClusterBytes fatPrivate)
    fat16GetClusterForOffsetLoop disk fatPrivate clustersAhead.toNat startingCluster

def IsDataCluster (cluster : Nat) : Prop := 2 ≤ cluster ∧ cluster ≤ 0xFFEF

instance (cluster : Nat) : Decidable (IsDataCluster cluster) :=
  inferInstanceAs (Decidable (_ ∧ _))

/-- The clusters `chain 0`, …, `chain k` are data clusters, and each but the
last is linked to the next by its entry of the first table. -/
structure FatChain (disk : Disk) (reservedSectors : Half) (chain : Nat → Nat) (k : Nat) :
    Prop where
  data : ∀ i ≤ k, IsDataCluster (chain i)
  link : ∀ i < k,
    disk.le16 (reservedSectors.toNat * sectorSize + 2 * chain i) = chain (i + 1)

/-- The entry of every data cluster can be read, and the status is returned. -/
theorem fat16GetFatEntry_eq_zero
    (volume : Fat16Volume) {cluster : Nat}
    (hcluster : IsDataCluster cluster) :
    fat16GetFatEntry volume.disk volume.fatPrivate cluster = .ok 0 := by
  obtain ⟨stream, hstream⟩ := Option.isSome_iff_exists.mp volume.fatStream
  obtain ⟨hlo, hhi⟩ := hcluster
  have hreserved := volume.fatPrivate.header.reservedSectors.isLt
  have hpos : fat16GetFirstFatSector volume.fatPrivate * sectorSize + cluster * fatEntrySize +
      fatEntrySize < 2147483648 := by
    simp only [fat16GetFirstFatSector, sectorSize, fatEntrySize]
    omega
  have hentry : IsInt ((cluster : Int) * fatEntrySize) :=
    isInt_of_bounds (by omega) (by unfold fatEntrySize; omega)
  simp only [fat16GetFatEntry, hstream, checkInt_of_isInt _ hentry, ok_bind, diskstreamerSeek]
  rw [← Int.natCast_mul, ← Int.natCast_add,
    toInt_of_isInt (isInt_of_bounds (by omega) (by omega)),
    diskstreamerRead_eq_ok volume.primary stream.requested hpos]
  rfl

/-- One step of the loop from a data cluster fails: the status 0 is taken for
an empty entry. -/
theorem fat16GetClusterForOffsetLoop_succ
    (volume : Fat16Volume) {cluster : Nat} (n : Nat)
    (hcluster : IsDataCluster cluster) :
    fat16GetClusterForOffsetLoop volume.disk volume.fatPrivate (n + 1) cluster =
      .ok (-eio) := by
  simp only [fat16GetClusterForOffsetLoop, fat16GetFatEntry_eq_zero volume hcluster, ok_bind]
  rfl

/-- The number of steps of the loop for an offset in the `k`-th cluster. -/
theorem clustersAhead_eq
    {fatPrivate : FatPrivate} {offset : Int} {k : Nat}
    (hoffset : 0 ≤ offset) (hk : offset / sizeOfClusterBytes fatPrivate = k) :
    (offset.tdiv (sizeOfClusterBytes fatPrivate)).toNat = k := by
  rw [Int.tdiv_eq_ediv_of_nonneg hoffset, hk, Int.toNat_natCast]

theorem fat16GetClusterForOffset_first
    {volume : Fat16Volume} (hsize : volume.fatPrivate.header.sectorsPerCluster ≠ 0)
    (cluster : Int) {offset : Int}
    (hoffset : 0 ≤ offset) (hk : offset / sizeOfClusterBytes volume.fatPrivate = (0 : Nat)) :
    fat16GetClusterForOffset volume.disk volume.fatPrivate cluster offset = .ok cluster := by
  have hpos := sizeOfClusterBytes_pos hsize
  rw [fat16GetClusterForOffset, if_neg (by omega)]
  simp only [clustersAhead_eq hoffset hk]
  rfl

/-- Beyond the first cluster of a file every offset fails. -/
theorem fat16GetClusterForOffset_beyond_first
    {volume : Fat16Volume} (hsize : volume.fatPrivate.header.sectorsPerCluster ≠ 0)
    {cluster : Nat} (hcluster : IsDataCluster cluster) {offset : Int} {k : Nat}
    (hoffset : 0 ≤ offset) (hk : offset / sizeOfClusterBytes volume.fatPrivate = (k + 1 : Nat)) :
    fat16GetClusterForOffset volume.disk volume.fatPrivate cluster offset = .ok (-eio) := by
  have hpos := sizeOfClusterBytes_pos hsize
  rw [fat16GetClusterForOffset, if_neg (by omega)]
  simp only [clustersAhead_eq hoffset hk]
  exact fat16GetClusterForOffsetLoop_succ volume k hcluster

/-- Whatever the volume, the chain and the offset, the cluster returned for an
offset in the `k`-th cluster of the chain is the `k`-th. -/
def FollowsChains : Prop :=
  ∀ volume : Fat16Volume, volume.fatPrivate.header.sectorsPerCluster ≠ 0 →
    ∀ (chain : Nat → Nat) (k : Nat),
      FatChain volume.disk volume.fatPrivate.header.reservedSectors chain k →
      ∀ offset : Int, 0 ≤ offset → offset / sizeOfClusterBytes volume.fatPrivate = k →
        fat16GetClusterForOffset volume.disk volume.fatPrivate (chain 0) offset =
          .ok (chain k : Int)

/-- For an offset in the `k`-th cluster of a chain, the `k`-th cluster is
returned in the first cluster of the file and in no other. -/
theorem fat16GetClusterForOffset_eq_iff
    (volume : Fat16Volume)
    (hsize : volume.fatPrivate.header.sectorsPerCluster ≠ 0)
    (chain : Nat → Nat) (k : Nat)
    (hchain : FatChain volume.disk volume.fatPrivate.header.reservedSectors chain k)
    (offset : Int) (hoffset : 0 ≤ offset)
    (hk : offset / sizeOfClusterBytes volume.fatPrivate = k) :
    fat16GetClusterForOffset volume.disk volume.fatPrivate (chain 0) offset =
        .ok (chain k : Int) ↔
      k = 0 := by
  cases k with
  | zero => exact iff_of_true (fat16GetClusterForOffset_first hsize _ hoffset hk) rfl
  | succ k =>
      refine iff_of_false ?_ (Nat.succ_ne_zero k)
      rw [fat16GetClusterForOffset_beyond_first hsize (hchain.data 0 (Nat.zero_le _)) hoffset hk]
      intro h
      have hdata := (hchain.data (k + 1) (Nat.le_refl _)).1
      have : (-eio : Int) = chain (k + 1) := Except.ok.inj h
      unfold eio at this
      omega

/-- A volume of one-sector clusters whose first table starts at sector 1 and
links cluster 2 to cluster 3. -/
def linkedVolume : Fat16Volume where
  disk := ⟨true, fun pos => if pos = 516 then 3 else 0⟩
  fatPrivate :=
    { header := ⟨1, 1, 2, 64, 32⟩
      rootDirectory := ⟨[], 0, 65, 69⟩
      clusterReadStream := some ⟨0, []⟩
      fatReadStream := some ⟨0, []⟩
      directoryStream := some ⟨0, []⟩ }
  primary := rfl
  clusterStream := rfl
  fatStream := rfl
  directoryStream := rfl
  rootEnd := by decide

theorem linkedVolume_chain
    (k : Nat) (hk : k ≤ 1) :
    FatChain linkedVolume.disk linkedVolume.fatPrivate.header.reservedSectors (· + 2) k where
  data := by
    intro i hi
    exact ⟨by omega, by omega⟩
  link := by
    intro i hi
    obtain rfl : i = 0 := by omega
    rfl

theorem fat16GetClusterForOffset_linkedVolume :
    fat16GetClusterForOffset linkedVolume.disk linkedVolume.fatPrivate (2 : Nat) 100 =
      .ok (2 : Nat) :=
  (fat16GetClusterForOffset_eq_iff linkedVolume (by decide) (· + 2) 0
    (linkedVolume_chain 0 (by decide)) 100 (by decide) (by decide)).mpr rfl

/-- The second cluster of the chain is not found. -/
theorem followsChains_false : ¬ FollowsChains := by
  intro h
  have hfound := h linkedVolume (by decide) (· + 2) 1 (linkedVolume_chain 1 (Nat.le_refl _))
    512 (by decide) (by decide)
  rw [fat16GetClusterForOffset_beyond_first (k := 0) (by decide) ⟨by decide, by decide⟩
    (by decide) (by decide)] at hfound
  exact absurd hfound (by decide)

end PeachOS
