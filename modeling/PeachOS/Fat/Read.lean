import Mathlib.Tactic.Ring
import PeachOS.Fat.Chain

/-!
# Reading a range of a file

`fat16_read_internal_from_stream` reads a range of a file in pieces of at most
one cluster.  The cluster that holds an offset is a parameter here, so that
what the pieces add up to can be said apart from how the chain is followed;
`fat16_read_internal` takes `fat16_get_cluster_for_offset` for it.
-/

namespace PeachOS

open Lib

def fat16ClusterToSector (fatPrivate : FatPrivate) (cluster : Int) : Except Halt Int := do
  let ahead ← checkInt .fault (cluster - 2)
  let sectors ← checkInt .fault (ahead * fatPrivate.header.sectorsPerCluster.toNat)
  checkInt .fault (fatPrivate.rootDirectory.endingSectorPos + sectors)

/-- The stream position of a byte of a cluster. -/
def startingPos (fatPrivate : FatPrivate) (cluster offsetFromCluster : Int) :
    Except Halt Int := do
  let startingSector ← fat16ClusterToSector fatPrivate cluster
  let sectorPos ← checkInt .fault (startingSector * sectorSize)
  checkInt .fault (sectorPos + offsetFromCluster)

/-- How much of `total` bytes is read at once. -/
def clusterPart (sizeOfClusterBytes total : Int) : Int :=
  if total > sizeOfClusterBytes then sizeOfClusterBytes else total

theorem clusterPart_of_more
    {size total : Int}
    (hmore : total - clusterPart size total > 0) :
    size < total ∧ clusterPart size total = size := by
  unfold clusterPart at *
  split_ifs at * with h <;> omega

/-- The status, and the bytes stored at `out`. -/
def fat16ReadInternalFromStream
    (getClusterForOffset : Int → Int → Except Halt Int)
    (disk : Disk) (fatPrivate : FatPrivate) (stream : DiskStream)
    (cluster offset total : Int) : Except Halt (Int × List Byte) := do
  let clusterToUse ← getClusterForOffset cluster offset
  if clusterToUse < 0 then
    pure (clusterToUse, [])
  else if sizeOfClusterBytes fatPrivate = 0 then
    .error .divide
  else
    let offsetFromCluster := offset.tmod (sizeOfClusterBytes fatPrivate)
    let startingPos ← startingPos fatPrivate clusterToUse offsetFromCluster
    -- the piece is cut to a cluster's length, wherever in its cluster it starts
    let totalToRead := clusterPart (sizeOfClusterBytes fatPrivate) total
    let (res, stream, out) ←
      diskstreamerRead disk (diskstreamerSeek stream startingPos) totalToRead
    if res ≠ 0 then
      pure (res, out)
    else if total - totalToRead > 0 then
      let next ← checkInt .fault (offset + totalToRead)
      let (res, rest) ← fat16ReadInternalFromStream getClusterForOffset disk fatPrivate stream
        cluster next (total - totalToRead)
      pure (res, out ++ rest)
    else
      pure (res, out)
termination_by total.toNat
decreasing_by
  have hnonneg := sizeOfClusterBytes_nonneg fatPrivate
  have hsize : sizeOfClusterBytes fatPrivate ≠ 0 := by assumption
  obtain ⟨hlt, hpart⟩ := clusterPart_of_more (by assumption)
  rw [hpart]
  omega

def fat16ReadInternal (disk : Disk) (fatPrivate : FatPrivate)
    (startingCluster offset total : Int) : Except Halt (Int × List Byte) :=
  match fatPrivate.clusterReadStream with
  | none => .error .fault
  | some stream =>
      fat16ReadInternalFromStream (fat16GetClusterForOffset disk fatPrivate) disk fatPrivate
        stream startingCluster offset total

/-- A read of a range stores no more than it is asked for. -/
theorem length_fat16ReadInternalFromStream_le
    {getClusterForOffset : Int → Int → Except Halt Int} {disk : Disk} {fatPrivate : FatPrivate}
    {stream : DiskStream} {cluster offset total res : Int} {out : List Byte}
    (h : fat16ReadInternalFromStream getClusterForOffset disk fatPrivate stream cluster offset
      total = .ok (res, out)) :
    out.length ≤ total.toNat := by
  induction hn : total.toNat using Nat.strong_induction_on
    generalizing stream offset total out res with
  | _ n ih =>
      rw [fat16ReadInternalFromStream, bind_eq_ok_iff] at h
      obtain ⟨clusterToUse, -, h⟩ := h
      split_ifs at h with hcluster hsize
      · obtain ⟨rfl, rfl⟩ := h
        exact Nat.zero_le _
      · dsimp only at h
        rw [bind_eq_ok_iff] at h
        obtain ⟨startingPos, -, h⟩ := h
        rw [bind_eq_ok_iff] at h
        obtain ⟨⟨res', stream', piece⟩, hpiece, h⟩ := h
        have hpieceLe := length_diskstreamerRead_le hpiece
        have hpart : clusterPart (sizeOfClusterBytes fatPrivate) total ≤ total := by
          unfold clusterPart
          split_ifs <;> omega
        dsimp only at h
        split_ifs at h with hres hmore
        · obtain ⟨rfl, rfl⟩ := h
          omega
        · rw [bind_eq_ok_iff] at h
          obtain ⟨next, -, h⟩ := h
          rw [bind_eq_ok_iff] at h
          obtain ⟨⟨res'', rest⟩, hrest, h⟩ := h
          obtain ⟨rfl, rfl⟩ := h
          have hnonneg := sizeOfClusterBytes_nonneg fatPrivate
          obtain ⟨hlt, heq⟩ := clusterPart_of_more hmore
          have := ih _ (by rw [heq]; omega) hrest rfl
          simp only [List.length_append]
          omega
        · obtain ⟨rfl, rfl⟩ := h
          omega

/-- The first byte of a cluster on the disk. -/
def clusterPos (fatPrivate : FatPrivate) (cluster : Nat) : Nat :=
  (fatPrivate.rootDirectory.endingSectorPos.toNat +
    (cluster - 2) * fatPrivate.header.sectorsPerCluster.toNat) * sectorSize

/-- `sizeOfClusterBytes`, as a length. -/
def clusterLength (fatPrivate : FatPrivate) : Nat :=
  fatPrivate.header.sectorsPerCluster.toNat * sectorSize

theorem sizeOfClusterBytes_eq
    (fatPrivate : FatPrivate) :
    sizeOfClusterBytes fatPrivate = clusterLength fatPrivate := by
  simp [sizeOfClusterBytes, clusterLength]

theorem clusterLength_pos
    {fatPrivate : FatPrivate}
    (h : fatPrivate.header.sectorsPerCluster ≠ 0) :
    0 < clusterLength fatPrivate := by
  have := sizeOfClusterBytes_pos h
  rw [sizeOfClusterBytes_eq] at this
  omega

theorem clusterLength_lt
    (fatPrivate : FatPrivate) :
    clusterLength fatPrivate < 131072 := by
  have := fatPrivate.header.sectorsPerCluster.isLt
  unfold clusterLength sectorSize
  omega

/-- The next data cluster of the disk follows immediately. -/
theorem clusterPos_succ
    (fatPrivate : FatPrivate) {cluster : Nat}
    (h : 2 ≤ cluster) :
    clusterPos fatPrivate (cluster + 1) =
      clusterPos fatPrivate cluster + clusterLength fatPrivate := by
  obtain ⟨n, rfl⟩ := Nat.exists_eq_add_of_le h
  simp only [clusterPos, clusterLength, Nat.add_sub_cancel_left,
    show 2 + n + 1 - 2 = n + 1 by omega]
  ring

/-- The contents of the first `n` clusters of a chain, in chain order. -/
def chainBytes (disk : Disk) (fatPrivate : FatPrivate) (chain : Nat → Nat) (n : Nat) :
    List Byte :=
  (List.range n).flatMap fun q =>
    disk.bytes (clusterPos fatPrivate (chain q)) (clusterLength fatPrivate)

/-- Where on the disk the byte at `offset` of the file lies. -/
def bytePos (fatPrivate : FatPrivate) (chain : Nat → Nat) (offset : Nat) : Nat :=
  clusterPos fatPrivate (chain (offset / clusterLength fatPrivate)) +
    offset % clusterLength fatPrivate

/-- `getClusterForOffset` finds the cluster that holds any offset inside the
first `n` clusters of the chain. -/
def LooksUp (getClusterForOffset : Int → Int → Except Halt Int)
    (fatPrivate : FatPrivate) (chain : Nat → Nat) (n : Nat) : Prop :=
  ∀ offset : Nat, offset < n * clusterLength fatPrivate →
    getClusterForOffset (chain 0) offset =
      .ok (chain (offset / clusterLength fatPrivate) : Nat)

/-- The first sector of a cluster. -/
def clusterSector (fatPrivate : FatPrivate) (cluster : Nat) : Nat :=
  fatPrivate.rootDirectory.endingSectorPos.toNat +
    (cluster - 2) * fatPrivate.header.sectorsPerCluster.toNat

theorem clusterPos_eq
    (fatPrivate : FatPrivate) (cluster : Nat) :
    clusterPos fatPrivate cluster = clusterSector fatPrivate cluster * sectorSize :=
  rfl

/-- A sector is computed exactly, or its computation overflows. -/
theorem fat16ClusterToSector_eq
    (volume : Fat16Volume) {cluster : Nat} (hcluster : IsDataCluster cluster) :
    fat16ClusterToSector volume.fatPrivate cluster =
      if clusterSector volume.fatPrivate cluster < 2147483648 then
        .ok (clusterSector volume.fatPrivate cluster : Nat)
      else
        .error .fault := by
  obtain ⟨root, hroot⟩ := Int.eq_ofNat_of_zero_le volume.rootEnd
  obtain ⟨m, rfl⟩ := Nat.exists_eq_add_of_le hcluster.1
  have hm : m < 65536 := by
    have := hcluster.2
    omega
  have hsectors : m * volume.fatPrivate.header.sectorsPerCluster.toNat < 65536 * 256 :=
    Nat.mul_lt_mul'' hm volume.fatPrivate.header.sectorsPerCluster.isLt
  generalize hx : m * volume.fatPrivate.header.sectorsPerCluster.toNat = x at hsectors
  have hsector : clusterSector volume.fatPrivate (2 + m) = root + x := by
    simp [clusterSector, hroot, hx]
  have hahead : ((2 + m : Nat) : Int) - 2 = (m : Nat) := by omega
  have hmul : (m : Int) * volume.fatPrivate.header.sectorsPerCluster.toNat = (x : Nat) := by
    rw [← hx, Int.natCast_mul]
  rw [hsector, fat16ClusterToSector, hahead, hroot,
    checkInt_of_isInt _ (isInt_of_bounds (by omega) (by omega)), ok_bind, hmul,
    checkInt_of_isInt _ (isInt_of_bounds (by omega) (by omega)), ok_bind]
  have hsum : ((root : Nat) : Int) + (x : Nat) = (root + x : Nat) := by omega
  rw [hsum]
  rcases Nat.lt_or_ge (root + x) 2147483648 with h | h
  · rw [if_pos h, checkInt_of_isInt _ (isInt_of_bounds (by omega) (by omega))]
  · rw [if_neg (Nat.not_lt.mpr h), checkInt_of_not_isInt _ (by simp only [IsInt]; omega)]

/-- A position is computed exactly, or its computation overflows. -/
theorem startingPos_eq
    (volume : Fat16Volume) {cluster : Nat} (hcluster : IsDataCluster cluster) (off : Nat) :
    startingPos volume.fatPrivate cluster off =
      if clusterPos volume.fatPrivate cluster + off < 2147483648 then
        .ok (clusterPos volume.fatPrivate cluster + off : Nat)
      else
        .error .fault := by
  rw [startingPos, fat16ClusterToSector_eq volume hcluster, clusterPos_eq]
  generalize clusterSector volume.fatPrivate cluster = sector
  have hpos : (sector : Int) * sectorSize = (sector * sectorSize : Nat) := by simp
  unfold sectorSize at *
  rcases Nat.lt_or_ge sector 2147483648 with h | h
  · rw [if_pos h, ok_bind, hpos]
    rcases Nat.lt_or_ge (sector * 512) 2147483648 with h₁ | h₁
    · rw [checkInt_of_isInt _ (isInt_of_bounds (by omega) (by omega)), ok_bind,
        ← Int.natCast_add]
      rcases Nat.lt_or_ge (sector * 512 + off) 2147483648 with h₂ | h₂
      · rw [if_pos h₂, checkInt_of_isInt _ (isInt_of_bounds (by omega) (by omega))]
      · rw [if_neg (by omega), checkInt_of_not_isInt _ (by simp only [IsInt]; omega)]
    · rw [if_neg (by omega), checkInt_of_not_isInt _ (by simp only [IsInt]; omega), error_bind]
  · rw [if_neg (by omega), if_neg (by omega), error_bind]

section Pieces

variable (volume : Fat16Volume) (hsize : volume.fatPrivate.header.sectorsPerCluster ≠ 0)
  {getClusterForOffset : Int → Int → Except Halt Int} {chain : Nat → Nat} {n : Nat}
  (hchain : ∀ i < n, IsDataCluster (chain i))
  (hlookup : LooksUp getClusterForOffset volume.fatPrivate chain n)

include hsize hchain hlookup

/-- One call reads a piece of at most one cluster's length and goes on behind
it, unless a position or the next offset overflows. -/
theorem fat16ReadInternalFromStream_piece
    (requested : List Nat) (pos : Int) {offset total : Nat}
    (htotal : 1 ≤ total)
    (hin : offset + total ≤ n * clusterLength volume.fatPrivate) :
    fat16ReadInternalFromStream getClusterForOffset volume.disk volume.fatPrivate
        ⟨pos, requested⟩ (chain 0) offset total =
      if bytePos volume.fatPrivate chain offset + min (clusterLength volume.fatPrivate) total <
          2147483648 then
        if clusterLength volume.fatPrivate < total then
          if offset + clusterLength volume.fatPrivate < 2147483648 then do
            let (res, rest) ← fat16ReadInternalFromStream getClusterForOffset volume.disk
              volume.fatPrivate
              ⟨(bytePos volume.fatPrivate chain offset + clusterLength volume.fatPrivate : Nat),
                requested ++ sectorsAsked (bytePos volume.fatPrivate chain offset)
                  (clusterLength volume.fatPrivate)⟩
              (chain 0) (offset + clusterLength volume.fatPrivate : Nat)
              (total - clusterLength volume.fatPrivate : Nat)
            pure (res, volume.disk.bytes (bytePos volume.fatPrivate chain offset)
              (clusterLength volume.fatPrivate) ++ rest)
          else
            .error .fault
        else
          .ok (0, volume.disk.bytes (bytePos volume.fatPrivate chain offset) total)
      else
        .error .fault := by
  have hc := clusterLength_pos hsize
  have hclt := clusterLength_lt volume.fatPrivate
  have hq : offset / clusterLength volume.fatPrivate < n := by
    rw [Nat.div_lt_iff_lt_mul hc]
    omega
  rw [fat16ReadInternalFromStream, hlookup offset (by omega), ok_bind]
  simp only [sizeOfClusterBytes_eq]
  rw [if_neg (by omega), if_neg (by omega), Int.tmod_eq_emod_of_nonneg (by omega),
    ← Int.natCast_emod, startingPos_eq volume (hchain _ hq)]
  simp only [← bytePos.eq_def]
  generalize bytePos volume.fatPrivate chain offset = start
  generalize clusterLength volume.fatPrivate = c at *
  have hpart : clusterPart c total = (min c total : Nat) := by
    unfold clusterPart
    split_ifs <;> omega
  have hread := diskstreamerRead_eq volume.primary requested start (min c total)
    (by have := Nat.mod_lt start (show 0 < sectorSize by decide); unfold sectorSize at *; omega)
  rw [hpart]
  rcases Nat.lt_or_ge start 2147483648 with hstart | hstart
  · rw [if_pos hstart, ok_bind]
    simp only [diskstreamerSeek, hread]
    rcases Nat.lt_or_ge (start + min c total) 2147483648 with hend | hend
    · rw [if_pos hend, if_pos hend, ok_bind]
      simp only [ne_eq, not_true_eq_false, if_false]
      rcases Nat.lt_or_ge c total with hmore | hlast
      · have hmin : min c total = c := by omega
        have hrest : (total : Int) - c = (total - c : Nat) := by omega
        rw [hmin, if_pos (by omega), if_pos hmore, ← Int.natCast_add, hrest]
        rcases Nat.lt_or_ge (offset + c) 2147483648 with hnext | hnext
        · rw [if_pos hnext, checkInt_of_isInt _ (isInt_of_bounds (by omega) (by omega)), ok_bind]
        · rw [if_neg (by omega), checkInt_of_not_isInt _ (by simp only [IsInt]; omega),
            error_bind]
      · have hmin : min c total = total := by omega
        rw [hmin, if_neg (by omega), if_neg (by omega)]
        rfl
    · rw [if_neg (by omega), if_neg (by omega)]
      rfl
  · rw [if_neg (by omega), if_neg (by omega), error_bind]

end Pieces

section Spec

variable (fatPrivate : FatPrivate) (chain : Nat → Nat)

/-- Piece `p` of a read: its offset and the position it ends at are values of
an `int`. -/
def PieceFits (offset total p : Nat) : Prop :=
  offset + p * clusterLength fatPrivate < 2147483648 ∧
    bytePos fatPrivate chain (offset + p * clusterLength fatPrivate) +
      min (clusterLength fatPrivate) (total - p * clusterLength fatPrivate) < 2147483648

/-- Every piece of a read fits. -/
def PiecesFit (offset total : Nat) : Prop :=
  ∀ p, p * clusterLength fatPrivate < total → PieceFits fatPrivate chain offset total p

/-- Where the byte number `j` of a read from `offset` on is taken from: the
piece it lies in is read in one stretch from the position of the piece's offset. -/
def readPos (offset j : Nat) : Nat :=
  bytePos fatPrivate chain
    (offset + j / clusterLength fatPrivate * clusterLength fatPrivate) +
      j % clusterLength fatPrivate

theorem pieceFits_succ
    (offset total p : Nat) :
    PieceFits fatPrivate chain (offset + clusterLength fatPrivate)
        (total - clusterLength fatPrivate) p ↔
      PieceFits fatPrivate chain offset total (p + 1) := by
  simp only [PieceFits, Nat.succ_mul, Nat.sub_sub, Nat.add_assoc,
    Nat.add_comm (clusterLength fatPrivate)]

theorem piecesFit_iff
    {offset total : Nat} (htotal : 1 ≤ total) :
    PiecesFit fatPrivate chain offset total ↔
      PieceFits fatPrivate chain offset total 0 ∧
        (clusterLength fatPrivate < total →
          PiecesFit fatPrivate chain (offset + clusterLength fatPrivate)
            (total - clusterLength fatPrivate)) := by
  constructor
  · intro h
    refine ⟨h 0 (by omega), ?_⟩
    intro hmore p hp
    rw [pieceFits_succ]
    exact h (p + 1) (by rw [Nat.succ_mul]; omega)
  · rintro ⟨hzero, hrest⟩ p hp
    cases p with
    | zero => exact hzero
    | succ p =>
        rw [Nat.succ_mul] at hp
        rw [← pieceFits_succ]
        exact hrest (by omega) p (by omega)

theorem readPos_of_lt
    {offset j : Nat}
    (hj : j < clusterLength fatPrivate) :
    readPos fatPrivate chain offset j = bytePos fatPrivate chain offset + j := by
  rw [readPos, Nat.div_eq_of_lt hj, Nat.mod_eq_of_lt hj, Nat.zero_mul, Nat.add_zero]

theorem readPos_add
    (hc : 0 < clusterLength fatPrivate) (offset j : Nat) :
    readPos fatPrivate chain offset (clusterLength fatPrivate + j) =
      readPos fatPrivate chain (offset + clusterLength fatPrivate) j := by
  rw [readPos, readPos, Nat.add_div_left j hc, Nat.add_mod_left, Nat.succ_mul]
  congr 2
  omega

/-- The bytes of a read start with those of its first piece. -/
theorem map_readPos_add
    (disk : Disk) (hc : 0 < clusterLength fatPrivate) (offset rest : Nat) :
    (List.range (clusterLength fatPrivate + rest)).map
        (fun j => disk.content (readPos fatPrivate chain offset j)) =
      disk.bytes (bytePos fatPrivate chain offset) (clusterLength fatPrivate) ++
        (List.range rest).map
          (fun j => disk.content
            (readPos fatPrivate chain (offset + clusterLength fatPrivate) j)) := by
  rw [List.range_add, List.map_append, List.map_map]
  refine congrArg₂ (· ++ ·) ?_ ?_
  · rw [Disk.bytes_eq_map_range]
    refine List.map_congr_left ?_
    intro j hj
    rw [readPos_of_lt _ _ (List.mem_range.mp hj)]
  · refine List.map_congr_left ?_
    intro j _
    rw [Function.comp_apply, readPos_add _ _ hc]

theorem map_readPos_of_le
    (disk : Disk) {offset total : Nat} (h : total ≤ clusterLength fatPrivate) :
    (List.range total).map (fun j => disk.content (readPos fatPrivate chain offset j)) =
      disk.bytes (bytePos fatPrivate chain offset) total := by
  rw [Disk.bytes_eq_map_range]
  refine List.map_congr_left ?_
  intro j hj
  rw [readPos_of_lt _ _ (Nat.lt_of_lt_of_le (List.mem_range.mp hj) h)]

end Spec

section Run

variable (volume : Fat16Volume) (hsize : volume.fatPrivate.header.sectorsPerCluster ≠ 0)
  {getClusterForOffset : Int → Int → Except Halt Int} {chain : Nat → Nat} {n : Nat}
  (hchain : ∀ i < n, IsDataCluster (chain i))
  (hlookup : LooksUp getClusterForOffset volume.fatPrivate chain n)

include hsize hchain hlookup

/-- A read whose pieces all fit returns the bytes at `readPos`. -/
theorem fat16ReadInternalFromStream_eq
    (stream : DiskStream) (offset total : Nat)
    (htotal : 1 ≤ total) (hin : offset + total ≤ n * clusterLength volume.fatPrivate)
    (hfit : PiecesFit volume.fatPrivate chain offset total) :
    fat16ReadInternalFromStream getClusterForOffset volume.disk volume.fatPrivate
        stream (chain 0) offset total =
      .ok (0, (List.range total).map fun j =>
        volume.disk.content (readPos volume.fatPrivate chain offset j)) := by
  have hc := clusterLength_pos hsize
  induction total using Nat.strong_induction_on generalizing offset stream with
  | _ total ih =>
      obtain ⟨⟨-, hpos⟩, hrest⟩ := (piecesFit_iff _ _ htotal).mp hfit
      simp only [Nat.zero_mul, Nat.add_zero, Nat.sub_zero] at hpos
      rw [fat16ReadInternalFromStream_piece volume hsize hchain hlookup stream.requested
        stream.pos htotal hin, if_pos hpos]
      rcases Nat.lt_or_ge (clusterLength volume.fatPrivate) total with hmore | hlast
      · obtain ⟨rest, rfl⟩ := Nat.exists_eq_add_of_le (Nat.le_of_lt hmore)
        have hfit' := hrest hmore
        rw [Nat.add_sub_cancel_left] at hfit'
        have hnext := (hfit' 0 (by omega)).1
        rw [if_pos hmore, if_pos (by omega), Nat.add_sub_cancel_left,
          ih rest (by omega) _ _ (by omega) (by omega) hfit', ok_bind, map_readPos_add _ _ _ hc]
        rfl
      · rw [if_neg (by omega), map_readPos_of_le _ _ _ hlast]

/-- A read with a piece that does not fit overflows. -/
theorem fat16ReadInternalFromStream_fault
    (stream : DiskStream) {offset total : Nat}
    (htotal : 1 ≤ total) (hoffset : offset < 2147483648)
    (hin : offset + total ≤ n * clusterLength volume.fatPrivate)
    (hfit : ¬ PiecesFit volume.fatPrivate chain offset total) :
    fat16ReadInternalFromStream getClusterForOffset volume.disk volume.fatPrivate
        stream (chain 0) offset total = .error .fault := by
  have hc := clusterLength_pos hsize
  induction total using Nat.strong_induction_on generalizing offset stream with
  | _ total ih =>
      rw [fat16ReadInternalFromStream_piece volume hsize hchain hlookup stream.requested
        stream.pos htotal hin]
      split_ifs with hpos hmore hnext
      · have hrest : ¬ PiecesFit volume.fatPrivate chain
            (offset + clusterLength volume.fatPrivate)
            (total - clusterLength volume.fatPrivate) := by
          intro h
          refine hfit ((piecesFit_iff _ _ htotal).mpr ⟨⟨?_, ?_⟩, fun _ => h⟩)
          · simpa using hoffset
          · simpa using hpos
        rw [ih _ (by omega) _ (by omega) hnext (by omega) hrest, error_bind]
      · rfl
      · refine absurd ((piecesFit_iff _ _ htotal).mpr ⟨⟨?_, ?_⟩, fun h => absurd h hmore⟩) hfit
        · simpa using hoffset
        · simpa using hpos
      · rfl

end Run

section Range

variable (fatPrivate : FatPrivate) (chain : Nat → Nat)

/-- The cluster boundaries inside the range `[offset, offset + total)` of the
file are boundaries to the next cluster of the disk as well. -/
def CrossesInOrder (offset total : Nat) : Prop :=
  ∀ i, offset / clusterLength fatPrivate ≤ i →
    (i + 1) * clusterLength fatPrivate < offset + total → chain (i + 1) = chain i + 1

theorem bytePos_of_split
    {q r : Nat}
    (hr : r < clusterLength fatPrivate) :
    bytePos fatPrivate chain (q * clusterLength fatPrivate + r) =
      clusterPos fatPrivate (chain q) + r := by
  have hc : 0 < clusterLength fatPrivate := by omega
  rw [bytePos, Nat.add_comm (q * _), Nat.add_mul_div_right _ _ hc, Nat.div_eq_of_lt hr, Nat.zero_add,
    Nat.add_mul_mod_self_right, Nat.mod_eq_of_lt hr]

theorem chainBytes_eq
    (disk : Disk) (n : Nat) :
    chainBytes disk fatPrivate chain n =
      (List.range (n * clusterLength fatPrivate)).map
        fun o => disk.content (bytePos fatPrivate chain o) := by
  induction n with
  | zero => simp [chainBytes]
  | succ n ih =>
      rw [chainBytes, List.range_succ, List.flatMap_append, ← chainBytes, ih, Nat.succ_mul,
        List.range_add, List.map_append, List.map_map]
      refine congrArg₂ (· ++ ·) rfl ?_
      rw [List.flatMap_singleton, Disk.bytes_eq_map_range]
      refine List.map_congr_left ?_
      intro r hr
      rw [Function.comp_apply, bytePos_of_split _ _ (List.mem_range.mp hr)]

/-- The bytes `[offset, offset + total)` of the file. -/
theorem take_drop_chainBytes
    (disk : Disk) {n offset total : Nat}
    (hin : offset + total ≤ n * clusterLength fatPrivate) :
    ((chainBytes disk fatPrivate chain n).drop offset).take total =
      (List.range total).map
        fun j => disk.content (bytePos fatPrivate chain (offset + j)) := by
  obtain ⟨rest, hrest⟩ := Nat.exists_eq_add_of_le hin
  rw [chainBytes_eq, hrest, Nat.add_assoc, List.range_add, List.map_append,
    List.drop_left' (by simp), List.range_add, List.map_append, List.map_append,
    List.take_left' (by simp), List.map_map]
  rfl

/-- The byte number `p * c + r` of a read is taken from `p` clusters' lengths
behind the offset, in the cluster of the chain that holds that place. -/
theorem readPos_of_split
    {k a p r : Nat}
    (ha : a < clusterLength fatPrivate) (hr : r < clusterLength fatPrivate) :
    readPos fatPrivate chain (k * clusterLength fatPrivate + a)
        (p * clusterLength fatPrivate + r) =
      clusterPos fatPrivate (chain (k + p)) + a + r := by
  have hc : 0 < clusterLength fatPrivate := by omega
  have hsum : k * clusterLength fatPrivate + a + p * clusterLength fatPrivate =
      (k + p) * clusterLength fatPrivate + a := by ring
  rw [readPos, Nat.add_comm (p * _), Nat.add_mul_div_right _ _ hc, Nat.div_eq_of_lt hr,
    Nat.zero_add, Nat.add_mul_mod_self_right, Nat.mod_eq_of_lt hr, hsum,
    bytePos_of_split _ _ ha]

theorem clusterPos_eq_add_iff
    (hc : 0 < clusterLength fatPrivate) {cluster next : Nat}
    (hcluster : 2 ≤ cluster) (hnext : 2 ≤ next) :
    clusterPos fatPrivate next = clusterPos fatPrivate cluster + clusterLength fatPrivate ↔
      next = cluster + 1 := by
  rw [← clusterPos_succ fatPrivate hcluster]
  constructor
  · intro h
    obtain ⟨m, rfl⟩ := Nat.exists_eq_add_of_le hcluster
    obtain ⟨l, rfl⟩ := Nat.exists_eq_add_of_le hnext
    unfold clusterLength at hc
    have hspc := Nat.pos_of_mul_pos_right hc
    unfold clusterPos sectorSize at h
    have hmul := Nat.add_left_cancel (Nat.eq_of_mul_eq_mul_right (by decide) h)
    have := Nat.eq_of_mul_eq_mul_right hspc hmul
    omega
  · rintro rfl
    rfl

/-- A byte that is read behind a cluster boundary is the right one when the next
cluster of the chain follows on the disk. -/
theorem readPos_eq_iff_of_split
    {k a p r : Nat} (ha : a < clusterLength fatPrivate) (hr : r < clusterLength fatPrivate) :
    readPos fatPrivate chain (k * clusterLength fatPrivate + a)
        (p * clusterLength fatPrivate + r) =
      bytePos fatPrivate chain
        (k * clusterLength fatPrivate + a + (p * clusterLength fatPrivate + r)) ↔
      a + r < clusterLength fatPrivate ∨
        clusterPos fatPrivate (chain (k + p + 1)) =
          clusterPos fatPrivate (chain (k + p)) + clusterLength fatPrivate := by
  rw [readPos_of_split _ _ ha hr]
  rcases Nat.lt_or_ge (a + r) (clusterLength fatPrivate) with hinside | hbeyond
  · have hsplit : k * clusterLength fatPrivate + a + (p * clusterLength fatPrivate + r) =
        (k + p) * clusterLength fatPrivate + (a + r) := by ring
    rw [hsplit, bytePos_of_split _ _ hinside, Nat.add_assoc]
    exact iff_of_true rfl (Or.inl hinside)
  · have hsplit : k * clusterLength fatPrivate + a + (p * clusterLength fatPrivate + r) =
        (k + p + 1) * clusterLength fatPrivate + (a + r - clusterLength fatPrivate) := by
      rw [Nat.add_mul, Nat.add_mul]
      omega
    rw [hsplit, bytePos_of_split _ _ (by omega)]
    omega

/-- The bytes of a read are those of the range exactly when it starts at a
cluster boundary or crosses all of its boundaries in order. -/
theorem readPos_eq_bytePos_iff
    (hc : 0 < clusterLength fatPrivate) {n offset total : Nat}
    (hchain : ∀ i < n, IsDataCluster (chain i))
    (hin : offset + total ≤ n * clusterLength fatPrivate) :
    (∀ j < total, readPos fatPrivate chain offset j = bytePos fatPrivate chain (offset + j)) ↔
      offset % clusterLength fatPrivate = 0 ∨
        CrossesInOrder fatPrivate chain offset total := by
  have ha := Nat.mod_lt offset hc
  have hoffset := Nat.div_add_mod' offset (clusterLength fatPrivate)
  unfold CrossesInOrder
  generalize offset / clusterLength fatPrivate = k at hoffset ⊢
  generalize offset % clusterLength fatPrivate = a at ha hoffset ⊢
  subst hoffset
  have hfollows : ∀ i, (i + 1) * clusterLength fatPrivate <
      k * clusterLength fatPrivate + a + total →
      (clusterPos fatPrivate (chain (i + 1)) =
        clusterPos fatPrivate (chain i) + clusterLength fatPrivate ↔
          chain (i + 1) = chain i + 1) := by
    intro i hi
    have hlt : i + 1 < n := Nat.lt_of_mul_lt_mul_right (Nat.lt_of_lt_of_le hi hin)
    exact clusterPos_eq_add_iff _ hc (hchain i (by omega)).1 (hchain (i + 1) hlt).1
  constructor
  · intro h
    rcases Nat.eq_zero_or_pos a with h0 | hpos
    · exact Or.inl h0
    · refine Or.inr ?_
      intro i hi hcross
      obtain ⟨p, rfl⟩ := Nat.exists_eq_add_of_le hi
      have hsum := hcross
      rw [Nat.add_mul, Nat.add_mul] at hsum
      have hj := h (p * clusterLength fatPrivate + (clusterLength fatPrivate - a)) (by omega)
      rw [readPos_eq_iff_of_split _ _ ha (by omega)] at hj
      exact (hfollows _ hcross).mp (hj.resolve_left (by omega))
  · intro h j hj
    have hr := Nat.mod_lt j hc
    have hjsplit := Nat.div_add_mod' j (clusterLength fatPrivate)
    generalize j / clusterLength fatPrivate = p at hjsplit
    generalize j % clusterLength fatPrivate = r at hr hjsplit
    subst hjsplit
    rw [readPos_eq_iff_of_split _ _ ha hr]
    rcases Nat.lt_or_ge (a + r) (clusterLength fatPrivate) with hinside | hbeyond
    · exact Or.inl hinside
    · have hcross : (k + p + 1) * clusterLength fatPrivate <
          k * clusterLength fatPrivate + a + total := by
        rw [Nat.add_mul, Nat.add_mul]
        omega
      refine Or.inr ((hfollows _ hcross).mpr ?_)
      exact (h.resolve_left (by omega)) (k + p) (Nat.le_add_right _ _) hcross

end Range

/-- The volume with the same layout and other bytes on the disk. -/
def Fat16Volume.withContent (volume : Fat16Volume) (content : Nat → Byte) : Fat16Volume :=
  { volume with disk := ⟨true, content⟩, primary := rfl }

/-- Whatever the layout, a read inside the chain stores the bytes of its range. -/
def ReadsRanges : Prop :=
  ∀ volume : Fat16Volume, volume.fatPrivate.header.sectorsPerCluster ≠ 0 →
    ∀ (getClusterForOffset : Int → Int → Except Halt Int) (chain : Nat → Nat) (n : Nat),
      (∀ i < n, IsDataCluster (chain i)) →
      LooksUp getClusterForOffset volume.fatPrivate chain n →
      ∀ (stream : DiskStream) (offset total : Nat), 1 ≤ total → offset < 2147483648 →
        offset + total ≤ n * clusterLength volume.fatPrivate →
        fat16ReadInternalFromStream getClusterForOffset volume.disk volume.fatPrivate stream
            (chain 0) offset total =
          .ok (0, ((chainBytes volume.disk volume.fatPrivate chain n).drop offset).take total)

/-- For a layout of the volume, a chain and a range inside it, a read stores
the bytes of the range, whatever the disk holds, exactly when its pieces can
be addressed and it starts at a cluster boundary or crosses its boundaries in
order. -/
theorem fat16ReadInternalFromStream_eq_iff
    (volume : Fat16Volume)
    (hsize : volume.fatPrivate.header.sectorsPerCluster ≠ 0)
    (getClusterForOffset : Int → Int → Except Halt Int) (chain : Nat → Nat) (n : Nat)
    (hchain : ∀ i < n, IsDataCluster (chain i))
    (hlookup : LooksUp getClusterForOffset volume.fatPrivate chain n)
    (stream : DiskStream) (offset total : Nat)
    (htotal : 1 ≤ total) (hoffset : offset < 2147483648)
    (hin : offset + total ≤ n * clusterLength volume.fatPrivate) :
    (∀ content : Nat → Byte,
      fat16ReadInternalFromStream getClusterForOffset (volume.withContent content).disk
          volume.fatPrivate stream (chain 0) offset total =
        .ok (0, ((chainBytes (volume.withContent content).disk volume.fatPrivate
          chain n).drop offset).take total)) ↔
      PiecesFit volume.fatPrivate chain offset total ∧
        (offset % clusterLength volume.fatPrivate = 0 ∨
          CrossesInOrder volume.fatPrivate chain offset total) := by
  have hc := clusterLength_pos hsize
  constructor
  · intro h
    have hfit : PiecesFit volume.fatPrivate chain offset total := by
      by_contra hfit
      have hfault := fat16ReadInternalFromStream_fault (volume.withContent fun _ => 0) hsize
        hchain hlookup stream htotal hoffset hin hfit
      cases (h fun _ => 0).symm.trans hfault
    refine ⟨hfit, (readPos_eq_bytePos_iff _ _ hc hchain hin).mp ?_⟩
    intro j hj
    by_contra hne
    let mark : Nat → Byte :=
      fun pos => if pos = bytePos volume.fatPrivate chain (offset + j) then 1 else 0
    have hread := fat16ReadInternalFromStream_eq (volume.withContent mark) hsize
      hchain hlookup stream offset total htotal hin hfit
    have hsame := (h mark).symm.trans hread
    rw [take_drop_chainBytes _ _ _ hin] at hsame
    have hat := List.map_inj_left.mp (Prod.mk.inj (Except.ok.inj hsame)).2 j
      (List.mem_range.mpr hj)
    simp [Fat16Volume.withContent, mark, hne] at hat
  · rintro ⟨hfit, horder⟩ content
    have hread := fat16ReadInternalFromStream_eq (volume.withContent content) hsize
      hchain hlookup stream offset total htotal hin hfit
    refine hread.trans ?_
    rw [take_drop_chainBytes _ _ _ hin]
    refine congrArg (fun out => Except.ok (0, out)) (List.map_congr_left ?_)
    intro j hj
    exact congrArg _ ((readPos_eq_bytePos_iff _ _ hc hchain hin).mpr horder j
      (List.mem_range.mp hj))

/-- The chain of the clusters 2, 2 + `gap`, 2 + 2 `gap` and so on. -/
def gapChain (gap : Nat) (i : Nat) : Nat := gap * i + 2

/-- What finds the cluster of an offset in that chain, for one-sector clusters. -/
def gapLookup (gap : Nat) (_startingCluster offset : Int) : Except Halt Int :=
  .ok (gap * (offset / 512) + 2)

theorem gapChain_data
    (gap : Nat) (hgap : gap ≤ 2) :
    ∀ i < 2, IsDataCluster (gapChain gap i) := by
  intro i hi
  have : gap * i ≤ 2 * 1 := Nat.mul_le_mul hgap (by omega)
  exact ⟨Nat.le_add_left _ _, by unfold gapChain; omega⟩

theorem gapLookup_looksUp
    (gap : Nat) (content : Nat → Byte) :
    LooksUp (gapLookup gap) (linkedVolume.withContent content).fatPrivate (gapChain gap) 2 := by
  intro offset _
  simp [gapLookup, gapChain, clusterLength, linkedVolume, Fat16Volume.withContent, sectorSize]

theorem linkedVolume_piecesFit
    (chain : Nat → Nat) (hchain : chain 0 = 2) (content : Nat → Byte) :
    PiecesFit (linkedVolume.withContent content).fatPrivate chain 256 512 := by
  have hlength : clusterLength (linkedVolume.withContent content).fatPrivate = 512 := by
    simp [clusterLength, linkedVolume, Fat16Volume.withContent, sectorSize]
  intro p hp
  rw [hlength] at hp
  obtain rfl : p = 0 := by omega
  rw [PieceFits, bytePos, hlength]
  simp [clusterPos, linkedVolume, Fat16Volume.withContent, sectorSize, hchain]

/-- A range of two neighbouring clusters, from the middle of the first. -/
theorem fat16ReadInternalFromStream_neighbours :
    fat16ReadInternalFromStream (gapLookup 1) linkedVolume.disk linkedVolume.fatPrivate
        ⟨0, []⟩ (gapChain 1 0 : Nat) (256 : Nat) (512 : Nat) =
      .ok (0, ((chainBytes linkedVolume.disk linkedVolume.fatPrivate
        (gapChain 1) 2).drop 256).take 512) :=
  (fat16ReadInternalFromStream_eq_iff linkedVolume (by decide) (gapLookup 1) (gapChain 1) 2
    (gapChain_data _ (by decide)) (gapLookup_looksUp 1 linkedVolume.disk.content) ⟨0, []⟩ 256 512
    (by decide) (by decide) (by decide)).mpr
    ⟨linkedVolume_piecesFit (gapChain 1) rfl linkedVolume.disk.content,
      Or.inr fun i _ _ => by unfold gapChain; omega⟩ linkedVolume.disk.content

/-- On the chain of the clusters 2 and 4 the byte at offset 512 of the file is
taken from cluster 3. -/
theorem readsRanges_false : ¬ ReadsRanges := by
  intro h
  let mark : Nat → Byte := fun pos => if pos = 36352 then 1 else 0
  have hread := fat16ReadInternalFromStream_eq (linkedVolume.withContent mark) (by decide)
    (gapChain_data 2 (by decide)) (gapLookup_looksUp 2 mark) ⟨0, []⟩ 256 512
    (by decide) (by decide)
    (linkedVolume_piecesFit (gapChain 2) rfl mark)
  have hsame := (h (linkedVolume.withContent mark) (by decide) (gapLookup 2) (gapChain 2) 2
    (gapChain_data _ (by decide)) (gapLookup_looksUp 2 mark) ⟨0, []⟩ 256 512
    (by decide) (by decide) (by decide)).symm.trans hread
  rw [take_drop_chainBytes _ _ _ (by decide)] at hsame
  have hat := List.map_inj_left.mp (Prod.mk.inj (Except.ok.inj hsame)).2 256
    (List.mem_range.mpr (by decide))
  exact absurd hat (by decide)

end PeachOS
