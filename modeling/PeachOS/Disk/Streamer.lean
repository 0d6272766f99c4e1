import Mathlib.Data.List.Basic
import PeachOS.Config
import PeachOS.Lib.CInt

/-!
# Reading bytes from a disk

`disk_read_block` of `disk.c` and the stream of `streamer.c`, which reads any
range of bytes by reading the sectors it lies in.  A stream records the
sectors it has asked for: the record has no counterpart in the source, and no
function reads it.
-/

namespace PeachOS

open Lib

/-- A disk of 512-byte sectors: `disk_search_and_init` sets `sector_size` to
`PEACHOS_SECTOR_SIZE`, and nothing else writes it. -/
structure Disk where
  /-- Whether this is the address of the one `struct disk` of the kernel. -/
  primary : Bool
  content : Nat → Byte

/-- The bytes `[pos, pos + total)` of the disk. -/
def Disk.bytes (disk : Disk) (pos total : Nat) : List Byte :=
  (List.range' pos total).map disk.content

/-- The 16-bit value stored low byte first at `pos`. -/
def Disk.le16 (disk : Disk) (pos : Nat) : Nat :=
  (disk.content pos).toNat + 256 * (disk.content (pos + 1)).toNat

/-- The status, and what is stored in the buffer. -/
def diskReadBlock (disk : Disk) (lba : Nat) : Int × List Byte :=
  if disk.primary then
    (0, disk.bytes (lba * sectorSize) sectorSize)
  else
    (-eio, [])

structure DiskStream where
  pos : Int
  requested : List Nat := []

def diskstreamerSeek (stream : DiskStream) (pos : Int) : DiskStream :=
  { stream with pos := pos }

/-- How much of `total` bytes lies in the sector that the read starts in. -/
def sectorPart (offset total : Int) : Int :=
  if offset + total ≥ sectorSize then
    total - ((offset + total) - sectorSize)
  else
    total

theorem sectorPart_of_overflow
    {offset total : Int}
    (h : offset + total ≥ sectorSize) :
    sectorPart offset total = sectorSize - offset := by
  rw [sectorPart, if_pos h]
  omega

/-- The status, the stream afterwards and the bytes stored at `out`.  The
position of a stream is never negative: below 0 the copy would start before
its buffer. -/
def diskstreamerRead (disk : Disk) (stream : DiskStream) (total : Int) :
    Except Halt (Int × DiskStream × List Byte) :=
  let sector := stream.pos / sectorSize
  let offset := stream.pos % sectorSize
  if stream.pos < 0 ∨ ¬ IsInt (offset + total) then
    .error .fault
  else
    let totalToRead := sectorPart offset total
    let (res, buf) := diskReadBlock disk sector.toNat
    let asked := { stream with requested := stream.requested ++ [sector.toNat] }
    if res < 0 then
      .ok (res, asked, [])
    else if ¬ IsInt (stream.pos + totalToRead) then
      .error .fault
    else
      let out := (buf.drop offset.toNat).take totalToRead.toNat
      let moved := { asked with pos := stream.pos + totalToRead }
      if offset + total ≥ sectorSize then do
        let (res, after, rest) ← diskstreamerRead disk moved (total - totalToRead)
        pure (res, after, out ++ rest)
      else
        .ok (res, moved, out)
termination_by total.toNat
decreasing_by
  have hover : stream.pos % sectorSize + total ≥ sectorSize := by assumption
  rw [sectorPart_of_overflow hover]
  change stream.pos % 512 + total ≥ 512 at hover
  change (total - (512 - stream.pos % 512)).toNat < total.toNat
  omega

theorem Disk.bytes_append
    (disk : Disk) (pos a b : Nat) :
    disk.bytes pos a ++ disk.bytes (pos + a) b = disk.bytes pos (a + b) := by
  rw [Disk.bytes, Disk.bytes, Disk.bytes, ← List.map_append, List.range'_append_1]

theorem Disk.bytes_eq_map_range
    (disk : Disk) (pos total : Nat) :
    disk.bytes pos total = (List.range total).map fun i => disk.content (pos + i) := by
  rw [Disk.bytes, List.range'_eq_map_range, List.map_map]
  rfl

@[simp] theorem Disk.length_bytes
    (disk : Disk) (pos total : Nat) :
    (disk.bytes pos total).length = total := by
  simp [Disk.bytes]

/-- The part of a sector from `offset` on. -/
theorem Disk.take_drop_bytes
    (disk : Disk) (pos : Nat) {total offset n : Nat}
    (h : offset + n ≤ total) :
    ((disk.bytes pos total).drop offset).take n = disk.bytes (pos + offset) n := by
  obtain ⟨m, rfl⟩ := Nat.exists_eq_add_of_le h
  rw [Nat.add_assoc, ← disk.bytes_append pos offset, ← disk.bytes_append (pos + offset) n,
    List.drop_left' (disk.length_bytes _ _), List.take_left' (disk.length_bytes _ _)]

/-- A read stores no more than it is asked for. -/
theorem length_diskstreamerRead_le
    {disk : Disk} {stream after : DiskStream} {total res : Int} {out : List Byte}
    (h : diskstreamerRead disk stream total = .ok (res, after, out)) :
    out.length ≤ total.toNat := by
  induction hn : total.toNat using Nat.strong_induction_on
    generalizing stream total out res with
  | _ n ih =>
      rw [diskstreamerRead] at h
      dsimp only at h
      split_ifs at h with hfault hres hmove hover
      · obtain ⟨rfl, rfl, rfl⟩ := h
        exact Nat.zero_le _
      · rw [bind_eq_ok_iff] at h
        obtain ⟨⟨res', after', rest⟩, hrest, h⟩ := h
        obtain ⟨rfl, rfl, rfl⟩ := h
        have hpart := sectorPart_of_overflow hover
        have hlt : stream.pos % sectorSize < sectorSize := Int.emod_lt_of_pos _ (by decide)
        have hle := ih _ (by rw [hpart]; omega) hrest rfl
        simp only [List.length_append]
        have := List.length_take_le (sectorPart (stream.pos % sectorSize) total).toNat
          ((diskReadBlock disk (stream.pos / sectorSize).toNat).2.drop
            (stream.pos % sectorSize).toNat)
        omega
      · obtain ⟨rfl, rfl, rfl⟩ := h
        have hpart : sectorPart (stream.pos % sectorSize) total = total := if_neg hover
        rw [hpart]
        exact (List.length_take_le _ _).trans (le_of_eq hn)

/-- The sectors asked for by a read of `total` bytes at `pos`: from the one
`pos` lies in to the one the stream is left in. -/
def sectorsAsked (pos total : Nat) : List Nat :=
  List.range' (pos / sectorSize) ((pos + total) / sectorSize + 1 - pos / sectorSize)

theorem sectorsAsked_inside
    {pos total : Nat}
    (h : pos % sectorSize + total < sectorSize) :
    sectorsAsked pos total = [pos / sectorSize] := by
  have : (pos + total) / sectorSize = pos / sectorSize := by
    unfold sectorSize at *
    omega
  simp [sectorsAsked, this]

/-- The sectors of a read that leaves its first sector after `n` bytes. -/
theorem sectorsAsked_across
    {pos n rest : Nat}
    (h : pos % sectorSize + n = sectorSize) :
    sectorsAsked pos (n + rest) = (pos / sectorSize) :: sectorsAsked (pos + n) rest := by
  have hnext : (pos + n) / sectorSize = pos / sectorSize + 1 := by
    unfold sectorSize at *
    omega
  have hle : pos / sectorSize + 1 ≤ (pos + n + rest) / sectorSize := by
    rw [← hnext]
    exact Nat.div_le_div_right (Nat.le_add_right _ _)
  rw [sectorsAsked, sectorsAsked, hnext, ← Nat.add_assoc, ← List.range'_succ]
  congr 1
  omega

section Read

variable {disk : Disk} (hdisk : disk.primary = true)

include hdisk

theorem diskReadBlock_eq
    (lba : Nat) :
    diskReadBlock disk lba = (0, disk.bytes (lba * sectorSize) sectorSize) := by
  rw [diskReadBlock, if_pos hdisk]

/-- A read that ends before the end of its first sector. -/
theorem diskstreamerRead_inside
    (requested : List Nat) {pos total : Nat}
    (hin : pos % sectorSize + total < sectorSize) :
    diskstreamerRead disk ⟨pos, requested⟩ total =
      if pos + total < 2147483648 then
        .ok (0, ⟨(pos + total : Nat), requested ++ [pos / sectorSize]⟩, disk.bytes pos total)
      else
        .error .fault := by
  have hbytes := disk.take_drop_bytes (pos / sectorSize * sectorSize) (Nat.le_of_lt hin)
  rw [Nat.div_add_mod'] at hbytes
  unfold sectorSize at *
  have hover : ¬ ((pos : Int) % (512 : Nat) + total ≥ (512 : Nat)) := by omega
  have hpart : sectorPart ((pos : Int) % (512 : Nat)) total = total := if_neg hover
  have hoverflow : pos + total ≥ 2147483648 → ¬ IsInt ((pos : Int) + total) := by
    simp only [IsInt]
    omega
  rw [diskstreamerRead]
  simp only [sectorSize, hpart, diskReadBlock_eq hdisk]
  rw [if_neg (by simp only [IsInt]; omega), if_neg (by decide)]
  rcases Nat.lt_or_ge (pos + total) 2147483648 with h | h
  · rw [if_pos h, if_neg (by simp only [IsInt]; omega), if_neg hover]
    simp only [← Int.natCast_ediv, ← Int.natCast_emod, Int.toNat_natCast, hbytes]
    rfl
  · rw [if_pos (hoverflow h), if_neg (Nat.not_lt.mpr h)]

/-- A read that reaches the end of its first sector after `n` bytes goes on
from there. -/
theorem diskstreamerRead_across
    (requested : List Nat) {pos n rest : Nat}
    (hend : pos % sectorSize + n = sectorSize)
    (hint : pos % sectorSize + (n + rest) < 2147483648) :
    diskstreamerRead disk ⟨pos, requested⟩ (n + rest : Nat) =
      if pos + n < 2147483648 then do
        let (res, after, out) ← diskstreamerRead disk
          ⟨(pos + n : Nat), requested ++ [pos / sectorSize]⟩ rest
        pure (res, after, disk.bytes pos n ++ out)
      else
        .error .fault := by
  have hbytes := disk.take_drop_bytes (pos / sectorSize * sectorSize) (Nat.le_of_eq hend)
  rw [Nat.div_add_mod'] at hbytes
  unfold sectorSize at *
  have hover : (pos : Int) % (512 : Nat) + (n + rest : Nat) ≥ (512 : Nat) := by omega
  have hpart : sectorPart ((pos : Int) % (512 : Nat)) (n + rest : Nat) = n := by
    rw [sectorPart_of_overflow hover]
    unfold sectorSize
    omega
  have hoverflow : pos + n ≥ 2147483648 → ¬ IsInt ((pos : Int) + n) := by
    simp only [IsInt]
    omega
  rw [diskstreamerRead]
  simp only [sectorSize, hpart, diskReadBlock_eq hdisk]
  rw [if_neg (by simp only [IsInt]; omega), if_neg (by decide)]
  rcases Nat.lt_or_ge (pos + n) 2147483648 with h | h
  · rw [if_pos h, if_neg (by simp only [IsInt]; omega), if_pos hover]
    simp only [← Int.natCast_ediv, ← Int.natCast_emod, Int.toNat_natCast, hbytes,
      Int.natCast_add, add_sub_cancel_left]
  · rw [if_pos (hoverflow h), if_neg (Nat.not_lt.mpr h)]

/-- A read of a range that ends below `2^31` returns, stores exactly the bytes
of the range and leaves the stream behind it; any other read overflows the
position. -/
theorem diskstreamerRead_eq
    (requested : List Nat) (pos total : Nat)
    (hint : pos % sectorSize + total < 2147483648) :
    diskstreamerRead disk ⟨pos, requested⟩ total =
      if pos + total < 2147483648 then
        .ok (0, ⟨(pos + total : Nat), requested ++ sectorsAsked pos total⟩,
          disk.bytes pos total)
      else
        .error .fault := by
  induction total using Nat.strong_induction_on generalizing pos requested with
  | _ total ih =>
      rcases Nat.lt_or_ge (pos % sectorSize + total) sectorSize with hin | hover
      · rw [diskstreamerRead_inside hdisk requested hin, sectorsAsked_inside hin]
      · have hoff : pos % sectorSize < sectorSize := Nat.mod_lt _ (by decide)
        obtain ⟨n, hend⟩ := Nat.exists_eq_add_of_le (Nat.le_of_lt hoff)
        obtain ⟨rest, rfl⟩ : ∃ rest, total = n + rest :=
          Nat.exists_eq_add_of_le (by omega)
        rw [diskstreamerRead_across hdisk requested hend.symm hint,
          ih rest (by omega) _ (pos + n) (by unfold sectorSize at *; omega),
          sectorsAsked_across hend.symm, ← disk.bytes_append pos n rest]
        split_ifs with h₁ h₂ h₂
        · simp only [ok_bind, List.append_assoc, List.singleton_append, Nat.add_assoc]
          rfl
        · omega
        · omega
        · rfl
        · omega
        · rfl

theorem diskstreamerRead_eq_ok
    (requested : List Nat) {pos total : Nat}
    (h : pos + total < 2147483648) :
    diskstreamerRead disk ⟨pos, requested⟩ total =
      .ok (0, ⟨(pos + total : Nat), requested ++ sectorsAsked pos total⟩,
        disk.bytes pos total) := by
  have hle : pos % sectorSize ≤ pos := Nat.mod_le _ _
  rw [diskstreamerRead_eq hdisk requested pos total (by omega), if_pos h]

end Read

/-- A read stores exactly the bytes asked for, and two reads of its parts
store the same. -/
theorem diskstreamerRead_exact
    (disk : Disk) (hdisk : disk.primary = true)
    (stream : DiskStream) (total : Int)
    (hpos : 0 ≤ stream.pos) (htotal : 0 ≤ total)
    (hend : stream.pos + total < 2147483648) :
    ∃ after,
      diskstreamerRead disk stream total =
        .ok (0, after, disk.bytes stream.pos.toNat total.toNat) ∧
      after.pos = stream.pos + total ∧
      ∀ a b : Int, 0 ≤ a → 0 ≤ b → a + b = total →
        ∃ middle last first second,
          diskstreamerRead disk stream a = .ok (0, middle, first) ∧
          diskstreamerRead disk middle b = .ok (0, last, second) ∧
          first ++ second = disk.bytes stream.pos.toNat total.toNat ∧
          last.pos = after.pos := by
  obtain ⟨start, requested⟩ := stream
  lift start to Nat using hpos with pos
  lift total to Nat using htotal with n
  have hn : pos + n < 2147483648 := by exact_mod_cast hend
  refine ⟨_, diskstreamerRead_eq_ok hdisk requested hn, by simp, ?_⟩
  intro a b ha hb hab
  lift a to Nat using ha with k
  lift b to Nat using hb with m
  have hkm : k + m = n := by exact_mod_cast hab
  refine ⟨_, _, _, _, diskstreamerRead_eq_ok hdisk requested (by omega),
    diskstreamerRead_eq_ok hdisk _ (by omega), ?_, ?_⟩
  · simp only [Int.toNat_natCast, ← hkm]
    exact disk.bytes_append pos k m
  · simp only [← hkm, Nat.add_assoc]

theorem diskstreamerRead_exact_twoSectors :
    ∃ after,
      diskstreamerRead ⟨true, fun i => BitVec.ofNat 8 i⟩ ⟨511, []⟩ 2 = .ok (0, after, [255, 0]) ∧
      after.pos = 513 := by
  obtain ⟨after, hread, hafter, -⟩ := diskstreamerRead_exact ⟨true, fun i => BitVec.ofNat 8 i⟩ rfl
    ⟨511, []⟩ 2 (by decide) (by decide) (by decide)
  exact ⟨after, hread, hafter⟩

theorem mem_sectorsAsked_iff
    {pos total sector : Nat} :
    sector ∈ sectorsAsked pos total ↔
      pos / sectorSize ≤ sector ∧ sector ≤ (pos + total) / sectorSize := by
  have hle : pos / sectorSize ≤ (pos + total) / sectorSize :=
    Nat.div_le_div_right (Nat.le_add_right _ _)
  rw [sectorsAsked, List.mem_range'_1]
  omega

/-- The sectors that bytes of a range lie in. -/
theorem exists_byte_iff
    {pos total sector : Nat} (htotal : 1 ≤ total) :
    (∃ i, pos ≤ i ∧ i < pos + total ∧ i / sectorSize = sector) ↔
      pos / sectorSize ≤ sector ∧ sector ≤ (pos + total - 1) / sectorSize := by
  unfold sectorSize
  constructor
  · rintro ⟨i, hlo, hhi, rfl⟩
    exact ⟨Nat.div_le_div_right hlo, Nat.div_le_div_right (by omega)⟩
  · rintro ⟨hlo, hhi⟩
    exact ⟨max pos (sector * 512), by omega, by omega, by omega⟩

/-- Each sector that the read asks for holds a byte of its range. -/
def AsksNeeded (disk : Disk) (stream : DiskStream) (total : Int) : Prop :=
  ∃ res after out asked, diskstreamerRead disk stream total = .ok (res, after, out) ∧
    after.requested = stream.requested ++ asked ∧
    ∀ sector ∈ asked, ∃ i : Nat, stream.pos ≤ i ∧ i < stream.pos + total ∧
      i / sectorSize = sector

/-- A read asks for needed sectors only if and only if its range does not end
with a sector. -/
theorem diskstreamerRead_asksNeeded_iff
    (disk : Disk) (hdisk : disk.primary = true)
    (stream : DiskStream) (total : Int)
    (hpos : 0 ≤ stream.pos) (htotal : 1 ≤ total)
    (hend : stream.pos + total < 2147483648) :
    AsksNeeded disk stream total ↔ (stream.pos + total) % sectorSize ≠ 0 := by
  obtain ⟨start, requested⟩ := stream
  lift start to Nat using hpos with pos
  lift total to Nat using (by omega) with n
  have hn : pos + n < 2147483648 := by exact_mod_cast hend
  have hone : 1 ≤ n := by exact_mod_cast htotal
  have hread := diskstreamerRead_eq_ok hdisk requested hn
  have hneeded : AsksNeeded disk ⟨pos, requested⟩ n ↔
      ∀ sector ∈ sectorsAsked pos n, ∃ i, pos ≤ i ∧ i < pos + n ∧ i / sectorSize = sector := by
    constructor
    · rintro ⟨res, after, out, asked, hcall, hasked, h⟩
      cases hread.symm.trans hcall
      rw [List.append_cancel_left hasked]
      dsimp only at h
      exact_mod_cast h
    · intro h
      refine ⟨_, _, _, _, hread, rfl, ?_⟩
      dsimp only
      exact_mod_cast h
  rw [hneeded]
  have hlast : (∀ sector ∈ sectorsAsked pos n, ∃ i, pos ≤ i ∧ i < pos + n ∧
      i / sectorSize = sector) ↔ (pos + n) / sectorSize ≤ (pos + n - 1) / sectorSize := by
    simp only [mem_sectorsAsked_iff, exists_byte_iff hone]
    constructor
    · intro h
      exact (h _ ⟨Nat.div_le_div_right (Nat.le_add_right _ _), Nat.le_refl _⟩).2
    · rintro h sector ⟨hlo, hhi⟩
      exact ⟨hlo, Nat.le_trans hhi h⟩
  rw [hlast]
  push_cast [sectorSize]
  omega

/-- The first two bytes of a sector. -/
theorem diskstreamerRead_asksNeeded_iff_inside :
    AsksNeeded ⟨true, fun i => BitVec.ofNat 8 i⟩ ⟨512, []⟩ 2 :=
  (diskstreamerRead_asksNeeded_iff ⟨true, fun i => BitVec.ofNat 8 i⟩ rfl ⟨512, []⟩ 2
    (by decide) (by decide) (by decide)).mpr (by decide)

def AlwaysAsksNeeded : Prop :=
  ∀ disk : Disk, disk.primary = true → ∀ stream total, 0 ≤ stream.pos → 1 ≤ total →
    stream.pos + total < 2147483648 → AsksNeeded disk stream total

/-- A read of the only sector of a disk asks for the one behind it. -/
theorem alwaysAsksNeeded_false : ¬ AlwaysAsksNeeded := by
  intro h
  obtain ⟨res, after, out, asked, hcall, hasked, hneeded⟩ :=
    h ⟨true, fun _ => 0⟩ rfl ⟨0, []⟩ 512 (by decide) (by decide) (by decide)
  have hread := @diskstreamerRead_eq_ok ⟨true, fun _ => 0⟩ rfl [] 0 512 (by decide)
  cases hread.symm.trans hcall
  have hone : 1 ∈ asked := by
    rw [← List.append_cancel_left hasked]
    decide
  obtain ⟨i, -, hi, hsector⟩ := hneeded 1 hone
  dsimp only at hi
  unfold sectorSize at hsector
  omega

end PeachOS
