import PeachOS.Disk.Ata

/-!
# Streams over the drive

`diskstreamer_read` on the disk driver: what the layers from the stream down to the
registers of the drive make of reads of any length at any place.  A read asks for the
sector that it ends in as well when it ends with a sector, and the driver waits for
the data of a sector that the drive does not have.
-/

namespace PeachOS

open Lib

/-- A stream, with the drive that its disk is on. -/
structure AtaStream where
  pos : Int
  drive : AtaDrive

namespace AtaStream

/-- `diskstreamer_read`: the status and the bytes stored at `out`, or `none` if it does
not return.  `al n` is what is in `eax` at the calls of `outb` for its `n`-th sector. -/
def read (fuel : Nat) (al : Nat → Fin 6 → Byte) (s : AtaStream) (total : Int) :
    Option ((Int × List Byte) × AtaStream) :=
  let sector := s.pos / sectorSize
  let offset := s.pos % sectorSize
  if s.pos < 0 ∨ ¬ IsInt (offset + total) then
    none
  else do
    let totalToRead := sectorPart offset total
    let ((res, buf), drive) ← s.drive.diskReadBlock fuel ⟨true, al 0, BitVec.ofInt 32 sector, 1⟩
    if res < 0 then
      pure ((res, []), { s with drive := drive })
    else if ¬ IsInt (s.pos + totalToRead) then
      none
    else
      let out := (buf.drop offset.toNat).take totalToRead.toNat
      let moved := ⟨s.pos + totalToRead, drive⟩
      if offset + total ≥ sectorSize then do
        let ((res, rest), after) ← read fuel (fun n => al (n + 1)) moved (total - totalToRead)
        pure ((res, out ++ rest), after)
      else
        pure ((0, out), moved)
termination_by total.toNat
decreasing_by
  have hover : s.pos % sectorSize + total ≥ sectorSize := by assumption
  rw [sectorPart_of_overflow hover]
  change s.pos % 512 + total ≥ 512 at hover
  change (total - (512 - s.pos % 512)).toNat < total.toNat
  omega

/-- A call on a stream. -/
inductive Request where
  | seek (pos : Int)
  | read (al : Nat → Fin 6 → Byte) (total : Int)

def step (fuel : Nat) (s : AtaStream) : Request → Option ((Int × List Byte) × AtaStream)
  | .seek pos => some ((0, []), { s with pos := pos })
  | .read al total => s.read fuel al total

/-- The call on the bytes of a disk, from a position. -/
def spec (disk : Disk) (pos : Int) : Request → (Int × List Byte) × Int
  | .seek pos => ((0, []), pos)
  | .read _ total => ((0, disk.bytes pos.toNat total.toNat), pos + total)

/-- A read of a range of bytes whose positions are `int`s. -/
def Valid (pos : Int) : Request → Prop
  | .seek _ => True
  | .read al total =>
      0 ≤ pos ∧ 0 ≤ total ∧ pos + total < 2147483648 ∧ ∀ n, AtaDrive.Harmless (al n)

/-- There is a byte on the disk behind the ones that are read. -/
def Inside (sectors : Nat) (pos : Int) : Request → Prop
  | .seek _ => True
  | .read _ total => pos + total < sectors * sectorSize

/-- The drive can be given a command, and has the disk. -/
structure Ready (drive : AtaDrive) (content : Nat → Byte) (sectors : Nat) : Prop where
  phase : drive.phase = .idle
  content : drive.content = content
  sectors : drive.sectors = sectors

section Sector

variable {drive : AtaDrive} {content : Nat → Byte} {sectors fuel sector : Nat}
  {al : Fin 6 → Byte}

/-- A read of one sector that returns has read it from the disk. -/
theorem diskReadBlock_eq_some
    {r : (Int × List Byte) × AtaDrive} (h : Ready drive content sectors)
    (hal : AtaDrive.Harmless al) (hsector : sector < 2 ^ 22)
    (hread : drive.diskReadBlock fuel ⟨true, al, BitVec.ofNat 32 sector, 1⟩ = some r) :
    sector < sectors ∧ r.1 = (0, Disk.bytes ⟨true, content⟩ (sector * sectorSize) sectorSize) ∧
      Ready r.2 content sectors := by
  have hnat : (BitVec.ofNat 32 sector).toNat = sector := by
    rw [BitVec.toNat_ofNat]
    omega
  obtain ⟨hlba, -⟩ := (drive.latch_lba_iff al (BitVec.ofNat 32 sector) 1 (by omega)).mpr
    ⟨hal.driveHead, hal.rest 2 (by decide) (by decide), hal.rest 3 (by decide) (by decide),
      hal.rest 4 (by decide) (by decide)⟩
  have hcount := (drive.latch_count_iff al (BitVec.ofNat 32 sector) 1).mpr
    ⟨by decide, by decide, hal.rest 1 (by decide) (by decide)⟩
  have hone : (1 : Word).toInt.toNat = 1 := by decide
  rw [hnat] at hlba
  rw [hone] at hcount
  rw [AtaDrive.diskReadBlock, if_pos rfl, AtaDrive.diskReadSector_eq h.phase] at hread
  obtain ⟨after, hcommand, hread⟩ := Option.bind_eq_some_iff.mp hread
  rw [AtaDrive.command] at hcommand
  split_ifs at hcommand
  obtain rfl := Option.some.inj hcommand
  obtain ⟨r', hsectors, hread⟩ := Option.bind_eq_some_iff.mp hread
  obtain rfl := Option.some.inj hread
  rw [hone, hlba, hcount] at hsectors
  obtain ⟨-, hon, rfl⟩ := AtaDrive.diskReadSectors_eq_some hsectors
  have hlt : sector + 1 ≤ sectors := h.sectors ▸ hon.resolve_left Nat.one_ne_zero
  refine ⟨hlt, ?_, ?_⟩
  · rw [Nat.one_mul, ← h.content]
    rfl
  · rw [AtaDrive.prepare, if_pos (Nat.sub_self 1)]
    exact ⟨rfl, h.content, h.sectors⟩

/-- A sector that is on the disk is read. -/
theorem diskReadBlock_enough
    (h : Ready drive content sectors) (hal : AtaDrive.Harmless al) (hsector : sector < 2 ^ 22)
    (hon : sector < sectors) :
    ∃ k after, Ready after content sectors ∧ ∀ fuel, k ≤ fuel →
      drive.diskReadBlock fuel ⟨true, al, BitVec.ofNat 32 sector, 1⟩ =
        some ((0, Disk.bytes ⟨true, content⟩ (sector * sectorSize) sectorSize), after) := by
  have hnat : (BitVec.ofNat 32 sector).toNat = sector := by
    rw [BitVec.toNat_ofNat]
    omega
  have hone : (1 : Word).toInt.toNat = 1 := by decide
  obtain ⟨k, after, ⟨hphase, hcontent, hsectors⟩, hk⟩ :=
    @AtaDrive.diskReadSector_enough drive al (BitVec.ofNat 32 sector) 1 h.phase hal (by decide)
      (by decide) (by rw [hnat, hone, h.sectors]; exact hon)
  refine ⟨k, after, ⟨hphase, hcontent.trans h.content, hsectors.trans h.sectors⟩,
    fun fuel hfuel => ?_⟩
  rw [AtaDrive.diskReadBlock, if_pos rfl]
  refine (hk fuel hfuel).trans ?_
  rw [hnat, hone, Nat.one_mul, ← h.content]
  rfl

end Sector

section Read

variable {content : Nat → Byte} {sectors fuel pos total : Nat} {al : Nat → Fin 6 → Byte}
  {drive : AtaDrive}

/-- The first sector of a read, and the rest of it. -/
theorem read_eq
    (hint : pos + total < 2147483648) (fuel : Nat) (al : Nat → Fin 6 → Byte) (drive : AtaDrive) :
    read fuel al ⟨pos, drive⟩ total =
      (drive.diskReadBlock fuel ⟨true, al 0, BitVec.ofNat 32 (pos / sectorSize), 1⟩).bind fun r =>
        if r.1.1 < 0 then
          some ((r.1.1, []), ⟨pos, r.2⟩)
        else if pos % sectorSize + total < sectorSize then
          some ((0, (r.1.2.drop (pos % sectorSize)).take total), ⟨(pos + total : Nat), r.2⟩)
        else
          (read fuel (fun n => al (n + 1)) ⟨(pos + (sectorSize - pos % sectorSize) : Nat), r.2⟩
            (total - (sectorSize - pos % sectorSize) : Nat)).bind fun rest =>
              some ((rest.1.1, (r.1.2.drop (pos % sectorSize)).take
                (sectorSize - pos % sectorSize) ++ rest.1.2), rest.2) := by
  have hoff : pos % sectorSize < sectorSize := Nat.mod_lt _ (by decide)
  have hle : pos % sectorSize ≤ pos := Nat.mod_le _ _
  have hoffset : (pos : Int) % (sectorSize : Nat) = (pos % sectorSize : Nat) := rfl
  have hsector : (pos : Int) / (sectorSize : Nat) = (pos / sectorSize : Nat) := rfl
  rw [read]
  dsimp only
  rw [if_neg (by rw [hoffset, IsInt]; omega), hoffset, hsector, BitVec.ofInt_natCast]
  refine congrArg _ (funext fun r => ?_)
  obtain ⟨⟨res, buf⟩, drive'⟩ := r
  dsimp only
  by_cases hres : res < 0
  · rw [if_pos hres, if_pos hres]
    rfl
  · rw [if_neg hres, if_neg hres]
    by_cases hin : pos % sectorSize + total < sectorSize
    · have hpart : sectorPart (pos % sectorSize : Nat) total = total := if_neg (by omega)
      rw [hpart, if_neg (by rw [IsInt]; omega), if_neg (by omega), if_pos hin]
      rfl
    · have hpart : sectorPart (pos % sectorSize : Nat) total =
          (sectorSize - pos % sectorSize : Nat) := by
        rw [sectorPart_of_overflow (by omega)]
        omega
      have hmoved : (pos : Int) + (sectorSize - pos % sectorSize : Nat) =
          (pos + (sectorSize - pos % sectorSize) : Nat) := rfl
      have hrest : (total : Int) - (sectorSize - pos % sectorSize : Nat) =
          (total - (sectorSize - pos % sectorSize) : Nat) := by omega
      rw [hpart, if_neg (by rw [IsInt]; omega), if_pos (by omega), if_neg hin, hmoved, hrest]
      rfl

/-- What is taken from a sector. -/
theorem take_drop_sector
    (disk : Disk) {n : Nat} (h : pos % sectorSize + n ≤ sectorSize) :
    ((disk.bytes (pos / sectorSize * sectorSize) sectorSize).drop (pos % sectorSize)).take n =
      disk.bytes pos n := by
  have hbytes := disk.take_drop_bytes (pos / sectorSize * sectorSize) h
  rwa [Nat.div_add_mod'] at hbytes

/-- A read that returns has found a byte behind the ones that it returns. -/
theorem read_eq_some
    {r : (Int × List Byte) × AtaStream} (h : Ready drive content sectors)
    (hal : ∀ n, AtaDrive.Harmless (al n)) (hint : pos + total < 2147483648)
    (hread : read fuel al ⟨pos, drive⟩ total = some r) :
    pos + total < sectors * sectorSize ∧ r.1 = (0, Disk.bytes ⟨true, content⟩ pos total) ∧
      r.2.pos = (pos + total : Nat) ∧ Ready r.2.drive content sectors := by
  induction total using Nat.strong_induction_on generalizing pos al drive r with
  | _ total ih =>
      have hsector : pos / sectorSize < 2 ^ 22 := Nat.div_lt_of_lt_mul (by rw [sectorSize]; omega)
      have hoff : pos % sectorSize < sectorSize := Nat.mod_lt _ (by decide)
      rw [read_eq hint] at hread
      obtain ⟨block, hblock, hread⟩ := Option.bind_eq_some_iff.mp hread
      obtain ⟨hon, hbuf, hready⟩ := diskReadBlock_eq_some h (hal 0) hsector hblock
      rw [hbuf, if_neg (Int.lt_irrefl 0)] at hread
      dsimp only at hread
      by_cases hin : pos % sectorSize + total < sectorSize
      · rw [if_pos hin, take_drop_sector _ (Nat.le_of_lt hin)] at hread
        obtain rfl := Option.some.inj hread
        refine ⟨?_, rfl, rfl, hready⟩
        unfold sectorSize at *
        omega
      · obtain ⟨m, hm⟩ := Nat.exists_eq_add_of_le (Nat.le_of_lt hoff)
        obtain ⟨rest, rfl⟩ := Nat.exists_eq_add_of_le (by omega : m ≤ total)
        rw [if_neg hin, show sectorSize - pos % sectorSize = m by omega, Nat.add_sub_cancel_left,
          take_drop_sector _ (Nat.le_of_eq hm.symm)] at hread
        obtain ⟨after, hafter, hread⟩ := Option.bind_eq_some_iff.mp hread
        obtain rfl := Option.some.inj hread
        obtain ⟨hend, hbytes, hpos, hready'⟩ :=
          ih rest (by omega) hready (fun n => hal (n + 1)) (by omega) hafter
        rw [hbytes, ← Nat.add_assoc]
        refine ⟨hend, ?_, hpos, hready'⟩
        rw [← Disk.bytes_append]

/-- A read with a byte of the disk behind it returns. -/
theorem read_enough
    (h : Ready drive content sectors) (hal : ∀ n, AtaDrive.Harmless (al n))
    (hint : pos + total < 2147483648) (hend : pos + total < sectors * sectorSize) :
    ∃ k, ∃ after : AtaStream,
      (after.pos = (pos + total : Nat) ∧ Ready after.drive content sectors) ∧
      ∀ fuel, k ≤ fuel → read fuel al ⟨pos, drive⟩ total =
        some ((0, Disk.bytes ⟨true, content⟩ pos total), after) := by
  induction total using Nat.strong_induction_on generalizing pos al drive with
  | _ total ih =>
      have hsector : pos / sectorSize < 2 ^ 22 := Nat.div_lt_of_lt_mul (by rw [sectorSize]; omega)
      have hoff : pos % sectorSize < sectorSize := Nat.mod_lt _ (by decide)
      have hon : pos / sectorSize < sectors := Nat.div_lt_of_lt_mul (by
        rw [Nat.mul_comm]
        omega)
      obtain ⟨k, drive', hready, hk⟩ := diskReadBlock_enough h (hal 0) hsector hon
      by_cases hin : pos % sectorSize + total < sectorSize
      · refine ⟨k, ⟨(pos + total : Nat), drive'⟩, ⟨rfl, hready⟩, fun fuel hfuel => ?_⟩
        rw [read_eq hint, hk fuel hfuel, Option.bind_some]
        dsimp only
        rw [if_neg (Int.lt_irrefl 0), if_pos hin, take_drop_sector _ (Nat.le_of_lt hin)]
      · obtain ⟨m, hm⟩ := Nat.exists_eq_add_of_le (Nat.le_of_lt hoff)
        obtain ⟨rest, rfl⟩ := Nat.exists_eq_add_of_le (by omega : m ≤ total)
        have hrest : pos + m + rest < sectors * sectorSize := by omega
        obtain ⟨k', after, hafter, hk'⟩ :=
          ih rest (by omega) hready (fun n => hal (n + 1)) (by omega) hrest
        rw [Nat.add_assoc] at hafter
        refine ⟨max k k', after, hafter, fun fuel hfuel => ?_⟩
        rw [read_eq hint, hk fuel ((Nat.le_max_left _ _).trans hfuel), Option.bind_some]
        dsimp only
        rw [if_neg (Int.lt_irrefl 0), if_neg hin, show sectorSize - pos % sectorSize = m by omega,
          Nat.add_sub_cancel_left, take_drop_sector _ (Nat.le_of_eq hm.symm),
          hk' fuel ((Nat.le_max_right _ _).trans hfuel), Option.bind_some, ← Disk.bytes_append]

end Read

end AtaStream

/-- From a drive that is ready, a sequence of seeks and reads returns exactly if there is
a byte of the disk behind every range that is read; and when it returns, the answers are
the bytes of the disk. -/
theorem stream_serves_bytes_iff
    (drive : AtaDrive) (hidle : drive.phase = .idle) (pos : Int)
    (requests : List AtaStream.Request)
    (hvalid : Admitted AtaStream.Valid (AtaStream.spec ⟨true, drive.content⟩) pos requests) :
    ((∃ fuel r, serveM (AtaStream.step fuel) ⟨pos, drive⟩ requests = some r) ↔
        Admitted (AtaStream.Inside drive.sectors) (AtaStream.spec ⟨true, drive.content⟩) pos
          requests) ∧
      ∀ fuel r, serveM (AtaStream.step fuel) ⟨pos, drive⟩ requests = some r →
        r.1 = (serve (AtaStream.spec ⟨true, drive.content⟩) pos requests).1 := by
  let R : AtaStream → Int → Prop := fun s pos =>
    s.pos = pos ∧ AtaStream.Ready s.drive drive.content drive.sectors
  have hstart : R ⟨pos, drive⟩ pos := ⟨rfl, hidle, rfl, rfl⟩
  have hreturned (fuel : Nat) : ∀ (s : AtaStream) (t : Int) (o : AtaStream.Request)
      (r : (Int × List Byte) × AtaStream), R s t → AtaStream.Valid t o →
      AtaStream.step fuel s o = some r →
      AtaStream.Inside drive.sectors t o ∧
        r.1 = (AtaStream.spec ⟨true, drive.content⟩ t o).1 ∧
        R r.2 (AtaStream.spec ⟨true, drive.content⟩ t o).2 := by
    rintro ⟨p, d⟩ t o r ⟨rfl, hready⟩ hvalid hstep
    cases o with
    | seek pos =>
        obtain rfl := Option.some.inj hstep
        exact ⟨trivial, rfl, rfl, hready⟩
    | read al total =>
        obtain ⟨hpos, htotal, hint, hal⟩ := hvalid
        lift p to Nat using hpos
        lift total to Nat using htotal
        dsimp only at hint
        obtain ⟨hend, hanswer, hafter⟩ :=
          AtaStream.read_eq_some hready hal (by exact_mod_cast hint) hstep
        refine ⟨?_, hanswer, hafter⟩
        rw [AtaStream.Inside]
        dsimp only
        exact_mod_cast hend
  have henough : ∀ (s : AtaStream) (t : Int) (o : AtaStream.Request), R s t →
      (AtaStream.Valid t o ∧ AtaStream.Inside drive.sectors t o) →
      ∃ n after, R after (AtaStream.spec ⟨true, drive.content⟩ t o).2 ∧
        ∀ fuel, n ≤ fuel → AtaStream.step fuel s o =
          some ((AtaStream.spec ⟨true, drive.content⟩ t o).1, after) := by
    rintro ⟨p, d⟩ t o ⟨rfl, hready⟩ ⟨hvalid, hinside⟩
    cases o with
    | seek pos => exact ⟨0, ⟨pos, d⟩, ⟨rfl, hready⟩, fun _ _ => rfl⟩
    | read al total =>
        obtain ⟨hpos, htotal, hint, hal⟩ := hvalid
        lift p to Nat using hpos
        lift total to Nat using htotal
        rw [AtaStream.Inside] at hinside
        dsimp only at hint hinside
        exact AtaStream.read_enough hready hal (by exact_mod_cast hint) (by exact_mod_cast hinside)
  have hanswers (fuel : Nat) (r : List (Int × List Byte) × AtaStream)
      (hserve : serveM (AtaStream.step fuel) ⟨pos, drive⟩ requests = some r) :=
    admitted_of_serveM (hreturned fuel) hstart hvalid hserve
  refine ⟨⟨?_, fun hinside => ?_⟩, fun fuel r hserve => (hanswers fuel r hserve).2⟩
  · rintro ⟨fuel, r, hserve⟩
    exact (hanswers fuel r hserve).1
  · obtain ⟨n, after, -, hserve⟩ := serve_of_enough henough hstart (hvalid.and hinside)
    exact ⟨n, _, hserve n (Nat.le_refl n)⟩

/-- The last sector of the disk cannot be read to its end. -/
theorem stream_serves_bytes_iff_slowDrive :
    ¬ ∃ fuel r, serveM (AtaStream.step fuel) ⟨0, slowDrive⟩
      [.seek (1999 * 512), .read (fun _ _ => 0) 512] = some r := by
  refine fun h => absurd ((stream_serves_bytes_iff slowDrive rfl 0
    [.seek (1999 * 512), .read (fun _ _ => 0) 512] ⟨trivial, ⟨by decide, by decide, by decide,
      fun _ => ⟨(by decide : (0 : Byte) &&& 0x5F = 0), (by decide : (0 : Byte) &&& 0xFE = 0),
        fun _ _ _ => rfl⟩⟩, trivial⟩).1.mp h).2.1 ?_
  change ¬ ((1999 * 512 : Int) + 512 < (2000 : Nat) * (512 : Nat))
  decide

end PeachOS
