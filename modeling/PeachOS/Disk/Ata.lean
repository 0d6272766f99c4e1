import Mathlib.Tactic.FinCases
import PeachOS.Disk.Streamer
import PeachOS.Lib.Simulation

/-!
# The disk driver

`disk_read_sector` of `disk.c` and `ata_lba_read` of `boot.asm`, and the drive
they talk to: an ATA drive that is read by PIO with 28-bit sector numbers.  The
drive takes any time to get a sector ready, and answers any status with the bit
DRQ clear meanwhile; it reports an error for a sector behind its last one.

What the documentation of the drive leaves open is `none`: a register that is
written, or a word that is read, at the wrong time, a command other than a
read, and the other drive of the cable.
-/

namespace PeachOS

open Lib

/-- A status with DRQ clear. -/
abbrev BusyStatus := { status : Byte // status &&& 0x08 = 0 }

inductive AtaPhase where
  | idle
  /-- The command ended with an error. -/
  | failed
  /-- The statuses until the data of the sector are ready. -/
  | busy (statuses : List BusyStatus) (sector left : Nat)
  /-- The next word of the sector, with `left` sectors behind it. -/
  | data (word sector left : Nat)

structure AtaDrive where
  content : Nat → Byte
  /-- How many sectors there are. -/
  sectors : Nat
  addressed : sectors ≤ 2 ^ 28
  /-- What the drive answers before the data of the `n`-th sector it reads. -/
  delays : Nat → List BusyStatus
  prepared : Nat := 0
  driveHead : Byte := 0
  sectorCount : Byte := 0
  lbaLow : Byte := 0
  lbaMid : Byte := 0
  lbaHigh : Byte := 0
  phase : AtaPhase := .idle

namespace AtaDrive

/-- The sector that the registers address; four bits of it are in the register
of the drive. -/
def lba (drive : AtaDrive) : Nat :=
  drive.lbaLow.toNat + 2 ^ 8 * drive.lbaMid.toNat + 2 ^ 16 * drive.lbaHigh.toNat +
    2 ^ 24 * (drive.driveHead.toNat % 16)

/-- A count of 0 stands for 256. -/
def count (drive : AtaDrive) : Nat :=
  if drive.sectorCount = 0 then 256 else drive.sectorCount.toNat

/-- Go for the next sector of a command. -/
def prepare (drive : AtaDrive) (sector left : Nat) : AtaDrive :=
  if left = 0 then
    { drive with phase := .idle }
  else if drive.sectors ≤ sector then
    { drive with phase := .failed }
  else
    { drive with
      prepared := drive.prepared + 1
      phase := .busy (drive.delays drive.prepared) sector (left - 1) }

/-- The commands `0x20` and `0x21` of the first drive, with sector numbers; the
second reads without retries. -/
def command (drive : AtaDrive) (v : Byte) : Option AtaDrive :=
  if (v = 0x20 ∨ v = 0x21) ∧ drive.driveHead &&& 0x50 = 0x40 then
    some (drive.prepare drive.lba drive.count)
  else
    none

/-- A byte is written to a port. -/
def write (drive : AtaDrive) (port : Half) (v : Byte) : Option AtaDrive :=
  match drive.phase with
  | .busy .. | .data .. => none
  | .idle | .failed =>
      if port = 0x1F2 then some { drive with sectorCount := v }
      else if port = 0x1F3 then some { drive with lbaLow := v }
      else if port = 0x1F4 then some { drive with lbaMid := v }
      else if port = 0x1F5 then some { drive with lbaHigh := v }
      else if port = 0x1F6 then some { drive with driveHead := v }
      else if port = 0x1F7 then drive.command v
      else none

/-- A byte is read from the port `0x1F7`. -/
def status (drive : AtaDrive) : Byte × AtaDrive :=
  match drive.phase with
  | .idle => (0x50, drive)
  | .failed => (0x51, drive)
  | .busy (s :: ss) sector left => (s.1, { drive with phase := .busy ss sector left })
  | .busy [] sector left => (0x58, { drive with phase := .data 0 sector left })
  | .data .. => (0x58, drive)

/-- A word is read from the port `0x1F0`. -/
def data (drive : AtaDrive) : Option (List Byte × AtaDrive) :=
  match drive.phase with
  | .data word sector left =>
      let pos := sector * sectorSize + 2 * word
      let next :=
        if word + 1 < 256 then { drive with phase := .data (word + 1) sector left }
        else drive.prepare (sector + 1) left
      some ([drive.content pos, drive.content (pos + 1)], next)
  | _ => none

/-- The bytes `[pos, pos + total)` of the drive. -/
def bytes (drive : AtaDrive) (pos total : Nat) : List Byte :=
  (List.range' pos total).map drive.content

end AtaDrive

/-- `outb` of `io.asm` does not load its value, but xors it to what `eax` holds
when it is called: `al` is the low byte of that. -/
def outb (al : Byte) (drive : AtaDrive) (port : Half) (v : Byte) : Option AtaDrive :=
  drive.write port (al ^^^ v)

/-- The loop that waits for DRQ. -/
def diskPoll : Nat → AtaDrive → Option AtaDrive
  | 0, _ => none
  | fuel + 1, drive =>
      let (c, drive) := drive.status
      if c &&& 0x08 ≠ 0 then some drive else diskPoll fuel drive

/-- So many words are read to the buffer. -/
def insw : Nat → AtaDrive → Option (List Byte × AtaDrive)
  | 0, drive => some ([], drive)
  | n + 1, drive => do
      let (word, drive) ← drive.data
      let (words, drive) ← insw n drive
      pure (word ++ words, drive)

/-- The loop over the sectors. -/
def diskReadSectors (fuel : Nat) : Nat → AtaDrive → Option (List Byte × AtaDrive)
  | 0, drive => some ([], drive)
  | n + 1, drive => do
      let drive ← diskPoll fuel drive
      let (sector, drive) ← insw 256 drive
      let (sectors, drive) ← diskReadSectors fuel n drive
      pure (sector ++ sectors, drive)

/-- The status, and what is stored in the buffer.  The `int`s are words here. -/
def diskReadSector
    (fuel : Nat) (al : Fin 6 → Byte) (drive : AtaDrive) (lba total : Word) :
    Option ((Int × List Byte) × AtaDrive) := do
  let drive ← outb (al 0) drive 0x1F6 ((lba.sshiftRight 24 ||| 0xE0).setWidth 8)
  let drive ← outb (al 1) drive 0x1F2 (total.setWidth 8)
  let drive ← outb (al 2) drive 0x1F3 ((lba &&& 0xff).setWidth 8)
  let drive ← outb (al 3) drive 0x1F4 ((lba.sshiftRight 8).setWidth 8)
  let drive ← outb (al 4) drive 0x1F5 ((lba.sshiftRight 16).setWidth 8)
  let drive ← outb (al 5) drive 0x1F7 0x20
  let (buf, drive) ← diskReadSectors fuel total.toInt.toNat drive
  pure ((0, buf), drive)

namespace AtaDrive

variable {drive after : AtaDrive} {fuel sector left n : Nat} {statuses : List BusyStatus}

theorem bytes_succ_word
    (drive : AtaDrive) (pos n : Nat) :
    [drive.content pos, drive.content (pos + 1)] ++ drive.bytes (pos + 2) n =
      drive.bytes pos (n + 2) := by
  simp [bytes, List.range'_succ]

theorem bytes_append
    (drive : AtaDrive) (pos a b : Nat) :
    drive.bytes pos a ++ drive.bytes (pos + a) b = drive.bytes pos (a + b) := by
  rw [bytes, bytes, bytes, ← List.map_append, List.range'_append_1]

/-- The loop waits out the statuses with DRQ clear. -/
theorem diskPoll_busy
    (hphase : drive.phase = .busy statuses sector left) (hfuel : statuses.length < fuel) :
    diskPoll fuel drive = some { drive with phase := .data 0 sector left } := by
  induction statuses generalizing drive fuel with
  | nil =>
      cases fuel with
      | zero => cases hfuel
      | succ fuel =>
          rw [diskPoll, status, hphase]
          rfl
  | cons s ss ih =>
      cases fuel with
      | zero => cases hfuel
      | succ fuel =>
          rw [diskPoll, status, hphase]
          dsimp only
          rw [if_neg (not_not.mpr s.2)]
          exact ih rfl (Nat.lt_of_succ_lt_succ hfuel)

/-- It ends with the data of the sector or not at all. -/
theorem diskPoll_eq_some
    (hphase : drive.phase = .busy statuses sector left)
    (h : diskPoll fuel drive = some after) :
    after = { drive with phase := .data 0 sector left } := by
  induction fuel generalizing drive statuses with
  | zero => cases h
  | succ fuel ih =>
      rw [diskPoll, status, hphase] at h
      cases statuses with
      | nil => exact (Option.some.inj h).symm
      | cons s ss =>
          dsimp only at h
          rw [if_neg (not_not.mpr s.2)] at h
          exact @ih { drive with phase := .busy ss sector left } ss rfl h

/-- Without a command it never ends. -/
theorem diskPoll_ended
    (hphase : drive.phase = .idle ∨ drive.phase = .failed) (fuel : Nat) :
    diskPoll fuel drive = none := by
  induction fuel with
  | zero => rfl
  | succ fuel ih =>
      rw [diskPoll, status]
      rcases hphase with hidle | hfailed
      · rw [hidle]
        exact ih
      · rw [hfailed]
        exact ih

/-- The words of a sector from `word` on. -/
theorem insw_data
    {word : Nat} (hphase : drive.phase = .data word sector left)
    (hn : 0 < n) (hword : word + n = 256) :
    insw n drive = some (drive.bytes (sector * sectorSize + 2 * word) (2 * n),
      drive.prepare (sector + 1) left) := by
  induction n generalizing drive word with
  | zero => cases hn
  | succ n ih =>
      have hbytes := drive.bytes_succ_word (sector * sectorSize + 2 * word) (2 * n)
      rw [insw, data, hphase, Nat.mul_succ, ← hbytes]
      dsimp only [Option.bind_eq_bind, Option.bind_some]
      by_cases hlast : word + 1 < 256
      · rw [if_pos hlast, ih rfl (by omega) (by omega), Nat.mul_succ, ← Nat.add_assoc]
        rfl
      · obtain rfl : n = 0 := by omega
        rw [if_neg hlast]
        rfl

/-- A sector that is asked for and is on the disk. -/
theorem prepare_busy
    (hleft : 0 < left) (hsector : sector < drive.sectors) :
    drive.prepare sector left =
      { drive with
        prepared := drive.prepared + 1
        phase := .busy (drive.delays drive.prepared) sector (left - 1) } := by
  rw [prepare, if_neg (Nat.ne_of_gt hleft), if_neg (Nat.not_le_of_lt hsector)]

/-- The data of a sector that is asked for and is on the disk get ready. -/
theorem exists_diskPoll
    (hleft : 0 < left) (hsector : sector < drive.sectors)
    (hfuel : (drive.delays drive.prepared).length + 1 ≤ fuel) :
    ∃ after, diskPoll fuel (drive.prepare sector left) = some after := by
  rw [prepare_busy hleft hsector]
  exact ⟨_, diskPoll_busy rfl hfuel⟩

theorem prepare_ended
    (h : left = 0 ∨ drive.sectors ≤ sector) :
    (drive.prepare sector left).phase = .idle ∨ (drive.prepare sector left).phase = .failed := by
  rw [prepare]
  split_ifs with hleft hsector
  · exact Or.inl rfl
  · exact Or.inr rfl
  · exact absurd h (not_or.mpr ⟨hleft, hsector⟩)

/-- The drive behind `n` more sectors. -/
def advance (drive : AtaDrive) (n : Nat) : AtaDrive :=
  { drive with prepared := drive.prepared + n }

/-- One sector of a command. -/
theorem readSector_eq
    (hleft : 0 < left) (hsector : sector < drive.sectors)
    (hpoll : diskPoll fuel (drive.prepare sector left) = some after) :
    insw 256 after = some (drive.bytes (sector * sectorSize) sectorSize,
      (drive.advance 1).prepare (sector + 1) (left - 1)) := by
  rw [prepare_busy hleft hsector] at hpoll
  have hafter := diskPoll_eq_some rfl hpoll
  have hphase : after.phase = .data 0 sector (left - 1) := by rw [hafter]
  rw [insw_data hphase (by decide) (by decide), Nat.mul_zero, Nat.add_zero, hafter,
    show 2 * 256 = sectorSize from rfl]
  rfl

theorem bytes_succ_sector
    (drive : AtaDrive) (sector n : Nat) :
    drive.bytes (sector * sectorSize) sectorSize ++
        drive.bytes ((sector + 1) * sectorSize) (n * sectorSize) =
      drive.bytes (sector * sectorSize) ((n + 1) * sectorSize) := by
  rw [Nat.succ_mul sector, drive.bytes_append, Nat.succ_mul, Nat.add_comm sectorSize]

theorem advance_succ
    (drive : AtaDrive) (sector left n : Nat) :
    ((drive.advance 1).advance n).prepare (sector + 1 + n) (left - 1 - n) =
      (drive.advance (n + 1)).prepare (sector + (n + 1)) (left - (n + 1)) := by
  rw [Nat.sub_sub, Nat.add_assoc, Nat.add_comm 1 n, advance, advance, advance]
  dsimp only
  rw [Nat.add_assoc, Nat.add_comm 1 n]

/-- What is read is the sectors asked for, and they are within the command and
on the disk. -/
theorem diskReadSectors_eq_some
    {r : List Byte × AtaDrive}
    (h : diskReadSectors fuel n (drive.prepare sector left) = some r) :
    n ≤ left ∧ (n = 0 ∨ sector + n ≤ drive.sectors) ∧
      r = (drive.bytes (sector * sectorSize) (n * sectorSize),
        (drive.advance n).prepare (sector + n) (left - n)) := by
  induction n generalizing drive sector left r with
  | zero =>
      refine ⟨Nat.zero_le left, Or.inl rfl, (Option.some.inj h).symm.trans ?_⟩
      rw [Nat.zero_mul]
      rfl
  | succ n ih =>
      rw [diskReadSectors] at h
      by_cases hend : left = 0 ∨ drive.sectors ≤ sector
      · rw [diskPoll_ended (prepare_ended hend)] at h
        cases h
      · obtain ⟨hleft, hsector⟩ := not_or.mp hend
        obtain ⟨after, hpoll, h⟩ := Option.bind_eq_some_iff.mp h
        rw [readSector_eq (Nat.pos_of_ne_zero hleft) (Nat.lt_of_not_le hsector) hpoll] at h
        dsimp only [Option.bind_eq_bind, Option.bind_some] at h
        obtain ⟨rest, hrest, h⟩ := Option.bind_eq_some_iff.mp h
        obtain ⟨hle, hon, rfl⟩ := ih hrest
        refine ⟨by omega, Or.inr ?_, ?_⟩
        · change n = 0 ∨ sector + 1 + n ≤ drive.sectors at hon
          omega
        · obtain rfl := Option.some.inj h
          rw [advance_succ]
          exact congrArg (·, _) (drive.bytes_succ_sector sector n)

/-- Enough fuel reads them. -/
theorem diskReadSectors_enough
    (hleft : n ≤ left) (hsector : sector + n ≤ drive.sectors) :
    ∃ k, ∀ fuel, k ≤ fuel → diskReadSectors fuel n (drive.prepare sector left) =
      some (drive.bytes (sector * sectorSize) (n * sectorSize),
        (drive.advance n).prepare (sector + n) (left - n)) := by
  induction n generalizing drive sector left with
  | zero =>
      refine ⟨0, fun fuel _ => ?_⟩
      rw [Nat.zero_mul]
      rfl
  | succ n ih =>
      obtain ⟨k, hk⟩ := @ih (drive.advance 1) (sector + 1) (left - 1)
        (Nat.le_sub_of_add_le hleft) (by rw [Nat.add_assoc, Nat.add_comm 1 n]; exact hsector)
      refine ⟨max k ((drive.delays drive.prepared).length + 1), fun fuel hfuel => ?_⟩
      have hpos : 0 < left := Nat.lt_of_lt_of_le (Nat.succ_pos n) hleft
      have hlt : sector < drive.sectors := Nat.lt_of_lt_of_le (by omega) hsector
      obtain ⟨after, hpoll⟩ := exists_diskPoll hpos hlt ((le_max_right _ _).trans hfuel)
      rw [diskReadSectors, hpoll]
      dsimp only [Option.bind_eq_bind, Option.bind_some]
      rw [readSector_eq hpos hlt hpoll]
      dsimp only [Option.bind_some]
      rw [hk fuel ((le_max_left _ _).trans hfuel), advance_succ]
      exact congrArg (fun bs => some (bs, _)) (drive.bytes_succ_sector sector n)

/-- The registers as they are written before the command. -/
def latch (drive : AtaDrive) (al : Fin 6 → Byte) (lba total : Word) : AtaDrive :=
  { drive with
    driveHead := al 0 ^^^ (lba.sshiftRight 24 ||| 0xE0).setWidth 8
    sectorCount := al 1 ^^^ total.setWidth 8
    lbaLow := al 2 ^^^ (lba &&& 0xff).setWidth 8
    lbaMid := al 3 ^^^ (lba.sshiftRight 8).setWidth 8
    lbaHigh := al 4 ^^^ (lba.sshiftRight 16).setWidth 8 }

/-- A read is the command on these registers and the transfer. -/
theorem diskReadSector_eq
    (hidle : drive.phase = .idle) (al : Fin 6 → Byte) (lba total : Word) :
    diskReadSector fuel al drive lba total =
      ((drive.latch al lba total).command (al 5 ^^^ 0x20)).bind fun drive =>
        (diskReadSectors fuel total.toInt.toNat drive).bind fun r => some ((0, r.1), r.2) := by
  simp [diskReadSector, outb, write, hidle, latch]

/-- What is in `eax` when `outb` is called leaves every byte as it is; two bits
of the register of the drive mean nothing, and the last bit of the command only
forbids retries. -/
structure Harmless (al : Fin 6 → Byte) : Prop where
  driveHead : al 0 &&& 0x5F = 0
  command : al 5 &&& 0xFE = 0
  rest : ∀ i, i ≠ 0 → i ≠ 5 → al i = 0

theorem command_iff :
    ∀ a : Byte, a ^^^ 0x20 = 0x20 ∨ a ^^^ 0x20 = 0x21 ↔ a &&& 0xFE = 0 := by
  decide +kernel

theorem toNat_shift
    (x : Word) {n : Nat} (hn : n ≤ 24) :
    ((x.sshiftRight n).setWidth 8 : Byte).toNat = x.toNat / 2 ^ n % 2 ^ 8 := by
  have h : ((x.sshiftRight n).setWidth 8 : Byte) = (x >>> n).setWidth 8 := by
    refine BitVec.eq_of_getLsbD_eq fun i hi => ?_
    rw [BitVec.getLsbD_setWidth, BitVec.getLsbD_setWidth, BitVec.getLsbD_sshiftRight,
      BitVec.getLsbD_ushiftRight, if_pos (by omega), decide_eq_false (by omega : ¬ 32 ≤ i)]
    rfl
  rw [h, BitVec.toNat_setWidth, BitVec.toNat_ushiftRight, Nat.shiftRight_eq_div_pow]

theorem toNat_low
    (x : Word) :
    ((x &&& 0xff).setWidth 8 : Byte).toNat = x.toNat % 2 ^ 8 := by
  rw [BitVec.toNat_setWidth, BitVec.toNat_and]
  exact (congrArg (· % 2 ^ 8) (Nat.and_two_pow_sub_one_eq_mod x.toNat 8)).trans (Nat.mod_mod _ _)

theorem xor_eq_right_iff
    (a v : Byte) :
    a ^^^ v = v ↔ a = 0 := by
  constructor
  · intro h
    exact (BitVec.xor_left_inj v).mp (h.trans BitVec.zero_xor.symm)
  · rintro rfl
    exact BitVec.zero_xor

theorem driveHead_iff :
    ∀ (a : Byte) (hi : BitVec 4),
      (a ^^^ (hi.setWidth 8 ||| 0xE0)).toNat % 16 = hi.toNat ∧
          (a ^^^ (hi.setWidth 8 ||| 0xE0)) &&& 0x50 = 0x40 ↔
        a &&& 0x5F = 0 := by
  decide +kernel

/-- The drive is asked for the sector exactly when `eax` does no harm to its
number, and the number has 28 bits. -/
theorem latch_lba_iff
    (drive : AtaDrive) (al : Fin 6 → Byte) (lba total : Word) (hlba : lba.toNat < 2 ^ 28) :
    (drive.latch al lba total).lba = lba.toNat ∧
        (drive.latch al lba total).driveHead &&& 0x50 = 0x40 ↔
      al 0 &&& 0x5F = 0 ∧ al 2 = 0 ∧ al 3 = 0 ∧ al 4 = 0 := by
  have hhead : ((lba.sshiftRight 24 ||| 0xE0).setWidth 8 : Byte) =
      (BitVec.ofNat 4 (lba.toNat / 2 ^ 24)).setWidth 8 ||| 0xE0 := by
    have hhi : ((lba.sshiftRight 24).setWidth 8 : Byte) =
        (BitVec.ofNat 4 (lba.toNat / 2 ^ 24)).setWidth 8 := by
      refine BitVec.eq_of_toNat_eq ?_
      rw [toNat_shift lba (Nat.le_refl 24), BitVec.toNat_setWidth, BitVec.toNat_ofNat]
      omega
    rw [BitVec.setWidth_or, hhi]
    rfl
  have hhi : (BitVec.ofNat 4 (lba.toNat / 2 ^ 24)).toNat = lba.toNat / 2 ^ 24 := by
    rw [BitVec.toNat_ofNat]
    omega
  have hmode := driveHead_iff (al 0) (BitVec.ofNat 4 (lba.toNat / 2 ^ 24))
  rw [hhi, ← hhead] at hmode
  have hlow := (al 2 ^^^ (lba &&& 0xff).setWidth 8).isLt
  have hmid := (al 3 ^^^ (lba.sshiftRight 8).setWidth 8).isLt
  have hhigh := (al 4 ^^^ (lba.sshiftRight 16).setWidth 8).isLt
  have hlow' := toNat_low lba
  have hmid' := toNat_shift lba (show 8 ≤ 24 by decide)
  have hhigh' := toNat_shift lba (show 16 ≤ 24 by decide)
  have hparts : (drive.latch al lba total).lba = lba.toNat ↔
      (drive.latch al lba total).driveHead.toNat % 16 = lba.toNat / 2 ^ 24 ∧
        al 2 = 0 ∧ al 3 = 0 ∧ al 4 = 0 := by
    rw [← xor_eq_right_iff (al 2) ((lba &&& 0xff).setWidth 8),
      ← xor_eq_right_iff (al 3) ((lba.sshiftRight 8).setWidth 8),
      ← xor_eq_right_iff (al 4) ((lba.sshiftRight 16).setWidth 8),
      ← BitVec.toNat_inj, ← BitVec.toNat_inj, ← BitVec.toNat_inj, hlow', hmid', hhigh']
    unfold AtaDrive.lba latch
    dsimp only
    omega
  rw [hparts]
  constructor
  · rintro ⟨⟨hhead, hrest⟩, hmode'⟩
    exact ⟨hmode.mp ⟨hhead, hmode'⟩, hrest⟩
  · rintro ⟨hal, hrest⟩
    obtain ⟨hhead, hmode'⟩ := hmode.mpr hal
    exact ⟨⟨hhead, hrest⟩, hmode'⟩

theorem latch_lba_lt
    (drive : AtaDrive) (al : Fin 6 → Byte) (lba total : Word) :
    (drive.latch al lba total).lba < 2 ^ 28 := by
  have hlow := (drive.latch al lba total).lbaLow.isLt
  have hmid := (drive.latch al lba total).lbaMid.isLt
  have hhigh := (drive.latch al lba total).lbaHigh.isLt
  unfold AtaDrive.lba
  omega

/-- It is asked for `total` sectors exactly when there are at most 256 and `eax`
does no harm to their number. -/
theorem latch_count_iff
    (drive : AtaDrive) (al : Fin 6 → Byte) (lba total : Word) :
    (drive.latch al lba total).count = total.toInt.toNat ↔
      0 < total.toInt ∧ total.toInt ≤ 256 ∧ al 1 = 0 := by
  have hcount := (al 1 ^^^ total.setWidth 8 : Byte).isLt
  have htotal : (total.setWidth 8 : Byte).toNat = total.toNat % 2 ^ 8 := BitVec.toNat_setWidth _ _
  have hint := BitVec.toInt_eq_toNat_cond total
  have hlt := total.isLt
  rw [← xor_eq_right_iff (al 1) (total.setWidth 8), ← BitVec.toNat_inj, htotal]
  unfold count latch
  dsimp only
  have hzero : (al 1 ^^^ total.setWidth 8 : Byte) = 0 ↔ (al 1 ^^^ total.setWidth 8).toNat = 0 :=
    BitVec.toNat_inj.symm
  split_ifs with h <;> rw [hzero] at h <;> split_ifs at hint <;> omega

/-- A read that returns. -/
theorem diskReadSector_eq_some
    {al : Fin 6 → Byte} {lba total : Word} {r : (Int × List Byte) × AtaDrive}
    (hidle : drive.phase = .idle)
    (h : diskReadSector fuel al drive lba total = some r) :
    al 5 &&& 0xFE = 0 ∧ (drive.latch al lba total).driveHead &&& 0x50 = 0x40 ∧
      total.toInt.toNat ≤ (drive.latch al lba total).count ∧
      (total.toInt.toNat = 0 ∨
        (drive.latch al lba total).lba + total.toInt.toNat ≤ drive.sectors) ∧
      r.1 = (0, drive.bytes ((drive.latch al lba total).lba * sectorSize)
        (total.toInt.toNat * sectorSize)) ∧
      (r.2.phase = .idle → (drive.latch al lba total).count = total.toInt.toNat) := by
  rw [diskReadSector_eq hidle, command] at h
  split_ifs at h with hcommand
  · rw [Option.bind_some] at h
    obtain ⟨after, hread, h⟩ := Option.bind_eq_some_iff.mp h
    obtain ⟨hle, hon, rfl⟩ := diskReadSectors_eq_some hread
    obtain rfl := Option.some.inj h
    refine ⟨(command_iff _).mp hcommand.1, hcommand.2, hle, hon, rfl, fun hphase => ?_⟩
    by_contra hne
    rw [prepare, if_neg (by omega)] at hphase
    split_ifs at hphase
  · cases h

/-- A read of sectors that are on the disk, with a harmless `eax`. -/
theorem diskReadSector_enough
    {al : Fin 6 → Byte} {lba total : Word}
    (hidle : drive.phase = .idle) (hal : Harmless al)
    (hpos : 0 < total.toInt) (hle : total.toInt ≤ 256)
    (hon : lba.toNat + total.toInt.toNat ≤ drive.sectors) :
    ∃ k after, (after.phase = .idle ∧ after.content = drive.content ∧
        after.sectors = drive.sectors) ∧
      ∀ fuel, k ≤ fuel → diskReadSector fuel al drive lba total =
        some ((0, drive.bytes (lba.toNat * sectorSize) (total.toInt.toNat * sectorSize)),
          after) := by
  have hlba : lba.toNat < 2 ^ 28 := by
    have haddressed := drive.addressed
    omega
  obtain ⟨hsector, hmode⟩ := (latch_lba_iff drive al lba total hlba).mpr
    ⟨hal.driveHead, hal.rest 2 (by decide) (by decide), hal.rest 3 (by decide) (by decide),
      hal.rest 4 (by decide) (by decide)⟩
  have hcount := (latch_count_iff drive al lba total).mpr
    ⟨hpos, hle, hal.rest 1 (by decide) (by decide)⟩
  obtain ⟨k, hk⟩ := @diskReadSectors_enough (drive.latch al lba total) lba.toNat
    (drive.latch al lba total).count total.toInt.toNat (Nat.le_of_eq hcount.symm) hon
  refine ⟨k, ((drive.latch al lba total).advance total.toInt.toNat).prepare
    (lba.toNat + total.toInt.toNat) ((drive.latch al lba total).count - total.toInt.toNat), ?_,
    fun fuel hfuel => ?_⟩
  · rw [prepare, if_pos (by rw [hcount, Nat.sub_self])]
    exact ⟨rfl, rfl, rfl⟩
  · rw [diskReadSector_eq hidle, command,
      if_pos ⟨(command_iff _).mpr hal.command, hmode⟩, hsector,
      Option.bind_some, hk fuel hfuel]
    rfl

/-- Whatever is on the disk, the read stores the sectors that it is asked for,
and the drive can be given another command. -/
def Reads (drive : AtaDrive) (al : Fin 6 → Byte) (lba total : Word) : Prop :=
  ∀ content, ∃ fuel after,
    diskReadSector fuel al { drive with content := content } lba total =
        some ((0, (List.range' (lba.toNat * sectorSize) (total.toInt.toNat * sectorSize)).map
          content), after) ∧
      after.phase = .idle

end AtaDrive

/-- A read of the driver is right exactly when `eax` does no harm, and 1 to 256
sectors are asked for that are all on the disk. -/
theorem diskReadSector_reads_iff
    (drive : AtaDrive) (hidle : drive.phase = .idle) (al : Fin 6 → Byte) (lba total : Word) :
    drive.Reads al lba total ↔
      AtaDrive.Harmless al ∧ 0 < total.toInt ∧ total.toInt ≤ 256 ∧
        lba.toNat + total.toInt.toNat ≤ drive.sectors := by
  constructor
  · intro h
    obtain ⟨fuel, after, hread, hphase⟩ := h fun i => if i = lba.toNat * sectorSize then 1 else 0
    obtain ⟨hcommand, hmode, -, hon, hbuf, hcount⟩ :=
      AtaDrive.diskReadSector_eq_some (by exact hidle) hread
    obtain ⟨hpos, hle, hal⟩ := (drive.latch_count_iff al lba total).mp (hcount hphase)
    have hlt := drive.latch_lba_lt al lba total
    obtain ⟨n, hn⟩ : ∃ n, total.toInt.toNat * sectorSize = n + 1 :=
      ⟨total.toInt.toNat * sectorSize - 1, by unfold sectorSize; omega⟩
    have hfirst := congrArg (fun r => r.2.head?) hbuf
    simp only [AtaDrive.bytes, hn, List.range'_succ, List.map_cons, List.head?_cons,
      Option.some.injEq, if_pos] at hfirst
    have hlba : (drive.latch al lba total).lba = lba.toNat := by
      by_contra hne
      have hzero := hfirst.trans
        (if_neg fun heq => hne (Nat.eq_of_mul_eq_mul_right (by decide) heq))
      exact absurd hzero (by decide)
    obtain ⟨hhead, h2, h3, h4⟩ :=
      (drive.latch_lba_iff al lba total (hlba ▸ hlt)).mp ⟨hlba, hmode⟩
    refine ⟨⟨hhead, hcommand, fun i hi hi' => ?_⟩, hpos, hle, ?_⟩
    · fin_cases i
      · exact absurd rfl hi
      · exact hal
      · exact h2
      · exact h3
      · exact h4
      · exact absurd rfl hi'
    · rw [← hlba]
      exact hon.resolve_left (by omega)
  · rintro ⟨hal, hpos, hle, hon⟩ content
    obtain ⟨k, after, hafter, hk⟩ := @AtaDrive.diskReadSector_enough
      { drive with content := content } al lba total hidle hal hpos hle hon
    exact ⟨k, after, hk k (Nat.le_refl k), hafter.1⟩

/-- A disk of 2000 sectors that is busy for one poll before each. -/
def slowDrive : AtaDrive where
  content := fun i => BitVec.ofNat 8 i
  sectors := 2000
  addressed := by decide
  delays := fun _ => [⟨0x80, by decide⟩]

/-- A 2 left in `eax` at the last call of `outb` makes another command. -/
theorem diskReadSector_reads_iff_slowDrive :
    ¬ slowDrive.Reads (fun i => if i = 5 then 2 else 0) 100 1 := by
  rw [diskReadSector_reads_iff slowDrive rfl]
  exact fun h => absurd h.1.command (by decide)

/-- A call of `disk_read_block`: whether its disk is the one of the kernel, and
what is in `eax` at its calls of `outb`. -/
structure BlockRequest where
  primary : Bool
  al : Fin 6 → Byte
  lba : Word
  total : Word

def AtaDrive.diskReadBlock
    (fuel : Nat) (drive : AtaDrive) (r : BlockRequest) :
    Option ((Int × List Byte) × AtaDrive) :=
  if r.primary then diskReadSector fuel r.al drive r.lba r.total else some ((-eio, []), drive)

/-- The blocks of a disk that a request is for. -/
def Disk.blocks (disk : Disk) (r : BlockRequest) : Int × List Byte :=
  let disk := { disk with primary := r.primary }
  ((diskReadBlock disk r.lba.toNat).1,
    (List.range' r.lba.toNat r.total.toInt.toNat).flatMap fun lba => (diskReadBlock disk lba).2)

/-- The driver can serve the request. -/
def BlockRequest.Served (sectors : Nat) (r : BlockRequest) : Prop :=
  r.primary = true → AtaDrive.Harmless r.al ∧ 0 < r.total.toInt ∧ r.total.toInt ≤ 256 ∧
    r.lba.toNat + r.total.toInt.toNat ≤ sectors

theorem flatMap_blocks
    (disk : Disk) (lba n : Nat) :
    (List.range' lba n).flatMap (fun lba => disk.bytes (lba * sectorSize) sectorSize) =
      disk.bytes (lba * sectorSize) (n * sectorSize) := by
  induction n generalizing lba with
  | zero => rw [Nat.zero_mul]; rfl
  | succ n ih =>
      rw [List.range'_succ, List.flatMap_cons, ih, Nat.succ_mul lba, Disk.bytes_append,
        Nat.succ_mul, Nat.add_comm sectorSize]

/-- Whatever time the drive takes, the driver answers a sequence of requests
with the blocks of the disk. -/
theorem ata_serves_blocks
    (drive : AtaDrive) (hidle : drive.phase = .idle) (requests : List BlockRequest)
    (hserved : ∀ r ∈ requests, r.Served drive.sectors) :
    ∃ n after, after.phase = .idle ∧ ∀ fuel, n ≤ fuel →
      serveM (AtaDrive.diskReadBlock fuel) drive requests =
        some (requests.map (Disk.blocks ⟨true, drive.content⟩), after) := by
  let spec : Unit → BlockRequest → (Int × List Byte) × Unit :=
    fun u r => (Disk.blocks ⟨true, drive.content⟩ r, u)
  have hstep : ∀ (d : AtaDrive) (u : Unit) (r : BlockRequest),
      (d.phase = .idle ∧ d.content = drive.content ∧ d.sectors = drive.sectors) →
      r.Served drive.sectors → ∃ n after,
        (after.phase = .idle ∧ after.content = drive.content ∧ after.sectors = drive.sectors) ∧
        ∀ fuel, n ≤ fuel → d.diskReadBlock fuel r = some ((spec u r).1, after) := by
    rintro d u r ⟨hphase, hcontent, hsectors⟩ hr
    by_cases hprimary : r.primary = true
    · obtain ⟨hal, hpos, hle, hon⟩ := hr hprimary
      obtain ⟨k, after, ⟨hphase', hcontent', hsectors'⟩, hk⟩ :=
        AtaDrive.diskReadSector_enough hphase hal hpos hle (hsectors ▸ hon)
      refine ⟨k, after, ⟨hphase', hcontent'.trans hcontent, hsectors'.trans hsectors⟩,
        fun fuel hfuel => ?_⟩
      have hblocks := flatMap_blocks ⟨true, drive.content⟩ r.lba.toNat r.total.toInt.toNat
      rw [AtaDrive.diskReadBlock, if_pos hprimary, hk fuel hfuel]
      simp only [spec, Disk.blocks, hprimary, diskReadBlock_eq, hblocks]
      rw [AtaDrive.bytes, hcontent]
      rfl
    · refine ⟨0, d, ⟨hphase, hcontent, hsectors⟩, fun fuel _ => ?_⟩
      rw [AtaDrive.diskReadBlock, if_neg hprimary]
      simp [spec, Disk.blocks, diskReadBlock, hprimary]
  obtain ⟨n, after, hafter, hserve⟩ := serve_of_enough hstep (t := ()) ⟨hidle, rfl, rfl⟩
    (admitted_of_forall (fun _ r hr => hserved r hr) ())
  refine ⟨n, after, hafter.1, fun fuel hfuel => ?_⟩
  rw [hserve fuel hfuel, serve_of_const fun _ => rfl]
  rfl

theorem ata_serves_blocks_slowDrive :
    ∃ n after, after.phase = .idle ∧ ∀ fuel, n ≤ fuel →
      serveM (AtaDrive.diskReadBlock fuel) slowDrive
          [⟨true, fun _ => 0, 100, 2⟩, ⟨false, fun _ => 1, 0, 1⟩] =
        some ([⟨true, fun _ => 0, 100, 2⟩, ⟨false, fun _ => 1, 0, 1⟩].map
          (Disk.blocks ⟨true, fun i => BitVec.ofNat 8 i⟩), after) := by
  refine ata_serves_blocks slowDrive rfl [⟨true, fun _ => 0, 100, 2⟩, ⟨false, fun _ => 1, 0, 1⟩]
    fun r hr hprimary => ?_
  rcases List.mem_cons.mp hr with rfl | hr
  · exact ⟨⟨rfl, rfl, fun _ _ _ => rfl⟩, by decide, by decide, by decide⟩
  · obtain rfl := List.mem_singleton.mp hr
    cases hprimary

end PeachOS
