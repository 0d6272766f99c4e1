import PeachOS.Disk.Ata
import PeachOS.Lib.ByteStrings

/-!
# The boot loader

`ata_lba_read` of `boot.asm`, by which the boot sector loads the kernel: it
reads `ecx` sectors from the one in `eax` on to the address in `edi`.
-/

namespace PeachOS

open Lib

/-- The writes before the loop; the code sends `al` itself. -/
def ataCommand (drive : AtaDrive) (eax ecx : Word) : Option AtaDrive := do
  let ebx := eax
  let drive ← drive.write 0x1F6 ((eax >>> 24 ||| 0xE0).setWidth 8)
  let drive ← drive.write 0x1F2 (ecx.setWidth 8)
  let drive ← drive.write 0x1F3 (ebx.setWidth 8)
  let drive ← drive.write 0x1F4 ((ebx >>> 8).setWidth 8)
  let drive ← drive.write 0x1F5 ((ebx >>> 16).setWidth 8)
  drive.write 0x1F7 0x20

/-- `rep insw`, with the direction flag clear. -/
def repInsw : Nat → AtaDrive → Memory → Word → Option (Memory × Word × AtaDrive)
  | 0, drive, mem, edi => some (mem, edi, drive)
  | ecx + 1, drive, mem, edi => do
      let (word, drive) ← drive.data
      repInsw ecx drive (storeBytes mem edi word) (edi + 2)

/-- The rounds from `.next_sector` on.  The loop in a round is the one of the
driver, and `ecx` is on the stack meanwhile; `loop` decrements it before it
looks at it. -/
def nextSector (poll : Nat) :
    Nat → AtaDrive → Memory → (ecx edi esp : Word) → Option (Memory × AtaDrive)
  | 0, _, _, _, _, _ => none
  | fuel + 1, drive, mem, ecx, edi, esp => do
      let mem := store32 mem (esp - 4) ecx
      let drive ← diskPoll poll drive
      let (mem, edi, drive) ← repInsw 256 drive mem edi
      let ecx := load32 mem (esp - 4) - 1
      if ecx = 0 then some (mem, drive) else nextSector poll fuel drive mem ecx edi esp

/-- The memory, where `ret` goes, and the drive. -/
def ataLbaRead
    (fuel : Nat) (drive : AtaDrive) (mem : Memory) (eax ecx edi esp : Word) :
    Option (Memory × Word × AtaDrive) := do
  let drive ← ataCommand drive eax ecx
  let (mem, drive) ← nextSector fuel fuel drive mem ecx edi esp
  pure (mem, load32 mem esp, drive)

theorem length_data
    {drive after : AtaDrive} {word : List Byte}
    (h : drive.data = some (word, after)) :
    word.length = 2 := by
  rw [AtaDrive.data] at h
  split at h
  · obtain ⟨rfl, -⟩ := Prod.mk.inj (Option.some.inj h)
    rfl
  · cases h

theorem length_insw
    {n : Nat} {drive after : AtaDrive} {words : List Byte}
    (h : insw n drive = some (words, after)) :
    words.length = 2 * n := by
  induction n generalizing drive after words with
  | zero =>
      obtain ⟨rfl, -⟩ := Prod.mk.inj (Option.some.inj h)
      rfl
  | succ n ih =>
      rw [insw] at h
      obtain ⟨⟨word, next⟩, hword, h⟩ := Option.bind_eq_some_iff.mp h
      obtain ⟨⟨rest, last⟩, hrest, h⟩ := Option.bind_eq_some_iff.mp h
      obtain ⟨rfl, -⟩ := Prod.mk.inj (Option.some.inj h)
      rw [List.length_append, length_data hword, ih hrest]
      omega

theorem toNat_add_ofNat
    {a : Word} {n : Nat} (h : a.toNat + n < 2 ^ 32) :
    (a + BitVec.ofNat 32 n).toNat = a.toNat + n := by
  rw [BitVec.toNat_add, BitVec.toNat_ofNat]
  omega

/-- The words go to memory one behind the other. -/
theorem repInsw_eq
    {n : Nat} {edi : Word} (drive : AtaDrive) (mem : Memory) (hroom : edi.toNat + 2 * n < 2 ^ 32) :
    repInsw n drive mem edi = (insw n drive).map fun r =>
      (storeBytes mem edi r.1, edi + BitVec.ofNat 32 (2 * n), r.2) := by
  induction n generalizing drive mem edi with
  | zero =>
      rw [Nat.mul_zero, BitVec.add_zero]
      rfl
  | succ n ih =>
      rw [repInsw, insw]
      cases hdata : drive.data with
      | none => rfl
      | some r =>
          obtain ⟨word, next⟩ := r
          have hword := length_data hdata
          have hedi : (edi + 2).toNat = edi.toNat + 2 := @toNat_add_ofNat edi 2 (by omega)
          simp only [Option.bind_eq_bind, Option.bind_some]
          rw [ih next _ (by omega)]
          cases hrest : insw n next with
          | none => rfl
          | some r =>
              have happend := @storeBytes_append mem edi word r.1
                (by rw [List.length_append, hword, length_insw hrest]; omega)
              have hend :
                  edi + 2 + BitVec.ofNat 32 (2 * n) = edi + BitVec.ofNat 32 (2 * (n + 1)) := by
                rw [BitVec.add_assoc, Nat.mul_succ, Nat.add_comm (2 * n), BitVec.ofNat_add]
                rfl
              rw [hword] at happend
              simp only [Option.map_some, Option.bind_some, pure, hend, happend]
              rfl

theorem repInsw_sector
    {edi : Word} (drive : AtaDrive) (mem : Memory) (hroom : edi.toNat + sectorSize < 2 ^ 32) :
    repInsw 256 drive mem edi = (insw 256 drive).map fun r =>
      (storeBytes mem edi r.1, edi + BitVec.ofNat 32 sectorSize, r.2) :=
  repInsw_eq drive mem hroom

theorem length_bytes
    (drive : AtaDrive) (pos total : Nat) :
    (drive.bytes pos total).length = total := by
  rw [AtaDrive.bytes, List.length_map, List.length_range']

/-- The stack word of a round and the return address above it are apart from the
`n` sectors behind `edi`. -/
structure StackApart (edi esp : Word) (n : Nat) : Prop where
  room : edi.toNat + n * sectorSize < 2 ^ 32
  below : 4 ≤ esp.toNat
  above : esp.toNat + 4 ≤ 2 ^ 32
  apart : esp.toNat + 4 ≤ edi.toNat ∨ edi.toNat + n * sectorSize ≤ esp.toNat - 4

section Rounds

variable {drive after : AtaDrive} {mem : Memory} {ecx edi esp : Word} {bs : List Byte}
  {fuel poll sector left n : Nat}

theorem StackApart.toNat_next
    (h : StackApart edi esp (n + 1)) :
    (edi + BitVec.ofNat 32 sectorSize).toNat = edi.toNat + sectorSize := by
  have hroom := h.room
  rw [Nat.succ_mul] at hroom
  exact toNat_add_ofNat (by omega)

theorem StackApart.next
    (h : StackApart edi esp (n + 1)) :
    StackApart (edi + BitVec.ofNat 32 sectorSize) esp n := by
  have hroom := h.room
  have hapart := h.apart
  rw [Nat.succ_mul] at hroom hapart
  refine ⟨?_, h.below, h.above, ?_⟩
  · rw [h.toNat_next]
    omega
  · rw [h.toNat_next]
    omega

theorem StackApart.mono
    (h : StackApart edi esp n) (hle : left ≤ n) :
    StackApart edi esp left := by
  have hmul := Nat.mul_le_mul_right sectorSize hle
  refine ⟨Nat.lt_of_le_of_lt (Nat.add_le_add_left hmul _) h.room, h.below, h.above, ?_⟩
  exact h.apart.imp id fun habove => (Nat.add_le_add_left hmul _).trans habove

/-- A count that the drive has sectors for is not one that has wrapped. -/
theorem StackApart.toNat_pred
    (h : StackApart edi esp (n + 1)) (hle : (ecx - 1).toNat ≤ n) :
    ecx.toNat = (ecx - 1).toNat + 1 := by
  have hroom := h.room
  have hlt := ecx.isLt
  have hone : (1 : Word).toNat = 1 := rfl
  unfold sectorSize at hroom
  rw [BitVec.toNat_sub, hone] at hle ⊢
  omega

/-- The return address is apart from the sectors and from the word below it. -/
theorem load32_returnAddress
    (h : StackApart edi esp n) (hle : left ≤ n) (v : Word) (drive : AtaDrive) (pos : Nat) :
    load32 (storeBytes (store32 mem (esp - 4) v) edi (drive.bytes pos (left * sectorSize))) esp =
      load32 mem esp := by
  have h' := h.mono hle
  have hroom := h'.room
  have hbelow := h'.below
  have habove := h'.above
  have hapart := h'.apart
  have hsub := toNat_sub_four hbelow
  rw [load32_storeBytes_of_apart (by rw [length_bytes]; omega) habove
      (by rw [length_bytes]; omega),
    load32_store32_of_ge mem v (by rw [Below]; omega) habove]

/-- The word on the stack is apart from the sector of the round. -/
theorem StackApart.apart_sector
    (h : StackApart edi esp (n + 1)) (hlength : bs.length = sectorSize) :
    edi.toNat + bs.length ≤ 2 ^ 32 ∧ (esp - 4).toNat + 4 ≤ 2 ^ 32 ∧
      ((esp - 4).toNat + 4 ≤ edi.toNat ∨ edi.toNat + bs.length ≤ (esp - 4).toNat) := by
  have hroom := h.room
  have hapart := h.apart
  have hbelow := h.below
  have habove := h.above
  rw [Nat.succ_mul] at hroom hapart
  rw [hlength, toNat_sub_four hbelow]
  omega

/-- One round, with a sector that is there to be read. -/
theorem nextSector_round
    (hapart : StackApart edi esp left) (hleft : 0 < left) (hsector : sector < drive.sectors)
    (hpoll : diskPoll poll (drive.prepare sector left) = some after) :
    nextSector poll (fuel + 1) (drive.prepare sector left) mem ecx edi esp =
      if ecx - 1 = 0 then
        some (storeBytes (store32 mem (esp - 4) ecx) edi
          (drive.bytes (sector * sectorSize) sectorSize),
          (drive.advance 1).prepare (sector + 1) (left - 1))
      else
        nextSector poll fuel ((drive.advance 1).prepare (sector + 1) (left - 1))
          (storeBytes (store32 mem (esp - 4) ecx) edi
            (drive.bytes (sector * sectorSize) sectorSize))
          (ecx - 1) (edi + BitVec.ofNat 32 sectorSize) esp := by
  obtain ⟨n, rfl⟩ := Nat.exists_eq_succ_of_ne_zero (Nat.ne_of_gt hleft)
  have hlength := length_bytes drive (sector * sectorSize) sectorSize
  obtain ⟨hroom, habove, hapart'⟩ := hapart.apart_sector hlength
  have hedi : edi.toNat + sectorSize < 2 ^ 32 := by
    have hlt := hapart.room
    rw [Nat.succ_mul] at hlt
    omega
  rw [nextSector, hpoll]
  dsimp only [Option.bind_eq_bind, Option.bind_some]
  rw [repInsw_sector after _ hedi, AtaDrive.readSector_eq hleft hsector hpoll]
  dsimp only [Option.map_some, Option.bind_some]
  rw [load32_storeBytes_of_apart hroom habove hapart', load32_store32_same]

/-- The memory behind a round and the rounds after it. -/
theorem store_rounds
    {rest : List Byte} (hapart : StackApart edi esp (n + 1)) (hlength : bs.length = sectorSize)
    (hrest : rest.length ≤ n * sectorSize) (v w : Word) :
    storeBytes (store32 (storeBytes (store32 mem (esp - 4) v) edi bs) (esp - 4) w)
        (edi + BitVec.ofNat 32 sectorSize) rest =
      storeBytes (store32 mem (esp - 4) w) edi (bs ++ rest) := by
  obtain ⟨hroom, habove, hapart'⟩ := hapart.apart_sector hlength
  have hlt := hapart.room
  rw [Nat.succ_mul] at hlt
  rw [store32_storeBytes_comm w hroom habove hapart', store32_store32_same,
    storeBytes_append (by rw [List.length_append, hlength]; omega), hlength]

/-- What the rounds of a call that returns have done. -/
theorem nextSector_eq_some
    {r : Memory × AtaDrive} (hapart : StackApart edi esp left)
    (h : nextSector poll fuel (drive.prepare sector left) mem ecx edi esp = some r) :
    0 < ecx.toNat ∧ ecx.toNat ≤ left ∧ sector + ecx.toNat ≤ drive.sectors ∧
      r = (storeBytes (store32 mem (esp - 4) 1) edi
        (drive.bytes (sector * sectorSize) (ecx.toNat * sectorSize)),
        (drive.advance ecx.toNat).prepare (sector + ecx.toNat) (left - ecx.toNat)) := by
  induction fuel generalizing drive mem ecx edi sector left with
  | zero => cases h
  | succ fuel ih =>
      by_cases hend : left = 0 ∨ drive.sectors ≤ sector
      · rw [nextSector, AtaDrive.diskPoll_ended (AtaDrive.prepare_ended hend)] at h
        cases h
      · obtain ⟨hleft, hsector⟩ := not_or.mp hend
        obtain ⟨n, rfl⟩ := Nat.exists_eq_succ_of_ne_zero hleft
        obtain ⟨after, hpoll, -⟩ := Option.bind_eq_some_iff.mp h
        rw [nextSector_round hapart (Nat.succ_pos n) (Nat.lt_of_not_le hsector) hpoll] at h
        split_ifs at h with hone
        · obtain rfl := Option.some.inj h
          obtain rfl : ecx = 1 := by rw [← BitVec.sub_add_cancel ecx 1, hone]; rfl
          exact ⟨by decide, Nat.succ_le_succ (Nat.zero_le n), by
            exact Nat.lt_of_not_le hsector, rfl⟩
        · obtain ⟨hpos, hle, hon, rfl⟩ := ih hapart.next h
          change sector + 1 + _ ≤ drive.sectors at hon
          have hecx : ecx.toNat = (ecx - 1).toNat + 1 := hapart.toNat_pred hle
          have hbytes := drive.bytes_succ_sector sector (ecx - 1).toNat
          have hlength := length_bytes drive (sector * sectorSize) sectorSize
          have hrest : (drive.bytes ((sector + 1) * sectorSize)
              ((ecx - 1).toNat * sectorSize)).length ≤ n * sectorSize := by
            rw [length_bytes]
            exact Nat.mul_le_mul_right _ hle
          refine ⟨by omega, by omega, by omega, ?_⟩
          rw [hecx, ← hbytes, ← store_rounds hapart hlength hrest ecx 1, ← AtaDrive.advance_succ]
          rfl

/-- Enough fuel makes the rounds. -/
theorem nextSector_enough
    (hapart : StackApart edi esp left) (hecx : ecx.toNat = n + 1) (hleft : n + 1 ≤ left)
    (hon : sector + (n + 1) ≤ drive.sectors) :
    ∃ k, ∀ poll fuel, k ≤ poll → n < fuel →
      ∃ r, nextSector poll fuel (drive.prepare sector left) mem ecx edi esp = some r := by
  induction n generalizing drive mem ecx edi sector left with
  | zero =>
      refine ⟨(drive.delays drive.prepared).length + 1, fun poll fuel hpoll hfuel => ?_⟩
      obtain ⟨fuel, rfl⟩ := Nat.exists_eq_succ_of_ne_zero (Nat.ne_of_gt hfuel)
      obtain ⟨after, hready⟩ := AtaDrive.exists_diskPoll hleft hon hpoll
      have hone : ecx - 1 = 0 := by
        rw [show ecx = 1 from BitVec.eq_of_toNat_eq hecx]
        rfl
      rw [nextSector_round hapart hleft hon hready, if_pos hone]
      exact ⟨_, rfl⟩
  | succ n ih =>
      obtain ⟨m, rfl⟩ := Nat.exists_eq_succ_of_ne_zero (Nat.ne_of_gt (Nat.zero_lt_of_lt hleft))
      have hpred : (ecx - 1).toNat = n + 1 := by
        rw [BitVec.toNat_sub, hecx]
        have := ecx.isLt
        change (2 ^ 32 - 1 + _) % _ = _
        omega
      obtain ⟨k, hk⟩ := @ih (drive.advance 1)
        (storeBytes (store32 mem (esp - 4) ecx) edi (drive.bytes (sector * sectorSize) sectorSize))
        (ecx - 1) (edi + BitVec.ofNat 32 sectorSize) (sector + 1) m hapart.next hpred
        (Nat.le_of_succ_le_succ hleft) (by rw [Nat.add_assoc, Nat.add_comm 1]; exact hon)
      refine ⟨max k ((drive.delays drive.prepared).length + 1), fun poll fuel hpoll hfuel => ?_⟩
      obtain ⟨fuel, rfl⟩ := Nat.exists_eq_succ_of_ne_zero (Nat.ne_of_gt (Nat.zero_lt_of_lt hfuel))
      have hlt : sector < drive.sectors := by omega
      obtain ⟨after, hready⟩ :=
        AtaDrive.exists_diskPoll (Nat.succ_pos m) hlt ((le_max_right _ _).trans hpoll)
      have hmore : ecx - 1 ≠ 0 := by
        intro hzero
        rw [hzero] at hpred
        cases hpred
      rw [nextSector_round hapart (Nat.succ_pos m) hlt hready, if_neg hmore]
      exact hk poll fuel ((le_max_left _ _).trans hpoll) (Nat.lt_of_succ_lt_succ hfuel)

end Rounds

/-- The boot loader writes what the driver writes with an `eax` of 0. -/
theorem ataCommand_eq
    {drive : AtaDrive} (hidle : drive.phase = .idle) (eax ecx : Word) :
    ataCommand drive eax ecx = (drive.latch (fun _ => 0) eax ecx).command 0x20 := by
  have hlow : (eax.setWidth 8 : Byte) = (eax &&& 0xff).setWidth 8 := by
    refine BitVec.eq_of_toNat_eq ?_
    rw [AtaDrive.toNat_low, BitVec.toNat_setWidth]
  have hshift : ∀ n : Nat, n ≤ 24 →
      ((eax >>> n).setWidth 8 : Byte) = (eax.sshiftRight n).setWidth 8 := by
    intro n hn
    refine BitVec.eq_of_toNat_eq ?_
    rw [AtaDrive.toNat_shift eax hn, BitVec.toNat_setWidth, BitVec.toNat_ushiftRight,
      Nat.shiftRight_eq_div_pow]
  have hhead : ((eax >>> 24 ||| 0xE0).setWidth 8 : Byte) =
      (eax.sshiftRight 24 ||| 0xE0).setWidth 8 := by
    rw [BitVec.setWidth_or, BitVec.setWidth_or, hshift 24 (by decide)]
  rw [ataCommand, hlow, hhead]
  simp [AtaDrive.write, hidle, AtaDrive.latch, hshift]

section Loading

variable {drive : AtaDrive} {mem : Memory} {eax ecx edi esp : Word} {fuel : Nat}

theorem AtaDrive.count_le
    (drive : AtaDrive) :
    drive.count ≤ 256 := by
  have hlt := drive.sectorCount.isLt
  rw [AtaDrive.count]
  split_ifs
  · exact Nat.le_refl 256
  · omega

/-- A count that fits the register is the one that is asked for. -/
theorem count_latch
    (hpos : 0 < ecx.toNat) (hle : ecx.toNat ≤ 256) :
    (drive.latch (fun _ => 0) eax ecx).count = ecx.toNat := by
  have hint : ecx.toInt = ecx.toNat := BitVec.toInt_eq_toNat_of_lt (by omega)
  have hlatch := (drive.latch_count_iff (fun _ => 0) eax ecx).mpr ⟨by omega, by omega, rfl⟩
  rw [hlatch, hint, Int.toNat_natCast]

theorem ataLbaRead_eq
    (hidle : drive.phase = .idle) (heax : eax.toNat < 2 ^ 28) :
    ataLbaRead fuel drive mem eax ecx edi esp =
      (nextSector fuel fuel ((drive.latch (fun _ => 0) eax ecx).prepare eax.toNat
        (drive.latch (fun _ => 0) eax ecx).count) mem ecx edi esp).map fun r =>
          (r.1, load32 r.1 esp, r.2) := by
  obtain ⟨hsector, hmode⟩ := (drive.latch_lba_iff (fun _ => 0) eax ecx heax).mpr
    ⟨rfl, rfl, rfl, rfl⟩
  rw [ataLbaRead, ataCommand_eq hidle, AtaDrive.command, if_pos ⟨Or.inl rfl, hmode⟩, hsector]
  simp only [Option.bind_eq_bind, Option.bind_some]
  rw [Option.map_eq_bind]
  rfl

end Loading

/-- The boot loader returns exactly when it is asked for 1 to 256 sectors that
are all on the disk, and then they are in memory, whatever time the drive takes;
the stack keeps the last count below the address it returns to. -/
theorem ataLbaRead_loads
    (drive : AtaDrive) (hidle : drive.phase = .idle) (mem : Memory) (eax ecx edi esp : Word)
    (heax : eax.toNat < 2 ^ 28) (hapart : StackApart edi esp 256) :
    ((∃ fuel r, ataLbaRead fuel drive mem eax ecx edi esp = some r) ↔
      0 < ecx.toNat ∧ ecx.toNat ≤ 256 ∧ eax.toNat + ecx.toNat ≤ drive.sectors) ∧
    ∀ fuel r, ataLbaRead fuel drive mem eax ecx edi esp = some r →
      r.1 = storeBytes (store32 mem (esp - 4) 1) edi
          (drive.bytes (eax.toNat * sectorSize) (ecx.toNat * sectorSize)) ∧
        r.2.1 = load32 mem esp ∧ r.2.2.phase = .idle := by
  have hcount := (drive.latch (fun _ => 0) eax ecx).count_le
  have hreturned (fuel : Nat) (r : Memory × Word × AtaDrive)
      (h : ataLbaRead fuel drive mem eax ecx edi esp = some r) :
      ∃ s, nextSector fuel fuel ((drive.latch (fun _ => 0) eax ecx).prepare eax.toNat
          (drive.latch (fun _ => 0) eax ecx).count) mem ecx edi esp = some s ∧
        (s.1, load32 s.1 esp, s.2) = r := by
    rw [ataLbaRead_eq hidle heax] at h
    exact Option.map_eq_some_iff.mp h
  refine ⟨⟨?_, ?_⟩, ?_⟩
  · rintro ⟨fuel, r, h⟩
    obtain ⟨s, hs, -⟩ := hreturned fuel r h
    obtain ⟨hpos, hle, hon, -⟩ := nextSector_eq_some (hapart.mono hcount) hs
    exact ⟨hpos, hle.trans hcount, hon⟩
  · rintro ⟨hpos, hle, hon⟩
    obtain ⟨n, hn⟩ := Nat.exists_eq_succ_of_ne_zero (Nat.ne_of_gt hpos)
    obtain ⟨k, hk⟩ := @nextSector_enough (drive.latch (fun _ => 0) eax ecx) mem ecx edi esp
      eax.toNat (drive.latch (fun _ => 0) eax ecx).count n (hapart.mono hcount) hn
      (by rw [count_latch hpos hle, hn]) (by rw [← Nat.succ_eq_add_one, ← hn]; exact hon)
    obtain ⟨r, hr⟩ := hk (max k (n + 1)) (max k (n + 1)) (le_max_left _ _)
      (Nat.lt_of_succ_le (le_max_right _ _))
    refine ⟨max k (n + 1), (r.1, load32 r.1 esp, r.2), ?_⟩
    rw [ataLbaRead_eq hidle heax, hr, Option.map_some]
  · intro fuel r h
    obtain ⟨s, hs, rfl⟩ := hreturned fuel r h
    obtain ⟨hpos, hle, -, rfl⟩ := nextSector_eq_some (hapart.mono hcount) hs
    refine ⟨rfl, ?_, ?_⟩
    · exact load32_returnAddress hapart (hle.trans hcount) ..
    · change (AtaDrive.prepare _ _ _).phase = .idle
      rw [count_latch hpos (hle.trans hcount), AtaDrive.prepare, if_pos (Nat.sub_self _)]

/-- The kernel, as the boot sector loads it. -/
theorem ataLbaRead_loads_slowDrive :
    ∃ fuel r, ataLbaRead fuel slowDrive (fun _ => 0) 1 100 0x0100000 0x7BFC = some r :=
  (ataLbaRead_loads slowDrive rfl (fun _ => 0) 1 100 0x0100000 0x7BFC (by decide)
    ⟨by decide, by decide, by decide, by decide⟩).1.mpr ⟨by decide, by decide, by decide⟩

end PeachOS
