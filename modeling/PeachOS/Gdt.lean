import Mathlib.Data.BitVec
import Mathlib.Tactic.IntervalCases
import PeachOS.Config
import PeachOS.Lib.CInt

/-!
# The global descriptor table

`encodeGdtEntry` of `gdt.c` packs a base, a limit and a type into the eight
bytes of a segment descriptor.  Against it stands what the processor reads in
such bytes.
-/

namespace PeachOS

open Lib

structure GdtStructured where
  base : Word
  limit : Word
  type : Byte
deriving DecidableEq, Repr

abbrev Descriptor := Vector Byte 8

def encodeGdtEntry (target : Descriptor) (source : GdtStructured) :
    Except Halt Descriptor :=
  if source.limit > 65536 ∧ source.limit &&& 0xFFF ≠ 0xFFF then
    .error .panic
  else
    let target := target.set 6 0x40
    let (limit, target) :=
      if source.limit > 65536 then
        (source.limit >>> 12, target.set 6 0xC0)
      else
        (source.limit, target)
    let target := target.set 0 ((limit &&& 0xFF).setWidth 8)
    let target := target.set 1 (((limit >>> 8) &&& 0xFF).setWidth 8)
    -- The assignment replaces the flags set above.
    let target := target.set 6 (((limit >>> 16) &&& 0x0F).setWidth 8)
    let target := target.set 2 ((source.base &&& 0xFF).setWidth 8)
    let target := target.set 3 (((source.base >>> 8) &&& 0xFF).setWidth 8)
    let target := target.set 4 (((source.base >>> 16) &&& 0xFF).setWidth 8)
    let target := target.set 7 (((source.base >>> 24) &&& 0xFF).setWidth 8)
    .ok (target.set 5 source.type)

def gdtStructredToGdt (gdt : List Descriptor) (structured : List GdtStructured) :
    Except Halt (List Descriptor) :=
  (gdt.zip structured).mapM fun entry => encodeGdtEntry entry.1 entry.2

/-- The segments of `kernel.c`, with the address and the size of the `tss`. -/
def gdtStructured (tss sizeofTss : Word) : List GdtStructured :=
  [⟨0x00, 0x00, 0x00⟩, ⟨0x00, 0xffffffff, 0x9a⟩, ⟨0x00, 0xffffffff, 0x92⟩,
    ⟨0x00, 0xffffffff, 0xf8⟩, ⟨0x00, 0xffffffff, 0xf2⟩, ⟨tss, sizeofTss, 0xE9⟩]

namespace Descriptor

def base (t : Descriptor) : Nat :=
  t[2].toNat + 2 ^ 8 * t[3].toNat + 2 ^ 16 * t[4].toNat + 2 ^ 24 * t[7].toNat

def access (t : Descriptor) : Byte := t[5]

def granular (t : Descriptor) : Prop := t[6] &&& 0x80 ≠ 0

instance (t : Descriptor) : Decidable t.granular :=
  inferInstanceAs (Decidable (_ ≠ _))

def is32Bit (t : Descriptor) : Prop := t[6] &&& 0x40 ≠ 0

instance (t : Descriptor) : Decidable t.is32Bit :=
  inferInstanceAs (Decidable (_ ≠ _))

/-- The field of 20 bits. -/
def rawLimit (t : Descriptor) : Nat :=
  t[0].toNat + 2 ^ 8 * t[1].toNat + 2 ^ 16 * (t[6] &&& 0x0F).toNat

def limit (t : Descriptor) : Nat :=
  if t.granular then t.rawLimit * 4096 + 4095 else t.rawLimit

end Descriptor

/-- The limits that do not panic. -/
def GdtStructured.Admitted (source : GdtStructured) : Prop :=
  source.limit ≤ 65536 ∨ source.limit &&& 0xFFF = 0xFFF

instance (source : GdtStructured) : Decidable source.Admitted :=
  inferInstanceAs (Decidable (_ ∨ _))

/-- A descriptor says what it was built from. -/
structure Describes (t : Descriptor) (source : GdtStructured) : Prop where
  base : t.base = source.base.toNat
  access : t.access = source.type
  limit : t.limit = source.limit.toNat
  is32Bit : t.is32Bit

/-- The low `k` bits of a word, kept in a byte. -/
theorem toNat_lowBits
    (x : Word) {k : Nat}
    (hk : k ≤ 8) :
    ((x &&& BitVec.ofNat 32 (2 ^ k - 1)).setWidth 8 : Byte).toNat = x.toNat % 2 ^ k := by
  have hpow : 2 ^ k ≤ 2 ^ 8 := Nat.pow_le_pow_right (by decide) hk
  have hmask : 2 ^ k - 1 < 2 ^ 32 := by omega
  have hlow : x.toNat % 2 ^ k < 2 ^ 8 :=
    Nat.lt_of_lt_of_le (Nat.mod_lt _ (Nat.two_pow_pos k)) hpow
  rw [BitVec.toNat_setWidth, BitVec.toNat_and, BitVec.toNat_ofNat, Nat.mod_eq_of_lt hmask,
    Nat.and_two_pow_sub_one_eq_mod, Nat.mod_eq_of_lt hlow]

theorem toNat_byteOf
    (x : Word) :
    ((x &&& 0xFF).setWidth 8 : Byte).toNat = x.toNat % 256 :=
  toNat_lowBits x (k := 8) (by decide)

theorem toNat_nibbleOf
    (x : Word) :
    ((x &&& 0x0F).setWidth 8 : Byte).toNat = x.toNat % 16 :=
  toNat_lowBits x (k := 4) (by decide)

theorem toNat_shift
    (x : Word) (n : Nat) :
    (x >>> n).toNat = x.toNat / 2 ^ n := by
  rw [BitVec.toNat_ushiftRight, Nat.shiftRight_eq_div_pow]

theorem nibble_flags :
    ∀ b : Byte, b.toNat < 16 → b &&& 0x0F = b ∧ b &&& 0x40 = 0 ∧ b &&& 0x80 = 0 := by
  decide

/-- The limit that is stored: whole pages where it is above the seam. -/
def storedLimit (source : GdtStructured) : Word :=
  if source.limit > 65536 then source.limit >>> 12 else source.limit

theorem storedLimit_lt
    (source : GdtStructured) :
    (storedLimit source).toNat < 2 ^ 20 := by
  have hlt := source.limit.isLt
  rw [storedLimit]
  split_ifs with h
  · rw [toNat_shift]
    omega
  · have : source.limit.toNat ≤ 65536 := by simpa [BitVec.le_def] using h
    omega

/-- The bytes that are left when the last of them is written. -/
def encodedEntry (source : GdtStructured) : Descriptor :=
  #v[(storedLimit source &&& 0xFF).setWidth 8,
    ((storedLimit source >>> 8) &&& 0xFF).setWidth 8,
    (source.base &&& 0xFF).setWidth 8,
    ((source.base >>> 8) &&& 0xFF).setWidth 8,
    ((source.base >>> 16) &&& 0xFF).setWidth 8,
    source.type,
    ((storedLimit source >>> 16) &&& 0x0F).setWidth 8,
    ((source.base >>> 24) &&& 0xFF).setWidth 8]

theorem set_bytes
    (target : Descriptor) (flags b0 b1 b2 b3 b4 b5 b6 b7 : Byte) :
    (((((((((target.set 6 flags).set 0 b0).set 1 b1).set 6 b6).set 2 b2).set 3 b3).set 4 b4).set
      7 b7).set 5 b5) = #v[b0, b1, b2, b3, b4, b5, b6, b7] := by
  refine Vector.ext fun i hi => ?_
  interval_cases i <;> simp

theorem encodeGdtEntry_eq
    (target : Descriptor) {source : GdtStructured}
    (h : source.Admitted) :
    encodeGdtEntry target source = .ok (encodedEntry source) := by
  have hadmitted : ¬ (source.limit > 65536 ∧ source.limit &&& 0xFFF ≠ 0xFFF) := by
    rintro ⟨hlarge, hlow⟩
    exact h.elim (BitVec.not_le.mpr hlarge) hlow
  by_cases hlarge : source.limit > 65536
  · have hstored : storedLimit source = source.limit >>> 12 := if_pos hlarge
    simp only [encodeGdtEntry, if_neg hadmitted, if_pos hlarge, set_bytes, encodedEntry, hstored]
  · have hstored : storedLimit source = source.limit := if_neg hlarge
    simp only [encodeGdtEntry, if_neg hadmitted, if_neg hlarge, set_bytes, encodedEntry, hstored]

/-- The table is built from its segments alone, whatever it held. -/
theorem gdtStructredToGdt_eq
    {gdt : List Descriptor} {structured : List GdtStructured}
    (hlength : gdt.length = structured.length) (h : ∀ source ∈ structured, source.Admitted) :
    gdtStructredToGdt gdt structured = .ok (structured.map encodedEntry) := by
  induction structured generalizing gdt with
  | nil =>
      rw [gdtStructredToGdt, List.zip_nil_right]
      rfl
  | cons source structured ih =>
      obtain ⟨target, gdt, rfl⟩ := List.exists_cons_of_length_eq_add_one hlength
      have hrest := ih (Nat.succ.inj hlength) fun source' hmem =>
        h source' (List.mem_cons_of_mem source hmem)
      rw [gdtStructredToGdt] at hrest ⊢
      rw [List.zip_cons_cons, List.mapM_cons, encodeGdtEntry_eq target (h source List.mem_cons_self),
        hrest]
      rfl

theorem encodedEntry_base
    (source : GdtStructured) :
    (encodedEntry source).base = source.base.toNat := by
  have hlt := source.base.isLt
  change ((source.base &&& 0xFF).setWidth 8 : Byte).toNat +
    2 ^ 8 * (((source.base >>> 8) &&& 0xFF).setWidth 8 : Byte).toNat +
    2 ^ 16 * (((source.base >>> 16) &&& 0xFF).setWidth 8 : Byte).toNat +
    2 ^ 24 * (((source.base >>> 24) &&& 0xFF).setWidth 8 : Byte).toNat = _
  simp only [toNat_byteOf, toNat_shift]
  omega

/-- The high byte of the limit holds a nibble of it and nothing else. -/
theorem encodedEntry_nibble
    (source : GdtStructured) :
    (encodedEntry source)[6].toNat = (storedLimit source).toNat / 2 ^ 16 % 16 := by
  change (((storedLimit source >>> 16) &&& 0x0F).setWidth 8 : Byte).toNat = _
  rw [toNat_nibbleOf, toNat_shift]

theorem encodedEntry_flags
    (source : GdtStructured) :
    (encodedEntry source)[6] &&& (0x0F : Byte) = (encodedEntry source)[6] ∧
      ¬ (encodedEntry source).is32Bit ∧ ¬ (encodedEntry source).granular := by
  have hlt : (encodedEntry source)[6].toNat < 16 := by
    rw [encodedEntry_nibble]
    exact Nat.mod_lt _ (by decide)
  obtain ⟨hlow, hflag, hgranular⟩ := nibble_flags _ hlt
  exact ⟨hlow, not_not.mpr hflag, not_not.mpr hgranular⟩

theorem encodedEntry_rawLimit
    (source : GdtStructured) :
    (encodedEntry source).rawLimit = (storedLimit source).toNat := by
  have hlt := storedLimit_lt source
  rw [Descriptor.rawLimit, (encodedEntry_flags source).1, encodedEntry_nibble]
  change ((storedLimit source &&& 0xFF).setWidth 8 : Byte).toNat +
    2 ^ 8 * (((storedLimit source >>> 8) &&& 0xFF).setWidth 8 : Byte).toNat + _ = _
  simp only [toNat_byteOf, toNat_shift]
  omega

theorem encodedEntry_limit
    (source : GdtStructured) :
    (encodedEntry source).limit = (storedLimit source).toNat := by
  rw [Descriptor.limit, if_neg (encodedEntry_flags source).2.2, encodedEntry_rawLimit]

/-- Without its granularity a limit above the seam is read as another. -/
theorem storedLimit_eq_iff
    (source : GdtStructured) :
    (storedLimit source).toNat = source.limit.toNat ↔ source.limit ≤ 65536 := by
  rw [storedLimit]
  split_ifs with h
  · have hlarge : 65536 < source.limit.toNat := by simpa [BitVec.lt_def] using h
    refine iff_of_false ?_ (BitVec.not_le.mpr h)
    rw [toNat_shift]
    omega
  · exact iff_of_true rfl (BitVec.not_lt.mp h)

def GdtRoundTrips : Prop :=
  ∀ (target : Descriptor) (source : GdtStructured), source.Admitted →
    ∃ t, encodeGdtEntry target source = .ok t ∧ Describes t source

/-- The kernel's own code segment is not read as 32-bit code. -/
theorem gdtRoundTrips_false : ¬ GdtRoundTrips := by
  intro h
  obtain ⟨t, hencode, hdescribes⟩ := h (Vector.replicate 8 0) ⟨0, 0xffffffff, 0x9a⟩ (by decide)
  have ht : t = encodedEntry ⟨0, 0xffffffff, 0x9a⟩ := by
    rw [encodeGdtEntry_eq _ (by decide)] at hencode
    exact (Except.ok.inj hencode).symm
  exact absurd hdescribes.is32Bit (ht ▸ by decide)

/-- The base and the type can be read back, and so can a limit up to the seam;
the flags are lost for every segment. -/
theorem encodeGdtEntry_losesFlags
    (target : Descriptor) (source : GdtStructured)
    (h : source.Admitted) :
    ∃ t, encodeGdtEntry target source = .ok t ∧ ¬ Describes t source ∧
      t.base = source.base.toNat ∧ t.access = source.type ∧ ¬ t.is32Bit ∧
      (t.limit = source.limit.toNat ↔ source.limit ≤ 65536) := by
  have hflags := encodedEntry_flags source
  refine ⟨encodedEntry source, encodeGdtEntry_eq target h, ?_, encodedEntry_base source, rfl,
    hflags.2.1, ?_⟩
  · exact fun hdescribes => hflags.2.1 hdescribes.is32Bit
  · rw [encodedEntry_limit]
    exact storedLimit_eq_iff source

theorem encodeGdtEntry_losesFlags_kernelData :
    ∃ t, encodeGdtEntry (Vector.replicate 8 0) ⟨0, 0xffffffff, 0x92⟩ = .ok t ∧
      ¬ Describes t ⟨0, 0xffffffff, 0x92⟩ := by
  obtain ⟨t, hencode, hnot, -⟩ :=
    encodeGdtEntry_losesFlags (Vector.replicate 8 0) ⟨0, 0xffffffff, 0x92⟩ (by decide)
  exact ⟨t, hencode, hnot⟩

/-- No segment of the kernel has its flags. -/
theorem gdtStructured_losesFlags
    {gdt : List Descriptor} (hlength : gdt.length = 6) (tss : Word) {sizeofTss : Word}
    (htss : sizeofTss ≤ 65536) :
    ∃ ts, gdtStructredToGdt gdt (gdtStructured tss sizeofTss) = .ok ts ∧
      ∀ t ∈ ts, ¬ t.is32Bit ∧ ¬ t.granular := by
  have hadmitted : ∀ source ∈ gdtStructured tss sizeofTss, source.Admitted := by
    rw [gdtStructured]
    simp only [List.forall_mem_cons]
    exact ⟨by decide, by decide, by decide, by decide, by decide, Or.inl htss,
      List.forall_mem_nil _⟩
  refine ⟨_, gdtStructredToGdt_eq hlength hadmitted, fun t hmem => ?_⟩
  obtain ⟨source, -, rfl⟩ := List.mem_map.mp hmem
  exact (encodedEntry_flags source).2

end PeachOS
