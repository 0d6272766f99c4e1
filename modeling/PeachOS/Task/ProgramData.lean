import PeachOS.Lib.CInt
import PeachOS.Task.Holdings

/-!
# Reading a program

What a load holds when its program has been read: the file and its record for
an ELF program, the file alone for any other, and nothing of the attempt to
read such a file as ELF.
-/

namespace PeachOS

open Lib

namespace Kernel

/-- The blocks of a program, the first of which is the buffer that its file has
been read to. -/
inductive HoldsProgram (k : Kernel) (record : ProcessRecord) (filesize : Word) :
    Ptr → List Ptr → Prop
  | elf {elfFile : ElfFile} (hfiletype : record.filetype = .elf)
      (hfile : k.elfFiles record.data = some elfFile)
      (hlive : k.pool.live elfFile.elfMemory = some (pagesOf filesize)) :
      HoldsProgram k record filesize elfFile.elfMemory [elfFile.elfMemory, record.data]
  | binary (hfiletype : record.filetype = .binary) (hsize : record.size = filesize)
      (hlive : k.pool.live record.data = some (pagesOf filesize)) :
      HoldsProgram k record filesize record.data [record.data]

section Reading

variable {k k' : Kernel} {program : Program} {process : Ptr}

theorem HoldsProgram.same
    {record record' : ProcessRecord} {filesize : Word} {buffer : Ptr} {bs : List Ptr}
    (h : HoldsProgram k record filesize buffer bs) (hsame : ∀ b ∈ bs, SameBlock k k' b)
    (hfiletype : record'.filetype = record.filetype) (hdata : record'.data = record.data)
    (hsize : record'.size = record.size) :
    HoldsProgram k' record' filesize buffer bs := by
  cases h with
  | elf helf hfile hlive =>
      rw [← hdata] at hsame ⊢
      refine HoldsProgram.elf (hfiletype.trans helf) ?_ ?_
      · rw [(hsame _ (List.mem_cons_of_mem _ List.mem_cons_self)).elfFiles, hdata, hfile]
      · rw [(hsame _ List.mem_cons_self).live, hlive]
  | binary hbinary hfilesize hlive =>
      rw [← hdata] at hsame ⊢
      refine HoldsProgram.binary (hfiletype.trans hbinary) (hsize.trans hfilesize) ?_
      rw [(hsame _ List.mem_cons_self).live, hdata, hlive]

/-- The buffer is one of the blocks. -/
theorem HoldsProgram.buffer_mem
    {record : ProcessRecord} {filesize : Word} {buffer : Ptr} {bs : List Ptr}
    (h : HoldsProgram k record filesize buffer bs) :
    buffer ∈ bs ∧ k.pool.live buffer = some (pagesOf filesize) := by
  cases h with
  | elf _ _ hlive => exact ⟨List.mem_cons_self, hlive⟩
  | binary _ _ hlive => exact ⟨List.mem_cons_self, hlive⟩

theorem fopen_extends
    {taken : List Ptr} {sizes : List Word} (hinv : k.pool.Inv) (hsizes : ∀ size ∈ sizes, size ≠ 0)
    (h : k.fopen taken sizes = (true, k')) :
    ∃ os, Extends k [] os k' ∧ os.length = sizes.length := by
  induction sizes generalizing k taken with
  | nil =>
      cases h
      exact ⟨[], Extends.refl hinv, rfl⟩
  | cons size sizes ih =>
      rw [fopen] at h
      rcases hk : k.kzallocFor .opened size with ⟨p, k₁⟩
      rw [hk] at h
      dsimp only at h
      split_ifs at h with h0
      · cases h
      · have hfirst := extends_opened hinv (hsizes size List.mem_cons_self) hk h0
        obtain ⟨os, hrest, hlength⟩ := ih hfirst.holds.inv
          (fun size' hmem => hsizes size' (List.mem_cons_of_mem _ hmem)) h
        exact ⟨os ++ [p], hfirst.trans hrest, by simp [hlength]⟩

/-- Reading a file writes to its block only. -/
theorem freadProgram_inv
    {p : Ptr} {res : Int} (h : k.freadProgram program p = .ok (res, k')) :
    (program.filesize = 0 ∧ res = -einvarg) ∨
      (program.filesize ≠ 0 ∧ p ≠ 0 ∧ res = 1 ∧
        ∃ m, k' = { k with mem := Pages.ofBytes m } ∧
          ∀ addr, program.filesize.toNat ≤ (addr - p).toNat → m addr = k.mem.bytes addr) := by
  rw [freadProgram] at h
  split_ifs at h with h0 hp
  · cases h
    exact Or.inl ⟨h0, rfl⟩
  · cases h
    exact Or.inr ⟨h0, hp, rfl, _, rfl, fun addr haddr => if_neg (Nat.not_lt.mpr haddr)⟩

/-- A read into a block that is new. -/
theorem Extends.fread
    {bs os : List Ptr} {k₁ : Kernel} {p : Ptr} (h : Extends k bs os k₁) (hp : p ∈ bs)
    (hlive : k₁.pool.live p = some (pagesOf program.filesize)) {m : Memory}
    (hm : ∀ addr, program.filesize.toNat ≤ (addr - p).toNat → m addr = k₁.mem.bytes addr) :
    Extends k bs os { k₁ with mem := Pages.ofBytes m } := by
  refine h.change hp (write_spares h.holds.inv hlive fun addr haddr => hm addr ?_) rfl rfl rfl
  have hupper := (h.holds.inv.placed p _ hlive).upper
  unfold InBlock pagesOf heapAddress heapSizeBytes pagingPageSize at *
  rw [BitVec.toNat_sub]
  omega

theorem elfFileFree_inv
    {file : Ptr} (h : k.elfFileFree file = .ok k') :
    ∃ elfFile, k.elfFiles file = some elfFile ∧
      k' = (if elfFile.elfMemory ≠ 0 then k.kfree elfFile.elfMemory else k).kfree file := by
  obtain ⟨elfFile, hfollow, heq⟩ := bind_eq_ok_iff.mp h
  cases heq
  exact ⟨elfFile, (follow_inv hfollow).2, rfl⟩

/-- What the first reading of a file leaves: the file and its record, or
nothing when it is not an ELF file. -/
structure ElfRead (k : Kernel) (program : Program) (file : Ptr) (res : Int) (os : List Ptr)
    (k' : Kernel) : Prop where
  read : ¬ res < 0 → ∃ elfFile, Extends k [elfFile.elfMemory, file] os k' ∧
    k'.elfFiles file = some elfFile ∧
    k'.pool.live elfFile.elfMemory = some (pagesOf program.filesize)
  refused : res = -einformat → Extends k [] os k'

theorem ElfRead.other
    {file : Ptr} {res : Int} {os : List Ptr} (hneg : res < 0) (hne : res ≠ -einformat) :
    ElfRead k program file res os k' where
  read := fun h => absurd hneg h
  refused := fun h => absurd h hne

theorem elfLoadRead_inv
    {file elfMemory : Ptr} {res : Int} {os : List Ptr} {k₁ : Kernel} {elfFile : ElfFile}
    (hext : program.filesize ≠ 0 → elfMemory ≠ 0 → Extends k [elfMemory, file] os k₁ ∧
      k₁.pool.live elfMemory = some (pagesOf program.filesize))
    (hfile : k₁.elfFiles file = some elfFile) (hmemory : elfFile.elfMemory = elfMemory)
    (h : k₁.elfLoadRead program file elfMemory = .ok (res, k')) :
    ElfRead k program file res os k' := by
  obtain ⟨⟨resRead, k₂⟩, hread, h⟩ := bind_eq_ok_iff.mp h
  obtain ⟨elfFile₂, hfollow, h⟩ := bind_eq_ok_iff.mp h
  have hfile₂ := (follow_inv hfollow).2
  rcases freadProgram_inv hread with ⟨-, rfl⟩ | ⟨hsize, hne, rfl, m, rfl, hm⟩
  · rw [if_pos (by decide)] at h
    obtain ⟨k₃, -, heq⟩ := bind_eq_ok_iff.mp h
    cases heq
    exact ElfRead.other (by decide) (by decide)
  · rw [if_neg (by decide)] at h
    obtain rfl : elfFile = elfFile₂ := Option.some.inj (hfile.symm.trans hfile₂)
    obtain ⟨hext, hlive⟩ := hext hsize hne
    rcases hload : elfProcessLoaded (Pages.ofBytes m).bytes elfFile with ⟨resLoad, elfFile₃⟩
    have hmemory₃ : elfFile₃.elfMemory = elfMemory := by
      have hkept := elfProcessLoaded_elfMemory (Pages.ofBytes m).bytes elfFile
      rwa [hload, hmemory] at hkept
    have hext₃ := (hext.fread List.mem_cons_self hlive hm).change
      (List.mem_cons_of_mem _ List.mem_cons_self) (setElfFile_spares _ file elfFile₃) rfl rfl rfl
    rw [hload] at h
    dsimp only at h
    split_ifs at h with hneg
    · obtain ⟨k₃, hfree, heq⟩ := bind_eq_ok_iff.mp h
      cases heq
      obtain ⟨elfFile₄, hfile₄, rfl⟩ := elfFileFree_inv hfree
      obtain rfl : elfFile₃ = elfFile₄ := by
        rw [setElfFile_elfFiles, if_pos rfl] at hfile₄
        exact Option.some.inj hfile₄
      refine ⟨fun hres => absurd hneg hres, fun _ => ?_⟩
      rw [hmemory₃, if_pos hne]
      exact hext₃.kfree.kfree
    · cases h
      refine ⟨fun _ => ⟨elfFile₃, hmemory₃ ▸ hext₃, if_pos rfl, hmemory₃ ▸ hlive⟩, ?_⟩
      rintro rfl
      exact absurd (by decide) hneg

theorem elfLoad_inv
    {file : Ptr} {res : Int} (hinv : k.pool.Inv)
    (h : k.elfLoad program = .ok (res, file, k')) :
    ∃ os, os.length = program.opened.length ∧ ElfRead k program file res os k' := by
  rw [elfLoad] at h
  rcases hk : k.kzalloc sizeofElfFile with ⟨file', k₁⟩
  rw [hk] at h
  dsimp only at h
  by_cases h0 : file' = 0
  · -- without a record the first access to it is a fault
    rw [if_pos h0, h0] at h
    rcases hopen : k₁.fopen [] program.opened with ⟨opened, k₂⟩
    rw [hopen] at h
    cases opened with
    | false =>
        obtain ⟨k₃, hfree, -⟩ := bind_eq_ok_iff.mp h
        obtain ⟨elfFile, hfollow, -⟩ := bind_eq_ok_iff.mp hfree
        exact absurd rfl (follow_inv hfollow).1
    | true =>
        obtain ⟨elfFile, hfollow, -⟩ := bind_eq_ok_iff.mp h
        exact absurd rfl (follow_inv hfollow).1
  · obtain ⟨hfirst, -⟩ := extends_kzalloc hinv (by decide) hk h0
    have hext₁ := hfirst.change List.mem_cons_self
      (setElfFile_spares k₁ file' ⟨0, 0, 0, 0, 0⟩) rfl rfl rfl
    rw [if_neg h0] at h
    rcases hopen : (k₁.setElfFile file' ⟨0, 0, 0, 0, 0⟩).fopen [] program.opened with ⟨opened, k₂⟩
    rw [hopen] at h
    cases opened with
    | false =>
        obtain ⟨k₃, -, heq⟩ := bind_eq_ok_iff.mp h
        cases heq
        exact ⟨program.opened.map fun _ => 0, by simp, ElfRead.other (by decide) (by decide)⟩
    | true =>
        obtain ⟨os, hopened, hlength⟩ := fopen_extends hext₁.holds.inv program.opened_ne hopen
        have hext₂ := hext₁.trans hopened
        rcases hk₃ : k₂.kzalloc program.filesize with ⟨elfMemory, k₃⟩
        rw [hk₃] at h
        obtain ⟨elfFile, hfollow, h⟩ := bind_eq_ok_iff.mp h
        obtain ⟨⟨resRead, k₄⟩, hread, heq⟩ := bind_eq_ok_iff.mp h
        cases heq
        have hfile : (k₃.setElfFile file { elfFile with elfMemory := elfMemory }).elfFiles file =
            some { elfFile with elfMemory := elfMemory } := if_pos rfl
        refine ⟨os, hlength, elfLoadRead_inv (fun hsize hne => ?_) hfile rfl hread⟩
        obtain ⟨hlast, hlive⟩ := extends_kzalloc hext₂.holds.inv hsize hk₃ hne
        have hext := (hext₂.trans hlast).change
          (List.mem_cons_of_mem _ List.mem_cons_self)
          (setElfFile_spares k₃ file { elfFile with elfMemory := elfMemory }) rfl rfl rfl
        rw [List.append_nil] at hext
        exact ⟨hext, hlive⟩

/-- What is known of a program that has been read, `k₁` being the kernel before
the process is told of it. -/
structure ProgramRead (k : Kernel) (program : Program) (process : Ptr) (record : ProcessRecord)
    (buffer : Ptr) (bs os : List Ptr) (k₁ : Kernel) (record₁ : ProcessRecord) (k' : Kernel) :
    Prop where
  added : Extends k bs os k₁
  held : HoldsProgram k₁ record₁ program.filesize buffer bs
  opened : os = [] ↔ program.opened = []
  after : k' = k₁.setRecord process record₁
  kept : record₁ =
    { record with filetype := record₁.filetype, data := record₁.data, size := record₁.size }

theorem eq_nil_iff_of_length
    {α β : Type} {xs : List α} {ys : List β} (h : xs.length = ys.length) :
    xs = [] ↔ ys = [] := by
  rw [← List.length_eq_zero_iff, ← List.length_eq_zero_iff, h]

/-- The process is there as long as only new blocks change. -/
theorem Extends.record
    {bs os : List Ptr} (h : Extends k bs os k') (hlive : (k.pool.live process).isSome = true)
    {record record' : ProcessRecord} (hrecord : k.records process = some record)
    (hfollow : follow k'.records process = .ok record') :
    record' = record := by
  have hsame := (h.spares process hlive List.not_mem_nil).records
  rw [hrecord, (follow_inv hfollow).2] at hsame
  exact Option.some.inj hsame

theorem processLoadBinary_inv
    (hinv : k.pool.Inv) (hlive : (k.pool.live process).isSome = true)
    {record : ProcessRecord} (hrecord : k.records process = some record) {res : Int}
    (h : k.processLoadBinary program process = .ok (res, k')) (hres : ¬ res < 0) :
    ∃ buffer os k₁ record₁,
      ProgramRead k program process record buffer [buffer] os k₁ record₁ k' := by
  rw [processLoadBinary] at h
  rcases hopen : k.fopen [] program.opened with ⟨opened, k₂⟩
  rw [hopen] at h
  cases opened with
  | false =>
      cases h
      exact absurd (by decide) hres
  | true =>
      obtain ⟨os, hopened, hlength⟩ := fopen_extends hinv program.opened_ne hopen
      rcases hk₃ : k₂.kzalloc program.filesize with ⟨buffer, k₃⟩
      dsimp only at h
      rw [if_neg (by simp), hk₃] at h
      dsimp only at h
      by_cases h0 : buffer = 0
      · rw [if_pos h0] at h
        cases h
        exact absurd (by decide) hres
      · rw [if_neg h0] at h
        obtain ⟨⟨resRead, k₄⟩, hread, h⟩ := bind_eq_ok_iff.mp h
        rcases freadProgram_inv hread with ⟨-, rfl⟩ | ⟨hsize, -, rfl, m, rfl, hm⟩
        · cases h
          exact absurd (by decide) hres
        · obtain ⟨record₄, hfollow, heq⟩ := bind_eq_ok_iff.mp h
          cases heq
          obtain ⟨hlast, hbuffer⟩ := extends_kzalloc hopened.holds.inv hsize hk₃ h0
          have hext := (hopened.trans hlast).fread List.mem_cons_self hbuffer hm
          obtain rfl := hext.record hlive hrecord hfollow
          exact ⟨buffer, os, _, _, hext, HoldsProgram.binary rfl rfl hbuffer,
            eq_nil_iff_of_length hlength, rfl, rfl⟩

theorem processLoadElf_inv
    (hinv : k.pool.Inv) (hlive : (k.pool.live process).isSome = true)
    {record : ProcessRecord} (hrecord : k.records process = some record) {res : Int}
    (h : k.processLoadElf program process = .ok (res, k')) :
    (¬ res < 0 → ∃ buffer bs os k₁ record₁,
      ProgramRead k program process record buffer bs os k₁ record₁ k') ∧
    (res = -einformat → ∃ os, os.length = program.opened.length ∧ Extends k [] os k') := by
  obtain ⟨⟨resLoad, file, k₂⟩, hload, h⟩ := bind_eq_ok_iff.mp h
  obtain ⟨os, hlength, hread⟩ := elfLoad_inv hinv hload
  dsimp only at h
  by_cases hneg : resLoad < 0
  · rw [if_pos hneg] at h
    cases h
    exact ⟨fun h => absurd hneg h, fun h => ⟨os, hlength, hread.refused h⟩⟩
  · rw [if_neg hneg] at h
    obtain ⟨record₂, hfollow, heq⟩ := bind_eq_ok_iff.mp h
    cases heq
    obtain ⟨elfFile, hext, hfile, hbuffer⟩ := hread.read hneg
    obtain rfl := hext.record hlive hrecord hfollow
    refine ⟨fun _ => ⟨elfFile.elfMemory, _, os, k₂, _, hext, HoldsProgram.elf rfl hfile hbuffer,
      eq_nil_iff_of_length hlength, rfl, rfl⟩, ?_⟩
    rintro rfl
    exact absurd (by decide) hneg

/-- A program that has been read is all that its load has added. -/
theorem processLoadData_inv
    (hinv : k.pool.Inv) (hlive : (k.pool.live process).isSome = true)
    {record : ProcessRecord} (hrecord : k.records process = some record) {res : Int}
    (h : k.processLoadData program process = .ok (res, k')) (hres : ¬ res < 0) :
    ∃ buffer bs os k₁ record₁,
      ProgramRead k program process record buffer bs os k₁ record₁ k' := by
  obtain ⟨⟨resElf, k₂⟩, helf, h⟩ := bind_eq_ok_iff.mp h
  obtain ⟨hread, hrefused⟩ := processLoadElf_inv hinv hlive hrecord helf
  dsimp only at h
  by_cases hformat : resElf = -einformat
  · rw [if_pos hformat] at h
    obtain ⟨os, hlength, hext⟩ := hrefused hformat
    have hsame := hext.spares process hlive List.not_mem_nil
    obtain ⟨buffer, os', k₁, record₁, hbinary⟩ :=
      processLoadBinary_inv hext.holds.inv (hsame.live ▸ hlive) (hsame.records.trans hrecord) h hres
    refine ⟨buffer, _, os' ++ os, k₁, record₁, ?_, hbinary.held, ?_, hbinary.after, hbinary.kept⟩
    · have hboth := hext.trans hbinary.added
      rwa [List.append_nil] at hboth
    · rw [List.append_eq_nil_iff, hbinary.opened, eq_nil_iff_of_length hlength, and_self]
  · rw [if_neg hformat] at h
    cases h
    exact hread hres

end Reading

end Kernel

end PeachOS
