import PeachOS.Lib.ByteMemory
import PeachOS.Memory.Paging

/-!
# Pages as bytes

Page tables are read and written by the word, programs and strings by the byte;
both are views of one memory.
-/

namespace PeachOS

open Lib

/-- The bytes of memory; the low byte of a word comes first. -/
def Pages.bytes (mem : Pages) : Memory := fun addr =>
  (mem (pagingAlignToLowerPage addr)
    ⟨addr.toNat % 4096 / 4, by omega⟩).extractLsb' (8 * (addr.toNat % 4)) 8

/-- Memory after its bytes have been written. -/
def Pages.ofBytes (m : Memory) : Pages := fun page j =>
  load32 m (page + BitVec.ofNat 32 (4 * j))

/-- An address on a page. -/
def OnPage (page addr : Ptr) : Prop :=
  page.toNat ≤ addr.toNat ∧ addr.toNat < page.toNat + pagingPageSize

/-- The bytes of a word of a page. -/
theorem Pages.bytes_word
    (mem : Pages) {page : Ptr} (h : PageAligned page) (j : Fin 1024) {i : Nat} (hi : i < 4)
    {addr : Ptr} (haddr : addr.toNat = page.toNat + 4 * j + i) :
    mem.bytes addr = (mem page j).extractLsb' (8 * i) 8 := by
  unfold PageAligned pagingPageSize at h
  have hlower : pagingAlignToLowerPage addr = page := by
    refine BitVec.eq_of_toNat_eq ?_
    rw [toNat_alignToLowerPage]
    omega
  have hindex : (⟨addr.toNat % 4096 / 4, by omega⟩ : Fin 1024) = j :=
    Fin.ext (by dsimp only; omega)
  have hbyte : addr.toNat % 4 = i := by omega
  rw [Pages.bytes, hlower, hindex, hbyte]

theorem Pages.load32_bytes
    (mem : Pages) {page : Ptr} (h : PageAligned page) (j : Fin 1024) :
    load32 mem.bytes (page + BitVec.ofNat 32 (4 * j)) = mem page j := by
  have hpage := page.isLt
  have hroom : page.toNat + 4096 ≤ 2 ^ 32 := by
    unfold PageAligned pagingPageSize at h
    omega
  have hj := j.isLt
  have hnat (k : Nat) (hk : k < 4) :
      (page + BitVec.ofNat 32 (4 * j) + BitVec.ofNat 32 k).toNat = page.toNat + 4 * j + k := by
    rw [BitVec.toNat_add, BitVec.toNat_add, BitVec.toNat_ofNat, BitVec.toNat_ofNat]
    omega
  have h0 : (page + BitVec.ofNat 32 (4 * j)).toNat = page.toNat + 4 * j + 0 := by
    rw [BitVec.toNat_add, BitVec.toNat_ofNat]
    omega
  have h3 := mem.bytes_word h j (by decide : 3 < 4) (hnat 3 (by decide))
  have h2 := mem.bytes_word h j (by decide : 2 < 4) (hnat 2 (by decide))
  have h1 := mem.bytes_word h j (by decide : 1 < 4) (hnat 1 (by decide))
  rw [load32]
  calc _ = _ ++ _ ++ _ ++ _ := congr_arg₂ _ (congr_arg₂ _ (congr_arg₂ _ h3 h2) h1)
        (mem.bytes_word h j (by decide : 0 < 4) h0)
    _ = mem page j := append_bytes _

/-- What is written as bytes is read as bytes. -/
theorem Pages.bytes_ofBytes (m : Memory) : (Pages.ofBytes m).bytes = m := by
  funext addr
  have haddr := addr.isLt
  have hpage := toNat_alignToLowerPage addr
  rw [Pages.bytes, Pages.ofBytes, extractLsb'_load32 m _ (by omega)]
  refine congrArg m (BitVec.eq_of_toNat_eq ?_)
  rw [BitVec.toNat_add, BitVec.toNat_add, hpage, BitVec.toNat_ofNat, BitVec.toNat_ofNat]
  dsimp only
  omega

/-- A page that no byte is written on. -/
theorem Pages.ofBytes_of_agree
    {mem : Pages} {m : Memory} {page : Ptr} (h : PageAligned page)
    (hm : ∀ addr, OnPage page addr → m addr = mem.bytes addr) :
    Pages.ofBytes m page = mem page := by
  funext j
  have hj := j.isLt
  have hpage := page.isLt
  unfold PageAligned pagingPageSize at h
  rw [Pages.ofBytes, ← mem.load32_bytes h j]
  refine load32_congr fun addr haddr => hm addr ?_
  have hbase : (page + BitVec.ofNat 32 (4 * j)).toNat = page.toNat + 4 * j := by
    rw [BitVec.toNat_add, BitVec.toNat_ofNat]
    omega
  have hadd := toNat_of_sub_lt haddr (by omega)
  rw [OnPage, pagingPageSize]
  omega

end PeachOS
