import Goldfish.Nand.Checks
import Goldfish.Nand.Client

/-!
# The driver refines the page store

The device answers every call of a client as the page store does, and stays
a layout of it.
-/

namespace Goldfish.Nand

/-! ## Geometry -/

section Translation

variable {mtd : MtdInfo} {info : DevInfo} {ofs : U64} {n : ℕ}

theorem Geometry.page_fits (hg : Geometry mtd info) (hofs : InDevice mtd ofs n) :
    dataCell mtd.writesize.toNat mtd.oobsize.toNat (pageOf mtd.writesize.toNat ofs) +
      (mtd.writesize.toNat + mtd.oobsize.toNat) ≤ info.rawSize.toNat := hg.page_end hofs.lt

theorem Geometry.pages_fit (hg : Geometry mtd info) (hofs : InDevice mtd ofs n)
    (hn : n % mtd.writesize.toNat = 0) :
    dataCell mtd.writesize.toNat mtd.oobsize.toNat (pageOf mtd.writesize.toNat ofs) +
      n / mtd.writesize.toNat * (mtd.writesize.toNat + mtd.oobsize.toNat) ≤ info.rawSize.toNat := by
  have hle := hofs.le
  have hpos := hg.writesize_pos
  rw [hg.size, ← Nat.div_mul_cancel (Nat.dvd_of_mod_eq_zero hofs.aligned),
    ← Nat.div_mul_cancel (Nat.dvd_of_mod_eq_zero hn), ← Nat.add_mul] at hle
  have hpages := Nat.le_of_mul_le_mul_right hle hpos
  calc
    _ = (pageOf mtd.writesize.toNat ofs + n / mtd.writesize.toNat) *
          (mtd.writesize.toNat + mtd.oobsize.toNat) := by
      rw [Nat.add_mul]
      rfl
    _ ≤ info.rawSize.toNat / (mtd.writesize.toNat + mtd.oobsize.toNat) *
          (mtd.writesize.toNat + mtd.oobsize.toNat) := Nat.mul_le_mul_right _ hpages
    _ ≤ info.rawSize.toNat := Nat.div_mul_le_self _ _

/-- A raw address that starts page `p`, with the whole page in the device. -/
structure AtPage (mtd : MtdInfo) (info : DevInfo) (addr : U64) (p : ℕ) : Prop where
  cell : addr.toNat = dataCell mtd.writesize.toNat mtd.oobsize.toNat p
  fits : dataCell mtd.writesize.toNat mtd.oobsize.toNat p +
    (mtd.writesize.toNat + mtd.oobsize.toNat) ≤ info.rawSize.toNat

theorem Geometry.atPage (hg : Geometry mtd info) (hofs : InDevice mtd ofs n) :
    AtPage mtd info (pageAddress mtd ofs) (pageOf mtd.writesize.toNat ofs) :=
  ⟨hg.pageAddress_eq hofs.lt, hg.page_fits hofs⟩

theorem InDevice.not_over {len : U32} (hofs : InDevice mtd ofs len.toNat) :
    ¬ ofs + len.setWidth 64 > mtd.size := by
  have hle := hofs.le
  have hlen := len.isLt
  have hsize := mtd.size.isLt
  have hwide : (len.setWidth 64).toNat = len.toNat := BitVec.toNat_setWidth_of_le (by decide)
  rw [gt_iff_lt, BitVec.lt_def, BitVec.toNat_add, hwide, Nat.mod_eq_of_lt (by omega)]
  omega

end Translation

/-! ## Commands -/

/-- The device of the entry is a layout of the store. -/
structure Represents (mtd : MtdInfo) (info : DevInfo) (m : Machine Population)
    (s : Store mtd.writesize.toNat mtd.oobsize.toNat) : Prop where
  info : (m.devices mtd.id).info = info
  pages : pagesOf mtd.writesize.toNat mtd.oobsize.toNat (m.devices mtd.id).raw = s

section Commands

variable {mtd : MtdInfo} {info : DevInfo} {m : Machine Population}
  {s : Store mtd.writesize.toNat mtd.oobsize.toNat} {addr : U64} {len : U32} (ptr : U32)

theorem cmd_read (h : Represents mtd info m s)
    (hfit : addr.toNat + len.toNat ≤ info.rawSize.toNat) :
    ∃ m', goldfishNandCmd flashController mtd .read addr len ptr m = (len, m') ∧
      m'.mem = Memory.store m.mem ptr
        (Cells.read (m.devices mtd.id).raw addr.toNat len.toNat) ∧ Represents mtd info m' s := by
  obtain ⟨regs, hcmd⟩ := goldfishNandCmd_spec mtd .read addr len ptr m
  have hexec : (m.devices mtd.id).exec .read addr.toNat len ptr m.mem =
      (len, Memory.store m.mem ptr (Cells.read (m.devices mtd.id).raw addr.toNat len.toNat),
        m.devices mtd.id) := if_pos (h.info ▸ hfit)
  rw [hcmd, hexec]
  refine ⟨_, rfl, rfl, ?_, ?_⟩
  · simp only [Function.update_self, h.info]
  · simp only [Function.update_self, h.pages]

theorem cmd_write (h : Represents mtd info m s)
    (hfit : addr.toNat + len.toNat ≤ info.rawSize.toNat) :
    ∃ m', goldfishNandCmd flashController mtd .write addr len ptr m = (len, m') ∧
      m'.mem = m.mem ∧ Represents mtd info m' (pagesOf mtd.writesize.toNat mtd.oobsize.toNat
        (Cells.write (m.devices mtd.id).raw addr.toNat (Memory.load m.mem ptr len.toNat))) := by
  obtain ⟨regs, hcmd⟩ := goldfishNandCmd_spec mtd .write addr len ptr m
  have hexec : (m.devices mtd.id).exec .write addr.toNat len ptr m.mem =
      (len, m.mem, { m.devices mtd.id with
        raw := Cells.write (m.devices mtd.id).raw addr.toNat (Memory.load m.mem ptr len.toNat) }) :=
    if_pos (h.info ▸ hfit)
  rw [hcmd, hexec]
  refine ⟨_, rfl, rfl, ?_, ?_⟩
  · simp only [Function.update_self, h.info]
  · simp only [Function.update_self]

theorem cmd_erase (h : Represents mtd info m s)
    (hfit : addr.toNat + len.toNat ≤ info.rawSize.toNat) :
    ∃ m', goldfishNandCmd flashController mtd .erase addr len ptr m = (len, m') ∧
      m'.mem = m.mem ∧ Represents mtd info m' (pagesOf mtd.writesize.toNat mtd.oobsize.toNat
        (Cells.fill (m.devices mtd.id).raw addr.toNat len.toNat 0xff#8)) := by
  obtain ⟨regs, hcmd⟩ := goldfishNandCmd_spec mtd .erase addr len ptr m
  have hexec : (m.devices mtd.id).exec .erase addr.toNat len ptr m.mem =
      (len, m.mem, { m.devices mtd.id with
        raw := Cells.fill (m.devices mtd.id).raw addr.toNat len.toNat 0xff#8 }) :=
    if_pos (h.info ▸ hfit)
  rw [hcmd, hexec]
  refine ⟨_, rfl, rfl, ?_, ?_⟩
  · simp only [Function.update_self, h.info]
  · simp only [Function.update_self]

theorem read_data {p : ℕ} (h : Represents mtd info m s) (hat : AtPage mtd info addr p)
    (hlen : len.toNat ≤ mtd.writesize.toNat) :
    ∃ m', goldfishNandCmd flashController mtd .read addr len ptr m = (len, m') ∧
      m'.mem = Memory.store m.mem ptr (Cells.readPart (s p).data 0 len.toNat) ∧
      Represents mtd info m' s := by
  have hfits := hat.fits
  have hfit : addr.toNat + len.toNat ≤ info.rawSize.toNat := by
    rw [hat.cell]
    omega
  have hblock := Cells.read_block (n := mtd.writesize.toNat) (a := 0) (k := len.toNat)
    (m.devices mtd.id).raw (dataCell mtd.writesize.toNat mtd.oobsize.toNat p) (by omega)
  obtain ⟨m', hcmd, hmem, hrep⟩ := cmd_read ptr h hfit
  refine ⟨m', hcmd, ?_, hrep⟩
  rw [hmem, hat.cell, ← h.pages]
  exact congrArg _ hblock

theorem write_data {p : ℕ} (h : Represents mtd info m s) (hat : AtPage mtd info addr p)
    (hlen : len.toNat ≤ mtd.writesize.toNat) :
    ∃ m', goldfishNandCmd flashController mtd .write addr len ptr m = (len, m') ∧
      m'.mem = m.mem ∧
      Represents mtd info m' (s.writeData p (Memory.load m.mem ptr len.toNat)) := by
  have hfits := hat.fits
  have hfit : addr.toNat + len.toNat ≤ info.rawSize.toNat := by
    rw [hat.cell]
    omega
  obtain ⟨m', hcmd, hmem, hrep⟩ := cmd_write ptr h hfit
  refine ⟨m', hcmd, hmem, ?_⟩
  rw [hat.cell, pagesOf_writeData _ p (by rw [Memory.load_length]; exact hlen), h.pages] at hrep
  exact hrep

structure AtSpare (mtd : MtdInfo) (info : DevInfo) (addr : U64) (p off n : ℕ) : Prop where
  cell : addr.toNat = spareCell mtd.writesize.toNat mtd.oobsize.toNat p + off
  inside : off + n ≤ mtd.oobsize.toNat
  fits : addr.toNat + n ≤ info.rawSize.toNat

theorem AtPage.spare {p : ℕ} {ooboffs : U32} {n : ℕ} (hg : Geometry mtd info)
    (hat : AtPage mtd info addr p) (hoob : ooboffs.toNat + n ≤ mtd.oobsize.toNat) :
    AtSpare mtd info (addr + (mtd.writesize + ooboffs).setWidth 64) p ooboffs.toNat n := by
  have hfits := hat.fits
  have hcell := hat.cell
  have hpage := hg.fits
  have hraw := hg.rawSize_lt
  have hsum : (mtd.writesize + ooboffs).toNat = mtd.writesize.toNat + ooboffs.toNat :=
    BitVec.toNat_add_of_lt (by omega)
  have hwide : ((mtd.writesize + ooboffs).setWidth 64).toNat =
      mtd.writesize.toNat + ooboffs.toNat := by
    rw [BitVec.toNat_setWidth_of_le (by decide), hsum]
  have haddr : (addr + (mtd.writesize + ooboffs).setWidth 64).toNat =
      spareCell mtd.writesize.toNat mtd.oobsize.toNat p + ooboffs.toNat := by
    rw [BitVec.toNat_add_of_lt (by omega), hwide, hcell, spareCell_add, dataCell_add]
  refine ⟨haddr, hoob, ?_⟩
  rw [haddr, spareCell_add, ← dataCell_add]
  omega

theorem read_spare {p off : ℕ} (h : Represents mtd info m s)
    (hat : AtSpare mtd info addr p off len.toNat) :
    ∃ m', goldfishNandCmd flashController mtd .read addr len ptr m = (len, m') ∧
      m'.mem = Memory.store m.mem ptr (Cells.readPart (s p).spare off len.toNat) ∧
      Represents mtd info m' s := by
  obtain ⟨m', hcmd, hmem, hrep⟩ := cmd_read ptr h hat.fits
  refine ⟨m', hcmd, ?_, hrep⟩
  rw [hmem, hat.cell, ← h.pages]
  exact congrArg _ (Cells.read_block _ _ hat.inside)

theorem write_spare {p off : ℕ} (h : Represents mtd info m s)
    (hat : AtSpare mtd info addr p off len.toNat) :
    ∃ m', goldfishNandCmd flashController mtd .write addr len ptr m = (len, m') ∧
      m'.mem = m.mem ∧
      Represents mtd info m' (s.writeSpare p off (Memory.load m.mem ptr len.toNat)) := by
  obtain ⟨m', hcmd, hmem, hrep⟩ := cmd_write ptr h hat.fits
  refine ⟨m', hcmd, hmem, ?_⟩
  rw [hat.cell, pagesOf_writeSpare _ p (by rw [Memory.load_length]; exact hat.inside),
    h.pages] at hrep
  exact hrep

theorem transferData_read {p : ℕ} {ops : MtdOobOps} (h : Represents mtd info m s)
    (hat : AtPage mtd info addr p)
    (hlen : ops.datbuf ≠ 0 → ops.len.toNat ≤ mtd.writesize.toNat) :
    ∃ m', transferData flashController .read mtd addr ops m = (ops.dataDone, m') ∧
      m'.mem = (s p).readData ops m.mem ∧ Represents mtd info m' s := by
  by_cases hbuf : ops.datbuf ≠ 0
  · obtain ⟨m', hcmd, hmem, hrep⟩ := read_data ops.datbuf h hat (hlen hbuf)
    rw [transferData, if_pos hbuf, hcmd, MtdOobOps.dataDone, if_pos hbuf, Page.readData,
      if_pos hbuf]
    exact ⟨m', rfl, hmem, hrep⟩
  · rw [transferData, if_neg hbuf, MtdOobOps.dataDone, if_neg hbuf, Page.readData, if_neg hbuf]
    exact ⟨m, rfl, rfl, h⟩

theorem transferSpare_read {p : ℕ} (ops : MtdOobOps) (h : Represents mtd info m s)
    (hat : AtSpare mtd info addr p ops.ooboffs.toNat ops.ooblen.toNat) :
    ∃ m', transferSpare flashController .read mtd addr ops m = (ops.spareDone, m') ∧
      m'.mem = (s p).readSpare ops m.mem ∧ Represents mtd info m' s := by
  by_cases hbuf : ops.oobbuf ≠ 0
  · obtain ⟨m', hcmd, hmem, hrep⟩ := read_spare ops.oobbuf h hat
    rw [transferSpare, if_pos hbuf, hcmd, MtdOobOps.spareDone, if_pos hbuf, Page.readSpare,
      if_pos hbuf]
    exact ⟨m', rfl, hmem, hrep⟩
  · rw [transferSpare, if_neg hbuf, MtdOobOps.spareDone, if_neg hbuf, Page.readSpare,
      if_neg hbuf]
    exact ⟨m, rfl, rfl, h⟩

theorem transferOob_read {p : ℕ} {ops : MtdOobOps} (hg : Geometry mtd info)
    (h : Represents mtd info m s) (hat : AtPage mtd info addr p)
    (hlen : ops.datbuf ≠ 0 → ops.len.toNat ≤ mtd.writesize.toNat)
    (hoob : ops.ooboffs.toNat + ops.ooblen.toNat ≤ mtd.oobsize.toNat) :
    ∃ m', transferOob flashController .read mtd addr ops m = (ops.dataDone.spareDone, m') ∧
      m'.mem = (s p).readSpare ops ((s p).readData ops m.mem) ∧ Represents mtd info m' s := by
  obtain ⟨m₁, hdata, hmem₁, hrep₁⟩ := transferData_read h hat hlen
  obtain ⟨m₂, hspare, hmem₂, hrep₂⟩ :=
    transferSpare_read ops.dataDone hrep₁ (hat.spare hg hoob)
  rw [transferOob, hdata]
  refine ⟨m₂, hspare, ?_, hrep₂⟩
  rw [hmem₂, hmem₁]
  rfl

theorem transferData_write {p : ℕ} {ops : MtdOobOps} (h : Represents mtd info m s)
    (hat : AtPage mtd info addr p)
    (hlen : ops.datbuf ≠ 0 → ops.len.toNat ≤ mtd.writesize.toNat) :
    ∃ m', transferData flashController .write mtd addr ops m = (ops.dataDone, m') ∧
      m'.mem = m.mem ∧ Represents mtd info m' (s.writeDataFrom p ops m.mem) := by
  by_cases hbuf : ops.datbuf ≠ 0
  · obtain ⟨m', hcmd, hmem, hrep⟩ := write_data ops.datbuf h hat (hlen hbuf)
    rw [transferData, if_pos hbuf, hcmd, MtdOobOps.dataDone, if_pos hbuf, Store.writeDataFrom,
      if_pos hbuf]
    exact ⟨m', rfl, hmem, hrep⟩
  · rw [transferData, if_neg hbuf, MtdOobOps.dataDone, if_neg hbuf, Store.writeDataFrom,
      if_neg hbuf]
    exact ⟨m, rfl, rfl, h⟩

theorem transferSpare_write {p : ℕ} (ops : MtdOobOps) (h : Represents mtd info m s)
    (hat : AtSpare mtd info addr p ops.ooboffs.toNat ops.ooblen.toNat) :
    ∃ m', transferSpare flashController .write mtd addr ops m = (ops.spareDone, m') ∧
      m'.mem = m.mem ∧ Represents mtd info m' (s.writeSpareFrom p ops m.mem) := by
  by_cases hbuf : ops.oobbuf ≠ 0
  · obtain ⟨m', hcmd, hmem, hrep⟩ := write_spare ops.oobbuf h hat
    rw [transferSpare, if_pos hbuf, hcmd, MtdOobOps.spareDone, if_pos hbuf,
      Store.writeSpareFrom, if_pos hbuf]
    exact ⟨m', rfl, hmem, hrep⟩
  · rw [transferSpare, if_neg hbuf, MtdOobOps.spareDone, if_neg hbuf, Store.writeSpareFrom,
      if_neg hbuf]
    exact ⟨m, rfl, rfl, h⟩

theorem transferOob_write {p : ℕ} {ops : MtdOobOps} (hg : Geometry mtd info)
    (h : Represents mtd info m s) (hat : AtPage mtd info addr p)
    (hlen : ops.datbuf ≠ 0 → ops.len.toNat ≤ mtd.writesize.toNat)
    (hoob : ops.ooboffs.toNat + ops.ooblen.toNat ≤ mtd.oobsize.toNat) :
    ∃ m', transferOob flashController .write mtd addr ops m = (ops.dataDone.spareDone, m') ∧
      m'.mem = m.mem ∧
      Represents mtd info m' ((s.writeDataFrom p ops m.mem).writeSpareFrom p ops m.mem) := by
  obtain ⟨m₁, hdata, hmem₁, hrep₁⟩ := transferData_write h hat hlen
  obtain ⟨m₂, hspare, hmem₂, hrep₂⟩ :=
    transferSpare_write ops.dataDone hrep₁ (hat.spare hg hoob)
  rw [transferOob, hdata]
  rw [hmem₁] at hmem₂ hrep₂
  exact ⟨m₂, hspare, hmem₂, hrep₂⟩

end Commands

/-! ## Calls -/

section Calls

variable {mtd : MtdInfo} {info : DevInfo} {m : Machine Population}
  {s : Store mtd.writesize.toNat mtd.oobsize.toNat}

/-- The call has a result, the one of the store, and the device represents
the store it leaves. -/
def Refines (mtd : MtdInfo) (info : DevInfo) (m : Machine Population)
    (s : Store mtd.writesize.toNat mtd.oobsize.toNat) (r : Request) : Prop :=
  ∃ result m', r.call.perform mtd { m with mem := r.mem } = some (result, m') ∧
    m'.mem = (s.answer r).1.mem ∧ (∀ x ∈ (s.answer r).1.result, result = x) ∧
    Represents mtd info m' (s.answer r).2

theorem Refines.of_answer {m' : Machine Population} {r : Request} {result : Result} {mem : Mem}
    {s' : Store mtd.writesize.toNat mtd.oobsize.toNat}
    (hanswer : s.answer r = (⟨some result, mem⟩, s'))
    (hcall : r.call.perform mtd { m with mem := r.mem } = some (result, m'))
    (hmem : m'.mem = mem) (hrep : Represents mtd info m' s') : Refines mtd info m s r := by
  unfold Refines
  rw [hanswer]
  exact ⟨result, m', hcall, hmem, fun x hx => Option.some.inj hx, hrep⟩

theorem Refines.of_open {m' : Machine Population} {r : Request} {result : Result} {mem : Mem}
    {s' : Store mtd.writesize.toNat mtd.oobsize.toNat}
    (hanswer : s.answer r = (⟨none, mem⟩, s'))
    (hcall : r.call.perform mtd { m with mem := r.mem } = some (result, m'))
    (hmem : m'.mem = mem) (hrep : Represents mtd info m' s') : Refines mtd info m s r := by
  unfold Refines
  rw [hanswer]
  exact ⟨result, m', hcall, hmem, fun x hx => absurd hx (Option.not_mem_none x), hrep⟩

theorem Represents.setMem (h : Represents mtd info m s) (mem : Mem) :
    Represents mtd info { m with mem := mem } s := ⟨h.info, h.pages⟩

theorem refines_read (hg : Geometry mtd info) (h : Represents mtd info m s) {mem : Mem}
    {ofs : U64} {len retlen buf : U32} (hofs : InDevice mtd ofs len.toNat) :
    Refines mtd info m s ⟨mem, .read ofs len retlen buf⟩ := by
  by_cases hlen : len.toNat = mtd.writesize.toNat
  · have hpass : PassesPage mtd ofs len :=
      ⟨hofs.not_over, BitVec.eq_of_toNat_eq hlen, hofs.aligned⟩
    obtain ⟨m', hcmd, hmem, hrep⟩ := read_data buf (h.setMem mem) (hg.atPage hofs) hlen.le
    rw [hlen] at hmem
    refine Refines.of_answer (if_pos hlen) ?_ hmem hrep
    rw [Call.perform, goldfishNandRead, transferPage_passed hg.writesize_pos .read _ hpass, hcmd]
    rfl
  · have hpass : ¬ PassesPage mtd ofs len := fun hpass => hlen (congrArg BitVec.toNat hpass.2.1)
    refine Refines.of_answer (if_neg hlen) ?_ rfl (h.setMem mem)
    rw [Call.perform, goldfishNandRead, transferPage_refused hg.writesize_pos .read _ hpass]
    rfl

theorem refines_write (hg : Geometry mtd info) (h : Represents mtd info m s) {mem : Mem}
    {ofs : U64} {len retlen buf : U32} (hofs : InDevice mtd ofs len.toNat) :
    Refines mtd info m s ⟨mem, .write ofs len retlen buf⟩ := by
  by_cases hlen : len.toNat = mtd.writesize.toNat
  · have hpass : PassesPage mtd ofs len :=
      ⟨hofs.not_over, BitVec.eq_of_toNat_eq hlen, hofs.aligned⟩
    obtain ⟨m', hcmd, hmem, hrep⟩ := write_data buf (h.setMem mem) (hg.atPage hofs) hlen.le
    rw [hlen] at hrep
    refine Refines.of_answer (if_pos hlen) ?_ hmem hrep
    rw [Call.perform, goldfishNandWrite, transferPage_passed hg.writesize_pos .write _ hpass, hcmd]
    rfl
  · have hpass : ¬ PassesPage mtd ofs len := fun hpass => hlen (congrArg BitVec.toNat hpass.2.1)
    refine Refines.of_answer (if_neg hlen) ?_ rfl (h.setMem mem)
    rw [Call.perform, goldfishNandWrite, transferPage_refused hg.writesize_pos .write _ hpass]
    rfl

theorem spare_check {ops : MtdOobOps} (hsum : ops.ooblen.toNat + ops.ooboffs.toNat < 2 ^ 32) :
    ops.ooblen + ops.ooboffs > mtd.oobsize ↔
      ¬ ops.ooboffs.toNat + ops.ooblen.toNat ≤ mtd.oobsize.toNat := by
  rw [gt_iff_lt, BitVec.lt_def, BitVec.toNat_add_of_lt hsum, not_le, Nat.add_comm]

theorem length_check {len : U32} :
    ¬ (len ≠ 0 ∧ len ≠ mtd.writesize) ↔ (len = 0 ∨ len.toNat = mtd.writesize.toNat) := by
  rw [not_and_or, not_not, not_not, BitVec.toNat_inj]

theorem passesReadOob_iff {ofs : U64} {ops : MtdOobOps} (hofs : InDevice mtd ofs ops.len.toNat)
    (hsum : ops.ooblen.toNat + ops.ooboffs.toNat < 2 ^ 32) : PassesReadOob mtd ofs ops ↔
      (ops.datbuf ≠ 0 → ops.len = 0 ∨ ops.len.toNat = mtd.writesize.toNat) ∧
        ops.ooboffs.toNat + ops.ooblen.toNat ≤ mtd.oobsize.toNat := by
  constructor
  · rintro ⟨-, hlen, hoob, -⟩
    exact ⟨fun hbuf => length_check.mp fun hbad => hlen ⟨hbuf, hbad⟩,
      not_not.mp (mt (spare_check hsum).mpr hoob)⟩
  · rintro ⟨hlen, hoob⟩
    exact ⟨hofs.not_over, fun hbad => length_check.mpr (hlen hbad.1) hbad.2,
      fun hover => (spare_check hsum).mp hover hoob, hofs.aligned⟩

theorem passesWriteOob_iff {ofs : U64} {ops : MtdOobOps} (hofs : InDevice mtd ofs ops.len.toNat)
    (hsum : ops.ooblen.toNat + ops.ooboffs.toNat < 2 ^ 32) : PassesWriteOob mtd ofs ops ↔
      ops.Writes mtd.writesize.toNat mtd.oobsize.toNat := by
  constructor
  · rintro ⟨-, hlen, hoob, -⟩
    exact ⟨length_check.mp hlen, not_not.mp (mt (spare_check hsum).mpr hoob)⟩
  · rintro ⟨hlen, hoob⟩
    exact ⟨hofs.not_over, length_check.mpr hlen,
      fun hover => (spare_check hsum).mp hover hoob, hofs.aligned⟩

theorem length_le {len : U32} (h : len = 0 ∨ len.toNat = mtd.writesize.toNat) :
    len.toNat ≤ mtd.writesize.toNat := by
  rcases h with hzero | hpage
  · rw [hzero]
    exact Nat.zero_le _
  · exact hpage.le

theorem refines_readOob (hg : Geometry mtd info) (h : Represents mtd info m s) {mem : Mem}
    {ofs : U64} {ops : MtdOobOps} (hofs : InDevice mtd ofs ops.len.toNat)
    (hsum : ops.ooblen.toNat + ops.ooboffs.toNat < 2 ^ 32) :
    Refines mtd info m s ⟨mem, .readOob ofs ops⟩ := by
  have hiff := passesReadOob_iff hofs hsum
  by_cases hpass : PassesReadOob mtd ofs ops
  · have hok := hiff.mp hpass
    obtain ⟨m', htransfer, hmem, hrep⟩ := transferOob_read hg (h.setMem mem) (hg.atPage hofs)
      (fun hbuf => length_le (hok.1 hbuf)) hok.2
    refine Refines.of_answer (if_pos hok) ?_ hmem hrep
    rw [Call.perform, readOob_passed hg.writesize_pos _ hpass, htransfer]
    rfl
  · refine Refines.of_answer (if_neg (mt hiff.mpr hpass)) ?_ rfl (h.setMem mem)
    rw [Call.perform, readOob_refused hg.writesize_pos _ hpass]
    rfl

theorem refines_writeOob (hg : Geometry mtd info) (h : Represents mtd info m s) {mem : Mem}
    {ofs : U64} {ops : MtdOobOps} (hofs : InDevice mtd ofs ops.len.toNat)
    (hsum : ops.ooblen.toNat + ops.ooboffs.toNat < 2 ^ 32) :
    Refines mtd info m s ⟨mem, .writeOob ofs ops⟩ := by
  have hiff := passesWriteOob_iff hofs hsum
  by_cases hpass : PassesWriteOob mtd ofs ops
  · have hok := hiff.mp hpass
    obtain ⟨m', htransfer, hmem, hrep⟩ := transferOob_write hg (h.setMem mem) (hg.atPage hofs)
      (fun _ => length_le hok.1) hok.2
    refine Refines.of_answer (if_pos hok) ?_ hmem hrep
    rw [Call.perform, writeOob_passed hg.writesize_pos _ hpass, htransfer]
    rfl
  · refine Refines.of_answer (if_neg (mt hiff.mpr hpass)) ?_ rfl (h.setMem mem)
    rw [Call.perform, writeOob_refused hg.writesize_pos _ hpass]
    rfl

theorem erase_pages {instr : EraseInfo} {k : ℕ} (hg : Geometry mtd info)
    (h : Represents mtd info m s)
    (hofs : InDevice mtd instr.addr (instr.len.setWidth 32).toNat)
    (hk : (instr.len.setWidth 32).toNat = k * mtd.writesize.toNat)
    (hraw : k * (mtd.writesize.toNat + mtd.oobsize.toNat) < 2 ^ 32) :
    ∃ m', goldfishNandErase flashController mtd instr m =
        some (⟨0, { instr with state := mtdEraseDone },
          mtdEraseCallback { instr with state := mtdEraseDone }⟩, m') ∧
      m'.mem = m.mem ∧
      Represents mtd info m' (s.erase (pageOf mtd.writesize.toNat instr.addr) k) := by
  have hat := hg.atPage hofs
  have hpass : PassesErase mtd instr :=
    ⟨hofs.not_over, hofs.aligned, by rw [hk, Nat.mul_mod_left]⟩
  have hlen : (eraseLength mtd instr).toNat =
      k * (mtd.writesize.toNat + mtd.oobsize.toNat) := by
    rw [eraseLength, BitVec.toNat_mul, BitVec.toNat_udiv, hk, rawPage_toNat hg.fits,
      Nat.mul_div_cancel _ hg.writesize_pos, Nat.mod_eq_of_lt hraw]
  have hfit := hg.pages_fit hofs (hk ▸ Nat.mul_mod_left _ _)
  rw [hk, Nat.mul_div_cancel _ hg.writesize_pos, ← hlen, ← hat.cell] at hfit
  obtain ⟨m', hcmd, hmem, hrep⟩ := cmd_erase 0 h hfit
  rw [hat.cell, hlen, pagesOf_erase, h.pages] at hrep
  refine ⟨m', ?_, hmem, hrep⟩
  rw [erase_passed hg.writesize_pos m hpass, hcmd]
  exact if_neg (not_not.mpr rfl)

theorem length_bound {len : U64}
    (hraw : len.toNat / mtd.writesize.toNat * (mtd.writesize.toNat + mtd.oobsize.toNat) < 2 ^ 32) :
    len.toNat < 2 ^ 32 + len.toNat % mtd.writesize.toNat := by
  have hmul : len.toNat / mtd.writesize.toNat * mtd.writesize.toNat < 2 ^ 32 :=
    lt_of_le_of_lt (Nat.mul_le_mul_left _ (Nat.le_add_right _ _)) hraw
  have hsum := Nat.div_add_mod' len.toNat mtd.writesize.toNat
  omega

theorem perform_erase {instr : EraseInfo} {outcome : EraseOutcome} {m' : Machine Population}
    (h : goldfishNandErase flashController mtd instr m = some (outcome, m')) :
    Call.perform mtd m (.erase instr) = some (.erase outcome, m') := by
  rw [Call.perform, h]
  rfl

theorem refines_erase (hg : Geometry mtd info) (h : Represents mtd info m s) {mem : Mem}
    {instr : EraseInfo} (hofs : InDevice mtd instr.addr instr.len.toNat)
    (hraw : instr.len.toNat / mtd.writesize.toNat *
      (mtd.writesize.toNat + mtd.oobsize.toNat) < 2 ^ 32) :
    Refines mtd info m s ⟨mem, .erase instr⟩ := by
  have hbound := length_bound hraw
  have hmod := Nat.mod_lt instr.len.toNat hg.writesize_pos
  have hword : (instr.len.setWidth 32).toNat = instr.len.toNat % 2 ^ 32 := BitVec.toNat_setWidth ..
  have hofs' : InDevice mtd instr.addr (instr.len.setWidth 32).toNat := by
    refine ⟨hofs.aligned, hofs.lt, le_trans (Nat.add_le_add_left ?_ _) hofs.le⟩
    rw [hword]
    exact Nat.mod_le _ _
  by_cases hpages : instr.len.toNat % mtd.writesize.toNat = 0
  · rw [hpages, Nat.add_zero] at hbound
    have hk : (instr.len.setWidth 32).toNat =
        instr.len.toNat / mtd.writesize.toNat * mtd.writesize.toNat := by
      rw [hword, Nat.mod_eq_of_lt hbound, Nat.div_mul_cancel (Nat.dvd_of_mod_eq_zero hpages)]
    obtain ⟨m', hcall, hmem, hrep⟩ := erase_pages hg (h.setMem mem) hofs' hk hraw
    exact Refines.of_answer (if_pos hpages) (perform_erase hcall) hmem hrep
  · by_cases hsmall : instr.len.toNat < 2 ^ 32
    · have hanswer : s.answer ⟨mem, .erase instr⟩ =
          (⟨some (.erase ⟨einval, instr, []⟩), mem⟩, s) := by
        rw [Store.answer]
        dsimp only
        rw [if_neg hpages, if_pos hsmall]
      have hpass : ¬ PassesErase mtd instr := by
        rintro ⟨-, -, hrem⟩
        rw [hword, Nat.mod_eq_of_lt hsmall] at hrem
        exact hpages hrem
      exact Refines.of_answer hanswer (perform_erase (erase_not_passed hg.writesize_pos _ hpass))
        rfl (h.setMem mem)
    · have hanswer : s.answer ⟨mem, .erase instr⟩ = (⟨none, mem⟩, s) := by
        rw [Store.answer]
        dsimp only
        rw [if_neg hpages, if_neg hsmall]
      -- less than a page is left of the length
      have hlow : (instr.len.setWidth 32).toNat < mtd.writesize.toNat := by
        rw [hword]
        omega
      by_cases hzero : (instr.len.setWidth 32).toNat = 0
      · obtain ⟨m', hcall, hmem, hrep⟩ := erase_pages (k := 0) hg (h.setMem mem) hofs'
          (by rw [hzero, Nat.zero_mul]) (by omega)
        rw [Store.erase_zero] at hrep
        exact Refines.of_open hanswer (perform_erase hcall) hmem hrep
      · have hpass : ¬ PassesErase mtd instr := by
          rintro ⟨-, -, hrem⟩
          exact hzero ((Nat.mod_eq_of_lt hlow).symm.trans hrem)
        exact Refines.of_open hanswer (perform_erase (erase_not_passed hg.writesize_pos _ hpass))
          rfl (h.setMem mem)

theorem drive_refines (hg : Geometry mtd info) (h : Represents mtd info m s) {r : Request}
    (hr : r.call.InDomain mtd) :
    Agrees (drive mtd m r).1 (s.answer r).1 ∧
      Represents mtd info (drive mtd m r).2 (s.answer r).2 := by
  obtain ⟨mem, call⟩ := r
  have hrefines : Refines mtd info m s ⟨mem, call⟩ := by
    cases call with
    | read => exact refines_read hg h hr
    | write => exact refines_write hg h hr
    | readOob => exact refines_readOob hg h hr.1 hr.2
    | writeOob => exact refines_writeOob hg h hr.1 hr.2
    | erase => exact refines_erase hg h hr.1 hr.2
  obtain ⟨result, m', hcall, hmem, hresult, hrep⟩ := hrefines
  rw [drive]
  dsimp only at hcall ⊢
  rw [hcall]
  exact ⟨⟨_, rfl, hmem, hresult⟩, hrep⟩

end Calls

/-! ## From the initialisation on -/

section Runs

variable {goldfishDevName : U32} {entry mtd : MtdInfo} {m₀ m : Machine Population}

theorem represents_of_init
    (hinit : goldfishNandInitDevice flashController goldfishDevName entry m₀ = some (0, mtd, m)) :
    Represents mtd (m₀.devices entry.id).info m
      (pagesOf mtd.writesize.toNat mtd.oobsize.toNat (m₀.devices entry.id).raw) := by
  obtain ⟨hid, hsame⟩ : mtd.id = entry.id ∧ m.devices = m₀.devices := by
    obtain ⟨-, houtcome⟩ := init_outcome_iff.mp hinit
    obtain ⟨regs, hcmd⟩ := goldfishNandCmd_spec entry .getDevName 0
      (flashController.info m₀.devices entry.id).nameLen (nameRow goldfishDevName entry.id)
      { m₀ with regs := { m₀.regs with dev := entry.id } }
    have hdevices : (getDevName flashController goldfishDevName entry m₀).2.devices =
        m₀.devices := by
      rw [getDevName, hcmd]
      exact Function.update_eq_self _ _
    cases houtcome with
    | registered _ _ => exact ⟨rfl, hdevices⟩
  constructor
  · rw [hsame, hid]
  · rw [hsame, hid]

/-- Every reply of the driver is the reply of the page store, the device
stays a layout of it, and each byte of each page is what the last write or
erase of that very byte has put there. -/
theorem goldfishNand_refines_store
    (hinit : goldfishNandInitDevice flashController goldfishDevName entry m₀ = some (0, mtd, m))
    (hpage : 0 < mtd.writesize.toNat)
    (hfits : mtd.writesize.toNat + mtd.oobsize.toNat < 2 ^ 32)
    (hraw : (m₀.devices entry.id).info.rawSize.toNat < 2 ^ 63)
    {rs : List Request} (hrs : ∀ r ∈ rs, r.call.InDomain mtd) :
    let W := mtd.writesize.toNat
    let O := mtd.oobsize.toNat
    let s₀ : Store W O := pagesOf W O (m₀.devices entry.id).raw
    let s : Store W O := pagesOf W O ((Runs.answers (drive mtd) m rs).2.devices mtd.id).raw
    List.Forall₂ Agrees (Runs.answers (drive mtd) m rs).1 (Runs.answers Store.answer s₀ rs).1 ∧
      s = (Runs.answers Store.answer s₀ rs).2 ∧
      ∀ p, (∀ i, (s p).data i =
          (Runs.lastPut (Request.putData W O p i) rs).getD ((s₀ p).data i)) ∧
        ∀ i, (s p).spare i =
          (Runs.lastPut (Request.putSpare W O p i) rs).getD ((s₀ p).spare i) := by
  have hg := geometry_of_init rfl hinit hpage hfits hraw
  obtain ⟨hreplies, hrep⟩ := Runs.answers_simulation
    (f := drive mtd) (g := Store.answer) (Represents mtd (m₀.devices entry.id).info)
    (fun r : Request => r.call.InDomain mtd) Agrees
    (fun m s r h hr => drive_refines hg h hr) (represents_of_init hinit) hrs
  intro W O s₀ s
  have hpages : s = (Runs.answers Store.answer s₀ rs).2 := hrep.pages
  refine ⟨hreplies, hpages, fun p => ⟨fun i => ?_, fun i => ?_⟩⟩
  · rw [hpages]
    exact Runs.answers_lastPut (g := fun s : Store W O => (s p).data i)
      (fun s r => s.answer_data r p i) s₀ rs
  · rw [hpages]
    exact Runs.answers_lastPut (g := fun s : Store W O => (s p).spare i)
      (fun s r => s.answer_spare r p i) s₀ rs

end Runs

def smallFlash : Flash where
  info := ⟨0, 0, 2, 1, 3, 6, 0⟩
  name := []
  raw _ := 0xff#8

def smallEntry : MtdInfo := ⟨0, 0, 0, 0, 0, 0, 0, 0, 0, false⟩

def smallDevice : MtdInfo := ⟨0, mtdNandflash, mtdCapNandflash, 4, 2, 2, 1, 1, 0x100, true⟩

def smallCalls : List Request :=
  [⟨fun _ => 7, .write 2 2 0 0x200⟩, ⟨fun _ => 9, .writeOob 0 ⟨0, 0, 1, 0, 0, 0, 0x300⟩⟩,
    ⟨fun _ => 0, .read 2 2 0 0x200⟩, ⟨fun _ => 0, .erase ⟨0, 4, true, 0⟩⟩]

def smallStart : Machine Population := ⟨⟨0, 0, 0, 0, 0⟩, fun _ => 0, fun _ => smallFlash⟩

theorem smallDevice_init :
    ∃ m, goldfishNandInitDevice flashController 0x100 smallEntry smallStart =
      some (0, smallDevice, m) := ⟨_, rfl⟩

theorem smallCalls_inDomain : ∀ r ∈ smallCalls, r.call.InDomain smallDevice := by decide

theorem goldfishNand_refines_store_smallDevice :
    ∃ m, goldfishNandInitDevice flashController 0x100 smallEntry smallStart =
        some (0, smallDevice, m) ∧
      List.Forall₂ Agrees (Runs.answers (drive smallDevice) m smallCalls).1
        (Runs.answers Store.answer (pagesOf 2 1 smallFlash.raw) smallCalls).1 := by
  obtain ⟨m, hinit⟩ := smallDevice_init
  exact ⟨m, hinit, (goldfishNand_refines_store hinit (by decide) (by decide) (by decide)
    smallCalls_inDomain).1⟩

end Goldfish.Nand
