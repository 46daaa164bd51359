import Goldfish.Nand.Geometry
import Goldfish.Nand.Requests
import Mathlib.Order.CompletePartialOrder
import Mathlib.Order.Interval.Set.Disjoint

/-!
# Blocks and pages

The bad-block functions find the raw address of a block by its block number,
the others by its page number. On a device that has been set up with a page
length that does not wrap, they agree.
-/

namespace Goldfish.Nand

/-- The entry of a device whose erase blocks hold a page. -/
structure Derived (mtd : MtdInfo) (info : DevInfo) : Prop extends Geometry mtd info where
  block : mtd.writesize.toNat + mtd.oobsize.toNat ≤ info.eraseSize.toNat
  erasesize : mtd.erasesize.toNat =
    info.eraseSize.toNat / (mtd.writesize.toNat + mtd.oobsize.toNat) * mtd.writesize.toNat

variable {σ : Type*} {ctl : Controller σ}

theorem derived_of_init {goldfishDevName rv : U32} {entry mtd : MtdInfo} {m m' : Machine σ}
    {info : DevInfo} (hinfo : ctl.info m.devices entry.id = info)
    (hinit : goldfishNandInitDevice ctl goldfishDevName entry m = some (rv, mtd, m'))
    (hpage : 1 ≤ info.pageSize.toNat) (hlen : info.pageLen < 2 ^ 32)
    (herase : info.pageLen ≤ info.eraseSize.toNat) (hraw : info.rawSize.toNat < 2 ^ 63) :
    Derived mtd info := by
  obtain ⟨hwritesize, hoobsize, herasesize, -⟩ := init_sizes hinfo hinit
  have hlen' : mtd.writesize.toNat + mtd.oobsize.toNat = info.pageLen := by
    rw [hwritesize, hoobsize]
    rfl
  have hle : info.pageSize.toNat ≤ info.pageLen := Nat.le_add_right _ _
  have hword := info.eraseSize.isLt
  refine ⟨geometry_of_init hinfo hinit (hwritesize ▸ hpage) (hlen' ▸ hlen) hraw, hlen' ▸ herase, ?_⟩
  rw [herasesize, hwritesize, ← hwritesize, hlen', hwritesize, geometry_erasesize,
    Nat.mod_eq_of_lt hlen, Nat.mod_eq_of_lt ((div_mul_le hle).trans_lt hword)]

section Derived

variable {mtd : MtdInfo} {info : DevInfo} {ofs : U64}

theorem Derived.blocks_pos (hd : Derived mtd info) :
    0 < info.eraseSize.toNat / (mtd.writesize.toNat + mtd.oobsize.toNat) := by
  have hpos := hd.writesize_pos
  exact Nat.div_pos hd.block (by omega)

theorem Derived.erasesize_pos (hd : Derived mtd info) : 0 < mtd.erasesize.toNat := by
  rw [hd.erasesize]
  exact Nat.mul_pos hd.blocks_pos hd.writesize_pos

theorem Derived.writesize_dvd (hd : Derived mtd info) :
    mtd.writesize.toNat ∣ mtd.erasesize.toNat := by
  rw [hd.erasesize]
  exact Nat.dvd_mul_left _ _

theorem Derived.block_page (hd : Derived mtd info)
    (haligned : ofs.toNat % mtd.erasesize.toNat = 0) :
    ofs.toNat / mtd.erasesize.toNat * (mtd.erasesize.toNat / mtd.writesize.toNat) =
      ofs.toNat / mtd.writesize.toNat := by
  rw [Nat.div_mul_div_comm (Nat.dvd_of_mod_eq_zero haligned) hd.writesize_dvd, Nat.mul_comm,
    Nat.mul_div_mul_left _ _ hd.erasesize_pos]

theorem Derived.blockAddress_eq (hd : Derived mtd info)
    (haligned : ofs.toNat % mtd.erasesize.toNat = 0) :
    BitVec.ofNat 64 (ofs.toNat / mtd.erasesize.toNat) *
      (mtd.erasesize / mtd.writesize).setWidth 64 * mtd.rawPage.setWidth 64 =
        pageAddress mtd ofs := by
  have hofs := ofs.isLt
  have hwide : (mtd.erasesize / mtd.writesize).setWidth 64 =
      BitVec.ofNat 64 (mtd.erasesize.toNat / mtd.writesize.toNat) := by
    rw [← BitVec.toNat_udiv, BitVec.ofNat_toNat]
  rw [pageAddress, hwide, ← BitVec.ofNat_mul, hd.block_page haligned]

theorem erasesize_ne_zero (hd : Derived mtd info) : mtd.erasesize ≠ 0 := by
  intro h0
  have hpos := hd.erasesize_pos
  rw [h0] at hpos
  exact absurd hpos (lt_irrefl _)

theorem Derived.doDiv_block (hd : Derived mtd info)
    (haligned : ofs.toNat % mtd.erasesize.toNat = 0) : doDiv ofs mtd.erasesize =
      some (0, BitVec.ofNat 64 (ofs.toNat / mtd.erasesize.toNat)) := by
  rw [doDiv_spec ofs (erasesize_ne_zero hd), haligned]
  rfl

theorem Derived.page_aligned (hd : Derived mtd info)
    (haligned : ofs.toNat % mtd.erasesize.toNat = 0) : ofs.toNat % mtd.writesize.toNat = 0 :=
  Nat.mod_eq_zero_of_dvd (hd.writesize_dvd.trans (Nat.dvd_of_mod_eq_zero haligned))

/-! ## The commands for a block -/

/-- The operation gives `n` commands, all with this raw address. -/
def Addresses {α : Type*} (cmd : NandCmd) (addr n : ℕ) (m : Machine (List Issued × σ))
    (o : Option (α × Machine (List Issued × σ))) : Prop :=
  ∃ a m' new, o = some (a, m') ∧ m'.issued = m.issued ++ new ∧ new.length = n ∧
    ∀ c ∈ new, c.cmd = cmd ∧ c.addr = addr

theorem addresses_none {α : Type*} {cmd : NandCmd} {addr : ℕ} {m : Machine (List Issued × σ)}
    {o : Option (α × Machine (List Issued × σ))} {a : α} (ho : o = some (a, m)) :
    Addresses cmd addr 0 m o :=
  ⟨a, m, [], ho, (List.append_nil _).symm, rfl, fun _ hc => absurd hc List.not_mem_nil⟩

theorem addresses_one {α : Type*} {cmd : NandCmd} {addr : U64} {len ptr : U32}
    {m m' : Machine (List Issued × σ)} {o : Option (α × Machine (List Issued × σ))} {a : α}
    (ho : o = some (a, m')) (hissued : m'.issued = m.issued ++ [issue mtd cmd addr len ptr]) :
    Addresses cmd addr.toNat 1 m o := by
  refine ⟨a, m', _, ho, hissued, rfl, fun c hc => ?_⟩
  obtain rfl := List.mem_singleton.mp hc
  exact ⟨rfl, issue_addr ..⟩

structure BlockOperations (ctl : Controller σ) (mtd : MtdInfo) (ofs : U64)
    (m : Machine (List Issued × σ)) : Prop where
  isbad : Addresses .blockBadGet (pageStart mtd ofs) 1 m
    (goldfishNandBlockIsbad ctl.logged mtd ofs m)
  markbad : Addresses .blockBadSet (pageStart mtd ofs) 1 m
    (goldfishNandBlockMarkbad ctl.logged mtd ofs m)
  erase : ∀ instr : EraseInfo, instr.addr = ofs →
    (PassesErase mtd instr → Addresses .erase (pageStart mtd ofs) 1 m
      (goldfishNandErase ctl.logged mtd instr m)) ∧
    (¬ PassesErase mtd instr → Addresses .erase (pageStart mtd ofs) 0 m
      (goldfishNandErase ctl.logged mtd instr m))
  read : ∀ len retlen buf, Addresses .read (pageStart mtd ofs)
    (if len = mtd.writesize then 1 else 0) m
    (goldfishNandRead ctl.logged mtd ofs len retlen buf m)
  write : ∀ len retlen buf, Addresses .write (pageStart mtd ofs)
    (if len = mtd.writesize then 1 else 0) m
    (goldfishNandWrite ctl.logged mtd ofs len retlen buf m)

theorem Derived.blockCmd_eq (hd : Derived mtd info) (cmd : NandCmd)
    (haligned : ofs.toNat % mtd.erasesize.toNat = 0) (hlt : ofs.toNat < mtd.size.toNat)
    (m : Machine σ) : blockCmd ctl cmd mtd ofs m =
      some (some (goldfishNandCmd ctl mtd cmd (pageAddress mtd ofs) 0 0 m).1,
        (goldfishNandCmd ctl mtd cmd (pageAddress mtd ofs) 0 0 m).2) := by
  have hsize : ¬ ofs ≥ mtd.size := by
    rw [ge_iff_le, BitVec.le_def]
    omega
  rw [blockCmd, if_neg hsize, hd.doDiv_block haligned, Option.bind_some]
  simp only [ne_eq, not_true_eq_false, if_false, writesize_ne_zero hd.writesize_pos,
    hd.blockAddress_eq haligned]

theorem Derived.transferPage_addresses (hd : Derived mtd info) (cmd : NandCmd)
    (haligned : ofs.toNat % mtd.writesize.toNat = 0) (hlt : ofs.toNat < mtd.size.toNat)
    (len retlen buf : U32) (m : Machine (List Issued × σ)) :
    Addresses cmd (pageStart mtd ofs) (if len = mtd.writesize then 1 else 0) m
      (transferPage ctl.logged cmd mtd ofs len retlen buf m) := by
  by_cases hlen : len = mtd.writesize
  · have hpass : PassesPage mtd ofs len := by
      have hsize := hd.size_lt
      have hfits := hd.page_le haligned hlt
      have hint : ofs.toInt = ofs.toNat := BitVec.toInt_eq_toNat_of_lt (by omega)
      refine (passesPage_iff (by omega)).mpr ⟨by omega, ?_, congrArg BitVec.toNat hlen, ?_⟩
      · rw [hint]
        exact Int.natCast_dvd_natCast.mpr (Nat.dvd_of_mod_eq_zero haligned)
      · rw [hint, hlen]
        omega
    rw [if_pos hlen, transferPage_passed hd.writesize_pos cmd m hpass, ← hd.pageAddress_eq hlt]
    exact addresses_one rfl (goldfishNandCmd_issued ..)
  · rw [if_neg hlen]
    exact addresses_none
      (transferPage_refused hd.writesize_pos cmd m fun hpass => hlen hpass.2.1)

theorem Derived.operations (hd : Derived mtd info) (ctl : Controller σ)
    (haligned : ofs.toNat % mtd.erasesize.toNat = 0) (hlt : ofs.toNat < mtd.size.toNat)
    (m : Machine (List Issued × σ)) : BlockOperations ctl mtd ofs m := by
  have hpage := hd.page_aligned haligned
  refine ⟨?_, ?_, fun instr haddr => ⟨fun hpass => ?_, fun hpass => ?_⟩, fun len retlen buf =>
    hd.transferPage_addresses .read hpage hlt len retlen buf m, fun len retlen buf =>
    hd.transferPage_addresses .write hpage hlt len retlen buf m⟩
  · rw [goldfishNandBlockIsbad, hd.blockCmd_eq .blockBadGet haligned hlt, Option.map_some,
      ← hd.pageAddress_eq hlt]
    exact addresses_one rfl (goldfishNandCmd_issued ..)
  · rw [goldfishNandBlockMarkbad, hd.blockCmd_eq .blockBadSet haligned hlt, Option.map_some,
      ← hd.pageAddress_eq hlt]
    exact addresses_one rfl (goldfishNandCmd_issued ..)
  · obtain ⟨outcome, m', hrun, -, hissued⟩ := erase_issued ctl hd.writesize_pos m hpass
    rw [← hd.pageAddress_eq hlt, ← haddr]
    exact addresses_one hrun hissued
  · exact addresses_none (erase_not_passed hd.writesize_pos m hpass)

/-! ## The raw pages -/

def pageExtent (mtd : MtdInfo) (ofs : U64) : Set ℕ :=
  Set.Ico (pageStart mtd ofs) (pageStart mtd ofs + (mtd.writesize.toNat + mtd.oobsize.toNat))

theorem Derived.pageExtent_subset (hd : Derived mtd info)
    (hlt : ofs.toNat < mtd.size.toNat) : pageExtent mtd ofs ⊆ Set.Ico 0 info.rawSize.toNat :=
  Set.Ico_subset_Ico (Nat.zero_le _) (hd.page_end hlt)

theorem page_lt_disjoint {a b : U64}
    (hlt : a.toNat / mtd.writesize.toNat < b.toNat / mtd.writesize.toNat) :
    Disjoint (pageExtent mtd a) (pageExtent mtd b) := by
  have hend : pageStart mtd a + (mtd.writesize.toNat + mtd.oobsize.toNat) ≤ pageStart mtd b := by
    calc
      _ = (a.toNat / mtd.writesize.toNat + 1) * (mtd.writesize.toNat + mtd.oobsize.toNat) :=
        (Nat.succ_mul _ _).symm
      _ ≤ _ := Nat.mul_le_mul_right _ hlt
  rw [Set.disjoint_left]
  rintro x ⟨-, hx⟩ ⟨hx', -⟩
  omega

theorem pageExtent_disjoint {a b : U64} (ha : a.toNat % mtd.writesize.toNat = 0)
    (hb : b.toNat % mtd.writesize.toNat = 0) (hne : a ≠ b) :
    Disjoint (pageExtent mtd a) (pageExtent mtd b) := by
  have hpage : a.toNat / mtd.writesize.toNat ≠ b.toNat / mtd.writesize.toNat := by
    intro heq
    refine hne (BitVec.eq_of_toNat_eq ?_)
    rw [← Nat.div_mul_cancel (Nat.dvd_of_mod_eq_zero ha),
      ← Nat.div_mul_cancel (Nat.dvd_of_mod_eq_zero hb), heq]
  rcases Nat.lt_or_gt_of_ne hpage with hlt | hgt
  · exact page_lt_disjoint hlt
  · exact (page_lt_disjoint hgt).symm

theorem Derived.block_products (hd : Derived mtd info)
    (haligned : ofs.toNat % mtd.erasesize.toNat = 0) (hlt : ofs.toNat < mtd.size.toNat) :
    ofs.toNat / mtd.erasesize.toNat * (mtd.erasesize.toNat / mtd.writesize.toNat) < 2 ^ 63 ∧
    ofs.toNat / mtd.erasesize.toNat * (mtd.erasesize.toNat / mtd.writesize.toNat) *
      (mtd.writesize.toNat + mtd.oobsize.toNat) < 2 ^ 63 := by
  have hsize := hd.size_lt
  have hdiv := Nat.div_le_self ofs.toNat mtd.writesize.toNat
  rw [hd.block_page haligned]
  exact ⟨by omega, hd.pageStart_lt hlt⟩

end Derived

/-- The operations agree on the address of a block, the pages lie apart in
the raw device, and the products that lead there fit in signed words. -/
structure BlocksAgree (ctl : Controller σ) (info : DevInfo) (mtd : MtdInfo) : Prop where
  operations : ∀ (ofs : U64) (m : Machine (List Issued × σ)),
    ofs.toNat % mtd.erasesize.toNat = 0 → ofs.toNat < mtd.size.toNat →
    BlockOperations ctl mtd ofs m
  inside : ∀ ofs : U64, ofs.toNat % mtd.writesize.toNat = 0 → ofs.toNat < mtd.size.toNat →
    pageExtent mtd ofs ⊆ Set.Ico 0 info.rawSize.toNat
  disjoint : ∀ a b : U64, a.toNat % mtd.writesize.toNat = 0 → b.toNat % mtd.writesize.toNat = 0 →
    a ≠ b → Disjoint (pageExtent mtd a) (pageExtent mtd b)
  sizeProduct : info.rawSize.toNat / info.pageLen * info.pageSize.toNat < 2 ^ 63
  pageProduct : ∀ ofs : U64, ofs.toNat < mtd.size.toNat → pageStart mtd ofs < 2 ^ 63
  blockProducts : ∀ ofs : U64, ofs.toNat % mtd.erasesize.toNat = 0 →
    ofs.toNat < mtd.size.toNat →
    ofs.toNat / mtd.erasesize.toNat * (mtd.erasesize.toNat / mtd.writesize.toNat) < 2 ^ 63 ∧
    ofs.toNat / mtd.erasesize.toNat * (mtd.erasesize.toNat / mtd.writesize.toNat) *
      (mtd.writesize.toNat + mtd.oobsize.toNat) < 2 ^ 63

/-- On every device whose page length does not wrap, and whose erase blocks
hold a page, blocks and pages agree. -/
theorem init_blocksAgree {goldfishDevName rv : U32} {entry mtd : MtdInfo} {m m' : Machine σ}
    {info : DevInfo} (hinfo : ctl.info m.devices entry.id = info)
    (hpage : 1 ≤ info.pageSize.toNat) (hlen : info.pageLen < 2 ^ 32)
    (herase : info.pageLen ≤ info.eraseSize.toNat) (hraw : info.rawSize.toNat < 2 ^ 63)
    (hinit : goldfishNandInitDevice ctl goldfishDevName entry m = some (rv, mtd, m')) :
    BlocksAgree ctl info mtd := by
  have hd := derived_of_init hinfo hinit hpage hlen herase hraw
  exact {
    operations := fun ofs m haligned hlt => hd.operations ctl haligned hlt m
    inside := fun ofs _ hlt => hd.pageExtent_subset hlt
    disjoint := fun a b ha hb hne => pageExtent_disjoint ha hb hne
    sizeProduct := (div_mul_le (Nat.le_add_right _ _)).trans_lt hraw
    pageProduct := fun ofs hlt => hd.pageStart_lt hlt
    blockProducts := fun ofs haligned hlt => hd.block_products haligned hlt }

def twoBlocks : DevInfo := ⟨0, 0, 512, 16, 2112, 4224, 0⟩

theorem init_blocksAgree_twoBlocks :
    BlocksAgree (reporting twoBlocks) twoBlocks (twoBlocks.registered 0 twoPages) :=
  init_blocksAgree (m := ⟨⟨0, 0, 0, 0, 0⟩, fun _ => 0, ()⟩) rfl (by decide) (by decide)
    (by decide) (by decide)
    (init_success_iff.mpr ⟨by decide, by decide, rfl, rfl⟩).choose_spec

end Goldfish.Nand
