import Goldfish.Lib.Words
import Goldfish.Nand.Geometry

/-!
# The checks of the driver

Every operation checks its request, finds the page of the offset and
addresses the device there. For each of them one lemma says what happens to
a request that passes the checks, and one what happens to any other.
-/

namespace Goldfish.Nand

/-! ## Page addresses -/

/-- The raw address at which the page of an offset starts. -/
def pageStart (mtd : MtdInfo) (ofs : U64) : ℕ :=
  ofs.toNat / mtd.writesize.toNat * (mtd.writesize.toNat + mtd.oobsize.toNat)

/-- The address the driver makes of it, in 32-bit and 64-bit words. -/
def pageAddress (mtd : MtdInfo) (ofs : U64) : U64 :=
  BitVec.ofNat 64 (ofs.toNat / mtd.writesize.toNat) * mtd.rawPage.setWidth 64

section Addresses

variable {mtd : MtdInfo} {info : DevInfo} {ofs : U64}

theorem pageAddress_toNat : (pageAddress mtd ofs).toNat =
    ofs.toNat / mtd.writesize.toNat *
      ((mtd.writesize.toNat + mtd.oobsize.toNat) % 2 ^ 32) % 2 ^ 64 := by
  have hofs := ofs.isLt
  have hdiv := Nat.div_le_self ofs.toNat mtd.writesize.toNat
  have hraw : (mtd.rawPage.setWidth 64).toNat =
      (mtd.writesize.toNat + mtd.oobsize.toNat) % 2 ^ 32 := by
    rw [BitVec.toNat_setWidth_of_le (by decide), MtdInfo.rawPage, BitVec.toNat_add]
  rw [pageAddress, BitVec.toNat_mul, BitVec.toNat_ofNat, hraw,
    Nat.mod_eq_of_lt (a := ofs.toNat / mtd.writesize.toNat) (by omega)]

theorem pageAddress_of_fits (ofs : U64)
    (hfits : mtd.writesize.toNat + mtd.oobsize.toNat < 2 ^ 32) :
    (pageAddress mtd ofs).toNat = pageStart mtd ofs % 2 ^ 64 := by
  rw [pageAddress_toNat, Nat.mod_eq_of_lt hfits, pageStart]

theorem rawPage_toNat (hfits : mtd.writesize.toNat + mtd.oobsize.toNat < 2 ^ 32) :
    mtd.rawPage.toNat = mtd.writesize.toNat + mtd.oobsize.toNat :=
  BitVec.toNat_add_of_lt hfits

theorem writesize_ne_zero (hpage : 0 < mtd.writesize.toNat) : mtd.writesize ≠ 0 := by
  intro h0
  rw [h0] at hpage
  exact absurd hpage (lt_irrefl _)

theorem doDiv_page (hpage : 0 < mtd.writesize.toNat) :
    doDiv ofs mtd.writesize = some (BitVec.ofNat 32 (ofs.toNat % mtd.writesize.toNat),
      BitVec.ofNat 64 (ofs.toNat / mtd.writesize.toNat)) :=
  doDiv_spec ofs (writesize_ne_zero hpage)

theorem remainder_eq_zero_iff (ofs : U64) (hpage : 0 < mtd.writesize.toNat) :
    BitVec.ofNat 32 (ofs.toNat % mtd.writesize.toNat) = 0 ↔
      ofs.toNat % mtd.writesize.toNat = 0 := by
  have hmod := Nat.mod_lt ofs.toNat hpage
  have hlt := mtd.writesize.isLt
  have hzero : (0 : U32) = BitVec.ofNat 32 0 := rfl
  rw [hzero, Words.ofNat_eq_iff, Nat.zero_mod, Nat.mod_eq_of_lt (by omega)]

theorem Geometry.page_end (hg : Geometry mtd info) (hlt : ofs.toNat < mtd.size.toNat) :
    pageStart mtd ofs + (mtd.writesize.toNat + mtd.oobsize.toNat) ≤ info.rawSize.toNat := by
  rw [hg.size] at hlt
  have hpage : ofs.toNat / mtd.writesize.toNat <
      info.rawSize.toNat / (mtd.writesize.toNat + mtd.oobsize.toNat) :=
    (Nat.div_lt_iff_lt_mul hg.writesize_pos).mpr hlt
  calc
    _ = (ofs.toNat / mtd.writesize.toNat + 1) * (mtd.writesize.toNat + mtd.oobsize.toNat) :=
      (Nat.succ_mul _ _).symm
    _ ≤ info.rawSize.toNat / (mtd.writesize.toNat + mtd.oobsize.toNat) *
        (mtd.writesize.toNat + mtd.oobsize.toNat) := Nat.mul_le_mul_right _ hpage
    _ ≤ info.rawSize.toNat := Nat.div_mul_le_self _ _

theorem Geometry.pageStart_lt (hg : Geometry mtd info) (hlt : ofs.toNat < mtd.size.toNat) :
    pageStart mtd ofs < 2 ^ 63 := by
  have hend := hg.page_end hlt
  have hraw := hg.rawSize_lt
  omega

theorem Geometry.pageAddress_eq (hg : Geometry mtd info) (hlt : ofs.toNat < mtd.size.toNat) :
    (pageAddress mtd ofs).toNat = pageStart mtd ofs := by
  have hstart := hg.pageStart_lt hlt
  rw [pageAddress_of_fits ofs hg.fits, Nat.mod_eq_of_lt (by omega)]

theorem Geometry.page_le (hg : Geometry mtd info)
    (haligned : ofs.toNat % mtd.writesize.toNat = 0) (hlt : ofs.toNat < mtd.size.toNat) :
    ofs.toNat + mtd.writesize.toNat ≤ mtd.size.toNat := by
  have hdvd : mtd.writesize.toNat ∣ mtd.size.toNat := by
    rw [hg.size]
    exact Nat.dvd_mul_left _ _
  have hrest := Nat.le_of_dvd (Nat.sub_pos_of_lt hlt)
    (Nat.dvd_sub hdvd (Nat.dvd_of_mod_eq_zero haligned))
  omega

theorem Geometry.size_lt (hg : Geometry mtd info) : mtd.size.toNat < 2 ^ 63 := by
  rw [hg.size]
  exact (div_mul_le (Nat.le_add_right _ _)).trans_lt hg.rawSize_lt

end Addresses

variable {σ : Type*} {ctl : Controller σ} {mtd : MtdInfo}

/-! ## Page reads and writes -/

def PassesPage (mtd : MtdInfo) (ofs : U64) (len : U32) : Prop :=
  ¬ ofs + len.setWidth 64 > mtd.size ∧ len = mtd.writesize ∧
    ofs.toNat % mtd.writesize.toNat = 0

section Pages

variable {ofs : U64} {len retlen buf : U32}

theorem transferPage_passed (hpage : 0 < mtd.writesize.toNat) (cmd : NandCmd) (m : Machine σ)
    (h : PassesPage mtd ofs len) :
    transferPage ctl cmd mtd ofs len retlen buf m =
      some ((0, (goldfishNandCmd ctl mtd cmd (pageAddress mtd ofs) len buf m).1),
        (goldfishNandCmd ctl mtd cmd (pageAddress mtd ofs) len buf m).2) := by
  obtain ⟨hsize, hlen, hrem⟩ := h
  have hzero := (remainder_eq_zero_iff ofs hpage).mpr hrem
  rw [transferPage, if_neg hsize, if_neg (not_not.mpr hlen), doDiv_page hpage, Option.bind_some]
  simp only [hzero, ne_eq, not_true_eq_false, if_false]
  rfl

theorem transferPage_refused (hpage : 0 < mtd.writesize.toNat) (cmd : NandCmd) (m : Machine σ)
    (h : ¬ PassesPage mtd ofs len) :
    transferPage ctl cmd mtd ofs len retlen buf m = some ((einval, retlen), m) := by
  rw [transferPage]
  by_cases hsize : ofs + len.setWidth 64 > mtd.size
  · rw [if_pos hsize]
  · by_cases hlen : len = mtd.writesize
    · have hrem : BitVec.ofNat 32 (ofs.toNat % mtd.writesize.toNat) ≠ 0 :=
        fun h0 => h ⟨hsize, hlen, (remainder_eq_zero_iff _ hpage).mp h0⟩
      rw [if_neg hsize, if_neg (not_not.mpr hlen), doDiv_page hpage, Option.bind_some]
      exact if_pos hrem
    · rw [if_neg hsize, if_pos hlen]

end Pages

/-! ## Reads and writes with spare bytes -/

def PassesReadOob (mtd : MtdInfo) (ofs : U64) (ops : MtdOobOps) : Prop :=
  ¬ ofs + ops.len.setWidth 64 > mtd.size ∧
    ¬ (ops.datbuf ≠ 0 ∧ ops.len ≠ 0 ∧ ops.len ≠ mtd.writesize) ∧
    ¬ ops.ooblen + ops.ooboffs > mtd.oobsize ∧ ofs.toNat % mtd.writesize.toNat = 0

def PassesWriteOob (mtd : MtdInfo) (ofs : U64) (ops : MtdOobOps) : Prop :=
  ¬ ofs + ops.len.setWidth 64 > mtd.size ∧ ¬ (ops.len ≠ 0 ∧ ops.len ≠ mtd.writesize) ∧
    ¬ ops.ooblen + ops.ooboffs > mtd.oobsize ∧ ofs.toNat % mtd.writesize.toNat = 0

/-- The two OOB operations, with their command and their check of the length. -/
def checkedOob (ctl : Controller σ) (cmd : NandCmd) (badLen : Prop) [Decidable badLen]
    (mtd : MtdInfo) (ofs : U64) (ops : MtdOobOps) (m : Machine σ) :
    Option ((U32 × MtdOobOps) × Machine σ) :=
  let invalidArg := some ((einval, ops), m)
  if ofs + ops.len.setWidth 64 > mtd.size then invalidArg
  else if badLen then invalidArg
  else if ops.ooblen + ops.ooboffs > mtd.oobsize then invalidArg
  else
    (doDiv ofs mtd.writesize).bind fun (rem, ofs) =>
      if rem ≠ 0 then invalidArg
      else
        let ofs := ofs * mtd.rawPage.setWidth 64
        let (ops, m) := transferOob ctl cmd mtd ofs ops m
        some ((0, ops), m)

def PassesOob (badLen : Prop) (mtd : MtdInfo) (ofs : U64) (ops : MtdOobOps) : Prop :=
  ¬ ofs + ops.len.setWidth 64 > mtd.size ∧ ¬ badLen ∧ ¬ ops.ooblen + ops.ooboffs > mtd.oobsize ∧
    ofs.toNat % mtd.writesize.toNat = 0

section Oob

variable {ofs : U64} {ops : MtdOobOps} {badLen : Prop} [Decidable badLen]

theorem checkedOob_passed (hpage : 0 < mtd.writesize.toNat) (cmd : NandCmd) (m : Machine σ)
    (h : PassesOob badLen mtd ofs ops) : checkedOob ctl cmd badLen mtd ofs ops m =
      some ((0, (transferOob ctl cmd mtd (pageAddress mtd ofs) ops m).1),
        (transferOob ctl cmd mtd (pageAddress mtd ofs) ops m).2) := by
  obtain ⟨hsize, hlen, hoob, hrem⟩ := h
  have hzero := (remainder_eq_zero_iff ofs hpage).mpr hrem
  rw [checkedOob, if_neg hsize, if_neg hlen, if_neg hoob, doDiv_page hpage, Option.bind_some]
  simp only [hzero, ne_eq, not_true_eq_false, if_false]
  rfl

theorem checkedOob_refused (hpage : 0 < mtd.writesize.toNat) (cmd : NandCmd) (m : Machine σ)
    (h : ¬ PassesOob badLen mtd ofs ops) :
    checkedOob ctl cmd badLen mtd ofs ops m = some ((einval, ops), m) := by
  rw [checkedOob]
  by_cases hsize : ofs + ops.len.setWidth 64 > mtd.size
  · rw [if_pos hsize]
  · by_cases hlen : badLen
    · rw [if_neg hsize, if_pos hlen]
    · by_cases hoob : ops.ooblen + ops.ooboffs > mtd.oobsize
      · rw [if_neg hsize, if_neg hlen, if_pos hoob]
      · have hrem : BitVec.ofNat 32 (ofs.toNat % mtd.writesize.toNat) ≠ 0 :=
          fun h0 => h ⟨hsize, hlen, hoob, (remainder_eq_zero_iff _ hpage).mp h0⟩
        rw [if_neg hsize, if_neg hlen, if_neg hoob, doDiv_page hpage, Option.bind_some]
        exact if_pos hrem

theorem readOob_passed (hpage : 0 < mtd.writesize.toNat) (m : Machine σ)
    (h : PassesReadOob mtd ofs ops) :
    goldfishNandReadOob ctl mtd ofs ops m =
      some ((0, (transferOob ctl .read mtd (pageAddress mtd ofs) ops m).1),
        (transferOob ctl .read mtd (pageAddress mtd ofs) ops m).2) :=
  checkedOob_passed hpage .read m h

theorem readOob_refused (hpage : 0 < mtd.writesize.toNat) (m : Machine σ)
    (h : ¬ PassesReadOob mtd ofs ops) :
    goldfishNandReadOob ctl mtd ofs ops m = some ((einval, ops), m) :=
  checkedOob_refused hpage .read m h

theorem writeOob_passed (hpage : 0 < mtd.writesize.toNat) (m : Machine σ)
    (h : PassesWriteOob mtd ofs ops) :
    goldfishNandWriteOob ctl mtd ofs ops m =
      some ((0, (transferOob ctl .write mtd (pageAddress mtd ofs) ops m).1),
        (transferOob ctl .write mtd (pageAddress mtd ofs) ops m).2) :=
  checkedOob_passed hpage .write m h

theorem writeOob_refused (hpage : 0 < mtd.writesize.toNat) (m : Machine σ)
    (h : ¬ PassesWriteOob mtd ofs ops) :
    goldfishNandWriteOob ctl mtd ofs ops m = some ((einval, ops), m) :=
  checkedOob_refused hpage .write m h

end Oob

/-! ## Erases -/

/-- The checks of `goldfish_nand_erase`, which sees 32 bits of the length. -/
def PassesErase (mtd : MtdInfo) (instr : EraseInfo) : Prop :=
  ¬ instr.addr + (instr.len.setWidth 32).setWidth 64 > mtd.size ∧
    instr.addr.toNat % mtd.writesize.toNat = 0 ∧
    (instr.len.setWidth 32).toNat % mtd.writesize.toNat = 0

section Erase

variable {instr : EraseInfo}

def eraseLength (mtd : MtdInfo) (instr : EraseInfo) : U32 :=
  instr.len.setWidth 32 / mtd.writesize * mtd.rawPage

theorem umod_eq_zero_iff {x y : U32} : x % y = 0 ↔ x.toNat % y.toNat = 0 := by
  rw [← BitVec.toNat_inj, BitVec.toNat_umod]
  rfl

theorem erase_passed (hpage : 0 < mtd.writesize.toNat) (m : Machine σ)
    (h : PassesErase mtd instr) :
    goldfishNandErase ctl mtd instr m =
      let (rv, m) := goldfishNandCmd ctl mtd .erase (pageAddress mtd instr.addr)
        (eraseLength mtd instr) 0 m
      if rv ≠ eraseLength mtd instr then some (⟨eio, instr, []⟩, m)
      else
        let instr := { instr with state := mtdEraseDone }
        some (⟨0, instr, mtdEraseCallback instr⟩, m) := by
  obtain ⟨hsize, hrem, hlen⟩ := h
  have hzero := (remainder_eq_zero_iff instr.addr hpage).mpr hrem
  have hlen' := umod_eq_zero_iff.mpr hlen
  unfold goldfishNandErase
  simp only [hsize, if_false, doDiv_page hpage, Option.bind_some, hzero, hlen', ne_eq,
    not_true_eq_false]
  rfl

theorem erase_not_passed (hpage : 0 < mtd.writesize.toNat) (m : Machine σ)
    (h : ¬ PassesErase mtd instr) :
    goldfishNandErase ctl mtd instr m = some (⟨einval, instr, []⟩, m) := by
  unfold goldfishNandErase
  dsimp only
  by_cases hsize : instr.addr + (instr.len.setWidth 32).setWidth 64 > mtd.size
  · rw [if_pos hsize]
  · rw [if_neg hsize, doDiv_page hpage, Option.bind_some]
    by_cases hrem : instr.addr.toNat % mtd.writesize.toNat = 0
    · have hzero := (remainder_eq_zero_iff instr.addr hpage).mpr hrem
      have hlen : instr.len.setWidth 32 % mtd.writesize ≠ 0 :=
        fun h0 => h ⟨hsize, hrem, umod_eq_zero_iff.mp h0⟩
      simp only [hzero, hlen, ne_eq, not_true_eq_false, if_false, not_false_eq_true, if_true]
    · have hne : BitVec.ofNat 32 (instr.addr.toNat % mtd.writesize.toNat) ≠ 0 :=
        fun h0 => hrem ((remainder_eq_zero_iff _ hpage).mp h0)
      exact if_pos hne

end Erase

end Goldfish.Nand
