import Goldfish.Lib.Words
import Goldfish.Nand.Driver

/-!
# The geometry of a device

`goldfish_nand_init_device` derives the sizes of a device from its
registers, by divisions that round down. With a page length that does not
wrap, whole pages of data fit in the raw device together with their spare
bytes.
-/

namespace Goldfish.Nand

def DevInfo.geometry (info : DevInfo) (entry : MtdInfo) : MtdInfo :=
  { entry with
    writesize := info.pageSize
    oobsize := info.extraSize
    oobavail := info.extraSize
    erasesize := info.eraseSize / (info.pageSize + info.extraSize) * info.pageSize
    size := BitVec.ofNat 64 (info.rawSize.toNat / (info.pageSize + info.extraSize).toNat) *
      info.pageSize.setWidth 64 }

def nameRow (goldfishDevName id : U32) : U32 := goldfishDevName + goldfishDevNameMaxLen * id

def DevInfo.registered (info : DevInfo) (goldfishDevName : U32) (entry : MtdInfo) : MtdInfo :=
  { info.geometry entry with
    name := nameRow goldfishDevName entry.id
    type := mtdNandflash
    flags :=
      if info.flags &&& nandDevFlagReadOnly ≠ 0 then mtdCapNandflash &&& ~~~mtdWriteable
      else mtdCapNandflash
    ops := true }

variable {σ : Type*} {ctl : Controller σ}

def getDevName (ctl : Controller σ) (goldfishDevName : U32) (entry : MtdInfo) (m : Machine σ) :
    U32 × Machine σ :=
  goldfishNandCmd ctl entry .getDevName 0 (ctl.info m.devices entry.id).nameLen
    (nameRow goldfishDevName entry.id) { m with regs := { m.regs with dev := entry.id } }

theorem goldfishNandCmd_id {mtd mtd' : MtdInfo} (h : mtd.id = mtd'.id) (cmd : NandCmd)
    (addr : U64) (len ptr : U32) (m : Machine σ) :
    goldfishNandCmd ctl mtd cmd addr len ptr m = goldfishNandCmd ctl mtd' cmd addr len ptr m := by
  unfold goldfishNandCmd
  rw [h]

theorem goldfishNandInitDevice_eq (goldfishDevName : U32) (entry : MtdInfo) (m : Machine σ) :
    goldfishNandInitDevice ctl goldfishDevName entry m =
      let info := ctl.info m.devices entry.id
      if info.pageSize + info.extraSize = 0#32 then none
      else if info.nameLen > goldfishDevNameMaxLen then
        some (enomem, info.geometry entry, { m with regs := { m.regs with dev := entry.id } })
      else
        let (reply, m) := getDevName ctl goldfishDevName entry m
        if reply ≠ info.nameLen then some (enodev, { info.geometry entry with name := 0 }, m)
        else
          let row := nameRow goldfishDevName entry.id
          some (0, info.registered goldfishDevName entry, { m with
            mem := Function.update m.mem (row + info.nameLen) 0 }) := by
  unfold goldfishNandInitDevice
  dsimp only [MtdInfo.rawPage]
  by_cases hraw : (ctl.info m.devices entry.id).pageSize +
      (ctl.info m.devices entry.id).extraSize = 0#32
  · simp only [hraw, if_true]
  · simp only [hraw, if_false, doDiv_spec _ hraw, Option.bind_some]
    by_cases hname : (ctl.info m.devices entry.id).nameLen > goldfishDevNameMaxLen
    · simp only [hname, if_true]
      rfl
    · simp only [hname, if_false]
      have hcmd : ∀ mtd : MtdInfo, mtd.id = entry.id → goldfishNandCmd ctl mtd .getDevName 0
          (ctl.info m.devices entry.id).nameLen (goldfishDevName + goldfishDevNameMaxLen * entry.id)
          { m with regs := { m.regs with dev := entry.id } } =
            getDevName ctl goldfishDevName entry m :=
        fun mtd hid => goldfishNandCmd_id hid ..
      rw [hcmd _ (by rfl)]
      by_cases hreply : (getDevName ctl goldfishDevName entry m).1 =
          (ctl.info m.devices entry.id).nameLen
      · simp only [hreply, ne_eq, not_true_eq_false, if_false]
        rfl
      · simp only [hreply, ne_eq, not_false_eq_true, if_true]
        rfl

/-- What a call of `goldfish_nand_init_device` that returns has done. -/
inductive InitOutcome (ctl : Controller σ) (goldfishDevName : U32) (entry : MtdInfo)
    (m : Machine σ) : U32 → MtdInfo → Machine σ → Prop where
  | nameTooLong
      (hlong : (ctl.info m.devices entry.id).nameLen > goldfishDevNameMaxLen) :
      InitOutcome ctl goldfishDevName entry m enomem
        ((ctl.info m.devices entry.id).geometry entry)
        { m with regs := { m.regs with dev := entry.id } }
  | noName
      (hname : ¬ (ctl.info m.devices entry.id).nameLen > goldfishDevNameMaxLen)
      (hreply : (getDevName ctl goldfishDevName entry m).1 ≠
        (ctl.info m.devices entry.id).nameLen) :
      InitOutcome ctl goldfishDevName entry m enodev
        { (ctl.info m.devices entry.id).geometry entry with name := 0 }
        (getDevName ctl goldfishDevName entry m).2
  | registered
      (hname : ¬ (ctl.info m.devices entry.id).nameLen > goldfishDevNameMaxLen)
      (hreply : (getDevName ctl goldfishDevName entry m).1 =
        (ctl.info m.devices entry.id).nameLen) :
      InitOutcome ctl goldfishDevName entry m 0
        ((ctl.info m.devices entry.id).registered goldfishDevName entry)
        { (getDevName ctl goldfishDevName entry m).2 with
          mem := Function.update (getDevName ctl goldfishDevName entry m).2.mem
            (nameRow goldfishDevName entry.id + (ctl.info m.devices entry.id).nameLen) 0 }

theorem init_outcome_iff {goldfishDevName err : U32} {entry mtd : MtdInfo} {m m' : Machine σ} :
    goldfishNandInitDevice ctl goldfishDevName entry m = some (err, mtd, m') ↔
      (ctl.info m.devices entry.id).pageSize + (ctl.info m.devices entry.id).extraSize ≠ 0#32 ∧
        InitOutcome ctl goldfishDevName entry m err mtd m' := by
  rw [goldfishNandInitDevice_eq]
  dsimp only
  constructor
  · intro h
    split at h
    · cases h
    · rename_i hraw
      refine ⟨hraw, ?_⟩
      split at h
      · rename_i hlong
        obtain ⟨rfl, rfl, rfl⟩ := Option.some.inj h
        exact .nameTooLong hlong
      · rename_i hname
        split at h
        · rename_i hreply
          obtain ⟨rfl, rfl, rfl⟩ := Option.some.inj h
          exact .noName hname hreply
        · rename_i hreply
          obtain ⟨rfl, rfl, rfl⟩ := Option.some.inj h
          exact .registered hname (not_not.mp hreply)
  · rintro ⟨hraw, houtcome⟩
    rw [if_neg hraw]
    cases houtcome with
    | nameTooLong hlong => rw [if_pos hlong]
    | noName hname hreply => rw [if_neg hname, if_pos hreply]
    | registered hname hreply => rw [if_neg hname, if_neg (not_not.mpr hreply)]

/-- The sizes in an entry are those of the registers. -/
theorem init_sizes {goldfishDevName err : U32} {entry mtd : MtdInfo} {m m' : Machine σ}
    {info : DevInfo} (hinfo : ctl.info m.devices entry.id = info)
    (h : goldfishNandInitDevice ctl goldfishDevName entry m = some (err, mtd, m')) :
    mtd.writesize = info.pageSize ∧ mtd.oobsize = info.extraSize ∧
      mtd.erasesize = (info.geometry entry).erasesize ∧
      mtd.size = (info.geometry entry).size := by
  subst hinfo
  obtain ⟨-, houtcome⟩ := init_outcome_iff.mp h
  cases houtcome with
  | nameTooLong _ => exact ⟨rfl, rfl, rfl, rfl⟩
  | noName _ _ => exact ⟨rfl, rfl, rfl, rfl⟩
  | registered _ _ => exact ⟨rfl, rfl, rfl, rfl⟩

/-! ## The sizes -/

def DevInfo.pageLen (info : DevInfo) : ℕ := info.pageSize.toNat + info.extraSize.toNat

section Sizes

variable {info : DevInfo}

theorem rawPage_ne_zero_iff :
    info.pageSize + info.extraSize ≠ 0#32 ↔ info.pageLen ≠ 0 ∧ info.pageLen ≠ 2 ^ 32 := by
  have hpage := info.pageSize.isLt
  have hextra := info.extraSize.isLt
  have hzero : (0#32).toNat = 0 := rfl
  rw [ne_eq, ← BitVec.toNat_inj, BitVec.toNat_add, hzero]
  unfold DevInfo.pageLen
  omega

theorem geometry_erasesize (entry : MtdInfo) : (info.geometry entry).erasesize.toNat =
    info.eraseSize.toNat / (info.pageLen % 2 ^ 32) * info.pageSize.toNat % 2 ^ 32 := by
  rw [DevInfo.geometry, BitVec.toNat_mul, BitVec.toNat_udiv, BitVec.toNat_add]
  rfl

theorem geometry_size (entry : MtdInfo) : (info.geometry entry).size.toNat =
    info.rawSize.toNat / (info.pageLen % 2 ^ 32) * info.pageSize.toNat % 2 ^ 64 := by
  have hraw := info.rawSize.isLt
  have hpage := info.pageSize.isLt
  have hdiv := Nat.div_le_self info.rawSize.toNat (info.pageLen % 2 ^ 32)
  have hlen : (info.pageSize + info.extraSize).toNat = info.pageLen % 2 ^ 32 :=
    BitVec.toNat_add _ _
  rw [DevInfo.geometry, BitVec.toNat_mul, BitVec.toNat_ofNat, BitVec.toNat_setWidth, hlen,
    Nat.mod_eq_of_lt (a := info.pageSize.toNat) (by omega),
    Nat.mod_eq_of_lt (a := info.rawSize.toNat / _) (hdiv.trans_lt hraw)]

theorem div_mul_le {n r w : ℕ} (hw : w ≤ r) : n / r * w ≤ n :=
  (Nat.mul_le_mul_left _ hw).trans (Nat.div_mul_le_self n r)

end Sizes

/-- The geometry `goldfish_nand_init_device` derives from the registers. -/
structure Geometry (mtd : MtdInfo) (info : DevInfo) : Prop where
  writesize_pos : 0 < mtd.writesize.toNat
  fits : mtd.writesize.toNat + mtd.oobsize.toNat < 2 ^ 32
  rawSize_lt : info.rawSize.toNat < 2 ^ 63
  size : mtd.size.toNat =
    info.rawSize.toNat / (mtd.writesize.toNat + mtd.oobsize.toNat) * mtd.writesize.toNat

/-- Whatever comes of the initialisation, the sizes are derived. -/
theorem geometry_of_init {goldfishDevName err : U32} {entry mtd : MtdInfo} {m m' : Machine σ}
    {info : DevInfo} (hinfo : ctl.info m.devices entry.id = info)
    (hinit : goldfishNandInitDevice ctl goldfishDevName entry m = some (err, mtd, m'))
    (hpage : 0 < mtd.writesize.toNat)
    (hfits : mtd.writesize.toNat + mtd.oobsize.toNat < 2 ^ 32)
    (hraw : info.rawSize.toNat < 2 ^ 63) : Geometry mtd info := by
  obtain ⟨hwritesize, hoobsize, -, hsize⟩ := init_sizes hinfo hinit
  refine ⟨hpage, hfits, hraw, ?_⟩
  rw [hwritesize, hoobsize] at hfits ⊢
  change info.pageLen < 2 ^ 32 at hfits
  change _ = info.rawSize.toNat / info.pageLen * info.pageSize.toNat
  have hle : info.pageSize.toNat ≤ info.pageLen := Nat.le_add_right _ _
  rw [hsize, geometry_size, Nat.mod_eq_of_lt hfits,
    Nat.mod_eq_of_lt ((div_mul_le hle).trans_lt (hraw.trans (by decide)))]

/-! ## Sound geometries -/

/-- What the operations of a device and the clients of its entry divide by,
and what they address, is there. -/
structure SoundGeometry (info : DevInfo) (mtd : MtdInfo) : Prop where
  writesize_pos : 1 ≤ mtd.writesize.toNat
  erasesize_pos : 0 < mtd.erasesize.toNat
  erasesize_dvd : mtd.writesize.toNat ∣ mtd.erasesize.toNat
  size_dvd : mtd.writesize.toNat ∣ mtd.size.toNat
  fits : mtd.size.toNat / mtd.writesize.toNat * (mtd.writesize.toNat + mtd.oobsize.toNat) ≤
    info.rawSize.toNat

/-- The number of pages in a raw erase block, up to the period with which
their data repeat in 32 bits, for a page length that has wrapped. -/
def DevInfo.wrappedBlock (info : DevInfo) : ℕ :=
  info.eraseSize.toNat / (info.pageLen - 2 ^ 32) % (2 ^ 32 / info.pageSize.toNat.gcd (2 ^ 32))

def DevInfo.wrappedPages (info : DevInfo) : ℕ :=
  info.rawSize.toNat / (info.pageLen - 2 ^ 32) % (2 ^ 64 / info.pageSize.toNat.gcd (2 ^ 64))

/-- There are data in a page, and a page in an erase block; or the page
length wraps, and the sizes derived from it happen to come out right. -/
def DevInfo.GeometryFits (info : DevInfo) : Prop :=
  1 ≤ info.pageSize.toNat ∧
    (info.pageLen < 2 ^ 32 ∧ info.pageLen ≤ info.eraseSize.toNat ∨
      2 ^ 32 < info.pageLen ∧ 0 < info.wrappedBlock ∧
        info.wrappedBlock * info.pageSize.toNat < 2 ^ 32 ∧
        info.wrappedPages * info.pageLen ≤ info.rawSize.toNat)

section Sound

variable {info : DevInfo}

theorem sound_of_fits (hpos : 1 ≤ info.pageSize.toNat) (hlen : info.pageLen < 2 ^ 32)
    (entry : MtdInfo) : SoundGeometry info (info.geometry entry) ↔
      info.pageLen ≤ info.eraseSize.toNat := by
  have hle : info.pageSize.toNat ≤ info.pageLen := Nat.le_add_right _ _
  have herase := info.eraseSize.isLt
  have hraw := info.rawSize.isLt
  have hblock : (info.geometry entry).erasesize.toNat =
      info.eraseSize.toNat / info.pageLen * info.pageSize.toNat := by
    rw [geometry_erasesize, Nat.mod_eq_of_lt hlen,
      Nat.mod_eq_of_lt ((div_mul_le hle).trans_lt herase)]
  have hsize : (info.geometry entry).size.toNat =
      info.rawSize.toNat / info.pageLen * info.pageSize.toNat := by
    rw [geometry_size, Nat.mod_eq_of_lt hlen, Nat.mod_eq_of_lt ((div_mul_le hle).trans_lt hraw)]
  constructor
  · intro hsound
    by_contra hless
    have hpos' := hsound.erasesize_pos
    rw [hblock, Nat.div_eq_of_lt (not_le.mp hless), Nat.zero_mul] at hpos'
    exact absurd hpos' (lt_irrefl _)
  · intro hfit
    have hblocks : 0 < info.eraseSize.toNat / info.pageLen := Nat.div_pos hfit (by omega)
    refine ⟨hpos, ?_, ?_, ?_, ?_⟩
    · rw [hblock]
      exact Nat.mul_pos hblocks hpos
    · rw [hblock]
      exact Nat.dvd_mul_left _ _
    · rw [hsize]
      exact Nat.dvd_mul_left _ _
    · rw [hsize]
      change _ * info.pageSize.toNat / info.pageSize.toNat * info.pageLen ≤ _
      rw [Nat.mul_div_cancel _ hpos]
      exact Nat.div_mul_le_self _ _

theorem sound_of_wraps (hpos : 1 ≤ info.pageSize.toNat) (hlen : 2 ^ 32 < info.pageLen)
    (entry : MtdInfo) : SoundGeometry info (info.geometry entry) ↔
      0 < info.wrappedBlock ∧ info.wrappedBlock * info.pageSize.toNat < 2 ^ 32 ∧
        info.wrappedPages * info.pageLen ≤ info.rawSize.toNat := by
  have hpage := info.pageSize.isLt
  have hextra := info.extraSize.isLt
  have hraw := info.rawSize.isLt
  have hle : info.pageSize.toNat ≤ info.pageLen := Nat.le_add_right _ _
  have hmod : info.pageLen % 2 ^ 32 = info.pageLen - 2 ^ 32 := by
    unfold DevInfo.pageLen at hlen ⊢
    omega
  have hblock : (info.geometry entry).erasesize.toNat = _ := geometry_erasesize entry
  have hsize : (info.geometry entry).size.toNat = _ := geometry_size entry
  rw [hmod] at hblock hsize
  have hblockDvd := Words.dvd_mul_mod_iff (info.eraseSize.toNat / (info.pageLen - 2 ^ 32)) hpos
    (Nat.two_pow_pos 32)
  have hsizeDvd := Words.dvd_mul_mod_iff (info.rawSize.toNat / (info.pageLen - 2 ^ 32)) hpos
    (Nat.two_pow_pos 64)
  rw [← hblock] at hblockDvd
  rw [← hsize] at hsizeDvd
  rw [Words.mul_mod_period] at hblock hsize
  change _ ↔ info.wrappedBlock * info.pageSize.toNat < 2 ^ 32 at hblockDvd
  change _ ↔ info.wrappedPages * info.pageSize.toNat < 2 ^ 64 at hsizeDvd
  change _ = info.wrappedBlock * info.pageSize.toNat % 2 ^ 32 at hblock
  change _ = info.wrappedPages * info.pageSize.toNat % 2 ^ 64 at hsize
  constructor
  · rintro ⟨-, herase, hdvd, hsizeDvd', hfits⟩
    have hnowrap := hblockDvd.mp hdvd
    have hnowrap' := hsizeDvd.mp hsizeDvd'
    rw [hblock, Nat.mod_eq_of_lt hnowrap] at herase
    change _ / info.pageSize.toNat * info.pageLen ≤ _ at hfits
    rw [hsize, Nat.mod_eq_of_lt hnowrap', Nat.mul_div_cancel _ hpos] at hfits
    exact ⟨Nat.pos_of_mul_pos_right herase, hnowrap, hfits⟩
  · rintro ⟨hpos', hnowrap, hfits⟩
    have hnowrap' : info.wrappedPages * info.pageSize.toNat < 2 ^ 64 :=
      ((Nat.mul_le_mul_left _ hle).trans hfits).trans_lt hraw
    refine ⟨hpos, ?_, hblockDvd.mpr hnowrap, hsizeDvd.mpr hnowrap', ?_⟩
    · rw [hblock, Nat.mod_eq_of_lt hnowrap]
      exact Nat.mul_pos hpos' hpos
    · change _ / info.pageSize.toNat * info.pageLen ≤ _
      rw [hsize, Nat.mod_eq_of_lt hnowrap', Nat.mul_div_cancel _ hpos]
      exact hfits

theorem soundGeometry_iff (hraw : info.pageSize + info.extraSize ≠ 0#32) (entry : MtdInfo) :
    SoundGeometry info (info.geometry entry) ↔ info.GeometryFits := by
  have hne := rawPage_ne_zero_iff.mp hraw
  by_cases hpos : 1 ≤ info.pageSize.toNat
  · unfold DevInfo.GeometryFits
    by_cases hlen : info.pageLen < 2 ^ 32
    · rw [sound_of_fits hpos hlen]
      exact ⟨fun h => ⟨hpos, Or.inl ⟨hlen, h⟩⟩,
        fun h => (h.2.resolve_right fun hwrap => absurd hlen (not_lt.mpr hwrap.1.le)).2⟩
    · have hwrap : 2 ^ 32 < info.pageLen := lt_of_le_of_ne (not_lt.mp hlen) hne.2.symm
      rw [sound_of_wraps hpos hwrap]
      exact ⟨fun h => ⟨hpos, Or.inr ⟨hwrap, h⟩⟩,
        fun h => (h.2.resolve_left fun hfit => hlen hfit.1).2⟩
  · exact ⟨fun h => absurd h.writesize_pos hpos, fun h => absurd h.1 hpos⟩

theorem sound_registered (goldfishDevName : U32) (entry : MtdInfo) :
    SoundGeometry info (info.registered goldfishDevName entry) ↔
      SoundGeometry info (info.geometry entry) :=
  ⟨fun h => ⟨h.1, h.2, h.3, h.4, h.5⟩, fun h => ⟨h.1, h.2, h.3, h.4, h.5⟩⟩

end Sound

/-! ## Initialisation is safe -/

/-- `goldfish_nand_init_device` divides by no zero, and neither does anything
that later divides by the sizes of a device it has set up. -/
structure InitSafe (ctl : Controller σ) (goldfishDevName : U32) (entry : MtdInfo)
    (m : Machine σ) : Prop where
  defined : goldfishNandInitDevice ctl goldfishDevName entry m ≠ none
  sound : ∀ mtd m', goldfishNandInitDevice ctl goldfishDevName entry m = some (0, mtd, m') →
    SoundGeometry (ctl.info m.devices entry.id) mtd

section Safe

variable {goldfishDevName : U32} {entry : MtdInfo} {m : Machine σ}

theorem init_undefined_iff : goldfishNandInitDevice ctl goldfishDevName entry m = none ↔
    (ctl.info m.devices entry.id).pageSize + (ctl.info m.devices entry.id).extraSize = 0#32 := by
  rw [goldfishNandInitDevice_eq]
  dsimp only
  constructor
  · intro h
    by_contra hraw
    rw [if_neg hraw] at h
    split at h
    · cases h
    · split at h
      · cases h
      · cases h
  · intro hraw
    rw [if_pos hraw]

theorem init_success_iff {mtd : MtdInfo} :
    (∃ m', goldfishNandInitDevice ctl goldfishDevName entry m = some (0, mtd, m')) ↔
      (ctl.info m.devices entry.id).pageSize + (ctl.info m.devices entry.id).extraSize ≠ 0#32 ∧
      ¬ (ctl.info m.devices entry.id).nameLen > goldfishDevNameMaxLen ∧
      (getDevName ctl goldfishDevName entry m).1 = (ctl.info m.devices entry.id).nameLen ∧
      mtd = (ctl.info m.devices entry.id).registered goldfishDevName entry := by
  constructor
  · rintro ⟨m', h⟩
    obtain ⟨hraw, houtcome⟩ := init_outcome_iff.mp h
    refine ⟨hraw, ?_⟩
    generalize herr : (0 : U32) = err at houtcome
    cases houtcome with
    | nameTooLong _ => exact absurd herr (by decide)
    | noName _ _ => exact absurd herr (by decide)
    | registered hname hreply => exact ⟨hname, hreply, rfl⟩
  · rintro ⟨hraw, hname, hreply, rfl⟩
    exact ⟨_, init_outcome_iff.mpr ⟨hraw, .registered hname hreply⟩⟩

end Safe

def reporting (info : DevInfo) : Controller Unit where
  info _ _ := info
  exec _ regs mem s := (regs.transferSize, mem, s)

/-- Initialisation is safe on every device with these registers exactly if
the page length is not zero in 32 bits and, where the name is not refused,
the geometry fits. -/
theorem initSafe_iff (info : DevInfo) :
    (∀ (σ : Type) (ctl : Controller σ) (goldfishDevName : U32) (entry : MtdInfo) (m : Machine σ),
      ctl.info m.devices entry.id = info → InitSafe ctl goldfishDevName entry m) ↔
      (info.pageLen ≠ 0 ∧ info.pageLen ≠ 2 ^ 32) ∧
        (info.nameLen.toNat ≤ 64 → info.GeometryFits) := by
  have hname : ¬ info.nameLen > goldfishDevNameMaxLen ↔ info.nameLen.toNat ≤ 64 := by
    rw [gt_iff_lt, BitVec.not_lt, BitVec.le_def]
    rfl
  rw [← rawPage_ne_zero_iff, ← hname]
  constructor
  · intro hsafe
    have hreport := hsafe Unit (reporting info) 0 ⟨0, 0, 0, 0, 0, 0, 0, 0, 0, false⟩
      ⟨⟨0, 0, 0, 0, 0⟩, fun _ => 0, ()⟩ rfl
    have hraw := mt init_undefined_iff.mpr hreport.defined
    refine ⟨hraw, fun hsmall => ?_⟩
    have hsound := hreport.sound _ _ (init_success_iff.mpr ⟨hraw, hsmall, rfl, rfl⟩).choose_spec
    exact (soundGeometry_iff hraw _).mp ((sound_registered _ _).mp hsound)
  · rintro ⟨hraw, hfits⟩ σ ctl goldfishDevName entry m rfl
    refine ⟨mt init_undefined_iff.mp hraw, fun mtd m' hrun => ?_⟩
    obtain ⟨-, hsmall, -, rfl⟩ := init_success_iff.mp ⟨m', hrun⟩
    exact (sound_registered goldfishDevName entry).mpr
      ((soundGeometry_iff hraw entry).mpr (hfits hsmall))

/-- Without data in its pages a device is still set up. -/
theorem not_initSafe_no_data :
    ¬ ∀ (σ : Type) (ctl : Controller σ) (goldfishDevName : U32) (entry : MtdInfo)
      (m : Machine σ), InitSafe ctl goldfishDevName entry m := by
  intro h
  let info : DevInfo := ⟨0, 4, 0, 16, 0, 1024, 0⟩
  have hsafe := h Unit (reporting info) 0 ⟨0, 0, 0, 0, 0, 0, 0, 0, 0, false⟩
    ⟨⟨0, 0, 0, 0, 0⟩, fun _ => 0, ()⟩
  have hsound := hsafe.sound _ _
    (init_success_iff.mpr ⟨by decide, by decide, rfl, rfl⟩).choose_spec
  exact absurd hsound.writesize_pos (by decide)

end Goldfish.Nand
