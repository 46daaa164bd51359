import Goldfish.Nand.Checks
import Goldfish.Nand.Flash
import Mathlib.Tactic.Ring

/-!
# Which requests are carried out

The operations check an offset and a length before they address the device.
A controller that keeps a list of its commands shows what they let through,
and where it goes.
-/

namespace Goldfish.Nand

/-! ## Issued commands -/

structure Issued where
  cmd : NandCmd
  regs : Regs
  deriving DecidableEq

def Issued.addr (c : Issued) : ℕ := c.regs.addrHigh.toNat * 2 ^ 32 + c.regs.addrLow.toNat

def Issued.len (c : Issued) : ℕ := c.regs.transferSize.toNat

variable {σ : Type*}

/-- A controller that keeps a list of its commands. -/
def Controller.logged (ctl : Controller σ) : Controller (List Issued × σ) where
  info s dev := ctl.info s.2 dev
  exec cmd regs mem s :=
    let (rv, mem, devices) := ctl.exec cmd regs mem s.2
    (rv, mem, s.1 ++ [⟨cmd, regs⟩], devices)

def Machine.issued (m : Machine (List Issued × σ)) : List Issued := m.devices.1

def issue (mtd : MtdInfo) (cmd : NandCmd) (addr : U64) (len ptr : U32) : Issued :=
  ⟨cmd, mtd.id, (addr >>> 32).setWidth 32, addr.setWidth 32, len, ptr⟩

@[simp] theorem issue_addr (mtd : MtdInfo) (cmd : NandCmd) (addr : U64) (len ptr : U32) :
    (issue mtd cmd addr len ptr).addr = addr.toNat := address_words addr

@[simp] theorem issue_len (mtd : MtdInfo) (cmd : NandCmd) (addr : U64) (len ptr : U32) :
    (issue mtd cmd addr len ptr).len = len.toNat := rfl

theorem goldfishNandCmd_issued (ctl : Controller σ) (mtd : MtdInfo) (cmd : NandCmd) (addr : U64)
    (len ptr : U32) (m : Machine (List Issued × σ)) :
    (goldfishNandCmd ctl.logged mtd cmd addr len ptr m).2.issued =
      m.issued ++ [issue mtd cmd addr len ptr] := rfl

/-! ## Page reads and writes -/

/-- The offset, as a signed number, is the start of a page of the device. -/
def PageInRange (mtd : MtdInfo) (ofs : U64) (len : U32) : Prop :=
  0 ≤ ofs.toInt ∧ (mtd.writesize.toNat : ℤ) ∣ ofs.toInt ∧ len.toNat = mtd.writesize.toNat ∧
    ofs.toInt + len.toNat ≤ mtd.size.toNat

/-- A transfer that is carried out exactly when it is in range: with one
command for the data of the page, and without any otherwise. -/
structure PageAnswer (cmd : NandCmd) (mtd : MtdInfo) (ofs : U64) (len retlen buf : U32)
    (m : Machine (List Issued × σ)) (o : Option ((U32 × U32) × Machine (List Issued × σ))) :
    Prop where
  carried : PageInRange mtd ofs len → ∃ reply m' c, o = some ((0, reply), m') ∧
    m'.issued = m.issued ++ [c] ∧ c.cmd = cmd ∧ c.regs.dev = mtd.id ∧
    c.addr = pageStart mtd ofs ∧ c.len = mtd.writesize.toNat ∧ c.regs.data = buf
  rejected : ¬ PageInRange mtd ofs len → ∃ m', o = some ((einval, retlen), m') ∧
    m'.issued = m.issued

section Pages

variable {ctl : Controller σ} {mtd : MtdInfo} {ofs : U64} {len retlen buf : U32}

/-- The end of a request does not wrap for an offset that is not negative. -/
theorem stop_toNat (len : U32) (hnonneg : 0 ≤ ofs.toInt) :
    (ofs + len.setWidth 64).toNat = ofs.toNat + len.toNat := by
  have hsmall : 2 * ofs.toNat < 2 ^ 64 := BitVec.toInt_pos_iff.mp hnonneg
  have hlen := len.isLt
  have hwide : (len.setWidth 64).toNat = len.toNat := BitVec.toNat_setWidth_of_le (by decide)
  rw [BitVec.toNat_add_of_lt (by omega), hwide]

theorem passesPage_iff (hnonneg : 0 ≤ ofs.toInt) :
    PassesPage mtd ofs len ↔ PageInRange mtd ofs len := by
  have hint : ofs.toInt = ofs.toNat :=
    BitVec.toInt_eq_toNat_of_lt (BitVec.toInt_pos_iff.mp hnonneg)
  have hsum := stop_toNat len hnonneg
  unfold PassesPage PageInRange
  rw [gt_iff_lt, BitVec.not_lt, BitVec.le_def, hsum, hint, BitVec.toNat_inj,
    Int.natCast_dvd_natCast,
    Nat.dvd_iff_mod_eq_zero]
  constructor
  · rintro ⟨hsize, hpage, hrem⟩
    exact ⟨by omega, hrem, hpage, by omega⟩
  · rintro ⟨-, hrem, hpage, hsize⟩
    exact ⟨by omega, hpage, hrem⟩

theorem transferPage_answer_iff (hpage : 0 < mtd.writesize.toNat)
    (hfits : mtd.writesize.toNat + mtd.oobsize.toNat < 2 ^ 32) (cmd : NandCmd)
    (m : Machine (List Issued × σ)) :
    PageAnswer cmd mtd ofs len retlen buf m
        (transferPage ctl.logged cmd mtd ofs len retlen buf m) ↔
      (PassesPage mtd ofs len → 0 ≤ ofs.toInt ∧ pageStart mtd ofs < 2 ^ 64) := by
  have haddr := pageAddress_of_fits ofs hfits
  by_cases hpass : PassesPage mtd ofs len
  · rw [transferPage_passed hpage cmd m hpass]
    constructor
    · intro hanswer _
      have hrange : PageInRange mtd ofs len := by
        by_contra hnot
        obtain ⟨m', heq, -⟩ := hanswer.rejected hnot
        have hrv : (0 : U32) = einval := congrArg (fun t => t.1.1) (Option.some.inj heq)
        exact absurd hrv (by decide)
      obtain ⟨reply, m', c, heq, hissued, -, -, hstart, -, -⟩ := hanswer.carried hrange
      have hm' : (goldfishNandCmd ctl.logged mtd cmd (pageAddress mtd ofs) len buf m).2 = m' :=
        congrArg Prod.snd (Option.some.inj heq)
      rw [← hm', goldfishNandCmd_issued, List.append_cancel_left_eq, List.singleton_inj] at hissued
      rw [← hissued, issue_addr, haddr] at hstart
      exact ⟨hrange.1, hstart ▸ Nat.mod_lt _ (Nat.two_pow_pos 64)⟩
    · intro hok
      obtain ⟨hnonneg, hstart⟩ := hok hpass
      refine ⟨fun _ => ?_, fun hnot => absurd ((passesPage_iff hnonneg).mp hpass) hnot⟩
      refine ⟨_, _, _, rfl, goldfishNandCmd_issued .., rfl, rfl, ?_, ?_, rfl⟩
      · rw [issue_addr, haddr, Nat.mod_eq_of_lt hstart]
      · exact congrArg BitVec.toNat hpass.2.1
  · rw [transferPage_refused hpage cmd m hpass]
    refine ⟨fun _ h => absurd h hpass, fun _ => ⟨fun hrange => ?_, fun _ => ⟨m, rfl, rfl⟩⟩⟩
    exact absurd ((passesPage_iff hrange.1).mpr hrange) hpass

/-- `goldfish_nand_read` and `goldfish_nand_write` are right on the same requests. -/
theorem pageRequest_iff (hpage : 0 < mtd.writesize.toNat)
    (hfits : mtd.writesize.toNat + mtd.oobsize.toNat < 2 ^ 32) (m : Machine (List Issued × σ)) :
    (PageAnswer .read mtd ofs len retlen buf m
        (goldfishNandRead ctl.logged mtd ofs len retlen buf m) ↔
      (PassesPage mtd ofs len → 0 ≤ ofs.toInt ∧ pageStart mtd ofs < 2 ^ 64)) ∧
    (PageAnswer .write mtd ofs len retlen buf m
        (goldfishNandWrite ctl.logged mtd ofs len retlen buf m) ↔
      (PassesPage mtd ofs len → 0 ≤ ofs.toInt ∧ pageStart mtd ofs < 2 ^ 64)) :=
  ⟨transferPage_answer_iff hpage hfits .read m, transferPage_answer_iff hpage hfits .write m⟩

end Pages

def obedient : Controller Unit where
  info _ _ := ⟨0, 0, 0, 0, 0, 0, 0⟩
  exec _ regs mem s := (regs.transferSize, mem, s)

def obedientStart : Machine (List Issued × Unit) := ⟨⟨0, 0, 0, 0, 0⟩, fun _ => 0, [], ()⟩

def twoPages : MtdInfo := ⟨0, mtdNandflash, mtdCapNandflash, 1024, 512, 512, 16, 16, 1, true⟩

theorem pageRequest_secondPage :
    PageAnswer .read twoPages 512 512 0 0x1000 obedientStart
      (goldfishNandRead obedient.logged twoPages 512 512 0 0x1000 obedientStart) :=
  (pageRequest_iff (by decide) (by decide) obedientStart).1.mpr fun _ => by decide

/-- The page before the first one is read as well. -/
theorem not_pageAnswer_negative :
    ¬ ∀ (mtd : MtdInfo) (ofs : U64) (len retlen buf : U32), 0 < mtd.writesize.toNat →
      mtd.writesize.toNat + mtd.oobsize.toNat < 2 ^ 32 →
      mtd.size.toNat % mtd.writesize.toNat = 0 →
      PageAnswer .read mtd ofs len retlen buf obedientStart
        (goldfishNandRead obedient.logged mtd ofs len retlen buf obedientStart) := by
  intro h
  have hpass : PassesPage twoPages (-512) 512 := by
    unfold PassesPage
    decide
  have hout : ¬ PageInRange twoPages (-512) 512 := fun hrange => absurd hrange.1 (by decide)
  have hanswer := h twoPages (-512) 512 0 0x1000 (by decide) (by decide) (by decide)
  obtain ⟨m', heq, -⟩ := hanswer.rejected hout
  rw [goldfishNandRead, transferPage_passed (by decide) .read _ hpass] at heq
  have hrv : (0 : U32) = einval := congrArg (fun t => t.1.1) (Option.some.inj heq)
  exact absurd hrv (by decide)

/-! ## Reads and writes with spare bytes -/

def Issued.Inside (c : Issued) (low high : ℕ) : Prop := low ≤ c.addr ∧ c.addr + c.len ≤ high

/-- The offset starts a page of the device, and the commands stay in it: the
data in its first bytes, the spare bytes from `ooboffs` behind these on. -/
structure OnPage (cmd : NandCmd) (mtd : MtdInfo) (ofs : U64) (ops : MtdOobOps)
    (new : List Issued) : Prop where
  aligned : ofs.toNat % mtd.writesize.toNat = 0
  lt : ofs.toNat < mtd.size.toNat
  commands : ∃ data spare, new = data ++ spare ∧
    data.length = (if ops.datbuf ≠ 0 then 1 else 0) ∧
    spare.length = (if ops.oobbuf ≠ 0 then 1 else 0) ∧
    (∀ c ∈ data, c.cmd = cmd ∧ c.len = ops.len.toNat ∧
      c.Inside (pageStart mtd ofs) (pageStart mtd ofs + mtd.writesize.toNat)) ∧
    ∀ c ∈ spare, c.cmd = cmd ∧ c.len = ops.ooblen.toNat ∧
      c.addr = pageStart mtd ofs + mtd.writesize.toNat + ops.ooboffs.toNat ∧
      c.Inside (pageStart mtd ofs + mtd.writesize.toNat)
        (pageStart mtd ofs + mtd.writesize.toNat + mtd.oobsize.toNat)

/-- A transfer that stays in its page, or does nothing. -/
structure OobAnswer (cmd : NandCmd) (mtd : MtdInfo) (ofs : U64) (ops : MtdOobOps)
    (m : Machine (List Issued × σ)) (o : Option ((U32 × MtdOobOps) × Machine (List Issued × σ))) :
    Prop where
  carried : ∀ ops' m', o = some ((0, ops'), m') →
    ∃ new, m'.issued = m.issued ++ new ∧ OnPage cmd mtd ofs ops new
  rejected : ∀ ops' m', o = some ((einval, ops'), m') → m'.issued = m.issued ∧ ops' = ops

/-- The request is not an empty one for the end of the device, and the sums
that address the page do not wrap where they are used. -/
structure OobFits (mtd : MtdInfo) (ofs : U64) (ops : MtdOobOps) : Prop where
  inside : ¬ (ops.len = 0 ∧ ofs = mtd.size)
  data : ops.datbuf ≠ 0 →
    (ofs.toNat / mtd.writesize.toNat = 0 ∨ mtd.writesize.toNat + mtd.oobsize.toNat < 2 ^ 32) ∧
      pageStart mtd ofs < 2 ^ 64
  spare : ops.oobbuf ≠ 0 →
    (ofs.toNat / mtd.writesize.toNat = 0 ∨ mtd.writesize.toNat + mtd.oobsize.toNat < 2 ^ 32) ∧
      mtd.writesize.toNat + ops.ooboffs.toNat < 2 ^ 32 ∧
      ops.ooboffs.toNat + ops.ooblen.toNat < 2 ^ 32 ∧
      pageStart mtd ofs + mtd.writesize.toNat + ops.ooboffs.toNat < 2 ^ 64

section Oob

variable {ctl : Controller σ} {mtd : MtdInfo} {ofs : U64} {ops : MtdOobOps}

def oobCommands (cmd : NandCmd) (mtd : MtdInfo) (addr : U64) (ops : MtdOobOps) : List Issued :=
  (if ops.datbuf ≠ 0 then [issue mtd cmd addr ops.len ops.datbuf] else []) ++
    if ops.oobbuf ≠ 0 then
      [issue mtd cmd (addr + (mtd.writesize + ops.ooboffs).setWidth 64) ops.ooblen ops.oobbuf]
    else []

theorem transferOob_issued (ctl : Controller σ) (cmd : NandCmd) (mtd : MtdInfo) (addr : U64)
    (ops : MtdOobOps) (m : Machine (List Issued × σ)) :
    (transferOob ctl.logged cmd mtd addr ops m).2.issued =
      m.issued ++ oobCommands cmd mtd addr ops := by
  unfold transferOob transferData transferSpare oobCommands
  by_cases hdat : ops.datbuf ≠ 0
  · by_cases hoob : ops.oobbuf ≠ 0
    · rw [if_pos hdat, if_pos hdat, if_pos hoob]
      dsimp only
      rw [if_pos hoob, goldfishNandCmd_issued, goldfishNandCmd_issued, List.append_assoc]
    · rw [if_pos hdat, if_pos hdat, if_neg hoob]
      dsimp only
      rw [if_neg hoob, goldfishNandCmd_issued, List.append_nil]
  · by_cases hoob : ops.oobbuf ≠ 0
    · rw [if_neg hdat, if_neg hdat, if_pos hoob]
      dsimp only
      rw [if_pos hoob, goldfishNandCmd_issued, List.nil_append]
    · rw [if_neg hdat, if_neg hdat, if_neg hoob]
      dsimp only
      rw [if_neg hoob, List.append_nil, List.append_nil]

theorem forall_mem_guard {P : Prop} [Decidable P] {c : Issued} {Q : Issued → Prop} :
    (∀ d ∈ (if P then [c] else []), Q d) ↔ (P → Q c) := by
  split <;> simp [*]

theorem guard_length {P : Prop} [Decidable P] (c : Issued) :
    (if P then [c] else []).length = if P then 1 else 0 := by
  split <;> rfl

theorem onPage_iff (cmd : NandCmd) (addr : U64)
    (haligned : ofs.toNat % mtd.writesize.toNat = 0) :
    OnPage cmd mtd ofs ops (oobCommands cmd mtd addr ops) ↔ ofs.toNat < mtd.size.toNat ∧
      (ops.datbuf ≠ 0 → (issue mtd cmd addr ops.len ops.datbuf).Inside (pageStart mtd ofs)
        (pageStart mtd ofs + mtd.writesize.toNat)) ∧
      (ops.oobbuf ≠ 0 →
        (issue mtd cmd (addr + (mtd.writesize + ops.ooboffs).setWidth 64) ops.ooblen
          ops.oobbuf).addr = pageStart mtd ofs + mtd.writesize.toNat + ops.ooboffs.toNat ∧
        (issue mtd cmd (addr + (mtd.writesize + ops.ooboffs).setWidth 64) ops.ooblen
          ops.oobbuf).Inside (pageStart mtd ofs + mtd.writesize.toNat)
          (pageStart mtd ofs + mtd.writesize.toNat + mtd.oobsize.toNat)) := by
  constructor
  · rintro ⟨-, hlt, data, spare, hnew, hdata, hspare, hdatas, hspares⟩
    obtain ⟨rfl, rfl⟩ := List.append_inj hnew ((guard_length _).trans hdata.symm)
    refine ⟨hlt, fun hbuf => ?_, fun hbuf => ?_⟩
    · exact (forall_mem_guard.mp hdatas hbuf).2.2
    · exact (forall_mem_guard.mp hspares hbuf).2.2
  · rintro ⟨hlt, hdata, hspare⟩
    refine ⟨haligned, hlt, _, _, rfl, guard_length _, guard_length _, ?_, ?_⟩
    · exact forall_mem_guard.mpr fun hbuf => ⟨rfl, rfl, hdata hbuf⟩
    · exact forall_mem_guard.mpr fun hbuf => ⟨rfl, rfl, hspare hbuf⟩

/-- The page number times a wrapped page length is exact or too small. -/
theorem wrapped_page (p : ℕ) {r : ℕ} (hr : r < 2 * 2 ^ 32) :
    ((p = 0 ∨ r < 2 ^ 32) ∧ p * (r % 2 ^ 32) = p * r) ∨
      (¬ (p = 0 ∨ r < 2 ^ 32) ∧ p * (r % 2 ^ 32) + 2 ^ 32 ≤ p * r) := by
  by_cases hok : p = 0 ∨ r < 2 ^ 32
  · left
    refine ⟨hok, ?_⟩
    rcases hok with rfl | hlt
    · rw [Nat.zero_mul, Nat.zero_mul]
    · rw [Nat.mod_eq_of_lt hlt]
  · right
    refine ⟨hok, ?_⟩
    have hsplit : r = r % 2 ^ 32 + 2 ^ 32 := by omega
    have hpos : 2 ^ 32 ≤ p * 2 ^ 32 := Nat.le_mul_of_pos_left _ (by omega)
    calc
      _ ≤ p * (r % 2 ^ 32) + p * 2 ^ 32 := Nat.add_le_add_left hpos _
      _ = p * r := by rw [← Nat.mul_add, ← hsplit]

theorem data_inside_iff (cmd : NandCmd) (hlen : ops.len = 0 ∨ ops.len = mtd.writesize) :
    (issue mtd cmd (pageAddress mtd ofs) ops.len ops.datbuf).Inside (pageStart mtd ofs)
        (pageStart mtd ofs + mtd.writesize.toNat) ↔
      (ofs.toNat / mtd.writesize.toNat = 0 ∨ mtd.writesize.toNat + mtd.oobsize.toNat < 2 ^ 32) ∧
        pageStart mtd ofs < 2 ^ 64 := by
  have hwrite := mtd.writesize.isLt
  have hoob := mtd.oobsize.isLt
  have hwrap := wrapped_page (ofs.toNat / mtd.writesize.toNat)
    (r := mtd.writesize.toNat + mtd.oobsize.toNat) (by omega)
  have hlen' : ops.len.toNat = 0 ∨ ops.len.toNat = mtd.writesize.toNat := by
    rcases hlen with h | h
    · exact Or.inl (congrArg BitVec.toNat h)
    · exact Or.inr (congrArg BitVec.toNat h)
  unfold Issued.Inside
  rw [issue_addr, issue_len, pageAddress_toNat]
  unfold pageStart
  omega

theorem spare_inside_iff (cmd : NandCmd) (hoob : ¬ ops.ooblen + ops.ooboffs > mtd.oobsize) :
    ((issue mtd cmd (pageAddress mtd ofs + (mtd.writesize + ops.ooboffs).setWidth 64) ops.ooblen
        ops.oobbuf).addr = pageStart mtd ofs + mtd.writesize.toNat + ops.ooboffs.toNat ∧
      (issue mtd cmd (pageAddress mtd ofs + (mtd.writesize + ops.ooboffs).setWidth 64) ops.ooblen
        ops.oobbuf).Inside (pageStart mtd ofs + mtd.writesize.toNat)
        (pageStart mtd ofs + mtd.writesize.toNat + mtd.oobsize.toNat)) ↔
      (ofs.toNat / mtd.writesize.toNat = 0 ∨ mtd.writesize.toNat + mtd.oobsize.toNat < 2 ^ 32) ∧
        mtd.writesize.toNat + ops.ooboffs.toNat < 2 ^ 32 ∧
        ops.ooboffs.toNat + ops.ooblen.toNat < 2 ^ 32 ∧
        pageStart mtd ofs + mtd.writesize.toNat + ops.ooboffs.toNat < 2 ^ 64 := by
  have hwrite := mtd.writesize.isLt
  have hsize := mtd.oobsize.isLt
  have hoffs := ops.ooboffs.isLt
  have hlen := ops.ooblen.isLt
  have hwrap := wrapped_page (ofs.toNat / mtd.writesize.toNat)
    (r := mtd.writesize.toNat + mtd.oobsize.toNat) (by omega)
  rw [gt_iff_lt, BitVec.not_lt, BitVec.le_def, BitVec.toNat_add] at hoob
  have hspare : ((mtd.writesize + ops.ooboffs).setWidth 64).toNat =
      (mtd.writesize.toNat + ops.ooboffs.toNat) % 2 ^ 32 := by
    rw [BitVec.toNat_setWidth_of_le (by decide), BitVec.toNat_add]
  unfold Issued.Inside
  rw [issue_addr, issue_len, BitVec.toNat_add, hspare, pageAddress_toNat]
  unfold pageStart
  -- whether the page length wraps decides the first condition, the offset the second
  rcases hwrap with ⟨hpage, hexact⟩ | ⟨hpage, hshort⟩
  · rcases Nat.lt_or_ge (mtd.writesize.toNat + ops.ooboffs.toNat) (2 ^ 32) with hin | hout
    · rw [Nat.mod_eq_of_lt hin]
      omega
    · omega
  · omega

theorem lt_size_iff {len : U32} (hnonneg : 0 ≤ ofs.toInt)
    (hsize : ¬ ofs + len.setWidth 64 > mtd.size) :
    ofs.toNat < mtd.size.toNat ↔ ¬ (len = 0 ∧ ofs = mtd.size) := by
  rw [gt_iff_lt, BitVec.not_lt, BitVec.le_def, stop_toNat len hnonneg] at hsize
  rw [← BitVec.toNat_inj, ← BitVec.toNat_inj]
  have hzero : (0 : U32).toNat = 0 := rfl
  omega

theorem onPage_iff_fits (cmd : NandCmd) (hnonneg : 0 ≤ ofs.toInt)
    (hsize : ¬ ofs + ops.len.setWidth 64 > mtd.size)
    (haligned : ofs.toNat % mtd.writesize.toNat = 0)
    (hlen : ops.datbuf ≠ 0 → ops.len = 0 ∨ ops.len = mtd.writesize)
    (hoob : ¬ ops.ooblen + ops.ooboffs > mtd.oobsize) :
    OnPage cmd mtd ofs ops (oobCommands cmd mtd (pageAddress mtd ofs) ops) ↔
      OobFits mtd ofs ops := by
  rw [onPage_iff cmd _ haligned, lt_size_iff hnonneg hsize]
  constructor
  · rintro ⟨hlt, hdata, hspare⟩
    exact ⟨hlt, fun hbuf => (data_inside_iff cmd (hlen hbuf)).mp (hdata hbuf),
      fun hbuf => (spare_inside_iff cmd hoob).mp (hspare hbuf)⟩
  · rintro ⟨hlt, hdata, hspare⟩
    exact ⟨hlt, fun hbuf => (data_inside_iff cmd (hlen hbuf)).mpr (hdata hbuf),
      fun hbuf => (spare_inside_iff cmd hoob).mpr (hspare hbuf)⟩

theorem oobAnswer_of_refused {cmd : NandCmd} {m : Machine (List Issued × σ)}
    {o : Option ((U32 × MtdOobOps) × Machine (List Issued × σ))}
    (ho : o = some ((einval, ops), m)) : OobAnswer cmd mtd ofs ops m o := by
  subst ho
  refine ⟨fun ops' m' h => ?_, fun ops' m' h => ?_⟩
  · have hrv : einval = 0 := congrArg (fun t => t.1.1) (Option.some.inj h)
    exact absurd hrv (by decide)
  · obtain ⟨hops, rfl⟩ := Prod.mk.inj (Option.some.inj h)
    exact ⟨rfl, (Prod.mk.inj hops).2.symm⟩

theorem oobAnswer_of_passed {cmd : NandCmd} {m m' : Machine (List Issued × σ)} {ops' : MtdOobOps}
    {o : Option ((U32 × MtdOobOps) × Machine (List Issued × σ))} {new : List Issued}
    (ho : o = some ((0, ops'), m')) (hissued : m'.issued = m.issued ++ new) :
    OobAnswer cmd mtd ofs ops m o ↔ OnPage cmd mtd ofs ops new := by
  subst ho
  constructor
  · intro hanswer
    obtain ⟨new', hnew, honPage⟩ := hanswer.carried ops' m' rfl
    rw [hissued, List.append_cancel_left_eq] at hnew
    exact hnew ▸ honPage
  · intro honPage
    refine ⟨fun ops'' m'' h => ?_, fun ops'' m'' h => ?_⟩
    · obtain ⟨-, rfl⟩ := Prod.mk.inj (Option.some.inj h)
      exact ⟨new, hissued, honPage⟩
    · have hrv : 0 = einval := congrArg (fun t => t.1.1) (Option.some.inj h)
      exact absurd hrv (by decide)

/-- Whatever the check of the length is, as long as it looks at the length of
a transfer of data. -/
theorem checkedOob_answer_iff (hpage : 0 < mtd.writesize.toNat) (hnonneg : 0 ≤ ofs.toInt)
    (cmd : NandCmd) {badLen : Prop} [Decidable badLen]
    (hlen : ¬ badLen → ops.datbuf ≠ 0 → ops.len = 0 ∨ ops.len = mtd.writesize)
    (m : Machine (List Issued × σ)) :
    OobAnswer cmd mtd ofs ops m (checkedOob ctl.logged cmd badLen mtd ofs ops m) ↔
      (PassesOob badLen mtd ofs ops → OobFits mtd ofs ops) := by
  by_cases hpass : PassesOob badLen mtd ofs ops
  · rw [oobAnswer_of_passed (checkedOob_passed hpage cmd m hpass) (transferOob_issued ..),
      onPage_iff_fits cmd hnonneg hpass.1 hpass.2.2.2 (hlen hpass.2.1) hpass.2.2.1]
    exact ⟨fun hfits _ => hfits, fun hfits => hfits hpass⟩
  · exact ⟨fun _ h => absurd h hpass,
      fun _ => oobAnswer_of_refused (checkedOob_refused hpage cmd m hpass)⟩

/-- The OOB operations are right unless their checks let through an empty
request at the end of the device or a sum that wraps. -/
theorem oobRequest_iff (hpage : 0 < mtd.writesize.toNat) (hnonneg : 0 ≤ ofs.toInt)
    (m : Machine (List Issued × σ)) :
    (OobAnswer .read mtd ofs ops m (goldfishNandReadOob ctl.logged mtd ofs ops m) ↔
      (PassesReadOob mtd ofs ops → OobFits mtd ofs ops)) ∧
    (OobAnswer .write mtd ofs ops m (goldfishNandWriteOob ctl.logged mtd ofs ops m) ↔
      (PassesWriteOob mtd ofs ops → OobFits mtd ofs ops)) := by
  refine ⟨checkedOob_answer_iff hpage hnonneg .read (fun hgood hbuf => ?_) m,
    checkedOob_answer_iff hpage hnonneg .write (fun hgood _ => ?_) m⟩
  · by_contra hbad
    exact hgood ⟨hbuf, fun h0 => hbad (Or.inl h0), fun h1 => hbad (Or.inr h1)⟩
  · by_contra hbad
    exact hgood ⟨fun h0 => hbad (Or.inl h0), fun h1 => hbad (Or.inr h1)⟩

end Oob

def spareOps (len ooblen ooboffs : U32) : MtdOobOps := ⟨len, 0, ooblen, 0, ooboffs, 0, 0x1000⟩

theorem oobRequest_secondPage :
    OobAnswer .write twoPages 512 (spareOps 0 16 0) obedientStart
      (goldfishNandWriteOob obedient.logged twoPages 512 (spareOps 0 16 0) obedientStart) :=
  (oobRequest_iff (by decide) (by decide) obedientStart).2.mpr fun _ =>
    ⟨by decide, by decide, by decide⟩

/-- The spare bytes of the page behind the last one are written as well. -/
theorem not_oobAnswer_at_end :
    ¬ ∀ (mtd : MtdInfo) (ofs : U64) (ops : MtdOobOps), 0 < mtd.writesize.toNat →
      mtd.size.toNat % mtd.writesize.toNat = 0 → 0 ≤ ofs.toInt →
      OobAnswer .write mtd ofs ops obedientStart
        (goldfishNandWriteOob obedient.logged mtd ofs ops obedientStart) := by
  intro h
  have hpass : PassesWriteOob twoPages 1024 (spareOps 0 16 0) := by
    unfold PassesWriteOob
    decide
  have hanswer := h twoPages 1024 (spareOps 0 16 0) (by decide) (by decide) (by decide)
  obtain ⟨new, -, honPage⟩ := hanswer.carried _ _ (writeOob_passed (by decide) _ hpass)
  exact absurd honPage.lt (by decide)

/-! ## Erases -/

def EraseInRange (mtd : MtdInfo) (instr : EraseInfo) : Prop :=
  instr.addr.toNat % mtd.writesize.toNat = 0 ∧ instr.len.toNat % mtd.writesize.toNat = 0 ∧
    instr.addr.toNat + instr.len.toNat ≤ mtd.size.toNat

def rawLength (mtd : MtdInfo) (instr : EraseInfo) : ℕ :=
  instr.len.toNat / mtd.writesize.toNat * (mtd.writesize.toNat + mtd.oobsize.toNat)

/-- An erase that reports success has erased its range, and nothing is done
for a range that is not one of whole pages. -/
structure EraseAnswer (mtd : MtdInfo) (instr : EraseInfo) (m : Machine (List Issued × σ))
    (o : Option (EraseOutcome × Machine (List Issued × σ))) : Prop where
  done : ∀ outcome m', o = some (outcome, m') → outcome.rv = 0 → EraseInRange mtd instr ∧
    ∃ c, m'.issued = m.issued ++ [c] ∧ c.cmd = .erase ∧ c.addr = pageStart mtd instr.addr ∧
      c.len = rawLength mtd instr
  rejected : ¬ EraseInRange mtd instr → ∃ outcome m', o = some (outcome, m') ∧
    outcome.rv = einval ∧ m'.issued = m.issued

section Erase

variable {ctl : Controller σ} {mtd : MtdInfo} {instr : EraseInfo}

theorem erase_issued (ctl : Controller σ) (hpage : 0 < mtd.writesize.toNat)
    (m : Machine (List Issued × σ)) (h : PassesErase mtd instr) :
    ∃ outcome m', goldfishNandErase ctl.logged mtd instr m = some (outcome, m') ∧
      (outcome.rv = 0 ∨ outcome.rv = eio) ∧
      m'.issued = m.issued ++
        [issue mtd .erase (pageAddress mtd instr.addr) (eraseLength mtd instr) 0] := by
  rw [erase_passed hpage m h]
  dsimp only
  split
  · exact ⟨_, _, rfl, Or.inr rfl, goldfishNandCmd_issued ..⟩
  · exact ⟨_, _, rfl, Or.inl rfl, goldfishNandCmd_issued ..⟩

theorem eraseLength_toNat
    (hfits : mtd.writesize.toNat + mtd.oobsize.toNat < 2 ^ 32) (hlen : instr.len.toNat < 2 ^ 32) :
    (eraseLength mtd instr).toNat = rawLength mtd instr % 2 ^ 32 := by
  rw [eraseLength, BitVec.toNat_mul, BitVec.toNat_udiv, BitVec.toNat_setWidth, rawPage_toNat hfits,
    Nat.mod_eq_of_lt hlen, rawLength]

structure EraseFits (mtd : MtdInfo) (instr : EraseInfo) : Prop where
  len : instr.len.toNat < 2 ^ 32
  sum : instr.addr.toNat + instr.len.toNat < 2 ^ 64
  rawLen : rawLength mtd instr < 2 ^ 32
  start : pageStart mtd instr.addr < 2 ^ 64

theorem eraseInRange_of_passes (hpass : PassesErase mtd instr) (hfits : EraseFits mtd instr) :
    EraseInRange mtd instr := by
  obtain ⟨hsize, hrem, hlen⟩ := hpass
  have hsmall := hfits.len
  have hsum := hfits.sum
  have hword : (instr.len.setWidth 32).toNat = instr.len.toNat := by
    rw [BitVec.toNat_setWidth, Nat.mod_eq_of_lt hsmall]
  have hwide : ((instr.len.setWidth 32).setWidth 64).toNat = instr.len.toNat := by
    rw [BitVec.toNat_setWidth_of_le (by decide), hword]
  rw [gt_iff_lt, BitVec.not_lt, BitVec.le_def, BitVec.toNat_add_of_lt (by omega), hwide] at hsize
  rw [hword] at hlen
  exact ⟨hrem, hlen, hsize⟩

theorem obedient_erase (hpage : 0 < mtd.writesize.toNat) (h : PassesErase mtd instr) :
    ∃ outcome m', goldfishNandErase obedient.logged mtd instr obedientStart = some (outcome, m') ∧
      outcome.rv = 0 ∧ m'.issued =
        [issue mtd .erase (pageAddress mtd instr.addr) (eraseLength mtd instr) 0] := by
  have hreply : (goldfishNandCmd obedient.logged mtd .erase (pageAddress mtd instr.addr)
      (eraseLength mtd instr) 0 obedientStart).1 = eraseLength mtd instr := rfl
  rw [erase_passed hpage _ h]
  dsimp only
  rw [if_neg (not_not.mpr hreply)]
  exact ⟨_, _, rfl, rfl, rfl⟩

/-- An erase is right on every device unless the checks let through a
request that does not fit. -/
theorem eraseRequest_iff (hpage : 0 < mtd.writesize.toNat)
    (hfits : mtd.writesize.toNat + mtd.oobsize.toNat < 2 ^ 32) :
    (∀ (σ : Type) (ctl : Controller σ) (m : Machine (List Issued × σ)),
      EraseAnswer mtd instr m (goldfishNandErase ctl.logged mtd instr m)) ↔
      (PassesErase mtd instr → EraseFits mtd instr) := by
  have haddr := pageAddress_of_fits instr.addr hfits
  constructor
  · intro hanswer hpass
    obtain ⟨outcome, m', hrun, hrv, hissued⟩ := obedient_erase hpage hpass
    obtain ⟨hrange, c, hc, -, hstart, hlen⟩ :=
      (hanswer Unit obedient obedientStart).done outcome m' hrun hrv
    have hcommand : issue mtd .erase (pageAddress mtd instr.addr) (eraseLength mtd instr) 0 = c :=
      List.singleton_inj.mp (hissued.symm.trans hc)
    have hsize := mtd.size.isLt
    have hlt := (eraseLength mtd instr).isLt
    rw [← hcommand, issue_addr, haddr] at hstart
    rw [← hcommand, issue_len] at hlen
    have hbound : instr.len.toNat ≤ rawLength mtd instr := by
      calc
        _ = instr.len.toNat / mtd.writesize.toNat * mtd.writesize.toNat :=
          (Nat.div_mul_cancel (Nat.dvd_of_mod_eq_zero hrange.2.1)).symm
        _ ≤ _ := Nat.mul_le_mul_left _ (Nat.le_add_right _ _)
    have hsum := hrange.2.2
    refine ⟨by omega, by omega, by omega, ?_⟩
    exact hstart ▸ Nat.mod_lt _ (Nat.two_pow_pos 64)
  · intro hok σ ctl m
    by_cases hpass : PassesErase mtd instr
    · have hreq := hok hpass
      have hrange := eraseInRange_of_passes hpass hreq
      refine ⟨fun outcome m' hrun _ => ⟨hrange, ?_⟩, fun hnot => absurd hrange hnot⟩
      obtain ⟨outcome', m'', hrun', -, hissued⟩ := erase_issued ctl hpage m hpass
      obtain ⟨-, rfl⟩ := Prod.mk.inj (Option.some.inj (hrun.symm.trans hrun'))
      refine ⟨_, hissued, rfl, ?_, ?_⟩
      · rw [issue_addr, haddr, Nat.mod_eq_of_lt hreq.start]
      · rw [issue_len, eraseLength_toNat hfits hreq.len, Nat.mod_eq_of_lt hreq.rawLen]
    · have hrun : goldfishNandErase ctl.logged mtd instr m = some (⟨einval, instr, []⟩, m) :=
        erase_not_passed hpage m hpass
      refine ⟨fun outcome m' h hrv => ?_, fun _ => ⟨_, m, hrun, rfl, rfl⟩⟩
      obtain ⟨rfl, -⟩ := Prod.mk.inj (Option.some.inj (hrun.symm.trans h))
      have hne : einval ≠ 0 := by decide
      exact absurd hrv hne

end Erase

theorem eraseRequest_bothPages :
    EraseAnswer twoPages ⟨0, 1024, true, 0⟩ obedientStart
      (goldfishNandErase obedient.logged twoPages ⟨0, 1024, true, 0⟩ obedientStart) :=
  (eraseRequest_iff (by decide) (by decide)).mpr
    (fun _ => ⟨by decide, by decide, by decide, by decide⟩) Unit obedient obedientStart

/-- A device of 8 GiB, and an erase of 4 GiB and a page. -/
def largeDevice : MtdInfo := { twoPages with size := 0x200000000 }

def largeErase : EraseInfo := ⟨0, 0x100000200, true, 0⟩

/-- The large erase is done with one page. -/
theorem not_eraseAnswer_large :
    ¬ ∀ (mtd : MtdInfo) (instr : EraseInfo), 0 < mtd.writesize.toNat →
      mtd.writesize.toNat + mtd.oobsize.toNat < 2 ^ 32 →
      mtd.size.toNat % mtd.writesize.toNat = 0 →
      EraseAnswer mtd instr obedientStart
        (goldfishNandErase obedient.logged mtd instr obedientStart) := by
  intro h
  have hpass : PassesErase largeDevice largeErase := by
    unfold PassesErase
    decide
  have hanswer := h largeDevice largeErase (by decide) (by decide) (by decide)
  obtain ⟨outcome, m', hrun, hrv, -⟩ := obedient_erase (by decide) hpass
  obtain ⟨-, c, -, -, -, hlen⟩ := hanswer.done outcome m' hrun hrv
  have hlt : c.len < 2 ^ 32 := c.regs.transferSize.isLt
  rw [hlen] at hlt
  exact absurd hlt (by decide)

end Goldfish.Nand
