import Goldfish.Nand.Requests

/-!
# How erases complete

An erase is asynchronous for its caller, who waits for the callback. The
driver calls back when the device has erased all it was asked for; when the
device has not, the driver only returns an error.
-/

namespace Goldfish.Nand

variable {σ : Type*}

def mtdEraseFailed : U8 := 0x10#8

/-- What the device answers to the erase command of a request. -/
def eraseReply (ctl : Controller σ) (mtd : MtdInfo) (instr : EraseInfo) (m : Machine σ) : U32 :=
  (goldfishNandCmd ctl mtd .erase (pageAddress mtd instr.addr) (eraseLength mtd instr) 0 m).1

/-- The state is set before the one callback and says with the result whether
the device has erased the whole raw length. -/
structure Reported (mtd : MtdInfo) (instr : EraseInfo) (reply : U32) (outcome : EraseOutcome) :
    Prop where
  called : outcome.called = if instr.callback then [outcome.instr.state] else []
  done : reply.toNat = rawLength mtd instr →
    outcome.instr.state = mtdEraseDone ∧ outcome.rv = 0
  failed : reply.toNat ≠ rawLength mtd instr →
    outcome.instr.state = mtdEraseFailed ∧ outcome.rv = eio

/-- What `mtd.h` asks of a driver. -/
structure Completes (ctl : Controller σ) (mtd : MtdInfo) (instr : EraseInfo)
    (m : Machine (List Issued × σ)) : Prop where
  rejected : ¬ PassesErase mtd instr → ∃ outcome m',
    goldfishNandErase ctl.logged mtd instr m = some (outcome, m') ∧ m'.issued = m.issued ∧
      outcome.instr = instr ∧ outcome.called = []
  issued : PassesErase mtd instr → ∃ outcome m' c,
    goldfishNandErase ctl.logged mtd instr m = some (outcome, m') ∧
      m'.issued = m.issued ++ [c] ∧ c.cmd = .erase ∧
      Reported mtd instr (eraseReply ctl.logged mtd instr m) outcome

def PastEnd (mtd : MtdInfo) (instr : EraseInfo) : Prop :=
  instr.addr + (instr.len.setWidth 32).setWidth 64 > mtd.size

/-- A reply the driver reports as it should. A failure is one only for a
request that nobody waits for and that was marked as failed before. -/
def Reportable (mtd : MtdInfo) (instr : EraseInfo) (reply : U32) : Prop :=
  (reply = eraseLength mtd instr ∧ reply.toNat = rawLength mtd instr) ∨
    (reply ≠ eraseLength mtd instr ∧ reply.toNat ≠ rawLength mtd instr ∧
      instr.callback = false ∧ instr.state = mtdEraseFailed)

section Completion

variable {ctl : Controller σ} {mtd : MtdInfo} {instr : EraseInfo}

theorem erase_pastEnd (m : Machine σ) (h : PastEnd mtd instr) :
    goldfishNandErase ctl mtd instr m = some (⟨einval, instr, []⟩, m) := if_pos h

/-- The division by an empty page. -/
theorem erase_undefined (m : Machine σ) (hend : ¬ PastEnd mtd instr) (hpage : mtd.writesize = 0) :
    goldfishNandErase ctl mtd instr m = none := by
  have hdiv : doDiv instr.addr mtd.writesize = none := if_pos hpage
  unfold goldfishNandErase
  dsimp only
  refine (if_neg hend).trans ?_
  rw [hdiv, Option.bind_none]

theorem not_passes_of_pastEnd (h : PastEnd mtd instr) : ¬ PassesErase mtd instr :=
  fun hpass => hpass.1 h

theorem completes_of_rejected {m : Machine (List Issued × σ)} (hnot : ¬ PassesErase mtd instr)
    (h : goldfishNandErase ctl.logged mtd instr m = some (⟨einval, instr, []⟩, m)) :
    Completes ctl mtd instr m :=
  ⟨fun _ => ⟨_, m, h, rfl, rfl, rfl⟩, fun hpass => absurd hpass hnot⟩

theorem completes_iff_reported {m m' : Machine (List Issued × σ)} {outcome : EraseOutcome}
    {c : Issued} (hpass : PassesErase mtd instr)
    (hrun : goldfishNandErase ctl.logged mtd instr m = some (outcome, m'))
    (hissued : m'.issued = m.issued ++ [c]) (hcmd : c.cmd = .erase) :
    Completes ctl mtd instr m ↔
      Reported mtd instr (eraseReply ctl.logged mtd instr m) outcome := by
  constructor
  · intro hcompletes
    obtain ⟨outcome', m'', c', hrun', -, -, hreported⟩ := hcompletes.issued hpass
    obtain ⟨rfl, -⟩ := Prod.mk.inj (Option.some.inj (hrun.symm.trans hrun'))
    exact hreported
  · intro hreported
    exact ⟨fun hnot => absurd hpass hnot, fun _ => ⟨_, _, c, hrun, hissued, hcmd, hreported⟩⟩

theorem reported_done_iff {reply : U32} :
    Reported mtd instr reply ⟨0, { instr with state := mtdEraseDone },
        mtdEraseCallback { instr with state := mtdEraseDone }⟩ ↔
      reply.toNat = rawLength mtd instr := by
  constructor
  · intro hreported
    by_contra hne
    have hrv : (0 : U32) = eio := (hreported.failed hne).2
    exact absurd hrv (by decide)
  · intro hfull
    exact ⟨rfl, fun _ => ⟨rfl, rfl⟩, fun hne => absurd hfull hne⟩

theorem reported_eio_iff {reply : U32} :
    Reported mtd instr reply ⟨eio, instr, []⟩ ↔ reply.toNat ≠ rawLength mtd instr ∧
      instr.callback = false ∧ instr.state = mtdEraseFailed := by
  constructor
  · intro hreported
    have hshort : reply.toNat ≠ rawLength mtd instr := by
      intro hfull
      have hrv : eio = (0 : U32) := (hreported.done hfull).2
      exact absurd hrv (by decide)
    have hcallback : instr.callback = false := by
      by_contra hcall
      have hcalled := hreported.called
      rw [if_pos ((Bool.not_eq_false _).mp hcall)] at hcalled
      cases hcalled
    exact ⟨hshort, hcallback, (hreported.failed hshort).1⟩
  · rintro ⟨hshort, hcallback, hstate⟩
    refine ⟨?_, fun hfull => absurd hfull hshort, fun _ => ⟨hstate, rfl⟩⟩
    rw [hcallback]
    rfl

theorem completes_iff_of_passed (hpage : 0 < mtd.writesize.toNat)
    (m : Machine (List Issued × σ)) (hpass : PassesErase mtd instr) :
    Completes ctl mtd instr m ↔ Reportable mtd instr (eraseReply ctl.logged mtd instr m) := by
  have hissued := goldfishNandCmd_issued ctl mtd .erase (pageAddress mtd instr.addr)
    (eraseLength mtd instr) 0 m
  by_cases hreply : eraseReply ctl.logged mtd instr m = eraseLength mtd instr
  · have hrun : goldfishNandErase ctl.logged mtd instr m =
        some (⟨0, { instr with state := mtdEraseDone },
          mtdEraseCallback { instr with state := mtdEraseDone }⟩,
          (goldfishNandCmd ctl.logged mtd .erase (pageAddress mtd instr.addr)
            (eraseLength mtd instr) 0 m).2) := by
      rw [erase_passed hpage m hpass]
      exact if_neg (not_not.mpr hreply)
    rw [completes_iff_reported hpass hrun hissued rfl, reported_done_iff]
    constructor
    · intro hfull
      exact Or.inl ⟨hreply, hfull⟩
    · rintro (⟨-, hfull⟩ | ⟨hne, -⟩)
      · exact hfull
      · exact absurd hreply hne
  · have hrun : goldfishNandErase ctl.logged mtd instr m =
        some (⟨eio, instr, []⟩, (goldfishNandCmd ctl.logged mtd .erase
          (pageAddress mtd instr.addr) (eraseLength mtd instr) 0 m).2) := by
      rw [erase_passed hpage m hpass]
      exact if_pos hreply
    rw [completes_iff_reported hpass hrun hissued rfl, reported_eio_iff]
    constructor
    · intro hfailed
      exact Or.inr ⟨hreply, hfailed⟩
    · rintro (⟨heq, -⟩ | ⟨-, hfailed⟩)
      · exact absurd heq hreply
      · exact hfailed

/-- An erase completes as its caller expects exactly if its checks end it, or
the device erases the whole length, or nobody can tell the difference. -/
theorem completes_iff (ctl : Controller σ) (mtd : MtdInfo) (instr : EraseInfo)
    (m : Machine (List Issued × σ)) :
    Completes ctl mtd instr m ↔ PastEnd mtd instr ∨ (0 < mtd.writesize.toNat ∧
      (PassesErase mtd instr → Reportable mtd instr (eraseReply ctl.logged mtd instr m))) := by
  by_cases hend : PastEnd mtd instr
  · refine iff_of_true ?_ (Or.inl hend)
    exact completes_of_rejected (not_passes_of_pastEnd hend) (erase_pastEnd m hend)
  · rw [or_iff_right hend]
    rcases Nat.eq_zero_or_pos mtd.writesize.toNat with hzero | hpage
    · have hnone : goldfishNandErase ctl.logged mtd instr m = none :=
        erase_undefined m hend (BitVec.eq_of_toNat_eq hzero)
      refine iff_of_false ?_ (fun h => absurd h.1 (by omega))
      intro hcompletes
      by_cases hpass : PassesErase mtd instr
      · obtain ⟨outcome, m', c, hrun, -⟩ := hcompletes.issued hpass
        rw [hnone] at hrun
        cases hrun
      · obtain ⟨outcome, m', hrun, -⟩ := hcompletes.rejected hpass
        rw [hnone] at hrun
        cases hrun
    · rw [and_iff_right hpage]
      by_cases hpass : PassesErase mtd instr
      · rw [completes_iff_of_passed hpage m hpass]
        exact ⟨fun h _ => h, fun h => h hpass⟩
      · refine iff_of_true ?_ (fun h => absurd h hpass)
        exact completes_of_rejected hpass (erase_not_passed hpage m hpass)

end Completion

/-- A device that erases nothing. -/
def failing : Controller Unit where
  info _ _ := ⟨0, 0, 0, 0, 0, 0, 0⟩
  exec _ _ mem s := (0, mem, s)

/-- Nobody is told that the erase has failed. -/
theorem not_completes_failing : ¬ ∀ (ctl : Controller Unit) (mtd : MtdInfo) (instr : EraseInfo),
    Completes ctl mtd instr obedientStart := by
  intro h
  have hpass : PassesErase twoPages ⟨0, 512, true, 0⟩ := by
    unfold PassesErase
    decide
  have hcompletes := h failing twoPages ⟨0, 512, true, 0⟩
  rcases (completes_iff_of_passed (by decide) _ hpass).mp hcompletes with hdone | hfailed
  · exact absurd hdone.1 (by decide)
  · exact absurd hfailed.2.2.1 (by decide)

end Goldfish.Nand
