import Goldfish.Lib.Memory
import Goldfish.Lib.Runs
import Goldfish.Nand.Geometry

/-!
# The devices of a board

`board_nand_init` sets up the devices of the controller one after the other.
It counts all of them before it has set up any, and their names go into the
rows of one table.
-/

namespace Goldfish.Nand

def maxNandDevice : ℕ := 3

def nandVersionCurrent : U32 := 1#32

structure Board (σ : Type*) extends Controller σ where
  version : U32
  numDev : U32

/-- `goldfish_nand_info` with the array it points to, and the counter of
`board_nand_init`. -/
structure NandState (σ : Type*) where
  mtdCount : U32
  mtd : Fin maxNandDevice → MtdInfo
  numDevWorking : U32
  machine : Machine σ

variable {σ : Type*}

def NandState.boot (m : Machine σ) : NandState σ :=
  ⟨0, fun i => ⟨BitVec.ofNat 32 i, 0, 0, 0, 0, 0, 0, 0, 0, false⟩, 0, m⟩

section Loop

variable (b : Board σ) (goldfishDevName : U32)

def initStep (s : NandState σ) (i : Fin maxNandDevice) : Option (NandState σ) :=
  (goldfishNandInitDevice b.toController goldfishDevName (s.mtd i) s.machine).map
    fun (err, mtd, m) => { s with
      mtd := Function.update s.mtd i mtd
      numDevWorking := if err = 0 then s.numDevWorking + 1 else s.numDevWorking
      machine := m }

def initDevices (n : ℕ) (s : NandState σ) : Option (NandState σ) :=
  Runs.run (initStep b goldfishDevName) { s with mtdCount := b.numDev, numDevWorking := 0 }
    ((List.finRange maxNandDevice).take n)

/-- That no device works makes no difference to what is left behind. -/
def boardNandInit (s : NandState σ) : Option (NandState σ) :=
  if b.version ≠ nandVersionCurrent then some s
  else if b.numDev = 0 ∨ b.numDev > BitVec.ofNat 32 maxNandDevice then some s
  else initDevices b goldfishDevName b.numDev.toNat s

end Loop

/-! ## Runs of the loop -/

section Runs

variable {b : Board σ} {goldfishDevName : U32} {n : ℕ} {s s' t : NandState σ}

theorem initStep_eq_some_iff {i : Fin maxNandDevice} :
    initStep b goldfishDevName s i = some t ↔ ∃ err mtd m,
      goldfishNandInitDevice b.toController goldfishDevName (s.mtd i) s.machine =
        some (err, mtd, m) ∧
      t = { s with
        mtd := Function.update s.mtd i mtd
        numDevWorking := if err = 0 then s.numDevWorking + 1 else s.numDevWorking
        machine := m } := by
  rw [initStep, Option.map_eq_some_iff]
  constructor
  · rintro ⟨⟨err, mtd, m⟩, hrun, rfl⟩
    exact ⟨err, mtd, m, hrun, rfl⟩
  · rintro ⟨err, mtd, m, hrun, rfl⟩
    exact ⟨(err, mtd, m), hrun, rfl⟩

theorem init_id {ctl : Controller σ} {err : U32} {entry mtd : MtdInfo} {m m' : Machine σ}
    (h : goldfishNandInitDevice ctl goldfishDevName entry m = some (err, mtd, m')) :
    mtd.id = entry.id := by
  obtain ⟨-, houtcome⟩ := init_outcome_iff.mp h
  cases houtcome with
  | nameTooLong _ => rfl
  | noName _ _ => rfl
  | registered _ _ => rfl

structure Indexed (count : U32) (s : NandState σ) : Prop where
  id : ∀ i, (s.mtd i).id = BitVec.ofNat 32 i
  mtdCount : s.mtdCount = count

theorem indexed_start (b : Board σ) (m : Machine σ) :
    Indexed b.numDev { NandState.boot m with mtdCount := b.numDev, numDevWorking := 0 } :=
  ⟨fun _ => rfl, rfl⟩

theorem Indexed.step {count : U32} (h : Indexed count s) {i : Fin maxNandDevice}
    (hstep : initStep b goldfishDevName s i = some t) : Indexed count t := by
  obtain ⟨err, mtd, m, hrun, rfl⟩ := initStep_eq_some_iff.mp hstep
  refine ⟨fun j => ?_, h.mtdCount⟩
  by_cases hij : j = i
  · rw [hij]
    exact (congrArg MtdInfo.id (Function.update_self ..)).trans ((init_id hrun).trans (h.id i))
  · exact (congrArg MtdInfo.id (Function.update_of_ne hij ..)).trans (h.id j)

theorem Indexed.run {count : U32} (h : Indexed count s) {is : List (Fin maxNandDevice)}
    (hrun : Runs.run (initStep b goldfishDevName) s is = some t) : Indexed count t :=
  Runs.invariant (fun _ _ _ hs hstep => hs.step hstep) h hrun

def laterDevices (n : ℕ) (i : Fin maxNandDevice) : List (Fin maxNandDevice) :=
  ((List.finRange maxNandDevice).take n).drop (i + 1)

theorem devices_split : ∀ n : Fin (maxNandDevice + 1), ∀ i : Fin maxNandDevice, i.val < n.val →
    (List.finRange maxNandDevice).take n =
        (List.finRange maxNandDevice).take i ++ i :: laterDevices n i ∧
      ∀ j ∈ laterDevices n i, j ≠ i ∧ j.val < n.val := by
  decide

theorem mem_devices : ∀ n : Fin (maxNandDevice + 1), ∀ i : Fin maxNandDevice,
    i ∈ (List.finRange maxNandDevice).take n → i.val < n.val := by
  decide

theorem initDevices_split {i : Fin maxNandDevice} (hn : n ≤ maxNandDevice) (hi : i.val < n) :
    initDevices b goldfishDevName n s = some s' ↔ ∃ u v,
      initDevices b goldfishDevName i s = some u ∧ initStep b goldfishDevName u i = some v ∧
      Runs.run (initStep b goldfishDevName) v (laterDevices n i) = some s' := by
  have hsplit := (devices_split ⟨n, Nat.lt_succ_of_le hn⟩ i hi).1
  rw [initDevices, hsplit, Runs.run_append_iff]
  constructor
  · rintro ⟨u, hu, hrest⟩
    obtain ⟨v, hv, hrest⟩ := Runs.run_cons_iff.mp hrest
    exact ⟨u, v, hu, hv, hrest⟩
  · rintro ⟨u, v, hu, hv, hrest⟩
    exact ⟨u, hu, Runs.run_cons_iff.mpr ⟨v, hv, hrest⟩⟩

theorem run_mtd {i : Fin maxNandDevice} {is : List (Fin maxNandDevice)} (hi : i ∉ is)
    (hrun : Runs.run (initStep b goldfishDevName) s is = some t) : t.mtd i = s.mtd i := by
  have hmeets : Runs.Meets (initStep b goldfishDevName) (fun _ j => j ≠ i) s is :=
    Runs.Meets.of_forall_mem (fun j hj _ => ne_of_mem_of_not_mem hj hi) s
  refine Runs.invariant_of_meets (I := fun u => u.mtd i = s.mtd i) ?_ rfl hmeets hrun
  intro u j v hu hj hstep
  obtain ⟨err, mtd, m, -, rfl⟩ := initStep_eq_some_iff.mp hstep
  exact (Function.update_of_ne hj.symm ..).trans hu

theorem boardNandInit_loop (hversion : b.version = nandVersionCurrent) (hpos : b.numDev ≠ 0)
    (hle : b.numDev.toNat ≤ maxNandDevice) (s : NandState σ) :
    boardNandInit b goldfishDevName s = initDevices b goldfishDevName b.numDev.toNat s := by
  have hmax : ¬ b.numDev > BitVec.ofNat 32 maxNandDevice := by
    rw [gt_iff_lt, BitVec.not_lt, BitVec.le_def]
    exact hle
  rw [boardNandInit, if_neg (not_not.mpr hversion), if_neg (not_or.mpr ⟨hpos, hmax⟩)]

end Runs

/-! ## The table of names -/

/-- The address of `goldfish_dev_name`: an array, with room for all its rows. -/
structure NameTable where
  addr : U32
  pos : 0 < addr.toNat
  fits : addr.toNat + 64 * maxNandDevice ≤ 2 ^ 32

def NameTable.row (t : NameTable) (i : Fin maxNandDevice) : Set U32 :=
  {a | t.addr.toNat + 64 * i.val ≤ a.toNat ∧ a.toNat < t.addr.toNat + 64 * (i.val + 1)}

section Rows

variable (t : NameTable) (i : Fin maxNandDevice)

theorem nameRow_toNat :
    (nameRow t.addr (BitVec.ofNat 32 i)).toNat = t.addr.toNat + 64 * i.val := by
  have hfits := t.fits
  have hi := i.isLt
  have hid : (BitVec.ofNat 32 i).toNat = i.val := by
    unfold maxNandDevice at hi
    rw [BitVec.toNat_ofNat, Nat.mod_eq_of_lt (by omega)]
  have hrow : goldfishDevNameMaxLen.toNat = 64 := rfl
  unfold maxNandDevice at hi hfits
  rw [nameRow, BitVec.toNat_add, BitVec.toNat_mul, hid, hrow,
    Nat.mod_eq_of_lt (a := 64 * i.val) (by omega), Nat.mod_eq_of_lt (by omega)]

theorem nameRow_ne_zero : nameRow t.addr (BitVec.ofNat 32 i) ≠ 0 := by
  intro h0
  have hpos := t.pos
  have hrow := nameRow_toNat t i
  have hzero : (0 : U32).toNat = 0 := rfl
  rw [h0, hzero] at hrow
  omega

end Rows

/-! ## Every device that counts works -/

/-- A board whose devices report fixed registers and replies. What a command
does to the memory and to the devices is open. -/
structure ReportedBoard (σ : Type*) extends Board σ where
  device : U32 → DevInfo
  reply : U32 → U32
  info_eq : ∀ s dev, info s dev = device dev
  reply_eq : ∀ regs mem s, (exec .getDevName regs mem s).1 = reply regs.dev

/-- The device can be set up: there is a page length to divide by, its name
is not refused, and the device gives it in full. -/
def ReportedBoard.Works (b : ReportedBoard σ) (dev : U32) : Prop :=
  ((b.device dev).pageLen ≠ 0 ∧ (b.device dev).pageLen ≠ 2 ^ 32) ∧
    (b.device dev).nameLen.toNat ≤ 64 ∧ b.reply dev = (b.device dev).nameLen

/-- The call for a device, made after those before it, has returned 0 with
this entry, which has a name and the operations. -/
structure Initialised (b : Board σ) (t : NameTable) (s : NandState σ) (i : Fin maxNandDevice)
    (mtd : MtdInfo) : Prop where
  returned : ∃ u m', initDevices b t.addr i s = some u ∧
    goldfishNandInitDevice b.toController t.addr (u.mtd i) u.machine = some (0, mtd, m')
  named : mtd.name ≠ 0
  ops : mtd.ops = true

def AllInitialised (b : Board σ) (t : NameTable) (s : NandState σ) : Prop :=
  ∃ s', boardNandInit b t.addr s = some s' ∧ s'.mtdCount.toNat ≤ maxNandDevice ∧
    ∀ i : Fin maxNandDevice, i.val < s'.mtdCount.toNat → Initialised b t s i (s'.mtd i)

section Reported

variable {b : ReportedBoard σ} {t : NameTable}

theorem name_accepted_iff {info : DevInfo} :
    ¬ info.nameLen > goldfishDevNameMaxLen ↔ info.nameLen.toNat ≤ 64 := by
  rw [gt_iff_lt, BitVec.not_lt, BitVec.le_def]
  rfl

theorem reported_success_iff {goldfishDevName : U32} {entry mtd : MtdInfo} {m : Machine σ} :
    (∃ m', goldfishNandInitDevice b.toController goldfishDevName entry m = some (0, mtd, m')) ↔
      b.Works entry.id ∧ mtd = (b.device entry.id).registered goldfishDevName entry := by
  have hreply : (getDevName b.toController goldfishDevName entry m).1 = b.reply entry.id :=
    b.reply_eq ..
  rw [init_success_iff, b.info_eq, hreply, rawPage_ne_zero_iff, name_accepted_iff]
  exact ⟨fun ⟨hraw, hname, heq, hmtd⟩ => ⟨⟨hraw, hname, heq⟩, hmtd⟩,
    fun ⟨⟨hraw, hname, heq⟩, hmtd⟩ => ⟨hraw, hname, heq, hmtd⟩⟩

theorem initDevices_exists {n : ℕ} (hn : n ≤ maxNandDevice) {m : Machine σ}
    (hraw : ∀ i : Fin maxNandDevice, i.val < n →
      (b.device (BitVec.ofNat 32 i)).pageLen ≠ 0 ∧
        (b.device (BitVec.ofNat 32 i)).pageLen ≠ 2 ^ 32) :
    ∃ s', initDevices b.toBoard t.addr n (NandState.boot m) = some s' ∧ Indexed b.numDev s' := by
  refine Runs.run_exists (I := Indexed b.numDev) ?_ (indexed_start b.toBoard m)
  intro i hi s hs
  have hdefined : goldfishNandInitDevice b.toController t.addr (s.mtd i) s.machine ≠ none := by
    rw [ne_eq, init_undefined_iff, b.info_eq, hs.id]
    exact rawPage_ne_zero_iff.mpr (hraw i (mem_devices ⟨n, Nat.lt_succ_of_le hn⟩ i hi))
  obtain ⟨⟨err, mtd, m'⟩, hrun⟩ := Option.ne_none_iff_exists'.mp hdefined
  have hstep := initStep_eq_some_iff.mpr ⟨err, mtd, m', hrun, rfl⟩
  exact ⟨_, hstep, hs.step hstep⟩

theorem loop_allInitialised_iff (hversion : b.version = nandVersionCurrent)
    (hpos : b.numDev ≠ 0) (hle : b.numDev.toNat ≤ maxNandDevice) (m : Machine σ) :
    AllInitialised b.toBoard t (NandState.boot m) ↔
      ∀ i : Fin maxNandDevice, i.val < b.numDev.toNat → b.Works (BitVec.ofNat 32 i) := by
  unfold AllInitialised
  rw [boardNandInit_loop hversion hpos hle]
  constructor
  · rintro ⟨s', hrun, -, hall⟩ i hi
    have hcount := ((indexed_start b.toBoard m).run hrun).mtdCount
    obtain ⟨u, m', hu, hcall⟩ := (hall i (hcount ▸ hi)).returned
    have hid := ((indexed_start b.toBoard m).run hu).id i
    have hworks := (reported_success_iff.mp ⟨m', hcall⟩).1
    rwa [hid] at hworks
  · intro hworks
    obtain ⟨s', hrun, hindexed⟩ := initDevices_exists (m := m) hle fun i hi => (hworks i hi).1
    refine ⟨s', hrun, hindexed.mtdCount ▸ hle, fun i hi => ?_⟩
    rw [hindexed.mtdCount] at hi
    obtain ⟨u, v, hu, hstep, hrest⟩ := (initDevices_split hle hi).mp hrun
    have hid := ((indexed_start b.toBoard m).run hu).id i
    obtain ⟨m', hcall⟩ := reported_success_iff.mpr ⟨hid ▸ hworks i hi, rfl⟩
    obtain ⟨err, mtd, m'', hcall', rfl⟩ := initStep_eq_some_iff.mp hstep
    have hsplit := devices_split ⟨_, Nat.lt_succ_of_le hle⟩ i hi
    have hlater : i ∉ laterDevices b.numDev.toNat i := fun hmem => (hsplit.2 i hmem).1 rfl
    have hmtd : s'.mtd i = mtd := (run_mtd hlater hrest).trans (Function.update_self ..)
    obtain ⟨-, rfl, -⟩ := Prod.mk.inj (Option.some.inj (hcall.symm.trans hcall'))
    rw [hmtd]
    refine ⟨⟨u, m', hu, hcall⟩, ?_, rfl⟩
    change nameRow t.addr (u.mtd i).id ≠ 0
    rw [hid]
    exact nameRow_ne_zero t i

theorem boardNandInit_idle {goldfishDevName : U32} {b : Board σ} (hidle : ¬ (b.version =
    nandVersionCurrent ∧ b.numDev ≠ 0 ∧ b.numDev.toNat ≤ maxNandDevice)) (s : NandState σ) :
    boardNandInit b goldfishDevName s = some s := by
  rw [boardNandInit]
  by_cases hversion : b.version = nandVersionCurrent
  · have hnone : b.numDev = 0 ∨ b.numDev > BitVec.ofNat 32 maxNandDevice := by
      by_contra hsome
      obtain ⟨hpos, hmax⟩ := not_or.mp hsome
      rw [gt_iff_lt, BitVec.not_lt, BitVec.le_def] at hmax
      exact hidle ⟨hversion, hpos, hmax⟩
    rw [if_neg (not_not.mpr hversion), if_pos hnone]
  · rw [if_pos hversion]

/-- All the entries that count are initialised exactly if all the devices
that the controller counts can be set up. -/
theorem allInitialised_iff (b : ReportedBoard σ) (t : NameTable) (m : Machine σ) :
    AllInitialised b.toBoard t (NandState.boot m) ↔
      (b.version = nandVersionCurrent ∧ b.numDev ≠ 0 ∧ b.numDev.toNat ≤ maxNandDevice →
        ∀ i : Fin maxNandDevice, i.val < b.numDev.toNat → b.Works (BitVec.ofNat 32 i)) := by
  by_cases hsome : b.version = nandVersionCurrent ∧ b.numDev ≠ 0 ∧
      b.numDev.toNat ≤ maxNandDevice
  · obtain ⟨hversion, hpos, hle⟩ := id hsome
    rw [loop_allInitialised_iff hversion hpos hle]
    exact ⟨fun h _ => h, fun h => h hsome⟩
  · refine ⟨fun _ h => absurd h hsome, fun _ => ?_⟩
    exact ⟨_, boardNandInit_idle hsome _, Nat.zero_le _, fun i hi => absurd hi (Nat.not_lt_zero _)⟩

end Reported

def reportedBoard (numDev : U32) (device : U32 → DevInfo) (reply : U32 → U32) :
    ReportedBoard Unit where
  info _ dev := device dev
  exec _ regs mem s := (reply regs.dev, mem, s)
  version := nandVersionCurrent
  numDev := numDev
  device := device
  reply := reply
  info_eq _ _ := rfl
  reply_eq _ _ _ := rfl

def lowTable : NameTable := ⟨0x30000, by decide, by decide⟩

theorem not_allInitialised_long_name :
    ¬ ∀ (b : ReportedBoard Unit) (t : NameTable) (m : Machine Unit),
      AllInitialised b.toBoard t (NandState.boot m) := by
  intro h
  have hall := h (reportedBoard 1 (fun _ => ⟨0, 65, 512, 16, 2112, 4224, 0⟩) fun _ => 65) lowTable
    ⟨⟨0, 0, 0, 0, 0⟩, fun _ => 0, ()⟩
  have hworks := (loop_allInitialised_iff (by decide) (by decide) (by decide) _).mp hall
    ⟨0, by decide⟩ (by decide)
  exact absurd hworks.2.1 (by decide)

end Goldfish.Nand
