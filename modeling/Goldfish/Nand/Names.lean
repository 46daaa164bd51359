import Goldfish.Nand.Board

/-!
# Names in their rows

A device writes its name into its row of the table, and the driver
terminates it there. The check of the length allows a name that fills the
row, and then the terminator is written behind it.
-/

namespace Goldfish.Nand

/-- A board whose devices have names, and write them where they are told to. -/
structure NamedBoard (σ : Type*) extends ReportedBoard σ where
  name : U32 → List U8
  version_eq : version = nandVersionCurrent
  numDev_pos : numDev ≠ 0
  numDev_le : numDev.toNat ≤ maxNandDevice
  name_nul : ∀ dev, 0 ∉ name dev
  name_len : ∀ dev, (device dev).nameLen.toNat = (name dev).length
  reply_len : ∀ dev, reply dev = (device dev).nameLen
  writes_name : ∀ regs mem s,
    (exec .getDevName regs mem s).2.1 = Memory.store mem regs.data (name regs.dev)

/-- What the call for device `i`, made in `s`, does in a run that ends in `s'`. -/
structure NameKept {σ : Type*} (b : NamedBoard σ) (t : NameTable) (i : Fin maxNandDevice)
    (s s' : NandState σ) : Prop where
  /-- Whatever is in the memory, it writes to its row only. -/
  inside : ∀ mem err mtd m', goldfishNandInitDevice b.toController t.addr (s.mtd i)
    { s.machine with mem := mem } = some (err, mtd, m') → ∀ a ∉ t.row i, m'.mem a = mem a
  kept : ∀ mtd m', goldfishNandInitDevice b.toController t.addr (s.mtd i) s.machine =
    some (0, mtd, m') → s'.mtd i = mtd ∧ mtd.name = nameRow t.addr (BitVec.ofNat 32 i) ∧
      Memory.load s'.machine.mem mtd.name ((b.name (BitVec.ofNat 32 i)).length + 1) =
        b.name (BitVec.ofNat 32 i) ++ [0]
  rejected : 64 < (b.name (BitVec.ofNat 32 i)).length + 1 → ∀ err mtd m',
    goldfishNandInitDevice b.toController t.addr (s.mtd i) s.machine = some (err, mtd, m') →
    err ≠ 0

def NamesKept {σ : Type*} (b : NamedBoard σ) (t : NameTable) (start : NandState σ) : Prop :=
  ∃ s', boardNandInit b.toBoard t.addr start = some s' ∧
    ∀ i : Fin maxNandDevice, i.val < b.numDev.toNat →
      ∃ s, initDevices b.toBoard t.addr i start = some s ∧ NameKept b t i s s'

section Names

variable {σ : Type*} {b : NamedBoard σ} {t : NameTable}

theorem getDevName_mem (goldfishDevName : U32) (entry : MtdInfo) (m : Machine σ) :
    (getDevName b.toController goldfishDevName entry m).2.mem =
      Memory.store m.mem (nameRow goldfishDevName entry.id) (b.name entry.id) :=
  b.writes_name ..

theorem named_outcome {goldfishDevName err : U32} {entry mtd : MtdInfo} {m m' : Machine σ}
    (h : goldfishNandInitDevice b.toController goldfishDevName entry m = some (err, mtd, m')) :
    64 < (b.name entry.id).length ∧ err ≠ 0 ∧ m'.mem = m.mem ∨
    (b.name entry.id).length ≤ 64 ∧ err = 0 ∧ mtd.name = nameRow goldfishDevName entry.id ∧
      m'.mem = Memory.store m.mem (nameRow goldfishDevName entry.id)
        (b.name entry.id ++ [0]) := by
  obtain ⟨-, houtcome⟩ := init_outcome_iff.mp h
  have hreply : (getDevName b.toController goldfishDevName entry m).1 =
      (b.device entry.id).nameLen := (b.reply_eq ..).trans (b.reply_len _)
  cases houtcome with
  | nameTooLong hlong =>
      rw [b.info_eq] at hlong
      have hlen := mt name_accepted_iff.mpr (not_not.mpr hlong)
      rw [b.name_len] at hlen
      exact Or.inl ⟨not_le.mp hlen, by decide, rfl⟩
  | noName _ hno =>
      rw [b.info_eq] at hno
      exact absurd hreply hno
  | registered hname _ =>
      rw [b.info_eq] at hname
      have hlen := name_accepted_iff.mp hname
      rw [b.name_len] at hlen
      refine Or.inr ⟨hlen, rfl, rfl, ?_⟩
      have hend : (b.device entry.id).nameLen = BitVec.ofNat 32 (b.name entry.id).length := by
        rw [← b.name_len, BitVec.ofNat_toNat, BitVec.setWidth_eq]
      dsimp only
      rw [b.info_eq, getDevName_mem, hend, Memory.store_concat _ _ _ (by omega)]

theorem row_far {i : Fin maxNandDevice} {a : U32} (ha : a ∉ t.row i) :
    64 ≤ (a - nameRow t.addr (BitVec.ofNat 32 i)).toNat := by
  have hrow := nameRow_toNat t i
  have hfits := t.fits
  have hi := i.isLt
  have hlt := a.isLt
  unfold maxNandDevice at hi hfits
  rw [NameTable.row, Set.mem_ofPred_eq, not_and_or] at ha
  rw [BitVec.toNat_sub, hrow]
  omega

theorem store_inside {i : Fin maxNandDevice} {mem : Mem} {cs : List U8}
    (hlen : cs.length ≤ 64) {a : U32} (ha : a ∉ t.row i) :
    Memory.store mem (nameRow t.addr (BitVec.ofNat 32 i)) cs a = mem a :=
  Memory.store_outside mem (hlen.trans (row_far ha))

theorem row_disjoint {i j : Fin maxNandDevice} (hij : i ≠ j) {a : U32} (ha : a ∈ t.row i) :
    a ∉ t.row j := by
  have hne : i.val ≠ j.val := fun h => hij (Fin.ext h)
  rintro ⟨hlow, hhigh⟩
  obtain ⟨hlow', hhigh'⟩ := ha
  omega

theorem row_mem {i : Fin maxNandDevice} {k : ℕ} (hk : k < 64) :
    nameRow t.addr (BitVec.ofNat 32 i) + BitVec.ofNat 32 k ∈ t.row i := by
  have hrow := nameRow_toNat t i
  have hfits := t.fits
  have hi := i.isLt
  unfold maxNandDevice at hi hfits
  rw [NameTable.row, Set.mem_ofPred_eq, BitVec.toNat_add, BitVec.toNat_ofNat, hrow]
  omega

theorem call_inside {i : Fin maxNandDevice} {err : U32} {entry mtd : MtdInfo} {m m' : Machine σ}
    (hid : entry.id = BitVec.ofNat 32 i) (hne : (b.name (BitVec.ofNat 32 i)).length ≠ 64)
    (h : goldfishNandInitDevice b.toController t.addr entry m = some (err, mtd, m'))
    {a : U32} (ha : a ∉ t.row i) : m'.mem a = m.mem a := by
  rcases named_outcome h with ⟨-, -, hmem⟩ | ⟨hlen, -, -, hmem⟩
  · rw [hmem]
  · rw [hid] at hlen hmem
    rw [hmem]
    refine store_inside ?_ ha
    rw [List.length_append, List.length_singleton]
    omega

theorem run_row {i : Fin maxNandDevice} {is : List (Fin maxNandDevice)} {s s' : NandState σ}
    (hs : Indexed b.numDev s)
    (his : ∀ j ∈ is, j ≠ i ∧ (b.name (BitVec.ofNat 32 j)).length ≠ 64)
    (hrun : Runs.run (initStep b.toBoard t.addr) s is = some s') :
    ∀ a ∈ t.row i, s'.machine.mem a = s.machine.mem a := by
  have hmeets : Runs.Meets (initStep b.toBoard t.addr)
      (fun _ j => j ≠ i ∧ (b.name (BitVec.ofNat 32 j)).length ≠ 64) s is :=
    Runs.Meets.of_forall_mem (fun j hj _ => his j hj) s
  refine (Runs.invariant_of_meets (I := fun u => Indexed b.numDev u ∧
    ∀ a ∈ t.row i, u.machine.mem a = s.machine.mem a) ?_ ⟨hs, fun _ _ => rfl⟩ hmeets hrun).2
  rintro u j v ⟨hu, hmem⟩ ⟨hji, hne⟩ hstep
  refine ⟨hu.step hstep, fun a ha => ?_⟩
  obtain ⟨err, mtd, m, hcall, rfl⟩ := initStep_eq_some_iff.mp hstep
  exact (call_inside (hu.id j) hne hcall (row_disjoint hji.symm ha)).trans (hmem a ha)

theorem load_name {i : Fin maxNandDevice} {mem mem' : Mem}
    (hlen : (b.name (BitVec.ofNat 32 i)).length < 64)
    (hmem : mem' = Memory.store mem (nameRow t.addr (BitVec.ofNat 32 i))
      (b.name (BitVec.ofNat 32 i) ++ [0]))
    {mem'' : Mem} (hrow : ∀ a ∈ t.row i, mem'' a = mem' a) :
    Memory.load mem'' (nameRow t.addr (BitVec.ofNat 32 i))
      ((b.name (BitVec.ofNat 32 i)).length + 1) = b.name (BitVec.ofNat 32 i) ++ [0] := by
  have hcells : (b.name (BitVec.ofNat 32 i) ++ [0]).length =
      (b.name (BitVec.ofNat 32 i)).length + 1 := by
    rw [List.length_append, List.length_singleton]
  calc
    _ = Memory.load mem' (nameRow t.addr (BitVec.ofNat 32 i))
        ((b.name (BitVec.ofNat 32 i)).length + 1) :=
      Memory.load_congr fun k hk => hrow _ (row_mem (by omega))
    _ = _ := by
      rw [hmem, ← hcells]
      exact Memory.load_store mem _ (by omega)

theorem NamesKept.no_full_row {m : Machine σ} (h : NamesKept b t (NandState.boot m))
    {i : Fin maxNandDevice} (hi : i.val < b.numDev.toNat) :
    ((b.device (BitVec.ofNat 32 i)).pageLen ≠ 0 ∧
      (b.device (BitVec.ofNat 32 i)).pageLen ≠ 2 ^ 32) ∧
    (b.name (BitVec.ofNat 32 i)).length ≠ 64 := by
  obtain ⟨s', hrun, hkept⟩ := h
  rw [boardNandInit_loop b.version_eq b.numDev_pos b.numDev_le] at hrun
  obtain ⟨s, hs, hkept⟩ := hkept i hi
  obtain ⟨u, v, hu, hstep, -⟩ := (initDevices_split b.numDev_le hi).mp hrun
  obtain rfl := Option.some.inj (hs.symm.trans hu)
  obtain ⟨err, mtd, m', hcall, -⟩ := initStep_eq_some_iff.mp hstep
  have hid := ((indexed_start b.toBoard m).run hs).id i
  have hraw := (init_outcome_iff.mp hcall).1
  rw [b.info_eq, hid] at hraw
  refine ⟨rawPage_ne_zero_iff.mp hraw, fun hfull => ?_⟩
  have hrejected := hkept.rejected (by omega) err mtd m' hcall
  rcases named_outcome hcall with ⟨hlong, -, -⟩ | ⟨-, herr, -, -⟩
  · rw [hid] at hlong
    omega
  · exact hrejected herr

/-- The names are kept apart exactly if every device has a page length to
divide by and no name fills its row. -/
theorem namesKept_iff (b : NamedBoard σ) (t : NameTable) (m : Machine σ) :
    NamesKept b t (NandState.boot m) ↔
      ∀ i : Fin maxNandDevice, i.val < b.numDev.toNat →
        ((b.device (BitVec.ofNat 32 i)).pageLen ≠ 0 ∧
          (b.device (BitVec.ofNat 32 i)).pageLen ≠ 2 ^ 32) ∧
        (b.name (BitVec.ofNat 32 i)).length ≠ 64 := by
  have hle := b.numDev_le
  constructor
  · exact fun h i hi => h.no_full_row hi
  · intro hok
    obtain ⟨s', hrun, -⟩ := initDevices_exists (b := b.toReportedBoard) (t := t) (m := m) hle
      fun i hi => (hok i hi).1
    refine ⟨s', (boardNandInit_loop b.version_eq b.numDev_pos hle _).trans hrun,
      fun i hi => ?_⟩
    obtain ⟨u, v, hu, hstep, hrest⟩ := (initDevices_split hle hi).mp hrun
    have hindexed := (indexed_start b.toBoard m).run hu
    have hid := hindexed.id i
    have hne := (hok i hi).2
    have hlater := (devices_split ⟨_, Nat.lt_succ_of_le hle⟩ i hi).2
    have hmtd := run_mtd (fun hmem => (hlater i hmem).1 rfl) hrest
    have hrow := run_row (i := i) (hindexed.step hstep)
      (fun j hj => ⟨(hlater j hj).1, (hok j (hlater j hj).2).2⟩) hrest
    obtain ⟨err, mtd, m', hcall, rfl⟩ := initStep_eq_some_iff.mp hstep
    refine ⟨u, hu, fun mem err mtd m' h a ha => ?_, fun mtd' m'' h => ?_,
      fun hlong err' _ _ h => ?_⟩
    · exact call_inside hid hne h ha
    · obtain ⟨rfl, rfl, rfl⟩ := Option.some.inj (hcall.symm.trans h)
      rcases named_outcome hcall with ⟨-, herr, -⟩ | ⟨hlen, -, hname, hmem⟩
      · exact absurd rfl herr
      · rw [hid] at hlen hname hmem
        refine ⟨hmtd.trans (Function.update_self ..), hname, ?_⟩
        rw [hname]
        exact load_name (by omega) hmem hrow
    · rcases named_outcome h with ⟨-, herr, -⟩ | ⟨hlen, -, -, -⟩
      · exact herr
      · rw [hid] at hlen
        omega

end Names

def fullBoard : NamedBoard Unit where
  toReportedBoard := {
    info _ _ := ⟨0, 64, 512, 16, 2112, 4224, 0⟩
    exec _ regs mem s := (64, Memory.store mem regs.data (List.replicate 64 0x61#8), s)
    version := nandVersionCurrent
    numDev := 2
    device _ := ⟨0, 64, 512, 16, 2112, 4224, 0⟩
    reply _ := 64
    info_eq _ _ := rfl
    reply_eq _ _ _ := rfl }
  name _ := List.replicate 64 0x61#8
  version_eq := rfl
  numDev_pos := by decide
  numDev_le := by decide
  name_nul _ := by decide
  name_len _ := rfl
  reply_len _ := rfl
  writes_name _ _ _ := rfl

/-- A name of 64 bytes is accepted. -/
theorem not_namesKept_full_row :
    ¬ ∀ (b : NamedBoard Unit) (t : NameTable) (m : Machine Unit),
      NamesKept b t (NandState.boot m) := by
  intro h
  have hkept := h fullBoard lowTable ⟨⟨0, 0, 0, 0, 0⟩, fun _ => 0, ()⟩
  have hfull := (hkept.no_full_row (i := ⟨0, by decide⟩) (by decide)).2
  exact hfull (List.length_replicate ..)

end Goldfish.Nand
