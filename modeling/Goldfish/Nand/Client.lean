import Goldfish.Lib.Runs
import Goldfish.Nand.Store

/-!
# The clients of the driver

A client calls the read, write and erase operations of one initialised
device in any order, with whatever it keeps in memory at each call. The
page store answers the same calls, and each byte of it is what the last
call that put something there has put.
-/

namespace Goldfish.Nand

inductive Call where
  | read (ofs : U64) (len retlen buf : U32)
  | write (ofs : U64) (len retlen buf : U32)
  | readOob (ofs : U64) (ops : MtdOobOps)
  | writeOob (ofs : U64) (ops : MtdOobOps)
  | erase (instr : EraseInfo)
  deriving DecidableEq

inductive Result where
  | page (rv retlen : U32)
  | oob (rv : U32) (ops : MtdOobOps)
  | erase (outcome : EraseOutcome)
  deriving DecidableEq

structure Request where
  mem : Mem
  call : Call

structure Reply where
  result : Result
  mem : Mem

def Call.perform (mtd : MtdInfo) (m : Machine Population) :
    Call → Option (Result × Machine Population)
  | .read ofs len retlen buf =>
      (goldfishNandRead flashController mtd ofs len retlen buf m).map
        fun ((rv, retlen), m) => (.page rv retlen, m)
  | .write ofs len retlen buf =>
      (goldfishNandWrite flashController mtd ofs len retlen buf m).map
        fun ((rv, retlen), m) => (.page rv retlen, m)
  | .readOob ofs ops =>
      (goldfishNandReadOob flashController mtd ofs ops m).map
        fun ((rv, ops), m) => (.oob rv ops, m)
  | .writeOob ofs ops =>
      (goldfishNandWriteOob flashController mtd ofs ops m).map
        fun ((rv, ops), m) => (.oob rv ops, m)
  | .erase instr =>
      (goldfishNandErase flashController mtd instr m).map
        fun (outcome, m) => (.erase outcome, m)

/-- The driver at work. An undefined call has no reply. -/
def drive (mtd : MtdInfo) (m : Machine Population) (r : Request) :
    Option Reply × Machine Population :=
  let m := { m with mem := r.mem }
  match r.call.perform mtd m with
  | some (result, m) => (some ⟨result, m.mem⟩, m)
  | none => (none, m)

/-! ## The abstract client -/

/-- A reply of the store. It does not say what an erase that ends inside a
page returns if its length takes more than 32 bits. -/
structure StoreReply where
  result : Option Result
  mem : Mem

variable {W O : ℕ}

def pageOf (W : ℕ) (ofs : U64) : ℕ := ofs.toNat / W

def MtdOobOps.dataDone (ops : MtdOobOps) : MtdOobOps :=
  { ops with retlen := if ops.datbuf ≠ 0 then ops.len else ops.retlen }

def MtdOobOps.spareDone (ops : MtdOobOps) : MtdOobOps :=
  { ops with oobretlen := if ops.oobbuf ≠ 0 then ops.ooblen else ops.oobretlen }

def Page.readData (page : Page W O) (ops : MtdOobOps) (mem : Mem) : Mem :=
  if ops.datbuf ≠ 0 then
    Memory.store mem ops.datbuf (Cells.readPart page.data 0 ops.len.toNat)
  else mem

def Page.readSpare (page : Page W O) (ops : MtdOobOps) (mem : Mem) : Mem :=
  if ops.oobbuf ≠ 0 then
    Memory.store mem ops.oobbuf (Cells.readPart page.spare ops.ooboffs.toNat ops.ooblen.toNat)
  else mem

def Store.writeDataFrom (s : Store W O) (p : ℕ) (ops : MtdOobOps) (mem : Mem) : Store W O :=
  if ops.datbuf ≠ 0 then s.writeData p (Memory.load mem ops.datbuf ops.len.toNat) else s

def Store.writeSpareFrom (s : Store W O) (p : ℕ) (ops : MtdOobOps) (mem : Mem) : Store W O :=
  if ops.oobbuf ≠ 0 then
    s.writeSpare p ops.ooboffs.toNat (Memory.load mem ops.oobbuf ops.ooblen.toNat)
  else s

section Buffers

variable (s : Store W O) (p q : ℕ) (ops : MtdOobOps) (mem : Mem)

theorem Store.writeDataFrom_data (i : Fin W) :
    (s.writeDataFrom p ops mem q).data i =
      (if ops.datbuf ≠ 0 ∧ p = q then (Memory.load mem ops.datbuf ops.len.toNat)[i.val]?
        else none).getD ((s q).data i) := by
  by_cases hbuf : ops.datbuf ≠ 0
  · rw [Store.writeDataFrom, if_pos hbuf, Store.writeData_data]
    simp only [eq_true hbuf, true_and]
  · rw [Store.writeDataFrom, if_neg hbuf, if_neg fun hboth => hbuf hboth.1, Option.getD_none]

theorem Store.writeDataFrom_spare : (s.writeDataFrom p ops mem q).spare = (s q).spare := by
  unfold Store.writeDataFrom
  split
  · exact s.writeData_spare p q _
  · rfl

theorem Store.writeSpareFrom_data : (s.writeSpareFrom p ops mem q).data = (s q).data := by
  unfold Store.writeSpareFrom
  split
  · exact s.writeSpare_data p q _ _
  · rfl

theorem Store.writeSpareFrom_spare (i : Fin O) :
    (s.writeSpareFrom p ops mem q).spare i =
      (if ops.oobbuf ≠ 0 ∧ p = q ∧ ops.ooboffs.toNat ≤ i.val then
          (Memory.load mem ops.oobbuf ops.ooblen.toNat)[i.val - ops.ooboffs.toNat]?
        else none).getD ((s q).spare i) := by
  by_cases hbuf : ops.oobbuf ≠ 0
  · rw [Store.writeSpareFrom, if_pos hbuf, Store.writeSpare_spare]
    simp only [eq_true hbuf, true_and]
  · rw [Store.writeSpareFrom, if_neg hbuf, if_neg fun hboth => hbuf hboth.1, Option.getD_none]

end Buffers

def MtdOobOps.Writes (W O : ℕ) (ops : MtdOobOps) : Prop :=
  (ops.len = 0 ∨ ops.len.toNat = W) ∧ ops.ooboffs.toNat + ops.ooblen.toNat ≤ O

instance (W O : ℕ) (ops : MtdOobOps) : Decidable (ops.Writes W O) :=
  inferInstanceAs (Decidable (_ ∧ _))

def Store.answer (s : Store W O) (r : Request) : StoreReply × Store W O :=
  match r.call with
  | .read ofs len retlen buf =>
      if len.toNat = W then
        (⟨some (.page 0 len),
          Memory.store r.mem buf (Cells.readPart (s (pageOf W ofs)).data 0 W)⟩, s)
      else (⟨some (.page einval retlen), r.mem⟩, s)
  | .write ofs len retlen buf =>
      if len.toNat = W then
        (⟨some (.page 0 len), r.mem⟩, s.writeData (pageOf W ofs) (Memory.load r.mem buf W))
      else (⟨some (.page einval retlen), r.mem⟩, s)
  | .readOob ofs ops =>
      if (ops.datbuf ≠ 0 → ops.len = 0 ∨ ops.len.toNat = W) ∧
          ops.ooboffs.toNat + ops.ooblen.toNat ≤ O then
        let page := s (pageOf W ofs)
        (⟨some (.oob 0 ops.dataDone.spareDone),
          page.readSpare ops (page.readData ops r.mem)⟩, s)
      else (⟨some (.oob einval ops), r.mem⟩, s)
  | .writeOob ofs ops =>
      if ops.Writes W O then
        let p := pageOf W ofs
        (⟨some (.oob 0 ops.dataDone.spareDone), r.mem⟩,
          (s.writeDataFrom p ops r.mem).writeSpareFrom p ops r.mem)
      else (⟨some (.oob einval ops), r.mem⟩, s)
  | .erase instr =>
      if instr.len.toNat % W = 0 then
        let done := { instr with state := mtdEraseDone }
        (⟨some (.erase ⟨0, done, mtdEraseCallback done⟩), r.mem⟩,
          s.erase (pageOf W instr.addr) (instr.len.toNat / W))
      else
        let result := .erase ⟨einval, instr, []⟩
        (⟨if instr.len.toNat < 2 ^ 32 then some result else none, r.mem⟩, s)

def Agrees (o : Option Reply) (ω : StoreReply) : Prop :=
  ∃ reply, o = some reply ∧ reply.mem = ω.mem ∧ ∀ result ∈ ω.result, reply.result = result

/-! ## What a call puts into a byte -/

/-- The byte that a request puts at data byte `i` of page `p`. -/
def Request.putData (W O p i : ℕ) (r : Request) : Option U8 :=
  match r.call with
  | .write ofs len _ buf =>
      if len.toNat = W ∧ pageOf W ofs = p then (Memory.load r.mem buf W)[i]? else none
  | .writeOob ofs ops =>
      if ops.Writes W O ∧ ops.datbuf ≠ 0 ∧ pageOf W ofs = p then
        (Memory.load r.mem ops.datbuf ops.len.toNat)[i]?
      else none
  | .erase instr =>
      if instr.len.toNat % W = 0 ∧ pageOf W instr.addr ≤ p ∧
          p < pageOf W instr.addr + instr.len.toNat / W then some 0xff#8
      else none
  | .read .. | .readOob .. => none

def Request.putSpare (W O p i : ℕ) (r : Request) : Option U8 :=
  match r.call with
  | .writeOob ofs ops =>
      if ops.Writes W O ∧ ops.oobbuf ≠ 0 ∧ pageOf W ofs = p ∧ ops.ooboffs.toNat ≤ i then
        (Memory.load r.mem ops.oobbuf ops.ooblen.toNat)[i - ops.ooboffs.toNat]?
      else none
  | .erase instr =>
      if instr.len.toNat % W = 0 ∧ pageOf W instr.addr ≤ p ∧
          p < pageOf W instr.addr + instr.len.toNat / W then some 0xff#8
      else none
  | .read .. | .write .. | .readOob .. => none

theorem Store.answer_data (s : Store W O) (r : Request) (p : ℕ) (i : Fin W) :
    ((s.answer r).2 p).data i = (r.putData W O p i).getD ((s p).data i) := by
  obtain ⟨mem, call⟩ := r
  unfold Store.answer Request.putData
  cases call with
  | read ofs len retlen buf =>
      dsimp only
      split <;> rfl
  | readOob ofs ops =>
      dsimp only
      split <;> rfl
  | write ofs len retlen buf =>
      dsimp only
      by_cases hlen : len.toNat = W
      · simp only [hlen, if_true, true_and]
        exact s.writeData_data _ p _ i
      · simp only [hlen, if_false, false_and, Option.getD_none]
  | writeOob ofs ops =>
      dsimp only
      by_cases hok : ops.Writes W O
      · rw [if_pos hok, Store.writeSpareFrom_data]
        simp only [hok, true_and]
        exact s.writeDataFrom_data _ p ops mem i
      · simp only [hok, if_false, false_and, Option.getD_none]
  | erase instr =>
      dsimp only
      by_cases hlen : instr.len.toNat % W = 0
      · simp only [hlen, if_true, true_and]
        exact s.erase_data _ p _ i
      · simp only [hlen, if_false, false_and, Option.getD_none]

theorem Store.answer_spare (s : Store W O) (r : Request) (p : ℕ) (i : Fin O) :
    ((s.answer r).2 p).spare i = (r.putSpare W O p i).getD ((s p).spare i) := by
  obtain ⟨mem, call⟩ := r
  unfold Store.answer Request.putSpare
  cases call with
  | read ofs len retlen buf =>
      dsimp only
      split <;> rfl
  | readOob ofs ops =>
      dsimp only
      split <;> rfl
  | write ofs len retlen buf =>
      dsimp only
      split
      · rw [Store.writeData_spare]
        rfl
      · rfl
  | writeOob ofs ops =>
      dsimp only
      by_cases hok : ops.Writes W O
      · simp only [hok, if_true, true_and]
        rw [Store.writeSpareFrom_spare, Store.writeDataFrom_spare]
      · simp only [hok, if_false, false_and, Option.getD_none]
  | erase instr =>
      dsimp only
      by_cases hlen : instr.len.toNat % W = 0
      · simp only [hlen, if_true, true_and]
        exact s.erase_spare _ p _ i
      · simp only [hlen, if_false, false_and, Option.getD_none]

/-! ## The calls of a client -/

structure InDevice (mtd : MtdInfo) (ofs : U64) (len : ℕ) : Prop where
  aligned : ofs.toNat % mtd.writesize.toNat = 0
  lt : ofs.toNat < mtd.size.toNat
  le : ofs.toNat + len ≤ mtd.size.toNat

instance (mtd : MtdInfo) (ofs : U64) (len : ℕ) : Decidable (InDevice mtd ofs len) :=
  decidable_of_iff (ofs.toNat % mtd.writesize.toNat = 0 ∧ ofs.toNat < mtd.size.toNat ∧
    ofs.toNat + len ≤ mtd.size.toNat) ⟨fun h => ⟨h.1, h.2.1, h.2.2⟩, fun h => ⟨h.1, h.2, h.3⟩⟩

def Call.InDomain (mtd : MtdInfo) : Call → Prop
  | .read ofs len _ _ | .write ofs len _ _ => InDevice mtd ofs len.toNat
  | .readOob ofs ops | .writeOob ofs ops =>
      InDevice mtd ofs ops.len.toNat ∧ ops.ooblen.toNat + ops.ooboffs.toNat < 2 ^ 32
  | .erase instr =>
      InDevice mtd instr.addr instr.len.toNat ∧
        instr.len.toNat / mtd.writesize.toNat * (mtd.writesize.toNat + mtd.oobsize.toNat) < 2 ^ 32

instance (mtd : MtdInfo) : DecidablePred (Call.InDomain mtd)
  | .read .. | .write .. => inferInstanceAs (Decidable (InDevice ..))
  | .readOob .. | .writeOob .. | .erase .. => inferInstanceAs (Decidable (_ ∧ _))

end Goldfish.Nand
