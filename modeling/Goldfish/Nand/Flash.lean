import Goldfish.Lib.Cells
import Goldfish.Lib.Memory
import Goldfish.Nand.Driver

/-!
# Raw flash

The devices behind the controller as lines of raw cells. A read or a write
copies exactly the bytes asked for and an erase fills them with 0xFF; a
command that leaves the device does nothing and replies zero.
-/

namespace Goldfish.Nand

/-- One device. Its cells are those below its raw size. -/
structure Flash where
  info : DevInfo
  name : List U8
  raw : ℕ → U8

abbrev Population := U32 → Flash

def Flash.exec (f : Flash) (cmd : NandCmd) (addr : ℕ) (len ptr : U32) (mem : Mem) :
    U32 × Mem × Flash :=
  match cmd with
  | .getDevName => (BitVec.ofNat 32 f.name.length, Memory.store mem ptr f.name, f)
  | .read =>
      if addr + len.toNat ≤ f.info.rawSize.toNat then
        (len, Memory.store mem ptr (Cells.read f.raw addr len.toNat), f)
      else (0, mem, f)
  | .write =>
      if addr + len.toNat ≤ f.info.rawSize.toNat then
        (len, mem, { f with raw := Cells.write f.raw addr (Memory.load mem ptr len.toNat) })
      else (0, mem, f)
  | .erase =>
      if addr + len.toNat ≤ f.info.rawSize.toNat then
        (len, mem, { f with raw := Cells.fill f.raw addr len.toNat 0xff#8 })
      else (0, mem, f)
  -- the raw flash has no table of bad blocks
  | .blockBadGet | .blockBadSet => (0, mem, f)

def flashController : Controller Population where
  info pop dev := (pop dev).info
  exec cmd regs mem pop :=
    let addr := regs.addrHigh.toNat * 2 ^ 32 + regs.addrLow.toNat
    let (rv, mem, f) := (pop regs.dev).exec cmd addr regs.transferSize regs.data mem
    (rv, mem, Function.update pop regs.dev f)

theorem address_words (addr : U64) :
    ((addr >>> 32).setWidth 32).toNat * 2 ^ 32 + (addr.setWidth 32).toNat = addr.toNat := by
  have haddr := addr.isLt
  rw [BitVec.toNat_setWidth, BitVec.toNat_setWidth, BitVec.toNat_ushiftRight,
    Nat.shiftRight_eq_div_pow, Nat.mod_eq_of_lt (a := addr.toNat / 2 ^ 32) (by omega), Nat.mul_comm]
  exact Nat.div_add_mod addr.toNat (2 ^ 32)

theorem goldfishNandCmd_spec (mtd : MtdInfo) (cmd : NandCmd) (addr : U64) (len ptr : U32)
    (m : Machine Population) :
    ∃ regs, goldfishNandCmd flashController mtd cmd addr len ptr m =
      (((m.devices mtd.id).exec cmd addr.toNat len ptr m.mem).1,
        ⟨regs, ((m.devices mtd.id).exec cmd addr.toNat len ptr m.mem).2.1,
          Function.update m.devices mtd.id
            ((m.devices mtd.id).exec cmd addr.toNat len ptr m.mem).2.2⟩) := by
  refine ⟨⟨mtd.id, (addr >>> 32).setWidth 32, addr.setWidth 32, len, ptr⟩, ?_⟩
  simp only [goldfishNandCmd, flashController, address_words]

end Goldfish.Nand
