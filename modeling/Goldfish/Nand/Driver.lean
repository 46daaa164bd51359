import Goldfish.Nand.Div64

/-!
# The NAND driver

`goldfish_nand.c` over an arbitrary controller. A controller shows the data
of its devices in registers and executes a command when NAND_COMMAND is
written. An operation of the driver has no result where C leaves the
behaviour undefined, which is where it divides by zero.
-/

namespace Goldfish.Nand

-- results of the driver, as `int`
def einval : U32 := -22#32

def eio : U32 := -5#32

def enomem : U32 := -12#32

def enodev : U32 := -19#32

inductive NandCmd where
  | getDevName | read | write | erase | blockBadGet | blockBadSet
  deriving DecidableEq

structure Regs where
  dev : U32
  addrHigh : U32
  addrLow : U32
  transferSize : U32
  data : U32
  deriving DecidableEq

structure DevInfo where
  flags : U32
  nameLen : U32
  pageSize : U32
  extraSize : U32
  eraseSize : U32
  sizeLow : U32
  sizeHigh : U32
  deriving DecidableEq

/-- NAND_DEV_SIZE_HIGH and NAND_DEV_SIZE_LOW. -/
def DevInfo.rawSize (info : DevInfo) : U64 :=
  info.sizeLow.setWidth 64 ||| info.sizeHigh.setWidth 64 <<< 32

/-- The hardware, with devices in a state of type `σ`. A command reads and
writes the memory of the processor and leaves its reply in NAND_RESULT. -/
structure Controller (σ : Type*) where
  info : σ → U32 → DevInfo
  exec : NandCmd → Regs → Mem → σ → U32 × Mem × σ

structure Machine (σ : Type*) where
  regs : Regs
  mem : Mem
  devices : σ

/-- `struct mtd_info`, as far as the driver uses it. `id` is the index of the
entry in its array; `ops` says that the operations are installed. -/
structure MtdInfo where
  id : U32
  type : U8
  flags : U32
  size : U64
  erasesize : U32
  writesize : U32
  oobsize : U32
  oobavail : U32
  name : U32
  ops : Bool
  deriving DecidableEq

/-- `struct erase_info`. `callback` says that there is one. -/
structure EraseInfo where
  addr : U64
  len : U64
  callback : Bool
  state : U8
  deriving DecidableEq

/-- `struct mtd_oob_ops`. The driver does not look at `mode`. -/
structure MtdOobOps where
  len : U32
  retlen : U32
  ooblen : U32
  oobretlen : U32
  ooboffs : U32
  datbuf : U32
  oobbuf : U32
  deriving DecidableEq

def mtdEraseDone : U8 := 0x08#8

variable {σ : Type*} (ctl : Controller σ)

def goldfishNandCmd (mtd : MtdInfo) (cmd : NandCmd) (addr : U64) (len ptr : U32)
    (m : Machine σ) : U32 × Machine σ :=
  let regs := { m.regs with dev := mtd.id }
  let regs := { regs with addrHigh := (addr >>> 32).setWidth 32 }
  let regs := { regs with addrLow := addr.setWidth 32 }
  let regs := { regs with transferSize := len }
  let regs := { regs with data := ptr }
  let (rv, mem, devices) := ctl.exec cmd regs m.mem m.devices
  (rv, ⟨regs, mem, devices⟩)

/-- The outcome of an erase: the result, the request and the states its
callback has seen. -/
structure EraseOutcome where
  rv : U32
  instr : EraseInfo
  called : List U8
  deriving DecidableEq

def mtdEraseCallback (instr : EraseInfo) : List U8 := if instr.callback then [instr.state] else []

def MtdInfo.rawPage (mtd : MtdInfo) : U32 := mtd.writesize + mtd.oobsize

def goldfishNandErase (mtd : MtdInfo) (instr : EraseInfo) (m : Machine σ) :
    Option (EraseOutcome × Machine σ) :=
  let ofs := instr.addr
  let len := instr.len.setWidth 32
  let invalidArg := some (⟨einval, instr, []⟩, m)
  if ofs + len.setWidth 64 > mtd.size then invalidArg
  else
    (doDiv ofs mtd.writesize).bind fun (rem, ofs) =>
      if rem ≠ 0 then invalidArg
      else
        let ofs := ofs * mtd.rawPage.setWidth 64
        if len % mtd.writesize ≠ 0 then invalidArg
        else
          let len := len / mtd.writesize * mtd.rawPage
          let (rv, m) := goldfishNandCmd ctl mtd .erase ofs len 0 m
          if rv ≠ len then some (⟨eio, instr, []⟩, m)
          else
            let instr := { instr with state := mtdEraseDone }
            some (⟨0, instr, mtdEraseCallback instr⟩, m)

def transferData (cmd : NandCmd) (mtd : MtdInfo) (ofs : U64) (ops : MtdOobOps) (m : Machine σ) :
    MtdOobOps × Machine σ :=
  if ops.datbuf ≠ 0 then
    let (rv, m) := goldfishNandCmd ctl mtd cmd ofs ops.len ops.datbuf m
    ({ ops with retlen := rv }, m)
  else (ops, m)

def transferSpare (cmd : NandCmd) (mtd : MtdInfo) (ofs : U64) (ops : MtdOobOps) (m : Machine σ) :
    MtdOobOps × Machine σ :=
  if ops.oobbuf ≠ 0 then
    let (rv, m) := goldfishNandCmd ctl mtd cmd ofs ops.ooblen ops.oobbuf m
    ({ ops with oobretlen := rv }, m)
  else (ops, m)

def transferOob (cmd : NandCmd) (mtd : MtdInfo) (ofs : U64) (ops : MtdOobOps) (m : Machine σ) :
    MtdOobOps × Machine σ :=
  let (ops, m) := transferData ctl cmd mtd ofs ops m
  let ofs := ofs + (mtd.writesize + ops.ooboffs).setWidth 64
  transferSpare ctl cmd mtd ofs ops m

def goldfishNandReadOob (mtd : MtdInfo) (ofs : U64) (ops : MtdOobOps) (m : Machine σ) :
    Option ((U32 × MtdOobOps) × Machine σ) :=
  let invalidArg := some ((einval, ops), m)
  if ofs + ops.len.setWidth 64 > mtd.size then invalidArg
  else if ops.datbuf ≠ 0 ∧ ops.len ≠ 0 ∧ ops.len ≠ mtd.writesize then invalidArg
  else if ops.ooblen + ops.ooboffs > mtd.oobsize then invalidArg
  else
    (doDiv ofs mtd.writesize).bind fun (rem, ofs) =>
      if rem ≠ 0 then invalidArg
      else
        let ofs := ofs * mtd.rawPage.setWidth 64
        let (ops, m) := transferOob ctl .read mtd ofs ops m
        some ((0, ops), m)

/-- Unlike the read, the write checks the length also without a data buffer. -/
def goldfishNandWriteOob (mtd : MtdInfo) (ofs : U64) (ops : MtdOobOps) (m : Machine σ) :
    Option ((U32 × MtdOobOps) × Machine σ) :=
  let invalidArg := some ((einval, ops), m)
  if ofs + ops.len.setWidth 64 > mtd.size then invalidArg
  else if ops.len ≠ 0 ∧ ops.len ≠ mtd.writesize then invalidArg
  else if ops.ooblen + ops.ooboffs > mtd.oobsize then invalidArg
  else
    (doDiv ofs mtd.writesize).bind fun (rem, ofs) =>
      if rem ≠ 0 then invalidArg
      else
        let ofs := ofs * mtd.rawPage.setWidth 64
        let (ops, m) := transferOob ctl .write mtd ofs ops m
        some ((0, ops), m)

/-- `goldfish_nand_read` and `goldfish_nand_write`, with their command. The
results are the return value and `*retlen`. -/
def transferPage (cmd : NandCmd) (mtd : MtdInfo) (ofs : U64) (len retlen buf : U32)
    (m : Machine σ) : Option ((U32 × U32) × Machine σ) :=
  let invalidArg := some ((einval, retlen), m)
  if ofs + len.setWidth 64 > mtd.size then invalidArg
  else if len ≠ mtd.writesize then invalidArg
  else
    (doDiv ofs mtd.writesize).bind fun (rem, ofs) =>
      if rem ≠ 0 then invalidArg
      else
        let ofs := ofs * mtd.rawPage.setWidth 64
        let (retlen, m) := goldfishNandCmd ctl mtd cmd ofs len buf m
        some ((0, retlen), m)

def goldfishNandRead (mtd : MtdInfo) (ofs : U64) (len retlen buf : U32) (m : Machine σ) :
    Option ((U32 × U32) × Machine σ) := transferPage ctl .read mtd ofs len retlen buf m

def goldfishNandWrite (mtd : MtdInfo) (ofs : U64) (len retlen buf : U32) (m : Machine σ) :
    Option ((U32 × U32) × Machine σ) := transferPage ctl .write mtd ofs len retlen buf m

/-- The command of the two bad-block functions. There is no reply where the
arguments are invalid. -/
def blockCmd (cmd : NandCmd) (mtd : MtdInfo) (ofs : U64) (m : Machine σ) :
    Option (Option U32 × Machine σ) :=
  if ofs ≥ mtd.size then some (none, m)
  else
    (doDiv ofs mtd.erasesize).bind fun (rem, ofs) =>
      if rem ≠ 0 then some (none, m)
      else if mtd.writesize = 0 then none
      else
        let ofs := ofs * (mtd.erasesize / mtd.writesize).setWidth 64
        let ofs := ofs * mtd.rawPage.setWidth 64
        let (rv, m) := goldfishNandCmd ctl mtd cmd ofs 0 0 m
        some (some rv, m)

def goldfishNandBlockIsbad (mtd : MtdInfo) (ofs : U64) (m : Machine σ) :
    Option (U32 × Machine σ) :=
  (blockCmd ctl .blockBadGet mtd ofs m).map fun (reply, m) => (reply.getD einval, m)

def goldfishNandBlockMarkbad (mtd : MtdInfo) (ofs : U64) (m : Machine σ) :
    Option (U32 × Machine σ) :=
  (blockCmd ctl .blockBadSet mtd ofs m).map fun (reply, m) =>
    match reply with
    | some rv => (if rv ≠ 1 then eio else 0, m)
    | none => (einval, m)

/-! ## Initialisation -/

def goldfishDevNameMaxLen : U32 := 64#32

def mtdNandflash : U8 := 4#8

-- MTD_CAP_NANDFLASH is MTD_WRITEABLE
def mtdWriteable : U32 := 0x400#32

def mtdCapNandflash : U32 := mtdWriteable

def nandDevFlagReadOnly : U32 := 1#32

/-- `goldfish_nand_init_device` for the entry `mtd`, where `goldfishDevName`
is the address of the table of names. -/
def goldfishNandInitDevice (goldfishDevName : U32) (mtd : MtdInfo) (m : Machine σ) :
    Option (U32 × MtdInfo × Machine σ) :=
  let m := { m with regs := { m.regs with dev := mtd.id } }
  let info := ctl.info m.devices m.regs.dev
  let mtd := { mtd with writesize := info.pageSize }
  let mtd := { mtd with size := info.rawSize }
  let mtd := { mtd with oobsize := info.extraSize }
  let mtd := { mtd with oobavail := mtd.oobsize }
  if mtd.rawPage = 0#32 then none
  else
    let mtd := { mtd with erasesize := info.eraseSize / mtd.rawPage * mtd.writesize }
    (doDiv mtd.size mtd.rawPage).bind fun (_, pages) =>
      let mtd := { mtd with size := pages * mtd.writesize.setWidth 64 }
      if info.nameLen > goldfishDevNameMaxLen then some (enomem, mtd, m)
      else
        let name := goldfishDevName + goldfishDevNameMaxLen * mtd.id
        let mtd := { mtd with name }
        let (result, m) := goldfishNandCmd ctl mtd .getDevName 0 info.nameLen name m
        if result ≠ info.nameLen then some (enodev, { mtd with name := 0 }, m)
        else
          let m := { m with mem := Function.update m.mem (name + info.nameLen) 0 }
          let mtd := { mtd with type := mtdNandflash }
          let mtd := { mtd with flags := mtdCapNandflash }
          let mtd := { mtd with
            flags :=
              if info.flags &&& nandDevFlagReadOnly ≠ 0 then mtd.flags &&& ~~~mtdWriteable
              else mtd.flags }
          some (0, { mtd with ops := true }, m)

end Goldfish.Nand
