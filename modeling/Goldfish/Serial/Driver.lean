import Goldfish.Lib.Memory
import Goldfish.Word

/-!
# The serial driver

UART 2 of the goldfish platform and `serial_goldfish.c` over it. The queue
of received bytes grows by itself: before every register access the line
delivers some of the bytes that are on their way. How many is an arbitrary
function of the number of accesses so far.
-/

namespace Goldfish.Serial

/-- The queue of received bytes. Its length fits in BYTES_READY. -/
structure Fifo where
  bytes : List U8
  fits : bytes.length < 2 ^ 32

def Fifo.room (q : Fifo) : ℕ := 2 ^ 32 - 1 - q.bytes.length

def Fifo.append (q : Fifo) (bs : List U8) (h : bs.length ≤ q.room) : Fifo where
  bytes := q.bytes ++ bs
  fits := by
    have hfits := q.fits
    rw [List.length_append]
    unfold Fifo.room at h
    omega

def Fifo.drop (q : Fifo) (n : ℕ) : Fifo where
  bytes := q.bytes.drop n
  fits := by
    rw [List.length_drop]
    exact (Nat.sub_le _ _).trans_lt q.fits

/-- What DATA_PTR points to: the array of `goldfish_getc` or the memory of
its callers. -/
inductive Ptr where
  | buf
  | mem (a : U32)
  deriving DecidableEq

structure Tty where
  fifo : Fifo
  dataPtr : Ptr
  dataLen : U32
  intEnabled : Bool
  -- the bytes sent through PUT_CHAR
  console : List U8

/-- The globals of the driver and the C library, the memory, the device and
the line. What `printf` has handed to `_write` when it returns to a `debug` is
an arbitrary function of the accesses so far; a build without `__USE_CLIB__`
prints nothing. `arrived` is a ghost: every byte that has entered the queue. -/
structure World where
  base : U32
  printed : ℕ → List U8
  errno : ℕ
  mem : Mem
  buf : ℕ → U8
  tty : Tty
  line : List U8
  pace : ℕ → ℕ
  accesses : ℕ
  arrived : List U8

def World.reset (line : List U8) (pace : ℕ → ℕ) : World :=
  { base := 0, printed := fun _ => [], errno := 0, mem := fun _ => 0, buf := fun _ => 0,
    tty := ⟨⟨[], Nat.two_pow_pos 32⟩, .mem 0, 0, false, []⟩, line, pace, accesses := 0,
    arrived := [] }

def World.due (w : World) : ℕ := min (w.pace w.accesses) w.tty.fifo.room

def World.access (w : World) : World :=
  { w with
    tty := { w.tty with
      fifo := w.tty.fifo.append (w.line.take w.due)
        ((List.length_take_le _ _).trans (min_le_right _ _)) }
    line := w.line.drop w.due
    accesses := w.accesses + 1
    arrived := w.arrived ++ w.line.take w.due }

/-- CMD_READ_BUFFER copies DATA_LEN bytes from the queue to DATA_PTR. -/
def World.readBuffer (w : World) : World :=
  let copied := w.tty.fifo.bytes.take w.tty.dataLen.toNat
  let w := { w with tty := { w.tty with fifo := w.tty.fifo.drop w.tty.dataLen.toNat } }
  match w.tty.dataPtr with
  | .buf => { w with buf := fun i => copied.getD i (w.buf i) }
  | .mem a => { w with mem := Memory.store w.mem a copied }

-- the commands the driver gives
def cmdIntDisable : U32 := 0

def cmdIntEnable : U32 := 1

def cmdReadBuffer : U32 := 3

def World.writeCmd (w : World) (cmd : U32) : World :=
  let w := w.access
  if cmd = cmdIntDisable then { w with tty := { w.tty with intEnabled := false } }
  else if cmd = cmdIntEnable then { w with tty := { w.tty with intEnabled := true } }
  else if cmd = cmdReadBuffer then w.readBuffer
  else w

def World.writeDataPtr (w : World) (p : Ptr) : World :=
  let w := w.access
  { w with tty := { w.tty with dataPtr := p } }

def World.writeDataLen (w : World) (n : U32) : World :=
  let w := w.access
  { w with tty := { w.tty with dataLen := n } }

def World.writePutChar (w : World) (v : U32) : World :=
  let w := w.access
  { w with tty := { w.tty with console := w.tty.console ++ [v.setWidth 8] } }

def World.bytesReady (w : World) : U32 × World :=
  let w := w.access
  (BitVec.ofNat 32 w.tty.fifo.bytes.length, w)

/-! ## serial_goldfish.c -/

/-- `IO_ADDRESS(GOLDFISH_TTY2_BASE)`, the address `getbaseaddr` returns. -/
def getbaseaddr : U32 := 0xff012000#32

/-- The end of `goldfish_putc`. -/
def World.putc (w : World) (c : U8) : World :=
  if c ≠ 0 then w.writePutChar (c.setWidth 32) else w

/-- What is printed comes back through `_write` to `goldfish_putc`, which finds
the base address set. -/
def World.debug (w : World) : World := (w.printed w.accesses).foldl World.putc w

def goldfishInit (w : World) : World :=
  let w := { w with base := getbaseaddr }
  let w := w.debug
  w.writeCmd cmdIntEnable

def goldfishDisableTty (w : World) : World := w.writeCmd cmdIntDisable

def withBase (w : World) : World := if w.base = 0 then goldfishInit w else w

def goldfishGets (s : Ptr) (len : U32) (w : World) : World :=
  let w := withBase w
  let w := w.writeDataPtr s
  let w := w.writeDataLen len
  w.writeCmd cmdReadBuffer

def goldfishPutc (c : U8) (w : World) : World := (withBase w).putc c

def goldfishGetc (w : World) : U32 × World :=
  let w := withBase w
  let (count, w) := w.bytesReady
  -- `count` is unsigned
  if count ≤ 0 then (-1, w.debug)
  else
    let w := goldfishGets .buf 1 w
    ((w.buf 0).setWidth 32, w)

def goldfishTstc (w : World) : U32 × World :=
  let w := withBase w
  let (count, w) := w.bytesReady
  if count.toInt < 0 then (count, w.debug) else (count, w)

/-- The state that `start` leaves behind when it is called first. -/
def World.started (line : List U8) (pace : ℕ → ℕ) : World := goldfishInit (.reset line pace)

/-! ## What is taken from the queue -/

/-- Between `w` and `t` the bytes `bs` have left the front of the queue, and
whatever else happened to it are arrivals at its end. -/
def Takes (w t : World) (bs : List U8) : Prop :=
  ∃ new, w.tty.fifo.bytes ++ new = bs ++ t.tty.fifo.bytes ∧ t.arrived = w.arrived ++ new

theorem Takes.refl (w : World) : Takes w w [] :=
  ⟨[], List.append_nil _, (List.append_nil _).symm⟩

theorem Takes.trans {w t u : World} {as bs : List U8} (hwt : Takes w t as) (htu : Takes t u bs) :
    Takes w u (as ++ bs) := by
  obtain ⟨new, hfifo, harrived⟩ := hwt
  obtain ⟨new', hfifo', harrived'⟩ := htu
  refine ⟨new ++ new', ?_, ?_⟩
  · rw [← List.append_assoc, hfifo, List.append_assoc, hfifo', List.append_assoc]
  · rw [harrived', harrived, List.append_assoc]

theorem Takes.after {w t u : World} {bs : List U8} (hwt : Takes w t []) (htu : Takes t u bs) :
    Takes w u bs := hwt.trans htu

theorem Takes.congr {w t t' : World} {bs : List U8} (h : Takes w t bs)
    (hfifo : t'.tty.fifo = t.tty.fifo) (harrived : t'.arrived = t.arrived) : Takes w t' bs := by
  obtain ⟨new, h, h'⟩ := h
  exact ⟨new, by rw [hfifo, h], by rw [harrived, h']⟩

theorem Takes.prefix {w t : World} (h : Takes w t []) :
    w.tty.fifo.bytes <+: t.tty.fifo.bytes := by
  obtain ⟨new, hfifo, -⟩ := h
  exact ⟨new, hfifo⟩

theorem access_takes (w : World) : Takes w w.access [] := ⟨w.line.take w.due, rfl, rfl⟩

theorem writeDataPtr_takes (w : World) (p : Ptr) : Takes w (w.writeDataPtr p) [] :=
  (access_takes w).congr rfl rfl

theorem writeDataLen_takes (w : World) (n : U32) : Takes w (w.writeDataLen n) [] :=
  (access_takes w).congr rfl rfl

theorem bytesReady_takes (w : World) : Takes w w.bytesReady.2 [] := access_takes w

theorem putc_takes (w : World) (c : U8) : Takes w (w.putc c) [] := by
  unfold World.putc
  split
  · exact (access_takes w).congr rfl rfl
  · exact Takes.refl w

/-- What every character keeps, `debug` keeps. -/
theorem debug_induct {motive : World → Prop} {w : World} (h : motive w)
    (hputc : ∀ t c, motive t → motive (t.putc c)) : motive w.debug :=
  List.foldlRecOn _ _ h fun t ht c _ => hputc t c ht

theorem debug_takes (w : World) : Takes w w.debug [] :=
  debug_induct (motive := fun t => Takes w t []) (Takes.refl w)
    fun t c ht => ht.after (putc_takes t c)

theorem goldfishInit_takes (w : World) : Takes w (goldfishInit w) [] := by
  obtain ⟨u, hu⟩ : ∃ u, u = ({ w with base := getbaseaddr } : World).debug := ⟨_, rfl⟩
  have hbase : Takes w { w with base := getbaseaddr } [] := (Takes.refl w).congr rfl rfl
  have hcmd : Takes u (u.writeCmd cmdIntEnable) [] := (access_takes u).congr rfl rfl
  rw [hu] at hcmd
  exact (hbase.after (debug_takes _)).after hcmd

theorem withBase_takes (w : World) : Takes w (withBase w) [] := by
  unfold withBase
  split
  · exact goldfishInit_takes w
  · exact Takes.refl w

theorem readBuffer_takes (w : World) :
    Takes w w.readBuffer (w.tty.fifo.bytes.take w.tty.dataLen.toNat) := by
  have hsplit := List.take_append_drop w.tty.dataLen.toNat w.tty.fifo.bytes
  have hrest : w.readBuffer.tty.fifo.bytes = w.tty.fifo.bytes.drop w.tty.dataLen.toNat ∧
      w.readBuffer.arrived = w.arrived := by
    dsimp only [World.readBuffer]
    split <;> exact ⟨rfl, rfl⟩
  refine ⟨[], ?_, ?_⟩
  · rw [hrest.1, hsplit, List.append_nil]
  · rw [hrest.2, List.append_nil]

/-! ## Memory -/

theorem access_mem (w : World) : w.access.mem = w.mem := rfl

theorem writeDataPtr_mem (w : World) (p : Ptr) : (w.writeDataPtr p).mem = w.mem := rfl

theorem writeDataLen_mem (w : World) (n : U32) : (w.writeDataLen n).mem = w.mem := rfl

theorem bytesReady_mem (w : World) : w.bytesReady.2.mem = w.mem := rfl

/-- What PUT_CHAR leaves alone, `debug` leaves alone. -/
theorem debug_keeps {α : Type*} {f : World → α} (hput : ∀ w v, f (World.writePutChar w v) = f w)
    (w : World) : f w.debug = f w := by
  apply debug_induct (motive := fun t => f t = f w) rfl
  intro t c ht
  unfold World.putc
  split
  · exact (hput t _).trans ht
  · exact ht

theorem goldfishInit_mem (w : World) : (goldfishInit w).mem = w.mem :=
  debug_keeps (f := World.mem) (fun _ _ => rfl) { w with base := getbaseaddr }

theorem goldfishInit_base (w : World) : (goldfishInit w).base = getbaseaddr :=
  debug_keeps (f := World.base) (fun _ _ => rfl) { w with base := getbaseaddr }

/-- What `goldfishInit` leaves alone, the lazy start leaves alone. -/
theorem withBase_keeps {α : Type*} {f : World → α} (hinit : ∀ w, f (goldfishInit w) = f w)
    (w : World) : f (withBase w) = f w := by
  unfold withBase
  split
  · exact hinit w
  · rfl

theorem withBase_mem (w : World) : (withBase w).mem = w.mem :=
  withBase_keeps (f := World.mem) goldfishInit_mem w

/-- After the lazy start the base address is set. -/
theorem withBase_base (w : World) : (withBase w).base ≠ 0 := by
  unfold withBase
  split
  · rw [goldfishInit_base]
    decide
  · assumption

theorem access_dataPtr (w : World) : w.access.tty.dataPtr = w.tty.dataPtr := rfl

theorem access_dataLen (w : World) : w.access.tty.dataLen = w.tty.dataLen := rfl

theorem writeCmd_readBuffer (w : World) : w.writeCmd cmdReadBuffer = w.access.readBuffer := by
  have hdisable : cmdReadBuffer ≠ cmdIntDisable := by decide
  have henable : cmdReadBuffer ≠ cmdIntEnable := by decide
  rw [World.writeCmd, if_neg hdisable, if_neg henable, if_pos rfl]

theorem readBuffer_buf (w : World) {b : U8} {bs : List U8} (hptr : w.tty.dataPtr = .buf)
    (hlen : w.tty.dataLen = 1) (h : w.tty.fifo.bytes = b :: bs) :
    Takes w w.readBuffer [b] ∧ w.readBuffer.buf 0 = b ∧ w.readBuffer.mem = w.mem := by
  have hhead : w.tty.fifo.bytes.take w.tty.dataLen.toNat = [b] := by
    rw [hlen, h]
    rfl
  refine ⟨?_, ?_, ?_⟩
  · rw [← hhead]
    exact readBuffer_takes w
  · simp only [World.readBuffer, hptr, hhead]
    rfl
  · simp only [World.readBuffer, hptr]

theorem goldfishGets_spec (w : World) {b : U8} {bs : List U8}
    (h : w.tty.fifo.bytes = b :: bs) :
    Takes w (goldfishGets .buf 1 w) [b] ∧ (goldfishGets .buf 1 w).buf 0 = b ∧
      (goldfishGets .buf 1 w).mem = w.mem := by
  obtain ⟨u, hu⟩ : ∃ u, u = (((withBase w).writeDataPtr .buf).writeDataLen 1).access := ⟨_, rfl⟩
  have hwu : Takes w u [] := by
    have hptr := writeDataPtr_takes (withBase w) .buf
    have hlen := writeDataLen_takes ((withBase w).writeDataPtr .buf) 1
    rw [hu]
    exact (((withBase_takes w).after hptr).after hlen).after (access_takes _)
  have hread : goldfishGets .buf 1 w = u.readBuffer := by
    rw [hu, ← writeCmd_readBuffer, goldfishGets]
  have hptr : u.tty.dataPtr = .buf := by rw [hu, access_dataPtr]; rfl
  have hlen : u.tty.dataLen = 1 := by rw [hu, access_dataLen]; rfl
  have hmem : u.mem = w.mem := by
    rw [hu, access_mem, writeDataLen_mem, writeDataPtr_mem, withBase_mem]
  obtain ⟨rest, hrest⟩ := hwu.prefix
  rw [h, List.cons_append] at hrest
  obtain ⟨htakes, hbuf, hmem'⟩ := readBuffer_buf u hptr hlen hrest.symm
  rw [hread]
  exact ⟨hwu.after htakes, hbuf, hmem'.trans hmem⟩

theorem bytesReady_value (w : World) :
    w.bytesReady.1.toNat = w.bytesReady.2.tty.fifo.bytes.length := by
  change (BitVec.ofNat 32 w.access.tty.fifo.bytes.length).toNat = _
  rw [BitVec.toNat_ofNat, Nat.mod_eq_of_lt w.access.tty.fifo.fits]
  rfl

theorem goldfishGetc_spec (w : World) {b : U8} {bs : List U8}
    (h : w.tty.fifo.bytes = b :: bs) :
    Takes w (goldfishGetc w).2 [b] ∧ (goldfishGetc w).1 = b.setWidth 32 ∧
      (goldfishGetc w).2.mem = w.mem := by
  have hwu : Takes w (withBase w).bytesReady.2 [] :=
    (withBase_takes w).after (bytesReady_takes _)
  obtain ⟨rest, hrest⟩ := hwu.prefix
  rw [h, List.cons_append] at hrest
  have hcount : ¬ (withBase w).bytesReady.1 ≤ 0 := by
    have hvalue := bytesReady_value (withBase w)
    rw [← hrest, List.length_cons] at hvalue
    rw [BitVec.le_def, hvalue]
    simp
  have hgetc : goldfishGetc w =
      (((goldfishGets .buf 1 (withBase w).bytesReady.2).buf 0).setWidth 32,
        goldfishGets .buf 1 (withBase w).bytesReady.2) := by
    unfold goldfishGetc
    exact if_neg hcount
  obtain ⟨htakes, hbuf, hmem⟩ := goldfishGets_spec _ hrest.symm
  simp only [hgetc]
  refine ⟨hwu.after htakes, ?_, ?_⟩
  · rw [hbuf]
  · rw [hmem, bytesReady_mem, withBase_mem]

/-- Only a count that is negative as an `int` is reported. -/
theorem goldfishTstc_eq (w : World) : goldfishTstc w = ((withBase w).bytesReady.1,
    if (withBase w).bytesReady.1.toInt < 0 then (withBase w).bytesReady.2.debug
    else (withBase w).bytesReady.2) := by
  unfold goldfishTstc
  dsimp only
  split
  · rfl
  · rfl

theorem goldfishTstc_takes (w : World) : Takes w (goldfishTstc w).2 [] := by
  have hpolled := (withBase_takes w).after (bytesReady_takes _)
  rw [goldfishTstc_eq]
  dsimp only
  split
  · exact hpolled.after (debug_takes _)
  · exact hpolled

theorem goldfishTstc_value (w : World) :
    (goldfishTstc w).1.toNat = (withBase w).access.tty.fifo.bytes.length := by
  rw [goldfishTstc_eq]
  exact bytesReady_value (withBase w)

theorem goldfishTstc_of_nonneg {w : World} (h : ¬ (goldfishTstc w).1.toInt < 0) :
    goldfishTstc w = (withBase w).bytesReady := by
  rw [goldfishTstc_eq] at h ⊢
  rw [if_neg h]

theorem goldfishTstc_mem (w : World) : (goldfishTstc w).2.mem = w.mem := by
  have hpolled : (withBase w).bytesReady.2.mem = w.mem := by rw [bytesReady_mem, withBase_mem]
  rw [goldfishTstc_eq]
  dsimp only
  split
  · exact (debug_keeps (f := World.mem) (fun _ _ => rfl) _).trans hpolled
  · exact hpolled

end Goldfish.Serial
