import Goldfish.Lib.Processor
import Goldfish.Syscalls.Descriptors

/-!
# The program that echoes

`c05e2.c` names the serial device, prints its argument and from then on sends
back what it receives, up to a `q`. Bytes may arrive at any register access.
-/

namespace Goldfish.Programs

open Serial Syscalls
open Arm (wordAt)
open StateTransition

/-! ## Strings -/

/-- `for (sc = s; *sc != '\0'; ++sc)`. -/
def strlenLoop : ℕ → Mem → U32 → Option U32
  | 0, _, _ => none
  | fuel + 1, mem, sc => if mem sc ≠ 0 then strlenLoop fuel mem (sc + 1) else some sc

def strlen (fuel : ℕ) (mem : Mem) (s : U32) : Option U32 :=
  (strlenLoop fuel mem s).map fun sc => sc - s

/-- `while ((* dst++ = * src++) != '\0')`. -/
def strcpyLoop : ℕ → U32 → U32 → Mem → Option Mem
  | 0, _, _, _ => none
  | fuel + 1, dst, src, mem =>
      let c := mem src
      let mem := Function.update mem dst c
      if c ≠ 0 then strcpyLoop fuel (dst + 1) (src + 1) mem else some mem

def strcpy (fuel : ℕ) (dst src : U32) (mem : Mem) : Option (U32 × Mem) :=
  if dst = 0 then some (0, mem)
  else if src = 0 then some (0, mem)
  else (strcpyLoop fuel dst src mem).map fun mem => (dst, mem)

/-- The string at `s`, without its zero. -/
def CString (mem : Mem) : U32 → List U8 → Prop
  | s, [] => mem s = 0
  | s, c :: cs => mem s = c ∧ c ≠ 0 ∧ CString mem (s + 1) cs

section Strings

variable {mem mem' : Mem} {s dst : U32} {c : U8} {cs : List U8} {fuel : ℕ}

theorem succ_add_ofNat (s : U32) (i : ℕ) :
    s + 1 + BitVec.ofNat 32 i = s + BitVec.ofNat 32 (i + 1) := by
  rw [Nat.add_comm i 1, ← Words.add_ofNat_add]
  rfl

theorem CString.congr (h : CString mem s cs)
    (hmem : ∀ i ≤ cs.length, mem' (s + BitVec.ofNat 32 i) = mem (s + BitVec.ofNat 32 i)) :
    CString mem' s cs := by
  have hfirst := hmem 0 (Nat.zero_le _)
  rw [BitVec.add_zero] at hfirst
  induction cs generalizing s with
  | nil => exact hfirst.trans h
  | cons c cs ih =>
      obtain ⟨hc, hne, hrest⟩ := h
      have hnext : ∀ i ≤ cs.length, mem' (s + 1 + BitVec.ofNat 32 i) =
          mem (s + 1 + BitVec.ofNat 32 i) := by
        intro i hi
        rw [succ_add_ofNat]
        exact hmem (i + 1) (Nat.succ_le_succ hi)
      have hsecond := hnext 0 (Nat.zero_le _)
      rw [BitVec.add_zero] at hsecond
      exact ⟨hfirst.trans hc, hne, ih hrest hnext hsecond⟩

theorem strlenLoop_spec (h : CString mem s cs) (hfuel : cs.length < fuel) :
    strlenLoop fuel mem s = some (s + BitVec.ofNat 32 cs.length) := by
  induction cs generalizing s fuel with
  | nil =>
      cases fuel with
      | zero => exact absurd hfuel (Nat.not_lt_zero _)
      | succ fuel =>
          have hzero : mem s = 0 := h
          rw [strlenLoop, if_neg (not_not.mpr hzero)]
          exact congrArg some (BitVec.add_zero s).symm
  | cons c cs ih =>
      obtain ⟨hc, hne, hrest⟩ := h
      cases fuel with
      | zero => exact absurd hfuel (Nat.not_lt_zero _)
      | succ fuel =>
          have hloop := ih hrest (Nat.lt_of_succ_lt_succ hfuel)
          rw [succ_add_ofNat] at hloop
          rw [strlenLoop, hc, if_pos hne, hloop, List.length_cons]

theorem strlen_spec (h : CString mem s cs) (hfuel : cs.length < fuel) :
    strlen fuel mem s = some (BitVec.ofNat 32 cs.length) := by
  rw [strlen, strlenLoop_spec h hfuel, Option.map_some]
  exact congrArg some (add_sub_cancel_left s _)

/-- The string is copied with its zero when it lies apart from its copy. -/
theorem strcpyLoop_spec (h : CString mem s cs) (hfuel : cs.length < fuel)
    (hsize : cs.length < 2 ^ 32)
    (hapart : ∀ i ≤ cs.length, ∀ j ≤ cs.length,
      dst + BitVec.ofNat 32 i ≠ s + BitVec.ofNat 32 j) :
    strcpyLoop fuel dst s mem = some (Memory.store mem dst (cs ++ [0])) := by
  induction cs generalizing s dst mem fuel with
  | nil =>
      cases fuel with
      | zero => exact absurd hfuel (Nat.not_lt_zero _)
      | succ fuel =>
          have hzero : mem s = 0 := h
          rw [strcpyLoop, hzero]
          exact congrArg some (Memory.store_singleton mem dst 0).symm
  | cons c cs ih =>
      obtain ⟨hc, hne, hrest⟩ := h
      cases fuel with
      | zero => exact absurd hfuel (Nat.not_lt_zero _)
      | succ fuel =>
          have hkept : CString (Function.update mem dst c) (s + 1) cs := by
            apply hrest.congr
            intro j hj
            have hfar := hapart 0 (Nat.zero_le _) (j + 1) (Nat.succ_le_succ hj)
            rw [BitVec.add_zero, ← succ_add_ofNat] at hfar
            exact Function.update_of_ne hfar.symm c mem
          have hnext : ∀ i ≤ cs.length, ∀ j ≤ cs.length,
              dst + 1 + BitVec.ofNat 32 i ≠ s + 1 + BitVec.ofNat 32 j := by
            intro i hi j hj
            rw [succ_add_ofNat, succ_add_ofNat]
            exact hapart (i + 1) (Nat.succ_le_succ hi) (j + 1) (Nat.succ_le_succ hj)
          have hloop := ih hkept (Nat.lt_of_succ_lt_succ hfuel) (Nat.lt_of_succ_lt hsize) hnext
          have hlength : (cs ++ [(0 : U8)]).length + 1 ≤ 2 ^ 32 := by
            rw [List.length_append, List.length_singleton]
            exact hsize
          rw [strcpyLoop, hc, if_pos hne, hloop, Memory.store_cons mem dst c hlength]
          rfl

end Strings

/-! ## What the driver leaves alone -/

/-- The bytes that are still to be read. -/
def input (w : World) : List U8 := w.tty.fifo.bytes ++ w.line

/-- The settings, the memory and all the bytes that arrive sooner or later. -/
def steady (w : World) : (U32 × (ℕ → List U8)) × (ℕ → ℕ) × Mem × List U8 :=
  ((w.base, w.printed), w.pace, w.mem, w.arrived ++ w.line)

/-- The driver is started, and there is no C library to print with. -/
structure Bare (w : World) : Prop where
  base : w.base ≠ 0
  printed : w.printed = fun _ => []

section Steady

variable {w t : World}

theorem access_steady (w : World) : steady w.access = steady w := by
  have hline : (w.arrived ++ w.line.take w.due) ++ w.line.drop w.due = w.arrived ++ w.line := by
    rw [List.append_assoc, List.take_append_drop]
  exact congrArg (fun l => ((w.base, w.printed), w.pace, w.mem, l)) hline

theorem Bare.of_steady (h : Bare w) (hsteady : steady t = steady w) : Bare t where
  base hzero := h.base ((congrArg (fun s => s.1.1) hsteady).symm.trans hzero)
  printed := (congrArg (fun s => s.1.2) hsteady).trans h.printed

theorem Bare.access (h : Bare w) : Bare w.access := ⟨h.base, h.printed⟩

theorem Bare.debug_eq (h : Bare w) : w.debug = w := by
  rw [World.debug, h.printed]
  rfl

theorem input_of_takes {bs : List U8} (h : Takes w t bs) (hsteady : steady t = steady w) :
    input w = bs ++ input t := by
  obtain ⟨new, hfifo, harrived⟩ := h
  have hall : t.arrived ++ t.line = w.arrived ++ w.line :=
    congrArg (fun s => s.2.2.2) hsteady
  rw [harrived, List.append_assoc, List.append_cancel_left_eq] at hall
  rw [input, ← hall, ← List.append_assoc, hfifo, List.append_assoc]
  rfl

theorem withBase_eq (hbase : w.base ≠ 0) : withBase w = w := if_neg hbase

theorem Bare.tstc_eq (h : Bare w) : goldfishTstc w = w.bytesReady := by
  have hpolled : Bare w.bytesReady.2 := h.access
  rw [goldfishTstc_eq, withBase_eq h.base, hpolled.debug_eq, ite_self]

theorem goldfishPutc_steady (hbase : w.base ≠ 0) (c : U8) :
    steady (goldfishPutc c w) = steady w := by
  rw [goldfishPutc, withBase_eq hbase, World.putc]
  split
  · exact access_steady w
  · rfl

theorem goldfishPutc_started (hbase : w.base ≠ 0) (c : U8) :
    (goldfishPutc c w).tty.console = w.tty.console ++ [c].filter (· ≠ 0) := by
  rw [goldfishPutc_console, startText, if_neg hbase, List.append_nil]

theorem goldfishPutc_takes (c : U8) (w : World) : Takes w (goldfishPutc c w) [] :=
  (withBase_takes w).after (putc_takes _ c)

theorem readBuffer_steady (hptr : w.tty.dataPtr = .buf) : steady w.readBuffer = steady w := by
  rw [World.readBuffer]
  dsimp only
  rw [hptr]
  rfl

theorem goldfishGets_steady (hbase : w.base ≠ 0) (len : U32) :
    steady (goldfishGets .buf len w) = steady w := by
  rw [goldfishGets, withBase_eq hbase, writeCmd_readBuffer, readBuffer_steady rfl, access_steady]
  exact (access_steady _).trans (access_steady w)

theorem goldfishGets_console (hbase : w.base ≠ 0) (len : U32) :
    (goldfishGets .buf len w).tty.console = w.tty.console := by
  rw [goldfishGets, withBase_eq hbase, writeCmd_readBuffer]
  rfl

/-- With a byte in the queue `goldfish_getc` takes it and sends nothing. -/
theorem goldfishGetc_taken (hbase : w.base ≠ 0) {b : U8} {bs : List U8}
    (h : w.tty.fifo.bytes = b :: bs) :
    (goldfishGetc w).1 = b.setWidth 32 ∧ Takes w (goldfishGetc w).2 [b] ∧
      steady (goldfishGetc w).2 = steady w ∧
      (goldfishGetc w).2.tty.console = w.tty.console := by
  obtain ⟨htakes, hvalue, -⟩ := goldfishGetc_spec w h
  have hready := bytesReady_value w
  have hpolled := bytesReady_takes w
  obtain ⟨rest, hrest⟩ := hpolled.prefix
  have hcount : ¬ w.bytesReady.1 ≤ 0 := by
    rw [← hrest, h, List.cons_append, List.length_cons] at hready
    rw [BitVec.le_def, hready]
    simp
  have hgetc : (goldfishGetc w).2 = goldfishGets .buf 1 w.bytesReady.2 := by
    rw [goldfishGetc, withBase_eq hbase]
    dsimp only
    rw [if_neg hcount]
  have hbase' : w.bytesReady.2.base ≠ 0 := hbase
  refine ⟨hvalue, htakes, ?_, ?_⟩
  · rw [hgetc, goldfishGets_steady hbase']
    exact access_steady w
  · rw [hgetc, goldfishGets_console hbase']
    rfl

end Steady

/-! ## The loop -/

/-- `main` in its loop, or behind the `break`. -/
structure Echo where
  world : World
  left : Bool

def Echo.step (e : Echo) : Option Echo :=
  if e.left then none
  else
    let (ready, w) := goldfishTstc e.world
    if ready ≠ 0 then
      let (c, w) := goldfishGetc w
      let w := goldfishPutc (c.setWidth 8) w
      some ⟨w, decide (c = 0x71)⟩
    else some ⟨w, false⟩

section Loop

variable {w : World}

theorem quit_iff (b : U8) : b.setWidth 32 = (0x71 : U32) ↔ b = 0x71 := by
  constructor
  · intro h
    have hlow := congrArg (BitVec.setWidth 8) h
    rwa [BitVec.setWidth_setWidth_of_le b (by decide), BitVec.setWidth_eq] at hlow
  · rintro rfl
    rfl

/-- A pass finds the queue empty, or takes its first byte and sends it. -/
theorem Echo.step_cases (hbare : Bare w) :
    w.access.tty.fifo.bytes = [] ∧ Echo.step ⟨w, false⟩ = some ⟨w.access, false⟩ ∨
      ∃ b bs t, w.access.tty.fifo.bytes = b :: bs ∧
        Echo.step ⟨w, false⟩ = some ⟨t, decide (b = 0x71)⟩ ∧ Takes w t [b] ∧
        steady t = steady w ∧
        t.tty.console = w.tty.console ++ [b].filter (· ≠ 0) := by
  have htstc := hbare.tstc_eq
  have hready := bytesReady_value w
  have hbare' : Bare w.access := hbare.access
  cases hfifo : w.access.tty.fifo.bytes with
  | nil =>
      have hzero : w.bytesReady.1 = 0 := by
        apply BitVec.eq_of_toNat_eq
        rw [hready]
        exact congrArg List.length hfifo
      refine .inl ⟨rfl, ?_⟩
      rw [Echo.step, if_neg Bool.false_ne_true, htstc]
      dsimp only
      rw [if_neg (not_not.mpr hzero)]
      rfl
  | cons b bs =>
      have hne : w.bytesReady.1 ≠ 0 := by
        intro hzero
        rw [hzero] at hready
        have hlength : w.access.tty.fifo.bytes.length = 0 := hready.symm
        rw [hfifo] at hlength
        exact absurd hlength (Nat.succ_ne_zero _)
      obtain ⟨hvalue, htakes, hsteady, hconsole⟩ := goldfishGetc_taken hbare'.base hfifo
      have hgot : (goldfishGetc w.access).2.base ≠ 0 := (hbare'.of_steady hsteady).base
      have hbyte : (goldfishGetc w.access).1.setWidth 8 = b := by
        rw [hvalue, BitVec.setWidth_setWidth_of_le b (by decide), BitVec.setWidth_eq]
      refine .inr ⟨b, bs, goldfishPutc b (goldfishGetc w.access).2, rfl, ?_, ?_, ?_, ?_⟩
      · rw [Echo.step, if_neg Bool.false_ne_true, htstc]
        dsimp only
        rw [if_pos hne]
        change some (Echo.mk (goldfishPutc ((goldfishGetc w.access).1.setWidth 8) _)
          (decide ((goldfishGetc w.access).1 = 0x71))) = _
        rw [hbyte, hvalue]
        simp only [quit_iff]
        rfl
      · exact ((access_takes w).after htakes).trans (goldfishPutc_takes b _)
      · rw [goldfishPutc_steady hgot, hsteady, access_steady]
      · rw [goldfishPutc_started hgot, hconsole]
        rfl

/-- The bytes taken so far are sent, but for zeros, and the last of them is
the only one that can be a `q`. -/
structure Echoed (w : World) (taken : List U8) (e : Echo) : Prop where
  takes : Takes w e.world taken
  steady : steady e.world = steady w
  console : e.world.tty.console = w.tty.console ++ taken.filter (· ≠ 0)
  left_iff : e.left = true ↔ 0x71 ∈ taken
  first : 0x71 ∉ taken.dropLast

theorem Echoed.step {e e' : Echo} {taken : List U8} (h : Echoed w taken e) (hbare : Bare w)
    (hstep : e.step = some e') : ∃ taken', Echoed w taken' e' := by
  obtain ⟨u, left⟩ := e
  cases left with
  | true => cases hstep
  | false =>
      have hbare' : Bare u := hbare.of_steady h.steady
      have hnone : 0x71 ∉ taken := fun hmem => Bool.noConfusion (h.left_iff.mpr hmem)
      rcases Echo.step_cases hbare' with ⟨-, hidle⟩ | ⟨b, bs, t, -, htook, htakes, hsteady, hsent⟩
      · obtain rfl := Option.some.inj (hidle.symm.trans hstep)
        refine ⟨taken, ⟨?_, (access_steady u).trans h.steady, h.console, h.left_iff, h.first⟩⟩
        have hlater := h.takes.trans (access_takes u)
        rwa [List.append_nil] at hlater
      · obtain rfl := Option.some.inj (htook.symm.trans hstep)
        refine ⟨taken ++ [b], ⟨h.takes.trans htakes, hsteady.trans h.steady, ?_, ?_, ?_⟩⟩
        · rw [hsent, h.console, List.append_assoc, List.filter_append]
        · rw [List.mem_append, List.mem_singleton, decide_eq_true_iff, eq_comm]
          exact ⟨.inr, fun hmem => hmem.resolve_left hnone⟩
        · rw [List.dropLast_concat]
          exact hnone

theorem Echoed.reachable {e : Echo} (hbare : Bare w)
    (hreach : Reaches Echo.step ⟨w, false⟩ e) : ∃ taken, Echoed w taken e := by
  induction hreach with
  | refl =>
      have hstart : Echoed w [] ⟨w, false⟩ :=
        ⟨Takes.refl w, rfl, (List.append_nil _).symm, by simp, List.not_mem_nil⟩
      exact ⟨[], hstart⟩
  | tail _ hstep ih =>
      obtain ⟨taken, h⟩ := ih
      exact h.step hbare hstep

/-! ## The loop ends -/

theorem access_input (w : World) : input w.access = input w :=
  (input_of_takes (access_takes w) (access_steady w)).symm

theorem access_nonempty (hinput : input w ≠ []) (hpace : 0 < w.pace w.accesses) :
    w.access.tty.fifo.bytes ≠ [] := by
  intro hempty
  obtain ⟨hfifo, htaken⟩ := List.append_eq_nil_iff.mp hempty
  have hroom : w.tty.fifo.room = 2 ^ 32 - 1 := by
    rw [Fifo.room, hfifo]
    rfl
  have hdue : 0 < w.due := by
    rw [World.due, hroom]
    exact lt_min hpace (by decide)
  rcases List.take_eq_nil_iff.mp htaken with hzero | hline
  · exact hdue.ne' hzero
  · exact hinput (List.append_eq_nil_iff.mpr ⟨hfifo, hline⟩)

/-- The loop polls until the line has delivered something. -/
theorem Echo.waits (d : ℕ) (hbare : Bare w) (hinput : input w ≠ [])
    (hpace : 0 < w.pace (w.accesses + d)) :
    ∃ u, Reaches Echo.step ⟨w, false⟩ ⟨u, false⟩ ∧ u.access.tty.fifo.bytes ≠ [] ∧
      steady u = steady w ∧ input u = input w ∧ u.tty.console = w.tty.console := by
  induction d generalizing w with
  | zero => exact ⟨w, .refl, access_nonempty hinput hpace, rfl, rfl, rfl⟩
  | succ d ih =>
      rcases Echo.step_cases hbare with ⟨-, hidle⟩ | ⟨b, bs, -, hfifo, -⟩
      · have hpace' : 0 < w.access.pace (w.access.accesses + d) := by
          have hnext : w.accesses + 1 + d = w.accesses + (d + 1) := by omega
          change 0 < w.pace (w.accesses + 1 + d)
          rwa [hnext]
        have hinput' : input w.access ≠ [] := by rwa [access_input]
        have hbare' : Bare w.access := hbare.access
        obtain ⟨u, hreach, hready, hsteady, hkept, hconsole⟩ := ih hbare' hinput' hpace'
        exact ⟨u, .head hidle hreach, hready, hsteady.trans (access_steady w),
          hkept.trans (access_input w), hconsole⟩
      · have hready : w.access.tty.fifo.bytes ≠ [] := by
          rw [hfifo]
          exact List.cons_ne_nil b bs
        exact ⟨w, .refl, hready, rfl, rfl, rfl⟩

/-- The next byte of the line is taken sooner or later. -/
theorem Echo.takes_next (hbare : Bare w) (hfair : ∀ n, ∃ k, n ≤ k ∧ 0 < w.pace k) {b : U8}
    {bs : List U8} (hinput : input w = b :: bs) :
    ∃ t, Reaches Echo.step ⟨w, false⟩ ⟨t, decide (b = 0x71)⟩ ∧ steady t = steady w ∧
      input t = bs ∧ t.tty.console = w.tty.console ++ [b].filter (· ≠ 0) := by
  obtain ⟨k, hk, hpace⟩ := hfair w.accesses
  obtain ⟨d, rfl⟩ := Nat.exists_eq_add_of_le hk
  have hne : input w ≠ [] := by
    rw [hinput]
    exact List.cons_ne_nil b bs
  obtain ⟨u, hreach, hready, husteady, huinput, huconsole⟩ := Echo.waits d hbare hne hpace
  have hubare := hbare.of_steady husteady
  rcases Echo.step_cases hubare with ⟨hempty, -⟩ | ⟨c, cs, t, -, htook, htakes, hsteady, hsent⟩
  · exact absurd hempty hready
  · have hsplit := input_of_takes htakes hsteady
    rw [huinput, hinput] at hsplit
    obtain ⟨rfl, hrest⟩ := List.cons.inj hsplit
    refine ⟨t, hreach.tail htook, hsteady.trans husteady, hrest.symm, ?_⟩
    rw [hsent, huconsole]

theorem Echo.leaves (hbare : Bare w) (hfair : ∀ n, ∃ k, n ≤ k ∧ 0 < w.pace k)
    {cs rest : List U8} (hinput : input w = cs ++ 0x71 :: rest) (hfirst : 0x71 ∉ cs) :
    ∃ t, Reaches Echo.step ⟨w, false⟩ ⟨t, true⟩ ∧ input t = rest ∧
      t.tty.console = w.tty.console ++ (cs ++ [0x71]).filter (· ≠ 0) := by
  induction cs generalizing w with
  | nil =>
      obtain ⟨t, hreach, -, hrest, hconsole⟩ := Echo.takes_next hbare hfair hinput
      exact ⟨t, hreach, hrest, hconsole⟩
  | cons c cs ih =>
      obtain ⟨hne, hlater⟩ := not_or.mp fun hmem => hfirst (List.mem_cons.mpr hmem)
      obtain ⟨t, hreach, hsteady, hrest, hconsole⟩ := Echo.takes_next hbare hfair hinput
      rw [decide_eq_false fun heq => hne heq.symm] at hreach
      have hpace : t.pace = w.pace := congrArg (fun s => s.2.1) hsteady
      obtain ⟨u, hreach', hinput', hconsole'⟩ := ih (hbare.of_steady hsteady)
        (by rwa [hpace]) hrest hlater
      refine ⟨u, hreach.trans hreach', hinput', ?_⟩
      rw [hconsole', hconsole, List.append_assoc, ← List.filter_append]
      rfl

end Loop

/-! ## The whole program -/

def defaultSerialPuts : ℕ → U32 → World → Option World
  | 0, _, _ => none
  | fuel + 1, s, w =>
      if w.mem s ≠ 0 then defaultSerialPuts fuel (s + 1) (goldfishPutc (w.mem s) w) else some w

/-- The address of `goldfish_drv`, which starts with its `name` of 16 bytes,
and what `uart_name` points to. -/
structure Symbols where
  goldfishDrv : U32
  uartName : U32

def setName (fuel : ℕ) (l : Symbols) (mem : Mem) : Option Mem :=
  (strlen fuel mem l.uartName).bind fun n =>
    if n.toInt < 16 then (strcpy fuel l.goldfishDrv l.uartName mem).map Prod.snd else some mem

/-- `main` up to its loop. The program is built without `__USE_CLIB__`, so that
its driver prints nothing. -/
def start (fuel : ℕ) (l : Symbols) (argc argv : U32) (w : World) : Option World :=
  let w := goldfishInit { w with printed := fun _ => [] }
  (setName fuel l w.mem).bind fun mem =>
    let w := { w with mem := mem }
    if argc = 1 then defaultSerialPuts fuel (wordAt w.mem argv) w else some w

/-- The strings of the program, which lie apart from the name of the device. -/
structure Loaded (l : Symbols) (argc argv : U32) (name banner : List U8) (mem : Mem) : Prop where
  drv_ne_zero : l.goldfishDrv ≠ 0
  uartName_ne_zero : l.uartName ≠ 0
  name_string : CString mem l.uartName name
  size : name.length < 2 ^ 31
  name_apart : ∀ i ≤ name.length, 16 ≤ (l.uartName + BitVec.ofNat 32 i - l.goldfishDrv).toNat
  argv_apart : ∀ i < 4, 16 ≤ (argv + BitVec.ofNat 32 i - l.goldfishDrv).toNat
  banner_string : argc = 1 → CString mem (wordAt mem argv) banner
  banner_apart : argc = 1 → ∀ i ≤ banner.length,
    16 ≤ (wordAt mem argv + BitVec.ofNat 32 i - l.goldfishDrv).toNat

section Program

variable {l : Symbols} {argc argv : U32} {name banner : List U8} {mem : Mem} {w : World}
  {fuel : ℕ}

theorem defaultSerialPuts_spec (hbare : Bare w) {s : U32} {cs : List U8}
    (h : CString w.mem s cs) (hfuel : cs.length < fuel) :
    ∃ t, defaultSerialPuts fuel s w = some t ∧ Takes w t [] ∧ steady t = steady w ∧
      t.tty.console = w.tty.console ++ cs := by
  induction cs generalizing s w fuel with
  | nil =>
      cases fuel with
      | zero => exact absurd hfuel (Nat.not_lt_zero _)
      | succ fuel =>
          have hzero : w.mem s = 0 := h
          refine ⟨w, ?_, Takes.refl w, rfl, (List.append_nil _).symm⟩
          rw [defaultSerialPuts, if_neg (not_not.mpr hzero)]
  | cons c cs ih =>
      obtain ⟨hc, hne, hrest⟩ := h
      cases fuel with
      | zero => exact absurd hfuel (Nat.not_lt_zero _)
      | succ fuel =>
          have hsteady := goldfishPutc_steady hbare.base c
          have hmem : (goldfishPutc c w).mem = w.mem := congrArg (fun s => s.2.2.1) hsteady
          have hrest' : CString (goldfishPutc c w).mem (s + 1) cs := by rwa [hmem]
          obtain ⟨t, hputs, htakes, hsteady', hconsole⟩ :=
            ih (hbare.of_steady hsteady) hrest' (Nat.lt_of_succ_lt_succ hfuel)
          refine ⟨t, ?_, (goldfishPutc_takes c w).trans htakes, hsteady'.trans hsteady, ?_⟩
          · rw [defaultSerialPuts, hc, if_pos hne, hputs]
          · rw [hconsole, goldfishPutc_started hbare.base,
              List.filter_cons_of_pos (by simpa using hne), List.append_assoc]
            rfl

/-- The name is set if it fits, and nothing but the field `name` changes. -/
theorem setName_spec (h : Loaded l argc argv name banner mem) (hfuel : name.length < fuel) :
    ∃ mem', setName fuel l mem = some mem' ∧
      (∀ a, 16 ≤ (a - l.goldfishDrv).toNat → mem' a = mem a) ∧
      (name.length < 16 → Memory.load mem' l.goldfishDrv (name.length + 1) = name ++ [0]) := by
  have hsize := h.size
  have hlength : (BitVec.ofNat 32 name.length).toInt = name.length :=
    Words.toInt_ofNat (by omega)
  have hset : setName fuel l mem = if (name.length : ℤ) < 16 then
      (strcpy fuel l.goldfishDrv l.uartName mem).map Prod.snd else some mem := by
    rw [setName, strlen_spec h.name_string hfuel, Option.bind_some, hlength]
  by_cases hshort : name.length < 16
  · have hapart : ∀ i ≤ name.length, ∀ j ≤ name.length,
        l.goldfishDrv + BitVec.ofNat 32 i ≠ l.uartName + BitVec.ofNat 32 j := by
      intro i hi j hj heq
      have hfar := h.name_apart j hj
      rw [← heq, Memory.offset_toNat _ (by omega)] at hfar
      omega
    have hloop := strcpyLoop_spec h.name_string hfuel (by omega) hapart
    have hstored : (name ++ [(0 : U8)]).length = name.length + 1 := by
      rw [List.length_append, List.length_singleton]
    refine ⟨Memory.store mem l.goldfishDrv (name ++ [0]), ?_, fun a ha => ?_, fun _ => ?_⟩
    · rw [hset, if_pos (by exact_mod_cast hshort), strcpy, if_neg h.drv_ne_zero,
        if_neg h.uartName_ne_zero, hloop]
      rfl
    · apply Memory.store_outside
      omega
    · rw [← hstored]
      exact Memory.load_store mem l.goldfishDrv (by omega)
  · refine ⟨mem, ?_, fun _ _ => rfl, fun h => absurd h hshort⟩
    rw [hset, if_neg (by exact_mod_cast hshort)]

/-- Without a C library the start changes the settings alone. -/
theorem goldfishInit_bare (w : World) : let v := goldfishInit { w with printed := fun _ => [] }
    steady v = ((getbaseaddr, fun _ => []), w.pace, w.mem, w.arrived ++ w.line) ∧
      Takes w v [] ∧ v.tty.console = w.tty.console :=
  ⟨access_steady { w with base := getbaseaddr, printed := fun _ => [] },
    (goldfishInit_takes { w with printed := fun _ => [] }).congr rfl rfl, rfl⟩

/-- What the loop starts from. -/
theorem start_spec (h : Loaded l argc argv name banner w.mem) (hname : name.length < fuel)
    (hbanner : banner.length < fuel) :
    ∃ u, start fuel l argc argv w = some u ∧ Bare u ∧ u.pace = w.pace ∧
      (∀ a, 16 ≤ (a - l.goldfishDrv).toNat → u.mem a = w.mem a) ∧
      (name.length < 16 → Memory.load u.mem l.goldfishDrv (name.length + 1) = name ++ [0]) ∧
      input u = input w ∧
      u.tty.console = w.tty.console ++ if argc = 1 then banner else [] := by
  obtain ⟨mem, hset, hkept, hnamed⟩ := setName_spec h hname
  obtain ⟨v, hv⟩ : ∃ v, v = goldfishInit { w with printed := fun _ => [] } := ⟨_, rfl⟩
  obtain ⟨hsteady, htakes, hconsole⟩ := goldfishInit_bare w
  rw [← hv] at hsteady htakes hconsole
  have hmem : v.mem = w.mem := congrArg (fun s => s.2.2.1) hsteady
  have hpace : v.pace = w.pace := congrArg (fun s => s.2.1) hsteady
  have hbase : v.base = getbaseaddr := congrArg (fun s => s.1.1) hsteady
  have hbare : Bare v := ⟨by rw [hbase]; decide, congrArg (fun s => s.1.2) hsteady⟩
  have hinput : input v = input w :=
    (input_of_takes (w := { w with base := getbaseaddr, printed := fun _ => [] }) htakes
      hsteady).symm
  by_cases hargc : argc = 1
  · have hpointer : wordAt mem argv = wordAt w.mem argv :=
      Processor.wordAt_congr fun j hj => hkept _ (h.argv_apart j hj)
    have hstring : CString mem (wordAt mem argv) banner := by
      rw [hpointer]
      exact (h.banner_string hargc).congr fun i hi => hkept _ (h.banner_apart hargc i hi)
    have hbare' : Bare { v with mem := mem } := ⟨hbare.base, hbare.printed⟩
    obtain ⟨u, hputs, hutakes, husteady, husent⟩ :=
      defaultSerialPuts_spec hbare' hstring hbanner
    have humem : u.mem = mem := congrArg (fun s => s.2.2.1) husteady
    refine ⟨u, ?_, hbare'.of_steady husteady, ?_, ?_, ?_, ?_, ?_⟩
    · rw [start]
      dsimp only
      rw [← hv, hmem, hset, Option.bind_some, if_pos hargc, hputs]
    · exact (congrArg (fun s => s.2.1) husteady).trans hpace
    · rwa [humem]
    · rwa [humem]
    · exact (input_of_takes hutakes husteady).symm.trans hinput
    · rw [husent, if_pos hargc, hconsole]
  · refine ⟨{ v with mem := mem }, ?_, ⟨hbare.base, hbare.printed⟩, hpace, hkept, hnamed, hinput, ?_⟩
    · rw [start]
      dsimp only
      rw [← hv, hmem, hset, Option.bind_some, if_neg hargc]
    · rw [if_neg hargc, List.append_nil]
      exact hconsole

/-- In every state of the loop the console has the argument of `main` and the
bytes taken from the line so far, in order and but for zeros; the rest of
them is still to be read. -/
theorem main_echoes (h : Loaded l argc argv name banner w.mem) (hname : name.length < fuel)
    (hbanner : banner.length < fuel) :
    ∃ u, start fuel l argc argv w = some u ∧
      (∀ a, 16 ≤ (a - l.goldfishDrv).toNat → u.mem a = w.mem a) ∧
      (name.length < 16 → Memory.load u.mem l.goldfishDrv (name.length + 1) = name ++ [0]) ∧
      ∀ e, Reaches Echo.step ⟨u, false⟩ e → ∃ taken,
        input w = taken ++ input e.world ∧
        e.world.tty.console =
          w.tty.console ++ (if argc = 1 then banner else []) ++ taken.filter (· ≠ 0) ∧
        (e.left = true ↔ 0x71 ∈ taken) ∧ 0x71 ∉ taken.dropLast ∧ e.world.mem = u.mem := by
  obtain ⟨u, hstart, hbare, -, hkept, hnamed, hinput, hconsole⟩ := start_spec h hname hbanner
  refine ⟨u, hstart, hkept, hnamed, fun e hreach => ?_⟩
  obtain ⟨taken, htaken⟩ := Echoed.reachable hbare hreach
  refine ⟨taken, ?_, ?_, htaken.left_iff, htaken.first, ?_⟩
  · rw [← hinput]
    exact input_of_takes htaken.takes htaken.steady
  · rw [htaken.console, hconsole]
  · exact congrArg (fun s => s.2.2.1) htaken.steady

/-- When a `q` is on its way and the line goes on delivering, the program
returns, with everything before the first `q` and that itself sent. -/
theorem main_returns (h : Loaded l argc argv name banner w.mem) (hname : name.length < fuel)
    (hbanner : banner.length < fuel) (hfair : ∀ n, ∃ k, n ≤ k ∧ 0 < w.pace k)
    {cs rest : List U8} (hinput : input w = cs ++ 0x71 :: rest) (hfirst : 0x71 ∉ cs) :
    ∃ u t, start fuel l argc argv w = some u ∧ Reaches Echo.step ⟨u, false⟩ ⟨t, true⟩ ∧
      input t = rest ∧
      t.tty.console = w.tty.console ++ (if argc = 1 then banner else []) ++
        (cs ++ [0x71]).filter (· ≠ 0) := by
  obtain ⟨u, hstart, hbare, hpace, -, -, hkept, hconsole⟩ := start_spec h hname hbanner
  rw [← hpace] at hfair
  rw [← hkept] at hinput
  obtain ⟨t, hreach, hrest, hsent⟩ := Echo.leaves hbare hfair hinput hfirst
  refine ⟨u, t, hstart, hreach, hrest, ?_⟩
  rw [hsent, hconsole]

end Program

/-! ## A line that ends -/

def echoSymbols : Symbols := ⟨0x1000, 0x2000⟩

/-- The name `u` and the argument `>`, with `x` and `q` on the line. -/
def typing : World :=
  { World.reset [0x78, 0x71] fun _ => 1 with
    mem := Memory.store (Memory.store (Memory.store (fun _ => 0) 0x2000 [0x75])
      0x3000 (Arm.bytes 0x4000)) 0x4000 [0x3e] }

theorem typing_loaded : Loaded echoSymbols 1 0x3000 [0x75] [0x3e] typing.mem where
  drv_ne_zero := by decide
  uartName_ne_zero := by decide
  name_string := ⟨by decide, by decide, rfl⟩
  size := by decide
  name_apart := by decide
  argv_apart := by decide
  banner_string _ := ⟨by decide, by decide, rfl⟩
  banner_apart _ := by decide

theorem main_echoes_typing : ∃ u, start 2 echoSymbols 1 0x3000 typing = some u ∧
    ∀ e, Reaches Echo.step ⟨u, false⟩ e → ∃ taken, [0x78, 0x71] = taken ++ input e.world ∧
      e.world.tty.console = [0x3e] ++ taken.filter (· ≠ 0) := by
  obtain ⟨u, hstart, -, -, hall⟩ := main_echoes (w := typing) typing_loaded
    Nat.one_lt_two Nat.one_lt_two
  refine ⟨u, hstart, fun e hreach => ?_⟩
  obtain ⟨taken, hinput, hconsole, -⟩ := hall e hreach
  exact ⟨taken, hinput, hconsole⟩

theorem main_returns_typing : ∃ u t, start 2 echoSymbols 1 0x3000 typing = some u ∧
    Reaches Echo.step ⟨u, false⟩ ⟨t, true⟩ ∧ t.tty.console = [0x3e, 0x78, 0x71] := by
  have hinput : input typing = [0x78] ++ 0x71 :: [] := rfl
  obtain ⟨u, t, hstart, hreach, -, hconsole⟩ := main_returns (w := typing) typing_loaded
    Nat.one_lt_two Nat.one_lt_two (fun n => ⟨n, le_rfl, Nat.one_pos⟩) hinput (by decide)
  exact ⟨u, t, hstart, hreach, hconsole⟩

end Goldfish.Programs
