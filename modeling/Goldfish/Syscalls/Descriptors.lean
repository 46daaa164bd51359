import Goldfish.Syscalls.Stubs

/-!
# Descriptors

`_write` takes the two output descriptors and turns every other one away. It
answers with the length it was asked for, whether or not the driver has sent
that many bytes, or more: the first character starts a driver that was not
started, and starting prints. `_read` looks at its descriptor only when there
is input.
-/

namespace Goldfish.Syscalls

open Serial

/-! ## Output -/

def IsOutput (file : U32) : Prop := file = stdoutFileno ∨ file = stderrFileno

instance (file : U32) : Decidable (IsOutput file) := inferInstanceAs (Decidable (_ ∨ _))

/-- The call sends the buffer, and nothing but the buffer, and returns the
number of bytes it has sent; on the other descriptors it fails. -/
structure Writes (file : U32) (buf : List U8) (w : World) : Prop where
  sent : (write file buf w).2.tty.console = w.tty.console ++ if IsOutput file then buf else []
  value : (write file buf w).1.toInt = if IsOutput file then
    ((write file buf w).2.tty.console.length : ℤ) - w.tty.console.length else -1
  errno : ¬ IsOutput file → (write file buf w).2.errno = ebadf

/-- What the driver prints before the next character: that it has been started. -/
def startText (w : World) : List U8 :=
  if w.base = 0 then (w.printed w.accesses).filter (· ≠ 0) else []

/-- The driver has been started, or starting it prints nothing. -/
def StartsSilently (w : World) : Prop := w.base ≠ 0 ∨ ∀ c ∈ w.printed w.accesses, c = 0

instance (w : World) : Decidable (StartsSilently w) := inferInstanceAs (Decidable (_ ∨ _))

theorem startText_eq_nil_iff (w : World) : startText w = [] ↔ StartsSilently w := by
  unfold startText StartsSilently
  split
  · rename_i hbase
    simp [hbase]
  · rename_i hbase
    exact iff_of_true rfl (.inl hbase)

/-- A zero byte is not sent. -/
theorem putc_console (w : World) (c : U8) :
    (w.putc c).tty.console = w.tty.console ++ [c].filter (· ≠ 0) := by
  have hchar : (c.setWidth 32).setWidth 8 = c := by
    rw [BitVec.setWidth_setWidth_of_le c (by decide), BitVec.setWidth_eq]
  unfold World.putc
  split
  · rename_i hc
    rw [World.writePutChar, hchar, List.filter_cons_of_pos (by simpa using hc)]
    rfl
  · rename_i hc
    rw [List.filter_cons_of_neg (by simpa using hc), List.filter_nil, List.append_nil]

theorem debug_console (w : World) :
    w.debug.tty.console = w.tty.console ++ (w.printed w.accesses).filter (· ≠ 0) := by
  have hall : ∀ (cs : List U8) (t : World),
      (cs.foldl World.putc t).tty.console = t.tty.console ++ cs.filter (· ≠ 0) := by
    intro cs
    induction cs with
    | nil => exact fun t => (List.append_nil _).symm
    | cons c cs ih =>
        intro t
        rw [List.foldl_cons, ih, putc_console, List.append_assoc, ← List.filter_append]
        rfl
  exact hall _ w

theorem withBase_console (w : World) : (withBase w).tty.console = w.tty.console ++ startText w := by
  unfold withBase startText
  split
  · exact debug_console { w with base := getbaseaddr }
  · exact (List.append_nil _).symm

theorem goldfishPutc_console (c : U8) (w : World) : (goldfishPutc c w).tty.console =
    w.tty.console ++ startText w ++ [c].filter (· ≠ 0) := by
  rw [goldfishPutc, putc_console, withBase_console]

theorem goldfishPutc_base (c : U8) (w : World) : (goldfishPutc c w).base ≠ 0 := by
  have hbase := withBase_base w
  unfold goldfishPutc World.putc
  split
  · exact hbase
  · exact hbase

/-- The driver drops the bytes that are zero. -/
theorem putAll_console (buf : List U8) (w : World) : (putAll buf w).tty.console =
    w.tty.console ++ (if buf = [] then [] else startText w) ++ buf.filter (· ≠ 0) := by
  induction buf generalizing w with
  | nil =>
      rw [if_pos rfl, List.append_nil]
      exact (List.append_nil _).symm
  | cons c buf ih =>
      have hstarted : startText (goldfishPutc c w) = [] := if_neg (goldfishPutc_base c w)
      rw [putAll_cons, ih, hstarted, ite_self, List.append_nil, goldfishPutc_console,
        List.append_assoc, ← List.filter_append, if_neg (List.cons_ne_nil c buf)]
      rfl

theorem write_output {file : U32} (h : IsOutput file) (buf : List U8) (w : World) :
    write file buf w = (BitVec.ofNat 32 buf.length, putAll buf w) := by
  unfold write
  rcases h with rfl | rfl
  · exact if_pos rfl
  · rw [if_neg (by decide), if_pos rfl]

theorem write_other {file : U32} (h : ¬ IsOutput file) (buf : List U8) (w : World) :
    write file buf w = (-1, { w with errno := ebadf }) := by
  have hnot := not_or.mp h
  rw [write, if_neg hnot.1, if_neg hnot.2]

/-- What comes before the buffer is not part of it, and what is dropped of the
buffer is missing. -/
theorem sent_buffer_iff (pre buf : List U8) (hpre : 0 ∉ pre) :
    pre ++ buf.filter (· ≠ 0) = buf ↔ 0 ∉ buf ∧ pre = [] := by
  have hself : buf.filter (· ≠ 0) = buf ↔ 0 ∉ buf := by
    rw [List.filter_eq_self]
    simp only [decide_eq_true_eq]
    exact ⟨fun h hmem => h 0 hmem rfl, fun h b hb heq => h (heq ▸ hb)⟩
  constructor
  · intro h
    have hzero : 0 ∉ buf := by
      rw [← h, List.mem_append, List.mem_filter]
      rintro (hmem | ⟨-, hne⟩)
      · exact hpre hmem
      · exact of_decide_eq_true hne rfl
    rw [hself.mpr hzero, List.append_left_eq_self] at h
    exact ⟨hzero, h⟩
  · rintro ⟨hzero, rfl⟩
    exact hself.mpr hzero

/-- `_write` keeps its word on every descriptor and in every state of the
driver, unless it has to send a zero byte or its first byte starts the driver
and that prints. -/
theorem writes_iff (file : U32) (buf : List U8) (w : World) (hlen : buf.length < 2 ^ 31) :
    Writes file buf w ↔ (IsOutput file → 0 ∉ buf ∧ (buf ≠ [] → StartsSilently w)) := by
  by_cases hout : IsOutput file
  · have hwrite := write_output hout buf w
    have hconsole := putAll_console buf w
    have htext : 0 ∉ if buf = [] then [] else startText w := by
      unfold startText
      split_ifs
      · exact List.not_mem_nil
      · simp
      · exact List.not_mem_nil
    have hsilent : (if buf = [] then [] else startText w) = [] ↔ (buf ≠ [] → StartsSilently w) := by
      rw [← startText_eq_nil_iff]
      by_cases hbuf : buf = []
      · simp [hbuf]
      · simp [hbuf]
    have hsent := (sent_buffer_iff _ buf htext).trans (and_congr_right fun _ => hsilent)
    constructor
    · intro hwrites _
      have hall := hwrites.sent
      rw [hwrite, if_pos hout] at hall
      dsimp only at hall
      rw [hconsole, List.append_assoc, List.append_cancel_left_eq] at hall
      exact hsent.mp hall
    · intro hok
      rw [List.append_assoc, hsent.mpr (hok hout)] at hconsole
      refine ⟨?_, ?_, fun hnot => absurd hout hnot⟩
      · rw [hwrite, if_pos hout]
        exact hconsole
      · have hint : (BitVec.ofNat 32 buf.length).toInt = buf.length :=
          Words.toInt_ofNat (by omega)
        rw [hwrite, if_pos hout]
        dsimp only
        rw [hconsole, hint, List.length_append]
        omega
  · have hwrite := write_other hout buf w
    refine ⟨fun _ h => absurd h hout, fun _ => ⟨?_, ?_, fun _ => ?_⟩⟩
    · rw [hwrite, if_neg hout, List.append_nil]
    · rw [hwrite, if_neg hout]
      rfl
    · rw [hwrite]

def silent : World := .started [] fun _ => 0

theorem writes_exit : Writes stdoutFileno [0x65#8, 0x78#8, 0x69#8, 0x74#8] silent :=
  (writes_iff stdoutFileno _ silent (by decide)).mpr
    (fun _ => ⟨by decide, fun _ => .inl (by decide)⟩)

/-- Of two bytes, one of them zero, one is sent and two are reported. -/
theorem not_writes_zero : ¬ ∀ (file : U32) (buf : List U8) (w : World),
    buf.length < 2 ^ 31 → Writes file buf w := by
  intro h
  have hvalue := (h stdoutFileno [0x61#8, 0#8] silent (by decide)).value
  exact absurd hvalue (by decide)

/-! ## Input -/

/-- The call has failed, with at most `n` polls after the first, and has
left queue and buffer alone. -/
def RejectsWithin (n : ℕ) (file ptr len : U32) (w : World) : Prop :=
  ∃ t, read n file ptr len w = some (-1, t) ∧ t.errno = ebadf ∧ Takes w t [] ∧ t.mem = w.mem

/-- The state after `n` polls. -/
def waited : ℕ → World → World
  | 0, w => w
  | n + 1, w => waited n (goldfishTstc w).2

/-- The queue as the next poll finds it. -/
def pollQueue (w : World) : List U8 := (withBase w).access.tty.fifo.bytes

/-- The next poll sees a number of bytes that is positive as an `int`. -/
def Ready (w : World) : Prop := 0 < (pollQueue w).length ∧ (pollQueue w).length < 2 ^ 31

theorem ready_iff (w : World) : Ready w ↔ ¬ (goldfishTstc w).1.toInt ≤ 0 := by
  have hvalue : (goldfishTstc w).1.toNat = (pollQueue w).length := goldfishTstc_value w
  have hlt := (goldfishTstc w).1.isLt
  unfold Ready
  rw [← hvalue, BitVec.toInt_eq_toNat_cond]
  split <;> omega

theorem poll_isSome_iff {n : ℕ} {w : World} :
    (poll n w).isSome ↔ ∃ k ≤ n, Ready (waited k w) := by
  induction n generalizing w with
  | zero =>
      rw [poll_zero]
      constructor
      · intro hsome
        refine ⟨0, le_refl 0, (ready_iff w).mpr ?_⟩
        intro hnone
        rw [if_pos hnone] at hsome
        cases hsome
      · rintro ⟨k, hk, hready⟩
        obtain rfl := Nat.le_zero.mp hk
        rw [if_neg ((ready_iff w).mp hready)]
        rfl
  | succ n ih =>
      rw [poll_succ]
      split
      · rename_i hnone
        rw [ih]
        constructor
        · rintro ⟨k, hk, hready⟩
          exact ⟨k + 1, Nat.succ_le_succ hk, hready⟩
        · rintro ⟨k, hk, hready⟩
          cases k with
          | zero => exact absurd hnone ((ready_iff w).mp hready)
          | succ k => exact ⟨k, Nat.le_of_succ_le_succ hk, hready⟩
      · rename_i hpos
        exact iff_of_true rfl ⟨0, Nat.zero_le _, (ready_iff w).mpr hpos⟩

theorem readAfter_other {file : U32} (hfile : file ≠ stdinFileno) (ptr len : U32) {len1 : U32}
    (hpos : 0 < len1.toInt) (u : World) :
    readAfter file ptr len len1 u = (-1, { u with errno := ebadf }) := by
  have hne : len1 ≠ 0 := by
    rintro rfl
    exact absurd hpos (by decide)
  rw [readAfter, if_pos hne, if_neg hfile]

/-- On the other descriptors `_read` fails as it should, but not before a
poll has found input. -/
theorem rejectsWithin_iff (file : U32) (hfile : file ≠ stdinFileno) (n : ℕ) (ptr len : U32)
    (w : World) : RejectsWithin n file ptr len w ↔ ∃ k ≤ n, Ready (waited k w) := by
  rw [← poll_isSome_iff]
  constructor
  · rintro ⟨t, hread, -⟩
    obtain ⟨r, hpoll, -⟩ := Option.map_eq_some_iff.mp hread
    rw [hpoll]
    rfl
  · intro hsome
    obtain ⟨⟨len1, u⟩, hpoll⟩ := Option.isSome_iff_exists.mp hsome
    have hpolled := poll_polled hpoll
    have hafter := readAfter_other hfile ptr len hpolled.positive u
    refine ⟨{ u with errno := ebadf }, ?_, rfl, hpolled.takes.congr rfl rfl, hpolled.mem⟩
    rw [read, hpoll, Option.map_some]
    exact congrArg some hafter

theorem rejectsWithin_typing : RejectsWithin 3 stdoutFileno 0x100#32 1
    (.started [0x61#8] fun n => n / 2) :=
  (rejectsWithin_iff stdoutFileno (by decide) 3 _ _ _).mpr ⟨1, by decide, by decide, by decide⟩

structure Quiet (w : World) : Prop where
  line : w.line = []
  fifo : w.tty.fifo.bytes = []

theorem Quiet.access {w : World} (h : Quiet w) : Quiet w.access := by
  constructor
  · change w.line.drop w.due = []
    rw [h.line, List.drop_nil]
  · change w.tty.fifo.bytes ++ w.line.take w.due = []
    rw [h.line, h.fifo, List.take_nil, List.append_nil]

theorem Quiet.debug {w : World} (h : Quiet w) : Quiet w.debug := by
  apply debug_induct h
  intro t c ht
  unfold World.putc
  split
  · exact ⟨ht.access.line, ht.access.fifo⟩
  · exact ht

theorem Quiet.withBase {w : World} (h : Quiet w) : Quiet (withBase w) := by
  unfold Serial.withBase
  split
  · have hbase : Quiet { w with base := getbaseaddr } := ⟨h.line, h.fifo⟩
    exact ⟨hbase.debug.access.line, hbase.debug.access.fifo⟩
  · exact h

theorem Quiet.tstc {w : World} (h : Quiet w) : Quiet (goldfishTstc w).2 := by
  have hpolled : Quiet (Serial.withBase w).bytesReady.2 := h.withBase.access
  rw [goldfishTstc_eq]
  dsimp only
  split
  · exact hpolled.debug
  · exact hpolled

theorem Quiet.not_ready_waited {w : World} (h : Quiet w) (n : ℕ) : ¬ Ready (waited n w) := by
  induction n generalizing w with
  | zero =>
      intro hready
      have hpos := hready.1
      change 0 < (Serial.withBase w).access.tty.fifo.bytes.length at hpos
      rw [h.withBase.access.fifo] at hpos
      exact absurd hpos (lt_irrefl 0)
  | succ n ih => exact ih h.tstc

/-- No number of polls is enough when nothing is ever typed. -/
theorem not_rejectsWithin_silent : ¬ ∃ n, ∀ (file ptr len : U32) (w : World),
    file ≠ stdinFileno → RejectsWithin n file ptr len w := by
  rintro ⟨n, h⟩
  obtain ⟨t, hread, -⟩ := h stdoutFileno 0x100#32 1 silent (by decide)
  obtain ⟨r, hpoll, -⟩ := Option.map_eq_some_iff.mp hread
  obtain ⟨k, -, hready⟩ := poll_isSome_iff.mp (Option.isSome_of_eq_some hpoll)
  have hquiet : Quiet silent := ⟨rfl, rfl⟩
  exact hquiet.not_ready_waited k hready

end Goldfish.Syscalls
