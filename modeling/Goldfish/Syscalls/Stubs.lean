import Goldfish.Lib.Words
import Goldfish.Serial.Driver

/-!
# The system call stubs

`_write` and `_read` of `syscalls_cs3.c`, over the driver. The polling loop
of `_read` need not end, so it runs on fuel.
-/

namespace Goldfish.Syscalls

open Serial

def stdinFileno : U32 := 0

def stdoutFileno : U32 := 1

def stderrFileno : U32 := 2

-- of `errno.h`
def ebadf : ℕ := 9

def enomem : ℕ := 12

def putAll (bytes : List U8) (w : World) : World :=
  bytes.foldl (fun w c => goldfishPutc c w) w

def write (file : U32) (bytes : List U8) (w : World) : U32 × World :=
  if file = stdoutFileno then (BitVec.ofNat 32 bytes.length, putAll bytes w)
  else if file = stderrFileno then (BitVec.ofNat 32 bytes.length, putAll bytes w)
  else (-1, { w with errno := ebadf })

/-- `while (len1 <= 0) len1 = drv->tstc();` -/
def waitInput : ℕ → U32 → World → Option (U32 × World)
  | 0, len1, w => if len1.toInt ≤ 0 then none else some (len1, w)
  | fuel + 1, len1, w =>
      if len1.toInt ≤ 0 then waitInput fuel (goldfishTstc w).1 (goldfishTstc w).2
      else some (len1, w)

def poll (fuel : ℕ) (w : World) : Option (U32 × World) :=
  waitInput fuel (goldfishTstc w).1 (goldfishTstc w).2

/-- `for (n = 0; n < len1; n++)`, with the number of rounds left. -/
def getAll : ℕ → U32 → U32 → World → U32 × World
  | 0, _, num, w => (num, w)
  | n + 1, ptr, num, w =>
      let (c, w) := goldfishGetc w
      getAll n (ptr + 1) (num + 1) { w with mem := Function.update w.mem ptr (c.setWidth 8) }

def readAfter (file ptr len len1 : U32) (w : World) : U32 × World :=
  if len1 ≠ 0 then
    let len1 := if len1.toInt > len.toInt then len else len1
    if file = stdinFileno then getAll len1.toInt.toNat ptr 0 w
    else (-1, { w with errno := ebadf })
  else (-1, w)

def read (fuel : ℕ) (file ptr len : U32) (w : World) : Option (U32 × World) :=
  (poll fuel w).map fun (len1, w) => readAfter file ptr len len1 w

theorem putAll_cons (c : U8) (bytes : List U8) (w : World) :
    putAll (c :: bytes) w = putAll bytes (goldfishPutc c w) := List.foldl_cons ..

/-! ## The wait -/

theorem poll_zero (w : World) : poll 0 w =
    if (goldfishTstc w).1.toInt ≤ 0 then none else some (goldfishTstc w) := rfl

theorem poll_succ (fuel : ℕ) (w : World) : poll (fuel + 1) w =
    if (goldfishTstc w).1.toInt ≤ 0 then poll fuel (goldfishTstc w).2
    else some (goldfishTstc w) := rfl

/-- The wait takes nothing and ends with a poll that sees the queue. -/
structure Polled (w : World) (len1 : U32) (u : World) : Prop where
  takes : Takes w u []
  mem : u.mem = w.mem
  positive : 0 < len1.toInt
  sees : len1.toNat = u.tty.fifo.bytes.length

theorem Polled.toInt_eq {w u : World} {len1 : U32} (h : Polled w len1 u) :
    len1.toInt = u.tty.fifo.bytes.length := by
  rw [← h.sees]
  exact BitVec.toInt_eq_toNat_of_lt (BitVec.toInt_pos_iff.mp h.positive.le)

theorem tstc_polled {w : World} (h : ¬ (goldfishTstc w).1.toInt ≤ 0) :
    Polled w (goldfishTstc w).1 (goldfishTstc w).2 where
  takes := goldfishTstc_takes w
  mem := goldfishTstc_mem w
  positive := not_le.mp h
  sees := by
    rw [goldfishTstc_of_nonneg fun hneg => h hneg.le]
    exact bytesReady_value (withBase w)

theorem Polled.later {w t : World} {len1 : U32} {u : World} (h : Polled t len1 u)
    (htakes : Takes w t []) (hmem : t.mem = w.mem) : Polled w len1 u where
  takes := htakes.after h.takes
  mem := h.mem.trans hmem
  positive := h.positive
  sees := h.sees

theorem poll_polled {fuel : ℕ} {w : World} {len1 : U32} {u : World}
    (h : poll fuel w = some (len1, u)) : Polled w len1 u := by
  induction fuel generalizing w with
  | zero =>
      rw [poll_zero, Option.ite_none_left_eq_some, Option.some.injEq] at h
      obtain ⟨hpos, heq⟩ := h
      obtain ⟨rfl, rfl⟩ := Prod.ext_iff.mp heq
      exact tstc_polled hpos
  | succ fuel ih =>
      rw [poll_succ] at h
      split at h
      · exact (ih h).later (goldfishTstc_takes w) (goldfishTstc_mem w)
      · rename_i hpos
        obtain ⟨rfl, rfl⟩ := Prod.ext_iff.mp (Option.some.inj h)
        exact tstc_polled hpos

/-! ## The loop over the bytes -/

theorem getAll_spec (n : ℕ) (ptr num : U32) (w : World) (h : n ≤ w.tty.fifo.bytes.length) :
    ∃ bs, bs.length = n ∧ Takes w (getAll n ptr num w).2 bs ∧
      (getAll n ptr num w).1 = num + BitVec.ofNat 32 n ∧
      (getAll n ptr num w).2.mem = Memory.store w.mem ptr bs := by
  induction n generalizing ptr num w with
  | zero => exact ⟨[], rfl, Takes.refl w, (BitVec.add_zero num).symm, (Memory.store_nil _ _).symm⟩
  | succ n ih =>
      obtain ⟨b, rest, hfifo⟩ := List.exists_cons_of_length_pos (Nat.lt_of_lt_of_le n.succ_pos h)
      obtain ⟨htakes, hvalue, hmem⟩ := goldfishGetc_spec w hfifo
      have hbyte : (goldfishGetc w).1.setWidth 8 = b := by
        rw [hvalue, BitVec.setWidth_setWidth_of_le b (by decide), BitVec.setWidth_eq]
      obtain ⟨t, ht⟩ : ∃ t, t = { (goldfishGetc w).2 with
          mem := Function.update (goldfishGetc w).2.mem ptr ((goldfishGetc w).1.setWidth 8) } :=
        ⟨_, rfl⟩
      have htakes' : Takes w t [b] := by
        rw [ht]
        exact htakes.congr rfl rfl
      have hmem' : t.mem = Function.update w.mem ptr b := by
        rw [ht, ← hmem, ← hbyte]
      have hlen : n ≤ t.tty.fifo.bytes.length := by
        obtain ⟨new, hnew, -⟩ := htakes'
        have hcount := congrArg List.length hnew
        rw [List.length_append, List.length_append, List.length_singleton] at hcount
        omega
      obtain ⟨bs, hbs, hrest, hnum, hstore⟩ := ih (ptr + 1) (num + 1) t hlen
      have hround : getAll (n + 1) ptr num w = getAll n (ptr + 1) (num + 1) t := by
        rw [ht]
        rfl
      refine ⟨b :: bs, by rw [List.length_cons, hbs], ?_, ?_, ?_⟩
      · rw [hround]
        exact htakes'.trans hrest
      · rw [hround, hnum, Words.ofNat_add, add_comm (BitVec.ofNat 32 n), ← add_assoc]
        rfl
      · have hfits := w.tty.fifo.fits
        rw [hround, hstore, hmem', Memory.store_cons]
        omega

end Goldfish.Syscalls
