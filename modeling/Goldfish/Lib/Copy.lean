import Goldfish.Lib.Code

/-!
# Loops that move words

The loops of startup code: words are copied upwards as long as `r1` is below
the limit in `r2`. The comparison is signed, so the areas lie in the lower
half of the address space.
-/

namespace Processor

open Arm (Word Memory bytes wordAt align)
open StateTransition

/-! ## One word after another -/

theorem storeWords_append (m : Memory) (a : Word) {vs ws : List Word}
    (h : 4 * (vs.length + ws.length) ≤ 2 ^ 32) :
    storeWords (storeWords m a vs) (a + BitVec.ofNat 32 (4 * vs.length)) ws =
      storeWords m a (vs ++ ws) := by
  rw [storeWords, storeWords, storeWords, ← flatMap_bytes_length vs, Memory.store_append,
    List.flatMap_append]
  rw [flatMap_bytes_length, flatMap_bytes_length]
  omega

/-- Words stay where other words are stored off them. -/
theorem Holds.kept {m : Memory} {a b : Word} {vs ws : List Word} (h : Holds m a vs)
    (hfit : a.toNat + 4 * vs.length ≤ 2 ^ 32) (hfit' : b.toNat + 4 * ws.length ≤ 2 ^ 32)
    (hapart : a.toNat + 4 * vs.length ≤ b.toNat ∨ b.toNat + 4 * ws.length ≤ a.toNat) :
    Holds (storeWords m b ws) a vs :=
  h.congr hfit fun _ _ _ => storeWords_outside m hfit' (by omega)

/-! ## The two loops -/

def copyLoop (src dst : Reg) (a : Word) : List Instr :=
  [.cmp .r1 (.reg .r2), .cond .lt (.ldmia src .r3), .cond .lt (.stmia dst .r3), .cond .lt (.b a)]

def fillLoop (a : Word) : List Instr :=
  [.cmp .r1 (.reg .r2), .cond .lt (.stmia .r1 .r3), .cond .lt (.b a)]

section Pass

variable {m : Machine} {src dst : Reg} {a : Word}

/-- A pass with `r1` below the limit. -/
theorem copyLoop_below (hsrc : src ≠ .r3) (hdst : dst ≠ .r3) (hne : src ≠ dst)
    (hlt : (m.core.get .r1).toInt < (m.core.get .r2).toInt) :
    ∃ c, SameBut [src, dst, .r3] m.core c ∧
      runCode (copyLoop src dst a) m = ⟨c.setPc a, storeWords m.mem (align (m.core.get dst))
        [wordAt m.mem (align (m.core.get src))]⟩ ∧
      c.get src = m.core.get src + 4 ∧ c.get dst = m.core.get dst + 4 := by
  refine ⟨((((((m.core.compare (m.core.get .r1) (m.core.get .r2)).next.set .r3
    (wordAt m.mem (align (m.core.get src)))).set src (m.core.get src + 4)).next).set dst
    (m.core.get dst + 4)).next), ?_, ?_, ?_, ?_⟩
  · apply SameBut.next
    apply SameBut.set _ (by simp)
    apply SameBut.next
    apply SameBut.set _ (by simp)
    apply SameBut.set _ (by simp)
    exact ((SameBut.refl m.core).compare _ _).next
  · simp [copyLoop, Instr.exec, Operand.value, Core.next, Core.get_set, hlt, hdst, hne.symm,
      Ne.symm hsrc]
  · simp [Core.next, Core.get_set, hne]
  · simp [Core.next, Core.get_set]

theorem fillLoop_below (hlt : (m.core.get .r1).toInt < (m.core.get .r2).toInt) :
    ∃ c, SameBut [.r1] m.core c ∧
      runCode (fillLoop a) m =
        ⟨c.setPc a, storeWords m.mem (align (m.core.get .r1)) [m.core.get .r3]⟩ ∧
      c.get .r1 = m.core.get .r1 + 4 := by
  refine ⟨((m.core.compare (m.core.get .r1) (m.core.get .r2)).next.set .r1
    (m.core.get .r1 + 4)).next, ?_, ?_, ?_⟩
  · apply SameBut.next
    apply SameBut.set _ (by simp)
    exact ((SameBut.refl m.core).compare _ _).next
  · simp [fillLoop, Instr.exec, Operand.value, Core.next, hlt]
  · simp [Core.next, Core.get_set]

/-- A pass with `r1` at the limit. -/
theorem copyLoop_done (hge : (m.core.get .r2).toInt ≤ (m.core.get .r1).toInt) :
    runCode (copyLoop src dst a) m =
      ⟨(m.core.compare (m.core.get .r1) (m.core.get .r2)).setPc (m.core.pc + 16), m.mem⟩ := by
  have hnot := not_lt.mpr hge
  have hsum : m.core.pc + 4 + 4 + 4 + 4 = m.core.pc + 16 := by
    rw [add_assoc, add_assoc, add_assoc]
    rfl
  rw [← hsum]
  simp [copyLoop, Instr.exec, Operand.value, Core.next, hnot]
  rfl

theorem fillLoop_done (hge : (m.core.get .r2).toInt ≤ (m.core.get .r1).toInt) :
    runCode (fillLoop a) m =
      ⟨(m.core.compare (m.core.get .r1) (m.core.get .r2)).setPc (m.core.pc + 12), m.mem⟩ := by
  have hnot := not_lt.mpr hge
  have hsum : m.core.pc + 4 + 4 + 4 = m.core.pc + 12 := by
    rw [add_assoc, add_assoc]
    rfl
  rw [← hsum]
  simp [fillLoop, Instr.exec, Operand.value, Core.next, hnot]
  rfl

end Pass

/-! ## Whole runs -/

/-- How many words lie from `p` to the limit. -/
def wordsTo (p e : Word) : ℕ := (e.toNat - p.toNat + 3) / 4

theorem lt_wordsTo_iff {p e : Word} {k : ℕ} : k < wordsTo p e ↔ p.toNat + 4 * k < e.toNat := by
  rw [wordsTo]
  omega

theorem toInt_of_lt {p : Word} (h : p.toNat < 2 ^ 31) : p.toInt = p.toNat := by
  rw [BitVec.toInt_eq_toNat_cond, if_pos (by omega)]

/-- The loop compares signed, but below the middle of the address space that
makes no difference. -/
theorem advanced_lt_iff {p e : Word} {k : ℕ} (hp : p.toNat < 2 ^ 31) (he : e.toNat + 3 < 2 ^ 31)
    (hk : k ≤ wordsTo p e) :
    (p + BitVec.ofNat 32 (4 * k)).toInt < e.toInt ↔ k < wordsTo p e := by
  have hbound : p.toNat + 4 * k < 2 ^ 31 := by
    rw [wordsTo] at hk
    omega
  have hsum : (p + BitVec.ofNat 32 (4 * k)).toNat = p.toNat + 4 * k :=
    Memory.add_ofNat_toNat (by omega)
  rw [toInt_of_lt (by rw [hsum]; exact hbound), toInt_of_lt (by omega), hsum, lt_wordsTo_iff]
  omega

/-- The loop at `a` has all but the last `n` of the words `vs` at `dst`, and
its pointers have gone so far. -/
structure Moved (ptrs scratch : List Reg) (dst : Reg) (a : Word) (m₀ : Machine) (vs : List Word)
    (n : ℕ) (m : Machine) : Prop where
  left : n ≤ vs.length
  pc : m.core.pc = a
  pointers : ∀ r ∈ ptrs, m.core.get r = m₀.core.get r + BitVec.ofNat 32 (4 * (vs.length - n))
  same : SameBut (ptrs ++ scratch) m₀.core m.core
  mem : m.mem = storeWords m₀.mem (m₀.core.get dst) (vs.take (vs.length - n))

namespace Moved

variable {ptrs scratch : List Reg} {dst : Reg} {a : Word} {m₀ : Machine} {vs : List Word}

theorem start (hpc : m₀.core.pc = a) : Moved ptrs scratch dst a m₀ vs vs.length m₀ where
  left := le_rfl
  pc := hpc
  pointers r _ := by
    rw [Nat.sub_self, Nat.mul_zero]
    exact (BitVec.add_zero _).symm
  same := SameBut.refl m₀.core
  mem := by
    rw [Nat.sub_self, List.take_zero]
    rfl

variable {n : ℕ} {m : Machine}

/-- One pass. -/
theorem next (h : Moved ptrs scratch dst a m₀ vs (n + 1) m) (hn : n < vs.length)
    (hdst : dst ∈ ptrs) (hlen : 4 * vs.length ≤ 2 ^ 32) {c : Core}
    (hsame : SameBut (ptrs ++ scratch) m.core c) (hptrs : ∀ r ∈ ptrs, c.get r = m.core.get r + 4) :
    Moved ptrs scratch dst a m₀ vs n
      ⟨c.setPc a, storeWords m.mem (m.core.get dst) [vs[vs.length - (n + 1)]]⟩ where
  left := hn.le
  pc := rfl
  pointers r hr := by
    have hcount : vs.length - n = vs.length - (n + 1) + 1 := by omega
    change c.get r = _
    rw [hptrs r hr, h.pointers r hr, hcount, Nat.mul_succ, ← Words.add_ofNat_add]
    rfl
  same := (h.same.trans hsame).setPc a
  mem := by
    have hcount : vs.length - n = vs.length - (n + 1) + 1 := by omega
    have htake : (vs.take (vs.length - (n + 1))).length = vs.length - (n + 1) :=
      List.length_take_of_le (Nat.sub_le _ _)
    have hfit : 4 * ((vs.take (vs.length - (n + 1))).length + [vs[vs.length - (n + 1)]].length) ≤
        2 ^ 32 := by
      rw [htake, List.length_singleton]
      omega
    have hlast := storeWords_append m₀.mem (m₀.core.get dst) hfit
    rw [htake] at hlast
    change storeWords m.mem (m.core.get dst) _ = _
    rw [h.mem, h.pointers dst hdst, hlast, hcount, List.take_succ_eq_append_getElem]

end Moved

theorem executes_loop {code : Code} {a : Word} {is : List Instr} (hlies : Lies code a is)
    (hstraight : ∀ i ∈ is.dropLast, i.straight) {m : Machine} (hpc : m.core.pc = a) :
    Reaches (step code) m (runCode is m) :=
  (hlies.executes hstraight hpc).reaches

/-- The words `vs` lie at `src` and fit at `dst`, where they may be laid
over words that have been read before. -/
structure Copyable (src dst : Reg) (vs : List Word) (m : Machine) : Prop where
  roles : src = .r1 ∧ dst = .r0 ∨ src = .r0 ∧ dst = .r1
  length : vs.length = wordsTo (m.core.get .r1) (m.core.get .r2)
  low : (m.core.get .r1).toNat < 2 ^ 31
  limit : (m.core.get .r2).toNat + 3 < 2 ^ 31
  srcAligned : (m.core.get src).toNat % 4 = 0
  dstAligned : (m.core.get dst).toNat % 4 = 0
  srcFits : (m.core.get src).toNat + 4 * vs.length ≤ 2 ^ 32
  dstFits : (m.core.get dst).toNat + 4 * vs.length ≤ 2 ^ 32
  holds : Holds m.mem (m.core.get src) vs
  apart : (m.core.get dst).toNat ≤ (m.core.get src).toNat ∨
    (m.core.get src).toNat + 4 * vs.length ≤ (m.core.get dst).toNat

section Copy

variable {code : Code} {src dst : Reg} {a : Word} {vs : List Word} {m₀ m : Machine} {n : ℕ}

theorem Copyable.distinct (h : Copyable src dst vs m₀) :
    src ≠ .r3 ∧ dst ≠ .r3 ∧ src ≠ dst ∧ .r1 ∈ [src, dst] ∧ .r2 ∉ [src, dst] ++ [.r3] := by
  rcases h.roles with ⟨rfl, rfl⟩ | ⟨rfl, rfl⟩
  · decide
  · decide

/-- At each pass `r1` is below the limit as long as there are words left. -/
theorem Copyable.below_iff (h : Copyable src dst vs m₀)
    (hm : Moved [src, dst] [.r3] dst a m₀ vs n m) :
    (m.core.get .r1).toInt < (m.core.get .r2).toInt ↔ vs.length - n < vs.length := by
  obtain ⟨-, -, -, hr1, hr2⟩ := h.distinct
  have hle : vs.length - n ≤ wordsTo (m₀.core.get .r1) (m₀.core.get .r2) := by
    rw [← h.length]
    exact Nat.sub_le _ _
  rw [hm.pointers .r1 hr1, hm.same.get hr2, advanced_lt_iff h.low h.limit hle, ← h.length]

/-- The next word to be read is one that was there at the start. -/
theorem Copyable.unread (h : Copyable src dst vs m₀)
    (hm : Moved [src, dst] [.r3] dst a m₀ vs (n + 1) m) (hk : vs.length - (n + 1) < vs.length) :
    wordAt m.mem (m.core.get src) = vs[vs.length - (n + 1)] := by
  have hsrcFits := h.srcFits
  have hdstFits := h.dstFits
  have hapart := h.apart
  have hword := h.holds _ hk
  rw [hm.pointers src List.mem_cons_self, ← hword, hm.mem]
  apply wordAt_congr
  intro j hj
  have haddr : (m₀.core.get src + BitVec.ofNat 32 (4 * (vs.length - (n + 1))) +
      BitVec.ofNat 32 j).toNat = (m₀.core.get src).toNat + (4 * (vs.length - (n + 1)) + j) := by
    rw [Words.add_ofNat_add]
    exact Memory.add_ofNat_toNat (by omega)
  have htake : (vs.take (vs.length - (n + 1))).length = vs.length - (n + 1) :=
    List.length_take_of_le (Nat.sub_le _ _)
  apply storeWords_outside
  · rw [htake]
    omega
  · rw [htake, haddr]
    omega

theorem advanced_aligned {p : Word} (hp : p.toNat % 4 = 0) {k : ℕ} (hk : p.toNat + 4 * k < 2 ^ 32) :
    align (p + BitVec.ofNat 32 (4 * k)) = p + BitVec.ofNat 32 (4 * k) := by
  apply Arm.align_eq
  rw [Memory.add_ofNat_toNat hk]
  omega

theorem Copyable.pass (h : Copyable src dst vs m₀) (hlies : Lies code a (copyLoop src dst a))
    (n : ℕ) :
    Machine.Leads (step code) (Moved [src, dst] [.r3] dst a m₀ vs (n + 1))
      (Moved [src, dst] [.r3] dst a m₀ vs n) := by
  intro m hm
  have hn : n < vs.length := hm.left
  have hk : vs.length - (n + 1) < vs.length := by omega
  obtain ⟨hs3, hd3, hne, -, -⟩ := h.distinct
  have hsrc : align (m.core.get src) = m.core.get src := by
    have hfits := h.srcFits
    rw [hm.pointers src List.mem_cons_self]
    exact advanced_aligned h.srcAligned (by omega)
  have hdst : align (m.core.get dst) = m.core.get dst := by
    have hfits := h.dstFits
    rw [hm.pointers dst (List.mem_cons_of_mem _ List.mem_cons_self)]
    exact advanced_aligned h.dstAligned (by omega)
  obtain ⟨c, hsame, hrun, hcsrc, hcdst⟩ :=
    copyLoop_below (a := a) hs3 hd3 hne ((h.below_iff hm).mpr hk)
  rw [hsrc, hdst, h.unread hm hk] at hrun
  have hreach := executes_loop hlies (by simp [copyLoop, Instr.straight]) hm.pc
  rw [hrun] at hreach
  refine ⟨_, hreach, hm.next hn (List.mem_cons_of_mem _ List.mem_cons_self) ?_ hsame ?_⟩
  · have hfits := h.dstFits
    omega
  · simp [hcsrc, hcdst]

/-- The loop copies all the words up to the limit, and changes nothing else
but its own registers. -/
theorem Copyable.copies (h : Copyable src dst vs m₀) (hlies : Lies code a (copyLoop src dst a))
    (hpc : m₀.core.pc = a) :
    ∃ t, Reaches (step code) m₀ t ∧ t.core.pc = a + 16 ∧
      SameBut [src, dst, .r3] m₀.core t.core ∧
      t.mem = storeWords m₀.mem (m₀.core.get dst) vs := by
  obtain ⟨t, hreach, ht⟩ :=
    Machine.Leads.countdown (h.pass hlies) vs.length m₀ (Moved.start hpc)
  have hge : ¬ (t.core.get .r1).toInt < (t.core.get .r2).toInt := by
    rw [h.below_iff ht, Nat.sub_zero]
    exact lt_irrefl _
  have hlast := executes_loop hlies (by simp [copyLoop, Instr.straight]) ht.pc
  rw [copyLoop_done (not_lt.mp hge), ht.pc] at hlast
  refine ⟨_, hreach.trans hlast, rfl, (ht.same.compare _ _).setPc _, ?_⟩
  rw [ht.mem, Nat.sub_zero, List.take_length]

end Copy

/-- `r1` is at the first of `n` words that are to be filled. -/
structure Fillable (n : ℕ) (m : Machine) : Prop where
  length : n = wordsTo (m.core.get .r1) (m.core.get .r2)
  low : (m.core.get .r1).toNat < 2 ^ 31
  limit : (m.core.get .r2).toNat + 3 < 2 ^ 31
  aligned : (m.core.get .r1).toNat % 4 = 0

section Fill

variable {code : Code} {a : Word} {m₀ m : Machine} {n k : ℕ}

theorem Fillable.fits (h : Fillable n m) : (m.core.get .r1).toNat + 4 * n ≤ 2 ^ 31 := by
  have hlow := h.low
  have hlimit := h.limit
  have hlength := h.length
  rw [wordsTo] at hlength
  omega

theorem Fillable.below_iff (h : Fillable n m₀) {v : Word}
    (hm : Moved [.r1] [] .r1 a m₀ (.replicate n v) k m) :
    (m.core.get .r1).toInt < (m.core.get .r2).toInt ↔ n - k < n := by
  have hle : n - k ≤ wordsTo (m₀.core.get .r1) (m₀.core.get .r2) := by
    rw [← h.length]
    exact Nat.sub_le _ _
  rw [hm.pointers .r1 List.mem_cons_self, hm.same.get (by decide), List.length_replicate,
    advanced_lt_iff h.low h.limit hle, ← h.length]

theorem Fillable.pass (h : Fillable n m₀) (hlies : Lies code a (fillLoop a)) (k : ℕ) :
    Machine.Leads (step code) (Moved [.r1] [] .r1 a m₀ (.replicate n (m₀.core.get .r3)) (k + 1))
      (Moved [.r1] [] .r1 a m₀ (.replicate n (m₀.core.get .r3)) k) := by
  intro m hm
  have hlength : k < (List.replicate n (m₀.core.get .r3)).length := hm.left
  have hk : k < n := by rwa [List.length_replicate] at hlength
  have hfits := h.fits
  have hdst : align (m.core.get .r1) = m.core.get .r1 := by
    rw [hm.pointers .r1 List.mem_cons_self, List.length_replicate]
    exact advanced_aligned h.aligned (by omega)
  have hvalue : m.core.get .r3 = m₀.core.get .r3 := hm.same.get (by decide)
  obtain ⟨c, hsame, hrun, hnext⟩ := fillLoop_below (a := a) ((h.below_iff hm).mpr (by omega))
  rw [hdst, hvalue] at hrun
  have hreach := executes_loop hlies (by simp [fillLoop, Instr.straight]) hm.pc
  rw [hrun] at hreach
  have hnext' := hm.next hlength List.mem_cons_self (by rw [List.length_replicate]; omega) hsame
    (by simp [hnext])
  rw [List.getElem_replicate] at hnext'
  exact ⟨_, hreach, hnext'⟩

theorem Fillable.fills (h : Fillable n m₀) (hlies : Lies code a (fillLoop a))
    (hpc : m₀.core.pc = a) :
    ∃ t, Reaches (step code) m₀ t ∧ t.core.pc = a + 12 ∧ SameBut [.r1] m₀.core t.core ∧
      t.mem = storeWords m₀.mem (m₀.core.get .r1) (.replicate n (m₀.core.get .r3)) := by
  have hstart : Moved [.r1] [] .r1 a m₀ (.replicate n (m₀.core.get .r3))
      (List.replicate n (m₀.core.get .r3)).length m₀ := Moved.start hpc
  rw [List.length_replicate] at hstart
  obtain ⟨t, hreach, ht⟩ := Machine.Leads.countdown (h.pass hlies) n m₀ hstart
  have hge : ¬ (t.core.get .r1).toInt < (t.core.get .r2).toInt := by
    rw [h.below_iff ht, Nat.sub_zero]
    exact lt_irrefl _
  have hlast := executes_loop hlies (by simp [fillLoop, Instr.straight]) ht.pc
  rw [fillLoop_done (not_lt.mp hge), ht.pc] at hlast
  refine ⟨_, hreach.trans hlast, rfl, (ht.same.compare _ _).setPc _, ?_⟩
  rw [ht.mem, Nat.sub_zero, List.take_length]

end Fill

end Processor
