import Goldfish.Lib.Arm
import Goldfish.Lib.Words

/-!
# The subroutine of c04e1 and c04e2

`sum` adds the bytes from `r0` up to `r1`. It loads a byte before it looks
whether the end is reached, and it looks for equality only, so that from
`r0 = r1` the loop goes once around the whole address space.
-/

namespace Goldfish.Startup.Sum

open Arm
open Machine (Leads)

inductive Label where
  | sum | loop
  deriving DecidableEq

/-- The linker gives `data2` a word boundary. -/
abbrev WordAddress := {a : Word // a.toNat % 4 = 0}

def sum (data2 : WordAddress) : Program Label :=
  [(.sum, [.mov .r3 (.imm 0)]),
    (.loop,
      [.ldrb .r2 .r0 1, .add .r3 .r2 (.reg .r3), .cmp .r0 (.reg .r1), .b .ne .loop,
        .ldrLit .r0 data2, .str .r3 .r0, .ret])]

abbrev Config := Control Label × State

def call (data2 : WordAddress) (s : State) : Config := (.code ((sum data2).codeFrom .sum), s)

/-! ## What the subroutine is for -/

def addresses (p : Word) (n : ℕ) : List Word := (List.range n).map fun i => p + BitVec.ofNat 32 i

def total (m : Memory) (p : Word) (n : ℕ) : ℕ := ((Memory.load m p n).map BitVec.toNat).sum

/-- The length of the array between `r0` and `r1`. -/
def arrayLength (s : State) : ℕ := (s.get .r1).toNat - (s.get .r0).toNat

/-- The `n` bytes from `r0` on are added up, from the call in `s` to `c`. -/
structure Added (data2 : WordAddress) (s : State) (n : ℕ) (c : Config) : Prop where
  returned : c.1 = .left (s.get .lr)
  reads : c.2.reads = s.reads ++ addresses (s.get .r0) n
  result : c.2.get .r3 = BitVec.ofNat 32 (total s.mem (s.get .r0) n)
  word : wordAt c.2.mem data2 = BitVec.ofNat 32 (total s.mem (s.get .r0) n)
  other : ∀ a : Word, a.toNat ∉ Set.Ico data2.1.toNat (data2.1.toNat + 4) → c.2.mem a = s.mem a

def Sums (data2 : WordAddress) (s : State) : Prop :=
  ∃ c, StateTransition.eval (sum data2).step (call data2 s) = Part.some c ∧
    Added data2 s (arrayLength s) c

/-! ## The loop -/

/-- The bytes the loop reads: the array, or all of memory when it is empty. -/
def loopLength (s : State) : ℕ := (s.get .r1 - s.get .r0 - 1).toNat + 1

@[simp] theorem addresses_length (p : Word) (n : ℕ) : (addresses p n).length = n := by
  rw [addresses, List.length_map, List.length_range]

theorem addresses_succ (p : Word) (n : ℕ) :
    addresses p (n + 1) = addresses p n ++ [p + BitVec.ofNat 32 n] := by
  rw [addresses, List.range_succ, List.map_append]
  rfl

theorem total_succ (m : Memory) (p : Word) (n : ℕ) :
    total m p (n + 1) = total m p n + (m (p + BitVec.ofNat 32 n)).toNat := by
  rw [total, Memory.load_succ, List.map_append, List.sum_append]
  rfl

theorem loopLength_le (s : State) : loopLength s ≤ 2 ^ 32 := by
  have hlt := (s.get .r1 - s.get .r0 - 1).isLt
  rw [loopLength]
  omega

theorem add_loopLength (s : State) : s.get .r0 + BitVec.ofNat 32 (loopLength s) = s.get .r1 := by
  have hcount : BitVec.ofNat 32 (loopLength s) = s.get .r1 - s.get .r0 := by
    rw [loopLength, Words.ofNat_add, BitVec.ofNat_toNat, BitVec.setWidth_eq]
    exact sub_add_cancel _ _
  rw [hcount, add_sub_cancel]

/-- `r0` meets `r1` after the last byte and not before. -/
theorem address_eq_end_iff {s : State} {n : ℕ} (hn : n < loopLength s) :
    s.get .r0 + BitVec.ofNat 32 (loopLength s - n) = s.get .r1 ↔ n = 0 := by
  have hle := loopLength_le s
  rw [← add_loopLength s, add_right_inj, Words.ofNat_eq_iff]
  constructor
  · intro heq
    omega
  · rintro rfl
    rfl

theorem loopLength_of_lt {s : State} (h : s.get .r0 < s.get .r1) :
    loopLength s = arrayLength s := by
  have hlt := BitVec.lt_def.mp h
  have hne : s.get .r1 - s.get .r0 ≠ 0 := by
    intro heq
    rw [sub_eq_zero.mp heq] at hlt
    exact lt_irrefl _ hlt
  rw [loopLength, Memory.toNat_sub_one_add_one hne, Memory.sub_toNat_of_le hlt.le]
  rfl

theorem loopLength_of_eq {s : State} (h : s.get .r0 = s.get .r1) : loopLength s = 2 ^ 32 := by
  rw [loopLength, h, sub_self]
  rfl

/-- `n` bytes are left to add. -/
structure Adding (data2 : WordAddress) (s : State) (n : ℕ) (c : Config) : Prop where
  le : n ≤ loopLength s
  code : c.1 = .code (if n = 0 then [.ldrLit .r0 data2, .str .r3 .r0, .ret]
    else (sum data2).codeFrom .loop)
  source : c.2.get .r0 = s.get .r0 + BitVec.ofNat 32 (loopLength s - n)
  stop : c.2.get .r1 = s.get .r1
  result : c.2.get .r3 = BitVec.ofNat 32 (total s.mem (s.get .r0) (loopLength s - n))
  back : c.2.get .lr = s.get .lr
  mem : c.2.mem = s.mem
  reads : c.2.reads = s.reads ++ addresses (s.get .r0) (loopLength s - n)

variable (data2 : WordAddress) (s : State)

theorem adding_start :
    Leads (sum data2).step (· = call data2 s) (Adding data2 s (loopLength s)) := by
  rintro _ rfl
  refine ⟨_, reaches_straight (sum data2) [.mov .r3 (.imm 0)] rfl
    ((sum data2).codeFrom .loop) s, ?_⟩
  constructor
  case le => exact le_rfl
  case code => rw [if_neg (show loopLength s ≠ 0 from Nat.succ_ne_zero _)]
  case source => simp [Instr.exec]
  case stop => simp [Instr.exec]
  case result => simp [Instr.exec, Operand.value, total, Memory.load]
  case back => simp [Instr.exec]
  case mem => simp [Instr.exec]
  case reads => simp [Instr.exec, addresses]

theorem adding_round (n : ℕ) :
    Leads (sum data2).step (Adding data2 s (n + 1)) (Adding data2 s n) := by
  rintro ⟨_, t⟩ ⟨hle, rfl, hsource, hstop, hresult, hback, hmem, hreads⟩
  dsimp only at hmem hreads
  have hdone : loopLength s - n = loopLength s - (n + 1) + 1 := by omega
  have haddress : s.get .r0 + BitVec.ofNat 32 (loopLength s - (n + 1)) + 1#32 =
      s.get .r0 + BitVec.ofNat 32 (loopLength s - n) := by
    rw [Words.add_ofNat_add, hdone]
  refine ⟨_, reaches_branch (sum data2) [.ldrb .r2 .r0 1, .add .r3 .r2 (.reg .r3),
    .cmp .r0 (.reg .r1)] rfl .ne .loop [.ldrLit .r0 data2, .str .r3 .r0, .ret] t, ?_⟩
  constructor
  case le => exact Nat.le_of_succ_le hle
  case code =>
    rw [← ite_not]
    simp [Instr.exec, Operand.value, Cond.ne_holds_iff, hsource, hstop, haddress,
      address_eq_end_iff hle]
  case source => simp [Instr.exec, hsource, haddress]
  case stop => simp [Instr.exec, hstop]
  case result =>
    rw [hdone, total_succ, Words.ofNat_add]
    simp [Instr.exec, Operand.value, hsource, hresult, hmem, add_comm]
  case back => simp [Instr.exec, hback]
  case mem => simp [Instr.exec, hmem]
  case reads =>
    rw [hdone, addresses_succ]
    simp [Instr.exec, hsource, hreads]

theorem adding_stop : Leads (sum data2).step (Adding data2 s 0) (Added data2 s (loopLength s)) := by
  rintro ⟨_, t⟩ ⟨_, rfl, _, _, hresult, hback, hmem, hreads⟩
  dsimp only at hmem hreads
  rw [Nat.sub_zero] at hresult hreads
  have halign := align_eq data2.2
  refine ⟨_, reaches_ret (sum data2) [.ldrLit .r0 data2, .str .r3 .r0] rfl [] t, ?_⟩
  constructor
  case returned => simp [Instr.exec, hback]
  case reads => simp [Instr.exec, hreads]
  case result => simp [Instr.exec, hresult]
  case word => simp [Instr.exec, halign, wordAt_store, hresult]
  case other =>
    intro a ha
    have hmod := data2.2
    have hlt := data2.1.isLt
    have hfit : data2.1.toNat + 4 ≤ 2 ^ 32 := by omega
    have hstore := Memory.store_of_notMem s.mem (bytes_length (t.get .r3)).le hfit ha
    simpa [Instr.exec, halign, hmem] using hstore

theorem sum_returns : ∃ c, StateTransition.eval (sum data2).step (call data2 s) = Part.some c ∧
    Added data2 s (loopLength s) c := by
  have hrun := (adding_start data2 s).trans
    ((Leads.countdown (adding_round data2 s) (loopLength s)).trans (adding_stop data2 s))
  apply hrun.exists_eval _ rfl
  rintro ⟨_, t⟩ ⟨rfl, _, _, _, _⟩
  rfl

/-! ## Which arrays are added up -/

variable {data2 s}

theorem sums_of_lt (h : s.get .r0 < s.get .r1) : Sums data2 s := by
  obtain ⟨c, heval, hadded⟩ := sum_returns data2 s
  rw [loopLength_of_lt h] at hadded
  exact ⟨c, heval, hadded⟩

/-- An empty array is not found empty: every byte of memory is loaded. -/
theorem not_sums_of_eq (h : s.get .r0 = s.get .r1) : ¬ Sums data2 s := by
  rintro ⟨c, heval, hadded⟩
  obtain ⟨d, heval', hall⟩ := sum_returns data2 s
  obtain rfl : c = d := Part.some_inj.mp (heval.symm.trans heval')
  have hempty : arrayLength s = 0 := by rw [arrayLength, h, Nat.sub_self]
  have hreads := hadded.reads.symm.trans hall.reads
  rw [hempty, loopLength_of_eq h, List.append_cancel_left_eq] at hreads
  have hlength := congrArg List.length hreads
  rw [addresses_length, addresses_length] at hlength
  omega

/-- The subroutine adds up the array between `r0` and `r1` unless it is empty. -/
theorem sums_iff (data2 : WordAddress) (s : State) (h : s.get .r0 ≤ s.get .r1) :
    Sums data2 s ↔ s.get .r0 ≠ s.get .r1 := by
  constructor
  · intro hsums heq
    exact not_sums_of_eq heq hsums
  · intro hne
    apply sums_of_lt
    rw [BitVec.lt_def]
    exact lt_of_le_of_ne (BitVec.le_def.mp h) fun heq => hne (BitVec.eq_of_toNat_eq heq)

/-- A call with the array of c04e1 behind the first branch, up to `last`. -/
def callState (last : Word) : State where
  regs r _ := if r = .r0 then 0x10004 else if r = .r1 then last else 0
  control := 0xd3
  flags := ⟨false, false, false⟩
  mem := Memory.store (fun _ => 0) 0x10004 [2, 4, 8, 16, 32]
  reads := []

theorem sums_arr : Sums ⟨0x30004, by decide⟩ (callState 0x10009) :=
  (sums_iff ⟨0x30004, by decide⟩ (callState 0x10009) (by decide)).mpr (by decide)

theorem not_sums_empty : (callState 0x10004).get .r0 ≤ (callState 0x10004).get .r1 ∧
    ¬ Sums ⟨0x30004, by decide⟩ (callState 0x10004) :=
  ⟨by decide, not_sums_of_eq rfl⟩

end Goldfish.Startup.Sum
