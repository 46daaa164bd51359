import Goldfish.Lib.Words
import Goldfish.Nand.Div64

/-!
# Division without overflow

The division once more, with every sum, difference, product and shift
checked to be the exact one: a result that does not fit ends the division
without an answer. It never does.
-/

namespace Goldfish.Nand

open Words

def doubleLoopChecked (rem b d : U64) : Option (U64 × U64) :=
  if b.toInt > 0 ∧ b < rem then
    match _hb : addExact b b with
    | none => none
    | some b' => (addExact d d).bind fun d' => doubleLoopChecked rem b' d'
  else some (b, d)
termination_by 2 ^ 64 - b.toNat
decreasing_by
  rename_i h
  obtain ⟨rfl, hlt⟩ := eq_add_of_addExact _hb
  have hpos := h.1
  rw [BitVec.toInt_eq_toNat_cond] at hpos
  rw [BitVec.toNat_add]
  split at hpos <;> omega

def subtractLoopChecked (rem b res d : U64) : Option (U64 × U64) :=
  (if rem ≥ b then
      (subExact rem b).bind fun rem => (addExact res d).map fun res => (rem, res)
    else some (rem, res)).bind fun (rem, res) =>
      if d >>> 1 = 0 then some (res, rem)
      else subtractLoopChecked rem (b >>> 1) res (d >>> 1)
termination_by d.toNat
decreasing_by
  rename_i h
  rw [BitVec.toNat_ushiftRight, Nat.shiftRight_eq_div_pow]
  have hne : (d >>> 1).toNat ≠ 0 := fun h0 => h (BitVec.eq_of_toNat_eq h0)
  rw [BitVec.toNat_ushiftRight, Nat.shiftRight_eq_div_pow] at hne
  omega

/-- The remainder and the partial quotient after the high word is reduced. -/
def reduceChecked (n : U64) (base : U32) : Option (U64 × U64) :=
  let high := (n >>> 32).setWidth 32
  if high ≥ base then
    (mulExact (high / base) base).bind fun product =>
      (shiftExact ((high / base).setWidth 64) 32).bind fun res =>
        (shiftExact (product.setWidth 64) 32).bind fun part =>
          (subExact n part).map fun rem => (res, rem)
  else some (0, n)

def div64_32Checked (n : U64) (base : U32) : Option (U32 × U64) :=
  if base = 0 then none
  else
    (reduceChecked n base).bind fun (res, rem) =>
      (doubleLoopChecked rem (base.setWidth 64) 1).bind fun (b, d) =>
        (subtractLoopChecked rem b res d).map fun (res, rem) => (rem.setWidth 32, res)

def doDivChecked (n : U64) (base : U32) : Option (U32 × U64) :=
  if base = 0 then none
  else if n >>> 32 = 0 then
    some (n.setWidth 32 % base, (n.setWidth 32 / base).setWidth 64)
  else div64_32Checked n base

/-- `do_div` of a `loff_t`, whose shift keeps the sign. -/
def doDivSigned (n : U64) (base : U32) : Option (U32 × U64) :=
  if base = 0 then none
  else if n.sshiftRight 32 = 0 then
    some (n.setWidth 32 % base, (n.setWidth 32 / base).setWidth 64)
  else div64_32 n base

/-! ## No step overflows -/

theorem doubleLoopChecked_pos {rem b d : U64} (h : b.toInt > 0 ∧ b < rem)
    (hlt : b.toNat + b.toNat < 2 ^ 64) :
    doubleLoopChecked rem b d = (addExact d d).bind fun d' => doubleLoopChecked rem (b + b) d' := by
  rw [doubleLoopChecked, if_pos h]
  split
  · rename_i hnone
    rw [addExact_of_lt hlt] at hnone
    cases hnone
  · rename_i b' hsome
    obtain ⟨rfl, -⟩ := eq_add_of_addExact hsome
    rfl

theorem doubleLoopChecked_eq {base : ℕ} (hbase : 0 < base) {k : ℕ} (rem : U64) {b d : U64}
    (hd : d.toNat = 2 ^ k) (hb : b.toNat = base * 2 ^ k) :
    doubleLoopChecked rem b d = some (doubleLoop rem b d) := by
  induction b, d using doubleLoop.induct rem generalizing k with
  | case1 b d h ih =>
      have hlt := double_lt h.1
      have hle := factor_le hbase hd hb
      have hd' : d.toNat = 1 * 2 ^ k := by rw [hd, Nat.one_mul]
      have hd2 := double_toNat (by omega) hd'
      rw [Nat.one_mul] at hd2
      rw [doubleLoopChecked_pos h hlt, addExact_of_lt (by omega), Option.bind_some, doubleLoop,
        if_pos h]
      exact ih hd2 (double_toNat hlt hb)
  | case2 b d h => rw [doubleLoopChecked, if_neg h, doubleLoop, if_neg h]

theorem subtractChecked_round {base n k : ℕ} (hbase : 0 < base) (hn : n < 2 ^ 64)
    {rem b res d : U64} (h : Scaled base k rem b d) (hsum : base * res.toNat + rem.toNat = n) :
    (if rem ≥ b then
        (subExact rem b).bind fun rem => (addExact res d).map fun res => (rem, res)
      else some (rem, res)) = some (if rem ≥ b then (rem - b, res + d) else (rem, res)) := by
  by_cases hge : rem ≥ b
  · rw [if_pos hge, if_pos hge, subExact_of_le hge, Option.bind_some,
      addExact_of_lt (quotient_fits hbase hn h hsum hge), Option.map_some]
  · rw [if_neg hge, if_neg hge]

theorem subtractLoopChecked_eq {base n : ℕ} (hbase : 0 < base) (hn : n < 2 ^ 64) {k : ℕ}
    {rem b res d : U64} (h : Scaled base k rem b d) (hsum : base * res.toNat + rem.toNat = n) :
    subtractLoopChecked rem b res d = some (subtractLoop rem b res d) := by
  induction k generalizing rem b res d with
  | zero =>
      have hd := factor_shift_zero h
      rw [subtractLoopChecked, subtractChecked_round hbase hn h hsum, Option.bind_some,
        subtractLoop]
      simp only [hd, if_true]
  | succ k ih =>
      obtain ⟨rem', res', hround, hsum', hlt⟩ := subtract_round hbase hn h hsum
      have hne := factor_shift_succ h
      rw [subtractLoopChecked, subtractChecked_round hbase hn h hsum, Option.bind_some,
        subtractLoop, hround]
      simp only [hne, if_false]
      exact ih (h.halve hlt) hsum'

theorem reduceChecked_eq (n : U64) (base : U32) :
    reduceChecked n base = some (if (n >>> 32).setWidth 32 ≥ base then
        (((n >>> 32).setWidth 32 / base).setWidth 64 <<< 32,
          n - ((n >>> 32).setWidth 32 / base * base).setWidth 64 <<< 32)
      else (0, n)) := by
  have hshift : ∀ x : U32, shiftExact (x.setWidth 64) 32 = some (x.setWidth 64 <<< 32) := by
    intro x
    apply shiftExact_of_lt
    have hx := x.isLt
    rw [BitVec.toNat_setWidth_of_le (by decide)]
    omega
  have hproduct : mulExact ((n >>> 32).setWidth 32 / base) base =
      some ((n >>> 32).setWidth 32 / base * base) := by
    apply mulExact_of_lt
    rw [BitVec.toNat_udiv]
    exact (Nat.div_mul_le_self _ _).trans_lt ((n >>> 32).setWidth 32).isLt
  unfold reduceChecked
  by_cases hge : (n >>> 32).setWidth 32 ≥ base
  · rw [if_pos hge, if_pos hge, hproduct, Option.bind_some, hshift, Option.bind_some, hshift,
      Option.bind_some, subExact_of_le (part_le n base), Option.map_some]
  · rw [if_neg hge, if_neg hge]

theorem div64_32Checked_eq (n : U64) {base : U32} (hbase : base ≠ 0) :
    div64_32Checked n base = div64_32 n base := by
  obtain ⟨rem, res, hreduce, hsum⟩ := reduce_spec n base
  have hpos : 0 < base.toNat := Nat.pos_of_ne_zero fun h0 => hbase (BitVec.eq_of_toNat_eq h0)
  have hwide : (base.setWidth 64).toNat = base.toNat * 2 ^ 0 := by
    rw [BitVec.toNat_setWidth_of_le (by decide), pow_zero, Nat.mul_one]
  have hdouble := doubleLoopChecked_eq (d := 1) hpos rem rfl hwide
  obtain ⟨k, hscaled⟩ := doubleLoop_spec (d := 1) hpos rem rfl hwide
  have hsubtract := subtractLoopChecked_eq hpos n.isLt hscaled hsum
  rw [div64_32Checked, if_neg hbase, reduceChecked_eq, hreduce, div64_32, if_neg hbase]
  simp only [Option.bind_some, hdouble, hsubtract, Option.map_some, hreduce]

theorem doDivChecked_eq (n : U64) (base : U32) : doDivChecked n base = doDiv n base := by
  by_cases hbase : base = 0
  · rw [doDivChecked, if_pos hbase, doDiv, if_pos hbase]
  · rw [doDivChecked, div64_32Checked_eq n hbase, doDiv]

/-! ## Signed dividends -/

theorem sshiftRight_eq_zero_iff (n : U64) : n.sshiftRight 32 = 0 ↔ n >>> 32 = 0 := by
  have hn := n.isLt
  rw [← BitVec.toInt_inj, ← BitVec.toNat_inj, BitVec.toInt_sshiftRight, BitVec.toNat_ushiftRight,
    Int.shiftRight_eq_div_pow, Nat.shiftRight_eq_div_pow, BitVec.toInt_eq_toNat_cond]
  have hzero : (0 : U64).toInt = 0 := rfl
  have hzero' : (0 : U64).toNat = 0 := rfl
  rw [hzero, hzero']
  split <;> omega

theorem doDivSigned_eq (n : U64) (base : U32) : doDivSigned n base = doDiv n base := by
  unfold doDivSigned doDiv
  simp only [sshiftRight_eq_zero_iff]

/-! ## Both paths -/

/-- On their whole domains both paths leave the quotient and return the
remainder, and no operation on the way needs more than its word. -/
theorem doDiv_exact (n : U64) (base : U32) (hbase : 1 ≤ base.toNat) :
    ∃ (rem : U32) (res : U64), rem.toNat = n.toNat % base.toNat ∧
      res.toNat = n.toNat / base.toNat ∧
      doDiv n base = some (rem, res) ∧ doDivSigned n base = some (rem, res) ∧
      div64_32 n base = some (rem, res) ∧
      doDivChecked n base = some (rem, res) ∧ div64_32Checked n base = some (rem, res) := by
  have hne : base ≠ 0 := by
    rintro rfl
    exact absurd hbase (by decide)
  have hn := n.isLt
  have hdiv := doDiv_spec n hne
  have hslow := div64_32_spec n hne
  refine ⟨_, _, ?_, ?_, hdiv, ?_, hslow, ?_, ?_⟩
  · rw [BitVec.toNat_ofNat, Nat.mod_eq_of_lt]
    exact (Nat.mod_lt _ hbase).trans base.isLt
  · rw [BitVec.toNat_ofNat, Nat.mod_eq_of_lt]
    exact (Nat.div_le_self _ _).trans_lt hn
  · rw [doDivSigned_eq, hdiv]
  · rw [doDivChecked_eq, hdiv]
  · rw [div64_32Checked_eq n hne, hslow]

theorem doDiv_exact_largest : ∃ (rem : U32) (res : U64),
    rem.toNat = (-1 : U64).toNat % (-1 : U32).toNat ∧
      res.toNat = (-1 : U64).toNat / (-1 : U32).toNat ∧
      doDiv (-1) (-1) = some (rem, res) ∧ doDivSigned (-1) (-1) = some (rem, res) ∧
      div64_32 (-1) (-1) = some (rem, res) ∧
      doDivChecked (-1) (-1) = some (rem, res) ∧ div64_32Checked (-1) (-1) = some (rem, res) :=
  doDiv_exact (-1) (-1) (by decide)

end Goldfish.Nand
