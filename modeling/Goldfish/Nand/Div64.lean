import Goldfish.Word

/-!
# 64-bit division

`do_div` of `div64.h` and the shift-and-subtract loop `__div64_32` of c08e1
behind it. Dividing by zero is undefined.
-/

namespace Goldfish.Nand

/-- `while ((int64_t)b > 0 && b < rem) { b = b+b; d = d+d; }` -/
def doubleLoop (rem b d : U64) : U64 × U64 :=
  if b.toInt > 0 ∧ b < rem then doubleLoop rem (b + b) (d + d) else (b, d)
termination_by 2 ^ 64 - b.toNat
decreasing_by
  rename_i h
  have hpos := h.1
  rw [BitVec.toInt_eq_toNat_cond] at hpos
  rw [BitVec.toNat_add]
  split at hpos <;> omega

/-- The `do` loop: the quotient and the remainder it leaves. -/
def subtractLoop (rem b res d : U64) : U64 × U64 :=
  let (rem', res') := if rem ≥ b then (rem - b, res + d) else (rem, res)
  if d >>> 1 = 0 then (res', rem') else subtractLoop rem' (b >>> 1) res' (d >>> 1)
termination_by d.toNat
decreasing_by
  rename_i h
  rw [BitVec.toNat_ushiftRight, Nat.shiftRight_eq_div_pow]
  have hne : (d >>> 1).toNat ≠ 0 := fun h0 => h (BitVec.eq_of_toNat_eq h0)
  rw [BitVec.toNat_ushiftRight, Nat.shiftRight_eq_div_pow] at hne
  omega

def div64_32 (n : U64) (base : U32) : Option (U32 × U64) :=
  if base = 0 then none
  else
    let high := (n >>> 32).setWidth 32
    -- reduce the thing a bit first
    let (res, rem) :=
      if high ≥ base then
        ((high / base).setWidth 64 <<< 32, n - (high / base * base).setWidth 64 <<< 32)
      else (0, n)
    let (b, d) := doubleLoop rem (base.setWidth 64) 1
    let (res, rem) := subtractLoop rem b res d
    some (rem.setWidth 32, res)

def doDiv (n : U64) (base : U32) : Option (U32 × U64) :=
  if base = 0 then none
  else if n >>> 32 = 0 then
    some (n.setWidth 32 % base, (n.setWidth 32 / base).setWidth 64)
  else div64_32 n base

/-! ## The loops -/

/-- The doubled divisor `b` is `base` times the power of two `d`, and
the remainder is below twice of it. -/
structure Scaled (base k : ℕ) (rem b d : U64) : Prop where
  d_eq : d.toNat = 2 ^ k
  b_eq : b.toNat = base * 2 ^ k
  rem_lt : rem.toNat < 2 * b.toNat

theorem double_lt {b : U64} (hpos : b.toInt > 0) : b.toNat + b.toNat < 2 ^ 64 := by
  rw [BitVec.toInt_eq_toNat_cond] at hpos
  split at hpos <;> omega

theorem factor_le {base k : ℕ} (hbase : 0 < base) {b d : U64} (hd : d.toNat = 2 ^ k)
    (hb : b.toNat = base * 2 ^ k) : d.toNat ≤ b.toNat := by
  rw [hd, hb]
  exact Nat.le_mul_of_pos_left _ hbase

theorem double_toNat {c k : ℕ} {b : U64} (hlt : b.toNat + b.toNat < 2 ^ 64)
    (hb : b.toNat = c * 2 ^ k) : (b + b).toNat = c * 2 ^ (k + 1) := by
  rw [BitVec.toNat_add_of_lt hlt, hb, pow_succ, Nat.mul_two, Nat.mul_add]

theorem doubleLoop_spec {base : ℕ} (hbase : 0 < base) {k : ℕ} (rem : U64) {b d : U64}
    (hd : d.toNat = 2 ^ k) (hb : b.toNat = base * 2 ^ k) :
    ∃ k', Scaled base k' rem (doubleLoop rem b d).1 (doubleLoop rem b d).2 := by
  induction b, d using doubleLoop.induct rem generalizing k with
  | case1 b d h ih =>
      have hlt := double_lt h.1
      have hle := factor_le hbase hd hb
      have hb2 := double_toNat hlt hb
      have hd2 : (d + d).toNat = 2 ^ (k + 1) := by
        rw [BitVec.toNat_add_of_lt (by omega), hd, pow_succ, Nat.mul_two]
      rw [doubleLoop, if_pos h]
      exact ih hd2 hb2
  | case2 b d h =>
      rw [doubleLoop, if_neg h]
      have hrem := rem.isLt
      have hbpos : 0 < b.toNat := hb ▸ Nat.mul_pos hbase (Nat.two_pow_pos k)
      have hlt : rem.toNat < 2 * b.toNat := by
        by_contra hge
        refine h ⟨?_, ?_⟩
        · rw [BitVec.toInt_eq_toNat_cond, if_pos (by omega)]
          omega
        · rw [BitVec.lt_def]
          omega
      exact ⟨k, hd, hb, hlt⟩

theorem toNat_shiftRight_one (x : U64) : (x >>> 1).toNat = x.toNat / 2 := by
  rw [BitVec.toNat_ushiftRight, Nat.shiftRight_eq_div_pow]

theorem quotient_fits {base n k : ℕ} (hbase : 0 < base) (hn : n < 2 ^ 64) {rem b res d : U64}
    (h : Scaled base k rem b d) (hsum : base * res.toNat + rem.toNat = n) (hge : rem ≥ b) :
    res.toNat + d.toNat < 2 ^ 64 := by
  have hle : b.toNat ≤ rem.toNat := hge
  have hmul := Nat.le_mul_of_pos_left (res.toNat + d.toNat) hbase
  have hb : base * d.toNat = b.toNat := by rw [h.d_eq, h.b_eq]
  rw [Nat.mul_add, hb] at hmul
  omega

theorem subtract_round {base n k : ℕ} (hbase : 0 < base) (hn : n < 2 ^ 64) {rem b res d : U64}
    (h : Scaled base k rem b d) (hsum : base * res.toNat + rem.toNat = n) :
    ∃ rem' res', (if rem ≥ b then (rem - b, res + d) else (rem, res)) = (rem', res') ∧
      base * res'.toNat + rem'.toNat = n ∧ rem'.toNat < b.toNat := by
  have hlt := h.rem_lt
  by_cases hge : rem ≥ b
  · have hle : b.toNat ≤ rem.toNat := hge
    have hnew : base * (res.toNat + d.toNat) + (rem.toNat - b.toNat) = n := by
      rw [Nat.mul_add, h.d_eq, ← h.b_eq]
      omega
    have hfit := quotient_fits hbase hn h hsum hge
    refine ⟨rem - b, res + d, if_pos hge, ?_, ?_⟩
    · rw [BitVec.toNat_add_of_lt hfit, BitVec.toNat_sub_of_le hge, hnew]
    · rw [BitVec.toNat_sub_of_le hge]
      omega
  · exact ⟨rem, res, if_neg hge, hsum, not_le.mp hge⟩

theorem factor_shift_zero {base : ℕ} {rem b d : U64} (h : Scaled base 0 rem b d) :
    d >>> 1 = 0 := by
  apply BitVec.eq_of_toNat_eq
  rw [toNat_shiftRight_one, h.d_eq]
  rfl

theorem factor_shift_succ {base k : ℕ} {rem b d : U64} (h : Scaled base (k + 1) rem b d) :
    d >>> 1 ≠ 0 := by
  intro h0
  have hd := toNat_shiftRight_one d
  rw [h0, h.d_eq, pow_succ, Nat.mul_div_cancel _ (by decide)] at hd
  exact absurd hd (Nat.two_pow_pos k).ne

/-- After a round the divisor and its factor are halved. -/
theorem Scaled.halve {base k : ℕ} {rem rem' b d : U64} (h : Scaled base (k + 1) rem b d)
    (hlt : rem'.toNat < b.toNat) : Scaled base k rem' (b >>> 1) (d >>> 1) := by
  have hb : (b >>> 1).toNat = base * 2 ^ k := by
    rw [toNat_shiftRight_one, h.b_eq, pow_succ, ← Nat.mul_assoc, Nat.mul_div_cancel _ (by decide)]
  rw [h.b_eq, pow_succ, ← Nat.mul_assoc, ← hb, Nat.mul_comm] at hlt
  refine ⟨?_, hb, hlt⟩
  rw [toNat_shiftRight_one, h.d_eq, pow_succ, Nat.mul_div_cancel _ (by decide)]

theorem subtractLoop_spec {base n : ℕ} (hbase : 0 < base) (hn : n < 2 ^ 64) {k : ℕ}
    {rem b res d : U64} (h : Scaled base k rem b d) (hsum : base * res.toNat + rem.toNat = n) :
    base * (subtractLoop rem b res d).1.toNat + (subtractLoop rem b res d).2.toNat = n ∧
      (subtractLoop rem b res d).2.toNat < base := by
  induction k generalizing rem b res d with
  | zero =>
      obtain ⟨rem', res', hround, hsum', hlt⟩ := subtract_round hbase hn h hsum
      have hd := factor_shift_zero h
      rw [h.b_eq, pow_zero, Nat.mul_one] at hlt
      rw [subtractLoop, hround]
      simp only [hd, if_true]
      exact ⟨hsum', hlt⟩
  | succ k ih =>
      obtain ⟨rem', res', hround, hsum', hlt⟩ := subtract_round hbase hn h hsum
      have hne := factor_shift_succ h
      rw [subtractLoop, hround]
      simp only [hne, if_false]
      exact ih (h.halve hlt) hsum'

/-! ## The quotient and the remainder -/

theorem high_toNat (n : U64) : ((n >>> 32).setWidth 32).toNat = n.toNat / 2 ^ 32 := by
  have hn := n.isLt
  rw [BitVec.toNat_setWidth, BitVec.toNat_ushiftRight, Nat.shiftRight_eq_div_pow,
    Nat.mod_eq_of_lt (by omega)]

theorem product_toNat (high base : U32) :
    (high / base * base).toNat = high.toNat / base.toNat * base.toNat := by
  have hmul : high.toNat / base.toNat * base.toNat ≤ high.toNat := Nat.div_mul_le_self _ _
  rw [BitVec.toNat_mul, BitVec.toNat_udiv, Nat.mod_eq_of_lt (hmul.trans_lt high.isLt)]

theorem shifted_toNat (x : U32) : (x.setWidth 64 <<< 32).toNat = x.toNat * 2 ^ 32 := by
  have hx := x.isLt
  rw [BitVec.toNat_shiftLeft, BitVec.toNat_setWidth_of_le (by decide), Nat.shiftLeft_eq,
    Nat.mod_eq_of_lt (by omega)]

/-- The multiple of the divisor that is taken away first. -/
theorem part_le (n : U64) (base : U32) :
    ((n >>> 32).setWidth 32 / base * base).setWidth 64 <<< 32 ≤ n := by
  rw [BitVec.le_def, shifted_toNat, product_toNat, high_toNat]
  calc
    _ ≤ n.toNat / 2 ^ 32 * 2 ^ 32 := Nat.mul_le_mul_right _ (Nat.div_mul_le_self _ _)
    _ ≤ _ := Nat.div_mul_le_self _ _

theorem reduce_spec (n : U64) (base : U32) :
    ∃ rem res, (if (n >>> 32).setWidth 32 ≥ base then
        (((n >>> 32).setWidth 32 / base).setWidth 64 <<< 32,
          n - ((n >>> 32).setWidth 32 / base * base).setWidth 64 <<< 32)
      else (0, n)) = (res, rem) ∧ base.toNat * res.toNat + rem.toNat = n.toNat := by
  by_cases hge : (n >>> 32).setWidth 32 ≥ base
  · refine ⟨_, _, if_pos hge, ?_⟩
    have hle : (((n >>> 32).setWidth 32 / base * base).setWidth 64 <<< 32).toNat ≤ n.toNat :=
      part_le n base
    rw [shifted_toNat, product_toNat] at hle
    rw [BitVec.toNat_sub_of_le (part_le n base), shifted_toNat, shifted_toNat, product_toNat,
      BitVec.toNat_udiv, ← Nat.mul_assoc, Nat.mul_comm base.toNat, Nat.add_sub_of_le hle]
  · exact ⟨n, 0, if_neg hge, by simp⟩

theorem div64_32_spec (n : U64) {base : U32} (hbase : base ≠ 0) :
    div64_32 n base = some (BitVec.ofNat 32 (n.toNat % base.toNat),
      BitVec.ofNat 64 (n.toNat / base.toNat)) := by
  obtain ⟨rem, res, hreduce, hsum⟩ := reduce_spec n base
  have hpos : 0 < base.toNat := Nat.pos_of_ne_zero fun h0 => hbase (BitVec.eq_of_toNat_eq h0)
  have hwide : (base.setWidth 64).toNat = base.toNat * 2 ^ 0 := by
    rw [BitVec.toNat_setWidth_of_le (by decide), pow_zero, Nat.mul_one]
  obtain ⟨k, hscaled⟩ := doubleLoop_spec (d := 1) hpos rem rfl hwide
  obtain ⟨htotal, hlt⟩ := subtractLoop_spec hpos n.isLt hscaled hsum
  have hdiv : n.toNat / base.toNat = _ ∧ n.toNat % base.toNat = _ :=
    (Nat.div_mod_unique hpos).mpr ⟨(Nat.add_comm _ _).trans htotal, hlt⟩
  rw [div64_32, if_neg hbase]
  simp only [hreduce, Option.some.injEq, Prod.mk.injEq]
  constructor
  · rw [hdiv.2, BitVec.ofNat_toNat]
  · rw [hdiv.1, BitVec.ofNat_toNat, BitVec.setWidth_eq]

/-- `do_div` is what its comment says. -/
theorem doDiv_spec (n : U64) {base : U32} (hbase : base ≠ 0) :
    doDiv n base = some (BitVec.ofNat 32 (n.toNat % base.toNat),
      BitVec.ofNat 64 (n.toNat / base.toNat)) := by
  rw [doDiv, if_neg hbase]
  by_cases hsmall : n >>> 32 = 0
  · have hlow : n.toNat < 2 ^ 32 := by
      have h0 := congrArg BitVec.toNat hsmall
      rw [BitVec.toNat_ushiftRight, Nat.shiftRight_eq_div_pow] at h0
      exact (Nat.div_eq_zero_iff_lt (Nat.two_pow_pos 32)).mp h0
    have hword : (n.setWidth 32).toNat = n.toNat := by
      rw [BitVec.toNat_setWidth, Nat.mod_eq_of_lt hlow]
    rw [if_pos hsmall]
    refine congrArg some (Prod.ext (BitVec.eq_of_toNat_eq ?_) (BitVec.eq_of_toNat_eq ?_))
    · have hmod := Nat.mod_le n.toNat base.toNat
      rw [BitVec.toNat_umod, hword, BitVec.toNat_ofNat, Nat.mod_eq_of_lt (b := 2 ^ 32) (by omega)]
    · have hdiv := Nat.div_le_self n.toNat base.toNat
      rw [BitVec.toNat_setWidth, BitVec.toNat_udiv, hword, BitVec.toNat_ofNat]
  · rw [if_neg hsmall]
    exact div64_32_spec n hbase

end Goldfish.Nand
