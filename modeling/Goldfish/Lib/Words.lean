import Mathlib.Data.BitVec
import Mathlib.Data.Nat.GCD.Basic

/-!
# Numbers seen through machine words

A counter that only grows is a natural number; a register shows it modulo
a power of two. Differences of two register values are differences of the
counts as long as they are taken modulo the same power.
-/

namespace Words

variable {w : ℕ}

theorem ofNat_sub_of_le {a b : ℕ} (h : a ≤ b) :
    BitVec.ofNat w b - BitVec.ofNat w a = BitVec.ofNat w (b - a) := by
  simp only [← BitVec.natCast_eq_ofNat]
  exact (Nat.cast_sub h).symm

theorem ofNat_add (a b : ℕ) :
    BitVec.ofNat w (a + b) = BitVec.ofNat w a + BitVec.ofNat w b := by
  simp only [← BitVec.natCast_eq_ofNat, Nat.cast_add]

theorem add_ofNat_add (p : BitVec w) (a b : ℕ) :
    p + BitVec.ofNat w a + BitVec.ofNat w b = p + BitVec.ofNat w (a + b) := by
  rw [ofNat_add, add_assoc]

theorem sub_eq_ofNat {x y : BitVec w} (h : y ≤ x) : x - y = BitVec.ofNat w (x.toNat - y.toNat) := by
  rw [← BitVec.toNat_sub_of_le h, BitVec.ofNat_toNat, BitVec.setWidth_eq]

theorem ofNat_div {a b : ℕ} (ha : a < 2 ^ w) (hb : b < 2 ^ w) :
    BitVec.ofNat w a / BitVec.ofNat w b = BitVec.ofNat w (a / b) := by
  apply BitVec.eq_of_toNat_eq
  rw [BitVec.toNat_udiv, BitVec.toNat_ofNat, BitVec.toNat_ofNat, BitVec.toNat_ofNat,
    Nat.mod_eq_of_lt ha, Nat.mod_eq_of_lt hb, Nat.mod_eq_of_lt ((Nat.div_le_self a b).trans_lt ha)]

theorem ofNat_eq_iff {a b : ℕ} :
    BitVec.ofNat w a = BitVec.ofNat w b ↔ a % 2 ^ w = b % 2 ^ w := by
  rw [← BitVec.toNat_inj, BitVec.toNat_ofNat, BitVec.toNat_ofNat]

theorem ofNat_inj {a b : ℕ} (ha : a < 2 ^ w) (hb : b < 2 ^ w) :
    BitVec.ofNat w a = BitVec.ofNat w b ↔ a = b := by
  rw [ofNat_eq_iff, Nat.mod_eq_of_lt ha, Nat.mod_eq_of_lt hb]

theorem toInt_ofNat {a : ℕ} (h : 2 * a < 2 ^ w) : (BitVec.ofNat w a).toInt = a := by
  have hnat : (BitVec.ofNat w a).toNat = a := by
    rw [BitVec.toNat_ofNat, Nat.mod_eq_of_lt (by omega)]
  rw [BitVec.toInt_eq_toNat_of_lt (by rw [hnat]; exact h), hnat]

theorem ofNat_le_ofNat_iff {a b : ℕ} :
    BitVec.ofNat w a ≤ BitVec.ofNat w b ↔ a % 2 ^ w ≤ b % 2 ^ w := by
  rw [BitVec.le_def, BitVec.toNat_ofNat, BitVec.toNat_ofNat]

/-! ## Numbers in two words -/

theorem append_words (v w a : ℕ) :
    BitVec.ofNat v (a / 2 ^ w) ++ BitVec.ofNat w a = BitVec.ofNat (v + w) a := by
  apply BitVec.eq_of_toNat_eq
  rw [BitVec.toNat_append, BitVec.toNat_ofNat, BitVec.toNat_ofNat, BitVec.toNat_ofNat,
    ← Nat.shiftLeft_add_eq_or_of_lt (Nat.mod_lt _ (Nat.two_pow_pos w)), Nat.shiftLeft_eq,
    Nat.add_comm v w, Nat.pow_add, Nat.mod_mul, Nat.mul_comm (2 ^ w), Nat.add_comm]

theorem add_lt_left_iff {x y : BitVec w} : x + y < x ↔ 2 ^ w ≤ x.toNat + y.toNat := by
  have hx := x.isLt
  have hy := y.isLt
  rw [BitVec.lt_def, BitVec.toNat_add]
  rcases Nat.lt_or_ge (x.toNat + y.toNat) (2 ^ w) with hlt | hge
  · rw [Nat.mod_eq_of_lt hlt]
    omega
  · rw [Nat.mod_eq_sub_mod hge, Nat.mod_eq_of_lt (by omega)]
    omega

/-- Addition in two words: the low sum has wrapped when it is below a
summand, and then the high sum gets one more. -/
theorem add_words {v : ℕ} (a b : ℕ) :
    (if BitVec.ofNat w a + BitVec.ofNat w b < BitVec.ofNat w a then
      (BitVec.ofNat v (a / 2 ^ w) + BitVec.ofNat v (b / 2 ^ w) + 1,
        BitVec.ofNat w a + BitVec.ofNat w b)
    else (BitVec.ofNat v (a / 2 ^ w) + BitVec.ofNat v (b / 2 ^ w),
        BitVec.ofNat w a + BitVec.ofNat w b)) =
      (BitVec.ofNat v ((a + b) / 2 ^ w), BitVec.ofNat w (a + b)) := by
  have hcarry := Nat.add_div (a := a) (b := b) (Nat.two_pow_pos w)
  have hone : (1 : BitVec v) = BitVec.ofNat v 1 := rfl
  simp only [add_lt_left_iff, BitVec.toNat_ofNat]
  rw [← ofNat_add, ← ofNat_add, hcarry]
  by_cases h : 2 ^ w ≤ a % 2 ^ w + b % 2 ^ w
  · rw [if_pos h, if_pos h, hone, ← ofNat_add]
  · rw [if_neg h, if_neg h, Nat.add_zero]

/-! ## Exact operations -/

def addExact (x y : BitVec w) : Option (BitVec w) :=
  if x.toNat + y.toNat < 2 ^ w then some (x + y) else none

def subExact (x y : BitVec w) : Option (BitVec w) := if y ≤ x then some (x - y) else none

def mulExact (x y : BitVec w) : Option (BitVec w) :=
  if x.toNat * y.toNat < 2 ^ w then some (x * y) else none

def shiftExact (x : BitVec w) (k : ℕ) : Option (BitVec w) :=
  if x.toNat * 2 ^ k < 2 ^ w then some (x <<< k) else none

section Exact

variable {x y : BitVec w}

theorem addExact_of_lt (h : x.toNat + y.toNat < 2 ^ w) : addExact x y = some (x + y) := if_pos h

theorem eq_add_of_addExact {z : BitVec w} (h : addExact x y = some z) :
    z = x + y ∧ x.toNat + y.toNat < 2 ^ w := by
  obtain ⟨hlt, heq⟩ := Option.ite_none_right_eq_some.mp h
  exact ⟨(Option.some.inj heq).symm, hlt⟩

theorem subExact_of_le (h : y ≤ x) : subExact x y = some (x - y) := if_pos h

theorem mulExact_of_lt (h : x.toNat * y.toNat < 2 ^ w) : mulExact x y = some (x * y) := if_pos h

theorem shiftExact_of_lt {k : ℕ} (h : x.toNat * 2 ^ k < 2 ^ w) :
    shiftExact x k = some (x <<< k) := if_pos h

end Exact

/-! ## Readings of a counter -/

/-- The sign of a wrapped difference compares counts of fewer than half a period. -/
theorem sub_toInt_nonneg_iff {a b : ℕ} (ha : a < 2 ^ w) (hb : b < 2 ^ w) :
    0 ≤ (BitVec.ofNat (w + 1) a - BitVec.ofNat (w + 1) b).toInt ↔ b ≤ a := by
  have hpow : 2 ^ (w + 1) = 2 ^ w * 2 := pow_succ 2 w
  rw [BitVec.toInt_pos_iff, BitVec.toNat_sub, BitVec.toNat_ofNat, BitVec.toNat_ofNat,
    Nat.mod_eq_of_lt (a := a) (by omega), Nat.mod_eq_of_lt (a := b) (by omega)]
  rcases Nat.lt_or_ge a b with hlt | hge
  · rw [Nat.mod_eq_of_lt (by omega)]
    omega
  · rw [Nat.mod_eq_sub_mod (by omega), Nat.mod_eq_of_lt (by omega)]
    omega

/-- Some instant of an interval shows the word of `v`, for a counter that
advances once every `q` units of time: either the counter reaches `v` in
the interval, or it had the value one period below. -/
theorem exists_instant_iff {q a b v : ℕ} (hq : 0 < q) (hab : a ≤ b) (ha : a / q ≤ v)
    (hb : v < b / q + 2 ^ w) :
    (∃ t, a ≤ t ∧ t ≤ b ∧ BitVec.ofNat w v = BitVec.ofNat w (t / q)) ↔
      v ≤ b / q ∨ a / q + 2 ^ w ≤ v := by
  have hreach : ∀ n, a / q ≤ n → n ≤ b / q → ∃ t, a ≤ t ∧ t ≤ b ∧ t / q = n := by
    intro n han hnb
    rcases han.eq_or_lt with rfl | hlt
    · exact ⟨a, le_refl a, hab, rfl⟩
    · refine ⟨n * q, ?_, ?_, Nat.mul_div_cancel n hq⟩
      · exact (Nat.lt_of_div_lt_div (by rwa [Nat.mul_div_cancel n hq])).le
      · exact (Nat.le_div_iff_mul_le hq).mp hnb
  constructor
  · rintro ⟨t, hat, htb, hv⟩
    have hmod := ofNat_eq_iff.mp hv
    have hta : a / q ≤ t / q := Nat.div_le_div_right hat
    have htb' : t / q ≤ b / q := Nat.div_le_div_right htb
    by_cases hle : v ≤ b / q
    · exact Or.inl hle
    · right
      have hdvd : 2 ^ w ∣ v - t / q := (Nat.modEq_iff_dvd' (by omega)).mp hmod.symm
      have hpos := Nat.le_of_dvd (by omega) hdvd
      omega
  · rintro (hle | hge)
    · obtain ⟨t, hat, htb, ht⟩ := hreach v ha hle
      exact ⟨t, hat, htb, by rw [ht]⟩
    · have hle : 2 ^ w ≤ v := (Nat.le_add_left _ _).trans hge
      obtain ⟨t, hat, htb, ht⟩ := hreach (v - 2 ^ w) (Nat.le_sub_of_add_le hge)
        (Nat.sub_le_of_le_add hb.le)
      refine ⟨t, hat, htb, ?_⟩
      rw [ht, ofNat_eq_iff]
      exact Nat.mod_eq_sub_mod hle

/-! ## Wrapped products -/

theorem mul_mod_period (a n : ℕ) {m : ℕ} : a * n % m = a % (m / n.gcd m) * n % m := by
  have hdvd : m ∣ m / n.gcd m * n := by
    have hn := Nat.div_mul_cancel (Nat.gcd_dvd_left n m)
    have hm := Nat.div_mul_cancel (Nat.gcd_dvd_right n m)
    refine ⟨n / n.gcd m, ?_⟩
    calc
      m / n.gcd m * n = m / n.gcd m * (n / n.gcd m * n.gcd m) := by rw [hn]
      _ = m / n.gcd m * n.gcd m * (n / n.gcd m) := by ac_rfl
      _ = m * (n / n.gcd m) := by rw [hm]
  conv_lhs => rw [← Nat.div_add_mod a (m / n.gcd m), Nat.add_mul]
  have hmul : m ∣ m / n.gcd m * (a / (m / n.gcd m)) * n := by
    rw [Nat.mul_right_comm]
    exact Dvd.dvd.mul_right hdvd _
  rw [Nat.add_mod, Nat.mod_eq_zero_of_dvd hmul, Nat.zero_add, Nat.mod_mod]

/-- A wrapped product is still a multiple of a factor exactly if, up to the
period of its multiples, it has not wrapped. -/
theorem dvd_mul_mod_iff (a : ℕ) {n m : ℕ} (hn : 0 < n) (hm : 0 < m) :
    n ∣ a * n % m ↔ a % (m / n.gcd m) * n < m := by
  have hgcd : 0 < n.gcd m := Nat.gcd_pos_of_pos_left m hn
  have hperiod : 0 < m / n.gcd m := Nat.div_pos (Nat.gcd_le_right n hm) hgcd
  have hmod := Nat.mod_lt a hperiod
  rw [mul_mod_period]
  constructor
  · rintro ⟨j, hj⟩
    have hle : j * n ≤ a % (m / n.gcd m) * n := by
      rw [Nat.mul_comm, ← hj]
      exact Nat.mod_le _ _
    have hjk : j ≤ a % (m / n.gcd m) := Nat.le_of_mul_le_mul_right hle hn
    have hdvd : m ∣ (a % (m / n.gcd m) - j) * n := by
      rw [Nat.sub_mul, Nat.mul_comm j, ← hj]
      exact Nat.dvd_sub_mod _
    have hdvd' : m / n.gcd m ∣ a % (m / n.gcd m) - j := by
      refine (Nat.Coprime.dvd_of_dvd_mul_right (n := n / n.gcd m) ?_ ?_)
      · exact (Nat.coprime_div_gcd_div_gcd hgcd).symm
      · apply Nat.dvd_of_mul_dvd_mul_right hgcd
        rw [Nat.div_mul_cancel (Nat.gcd_dvd_right n m), Nat.mul_assoc,
          Nat.div_mul_cancel (Nat.gcd_dvd_left n m)]
        exact hdvd
    have hzero := Nat.eq_zero_of_dvd_of_lt hdvd' (by omega)
    have heq : a % (m / n.gcd m) = j := by omega
    rw [heq, Nat.mul_comm, ← hj]
    exact Nat.mod_lt _ hm
  · intro hlt
    rw [Nat.mod_eq_of_lt hlt]
    exact Nat.dvd_mul_left _ _

end Words
