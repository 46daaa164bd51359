import Goldfish.Irq.MainLoop
import Goldfish.Lib.Words
import Mathlib.Tactic.Ring

/-!
# The timeout of c07e3

`t` arms the timer with `timeout` and adds one to it, `x` multiplies it by
ten and `r` sets it to zero. `timeout` is an `int`. In a stretch of keys
without `r`, each `t` is worth ten to the number of the `x` behind it; what
the keys of the stretch are worth together is the `timeout` they leave.
-/

namespace Goldfish.Irq.Timeout

open TimerFlag (Program keyT keyX keyR)
open MainLoop (irqTty2)

/-- What the handler passes to `goldfish_set_timer`. -/
def setTimerArg (c : U32) (p : Program) : Option U32 :=
  if c = keyT then some p.timeout else none

def typed (p : Program) (keys : List U32) : Program := keys.foldl (fun p c => irqTty2 c p) p

/-! ## The commands on unbounded numbers -/

def command (n : ℕ) (c : U32) : ℕ :=
  if c = keyT then n + 1 else if c = keyX then n * 10 else if c = keyR then 0 else n

def commands (n : ℕ) (keys : List U32) : ℕ := keys.foldl command n

/-- The signed sum and the signed product of a key fit in an `int`. -/
def Fits (c : U32) (timeout : ℤ) : Prop :=
  (c = keyT → timeout + 1 < 2 ^ 31) ∧ (c = keyX → 0 < timeout → timeout * 10 < 2 ^ 31)

/-- A key is handled in a program whose timeout should be `n`. -/
structure Handled (p : Program) (n : ℕ) (c : U32) : Prop where
  fits : Fits c p.timeout.toInt
  nonneg : 0 ≤ (irqTty2 c p).timeout.toInt
  grows : c ≠ keyR → p.timeout.toInt ≤ (irqTty2 c p).timeout.toInt
  delay : ∀ d ∈ setTimerArg c p, d.toNat = n

def Exact (p : Program) (keys : List U32) : Prop :=
  ∀ pre c post, keys = pre ++ c :: post → Handled (typed p pre) (commands 0 pre) c

/-! ## Stretches without a reset -/

def worth : List U32 → ℕ
  | [] => 0
  | c :: keys => (if c = keyT then 10 ^ keys.count keyX else 0) + worth keys

theorem commands_cons (n : ℕ) (c : U32) (keys : List U32) :
    commands n (c :: keys) = commands (command n c) keys := List.foldl_cons ..

theorem commands_append (n : ℕ) (keys more : List U32) :
    commands n (keys ++ more) = commands (commands n keys) more := List.foldl_append

theorem commands_eq {keys : List U32} (h : keyR ∉ keys) (n : ℕ) :
    commands n keys = n * 10 ^ keys.count keyX + worth keys := by
  induction keys generalizing n with
  | nil => exact (Nat.mul_one n).symm
  | cons c keys ih =>
      obtain ⟨hc, hkeys⟩ := List.ne_and_not_mem_of_not_mem_cons h
      rw [commands_cons, ih hkeys, worth, command]
      by_cases ht : c = keyT
      · have hx : ¬ c = keyX := by
          rw [ht]
          decide
        rw [if_pos ht, if_pos ht, List.count_cons_of_ne hx]
        ring
      · rw [if_neg ht, if_neg ht, if_neg hc.symm]
        by_cases hx : c = keyX
        · rw [if_pos hx, hx, List.count_cons_self, pow_succ]
          ring
        · rw [if_neg hx, List.count_cons_of_ne hx, Nat.zero_add]

/-- Only the keys since the last reset count. -/
theorem exists_stretch (keys : List U32) : ∃ before mid, keys = before ++ mid ∧ keyR ∉ mid ∧
    commands 0 keys = worth mid := by
  induction keys using List.reverseRecOn with
  | nil => exact ⟨[], [], rfl, List.not_mem_nil, rfl⟩
  | append_singleton keys c ih =>
      obtain ⟨before, mid, hkeys, hmid, hworth⟩ := ih
      rw [commands_append]
      by_cases hr : c = keyR
      · subst hr
        exact ⟨keys ++ [keyR], [], (List.append_nil _).symm, List.not_mem_nil, rfl⟩
      · have hnot : keyR ∉ mid ++ [c] := by
          rw [List.mem_append, List.mem_singleton]
          exact not_or.mpr ⟨hmid, fun heq => hr heq.symm⟩
        refine ⟨before, mid ++ [c], by rw [hkeys, List.append_assoc], hnot, ?_⟩
        have hall := commands_eq hnot 0
        have hfirst := commands_eq hmid 0
        rw [Nat.zero_mul, Nat.zero_add] at hall hfirst
        rw [← hall, commands_append, hfirst, hworth]

theorem worth_le {before mid : List U32} (h : keyR ∉ mid) :
    worth mid ≤ commands 0 (before ++ mid) := by
  rw [commands_append, commands_eq h]
  exact Nat.le_add_left _ _

/-! ## The handler -/

theorem irqTty2_timeout (c : U32) (p : Program) : (irqTty2 c p).timeout =
    if c = keyT then p.timeout + 1
    else if c = keyX then (if 0 < p.timeout.toInt then p.timeout * 10 else p.timeout)
    else if c = keyR then 0 else p.timeout := by
  by_cases ht : c = keyT
  · subst ht
    rfl
  · by_cases hx : c = keyX
    · subst hx
      by_cases hpos : 0 < p.timeout.toInt
      · simp [irqTty2, hpos, keyT, keyX, keyR]
      · simp [irqTty2, hpos, keyT, keyX, keyR]
    · by_cases hr : c = keyR
      · subst hr
        simp [irqTty2, keyT, keyX, keyR]
      · simp [irqTty2, ht, hx, hr]

theorem timeout_command {p : Program} {n : ℕ} (c : U32) (hp : p.timeout = BitVec.ofNat 32 n)
    (hn : n < 2 ^ 31) : (irqTty2 c p).timeout = BitVec.ofNat 32 (command n c) := by
  rw [irqTty2_timeout, command, hp]
  by_cases ht : c = keyT
  · rw [if_pos ht, if_pos ht, Words.ofNat_add]
    rfl
  · rw [if_neg ht, if_neg ht, Words.toInt_ofNat (by omega)]
    by_cases hx : c = keyX
    · rw [if_pos hx, if_pos hx]
      by_cases hpos : (0 : ℤ) < n
      · rw [if_pos hpos, BitVec.ofNat_mul]
        rfl
      · have hzero : n = 0 := by omega
        rw [if_neg hpos, hzero]
    · rw [if_neg hx, if_neg hx]
      split <;> rfl

theorem fits_iff {c : U32} {n : ℕ} : Fits c n ↔ (c = keyT ∨ c = keyX → command n c < 2 ^ 31) := by
  have hne : keyX ≠ keyT := by decide
  constructor
  · rintro ⟨hsum, hproduct⟩ (rfl | rfl)
    · have hlt := hsum rfl
      rw [command, if_pos rfl]
      omega
    · rw [command, if_neg hne, if_pos rfl]
      rcases Nat.eq_zero_or_pos n with rfl | hpos
      · decide
      · have hlt := hproduct rfl (by omega)
        omega
  · intro hlt
    constructor
    · rintro rfl
      have hsum := hlt (Or.inl rfl)
      rw [command, if_pos rfl] at hsum
      omega
    · rintro rfl -
      have hproduct := hlt (Or.inr rfl)
      rw [command, if_neg hne, if_pos rfl] at hproduct
      omega

theorem command_le {c : U32} {n m : ℕ} (hn : n < m) (hpos : 0 < m)
    (h : c = keyT ∨ c = keyX → command n c < m) : command n c < m := by
  by_cases hkey : c = keyT ∨ c = keyX
  · exact h hkey
  · obtain ⟨ht, hx⟩ := not_or.mp hkey
    rw [command, if_neg ht, if_neg hx]
    split
    · exact hpos
    · exact hn

theorem le_command {c : U32} (n : ℕ) (hr : c ≠ keyR) : n ≤ command n c := by
  rw [command, if_neg hr]
  split
  · exact Nat.le_succ n
  · split <;> omega

/-- One key, in a program that has not gone wrong. -/
theorem handled_iff {p : Program} {n : ℕ} {c : U32} (hp : p.timeout = BitVec.ofNat 32 n)
    (hn : n < 2 ^ 31) : Handled p n c ↔ command n c < 2 ^ 31 := by
  have hint : p.timeout.toInt = n := by rw [hp, Words.toInt_ofNat (by omega)]
  constructor
  · intro hhandled
    have hfits := hhandled.fits
    rw [hint, fits_iff] at hfits
    exact command_le hn (by decide) hfits
  · intro hlt
    have hafter : (BitVec.ofNat 32 (command n c)).toInt = command n c :=
      Words.toInt_ofNat (by omega)
    rw [← timeout_command c hp hn] at hafter
    constructor
    · rw [hint, fits_iff]
      exact fun _ => hlt
    · rw [hafter]
      exact Int.natCast_nonneg _
    · intro hr
      rw [hint, hafter]
      exact Int.ofNat_le.mpr (le_command n hr)
    · intro d hd
      obtain ⟨-, hsome⟩ := Option.ite_none_right_eq_some.mp hd
      rw [← Option.some.inj hsome, hp, BitVec.toNat_ofNat, Nat.mod_eq_of_lt (by omega)]

theorem typed_append (p : Program) (keys more : List U32) :
    typed p (keys ++ more) = typed (typed p keys) more := List.foldl_append

theorem typed_timeout {p : Program} (hp : p.timeout = 0) {keys : List U32}
    (h : ∀ pre, pre <+: keys → commands 0 pre < 2 ^ 31) :
    (typed p keys).timeout = BitVec.ofNat 32 (commands 0 keys) := by
  induction keys using List.reverseRecOn with
  | nil => exact hp
  | append_singleton keys c ih =>
      have hbefore := ih fun pre hpre => h pre (hpre.trans (List.prefix_append _ _))
      have hlt := h keys (List.prefix_append _ _)
      rw [typed_append, commands_append]
      exact timeout_command c hbefore hlt

theorem tracks_of_exact {p : Program} (hp : p.timeout = 0) {keys : List U32} (h : Exact p keys)
    {pre : List U32} (hpre : pre <+: keys) :
    commands 0 pre < 2 ^ 31 ∧ (typed p pre).timeout = BitVec.ofNat 32 (commands 0 pre) := by
  induction pre using List.reverseRecOn with
  | nil => exact ⟨by decide, hp⟩
  | append_singleton pre c ih =>
      obtain ⟨post, hkeys⟩ := hpre
      rw [List.append_assoc] at hkeys
      obtain ⟨hlt, hbefore⟩ := ih ⟨_, hkeys⟩
      have hhandled := h pre c post hkeys.symm
      rw [commands_append, typed_append]
      exact ⟨(handled_iff hbefore hlt).mp hhandled, timeout_command c hbefore hlt⟩

/-- Every delay is the one the keys ask for, and `timeout` never overflows,
exactly if no stretch of the keys without a reset is worth `2 ^ 31`. -/
theorem exact_iff (p : Program) (keys : List U32) : Exact { p with timeout := 0 } keys ↔
    ∀ mid, mid <:+: keys → keyR ∉ mid → worth mid < 2 ^ 31 := by
  constructor
  · rintro hexact mid ⟨before, after, hkeys⟩ hmid
    have hpre : before ++ mid <+: keys := ⟨after, hkeys⟩
    exact (worth_le hmid).trans_lt (tracks_of_exact rfl hexact hpre).1
  · intro hworth
    have hlt : ∀ pre, pre <+: keys → commands 0 pre < 2 ^ 31 := by
      rintro pre ⟨post, hkeys⟩
      obtain ⟨before, mid, hpre, hmid, heq⟩ := exists_stretch pre
      rw [heq]
      exact hworth mid ⟨before, post, by rw [← hpre, hkeys]⟩ hmid
    intro pre c post hkeys
    have hpre : pre <+: keys := ⟨c :: post, hkeys.symm⟩
    have hnext : pre ++ [c] <+: keys := ⟨post, by rw [hkeys, List.append_assoc]; rfl⟩
    have hbefore := typed_timeout (p := { p with timeout := 0 }) rfl
      fun q hq => hlt q (hq.trans hpre)
    have hafter := hlt _ hnext
    rw [commands_append] at hafter
    exact (handled_iff hbefore (hlt pre hpre)).mpr hafter

def untouched : Program := ⟨0, 0, 0, false, false⟩

/-- One `t` and ten `x` ask for more than an `int` holds. -/
theorem not_exact_ten_times : ¬ ∀ (p : Program) (keys : List U32),
    Exact { p with timeout := 0 } keys := by
  intro h
  have hexact := h untouched (keyT :: List.replicate 10 keyX)
  have hlt := (tracks_of_exact rfl hexact (List.prefix_refl _)).1
  exact absurd hlt (by decide)

end Goldfish.Irq.Timeout
