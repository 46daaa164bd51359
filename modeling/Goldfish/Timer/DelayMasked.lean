import Goldfish.Timer.Delay

/-!
# Delays without a deadline on the stamp

`udelay_masked` waits like `__udelay`, but it compares its end with the stamp
by the sign of their difference. Stamp and end may both wrap in the wait; the
sign is right as long as no poll moves the stamp by half a period.
-/

namespace Goldfish.Timer

namespace Clock

/-- `do { now = get_timer_masked (); diff = endtime - now; } while (diff >= 0);` -/
def udelayMaskedLoop (endtime : U32) (c : Clock) : List ℕ → Option (List ℕ × Clock)
  | [] => none
  | t :: ts =>
      let (now, c) := (c.setTime t).getTimerMasked
      let diff := endtime - now
      if diff.toInt ≥ 0 then (udelayMaskedLoop endtime c ts).map fun (made, c) => (t :: made, c)
      else some ([t], c)

/-- The delay with its first reading at `first`, and the polls offered to its loop. -/
def udelayMasked (usec : U32) (first : ℕ) (polls : List ℕ) (c : Clock) :
    Option (List ℕ × Clock) :=
  let tmo := usec / configSysHz
  let (now, c) := (c.setTime first).getTimerMasked
  let endtime := now + tmo
  c.udelayMaskedLoop endtime polls

end Clock

/-- No poll moves the stamp by `2 ^ 31` ticks or more. -/
def Steady : Clock → List ℕ → Prop
  | _, [] => True
  | c, t :: ts => gain c t < 2 ^ 31 ∧ Steady (c.poll t) ts

/-- The polls up to the first at which more than `n` ticks have been counted. -/
structure FirstOver (n : ℕ) (c : Clock) (polls made : List ℕ) : Prop where
  front : made <+: polls
  passed : n < gained c made
  first : ∀ pre, pre <+: made → pre ≠ made → gained c pre ≤ n

section Loop

variable {n t : ℕ} {c : Clock} {ts made : List ℕ}

theorem firstOver_nil : ¬ FirstOver n c [] made := by
  intro h
  have hpassed := h.passed
  rw [List.prefix_nil.mp h.front] at hpassed
  exact absurd hpassed (Nat.not_lt_zero n)

/-- At least one poll is made. -/
theorem FirstOver.exists_cons (h : FirstOver n c (t :: ts) made) :
    ∃ rest, made = t :: rest ∧ rest <+: ts ∧ n < gain c t + gained (c.poll t) rest := by
  have hpassed := h.passed
  cases made with
  | nil => exact absurd hpassed (Nat.not_lt_zero n)
  | cons u rest =>
      obtain ⟨rfl, hrest⟩ := List.cons_prefix_cons.mp h.front
      exact ⟨rest, rfl, hrest, hpassed⟩

theorem firstOver_of_lt (h : n < gain c t) : FirstOver n c (t :: ts) made ↔ made = [t] := by
  constructor
  · intro hfirst
    obtain ⟨rest, rfl, -, -⟩ := hfirst.exists_cons
    by_contra hne
    have hearly := hfirst.first [t] ⟨rest, rfl⟩ (fun heq => hne heq.symm)
    rw [gained, gained] at hearly
    omega
  · rintro rfl
    refine ⟨⟨ts, rfl⟩, ?_, ?_⟩
    · rw [gained, gained]
      omega
    · intro pre hpre hne
      cases pre with
      | nil => exact Nat.zero_le n
      | cons u pre =>
          obtain ⟨rfl, hnil⟩ := List.cons_prefix_cons.mp hpre
          exact absurd (congrArg (u :: ·) (List.prefix_nil.mp hnil)) hne

theorem firstOver_of_le (h : gain c t ≤ n) : FirstOver n c (t :: ts) made ↔
    ∃ rest, made = t :: rest ∧ FirstOver (n - gain c t) (c.poll t) ts rest := by
  constructor
  · intro hfirst
    obtain ⟨rest, rfl, hrest, hpassed⟩ := hfirst.exists_cons
    refine ⟨rest, rfl, hrest, by omega, ?_⟩
    intro pre hpre hne
    have hearly := hfirst.first (t :: pre) (List.cons_prefix_cons.mpr ⟨rfl, hpre⟩)
      (fun heq => hne (List.cons_inj_right t |>.mp heq))
    rw [gained] at hearly
    omega
  · rintro ⟨rest, rfl, hrest⟩
    have hpassed := hrest.passed
    refine ⟨List.cons_prefix_cons.mpr ⟨rfl, hrest.front⟩, by rw [gained]; omega, ?_⟩
    intro pre hpre hne
    cases pre with
    | nil => exact Nat.zero_le n
    | cons u pre =>
        obtain ⟨rfl, htail⟩ := List.cons_prefix_cons.mp hpre
        have hearly := hrest.first pre htail (fun heq => hne (congrArg (u :: ·) heq))
        rw [gained]
        omega

/-- The loop with `n` ticks still to be counted: its end is `n` ahead of the
stamp, however often both have wrapped. -/
theorem udelayMaskedLoop_eq_some_iff (hn : n < 2 ^ 31) (hsteady : Steady c ts) {c' : Clock} :
    c.udelayMaskedLoop (c.timestamp + BitVec.ofNat 32 n) ts = some (made, c') ↔
      FirstOver n c ts made ∧ c' = polled c made := by
  induction ts generalizing c n made with
  | nil => exact ⟨nofun, fun h => absurd h.1 firstOver_nil⟩
  | cons t ts ih =>
      obtain ⟨hgain, hrest⟩ := hsteady
      have hdiff : c.timestamp + BitVec.ofNat 32 n - (c.poll t).timestamp =
          BitVec.ofNat 32 n - BitVec.ofNat 32 (gain c t) := by
        rw [poll_timestamp]
        abel
      have hsign := Words.sub_toInt_nonneg_iff (w := 31) hn hgain
      rw [← hdiff] at hsign
      have hloop : c.udelayMaskedLoop (c.timestamp + BitVec.ofNat 32 n) (t :: ts) =
          if (c.timestamp + BitVec.ofNat 32 n - (c.poll t).timestamp).toInt ≥ 0 then
            ((c.poll t).udelayMaskedLoop (c.timestamp + BitVec.ofNat 32 n) ts).map
              fun r => (t :: r.1, r.2)
          else some ([t], c.poll t) := rfl
      rw [hloop]
      by_cases hle : gain c t ≤ n
      · have hend : c.timestamp + BitVec.ofNat 32 n =
            (c.poll t).timestamp + BitVec.ofNat 32 (n - gain c t) := by
          rw [← Words.ofNat_sub_of_le hle, poll_timestamp]
          abel
        rw [if_pos (hsign.mpr hle), hend, firstOver_of_le hle, Option.map_eq_some_iff]
        constructor
        · rintro ⟨⟨rest, u⟩, hrun, heq⟩
          obtain ⟨rfl, rfl⟩ := Prod.mk.inj heq
          obtain ⟨hover, rfl⟩ := (ih (by omega) hrest).mp hrun
          exact ⟨⟨rest, rfl, hover⟩, rfl⟩
        · rintro ⟨⟨rest, rfl, hover⟩, rfl⟩
          exact ⟨(rest, polled (c.poll t) rest), (ih (by omega) hrest).mpr ⟨hover, rfl⟩, rfl⟩
      · rw [if_neg (fun h => hle (hsign.mp h)), firstOver_of_lt (Nat.not_le.mp hle),
          Option.some.injEq, Prod.mk.injEq]
        constructor
        · rintro ⟨rfl, rfl⟩
          exact ⟨rfl, rfl⟩
        · rintro ⟨rfl, rfl⟩
          exact ⟨rfl, rfl⟩

end Loop

/-- From any clock, `udelay_masked` returns with the first poll at which the
ticks counted since its first reading exceed the delay, and with no other. -/
theorem udelayMasked_eq_some_iff (usec : U32) (first : ℕ) (polls : List ℕ) (c : Clock)
    (hsteady : Steady (c.poll first) polls) (made : List ℕ) (c' : Clock) :
    c.udelayMasked usec first polls = some (made, c') ↔
      FirstOver (usec.toNat / 1000) (c.poll first) polls made ∧
        c' = polled (c.poll first) made := by
  have husec := usec.isLt
  have htmo : usec / configSysHz = BitVec.ofNat 32 (usec.toNat / 1000) := by
    rw [← delay_toNat, BitVec.ofNat_toNat, BitVec.setWidth_eq]
  have hstart : c.udelayMasked usec first polls =
      (c.poll first).udelayMaskedLoop ((c.poll first).timestamp + usec / configSysHz) polls := rfl
  rw [hstart, htmo]
  exact udelayMaskedLoop_eq_some_iff (by omega) hsteady

def beforeWrap : Clock := ⟨⟨0, 0, 0, none⟩, -3, 0⟩

/-- A delay of four ticks that starts three ticks before its stamp wraps. -/
theorem firstOver_across_wrap :
    ∃ c', beforeWrap.udelayMasked 4000#32 0
        [2 * 2 ^ 20, 4 * 2 ^ 20, 7 * 2 ^ 20, 9 * 2 ^ 20] =
          some ([2 * 2 ^ 20, 4 * 2 ^ 20, 7 * 2 ^ 20], c') ∧ c'.timestamp = 4 ∧
      FirstOver 4 (beforeWrap.poll 0) [2 * 2 ^ 20, 4 * 2 ^ 20, 7 * 2 ^ 20, 9 * 2 ^ 20]
        [2 * 2 ^ 20, 4 * 2 ^ 20, 7 * 2 ^ 20] := by
  obtain ⟨c', h, hstamp⟩ : ∃ c', beforeWrap.udelayMasked 4000#32 0
      [2 * 2 ^ 20, 4 * 2 ^ 20, 7 * 2 ^ 20, 9 * 2 ^ 20] =
        some ([2 * 2 ^ 20, 4 * 2 ^ 20, 7 * 2 ^ 20], c') ∧ c'.timestamp = 4 :=
    eq_some_of_made (by decide)
  have hsteady : Steady (beforeWrap.poll 0) [2 * 2 ^ 20, 4 * 2 ^ 20, 7 * 2 ^ 20, 9 * 2 ^ 20] :=
    ⟨by decide, by decide, by decide, by decide, trivial⟩
  exact ⟨c', h, hstamp, ((udelayMasked_eq_some_iff 4000#32 0 _ beforeWrap hsteady _ c').mp h).1⟩

end Goldfish.Timer
