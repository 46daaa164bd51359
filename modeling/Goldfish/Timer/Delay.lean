import Goldfish.Timer.Timestamp
import Mathlib.Data.List.Chain

/-!
# Delays

`__udelay` waits on the advancing timestamp. It turns the delay into a
deadline on the stamp, or, when that deadline would wrap, restarts the stamp
from zero; then it polls until the stamp has reached the deadline. The stamp
wraps as well, and the comparison does not look through a wrap.
-/

namespace Goldfish.Timer

def configSysHz : U32 := 1000#32

/-- Device times of the clock readings of a delay: the first one, the one of
the reset, if the delay makes it, and those offered to its loop. -/
structure Schedule where
  first : ℕ
  reset : ℕ
  polls : List ℕ

namespace Clock

def poll (c : Clock) (t : ℕ) : Clock := (c.setTime t).getTimerMasked.2

/-- The part of `__udelay` before its loop: the deadline, and the clock. -/
def udelayStart (usec : U32) (first reset : ℕ) (c : Clock) : U32 × Clock :=
  let tmo := usec / configSysHz
  let (tmp, c) := (c.setTime first).getTimer 0
  if tmo + tmp + 1 < tmp then (tmo, (c.setTime reset).resetTimerMasked)
  else (tmo + tmp, c)

/-- `while (get_timer_masked () < tmo)`: the polls made, and the clock they
leave. There is no result when the loop is still running after all polls. -/
def udelayLoop (tmo : U32) (c : Clock) : List ℕ → Option (List ℕ × Clock)
  | [] => none
  | t :: ts =>
      let (now, c) := (c.setTime t).getTimerMasked
      if now < tmo then (udelayLoop tmo c ts).map fun (made, c) => (t :: made, c)
      else some ([t], c)

def udelay (usec : U32) (s : Schedule) (c : Clock) : Option (List ℕ × Clock) :=
  let (tmo, c) := c.udelayStart usec s.first s.reset
  c.udelayLoop tmo s.polls

end Clock

/-! ## What the polls count -/

def gain (c : Clock) (t : ℕ) : ℕ := ((c.poll t).timestamp - c.timestamp).toNat

def polled (c : Clock) (ts : List ℕ) : Clock := ts.foldl Clock.poll c

def gained (c : Clock) : List ℕ → ℕ
  | [] => 0
  | t :: ts => gain c t + gained (c.poll t) ts

/-- The ticks from `t` to `u`, less one for each roll-over of the counter. -/
def counted (t u : ℕ) : ℕ := ticks u - ticks t - rollOvers t u

theorem poll_synced (c : Clock) (t : ℕ) : Synced (c.poll t) t :=
  Clock.getTimerMasked_lastdec (c.setTime t)

theorem poll_timestamp (c : Clock) (t : ℕ) :
    (c.poll t).timestamp = c.timestamp + BitVec.ofNat 32 (gain c t) := by
  rw [gain, BitVec.ofNat_toNat, BitVec.setWidth_eq]
  abel

theorem polled_append (c : Clock) (ts us : List ℕ) :
    polled c (ts ++ us) = polled (polled c ts) us := List.foldl_append

theorem polled_timestamp (c : Clock) (ts : List ℕ) :
    (polled c ts).timestamp = c.timestamp + BitVec.ofNat 32 (gained c ts) := by
  induction ts generalizing c with
  | nil => exact (add_zero _).symm
  | cons t ts ih =>
      have hfirst := poll_timestamp c t
      rw [gained, Words.ofNat_add, ← add_assoc, ← hfirst]
      exact ih (c.poll t)

/-- A reading never counts more than the ticks elapsed, however far apart
the readings are. -/
theorem gain_le {c : Clock} {t u : ℕ} (hs : Synced c t) (htu : t ≤ u) :
    gain c u ≤ ticks u - ticks t := by
  have hticks := ticks_mono htu
  have hdiff := Words.ofNat_sub_of_le (w := 32) hticks
  have hmod : (BitVec.ofNat 32 (ticks u) - BitVec.ofNat 32 (ticks t)).toNat ≤
      ticks u - ticks t := by
    rw [hdiff, BitVec.toNat_ofNat]
    exact Nat.mod_le _ _
  have hlast : (c.setTime u).lastdec = BitVec.ofNat 32 (ticks t) := hs
  unfold gain Clock.poll
  rw [Clock.getTimerMasked_timestamp, Clock.accumulate_timestamp, hlast, Clock.setTime_timestamp,
    Clock.setTime_time]
  split
  · rw [add_sub_cancel_left]
    exact hmod
  · rename_i hlt
    rw [Words.ofNat_le_ofNat_iff] at hlt
    have hsub : BitVec.ofNat 32 (ticks u) + timerLoadVal - BitVec.ofNat 32 (ticks t) =
        BitVec.ofNat 32 (ticks u - ticks t - 1) := by
      have hone := Words.ofNat_sub_of_le (w := 32) (a := 1) (b := ticks u - ticks t) (by omega)
      rw [← hone, ← hdiff, timerLoadVal_eq]
      have hlit : BitVec.ofNat 32 1 = (1 : U32) := rfl
      rw [hlit]
      abel
    rw [add_sub_cancel_left, hsub, BitVec.toNat_ofNat]
    exact (Nat.mod_le _ _).trans (Nat.sub_le _ _)

theorem rollOvers_le_ticks (t u : ℕ) : rollOvers t u ≤ ticks u - ticks t := by
  rw [rollOvers_eq]
  omega

theorem gain_eq_counted {c : Clock} {t u : ℕ} (hs : Synced c t) (htu : t ≤ u)
    (hpace : ticks u - ticks t < 2 ^ 32) : gain c u = counted t u := by
  have hroll := rollOvers_le_ticks t u
  obtain ⟨-, hstep⟩ := getTimerMasked_at hs htu hpace
  have hmove : (c.poll u).timestamp - c.timestamp = BitVec.ofNat 32 (counted t u) := by
    rw [counted, ← Words.ofNat_sub_of_le hroll]
    calc
      _ = (c.poll u).timestamp + BitVec.ofNat 32 (rollOvers t u) - c.timestamp -
          BitVec.ofNat 32 (rollOvers t u) := by abel
      _ = _ := by
        rw [Clock.poll, hstep]
        abel
  rw [gain, hmove, BitVec.toNat_ofNat, Nat.mod_eq_of_lt]
  exact (Nat.sub_le _ _).trans_lt hpace

theorem counted_add {t u v : ℕ} (htu : t ≤ u) (huv : u ≤ v) :
    counted t v = counted t u + counted u v := by
  have h₁ := rollOvers_le_ticks t u
  have h₂ := rollOvers_le_ticks u v
  rw [counted, rollOvers_add htu huv, elapsed_add htu huv]
  unfold counted
  omega

def Within (d t u : ℕ) : Prop := t ≤ u ∧ ticks u - ticks t < d

instance (d t u : ℕ) : Decidable (Within d t u) := inferInstanceAs (Decidable (_ ∧ _))

theorem gained_le {c : Clock} {t : ℕ} {ts : List ℕ} (hs : Synced c t)
    (hts : (t :: ts).IsChain (· ≤ ·)) :
    t ≤ ts.getLastD t ∧ gained c ts ≤ ticks (ts.getLastD t) - ticks t := by
  induction ts generalizing c t with
  | nil => exact ⟨le_refl t, Nat.zero_le _⟩
  | cons u ts ih =>
      obtain ⟨htu, hrest⟩ := List.isChain_cons_cons.mp hts
      have hone := gain_le hs htu
      obtain ⟨hle, hmore⟩ := ih (poll_synced c u) hrest
      have h₁ := ticks_mono htu
      have h₂ := ticks_mono hle
      rw [gained, List.getLastD_cons]
      refine ⟨htu.trans hle, ?_⟩
      omega

theorem gained_eq_counted {d : ℕ} (hd : d ≤ 2 ^ 32) {c : Clock} {t : ℕ} {ts : List ℕ}
    (hs : Synced c t) (hts : (t :: ts).IsChain (Within d)) :
    t ≤ ts.getLastD t ∧ gained c ts = counted t (ts.getLastD t) := by
  induction ts generalizing c t with
  | nil => exact ⟨le_refl t, by simp [gained, counted]⟩
  | cons u ts ih =>
      obtain ⟨⟨htu, hpace⟩, hrest⟩ := List.isChain_cons_cons.mp hts
      obtain ⟨hle, hmore⟩ := ih (poll_synced c u) hrest
      rw [gained, List.getLastD_cons, gain_eq_counted hs htu (hpace.trans_le hd), hmore]
      exact ⟨htu.trans hle, (counted_add htu hle).symm⟩

/-! ## The loop -/

theorem udelayLoop_eq_some {tmo : U32} {c c' : Clock} {ts made : List ℕ}
    (h : c.udelayLoop tmo ts = some (made, c')) :
    made <+: ts ∧ made ≠ [] ∧ c' = polled c made ∧ tmo ≤ c'.timestamp := by
  induction ts generalizing c made with
  | nil => cases h
  | cons t ts ih =>
      rw [Clock.udelayLoop] at h
      dsimp only at h
      split at h
      · obtain ⟨⟨made', u⟩, hrest, heq⟩ := Option.map_eq_some_iff.mp h
        obtain ⟨rfl, rfl⟩ := Prod.mk.inj heq
        obtain ⟨hfront, -, hpolled, hreached⟩ := ih hrest
        exact ⟨List.cons_prefix_cons.mpr ⟨rfl, hfront⟩, List.cons_ne_nil _ _, hpolled, hreached⟩
      · rename_i hnot
        obtain ⟨rfl, rfl⟩ := Prod.mk.inj (Option.some.inj h)
        exact ⟨⟨ts, rfl⟩, List.cons_ne_nil _ _, rfl, BitVec.not_lt.mp hnot⟩

theorem udelayLoop_isSome_iff {tmo : U32} {c : Clock} {ts : List ℕ} :
    (c.udelayLoop tmo ts).isSome ↔
      ∃ pre, pre ≠ [] ∧ pre <+: ts ∧ tmo ≤ (polled c pre).timestamp := by
  constructor
  · intro h
    obtain ⟨⟨made, c'⟩, hrun⟩ := Option.isSome_iff_exists.mp h
    obtain ⟨hfront, hne, rfl, hreached⟩ := udelayLoop_eq_some hrun
    exact ⟨made, hne, hfront, hreached⟩
  · rintro ⟨pre, hne, hfront, hreached⟩
    induction ts generalizing c pre with
    | nil => exact absurd (List.prefix_nil.mp hfront) hne
    | cons t ts ih =>
        rw [Clock.udelayLoop]
        dsimp only
        split
        · rename_i hlt
          rw [Option.isSome_map]
          cases pre with
          | nil => exact absurd rfl hne
          | cons p pre =>
              obtain ⟨rfl, hrest⟩ := List.cons_prefix_cons.mp hfront
              refine ih pre ?_ hrest hreached
              rintro rfl
              exact absurd hreached (BitVec.not_le.mpr hlt)
        · rfl

/-! ## The start of the loop -/

namespace Schedule

variable (s : Schedule) (usec : U32) (c : Clock)

def stamp : ℕ := (c.poll s.first).timestamp.toNat

/-- The delay would set its deadline past the end of the stamp. -/
def Resets : Prop := 2 ^ 32 ≤ usec.toNat / 1000 + s.stamp c + 1

instance : Decidable (s.Resets usec c) := inferInstanceAs (Decidable (_ ≤ _))

def readings : List ℕ :=
  s.first :: if s.Resets usec c then s.reset :: s.polls else s.polls

def loopClock : Clock := (c.udelayStart usec s.first s.reset).2

def loopTime : ℕ := if s.Resets usec c then s.reset else s.first

end Schedule

section Start

variable {s : Schedule} {usec : U32} {c : Clock}

theorem delay_toNat (usec : U32) : (usec / configSysHz).toNat = usec.toNat / 1000 :=
  BitVec.toNat_udiv

theorem resets_iff : s.Resets usec c ↔
    usec / configSysHz + (c.poll s.first).timestamp + 1 < (c.poll s.first).timestamp := by
  have husec := usec.isLt
  have hstamp := (c.poll s.first).timestamp.isLt
  have hone : (1 : U32).toNat = 1 := rfl
  rw [BitVec.lt_def, BitVec.toNat_add, BitVec.toNat_add, delay_toNat, hone]
  unfold Schedule.Resets Schedule.stamp
  omega

theorem udelayStart_eq : c.udelayStart usec s.first s.reset =
    if s.Resets usec c then
      (usec / configSysHz, ((c.poll s.first).setTime s.reset).resetTimerMasked)
    else (usec / configSysHz + (c.poll s.first).timestamp, c.poll s.first) := by
  have hstamp : ((c.setTime s.first).getTimer 0).1 = (c.poll s.first).timestamp := sub_zero _
  have hclock : ((c.setTime s.first).getTimer 0).2 = c.poll s.first := rfl
  unfold Clock.udelayStart
  simp only [hstamp, hclock, ← resets_iff]

theorem loopClock_of_resets (h : s.Resets usec c) :
    s.loopClock usec c = ((c.poll s.first).setTime s.reset).resetTimerMasked := by
  rw [Schedule.loopClock, udelayStart_eq, if_pos h]

theorem loopClock_of_not_resets (h : ¬ s.Resets usec c) :
    s.loopClock usec c = c.poll s.first := by
  rw [Schedule.loopClock, udelayStart_eq, if_neg h]

theorem loopClock_timestamp (h : s.Resets usec c) : (s.loopClock usec c).timestamp = 0 := by
  rw [loopClock_of_resets h]
  rfl

theorem udelay_eq : c.udelay usec s =
    (s.loopClock usec c).udelayLoop (c.udelayStart usec s.first s.reset).1 s.polls := rfl

structure Started (s : Schedule) (usec : U32) (c : Clock) : Prop where
  synced : Synced (s.loopClock usec c) (s.loopTime usec c)
  deadline : (c.udelayStart usec s.first s.reset).1.toNat =
    (s.loopClock usec c).timestamp.toNat + usec.toNat / 1000

theorem started (s : Schedule) (usec : U32) (c : Clock) : Started s usec c := by
  have husec := usec.isLt
  by_cases hreset : s.Resets usec c
  · constructor
    · rw [loopClock_of_resets hreset, Schedule.loopTime, if_pos hreset]
      exact getMillisecond_value _
    · rw [loopClock_timestamp hreset, udelayStart_eq, if_pos hreset, delay_toNat]
      exact (Nat.zero_add _).symm
  · constructor
    · rw [loopClock_of_not_resets hreset, Schedule.loopTime, if_neg hreset]
      exact poll_synced c s.first
    · rw [loopClock_of_not_resets hreset, udelayStart_eq, if_neg hreset]
      unfold Schedule.Resets Schedule.stamp at hreset
      rw [BitVec.toNat_add_of_lt (by rw [delay_toNat]; omega), delay_toNat, Nat.add_comm]

theorem readings_chain {R : ℕ → ℕ → Prop} (h : (s.readings usec c).IsChain R) :
    (s.loopTime usec c :: s.polls).IsChain R := by
  unfold Schedule.readings at h
  unfold Schedule.loopTime
  split
  · rename_i hreset
    rw [if_pos hreset] at h
    exact h.tail
  · rename_i hreset
    rwa [if_neg hreset] at h

theorem first_le_loopTime (h : (s.readings usec c).IsChain (· ≤ ·)) :
    s.first ≤ s.loopTime usec c := by
  unfold Schedule.readings at h
  unfold Schedule.loopTime
  split
  · rename_i hreset
    rw [if_pos hreset] at h
    exact (List.isChain_cons_cons.mp h).1
  · exact le_refl _

theorem delay_le_gained {made : List ℕ}
    (h : (c.udelayStart usec s.first s.reset).1 ≤ (polled (s.loopClock usec c) made).timestamp) :
    usec.toNat / 1000 ≤ gained (s.loopClock usec c) made := by
  have hdeadline := (started s usec c).deadline
  have hlt := (c.udelayStart usec s.first s.reset).1.isLt
  rw [BitVec.le_def, polled_timestamp, BitVec.toNat_add, BitVec.toNat_ofNat, hdeadline] at h
  rw [hdeadline] at hlt
  by_contra hless
  rw [Nat.mod_eq_of_lt (a := gained _ _) (by omega), Nat.mod_eq_of_lt (by omega)] at h
  omega

end Start

/-! ## The delay is never cut short -/

/-- A finished delay, by the polls it has made and the stamp it leaves. -/
theorem eq_some_of_made {o : Option (List ℕ × Clock)} {made : List ℕ} {stamp : U32}
    (h : o.map (fun r => (r.1, r.2.timestamp)) = some (made, stamp)) :
    ∃ c', o = some (made, c') ∧ c'.timestamp = stamp := by
  obtain ⟨⟨made', c'⟩, rfl, hr⟩ := Option.map_eq_some_iff.mp h
  obtain ⟨rfl, rfl⟩ := Prod.mk.inj hr
  exact ⟨c', rfl, rfl⟩

/-- The last poll comes no fewer ticks after the first reading than the
delay asks for, whatever rolls over in between. -/
theorem udelay_waits {usec : U32} {s : Schedule} {c c' : Clock} {made : List ℕ}
    (hs : (s.readings usec c).IsChain (· ≤ ·)) (h : c.udelay usec s = some (made, c')) :
    ∃ last, made.getLast? = some last ∧ usec.toNat / 1000 ≤ ticks last - ticks s.first := by
  rw [udelay_eq] at h
  obtain ⟨hfront, hne, rfl, hreached⟩ := udelayLoop_eq_some h
  have hgained := delay_le_gained hreached
  have hchain := List.IsChain.prefix (readings_chain hs) (List.cons_prefix_cons.mpr ⟨rfl, hfront⟩)
  obtain ⟨hle, helapsed⟩ := gained_le (started s usec c).synced hchain
  have hfirst := ticks_mono (first_le_loopTime hs)
  have hlast := ticks_mono hle
  obtain ⟨earlier, last, rfl⟩ := (List.eq_nil_or_concat' made).resolve_left hne
  rw [List.getLastD_concat] at helapsed hlast
  exact ⟨last, List.getLast?_concat, by omega⟩

theorem udelay_waits_twoTicks :
    ∃ c', zeroClock.udelay 2000#32 ⟨0, 0, [0, 2 * 2 ^ 20, 3 * 2 ^ 20]⟩ =
        some ([0, 2 * 2 ^ 20], c') ∧ c'.timestamp = 2 ∧
      ∃ last, [0, 2 * 2 ^ 20].getLast? = some last ∧ 2000 / 1000 ≤ ticks last - ticks 0 := by
  obtain ⟨c', h, hstamp⟩ : ∃ c', zeroClock.udelay 2000#32 ⟨0, 0, [0, 2 * 2 ^ 20, 3 * 2 ^ 20]⟩ =
      some ([0, 2 * 2 ^ 20], c') ∧ c'.timestamp = 2 := eq_some_of_made (by decide)
  exact ⟨c', h, hstamp, udelay_waits (by decide) h⟩

/-! ## The deadline is not skipped -/

/-- The loop ends at the latest with the first of its polls at which
`get_timer_masked` has added the delay to the stamp. -/
def OnTime (usec : U32) (s : Schedule) (c : Clock) : Prop :=
  ∀ pre t post, s.polls = pre ++ t :: post →
    usec.toNat / 1000 ≤ gained (s.loopClock usec c) (pre ++ [t]) →
    (c.udelay usec { s with polls := pre ++ [t] }).isSome

def duePoll (usec : U32) (t : ℕ) (polls : List ℕ) : Option ℕ :=
  polls.find? fun u => usec.toNat / 1000 ≤ counted t u

section OnTime

variable {s : Schedule} {usec : U32} {c : Clock}

theorem reached_iff {polls : List ℕ}
    (hbound : gained (s.loopClock usec c) polls < usec.toNat / 1000 + 2 ^ 32) :
    (c.udelayStart usec s.first s.reset).1 ≤ (polled (s.loopClock usec c) polls).timestamp ↔
      usec.toNat / 1000 ≤ gained (s.loopClock usec c) polls ∧
        (s.loopClock usec c).timestamp.toNat + gained (s.loopClock usec c) polls < 2 ^ 32 := by
  have hdeadline := (started s usec c).deadline
  have hlt := (c.udelayStart usec s.first s.reset).1.isLt
  have hstart := (s.loopClock usec c).timestamp.isLt
  rw [BitVec.le_def, polled_timestamp, BitVec.toNat_add, BitVec.toNat_ofNat, hdeadline]
  rw [hdeadline] at hlt
  omega

theorem gained_prefix {pre polls : List ℕ} {u : ℕ}
    (hs : (s.loopTime usec c :: polls).IsChain (Within (2 ^ 31))) (hpre : pre ++ [u] <+: polls) :
    gained (s.loopClock usec c) (pre ++ [u]) = counted (s.loopTime usec c) u := by
  have hchain := hs.prefix (List.cons_prefix_cons.mpr ⟨rfl, hpre⟩)
  have hgained := (gained_eq_counted (by decide) (started s usec c).synced hchain).2
  rwa [List.getLastD_concat] at hgained

/-- The polls before the due one come too early. -/
theorem split_of_duePoll {t u : ℕ} {polls : List ℕ} (hu : u ∈ duePoll usec t polls) :
    usec.toNat / 1000 ≤ counted t u ∧ ∃ before after, polls = before ++ u :: after ∧
      ∀ v ∈ before, counted t v < usec.toNat / 1000 := by
  obtain ⟨hdue, before, after, hpolls, hbefore⟩ := List.find?_eq_some_iff_append.mp hu
  refine ⟨of_decide_eq_true hdue, before, after, hpolls, ?_⟩
  intro v hv
  simpa using hbefore v hv

theorem counted_duePoll {t u : ℕ} {before after : List ℕ} {n : ℕ}
    (hs : (t :: (before ++ u :: after)).IsChain (Within (2 ^ 31)))
    (hbefore : ∀ v ∈ before, counted t v < n) : counted t u < n + 2 ^ 31 := by
  have hstep : Within (2 ^ 31) (before.getLastD t) u := by
    rw [← List.cons_append, List.isChain_append] at hs
    rw [List.getLastD_eq_getLast?]
    exact hs.2.2 _ (List.getLast?_cons ..) _ rfl
  have hfront : (t :: before).IsChain (Within (2 ^ 31)) :=
    hs.prefix (List.cons_prefix_cons.mpr ⟨rfl, List.prefix_append _ _⟩)
  have hlast : counted t (before.getLastD t) < n ∨ counted t (before.getLastD t) = 0 := by
    rcases List.eq_nil_or_concat' before with rfl | ⟨init, last, rfl⟩
    · right
      simp [counted]
    · left
      rw [List.getLastD_concat]
      exact hbefore last (List.mem_append_right _ (List.mem_singleton_self _))
  have hle : t ≤ before.getLastD t :=
    (gained_eq_counted (d := 2 ^ 31) (by decide) (poll_synced zeroClock t) hfront).1
  have hsum := counted_add hle hstep.1
  have hone : counted (before.getLastD t) u ≤ ticks u - ticks (before.getLastD t) := Nat.sub_le _ _
  have hpace := hstep.2
  omega

theorem udelay_isSome_iff {polls : List ℕ} :
    (c.udelay usec { s with polls := polls }).isSome ↔ ∃ pre, pre ≠ [] ∧ pre <+: polls ∧
      (c.udelayStart usec s.first s.reset).1 ≤
        (polled (s.loopClock usec c) pre).timestamp := udelayLoop_isSome_iff

theorem onTime_iff_loop (hs : (s.loopTime usec c :: s.polls).IsChain (Within (2 ^ 31))) :
    OnTime usec s c ↔ ∀ u ∈ duePoll usec (s.loopTime usec c) s.polls,
      (s.loopClock usec c).timestamp.toNat + counted (s.loopTime usec c) u < 2 ^ 32 := by
  constructor
  · intro honTime u hu
    obtain ⟨hdue, before, after, hpolls, hearly⟩ := split_of_duePoll hu
    rw [hpolls] at hs
    have hbound := counted_duePoll hs hearly
    have hfront : before ++ [u] <+: before ++ u :: after := ⟨after, by simp⟩
    have hgained := gained_prefix hs hfront
    obtain ⟨pre, hne, hpre, hreached⟩ :=
      udelay_isSome_iff.mp (honTime before u after hpolls (hgained ▸ hdue))
    rcases List.prefix_concat_iff.mp hpre with rfl | hpre
    · rw [reached_iff (by omega), hgained] at hreached
      exact hreached.2
    · -- an earlier poll has not counted the delay
      obtain ⟨init, last, rfl⟩ := (List.eq_nil_or_concat' pre).resolve_left hne
      have hpolled := gained_prefix hs (hpre.trans (List.prefix_append _ _))
      have hlast := hearly last (hpre.subset (List.mem_append_right _ (List.mem_singleton_self _)))
      rw [reached_iff (by omega), hpolled] at hreached
      exact absurd hreached.1 (Nat.not_le.mpr hlast)
  · intro hstamp pre t post hpolls hcounted
    have hfront : pre ++ [t] <+: s.polls := ⟨post, by simp [hpolls]⟩
    have hgained := gained_prefix hs hfront
    rw [hgained] at hcounted
    have hmem : t ∈ s.polls := by simp [hpolls]
    have hsome : (duePoll usec (s.loopTime usec c) s.polls).isSome :=
      List.find?_isSome.mpr ⟨t, hmem, decide_eq_true hcounted⟩
    obtain ⟨u, hu⟩ := Option.isSome_iff_exists.mp hsome
    obtain ⟨hdue, before, after, hsplit, hearly⟩ := split_of_duePoll hu
    have hfirst : before ++ [u] <+: s.polls := ⟨after, by simp [hsplit]⟩
    have hreached := gained_prefix hs hfirst
    have hbound := counted_duePoll (hsplit ▸ hs) hearly
    have hinside : before ++ [u] <+: pre ++ [t] := by
      rcases List.prefix_or_prefix_of_prefix hfirst hfront with h | h
      · exact h
      · rcases List.prefix_concat_iff.mp h with heq | hlate
        · rw [heq]
        · have hlate := hearly t
            (hlate.subset (List.mem_append_right _ (List.mem_singleton_self _)))
          exact absurd hcounted (Nat.not_le.mpr hlate)
    refine udelay_isSome_iff.mpr ⟨before ++ [u], by simp, hinside, ?_⟩
    rw [reached_iff (by omega), hreached]
    exact ⟨hdue, hstamp u hu⟩

/-- The delay ends on time exactly if it has restarted the stamp, or the
stamp does not wrap before the poll that finds the delay over. -/
theorem onTime_iff (hs : (s.readings usec c).IsChain (Within (2 ^ 31))) :
    OnTime usec s c ↔ s.Resets usec c ∨
      ∀ u ∈ duePoll usec s.first s.polls, s.stamp c + counted s.first u < 2 ^ 32 := by
  have hchain := readings_chain hs
  rw [onTime_iff_loop hchain]
  by_cases hreset : s.Resets usec c
  · refine ⟨fun _ => Or.inl hreset, fun _ u hu => ?_⟩
    obtain ⟨-, before, after, hpolls, hearly⟩ := split_of_duePoll hu
    have hbound := counted_duePoll (hpolls ▸ hchain) hearly
    have husec := usec.isLt
    rw [loopClock_timestamp hreset]
    change 0 + _ < _
    omega
  · have htime : s.loopTime usec c = s.first := if_neg hreset
    rw [htime, loopClock_of_not_resets hreset]
    exact (or_iff_right hreset).symm

end OnTime

theorem onTime_twoTicks : OnTime 2000#32 ⟨0, 0, [0, 2 * 2 ^ 20]⟩ zeroClock :=
  (onTime_iff (by decide)).mpr (Or.inr (by decide))

/-- The clocks that `timer_init` and later readings leave, the last of them
at device time `t`. -/
def Reached (c : Clock) (t : ℕ) : Prop :=
  ∃ (c₀ : Clock) (t₀ : ℕ) (calls : List ℕ), (t₀ :: calls).IsChain (· ≤ ·) ∧ calls.getLastD t₀ = t ∧
    polled (c₀.setTime t₀).timerInit.2 calls = c

/-- Sixteen ticks before the stamp wraps, a delay of one tick whose next poll
comes a hundred ticks later goes on. -/
theorem not_onTime_across_wrap :
    ¬ ∀ (usec : U32) (s : Schedule) (c : Clock) (t : ℕ), Reached c t → t ≤ s.first →
      (s.readings usec c).IsChain (Within (2 ^ 31)) → OnTime usec s c := by
  intro h
  let start := 0xfffffff0 * 2 ^ 20
  let late := 0x100000054 * 2 ^ 20
  have hreached : Reached (polled (zeroClock.setTime 0).timerInit.2 [start]) start :=
    ⟨zeroClock, 0, [start], by decide, rfl, rfl⟩
  have hsome := h 1000#32 ⟨start, start, [late]⟩ _ start hreached (le_refl _) (by decide)
    [] late [] rfl (by decide)
  exact absurd hsome (by decide)

/-! ## The stamp is preserved -/

/-- The delay leaves the stamp where its own readings have moved it, and a
base taken before it still measures the ticks since then. -/
structure Preserves (usec : U32) (s : Schedule) (c : Clock) (made : List ℕ) (c' : Clock) :
    Prop where
  stamp : c'.timestamp.toNat = (s.stamp c + gained (s.loopClock usec c) made) % 2 ^ 32
  interval : ∀ (c₀ : Clock) (base : U32) (u v : ℕ) (mid post : List ℕ),
    c = polled (c₀.poll u) mid → base = ((c₀.setTime u).getTimer 0).1 →
    (u :: (mid ++ s.first :: ((if s.Resets usec c then s.reset :: made else made) ++
      post ++ [v]))).IsChain (· ≤ ·) → rollOvers u v = 0 →
    (((polled c' post).setTime v).getTimer base).1.toNat = (ticks v - ticks u) % 2 ^ 32

theorem within_of_no_rollOver {t : ℕ} {ts : List ℕ} (hts : (t :: ts).IsChain (· ≤ ·))
    (hroll : rollOvers t (ts.getLastD t) = 0) :
    t ≤ ts.getLastD t ∧ (t :: ts).IsChain (Within (2 ^ 32)) := by
  induction ts generalizing t with
  | nil => exact ⟨le_refl t, List.isChain_singleton t⟩
  | cons u ts ih =>
      obtain ⟨htu, hrest⟩ := List.isChain_cons_cons.mp hts
      rw [List.getLastD_cons] at hroll ⊢
      have hle : u ≤ ts.getLastD u :=
        (gained_le (poll_synced zeroClock u) hrest).1
      rw [rollOvers_add htu hle] at hroll
      obtain ⟨hfirst, hlater⟩ := Nat.add_eq_zero_iff.mp hroll
      have hstep : ticks u - ticks t < 2 ^ 32 := by
        rw [rollOvers_eq] at hfirst
        omega
      obtain ⟨-, hmore⟩ := ih hrest hlater
      exact ⟨htu.trans hle, List.isChain_cons_cons.mpr ⟨⟨htu, hstep⟩, hmore⟩⟩

theorem getTimer_after {c₀ : Clock} {u v : ℕ} {calls : List ℕ}
    (hchain : (u :: (calls ++ [v])).IsChain (· ≤ ·)) (hroll : rollOvers u v = 0) :
    (((polled (c₀.poll u) calls).setTime v).getTimer ((c₀.setTime u).getTimer 0).1).1.toNat =
      (ticks v - ticks u) % 2 ^ 32 := by
  have hlast : (calls ++ [v]).getLastD u = v := List.getLastD_concat
  obtain ⟨-, hwithin⟩ := within_of_no_rollOver hchain (hlast.symm ▸ hroll)
  have hgained := (gained_eq_counted (le_refl _) (poll_synced c₀ u) hwithin).2
  have hcounted : counted u v = ticks v - ticks u := by
    rw [counted, hroll, Nat.sub_zero]
  rw [hlast, hcounted] at hgained
  have hbase : ((c₀.setTime u).getTimer 0).1 = (c₀.poll u).timestamp := sub_zero _
  have hstamp := polled_timestamp (c₀.poll u) (calls ++ [v])
  rw [polled_append, hgained] at hstamp
  have hanswer : (((polled (c₀.poll u) calls).setTime v).getTimer
      ((c₀.setTime u).getTimer 0).1).1 =
        (polled (polled (c₀.poll u) calls) [v]).timestamp - ((c₀.setTime u).getTimer 0).1 := rfl
  rw [hanswer, hstamp, hbase, add_sub_cancel_left, BitVec.toNat_ofNat]

/-- A delay preserves the stamp exactly if its deadline does not wrap. -/
theorem preserves_iff {usec : U32} {s : Schedule} {c c' : Clock} {made : List ℕ}
    (h : c.udelay usec s = some (made, c')) :
    Preserves usec s c made c' ↔ usec.toNat / 1000 + s.stamp c + 1 < 2 ^ 32 := by
  rw [udelay_eq] at h
  obtain ⟨-, -, rfl, -⟩ := udelayLoop_eq_some h
  have husec := usec.isLt
  constructor
  · intro hpreserves
    by_contra hover
    have hreset : s.Resets usec c := Nat.not_lt.mp hover
    have hclock := loopClock_timestamp hreset
    have hstamp := hpreserves.stamp
    have hlt : s.stamp c < 2 ^ 32 := (c.poll s.first).timestamp.isLt
    rw [polled_timestamp, hclock, zero_add, BitVec.toNat_ofNat] at hstamp
    omega
  · intro hsmall
    have hreset : ¬ s.Resets usec c := Nat.not_le.mpr hsmall
    have hclock := loopClock_of_not_resets hreset
    constructor
    · rw [polled_timestamp, hclock, BitVec.toNat_add, BitVec.toNat_ofNat, Nat.add_mod_mod]
      rfl
    · intro c₀ base u v mid post hc hbase hchain hroll
      have hpolled : polled (polled (s.loopClock usec c) made) post =
          polled (c₀.poll u) (mid ++ s.first :: (made ++ post)) := by
        rw [hclock, hc, polled_append, ← polled_append]
        rfl
      rw [if_neg hreset] at hchain
      rw [hpolled, hbase]
      refine getTimer_after ?_ hroll
      rw [List.append_assoc]
      exact hchain

theorem preserves_twoTicks : ∃ c', Preserves 2000#32 ⟨0, 0, [0, 2 * 2 ^ 20]⟩ zeroClock
    [0, 2 * 2 ^ 20] c' := by
  obtain ⟨c', h, -⟩ : ∃ c', zeroClock.udelay 2000#32 ⟨0, 0, [0, 2 * 2 ^ 20]⟩ =
      some ([0, 2 * 2 ^ 20], c') ∧ c'.timestamp = 2 := eq_some_of_made (by decide)
  exact ⟨c', (preserves_iff h).mpr (by decide)⟩

def lateClock : Clock :=
  polled (zeroClock.setTime (2 ^ 51)).timerInit.2 [2 ^ 52, 0x17ffffffe * 2 ^ 20]

/-- A delay of five ticks restarts the stamp of the late clock. -/
theorem not_preserves_at_wrap :
    ¬ ∀ (usec : U32) (s : Schedule) (c c' : Clock) (t : ℕ) (made : List ℕ), Reached c t →
      t ≤ s.first → (s.readings usec c).IsChain (· ≤ ·) → c.udelay usec s = some (made, c') →
        Preserves usec s c made c' := by
  intro h
  have hreached : Reached lateClock (0x17ffffffe * 2 ^ 20) :=
    ⟨zeroClock, 2 ^ 51, [2 ^ 52, 0x17ffffffe * 2 ^ 20], by decide, rfl, rfl⟩
  obtain ⟨c', hrun, hvalue⟩ : ∃ c', lateClock.udelay 5000#32
      ⟨0x17ffffffe * 2 ^ 20, 0x17ffffffe * 2 ^ 20, [0x180000004 * 2 ^ 20]⟩ =
        some ([0x180000004 * 2 ^ 20], c') ∧ c'.timestamp = 6 := eq_some_of_made (by decide)
  have hstamp := (h _ _ _ c' _ _ hreached (le_refl _) (by decide) hrun).stamp
  rw [hvalue] at hstamp
  exact absurd hstamp (by decide)

end Goldfish.Timer
