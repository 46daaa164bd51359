import Goldfish.Syscalls.Sbrk

/-!
# Growing and releasing

`_sbrk` with increments of either sign. As long as no more is released than
was granted, the break stays in the heap, and a request is refused for two
reasons: the break would pass the limit, or it would lie so far below
address 0 that the sum of the check wraps.
-/

namespace Goldfish.Syscalls

open Serial Bump

/-- The pointer returned is not null. -/
def Granted (r : Region) (incr : U32) (h : Heap) : Prop := (sbrk r incr h).1 ≠ 0

instance (r : Region) (incr : U32) (h : Heap) : Decidable (Granted r incr h) :=
  inferInstanceAs (Decidable (_ ≠ _))

def sbrks (r : Region) (h : Heap) (incrs : List U32) : Heap :=
  incrs.foldl (fun h incr => (sbrk r incr h).2) h

def grantedTotal (r : Region) : Heap → List U32 → ℤ
  | _, [] => 0
  | h, incr :: incrs =>
      (if Granted r incr h then incr.toInt else 0) + grantedTotal r (sbrk r incr h).2 incrs

/-- One call, by the break it starts from. -/
structure Moves (r : Region) (incr : U32) (h : Heap) : Prop where
  granted_iff : Granted r incr h ↔ (breakOf r h).toNat + incr.toInt ≤ r.limit ∧
    0 ≤ (breakOf r h).toNat + 65536 + incr.toInt
  granted : Granted r incr h → (sbrk r incr h).1 = breakOf r h ∧
    ((sbrk r incr h).2.heapEnd.toNat : ℤ) = (breakOf r h).toNat + incr.toInt
  refused : ¬ Granted r incr h → (sbrk r incr h).2.heapEnd = breakOf r h ∧
    (sbrk r incr h).2.world.errno = enomem
  inside : r.heapStart.toNat ≤ (sbrk r incr h).2.heapEnd.toNat ∧
    ((sbrk r incr h).2.heapEnd.toNat : ℤ) ≤ r.limit

section Call

variable {r : Region} {h : Heap} {incr : U32} {brk : ℤ}

theorem Breaks.breakOf_eq (hb : Breaks r h brk) : ((breakOf r h).toNat : ℤ) = brk := hb.heapEnd

theorem Breaks.breakOf_le (hb : Breaks r h brk) : ((breakOf r h).toNat : ℤ) ≤ r.limit :=
  hb.heapEnd ▸ hb.upper

theorem Breaks.breakOf_ne_zero (hb : Breaks r h brk) : breakOf r h ≠ 0 := by
  have hpos := r.start_pos
  have hlower := hb.lower
  have heq := hb.breakOf_eq
  intro hzero
  rw [hzero] at heq
  change (0 : ℤ) = brk at heq
  omega

theorem Breaks.granted_iff (hb : Breaks r h brk) : Granted r incr h ↔
    (breakOf r h).toNat + incr.toInt ≤ r.limit ∧
      0 ≤ (breakOf r h).toNat + 65536 + incr.toInt := by
  constructor
  · intro hgranted
    by_contra hnot
    obtain ⟨w, hsbrk, -⟩ := sbrk_refused hb.breakOf_le (fun hfits => hnot hfits.symm)
    rw [Granted, hsbrk] at hgranted
    exact hgranted rfl
  · rintro ⟨hroom, hlow⟩
    rw [Granted, sbrk_granted hb.breakOf_le hlow hroom]
    exact hb.breakOf_ne_zero

theorem moved_toNat (hlimit : ((breakOf r h).toNat : ℤ) + incr.toInt ≤ r.limit)
    (hnonneg : 0 ≤ ((breakOf r h).toNat : ℤ) + incr.toInt) :
    ((breakOf r h + incr).toNat : ℤ) = (breakOf r h).toNat + incr.toInt := by
  have hstop := r.stop_lt
  have hlt := (breakOf r h).isLt
  have hincr := incr.isLt
  unfold Region.limit at hlimit
  rw [BitVec.toNat_add]
  rw [BitVec.toInt_eq_toNat_cond] at hlimit hnonneg ⊢
  split at hlimit <;> omega

/-- A call that does not release more than was granted. -/
theorem Breaks.step (hb : Breaks r h brk)
    (hstart : r.heapStart.toNat ≤ brk + if Granted r incr h then incr.toInt else 0) :
    Moves r incr h ∧
      Breaks r (sbrk r incr h).2 (brk + if Granted r incr h then incr.toInt else 0) := by
  have heq := hb.breakOf_eq
  have hiff : Granted r incr h ↔ _ := hb.granted_iff
  by_cases hgranted : Granted r incr h
  · obtain ⟨hroom, hlow⟩ := hiff.mp hgranted
    rw [if_pos hgranted] at hstart ⊢
    have hsbrk := sbrk_granted hb.breakOf_le hlow hroom
    have hmoved := moved_toNat hroom (by omega)
    have hbreaks : Breaks r (sbrk r incr h).2 (brk + incr.toInt) := by
      rw [hsbrk]
      exact Breaks.of_ne_zero (by rw [hmoved, heq]) hstart (by rwa [heq] at hroom)
    refine ⟨⟨hiff, fun _ => ?_, fun hnot => absurd hgranted hnot, ?_⟩, hbreaks⟩
    · rw [hsbrk]
      exact ⟨rfl, hmoved⟩
    · rw [hsbrk]
      dsimp only
      omega
  · obtain ⟨w, hsbrk, herrno⟩ := sbrk_refused hb.breakOf_le
      (fun hfits => hgranted (hiff.mpr hfits.symm))
    have hlower := hb.lower
    have hupper := hb.upper
    rw [if_neg hgranted, add_zero]
    refine ⟨⟨hiff, fun h => absurd h hgranted, fun _ => ?_, ?_⟩, ?_⟩
    · rw [hsbrk]
      exact ⟨rfl, herrno⟩
    · rw [hsbrk]
      dsimp only
      omega
    · rw [hsbrk]
      exact Breaks.of_ne_zero heq hlower hupper

end Call

/-! ## Runs -/

variable {r : Region} {h : Heap} {brk : ℤ}

theorem sbrks_cons (r : Region) (h : Heap) (incr : U32) (incrs : List U32) :
    sbrks r h (incr :: incrs) = sbrks r (sbrk r incr h).2 incrs := List.foldl_cons ..

theorem sbrks_breaks {incrs : List U32} (hb : Breaks r h brk)
    (htotal : ∀ pre, pre <+: incrs → r.heapStart.toNat ≤ brk + grantedTotal r h pre) :
    Breaks r (sbrks r h incrs) (brk + grantedTotal r h incrs) := by
  induction incrs generalizing h brk with
  | nil =>
      rw [grantedTotal, add_zero]
      exact hb
  | cons incr incrs ih =>
      have hfirst := htotal [incr] ⟨incrs, rfl⟩
      rw [grantedTotal, grantedTotal, add_zero] at hfirst
      have hnext := (hb.step hfirst).2
      rw [sbrks_cons, grantedTotal, ← add_assoc]
      apply ih hnext
      intro pre hpre
      have hmore := htotal (incr :: pre) (List.cons_prefix_cons.mpr ⟨rfl, hpre⟩)
      rwa [grantedTotal, ← add_assoc] at hmore

theorem grantedTotal_append (r : Region) (h : Heap) (xs ys : List U32) :
    grantedTotal r h (xs ++ ys) = grantedTotal r h xs + grantedTotal r (sbrks r h xs) ys := by
  induction xs generalizing h with
  | nil => exact (zero_add _).symm
  | cons x xs ih =>
      rw [List.cons_append, grantedTotal, grantedTotal, ih, add_assoc, sbrks_cons]

/-- In every run that never releases more than it was granted, each call
moves the break as it should. -/
theorem sbrk_moves (r : Region) (w : World) (incrs : List U32)
    (htotal : ∀ pre, pre <+: incrs → 0 ≤ grantedTotal r ⟨0, w⟩ pre) :
    ∀ pre incr post, incrs = pre ++ incr :: post → Moves r incr (sbrks r ⟨0, w⟩ pre) := by
  intro pre incr post hincrs
  have hinitial : Breaks r ⟨0, w⟩ r.heapStart.toNat := breaks_initial r rfl
  have hbreaks : Breaks r (sbrks r ⟨0, w⟩ pre)
      (r.heapStart.toNat + grantedTotal r ⟨0, w⟩ pre) := by
    apply sbrks_breaks hinitial
    intro pre' hpre
    have hnonneg := htotal pre' (hpre.trans ⟨incr :: post, hincrs.symm⟩)
    omega
  have hnext := htotal (pre ++ [incr]) ⟨post, by rw [hincrs, List.append_assoc]; rfl⟩
  rw [grantedTotal_append, grantedTotal, grantedTotal, add_zero] at hnext
  exact (hbreaks.step (by omega)).1

theorem total_nonneg_of_inits {incrs : List U32}
    (hinits : ∀ pre ∈ incrs.inits, 0 ≤ grantedTotal r h pre) :
    ∀ pre, pre <+: incrs → 0 ≤ grantedTotal r h pre :=
  fun pre hpre => hinits pre ((List.mem_inits pre incrs).mpr hpre)

/-- Half of what was granted is given back. -/
theorem sbrk_moves_release : Moves onePage (-0x400#32) (sbrks onePage onePageHeap [0x800#32]) :=
  sbrk_moves onePage onePageHeap.world [0x800#32, -0x400#32]
    (total_nonneg_of_inits (by decide)) [0x800#32] (-0x400#32) [] rfl

/-- The largest release is refused, although its break is not above the limit. -/
theorem refused_below_zero : ¬ ∀ (r : Region) (w : World) (incrs : List U32),
    (∀ pre, pre <+: incrs → 0 ≤ grantedTotal r ⟨0, w⟩ pre) →
      ∀ pre incr post, incrs = pre ++ incr :: post →
        (Granted r incr (sbrks r ⟨0, w⟩ pre) ↔
          (breakOf r (sbrks r ⟨0, w⟩ pre)).toNat + incr.toInt ≤ r.limit) := by
  intro h
  have hiff := h onePage onePageHeap.world [0x80000000#32]
    (total_nonneg_of_inits (by decide)) [] 0x80000000#32 [] rfl
  exact absurd hiff (by decide)

end Goldfish.Syscalls
