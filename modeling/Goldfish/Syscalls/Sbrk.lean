import Goldfish.Lib.Bump
import Goldfish.Syscalls.Stubs

/-!
# The break

`_sbrk` of `syscalls_cs3.c`. The C library takes every result other than
`(void *)-1` for a block. Below it lies the bump allocator of the library,
which refuses where `_sbrk` returns the null pointer.
-/

namespace Goldfish.Syscalls

open Serial Bump

def stackBufferSize : U32 := 65536#32

/-- What the linker promises of `__cs3_heap_start` and `__cs3_heap_end`. -/
structure Region where
  heapStart : U32
  heapStop : U32
  start_pos : 0 < heapStart.toNat
  stop_lt : heapStop.toNat < 2 ^ 31
  reserve : heapStart.toNat + 65536 ≤ heapStop.toNat

/-- `heap_end`, and the world `_write` prints in. -/
structure Heap where
  heapEnd : U32
  world : World

def sbrkMessage : List U8 :=
  [0x45, 0x72, 0x72, 0x6f, 0x72, 0x20, 0x69, 0x6e, 0x20, 0x5f, 0x73, 0x62, 0x72, 0x6b, 0x21, 0x0a]

def sbrk (r : Region) (incr : U32) (h : Heap) : U32 × Heap :=
  let heapEnd := if h.heapEnd = 0 then r.heapStart else h.heapEnd
  let prevHeapEnd := heapEnd
  -- pointers compare as unsigned words
  if heapEnd + stackBufferSize + incr > r.heapStop then
    let w := { h.world with errno := enomem }
    let (_, w) := write stderrFileno sbrkMessage w
    (0, ⟨heapEnd, w⟩)
  else (prevHeapEnd, ⟨heapEnd + incr, h.world⟩)

/-- The break that `_sbrk` works with: zero stands for the start of the heap. -/
def breakOf (r : Region) (h : Heap) : U32 := if h.heapEnd = 0 then r.heapStart else h.heapEnd

/-- A request as the C library sees it. -/
def grant (r : Region) (h : Heap) (incr : U32) : Option Block × Heap :=
  let (p, h) := sbrk r incr h
  (if p = -1 then none else some ⟨p.toNat, incr.toInt⟩, h)

def grants (r : Region) (h : Heap) (incrs : List U32) : List Block :=
  (Runs.answers (grant r) h incrs).1.reduceOption

def Region.limit (r : Region) : ℤ := r.heapStop.toNat - 65536

structure Sound (r : Region) (bs : List Block) : Prop where
  inside : ∀ b ∈ bs, r.heapStart.toNat ≤ b.base ∧ b.stop ≤ r.limit
  disjoint : bs.Pairwise fun b c => Disjoint b.cells c.cells

/-! ## Refinement of the bump allocator -/

structure Breaks (r : Region) (h : Heap) (brk : ℤ) : Prop where
  lower : r.heapStart.toNat ≤ brk
  upper : brk ≤ r.limit
  heapEnd : ((if h.heapEnd = 0 then r.heapStart else h.heapEnd).toNat : ℤ) = brk

/-- What the C library gets for an answer of the bump allocator: the null
pointer stands for a refusal. -/
def Answers : Option Block → Option Block → Prop
  | o, some b => o = some b
  | o, none => ∃ n, o = some ⟨0, n⟩

theorem breaks_initial (r : Region) {h : Heap} (hh : h.heapEnd = 0) :
    Breaks r h r.heapStart.toNat := by
  refine ⟨le_refl _, ?_, by rw [if_pos hh]⟩
  have hreserve := r.reserve
  unfold Region.limit
  omega

/-- The sum of the check wraps for the increments that lead below address 0,
and then it is past the end of the heap. -/
theorem collides_iff {r : Region} {p incr : U32} (hp : (p.toNat : ℤ) ≤ r.limit) :
    p + stackBufferSize + incr > r.heapStop ↔
      ¬ (0 ≤ (p.toNat : ℤ) + 65536 + incr.toInt ∧ (p.toNat : ℤ) + incr.toInt ≤ r.limit) := by
  have hstop := r.stop_lt
  have hincr := incr.isLt
  have hbuffer : stackBufferSize.toNat = 65536 := rfl
  unfold Region.limit at hp ⊢
  rw [gt_iff_lt, BitVec.lt_def, BitVec.toNat_add, BitVec.toNat_add, hbuffer,
    BitVec.toInt_eq_toNat_cond]
  split <;> omega

theorem goldfishPutc_errno (c : U8) (w : World) : (goldfishPutc c w).errno = w.errno := by
  have hinit : ∀ w, (goldfishInit w).errno = w.errno := fun w =>
    debug_keeps (f := World.errno) (fun _ _ => rfl) { w with base := getbaseaddr }
  have hbase : (withBase w).errno = w.errno := withBase_keeps (f := World.errno) hinit w
  unfold goldfishPutc World.putc
  split
  · exact hbase
  · exact hbase

theorem putAll_errno (bytes : List U8) (w : World) : (putAll bytes w).errno = w.errno := by
  induction bytes generalizing w with
  | nil => rfl
  | cons c bytes ih => rw [putAll_cons, ih, goldfishPutc_errno]

section Calls

variable {r : Region} {h : Heap} {incr : U32}

theorem sbrk_granted (hb : ((breakOf r h).toNat : ℤ) ≤ r.limit)
    (hlow : 0 ≤ ((breakOf r h).toNat : ℤ) + 65536 + incr.toInt)
    (hroom : ((breakOf r h).toNat : ℤ) + incr.toInt ≤ r.limit) :
    sbrk r incr h = (breakOf r h, ⟨breakOf r h + incr, h.world⟩) :=
  if_neg fun hgt => (collides_iff hb).mp hgt ⟨hlow, hroom⟩

/-- The message of a refusal does not disturb the error number. -/
theorem sbrk_refused (hb : ((breakOf r h).toNat : ℤ) ≤ r.limit)
    (hnot : ¬ (0 ≤ ((breakOf r h).toNat : ℤ) + 65536 + incr.toInt ∧
      ((breakOf r h).toNat : ℤ) + incr.toInt ≤ r.limit)) :
    ∃ w, sbrk r incr h = (0, ⟨breakOf r h, w⟩) ∧ w.errno = enomem :=
  ⟨_, if_pos ((collides_iff hb).mpr hnot), putAll_errno sbrkMessage _⟩

end Calls

theorem Breaks.of_ne_zero {r : Region} {p : U32} {w : World} {brk : ℤ} (hp : (p.toNat : ℤ) = brk)
    (hlower : r.heapStart.toNat ≤ brk) (hupper : brk ≤ r.limit) : Breaks r ⟨p, w⟩ brk := by
  have hpos := r.start_pos
  have hne : p ≠ 0 := by
    rintro rfl
    change (0 : ℤ) = brk at hp
    omega
  exact ⟨hlower, hupper, by rw [if_neg hne, hp]⟩

-- stated of the function: applied to a request, `rfl` would evaluate `sbrk`
theorem grant_eq : grant = fun r h incr => match sbrk r incr h with
    | (p, h) => (if p = -1 then none else some ⟨p.toNat, incr.toInt⟩, h) := rfl

theorem grant_of_sbrk {r : Region} {h h' : Heap} {incr p : U32} (hsbrk : sbrk r incr h = (p, h'))
    (hp : p.toNat < 2 ^ 31) : grant r h incr = (some ⟨p.toNat, incr.toInt⟩, h') := by
  have hne : p ≠ -1 := by
    rintro rfl
    exact absurd hp (by decide)
  rw [grant_eq]
  beta_reduce
  rw [hsbrk]
  exact congrArg (fun o => (o, h')) (if_neg hne)

theorem grant_refines {r : Region} {h : Heap} {brk : ℤ} {incr : U32} (hb : Breaks r h brk)
    (hincr : 0 ≤ incr.toInt) :
    Answers (grant r h incr).1 (request r.limit brk incr.toInt).1 ∧
      Breaks r (grant r h incr).2 (request r.limit brk incr.toInt).2 := by
  have hbrk : ((breakOf r h).toNat : ℤ) = brk := hb.heapEnd
  have hlower := hb.lower
  have hupper := hb.upper
  have hlimit : r.limit < 2 ^ 31 := by
    have hstop := r.stop_lt
    unfold Region.limit
    omega
  by_cases hroom : brk + incr.toInt ≤ r.limit
  · have hsbrk := sbrk_granted (hbrk ▸ hupper) (by omega) (hbrk ▸ hroom)
    have hint : incr.toInt = incr.toNat :=
      BitVec.toInt_eq_toNat_of_lt (BitVec.toInt_pos_iff.mp hincr)
    have hsum : ((breakOf r h + incr).toNat : ℤ) = brk + incr.toInt := by
      rw [BitVec.toNat_add_of_lt (by omega), hint, ← hbrk, Nat.cast_add]
    rw [grant_of_sbrk hsbrk (by omega), request_granted hroom, hbrk]
    exact ⟨rfl, Breaks.of_ne_zero hsum (by omega) hroom⟩
  · obtain ⟨w, hsbrk, -⟩ := sbrk_refused (hbrk ▸ hupper) (fun hfits => hroom (hbrk ▸ hfits.2))
    rw [grant_of_sbrk hsbrk (by decide), request_refused hroom]
    exact ⟨⟨incr.toInt, rfl⟩, Breaks.of_ne_zero hbrk hlower hupper⟩

theorem answers_refine {r : Region} {h : Heap} {brk : ℤ} {incrs : List U32} (hb : Breaks r h brk)
    (hincrs : ∀ n ∈ incrs, 0 ≤ n.toInt) :
    List.Forall₂ Answers (Runs.answers (grant r) h incrs).1
      (Runs.answers (request r.limit) brk (incrs.map BitVec.toInt)).1 := by
  rw [← Runs.answers_map (request r.limit) BitVec.toInt]
  exact (Runs.answers_simulation (f := grant r) (Breaks r) (fun n : U32 => 0 ≤ n.toInt) Answers
    (fun _ _ _ hb hn => grant_refines hb hn) hb hincrs).1

theorem eq_of_answers {os ωs : List (Option Block)} (h : List.Forall₂ Answers os ωs)
    (hnone : none ∉ ωs) : os = ωs := by
  induction h with
  | nil => rfl
  | @cons o ω os ωs ho _ ih =>
      obtain ⟨hω, hωs⟩ := List.ne_and_not_mem_of_not_mem_cons hnone
      obtain ⟨b, rfl⟩ := Option.ne_none_iff_exists'.mp hω.symm
      rw [ih hωs]
      exact congrArg (· :: ωs) ho

theorem null_of_answers {os ωs : List (Option Block)} (h : List.Forall₂ Answers os ωs)
    (hnone : none ∈ ωs) : ∃ n, some ⟨0, n⟩ ∈ os := by
  induction h with
  | nil => cases hnone
  | @cons o ω os ωs ho _ ih =>
      rcases List.mem_cons.mp hnone with rfl | hmem
      · obtain ⟨n, rfl⟩ := ho
        exact ⟨n, List.mem_cons_self⟩
      · obtain ⟨n, hn⟩ := ih hmem
        exact ⟨n, List.mem_cons_of_mem o hn⟩

/-! ## Exhaustion -/

theorem sound_iff_total_fits (r : Region) (w : World) (incrs : List U32)
    (hincrs : ∀ n ∈ incrs, 0 ≤ n.toInt) :
    Sound r (grants r ⟨0, w⟩ incrs) ↔
      (incrs.map BitVec.toInt).sum ≤ r.limit - r.heapStart.toNat := by
  have hbreaks : Breaks r ⟨0, w⟩ r.heapStart.toNat := breaks_initial r rfl
  have hanswers := answers_refine hbreaks hincrs
  have hints : ∀ n ∈ incrs.map BitVec.toInt, 0 ≤ n := List.forall_mem_map.mpr hincrs
  have hrefused := refused_iff hints hbreaks.upper
  constructor
  · intro hsound
    by_contra hsum
    obtain ⟨n, hn⟩ := null_of_answers hanswers (hrefused.mpr (by omega))
    have hinside := (hsound.inside ⟨0, n⟩ (List.reduceOption_mem_iff.mpr hn)).1
    have hpos := r.start_pos
    simp only at hinside
    omega
  · intro hsum
    have heq := eq_of_answers hanswers (fun hmem => absurd (hrefused.mp hmem) (by omega))
    have hgrants : grants r ⟨0, w⟩ incrs =
        blocks r.limit r.heapStart.toNat (incrs.map BitVec.toInt) := by
      rw [grants, heq, blocks]
    rw [hgrants]
    exact ⟨blocks_within hints, blocks_disjoint hints⟩

def onePage : Region := ⟨0x10000#32, 0x21000#32, by decide, by decide, by decide⟩

def onePageHeap : Heap := ⟨0, .started [] fun _ => 0⟩

/-- Three blocks that fill the page. -/
theorem sound_iff_total_fits_onePage :
    Sound onePage (grants onePage onePageHeap [0x400#32, 0x800#32, 0x400#32]) :=
  (sound_iff_total_fits onePage _ [0x400#32, 0x800#32, 0x400#32] (by simp)).mpr (by decide)

/-- The request after the last page is answered with the null pointer. -/
theorem not_sound_exhausted : ¬ ∀ (r : Region) (w : World) (incrs : List U32),
    (∀ n ∈ incrs, 0 ≤ n.toInt) → Sound r (grants r ⟨0, w⟩ incrs) := by
  intro h
  have hsound := h onePage onePageHeap.world [0x1000#32, 1#32] (by simp)
  have hnull : (⟨0, 1⟩ : Block) ∈ grants onePage onePageHeap [0x1000#32, 1#32] := by decide
  exact absurd (hsound.inside _ hnull).1 (by decide)

end Goldfish.Syscalls
