import Goldfish.Lib.Runs
import Mathlib.Algebra.Order.BigOperators.Group.List
import Mathlib.Data.List.ReduceOption
import Mathlib.Order.CompletePartialOrder
import Mathlib.Order.Interval.Set.Disjoint
import Mathlib.Order.Interval.Set.OrdConnectedLinear

/-!
# The bump allocator

Blocks are cut from one end of an interval: a request moves the break up
when the new break stays within the limit and changes nothing when not.
Blocks granted one after the other lie between the break before and the
limit, each above the one before it.
-/

namespace Bump

structure Block where
  base : ℤ
  size : ℤ
  deriving DecidableEq

def Block.stop (b : Block) : ℤ := b.base + b.size

def Block.cells (b : Block) : Set ℤ := Set.Ico b.base b.stop

def request (limit brk n : ℤ) : Option Block × ℤ :=
  if brk + n ≤ limit then (some ⟨brk, n⟩, brk + n) else (none, brk)

def blocks (limit brk : ℤ) (ns : List ℤ) : List Block :=
  (Runs.answers (request limit) brk ns).1.reduceOption

variable {limit brk : ℤ} {ns : List ℤ}

theorem request_granted {n : ℤ} (h : brk + n ≤ limit) :
    request limit brk n = (some ⟨brk, n⟩, brk + n) := if_pos h

theorem request_refused {n : ℤ} (h : ¬ brk + n ≤ limit) :
    request limit brk n = (none, brk) := if_neg h

theorem blocks_granted {n : ℤ} (h : brk + n ≤ limit) :
    blocks limit brk (n :: ns) = ⟨brk, n⟩ :: blocks limit (brk + n) ns := by
  rw [blocks, Runs.answers_cons, request_granted h, List.reduceOption_cons_of_some, blocks]

theorem blocks_refused {n : ℤ} (h : ¬ brk + n ≤ limit) :
    blocks limit brk (n :: ns) = blocks limit brk ns := by
  rw [blocks, Runs.answers_cons, request_refused h, List.reduceOption_cons_of_none, blocks]

theorem blocks_within (hns : ∀ n ∈ ns, 0 ≤ n) :
    ∀ b ∈ blocks limit brk ns, brk ≤ b.base ∧ b.stop ≤ limit := by
  induction ns generalizing brk with
  | nil => exact nofun
  | cons n ns ih =>
      obtain ⟨hn, hns⟩ := List.forall_mem_cons.mp hns
      by_cases h : brk + n ≤ limit
      · rw [blocks_granted h]
        refine List.forall_mem_cons.mpr ⟨⟨le_refl brk, h⟩, ?_⟩
        intro b hb
        obtain ⟨hbase, hstop⟩ := ih hns b hb
        exact ⟨by omega, hstop⟩
      · rw [blocks_refused h]
        exact ih hns

theorem blocks_disjoint (hns : ∀ n ∈ ns, 0 ≤ n) :
    (blocks limit brk ns).Pairwise fun b c => Disjoint b.cells c.cells := by
  induction ns generalizing brk with
  | nil => exact .nil
  | cons n ns ih =>
      obtain ⟨-, hns⟩ := List.forall_mem_cons.mp hns
      by_cases h : brk + n ≤ limit
      · rw [blocks_granted h]
        refine List.pairwise_cons.mpr ⟨?_, ih hns⟩
        intro b hb
        have hbase := (blocks_within hns b hb).1
        rw [Block.cells, Block.cells, Set.Ico_disjoint_Ico]
        exact (min_le_left _ _).trans (hbase.trans (le_max_right _ _))
      · rw [blocks_refused h]
        exact ih hns

/-- A list of requests is granted whole as long as its sum fits. -/
theorem refused_iff (hns : ∀ n ∈ ns, 0 ≤ n) (hbrk : brk ≤ limit) :
    none ∈ (Runs.answers (request limit) brk ns).1 ↔ limit < brk + ns.sum := by
  induction ns generalizing brk with
  | nil => simp [hbrk]
  | cons n ns ih =>
      obtain ⟨hn, hns⟩ := List.forall_mem_cons.mp hns
      have hsum := List.sum_nonneg hns
      rw [Runs.answers_cons, List.sum_cons]
      by_cases h : brk + n ≤ limit
      · rw [request_granted h, List.mem_cons, ih hns h]
        simp only [reduceCtorEq, false_or]
        omega
      · rw [request_refused h]
        simp only [List.mem_cons, true_or, true_iff]
        omega

end Bump
