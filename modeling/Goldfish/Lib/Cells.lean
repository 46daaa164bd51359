import Mathlib.Algebra.Order.Group.Nat
import Mathlib.Data.Fin.Basic

/-!
# Windows of a line of cells

Reading, writing and filling a run of consecutive cells, and a line of
cells cut into pages of one length: a window inside one page meets no cell
of another page.
-/

namespace Cells

variable {β : Type*}

def read (f : ℕ → β) (a n : ℕ) : List β := (List.range n).map fun i => f (a + i)

def write (f : ℕ → β) (a : ℕ) (cs : List β) : ℕ → β :=
  fun x => if a ≤ x then (cs[x - a]?).getD (f x) else f x

def fill (f : ℕ → β) (a n : ℕ) (c : β) : ℕ → β :=
  fun x => if a ≤ x ∧ x < a + n then c else f x

def readPart {n : ℕ} (f : Fin n → β) (a k : ℕ) : List β := ((List.ofFn f).drop a).take k

def writePart {n : ℕ} (f : Fin n → β) (a : ℕ) (cs : List β) : Fin n → β :=
  fun i => if a ≤ i.val then (cs[i.val - a]?).getD (f i) else f i

@[simp] theorem read_length (f : ℕ → β) (a n : ℕ) : (read f a n).length = n := by
  simp [read]

theorem write_outside (f : ℕ → β) {a x : ℕ} {cs : List β} (h : x < a ∨ a + cs.length ≤ x) :
    write f a cs x = f x := by
  unfold write
  split
  · rw [List.getElem?_eq_none (by omega), Option.getD_none]
  · rfl

theorem writePart_apply {n : ℕ} (f : Fin n → β) (a : ℕ) (cs : List β) (i : Fin n) :
    writePart f a cs i = (if a ≤ i.val then cs[i.val - a]? else none).getD (f i) := by
  unfold writePart
  split <;> rfl

theorem write_block (f : ℕ → β) {n base a : ℕ} {cs : List β} (i : Fin n) :
    write f (base + a) cs (base + i) = writePart (fun i : Fin n => f (base + i)) a cs i := by
  unfold write writePart
  by_cases h : a ≤ i.val
  · rw [if_pos (Nat.add_le_add_left h base), if_pos h, Nat.add_sub_add_left]
  · rw [if_neg (by omega), if_neg h]

theorem read_block (f : ℕ → β) {n a k : ℕ} (base : ℕ) (h : a + k ≤ n) :
    read f (base + a) k = readPart (fun i : Fin n => f (base + i)) a k := by
  refine List.ext_getElem ?_ ?_
  · simp only [read_length, readPart, List.length_take, List.length_drop, List.length_ofFn]
    omega
  · intro i hi hi'
    simp only [read, readPart, List.getElem_map, List.getElem_range, List.getElem_take,
      List.getElem_drop, List.getElem_ofFn, Nat.add_assoc]

/-! ## Pages -/

variable {size : ℕ}

def cellOf (size p x : ℕ) : ℕ := p * size + x

theorem cellOf_lt {p q x y : ℕ} (hpq : p < q) (hx : x < size) :
    cellOf size p x < cellOf size q y := by
  have hmul : (p + 1) * size ≤ q * size := Nat.mul_le_mul_right size hpq
  rw [Nat.succ_mul] at hmul
  unfold cellOf
  omega

/-- Writing a window of page `q` leaves the other pages as they are. -/
theorem write_other_page (f : ℕ → β) {p q x y : ℕ} {cs : List β} (hpq : p ≠ q) (hx : x < size)
    (hy : y + cs.length ≤ size) :
    write f (cellOf size q y) cs (cellOf size p x) = f (cellOf size p x) := by
  apply write_outside f
  rcases Nat.lt_or_gt_of_ne hpq with hlt | hgt
  · exact Or.inl (cellOf_lt hlt hx)
  · right
    have hmul : (q + 1) * size ≤ p * size := Nat.mul_le_mul_right size hgt
    rw [Nat.succ_mul] at hmul
    unfold cellOf
    omega

theorem fill_pages (f : ℕ → β) {p q k x : ℕ} (c : β) (hx : x < size) :
    fill f (cellOf size q 0) (k * size) c (cellOf size p x) =
      if q ≤ p ∧ p < q + k then c else f (cellOf size p x) := by
  have hiff : (cellOf size q 0 ≤ cellOf size p x ∧
      cellOf size p x < cellOf size q 0 + k * size) ↔ (q ≤ p ∧ p < q + k) := by
    have hend : cellOf size q 0 + k * size = cellOf size (q + k) 0 := by
      unfold cellOf
      rw [Nat.add_zero, Nat.add_zero, Nat.add_mul]
    rw [hend]
    constructor
    · rintro ⟨hlow, hhigh⟩
      constructor
      · by_contra hlt
        have := cellOf_lt (y := 0) (not_le.mp hlt) hx
        omega
      · by_contra hge
        have hmul : (q + k) * size ≤ p * size := Nat.mul_le_mul_right size (not_lt.mp hge)
        unfold cellOf at hhigh
        omega
    · rintro ⟨hlow, hhigh⟩
      refine ⟨?_, cellOf_lt hhigh hx⟩
      have hmul : q * size ≤ p * size := Nat.mul_le_mul_right size hlow
      unfold cellOf
      omega
  unfold fill
  simp only [hiff]

end Cells
