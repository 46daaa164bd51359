import Goldfish.Nand.Flash

/-!
# Pages of data and spare bytes

What the driver is for: a store that has, for each page number, the data
bytes and the spare bytes of the page. It lies in the raw flash page by
page, the spare bytes behind the data.
-/

namespace Goldfish.Nand

@[ext] structure Page (W O : ℕ) where
  data : Fin W → U8
  spare : Fin O → U8

abbrev Store (W O : ℕ) := ℕ → Page W O

variable {W O : ℕ}

def Page.erased : Page W O := ⟨fun _ => 0xff#8, fun _ => 0xff#8⟩

def Store.writeData (s : Store W O) (p : ℕ) (bs : List U8) : Store W O :=
  Function.update s p { s p with data := Cells.writePart (s p).data 0 bs }

def Store.writeSpare (s : Store W O) (p off : ℕ) (bs : List U8) : Store W O :=
  Function.update s p { s p with spare := Cells.writePart (s p).spare off bs }

def Store.erase (s : Store W O) (p k : ℕ) : Store W O :=
  fun q => if p ≤ q ∧ q < p + k then .erased else s q

theorem Store.erase_zero (s : Store W O) (p : ℕ) : s.erase p 0 = s := by
  funext q
  exact if_neg (by omega)

/-! ## Single bytes -/

section Bytes

variable (s : Store W O) (p q off k : ℕ) (bs : List U8)

theorem Store.writeData_data (i : Fin W) :
    (s.writeData p bs q).data i = (if p = q then bs[i.val]? else none).getD ((s q).data i) := by
  by_cases hq : p = q
  · subst hq
    rw [Store.writeData, Function.update_self, if_pos rfl]
    dsimp only
    rw [Cells.writePart_apply, if_pos (Nat.zero_le _), Nat.sub_zero]
  · rw [Store.writeData, Function.update_of_ne (Ne.symm hq), if_neg hq, Option.getD_none]

theorem Store.writeData_spare : (s.writeData p bs q).spare = (s q).spare := by
  by_cases hq : q = p
  · subst hq
    rw [Store.writeData, Function.update_self]
  · rw [Store.writeData, Function.update_of_ne hq]

theorem Store.writeSpare_data : (s.writeSpare p off bs q).data = (s q).data := by
  by_cases hq : q = p
  · subst hq
    rw [Store.writeSpare, Function.update_self]
  · rw [Store.writeSpare, Function.update_of_ne hq]

theorem Store.writeSpare_spare (i : Fin O) :
    (s.writeSpare p off bs q).spare i =
      (if p = q ∧ off ≤ i.val then bs[i.val - off]? else none).getD ((s q).spare i) := by
  by_cases hq : p = q
  · subst hq
    rw [Store.writeSpare, Function.update_self]
    simp only [Cells.writePart_apply, true_and]
  · rw [Store.writeSpare, Function.update_of_ne (Ne.symm hq), if_neg fun hboth => hq hboth.1,
      Option.getD_none]

theorem Store.erase_data (i : Fin W) :
    (s.erase p k q).data i =
      (if p ≤ q ∧ q < p + k then some 0xff#8 else none).getD ((s q).data i) := by
  unfold Store.erase
  split <;> rfl

theorem Store.erase_spare (i : Fin O) :
    (s.erase p k q).spare i =
      (if p ≤ q ∧ q < p + k then some 0xff#8 else none).getD ((s q).spare i) := by
  unfold Store.erase
  split <;> rfl

end Bytes

/-! ## Pages in raw cells -/

def dataCell (W O p : ℕ) : ℕ := Cells.cellOf (W + O) p 0

def spareCell (W O p : ℕ) : ℕ := Cells.cellOf (W + O) p W

def pagesOf (W O : ℕ) (raw : ℕ → U8) : Store W O := fun p =>
  { data := fun i => raw (dataCell W O p + i)
    spare := fun i => raw (spareCell W O p + i) }

theorem dataCell_add (W O p x : ℕ) : dataCell W O p + x = Cells.cellOf (W + O) p x := by
  simp only [dataCell, Cells.cellOf, Nat.add_zero]

theorem spareCell_add (W O p x : ℕ) : spareCell W O p + x = Cells.cellOf (W + O) p (W + x) := by
  simp only [spareCell, Cells.cellOf, Nat.add_assoc]

theorem pagesOf_writeData (raw : ℕ → U8) (p : ℕ) {bs : List U8} (h : bs.length ≤ W) :
    pagesOf W O (Cells.write raw (dataCell W O p) bs) = (pagesOf W O raw).writeData p bs := by
  funext q
  by_cases hq : q = p
  · subst hq
    rw [Store.writeData, Function.update_self]
    refine Page.ext ?_ ?_
    · funext i
      exact Cells.write_block raw i
    · funext i
      refine Cells.write_outside raw (Or.inr ?_)
      rw [dataCell_add, spareCell_add]
      unfold Cells.cellOf
      omega
  · rw [Store.writeData, Function.update_of_ne hq]
    have hcell : dataCell W O p = Cells.cellOf (W + O) p 0 := rfl
    refine Page.ext ?_ ?_
    · funext i
      change Cells.write raw _ bs (dataCell W O q + i) = raw (dataCell W O q + i)
      rw [dataCell_add, hcell]
      exact Cells.write_other_page raw hq (by omega) (by omega)
    · funext i
      change Cells.write raw _ bs (spareCell W O q + i) = raw (spareCell W O q + i)
      rw [spareCell_add, hcell]
      exact Cells.write_other_page raw hq (by omega) (by omega)

theorem pagesOf_writeSpare (raw : ℕ → U8) (p : ℕ) {off : ℕ} {bs : List U8}
    (h : off + bs.length ≤ O) :
    pagesOf W O (Cells.write raw (spareCell W O p + off) bs) =
      (pagesOf W O raw).writeSpare p off bs := by
  funext q
  by_cases hq : q = p
  · subst hq
    rw [Store.writeSpare, Function.update_self]
    refine Page.ext ?_ ?_
    · funext i
      refine Cells.write_outside raw (Or.inl ?_)
      rw [dataCell_add, spareCell_add]
      unfold Cells.cellOf
      omega
    · funext i
      exact Cells.write_block raw i
  · rw [Store.writeSpare, Function.update_of_ne hq]
    refine Page.ext ?_ ?_
    · funext i
      change Cells.write raw _ bs (dataCell W O q + i) = raw (dataCell W O q + i)
      rw [dataCell_add, spareCell_add]
      exact Cells.write_other_page raw hq (by omega) (by omega)
    · funext i
      change Cells.write raw _ bs (spareCell W O q + i) = raw (spareCell W O q + i)
      rw [spareCell_add, spareCell_add]
      exact Cells.write_other_page raw hq (by omega) (by omega)

theorem pagesOf_erase (raw : ℕ → U8) (p k : ℕ) :
    pagesOf W O (Cells.fill raw (dataCell W O p) (k * (W + O)) 0xff#8) =
      (pagesOf W O raw).erase p k := by
  funext q
  have hfill : ∀ x < W + O, Cells.fill raw (dataCell W O p) (k * (W + O)) 0xff#8
      (Cells.cellOf (W + O) q x) =
        if p ≤ q ∧ q < p + k then 0xff#8 else raw (Cells.cellOf (W + O) q x) :=
    fun x hx => Cells.fill_pages raw 0xff#8 hx
  unfold Store.erase
  refine Page.ext ?_ ?_
  · funext i
    change Cells.fill raw _ _ _ (dataCell W O q + i) = _
    rw [dataCell_add, hfill i (by omega)]
    split
    · rfl
    · rw [← dataCell_add]
      rfl
  · funext i
    change Cells.fill raw _ _ _ (spareCell W O q + i) = _
    rw [spareCell_add, hfill (W + i) (by omega)]
    split
    · rfl
    · rw [← spareCell_add]
      rfl

end Goldfish.Nand
