import Mathlib.Data.BitVec
import Mathlib.Tactic.Abel

/-!
# Runs of cells in a wrapping memory

A memory of `2 ^ w` cells is a function on its addresses. A run of cells
starts at an address and goes up from there, past the last address to the
first; the lemmas relate storing a run to loading it, and say what stays.
-/

namespace Memory

variable {w : ℕ} {β : Type*}

/-- The cells of `cs` stored from the address `p` on. -/
def store (m : BitVec w → β) (p : BitVec w) (cs : List β) : BitVec w → β :=
  fun a => (cs[(a - p).toNat]?).getD (m a)

def load (m : BitVec w → β) (p : BitVec w) (n : ℕ) : List β :=
  (List.range n).map fun i => m (p + BitVec.ofNat w i)

@[simp] theorem load_length (m : BitVec w → β) (p : BitVec w) (n : ℕ) :
    (load m p n).length = n := by
  simp [load]

@[simp] theorem load_getElem (m : BitVec w → β) (p : BitVec w) (n : ℕ) {i : ℕ}
    (h : i < (load m p n).length) : (load m p n)[i] = m (p + BitVec.ofNat w i) := by
  simp [load]

@[simp] theorem store_nil (m : BitVec w → β) (p : BitVec w) : store m p [] = m := rfl

theorem offset_toNat (p : BitVec w) {i : ℕ} (h : i < 2 ^ w) :
    (p + BitVec.ofNat w i - p).toNat = i := by
  rw [add_sub_cancel_left, BitVec.toNat_ofNat, Nat.mod_eq_of_lt h]

theorem toNat_sub_one_add_one {a : BitVec w} (h : a ≠ 0) : (a - 1).toNat + 1 = a.toNat := by
  have hpos : a.toNat ≠ 0 := fun h0 => h (BitVec.eq_of_toNat_eq h0)
  have hlt := a.isLt
  have hone : (1#w).toNat = 1 := by
    rw [BitVec.toNat_ofNat]
    exact Nat.mod_eq_of_lt (by omega)
  have hsub : (a - 1#w).toNat = a.toNat - 1 := by
    rw [BitVec.toNat_sub_of_le (by rw [BitVec.le_def, hone]; omega), hone]
  change (a - 1#w).toNat + 1 = a.toNat
  omega

theorem store_outside (m : BitVec w → β) {p a : BitVec w} {cs : List β}
    (h : cs.length ≤ (a - p).toNat) : store m p cs a = m a := by
  rw [store, List.getElem?_eq_none h, Option.getD_none]

theorem load_store (m : BitVec w → β) (p : BitVec w) {cs : List β} (h : cs.length ≤ 2 ^ w) :
    load (store m p cs) p cs.length = cs := by
  apply List.ext_getElem (by simp)
  intro i _ hi
  simp only [load, List.getElem_map, List.getElem_range, store]
  rw [offset_toNat p (hi.trans_le h), List.getElem?_eq_getElem hi, Option.getD_some]

theorem store_singleton (m : BitVec w → β) (p : BitVec w) (c : β) :
    store m p [c] = Function.update m p c := by
  funext a
  by_cases ha : a = p
  · rw [ha, Function.update_self, store, sub_self]
    rfl
  · have hpos : [c].length ≤ (a - p).toNat := by
      rw [List.length_singleton, Nat.one_le_iff_ne_zero]
      intro hzero
      exact ha (sub_eq_zero.mp (BitVec.eq_of_toNat_eq hzero))
    rw [Function.update_of_ne ha, store_outside m hpos]

theorem sub_toNat_of_le {p a : BitVec w} (h : p.toNat ≤ a.toNat) :
    (a - p).toNat = a.toNat - p.toNat :=
  BitVec.toNat_sub_of_le (BitVec.le_def.mpr h)

theorem sub_toNat_of_lt {p a : BitVec w} (h : a.toNat < p.toNat) :
    (a - p).toNat = 2 ^ w - p.toNat + a.toNat := by
  have hp := p.isLt
  rw [BitVec.toNat_sub, Nat.mod_eq_of_lt (by omega)]

theorem store_append (m : BitVec w → β) (p : BitVec w) {cs ds : List β}
    (h : cs.length + ds.length ≤ 2 ^ w) :
    store (store m p cs) (p + BitVec.ofNat w cs.length) ds = store m p (cs ++ ds) := by
  funext a
  rcases Nat.eq_zero_or_pos ds.length with hnil | hpos
  · rw [List.length_eq_zero_iff.mp hnil, store_nil, List.append_nil]
  have hlen : (BitVec.ofNat w cs.length).toNat = cs.length := by
    rw [BitVec.toNat_ofNat, Nat.mod_eq_of_lt (by omega)]
  have hsub : a - (p + BitVec.ofNat w cs.length) = a - p - BitVec.ofNat w cs.length := by abel
  rcases Nat.lt_or_ge (a - p).toNat cs.length with hin | hout
  · have hfar : (a - p - BitVec.ofNat w cs.length).toNat = 2 ^ w - cs.length + (a - p).toNat := by
      rw [sub_toNat_of_lt (by omega), hlen]
    rw [store_outside _ (by rw [hsub, hfar]; omega), store, store, List.getElem?_append_left hin]
  · have hoff : (a - p - BitVec.ofNat w cs.length).toNat = (a - p).toNat - cs.length := by
      rw [sub_toNat_of_le (by omega), hlen]
    rw [store, hsub, hoff, store_outside m hout, store, List.getElem?_append_right hout]

theorem store_cons (m : BitVec w → β) (p : BitVec w) (c : β) {cs : List β}
    (h : cs.length + 1 ≤ 2 ^ w) :
    store (Function.update m p c) (p + 1) cs = store m p (c :: cs) := by
  have hlength : [c].length + cs.length ≤ 2 ^ w := by
    rw [List.length_singleton]
    omega
  rw [← store_singleton]
  exact store_append m p hlength

theorem store_concat (m : BitVec w → β) (p : BitVec w) {cs : List β} (c : β)
    (h : cs.length < 2 ^ w) :
    Function.update (store m p cs) (p + BitVec.ofNat w cs.length) c = store m p (cs ++ [c]) := by
  rw [← store_singleton]
  exact store_append m p h

/-- Stored from the end down. -/
theorem store_before (m : BitVec w → β) (p : BitVec w) (c : β) (cs : List β) :
    store (store m (p + 1) cs) p [c] = store m p (c :: cs) := by
  rw [store_singleton]
  funext a
  by_cases ha : a = p
  · rw [ha, Function.update_self, store, sub_self]
    rfl
  · have hne : a - p ≠ 0 := fun hzero => ha (sub_eq_zero.mp hzero)
    have hsucc := toNat_sub_one_add_one hne
    have hnext : a - (p + 1) = a - p - 1 := sub_add_eq_sub_sub a p 1
    rw [Function.update_of_ne ha, store, store, hnext, ← hsucc, List.getElem?_cons_succ]

theorem store_getElem (m : BitVec w → β) (p : BitVec w) {cs : List β} (hlen : cs.length ≤ 2 ^ w)
    {i : ℕ} (hi : i < cs.length) : store m p cs (p + BitVec.ofNat w i) = cs[i] := by
  rw [store, offset_toNat p (hi.trans_le hlen), List.getElem?_eq_getElem hi, Option.getD_some]

theorem load_succ (m : BitVec w → β) (p : BitVec w) (n : ℕ) :
    load m p (n + 1) = load m p n ++ [m (p + BitVec.ofNat w n)] := by
  rw [load, List.range_succ, List.map_append]
  rfl

theorem load_cons (m : BitVec w → β) (p : BitVec w) (n : ℕ) :
    load m p (n + 1) = m p :: load m (p + 1) n := by
  have hfirst : p + BitVec.ofNat w 0 = p := add_zero p
  have hrest : ∀ i, p + BitVec.ofNat w (i + 1) = p + 1 + BitVec.ofNat w i := by
    intro i
    rw [Nat.add_comm i 1, BitVec.ofNat_add, ← add_assoc]
    rfl
  rw [load, List.range_succ_eq_map, List.map_cons, List.map_map, hfirst, load]
  exact congrArg _ (List.map_congr_left fun i _ => congrArg m (hrest i))

theorem load_congr {m m' : BitVec w → β} {p : BitVec w} {n : ℕ}
    (h : ∀ i < n, m (p + BitVec.ofNat w i) = m' (p + BitVec.ofNat w i)) :
    load m p n = load m' p n :=
  List.map_congr_left fun i hi => h i (List.mem_range.mp hi)

/-! ## Runs that do not wrap -/

theorem add_ofNat_toNat {p : BitVec w} {i : ℕ} (h : p.toNat + i < 2 ^ w) :
    (p + BitVec.ofNat w i).toNat = p.toNat + i := by
  rw [BitVec.toNat_add, BitVec.toNat_ofNat, Nat.mod_eq_of_lt (show i < 2 ^ w by omega),
    Nat.mod_eq_of_lt h]

/-- An address off an interval is at least its length away from the start. -/
theorem le_sub_toNat {p a : BitVec w} {n : ℕ} (hfit : p.toNat + n ≤ 2 ^ w)
    (ha : a.toNat ∉ Set.Ico p.toNat (p.toNat + n)) : n ≤ (a - p).toNat := by
  rw [Set.mem_Ico, not_and, not_lt] at ha
  rcases Nat.lt_or_ge a.toNat p.toNat with hlt | hge
  · rw [sub_toNat_of_lt hlt]
    omega
  · have hpast := ha hge
    rw [sub_toNat_of_le hge]
    omega

theorem store_of_notMem (m : BitVec w → β) {p a : BitVec w} {cs : List β} {n : ℕ}
    (hlen : cs.length ≤ n) (hfit : p.toNat + n ≤ 2 ^ w)
    (ha : a.toNat ∉ Set.Ico p.toNat (p.toNat + n)) : store m p cs a = m a :=
  store_outside m (hlen.trans (le_sub_toNat hfit ha))

theorem store_replicate (m : BitVec w → β) {p a : BitVec w} {n : ℕ} (c : β)
    (ha : a.toNat ∈ Set.Ico p.toNat (p.toNat + n)) : store m p (List.replicate n c) a = c := by
  obtain ⟨hle, hlt⟩ := Set.mem_Ico.mp ha
  rw [store, sub_toNat_of_le hle, List.getElem?_replicate_of_lt (by omega), Option.getD_some]

end Memory
