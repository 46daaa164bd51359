import Mathlib.Computability.StateTransition

/-!
# Machines without input

Such a machine goes from state to state until it stops, if it does. What is
proved of its programs is that from the states of one predicate it comes to
a state of another; these facts compose, and a loop with a count is one
induction.
-/

namespace Machine

open StateTransition

variable {σ : Type*} {step : σ → Option σ} {P Q R : σ → Prop}

/-- From every state of `P` the machine comes to a state of `Q`. -/
def Leads (step : σ → Option σ) (P Q : σ → Prop) : Prop :=
  ∀ s, P s → ∃ t, Reaches step s t ∧ Q t

theorem Leads.trans (hPQ : Leads step P Q) (hQR : Leads step Q R) : Leads step P R := by
  intro s hs
  obtain ⟨t, hst, ht⟩ := hPQ s hs
  obtain ⟨u, htu, hu⟩ := hQR t ht
  exact ⟨u, Relation.ReflTransGen.trans hst htu, hu⟩

/-- A loop whose rounds count down comes to its last state from every count. -/
theorem Leads.countdown {I : ℕ → σ → Prop} (hround : ∀ n, Leads step (I (n + 1)) (I n)) (n : ℕ) :
    Leads step (I n) (I 0) := by
  induction n with
  | zero => exact fun s hs => ⟨s, Relation.ReflTransGen.refl, hs⟩
  | succ n ih => exact (hround n).trans ih

/-- A machine that comes to where it stops has one last state. -/
theorem Leads.exists_eval (h : Leads step P Q) (hstop : ∀ t, Q t → step t = none) {s : σ}
    (hs : P s) : ∃ t, eval step s = Part.some t ∧ Q t := by
  obtain ⟨t, hst, ht⟩ := h s hs
  exact ⟨t, Part.eq_some_iff.mpr (mem_eval.mpr ⟨hst, hstop t ht⟩), ht⟩

end Machine
