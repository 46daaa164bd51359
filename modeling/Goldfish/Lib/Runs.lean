import Mathlib.Data.List.Basic

/-!
# Runs of event-driven machines

A machine is a partial step function: an event that is not enabled in a
state has no successor there. An interleaving is a list of events, and
everything below is an induction on that list, done once. Machines that
answer every input are the second half; their runs collect the answers.
-/

namespace Runs

variable {σ τ ε δ ι ο ω : Type*}

/-- Replay events from a state. A run that meets a disabled event does not exist. -/
def run (step : σ → ε → Option σ) (s : σ) : List ε → Option σ
  | [] => some s
  | e :: es => (step s e).bind fun t => run step t es

@[simp] theorem run_nil (step : σ → ε → Option σ) (s : σ) : run step s [] = some s := rfl

theorem run_cons_iff {step : σ → ε → Option σ} {s u : σ} {e : ε} {es : List ε} :
    run step s (e :: es) = some u ↔ ∃ t, step s e = some t ∧ run step t es = some u := by
  simp [run, Option.bind_eq_some_iff]

theorem run_append_iff {step : σ → ε → Option σ} {s u : σ} {es fs : List ε} :
    run step s (es ++ fs) = some u ↔
      ∃ t, run step s es = some t ∧ run step t fs = some u := by
  induction es generalizing s with
  | nil => simp
  | cons e es ih =>
      simp only [List.cons_append, run_cons_iff, ih]
      constructor
      · rintro ⟨t, ht, v, hv, hu⟩
        exact ⟨v, ⟨t, ht, hv⟩, hu⟩
      · rintro ⟨v, ⟨t, ht, hv⟩, hu⟩
        exact ⟨t, ht, v, hv, hu⟩

def Meets (step : σ → ε → Option σ) (ok : σ → ε → Prop) (s : σ) : List ε → Prop
  | [] => True
  | e :: es => ok s e ∧ ∀ t, step s e = some t → Meets step ok t es

instance Meets.decidable (step : σ → ε → Option σ) (ok : σ → ε → Prop)
    [∀ s e, Decidable (ok s e)] : ∀ s es, Decidable (Meets step ok s es)
  | _, [] => isTrue trivial
  | s, e :: es =>
      match h : step s e with
      | none => decidable_of_iff (ok s e) (by simp [Meets, h])
      | some t =>
          have := Meets.decidable step ok t es
          decidable_of_iff (ok s e ∧ Meets step ok t es) (by simp [Meets, h])

theorem Meets.of_forall_mem {step : σ → ε → Option σ} {ok : σ → ε → Prop} {es : List ε}
    (h : ∀ e ∈ es, ∀ s, ok s e) (s : σ) : Meets step ok s es := by
  induction es generalizing s with
  | nil => trivial
  | cons e es ih =>
      exact ⟨h e List.mem_cons_self s,
        fun t _ => ih (fun e' he' => h e' (List.mem_cons_of_mem e he')) t⟩

theorem Meets.of_forall {step : σ → ε → Option σ} {ok : σ → ε → Prop}
    (h : ∀ s e, ok s e) (s : σ) (es : List ε) : Meets step ok s es :=
  Meets.of_forall_mem (fun e _ s => h s e) s

/-- An invariant kept by every event that meets `ok` holds at the end of
every run whose events all do. -/
theorem invariant_of_meets {step : σ → ε → Option σ} {ok : σ → ε → Prop} {I : σ → Prop}
    (hstep : ∀ s e t, I s → ok s e → step s e = some t → I t)
    {s t : σ} {es : List ε} (hs : I s) (hok : Meets step ok s es)
    (h : run step s es = some t) : I t := by
  induction es generalizing s with
  | nil => exact Option.some.inj h ▸ hs
  | cons e es ih =>
      obtain ⟨u, hu, ht⟩ := run_cons_iff.mp h
      exact ih (hstep s e u hs hok.1 hu) (hok.2 u hu) ht

theorem invariant {step : σ → ε → Option σ} {I : σ → Prop}
    (hstep : ∀ s e t, I s → step s e = some t → I t)
    {s t : σ} {es : List ε} (hs : I s) (h : run step s es = some t) : I t :=
  have hok : Meets step (fun _ _ => True) s es := Meets.of_forall (fun _ _ => trivial) s es
  invariant_of_meets (fun s e t hI _ => hstep s e t hI) hs hok h

theorem run_exists {step : σ → ε → Option σ} {I : σ → Prop} {es : List ε}
    (hstep : ∀ e ∈ es, ∀ s, I s → ∃ t, step s e = some t ∧ I t) {s : σ} (hs : I s) :
    ∃ t, run step s es = some t ∧ I t := by
  induction es generalizing s with
  | nil => exact ⟨s, rfl, hs⟩
  | cons e es ih =>
      obtain ⟨u, hu, hIu⟩ := hstep e List.mem_cons_self s hs
      obtain ⟨t, ht, hIt⟩ := ih (fun e' he' => hstep e' (List.mem_cons_of_mem e he')) hIu
      exact ⟨t, run_cons_iff.mpr ⟨u, hu, ht⟩, hIt⟩

/-! ## Machines that answer every input -/

def answers (f : σ → ι → ο × σ) (s : σ) : List ι → List ο × σ
  | [] => ([], s)
  | i :: is => ((f s i).1 :: (answers f (f s i).2 is).1, (answers f (f s i).2 is).2)

@[simp] theorem answers_nil (f : σ → ι → ο × σ) (s : σ) : answers f s [] = ([], s) := rfl

@[simp] theorem answers_cons (f : σ → ι → ο × σ) (s : σ) (i : ι) (is : List ι) :
    answers f s (i :: is) =
      ((f s i).1 :: (answers f (f s i).2 is).1, (answers f (f s i).2 is).2) := rfl

theorem answers_append (f : σ → ι → ο × σ) (s : σ) (is js : List ι) :
    answers f s (is ++ js) =
      ((answers f s is).1 ++ (answers f (answers f s is).2 js).1,
        (answers f (answers f s is).2 js).2) := by
  induction is generalizing s with
  | nil => rfl
  | cons i is ih => simp [ih]

theorem answers_map (f : σ → ι → ο × σ) (g : δ → ι) (s : σ) (is : List δ) :
    answers (fun s i => f s (g i)) s is = answers f s (is.map g) := by
  induction is generalizing s with
  | nil => rfl
  | cons i is ih => rw [List.map_cons, answers_cons, answers_cons, ih]

def lastPut (put : ι → Option δ) : List ι → Option δ
  | [] => none
  | i :: is => (lastPut put is).or (put i)

/-- A place that changes only when an input puts something there holds what
the last such input has put. -/
theorem answers_lastPut {f : σ → ι → ο × σ} {g : σ → δ} {put : ι → Option δ}
    (hstep : ∀ s i, g (f s i).2 = (put i).getD (g s)) (s : σ) (is : List ι) :
    g (answers f s is).2 = (lastPut put is).getD (g s) := by
  induction is generalizing s with
  | nil => rfl
  | cons i is ih => rw [answers_cons, ih, hstep, lastPut, Option.getD_or]

/-- Forward simulation: related states stay related and give matching
answers on every list of inputs of the domain `D`. -/
theorem answers_simulation {f : σ → ι → ο × σ} {g : τ → ι → ω × τ}
    (R : σ → τ → Prop) (D : ι → Prop) (M : ο → ω → Prop)
    (hstep : ∀ s t i, R s t → D i → M (f s i).1 (g t i).1 ∧ R (f s i).2 (g t i).2)
    {s : σ} {t : τ} (hR : R s t) {is : List ι} (hD : ∀ i ∈ is, D i) :
    List.Forall₂ M (answers f s is).1 (answers g t is).1 ∧
      R (answers f s is).2 (answers g t is).2 := by
  induction is generalizing s t with
  | nil => exact ⟨.nil, hR⟩
  | cons i is ih =>
      obtain ⟨hM, hR'⟩ := hstep s t i hR (hD i (by simp))
      obtain ⟨hMs, hRs⟩ := ih hR' fun j hj => hD j (List.mem_cons_of_mem i hj)
      exact ⟨.cons hM hMs, hRs⟩

end Runs
