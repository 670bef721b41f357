import Mathlib.Data.List.Infix

/-!
# Runs of event systems

A system of concurrent parties is a step function: what an event makes of a
state, and `none` where the event cannot happen. An interleaving is a list of
events, and `run` is the state it leads to, if there is one. Invariants are
proved over the last event of a run.
-/
namespace KisLinux.EventRun

variable {σ ε : Type*} {step : σ → ε → Option σ} {s t u : σ} {e : ε} {es : List ε}

def run (step : σ → ε → Option σ) : σ → List ε → Option σ
  | s, [] => some s
  | s, e :: es => (step s e).bind fun t => run step t es

@[simp] theorem run_nil (step : σ → ε → Option σ) (s : σ) : run step s [] = some s := rfl

theorem run_cons : run step s (e :: es) = some u ↔ ∃ t, step s e = some t ∧ run step t es = some u :=
  Option.bind_eq_some_iff

theorem run_append {es' : List ε} :
    run step s (es ++ es') = some u ↔ ∃ t, run step s es = some t ∧ run step t es' = some u := by
  induction es generalizing s with
  | nil => simp
  | cons e es ih =>
    rw [List.cons_append, run_cons]
    constructor
    · rintro ⟨t, ht, hrun⟩
      obtain ⟨v, hv, hrest⟩ := ih.mp hrun
      exact ⟨v, run_cons.mpr ⟨t, ht, hv⟩, hrest⟩
    · rintro ⟨v, hv, hrest⟩
      obtain ⟨t, ht, hrun⟩ := run_cons.mp hv
      exact ⟨t, ht, ih.mpr ⟨v, hrun, hrest⟩⟩

theorem run_snoc :
    run step s (es ++ [e]) = some u ↔ ∃ t, run step s es = some t ∧ step t e = some u := by
  rw [run_append]
  simp only [run_cons, run_nil, Option.some.injEq, exists_eq_right]

/-- A property of histories and states that every event keeps. -/
theorem run_induction {motive : List ε → σ → Prop} (nil : motive [] s)
    (snoc : ∀ es t e u, run step s es = some t → motive es t → step t e = some u →
      motive (es ++ [e]) u)
    (h : run step s es = some t) : motive es t := by
  induction es using List.reverseRecOn generalizing t with
  | nil =>
    obtain rfl := Option.some.inj h
    exact nil
  | append_singleton es e ih =>
    obtain ⟨v, hv, hstep⟩ := run_snoc.mp h
    exact snoc es v e t hv (ih hv) hstep

/-- A property of states that every event keeps. -/
theorem run_invariant {P : σ → Prop} (hstep : ∀ t e u, P t → step t e = some u → P u)
    (hs : P s) (h : run step s es = some t) : P t :=
  run_induction (motive := fun _ t => P t) hs (fun _ t e u _ ht hu => hstep t e u ht hu) h

/-- A run of one system matched event by event in another one: each event by a
list of events, which may be empty. -/
theorem run_simulates {τ ε' : Type*} {step' : τ → ε' → Option τ} {R : σ → τ → Prop}
    {M : ε → List ε' → Prop}
    (hstep : ∀ e ∈ es, ∀ s v t, R s v → step s e = some t →
      ∃ es' w, M e es' ∧ run step' v es' = some w ∧ R t w)
    {v : τ} (hR : R s v) (h : run step s es = some t) :
    ∃ ess w, List.Forall₂ M es ess ∧ run step' v ess.flatten = some w ∧ R t w := by
  induction es generalizing s v with
  | nil =>
    obtain rfl := Option.some.inj h
    exact ⟨[], v, .nil, rfl, hR⟩
  | cons e es ih =>
    obtain ⟨s₁, hs₁, hrest⟩ := run_cons.mp h
    obtain ⟨hfirst, hmore⟩ := List.forall_mem_cons.mp hstep
    obtain ⟨es', v₁, hmatch, hv₁, hR₁⟩ := hfirst s v s₁ hR hs₁
    obtain ⟨ess, w, hmatches, hw, hRw⟩ := ih hmore hR₁ hrest
    exact ⟨es' :: ess, w, .cons hmatch hmatches, run_append.mpr ⟨v₁, hv₁, hw⟩, hRw⟩

/-- In the run `es` from `s`, the event `e` happened in a state with the property `P`. -/
def HappenedIn (step : σ → ε → Option σ) (P : σ → Prop) (e : ε) (s : σ) (es : List ε) : Prop :=
  ∃ before after t, es = before ++ e :: after ∧ run step s before = some t ∧ P t

theorem not_happenedIn_nil {P : σ → Prop} : ¬ HappenedIn step P e s [] := by
  rintro ⟨before, after, t, heq, -⟩
  simp at heq

/-- It was the last event of the run, or happened before. -/
theorem happenedIn_snoc {P : σ → Prop} {e' : ε} (h : run step s es = some t) :
    HappenedIn step P e s (es ++ [e']) ↔ HappenedIn step P e s es ∨ e' = e ∧ P t := by
  constructor
  · rintro ⟨before, after, v, heq, hrun, hv⟩
    rcases List.eq_nil_or_concat after with rfl | ⟨after, x, rfl⟩
    · obtain ⟨rfl, hlast⟩ := List.append_inj' heq rfl
      obtain rfl := (List.cons.inj hlast).1
      obtain rfl := Option.some.inj (h.symm.trans hrun)
      exact Or.inr ⟨rfl, hv⟩
    · rw [List.concat_eq_append, ← List.cons_append, ← List.append_assoc] at heq
      obtain ⟨rfl, -⟩ := List.append_inj' heq rfl
      exact Or.inl ⟨before, after, v, rfl, hrun, hv⟩
  · rintro (⟨before, after, v, rfl, hrun, hv⟩ | ⟨rfl, ht⟩)
    · exact ⟨before, after ++ [e'], v, by simp, hrun, hv⟩
    · exact ⟨es, [], t, rfl, h, ht⟩

/-- Every event of the list finds the condition `C`, as far as the run goes. -/
def Throughout (step : σ → ε → Option σ) (C : σ → ε → Prop) : σ → List ε → Prop
  | _, [] => True
  | s, e :: es => C s e ∧ ∀ t ∈ step s e, Throughout step C t es

instance {C : σ → ε → Prop} [∀ s e, Decidable (C s e)] :
    ∀ s es, Decidable (Throughout step C s es)
  | _, [] => isTrue trivial
  | s, e :: es =>
    have : ∀ t, Decidable (Throughout step C t es) := fun t => instDecidableThroughout t es
    inferInstanceAs (Decidable (C s e ∧ ∀ t ∈ step s e, Throughout step C t es))

/-- An invariant that events under the condition `C` keep, and that gives `D`. -/
theorem throughout_of_invariant {P : σ → Prop} {C D : σ → ε → Prop}
    (hkeep : ∀ s e t, P s → C s e → step s e = some t → P t) (hD : ∀ s e, P s → C s e → D s e)
    (hs : P s) (h : Throughout step C s es) : Throughout step D s es := by
  induction es generalizing s with
  | nil => trivial
  | cons e es ih =>
    obtain ⟨hC, hrest⟩ := h
    exact ⟨hD s e hs hC, fun t ht => ih (hkeep s e t hs hC ht) (hrest t ht)⟩

/-- Two conditions that say the same of every event, while the invariant holds that
either of them keeps up. -/
theorem throughout_congr {P : σ → Prop} {C D : σ → ε → Prop}
    (hiff : ∀ s e, P s → (C s e ↔ D s e)) (hkeep : ∀ s e t, P s → D s e → step s e = some t → P t)
    (hs : P s) : Throughout step C s es ↔ Throughout step D s es := by
  constructor
  · exact throughout_of_invariant (P := P)
      (fun s e t hs hC hstep => hkeep s e t hs ((hiff s e hs).mp hC) hstep)
      (fun s e hs hC => (hiff s e hs).mp hC) hs
  · exact throughout_of_invariant (P := P) hkeep (fun s e hs hD => (hiff s e hs).mpr hD) hs

end KisLinux.EventRun
