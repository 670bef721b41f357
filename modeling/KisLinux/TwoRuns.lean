import KisLinux.StateRun

/-!
# Two runs side by side

Statements about what a program does not depend on compare two of its runs. `Alike`
relates the ends of two runs: both return related values or both stop for the same
reason, and their states are related either way. `Coupled` programs end alike from
related states; the rules follow the programs, so that a proof walks through both
at once.
-/
namespace KisLinux.TwoRuns
open StateRun

variable {ε σ τ α β γ δ : Type}

inductive Alike (S : σ → τ → Prop) (R : α → β → Prop) :
    EStateM.Result ε σ α → EStateM.Result ε τ β → Prop
  | ok {a : α} {b : β} {s : σ} {t : τ} (value : R a b) (state : S s t) :
      Alike S R (.ok a s) (.ok b t)
  | error {e : ε} {s : σ} {t : τ} (state : S s t) : Alike S R (.error e s) (.error e t)

/-- From related states the two programs end alike. -/
def Coupled (S : σ → τ → Prop) (R : α → β → Prop) (x : EStateM ε σ α) (y : EStateM ε τ β) : Prop :=
  ∀ s t, S s t → Alike S R (x s) (y t)

section Alike

variable {S : σ → τ → Prop} {R : α → β → Prop} {r : EStateM.Result ε σ α} {r' : EStateM.Result ε τ β}

theorem Alike.mono {S' : σ → τ → Prop} {R' : α → β → Prop} (h : Alike S R r r')
    (hS : ∀ s t, S s t → S' s t) (hR : ∀ a b, R a b → R' a b) : Alike S' R' r r' := by
  cases h with
  | ok value state => exact .ok (hR _ _ value) (hS _ _ state)
  | error state => exact .error (hS _ _ state)

end Alike

namespace Coupled

variable {S : σ → τ → Prop} {R : α → β → Prop} {Q : γ → δ → Prop} {x x' : EStateM ε σ α}
  {y y' : EStateM ε τ β}

theorem pure {a : α} {b : β} (h : R a b) :
    Coupled S R (pure a : EStateM ε σ α) (pure b : EStateM ε τ β) := fun _ _ hs => .ok h hs

theorem throw (e : ε) : Coupled S R (throw e : EStateM ε σ α) (throw e : EStateM ε τ β) :=
  fun _ _ hs => .error hs

theorem bind {f : α → EStateM ε σ γ} {g : β → EStateM ε τ δ} (h : Coupled S R x y)
    (hf : ∀ a b, R a b → Coupled S Q (f a) (g b)) : Coupled S Q (x >>= f) (y >>= g) := by
  intro s t hs
  have hends := h s t hs
  generalize hx : x s = r at hends
  generalize hy : y t = r' at hends
  cases hends with
  | ok value state =>
    rw [bind_of_ok hx, bind_of_ok hy]
    exact hf _ _ value _ _ state
  | error state =>
    rw [bind_of_error hx, bind_of_error hy]
    exact .error state

/-- Both go on with the same value. -/
theorem bind_eq {y : EStateM ε τ α} {f : α → EStateM ε σ γ} {g : α → EStateM ε τ δ}
    (h : Coupled S Eq x y) (hf : ∀ a, Coupled S Q (f a) (g a)) :
    Coupled S Q (x >>= f) (y >>= g) := by
  refine h.bind fun a b heq => ?_
  subst heq
  exact hf a

/-- Both go on with a value, or both without one. -/
theorem bind_option {x : EStateM ε σ (Option α)} {y : EStateM ε τ (Option β)}
    {f : Option α → EStateM ε σ γ} {g : Option β → EStateM ε τ δ}
    (h : Coupled S (fun a b => a.isSome = b.isSome) x y) (hnone : Coupled S Q (f none) (g none))
    (hsome : ∀ a b, Coupled S Q (f (some a)) (g (some b))) : Coupled S Q (x >>= f) (y >>= g) := by
  refine h.bind fun a b hab => ?_
  cases a with
  | none =>
    cases b with
    | none => exact hnone
    | some b => cases hab
  | some a =>
    cases b with
    | none => cases hab
    | some b => exact hsome a b

theorem mono {R' : α → β → Prop} (h : Coupled S R x y) (hR : ∀ a b, R a b → R' a b) :
    Coupled S R' x y := fun s t hs => (h s t hs).mono (fun _ _ hs => hs) hR

theorem ite {c : Prop} [Decidable c] (h : Coupled S R x y) (h' : Coupled S R x' y') :
    Coupled S R (if c then x else x') (if c then y else y') := by
  split
  · exact h
  · exact h'

/-- A program run twice from one state. -/
theorem refl (x : EStateM ε σ α) : Coupled Eq Eq x x := by
  rintro s _ rfl
  cases x s with
  | ok a t => exact .ok rfl rfl
  | error e t => exact .error rfl

/-- Programs on a part of the state that changes nothing else. -/
theorem onPart {σ' τ' : Type} {S' : σ' → τ' → Prop} {get : σ → σ'} {set : σ → σ' → σ}
    {get' : τ → τ'} {set' : τ → τ' → τ} {x : EStateM ε σ' α} {y : EStateM ε τ' β}
    (h : Coupled S' R x y) (hget : ∀ s t, S s t → S' (get s) (get' t))
    (hset : ∀ s t, S s t → ∀ u w, S' u w → S (set s u) (set' t w)) :
    Coupled S R (onPart get set x) (onPart get' set' y) := by
  intro s t hs
  have hends := h _ _ (hget s t hs)
  generalize hx : x (get s) = r at hends
  generalize hy : y (get' t) = r' at hends
  cases hends with
  | ok value state =>
    rw [onPart_of_ok hx, onPart_of_ok hy]
    exact .ok value (hset s t hs _ _ state)
  | error state =>
    rw [onPart_of_error hx, onPart_of_error hy]
    exact .error (hset s t hs _ _ state)

end Coupled

end KisLinux.TwoRuns
