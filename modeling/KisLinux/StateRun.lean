import Mathlib.Logic.Basic
import Mathlib.Tactic.TypeStar

/-!
# Runs of stateful programs that may stop

Programs are `EStateM` computations: a run either returns or stops, and in both
cases leaves a state behind. `finalState` forgets which of the two happened, so
that invariants can be stated for interrupted runs as well. `Keeps P x` is the
invariant rule: it composes along binds, whatever the values passed on.
-/
namespace KisLinux.StateRun

variable {ε σ α β : Type}

/-- The state a run leaves behind, whether it returned or stopped. -/
def finalState : EStateM.Result ε σ α → σ
  | .ok _ s => s
  | .error _ s => s

@[simp] theorem finalState_ok (a : α) (s : σ) :
    finalState (.ok a s : EStateM.Result ε σ α) = s := rfl

@[simp] theorem finalState_error (e : ε) (s : σ) :
    finalState (.error e s : EStateM.Result ε σ α) = s := rfl

def returned : EStateM.Result ε σ α → Bool
  | .ok _ _ => true
  | .error _ _ => false

/-- Whether a run returns can be evaluated without looking at what it returns. -/
theorem of_returned {r : EStateM.Result ε σ α} (h : returned r = true) :
    ∃ a, r = .ok a (finalState r) := by
  cases r with
  | ok a s => exact ⟨a, rfl⟩
  | error e s => cases h

theorem not_of_returned {r : EStateM.Result ε σ α} (h : returned r = false) (a : α) (s : σ) :
    r ≠ .ok a s := by
  rintro rfl
  cases h

def stopped : EStateM.Result ε σ α → Option ε
  | .ok _ _ => none
  | .error e _ => some e

theorem of_stopped {r : EStateM.Result ε σ α} {e : ε} (h : stopped r = some e) :
    r = .error e (finalState r) := by
  cases r with
  | ok a s => cases h
  | error e' s =>
    obtain rfl := Option.some.inj h
    rfl

def value : EStateM.Result ε σ α → Option α
  | .ok a _ => some a
  | .error _ _ => none

theorem of_value {r : EStateM.Result ε σ α} {a : α} (h : value r = some a) :
    r = .ok a (finalState r) := by
  cases r with
  | ok a' s =>
    obtain rfl := Option.some.inj h
    rfl
  | error e s => cases h

@[simp] theorem pure_run (a : α) (s : σ) : (pure a : EStateM ε σ α) s = .ok a s := rfl

@[simp] theorem throw_run (e : ε) (s : σ) : (throw e : EStateM ε σ α) s = .error e s := rfl

@[simp] theorem get_run (s : σ) : (get : EStateM ε σ σ) s = .ok s s := rfl

@[simp] theorem set_run (t s : σ) : (set t : EStateM ε σ PUnit) s = .ok ⟨⟩ t := rfl

@[simp] theorem modify_run (f : σ → σ) (s : σ) :
    (modify f : EStateM ε σ PUnit) s = .ok ⟨⟩ (f s) := rfl

theorem bind_of_ok {x : EStateM ε σ α} {f : α → EStateM ε σ β} {s s' : σ} {a : α}
    (h : x s = .ok a s') : (x >>= f) s = f a s' := by
  simp only [bind, EStateM.bind, h]

theorem bind_of_error {x : EStateM ε σ α} {f : α → EStateM ε σ β} {s s' : σ} {e : ε}
    (h : x s = .error e s') : (x >>= f) s = .error e s' := by
  simp only [bind, EStateM.bind, h]

theorem pure_eq_ok {a b : α} {s t : σ} :
    (pure a : EStateM ε σ α) s = .ok b t ↔ a = b ∧ s = t := by
  rw [pure_run, EStateM.Result.ok.injEq]

/-- A bind returns exactly when both halves do. -/
theorem bind_eq_ok {x : EStateM ε σ α} {f : α → EStateM ε σ β} {s t : σ} {b : β} :
    (x >>= f) s = .ok b t ↔ ∃ a s', x s = .ok a s' ∧ f a s' = .ok b t := by
  constructor
  · intro h
    cases hx : x s with
    | ok a s' => exact ⟨a, s', rfl, by rwa [bind_of_ok hx] at h⟩
    | error e s' => rw [bind_of_error hx] at h; cases h
  · rintro ⟨a, s', hx, hf⟩
    rw [bind_of_ok hx, hf]

/-- A bind stops where one of its halves does. -/
theorem bind_eq_error {x : EStateM ε σ α} {f : α → EStateM ε σ β} {s t : σ} {e : ε} :
    (x >>= f) s = .error e t ↔
      x s = .error e t ∨ ∃ a s', x s = .ok a s' ∧ f a s' = .error e t := by
  constructor
  · intro h
    cases hx : x s with
    | ok a s' => exact .inr ⟨a, s', rfl, by rwa [bind_of_ok hx] at h⟩
    | error e' s' =>
      rw [bind_of_error hx] at h
      obtain ⟨rfl, rfl⟩ := EStateM.Result.error.inj h
      exact .inl rfl
  · rintro (hx | ⟨a, s', hx, hf⟩)
    · exact bind_of_error hx
    · rw [bind_of_ok hx, hf]

/-- `x` keeps `P`, also when it stops part-way. -/
def Keeps (P : σ → Prop) (x : EStateM ε σ α) : Prop := ∀ s, P s → P (finalState (x s))

theorem Keeps.pure {P : σ → Prop} (a : α) : Keeps P (pure a : EStateM ε σ α) := fun _ h => h

theorem Keeps.throw {P : σ → Prop} (e : ε) : Keeps P (throw e : EStateM ε σ α) := fun _ h => h

theorem Keeps.bind {P : σ → Prop} {x : EStateM ε σ α} {f : α → EStateM ε σ β}
    (hx : Keeps P x) (hf : ∀ a, Keeps P (f a)) : Keeps P (x >>= f) := by
  intro s hs
  have h := hx s hs
  cases hr : x s with
  | ok a s' =>
    rw [bind_of_ok hr]
    rw [hr] at h
    exact hf a s' h
  | error e s' =>
    rw [bind_of_error hr]
    rw [hr] at h
    exact h

theorem Keeps.of_ok {P : σ → Prop} {x : EStateM ε σ α} (h : Keeps P x) {s s' : σ} {a : α}
    (hx : x s = .ok a s') (hs : P s) : P s' := by
  have := h s hs
  rwa [hx] at this

theorem Keeps.ite {P : σ → Prop} {c : Prop} [Decidable c] {x y : EStateM ε σ α}
    (hx : Keeps P x) (hy : Keeps P y) : Keeps P (if c then x else y) := by
  split
  · exact hx
  · exact hy

theorem Keeps.forM {P : σ → Prop} {f : α → EStateM ε σ PUnit} {l : List α}
    (h : ∀ x ∈ l, Keeps P (f x)) : Keeps P (l.forM f) := by
  induction l with
  | nil => exact Keeps.pure _
  | cons x l ih => exact (h x (by simp)).bind fun _ => ih fun y hy => h y (List.mem_cons_of_mem _ hy)

/-- `y` returns what `x` returns, wherever `x` returns. -/
def Extends (x y : EStateM ε σ α) : Prop := ∀ s a s', x s = .ok a s' → y s = .ok a s'

theorem Extends.refl (x : EStateM ε σ α) : Extends x x := fun _ _ _ h => h

theorem Extends.throw (e : ε) (y : EStateM ε σ α) : Extends (throw e) y := fun _ _ _ h => by cases h

theorem Extends.bind {x y : EStateM ε σ α} {f f' : α → EStateM ε σ β} (h : Extends x y)
    (hf : ∀ a, Extends (f a) (f' a)) : Extends (x >>= f) (y >>= f') := by
  intro s b t hb
  obtain ⟨a, s', hx, hrest⟩ := bind_eq_ok.mp hb
  exact bind_eq_ok.mpr ⟨a, s', h s a s' hx, hf a s' b t hrest⟩

theorem Extends.ite {c : Prop} [Decidable c] {x x' y y' : EStateM ε σ α} (h : Extends x x')
    (h' : Extends y y') : Extends (if c then x else y) (if c then x' else y') := by
  split
  · exact h
  · exact h'

/-- `x` never changes the state. -/
def ReadOnly (x : EStateM ε σ α) : Prop := ∀ s, finalState (x s) = s

theorem ReadOnly.pure (a : α) : ReadOnly (pure a : EStateM ε σ α) := fun _ => rfl

theorem ReadOnly.throw (e : ε) : ReadOnly (throw e : EStateM ε σ α) := fun _ => rfl

theorem ReadOnly.bind {x : EStateM ε σ α} {f : α → EStateM ε σ β}
    (hx : ReadOnly x) (hf : ∀ a, ReadOnly (f a)) : ReadOnly (x >>= f) := fun s =>
  Keeps.bind (P := fun t => t = s) (fun t ht => (hx t).trans ht)
    (fun a t ht => (hf a t).trans ht) s rfl

theorem ReadOnly.ite {c : Prop} [Decidable c] {x y : EStateM ε σ α}
    (hx : ReadOnly x) (hy : ReadOnly y) : ReadOnly (if c then x else y) := by
  split
  · exact hx
  · exact hy

theorem ReadOnly.state_eq {x : EStateM ε σ α} (h : ReadOnly x) {s s' : σ} {a : α}
    (hx : x s = .ok a s') : s' = s := by
  have := h s
  rwa [hx] at this

/-- Reading programs keep every invariant. -/
theorem ReadOnly.keeps {x : EStateM ε σ α} (h : ReadOnly x) (P : σ → Prop) : Keeps P x :=
  fun s hs => by rw [h s]; exact hs

/-! ## Programs on a part of the state -/

section Part

variable {τ : Type} {get : σ → τ} {set : σ → τ → σ} {x : EStateM ε τ α} {s : σ}

def onPart (get : σ → τ) (set : σ → τ → σ) (x : EStateM ε τ α) : EStateM ε σ α := fun s =>
  match x (get s) with
  | .ok a t => .ok a (set s t)
  | .error e t => .error e (set s t)

theorem onPart_of_ok {a : α} {t : τ} (h : x (get s) = .ok a t) :
    onPart get set x s = .ok a (set s t) := by
  simp only [onPart, h]

theorem onPart_of_error {e : ε} {t : τ} (h : x (get s) = .error e t) :
    onPart get set x s = .error e (set s t) := by
  simp only [onPart, h]

theorem onPart_eq_ok {a : α} {s' : σ} (h : onPart get set x s = .ok a s') :
    ∃ t, x (get s) = .ok a t ∧ s' = set s t := by
  unfold onPart at h
  split at h
  · next b t hx =>
    obtain ⟨rfl, rfl⟩ := EStateM.Result.ok.inj h
    exact ⟨t, hx, rfl⟩
  · cases h

theorem onPart_eq_error {e : ε} {s' : σ} (h : onPart get set x s = .error e s') :
    ∃ t, x (get s) = .error e t ∧ s' = set s t := by
  unfold onPart at h
  split at h
  · cases h
  · next b t hx =>
    obtain ⟨rfl, rfl⟩ := EStateM.Result.error.inj h
    exact ⟨t, hx, rfl⟩

theorem onPart_finalState (x : EStateM ε τ α) (s : σ) :
    finalState (onPart get set x s) = set s (finalState (x (get s))) := by
  unfold onPart
  split
  · next h => rw [h]; rfl
  · next h => rw [h]; rfl

end Part

/-! ## Programs with a log -/

section Log

variable {κ : Type} {U V : κ → Prop}

/-- A result with a log beside its state. -/
def withLog (log : List κ) : EStateM.Result ε σ α → EStateM.Result ε (σ × List κ) α
  | .ok a s => .ok a (s, log)
  | .error e s => .error e (s, log)

def unlogged (x : EStateM ε σ α) : EStateM ε (σ × List κ) α := fun s => withLog s.2 (x s.1)

def logEntry (k : κ) : EStateM ε (σ × List κ) Unit := fun s => .ok () (s.1, s.2 ++ [k])

/-- The first program is the second one with a log, to which it adds entries of `U` only. -/
def Logs (U : κ → Prop) (x : EStateM ε (σ × List κ) α) (y : EStateM ε σ α) : Prop :=
  ∀ s log, ∃ new, (∀ k ∈ new, U k) ∧ x (s, log) = withLog (log ++ new) (y s)

theorem Logs.pure (a : α) : Logs U (pure a : EStateM ε (σ × List κ) α) (pure a) := fun s log =>
  ⟨[], by simp, by rw [List.append_nil]; rfl⟩

theorem Logs.unlogged (x : EStateM ε σ α) : Logs U (unlogged x) x := fun s log =>
  ⟨[], by simp, by rw [List.append_nil]; rfl⟩

theorem Logs.bind {x : EStateM ε (σ × List κ) α} {y : EStateM ε σ α}
    {f : α → EStateM ε (σ × List κ) β} {f' : α → EStateM ε σ β} (h : Logs U x y)
    (hf : ∀ a, Logs U (f a) (f' a)) : Logs U (x >>= f) (y >>= f') := by
  intro s log
  obtain ⟨new, hnew, hx⟩ := h s log
  cases hy : y s with
  | ok a s₁ =>
    rw [hy] at hx
    obtain ⟨more, hmore, hfa⟩ := hf a s₁ (log ++ new)
    refine ⟨new ++ more, fun k hk => (List.mem_append.mp hk).elim (hnew k) (hmore k), ?_⟩
    rw [bind_of_ok hy, bind_of_ok hx, hfa, List.append_assoc]
  | error e s₁ =>
    rw [hy] at hx
    exact ⟨new, hnew, by rw [bind_of_error hy, bind_of_error hx]; rfl⟩

theorem Logs.entry {k : κ} {f : Unit → EStateM ε (σ × List κ) α} {y : EStateM ε σ α} (hk : U k)
    (h : Logs U (f ()) y) : Logs U (logEntry k >>= f) y := by
  intro s log
  obtain ⟨new, hnew, hf⟩ := h s (log ++ [k])
  refine ⟨k :: new, List.forall_mem_cons.mpr ⟨hk, hnew⟩, ?_⟩
  rw [bind_of_ok (show logEntry k (s, log) = .ok () (s, log ++ [k]) from rfl), hf,
    List.append_assoc, List.singleton_append]

theorem Logs.mono {x : EStateM ε (σ × List κ) α} {y : EStateM ε σ α} (h : Logs U x y)
    (hUV : ∀ k, U k → V k) : Logs V x y := by
  intro s log
  obtain ⟨new, hnew, hx⟩ := h s log
  exact ⟨new, fun k hk => hUV k (hnew k hk), hx⟩

/-- What a run has logged. -/
def logOf : EStateM.Result ε (σ × List κ) α → List κ
  | .ok _ s => s.2
  | .error _ s => s.2

theorem Logs.logOf_eq {x : EStateM ε (σ × List κ) α} {y : EStateM ε σ α} (h : Logs U x y) (s : σ)
    (log : List κ) : ∃ new, (∀ k ∈ new, U k) ∧ logOf (x (s, log)) = log ++ new := by
  obtain ⟨new, hnew, hx⟩ := h s log
  refine ⟨new, hnew, ?_⟩
  rw [hx]
  cases y s <;> rfl

/-- What was logged stays. -/
theorem Logs.mem_bind {x : EStateM ε (σ × List κ) α} {f : α → EStateM ε (σ × List κ) β}
    {f' : α → EStateM ε σ β} (hf : ∀ a, Logs U (f a) (f' a)) {s : σ × List κ} {k : κ}
    (h : k ∈ logOf (x s)) : k ∈ logOf ((x >>= f) s) := by
  cases hx : x s with
  | ok a s₁ =>
    rw [hx] at h
    obtain ⟨new, -, hlog⟩ := (hf a).logOf_eq s₁.1 s₁.2
    rw [bind_of_ok hx, hlog]
    exact List.mem_append_left _ h
  | error e s₁ =>
    rw [hx] at h
    rw [bind_of_error hx]
    exact h

theorem unlogged_of_ok {x : EStateM ε σ α} {s s' : σ} {a : α} (h : x s = .ok a s') (log : List κ) :
    unlogged x (s, log) = .ok a (s', log) := by
  rw [unlogged, h, withLog]

/-- A program without a log leaves the log alone. -/
theorem unlogged_eq_ok {x : EStateM ε σ α} {s s' : σ × List κ} {a : α}
    (h : unlogged x s = .ok a s') : x s.1 = .ok a s'.1 ∧ s'.2 = s.2 := by
  unfold unlogged at h
  cases hx : x s.1 with
  | ok b t =>
    rw [hx] at h
    obtain ⟨rfl, rfl⟩ := EStateM.Result.ok.inj h
    exact ⟨rfl, rfl⟩
  | error e t =>
    rw [hx] at h
    cases h

/-- A run of the program with the log is one of the program. -/
theorem Logs.of_ok {x : EStateM ε (σ × List κ) α} {y : EStateM ε σ α} (hxy : Logs U x y)
    {t t' : σ × List κ} {a : α} (h : x t = .ok a t') : y t.1 = .ok a t'.1 := by
  obtain ⟨new, -, hx⟩ := hxy t.1 t.2
  have hrun := hx.symm.trans h
  cases hy : y t.1 with
  | ok b s =>
    rw [hy] at hrun
    obtain ⟨rfl, rfl⟩ := EStateM.Result.ok.inj hrun
    rfl
  | error e s =>
    rw [hy] at hrun
    cases hrun

end Log

end KisLinux.StateRun
