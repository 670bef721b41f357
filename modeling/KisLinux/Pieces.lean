import KisLinux.StateRun

/-!
# Programs in pieces

A program that other parties may interrupt is a tree of pieces: a piece works on
the state and returns a value, and the value says what comes next. `run` is the
program when nobody interrupts it, so that two ways of cutting one program are two
trees with the same `run`.
-/
namespace KisLinux.StateRun

inductive Pieces (ε σ : Type) : Type 1
  | done
  | piece {β : Type} (x : EStateM ε σ β) (next : β → Pieces ε σ)

namespace Pieces

variable {ε σ β : Type}

def run : Pieces ε σ → EStateM ε σ Unit
  | done => pure ()
  | piece x next => x >>= fun b => run (next b)

theorem run_piece_of_ok {x : EStateM ε σ β} {next : β → Pieces ε σ} {s t : σ} {b : β}
    (h : x s = .ok b t) : (piece x next).run s = (next b).run t := bind_of_ok h

theorem run_piece_of_error {x : EStateM ε σ β} {next : β → Pieces ε σ} {s t : σ} {e : ε}
    (h : x s = .error e t) : (piece x next).run s = .error e t := bind_of_error h

/-- A last piece. -/
def last (x : EStateM ε σ Unit) : Pieces ε σ := piece x fun _ => done

@[simp] theorem run_last (x : EStateM ε σ Unit) : (last x).run = x := bind_pure x

/-- The same pieces, each of them changed by `f`. -/
def each (f : ∀ β : Type, EStateM ε σ β → EStateM ε σ β) : Pieces ε σ → Pieces ε σ
  | done => done
  | piece x next => piece (f _ x) fun b => each f (next b)

/-- Changing the pieces changes the whole, where `f` goes through binds. -/
theorem run_each {f : ∀ β : Type, EStateM ε σ β → EStateM ε σ β}
    (hpure : f Unit (pure ()) = pure ())
    (hbind : ∀ (β : Type) (x : EStateM ε σ β) (k : β → EStateM ε σ Unit),
      f Unit (x >>= k) = f β x >>= fun b => f Unit (k b)) (p : Pieces ε σ) :
    (p.each f).run = f Unit p.run := by
  induction p with
  | done => exact hpure.symm
  | piece x next ih =>
    rw [run, hbind, each, run]
    exact congrArg _ (funext ih)

end Pieces

end KisLinux.StateRun
