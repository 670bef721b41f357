import Mathlib.Data.List.Chain
import Mathlib.Data.List.Nodup

/-!
# Singly linked chains

A chain is a list of cells in which each cell's `next` is the cell after it.
`chain next b k` walks `k` cells from `b`; `Linked next l` says that the list `l`
is such a walk. What the last cell links to is left open on purpose: a chain
that must stop says so separately.
-/
namespace KisLinux.LinkedChain

variable {α : Type*}

/-- The first `k` cells met from `b` on. -/
def chain (next : α → α) : α → ℕ → List α
  | _, 0 => []
  | b, k + 1 => b :: chain next (next b) k

/-- Every cell of the list but the last links to the one after it. -/
def Linked (next : α → α) (l : List α) : Prop := l.IsChain (fun a b => next a = b)

@[simp] theorem chain_length (next : α → α) (b : α) (k : ℕ) : (chain next b k).length = k := by
  induction k generalizing b with
  | zero => rfl
  | succ k ih => simp [chain, ih]

theorem head?_chain (next : α → α) (b : α) {k : ℕ} (h : 0 < k) :
    (chain next b k).head? = some b := by
  cases k with
  | zero => omega
  | succ k => rfl

theorem chain_linked (next : α → α) (b : α) (k : ℕ) : Linked next (chain next b k) := by
  induction k generalizing b with
  | zero => exact List.IsChain.nil
  | succ k ih =>
    refine List.IsChain.cons (ih (next b)) ?_
    intro y hy
    cases k with
    | zero => simp [chain] at hy
    | succ k => simpa [chain] using hy

/-- A linked list is the walk from its head. -/
theorem chain_eq_of_linked {next : α → α} {b : α} {l : List α} (h : Linked next (b :: l)) :
    chain next b (l.length + 1) = b :: l := by
  induction l generalizing b with
  | nil => rfl
  | cons c l ih =>
    obtain ⟨hbc, hl⟩ := List.isChain_cons_cons.mp h
    subst hbc
    have htail := ih hl
    simp only [List.length_cons, chain] at htail ⊢
    rw [htail]

theorem chain_eq {next : α → α} {b : α} {l : List α} {k : ℕ} (h : Linked next l)
    (hb : l.head? = some b) (hk : l.length = k) : chain next b k = l := by
  cases l with
  | nil => simp at hb
  | cons c l =>
    obtain rfl : c = b := by simpa using hb
    subst hk
    exact chain_eq_of_linked h

/-- A walk depends on the links of all its cells but the last. -/
theorem linked_congr {next next' : α → α} {l : List α} (h : Linked next l)
    (he : ∀ x ∈ l.dropLast, next' x = next x) : Linked next' l := by
  induction l with
  | nil => exact List.IsChain.nil
  | cons b l ih =>
    cases l with
    | nil => exact List.IsChain.singleton _
    | cons c l =>
      obtain ⟨hbc, hl⟩ := List.isChain_cons_cons.mp h
      refine List.isChain_cons_cons.mpr ⟨?_, ih hl fun x hx => he x ?_⟩
      · rw [he b (by simp), hbc]
      · rw [List.dropLast_cons_cons]
        exact List.mem_cons_of_mem _ hx

theorem chain_congr {next next' : α → α} {b : α} {k : ℕ}
    (he : ∀ x ∈ (chain next b k).dropLast, next' x = next x) :
    chain next' b k = chain next b k := by
  cases k with
  | zero => rfl
  | succ k =>
    exact chain_eq (linked_congr (chain_linked next b (k + 1)) he) rfl (chain_length _ _ _)

theorem linked_append {next : α → α} {l l' : List α} :
    Linked next (l ++ l') ↔ Linked next l ∧ Linked next l' ∧
      ∀ x ∈ l.getLast?, ∀ y ∈ l'.head?, next x = y :=
  List.isChain_append

theorem Linked.tail {next : α → α} {b : α} {l : List α} (h : Linked next (b :: l)) :
    Linked next l := List.IsChain.tail h

theorem Linked.next_eq {next : α → α} {b c : α} {l : List α} (h : Linked next (b :: c :: l)) :
    next b = c := (List.isChain_cons_cons.mp h).1

/-- A longer walk extends a shorter one. -/
theorem chain_take (next : α → α) (b : α) (k j : ℕ) :
    (chain next b k).take j = chain next b (min j k) := by
  induction k generalizing b j with
  | zero => simp [chain]
  | succ k ih =>
    cases j with
    | zero => simp [chain]
    | succ j =>
      rw [Nat.succ_min_succ]
      simp [chain, ih]

theorem ne_getLast_of_mem_dropLast {l : List α} {x y : α} (hn : l.Nodup) (hx : x ∈ l.dropLast)
    (hy : l.getLast? = some y) : x ≠ y := by
  obtain ⟨l', rfl⟩ := List.getLast?_eq_some_iff.mp hy
  rw [List.dropLast_concat] at hx
  rintro rfl
  rw [List.nodup_append] at hn
  exact hn.2.2 x hx x (by simp) rfl

end KisLinux.LinkedChain
