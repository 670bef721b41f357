import KisLinux.EventRun
import Mathlib.Data.List.Infix
import Mathlib.Logic.Function.Basic
import Mathlib.Logic.Relation
import Mathlib.Order.WellFounded

/-!
# Processes over a shared object

A process is a program point and what happens there: a call to the shared object,
whose answer tells how to go on, an output, a silent move, or the end. The processes
interleave between these actions. A proof about all interleavings is an `Outline`: an
assertion for each process at each of its points, over a ghost state in which each
process changes no more than the others allow for. The ghost state is mostly a history,
which is replayed on a sequential object.
-/
namespace KisLinux.Processes
open EventRun

variable {Q O C S ι G : Type*} {A : Q → Type*}

/-- What a process does next. -/
inductive Act (Q : Type*) (A : Q → Type*) (O C : Type*)
  | call (q : Q) (next : A q → C)
  | output (o : O) (next : C)
  | move (next : C)
  | halt

/-- The shared object, and each process with what it has put out. -/
structure World (S ι C O : Type*) where
  shared : S
  point : ι → C
  outputs : ι → List O

/-- The turn of `i` comes again and again. -/
def Fair (σ : ℕ → ι) (i : ι) : Prop := ∀ n, ∃ m, n ≤ m ∧ σ m = i

theorem Fair.shift {σ : ℕ → ι} {i : ι} (h : Fair σ i) : Fair (fun n => σ (n + 1)) i := by
  intro n
  obtain ⟨m, hm, hi⟩ := h (n + 1)
  obtain ⟨k, rfl⟩ := Nat.exists_eq_add_of_le hm
  exact ⟨n + k, Nat.le_add_right n k, by rwa [Nat.add_right_comm] at hi⟩

section Step

variable [DecidableEq ι]

/-- The next action of the process `i`. There is none at its end, and none where the
shared object breaks down over the call. -/
def step (act : ι → C → Act Q A O C) (serve : (q : Q) → S → Option (A q × S)) (w : World S ι C O)
    (i : ι) : Option (World S ι C O) :=
  match act i (w.point i) with
  | .call q next =>
    (serve q w.shared).map fun x => ⟨x.2, Function.update w.point i (next x.1), w.outputs⟩
  | .output o next =>
    some ⟨w.shared, Function.update w.point i next,
      Function.update w.outputs i (w.outputs i ++ [o])⟩
  | .move next => some ⟨w.shared, Function.update w.point i next, w.outputs⟩
  | .halt => none

theorem step_halt {act : ι → C → Act Q A O C} {serve : (q : Q) → S → Option (A q × S)}
    {w : World S ι C O} {i : ι} (h : act i (w.point i) = .halt) : step act serve w i = none := by
  unfold step
  rw [h]

theorem step_point {act : ι → C → Act Q A O C} {serve : (q : Q) → S → Option (A q × S)}
    {w w' : World S ι C O} {i j : ι} (h : step act serve w i = some w') (hj : j ≠ i) :
    w'.point j = w.point j := by
  unfold step at h
  split at h
  · obtain ⟨x, -, rfl⟩ := Option.map_eq_some_iff.mp h
    exact Function.update_of_ne hj _ _
  · obtain rfl := Option.some.inj h
    exact Function.update_of_ne hj _ _
  · obtain rfl := Option.some.inj h
    exact Function.update_of_ne hj _ _
  · cases h

/-! ## Rely and guarantee -/

section Rules

variable (serve : (q : Q) → S → Option (A q × S)) (Shared : S → G → Prop)
  (Local : ι → C → List O → G → Prop) (Moves : ι → C → G → C → G → Prop)

/-- The action leads the process `i` to its next assertion, by a move of its own. -/
def Leads (i : ι) (c : C) (out : List O) (s : S) (γ : G) : Act Q A O C → Prop
  | .call q next =>
    ∃ a s' γ', serve q s = some (a, s') ∧ Shared s' γ' ∧ Moves i c γ (next a) γ' ∧ Local i (next a) out γ'
  | .output o next => ∃ γ', Shared s γ' ∧ Moves i c γ next γ' ∧ Local i next (out ++ [o]) γ'
  | .move next => ∃ γ', Shared s γ' ∧ Moves i c γ next γ' ∧ Local i next out γ'
  | .halt => True

/-- What is to be shown: every action leads on, and no assertion of another process minds
the move. -/
structure Outline (act : ι → C → Act Q A O C) : Prop where
  stable : ∀ {i j : ι} {c c' d : C} {out : List O} {γ γ' : G}, j ≠ i → Moves i c γ c' γ' →
    Local j d out γ → Local j d out γ'
  leads : ∀ {i : ι} {c : C} {out : List O} {γ : G} {s : S}, Shared s γ → Local i c out γ →
    Leads serve Shared Local Moves i c out s γ (act i c)

end Rules

/-- All assertions at once. -/
structure Holds (Shared : S → G → Prop) (Local : ι → C → List O → G → Prop) (w : World S ι C O)
    (γ : G) : Prop where
  shared : Shared w.shared γ
  all : ∀ i, Local i (w.point i) (w.outputs i) γ

/-- The processes in the order of `σ`; one at its end is passed over. -/
def follow (act : ι → C → Act Q A O C) (serve : (q : Q) → S → Option (A q × S)) :
    (ℕ → ι) → World S ι C O → ℕ → World S ι C O
  | _, w, 0 => w
  | σ, w, n + 1 => follow act serve (fun k => σ (k + 1)) ((step act serve w (σ 0)).getD w) n

namespace Outline

variable {act : ι → C → Act Q A O C} {serve : (q : Q) → S → Option (A q × S)} {Shared : S → G → Prop}
  {Local : ι → C → List O → G → Prop} {Moves : ι → C → G → C → G → Prop} {w w' : World S ι C O} {γ : G}
  {i : ι}

/-- The new world, put together from the process that moved and the others. -/
theorem assemble (h : Outline serve Shared Local Moves act) (hw : Holds Shared Local w γ) {s' : S}
    {c c' : C} {out' : List O} {γ' : G} (hs : Shared s' γ') (hmoves : Moves i c γ c' γ')
    (hown : Local i c' out' γ') :
    Holds Shared Local ⟨s', Function.update w.point i c', Function.update w.outputs i out'⟩ γ' where
  shared := hs
  all j := by
    dsimp only
    by_cases hj : j = i
    · subst hj
      rwa [Function.update_self, Function.update_self]
    · rw [Function.update_of_ne hj, Function.update_of_ne hj]
      exact h.stable hj hmoves (hw.all j)

/-- A process that is not at its end can act, and all assertions hold again. -/
theorem step_holds (h : Outline serve Shared Local Moves act) (hw : Holds Shared Local w γ)
    (hi : act i (w.point i) ≠ .halt) :
    ∃ w' γ', step act serve w i = some w' ∧ Moves i (w.point i) γ (w'.point i) γ' ∧
      Holds Shared Local w' γ' := by
  have hleads := h.leads hw.shared (hw.all i)
  unfold step
  cases hact : act i (w.point i) with
  | call q next =>
    rw [hact] at hleads
    obtain ⟨a, s', γ', hserve, hs, hmoves, hown⟩ := hleads
    have hholds := h.assemble hw hs hmoves hown
    rw [Function.update_eq_self] at hholds
    refine ⟨_, γ', Option.map_eq_some_iff.mpr ⟨_, hserve, rfl⟩, ?_, hholds⟩
    dsimp only
    rwa [Function.update_self]
  | output o next =>
    rw [hact] at hleads
    obtain ⟨γ', hs, hmoves, hown⟩ := hleads
    refine ⟨_, γ', rfl, ?_, h.assemble hw hs hmoves hown⟩
    dsimp only
    rwa [Function.update_self]
  | move next =>
    rw [hact] at hleads
    obtain ⟨γ', hs, hmoves, hown⟩ := hleads
    have hholds := h.assemble hw hs hmoves hown
    rw [Function.update_eq_self] at hholds
    refine ⟨_, γ', rfl, ?_, hholds⟩
    dsimp only
    rwa [Function.update_self]
  | halt => exact absurd hact hi

/-- All assertions hold throughout every interleaving. -/
theorem run_holds (h : Outline serve Shared Local Moves act) {is : List ι}
    (hw : Holds Shared Local w γ) (hrun : run (step act serve) w is = some w') :
    ∃ γ', Relation.ReflTransGen (fun a b => ∃ i c c', Moves i c a c' b) γ γ' ∧
      Holds Shared Local w' γ' := by
  refine run_invariant (P := fun v => ∃ γ', Relation.ReflTransGen (fun a b => ∃ i c c', Moves i c a c' b)
    γ γ' ∧ Holds Shared Local v γ') ?_ ⟨γ, .refl, hw⟩ hrun
  rintro v i u ⟨γ₁, hγ₁, hv⟩ hstep
  have hi : act i (v.point i) ≠ .halt := by
    intro hhalt
    cases (step_halt hhalt).symm.trans hstep
  obtain ⟨u', γ₂, hstep', hmoves, hu⟩ := h.step_holds hv hi
  obtain rfl := Option.some.inj (hstep'.symm.trans hstep)
  exact ⟨γ₂, hγ₁.tail ⟨i, _, _, hmoves⟩, hu⟩

/-- **Termination.** Where the moves of a process lower its rank and those of the others
leave it alone, the process comes to its end in every order in which its turn comes again
and again. -/
theorem ends {W : Type*} [Preorder W] [WellFoundedLT W] (h : Outline serve Shared Local Moves act)
    (rank : ι → C → G → W)
    (hown : ∀ {i c γ c' γ'}, Moves i c γ c' γ' → rank i c' γ' < rank i c γ)
    (hothers : ∀ {i j c γ c' γ'}, j ≠ i → Moves i c γ c' γ' → ∀ d, rank j d γ' = rank j d γ)
    (hw : Holds Shared Local w γ) {σ : ℕ → ι} (hfair : Fair σ i) :
    ∃ n, act i ((follow act serve σ w n).point i) = .halt := by
  obtain ⟨k, -, hk⟩ := hfair 0
  suffices hmain : ∀ (r : W) (k : ℕ) (σ : ℕ → ι) (v : World S ι C O) (γ : G), Holds Shared Local v γ →
      rank i (v.point i) γ = r → Fair σ i → σ k = i →
      ∃ n, act i ((follow act serve σ v n).point i) = .halt from
    hmain _ k σ w γ hw rfl hfair hk
  intro r
  induction r using WellFoundedLT.induction with
  | ind r ihr =>
    -- the turn of the process lowers its rank
    have hturn : ∀ (σ : ℕ → ι) (v : World S ι C O) (γ : G), Holds Shared Local v γ →
        rank i (v.point i) γ = r → Fair σ i → σ 0 = i →
        ∃ n, act i ((follow act serve σ v n).point i) = .halt := by
      intro σ v γ hv hr hfair hfirst
      by_cases hi : act i (v.point i) = .halt
      · exact ⟨0, hi⟩
      · obtain ⟨v', γ', hstep, hmoves, hv'⟩ := h.step_holds hv hi
        obtain ⟨m, hm, hlater⟩ := hfair 1
        obtain ⟨k, rfl⟩ := Nat.exists_eq_add_of_le' hm
        obtain ⟨n, hn⟩ := ihr _ (hr ▸ hown hmoves) k (fun n => σ (n + 1)) v' γ' hv' rfl
          hfair.shift hlater
        refine ⟨n + 1, ?_⟩
        rw [follow, hfirst, hstep]
        exact hn
    intro k
    induction k with
    | zero => exact hturn
    | succ k ihk =>
      -- the turn of another process brings the one of the process nearer
      intro σ v γ hv hr hfair hk
      by_cases hfirst : σ 0 = i
      · exact hturn σ v γ hv hr hfair hfirst
      · by_cases hj : act (σ 0) (v.point (σ 0)) = .halt
        · obtain ⟨n, hn⟩ := ihk (fun n => σ (n + 1)) v γ hv hr hfair.shift hk
          refine ⟨n + 1, ?_⟩
          rw [follow, step_halt hj]
          exact hn
        · obtain ⟨v', γ', hstep, hmoves, hv'⟩ := h.step_holds hv hj
          have hsame := step_point hstep (Ne.symm hfirst)
          have hr' : rank i (v'.point i) γ' = r := by
            rw [hsame, hothers (Ne.symm hfirst) hmoves]
            exact hr
          obtain ⟨n, hn⟩ := ihk (fun n => σ (n + 1)) v' γ' hv' hr' hfair.shift hk
          refine ⟨n + 1, ?_⟩
          rw [follow, hstep]
          exact hn

end Outline

end Step

/-! ## Histories -/

section History

variable {D L : Type*} (next : D → L → L)

/-- The sequential object behind a history. -/
def replay (l : L) (log : List (ι × D)) : L := log.foldl (fun l x => next x.2 l) l

variable {next} in
theorem replay_concat {i : ι} {l : L} {log : List (ι × D)} {d : D} :
    replay next l (log ++ [(i, d)]) = next d (replay next l log) := by
  simp [replay]

variable [DecidableEq ι] (shows : D → L → List O)

/-- What the history shows to the party `i`. -/
def shown (i : ι) : L → List (ι × D) → List O
  | _, [] => []
  | l, x :: log => (if x.1 = i then shows x.2 l else []) ++ shown i (next x.2 l) log

/-- The part of the party `i` in the history. -/
def doneBy (i : ι) (log : List (ι × D)) : List D := (log.filter fun x => x.1 = i).map Prod.snd

variable {next shows} {i j : ι} {l : L} {log : List (ι × D)} {d : D}

theorem shown_append (log' : List (ι × D)) : shown next shows i l (log ++ log') =
    shown next shows i l log ++ shown next shows i (replay next l log) log' := by
  induction log generalizing l with
  | nil => rfl
  | cons x log ih =>
    rw [List.cons_append, shown, shown, ih, List.append_assoc]
    rfl

theorem shown_concat : shown next shows i l (log ++ [(i, d)]) =
    shown next shows i l log ++ shows d (replay next l log) := by
  rw [shown_append, shown, shown, if_pos rfl, List.append_nil]

theorem shown_concat_other (h : j ≠ i) :
    shown next shows j l (log ++ [(i, d)]) = shown next shows j l log := by
  rw [shown_append, shown, shown, if_neg (Ne.symm h), List.append_nil, List.append_nil]

theorem doneBy_concat : doneBy i (log ++ [(i, d)]) = doneBy i log ++ [d] := by
  simp [doneBy]

theorem doneBy_concat_other (h : j ≠ i) : doneBy j (log ++ [(i, d)]) = doneBy j log := by
  simp [doneBy, Ne.symm h]

end History

end KisLinux.Processes
