import KisLinux.StateRun
import Mathlib.Data.PNat.Notation
import Mathlib.Data.List.Basic

/-!
# Streams with short transfers

A call on a stream may move fewer items than it was asked to, but at least one
while there is something to move. How many is fixed call by call by the cuts of
the stream. A readable end has the items still to come; a writable end has those
already taken and the room that is left before calls start to fail.
-/
namespace KisLinux.ShortTransfer

variable {α : Type}

/-- The readable end. At the end of the stream a call moves nothing, or fails
when the stream is broken. -/
structure Source (α : Type) where
  pending : List α
  cuts : ℕ → ℕ+
  broken : Bool

/-- One call for at most `n` items; `none` is a failure. -/
def Source.read (n : ℕ) (s : Source α) : Option (List α) × Source α :=
  if s.pending.isEmpty && s.broken then (none, s)
  else (some (s.pending.take (min n (s.cuts 0))),
    { s with pending := s.pending.drop (min n (s.cuts 0)), cuts := fun i => s.cuts (i + 1) })

/-- `s'` is what is left of `s` behind the items `d`. -/
structure Source.Gave (s s' : Source α) (d : List α) : Prop where
  pending : s.pending = d ++ s'.pending
  broken : s'.broken = s.broken

namespace Source

variable {s s' s'' : Source α} {d d' : List α} {n : ℕ}

theorem Gave.refl (s : Source α) : s.Gave s [] := ⟨rfl, rfl⟩

theorem Gave.trans (h : s.Gave s' d) (h' : s'.Gave s'' d') : s.Gave s'' (d ++ d') where
  pending := by rw [h.pending, h'.pending, List.append_assoc]
  broken := h'.broken.trans h.broken

/-- With items to come a call moves some of them. -/
theorem read_some (hn : 0 < n) (hs : s.pending ≠ []) :
    ∃ d s', s.read n = (some d, s') ∧ s.Gave s' d ∧ d ≠ [] ∧ d.length ≤ n := by
  have hcut : 0 < (s.cuts 0 : ℕ) := (s.cuts 0).2
  refine ⟨_, _, if_neg (by simp [hs]), ⟨(List.take_append_drop _ _).symm, rfl⟩, ?_, ?_⟩
  · intro hnil
    have hlen := congrArg List.length hnil
    have hpos := List.length_pos_iff.mpr hs
    rw [List.length_take, List.length_nil] at hlen
    omega
  · rw [List.length_take]
    omega

/-- At the end of the stream a call moves nothing. -/
theorem read_end (hs : s.pending = []) :
    ∃ r s', s.read n = (r, s') ∧ s.Gave s' [] ∧ ∀ d ∈ r, d = [] := by
  by_cases hb : s.broken
  · exact ⟨none, s, if_pos (by simp [hs, hb]), Gave.refl s, by simp⟩
  · refine ⟨_, _, if_neg (by simp [hb]), ⟨by simp [hs], rfl⟩, by simp [hs]⟩

end Source

/-- The writable end. -/
structure Sink (α : Type) where
  accepted : List α
  cuts : ℕ → ℕ+
  /-- How many more items are taken before calls fail; `none` is no limit. -/
  room : Option ℕ

/-- The room for `n` more items, as far as it goes. -/
def Sink.fit (s : Sink α) (n : ℕ) : ℕ := s.room.elim n (min n)

/-- One call that offers the items `d`; the result is how many were taken. -/
def Sink.write (d : List α) (s : Sink α) : Option ℕ × Sink α :=
  if s.room = some 0 then (none, s)
  else
    let k := s.fit (min d.length (s.cuts 0))
    (some k,
      { accepted := s.accepted ++ d.take k
        cuts := fun i => s.cuts (i + 1)
        room := s.room.map (· - k) })

/-- `s'` is `s` after it took the items `d`. -/
structure Sink.Took (s s' : Sink α) (d : List α) : Prop where
  accepted : s'.accepted = s.accepted ++ d
  room : s'.room = s.room.map (· - d.length)
  fits : s.fit d.length = d.length

namespace Sink

variable {s s' s'' : Sink α} {d d' : List α} {n : ℕ}

theorem fit_le (s : Sink α) (n : ℕ) : s.fit n ≤ n := by
  cases hr : s.room with
  | none => simp [fit, hr]
  | some r =>
    simp only [fit, hr, Option.elim]
    omega

theorem fit_fit (s : Sink α) {m : ℕ} (h : m ≤ s.fit n) : s.fit m = m := by
  cases hr : s.room with
  | none => simp [fit, hr]
  | some r =>
    simp only [fit, hr, Option.elim] at h ⊢
    omega

theorem Took.refl (s : Sink α) : s.Took s [] where
  accepted := (List.append_nil _).symm
  room := by cases s.room <;> rfl
  fits := s.fit_fit (n := 0) (Nat.zero_le _)

theorem Took.trans (h : s.Took s' d) (h' : s'.Took s'' d') : s.Took s'' (d ++ d') where
  accepted := by rw [h'.accepted, h.accepted, List.append_assoc]
  room := by
    rw [h'.room, h.room, Option.map_map, List.length_append]
    congr 1
    funext r
    exact Nat.sub_sub _ _ _
  fits := by
    have hd := h.fits
    have hd' := h'.fits
    cases hr : s.room with
    | none => simp [fit, hr]
    | some r =>
      rw [fit, h.room, hr] at hd'
      rw [fit, hr] at hd ⊢
      simp only [Option.map, Option.elim] at hd hd' ⊢
      rw [List.length_append]
      omega

/-- What still fits behind the items taken. -/
theorem Took.fit_eq (h : s.Took s' d) (n : ℕ) : s.fit (d.length + n) = d.length + s'.fit n := by
  have hd := h.fits
  cases hr : s.room with
  | none => simp [fit, hr, h.room]
  | some r =>
    simp only [fit, hr, h.room, Option.map, Option.elim] at hd ⊢
    omega

/-- With room left a call takes some of the items. -/
theorem write_some (hd : d ≠ []) (hroom : s.room ≠ some 0) :
    ∃ k s', s.write d = (some k, s') ∧ s.Took s' (d.take k) ∧ 0 < k ∧ k ≤ d.length := by
  have hcut : 0 < (s.cuts 0 : ℕ) := (s.cuts 0).2
  have hlen := List.length_pos_iff.mpr hd
  have hk := s.fit_le (min d.length (s.cuts 0))
  have htake : (d.take (s.fit (min d.length (s.cuts 0)))).length =
      s.fit (min d.length (s.cuts 0)) := by
    rw [List.length_take]
    omega
  refine ⟨_, _, if_neg hroom, ⟨rfl, by rw [htake], ?_⟩, ?_, by omega⟩
  · rw [htake]
    exact s.fit_fit (Nat.le_refl _)
  · cases hr : s.room with
    | none =>
      simp only [fit, hr, Option.elim]
      omega
    | some r =>
      have hr0 : r ≠ 0 := fun h0 => hroom (by rw [hr, h0])
      simp only [fit, hr, Option.elim]
      omega

end Sink

end KisLinux.ShortTransfer
