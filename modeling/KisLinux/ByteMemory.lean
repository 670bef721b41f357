import Mathlib.Data.List.Basic
import Mathlib.Tactic.Ring

/-!
# Byte-addressed memory

A memory is a total map from addresses to bytes. Ranges are read as lists with
`slice` and replaced with `blit`; numbers are stored little-endian. Nothing here
depends on what the bytes mean, so callers state their frames through
`slice_blit_of_disjoint` and `slice_blit_self` only.
-/
namespace KisLinux.ByteMemory

abbrev Memory := ℕ → UInt8

/-- The number spelled by little-endian bytes. -/
def leNat : List UInt8 → ℕ
  | [] => 0
  | b :: bs => b.toNat + 256 * leNat bs

/-- The low `k` bytes of `v`, least significant first. -/
def leBytes : ℕ → ℕ → List UInt8
  | 0, _ => []
  | k + 1, v => UInt8.ofNat v :: leBytes k (v / 256)

@[simp] theorem leBytes_length (k v : ℕ) : (leBytes k v).length = k := by
  induction k generalizing v with
  | zero => rfl
  | succ k ih => simp [leBytes, ih]

theorem leNat_leBytes_mod (k v : ℕ) : leNat (leBytes k v) = v % 256 ^ k := by
  induction k generalizing v with
  | zero => simp [leBytes, leNat, Nat.mod_one]
  | succ k ih =>
    have hb : (UInt8.ofNat v).toNat = v % 256 := by simp
    rw [leBytes, leNat, ih, hb, Nat.pow_succ, Nat.mul_comm (256 ^ k) 256, Nat.mod_mul]

theorem leNat_leBytes {k v : ℕ} (h : v < 256 ^ k) : leNat (leBytes k v) = v := by
  rw [leNat_leBytes_mod, Nat.mod_eq_of_lt h]

theorem leNat_lt (l : List UInt8) : leNat l < 256 ^ l.length := by
  induction l with
  | nil => simp [leNat]
  | cons b l ih =>
    have hb := b.toNat_lt
    simp only [leNat, List.length_cons, pow_succ]
    omega

theorem leBytes_leNat (l : List UInt8) : leBytes l.length (leNat l) = l := by
  induction l with
  | nil => rfl
  | cons b l ih =>
    have hb := b.toNat_lt
    have hdiv : (b.toNat + 256 * leNat l) / 256 = leNat l := by omega
    have hmod : UInt8.ofNat (b.toNat + 256 * leNat l) = b := by
      apply UInt8.toNat_inj.mp
      rw [UInt8.toNat_ofNat']
      omega
    simp only [List.length_cons, leBytes, leNat, hdiv, hmod, ih]

/-- The `n` bytes of `m` from address `a` on. -/
def slice (m : Memory) (a : ℕ) : ℕ → List UInt8
  | 0 => []
  | n + 1 => m a :: slice m (a + 1) n

@[simp] theorem slice_length (m : Memory) (a n : ℕ) : (slice m a n).length = n := by
  induction n generalizing a with
  | zero => rfl
  | succ n ih => simp [slice, ih]

theorem slice_getElem? (m : Memory) (a n i : ℕ) :
    (slice m a n)[i]? = if i < n then some (m (a + i)) else none := by
  induction n generalizing a i with
  | zero => simp [slice]
  | succ n ih =>
    cases i with
    | zero => simp [slice]
    | succ i =>
      simp only [slice, List.getElem?_cons_succ, ih, Nat.add_lt_add_iff_right]
      rw [show a + 1 + i = a + (i + 1) by omega]

/-- The front of a list is read back from the memory that starts with it. -/
theorem slice_getD_append (l r : List UInt8) :
    slice (fun a => (l ++ r).getD a 0) 0 l.length = l := by
  refine List.ext_getElem? fun i => ?_
  rw [slice_getElem?]
  split_ifs with hi
  · rw [Nat.zero_add, List.getD_eq_getElem?_getD, List.getElem?_append_left hi,
      List.getElem?_eq_getElem hi, Option.getD_some]
  · rw [List.getElem?_eq_none (by omega)]

theorem slice_congr {m m' : Memory} {a n : ℕ} (h : ∀ i < n, m (a + i) = m' (a + i)) :
    slice m a n = slice m' a n := by
  apply List.ext_getElem?
  intro i
  rw [slice_getElem?, slice_getElem?]
  split_ifs with hi
  · rw [h i hi]
  · rfl

theorem slice_add (m : Memory) (a n k : ℕ) :
    slice m a (n + k) = slice m a n ++ slice m (a + n) k := by
  induction n generalizing a with
  | zero => simp [slice]
  | succ n ih =>
    rw [show n + 1 + k = (n + k) + 1 by omega]
    simp only [slice, ih, List.cons_append]
    rw [show a + 1 + n = a + (n + 1) by omega]

theorem slice_take (m : Memory) (a n k : ℕ) : (slice m a n).take k = slice m a (min k n) := by
  apply List.ext_getElem?
  intro i
  simp only [List.getElem?_take, slice_getElem?, lt_min_iff]
  split_ifs <;> first | rfl | omega

theorem slice_drop (m : Memory) (a n k : ℕ) : (slice m a n).drop k = slice m (a + k) (n - k) := by
  apply List.ext_getElem?
  intro i
  simp only [List.getElem?_drop, slice_getElem?, Nat.add_assoc]
  split_ifs <;> first | rfl | omega

/-- Replace the bytes from address `a` on by `d`. -/
def blit (m : Memory) (a : ℕ) (d : List UInt8) : Memory := fun x =>
  if x < a then m x else (d[x - a]?).getD (m x)

theorem blit_of_lt (m : Memory) (d : List UInt8) {a x : ℕ} (h : x < a) : blit m a d x = m x := by
  simp [blit, h]

theorem blit_of_le (m : Memory) (d : List UInt8) {a x : ℕ} (h : a + d.length ≤ x) :
    blit m a d x = m x := by
  have hx : ¬ x < a := by omega
  have hn : d[x - a]? = none := List.getElem?_eq_none (by omega)
  simp [blit, hx, hn]

theorem blit_add (m : Memory) (a i : ℕ) (d : List UInt8) :
    blit m a d (a + i) = (d[i]?).getD (m (a + i)) := by
  simp [blit]

@[simp] theorem blit_nil (m : Memory) (a : ℕ) : blit m a [] = m := by
  funext x
  simp [blit]

/-- Copying a range onto itself changes nothing. -/
@[simp] theorem blit_slice_self (m : Memory) (a n : ℕ) : blit m a (slice m a n) = m := by
  funext x
  unfold blit
  split_ifs with hx
  · rfl
  · rw [slice_getElem?]
    split_ifs
    · rw [Option.getD_some, Nat.add_sub_cancel' (Nat.le_of_not_lt hx)]
    · rfl

theorem slice_blit_of_disjoint (m : Memory) {a n b : ℕ} {d : List UInt8}
    (h : a + n ≤ b ∨ b + d.length ≤ a) : slice (blit m b d) a n = slice m a n := by
  apply slice_congr
  intro i hi
  rcases h with h | h
  · exact blit_of_lt m d (by omega)
  · exact blit_of_le m d (by omega)

theorem slice_blit_self (m : Memory) (a : ℕ) (d : List UInt8) :
    slice (blit m a d) a d.length = d := by
  apply List.ext_getElem?
  intro i
  rw [slice_getElem?]
  split_ifs with hi
  · rw [blit_add, List.getElem?_eq_getElem hi, Option.getD_some]
  · rw [List.getElem?_eq_none (by omega)]

/-- A list with the elements from position `o` on replaced by `d`; it grows when
`d` reaches past its end. -/
def overwrite {α : Type*} (l : List α) (o : ℕ) (d : List α) : List α :=
  l.take o ++ d ++ l.drop (o + d.length)

@[simp] theorem overwrite_nil {α : Type*} (l : List α) (o : ℕ) : overwrite l o [] = l := by
  simp [overwrite]

theorem overwrite_length {α : Type*} {l : List α} {o : ℕ} (d : List α) (h : o ≤ l.length) :
    (overwrite l o d).length = max l.length (o + d.length) := by
  simp only [overwrite, List.length_append, List.length_take, List.length_drop]
  omega

theorem overwrite_singleton {α : Type*} {l : List α} {o : ℕ} (x : α) (h : o < l.length) :
    overwrite l o [x] = l.set o x := by
  rw [overwrite, List.set_eq_take_append_cons_drop, if_pos h, List.append_assoc]
  rfl

/-- Overwriting past a prefix leaves the prefix alone. -/
theorem overwrite_append {α : Type*} (p l d : List α) (o : ℕ) :
    overwrite (p ++ l) (p.length + o) d = p ++ overwrite l o d := by
  simp [overwrite, List.take_append, List.drop_append, Nat.add_assoc,
    List.take_of_length_le, List.drop_eq_nil_of_le]

/-- Overwriting a list piece by piece. -/
theorem overwrite_split {α : Type*} (l l' d d' : List α) (o : ℕ) (h : o + d.length = l.length) :
    overwrite (l ++ l') o (d ++ d') = overwrite l o d ++ overwrite l' 0 d' := by
  have h1 : (l ++ l').take o = l.take o := List.take_append_of_le_length (by omega)
  have h2 : (l ++ l').drop (o + (d ++ d').length) = l'.drop d'.length := by
    rw [List.length_append, ← Nat.add_assoc, h, List.drop_append]
    simp
  have h3 : l.drop (o + d.length) = [] := List.drop_eq_nil_of_le (by omega)
  simp only [overwrite, h1, h2, h3, List.take_zero, List.nil_append, List.append_nil,
    Nat.zero_add, List.append_assoc]

/-- What follows the overwritten part is overwritten next. -/
theorem overwrite_overwrite {α : Type*} {l : List α} {o : ℕ} (d d' : List α) (h : o ≤ l.length) :
    overwrite (overwrite l o d) (o + d.length) d' = overwrite l o (d ++ d') := by
  have hfront : (l.take o ++ d).length = o + d.length := by
    rw [List.length_append, List.length_take, Nat.min_eq_left h]
  have hdrop : (l.take o ++ d ++ l.drop (o + d.length)).drop (o + d.length + d'.length) =
      l.drop (o + d.length + d'.length) := by
    rw [← List.drop_drop, List.drop_left' hfront, List.drop_drop]
  rw [overwrite, overwrite, hdrop, List.take_left' hfront, overwrite, List.length_append,
    List.append_assoc (l.take o), Nat.add_assoc]

/-- Overwriting only touches the front part when it ends there. -/
theorem overwrite_front {α : Type*} (l l' d : List α) (o : ℕ) (h : o + d.length ≤ l.length) :
    overwrite (l ++ l') o d = overwrite l o d ++ l' := by
  have h1 : (l ++ l').take o = l.take o := List.take_append_of_le_length (by omega)
  have h2 : (l ++ l').drop (o + d.length) = l.drop (o + d.length) ++ l' :=
    List.drop_append_of_le_length h
  simp only [overwrite, h1, h2, List.append_assoc]

theorem overwrite_take {α : Type*} {l d : List α} {o n : ℕ} (h : o ≤ n) (hn : n ≤ l.length) :
    (overwrite l o d).take (max n (o + d.length)) = overwrite (l.take n) o d := by
  apply List.ext_getElem?
  intro i
  have hl : (l.take o).length = o := by simp; omega
  have hl' : ((l.take n).take o).length = o := by simp; omega
  simp only [overwrite, List.getElem?_take, List.getElem?_append, List.length_append, hl, hl',
    List.getElem?_drop]
  split_ifs <;> first | rfl | omega

/-- A slice of a blitted range is the overwritten slice. -/
theorem slice_blit_within (m : Memory) (a n o : ℕ) (d : List UInt8) (h : o + d.length ≤ n) :
    slice (blit m (a + o) d) a n = overwrite (slice m a n) o d := by
  have hsplit : n = o + d.length + (n - (o + d.length)) := by omega
  have h1 : slice (blit m (a + o) d) a o = slice m a o :=
    slice_blit_of_disjoint m (Or.inl (by omega))
  have h2 := slice_blit_self m (a + o) d
  have h3 : slice (blit m (a + o) d) (a + (o + d.length)) (n - (o + d.length)) =
      slice m (a + (o + d.length)) (n - (o + d.length)) :=
    slice_blit_of_disjoint m (Or.inr (by omega))
  have hlhs : slice (blit m (a + o) d) a n =
      slice m a o ++ d ++ slice m (a + (o + d.length)) (n - (o + d.length)) := by
    rw [hsplit, slice_add, slice_add, h1, h2, h3, Nat.add_sub_cancel_left]
  rw [hlhs, overwrite, slice_take, slice_drop, Nat.min_eq_left (by omega)]

end KisLinux.ByteMemory
