import KisLinux.ByteMemory

/-!
# Decimal numbers in byte strings

How the C library prints a number and how it scans one: blanks, a sign, and as many
digits as there are. A conversion fails where the first character behind the blanks
starts no number, and meets the end where nothing but blanks is left.
-/
namespace KisLinux.Numerals

/-- A character as a byte. -/
def byteOf (c : Char) : UInt8 := UInt8.ofNat c.toNat

/-- `isspace` in the C locale. -/
def isSpace (c : UInt8) : Bool := c = 32 || (9 ≤ c && c ≤ 13)

/-- `isdigit`. -/
def isDigit (c : UInt8) : Bool := 48 ≤ c && c ≤ 57

/-- The number that `printf` writes for `%lu`. -/
def decimal (n : ℕ) : List UInt8 := (Nat.toDigits 10 n).map byteOf

/-- The number that digits spell. -/
def valueOf (digits : List UInt8) : ℕ := digits.foldl (fun n c => 10 * n + (c.toNat - 48)) 0

/-- What one conversion of `sscanf` finds. -/
inductive Scan
  /-- The input ended first. -/
  | eof
  | mismatch
  | number (negative : Bool) (magnitude : ℕ)
  deriving DecidableEq, Repr

/-- The sign in front of a number. -/
def scanSign : List UInt8 → Bool × List UInt8
  | [] => (false, [])
  | c :: s => if c = 45 then (true, s) else if c = 43 then (false, s) else (false, c :: s)

/-- A conversion to a decimal number. -/
def scan (s : List UInt8) : Scan :=
  let s := s.dropWhile isSpace
  if s = [] then .eof
  else
    let digits := (scanSign s).2.takeWhile isDigit
    if digits = [] then .mismatch else .number (scanSign s).1 (valueOf digits)

theorem decimal_ne_nil (n : ℕ) : decimal n ≠ [] := by
  simp [decimal, Nat.toDigits_ne_nil]

theorem byteOf_digit {c : Char} (h : c.isDigit) :
    isDigit (byteOf c) = true ∧ (byteOf c).toNat = c.toNat := by
  have hrange : 48 ≤ c.toNat ∧ c.toNat ≤ 57 := by
    simpa [Char.isDigit, UInt32.le_iff_toNat_le] using h
  have hval : (byteOf c).toNat = c.toNat := by
    rw [byteOf, UInt8.toNat_ofNat']
    exact Nat.mod_eq_of_lt (by omega)
  refine ⟨?_, hval⟩
  simp only [isDigit, Bool.and_eq_true, decide_eq_true_eq, UInt8.le_iff_toNat_le, hval]
  exact hrange

theorem mem_decimal {n : ℕ} {b : UInt8} (h : b ∈ decimal n) : isDigit b = true := by
  obtain ⟨c, hc, rfl⟩ := List.mem_map.mp h
  exact (byteOf_digit (Nat.isDigit_of_mem_toDigits (by decide) (by decide) hc)).1

theorem valueOf_decimal (n : ℕ) : valueOf (decimal n) = n := by
  have hfold : ∀ (cs : List Char) (m : ℕ), (∀ c ∈ cs, c.isDigit) →
      (cs.map byteOf).foldl (fun n c => 10 * n + (c.toNat - 48)) m = Nat.ofDigitChars 10 cs m := by
    intro cs
    induction cs with
    | nil => intro m _; rw [List.map_nil, List.foldl_nil, Nat.ofDigitChars_nil]
    | cons c cs ih =>
      intro m h
      rw [List.map_cons, List.foldl_cons, ih _ fun x hx => h x (List.mem_cons_of_mem _ hx),
        Nat.ofDigitChars_cons, (byteOf_digit (h c List.mem_cons_self)).2]
      rfl
  rw [valueOf, decimal, hfold _ _ fun c hc => Nat.isDigit_of_mem_toDigits (by decide) (by decide) hc]
  exact Nat.ofDigitChars_ten_toDigits

/-- A digit is no blank and no sign. -/
theorem isDigit_ne {c : UInt8} (h : isDigit c = true) : isSpace c = false ∧ c ≠ 45 ∧ c ≠ 43 := by
  simp only [isDigit, Bool.and_eq_true, decide_eq_true_eq, UInt8.le_iff_toNat_le] at h
  refine ⟨?_, ?_, ?_⟩
  · simp only [isSpace, Bool.or_eq_false_iff, decide_eq_false_iff_not, Bool.and_eq_false_iff,
      UInt8.le_iff_toNat_le, ← UInt8.toNat_inj]
    simp only [UInt8.reduceToNat] at h ⊢
    omega
  · rintro rfl
    exact absurd h.1 (by decide)
  · rintro rfl
    exact absurd h.1 (by decide)

theorem takeWhile_digits {ds rest : List UInt8} (hds : ∀ c ∈ ds, isDigit c = true)
    (hrest : ∀ c ∈ rest.head?, isDigit c = false) : (ds ++ rest).takeWhile isDigit = ds := by
  rw [List.takeWhile_append_of_pos hds]
  cases rest with
  | nil => simp
  | cons c rest => simp [hrest c (by simp)]

/-- What is printed for a number is scanned as that number, whatever blanks stand in
front of it and whatever stands behind it that is no digit. -/
theorem scan_decimal (n : ℕ) {blanks rest : List UInt8} (hblanks : ∀ c ∈ blanks, isSpace c = true)
    (hrest : ∀ c ∈ rest.head?, isDigit c = false) :
    scan (blanks ++ decimal n ++ rest) = .number false n := by
  obtain ⟨c, cs, hcs⟩ := List.exists_cons_of_ne_nil (decimal_ne_nil n)
  have hdigits : ∀ x ∈ c :: cs, isDigit x = true := fun x hx => mem_decimal (hcs ▸ hx)
  obtain ⟨hspace, hminus, hplus⟩ := isDigit_ne (hdigits c List.mem_cons_self)
  have hskip : (blanks ++ decimal n ++ rest).dropWhile isSpace = decimal n ++ rest := by
    rw [List.append_assoc, List.dropWhile_append_of_pos hblanks, hcs, List.cons_append,
      List.dropWhile_cons_of_neg (by simp [hspace])]
  have hsign : scanSign (decimal n ++ rest) = (false, decimal n ++ rest) := by
    rw [hcs, List.cons_append, scanSign, if_neg hminus, if_neg hplus]
  have htake : (decimal n ++ rest).takeWhile isDigit = decimal n :=
    takeWhile_digits (fun c hc => mem_decimal hc) hrest
  simp only [scan, hskip, hsign, htake, valueOf_decimal]
  rw [if_neg (by simp [decimal_ne_nil]), if_neg (decimal_ne_nil n)]

end KisLinux.Numerals
