import KisLinux.FsImage
import Mathlib.Data.List.TakeWhile

/-!
# Path strings

`split_path` of `myutil.c`. A first pass counts components and characters, the
second one copies the characters into a zeroed line and records where each
component starts. Terminators are never written: they are the zeros that the
second pass skips. Stores outside the two buffers stop with `Stop.fault`.
-/
namespace KisLinux.Fs
open ByteMemory

def slash : UInt8 := 47

/-- The bytes before the first NUL; `none` when there is no NUL to stop at. -/
def cString : List UInt8 → Option (List UInt8)
  | [] => none
  | c :: rest => if c = 0 then some [] else (cString rest).map (c :: ·)

theorem cString_append_zero {w : List UInt8} (rest : List UInt8) (h : 0 ∉ w) :
    cString (w ++ 0 :: rest) = some w := by
  induction w with
  | nil => rfl
  | cons c w ih =>
    have hc : c ≠ 0 := fun hc => h (by simp [hc])
    have hw : (0 : UInt8) ∉ w := fun hw => h (List.mem_cons_of_mem _ hw)
    simp [cString, hc, ih hw]

theorem exists_cString {b : List UInt8} (h : 0 ∈ b) : ∃ w, cString b = some w := by
  induction b with
  | nil => cases h
  | cons c b ih =>
    rw [cString]
    split
    · exact ⟨[], rfl⟩
    · next hc =>
      obtain ⟨w, hw⟩ := ih ((List.mem_cons.mp h).resolve_left (Ne.symm hc))
      exact ⟨c :: w, by rw [hw]; rfl⟩

theorem cString_length_lt {b w : List UInt8} (h : cString b = some w) : w.length < b.length := by
  induction b generalizing w with
  | nil => cases h
  | cons c b ih =>
    rw [cString] at h
    split at h
    · obtain rfl := Option.some.inj h
      exact Nat.succ_pos _
    · obtain ⟨w', hw, rfl⟩ := Option.map_eq_some_iff.mp h
      exact Nat.succ_lt_succ (ih hw)

theorem zero_notMem_of_cString {b w : List UInt8} (h : cString b = some w) : 0 ∉ w := by
  induction b generalizing w with
  | nil => simp [cString] at h
  | cons c b ih =>
    by_cases hc : c = 0
    · rw [cString, if_pos hc] at h
      obtain rfl := Option.some.inj h
      exact List.not_mem_nil
    · simp only [cString, if_neg hc, Option.map_eq_some_iff] at h
      obtain ⟨w', hw', rfl⟩ := h
      simp only [List.mem_cons, not_or]
      exact ⟨Ne.symm hc, ih hw'⟩

structure Path where
  line : List UInt8
  parts : List (Option ℕ)
  count : ℕ
  deriving DecidableEq, Repr

/-- The first loop; the counters are `k` and `len`. -/
def scanPath : List UInt8 → ℕ → ℕ → Except Stop (ℕ × ℕ)
  | [], k, len => .ok (k, len)
  | c :: rest, k, len =>
    if c = slash ∧ rest.head? = some slash then .error (.die .invalidPath)
    else scanPath rest (if c = slash ∧ rest ≠ [] then k + 1 else k)
      (if c ≠ slash then len + 1 else len)

/-- The buffers and pointers of the second loop. -/
structure PathFill where
  line : List UInt8
  linePointer : ℕ
  parts : List (Option ℕ)
  resPointer : ℕ
  deriving DecidableEq, Repr

/-- The second loop; `atStart` is `p == path`. -/
def fillPath : Bool → List UInt8 → PathFill → Except Stop PathFill
  | _, [], f => .ok f
  | atStart, c :: rest, f =>
    if c ≠ slash then
      if f.linePointer < f.line.length then
        fillPath false rest
          { f with line := f.line.set f.linePointer c, linePointer := f.linePointer + 1 }
      else .error .fault
    else if atStart = false ∧ rest ≠ [] then
      if f.resPointer + 1 < f.parts.length then
        fillPath false rest
          { f with
            linePointer := f.linePointer + 1
            resPointer := f.resPointer + 1
            parts := f.parts.set (f.resPointer + 1) (some (f.linePointer + 1)) }
      else .error .fault
    else fillPath false rest f

def splitPath (path : List UInt8) : Except Stop Path :=
  if path.head? ≠ some slash then .error (.die .invalidPath)
  else
    match scanPath path 0 0 with
    | .error e => .error e
    | .ok (k, len) =>
      let start : PathFill :=
        { line := List.replicate (len + k) 0
          linePointer := 0
          parts := (List.replicate (k + 1) none).set 0 (some 0)
          resPointer := 0 }
      match fillPath true path start with
      | .error e => .error e
      | .ok f => .ok { line := f.line, parts := f.parts, count := k }

/-- Reading `path.parts[i]` as a string. Past the array, through a null entry or
without a terminator the read leaves every object. -/
def Path.part (path : Path) (i : ℕ) : Except Stop (List UInt8) :=
  match path.parts[i]? with
  | some (some start) =>
    match cString (path.line.drop start) with
    | some w => .ok w
    | none => .error .fault
  | _ => .error .fault

/-- Components behind slashes. -/
def joinPath (cs : List (List UInt8)) : List UInt8 := cs.flatMap (slash :: ·)

/-- What a component of an accepted path looks like. -/
def IsName (w : List UInt8) : Prop := w ≠ [] ∧ slash ∉ w ∧ 0 ∉ w

/-- `s` spells the components `cs`, with an optional slash at the end. -/
structure Spells (s : List UInt8) (cs : List (List UInt8)) : Prop where
  names : ∀ w ∈ cs, IsName w
  eq : s = joinPath cs ∧ cs ≠ [] ∨ s = joinPath cs ++ [slash]

theorem length_le_joinPath (cs : List (List UInt8)) : cs.length ≤ (joinPath cs).length := by
  induction cs with
  | nil => exact Nat.zero_le _
  | cons w cs ih =>
    rw [joinPath, List.flatMap_cons, List.length_append, List.length_cons, List.length_cons,
      ← joinPath]
    omega

theorem Spells.length_le {s : List UInt8} {cs : List (List UInt8)} (h : Spells s cs) :
    cs.length ≤ s.length := by
  have hjoin := length_le_joinPath cs
  rcases h.eq with ⟨rfl, -⟩ | rfl
  · exact hjoin
  · rw [List.length_append]
    omega

theorem scanPath_word (w rest : List UInt8) (k len : ℕ) (h : slash ∉ w) :
    scanPath (w ++ rest) k len = scanPath rest k (len + w.length) := by
  induction w generalizing len with
  | nil => simp
  | cons c w ih =>
    have hc : c ≠ slash := fun hc => h (by simp [hc])
    have hw : slash ∉ w := fun hw => h (List.mem_cons_of_mem _ hw)
    simp only [List.cons_append, scanPath, hc, false_and, if_false, ne_eq, not_false_eq_true,
      if_true, ih _ hw, List.length_cons]
    rw [show len + 1 + w.length = len + (w.length + 1) by omega]

theorem scanPath_join {cs : List (List UInt8)} {tail : List UInt8} (k len : ℕ)
    (hcs : ∀ w ∈ cs, IsName w) (ht : tail = [] ∨ tail = [slash]) :
    scanPath (joinPath cs ++ tail) k len =
      .ok (k + cs.length, len + (cs.map List.length).sum) := by
  induction cs generalizing k len with
  | nil => rcases ht with rfl | rfl <;> simp [joinPath, scanPath]
  | cons w cs ih =>
    obtain ⟨hne, hs, -⟩ := hcs w (by simp)
    obtain ⟨c, w', rfl⟩ := List.exists_cons_of_ne_nil hne
    have hc : c ≠ slash := fun hc => hs (by simp [hc])
    have hjoin : joinPath ((c :: w') :: cs) ++ tail =
        slash :: ((c :: w') ++ (joinPath cs ++ tail)) := by simp [joinPath]
    have hstep : scanPath (slash :: ((c :: w') ++ (joinPath cs ++ tail))) k len =
        scanPath ((c :: w') ++ (joinPath cs ++ tail)) (k + 1) len := by
      simp [scanPath, hc]
    rw [hjoin, hstep, scanPath_word _ _ _ _ hs,
      ih _ _ fun w hw => hcs w (List.mem_cons_of_mem _ hw)]
    simp only [List.length_cons, List.map_cons, List.sum_cons]
    congr 2 <;> omega

theorem scanPath_error {s : List UInt8} {k len : ℕ} {e : Stop} (h : scanPath s k len = .error e) :
    e = .die .invalidPath := by
  induction s generalizing k len with
  | nil => simp [scanPath] at h
  | cons c s ih =>
    rw [scanPath] at h
    split at h
    · simpa using h.symm
    · exact ih h

theorem scanPath_error_iff (s : List UInt8) (k len : ℕ) :
    scanPath s k len = .error (.die .invalidPath) ↔ [slash, slash] <:+: s := by
  induction s generalizing k len with
  | nil => simp [scanPath]
  | cons c rest ih =>
    rw [scanPath, List.infix_cons_iff]
    have hhead : [slash, slash] <+: c :: rest ↔ c = slash ∧ rest.head? = some slash := by
      cases rest with
      | nil => simp
      | cons d rest => simp [List.cons_prefix_cons, eq_comm]
    rw [hhead]
    split
    · next hc => exact iff_of_true rfl (Or.inl hc)
    · next hc => rw [ih, or_iff_right hc]

/-- A scan that ends well shows the shape of the string. -/
theorem exists_spells_of_scanPath (t : List UInt8) (k len : ℕ) (r : ℕ × ℕ)
    (h : scanPath (slash :: t) k len = .ok r) (h0 : 0 ∉ t) :
    ∃ cs, Spells (slash :: t) cs := by
  induction hn : t.length using Nat.strong_induction_on generalizing t k len with
  | _ n ih =>
    by_cases ht : t = []
    · subst ht
      exact ⟨[], ⟨by simp, Or.inr (by simp [joinPath])⟩⟩
    have hhead : t.head? ≠ some slash := by
      intro hh
      simp [scanPath, hh] at h
    have hsplit : t = t.takeWhile (· ≠ slash) ++ t.dropWhile (· ≠ slash) :=
      (List.takeWhile_append_dropWhile).symm
    have hw : IsName (t.takeWhile (· ≠ slash)) := by
      refine ⟨?_, ?_, ?_⟩
      · cases t with
        | nil => exact absurd rfl ht
        | cons c t =>
          have hc : c ≠ slash := fun hc => hhead (by simp [hc])
          simp [hc]
      · intro hm
        simpa using List.mem_takeWhile_imp hm
      · exact fun hm => h0 ((List.takeWhile_subset _) hm)
    cases hd : t.dropWhile (· ≠ slash) with
    | nil =>
      rw [hd, List.append_nil] at hsplit
      rw [← hsplit] at hw
      exact ⟨[t], ⟨by simpa using hw, Or.inl (by simp [joinPath])⟩⟩
    | cons c rest =>
      have hc : c = slash := by
        have hne : t.dropWhile (· ≠ slash) ≠ [] := by rw [hd]; simp
        have hnot := List.head_dropWhile_not (· ≠ slash) hne
        rw [(List.head_eq_iff_head?_eq_some hne).mpr (by rw [hd]; rfl)] at hnot
        simpa using hnot
      subst hc
      rw [hd] at hsplit
      have hscan : ∃ k' len', scanPath (slash :: rest) k' len' = .ok r := by
        have h' := h
        rw [scanPath, if_neg (by simp [hhead])] at h'
        rw [hsplit, scanPath_word _ _ _ _ hw.2.1] at h'
        exact ⟨_, _, h'⟩
      obtain ⟨k', len', hscan⟩ := hscan
      have hlt : rest.length < n := by
        have hl := congrArg List.length hsplit
        simp only [List.length_append, List.length_cons] at hl
        omega
      have h0' : (0 : UInt8) ∉ rest := by
        intro hm
        apply h0
        rw [hsplit]
        simp [hm]
      obtain ⟨cs, hcs, heq⟩ := ih _ hlt rest _ _ hscan h0' rfl
      have hcons : slash :: t = slash :: (t.takeWhile (· ≠ slash) ++ slash :: rest) :=
        congrArg _ hsplit
      refine ⟨t.takeWhile (· ≠ slash) :: cs, ⟨List.forall_mem_cons.mpr ⟨hw, hcs⟩, ?_⟩⟩
      rw [hcons]
      rcases heq with ⟨heq, -⟩ | heq <;> rw [heq]
      · exact Or.inl ⟨by simp [joinPath], by simp⟩
      · exact Or.inr (by simp [joinPath])

/-- The line that the second pass leaves behind: every component with its NUL. -/
def lineOf (cs : List (List UInt8)) : List UInt8 := cs.flatMap (· ++ [0])

@[simp] theorem lineOf_cons (w : List UInt8) (cs : List (List UInt8)) :
    lineOf (w :: cs) = w ++ 0 :: lineOf cs := by simp [lineOf]

theorem lineOf_length (cs : List (List UInt8)) :
    (lineOf cs).length = (cs.map List.length).sum + cs.length := by
  induction cs with
  | nil => rfl
  | cons w cs ih =>
    simp only [lineOf_cons, List.length_append, List.length_cons, ih, List.map_cons, List.sum_cons]
    omega

/-- Where the components start when the first one is put at `p`. -/
def startsFrom : ℕ → List (List UInt8) → List ℕ
  | _, [] => []
  | p, w :: cs => p :: startsFrom (p + w.length + 1) cs

theorem startsFrom_length (p : ℕ) (cs : List (List UInt8)) :
    (startsFrom p cs).length = cs.length := by
  induction cs generalizing p with
  | nil => rfl
  | cons w cs ih => simp [startsFrom, ih]

theorem fillPath_word (w rest done zeros : List UInt8) (parts : List (Option ℕ)) (res : ℕ)
    (b : Bool) (hw : slash ∉ w) (hlen : w.length ≤ zeros.length) (hne : w ≠ []) :
    fillPath b (w ++ rest) ⟨done ++ zeros, done.length, parts, res⟩ =
      fillPath false rest
        ⟨done ++ w ++ zeros.drop w.length, done.length + w.length, parts, res⟩ := by
  induction w generalizing b done zeros with
  | nil => exact absurd rfl hne
  | cons c w ih =>
    have hc : c ≠ slash := fun hc => hw (by simp [hc])
    have hw' : slash ∉ w := fun h => hw (List.mem_cons_of_mem _ h)
    obtain ⟨z, zeros', rfl⟩ := List.exists_cons_of_ne_nil
      (show zeros ≠ [] by rintro rfl; simp at hlen)
    have hlt : done.length < (done ++ z :: zeros').length := by simp
    have hset : (done ++ z :: zeros').set done.length c = (done ++ [c]) ++ zeros' := by
      rw [List.set_append_right _ _ (le_refl _)]
      simp
    simp only [List.cons_append, fillPath, hc, ne_eq, not_false_eq_true, if_true, hlt, hset]
    by_cases hw0 : w = []
    · subst hw0
      simp
    · have hstep := ih (done ++ [c]) zeros' false hw' (by simpa using hlen) hw0
      simp only [List.length_append, List.length_cons, List.length_nil, Nat.zero_add] at hstep
      rw [hstep]
      simp [Nat.add_comm, Nat.add_left_comm]

/-- The second pass from the `j`-th component on: the line is finished up to
`done`, whose last byte is the NUL skipped for that component. -/
theorem fillPath_join (cs : List (List UInt8)) (w tail done : List UInt8)
    (starts : List (Option ℕ)) (zeros : List UInt8) (b : Bool)
    (hw : IsName w) (hcs : ∀ w ∈ cs, IsName w) (ht : tail = [] ∨ tail = [slash])
    (hz : zeros = List.replicate (lineOf (w :: cs)).length 0) (hs : starts ≠ []) :
    fillPath b (w ++ (joinPath cs ++ tail))
        ⟨done ++ zeros, done.length, starts ++ List.replicate (cs.length + 1) none,
          starts.length - 1⟩ =
      .ok ⟨done ++ lineOf (w :: cs), done.length + (lineOf (w :: cs)).length - 1,
        starts ++ (startsFrom (done.length + w.length + 1) cs).map some ++ [none],
        starts.length - 1 + cs.length⟩ := by
  induction cs generalizing w done starts zeros b with
  | nil =>
    have hlen : w.length ≤ zeros.length := by subst hz; simp [lineOf]
    rw [fillPath_word w _ done zeros _ _ b hw.2.1 hlen hw.1]
    have hdrop : zeros.drop w.length = [0] := by
      subst hz
      simp [lineOf]
    rcases ht with rfl | rfl <;> simp [joinPath, fillPath, hdrop, startsFrom, lineOf]
  | cons w' cs ih =>
    have hlen : w.length ≤ zeros.length := by subst hz; simp [lineOf]
    have hw' : IsName w' := hcs w' (by simp)
    obtain ⟨c, v, rfl⟩ := List.exists_cons_of_ne_nil hw'.1
    have hjoin : joinPath ((c :: v) :: cs) ++ tail =
        slash :: ((c :: v) ++ (joinPath cs ++ tail)) := by simp [joinPath]
    have hdrop : zeros.drop w.length = 0 :: List.replicate (lineOf ((c :: v) :: cs)).length 0 := by
      subst hz
      rw [List.drop_replicate, ← List.replicate_succ]
      congr 1
      simp [lineOf]
    have hpos : 0 < starts.length := List.length_pos_iff.mpr hs
    rw [fillPath_word w _ done zeros _ _ b hw.2.1 hlen hw.1, hjoin, hdrop]
    have hroom : starts.length - 1 + 1 <
        (starts ++ List.replicate ((List.length ((c :: v) :: cs)) + 1) (none : Option ℕ)).length := by
      simp; omega
    have hset : (starts ++ List.replicate (((c :: v) :: cs).length + 1) (none : Option ℕ)).set
        (starts.length - 1 + 1) (some (done.length + w.length + 1)) =
        (starts ++ [some (done.length + w.length + 1)]) ++ List.replicate (cs.length + 1) none := by
      rw [Nat.sub_add_cancel hpos, List.set_append_right _ _ (le_refl _)]
      simp [List.replicate_succ]
    have hstep := ih (c :: v) (done ++ w ++ [0]) (starts ++ [some (done.length + w.length + 1)])
      (List.replicate (lineOf ((c :: v) :: cs)).length 0) false hw'
      (fun w hw => hcs w (List.mem_cons_of_mem _ hw)) rfl (by simp)
    rw [fillPath, if_neg (by simp), if_pos (by simp), if_pos hroom]
    simp only [hset]
    have hdone : (done ++ w ++ [(0 : UInt8)]).length = done.length + w.length + 1 := by
      simp [Nat.add_assoc]
    have hres : (starts ++ [some (done.length + w.length + 1)]).length - 1 =
        starts.length - 1 + 1 := by simp; omega
    rw [hdone, hres] at hstep
    rw [show done ++ w ++ 0 :: List.replicate (lineOf ((c :: v) :: cs)).length 0 =
      done ++ w ++ [0] ++ List.replicate (lineOf ((c :: v) :: cs)).length 0 by simp, hstep]
    simp [startsFrom, Nat.add_assoc, Nat.add_comm, Nat.add_left_comm]

theorem cString_lineOf (cs : List (List UInt8)) (done : List UInt8) (i : ℕ)
    (hcs : ∀ w ∈ cs, IsName w) (hi : i < cs.length) :
    ∃ start, (startsFrom done.length cs)[i]? = some start ∧
      cString ((done ++ lineOf cs).drop start) = some cs[i] := by
  induction cs generalizing done i with
  | nil => simp at hi
  | cons w cs ih =>
    cases i with
    | zero =>
      refine ⟨done.length, rfl, ?_⟩
      rw [List.drop_left, lineOf_cons, cString_append_zero _ (hcs w (by simp)).2.2]
      rfl
    | succ i =>
      have hstep := ih (done ++ w ++ [0]) i (fun w hw => hcs w (List.mem_cons_of_mem _ hw))
        (by simpa using hi)
      have hdone : (done ++ w ++ [(0 : UInt8)]).length = done.length + w.length + 1 := by
        simp [Nat.add_assoc]
      rw [hdone] at hstep
      simpa [startsFrom] using hstep

/-- What `split_path` returns on a string that spells `cs`: the count, the
components, and nothing that could be read past them. -/
structure SplitsTo (p : Path) (cs : List (List UInt8)) : Prop where
  count_eq : p.count = cs.length
  part_eq : ∀ i (h : i < cs.length), p.part i = .ok cs[i]
  part_past : ∀ i, cs.length ≤ i → p.part i = .error .fault

theorem splitPath_of_spells {s : List UInt8} {cs : List (List UInt8)} (h : Spells s cs) :
    ∃ p, splitPath s = .ok p ∧ SplitsTo p cs := by
  obtain ⟨tail, ht, rfl, hhead⟩ : ∃ tail, (tail = [] ∨ tail = [slash]) ∧
      s = joinPath cs ++ tail ∧ s.head? = some slash := by
    rcases h.eq with ⟨heq, hne⟩ | heq
    · refine ⟨[], Or.inl rfl, by simp [heq], ?_⟩
      obtain ⟨w, cs', rfl⟩ := List.exists_cons_of_ne_nil hne
      simp [heq, joinPath]
    · refine ⟨[slash], Or.inr rfl, heq, ?_⟩
      cases cs with
      | nil => simp [heq, joinPath]
      | cons w cs => simp [heq, joinPath]
  have hscan := scanPath_join 0 0 h.names ht
  simp only [Nat.zero_add] at hscan
  cases cs with
  | nil =>
    refine ⟨⟨[], [some 0], 0⟩, ?_, rfl, by simp, ?_⟩
    · rw [splitPath, if_neg (by simp [hhead]), hscan]
      rcases ht with rfl | rfl <;> simp [joinPath, fillPath, List.replicate_succ]
    · intro i _
      cases i <;> simp [Path.part, cString]
  | cons w cs =>
    have hnames := h.names
    have hw : IsName w := hnames w (by simp)
    have hlen := lineOf_length (w :: cs)
    have hjoin : joinPath (w :: cs) ++ tail = slash :: (w ++ (joinPath cs ++ tail)) := by
      simp [joinPath]
    have hfill := fillPath_join cs w tail [] [some 0]
      (List.replicate (lineOf (w :: cs)).length 0) false hw
      (fun w hw => hnames w (List.mem_cons_of_mem _ hw)) ht rfl (by simp)
    simp only [List.nil_append, List.length_nil, Nat.zero_add, List.length_singleton,
      Nat.sub_self] at hfill
    refine ⟨⟨lineOf (w :: cs), (startsFrom 0 (w :: cs)).map some ++ [none], (w :: cs).length⟩,
      ?_, rfl, ?_, ?_⟩
    · rw [splitPath, if_neg (by simp [hhead]), hscan]
      simp only [← hlen]
      rw [hjoin, fillPath, if_neg (by simp), if_neg (by simp)]
      have hparts : (List.replicate ((w :: cs).length + 1) (none : Option ℕ)).set 0 (some 0) =
          [some 0] ++ List.replicate (cs.length + 1) none := by simp [List.replicate_succ]
      rw [hparts, hfill]
      simp [startsFrom]
    · intro i hi
      obtain ⟨start, hstart, hc⟩ := cString_lineOf (w :: cs) [] i hnames hi
      simp only [List.length_nil, List.nil_append] at hstart hc
      have hget : ((startsFrom 0 (w :: cs)).map some ++ [none])[i]? = some (some start) := by
        rw [List.getElem?_append_left (by simpa [startsFrom_length] using hi), List.getElem?_map,
          hstart]
        rfl
      simp only [Path.part, hget, hc]
    · intro i hi
      have hge : ((startsFrom 0 (w :: cs)).map some).length ≤ i := by
        simpa [startsFrom_length] using hi
      have hget : ∀ start,
          ((startsFrom 0 (w :: cs)).map some ++ [none])[i]? ≠ some (some start) := by
        intro start
        rw [List.getElem?_append_right hge]
        cases i - ((startsFrom 0 (w :: cs)).map some).length <;> simp
      unfold Path.part
      split
      · next start hstart => exact absurd hstart (hget start)
      · rfl

/-- The two reasons for a report, both found before anything is stored. -/
theorem splitPath_error {s : List UInt8}
    (h : s.head? ≠ some slash ∨ [slash, slash] <:+: s) :
    splitPath s = .error (.die .invalidPath) := by
  rw [splitPath]
  split
  · rfl
  · next hs => rw [(scanPath_error_iff s 0 0).mpr (h.resolve_left hs)]

/-- Otherwise the string spells its components. -/
theorem exists_spells {s : List UInt8} (h0 : 0 ∉ s) (hs : s.head? = some slash)
    (hno : ¬ [slash, slash] <:+: s) : ∃ cs, Spells s cs := by
  obtain ⟨t, rfl⟩ := List.head?_eq_some_iff.mp hs
  cases hscan : scanPath (slash :: t) 0 0 with
  | ok r =>
    exact exists_spells_of_scanPath t 0 0 r hscan fun hm => h0 (List.mem_cons_of_mem _ hm)
  | error e =>
    rw [scanPath_error hscan] at hscan
    exact absurd ((scanPath_error_iff _ 0 0).mp hscan) hno

/-- A string without NULs is split exactly when it spells some components; the
only other outcome is the error report. -/
theorem splitPath_cases {s : List UInt8} (h0 : 0 ∉ s) :
    (∃ cs p, Spells s cs ∧ splitPath s = .ok p ∧ SplitsTo p cs) ∨
      splitPath s = .error (.die .invalidPath) := by
  by_cases hbad : s.head? ≠ some slash ∨ [slash, slash] <:+: s
  · exact Or.inr (splitPath_error hbad)
  · rw [not_or, not_not] at hbad
    obtain ⟨cs, hspells⟩ := exists_spells h0 hbad.1 hbad.2
    obtain ⟨p, hp, hsplit⟩ := splitPath_of_spells hspells
    exact Or.inl ⟨cs, p, hspells, hp, hsplit⟩

/-- `len` counts the characters that are no slashes. -/
theorem scanPath_len {s : List UInt8} {k len : ℕ} {r : ℕ × ℕ} (h : scanPath s k len = .ok r) :
    r.2 = len + (s.filter (· ≠ slash)).length := by
  induction s generalizing k len with
  | nil =>
    cases h
    rfl
  | cons c rest ih =>
    rw [scanPath] at h
    split at h
    · cases h
    · rw [ih h]
      by_cases hc : c = slash
      · simp [hc]
      · simp [hc]
        omega

theorem fillPath_lengths {b : Bool} {s : List UInt8} {f f' : PathFill}
    (h : fillPath b s f = .ok f') :
    f'.line.length = f.line.length ∧ f'.parts.length = f.parts.length := by
  fun_induction fillPath b s f with
  | case1 b f =>
    cases h
    exact ⟨rfl, rfl⟩
  | case2 b c rest f hc hroom ih => simpa using ih h
  | case3 => cases h
  | case4 b c rest f hc hb hroom ih => simpa using ih h
  | case5 => cases h
  | case6 b c rest f hc hb ih => exact ih h

/-- The string without the slash that may end it. -/
def withoutTrailingSlash (s : List UInt8) : List UInt8 :=
  if s.getLast? = some slash then s.dropLast else s

theorem getLast?_joinPath {cs : List (List UInt8)} (h : ∀ w ∈ cs, IsName w) :
    (joinPath cs).getLast? ≠ some slash := by
  induction cs with
  | nil => simp [joinPath]
  | cons w cs ih =>
    obtain ⟨hne, hs, -⟩ := h w List.mem_cons_self
    rw [joinPath, List.flatMap_cons, ← joinPath, List.getLast?_append]
    have hrest := ih fun v hv => h v (List.mem_cons_of_mem _ hv)
    cases hlast : (joinPath cs).getLast? with
    | some c =>
      rw [hlast] at hrest
      simpa using hrest
    | none =>
      intro hc
      rw [Option.none_or, List.getLast?_cons_of_ne_nil hne] at hc
      exact hs (List.mem_of_getLast? hc)

theorem Spells.joinPath_eq {s : List UInt8} {cs : List (List UInt8)} (h : Spells s cs) :
    joinPath cs = withoutTrailingSlash s := by
  rcases h.eq with ⟨rfl, -⟩ | rfl
  · rw [withoutTrailingSlash, if_neg (getLast?_joinPath h.names)]
  · rw [withoutTrailingSlash, if_pos (by simp), List.dropLast_concat]

/-- A spelled path is a C string. -/
theorem Spells.zero_notMem {s : List UInt8} {cs : List (List UInt8)} (h : Spells s cs) : 0 ∉ s := by
  have hjoin : 0 ∉ joinPath cs := by
    rw [joinPath, List.mem_flatMap]
    rintro ⟨w, hw, hmem⟩
    rcases List.mem_cons.mp hmem with hzero | hmem
    · exact absurd hzero (by decide)
    · exact (h.names w hw).2.2 hmem
  rcases h.eq with ⟨rfl, -⟩ | rfl
  · exact hjoin
  · rw [List.mem_append, List.mem_singleton, not_or]
    exact ⟨hjoin, by decide⟩

theorem joinPath_eq_nil {cs : List (List UInt8)} : joinPath cs = [] ↔ cs = [] := by
  cases cs <;> simp [joinPath]

theorem Spells.nil_iff {s : List UInt8} {cs : List (List UInt8)} (h : Spells s cs) :
    cs = [] ↔ s = [slash] := by
  constructor
  · rintro rfl
    rcases h.eq with ⟨-, hne⟩ | rfl
    · exact absurd rfl hne
    · rfl
  · rintro rfl
    exact joinPath_eq_nil.mp h.joinPath_eq

/-- The sizes of the two buffers: `len + k` bytes and `k + 1` pointers. -/
theorem splitPath_sizes {s : List UInt8} {p : Path} (h : splitPath s = .ok p) :
    p.line.length = (s.filter (· ≠ slash)).length + p.count ∧ p.parts.length = p.count + 1 := by
  rw [splitPath] at h
  split at h
  · cases h
  · split at h
    · cases h
    · next k len hscan =>
      dsimp only at h
      split at h
      · cases h
      · next f hfill =>
        cases h
        obtain ⟨hline, hparts⟩ := fillPath_lengths hfill
        have hlen : len = 0 + (s.filter (· ≠ slash)).length := scanPath_len hscan
        simp only [List.length_replicate, List.length_set] at hline hparts
        refine ⟨?_, hparts⟩
        rw [hline, hlen, Nat.zero_add]

/-- What `split_path` hands back: the components, each behind its own terminated
start in `line`, and buffers of exactly the sizes that the first pass counted. -/
structure Parsed (s : List UInt8) (p : Path) (cs : List (List UInt8)) : Prop where
  count_eq : p.count = cs.length
  nonempty : ∀ w ∈ cs, w ≠ []
  slashFree : ∀ w ∈ cs, slash ∉ w
  joined : joinPath cs = withoutTrailingSlash s
  zero_iff : p.count = 0 ↔ s = [slash]
  line_length : p.line.length = (s.filter (· ≠ slash)).length + p.count
  parts_length : p.parts.length = p.count + 1
  terminated : ∀ i (h : i < cs.length), p.part i = .ok cs[i]

theorem Spells.parsed {s : List UInt8} {cs : List (List UInt8)} (h : Spells s cs) :
    ∃ p, splitPath s = .ok p ∧ Parsed s p cs := by
  obtain ⟨p, hp, hsplit⟩ := splitPath_of_spells h
  obtain ⟨hline, hparts⟩ := splitPath_sizes hp
  refine ⟨p, hp, hsplit.count_eq, fun w hw => (h.names w hw).1, fun w hw => (h.names w hw).2.1,
    h.joinPath_eq, ?_, hline, hparts, hsplit.part_eq⟩
  rw [hsplit.count_eq, List.length_eq_zero_iff, h.nil_iff]

/-- `split_path` on every string: it reports exactly the strings that do not
start with a slash or hold two in a row, and parses every other one without
leaving its buffers. -/
theorem splitPath_parses (s : List UInt8) (h0 : 0 ∉ s) :
    ((∃ e, splitPath s = .error e) ↔ s.head? ≠ some slash ∨ [slash, slash] <:+: s) ∧
      (∀ e, splitPath s = .error e → e = .die .invalidPath) ∧
      ∀ p, splitPath s = .ok p → ∃ cs, Parsed s p cs := by
  by_cases hbad : s.head? ≠ some slash ∨ [slash, slash] <:+: s
  · have herr := splitPath_error hbad
    refine ⟨iff_of_true ⟨_, herr⟩ hbad, fun e he => ?_, fun p hp => ?_⟩
    · exact Except.error.inj (he.symm.trans herr)
    · rw [herr] at hp
      cases hp
  · rw [not_or, not_not] at hbad
    obtain ⟨cs, hspells⟩ := exists_spells h0 hbad.1 hbad.2
    obtain ⟨p, hp, hparsed⟩ := hspells.parsed
    have hne : ∀ e, splitPath s ≠ .error e := by
      intro e he
      rw [hp] at he
      cases he
    refine ⟨iff_of_false (fun ⟨e, he⟩ => hne e he) ?_, fun e he => absurd he (hne e), fun q hq => ?_⟩
    · rw [not_or, not_not]
      exact hbad
    · obtain rfl := Except.ok.inj (hp.symm.trans hq)
      exact ⟨cs, hparsed⟩

/-- With "/a/b/". -/
theorem splitPath_parses_trailing :
    (0 : UInt8) ∉ [slash, 97, slash, 98, slash] ∧
      ∃ p, splitPath [slash, 97, slash, 98, slash] = .ok p ∧
        ∃ cs, Parsed [slash, 97, slash, 98, slash] p cs :=
  ⟨by decide, ⟨[97, 0, 98, 0], [some 0, some 2, none], 2⟩, rfl,
    (splitPath_parses [slash, 97, slash, 98, slash] (by decide)).2.2 _ rfl⟩

end KisLinux.Fs
