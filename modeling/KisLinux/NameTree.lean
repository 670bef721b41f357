import Mathlib.Data.List.Basic
import Mathlib.Data.List.Nodup
import Mathlib.Data.List.Perm.Basic

/-!
# Ordered directories

A directory is an ordered list of named nodes, and a node is a file with some
data or a directory. Names may repeat: a name means its first entry. Nodes carry
labels, which a concrete representation uses to say where a node is stored;
`relabel` forgets or changes them. Labels listed depth first (`allLabels`) are
split by every lookup, which is how frames are stated below.
-/
namespace KisLinux.NameTree

variable {ν ι κ δ : Type*}

inductive Entries (ν ι δ : Type*)
  | nil
  | file (name : ν) (label : ι) (data : δ) (rest : Entries ν ι δ)
  | dir (name : ν) (label : ι) (sub : Entries ν ι δ) (rest : Entries ν ι δ)
  deriving DecidableEq, Repr

inductive Node (ν ι δ : Type*)
  | file (label : ι) (data : δ)
  | dir (label : ι) (sub : Entries ν ι δ)
  deriving DecidableEq, Repr

namespace Node

def label : Node ν ι δ → ι
  | .file l _ => l
  | .dir l _ => l

end Node

namespace Entries

/-- The entry in front of a list. -/
def cons (x : ν) (n : Node ν ι δ) (rest : Entries ν ι δ) : Entries ν ι δ :=
  match n with
  | .file l d => .file x l d rest
  | .dir l sub => .dir x l sub rest

/-- The entry behind a list. -/
def snoc : Entries ν ι δ → ν → Node ν ι δ → Entries ν ι δ
  | .nil, x, n => cons x n .nil
  | .file y l d rest, x, n => .file y l d (rest.snoc x n)
  | .dir y l sub rest, x, n => .dir y l sub (rest.snoc x n)

def names : Entries ν ι δ → List ν
  | .nil => []
  | .file x _ _ rest => x :: rest.names
  | .dir x _ _ rest => x :: rest.names

def labels : Entries ν ι δ → List ι
  | .nil => []
  | .file _ l _ rest => l :: rest.labels
  | .dir _ l _ rest => l :: rest.labels

/-- The labels of the entries and of everything below them. -/
def allLabels : Entries ν ι δ → List ι
  | .nil => []
  | .file _ l _ rest => l :: rest.allLabels
  | .dir _ l sub rest => l :: (sub.allLabels ++ rest.allLabels)

def relabel (f : ι → κ) : Entries ν ι δ → Entries ν κ δ
  | .nil => .nil
  | .file x l d rest => .file x (f l) d (rest.relabel f)
  | .dir x l sub rest => .dir x (f l) (sub.relabel f) (rest.relabel f)

end Entries

namespace Node

def allLabels : Node ν ι δ → List ι
  | .file l _ => [l]
  | .dir l sub => l :: sub.allLabels

def relabel (f : ι → κ) : Node ν ι δ → Node ν κ δ
  | .file l d => .file (f l) d
  | .dir l sub => .dir (f l) (sub.relabel f)

theorem label_mem_allLabels (n : Node ν ι δ) : n.label ∈ n.allLabels := by
  cases n <;> simp [label, allLabels]

@[simp] theorem relabel_label (f : ι → κ) (n : Node ν ι δ) : (n.relabel f).label = f n.label := by
  cases n <;> rfl

end Node

namespace Entries

@[simp] theorem labels_cons (x : ν) (n : Node ν ι δ) (rest : Entries ν ι δ) :
    (cons x n rest).labels = n.label :: rest.labels := by cases n <;> rfl

@[simp] theorem names_cons (x : ν) (n : Node ν ι δ) (rest : Entries ν ι δ) :
    (cons x n rest).names = x :: rest.names := by cases n <;> rfl

@[simp] theorem allLabels_cons (x : ν) (n : Node ν ι δ) (rest : Entries ν ι δ) :
    (cons x n rest).allLabels = n.allLabels ++ rest.allLabels := by
  cases n <;> simp [cons, allLabels, Node.allLabels]

@[simp] theorem relabel_cons (f : ι → κ) (x : ν) (n : Node ν ι δ) (rest : Entries ν ι δ) :
    (cons x n rest).relabel f = cons x (n.relabel f) (rest.relabel f) := by cases n <;> rfl

/-- Entry by entry: the induction that does not look into a node. -/
theorem cons_induction {motive : Entries ν ι δ → Prop} (nil : motive .nil)
    (cons : ∀ x n rest, motive rest → motive (cons x n rest)) (t : Entries ν ι δ) : motive t := by
  induction t with
  | nil => exact nil
  | file x l d rest ih => exact cons x (.file l d) rest ih
  | dir x l sub rest _ ih => exact cons x (.dir l sub) rest ih

@[simp] theorem snoc_cons (y : ν) (m : Node ν ι δ) (rest : Entries ν ι δ) (x : ν) (n : Node ν ι δ) :
    (cons y m rest).snoc x n = cons y m (rest.snoc x n) := by cases m <;> rfl

@[simp] theorem labels_snoc (t : Entries ν ι δ) (x : ν) (n : Node ν ι δ) :
    (t.snoc x n).labels = t.labels ++ [n.label] := by
  induction t using cons_induction with
  | nil => simp [snoc, labels]
  | cons y m rest ih => simp [ih]

@[simp] theorem names_snoc (t : Entries ν ι δ) (x : ν) (n : Node ν ι δ) :
    (t.snoc x n).names = t.names ++ [x] := by
  induction t using cons_induction with
  | nil => simp [snoc, names]
  | cons y m rest ih => simp [ih]

@[simp] theorem allLabels_snoc (t : Entries ν ι δ) (x : ν) (n : Node ν ι δ) :
    (t.snoc x n).allLabels = t.allLabels ++ n.allLabels := by
  induction t using cons_induction with
  | nil => simp [snoc, allLabels]
  | cons y m rest ih => simp [ih]

@[simp] theorem relabel_snoc (f : ι → κ) (t : Entries ν ι δ) (x : ν) (n : Node ν ι δ) :
    (t.snoc x n).relabel f = (t.relabel f).snoc x (n.relabel f) := by
  induction t using cons_induction with
  | nil => simp [snoc, relabel]
  | cons y m rest ih => simp [ih]

@[simp] theorem names_relabel (f : ι → κ) (t : Entries ν ι δ) : (t.relabel f).names = t.names := by
  induction t using cons_induction with
  | nil => rfl
  | cons y m rest ih => simp [ih]

theorem labels_subset_allLabels (t : Entries ν ι δ) : t.labels ⊆ t.allLabels := by
  induction t using cons_induction with
  | nil => simp [labels]
  | cons y m rest ih =>
    intro l hl
    rw [labels_cons, List.mem_cons] at hl
    rw [allLabels_cons, List.mem_append]
    rcases hl with rfl | hl
    · exact Or.inl m.label_mem_allLabels
    · exact Or.inr (ih hl)

/-! ## Lookup by first match -/

variable [DecidableEq ν]

def find? (x : ν) : Entries ν ι δ → Option (Node ν ι δ)
  | .nil => none
  | .file y l d rest => if y = x then some (.file l d) else rest.find? x
  | .dir y l sub rest => if y = x then some (.dir l sub) else rest.find? x

/-- The position of the entry that `find?` returns. -/
def index? (x : ν) : Entries ν ι δ → Option ℕ
  | .nil => none
  | .file y _ _ rest => if y = x then some 0 else (rest.index? x).map (· + 1)
  | .dir y _ _ rest => if y = x then some 0 else (rest.index? x).map (· + 1)

/-- Change the node of the first entry with a name. -/
def modify (x : ν) (f : Node ν ι δ → Node ν ι δ) : Entries ν ι δ → Entries ν ι δ
  | .nil => .nil
  | .file y l d rest => if y = x then cons y (f (.file l d)) rest else .file y l d (rest.modify x f)
  | .dir y l sub rest =>
    if y = x then cons y (f (.dir l sub)) rest else .dir y l sub (rest.modify x f)

/-- Drop the first entry with a name. -/
def erase (x : ν) : Entries ν ι δ → Entries ν ι δ
  | .nil => .nil
  | .file y l d rest => if y = x then rest else .file y l d (rest.erase x)
  | .dir y l sub rest => if y = x then rest else .dir y l sub (rest.erase x)

@[simp] theorem find?_cons (x y : ν) (n : Node ν ι δ) (rest : Entries ν ι δ) :
    (cons y n rest).find? x = if y = x then some n else rest.find? x := by cases n <;> rfl

@[simp] theorem index?_cons (x y : ν) (n : Node ν ι δ) (rest : Entries ν ι δ) :
    (cons y n rest).index? x = if y = x then some 0 else (rest.index? x).map (· + 1) := by
  cases n <;> rfl

@[simp] theorem modify_cons (x y : ν) (f : Node ν ι δ → Node ν ι δ) (n : Node ν ι δ)
    (rest : Entries ν ι δ) : (cons y n rest).modify x f =
      if y = x then cons y (f n) rest else cons y n (rest.modify x f) := by cases n <;> rfl

@[simp] theorem erase_cons (x y : ν) (n : Node ν ι δ) (rest : Entries ν ι δ) :
    (cons y n rest).erase x = if y = x then rest else cons y n (rest.erase x) := by cases n <;> rfl

theorem relabel_find? (f : ι → κ) (x : ν) (t : Entries ν ι δ) :
    (t.relabel f).find? x = (t.find? x).map (Node.relabel f) := by
  induction t using cons_induction with
  | nil => rfl
  | cons y n rest ih =>
    simp only [relabel_cons, find?_cons, ih]
    split <;> rfl

theorem relabel_modify (f : ι → κ) (x : ν) {h : Node ν ι δ → Node ν ι δ}
    {h' : Node ν κ δ → Node ν κ δ} (t : Entries ν ι δ)
    (hh : ∀ n, t.find? x = some n → (h n).relabel f = h' (n.relabel f)) :
    (t.modify x h).relabel f = (t.relabel f).modify x h' := by
  induction t using cons_induction with
  | nil => rfl
  | cons y n rest ih =>
    simp only [relabel_cons, modify_cons, find?_cons] at hh ⊢
    split
    · next hy =>
      rw [if_pos hy] at hh
      rw [relabel_cons, hh n rfl]
    · next hy =>
      rw [if_neg hy] at hh
      rw [relabel_cons, ih hh]

theorem find?_modify (x y : ν) (f : Node ν ι δ → Node ν ι δ) (t : Entries ν ι δ) :
    (t.modify x f).find? y = if y = x then (t.find? x).map f else t.find? y := by
  induction t using cons_induction with
  | nil => simp [modify, find?]
  | cons z n rest ih =>
    simp only [modify_cons, find?_cons]
    by_cases hz : z = x
    · subst hz
      by_cases hy : y = z
      · simp [hy]
      · simp [hy, Ne.symm hy]
    · by_cases hy : y = x
      · subst hy
        simp [hz, ih]
      · simp [hy, hz, ih]

theorem modify_modify (x : ν) (f h : Node ν ι δ → Node ν ι δ) (t : Entries ν ι δ) :
    (t.modify x f).modify x h = t.modify x (h ∘ f) := by
  induction t using cons_induction with
  | nil => rfl
  | cons y n rest ih =>
    rw [modify_cons, modify_cons]
    split
    · next hy => rw [modify_cons, if_pos hy, Function.comp_apply]
    · next hy => rw [modify_cons, if_neg hy, ih]

theorem modify_congr {x : ν} {f h : Node ν ι δ → Node ν ι δ} {t : Entries ν ι δ}
    (hf : ∀ n, t.find? x = some n → f n = h n) : t.modify x f = t.modify x h := by
  induction t using cons_induction with
  | nil => rfl
  | cons y n rest ih =>
    rw [find?_cons] at hf
    rw [modify_cons, modify_cons]
    split
    · next hy =>
      rw [if_pos hy] at hf
      rw [hf n rfl]
    · next hy =>
      rw [if_neg hy] at hf
      rw [ih hf]

theorem find?_snoc (t : Entries ν ι δ) (x y : ν) (n : Node ν ι δ) :
    (t.snoc x n).find? y = (t.find? y).or (if x = y then some n else none) := by
  induction t using cons_induction with
  | nil => simp [snoc, find?]
  | cons z m rest ih =>
    simp only [snoc_cons, find?_cons, ih]
    split <;> rfl

/-- A name is found exactly when it has a position, and the entry there has the
label of the node. -/
theorem find?_of_index? {x : ν} {t : Entries ν ι δ} {i : ℕ} (h : t.index? x = some i) :
    ∃ n, t.find? x = some n ∧ t.labels[i]? = some n.label := by
  induction t using cons_induction generalizing i with
  | nil => cases h
  | cons y n rest ih =>
    rw [index?_cons] at h
    rw [find?_cons, labels_cons]
    split at h
    · next hy =>
      obtain rfl := Option.some.inj h
      exact ⟨n, if_pos hy, rfl⟩
    · next hy =>
      obtain ⟨j, hj, rfl⟩ := Option.map_eq_some_iff.mp h
      rw [if_neg hy, List.getElem?_cons_succ]
      exact ih hj

theorem find?_eq_none {x : ν} {t : Entries ν ι δ} (h : t.index? x = none) : t.find? x = none := by
  induction t using cons_induction with
  | nil => rfl
  | cons y n rest ih =>
    rw [index?_cons] at h
    rw [find?_cons]
    split at h
    · cases h
    · next hy =>
      rw [if_neg hy]
      exact ih (Option.map_eq_none_iff.mp h)

theorem labels_erase {x : ν} {t : Entries ν ι δ} {i : ℕ} (h : t.index? x = some i) :
    (t.erase x).labels = t.labels.eraseIdx i := by
  induction t using cons_induction generalizing i with
  | nil => cases h
  | cons y n rest ih =>
    rw [index?_cons] at h
    rw [erase_cons, labels_cons]
    split at h
    · next hy =>
      obtain rfl := Option.some.inj h
      rw [if_pos hy]
      rfl
    · next hy =>
      obtain ⟨j, hj, rfl⟩ := Option.map_eq_some_iff.mp h
      rw [if_neg hy, labels_cons, ih hj, List.eraseIdx_cons_succ]

theorem labels_modify {x : ν} {f : Node ν ι δ → Node ν ι δ} {t : Entries ν ι δ}
    (hf : ∀ n, t.find? x = some n → (f n).label = n.label) : (t.modify x f).labels = t.labels := by
  induction t using cons_induction with
  | nil => rfl
  | cons y n rest ih =>
    rw [find?_cons] at hf
    rw [modify_cons, labels_cons]
    split
    · next hy => rw [labels_cons, hf n (if_pos hy)]
    · next hy =>
      rw [labels_cons, ih fun m hm => hf m (by rw [if_neg hy, hm])]

theorem modify_eq_self {x : ν} {f : Node ν ι δ → Node ν ι δ} {t : Entries ν ι δ}
    (hf : ∀ n, t.find? x = some n → f n = n) : t.modify x f = t := by
  induction t using cons_induction with
  | nil => rfl
  | cons y n rest ih =>
    rw [find?_cons] at hf
    rw [modify_cons]
    split
    · next hy => rw [hf n (if_pos hy)]
    · next hy => rw [ih fun m hm => hf m (by rw [if_neg hy, hm])]

/-- A lookup splits the labels, and changing the node changes only its part. -/
theorem allLabels_split {x : ν} {t : Entries ν ι δ} {n : Node ν ι δ} (h : t.find? x = some n) :
    ∃ pre post, t.allLabels = pre ++ n.allLabels ++ post ∧
      (∀ f : Node ν ι δ → Node ν ι δ, (t.modify x f).allLabels = pre ++ (f n).allLabels ++ post) ∧
      (t.erase x).allLabels = pre ++ post := by
  induction t using cons_induction with
  | nil => cases h
  | cons y m rest ih =>
    rw [find?_cons] at h
    by_cases hy : y = x
    · rw [if_pos hy] at h
      obtain rfl := Option.some.inj h
      exact ⟨[], rest.allLabels, by simp, fun f => by simp [hy], by simp [hy]⟩
    · rw [if_neg hy] at h
      obtain ⟨pre, post, hall, hmod, herase⟩ := ih h
      refine ⟨m.allLabels ++ pre, post, ?_, fun f => ?_, ?_⟩
      · simp [hall, List.append_assoc]
      · simp [hy, hmod, List.append_assoc]
      · simp [hy, herase, List.append_assoc]

theorem find?_allLabels_subset {x : ν} {t : Entries ν ι δ} {n : Node ν ι δ} (h : t.find? x = some n) :
    n.allLabels ⊆ t.allLabels := by
  obtain ⟨pre, post, hall, -, -⟩ := allLabels_split h
  rw [hall]
  intro l hl
  simp [hl]

end Entries

/-! ## Meanings

A representation gives every file cell and every directory cell a meaning; a
tree is represented when all its cells are. -/

structure Meaning (ι δ : Type*) where
  file : ι → δ → Prop
  /-- The list holds the labels of the entries. -/
  dir : ι → List ι → Prop

/-- What `P` says about the label `l` also holds for `Q`. -/
structure Meaning.Below (P Q : Meaning ι δ) (l : ι) : Prop where
  file : ∀ d, P.file l d → Q.file l d
  dir : ∀ s, P.dir l s → Q.dir l s

section All

variable (N : ν → ι → Prop) (P : Meaning ι δ)

def Entries.All : Entries ν ι δ → Prop
  | .nil => True
  | .file x l d rest => N x l ∧ P.file l d ∧ rest.All
  | .dir x l sub rest => N x l ∧ (P.dir l sub.labels ∧ sub.All) ∧ rest.All

def Node.All : Node ν ι δ → Prop
  | .file l d => P.file l d
  | .dir l sub => P.dir l sub.labels ∧ sub.All N P

end All

namespace Entries

variable {N : ν → ι → Prop} {P Q : Meaning ι δ}

@[simp] theorem all_cons (x : ν) (n : Node ν ι δ) (rest : Entries ν ι δ) :
    (cons x n rest).All N P ↔ N x n.label ∧ n.All N P ∧ rest.All N P := by
  cases n <;> rfl

@[simp] theorem all_snoc (t : Entries ν ι δ) (x : ν) (n : Node ν ι δ) :
    (t.snoc x n).All N P ↔ t.All N P ∧ N x n.label ∧ n.All N P := by
  induction t using cons_induction with
  | nil => simp [snoc, All]
  | cons y m rest ih => simp [ih, and_assoc]

theorem all_mono {t : Entries ν ι δ} (h : t.All N P) (hPQ : ∀ l ∈ t.allLabels, P.Below Q l) :
    t.All N Q := by
  induction t with
  | nil => trivial
  | file x l d rest ih =>
    obtain ⟨hx, hl, hrest⟩ := h
    refine ⟨hx, (hPQ l (by simp [allLabels])).file d hl, ih hrest fun m hm => hPQ m ?_⟩
    simp [allLabels, hm]
  | dir x l sub rest ihsub ih =>
    obtain ⟨hx, ⟨hl, hsub⟩, hrest⟩ := h
    refine ⟨hx, ⟨(hPQ l (by simp [allLabels])).dir _ hl, ihsub hsub fun m hm => hPQ m ?_⟩,
      ih hrest fun m hm => hPQ m ?_⟩
    · simp [allLabels, hm]
    · simp [allLabels, hm]

theorem all_imp {N' : ν → ι → Prop} {t : Entries ν ι δ} (h : t.All N P)
    (hN : ∀ x l, N x l → N' x l) : t.All N' P := by
  induction t with
  | nil => trivial
  | file x l d rest ih => exact ⟨hN x l h.1, h.2.1, ih h.2.2⟩
  | dir x l sub rest ihsub ih => exact ⟨hN x l h.1, ⟨h.2.1.1, ihsub h.2.1.2⟩, ih h.2.2⟩

/-- Every label of a represented list has its meaning. -/
theorem all_names {t : Entries ν ι δ} (h : t.All N P) : ∀ l ∈ t.labels, ∃ x, N x l := by
  induction t using cons_induction with
  | nil => simp [labels]
  | cons y m rest ih =>
    rw [all_cons] at h
    rw [labels_cons]
    exact List.forall_mem_cons.mpr ⟨⟨y, h.1⟩, ih h.2.2⟩

/-- What names and labels say about each other holds entry by entry. -/
theorem all_forall₂ {R : ν → ι → Prop} (hR : ∀ x l, N x l → R x l) {t : Entries ν ι δ}
    (h : t.All N P) : List.Forall₂ R t.names t.labels := by
  induction t using cons_induction with
  | nil => exact .nil
  | cons y m rest ih =>
    rw [all_cons] at h
    rw [names_cons, labels_cons]
    exact .cons (hR _ _ h.1) (ih h.2.2)

variable [DecidableEq ν]

theorem all_find {x : ν} {t : Entries ν ι δ} {n : Node ν ι δ} (h : t.All N P)
    (hn : t.find? x = some n) : n.All N P ∧ N x n.label := by
  induction t using cons_induction with
  | nil => cases hn
  | cons y m rest ih =>
    rw [all_cons] at h
    rw [find?_cons] at hn
    split at hn
    · next hy =>
      obtain rfl := Option.some.inj hn
      exact ⟨h.2.1, hy ▸ h.1⟩
    · exact ih h.2.2 hn

theorem all_erase {x : ν} {t : Entries ν ι δ} (h : t.All N P) : (t.erase x).All N P := by
  induction t using cons_induction with
  | nil => trivial
  | cons y m rest ih =>
    rw [all_cons] at h
    rw [erase_cons]
    split
    · exact h.2.2
    · rw [all_cons]
      exact ⟨h.1, h.2.1, ih h.2.2⟩

/-- Changing one entry needs a meaning for the new node and a frame for the rest. -/
theorem all_modify {x : ν} {t : Entries ν ι δ} {n : Node ν ι δ} {f : Node ν ι δ → Node ν ι δ}
    (h : t.All N P) (hnd : t.allLabels.Nodup) (hn : t.find? x = some n) (hfn : (f n).All N Q)
    (hlabel : (f n).label = n.label)
    (hframe : ∀ l ∈ t.allLabels, l ∉ n.allLabels → P.Below Q l) : (t.modify x f).All N Q := by
  induction t using cons_induction with
  | nil => cases hn
  | cons y m rest ih =>
    rw [all_cons] at h
    rw [allLabels_cons] at hnd hframe
    rw [find?_cons] at hn
    rw [modify_cons]
    have hdisj := List.disjoint_of_nodup_append hnd
    by_cases hy : y = x
    · rw [if_pos hy] at hn ⊢
      obtain rfl := Option.some.inj hn
      rw [all_cons, hlabel]
      exact ⟨h.1, hfn, all_mono h.2.2 fun l hl => hframe l (List.mem_append_right _ hl)
        fun hm => hdisj hm hl⟩
    · rw [if_neg hy] at hn ⊢
      have hsub := find?_allLabels_subset hn
      have hm : (cons y m Entries.nil).All N Q := by
        refine all_mono (P := P) (by rw [all_cons]; exact ⟨h.1, h.2.1, trivial⟩) fun l hl => ?_
        have hl' : l ∈ m.allLabels := by simpa [allLabels] using hl
        exact hframe l (List.mem_append_left _ hl') fun hn' => hdisj hl' (hsub hn')
      rw [all_cons] at hm ⊢
      exact ⟨hm.1, hm.2.1, ih h.2.2 (List.nodup_append.mp hnd).2.1 hn fun l hl =>
        hframe l (List.mem_append_right _ hl)⟩

end Entries

/-! ## All nodes -/

/-- The nodes of the entries and of everything below them. -/
def Entries.nodes : Entries ν ι δ → List (Node ν ι δ)
  | .nil => []
  | .file _ l d rest => .file l d :: rest.nodes
  | .dir _ l sub rest => .dir l sub :: (sub.nodes ++ rest.nodes)

def Node.nodes : Node ν ι δ → List (Node ν ι δ)
  | .file l d => [.file l d]
  | .dir l sub => .dir l sub :: sub.nodes

section Nodes

variable {N : ν → ι → Prop} {P : Meaning ι δ} {m : Node ν ι δ}

/-- The labels of a node are a part of the labels of any tree it is in. -/
theorem Entries.nodes_allLabels {t : Entries ν ι δ} (h : m ∈ t.nodes) :
    m.allLabels.Sublist t.allLabels := by
  induction t with
  | nil => cases h
  | file x l d rest ih =>
    rcases List.mem_cons.mp h with rfl | h
    · exact (List.nil_sublist rest.allLabels).cons_cons l
    · exact (ih h).cons l
  | dir x l sub rest ihsub ih =>
    rcases List.mem_cons.mp h with rfl | h
    · exact (List.sublist_append_left _ _).cons_cons l
    · rcases List.mem_append.mp h with h | h
      · exact ((ihsub h).trans (List.sublist_append_left _ _)).cons l
      · exact ((ih h).trans (List.sublist_append_right _ _)).cons l

theorem Entries.all_nodes {t : Entries ν ι δ} (ht : t.All N P) (h : m ∈ t.nodes) : m.All N P := by
  induction t with
  | nil => cases h
  | file x l d rest ih =>
    rcases List.mem_cons.mp h with rfl | h
    · exact ht.2.1
    · exact ih ht.2.2 h
  | dir x l sub rest ihsub ih =>
    rcases List.mem_cons.mp h with rfl | h
    · exact ht.2.1
    · rcases List.mem_append.mp h with h | h
      · exact ihsub ht.2.1.2 h
      · exact ih ht.2.2 h

theorem Node.nodes_allLabels {n : Node ν ι δ} (h : m ∈ n.nodes) :
    m.allLabels.Sublist n.allLabels := by
  cases n with
  | file l d =>
    obtain rfl := List.mem_singleton.mp h
    exact List.Sublist.refl _
  | dir l sub =>
    rcases List.mem_cons.mp h with rfl | h
    · exact List.Sublist.refl _
    · exact (Entries.nodes_allLabels h).cons l

/-- Every label is that of a node. -/
theorem Entries.exists_node {t : Entries ν ι δ} {l : ι} (h : l ∈ t.allLabels) :
    ∃ m ∈ t.nodes, m.label = l := by
  induction t with
  | nil => cases h
  | file x l' d rest ih =>
    rcases List.mem_cons.mp h with rfl | h
    · exact ⟨_, List.mem_cons_self, rfl⟩
    · obtain ⟨m, hm, hl⟩ := ih h
      exact ⟨m, List.mem_cons_of_mem _ hm, hl⟩
  | dir x l' sub rest ihsub ih =>
    rcases List.mem_cons.mp h with rfl | h
    · exact ⟨_, List.mem_cons_self, rfl⟩
    · rcases List.mem_append.mp h with h | h
      · obtain ⟨m, hm, hl⟩ := ihsub h
        exact ⟨m, List.mem_cons_of_mem _ (List.mem_append_left _ hm), hl⟩
      · obtain ⟨m, hm, hl⟩ := ih h
        exact ⟨m, List.mem_cons_of_mem _ (List.mem_append_right _ hm), hl⟩

theorem Node.exists_node {n : Node ν ι δ} {l : ι} (h : l ∈ n.allLabels) : ∃ m ∈ n.nodes, m.label = l := by
  cases n with
  | file l' d =>
    obtain rfl := List.mem_singleton.mp h
    exact ⟨_, List.mem_cons_self, rfl⟩
  | dir l' sub =>
    rcases List.mem_cons.mp h with rfl | h
    · exact ⟨_, List.mem_cons_self, rfl⟩
    · obtain ⟨m, hm, hl⟩ := Entries.exists_node h
      exact ⟨m, List.mem_cons_of_mem _ hm, hl⟩

theorem Node.all_nodes {n : Node ν ι δ} (hn : n.All N P) (h : m ∈ n.nodes) : m.All N P := by
  cases n with
  | file l d =>
    obtain rfl := List.mem_singleton.mp h
    exact hn
  | dir l sub =>
    rcases List.mem_cons.mp h with rfl | h
    · exact hn
    · exact Entries.all_nodes hn.2 h

end Nodes

namespace Node

variable {N : ν → ι → Prop} {P Q : Meaning ι δ}

theorem all_mono {n : Node ν ι δ} (h : n.All N P) (hPQ : ∀ l ∈ n.allLabels, P.Below Q l) :
    n.All N Q := by
  cases n with
  | file l d => exact (hPQ l (by simp [allLabels])).file d h
  | dir l sub =>
    exact ⟨(hPQ l (by simp [allLabels])).dir _ h.1,
      Entries.all_mono h.2 fun m hm => hPQ m (by simp [allLabels, hm])⟩

theorem all_imp {N' : ν → ι → Prop} {n : Node ν ι δ} (h : n.All N P)
    (hN : ∀ x l, N x l → N' x l) : n.All N' P := by
  cases n with
  | file l d => exact h
  | dir l sub => exact ⟨h.1, Entries.all_imp h.2 hN⟩

/-! ## Operations on one node -/

/-- A directory with one more entry at its end. -/
def addEntry (x : ν) (k : Node ν ι δ) : Node ν ι δ → Node ν ι δ
  | .file l d => .file l d
  | .dir l sub => .dir l (sub.snoc x k)

/-- A file with other data. -/
def mapData (f : δ → δ) : Node ν ι δ → Node ν ι δ
  | .file l d => .file l (f d)
  | .dir l sub => .dir l sub

@[simp] theorem addEntry_label (x : ν) (k n : Node ν ι δ) : (addEntry x k n).label = n.label := by
  cases n <;> rfl

@[simp] theorem mapData_label (f : δ → δ) (n : Node ν ι δ) : (mapData f n).label = n.label := by
  cases n <;> rfl

@[simp] theorem mapData_allLabels (f : δ → δ) (n : Node ν ι δ) :
    (mapData f n).allLabels = n.allLabels := by cases n <;> rfl

theorem addEntry_allLabels (x : ν) (k : Node ν ι δ) (l : ι) (sub : Entries ν ι δ) :
    (addEntry x k (.dir l sub)).allLabels = allLabels (.dir l sub) ++ k.allLabels := by
  simp [addEntry, allLabels]

theorem relabel_addEntry (f : ι → κ) (x : ν) (k n : Node ν ι δ) :
    (addEntry x k n).relabel f = addEntry x (k.relabel f) (n.relabel f) := by
  cases n with
  | file l d => rfl
  | dir l sub => simp [addEntry, relabel]

theorem relabel_mapData (f : ι → κ) (h : δ → δ) (n : Node ν ι δ) :
    (mapData h n).relabel f = mapData h (n.relabel f) := by cases n <;> rfl

variable [DecidableEq ν]

/-- A directory without the first entry of a name. -/
def eraseEntry (x : ν) : Node ν ι δ → Node ν ι δ
  | .file l d => .file l d
  | .dir l sub => .dir l (sub.erase x)

@[simp] theorem eraseEntry_label (x : ν) (n : Node ν ι δ) : (eraseEntry x n).label = n.label := by
  cases n <;> rfl

/-! ## Paths -/

/-- The node at a path. -/
def locate : Node ν ι δ → List ν → Option (Node ν ι δ)
  | n, [] => some n
  | .file _ _, _ :: _ => none
  | .dir _ sub, x :: p => (sub.find? x).bind fun n => n.locate p

/-- Why a path leads nowhere: it goes on behind a file, or a directory on it has no
entry of the name. -/
inductive Miss
  | behindFile
  | noEntry
  deriving DecidableEq, Repr

/-- `locate`, with the reason when there is no node. -/
def walk : Node ν ι δ → List ν → Except Miss (Node ν ι δ)
  | n, [] => .ok n
  | .file _ _, _ :: _ => .error .behindFile
  | .dir _ sub, x :: p =>
    match sub.find? x with
    | none => .error .noEntry
    | some n => n.walk p

/-- Change the node at a path. -/
def update (f : Node ν ι δ → Node ν ι δ) : List ν → Node ν ι δ → Node ν ι δ
  | [], n => f n
  | _ :: _, .file l d => .file l d
  | x :: p, .dir l sub => .dir l (sub.modify x (update f p))

@[simp] theorem locate_nil (n : Node ν ι δ) : n.locate [] = some n := by cases n <;> rfl

@[simp] theorem update_nil (f : Node ν ι δ → Node ν ι δ) (n : Node ν ι δ) : update f [] n = f n := rfl

@[simp] theorem walk_nil (n : Node ν ι δ) : n.walk [] = .ok n := by cases n <;> rfl

theorem walk_eq_ok {n m : Node ν ι δ} {p : List ν} : n.walk p = .ok m ↔ n.locate p = some m := by
  induction p generalizing n with
  | nil => simp
  | cons x p ih =>
    cases n with
    | file l d => simp [walk, locate]
    | dir l sub =>
      rw [walk, locate]
      cases sub.find? x with
      | none => simp
      | some k => exact ih

theorem relabel_walk (f : ι → κ) (n : Node ν ι δ) (p : List ν) :
    (n.relabel f).walk p = (n.walk p).map (relabel f) := by
  induction p generalizing n with
  | nil => simp [Except.map]
  | cons x p ih =>
    cases n with
    | file l d => rfl
    | dir l sub =>
      rw [relabel, walk, walk, Entries.relabel_find?]
      cases sub.find? x with
      | none => rfl
      | some m => exact ih m

theorem locate_append (n : Node ν ι δ) (p q : List ν) :
    n.locate (p ++ q) = (n.locate p).bind fun m => m.locate q := by
  induction p generalizing n with
  | nil => simp
  | cons x p ih =>
    cases n with
    | file l d => rfl
    | dir l sub =>
      rw [List.cons_append, locate, locate, Option.bind_assoc]
      simp only [ih]

theorem relabel_locate (f : ι → κ) (n : Node ν ι δ) (p : List ν) :
    (n.relabel f).locate p = (n.locate p).map (relabel f) := by
  induction p generalizing n with
  | nil => simp
  | cons x p ih =>
    cases n with
    | file l d => rfl
    | dir l sub =>
      rw [relabel, locate, locate, Entries.relabel_find?]
      cases sub.find? x with
      | none => rfl
      | some m => exact ih m

theorem relabel_update (f : ι → κ) {h : Node ν ι δ → Node ν ι δ} {h' : Node ν κ δ → Node ν κ δ}
    (n : Node ν ι δ) (p : List ν)
    (hh : ∀ m, n.locate p = some m → (h m).relabel f = h' (m.relabel f)) :
    (n.update h p).relabel f = (n.relabel f).update h' p := by
  induction p generalizing n with
  | nil => exact hh n (locate_nil n)
  | cons x p ih =>
    cases n with
    | file l d => rfl
    | dir l sub =>
      rw [update, relabel, relabel, update]
      congr 1
      refine Entries.relabel_modify f x sub fun m hm => ih m fun k hk => hh k ?_
      rw [locate, hm]
      exact hk

theorem update_id (n : Node ν ι δ) (p : List ν) : n.update id p = n := by
  induction p generalizing n with
  | nil => rfl
  | cons x p ih =>
    cases n with
    | file l d => rfl
    | dir l sub =>
      rw [update, Entries.modify_eq_self fun k _ => ih k]

/-- Two changes of the node at one path. -/
theorem update_update (f h : Node ν ι δ → Node ν ι δ) (n : Node ν ι δ) (p : List ν) :
    (n.update f p).update h p = n.update (h ∘ f) p := by
  induction p generalizing n with
  | nil => rfl
  | cons x p ih =>
    cases n with
    | file l d => rfl
    | dir l sub =>
      rw [update, update, update, Entries.modify_modify]
      exact congrArg _ (Entries.modify_congr fun k _ => ih k)

/-- Only what a change does to the node at the path counts. -/
theorem update_congr {f h : Node ν ι δ → Node ν ι δ} {n m : Node ν ι δ} {p : List ν}
    (hm : n.locate p = some m) (hf : f m = h m) : n.update f p = n.update h p := by
  induction p generalizing n with
  | nil =>
    obtain rfl := Option.some.inj ((locate_nil n).symm.trans hm)
    exact hf
  | cons x p ih =>
    cases n with
    | file l d => rfl
    | dir l sub =>
      rw [locate] at hm
      obtain ⟨k, hk, hm'⟩ := Option.bind_eq_some_iff.mp hm
      rw [update, update]
      refine congrArg _ (Entries.modify_congr fun k' hk' => ?_)
      obtain rfl := Option.some.inj (hk.symm.trans hk')
      exact ih hm'

/-- Lookup behind a change sees it only below the changed node. -/
theorem locate_update {f : Node ν ι δ → Node ν ι δ} {n m : Node ν ι δ} {p q : List ν} {l : ι} {d : δ}
    (hm : n.locate p = some m) (hq : n.locate q = some (.file l d)) :
    (n.update f p).locate q =
      if p <+: q then (f m).locate (q.drop p.length) else some (.file l d) := by
  induction p generalizing n q with
  | nil =>
    obtain rfl := Option.some.inj ((locate_nil n).symm.trans hm)
    simp
  | cons x p ih =>
    cases n with
    | file l' d' => cases hm
    | dir l' sub =>
      cases q with
      | nil => cases hq
      | cons y q =>
        rw [locate] at hm hq
        obtain ⟨k, hk, hm'⟩ := Option.bind_eq_some_iff.mp hm
        rw [update, locate, Entries.find?_modify]
        by_cases hy : y = x
        · subst hy
          rw [hk] at hq
          rw [if_pos rfl, hk, Option.map_some, Option.bind_some, ih hm' hq]
          simp only [List.cons_prefix_cons, true_and, List.length_cons, List.drop_succ_cons]
        · rw [if_neg hy, hq, if_neg]
          rw [List.cons_prefix_cons]
          exact fun h => hy h.1.symm

theorem update_label {f : Node ν ι δ → Node ν ι δ} {n m : Node ν ι δ} {p : List ν}
    (hm : n.locate p = some m) (hf : (f m).label = m.label) : (n.update f p).label = n.label := by
  cases p with
  | nil =>
    obtain rfl := Option.some.inj ((locate_nil n).symm.trans hm)
    exact hf
  | cons x p => cases n <;> rfl

/-- A located node splits the labels, and changing it changes only its part. -/
theorem locate_split {n m : Node ν ι δ} {p : List ν} (h : n.locate p = some m) :
    ∃ pre post, n.allLabels = pre ++ m.allLabels ++ post ∧
      ∀ f : Node ν ι δ → Node ν ι δ, (n.update f p).allLabels = pre ++ (f m).allLabels ++ post := by
  induction p generalizing n with
  | nil =>
    obtain rfl := Option.some.inj ((locate_nil n).symm.trans h)
    exact ⟨[], [], by simp, fun f => by simp⟩
  | cons x p ih =>
    cases n with
    | file l d => cases h
    | dir l sub =>
      rw [locate] at h
      obtain ⟨k, hk, hm⟩ := Option.bind_eq_some_iff.mp h
      obtain ⟨pre, post, hall, hmod, -⟩ := Entries.allLabels_split hk
      obtain ⟨pre', post', hall', hmod'⟩ := ih hm
      refine ⟨l :: pre ++ pre', post' ++ post, ?_, fun f => ?_⟩
      · rw [allLabels, hall, hall']
        simp only [List.cons_append, List.append_assoc]
      · rw [update, allLabels, hmod, hmod']
        simp only [List.cons_append, List.append_assoc]

theorem locate_allLabels_subset {n m : Node ν ι δ} {p : List ν} (h : n.locate p = some m) :
    m.allLabels ⊆ n.allLabels := by
  obtain ⟨pre, post, hall, -⟩ := locate_split h
  rw [hall]
  intro l hl
  simp [hl]

theorem all_locate {n m : Node ν ι δ} {p : List ν} (h : n.All N P) (hm : n.locate p = some m) :
    m.All N P := by
  induction p generalizing n with
  | nil =>
    obtain rfl := Option.some.inj ((locate_nil n).symm.trans hm)
    exact h
  | cons x p ih =>
    cases n with
    | file l d => cases hm
    | dir l sub =>
      rw [locate] at hm
      obtain ⟨k, hk, hm⟩ := Option.bind_eq_some_iff.mp hm
      exact ih (Entries.all_find h.2 hk).1 hm

/-- Changing the node at a path needs a meaning for the new node and a frame for
everything outside the old one. -/
theorem all_update {n m : Node ν ι δ} {p : List ν} {f : Node ν ι δ → Node ν ι δ} (h : n.All N P)
    (hnd : n.allLabels.Nodup) (hm : n.locate p = some m) (hfm : (f m).All N Q)
    (hlabel : (f m).label = m.label)
    (hframe : ∀ l ∈ n.allLabels, l ∉ m.allLabels → P.Below Q l) : (n.update f p).All N Q := by
  induction p generalizing n with
  | nil =>
    obtain rfl := Option.some.inj ((locate_nil n).symm.trans hm)
    exact hfm
  | cons x p ih =>
    cases n with
    | file l d => cases hm
    | dir l sub =>
      rw [locate] at hm
      obtain ⟨k, hk, hm⟩ := Option.bind_eq_some_iff.mp hm
      obtain ⟨hl, hnd'⟩ := List.nodup_cons.mp hnd
      have hmk := locate_allLabels_subset hm
      have hks := Entries.find?_allLabels_subset hk
      have hupd := update_label hm hlabel
      have hknd : k.allLabels.Nodup := by
        obtain ⟨pre, post, hall, -, -⟩ := Entries.allLabels_split hk
        rw [hall] at hnd'
        exact (List.nodup_append.mp (List.nodup_append.mp hnd').1).2.1
      have hlabels : (sub.modify x (update f p)).labels = sub.labels :=
        Entries.labels_modify fun n' hn' => by
          obtain rfl := Option.some.inj (hk.symm.trans hn')
          exact hupd
      refine ⟨?_, Entries.all_modify h.2 hnd' hk ?_ hupd fun l' hl' hnot => ?_⟩
      · rw [hlabels]
        exact (hframe l (by simp [allLabels]) fun hmem => hl (hks (hmk hmem))).dir _ h.1
      · exact ih (Entries.all_find h.2 hk).1 hknd hm fun l' hl' =>
          hframe l' (by simp [allLabels, hks hl'])
      · exact hframe l' (by simp [allLabels, hl']) fun hmem => hnot (hmk hmem)

end Node

/-! ## The names in every directory -/

/-- A property of the names of every directory below the entries. -/
def Entries.EveryBelow (Q : List ν → Prop) : Entries ν ι δ → Prop
  | .nil => True
  | .file _ _ _ rest => rest.EveryBelow Q
  | .dir _ _ sub rest => (Q sub.names ∧ sub.EveryBelow Q) ∧ rest.EveryBelow Q

/-- A property of the names of every directory in the tree. -/
def Node.Every (Q : List ν → Prop) : Node ν ι δ → Prop
  | .file _ _ => True
  | .dir _ sub => Q sub.names ∧ sub.EveryBelow Q

section Every

variable {Q : List ν → Prop}

namespace Entries

@[simp] theorem everyBelow_cons (x : ν) (n : Node ν ι δ) (rest : Entries ν ι δ) :
    (cons x n rest).EveryBelow Q ↔ n.Every Q ∧ rest.EveryBelow Q := by
  cases n with
  | file l d => exact (and_iff_right trivial).symm
  | dir l sub => exact Iff.rfl

@[simp] theorem everyBelow_snoc (t : Entries ν ι δ) (x : ν) (n : Node ν ι δ) :
    (t.snoc x n).EveryBelow Q ↔ t.EveryBelow Q ∧ n.Every Q := by
  induction t using cons_induction with
  | nil => simp [snoc, EveryBelow]
  | cons y m rest ih => rw [snoc_cons, everyBelow_cons, everyBelow_cons, ih, and_assoc]

variable [DecidableEq ν] {x : ν} {t : Entries ν ι δ}

@[simp] theorem names_modify (x : ν) (f : Node ν ι δ → Node ν ι δ) (t : Entries ν ι δ) :
    (t.modify x f).names = t.names := by
  induction t using cons_induction with
  | nil => rfl
  | cons y n rest ih =>
    rw [modify_cons, names_cons]
    split
    · exact names_cons y (f n) rest
    · rw [names_cons, ih]

theorem every_find {n : Node ν ι δ} (h : t.EveryBelow Q) (hn : t.find? x = some n) : n.Every Q := by
  induction t using cons_induction with
  | nil => cases hn
  | cons y m rest ih =>
    rw [everyBelow_cons] at h
    rw [find?_cons] at hn
    split at hn
    · obtain rfl := Option.some.inj hn
      exact h.1
    · exact ih h.2 hn

theorem everyBelow_modify {f : Node ν ι δ → Node ν ι δ} (h : t.EveryBelow Q)
    (hf : ∀ n, t.find? x = some n → (f n).Every Q) : (t.modify x f).EveryBelow Q := by
  induction t using cons_induction with
  | nil => trivial
  | cons y m rest ih =>
    rw [everyBelow_cons] at h
    rw [find?_cons] at hf
    rw [modify_cons]
    split
    · next hy =>
      rw [everyBelow_cons]
      exact ⟨hf m (if_pos hy), h.2⟩
    · next hy =>
      rw [everyBelow_cons]
      exact ⟨h.1, ih h.2 fun n hn => hf n (by rw [if_neg hy, hn])⟩

theorem notMem_names (h : t.find? x = none) : x ∉ t.names := by
  induction t using cons_induction with
  | nil => exact List.not_mem_nil
  | cons y n rest ih =>
    rw [find?_cons] at h
    split at h
    · cases h
    · next hy =>
      rw [names_cons, List.mem_cons, not_or]
      exact ⟨Ne.symm hy, ih h⟩

/-- Without duplicates every entry is the first one of its name. -/
theorem find?_of_nodup {i : ℕ} {l : ι} (hnd : t.names.Nodup) (hx : t.names[i]? = some x)
    (hl : t.labels[i]? = some l) : ∃ n, t.find? x = some n ∧ n.label = l := by
  induction t using cons_induction generalizing i with
  | nil => cases hx
  | cons y n rest ih =>
    rw [names_cons] at hnd hx
    rw [labels_cons] at hl
    rw [find?_cons]
    cases i with
    | zero =>
      obtain rfl := Option.some.inj hx
      exact ⟨n, if_pos rfl, Option.some.inj hl⟩
    | succ i =>
      rw [List.getElem?_cons_succ] at hx hl
      have hy : y ≠ x := fun hy => (List.nodup_cons.mp hnd).1 (hy ▸ List.mem_of_getElem? hx)
      rw [if_neg hy]
      exact ih (List.nodup_cons.mp hnd).2 hx hl

end Entries

namespace Node

theorem every_mapData {f : δ → δ} {n : Node ν ι δ} (h : n.Every Q) : (mapData f n).Every Q := by
  cases n with
  | file l d => trivial
  | dir l sub => exact h

theorem every_addEntry {x : ν} {k : Node ν ι δ} {l : ι} {sub : Entries ν ι δ}
    (h : (Node.dir l sub).Every Q) (hx : Q (sub.names ++ [x])) (hk : k.Every Q) :
    (addEntry x k (.dir l sub)).Every Q := by
  refine ⟨?_, (Entries.everyBelow_snoc sub x k).mpr ⟨h.2, hk⟩⟩
  rw [Entries.names_snoc]
  exact hx

variable [DecidableEq ν] {p : List ν}

theorem every_locate {n m : Node ν ι δ} (h : n.Every Q) (hm : n.locate p = some m) : m.Every Q := by
  induction p generalizing n with
  | nil =>
    obtain rfl := Option.some.inj ((locate_nil n).symm.trans hm)
    exact h
  | cons x p ih =>
    cases n with
    | file l d => cases hm
    | dir l sub =>
      rw [locate] at hm
      obtain ⟨k, hk, hm⟩ := Option.bind_eq_some_iff.mp hm
      exact ih (Entries.every_find h.2 hk) hm

/-- Changing one node leaves the names above it alone. -/
theorem every_update {f : Node ν ι δ → Node ν ι δ} {n : Node ν ι δ} (h : n.Every Q)
    (hf : ∀ m, n.locate p = some m → (f m).Every Q) : (n.update f p).Every Q := by
  induction p generalizing n with
  | nil => exact hf n (locate_nil n)
  | cons x p ih =>
    cases n with
    | file l d => trivial
    | dir l sub =>
      refine ⟨?_, Entries.everyBelow_modify h.2 fun k hk => ih (Entries.every_find h.2 hk)
        fun m hm => hf m ?_⟩
      · rw [Entries.names_modify]
        exact h.1
      · rw [locate, hk]
        exact hm

end Node

end Every

end KisLinux.NameTree
