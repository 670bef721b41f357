import KisLinux.FsRuns
import KisLinux.NetRequests

/-!
# Runs of completed requests

From a fresh volume on, every answer is the one that the tree of files gives. What
other paths read is then a fact about the tree: the blocks of the image, and what
the steps between two answers did to them, are forgotten.
-/
namespace KisLinux.Net
open ByteMemory StateRun NameTree Fs

/-- Completed requests about the tree, one after another, on one image. -/
inductive Serves (fds : FsDescriptors) : Image → List (Request × Received) → Image → Prop
  | nil (img : Image) : Serves fds img [] img
  | cons {img img₁ img' : Image} {r : Request} {x : Received} {l : List (Request × Received)}
      (about : r.AboutTree fds img) (served : Served fds img r x img₁)
      (rest : Serves fds img₁ l img') : Serves fds img ((r, x) :: l) img'

/-- The tree `t` becomes `t'` by the requests of a list and gives all answers in it. -/
inductive FileTree.Explains : FileTree → List (Request × Received) → FileTree → Prop
  | nil (t : FileTree) : Explains t [] t
  | cons {t t₁ t' : FileTree} {r : Request} {x : Received} {a : Answer}
      {l : List (Request × Received)} (next : t.next r = some t₁) (answer : t.answer r = some a)
      (agrees : x.Agrees a) (rest : Explains t₁ l t') : Explains t ((r, x) :: l) t'

section Runs

variable {fds : FsDescriptors} {img img' : Image} {l : List (Request × Received)}

theorem Serves.explained {g : Geometry} {t : FileTree} (h : Serves fds img l img')
    (ht : Refines g img t) (hroot : fds.rootInode = g.root) :
    ∃ t', FileTree.Explains t l t' ∧ Refines g img' t' := by
  induction h generalizing t with
  | nil img => exact ⟨t, .nil t, ht⟩
  | cons about served _ ih =>
    obtain ⟨t₁, a, hnext, hanswer, hagrees, ht₁⟩ := served.refines about ht hroot
    obtain ⟨t', hrest, ht'⟩ := ih ht₁
    exact ⟨t', .cons hnext hanswer hagrees hrest, ht'⟩

theorem Serves.not_remove (h : Serves fds img l img') :
    ∀ p ∈ l, ∀ path, p.1 ≠ Request.remove path := by
  induction h with
  | nil img => exact fun p hp => by cases hp
  | cons about served _ ih =>
    exact List.forall_mem_cons.mpr ⟨about.not_remove, ih⟩

namespace FileTree.Explains

variable {t t' : FileTree} {l' : List (Request × Received)} {path bytes : List UInt8} {o len : ℕ}

theorem append (h : FileTree.Explains t (l ++ l') t') : ∃ t₁, FileTree.Explains t l t₁ ∧ FileTree.Explains t₁ l' t' := by
  induction l generalizing t with
  | nil => exact ⟨t, .nil t, h⟩
  | cons p l ih =>
    cases h with
    | cons next answer agrees rest =>
      obtain ⟨t₁, hl, hl'⟩ := ih rest
      exact ⟨t₁, .cons next answer agrees hl, hl'⟩

/-- A file stays what it is while other paths are asked for. -/
theorem locate_eq (h : FileTree.Explains t l t') (hremove : ∀ p ∈ l, ∀ path, p.1 ≠ Request.remove path)
    {cs : List (List UInt8)} (hne : ∀ p ∈ l, p.1.components ≠ cs)
    (hfile : t.locate cs = some (.file () bytes)) : t'.locate cs = some (.file () bytes) := by
  induction h with
  | nil t => exact hfile
  | cons next answer agrees _ ih =>
    obtain ⟨hfirst, hmore⟩ := List.forall_mem_cons.mp hremove
    obtain ⟨hself, hothers⟩ := List.forall_mem_cons.mp hne
    exact ih hmore hothers (FileTree.locate_next next hfirst hself hfile)

/-- A read in front gives the bytes of the file. -/
theorem read_head {x : Received} (h : FileTree.Explains t ((.read path o len, x) :: l) t') :
    ∃ bytes, t.locate (Request.read path o len).components = some (.file () bytes) ∧
      x = .read ((bytes.drop o).take len) ∧ FileTree.Explains t l t' := by
  cases h with
  | @cons _ _ _ _ _ a _ next answer agrees rest =>
    obtain rfl := Option.some.inj next
    rw [FileTree.answer] at answer
    split at answer
    · next u bytes hfile =>
      obtain rfl := Option.some.inj answer
      cases agrees
      exact ⟨bytes, hfile, rfl, rest⟩
    · cases answer

end FileTree.Explains

/-- Every answer in a run from a fresh volume is the one that the tree of files
gives, and two reads of one file differ only when a request on its own path came
between them. -/
theorem serves_explained {os : Platform} {file : List UInt8} {size : ℕ}
    (h : initFs os file size = .ok (fds, img)) (hrun : Serves fds img l img') :
    (∃ t, FileTree.Explains (.dir () .nil) l t) ∧
    ∀ (pre mid post : List (Request × Received)) (path path' : List UInt8) (o len : ℕ)
      (x y : Received), l = pre ++ (.read path o len, x) :: (mid ++ (.read path' o len, y) :: post) →
      (Request.read path' o len).components = (Request.read path o len).components →
      (∀ p ∈ mid, p.1.components ≠ (Request.read path o len).components) → y = x := by
  obtain ⟨g, -, -, hroot, hformatted⟩ := initFs_ok h
  obtain ⟨t, ht, -⟩ := hrun.explained (refines_formatted hformatted) hroot.symm
  refine ⟨⟨t, ht⟩, ?_⟩
  rintro pre mid post path path' o len x y rfl hpath hmid
  obtain ⟨t₁, -, hread⟩ := ht.append
  obtain ⟨bytes, hfile, rfl, hrest⟩ := hread.read_head
  obtain ⟨t₂, hother, hagain⟩ := hrest.append
  obtain ⟨bytes', hfile', rfl, -⟩ := hagain.read_head
  have hkept := hother.locate_eq
    (fun p hp => hrun.not_remove p (by simp [hp])) hmid hfile
  rw [hpath, hkept] at hfile'
  obtain ⟨-, rfl⟩ := Node.file.inj (Option.some.inj hfile')
  rfl

end Runs

/-! ## A small run -/

/-- A system with pages of 512 bytes on which every mapping succeeds. -/
def sectorPlatform : Platform :=
  { pagePlatform with
    pageSize := 512
    header_lt := treeVolume.header_lt }

/-- A fresh volume of four blocks. -/
def freshImage : Image :=
  match initFs sectorPlatform [] 2048 with
  | .ok r => r.2
  | .error _ => ⟨fun _ => 0, 0, []⟩

theorem freshImage_run : initFs sectorPlatform [] 2048 = .ok (⟨1⟩, freshImage) := by
  have hroot : ((initFs sectorPlatform [] 2048).toOption.map fun r => r.1.rootInode) = some 1 := by
    decide +kernel
  unfold freshImage
  cases hinit : initFs sectorPlatform [] 2048 with
  | error e =>
    rw [hinit] at hroot
    cases hroot
  | ok r =>
    obtain ⟨⟨root⟩, img⟩ := r
    rw [hinit] at hroot
    obtain rfl : root = 1 := Option.some.inj hroot
    rfl

theorem treeVolume_describes : treeVolume.Describes sectorPlatform 2048 ⟨1⟩ := ⟨rfl, rfl, rfl⟩

theorem freshImage_formatted : Formatted treeVolume freshImage fun _ => 0 :=
  treeVolume_describes.formatted freshImage_run

/-- A thread that works on the image. -/
def threadOn (img : Image) : Server := ⟨img, byteByByte [], byteSink, false⟩

def createA : NetFsOperation := .op .create (⟨⟨3, blockAt8 [47, 97, 0]⟩, flgFile⟩ : FsOpCreateArgs)

theorem createA_carries : createA.Carries (.create [47, 97, 0] flgFile) :=
  .op .create _ (List.forall_mem_singleton.mpr ⟨by decide, Nat.le_refl 3⟩)

def writeA : NetFsOperation :=
  .op .write (⟨⟨3, blockAt8 [47, 97, 0]⟩, 0, 2, blockAt16 [104, 105]⟩ : FsOpWriteArgs)

theorem writeA_carries : writeA.Carries (.write [47, 97, 0] 0 [104, 105]) :=
  .op .write _ (List.forall_mem_cons.mpr ⟨⟨by decide, Nat.le_refl 3⟩,
    List.forall_mem_singleton.mpr ⟨by decide, Nat.le_refl 2⟩⟩)

def readA : NetFsOperation :=
  .op .read (⟨⟨3, blockAt8 [47, 97, 0]⟩, 0, 16⟩ : FsOpReadArgs)

def readRoot : NetFsOperation := .op .readDir (⟨⟨2, blockAt8 [47, 0]⟩⟩ : FsOpPathArgs)

theorem readRoot_carries : readRoot.Carries (.readDir [47, 0]) :=
  .op .readDir _ (List.forall_mem_singleton.mpr ⟨by decide, Nat.le_refl 2⟩)

/-- The image behind an operation. -/
def imageAfter (img : Image) (op : NetFsOperation) : Image :=
  (finalState (dispatch 4 ⟨1⟩ op (threadOn img))).image

theorem served_thread (img : Image) {op : NetFsOperation} {r : Request} (hc : op.Carries r)
    (hrun : returned (dispatch 4 ⟨1⟩ op (threadOn img)) = true) :
    ∃ x, Served ⟨1⟩ img r x (imageAfter img op) := by
  obtain ⟨u, hrun⟩ := of_returned hrun
  obtain ⟨x, w, -, -, hserved⟩ := Served.of_dispatch (s := threadOn img) hc rfl
    (byteByByte_grants [] (by omega)) hrun
  exact ⟨x, hserved⟩

/-- Where a path leads, and to what, can be evaluated. -/
theorem filePath_of_value {img : Image} {path p : List UInt8} {q : Path} {n : ℕ}
    (hp : cString path = some p) (hq : splitPath p = .ok q)
    (hn : value (locatePath ⟨1⟩ q img) = some n)
    (hflags : value ((getInode n >>= getFlags) img) = some flgFile) : FilePath ⟨1⟩ img path := by
  refine ⟨p, q, n, hp, hq, ?_, ?_⟩
  · rw [of_value hn, locatePath_readOnly ⟨1⟩ q img]
  · rw [of_value hflags, (getInode_readOnly n).bind (fun ptr => getFlags_readOnly ptr) img]

/-- A file is made, written, read, listed and read again. -/
theorem serves_explained_reads : ∃ img x y z items u,
    Serves ⟨1⟩ freshImage [(.create [47, 97, 0] flgFile, x), (.write [47, 97, 0] 0 [104, 105], y),
      (.read [47, 97, 0] 0 16, z), (.readDir [47, 0], .readDir items), (.read [47, 97, 0] 0 16, u)] img ∧
    z = .read [104, 105] ∧ List.Forall₂ (fun x item => cString item.name = some x) [[97]] items ∧
    u = z := by
  have hread : readA.Carries (.read [47, 97, 0] 0 16) :=
    .op .read _ (List.forall_mem_singleton.mpr ⟨by decide, Nat.le_refl 3⟩)
  obtain ⟨x, hx⟩ := served_thread freshImage createA_carries (by decide +kernel)
  obtain ⟨y, hy⟩ := served_thread (imageAfter freshImage createA) writeA_carries (by decide +kernel)
  obtain ⟨z, hz⟩ := served_thread (imageAfter (imageAfter freshImage createA) writeA) hread
    (by decide +kernel)
  obtain ⟨v, hv⟩ := served_thread
    (imageAfter (imageAfter (imageAfter freshImage createA) writeA) readA) readRoot_carries (by decide +kernel)
  obtain ⟨u, hu⟩ := served_thread
    (imageAfter (imageAfter (imageAfter (imageAfter freshImage createA) writeA) readA) readRoot) hread
    (by decide +kernel)
  have hlen : (16 : ℕ) < 2 ^ 63 :=
    show 2 ^ 4 < 2 ^ 63 from Nat.pow_lt_pow_right Nat.one_lt_two (by decide)
  have hfirst : (Request.read [47, 97, 0] 0 16).AboutTree ⟨1⟩
      (imageAfter (imageAfter freshImage createA) writeA) := by
    refine ⟨by decide, hlen, filePath_of_value (n := 2) (q := ⟨[97, 0], [some 0, none], 1⟩) rfl rfl ?_ ?_⟩
    all_goals decide +kernel
  have hsecond : (Request.read [47, 97, 0] 0 16).AboutTree ⟨1⟩ (imageAfter (imageAfter
      (imageAfter (imageAfter freshImage createA) writeA) readA) readRoot) := by
    refine ⟨by decide, hlen, filePath_of_value (n := 2) (q := ⟨[97, 0], [some 0, none], 1⟩) rfl rfl ?_ ?_⟩
    all_goals decide +kernel
  have hrun := Serves.cons ⟨by decide, Or.inl rfl⟩ hx (.cons ⟨by decide, by decide⟩ hy
    (.cons hfirst hz (.cons ⟨by decide, trivial⟩ hv (.cons hsecond hu (.nil _)))))
  obtain ⟨⟨t, ht⟩, hagain⟩ := serves_explained freshImage_run hrun
  have hsame : u = z := hagain [(.create [47, 97, 0] flgFile, x), (.write [47, 97, 0] 0 [104, 105], y)]
    [(.readDir [47, 0], v)] [] _ _ 0 16 z u rfl rfl (by
      intro p hp
      obtain rfl := List.mem_singleton.mp hp
      exact show (Request.readDir [47, 0]).components ≠ (Request.read [47, 97, 0] 0 16).components by
        decide +kernel)
  cases ht with
  | cons next answer agrees rest =>
    obtain rfl := Option.some.inj (next.symm.trans
      (show _ = some (.dir () (.file [97] () [] .nil)) by decide +kernel))
    cases rest with
    | cons next answer agrees rest =>
      obtain rfl := Option.some.inj (next.symm.trans
        (show _ = some (.dir () (.file [97] () [104, 105] .nil)) by decide +kernel))
      obtain ⟨bytes, hfile, rfl, hrest⟩ := rest.read_head
      have hdata : (Node.dir () (.file [97] () [104, 105] .nil) : FileTree).locate
          (Request.read [47, 97, 0] 0 16).components = some (.file () [104, 105]) := by decide +kernel
      obtain ⟨-, rfl⟩ := Node.file.inj (Option.some.inj (hfile.symm.trans hdata))
      cases hrest with
      | cons next answer agrees rest =>
        obtain rfl := Option.some.inj (answer.symm.trans
          (show _ = some (.names [[97]]) by decide +kernel))
        cases agrees with
        | names named => exact ⟨_, x, y, _, _, u, hrun, rfl, named, hsame⟩

end KisLinux.Net
