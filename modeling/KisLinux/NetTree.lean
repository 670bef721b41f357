import KisLinux.FileTree
import KisLinux.FsTree
import KisLinux.NetBackend

/-!
# The image refines the tree of files

`Refines` forgets the items of a tree that is laid out on an image. The calls
that a handler makes for its path are then moves of the tree of files, whatever
the blocks look like that they go through.
-/
namespace KisLinux.Net
open ByteMemory StateRun NameTree Fs

/-- Every node is either a file or a directory, and its flags say nothing else. -/
def PlainFlags (g : Geometry) (img : Image) (n : TreeNode) : Prop :=
  ∀ item ∈ n.allLabels, flagsOf g img item.inode = flgFile ∨ flagsOf g img item.inode = flgDirectory

namespace PlainFlags

variable {g : Geometry} {img img' : Image} {live : Finset ℕ} {n m : TreeNode}
  {p : List (List UInt8)} {b : ℕ}

/-- The nodes that a change of the tree brings in have to be plain. -/
theorem update {f : TreeNode → TreeNode} (h : PlainFlags g img n) (hm : n.locate p = some m)
    (hf : PlainFlags g img (f m)) : PlainFlags g img (n.update f p) := by
  obtain ⟨pre, post, hsplit, hmod⟩ := Node.locate_split hm
  intro item hitem
  rw [hmod, List.mem_append, List.mem_append] at hitem
  have hold : item ∈ pre ∨ item ∈ post → item ∈ n.allLabels := by
    rw [hsplit]
    simp only [List.mem_append]
    exact fun ho => ho.elim (fun hi => Or.inl (Or.inl hi)) Or.inr
  rcases hitem with (hi | hi) | hi
  · exact h item (hold (Or.inl hi))
  · exact hf item hi
  · exact h item (hold (Or.inr hi))

theorem step (h : PlainFlags g img n) (htree : TreeOn g img live n) (hb : b ∈ live)
    (hs : NodeStep g img img' b) : PlainFlags g img' n := by
  intro item hitem
  rw [hs.live_flags htree.owned hb (htree.item_live hitem)]
  exact h item hitem

theorem created {flags : UInt8} (h : PlainFlags g img n) (htree : TreeOn g img live n)
    (hc : Created g img img' b flags) : PlainFlags g img' n := by
  intro item hitem
  rw [(hc.kept htree.owned (htree.item_live hitem)).self.flags_eq]
  exact h item hitem

end PlainFlags

def Refines (g : Geometry) (img : Image) (t : FileTree) : Prop :=
  ∃ live n, TreeOn g img live n ∧ PlainFlags g img n ∧ n.relabel (fun _ => ()) = t

section Locate

variable {g : Geometry} {img img' : Image} {live : Finset ℕ} {n : TreeNode} {t : FileTree}
  {fds : FsDescriptors} {path : Path} {cs : List (List UInt8)} {w : List UInt8} {b : ℕ}

/-- A fresh volume is an empty directory. -/
theorem treeOn_formatted {file : Memory} (h : Formatted g img file) :
    TreeOn g img {g.root} (.dir ⟨g.root, []⟩ .nil) := by
  have hdir : (stored g img).dir ⟨g.root, []⟩ [] := by
    rw [stored_dir, h.flags, h.content]
    exact ⟨by decide, rfl⟩
  refine ⟨h.owned, rfl, List.nodup_singleton _, ?_, hdir, trivial⟩
  intro b hb
  obtain rfl := List.mem_singleton.mp hb
  exact Finset.mem_singleton_self _

theorem refines_formatted {file : Memory} (h : Formatted g img file) :
    Refines g img (.dir () .nil) := by
  refine ⟨_, _, treeOn_formatted h, ?_, rfl⟩
  intro item hitem
  obtain rfl := List.mem_singleton.mp hitem
  exact .inr h.flags

theorem locateLoop_ok (h : TreeOn g img live n)
    (hpart : ∀ j (hj : j < cs.length), path.part j = .ok cs[j]) (h0 : ∀ w ∈ cs, 0 ∉ w)
    (hrun : locateLoop path cs.length 0 g.root img = .ok b img') :
    ∃ m, n.locate cs = some m ∧ b = m.label.inode ∧ img' = img := by
  obtain ⟨hsome, hnone⟩ := locateLoop_run (i := 0) h.owned h.all h.live
    (fun j hj => by rw [Nat.zero_add]; exact hpart j hj) h0
  rw [h.root] at hsome hnone
  cases hm : n.locate cs with
  | some m =>
    rw [hsome m hm] at hrun
    obtain ⟨rfl, rfl⟩ := EStateM.Result.ok.inj hrun
    exact ⟨m, rfl, rfl, rfl⟩
  | none =>
    obtain ⟨e, he⟩ := hnone hm
    rw [he] at hrun
    cases hrun

theorem locatePath_ok (h : TreeOn g img live n) (hroot : fds.rootInode = g.root)
    (hs : SplitsTo path cs) (h0 : ∀ w ∈ cs, 0 ∉ w) (hrun : locatePath fds path img = .ok b img') :
    ∃ m, n.locate cs = some m ∧ b = m.label.inode ∧ img' = img := by
  rw [locatePath, hs.count_eq, hroot] at hrun
  exact locateLoop_ok h hs.part_eq h0 hrun

/-- A component does not depend on the count. -/
theorem part_mk (line : List UInt8) (parts : List (Option ℕ)) (c c' i : ℕ) :
    (Fs.Path.mk line parts c).part i = (Fs.Path.mk line parts c').part i := rfl

theorem parentPath_part (path : Path) (i : ℕ) : (parentPath path).part i = path.part i := by
  cases path with
  | mk line parts count => exact part_mk line parts (wsub count 1) count i

theorem parentPath_concat (hs : SplitsTo path (cs ++ [w])) (hlt : cs.length < wordSize) :
    (parentPath path).count = cs.length := by
  have hlen : (cs ++ [w]).length = cs.length + 1 := by simp
  have hsub : cs.length + 1 + wordSize - 1 = cs.length + wordSize := by omega
  rw [parentPath, hs.count_eq, hlen, wsub, hsub, Nat.add_mod_right, Nat.mod_eq_of_lt hlt]

/-- The name of a path with at least one component. -/
theorem parentPath_name (hs : SplitsTo path (cs ++ [w])) (hlt : cs.length < wordSize) :
    path.part (parentPath path).count = .ok w := by
  rw [parentPath_concat hs hlt, hs.part_eq cs.length (by simp), List.getElem_concat_length rfl]

/-- The directory of a path with at least one component. -/
theorem locateParent_ok (h : TreeOn g img live n) (hroot : fds.rootInode = g.root)
    (hs : SplitsTo path (cs ++ [w])) (hlt : cs.length < wordSize) (h0 : ∀ x ∈ cs ++ [w], 0 ∉ x)
    (hrun : locatePath fds (parentPath path) img = .ok b img') :
    ∃ m, n.locate cs = some m ∧ b = m.label.inode ∧ img' = img := by
  rw [locatePath, parentPath_concat hs hlt, hroot] at hrun
  refine locateLoop_ok h (fun j hj => ?_) (fun x hx => h0 x (by simp [hx])) hrun
  rw [parentPath_part, hs.part_eq j (by simp only [List.length_append]; omega),
    List.getElem_append_left hj]

/-- One component less than none: the count wraps around. -/
theorem parentPath_nil (hs : SplitsTo path []) : (parentPath path).count = wordSize - 1 := by
  have hwrap : wsub 0 1 = wordSize - 1 := by
    rw [wsub, Nat.zero_add]
    exact Nat.mod_eq_of_lt (by rw [wordSize]; omega)
  rw [← hwrap]
  exact congrArg (wsub · 1) hs.count_eq

/-- The path `/` has no directory to look in. -/
theorem locateParent_nil (hs : SplitsTo path []) : locatePath fds (parentPath path) img ≠ .ok b img' := by
  intro hrun
  have hpos : (parentPath path).count ≠ 0 := by
    rw [parentPath_nil hs, wordSize]
    omega
  obtain ⟨k, hk⟩ := Nat.exists_eq_succ_of_ne_zero hpos
  rw [locatePath, hk, locateLoop] at hrun
  obtain ⟨root, img₁, -, hrun⟩ := bind_eq_ok.mp hrun
  obtain ⟨e, img₂, hfind, -⟩ := bind_eq_ok.mp hrun
  rw [findComponent] at hfind
  split at hfind
  · cases hfind
  · rw [parentPath_part, hs.part_past 0 (Nat.zero_le 0)] at hfind
    cases hfind

end Locate

/-! ## The item of a new node -/

theorem itemName_fits {w : List UInt8} {c : ℕ} (hc : c < wordSize) (hw : w.length < fileNameLength) :
    DirectoryItem.Fits ⟨c, itemName w⟩ := by
  refine ⟨hc, ?_⟩
  simp only [itemName, List.length_append, List.length_replicate]
  omega

/-- The name of a new item ends inside the item. -/
theorem itemName_named {w : List UInt8} {c : ℕ} (hc : c < wordSize) (hw : w.length < fileNameLength)
    (h0 : 0 ∉ w) : Named w ⟨c, itemName w⟩ := by
  refine ⟨itemName_fits hc hw, ?_⟩
  obtain ⟨k, hk⟩ : ∃ k, fileNameLength - w.length = k + 1 :=
    ⟨fileNameLength - w.length - 1, by omega⟩
  rw [itemName, hk, List.replicate_succ]
  exact cString_append_zero _ h0

theorem emptyNode_relabel (flags : UInt8) (item : DirectoryItem) :
    (emptyNode flags item).relabel (fun _ => ()) = FileTree.empty flags := by
  unfold emptyNode FileTree.empty
  split <;> rfl

/-- What was created is the empty node of its flags. -/
theorem emptyNode_stored {g : Geometry} {img img' : Image} {flags : UInt8} {item : DirectoryItem}
    (hc : Created g img img' item.inode flags) :
    (emptyNode flags item).All Named (stored g img') := by
  unfold emptyNode
  split
  · next hfile => exact ⟨by rw [hc.flags]; exact hfile, hc.content_eq⟩
  · next hdir => exact ⟨⟨by rw [hc.flags]; exact hdir, hc.content_eq⟩, trivial⟩

/-! ## One call of a handler -/

/-- No transfer that `malloc` has a buffer for reaches past the address space. -/
theorem transfer_fits {g : Geometry} {img : Image} {len : ℕ} (h : OnVolume g img)
    (hlen : len < 2 ^ 63) : len + img.mapped ≤ wordSize := by
  have hsize := g.size_lt
  rw [h.mapped_eq, wordSize]
  omega

section File

variable {g : Geometry} {img img₁ img' : Image} {live : Finset ℕ} {n : TreeNode} {item : DirectoryItem}
  {fds : FsDescriptors} {path : Path} {cs : List (List UInt8)} {d bytes : List UInt8} {b fuel o len : ℕ}

/-- `read_file` on the file at a path gives a piece of its bytes, or fails. -/
theorem readFile_located (htree : TreeOn g img live n) (hroot : fds.rootInode = g.root)
    (hs : SplitsTo path cs) (h0 : ∀ x ∈ cs, 0 ∉ x) (hlen : len < 2 ^ 63)
    (hfile : n.locate cs = some (.file item bytes)) (hpath : locatePath fds path img = .ok b img₁)
    (hrun : readFile b o len img₁ = .ok d img') : d = (bytes.drop o).take len := by
  obtain ⟨m, hm, hb, rfl⟩ := locatePath_ok htree hroot hs h0 hpath
  obtain rfl := Option.some.inj (hfile.symm.trans hm)
  obtain ⟨hall, -, hlive⟩ := htree.located hm
  obtain rfl : b = item.inode := hb
  have hmem : item.inode ∈ live := hlive _ (label_mem_heads _)
  rw [← (stored_file.mp hall).2]
  by_cases ho : o ≤ sizeOfNode g img₁ item.inode
  · have hfit := transfer_fits htree.owned.onVolume hlen
    have hbound := htree.owned.size_bound hmem
    rw [htree.owned.onVolume.mapped_eq] at hfit
    rw [readFile_run htree.owned hmem ho (by simp only [sizeofINodeMain] at hbound; omega)] at hrun
    exact (EStateM.Result.ok.inj hrun).1.symm
  · by_cases hzero : len = 0
    · subst hzero
      obtain ⟨rfl, -⟩ := EStateM.Result.ok.inj hrun
      exact (List.take_zero ..).symm
    · rw [readFile_past htree.owned hmem (Nat.lt_of_not_le ho) hzero] at hrun
      cases hrun

/-- `write_file` on the file at a path overwrites its bytes, or fails. -/
theorem writeFile_located (htree : TreeOn g img live n) (hroot : fds.rootInode = g.root)
    (hs : SplitsTo path cs) (h0 : ∀ x ∈ cs, 0 ∉ x) (hlen : d.length < 2 ^ 63)
    (hfile : n.locate cs = some (.file item bytes)) (hpath : locatePath fds path img = .ok b img₁)
    (hrun : writeFile fuel b o d img₁ = .ok () img') :
    d = [] ∧ img' = img ∨ o ≤ bytes.length ∧ Written g img img' item.inode o d := by
  obtain ⟨m, hm, hb, rfl⟩ := locatePath_ok htree hroot hs h0 hpath
  obtain rfl := Option.some.inj (hfile.symm.trans hm)
  obtain ⟨hall, -, hlive⟩ := htree.located hm
  obtain rfl : b = item.inode := hb
  have hmem : item.inode ∈ live := hlive _ (label_mem_heads _)
  refine (writeFile_ok htree.owned hmem (transfer_fits htree.owned.onVolume hlen) hrun).imp_right ?_
  rintro ⟨-, ho, hw⟩
  rw [← (stored_file.mp hall).2, content_length]
  exact ⟨ho, hw⟩

end File

section Create

variable {g : Geometry} {img img₁ img' : Image} {live : Finset ℕ} {n : TreeNode}
  {fds : FsDescriptors} {path : Path} {cs : List (List UInt8)} {w : List UInt8} {b c fuel : ℕ}
  {flags : UInt8}

/-- What a Create has done when it ends well: there is a new node, and its item
stands behind the entries of the directory. -/
theorem create_located (htree : TreeOn g img live n) (hroot : fds.rootInode = g.root)
    (hs : SplitsTo path (cs ++ [w])) (hlt : cs.length < wordSize) (h0 : ∀ x ∈ cs ++ [w], 0 ∉ x)
    (hw : w.length < fileNameLength) (hpath : locatePath fds (parentPath path) img = .ok b img)
    (hinit : initNewFile flags img = .ok c img₁)
    (hrun : appendDirectory fuel b ⟨c, itemName w⟩ img₁ = .ok () img') :
    ∃ item sub, n.locate cs = some (.dir item sub) ∧ Created g img img₁ c flags ∧
      TreeOn g img₁ (insert c live) n ∧
      Written g img₁ img' item.inode (sizeOfNode g img₁ item.inode)
        (DirectoryItem.encode ⟨c, itemName w⟩) ∧
      TreeOn g img' (insert c live)
        (n.update (Node.addEntry w (emptyNode flags ⟨c, itemName w⟩)) cs) := by
  obtain ⟨m, hm, rfl, -⟩ := locateParent_ok htree hroot hs hlt h0 hpath
  have hc := initNewFile_ok htree.owned hinit
  obtain ⟨htree₁, hnew⟩ := htree.created hc
  have hcw := hc.range.2.trans g.blocksCount_lt
  obtain ⟨hall, -, hlive⟩ := htree₁.located hm
  have hmem := hlive _ (label_mem_heads m)
  have hwr := appendDirectory_ok htree₁.owned hmem (itemName_fits hcw hw) hrun
  cases m with
  | file item bytes =>
    rw [appendDirectory_not htree₁.owned hmem fuel _ hall.1] at hrun
    cases hrun
  | dir item sub =>
    have hname : Named w ⟨c, itemName w⟩ := itemName_named hcw hw (h0 w (by simp))
    have hk : (emptyNode flags ⟨c, itemName w⟩).All Named (stored g img₁) := emptyNode_stored hc
    refine ⟨item, sub, hm, hc, htree₁, hwr, ?_⟩
    exact htree₁.appended (k := emptyNode flags ⟨c, itemName w⟩) hm (by simpa using hname) hk
      (by simp) (by simpa using hnew) (by rw [emptyNode_label]; exact hwr)

end Create

namespace Refines

variable {g : Geometry} {img img₁ img' : Image} {t : FileTree} {fds : FsDescriptors} {path : Path}
  {cs : List (List UInt8)} {w d : List UInt8} {b fuel o len : ℕ} {flags : UInt8}

/-- A located node, seen from both sides. -/
theorem locate_map {n m : TreeNode} {t : FileTree} (ht : n.relabel (fun _ => ()) = t)
    (hm : n.locate cs = some m) : t.locate cs = some (m.relabel fun _ => ()) := by
  rw [← ht, Node.relabel_locate, hm, Option.map_some]

theorem eq_file {m : TreeNode} {bytes : List UInt8}
    (h : some (m.relabel fun _ => ()) = some (.file () bytes : FileTree)) :
    ∃ item, m = .file item bytes := by
  cases m with
  | file item bytes' =>
    obtain ⟨-, rfl⟩ := Node.file.inj (Option.some.inj h)
    exact ⟨item, rfl⟩
  | dir item sub => cases h

/-- A node whose flags say that it is a file. -/
theorem file_of_flags (h : Refines g img t) (hroot : fds.rootInode = g.root) (hs : SplitsTo path cs)
    (h0 : ∀ x ∈ cs, 0 ∉ x) (hpath : locatePath fds path img = .ok b img)
    (hflags : (getInode b >>= getFlags) img = .ok flgFile img) :
    ∃ bytes, t.locate cs = some (.file () bytes) := by
  obtain ⟨live, n, htree, -, ht⟩ := h
  obtain ⟨m, hm, rfl, -⟩ := locatePath_ok htree hroot hs h0 hpath
  obtain ⟨hall, -, hlive⟩ := htree.located hm
  have hmem := hlive _ (label_mem_heads m)
  rw [bind_of_ok (htree.owned.inode_run hmem), htree.owned.flags_run hmem] at hflags
  cases m with
  | file item bytes => exact ⟨bytes, locate_map ht hm⟩
  | dir item sub =>
    refine absurd ?_ hall.1.1
    rw [show flagsOf g img item.inode = flgFile from (EStateM.Result.ok.inj hflags).1]
    decide

theorem read (h : Refines g img t) (hroot : fds.rootInode = g.root) (hs : SplitsTo path cs)
    (h0 : ∀ x ∈ cs, 0 ∉ x) (hlen : len < 2 ^ 63) (hpath : locatePath fds path img = .ok b img₁)
    (hrun : readFile b o len img₁ = .ok d img') {bytes : List UInt8}
    (hfile : t.locate cs = some (.file () bytes)) : d = (bytes.drop o).take len := by
  obtain ⟨live, n, htree, -, ht⟩ := h
  obtain ⟨m, hm, -⟩ := locatePath_ok htree hroot hs h0 hpath
  obtain ⟨item, rfl⟩ := eq_file ((locate_map ht hm).symm.trans hfile)
  exact readFile_located htree hroot hs h0 hlen hm hpath hrun

theorem readDir (h : Refines g img t) (hroot : fds.rootInode = g.root) (hs : SplitsTo path cs)
    (h0 : ∀ x ∈ cs, 0 ∉ x) (hpath : locatePath fds path img = .ok b img₁)
    {content : Fs.DirectoryContent} (hrun : readDirectory b img₁ = .ok content img') :
    ∃ sub, t.locate cs = some (.dir () sub) ∧
      List.Forall₂ (fun x item => cString item.name = some x) sub.names content.items := by
  obtain ⟨live, n, htree, -, ht⟩ := h
  obtain ⟨m, hm, rfl, rfl⟩ := locatePath_ok htree hroot hs h0 hpath
  obtain ⟨hall, -, hlive⟩ := htree.located hm
  have hmem := hlive _ (label_mem_heads m)
  cases m with
  | file item bytes =>
    obtain ⟨e, he⟩ := readDirectory_not htree.owned hmem fun hd => hd.flags hall.1
    cases he.symm.trans hrun
  | dir item sub =>
    obtain ⟨-, -, hread⟩ := readDirectory_stored htree.owned hmem hall.1 hall.2
    obtain ⟨rfl, -⟩ := EStateM.Result.ok.inj (hread.symm.trans hrun)
    refine ⟨sub.relabel fun _ => (), locate_map ht hm, ?_⟩
    rw [Entries.names_relabel]
    exact Entries.all_forall₂ (fun _ _ hx => hx.name) hall.2

/-! ## Changes of the tree -/

theorem write (h : Refines g img t) (hroot : fds.rootInode = g.root) (hs : SplitsTo path cs)
    (h0 : ∀ x ∈ cs, 0 ∉ x) (hlen : d.length < 2 ^ 63) (hpath : locatePath fds path img = .ok b img₁)
    (hrun : writeFile fuel b o d img₁ = .ok () img') :
    ∃ bytes, t.locate cs = some (.file () bytes) ∧ (o ≤ bytes.length ∨ d = []) ∧
      Refines g img' (t.update (Node.mapData fun bytes => overwrite bytes o d) cs) := by
  obtain ⟨live, n, htree, hplain, ht⟩ := h
  obtain ⟨m, hm, rfl, rfl⟩ := locatePath_ok htree hroot hs h0 hpath
  obtain ⟨hall, -, hlive⟩ := htree.located hm
  have hmem := hlive _ (label_mem_heads m)
  cases m with
  | dir item sub =>
    exfalso
    have hdir : flagsOf g img₁ item.inode = flgDirectory := by
      refine (hplain item (Node.locate_allLabels_subset hm (Node.label_mem_allLabels _))).resolve_left
        fun hfile => hall.1.1 ?_
      rw [hfile]
      decide
    have hnot : flagsOf g img₁ item.inode &&& flgFile = 0 := by
      rw [hdir]
      decide
    rw [writeFile, bind_of_ok (htree.owned.inode_run hmem), bind_of_ok (htree.owned.flags_run hmem),
      Node.label, if_pos hnot] at hrun
    cases hrun
  | file item bytes =>
    have hfile := locate_map ht hm
    have hupd : (n.update (Node.mapData fun bytes => overwrite bytes o d) cs).relabel (fun _ => ()) =
        t.update (Node.mapData fun bytes => overwrite bytes o d) cs := by
      rw [Node.relabel_update _ _ _ fun _ _ => Node.relabel_mapData _ _ _, ht]
    rcases writeFile_located htree hroot hs h0 hlen hm hpath hrun with ⟨rfl, rfl⟩ | ⟨ho, hw⟩
    · refine ⟨bytes, hfile, Or.inr rfl, live, n, htree, hplain, ?_⟩
      have hsame : (Node.mapData fun bytes => overwrite bytes o []) =
          (id : FileTree → FileTree) := by
        funext k
        cases k <;> simp [Node.mapData]
      rw [hsame, Node.update_id, ht]
    · refine ⟨bytes, hfile, Or.inl ho, live, _, htree.written hm hw, ?_, hupd⟩
      refine (hplain.step htree hmem hw.step).update hm fun item' hitem' => ?_
      rw [Node.mapData_allLabels] at hitem'
      exact hplain.step htree hmem hw.step item' (Node.locate_allLabels_subset hm hitem')

theorem create (h : Refines g img t) (hroot : fds.rootInode = g.root) (hs : SplitsTo path (cs ++ [w]))
    (hlt : cs.length < wordSize) (h0 : ∀ x ∈ cs ++ [w], 0 ∉ x) (hw : w.length < fileNameLength)
    (hflags : flags = flgFile ∨ flags = flgDirectory)
    (hpath : locatePath fds (parentPath path) img = .ok b img) {c : ℕ}
    (hinit : initNewFile flags img = .ok c img₁)
    (hrun : appendDirectory fuel b ⟨c, itemName w⟩ img₁ = .ok () img') :
    ∃ sub, t.locate cs = some (.dir () sub) ∧
      Refines g img' (t.update (Node.addEntry w (FileTree.empty flags)) cs) := by
  obtain ⟨live, n, htree, hplain, ht⟩ := h
  obtain ⟨item, sub, hm, hc, htree₁, hwr, htree'⟩ :=
    create_located htree hroot hs hlt h0 hw hpath hinit hrun
  have hmem := (htree₁.located hm).2.2 _ (label_mem_heads _)
  have hplain' := (hplain.created htree hc).step htree₁ hmem hwr.step
  refine ⟨sub.relabel fun _ => (), locate_map ht hm, _, _, htree', hplain'.update hm ?_, ?_⟩
  · intro item' hitem'
    rw [Node.addEntry_allLabels, List.mem_append, emptyNode_allLabels, List.mem_singleton] at hitem'
    rcases hitem' with hitem' | rfl
    · exact hplain' item' (Node.locate_allLabels_subset hm hitem')
    · rw [hwr.step.live_flags htree₁.owned hmem (Finset.mem_insert_self c live), hc.flags]
      exact hflags
  · rw [Node.relabel_update _ _ _ fun _ _ => Node.relabel_addEntry _ _ _ _, ht, emptyNode_relabel]

end Refines

end KisLinux.Net
