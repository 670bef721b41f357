import KisLinux.FsChainEnds
import KisLinux.NetEffects
import KisLinux.NetRefinement

/-!
# What the tree refuses

The tree of files decides what becomes of a request: `refusal` is the error that it
ends in, if any, `takes` the free blocks that it uses up, and `Settles` what the client
gets for it. On a volume that refines a tree every handler comes to an end and answers
just that, as long as there are as many free blocks; when there are fewer, it says so.
-/
namespace KisLinux.Net
open ByteMemory StateRun ShortTransfer NameTree Fs

/-! ## One request, seen by the tree -/

/-- A request of a client that keeps to files and directories and removes nothing. -/
structure Request.Plain (r : Request) : Prop where
  path : 0 ∈ r.path
  kind : match r with
    | .create _ flags => flags = flgFile ∨ flags = flgDirectory
    | .write _ _ data => data.length < 2 ^ 63
    | .remove _ => False
    | _ => True

/-- The components of the path, up to its NUL, unless `split_path` reports it. -/
def Request.names (r : Request) : Except FsError (List (List UInt8)) :=
  if (r.path.takeWhile (· ≠ 0)).head? ≠ some slash ∨ [slash, slash] <:+: r.path.takeWhile (· ≠ 0) then
    .error .invalidPath
  else .ok r.components

/-- The way to the node that the handler looks for: to create a node it is the directory. -/
def Request.way (r : Request) (cs : List (List UInt8)) : List (List UInt8) :=
  match r with
  | .create _ _ | .remove _ => cs.dropLast
  | _ => cs

namespace FileTree

/-- The number of bytes of a node. -/
def extent : FileTree → ℕ
  | .file _ bytes => bytes.length
  | .dir _ sub => sub.names.length * sizeofDirectoryItem

/-- What a request is refused for when its way leads to the node `k`. No buffer takes
`2 ^ 63` bytes. -/
def objection (k : FileTree) (r : Request) : Option FsError :=
  match r with
  | .read _ offset length =>
    if 2 ^ 63 ≤ length then some .memory
    else if length ≠ 0 ∧ k.extent < offset then some .invalidPosition
    else none
  | .write _ offset data =>
    match k with
    | .dir _ _ => some .notFile
    | .file _ bytes => if data ≠ [] ∧ bytes.length < offset then some .invalidPosition else none
  | .create _ _ =>
    if fileNameLength ≤ (r.components.getLast?.getD []).length then some .tooLongName
    else
      match k with
      | .file _ _ => some .notDirectory
      | .dir _ _ => if r.components = [] then some .noSuchFile else none
  | .readDir _ =>
    match k with
    | .file _ _ => some .notDirectory
    | .dir _ _ => none
  | .stat _ | .remove _ => none

/-- The error that a request ends in, if it is one that the tree decides. -/
def refusal (t : FileTree) (r : Request) : Option FsError :=
  match r.names with
  | .error e => some e
  | .ok cs =>
    match t.walk (r.way cs) with
    | .error miss => some (missError miss)
    | .ok k => FileTree.objection k r

/-- What one more entry makes a directory grow by. -/
def growth (g : Geometry) : FileTree → ℕ
  | .file _ _ => 0
  | .dir _ sub => g.blocksRequired (sub.names.length * sizeofDirectoryItem + sizeofDirectoryItem) -
      g.blocksRequired (sub.names.length * sizeofDirectoryItem)

/-- The free blocks that a request takes at the node `k`. To create a node takes one
for it, before anything looks whether `k` is a directory. -/
def demand (g : Geometry) (k : FileTree) (r : Request) : ℕ :=
  match r with
  | .create _ _ =>
    if r.components = [] ∨ fileNameLength ≤ (r.components.getLast?.getD []).length then 0
    else 1 + k.growth g
  | .write _ offset data =>
    match k with
    | .dir _ _ => 0
    | .file _ bytes =>
      if data = [] ∨ bytes.length < offset then 0
      else g.blocksRequired (max bytes.length (offset + data.length)) -
        g.blocksRequired bytes.length
  | .read _ _ _ | .readDir _ | .stat _ | .remove _ => 0

/-- The free blocks that a request takes. -/
def takes (g : Geometry) (t : FileTree) (r : Request) : ℕ :=
  match r.names with
  | .error _ => 0
  | .ok cs =>
    match t.walk (r.way cs) with
    | .error _ => 0
    | .ok k => FileTree.demand g k r

/-- The tree may answer `x` to the request `r` and is `t'` then. Nothing is said
about the bytes of a directory and the numbers of the blocks of a node. -/
inductive Allows (g : Geometry) : FileTree → Request → Received → FileTree → Prop
  | told {t t' : FileTree} {r : Request} {x : Received} {a : Answer} (next : t.next r = some t')
      (answer : t.answer r = some a) (agrees : x.Agrees a) : Allows g t r x t'
  | stat {t k : FileTree} {path : List UInt8} {size count : ℕ} {blocks : List UInt8}
      (located : t.locate (Request.stat path).components = some k) (size_eq : size = k.extent)
      (count_eq : count = g.blocksRequired size) (blocks_eq : blocks.length = 8 * count) :
      Allows g t (.stat path) (.stat size count blocks) t
  | entries {t : FileTree} {path d : List UInt8} {o len : ℕ}
      {sub : Entries (List UInt8) Unit (List UInt8)}
      (located : t.locate (Request.read path o len).components = some (.dir () sub))
      (length_eq : d.length = min len (sub.names.length * sizeofDirectoryItem - o)) :
      Allows g t (.read path o len) (.read d) t

/-- The answers to all other requests are those of the tree. -/
theorem Allows.told_of {g : Geometry} {t t' : FileTree} {r : Request} {x : Received}
    (h : Allows g t r x t') (hstat : ∀ path, r ≠ .stat path) (hread : ∀ path o len, r ≠ .read path o len) :
    ∃ a, t.next r = some t' ∧ t.answer r = some a ∧ x.Agrees a := by
  cases h with
  | told next answer agrees => exact ⟨_, next, answer, agrees⟩
  | stat => exact absurd rfl (hstat _)
  | entries => exact absurd rfl (hread _ _ _)

/-- What the request `r` ends in when it is refused. The last block of a node may link
past the last block of the volume, which a request for its state comes across: whether
it does is not to be seen in the tree. -/
inductive Refuses (t : FileTree) : Request → FsError → Prop
  | refusal {r : Request} {e : FsError} (h : t.refusal r = some e) : Refuses t r e
  | staleLink {path : List UInt8} (h : t.refusal (.stat path) = none) :
      Refuses t (.stat path) .getInode

/-- What the client gets for the request `r`, if anything, and the tree behind it. -/
inductive Settles (g : Geometry) (t : FileTree) (r : Request) : Option Received → FileTree → Prop
  | done {x : Received} {t' : FileTree} (accepted : t.refusal r = none) (allows : t.Allows g r x t') :
      Settles g t r (some x) t'
  | refused {e : FsError} (refuses : t.Refuses r e) (spoken : e ≠ .memory) :
      Settles g t r (some (.refused (reported e ++ [0]))) t
  /-- The client waits for ever. -/
  | silent (refusal : t.refusal r = some .memory) : Settles g t r none t

/-- To create the root itself is to count its components down from none; with an
entry in the root the lookup then runs past them. -/
inductive Overruns : FileTree → Request → Prop
  | intro {path : List UInt8} {flags : UInt8} {sub : Entries (List UInt8) Unit (List UInt8)}
      (root : (Request.create path flags).names = .ok []) (entry : sub ≠ .nil) :
      Overruns (.dir () sub) (.create path flags)

end FileTree

/-- The client is told that there are no more blocks. -/
def Received.NoRoom (x : Received) : Prop := ∃ e : FsError, e.NoRoom ∧ x = .refused (reported e ++ [0])

theorem noRoom_ne_memory {e : FsError} (h : e.NoRoom) : e ≠ .memory := by
  rintro rfl
  rcases h with h | h <;> cases h

/-! ## Free blocks -/

def freeCount (g : Geometry) (img : Image) : ℕ := (freeBlocks g img).length

/-- The volume had `k` free blocks, and has as many fewer. -/
structure Spends (g : Geometry) (img img' : Image) (k : ℕ) : Prop where
  enough : k ≤ freeCount g img
  left : freeCount g img' = freeCount g img - k

theorem Spends.refl (g : Geometry) (img : Image) : Spends g img img 0 := ⟨Nat.zero_le _, rfl⟩

theorem Spends.trans {g : Geometry} {img img' img'' : Image} {k m : ℕ} (h : Spends g img img' k)
    (h' : Spends g img' img'' m) : Spends g img img'' (k + m) where
  enough := by
    have hle := h'.enough
    have hfirst := h.enough
    rw [h.left] at hle
    omega
  left := by rw [h'.left, h.left, Nat.sub_sub]

/-- What is too much later on is too much from the start. -/
theorem Spends.short {g : Geometry} {img img' : Image} {k m : ℕ} (h : Spends g img img' k)
    (hshort : freeCount g img' < m) : freeCount g img < k + m := by
  have hle := h.enough
  rw [h.left] at hshort
  omega

/-- The last block of the node that the path of a request leads to links past the last
block of the volume. -/
def StaleLink (g : Geometry) (fds : FsDescriptors) (img : Image) (r : Request) : Prop :=
  ∃ p q n, cString r.path = some p ∧ splitPath p = .ok q ∧ locatePath fds q img = .ok n img ∧
    g.blocksCount ≤ linkOf g img (lastOf g img n)

/-- The request `r` ends in the error `e` on the volume `img` of the tree `t`: the tree
refuses it, or it comes across a link past the last block. -/
structure Declines (g : Geometry) (fds : FsDescriptors) (img : Image) (t : FileTree) (r : Request)
    (e : FsError) : Prop where
  refuses : t.Refuses r e
  stale : t.refusal r = none → StaleLink g fds img r

theorem Declines.of_refusal {g : Geometry} {fds : FsDescriptors} {img : Image} {t : FileTree}
    {r : Request} {e : FsError} (h : t.refusal r = some e) : Declines g fds img t r e :=
  ⟨.refusal h, fun hnone => by cases hnone.symm.trans h⟩

/-! ## Nodes on a volume -/

section Nodes

variable {g : Geometry} {img : Image} {live : Finset ℕ} {n m : TreeNode} {cs : List (List UInt8)}
  {d : List UInt8} {o len : ℕ}

theorem labels_length (t : TreeEntries) : t.labels.length = t.names.length := by
  induction t using Entries.cons_induction with
  | nil => rfl
  | cons x n rest ih => rw [Entries.labels_cons, Entries.names_cons, List.length_cons, List.length_cons, ih]

/-- The size in the header of a node is that of the tree. -/
theorem extent_eq (h : TreeOn g img live n) (hm : n.locate cs = some m) :
    sizeOfNode g img m.label.inode = FileTree.extent (m.relabel fun _ => ()) := by
  obtain ⟨hall, -, -⟩ := h.located hm
  rw [← content_length]
  cases m with
  | file item bytes => exact congrArg List.length (stored_file.mp hall).2
  | dir item sub =>
    have hcontent := (stored_dir.mp hall.1).2
    simp only [Node.label, Node.relabel, FileTree.extent, Entries.names_relabel]
    rw [hcontent, encodeItems_length (labels_fit hall.2), labels_length]

theorem readFile_node (h : TreeOn g img live n) (hm : n.locate cs = some m) (hlen : len < 2 ^ 63) :
    readFile m.label.inode o len img =
      if len ≠ 0 ∧ FileTree.extent (m.relabel fun _ => ()) < o then
        .error (.die .invalidPosition) img
      else .ok (((content g img m.label.inode).drop o).take len) img := by
  have hmem := (h.located hm).2.2 _ (label_mem_heads m)
  rw [← extent_eq h hm]
  split
  · next hpast => exact readFile_past h.owned hmem hpast.2 hpast.1
  · next hin =>
    by_cases hlen0 : len = 0
    · rw [readFile, if_pos hlen0, hlen0, List.take_zero, pure_run]
    · have ho : o ≤ sizeOfNode g img m.label.inode := Nat.le_of_not_lt fun hlt => hin ⟨hlen0, hlt⟩
      have hfit := transfer_fits h.owned.onVolume hlen
      have hbound := h.owned.size_bound hmem
      rw [h.owned.onVolume.mapped_eq] at hfit
      exact readFile_run h.owned hmem ho (by simp only [sizeofINodeMain] at hbound; omega)

theorem readDirectory_atFile {item : DirectoryItem} {bytes : List UInt8} (h : TreeOn g img live n)
    (hm : n.locate cs = some (.file item bytes)) :
    readDirectory item.inode img = .error (.die .notDirectory) img := by
  obtain ⟨hall, -, hlive⟩ := h.located hm
  exact readDirectory_file h.owned (hlive _ (label_mem_heads (.file item bytes))) hall

theorem readDirectory_atDir {item : DirectoryItem} {sub : TreeEntries} (h : TreeOn g img live n)
    (hm : n.locate cs = some (.dir item sub)) : readDirectory item.inode img = .ok ⟨sub.labels⟩ img := by
  obtain ⟨hall, -, hlive⟩ := h.located hm
  exact (readDirectory_stored h.owned (hlive _ (label_mem_heads (.dir item sub))) hall.1 hall.2).2.2

/-- Writing to a file, when its flags let it: past the end, done, or to the end of the
volume. -/
theorem writeFileUnchecked_node {item : DirectoryItem} {bytes : List UInt8} (fuel : ℕ)
    (path : List UInt8) (h : TreeOn g img live n) (hm : n.locate cs = some (.file item bytes))
    (hd : d.length < 2 ^ 63) :
    (d ≠ [] ∧ bytes.length < o) ∧
      writeFileUnchecked fuel item.inode o d img = .error (.die .invalidPosition) img ∨
    ¬ (d ≠ [] ∧ bytes.length < o) ∧
      ((∃ img', writeFileUnchecked fuel item.inode o d img = .ok () img' ∧
        Spends g img img' (FileTree.demand g (.file () bytes) (.write path o d))) ∨
        ∃ e img', e.NoRoom ∧ writeFileUnchecked fuel item.inode o d img = .error (.die e) img' ∧
          freeCount g img < FileTree.demand g (.file () bytes) (.write path o d)) := by
  obtain ⟨-, -, hlive⟩ := h.located hm
  have hmem := hlive _ (label_mem_heads (.file item bytes))
  have hsize := extent_eq h hm
  simp only [Node.relabel, FileTree.extent, Node.label] at hsize hmem
  simp only [FileTree.demand, ← hsize]
  by_cases hpast : d ≠ [] ∧ sizeOfNode g img item.inode < o
  · exact .inl ⟨hpast, writeFileUnchecked_past h.owned hmem fuel hpast.1 hpast.2⟩
  · refine .inr ⟨hpast, ?_⟩
    by_cases hnil : d = []
    · rw [hnil, writeFileUnchecked_nil, if_pos (Or.inl rfl)]
      exact .inl ⟨img, rfl, .refl g img⟩
    · have hnot : ¬ sizeOfNode g img item.inode < o := fun hlt => hpast ⟨hnil, hlt⟩
      have ho := Nat.le_of_not_lt hnot
      have hfit := transfer_fits h.owned.onVolume hd
      rw [if_neg (not_or.mpr ⟨hnil, hnot⟩)]
      by_cases hroom : extraBlocks g img item.inode
          (max (sizeOfNode g img item.inode) (o + d.length)) ≤ (freeBlocks g img).length
      · obtain ⟨img', hok, hw⟩ := writeFileUnchecked_run h.owned hmem fuel hnil ho hfit hroom
        refine .inl ⟨img', hok, hroom, ?_⟩
        rw [freeCount, hw.freeBlocks_eq h.owned hmem, List.length_drop]
        rfl
      · obtain ⟨e, img', he, hfull, -⟩ :=
          writeFileUnchecked_noRoom h.owned hmem fuel hnil ho hfit (Nat.lt_of_not_le hroom)
        exact .inr ⟨e, img', he, hfull, Nat.lt_of_not_le hroom⟩

theorem writeFile_flags (fuel : ℕ) (h : TreeOn g img live n) (hm : n.locate cs = some m) :
    writeFile fuel m.label.inode o d img =
      if flagsOf g img m.label.inode &&& flgFile = 0 then .error (.die .notFile) img
      else writeFileUnchecked fuel m.label.inode o d img := by
  have hmem := (h.located hm).2.2 _ (label_mem_heads m)
  rw [writeFile, bind_of_ok (h.owned.inode_run hmem), bind_of_ok (h.owned.flags_run hmem)]
  split <;> rfl

/-- Writing to a node is refused, done, or comes to the end of the volume. -/
theorem writeFile_node (fuel : ℕ) (path : List UInt8) (h : TreeOn g img live n)
    (hplain : PlainFlags g img n) (hm : n.locate cs = some m) (hd : d.length < 2 ^ 63) :
    (∃ e, FileTree.objection (m.relabel fun _ => ()) (.write path o d) = some e ∧
      FileTree.demand g (m.relabel fun _ => ()) (.write path o d) = 0 ∧
      writeFile fuel m.label.inode o d img = .error (.die e) img) ∨
    FileTree.objection (m.relabel fun _ => ()) (.write path o d) = none ∧
      ((∃ img', writeFile fuel m.label.inode o d img = .ok () img' ∧
        Spends g img img' (FileTree.demand g (m.relabel fun _ => ()) (.write path o d))) ∨
        ∃ e img', e.NoRoom ∧ writeFile fuel m.label.inode o d img = .error (.die e) img' ∧
          freeCount g img < FileTree.demand g (m.relabel fun _ => ()) (.write path o d)) := by
  obtain ⟨hall, -, -⟩ := h.located hm
  have hflags := hplain _ (Node.locate_allLabels_subset hm m.label_mem_allLabels)
  have hrun := writeFile_flags (o := o) (d := d) fuel h hm
  cases m with
  | dir item sub =>
    have hdir : flagsOf g img item.inode = flgDirectory := hflags.resolve_left fun hfile => by
      have hset := hall.1.1
      rw [show flagsOf g img item.inode = flgFile from hfile] at hset
      exact hset (by decide)
    have hnot : flagsOf g img item.inode &&& flgFile = 0 := by
      rw [hdir]
      decide
    exact .inl ⟨.notFile, rfl, rfl, hrun.trans (if_pos hnot)⟩
  | file item bytes =>
    have hfile := hflags.resolve_right fun hdir => by
      have hzero := hall.1
      rw [show flagsOf g img item.inode = flgDirectory from hdir] at hzero
      exact absurd hzero (by decide)
    have hset : ¬ flagsOf g img item.inode &&& flgFile = 0 := by
      rw [show flagsOf g img item.inode = flgFile from hfile]
      decide
    rw [hrun.trans (if_neg hset)]
    simp only [Node.relabel, Node.label]
    rcases writeFileUnchecked_node (o := o) fuel path h hm hd with ⟨hpast, hdie⟩ | ⟨hin, hcases⟩
    · refine .inl ⟨.invalidPosition, ?_, ?_, hdie⟩
      · rw [FileTree.objection, if_pos hpast]
      · rw [FileTree.demand, if_pos (Or.inr hpast.2)]
    · refine .inr ⟨?_, hcases⟩
      rw [FileTree.objection, if_neg hin]

end Nodes

/-! ## Paths -/

section Paths

variable {g : Geometry} {live : Finset ℕ} {img : Image} {n : TreeNode} {fds : FsDescriptors}
  {path : NetString} {q : Path} {cs : List (List UInt8)} {w : List UInt8} {r : Request}

theorem names_error {e : FsError} (h : r.names = .error e) : e = .invalidPath := by
  rw [Request.names] at h
  split at h
  · exact (Except.error.inj h).symm
  · cases h

/-- `split_path` reports the path of a request or splits it into the components. -/
theorem splitArg_names (hr : path.chars = r.path) (h0 : 0 ∈ r.path) (s : Server) :
    (∃ e, r.names = .error e ∧ splitArg path s = .error (.die e) s) ∨
      ∃ q, PathArg path q r.components ∧ r.names = .ok r.components ∧ splitArg path s = .ok q s ∧
        ∃ p, cString r.path = some p ∧ splitPath p = .ok q := by
  obtain ⟨w, hw⟩ := exists_cString h0
  have hchars : cString path.chars = some w := hr ▸ hw
  rw [splitArg_run hchars, Request.names, takeWhile_of_cString hw]
  by_cases hbad : w.head? ≠ some slash ∨ [slash, slash] <:+: w
  · rw [if_pos hbad, splitPath_error hbad]
    exact .inl ⟨.invalidPath, rfl, rfl⟩
  · rw [if_neg hbad]
    rw [not_or, not_not] at hbad
    obtain ⟨cs, hspells⟩ := exists_spells (zero_notMem_of_cString hw) hbad.1 hbad.2
    obtain ⟨q, hq, hs⟩ := splitPath_of_spells hspells
    have harg : PathArg path q cs := ⟨w, cString_of_take hchars, hq, hspells, hs⟩
    obtain rfl := harg.components hr h0
    exact .inr ⟨q, harg, rfl, by rw [hq]; rfl, w, hw, hq⟩

theorem locatePath_walk (h : TreeOn g img live n) (hroot : fds.rootInode = g.root)
    (hs : SplitsTo q cs) (h0 : ∀ w ∈ cs, 0 ∉ w) : locatePath fds q img =
      match n.walk cs with
      | .ok m => .ok m.label.inode img
      | .error e => .error (.die (missError e)) img := by
  rw [locatePath, hs.count_eq, hroot, ← h.root]
  refine locateLoop_walk h.owned h.all h.live (fun j hj => ?_) h0
  rw [Nat.zero_add]
  exact hs.part_eq j hj

theorem locateParent_walk (h : TreeOn g img live n) (hroot : fds.rootInode = g.root)
    (hs : SplitsTo q (cs ++ [w])) (hlt : cs.length < wordSize) (h0 : ∀ x ∈ cs ++ [w], 0 ∉ x) :
    locatePath fds (parentPath q) img =
      match n.walk cs with
      | .ok m => .ok m.label.inode img
      | .error e => .error (.die (missError e)) img := by
  rw [locatePath, parentPath_concat hs hlt, hroot, ← h.root]
  refine locateLoop_walk h.owned h.all h.live (fun j hj => ?_) fun x hx => h0 x (by simp [hx])
  rw [Nat.zero_add, parentPath_part, hs.part_eq j (by simp only [List.length_append]; omega),
    List.getElem_append_left hj]

/-- What `locate_path` comes to above the root. -/
def aboveRoot : TreeNode → Stop
  | .file _ _ => .die .notDirectory
  | .dir _ .nil => .die .noSuchFile
  | .dir _ _ => .fault

/-- The directory above the root is looked for in the root, behind the components. -/
theorem locateParent_root (h : TreeOn g img live n) (hroot : fds.rootInode = g.root)
    (hs : SplitsTo q []) : locatePath fds (parentPath q) img = .error (aboveRoot n) img := by
  have hpos : (parentPath q).count ≠ 0 := by
    rw [parentPath_nil hs, wordSize]
    omega
  obtain ⟨k, hk⟩ := Nat.exists_eq_succ_of_ne_zero hpos
  have hpast : (parentPath q).part 0 = .error .fault := by
    rw [parentPath_part, hs.part_past 0 (Nat.zero_le 0)]
  have hfind : ∀ item items, findComponent ⟨item :: items⟩ (parentPath q) 0 =
      Fs.liftExcept (.error .fault) >>= findDirectoryItem ⟨item :: items⟩ := by
    intro item items
    rw [findComponent, if_neg (List.cons_ne_nil item items), hpast]
  rw [locatePath, hk, locateLoop, hroot, ← h.root]
  cases n with
  | file item bytes => exact bind_of_error (readDirectory_atFile h (Node.locate_nil _))
  | dir item sub =>
    refine (bind_of_ok (readDirectory_atDir h (Node.locate_nil _))).trans ?_
    cases sub with
    | nil => rfl
    | file x item' bytes rest =>
      rw [Entries.labels, hfind]
      rfl
    | dir x item' sub' rest =>
      rw [Entries.labels, hfind]
      rfl

end Paths

/-! ## Handlers -/

/-- What the handler of the request `r` comes to on the volume `img` of the tree `t`. -/
inductive Verdict (g : Geometry) (fds : FsDescriptors) (img : Image) (t : FileTree) (r : Request) :
    EStateM.Result Stop Server Unit → Prop
  | done {s : Server} (accepted : t.refusal r = none) (spends : Spends g img s.image (t.takes g r)) :
      Verdict g fds img t r (.ok () s)
  | refused {e : FsError} {s : Server} (declines : Declines g fds img t r e)
      (kept : Refines g s.image t) (spends : Spends g img s.image (t.takes g r)) :
      Verdict g fds img t r (.error (.die e) s)
  | noRoom {e : FsError} {s : Server} (full : e.NoRoom) (short : freeCount g img < t.takes g r) :
      Verdict g fds img t r (.error (.die e) s)
  | overruns {s : Server} (h : t.Overruns r) : Verdict g fds img t r (.error .fault s)

section Verdicts

variable {g : Geometry} {live : Finset ℕ} {n : TreeNode} {fds : FsDescriptors} {s : Server}
  {path : NetString} {r : Request} {t : FileTree} {fuel : ℕ} {img : Image}

theorem Verdict.after {α : Type} {x : SrvM α} {k : α → SrvM Unit} {a : α} {s' : Server}
    (hx : x s = .ok a s') (h : Verdict g fds img t r (k a s')) :
    Verdict g fds img t r ((x >>= k) s) := by
  rwa [bind_of_ok hx]

theorem Verdict.stopped {α : Type} {x : SrvM α} {k : α → SrvM Unit} {e : Stop} {s' : Server}
    (hx : x s = .error e s') (h : Verdict g fds img t r (.error e s')) :
    Verdict g fds img t r ((x >>= k) s) := by
  rwa [bind_of_error hx]

theorem Verdict.status (hs : s.Ready) (h : t.refusal r = none)
    (hspends : Spends g img s.image (t.takes g r)) :
    Verdict g fds img t r (writeEmptyError s) := by
  obtain ⟨a, s', hrun, hsent, -⟩ := writeEmptyError_run hs
  rw [hrun]
  exact .done h (by rw [hsent.image]; exact hspends)

theorem Verdict.reply {y : OutM Bool} {w : List UInt8} (hs : s.Ready) (hy : Sends y w)
    (h : t.refusal r = none) (hspends : Spends g img s.image (t.takes g r)) :
    Verdict g fds img t r ((writeEmptyError >>= fun _ => answer y) s) := by
  obtain ⟨a, s₁, hrun, hsent, hready⟩ := writeEmptyError_run hs
  obtain ⟨s₂, hanswer, hsent₂, -⟩ := answer_run hy hready.room hready.grants
  rw [bind_of_ok hrun, hanswer]
  exact .done h (by rw [hsent₂.image, hsent.image]; exact hspends)

/-- What a handler finds where the path of its request leads. -/
structure AtNode (g : Geometry) (fds : FsDescriptors) (img : Image) (n : TreeNode) (r : Request)
    (m : TreeNode) : Prop where
  located : n.locate r.components = some m
  refusal : FileTree.refusal (n.relabel fun _ => ()) r =
    FileTree.objection (m.relabel fun _ => ()) r
  takes : FileTree.takes g (n.relabel fun _ => ()) r = FileTree.demand g (m.relabel fun _ => ()) r
  leads : ∃ p q, cString r.path = some p ∧ splitPath p = .ok q ∧
    locatePath fds q img = .ok m.label.inode img

/-- A handler that looks for its node comes to what the rest of it comes to there. -/
theorem Verdict.locateArg {k : ℕ → SrvM Unit} (htree : TreeOn g s.image live n)
    (hplain : PlainFlags g s.image n) (hroot : fds.rootInode = g.root) (hr : path.chars = r.path)
    (h0 : 0 ∈ r.path) (hway : ∀ cs, r.way cs = cs)
    (hk : ∀ m, AtNode g fds s.image n r m →
      Verdict g fds s.image (n.relabel fun _ => ()) r (k m.label.inode s)) :
    Verdict g fds s.image (n.relabel fun _ => ()) r
      ((splitArg path >>= fun q => onImage (locatePath fds q) >>= k) s) := by
  have hrefines : Refines g s.image (n.relabel fun _ => ()) := ⟨live, n, htree, hplain, rfl⟩
  rcases splitArg_names hr h0 s with ⟨e, hnames, hsplit⟩ | ⟨q, hq, hnames, hsplit, p, hp, hpq⟩
  · have htakes : FileTree.takes g (n.relabel fun _ => ()) r = 0 := by rw [FileTree.takes, hnames]
    exact .stopped hsplit (.refused (.of_refusal (by rw [FileTree.refusal, hnames])) hrefines
      (htakes ▸ .refl g s.image))
  · have hpath := locatePath_walk htree hroot hq.splitsTo hq.zero_notMem
    have hrefusal : FileTree.refusal (n.relabel fun _ => ()) r =
        match (n.walk r.components).map (Node.relabel fun _ => ()) with
        | .error miss => some (missError miss)
        | .ok k => FileTree.objection k r := by
      rw [FileTree.refusal, hnames, ← Node.relabel_walk]
      simp only [hway]
    have htakes : FileTree.takes g (n.relabel fun _ => ()) r =
        match (n.walk r.components).map (Node.relabel fun _ => ()) with
        | .error _ => 0
        | .ok k => FileTree.demand g k r := by
      rw [FileTree.takes, hnames, ← Node.relabel_walk]
      simp only [hway]
    rw [bind_of_ok hsplit]
    cases hwalk : n.walk r.components with
    | error miss =>
      rw [hwalk] at hpath hrefusal htakes
      exact .stopped (onImage_of_error hpath)
        (.refused (.of_refusal hrefusal) hrefines (htakes ▸ .refl g s.image))
    | ok m =>
      rw [hwalk] at hpath hrefusal htakes
      rw [bind_of_ok (onImage_of_ok hpath)]
      exact hk m ⟨Node.walk_eq_ok.mp hwalk, hrefusal, htakes, p, q, hp, hpq, hpath⟩

/-- Nothing can be created in place of the root. -/
theorem objection_root {k : FileTree} {flags : UInt8}
    (hnil : (Request.create path.chars flags).components = []) :
    k.objection (.create path.chars flags) =
      some (match k with
        | .file _ _ => .notDirectory
        | .dir _ _ => .noSuchFile) := by
  cases k with
  | file l bytes =>
    simp only [FileTree.objection, hnil]
    rfl
  | dir l sub =>
    simp only [FileTree.objection, hnil]
    rfl

/-- The same for a handler that makes an entry. -/
theorem Verdict.parentArg {k : ℕ → List UInt8 → SrvM Unit} {flags : UInt8}
    (htree : TreeOn g s.image live n) (hplain : PlainFlags g s.image n)
    (hroot : fds.rootInode = g.root) (hr : r = .create path.chars flags) (h0 : 0 ∈ r.path)
    (hlt : r.path.length < wordSize)
    (hk : ∀ m ds name, r.components = ds ++ [name] → 0 ∉ name → n.locate ds = some m →
      FileTree.refusal (n.relabel fun _ => ()) r = FileTree.objection (m.relabel fun _ => ()) r →
      FileTree.takes g (n.relabel fun _ => ()) r = FileTree.demand g (m.relabel fun _ => ()) r →
      Verdict g fds s.image (n.relabel fun _ => ()) r (k m.label.inode name s)) :
    Verdict g fds s.image (n.relabel fun _ => ()) r
      ((splitArg path >>= fun q => onImage (locatePath fds (parentPath q)) >>= fun b =>
        onImage (Fs.liftExcept (q.part (parentPath q).count)) >>= k b) s) := by
  have hrefines : Refines g s.image (n.relabel fun _ => ()) := ⟨live, n, htree, hplain, rfl⟩
  have hpathr : path.chars = r.path := by rw [hr, Request.path]
  rcases splitArg_names hpathr h0 s with ⟨e, hnames, hsplit⟩ | ⟨q, hq, hnames, hsplit, -⟩
  · have htakes : FileTree.takes g (n.relabel fun _ => ()) r = 0 := by rw [FileTree.takes, hnames]
    exact .stopped hsplit (.refused (.of_refusal (by rw [FileTree.refusal, hnames])) hrefines
      (htakes ▸ .refl g s.image))
  have hrefusal : FileTree.refusal (n.relabel fun _ => ()) r =
      match (n.walk r.components.dropLast).map (Node.relabel fun _ => ()) with
      | .error miss => some (missError miss)
      | .ok k => FileTree.objection k r := by
    rw [FileTree.refusal, hnames, ← Node.relabel_walk]
    simp only [hr, Request.way]
  have htakes : FileTree.takes g (n.relabel fun _ => ()) r =
      match (n.walk r.components.dropLast).map (Node.relabel fun _ => ()) with
      | .error _ => 0
      | .ok k => FileTree.demand g k r := by
    rw [FileTree.takes, hnames, ← Node.relabel_walk]
    simp only [hr, Request.way]
  rw [bind_of_ok hsplit]
  obtain hnil | ⟨ds, name, hconcat⟩ := r.components.eq_nil_or_concat
  · have hpath := locateParent_root htree hroot (hnil ▸ hq).splitsTo
    rw [hnil, List.dropLast_nil, Node.walk_nil] at hrefusal htakes
    subst hr
    rw [bind_of_error (onImage_of_error hpath)]
    have hobjection := hrefusal.trans (objection_root hnil)
    have hspends : Spends g s.image s.image
        (FileTree.takes g (n.relabel fun _ => ()) (.create path.chars flags)) := by
      rw [htakes]
      simp only [Except.map, FileTree.demand, hnil, true_or, if_true]
      exact .refl g s.image
    cases n with
    | file item bytes => exact .refused (.of_refusal hobjection) hrefines hspends
    | dir item sub =>
      cases sub with
      | nil => exact .refused (.of_refusal hobjection) hrefines hspends
      | file x l d rest => exact .overruns (.intro (hnames.trans (by rw [hnil])) (by simp [Entries.relabel]))
      | dir x l sub rest => exact .overruns (.intro (hnames.trans (by rw [hnil])) (by simp [Entries.relabel]))
  · rw [List.concat_eq_append] at hconcat
    have harg : PathArg path q (ds ++ [name]) := hconcat ▸ hq
    have hlen := harg.length_lt hpathr h0 hlt
    rw [List.length_append, List.length_singleton] at hlen
    have hpath := locateParent_walk htree hroot harg.splitsTo (by omega) harg.zero_notMem
    have hpart := parentPath_name harg.splitsTo (by omega)
    rw [hconcat, List.dropLast_concat] at hrefusal htakes
    cases hwalk : n.walk ds with
    | error miss =>
      rw [hwalk] at hpath hrefusal htakes
      exact .stopped (onImage_of_error hpath)
        (.refused (.of_refusal hrefusal) hrefines (htakes ▸ .refl g s.image))
    | ok m =>
      rw [hwalk] at hpath hrefusal htakes
      rw [bind_of_ok (onImage_of_ok hpath), hpart]
      exact hk m ds name hconcat (harg.zero_notMem name (by simp)) (Node.walk_eq_ok.mp hwalk) hrefusal
        htakes

theorem malloc_refused {size : ℕ} (h : 2 ^ 63 ≤ size) (s : Server) :
    ∃ s', onInput (malloc size) s = .ok none s' ∧ s'.image = s.image := by
  have hnone : s.input.heap.answers 0 size = none := by
    by_contra hsome
    obtain ⟨a, ha⟩ := Option.ne_none_iff_exists'.mp hsome
    exact absurd (s.input.heap.granted_lt 0 size a ha) (Nat.not_lt_of_le h)
  have hrun : malloc size s.input = .ok none { s.input with heap := s.input.heap.next } := by
    rw [malloc, hnone]
  exact ⟨_, onInput_of_ok hrun, rfl⟩

theorem heapBlock_granted {bytes : List UInt8} (hlt : bytes.length < 2 ^ 63) (hs : s.Ready) :
    ∃ b s', heapBlock bytes s = .ok b s' ∧ b.bytes = bytes ∧ s'.Ready ∧ s'.image = s.image := by
  obtain ⟨a, s', hrun, hsilent, himage⟩ := malloc_granted hlt hs
  exact ⟨.block a bytes, s', bind_of_ok hrun, rfl, hs.silent hsilent, himage⟩

theorem fsopRead_verdict (args : FsOpReadArgs) (hs : s.Ready) (htree : TreeOn g s.image live n)
    (hplain : PlainFlags g s.image n) (hroot : fds.rootInode = g.root) (h0 : 0 ∈ args.path.chars) :
    Verdict g fds s.image (n.relabel fun _ => ()) (.read args.path.chars args.offset args.length)
      (fsopRead fds args s) := by
  refine .locateArg htree hplain hroot rfl h0 (fun _ => rfl) fun m hat => ?_
  have hrefines : Refines g s.image (n.relabel fun _ => ()) := ⟨live, n, htree, hplain, rfl⟩
  have hrefusal := hat.refusal
  have hspends : ∀ s' : Server, s'.image = s.image → Spends g s.image s'.image
      (FileTree.takes g (n.relabel fun _ => ())
        (.read args.path.chars args.offset args.length)) := by
    intro s' himage
    rw [hat.takes, himage]
    exact .refl g s.image
  rw [FileTree.objection] at hrefusal
  by_cases hbig : 2 ^ 63 ≤ args.length
  · obtain ⟨s', hmalloc, himage⟩ := malloc_refused hbig s
    rw [if_pos hbig] at hrefusal
    rw [bind_of_ok hmalloc]
    exact .refused (.of_refusal hrefusal) (by rw [himage]; exact hrefines) (hspends s' himage)
  · obtain ⟨a, s₁, hmalloc, hsilent, himage⟩ := malloc_granted (Nat.lt_of_not_le hbig) hs
    have hready := hs.silent hsilent
    have hread := readFile_node (o := args.offset) htree hat.located (Nat.lt_of_not_le hbig)
    have hspends₁ := hspends s₁ himage
    rw [← himage] at hread hrefines
    rw [if_neg hbig] at hrefusal
    rw [bind_of_ok hmalloc]
    split at hread
    · next hpast =>
      rw [if_pos hpast] at hrefusal
      exact .stopped (onImage_of_error hread) (.refused (.of_refusal hrefusal) hrefines hspends₁)
    · next hin =>
      rw [if_neg hin] at hrefusal
      have hlt := Nat.lt_of_le_of_lt (readFile_length hread) (Nat.lt_of_not_le hbig)
      have hsends := sends_string (b := .block a _) hlt
      exact .after (onImage_of_ok hread)
        (.reply ⟨hready.room, hready.clean, hready.grants⟩ hsends hrefusal hspends₁)

theorem fsopWrite_verdict (args : FsOpWriteArgs) (hs : s.Ready) (htree : TreeOn g s.image live n)
    (hplain : PlainFlags g s.image n) (hroot : fds.rootInode = g.root) (h0 : 0 ∈ args.path.chars)
    (hfilled : args.length ≤ args.data.bytes.length)
    (hd : (args.data.bytes.take args.length).length < 2 ^ 63) :
    Verdict g fds s.image (n.relabel fun _ => ())
      (.write args.path.chars args.offset (args.data.bytes.take args.length))
      (fsopWrite fuel fds args s) := by
  refine .locateArg htree hplain hroot rfl h0 (fun _ => rfl) fun m hat => ?_
  have hrefines : Refines g s.image (n.relabel fun _ => ()) := ⟨live, n, htree, hplain, rfl⟩
  rw [if_neg (Nat.not_lt_of_le hfilled)]
  rcases writeFile_node (o := args.offset) fuel args.path.chars htree hplain hat.located hd
    with ⟨e, he, hzero, hrun⟩ | ⟨hnone, ⟨img', hrun, hspends⟩ | ⟨e, img', he, hrun, hshort⟩⟩
  · exact .stopped (onImage_of_error hrun) (.refused (.of_refusal (hat.refusal.trans he)) hrefines
      ((hat.takes.trans hzero) ▸ .refl g s.image))
  · rw [bind_of_ok (onImage_of_ok hrun)]
    exact .status ⟨hs.room, hs.clean, hs.grants⟩ (hat.refusal.trans hnone) (hat.takes ▸ hspends)
  · exact .stopped (onImage_of_error hrun) (.noRoom he (hat.takes ▸ hshort))

/-- What a Create takes in a node that is there, unless its name is too long. -/
theorem demand_create {k : FileTree} {path name : List UInt8} {ds : List (List UInt8)} {flags : UInt8}
    (hcs : (Request.create path flags).components = ds ++ [name]) :
    k.demand g (.create path flags) = if fileNameLength ≤ name.length then 0 else 1 + k.growth g := by
  simp [FileTree.demand, hcs]

theorem fsopCreate_verdict (args : FsOpCreateArgs) (hs : s.Ready) (htree : TreeOn g s.image live n)
    (hplain : PlainFlags g s.image n) (hroot : fds.rootInode = g.root) (h0 : 0 ∈ args.path.chars)
    (hlt : args.path.chars.length < wordSize) :
    Verdict g fds s.image (n.relabel fun _ => ()) (.create args.path.chars args.flags)
      (fsopCreate fuel fds args s) := by
  refine .parentArg htree hplain hroot rfl h0 hlt fun m ds name hcs hname hm hrefusal htakes => ?_
  have hrefines : Refines g s.image (n.relabel fun _ => ()) := ⟨live, n, htree, hplain, rfl⟩
  rw [demand_create hcs] at htakes
  by_cases hlong : fileNameLength ≤ name.length
  · rw [if_pos hlong] at htakes ⊢
    refine .refused (.of_refusal (hrefusal.trans ?_)) hrefines (htakes ▸ .refl g s.image)
    simp [FileTree.objection, hcs, hlong]
  rw [if_neg hlong] at htakes ⊢
  cases hfree : freeBlocks g s.image with
  | nil =>
    obtain ⟨e, he, hnew⟩ := initNewFile_noRoom htree.owned args.flags hfree
    refine .stopped (onImage_of_error hnew) (.noRoom he ?_)
    rw [htakes, freeCount, hfree, List.length_nil]
    omega
  | cons b rest =>
    obtain ⟨img, hnew, hc⟩ := initNewFile_run htree.owned args.flags hfree
    obtain ⟨htree', -⟩ := htree.created hc
    obtain ⟨hall, -, hlive⟩ := htree'.located hm
    have hmem := hlive _ (label_mem_heads m)
    have hfits := itemName_fits (hc.range.2.trans g.blocksCount_lt) (Nat.lt_of_not_le hlong)
    have hcount : freeCount g s.image = freeCount g img + 1 := by
      rw [freeCount, freeCount, hc.freeBlocks_eq hfree, hfree, List.length_cons]
    have hextent := extent_eq htree' hm
    rw [bind_of_ok (onImage_of_ok hnew)]
    cases m with
    | file item bytes =>
      rw [bind_of_error (onImage_of_error (appendDirectory_not htree'.owned hmem fuel _ hall.1))]
      refine .refused (.of_refusal (hrefusal.trans ?_)) ⟨_, n, htree', hplain.created htree hc, rfl⟩ ?_
      · simp [FileTree.objection, hcs, hlong, Node.relabel]
      · rw [htakes]
        exact ⟨by rw [hcount]; exact Nat.le_add_left 1 _, by rw [hcount]; rfl⟩
    | dir item sub =>
      have haccepted : FileTree.refusal (n.relabel fun _ => ())
          (.create args.path.chars args.flags) = none := by
        rw [hrefusal]
        simp [FileTree.objection, hcs, hlong, Node.relabel]
      simp only [Node.label, Node.relabel, FileTree.extent] at hextent
      have hgrowth : FileTree.growth g ((Node.dir item sub).relabel fun _ => ()) =
          extraBlocks g img item.inode (sizeOfNode g img item.inode + sizeofDirectoryItem) := by
        rw [extraBlocks, hextent]
        rfl
      rw [hgrowth] at htakes
      by_cases hroom : extraBlocks g img item.inode (sizeOfNode g img item.inode + sizeofDirectoryItem) ≤
          (freeBlocks g img).length
      · obtain ⟨img', hrun, hw⟩ := appendDirectory_run htree'.owned hmem fuel hfits hall.1.1 hroom
        have hleft : freeCount g img' = freeCount g img -
            extraBlocks g img item.inode (sizeOfNode g img item.inode + sizeofDirectoryItem) := by
          rw [freeCount, hw.freeBlocks_eq htree'.owned hmem, List.length_drop, hfits.encode_length,
            Nat.max_eq_right (Nat.le_add_right _ _)]
          rfl
        rw [bind_of_ok (onImage_of_ok hrun)]
        refine .status ⟨hs.room, hs.clean, hs.grants⟩ haccepted ⟨?_, ?_⟩
        · rw [htakes, hcount, Nat.add_comm]
          exact Nat.add_le_add_right hroom 1
        · rw [htakes, hcount, hleft, Nat.add_comm 1, Nat.add_sub_add_right]
      · obtain ⟨e, img', he, hrun, -⟩ :=
          appendDirectory_noRoom htree'.owned hmem fuel hfits hall.1.1 (Nat.lt_of_not_le hroom)
        refine .stopped (onImage_of_error hrun) (.noRoom he ?_)
        rw [htakes, hcount, Nat.add_comm]
        exact Nat.add_lt_add_left (Nat.lt_of_not_le hroom) 1

theorem fsopReadDir_verdict (args : FsOpReadDirArgs) (hs : s.Ready) (htree : TreeOn g s.image live n)
    (hplain : PlainFlags g s.image n) (hroot : fds.rootInode = g.root) (h0 : 0 ∈ args.path.chars) :
    Verdict g fds s.image (n.relabel fun _ => ()) (.readDir args.path.chars) (fsopReadDir fds args s) := by
  refine .locateArg htree hplain hroot rfl h0 (fun _ => rfl) fun m hat => ?_
  have hrefines : Refines g s.image (n.relabel fun _ => ()) := ⟨live, n, htree, hplain, rfl⟩
  obtain ⟨hall, -, hlive⟩ := htree.located hat.located
  have hmem := hlive _ (label_mem_heads m)
  have hrefusal := hat.refusal
  have hspends : Spends g s.image s.image
      (FileTree.takes g (n.relabel fun _ => ()) (.readDir args.path.chars)) := by
    rw [hat.takes]
    exact .refl g s.image
  cases m with
  | file item bytes =>
    exact .stopped (onImage_of_error (readDirectory_atFile htree hat.located))
      (.refused (.of_refusal hrefusal) hrefines hspends)
  | dir item sub =>
    have hread := readDirectory_atDir htree hat.located
    have hfit := labels_fit hall.2
    have hbytes : encodeItems sub.labels = content g s.image item.inode := (stored_dir.mp hall.1).2.symm
    have hlt : (encodeItems sub.labels).length < 2 ^ 63 := by
      have hbound := htree.owned.size_bound hmem
      have hsize := g.size_lt
      rw [hbytes, content_length]
      simp only [Node.label] at hbound
      omega
    obtain ⟨b, s', hblock, hb, hready, himage⟩ := heapBlock_granted (s := s) hlt hs
    exact .after (onImage_of_ok hread) (.after hblock
      (.reply hready (sends_directory hb hfit (hb ▸ hlt)) hrefusal (himage ▸ hspends)))

theorem fsopStat_verdict (args : FsOpStatArgs) (hs : s.Ready) (htree : TreeOn g s.image live n)
    (hplain : PlainFlags g s.image n) (hroot : fds.rootInode = g.root) (h0 : 0 ∈ args.path.chars) :
    Verdict g fds s.image (n.relabel fun _ => ()) (.stat args.path.chars) (fsopStat fds args s) := by
  refine .locateArg htree hplain hroot rfl h0 (fun _ => rfl) fun m hat => ?_
  have hrefines : Refines g s.image (n.relabel fun _ => ()) := ⟨live, n, htree, hplain, rfl⟩
  obtain ⟨hall, -, hlive⟩ := htree.located hat.located
  have hmem := hlive _ (label_mem_heads m)
  have hsize : getFileSize m.label.inode s.image = .ok (sizeOfNode g s.image m.label.inode) s.image := by
    rw [getFileSize, bind_of_ok (htree.owned.inode_run hmem), htree.owned.size_run hmem]
  have hcount := oldBlocks_run htree.owned hmem
  have hspends : Spends g s.image s.image
      (FileTree.takes g (n.relabel fun _ => ()) (.stat args.path.chars)) := by
    rw [hat.takes]
    exact .refl g s.image
  rw [bind_of_ok (onImage_of_ok hsize), bind_of_ok (onImage_of_ok hcount)]
  rcases traceFileBlocks_cases htree.owned hmem with ⟨-, htrace⟩ | ⟨hlink, htrace⟩
  · have hlen := traceFileBlocks_ok hsize hcount htrace
    have hblocks := blocksOf_length_lt htree.owned hmem
    rw [blocksOf_length] at hblocks
    have hlt : ∀ count < g.blocksCount, 8 * count < 2 ^ 63 := fun count hcount => by
      have hheader := g.header_lt
      have hsize := g.size_lt
      have hmul := Nat.mul_le_mul_left g.blocksCount (show 8 ≤ g.blockSize by
        simp only [sizeofINodeMain] at hheader
        omega)
      omega
    obtain ⟨b, s', hblock, hb, hready, himage⟩ := heapBlock_granted (s := s)
      (by rw [length_flatMap_leBytes, hlen]; exact hlt _ hblocks) hs
    have hbytes : b.bytes.length = 8 * g.blocksRequired (sizeOfNode g s.image m.label.inode) := by
      rw [hb, length_flatMap_leBytes, hlen]
    exact .after (onImage_of_ok htrace) (.after hblock (.reply hready
      (sends_response hbytes (hbytes ▸ hlt _ hblocks)) hat.refusal (himage ▸ hspends)))
  · obtain ⟨p, q, hp, hq, hpath⟩ := hat.leads
    exact .stopped (onImage_of_error htrace) (.refused
      ⟨.staleLink hat.refusal, fun _ => ⟨p, q, _, hp, hq, hpath, hlink⟩⟩ hrefines hspends)

end Verdicts

/-! ## Operations -/

/-- What becomes of the request `r` on a volume of the tree `t`, and what is sent. -/
inductive Settled (g : Geometry) (fds : FsDescriptors) (t : FileTree) (r : Request) (s : Server) :
    EStateM.Result Stop Server Unit → Prop
  | done {s' : Server} {y : Received} {w : List UInt8} {t' : FileTree} (reply : Reply r.type y w)
      (sent : s'.output.accepted = s.output.accepted ++ w) (ready : s'.Ready)
      (source : s'.input.source = s.input.source) (accepted : t.refusal r = none)
      (allows : t.Allows g r y t') (refines : Refines g s'.image t')
      (spends : Spends g s.image s'.image (t.takes g r)) : Settled g fds t r s (.ok () s')
  | refused {s' : Server} {e : FsError} {w : List UInt8} (refusal : Refusal (reported e) w)
      (sent : s'.output.accepted = s.output.accepted ++ w) (spoken : e ≠ .memory)
      (declines : Declines g fds s.image t r e) (kept : Refines g s'.image t)
      (spends : Spends g s.image s'.image (t.takes g r)) : Settled g fds t r s (.error (.die e) s')
  /-- An allocation failed: the thread ends, and the client is sent nothing. -/
  | silent {s' : Server} (sent : s'.output.accepted = s.output.accepted)
      (refusal : t.refusal r = some .memory) (kept : Refines g s'.image t)
      (spends : Spends g s.image s'.image (t.takes g r)) :
      Settled g fds t r s (.error (.die .memory) s')
  | noRoom {s' : Server} {e : FsError} {w : List UInt8} (refusal : Refusal (reported e) w)
      (sent : s'.output.accepted = s.output.accepted ++ w) (full : e.NoRoom)
      (short : freeCount g s.image < t.takes g r) : Settled g fds t r s (.error (.die e) s')
  | overruns {s' : Server} (h : t.Overruns r) : Settled g fds t r s (.error .fault s')

section Operations

variable {fds : FsDescriptors} {img img' : Image} {r : Request} {x : Received} {g : Geometry}
  {t : FileTree} {op : NetFsOperation} {s : Server}

theorem Served.allowed (h : Served fds img r x img') (hr : r.Plain) (ht : Refines g img t)
    (hroot : fds.rootInode = g.root) : ∃ t', t.Allows g r x t' ∧ Refines g img' t' := by
  have htold : r.AboutTree fds img → ∃ t', t.Allows g r x t' ∧ Refines g img' t' := by
    intro habout
    obtain ⟨t', a, hnext, hanswer, hagrees, ht'⟩ := h.refines habout ht hroot
    exact ⟨t', .told hnext hanswer hagrees, ht'⟩
  cases r with
  | create path flags => exact htold ⟨hr.path, hr.kind⟩
  | write path o data => exact htold ⟨hr.path, hr.kind⟩
  | remove path => exact hr.kind.elim
  | readDir path => exact htold ⟨hr.path, trivial⟩
  | read path o len =>
    obtain ⟨fuel, type, args, s, s', hargs, hopen, rfl, rfl, -, hrun, hsame⟩ := h.run
    cases type with
    | read =>
      let args : FsOpReadArgs := args
      obtain ⟨rfl, rfl, rfl⟩ := Request.read.inj hargs
      obtain ⟨q, cs, n, d, hq, hpath, hread, hlen, hanswered, himage⟩ :=
        @fsopRead_ok _ _ _ args hopen hrun
      have hcs := hq.components (r := .read args.path.chars args.offset args.length) rfl hr.path
      obtain rfl := hsame _ hanswered
      obtain ⟨live, n', htree, hplain, rfl⟩ := ht
      obtain ⟨m, hm, hn, -⟩ := locatePath_ok htree hroot hq.splitsTo hq.zero_notMem hpath
      have hlocated := Refines.locate_map rfl hm
      have ht : Refines g s'.image (n'.relabel fun _ => ()) :=
        ⟨live, n', himage ▸ htree, himage ▸ hplain, rfl⟩
      cases m with
      | file item bytes =>
        have hd := readFile_located htree hroot hq.splitsTo hq.zero_notMem hlen hm hpath hread
        rw [← hcs] at hlocated
        exact ⟨_, .told rfl (FileTree.answer_read hlocated) (hd ▸ .data d), ht⟩
      | dir item sub =>
        have hsize := extent_eq htree hm
        rw [hn, readFile_node htree hm hlen] at hread
        split at hread
        · cases hread
        · obtain ⟨rfl, -⟩ := EStateM.Result.ok.inj hread
          rw [← hcs] at hlocated
          refine ⟨_, .entries hlocated ?_, ht⟩
          rw [List.length_take, List.length_drop, content_length, hsize]
          rfl
    | _ => cases hargs
  | stat path =>
    obtain ⟨fuel, type, args, s, s', hargs, hopen, rfl, rfl, -, hrun, hsame⟩ := h.run
    cases type with
    | stat =>
      let args : FsOpStatArgs := args
      obtain rfl := Request.stat.inj hargs
      obtain ⟨q, cs, n, size, count, blocks, hq, hpath, hsize, hcount, hlen, hanswered, himage⟩ :=
        @fsopStat_ok _ _ _ args hopen hrun
      have hcs := hq.components (r := .stat (FsOpPathArgs.path args).chars) rfl hr.path
      obtain rfl := hsame _ hanswered
      obtain ⟨live, n', htree, hplain, rfl⟩ := ht
      obtain ⟨m, hm, rfl, -⟩ := locatePath_ok htree hroot hq.splitsTo hq.zero_notMem hpath
      have hmem := (htree.located hm).2.2 _ (label_mem_heads m)
      rw [getFileSize, bind_of_ok (htree.owned.inode_run hmem), htree.owned.size_run hmem] at hsize
      have hsize_eq := (EStateM.Result.ok.inj hsize).1.symm
      rw [hsize_eq, oldBlocks_run htree.owned hmem] at hcount
      have hcount_eq := (EStateM.Result.ok.inj hcount).1.symm
      have hlocated := Refines.locate_map rfl hm
      rw [← hcs] at hlocated
      exact ⟨_, .stat hlocated (hsize_eq.trans (extent_eq htree hm)) (hsize_eq ▸ hcount_eq) hlen,
        ⟨live, n', himage ▸ htree, himage ▸ hplain, rfl⟩⟩
    | _ => cases hargs

/-- The handler is the one of the type, and its buffers hold what the request says. -/
theorem processOperation_verdict (fuel : ℕ) (hc : op.Carries r) (hr : r.Plain) (hs : s.Ready)
    (ht : Refines g s.image t) (hroot : fds.rootInode = g.root) :
    Verdict g fds s.image t r (processOperation fuel fds op s) := by
  have hlt := hc.path_lt
  obtain ⟨live, n, htree, hplain, rfl⟩ := ht
  cases hc with
  | op type args full =>
    cases type with
    | read => exact fsopRead_verdict args hs htree hplain hroot hr.path
    | write =>
      have hfilled := (full _ (List.mem_cons_of_mem _ List.mem_cons_self)).filled
      exact fsopWrite_verdict args hs htree hplain hroot hr.path
        ((Nat.one_mul _).symm.trans_le hfilled) hr.kind
    | create => exact fsopCreate_verdict args hs htree hplain hroot hr.path hlt
    | remove => exact hr.kind.elim
    | stat => exact fsopStat_verdict args hs htree hplain hroot hr.path
    | readDir => exact fsopReadDir_verdict args hs htree hplain hroot hr.path

/-- One status is sent for a request that was carried in full, unless an allocation failed. -/
theorem dispatch_carried (fuel : ℕ) (fds : FsDescriptors) (hc : op.Carries r)
    (hroom : s.output.room = none) (hgrants : s.input.heap.Grants (2 ^ 63 - 1)) :
    (∀ s', dispatch fuel fds op s = .ok () s' → ∃ x w, Reply r.type x w ∧ s'.Ready ∧
      s'.output.accepted = s.output.accepted ++ w ∧ s'.input.source = s.input.source) ∧
    ∀ e s', dispatch fuel fds op s = .error (.die e) s' →
      (e ≠ .memory → ∃ w, Refusal (reported e) w ∧ s'.output.accepted = s.output.accepted ++ w) ∧
      (e = .memory → s'.output.accepted = s.output.accepted) := by
  cases hc with
  | op type args full =>
    rw [FsOpType.request_type]
    exact dispatch_framed fuel fds type args hroom hgrants

/-- A stale link is never reported as a failed allocation. -/
theorem Declines.memory {e : FsError} (h : Declines g fds img t r e) (he : e = .memory) :
    t.refusal r = some .memory := by
  cases h.refuses with
  | refusal h => exact he ▸ h
  | staleLink h => cases he

/-- An error of the handler ends the thread, and nothing else. -/
theorem dispatch_dies {fuel : ℕ} {e : FsError} {s₁ : Server} (hc : op.Carries r)
    (hready : Server.Ready { s with errorIntercepted := false })
    (h : processOperation fuel fds op { s with errorIntercepted := false } = .error (.die e) s₁) :
    ∃ s', dispatch fuel fds op s = .error (.die e) s' := by
  cases hc with
  | op type args full =>
    have hsilent := (processOperation_framed fuel fds type args hready).stop _ _ h
    refine ⟨finalState (fsopError e s₁), ?_⟩
    rw [dispatch, bind_of_ok (modify_run _ s), intercepted_of_die h]
    exact exited_ready e (hready.silent hsilent)

/-- Every plain request comes to an end, with an answer that the tree gives or the
error that it is refused for, unless there are fewer blocks than it takes. -/
theorem dispatch_settled (fuel : ℕ) (hc : op.Carries r) (hr : r.Plain) (hroom : s.output.room = none)
    (hgrants : s.input.heap.Grants (2 ^ 63 - 1)) (ht : Refines g s.image t)
    (hroot : fds.rootInode = g.root) : Settled g fds t r s (dispatch fuel fds op s) := by
  have hready : Server.Ready { s with errorIntercepted := false } := ⟨hroom, rfl, hgrants⟩
  have hverdict : Verdict g fds s.image t r
      (processOperation fuel fds op { s with errorIntercepted := false }) :=
    processOperation_verdict fuel hc hr hready ht hroot
  have hrun : dispatch fuel fds op s =
      intercepted (processOperation fuel fds op) { s with errorIntercepted := false } := by
    rw [dispatch, bind_of_ok (modify_run _ s)]
  have himage := dispatch_image fuel fds op s
  have hframed := dispatch_carried fuel fds hc hroom hgrants
  cases hres : processOperation fuel fds op { s with errorIntercepted := false } with
  | ok u s' =>
    rw [intercepted_of_ok hres] at hrun
    rw [hres] at hverdict
    cases hverdict with
    | done accepted spends =>
      obtain ⟨x, w, hreply, hready, hsent, hsource⟩ := hframed.1 s' hrun
      obtain ⟨t', hallows, hrefines⟩ := (Served.intro hc hroom hrun hreply hsent).allowed hr ht hroot
      rw [hrun]
      exact .done hreply hsent hready hsource accepted hallows hrefines spends
  | error stop s' =>
    cases stop with
    | die e =>
      obtain ⟨s₁, hdied⟩ := dispatch_dies hc hready hres
      rw [hdied, hres, finalState_error, finalState_error] at himage
      rw [hres] at hverdict
      rw [hdied]
      obtain ⟨hspoken, hmute⟩ := hframed.2 e s₁ hdied
      cases hverdict with
      | refused declines kept spends =>
        rw [← himage] at kept spends
        by_cases hmem : e = .memory
        · subst hmem
          exact .silent (hmute rfl) (declines.memory rfl) kept spends
        · obtain ⟨w, hrefusal, hsent⟩ := hspoken hmem
          exact .refused hrefusal hsent hmem declines kept spends
      | noRoom full short =>
        obtain ⟨w, hrefusal, hsent⟩ := hspoken (noRoom_ne_memory full)
        exact .noRoom hrefusal hsent full short
    | fault =>
      rw [intercepted, hres] at hrun
      rw [hres] at hverdict
      cases hverdict with
      | overruns h =>
        rw [hrun]
        exact .overruns h
    | diverged =>
      rw [hres] at hverdict
      cases hverdict

end Operations

/-! ## Conversations -/

/-- What a client gets for its requests on the tree `t` with so many free blocks, whether
the last answer is an error, and the tree behind it. Only a request that takes more blocks
than there are is told that there is no room; nothing is said about the tree behind it. -/
inductive FileTree.Dialogue (g : Geometry) :
    ℕ → FileTree → List Request → List Received → Bool → Option FileTree → Prop
  | nil {free : ℕ} (t : FileTree) : Dialogue g free t [] [] false (some t)
  | done {free : ℕ} {t t₁ : FileTree} {r : Request} {y : Received} {rs : List Request}
      {ys : List Received} {failed : Bool} {t' : Option FileTree} (accepted : t.refusal r = none)
      (allows : t.Allows g r y t₁) (enough : t.takes g r ≤ free)
      (rest : Dialogue g (free - t.takes g r) t₁ rs ys failed t') :
      Dialogue g free t (r :: rs) (y :: ys) failed t'
  | refused {free : ℕ} {t : FileTree} {r : Request} {rs : List Request} {e : FsError}
      (refuses : t.Refuses r e) (enough : t.takes g r ≤ free) :
      Dialogue g free t (r :: rs) [.refused (reported e ++ [0])] true (some t)
  | noRoom {free : ℕ} {t : FileTree} {r : Request} {rs : List Request} {y : Received}
      (full : y.NoRoom) (short : free < t.takes g r) : Dialogue g free t (r :: rs) [y] true none

/-- A request that is not refused and for which there is room is answered. -/
theorem FileTree.Dialogue.accepted {g : Geometry} {free : ℕ} {t : FileTree} {r : Request}
    {rs : List Request} {ys : List Received} {failed : Bool} {t' : Option FileTree}
    (h : FileTree.Dialogue g free t (r :: rs) ys failed t') (hr : t.refusal r = none)
    (hroom : t.takes g r ≤ free) (hstat : ∀ path, r ≠ .stat path) :
    ∃ y t₁ ys₁, ys = y :: ys₁ ∧ t.Allows g r y t₁ ∧
      FileTree.Dialogue g (free - t.takes g r) t₁ rs ys₁ failed t' := by
  cases h with
  | done _ allows _ rest => exact ⟨_, _, _, rfl, allows, rest⟩
  | refused refuses _ =>
    cases refuses with
    | refusal h => cases hr.symm.trans h
    | staleLink _ => exact absurd rfl (hstat _)
  | noRoom _ short => exact absurd hroom (Nat.not_le_of_lt short)

theorem objection_ne_memory (k : FileTree) {r : Request}
    (h : ∀ path offset length, r = .read path offset length → length < 2 ^ 63) :
    FileTree.objection k r ≠ some .memory := by
  cases r with
  | read path offset length =>
    rw [FileTree.objection, if_neg (Nat.not_le_of_lt (h _ _ _ rfl))]
    split <;> simp
  | write path offset data =>
    cases k with
    | file l bytes =>
      simp only [FileTree.objection]
      split <;> simp
    | dir l sub => simp [FileTree.objection]
  | create path flags =>
    simp only [FileTree.objection]
    split
    · simp
    · cases k with
      | file l bytes => simp
      | dir l sub =>
        simp only
        split <;> simp
  | remove path => simp [FileTree.objection]
  | stat path => simp [FileTree.objection]
  | readDir path => cases k <;> simp [FileTree.objection]

/-- Only a Read is refused for want of memory. -/
theorem refusal_ne_memory {t : FileTree} {r : Request}
    (h : ∀ path offset length, r = .read path offset length → length < 2 ^ 63) :
    t.refusal r ≠ some .memory := by
  rw [FileTree.refusal]
  split
  · next e he => simp [names_error he]
  · split
    · next miss _ => cases miss <;> simp [missError]
    · next k _ => exact objection_ne_memory k h

theorem slzNetFsOperationRead_end {input : Input} (old : List UInt8)
    (h : input.source.pending = []) :
    ∃ op input', slzNetFsOperationRead old input = .ok (false, op) input' ∧
      input'.heap = input.heap := by
  obtain ⟨input', hread, hgave⟩ := safeRead_run 4 input
  rw [h] at hread
  exact ⟨_, input', by rw [slzNetFsOperationRead, bind_of_ok hread]; rfl, hgave.heap⟩

section Serve

variable {fds : FsDescriptors} {g : Geometry} {t : FileTree} {op : NetFsOperation} {s : Server}

end Serve

end KisLinux.Net
