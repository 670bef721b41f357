import KisLinux.NetRefinement

/-!
# Parent and name of a path

`fsop_Create` and `fsop_Remove` count the components of a path down by one, look
up what is left, and take the next component as the name. Here the same calls
log every index into `path.parts` that they use, also those of `locate_path`.
-/
namespace KisLinux.Net
open ByteMemory StateRun NameTree Fs

/-- `locate_path` with the index of every component that it hands on. -/
def locateLoopLogged (path : Path) : ℕ → ℕ → ℕ → EStateM Stop (Image × List ℕ) ℕ
  | 0, _, nextInode => pure nextInode
  | n + 1, i, nextInode => do
    let root ← unlogged (readDirectory nextInode)
    logEntry i
    let itemIndex ← unlogged (findComponent root path i)
    let item ← unlogged (Fs.liftExcept (root.items[itemIndex]?.elim (.error .fault) .ok))
    locateLoopLogged path n (i + 1) item.inode

/-- The calls that Create and Remove make for their path, and what they get. -/
def resolveParentLogged (fds : FsDescriptors) (path : Path) :
    EStateM Stop (Image × List ℕ) (ℕ × List UInt8) := do
  let dirInode ← locateLoopLogged (parentPath path) (parentPath path).count 0 fds.rootInode
  logEntry (parentPath path).count
  let name ← unlogged (Fs.liftExcept (path.part (parentPath path).count))
  pure (dirInode, name)

def resolveParent (fds : FsDescriptors) (path : Path) : FsM (ℕ × List UInt8) := do
  let dirInode ← locatePath fds (parentPath path)
  let name ← Fs.liftExcept (path.part (parentPath path).count)
  pure (dirInode, name)

/-- The indices into `path.parts` that are used. -/
def partsUsed (fds : FsDescriptors) (path : Path) (img : Image) : List ℕ :=
  logOf (resolveParentLogged fds path (img, []))

/-- The rest of `fsop_Create`, which no longer looks at the path. -/
def createIn (fuel : ℕ) (flags : UInt8) (dirInode : ℕ) (name : List UInt8) : SrvM Unit :=
  if fileNameLength ≤ name.length then throw (.die .tooLongName)
  else do
    let fileInode ← onImage (initNewFile flags)
    onImage (appendDirectory fuel dirInode ⟨fileInode, itemName name⟩)
    writeEmptyError

/-- The rest of `fsop_Remove`. -/
def removeFrom (fuel : ℕ) (dirInode : ℕ) (name : List UInt8) : SrvM Unit := do
  let fileInode ← onImage (removeFromDirectory fuel dirInode name)
  onImage (purgeFile fuel fileInode)
  writeEmptyError

theorem onImage_pair {α β γ : Type} (x : FsM α) (y : FsM β) (k : α → β → SrvM γ) (s : Server) :
    (onImage (do
      let a ← x
      let b ← y
      pure (a, b)) >>= fun r => k r.1 r.2) s =
      (onImage x >>= fun a => onImage y >>= fun b => k a b) s := by
  cases hx : x s.image with
  | error e img =>
    rw [bind_of_error (onImage_of_error hx), bind_of_error (onImage_of_error (bind_of_error hx))]
  | ok a img =>
    rw [bind_of_ok (onImage_of_ok hx)]
    cases hy : y img with
    | error e img' =>
      have hpair : (do
          let a ← x
          let b ← y
          pure (a, b) : FsM (α × β)) s.image = .error e img' := by
        rw [bind_of_ok hx, bind_of_error hy]
      rw [bind_of_error (onImage_of_error hpair),
        bind_of_error (onImage_of_error (s := { s with image := img }) hy)]
    | ok b img' =>
      have hpair : (do
          let a ← x
          let b ← y
          pure (a, b) : FsM (α × β)) s.image = .ok (a, b) img' := by
        rw [bind_of_ok hx, bind_of_ok hy, pure_run]
      rw [bind_of_ok (onImage_of_ok hpair),
        bind_of_ok (onImage_of_ok (s := { s with image := img }) hy)]

/-- The handlers are the calls for the path, and the rest on what they gave. -/
theorem fsopCreate_eq (fuel : ℕ) (fds : FsDescriptors) (args : FsOpCreateArgs) {s : Server} {q : Path}
    (hq : splitArg args.path s = .ok q s) : fsopCreate fuel fds args s =
      (onImage (resolveParent fds q) >>= fun r => createIn fuel args.flags r.1 r.2) s := by
  rw [fsopCreate, bind_of_ok hq]
  exact (onImage_pair _ _ _ s).symm

theorem fsopRemove_eq (fuel : ℕ) (fds : FsDescriptors) (args : FsOpRemoveArgs) {s : Server} {q : Path}
    (hq : splitArg args.path s = .ok q s) : fsopRemove fuel fds args s =
      (onImage (resolveParent fds q) >>= fun r => removeFrom fuel r.1 r.2) s := by
  rw [fsopRemove, bind_of_ok hq]
  exact (onImage_pair _ _ _ s).symm

/-! ## The logged indices -/

theorem locateLoopLogged_logs (path : Path) (n i nextInode : ℕ) :
    Logs (fun k => i ≤ k ∧ k < i + n) (locateLoopLogged path n i nextInode)
      (locateLoop path n i nextInode) := by
  induction n generalizing i nextInode with
  | zero => exact Logs.pure nextInode
  | succ n ih =>
    refine (Logs.unlogged _).bind fun root => Logs.entry ⟨Nat.le_refl i, by omega⟩ ?_
    refine (Logs.unlogged _).bind fun itemIndex => (Logs.unlogged _).bind fun item => ?_
    exact (ih (i + 1) item.inode).mono fun k hk => ⟨by omega, by omega⟩

/-- Every index used is at most the count that `locate_path` gets. -/
theorem resolveParentLogged_logs (fds : FsDescriptors) (path : Path) :
    Logs (· ≤ (parentPath path).count) (resolveParentLogged fds path) (resolveParent fds path) := by
  refine ((locateLoopLogged_logs _ _ _ _).mono fun k hk => ?_).bind fun dirInode =>
    Logs.entry (Nat.le_refl _) ((Logs.unlogged _).bind fun name => Logs.pure _)
  omega

section Law

variable {g : Geometry} {live : Finset ℕ} {root : DirectoryItem} {sub : TreeEntries}
  {fds : FsDescriptors} {s : Server} {path : NetString} {q : Path} {cs : List (List UInt8)}

/-- With a component to take off, no index reaches the count. -/
theorem partsUsed_lt {w : List UInt8} (hs : SplitsTo q (cs ++ [w])) (hlt : cs.length < wordSize)
    (img : Image) : ∀ i ∈ partsUsed fds q img, i < q.count := by
  obtain ⟨new, hnew, hused⟩ := (resolveParentLogged_logs fds q).logOf_eq img []
  rw [partsUsed, hused, List.nil_append, hs.count_eq, List.length_append, List.length_singleton]
  intro i hi
  have hle := hnew i hi
  rw [parentPath_concat hs hlt] at hle
  omega

theorem locateLoopLogged_uses {p : Path} {n i nextInode : ℕ} {img : Image} {log : List ℕ}
    {content : Fs.DirectoryContent} (hread : readDirectory nextInode img = .ok content img) :
    i ∈ logOf (locateLoopLogged p (n + 1) i nextInode (img, log)) := by
  rw [locateLoopLogged, bind_of_ok (unlogged_of_ok hread log)]
  refine Logs.mem_bind (fun _ => (Logs.unlogged _).bind fun itemIndex =>
    (Logs.unlogged _).bind fun item : DirectoryItem => locateLoopLogged_logs p n (i + 1) item.inode) ?_
  exact List.mem_append_right log (List.mem_singleton_self i)

/-- Without one, the first index is used all the same. -/
theorem zero_mem_partsUsed {content : Fs.DirectoryContent} {img : Image} (hs : SplitsTo q [])
    (hread : readDirectory fds.rootInode img = .ok content img) : 0 ∈ partsUsed fds q img := by
  have hpos : (parentPath q).count ≠ 0 := by
    rw [parentPath_nil hs, wordSize]
    omega
  obtain ⟨k, hk⟩ := Nat.exists_eq_succ_of_ne_zero hpos
  rw [partsUsed, resolveParentLogged, hk]
  exact Logs.mem_bind (U := fun _ => True) (fun dirInode => Logs.entry trivial
    ((Logs.unlogged _).bind fun name => Logs.pure _)) (locateLoopLogged_uses hread)

/-- What a handler is to do with the path `path`, whose components are `cs`; `r` is
the result of the handler. -/
structure ParentLaw (fds : FsDescriptors) (n : TreeNode) (path : NetString) (q : Path)
    (cs : List (List UInt8)) (s : Server) (r : EStateM.Result Stop Server Unit) : Prop where
  used : ∀ i ∈ partsUsed fds q s.image, i < q.count
  resolved : (∃ item sub w, n.locate cs.dropLast = some (.dir item sub) ∧ cs.getLast? = some w ∧
      LeadsToParent fds s.image path item.inode w) ∨
    ∃ e s', r = .error (.die e) s' ∧ s'.image = s.image

theorem PathArg.splitArg_eq (hq : PathArg path q cs) (s : Server) : splitArg path s = .ok q s := by
  obtain ⟨p, hp, hsplit, -⟩ := hq
  rw [splitArg, hp]
  exact onImage_of_ok (by rw [hsplit]; rfl)

/-- A string in memory has less components above its name than the address space has bytes. -/
theorem PathArg.above_lt {w : List UInt8} (hq : PathArg path q (cs ++ [w]))
    (hlt : path.string.bytes.length ≤ wordSize) : cs.length < wordSize := by
  obtain ⟨p, hp, -, hspells, -⟩ := hq
  have hle := hspells.length_le
  have hp' := cString_length_lt hp
  rw [List.length_append, List.length_singleton] at hle
  omega

/-- Looking for the parent gives the node at the path above, or is refused. -/
theorem resolveParent_run {n : TreeNode} {w : List UInt8} (htree : TreeOn g s.image live n)
    (hroot : fds.rootInode = g.root) (hs : SplitsTo q (cs ++ [w])) (hlt : cs.length < wordSize)
    (h0 : ∀ x ∈ cs, 0 ∉ x) :
    (∀ m, n.locate cs = some m →
      locatePath fds (parentPath q) s.image = .ok m.label.inode s.image ∧
      resolveParent fds q s.image = .ok (m.label.inode, w) s.image) ∧
    (n.locate cs = none → ∃ e, resolveParent fds q s.image = .error (.die e) s.image) := by
  have hparts : ∀ j (hj : j < cs.length), (parentPath q).part (0 + j) = .ok cs[j] := by
    intro j hj
    rw [Nat.zero_add, parentPath_part, hs.part_eq j (by rw [List.length_append]; omega),
      List.getElem_append_left hj]
  obtain ⟨hsome, hnone⟩ := locateLoop_run htree.owned htree.all htree.live hparts h0
  have hpath : locatePath fds (parentPath q) = locateLoop (parentPath q) cs.length 0 n.label.inode := by
    rw [locatePath, parentPath_concat hs hlt, hroot, htree.root]
  have hname := parentPath_name hs hlt
  constructor
  · intro m hm
    have hrun : locatePath fds (parentPath q) s.image = .ok m.label.inode s.image := by
      rw [hpath, hsome m hm]
    refine ⟨hrun, ?_⟩
    rw [resolveParent, bind_of_ok hrun, hname]
    rfl
  · intro hm
    obtain ⟨e, he⟩ := hnone hm
    rw [← hpath] at he
    exact ⟨e, by rw [resolveParent, bind_of_error he]⟩

/-- The law for a handler that goes on with `k`: where the path above leads to a
file, `k` has to refuse it. -/
theorem parentLaw_iff {n : TreeNode} {w : List UInt8} {k : ℕ × List UInt8 → SrvM Unit}
    (htree : TreeOn g s.image live n) (hroot : fds.rootInode = g.root)
    (hq : PathArg path q (cs ++ [w])) (hlt : cs.length < wordSize) :
    ParentLaw fds n path q (cs ++ [w]) s ((onImage (resolveParent fds q) >>= k) s) ↔
      ∀ item bytes, n.locate cs = some (.file item bytes) →
        ∃ e s', k (item.inode, w) s = .error (.die e) s' ∧ s'.image = s.image := by
  have h0 := hq.zero_notMem
  obtain ⟨hsome, hnone⟩ := resolveParent_run htree hroot hq.splitsTo hlt
    fun x hx => h0 x (List.mem_append_left _ hx)
  have hdrop : (cs ++ [w]).dropLast = cs := List.dropLast_concat
  constructor
  · rintro ⟨-, hresolved⟩ item bytes hfile
    rw [hdrop, hfile] at hresolved
    rw [bind_of_ok (onImage_of_ok (hsome _ hfile).2)] at hresolved
    exact hresolved.resolve_left fun ⟨_, _, _, hdir, _⟩ => by cases hdir
  · intro h
    refine ⟨partsUsed_lt hq.splitsTo hlt s.image, ?_⟩
    rw [hdrop]
    cases hm : n.locate cs with
    | none =>
      obtain ⟨e, he⟩ := hnone hm
      exact Or.inr ⟨e, _, bind_of_error (onImage_of_error he), rfl⟩
    | some m =>
      obtain ⟨hpath, hrun⟩ := hsome m hm
      cases m with
      | dir item sub =>
        have hname := parentPath_name hq.splitsTo hlt
        obtain ⟨p, hp, hsplit, -⟩ := hq
        exact Or.inl ⟨item, sub, w, rfl, List.getLast?_concat, p, q, hp, hsplit, hpath, hname⟩
      | file item bytes =>
        rw [bind_of_ok (onImage_of_ok hrun)]
        exact Or.inr (h item bytes hm)

/-- Below `/` there is no parent, and the law fails for every handler. -/
theorem not_parentLaw_nil {r : EStateM.Result Stop Server Unit}
    (htree : TreeOn g s.image live (.dir root sub)) (hroot : fds.rootInode = g.root)
    (hq : PathArg path q []) : ¬ParentLaw fds (.dir root sub) path q [] s r := by
  intro h
  obtain ⟨-, -, hread⟩ := readDirectory_stored htree.owned htree.label_live htree.all.1 htree.all.2
  rw [htree.root, ← hroot] at hread
  have hzero := h.used 0 (zero_mem_partsUsed hq.splitsTo hread)
  rw [hq.splitsTo.count_eq] at hzero
  exact Nat.not_lt_zero _ hzero

/-- A file is refused as a parent without a trace when Create does not get as far
as taking a block. -/
theorem createIn_file {n : TreeNode} {item : DirectoryItem} {bytes w : List UInt8} (fuel : ℕ)
    (flags : UInt8) (htree : TreeOn g s.image live n) (hfile : n.locate cs = some (.file item bytes)) :
    (∃ e s', createIn fuel flags item.inode w s = .error (.die e) s' ∧ s'.image = s.image) ↔
      fileNameLength ≤ w.length ∨ freeBlocks g s.image = [] := by
  rw [createIn]
  split
  · next hlong => exact iff_of_true ⟨_, s, rfl, rfl⟩ (Or.inl hlong)
  next hshort =>
  rw [or_iff_right hshort]
  obtain ⟨hall, -, hlive⟩ := htree.located hfile
  have hmem : item.inode ∈ live := hlive _ (label_mem_heads _)
  cases hfree : freeBlocks g s.image with
  | nil =>
    obtain ⟨e, he⟩ := initNewFile_full htree.owned flags hfree
    exact iff_of_true ⟨e, _, bind_of_error (onImage_of_error he), rfl⟩ rfl
  | cons b rest =>
    obtain ⟨img, hrun, hc⟩ := initNewFile_run htree.owned flags hfree
    have hflags : flagsOf g img item.inode &&& flgDirectory = 0 := by
      rw [(hc.kept htree.owned hmem).self.flags_eq]
      exact hall.1
    have hrefused := appendDirectory_not (hc.owned htree.owned) (Finset.mem_insert_of_mem hmem) fuel
      ⟨b, itemName w⟩ hflags
    rw [bind_of_ok (onImage_of_ok hrun)]
    rw [bind_of_error (onImage_of_error (s := { s with image := img }) hrefused)]
    refine iff_of_false ?_ (List.cons_ne_nil b rest)
    rintro ⟨e, s', herror, himage⟩
    obtain ⟨-, rfl⟩ := EStateM.Result.error.inj herror
    have hmarked := (hc.marks b hc.range.2).mpr (Or.inl rfl)
    rw [show img = s.image from himage, hc.free] at hmarked
    cases hmarked

theorem removeFrom_file {n : TreeNode} {item : DirectoryItem} {bytes : List UInt8} (fuel : ℕ)
    (w : List UInt8) (htree : TreeOn g s.image live n) (hfile : n.locate cs = some (.file item bytes)) :
    ∃ e s', removeFrom fuel item.inode w s = .error (.die e) s' ∧ s'.image = s.image := by
  obtain ⟨hall, -, hlive⟩ := htree.located hfile
  obtain ⟨e, he⟩ := readDirectory_not htree.owned (hlive _ (label_mem_heads _)) fun hd => hd.flags hall.1
  have hremove : removeFromDirectory fuel item.inode w s.image = .error (.die e) s.image := by
    rw [removeFromDirectory]
    exact bind_of_error he
  exact ⟨e, _, bind_of_error (onImage_of_error hremove), rfl⟩

end Law

/-- The law for Create and Remove, for every path that `split_path` accepts. -/
theorem fsop_parents {g : Geometry} {live : Finset ℕ} {root : DirectoryItem} {sub : TreeEntries}
    {fds : FsDescriptors} {s : Server} {path : NetString} {q : Path} {cs : List (List UInt8)}
    (htree : TreeOn g s.image live (.dir root sub)) (hroot : fds.rootInode = g.root)
    (hq : PathArg path q cs) (hlt : path.string.bytes.length ≤ wordSize) (fuel : ℕ) (flags : UInt8) :
    (ParentLaw fds (.dir root sub) path q cs s (fsopCreate fuel fds ⟨path, flags⟩ s) ↔
      cs ≠ [] ∧ ∀ item bytes w, Node.locate (.dir root sub) cs.dropLast = some (.file item bytes) →
        cs.getLast? = some w → fileNameLength ≤ w.length ∨ freeBlocks g s.image = []) ∧
    (ParentLaw fds (.dir root sub) path q cs s (fsopRemove fuel fds ⟨path⟩ s) ↔ cs ≠ []) := by
  obtain rfl | ⟨ds, w, rfl⟩ := cs.eq_nil_or_concat
  · have hnot : ∀ r, ¬ParentLaw fds (.dir root sub) path q [] s r := fun r =>
      not_parentLaw_nil htree hroot hq
    exact ⟨iff_of_false (hnot _) fun h => h.1 rfl, iff_of_false (hnot _) fun h => h rfl⟩
  rw [List.concat_eq_append] at hq ⊢
  have hds := hq.above_lt hlt
  have hsplit := hq.splitArg_eq s
  have hne : ds ++ [w] ≠ [] := List.append_ne_nil_of_right_ne_nil ds (List.cons_ne_nil w [])
  rw [fsopCreate_eq fuel fds ⟨path, flags⟩ hsplit, fsopRemove_eq fuel fds ⟨path⟩ hsplit,
    parentLaw_iff htree hroot hq hds, parentLaw_iff htree hroot hq hds]
  constructor
  · rw [List.dropLast_concat, List.getLast?_concat, and_iff_right hne]
    constructor
    · intro h item bytes w' hfile hlast
      obtain rfl := Option.some.inj hlast
      exact (createIn_file fuel flags htree hfile).mp (h item bytes hfile)
    · intro h item bytes hfile
      exact (createIn_file fuel flags htree hfile).mpr (h item bytes w hfile rfl)
  · exact iff_of_true (fun item bytes hfile => removeFrom_file fuel w htree hfile) hne

theorem exists_pathArg {p : List UInt8} {cs : List (List UInt8)} (path : NetString)
    (hp : cString path.string.bytes = some p) (hspells : Spells p cs) : ∃ q, PathArg path q cs := by
  obtain ⟨q, hq, hs⟩ := splitPath_of_spells hspells
  exact ⟨q, p, hp, hq, hspells, hs⟩

def createD : NetFsOperation :=
  .op .create (⟨⟨3, blockAt8 [47, 100, 0]⟩, flgDirectory⟩ : FsOpCreateArgs)

/-- A volume with the directory `/d`. -/
def dirImage : Image := imageAfter freshImage createD

theorem dirImage_treeOn : ∃ live root sub, TreeOn treeVolume dirImage live (.dir root sub) ∧
    ∃ item entries, Node.locate (.dir root sub) [[100]] = some (.dir item entries) := by
  have hcreate : createD.Carries (.create [47, 100, 0] flgDirectory) :=
    .op .create _ (List.forall_mem_singleton.mpr ⟨by decide, Nat.le_refl 3⟩)
  obtain ⟨x, hx⟩ := served_thread freshImage hcreate (by decide +kernel)
  obtain ⟨t, hexplains, live, n, htree, -, ht⟩ :=
    (Serves.cons ⟨by decide, Or.inr rfl⟩ hx (.nil _)).explained (refines_formatted freshImage_formatted) rfl
  cases hexplains with
  | cons next _ _ rest =>
    obtain rfl := Option.some.inj (next.symm.trans
      (show _ = some (.dir () (.dir [100] () .nil .nil)) by decide +kernel))
    cases rest
    have hlocate : (n.locate [[100]]).map (Node.relabel fun _ => ()) = some (.dir () .nil) := by
      rw [← Node.relabel_locate, ht]
      rfl
    obtain ⟨m, hm, hdir⟩ := Option.map_eq_some_iff.mp hlocate
    cases n with
    | file root bytes => cases ht
    | dir root sub =>
      cases m with
      | file item bytes => cases hdir
      | dir item entries => exact ⟨live, root, sub, htree, item, entries, hm⟩

def nestedPath : NetString := ⟨5, blockAt8 [47, 100, 47, 98, 0]⟩

/-- To create and to remove `/d/b` looks for it in `/d`. -/
theorem fsop_parents_nested : ∃ live root sub q,
    TreeOn treeVolume dirImage live (.dir root sub) ∧ PathArg nestedPath q [[100], [98]] ∧
    ParentLaw ⟨1⟩ (.dir root sub) nestedPath q [[100], [98]] (threadOn dirImage)
      (fsopCreate 4 ⟨1⟩ ⟨nestedPath, flgFile⟩ (threadOn dirImage)) ∧
    ParentLaw ⟨1⟩ (.dir root sub) nestedPath q [[100], [98]] (threadOn dirImage)
      (fsopRemove 4 ⟨1⟩ ⟨nestedPath⟩ (threadOn dirImage)) := by
  obtain ⟨live, root, sub, htree, item, entries, hdir⟩ := dirImage_treeOn
  obtain ⟨q, hq⟩ := exists_pathArg nestedPath rfl
    (show Spells [47, 100, 47, 98] [[100], [98]] from ⟨by simp [IsName, slash], Or.inl ⟨rfl, by simp⟩⟩)
  have hlt : nestedPath.string.bytes.length ≤ wordSize := by decide
  generalize dirImage = img at htree ⊢
  obtain ⟨hcreate, hremove⟩ := fsop_parents (s := threadOn img) htree rfl hq hlt 4 flgFile
  refine ⟨live, root, sub, q, htree, hq, hcreate.mpr ⟨by simp, fun item' bytes w hfile => ?_⟩,
    hremove.mpr (by simp)⟩
  cases hdir.symm.trans hfile

/-- The string `/`. -/
def rootPath : NetString := ⟨2, blockAt8 [47, 0]⟩

/-- The path `/` is accepted, and its first component is used although it has none. -/
theorem fsop_parents_root : ∃ q, PathArg rootPath q [] ∧ q.count = 0 ∧
    ¬ ∀ i ∈ partsUsed ⟨1⟩ q treeServer.image, i < q.count := by
  obtain ⟨q, hq⟩ := exists_pathArg rootPath rfl
    (show Spells [47] [] from ⟨by simp, Or.inr rfl⟩)
  obtain ⟨-, -, hread⟩ := readDirectory_stored treeImage_treeOn.owned treeImage_treeOn.label_live
    treeImage_treeOn.all.1 treeImage_treeOn.all.2
  refine ⟨q, hq, hq.splitsTo.count_eq, fun h => ?_⟩
  have hzero := h 0 (zero_mem_partsUsed hq.splitsTo hread)
  rw [hq.splitsTo.count_eq] at hzero
  exact Nat.not_lt_zero _ hzero

end KisLinux.Net
