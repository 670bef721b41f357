import KisLinux.NetRefinement

/-!
# Names in a directory

No call looks whether a name is already there: Create appends its item, and
lookup takes the first of a name. As long as every Create is for a path that
leads nowhere yet, and no Write goes into a directory, the names of a directory
are distinct, and whatever a listing shows is found by its own path.
-/
namespace KisLinux.Net
open ByteMemory StateRun NameTree Fs

/-- Creates of new paths and Writes to nodes that are no directories, each carried
out to its end, in any order. Buffers are as long as `malloc` makes them at most. -/
inductive Builds (fds : FsDescriptors) (img : Image) : Image → Prop
  | refl : Builds fds img img
  | create {fuel : ℕ} {args : FsOpCreateArgs} {s s' : Server} (before : Builds fds img s.image)
      (allocated : args.path.string.bytes.length < 2 ^ 63)
      (fresh : ∀ n, ¬LeadsTo fds s.image args.path n)
      (run : dispatch fuel fds (.op .create args) s = .ok () s') : Builds fds img s'.image
  | write {fuel : ℕ} {args : FsOpWriteArgs} {s s' : Server} (before : Builds fds img s.image)
      (allocated : args.data.bytes.length < 2 ^ 63)
      (file : ∀ n flags, LeadsTo fds s.image args.path n →
        (getInode n >>= getFlags) s.image = .ok flags s.image → flags &&& flgDirectory = 0)
      (run : dispatch fuel fds (.op .write args) s = .ok () s') : Builds fds img s'.image

/-- The node `n` is listed under the names `cs`: following the listings of
directories, from the root on and whatever lookup does, leads to it. -/
inductive Listed (fds : FsDescriptors) (img : Image) : List (List UInt8) → ℕ → Prop
  | root : Listed fds img [] fds.rootInode
  | entry {cs : List (List UInt8)} {n : ℕ} {content : Fs.DirectoryContent} {item : DirectoryItem}
      {w : List UInt8} (dir : Listed fds img cs n) (read : readDirectory n img = .ok content img)
      (mem : item ∈ content.items) (name : cString item.name = some w) :
      Listed fds img (cs ++ [w]) item.inode

/-- The names of a directory, as they should be. -/
def GoodNames (names : List (List UInt8)) : Prop := names.Nodup ∧ ∀ w ∈ names, IsName w

section Steps

variable {g : Geometry} {fds : FsDescriptors} {s s' : Server} {fuel : ℕ}

/-- A tree in which lookup is unambiguous. -/
def Unambiguous (g : Geometry) (img : Image) : Prop :=
  ∃ live n, TreeOn g img live n ∧ n.Every GoodNames

theorem locatePath_located {img : Image} {live : Finset ℕ} {n m : TreeNode} {q : Path}
    {cs : List (List UInt8)} (htree : TreeOn g img live n) (hroot : fds.rootInode = g.root)
    (hs : SplitsTo q cs) (h0 : ∀ w ∈ cs, 0 ∉ w) (hm : n.locate cs = some m) :
    locatePath fds q img = .ok m.label.inode img := by
  have hrun := (locateLoop_run (i := 0) htree.owned htree.all htree.live
    (fun j hj => by rw [Nat.zero_add]; exact hs.part_eq j hj) h0).1 m hm
  rw [locatePath, hs.count_eq, hroot, ← htree.root, hrun]

theorem unambiguous_create {args : FsOpCreateArgs} (h : Unambiguous g s.image)
    (hroot : fds.rootInode = g.root) (hlen : args.path.string.bytes.length < 2 ^ 63)
    (hfresh : ∀ n, ¬LeadsTo fds s.image args.path n) (hrun : fsopCreate fuel fds args s = .ok () s') :
    Unambiguous g s'.image := by
  obtain ⟨live, n, htree, hnames⟩ := h
  obtain ⟨q, cs, d, w, c, img, img', hq, hpath, hpart, hw, hinit, happend, hstatus⟩ :=
    fsopCreate_body hrun
  rw [writeEmptyError_image hstatus]
  obtain rfl | ⟨ds, last, rfl⟩ := cs.eq_nil_or_concat
  · exact absurd hpath (locateParent_nil hq.splitsTo)
  rw [List.concat_eq_append] at hq
  obtain ⟨p, hp, hsplit, hspells, hs⟩ := hq
  have hds : ds.length < wordSize := by
    have hle := hspells.length_le
    have hp' := cString_length_lt hp
    rw [List.length_append, List.length_singleton] at hle
    rw [wordSize]
    omega
  obtain rfl := Except.ok.inj ((parentPath_name hs hds).symm.trans hpart)
  have h0 : ∀ x ∈ ds ++ [last], 0 ∉ x := fun x hx => (hspells.names x hx).2.2
  obtain ⟨item, sub, hm, -, -, -, htree'⟩ :=
    create_located htree hroot hs hds h0 hw hpath hinit happend
  refine ⟨_, _, htree', Node.every_update hnames fun m hm' => ?_⟩
  obtain rfl := Option.some.inj (hm.symm.trans hm')
  have hsub := Node.every_locate hnames hm
  -- the path is new, so that the directory has no entry of its name
  have hnone : sub.find? last = none := by
    cases hfind : sub.find? last with
    | none => rfl
    | some k =>
      have hk : n.locate (ds ++ [last]) = some k := by
        rw [Node.locate_append, hm, Option.bind_some, Node.locate, hfind, Option.bind_some,
          Node.locate_nil]
      exact absurd ⟨p, q, hp, hsplit, locatePath_located htree hroot hs h0 hk⟩ (hfresh _)
  refine Node.every_addEntry hsub ⟨?_, ?_⟩ ?_
  · exact List.nodup_append.mpr ⟨hsub.1.1, List.nodup_singleton last, fun a ha b hb hab =>
      Entries.notMem_names hnone (by rw [← List.mem_singleton.mp hb, ← hab]; exact ha)⟩
  · intro x hx
    rcases List.mem_append.mp hx with hx | hx
    · exact hsub.1.2 x hx
    · exact hspells.names x (List.mem_append_right _ hx)
  · unfold emptyNode
    split
    · trivial
    · exact ⟨⟨List.nodup_nil, fun x hx => by cases hx⟩, trivial⟩

theorem unambiguous_write {args : FsOpWriteArgs} (h : Unambiguous g s.image)
    (hroot : fds.rootInode = g.root) (hlen : args.data.bytes.length < 2 ^ 63)
    (hfile : ∀ n flags, LeadsTo fds s.image args.path n →
      (getInode n >>= getFlags) s.image = .ok flags s.image → flags &&& flgDirectory = 0)
    (hrun : fsopWrite fuel fds args s = .ok () s') : Unambiguous g s'.image := by
  obtain ⟨live, n, htree, hnames⟩ := h
  obtain ⟨q, cs, k, img, hq, hpath, hwrite, hstatus⟩ := fsopWrite_body hrun
  rw [writeEmptyError_image hstatus]
  have h0 := hq.zero_notMem
  obtain ⟨m, hm, rfl, -⟩ := locatePath_ok htree hroot hq.splitsTo h0 hpath
  obtain ⟨hall, -, hlive⟩ := htree.located hm
  have hmem := hlive _ (label_mem_heads m)
  have hflags := hfile _ (flagsOf g s.image m.label.inode)
    (by obtain ⟨p, hp, hsplit, -⟩ := hq; exact ⟨p, q, hp, hsplit, hpath⟩)
    (by rw [bind_of_ok (htree.owned.inode_run hmem), htree.owned.flags_run hmem])
  cases m with
  | dir item sub => exact absurd hflags hall.1.1
  | file item bytes =>
    have hshort : (args.data.bytes.take args.length).length < 2 ^ 63 :=
      (List.length_take_le' _ _).trans_lt hlen
    rcases writeFile_located htree hroot hq.splitsTo h0 hshort hm hpath hwrite with
      ⟨-, rfl⟩ | ⟨-, hw⟩
    · exact ⟨live, n, htree, hnames⟩
    · exact ⟨live, _, htree.written hm hw, Node.every_update hnames fun m hm' =>
        Node.every_mapData (Node.every_locate hnames hm')⟩

theorem Builds.unambiguous {img img' : Image} (h : Builds fds img img') (hu : Unambiguous g img)
    (hroot : fds.rootInode = g.root) : Unambiguous g img' := by
  induction h with
  | refl => exact hu
  | @create fuel args s s' before allocated fresh run ih =>
    have hrun : fsopCreate fuel fds args { s with errorIntercepted := false } = .ok () s' :=
      dispatch_ok run
    have hclean : Unambiguous g ({ s with errorIntercepted := false } : Server).image := ih
    exact unambiguous_create hclean hroot allocated fresh hrun
  | @write fuel args s s' before allocated file run ih =>
    have hrun : fsopWrite fuel fds args { s with errorIntercepted := false } = .ok () s' :=
      dispatch_ok run
    have hclean : Unambiguous g ({ s with errorIntercepted := false } : Server).image := ih
    exact unambiguous_write hclean hroot allocated file hrun

/-- The string of a list of names. -/
theorem exists_spells_of_names {cs : List (List UInt8)} (h : ∀ w ∈ cs, IsName w) :
    ∃ p, Spells p cs := ⟨_, h, Or.inr rfl⟩

section Listing

variable {img : Image} {live : Finset ℕ} {n m : TreeNode} {cs : List (List UInt8)} {k : ℕ}

/-- The names that a listing shows are those of the tree. -/
theorem names_of_items {sub : TreeEntries} (h : sub.All Named (stored g img)) :
    sub.labels.map (fun item => cString item.name) = sub.names.map some := by
  induction sub using Entries.cons_induction with
  | nil => rfl
  | cons x n rest ih =>
    rw [Entries.all_cons] at h
    rw [Entries.labels_cons, Entries.names_cons, List.map_cons, List.map_cons, h.1.name, ih h.2.2]

/-- What can be read as a directory is one in the tree. -/
theorem read_located (htree : TreeOn g img live n) (hm : n.locate cs = some m)
    {content : Fs.DirectoryContent} (hread : readDirectory m.label.inode img = .ok content img) :
    ∃ item sub, m = .dir item sub ∧ content.items = sub.labels ∧ sub.All Named (stored g img) := by
  obtain ⟨hall, -, hlive⟩ := htree.located hm
  have hmem := hlive _ (label_mem_heads m)
  cases m with
  | file item bytes =>
    obtain ⟨e, he⟩ := readDirectory_not htree.owned hmem fun hd => hd.flags hall.1
    cases he.symm.trans hread
  | dir item sub =>
    obtain ⟨-, -, hrun⟩ := readDirectory_stored htree.owned hmem hall.1 hall.2
    obtain ⟨rfl, -⟩ := EStateM.Result.ok.inj (hrun.symm.trans hread)
    exact ⟨item, sub, rfl, rfl, hall.2⟩

/-- A listed node stands where its names say. -/
theorem Listed.located (h : Listed fds img cs k) (htree : TreeOn g img live n)
    (hnames : n.Every GoodNames) (hroot : fds.rootInode = g.root) :
    (∀ w ∈ cs, IsName w) ∧ ∃ m, n.locate cs = some m ∧ m.label.inode = k := by
  induction h with
  | root => exact ⟨by simp, n, Node.locate_nil n, htree.root.trans hroot.symm⟩
  | @entry cs k content item w dir read mem name ih =>
    obtain ⟨hcs, m, hm, rfl⟩ := ih
    obtain ⟨ditem, sub, rfl, hitems, hall⟩ := read_located htree hm read
    obtain ⟨hgood, -⟩ := Node.every_locate hnames hm
    rw [hitems] at mem
    obtain ⟨i, hi⟩ := List.mem_iff_getElem?.mp mem
    have hname : sub.names[i]? = some w := by
      have hmap := congrArg (·[i]?) (names_of_items hall)
      simp only [List.getElem?_map, hi, Option.map_some, name] at hmap
      obtain ⟨w', hw', heq⟩ := Option.map_eq_some_iff.mp hmap.symm
      rw [hw', Option.some.inj heq]
    obtain ⟨k, hk, hlabel⟩ := Entries.find?_of_nodup hgood.1 hname hi
    refine ⟨?_, k, ?_, by rw [hlabel]⟩
    · intro x hx
      rcases List.mem_append.mp hx with hx | hx
      · exact hcs x hx
      · rw [List.mem_singleton.mp hx]
        exact hgood.2 w (List.mem_of_getElem? hname)
    · rw [Node.locate_append, hm, Option.bind_some, Node.locate, hk, Option.bind_some,
        Node.locate_nil]

end Listing

end Steps

/-- After every such run the names in each directory are distinct, and each listed
node is what `locate_path` finds for its own path. -/
theorem builds_names {os : Platform} {file : List UInt8} {size : ℕ} {fds : FsDescriptors}
    {img img' : Image} (h : initFs os file size = .ok (fds, img)) (hrun : Builds fds img img')
    {cs : List (List UInt8)} {n : ℕ} (hlisted : Listed fds img' cs n) :
    (∀ content, readDirectory n img' = .ok content img' →
      (content.items.map fun item => cString item.name).Nodup) ∧
    (∃ p, Spells p cs) ∧
    ∀ p, Spells p cs → ∃ q, splitPath p = .ok q ∧ locatePath fds q img' = .ok n img' := by
  obtain ⟨g, -, -, hroot, hformatted⟩ := initFs_ok h
  have hfresh : Unambiguous g img :=
    ⟨_, _, treeOn_formatted hformatted, ⟨List.nodup_nil, fun w hw => by cases hw⟩, trivial⟩
  obtain ⟨live, t, htree, hnames⟩ := hrun.unambiguous hfresh hroot.symm
  obtain ⟨hcs, m, hm, rfl⟩ := hlisted.located htree hnames hroot.symm
  refine ⟨fun content hread => ?_, exists_spells_of_names hcs, fun p hp => ?_⟩
  · obtain ⟨item, sub, rfl, hitems, hall⟩ := read_located htree hm hread
    rw [hitems, names_of_items hall]
    exact (Node.every_locate hnames hm).1.1.map (Option.some_injective _)
  · obtain ⟨q, hq, hs⟩ := splitPath_of_spells hp
    exact ⟨q, hq, locatePath_located htree hroot.symm hs (fun w hw => (hcs w hw).2.2) hm⟩

/-! ## Small runs -/

/-- The names in a directory, with the nodes they stand for. -/
def entriesIn (img : Image) (n : ℕ) : List (Option (List UInt8) × ℕ) :=
  match readDirectory n img with
  | .ok content _ => content.items.map fun item => (cString item.name, item.inode)
  | .error _ _ => []

/-- The names in a directory. -/
def namesIn (img : Image) (n : ℕ) : List (Option (List UInt8)) := (entriesIn img n).map Prod.fst

theorem listed_of_entry {fds : FsDescriptors} {img : Image} {cs : List (List UInt8)} {n k : ℕ}
    {w : List UInt8} (hdir : Listed fds img cs n) (h : (some w, k) ∈ entriesIn img n) :
    Listed fds img (cs ++ [w]) k := by
  unfold entriesIn at h
  split at h
  · next content img' hread =>
    obtain rfl := (readDirectory_readOnly n).state_eq hread
    obtain ⟨item, hitem, heq⟩ := List.mem_map.mp h
    obtain ⟨hname, rfl⟩ := Prod.mk.inj heq
    exact .entry hdir hread hitem hname
  · cases h

/-- Where no lookup ends well, no path leads. -/
theorem not_leadsTo {fds : FsDescriptors} {img : Image} {p : List UInt8} {q : Path} (path : NetString)
    (hp : cString path.string.bytes = some p) (hq : splitPath p = .ok q)
    (h : returned (locatePath fds q img) = false) (n : ℕ) : ¬LeadsTo fds img path n := by
  rintro ⟨p', q', hp', hq', hn⟩
  obtain rfl := Option.some.inj (hp.symm.trans hp')
  obtain rfl := Except.ok.inj (hq.symm.trans hq')
  exact not_of_returned h n img hn

theorem Builds.create_thread {img₀ img : Image} (args : FsOpCreateArgs)
    (before : Builds ⟨1⟩ img₀ img) (allocated : args.path.string.bytes.length < 2 ^ 63)
    (fresh : ∀ n, ¬LeadsTo ⟨1⟩ img args.path n)
    (h : returned (dispatch 4 ⟨1⟩ (.op .create args) (threadOn img)) = true) :
    Builds ⟨1⟩ img₀ (imageAfter img (.op .create args)) := by
  obtain ⟨u, hrun⟩ := of_returned h
  exact .create (s := threadOn img) before allocated fresh hrun

/-- Fails where the path leads to a node with the directory flag. -/
def noDirectory (q : Path) : FsM Unit := do
  let n ← locatePath ⟨1⟩ q
  let flags ← getInode n >>= getFlags
  if flags &&& flgDirectory = 0 then pure () else throw .fault

theorem Builds.write_thread {img₀ img : Image} {p : List UInt8} {q : Path} (args : FsOpWriteArgs)
    (before : Builds ⟨1⟩ img₀ img) (allocated : args.data.bytes.length < 2 ^ 63)
    (hp : cString args.path.string.bytes = some p) (hq : splitPath p = .ok q)
    (file : returned (noDirectory q img) = true)
    (h : returned (dispatch 4 ⟨1⟩ (.op .write args) (threadOn img)) = true) :
    Builds ⟨1⟩ img₀ (imageAfter img (.op .write args)) := by
  obtain ⟨u, hrun⟩ := of_returned h
  obtain ⟨v, hplain⟩ := of_returned file
  refine .write (s := threadOn img) before allocated ?_ hrun
  rintro n flags ⟨p', q', hp', hq', hn⟩ hflags
  obtain rfl := Option.some.inj (hp.symm.trans hp')
  obtain rfl := Except.ok.inj (hq.symm.trans hq')
  have hfound : locatePath ⟨1⟩ q img = .ok n img := hn
  have hread : (getInode n >>= getFlags) img = .ok flags img := hflags
  rw [noDirectory, bind_of_ok hfound, bind_of_ok hread] at hplain
  split at hplain
  · next hzero => exact hzero
  · cases hplain

/-- A fresh volume of eight blocks. -/
def roomyImage : Image :=
  match initFs sectorPlatform [] 4096 with
  | .ok r => r.2
  | .error _ => ⟨fun _ => 0, 0, []⟩

theorem roomyImage_run : initFs sectorPlatform [] 4096 = .ok (⟨1⟩, roomyImage) := by
  have hroot : ((initFs sectorPlatform [] 4096).toOption.map fun r => r.1.rootInode) = some 1 := by
    decide +kernel
  unfold roomyImage
  cases hinit : initFs sectorPlatform [] 4096 with
  | error e =>
    rw [hinit] at hroot
    cases hroot
  | ok r =>
    obtain ⟨⟨root⟩, img⟩ := r
    rw [hinit] at hroot
    obtain rfl : root = 1 := Option.some.inj hroot
    rfl

/-- The paths `/a`, `/b` and `/a/c`. -/
def dirPath : NetString := ⟨3, blockAt8 [47, 97, 0]⟩
def filePath : NetString := ⟨3, blockAt8 [47, 98, 0]⟩
def innerPath : NetString := ⟨5, blockAt8 [47, 97, 47, 99, 0]⟩

/-- The volume after the first so many of four requests: a directory, a file beside
it, a Write to that file, and a file in the directory. -/
def builtImage (k : ℕ) : Image :=
  ([.op .create (⟨dirPath, flgDirectory⟩ : FsOpCreateArgs),
    .op .create (⟨filePath, flgFile⟩ : FsOpCreateArgs),
    .op .write (⟨filePath, 0, 2, blockAt16 [104, 105]⟩ : FsOpWriteArgs),
    .op .create (⟨innerPath, flgFile⟩ : FsOpCreateArgs)].take k).foldl imageAfter roomyImage

theorem builtImage_builds : Builds ⟨1⟩ roomyImage (builtImage 4) := by
  have hdir : Builds ⟨1⟩ roomyImage (builtImage 1) :=
    Builds.create_thread ⟨dirPath, flgDirectory⟩ .refl (by decide)
      (not_leadsTo dirPath (show _ = some [47, 97] from rfl) rfl (by decide +kernel))
      (by decide +kernel)
  have hfile : Builds ⟨1⟩ roomyImage (builtImage 2) :=
    Builds.create_thread ⟨filePath, flgFile⟩ hdir (by decide)
      (not_leadsTo filePath (show _ = some [47, 98] from rfl) rfl (by decide +kernel))
      (by decide +kernel)
  have hwrite : Builds ⟨1⟩ roomyImage (builtImage 3) :=
    Builds.write_thread ⟨filePath, 0, 2, blockAt16 [104, 105]⟩ hfile (by decide)
      (show _ = some [47, 98] from rfl) rfl (by decide +kernel) (by decide +kernel)
  exact Builds.create_thread ⟨innerPath, flgFile⟩ hwrite (by decide)
    (not_leadsTo innerPath (show _ = some [47, 97, 47, 99] from rfl) rfl (by decide +kernel))
    (by decide +kernel)

/-- The root lists two names, and the file in the directory is found by the path it is
listed under. -/
theorem builds_names_nested :
    (∃ content, readDirectory 1 (builtImage 4) = .ok content (builtImage 4) ∧
      (content.items.map fun item => cString item.name) = [some [97], some [98]] ∧
      (content.items.map fun item => cString item.name).Nodup) ∧
    ∃ k p q, Listed ⟨1⟩ (builtImage 4) [[97], [99]] k ∧ Spells p [[97], [99]] ∧
      splitPath p = .ok q ∧ locatePath ⟨1⟩ q (builtImage 4) = .ok k (builtImage 4) := by
  have hroot : Listed ⟨1⟩ (builtImage 4) [] 1 := .root
  have hdir : Listed ⟨1⟩ (builtImage 4) [[97]] 2 := listed_of_entry hroot (by decide +kernel)
  have hinner : Listed ⟨1⟩ (builtImage 4) [[97], [99]] 5 := listed_of_entry hdir (by decide +kernel)
  have hnames : namesIn (builtImage 4) 1 = [some [97], some [98]] := by decide +kernel
  obtain ⟨content, hread⟩ := of_returned
    (show returned (readDirectory 1 (builtImage 4)) = true by decide +kernel)
  rw [readDirectory_readOnly 1 (builtImage 4)] at hread
  obtain ⟨hdistinct, -, -⟩ := builds_names roomyImage_run builtImage_builds hroot
  obtain ⟨-, ⟨p, hp⟩, hfound⟩ := builds_names roomyImage_run builtImage_builds hinner
  obtain ⟨q, hq, hlocate⟩ := hfound p hp
  rw [namesIn, entriesIn, hread, List.map_map] at hnames
  exact ⟨⟨content, hread, hnames, hdistinct content hread⟩, 5, p, q, hinner, hp, hq,
    hlocate⟩

/-- Both flags at once: `write_file` takes the node for a file, lookup for a directory. -/
def createBoth : NetFsOperation := .op .create (⟨treePath, 3⟩ : FsOpCreateArgs)

/-- Two items with one name. -/
def twoItems : List UInt8 :=
  DirectoryItem.encode ⟨1, itemName [98]⟩ ++ DirectoryItem.encode ⟨1, itemName [98]⟩

def writeItems : NetFsOperation :=
  .op .write (⟨treePath, 0, 528, blockAt16 twoItems⟩ : FsOpWriteArgs)

/-- Creating `/a` twice succeeds and lists it twice, and so do items that a Write puts
into a directory. -/
theorem builds_names_twice :
    (initFs sectorPlatform [] 4096).toOption.map (fun r => r.1.rootInode) = some 1 ∧
    (returned (dispatch 4 ⟨1⟩ createA (threadOn roomyImage)) = true ∧
      returned (dispatch 4 ⟨1⟩ createA (threadOn (imageAfter roomyImage createA))) = true ∧
      namesIn (imageAfter (imageAfter roomyImage createA) createA) 1 = [some [97], some [97]]) ∧
    returned (dispatch 4 ⟨1⟩ createBoth (threadOn roomyImage)) = true ∧
      returned (dispatch 4 ⟨1⟩ writeItems (threadOn (imageAfter roomyImage createBoth))) = true ∧
      namesIn (imageAfter (imageAfter roomyImage createBoth) writeItems) 2 =
        [some [98], some [98]] := by
  refine ⟨?_, ⟨?_, ?_, ?_⟩, ?_, ?_, ?_⟩ <;> decide +kernel

end KisLinux.Net
