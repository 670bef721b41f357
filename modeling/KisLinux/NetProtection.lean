import KisLinux.NetNames
import KisLinux.NetPartial
import KisLinux.NetSound

/-!
# Metadata and directories over whole runs

A run is any sequence of rounds of the server loop, on whatever the clients send,
and a request that ends in `die_fatal` leaves the image to the next one as it is
then. `SafeOperation` tells the requests that find the volume as its invariants
promise from those that run into one of the known defects.
-/
namespace KisLinux.Net
open ByteMemory StateRun ShortTransfer LinkedChain NameTree Fs

/-! ## What is read from a client -/

/-- What `malloc` can have made room for. -/
def NetFsOperation.Allocated : NetFsOperation → Prop
  | .op .write args => (FsOpWriteArgs.data args).bytes.length < 2 ^ 63
  | _ => True

theorem slzArrayRead_ok {α : Type} {f : ArrayField α} {v : α} {s s' : Input} {r : Bool × α}
    (h : slzArrayRead f v s = .ok r s') :
    ∃ count b, r.2 = f.set count b v ∧ (b = f.field v ∨ b.bytes.length < 2 ^ 63) := by
  obtain ⟨got, s₁, -, hrest⟩ := bind_eq_ok.mp h
  split at hrest
  · obtain ⟨rfl, -⟩ := EStateM.Result.ok.inj hrest
    exact ⟨_, _, rfl, Or.inl rfl⟩
  split at hrest
  · obtain ⟨rfl, -⟩ := EStateM.Result.ok.inj hrest
    exact ⟨_, _, rfl, Or.inr (by decide)⟩
  obtain ⟨address, s₂, hmalloc, hrest⟩ := bind_eq_ok.mp hrest
  cases address with
  | none =>
    obtain ⟨rfl, -⟩ := EStateM.Result.ok.inj hrest
    exact ⟨_, _, rfl, Or.inr (by decide)⟩
  | some a =>
    obtain ⟨ha, -⟩ := EStateM.Result.ok.inj hmalloc
    have hlt := s₁.heap.granted_lt 0 _ a ha
    obtain ⟨elements, s₃, hread, hpure⟩ := bind_eq_ok.mp hrest
    obtain ⟨rfl, -⟩ := EStateM.Result.ok.inj hpure
    obtain ⟨s₄, hrun, -⟩ := safeRead_run (wmul f.elemSize (leNat (got.2 ++
      (leBytes 8 (f.count v)).drop got.2.length))) s₂
    obtain ⟨rfl, -⟩ := EStateM.Result.ok.inj (hread.symm.trans hrun)
    exact ⟨_, _, rfl, Or.inr ((List.length_take_le _ _).trans_lt hlt)⟩

/-- What holds of the structure as it came, and is kept when an array is put in, holds
of the structure that is read. -/
theorem slzArraysRead_ok {α : Type} {P : α → Prop} {fs : List (ArrayField α)} {v : α} {s s' : Input}
    {r : Bool × α}
    (hset : ∀ f ∈ fs, ∀ v count b, P v → b = f.field v ∨ b.bytes.length < 2 ^ 63 → P (f.set count b v))
    (hv : P v) (h : slzArraysRead fs v s = .ok r s') : P r.2 := by
  induction fs generalizing v s with
  | nil =>
    obtain ⟨rfl, -⟩ := EStateM.Result.ok.inj h
    exact hv
  | cons f fs ih =>
    obtain ⟨got, s₁, hread, hrest⟩ := bind_eq_ok.mp h
    obtain ⟨count, b, heq, hb⟩ := slzArrayRead_ok hread
    have hgot : P got.2 := by
      rw [heq]
      exact hset f List.mem_cons_self v count b hv hb
    split at hrest
    · exact ih (fun f' hf' => hset f' (List.mem_cons_of_mem f hf')) hgot hrest
    · obtain ⟨rfl, -⟩ := EStateM.Result.ok.inj hrest
      exact hgot

theorem slzFsOpWrite_allocated {v : FsOpWriteArgs} {s s' : Input} {r : Bool × FsOpWriteArgs}
    (h : slzFsOpWrite.read v s = .ok r s') : r.2.data.bytes.length < 2 ^ 63 := by
  obtain ⟨got, s₁, -, hrest⟩ := bind_eq_ok.mp h
  have hdangling : ∀ b, (slzFsOpWrite.ofImage b).data.bytes.length < 2 ^ 63 := fun b => by
    rw [show (slzFsOpWrite.ofImage b).data.bytes = [] from rfl]
    decide
  split at hrest
  · refine slzArraysRead_ok (P := fun args => args.data.bytes.length < 2 ^ 63) ?_ (hdangling _) hrest
    refine List.forall_mem_cons.mpr ⟨fun v count b hv _ => hv, List.forall_mem_singleton.mpr ?_⟩
    rintro v count b hv (rfl | hb)
    · exact hv
    · exact hb
  · obtain ⟨rfl, -⟩ := EStateM.Result.ok.inj hrest
    exact hdangling _

/-- Every operation that the server reads is one that its heap could hold. -/
theorem slzNetFsOperationRead_allocated {old : List UInt8} {s s' : Input} {r : Bool × NetFsOperation}
    (h : slzNetFsOperationRead old s = .ok r s') : r.2.Allocated := by
  obtain ⟨got, s₁, -, hrest⟩ := bind_eq_ok.mp h
  split at hrest
  · obtain ⟨rfl, -⟩ := EStateM.Result.ok.inj hrest
    trivial
  cases hcode : FsOpType.ofCode (leNat (got.2 ++ (old.take 4).drop got.2.length)) with
  | none =>
    simp only [hcode] at hrest
    obtain ⟨rfl, -⟩ := EStateM.Result.ok.inj hrest
    trivial
  | some t =>
    simp only [hcode] at hrest
    obtain ⟨args, s₂, hread, hpure⟩ := bind_eq_ok.mp hrest
    obtain ⟨rfl, -⟩ := EStateM.Result.ok.inj hpure
    cases t with
    | write => exact slzFsOpWrite_allocated hread
    | read | create | remove | stat | readDir => trivial

/-! ## Requests that keep a volume sound -/

/-- The node is a file and no directory, and it can grow as far as it has to. -/
def SafeWrite (g : Geometry) (fds : FsDescriptors) (img : Image) (args : FsOpWriteArgs) : Prop :=
  ∀ n, LeadsTo fds img args.path n → 0 < args.length → flagsOf g img n &&& flgFile ≠ 0 →
    args.offset ≤ sizeOfNode g img n →
      flagsOf g img n &&& flgDirectory = 0 ∧
        Growable g img n (max (sizeOfNode g img n) (args.offset + args.length)) (freeBlocks g img)

/-- The directory can grow by an item with the blocks that the new node leaves. -/
def SafeCreate (g : Geometry) (fds : FsDescriptors) (img : Image) (args : FsOpCreateArgs) : Prop :=
  ∀ n w, LeadsToParent fds img args.path n w → w.length < fileNameLength →
    flagsOf g img n &&& flgDirectory ≠ 0 → freeBlocks g img ≠ [] →
      Growable g img n (sizeOfNode g img n + sizeofDirectoryItem) (freeBlocks g img).tail

/-- The chain of the directory will end in zero, and the item stands at the position
of its own inode or at position 0, where `purge_file` has nothing to free. -/
def SafeRemove (g : Geometry) (fds : FsDescriptors) (img : Image) (args : FsOpRemoveArgs) : Prop :=
  ∀ n w content e, LeadsToParent fds img args.path n w → readDirectory n img = .ok content img →
    findDirectoryItem content w img = .ok e img → EndsInZero g img (rebuiltBlocks g img n) ∧
      (e ≠ 0 → ∃ item, content.items[e]? = some item ∧ item.inode = e)

/-- A request that changes the volume has come in full, with a path that ends in it, and
the volume is prepared for it. -/
def SafeOperation (g : Geometry) (fds : FsDescriptors) (img : Image) (op : NetFsOperation) : Prop :=
  match op with
  | .op .write args => op.Whole ∧ SafeWrite g fds img args
  | .op .create args => op.Whole ∧ SafeCreate g fds img args
  | .op .remove args => op.Whole ∧ SafeRemove g fds img args
  | _ => True

/-- The block that Create gets for its node, if it comes so far. -/
def NetFsOperation.created (img : Image) : NetFsOperation → Finset ℕ
  | .op .create args =>
    match initNewFile (FsOpCreateArgs.flags args) img with
    | .ok b _ => {b}
    | .error _ _ => ∅
  | _ => ∅

/-- The volume behind one round of the server loop: what Create made is live until
its bit is cleared. Behind a round that ends the process the daemon is started again on
the image. -/
def afterRound (fuel : ℕ) (fds : FsDescriptors) (old : List UInt8) (s : Server) (live : Finset ℕ) :
    Volume :=
  let img := (finalState (serveNextOperation fuel fds old s)).image
  let made := (nextOperation old s.input).elim ∅ (NetFsOperation.created s.image)
  ⟨img, (live ∪ made).filter fun b => marked img b = true⟩

/-- A round of the server loop, whatever the client sends. The loops get as many
rounds as there is work for. -/
def ServerRound (g : Geometry) (fds : FsDescriptors) (v v' : Volume) : Prop :=
  ∃ fuel old s, 2 * g.blocksCount ≤ fuel ∧ s.image = v.img ∧ v' = afterRound fuel fds old s v.live

/-- A round with a request for which the volume is prepared. -/
def SafeRound (g : Geometry) (fds : FsDescriptors) (v v' : Volume) : Prop :=
  ∃ fuel old s, 2 * g.blocksCount ≤ fuel ∧ s.image = v.img ∧ v' = afterRound fuel fds old s v.live ∧
    ∀ op, nextOperation old s.input = some op → SafeOperation g fds v.img op

/-! ## One round -/

section Round

variable {g : Geometry} {fds : FsDescriptors} {s : Server} {live live' : Finset ℕ} {n : TreeNode}
  {img final : Image} {op : NetFsOperation} {fuel : ℕ} {old : List UInt8}

theorem created_free (h : Owned g img live) {b : ℕ} (hb : b ∈ op.created img) : marked img b = false := by
  unfold NetFsOperation.created at hb
  split at hb
  · split at hb
    · next hrun =>
      obtain rfl := Finset.mem_singleton.mp hb
      exact (initNewFile_ok h hrun).free
    · exact absurd hb (Finset.notMem_empty b)
  · exact absurd hb (Finset.notMem_empty b)

/-- The live nodes of a round are the marked ones among those that were live or made. -/
theorem Sound.filter (h : Sound g final live' n)
    (hlive : ∀ k, k ∈ live' ↔ k ∈ live ∧ marked final k = true) :
    ∃ n', Sound g final (live.filter fun b => marked final b = true) n' := by
  have heq : live.filter (fun b => marked final b = true) = live' := by
    ext k
    rw [Finset.mem_filter, hlive]
  exact ⟨n, heq ▸ h⟩

/-- All live nodes are marked. -/
theorem Sound.mem_iff (h : Sound g img live n) (k : ℕ) : k ∈ live ↔ k ∈ live ∧ marked img k = true :=
  ⟨fun hk => ⟨hk, h.owned.used k hk k (self_mem_blocksOf g img k)⟩, And.left⟩

/-- A request that leaves the image alone has made nothing. -/
theorem Sound.unchanged (h : Sound g img live n) (hsame : final = img) :
    ∃ n', Sound g final ((live ∪ op.created img).filter fun b => marked final b = true) n' := by
  subst hsame
  refine h.filter fun k => ?_
  rw [Finset.mem_union]
  refine ⟨fun hk => ⟨Or.inl hk, ((h.mem_iff k).mp hk).2⟩, ?_⟩
  rintro ⟨hk | hmade, hmarked⟩
  · exact hk
  · rw [created_free h.owned hmade] at hmarked
    cases hmarked

theorem fsopWrite_sound {args : FsOpWriteArgs} (h : Sound g s.image live n)
    (hroot : fds.rootInode = g.root) (halloc : args.data.bytes.length < 2 ^ 63)
    (hsafe : SafeWrite g fds s.image args) (hfinal : final = (finalState (fsopWrite fuel fds args s)).image) :
    (∃ n', Sound g final live n') ∧
      ∀ k ∈ live, flagsOf g s.image k &&& flgDirectory ≠ 0 → Kept g s.image final k := by
  rcases fsopWrite_image fuel fds args s with hsame | ⟨k, hleads, hlen, hwrite⟩
  · rw [hfinal, hsame]
    exact ⟨⟨n, h⟩, fun k _ _ b _ => AgreeOn.refl g s.image b⟩
  obtain ⟨cs, m, hm, rfl⟩ := hleads.located h.tree hroot
  have htake : (args.data.bytes.take args.length).length = args.length := by
    rw [List.length_take, Nat.min_eq_left hlen]
  rw [hfinal, hwrite]
  refine h.write hm (by omega) fun hd hfile ho => ?_
  rw [htake]
  refine hsafe _ hleads (Nat.pos_of_ne_zero fun hzero => hd ?_) hfile ho
  rw [hzero, List.take_zero]

theorem fsopCreate_sound {args : FsOpCreateArgs} (h : Sound g s.image live n)
    (hroot : fds.rootInode = g.root) (hsafe : SafeCreate g fds s.image args)
    (hfinal : final = (finalState (fsopCreate fuel fds args s)).image) :
    ∃ n', Sound g final ((live ∪ NetFsOperation.created s.image (.op .create args)).filter fun b =>
      marked final b = true) n' := by
  rcases fsopCreate_image fuel fds args s with hsame | ⟨k, w, hleads, hshort, hcreate⟩
  · exact h.unchanged (hfinal.trans hsame)
  obtain ⟨⟨cs, m, hm, rfl⟩, h0⟩ := hleads.located h.tree hroot
  rcases h.create hm h0 hshort (hsafe _ w hleads hshort) (hfinal.trans hcreate) with
    hsame | ⟨b, img₁, n', hinit, h'⟩
  · exact h.unchanged hsame
  · have hmade : NetFsOperation.created s.image (.op .create args) = {b} := by
      simp only [NetFsOperation.created, hinit]
    rw [hmade]
    refine h'.filter fun k => ?_
    rw [h'.mem_iff, Finset.mem_insert, Finset.mem_union, Finset.mem_singleton, or_comm]

theorem fsopRemove_sound {args : FsOpRemoveArgs} (h : Sound g s.image live n)
    (hroot : fds.rootInode = g.root) (hsafe : SafeRemove g fds s.image args)
    (hf : 2 * g.blocksCount ≤ fuel) (hfinal : final = (finalState (fsopRemove fuel fds args s)).image) :
    ∃ n', Sound g final (live.filter fun b => marked final b = true) n' := by
  rcases fsopRemove_image fuel fds args s with hsame | ⟨k, w, hleads, hremove⟩
  · rw [hfinal, hsame]
    exact h.filter h.mem_iff
  obtain ⟨⟨cs, m, hm, rfl⟩, h0⟩ := hleads.located h.tree hroot
  obtain ⟨live', n', h', hlive⟩ :=
    h.remove hm h0 (fun content e => hsafe _ w content e hleads) hf (hfinal.trans hremove)
  exact h'.filter hlive

theorem processOperation_sound (h : Sound g s.image live n) (hroot : fds.rootInode = g.root)
    (halloc : op.Allocated) (hsafe : SafeOperation g fds s.image op) (hf : 2 * g.blocksCount ≤ fuel)
    (hfinal : final = (finalState (processOperation fuel fds op s)).image) :
    ∃ n', Sound g final ((live ∪ op.created s.image).filter fun b => marked final b = true) n' := by
  cases op with
  | other type => exact h.unchanged hfinal
  | op t args =>
    cases t with
    | read => exact h.unchanged (hfinal.trans (fsopRead_image args s))
    | stat => exact h.unchanged (hfinal.trans (fsopStat_image args s))
    | readDir => exact h.unchanged (hfinal.trans (fsopReadDir_image args s))
    | create => exact fsopCreate_sound h hroot hsafe.2 hfinal
    | write =>
      obtain ⟨⟨n', h'⟩, -⟩ := fsopWrite_sound h hroot halloc hsafe.2 hfinal
      rw [show live ∪ NetFsOperation.created s.image (.op .write args) = live from Finset.union_empty _]
      exact h'.filter h'.mem_iff
    | remove =>
      rw [show live ∪ NetFsOperation.created s.image (.op .remove args) = live from Finset.union_empty _]
      exact fsopRemove_sound h hroot hsafe.2 hf hfinal

/-- The image behind a round is that behind the operation, if one was read. -/
theorem serveNextOperation_image (fuel : ℕ) (fds : FsDescriptors) (old : List UInt8) (s : Server) :
    (finalState (serveNextOperation fuel fds old s)).image = s.image ∧ nextOperation old s.input = none ∨
      ∃ op t, nextOperation old s.input = some op ∧ op.Allocated ∧ t.image = s.image ∧
        (finalState (serveNextOperation fuel fds old s)).image =
          (finalState (processOperation fuel fds op t)).image := by
  unfold nextOperation
  cases hread : slzNetFsOperationRead old s.input with
  | error e input =>
    refine Or.inl ⟨?_, rfl⟩
    rw [serveNextOperation, onInput, bind_of_error (onPart_of_error hread)]
    rfl
  | ok r input =>
    have halloc := slzNetFsOperationRead_allocated hread
    obtain ⟨ok, op⟩ := r
    rw [serveNextOperation, bind_of_ok (onInput_of_ok hread)]
    cases ok with
    | false => exact Or.inl ⟨rfl, rfl⟩
    | true =>
      refine Or.inr ⟨op, { s with input := input, errorIntercepted := false }, rfl, halloc, rfl, ?_⟩
      rw [← dispatch_image fuel fds op { s with input := input }]
      exact image_bind (fun _ => .pure true) _

end Round

/-! ## Runs -/

section Runs

variable {g : Geometry} {fds : FsDescriptors} {v v' : Volume} {n : TreeNode}

theorem SafeRound.sound (hr : SafeRound g fds v v') (h : Sound g v.img v.live n)
    (hroot : fds.rootInode = g.root) : ∃ n', Sound g v'.img v'.live n' := by
  obtain ⟨fuel, old, s, hf, himg, rfl, hsafe⟩ := hr
  rw [← himg] at h hsafe
  rcases serveNextOperation_image fuel fds old s with ⟨hsame, hnone⟩ | ⟨op, t, hsome, halloc, ht, himage⟩
  · obtain ⟨n', h'⟩ := @Sound.unchanged _ _ _ _ _ (.other 0) h hsame
    simp only [afterRound, hnone]
    exact ⟨n', h'⟩
  · simp only [afterRound, hsome, himage]
    rw [← ht] at h hsafe ⊢
    exact processOperation_sound h hroot halloc (hsafe op hsome) hf rfl

/-- Soundness is an invariant of safe rounds. -/
theorem sound_of_reach (hr : Relation.ReflTransGen (SafeRound g fds) v v') (h : Sound g v.img v.live n)
    (hroot : fds.rootInode = g.root) : ∃ n', Sound g v'.img v'.live n' := by
  induction hr with
  | refl => exact ⟨n, h⟩
  | tail _ hstep ih =>
    obtain ⟨n', h'⟩ := ih
    exact hstep.sound h' hroot

/-- A directory of a tree is read as the items of its entries. -/
theorem read_node {img : Image} {live : Finset ℕ} {t : TreeNode} {k : ℕ} {content : Fs.DirectoryContent}
    (h : Owned g img live) (hall : t.All Named (stored g img)) (hlive : ∀ b ∈ heads t, b ∈ live)
    (hk : k ∈ heads t) (hread : readDirectory k img = .ok content img) :
    ∃ item sub, .dir item sub ∈ t.nodes ∧ IsDirectory g img k ∧ content.items = sub.labels ∧
      sub.All Named (stored g img) := by
  obtain ⟨item, hitem, rfl⟩ := mem_heads.mp hk
  obtain ⟨m, hm, rfl⟩ := Node.exists_node hitem
  have hstored := Node.all_nodes hall hm
  cases m with
  | file item bytes =>
    obtain ⟨e, he⟩ := readDirectory_not h (hlive _ hk) fun hd => hd.flags hstored.1
    cases he.symm.trans hread
  | dir item sub =>
    obtain ⟨hd, -, hrun⟩ := readDirectory_stored h (hlive _ hk) hstored.1 hstored.2
    obtain ⟨rfl, -⟩ := EStateM.Result.ok.inj (hrun.symm.trans hread)
    exact ⟨item, sub, hm, hd, rfl, hstored.2⟩

/-- The root is in no directory. -/
theorem ne_root {img : Image} {live : Finset ℕ} {item x : DirectoryItem} {sub : TreeEntries}
    (h : TreeOn g img live n) (hm : .dir item sub ∈ n.nodes) (hx : x ∈ sub.allLabels) :
    x.inode ≠ g.root := by
  have hsub : (heads (.dir item sub)).Sublist (heads n) := (Node.nodes_allLabels hm).map _
  obtain ⟨rest, hrest⟩ : ∃ rest, heads n = g.root :: rest := by
    rw [← h.root]
    cases n with
    | file item' bytes => exact ⟨[], rfl⟩
    | dir item' sub' => exact ⟨sub'.allLabels.map DirectoryItem.inode, rfl⟩
  have hnd := h.nodup
  rw [hrest] at hsub hnd
  have hmem : x.inode ∈ rest := hsub.tail.subset (List.mem_map_of_mem hx)
  exact fun heq => (List.nodup_cons.mp hnd).1 (heq ▸ hmem)

/-- The bytes in front of the root are those of the formatted volume, but for the
bits that `mark_block_in_lookup_table` sets and clears. -/
structure MetadataKept (g : Geometry) (img₀ img : Image) : Prop where
  superblock : slice img.bytes 0 sizeofSuperblock = slice img₀.bytes 0 sizeofSuperblock
  stores : ∀ s ∈ img.stores, s.writer ≠ .mark → g.root * g.blockSize ≤ s.address

/-- Paths lead to live nodes, and directories hold items of live nodes other than
the root, each with a name that ends. -/
structure GenuineItems (fds : FsDescriptors) (v : Volume) : Prop where
  reached : ∀ path n, LeadsTo fds v.img path n → n ∈ v.live
  items : ∀ n ∈ v.live, ∀ size content, getFileSize n v.img = .ok size v.img →
    readDirectory n v.img = .ok content v.img → size % sizeofDirectoryItem = 0 ∧
      ∀ item ∈ content.items, (∃ w, cString item.name = some w) ∧ item.inode ∈ v.live ∧
        item.inode ≠ fds.rootInode

theorem Sound.metadataKept {img₀ : Image} {live₀ : Finset ℕ} {n₀ : TreeNode} (h : Sound g v.img v.live n)
    (h₀ : Sound g img₀ live₀ n₀) : MetadataKept g img₀ v.img where
  superblock := h.owned.onVolume.superblock_eq.trans h₀.owned.onVolume.superblock_eq.symm
  stores := h.owned.onVolume.guarded

theorem Sound.genuineItems (h : Sound g v.img v.live n) (hroot : fds.rootInode = g.root) :
    GenuineItems fds v where
  reached := fun path k hk => hk.mem h.tree hroot
  items := by
    intro k hk size content hsize hread
    rw [getFileSize, bind_of_ok (h.owned.inode_run hk), h.owned.size_run hk] at hsize
    obtain ⟨rfl, -⟩ := EStateM.Result.ok.inj hsize
    have hitem : ∀ {t : TreeNode} {item : DirectoryItem} {sub : TreeEntries} {x : DirectoryItem},
        .dir item sub ∈ t.nodes → x ∈ sub.labels → x.inode ∈ heads t := fun hm hx =>
      List.mem_map_of_mem ((Node.nodes_allLabels hm).subset
        (List.mem_cons_of_mem _ (Entries.labels_subset_allLabels _ hx)))
    by_cases hkn : k ∈ heads n
    · obtain ⟨item, sub, hm, hd, hitems, hall⟩ := read_node h.owned h.tree.all h.tree.live hkn hread
      refine ⟨hd.aligned, fun x hx => ?_⟩
      rw [hitems] at hx
      obtain ⟨w, hw⟩ := Entries.all_names hall x hx
      rw [hroot]
      exact ⟨⟨w, hw.name⟩, h.tree.live _ (hitem hm hx),
        ne_root h.tree hm (Entries.labels_subset_allLabels _ hx)⟩
    · obtain ⟨t, hkt, hall, hlive⟩ := h.lost k hk hkn
      obtain ⟨item, sub, hm, hd, hitems, hsub⟩ :=
        read_node h.owned hall (fun b hb => (hlive b hb).1) hkt hread
      refine ⟨hd.aligned, fun x hx => ?_⟩
      rw [hitems] at hx
      obtain ⟨w, hw⟩ := Entries.all_names hsub x hx
      obtain ⟨hxlive, hxn⟩ := hlive _ (hitem hm hx)
      refine ⟨⟨w, hw.name⟩, hxlive, fun heq => hxn ?_⟩
      rw [heq, hroot, ← h.tree.root]
      exact label_mem_heads n

/-- A round with a Write leaves every directory as it is. -/
theorem Sound.write_spares (h : Sound g v.img v.live n) (hroot : fds.rootInode = g.root) {fuel : ℕ}
    {old : List UInt8} {s : Server} {args : FsOpWriteArgs} (himg : s.image = v.img)
    (hop : nextOperation old s.input = some (.op .write args))
    (hsafe : SafeOperation g fds v.img (.op .write args))
    {k : ℕ} (hk : k ∈ v.live) {content : Fs.DirectoryContent}
    (hread : readDirectory k v.img = .ok content v.img) :
    readDirectory k (afterRound fuel fds old s v.live).img =
      .ok content (afterRound fuel fds old s v.live).img := by
  rcases serveNextOperation_image fuel fds old s with ⟨-, hnone⟩ | ⟨op, t, hsome, halloc, ht, himage⟩
  · cases hnone.symm.trans hop
  obtain rfl := Option.some.inj (hsome.symm.trans hop)
  have hv : t.image = v.img := ht.trans himg
  rw [← hv] at h hsafe hread
  obtain ⟨⟨n', h'⟩, hkept⟩ := fsopWrite_sound h hroot halloc hsafe.2
    (show (afterRound fuel fds old s v.live).img = (finalState (fsopWrite fuel fds args t)).image from himage)
  have hd : IsDirectory g t.image k := by
    by_contra hnot
    obtain ⟨e, he⟩ := readDirectory_not h.owned hk hnot
    cases he.symm.trans hread
  obtain ⟨hd', hitems⟩ := (hkept k hk hd.flags).items hd
  rw [readDirectory_run h.owned hk hd] at hread
  obtain ⟨rfl, -⟩ := EStateM.Result.ok.inj hread
  rw [readDirectory_run h'.owned hk hd', hitems]

end Runs

/-! ## Small runs -/

/-- A thread whose client sends the operation. -/
def threadFor (img : Image) (op : NetFsOperation) : Server :=
  ⟨img, byteByByte op.wire, byteSink, false⟩

def roundFor (v : Volume) (op : NetFsOperation) : Volume :=
  afterRound 8 ⟨1⟩ [] (threadFor v.img op) v.live

/-- One operation after another, each from a new client. -/
def runFor (v : Volume) (ops : List NetFsOperation) : Volume := ops.foldl roundFor v

theorem runFor_reach (v : Volume) (ops : List NetFsOperation) :
    Relation.ReflTransGen (ServerRound treeVolume ⟨1⟩) v (runFor v ops) := by
  induction ops generalizing v with
  | nil => exact .refl
  | cons op ops ih =>
    have hround : ServerRound treeVolume ⟨1⟩ v (roundFor v op) :=
      ⟨8, [], threadFor v.img op, by decide, rfl, rfl⟩
    exact .head hround (ih (roundFor v op))

/-- The server reads what the client sends. -/
theorem threadFor_next {op : NetFsOperation} {r : Request} (hc : op.Carries r)
    (hfits : r.Fits ∧ r.largest < 2 ^ 63) (img : Image) :
    ∃ op', nextOperation [] (threadFor img op).input = some op' ∧ op'.Carries r := by
  have hpending : (byteByByte op.wire).source.pending = op.wire ++ [] := by simp [byteByByte]
  obtain ⟨op', s', hread, hc', -, -⟩ := slzNetFsOperationRead_run hc hfits.1 hpending
    (byteByByte_grants _ (by omega)) (Nat.le_sub_one_of_lt hfits.2) []
  refine ⟨op', ?_, hc'⟩
  rw [nextOperation, show (threadFor img op).input = byteByByte op.wire from rfl, hread]

theorem roundFor_safe {v : Volume} {op : NetFsOperation} {r : Request} (hc : op.Carries r)
    (hfits : r.Fits ∧ r.largest < 2 ^ 63)
    (h : ∀ op', op'.Carries r → SafeOperation treeVolume ⟨1⟩ v.img op') :
    SafeRound treeVolume ⟨1⟩ v (roundFor v op) := by
  refine ⟨8, [], threadFor v.img op, by decide, rfl, rfl, fun op' hop' => ?_⟩
  obtain ⟨op₁, hnext, hc'⟩ := threadFor_next hc hfits v.img
  obtain rfl := Option.some.inj (hnext.symm.trans hop')
  exact h op₁ hc'

section Here

variable {g : Geometry} {fds : FsDescriptors} {img : Image} {op : NetFsOperation} {n k o : ℕ}
  {path p d w w' : List UInt8} {q : Path} {s : NetString} {flags : UInt8}

/-- Where a path leads is found by looking. -/
theorem LeadsTo.eq_of_value (h : LeadsTo fds img s n) (hp : cString s.chars = some p)
    (hq : splitPath p = .ok q) (hk : value (locatePath fds q img) = some k) : n = k := by
  obtain ⟨p', q', hp', hq', hn⟩ := h
  obtain rfl := Option.some.inj ((cString_of_take hp).symm.trans hp')
  obtain rfl := Except.ok.inj (hq.symm.trans hq')
  rw [hn] at hk
  exact Option.some.inj hk

theorem LeadsToParent.eq_of_value (h : LeadsToParent fds img s n w) (hp : cString s.chars = some p)
    (hq : splitPath p = .ok q) (hk : value (locatePath fds (parentPath q) img) = some k)
    (hw : q.part (parentPath q).count = .ok w') : n = k ∧ w = w' := by
  obtain ⟨p', q', hp', hq', hn, hw'⟩ := h
  obtain rfl := Option.some.inj ((cString_of_take hp).symm.trans hp')
  obtain rfl := Except.ok.inj (hq.symm.trans hq')
  rw [hn] at hk
  exact ⟨Option.some.inj hk, Except.ok.inj (hw'.symm.trans hw)⟩

theorem safeWrite_here (hc : op.Carries (.write path o d)) (h0 : 0 ∈ path) (hp : cString path = some p)
    (hq : splitPath p = .ok q) (hk : value (locatePath fds q img) = some k)
    (hfile : flagsOf g img k &&& flgDirectory = 0)
    (hgrow : Growable g img k (max (sizeOfNode g img k) (o + d.length)) (freeBlocks g img)) :
    SafeOperation g fds img op := by
  have hwhole := hc.whole h0
  generalize hr : Request.write path o d = r at hc
  cases hc with
  | op type args full =>
    cases type with
    | write =>
      let args : FsOpWriteArgs := args
      obtain ⟨rfl, rfl, rfl⟩ := Request.write.inj hr
      have hlen : (args.data.bytes.take args.length).length = args.length := by
        have hfilled := (full _ (List.mem_cons_of_mem _ List.mem_cons_self)).filled
        rw [List.length_take, Nat.min_eq_left ((Nat.one_mul _).symm.trans_le hfilled)]
      refine ⟨hwhole, fun n hn _ _ _ => ?_⟩
      obtain rfl := hn.eq_of_value hp hq hk
      exact ⟨hfile, hlen ▸ hgrow⟩
    | _ => cases hr

theorem safeCreate_here (hc : op.Carries (.create path flags)) (h0 : 0 ∈ path)
    (hp : cString path = some p) (hq : splitPath p = .ok q)
    (hk : value (locatePath fds (parentPath q) img) = some k) (hw : q.part (parentPath q).count = .ok w)
    (hgrow : Growable g img k (sizeOfNode g img k + sizeofDirectoryItem) (freeBlocks g img).tail) :
    SafeOperation g fds img op := by
  have hwhole := hc.whole h0
  generalize hr : Request.create path flags = r at hc
  cases hc with
  | op type args full =>
    cases type with
    | create =>
      let args : FsOpCreateArgs := args
      obtain ⟨rfl, rfl⟩ := Request.create.inj hr
      refine ⟨hwhole, fun n w' hn _ _ _ => ?_⟩
      obtain ⟨rfl, -⟩ := hn.eq_of_value hp hq hk hw
      exact hgrow
    | _ => cases hr

/-- The item stands at position 0. -/
theorem safeRemove_here (hc : op.Carries (.remove path)) (h0 : 0 ∈ path)
    (hp : cString path = some p) (hq : splitPath p = .ok q)
    (hk : value (locatePath fds (parentPath q) img) = some k) (hw : q.part (parentPath q).count = .ok w)
    (hfound : value ((readDirectory k >>= fun content => findDirectoryItem content w) img) = some 0)
    (hzero : EndsInZero g img (rebuiltBlocks g img k)) : SafeOperation g fds img op := by
  have hwhole := hc.whole h0
  generalize hr : Request.remove path = r at hc
  cases hc with
  | op type args full =>
    cases type with
    | remove =>
      let args : FsOpRemoveArgs := args
      obtain rfl := Request.remove.inj hr
      refine ⟨hwhole, fun n w' content e hn hread hfind => ⟨?_, fun he => absurd ?_ he⟩⟩
      · obtain ⟨rfl, -⟩ := hn.eq_of_value hp hq hk hw
        exact hzero
      · obtain ⟨rfl, rfl⟩ := hn.eq_of_value hp hq hk hw
        rw [bind_of_ok hread, hfind] at hfound
        exact Option.some.inj hfound
    | _ => cases hr

end Here

theorem removeA_carries : removeA.Carries (.remove [47, 97, 0]) :=
  .op .remove removeArgs removeArgs_full

def freshVolume : Volume := ⟨freshImage, {1}⟩

theorem createA_safe : SafeRound treeVolume ⟨1⟩ freshVolume (runFor freshVolume [createA]) :=
  roundFor_safe createA_carries ⟨trivial, by decide⟩ fun op hc =>
    safeCreate_here (k := 1) hc (by decide) rfl rfl (by decide +kernel) rfl
      ⟨by decide +kernel, by decide +kernel⟩

theorem writeA_fits : (Request.write [47, 97, 0] 0 [104, 105]).Fits ∧
    (Request.write [47, 97, 0] 0 [104, 105]).largest < 2 ^ 63 := ⟨Nat.two_pow_pos 64, by decide⟩

theorem writeA_safe {op : NetFsOperation} (hc : op.Carries (.write [47, 97, 0] 0 [104, 105])) :
    SafeOperation treeVolume ⟨1⟩ (runFor freshVolume [createA]).img op :=
  safeWrite_here (k := 2) hc (by decide) rfl rfl (by decide +kernel) (by decide +kernel)
    ⟨by decide +kernel, by decide +kernel⟩

theorem removeA_safe : SafeRound treeVolume ⟨1⟩ (runFor freshVolume [createA, writeA])
    (runFor freshVolume [createA, writeA, removeA]) :=
  roundFor_safe removeA_carries ⟨trivial, by decide⟩ fun op hc =>
    safeRemove_here (k := 1) hc (by decide) rfl rfl (by decide +kernel) rfl (by decide +kernel)
      (by decide +kernel)

/-- A file is created, written and removed. -/
theorem runFor_safe : Relation.ReflTransGen (SafeRound treeVolume ⟨1⟩) freshVolume
    (runFor freshVolume [createA, writeA, removeA]) := by
  have hwrite : SafeRound treeVolume ⟨1⟩ (runFor freshVolume [createA])
      (runFor freshVolume [createA, writeA]) :=
    roundFor_safe writeA_carries writeA_fits fun op hc => writeA_safe hc
  exact ((Relation.ReflTransGen.single createA_safe).tail hwrite).tail removeA_safe

/-! ## The metadata -/

/-- In every run of safe rounds the metadata stays what it was. -/
theorem metadata_kept {os : Platform} {file : List UInt8} {size : ℕ} {fds : FsDescriptors}
    {img₀ : Image} {g : Geometry} {v : Volume} (h : initFs os file size = .ok (fds, img₀))
    (hg : g.Describes os size fds)
    (hr : Relation.ReflTransGen (SafeRound g fds) ⟨img₀, {fds.rootInode}⟩ v) :
    MetadataKept g img₀ v.img := by
  have h₀ := sound_formatted (hg.formatted h)
  rw [← hg.root_eq] at hr
  obtain ⟨n, hn⟩ := sound_of_reach hr h₀ hg.root_eq.symm
  exact hn.metadataKept h₀

theorem metadata_kept_removed :
    MetadataKept treeVolume freshImage (runFor freshVolume [createA, writeA, removeA]).img :=
  metadata_kept freshImage_run treeVolume_describes runFor_safe

def writeLong : NetFsOperation := .op .write longWrite

/-- One byte in the block that the long Write did not get. -/
def writeTail : NetFsOperation :=
  .op .write (⟨treePath, 987, 1, blockAt16 [255]⟩ : FsOpWriteArgs)

/-- The long Write fails with its size stored, and the next one lands in block 0. -/
theorem metadata_kept_tail :
    ¬ ∀ (os : Platform) (file : List UInt8) (size : ℕ) (fds : FsDescriptors) (img₀ : Image)
      (g : Geometry) (v : Volume), initFs os file size = .ok (fds, img₀) → g.Describes os size fds →
      Relation.ReflTransGen (ServerRound g fds) ⟨img₀, {fds.rootInode}⟩ v →
      MetadataKept g img₀ v.img := by
  intro hclaim
  have hkept := (hclaim _ _ _ _ _ _ _ freshImage_run treeVolume_describes
    (runFor_reach _ [createA, writeLong, writeTail])).superblock
  revert hkept
  decide +kernel

/-! ## The directories -/

/-- In every run of safe rounds directories hold nothing but items of created nodes,
and no Write changes what is read from a directory. -/
theorem directories_genuine {os : Platform} {file : List UInt8} {size : ℕ} {fds : FsDescriptors}
    {img₀ : Image} {g : Geometry} {v : Volume} (h : initFs os file size = .ok (fds, img₀))
    (hg : g.Describes os size fds)
    (hr : Relation.ReflTransGen (SafeRound g fds) ⟨img₀, {fds.rootInode}⟩ v) :
    GenuineItems fds v ∧ ∀ fuel old s args, s.image = v.img →
      nextOperation old s.input = some (.op .write args) → SafeOperation g fds v.img (.op .write args) →
        ∀ n ∈ v.live, ∀ content, readDirectory n v.img = .ok content v.img →
          readDirectory n (afterRound fuel fds old s v.live).img =
            .ok content (afterRound fuel fds old s v.live).img := by
  have h₀ := sound_formatted (hg.formatted h)
  rw [← hg.root_eq] at hr
  obtain ⟨n, hn⟩ := sound_of_reach hr h₀ hg.root_eq.symm
  exact ⟨hn.genuineItems hg.root_eq.symm, fun fuel old s args himg hop hsafe k hk content hread =>
    hn.write_spares hg.root_eq.symm himg hop hsafe hk hread⟩

/-- An item of block 3, which no Create has made a node of. -/
def forgeItem : NetFsOperation :=
  .op .write (⟨treePath, 0, 264, blockAt16 (DirectoryItem.encode ⟨3, itemName [98]⟩)⟩ : FsOpWriteArgs)

/-- The nodes that a directory lists. -/
def inodesIn (img : Image) (n : ℕ) : List ℕ :=
  match readDirectory n img with
  | .ok content _ => content.items.map DirectoryItem.inode
  | .error _ _ => []

theorem of_inodesIn {img : Image} {n k : ℕ} (h : k ∈ inodesIn img n) :
    ∃ content item, readDirectory n img = .ok content img ∧ item ∈ content.items ∧ item.inode = k := by
  unfold inodesIn at h
  split at h
  · next content img' hread =>
    obtain rfl := (readDirectory_readOnly n).state_eq hread
    obtain ⟨item, hitem, hk⟩ := List.mem_map.mp h
    exact ⟨content, item, hread, hitem, hk⟩
  · cases h

theorem inodesIn_of_read {img : Image} {n : ℕ} {content : Fs.DirectoryContent}
    (h : readDirectory n img = .ok content img) :
    inodesIn img n = content.items.map DirectoryItem.inode := by rw [inodesIn, h]

/-- The nodes that a directory lists do not change by the Write. -/
def SparedByWrite (v : Volume) (n : ℕ) : Prop := inodesIn (roundFor v writeA).img n = inodesIn v.img n

/-- Behind the Write the root lists what it did, and behind the Remove nothing. -/
theorem directories_genuine_removed :
    GenuineItems ⟨1⟩ (runFor freshVolume [createA, writeA, removeA]) ∧
      SparedByWrite (runFor freshVolume [createA]) 1 ∧
      inodesIn (runFor freshVolume [createA]).img 1 = [2] ∧
      inodesIn (runFor freshVolume [createA, writeA, removeA]).img 1 = [] := by
  have hwrite : ∀ v n, Relation.ReflTransGen (SafeRound treeVolume ⟨1⟩) freshVolume v → n ∈ v.live →
      returned (readDirectory n v.img) = true →
      (∀ op, op.Carries (.write [47, 97, 0] 0 [104, 105]) → SafeOperation treeVolume ⟨1⟩ v.img op) →
      SparedByWrite v n := by
    intro v n hreach hlive hreads hsafe
    obtain ⟨content, hread⟩ := of_returned hreads
    rw [readDirectory_readOnly] at hread
    obtain ⟨op, hnext, hc⟩ := threadFor_next writeA_carries writeA_fits v.img
    obtain ⟨-, hspares⟩ := directories_genuine freshImage_run treeVolume_describes hreach
    have hop := hsafe op hc
    generalize hr : Request.write [47, 97, 0] 0 [104, 105] = r at hc
    cases hc with
    | op t args full =>
      cases t with
      | write =>
        have hafter := hspares 8 [] (threadFor v.img writeA) args rfl hnext hop n hlive content hread
        exact (inodesIn_of_read hafter).trans (inodesIn_of_read hread).symm
      | _ => cases hr
  exact ⟨(directories_genuine freshImage_run treeVolume_describes runFor_safe).1,
    hwrite _ 1 (.single createA_safe) (by decide +kernel) (by decide +kernel) (fun _ => writeA_safe),
    by decide +kernel, by decide +kernel⟩

/-- What shows that a directory is not genuine. -/
theorem GenuineItems.not_mem {fds : FsDescriptors} {v : Volume} {n k : ℕ} (hn : n ∈ v.live)
    (hsize : returned (getFileSize n v.img) = true) (hk : k ∈ inodesIn v.img n) (hlive : k ∉ v.live) :
    ¬GenuineItems fds v := by
  intro h
  obtain ⟨size, hsize⟩ := of_returned hsize
  rw [getFileSize_readOnly n v.img] at hsize
  obtain ⟨content, item, hread, hitem, rfl⟩ := of_inodesIn hk
  exact hlive ((h.items n hn size content hsize hread).2 item hitem).2.1

/-- A node with both flags is written to as a file and read as a directory. -/
theorem directories_genuine_forged :
    ¬ ∀ (os : Platform) (file : List UInt8) (size : ℕ) (fds : FsDescriptors) (img₀ : Image)
      (g : Geometry) (v : Volume), initFs os file size = .ok (fds, img₀) → g.Describes os size fds →
      Relation.ReflTransGen (ServerRound g fds) ⟨img₀, {fds.rootInode}⟩ v → GenuineItems fds v := by
  intro hclaim
  have hgenuine := hclaim _ _ _ _ _ _ _ freshImage_run treeVolume_describes
    (runFor_reach _ [createBoth, forgeItem])
  revert hgenuine
  exact GenuineItems.not_mem (n := 2) (k := 3) (by decide +kernel) (by decide +kernel)
    (by decide +kernel) (by decide +kernel)

end KisLinux.Net
