import KisLinux.NetEffects
import KisLinux.NetRemove

/-!
# Sound volumes

A volume is sound when it is well-formed and the entries of its directories form
a tree, beside which there may be nodes that no path leads to any more. Every
request keeps that if the chains it works on find enough blocks and end in zero,
if no Write goes to a directory, and if Remove frees the node it takes out or none.
-/
namespace KisLinux.Net
open ByteMemory StateRun LinkedChain NameTree Fs

/-- The node `k` belongs to a tree of its own, apart from the nodes `named`. -/
def Lost (g : Geometry) (img : Image) (live : Finset ℕ) (named : List ℕ) (k : ℕ) : Prop :=
  ∃ t : TreeNode, k ∈ heads t ∧ t.All Named (stored g img) ∧ ∀ b ∈ heads t, b ∈ live ∧ b ∉ named

structure Sound (g : Geometry) (img : Image) (live : Finset ℕ) (n : TreeNode) : Prop where
  wellFormed : WellFormed g img live
  tree : TreeOn g img live n
  /-- A Create that is refused late leaves a node without an entry, and so does a
  Remove that stops before it frees anything. -/
  lost : ∀ k ∈ live, k ∉ heads n → Lost g img live (heads n) k

/-- The node `n` can grow to `newSize` bytes with the blocks `free`: there are enough
of them, and the block that will be the last of the chain links to nothing. -/
structure Growable (g : Geometry) (img : Image) (n newSize : ℕ) (free : List ℕ) : Prop where
  room : extraBlocks g img n newSize ≤ free.length
  zero : EndsInZero g img (blocksOf g img n ++ free.take (extraBlocks g img n newSize))

theorem Lost.kept {g : Geometry} {img img' : Image} {live live' : Finset ℕ} {named named' : List ℕ}
    {k : ℕ} (h : Lost g img live named k)
    (hkept : ∀ b ∈ live, b ∉ named → Kept g img img' b ∧ b ∈ live' ∧ b ∉ named') :
    Lost g img' live' named' k := by
  obtain ⟨t, hk, hall, hlive⟩ := h
  refine ⟨t, hk, Node.all_mono hall fun item hitem => ?_, fun b hb => ?_⟩
  · have hb := hlive _ (List.mem_map_of_mem hitem)
    exact (hkept _ hb.1 hb.2).1.below
  · have hb := hlive b hb
    exact (hkept b hb.1 hb.2).2

theorem sound_formatted {g : Geometry} {img : Image} {file : Memory} (h : Formatted g img file) :
    Sound g img {g.root} (.dir ⟨g.root, []⟩ .nil) where
  wellFormed := .formatted h
  tree := treeOn_formatted h
  lost := fun _ hk hnot => absurd (Finset.mem_singleton.mp hk ▸ label_mem_heads _) hnot

/-- The nodes of a tree with another node at a path. -/
theorem heads_update {n m : TreeNode} {p : List (List UInt8)} (hm : n.locate p = some m) :
    ∃ pre post, heads n = pre ++ heads m ++ post ∧
      ∀ f : TreeNode → TreeNode, heads (n.update f p) = pre ++ heads (f m) ++ post := by
  obtain ⟨pre, post, hall, hupdate⟩ := Node.locate_split hm
  refine ⟨pre.map DirectoryItem.inode, post.map DirectoryItem.inode, ?_, fun f => ?_⟩
  · rw [heads, hall, List.map_append, List.map_append, heads]
  · rw [heads, hupdate, List.map_append, List.map_append, heads]

namespace Sound

variable {g : Geometry} {img img₁ img' : Image} {live : Finset ℕ} {n m : TreeNode}
  {p : List (List UInt8)} {item : DirectoryItem} {sub : TreeEntries} {bytes d w : List UInt8}
  {b c e o fuel : ℕ} {flags : UInt8} {fds : FsDescriptors}

theorem owned (h : Sound g img live n) : Owned g img live := h.wellFormed.owned

theorem mem_live (h : Sound g img live n) (hm : n.locate p = some m) : m.label.inode ∈ live :=
  (h.tree.located hm).2.2 _ (label_mem_heads m)

/-- A step on a node of the tree leaves the others as they are. -/
theorem kept (h : Sound g img live n) (hb : b ∈ heads n) (hs : NodeStep g img img' b) :
    ∀ k ∈ live, k ∉ heads n → Kept g img img' k := fun _ hk hnot =>
  hs.kept h.owned (h.tree.live b hb) hk fun heq => hnot (heq ▸ hb)

/-- A file was written. -/
theorem written (h : Sound g img live n) (hm : n.locate p = some (.file item bytes))
    (hw : Written g img img' item.inode o d)
    (hzero : EndsInZero g img (blocksOf g img' item.inode)) :
    ∃ n', Sound g img' live n' := by
  have hmem : item.inode ∈ live := h.mem_live hm
  have hhead : item.inode ∈ heads n := TreeOn.heads_located hm (label_mem_heads _)
  obtain ⟨pre, post, hheads, hupdate⟩ := heads_update hm
  refine ⟨_, (h.wellFormed.nodeStep_iff hmem hw.step hw.lastLink).mpr hzero, h.tree.written hm hw, ?_⟩
  rw [hupdate, show heads (Node.mapData _ (.file item bytes)) = heads (.file item bytes) from rfl,
    ← hheads]
  exact fun k hk hnot => (h.lost k hk hnot).kept fun b hb hnot' =>
    ⟨h.kept hhead hw.step b hb hnot', hb, hnot'⟩

/-- A node was made that has no entry yet. -/
theorem created (h : Sound g img live n) (hc : Created g img img' b flags) :
    Sound g img' (insert b live) n where
  wellFormed := h.wellFormed.created hc
  tree := (h.tree.created hc).1
  lost := by
    have hb := (h.tree.created hc).2
    intro k hk hnot
    rcases Finset.mem_insert.mp hk with rfl | hk
    · refine ⟨emptyNode flags ⟨k, []⟩, by simp, emptyNode_stored hc, ?_⟩
      rw [emptyNode_heads]
      exact List.forall_mem_singleton.mpr ⟨Finset.mem_insert_self k live, hb⟩
    · exact (h.lost k hk hnot).kept fun b hb' hnot' =>
        ⟨hc.kept h.owned hb', Finset.mem_insert_of_mem hb', hnot'⟩

/-- A node was made and entered into a directory. -/
theorem entered (h : Sound g img live n) (hm : n.locate p = some (.dir item sub)) (h0 : 0 ∉ w)
    (hshort : w.length < fileNameLength) (hc : Created g img img₁ c flags)
    (hw : Written g img₁ img' item.inode (sizeOfNode g img₁ item.inode)
      (DirectoryItem.encode ⟨c, itemName w⟩))
    (hzero : EndsInZero g img₁ (blocksOf g img' item.inode)) :
    ∃ n', Sound g img' (insert c live) n' := by
  have hmem : item.inode ∈ live := h.mem_live hm
  have hhead : item.inode ∈ heads n := TreeOn.heads_located hm (label_mem_heads _)
  have h₁ := h.created hc
  have hname : Named w ⟨c, itemName w⟩ :=
    itemName_named (hc.range.2.trans g.blocksCount_lt) hshort h0
  have hstored : (emptyNode flags ⟨c, itemName w⟩).All Named (stored g img₁) := emptyNode_stored hc
  have htree := h₁.tree.appended (k := emptyNode flags ⟨c, itemName w⟩) hm (by simpa using hname)
    hstored (by simp) (by simpa using (h.tree.created hc).2) (by rw [emptyNode_label]; exact hw)
  obtain ⟨pre, post, hheads, hupdate⟩ := heads_update hm
  have hnew : heads (n.update (Node.addEntry w (emptyNode flags ⟨c, itemName w⟩)) p) =
      pre ++ (heads (.dir item sub) ++ [c]) ++ post := by
    rw [hupdate, heads, Node.addEntry_allLabels, List.map_append, emptyNode_allLabels]
    rfl
  refine ⟨_, (h₁.wellFormed.nodeStep_iff (Finset.mem_insert_of_mem hmem) hw.step hw.lastLink).mpr hzero,
    htree, fun k hk hnot => ?_⟩
  have hmem_new : ∀ b, b ∈ heads (n.update (Node.addEntry w (emptyNode flags ⟨c, itemName w⟩)) p) ↔
      b = c ∨ b ∈ heads n := fun b => by
    rw [hnew, hheads]
    simp only [List.mem_append, List.mem_singleton]
    tauto
  rw [hmem_new, not_or] at hnot
  refine (h.lost k (Finset.mem_of_mem_insert_of_ne hk hnot.1) hnot.2).kept fun b hb hnot' => ?_
  refine ⟨(hc.kept h.owned hb).trans (h₁.kept hhead hw.step b (Finset.mem_insert_of_mem hb) hnot'),
    Finset.mem_insert_of_mem hb, ?_⟩
  rw [hmem_new, not_or]
  exact ⟨fun heq => hc.notMem h.owned (heq ▸ hb), hnot'⟩

/-- What is left of the nodes of the tree when an entry is taken out. -/
theorem mem_heads_erase (h : Sound g img live n) (hm : n.locate p = some (.dir item sub))
    (hk : sub.find? w = some m) :
    b ∈ heads (n.update (Node.eraseEntry w) p) ↔ b ∈ heads n ∧ b ∉ heads m := by
  obtain ⟨pre, post, hheads, hupdate⟩ := heads_update hm
  obtain ⟨pre', post', hall, -, herase⟩ := Entries.allLabels_split hk
  have hnd := h.tree.nodup
  have hold : heads (.dir item sub) = item.inode :: (pre'.map DirectoryItem.inode ++ heads m ++
      post'.map DirectoryItem.inode) := by
    rw [heads, Node.allLabels, hall, List.map_cons, List.map_append, List.map_append, heads]
  have hnew : heads (Node.eraseEntry w (.dir item sub)) = item.inode ::
      (pre'.map DirectoryItem.inode ++ post'.map DirectoryItem.inode) := by
    rw [Node.eraseEntry, heads, Node.allLabels, herase, List.map_cons, List.map_append]
  rw [hupdate, hnew, hheads, hold]
  rw [hheads, hold] at hnd
  simp only [List.nodup_append, List.nodup_cons, List.mem_append, List.mem_cons] at hnd ⊢
  grind

/-- An entry was taken out, and its node stays behind. -/
theorem removed (h : Sound g img live n) (hm : n.locate p = some (.dir item sub))
    (he : sub.index? w = some e) (hitems : itemsOf g img item.inode = sub.labels)
    (hr : Removed g img img' item.inode e) (hzero : EndsInZero g img (blocksOf g img' item.inode)) :
    Sound g img' live (n.update (Node.eraseEntry w) p) := by
  have hmem : item.inode ∈ live := h.mem_live hm
  have hhead : item.inode ∈ heads n := TreeOn.heads_located hm (label_mem_heads _)
  obtain ⟨m, hk, -⟩ := Entries.find?_of_index? he
  refine ⟨(h.wellFormed.nodeStep_iff hmem hr.step hr.lastLink).mpr hzero,
    h.tree.removed hm he hitems hr, fun k hlive hnot => ?_⟩
  rw [h.mem_heads_erase hm hk, not_and_not_right] at hnot
  by_cases hkn : k ∈ heads n
  · obtain ⟨hall, -, hbelow⟩ := entry_located h.tree hm hk
    refine ⟨m, hnot hkn, Node.all_mono hall fun item' hitem' => ?_, fun b hb => ⟨hbelow b hb, ?_⟩⟩
    · refine hr.step.below h.owned hmem (hbelow _ (List.mem_map_of_mem hitem')) fun heq => ?_
      exact dir_notMem h.tree hm hk (heq ▸ List.mem_map_of_mem hitem')
    · rw [h.mem_heads_erase hm hk]
      exact fun hb' => hb'.2 hb
  · refine (h.lost k hlive hkn).kept fun b hb hnot' => ⟨h.kept hhead hr.step b hb hnot', hb, ?_⟩
    rw [h.mem_heads_erase hm hk]
    exact fun hb' => hnot' hb'.1

/-- An entry was taken out, and its node is freed. -/
theorem purged (h : Sound g img live n) (hm : n.locate p = some (.dir item sub))
    (he : sub.index? w = some e) (hk : sub.find? w = some m)
    (hitems : itemsOf g img item.inode = sub.labels) (hr : Removed g img img' item.inode e)
    (hzero : EndsInZero g img (blocksOf g img' item.inode)) {bs : List ℕ}
    (hbs : ∀ b, b ∈ bs ↔ ∃ k ∈ heads m, b ∈ blocksOf g img' k) :
    Sound g (unmarkAll img' bs) (live \ (heads m).toFinset) (n.update (Node.eraseEntry w) p) := by
  have hhead : item.inode ∈ heads n := TreeOn.heads_located hm (label_mem_heads _)
  have hbelow := (entry_located h.tree hm hk).2.2
  have h' := h.removed hm he hitems hr hzero
  obtain ⟨howned, hafter⟩ := h'.owned.unmarkAll (fun b hb => (hbs b).mp hb) hbelow
  refine ⟨h'.wellFormed.unmarkAll hbs hbelow,
    h'.tree.kept howned (fun b hb => hafter b (h'.tree.live b hb)) fun b hb => ?_, fun k hlive hnot => ?_⟩
  · have hb' := (h.mem_heads_erase hm hk).mp hb
    exact Finset.mem_sdiff.mpr ⟨h.tree.live b hb'.1, fun hbm => hb'.2 (List.mem_toFinset.mp hbm)⟩
  · obtain ⟨hlive, hfree⟩ := Finset.mem_sdiff.mp hlive
    rw [h.mem_heads_erase hm hk, not_and_not_right] at hnot
    have hkn : k ∉ heads n := fun hkn => hfree (List.mem_toFinset.mpr (hnot hkn))
    refine (h.lost k hlive hkn).kept fun b hb hnot' => ?_
    refine ⟨(h.kept hhead hr.step b hb hnot').trans (hafter b hb), Finset.mem_sdiff.mpr ⟨hb, ?_⟩, ?_⟩
    · rw [List.mem_toFinset]
      intro hbm
      obtain ⟨k', hk', rfl⟩ := mem_heads.mp hbm
      exact hnot' (TreeOn.heads_located hm (List.mem_map_of_mem (List.mem_cons_of_mem _
        (Entries.find?_allLabels_subset hk hk'))))
    · rw [h.mem_heads_erase hm hk]
      exact fun hb' => hnot' hb'.1

/-! ## Calls -/

/-- A call of `write_file` that is refused, or that has the room it needs. -/
theorem write (h : Sound g img live n) (hm : n.locate p = some m) (hlen : d.length < 2 ^ 63)
    (hsafe : d ≠ [] → flagsOf g img m.label.inode &&& flgFile ≠ 0 →
      o ≤ sizeOfNode g img m.label.inode → flagsOf g img m.label.inode &&& flgDirectory = 0 ∧
        Growable g img m.label.inode (max (sizeOfNode g img m.label.inode) (o + d.length))
          (freeBlocks g img)) :
    (∃ n', Sound g (finalState (writeFile fuel m.label.inode o d img)) live n') ∧
      ∀ k ∈ live, flagsOf g img k &&& flgDirectory ≠ 0 →
        Kept g img (finalState (writeFile fuel m.label.inode o d img)) k := by
  have hmem := h.mem_live hm
  have hsame : (∃ n', Sound g img live n') ∧
      ∀ k ∈ live, flagsOf g img k &&& flgDirectory ≠ 0 → Kept g img img k :=
    ⟨⟨n, h⟩, fun k _ _ b _ => AgreeOn.refl g img b⟩
  have hfit := transfer_fits h.owned.onVolume hlen
  rw [writeFile, bind_of_ok (h.owned.inode_run hmem), bind_of_ok (h.owned.flags_run hmem)]
  split
  · exact hsame
  next hfile =>
  by_cases hd : d = []
  · subst hd
    rw [writeFileUnchecked_nil]
    exact hsame
  by_cases ho : o ≤ sizeOfNode g img m.label.inode
  · obtain ⟨hdir, hroom, hzero⟩ := hsafe hd hfile ho
    obtain ⟨img', hrun, hw⟩ := writeFileUnchecked_run h.owned hmem fuel hd ho hfit hroom
    rw [hrun, finalState_ok]
    rw [← hw.blocks] at hzero
    refine ⟨?_, fun k hk hkdir => hw.step.kept h.owned hmem hk fun heq => hkdir (heq ▸ hdir)⟩
    cases m with
    | file item bytes => exact h.written hm hw hzero
    | dir item sub => exact absurd hdir (h.tree.located hm).1.1.1
  · rw [writeFileUnchecked_past h.owned hmem fuel hd (Nat.lt_of_not_le ho)]
    exact hsame

/-- Making a node does not touch the blocks that another one may grow by. -/
theorem growable_created {rest : List ℕ} {k newSize : ℕ} (h : Sound g img live n) (hk : k ∈ live)
    (hc : Created g img img' b flags) (hf : freeBlocks g img = b :: rest)
    (hgrow : Growable g img k newSize rest) : Growable g img' k newSize (freeBlocks g img') := by
  have hkept := hc.kept h.owned hk
  have hextra : extraBlocks g img' k newSize = extraBlocks g img k newSize := by
    rw [extraBlocks, hkept.self.size_eq, extraBlocks]
  have hnd : (b :: rest).Nodup := by
    rw [← hf]
    exact freeBlocks_nodup g img
  have hfree : ∀ x ∈ rest, g.root ≤ x ∧ x ≠ b := fun x hx =>
    ⟨h.owned.free_ge_root (by rw [hf]; exact List.mem_cons_of_mem b hx), fun heq =>
      (List.nodup_cons.mp hnd).1 (heq ▸ hx)⟩
  rw [hc.freeBlocks_eq hf]
  constructor
  · rw [hextra]
    exact hgrow.room
  · rw [hextra, hkept.blocksOf_eq]
    intro x hx
    rw [← hgrow.zero x hx]
    rcases List.mem_append.mp (List.mem_of_getLast? hx) with hold | hnew
    · exact (hkept x hold).link_eq
    · obtain ⟨hroot, hne⟩ := hfree x (List.mem_of_mem_take hnew)
      exact (hc.others x hroot hne).link_eq

/-- Create, once its parent is found. -/
theorem create (h : Sound g img live n) (hm : n.locate p = some m) (h0 : 0 ∉ w)
    (hshort : w.length < fileNameLength)
    (hsafe : flagsOf g img m.label.inode &&& flgDirectory ≠ 0 → freeBlocks g img ≠ [] →
      Growable g img m.label.inode (sizeOfNode g img m.label.inode + sizeofDirectoryItem)
        (freeBlocks g img).tail) {final : Image}
    (hfinal : final = finalState ((initNewFile flags >>= fun b =>
      appendDirectory fuel m.label.inode ⟨b, itemName w⟩) img)) :
    final = img ∨ ∃ b img₁ n', initNewFile flags img = .ok b img₁ ∧ Sound g final (insert b live) n' := by
  have hmem := h.mem_live hm
  cases hf : freeBlocks g img with
  | nil =>
    obtain ⟨e, he⟩ := initNewFile_full h.owned flags hf
    rw [bind_of_error he] at hfinal
    exact Or.inl hfinal
  | cons b rest =>
    obtain ⟨img₁, hinit, hc⟩ := initNewFile_run h.owned flags hf
    have h₁ := h.created hc
    have hmem₁ : m.label.inode ∈ insert b live := Finset.mem_insert_of_mem hmem
    have hflags : flagsOf g img₁ m.label.inode = flagsOf g img m.label.inode :=
      (hc.kept h.owned hmem).self.flags_eq
    rw [bind_of_ok hinit] at hfinal
    by_cases hdir : flagsOf g img m.label.inode &&& flgDirectory = 0
    · rw [appendDirectory_not h₁.owned hmem₁ fuel _ (hflags.symm ▸ hdir)] at hfinal
      exact Or.inr ⟨b, img₁, n, hinit, hfinal ▸ h₁⟩
    · have hgrow := hsafe hdir (by rw [hf]; exact List.cons_ne_nil b rest)
      rw [hf, List.tail_cons, ← (hc.kept h.owned hmem).self.size_eq] at hgrow
      obtain ⟨hroom, hzero⟩ := growable_created h hmem hc hf hgrow
      have hfits : DirectoryItem.Fits ⟨b, itemName w⟩ :=
        itemName_fits (hc.range.2.trans g.blocksCount_lt) hshort
      obtain ⟨img', hrun, hw⟩ :=
        appendDirectory_run h₁.owned hmem₁ fuel hfits (by rwa [hflags]) hroom
      have hblocks := hw.blocks
      rw [hfits.encode_length, Nat.max_eq_right (Nat.le_add_right _ _)] at hblocks
      rw [← hblocks] at hzero
      rw [hrun] at hfinal
      cases m with
      | file item bytes => exact absurd (h.tree.located hm).1.1 hdir
      | dir item sub =>
        obtain ⟨n', h'⟩ := h.entered hm h0 hshort hc hw hzero
        exact Or.inr ⟨b, img₁, n', hinit, hfinal ▸ h'⟩

/-- Remove, once its parent is found. The nodes that are gone are no longer marked. -/
theorem remove (h : Sound g img live n) (hm : n.locate p = some m) (h0 : 0 ∉ w)
    (hsafe : ∀ content e, readDirectory m.label.inode img = .ok content img →
      findDirectoryItem content w img = .ok e img → EndsInZero g img (rebuiltBlocks g img m.label.inode) ∧
        (e ≠ 0 → ∃ item, content.items[e]? = some item ∧ item.inode = e))
    (hf : 2 * g.blocksCount ≤ fuel) {final : Image}
    (hfinal : final = finalState ((removeFromDirectory fuel m.label.inode w >>= purgeFile fuel) img)) :
    ∃ live' n', Sound g final live' n' ∧ ∀ k, k ∈ live' ↔ k ∈ live ∧ marked final k = true := by
  have hmem := h.mem_live hm
  have hsame : ∀ {final n'}, Sound g final live n' →
      ∀ k, k ∈ live ↔ k ∈ live ∧ marked final k = true := fun h' k =>
    ⟨fun hk => ⟨hk, h'.owned.used k hk k (self_mem_blocksOf g _ k)⟩, And.left⟩
  cases m with
  | file item bytes =>
    obtain ⟨e, he⟩ := readDirectory_not h.owned hmem fun hd => hd.flags (h.tree.located hm).1.1
    have hrun : removeFromDirectory fuel item.inode w img = .error (.die e) img := by
      rw [removeFromDirectory]
      exact bind_of_error he
    rw [Node.label, bind_of_error hrun, finalState_error] at hfinal
    subst hfinal
    exact ⟨live, n, h, hsame h⟩
  | dir item sub =>
    obtain ⟨hall, -, -⟩ := h.tree.located hm
    obtain ⟨hd, hitems, hread⟩ := readDirectory_stored h.owned hmem hall.1 hall.2
    have hfind := findDirectoryItem_run hall.2 h0 img
    cases he : sub.index? w with
    | none =>
      rw [he] at hfind
      have hrun : removeFromDirectory fuel item.inode w img = .error (.die .noSuchFile) img := by
        rw [removeFromDirectory]
        exact (bind_of_ok hread).trans (bind_of_error hfind)
      rw [Node.label, bind_of_error hrun, finalState_error] at hfinal
      subst hfinal
      exact ⟨live, n, h, hsame h⟩
    | some e =>
      rw [he] at hfind
      obtain ⟨hzero, hposition⟩ := hsafe _ e hread hfind
      obtain ⟨img₁, hrun, hr⟩ := removeFromDirectory_run h.owned hmem hd (h.wellFormed.ended hmem)
        (show g.blocksCount ≤ fuel by omega) (by rw [hitems]; exact hfind)
      rw [rebuiltBlocks, ← hr.blocks] at hzero
      rw [bind_of_ok hrun] at hfinal
      by_cases he0 : e = 0
      · subst he0
        have hstop : finalState (purgeFile fuel 0 img₁) = img₁ := by
          cases fuel <;> rfl
        rw [hstop] at hfinal
        subst hfinal
        have h' := h.removed hm he hitems hr hzero
        exact ⟨live, _, h', hsame h'⟩
      · obtain ⟨m, hk, hget⟩ := Entries.find?_of_index? he
        obtain ⟨found, hfound, hinode⟩ := hposition he0
        obtain rfl := Option.some.inj (hget.symm.trans hfound)
        obtain ⟨bs, hpurge, hbs⟩ := entry_purges h.wellFormed h.tree hm hk hr hf
        rw [← hinode, hpurge, finalState_ok] at hfinal
        have h' := h.purged hm he hk hitems hr hzero hbs
        rw [← hfinal] at h'
        refine ⟨_, _, h', fun k => ⟨fun hk' => ?_, fun hk' => ?_⟩⟩
        · exact ⟨(Finset.mem_sdiff.mp hk').1, h'.owned.used k hk' k (self_mem_blocksOf g _ k)⟩
        · refine Finset.mem_sdiff.mpr ⟨hk'.1, fun hkm => ?_⟩
          have hgone : k ∈ bs := (hbs k).mpr ⟨k, List.mem_toFinset.mp hkm, self_mem_blocksOf g _ k⟩
          rw [hfinal, marked_unmarkAll] at hk'
          simp [hgone] at hk'

end Sound

end KisLinux.Net
