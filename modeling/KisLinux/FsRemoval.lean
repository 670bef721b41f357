import KisLinux.FsChainEnds

/-!
# Removing entries and subtrees

Removal rebuilds a directory from the blocks it gives up, so it never runs out
of them. Freeing a node frees everything below it first; since freed blocks keep
their bytes, each directory is read as it was, and the freed set is the union of
the chains below the node.
-/
namespace KisLinux.Fs
open ByteMemory StateRun LinkedChain NameTree

/-! ## A directory with three files -/

/-- Five blocks of 1024 bytes. -/
def threeVolume : Geometry where
  blockSize := 1024
  blocksCount := 5
  root := 1
  header_lt := by decide
  metadata_le := by decide
  root_lt := by decide
  size_lt := by decide

/-- The item of a file with a name of one character. -/
def charItem (inode : ℕ) (c : UInt8) : DirectoryItem := ⟨inode, c :: List.replicate 255 0⟩

/-- A root directory with the empty files `a`, `b` and `c`; the last of them is in
block 2, which is also its position. -/
def threeImage : Image where
  bytes a :=
    if a < 1024 then (threeVolume.superblock ++ [31]).getD a 0
    else if a < 1053 then (header 1 792 flgDirectory).getD (a - 1024) 0
    else if a < 2048 then
      ([(1053, 3), (1061, 97), (1317, 4), (1325, 98), (1581, 2), (1589, 99)].lookup a).getD 0
    else if a < 3072 then (header 2 0 flgFile).getD (a - 2048) 0
    else if a < 4096 then (header 3 0 flgFile).getD (a - 3072) 0
    else (header 4 0 flgFile).getD (a - 4096) 0
  mapped := 5120
  stores := []

def threeEntries : TreeEntries :=
  .file [97] (charItem 3 97) [] (.file [98] (charItem 4 98) [] (.file [99] (charItem 2 99) [] .nil))

theorem threeImage_treeOn : TreeOn threeVolume threeImage {1, 2, 3, 4} (.dir ⟨1, []⟩ threeEntries) where
  owned := (ChainsApart.of_heads ⟨rfl, by decide +kernel, fun s hs => absurd hs List.not_mem_nil⟩
    (by decide) (by decide +kernel)).owned (by decide +kernel)
  root := rfl
  nodup := by decide
  live := by decide
  all := by
    refine ⟨⟨?_, ?_⟩, ⟨⟨?_, ?_⟩, ?_⟩, ⟨?_, ?_⟩, ⟨⟨?_, ?_⟩, ?_⟩, ⟨?_, ?_⟩, ⟨⟨?_, ?_⟩, ?_⟩, ⟨?_, ?_⟩, trivial⟩
    all_goals decide +kernel

theorem threeImage_wellFormed : WellFormed threeVolume threeImage {1, 2, 3, 4} :=
  .of_owned threeImage_treeOn.owned (by decide +kernel) (by decide +kernel)

/-! ## One entry -/

/-- Comparing a name with a field that is longer never leaves the field, whether
or not the field holds a string. -/
theorem strcmpEq_field {name field : List UInt8} (rest : List UInt8) (h0 : 0 ∉ name)
    (hlen : name.length < field.length) :
    strcmpEq name (field ++ rest) = some (decide (cString field = some name)) := by
  induction field generalizing name with
  | nil => exact absurd hlen (Nat.not_lt_zero _)
  | cons b field ih =>
    cases name with
    | nil =>
      rw [List.cons_append, strcmpEq, cString]
      by_cases hb : b = 0
      · simp [hb]
      · simp [hb]
    | cons c name =>
      rw [List.mem_cons, not_or] at h0
      rw [List.cons_append, strcmpEq, cString]
      by_cases hc : c = b
      · subst hc
        rw [if_pos rfl, ih h0.2 (Nat.lt_of_succ_lt_succ hlen), if_neg (Ne.symm h0.1)]
        simp
      · rw [if_neg hc]
        by_cases hb : b = 0
        · simp [hb]
        · simp [hb, Ne.symm hc]

/-- Whether an item is found under a name. -/
def DirectoryItem.hasName (name : List UInt8) (item : DirectoryItem) : Bool :=
  decide (cString item.name = some name)

/-- The search returns the first item of that name. -/
theorem findItem_first {name : List UInt8} {items : List DirectoryItem} (h0 : 0 ∉ name)
    (hlen : ∀ item ∈ items, name.length < item.name.length)
    (hname : ∃ item ∈ items, item.hasName name = true) (i : ℕ) (img : Image) :
    ∃ e, findItem name items i img = .ok (i + e) img ∧
      items.eraseIdx e = items.eraseP (DirectoryItem.hasName name) := by
  induction items generalizing i with
  | nil =>
    obtain ⟨item, hitem, -⟩ := hname
    cases hitem
  | cons item items ih =>
    rw [findItem, nameBytes_cons, strcmpEq_field _ h0 (hlen item (by simp))]
    by_cases hfirst : item.hasName name = true
    · exact ⟨0, by simp [of_decide_eq_true hfirst], by simp [hfirst]⟩
    · have hrest : ∃ item ∈ items, item.hasName name = true := by
        obtain ⟨x, hx, hxname⟩ := hname
        rcases List.mem_cons.mp hx with rfl | hx
        · exact absurd hxname hfirst
        · exact ⟨x, hx, hxname⟩
      obtain ⟨e, hrun, herase⟩ := ih (fun x hx => hlen x (List.mem_cons_of_mem _ hx)) hrest (i + 1)
      refine ⟨e + 1, ?_, ?_⟩
      · rw [DirectoryItem.hasName, decide_eq_true_eq] at hfirst
        simp only [hfirst, decide_false]
        rw [hrun, Nat.add_assoc, Nat.add_comm 1 e]
      · rw [List.eraseIdx_cons_succ, herase, List.eraseP_cons_of_neg hfirst]

/-- A name that a directory holds is found at the position of its first item. -/
theorem findDirectoryItem_first {g : Geometry} {img : Image} {n : ℕ} {name : List UInt8}
    (hd : IsDirectory g img n) (hname : ∃ item ∈ itemsOf g img n, cString item.name = some name) :
    ∃ e, findDirectoryItem ⟨itemsOf g img n⟩ name img = .ok e img ∧
      (itemsOf g img n).eraseIdx e = (itemsOf g img n).eraseP (DirectoryItem.hasName name) := by
  obtain ⟨found, hfound, hfoundName⟩ := hname
  have hfits := hd.items_spec.1
  have hshort := cString_length_lt hfoundName
  rw [(hfits found hfound).name_length] at hshort
  obtain ⟨e, hfind, herase⟩ := findItem_first (zero_notMem_of_cString hfoundName)
    (fun item hitem => by rwa [(hfits item hitem).name_length])
    ⟨found, hfound, decide_eq_true hfoundName⟩ 0 img
  rw [Nat.zero_add] at hfind
  exact ⟨e, hfind, herase⟩

/-- The directory holds its other items. -/
theorem Removed.items {g : Geometry} {img img' : Image} {n e : ℕ} (hr : Removed g img img' n e)
    (hd : IsDirectory g img n) :
    IsDirectory g img' n ∧ itemsOf g img' n = (itemsOf g img n).eraseIdx e := by
  have hfits : ∀ item ∈ (itemsOf g img n).eraseIdx e, item.Fits := fun item hitem =>
    hd.items_spec.1 item ((List.eraseIdx_sublist _ _).subset hitem)
  exact ⟨⟨by rw [hr.step.flags]; exact hd.flags, aligned_of_content hfits hr.content⟩,
    itemsOf_eq hfits hr.content⟩

/-- Removing a name that a directory holds completes; the directory then holds
its other items in order, and no other node is changed. -/
theorem removeFromDirectory_first {g : Geometry} {img : Image} {live : Finset ℕ} {n fuel : ℕ}
    {name : List UInt8} (h : WellFormed g img live) (hn : n ∈ live) (hd : IsDirectory g img n)
    (hname : ∃ item ∈ itemsOf g img n, cString item.name = some name) (hf : g.blocksCount ≤ fuel) :
    readDirectory n img = .ok ⟨itemsOf g img n⟩ img ∧
      ∃ img' e, removeFromDirectory fuel n name img = .ok e img' ∧
        readDirectory n img' =
          .ok ⟨(itemsOf g img n).eraseP fun item => decide (cString item.name = some name)⟩ img' ∧
        ∀ m ∈ live, m ≠ n → sizeOfNode g img' m = sizeOfNode g img m ∧
          blocksOf g img' m = blocksOf g img m ∧ content g img' m = content g img m := by
  have ho := h.owned
  obtain ⟨e, hfind, herase⟩ := findDirectoryItem_first hd hname
  obtain ⟨img', hrun, hr⟩ := removeFromDirectory_run ho hn hd (h.ended hn) hf hfind
  refine ⟨readDirectory_run ho hn hd, img', e, hrun, ?_, fun m hm hne => ?_⟩
  · obtain ⟨hd', hitems⟩ := hr.items hd
    rw [readDirectory_run (hr.step.owned ho hn) hn hd', hitems, herase]
    rfl
  · have hkept := hr.step.kept ho hn hm hne
    exact ⟨hkept.self.size_eq, hkept.blocksOf_eq, hkept.content_eq⟩

theorem removeFromDirectory_first_middle : ∃ img' e,
    removeFromDirectory 5 1 [98] threeImage = .ok e img' ∧
      readDirectory 1 img' = .ok ⟨[charItem 3 97, charItem 2 99]⟩ img' ∧
      ∀ m ∈ ({2, 3, 4} : Finset ℕ), blocksOf threeVolume img' m = [m] ∧
        content threeVolume img' m = [] := by
  have hitems : itemsOf threeVolume threeImage 1 = [charItem 3 97, charItem 4 98, charItem 2 99] := by
    decide +kernel
  obtain ⟨-, img', e, hrun, hread, hkept⟩ := @removeFromDirectory_first _ _ _ 1 5 [98]
    threeImage_wellFormed (by decide) ⟨by decide +kernel, by decide +kernel⟩
    (by rw [hitems]; exact ⟨charItem 4 98, by simp, by decide⟩) (by decide)
  rw [hitems] at hread
  have hold : ∀ m ∈ ({2, 3, 4} : Finset ℕ), m ∈ ({1, 2, 3, 4} : Finset ℕ) ∧ m ≠ 1 ∧
      blocksOf threeVolume threeImage m = [m] ∧ content threeVolume threeImage m = [] := by
    decide +kernel
  refine ⟨img', e, hrun, hread, fun m hm => ?_⟩
  obtain ⟨hlive, hne, hblocks, hcontent⟩ := hold m hm
  obtain ⟨-, hb, hc⟩ := hkept m hlive hne
  exact ⟨hb.trans hblocks, hc.trans hcontent⟩

/-! ## A subtree -/

/-- Live nodes whose chains end, so that each of them can be freed. -/
structure Purgeable (g : Geometry) (img : Image) (live : Finset ℕ) : Prop where
  owned : Owned g img live
  ended : ∀ n ∈ live, Ended g img n

/-- A tree on an image whose directories are exactly encoded; the names of the
entries may be any bytes. -/
structure LaidOut (g : Geometry) (img : Image) (live : Finset ℕ) (t : TreeNode) : Prop where
  nodup : (heads t).Nodup
  live : ∀ b ∈ heads t, b ∈ live
  all : t.All (fun _ item => item.Fits) (stored g img)

/-- The call frees the chains of the nodes `hs` and does nothing else. -/
def Purges (g : Geometry) (img : Image) (x : FsM Unit) (hs : List ℕ) : Prop :=
  ∃ bs, x img = .ok () (unmarkAll img bs) ∧ ∀ b, b ∈ bs ↔ ∃ n ∈ hs, b ∈ blocksOf g img n

section Subtree

variable {g : Geometry} {img : Image} {live : Finset ℕ}

/-- Freeing some nodes leaves the others as they are. -/
theorem Owned.unmarkAll (h : Owned g img live) {bs hs : List ℕ}
    (hbs : ∀ b ∈ bs, ∃ n ∈ hs, b ∈ blocksOf g img n) (hhs : ∀ n ∈ hs, n ∈ live) :
    Owned g (unmarkAll img bs) (live \ hs.toFinset) ∧
      ∀ m ∈ live, Kept g img (Fs.unmarkAll img bs) m := by
  have hsub : live \ hs.toFinset ⊆ live := Finset.sdiff_subset
  have howner : ∀ b ∈ bs, ∃ n ∈ live, n ∈ hs ∧ b ∈ blocksOf g img n := fun b hb => by
    obtain ⟨n, hn, hmem⟩ := hbs b hb
    exact ⟨n, hhs n hn, hn, hmem⟩
  have hfreed : Freed g img (Fs.unmarkAll img bs) bs := Freed.unmarkAll h.onVolume fun b hb => by
    obtain ⟨n, hn, -, hmem⟩ := howner b hb
    exact ((h.chains n hn).range b hmem).2
  have hkept : ∀ m ∈ live, Kept g img (Fs.unmarkAll img bs) m := fun m hm =>
    hfreed.kept (h.chains m hm)
  refine ⟨h.kept hsub hfreed.onVolume (fun b hb => ?_) (fun m hm => hkept m (hsub hm))
    fun m hm b hb => ?_, hkept⟩
  · have hnot : b ∉ bs := fun hmem => by
      obtain ⟨n, hn, -, hmem⟩ := howner b hmem
      have := ((h.chains n hn).range b hmem).1
      omega
    rw [marked_unmarkAll, h.metadata b hb]
    simp [hnot]
  · have hnot : b ∉ bs := fun hmem => by
      obtain ⟨n, hn, hhs', hmem⟩ := howner b hmem
      rw [h.eq_of_mem hn (hsub hm) hmem hb] at hhs'
      exact (Finset.mem_sdiff.mp hm).2 (List.mem_toFinset.mpr hhs')
    rw [marked_unmarkAll, h.used m (hsub hm) b hb]
    simp [hnot]

theorem WellFormed.unmarkAll (h : WellFormed g img live) {bs hs : List ℕ}
    (hbs : ∀ b, b ∈ bs ↔ ∃ n ∈ hs, b ∈ blocksOf g img n) (hhs : ∀ n ∈ hs, n ∈ live) :
    WellFormed g (unmarkAll img bs) (live \ hs.toFinset) := by
  obtain ⟨howned, hkept⟩ := h.owned.unmarkAll (fun b hb => (hbs b).mp hb) hhs
  refine .of_owned howned (fun m hm => ?_) fun b hb hmarked => ?_
  · have hm : m ∈ live := Finset.sdiff_subset hm
    exact (hkept m hm).ended h.owned hm (h.ended hm)
  · rw [marked_unmarkAll, Bool.and_eq_true, Bool.not_eq_true', decide_eq_false_iff_not] at hmarked
    refine ((h.table b hb).mp hmarked.1).imp_right ?_
    rintro ⟨m, hm, hmem⟩
    refine ⟨m, Finset.mem_sdiff.mpr ⟨hm, fun hms => hmarked.2 ?_⟩, by rwa [(hkept m hm).blocksOf_eq]⟩
    exact (hbs b).mpr ⟨m, List.mem_toFinset.mp hms, hmem⟩

theorem Purgeable.unmarkAll (h : Purgeable g img live) {bs hs : List ℕ}
    (hbs : ∀ b ∈ bs, ∃ n ∈ hs, b ∈ blocksOf g img n) (hhs : ∀ n ∈ hs, n ∈ live) :
    Purgeable g (unmarkAll img bs) (live \ hs.toFinset) ∧
      ∀ m ∈ live, Kept g img (Fs.unmarkAll img bs) m := by
  obtain ⟨howned, hkept⟩ := h.owned.unmarkAll hbs hhs
  refine ⟨⟨howned, fun m hm => ?_⟩, hkept⟩
  have hm : m ∈ live := Finset.sdiff_subset hm
  exact (hkept m hm).ended h.owned hm (h.ended m hm)

/-- Freeing one part and then another. -/
theorem Purges.bind {x y : FsM Unit} {hs hs' : List ℕ} (h : Purgeable g img live)
    (hhs : ∀ n ∈ hs, n ∈ live) (hhs' : ∀ n ∈ hs', n ∈ live ∧ n ∉ hs) (hx : Purges g img x hs)
    (hy : ∀ img', Purgeable g img' (live \ hs.toFinset) → (∀ m ∈ live, Kept g img img' m) →
      Purges g img' y hs') : Purges g img (x >>= fun _ => y) (hs ++ hs') := by
  obtain ⟨bs, hrun, hmem⟩ := hx
  obtain ⟨hafter, hkept⟩ := h.unmarkAll (fun b hb => (hmem b).mp hb) hhs
  obtain ⟨cs, hrun', hmem'⟩ := hy _ hafter hkept
  refine ⟨bs ++ cs, by rw [bind_of_ok hrun, hrun', unmarkAll_append], fun b => ?_⟩
  have hsame : (∃ n ∈ hs', b ∈ blocksOf g (unmarkAll img bs) n) ↔ ∃ n ∈ hs', b ∈ blocksOf g img n :=
    exists_congr fun n => and_congr_right fun hn => by rw [(hkept n (hhs' n hn).1).blocksOf_eq]
  rw [List.mem_append, hmem, hmem', hsame, ← exists_or]
  refine exists_congr fun n => ?_
  rw [List.mem_append, or_and_right]

theorem purges_nil (img : Image) : Purges g img (pure ()) [] :=
  ⟨[], rfl, by simp⟩

/-- Freeing the chain of one node. -/
theorem purgeBlocks_purges (h : Purgeable g img live) {n fuel : ℕ} (hn : n ∈ live)
    (hf : g.blocksCount ≤ fuel) : Purges g img (purgeBlocks fuel n) [n] :=
  ⟨blocksOf g img n, purgeBlocks_node h.owned hn (h.ended n hn) hf, by simp⟩

/-- A directory is read, its entries are freed, and then its own chain is. -/
theorem purgeFile_dir {item : DirectoryItem} {sub : TreeEntries} {fuel : ℕ}
    (h : Purgeable g img live) (hmem : item.inode ∈ live)
    (hsub : ∀ b ∈ sub.allLabels.map DirectoryItem.inode, b ∈ live)
    (hnot : item.inode ∉ sub.allLabels.map DirectoryItem.inode)
    (hdir : (stored g img).dir item sub.labels) (hfits : ∀ k ∈ sub.labels, k.Fits)
    (hf : g.blocksCount ≤ fuel)
    (hentries : Purges g img (sub.labels.forM fun k => purgeFile fuel k.inode)
      (sub.allLabels.map DirectoryItem.inode)) :
    Purges g img (purgeFile (fuel + 1) item.inode)
      (sub.allLabels.map DirectoryItem.inode ++ [item.inode]) := by
  have hd : IsDirectory g img item.inode := ⟨hdir.1, aligned_of_content hfits hdir.2⟩
  have hread := readDirectory_run h.owned hmem hd
  rw [itemsOf_eq hfits hdir.2] at hread
  have hown : ∀ n ∈ [item.inode], n ∈ live ∧ n ∉ sub.allLabels.map DirectoryItem.inode := by
    intro n hn
    obtain rfl := List.mem_singleton.mp hn
    exact ⟨hmem, hnot⟩
  obtain ⟨bs, hrun, hbs⟩ := Purges.bind h hsub hown hentries fun img' h' _ =>
    purgeBlocks_purges (n := item.inode) h'
      (Finset.mem_sdiff.mpr ⟨hmem, by rwa [List.mem_toFinset]⟩) hf
  refine ⟨bs, ?_, hbs⟩
  rw [purgeFile, bind_of_ok (h.owned.inode_run hmem), bind_of_ok (h.owned.flags_run hmem)]
  simp only [ne_eq, hdir.1, not_false_eq_true, if_true]
  rw [bind_of_ok hread]
  exact hrun

theorem purgeFile_file {item : DirectoryItem} {d : List UInt8} {fuel : ℕ}
    (h : Purgeable g img live) (hmem : item.inode ∈ live) (hfile : (stored g img).file item d)
    (hf : g.blocksCount ≤ fuel) : Purges g img (purgeFile (fuel + 1) item.inode) [item.inode] := by
  obtain ⟨bs, hrun, hbs⟩ := purgeBlocks_purges h hmem hf
  refine ⟨bs, ?_, hbs⟩
  rw [purgeFile, bind_of_ok (h.owned.inode_run hmem), bind_of_ok (h.owned.flags_run hmem),
    if_neg (by simpa using hfile.1)]
  exact hrun

theorem Purges.congr {x : FsM Unit} {hs hs' : List ℕ} (h : Purges g img x hs)
    (hmem : ∀ n, n ∈ hs ↔ n ∈ hs') : Purges g img x hs' := by
  obtain ⟨bs, hrun, hbs⟩ := h
  exact ⟨bs, hrun, fun b => by simp only [hbs, hmem]⟩

/-- The loop of `purge_file` over the entries of a directory: what is below an
entry is freed before the next entry is looked at. -/
theorem purgeEntries_run {t : TreeEntries} {fuel : ℕ} (h : Purgeable g img live)
    (hall : t.All (fun _ item => item.Fits) (stored g img))
    (hnd : (t.allLabels.map DirectoryItem.inode).Nodup)
    (hlive : ∀ b ∈ t.allLabels.map DirectoryItem.inode, b ∈ live)
    (hf : g.blocksCount + t.allLabels.length ≤ fuel) :
    Purges g img (t.labels.forM fun k => purgeFile fuel k.inode)
      (t.allLabels.map DirectoryItem.inode) := by
  induction t generalizing img live fuel with
  | nil => exact purges_nil img
  | file x item d rest ih =>
    simp only [Entries.allLabels, List.map_cons, List.length_cons] at hnd hlive hf ⊢
    obtain ⟨f, rfl⟩ : ∃ f, fuel = f + 1 := ⟨fuel - 1, by omega⟩
    obtain ⟨hnot, hnd⟩ := List.nodup_cons.mp hnd
    have hhead := purgeFile_file h (hlive _ (by simp)) hall.2.1 (show g.blocksCount ≤ f by omega)
    have hrest : ∀ b ∈ rest.allLabels.map DirectoryItem.inode, b ∈ live ∧ b ∉ [item.inode] :=
      fun b hb => ⟨hlive b (List.mem_cons_of_mem _ hb), by
        rw [List.mem_singleton]
        rintro rfl
        exact hnot hb⟩
    refine Purges.bind h (by simpa using hlive _ (List.mem_cons_self)) hrest hhead
      fun img' h' hkept => ih h' (Entries.all_mono hall.2.2 fun k hk => ?_) hnd (fun b hb => ?_)
        (by omega)
    · exact (hkept _ (hrest _ (List.mem_map_of_mem hk)).1).below
    · exact Finset.mem_sdiff.mpr ⟨(hrest b hb).1, by simpa using (hrest b hb).2⟩
  | dir x item sub rest ihsub ih =>
    simp only [Entries.allLabels, List.map_cons, List.map_append, List.length_cons,
      List.length_append] at hnd hlive hf ⊢
    obtain ⟨f, rfl⟩ : ∃ f, fuel = f + 1 := ⟨fuel - 1, by omega⟩
    obtain ⟨hnot, hnd⟩ := List.nodup_cons.mp hnd
    obtain ⟨hndsub, hndrest, hapart⟩ := List.nodup_append.mp hnd
    rw [List.mem_append, not_or] at hnot
    have hsublive : ∀ b ∈ sub.allLabels.map DirectoryItem.inode, b ∈ live := fun b hb =>
      hlive b (by simp only [List.mem_cons, List.mem_append]; exact Or.inr (Or.inl hb))
    have hentries := ihsub h hall.2.1.2 hndsub hsublive (show g.blocksCount + _ ≤ f by omega)
    have hfits : ∀ k ∈ sub.labels, k.Fits := fun k hk =>
      (Entries.all_names hall.2.1.2 k hk).elim fun _ hk => hk
    have hhead := purgeFile_dir h (hlive _ (by simp)) hsublive hnot.1 hall.2.1.1 hfits
      (show g.blocksCount ≤ f by omega) hentries
    have hrest : ∀ b ∈ rest.allLabels.map DirectoryItem.inode,
        b ∈ live ∧ b ∉ sub.allLabels.map DirectoryItem.inode ++ [item.inode] := fun b hb => by
      refine ⟨hlive b (by simp only [List.mem_cons, List.mem_append]; exact Or.inr (Or.inr hb)), ?_⟩
      rw [List.mem_append, List.mem_singleton, not_or]
      refine ⟨fun hsub => hapart b hsub b hb rfl, ?_⟩
      rintro rfl
      exact hnot.2 hb
    refine (Purges.bind h (fun b hb => ?_) hrest hhead fun img' h' hkept =>
      ih h' (Entries.all_mono hall.2.2 fun k hk => ?_) hndrest (fun b hb => ?_)
        (by omega)).congr fun n => ?_
    · rcases List.mem_append.mp hb with hb | hb
      · exact hsublive b hb
      · obtain rfl := List.mem_singleton.mp hb
        exact hlive _ (by simp)
    · exact (hkept _ (hrest _ (List.mem_map_of_mem hk)).1).below
    · exact Finset.mem_sdiff.mpr ⟨(hrest b hb).1, by rw [List.mem_toFinset]; exact (hrest b hb).2⟩
    · simp only [List.mem_append, List.mem_cons, List.not_mem_nil, or_false]
      exact ⟨fun hn => by
        rcases hn with (hn | hn) | hn
        · exact Or.inr (Or.inl hn)
        · exact Or.inl hn
        · exact Or.inr (Or.inr hn), fun hn => by
        rcases hn with hn | hn | hn
        · exact Or.inl (Or.inr hn)
        · exact Or.inl (Or.inl hn)
        · exact Or.inr hn⟩

theorem LaidOut.purges {t : TreeNode} {fuel : ℕ} (h : Purgeable g img live)
    (ht : LaidOut g img live t) (hf : g.blocksCount + t.allLabels.length ≤ fuel) :
    Purges g img (purgeFile fuel t.label.inode) (heads t) := by
  have hall := ht.all
  have hnd := ht.nodup
  have hlive := ht.live
  cases t with
  | file item d =>
    simp only [Node.allLabels, List.length_singleton] at hf
    obtain ⟨f, rfl⟩ : ∃ f, fuel = f + 1 := ⟨fuel - 1, by omega⟩
    exact purgeFile_file h (hlive _ (label_mem_heads _)) hall (by omega)
  | dir item sub =>
    simp only [heads, Node.allLabels, List.map_cons, List.length_cons] at hf hnd hlive ⊢
    obtain ⟨f, rfl⟩ : ∃ f, fuel = f + 1 := ⟨fuel - 1, by omega⟩
    obtain ⟨hnot, hnd⟩ := List.nodup_cons.mp hnd
    have hsub : ∀ b ∈ sub.allLabels.map DirectoryItem.inode, b ∈ live := fun b hb =>
      hlive b (List.mem_cons_of_mem _ hb)
    refine (purgeFile_dir h (hlive _ (by simp)) hsub hnot hall.1 (fun k hk =>
      (Entries.all_names hall.2 k hk).elim fun _ hk => hk) (by omega)
      (purgeEntries_run h hall.2 hnd hsub (by omega))).congr fun n => ?_
    rw [List.mem_append, List.mem_singleton, List.mem_cons]
    exact Or.comm

/-- Every node of a tree that is laid out is laid out. -/
theorem LaidOut.node {t m : TreeNode} (ht : LaidOut g img live t) (hm : m ∈ t.nodes) :
    LaidOut g img live m := by
  have hsub : (heads m).Sublist (heads t) := (Node.nodes_allLabels hm).map _
  exact ⟨ht.nodup.sublist hsub, fun b hb => ht.live b (hsub.subset hb), Node.all_nodes ht.all hm⟩

/-- Different nodes have different heads, and these are data blocks. -/
theorem LaidOut.length_lt {t : TreeNode} (h : Owned g img live) (ht : LaidOut g img live t) :
    t.allLabels.length < g.blocksCount := by
  have hcard : (heads t).toFinset.card ≤ (Finset.Ico g.root g.blocksCount).card := by
    refine Finset.card_le_card fun b hb => ?_
    rw [List.mem_toFinset] at hb
    exact Finset.mem_Ico.mpr (h.mem_range (ht.live b hb))
  rw [List.toFinset_card_of_nodup ht.nodup, Nat.card_Ico, heads, List.length_map] at hcard
  have hroot := g.root_pos
  have hlt := g.root_lt
  omega

/-- `purge_file` on any node of the tree ends, and it clears exactly the bits of
the blocks of that node and of everything below it. -/
theorem purgeFile_subtree {t m : TreeNode} (h : WellFormed g img live) (ht : LaidOut g img live t)
    (hm : m ∈ t.nodes) :
    ∃ img', (∀ fuel, 2 * g.blocksCount ≤ fuel → purgeFile fuel m.label.inode img = .ok () img') ∧
      (∀ b, marked img' b = true ↔
        marked img b = true ∧ ¬ ∃ n ∈ heads m, b ∈ blocksOf g img n) ∧
      ∀ a, a < lookupTable ∨ lookupTable + (g.blocksCount + 7) / 8 ≤ a →
        img'.bytes a = img.bytes a := by
  have hmem := ht.node hm
  have hlen := hmem.length_lt h.owned
  obtain ⟨bs, hrun, hbs⟩ := hmem.purges ⟨h.owned, fun n hn => h.ended hn⟩
    (show g.blocksCount + m.allLabels.length ≤ 2 * g.blocksCount by omega)
  refine ⟨_, fun fuel hf => purgeFile_mono hf _ _ _ _ hrun, fun b => ?_, fun a ha => ?_⟩
  · rw [marked_unmarkAll, Bool.and_eq_true, Bool.not_eq_true', decide_eq_false_iff_not, hbs]
  · refine bytes_unmarkAll (fun b hb => ?_) ha
    obtain ⟨n, hn, hnb⟩ := (hbs b).mp hb
    exact ((h.owned.chains n (hmem.live n hn)).range b hnb).2

end Subtree

theorem TreeOn.laidOut {g : Geometry} {img : Image} {live : Finset ℕ} {t : TreeNode}
    (h : TreeOn g img live t) : LaidOut g img live t :=
  ⟨h.nodup, h.live, Node.all_imp h.all fun _ _ hx => hx.fits⟩

/-- Freeing the root of the small tree frees the two blocks of its nodes. -/
theorem purgeFile_subtree_all : ∃ img', purgeFile 8 1 treeImage = .ok () img' ∧
    marked img' 0 = true ∧ marked img' 1 = false ∧ marked img' 2 = false := by
  obtain ⟨img', hrun, hmarks, -⟩ := purgeFile_subtree (t := tree) (m := tree) treeImage_wellFormed
    treeImage_treeOn.laidOut List.mem_cons_self
  have hzero : ¬ ∃ n ∈ heads tree, 0 ∈ blocksOf treeVolume treeImage n := by decide +kernel
  have hone : ∃ n ∈ heads tree, 1 ∈ blocksOf treeVolume treeImage n := by decide +kernel
  have htwo : ∃ n ∈ heads tree, 2 ∈ blocksOf treeVolume treeImage n := by decide +kernel
  refine ⟨img', hrun 8 (by decide), (hmarks 0).mpr ⟨by decide +kernel, hzero⟩, ?_, ?_⟩
  · exact Bool.eq_false_iff.mpr fun hm => ((hmarks 1).mp hm).2 hone
  · exact Bool.eq_false_iff.mpr fun hm => ((hmarks 2).mp hm).2 htwo

end KisLinux.Fs
