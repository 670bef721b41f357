import KisLinux.FsRemoval
import KisLinux.NetParents

/-!
# Remove

`remove_from_directory` returns the position of the item that it takes out, and
`fsop_Remove` hands it to `purge_file` as a block index. What is freed is then
the removed node only when the item stands at the position of its own inode.
-/
namespace KisLinux.Net
open ByteMemory StateRun NameTree Fs

/-! ## What `purge_file` does to the bit of its argument -/

section Freed

variable {g : Geometry} {img img' : Image}

theorem clearBit_keeps {P : Image → Prop} (hP : ∀ img b, P img → P (img.mark b false)) (b : ℕ) :
    Keeps (fun img => OnVolume g img ∧ P img) (markBlockInLookupTable b false) := by
  rintro img ⟨h, hx⟩
  by_cases hb : b < g.blocksCount
  · rw [mark_run h false hb]
    exact ⟨h.mark, hP img b hx⟩
  · rw [mark_past h false (Nat.le_of_not_lt hb)]
    exact ⟨h, hx⟩

/-- What clearing a bit keeps, freeing keeps. -/
theorem purgeWalk_keeps {P : Image → Prop} (hP : ∀ img b, P img → P (img.mark b false))
    (fuel b : ℕ) (inode : Ptr) :
    Keeps (fun img => OnVolume g img ∧ P img) (purgeWalk fuel b inode) := by
  induction fuel generalizing b inode with
  | zero =>
    cases inode with
    | none => exact Keeps.pure _
    | some a => exact Keeps.throw _
  | succ fuel ih =>
    cases inode with
    | none => exact Keeps.pure _
    | some a =>
      exact (clearBit_keeps hP b).bind fun _ => ((getField_readOnly _ _).keeps _).bind fun next =>
        ((getNextInode_readOnly _).keeps _).bind fun inode => ih next inode

theorem purgeFile_keeps {P : Image → Prop} (hP : ∀ img b, P img → P (img.mark b false))
    (fuel b : ℕ) : Keeps (fun img => OnVolume g img ∧ P img) (purgeFile fuel b) := by
  induction fuel generalizing b with
  | zero => exact Keeps.throw _
  | succ fuel ih =>
    have hblocks : Keeps (fun img => OnVolume g img ∧ P img) (purgeBlocks fuel b) :=
      ((getInode_readOnly b).keeps _).bind fun inode => purgeWalk_keeps hP fuel b inode
    refine ((getInode_readOnly b).keeps _).bind fun inode =>
      ((getFlags_readOnly inode).keeps _).bind fun flags => Keeps.ite ?_ hblocks
    exact ((readDirectory_readOnly b).keeps _).bind fun content =>
      (Keeps.forM fun item _ => ih item.inode).bind fun _ => hblocks

theorem clear_mark {x : ℕ} (img : Image) (b : ℕ) (h : marked img x = false) :
    marked (img.mark b false) x = false := by
  rw [marked_mark]
  split
  · rfl
  · exact h

theorem purgeBlocks_clears {fuel b : ℕ} (h : OnVolume g img) (h0 : 0 < b) (hb : b < g.blocksCount)
    (hrun : purgeBlocks fuel b img = .ok () img') : marked img' b = false := by
  rw [purgeBlocks, bind_of_ok (getInode_run h h0 hb)] at hrun
  cases fuel with
  | zero => cases hrun
  | succ fuel =>
    rw [purgeWalk, bind_of_ok (mark_run h false hb)] at hrun
    obtain ⟨next, s₁, hnext, hrest⟩ := bind_eq_ok.mp hrun
    obtain rfl := (getField_readOnly _ _).state_eq hnext
    obtain ⟨inode, s₂, hinode, hwalk⟩ := bind_eq_ok.mp hrest
    obtain rfl := (getNextInode_readOnly _).state_eq hinode
    have hclear : marked (img.mark b false) b = false := by rw [marked_mark, if_pos rfl]
    exact ((purgeWalk_keeps (P := fun img => marked img b = false) clear_mark _ _ _).of_ok hwalk
      ⟨h.mark, hclear⟩).2

/-- A `purge_file` that returns had a block to free, and the bit of that block is
clear at the end. -/
theorem purgeFile_clears {fuel b : ℕ} (h : OnVolume g img) (hrun : purgeFile fuel b img = .ok () img') :
    0 < b ∧ b < g.blocksCount ∧ marked img' b = false := by
  cases fuel with
  | zero => cases hrun
  | succ fuel =>
    rw [purgeFile] at hrun
    have h0 : 0 < b := by
      by_contra hzero
      obtain rfl : b = 0 := by omega
      cases hrun
    have hb : b < g.blocksCount := by
      by_contra hle
      rw [bind_of_error (getInode_past h (Nat.le_of_not_lt hle))] at hrun
      cases hrun
    rw [bind_of_ok (getInode_run h h0 hb), bind_of_ok (getFlags_run h hb)] at hrun
    refine ⟨h0, hb, ?_⟩
    split at hrun
    · obtain ⟨content, s₁, hread, hrest⟩ := bind_eq_ok.mp hrun
      obtain rfl := (readDirectory_readOnly b).state_eq hread
      obtain ⟨_, s₂, hloop, hblocks⟩ := bind_eq_ok.mp hrest
      have hentries : Keeps (fun img => OnVolume g img ∧ True)
          (content.items.forM fun item => purgeFile fuel item.inode) :=
        Keeps.forM fun item _ => purgeFile_keeps (fun _ _ _ => trivial) fuel item.inode
      have hvolume := (hentries.of_ok hloop ⟨h, trivial⟩).1
      exact purgeBlocks_clears hvolume h0 hb hblocks
    · exact purgeBlocks_clears h h0 hb hrun

end Freed

/-! ## The entry and its node -/

/-- The entry `w` of the directory `dir` is gone and its node `m` is freed: the bits
that were cleared are those of the blocks of `m`, of everything below it, and of
the blocks that the shorter directory does without. -/
structure EntryRemoved (g : Geometry) (img img' : Image) (live : Finset ℕ) (dir : ℕ) (w : List UInt8)
    (m : TreeNode) : Prop where
  entries : readDirectory dir img' =
    .ok ⟨(itemsOf g img dir).eraseP (DirectoryItem.hasName w)⟩ img'
  freed : ∀ b < g.blocksCount, marked img b = true → (marked img' b = false ↔
    (∃ k ∈ heads m, b ∈ blocksOf g img k) ∨ b ∈ blocksOf g img dir ∧ b ∉ blocksOf g img' dir)
  others : ∀ k ∈ live, k ≠ dir → k ∉ heads m → SameNode g img img' k

section Entry

variable {g : Geometry} {img img' : Image} {live : Finset ℕ} {n m : TreeNode} {item : DirectoryItem}
  {sub : TreeEntries} {cs : List (List UInt8)} {w : List UInt8} {e fuel : ℕ}

/-- The directory itself is not below its entries. -/
theorem dir_notMem (htree : TreeOn g img live n) (hm : n.locate cs = some (.dir item sub))
    (hk : sub.find? w = some m) : item.inode ∉ heads m := by
  intro hmem
  obtain ⟨k, hkm, heq⟩ := mem_heads.mp hmem
  exact htree.sub_ne hm (Entries.find?_allLabels_subset hk hkm) heq

/-- The node is laid out, and so are its own nodes. -/
theorem entry_located (htree : TreeOn g img live n) (hm : n.locate cs = some (.dir item sub))
    (hk : sub.find? w = some m) :
    m.All Named (stored g img) ∧ (heads m).Nodup ∧ ∀ b ∈ heads m, b ∈ live := by
  have hpath : n.locate (cs ++ [w]) = some m := by
    rw [Node.locate_append, hm, Option.bind_some, Node.locate, hk, Option.bind_some, Node.locate_nil]
  exact htree.located hpath

/-- Taking the item out. The position that comes back is that of the first entry
of the name. -/
theorem remove_located (h : WellFormed g img live) (htree : TreeOn g img live n)
    (hm : n.locate cs = some (.dir item sub)) (he : sub.index? w = some e) (h0 : 0 ∉ w)
    (hf : g.blocksCount ≤ fuel) :
    ∃ img₁, removeFromDirectory fuel item.inode w img = .ok e img₁ ∧
      Removed g img img₁ item.inode e ∧ IsDirectory g img item.inode ∧
      (itemsOf g img item.inode).eraseIdx e =
        (itemsOf g img item.inode).eraseP (DirectoryItem.hasName w) := by
  obtain ⟨hall, -, hlive⟩ := htree.located hm
  have hmem : item.inode ∈ live := hlive _ (label_mem_heads _)
  obtain ⟨hd, hitems, -⟩ := readDirectory_stored htree.owned hmem hall.1 hall.2
  obtain ⟨k, hk, hget⟩ := Entries.find?_of_index? he
  have hname : ∃ x ∈ itemsOf g img item.inode, cString x.name = some w :=
    ⟨k.label, by rw [hitems]; exact List.mem_of_getElem? hget, (Entries.all_find hall.2 hk).2.name⟩
  obtain ⟨e', hfind', herase⟩ := findDirectoryItem_first hd hname
  have hfind := findDirectoryItem_run hall.2 h0 img
  rw [he, ← hitems, hfind'] at hfind
  obtain ⟨rfl, -⟩ := EStateM.Result.ok.inj hfind
  obtain ⟨img₁, hrun, hr⟩ := removeFromDirectory_run h.owned hmem hd (h.ended hmem) hf hfind'
  exact ⟨img₁, hrun, hr, hd, herase⟩

/-- Only the chains below the entry have to end; the one of the directory may not. -/
theorem entry_purges (h : WellFormed g img live) (htree : TreeOn g img live n)
    (hm : n.locate cs = some (.dir item sub)) (hk : sub.find? w = some m)
    (hr : Removed g img img' item.inode e) (hf : 2 * g.blocksCount ≤ fuel) :
    Purges g img' (purgeFile fuel m.label.inode) (heads m) := by
  have hmem : item.inode ∈ live := (htree.located hm).2.2 _ (label_mem_heads _)
  have ho := hr.step.owned h.owned hmem
  obtain ⟨hall, hnd, hlive⟩ := entry_located htree hm hk
  have hbelow : ∀ k ∈ heads m, Kept g img img' k := fun k hk' =>
    hr.step.kept h.owned hmem (hlive k hk') fun heq => dir_notMem htree hm hk (heq ▸ hk')
  have hsub : (heads m).toFinset ⊆ live := fun k hk' => hlive k (List.mem_toFinset.mp hk')
  have hpurgeable : Purgeable g img' (heads m).toFinset :=
    ⟨ho.kept hsub ho.onVolume ho.metadata (fun k _ b _ => AgreeOn.refl g img' b)
      (fun k hk' => ho.used k (hsub hk')), fun k hk' =>
      (hbelow k (List.mem_toFinset.mp hk')).ended h.owned (hsub hk') (h.ended (hsub hk'))⟩
  have hlaid : LaidOut g img' (heads m).toFinset m := by
    refine ⟨hnd, fun b hb => List.mem_toFinset.mpr hb, ?_⟩
    exact Node.all_mono (Node.all_imp hall fun _ _ hx => hx.fits) fun k hk' =>
      (hbelow _ (List.mem_map_of_mem hk')).below
  have hlen := hlaid.length_lt hpurgeable.owned
  exact hlaid.purges hpurgeable (show g.blocksCount + m.allLabels.length ≤ fuel by omega)

/-- Freeing the node afterwards does the rest. -/
theorem purge_removed (h : WellFormed g img live) (htree : TreeOn g img live n)
    (hm : n.locate cs = some (.dir item sub)) (hk : sub.find? w = some m)
    (hr : Removed g img img' item.inode e) (hd : IsDirectory g img item.inode)
    (herase : (itemsOf g img item.inode).eraseIdx e =
      (itemsOf g img item.inode).eraseP (DirectoryItem.hasName w))
    (hf : 2 * g.blocksCount ≤ fuel) :
    ∃ img'', purgeFile fuel m.label.inode img' = .ok () img'' ∧
      EntryRemoved g img img'' live item.inode w m := by
  have hmem : item.inode ∈ live := (htree.located hm).2.2 _ (label_mem_heads _)
  have ho := hr.step.owned h.owned hmem
  have hkept : ∀ k ∈ live, k ≠ item.inode → Kept g img img' k := fun k hlive hne =>
    hr.step.kept h.owned hmem hlive hne
  obtain ⟨-, -, hlive⟩ := entry_located htree hm hk
  have hnot := dir_notMem htree hm hk
  obtain ⟨bs, hrun, hbs⟩ := entry_purges h htree hm hk hr hf
  obtain ⟨howned, hafter⟩ := ho.unmarkAll (fun b hb => (hbs b).mp hb) hlive
  have hbs' : ∀ b, b ∈ bs ↔ ∃ k ∈ heads m, b ∈ blocksOf g img k := fun b => by
    rw [hbs]
    exact exists_congr fun k => and_congr_right fun hk' => by
      rw [(hkept k (hlive k hk') fun heq => hnot (heq ▸ hk')).blocksOf_eq]
  have hrest : item.inode ∈ live \ (heads m).toFinset :=
    Finset.mem_sdiff.mpr ⟨hmem, by rwa [List.mem_toFinset]⟩
  refine ⟨_, hrun, ?_, fun b hb hmarked => ?_, fun k hlive' hne _ => ?_⟩
  · obtain ⟨hd', hitems⟩ := hr.items hd
    obtain ⟨hd'', hitems'⟩ := (hafter _ hmem).items hd'
    rw [readDirectory_run howned hrest hd'', hitems', hitems, herase]
  · rw [marked_unmarkAll, (hafter _ hmem).blocksOf_eq, ← hbs' b]
    have hmarks := hr.step.marks b hb
    simp only [hmarked, true_and] at hmarks
    by_cases hfreed : b ∈ bs
    · simp [hfreed]
    · simp only [hfreed, decide_false, Bool.not_false, Bool.and_true, false_or]
      rw [← Bool.not_eq_true, hmarks, not_or, not_not, and_comm]
  · exact ((hkept k hlive' hne).trans (hafter k hlive')).sameNode

end Entry

/-! ## The operation -/

/-- Remove of the path comes through and does what it is to do. -/
def RemovesEntry (fuel : ℕ) (fds : FsDescriptors) (path : NetString) (s : Server) (g : Geometry)
    (live : Finset ℕ) (dir : ℕ) (w : List UInt8) (m : TreeNode) : Prop :=
  ∃ s', fsopRemove fuel fds ⟨path⟩ s = .ok () s' ∧ EntryRemoved g s.image s'.image live dir w m

section Operation

variable {g : Geometry} {live : Finset ℕ} {n m : TreeNode} {item : DirectoryItem} {sub : TreeEntries}
  {cs : List (List UInt8)} {w : List UInt8} {e fuel : ℕ} {fds : FsDescriptors} {s : Server}
  {path : NetString} {q : Path}

/-- The run of Remove up to the call of `purge_file`, whose argument is the position. -/
theorem fsopRemove_purges (h : WellFormed g s.image live) (htree : TreeOn g s.image live n)
    (hroot : fds.rootInode = g.root) (hq : PathArg path q (cs ++ [w]))
    (hlt : path.string.bytes.length ≤ wordSize) (hm : n.locate cs = some (.dir item sub)) (he : sub.index? w = some e)
    (hf : g.blocksCount ≤ fuel) :
    ∃ img, Removed g s.image img item.inode e ∧ IsDirectory g s.image item.inode ∧
      (itemsOf g s.image item.inode).eraseIdx e =
        (itemsOf g s.image item.inode).eraseP (DirectoryItem.hasName w) ∧
      fsopRemove fuel fds ⟨path⟩ s =
        (onImage (purgeFile fuel e) >>= fun _ => writeEmptyError) { s with image := img } := by
  have h0 := hq.zero_notMem
  obtain ⟨hresolve, -⟩ := resolveParent_run htree hroot hq.splitsTo (hq.above_lt hlt)
    fun x hx => h0 x (List.mem_append_left _ hx)
  obtain ⟨img, hrun, hr, hd, herase⟩ := remove_located h htree hm he (h0 w (by simp)) hf
  refine ⟨img, hr, hd, herase, ?_⟩
  rw [fsopRemove_eq fuel fds ⟨path⟩ (hq.splitArg_eq s), bind_of_ok (onImage_of_ok (hresolve _ hm).2)]
  exact bind_of_ok (onImage_of_ok hrun)

/-- Remove does what it is to do when the entry stands at the position of its own
inode. Otherwise it frees whatever the block of that number leads to, and fails at
least where that block is no block at all, a metadata block, the head of the
directory, or a block of a node that stays. -/
theorem fsopRemove_position (h : WellFormed g s.image live) (htree : TreeOn g s.image live n)
    (hroot : fds.rootInode = g.root) (hq : PathArg path q (cs ++ [w]))
    (hlt : path.string.bytes.length ≤ wordSize) (hm : n.locate cs = some (.dir item sub))
    (hk : sub.find? w = some m) (he : sub.index? w = some e) (hs : s.Ready) (hf : 2 * g.blocksCount ≤ fuel) :
    (e = m.label.inode → RemovesEntry fuel fds path s g live item.inode w m) ∧
      (RemovesEntry fuel fds path s g live item.inode w m →
        g.root ≤ e ∧ e < g.blocksCount ∧ e ≠ item.inode ∧
          ∀ k ∈ live, e ∈ blocksOf g s.image k → k = item.inode ∨ k ∈ heads m) := by
  obtain ⟨img, hr, hd, herase, hrun⟩ := fsopRemove_purges h htree hroot hq hlt hm he
    (show g.blocksCount ≤ fuel by omega)
  have hmem : item.inode ∈ live := (htree.located hm).2.2 _ (label_mem_heads _)
  constructor
  · rintro rfl
    obtain ⟨img', hpurge, hremoved⟩ := purge_removed h htree hm hk hr hd herase hf
    obtain ⟨a, s', hstatus, hsent, -⟩ := writeEmptyError_run
      (s := { s with image := img' }) ⟨hs.room, hs.clean, hs.grants⟩
    refine ⟨s', ?_, ?_⟩
    · rw [hrun, bind_of_ok (onImage_of_ok hpurge)]
      exact hstatus
    · rw [hsent.image]
      exact hremoved
  · rintro ⟨s', hok, hremoved⟩
    rw [hrun] at hok
    obtain ⟨u, s₁, hcall, hstatus⟩ := bind_eq_ok.mp hok
    obtain ⟨img', hpurge, rfl⟩ := onImage_eq_ok hcall
    rw [writeEmptyError_image hstatus] at hremoved
    obtain ⟨h0, hlt', hclear⟩ := purgeFile_clears hr.step.onVolume hpurge
    have howner : marked s.image e = true → ∃ k ∈ live, e ∈ blocksOf g s.image k ∧
        (k ∈ heads m ∨ k = item.inode ∧ e ≠ item.inode) := by
      intro hmarked
      rcases (hremoved.freed e hlt' hmarked).mp hclear with ⟨k, hkm, hmem'⟩ | ⟨hold, hnew⟩
      · exact ⟨k, (entry_located htree hm hk).2.2 k hkm, hmem', .inl hkm⟩
      · refine ⟨item.inode, hmem, hold, .inr ⟨rfl, ?_⟩⟩
        rintro rfl
        exact hnew (self_mem_blocksOf g img' item.inode)
    refine ⟨?_, hlt', ?_, fun k hlive hmem' => ?_⟩
    · by_contra hlow
      obtain ⟨k, hlive, hmem', -⟩ := howner (h.owned.metadata e (Nat.lt_of_not_le hlow))
      exact hlow ((h.chains k hlive).range e hmem').1
    · rintro rfl
      have hself := self_mem_blocksOf g s.image item.inode
      obtain ⟨k, hlive, hmem', hcase⟩ := howner (h.owned.used _ hmem _ hself)
      obtain rfl := h.owned.eq_of_mem hlive hmem hmem' hself
      rcases hcase with hkm | ⟨-, hne⟩
      · exact dir_notMem htree hm hk hkm
      · exact hne rfl
    · obtain ⟨k', hlive', hmem'', hcase⟩ := howner (h.owned.used k hlive e hmem')
      obtain rfl := h.owned.eq_of_mem hlive' hlive hmem'' hmem'
      exact hcase.symm.imp_left And.left

end Operation

/-- The string `/c`. -/
def thirdPath : NetString := ⟨3, blockAt8 [47, 99, 0]⟩

theorem fsopRemove_position_third : RemovesEntry 10 ⟨1⟩ thirdPath { treeServer with image := threeImage }
    threeVolume {1, 2, 3, 4} 1 [99] (.file (charItem 2 99) []) := by
  obtain ⟨q, hq⟩ := exists_pathArg thirdPath rfl
    (show Spells [47, 99] [[99]] from ⟨by simp [IsName, slash], Or.inl ⟨rfl, by simp⟩⟩)
  have hready : Server.Ready { treeServer with image := threeImage } :=
    ⟨rfl, rfl, byteByByte_grants [] (by omega)⟩
  have hf : 2 * threeVolume.blocksCount ≤ 10 := by decide
  exact (@fsopRemove_position _ _ _ _ _ threeEntries [] [99] 2 _ _ _ _ _ threeImage_wellFormed
    threeImage_treeOn rfl hq (by decide) rfl rfl rfl hready hf).1 rfl

/-- The file `a` of the small tree stands at position 0, where no node can be. -/
theorem fsopRemove_position_zero : WellFormed treeVolume treeImage {1, 2} ∧
    TreeOn treeVolume treeImage {1, 2} tree ∧ (∃ q, PathArg treePath q [[97]]) ∧
    ∀ fuel, 8 ≤ fuel → ¬RemovesEntry fuel ⟨1⟩ treePath treeServer treeVolume {1, 2} 1 [97]
      (.file treeItem []) := by
  obtain ⟨q, hq⟩ := exists_pathArg treePath rfl
    (show Spells [47, 97] [[97]] from ⟨by simp [IsName, slash], Or.inl ⟨rfl, by simp⟩⟩)
  refine ⟨treeImage_wellFormed, treeImage_treeOn, ⟨q, hq⟩, ?_⟩
  rintro fuel hf ⟨s', hok, -⟩
  have hcount : treeVolume.blocksCount = 4 := rfl
  obtain ⟨img, hr, -, -, hrun⟩ := @fsopRemove_purges _ _ _ _ (.file [97] treeItem [] .nil) [] _ 0 _ _
    treeServer _ _ treeImage_wellFormed treeImage_treeOn rfl hq (by decide) rfl rfl
    (show treeVolume.blocksCount ≤ fuel by omega)
  rw [hrun] at hok
  obtain ⟨u, s₁, hcall, -⟩ := bind_eq_ok.mp hok
  obtain ⟨img', hpurge, -⟩ := onImage_eq_ok hcall
  exact Nat.lt_irrefl 0 (purgeFile_clears hr.step.onVolume hpurge).1

end KisLinux.Net
