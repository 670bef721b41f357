import KisLinux.FsTree
import KisLinux.FsWellFormed

/-!
# Where chains end

Extending takes exactly the lowest free blocks and completes whenever there are
enough. Neither extending nor shrinking writes the link of the block that
becomes the last one: a node that grew ends where an old link of that block
leads, and a node that gave up blocks still leads into them. Listing the blocks
of a node stores the link of the last one as well, behind its array.
-/
namespace KisLinux.Fs
open ByteMemory StateRun LinkedChain

theorem treeImage_wellFormed : WellFormed treeVolume treeImage {1, 2} :=
  .of_owned treeImage_treeOn.owned (by decide +kernel) (by decide +kernel)

/-! ## Extending -/

/-- The blocks `new` were linked behind the node `n`: their bits are set, the
two header fields and the links that lead to them are written, nothing else. -/
structure Extended (g : Geometry) (img img' : Image) (n newSize : ℕ) (new : List ℕ) : Prop where
  table : ∀ b, b / 8 < (g.blocksCount + 7) / 8 → marked img' b = (marked img b || decide (b ∈ new))
  size : sizeOfNode g img' n = newSize
  linked : Linked (linkOf g img') (lastOf g img n :: new)
  last : new.getLast? = some (lastOf g img' n)
  rest : ∀ a, (a < lookupTable ∨ lookupTable + (g.blocksCount + 7) / 8 ≤ a) →
    (a < n * g.blockSize + sizeField ∨ n * g.blockSize + sizeField + 8 ≤ a) →
    (a < n * g.blockSize + lastInodeField ∨ n * g.blockSize + lastInodeField + 8 ≤ a) →
    (∀ b ∈ (lastOf g img n :: new).dropLast,
      a < b * g.blockSize ∨ b * g.blockSize + sizeofINode ≤ a) → img'.bytes a = img.bytes a

/-- An extension by `k` blocks completes exactly when `k` blocks are free, and it
takes the lowest ones in order. -/
theorem truncateFile_extension {g : Geometry} {img : Image} {n old k newSize fuel : ℕ}
    (h : Extendable g img n old)
    (hold : getBlocksRequired (sizeOfNode g img n) img = .ok old img)
    (hnew : getBlocksRequired newSize img = .ok (old + k) img) (hk : 1 ≤ k)
    (hs : newSize < wordSize) :
    ((∃ img', truncateFile fuel n newSize img = .ok () img') ↔ k ≤ (freeBlocks g img).length) ∧
      ∀ img', truncateFile fuel n newSize img = .ok () img' →
        ((freeBlocks g img).take k).length = k ∧
          Extended g img img' n newSize ((freeBlocks g img).take k) := by
  have hroom : ∀ img', truncateFile fuel n newSize img = .ok () img' →
      k ≤ (freeBlocks g img).length := by
    intro img' hrun
    by_contra hlt
    obtain ⟨e, he⟩ := h.truncateFile_full fuel hold hnew hk (Nat.lt_of_not_le hlt)
    rw [he] at hrun
    cases hrun
  refine ⟨⟨fun ⟨img', hrun⟩ => hroom img' hrun, fun hfree =>
    ⟨_, h.truncateFile_run fuel hold hnew hk hfree⟩⟩, fun img' hrun => ?_⟩
  have hfree := hroom img' hrun
  rw [h.truncateFile_run fuel hold hnew hk hfree] at hrun
  obtain ⟨-, rfl⟩ := EStateM.Result.ok.inj hrun
  have htake : ((freeBlocks g img).take k).length = k := by
    rw [List.length_take, Nat.min_eq_left hfree]
  refine ⟨htake, fun b hb => h.marked_growImage hb, h.sizeOfNode_growImage hs,
    h.linked_new_growImage _ _, ?_, fun a ha hsize hlast hlinks => h.bytes_growImage ha hsize hlast hlinks⟩
  have hne : (freeBlocks g img).take k ≠ [] := by
    rw [← List.length_pos_iff, htake]
    exact hk
  rw [h.lastOf_growImage, List.getLast_cons hne, List.getLast?_eq_some_getLast hne]

/-- The file `a` grows by one block, the only free one. -/
theorem truncateFile_extension_one : ∃ img', truncateFile 0 2 484 treeImage = .ok () img' ∧
    Extended treeVolume treeImage img' 2 484 [3] := by
  have hfree : freeBlocks treeVolume treeImage = [3] := by decide +kernel
  have hold : getBlocksRequired (sizeOfNode treeVolume treeImage 2) treeImage = .ok 1 treeImage :=
    getBlocksRequired_run treeImage_onVolume (by decide +kernel)
  have hnew : getBlocksRequired 484 treeImage = .ok (1 + 1) treeImage :=
    getBlocksRequired_run treeImage_onVolume (by decide)
  have hextendable : Extendable treeVolume treeImage 2 1 :=
    treeImage_treeOn.owned.extendable (n := 2) (by decide)
  obtain ⟨hiff, hextended⟩ := @truncateFile_extension _ _ 2 1 1 484 0 hextendable hold hnew le_rfl
    (by decide)
  obtain ⟨img', hrun⟩ := hiff.mpr (by rw [hfree]; decide)
  have hlast := (hextended img' hrun).2
  rw [hfree] at hlast
  exact ⟨img', hrun, hlast⟩

/-! ## Growing -/

/-- Only the bits of the blocks `own` are cleared when the node is freed. A
directory frees its entries first, so it is judged by its own walk. -/
def FreesOnly (g : Geometry) (img : Image) (n : ℕ) (own : List ℕ) : Prop :=
  ∀ fuel img', purgeBlocks fuel n img = .ok () img' ∨
    flagsOf g img n &&& flgDirectory = 0 ∧ purgeFile fuel n img = .ok () img' →
    ∀ b < g.blocksCount, marked img b = true → marked img' b = false → b ∈ own

/-- A chain that ends is the set of blocks its purge frees. -/
theorem freesOnly_chain {g : Geometry} {img : Image} {n k : ℕ} (h : OnVolume g img) (hk : 0 < k)
    (hc : ChainOn g img (chain (linkOf g img) n k))
    (hend : EndsInZero g img (chain (linkOf g img) n k)) :
    FreesOnly g img n (chain (linkOf g img) n k) := by
  intro fuel img' hrun b _ hb hb'
  have hroot := g.root_pos
  have hn : n ∈ chain (linkOf g img) n k := List.mem_of_mem_head? (head?_chain _ n hk)
  have hpurge : ∃ fuel, purgeBlocks fuel n img = .ok () img' := by
    rcases hrun with hrun | ⟨hflags, hrun⟩
    · exact ⟨fuel, hrun⟩
    · cases fuel with
      | zero => cases hrun
      | succ fuel =>
        have hnr := hc.range n hn
        rw [purgeFile, bind_of_ok (getInode_run h (by omega) hnr.2),
          bind_of_ok (getFlags_run h hnr.2), if_neg (by simpa using hflags)] at hrun
        exact ⟨fuel, hrun⟩
  obtain ⟨fuel, hpurge⟩ := hpurge
  have hbig := purgeBlocks_mono (Nat.le_max_left fuel g.blocksCount) n _ _ _ hpurge
  have hlen := hc.length_le
  obtain ⟨k, rfl⟩ : ∃ j, k = j + 1 := ⟨k - 1, by omega⟩
  simp only [chain] at hc hend hlen ⊢
  rw [purgeBlocks_run h hc hend (by simp only [List.length_cons] at hlen; omega)] at hbig
  obtain ⟨-, rfl⟩ := EStateM.Result.ok.inj hbig
  rw [marked_unmarkAll, hb, Bool.true_and, Bool.not_eq_false'] at hb'
  exact of_decide_eq_true hb'

/-- At the top of `size_t` the size formula wraps around to one block. -/
theorem getBlocksRequired_wraps {g : Geometry} {img : Image} {size : ℕ} (h : OnVolume g img)
    (hs : size < wordSize) (hwrap : wordSize < size + 21) :
    getBlocksRequired size img = .ok 1 img := by
  have hlt := g.mapped_lt
  have hpos := g.blockSize_lt
  have hfb := g.firstBlockSize_eq
  have hcb := g.commonBlockSize_eq
  have hfpos := g.firstBlockSize_pos
  have hsize := g.size_lt
  have hbs : g.blockSize ≤ g.blocksCount * g.blockSize := by
    have := Nat.mul_le_mul_right g.blockSize (Nat.succ_le_of_lt (Nat.lt_of_le_of_lt (Nat.zero_le _)
      g.root_lt))
    omega
  have hf : wsub g.blockSize sizeofINodeMain = g.firstBlockSize := by
    simp only [wsub, sizeofINodeMain, wordSize] at *
    omega
  have hc : wsub g.blockSize sizeofINode = g.commonBlockSize := by
    simp only [wsub, sizeofINodeMain, sizeofINode, wordSize] at *
    omega
  have hsum : wsub (wadd (wsub size g.firstBlockSize) g.commonBlockSize) 1 =
      size + 20 - wordSize := by
    simp only [wsub, wadd, wordSize] at *
    omega
  have hzero : (size + 20 - wordSize) / g.commonBlockSize = 0 :=
    Nat.div_eq_of_lt (by omega)
  rw [getBlocksRequired, bind_of_ok (blockSize_run h)]
  simp only [hf, hc]
  rw [if_neg (by simp only [wordSize] at *; omega), if_neg (by omega), hsum, hzero, pure_run]
  rfl

/-- After growing, the walk from the head ends behind the last block exactly when
the block that became the last one held a zero link before. -/
theorem truncateFile_growing {g : Geometry} {img img' : Image} {live : Finset ℕ}
    {n newSize k fuel : ℕ} (h : WellFormed g img live) (hn : n ∈ live)
    (hlt : sizeOfNode g img n < newSize) (hs : newSize < wordSize)
    (hk : getBlocksRequired newSize img = .ok k img)
    (hrun : truncateFile fuel n newSize img = .ok () img') :
    (ChainOn g img' (chain (linkOf g img') n k) ∧ EndsInZero g img' (chain (linkOf g img') n k) ∧
      FreesOnly g img' n (chain (linkOf g img') n k)) ↔
      EndsInZero g img ((blocksOf g img n ++ freeBlocks g img).take k) := by
  have ho := h.owned
  suffices hmain : OnVolume g img' ∧ 0 < k ∧ ChainOn g img' (chain (linkOf g img') n k) ∧
      (EndsInZero g img' (chain (linkOf g img') n k) ↔
        EndsInZero g img ((blocksOf g img n ++ freeBlocks g img).take k)) by
    obtain ⟨hv, hpos, hc, hiff⟩ := hmain
    refine ⟨fun hprop => hiff.mp hprop.2.1, fun hzero => ?_⟩
    have hend := hiff.mpr hzero
    exact ⟨hc, hend, freesOnly_chain hv hpos hc hend⟩
  rcases Nat.lt_or_ge wordSize (newSize + 21) with hwrap | hfit
  · -- the formula wraps: the node is cut down to its head
    have hone := getBlocksRequired_wraps h.volume hs hwrap
    rw [hone] at hk
    obtain ⟨rfl, -⟩ := EStateM.Result.ok.inj hk
    obtain ⟨img₁, hrun₁, hshrunk⟩ := truncateFile_shrink_run ho hn (h.ended hn) hone Nat.one_pos
      (Nat.succ_le_of_lt (g.blocksRequired_pos _)) hs (Nat.le_max_right fuel g.blocksCount)
    have hbig := truncateFile_mono (Nat.le_max_left fuel g.blocksCount) n newSize _ _ _ hrun
    rw [hrun₁] at hbig
    obtain ⟨-, rfl⟩ := EStateM.Result.ok.inj hbig
    have hr := ho.mem_range hn
    obtain ⟨tail, htail⟩ := blocksOf_cons g img n
    refine ⟨hshrunk.onVolume, Nat.one_pos, ⟨chain_linked _ _ _, by simpa [chain] using hr,
      List.nodup_singleton n⟩, ?_⟩
    simp only [htail, List.cons_append, List.take_succ_cons, List.take_zero, chain, EndsInZero,
      List.getLast?_singleton, Option.mem_some, forall_eq', hshrunk.link_eq hr.1]
  · have hfit' := getBlocksRequired_run h.volume hfit
    rw [hk] at hfit'
    obtain ⟨rfl, -⟩ := EStateM.Result.ok.inj hfit'
    have hroom : extraBlocks g img n newSize ≤ (freeBlocks g img).length := by
      by_contra hfull
      obtain ⟨e, img₁, he, -⟩ := truncateFile_grow_full ho hn fuel hfit (Nat.lt_of_not_le hfull)
      rw [he] at hrun
      cases hrun
    rw [truncateFile_grow_run ho hn fuel hfit hlt.le hroom] at hrun
    have hg : Grown g img img' n newSize (extraBlocks g img n newSize) :=
      (EStateM.Result.ok.inj hrun).2 ▸ grown_growImage ho hn hs
    have hstep := hg.nodeStep ho hn hlt.le hroom
    have hold : (blocksOf g img n).take (g.blocksRequired newSize) = blocksOf g img n :=
      List.take_of_length_le (by rw [blocksOf_length]; exact g.blocksRequired_mono hlt.le)
    have hblocks := hg.blocksOf_eq hlt.le hroom
    have hchain : chain (linkOf g img') n (g.blocksRequired newSize) = blocksOf g img' n := by
      rw [blocksOf, hg.size]
    have hlast := hg.last
    rw [List.take_append, hold, blocksOf_length, hchain]
    refine ⟨hg.onVolume, g.blocksRequired_pos _, hstep.chainOn, ?_⟩
    simp only [extraBlocks] at hblocks hlast
    rw [hblocks]
    simp only [EndsInZero, hlast, Option.mem_some, forall_eq', hg.lastLink]

/-- The file `a` grows into a block that holds zeros. -/
theorem truncateFile_growing_zero : ∃ img', truncateFile 0 2 484 treeImage = .ok () img' ∧
    EndsInZero treeVolume img' (chain (linkOf treeVolume img') 2 2) := by
  obtain ⟨u, hrun⟩ := of_returned (r := truncateFile 0 2 484 treeImage) (by decide +kernel)
  have hiff := truncateFile_growing treeImage_wellFormed (by decide) (by decide +kernel) (by decide)
    (getBlocksRequired_run treeImage_onVolume (by decide)) hrun
  exact ⟨_, hrun, (hiff.mpr (by decide +kernel)).2.1⟩

/-- The small tree, with a link to the root directory left in its free block. -/
def staleImage : Image :=
  treeImage.putBlock treeVolume .memcpy 3 continuationInode (leBytes 8 1)

theorem staleImage_wellFormed : WellFormed treeVolume staleImage {1, 2} := by
  have hv : OnVolume treeVolume staleImage := treeImage_onVolume.putBlock (by decide)
  exact .of_owned ((ChainsApart.of_heads hv (by decide) (by decide +kernel)).owned
    (by decide +kernel)) (by decide +kernel) (by decide +kernel)

/-- There the file grows into a chain that leads to the root directory, and
deleting the file frees the root. -/
theorem truncateFile_growing_stale : ∃ img' img'',
    WellFormed treeVolume staleImage {1, 2} ∧ sizeOfNode treeVolume staleImage 2 < 484 ∧
    getBlocksRequired 484 staleImage = .ok 2 staleImage ∧
    truncateFile 0 2 484 staleImage = .ok () img' ∧
    chain (linkOf treeVolume img') 2 3 = [2, 3, 1] ∧
    ¬ EndsInZero treeVolume img' (chain (linkOf treeVolume img') 2 2) ∧
    flagsOf treeVolume img' 2 = flgFile ∧ purgeFile 5 2 img' = .ok () img'' ∧
    marked img' 1 = true ∧ marked img'' 1 = false := by
  obtain ⟨u, hrun⟩ := of_returned (r := truncateFile 0 2 484 staleImage) (by decide +kernel)
  obtain ⟨v, hpurge⟩ := of_returned
    (r := purgeFile 5 2 (finalState (truncateFile 0 2 484 staleImage))) (by decide +kernel)
  refine ⟨_, _, staleImage_wellFormed, by decide +kernel,
    getBlocksRequired_run staleImage_wellFormed.volume (by decide), hrun, ?_, ?_, ?_, hpurge, ?_, ?_⟩
  all_goals decide +kernel

/-! ## Shrinking -/

/-- The node `n` cut down to the first `k` blocks of its chain: these keep their
data, the bits of the others are cleared, and `last_inode` is the last kept one. -/
structure CutAt (g : Geometry) (img img' : Image) (n newSize k : ℕ) : Prop where
  blocks : blocksOf g img' n = (blocksOf g img n).take k
  payload : payload g img' sizeofINodeMain (blocksOf g img' n) =
    payload g img sizeofINodeMain ((blocksOf g img n).take k)
  content : content g img' n = (content g img n).take newSize
  marks : ∀ b < g.blocksCount,
    marked img' b = true ↔ marked img b = true ∧ b ∉ (blocksOf g img n).drop k
  last : ((blocksOf g img n).take k).getLast? = some (lastOf g img' n)

theorem Shrunk.cutAt {g : Geometry} {img img' : Image} {live : Finset ℕ} {n newSize k : ℕ}
    (hs : Shrunk g img img' n newSize k) (h : Owned g img live) (hn : n ∈ live)
    (hk : g.blocksRequired newSize = k) (hle : newSize ≤ sizeOfNode g img n) :
    CutAt g img img' n newSize k := by
  have hmono := g.blocksRequired_mono hle
  rw [hk] at hmono
  have hstep := hs.nodeStep h hn hk hmono
  have hblocks := hs.blocksOf_eq h hn hk hmono
  obtain ⟨rest, hrest⟩ := blocksOf_cons g img' n
  have hrange := hstep.range
  have hnd := hstep.nodup
  rw [hrest] at hrange hnd
  have hpay := hs.payload_eq (fun b hb => (hrange b hb).1) (List.nodup_cons.mp hnd).1
  rw [← hrest] at hpay
  exact ⟨hblocks, by rw [hpay, hblocks], hs.content_eq h hn hk hle, hs.marks, hs.last⟩

/-- A cut that gives up a block leaves the last kept one linked to it. -/
theorem Shrunk.link_freed {g : Geometry} {img img' : Image} {live : Finset ℕ} {n newSize k : ℕ}
    (hs : Shrunk g img img' n newSize k) (h : Owned g img live) (hn : n ∈ live)
    (hlt : k < g.blocksRequired (sizeOfNode g img n)) :
    linkOf g img' (lastOf g img' n) ∈ (blocksOf g img n).drop k := by
  have hc := h.chains n hn
  have hlast := hs.last
  have hlen := blocksOf_length g img n
  rw [← List.take_append_drop k (blocksOf g img n)] at hc
  obtain ⟨c, rest, hdrop⟩ := List.exists_cons_of_length_pos
    (show 0 < ((blocksOf g img n).drop k).length by rw [List.length_drop]; omega)
  have hlink := (linked_append.mp hc.linked).2.2 _ hlast c (by simp [hdrop])
  have hmem := hc.range _ (List.mem_append_left _ (List.mem_of_getLast? hlast))
  rw [hs.link_eq hmem.1, hlink, hdrop]
  exact List.mem_cons_self

/-- Shrinking keeps the front of the chain and frees the rest. The chain ends
there, and the volume is well-formed again, only if no block was given up. -/
theorem truncateFile_shrinking {g : Geometry} {img : Image} {live : Finset ℕ} {n newSize fuel : ℕ}
    (h : WellFormed g img live) (hn : n ∈ live) (hlt : newSize < sizeOfNode g img n)
    (hf : g.blocksCount ≤ fuel) :
    ∃ img', truncateFile fuel n newSize img = .ok () img' ∧
      getBlocksRequired newSize img = .ok (g.blocksRequired newSize) img ∧
      CutAt g img img' n newSize (g.blocksRequired newSize) ∧
      ((linkOf g img' (lastOf g img' n) = 0 ∧
          (∀ b ∈ blocksOf g img' n,
            linkOf g img' b ∉ (blocksOf g img n).drop (g.blocksRequired newSize)) ∧
          WellFormed g img' live) ↔
        g.blocksRequired newSize = g.blocksRequired (sizeOfNode g img n)) := by
  have ho := h.owned
  have hbound := ho.size_bound hn
  have hmapped := g.mapped_lt
  simp only [sizeofINodeMain] at hbound
  have hnew := getBlocksRequired_run h.volume (show newSize + 21 ≤ wordSize by omega)
  have hmono := g.blocksRequired_mono hlt.le
  obtain ⟨img', hrun, hs⟩ := truncateFile_shrink_run ho hn (h.ended hn) hnew
    (g.blocksRequired_pos newSize) hmono (by omega) hf
  refine ⟨img', hrun, hnew, hs.cutAt ho hn rfl hlt.le, fun hall => ?_, fun heq => ?_⟩
  · by_contra hne
    have hlast := List.mem_of_getLast? hs.last
    rw [← hs.blocksOf_eq ho hn rfl hmono] at hlast
    exact hall.2.1 _ hlast (hs.link_freed ho hn (Nat.lt_of_le_of_ne hmono hne))
  · have hdrop : (blocksOf g img n).drop (g.blocksRequired newSize) = [] :=
      List.drop_of_length_le (by rw [blocksOf_length, heq])
    have hlast := hs.last
    rw [List.take_of_length_le (by rw [blocksOf_length, heq])] at hlast
    have hend : linkOf g img' (lastOf g img' n) = 0 := by
      rw [hs.link_eq ((h.chains n hn).range _ (List.mem_of_getLast? hlast)).1]
      exact h.ends n hn _ hlast
    exact ⟨hend, by simp [hdrop], h.nodeStep hn (hs.nodeStep ho hn rfl hmono) hend⟩

/-- The small tree with a file of two blocks. -/
def twoBlockImage : Image := growImage treeVolume treeImage 2 484 1

theorem twoBlockImage_wellFormed : WellFormed treeVolume twoBlockImage {1, 2} := by
  have ho := treeImage_treeOn.owned
  have hroom : extraBlocks treeVolume treeImage 2 484 ≤ (freeBlocks treeVolume treeImage).length := by
    decide +kernel
  have hg : Grown treeVolume treeImage twoBlockImage 2 484 (extraBlocks treeVolume treeImage 2 484) :=
    grown_growImage ho (by decide) (by decide)
  exact treeImage_wellFormed.nodeStep (by decide)
    (hg.nodeStep ho (by decide) (by decide +kernel) hroom) (by decide +kernel)

/-- Cut down to nothing, the file keeps its head. -/
theorem truncateFile_shrinking_head : ∃ img', truncateFile 4 2 0 twoBlockImage = .ok () img' ∧
    CutAt treeVolume twoBlockImage img' 2 0 1 := by
  obtain ⟨img', hrun, -, hcut, -⟩ := @truncateFile_shrinking _ _ _ 2 0 4
    twoBlockImage_wellFormed (by decide) (by decide +kernel) (by decide)
  exact ⟨img', hrun, hcut⟩

/-- There it still links to the block it gave up. -/
theorem truncateFile_shrinking_cut : ∃ img',
    WellFormed treeVolume twoBlockImage {1, 2} ∧ 0 < sizeOfNode treeVolume twoBlockImage 2 ∧
    truncateFile 4 2 0 twoBlockImage = .ok () img' ∧ blocksOf treeVolume img' 2 = [2] ∧
    linkOf treeVolume img' (lastOf treeVolume img' 2) = 3 ∧ marked img' 3 = false ∧
    ¬ WellFormed treeVolume img' {1, 2} := by
  obtain ⟨u, hrun⟩ := of_returned (r := truncateFile 4 2 0 twoBlockImage) (by decide +kernel)
  have hlink : linkOf treeVolume (finalState (truncateFile 4 2 0 twoBlockImage))
      (lastOf treeVolume (finalState (truncateFile 4 2 0 twoBlockImage)) 2) = 3 := by decide +kernel
  refine ⟨_, twoBlockImage_wellFormed, by decide +kernel, hrun, by decide +kernel, hlink,
    by decide +kernel, fun hwf => ?_⟩
  have hend := hwf.ended (n := 2) (by decide)
  rw [Ended, hlink] at hend
  exact absurd hend (by decide)

/-! ## Listing -/

/-- The loop of `trace_file_blocks` stores the links of the blocks it visits. -/
theorem traceLoop_run {g : Geometry} {img : Image} {b : ℕ} {l : List ℕ} (h : OnVolume g img)
    (hc : ChainOn g img (b :: l)) (hend : EndsInZero g img (b :: l)) :
    traceLoop (l.length + 1) (some (b * g.blockSize)) img = .ok (l ++ [0]) img := by
  induction l generalizing b with
  | nil =>
    have hh := g.header_lt
    simp only [sizeofINodeMain] at hh
    have hb := (hc.range b (by simp)).2
    have hzero : linkOf g img b = 0 := hend b rfl
    have hnext : getField (some (b * g.blockSize)) continuationInode img = .ok (linkOf g img b) img :=
      getField_run h hb (by simp only [continuationInode]; omega)
    have hinode := getNextInode_run h hb
    rw [hzero] at hnext hinode
    rw [List.length_nil, traceLoop, bind_of_ok hnext, bind_of_ok (hinode.trans (getInode_zero img))]
    rfl
  | cons c l ih =>
    obtain ⟨hnext, hinode⟩ := advance_run h hc
    have hrest := ih hc.tail fun x hx => hend x (by rwa [List.getLast?_cons_cons])
    rw [List.length_cons, traceLoop, bind_of_ok hnext, bind_of_ok hinode, bind_of_ok hrest]
    rfl

theorem traceFileBlocks_run {g : Geometry} {img : Image} {live : Finset ℕ} {n : ℕ}
    (h : WellFormed g img live) (hn : n ∈ live) :
    traceFileBlocks n img =
      .ok ⟨g.blocksRequired (sizeOfNode g img n), blocksOf g img n ++ [0]⟩ img := by
  have ho := h.owned
  have hlen := blocksOf_length g img n
  have hc := h.chains n hn
  have hend := h.ends n hn
  obtain ⟨tail, htail⟩ := blocksOf_cons g img n
  rw [htail] at hc hend hlen ⊢
  have hloop := traceLoop_run h.volume hc hend
  rw [← List.length_cons, hlen] at hloop
  rw [traceFileBlocks, bind_of_ok (ho.inode_run hn), bind_of_ok (ho.size_run hn),
    bind_of_ok (oldBlocks_run ho hn), bind_of_ok hloop]
  rfl

/-- Where the last block links is followed as well. A link past the last block of the
volume, which a block that was taken may have in it, is reported. -/
theorem traceFileBlocks_cases {g : Geometry} {img : Image} {live : Finset ℕ} {n : ℕ}
    (h : Owned g img live) (hn : n ∈ live) :
    (linkOf g img (lastOf g img n) < g.blocksCount ∧ traceFileBlocks n img =
      .ok ⟨g.blocksRequired (sizeOfNode g img n),
        blocksOf g img n ++ [linkOf g img (lastOf g img n)]⟩ img) ∨
    g.blocksCount ≤ linkOf g img (lastOf g img n) ∧
      traceFileBlocks n img = .error (.die .getInode) img := by
  have hloop : ∀ (l : List ℕ) (b e : ℕ), ChainOn g img (b :: l) → (b :: l).getLast? = some e →
      (linkOf g img e < g.blocksCount ∧
        traceLoop (l.length + 1) (some (b * g.blockSize)) img = .ok (l ++ [linkOf g img e]) img) ∨
      g.blocksCount ≤ linkOf g img e ∧
        traceLoop (l.length + 1) (some (b * g.blockSize)) img = .error (.die .getInode) img := by
    intro l
    induction l with
    | nil =>
      intro b e hc he
      obtain rfl : b = e := Option.some.inj he
      have hh := g.header_lt
      simp only [sizeofINodeMain] at hh
      have hb := (hc.range b (by simp)).2
      have hnext : getField (some (b * g.blockSize)) continuationInode img = .ok (linkOf g img b) img :=
        getField_run h.onVolume hb (by simp only [continuationInode]; omega)
      have hinode := getNextInode_run h.onVolume hb
      rw [List.length_nil, traceLoop, bind_of_ok hnext]
      rcases Nat.lt_or_ge (linkOf g img b) g.blocksCount with hlt | hge
      · refine .inl ⟨hlt, ?_⟩
        rcases Nat.eq_zero_or_pos (linkOf g img b) with hzero | hpos
        · rw [hzero] at hinode ⊢
          rw [bind_of_ok (hinode.trans (getInode_zero img))]
          rfl
        · rw [bind_of_ok (hinode.trans (getInode_run h.onVolume hpos hlt))]
          rfl
      · exact .inr ⟨hge, bind_of_error (hinode.trans (getInode_past h.onVolume hge))⟩
    | cons c l ih =>
      intro b e hc he
      obtain ⟨hnext, hinode⟩ := advance_run h.onVolume hc
      rw [List.length_cons, traceLoop, bind_of_ok hnext, bind_of_ok hinode]
      rcases ih c e hc.tail (by rwa [List.getLast?_cons_cons] at he) with ⟨hlt, hrest⟩ | ⟨hge, hrest⟩
      · exact .inl ⟨hlt, by rw [bind_of_ok hrest]; rfl⟩
      · exact .inr ⟨hge, bind_of_error hrest⟩
  have hlen := blocksOf_length g img n
  have hc := h.chains n hn
  have hlast := h.last n hn
  obtain ⟨tail, htail⟩ := blocksOf_cons g img n
  rw [htail] at hc hlen hlast ⊢
  have hcases := hloop tail n _ hc hlast
  rw [← List.length_cons, hlen] at hcases
  rw [traceFileBlocks, bind_of_ok (h.inode_run hn), bind_of_ok (h.size_run hn),
    bind_of_ok (oldBlocks_run h hn)]
  rcases hcases with ⟨hlt, hrun⟩ | ⟨hge, hrun⟩
  · exact .inl ⟨hlt, by rw [bind_of_ok hrun]; rfl⟩
  · exact .inr ⟨hge, bind_of_error hrun⟩

/-- The block list of a node: its array holds the blocks of the chain in order,
and one entry more is stored than the array has. -/
theorem traceFileBlocks_stores {g : Geometry} {img : Image} {live : Finset ℕ} {n : ℕ}
    (h : WellFormed g img live) (hn : n ∈ live) :
    ∃ trace, traceFileBlocks n img = .ok trace img ∧
      getBlocksRequired (sizeOfNode g img n) img = .ok trace.capacity img ∧
      trace.stores.take trace.capacity = blocksOf g img n ∧
      ¬ trace.stores.length ≤ trace.capacity := by
  have hlen := blocksOf_length g img n
  have hcount := oldBlocks_run h.owned hn
  refine ⟨⟨g.blocksRequired (sizeOfNode g img n), blocksOf g img n ++ [0]⟩,
    traceFileBlocks_run h hn, by rw [hcount], ?_, ?_⟩
  · simp only [← hlen]
    rw [List.take_left]
  · simp only [List.length_append, hlen, List.length_singleton]
    omega

theorem traceFileBlocks_stores_file : ∃ trace, traceFileBlocks 2 treeImage = .ok trace treeImage ∧
    ¬ trace.stores.length ≤ trace.capacity := by
  obtain ⟨trace, hrun, -, -, hlen⟩ := traceFileBlocks_stores treeImage_wellFormed (n := 2) (by decide)
  exact ⟨trace, hrun, hlen⟩

/-- The empty file of one block: an array of one entry gets two. -/
theorem traceFileBlocks_stores_two : WellFormed treeVolume treeImage {1, 2} ∧
    traceFileBlocks 2 treeImage = .ok ⟨1, [2, 0]⟩ treeImage := by
  have hrun := traceFileBlocks_run treeImage_wellFormed (n := 2) (by decide)
  have hcount : treeVolume.blocksRequired (sizeOfNode treeVolume treeImage 2) = 1 := by decide +kernel
  have hblocks : blocksOf treeVolume treeImage 2 = [2] := by decide +kernel
  rw [hcount, hblocks] at hrun
  exact ⟨treeImage_wellFormed, hrun⟩

end KisLinux.Fs
