import KisLinux.FsDirectory

/-!
# Changing directories

Appending writes one slot behind the items. Consecutive appends add up to one
write, which takes the lowest free blocks in order; removal is such a write on
the emptied directory and never runs out of blocks.
-/
namespace KisLinux.Fs
open ByteMemory StateRun LinkedChain

theorem filter_notMem_take {α : Type*} [DecidableEq α] {l : List α} (h : l.Nodup) (k : ℕ) :
    l.filter (fun x => decide (x ∉ l.take k)) = l.drop k := by
  have hsplit := List.take_append_drop k l
  have hn : (l.take k ++ l.drop k).Nodup := by rwa [hsplit]
  have htake : (l.take k).filter (fun x => decide (x ∉ l.take k)) = [] := by
    rw [List.filter_eq_nil_iff]
    simp
  have hdrop : (l.drop k).filter (fun x => decide (x ∉ l.take k)) = l.drop k := by
    rw [List.filter_eq_self]
    intro x hx
    simpa using fun hm => (List.nodup_append.mp hn).2.2 x hm x hx rfl
  calc l.filter (fun x => decide (x ∉ l.take k))
      = (l.take k ++ l.drop k).filter (fun x => decide (x ∉ l.take k)) := by rw [hsplit]
    _ = l.drop k := by rw [List.filter_append, htake, hdrop, List.nil_append]

theorem overwrite_end {α : Type*} (l d : List α) : overwrite l l.length d = l ++ d := by
  simp [overwrite]

section Append

variable {g : Geometry} {img img' img'' : Image} {live : Finset ℕ} {n o : ℕ} {d d' : List UInt8}

/-- A write takes the lowest free blocks. -/
theorem Written.freeBlocks_eq (hw : Written g img img' n o d) (h : Owned g img live) (hn : n ∈ live) :
    freeBlocks g img' = (freeBlocks g img).drop
      (extraBlocks g img n (max (sizeOfNode g img n) (o + d.length))) := by
  have hblocks := hw.blocks
  rw [← filter_notMem_take (freeBlocks_nodup g img)]
  generalize (freeBlocks g img).take (extraBlocks g img n (max (sizeOfNode g img n)
    (o + d.length))) = taken at hblocks ⊢
  unfold freeBlocks
  rw [List.filter_filter]
  refine List.filter_congr fun b hb => ?_
  have hmarks := hw.step.marks b (List.mem_range.mp hb)
  have hused := h.used n hn b
  rw [hblocks, List.mem_append] at hmarks
  rw [Bool.eq_iff_iff]
  simp only [Bool.not_eq_true', Bool.and_eq_true, decide_eq_true_eq, ← Bool.not_eq_true, hmarks]
  by_cases htaken : b ∈ taken
  · simp [htaken]
  · by_cases hold : b ∈ blocksOf g img n
    · simp [htaken, hold, hused hold]
    · simp [htaken, hold]

theorem Written.refl (h : Owned g img live) (hn : n ∈ live) :
    Written g img img n (sizeOfNode g img n) [] where
  step := NodeStep.refl h hn
  blocks := by simp [extraBlocks]
  content := by rw [overwrite_nil]
  lastLink := rfl

/-- Two appends in a row are one append. -/
theorem Written.append (h : Owned g img live) (hn : n ∈ live)
    (hw : Written g img img' n (sizeOfNode g img n) d)
    (hw' : Written g img' img'' n (sizeOfNode g img' n) d') :
    Written g img img'' n (sizeOfNode g img n) (d ++ d') := by
  have hsize := hw.size le_rfl
  rw [Nat.max_eq_right (Nat.le_add_right _ _)] at hsize
  have hsub : blocksOf g img' n ⊆ blocksOf g img'' n := by
    rw [hw'.blocks]
    exact List.subset_append_left _ _
  have hm₁ := g.blocksRequired_mono (Nat.le_add_right (sizeOfNode g img n) d.length)
  have hm₂ := g.blocksRequired_mono (Nat.le_add_right (sizeOfNode g img n + d.length) d'.length)
  have hmax : ∀ a b : ℕ, max a (a + b) = a + b := fun a b => Nat.max_eq_right (Nat.le_add_right a b)
  refine ⟨hw.step.trans hw'.step hsub, ?_, ?_, ?_⟩
  · have hsum : extraBlocks g img n (sizeOfNode g img n + d.length) +
        extraBlocks g img' n (sizeOfNode g img' n + d'.length) =
        extraBlocks g img n (sizeOfNode g img n + (d ++ d').length) := by
      rw [List.length_append, ← Nat.add_assoc, extraBlocks, extraBlocks, extraBlocks, hsize]
      omega
    rw [hw'.blocks, hw.blocks, hw.freeBlocks_eq h hn, hmax, hmax, hmax, List.append_assoc, ← hsum,
      ← List.take_add]
  · have hlen : (Fs.content g img n).length = sizeOfNode g img n := content_length g img n
    have hend := overwrite_end (Fs.content g img n) d
    have hend' := overwrite_end (Fs.content g img' n) d'
    have hend'' := overwrite_end (Fs.content g img n) (d ++ d')
    rw [content_length] at hend hend' hend''
    rw [hw'.content, hend', hw.content, hend, hend'', List.append_assoc]
  · have hlast := List.mem_of_getLast? hw'.step.last
    rw [hw'.lastLink]
    by_cases hmem : lastOf g img'' n ∈ blocksOf g img' n
    · have hlast' : lastOf g img'' n = lastOf g img' n := by
        have hend := hw'.step.last
        have hnd := hw'.step.nodup
        rw [hw'.blocks] at hend hnd
        cases htake : (freeBlocks g img').take (extraBlocks g img' n
            (max (sizeOfNode g img' n) (sizeOfNode g img' n + d'.length))) with
        | nil =>
          rw [htake, List.append_nil, hw.step.last] at hend
          exact (Option.some.inj hend).symm
        | cons x l =>
          rw [htake] at hend hnd
          rw [List.getLast?_append_of_ne_nil _ (by simp)] at hend
          exact absurd rfl ((List.nodup_append.mp hnd).2.2 _ hmem _ (List.mem_of_getLast? hend))
      rw [hlast']
      exact hw.lastLink
    · exact (hw.step.others _ (hw'.step.range _ hlast).1 hmem).link_eq

theorem appendDirectory_eq (h : Owned g img live) (hn : n ∈ live) (fuel : ℕ) (item : DirectoryItem)
    (hflags : flagsOf g img n &&& flgDirectory ≠ 0) :
    appendDirectory fuel n item img =
      writeFileUnchecked fuel n (sizeOfNode g img n) item.encode img := by
  rw [appendDirectory, bind_of_ok (h.inode_run hn), bind_of_ok (h.flags_run hn), if_neg hflags,
    appendFileUnchecked, bind_of_ok (h.inode_run hn), bind_of_ok (h.size_run hn)]

theorem appendDirectory_not (h : Owned g img live) (hn : n ∈ live) (fuel : ℕ) (item : DirectoryItem)
    (hflags : flagsOf g img n &&& flgDirectory = 0) :
    appendDirectory fuel n item img = .error (.die .notDirectory) img := by
  rw [appendDirectory, bind_of_ok (h.inode_run hn), bind_of_ok (h.flags_run hn), if_pos hflags,
    dieFatal_run]

theorem encode_ne_nil (item : DirectoryItem) : item.encode ≠ [] := by
  intro hnil
  have := congrArg List.length hnil
  simp [DirectoryItem.encode] at this

theorem item_fits_word (h : Owned g img live) {item : DirectoryItem} (hfits : item.Fits) :
    item.encode.length + img.mapped ≤ wordSize := by
  have hlt := g.size_lt
  rw [hfits.encode_length, h.onVolume.mapped_eq]
  simp only [sizeofDirectoryItem, wordSize]
  omega

theorem appendDirectory_run (h : Owned g img live) (hn : n ∈ live) (fuel : ℕ) {item : DirectoryItem}
    (hfits : item.Fits) (hflags : flagsOf g img n &&& flgDirectory ≠ 0)
    (hroom : extraBlocks g img n (sizeOfNode g img n + sizeofDirectoryItem) ≤
      (freeBlocks g img).length) :
    ∃ img', appendDirectory fuel n item img = .ok () img' ∧
      Written g img img' n (sizeOfNode g img n) item.encode := by
  rw [appendDirectory_eq h hn fuel item hflags]
  refine writeFileUnchecked_run h hn fuel (encode_ne_nil item) le_rfl (item_fits_word h hfits) ?_
  rw [Nat.max_eq_right (Nat.le_add_right _ _), hfits.encode_length]
  exact hroom

theorem appendDirectory_noRoom (h : Owned g img live) (hn : n ∈ live) (fuel : ℕ)
    {item : DirectoryItem} (hfits : item.Fits) (hflags : flagsOf g img n &&& flgDirectory ≠ 0)
    (hroom : (freeBlocks g img).length <
      extraBlocks g img n (sizeOfNode g img n + sizeofDirectoryItem)) :
    ∃ e img', e.NoRoom ∧ appendDirectory fuel n item img = .error (.die e) img' ∧
      Exhausted g img' n (sizeOfNode g img n + sizeofDirectoryItem) := by
  have hlen := hfits.encode_length
  rw [appendDirectory_eq h hn fuel item hflags, ← hlen]
  refine writeFileUnchecked_noRoom h hn fuel (encode_ne_nil item) le_rfl (item_fits_word h hfits) ?_
  rw [Nat.max_eq_right (Nat.le_add_right _ _), hlen]
  exact hroom

theorem appendDirectory_full (h : Owned g img live) (hn : n ∈ live) (fuel : ℕ) {item : DirectoryItem}
    (hfits : item.Fits) (hflags : flagsOf g img n &&& flgDirectory ≠ 0)
    (hroom : (freeBlocks g img).length <
      extraBlocks g img n (sizeOfNode g img n + sizeofDirectoryItem)) :
    ∃ e img', appendDirectory fuel n item img = .error (.die e) img' ∧
      Exhausted g img' n (sizeOfNode g img n + sizeofDirectoryItem) := by
  obtain ⟨e, img', -, hrun, hfull⟩ := appendDirectory_noRoom h hn fuel hfits hflags hroom
  exact ⟨e, img', hrun, hfull⟩

/-- Appending a list of items one by one. -/
theorem appendAll_run {items : List DirectoryItem} (h : Owned g img live) (hn : n ∈ live) (fuel : ℕ)
    (hfits : ∀ item ∈ items, item.Fits) (hflags : flagsOf g img n &&& flgDirectory ≠ 0)
    (hroom : extraBlocks g img n (sizeOfNode g img n + items.length * sizeofDirectoryItem) ≤
      (freeBlocks g img).length) :
    ∃ img', items.forM (appendDirectory fuel n) img = .ok () img' ∧
      Written g img img' n (sizeOfNode g img n) (encodeItems items) := by
  induction items generalizing img with
  | nil => exact ⟨img, rfl, Written.refl h hn⟩
  | cons item items ih =>
    have hitem := hfits item (by simp)
    have hmono := g.blocksRequired_mono (show sizeOfNode g img n + sizeofDirectoryItem ≤
      sizeOfNode g img n + (item :: items).length * sizeofDirectoryItem by
        rw [List.length_cons, Nat.succ_mul]
        omega)
    have hmono' := g.blocksRequired_mono (Nat.le_add_right (sizeOfNode g img n) sizeofDirectoryItem)
    obtain ⟨img₁, hrun, hw⟩ := appendDirectory_run h hn fuel hitem hflags (by
      simp only [extraBlocks] at *
      omega)
    have hsize := hw.size le_rfl
    rw [Nat.max_eq_right (Nat.le_add_right _ _), hitem.encode_length] at hsize
    have hfree := hw.freeBlocks_eq h hn
    rw [Nat.max_eq_right (Nat.le_add_right _ _), hitem.encode_length] at hfree
    obtain ⟨img₂, hrest, hw₂⟩ := ih (hw.step.owned h hn)
      (fun x hx => hfits x (List.mem_cons_of_mem _ hx)) (by rwa [hw.step.flags]) (by
        rw [hfree, List.length_drop, extraBlocks, hsize]
        rw [List.length_cons, Nat.succ_mul] at hroom
        simp only [extraBlocks] at *
        rw [show sizeOfNode g img n + sizeofDirectoryItem + items.length * sizeofDirectoryItem =
          sizeOfNode g img n + (items.length * sizeofDirectoryItem + sizeofDirectoryItem) by omega]
        omega)
    refine ⟨img₂, ?_, ?_⟩
    · rw [List.forM, bind_of_ok hrun, hrest]
    · rw [encodeItems_cons]
      exact hw.append h hn hw₂

end Append

/-- The loop of `remove_from_directory` appends every item but one. -/
theorem rebuildLoop_eq (fuel n e : ℕ) (items : List DirectoryItem) (i : ℕ) :
    rebuildLoop fuel n e items i =
      (if i ≤ e then items.eraseIdx (e - i) else items).forM (appendDirectory fuel n) := by
  induction items generalizing i with
  | nil => split <;> rfl
  | cons item items ih =>
    by_cases hie : i = e
    · subst hie
      rw [rebuildLoop, if_neg (by simp), ih, if_neg (by omega), if_pos le_rfl, Nat.sub_self]
      rfl
    · rw [rebuildLoop, if_pos hie, ih]
      by_cases hle : i ≤ e
      · rw [if_pos hle, if_pos (by omega), show e - i = (e - (i + 1)) + 1 by omega,
          List.eraseIdx_cons_succ]
        rfl
      · rw [if_neg hle, if_neg (by omega)]
        rfl

theorem findItem_ok {name : List UInt8} {items : List DirectoryItem} {i e : ℕ} {img img' : Image}
    (h : findItem name items i img = .ok e img') : i ≤ e ∧ e < i + items.length ∧ img' = img := by
  induction items generalizing i with
  | nil => cases h
  | cons item items ih =>
    rw [findItem] at h
    cases hcmp : strcmpEq name (nameBytes (item :: items)) with
    | none =>
      rw [hcmp] at h
      cases h
    | some found =>
      rw [hcmp] at h
      cases found with
      | true =>
        obtain ⟨rfl, rfl⟩ := pure_eq_ok.mp h
        exact ⟨le_rfl, by simp, rfl⟩
      | false =>
        obtain ⟨hle, hlt, rfl⟩ := ih h
        exact ⟨by omega, by rw [List.length_cons]; omega, rfl⟩

/-- The blocks that are free once the tail of the node's chain is given back. -/
def freeAfterTruncate (g : Geometry) (img : Image) (n : ℕ) : List ℕ :=
  (List.range g.blocksCount).filter fun b => !marked img b || decide (b ∈ (blocksOf g img n).tail)

/-- The directory `n` after its item `e` was removed. -/
structure Removed (g : Geometry) (img img' : Image) (n e : ℕ) : Prop where
  step : NodeStep g img img' n
  content : content g img' n = encodeItems ((itemsOf g img n).eraseIdx e)
  blocks : blocksOf g img' n = n :: (freeAfterTruncate g img n).take
    (g.blocksRequired (((itemsOf g img n).length - 1) * sizeofDirectoryItem) - 1)
  lastLink : linkOf g img' (lastOf g img' n) = linkOf g img (lastOf g img' n)

section Remove

variable {g : Geometry} {img img' : Image} {live : Finset ℕ} {n e : ℕ}

theorem Emptied.freeBlocks_eq (hs : Emptied g img img' n) (h : Owned g img live) (hn : n ∈ live) :
    freeBlocks g img' = freeAfterTruncate g img n := by
  refine List.filter_congr fun b hb => ?_
  have hmarks := hs.step.marks b (List.mem_range.mp hb)
  have hused := h.used n hn b
  have hnd := (h.chains n hn).nodup
  obtain ⟨tail, htail⟩ := blocksOf_cons g img n
  rw [hs.blocks, List.mem_singleton] at hmarks
  rw [htail] at hmarks hnd hused ⊢
  rw [Bool.eq_iff_iff]
  simp only [Bool.not_eq_true', Bool.or_eq_true, ← Bool.not_eq_true, hmarks, List.tail_cons]
  by_cases hbn : b = n
  · subst hbn
    simp [hused (by simp), (List.nodup_cons.mp hnd).1]
  · simp only [hbn, List.mem_cons, false_or, not_and, not_not]
    by_cases hb' : b ∈ tail
    · simp [hb']
    · simp [hb']

/-- The blocks given back are enough for fewer items. -/
theorem tail_le_freeAfterTruncate (h : Owned g img live) (hn : n ∈ live) :
    g.blocksRequired (sizeOfNode g img n) - 1 ≤ (freeAfterTruncate g img n).length := by
  have hnd := (h.chains n hn).nodup
  have hrange := (h.chains n hn).range
  have hlen := blocksOf_length g img n
  rw [freeAfterTruncate]
  obtain ⟨tail, htail⟩ := blocksOf_cons g img n
  rw [htail] at hnd hrange hlen ⊢
  rw [← hlen, List.length_cons, Nat.add_sub_cancel, List.tail_cons]
  refine (List.subperm_of_subset (List.nodup_cons.mp hnd).2 fun b hb => ?_).length_le
  rw [List.mem_filter, List.mem_range]
  exact ⟨(hrange b (List.mem_cons_of_mem _ hb)).2, by simp [hb]⟩

theorem removeFromDirectory_run (h : Owned g img live) (hn : n ∈ live) (hd : IsDirectory g img n)
    (hend : Ended g img n) {fuel : ℕ} (hf : g.blocksCount ≤ fuel) {name : List UInt8}
    (hfind : findDirectoryItem ⟨itemsOf g img n⟩ name img = .ok e img) :
    ∃ img', removeFromDirectory fuel n name img = .ok e img' ∧ Removed g img img' n e := by
  obtain ⟨-, hlt, -⟩ := findItem_ok hfind
  rw [Nat.zero_add] at hlt
  obtain ⟨hfits, henc⟩ := hd.items_spec
  obtain ⟨img₁, htrunc, hs⟩ := truncateFile_zero_run h hn hend hf
  have h₁ := hs.step.owned h hn
  have hfree := hs.freeBlocks_eq h hn
  have hsize₁ : sizeOfNode g img₁ n = 0 := by rw [← content_length g img₁ n, hs.content]; rfl
  have hlen : ((itemsOf g img n).eraseIdx e).length = (itemsOf g img n).length - 1 :=
    List.length_eraseIdx_of_lt hlt
  have hmono := g.blocksRequired_mono (show ((itemsOf g img n).length - 1) * sizeofDirectoryItem ≤
    sizeOfNode g img n by rw [hd.size_eq]; exact Nat.mul_le_mul_right _ (Nat.sub_le _ _))
  have hfits' : ∀ item ∈ (itemsOf g img n).eraseIdx e, item.Fits := fun item hi =>
    hfits item ((List.eraseIdx_sublist _ _).subset hi)
  obtain ⟨img₂, happend, hw⟩ := appendAll_run h₁ hn fuel hfits' (by rw [hs.step.flags]; exact hd.flags)
    (by
      have htail := tail_le_freeAfterTruncate h hn
      rw [hfree, extraBlocks, hsize₁, hlen, Nat.zero_add, g.blocksRequired_zero]
      omega)
  have hsub : blocksOf g img₁ n ⊆ blocksOf g img₂ n := by
    rw [hw.blocks]
    exact List.subset_append_left _ _
  refine ⟨img₂, ?_, hs.step.trans hw.step hsub, ?_, ?_, ?_⟩
  · rw [removeFromDirectory, bind_of_ok (readDirectory_run h hn hd), bind_of_ok hfind,
      bind_of_ok htrunc, rebuildLoop_eq, if_pos (Nat.zero_le _), Nat.sub_zero, bind_of_ok happend,
      pure_run]
  · have hend' := overwrite_end (Fs.content g img₁ n) (encodeItems ((itemsOf g img n).eraseIdx e))
    rw [content_length] at hend'
    rw [hw.content, hend', hs.content, List.nil_append]
  · rw [hw.blocks, hs.blocks, hfree, extraBlocks, hsize₁, Nat.zero_add, encodeItems_length hfits',
      hlen, Nat.max_eq_right (Nat.zero_le _), g.blocksRequired_zero, List.singleton_append]
  · rw [hw.lastLink]
    exact hs.links _ (hw.step.range _ (List.mem_of_getLast? hw.step.last)).1

end Remove

end KisLinux.Fs
