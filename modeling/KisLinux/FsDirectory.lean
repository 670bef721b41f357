import KisLinux.FsDirectoryItems
import KisLinux.FsFormat

/-!
# Directories

The content of a directory is the concatenation of its encoded items. Reading,
appending and removing items are described on that list. Removal empties the
directory and appends the other items again, so the chain is rebuilt from the
lowest blocks that are free once the old chain is given back.
-/
namespace KisLinux.Fs
open ByteMemory StateRun LinkedChain

/-- The items that the bytes of the node `n` spell. -/
def itemsOf (g : Geometry) (img : Image) (n : ℕ) : List DirectoryItem :=
  decodeItems (sizeOfNode g img n / sizeofDirectoryItem) (content g img n)

/-- A node that `read_directory` accepts. -/
structure IsDirectory (g : Geometry) (img : Image) (n : ℕ) : Prop where
  flags : flagsOf g img n &&& flgDirectory ≠ 0
  aligned : sizeOfNode g img n % sizeofDirectoryItem = 0

section Items

variable {g : Geometry} {img : Image} {live : Finset ℕ} {n : ℕ}

theorem itemsOf_length (g : Geometry) (img : Image) (n : ℕ) :
    (itemsOf g img n).length = sizeOfNode g img n / sizeofDirectoryItem := decodeItems_length _ _

theorem IsDirectory.size_eq (hd : IsDirectory g img n) :
    sizeOfNode g img n = (itemsOf g img n).length * sizeofDirectoryItem := by
  rw [itemsOf_length, Nat.div_mul_cancel (Nat.dvd_of_mod_eq_zero hd.aligned)]

theorem IsDirectory.items_spec (hd : IsDirectory g img n) :
    (∀ item ∈ itemsOf g img n, item.Fits) ∧ encodeItems (itemsOf g img n) = content g img n := by
  apply encodeItems_decodeItems
  rw [content_length, Nat.div_mul_cancel (Nat.dvd_of_mod_eq_zero hd.aligned)]

/-- A node whose bytes encode items is read as these items. -/
theorem itemsOf_eq {items : List DirectoryItem} (hfits : ∀ item ∈ items, item.Fits)
    (hc : content g img n = encodeItems items) : itemsOf g img n = items := by
  have hlen : sizeOfNode g img n = items.length * sizeofDirectoryItem := by
    rw [← content_length g img n, hc, encodeItems_length hfits]
  rw [itemsOf, hlen, Nat.mul_div_cancel _ (by simp [sizeofDirectoryItem]), hc,
    decodeItems_encodeItems hfits]

theorem aligned_of_content {items : List DirectoryItem} (hfits : ∀ item ∈ items, item.Fits)
    (hc : content g img n = encodeItems items) :
    sizeOfNode g img n % sizeofDirectoryItem = 0 := by
  rw [← content_length g img n, hc, encodeItems_length hfits, Nat.mul_mod_left]

/-- A directory that is left alone keeps its items. -/
theorem Kept.items {img' : Image} (hk : Kept g img img' n) (hd : IsDirectory g img n) :
    IsDirectory g img' n ∧ itemsOf g img' n = itemsOf g img n := by
  refine ⟨⟨?_, ?_⟩, ?_⟩
  · rw [hk.self.flags_eq]
    exact hd.flags
  · rw [hk.self.size_eq]
    exact hd.aligned
  · rw [itemsOf, itemsOf, hk.self.size_eq, hk.content_eq]

theorem readDirectory_run (h : Owned g img live) (hn : n ∈ live) (hd : IsDirectory g img n) :
    readDirectory n img = .ok ⟨itemsOf g img n⟩ img := by
  have hsize := g.size_lt
  have hbound := h.size_bound hn
  have hfit : 0 + sizeOfNode g img n < wordSize := by
    simp only [wordSize]
    omega
  have hread := readFile_run h hn (Nat.zero_le _) hfit
  rw [List.drop_zero, ← content_length g img n, List.take_length, content_length] at hread
  rw [readDirectory, bind_of_ok (h.inode_run hn), bind_of_ok (h.flags_run hn), if_neg hd.flags,
    bind_of_ok (h.size_run hn), if_neg (by simp [hd.aligned]), bind_of_ok hread, pure_run]
  rfl

/-- A node that is no directory is reported, as is a ragged one. -/
theorem readDirectory_not (h : Owned g img live) (hn : n ∈ live) (hd : ¬ IsDirectory g img n) :
    ∃ e, readDirectory n img = .error (.die e) img := by
  by_cases hflags : flagsOf g img n &&& flgDirectory = 0
  · exact ⟨.notDirectory, by
      rw [readDirectory, bind_of_ok (h.inode_run hn), bind_of_ok (h.flags_run hn), if_pos hflags,
        dieFatal_run]⟩
  · have haligned : sizeOfNode g img n % sizeofDirectoryItem ≠ 0 := fun hal => hd ⟨hflags, hal⟩
    exact ⟨.readDirectory, by
      rw [readDirectory, bind_of_ok (h.inode_run hn), bind_of_ok (h.flags_run hn), if_neg hflags,
        bind_of_ok (h.size_run hn), if_pos haligned, dieFatal_run]⟩

end Items

end KisLinux.Fs
