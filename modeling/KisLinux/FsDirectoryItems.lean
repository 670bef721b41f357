import KisLinux.FsManage

/-!
# Directory items as bytes

An item is a number of eight bytes and a name field of fixed length. Any slot of
that length is an item, and a list of items is the concatenation of its slots.
-/
namespace KisLinux.Fs
open ByteMemory

/-- An item that occupies exactly its slot. -/
structure DirectoryItem.Fits (item : DirectoryItem) : Prop where
  inode_lt : item.inode < wordSize
  name_length : item.name.length = fileNameLength

/-- The bytes of a list of items. -/
def encodeItems (items : List DirectoryItem) : List UInt8 := items.flatMap DirectoryItem.encode

@[simp] theorem encodeItems_nil : encodeItems [] = [] := rfl

@[simp] theorem encodeItems_cons (item : DirectoryItem) (items : List DirectoryItem) :
    encodeItems (item :: items) = item.encode ++ encodeItems items := by simp [encodeItems]

@[simp] theorem encodeItems_append (items items' : List DirectoryItem) :
    encodeItems (items ++ items') = encodeItems items ++ encodeItems items' := by
  simp [encodeItems]

theorem DirectoryItem.Fits.encode_length {item : DirectoryItem} (h : item.Fits) :
    item.encode.length = sizeofDirectoryItem := by
  rw [DirectoryItem.encode, List.length_append, leBytes_length, h.name_length]
  rfl

theorem encodeItems_length {items : List DirectoryItem} (h : ∀ item ∈ items, item.Fits) :
    (encodeItems items).length = items.length * sizeofDirectoryItem := by
  induction items with
  | nil => simp
  | cons item items ih =>
    rw [encodeItems_cons, List.length_append, (h item (by simp)).encode_length,
      ih fun x hx => h x (List.mem_cons_of_mem _ hx), List.length_cons, Nat.succ_mul, Nat.add_comm]

theorem decode_encode {item : DirectoryItem} (h : item.Fits) : .decode item.encode = item := by
  cases item with
  | mk inode name =>
    have hname : (name.take fileNameLength) = name := List.take_of_length_le h.name_length.le
    have hinode : leNat (leBytes 8 inode) = inode := leNat_leBytes h.inode_lt
    simp [DirectoryItem.decode, DirectoryItem.encode, hname, hinode]

@[simp] theorem decodeItems_encodeItems {items : List DirectoryItem} (h : ∀ item ∈ items, item.Fits) :
    decodeItems items.length (encodeItems items) = items := by
  induction items with
  | nil => rfl
  | cons item items ih =>
    have hfits := h item (by simp)
    have hlen := hfits.encode_length
    rw [List.length_cons, decodeItems, encodeItems_cons, ← hlen, List.take_left, List.drop_left,
      decode_encode hfits, ih fun x hx => h x (List.mem_cons_of_mem _ hx)]

/-- Any slot decodes to an item that fits and encodes back. -/
theorem encode_decode {b : List UInt8} (h : b.length = sizeofDirectoryItem) :
    (DirectoryItem.decode b).Fits ∧ (DirectoryItem.decode b).encode = b := by
  have h8 : (b.take 8).length = 8 := by
    rw [List.length_take, h]
    rfl
  refine ⟨⟨?_, ?_⟩, ?_⟩
  · have := leNat_lt (b.take 8)
    rwa [h8] at this
  · simp [DirectoryItem.decode, h, sizeofDirectoryItem, fileNameLength]
  · have hname : (b.drop 8).take fileNameLength = b.drop 8 :=
      List.take_of_length_le (by simp [h, sizeofDirectoryItem, fileNameLength])
    have hinode := leBytes_leNat (b.take 8)
    rw [h8] at hinode
    rw [DirectoryItem.encode, DirectoryItem.decode, hname, hinode, List.take_append_drop]

theorem encodeItems_decodeItems {n : ℕ} {b : List UInt8} (h : b.length = n * sizeofDirectoryItem) :
    (∀ item ∈ decodeItems n b, item.Fits) ∧ encodeItems (decodeItems n b) = b := by
  induction n generalizing b with
  | zero =>
    rw [Nat.zero_mul] at h
    rw [List.eq_nil_of_length_eq_zero h]
    exact ⟨by simp [decodeItems], rfl⟩
  | succ n ih =>
    rw [Nat.succ_mul] at h
    obtain ⟨hfits, henc⟩ := encode_decode (b := b.take sizeofDirectoryItem) (by
      rw [List.length_take, h]
      omega)
    obtain ⟨hrest, hencrest⟩ := ih (b := b.drop sizeofDirectoryItem) (by
      rw [List.length_drop, h]
      omega)
    refine ⟨List.forall_mem_cons.mpr ⟨hfits, hrest⟩, ?_⟩
    rw [decodeItems, encodeItems_cons, henc, hencrest, List.take_append_drop]

@[simp] theorem decodeItems_length (n : ℕ) (b : List UInt8) : (decodeItems n b).length = n := by
  induction n generalizing b with
  | zero => rfl
  | succ n ih => simp [decodeItems, ih]

end KisLinux.Fs
