import KisLinux.FsReadWrite
import KisLinux.NameTree

/-!
# The directory tree on a volume

A tree whose labels are directory items is laid out on an image when every file
has its bytes, every directory encodes the items below it, and different items
name different live nodes. The root has an item of its own, which no directory
holds. Path lookup is then lookup in the tree, and an operation on one node
leaves the meaning of all the others alone.
-/
namespace KisLinux.Fs
open ByteMemory StateRun NameTree

abbrev TreeNode := Node (List UInt8) DirectoryItem (List UInt8)

abbrev TreeEntries := Entries (List UInt8) DirectoryItem (List UInt8)

/-- The item carries the name `x` as a string. -/
structure Named (x : List UInt8) (item : DirectoryItem) : Prop where
  fits : item.Fits
  name : cString item.name = some x

/-- What the cells of a tree mean on an image. -/
def stored (g : Geometry) (img : Image) : Meaning DirectoryItem (List UInt8) where
  file item d := flagsOf g img item.inode &&& flgDirectory = 0 ∧ content g img item.inode = d
  dir item items :=
    flagsOf g img item.inode &&& flgDirectory ≠ 0 ∧ content g img item.inode = encodeItems items

theorem stored_file {g : Geometry} {img : Image} {item : DirectoryItem} {d : List UInt8} :
    (stored g img).file item d ↔
      flagsOf g img item.inode &&& flgDirectory = 0 ∧ content g img item.inode = d := Iff.rfl

theorem stored_dir {g : Geometry} {img : Image} {item : DirectoryItem} {s : List DirectoryItem} :
    (stored g img).dir item s ↔ flagsOf g img item.inode &&& flgDirectory ≠ 0 ∧
      content g img item.inode = encodeItems s := Iff.rfl

/-- The nodes of a tree. -/
def heads (n : TreeNode) : List ℕ := n.allLabels.map DirectoryItem.inode

structure TreeOn (g : Geometry) (img : Image) (live : Finset ℕ) (n : TreeNode) : Prop where
  owned : Owned g img live
  root : n.label.inode = g.root
  nodup : (heads n).Nodup
  live : ∀ b ∈ heads n, b ∈ live
  all : n.All Named (stored g img)

/-! ## Lookup -/

theorem strcmpEq_append {name x buffer : List UInt8} (rest : List UInt8) (h : 0 ∉ name)
    (hx : cString buffer = some x) : strcmpEq name (buffer ++ rest) = some (decide (x = name)) := by
  induction buffer generalizing name x with
  | nil => cases hx
  | cons b buffer ih =>
    rw [cString] at hx
    by_cases hb : b = 0
    · rw [if_pos hb] at hx
      obtain rfl := Option.some.inj hx
      cases name with
      | nil => simp [strcmpEq, hb]
      | cons c name =>
        have hc : c ≠ b := fun hc => h (by simp [hc, hb])
        simp [strcmpEq, hc]
    · rw [if_neg hb] at hx
      obtain ⟨x', hx', rfl⟩ := Option.map_eq_some_iff.mp hx
      cases name with
      | nil => simp [strcmpEq, hb]
      | cons c name =>
        rw [List.cons_append, strcmpEq]
        by_cases hc : c = b
        · rw [if_pos hc, ih (fun hm => h (List.mem_cons_of_mem _ hm)) hx']
          simp [hc]
        · rw [if_neg hc]
          simp [Ne.symm hc]

theorem nameBytes_cons (item : DirectoryItem) (items : List DirectoryItem) :
    nameBytes (item :: items) = item.name ++ encodeItems items := by
  rw [nameBytes, ← encodeItems, encodeItems_cons, DirectoryItem.encode, List.append_assoc]
  exact List.drop_left' (leBytes_length 8 item.inode)

section Lookup

variable {g : Geometry} {img : Image} {live : Finset ℕ} {P : Meaning DirectoryItem (List UInt8)}

/-- The search of `find_directory_item` is lookup by first match. -/
theorem findItem_run {t : TreeEntries} (ht : t.All Named P) {name : List UInt8} (h0 : 0 ∉ name)
    (i : ℕ) (img : Image) : findItem name t.labels i img =
      (t.index? name).elim (.error (.die .noSuchFile) img) fun e => .ok (i + e) img := by
  induction t using Entries.cons_induction generalizing i with
  | nil => rfl
  | cons y m rest ih =>
    rw [Entries.all_cons] at ht
    rw [Entries.labels_cons, Entries.index?_cons, findItem, nameBytes_cons,
      strcmpEq_append _ h0 ht.1.name]
    by_cases hy : y = name
    · simp [hy]
    · simp only [hy, decide_false, if_false]
      rw [ih ht.2.2]
      cases rest.index? name with
      | none => rfl
      | some e => simp [Nat.add_comm, Nat.add_left_comm]

theorem findDirectoryItem_run {t : TreeEntries} (ht : t.All Named P) {name : List UInt8}
    (h0 : 0 ∉ name) (img : Image) : findDirectoryItem ⟨t.labels⟩ name img =
      (t.index? name).elim (.error (.die .noSuchFile) img) fun e => .ok e img := by
  rw [findDirectoryItem, findItem_run ht h0]
  simp only [Nat.zero_add]

theorem labels_fit {t : TreeEntries} (ht : t.All Named P) : ∀ item ∈ t.labels, item.Fits :=
  fun item hitem => (Entries.all_names ht item hitem).elim fun _ h => h.fits

/-- A stored directory is read as the items of its entries. -/
theorem readDirectory_stored (h : Owned g img live) {item : DirectoryItem} {t : TreeEntries}
    (hitem : item.inode ∈ live) (hdir : (stored g img).dir item t.labels)
    (ht : t.All Named (stored g img)) :
    IsDirectory g img item.inode ∧ itemsOf g img item.inode = t.labels ∧
      readDirectory item.inode img = .ok ⟨t.labels⟩ img := by
  have hd : IsDirectory g img item.inode := ⟨hdir.1, aligned_of_content (labels_fit ht) hdir.2⟩
  have hitems := itemsOf_eq (labels_fit ht) hdir.2
  refine ⟨hd, hitems, ?_⟩
  rw [readDirectory_run h hitem hd, hitems]

/-- A file is no directory to read. -/
theorem readDirectory_file (h : Owned g img live) {item : DirectoryItem} {d : List UInt8}
    (hitem : item.inode ∈ live) (hfile : (stored g img).file item d) :
    readDirectory item.inode img = .error (.die .notDirectory) img := by
  rw [readDirectory, bind_of_ok (h.inode_run hitem), bind_of_ok (h.flags_run hitem), if_pos hfile.1,
    dieFatal_run]

/-- What `locate_path` reports for a path that leads nowhere. -/
def missError : Node.Miss → FsError
  | .behindFile => .notDirectory
  | .noEntry => .noSuchFile

/-- `locate_path` follows the tree. -/
theorem locateLoop_walk {n : TreeNode} {path : Path} {cs : List (List UInt8)} {i : ℕ}
    (h : Owned g img live) (hn : n.All Named (stored g img)) (hlive : ∀ b ∈ heads n, b ∈ live)
    (hpart : ∀ j (hj : j < cs.length), path.part (i + j) = .ok cs[j]) (h0 : ∀ w ∈ cs, 0 ∉ w) :
    locateLoop path cs.length i n.label.inode img =
      match n.walk cs with
      | .ok m => .ok m.label.inode img
      | .error e => .error (.die (missError e)) img := by
  induction cs generalizing n i with
  | nil =>
    rw [Node.walk_nil]
    rfl
  | cons w cs ih =>
    have hself : n.label.inode ∈ live := hlive _ (List.mem_map_of_mem n.label_mem_allLabels)
    cases n with
    | file item d =>
      rw [List.length_cons, locateLoop]
      exact bind_of_error (readDirectory_file h hself hn)
    | dir item sub =>
      obtain ⟨-, -, hread⟩ := readDirectory_stored h hself hn.1 hn.2
      have hfirst : path.part i = .ok w := hpart 0 (Nat.succ_pos _)
      have hfind := findDirectoryItem_run hn.2 (h0 w (by simp)) img
      have hcomponent : findComponent ⟨sub.labels⟩ path i img =
          findDirectoryItem ⟨sub.labels⟩ w img := by
        rw [findComponent, hfirst]
        cases sub with
        | nil => rfl
        | file _ _ _ _ => rfl
        | dir _ _ _ _ => rfl
      have hstep : locateLoop path (w :: cs).length i item.inode img =
          (findComponent ⟨sub.labels⟩ path i >>= fun e =>
            liftExcept (sub.labels[e]?.elim (.error .fault) .ok) >>= fun k =>
              locateLoop path cs.length (i + 1) k.inode) img := by
        rw [List.length_cons, locateLoop]
        exact bind_of_ok hread
      rw [hfind] at hcomponent
      simp only [Node.label, Node.walk] at hstep ⊢
      cases hindex : sub.index? w with
      | none =>
        rw [hindex] at hcomponent
        rw [Entries.find?_eq_none hindex, hstep, bind_of_error hcomponent]
        rfl
      | some e =>
        obtain ⟨k, hk, hget⟩ := Entries.find?_of_index? hindex
        rw [hindex] at hcomponent
        have hsub : ∀ b ∈ heads k, b ∈ live := fun b hb => by
          obtain ⟨l, hl, rfl⟩ := List.mem_map.mp hb
          exact hlive _ (List.mem_map_of_mem
            (List.mem_cons_of_mem _ (Entries.find?_allLabels_subset hk hl)))
        have hrec := ih (Entries.all_find hn.2 hk).1 hsub (i := i + 1)
          (fun j hj => by
            rw [Nat.add_assoc, Nat.add_comm 1 j]
            exact hpart (j + 1) (Nat.succ_lt_succ hj))
          (fun x hx => h0 x (List.mem_cons_of_mem _ hx))
        rw [hstep, bind_of_ok hcomponent, hget, hk]
        exact hrec

/-- `locate_path` finds the node at a path and reports a path without one. -/
theorem locateLoop_run {n : TreeNode} {path : Path} {cs : List (List UInt8)} {i : ℕ}
    (h : Owned g img live) (hn : n.All Named (stored g img)) (hlive : ∀ b ∈ heads n, b ∈ live)
    (hpart : ∀ j (hj : j < cs.length), path.part (i + j) = .ok cs[j]) (h0 : ∀ w ∈ cs, 0 ∉ w) :
    (∀ m, n.locate cs = some m →
      locateLoop path cs.length i n.label.inode img = .ok m.label.inode img) ∧
    (n.locate cs = none →
      ∃ e, locateLoop path cs.length i n.label.inode img = .error (.die e) img) := by
  rw [locateLoop_walk h hn hlive hpart h0]
  cases hwalk : n.walk cs with
  | ok m =>
    have hm := Node.walk_eq_ok.mp hwalk
    refine ⟨fun m' hm' => ?_, fun hnone => by cases hm.symm.trans hnone⟩
    obtain rfl := Option.some.inj (hm.symm.trans hm')
    rfl
  | error e =>
    refine ⟨fun m hm => ?_, fun _ => ⟨missError e, rfl⟩⟩
    cases hwalk.symm.trans (Node.walk_eq_ok.mpr hm)

end Lookup

/-! ## Frames -/

section Frames

variable {g : Geometry} {img img' : Image} {live live' : Finset ℕ} {n m : TreeNode}
  {p : List (List UInt8)} {item : DirectoryItem}

theorem Kept.below (h : Kept g img img' item.inode) :
    (stored g img).Below (stored g img') item where
  file := by
    intro d hd
    rw [stored_file] at hd ⊢
    rw [h.self.flags_eq, h.content_eq]
    exact hd
  dir := by
    intro s hd
    rw [stored_dir] at hd ⊢
    rw [h.self.flags_eq, h.content_eq]
    exact hd

theorem NodeStep.below {b : ℕ} (hs : NodeStep g img img' b) (h : Owned g img live) (hb : b ∈ live)
    (hitem : item.inode ∈ live) (hne : item.inode ≠ b) : (stored g img).Below (stored g img') item :=
  Kept.below (hs.kept h hb hitem hne)

theorem mem_heads {b : ℕ} : b ∈ heads n ↔ ∃ item ∈ n.allLabels, item.inode = b := List.mem_map

theorem label_mem_heads (n : TreeNode) : n.label.inode ∈ heads n :=
  List.mem_map_of_mem n.label_mem_allLabels

namespace TreeOn

theorem label_live (h : TreeOn g img live n) : n.label.inode ∈ live := h.live _ (label_mem_heads n)

theorem item_live (h : TreeOn g img live n) (hitem : item ∈ n.allLabels) : item.inode ∈ live :=
  h.live _ (List.mem_map_of_mem hitem)

theorem labels_nodup (h : TreeOn g img live n) : n.allLabels.Nodup := List.Nodup.of_map _ h.nodup

/-- Items of one tree are told apart by their nodes. -/
theorem item_eq (h : TreeOn g img live n) {item' : DirectoryItem} (hitem : item ∈ n.allLabels)
    (hitem' : item' ∈ n.allLabels) (heq : item.inode = item'.inode) : item = item' :=
  List.inj_on_of_nodup_map h.nodup hitem hitem' heq

theorem heads_located (hm : n.locate p = some m) : heads m ⊆ heads n := by
  intro b hb
  obtain ⟨item, hitem, rfl⟩ := mem_heads.mp hb
  exact List.mem_map_of_mem (Node.locate_allLabels_subset hm hitem)

/-- A node below a path is laid out as the whole tree is. -/
theorem located (h : TreeOn g img live n) (hm : n.locate p = some m) :
    m.All Named (stored g img) ∧ (heads m).Nodup ∧ ∀ b ∈ heads m, b ∈ live := by
  refine ⟨Node.all_locate h.all hm, ?_, fun b hb => h.live b (heads_located hm hb)⟩
  obtain ⟨pre, post, hall, -⟩ := Node.locate_split hm
  have hnd := h.nodup
  rw [heads, hall, List.map_append, List.map_append] at hnd
  exact (List.nodup_append.mp (List.nodup_append.mp hnd).1).2.1

theorem kept (h : TreeOn g img live n) (ho : Owned g img' live')
    (hkept : ∀ b ∈ heads n, Kept g img img' b) (hlive : ∀ b ∈ heads n, b ∈ live') :
    TreeOn g img' live' n where
  owned := ho
  root := h.root
  nodup := h.nodup
  live := hlive
  all := Node.all_mono h.all fun _ hitem => (hkept _ (List.mem_map_of_mem hitem)).below

/-- Changing the node at a path: the new node has to be laid out, everything
outside the old one has to be left alone. -/
theorem update {f : TreeNode → TreeNode} (h : TreeOn g img live n) (hm : n.locate p = some m)
    (ho : Owned g img' live') (hlabel : (f m).label = m.label)
    (hall : (f m).All Named (stored g img')) (hnd : (heads (f m)).Nodup)
    (hnew : ∀ b ∈ heads (f m), b ∈ live' ∧ (b ∈ heads m ∨ b ∉ heads n))
    (hrest : ∀ item ∈ n.allLabels, item ∉ m.allLabels →
      item.inode ∈ live' ∧ (stored g img).Below (stored g img') item) :
    TreeOn g img' live' (n.update f p) := by
  obtain ⟨pre, post, hsplit, hupd⟩ := Node.locate_split hm
  have hold := h.nodup
  have hlabels := h.labels_nodup
  rw [hsplit] at hlabels
  rw [heads, hsplit, List.map_append, List.map_append] at hold
  obtain ⟨hpm, hpost, hdpost⟩ := List.nodup_append.mp hold
  obtain ⟨hpre, -, hdpre⟩ := List.nodup_append.mp hpm
  have hout : ∀ item ∈ pre ++ post, item ∈ n.allLabels ∧ item ∉ m.allLabels := by
    intro item hitem
    obtain ⟨hlpm, -, hldpost⟩ := List.nodup_append.mp hlabels
    have hldpre := (List.nodup_append.mp hlpm).2.2
    rcases List.mem_append.mp hitem with hi | hi
    · exact ⟨by rw [hsplit]; simp [hi], fun hmem => hldpre _ hi _ hmem rfl⟩
    · exact ⟨by rw [hsplit]; simp [hi],
        fun hmem => hldpost _ (List.mem_append_right _ hmem) _ hi rfl⟩
  refine ⟨ho, ?_, ?_, ?_, ?_⟩
  · rw [Node.update_label hm hlabel, h.root]
  · rw [heads, hupd, List.map_append, List.map_append]
    have hsep : ∀ b ∈ heads (f m), b ∉ pre.map DirectoryItem.inode ∧ b ∉ post.map DirectoryItem.inode := by
      intro b hb
      rcases (hnew b hb).2 with hbm | hbn
      · exact ⟨fun hp => hdpre _ hp _ hbm rfl,
          fun hp => hdpost _ (List.mem_append_right _ hbm) _ hp rfl⟩
      · rw [heads, hsplit, List.map_append, List.map_append, List.mem_append, List.mem_append,
          not_or, not_or] at hbn
        exact ⟨hbn.1.1, hbn.2⟩
    refine List.nodup_append.mpr ⟨List.nodup_append.mpr ⟨hpre, hnd, ?_⟩, hpost, ?_⟩
    · rintro a ha b hb rfl
      exact (hsep a hb).1 ha
    · rintro a ha b hb rfl
      rcases List.mem_append.mp ha with ha | ha
      · exact hdpost _ (List.mem_append_left _ ha) _ hb rfl
      · exact (hsep a ha).2 hb
  · intro b hb
    obtain ⟨item, hitem, rfl⟩ := mem_heads.mp hb
    rw [hupd, List.mem_append, List.mem_append] at hitem
    rcases hitem with (hi | hi) | hi
    · have ho' := hout item (List.mem_append_left _ hi)
      exact (hrest item ho'.1 ho'.2).1
    · exact (hnew _ (List.mem_map_of_mem hi)).1
    · have ho' := hout item (List.mem_append_right _ hi)
      exact (hrest item ho'.1 ho'.2).1
  · exact Node.all_update h.all h.labels_nodup hm hall hlabel
      fun item hitem hnot => (hrest item hitem hnot).2

/-- A step on the node of one item leaves the meaning of all other items alone. -/
theorem step_below (h : TreeOn g img live n) (hitem : item ∈ n.allLabels)
    (hs : NodeStep g img img' item.inode) {item' : DirectoryItem} (hitem' : item' ∈ n.allLabels)
    (hne : item' ≠ item) : (stored g img).Below (stored g img') item' :=
  hs.below h.owned (h.item_live hitem) (h.item_live hitem') fun heq =>
    hne (h.item_eq hitem' hitem heq)

end TreeOn

end Frames

/-! ## Changes -/

/-- What `init_new_file` makes for an item. -/
def emptyNode (flags : UInt8) (item : DirectoryItem) : TreeNode :=
  if flags &&& flgDirectory = 0 then .file item [] else .dir item .nil

@[simp] theorem emptyNode_label (flags : UInt8) (item : DirectoryItem) :
    (emptyNode flags item).label = item := by
  unfold emptyNode
  split <;> rfl

@[simp] theorem emptyNode_allLabels (flags : UInt8) (item : DirectoryItem) :
    (emptyNode flags item).allLabels = [item] := by
  unfold emptyNode
  split <;> rfl

@[simp] theorem emptyNode_heads (flags : UInt8) (item : DirectoryItem) :
    heads (emptyNode flags item) = [item.inode] := by
  unfold emptyNode
  split <;> rfl

namespace TreeOn

variable {g : Geometry} {img img' : Image} {live : Finset ℕ} {n : TreeNode}
  {p : List (List UInt8)} {item : DirectoryItem} {sub : TreeEntries}

theorem written {o : ℕ} {d data : List UInt8} (h : TreeOn g img live n)
    (hm : n.locate p = some (.file item d)) (hw : Written g img img' item.inode o data) :
    TreeOn g img' live (n.update (Node.mapData fun d => overwrite d o data) p) := by
  obtain ⟨hall, hnd, hlive⟩ := h.located hm
  have hitem : item ∈ n.allLabels := Node.locate_allLabels_subset hm (by simp [Node.allLabels])
  refine h.update hm (hw.step.owned h.owned (h.item_live hitem)) rfl ⟨?_, ?_⟩ hnd
    (fun b hb => ⟨hlive b hb, Or.inl hb⟩) fun item' hitem' hnot => ⟨h.item_live hitem', ?_⟩
  · rw [hw.step.flags]
    exact hall.1
  · rw [hw.content, hall.2]
  · exact h.step_below hitem hw.step hitem' fun heq => hnot (by simp [heq, Node.allLabels])

theorem created {b : ℕ} {flags : UInt8} (h : TreeOn g img live n)
    (hc : Created g img img' b flags) : TreeOn g img' (insert b live) n ∧ b ∉ heads n :=
  ⟨h.kept (hc.owned h.owned) (fun m hm => hc.kept h.owned (h.live m hm))
    fun m hm => Finset.mem_insert_of_mem (h.live m hm), fun hb => hc.notMem h.owned (h.live b hb)⟩

/-- Everything below a directory but its own item. -/
theorem sub_ne (h : TreeOn g img live n) (hm : n.locate p = some (.dir item sub))
    {item' : DirectoryItem} (hitem' : item' ∈ sub.allLabels) : item'.inode ≠ item.inode := by
  have hnd := (h.located hm).2.1
  rw [heads, Node.allLabels, List.map_cons] at hnd
  exact fun heq => (List.nodup_cons.mp hnd).1 (heq ▸ List.mem_map_of_mem hitem')

theorem appended {x : List UInt8} {k : TreeNode} (h : TreeOn g img live n)
    (hm : n.locate p = some (.dir item sub)) (hx : Named x k.label)
    (hk : k.All Named (stored g img)) (hknd : (heads k).Nodup)
    (hklive : ∀ b ∈ heads k, b ∈ live ∧ b ∉ heads n)
    (hw : Written g img img' item.inode (sizeOfNode g img item.inode) k.label.encode) :
    TreeOn g img' live (n.update (Node.addEntry x k) p) := by
  obtain ⟨hall, hnd, hlive⟩ := h.located hm
  have hmsub := Node.locate_allLabels_subset hm
  have hitem : item ∈ n.allLabels := hmsub (by simp [Node.allLabels])
  have hheads : heads (Node.addEntry x k (.dir item sub)) = heads (.dir item sub) ++ heads k := by
    simp [Node.addEntry, heads, Node.allLabels]
  have hend := overwrite_end (content g img item.inode) k.label.encode
  rw [content_length] at hend
  refine h.update hm (hw.step.owned h.owned (h.item_live hitem)) rfl ⟨⟨?_, ?_⟩, ?_⟩ ?_
    (fun b hb => ?_) fun item' hitem' hnot => ⟨h.item_live hitem', ?_⟩
  · rw [hw.step.flags]
    exact hall.1.1
  · rw [hw.content, hend, hall.1.2, Entries.labels_snoc, encodeItems_append, encodeItems_cons,
      encodeItems_nil, List.append_nil]
  · rw [Entries.all_snoc]
    refine ⟨Entries.all_mono hall.2 fun item' hitem' => ?_, hx, Node.all_mono hk fun item' hitem' => ?_⟩
    · exact hw.step.below h.owned (h.item_live hitem)
        (h.item_live (hmsub (List.mem_cons_of_mem _ hitem'))) (h.sub_ne hm hitem')
    · have hnew := hklive _ (List.mem_map_of_mem hitem')
      exact hw.step.below h.owned (h.item_live hitem) hnew.1
        fun heq => hnew.2 (heq ▸ List.mem_map_of_mem hitem)
  · rw [hheads]
    refine List.nodup_append.mpr ⟨hnd, hknd, ?_⟩
    rintro a ha b hb rfl
    exact (hklive a hb).2 (heads_located hm ha)
  · rw [hheads, List.mem_append] at hb
    rcases hb with hb | hb
    · exact ⟨hlive b hb, Or.inl hb⟩
    · exact ⟨(hklive b hb).1, Or.inr (hklive b hb).2⟩
  · exact h.step_below hitem hw.step hitem' fun heq => hnot (by simp [heq, Node.allLabels])

theorem removed {x : List UInt8} {e : ℕ} (h : TreeOn g img live n)
    (hm : n.locate p = some (.dir item sub)) (he : sub.index? x = some e)
    (hitems : itemsOf g img item.inode = sub.labels) (hr : Removed g img img' item.inode e) :
    TreeOn g img' live (n.update (Node.eraseEntry x) p) := by
  obtain ⟨hall, hnd, hlive⟩ := h.located hm
  obtain ⟨k, hk, -⟩ := Entries.find?_of_index? he
  obtain ⟨pre, post, hsplit, -, herase⟩ := Entries.allLabels_split hk
  have hmsub := Node.locate_allLabels_subset hm
  have hitem : item ∈ n.allLabels := hmsub (by simp [Node.allLabels])
  have hsub : (heads (Node.eraseEntry x (.dir item sub))).Sublist (heads (.dir item sub)) := by
    refine List.Sublist.map _ (List.Sublist.cons_cons _ ?_)
    rw [herase, hsplit]
    exact (List.sublist_append_left pre _).append_right post
  refine h.update hm (hr.step.owned h.owned (h.item_live hitem)) rfl ⟨⟨?_, ?_⟩, ?_⟩ (hnd.sublist hsub)
    (fun b hb => ⟨hlive b (hsub.subset hb), Or.inl (hsub.subset hb)⟩)
    fun item' hitem' hnot => ⟨h.item_live hitem', ?_⟩
  · rw [hr.step.flags]
    exact hall.1.1
  · rw [hr.content, hitems, Entries.labels_erase he]
  · refine Entries.all_mono (Entries.all_erase hall.2) fun item' hitem' => ?_
    have hmem : item' ∈ sub.allLabels := by
      rw [hsplit]
      rw [herase, List.mem_append] at hitem'
      rcases hitem' with hi | hi <;> simp [hi]
    exact hr.step.below h.owned (h.item_live hitem)
      (h.item_live (hmsub (List.mem_cons_of_mem _ hmem))) (h.sub_ne hm hmem)
  · exact h.step_below hitem hr.step hitem' fun heq => hnot (by simp [heq, Node.allLabels])

end TreeOn

/-! ## A small tree -/

/-- Four blocks of 512 bytes. -/
def treeVolume : Geometry where
  blockSize := 512
  blocksCount := 4
  root := 1
  header_lt := by decide
  metadata_le := by decide
  root_lt := Nat.one_lt_succ_succ 2
  size_lt := by decide

/-- The item of the file `a`, whose node is in block 2. -/
def treeItem : DirectoryItem := ⟨2, 97 :: List.replicate 255 0⟩

/-- A root directory with the empty file `a`; block 3 is free. -/
def treeImage : Image where
  bytes a :=
    if a < 512 then (treeVolume.superblock ++ [7]).getD a 0
    else if a < 1024 then (header 1 264 flgDirectory ++ leBytes 8 2 ++ [97]).getD (a - 512) 0
    else (header 2 0 flgFile).getD (a - 1024) 0
  mapped := 2048
  stores := []

def tree : TreeNode := .dir ⟨1, []⟩ (.file [97] treeItem [] .nil)

theorem treeImage_onVolume : OnVolume treeVolume treeImage where
  mapped_eq := rfl
  superblock_eq := by decide +kernel
  guarded := fun s hs => absurd hs List.not_mem_nil

theorem treeImage_treeOn : TreeOn treeVolume treeImage {1, 2} tree where
  owned := (ChainsApart.of_heads treeImage_onVolume (by decide) (by decide +kernel)).owned
    (by decide +kernel)
  root := rfl
  nodup := by decide
  live := by decide
  all := by
    refine ⟨⟨?_, ?_⟩, ⟨⟨?_, ?_⟩, ?_⟩, ⟨?_, ?_⟩, trivial⟩
    all_goals decide +kernel

end KisLinux.Fs
