import KisLinux.FsReadWrite
import KisLinux.NetFraming
import KisLinux.NetTree

/-!
# Requests that end in `die_fatal`

A refusal in front of the first store leaves the volume as it was. Write stores
the new size before it looks for blocks, and Create takes a block for the node
before it looks at the parent, so that every later failure leaves a trace.
-/
namespace KisLinux.Net
open ByteMemory StateRun NameTree Fs

/-- The lookup table and all live nodes are as before. -/
structure Unchanged (g : Geometry) (live : Finset ℕ) (img img' : Image) : Prop where
  table : ∀ b < g.blocksCount, marked img' b = marked img b
  nodes : ∀ n ∈ live, SameNode g img img' n

theorem Unchanged.refl (g : Geometry) (live : Finset ℕ) (img : Image) : Unchanged g live img img :=
  ⟨fun _ _ => rfl, fun n _ => .refl g img n⟩

section Answers

variable {s s' : Server} {e : FsError}

/-- An answer is sent, or a closed connection ends the process; it never dies of an error. -/
theorem answer_ne_die {x : OutM Bool} {w : List UInt8} (hx : Sends x w) (s : Server) :
    answer x s ≠ .error (.die e) s' := by
  obtain ⟨out, hrun, -⟩ := hx s.output
  rw [answer, bind_of_ok (onOutput_of_ok hrun)]
  split
  · exact fun h => by cases h
  · exact fun h => by cases h

/-- The only thing that the status string can fail for is its memory. -/
theorem writeEmptyError_die (h : writeEmptyError s = .error (.die e) s') : e = .memory := by
  rw [writeEmptyError, bind_of_ok (get_run s)] at h
  split at h
  · cases h
  · rcases bind_eq_error.mp h with hstr | ⟨str, s₁, hstr, hanswer⟩
    · obtain ⟨address, s₂, -, hnone⟩ := (bind_eq_error.mp hstr).resolve_left fun hmalloc => by
        obtain ⟨t, ht, -⟩ := onPart_eq_error hmalloc
        cases ht
      cases address with
      | none =>
        obtain ⟨he, -⟩ := EStateM.Result.error.inj hnone
        exact (Stop.die.inj he).symm
      | some a => cases hnone
    · obtain ⟨address, s₂, -, hsome⟩ := bind_eq_ok.mp hstr
      cases address with
      | none => cases hsome
      | some a =>
        obtain ⟨rfl, -⟩ := EStateM.Result.ok.inj hsome
        have hnot := @answer_ne_die s' e _ _ (sends_string (b := .block a ([] ++ [0]))
          (by simp [Buffer.block])) s₁
        exact (hnot hanswer).elim

end Answers

/-! ## Paths -/

/-- The path of a request leads to the node `n`. -/
def LeadsTo (fds : FsDescriptors) (img : Image) (path : NetString) (n : ℕ) : Prop :=
  ∃ p q, cString path.string.bytes = some p ∧ splitPath p = .ok q ∧
    locatePath fds q img = .ok n img

/-- Without its last component, the path of a request leads to the node `n`; the
last component is `w`. -/
def LeadsToParent (fds : FsDescriptors) (img : Image) (path : NetString) (n : ℕ)
    (w : List UInt8) : Prop :=
  ∃ p q, cString path.string.bytes = some p ∧ splitPath p = .ok q ∧
    locatePath fds (parentPath q) img = .ok n img ∧ q.part (parentPath q).count = .ok w

/-- A path argument that splits into the components `cs`. -/
def PathArg (path : NetString) (q : Path) (cs : List (List UInt8)) : Prop :=
  ∃ p, cString path.string.bytes = some p ∧ splitPath p = .ok q ∧ Spells p cs ∧ SplitsTo q cs

theorem liftArg_ok {α : Type} {x : Except Stop α} {a : α} {s s' : Server}
    (h : onImage (Fs.liftExcept x) s = .ok a s') : x = .ok a ∧ s' = s := by
  cases x with
  | ok b =>
    obtain ⟨rfl, rfl⟩ := EStateM.Result.ok.inj h
    exact ⟨rfl, rfl⟩
  | error e => cases h

theorem liftArg_error {α : Type} {x : Except Stop α} {e : Stop} {s s' : Server}
    (h : onImage (Fs.liftExcept x) s = .error e s') : x = .error e ∧ s' = s := by
  cases x with
  | ok b => cases h
  | error e' =>
    obtain ⟨rfl, rfl⟩ := EStateM.Result.error.inj h
    exact ⟨rfl, rfl⟩

section Paths

variable {g : Geometry} {live : Finset ℕ} {tree : TreeNode} {fds : FsDescriptors} {s s' : Server}
  {path : NetString} {q : Path} {e : Stop} {n : ℕ}

theorem splitArg_ok (h : splitArg path s = .ok q s') : s' = s ∧ ∃ cs, PathArg path q cs := by
  unfold splitArg at h
  cases hp : cString path.string.bytes with
  | none =>
    rw [hp] at h
    cases h
  | some p =>
    rw [hp] at h
    obtain ⟨img, hsplit, rfl⟩ := onPart_eq_ok h
    rcases splitPath_cases (zero_notMem_of_cString hp) with ⟨cs, q', hspells, hq', hs⟩ | hbad
    · rw [hq'] at hsplit
      obtain ⟨rfl, rfl⟩ := EStateM.Result.ok.inj hsplit
      exact ⟨rfl, cs, p, hp, hq', hspells, hs⟩
    · rw [hbad] at hsplit
      cases hsplit

/-- The components of a path argument can be split off, or nothing is done. -/
theorem splitArg_error (h : splitArg path s = .error e s') :
    s' = s ∧ ∀ p q, cString path.string.bytes = some p → splitPath p ≠ .ok q := by
  unfold splitArg at h
  cases hp : cString path.string.bytes with
  | none =>
    rw [hp] at h
    obtain ⟨-, rfl⟩ := EStateM.Result.error.inj h
    exact ⟨rfl, fun p q hp' => by cases hp'⟩
  | some p =>
    rw [hp] at h
    obtain ⟨img, hsplit, rfl⟩ := onPart_eq_error h
    cases hq : splitPath p with
    | ok q =>
      rw [hq] at hsplit
      cases hsplit
    | error e' =>
      rw [hq] at hsplit
      obtain ⟨-, rfl⟩ := EStateM.Result.error.inj hsplit
      refine ⟨rfl, fun p' q hp' hq' => ?_⟩
      obtain rfl := Option.some.inj hp'
      rw [hq] at hq'
      cases hq'

/-- A path leads to one node at most. -/
theorem LeadsTo.unique {img : Image} {m : ℕ} (h : LeadsTo fds img path n)
    (h' : LeadsTo fds img path m) : m = n := by
  obtain ⟨p, q, hp, hq, hn⟩ := h
  obtain ⟨p', q', hp', hq', hm⟩ := h'
  obtain rfl := Option.some.inj (hp.symm.trans hp')
  obtain rfl := Except.ok.inj (hq.symm.trans hq')
  exact (EStateM.Result.ok.inj (hm.symm.trans hn)).1

theorem LeadsTo.located {img : Image} (h : LeadsTo fds img path n) (htree : TreeOn g img live tree)
    (hroot : fds.rootInode = g.root) : ∃ cs m, tree.locate cs = some m ∧ m.label.inode = n := by
  obtain ⟨p, q, hp, hq, hn⟩ := h
  rcases splitPath_cases (zero_notMem_of_cString hp) with ⟨cs, q', hspells, hq', hs⟩ | hbad
  · obtain rfl := Except.ok.inj (hq.symm.trans hq')
    obtain ⟨m, hm, rfl, -⟩ :=
      locatePath_ok htree hroot hs (fun w hw => (hspells.names w hw).2.2) hn
    exact ⟨cs, m, hm, rfl⟩
  · rw [hq] at hbad
    cases hbad

theorem LeadsTo.mem {img : Image} (h : LeadsTo fds img path n) (htree : TreeOn g img live tree)
    (hroot : fds.rootInode = g.root) : n ∈ live := by
  obtain ⟨cs, m, hm, rfl⟩ := h.located htree hroot
  exact (htree.located hm).2.2 _ (label_mem_heads m)

/-- A handler that looks up its path fails there, without a trace, or goes on
with the node. -/
theorem locateArg_error {α : Type} {k : ℕ → SrvM α}
    (h : (splitArg path >>= fun q => onImage (locatePath fds q) >>= k) s = .error e s') :
    (s' = s ∧ ∀ n, ¬ LeadsTo fds s.image path n) ∨
      ∃ n, LeadsTo fds s.image path n ∧ k n s = .error e s' := by
  rcases bind_eq_error.mp h with hsplit | ⟨q, s₁, hsplit, hrest⟩
  · obtain ⟨rfl, hbad⟩ := splitArg_error hsplit
    refine Or.inl ⟨rfl, ?_⟩
    rintro n ⟨p, q, hp, hq, -⟩
    exact hbad p q hp hq
  obtain ⟨rfl, cs, p, hp, hq, -, -⟩ := splitArg_ok hsplit
  rcases bind_eq_error.mp hrest with hlocate | ⟨n, s₂, hlocate, hk⟩
  · obtain ⟨img, hpath, rfl⟩ := onImage_eq_error hlocate
    have himg := locatePath_readOnly fds q s₁.image
    rw [hpath] at himg
    obtain rfl : img = s₁.image := himg
    refine Or.inl ⟨rfl, ?_⟩
    rintro m ⟨p', q', hp', hq', hm⟩
    obtain rfl := Option.some.inj (hp.symm.trans hp')
    obtain rfl := Except.ok.inj (hq.symm.trans hq')
    rw [hpath] at hm
    cases hm
  · obtain ⟨img, hpath, rfl⟩ := onPart_eq_ok hlocate
    obtain rfl := (locatePath_readOnly fds q).state_eq hpath
    exact Or.inr ⟨n, ⟨p, q, hp, hq, hpath⟩, hk⟩

/-- The same for the handlers that look up a directory and a name in it. -/
theorem parentArg_error {α : Type} {k : ℕ → List UInt8 → SrvM α}
    (h : (splitArg path >>= fun q => onImage (locatePath fds (parentPath q)) >>= fun n =>
      onImage (Fs.liftExcept (q.part (parentPath q).count)) >>= k n) s = .error e s') :
    (s' = s ∧ ∀ n w, ¬ LeadsToParent fds s.image path n w) ∨
      ∃ n w, LeadsToParent fds s.image path n w ∧ k n w s = .error e s' := by
  rcases bind_eq_error.mp h with hsplit | ⟨q, s₁, hsplit, hrest⟩
  · obtain ⟨rfl, hbad⟩ := splitArg_error hsplit
    refine Or.inl ⟨rfl, ?_⟩
    rintro n w ⟨p, q, hp, hq, -⟩
    exact hbad p q hp hq
  obtain ⟨rfl, cs, p, hp, hq, -, -⟩ := splitArg_ok hsplit
  have hnone : ∀ {n w}, LeadsToParent fds s₁.image path n w →
      locatePath fds (parentPath q) s₁.image = .ok n s₁.image ∧
        q.part (parentPath q).count = .ok w := by
    rintro n w ⟨p', q', hp', hq', hn, hw⟩
    obtain rfl := Option.some.inj (hp.symm.trans hp')
    obtain rfl := Except.ok.inj (hq.symm.trans hq')
    exact ⟨hn, hw⟩
  rcases bind_eq_error.mp hrest with hlocate | ⟨n, s₂, hlocate, hnamed⟩
  · obtain ⟨img, hpath, rfl⟩ := onImage_eq_error hlocate
    have himg := locatePath_readOnly fds (parentPath q) s₁.image
    rw [hpath] at himg
    obtain rfl : img = s₁.image := himg
    refine Or.inl ⟨rfl, fun m w hm => ?_⟩
    cases hpath.symm.trans (hnone hm).1
  obtain ⟨img, hpath, rfl⟩ := onPart_eq_ok hlocate
  obtain rfl := (locatePath_readOnly fds (parentPath q)).state_eq hpath
  rcases bind_eq_error.mp hnamed with hpart | ⟨w, s₃, hpart, hk⟩
  · obtain ⟨hbad, rfl⟩ := liftArg_error hpart
    refine Or.inl ⟨rfl, fun m w hm => ?_⟩
    cases hbad.symm.trans (hnone hm).2
  · obtain ⟨hw, rfl⟩ := liftArg_ok hpart
    exact Or.inr ⟨n, w, ⟨p, q, hp, hq, hpath, hw⟩, hk⟩

theorem parentPath_count {cs : List (List UInt8)} (hs : SplitsTo q cs) (hne : cs ≠ []) :
    (parentPath q).count ≤ cs.length := by
  have hpos := List.length_pos_iff.mpr hne
  have hsub : cs.length + wordSize - 1 = cs.length - 1 + wordSize := by omega
  rw [parentPath, hs.count_eq, wsub, hsub, Nat.add_mod_right]
  exact (Nat.mod_le _ _).trans (Nat.sub_le _ _)

/-- The node above the name is one of the tree, and the name is a string. -/
theorem LeadsToParent.located {img : Image} {w : List UInt8} (h : LeadsToParent fds img path n w)
    (htree : TreeOn g img live tree) (hroot : fds.rootInode = g.root) :
    (∃ cs m, tree.locate cs = some m ∧ m.label.inode = n) ∧ 0 ∉ w := by
  obtain ⟨p, q, hp, hq, hn, hw⟩ := h
  rcases splitPath_cases (zero_notMem_of_cString hp) with ⟨cs, q', hspells, hq', hs⟩ | hbad
  · obtain rfl := Except.ok.inj (hq.symm.trans hq')
    by_cases hne : cs = []
    · subst hne
      exact absurd hn (locateParent_nil hs)
    have hcount := parentPath_count hs hne
    obtain ⟨k, hk⟩ : ∃ k, k = (parentPath q).count := ⟨_, rfl⟩
    rw [← hk] at hcount hw
    have hlen : (cs.take k).length = k := by rw [List.length_take, Nat.min_eq_left hcount]
    rw [locatePath, ← hk, ← hlen, hroot] at hn
    obtain ⟨m, hm, rfl, -⟩ := locateLoop_ok htree
      (fun j hj => by
        rw [parentPath_part, hs.part_eq j (by omega), List.getElem_take])
      (fun w hw => (hspells.names w (List.mem_of_mem_take hw)).2.2) hn
    refine ⟨⟨_, m, hm, rfl⟩, ?_⟩
    rcases Nat.lt_or_eq_of_le hcount with hlt | rfl
    · rw [hs.part_eq k hlt] at hw
      obtain rfl := Except.ok.inj hw
      exact (hspells.names _ (List.getElem_mem hlt)).2.2
    · rw [hs.part_past _ (Nat.le_refl _)] at hw
      cases hw
  · rw [hq] at hbad
    cases hbad

theorem LeadsToParent.mem {img : Image} {w : List UInt8} (h : LeadsToParent fds img path n w)
    (htree : TreeOn g img live tree) (hroot : fds.rootInode = g.root) : n ∈ live := by
  obtain ⟨⟨cs, m, hm, rfl⟩, -⟩ := h.located htree hroot
  exact (htree.located hm).2.2 _ (label_mem_heads m)

theorem LeadsToParent.unique {img : Image} {m : ℕ} {w w' : List UInt8}
    (h : LeadsToParent fds img path n w) (h' : LeadsToParent fds img path m w') : w' = w := by
  obtain ⟨p, q, hp, hq, -, hw⟩ := h
  obtain ⟨p', q', hp', hq', -, hw'⟩ := h'
  obtain rfl := Option.some.inj (hp.symm.trans hp')
  obtain rfl := Except.ok.inj (hq.symm.trans hq')
  exact Except.ok.inj (hw'.symm.trans hw)

end Paths

section Write

variable {g : Geometry} {live : Finset ℕ} {tree : TreeNode} {fds : FsDescriptors} {s s' : Server}
  {e : FsError} {fuel : ℕ}

/-- A Write that ends in `die_fatal` leaves no trace exactly when it is refused
before the size is stored. -/
theorem fsopWrite_failed {args : FsOpWriteArgs} (htree : TreeOn g s.image live tree)
    (hroot : fds.rootInode = g.root) (hlen : args.length < 2 ^ 63)
    (hrun : fsopWrite fuel fds args s = .error (.die e) s') (he : e ≠ .memory) :
    Unchanged g live s.image s'.image ↔ ∀ n, LeadsTo fds s.image args.path n →
      flagsOf g s.image n &&& flgFile = 0 ∨ sizeOfNode g s.image n < args.offset := by
  rw [fsopWrite] at hrun
  rcases locateArg_error hrun with ⟨rfl, hnone⟩ | ⟨n, hleads, hbody⟩
  · exact iff_of_true (.refl g live _) fun n hn => absurd hn (hnone n)
  have hn : n ∈ live := hleads.mem htree hroot
  have hcond : (∀ m, LeadsTo fds s.image args.path m →
      flagsOf g s.image m &&& flgFile = 0 ∨ sizeOfNode g s.image m < args.offset) ↔
      (flagsOf g s.image n &&& flgFile = 0 ∨ sizeOfNode g s.image n < args.offset) :=
    ⟨fun h => h n hleads, fun h m hm => hleads.unique hm ▸ h⟩
  rw [hcond]
  split at hbody
  · cases hbody
  have hbuf : (args.data.bytes.take args.length).length + s.image.mapped ≤ wordSize := by
    have hfit := transfer_fits htree.owned.onVolume hlen
    rw [List.length_take]
    omega
  rcases bind_eq_error.mp hbody with hwrite | ⟨_, s₃, hwrite, hstatus⟩
  · obtain ⟨img, hfile, rfl⟩ := onImage_eq_error hwrite
    rcases writeFile_error htree.owned hn hbuf hfile with ⟨hrefused, rfl⟩ | ⟨hflags, ho, hlt, hfull⟩
    · exact iff_of_true (.refl g live _) hrefused
    · refine iff_of_false (fun hsame => ?_) fun h => h.elim hflags (Nat.not_lt_of_le ho)
      have hsize := (hsame.nodes n hn).size
      rw [hfull.size] at hsize
      omega
  · exact absurd (writeEmptyError_die hstatus) he

end Write

/-- A connection to the small tree. -/
def treeServer : Server := ⟨treeImage, byteByByte [], byteSink, false⟩

/-- The string `/a`. -/
def treePath : NetString := ⟨3, blockAt8 [47, 97, 0]⟩

/-- The file is empty, so a write at offset 1 is refused. -/
theorem fsopWrite_failed_past : ∃ s', fsopWrite 0 ⟨1⟩ ⟨treePath, 1, 1, .block 16 [104]⟩ treeServer =
    .error (.die .invalidPosition) s' ∧ Unchanged treeVolume {1, 2} treeImage s'.image := by
  have hrun := of_stopped (r := fsopWrite 0 ⟨1⟩ ⟨treePath, 1, 1, .block 16 [104]⟩ treeServer)
    (e := .die .invalidPosition) (by decide +kernel)
  refine ⟨_, hrun, (fsopWrite_failed treeImage_treeOn rfl (Nat.one_lt_two_pow (by omega)) hrun
    (by decide)).mpr fun n hn => ?_⟩
  have hsmall : ∀ n ∈ ({1, 2} : Finset ℕ), flagsOf treeVolume treeImage n &&& flgFile = 0 ∨
      sizeOfNode treeVolume treeImage n < 1 := by decide +kernel
  exact hsmall n (hn.mem treeImage_treeOn rfl)

/-- More than the rest of the block and the free one can take. -/
def longWrite : FsOpWriteArgs := ⟨treePath, 0, 988, blockAt16 (List.replicate 988 0)⟩

/-- One block is free and the write needs two. -/
theorem fsopWrite_failed_full :
    ¬ ∀ (g : Geometry) (live : Finset ℕ) (n : TreeNode) (fds : FsDescriptors) (s s' : Server)
      (args : FsOpWriteArgs) (fuel : ℕ) (e : FsError), TreeOn g s.image live n →
      fds.rootInode = g.root → args.length < 2 ^ 63 →
      fsopWrite fuel fds args s = .error (.die e) s' → e ≠ .memory →
      Unchanged g live s.image s'.image := by
  intro hclaim
  have hrun := of_stopped (r := fsopWrite 0 ⟨1⟩ longWrite treeServer)
    (e := .die .markBlock) (by decide +kernel)
  have hsame := hclaim treeVolume {1, 2} tree ⟨1⟩ treeServer _ longWrite 0 .markBlock treeImage_treeOn rfl
    (by decide) hrun (by decide)
  have hsize := (hsame.nodes 2 (by decide)).size
  revert hsize
  decide +kernel

section Create

variable {g : Geometry} {live : Finset ℕ} {tree : TreeNode} {fds : FsDescriptors} {s s' : Server}
  {e : FsError} {fuel : ℕ}

/-- A Create that ends in `die_fatal` leaves no trace exactly when it ends before
a block is taken for the node. -/
theorem fsopCreate_failed {args : FsOpCreateArgs} (htree : TreeOn g s.image live tree)
    (hroot : fds.rootInode = g.root) (hrun : fsopCreate fuel fds args s = .error (.die e) s')
    (he : e ≠ .memory) :
    Unchanged g live s.image s'.image ↔ ∀ n w, LeadsToParent fds s.image args.path n w →
      fileNameLength ≤ w.length ∨ freeBlocks g s.image = [] := by
  rw [fsopCreate] at hrun
  rcases parentArg_error hrun with ⟨rfl, hnone⟩ | ⟨n, w, hleads, hbody⟩
  · exact iff_of_true (.refl g live _) fun n w hn => absurd hn (hnone n w)
  have hn : n ∈ live := hleads.mem htree hroot
  split at hbody
  · next hlong =>
    obtain ⟨-, rfl⟩ := EStateM.Result.error.inj hbody
    exact iff_of_true (.refl g live _) fun m w' hm => Or.inl (by rwa [hleads.unique hm])
  next hshort =>
  rcases bind_eq_error.mp hbody with hinit | ⟨b, s₁, hinit, hrest⟩
  · obtain ⟨img, hnew, rfl⟩ := onImage_eq_error hinit
    obtain ⟨hfull, rfl⟩ := initNewFile_error htree.owned hnew
    exact iff_of_true (.refl g live _) fun _ _ _ => Or.inr hfull
  obtain ⟨img, hnew, rfl⟩ := onPart_eq_ok hinit
  have hc := initNewFile_ok htree.owned hnew
  have hfits := itemName_fits (hc.range.2.trans g.blocksCount_lt) (Nat.lt_of_not_le hshort)
  -- the new node's block stays marked, whatever happens to the directory
  have hmarked : marked s'.image b = true := by
    have hnew := (hc.marks b hc.range.2).mpr (Or.inl rfl)
    rcases bind_eq_error.mp hrest with happend | ⟨_, s₂, happend, hstatus⟩
    · obtain ⟨img', hdir, rfl⟩ := onImage_eq_error happend
      rcases appendDirectory_error (hc.owned htree.owned) (Finset.mem_insert_of_mem hn) hfits hdir with
        rfl | hfull
      · exact hnew
      · exact hfull b hc.range.2
    · exact absurd (writeEmptyError_die hstatus) he
  refine iff_of_false (fun hsame => ?_) fun hrefused => ?_
  · have hfree := hsame.table b hc.range.2
    rw [hmarked, hc.free] at hfree
    cases hfree
  · rcases hrefused n w hleads with hlong | hfull
    · exact hshort hlong
    · have hmem : b ∈ freeBlocks g s.image := mem_freeBlocks.mpr ⟨hc.range.2, hc.free⟩
      rw [hfull] at hmem
      cases hmem

end Create

theorem smallImage_treeOn : TreeOn smallVolume (smallImage 7) {1, 2} (.dir ⟨1, []⟩ .nil) where
  owned := smallImage_owned
  root := rfl
  nodup := List.nodup_singleton 1
  live := by decide
  all := ⟨⟨by decide +kernel, by decide +kernel⟩, trivial⟩

/-- A file in the root directory of a full volume. -/
theorem fsopCreate_failed_full : ∃ s',
    fsopCreate 0 ⟨1⟩ ⟨treePath, 2⟩ { treeServer with image := smallImage 7 } =
      .error (.die .markBlock) s' ∧ Unchanged smallVolume {1, 2} (smallImage 7) s'.image := by
  have hrun := of_stopped
    (r := fsopCreate 0 ⟨1⟩ ⟨treePath, 2⟩ { treeServer with image := smallImage 7 })
    (e := .die .markBlock) (by decide +kernel)
  have hfull : freeBlocks smallVolume (smallImage 7) = [] := by decide +kernel
  exact ⟨_, hrun, (fsopCreate_failed smallImage_treeOn rfl hrun (by decide)).mpr
    fun _ _ _ => Or.inr hfull⟩

/-- The string `/a/b`. -/
def belowFile : NetString := ⟨5, blockAt8 [47, 97, 47, 98, 0]⟩

/-- `a` is a file, and the block of the new node is lost. -/
theorem fsopCreate_failed_notDirectory :
    ¬ ∀ (g : Geometry) (live : Finset ℕ) (n : TreeNode) (fds : FsDescriptors) (s s' : Server)
      (args : FsOpCreateArgs) (fuel : ℕ) (e : FsError), TreeOn g s.image live n →
      fds.rootInode = g.root → fsopCreate fuel fds args s = .error (.die e) s' → e ≠ .memory →
      Unchanged g live s.image s'.image := by
  intro hclaim
  have hrun := of_stopped (r := fsopCreate 0 ⟨1⟩ ⟨belowFile, 2⟩ treeServer)
    (e := .die .notDirectory) (by decide +kernel)
  have hsame := hclaim treeVolume {1, 2} tree ⟨1⟩ treeServer _ ⟨belowFile, 2⟩ 0 .notDirectory
    treeImage_treeOn rfl hrun (by decide)
  have hmark := hsame.table 3 (by decide)
  revert hmark
  decide +kernel

end KisLinux.Net
