import KisLinux.FsNodeOps

/-!
# Reading and writing the bytes of a node

On a node whose chain is long enough for its size, `read_file` returns the bytes
asked for and `write_file_unchecked` overwrites them, growing the node first when
the data reach past its end. A write that would need more blocks than are free
stops in the growth; one past the end of the node stops before any store.
-/
namespace KisLinux.Fs
open ByteMemory StateRun LinkedChain

section Copy

variable {g : Geometry} {img : Image} {live : Finset ℕ} {n o : ℕ} {d : List UInt8}

/-- Copying into the chain of a node overwrites its payload and nothing else. -/
structure Copied (g : Geometry) (img img' : Image) (n o : ℕ) (d : List UInt8) : Prop where
  onVolume : OnVolume g img'
  marks : ∀ b < g.blocksCount, marked img' b = marked img b
  header : ∀ p m, p + m ≤ sizeofINodeMain → blockSlice g img' n p m = blockSlice g img n p m
  links : ∀ b, linkOf g img' b = linkOf g img b
  others : ∀ b, b ∉ blocksOf g img n → AgreeOn g img img' b
  payload : payload g img' sizeofINodeMain (blocksOf g img n) =
    overwrite (payload g img sizeofINodeMain (blocksOf g img n)) o d

theorem copy_run (hv : OnVolume g img) (hc : ChainOn g img (blocksOf g img n)) (hd : d ≠ [])
    (hlen : o + d.length ≤ (payload g img sizeofINodeMain (blocksOf g img n)).length) :
    ∃ img', (skipBlocks n (some (n * g.blockSize)) o >>= fun c =>
        writeLoop (d.length + 1) c d) img = .ok () img' ∧ Copied g img img' n o d := by
  have hh := g.header_lt
  obtain ⟨tail, htail⟩ := blocksOf_cons g img n
  rw [htail] at hc hlen
  obtain ⟨pre, c, rest, o', hsplit, ho, hio, hskip⟩ := skipBlocks_run (o := o) hv hc (by omega)
  have h8 : sizeofINode ≤ headerAfter sizeofINodeMain pre := by
    unfold headerAfter
    split <;> simp [sizeofINode, sizeofINodeMain]
  have hcs : ChainOn g img (c :: rest) := by
    rw [hsplit] at hc
    exact hc.suffix
  have hnd := hc.nodup
  have hrange := hc.range
  have hlen' : o' + d.length ≤
      (payload g img (headerAfter sizeofINodeMain pre) (c :: rest)).length := by
    rw [hsplit, payload_append, List.length_append] at hlen
    omega
  have hwrite := writeLoop_run hv hcs h8 hio hd hlen' (Or.inl (Nat.lt_succ_self d.length))
  refine ⟨_, by rw [bind_of_ok hskip, hwrite], ?_⟩
  simp only [sizeofINodeMain] at hh
  have hsub : ∀ b ∈ c :: rest, b ∈ n :: tail := fun b hb => by
    rw [hsplit]
    exact List.mem_append_right _ hb
  refine ⟨hv.writeImage fun b hb => (hcs.range b hb).1,
    fun b hb => marked_writeImage (fun x hx => (hcs.range x hx).1) hb, ?_, ?_, ?_, ?_⟩
  · intro p m hpm
    refine blockSlice_writeImage hio (by simp only [sizeofINodeMain] at hpm; omega) ?_
    cases pre with
    | nil =>
      obtain ⟨rfl, rfl⟩ := List.cons.inj hsplit
      exact Or.inr (Or.inr ⟨rfl, (List.nodup_cons.mp hnd).1, hpm⟩)
    | cons x pre =>
      obtain ⟨rfl, rfl⟩ := List.cons.inj hsplit
      refine Or.inl fun hm => (List.nodup_cons.mp hnd).1 (List.mem_append_right _ hm)
  · intro b
    rw [linkOf, fieldOf, blockSlice_writeImage hio (by simp only [continuationInode]; omega)
      (Or.inr (Or.inl ⟨by simp only [continuationInode, sizeofINode]; omega, h8⟩))]
    rfl
  · intro b hb p m hpm
    rw [htail] at hb
    exact blockSlice_writeImage hio hpm (Or.inl fun hm => hb (hsub b hm))
  · have hfront : payload g (writeImage g img (headerAfter sizeofINodeMain pre) o' (c :: rest) d)
        sizeofINodeMain pre = payload g img sizeofINodeMain pre := by
      rw [hsplit] at hnd
      refine payload_congr (by simp only [sizeofINode, sizeofINodeMain]; omega)
        (by simp only [sizeofINodeMain]; omega) fun b hb p m _ hpm => ?_
      exact blockSlice_writeImage hio hpm
        (Or.inl fun hm => (List.nodup_append.mp hnd).2.2 b hb b hm rfl)
    rw [htail, hsplit, payload_append, payload_append, hfront,
      payload_writeImage hcs.nodup h8 hio hlen', ho, overwrite_append]

theorem Copied.size_eq {img' : Image} (h : Copied g img img' n o d) :
    sizeOfNode g img' n = sizeOfNode g img n := by
  rw [sizeOfNode, fieldOf, h.header _ _ (by simp only [sizeField, sizeofINodeMain]; omega)]
  rfl

theorem Copied.blocksOf_eq {img' : Image} (h : Copied g img img' n o d) :
    blocksOf g img' n = blocksOf g img n := by
  rw [blocksOf, h.size_eq]
  exact chain_congr fun x _ => h.links x

theorem Copied.nodeStep {img' : Image} (h : Copied g img img' n o d) (ho : Owned g img live)
    (hn : n ∈ live) : NodeStep g img img' n where
  onVolume := h.onVolume
  flags := by
    rw [flagsOf_eq, h.header _ _ (by simp only [flagsField, sizeofINodeMain]; omega), flagsOf_eq]
  range := by
    rw [h.blocksOf_eq]
    exact (ho.chains n hn).range
  nodup := by
    rw [h.blocksOf_eq]
    exact (ho.chains n hn).nodup
  last := by
    rw [h.blocksOf_eq, ho.last n hn, lastOf, lastOf, fieldOf, fieldOf,
      h.header _ _ (by simp only [lastInodeField, sizeofINodeMain]; omega)]
  fresh := by
    rw [h.blocksOf_eq]
    exact fun _ hb hb' => absurd hb hb'
  marks := by
    intro b hb
    rw [h.blocksOf_eq, h.marks b hb]
    exact (NodeStep.refl ho hn).marks b hb
  others := by
    rw [h.blocksOf_eq]
    exact fun b _ hb => h.others b hb

end Copy

/-- The node after a write of `d` at offset `o`. -/
structure Written (g : Geometry) (img img' : Image) (n o : ℕ) (d : List UInt8) : Prop where
  step : NodeStep g img img' n
  blocks : blocksOf g img' n = blocksOf g img n ++ (freeBlocks g img).take
    (extraBlocks g img n (max (sizeOfNode g img n) (o + d.length)))
  content : content g img' n = overwrite (content g img n) o d
  lastLink : linkOf g img' (lastOf g img' n) = linkOf g img (lastOf g img' n)

theorem Written.size {g : Geometry} {img img' : Image} {n o : ℕ} {d : List UInt8}
    (h : Written g img img' n o d) (ho : o ≤ sizeOfNode g img n) :
    sizeOfNode g img' n = max (sizeOfNode g img n) (o + d.length) := by
  rw [← content_length g img' n, h.content, overwrite_length d (by simpa using ho), content_length]

/-- A copy that stays inside the node is a write. -/
theorem Copied.written {g : Geometry} {img img' : Image} {live : Finset ℕ} {n o : ℕ}
    {d : List UInt8} (h : Copied g img img' n o d) (ho : Owned g img live) (hn : n ∈ live)
    (hlen : o + d.length ≤ sizeOfNode g img n) : Written g img img' n o d where
  step := h.nodeStep ho hn
  blocks := by
    rw [h.blocksOf_eq, Nat.max_eq_left hlen, extraBlocks, Nat.sub_self, List.take_zero,
      List.append_nil]
  content := by
    have htake := overwrite_take (d := d) (show o ≤ sizeOfNode g img n by omega)
      (size_le_payload g img n)
    rw [Nat.max_eq_left hlen] at htake
    rw [Fs.content, h.blocksOf_eq, h.size_eq, h.payload, htake, Fs.content]
  lastLink := h.links _

/-- A copy into a node that was grown for it is a write. -/
theorem Grown.written {g : Geometry} {img img₁ img' : Image} {live : Finset ℕ} {n o : ℕ}
    {d : List UInt8} (ho : Owned g img live) (hn : n ∈ live)
    (hle : o ≤ sizeOfNode g img n) (hlt : sizeOfNode g img n < o + d.length)
    (hfree : extraBlocks g img n (o + d.length) ≤ (freeBlocks g img).length)
    (hg : Grown g img img₁ n (o + d.length) (extraBlocks g img n (o + d.length)))
    (hc : Copied g img₁ img' n o d) : Written g img img' n o d := by
  have hgstep := hg.nodeStep ho hn hlt.le hfree
  have ho₁ := hgstep.owned ho hn
  have hmax : max (sizeOfNode g img n) (o + d.length) = o + d.length := Nat.max_eq_right hlt.le
  have hblocks := hg.blocksOf_eq hlt.le hfree
  refine ⟨hgstep.trans (hc.nodeStep ho₁ hn) (by rw [hc.blocksOf_eq]; exact fun _ hb => hb), ?_, ?_, ?_⟩
  · rw [hc.blocksOf_eq, hblocks, hmax]
  · have hpay := hg.payload_eq ho hn hlt.le hfree
    have hold : (payload g img sizeofINodeMain (blocksOf g img₁ n)).take (sizeOfNode g img n) =
        content g img n := by
      rw [hblocks, payload_append, List.take_append_of_le_length (size_le_payload g img n)]
      rfl
    have hsize : sizeOfNode g img n ≤ (payload g img sizeofINodeMain (blocksOf g img₁ n)).length := by
      rw [hblocks, payload_append, List.length_append]
      exact (size_le_payload g img n).trans (Nat.le_add_right _ _)
    have htake := overwrite_take (d := d) hle hsize
    rw [hmax, hold] at htake
    rw [content, hc.blocksOf_eq, hc.size_eq, hg.size, hc.payload, hpay, htake]
  · have hlast : lastOf g img' n = lastOf g img₁ n := by
      rw [lastOf, fieldOf, hc.header _ _ (by simp only [lastInodeField, sizeofINodeMain]; omega)]
      rfl
    rw [hc.links, hlast]
    exact hg.lastLink

section Write

variable {g : Geometry} {img : Image} {live : Finset ℕ} {n o : ℕ} {d : List UInt8}

/-- The checks before the data are copied. -/
theorem writeFileUnchecked_eq (h : Owned g img live) (hn : n ∈ live) (fuel : ℕ) (hd : d ≠ [])
    (ho : o ≤ sizeOfNode g img n) (hfit : d.length + img.mapped ≤ wordSize) :
    writeFileUnchecked fuel n o d img =
      ((if sizeOfNode g img n < o + d.length then truncateFile fuel n (o + d.length) else pure ()) >>=
        fun _ => skipBlocks n (some (n * g.blockSize)) o >>= fun c =>
          writeLoop (d.length + 1) c d) img := by
  have hbound := h.size_bound hn
  have hpos := g.blockSize_pos
  rw [h.onVolume.mapped_eq] at hfit
  have hadd : wadd d.length o = o + d.length := by
    rw [wadd, Nat.mod_eq_of_lt (by omega), Nat.add_comm]
  rw [writeFileUnchecked, if_neg hd, bind_of_ok (h.inode_run hn),
    bind_of_ok (h.size_run hn), if_neg (show ¬ sizeOfNode g img n < o by omega)]
  simp only [hadd]
  split <;> rfl

theorem writeFileUnchecked_nil (fuel : ℕ) : writeFileUnchecked fuel n o [] img = .ok () img := rfl

theorem writeFileUnchecked_past (h : Owned g img live) (hn : n ∈ live) (fuel : ℕ) (hd : d ≠ [])
    (ho : sizeOfNode g img n < o) :
    writeFileUnchecked fuel n o d img = .error (.die .invalidPosition) img := by
  rw [writeFileUnchecked, if_neg hd, bind_of_ok (h.inode_run hn),
    bind_of_ok (h.size_run hn), if_pos ho, dieFatal_run]

theorem writeFileUnchecked_run (h : Owned g img live) (hn : n ∈ live) (fuel : ℕ) (hd : d ≠ [])
    (ho : o ≤ sizeOfNode g img n) (hfit : d.length + img.mapped ≤ wordSize)
    (hfree : extraBlocks g img n (max (sizeOfNode g img n) (o + d.length)) ≤
      (freeBlocks g img).length) :
    ∃ img', writeFileUnchecked fuel n o d img = .ok () img' ∧ Written g img img' n o d := by
  rw [writeFileUnchecked_eq h hn fuel hd ho hfit]
  by_cases hlt : sizeOfNode g img n < o + d.length
  · rw [Nat.max_eq_right hlt.le] at hfree
    have hbound := h.size_bound hn
    simp only [sizeofINodeMain] at hbound
    rw [h.onVolume.mapped_eq] at hfit
    have hword : o + d.length + 21 ≤ wordSize := by omega
    have hgrow := truncateFile_grow_run h hn fuel hword hlt.le hfree
    have hg := grown_growImage (k := extraBlocks g img n (o + d.length)) h hn
      (show o + d.length < wordSize by omega)
    have hstep := hg.nodeStep h hn hlt.le hfree
    have hcap : o + d.length ≤ (payload g (growImage g img n (o + d.length)
        (extraBlocks g img n (o + d.length))) sizeofINodeMain (blocksOf g (growImage g img n
          (o + d.length) (extraBlocks g img n (o + d.length))) n)).length := by
      have := size_le_payload g (growImage g img n (o + d.length)
        (extraBlocks g img n (o + d.length))) n
      rwa [hg.size] at this
    obtain ⟨img', hrun, hcopied⟩ := copy_run hstep.onVolume hstep.chainOn hd hcap
    refine ⟨img', ?_, hg.written h hn ho hlt hfree hcopied⟩
    rw [if_pos hlt, bind_of_ok hgrow, hrun]
  · obtain ⟨img', hrun, hcopied⟩ := copy_run (o := o) h.onVolume (h.chains n hn) hd
      (by have := size_le_payload g img n; omega)
    refine ⟨img', ?_, hcopied.written h hn (by omega)⟩
    rw [if_neg hlt, bind_of_ok (pure_run _ _), hrun]

theorem writeFileUnchecked_noRoom (h : Owned g img live) (hn : n ∈ live) (fuel : ℕ) (hd : d ≠ [])
    (ho : o ≤ sizeOfNode g img n) (hfit : d.length + img.mapped ≤ wordSize)
    (hfree : (freeBlocks g img).length <
      extraBlocks g img n (max (sizeOfNode g img n) (o + d.length))) :
    ∃ e img', e.NoRoom ∧ writeFileUnchecked fuel n o d img = .error (.die e) img' ∧
      Exhausted g img' n (o + d.length) := by
  have hlt : sizeOfNode g img n < o + d.length := by
    by_contra hle
    rw [Nat.max_eq_left (by omega), extraBlocks, Nat.sub_self] at hfree
    omega
  rw [Nat.max_eq_right hlt.le] at hfree
  have hbound := h.size_bound hn
  simp only [sizeofINodeMain] at hbound
  have hfit' := hfit
  rw [h.onVolume.mapped_eq] at hfit'
  have hword : o + d.length + 21 ≤ wordSize := by omega
  obtain ⟨e, img', hroom, hrun, hfull⟩ := truncateFile_grow_noRoom h hn fuel hword hfree
  refine ⟨e, img', hroom, ?_, hfull⟩
  rw [writeFileUnchecked_eq h hn fuel hd ho hfit, if_pos hlt, bind_of_error hrun]

theorem writeFileUnchecked_full (h : Owned g img live) (hn : n ∈ live) (fuel : ℕ) (hd : d ≠ [])
    (ho : o ≤ sizeOfNode g img n) (hfit : d.length + img.mapped ≤ wordSize)
    (hfree : (freeBlocks g img).length <
      extraBlocks g img n (max (sizeOfNode g img n) (o + d.length))) :
    ∃ e img', writeFileUnchecked fuel n o d img = .error (.die e) img' ∧
      Exhausted g img' n (o + d.length) := by
  obtain ⟨e, img', -, hrun, hfull⟩ := writeFileUnchecked_noRoom h hn fuel hd ho hfit hfree
  exact ⟨e, img', hrun, hfull⟩

end Write

/-- `read_file` returns the bytes from the offset on, at most as many as the node has. -/
theorem readFile_run {g : Geometry} {img : Image} {live : Finset ℕ} {n o len : ℕ}
    (h : Owned g img live) (hn : n ∈ live) (ho : o ≤ sizeOfNode g img n)
    (hfit : o + len < wordSize) :
    readFile n o len img = .ok (((content g img n).drop o).take len) img := by
  unfold readFile
  by_cases hlen : len = 0
  · rw [if_pos hlen, hlen, List.take_zero, pure_run]
  rw [if_neg hlen, bind_of_ok (h.inode_run hn), bind_of_ok (h.size_run hn)]
  by_cases heq : o = sizeOfNode g img n
  · rw [if_pos heq, pure_run, List.drop_of_length_le (by simp [heq]), List.take_nil]
  have hadd : wadd o len = o + len := by
    rw [wadd, Nat.mod_eq_of_lt (by omega)]
  rw [if_neg heq, if_neg (show ¬ sizeOfNode g img n < o by omega)]
  have hlength : (if sizeOfNode g img n < wadd o len then sizeOfNode g img n - o else len) =
      min len (sizeOfNode g img n - o) := by
    rw [hadd]
    split_ifs <;> omega
  rw [hlength]
  generalize hk : min len (sizeOfNode g img n - o) = k
  have hpay := size_le_payload g img n
  have hc := h.chains n hn
  obtain ⟨tail, htail⟩ := blocksOf_cons g img n
  rw [htail] at hc hpay
  rw [readRange_run h.onVolume hc (by omega), content, htail, List.drop_take, List.take_take, hk]

theorem readFile_past {g : Geometry} {img : Image} {live : Finset ℕ} {n o len : ℕ}
    (h : Owned g img live) (hn : n ∈ live) (ho : sizeOfNode g img n < o) (hlen : len ≠ 0) :
    readFile n o len img = .error (.die .invalidPosition) img := by
  rw [readFile, if_neg hlen, bind_of_ok (h.inode_run hn),
    bind_of_ok (h.size_run hn), if_neg (show ¬ o = sizeOfNode g img n by omega)]
  rw [if_pos ho, dieFatal_run]

end KisLinux.Fs
