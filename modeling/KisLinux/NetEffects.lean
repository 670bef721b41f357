import KisLinux.NetRequests

/-!
# What a request does to the image

Connections, allocations and the report of an error leave the image alone, so
that the image behind a request is the one behind the calls of its handler on it.
This holds however the request ends.
-/
namespace KisLinux.Net
open ByteMemory StateRun Fs

section Handlers

variable {α β : Type} {fds : FsDescriptors} {path : NetString}

/-- What follows does not change the image. -/
theorem image_bind {x : SrvM α} {k : α → SrvM β} (hk : ∀ a, LeavesImage (k a)) (s : Server) :
    (finalState ((x >>= k) s)).image = (finalState (x s)).image := by
  cases hx : x s with
  | ok a s' =>
    rw [bind_of_ok hx]
    exact hk a s'
  | error e s' => rw [bind_of_error hx, finalState_error, finalState_error]

/-- One call on the image, and then nothing that changes it. -/
theorem image_call {x : FsM α} {k : α → SrvM β} (hk : ∀ a, LeavesImage (k a)) (s : Server) :
    (finalState ((onImage x >>= k) s)).image = finalState (x s.image) := by
  rw [image_bind hk, onImage, onPart_finalState]

/-- Two calls, one after the other. -/
theorem image_calls {γ : Type} {x : FsM α} {y : α → FsM β} {k : β → SrvM γ}
    (hk : ∀ b, LeavesImage (k b)) (s : Server) :
    (finalState ((onImage x >>= fun a => onImage (y a) >>= k) s)).image =
      finalState ((x >>= y) s.image) := by
  cases hx : x s.image with
  | ok a img =>
    rw [bind_of_ok (onImage_of_ok hx), bind_of_ok hx]
    exact image_call hk _
  | error e img =>
    rw [bind_of_error (onImage_of_error hx), bind_of_error hx, finalState_error, finalState_error]

/-- A handler that looks up its path does nothing before it goes on. -/
theorem image_locateArg (k : ℕ → SrvM α) (s : Server) :
    (finalState ((splitArg path >>= fun q => onImage (locatePath fds q) >>= k) s)).image = s.image ∨
      ∃ n, LeadsTo fds s.image path n ∧
        (splitArg path >>= fun q => onImage (locatePath fds q) >>= k) s = k n s := by
  cases hrun : (splitArg path >>= fun q => onImage (locatePath fds q) >>= k) s with
  | ok a s' =>
    obtain ⟨q, cs, n, ⟨p, hp, hq, -, -⟩, hpath, hk⟩ := locateArg_ok hrun
    exact Or.inr ⟨n, ⟨p, q, hp, hq, hpath⟩, hk.symm⟩
  | error e s' =>
    rcases locateArg_error hrun with ⟨rfl, -⟩ | ⟨n, hn, hk⟩
    · exact Or.inl rfl
    · exact Or.inr ⟨n, hn, hk.symm⟩

theorem image_parentArg (k : ℕ → List UInt8 → SrvM α) (s : Server) :
    (finalState ((splitArg path >>= fun q => onImage (locatePath fds (parentPath q)) >>= fun n =>
      onImage (Fs.liftExcept (q.part (parentPath q).count)) >>= k n) s)).image = s.image ∨
      ∃ n w, LeadsToParent fds s.image path n w ∧
        (splitArg path >>= fun q => onImage (locatePath fds (parentPath q)) >>= fun n =>
          onImage (Fs.liftExcept (q.part (parentPath q).count)) >>= k n) s = k n w s := by
  cases hrun : (splitArg path >>= fun q => onImage (locatePath fds (parentPath q)) >>= fun n =>
      onImage (Fs.liftExcept (q.part (parentPath q).count)) >>= k n) s with
  | ok a s' =>
    obtain ⟨q, cs, n, w, ⟨p, hp, hq, -, -⟩, hpath, hw, hk⟩ := parentArg_ok hrun
    exact Or.inr ⟨n, w, ⟨p, q, hp, hq, hpath, hw⟩, hk.symm⟩
  | error e s' =>
    rcases parentArg_error hrun with ⟨rfl, -⟩ | ⟨n, w, hn, hk⟩
    · exact Or.inl rfl
    · exact Or.inr ⟨n, w, hn, hk.symm⟩

theorem fsopRead_image (args : FsOpReadArgs) : LeavesImage (fsopRead fds args) := by
  refine .bind (.splitArg _) fun q => .bind (.onImage (locatePath_readOnly fds q)) fun n =>
    .bind (.onInput _) fun data => ?_
  cases data with
  | none => exact .throw _
  | some a =>
    exact .bind (.onImage (readFile_readOnly _ _ _)) fun d => .bind .writeEmptyError fun _ => .answer _

theorem fsopStat_image (args : FsOpStatArgs) : LeavesImage (fsopStat fds args) :=
  .bind (.splitArg _) fun q => .bind (.onImage (locatePath_readOnly fds q)) fun n =>
    .bind (.onImage (getFileSize_readOnly n)) fun size =>
    .bind (.onImage (getBlocksRequired_readOnly size)) fun _ =>
    .bind (.onImage (traceFileBlocks_readOnly n)) fun _ => .bind (.heapBlock _) fun _ =>
    .bind .writeEmptyError fun _ => .answer _

theorem fsopReadDir_image (args : FsOpReadDirArgs) : LeavesImage (fsopReadDir fds args) :=
  .bind (.splitArg _) fun q => .bind (.onImage (locatePath_readOnly fds q)) fun n =>
    .bind (.onImage (readDirectory_readOnly n)) fun _ => .bind (.heapBlock _) fun _ =>
    .bind .writeEmptyError fun _ => .answer _

theorem fsopWrite_image (fuel : ℕ) (fds : FsDescriptors) (args : FsOpWriteArgs) (s : Server) :
    (finalState (fsopWrite fuel fds args s)).image = s.image ∨
      ∃ n, LeadsTo fds s.image args.path n ∧ args.length ≤ args.data.bytes.length ∧
        (finalState (fsopWrite fuel fds args s)).image =
          finalState (writeFile fuel n args.offset (args.data.bytes.take args.length) s.image) := by
  rw [fsopWrite]
  rcases image_locateArg _ s with hsame | ⟨n, hn, hrun⟩
  · exact Or.inl hsame
  rw [hrun]
  split
  · exact Or.inl rfl
  · next hlen =>
    exact Or.inr ⟨n, hn, Nat.le_of_not_lt hlen, image_call (fun _ => .writeEmptyError) s⟩

theorem fsopCreate_image (fuel : ℕ) (fds : FsDescriptors) (args : FsOpCreateArgs) (s : Server) :
    (finalState (fsopCreate fuel fds args s)).image = s.image ∨
      ∃ n w, LeadsToParent fds s.image args.path n w ∧ w.length < fileNameLength ∧
        (finalState (fsopCreate fuel fds args s)).image = finalState ((initNewFile args.flags >>=
          fun b => appendDirectory fuel n ⟨b, itemName w⟩) s.image) := by
  rw [fsopCreate]
  rcases image_parentArg _ s with hsame | ⟨n, w, hn, hrun⟩
  · exact Or.inl hsame
  rw [hrun]
  split
  · exact Or.inl rfl
  · next hshort =>
    exact Or.inr ⟨n, w, hn, Nat.lt_of_not_le hshort, image_calls (fun _ => .writeEmptyError) s⟩

theorem fsopRemove_image (fuel : ℕ) (fds : FsDescriptors) (args : FsOpRemoveArgs) (s : Server) :
    (finalState (fsopRemove fuel fds args s)).image = s.image ∨
      ∃ n w, LeadsToParent fds s.image args.path n w ∧
        (finalState (fsopRemove fuel fds args s)).image =
          finalState ((removeFromDirectory fuel n w >>= purgeFile fuel) s.image) := by
  rw [fsopRemove]
  rcases image_parentArg _ s with hsame | ⟨n, w, hn, hrun⟩
  · exact Or.inl hsame
  rw [hrun]
  exact Or.inr ⟨n, w, hn, image_calls (fun _ => .writeEmptyError) s⟩

/-- The report of an error does not count. -/
theorem dispatch_image (fuel : ℕ) (fds : FsDescriptors) (op : NetFsOperation) (s : Server) :
    (finalState (dispatch fuel fds op s)).image =
      (finalState (processOperation fuel fds op { s with errorIntercepted := false })).image := by
  rw [dispatch, bind_of_ok (modify_run _ s), intercepted]
  cases processOperation fuel fds op { s with errorIntercepted := false } with
  | ok a t => rfl
  | error e t =>
    cases e with
    | die e =>
      simp only [finalState_exited, finalState_error]
      exact LeavesImage.fsopError e t
    | fault => rfl
    | diverged => rfl

end Handlers

end KisLinux.Net
