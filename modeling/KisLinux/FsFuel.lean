import KisLinux.FsManage

/-!
# Fuel

A call that returns with some fuel returns the same with more. Statements about
calls of the code therefore only ask for some fuel.
-/
namespace KisLinux.Fs
open StateRun

theorem purgeWalk_mono {fuel fuel' : ℕ} (h : fuel ≤ fuel') (b : ℕ) (inode : Ptr) :
    Extends (purgeWalk fuel b inode) (purgeWalk fuel' b inode) := by
  induction fuel generalizing fuel' b inode with
  | zero =>
    cases inode with
    | none => cases fuel' <;> exact Extends.refl _
    | some a => exact Extends.throw _ _
  | succ fuel ih =>
    obtain ⟨fuel', rfl⟩ : ∃ k, fuel' = k + 1 := ⟨fuel' - 1, by omega⟩
    cases inode with
    | none => exact Extends.refl _
    | some a =>
      exact (Extends.refl _).bind fun _ => (Extends.refl _).bind fun next =>
        (Extends.refl _).bind fun inode => ih (by omega) next inode

theorem purgeBlocks_mono {fuel fuel' : ℕ} (h : fuel ≤ fuel') (b : ℕ) :
    Extends (purgeBlocks fuel b) (purgeBlocks fuel' b) :=
  (Extends.refl _).bind fun inode => purgeWalk_mono h b inode

theorem truncateFile_mono {fuel fuel' : ℕ} (h : fuel ≤ fuel') (b newSize : ℕ) :
    Extends (truncateFile fuel b newSize) (truncateFile fuel' b newSize) := by
  refine (Extends.refl _).bind fun inode => (Extends.refl _).bind fun oldSize =>
    (Extends.refl _).bind fun old => (Extends.refl _).bind fun new =>
    (Extends.refl _).bind fun _ => Extends.ite (Extends.refl _) (Extends.ite ?_ (Extends.refl _))
  exact (Extends.refl _).bind fun p => (Extends.refl _).bind fun next =>
    (purgeBlocks_mono h next).bind fun _ => Extends.refl _

theorem writeFileUnchecked_mono {fuel fuel' : ℕ} (h : fuel ≤ fuel') (b o : ℕ) (d : List UInt8) :
    Extends (writeFileUnchecked fuel b o d) (writeFileUnchecked fuel' b o d) := by
  refine Extends.ite (Extends.refl _) ((Extends.refl _).bind fun inode =>
    (Extends.refl _).bind fun size => Extends.ite (Extends.refl _) ?_)
  exact Extends.ite ((truncateFile_mono h b _).bind fun _ => Extends.refl _) (Extends.refl _)

theorem appendDirectory_mono {fuel fuel' : ℕ} (h : fuel ≤ fuel') (b : ℕ) (item : DirectoryItem) :
    Extends (appendDirectory fuel b item) (appendDirectory fuel' b item) :=
  (Extends.refl _).bind fun _ => (Extends.refl _).bind fun _ => Extends.ite (Extends.refl _)
    ((Extends.refl _).bind fun _ => (Extends.refl _).bind fun size =>
      writeFileUnchecked_mono h b size item.encode)

theorem rebuildLoop_mono {fuel fuel' : ℕ} (h : fuel ≤ fuel') (b e : ℕ) (items : List DirectoryItem)
    (i : ℕ) : Extends (rebuildLoop fuel b e items i) (rebuildLoop fuel' b e items i) := by
  induction items generalizing i with
  | nil => exact Extends.refl _
  | cons item items ih =>
    exact Extends.ite ((appendDirectory_mono h b item).bind fun _ => ih (i + 1)) (ih (i + 1))

theorem removeFromDirectory_mono {fuel fuel' : ℕ} (h : fuel ≤ fuel') (b : ℕ) (name : List UInt8) :
    Extends (removeFromDirectory fuel b name) (removeFromDirectory fuel' b name) :=
  (Extends.refl _).bind fun root => (Extends.refl _).bind fun e =>
    (truncateFile_mono h b 0).bind fun _ => (rebuildLoop_mono h b e root.items 0).bind fun _ =>
      Extends.refl _

theorem forM_mono {α : Type} {f f' : α → FsM Unit} {l : List α}
    (h : ∀ x ∈ l, Extends (f x) (f' x)) : Extends (l.forM f) (l.forM f') := by
  induction l with
  | nil => exact Extends.refl _
  | cons x l ih =>
    exact (h x (by simp)).bind fun _ => ih fun y hy => h y (List.mem_cons_of_mem _ hy)

theorem purgeFile_mono {fuel fuel' : ℕ} (h : fuel ≤ fuel') (b : ℕ) :
    Extends (purgeFile fuel b) (purgeFile fuel' b) := by
  induction fuel generalizing fuel' b with
  | zero => exact Extends.throw _ _
  | succ fuel ih =>
    obtain ⟨fuel', rfl⟩ : ∃ k, fuel' = k + 1 := ⟨fuel' - 1, by omega⟩
    have hblocks := purgeBlocks_mono (show fuel ≤ fuel' by omega) b
    refine (Extends.refl _).bind fun inode => (Extends.refl _).bind fun flags => Extends.ite ?_ hblocks
    exact (Extends.refl _).bind fun content =>
      (forM_mono fun item _ => ih (by omega) item.inode).bind fun _ => hblocks

end KisLinux.Fs
