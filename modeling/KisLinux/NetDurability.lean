import KisLinux.NetLifetimes

/-!
# Written bytes last

`cat` prints what `write` has stored, however many daemons come and go between the two
and whatever the runs of their clients do to other paths.
-/
namespace KisLinux.Net
open ByteMemory StateRun NameTree Numerals Fs

def Command.components (command : Command) : List (List UInt8) := (command.request [] 0).components

/-- A `write` from `n` on, in any spelling that is scanned as a number. A sign goes into
the number modulo `2 ^ 64`. -/
inductive Command.Writes : Command → ℕ → Prop
  | write {path : List UInt8} : Writes (.write path) 0
  | writeAt {path offset : List UInt8} {negative : Bool} {n : ℕ}
      (scanned : scan offset = .number negative n) (lt : n < wordSize) :
      Writes (.writeAt path offset) (if negative then wsub 0 n else n)

/-- Blanks, the digits of a number, and anything behind them that is no digit. -/
theorem Command.Writes.decimal {path blanks rest : List UInt8} {n : ℕ}
    (blank : ∀ c ∈ blanks, isSpace c = true) (ends : ∀ c ∈ rest.head?, isDigit c = false)
    (lt : n < wordSize) : Command.Writes (.writeAt path (blanks ++ decimal n ++ rest)) n :=
  .writeAt (scan_decimal n blank ends) lt

example : Command.Writes (.writeAt (messageBytes "/a") (messageBytes " +007z")) 7 :=
  .writeAt (n := 7) (show scan (messageBytes " +007z") = .number false 7 by decide) (by decide)

/-- No command of the run names the path. -/
def ProgramRun.Spares (r : ProgramRun) (cs : List (List UInt8)) : Prop :=
  ∀ address command, Command.ofArgs r.argv = some (address, command) → command.components ≠ cs

/-- The volume is not made anew, and its clients leave the path alone. -/
structure Lifetime.Spares (l : Lifetime) (cs : List (List UInt8)) : Prop where
  args : ∀ size, Invocation.ofArgs l.argv ≠ some (.init size)
  runs : ∀ r ∈ l.runs, r.Spares cs

/-- The run neither removes a file nor asks for a node in place of the root. -/
structure ProgramRun.Tame (r : ProgramRun) : Prop where
  keeps : ¬ r.Removes
  below : ∀ address command, Command.ofArgs r.argv = some (address, command) → ¬ command.MakesRoot

/-- A run that has found no free block. -/
inductive LosesTree : EStateM.Result ClientStop Client Unit → Prop
  | noRoom {e : FsError} {c : Client} (full : e.NoRoom) : LosesTree (.error (.die (reported e ++ [0])) c)

section Paths

variable {t t' : FileTree} {cs ds : List (List UInt8)} {bytes old : List UInt8}

namespace FileTree

/-- A file that is changed, seen from another path. -/
theorem locate_mapData_ne {f : List UInt8 → List UInt8} (hfile : t.locate cs = some (.file () bytes))
    (hother : t.locate ds = some (.file () old)) (hne : ds ≠ cs) :
    (t.update (Node.mapData f) ds).locate cs = some (.file () bytes) := by
  rw [Node.locate_update hother hfile, if_neg]
  rintro ⟨rest, hrest⟩
  rw [← hrest, Node.locate_append, hother] at hfile
  cases rest with
  | nil => exact hne (by rw [← hrest, List.append_nil])
  | cons x rest => cases hfile

/-- A command that is carried out leaves the files of other paths alone. -/
theorem Shows.locate_eq {g : Geometry} {stdin out : List UInt8} {o : ℕ} {command : Command}
    (h : t.Shows g stdin o command out t') (hne : command.components ≠ cs)
    (hfile : t.locate cs = some (.file () bytes)) : t'.locate cs = some (.file () bytes) := by
  cases h with
  | mkfile next => exact FileTree.locate_next next nofun hne hfile
  | mkdir next => exact FileTree.locate_next next nofun hne hfile
  | ls _ _ => exact hfile
  | cat _ _ _ => exact hfile
  | write located _ => exact locate_mapData_ne hfile located hne
  | writeAt located _ => exact locate_mapData_ne hfile located hne
  | stat _ _ => exact hfile

theorem Shows.written {g : Geometry} {stdin out : List UInt8} {o n : ℕ} {command : Command}
    (h : t.Shows g stdin o command out t') (hwrites : command.Writes n) :
    ∃ old, t.locate command.components = some (.file () old) ∧
      t' = t.update (Node.mapData fun b => overwrite b o stdin) command.components := by
  cases hwrites with
  | write =>
    cases h with
    | write located _ => exact ⟨_, located, rfl⟩
  | writeAt _ _ =>
    cases h with
    | writeAt located _ => exact ⟨_, located, rfl⟩

end FileTree

end Paths

section Runs

variable {env : Environment} {g : Geometry} {fds : FsDescriptors} {img : Image} {t t' : FileTree}
  {cs : List (List UInt8)} {bytes : List UInt8} {argv : List (List UInt8)} {c : Client}
  {x : EStateM.Result ClientStop Client Unit}

theorem Ran.locate_eq (h : Ran env g fds img t argv c x (some t'))
    (hspare : ∀ address command, Command.ofArgs argv = some (address, command) → command.components ≠ cs)
    (hfile : t.locate cs = some (.file () bytes)) : t'.locate cs = some (.file () bytes) := by
  cases h with
  | help _ _ _ => exact hfile
  | badOffset _ _ _ _ => exact hfile
  | unreached _ _ _ _ _ => exact hfile
  | asked args _ _ comes =>
    cases comes with
    | shown _ shows _ _ _ => exact shows.locate_eq (hspare _ _ args) hfile
    | refused _ _ _ _ _ => exact hfile

/-- A run behind which no tree is known. -/
theorem Ran.losesTree (h : Ran env g fds img t argv c x none)
    (hbelow : ∀ address command, Command.ofArgs argv = some (address, command) → ¬ command.MakesRoot) :
    LosesTree x := by
  cases h with
  | asked args _ _ comes =>
    cases comes with
    | noRoom full _ => exact .noRoom full
    | overruns overruns => exact absurd overruns.makesRoot (hbelow _ _ args)

end Runs

namespace Explained

variable {g : Geometry} {fds : FsDescriptors} {img : Image} {t : FileTree} {cs : List (List UInt8)}
  {bytes : List UInt8} {runs before after : List ProgramRun} {r : ProgramRun} {left : Option FileTree}
  {xs : List (EStateM.Result ClientStop Client Unit)}

theorem locate_eq (h : Explained g fds img t runs xs left) (htame : ∀ r ∈ runs, r.Tame)
    (hspare : ∀ r ∈ runs, r.Spares cs) (hkept : ∀ x ∈ xs, ¬ LosesTree x)
    (hfile : t.locate cs = some (.file () bytes)) :
    ∃ t', left = some t' ∧ t'.locate cs = some (.file () bytes) := by
  induction h with
  | nil => exact ⟨_, rfl, hfile⟩
  | cons ran _ ih =>
    obtain ⟨hfirst, hmore⟩ := List.forall_mem_cons.mp hspare
    exact ih (List.forall_mem_cons.mp htame).2 hmore (fun x hx => hkept x (List.mem_cons_of_mem _ hx))
      (ran.locate_eq hfirst hfile)
  | last ran => exact absurd (ran.losesTree (htame _ List.mem_cons_self).below) (hkept _ List.mem_cons_self)

/-- A session in front of one of its runs, and from there on. -/
theorem split (h : Explained g fds img t (before ++ r :: after) xs left)
    (htame : ∀ r ∈ before, r.Tame) (hkept : ∀ x ∈ xs, ¬ LosesTree x) :
    ∃ (img₁ : Image) (t₁ : FileTree) (ys zs : List (EStateM.Result ClientStop Client Unit)),
      xs = ys ++ zs ∧ ys.length = before.length ∧ Explained g fds img t before ys (some t₁) ∧
      Explained g fds img₁ t₁ (r :: after) zs left := by
  induction before generalizing img t xs with
  | nil => exact ⟨img, t, [], xs, rfl, rfl, .nil, h⟩
  | cons b before ih =>
    cases h with
    | cons ran rest =>
      obtain ⟨img₁, t₁, ys, zs, rfl, hlen, hbefore, hafter⟩ :=
        ih rest (List.forall_mem_cons.mp htame).2 fun x hx => hkept x (List.mem_cons_of_mem _ hx)
      exact ⟨img₁, t₁, _ :: ys, zs, rfl, congrArg Nat.succ hlen, .cons ran hbefore, hafter⟩
    | last ran => exact absurd (ran.losesTree (htame b List.mem_cons_self).below) (hkept _ List.mem_cons_self)

/-- The same, at a run whose result is known. -/
theorem split_at {ys zs : List (EStateM.Result ClientStop Client Unit)} {c : Client}
    (h : Explained g fds img t (before ++ r :: after) (ys ++ .ok () c :: zs) left)
    (hlen : ys.length = before.length) (htame : ∀ b ∈ before ++ r :: after, b.Tame)
    (hkept : ∀ x ∈ ys ++ .ok () c :: zs, ¬ LosesTree x) :
    ∃ (img₁ img₂ : Image) (t₁ t₂ : FileTree), Explained g fds img t before ys (some t₁) ∧
      Ran r.env g fds img₁ t₁ r.argv r.client (.ok () c) (some t₂) ∧
      Explained g fds img₂ t₂ after zs left := by
  obtain ⟨img₁, t₁, ys', zs', heq, hlen', hbefore, hafter⟩ :=
    h.split (fun b hb => htame b (List.mem_append_left _ hb)) hkept
  obtain ⟨rfl, rfl⟩ := List.append_inj heq (hlen.trans hlen'.symm)
  cases hafter with
  | cons ran rest => exact ⟨img₁, _, t₁, _, hbefore, ran, rest⟩
  | last ran =>
    have hlost := ran.losesTree (htame r (by simp)).below
    exact absurd hlost (hkept _ (by simp))

end Explained

section Lifetimes

variable {g : Geometry} {t : FileTree} {cs : List (List UInt8)} {bytes : List UInt8} {l : Lifetime}

theorem Lifetime.Told.locate_eq {x : Lived} {k : Known} (h : l.Told (some (g, t)) x k)
    (htame : ∀ r ∈ l.runs, r.Tame) (hspare : l.Spares cs) (hkept : ∀ y ∈ x.2, ¬ LosesTree y) (hfile : t.locate cs = some (.file () bytes)) :
    ∃ t', k = some (g, t') ∧ t'.locate cs = some (.file () bytes) := by
  cases h with
  | help _ => exact ⟨t, rfl, hfile⟩
  | badSize args _ => exact absurd args (hspare.args _)
  | ungranted args _ _ _ => exact absurd args (hspare.args _)
  | formatted args _ _ _ _ => exact absurd args (hspare.args _)
  | unformatted args _ _ _ => exact absurd args (hspare.args _)
  | badPort _ _ => exact ⟨t, rfl, hfile⟩
  | unmapped _ _ _ => exact ⟨t, rfl, hfile⟩
  | unserved _ _ _ _ => exact ⟨t, rfl, hfile⟩
  | served _ _ _ _ _ explained =>
    obtain ⟨t', rfl, hfile'⟩ := explained.locate_eq htame hspare.runs hkept hfile
    exact ⟨t', rfl, hfile'⟩

/-- A run of a lifetime ends well, and no other run of it loses the tree. -/
structure Lifetime.EndsWell (l : Lifetime) (file : Option (List UInt8)) (before : List ProgramRun)
    (r : ProgramRun) (after : List ProgramRun) (c : Client) : Prop where
  runs_eq : l.runs = before ++ r :: after
  results : ∃ ys zs, (l.live file).1.2 = ys ++ .ok () c :: zs ∧ ys.length = before.length
  kept : ∀ y ∈ (l.live file).1.2, ¬ LosesTree y

section Written

variable {before after : List ProgramRun} {r : ProgramRun} {c : Client} {file : List UInt8}
  {address path : List UInt8} {command : Command} {n : ℕ}

/-- The run of an explained session that ends well, with the trees around it. -/
theorem Lifetime.EndsWell.explained (hwell : l.EndsWell (some file) before r after c)
    (htame : ∀ r ∈ l.runs, r.Tame) (h : HoldsTree g file t) :
    ∃ (img img₁ img₂ : Image) (t₁ t₂ : FileTree) (left : Option FileTree)
      (ys zs : List (EStateM.Result ClientStop Client Unit)),
      (l.live (some file)).1.2 = ys ++ .ok () c :: zs ∧
      Explained g ⟨g.root⟩ img t before ys (some t₁) ∧
      Ran r.env g ⟨g.root⟩ img₁ t₁ r.argv r.client (.ok () c) (some t₂) ∧
      Explained g ⟨g.root⟩ img₂ t₂ after zs left ∧
      Known.About (left.map (g, ·)) (l.live (some file)).2 := by
  obtain ⟨k, htold, habout⟩ := live_told (fun r hr => (htame r hr).keeps) (@HoldsTree.about (g, t) file h)
  obtain ⟨ys, zs, hresults, hlen⟩ := hwell.results
  obtain ⟨img, left, hexplained, rfl⟩ := htold.explained (by simp [hresults])
  have hkept := hwell.kept
  rw [hwell.runs_eq, hresults] at hexplained
  rw [hwell.runs_eq] at htame
  rw [hresults] at hkept
  obtain ⟨img₁, img₂, t₁, t₂, hbefore, hran, hafter⟩ := hexplained.split_at hlen htame hkept
  exact ⟨img, img₁, img₂, t₁, t₂, left, ys, zs, hresults, hbefore, hran, hafter, habout⟩

end Written

end Lifetimes

/-! ## A small run -/

end KisLinux.Net
