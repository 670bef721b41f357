import KisLinux.NameTree
import KisLinux.NetOperation
import KisLinux.PathSplit

/-!
# The tree of files

What the remote file system is for. A directory is an ordered list of named
nodes, looked up by first match, and a file is a byte string. `next` is the tree
behind a request and `answer` what a reader of the tree learns; neither knows of
blocks, items or inodes.
-/
namespace KisLinux.Net
open ByteMemory NameTree Fs

abbrev FileTree := Node (List UInt8) Unit (List UInt8)

/-- What lies between the slashes of a path, up to its NUL. -/
def Request.components (r : Request) : List (List UInt8) :=
  ((r.path.takeWhile (· ≠ 0)).splitOn slash).filter (· ≠ [])

inductive Answer
  | done
  | data (bytes : List UInt8)
  | names (names : List (List UInt8))
  deriving DecidableEq, Repr

namespace FileTree

/-- A new node. -/
def empty (flags : UInt8) : FileTree :=
  if flags &&& flgDirectory = 0 then .file () [] else .dir () .nil

/-- The tree behind a request that can be done. -/
def next (t : FileTree) (r : Request) : Option FileTree :=
  match r with
  | .create _ flags =>
    match r.components.getLast?, t.locate r.components.dropLast with
    | some name, some (.dir _ _) =>
      some (t.update (Node.addEntry name (empty flags)) r.components.dropLast)
    | _, _ => none
  | .write _ offset data =>
    match t.locate r.components with
    | some (.file _ bytes) =>
      if offset ≤ bytes.length ∨ data = [] then
        some (t.update (Node.mapData fun bytes => overwrite bytes offset data) r.components)
      else none
    | _ => none
  | .remove _ =>
    match r.components.getLast?, t.locate r.components.dropLast with
    | some name, some (.dir _ sub) =>
      if name ∈ sub.names then some (t.update (Node.eraseEntry name) r.components.dropLast) else none
    | _, _ => none
  | .readDir _ =>
    match t.locate r.components with
    | some (.dir _ _) => some t
    | _ => none
  | .read _ _ _ | .stat _ => some t

/-- What the tree says to a request; reading the bytes of a directory and asking
for the blocks of a file are no questions about the tree. -/
def answer (t : FileTree) (r : Request) : Option Answer :=
  match r with
  | .read _ offset length =>
    match t.locate r.components with
    | some (.file _ bytes) => some (.data ((bytes.drop offset).take length))
    | _ => none
  | .readDir _ =>
    match t.locate r.components with
    | some (.dir _ sub) => some (.names sub.names)
    | _ => none
  | .stat _ => none
  | .create _ _ | .write _ _ _ | .remove _ => some .done

section Cases

variable {t : FileTree} {path bytes d : List UInt8} {o : ℕ} {name : List UInt8} {flags : UInt8}
  {cs : List (List UInt8)} {sub : Entries (List UInt8) Unit (List UInt8)}

theorem next_write (h : t.locate (Request.write path o d).components = some (.file () bytes))
    (ho : o ≤ bytes.length ∨ d = []) : t.next (.write path o d) =
      some (t.update (Node.mapData fun bytes => overwrite bytes o d)
        (Request.write path o d).components) := by
  rw [next, h]
  exact if_pos ho

theorem next_create (hcs : (Request.create path flags).components = cs ++ [name])
    (h : t.locate cs = some (.dir () sub)) : t.next (.create path flags) =
      some (t.update (Node.addEntry name (empty flags)) cs) := by
  rw [next, hcs, List.getLast?_concat, List.dropLast_concat, h]

theorem next_readDir (h : t.locate (Request.readDir path).components = some (.dir () sub)) :
    t.next (.readDir path) = some t := by
  rw [next, h]

theorem answer_readDir (h : t.locate (Request.readDir path).components = some (.dir () sub)) :
    t.answer (.readDir path) = some (.names sub.names) := by
  rw [answer, h]

theorem answer_read {len : ℕ} (h : t.locate (Request.read path o len).components =
    some (.file () bytes)) : t.answer (.read path o len) = some (.data ((bytes.drop o).take len)) := by
  rw [answer, h]

end Cases

end FileTree

/-! ## Components of a path -/

theorem takeWhile_of_cString {b w : List UInt8} (h : cString b = some w) :
    b.takeWhile (· ≠ 0) = w := by
  induction b generalizing w with
  | nil => cases h
  | cons c b ih =>
    rw [cString] at h
    split at h
    · next hc =>
      obtain rfl := Option.some.inj h
      simp [hc]
    · next hc =>
      obtain ⟨w', hw', rfl⟩ := Option.map_eq_some_iff.mp h
      rw [List.takeWhile_cons_of_pos (by simpa using hc), ih hw']

theorem splitOn_join {cs : List (List UInt8)} {w tail : List UInt8} (hw : slash ∉ w)
    (hcs : ∀ w ∈ cs, IsName w) (ht : tail = [] ∨ tail = [slash]) :
    ((w ++ (joinPath cs ++ tail)).splitOn slash).filter (· ≠ []) = [w].filter (· ≠ []) ++ cs := by
  induction cs generalizing w with
  | nil =>
    rcases ht with rfl | rfl
    · simp [joinPath, List.splitOn_eq_singleton hw]
    · simp only [joinPath, List.flatMap_nil, List.nil_append]
      rw [List.splitOn_append_cons_self_of_not_mem hw]
      simp [List.filter_cons]
  | cons c cs ih =>
    have hc := hcs c (by simp)
    have hjoin : w ++ (joinPath (c :: cs) ++ tail) = w ++ slash :: (c ++ (joinPath cs ++ tail)) := by
      simp [joinPath]
    rw [hjoin, List.splitOn_append_cons_self_of_not_mem hw, List.filter_cons,
      ih hc.2.1 fun x hx => hcs x (List.mem_cons_of_mem _ hx)]
    simp [List.filter_cons, hc.1]
    split <;> rfl

theorem components_of_spells {r : Request} {w : List UInt8} {cs : List (List UInt8)}
    (hw : cString r.path = some w) (h : Spells w cs) : r.components = cs := by
  obtain ⟨tail, ht, rfl⟩ : ∃ tail, (tail = [] ∨ tail = [slash]) ∧ w = joinPath cs ++ tail := by
    rcases h.eq with ⟨heq, -⟩ | heq
    · exact ⟨[], .inl rfl, by rw [heq, List.append_nil]⟩
    · exact ⟨[slash], .inr rfl, heq⟩
  rw [Request.components, takeWhile_of_cString hw]
  exact splitOn_join List.not_mem_nil h.names ht

/-! ## Requests on one path and readers of another -/

section Frames

variable {t t' : FileTree} {r : Request} {cs : List (List UInt8)} {bytes : List UInt8}

/-- No request but the removal of a file changes what another path reads. -/
theorem FileTree.locate_next (h : t.next r = some t') (hr : ∀ path, r ≠ .remove path)
    (hne : r.components ≠ cs) (hq : t.locate cs = some (.file () bytes)) :
    t'.locate cs = some (.file () bytes) := by
  cases r with
  | create path flags =>
    rw [next] at h
    split at h
    · next name l sub hname hdir =>
      obtain rfl := Option.some.inj h
      rw [Node.locate_update hdir hq]
      split
      · next hprefix =>
        obtain ⟨rest, hrest⟩ := hprefix
        rw [← hrest, Node.locate_append, hdir] at hq
        rw [← hrest, List.drop_left]
        cases rest with
        | nil => cases hq
        | cons x rest =>
          rw [Option.bind_some, Node.locate] at hq
          obtain ⟨k, hk, hq⟩ := Option.bind_eq_some_iff.mp hq
          rw [Node.addEntry, Node.locate, Entries.find?_snoc, hk]
          exact hq
      · rfl
    · cases h
  | write path offset data =>
    rw [next] at h
    split at h
    · next l old hfile =>
      split at h
      · obtain rfl := Option.some.inj h
        rw [Node.locate_update hfile hq, if_neg]
        rintro ⟨rest, hrest⟩
        rw [← hrest, Node.locate_append, hfile] at hq
        cases rest with
        | nil => exact hne (by rw [← hrest, List.append_nil])
        | cons x rest => cases hq
      · cases h
    · cases h
  | remove path => exact absurd rfl (hr path)
  | readDir path =>
    rw [next] at h
    split at h
    · obtain rfl := Option.some.inj h
      exact hq
    · cases h
  | read path offset length =>
    obtain rfl := Option.some.inj h
    exact hq
  | stat path =>
    obtain rfl := Option.some.inj h
    exact hq

end Frames

end KisLinux.Net
