import KisLinux.PhonedirClients
import Mathlib.Data.Prod.Lex

/-!
# Sessions of the phone directory's clients

Commands of any number of shells, interleaved between their system calls, have one
sequential history of what they do to a list of cards. Every shell finds its own deeds
in it in their order, and has printed what the history shows it.
-/
namespace KisLinux.Phonedir
open Fs ByteMemory StateRun EventRun Numerals Processes

/-! ## Cards -/

/-- The strings fit into the fields of a record. -/
def Entry.Fits (v : Entry) : Prop :=
  v.surname.val.length + 1 ≤ phonedirNameLen ∧ v.name.val.length + 1 ≤ phonedirNameLen ∧
    v.email.val.length + 1 ≤ phonedirEmailLen ∧ v.phone.val.length + 1 ≤ phonedirPhoneLen

instance (v : Entry) : Decidable v.Fits := inferInstanceAs (Decidable (_ ∧ _ ∧ _ ∧ _))

/-- What the directory is a list of. -/
abbrev Card := { v : Entry // v.Fits }

namespace Card

def surname (c : Card) : List UInt8 := c.val.surname

/-- A card on paper. -/
def line (c : Card) : List UInt8 :=
  c.val.surname.val ++ 32 :: c.val.name ++ 32 :: c.val.phone ++ 32 :: c.val.email ++
    32 :: decimal c.val.age.toNat ++ [10]

end Card

/-- A string in a field of `n` bytes. -/
def padded (n : ℕ) (w : List UInt8) : List UInt8 := w ++ List.replicate (n - w.length) 0

theorem padded_length {n : ℕ} {w : List UInt8} (h : w.length + 1 ≤ n) : (padded n w).length = n := by
  rw [padded, List.length_append, List.length_replicate]
  omega

theorem cText_padded {n : ℕ} {w : Text} (h : w.val.length + 1 ≤ n) (rest : List UInt8) :
    cText (padded n w ++ rest) = w := by
  obtain ⟨m, hm⟩ := Nat.exists_eq_add_of_lt h
  have hzeros : n - w.val.length = m + 1 := by omega
  rw [padded, hzeros, List.replicate_succ, List.append_assoc, List.cons_append, cText,
    List.takeWhile_append_of_pos fun c hc => decide_eq_true (ne_of_mem_of_not_mem hc w.2)]
  simp

theorem padded_last {n : ℕ} {w : List UInt8} (h : w.length + 1 ≤ n) (rest : List UInt8) :
    (padded n w ++ rest)[n - 1]? = some 0 := by
  rw [padded, List.append_assoc, List.getElem?_append_right (by omega), List.getElem?_append_left
    (by rw [List.length_replicate]; omega), List.getElem?_replicate, if_pos (by omega)]

theorem cutText_padded {w : Text} (h : w.val.length + 1 ≤ phonedirNameLen) (rest : List UInt8) :
    cutText (padded phonedirNameLen w ++ rest) = w := by
  have hlen := padded_length h
  have hle : phonedirNameLen - 1 ≤ (padded phonedirNameLen w.val).length := by omega
  have htake : w.val.take (phonedirNameLen - 1) = w.val := List.take_of_length_le (by omega)
  rw [cutText, List.take_append_of_le_length hle, padded, List.take_append, htake, List.take_replicate,
    cText, List.takeWhile_append_of_pos fun c hc => decide_eq_true (ne_of_mem_of_not_mem hc w.2)]
  simp

/-- The record of a card. -/
def Card.record (c : Card) : Record where
  bytes := padded phonedirNameLen c.val.surname ++ (padded phonedirNameLen c.val.name ++
    (padded phonedirEmailLen c.val.email ++ (padded phonedirPhoneLen c.val.phone ++
      leBytes 4 c.val.age.toNat)))
  length_eq := by
    obtain ⟨hsurname, hname, hemail, hphone⟩ := c.2
    simp only [List.length_append, padded_length hsurname, padded_length hname, padded_length hemail,
      padded_length hphone, leBytes_length]
    rfl

theorem copyNormalized_eq (w : List UInt8) (n : ℕ) : copyNormalized w n =
    if h : w.length + 1 ≤ n then .ok ⟨padded n w, padded_length h⟩
    else .error (textBytes "Parameter is too long") := by
  unfold copyNormalized
  by_cases h : w.length + 1 ≤ n
  · rw [dif_neg (Nat.not_lt.mpr h), dif_pos h]
    rfl
  · rw [dif_pos (Nat.lt_of_not_le h), dif_neg h]

/-- `preform_add` takes what fits, and complains about everything else in the same words. -/
theorem toRecord_eq (v : Entry) : v.toRecord =
    if h : v.Fits then .ok (Card.record ⟨v, h⟩) else .error (textBytes "Parameter is too long") := by
  unfold Entry.toRecord
  simp only [copyNormalized_eq]
  by_cases hsurname : v.surname.val.length + 1 ≤ phonedirNameLen
  · by_cases hname : v.name.val.length + 1 ≤ phonedirNameLen
    · by_cases hemail : v.email.val.length + 1 ≤ phonedirEmailLen
      · by_cases hphone : v.phone.val.length + 1 ≤ phonedirPhoneLen
        · rw [dif_pos hsurname, dif_pos hname, dif_pos hemail, dif_pos hphone,
            dif_pos ⟨hsurname, hname, hemail, hphone⟩]
          simp [Card.record, pure, bind, Except.bind, Except.pure]
        · have hfits : ¬ v.Fits := fun h => hphone h.2.2.2
          rw [dif_pos hsurname, dif_pos hname, dif_pos hemail, dif_neg hphone, dif_neg hfits]
          rfl
      · have hfits : ¬ v.Fits := fun h => hemail h.2.2.1
        rw [dif_pos hsurname, dif_pos hname, dif_neg hemail, dif_neg hfits]
        rfl
    · have hfits : ¬ v.Fits := fun h => hname h.2.1
      rw [dif_pos hsurname, dif_neg hname, dif_neg hfits]
      rfl
  · have hfits : ¬ v.Fits := fun h => hsurname h.1
    rw [dif_neg hsurname, dif_neg hfits]
    rfl

namespace Card

variable (c : Card)

theorem drop_name : c.record.bytes.drop nameField = padded phonedirNameLen c.val.name ++
    (padded phonedirEmailLen c.val.email ++ (padded phonedirPhoneLen c.val.phone ++
      leBytes 4 c.val.age.toNat)) :=
  List.drop_left' (padded_length c.2.1)

theorem drop_email : c.record.bytes.drop emailField = padded phonedirEmailLen c.val.email ++
    (padded phonedirPhoneLen c.val.phone ++ leBytes 4 c.val.age.toNat) := by
  have h : emailField = nameField + phonedirNameLen := rfl
  rw [h, ← List.drop_drop, drop_name]
  exact List.drop_left' (padded_length c.2.2.1)

theorem drop_phone : c.record.bytes.drop phoneField = padded phonedirPhoneLen c.val.phone ++
    leBytes 4 c.val.age.toNat := by
  have h : phoneField = emailField + phonedirEmailLen := rfl
  rw [h, ← List.drop_drop, drop_email]
  exact List.drop_left' (padded_length c.2.2.2.1)

theorem record_age : c.record.age = c.val.age.toNat := by
  rw [Record.age, ← List.drop_drop, drop_phone, List.drop_left' (padded_length c.2.2.2.2)]
  exact leNat_leBytes c.val.age.toNat_lt

/-- What is printed for the record of a card is the card. -/
theorem record_line : c.record.line = c.line := by
  rw [Record.line, record_age, drop_name, drop_email, drop_phone, cText_padded c.2.2.1,
    cText_padded c.2.2.2.1, cText_padded c.2.2.2.2]
  have hsurname : cText (c.record.bytes.drop surnameField) = c.val.surname := cText_padded c.2.1 _
  rw [hsurname]
  rfl

theorem record_surname : c.record.surname = c.surname := cutText_padded c.2.1 _

/-- The kernel finds nothing to cut off. -/
theorem record_terminated : c.record.terminated = c.record := by
  have hset : ∀ (r : Record) (i : ℕ), r.bytes[i]? = some 0 → r.clear i = r := by
    intro r i hi
    obtain ⟨hlt, hzero⟩ := List.getElem?_eq_some_iff.mp hi
    cases r
    simp only [Record.clear, Record.mk.injEq]
    conv_lhs => rw [← hzero, List.set_getElem_self]
  have hsurname : c.record.bytes[surnameField + phonedirNameLen - 1]? = some 0 := padded_last c.2.1 _
  have hname : c.record.bytes[nameField + phonedirNameLen - 1]? = some 0 := by
    rw [← padded_last c.2.2.1, ← drop_name, List.getElem?_drop]
    rfl
  have hphone : c.record.bytes[phoneField + phonedirPhoneLen - 1]? = some 0 := by
    rw [← padded_last c.2.2.2.2, ← drop_phone, List.getElem?_drop]
    rfl
  have hemail : c.record.bytes[emailField + phonedirEmailLen - 1]? = some 0 := by
    rw [← padded_last c.2.2.2.1, ← drop_email, List.getElem?_drop]
    rfl
  rw [Record.terminated, hset _ _ hsurname, hset _ _ hname, hset _ _ hphone, hset _ _ hemail]

end Card

/-! ## Deeds -/

/-- What a callback comes to. -/
inductive Deed
  | add (c : Card)
  | delete (surname : List UInt8)
  /-- All cards with the surname are printed. -/
  | find (surname : List UInt8)
  /-- The first one of them is. -/
  | first (surname : List UInt8)
  /-- An exception ends the command. -/
  | fail (what : List UInt8)

namespace Deed

/-- The cards behind the deed, oldest first. -/
def next : Deed → List Card → List Card
  | add c, cards => cards ++ [c]
  | delete w, cards => cards.filter fun c => c.surname ≠ w
  | find _, cards | first _, cards | fail _, cards => cards

def matching (w : List UInt8) (cards : List Card) : List Card := cards.filter fun c => c.surname = w

def shows : Deed → List Card → List Printed
  | find w, cards => (matching w cards).map fun c => .line c.line
  | first w, cards => (matching w cards).head?.toList.map fun c => .line c.line
  | fail what, _ => [.terminated what]
  | add _, _ | delete _, _ => []

def fails : Deed → Bool
  | fail _ => true
  | _ => false

end Deed

/-- What a program has against a surname that it is to find or delete. The complaint of
the system calls begins with `text`. -/
def Program.complaint (text : String) (w : List UInt8) : Program → Option (List UInt8)
  | .chDircli => if phonedirNameLen < w.length + 1 then some (textBytes "Surname is too long") else none
  | .sysDircli => if phonedirNameLen ≤ w.length ∨ w.length = 0 then some (cError text .einval) else none

def Subcommand.deed (p : Program) (v : Entry) : Subcommand → Deed
  | .add => if h : v.Fits then .add ⟨v, h⟩ else .fail (textBytes "Parameter is too long")
  | .del =>
    match p.complaint "Delete failed" v.surname with
    | some what => .fail what
    | none => .delete v.surname
  | .find =>
    match p.complaint "Search failed" v.surname with
    | some what => .fail what
    | none =>
      match p with
      | .chDircli => .find v.surname
      | .sysDircli => .first v.surname

/-- Callbacks up to the first one that fails. -/
def deedsOf (p : Program) (v : Entry) : List Subcommand → List Deed
  | [] => []
  | sub :: todo => sub.deed p v :: if (sub.deed p v).fails then [] else deedsOf p v todo

def Command.deeds (c : Command) : List Deed := deedsOf c.program c.entry c.callbacks

def shellDeeds (commands : List Command) : List Deed := commands.flatMap Command.deeds

/-- What is still to be done behind the callback under way. -/
def Frame.rest (f : Frame) : List Deed :=
  deedsOf f.command.program f.command.entry f.callbacks ++ shellDeeds f.later

/-! ## Where a shell stands in its deeds -/

/-- The bytes of a deed on their way to the device, and whether they are answered. -/
inductive Carries : List UInt8 → Bool → Deed → Prop
  | add (c : Card) : Carries (opAdd :: c.record.bytes) false (.add c)
  | delete (w : Text) (h : w.val.length + 1 ≤ phonedirNameLen) :
      Carries (opDelete :: padded phonedirNameLen w) false (.delete w)
  | find (w : Text) (h : w.val.length + 1 ≤ phonedirNameLen) :
      Carries (opFind :: padded phonedirNameLen w) true (.find w)

/-- The deeds that are still to come, what is shown already but not printed, and the bytes
that the device holds for the shell. -/
inductive At : Point → List Deed → List Printed → List UInt8 → Prop
  | shell {commands : List Command} {q : List UInt8} :
      At (.shell commands) (shellDeeds commands) [] q
  | callbacks {f : Frame} {q : List UInt8} (clean : f.command.program = .chDircli → q = []) :
      At (.callbacks f) f.rest [] q
  | writing {f : Frame} {buf : List UInt8} {search : Bool} {d : Deed}
      (device : f.command.program = .chDircli) (carries : Carries buf search d) :
      At (.writeAll f buf search) (d :: f.rest) [] []
  | written {f : Frame} : At (.writeAll f [] false) f.rest [] []
  | found {f : Frame} {cards : List Card} (device : f.command.program = .chDircli) :
      At (.writeAll f [] true) f.rest (cards.map fun c => .line c.line)
        (recordBytes (cards.map Card.record))
  | reading {f : Frame} {read q : List UInt8} {cards : List Card}
      (device : f.command.program = .chDircli) (length_le : read.length ≤ recSize)
      (stream : read ++ q = recordBytes (cards.map Card.record)) :
      At (.readQuant f read) f.rest (cards.map fun c => .line c.line) q
  | printing {f : Frame} {c : Card} {cards : List Card} (device : f.command.program = .chDircli) :
      At (.print f c.record) f.rest (.line c.line :: cards.map fun c => .line c.line)
        (recordBytes (cards.map Card.record))
  | answered {f : Frame} {c : Card} {q : List UInt8} (system : f.command.program = .sysDircli) :
      At (.print f c.record) f.rest [.line c.line] q
  | thrown {f : Frame} {what q : List UInt8} :
      At (.thrown f what) (shellDeeds f.later) [.terminated what] q
  | exit {f : Frame} {q : List UInt8} : At (.exit f) (shellDeeds f.later) [] q

/-- The history, and what the device holds for each shell. -/
structure Ghost where
  log : List (ℕ × Deed)
  queues : ℕ → List UInt8

namespace Ghost

def cards (γ : Ghost) : List Card := replay Deed.next [] γ.log

def book (γ : Ghost) : Book := ⟨γ.cards.map Card.record, γ.queues⟩

/-- The shell `i` has got rid of bytes or got new ones. -/
def setQueue (γ : Ghost) (i : ℕ) (q : List UInt8) : Ghost := { γ with queues := Function.update γ.queues i q }

/-- The shell `i` has done a deed. -/
def did (γ : Ghost) (i : ℕ) (d : Deed) : Ghost := { γ with log := γ.log ++ [(i, d)] }

@[simp] theorem setQueue_queues (γ : Ghost) (i : ℕ) (q : List UInt8) : (γ.setQueue i q).queues i = q :=
  Function.update_self _ _ _

/-- What the shell `i` may change. -/
structure Change (i : ℕ) (γ γ' : Ghost) : Prop where
  log : γ'.log = γ.log ∨ ∃ d, γ'.log = γ.log ++ [(i, d)]
  queues : ∀ j ≠ i, γ'.queues j = γ.queues j

end Ghost

/-! ## Getting on -/

def shellWeight (commands : List Command) : ℕ := (commands.map fun c => 5 * c.callbacks.length + 5).sum

/-- What the callbacks still weigh. -/
def Frame.weight (f : Frame) : ℕ := 5 * f.callbacks.length + shellWeight f.later

namespace Point

/-- How far it is to the end, apart from the answers that are read. -/
def weight : Point → ℕ
  | shell commands => shellWeight commands
  | callbacks f => f.weight + 4
  | writeAll f buf _ => if buf = [] then f.weight + 7 else f.weight + 8
  | readQuant f _ => f.weight + 6
  | print f _ => f.weight + 6
  | thrown f _ => shellWeight f.later + 2
  | exit f => shellWeight f.later + 1

/-- How much there is to read and to print, with `q` in the device. -/
def left (q : List UInt8) : Point → ℕ
  | readQuant _ read => 3 * q.length + 2 * read.length
  | print _ _ => 3 * q.length + 1
  | _ => 0

def rank (p : Point) (q : List UInt8) : ℕ ×ₗ ℕ := toLex (p.weight, p.left q)

variable {p p' : Point} {q q' : List UInt8}

theorem rank_lt_of_weight (h : p'.weight < p.weight) : p'.rank q' < p.rank q :=
  Prod.Lex.toLex_lt_toLex.mpr (.inl h)

theorem rank_lt_of_left (hw : p'.weight = p.weight) (h : p'.left q' < p.left q) :
    p'.rank q' < p.rank q :=
  Prod.Lex.toLex_lt_toLex.mpr (.inr ⟨hw, h⟩)

end Point

/-- One action of the shell `i`. -/
structure Ghost.Moves (i : ℕ) (p : Point) (γ : Ghost) (p' : Point) (γ' : Ghost) : Prop where
  change : γ.Change i γ'
  rank_lt : p'.rank (γ'.queues i) < p.rank (γ.queues i)

/-- The assertion about a shell. -/
def Local (commands : ℕ → List Command) (i : ℕ) (p : Point) (out : List Printed) (γ : Ghost) : Prop :=
  ∃ rest owed, shellDeeds (commands i) = doneBy i γ.log ++ rest ∧
    out ++ owed = shown Deed.next Deed.shows i [] γ.log ∧ At p rest owed (γ.queues i)

section Assertions

variable {commands : ℕ → List Command} {i j : ℕ} {p p' : Point} {out : List Printed} {γ γ' : Ghost}
  {rest : List Deed} {owed : List Printed}

theorem Local.stable (hj : j ≠ i) (hchange : γ.Change i γ') (h : Local commands j p out γ) :
    Local commands j p out γ' := by
  obtain ⟨rest, owed, hdeeds, hout, hat⟩ := h
  refine ⟨rest, owed, ?_, ?_, by rwa [hchange.queues j hj]⟩
  · rcases hchange.log with hlog | ⟨d, hlog⟩
    · rw [hlog]
      exact hdeeds
    · rw [hlog, doneBy_concat_other hj]
      exact hdeeds
  · rcases hchange.log with hlog | ⟨d, hlog⟩
    · rw [hlog]
      exact hout
    · rw [hlog, shown_concat_other hj]
      exact hout

theorem Ghost.Change.refl (i : ℕ) (γ : Ghost) : γ.Change i γ := ⟨.inl rfl, fun _ _ => rfl⟩

theorem Local.moved {q : List UInt8} (hdeeds : shellDeeds (commands i) = doneBy i γ.log ++ rest)
    (hout : out ++ owed = shown Deed.next Deed.shows i [] γ.log) (hat : At p' rest owed q)
    (hrank : p'.rank q < p.rank (γ.queues i)) :
    Ghost.Moves i p γ p' (γ.setQueue i q) ∧ Local commands i p' out (γ.setQueue i q) := by
  constructor
  · refine ⟨⟨.inl rfl, fun j hj => Function.update_of_ne hj _ _⟩, ?_⟩
    rwa [Ghost.setQueue_queues]
  · refine ⟨rest, owed, hdeeds, hout, ?_⟩
    rwa [Ghost.setQueue_queues]

/-- The first of the deeds that are still to come is done. -/
theorem Local.did {q : List UInt8} {d : Deed}
    (hdeeds : shellDeeds (commands i) = doneBy i γ.log ++ d :: rest)
    (hout : out ++ [] = shown Deed.next Deed.shows i [] γ.log) (hat : At p' rest (d.shows γ.cards) q)
    (hweight : p'.weight < p.weight) :
    Ghost.Moves i p γ p' ((γ.did i d).setQueue i q) ∧
      Local commands i p' out ((γ.did i d).setQueue i q) := by
  constructor
  · exact ⟨⟨.inr ⟨d, rfl⟩, fun j hj => Function.update_of_ne hj _ _⟩, Point.rank_lt_of_weight hweight⟩
  · refine ⟨rest, d.shows γ.cards, ?_, ?_, ?_⟩
    · rw [Ghost.setQueue, Ghost.did, doneBy_concat, List.append_assoc]
      exact hdeeds
    · rw [Ghost.setQueue, Ghost.did, shown_concat, ← hout, List.append_nil]
      rfl
    · rwa [Ghost.setQueue_queues]

end Assertions

/-! ## The book of a history -/

section Books

variable {γ : Ghost} {i : ℕ} {s : System}

theorem Ghost.setQueue_book (q : List UInt8) : (γ.setQueue i q).book = γ.book.setQueue i q := rfl

theorem Ghost.did_cards (d : Deed) : (γ.did i d).cards = d.next γ.cards := replay_concat

theorem Ghost.did_add (c : Card) : (γ.did i (.add c)).book = γ.book.add c.record := by
  rw [book, did_cards, Book.add, c.record_terminated]
  simp [Deed.next, book, did]

theorem Ghost.did_delete (w : List UInt8) : (γ.did i (.delete w)).book = γ.book.delete w := by
  rw [book, did_cards, Book.delete, book, List.filter_map]
  simp [Deed.next, Function.comp_def, Card.record_surname, did]

theorem Ghost.book_matching (w : List UInt8) :
    γ.book.matching w = (Deed.matching w γ.cards).map Card.record := by
  rw [Book.matching, book, List.filter_map]
  simp [Deed.matching, Function.comp_def, Card.record_surname]

/-- The deeds that leave the cards as they are. -/
theorem Ghost.did_book {d : Deed} (h : d.next γ.cards = γ.cards) : (γ.did i d).book = γ.book := by
  rw [book, did_cards, h]
  rfl

namespace SystemCall

theorem serve_of_ok {q : SystemCall} {a : q.Answer} {s' : System} (h : q.call s = .ok a s') :
    q.serve s = some (a, s') := by
  rw [serve, h]

variable {b : Book}

theorem open_run (h : Represents s b) (n : ℕ) :
    ∃ s', (openDevice n).serve s = some (.ok (), s') ∧ Represents s' (b.setQueue n []) := by
  refine ⟨_, serve_of_ok ((bind_of_ok (onSystem_run (devOpen_run h.calm))).trans rfl), ?_⟩
  exact h.withFile h.calm.alloc h.directory h.cut rfl (Nat.zero_le _) rfl

theorem close_run (h : Represents s b) (n : ℕ) :
    ∃ q s', (closeDevice n).serve s = some ((), s') ∧ Represents s' (b.setQueue n q) := by
  obtain ⟨res, d', hprocess, hsettled, hcalm⟩ := h.process n
  refine ⟨Handle.remaining { d'.handle with pendingOutput := [] }, _,
    serve_of_ok (onFile_run (devRelease_run hprocess)), ?_⟩
  exact h.withFile hcalm (hsettled.directory.trans h.directory) h.cut
    (hsettled.inputOffset.trans (h.input n)) hsettled.outputOffset rfl

theorem add_run (h : Represents s b) (r : Record) :
    ∃ s', (add r).serve s = some (.ok (), s') ∧ Represents s' (b.add r) := by
  obtain ⟨k', hrun, hk, hdir⟩ := sysAdd_run h.calm r
  refine ⟨_, serve_of_ok (onSystem_run hrun), h.withKernel hk ?_ (h.cut_add r) rfl⟩
  rw [hdir, h.directory, Book.add, List.reverse_append]
  rfl

theorem cText_text (w : Text) : cText w = w := by
  rw [cText, List.takeWhile_eq_self_iff]
  exact fun c hc => decide_eq_true (ne_of_mem_of_not_mem hc w.2)

theorem del_run (h : Represents s b) {w : Text} (hw : ¬ (phonedirNameLen ≤ w.val.length ∨ w.val.length = 0)) :
    ∃ s', (del w).serve s = some (.ok (), s') ∧ Represents s' (b.delete w) := by
  obtain ⟨hlt, hpos⟩ := not_or.mp hw
  obtain ⟨k', hrun, hk, hdir⟩ := sysDel_run h.calm (Nat.pos_of_ne_zero hpos)
    (Nat.le_sub_one_of_lt (Nat.lt_of_not_le hlt))
  have htext := cString_cText w.val []
  rw [cText_text] at htext
  exact ⟨_, serve_of_ok (onSystem_run hrun), h.withKernel hk (hdir.trans (h.kept htext)) (h.cut_delete _) rfl⟩

theorem find_run (h : Represents s b) {w : Text} (hw : ¬ (phonedirNameLen ≤ w.val.length ∨ w.val.length = 0)) :
    ∃ s', (find w).serve s = some (.ok (b.matching w).head?, s') ∧ Represents s' b := by
  obtain ⟨hlt, hpos⟩ := not_or.mp hw
  obtain ⟨k', hrun, hk, hdir⟩ := sysFind_run h.calm (Nat.pos_of_ne_zero hpos)
    (Nat.le_sub_one_of_lt (Nat.lt_of_not_le hlt))
  have hfound := h.found (cString_cText w.val [])
  rw [cText_text] at hfound
  rw [hfound] at hrun
  exact ⟨_, serve_of_ok (onSystem_run hrun), h.withKernel hk (hdir.trans h.directory) h.cut rfl⟩

/-- A surname of a bad length is not even read. -/
theorem invalid_run {w : List UInt8} (hw : phonedirNameLen ≤ w.length ∨ w.length = 0) :
    (del w).serve s = some (.error .einval, s) ∧ (find w).serve s = some (.error .einval, s) := by
  have hrun : surnameFromUser w s.kernel = .ok (.error .einval) s.kernel := by
    unfold surnameFromUser
    rw [if_pos hw, pure_run]
  have hdel : sysDel w s.kernel = .ok (.error .einval) s.kernel := bind_of_ok hrun
  have hfind : sysFind w s.kernel = .ok (.error .einval) s.kernel := bind_of_ok hrun
  exact ⟨serve_of_ok (onSystem_run hdel), serve_of_ok (onSystem_run hfind)⟩

end SystemCall

end Books

/-! ## What the callbacks ask for -/

section Callbacks

variable {v : Entry} {sub : Subcommand}

theorem surnameToOpString_eq (w : List UInt8) : surnameToOpString w =
    if phonedirNameLen < w.length + 1 then .error (textBytes "Surname is too long")
    else .ok (0 :: padded phonedirNameLen w) := rfl

/-- `ch_dircli` writes the bytes of the deed, or fails as the deed does. -/
theorem payload_deed (v : Entry) (sub : Subcommand) :
    (∃ what, sub.payload v = .error what ∧ sub.deed .chDircli v = .fail what) ∨
      ∃ buf, sub.payload v = .ok buf ∧ Carries buf (sub = .find) (sub.deed .chDircli v) := by
  cases sub with
  | add =>
    rw [Subcommand.payload, Subcommand.deed, toRecord_eq]
    by_cases h : v.Fits
    · rw [dif_pos h, dif_pos h]
      exact .inr ⟨_, rfl, .add ⟨v, h⟩⟩
    · rw [dif_neg h, dif_neg h]
      exact .inl ⟨_, rfl, rfl⟩
  | del =>
    rw [Subcommand.payload, Subcommand.deed, surnameToOpString_eq, Program.complaint]
    by_cases h : phonedirNameLen < v.surname.val.length + 1
    · rw [if_pos h, if_pos h]
      exact .inl ⟨_, rfl, rfl⟩
    · rw [if_neg h, if_neg h]
      exact .inr ⟨_, rfl, .delete v.surname (Nat.le_of_not_lt h)⟩
  | find =>
    rw [Subcommand.payload, Subcommand.deed, surnameToOpString_eq, Program.complaint]
    by_cases h : phonedirNameLen < v.surname.val.length + 1
    · rw [if_pos h, if_pos h]
      exact .inl ⟨_, rfl, rfl⟩
    · rw [if_neg h, if_neg h]
      exact .inr ⟨_, rfl, .find v.surname (Nat.le_of_not_lt h)⟩

theorem Carries.fails {buf : List UInt8} {search : Bool} {d : Deed} (h : Carries buf search d) :
    d.fails = false := by
  cases h <;> rfl

theorem Carries.ne_nil {buf : List UInt8} {search : Bool} {d : Deed} (h : Carries buf search d) :
    buf ≠ [] := by
  cases h <;> exact List.cons_ne_nil _ _

/-- A write of all the bytes does the deed. -/
theorem Carries.write_run {γ : Ghost} {i : ℕ} {s : System} {f : Frame} {buf : List UInt8} {search : Bool}
    {d : Deed} (h : Carries buf search d) (hf : f.command.program = .chDircli)
    (hs : Represents s γ.book) (hq : γ.queues i = []) :
    ∃ q s', (SystemCall.write i buf).serve s = some (.ok buf.length, s') ∧
      Represents s' ((γ.did i d).setQueue i q).book ∧
      At (.writeAll f [] search) f.rest (d.shows γ.cards) q := by
  cases h with
  | add c =>
    obtain ⟨s', hrun, hs'⟩ := hs.devAdd i c.record
    refine ⟨[], s', SystemCall.serve_of_ok ?_, ?_, .written⟩
    · rw [List.length_cons, c.record.length_eq]
      exact hrun
    · have hbook : ((γ.did i (.add c)).setQueue i []).book = γ.book.add c.record := by
        rw [← Ghost.did_add, ← hq]
        exact congrArg (Book.mk _) (Function.update_eq_self _ _)
      rwa [hbook]
  | delete w hw =>
    obtain ⟨s', hrun, hs'⟩ := hs.devDelete i (padded_length hw)
    have htext : cutText (padded phonedirNameLen w) = w := by
      have h := cutText_padded hw []
      rwa [List.append_nil] at h
    refine ⟨[], s', SystemCall.serve_of_ok ?_, ?_, .written⟩
    · rw [List.length_cons, padded_length hw]
      exact hrun
    · have hbook : ((γ.did i (.delete w)).setQueue i []).book = γ.book.delete w := by
        rw [← Ghost.did_delete, ← hq]
        exact congrArg (Book.mk _) (Function.update_eq_self _ _)
      rw [hbook, ← htext]
      exact hs'
  | find w hw =>
    obtain ⟨s', hrun, hs'⟩ := hs.devFind i (padded_length hw)
    have htext : cutText (padded phonedirNameLen w) = w := by
      have h := cutText_padded hw []
      rwa [List.append_nil] at h
    refine ⟨_, s', SystemCall.serve_of_ok ?_, ?_, .found hf⟩
    · rw [List.length_cons, padded_length hw]
      exact hrun
    · rw [htext, Ghost.book_matching] at hs'
      have hempty : γ.book.queues i = [] := hq
      rw [hempty, List.nil_append] at hs'
      rw [Ghost.setQueue_book, Ghost.did_book rfl]
      exact hs'

end Callbacks

/-! ## One action -/

section Actions

variable {commands : ℕ → List Command} {i : ℕ} {out : List Printed} {s : System} {γ : Ghost}
  {rest : List Deed} {owed : List Printed} {q : List UInt8} {p p' : Point} {f : Frame} {c : Command}
  {later : List Command} {sub : Subcommand} {todo : List Subcommand} {opened : Bool}

/-- The action of the shell `i` at `p` keeps all assertions. -/
abbrev Leading (commands : ℕ → List Command) (i : ℕ) (p : Point) (out : List Printed) (s : System)
    (γ : Ghost) : Act SystemCall SystemCall.Answer Printed Point → Prop :=
  Leads SystemCall.serve (fun s γ => Represents s γ.book) (Local commands) Ghost.Moves i p out s γ

theorem move_leads (hs : Represents s γ.book) (hdeeds : shellDeeds (commands i) = doneBy i γ.log ++ rest)
    (hout : out ++ owed = shown Deed.next Deed.shows i [] γ.log) (hat : At p' rest owed (γ.queues i))
    (hrank : p'.rank (γ.queues i) < p.rank (γ.queues i)) :
    Leading commands i p out s γ (.move p') :=
  ⟨γ, hs, ⟨.refl i γ, hrank⟩, rest, owed, hdeeds, hout, hat⟩

theorem output_leads {o : Printed} (hs : Represents s γ.book)
    (hdeeds : shellDeeds (commands i) = doneBy i γ.log ++ rest)
    (hout : out ++ o :: owed = shown Deed.next Deed.shows i [] γ.log)
    (hat : At p' rest owed (γ.queues i)) (hrank : p'.rank (γ.queues i) < p.rank (γ.queues i)) :
    Leading commands i p out s γ (.output o p') :=
  ⟨γ, hs, ⟨.refl i γ, hrank⟩, rest, owed, hdeeds, by rw [List.append_assoc]; exact hout, hat⟩

/-- A deed after which the device holds what it held. -/
theorem did_leads {d : Deed} {s' : System} (hs : Represents s' (γ.did i d).book)
    (hdeeds : shellDeeds (commands i) = doneBy i γ.log ++ d :: rest)
    (hout : out ++ [] = shown Deed.next Deed.shows i [] γ.log)
    (hat : At p' rest (d.shows γ.cards) (γ.queues i)) (hweight : p'.weight < p.weight) :
    ∃ γ', Represents s' γ'.book ∧ Ghost.Moves i p γ p' γ' ∧ Local commands i p' out γ' := by
  obtain ⟨hmoves, hlocal⟩ := Local.did hdeeds hout hat hweight
  have hsame : (γ.did i d).setQueue i (γ.queues i) = γ.did i d :=
    congrArg (Ghost.mk _) (Function.update_eq_self _ _)
  rw [hsame] at hmoves hlocal
  exact ⟨γ.did i d, hs, hmoves, hlocal⟩

theorem shellWeight_cons (c : Command) (later : List Command) :
    shellWeight (c :: later) = 5 * c.callbacks.length + 5 + shellWeight later := rfl

theorem weight_mk (c : Command) (opened : Bool) (todo : List Subcommand) (later : List Command) :
    Frame.weight ⟨c, opened, todo, later⟩ = 5 * todo.length + shellWeight later := rfl

theorem shell_leads (hs : Represents s γ.book)
    (hdeeds : shellDeeds (commands i) = doneBy i γ.log ++ shellDeeds (c :: later))
    (hout : out ++ [] = shown Deed.next Deed.shows i [] γ.log) :
    Leading commands i (.shell (c :: later)) out s γ (Point.act i (.shell (c :: later))) := by
  have hweight : ∀ opened, (Point.callbacks ⟨c, opened, c.callbacks, later⟩).weight <
      (Point.shell (c :: later)).weight := by
    intro opened
    rw [Point.weight, Point.weight, shellWeight_cons, weight_mk]
    omega
  rw [Point.act]
  cases hprogram : c.program with
  | chDircli =>
    obtain ⟨s', hrun, hs'⟩ := SystemCall.open_run hs i
    have hat : At (.callbacks ⟨c, true, c.callbacks, later⟩) (shellDeeds (c :: later)) [] [] :=
      .callbacks fun _ => rfl
    obtain ⟨hmoves, hlocal⟩ := Local.moved hdeeds hout hat (Point.rank_lt_of_weight (hweight true))
    exact ⟨.ok (), s', γ.setQueue i [], hrun, hs', hmoves, hlocal⟩
  | sysDircli =>
    have hat : At (.callbacks ⟨c, false, c.callbacks, later⟩) (shellDeeds (c :: later)) []
        (γ.queues i) := .callbacks fun hdevice => by cases hprogram.symm.trans hdevice
    exact move_leads hs hdeeds hout hat (Point.rank_lt_of_weight (hweight false))

/-- The deeds from a callback on. -/
theorem rest_cons : Frame.rest ⟨c, opened, sub :: todo, later⟩ =
    sub.deed c.program c.entry :: if (sub.deed c.program c.entry).fails then shellDeeds later
      else Frame.rest ⟨c, opened, todo, later⟩ := by
  rw [Frame.rest, deedsOf, List.cons_append]
  split <;> rfl

/-- A callback weighs more than anything that it leads to. -/
theorem weight_cons : (Point.callbacks ⟨c, opened, sub :: todo, later⟩).weight =
    Frame.weight ⟨c, opened, todo, later⟩ + 9 := by
  rw [Point.weight, weight_mk, weight_mk, List.length_cons]
  omega

theorem weight_later (f : Frame) : shellWeight f.later ≤ f.weight := Nat.le_add_left _ _

/-- The callback fails before it asks for anything. -/
theorem fail_leads {what : List UInt8} (hs : Represents s γ.book)
    (hdeeds : shellDeeds (commands i) = doneBy i γ.log ++ Frame.rest ⟨c, opened, sub :: todo, later⟩)
    (hout : out ++ [] = shown Deed.next Deed.shows i [] γ.log)
    (hdeed : sub.deed c.program c.entry = .fail what) :
    ∃ γ', Represents s γ'.book ∧
      Ghost.Moves i (.callbacks ⟨c, opened, sub :: todo, later⟩) γ
        (.thrown ⟨c, opened, todo, later⟩ what) γ' ∧
      Local commands i (.thrown ⟨c, opened, todo, later⟩ what) out γ' := by
  rw [rest_cons, hdeed] at hdeeds
  have hbook : (γ.did i (.fail what)).book = γ.book := Ghost.did_book rfl
  refine did_leads (hbook ▸ hs) hdeeds hout .thrown ?_
  have hle := weight_later ⟨c, opened, todo, later⟩
  rw [weight_cons, Point.weight]
  omega

/-- The callbacks of `sys_dircli`. -/
theorem sysCallback_leads (hs : Represents s γ.book) (hprogram : c.program = .sysDircli)
    (hdeeds : shellDeeds (commands i) = doneBy i γ.log ++ Frame.rest ⟨c, opened, sub :: todo, later⟩)
    (hout : out ++ [] = shown Deed.next Deed.shows i [] γ.log) :
    Leading commands i (.callbacks ⟨c, opened, sub :: todo, later⟩) out s γ
      (sub.sysCallback ⟨c, opened, todo, later⟩ c.entry) := by
  have hclean : ∀ q : List UInt8, At (.callbacks ⟨c, opened, todo, later⟩)
      (Frame.rest ⟨c, opened, todo, later⟩) [] q :=
    fun q => .callbacks fun hdevice => by cases hprogram.symm.trans hdevice
  have hweight : (Point.callbacks ⟨c, opened, todo, later⟩).weight <
      (Point.callbacks ⟨c, opened, sub :: todo, later⟩).weight := by
    rw [weight_cons, Point.weight]
    omega
  cases sub with
  | add =>
    rw [Subcommand.sysCallback, toRecord_eq]
    by_cases hfits : c.entry.Fits
    · have hdeed : Subcommand.add.deed c.program c.entry = .add ⟨c.entry, hfits⟩ := dif_pos hfits
      rw [rest_cons, hdeed] at hdeeds
      rw [dif_pos hfits]
      obtain ⟨s', hrun, hs'⟩ := SystemCall.add_run hs (Card.record ⟨c.entry, hfits⟩)
      rw [← Ghost.did_add] at hs'
      obtain ⟨γ', hγ'⟩ := did_leads hs' hdeeds hout (hclean _) hweight
      exact ⟨.ok (), s', γ', hrun, hγ'⟩
    · rw [dif_neg hfits]
      exact fail_leads hs hdeeds hout (dif_neg hfits)
  | del =>
    by_cases hbad : phonedirNameLen ≤ c.entry.surname.val.length ∨ c.entry.surname.val.length = 0
    · have hdeed : Subcommand.del.deed c.program c.entry = .fail (cError "Delete failed" .einval) := by
        rw [hprogram, Subcommand.deed, Program.complaint, if_pos hbad]
      obtain ⟨γ', hγ'⟩ := fail_leads hs hdeeds hout hdeed
      exact ⟨.error .einval, s, γ', (SystemCall.invalid_run hbad).1, hγ'⟩
    · have hdeed : Subcommand.del.deed c.program c.entry = .delete c.entry.surname := by
        rw [hprogram, Subcommand.deed, Program.complaint, if_neg hbad]
      rw [rest_cons, hdeed] at hdeeds
      obtain ⟨s', hrun, hs'⟩ := SystemCall.del_run hs hbad
      rw [← Ghost.did_delete] at hs'
      obtain ⟨γ', hγ'⟩ := did_leads hs' hdeeds hout (hclean _) hweight
      exact ⟨.ok (), s', γ', hrun, hγ'⟩
  | find =>
    by_cases hbad : phonedirNameLen ≤ c.entry.surname.val.length ∨ c.entry.surname.val.length = 0
    · have hdeed : Subcommand.find.deed c.program c.entry = .fail (cError "Search failed" .einval) := by
        rw [hprogram, Subcommand.deed, Program.complaint, if_pos hbad]
      obtain ⟨γ', hγ'⟩ := fail_leads hs hdeeds hout hdeed
      exact ⟨.error .einval, s, γ', (SystemCall.invalid_run hbad).2, hγ'⟩
    · have hdeed : Subcommand.find.deed c.program c.entry = .first c.entry.surname := by
        rw [hprogram, Subcommand.deed, Program.complaint, if_neg hbad]
      rw [rest_cons, hdeed] at hdeeds
      obtain ⟨s', hrun, hs'⟩ := SystemCall.find_run hs hbad
      have hbook : (γ.did i (.first c.entry.surname)).book = γ.book := Ghost.did_book rfl
      rw [Ghost.book_matching, List.head?_map] at hrun
      have hshows : (Deed.first c.entry.surname).shows γ.cards =
        (Deed.matching c.entry.surname γ.cards).head?.toList.map fun c => .line c.line := rfl
      cases hfirst : (Deed.matching c.entry.surname γ.cards).head? with
      | none =>
        rw [hfirst] at hrun hshows
        obtain ⟨γ', hγ'⟩ := did_leads (hbook ▸ hs') hdeeds hout (by rw [hshows]; exact hclean _) hweight
        exact ⟨.ok none, s', γ', hrun, hγ'⟩
      | some card =>
        rw [hfirst] at hrun hshows
        have hprint : (Point.print ⟨c, opened, todo, later⟩ card.record).weight <
            (Point.callbacks ⟨c, opened, .find :: todo, later⟩).weight := by
          rw [weight_cons, Point.weight]
          omega
        obtain ⟨γ', hγ'⟩ := did_leads (hbook ▸ hs') hdeeds hout
          (by rw [hshows]; exact .answered hprogram) hprint
        exact ⟨.ok (some card.record), s', γ', hrun, hγ'⟩

theorem callbacks_leads (hs : Represents s γ.book)
    (hdeeds : shellDeeds (commands i) = doneBy i γ.log ++ f.rest)
    (hout : out ++ [] = shown Deed.next Deed.shows i [] γ.log)
    (hclean : f.command.program = .chDircli → γ.queues i = []) :
    Leading commands i (.callbacks f) out s γ (Point.act i (.callbacks f)) := by
  obtain ⟨c, opened, todo, later⟩ := f
  cases todo with
  | nil =>
    have hat : At (.exit ⟨c, opened, [], later⟩) (Frame.rest ⟨c, opened, [], later⟩) [] (γ.queues i) :=
      .exit
    refine move_leads hs hdeeds hout hat (Point.rank_lt_of_weight ?_)
    have hle := weight_later ⟨c, opened, [], later⟩
    rw [Point.weight, Point.weight]
    omega
  | cons sub todo =>
    rw [Point.act]
    cases hprogram : c.program with
    | sysDircli => exact sysCallback_leads hs hprogram hdeeds hout
    | chDircli =>
      simp only
      rcases payload_deed c.entry sub with ⟨what, hpayload, hdeed⟩ | ⟨buf, hpayload, hcarries⟩
      · rw [hpayload]
        exact fail_leads hs hdeeds hout (hprogram.symm ▸ hdeed)
      · rw [hpayload]
        have hat := At.writing (f := ⟨c, opened, todo, later⟩) hprogram hcarries
        rw [← hclean hprogram] at hat
        rw [rest_cons, hprogram, hcarries.fails] at hdeeds
        refine move_leads hs hdeeds hout hat (Point.rank_lt_of_weight ?_)
        rw [weight_cons, Point.weight, if_neg hcarries.ne_nil]
        omega

/-- `write_all` in front of the deed. -/
theorem writing_leads {buf : List UInt8} {search : Bool} {d : Deed} (hs : Represents s γ.book)
    (hdeeds : shellDeeds (commands i) = doneBy i γ.log ++ d :: f.rest)
    (hout : out ++ [] = shown Deed.next Deed.shows i [] γ.log) (hf : f.command.program = .chDircli)
    (hcarries : Carries buf search d) (hq : γ.queues i = []) :
    Leading commands i (.writeAll f buf search) out s γ (Point.act i (.writeAll f buf search)) := by
  obtain ⟨q, s', hrun, hs', hat⟩ := hcarries.write_run hf hs hq
  have hweight : (Point.writeAll f [] search).weight < (Point.writeAll f buf search).weight := by
    rw [Point.weight, Point.weight, if_pos rfl, if_neg hcarries.ne_nil]
    omega
  obtain ⟨hmoves, hlocal⟩ := Local.did hdeeds hout hat hweight
  rw [Point.act, if_neg hcarries.ne_nil]
  refine ⟨.ok buf.length, s', (γ.did i d).setQueue i q, hrun, hs', ?_⟩
  simp only [List.drop_length]
  exact ⟨hmoves, hlocal⟩

/-- The first record of a stream. -/
theorem stream_cons {read q : List UInt8} {cards : List Card} (hfull : read.length = recSize)
    (hstream : read ++ q = recordBytes (cards.map Card.record)) :
    ∃ card cards', cards = card :: cards' ∧ card.record = ⟨read, hfull⟩ ∧
      q = recordBytes (cards'.map Card.record) := by
  cases cards with
  | nil =>
    have hnil : read = [] := (List.append_eq_nil_iff.mp hstream).1
    rw [hnil] at hfull
    cases hfull
  | cons card cards =>
    rw [List.map_cons, recordBytes_cons] at hstream
    obtain ⟨hread, hrest⟩ := List.append_inj hstream (hfull.trans card.record.length_eq.symm)
    refine ⟨card, cards, rfl, ?_, hrest⟩
    cases hrecord : card.record
    rw [hrecord] at hread
    subst hread
    rfl

/-- Where the bytes come to no record, there is none. -/
theorem stream_nil {read : List UInt8} {cards : List Card} (hshort : read.length < recSize)
    (hstream : read = recordBytes (cards.map Card.record)) : read = [] ∧ cards = [] := by
  cases cards with
  | nil => exact ⟨hstream, rfl⟩
  | cons card cards =>
    rw [hstream, List.map_cons, recordBytes_cons, List.length_append, card.record.length_eq] at hshort
    omega

/-- `read_quant`, with the first bytes of the next record. -/
theorem reading_leads {read : List UInt8} {cards : List Card} (hs : Represents s γ.book)
    (hdeeds : shellDeeds (commands i) = doneBy i γ.log ++ f.rest)
    (hout : out ++ cards.map (fun c => .line c.line) = shown Deed.next Deed.shows i [] γ.log)
    (hf : f.command.program = .chDircli) (hlen : read.length ≤ recSize)
    (hstream : read ++ γ.queues i = recordBytes (cards.map Card.record)) :
    Leading commands i (.readQuant f read) out s γ (Point.act i (.readQuant f read)) := by
  rw [Point.act]
  by_cases hfull : read.length = recSize
  · obtain ⟨card, cards', rfl, hrecord, hrest⟩ := stream_cons hfull hstream
    have hat : At (.print f card.record) f.rest (.line card.line :: cards'.map fun c => .line c.line)
        (γ.queues i) := by
      rw [hrest]
      exact .printing hf
    rw [dif_pos hfull, ← hrecord]
    refine move_leads hs hdeeds hout hat (Point.rank_lt_of_left rfl ?_)
    have hpos : 1 < 2 * recSize := by decide
    rw [Point.left, Point.left, hfull]
    omega
  · rw [dif_neg hfull]
    have hshort : read.length < recSize := Nat.lt_of_le_of_ne hlen hfull
    obtain ⟨given, left, s', hrun, hqueue, hgiven, hempty, hs'⟩ := hs.devRead i (recSize - read.length)
    have hqueue' : γ.queues i = given ++ left := hqueue
    by_cases hnone : given = []
    · -- the device has nothing left
      have hleft := hempty (Nat.sub_pos_of_lt hshort) hnone
      rw [hqueue', hnone, hleft, List.append_nil, List.append_nil] at hstream
      obtain ⟨hread, rfl⟩ := stream_nil hshort hstream
      have hweight : (Point.callbacks f).weight < (Point.readQuant f read).weight := by
        rw [Point.weight, Point.weight]
        omega
      obtain ⟨hmoves, hlocal⟩ := Local.moved hdeeds hout (.callbacks fun _ => hleft)
        (Point.rank_lt_of_weight hweight)
      refine ⟨.ok given, s', γ.setQueue i left, SystemCall.serve_of_ok hrun, hs', ?_⟩
      simp only [if_pos hnone, if_pos hread]
      exact ⟨hmoves, hlocal⟩
    · have hat : At (.readQuant f (read ++ given)) f.rest (cards.map fun c => .line c.line) left := by
        refine .reading hf ?_ ?_
        · rw [List.length_append]
          omega
        · rw [List.append_assoc, ← hqueue']
          exact hstream
      have hpos := List.length_pos_iff.mpr hnone
      have hless : (Point.readQuant f (read ++ given)).rank left <
          (Point.readQuant f read).rank (γ.queues i) := by
        refine Point.rank_lt_of_left rfl ?_
        rw [Point.left, Point.left, hqueue', List.length_append, List.length_append]
        omega
      obtain ⟨hmoves, hlocal⟩ := Local.moved hdeeds hout hat hless
      refine ⟨.ok given, s', γ.setQueue i left, SystemCall.serve_of_ok hrun, hs', ?_⟩
      simp only [if_neg hnone]
      exact ⟨hmoves, hlocal⟩

/-- A line is printed. -/
theorem print_leads {card : Card} (hs : Represents s γ.book)
    (hdeeds : shellDeeds (commands i) = doneBy i γ.log ++ f.rest)
    (hout : out ++ .line card.line :: owed = shown Deed.next Deed.shows i [] γ.log)
    (hdevice : f.command.program = .chDircli → At (.readQuant f []) f.rest owed (γ.queues i))
    (hsystem : f.command.program = .sysDircli → owed = []) :
    Leading commands i (.print f card.record) out s γ (Point.act i (.print f card.record)) := by
  rw [Point.act, Card.record_line]
  cases hprogram : f.command.program with
  | chDircli =>
    refine output_leads hs hdeeds hout (hdevice hprogram) (Point.rank_lt_of_left rfl ?_)
    rw [Point.left, Point.left, List.length_nil]
    omega
  | sysDircli =>
    obtain rfl := hsystem hprogram
    refine output_leads hs hdeeds hout (.callbacks fun h => by cases hprogram.symm.trans h)
      (Point.rank_lt_of_weight ?_)
    rw [Point.weight, Point.weight]
    omega

theorem exit_leads (hs : Represents s γ.book)
    (hdeeds : shellDeeds (commands i) = doneBy i γ.log ++ shellDeeds f.later)
    (hout : out ++ [] = shown Deed.next Deed.shows i [] γ.log) :
    Leading commands i (.exit f) out s γ (Point.act i (.exit f)) := by
  have hweight : (Point.shell f.later).weight < (Point.exit f).weight := Nat.lt_succ_self _
  rw [Point.act]
  split
  · obtain ⟨q, s', hrun, hs'⟩ := SystemCall.close_run hs i
    obtain ⟨hmoves, hlocal⟩ := Local.moved hdeeds hout (At.shell (q := q))
      (Point.rank_lt_of_weight hweight)
    exact ⟨(), s', γ.setQueue i q, hrun, hs', hmoves, hlocal⟩
  · exact move_leads hs hdeeds hout .shell (Point.rank_lt_of_weight hweight)

/-- Whatever a shell does next, all assertions hold again. -/
theorem At.leads (hs : Represents s γ.book) (hdeeds : shellDeeds (commands i) = doneBy i γ.log ++ rest)
    (hout : out ++ owed = shown Deed.next Deed.shows i [] γ.log) (hq : γ.queues i = q)
    (hat : At p rest owed q) : Leading commands i p out s γ (p.act i) := by
  cases hat with
  | @shell cs =>
    cases cs with
    | nil => trivial
    | cons c later => exact shell_leads hs hdeeds hout
  | callbacks clean => exact callbacks_leads hs hdeeds hout fun hdevice => hq.trans (clean hdevice)
  | writing device carries => exact writing_leads hs hdeeds hout device carries hq
  | written =>
    rw [Point.act, if_pos rfl, if_neg Bool.noConfusion]
    refine move_leads hs hdeeds hout (.callbacks fun _ => hq) (Point.rank_lt_of_weight ?_)
    rw [Point.weight, Point.weight, if_pos rfl]
    omega
  | found device =>
    rw [Point.act, if_pos rfl, if_pos rfl]
    refine move_leads hs hdeeds hout (.reading device (Nat.zero_le _) hq) (Point.rank_lt_of_weight ?_)
    rw [Point.weight, Point.weight, if_pos rfl]
    omega
  | reading device length_le stream =>
    exact reading_leads hs hdeeds hout device length_le (hq.symm ▸ stream)
  | printing device =>
    exact print_leads hs hdeeds hout (fun _ => .reading device (Nat.zero_le _) hq)
      fun hsystem => by cases device.symm.trans hsystem
  | answered system =>
    exact print_leads hs hdeeds hout (fun hdevice => by cases system.symm.trans hdevice) fun _ => rfl
  | thrown =>
    exact output_leads hs hdeeds hout .exit (Point.rank_lt_of_weight (Nat.lt_succ_self _))
  | exit => exact exit_leads hs hdeeds hout

theorem clients_outline (commands : ℕ → List Command) :
    Outline SystemCall.serve (fun s γ => Represents s γ.book) (Local commands) Ghost.Moves Point.act where
  stable hj hmoves hlocal := hlocal.stable hj hmoves.change
  leads hs hlocal := by
    obtain ⟨rest, owed, hdeeds, hout, hat⟩ := hlocal
    exact hat.leads hs hdeeds hout rfl

end Actions

/-! ## Whole sessions -/

/-- The history `log` tells what the shells have done so far. -/
structure Explains (commands : ℕ → List Command) (w : World System ℕ Point Printed)
    (log : List (ℕ × Deed)) : Prop where
  directory : w.shared.kernel.directory = ((replay Deed.next [] log).map Card.record).reverse
  deeds : ∀ i, doneBy i log <+: shellDeeds (commands i)
  printed : ∀ i, w.outputs i <+: shown Deed.next Deed.shows i [] log
  finished : ∀ i, w.point i = .shell [] →
    doneBy i log = shellDeeds (commands i) ∧ w.outputs i = shown Deed.next Deed.shows i [] log
  going : ∀ i, w.point i ≠ .shell [] → ∃ w', step Point.act SystemCall.serve w i = some w'

section Sessions

variable {commands : ℕ → List Command} {w : World System ℕ Point Printed} {γ γ' : Ghost}

/-- Only a shell without commands has nothing to do. -/
theorem act_ne_halt {i : ℕ} {p : Point} (h : p ≠ .shell []) : p.act i ≠ .halt := by
  cases p with
  | shell cs =>
    cases cs with
    | nil => exact absurd rfl h
    | cons c later =>
      rw [Point.act]
      cases c.program <;> simp
  | callbacks f =>
    obtain ⟨c, opened, todo, later⟩ := f
    cases todo with
    | nil => simp [Point.act]
    | cons sub todo =>
      rw [Point.act]
      cases c.program with
      | chDircli =>
        simp only
        cases sub.payload c.entry <;> simp
      | sysDircli =>
        cases sub with
        | add =>
          simp only [Subcommand.sysCallback]
          cases c.entry.toRecord <;> simp
        | del => simp [Subcommand.sysCallback]
        | find => simp [Subcommand.sysCallback]
  | writeAll f buf search =>
    rw [Point.act]
    by_cases hbuf : buf = [] <;> simp [hbuf]
  | readQuant f read =>
    rw [Point.act]
    by_cases hfull : read.length = recSize <;> simp [hfull]
  | print f record => simp [Point.act]
  | thrown f what => simp [Point.act]
  | exit f =>
    rw [Point.act]
    by_cases hopened : f.opened = true <;> simp [hopened]

theorem log_grows (h : Relation.ReflTransGen (fun a b => ∃ i p p', Ghost.Moves i p a p' b) γ γ') :
    γ.log <+: γ'.log := by
  induction h with
  | refl => exact List.prefix_rfl
  | tail _ hmoves ih =>
    obtain ⟨i, p, p', ⟨hlog, -⟩, -⟩ := hmoves
    rcases hlog with hlog | ⟨d, hlog⟩
    · rwa [hlog]
    · rw [hlog]
      exact ih.trans (List.prefix_append _ _)

theorem Explains.of_holds
    (h : Holds (fun s γ => Represents s γ.book) (Local commands) w γ) : Explains commands w γ.log where
  directory := h.shared.directory
  deeds i := by
    obtain ⟨rest, owed, hdeeds, -⟩ := h.all i
    exact ⟨rest, hdeeds.symm⟩
  printed i := by
    obtain ⟨rest, owed, -, hout, -⟩ := h.all i
    exact ⟨owed, hout⟩
  finished i hend := by
    obtain ⟨rest, owed, hdeeds, hout, hat⟩ := h.all i
    rw [hend] at hat
    cases hat
    have hnil : shellDeeds [] = [] := rfl
    rw [hnil, List.append_nil] at hdeeds
    rw [List.append_nil] at hout
    exact ⟨hdeeds.symm, hout⟩
  going i hi := by
    obtain ⟨w', γ', hstep, -⟩ := (clients_outline commands).step_holds h (act_ne_halt hi)
    exact ⟨w', hstep⟩

theorem shellsAt_holds {k : Kernel} (hk : Calm k) (commands : ℕ → List Command) :
    Holds (fun s γ => Represents s γ.book) (Local commands) (shellsAt k commands) ⟨[], fun _ => []⟩ := by
  constructor
  · exact started_represents hk
  · exact fun i => ⟨_, _, rfl, rfl, .shell⟩

/-- **The clients of the phone directory have one history.** -/
theorem clients_linearizable (k : Kernel) (hk : Calm k) (commands : ℕ → List Command) {is is' : List ℕ}
    {w w' : World System ℕ Point Printed}
    (hrun : run (step Point.act SystemCall.serve) (shellsAt k commands) is = some w)
    (hmore : run (step Point.act SystemCall.serve) w is' = some w') :
    ∃ log more, Explains commands w log ∧ Explains commands w' (log ++ more) := by
  obtain ⟨γ, -, hw⟩ := (clients_outline commands).run_holds (shellsAt_holds hk commands) hrun
  obtain ⟨γ', hgrown, hw'⟩ := (clients_outline commands).run_holds hw hmore
  obtain ⟨more, hlog⟩ := log_grows hgrown
  refine ⟨γ.log, more, .of_holds hw, ?_⟩
  rw [hlog]
  exact .of_holds hw'

end Sessions

/-- A name without a NUL. -/
def letter (c : UInt8) (h : c ≠ 0) : Text := ⟨[c], by simpa using h.symm⟩

/-- One shell adds a card over the device and looks for it, the other one does so by the
system calls. -/
def twoShells : ℕ → List Command
  | 0 => [⟨.chDircli, [.add (letter 65 (by decide)) (letter 66 (by decide)) (letter 67 (by decide)) (letter 68 (by decide)) 7,
      .find (letter 65 (by decide))], List.cons_ne_nil _ _, by decide⟩]
  | 1 => [⟨.sysDircli, [.add (letter 65 (by decide)) (letter 69 (by decide)) (letter 67 (by decide)) (letter 68 (by decide)) 8,
      .find (letter 65 (by decide))], List.cons_ne_nil _ _, by decide⟩]
  | _ => []

theorem clients_linearizable_twoShells : ∃ w w' log more,
    run (step Point.act SystemCall.serve) (shellsAt (calmKernel []) twoShells)
      [0, 1, 0, 1, 0, 0, 1, 0] = some w ∧
    run (step Point.act SystemCall.serve) w [0, 1, 0, 0, 0, 0, 1] = some w' ∧
    Explains twoShells w log ∧ Explains twoShells w' (log ++ more) := by
  have hrun : ((run (step Point.act SystemCall.serve) (shellsAt (calmKernel []) twoShells)
      [0, 1, 0, 1, 0, 0, 1, 0]).bind fun w =>
        run (step Point.act SystemCall.serve) w [0, 1, 0, 0, 0, 0, 1]).isSome = true := by
    decide +kernel
  obtain ⟨w', hw'⟩ := Option.isSome_iff_exists.mp hrun
  obtain ⟨w, hw, hmore⟩ := Option.bind_eq_some_iff.mp hw'
  obtain ⟨log, more, hfirst, hsecond⟩ :=
    clients_linearizable (calmKernel []) (calmKernel_calm []) twoShells hw hmore
  exact ⟨w, w', log, more, hw, hmore, hfirst, hsecond⟩

end KisLinux.Phonedir
