import KisLinux.NetInterleaving
import KisLinux.NetVerdict

/-!
# Many clients, one tree

What the clients of the daemon see. Their requests can be put into one order, in
which every client finds its own requests in the order it sent them, and in which
every answer is the one that the tree of files gives at that point, or the error that
it refuses the request for. No room is told only where a request takes more blocks than
the ones before it have left free. A request that is read after another one was
answered comes after it.
-/
namespace KisLinux.Net
open ByteMemory StateRun ShortTransfer EventRun NameTree Fs

/-! ## Conversations -/

/-- A request of the connection `connection` and what its client gets for it, if anything. -/
structure Exchange where
  connection : ℕ
  request : Request
  received : Option Received

/-- The exchanges of one connection. -/
def ofConnection (i : ℕ) (l : List Exchange) : List (Request × Option Received) :=
  (l.filter fun e => e.connection = i).map fun e => (e.request, e.received)

theorem ofConnection_append (i : ℕ) (l l' : List Exchange) :
    ofConnection i (l ++ l') = ofConnection i l ++ ofConnection i l' := by
  simp [ofConnection]

theorem ofConnection_self (i : ℕ) (r : Request) (x : Option Received) :
    ofConnection i [⟨i, r, x⟩] = [(r, x)] := by simp [ofConnection]

/-- The requests that are answered, with their answers. -/
def answered (l : List (Request × Option Received)) : List (Request × Received) :=
  l.filterMap fun p => p.2.map fun x => (p.1, x)

theorem answered_append (l l' : List (Request × Option Received)) :
    answered (l ++ l') = answered l ++ answered l' := List.filterMap_append

/-- The requests that are still to come on the stream. -/
def Input.Brings (input : Input) (rs : List Request) : Prop :=
  ∃ ops, List.Forall₂ NetFsOperation.Carries ops rs ∧
    input.source.pending = ops.flatMap NetFsOperation.wire

/-- The client sends the requests `rs` and takes all answers. -/
structure Speaks (input : Input) (output : Sink UInt8) (rs : List Request) : Prop where
  requests : input.Brings rs
  fits : ∀ r ∈ rs, r.Fits ∧ r.largest < 2 ^ 63
  room : output.room = none
  grants : input.heap.Grants (2 ^ 63 - 1)

/-- The requests `rs` have not been answered yet. -/
def Connection.Awaits (c : Connection) (rs : List Request) : Prop :=
  match c.stage with
  | .waiting op | .locked op => ∃ r rest, rs = r :: rest ∧ op.Carries r ∧ c.input.Brings rest
  | .reading | .operated _ | .clearing _ => c.input.Brings rs
  | .closing | .freeing | .ended => rs = []
  | .failed | .exiting => False

/-- The thread is behind a request that it has not completed. -/
def Connection.Refused (c : Connection) : Prop :=
  match c.stage with
  | .failed | .exiting | .ended => True
  | _ => False

/-- The thread of the connection `c` has come through the first requests of `rs` as the
list `l` says, with the answers by the bytes `w`, and has `todo` before it. -/
structure Connection.Conversed (c : Connection) (output : Sink UInt8) (rs : List Request)
    (l : List (Request × Option Received)) (todo : List Request) (failed : Bool) (w : List UInt8) :
    Prop where
  order : rs = l.map Prod.fst ++ todo
  accepted : c.output.accepted = output.accepted ++ w
  replies : Replies failed ((answered l).map fun p => p.1.type) ((answered l).map Prod.snd) w
  refused : failed = true → c.Refused
  spoken : ∀ p ∈ l.dropLast, p.2 ≠ none
  awaits : ¬ c.Refused → (∀ p ∈ l, p.2 ≠ none) ∧ c.output.room = none ∧
    c.input.heap.Grants (2 ^ 63 - 1) ∧ c.Awaits todo

def Connection.Conversing (c : Connection) (output : Sink UInt8) (rs : List Request)
    (l : List (Request × Option Received)) : Prop :=
  ∃ todo failed w, c.Conversed output rs l todo failed w

section Conversing

variable {c c' : Connection} {output : Sink UInt8} {rs todo : List Request}
  {l : List (Request × Option Received)} {failed : Bool} {w : List UInt8} {fuel : ℕ} {fds : FsDescriptors}
  {s s' : Daemon} {i : ℕ} {x : Action}

theorem Connection.Conversed.active (h : c.Conversed output rs l todo failed w) (hc : ¬ c.Refused) :
    failed = false := by
  cases failed with
  | false => rfl
  | true => exact absurd (h.refused rfl) hc

/-- The thread goes on, and nothing is received or sent. -/
theorem Connection.Conversing.goes_on (h : c.Conversing output rs l) (hin : c'.input = c.input)
    (hout : c'.output = c.output) (hrefused : c.Refused → c'.Refused)
    (hawaits : ∀ todo, c.Awaits todo → c'.Awaits todo) : c'.Conversing output rs l := by
  obtain ⟨todo, failed, w, h⟩ := h
  refine ⟨todo, failed, w, h.order, by rw [hout]; exact h.accepted, h.replies,
    fun hf => hrefused (h.refused hf), h.spoken, fun hnot => ?_⟩
  obtain ⟨hspoken, hroom, hgrants, hawait⟩ := h.awaits fun hc => hnot (hrefused hc)
  exact ⟨hspoken, by rw [hout]; exact hroom, by rw [hin]; exact hgrants, hawaits todo hawait⟩

/-- The next request is read, or the end of the stream. -/
theorem Connection.Conversing.read {r : Bool × NetFsOperation} {input : Input} {old : List UInt8}
    (h : c.Conversing output rs l) (hfits : ∀ r ∈ rs, r.Fits ∧ r.largest < 2 ^ 63)
    (hstage : c.stage = .reading) (hread : slzNetFsOperationRead old c.input = .ok r input) :
    ({ c with input := input, stage := if r.1 then .waiting r.2 else .closing } :
      Connection).Conversing output rs l := by
  obtain ⟨todo, failed, w, h⟩ := h
  have hgoing : ¬ c.Refused := by simp [Connection.Refused, hstage]
  obtain rfl := h.active hgoing
  obtain ⟨hspoken, hroom, hgrants, hawait⟩ := h.awaits hgoing
  simp only [Connection.Awaits, hstage] at hawait
  obtain ⟨ops, hops, hpending⟩ := hawait
  cases hops with
  | nil =>
    obtain ⟨op, input', hend, hheap⟩ := slzNetFsOperationRead_end old hpending
    obtain ⟨rfl, rfl⟩ := EStateM.Result.ok.inj (hread.symm.trans hend)
    exact ⟨[], false, w, h.order, h.accepted, h.replies, by simp, h.spoken, fun _ =>
      ⟨hspoken, hroom, by rw [hheap]; exact hgrants, rfl⟩⟩
  | @cons op r' ops rest hop hrest =>
    have hmem : r' ∈ rs := by rw [h.order]; simp
    rw [List.flatMap_cons] at hpending
    obtain ⟨op', input', hrun, hc', hpending', hgrants'⟩ := slzNetFsOperationRead_run hop
      (hfits r' hmem).1 hpending hgrants (Nat.le_sub_one_of_lt (hfits r' hmem).2) old
    obtain ⟨rfl, rfl⟩ := EStateM.Result.ok.inj (hread.symm.trans hrun)
    exact ⟨_, false, w, h.order, h.accepted, h.replies, by simp, h.spoken, fun _ =>
      ⟨hspoken, hroom, hgrants', r', rest, rfl, hc', ops, hrest, hpending'⟩⟩

/-- A step of a thread that is no operation answers nothing. -/
theorem threadStep_conversing (hx : x ≠ .operate)
    (h : threadStep fuel fds s i c x = some s') :
    ∃ m c', s' = ({ s with mutex := m } : Daemon).put i c' ∧
      ∀ output rs l, (∀ r ∈ rs, r.Fits ∧ r.largest < 2 ^ 63) → c.Conversing output rs l →
        c'.Conversing output rs l := by
  cases x with
  | operate => exact absurd rfl hx
  | read old =>
    simp only [threadStep] at h
    split at h
    · next r input hstage hread =>
      obtain rfl := Option.some.inj h
      exact ⟨s.mutex, _, rfl, fun output rs l hfits hc => hc.read hfits hstage hread⟩
    · cases h
  | lock =>
    simp only [threadStep] at h
    split at h
    · next op hstage _ =>
      obtain rfl := Option.some.inj h
      exact ⟨some i, _, rfl, fun output rs l _ hc => hc.goes_on rfl rfl
        (by simp [Connection.Refused, hstage]) (by simp [Connection.Awaits, hstage])⟩
    · cases h
  | unlock =>
    simp only [threadStep] at h
    split at h
    · next op hstage =>
      obtain rfl := Option.some.inj h
      exact ⟨none, _, rfl, fun output rs l _ hc => hc.goes_on rfl rfl
        (by simp [Connection.Refused, hstage]) (by simp [Connection.Awaits, hstage])⟩
    · next hstage =>
      obtain rfl := Option.some.inj h
      exact ⟨none, _, rfl, fun output rs l _ hc => hc.goes_on rfl rfl
        (by simp [Connection.Refused]) (by simp [Connection.Awaits, hstage])⟩
    · cases h
  | clear =>
    simp only [threadStep] at h
    split at h
    · next op hstage =>
      obtain rfl := Option.some.inj h
      exact ⟨s.mutex, _, rfl, fun output rs l _ hc => hc.goes_on rfl rfl
        (by simp [Connection.Refused, hstage]) (by simp [Connection.Awaits, hstage])⟩
    · cases h
  | close =>
    simp only [threadStep] at h
    split at h
    · next hstage =>
      obtain rfl := Option.some.inj h
      exact ⟨s.mutex, _, rfl, fun output rs l _ hc => hc.goes_on rfl rfl
        (by simp [Connection.Refused, hstage]) (by simp [Connection.Awaits, hstage])⟩
    · cases h
  | free =>
    simp only [threadStep] at h
    split at h
    · next hstage =>
      obtain rfl := Option.some.inj h
      exact ⟨s.mutex, _, rfl, fun output rs l _ hc => hc.goes_on rfl rfl
        (by simp [Connection.Refused]) (by simp [Connection.Awaits, hstage])⟩
    · cases h
  | exit =>
    simp only [threadStep] at h
    split at h
    · next hstage =>
      obtain rfl := Option.some.inj h
      exact ⟨s.mutex, _, rfl, fun output rs l _ hc => hc.goes_on rfl rfl
        (by simp [Connection.Refused]) (by simp [Connection.Awaits, hstage])⟩
    · cases h

/-- The bytes of the answers to more requests. -/
theorem Replies.append {ts ts' : List FsOpType} {xs xs' : List Received} {w w' : List UInt8}
    (h : Replies false ts xs w) (h' : Replies failed ts' xs' w') :
    Replies failed (ts ++ ts') (xs ++ xs') (w ++ w') := by
  generalize hb : false = b at h
  induction h with
  | nil => exact h'
  | served reply _ ih =>
    rw [List.append_assoc]
    exact .served reply (ih hb)
  | refused => cases hb

theorem NetFsOperation.Carries.unique {op : NetFsOperation} {r r' : Request} (h : op.Carries r)
    (h' : op.Carries r') : r = r' := by
  cases h
  cases h'
  rfl

/-- One more answer, and the thread goes on. -/
theorem Connection.Conversing.served {op : NetFsOperation} {r : Request} {y : Received}
    {v : List UInt8} {t : Server} (h : c.Conversing output rs l) (hstage : c.stage = .locked op)
    (hc : op.Carries r) (hreply : Reply r.type y v) (hready : t.Ready)
    (haccepted : t.output.accepted = c.output.accepted ++ v)
    (hsource : t.input.source = c.input.source) :
    ({ c with input := t.input, output := t.output, stage := .operated op } : Connection).Conversing
      output rs (l ++ [(r, some y)]) := by
  obtain ⟨todo, failed, w, h⟩ := h
  have hgoing : ¬ c.Refused := by simp [Connection.Refused, hstage]
  obtain rfl := h.active hgoing
  obtain ⟨hspoken, -, -, hawait⟩ := h.awaits hgoing
  simp only [Connection.Awaits, hstage] at hawait
  obtain ⟨r', rest, rfl, hc', hbrings⟩ := hawait
  obtain rfl := hc.unique hc'
  refine ⟨rest, false, w ++ v, by simp [h.order], ?_, ?_, by simp, ?_, fun _ =>
    ⟨?_, hready.room, hready.grants, by simpa only [Connection.Awaits, Input.Brings, hsource] using hbrings⟩⟩
  · rw [haccepted, h.accepted, List.append_assoc]
  · rw [answered_append, List.map_append, List.map_append]
    refine h.replies.append ?_
    simpa [answered] using Replies.served hreply .nil
  · rw [List.dropLast_concat]
    exact hspoken
  · exact List.forall_mem_append.mpr ⟨hspoken, by simp⟩

/-- A refusal, and the thread is on its way to the end. -/
theorem Connection.Conversing.died {op : NetFsOperation} {r : Request} {message v : List UInt8}
    {t : Server} (h : c.Conversing output rs l) (hstage : c.stage = .locked op) (hc : op.Carries r)
    (hrefusal : Refusal message v) (haccepted : t.output.accepted = c.output.accepted ++ v) :
    ({ c with input := t.input, output := t.output, stage := .failed } : Connection).Conversing
      output rs (l ++ [(r, some (.refused (message ++ [0])))]) := by
  obtain ⟨todo, failed, w, h⟩ := h
  have hgoing : ¬ c.Refused := by simp [Connection.Refused, hstage]
  obtain rfl := h.active hgoing
  obtain ⟨hspoken, -, -, hawait⟩ := h.awaits hgoing
  simp only [Connection.Awaits, hstage] at hawait
  obtain ⟨r', rest, rfl, hc', -⟩ := hawait
  obtain rfl := hc.unique hc'
  refine ⟨rest, true, w ++ v, by simp [h.order], ?_, ?_, fun _ => trivial, ?_,
    fun hnot => absurd trivial hnot⟩
  · rw [haccepted, h.accepted, List.append_assoc]
  · rw [answered_append, List.map_append, List.map_append]
    exact h.replies.append (.refused hrefusal)
  · rw [List.dropLast_concat]
    exact hspoken

/-- An allocation failed: the thread is on its way to the end, and its client waits. -/
theorem Connection.Conversing.muted {op : NetFsOperation} {r : Request} {t : Server}
    (h : c.Conversing output rs l) (hstage : c.stage = .locked op) (hc : op.Carries r)
    (haccepted : t.output.accepted = c.output.accepted) :
    ({ c with input := t.input, output := t.output, stage := .failed } : Connection).Conversing
      output rs (l ++ [(r, none)]) := by
  obtain ⟨todo, failed, w, h⟩ := h
  have hgoing : ¬ c.Refused := by simp [Connection.Refused, hstage]
  obtain rfl := h.active hgoing
  obtain ⟨hspoken, -, -, hawait⟩ := h.awaits hgoing
  simp only [Connection.Awaits, hstage] at hawait
  obtain ⟨r', rest, rfl, hc', -⟩ := hawait
  obtain rfl := hc.unique hc'
  refine ⟨rest, false, w, by simp [h.order], haccepted.trans h.accepted, ?_, by simp, ?_,
    fun hnot => absurd trivial hnot⟩
  · rw [answered_append]
    simpa [answered] using h.replies
  · rw [List.dropLast_concat]
    exact hspoken

/-- What the tree says of an exchange that takes the volume `img` to `img'`. -/
def FileTree.Tells (g : Geometry) (img img' : Image) (t : FileTree) (r : Request)
    (x : Option Received) : Prop :=
  (∃ t', t.Settles g r x t' ∧ Refines g img' t' ∧ Spends g img img' (t.takes g r)) ∨
    ∃ y, x = some y ∧ y.NoRoom ∧ freeCount g img < t.takes g r

/-- The operation of a connection is one more exchange, of which the tree tells. -/
theorem operate_conversing (h : threadStep fuel fds s i c .operate = some s')
    (hc : c.Conversing output rs l) :
    ∃ (c' : Connection) (r : Request) (x : Option Received),
      s'.connections = s.connections.set i c' ∧
      (∀ output rs l, c.Conversing output rs l →
        c'.Conversing output rs (l ++ [(r, x)])) ∧
      ∀ (g : Geometry) (t : FileTree), fds.rootInode = g.root → r.Plain → Refines g s.image t →
        t.Tells g s.image s'.image r x := by
  cases hstage : c.stage with
  | locked op =>
    obtain ⟨todo, failed, w, hconv⟩ := hc
    obtain ⟨-, hroom, hgrants, hawait⟩ := hconv.awaits (by simp [Connection.Refused, hstage])
    simp only [Connection.Awaits, hstage] at hawait
    obtain ⟨r, rest, rfl, hcarries, -⟩ := hawait
    obtain ⟨hok, hdie⟩ := dispatch_carried (s := s.server c) fuel fds hcarries hroom hgrants
    have hsettles : ∀ (g : Geometry) (t : FileTree), fds.rootInode = g.root → r.Plain →
        Refines g s.image t → Settled g fds t r (s.server c) (dispatch fuel fds op (s.server c)) :=
      fun g t hroot hplain ht => dispatch_settled fuel hcarries hplain hroom hgrants ht hroot
    simp only [threadStep, hstage] at h
    split at h
    · next u hrun =>
      obtain rfl := Option.some.inj h
      obtain ⟨y, v, hreply, hready, haccepted, hsource⟩ := hok u hrun
      refine ⟨_, r, some y, rfl,
        fun _ _ _ hc => hc.served hstage hcarries hreply hready haccepted hsource,
        fun g t hroot hplain ht => .inl ?_⟩
      have hsettled := hsettles g t hroot hplain ht
      rw [hrun] at hsettled
      cases hsettled with
      | @done _ y' v' t' reply sent _ _ accepted allows refines spends =>
        obtain rfl : v = v' := List.append_cancel_left (haccepted.symm.trans sent)
        obtain rfl := hreply.unique reply
        exact ⟨t', .done accepted allows, refines, spends⟩
    · next e u hrun =>
      obtain rfl := Option.some.inj h
      obtain ⟨hspoken, hmute⟩ := hdie e u hrun
      by_cases hmem : e = .memory
      · subst hmem
        refine ⟨_, r, none, rfl, fun _ _ _ hc => hc.muted hstage hcarries (hmute rfl),
          fun g t hroot hplain ht => .inl ⟨t, ?_⟩⟩
        have hsettled := hsettles g t hroot hplain ht
        rw [hrun] at hsettled
        cases hsettled with
        | refused _ _ spoken => exact absurd rfl spoken
        | silent _ refusal kept spends => exact ⟨.silent refusal, kept, spends⟩
        | noRoom _ _ full => exact absurd rfl (noRoom_ne_memory full)
      · obtain ⟨v, hrefusal, haccepted⟩ := hspoken hmem
        refine ⟨_, r, some (.refused (reported e ++ [0])), rfl,
          fun _ _ _ hc => hc.died hstage hcarries hrefusal haccepted, fun g t hroot hplain ht => ?_⟩
        have hsettled := hsettles g t hroot hplain ht
        rw [hrun] at hsettled
        cases hsettled with
        | refused _ _ spoken declines kept spends =>
          exact .inl ⟨t, .refused declines.refuses spoken, kept, spends⟩
        | silent => exact absurd rfl hmem
        | noRoom _ _ full short => exact .inr ⟨_, rfl, ⟨e, full, rfl⟩, short⟩
    · cases h
  | _ =>
    rw [threadStep, hstage] at h
    cases h

end Conversing

/-! ## Histories -/

/-- The tree `t`, with so many free blocks, settles the exchanges of a list one by one
and becomes another tree. Behind an exchange for which there is no room nothing is said. -/
inductive FileTree.History (g : Geometry) :
    ℕ → FileTree → List Exchange → Option (ℕ × FileTree) → Prop
  | nil (free : ℕ) (t : FileTree) : History g free t [] (some (free, t))
  | cons {free : ℕ} {t t₁ : FileTree} {e : Exchange} {l : List Exchange} {u : Option (ℕ × FileTree)}
      (settles : t.Settles g e.request e.received t₁) (enough : t.takes g e.request ≤ free)
      (rest : History g (free - t.takes g e.request) t₁ l u) : History g free t (e :: l) u
  | noRoom {free : ℕ} {t : FileTree} {e : Exchange} {y : Received} (l : List Exchange)
      (received : e.received = some y) (full : y.NoRoom) (short : free < t.takes g e.request) :
      History g free t (e :: l) none

namespace FileTree.History

variable {g : Geometry} {free free₁ : ℕ} {t t₁ : FileTree} {l l' : List Exchange}
  {u u' : Option (ℕ × FileTree)}

theorem append (h : History g free t l (some (free₁, t₁))) (h' : History g free₁ t₁ l' u') :
    History g free t (l ++ l') u' := by
  generalize hu : some (free₁, t₁) = u at h
  induction h with
  | nil =>
    obtain ⟨rfl, rfl⟩ := Prod.mk.inj (Option.some.inj hu)
    exact h'
  | cons settles enough _ ih => exact .cons settles enough (ih hu)
  | noRoom => cases hu

theorem append_none (h : History g free t l none) (l' : List Exchange) :
    History g free t (l ++ l') none := by
  generalize hu : none = u at h
  induction h with
  | nil => cases hu
  | cons settles enough _ ih => exact .cons settles enough (ih hu)
  | noRoom l received full short => exact .noRoom (l ++ l') received full short

theorem split (h : History g free t (l ++ l') u) :
    ∃ v, History g free t l v ∧ ∀ w ∈ v, History g w.1 w.2 l' u := by
  induction l generalizing free t with
  | nil =>
    refine ⟨_, .nil free t, fun w hw => ?_⟩
    obtain rfl := Option.some.inj hw
    exact h
  | cons e l ih =>
    cases h with
    | cons settles enough rest =>
      obtain ⟨v, hl, hl'⟩ := ih rest
      exact ⟨v, .cons settles enough hl, hl'⟩
    | noRoom _ received full short => exact ⟨none, .noRoom l received full short, by simp⟩

/-- A request that is not refused and for which there is room is answered. -/
theorem accepted {e : Exchange} (h : History g free t (e :: l) u) (hr : t.refusal e.request = none)
    (hroom : t.takes g e.request ≤ free) (hstat : ∀ path, e.request ≠ .stat path) :
    ∃ y t₁, e.received = some y ∧ t.Allows g e.request y t₁ ∧
      History g (free - t.takes g e.request) t₁ l u := by
  obtain ⟨i, r, x⟩ := e
  cases h with
  | cons settles _ rest =>
    cases settles with
    | done _ allows => exact ⟨_, _, rfl, allows, rest⟩
    | refused refuses _ =>
      cases refuses with
      | refusal h => cases hr.symm.trans h
      | staleLink _ => exact absurd rfl (hstat _)
    | silent refusal => cases hr.symm.trans refusal
  | noRoom _ _ _ short => exact absurd hroom (Nat.not_le_of_lt short)

end FileTree.History

/-- The exchanges are about files and directories, and nothing is removed. -/
def OnTree (l : List Exchange) : Prop := ∀ e ∈ l, e.request.Plain

/-- The connections that were made in a run, one after another. -/
def accepts (es : List DaemonEvent) : List (Input × Sink UInt8) :=
  es.filterMap fun e =>
    match e with
    | .accept input output => some (input, output)
    | .act _ _ | .signal _ => none

/-- All clients of a run send requests and take the answers. -/
def AllSpeak (es : List DaemonEvent) : Prop := ∀ io ∈ accepts es, ∃ rs, Speaks io.1 io.2 rs

/-- The exchanges `l` are what the connections of `s` have had in the run `es`. -/
structure Conversations (es : List DaemonEvent) (l : List Exchange) (s : Daemon) : Prop where
  accepted : s.connections.length = (accepts es).length
  known : ∀ e ∈ l, e.connection < s.connections.length
  conversing : ∀ (i : ℕ) (c : Connection) (input : Input) (output : Sink UInt8),
    s.connections[i]? = some c →
    (accepts es)[i]? = some (input, output) → ∀ rs, Speaks input output rs →
      c.Conversing output rs (ofConnection i l)

/-- What a history says of the image behind it. -/
def Leaves (g : Geometry) (img : Image) (u : Option (ℕ × FileTree)) : Prop :=
  ∀ v ∈ u, v.1 = freeCount g img ∧ Refines g img v.2

/-- The invariant of a run from an empty tree with so many free blocks: `l` is a
sequential history of it. -/
structure Linearized (g : Geometry) (free : ℕ) (es : List DaemonEvent) (l : List Exchange)
    (s : Daemon) : Prop where
  sound : s.Sound
  speak : AllSpeak es
  conversations : Conversations es l s
  tree : OnTree l → ∃ u, FileTree.History g free (.dir () .nil) l u ∧ Leaves g s.image u

section Histories

variable {fuel free : ℕ} {fds : FsDescriptors} {g : Geometry} {es es' : List DaemonEvent}
  {l : List Exchange} {s s' : Daemon} {i : ℕ} {c c' : Connection} {e : DaemonEvent} {x : Action}

theorem accepts_append (es es' : List DaemonEvent) : accepts (es ++ es') = accepts es ++ accepts es' :=
  List.filterMap_append

theorem accepts_act (es : List DaemonEvent) (i : ℕ) (x : Action) :
    accepts (es ++ [.act i x]) = accepts es := by simp [accepts]

theorem AllSpeak.append (h : AllSpeak es) (h' : AllSpeak es') : AllSpeak (es ++ es') := by
  intro io hio
  rw [accepts_append] at hio
  exact (List.mem_append.mp hio).elim (h io) (h' io)

/-- Nobody has been answered yet. -/
theorem ofConnection_eq_nil (h : ∀ e ∈ l, e.connection ≠ i) : ofConnection i l = [] := by
  rw [ofConnection, List.filter_eq_nil_iff.mpr (by simpa using h), List.map_nil]

theorem Speaks.conversing {input : Input} {output : Sink UInt8} {rs : List Request}
    (h : Speaks input output rs) :
    (⟨.reading, input, output, true, true⟩ : Connection).Conversing output rs [] :=
  ⟨rs, false, [], rfl, (List.append_nil _).symm, .nil, by simp, by simp, fun _ => ⟨by simp, h.room, h.grants, h.requests⟩⟩

/-- Some client is at the other end of a connection, and it speaks. -/
theorem Linearized.client (h : Linearized g free es l s) (hc : s.connections[i]? = some c) :
    ∃ input output rs, (accepts es)[i]? = some (input, output) ∧ Speaks input output rs := by
  have hlt : i < (accepts es).length := by
    rw [← h.conversations.accepted]
    exact (List.getElem?_eq_some_iff.mp hc).1
  obtain ⟨rs, hrs⟩ := h.speak _ (List.getElem_mem hlt)
  exact ⟨_, _, rs, List.getElem?_eq_getElem hlt, hrs⟩

theorem Linearized.accept {input : Input} {output : Sink UInt8} {rs : List Request}
    (h : Linearized g free es l s) (hspeaks : Speaks input output rs)
    (hstep : daemonStep fuel fds s (.accept input output) = some s') :
    Linearized g free (es ++ [.accept input output]) l s' := by
  have hsound := daemonStep_sound h.sound hstep
  simp only [daemonStep] at hstep
  split at hstep
  case isFalse => cases hstep
  obtain rfl := Option.some.inj hstep
  have haccepts : accepts (es ++ [.accept input output]) = accepts es ++ [(input, output)] := by
    simp [accepts]
  have hlen := h.conversations.accepted
  refine ⟨hsound, h.speak.append ?_, ⟨?_, ?_, ?_⟩, h.tree⟩
  · intro io hio
    obtain rfl : io = (input, output) := by simpa [accepts] using hio
    exact ⟨rs, hspeaks⟩
  · simp [haccepts, hlen]
  · intro e he
    have hlt := h.conversations.known e he
    rw [List.length_append]
    omega
  · intro j d input' output' hd hio rs' hrs'
    rw [haccepts] at hio
    rcases Nat.lt_or_ge j s.connections.length with hlt | hge
    · rw [List.getElem?_append_left hlt] at hd
      rw [List.getElem?_append_left (hlen ▸ hlt)] at hio
      exact h.conversations.conversing j d input' output' hd hio rs' hrs'
    · have hnil : ofConnection j l = [] := ofConnection_eq_nil fun e he => by
        have hlt := h.conversations.known e he
        omega
      rw [List.getElem?_append_right hge] at hd
      rw [List.getElem?_append_right (hlen ▸ hge)] at hio
      obtain rfl := List.mem_singleton.mp (List.mem_of_getElem? hd)
      obtain ⟨rfl, rfl⟩ := Prod.mk.inj (List.mem_singleton.mp (List.mem_of_getElem? hio))
      rw [hnil]
      exact hrs'.conversing

/-- A step that changes one connection and the mutex. -/
theorem Conversations.step (h : Conversations es l s) {new : List Exchange}
    (hc : s.connections[i]? = some c) (hs' : s'.connections = s.connections.set i c')
    (hnew : ∀ e ∈ new, e.connection = i)
    (hconv : ∀ output rs l, (∀ r ∈ rs, r.Fits ∧ r.largest < 2 ^ 63) → c.Conversing output rs l →
      c'.Conversing output rs (l ++ ofConnection i new)) :
    Conversations (es ++ [.act i x]) (l ++ new) s' := by
  have hlt : i < s.connections.length := (List.getElem?_eq_some_iff.mp hc).1
  refine ⟨by rw [accepts_act, hs', List.length_set, h.accepted], ?_, ?_⟩
  · intro e he
    rw [hs', List.length_set]
    rcases List.mem_append.mp he with he | he
    · exact h.known e he
    · rw [hnew e he]
      exact hlt
  · intro j d input output hd hio rs hrs
    rw [accepts_act] at hio
    rw [hs', List.getElem?_set] at hd
    rw [ofConnection_append]
    by_cases hij : i = j
    · subst hij
      rw [if_pos rfl, if_pos hlt] at hd
      obtain rfl := Option.some.inj hd
      exact hconv _ _ _ hrs.fits (h.conversing i c input output hc hio rs hrs)
    · have hnil : ofConnection j new = [] := ofConnection_eq_nil fun e he => by
        rw [hnew e he]
        exact hij
      rw [if_neg hij] at hd
      rw [hnil, List.append_nil]
      exact h.conversing j d input output hd hio rs hrs

/-- One more exchange, of which the tree tells. -/
theorem Leaves.snoc {t₀ : FileTree} {img img' : Image} {u : Option (ℕ × FileTree)} {e : Exchange}
    (h : Leaves g img u) (hl : FileTree.History g free t₀ l u)
    (htells : ∀ t, Refines g img t → t.Tells g img img' e.request e.received) :
    ∃ u', FileTree.History g free t₀ (l ++ [e]) u' ∧ Leaves g img' u' := by
  cases u with
  | none => exact ⟨none, hl.append_none [e], by simp [Leaves]⟩
  | some v =>
    obtain ⟨free₁, t⟩ := v
    obtain ⟨hfree, ht⟩ := h _ rfl
    simp only at hfree ht
    subst hfree
    rcases htells t ht with ⟨t', hsettles, ht', hspends⟩ | ⟨y, hy, hfull, hshort⟩
    · refine ⟨_, hl.append (.cons hsettles hspends.enough (.nil _ _)), fun w hw => ?_⟩
      obtain rfl := Option.some.inj hw
      exact ⟨hspends.left.symm, ht'⟩
    · exact ⟨none, hl.append (.noRoom [] hy hfull hshort), by simp [Leaves]⟩

theorem Linearized.act (h : Linearized g free es l s) (hroot : fds.rootInode = g.root)
    (hstep : daemonStep fuel fds s (.act i x) = some s') :
    ∃ new, Linearized g free (es ++ [.act i x]) (l ++ new) s' := by
  have hsound := daemonStep_sound h.sound hstep
  have hspeak : AllSpeak (es ++ [.act i x]) := h.speak.append fun io hio => by simp [accepts] at hio
  obtain ⟨c, hc, hthread⟩ := Option.bind_eq_some_iff.mp hstep
  by_cases hx : x = .operate
  · subst hx
    obtain ⟨input, output, rs, hio, hrs⟩ := h.client hc
    obtain ⟨c', r, y, hs', hconv, htree⟩ := operate_conversing hthread
      (h.conversations.conversing i c input output hc hio rs hrs)
    refine ⟨[⟨i, r, y⟩], hsound, hspeak, h.conversations.step hc hs' (by simp) ?_, fun hon => ?_⟩
    · intro output rs l _ hl
      rw [ofConnection_self]
      exact hconv output rs l hl
    · obtain ⟨u, hu, hleaves⟩ := h.tree fun e he => hon e (List.mem_append_left _ he)
      exact hleaves.snoc hu fun t ht => htree g t hroot (hon ⟨i, r, y⟩ (by simp)) ht
  · obtain ⟨m, c', rfl, hconv⟩ := threadStep_conversing hx hthread
    refine ⟨[], hsound, hspeak, h.conversations.step hc rfl (by simp) ?_, ?_⟩
    · intro output rs l hfits hl
      rw [show ofConnection i [] = [] from rfl, List.append_nil]
      exact hconv output rs l hfits hl
    · rw [List.append_nil]
      exact h.tree

theorem Linearized.step (h : Linearized g free es l s) (hroot : fds.rootInode = g.root)
    (hspeak : AllSpeak [e]) (hsignal : ∀ i, e ≠ .signal i)
    (hstep : daemonStep fuel fds s e = some s') :
    ∃ new, Linearized g free (es ++ [e]) (l ++ new) s' := by
  cases e with
  | accept input output =>
    obtain ⟨rs, hrs⟩ := hspeak (input, output) (by simp [accepts])
    exact ⟨[], by rw [List.append_nil]; exact h.accept hrs hstep⟩
  | act i x => exact h.act hroot hstep
  | signal i => exact absurd rfl (hsignal i)

end Histories

/-! ## The daemon with operations in pieces -/

/-- The steps of a run outside of operations. -/
def outsideOf (es : List FineEvent) : List DaemonEvent :=
  es.filterMap fun e =>
    match e with
    | .outside e => some e
    | .start _ | .piece _ | .finish _ => none

/-- What has become of the requests `rs` of the client at the other end of `c`, in the
order in which it sends them: the bytes `w` are to it the answers of the list `l`. -/
structure Connection.Told (c : Connection) (output : Sink UInt8) (rs : List Request)
    (l : List (Request × Option Received)) (w : List UInt8) : Prop where
  order : l.map Prod.fst <+: rs
  bytes : c.output.accepted = output.accepted ++ w
  client : ∀ (client : Input) (more old : List UInt8), client.source.pending = w ++ more →
    client.heap.Grants (2 ^ 63 - 1) →
    ∃ client', receiveAll old ((answered l).map fun p => p.1.type) client =
        .ok ((answered l).map Prod.snd) client' ∧ client'.source.pending = more
  /-- Only the last request is left without an answer, by a thread at its end. -/
  spoken : ∀ p ∈ l, p.2 = none → p ∉ l.dropLast ∧ c.Refused
  all : c.stage = .closing ∨ c.stage = .freeing → l.map Prod.fst = rs

/-- The exchanges `l` are those of the clients of a run, all but those whose operation is
under way. -/
structure FineDaemon.Conversations (es : List FineEvent) (l : List Exchange) (s : FineDaemon) :
    Prop where
  known : ∀ e ∈ l, e.connection < s.daemon.connections.length
  told : ∀ (i : ℕ) (c : Connection) (input : Input) (output : Sink UInt8), s.left i = none →
    s.daemon.connections[i]? = some c → (accepts (outsideOf es))[i]? = some (input, output) →
    ∀ rs, Speaks input output rs → ∃ w, c.Told output rs (ofConnection i l) w

section Pieces

variable {fuel free : ℕ} {fds : FsDescriptors} {g : Geometry}
  {parts : NetFsOperation → Pieces Stop Server} {es es' : List FineEvent} {ess : List (List DaemonEvent)} {l : List Exchange} {s : FineDaemon}
  {a : Daemon} {c : Connection} {output : Sink UInt8} {rs : List Request} {i : ℕ}

theorem Connection.Conversing.told {l : List (Request × Option Received)} (h : c.Conversing output rs l) :
    ∃ w, c.Told output rs l w := by
  obtain ⟨todo, failed, w, h⟩ := h
  refine ⟨w, ⟨⟨todo, h.order.symm⟩, h.accepted, fun client more old hclient hgrants =>
    receiveAll_run old h.replies hclient hgrants, fun p hp hnone => ⟨?_, ?_⟩, fun hstage => ?_⟩⟩
  · exact fun hmem => h.spoken p hmem hnone
  · by_contra hgoing
    exact (h.awaits hgoing).1 p hp hnone
  have hawait := (h.awaits (by rcases hstage with hs | hs <;> simp [Refused, hs])).2.2.2
  obtain rfl : todo = [] := by rcases hstage with hs | hs <;> simpa [Awaits, hs] using hawait
  rw [h.order, List.append_nil]

theorem Matches.accepts {e : FineEvent} {ds : List DaemonEvent} (h : Matches e ds) :
    accepts ds = accepts (outsideOf [e]) := by
  cases h <;> rfl

theorem FineDaemon.Abstracts.length_eq (h : s.Abstracts fuel fds a) :
    a.connections.length = s.daemon.connections.length := by
  cases h with
  | idle => rfl
  | within => exact (List.length_set ..).symm

theorem FineDaemon.Abstracts.running (h : s.Abstracts fuel fds a) :
    s.daemon.running = a.running := by
  cases h <;> rfl

/-- A connection without an operation under way is where the coarser daemon has it. -/
theorem FineDaemon.Abstracts.lookup (h : s.Abstracts fuel fds a) (hleft : s.left i = none) :
    a.connections[i]? = s.daemon.connections[i]? := by
  cases h with
  | idle => rfl
  | @within _ j c op t p connection stage rest =>
    have hij : i ≠ j := by
      rintro rfl
      cases (Function.update_self i (some p) fun _ => none).symm.trans hleft
    exact ((operated_lookup connection i).trans (if_neg hij)).symm

end Pieces

/-- The thread of the connection `i` has come to the end of the stream. -/
def FineDaemon.closingAt (s : FineDaemon) (i : ℕ) : Bool :=
  (s.left i).isNone && s.daemon.connections[i]?.any fun c =>
    match c.stage with
    | .closing => true
    | _ => false

/-- The thread of the connection `i` has sent nothing and waits for the mutex. -/
def FineDaemon.waitingAt (s : FineDaemon) (i : ℕ) : Bool :=
  (s.left i).isNone && s.daemon.connections[i]?.any fun c =>
    match c.stage with
    | .waiting _ => c.output.accepted.isEmpty
    | _ => false

section Two

variable {es : List FineEvent} {l : List Exchange} {s : FineDaemon} {i : ℕ} {r : Request}
  {op : NetFsOperation}

/-- At the end of the stream the only request of a client has had its turn. -/
theorem FineDaemon.Conversations.closing (h : s.Conversations es l) (hclosing : s.closingAt i = true)
    (hio : (accepts (outsideOf es))[i]? = some (byteByByte op.wire, byteSink))
    (hspeaks : Speaks (byteByByte op.wire) byteSink [r]) : ∃ x, ofConnection i l = [(r, x)] := by
  obtain ⟨hleft, hany⟩ := Bool.and_eq_true_iff.mp hclosing
  obtain ⟨c, hc, hstage⟩ := (Option.any_eq_true _ _).mp hany
  have hstage : c.stage = .closing := by
    split at hstage
    · next h => exact h
    · cases hstage
  obtain ⟨w, htold⟩ := h.told i c _ _ (Option.isNone_iff_eq_none.mp hleft) hc hio [r] hspeaks
  obtain ⟨p, hp, hr⟩ := List.map_eq_singleton_iff.mp (htold.all (.inl hstage))
  exact ⟨p.2, by rw [hp, ← hr]⟩

/-- A client that has been sent nothing has not had its turn. -/
theorem FineDaemon.Conversations.waiting (h : s.Conversations es l) (hwaiting : s.waitingAt i = true)
    (hio : (accepts (outsideOf es))[i]? = some (byteByByte op.wire, byteSink))
    (hspeaks : Speaks (byteByByte op.wire) byteSink [r]) (hr : r.type = .readDir) :
    ofConnection i l = [] := by
  obtain ⟨hleft, hany⟩ := Bool.and_eq_true_iff.mp hwaiting
  obtain ⟨c, hc, hstage⟩ := (Option.any_eq_true _ _).mp hany
  obtain ⟨hgoing, hempty⟩ : ¬ c.Refused ∧ c.output.accepted = [] := by
    split at hstage
    · next h => exact ⟨by simp [Connection.Refused, h], List.isEmpty_iff.mp hstage⟩
    · cases hstage
  obtain ⟨w, htold⟩ := h.told i c _ _ (Option.isNone_iff_eq_none.mp hleft) hc hio [r] hspeaks
  obtain rfl : w = [] := (List.append_eq_nil_iff.mp (htold.bytes.symm.trans hempty)).2
  cases hl : ofConnection i l with
  | nil => rfl
  | cons p rest =>
    -- there would be an answer of no bytes
    exfalso
    rw [hl] at htold
    obtain ⟨hp, hrest⟩ := List.cons_prefix_cons.mp htold.order
    obtain rfl : rest = [] := List.map_eq_nil_iff.mp (List.prefix_nil.mp hrest)
    obtain ⟨r', x⟩ := p
    obtain rfl : r' = r := hp
    cases x with
    | none => exact hgoing (htold.spoken _ List.mem_cons_self rfl).2
    | some y =>
      obtain ⟨client', hclient, hpending⟩ := htold.client (byteByByte [0]) [0] [] rfl
        (byteByByte_grants _ (by omega))
      have hread : (finalState (receiveAll [] [.readDir] (byteByByte [0]))).source.pending = [] := by
        decide +kernel
      have htype : (answered [(r', some y)]).map (fun p => p.1.type) = [.readDir] := by
        simp [answered, hr]
      rw [htype] at hclient
      rw [hclient, finalState_ok, hpending] at hread
      cases hread

end Two

end KisLinux.Net
