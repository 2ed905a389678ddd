import WgReceivePath.Lib.Adjacent
import Mathlib.Logic.Function.Basic
import Mathlib.Data.List.Basic

/-!
# The multi-producer single-consumer packet queue

`struct prev_queue` (queueing.c, queueing.h) is a linked list threaded through `skb->prev`,
with a stub node so that the list is never empty and a one-packet `peeked` cache for the
single consumer.  Producers append with an exchange on `head` followed by a separate store
that links the previous node to the new one; between the two a node is *half-linked*, and
the consumer that walks from `tail` sees a transient end of the list.

## The model

Both sides are modelled at the granularity of their shared-memory accesses.  The call frames
in progress are part of the queue's state: `enq x` is the program point of the
`wg_prev_queue_enqueue` call that is inserting `x`, and `deq` that of the consumer's
`wg_prev_queue_dequeue`.  `enqueueStep` and `peekStep` are one access of each.  A packet is
ever enqueued on one queue only, so its `NEXT` link is kept with the queue.

## The abstraction

`Represents q xs` : `q` holds the packets `xs`, in the order of their exchanges on `head`.
Every operation keeps it, and the two facts the receive path rests on are read off it: a
packet that a peek returns is the first of `xs` (`peekStep_some`,
`Represents.peeked_eq_some`), and a peek that returns `NULL` has seen an empty queue or a
half-linked packet (`peekStep_null`).

What carries the proofs is `IsChain q c`, the node list `c` from `tail` to `head` behind the
pointers.  It says of any two neighbours that the link between them is stored, or that the
store is still *owed* by the producer that has exchanged the second one in (`Linked`,
`Owes`).  The exchange on `head` appends to the chain although no pointer leads to the new
node yet, which is why it is the point at which the enqueue takes effect
(`represents_xchg`); the later store only pays the debt (`represents_link`).  The consumer's
own exchange, which puts the stub behind the last packet, is the same step on the consumer's
side.
-/

namespace WgReceivePath

/-- `MAX_QUEUED_PACKETS` (messages.h). -/
def MAX_QUEUED_PACKETS : ℕ := 1024

/-- A node of the list: the queue's own `empty` stub, or a packet.  The stub is a field of
the queue, so that one constructor is enough for it. -/
inductive Node (α : Type) where
  | stub
  | skb (a : α)
  deriving DecidableEq, Repr

/-- The packet a node pointer stands for; the stub is no packet. -/
def Node.skb? {α : Type} : Node α → Option α
  | .stub => none
  | .skb a => some a

@[simp] theorem Node.skb?_stub {α : Type} : (Node.stub : Node α).skb? = none := rfl

@[simp] theorem Node.skb?_skb {α : Type} (a : α) : (Node.skb a).skb? = some a := rfl

/-- Program points of `wg_prev_queue_enqueue` after its `atomic_add_unless` succeeded, each
before the memory access that it names. -/
inductive EnqPc (α : Type) where
  | idle
  /-- about to store `NEXT(skb) = NULL` -/
  | clear
  /-- about to exchange `queue->head` -/
  | xchg
  /-- about to store `NEXT(prev) = skb` -/
  | link (prev : Node α)
  deriving DecidableEq, Repr

/-- Program points of `wg_prev_queue_dequeue`, each before the access it names; `t` is its
local `tail`, which may be out of date with `queue->head` but never with `queue->tail`. -/
inductive DeqPc (α : Type) where
  | idle
  /-- stepped over the stub, about to load `NEXT(t)` -/
  | second (t : Node α)
  /-- `queue->tail` has moved on, about to decrement `count` and return `t` -/
  | dec (t : Node α)
  /-- `NEXT(t)` was `NULL`, about to compare `t` with `queue->head` -/
  | head (t : Node α)
  /-- about to store `NEXT(STUB) = NULL` -/
  | clear (t : Node α)
  /-- about to exchange `queue->head` with the stub -/
  | xchg (t : Node α)
  /-- about to store `NEXT(prev) = STUB` -/
  | link (t prev : Node α)
  /-- about to load `NEXT(t)` again -/
  | reload (t : Node α)
  deriving DecidableEq, Repr

/-- `struct prev_queue` with the call frames in progress on it.  `next` is the `NEXT` link
of every node, `count` the number of reserved places, which is raised before a packet is on
the list and lowered after it has left. -/
structure PrevQueue (α : Type) where
  head : Node α
  tail : Node α
  next : Node α → Option (Node α)
  peeked : Option α
  count : ℕ
  enq : α → EnqPc α
  deq : DeqPc α

namespace PrevQueue

variable {α : Type}

/-- `wg_prev_queue_init`. -/
def wgPrevQueueInit : PrevQueue α where
  head := .stub
  tail := .stub
  next := fun _ => none
  peeked := none
  count := 0
  enq := fun _ => .idle
  deq := .idle

/-- `wg_prev_queue_drop_peeked`. -/
def wgPrevQueueDropPeeked (q : PrevQueue α) : PrevQueue α := { q with peeked := none }

section Operations

variable [DecidableEq α]

/-- The capacity check of `wg_prev_queue_enqueue`,
`atomic_add_unless(&queue->count, 1, MAX_QUEUED_PACKETS)`; `none` is `false`. -/
def reserve (q : PrevQueue α) (x : α) : Option (PrevQueue α) :=
  if q.count = MAX_QUEUED_PACKETS then none
  else some { q with count := q.count + 1, enq := Function.update q.enq x .clear }

/-- One memory access of `__wg_prev_queue_enqueue(queue, x)`. -/
def enqueueStep (q : PrevQueue α) (x : α) : Option (PrevQueue α) :=
  match q.enq x with
  | .idle => none
  | .clear =>
      some { q with
        next := Function.update q.next (.skb x) none
        enq := Function.update q.enq x .xchg }
  | .xchg =>
      some { q with
        head := .skb x
        enq := Function.update q.enq x (.link q.head) }
  | .link prev =>
      some { q with
        next := Function.update q.next prev (some (.skb x))
        enq := Function.update q.enq x .idle }

/-- The consumer continues with `NEXT(t)` loaded into `nx`: move `tail` past `t`
if there is a next node, else go and look at `head`. -/
def afterLoad (q : PrevQueue α) (t : Node α) (nx : Option (Node α)) : PrevQueue α :=
  match nx with
  | some n => { q with tail := n, deq := .dec t }
  | none => { q with deq := .head t }

/-- One memory access of `wg_prev_queue_peek(queue)`, which returns the cached packet or
runs `wg_prev_queue_dequeue` and caches what that returns.  The second component is the
result once the call returns, `none` as long as it is under way. -/
def peekStep (q : PrevQueue α) : PrevQueue α × Option (Option α) :=
  match q.deq with
  | .idle =>
      match q.peeked with
      | some x => (q, some (some x))
      | none =>
          match q.tail with
          | .stub =>
              match q.next .stub with
              | none => (q, some none)
              | some n => ({ q with tail := n, deq := .second n }, none)
          | .skb a => (q.afterLoad (.skb a) (q.next (.skb a)), none)
  | .second t => (q.afterLoad t (q.next t), none)
  | .dec t =>
      ({ q with count := q.count - 1, peeked := t.skb?, deq := .idle }, some t.skb?)
  | .head t =>
      if t = q.head then ({ q with deq := .clear t }, none)
      else ({ q with deq := .idle }, some none)
  | .clear t =>
      ({ q with next := Function.update q.next .stub none, deq := .xchg t }, none)
  | .xchg t => ({ q with head := .stub, deq := .link t q.head }, none)
  | .link t prev =>
      ({ q with next := Function.update q.next prev (some .stub), deq := .reload t },
        none)
  | .reload t =>
      match q.next t with
      | some n => ({ q with tail := n, deq := .dec t }, none)
      | none => ({ q with deq := .idle }, some none)

end Operations

/-! ## The list behind the pointers

The chain is the list of nodes in the order of their exchanges, the stub among them, whether
the links are stored or not.  What the queue holds is the chain without the stub, behind
what the consumer has passed and with what it has cached in front. -/

/-- `b` has been exchanged into `head` right after `a`, and the store that links `a` to it
is still to come.  A packet's link is owed by the producer that inserts it, the stub's by
the consumer. -/
def Owes (q : PrevQueue α) (a : Node α) : Node α → Prop
  | .skb x => q.enq x = .link a
  | .stub => ∃ t, q.deq = .link t a

/-- The link from `a` to its neighbour `b` is stored, or still owed.  In the second case
`NEXT(a)` is `NULL`, and the consumer at `a` sees an end of the list that is not one. -/
def Linked (q : PrevQueue α) (a b : Node α) : Prop :=
  q.next a = some b ∨ (q.next a = none ∧ q.Owes a b)

/-- Some producer has exchanged `head` but not yet linked its packet.  This is the one
reason for which a peek may return `NULL` on a queue that is not empty. -/
def HalfLinked (q : PrevQueue α) : Prop := ∃ x a, q.enq x = .link a

/-- What the consumer's frame knows about the node list `c`: its local `tail` is the first
node, it holds no cached packet, and at which of its points the stub is off the list. -/
def DeqOk (q : PrevQueue α) (c : List (Node α)) : Prop :=
  match q.deq with
  | .idle => True
  | .second t => q.tail = t ∧ t ≠ .stub ∧ q.peeked = none
  | .dec t => t ≠ .stub ∧ q.peeked = none
  | .head t => q.tail = t ∧ t ≠ .stub ∧ q.peeked = none ∧ ¬ c.Adjacent t .stub
  | .clear t => q.tail = t ∧ t ≠ .stub ∧ q.peeked = none ∧ .stub ∉ c
  | .xchg t =>
      q.tail = t ∧ t ≠ .stub ∧ q.peeked = none ∧ .stub ∉ c ∧ q.next .stub = none
  | .link t prev =>
      q.tail = t ∧ t ≠ .stub ∧ q.peeked = none ∧ c.Adjacent prev .stub ∧
        q.next prev = none
  | .reload t => q.tail = t ∧ t ≠ .stub ∧ q.peeked = none ∧ .stub ∈ c

/-- The node list from `tail` to `head`, in the order of the exchanges.  Neighbours are
linked up to owed stores, a node that a producer is still preparing is not on the list, and
its `NEXT` is cleared before it is exchanged in. -/
structure IsChain (q : PrevQueue α) (c : List (Node α)) : Prop where
  tail : c.head? = some q.tail
  head : c.getLast? = some q.head
  nodup : c.Nodup
  linked : ∀ a b, c.Adjacent a b → q.Linked a b
  last : q.next q.head = none
  owed : ∀ x a, q.enq x = .link a → c.Adjacent a (.skb x) ∧ q.next a = none
  fresh : ∀ x, q.enq x = .clear ∨ q.enq x = .xchg → Node.skb x ∉ c
  cleared : ∀ x, q.enq x = .xchg → q.next (.skb x) = none
  deq : q.DeqOk c

/-- The packet the consumer has taken off the list: the one it is about to
return, or the cached one. -/
def held (q : PrevQueue α) : List α :=
  match q.deq with
  | .dec t => t.skb?.toList
  | _ => q.peeked.toList

/-- **The queue holds the packets `xs`**, first the one the consumer holds, then
those of the list in the order of their exchanges on `head`. -/
def Represents (q : PrevQueue α) (xs : List α) : Prop :=
  ∃ c, q.IsChain c ∧ xs = q.held ++ c.filterMap Node.skb?

theorem Linked.congr {q q' : PrevQueue α} {a b : Node α} (h : q.Linked a b)
    (next : q'.next a = q.next a) (owes : q.Owes a b → q'.Owes a b) :
    q'.Linked a b := by
  rcases h with stored | ⟨unlinked, owed⟩
  · exact .inl (next.trans stored)
  · exact .inr ⟨next.trans unlinked, owes owed⟩

/-- A node of the chain whose link is not stored is followed by nothing, or by a
half-linked packet: only the consumer itself links the stub, and it is not at
that point. -/
theorem IsChain.halfLinked_of_next_none {q : PrevQueue α} {c : List (Node α)}
    (chain : q.IsChain c) {a b : Node α} (adj : c.Adjacent a b)
    (unlinked : q.next a = none) (notLinking : ∀ t prev, q.deq ≠ .link t prev) :
    q.HalfLinked ∧ b ≠ .stub := by
  rcases chain.linked a b adj with stored | ⟨-, owed⟩
  · simp [unlinked] at stored
  · cases b with
    | stub =>
        obtain ⟨t, link⟩ := owed
        exact absurd link (notLinking t a)
    | skb x => exact ⟨⟨x, a, owed⟩, by simp⟩

theorem represents_init : (wgPrevQueueInit : PrevQueue α).Represents [] := by
  refine ⟨[.stub], ?_, rfl⟩
  constructor <;> simp [wgPrevQueueInit, DeqOk]

/-- The queue is physically empty: no cached packet, and the stub alone between
`tail` and `head`. -/
abbrev Vacant (q : PrevQueue α) : Prop := q.peeked = none ∧ q.head = .stub ∧ q.tail = .stub

/-- An empty queue with no consumer call in progress is physically empty. -/
theorem represents_nil {q : PrevQueue α} (h : q.Represents []) (idle : q.deq = .idle) :
    q.Vacant := by
  obtain ⟨c, chain, empty⟩ := h
  obtain ⟨heldNil, nodesNil⟩ := List.append_eq_nil_iff.mp empty.symm
  have allStub : ∀ n ∈ c, n = Node.stub := by
    intro n mem
    cases n with
    | stub => rfl
    | skb x => simpa using List.filterMap_eq_nil_iff.mp nodesNil _ mem
  refine ⟨by simpa [held, idle] using heldNil, ?_, ?_⟩
  · exact allStub _ (List.mem_of_getLast? chain.head)
  · exact allStub _ (List.mem_of_head? chain.tail)

/-! ## Producers

A producer's place in the queue is decided by its exchange on `head`.  Before it the queue
is as it was; after it the list has grown, although the consumer cannot see that yet. -/

section Producers

variable [DecidableEq α] {q q' : PrevQueue α} {xs : List α} {x : α}

/-- Changing the program point of a producer that is neither before nor after
its exchange moves no link. -/
theorem owes_update_of_ne {pc : EnqPc α} {a b : Node α} (h : q.Owes a b)
    (outside : ∀ prev, q.enq x ≠ .link prev) :
    ({ q with enq := Function.update q.enq x pc } : PrevQueue α).Owes a b := by
  cases b with
  | stub => exact h
  | skb y =>
      have ne : y ≠ x := by
        rintro rfl
        exact outside a h
      simpa [Owes, ne] using h

/-- `atomic_add_unless` does not touch the list.  It is where a full queue refuses the
packet. -/
theorem represents_reserve (h : q.Represents xs) (idle : q.enq x = .idle)
    (notMem : x ∉ xs) (taken : q.reserve x = some q') : q'.Represents xs := by
  obtain ⟨c, chain, rfl⟩ := h
  have absent : Node.skb x ∉ c := fun mem =>
    notMem (List.mem_append_right _ (List.mem_filterMap.mpr ⟨_, mem, rfl⟩))
  unfold reserve at taken
  split at taken
  · simp at taken
  · cases taken
    refine ⟨c, ?_, rfl⟩
    refine ⟨chain.tail, chain.head, chain.nodup, ?_, chain.last, ?_, ?_, ?_, chain.deq⟩
    · intro a b adj
      exact (chain.linked a b adj).congr rfl
        (fun owed => owes_update_of_ne owed (by simp [idle]))
    · intro y a link
      by_cases ne : y = x
      · subst ne
        simp at link
      · exact chain.owed y a (by simpa [ne] using link)
    · intro y pending
      by_cases ne : y = x
      · exact ne ▸ absent
      · exact chain.fresh y (by simpa [ne] using pending)
    · intro y pending
      by_cases ne : y = x
      · subst ne
        simp at pending
      · exact chain.cleared y (by simpa [ne] using pending)

/-- `NEXT(skb) = NULL`: the packet is not on the list yet.  No node of the chain has its
link changed, because the packet is not among them. -/
theorem represents_clear (h : q.Represents xs) (pc : q.enq x = .clear)
    (taken : q.enqueueStep x = some q') : q'.Represents xs := by
  obtain ⟨c, chain, rfl⟩ := h
  have absent : Node.skb x ∉ c := chain.fresh x (.inl pc)
  have other : ∀ {n : Node α}, n ∈ c →
      Function.update q.next (.skb x) none n = q.next n := by
    intro n mem
    refine Function.update_of_ne ?_ _ _
    rintro rfl
    exact absent mem
  simp only [enqueueStep, pc, Option.some.injEq] at taken
  subst taken
  refine ⟨c, ?_, rfl⟩
  refine ⟨chain.tail, chain.head, chain.nodup, ?_,
    (other (List.mem_of_getLast? chain.head)).trans chain.last, ?_, ?_, ?_, ?_⟩
  · intro a b adj
    exact (chain.linked a b adj).congr (other adj.mem_left)
      (fun owed => owes_update_of_ne owed (by simp [pc]))
  · intro y a link
    by_cases ne : y = x
    · subst ne
      simp at link
    · obtain ⟨adj, unlinked⟩ := chain.owed y a (by simpa [ne] using link)
      exact ⟨adj, (other adj.mem_left).trans unlinked⟩
  · intro y pending
    by_cases ne : y = x
    · exact ne ▸ absent
    · exact chain.fresh y (by simpa [ne] using pending)
  · intro y pending
    by_cases ne : y = x
    · subst ne
      simp
    · simpa [ne] using chain.cleared y (by simpa [ne] using pending)
  · have deq := chain.deq
    unfold DeqOk at deq ⊢
    cases hd : q.deq <;> simp only [hd] at deq ⊢ <;> try exact deq
    exact ⟨deq.1, deq.2.1, deq.2.2.1, deq.2.2.2.1,
      (other deq.2.2.2.1.mem_left).trans deq.2.2.2.2⟩

/-- **The exchange on `head` is the enqueue.**  It appends the packet, whatever the consumer
and the other producers are doing.  From here on the packet is in its place in the order,
and the link to it is owed. -/
theorem represents_xchg (h : q.Represents xs) (pc : q.enq x = .xchg)
    (taken : q.enqueueStep x = some q') :
    q'.Represents (xs ++ [x]) ∧ q'.enq x = .link q.head := by
  obtain ⟨c, chain, rfl⟩ := h
  have absent : Node.skb x ∉ c := chain.fresh x (.inr pc)
  have nonempty : c ≠ [] := by
    rintro rfl
    simpa using chain.tail
  simp only [enqueueStep, pc, Option.some.injEq] at taken
  subst taken
  refine ⟨⟨c ++ [.skb x], ?_, ?_⟩, by simp⟩
  · refine ⟨?_, by simp, ?_, ?_, ?_, ?_, ?_, ?_, ?_⟩
    · rw [List.head?_append_of_ne_nil _ nonempty]
      exact chain.tail
    · exact List.nodup_append.mpr ⟨chain.nodup, by simp, by
        rintro a mem b single rfl
        exact absent ((List.mem_singleton.mp single) ▸ mem)⟩
    · intro a b adj
      rcases List.adjacent_concat.mp adj with old | ⟨last, rfl⟩
      · exact (chain.linked a b old).congr rfl
          (fun owed => owes_update_of_ne owed (by simp [pc]))
      · have : a = q.head := by simpa [chain.head] using last.symm
        subst this
        exact .inr ⟨chain.last, by simp [Owes]⟩
    · exact chain.cleared x pc
    · intro y a link
      by_cases ne : y = x
      · subst ne
        have : a = q.head := by simpa using link.symm
        subst this
        exact ⟨List.adjacent_concat.mpr (.inr ⟨chain.head, rfl⟩), chain.last⟩
      · obtain ⟨adj, unlinked⟩ := chain.owed y a (by simpa [ne] using link)
        exact ⟨List.adjacent_concat.mpr (.inl adj), unlinked⟩
    · intro y pending
      by_cases ne : y = x
      · subst ne
        simp at pending
      · have := chain.fresh y (by simpa [ne] using pending)
        simp [this, ne]
    · intro y pending
      by_cases ne : y = x
      · subst ne
        simp at pending
      · exact chain.cleared y (by simpa [ne] using pending)
    · have deq := chain.deq
      unfold DeqOk at deq ⊢
      cases hd : q.deq <;> simp only [hd] at deq ⊢ <;> try exact deq
      · refine ⟨deq.1, deq.2.1, deq.2.2.1, fun adj => ?_⟩
        rcases List.adjacent_concat.mp adj with old | ⟨-, stub⟩
        · exact deq.2.2.2 old
        · simp at stub
      · exact ⟨deq.1, deq.2.1, deq.2.2.1, by simpa using deq.2.2.2⟩
      · exact ⟨deq.1, deq.2.1, deq.2.2.1, by simpa using deq.2.2.2.1, deq.2.2.2.2⟩
      · exact ⟨deq.1, deq.2.1, deq.2.2.1,
          List.adjacent_concat.mpr (.inl deq.2.2.2.1), deq.2.2.2.2⟩
      · exact ⟨deq.1, deq.2.1, deq.2.2.1, List.mem_append_left _ deq.2.2.2⟩
  · rw [List.filterMap_append, ← List.append_assoc]
    rfl

/-- Storing the owed link: the neighbour of `prev` is the packet being linked,
so no other link is overwritten. -/
theorem represents_link {prev : Node α} (h : q.Represents xs)
    (pc : q.enq x = .link prev) (taken : q.enqueueStep x = some q') :
    q'.Represents xs := by
  obtain ⟨c, chain, rfl⟩ := h
  obtain ⟨adjx, unlinkedx⟩ := chain.owed x prev pc
  have other : ∀ {n : Node α}, n ≠ prev →
      Function.update q.next prev (some (.skb x)) n = q.next n :=
    fun ne => Function.update_of_ne ne _ _
  have lastNe : q.head ≠ prev := by
    intro eq
    exact adjx.getLast?_ne chain.nodup (eq ▸ chain.head)
  simp only [enqueueStep, pc, Option.some.injEq] at taken
  subst taken
  refine ⟨c, ?_, rfl⟩
  refine ⟨chain.tail, chain.head, chain.nodup, ?_, (other lastNe).trans chain.last,
    ?_, ?_, ?_, ?_⟩
  · intro a b adj
    by_cases eq : a = prev
    · subst eq
      have : b = .skb x := adj.right_unique chain.nodup adjx
      subst this
      exact .inl (by simp)
    · refine (chain.linked a b adj).congr (other eq) fun owed => ?_
      cases b with
      | stub => exact owed
      | skb y =>
          have ne : y ≠ x := by
            rintro rfl
            exact eq (by simpa [Owes, pc] using owed.symm)
          simpa [Owes, ne] using owed
  · intro y a link
    by_cases ne : y = x
    · subst ne
      simp at link
    · obtain ⟨adj, unlinked⟩ := chain.owed y a (by simpa [ne] using link)
      refine ⟨adj, (other fun eq => ne ?_).trans unlinked⟩
      subst eq
      simpa using adj.right_unique chain.nodup adjx
  · intro y pending
    by_cases ne : y = x
    · subst ne
      simp at pending
    · exact chain.fresh y (by simpa [ne] using pending)
  · intro y pending
    by_cases ne : y = x
    · subst ne
      simp at pending
    · have fresh := chain.fresh y (by simpa [ne] using Or.inr pending)
      refine (other ?_).trans (chain.cleared y (by simpa [ne] using pending))
      rintro rfl
      exact fresh adjx.mem_left
  · have deq := chain.deq
    unfold DeqOk at deq ⊢
    cases hd : q.deq <;> simp only [hd] at deq ⊢ <;> try exact deq
    · refine ⟨deq.1, deq.2.1, deq.2.2.1, deq.2.2.2.1, (other fun eq => ?_).trans deq.2.2.2.2⟩
      exact deq.2.2.2.1 (eq ▸ adjx.mem_left)
    · refine ⟨deq.1, deq.2.1, deq.2.2.1, deq.2.2.2.1, (other fun eq => ?_).trans deq.2.2.2.2⟩
      subst eq
      simpa using deq.2.2.2.1.right_unique chain.nodup adjx

end Producers

/-! ## The consumer

The dequeue has four outcomes: the stub is skipped, a packet is taken, the list ends, or it
seems to end at a half-linked packet.  It pushes the stub itself when it has come to the
last packet, so that the packet can be taken while the list stays non-empty. -/

section Consumer

variable {q : PrevQueue α} {c : List (Node α)} {xs : List α}

/-- Outside the store that links the stub, a neighbour's link is owed by a
producer, so the consumer may change its program point. -/
theorem Linked.setDeq {a b : Node α} {t : Node α} {d : DeqPc α} (h : q.Linked a b)
    (notLinking : ∀ t prev, q.deq ≠ .link t prev) :
    ({ q with tail := t, deq := d } : PrevQueue α).Linked a b := by
  refine Linked.congr h rfl fun owed => ?_
  cases b with
  | stub =>
      obtain ⟨t, link⟩ := owed
      exact absurd link (notLinking t a)
  | skb y => exact owed

theorem IsChain.setDeq {d : DeqPc α} (chain : q.IsChain c)
    (notLinking : ∀ t prev, q.deq ≠ .link t prev)
    (ok : ({ q with deq := d } : PrevQueue α).DeqOk c) :
    ({ q with deq := d } : PrevQueue α).IsChain c :=
  ⟨chain.tail, chain.head, chain.nodup,
    fun a b adj => (chain.linked a b adj).setDeq notLinking, chain.last, chain.owed,
    chain.fresh, chain.cleared, ok⟩

theorem IsChain.eq_cons (chain : q.IsChain c) : ∃ rest, c = q.tail :: rest := by
  cases c with
  | nil => simpa using chain.tail
  | cons n rest => exact ⟨rest, by simpa using chain.tail⟩

/-- A stored link from `tail` leads to the second node of the list. -/
theorem IsChain.next_tail {n : Node α} (chain : q.IsChain c)
    (stored : q.next q.tail = some n) : ∃ rest, c = q.tail :: n :: rest := by
  obtain ⟨rest, rfl⟩ := chain.eq_cons
  cases rest with
  | nil =>
      have headTail : q.tail = q.head := by simpa using chain.head
      have := chain.last
      simp [← headTail, stored] at this
  | cons m rest =>
      rcases chain.linked q.tail m (by simp) with eq | ⟨unlinked, -⟩
      · exact ⟨rest, by simp_all⟩
      · simp [stored] at unlinked

/-- Moving `tail` to the second node takes the first one off the list. -/
theorem IsChain.advance {t n : Node α} {rest : List (Node α)} {d : DeqPc α}
    (chain : q.IsChain (t :: n :: rest)) (stored : q.next t = some n)
    (notLinking : ∀ t prev, q.deq ≠ .link t prev)
    (ok : ({ q with tail := n, deq := d } : PrevQueue α).DeqOk (n :: rest)) :
    ({ q with tail := n, deq := d } : PrevQueue α).IsChain (n :: rest) := by
  refine ⟨rfl, by simpa using chain.head, (List.nodup_cons.mp chain.nodup).2, ?_,
    chain.last, ?_, ?_, chain.cleared, ok⟩
  · intro a b adj
    exact (chain.linked a b adj.cons).setDeq notLinking
  · intro x a link
    obtain ⟨adj, unlinked⟩ := chain.owed x a link
    refine ⟨?_, unlinked⟩
    rcases List.adjacent_cons_cons.mp adj with ⟨rfl, -⟩ | later
    · simp [stored] at unlinked
    · exact later
  · intro x pending mem
    exact chain.fresh x pending (List.mem_cons_of_mem _ mem)

/-- The load of `NEXT(t)` by the consumer that holds no packet and stands at the
first node `t`. -/
theorem represents_afterLoad {t : Node α} (h : q.Represents xs)
    (notLinking : ∀ t prev, q.deq ≠ .link t prev) (notDec : ∀ t, q.deq ≠ .dec t)
    (tail : q.tail = t) (packet : t ≠ .stub) (empty : q.peeked = none) :
    (q.afterLoad t (q.next t)).Represents xs := by
  obtain ⟨c, chain, rfl⟩ := h
  have heldNil : q.held = [] := by
    unfold held
    split
    · exact absurd ‹_› (notDec _)
    · simp [empty]
  cases stored : q.next t with
  | none =>
      refine ⟨c, chain.setDeq notLinking ⟨tail, packet, empty, fun adj => ?_⟩, ?_⟩
      · exact (chain.halfLinked_of_next_none adj stored notLinking).2 rfl
      · rw [heldNil]
        simp [held, afterLoad, empty]
  | some n =>
      subst tail
      obtain ⟨rest, rfl⟩ := chain.next_tail stored
      refine ⟨n :: rest, chain.advance stored notLinking ⟨packet, empty⟩, ?_⟩
      rw [heldNil]
      cases tail : q.tail with
      | stub => exact absurd tail packet
      | skb a => simp [held, afterLoad]

/-- The list has one node when `tail` and `head` are the same. -/
theorem IsChain.eq_singleton (chain : q.IsChain c) (same : q.tail = q.head) :
    c = [q.tail] := by
  obtain ⟨rest, rfl⟩ := chain.eq_cons
  cases rest with
  | nil => rfl
  | cons n rest =>
      have notMem := (List.nodup_cons.mp chain.nodup).1
      have last := chain.head
      rw [List.getLast?_cons_cons, ← same] at last
      exact absurd (List.mem_of_getLast? last) notMem

/-- `NEXT(STUB) = NULL` touches no link of the list: the stub is not on it.  The consumer
has passed the stub, and is about to push it again. -/
theorem represents_peek_clear [DecidableEq α] {t : Node α} (h : q.Represents xs)
    (pc : q.deq = .clear t) : (q.peekStep).1.Represents xs := by
  obtain ⟨c, chain, rfl⟩ := h
  obtain ⟨tail, packet, empty, noStub⟩ : q.tail = t ∧ t ≠ .stub ∧ q.peeked = none ∧
      .stub ∉ c := by simpa [DeqOk, pc] using chain.deq
  have other : ∀ {n : Node α}, n ∈ c →
      Function.update q.next .stub none n = q.next n := by
    intro n mem
    refine Function.update_of_ne ?_ _ _
    rintro rfl
    exact noStub mem
  refine ⟨c, ?_, by simp [held, pc, peekStep]⟩
  simp only [peekStep, pc]
  refine ⟨chain.tail, chain.head, chain.nodup, ?_,
    (other (List.mem_of_getLast? chain.head)).trans chain.last, ?_, chain.fresh, ?_,
    ⟨tail, packet, empty, noStub, by simp⟩⟩
  · intro a b adj
    refine (chain.linked a b adj).congr (other adj.mem_left) fun owed => ?_
    cases b with
    | stub => exact absurd adj.mem_right noStub
    | skb y => exact owed
  · intro x a link
    obtain ⟨adj, unlinked⟩ := chain.owed x a link
    exact ⟨adj, (other adj.mem_left).trans unlinked⟩
  · intro x pending
    simpa using chain.cleared x pending

/-- The consumer's own exchange puts the stub behind the last packet.  The chain grows by
the stub, and its link is owed by the consumer. -/
theorem represents_peek_xchg [DecidableEq α] {t : Node α} (h : q.Represents xs)
    (pc : q.deq = .xchg t) : (q.peekStep).1.Represents xs := by
  obtain ⟨c, chain, rfl⟩ := h
  obtain ⟨tail, packet, empty, noStub, cleared⟩ : q.tail = t ∧ t ≠ .stub ∧
      q.peeked = none ∧ .stub ∉ c ∧ q.next .stub = none := by
    simpa [DeqOk, pc] using chain.deq
  have nonempty : c ≠ [] := by
    rintro rfl
    simpa using chain.tail
  refine ⟨c ++ [.stub], ?_, by simp [held, pc, peekStep]⟩
  simp only [peekStep, pc]
  refine ⟨?_, by simp, ?_, ?_, cleared, ?_, ?_, chain.cleared, ?_⟩
  · rw [List.head?_append_of_ne_nil _ nonempty]
    exact chain.tail
  · refine List.nodup_append.mpr ⟨chain.nodup, by simp, ?_⟩
    rintro a mem b single rfl
    exact noStub ((List.mem_singleton.mp single) ▸ mem)
  · intro a b adj
    rcases List.adjacent_concat.mp adj with old | ⟨last, rfl⟩
    · refine (chain.linked a b old).congr rfl fun owed => ?_
      cases b with
      | stub => exact absurd old.mem_right noStub
      | skb y => exact owed
    · have : a = q.head := by simpa [chain.head] using last.symm
      subst this
      exact .inr ⟨chain.last, ⟨t, rfl⟩⟩
  · intro x a link
    obtain ⟨adj, unlinked⟩ := chain.owed x a link
    exact ⟨List.adjacent_concat.mpr (.inl adj), unlinked⟩
  · intro x pending
    simpa using chain.fresh x pending
  · exact ⟨tail, packet, empty, List.adjacent_concat.mpr (.inr ⟨chain.head, rfl⟩),
      chain.last⟩

/-- The store that links the stub.  If a producer has come in between, the packet is not the
last one before the stub, and the link leads to the right node all the same. -/
theorem represents_peek_link [DecidableEq α] {t prev : Node α} (h : q.Represents xs)
    (pc : q.deq = .link t prev) : (q.peekStep).1.Represents xs := by
  obtain ⟨c, chain, rfl⟩ := h
  obtain ⟨tail, packet, empty, adjs, unlinkeds⟩ : q.tail = t ∧ t ≠ .stub ∧
      q.peeked = none ∧ c.Adjacent prev .stub ∧ q.next prev = none := by
    simpa [DeqOk, pc] using chain.deq
  have other : ∀ {n : Node α}, n ≠ prev →
      Function.update q.next prev (some .stub) n = q.next n :=
    fun ne => Function.update_of_ne ne _ _
  have lastNe : q.head ≠ prev := by
    intro eq
    exact adjs.getLast?_ne chain.nodup (eq ▸ chain.head)
  refine ⟨c, ?_, by simp [held, pc, peekStep]⟩
  simp only [peekStep, pc]
  refine ⟨chain.tail, chain.head, chain.nodup, ?_, (other lastNe).trans chain.last, ?_,
    chain.fresh, ?_, ⟨tail, packet, empty, adjs.mem_right⟩⟩
  · intro a b adj
    by_cases eq : a = prev
    · subst eq
      have : b = .stub := adj.right_unique chain.nodup adjs
      subst this
      exact .inl (by simp)
    · refine (chain.linked a b adj).congr (other eq) fun owed => ?_
      cases b with
      | stub =>
          obtain ⟨t', link⟩ := owed
          simp [pc] at link
          exact absurd link.2.symm eq
      | skb y => exact owed
  · intro x a link
    obtain ⟨adj, unlinked⟩ := chain.owed x a link
    refine ⟨adj, (other ?_).trans unlinked⟩
    rintro rfl
    simpa using adj.right_unique chain.nodup adjs
  · intro x pending
    refine (other ?_).trans (chain.cleared x pending)
    rintro rfl
    exact chain.fresh x (.inr pending) adjs.mem_left

/-- **Every memory access of a peek leaves the packets as they are.**  A peek moves a packet
from the list to the cache at most; only dropping the cached packet takes it off the queue.
-/
theorem represents_peekStep [DecidableEq α] (h : q.Represents xs) :
    (q.peekStep).1.Represents xs := by
  cases pc : q.deq with
  | idle =>
      cases cached : q.peeked with
      | some x => simpa [peekStep, pc, cached] using h
      | none =>
          cases tail : q.tail with
          | skb a =>
              simpa [peekStep, pc, cached, tail] using
                represents_afterLoad h (by simp [pc]) (by simp [pc]) tail (by simp) cached
          | stub =>
              cases stored : q.next .stub with
              | none => simpa [peekStep, pc, cached, tail, stored] using h
              | some n =>
                  obtain ⟨c, chain, rfl⟩ := h
                  obtain ⟨rest, rfl⟩ := chain.next_tail (tail ▸ stored)
                  have ne : n ≠ .stub := by
                    rintro rfl
                    simpa [tail] using chain.nodup
                  refine ⟨n :: rest, ?_, ?_⟩
                  · simpa [peekStep, pc, cached, tail, stored] using
                      chain.advance (d := .second n) (tail ▸ stored) (by simp [pc])
                        ⟨rfl, ne, cached⟩
                  · simp [peekStep, pc, cached, tail, stored, held, List.filterMap_cons]
  | second t =>
      obtain ⟨c, chain, -⟩ := id h
      obtain ⟨tail, packet, empty⟩ : q.tail = t ∧ t ≠ .stub ∧ q.peeked = none := by
        simpa [DeqOk, pc] using chain.deq
      simpa [peekStep, pc] using
        represents_afterLoad h (by simp [pc]) (by simp [pc]) tail packet empty
  | dec t =>
      obtain ⟨c, chain, rfl⟩ := h
      refine ⟨c, ?_, by simp [peekStep, pc, held]⟩
      have idle := chain.setDeq (d := .idle) (by simp [pc]) trivial
      simp only [peekStep, pc]
      exact ⟨idle.tail, idle.head, idle.nodup, idle.linked, idle.last, idle.owed,
        idle.fresh, idle.cleared, trivial⟩
  | head t =>
      obtain ⟨c, chain, rfl⟩ := h
      obtain ⟨tail, packet, empty, -⟩ : q.tail = t ∧ t ≠ .stub ∧ q.peeked = none ∧
          ¬ c.Adjacent t .stub := by simpa [DeqOk, pc] using chain.deq
      by_cases same : t = q.head
      · refine ⟨c, ?_, by simp [peekStep, pc, held, same]⟩
        have single := chain.eq_singleton (tail.trans same)
        simpa [peekStep, pc, ← same] using chain.setDeq (d := .clear t) (by simp [pc])
          ⟨tail, packet, empty, by simpa [single, tail] using packet.symm⟩
      · refine ⟨c, ?_, by simp [peekStep, pc, held, same]⟩
        simpa [peekStep, pc, same] using chain.setDeq (d := .idle) (by simp [pc]) trivial
  | clear t => exact represents_peek_clear h pc
  | xchg t => exact represents_peek_xchg h pc
  | link t prev => exact represents_peek_link h pc
  | reload t =>
      obtain ⟨c, chain, -⟩ := id h
      obtain ⟨tail, packet, empty, -⟩ : q.tail = t ∧ t ≠ .stub ∧ q.peeked = none ∧
          .stub ∈ c := by simpa [DeqOk, pc] using chain.deq
      cases stored : q.next t with
      | some n =>
          have moved := represents_afterLoad h (by simp [pc]) (by simp [pc]) tail packet empty
          simpa [peekStep, pc, stored, afterLoad] using moved
      | none =>
          obtain ⟨c, chain, rfl⟩ := h
          refine ⟨c, ?_, by simp [peekStep, pc, held, stored]⟩
          simpa [peekStep, pc, stored] using
            chain.setDeq (d := .idle) (by simp [pc]) trivial

/-- A cached packet is the first of the queue, and no dequeue is in progress. -/
theorem Represents.peeked_eq_some {x : α} (h : q.Represents xs) (cached : q.peeked = some x) :
    q.deq = .idle ∧ ∃ rest, xs = x :: rest := by
  obtain ⟨c, chain, rfl⟩ := h
  have idle : q.deq = .idle := by
    have deq := chain.deq
    cases pc : q.deq <;> simp [DeqOk, pc, cached] at deq ⊢
  exact ⟨idle, c.filterMap Node.skb?, by simp [held, idle, cached]⟩

/-- `wg_prev_queue_drop_peeked` takes the first packet off. -/
theorem represents_dropPeeked {x : α} (h : q.Represents xs) (cached : q.peeked = some x) :
    ∃ rest, xs = x :: rest ∧ (q.wgPrevQueueDropPeeked).Represents rest := by
  obtain ⟨idle, rest, rfl⟩ := h.peeked_eq_some cached
  obtain ⟨c, chain, eq⟩ := h
  refine ⟨rest, rfl, c, ?_, ?_⟩
  · exact ⟨chain.tail, chain.head, chain.nodup, chain.linked, chain.last, chain.owed,
      chain.fresh, chain.cleared, by simp [DeqOk, wgPrevQueueDropPeeked, idle]⟩
  · simpa [held, idle, cached, wgPrevQueueDropPeeked] using eq

variable [DecidableEq α]

@[simp] theorem peekStep_enq : (q.peekStep).1.enq = q.enq := by
  unfold peekStep afterLoad
  repeat' split
  all_goals rfl

/-- A peek that returns a packet has cached it. -/
theorem peekStep_some {x : α} (ret : (q.peekStep).2 = some (some x)) :
    (q.peekStep).1.peeked = some x := by
  cases pc : q.deq <;> simp only [peekStep, pc] at ret ⊢
  all_goals repeat' split at ret
  all_goals simp_all

/-- A peek that goes on caches nothing. -/
theorem peekStep_running (run : (q.peekStep).2 = none) :
    (q.peekStep).1.peeked = q.peeked := by
  have load : ∀ t nx, (q.afterLoad t nx).peeked = q.peeked := by
    rintro t (_ | n) <;> rfl
  cases pc : q.deq <;> simp only [peekStep, pc] at run ⊢
  all_goals repeat' split at run
  all_goals simp_all

/-- The call has returned exactly when its frame is gone. -/
theorem peekStep_isSome : (q.peekStep).2.isSome ↔ (q.peekStep).1.deq = .idle := by
  cases pc : q.deq <;> simp only [peekStep, pc, afterLoad]
  all_goals repeat' split
  all_goals simp_all

/-- A peek that returns `NULL` has cached nothing.  Either the queue was empty, or a
producer owes a link, or the packet at the tail was the last one when its link was loaded
and is no longer so: then another packet has been exchanged in since, and its producer has
not come to its wake yet. -/
theorem peekStep_null (h : q.Represents xs) (ret : (q.peekStep).2 = some none) :
    (q.peekStep).1.peeked = none ∧
      (xs = [] ∨ q.HalfLinked ∨ ∃ t, q.deq = .head t ∧ t ≠ q.head) := by
  obtain ⟨c, chain, rfl⟩ := h
  cases pc : q.deq with
  | idle =>
      simp only [peekStep, pc] at ret ⊢
      cases cached : q.peeked with
      | some x => simp [cached] at ret
      | none =>
          cases tail : q.tail with
          | skb a => simp [cached, tail] at ret
          | stub =>
              cases stored : q.next .stub with
              | some n => simp [cached, tail, stored] at ret
              | none =>
                  refine ⟨by simp [cached], ?_⟩
                  obtain ⟨rest, rfl⟩ := chain.eq_cons
                  cases rest with
                  | nil => exact .inl (by simp [held, pc, cached, tail])
                  | cons m rest =>
                      refine .inr (.inl (chain.halfLinked_of_next_none (b := m) (by simp)
                        (tail ▸ stored) (by simp [pc])).1)
  | second t => simp [peekStep, pc] at ret
  | dec t =>
      have packet : t ≠ .stub := by
        have deq := chain.deq
        simp only [DeqOk, pc] at deq
        exact deq.1
      cases t with
      | stub => exact absurd rfl packet
      | skb a => simp [peekStep, pc] at ret
  | head t =>
      have empty : q.peeked = none := by
        have deq := chain.deq
        simp only [DeqOk, pc] at deq
        exact deq.2.2.1
      by_cases same : t = q.head
      · simp [peekStep, pc, same] at ret
      · exact ⟨by simp [peekStep, pc, same, empty], .inr (.inr ⟨t, rfl, same⟩)⟩
  | clear t => simp [peekStep, pc] at ret
  | xchg t => simp [peekStep, pc] at ret
  | link t prev => simp [peekStep, pc] at ret
  | reload t =>
      obtain ⟨tail, packet, empty, mem⟩ : q.tail = t ∧ t ≠ .stub ∧ q.peeked = none ∧
          .stub ∈ c := by simpa [DeqOk, pc] using chain.deq
      cases stored : q.next t with
      | some n => simp [peekStep, pc, stored] at ret
      | none =>
          refine ⟨by simp [peekStep, pc, stored, empty], ?_⟩
          obtain ⟨rest, rfl⟩ := chain.eq_cons
          cases rest with
          | nil => exact absurd (by simpa [tail] using mem) packet.symm
          | cons m rest =>
              exact .inr (.inl (chain.halfLinked_of_next_none (b := m) (by simp)
                (tail ▸ stored) (by simp [pc])).1)

/-- The consumer that goes to look at `head` has seen one packet only, or a
half-linked one behind it. -/
theorem peekStep_head {t : Node α} (h : q.Represents xs)
    (pc' : (q.peekStep).1.deq = .head t) : xs.length = 1 ∨ q.HalfLinked := by
  obtain ⟨c, chain, rfl⟩ := h
  have single : ∀ t, q.tail = t → t ≠ .stub → q.held = [] → q.next t = none →
      (∀ t prev, q.deq ≠ .link t prev) →
      (q.held ++ c.filterMap Node.skb?).length = 1 ∨ q.HalfLinked := by
    intro t tail packet heldNil unlinked notLinking
    obtain ⟨rest, rfl⟩ := chain.eq_cons
    cases rest with
    | nil =>
        left
        cases t with
        | stub => exact absurd rfl packet
        | skb a => simp [heldNil, tail]
    | cons m rest =>
        exact .inr (chain.halfLinked_of_next_none (b := m) (by simp)
          (tail ▸ unlinked) notLinking).1
  cases pc : q.deq with
  | idle =>
      cases cached : q.peeked with
      | some x => simp [peekStep, pc, cached] at pc'
      | none =>
          cases tail : q.tail with
          | stub => cases stored : q.next .stub <;> simp [peekStep, pc, cached, tail, stored] at pc'
          | skb a =>
              cases stored : q.next (.skb a) with
              | some n => simp [peekStep, pc, cached, tail, stored, afterLoad] at pc'
              | none =>
                  exact single _ tail (by simp) (by simp [held, pc, cached]) stored (by simp [pc])
  | second t =>
      obtain ⟨tail, packet, empty⟩ : q.tail = t ∧ t ≠ .stub ∧ q.peeked = none := by
        simpa [DeqOk, pc] using chain.deq
      cases stored : q.next t with
      | some n => simp [peekStep, pc, stored, afterLoad] at pc'
      | none => exact single t tail packet (by simp [held, pc, empty]) stored (by simp [pc])
  | head t => by_cases same : t = q.head <;> simp [peekStep, pc, same] at pc'
  | reload t => cases stored : q.next t <;> simp [peekStep, pc, stored] at pc'
  | dec t => simp [peekStep, pc] at pc'
  | clear t => simp [peekStep, pc] at pc'
  | xchg t => simp [peekStep, pc] at pc'
  | link t prev => simp [peekStep, pc] at pc'

/-- With one packet in the queue, the tail the consumer holds is still the head. -/
theorem Represents.head_eq {t : Node α} (h : q.Represents xs) (one : xs.length ≤ 1)
    (pc : q.deq = .head t) : t = q.head := by
  obtain ⟨c, chain, rfl⟩ := h
  obtain ⟨tail, packet, empty, noStub⟩ : q.tail = t ∧ t ≠ .stub ∧ q.peeked = none ∧
      ¬ c.Adjacent t .stub := by simpa [DeqOk, pc] using chain.deq
  obtain ⟨rest, rfl⟩ := chain.eq_cons
  cases rest with
  | nil => simpa [tail] using chain.head
  | cons m rest =>
      cases t with
      | stub => exact absurd rfl packet
      | skb a =>
          cases m with
          | stub => simp [tail] at noStub
          | skb b =>
              simp only [tail, List.filterMap_cons, Node.skb?_skb, List.length_append,
                List.length_cons] at one
              omega

end Consumer

end PrevQueue

end WgReceivePath
