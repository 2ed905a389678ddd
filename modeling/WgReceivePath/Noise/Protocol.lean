import WgReceivePath.Lib.Machine
import WgReceivePath.Noise.Terms
import WgReceivePath.Noise.Transcript

/-!
# Handshakes over a network

Any number of devices, each with its peers, run handshakes at the same time.  The functions
of `noise.c` take `handshake->lock` more than once, and a step of the machine is what one
call does under one lock: an initiation that has been read is checked under the read lock
and committed under the write lock, and a response is accepted from a copy of the handshake
and committed later, with the handshake changing in between.

## Main definitions

* `State`, the handshakes and index tables of all devices, the calls between two locks, the
  network, and logs of what was created and committed.
* `step`, the machine; `Transition` lists its cases.

What arrives is arbitrary, a message of a peer or not; what is sent goes to the log `sent`.
A response is in the log as soon as it is created, although the source only sends it once
the session has begun.

## Main result

`replay_refused`: an initiation with the timestamp of one that was committed for its peer
does not pass the check again.  Two calls may both have passed the check and then commit in
either order, so the invariant is not about the calls but about the handshake: no committed
timestamp is newer than its latest one (`Remembered`), which the second comparison in the
commit preserves.
-/

namespace WgReceivePath
namespace Noise

/-- What an entry of the index table belongs to. -/
inductive Entry (P : Type)
  | handshake (peer : P)
  | keypair (peer : P)
  deriving DecidableEq

/-- The devices and their peers, as configured. -/
structure Config (D P α : Type) where
  identity : D → Identity α
  lookup : D → α → Option P
  initial : D → P → Handshake α

/-- An initiation that was created. -/
structure InitiationLog (D P α : Type) where
  device : D
  peer : P
  ephemeral : α
  timestamp : α

/-- A response that was created, from the handshake `before`. -/
structure ResponseLog (D P α : Type) where
  device : D
  peer : P
  before : Handshake α
  ephemeral : α
  chainingKey : α

/-- The state of all devices, the calls that are between two locks, and the network.
`verified` are the initiations that were read, `allowed` those that have passed the check,
`accepted` the responses that were accepted; each waits for its next lock. -/
structure State (D P α : Type) where
  handshake : D → P → Handshake α
  table : D → ℕ → Option (Entry P)
  verified : List (D × P × Verified α)
  allowed : List (D × P × Verified α)
  accepted : List (D × P × Accepted α)
  sessions : List (D × P × Session α)
  sent : List α
  initiations : List (InitiationLog D P α)
  responses : List (ResponseLog D P α)
  committed : List (D × P × α)

/-- The steps. -/
inductive Action (D P α : Type)
  | createInitiation (d : D) (p : P) (ephemeral timestamp : α) (index : ℕ)
  | receiveInitiation (d : D) (src : Initiation α)
  | check (n : ℕ) (now : ℕ)
  | commitInitiation (n : ℕ) (now : ℕ)
  | createResponse (d : D) (p : P) (ephemeral : α) (index : ℕ)
  | receiveResponse (d : D) (src : Response α)
  | commitResponse (n : ℕ)
  | beginSession (d : D) (p : P)
  | clear (d : D) (p : P)
  | release (d : D) (index : ℕ)

variable {D P α : Type} [DecidableEq D] [DecidableEq P]

namespace State

/-- No call is under way and nothing has been sent. -/
def init (cfg : Config D P α) : State D P α where
  handshake := cfg.initial
  table := fun _ _ => none
  verified := []
  allowed := []
  accepted := []
  sessions := []
  sent := []
  initiations := []
  responses := []
  committed := []

/-- A store to a handshake. -/
def setHandshake (s : State D P α) (d : D) (p : P) (hs : Handshake α) : State D P α :=
  { s with
    handshake := fun d' p' => if d' = d ∧ p' = p then hs else s.handshake d' p' }

/-- `wg_index_hashtable_remove`, for the entry of a handshake. -/
def removeEntry (s : State D P α) (d : D) (p : P) : State D P α :=
  { s with
    table := fun d' i =>
      if d' = d ∧ s.table d' i = some (.handshake p) then none else s.table d' i }

/-- `wg_index_hashtable_insert`, with the index it has found unused.  The entry that the handshake
had before is removed first, so its old index may be drawn again. -/
def insertEntry (s : State D P α) (d : D) (p : P) (index : ℕ) : State D P α :=
  let s := s.removeEntry d p
  { s with
    table := fun d' i => if d' = d ∧ i = index then some (.handshake p) else s.table d' i }

/-- `wg_index_hashtable_replace`. -/
def replaceEntry (s : State D P α) (d : D) (p : P) : State D P α :=
  { s with
    table := fun d' i =>
      if d' = d ∧ s.table d' i = some (.handshake p) then some (.keypair p) else s.table d' i }

end State

/-- A step of the handshakes.  A call that fails on a message it has received changes
nothing, and a call that fails while it creates one leaves the handshake as far as it got.
-/
def step [DecidableEq α] (c : Crypto α) (cfg : Config D P α) (s : State D P α) :
    Action D P α → Option (State D P α)
  | .createInitiation d p ephemeral timestamp index =>
      match createInitiation c (cfg.identity d) (s.handshake d p) ephemeral timestamp index with
      | (hs, none) => some (s.setHandshake d p hs)
      | (hs, some m) =>
          if (s.removeEntry d p).table d index = none then
            let s := (s.setHandshake d p hs).insertEntry d p index
            some { s with
              sent :=
                m.unencryptedEphemeral :: m.encryptedStatic :: m.encryptedTimestamp :: s.sent
              initiations := ⟨d, p, ephemeral, timestamp⟩ :: s.initiations }
          else none
  | .receiveInitiation d src =>
      match consumeInitiation c (cfg.identity d) (cfg.lookup d) (s.handshake d) src with
      | none => none
      | some (p, v) => some { s with verified := (d, p, v) :: s.verified }
  | .check n now =>
      match s.verified[n]? with
      | none => none
      | some (d, p, v) =>
          let s' := { s with verified := s.verified.eraseIdx n }
          if initiationAllowed c (s.handshake d p) v now then
            some { s' with allowed := (d, p, v) :: s.allowed }
          else some s'
  | .commitInitiation n now =>
      match s.allowed[n]? with
      | none => none
      | some (d, p, v) =>
          let s' := s.setHandshake d p (commitInitiation c (s.handshake d p) v now)
          some { s' with
            allowed := s.allowed.eraseIdx n
            committed := (d, p, v.timestamp) :: s.committed }
  | .createResponse d p ephemeral index =>
      match createResponse c (s.handshake d p) ephemeral index with
      | (hs, none) => some (s.setHandshake d p hs)
      | (hs, some m) =>
          if (s.removeEntry d p).table d index = none then
            let before := s.handshake d p
            let s := (s.setHandshake d p hs).insertEntry d p index
            some { s with
              sent := m.unencryptedEphemeral :: m.encryptedNothing :: s.sent
              responses := ⟨d, p, before, ephemeral, hs.chainingKey⟩ :: s.responses }
          else none
  | .receiveResponse d src =>
      match s.table d src.receiverIndex with
      | some (.handshake p) =>
          match consumeResponse c (cfg.identity d) (s.handshake d p) src with
          | none => none
          | some a => some { s with accepted := (d, p, a) :: s.accepted }
      | _ => none
  | .commitResponse n =>
      match s.accepted[n]? with
      | none => none
      | some (d, p, a) =>
          let s' := { s with accepted := s.accepted.eraseIdx n }
          match commitResponse (s.handshake d p) a with
          | none => some s'
          | some hs => some (s'.setHandshake d p hs)
  | .beginSession d p =>
      match beginSession c (s.handshake d p) with
      | none => none
      | some (session, hs) =>
          let s' := (s.setHandshake d p hs).replaceEntry d p
          some { s' with sessions := (d, p, session) :: s.sessions }
  | .clear d p =>
      some ((s.setHandshake d p (handshakeZero c (s.handshake d p))).removeEntry d p)
  | .release d index =>
      match s.table d index with
      | some (.keypair _) =>
          some { s with table := fun d' i => if d' = d ∧ i = index then none else s.table d' i }
      | _ => none

section

variable {c : Crypto α} {cfg : Config D P α} {s s' : State D P α} {a : Action D P α}

/-! ## The cases of a step -/

/-- What a step can do.  Some steps only consume what they find, or change the index table.
-/
inductive Transition (c : Crypto α) (cfg : Config D P α) [DecidableEq α] (s : State D P α) :
    Action D P α → State D P α → Prop
  | failInitiation {d p ephemeral timestamp index hs}
      (failed : createInitiation c (cfg.identity d) (s.handshake d p) ephemeral timestamp index =
        (hs, none)) :
      Transition c cfg s (.createInitiation d p ephemeral timestamp index)
        (s.setHandshake d p hs)
  | createInitiation {d p ephemeral timestamp index hs m}
      (created : createInitiation c (cfg.identity d) (s.handshake d p) ephemeral timestamp index =
        (hs, some m)) :
      Transition c cfg s (.createInitiation d p ephemeral timestamp index)
        { (s.setHandshake d p hs).insertEntry d p index with
          sent := m.unencryptedEphemeral :: m.encryptedStatic :: m.encryptedTimestamp :: s.sent
          initiations := ⟨d, p, ephemeral, timestamp⟩ :: s.initiations }
  | receiveInitiation {d src p v}
      (consumed : consumeInitiation c (cfg.identity d) (cfg.lookup d) (s.handshake d) src =
        some (p, v)) :
      Transition c cfg s (.receiveInitiation d src) { s with verified := (d, p, v) :: s.verified }
  | refuse {n now} :
      Transition c cfg s (.check n now) { s with verified := s.verified.eraseIdx n }
  | allow {n now d p v} (found : (d, p, v) ∈ s.verified) :
      Transition c cfg s (.check n now)
        { s with verified := s.verified.eraseIdx n, allowed := (d, p, v) :: s.allowed }
  | commitInitiation {n now d p v} (found : (d, p, v) ∈ s.allowed) :
      Transition c cfg s (.commitInitiation n now)
        { s.setHandshake d p (commitInitiation c (s.handshake d p) v now) with
          allowed := s.allowed.eraseIdx n
          committed := (d, p, v.timestamp) :: s.committed }
  | failResponse {d p ephemeral index hs}
      (failed : createResponse c (s.handshake d p) ephemeral index = (hs, none)) :
      Transition c cfg s (.createResponse d p ephemeral index) (s.setHandshake d p hs)
  | createResponse {d p ephemeral index hs m}
      (created : createResponse c (s.handshake d p) ephemeral index = (hs, some m)) :
      Transition c cfg s (.createResponse d p ephemeral index)
        { (s.setHandshake d p hs).insertEntry d p index with
          sent := m.unencryptedEphemeral :: m.encryptedNothing :: s.sent
          responses := ⟨d, p, s.handshake d p, ephemeral, hs.chainingKey⟩ :: s.responses }
  | receiveResponse {d src p a}
      (consumed : consumeResponse c (cfg.identity d) (s.handshake d p) src = some a) :
      Transition c cfg s (.receiveResponse d src) { s with accepted := (d, p, a) :: s.accepted }
  | discardResponse {n} :
      Transition c cfg s (.commitResponse n) { s with accepted := s.accepted.eraseIdx n }
  | commitResponse {n d p a hs} (found : (d, p, a) ∈ s.accepted)
      (committed : commitResponse (s.handshake d p) a = some hs) :
      Transition c cfg s (.commitResponse n)
        { s.setHandshake d p hs with accepted := s.accepted.eraseIdx n }
  | beginSession {d p session hs}
      (begun : beginSession c (s.handshake d p) = some (session, hs)) :
      Transition c cfg s (.beginSession d p)
        { (s.setHandshake d p hs).replaceEntry d p with
          sessions := (d, p, session) :: s.sessions }
  | clear {d p} :
      Transition c cfg s (.clear d p)
        ((s.setHandshake d p (handshakeZero c (s.handshake d p))).removeEntry d p)
  | release {d index table} :
      Transition c cfg s (.release d index) { s with table := table }

/-- Every step is one of the cases, by going through the actions and what the functions of
the handshake return. -/
theorem transition_of_step [DecidableEq α] (taken : step c cfg s a = some s') :
    Transition c cfg s a s' := by
  cases a with
  | createInitiation d p ephemeral timestamp index =>
      simp only [step] at taken
      split at taken
      · cases taken
        exact .failInitiation ‹_›
      · split at taken <;> cases taken
        exact .createInitiation ‹_›
  | receiveInitiation d src =>
      simp only [step] at taken
      split at taken <;> cases taken
      exact .receiveInitiation ‹_›
  | check n now =>
      simp only [step] at taken
      split at taken
      · cases taken
      · split at taken <;> cases taken
        · exact .allow (List.mem_of_getElem? ‹_›)
        · exact .refuse
  | commitInitiation n now =>
      simp only [step] at taken
      split at taken <;> cases taken
      exact .commitInitiation (List.mem_of_getElem? ‹_›)
  | createResponse d p ephemeral index =>
      simp only [step] at taken
      split at taken
      · cases taken
        exact .failResponse ‹_›
      · split at taken <;> cases taken
        exact .createResponse ‹_›
  | receiveResponse d src =>
      simp only [step] at taken
      split at taken
      · split at taken <;> cases taken
        exact .receiveResponse ‹_›
      · cases taken
  | commitResponse n =>
      simp only [step] at taken
      split at taken
      · cases taken
      · split at taken <;> cases taken
        · exact .discardResponse
        · exact .commitResponse (List.mem_of_getElem? ‹_›) ‹_›
  | beginSession d p =>
      simp only [step] at taken
      split at taken <;> cases taken
      exact .beginSession ‹_›
  | clear d p =>
      cases taken
      exact .clear
  | release d index =>
      simp only [step] at taken
      split at taken <;> cases taken
      exact .release

/-! ## Replays

The check and the commit are under different locks.  Two copies of an initiation may pass
the check before either is committed; after one of them is, no further copy passes. -/

/-- No committed timestamp is newer than the latest one of its peer.  It is the invariant
behind the refusal of replays. -/
def Remembered (c : Crypto α) (handshake : D → P → Handshake α) (committed : List (D × P × α)) :
    Prop :=
  ∀ d p t, (d, p, t) ∈ committed → c.newer t (handshake d p).latestTimestamp = false

theorem Remembered.kept {d : D} {p : P} {hs : Handshake α}
    (inv : Remembered c s.handshake s.committed) (kept : (s.handshake d p).Kept hs) :
    Remembered c (s.setHandshake d p hs).handshake s.committed := by
  intro d' p' t mem
  simp only [State.setHandshake]
  split
  · rename_i same
    obtain ⟨rfl, rfl⟩ := same
    rw [kept.latestTimestamp]
    exact inv d' p' t mem
  · exact inv d' p' t mem

/-- What is committed is remembered, and so is what was committed before.  The commit takes
the newer of the two timestamps, and being newer is transitive. -/
theorem Remembered.commit (ordered : c.Ordered) {d : D} {p : P} {v : Verified α} (now : ℕ)
    (inv : Remembered c s.handshake s.committed) :
    Remembered c (s.setHandshake d p (commitInitiation c (s.handshake d p) v now)).handshake
      ((d, p, v.timestamp) :: s.committed) := by
  intro d' p' t mem
  simp only [State.setHandshake]
  split
  · rename_i same
    obtain ⟨rfl, rfl⟩ := same
    obtain eq | old := List.mem_cons.mp mem
    · cases eq
      simp only [commitInitiation]
      split
      · exact ordered.irrefl _
      · exact Bool.eq_false_iff.mpr ‹_›
    · have before := inv d' p' t old
      simp only [commitInitiation]
      split
      · refine Bool.eq_false_iff.mpr fun newer => ?_
        rw [ordered.trans newer ‹_›] at before
        cases before
      · exact before
  · rename_i other
    obtain eq | old := List.mem_cons.mp mem
    · cases eq
      exact absurd ⟨rfl, rfl⟩ other
    · exact inv d' p' t old

/-- Only the commit of an initiation touches a timestamp; everything else keeps them. -/
theorem remembered_step [DecidableEq α] (ordered : c.Ordered)
    (inv : Remembered c s.handshake s.committed) (taken : step c cfg s a = some s') :
    Remembered c s'.handshake s'.committed := by
  cases transition_of_step taken with
  | @failInitiation d p ephemeral timestamp index hs failed =>
      have kept := createInitiation_kept c (cfg.identity d) (s.handshake d p) ephemeral timestamp
        index
      rw [failed] at kept
      exact inv.kept kept
  | @createInitiation d p ephemeral timestamp index hs m created =>
      have kept := createInitiation_kept c (cfg.identity d) (s.handshake d p) ephemeral timestamp
        index
      rw [created] at kept
      exact inv.kept kept
  | @failResponse d p ephemeral index hs failed =>
      have kept := createResponse_kept c (s.handshake d p) ephemeral index
      rw [failed] at kept
      exact inv.kept kept
  | @createResponse d p ephemeral index hs m created =>
      have kept := createResponse_kept c (s.handshake d p) ephemeral index
      rw [created] at kept
      exact inv.kept kept
  | commitInitiation => exact inv.commit ordered _
  | commitResponse _ committed => exact inv.kept (commitResponse_kept committed)
  | beginSession begun => exact inv.kept (beginSession_kept c begun)
  | clear => exact inv.kept (handshakeZero_kept c _)
  | receiveInitiation | refuse | allow | receiveResponse | discardResponse | release => exact inv

/-- **Replays are refused.**  Whatever arrives, and however the calls interleave, an initiation
with the timestamp of one that was committed for its peer does not pass the check again. -/
theorem replay_refused [DecidableEq α] (ordered : c.Ordered)
    (reach : Machine.Reach (step c cfg) (fun _ _ => True) (State.init cfg) s) {d : D} {p : P}
    {v : Verified α} (committed : (d, p, v.timestamp) ∈ s.committed) (now : ℕ) :
    initiationAllowed c (s.handshake d p) v now = false := by
  have inv : Remembered c s.handshake s.committed :=
    reach.invariant (I := fun s => Remembered c s.handshake s.committed)
      (fun _ _ _ mem => by cases mem) fun _ _ _ _ inv _ taken => remembered_step ordered inv taken
  simp [initiationAllowed, inv d p v.timestamp committed]

end

open Symbolic

/-- Two devices, each with the other as its only peer. -/
def twoDevices : Config Bool Unit Term where
  identity d := ⟨.pub d.toNat, .name d.toNat, true⟩
  lookup d t := if t = .pub (!d).toNat then some () else none
  initial d _ := newHandshake d.toNat (.pub (!d).toNat)

/-- What the first of two devices sends to the second. -/
def firstInitiation : Initiation Term where
  senderIndex := 10
  unencryptedEphemeral := .pub 2
  encryptedStatic := sealedStatic symbolic (.pub 1) (.pub 2) (.dh (.name 2) (.pub 1)) (.pub 0)
  encryptedTimestamp := sealedTimestamp symbolic (.pub 1) (.pub 2) (.dh (.name 2) (.pub 1))
    (.dh (.name 0) (.pub 1)) (.pub 0) (.const 9)

/-- An initiation that has been received twice by the time it is committed: the second copy is
refused. -/
theorem replay_refused_twice : ∃ s : State Bool Unit Term,
    Machine.Reach (step symbolic twoDevices) (fun _ _ => True) (State.init twoDevices) s ∧
      ∃ v, (true, (), v) ∈ s.verified ∧
        ∀ now, initiationAllowed symbolic (s.handshake true ()) v now = false := by
  obtain ⟨s, reach, ⟨d, p, v⟩, mem, rfl, committed⟩ :
      ∃ s, Machine.Reach (step symbolic twoDevices) (fun _ _ => True) (State.init twoDevices) s ∧
        ∃ x ∈ s.verified, x.1 = true ∧ (true, (), x.2.2.timestamp) ∈ s.committed :=
    Machine.exists_reach_of_exec
      [.createInitiation false () (.name 2) (.const 9) 10, .receiveInitiation true firstInitiation,
        .receiveInitiation true firstInitiation, .check 0 1000000000,
        .commitInitiation 0 1000000000] (by decide)
  exact ⟨s, reach, v, mem, replay_refused symbolic_ordered reach committed⟩

end Noise
end WgReceivePath
