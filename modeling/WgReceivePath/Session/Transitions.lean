import WgReceivePath.Session.Model

/-!
# What a step of a session can do

`Transition` lists the cases of `step`, with what each of them finds and what it leaves
(`step_transition`).  The invariants of a session are proved over it, and `step` is not
unfolded again: a change of the code is a change of this list.

Most operations on references write to the memory, the index table and the fault only.  The
frame lemmas say so once (`Frame`, `SlotFrame`); an invariant about packets or logs then
needs no case for what a put may do.  All faults are one case: somebody is about to access a
keypair that is gone (`State.Touches`).
-/

namespace WgReceivePath
namespace Session

variable {n m : ℕ} {s s' : State n m}

/-! ## What the references leave alone

References are put in the middle of most functions.  What such a put does not touch is said
once. -/

namespace State

@[simp]
theorem keypairPut_none (unreferenceNow : Bool) : s.keypairPut none unreferenceNow = s := rfl

theorem krefPut_cases (s : State n m) (k : Key) :
    s.krefPut k = { s with fault := true } ∨
      (∃ kp, s.memory k = some kp ∧ kp.refcount = 1 ∧
        s.krefPut k = ((s.store k { kp with refcount := 0 }).unhash k).callRcu k) ∨
      ∃ kp count, s.memory k = some kp ∧ kp.refcount = count + 2 ∧
        s.krefPut k = s.store k { kp with refcount := count + 1 } := by
  unfold krefPut load
  cases found : s.memory k with
  | none => exact .inl rfl
  | some kp =>
      obtain ⟨counter, valid, refcount⟩ := kp
      match refcount with
      | 0 => exact .inl rfl
      | 1 => exact .inr (.inl ⟨_, rfl, rfl, rfl⟩)
      | count + 2 => exact .inr (.inr ⟨_, count, rfl, rfl, rfl⟩)

/-- The two states differ in nothing but the memory, the index table, what `call_rcu` waits for,
the fault and the slots. -/
abbrev Frame (s s' : State n m) : Prop :=
  s'.keys = s.keys ∧ s'.worker = s.worker ∧ s'.senders = s.senders ∧
    s'.receivers = s.receivers ∧ s'.staged = s.staged ∧ s'.batches = s.batches ∧
    s'.used = s.used ∧ s'.wire = s.wire ∧ s'.dropped = s.dropped ∧ s'.arrived = s.arrived ∧
    s'.received = s.received ∧ s'.initiated = s.initiated

/-- The slots are the same as well. -/
abbrev SlotFrame (s s' : State n m) : Prop :=
  Frame s s' ∧ s'.current = s.current ∧ s'.previous = s.previous ∧ s'.next = s.next

theorem slotFrame_update (memory : Key → Option Keypair) (table : Key → Bool)
    (waiting : Key → Reader n m → Bool) (fault : Bool) :
    SlotFrame s { s with memory := memory, table := table, waiting := waiting, fault := fault } :=
  ⟨⟨rfl, rfl, rfl, rfl, rfl, rfl, rfl, rfl, rfl, rfl, rfl, rfl⟩, rfl, rfl, rfl⟩

theorem krefPut_frame (s : State n m) (k : Key) : SlotFrame s (s.krefPut k) := by
  obtain eq | ⟨_, _, _, eq⟩ | ⟨_, _, _, _, eq⟩ := s.krefPut_cases k <;> rw [eq] <;>
    exact slotFrame_update ..

@[simp]
theorem keypairPut_frame (s : State n m) (o : Option Key) (now : Bool) :
    SlotFrame s (s.keypairPut o now) := by
  cases o with
  | none => exact slotFrame_update ..
  | some k =>
      cases now with
      | false => exact s.krefPut_frame k
      | true => exact (s.unhash k).krefPut_frame k

@[simp]
theorem invalidate_frame (s : State n m) (k : Key) : SlotFrame s (s.invalidate k) := by
  unfold invalidate load
  cases s.memory k <;> exact slotFrame_update ..

@[simp]
theorem addNewKeypair_frame (s : State n m) (k : Key) (initiator : Bool) :
    Frame s (s.addNewKeypair k initiator) := by
  cases initiator <;> cases next : s.next <;> simp [Frame, addNewKeypair, next]

@[simp]
theorem addNewKeypair_current (s : State n m) (k : Key) (initiator : Bool) :
    (s.addNewKeypair k initiator).current = s.current := by
  cases initiator <;> cases next : s.next <;> simp [addNewKeypair, next]

@[simp]
theorem slide_frame (s : State n m) (k : Key) : Frame s (s.slide k) := by
  simp [Frame, slide]

@[simp]
theorem keypairsClear_frame (s : State n m) : Frame s s.keypairsClear := by
  simp [Frame, keypairsClear]

@[simp]
theorem expireCurrentPeerKeypairs_frame (s : State n m) :
    SlotFrame s s.expireCurrentPeerKeypairs := by
  cases next : s.next <;> cases current : s.current <;>
    simp [SlotFrame, Frame, expireCurrentPeerKeypairs, next, current]

end State

/-! ## The cases of a step

One constructor for each case, with the condition that the proofs use.  A step that follows
a pointer may fault instead, and that is one constructor for all of them. -/

/-- The keypair that a call of the send path has a reference on. -/
def SendPc.key : SendPc → Option Key
  | .keyed _ k | .checked _ k | .assigning _ _ k | .outInvalid _ k => some k
  | .outNokey _ k => k
  | .idle | .stolen _ | .deref _ _ | .fresh _ => none

/-- The keypair that a packet on the receive path has a reference on. -/
def ReceivePc.key : ReceivePc → Option Key
  | .holding k | .confirming k | .releasing k => some k
  | .idle | .found _ => none

/-- Somebody is about to access the keypair: with a pointer or a reference, or to put it
into the index table. -/
def State.Touches (s : State n m) (k : Key) : Prop :=
  (∃ i, (s.senders i).pointer = some k ∨ (s.senders i).key = some k) ∨
    (∃ j, (s.receivers j).pointer = some k) ∨ s.worker = .installed k

/-- The cases of `step`.  The conditions are those that the proofs use; a case may allow
more than the step it stands for. -/
inductive Transition (s : State n m) : Action n m → State n m → Prop
  | fault {a k} (touched : s.Touches k) (gone : s.memory k = none) :
      Transition s a { s with fault := true }
  | xmit (packets) : Transition s (.xmit packets) (xmitStep s packets)
  | keepalive (packet) : Transition s (.keepalive packet)
      { s with arrived := s.arrived ++ [packet], staged := s.staged ++ [packet] }
  | purge : Transition s .purge { s with dropped := s.dropped ++ s.staged, staged := [] }
  | stealNone {i} : Transition s (.send i .steal) s
  | steal {i} (pc : s.senders i = .idle) :
      Transition s (.send i .steal) ({ s with staged := [] }.sender i (.stolen s.staged))
  | derefNone {i packets} (pc : s.senders i = .stolen packets) :
      Transition s (.send i .deref) (s.sender i (.outNokey packets none))
  | deref {i packets k} (pc : s.senders i = .stolen packets) (current : s.current = some k) :
      Transition s (.send i .deref) (s.sender i (.deref packets k))
  | getFailed {i packets k} (pc : s.senders i = .deref packets k) :
      Transition s (.send i .get)
        ((s.sender i (.outNokey packets none)).leave (some (.inl i)))
  | get {i packets k kp} (pc : s.senders i = .deref packets k) (found : s.memory k = some kp)
      (positive : kp.refcount ≠ 0) :
      Transition s (.send i .get)
        (((s.store k { kp with refcount := kp.refcount + 1 }).sender i
          (.keyed packets k)).leave (some (.inl i)))
  | valid {i packets k kp} (pc : s.senders i = .keyed packets k) (found : s.memory k = some kp)
      (valid : kp.isValid = true) :
      Transition s (.send i .checkValid) (s.sender i (.checked packets k))
  | notValid {i packets k} (pc : s.senders i = .keyed packets k) :
      Transition s (.send i .checkValid) (s.sender i (.outNokey packets (some k)))
  | expired {i packets k} (pc : s.senders i = .checked packets k) :
      Transition s (.send i (.checkBirthdate true)) (s.sender i (.outInvalid packets k))
  | notExpired {i packets k} (pc : s.senders i = .checked packets k) :
      Transition s (.send i (.checkBirthdate false)) (s.sender i (.assigning [] packets k))
  | reject {i done packet rest k kp} (pc : s.senders i = .assigning done (packet :: rest) k)
      (found : s.memory k = some kp) (reject : REJECT_AFTER_MESSAGES ≤ kp.sendingCounter) :
      Transition s (.send i .assign)
        ((s.store k { kp with sendingCounter := kp.sendingCounter + 1 }).sender i
          (.outInvalid (done.map Prod.fst ++ packet :: rest) k))
  | assign {i done packet rest k kp} (pc : s.senders i = .assigning done (packet :: rest) k)
      (found : s.memory k = some kp) (accept : kp.sendingCounter < REJECT_AFTER_MESSAGES) :
      Transition s (.send i .assign)
        ((s.store k { kp with sendingCounter := kp.sendingCounter + 1 }).sender i
          (.assigning (done ++ [(packet, kp.sendingCounter)]) rest k))
  | submit {i done k} (pc : s.senders i = .assigning done [] k) :
      Transition s (.send i (.submit true))
        ({ s with
          batches := s.batches ++ [(done, k)]
          used := s.used ++ done.map fun e : Packet × BitVec 64 => (k, e.2) }.sender i .idle)
  | refuse {i done k} (pc : s.senders i = .assigning done [] k) :
      Transition s (.send i (.submit false))
        (({ s with dropped := s.dropped ++ done.map Prod.fst }.keypairPut (some k)
          false).sender i .idle)
  | markInvalid {i packets k} (pc : s.senders i = .outInvalid packets k) :
      Transition s (.send i .markInvalid) ((s.invalidate k).sender i (.outNokey packets (some k)))
  | putKey {i packets k} (pc : s.senders i = .outNokey packets (some k)) :
      Transition s (.send i .putKey)
        ((s.keypairPut (some k) false).sender i (.outNokey packets none))
  | restage {i packets} (pc : s.senders i = .outNokey packets none) :
      Transition s (.send i .restage)
        ({ s with staged := packets ++ s.staged }.sender i .idle)
  | keepFresh {i k} (pc : s.senders i = .idle) (current : s.current = some k) :
      Transition s (.send i .keepFresh) (s.sender i (.fresh k))
  | readFresh {i k} (pc : s.senders i = .fresh k) :
      Transition s (.send i .readFresh) ((s.sender i .idle).leave (some (.inl i)))
  | transmit {batch k rest} (first : s.batches = (batch, k) :: rest) :
      Transition s (.transmit true)
        ({ s with
          batches := rest
          wire := s.wire ++ batch.map fun e : Packet × BitVec 64 => (k, e.2, e.1) }.keypairPut
            (some k) false)
  | dead {batch k rest} (first : s.batches = (batch, k) :: rest) :
      Transition s (.transmit false)
        ({ s with
          batches := rest
          dropped := s.dropped ++ batch.map Prod.fst }.keypairPut (some k) false)
  | lookup {j k} (pc : s.receivers j = .idle) (hashed : s.table k = true) :
      Transition s (.receive j (.lookup k)) (s.receiver j (.found k))
  | getFoundFailed {j k} (pc : s.receivers j = .found k) :
      Transition s (.receive j .get) ((s.receiver j .idle).leave (some (.inr j)))
  | getFound {j k kp} (pc : s.receivers j = .found k) (found : s.memory k = some kp)
      (positive : kp.refcount ≠ 0) :
      Transition s (.receive j .get)
        (((s.store k { kp with refcount := kp.refcount + 1 }).receiver j
          (.holding k)).leave (some (.inr j)))
  | authentic {j k pc'} (pc : s.receivers j = .holding k)
      (on : pc' = .confirming k ∨ pc' = .releasing k) :
      Transition s (.receive j (.authenticate true))
        ({ s with received := k :: s.received }.receiver j pc')
  | notAuthentic {j k} (pc : s.receivers j = .holding k) :
      Transition s (.receive j (.authenticate false)) (s.receiver j (.releasing k))
  | confirm {j k} (pc : s.receivers j = .confirming k) (unlocked : ∀ k, s.worker ≠ .installing k)
      (next : s.next = some k) :
      Transition s (.receive j .confirm) ((s.slide k).receiver j (.releasing k))
  | overtaken {j k} (pc : s.receivers j = .confirming k) :
      Transition s (.receive j .confirm) (s.receiver j (.releasing k))
  | release {j k} (pc : s.receivers j = .releasing k) :
      Transition s (.receive j .release) ((s.keypairPut (some k) false).receiver j .idle)
  | beginSession {initiator} (idle : s.worker = .idle) :
      Transition s (.beginSession initiator)
        ((keypairCreate s initiator).addNewKeypair s.keys initiator)
  | publish {k} (pc : s.worker = .installing k) :
      Transition s .publish { s with current := some k, worker := .installed k }
  | replace {k hashed} (pc : s.worker = .installed k) :
      Transition s (.replace hashed)
        ({ s with
          table := if hashed then Function.update s.table k true else s.table
          worker := .idle }.leave none)
  | expire (unlocked : ∀ k, s.worker ≠ .installing k) :
      Transition s .expire s.expireCurrentPeerKeypairs
  | clear (unlocked : ∀ k, s.worker ≠ .installing k) : Transition s .clear s.keypairsClear
  | reclaim {k kp} (found : s.memory k = some kp) (zero : kp.refcount = 0)
      (grace : ∀ r, s.waiting k r = false) :
      Transition s (.reclaim k) { s with memory := Function.update s.memory k none }

/-- An access finds the keypair, or is a fault.  It is used for every step that follows a
pointer. -/
theorem transition_load {a : Action n m} {k : Key} {f : Keypair → State n m} (touched : s.Touches k)
    (found : ∀ kp, s.memory k = some kp → Transition s a (f kp)) :
    Transition s a (s.load k f) := by
  unfold State.load
  cases at' : s.memory k with
  | none => exact .fault touched at'
  | some kp => exact found kp at'

/-- The steps of the send path, by the action and the program point it needs. -/
theorem sendStep_transition {i : Fin n} {a : SendAction} (taken : sendStep s i a = some s') :
    Transition s (.send i a) s' := by
  have touches {k : Key} (h : (s.senders i).pointer = some k ∨ (s.senders i).key = some k) :
      s.Touches k := .inl ⟨i, h⟩
  cases a with
  | steal =>
      simp only [sendStep] at taken
      split at taken
      · split at taken <;> cases taken
        · exact .stealNone
        · exact .steal ‹_›
      · cases taken
  | deref =>
      simp only [sendStep] at taken
      split at taken
      · split at taken <;> cases taken
        · exact .derefNone ‹_›
        · exact .deref ‹_› ‹_›
      · cases taken
  | get =>
      simp only [sendStep] at taken
      split at taken <;> cases taken
      rename_i pc
      refine transition_load (touches (by simp [pc, SendPc.pointer])) fun kp found => ?_
      split
      · exact .getFailed pc
      · exact .get pc found ‹_›
  | checkValid =>
      simp only [sendStep] at taken
      split at taken <;> cases taken
      rename_i pc
      refine transition_load (touches (by simp [pc, SendPc.key])) fun kp found => ?_
      split
      · exact .valid pc found ‹_›
      · exact .notValid pc
  | checkBirthdate expired =>
      simp only [sendStep] at taken
      split at taken
      · cases expired <;> cases taken
        · exact .notExpired ‹_›
        · exact .expired ‹_›
      · cases taken
  | assign =>
      simp only [sendStep] at taken
      split at taken <;> cases taken
      rename_i pc
      refine transition_load (touches (by simp [pc, SendPc.key])) fun kp found => ?_
      split
      · exact .reject pc found ‹_›
      · exact .assign pc found (BitVec.not_le.mp ‹_›)
  | submit queued =>
      simp only [sendStep] at taken
      split at taken
      · cases queued <;> cases taken
        · exact .refuse ‹_›
        · exact .submit ‹_›
      · cases taken
  | markInvalid =>
      simp only [sendStep] at taken
      split at taken <;> cases taken
      exact .markInvalid ‹_›
  | putKey =>
      simp only [sendStep] at taken
      split at taken <;> cases taken
      exact .putKey ‹_›
  | restage =>
      simp only [sendStep] at taken
      split at taken <;> cases taken
      exact .restage ‹_›
  | keepFresh =>
      simp only [sendStep] at taken
      split at taken <;> cases taken
      exact .keepFresh ‹_› ‹_›
  | readFresh =>
      simp only [sendStep] at taken
      split at taken <;> cases taken
      rename_i pc
      exact transition_load (touches (by simp [pc, SendPc.pointer])) fun kp found =>
        .readFresh pc

/-- The steps of the receive path, by the action and the program point it needs. -/
theorem receiveStep_transition {j : Fin m} {a : ReceiveAction}
    (taken : receiveStep s j a = some s') : Transition s (.receive j a) s' := by
  cases a with
  | lookup k =>
      simp only [receiveStep] at taken
      split at taken
      · split at taken <;> cases taken
        exact .lookup ‹_› ‹_›
      · cases taken
  | get =>
      simp only [receiveStep] at taken
      split at taken <;> cases taken
      rename_i pc
      refine transition_load (.inr (.inl ⟨j, by simp [pc, ReceivePc.pointer]⟩)) fun kp found => ?_
      split
      · exact .getFoundFailed pc
      · exact .getFound pc found ‹_›
  | authenticate authentic =>
      simp only [receiveStep] at taken
      split at taken
      · cases authentic <;> cases taken
        · exact .notAuthentic ‹_›
        · exact .authentic ‹_› (by split <;> simp)
      · cases taken
  | confirm =>
      simp only [receiveStep] at taken
      split at taken
      · cases taken
      · rename_i pc unlocked
        split at taken <;> cases taken
        · exact .confirm pc unlocked ‹_›
        · exact .overtaken pc
      · cases taken
  | release =>
      simp only [receiveStep] at taken
      split at taken <;> cases taken
      exact .release ‹_›

/-- Every step is one of the cases.  It is the only place where `step` is unfolded. -/
theorem step_transition {a : Action n m} (taken : step s a = some s') : Transition s a s' := by
  cases a with
  | xmit packets =>
      cases taken
      exact .xmit packets
  | keepalive packet =>
      cases taken
      exact .keepalive packet
  | purge =>
      cases taken
      exact .purge
  | send i a => exact sendStep_transition taken
  | transmit crypted =>
      simp only [step, transmitStep] at taken
      split at taken
      · cases taken
      · cases crypted <;> cases taken
        · exact .dead ‹_›
        · exact .transmit ‹_›
  | receive j a => exact receiveStep_transition taken
  | beginSession initiator =>
      simp only [step] at taken
      split at taken <;> cases taken
      exact .beginSession ‹_›
  | publish =>
      simp only [step] at taken
      split at taken <;> cases taken
      exact .publish ‹_›
  | replace hashed =>
      simp only [step] at taken
      split at taken <;> cases taken
      exact transition_load (.inr (.inr ‹_›)) fun kp found => .replace ‹_›
  | expire =>
      simp only [step] at taken
      split at taken <;> cases taken
      exact .expire ‹_›
  | clear =>
      simp only [step] at taken
      split at taken <;> cases taken
      exact .clear ‹_›
  | reclaim k =>
      simp only [step] at taken
      split at taken
      · cases taken
      · split at taken <;> cases taken
        rename_i found free
        exact .reclaim found free.1 free.2

end Session
end WgReceivePath
