import WgReceivePath.Transitions
import WgReceivePath.Lib.Machine

/-!
# The life of a packet

A received packet is looked up, checked, queued for its peer and put on the decrypt ring;
one context takes it off the ring, decides its verdict, stores it as the packet's state and
then runs the wake policy.

## Main definitions

* `PacketOk` : how the producer's frame, the completion frame, the packet's state and its
  history agree at every point of this life.
* `PacketLife` : the same for all packets, together with the decrypt ring, which holds
  exactly the packets whose completion frame says so.
* `Owners` : a completion frame in progress belongs to the one context that is busy with it,
  and that context is busy with no other packet.
* `Reachable` : the states of the runs whose steps meet a condition; `Life` and `Owned` hold
  in all of them, whatever the condition is (`Reachable.life`, `Reachable.owned`).

## What carries the proofs

Both invariants are predicates on the components of the state they speak about, and not on
the state, so that a step that leaves these components alone keeps them by definition; for
every kind of update there is one lemma (`PacketLife.change` and its instances,
`Owners.setRx`, `Owners.take`).  A completion has some twenty transitions, but only up to
the store of the verdict do they matter here: `RxMove` collapses the rest to one case, in
which the frame stays behind the store.
-/

namespace WgReceivePath

open Function (update update_self update_of_ne)

/-! ## Where a packet stands

One packet at a time.  The producer's frame and the completion frame are two program
counters for the same packet, and only few pairs of them occur; the predicates on program
points name the stretches that matter. -/

/-- The producer has passed `wg_noise_keypair_get`, so the packet has a keypair. -/
def ProdPc.found : ProdPc → Bool
  | .fresh | .lookup | .keypairGet | .errPeerPut | .freed => false
  | _ => true

/-- The producer has put the packet on the ring, or found the ring full.  From here on the
packet has a completion frame. -/
def ProdPc.produced : ProdPc → Bool
  | .queueWork _ | .completing | .done => true
  | _ => false

/-- A context has taken the packet over: the frame is past the ring. -/
def RxPc.taken : RxPc → Bool
  | .unqueued | .ring => false
  | _ => true

/-- The verdict is known. -/
def RxPc.decided : RxPc → Bool
  | .unqueued | .ring | .decrypt => false
  | _ => true

/-- The verdict is stored in the packet.  The state of the packet is that of its frame from
here on, and `UNCRYPTED` before. -/
def RxPc.stored : RxPc → Bool
  | .unqueued | .ring | .decrypt | .get | .store => false
  | _ => true

theorem RxPc.taken_of_stored {pc : RxPc} (h : pc.stored = true) : pc.taken = true := by
  cases pc <;> simp_all [stored, taken]

theorem RxPc.decided_of_stored {pc : RxPc} (h : pc.stored = true) : pc.decided = true := by
  cases pc <;> simp_all [stored, decided]

/-- How the data of one packet fit together.  Its state is the verdict of its frame exactly
from the store on, it has been handled by the context that has taken it over and by no
other, and it has left `UNCRYPTED` once from the store on and never before. -/
structure PacketOk (prod : ProdPc) (rx : RxFrame) (state : PacketState)
    (keypair : Option Keypair) (handledBy : List Ctx) (left : ℕ) : Prop where
  found : prod.found = true → keypair.isSome = true
  unqueued : rx.pc = .unqueued ↔ prod.produced = false
  verdict : rx.pc.decided = true → rx.st ≠ .uncrypted
  state : state = if rx.pc.stored then rx.st else .uncrypted
  handledBy : handledBy = if rx.pc.taken then [rx.ctx] else []
  left : left = if rx.pc.stored then 1 else 0

namespace PacketOk

variable {prod : ProdPc} {rx : RxFrame} {state : PacketState}
  {keypair : Option Keypair} {handledBy : List Ctx} {left : ℕ}

theorem setProd (h : PacketOk prod rx state keypair handledBy left) (prod' : ProdPc)
    (keypair' : Option Keypair) (same : prod'.produced = prod.produced)
    (found : prod'.found = true → keypair'.isSome = true) :
    PacketOk prod' rx state keypair' handledBy left :=
  ⟨found, same ▸ h.unqueued, h.verdict, h.state, h.handledBy, h.left⟩

/-- A packet whose state has not been stored is `UNCRYPTED`. -/
theorem state_eq (h : PacketOk prod rx state keypair handledBy left)
    (before : rx.pc.stored = false) : state = .uncrypted := by
  simpa [before] using h.state

theorem unqueued_of (h : PacketOk prod rx state keypair handledBy left)
    (early : prod.produced = false) : rx.pc = .unqueued := h.unqueued.mpr early

/-- The producer hands the packet over: to the ring, or to itself with verdict
`DEAD`. -/
theorem produce (h : PacketOk prod rx state keypair handledBy left) (prod' : ProdPc)
    (early : prod.produced = false) (late : prod'.produced = true)
    (found : keypair.isSome = true) :
    PacketOk prod' ⟨.ring, .uncrypted, .producer⟩ state keypair handledBy left := by
  have pc := h.unqueued_of early
  refine ⟨fun _ => found, by simp [late], by simp [RxPc.decided], ?_, ?_, ?_⟩
  · simpa [pc, RxPc.stored] using h.state
  · simpa [pc, RxPc.taken] using h.handledBy
  · simpa [pc, RxPc.stored] using h.left

theorem ringFull (h : PacketOk prod rx state keypair handledBy left) (prod' : ProdPc)
    (early : prod.produced = false) (late : prod'.produced = true)
    (found : keypair.isSome = true) :
    PacketOk prod' ⟨.get, .dead, .producer⟩ state keypair (handledBy ++ [.producer]) left := by
  have pc := h.unqueued_of early
  refine ⟨fun _ => found, by simp [late], by simp, ?_, ?_, ?_⟩
  · simpa [pc, RxPc.stored] using h.state
  · simp [h.handledBy, pc, RxPc.taken]
  · simpa [pc, RxPc.stored] using h.left

theorem take (h : PacketOk prod rx state keypair handledBy left) (ctx : Ctx)
    (pc : rx.pc = .ring) :
    PacketOk prod ⟨.decrypt, .uncrypted, ctx⟩ state keypair (handledBy ++ [ctx]) left := by
  refine ⟨h.found, ?_, by simp [RxPc.decided], ?_, ?_, ?_⟩
  · simpa [pc] using h.unqueued
  · simpa [pc, RxPc.stored] using h.state
  · simp [h.handledBy, pc, RxPc.taken]
  · simpa [pc, RxPc.stored] using h.left

theorem decide {st : PacketState} (h : PacketOk prod rx state keypair handledBy left)
    (pc : rx.pc = .decrypt) (verdict : st ≠ .uncrypted) :
    PacketOk prod { rx with pc := .get, st := st } state keypair handledBy left := by
  refine ⟨h.found, ?_, fun _ => verdict, ?_, ?_, ?_⟩
  · simpa [pc] using h.unqueued
  · simpa [pc, RxPc.stored] using h.state
  · simpa [pc, RxPc.taken] using h.handledBy
  · simpa [pc, RxPc.stored] using h.left

theorem get (h : PacketOk prod rx state keypair handledBy left) (pc : rx.pc = .get) :
    PacketOk prod { rx with pc := .store } state keypair handledBy left := by
  refine ⟨h.found, ?_, fun _ => h.verdict (by simp [pc, RxPc.decided]), ?_, ?_, ?_⟩
  · simpa [pc] using h.unqueued
  · simpa [pc, RxPc.stored] using h.state
  · simpa [pc, RxPc.taken] using h.handledBy
  · simpa [pc, RxPc.stored] using h.left

theorem store (h : PacketOk prod rx state keypair handledBy left) (pc : rx.pc = .store) :
    PacketOk prod { rx with pc := .gate } rx.st keypair handledBy
      (left + if state = .uncrypted then 1 else 0) := by
  have before := h.state_eq (by simp [pc, RxPc.stored])
  refine ⟨h.found, ?_, fun _ => h.verdict (by simp [pc, RxPc.decided]), by simp [RxPc.stored],
    ?_, ?_⟩
  · simpa [pc] using h.unqueued
  · simpa [pc, RxPc.taken] using h.handledBy
  · simp [h.left, before, pc, RxPc.stored]

/-- The wake policy after the store changes nothing here. -/
theorem wake {pc' : RxPc} (h : PacketOk prod rx state keypair handledBy left)
    (before : rx.pc.stored = true) (after : pc'.stored = true) :
    PacketOk prod { rx with pc := pc' } state keypair handledBy left := by
  have ne : ∀ {pc : RxPc}, pc.stored = true → pc ≠ .unqueued := by
    rintro _ stored rfl
    simp [RxPc.stored] at stored
  refine ⟨h.found, ?_, fun _ => h.verdict (RxPc.decided_of_stored before), ?_, ?_, ?_⟩
  · simpa [ne before, ne after] using h.unqueued
  · simpa [before, after] using h.state
  · simpa [RxPc.taken_of_stored before, RxPc.taken_of_stored after] using h.handledBy
  · simpa [before, after] using h.left

end PacketOk

/-! ## All packets and the ring

The ring is the one thing that packets share.  It has no packet twice, and its packets are
those whose completion frame waits there; taking one off the ring starts its completion. -/

/-- Every packet's data fit together, and the ring holds exactly the packets whose
completion frame says so, each once.  Packets beyond `nextSkb` have not arrived. -/
structure PacketLife (nextSkb : ℕ) (prod : Skb → ProdPc) (rx : Skb → RxFrame)
    (state : Skb → PacketState) (keypair : Skb → Option Keypair) (ring : List Skb)
    (handledBy : Skb → List Ctx) (left : Skb → ℕ) : Prop where
  fresh : ∀ x, nextSkb ≤ x → prod x = .fresh
  packet : ∀ x, PacketOk (prod x) (rx x) (state x) (keypair x) (handledBy x) (left x)
  mem_ring : ∀ x, x ∈ ring ↔ (rx x).pc = .ring
  nodup : ring.Nodup

/-- `PacketLife` of a state. -/
abbrev Life (s : State) : Prop :=
  PacketLife s.nextSkb s.prod s.rx s.state s.keypair s.ring s.hist.handledBy s.hist.left

variable {cfg : Config} {s s' : State} {x : Skb}

theorem PacketLife.born (h : Life s) (seen : s.prod x ≠ .fresh) : x < s.nextSkb := by
  by_contra late
  exact seen (h.fresh x (not_lt.mp late))

/-- One packet changes, and the ring keeps up with it.  This is the general form of a step;
the lemmas after it are the shapes in which it occurs. -/
theorem PacketLife.change {prod : ProdPc} {rx : RxFrame} {state : PacketState}
    {keypair : Option Keypair} {handledBy : List Ctx} {left : ℕ}
    (h : Life s) (x : Skb) (ring : List Skb) (ok : PacketOk prod rx state keypair handledBy left)
    (born : x < s.nextSkb) (others : ∀ y, y ≠ x → (y ∈ ring ↔ y ∈ s.ring))
    (self : x ∈ ring ↔ rx.pc = .ring) (nodup : ring.Nodup) :
    PacketLife s.nextSkb (update s.prod x prod) (update s.rx x rx)
      (update s.state x state) (update s.keypair x keypair) ring
      (update s.hist.handledBy x handledBy) (update s.hist.left x left) := by
  refine ⟨fun y late => ?_, fun y => ?_, fun y => ?_, nodup⟩
  · rw [update_of_ne (lt_of_lt_of_le born late).ne']
    exact h.fresh y late
  · rcases eq_or_ne y x with rfl | ne
    · simpa only [update_self] using ok
    · simpa only [update_of_ne ne] using h.packet y
  · rcases eq_or_ne y x with rfl | ne
    · simpa only [update_self] using self
    · simpa only [update_of_ne ne, others y ne] using h.mem_ring y

/-- One packet changes and stays on or off the ring. -/
theorem PacketLife.changeAside {prod : ProdPc} {rx : RxFrame} {state : PacketState}
    {keypair : Option Keypair} {handledBy : List Ctx} {left : ℕ}
    (h : Life s) (x : Skb) (ok : PacketOk prod rx state keypair handledBy left)
    (born : x < s.nextSkb) (aside : rx.pc = .ring ↔ (s.rx x).pc = .ring) :
    PacketLife s.nextSkb (update s.prod x prod) (update s.rx x rx)
      (update s.state x state) (update s.keypair x keypair) s.ring
      (update s.hist.handledBy x handledBy) (update s.hist.left x left) :=
  h.change x s.ring ok born (fun _ _ => Iff.rfl) ((h.mem_ring x).trans aside.symm) h.nodup

/-- The producer moves on without handing the packet over. -/
theorem PacketLife.setProd (h : Life s) (x : Skb) (pc : ProdPc)
    (seen : s.prod x ≠ .fresh) (same : pc.produced = (s.prod x).produced)
    (found : pc.found = true → (s.keypair x).isSome = true) :
    PacketLife s.nextSkb (update s.prod x pc) s.rx s.state s.keypair s.ring
      s.hist.handledBy s.hist.left := by
  simpa using h.changeAside x ((h.packet x).setProd pc _ same found) (h.born seen) Iff.rfl

/-- The context `ctx` takes the first packet off the ring. -/
theorem PacketLife.take {rest : List Skb} {ctx : Ctx} (h : Life s)
    (head : s.ring = x :: rest) :
    PacketLife s.nextSkb s.prod (update s.rx x ⟨.decrypt, .uncrypted, ctx⟩) s.state
      s.keypair rest (update s.hist.handledBy x (s.hist.handledBy x ++ [ctx]))
      s.hist.left := by
  have pc : (s.rx x).pc = .ring := (h.mem_ring x).mp (by simp [head])
  obtain ⟨notMem, nodup⟩ := List.nodup_cons.mp (head ▸ h.nodup)
  have seen : s.prod x ≠ .fresh := by
    intro fresh
    simpa [pc, fresh, ProdPc.produced] using (h.packet x).unqueued
  have := h.change x rest ((h.packet x).take ctx pc) (h.born seen)
    (fun y ne => by simp [head, ne]) (by simp [notMem]) nodup
  simpa using this

/-- The steps of a producer keep the life of its packet, and touch no other. -/
theorem PacketLife.producer (h : Life s) (move : ProducerStep cfg s x s') : Life s' := by
  have ok := h.packet x
  cases move with
  | lookupMiss pc =>
      have moved := ok.setProd .keypairGet none (by simp [pc, ProdPc.produced])
        (by simp [ProdPc.found])
      simpa using h.changeAside x moved (h.born (by simp [pc])) Iff.rfl
  | lookupHit k pc counted =>
      have moved := ok.setProd .keypairGet (some k) (by simp [pc, ProdPc.produced]) (by simp)
      simpa using h.changeAside x moved (h.born (by simp [pc])) Iff.rfl
  | initState k pc found =>
      have before := ok.unqueued_of (by simp [pc, ProdPc.produced])
      have uncrypted := ok.state_eq (by simp [before, RxPc.stored])
      have kept := h.setProd x .reserve (by simp [pc]) (by simp [pc, ProdPc.produced])
        (by simp [found])
      rw [← uncrypted]
      simpa using kept
  | produce k c pc found room =>
      have early : (s.prod x).produced = false := by simp [pc, ProdPc.produced]
      have notMem : x ∉ s.ring := by
        simp [h.mem_ring, ok.unqueued_of early]
      have := h.change x (s.ring ++ [x])
        (ok.produce (.queueWork c) early rfl (by simp [found]))
        (h.born (by simp [pc])) (fun y ne => by simp [ne]) (by simp)
        (List.nodup_append.mpr ⟨h.nodup, by simp, by
          rintro a mem b single rfl
          exact notMem ((List.mem_singleton.mp single) ▸ mem)⟩)
      simpa using this
  | ringFull k c pc found full =>
      have early : (s.prod x).produced = false := by simp [pc, ProdPc.produced]
      simpa using h.changeAside x (ok.ringFull .completing early rfl (by simp [found]))
        (h.born (by simp [pc])) (by simp [ok.unqueued_of early])
  | enqClear k q pc found enq taken => exact h
  | enqXchg k q pc found enq taken => exact h
  | keypairNull pc missing =>
      exact h.setProd x _ (by simp [pc]) (by simp [pc, ProdPc.produced]) (by simp [ProdPc.found])
  | keypairGone k pc found zero =>
      exact h.setProd x _ (by simp [pc]) (by simp [pc, ProdPc.produced]) (by simp [found])
  | keypairHit k pc found counted =>
      exact h.setProd x _ (by simp [pc]) (by simp [pc, ProdPc.produced]) (by simp [found])
  | peerDead k pc found dead =>
      exact h.setProd x _ (by simp [pc]) (by simp [pc, ProdPc.produced]) (by simp [found])
  | peerAlive k pc found alive =>
      exact h.setProd x _ (by simp [pc]) (by simp [pc, ProdPc.produced]) (by simp [found])
  | reject k pc found full =>
      exact h.setProd x _ (by simp [pc]) (by simp [pc, ProdPc.produced]) (by simp [found])
  | accept k q pc found room =>
      exact h.setProd x _ (by simp [pc]) (by simp [pc, ProdPc.produced]) (by simp [found])
  | enqLink k q prev pc found enq taken =>
      exact h.setProd x _ (by simp [pc]) (by simp [pc, ProdPc.produced]) (by simp [found])
  | nextCpu k pc found =>
      exact h.setProd x _ (by simp [pc]) (by simp [pc, ProdPc.produced]) (by simp [found])
  | storeCpu k c pc found =>
      exact h.setProd x _ (by simp [pc]) (by simp [pc, ProdPc.produced]) (by simp [found])
  | queueWork k c pc found =>
      exact h.setProd x _ (by simp [pc]) (by simp [pc, ProdPc.produced]) (by simp [found])
  | completed k pc found returned =>
      exact h.setProd x _ (by simp [pc]) (by simp [pc, ProdPc.produced]) (by simp [found])
  | errKeypairPut k pc found =>
      exact h.setProd x _ (by simp [pc]) (by simp [pc, ProdPc.produced]) (by simp [found])
  | errPeerPut k pc found =>
      exact h.setProd x _ (by simp [pc]) (by simp [pc, ProdPc.produced]) (by simp [found])
  | errPeerNull pc missing =>
      exact h.setProd x _ (by simp [pc]) (by simp [pc, ProdPc.produced]) (by simp [ProdPc.found])

/-- A taken packet's completion frame moves on. -/
theorem PacketLife.setRx {f : RxFrame} (h : Life s) (x : Skb) (busy : (s.rx x).pc.taken = true)
    (after : f.pc.taken = true)
    (ok : PacketOk (s.prod x) f (s.state x) (s.keypair x) (s.hist.handledBy x)
      (s.hist.left x)) :
    PacketLife s.nextSkb s.prod (update s.rx x f) s.state s.keypair s.ring
      s.hist.handledBy s.hist.left := by
  have seen : s.prod x ≠ .fresh := by
    intro fresh
    have := (h.packet x).unqueued_of (by simp [fresh, ProdPc.produced])
    simp [this, RxPc.taken] at busy
  have notRing : ∀ {pc : RxPc}, pc.taken = true → pc ≠ .ring := by
    rintro _ taken rfl
    simp [RxPc.taken] at taken
  simpa using h.changeAside x ok (h.born seen) (by simp [notRing busy, notRing after])

theorem PacketLife.wake {pc' : RxPc} (h : Life s) (x : Skb)
    (before : (s.rx x).pc.stored = true) (after : pc'.stored = true) :
    PacketLife s.nextSkb s.prod (update s.rx x { s.rx x with pc := pc' }) s.state s.keypair
      s.ring s.hist.handledBy s.hist.left :=
  h.setRx x (RxPc.taken_of_stored before) (RxPc.taken_of_stored after)
    ((h.packet x).wake before after)

/-- The steps of a completion, as far as the packet's life is concerned: up to the store
each counts, afterwards only that the frame stays behind the store.  The wake policy, which
most of `RxStep` is about, is one case. -/
inductive RxMove (s : State) (x : Skb) (s' : State) : Prop
  | decide (st : PacketState) (pc : (s.rx x).pc = .decrypt) (verdict : st ≠ .uncrypted)
      (rx : s'.rx = update s.rx x { s.rx x with pc := .get, st := st })
      (state : s'.state = s.state) (left : s'.hist.left = s.hist.left)
  | get (pc : (s.rx x).pc = .get)
      (rx : s'.rx = update s.rx x { s.rx x with pc := .store })
      (state : s'.state = s.state) (left : s'.hist.left = s.hist.left)
  | store (pc : (s.rx x).pc = .store)
      (rx : s'.rx = update s.rx x { s.rx x with pc := .gate })
      (state : s'.state = update s.state x (s.rx x).st)
      (left : s'.hist.left = update s.hist.left x
        (s.hist.left x + if s.state x = .uncrypted then 1 else 0))
  | wake (pc' : RxPc) (before : (s.rx x).pc.stored = true) (after : pc'.stored = true)
      (rx : s'.rx = update s.rx x { s.rx x with pc := pc' })
      (state : s'.state = s.state) (left : s'.hist.left = s.hist.left)

/-- The steps of a completion, as far as the life of a packet goes.  All steps behind the
store of the verdict are one case. -/
theorem RxStep.move {k : Keypair} (move : RxStep cfg s x k s') : RxMove s x s' := by
  cases move with
  | decrypt valid st pc verdict => exact .decide st pc verdict rfl rfl rfl
  | get pc => exact .get pc rfl rfl rfl
  | store pc => exact .store pc rfl rfl rfl
  | gateHead pc on crypted => exact .wake _ (by simp [pc, RxPc.stored]) rfl rfl rfl rfl
  | gateStock pc stock => exact .wake _ (by simp [pc, RxPc.stored]) rfl rfl rfl rfl
  | blockedWake pc hit => exact .wake _ (by simp [pc, RxPc.stored]) rfl rfl rfl rfl
  | blockedSilent b pc parked miss =>
      exact .wake _ (by simp [pc, RxPc.stored]) rfl rfl rfl rfl
  | trigStock pc stock => exact .wake _ (by simp [pc, RxPc.stored]) rfl rfl rfl rfl
  | trigCount pc on crypted => exact .wake _ (by simp [pc, RxPc.stored]) rfl rfl rfl rfl
  | count pc next branch =>
      exact .wake next (by simp [pc, RxPc.stored]) (by subst branch; split <;> rfl) rfl rfl rfl
  | xchgArmed pc next branch =>
      exact .wake next (by simp [pc, RxPc.stored]) (by subst branch; split <;> rfl) rfl rfl rfl
  | tryCancel pc => exact .wake _ (by simp [pc, RxPc.stored]) rfl rfl rfl rfl
  | casLost pc held => exact .wake _ (by simp [pc, RxPc.stored]) rfl rfl rfl rfl
  | casWon pc free => exact .wake _ (by simp [pc, RxPc.stored]) rfl rfl rfl rfl
  | startTimer pc => exact .wake _ (by simp [pc, RxPc.stored]) rfl rfl rfl rfl
  | schedule pc => exact .wake _ (by simp [pc, RxPc.stored]) rfl rfl rfl rfl
  | put pc => exact .wake _ (by simp [pc, RxPc.stored]) rfl rfl rfl rfl

/-- What a completion leaves alone: the queues, the ring, the other contexts' frames, and
what a completion of another packet could see of the poll. -/
structure RxFrameRule (s s' : State) : Prop where
  nextSkb : s'.nextSkb = s.nextSkb
  prod : s'.prod = s.prod
  keypair : s'.keypair = s.keypair
  ring : s'.ring = s.ring
  worker : s'.worker = s.worker
  poll : s'.poll = s.poll
  rxQueue : s'.rxQueue = s.rxQueue
  exchanged : s'.hist.exchanged = s.hist.exchanged
  dropped : s'.hist.dropped = s.hist.dropped
  handledBy : s'.hist.handledBy = s.hist.handledBy
  blockedOn : s'.blockedOn = s.blockedOn
  isDead : s'.isDead = s.isDead
  tear : s'.tear = s.tear

theorem RxStep.frame {k : Keypair} (move : RxStep cfg s x k s') : RxFrameRule s s' := by
  cases move <;> exact ⟨rfl, rfl, rfl, rfl, rfl, rfl, rfl, rfl, rfl, rfl, rfl, rfl, rfl⟩

/-- The steps of a completion keep the life of its packet. -/
theorem PacketLife.complete {k : Keypair} (h : Life s) (move : RxStep cfg s x k s') :
    Life s' := by
  have ok := h.packet x
  have same := move.frame
  unfold Life
  rw [same.nextSkb, same.prod, same.keypair, same.ring, same.handledBy]
  cases move.move with
  | decide st pc verdict rx state left =>
      rw [rx, state, left]
      exact h.setRx x (by simp [pc, RxPc.taken]) rfl (ok.decide pc verdict)
  | get pc rx state left =>
      rw [rx, state, left]
      exact h.setRx x (by simp [pc, RxPc.taken]) rfl (ok.get pc)
  | store pc rx state left =>
      have seen : s.prod x ≠ .fresh := by
        intro fresh
        have := ok.unqueued_of (by simp [fresh, ProdPc.produced])
        simp [this] at pc
      rw [rx, state, left]
      simpa using h.changeAside x (ok.store pc) (h.born seen) (by simp [pc])
  | wake pc' before after rx state left =>
      rw [rx, state, left]
      exact h.wake x before after

theorem PacketLife.poll {p : Peer} (h : Life s) (move : PollStep cfg s p s') : Life s' := by
  cases move with
  | stealTake job rest pc head => exact h.take head
  | _ => exact h

theorem PacketLife.worker {c : Cpu} (h : Life s) (move : WorkerStep s c s') : Life s' := by
  cases move with
  | take x rest pc head => exact h.take head
  | _ => exact h

theorem PacketLife.receive (h : Life s) :
    PacketLife (s.nextSkb + 1) (update s.prod s.nextSkb .lookup) s.rx s.state s.keypair
      s.ring s.hist.handledBy s.hist.left := by
  have fresh : s.prod s.nextSkb = .fresh := h.fresh _ le_rfl
  refine ⟨fun y late => ?_, fun y => ?_, h.mem_ring, h.nodup⟩
  · rw [update_of_ne (Nat.lt_of_succ_le late).ne']
    exact h.fresh y (Nat.le_of_succ_le late)
  · rcases eq_or_ne y s.nextSkb with rfl | ne
    · rw [update_self]
      exact (h.packet _).setProd _ _ (by simp [fresh, ProdPc.produced]) (by simp [ProdPc.found])
    · rw [update_of_ne ne]
      exact h.packet y

theorem PacketLife.step {a : Action} (h : Life s) (move : Transition cfg s a s') :
    Life s' := by
  cases move with
  | producer move => exact h.producer move
  | complete k found move => exact h.complete move
  | worker present move => exact h.worker move
  | poll present move => exact h.poll move
  | timer is move => cases move <;> exact h
  | remove present move => cases move <;> exact h
  | env move =>
      cases move with
      | receive => exact h.receive
      | _ => exact h

theorem packetLife_init (knobs : Knobs) : Life (State.init knobs) := by
  refine ⟨fun _ _ => rfl, fun _ => ?_, fun _ => by simp [State.init], List.nodup_nil⟩
  constructor <;> simp [State.init, History.start, ProdPc.found, ProdPc.produced,
    RxPc.decided, RxPc.stored, RxPc.taken]

variable {knobs : Knobs} {ok : State → Action → Prop}

/-- The reachable states of the machine, in runs whose steps meet `ok`.  The initial values
of the module parameters are part of the run, since a claim may be about fixed ones. -/
abbrev Reachable (cfg : Config) (knobs : Knobs) (ok : State → Action → Prop) :
    State → Prop :=
  Machine.Reach (WgReceivePath.step cfg) ok (State.init knobs)

/-- No restriction on the steps of a run. -/
abbrev AnyStep (_ : State) (_ : Action) : Prop := True

/-- **Packets live orderly in every run.**  No condition on the run is needed, so that the
invariant is available under any. -/
theorem Reachable.life (reach : Reachable cfg knobs ok s) : Life s :=
  reach.invariant (packetLife_init knobs) fun _ _ _ _ h _ taken => h.step (step_cases taken)

/-! ## Who runs a completion

A completion is run by a decrypt worker or by a poll that has stolen the packet.  The
context is recorded in the frame, and the invariant says that the context, in turn, is busy
with this packet.  So no two contexts complete one packet. -/

/-- The context `ctx` is inside `wg_queue_enqueue_per_peer_rx` for `x`: the producer if the
ring was full, a worker, or a poll that steals. -/
def Busy (cfg : Config) (prod : Skb → ProdPc) (worker : Cpu → Worker)
    (poll : Peer → PollFrame) (x : Skb) : Ctx → Prop
  | .producer => prod x = .completing
  | .worker c => c < cfg.cpus ∧ (worker c).pc = .busy x
  | .poll p => p < cfg.peers ∧ (poll p).pc = .stealBusy x

/-- A completion frame in progress belongs to the one context that is busy with it.
Together with `PacketOk.handledBy` this is what "exactly one context" means. -/
structure Owners (busy : Skb → Ctx → Prop) (rx : Skb → RxFrame) : Prop where
  owner : ∀ x c, busy x c → (rx x).ctx = c ∧ (rx x).pc.taken = true
  owned : ∀ x, (rx x).pc.taken = true → (rx x).pc ≠ .done → busy x (rx x).ctx

/-- `Owners` of a state. -/
abbrev Owned (cfg : Config) (s : State) : Prop :=
  Owners (Busy cfg s.prod s.worker s.poll) s.rx

namespace Owners

variable {busy busy' : Skb → Ctx → Prop} {rx : Skb → RxFrame}

/-- Contexts may turn away from completions that are done. -/
theorem mono (h : Owners busy rx) (sub : ∀ y c, busy' y c → busy y c)
    (keep : ∀ y c, busy y c → (rx y).pc ≠ .done → busy' y c) : Owners busy' rx :=
  ⟨fun y c now => h.owner y c (sub y c now),
    fun y taken running => keep y _ (h.owned y taken running) running⟩

/-- The frame of `x` moves on under the same owner. -/
theorem setRx {f : RxFrame} (h : Owners busy rx) (x : Skb) (taken : (rx x).pc.taken = true)
    (running : (rx x).pc ≠ .done) (after : f.pc.taken = true) (ctx : f.ctx = (rx x).ctx) :
    Owners busy (update rx x f) := by
  refine ⟨fun y c now => ?_, fun y taken' running' => ?_⟩
  · rcases eq_or_ne y x with rfl | ne
    · simpa [ctx, after] using (h.owner y c now).1
    · simpa [ne] using h.owner y c now
  · rcases eq_or_ne y x with rfl | ne
    · simpa [ctx] using h.owned y taken running
    · simp only [update_of_ne ne] at taken' running' ⊢
      exact h.owned y taken' running'

/-- A packet that nobody has taken yet goes to the ring. -/
theorem enring {f : RxFrame} (h : Owners busy rx) (x : Skb) (free : (rx x).pc.taken = false)
    (after : f.pc.taken = false) : Owners busy (update rx x f) := by
  refine ⟨fun y c now => ?_, fun y taken running => ?_⟩
  · rcases eq_or_ne y x with rfl | ne
    · simp [(h.owner y c now).2] at free
    · simpa [ne] using h.owner y c now
  · rcases eq_or_ne y x with rfl | ne
    · simp [after] at taken
    · simp only [update_of_ne ne] at taken running ⊢
      exact h.owned y taken running

/-- A context takes a packet that nobody has taken yet. -/
theorem take {f : RxFrame} (h : Owners busy rx) (x : Skb) (free : (rx x).pc.taken = false)
    (after : f.pc.taken = true)
    (now : ∀ y c, busy' y c ↔ busy y c ∨ (y = x ∧ c = f.ctx)) :
    Owners busy' (update rx x f) := by
  refine ⟨fun y c busy => ?_, fun y taken running => ?_⟩
  · rcases (now y c).mp busy with old | ⟨rfl, rfl⟩
    · have ne : y ≠ x := by
        rintro rfl
        simp [(h.owner y c old).2] at free
      simpa [ne] using h.owner y c old
    · simp [after]
  · rcases eq_or_ne y x with rfl | ne
    · exact (now y _).mpr (.inr ⟨rfl, by simp⟩)
    · simp only [update_of_ne ne] at taken running ⊢
      exact (now y _).mpr (.inl (h.owned y taken running))

end Owners

/-- A producer that is not waiting for a completion changes its program point. -/
theorem Owners.setProd (h : Owned cfg s) (x : Skb) (pc : ProdPc) (pc' : pc ≠ .completing)
    (free : s.prod x = .completing → (s.rx x).pc = .done) :
    Owners (Busy cfg (update s.prod x pc) s.worker s.poll) s.rx := by
  refine h.mono ?_ ?_
  · rintro y (_ | c | p) now
    · rcases eq_or_ne y x with rfl | ne
      · exact absurd (by simpa [Busy] using now) pc'
      · simpa [Busy, ne] using now
    · exact now
    · exact now
  · rintro y (_ | c | p) now running
    · rcases eq_or_ne y x with rfl | ne
      · exact absurd (free now) running
      · simpa [Busy, ne] using now
    · exact now
    · exact now

/-- A worker that is not waiting for a completion changes its program point. -/
theorem Owners.setWorker {w : Worker} (h : Owned cfg s) (c : Cpu)
    (pc' : ∀ x, w.pc = .busy x → (s.worker c).pc = .busy x)
    (free : ∀ x, (s.worker c).pc = .busy x → w.pc = .busy x ∨ (s.rx x).pc = .done) :
    Owners (Busy cfg s.prod (update s.worker c w) s.poll) s.rx := by
  refine h.mono ?_ ?_
  · rintro y (_ | d | p) now
    · exact now
    · rcases eq_or_ne d c with rfl | ne
      · exact ⟨now.1, pc' y (by simpa using now.2)⟩
      · simpa [Busy, ne] using now
    · exact now
  · rintro y (_ | d | p) now running
    · exact now
    · rcases eq_or_ne d c with rfl | ne
      · exact ⟨now.1, by simpa [running] using free y now.2⟩
      · simpa [Busy, ne] using now
    · exact now

/-- A poll that is not waiting for a completion changes its program point. -/
theorem Owners.setPoll {f : PollFrame} (h : Owned cfg s) (p : Peer)
    (pc' : ∀ x, f.pc ≠ .stealBusy x)
    (free : ∀ x, (s.poll p).pc = .stealBusy x → (s.rx x).pc = .done) :
    Owners (Busy cfg s.prod s.worker (update s.poll p f)) s.rx := by
  refine h.mono ?_ ?_
  · rintro y (_ | d | q) now
    · exact now
    · exact now
    · rcases eq_or_ne q p with rfl | ne
      · exact absurd (by simpa using now.2) (pc' y)
      · simpa [Busy, ne] using now
  · rintro y (_ | d | q) now running
    · exact now
    · exact now
    · rcases eq_or_ne q p with rfl | ne
      · exact absurd (free y now.2) running
      · simpa [Busy, ne] using now

/-- The steps of a producer.  It puts packets on the ring, where no context is busy with
them yet. -/
theorem Owners.producer (h : Owned cfg s) (life : Life s) (move : ProducerStep cfg s x s') :
    Owned cfg s' := by
  have packet := life.packet x
  cases move with
  | enqClear k q pc found enq taken => exact h
  | enqXchg k q pc found enq taken => exact h
  | completed k pc found returned => exact h.setProd x _ (by simp) fun _ => returned
  | produce k c pc found room =>
      have free := packet.unqueued_of (by simp [pc, ProdPc.produced])
      exact (h.setProd x (.queueWork c) (by simp) (by simp [pc])).enring x
        (by simp [free, RxPc.taken]) rfl
  | ringFull k c pc found full =>
      have free := packet.unqueued_of (by simp [pc, ProdPc.produced])
      refine h.take x (by simp [free, RxPc.taken]) rfl ?_
      rintro y (_ | d | q)
      · rcases eq_or_ne y x with rfl | ne
        · simp [Busy]
        · simp [Busy, ne]
      · simp [Busy]
      · simp [Busy]
  | queueWork k c pc found =>
      have moved := h.setProd x .done (by simp) (by simp [pc])
      refine moved.mono ?_ ?_
      · rintro y (_ | d | q) now
        · exact now
        · rcases eq_or_ne d c with rfl | ne
          · simpa [Busy] using now
          · simpa [Busy, ne] using now
        · exact now
      · rintro y (_ | d | q) now running
        · exact now
        · rcases eq_or_ne d c with rfl | ne
          · simpa [Busy] using now
          · simpa [Busy, ne] using now
        · exact now
  | lookupMiss pc => exact h.setProd x _ (by simp) (by simp [pc])
  | lookupHit k pc counted => exact h.setProd x _ (by simp) (by simp [pc])
  | keypairNull pc missing => exact h.setProd x _ (by simp) (by simp [pc])
  | keypairGone k pc found zero => exact h.setProd x _ (by simp) (by simp [pc])
  | keypairHit k pc found counted => exact h.setProd x _ (by simp) (by simp [pc])
  | peerDead k pc found dead => exact h.setProd x _ (by simp) (by simp [pc])
  | peerAlive k pc found alive => exact h.setProd x _ (by simp) (by simp [pc])
  | initState k pc found => exact h.setProd x _ (by simp) (by simp [pc])
  | reject k pc found full => exact h.setProd x _ (by simp) (by simp [pc])
  | accept k q pc found room => exact h.setProd x _ (by simp) (by simp [pc])
  | enqLink k q prev pc found enq taken => exact h.setProd x _ (by simp) (by simp [pc])
  | nextCpu k pc found => exact h.setProd x _ (by simp) (by simp [pc])
  | storeCpu k c pc found => exact h.setProd x _ (by simp) (by simp [pc])
  | errKeypairPut k pc found => exact h.setProd x _ (by simp) (by simp [pc])
  | errPeerPut k pc found => exact h.setProd x _ (by simp) (by simp [pc])
  | errPeerNull pc missing => exact h.setProd x _ (by simp) (by simp [pc])

theorem Owners.complete {k : Keypair} (h : Owned cfg s) (move : RxStep cfg s x k s') :
    Owned cfg s' := by
  have same := move.frame
  unfold Owned
  rw [same.prod, same.worker, same.poll]
  cases move.move with
  | decide st pc verdict rx state left =>
      rw [rx]
      exact h.setRx x (by simp [pc, RxPc.taken]) (by simp [pc]) rfl rfl
  | get pc rx state left =>
      rw [rx]
      exact h.setRx x (by simp [pc, RxPc.taken]) (by simp [pc]) rfl rfl
  | store pc rx state left =>
      rw [rx]
      exact h.setRx x (by simp [pc, RxPc.taken]) (by simp [pc]) rfl rfl
  | wake pc' before after rx state left =>
      rw [rx]
      refine h.setRx x (RxPc.taken_of_stored before) ?_ (RxPc.taken_of_stored after) rfl
      cases move <;> simp_all

theorem Owners.worker {c : Cpu} (h : Owned cfg s) (life : Life s) (present : c < cfg.cpus)
    (move : WorkerStep s c s') : Owned cfg s' := by
  cases move with
  | start pc queued => exact h.setWorker c (by simp) (by simp [pc])
  | finish pc empty => exact h.setWorker c (by simp) (by simp [pc])
  | back x pc returned => exact h.setWorker c (by simp) (by simp [pc, returned])
  | take x rest pc head =>
      have free : (s.rx x).pc = .ring := (life.mem_ring x).mp (by simp [head])
      refine h.take x (by simp [free, RxPc.taken]) rfl ?_
      rintro y (_ | d | q)
      · simp [Busy]
      · rcases eq_or_ne d c with rfl | ne
        · simp [Busy, present, pc, eq_comm]
        · simp [Busy, ne]
      · simp [Busy]

theorem afterRead_ne_stealBusy (site : PeekSite) (x : Skb) (st : PacketState) (job : Skb) :
    afterRead site x st ≠ .stealBusy job := by
  cases site <;> simp only [afterRead] <;> (try split) <;> simp

/-- The poll leaves `wg_queue_enqueue_per_peer_rx` only when it has returned, and
only a ring entry takes it there. -/
theorem PollMove.stealBusy {p : Peer} {f : PollFrame} (own : PollMove cfg s p f) :
    (∀ job, f.pc ≠ .stealBusy job) ∧
      ∀ job, (s.poll p).pc = .stealBusy job → (s.rx job).pc = .done := by
  cases own with
  | readState site x pc => exact ⟨afterRead_ne_stealBusy site x _, by simp [pc]⟩
  | endpoint x pc => exact ⟨by intro; dsimp only; split <;> simp, by simp [pc]⟩
  | stealBack job pc returned => exact ⟨by simp, by simpa [pc] using returned⟩
  | _ => exact ⟨by simp, by simp_all⟩

theorem afterPeek_ne_stealBusy (site : PeekSite) (head : Option Skb) (job : Skb) :
    afterPeek site head ≠ .stealBusy job := by
  cases site <;> cases head <;> simp [afterPeek]

/-- The steps of a poll.  It becomes busy with the packet that it takes off the ring, and is
so until the completion has returned. -/
theorem Owners.pollStep {p : Peer} (h : Owned cfg s) (life : Life s)
    (present : p < cfg.peers) (move : PollStep cfg s p s') : Owned cfg s' := by
  cases move with
  | control f stats stall own =>
      obtain ⟨pc', free⟩ := own.stealBusy
      exact h.setPoll p pc' free
  | stealTake job rest pc head =>
      have free : (s.rx job).pc = .ring := (life.mem_ring job).mp (by simp [head])
      refine h.take job (by simp [free, RxPc.taken]) rfl ?_
      rintro y (_ | d | q)
      · simp [Busy]
      · simp [Busy]
      · rcases eq_or_ne q p with rfl | ne
        · simp [Busy, present, pc, eq_comm]
        · simp [Busy, ne]
  | peekMore site pc running => exact h.setPoll p (by simp) (by simp [pc])
  | peekDone site head pc returned =>
      exact h.setPoll p (afterPeek_ne_stealBusy site head) (by simp [pc])
  | drop x st pc => exact h.setPoll p (by intro; dsimp only; split <;> simp) (by simp [pc])
  | validate x k pc found =>
      exact h.setPoll p (by intro; dsimp only; split <;> simp) (by simp [pc])
  | peerPut x k pc found =>
      exact h.setPoll p (by intro; dsimp only; split <;> simp) (by simp [pc])
  | entry pc => exact h.setPoll p (by simp) (by simp [pc])
  | consume x k pc found => exact h.setPoll p (by simp) (by simp [pc])
  | consumeRouted x k r pc found counted => exact h.setPoll p (by simp) (by simp [pc])
  | routedPut x k r pc found => exact h.setPoll p (by simp) (by simp [pc])
  | keypairPut x k pc found => exact h.setPoll p (by simp) (by simp [pc])
  | stealDry stats pc empty => exact h.setPoll p (by simp) (by simp [pc])
  | publishStore head pc => exact h.setPoll p (by simp) (by simp [pc])
  | recheckSet pc => exact h.setPoll p (by simp) (by simp [pc])
  | suppClear pc => exact h.setPoll p (by simp) (by simp [pc])
  | suppSet stats pc => exact h.setPoll p (by simp) (by simp [pc])
  | complete pc => exact h.setPoll p (by simp) (by simp [pc])

theorem Owners.step {a : Action} (h : Owned cfg s) (life : Life s)
    (move : Transition cfg s a s') : Owned cfg s' := by
  cases move with
  | producer move => exact h.producer life move
  | complete k found move => exact h.complete move
  | worker present move => exact h.worker life present move
  | poll present move => exact h.pollStep life present move
  | timer is move => cases move <;> exact h
  | remove present move => cases move <;> exact h
  | env move =>
      cases move with
      | receive =>
          exact h.setProd _ _ (by simp) (by simp [life.fresh s.nextSkb le_rfl])
      | _ => exact h

theorem owners_init (cfg : Config) (knobs : Knobs) : Owned cfg (State.init knobs) := by
  constructor
  · rintro x (_ | c | p) busy <;> simp [Busy, State.init, PollFrame.idle] at busy
  · intro x taken
    simp [State.init, RxPc.taken] at taken

/-- **Every completion in progress has its owner, in every run.** -/
theorem Reachable.owned (reach : Reachable cfg knobs ok s) : Owned cfg s :=
  reach.invariant (owners_init cfg knobs) fun _ _ _ reach h _ taken =>
    h.step (Reachable.life reach) (step_cases taken)

/-! ## Quiet states

When nobody is under way every packet is at the end of its life or was never accepted. -/

/-- No producer, worker or poll is in the middle of an operation.  The timer and a removal
may still be under way. -/
def Quiescent (cfg : Config) (s : State) : Prop :=
  (∀ x < s.nextSkb, s.prod x = .done ∨ s.prod x = .freed) ∧
    (∀ c < cfg.cpus, (s.worker c).pc = .idle) ∧
    ∀ p < cfg.peers, (s.poll p).pc = .idle

instance (cfg : Config) (s : State) : Decidable (Quiescent cfg s) :=
  inferInstanceAs (Decidable (_ ∧ _ ∧ _))

/-- In a quiet state with an empty ring every completion has run to its end.  Its context
would be busy otherwise, and no context is. -/
theorem Quiescent.done (quiet : Quiescent cfg s) (life : Life s) (owned : Owned cfg s)
    (empty : s.ring = []) (produced : (s.prod x).produced = true) : (s.rx x).pc = .done := by
  have notRing : (s.rx x).pc ≠ .ring := fun pc => by
    simpa [empty] using (life.mem_ring x).mpr pc
  have queued : (s.rx x).pc ≠ .unqueued := fun pc => by
    simp [(life.packet x).unqueued.mp pc] at produced
  have taken : (s.rx x).pc.taken = true := by
    cases pc : (s.rx x).pc <;> simp_all [RxPc.taken]
  have seen : s.prod x ≠ .fresh := by
    intro fresh
    simp [fresh, ProdPc.produced] at produced
  by_contra running
  have busy := owned.owned x taken running
  cases ctx : (s.rx x).ctx with
  | producer =>
      rw [ctx] at busy
      rcases quiet.1 x (life.born seen) with pc | pc <;> simp [Busy, pc] at busy
  | worker c =>
      rw [ctx] at busy
      simp [Busy, quiet.2.1 c busy.1] at busy
  | poll p =>
      rw [ctx] at busy
      simp [Busy, quiet.2.2 p busy.1] at busy

end WgReceivePath
