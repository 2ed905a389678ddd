import WgReceivePath.Stranding

/-!
# The removal of a peer

`wg_peer_remove` marks the peer dead, waits for the receive sections that may have missed
the mark, flushes the decrypt work items twice, cancels the coalescing timer and disables
the NAPI.  This module proves what each of its waits buys (`TearOk`):

* after `synchronize_net` no producer will put a packet of the peer anywhere,
* after the first flush the decrypt ring holds no packet of the peer,
* after the second flush no work item is busy with one.

A flush waits for work items only.  With `wg_steal` a poll decrypts packets of any peer, and
whoever holds a packet of the peer in a poll is left out: such a poll can start the peer's
timer after `hrtimer_cancel` (`timer_started_once_cancelled`).  Without that, or with
`wg_trig_k` off, the timer is dead once cancelled (`timer_dead_once_cancelled`).

## What carries the proof

A flush waits until each work item has ended as often as it had been asked for when the
flush began (`Worker.queued`).  That this is long enough rests on an invariant of the ring:
every entry has a work item coming, queued or running, or a producer about to queue one
(`ServedOk`).  `TearOk` says for each program point of the removal what is known there, by a
numbering of its stages (`TearPc.stage`); its fields about a flush in progress hold the work
item that the flush waits for next to the entry or the packet it waits for.  Past the second
flush only polls hold packets of the peer (`TearOf.holder`), and if none does, no step of
another context touches its timer again (`TimerDead.step`).
-/

namespace WgReceivePath

open Function (update update_self update_of_ne)

variable {cfg : Config} {s s' : State} {x : Skb} {p : Peer} {knobs : Knobs}
  {ok : State → Action → Prop}

/-! ## Packets on the ring have a work item coming

A producer puts a packet on the ring and then queues the work item of a CPU.  Between the
two the entry is served by the producer itself, and afterwards by a work item that is queued
or still running. -/

/-- The CPU that the producer has picked for the packet. -/
def ProdPc.cpu : ProdPc → Option Cpu
  | .storeCpu c | .produce c | .queueWork c => some c
  | _ => none

/-- Every ring entry will be seen by a work item: its producer is about to queue one, or one
is queued or runs.  The item need not be on the CPU that the producer picked. -/
structure ServedOk (cpus : ℕ) (prod : Skb → ProdPc) (ring : List Skb) (worker : Cpu → Worker) :
    Prop where
  cpu : ∀ x c, (prod x).cpu = some c → c < cpus
  served : ∀ x ∈ ring, (∃ c, prod x = .queueWork c) ∨
    ∃ c < cpus, (worker c).pending = true ∨ (worker c).pc ≠ .idle

/-- `ServedOk` of a state. -/
abbrev Served (cfg : Config) (s : State) : Prop := ServedOk cfg.cpus s.prod s.ring s.worker

/-- A producer that is not about to queue work goes on. -/
theorem ServedOk.setProd (h : Served cfg s) (x : Skb) (pc : ProdPc)
    (before : ∀ c, s.prod x ≠ .queueWork c) (cpu : ∀ c, pc.cpu = some c → c < cfg.cpus) :
    ServedOk cfg.cpus (update s.prod x pc) s.ring s.worker := by
  refine ⟨fun y c picked => ?_, fun y mem => ?_⟩
  · rcases eq_or_ne y x with rfl | ne
    · exact cpu c (by simpa using picked)
    · exact h.cpu y c (by simpa [ne] using picked)
  · rcases h.served y mem with ⟨c, queue⟩ | running
    · have ne : y ≠ x := by
        rintro rfl
        exact before c queue
      exact .inl ⟨c, by simpa [ne] using queue⟩
    · exact .inr running

/-- The steps of a producer.  After it has put its packet on the ring it is the one who
serves it, until it has queued a work item. -/
theorem ServedOk.producer (h : Served cfg s) (move : ProducerStep cfg s x s') :
    Served cfg s' := by
  cases move with
  | nextCpu k pc found =>
      refine h.setProd x _ (by simp [pc]) fun c picked => ?_
      simp only [ProdPc.cpu, Option.some.injEq] at picked
      exact picked ▸ wgCpumaskNextOnline_lt cfg.cpus_pos _
  | storeCpu k c pc found =>
      refine h.setProd x _ (by simp [pc]) fun c' picked => h.cpu x c' ?_
      simpa [pc, ProdPc.cpu] using picked
  | produce k c pc found room =>
      have moved := h.setProd x (.queueWork c) (by simp [pc]) fun c' picked =>
        h.cpu x c' (by simpa [pc, ProdPc.cpu] using picked)
      refine ⟨moved.cpu, fun y mem => ?_⟩
      rcases List.mem_append.mp mem with old | new
      · exact moved.served y old
      · obtain rfl := List.mem_singleton.mp new
        exact .inl ⟨c, by simp⟩
  | queueWork k c pc found =>
      have present : c < cfg.cpus := h.cpu x c (by simp [pc, ProdPc.cpu])
      refine ⟨fun y c' picked => ?_, fun y mem => .inr ⟨c, present, by simp⟩⟩
      rcases eq_or_ne y x with rfl | ne
      · simp [ProdPc.cpu] at picked
      · exact h.cpu y c' (by simpa [ne] using picked)
  | enqClear k q pc found enq taken => exact h
  | enqXchg k q pc found enq taken => exact h
  | _ => exact h.setProd x _ (by simp_all) (by simp [ProdPc.cpu])

/-- The work item of CPU `c` goes on and is not idle. -/
theorem ServedOk.setWorker {c : Cpu} {w : Worker} (h : Served cfg s) (present : c < cfg.cpus)
    (running : w.pc ≠ .idle) (ring : List Skb) :
    ServedOk cfg.cpus s.prod ring (update s.worker c w) :=
  ⟨h.cpu, fun _ _ => .inr ⟨c, present, .inr (by simpa using running)⟩⟩

theorem ServedOk.worker {c : Cpu} (h : Served cfg s) (present : c < cfg.cpus)
    (move : WorkerStep s c s') : Served cfg s' := by
  cases move with
  | start pc queued => exact h.setWorker present (by simp) _
  | finish pc empty => exact ⟨h.cpu, by simp [empty]⟩
  | take y rest pc head => exact h.setWorker present (by simp) _
  | back y pc returned => exact h.setWorker present (by simp) _

/-- **Packets on the ring have a work item coming, in every run.**  A work item that ends
has found the ring empty, and one that is queued again while it runs will run again. -/
theorem Reachable.served (reach : Reachable cfg knobs ok s) : Served cfg s := by
  refine reach.invariant (I := Served cfg) ⟨?_, ?_⟩ fun s a s' reach h _ taken => ?_
  · simp [State.init, ProdPc.cpu]
  · simp [State.init]
  · cases step_cases taken with
    | producer move => exact h.producer move
    | complete k found move => cases move <;> exact h
    | worker present move => exact h.worker present move
    | poll present move =>
        cases move with
        | stealTake job rest pc head =>
            exact ⟨h.cpu, fun y mem => h.served y (by simp [head, mem])⟩
        | _ => exact h
    | timer is move => cases move <;> exact h
    | remove present move => cases move <;> exact h
    | env move =>
        cases move with
        | receive =>
            have fresh := (Reachable.life reach).fresh s.nextSkb le_rfl
            exact h.setProd _ _ (by simp [fresh]) (by simp [ProdPc.cpu])
        | _ => exact h

/-! ## What each wait of the removal buys

The stages are numbered in the order of the waits.  What is known at one stage stays known,
because nothing of the peer can be produced any more; each wait adds one fact. -/

/-- How far `wg_peer_remove` has come.  The facts that its waits establish hold from a stage
on. -/
def TearPc.stage : TearPc → ℕ
  | .live => 0
  | .dead => 1
  | .syncing _ => 2
  | .clear => 3
  | .flush false => 4
  | .flushing false _ => 5
  | .flush true => 6
  | .flushing true _ => 7
  | .cancelTimer => 8
  | .disableNapi => 9
  | .waitNapi => 10
  | .finalPut => 11
  | .returned => 12

/-- Past the test of `is_dead` in `wg_queue_enqueue_per_device_and_peer`'s caller and not
yet returned: the packet may still be put into a queue.  After the mark and the wait no
producer of the peer is here. -/
def ProdPc.admitted : ProdPc → Bool
  | .initState | .reserve | .enqueue | .nextCpu | .storeCpu _ | .produce _ => true
  | .queueWork _ | .completing => true
  | _ => false

/-- What is known at the program points of `wg_peer_remove`, where `own` says which packets
belong to the peer. -/
structure TearOk (cpus : ℕ) (pc : TearPc) (isDead : Bool) (own : Skb → Prop)
    (prod : Skb → ProdPc) (ring : List Skb) (worker : Cpu → Worker) : Prop where
  dead : pc.stage ≠ 0 → isDead = true
  /-- the sections that began after the mark see it -/
  syncing : ∀ n, pc = .syncing n → ∀ x, n ≤ x → own x → (prod x).admitted = false
  frozen : 3 ≤ pc.stage → ∀ x, own x → (prod x).admitted = false
  /-- a work item that has to end before the first flush does will see the entry -/
  flushing : ∀ target, pc = .flushing false target → ∀ x ∈ ring, own x →
    ∃ c < cpus, (worker c).finished < target c
  ringFree : 6 ≤ pc.stage → ∀ x ∈ ring, ¬ own x
  /-- a busy work item has to end before the second flush does -/
  draining : ∀ target, pc = .flushing true target → ∀ c < cpus, ∀ x,
    (worker c).pc = .busy x → own x → (worker c).finished < target c
  workersFree : 8 ≤ pc.stage → ∀ c < cpus, ∀ x, (worker c).pc = .busy x → ¬ own x

/-- `TearOk` of a peer. -/
abbrev TearOf (cfg : Config) (s : State) (p : Peer) : Prop :=
  TearOk cfg.cpus (s.tear p) (s.isDead p) (fun x => s.peerOf cfg x = some p) s.prod s.ring
    s.worker

section Tear

variable {cpus : ℕ} {pc : TearPc} {isDead : Bool} {own own' : Skb → Prop}
  {prod : Skb → ProdPc} {ring ring' : List Skb} {worker : Cpu → Worker}

/-- Before the removal nothing is claimed. -/
theorem TearOk.of_live (live : pc.stage = 0) :
    TearOk cpus pc isDead own prod ring worker where
  dead later := absurd live later
  syncing n here := by simp [here, TearPc.stage] at live
  frozen later := by omega
  flushing target here := by simp [here, TearPc.stage] at live
  ringFree later := by omega
  draining target here := by simp [here, TearPc.stage] at live
  workersFree later := by omega

/-- A producer goes on, and does not enter the receive path of a dead peer. -/
theorem TearOk.setProd (h : TearOk cpus pc isDead own prod ring worker) (x : Skb)
    (prod' : ProdPc) (after : own x → prod'.admitted = true → (prod x).admitted = true) :
    TearOk cpus pc isDead own (update prod x prod') ring worker := by
  have keep : ∀ y, own y → (prod y).admitted = false →
      (update prod x prod' y).admitted = false := by
    intro y mine out
    rcases eq_or_ne y x with rfl | ne
    · rw [update_self]
      by_contra admitted
      simp [after mine (by simpa using admitted)] at out
    · rwa [update_of_ne ne]
  exact ⟨h.dead, fun n here y le mine => keep y mine (h.syncing n here y le mine),
    fun later y mine => keep y mine (h.frozen later y mine), h.flushing, h.ringFree,
    h.draining, h.workersFree⟩

/-- Entries leave the ring. -/
theorem TearOk.shrink (h : TearOk cpus pc isDead own prod ring worker)
    (sub : ∀ x ∈ ring', x ∈ ring) : TearOk cpus pc isDead own prod ring' worker :=
  ⟨h.dead, h.syncing, h.frozen, fun target here x mem => h.flushing target here x (sub x mem),
    fun later x mem => h.ringFree later x (sub x mem), h.draining, h.workersFree⟩

/-- A producer puts its packet on the ring. -/
theorem TearOk.produce (h : TearOk cpus pc isDead own prod ring worker)
    (admitted : (prod x).admitted = true) :
    TearOk cpus pc isDead own prod (ring ++ [x]) worker := by
  -- past `synchronize_net` the packet is another peer's
  have other : 3 ≤ pc.stage → ¬ own x := by
    intro later mine
    simp [h.frozen later x mine] at admitted
  refine ⟨h.dead, h.syncing, h.frozen, fun target here y mem mine => ?_, fun later y mem => ?_,
    h.draining, h.workersFree⟩
  · rcases List.mem_append.mp mem with old | new
    · exact h.flushing target here y old mine
    · obtain rfl := List.mem_singleton.mp new
      exact absurd mine (other (by simp [here, TearPc.stage]))
  · rcases List.mem_append.mp mem with old | new
    · exact h.ringFree later y old
    · obtain rfl := List.mem_singleton.mp new
      exact other (by omega)

/-- A work item goes on without ending.  What a flush waits for is its end, so that nothing
is known that was not before. -/
theorem TearOk.setWorker (h : TearOk cpus pc isDead own prod ring worker) (c : Cpu)
    (w : Worker) (finished : w.finished = (worker c).finished)
    (busy : 6 ≤ pc.stage → ∀ x, w.pc = .busy x → own x → (worker c).pc = .busy x) :
    TearOk cpus pc isDead own prod ring (update worker c w) := by
  have same : ∀ d, (update worker c w d).finished = (worker d).finished := by
    intro d
    rcases eq_or_ne d c with rfl | ne
    · rw [update_self, finished]
    · rw [update_of_ne ne]
  have back : 6 ≤ pc.stage → ∀ d x, (update worker c w d).pc = .busy x → own x →
      (worker d).pc = .busy x := by
    intro later d x now mine
    rcases eq_or_ne d c with rfl | ne
    · rw [update_self] at now
      exact busy later x now mine
    · rwa [update_of_ne ne] at now
  refine ⟨h.dead, h.syncing, h.frozen, ?_, h.ringFree, ?_, ?_⟩
  · intro target here x mem mine
    obtain ⟨d, present, less⟩ := h.flushing target here x mem mine
    exact ⟨d, present, by rwa [same]⟩
  · intro target here d present x now mine
    rw [same]
    exact h.draining target here d present x (back (by simp [here, TearPc.stage]) d x now mine) mine
  · intro later d present x now mine
    exact h.workersFree later d present x (back (by omega) d x now mine) mine

/-- A packet that is nowhere yet gets its peer.  It is on no ring and in no work item, so
that the stages have nothing to say about it. -/
theorem TearOk.setOwn (h : TearOk cpus pc isDead own prod ring worker)
    (same : ∀ y, y ≠ x → (own' y ↔ own y)) (out : (prod x).admitted = false)
    (notRing : x ∉ ring) (notBusy : ∀ c < cpus, (worker c).pc ≠ .busy x) :
    TearOk cpus pc isDead own' prod ring worker := by
  have old : ∀ y, own' y → (prod y).admitted = true ∨ y ∈ ring ∨
      (∃ c < cpus, (worker c).pc = .busy y) → own y := by
    intro y mine somewhere
    refine (same y ?_).mp mine
    rintro rfl
    rcases somewhere with admitted | mem | ⟨c, present, busy⟩
    · simp [out] at admitted
    · exact notRing mem
    · exact notBusy c present busy
  refine ⟨h.dead, fun n here y le mine => ?_, fun later y mine => ?_,
    fun target here y mem mine => ?_, fun later y mem mine => ?_,
    fun target here c present y busy mine => ?_, fun later c present y busy mine => ?_⟩
  · by_contra admitted
    have admitted : (prod y).admitted = true := by simpa using admitted
    simp [h.syncing n here y le (old y mine (.inl admitted))] at admitted
  · by_contra admitted
    have admitted : (prod y).admitted = true := by simpa using admitted
    simp [h.frozen later y (old y mine (.inl admitted))] at admitted
  · exact h.flushing target here y mem (old y mine (.inr (.inl mem)))
  · exact h.ringFree later y mem (old y mine (.inr (.inl mem)))
  · exact h.draining target here c present y busy (old y mine (.inr (.inr ⟨c, present, busy⟩)))
  · exact h.workersFree later c present y busy (old y mine (.inr (.inr ⟨c, present, busy⟩)))

end Tear

/-- The packet of a producer that has not looked up its keypair is nowhere else. -/
theorem TearOf.lookup {key : Option Keypair} (h : TearOf cfg s p) (life : Life s)
    (owned : Owned cfg s) (pc : s.prod x = .lookup) :
    TearOk cfg.cpus (s.tear p) (s.isDead p)
      (fun y => (update s.keypair x key y).map cfg.peer = some p)
      (update s.prod x .keypairGet) s.ring s.worker := by
  have unqueued := (life.packet x).unqueued_of (by simp [pc, ProdPc.produced])
  have moved := TearOk.setProd h x .keypairGet (by simp [ProdPc.admitted])
  refine moved.setOwn (x := x) (fun y ne => ?_) (by simp [ProdPc.admitted]) (fun mem => ?_)
    fun c present busy => ?_
  · simp [State.peerOf, ne]
  · simp [(life.mem_ring x).mp mem] at unqueued
  · have taken := (owned.owner x (.worker c) ⟨present, busy⟩).2
    simp [unqueued, RxPc.taken] at taken

theorem TearOf.producer (h : TearOf cfg s p) (life : Life s) (owned : Owned cfg s)
    (move : ProducerStep cfg s x s') : TearOf cfg s' p := by
  cases move with
  | lookupMiss pc => exact h.lookup life owned pc
  | lookupHit k pc counted => exact h.lookup life owned pc
  | peerAlive k pc found alive =>
      by_cases live : (s.tear p).stage = 0
      · exact .of_live live
      · -- a dead peer's packet does not get here
        refine TearOk.setProd h x _ fun mine => ?_
        obtain rfl : cfg.peer k = p := by simpa [State.peerOf, found] using mine
        simp [h.dead live] at alive
  | produce k c pc found room =>
      have moved := TearOk.setProd h x (.queueWork c) (by simp [pc, ProdPc.admitted])
      exact moved.produce (by simp [ProdPc.admitted])
  | queueWork k c pc found =>
      have moved := TearOk.setProd h x .done (by simp [ProdPc.admitted])
      exact moved.setWorker c _ rfl fun _ _ busy _ => busy
  | enqClear k q pc found enq taken => exact h
  | enqXchg k q pc found enq taken => exact h
  | _ => exact TearOk.setProd h x _ (by simp_all [ProdPc.admitted])

/-- The steps of a work item, for the stages of the removal.  It may take a packet of the
peer only as long as the ring has one. -/
theorem TearOf.worker {c : Cpu} (h : TearOf cfg s p) (move : WorkerStep s c s') :
    TearOf cfg s' p := by
  cases move with
  | start pc queued => exact TearOk.setWorker h c _ rfl (by simp)
  | finish pc empty =>
      -- the flush counts this end, and neither the ring nor this work item is of interest
      have other : ∀ d x, (update s.worker c { s.worker c with
          pc := .idle, finished := (s.worker c).finished + 1 } d).pc = .busy x →
          d ≠ c ∧ (s.worker d).pc = .busy x := by
        intro d x busy
        rcases eq_or_ne d c with rfl | ne
        · simp at busy
        · exact ⟨ne, by simpa [ne] using busy⟩
      refine ⟨h.dead, h.syncing, h.frozen, by simp [empty], by simp [empty], ?_, ?_⟩
      · intro target here d present x busy mine
        obtain ⟨ne, busy⟩ := other d x busy
        simpa [ne] using h.draining target here d present x busy mine
      · intro later d present x busy
        exact h.workersFree later d present x (other d x busy).2
  | take x rest pc head =>
      have mem : x ∈ s.ring := by simp [head]
      have busy := TearOk.setWorker h c { s.worker c with pc := .busy x } rfl
        fun later y now mine => by
          obtain rfl : x = y := by simpa using now
          exact absurd mine (h.ringFree later x mem)
      exact busy.shrink fun y rest => by simp [head, rest]
  | back x pc returned => exact TearOk.setWorker h c _ rfl (by simp)

/-- A work item that is queued or runs has still to end. -/
theorem Worker.finished_lt_queued {w : Worker} (busy : w.pending = true ∨ w.pc ≠ .idle) :
    w.finished < w.queued := by
  unfold Worker.queued
  rcases busy with pending | running
  · simp only [pending, if_true]
    omega
  · simp only [running, if_false]
    omega

/-- The removal goes on without having waited. -/
theorem TearOk.advance {cpus : ℕ} {pc : TearPc} {isDead : Bool} {own : Skb → Prop}
    {prod : Skb → ProdPc} {ring : List Skb} {worker : Cpu → Worker}
    (h : TearOk cpus pc isDead own prod ring worker) (pc' : TearPc) (begun : pc.stage ≠ 0)
    (sync : ∀ n, pc' ≠ .syncing n) (flush : ∀ again target, pc' ≠ .flushing again target)
    (frozen : 3 ≤ pc'.stage → 3 ≤ pc.stage) (ring' : 6 ≤ pc'.stage → 6 ≤ pc.stage)
    (workers : 8 ≤ pc'.stage → 8 ≤ pc.stage) :
    TearOk cpus pc' isDead own prod ring worker :=
  ⟨fun _ => h.dead begun, fun n here => absurd here (sync n), fun three => h.frozen (frozen three),
    fun target here => absurd here (flush false target), fun six => h.ringFree (ring' six),
    fun target here => absurd here (flush true target), fun eight => h.workersFree (workers eight)⟩

/-- `flush_workqueue` waits for every work item that is queued or runs. -/
theorem TearOf.flush {again : Bool} (h : TearOf cfg s p) (served : Served cfg s)
    (pc : s.tear p = .flush again) :
    TearOk cfg.cpus (.flushing again fun c => (s.worker c).queued) (s.isDead p)
      (fun x => s.peerOf cfg x = some p) s.prod s.ring s.worker := by
  have three : 3 ≤ (s.tear p).stage := by cases again <;> simp [pc, TearPc.stage]
  refine ⟨fun _ => h.dead (by omega), by simp, fun _ => h.frozen three, ?_, fun six => ?_, ?_, ?_⟩
  · rintro target same x mem mine
    cases same
    rcases served.served x mem with ⟨c, queue⟩ | ⟨c, present, running⟩
    · -- its producer is gone, so the work item has been queued
      have out := h.frozen three x mine
      simp [queue, ProdPc.admitted] at out
    · exact ⟨c, present, Worker.finished_lt_queued running⟩
  · refine h.ringFree ?_
    cases again <;> simp_all [TearPc.stage]
  · rintro target same c present x busy -
    cases same
    exact Worker.finished_lt_queued (.inr (by simp [busy]))
  · intro eight
    cases again <;> simp [TearPc.stage] at eight

/-- **Each wait of the removal gives what the next step relies on.**  The case of each wait
uses the field of `TearOk` about that wait. -/
theorem TearOf.removeOwn (h : TearOf cfg s p) (life : Life s) (served : Served cfg s)
    (move : RemoveStep cfg s p s') : TearOf cfg s' p := by
  cases move with
  | makeDead pc =>
      refine ⟨by simp, ?_, ?_, ?_, ?_, ?_, ?_⟩ <;> simp [TearPc.stage]
  | synchronize pc =>
      have dead := h.dead (by simp [pc, TearPc.stage])
      refine ⟨fun _ => dead, fun n here y le _ => ?_, ?_, ?_, ?_, ?_, ?_⟩
      · obtain rfl : s.nextSkb = n := by simpa using here
        simp [life.fresh y le, ProdPc.admitted]
      all_goals simp [TearPc.stage]
  | synchronized n pc outside =>
      have dead := h.dead (by simp [pc, TearPc.stage])
      refine ⟨fun _ => dead, by simp, fun _ x mine => ?_, ?_, ?_, ?_, ?_⟩
      · by_cases early : x < n
        · have out := outside x early
          cases here : s.prod x <;> simp_all [ProdPc.inSection, ProdPc.admitted]
        · exact h.syncing n pc x (Nat.le_of_not_lt early) mine
      all_goals simp [TearPc.stage]
  | clear pc =>
      rw [TearOf, pc] at h
      simpa [TearOf, State.peerOf] using
        h.advance (.flush false) (by decide) (by simp) (by simp) (by decide) (by decide) (by decide)
  | flush again pc => simpa [TearOf, State.peerOf] using h.flush served pc
  | flushed again target pc ended =>
      have dead := h.dead (by cases again <;> simp [pc, TearPc.stage])
      have frozen := h.frozen (by cases again <;> simp [pc, TearPc.stage])
      cases again with
      | false =>
          refine ⟨fun _ => dead, by simp, fun _ => frozen, by simp, fun _ x mem mine => ?_, by simp,
            by simp [TearPc.stage]⟩
          obtain ⟨c, present, less⟩ := h.flushing target pc x mem mine
          exact absurd (ended c present) (Nat.not_le_of_lt less)
      | true =>
          refine ⟨fun _ => dead, by simp, fun _ => frozen, by simp,
            fun _ => h.ringFree (by simp [pc, TearPc.stage]), by simp,
            fun _ c present x busy mine => ?_⟩
          have less := h.draining target pc c present x busy mine
          exact absurd (ended c present) (Nat.not_le_of_lt less)
  | cancelTimer pc idle =>
      rw [TearOf, pc] at h
      simpa [TearOf, State.peerOf] using
        h.advance .disableNapi (by decide) (by simp) (by simp) (by decide) (by decide) (by decide)
  | disableNapi pc =>
      rw [TearOf, pc] at h
      simpa [TearOf, State.peerOf] using
        h.advance .waitNapi (by decide) (by simp) (by simp) (by decide) (by decide) (by decide)
  | disabled pc stopped =>
      rw [TearOf, pc] at h
      simpa [TearOf, State.peerOf] using
        h.advance .finalPut (by decide) (by simp) (by simp) (by decide) (by decide) (by decide)
  | finalPut pc =>
      rw [TearOf, pc] at h
      simpa [TearOf, State.peerOf] using
        h.advance .returned (by decide) (by simp) (by simp) (by decide) (by decide) (by decide)

theorem TearOf.step {a : Action} (h : TearOf cfg s p) (life : Life s) (owned : Owned cfg s)
    (served : Served cfg s) (move : Transition cfg s a s') : TearOf cfg s' p := by
  cases move with
  | producer move => exact h.producer life owned move
  | complete k found move => cases move <;> exact h
  | worker present move => exact h.worker move
  | poll present move =>
      cases move with
      | stealTake job rest pc head => exact TearOk.shrink h fun y mem => by simp [head, mem]
      | _ => exact h
  | timer is move => cases move <;> exact h
  | @remove p' _ present move =>
      rcases eq_or_ne p p' with rfl | ne
      · exact h.removeOwn life served move
      · cases move <;> simpa [TearOf, State.peerOf, ne] using h
  | env move =>
      cases move with
      | receive =>
          have fresh := life.fresh s.nextSkb le_rfl
          exact TearOk.setProd h _ _ (by simp [ProdPc.admitted])
      | _ => exact h

/-- **The waits of the removal hold what they promise, in every run.** -/
theorem Reachable.tear (reach : Reachable cfg knobs ok s) (p : Peer) : TearOf cfg s p :=
  reach.invariant (I := fun s => TearOf cfg s p) (.of_live rfl) fun _ _ _ reach h _ taken =>
    h.step (Reachable.life reach) (Reachable.owned reach) (Reachable.served reach)
      (step_cases taken)

/-! ## Who may still hold a packet of the peer

After both flushes no producer and no worker.  What remains are polls that have stolen a
packet, the peer's own among them. -/

/-- The packet that the poll has taken off the ring and not finished with. -/
def PollPc.stolen : PollPc → Option Skb
  | .stealBusy job => some job
  | _ => none

/-- No poll has taken over a packet of `p`. -/
def NoPollHolds (cfg : Config) (p : Peer) (s : State) : Prop :=
  ∀ p' < cfg.peers, (s.poll p').pc.stolen.bind (s.peerOf cfg) ≠ some p

instance (cfg : Config) (p : Peer) (s : State) : Decidable (NoPollHolds cfg p s) :=
  inferInstanceAs (Decidable (∀ p' < cfg.peers, _))

/-- **Past the flushes only polls hold packets of the peer.**  A packet of the peer has not
been queued, or its completion is done, or a poll is inside it. -/
theorem TearOf.holder (h : TearOf cfg s p) (life : Life s) (owned : Owned cfg s)
    (past : 8 ≤ (s.tear p).stage) (mine : s.peerOf cfg x = some p) :
    (s.rx x).pc = .unqueued ∨ (s.rx x).pc = .done ∨
      ∃ p' < cfg.peers, (s.poll p').pc = .stealBusy x := by
  by_cases taken : (s.rx x).pc.taken = true
  · by_cases done : (s.rx x).pc = .done
    · exact .inr (.inl done)
    · have busy := owned.owned x taken done
      cases ctx : (s.rx x).ctx with
      | producer =>
          have out := h.frozen (by omega) x mine
          rw [ctx] at busy
          simp [show s.prod x = .completing from busy, ProdPc.admitted] at out
      | worker c =>
          rw [ctx] at busy
          exact absurd mine (h.workersFree past c busy.1 x busy.2)
      | poll p' =>
          rw [ctx] at busy
          exact .inr (.inr ⟨p', busy⟩)
  · cases pc : (s.rx x).pc with
    | unqueued => exact .inl rfl
    | ring => exact absurd mine (h.ringFree (by omega) x ((life.mem_ring x).mpr pc))
    | _ => simp [pc, RxPc.taken] at taken

/-- `hrtimer_cancel` has returned. -/
def TearPc.cancelled : TearPc → Bool
  | .disableNapi | .waitNapi | .finalPut | .returned => true
  | _ => false

theorem TearPc.cancelled_iff {pc : TearPc} : pc.cancelled = true ↔ 9 ≤ pc.stage := by
  cases pc with
  | flush again => cases again <;> simp [cancelled, stage]
  | flushing again target => cases again <;> simp [cancelled, stage]
  | _ => simp [cancelled, stage]

/-- Nothing can start the timer of `p`, and it does not run: all completions of the peer are
done or have never begun. -/
structure TimerDead (cfg : Config) (s : State) (p : Peer) : Prop where
  rx : ∀ x, s.peerOf cfg x = some p → (s.rx x).pc = .unqueued ∨ (s.rx x).pc = .done
  timer : s.timer p = ⟨false, .idle⟩

/-- A completion step is one of a packet that somebody has taken. -/
theorem RxStep.running {k : Keypair} (move : RxStep cfg s x k s') :
    (s.rx x).pc ≠ .unqueued ∧ (s.rx x).pc ≠ .done := by
  cases move <;> simp_all

/-- No step but those of the removal itself touches a packet of a peer whose packets
are all done. -/
theorem TimerDead.step {a : Action} (h : TimerDead cfg s p) (life : Life s)
    (tear : TearOf cfg s p) (past : 8 ≤ (s.tear p).stage) (other : a ≠ .remove p)
    (move : Transition cfg s a s') : TimerDead cfg s' p := by
  -- the frame of a packet of another peer changes
  have aside : ∀ (x : Skb) (f : RxFrame), s.peerOf cfg x ≠ some p → ∀ y,
      s.peerOf cfg y = some p → (update s.rx x f y).pc = .unqueued ∨
        (update s.rx x f y).pc = .done := by
    intro x f foreign y mine
    have ne : y ≠ x := by
      rintro rfl
      exact foreign mine
    simpa [ne] using h.rx y mine
  have free : ∀ x ∈ s.ring, s.peerOf cfg x ≠ some p := tear.ringFree (by omega)
  cases move with
  | @producer x found _ move =>
      have looked : ∀ key : Option Keypair, s.prod x = .lookup → ∀ y,
          (update s.keypair x key y).map cfg.peer = some p →
            (s.rx y).pc = .unqueued ∨ (s.rx y).pc = .done := by
        intro key pc y mine
        rcases eq_or_ne y x with rfl | ne
        · exact .inl ((life.packet y).unqueued_of (by simp [pc, ProdPc.produced]))
        · exact h.rx y (by simpa [State.peerOf, ne] using mine)
      have foreign : (s.prod x).admitted = true → s.peerOf cfg x ≠ some p := by
        intro admitted mine
        simp [tear.frozen (by omega) x mine] at admitted
      cases move with
      | lookupMiss pc => exact ⟨looked none pc, h.timer⟩
      | lookupHit k pc counted => exact ⟨looked (some k) pc, h.timer⟩
      | produce k c pc found room =>
          exact ⟨aside x _ (foreign (by simp [pc, ProdPc.admitted])), h.timer⟩
      | ringFull k c pc found full =>
          exact ⟨aside x _ (foreign (by simp [pc, ProdPc.admitted])), h.timer⟩
      | _ => exact ⟨h.rx, h.timer⟩
  | @complete x _ _ _ k found move =>
      have foreign : s.peerOf cfg x ≠ some p := by
        intro mine
        rcases h.rx x mine with unqueued | done
        · exact move.running.1 unqueued
        · exact move.running.2 done
      have ne : p ≠ cfg.peer k := by
        rintro rfl
        simp [State.peerOf, found] at foreign
      have timer := h.timer
      cases move <;> exact ⟨aside x _ foreign, by simpa [ne] using timer⟩
  | worker present move =>
      cases move with
      | take x rest pc head => exact ⟨aside x _ (free x (by simp [head])), h.timer⟩
      | _ => exact ⟨h.rx, h.timer⟩
  | poll present move =>
      cases move with
      | stealTake job rest pc head => exact ⟨aside job _ (free job (by simp [head])), h.timer⟩
      | _ => exact ⟨h.rx, h.timer⟩
  | @timer p' _ _ is move =>
      have timer := h.timer
      rcases eq_or_ne p p' with rfl | ne
      · cases move <;> simp_all
      · cases move <;> exact ⟨h.rx, by simpa [ne] using timer⟩
  | @remove p' _ present move =>
      have ne : p ≠ p' := by
        rintro rfl
        exact other rfl
      have timer := h.timer
      cases move <;> exact ⟨h.rx, by simpa [ne] using timer⟩
  | env move => cases move <;> exact ⟨h.rx, h.timer⟩

/-! ## The timer after `hrtimer_cancel`

A timer can be started again only by a completion of a packet of the peer.  If no poll holds
one at the cancel, there is none to come. -/

instance (pc : TearPc) : Decidable (pc = .cancelTimer) :=
  decidable_of_iff (pc.stage = 8) (by
    cases pc with
    | flush again => cases again <;> simp [TearPc.stage]
    | flushing again target => cases again <;> simp [TearPc.stage]
    | _ => simp [TearPc.stage])

/-- When `wg_peer_remove` cancels the timer of `p`, and `wg_trig_k` is on and not overruled
by `wg_headwake`, no poll holds a packet of `p`.  A condition on the state before that one
step. -/
def CancelTimerOk (cfg : Config) (p : Peer) (s : State) : Action → Prop
  | .remove p' => p' = p → s.tear p = .cancelTimer → s.knobs.trigK ≠ 0 →
      s.knobs.headwake = 0 → NoPollHolds cfg p s
  | _ => True

instance (cfg : Config) (p : Peer) (s : State) : DecidablePred (CancelTimerOk cfg p s)
  | .remove _ => inferInstanceAs (Decidable (_ → _))
  | .receive | .producer .. | .complete .. | .worker _ | .poll .. => .isTrue trivial
  | .timerFire _ | .timerRun _ | .setKnobs _ | .peerGet _ | .peerPut _ => .isTrue trivial
  | .keypairGet _ | .keypairPut _ | .tick _ => .isTrue trivial

/-- The cancelled timer stays dead if no poll held a packet of the peer.  There is no
completion left that could start it, and none can begin. -/
theorem Reachable.timerDead (reach : Reachable cfg knobs ok s)
    (guards : ∀ s a, ok s a → CancelTimerOk cfg p s a)
    (on : ∀ s, Reachable cfg knobs ok s → s.knobs.trigK ≠ 0 ∧ s.knobs.headwake = 0) :
    9 ≤ (s.tear p).stage → TimerDead cfg s p := by
  refine reach.invariant (I := fun s => 9 ≤ (s.tear p).stage → TimerDead cfg s p)
    (fun begun => by simp [State.init, TearPc.stage] at begun)
    fun s a s' reach h met taken past => ?_
  have life := Reachable.life reach
  have tear := Reachable.tear reach p
  have move := step_cases taken
  by_cases own : a = .remove p
  · subst own
    cases move.removeStep with
    | cancelTimer pc idle =>
        -- whoever could start the timer is a poll with a packet of the peer
        have free := guards s _ met rfl pc (on s reach).1 (on s reach).2
        refine ⟨fun x mine => ?_, by simp⟩
        have mine : s.peerOf cfg x = some p := mine
        rcases tear.holder life (Reachable.owned reach) (by simp [pc, TearPc.stage]) mine with
          unqueued | done | ⟨p', present, busy⟩
        · exact .inl unqueued
        · exact .inr done
        · exact absurd (by simpa [busy, PollPc.stolen] using mine) (free p' present)
    | disableNapi pc =>
        have kept := h (by simp [pc, TearPc.stage])
        exact ⟨kept.rx, kept.timer⟩
    | disabled pc stopped =>
        have kept := h (by simp [pc, TearPc.stage])
        exact ⟨kept.rx, kept.timer⟩
    | finalPut pc =>
        have kept := h (by simp [pc, TearPc.stage])
        exact ⟨kept.rx, kept.timer⟩
    | flushed again target pc ended => cases again <;> simp [TearPc.stage] at past
    | flush again pc => cases again <;> simp [TearPc.stage] at past
    | _ => simp [TearPc.stage] at past
  · rcases move.tear p with ⟨same, -⟩ | ⟨removes, -⟩
    · rw [same] at past
      exact (h past).step life tear (by omega) own move
    · exact absurd removes own

/-- With `wg_headwake` on, a good packet never gets to the test of `wg_trig_k`: the branch
of `wg_headwake` comes first and returns. -/
theorem Reachable.headwake_stock (reach : Reachable cfg knobs ok s)
    (writes : ∀ s a, ok s a → WritesOnly (fun knobs => knobs.headwake ≠ 0) a)
    (start : knobs.headwake ≠ 0) : ∀ x, (s.rx x).pc = .trigGate → (s.rx x).st ≠ .crypted := by
  refine reach.invariant (I := fun s => ∀ x, (s.rx x).pc = .trigGate → (s.rx x).st ≠ .crypted)
    (by simp [State.init]) fun s a s' reach h _ taken => ?_
  have on : s.knobs.headwake ≠ 0 := Reachable.written reach writes start
  -- one packet's frame changes, and not to one at the test
  have change : ∀ (x : Skb) (f : RxFrame), (f.pc = .trigGate → f.st ≠ .crypted) → ∀ y,
      (update s.rx x f y).pc = .trigGate → (update s.rx x f y).st ≠ .crypted := by
    intro x f after y
    rcases eq_or_ne y x with rfl | ne
    · simpa using after
    · simpa [ne] using h y
  cases step_cases taken with
  | @producer x _ _ move =>
      cases move with
      | produce k c pc found room => exact change x _ (by simp)
      | ringFull k c pc found full => exact change x _ (by simp)
      | _ => exact h
  | @complete x _ _ _ k found move =>
      cases move with
      | gateStock pc stock => exact change x _ fun _ crypted => stock ⟨on, crypted⟩
      | count pc next branch =>
          refine change x _ fun here => ?_
          subst branch
          dsimp only at here
          split at here <;> simp at here
      | xchgArmed pc next branch =>
          refine change x _ fun here => ?_
          subst branch
          dsimp only at here
          split at here <;> simp at here
      | _ => exact change x _ (by simp)
  | worker present move =>
      cases move with
      | take x rest pc head => exact change x _ (by simp)
      | _ => exact h
  | poll present move =>
      cases move with
      | stealTake job rest pc head => exact change job _ (by simp)
      | _ => exact h
  | timer is move => cases move <;> exact h
  | remove present move => cases move <;> exact h
  | env move => cases move <;> exact h

/-- **The timer is dead once cancelled at teardown**, with fixed parameters: if
`wg_trig_k` is off or overruled by `wg_headwake`, or if no poll held a packet of the
peer when its timer was cancelled, then no completion of the peer stands before its
`hrtimer_start`, the timer is not pending, and its callback does not run. -/
theorem timer_dead_once_cancelled (cfg : Config) (knobs : Knobs) (p : Peer) (s : State)
    (reach : Reachable cfg knobs (fun s a => Fixed s a ∧ CancelTimerOk cfg p s a) s)
    (cancelled : (s.tear p).cancelled = true) :
    (∀ x, s.peerOf cfg x = some p → (s.rx x).pc ≠ .startTimer) ∧ s.timer p = ⟨false, .idle⟩ := by
  have off : TimersOff s.rx s.armed s.timer →
      (∀ x, s.peerOf cfg x = some p → (s.rx x).pc ≠ .startTimer) ∧
        s.timer p = ⟨false, .idle⟩ := by
    intro off
    refine ⟨fun x _ start => ?_, off.stopped p⟩
    simpa [start, RxPc.coalescing] using off.coalescing x
  by_cases trigK : knobs.trigK = 0
  · exact off (reach.timersOff (fun _ _ met => met.1.writesOnly) trigK)
  · by_cases headwake : knobs.headwake = 0
    · have same : ∀ s, Reachable cfg knobs (fun s a => Fixed s a ∧ CancelTimerOk cfg p s a) s →
          s.knobs = knobs := fun s reach => reach.fixed fun _ _ met => met.1
      have dead := reach.timerDead (fun _ _ met => met.2)
        (fun s reach => same s reach ▸ ⟨trigK, headwake⟩) (TearPc.cancelled_iff.mp cancelled)
      refine ⟨fun x mine start => ?_, dead.timer⟩
      rcases dead.rx x mine with unqueued | done
      · simp [start] at unqueued
      · simp [start] at done
    · refine off (reach.timersOff_of_stock fun s reach x pc crypted => ?_)
      exact absurd crypted (Reachable.headwake_stock reach
        (fun _ _ met => met.1.writesOnly) headwake x pc)

/-- A removal with `wg_trig_k = 2` and `wg_steal = 1` whose timer was pending. -/
theorem timer_dead_once_cancelled_pending : ∃ s,
    (Reachable (smallConfig 1 (by decide)) ⟨2, 0, 0, 1, 0⟩ (fun s a => Fixed s a ∧
        CancelTimerOk (smallConfig 1 (by decide)) 0 s a) s ∧
      (s.tear 0).cancelled = true ∧ s.armed 0 = true) ∧
    (∀ x, s.peerOf (smallConfig 1 (by decide)) x = some 0 → (s.rx x).pc ≠ .startTimer) ∧
      s.timer 0 = ⟨false, .idle⟩ := by
  have run : ∃ s, Reachable (smallConfig 1 (by decide)) ⟨2, 0, 0, 1, 0⟩ (fun s a => Fixed s a ∧
        CancelTimerOk (smallConfig 1 (by decide)) 0 s a) s ∧
      (s.tear 0).cancelled = true ∧ s.armed 0 = true :=
    Machine.exists_reach_of_exec
      (arrive 0 0 ++ works 0 2 ++ completes 0 9 ++ works 0 2 ++ List.replicate 9 (.remove 0))
      (by decide +kernel)
  obtain ⟨s, reach, cancelled, armed⟩ := run
  exact ⟨s, ⟨reach, cancelled, armed⟩, timer_dead_once_cancelled _ _ 0 s reach cancelled⟩

/-- Packet 2 of peer 0 is on the ring when `synchronize_net` returns in the removal of
peer 0.  The poll of peer 1 then starts, takes it off the ring and is held up; the
removal goes on past `hrtimer_cancel`. -/
def stealAcrossCancel : List Action :=
  arrive 0 1 ++ arrive 1 1 ++ works 0 2 ++ works 1 2 ++
    List.replicate 7 (.complete 1 false false) ++ works 1 2 ++ arrive 2 0 ++
    List.replicate 3 (.remove 0) ++ polls 1 11 ++ completes 0 9 ++ works 0 4 ++
    List.replicate 6 (.remove 0)

/-- **A stealing poll starts the timer after `hrtimer_cancel`.**  With `wg_trig_k = 2`
and `wg_steal = 1`, the poll of another peer arrives at `hrtimer_start` on the
cancelled timer, whose callback then runs after `wg_peer_remove` has returned. -/
theorem timer_started_once_cancelled :
    (∃ s, Reachable (smallConfig 2 (by decide)) ⟨2, 0, 0, 1, 0⟩ Fixed s ∧
      (s.tear 0).cancelled = true ∧ s.peerOf (smallConfig 2 (by decide)) 2 = some 0 ∧
      (s.rx 2).pc = .startTimer) ∧
    ∃ s, Reachable (smallConfig 2 (by decide)) ⟨2, 0, 0, 1, 0⟩ Fixed s ∧
      (s.tear 0).stage = TearPc.returned.stage ∧ (s.timer 0).cb = .clear :=
  ⟨Machine.exists_reach_of_exec (stealAcrossCancel ++ completes 2 7) (by decide +kernel),
    Machine.exists_reach_of_exec
      (stealAcrossCancel ++ completes 2 9 ++ List.replicate 3 (.remove 0) ++ [.timerFire 0])
      (by decide +kernel)⟩

end WgReceivePath
