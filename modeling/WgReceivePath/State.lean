import WgReceivePath.PrevQueue
import WgReceivePath.ReplayCounter
import WgReceivePath.Stall

/-!
# The state of the receive path

The receive path of the fork (`build/wg515-trigger`) is one shared memory worked on by many
contexts: receiving softirqs that run `wg_packet_consume_data`, one decrypt work item per
CPU, the NAPI poll of every peer, the coalescing timer of every peer, and `wg_peer_remove`.
`State` is that memory together with the call frame of every context, as arrays over
packets, peers, keypairs and CPUs.

## Main definitions

* `ProdPc`, `RxPc`, `WorkerPc`, `PollPc`, `TearPc` : the program points of the five
  functions.  A program point stands before the shared-memory access that the context makes
  next, so that one step of the machine is one access.
* `Napi`, `Timer` : the bits of a NAPI instance and of an hrtimer that the receive path can
  see, with the kernel's own operations on them.
* `Config` : what a run does not change: the number of peers and CPUs, the budget of a poll,
  and of every packet its address, its nonce and what the lookup of its endpoint gives.
* `State`, `State.init` : the shared memory, and the state in which all peers exist and
  nothing has arrived.

Packets are numbered in the order of their arrival, so that a packet's name is never reused;
the address of its `sk_buff`, which is, comes from the configuration.  The frames of
`wg_packet_consume_data` and of `wg_queue_enqueue_per_peer_rx` are indexed by the packet
they are about: there is at most one of each for a packet.

`State.hist` is auxiliary: it records what happened (the order of the exchanges, the
references taken and put, the observable actions), and no step reads it.  It is what
properties of whole runs are stated with.
-/

namespace WgReceivePath

abbrev Skb := ℕ
abbrev Peer := ℕ
abbrev Keypair := ℕ
abbrev Cpu := ℕ

/-- `enum packet_state` (queueing.h).  A packet is queued as `UNCRYPTED` and leaves that
state once, when its completion stores what decryption gave. -/
inductive PacketState where
  | uncrypted
  | crypted
  | dead
  deriving DecidableEq, Repr

/-- The `unsigned long` module parameters that the receive path reads (main.c).
`wg_trig_tau_ns` and `wg_decrypt_delay_ns` only set how long a timer or a decrypt
takes, and any delay is a behaviour of the model. -/
structure Knobs where
  trigK : BitVec 64
  headwake : BitVec 64
  supp : BitVec 64
  steal : BitVec 64
  diag : BitVec 64
  deriving DecidableEq, Repr

/-! ## NAPI and the coalescing timer

What the driver sees of the two kernel objects.  `SCHED`, `MISSED` and the disable bit of a
NAPI instance, and of a timer whether it is queued and whether its callback is running. -/

/-- The bits of `napi_struct.state` in play: `SCHED`, which the poll owns while it runs,
`MISSED`, which a `napi_schedule` during that time leaves behind, and `DISABLE`. -/
structure Napi where
  sched : Bool
  missed : Bool
  disable : Bool
  deriving DecidableEq, Repr

/-- `napi_schedule` (dev.c): set `SCHED`, or `MISSED` if it was set already;
nothing when a disable is pending or done. -/
def Napi.schedule (n : Napi) : Napi :=
  if n.disable then n
  else { n with sched := true, missed := n.missed || n.sched }

/-- `napi_complete_done` (dev.c): clear both bits, but keep `SCHED` if `MISSED`
was set, since the poll is then called once more. -/
def Napi.completeDone (n : Napi) : Napi := { n with sched := n.missed, missed := false }

/-- Where the callback `wg_rx_coalesce_timer` stands. -/
inductive TimerCb where
  | idle
  /-- about to clear `rx_timer_armed` -/
  | clear
  /-- about to call `napi_schedule` -/
  | wake
  deriving DecidableEq, Repr

/-- An `hrtimer`: whether it is enqueued, and its callback. -/
structure Timer where
  pending : Bool
  cb : TimerCb
  deriving DecidableEq, Repr

/-- `hrtimer_start`. -/
def Timer.start (t : Timer) : Timer := { t with pending := true }

/-- `hrtimer_try_to_cancel`: no effect while the callback runs. -/
def Timer.tryToCancel (t : Timer) : Timer :=
  if t.cb = .idle then { t with pending := false } else t

/-! ## Call frames

The program points follow the source from one shared access to the next.  A frame has the
local variables that are still needed at that point, and no others. -/

/-- The context that runs `wg_queue_enqueue_per_peer_rx` for a packet: its own receive
softirq if the ring was full, a decrypt worker, or a poll that has stolen it from the ring.
-/
inductive Ctx where
  | producer
  | worker (c : Cpu)
  | poll (p : Peer)
  deriving DecidableEq, Repr

/-- Program points of `wg_packet_consume_data` with `wg_queue_enqueue_per_device_and_peer`
inlined, down to the label at which a packet is given up. -/
inductive ProdPc where
  /-- the packet has not arrived yet -/
  | fresh
  | lookup
  | keypairGet
  | checkDead
  /-- about to store `UNCRYPTED` -/
  | initState
  /-- about to reserve a place in `rx_queue` -/
  | reserve
  /-- inside `__wg_prev_queue_enqueue` -/
  | enqueue
  /-- `wg_cpumask_next_online`: about to read `last_cpu` -/
  | nextCpu
  /-- `wg_cpumask_next_online`: about to write `last_cpu` -/
  | storeCpu (c : Cpu)
  | produce (c : Cpu)
  | queueWork (c : Cpu)
  /-- the ring was full: waiting for its own `wg_queue_enqueue_per_peer_rx` -/
  | completing
  /-- `err:` -/
  | errKeypairPut
  /-- `err_keypair:`, after `rcu_read_unlock_bh` -/
  | errPeerPut
  /-- returned, the packet is in `rx_queue` -/
  | done
  /-- returned, the packet has been freed -/
  | freed
  deriving DecidableEq, Repr

/-- Program points of `wg_queue_enqueue_per_peer_rx`, preceded by the places a packet goes
through to get there.  From `gate` on they are the four ways in which a completion may or
may not wake the poll. -/
inductive RxPc where
  | unqueued
  /-- in the decrypt ring -/
  | ring
  /-- taken off the ring, about to run `decrypt_packet` -/
  | decrypt
  | get
  /-- about to store the packet's state -/
  | store
  /-- about to read `wg_headwake` -/
  | gate
  /-- about to read `rx_blocked_on` -/
  | readBlocked
  /-- about to read `wg_trig_k` -/
  | trigGate
  /-- about to increment `rx_ready` -/
  | count
  | xchgArmed
  | tryCancel
  | cmpxchgArmed
  | startTimer
  | schedule
  | put
  | done
  deriving DecidableEq, Repr

/-- A frame of `wg_queue_enqueue_per_peer_rx(skb, st)`. -/
structure RxFrame where
  pc : RxPc
  st : PacketState
  ctx : Ctx
  deriving DecidableEq, Repr

/-- Program points of `wg_packet_decrypt_worker`. -/
inductive WorkerPc where
  | idle
  /-- about to consume from the ring -/
  | loop
  /-- inside `wg_queue_enqueue_per_peer_rx` for `x` -/
  | busy (x : Skb)
  deriving DecidableEq, Repr

/-- The work item of one CPU: its frame, its pending bit, and how many of its
executions have ended (what `flush_workqueue` waits on). -/
structure Worker where
  pc : WorkerPc
  pending : Bool
  finished : ℕ
  deriving DecidableEq, Repr

/-- The executions of a work item that were asked for so far: the ended ones, the
one that runs and the one that is queued. -/
def Worker.queued (w : Worker) : ℕ :=
  w.finished + (if w.pc = .idle then 0 else 1) + (if w.pending then 1 else 0)

/-- The places of `wg_packet_rx_poll` that call `wg_prev_queue_peek`. -/
inductive PeekSite where
  | deliver
  | stealHead
  | stealDone
  | diag
  | publish
  | recheck
  | supp
  | suppRecheck
  deriving DecidableEq, Repr

/-- Program points of `wg_packet_rx_poll`: the delivery loop, the stealing loop, the
diagnostics, the publication of `rx_blocked_on`, the suppression of a wake that was missed,
and the completion. -/
inductive PollPc where
  | idle
  /-- about to reset `rx_ready` -/
  | entry
  | peek (site : PeekSite)
  /-- about to read the state of the peeked packet -/
  | readState (site : PeekSite) (x : Skb)
  | dropPeeked (x : Skb) (st : PacketState)
  | validate (x : Skb)
  /-- about to run `wg_socket_endpoint_from_skb` -/
  | endpoint (x : Skb)
  /-- about to run `wg_packet_consume_data_done` -/
  | consume (x : Skb)
  /-- inside it, holding a reference on `routed_peer` -/
  | routedPut (r : Peer) (x : Skb)
  /-- `next:` -/
  | keypairPut (x : Skb)
  | peerPut (x : Skb)
  /-- about to test `wg_steal && work_done < budget` -/
  | stealGate
  /-- about to test `pulled < wg_steal` -/
  | stealWhile
  | stealConsume
  /-- inside `wg_queue_enqueue_per_peer_rx` for `job` -/
  | stealBusy (job : Skb)
  /-- about to test `pulled` -/
  | stealEnd
  | stealStat (head : Option Skb)
  /-- `goto deliver` -/
  | stealUnblocked
  | diagClose
  /-- about to read `wg_diag` -/
  | diagGate
  | diagMiss (head : Option Skb)
  | diagClass (cls : HeadClass)
  | stallFlip (cls : HeadClass)
  | stallOpen (cls : HeadClass)
  /-- about to read `wg_headwake` -/
  | headwakeGate
  /-- about to store `rx_blocked_on` -/
  | publishStore (head : Option Skb)
  | recheckSet
  /-- about to read `wg_supp` -/
  | suppGate
  | suppTest
  | suppClear
  | suppCount
  | suppSet
  | complete
  deriving DecidableEq, Repr

/-- A frame of `wg_packet_rx_poll` with its locals. -/
structure PollFrame where
  pc : PollPc
  workDone : ℕ
  pulled : ℕ
  miss : Bool
  wasSet : Bool
  deriving DecidableEq, Repr

/-- No poll of the peer is running. -/
def PollFrame.idle : PollFrame := ⟨.idle, 0, 0, false, false⟩

/-- Program points of `wg_peer_remove`.  The waits are points of their own: for the receive
sections that were open, for the work items that were queued, and for the poll. -/
inductive TearPc where
  | live
  /-- marked dead, about to call `synchronize_net` -/
  | dead
  /-- waiting for the receive sections of the packets below `n` -/
  | syncing (n : Skb)
  /-- about to call `wg_noise_keypairs_clear` and `wg_timers_stop` -/
  | clear
  /-- about to call `flush_workqueue`, for the first or the second time -/
  | flush (again : Bool)
  /-- waiting until every CPU's work item has ended as often as `target` says -/
  | flushing (again : Bool) (target : Cpu → ℕ)
  /-- about to call `hrtimer_cancel` -/
  | cancelTimer
  /-- about to set the disable bit in `napi_disable` -/
  | disableNapi
  /-- in `napi_disable`, waiting for the poll -/
  | waitNapi
  /-- about to drop the base reference -/
  | finalPut
  | returned

/-! ## The state

Everything that is shared, the frames, the module parameters, the diagnostics and the
history. -/

/-- What a run does not change.  A keypair belongs to one peer; the fields at the end say
that there is something to run on. -/
structure Config where
  /-- the number of peers -/
  peers : ℕ
  /-- the number of CPUs, all online -/
  cpus : ℕ
  /-- the poll's budget -/
  budget : ℕ
  /-- `keypair->entry.peer` -/
  peer : Keypair → Peer
  /-- the address of a packet's `sk_buff` -/
  addr : Skb → ℕ
  /-- the counter in a packet's header -/
  nonce : Skb → BitVec 64
  /-- whether `wg_socket_endpoint_from_skb` succeeds on a packet -/
  endpointOk : Skb → Bool
  peer_lt : ∀ k, peer k < peers
  cpus_pos : 0 < cpus
  budget_pos : 0 < budget

/-- The observable actions of the receive path: what the rest of the kernel sees of a peer's
queue and of its NAPI instance.  Two versions of the code are compared by them. -/
inductive Obs where
  /-- `wg_prev_queue_enqueue` on the peer's `rx_queue` succeeded -/
  | accept (p : Peer)
  /-- it returned `-ENOSPC` -/
  | reject (p : Peer)
  /-- the poll dropped a packet from the queue -/
  | drop (p : Peer) (x : Skb)
  /-- a call of `napi_schedule` -/
  | schedule (p : Peer)
  /-- a call of `napi_complete_done` -/
  | complete (p : Peer) (workDone : ℕ)
  deriving DecidableEq, Repr

/-- What happened so far.  The fields are written at the step that they are about and read
by no step. -/
structure History where
  /-- packets of a peer in the order of their exchange on `queue->head` -/
  exchanged : Peer → List Skb
  /-- packets the peer's poll dropped from the queue -/
  dropped : Peer → List Skb
  /-- contexts that took the packet over for decryption, or marked it dead -/
  handledBy : Skb → List Ctx
  /-- how often the packet's state was changed from `UNCRYPTED` -/
  left : Skb → ℕ
  /-- packets handed to `counter_validate` by the peer's poll -/
  validated : Peer → List Skb
  /-- packets handed to `wg_packet_consume_data_done` by the peer's poll -/
  consumed : Peer → List Skb
  /-- references taken and released for the packet -/
  peerGets : Skb → ℕ
  peerPuts : Skb → ℕ
  keypairGets : Skb → ℕ
  keypairPuts : Skb → ℕ
  /-- increments of `rx_ready` since the last poll entry -/
  readyIncs : Peer → ℕ
  obs : List Obs

/-- The shared memory and the frames of all contexts.  `rxQueue` has the frames of the
enqueues and of the dequeue within it. -/
structure State where
  knobs : Knobs
  /-- the number of packets received so far -/
  nextSkb : ℕ
  /-- `PACKET_CB(skb)->keypair` -/
  keypair : Skb → Option Keypair
  /-- `PACKET_CB(skb)->state` -/
  state : Skb → PacketState
  prod : Skb → ProdPc
  rx : Skb → RxFrame
  /-- `decrypt_queue.ring` and `decrypt_queue.last_cpu` (`none` is `-1`) -/
  ring : List Skb
  lastCpu : Option Cpu
  worker : Cpu → Worker
  rxQueue : Peer → PrevQueue Skb
  napi : Peer → Napi
  poll : Peer → PollFrame
  /-- `rx_blocked_on`, `rx_ready`, `rx_timer_armed`, `rx_coalesce_timer` -/
  blockedOn : Peer → Option Skb
  ready : Peer → BitVec 32
  armed : Peer → Bool
  timer : Peer → Timer
  isDead : Peer → Bool
  tear : Peer → TearPc
  /-- `refcount`, and the part of it that neither the base reference nor a packet
  nor a completion context nor a poll accounts for -/
  peerRef : Peer → ℕ
  peerOther : Peer → ℕ
  keypairRef : Keypair → ℕ
  keypairOther : Keypair → ℕ
  /-- `receiving.is_valid` and `receiving_counter` -/
  valid : Keypair → Bool
  counter : Keypair → ReplayCounter
  stats : DiagStats
  stall : Peer → PeerStall
  /-- `ktime_get_ns` -/
  clock : BitVec 64
  hist : History

/-- `PACKET_PEER(skb)`. -/
def State.peerOf (cfg : Config) (s : State) (x : Skb) : Option Peer :=
  (s.keypair x).map cfg.peer

/-- Nothing has happened yet. -/
def History.start : History where
  exchanged := fun _ => []
  dropped := fun _ => []
  handledBy := fun _ => []
  left := fun _ => 0
  validated := fun _ => []
  consumed := fun _ => []
  peerGets := fun _ => 0
  peerPuts := fun _ => 0
  keypairGets := fun _ => 0
  keypairPuts := fun _ => 0
  readyIncs := fun _ => 0
  obs := []

/-- All peers created, no traffic yet.  A keypair of the configuration has the
one reference of the slot its peer keeps it in. -/
def State.init (knobs : Knobs) : State where
  knobs := knobs
  nextSkb := 0
  keypair := fun _ => none
  state := fun _ => .uncrypted
  prod := fun _ => .fresh
  rx := fun _ => ⟨.unqueued, .uncrypted, .producer⟩
  ring := []
  lastCpu := none
  worker := fun _ => ⟨.idle, false, 0⟩
  rxQueue := fun _ => .wgPrevQueueInit
  napi := fun _ => ⟨false, false, false⟩
  poll := fun _ => .idle
  blockedOn := fun _ => none
  ready := fun _ => 0
  armed := fun _ => false
  timer := fun _ => ⟨false, .idle⟩
  isDead := fun _ => false
  tear := fun _ => .live
  peerRef := fun _ => 1
  peerOther := fun _ => 0
  keypairRef := fun _ => 1
  keypairOther := fun _ => 1
  valid := fun _ => true
  counter := fun _ => .zero
  stats := .zero
  stall := fun _ => .closed
  clock := 0
  hist := .start

end WgReceivePath
