import WgReceivePath.Noise.Attacker

/-!
# Secrecy and authentication of the handshake

For a device and a peer that are trusted, that is, the attacker has neither of their private
keys:

* `session_secret`: the attacker never gets the keys of a session, not even when it is given
  all names but the ephemeral keys once the session has begun, which is to say the private
  keys of all devices and the preshared keys, and the run goes on;
* `initiation_authentic`: an initiation that was committed was created by that peer, for
  this device, with that timestamp;
* `initiator_agrees`: for a session that this side began as the initiator, that peer has
  created a response to this device from which it derives the same keys.  Here the private
  key of the peer alone has to be secret.

These hold in every state of every run, however many handshakes are under way and wherever
the calls stand between their locks.

## What carries the proof

`HandshakeOk` says what a handshake rests on in each of its states, `SessionOk` what a
session rests on, and `Secure` collects both with what is known of the calls between two
locks.  The proof is carried by two facts.  Whatever a device sends is *safe* relative to
the log of what the devices have sealed, so the attacker has nothing else under a tainted
key (`Noise.Attacker`).  And each state of a handshake hands on what the next one needs: a
created initiation its transcript, a consumed one its authenticity, a response the taint of
both ephemeral keys.

For the leak the same invariant is used a second time, on the network in which only the
ephemeral keys are secret (`reach_leaked`): there nothing is authentic any more, but what
was sent is still safe.

Of what goes over the network the model has the messages of the handshakes; the packets that
a session encrypts with its keys are not among them.
-/

namespace WgReceivePath
namespace Noise

open Symbolic

variable {D P : Type} {N : Network D P} {L L' : Log D P} {s s' : State D P Term}
  {a : Action D P Term} {d : D} {p : P} {hs : Handshake Term}

/-! ## The invariant

Everything that a state holds rests on something in the log.  What a handshake rests on
depends on its state, and is what its next message or its session needs. -/

/-- What a handshake rests on, by its state.  The first three fields are the configuration,
which never changes; the others speak of one state each. -/
structure HandshakeOk (N : Network D P) (L : Log D P) (d : D) (p : P) (hs : Handshake Term) :
    Prop where
  remoteStatic : hs.remoteStatic = N.remoteStatic d p
  precomputed : hs.precomputedStaticStatic = .dh (.name (N.static d)) (N.remoteStatic d p)
  presharedKey : hs.presharedKey = (N.cfg.initial d p).presharedKey
  createdInitiation : hs.state = .createdInitiation →
    ∃ x t, N.Created d p x t hs.hash hs.chainingKey
  consumedInitiation : hs.state = .consumedInitiation →
    ∃ t, N.Read L d p hs.remoteEphemeral t hs.hash hs.chainingKey
  createdResponse : hs.state = .createdResponse → N.Trusted d p →
    Tainted N.ephemeral hs.chainingKey
  consumedResponse : hs.state = .consumedResponse → N.PeerTrusted d p →
    Tainted N.ephemeral hs.chainingKey ∧ N.Agreed L d p hs.chainingKey

/-- What a session rests on.  An initiator has to trust the peer only, and then knows that the peer
has the same chaining key; a responder has to trust itself as well. -/
def SessionOk (N : Network D P) (L : Log D P) (d : D) (p : P) (session : Session Term) : Prop :=
  ∃ ck, session = sessionOf symbolic session.initiator session.remoteIndex ck ∧
    (N.Trusted d p → Tainted N.ephemeral ck) ∧
    (session.initiator = true → N.PeerTrusted d p → N.Agreed L d p ck)

/-- What everything in a state rests on: what was sent, the handshakes, the calls between
two locks, what was committed, and the sessions. -/
structure Secure (N : Network D P) (L : Log D P) (s : State D P Term) : Prop where
  sent : ∀ t ∈ s.sent, Safe N.secret (N.Sealed L) t
  handshake : ∀ d p, HandshakeOk N L d p (s.handshake d p)
  verified : ∀ d p v, (d, p, v) ∈ s.verified →
    N.Read L d p v.ephemeral v.timestamp v.hash v.chainingKey
  allowed : ∀ d p v, (d, p, v) ∈ s.allowed →
    N.Read L d p v.ephemeral v.timestamp v.hash v.chainingKey
  committed : ∀ d p t, (d, p, t) ∈ s.committed → ∃ e, N.Authentic L d p e t
  accepted : ∀ d p a, (d, p, a) ∈ s.accepted → N.PeerTrusted d p →
    Tainted N.ephemeral a.chainingKey ∧ N.Agreed L d p a.chainingKey
  sessions : ∀ d p session, (d, p, session) ∈ s.sessions → SessionOk N L d p session

/-- What the devices have created so far. -/
def State.log (s : State D P Term) : Log D P := ⟨s.initiations, s.responses⟩

theorem HandshakeOk.mono (le : L.Le L') (ok : HandshakeOk N L d p hs) :
    HandshakeOk N L' d p hs where
  remoteStatic := ok.remoteStatic
  precomputed := ok.precomputed
  presharedKey := ok.presharedKey
  createdInitiation := ok.createdInitiation
  consumedInitiation state := (ok.consumedInitiation state).imp fun _ read => read.mono le
  createdResponse := ok.createdResponse
  consumedResponse state trusted := (ok.consumedResponse state trusted).imp_right (.mono le)

/-- The log may grow. -/
theorem Secure.mono (le : L.Le L') (inv : Secure N L s) : Secure N L' s where
  sent t mem := (inv.sent t mem).mono fun _ _ _ => .mono le
  handshake d p := (inv.handshake d p).mono le
  verified d p v mem := (inv.verified d p v mem).mono le
  allowed d p v mem := (inv.allowed d p v mem).mono le
  committed d p t mem := (inv.committed d p t mem).imp fun _ authentic => authentic.mono le
  accepted d p a mem trusted := (inv.accepted d p a mem trusted).imp_right (.mono le)
  sessions d p session mem := by
    obtain ⟨ck, eq, tainted, agreed⟩ := inv.sessions d p session mem
    exact ⟨ck, eq, tainted, fun initiator trusted => (agreed initiator trusted).mono le⟩

theorem handshakeOk_zero (ok : HandshakeOk N L d p hs) :
    HandshakeOk N L d p (handshakeZero symbolic hs) where
  remoteStatic := ok.remoteStatic
  precomputed := ok.precomputed
  presharedKey := ok.presharedKey
  createdInitiation := nofun
  consumedInitiation := nofun
  createdResponse := nofun
  consumedResponse := nofun

theorem secure_init (N : Network D P) : Secure N ⟨[], []⟩ (State.init N.cfg) where
  sent := nofun
  handshake d p := by
    have zeroed := N.zeroed d p
    exact ⟨rfl, N.precomputed d p, rfl, by simp [State.init, zeroed], by simp [State.init, zeroed],
      by simp [State.init, zeroed], by simp [State.init, zeroed]⟩
  verified := nofun
  allowed := nofun
  committed := nofun
  accepted := nofun
  sessions := nofun

/-! ## The steps

Each function of the handshake, on terms: what it returns, and that its result rests on what
the invariant asks for. -/

section

variable {β : Type} {l : List (D × P × β)} {Q : D → P → β → Prop}

theorem forall_cons {x : β} (new : Q d p x) (old : ∀ d p x, (d, p, x) ∈ l → Q d p x) :
    ∀ d' p' x', (d', p', x') ∈ (d, p, x) :: l → Q d' p' x' := by
  intro d' p' x' mem
  obtain eq | mem := List.mem_cons.mp mem
  · cases eq
    exact new
  · exact old d' p' x' mem

theorem forall_eraseIdx (all : ∀ d p x, (d, p, x) ∈ l → Q d p x) (n : ℕ) :
    ∀ d p x, (d, p, x) ∈ l.eraseIdx n → Q d p x :=
  fun d p x mem => all d p x (List.mem_of_mem_eraseIdx mem)

end

/-- On terms the creation of an initiation always succeeds. -/
theorem createInitiation_symbolic (ok : HandshakeOk N L d p hs) (x n index : ℕ) :
    createInitiation symbolic (N.cfg.identity d) hs (.name x) (.const n) index =
      (initiated symbolic hs (.name x) (.pub x) (.dh (.name x) (N.remoteStatic d p))
          (.pub (N.static d)) (.const n),
        some
          { senderIndex := index
            unencryptedEphemeral := .pub x
            encryptedStatic := N.staticSeal ⟨d, p, .name x, .const n⟩
            encryptedTimestamp := N.timestampSeal ⟨d, p, .name x, .const n⟩ }) := by
  obtain ⟨b, remote⟩ := N.remote d p
  have nonzero : hs.precomputedStaticStatic ≠ symbolic.zero := by
    rw [ok.precomputed, Network.remoteStatic, remote]
    simp [Term.dh, symbolic]
  rw [N.identity, createInitiation_eq symbolic index rfl rfl rfl nonzero, ok.remoteStatic,
    ok.precomputed]
  rfl

theorem handshakeOk_initiated (ok : HandshakeOk N L d p hs) {x : ℕ} (ephemeral : N.ephemeral x)
    (t : Term) :
    HandshakeOk N L d p (initiated symbolic hs (.name x) (.pub x)
      (.dh (.name x) (N.remoteStatic d p)) (.pub (N.static d)) t) where
  remoteStatic := ok.remoteStatic
  precomputed := ok.precomputed
  presharedKey := ok.presharedKey
  createdInitiation _ := by
    refine ⟨x, t, ephemeral, ?_, ?_⟩
    · simp only [initiated, ok.remoteStatic, ok.precomputed]
      rfl
    · simp only [initiated, ok.precomputed]
      rfl
  consumedInitiation := nofun
  createdResponse := nofun
  consumedResponse := nofun

theorem handshakeOk_commitInitiation (ok : HandshakeOk N L d p hs) {v : Verified Term}
    (read : N.Read L d p v.ephemeral v.timestamp v.hash v.chainingKey) (now : ℕ) :
    HandshakeOk N L d p (commitInitiation symbolic hs v now) where
  remoteStatic := ok.remoteStatic
  precomputed := ok.precomputed
  presharedKey := ok.presharedKey
  createdInitiation := nofun
  consumedInitiation _ := ⟨v.timestamp, read⟩
  createdResponse := nofun
  consumedResponse := nofun

/-- On terms the creation of a response always succeeds. -/
theorem createResponse_symbolic (ok : HandshakeOk N L d p hs)
    (state : hs.state = .consumedInitiation) (y index : ℕ) (ck : Term) :
    createResponse symbolic hs (.name y) index =
      (responded symbolic hs (.name y) (.pub y) (.dh (.name y) hs.remoteEphemeral)
          (.dh (.name y) (N.remoteStatic d p)),
        some
          { senderIndex := index
            receiverIndex := hs.remoteIndex
            unencryptedEphemeral := .pub y
            encryptedNothing := N.nothingSeal ⟨d, p, hs, .name y, ck⟩ }) := by
  rw [createResponse_eq symbolic hs index state rfl rfl rfl, ok.remoteStatic, ok.presharedKey]
  rfl

theorem responded_chainingKey (ok : HandshakeOk N L d p hs) (y : ℕ) (ck : Term) :
    (responded symbolic hs (.name y) (.pub y) (.dh (.name y) hs.remoteEphemeral)
      (.dh (.name y) (N.remoteStatic d p))).chainingKey =
      (N.keys ⟨d, p, hs, .name y, ck⟩).1 := by
  simp only [responded, ok.presharedKey]
  rfl

/-- The ephemeral key that a trusted peer has sent, and the own one, taint the chaining key.
For that the peer's ephemeral key has to be one that a device has picked, which is what
authenticity says. -/
theorem handshakeOk_responded (honest : N.Honest L) (ok : HandshakeOk N L d p hs)
    (state : hs.state = .consumedInitiation) {y : ℕ} (ephemeral : N.ephemeral y) :
    HandshakeOk N L d p (responded symbolic hs (.name y) (.pub y)
      (.dh (.name y) hs.remoteEphemeral) (.dh (.name y) (N.remoteStatic d p))) where
  remoteStatic := ok.remoteStatic
  precomputed := ok.precomputed
  presharedKey := ok.presharedKey
  createdInitiation := nofun
  consumedInitiation := nofun
  createdResponse _ trusted := by
    obtain ⟨t, read⟩ := ok.consumedInitiation state
    obtain ⟨i, mem, -, -, other, -⟩ := read.authentic trusted
    obtain ⟨x, ephemeral_x, name⟩ := honest.initiations i mem
    rw [name] at other
    rw [responded_chainingKey ok y (.const 0)]
    exact Network.tainted_keys ephemeral_x ephemeral rfl other.symm
  consumedResponse := nofun

theorem handshakeOk_commitResponse (ok : HandshakeOk N L d p hs) {a : Accepted Term}
    {hs' : Handshake Term} (committed : commitResponse hs a = some hs')
    (accepted : N.PeerTrusted d p →
      Tainted N.ephemeral a.chainingKey ∧ N.Agreed L d p a.chainingKey) :
    HandshakeOk N L d p hs' := by
  unfold commitResponse at committed
  split at committed <;> cases committed
  exact
    { remoteStatic := ok.remoteStatic
      precomputed := ok.precomputed
      presharedKey := ok.presharedKey
      createdInitiation := nofun
      consumedInitiation := nofun
      createdResponse := nofun
      consumedResponse := fun _ => accepted }

/-- A session rests on what its handshake rested on, and leaves a handshake that rests on
nothing. -/
theorem sessionOk_begin (ok : HandshakeOk N L d p hs) {session : Session Term}
    {hs' : Handshake Term} (begun : beginSession symbolic hs = some (session, hs')) :
    SessionOk N L d p session ∧ HandshakeOk N L d p hs' := by
  unfold beginSession at begun
  split at begun <;> cases begun
  rename_i state
  refine ⟨⟨hs.chainingKey, rfl, ?_⟩, handshakeOk_zero ok⟩
  by_cases consumed : hs.state = .consumedResponse
  · have both := ok.consumedResponse consumed
    exact ⟨fun trusted => (both trusted.2).1, fun _ trusted => (both trusted).2⟩
  · have created : hs.state = .createdResponse := by simpa [consumed] using state
    refine ⟨ok.createdResponse created, fun initiator => ?_⟩
    exact absurd (of_decide_eq_true initiator) consumed

variable [DecidableEq D] [DecidableEq P]

theorem Secure.setHandshake (inv : Secure N L s) (ok : HandshakeOk N L d p hs) :
    Secure N L (s.setHandshake d p hs) where
  sent := inv.sent
  handshake d' p' := by
    simp only [State.setHandshake]
    split
    · rename_i same
      obtain ⟨rfl, rfl⟩ := same
      exact ok
    · exact inv.handshake d' p'
  verified := inv.verified
  allowed := inv.allowed
  committed := inv.committed
  accepted := inv.accepted
  sessions := inv.sessions

/-- What one step keeps.  Only the creation of a message adds to the log and to what was
sent; the other steps hand on what they find. -/
theorem secure_step (honest : N.Honest s.log) (inv : Secure N s.log s) (guard : N.Attacked s a)
    (taken : step symbolic N.cfg s a = some s') :
    N.Honest s'.log ∧ Secure N s'.log s' := by
  cases transition_of_step taken with
  | @failInitiation d p ephemeral timestamp index hs failed =>
      obtain ⟨⟨x, -, rfl⟩, n, rfl⟩ := guard
      rw [createInitiation_symbolic (inv.handshake d p)] at failed
      cases failed
  | @createInitiation d p ephemeral timestamp index hs m created =>
      obtain ⟨⟨x, ephemeral, rfl⟩, n, rfl⟩ := guard
      rw [createInitiation_symbolic (inv.handshake d p)] at created
      cases created
      have honest' := honest.addInitiation (i := ⟨d, p, .name x, .const n⟩) ephemeral rfl
      have inv' := (inv.mono (s.log.le_addInitiation ⟨d, p, .name x, .const n⟩)).setHandshake
        (handshakeOk_initiated ((inv.handshake d p).mono (s.log.le_addInitiation _)) ephemeral
          (.const n))
      have new : (⟨d, p, .name x, .const n⟩ : InitiationLog D P Term) ∈
          (s.log.addInitiation ⟨d, p, .name x, .const n⟩).initiations := List.mem_cons_self
      refine ⟨honest', { inv' with sent := ?_ }⟩
      simp only [List.forall_mem_cons]
      exact ⟨trivial, Network.safe_staticSeal new rfl, Network.safe_timestampSeal new rfl rfl,
        inv'.sent⟩
  | @receiveInitiation d src p v consumed =>
      obtain ⟨ephemeral, -, timestamp⟩ := guard
      have read := Network.consumeInitiation_read honest (inv.handshake d p).precomputed
        (ephemeral.safe inv.sent) (timestamp.safe inv.sent) consumed
      exact ⟨honest, { inv with verified := forall_cons read inv.verified }⟩
  | refuse => exact ⟨honest, { inv with verified := forall_eraseIdx inv.verified _ }⟩
  | @allow n now d p v found =>
      exact ⟨honest,
        { inv with
          verified := forall_eraseIdx inv.verified _
          allowed := forall_cons (inv.verified d p v found) inv.allowed }⟩
  | @commitInitiation n now d p v found =>
      have read := inv.allowed d p v found
      have inv' := inv.setHandshake
        (handshakeOk_commitInitiation (inv.handshake d p) read now)
      exact ⟨honest,
        { inv' with
          allowed := forall_eraseIdx inv.allowed _
          committed := forall_cons ⟨v.ephemeral, read.authentic⟩ inv.committed }⟩
  | @failResponse d p ephemeral index hs failed =>
      obtain ⟨y, -, rfl⟩ := guard
      by_cases state : (s.handshake d p).state = .consumedInitiation
      · rw [createResponse_symbolic (inv.handshake d p) state y index (.const 0)] at failed
        cases failed
      · simp only [createResponse, state, ne_eq, not_false_eq_true, if_true] at failed
        cases failed
        exact ⟨honest, inv.setHandshake (inv.handshake d p)⟩
  | @createResponse d p ephemeral index hs m created =>
      obtain ⟨y, ephemeral, rfl⟩ := guard
      have state : (s.handshake d p).state = .consumedInitiation := by
        by_contra state
        simp [createResponse, state] at created
      obtain ⟨t, read⟩ := (inv.handshake d p).consumedInitiation state
      rw [createResponse_symbolic (inv.handshake d p) state y index hs.chainingKey] at created
      cases created
      have key := responded_chainingKey (inv.handshake d p) y
      let r : ResponseLog D P Term := ⟨d, p, s.handshake d p, .name y, (responded symbolic
        (s.handshake d p) (.name y) (.pub y) (.dh (.name y) (s.handshake d p).remoteEphemeral)
        (.dh (.name y) (N.remoteStatic d p))).chainingKey⟩
      have honest' := honest.addResponse (r := r) ephemeral rfl (key _) read
      have inv' := (inv.mono (s.log.le_addResponse r)).setHandshake
        ((handshakeOk_responded honest (inv.handshake d p) state ephemeral).mono
          (s.log.le_addResponse r))
      refine ⟨honest', { inv' with sent := ?_ }⟩
      simp only [List.forall_mem_cons]
      exact ⟨trivial, Network.safe_nothingSeal honest' (r := r) List.mem_cons_self, inv'.sent⟩
  | @receiveResponse d src p a consumed =>
      obtain ⟨-, nothing⟩ := guard
      have state := ((consumeResponse_eq_some_iff symbolic).mp consumed).2.1
      obtain ⟨x, t, created⟩ := (inv.handshake d p).createdInitiation state
      have agreed := Network.consumeResponse_agreed honest created (nothing.safe inv.sent) consumed
      exact ⟨honest, { inv with accepted := forall_cons agreed inv.accepted }⟩
  | discardResponse => exact ⟨honest, { inv with accepted := forall_eraseIdx inv.accepted _ }⟩
  | @commitResponse n d p a hs found committed =>
      have inv' := inv.setHandshake (handshakeOk_commitResponse (inv.handshake d p) committed
        (inv.accepted d p a found))
      exact ⟨honest, { inv' with accepted := forall_eraseIdx inv.accepted _ }⟩
  | @beginSession d p session hs begun =>
      obtain ⟨session, ok⟩ := sessionOk_begin (inv.handshake d p) begun
      have inv' := inv.setHandshake ok
      exact ⟨honest, { inv' with sessions := forall_cons session inv.sessions }⟩
  | @clear d p =>
      have inv' := inv.setHandshake (handshakeOk_zero (inv.handshake d p))
      exact ⟨honest, { inv' with }⟩
  | release => exact ⟨honest, { inv with }⟩

/-! ## Two devices

A network on which a handshake goes through. -/

/-- The two devices with the names 0 and 1 pick the names 2 and 3. -/
def twoNetwork : Network Bool Unit where
  cfg := twoDevices
  static := Bool.toNat
  secret a := a ≤ 3
  ephemeral x := x = 2 ∨ x = 3
  identity _ := rfl
  remote d _ := ⟨(!d).toNat, rfl⟩
  lookup d t p found := by
    simp only [twoDevices, Option.ite_none_right_eq_some] at found
    exact found.1.symm
  precomputed _ _ := rfl
  psk _ _ := .inr ⟨0, rfl⟩
  zeroed _ _ := rfl
  secret_of_ephemeral x picked := by omega

theorem twoNetwork_trusted (d : Bool) : twoNetwork.Trusted d () := by
  have small (d : Bool) : d.toNat ≤ 3 := by
    cases d <;> decide
  exact ⟨small d, (!d).toNat, small _, rfl⟩

/-- What arrives was sent. -/
def Relayed (s : State Bool Unit Term) : Action Bool Unit Term → Prop
  | .createInitiation _ _ ephemeral timestamp _ => ephemeral = .name 2 ∧ timestamp = .const 9
  | .createResponse _ _ ephemeral _ => ephemeral = .name 3
  | .receiveInitiation _ src =>
      src.unencryptedEphemeral ∈ s.sent ∧ src.encryptedStatic ∈ s.sent ∧
        src.encryptedTimestamp ∈ s.sent
  | .receiveResponse _ src => src.unencryptedEphemeral ∈ s.sent ∧ src.encryptedNothing ∈ s.sent
  | _ => True

instance decidableRelayed (s : State Bool Unit Term) :
    (a : Action Bool Unit Term) → Decidable (Relayed s a)
  | .createInitiation _ _ _ _ _ => inferInstanceAs (Decidable (_ ∧ _))
  | .createResponse _ _ _ _ => inferInstanceAs (Decidable (_ = _))
  | .receiveInitiation _ _ => inferInstanceAs (Decidable (_ ∧ _ ∧ _))
  | .receiveResponse _ _ => inferInstanceAs (Decidable (_ ∧ _))
  | .check _ _ | .commitInitiation _ _ | .commitResponse _ | .beginSession _ _ | .clear _ _
  | .release _ _ => inferInstanceAs (Decidable True)

theorem attacked_of_relayed {s : State Bool Unit Term} {a : Action Bool Unit Term}
    (relayed : Relayed s a) : twoNetwork.Attacked s a := by
  cases a with
  | createInitiation => exact ⟨⟨2, .inl rfl, relayed.1⟩, 9, relayed.2⟩
  | createResponse => exact ⟨3, .inr rfl, relayed⟩
  | receiveInitiation => exact ⟨.sent relayed.1, .sent relayed.2.1, .sent relayed.2.2⟩
  | receiveResponse => exact ⟨.sent relayed.1, .sent relayed.2⟩
  | check | commitInitiation | commitResponse | beginSession | clear | release => trivial

/-- What the second of the two devices answers. -/
def firstResponse : Response Term where
  senderIndex := 11
  receiverIndex := 10
  unencryptedEphemeral := .pub 3
  encryptedNothing := sealedNothing symbolic
    (timestampKeys symbolic (.pub 2) (.dh (.name 2) (.pub 1)) (.dh (.name 0) (.pub 1))).1
    (initiationHash symbolic (.pub 1) (.pub 2) firstInitiation.encryptedStatic
      firstInitiation.encryptedTimestamp)
    (.pub 3) (.dh (.name 3) (.pub 2)) (.dh (.name 3) (.pub 0)) (.const 0)

/-- A handshake between the two devices. -/
theorem twoNetwork_handshake : ∃ s,
    Machine.Reach (step symbolic twoNetwork.cfg) twoNetwork.Attacked
        (State.init twoNetwork.cfg) s ∧
      (∃ session, (false, (), session) ∈ s.sessions ∧ session.initiator = true) ∧
      (true, (), .const 9) ∈ s.committed := by
  obtain ⟨s, reach, ⟨⟨d, p, session⟩, mem, rfl, initiator⟩, committed⟩ :
      ∃ s, Machine.Reach (step symbolic twoDevices) Relayed (State.init twoDevices) s ∧
        (∃ x ∈ s.sessions, x.1 = false ∧ x.2.2.initiator = true) ∧
        (true, (), .const 9) ∈ s.committed :=
    Machine.exists_reach_of_exec
      [.createInitiation false () (.name 2) (.const 9) 10, .receiveInitiation true firstInitiation,
        .check 0 1000000000, .commitInitiation 0 1000000000,
        .createResponse true () (.name 3) 11, .beginSession true (),
        .receiveResponse false firstResponse, .commitResponse 0, .beginSession false ()]
      (by decide)
  exact ⟨s, reach.strengthen fun _ _ _ => attacked_of_relayed, ⟨session, mem, initiator⟩,
    committed⟩

/-! ## Every run

The invariant and its consequences.  Secrecy follows from the taint of the chaining key,
agreement and authentication from the log. -/

/-- What a whole run keeps, by induction from a state in which nothing was sent. -/
theorem secure_of_reach
    (reach : Machine.Reach (step symbolic N.cfg) N.Attacked (State.init N.cfg) s) :
    N.Honest s.log ∧ Secure N s.log s := by
  refine reach.invariant (I := fun s => N.Honest s.log ∧ Secure N s.log s) ?_ ?_
  · exact ⟨⟨nofun, nofun⟩, secure_init N⟩
  · intro s a s' _ inv guard taken
    exact secure_step inv.1 inv.2 guard taken

/-- What the attacker does without the leaked names it can do with them. -/
theorem reach_leaked
    (reach : Machine.Reach (step symbolic N.cfg) N.Attacked (State.init N.cfg) s) :
    Machine.Reach (step symbolic N.leaked.cfg) N.leaked.Attacked (State.init N.leaked.cfg) s := by
  have leak {s : State D P Term} {t : Term} (derives : N.Derives s t) : N.leaked.Derives s t :=
    Symbolic.Derives.leak N.secret_of_ephemeral derives
  refine reach.strengthen fun s a _ guard => ?_
  cases a with
  | createInitiation => exact guard
  | createResponse => exact guard
  | receiveInitiation => exact ⟨leak guard.1, leak guard.2.1, leak guard.2.2⟩
  | receiveResponse => exact ⟨leak guard.1, leak guard.2⟩
  | check | commitInitiation | commitResponse | beginSession | clear | release => trivial

/-- **Secrecy, also after a leak.**  Let a device have begun a session with a peer, the two being
trusted, whatever the attacker has done so far.  Then the attacker may be given every private key
and preshared key that is not an ephemeral key, and the run may go on with an attacker that has
them, in the handshakes that follow as well: in no state does it derive a key of that session. -/
theorem session_secret
    (reach : Machine.Reach (step symbolic N.cfg) N.Attacked (State.init N.cfg) s)
    {session : Session Term} (begun : (d, p, session) ∈ s.sessions) (trusted : N.Trusted d p)
    (more : Machine.Reach (step symbolic N.leaked.cfg) N.leaked.Attacked s s') :
    ¬ N.leaked.Derives s' session.sending ∧ ¬ N.leaked.Derives s' session.receiving := by
  obtain ⟨ck, eq, tainted, -⟩ := (secure_of_reach reach).2.sessions d p session begun
  replace tainted := tainted trusted
  have sent := (secure_of_reach ((reach_leaked reach).trans more)).2.sent
  have secret {t : Term} (tainted : Tainted N.ephemeral t) : ¬ N.leaked.Derives s' t :=
    fun derives => tainted.not_safe (derives.safe sent)
  have first : Tainted N.ephemeral (deriveKeys symbolic ck).1 := (tainted_kdf (.inl tainted)).1
  have second : Tainted N.ephemeral (deriveKeys symbolic ck).2 :=
    (tainted_kdf (.inl tainted)).2.1
  rw [eq]
  cases session.initiator with
  | true => exact ⟨secret first, secret second⟩
  | false => exact ⟨secret second, secret first⟩

/-- The session of the first of two devices, when the keys have leaked and the second device has
given up the handshake. -/
theorem session_secret_two : ∃ s s',
    Machine.Reach (step symbolic twoNetwork.cfg) twoNetwork.Attacked
        (State.init twoNetwork.cfg) s ∧
      step symbolic twoNetwork.leaked.cfg s (.clear true ()) = some s' ∧
      ∃ session, (false, (), session) ∈ s.sessions ∧ twoNetwork.Trusted false () ∧
        ¬ twoNetwork.leaked.Derives s' session.sending ∧
        ¬ twoNetwork.leaked.Derives s' session.receiving := by
  obtain ⟨s, reach, ⟨session, begun, -⟩, -⟩ := twoNetwork_handshake
  refine ⟨s, _, reach, rfl, session, begun, twoNetwork_trusted false, ?_⟩
  exact session_secret reach begun (twoNetwork_trusted false)
    (Machine.Reach.single (a := .clear true ()) trivial rfl)

/-- **Authentication of initiations.**  An initiation that a device has committed for a trusted
peer was created by that peer for this device, with that timestamp. -/
theorem initiation_authentic
    (reach : Machine.Reach (step symbolic N.cfg) N.Attacked (State.init N.cfg) s)
    {t : Term} (committed : (d, p, t) ∈ s.committed) (trusted : N.Trusted d p) :
    ∃ i ∈ s.initiations,
      N.remoteStatic d p = .pub (N.static i.device) ∧
        N.remoteStatic i.device i.peer = .pub (N.static d) ∧ i.timestamp = t := by
  obtain ⟨e, authentic⟩ := (secure_of_reach reach).2.committed d p t committed
  obtain ⟨i, mem, initiator, responder, -, timestamp⟩ := authentic trusted
  exact ⟨i, mem, initiator, responder, timestamp⟩

/-- The initiation that the second of two devices has committed. -/
theorem initiation_authentic_two : ∃ s,
    Machine.Reach (step symbolic twoNetwork.cfg) twoNetwork.Attacked
        (State.init twoNetwork.cfg) s ∧
      (true, (), .const 9) ∈ s.committed ∧ twoNetwork.Trusted true () ∧
      ∃ i ∈ s.initiations, twoNetwork.remoteStatic true () = .pub (twoNetwork.static i.device) ∧
        twoNetwork.remoteStatic i.device i.peer = .pub (twoNetwork.static true) ∧
        i.timestamp = .const 9 := by
  obtain ⟨s, reach, -, committed⟩ := twoNetwork_handshake
  exact ⟨s, reach, committed, twoNetwork_trusted true,
    initiation_authentic reach committed (twoNetwork_trusted true)⟩

/-- **Agreement.**  If a device has begun a session as the initiator with a peer whose private key
is secret, then that peer has created a response to this device whose session has the same keys
the other way round.  The device's own private key may be known to the attacker. -/
theorem initiator_agrees
    (reach : Machine.Reach (step symbolic N.cfg) N.Attacked (State.init N.cfg) s)
    {session : Session Term} (begun : (d, p, session) ∈ s.sessions) (trusted : N.PeerTrusted d p)
    (initiator : session.initiator = true) : ∃ r ∈ s.responses,
      N.remoteStatic d p = .pub (N.static r.device) ∧
        N.remoteStatic r.device r.peer = .pub (N.static d) ∧
        ∀ index, (sessionOf symbolic false index r.chainingKey).receiving = session.sending ∧
          (sessionOf symbolic false index r.chainingKey).sending = session.receiving := by
  obtain ⟨ck, eq, -, agreed⟩ := (secure_of_reach reach).2.sessions d p session begun
  obtain ⟨r, mem, responder, other, rfl⟩ := agreed initiator trusted
  refine ⟨r, mem, responder, other, fun index => ?_⟩
  rw [eq, initiator]
  exact ⟨rfl, rfl⟩

/-- The two devices have the same keys. -/
theorem initiator_agrees_two : ∃ s,
    Machine.Reach (step symbolic twoNetwork.cfg) twoNetwork.Attacked
        (State.init twoNetwork.cfg) s ∧
      ∃ session, (false, (), session) ∈ s.sessions ∧ session.initiator = true ∧
        twoNetwork.PeerTrusted false () ∧ ∃ r ∈ s.responses,
          twoNetwork.remoteStatic false () = .pub (twoNetwork.static r.device) ∧
            twoNetwork.remoteStatic r.device r.peer = .pub (twoNetwork.static false) ∧
            ∀ index,
              (sessionOf symbolic false index r.chainingKey).receiving = session.sending ∧
                (sessionOf symbolic false index r.chainingKey).sending = session.receiving := by
  obtain ⟨s, reach, ⟨session, begun, initiator⟩, -⟩ := twoNetwork_handshake
  exact ⟨s, reach, session, begun, initiator, (twoNetwork_trusted false).2,
    initiator_agrees reach begun (twoNetwork_trusted false).2 initiator⟩

end Noise
end WgReceivePath
