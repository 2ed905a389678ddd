import WgReceivePath.AllowedIps.Refinement

/-!
# Dumping and restoring the table

User space reads the allowed IPs of a peer by walking its list (`get_peer`, which calls
`wg_allowedips_read_node`), and sets them one attribute at a time (`set_allowedip`).  What
is read is the prefix of the node, with the rest of the address cleared
(`netBits_readNode`); setting a dump in an empty table therefore restores every lookup
(`lookup_after_restore`).

Two failures of the source are left out.  A dump that does not fit into one message ends
with `-EMSGSIZE` and is continued in the next message; here a dump is the whole list at
once.  And the insertions of a restore find memory: with a failed allocation the loop in
`set_peer` ends early, at the code that `add_good` describes.
-/

namespace WgReceivePath
namespace AllowedIps

variable {P : Type}

/-- The attributes of one allowed IP in a netlink message.  `removeMe` is the flag
`WGALLOWEDIP_F_REMOVE_ME`. -/
structure Attr where
  family : Family
  ip : Bytes
  cidr : ℕ
  removeMe : Bool

/-- The last byte of a prefix is cut off after the prefix: `&= ~0U << (-cidr % 8U)`. -/
def maskByte (cidr : ℕ) (byte : BitVec 8) : BitVec 8 := byte &&& (255#8 <<< ((8 - cidr % 8) % 8))

/-- `wg_allowedips_read_node`, with the first bytes of its buffer that `get_allowedips`
sends.  The bytes after the prefix are cleared, and the last byte of the prefix is masked.
-/
def Node.readNode (node : Node P) : Attr where
  family := node.bitlen
  ip :=
    let cidrBytes := (node.cidr + 7) / 8
    let ip := (swapEndian node.bitlen node.bits).take cidrBytes ++
      List.replicate (node.bitlen.bytes - cidrBytes) 0
    if node.cidr = 0 then ip else ip.modify (cidrBytes - 1) (maskByte node.cidr)
  cidr := node.cidr
  removeMe := false

/-- The allowed IPs of a peer in `get_peer`, in the order of its list and as one message of
any size. -/
def Table.getPeer (t : Table P) (p : P) : Option (List Attr) :=
  (t.allowedipsList p).mapM fun n => (t.nodes n).map Node.readNode

section Set

variable [DecidableEq P]

/-- `set_allowedip`, when memory suffices.  The length of the address has to fit its family,
and the prefix has to fit the address. -/
def Table.setAllowedip (t : Table P) (p : P) (attr : Attr) : Option (Code × Table P) :=
  if h : attr.cidr ≤ attr.family.bits ∧ attr.ip.length = attr.family.bytes then
    if attr.removeMe then t.run (.remove attr.family ⟨attr.ip, h.2⟩ attr.cidr (some p))
    else t.run (.insert attr.family ⟨attr.ip, h.2⟩ attr.cidr (some p) true true)
  else some (.einval, t)

/-- The loop over `WGPEER_A_ALLOWEDIPS` in `set_peer`: it ends at the first error. -/
def Table.setPeer (t : Table P) (p : P) : List Attr → Option (Code × Table P)
  | [] => some (.ok, t)
  | attr :: rest => do
      let (code, t) ← t.setAllowedip p attr
      if code = .ok then t.setPeer p rest else some (code, t)

/-- One message after the other for several peers. -/
def Table.setPeers (t : Table P) : List (P × List Attr) → Option (Code × Table P)
  | [] => some (.ok, t)
  | (p, attrs) :: rest => do
      let (code, t) ← t.setPeer p attrs
      if code = .ok then t.setPeers rest else some (code, t)

end Set

/-! ## What is read

The stored address goes back to network order, and the bits behind the prefix are cleared:
whole bytes by `memset`, the rest of the last byte by a mask.  Both are the same statement
about one bit (`Shaped.readNode_bit`). -/

theorem swapEndian_swapEndian {f : Family} (a : Bytes) (long : f.bytes ≤ a.length) :
    swapEndian f (swapEndian f a) = a.take f.bytes := by
  cases f with
  | v4 =>
      simp only [Family.bytes, Family.bits] at long ⊢
      simp [swapEndian, List.take_of_length_le]
  | v6 =>
      simp only [Family.bytes, Family.bits] at long ⊢
      have first : (a.take 8).length = 8 := by simp; omega
      have second : ((a.drop 8).take 8).length = 8 := by simp; omega
      have whole : a.take 8 ++ (a.drop 8).take 8 = a.take 16 := by
        rw [← List.take_add]
      simp [swapEndian, first, second, List.take_of_length_le, whole]

theorem length_swapEndian_of_le {f : Family} {a : Bytes} (long : f.bytes ≤ a.length) :
    (swapEndian f a).length = f.bytes := by
  cases f with
  | v4 => simp_all [swapEndian, Family.bytes, Family.bits]
  | v6 => simp_all [swapEndian, Family.bytes, Family.bits]; omega

/-- `swap_endian` the other way, from host order to network order. -/
theorem netBits_swapEndian {f : Family} {a : Bytes} (long : f.bytes ≤ a.length) :
    netBits f (swapEndian f a) = addrBits f a := by
  rw [← addrBits_swapEndian (length_swapEndian_of_le long), swapEndian_swapEndian a long]
  refine List.map_congr_left fun i member => ?_
  simpa using Node.addrBit_append (b := []) (List.mem_range.mp member) long

theorem maskByte_getLsbD (cidr j : ℕ) (byte : BitVec 8) (small : j < 8) :
    (maskByte cidr byte).getLsbD j =
      (decide ((8 - cidr % 8) % 8 ≤ j) && byte.getLsbD j) := by
  have ones : ∀ k < 8, (255#8).getLsbD k = true := by decide
  by_cases late : (8 - cidr % 8) % 8 ≤ j
  · have inside : j - (8 - cidr % 8) % 8 < 8 := by omega
    simp [maskByte, late, small, ones _ inside, Nat.not_lt.mpr late]
  · simp [maskByte, late, Nat.lt_of_not_le late]

namespace Node

variable {node : Node P}

theorem Shaped.length_readNode (shaped : node.Shaped) :
    node.readNode.ip.length = node.bitlen.bytes := by
  have cidr_le := shaped.cidr_le
  have whole : 8 * node.bitlen.bytes = node.bitlen.bits := by cases node.bitlen <;> rfl
  have bytes := length_swapEndian_of_le shaped.long
  simp only [readNode]
  split <;> simp [bytes] <;> omega

/-- A bit that is read: that of the address, up to the end of the prefix.  It lies in a byte
before the last one of the prefix, in that byte, or behind it, and only the middle case
needs the mask. -/
theorem Shaped.readNode_bit (shaped : node.Shaped) {i : ℕ} (small : i < node.bitlen.bits) :
    (node.readNode.ip.getD (i / 8) 0).getLsbD (7 - i % 8) =
      (decide (i < node.cidr) &&
        ((swapEndian node.bitlen node.bits).getD (i / 8) 0).getLsbD (7 - i % 8)) := by
  have whole : 8 * node.bitlen.bytes = node.bitlen.bits := by cases node.bitlen <;> rfl
  have bytes := length_swapEndian_of_le shaped.long
  have cidr_le := shaped.cidr_le
  have inside : i / 8 < node.bitlen.bytes := by omega
  have padded : ((swapEndian node.bitlen node.bits).take ((node.cidr + 7) / 8) ++
      List.replicate (node.bitlen.bytes - (node.cidr + 7) / 8) 0)[i / 8]? =
      some (if i / 8 < (node.cidr + 7) / 8 then
        (swapEndian node.bitlen node.bits).getD (i / 8) 0 else 0) := by
    have length : ((swapEndian node.bitlen node.bits).take ((node.cidr + 7) / 8)).length =
        (node.cidr + 7) / 8 := by simp [bytes]; omega
    rw [List.getElem?_append, length]
    split
    · next early => simp [early, bytes, inside]
    · next late => rw [List.getElem?_replicate, if_pos (by omega)]
  simp only [readNode, List.getD_eq_getElem?_getD ]
  split
  · next zero => simp [zero]
  · next positive =>
      rw [List.getElem?_modify, padded]
      by_cases last : (node.cidr + 7) / 8 - 1 = i / 8
      · have early : i / 8 < (node.cidr + 7) / 8 := by omega
        have cut : (8 - node.cidr % 8) % 8 ≤ 7 - i % 8 ↔ i < node.cidr := by omega
        simp [last, early, maskByte_getLsbD _ _ _ (show 7 - i % 8 < 8 by omega), cut]
      · by_cases early : i / 8 < (node.cidr + 7) / 8
        · have before : i < node.cidr := by omega
          simp [last, early, before]
        · have after : ¬ i < node.cidr := by omega
          simp [last, early, after]

/-- **What is read is the prefix of the node**, followed by zeros.  Hence the first `cidr`
bits of what is read are the prefix again, which is all that setting it needs. -/
theorem Shaped.netBits_readNode (shaped : node.Shaped) :
    netBits node.bitlen node.readNode.ip =
      node.pre ++ List.replicate (node.bitlen.bits - node.cidr) false := by
  have cidr_le := shaped.cidr_le
  have read : ∀ i < node.bitlen.bits,
      ((swapEndian node.bitlen node.bits).getD (i / 8) 0).getLsbD (7 - i % 8) =
        addrBit node.bitlen node.bits i := by
    intro i small
    have bits := congrArg (fun l => l[i]?) (netBits_swapEndian shaped.long)
    simpa [netBits, addrBits, small] using bits
  refine List.ext_getElem? fun i => ?_
  by_cases small : i < node.bitlen.bits
  · have left : (netBits node.bitlen node.readNode.ip)[i]? =
        some (decide (i < node.cidr) && addrBit node.bitlen node.bits i) := by
      rw [← read i small, ← shaped.readNode_bit small]
      simp [netBits, small]
    rw [left, List.getElem?_append, shaped.length_pre]
    split
    · next early => simp [pre, early, addrBits_getElem? _ _ small]
    · next late => simp [late, List.getElem?_replicate]; omega
  · rw [List.getElem?_eq_none (by simpa using small), List.getElem?_eq_none]
    simp only [List.length_append, shaped.length_pre, List.length_replicate]
    omega

end Node

/-! ## Restoring a dump

A dump is restored attribute by attribute and peer by peer, each into a table that already
holds what came before.  The routes set so far are therefore part of the statements, and
since no two peers have a route for the same prefix, a later attribute does not undo an
earlier one. -/

/-- The routes to some of the peers. -/
def Routes.restrict [DecidableEq P] (routes : Routes P) (peers : List P) : Routes P :=
  fun f q => (routes f q).filter (· ∈ peers)

namespace Table

variable {t : Table P} {routes : Routes P}

/-- An attribute for the prefix of a route to the peer. -/
def Describes (routes : Routes P) (p : P) (attr : Attr) : Prop :=
  attr.cidr ≤ attr.family.bits ∧ attr.ip.length = attr.family.bytes ∧ attr.removeMe = false ∧
    routes attr.family ((netBits attr.family attr.ip).take attr.cidr) = some p

/-- A traversal without a failure. -/
theorem exists_mapM {α β : Type} {f : α → Option β} (l : List α)
    (succeeds : ∀ a ∈ l, ∃ b, f a = some b) :
    ∃ bs, l.mapM f = some bs ∧ ∀ b, b ∈ bs ↔ ∃ a ∈ l, f a = some b := by
  induction l with
  | nil => exact ⟨[], rfl, by simp⟩
  | cons a l ih =>
      obtain ⟨b, first⟩ := succeeds a List.mem_cons_self
      obtain ⟨bs, rest, each⟩ := ih fun c member => succeeds c (List.mem_cons_of_mem _ member)
      exact ⟨b :: bs, by simp [List.mapM_cons, first, rest], fun c => by
        simp [each, first, eq_comm]⟩

/-- The dump of a peer: its routes and nothing else.  Every attribute is about a route to
the peer, and every such route has its attribute. -/
theorem getPeer_spec (good : t.Good routes) (p : P) :
    ∃ attrs, t.getPeer p = some attrs ∧ (∀ attr ∈ attrs, Describes routes p attr) ∧
      ∀ f q, routes f q = some p →
        ∃ attr ∈ attrs, attr.family = f ∧ (netBits f attr.ip).take attr.cidr = q := by
  have read : ∀ n ∈ t.allowedipsList p, ∃ node, t.nodes n = some node ∧ node.peer = some p := by
    intro n member
    obtain ⟨f, q, stored⟩ := good.sound.listed.mp member
    obtain ⟨g, tagged, -, -, peer⟩ := View.entry_eq_some.mp stored
    obtain ⟨node, alive, rfl⟩ := view_tag_eq_some.mp tagged
    exact ⟨node, alive, peer⟩
  have cut : ∀ {node : Node P}, node.Shaped →
      (netBits node.bitlen node.readNode.ip).take node.cidr = node.pre := by
    intro node shaped
    rw [shaped.netBits_readNode, List.take_left' shaped.length_pre]
  have succeeds : ∀ n ∈ t.allowedipsList p,
      ∃ attr, (t.nodes n).map Node.readNode = some attr := by
    intro n member
    obtain ⟨node, alive, -⟩ := read n member
    exact ⟨node.readNode, by simp [alive]⟩
  obtain ⟨attrs, dumped, each⟩ := exists_mapM (t.allowedipsList p) succeeds
  refine ⟨attrs, dumped, fun attr member => ?_, fun f q bound => ?_⟩
  · obtain ⟨n, listed, found⟩ := (each attr).mp member
    obtain ⟨node, alive, peer⟩ := read n listed
    obtain rfl : node.readNode = attr := by simpa [alive] using found
    have shaped := good.shaped alive
    refine ⟨shaped.cidr_le, shaped.length_readNode, rfl, ?_⟩
    have tagged : t.view.tag n = some node.tag := view_tag_eq_some.mpr ⟨node, alive, rfl⟩
    show routes node.bitlen ((netBits node.bitlen node.readNode.ip).take node.cidr) = some p
    rw [cut shaped]
    exact (good.sound.route_eq tagged).trans peer
  · obtain ⟨n, g, tagged, rfl, rfl, peer⟩ := (good.sound.represents f q p).mp bound
    have listed : n ∈ t.allowedipsList p := good.sound.listed.mpr ⟨g.family, g.pre, by
      rw [View.entry_of_tag tagged, Tag.entry, peer]⟩
    obtain ⟨node, alive, rfl⟩ := view_tag_eq_some.mp tagged
    exact ⟨node.readNode, (each _).mpr ⟨n, listed, by simp [alive]⟩, rfl,
      cut (good.shaped alive)⟩

variable [DecidableEq P]

/-- Setting the attributes of a peer sets the routes they describe, and leaves all others as
they were. -/
theorem setPeer_good {r : Routes P} (good : t.Good r) {p : P} {attrs : List Attr}
    (described : ∀ attr ∈ attrs, Describes routes p attr) :
    ∃ t' r', t.setPeer p attrs = some (.ok, t') ∧ t'.Good r' ∧
      ∀ f q, ((∃ attr ∈ attrs, attr.family = f ∧ (netBits f attr.ip).take attr.cidr = q) →
          r' f q = some p) ∧
        ((¬ ∃ attr ∈ attrs, attr.family = f ∧ (netBits f attr.ip).take attr.cidr = q) →
          r' f q = r f q) := by
  induction attrs generalizing t r with
  | nil => exact ⟨t, r, rfl, good, by simp⟩
  | cons attr rest ih =>
      obtain ⟨width, size, keep, -⟩ := described attr List.mem_cons_self
      obtain ⟨code, t₁, runs, returns, good₁⟩ :=
        run_good good (.insert attr.family ⟨attr.ip, size⟩ attr.cidr (some p) true true)
      obtain rfl : code = .ok := by
        cases code with
        | ok => rfl
        | einval =>
            have := returns.1.mp rfl
            simp at this
            omega
        | enomem => simpa using returns.2 rfl
      have set : t.setAllowedip p attr = some (.ok, t₁) := by
        simp [setAllowedip, width, size, keep, runs]
      obtain ⟨t', r', rest', good', after⟩ :=
        ih good₁ fun attr member => described attr (List.mem_cons_of_mem _ member)
      refine ⟨t', r', by simp [setPeer, set, rest'], good', fun f q => ?_⟩
      obtain ⟨set', kept⟩ := after f q
      by_cases later : ∃ attr ∈ rest, attr.family = f ∧ (netBits f attr.ip).take attr.cidr = q
      · refine ⟨fun _ => set' later, fun none => absurd ?_ none⟩
        obtain ⟨other, member, same⟩ := later
        exact ⟨other, List.mem_cons_of_mem _ member, same⟩
      · rw [kept later]
        simp only [List.mem_cons, exists_eq_or_imp, later, or_false, Routes.apply, Routes.set,
          if_true]
        constructor
        · rintro ⟨rfl, rfl⟩; simp
        · intro other
          refine if_neg ?_
          rintro ⟨rfl, rfl⟩
          exact other ⟨rfl, rfl⟩

/-- Setting the dumps of several peers: the routes to the peers set so far.  By induction on
the peers, with those that are done in `done`. -/
theorem setPeers_good (good : t.Good routes) (peers done : List P) {t₀ : Table P}
    {r : Routes P} (good₀ : t₀.Good r)
    (sofar : ∀ f q x, r f q = some x ↔ routes f q = some x ∧ x ∈ done) :
    ∃ dump t' r', peers.mapM (fun p => (t.getPeer p).map (p, ·)) = some dump ∧
      t₀.setPeers dump = some (.ok, t') ∧ t'.Good r' ∧
      ∀ f q x, r' f q = some x ↔ routes f q = some x ∧ (x ∈ peers ∨ x ∈ done) := by
  induction peers generalizing t₀ r done with
  | nil => exact ⟨[], t₀, r, rfl, rfl, good₀, by simpa using sofar⟩
  | cons p peers ih =>
      obtain ⟨attrs, dumped, described, complete⟩ := getPeer_spec good p
      obtain ⟨t₁, r₁, set, good₁, after⟩ := setPeer_good good₀ described
      have sofar₁ : ∀ f q x, r₁ f q = some x ↔ routes f q = some x ∧ x ∈ p :: done := by
        intro f q x
        by_cases route : routes f q = some p
        · rw [(after f q).1 (complete f q route), route]
          simp only [Option.some.injEq, List.mem_cons]
          constructor
          · rintro rfl; exact ⟨rfl, .inl rfl⟩
          · exact fun h => h.1
        · have undescribed : ¬ ∃ attr ∈ attrs, attr.family = f ∧
              (netBits f attr.ip).take attr.cidr = q := by
            rintro ⟨attr, member, rfl, rfl⟩
            exact route (described attr member).2.2.2
          rw [(after f q).2 undescribed, sofar, List.mem_cons]
          constructor
          · exact fun ⟨bound, member⟩ => ⟨bound, .inr member⟩
          · rintro ⟨bound, rfl | member⟩
            · exact absurd bound route
            · exact ⟨bound, member⟩
      obtain ⟨dump, t', r', dumped', set', good', final⟩ := ih (p :: done) good₁ sofar₁
      refine ⟨(p, attrs) :: dump, t', r', by simp [List.mapM_cons, dumped, dumped'],
        by simp [setPeers, set, set'], good', fun f q x => ?_⟩
      rw [final]
      simp only [List.mem_cons]
      tauto

/-- **A dump restores the table.**  After any sequence of calls, what is read of some peers
can be set in an empty table without an error, and every lookup there has the answer of the
routes to those peers. -/
theorem lookup_after_restore (ops : List (Op P)) (peers : List P) :
    ∃ codes t dump t', (Table.init : Table P).runAll ops = some (codes, t) ∧
      peers.mapM (fun p => (t.getPeer p).map (p, ·)) = some dump ∧
      (Table.init : Table P).setPeers dump = some (.ok, t') ∧
      ∀ f (ip : Addr f), t'.lookup f ip.bytes =
        some (List.longestMatch
          ((Routes.applyAll (fun _ _ => none) ops codes : Routes P).restrict peers f)
          (netBits f ip.bytes)) := by
  obtain ⟨codes, t, runs, -, good⟩ := runAll_good (init_good (P := P)) ops
  obtain ⟨dump, t', r', dumped, set, good', final⟩ :=
    setPeers_good good peers [] init_good (by simp)
  have same : r' = (Routes.applyAll (fun _ _ => none) ops codes : Routes P).restrict peers := by
    funext f q
    refine Option.ext fun x => ?_
    simp [final, Routes.restrict, Option.filter_eq_some_iff]
  exact ⟨codes, t, dump, t', runs, dumped, set, fun f ip => same ▸
    lookup_eq good'.sound.linked good'.shaped good'.sound.represents ip⟩

end Table

end AllowedIps
end WgReceivePath
