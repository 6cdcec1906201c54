import Drot.Core.Ledger
import Drot.L4Node.Relying
import Drot.L5System.Messages
import Drot.L5System.Publication

/-!
# Every published record is accepted, every acknowledged update is kept

`ledger` is the demo with a record of what its threads returned, on nodes whose
`make_proof` is `SnarkVerifier.makeProof` over leanVM. The signatures in a quorum
verify, so what an aggregator builds a relying party of the anchor accepts; and the
record it placed is still in its place in the history when the requester reads
`StatusUpdated`, because nothing removes one.

* `published_accepted`: in every reachable state every record that was ever placed
  in storage is accepted by every relying party of the anchor, with the version
  that is its place, if leanVM proves what it should.
* `acknowledged_kept`: in every reachable state every `StatusUpdated` that was
  returned names a version in the history, that version is the one before it with
  the requested issuance or revocation applied, and no version was acknowledged
  twice. Nothing is assumed of leanVM.
-/
namespace Drot.L5.Demo
open Bytes Ssz Bitmap Text L1.Message L3.Protocol L4 L4.RawVerifier L4.Relying L2.SlotCounter Prog

/-- What the requester reads in an answer. -/
def acknowledged : Reply → Option StatusUpdated
  | some (kind, payload) => if kind = msgStatusUpdated then StatusUpdated.decode payload else none
  | none => none

/-- The form a mode publishes. -/
def form {H : Hashes} (mode : Mode) (xmssVerify : XmssVerify) (V : SnarkVerifier.LeanVM) :
    Form (Anchor H) :=
  match mode with
  | .raw => rawForm H xmssVerify
  | .snark => snarkForm H V

section
variable {H : Hashes} (S : Setup H) (V : SnarkVerifier.LeanVM) (rate : Nat)

def Setup.anchor : Anchor H := ⟨S.committee, .inl ⟨_, _, _, S.built⟩⟩

def Setup.form : Form (Anchor H) := Demo.form S.mode S.xmssVerify V

/-- A relying party of the anchor reads this version and this list. -/
def Accepted (bytes : Bytes) (version : UInt32) (list : List Entry) : Prop :=
  ∃ r, (S.form V).Authentic S.anchor bytes r ∧ (S.form V).version r = version ∧
    (S.form V).list r = list

/-- What `make_proof` answers, where it is called.
mirrors src/demo/src/bin/signer.rs:616-640 -/
def Proven : (op : DemoOp) → DemoAns op → Prop
  | .makeProof list version quorum, some proof => S.mode = .snark →
    SnarkVerifier.makeProof H V S.committee .wotsXmss
      (SnarkVerifier.rawsOf S.committee quorum) list version rate = some proof.1
  | _, _ => True

/-- The ten nodes on machines with a working prover. -/
def prover : Machine DemoOp DemoAns World := machine.restrict (Proven S V rate)

abbrev Ledger := World × List (Request × Reply)

/-- The same, and what was returned. -/
def ledger : LTS (Sys DemoOp DemoAns Ledger Empty Request Reply) Act :=
  noted (prover S V rate) (api S) (· = World.start)

/-- The list before version `k`. -/
def ListBefore (w : World) (k : Nat) (list : List Entry) : Prop :=
  k = 0 ∧ list = [] ∨ ∃ j, k = j + 1 ∧ ListAt S w j list

/-- `list` is `before` with what was asked for applied. -/
def Applies (request : StatusRequest) (before list : List Entry) (credential : Bytes) : Prop :=
  request.action = actionIssue ∧ addValid H.sha3 before credential = (list, true) ∨
    request.action = actionRevoke ∧ credential = request.data ∧
      revoke H.sha3 before credential = (list, true)

/-- The history has the update that the answer reports. -/
def Holds (w : World) (c : Request) (u : StatusUpdated) : Prop :=
  ∃ node payload request before list, c = .statusRequest node payload ∧
    StatusRequest.decode payload = some request ∧ ListBefore S w u.version.toNat before ∧
    ListAt S w u.version.toNat list ∧ Applies (H := H) request before list u.credential

end

section
variable {H : Hashes} {S : Setup H} {V : SnarkVerifier.LeanVM} {rate : Nat}
variable {w w' : World} {p rx : Nat}

/-! ## What an aggregator builds is accepted -/

theorem decodeList_form (mode : Mode) (xmssVerify : XmssVerify) (bytes : Bytes) :
    decodeList mode bytes = ((form (H := H) mode xmssVerify V).fromBytes bytes).map fun r =>
      ((form mode xmssVerify V).version r, (form mode xmssVerify V).list r) := by
  cases mode <;> rfl

/-- An authentic record is accepted for what the nodes read in it. -/
theorem Accepted.of_decodeList {bytes : Bytes} {version : UInt32} {list : List Entry}
    {r : (S.form V).Record} (h : (S.form V).Authentic S.anchor bytes r)
    (hd : decodeList S.mode bytes = .ok (version, list)) : Accepted S V bytes version list := by
  rw [decodeList_form (H := H) (V := V) S.mode S.xmssVerify bytes] at hd
  have hr : (form S.mode S.xmssVerify V).fromBytes bytes = .ok r := h.1
  rw [hr] at hd
  cases hd
  exact ⟨r, h, rfl, rfl⟩

theorem Setup.members_length (S : Setup H) : S.committee.members.length = nMembers := by
  rw [(Committee.new_ok.mp S.built).2.2.2]
  exact S.size

theorem Setup.t_eq (S : Setup H) : S.committee.t = threshold := by
  rw [(Committee.new_ok.mp S.built).2.2.2]

/-- The signatures verify for the proposal, at the slot of its version. -/
def Valid (S : Setup H) (x : Proposal) (quorum : List (Nat × XmssSignature)) : Prop :=
  ∃ slot, S.committee.slotFor x.version = some slot ∧ ∀ y ∈ quorum, ∃ pk,
    S.committee.members[y.1]? = some pk ∧
    S.xmssVerify pk (S.committee.messageFor H .wotsXmss x.list x.version) y.2 slot = true

theorem Valid.validSet {x : Proposal} {quorum : List (Nat × XmssSignature)} (h : Valid S x quorum)
    (hd : (quorum.map Prod.fst).Nodup) :
    ∃ slot, ValidSet H S.xmssVerify S.committee .wotsXmss x.list x.version slot quorum := by
  obtain ⟨slot, hslot, hv⟩ := h
  exact ⟨slot, hslot, hd, hv⟩

theorem ask_yields {Q : (op : DemoOp) → DemoAns op → Prop} {α : Type} {op : DemoOp}
    {k : DemoAns op → DemoProg α} {a : α} :
    Yields Q (ask op >>= k) a ↔ ∃ r, Q op r ∧ Yields Q (k r) a := yields_call

theorem only_ask {P : DemoOp → Prop} {α : Type} {op : DemoOp} {k : DemoAns op → DemoProg α}
    (hop : P op) (h : ∀ r, (k r).Only P) : (ask op >>= k : DemoProg α).Only P := ⟨hop, h⟩

/-- The receiving loop counts a signature after it has verified. -/
theorem yields_collect {Q : (op : DemoOp) → DemoAns op → Prop} {message : Blob 32} {slot : UInt32}
    {rx' : Nat} {P : Nat × XmssSignature → Prop}
    (hP : ∀ i pk sig, S.committee.members[i]? = some pk → S.xmssVerify pk message sig slot = true →
      P (i, sig)) (senders : Nat) {quorum quorum' : List (Nat × XmssSignature)}
    (hq : ∀ y ∈ quorum, P y) (h : Yields Q (collect S message slot rx' senders quorum) quorum') :
    ∀ y ∈ quorum', P y := by
  induction senders generalizing quorum with
  | zero =>
    obtain rfl := yields_ret.mp h
    exact hq
  | succ senders ih =>
    unfold collect at h
    split at h
    · obtain rfl := yields_ret.mp h
      exact hq
    · obtain ⟨r, -, h⟩ := ask_yields.mp h
      rcases r with _ | ⟨i, sig⟩
      · obtain rfl := yields_ret.mp h
        exact hq
      · dsimp only at h
        split at h
        · obtain rfl := yields_ret.mp h
          exact hq
        · rename_i pk hpk
          split at h
          · rename_i hv
            refine ih (fun y hy => ?_) h
            rcases List.mem_append.mp hy with hy | hy
            · exact hq y hy
            · rw [List.mem_singleton.mp hy]
              exact hP i pk sig hpk hv
          · exact ih hq h

theorem yields_collectSignatures {Q : (op : DemoOp) → DemoAns op → Prop} {x : Proposal}
    {quorum : List (Nat × XmssSignature)} (h : Yields Q (collectSignatures S x) (some quorum)) :
    Valid S x quorum := by
  unfold collectSignatures at h
  dsimp only at h
  split at h
  · cases yields_ret.mp h
  · rename_i slot hslot
    obtain ⟨rx', -, h⟩ := ask_yields.mp h
    obtain ⟨q, hq, h⟩ := yields_bind.mp h
    cases yields_ret.mp h
    refine ⟨slot, hslot, yields_collect (fun i pk sig hpk hv => ⟨pk, hpk, hv⟩) nMembers ?_ hq⟩
    nofun

/-- A record of at most ten signatures over a list that fits a frame is short. -/
theorem length_toBytes_new {list : List Entry} {version : UInt32}
    {quorum : List (Nat × XmssSignature)} {r : StatusList} (hlen : 32 * list.length ≤ maxFrame)
    (h : StatusList.new .wotsXmss list version nMembers quorum = .ok r) :
    r.toBytes.length < 2 ^ 32 := by
  obtain ⟨hd, hlt, hn⟩ := StatusList.of_new_ok h
  obtain ⟨r', hr', -, hlist, -, hslots, -, hsigs⟩ :=
    statusList_new_ok .wotsXmss list version hn hd hlt
  obtain rfl : r' = r := Except.ok.inj (hr'.symm.trans h)
  have hsub : quorum.map Prod.fst ⊆ List.range nMembers := by
    intro i hi
    obtain ⟨y, hy, rfl⟩ := List.mem_map.mp hi
    exact List.mem_range.mpr (hlt y hy)
  have hq := (List.subperm_of_subset hd hsub).length_le
  rw [List.length_map, List.length_range] at hq
  have hwire := r'.wire.length_encode
  have hbits : r'.wire.signers.bits.length = nMembers := hslots
  have hl : r'.wire.statusList.length = list.length := congrArg List.length hlist
  have hs : r'.wire.signatures.length = quorum.length := by
    show r'.signatures.length = _
    rw [hsigs, List.length_map, (sortPairs_perm quorum).length_eq]
  rw [hbits, hl, hs] at hwire
  show r'.wire.encode.length < 2 ^ 32
  unfold nMembers at hwire hq
  unfold maxFrame at hlen
  omega

/-- A record of seven valid signatures is accepted by a relying party of the anchor. -/
theorem authentic_raw {x : Proposal} {quorum : List (Nat × XmssSignature)} {record : Bytes}
    (hlen : 32 * x.list.length ≤ maxFrame) (hv : Valid S x quorum)
    (hd : (quorum.map Prod.fst).Nodup) (ht : threshold ≤ quorum.length)
    (h : (StatusList.new .wotsXmss x.list x.version nMembers quorum).map StatusList.toBytes =
      .ok record) : ∃ r, (rawForm H S.xmssVerify).Authentic S.anchor record r := by
  obtain ⟨slot, hset⟩ := hv.validSet hd
  obtain ⟨r, hr, -, -, -, hcount, haccept⟩ := verifyStatusList_new S.anchor.wellFormed hset
  have hm : S.anchor.committee.members.length = nMembers := S.members_length
  rw [hm] at hr
  rw [hr] at h
  cases h
  refine ⟨r, StatusList.fromBytes_toBytes hcount (length_toBytes_new hlen hr), ?_⟩
  have hok : verifyStatusList H S.xmssVerify S.anchor.committee r = some true := by
    apply haccept.mpr
    show S.committee.t ≤ _
    rw [S.t_eq]
    exact ht
  simp only [rawForm, hok, Option.get_some]

theorem length_toBytes_snark {list : List Entry} (version : UInt32) (proof : ProofBytes)
    (hlen : 32 * list.length ≤ maxFrame) :
    (SnarkStatusList.toBytes ⟨.wotsXmss, list, version, proof.1⟩).length < 2 ^ 32 := by
  have hp := proof.2
  unfold SnarkStatusList.toBytes encodeFields
  rw [List.length_append, length_header _ _ (SnarkStatusList.fits_wireFields _)]
  simp only [SnarkStatusList.wireFields, fixedLen, List.map_cons, List.map_nil, Shape.width,
    List.sum_cons, List.sum_nil, varParts, List.flatten_cons, List.flatten_nil,
    List.length_append, length_encodeVec, List.length_nil]
  unfold maxFrame at hlen
  omega

theorem authentic_snark {x : Proposal} {quorum : List (Nat × XmssSignature)} {proof : ProofBytes}
    (hV : V.Complete S.xmssVerify rate) (hlen : 32 * x.list.length ≤ maxFrame)
    (hv : Valid S x quorum) (hd : (quorum.map Prod.fst).Nodup) (ht : threshold ≤ quorum.length)
    (h : SnarkVerifier.makeProof H V S.committee .wotsXmss
      (SnarkVerifier.rawsOf S.committee quorum) x.list x.version rate = some proof.1) :
    ∃ r, (snarkForm H V).Authentic S.anchor
      (SnarkStatusList.toBytes ⟨.wotsXmss, x.list, x.version, proof.1⟩) r := by
  obtain ⟨slot, hset⟩ := hv.validSet hd
  have hne : quorum ≠ [] := by
    intro he
    rw [he] at ht
    exact absurd ht (by decide)
  obtain ⟨zkProof, hmake, haccept⟩ :=
    SnarkVerifier.verify_makeProof hV S.anchor.wellFormed hset hne (List.Perm.refl _)
  have he : zkProof = proof.1 := Option.some.inj (hmake.symm.trans h)
  refine ⟨⟨.wotsXmss, x.list, x.version, proof.1⟩, ?_, ?_⟩
  · exact SnarkStatusList.fromBytes_toBytes (length_toBytes_snark x.version proof hlen)
  · rw [← he]
    apply haccept.mpr
    show S.committee.t ≤ _
    rw [S.t_eq]
    exact ht

/-- What an aggregator builds from a quorum is accepted for what was proposed. -/
theorem yields_buildRecord {node : Nat} {x : Proposal} {quorum : List (Nat × XmssSignature)}
    {record : Bytes} (hV : S.mode = .snark → V.Complete S.xmssVerify rate)
    (hlen : 32 * x.list.length ≤ maxFrame) (hv : Valid S x quorum)
    (hd : (quorum.map Prod.fst).Nodup) (ht : threshold ≤ quorum.length)
    (h : Yields (Proven S V rate) (buildRecord S node x.list x.version quorum)
      (some (.ok record))) : Accepted S V record x.version x.list := by
  unfold buildRecord at h
  cases hm : S.mode with
  | raw =>
    rw [hm] at h
    have hnew := Option.some.inj (yields_ret.mp h)
    have hform : S.form V = rawForm H S.xmssVerify := by
      unfold Setup.form form
      rw [hm]
    have ha : ∃ r, (S.form V).Authentic S.anchor record r := by
      rw [hform]
      exact authentic_raw hlen hv hd ht hnew.symm
    obtain ⟨r, hr⟩ := ha
    refine .of_decodeList hr ?_
    rw [hm]
    exact decodeList_new hlen hnew.symm
  | snark =>
    rw [hm] at h
    dsimp only at h
    split at h
    · obtain ⟨r, hr, h⟩ := ask_yields.mp h
      cases r with
      | none => cases yields_ret.mp h
      | some proof =>
        cases yields_ret.mp h
        have hform : S.form V = snarkForm H V := by
          unfold Setup.form form
          rw [hm]
        have ha : ∃ r, (S.form V).Authentic S.anchor
            (SnarkStatusList.toBytes ⟨.wotsXmss, x.list, x.version, proof.1⟩) r := by
          rw [hform]
          exact authentic_snark (hV hm) hlen hv hd ht (hr hm)
        obtain ⟨r, hr⟩ := ha
        refine .of_decodeList hr ?_
        rw [hm]
        exact decodeList_snark x.version proof hlen
    · cases yields_ret.mp h

/-- What the handler of a request changes in the list. -/
theorem applies_of_applyRequest {Q : (op : DemoOp) → DemoAns op → Prop} {node : Nat}
    {request : StatusRequest} {version : UInt32} {before list : List Entry} {credential : Bytes}
    (h : Yields Q (applyRequest (H := H) node request version before) (.ok (list, credential))) :
    Applies (H := H) request before list credential := by
  unfold applyRequest at h
  split at h
  · rename_i hissue
    split at h
    · cases yields_ret.mp h
    · cases yields_ret.mp h
    · obtain ⟨c, -, h⟩ := ask_yields.mp h
      split at h
      · cases yields_ret.mp h
      · rename_i list' hadd
        cases yields_ret.mp h
        exact .inl ⟨hissue, hadd⟩
  · split at h
    · rename_i hrevoke
      split at h
      · cases yields_ret.mp h
      · split at h
        · cases yields_ret.mp h
        · rename_i list' hrev
          cases yields_ret.mp h
          exact .inr ⟨hrevoke, rfl, hrev⟩
    · cases yields_ret.mp h

/-! ## The pact of the ledger -/

theorem ListAt.grows {k : Nat} {list : List Entry} (h : ListAt S w k list) (hg : Grows w w') :
    ListAt S w' k list := by
  obtain ⟨x, version, hk, hd, hv⟩ := h
  exact ⟨x, version, getElem?_of_prefix hg.history hk, hd, hv⟩

theorem ListBefore.grows {k : Nat} {list : List Entry} (h : ListBefore S w k list)
    (hg : Grows w w') : ListBefore S w' k list := by
  rcases h with h0 | ⟨j, hj, hl⟩
  · exact .inl h0
  · exact .inr ⟨j, hj, hl.grows hg⟩

theorem Holds.grows {c : Request} {u : StatusUpdated} (h : Holds S w c u) (hg : Grows w w') :
    Holds S w' c u := by
  obtain ⟨node, payload, request, before, list, hc, hd, hb, hl, ha⟩ := h
  exact ⟨node, payload, request, before, list, hc, hd, hb.grows hg, hl.grows hg, ha⟩

theorem Holds.lt {c : Request} {u : StatusUpdated} (h : Holds S w c u) :
    u.version.toNat < w.history.length := by
  obtain ⟨_, _, _, _, _, _, _, _, ⟨x, _, hk, -⟩, -⟩ := h
  exact (List.getElem?_eq_some_iff.mp hk).1

/-- A quorate round of `p` is for version `v`. -/
def Won (w : World) (p : Nat) (v : UInt32) : Prop :=
  ∃ rx x, Opened w rx p x ∧ Quorate w rx ∧ x.version = v

theorem Won.grows {v : UInt32} (h : Won w p v) (hg : Grows w w') : Won w' p v := by
  obtain ⟨rx, x, ho, hq, hv⟩ := h
  exact ⟨rx, x, ho.grows hg, hq.grows hg, hv⟩

theorem Won.unique {q : Nat} {v : UInt32} (hi : Inv S w) (h : Won w p v) (h' : Won w q v) :
    p = q := by
  obtain ⟨rx, x, ho, hq, rfl⟩ := h
  obtain ⟨rx', y, ho', hq', hv⟩ := h'
  have := quorate_unique hi ho ho' hq hq' hv.symm
  subst this
  exact (ho.unique ho').1

/-- The version an entry of the record acknowledges. -/
def acks (e : Request × Reply) : Option UInt32 := (acknowledged e.2).map StatusUpdated.version

variable (S V rate) in
/-- The nodes read this version and this list in the record, and so does a relying
party of the anchor, where the prover is complete. -/
def Genuine (record : Bytes) (version : UInt32) (list : List Entry) : Prop :=
  decodeList S.mode record = .ok (version, list) ∧
    ((S.mode = .snark → V.Complete S.xmssVerify rate) → Accepted S V record version list)

variable (S V rate) in
/-- What every reachable world with its record satisfies. -/
structure Books (x : Ledger) : Prop where
  inv : Inv S x.1
  genuine : ∀ k y, x.1.history[k]? = some y →
    ∃ version list, Genuine S V rate y.2 version list ∧ version.toNat = k
  kept : ∀ e ∈ x.2, ∀ u, acknowledged e.2 = some u → Holds S x.1 e.1 u
  once : (x.2.filterMap acks).Nodup

/-- Thread `p` acknowledges versions of its own rounds. -/
structure Pays (p : Nat) (x y : Ledger) : Prop where
  guar : Guarantee p x.1 y.1
  record : y.2 = x.2 ∨ ∃ e, y.2 = x.2 ++ [e] ∧ ∀ v, acks e = some v → Won x.1 p v

/-- The others acknowledge none of `p`'s rounds. -/
structure Counts (p : Nat) (x y : Ledger) : Prop where
  rely : Relies p x.1 y.1
  mine : ∀ v, Won x.1 p v → v ∈ y.2.filterMap acks → v ∈ x.2.filterMap acks

theorem Counts.trans {x y z : Ledger} (h : Counts p x y) (h' : Counts p y z) : Counts p x z :=
  ⟨h.rely.trans h'.rely, fun v hw hm => h.mine v hw (h'.mine v (hw.grows h.rely.grows) hm)⟩

theorem Pays.counts {q : Nat} {x y : Ledger} (hne : q ≠ p) (hi : Books S V rate x) (hi' : Books S V rate y)
    (h : Pays q x y) : Counts p x y := by
  refine ⟨h.guar.relies hne hi.inv hi'.inv, fun v hw hm => ?_⟩
  rcases h.record with he | ⟨e, he, hpay⟩
  · rwa [he] at hm
  · rw [he, List.filterMap_append] at hm
    rcases List.mem_append.mp hm with hm | hm
    · exact hm
    · obtain ⟨e', he', hv⟩ := List.mem_filterMap.mp hm
      rw [List.mem_singleton.mp he'] at hv
      exact absurd (Won.unique hi.inv (hpay v hv) hw) hne

variable (S V rate) in
def bookPact : Pact Ledger where
  inv := Books S V rate
  guar := Pays
  rely := Counts
  refl p x := ⟨(pact S).refl p x.1, fun _ _ h => h⟩
  trans _ _ _ _ h h' := h.trans h'
  other _ _ _ _ hne hi hi' h := h.counts hne hi hi'

/-- The machine of the ledger. -/
abbrev books (S : Setup H) (V : SnarkVerifier.LeanVM) (rate : Nat) : Machine DemoOp DemoAns Ledger :=
  (prover S V rate).noting _

/-- Effects that place nothing. -/
def Quiet : DemoOp → Prop
  | .storage (.rename _ _) => False
  | _ => True

theorem history_of_quiet {op : DemoOp} (hq : Quiet op) {r : DemoAns op}
    (hx : exec p w op r w') : w'.history = w.history := by
  cases op with
  | storage op =>
    obtain ⟨v, -, rfl⟩ := hx
    cases op <;> first | rfl | cases hq
  | lockRound node => obtain ⟨-, rfl⟩ := hx; rfl
  | unlockRound node => cases hx; rfl
  | issue subject version node => cases hx; rfl
  | propose x => obtain ⟨-, rfl⟩ := hx; rfl
  | recvTimeout rx =>
    cases r with
    | none => cases hx; rfl
    | some y => obtain ⟨_, _, _, _, rfl⟩ := hx; rfl
  | makeProof list version quorum => cases hx; rfl
  | accept node => obtain ⟨rx, -, rfl⟩ := hx; rfl
  | signAt node message slot =>
    cases r with
    | error e => rcases hx with rfl | ⟨-, _, -, -, rfl⟩ <;> rfl
    | ok sig => obtain ⟨-, rfl⟩ := hx; rfl
  | send kind payload =>
    cases r with
    | error e => cases hx; rfl
    | ok u => obtain ⟨-, _, _, -, -, rfl⟩ := hx; rfl

/-- Books stay in order while nothing is placed and nothing returned. -/
theorem Books.quiet {x y : Ledger} (h : Books S V rate x) (hi : Inv S y.1) (hg : Grows x.1 y.1)
    (hh : y.1.history = x.1.history) (hr : y.2 = x.2) : Books S V rate y := by
  refine ⟨hi, fun k e hk => ?_, fun e he u hu => ?_, ?_⟩
  · rw [hh] at hk
    exact h.genuine k e hk
  · rw [hr] at he
    exact (h.kept e he u hu).grows hg
  · rw [hr]
    exact h.once

theorem lifts : Lifts machine (pact S) (books S V rate) (bookPact S V rate) Prod.fst Quiet p where
  inv _ h := h.inv
  rely _ _ h := h.rely
  exec _ _ _ _ _ h := h.1.2
  step _ _ _ _ hq hx hi hi' hg :=
    ⟨hi.quiet hi' hg.grows (history_of_quiet hq hx.1.2) hx.2, hg, .inl hx.2⟩

/-! ### Which effects place something -/

theorem quiet_currentRecord : currentRecord.Only Quiet := by
  refine only_ask trivial fun r => ?_
  cases r with
  | error e => trivial
  | ok f =>
    refine only_ask trivial fun r => ?_
    cases r <;> trivial

theorem quiet_collect {message : Blob 32} {slot : UInt32} (senders : Nat)
    (quorum : List (Nat × XmssSignature)) :
    (collect S message slot rx senders quorum).Only Quiet := by
  induction senders generalizing quorum with
  | zero => trivial
  | succ senders ih =>
    unfold collect
    split
    · trivial
    · refine only_ask trivial fun r => ?_
      rcases r with _ | ⟨i, sig⟩
      · trivial
      · dsimp only
        split
        · trivial
        · split
          · exact ih _
          · exact ih _

theorem quiet_collectSignatures (x : Proposal) : (collectSignatures S x).Only Quiet := by
  unfold collectSignatures
  dsimp only
  split
  · trivial
  · exact only_ask trivial fun r => only_bind (quiet_collect nMembers []) fun _ => trivial

theorem quiet_applyRequest (node : Nat) (request : StatusRequest) (version : UInt32)
    (list : List Entry) : (applyRequest (H := H) node request version list).Only Quiet := by
  unfold applyRequest
  split
  · split
    · trivial
    · trivial
    · refine only_ask trivial fun r => ?_
      split <;> trivial
  · split
    · split
      · trivial
      · split <;> trivial
    · trivial

theorem quiet_buildRecord (node : Nat) (list : List Entry) (version : UInt32)
    (quorum : List (Nat × XmssSignature)) :
    (buildRecord S node list version quorum).Only Quiet := by
  unfold buildRecord
  split
  · trivial
  · split
    · refine only_ask trivial fun r => ?_
      cases r <;> trivial
    · trivial

theorem quiet_onProposal (node : Nat) (payload : Bytes) :
    (onProposal S node payload).Only Quiet := by
  unfold onProposal
  split
  · trivial
  · refine only_bind quiet_currentRecord fun o => ?_
    split
    · trivial
    · split
      · trivial
      · split
        · trivial
        · refine only_ask trivial fun r => ?_
          cases r <;> trivial

theorem quiet_serveProposal (node : Nat) : (serveProposal S node).Only Quiet := by
  refine only_ask trivial fun payload => only_bind (quiet_onProposal node payload) fun frame => ?_
  exact only_ask trivial fun _ => trivial

/-! ### Which answers acknowledge -/

/-- A request that is refused is not acknowledged. -/
theorem acknowledged_of_refused {Q : (op : DemoOp) → DemoAns op → Prop} {node : Nat}
    {request : StatusRequest} {version : UInt32} {list : List Entry} {reply : Reply}
    (h : Yields Q (applyRequest (H := H) node request version list) (.error reply)) :
    acknowledged reply = none := by
  unfold applyRequest at h
  split at h
  · split at h
    · cases yields_ret.mp h
      rfl
    · cases yields_ret.mp h
      rfl
    · obtain ⟨c, -, h⟩ := ask_yields.mp h
      split at h
      · cases yields_ret.mp h
        rfl
      · cases yields_ret.mp h
  · split at h
    · split at h
      · cases yields_ret.mp h
        rfl
      · split at h
        · cases yields_ret.mp h
          rfl
        · cases yields_ret.mp h
    · cases yields_ret.mp h
      rfl

theorem yields_onProposal {Q : (op : DemoOp) → DemoAns op → Prop} {node : Nat} {payload : Bytes}
    {frame : Frame} (h : Yields Q (onProposal S node payload) frame) :
    acknowledged (some frame) = none := by
  unfold onProposal at h
  split at h
  · rw [yields_ret.mp h]
    rfl
  · obtain ⟨o, -, h⟩ := yields_bind.mp h
    split at h
    · rw [yields_ret.mp h]
      rfl
    · split at h
      · rw [yields_ret.mp h]
        rfl
      · split at h
        · rw [yields_ret.mp h]
          rfl
        · obtain ⟨r, -, h⟩ := ask_yields.mp h
          cases r with
          | error e =>
            rw [yields_ret.mp h]
            rfl
          | ok sig =>
            rw [yields_ret.mp h]
            rfl

theorem yields_serveProposal {Q : (op : DemoOp) → DemoAns op → Prop} {node : Nat} {reply : Reply}
    (h : Yields Q (serveProposal S node) reply) : acknowledged reply = none := by
  obtain ⟨payload, -, h⟩ := ask_yields.mp h
  obtain ⟨frame, hf, h⟩ := yields_bind.mp h
  obtain ⟨r, -, h⟩ := ask_yields.mp h
  rw [yields_ret.mp h]
  exact yields_onProposal hf

/-- The answer acknowledges nothing, or the version of a round of its own that is in
storage and was not acknowledged before. -/
def Earned (S : Setup H) (p : Nat) (c : Request) (reply : Reply) (x : Ledger) : Prop :=
  ∀ u, acknowledged reply = some u → Won x.1 p u.version ∧ Holds S x.1 c u ∧
    u.version ∉ x.2.filterMap acks

theorem Earned.of_none {c : Request} {reply : Reply} {x : Ledger} (h : acknowledged reply = none) :
    Earned S p c reply x := by
  intro u hu
  rw [h] at hu
  cases hu

theorem Earned.counts {c : Request} {reply : Reply} {x y : Ledger} (h : Earned S p c reply x)
    (hr : Counts p x y) : Earned S p c reply y := by
  intro u hu
  obtain ⟨hw, hk, hn⟩ := h u hu
  exact ⟨hw.grows hr.rely.grows, hk.grows hr.rely.grows, fun hm => hn (hr.mine _ hw hm)⟩

/-- What was asked for leads from the version before to `list`. -/
def Asked (S : Setup H) (w : World) (c : Request) (version : UInt32) (list : List Entry)
    (credential : Bytes) : Prop :=
  ∃ node payload request before, c = .statusRequest node payload ∧
    StatusRequest.decode payload = some request ∧ ListBefore S w version.toNat before ∧
    Applies (H := H) request before list credential

theorem Asked.grows {c : Request} {version : UInt32} {list : List Entry} {credential : Bytes}
    (h : Asked S w c version list credential) (hg : Grows w w') :
    Asked S w' c version list credential := by
  obtain ⟨node, payload, request, before, hc, hd, hb, ha⟩ := h
  exact ⟨node, payload, request, before, hc, hd, hb.grows hg, ha⟩

theorem Base.listBefore (hi : Inv S w) {k : Nat} {list : List Entry} (h : Base S w.history k list) :
    ListBefore S w k list := by
  rcases h with h0 | ⟨j, x, version, hj, hk, hd⟩
  · exact .inl h0
  · obtain ⟨-, -, prop, -, -, hv, hd'⟩ := hi.chain j x hk
    rw [hd] at hd'
    cases hd'
    exact .inr ⟨j, hj, x, prop.version, hk, hd, hv⟩

/-! ## The aggregator keeps the books -/

section
variable {x : Ledger}

theorem books_seq {α β : Type} {Q : α → Ledger → Prop} {m : DemoProg β} {f : β → DemoProg α}
    (hi : Books S V rate x) (h : (books S V rate).keeps (bookPact S V rate) p m
      (fun b y => Books S V rate y → (books S V rate).keeps (bookPact S V rate) p (f b) Q y) x) :
    (books S V rate).keeps (bookPact S V rate) p (m >>= f) Q x := Machine.keeps_bind hi h

theorem books_return {α : Type} {Q : α → Ledger → Prop} {a : α}
    (h : ∀ y, Counts p x y → Books S V rate y → Q a y) :
    (books S V rate).keeps (bookPact S V rate) p (pure a) Q x := Machine.keeps_ret h

/-- A part of the program that places nothing, with what it can return. -/
theorem books_quiet {α : Type} {m : DemoProg α} {Q : α → World → Prop} (hm : m.Only Quiet)
    (h : machine.keeps (pact S) p m Q x.1) :
    (books S V rate).keeps (bookPact S V rate) p m
      (fun a y => Q a y.1 ∧ Yields (Proven S V rate) m a) x := by
  have hans : ∀ y op r z, (books S V rate).exec p y op r z → Proven S V rate op r :=
    fun _ _ _ _ hx => hx.1.1
  exact Machine.keeps_yields hans (lifts.keeps hm h)

theorem Books.setVolume {v : Volume StorageName} (h : Books S V rate x)
    (hs : v.Shelf .tmp .currentRecord x.1.history) :
    Books S V rate ({ x.1 with volume := v }, x.2) :=
  h.quiet (h.inv.setVolume hs)
    ⟨fun _ hx => hx, List.prefix_rfl, List.prefix_rfl, fun _ _ hd => hd⟩ rfl rfl

/-- A genuine record takes its place, and its version was never acknowledged. -/
theorem Books.place {prop : Proposal} {f : Nat} {record : Bytes} {w' : World} (h : Books S V rate x)
    (hi : Inv S w') (hg : Grows x.1 w') (hw' : w'.history = x.1.history ++ [(f, record)])
    (hdue : prop.version.toNat = x.1.history.length)
    (ha : Genuine S V rate record prop.version prop.list) :
    Books S V rate (w', x.2) ∧ ListAt S w' prop.version.toNat prop.list ∧
      prop.version ∉ x.2.filterMap acks := by
  refine ⟨⟨hi, fun k e hk => ?_, fun e he u hu => (h.kept e he u hu).grows hg, h.once⟩, ?_,
    fun hm => ?_⟩
  · rw [hw'] at hk
    by_cases hlt : k < x.1.history.length
    · rw [List.getElem?_append_left hlt] at hk
      exact h.genuine k e hk
    · have hbound := (List.getElem?_eq_some_iff.mp hk).1
      rw [List.length_append, List.length_singleton] at hbound
      obtain rfl : k = x.1.history.length := by omega
      rw [List.getElem?_append_right (le_refl _)] at hk
      simp only [Nat.sub_self, List.getElem?_cons_zero, Option.some.injEq] at hk
      subst hk
      exact ⟨prop.version, prop.list, ha, hdue⟩
  · refine ⟨(f, record), prop.version, ?_, ha.1, rfl⟩
    rw [hw', hdue, List.getElem?_append_right (le_refl _)]
    simp
  · obtain ⟨e, he, hv⟩ := List.mem_filterMap.mp hm
    obtain ⟨u, hu, hver⟩ := Option.map_eq_some_iff.mp hv
    have hlt := (h.kept e he u hu).lt
    rw [hver] at hlt
    omega

/-- A record that was placed is the list of its version, not acknowledged yet. -/
def PlacedBy (S : Setup H) (prop : Proposal) (y : Ledger) : Prop :=
  ListAt S y.1 prop.version.toNat prop.list ∧ prop.version ∉ y.2.filterMap acks

theorem PlacedBy.counts {prop : Proposal} {y z : Ledger} (h : PlacedBy S prop y)
    (hw : Won y.1 p prop.version) (hr : Counts p y z) : PlacedBy S prop z :=
  ⟨h.1.grows hr.rely.grows, fun hm => h.2 (hr.mine _ hw hm)⟩

/-- A temporary of the round that is entitled. -/
theorem Books.touch {prop : Proposal} {v : Volume StorageName} {α : Type} {r : Except IoError α}
    {failed next : Ledger → Prop} (h : Books S V rate x) (he : Entitled p rx prop x.1)
    (hs : v.Shelf .tmp .currentRecord x.1.history) (hf : failed ({ x.1 with volume := v }, x.2))
    (hn : next ({ x.1 with volume := v }, x.2)) :
    Volume.Leaves (bookPact S V rate) p failed next x r ({ x.1 with volume := v }, x.2) :=
  ⟨h.setVolume hs, ⟨he.guarantee v, .inl rfl⟩, fun _ _ => hf, fun _ _ => hn⟩

/-- Its thread may put a genuine record in place. -/
def Genuine.placer {prop : Proposal} {record : Bytes} (p rx : Nat)
    (ha : Genuine S V rate record prop.version prop.list) :
    Volume.Placer ((books S V rate).seen .storage fun _ r => r) (bookPact S V rate) p .tmp
      .currentRecord record where
  volume y := y.1.volume
  placed y := y.1.history
  ready y := Entitled p rx prop y.1
  begun y := Entitled p rx prop y.1
  written y := Entitled p rx prop y.1
  failed _ := True
  done y := PlacedBy S prop y ∧ Won y.1 p prop.version
  exec hx := by
    obtain ⟨_, rfl, ⟨-, v, hv, hz⟩, -⟩ := hx
    rw [hz, afterStorage_volume]
    exact hv
  shelf hi := hi.inv.shelf
  ready_rely h hr := h.relies hr.rely
  begun_rely h hr := ⟨h.relies hr.rely, (hr.rely.volume h.holder).1⟩
  written_rely h hr := ⟨h.relies hr.rely, (hr.rely.volume h.holder).1⟩
  failed_rely _ _ := trivial
  done_rely h hr := ⟨h.1.counts h.2 hr, h.2.grows hr.rely.grows⟩
  create {y r y'} hi h hx hs := by
    obtain ⟨_, rfl, ⟨-, v, -, hz⟩, hz2⟩ := hx
    obtain rfl : y' = ({ y.1 with volume := v }, y.2) := Prod.ext hz hz2
    exact hi.touch h hs trivial (h.setVolume v)
  write {y f r y'} hi h hx hs := by
    obtain ⟨_, rfl, ⟨-, v, -, hz⟩, hz2⟩ := hx
    obtain rfl : y' = ({ y.1 with volume := v }, y.2) := Prod.ext hz hz2
    exact hi.touch h hs trivial (h.setVolume v)
  sync {y f r y'} hi h hx := by
    obtain ⟨_, rfl, ⟨-, v, hv, hz⟩, hz2⟩ := hx
    obtain rfl : v = y.1.volume := hv
    obtain rfl : y' = y := Prod.ext hz hz2
    exact ⟨hi, ⟨.refl, .inl rfl⟩, fun _ _ => trivial, fun _ _ => h⟩
  rename {y e y'} hi h hx := by
    obtain ⟨_, rfl, ⟨-, v, hv, hz⟩, hz2⟩ := hx
    obtain rfl : v = y.1.volume := hv
    obtain rfl : y' = y := Prod.ext hz hz2
    exact ⟨hi, ⟨.refl, .inl rfl⟩, trivial⟩
  place {y f y'} hi h hdir hino hx := by
    obtain ⟨_, rfl, ⟨-, v, ⟨i, hi', rfl⟩, hz⟩, hz2⟩ := hx
    obtain rfl : i = f := Option.some.inj (hi'.symm.trans hdir)
    obtain ⟨w', record'⟩ := y'
    obtain rfl : record' = y.2 := hz2
    have hplace : w' = { y.1 with
        volume := y.1.volume.renamed .tmp .currentRecord i
        history := y.1.history ++ [(i, record)] } := by
      rw [← hino]
      exact hz.trans (afterStorage_renamed y.1 i)
    obtain ⟨hinv, hg⟩ := h.place hi.inv hdir hino ha.1 hplace
    obtain ⟨hb, hlist, hnew⟩ := hi.place hinv hg.grows (congrArg World.history hplace) h.due ha
    exact ⟨hb, ⟨hg, .inl rfl⟩, ⟨hlist, hnew⟩, rx, prop, h.opened.grows hg.grows,
      h.quorate.grows hg.grows, rfl⟩
  syncDir {y r y'} hi h hx := by
    obtain ⟨_, rfl, ⟨-, v, hv, hz⟩, hz2⟩ := hx
    obtain rfl : v = y.1.volume := hv
    obtain rfl : y' = y := Prod.ext hz hz2
    exact ⟨hi, ⟨.refl, .inl rfl⟩, h⟩

theorem books_publish {prop : Proposal} {record : Bytes} (he : Entitled p rx prop x.1)
    (ha : Genuine S V rate record prop.version prop.list) :
    (books S V rate).keeps (bookPact S V rate) p (publish record).run
      (fun r y => r = .ok () → PlacedBy S prop y) x := by
  rw [publish_within]
  have h := (ha.placer p rx).keeps_replace (by decide) he
  exact Machine.keeps_within (Machine.keeps_mono h fun r y hpost hok => (hpost.1 hok).1)

end

/-- An update reads back at any length: its one offset is 8. -/
theorem acknowledged_statusUpdated (version : UInt32) (credential : Bytes) :
    acknowledged (some (msgStatusUpdated, statusUpdated version credential)) =
      some ⟨version, credential⟩ := by
  have hv := version.toNat_lt
  have h4 : (leBytes 4 version.toNat).length = 4 := length_leBytes _ _
  have hoff : ofLe (leBytes 4 8) = 8 := ofLe_leBytes 4 8 (by decide)
  have he : statusUpdated version credential =
      leBytes 4 version.toNat ++ (leBytes 4 8 ++ credential) := by
    simp [statusUpdated, encodeFields, header, varParts, fixedLen, Shape.width]
  have hd : decodeFields [.fixed 4, .var] (statusUpdated version credential) =
      some [leBytes 4 version.toNat, credential] := by
    have h8 : 8 ≤ 4 + (4 + credential.length) := by omega
    rw [he]
    simp [decodeFields, register, fixedLen, Shape.width, h4, hoff, h8, List.take_left' h4,
      List.drop_left' h4, List.take_left' (length_leBytes 4 8)]
    simp [offsets, resolve, List.drop_append, h4]
  have hr : UInt32.ofNat (ofLe (leBytes 4 version.toNat)) = version := by
    rw [ofLe_leBytes 4 _ (by omega), UInt32.ofNat_toNat]
  show StatusUpdated.decode (statusUpdated version credential) = _
  unfold StatusUpdated.decode Column.decode₂
  simp only [Column.u32, Column.bytes, hd]
  exact congrArg (fun v => some (StatusUpdated.mk v credential)) hr

section
variable {x : Ledger} {c : Request}

theorem books_stop {reply : Reply} (h : acknowledged reply = none) :
    (books S V rate).keeps (bookPact S V rate) p (pure reply) (Earned S p c) x :=
  books_return fun _ _ _ => .of_none h

theorem books_finishRound (node : Nat) {version : UInt32} {list : List Entry}
    {credential : Bytes} {quorum : List (Nat × XmssSignature)} (hi : Books S V rate x)
    (hc : Collecting p rx ⟨version, list⟩ quorum x.1) (hv : Valid S ⟨version, list⟩ quorum)
    (ha : Asked S x.1 c version list credential) :
    (books S V rate).keeps (bookPact S V rate) p
      (finishRound S node version list credential (some quorum)) (Earned S p c) x := by
  unfold finishRound
  dsimp only
  split
  · exact books_stop rfl
  · rename_i ht
    have ht := not_lt.mp ht
    -- a quorum, so the round is entitled to publish
    have hq := hc.counted.quorate ht
    obtain ⟨hsent, hle⟩ := hi.inv.sent hc.opened hq
    have hdue : version.toNat = x.1.history.length := by
      by_contra hne
      exact hc.unpublished ⟨p, _, hc.opened, hq, lt_of_le_of_ne hle hne⟩
    have he : Entitled p rx ⟨version, list⟩ x.1 := ⟨hc.opened, hq, hdue⟩
    have hlen : 32 * list.length ≤ maxFrame := by
      have hl := Proposal.length_encode ⟨version, list⟩
      rw [hl] at hsent
      exact le_trans (Nat.le_add_left _ _) hsent
    have hstable : ∀ w w', Relies p w w' →
        Entitled p rx ⟨version, list⟩ w ∧ Asked S w c version list credential →
        Entitled p rx ⟨version, list⟩ w' ∧ Asked S w' c version list credential :=
      fun w w' hr h => ⟨h.1.relies hr, h.2.grows hr.grows⟩
    refine books_seq hi (Machine.keeps_mono (books_quiet (quiet_buildRecord node list version quorum)
      (keeps_buildRecord hstable ⟨he, ha⟩ node version quorum hlen)) ?_)
    intro built y hpost hi₁
    obtain ⟨⟨⟨he₁, ha₁⟩, hdec⟩, hy⟩ := hpost
    match built with
    | none => exact books_stop rfl
    | some (.error e) => exact books_stop rfl
    | some (.ok record) =>
      have hgen : Genuine S V rate record version list := ⟨hdec record rfl, fun hV =>
        yields_buildRecord (x := ⟨version, list⟩) hV hlen hv hc.counted.distinct ht hy⟩
      have hwon : Won y.1 p version := ⟨rx, _, he₁.opened, he₁.quorate, rfl⟩
      -- what was asked for and what was won stays while the record is published
      have hgrow : ∀ w w', Grows w w' → Won w p version ∧ Asked S w c version list credential →
          Won w' p version ∧ Asked S w' c version list credential :=
        fun w w' hg h => ⟨h.1.grows hg, h.2.grows hg⟩
      have hpub := Machine.keeps_frame (M := books S V rate) (F := fun z : Ledger =>
          Won z.1 p version ∧ Asked S z.1 c version list credential)
        (fun z z' (hr : Counts p z z') => hgrow z.1 z'.1 hr.rely.grows)
        (fun z z' (hg : Pays p z z') => hgrow z.1 z'.1 hg.guar.grows) ⟨hwon, ha₁⟩
        (books_publish he₁ hgen)
      refine books_seq hi₁ (Machine.keeps_mono hpub ?_)
      intro r z hz _
      obtain ⟨hplaced, hwon₂, ha₂⟩ := hz
      cases r with
      | error e => exact books_stop rfl
      | ok u =>
        obtain ⟨hlist, hnew⟩ := hplaced rfl
        refine books_return fun t hr _ => ?_
        refine Earned.counts (x := z) (fun u hu => ?_) hr
        rw [acknowledged_statusUpdated] at hu
        cases hu
        obtain ⟨node', payload, request, before, hcall, hd, hb, happ⟩ := ha₂
        exact ⟨hwon₂, ⟨node', payload, request, before, list, hcall, hd, hb, hlist, happ⟩, hnew⟩

theorem books_runRound (node : Nat) {version : UInt32} {list : List Entry} {credential : Bytes}
    (hi : Books S V rate x)
    (hp : Planned S x.1.history ⟨version, list⟩) (ha : Asked S x.1 c version list credential) :
    (books S V rate).keeps (bookPact S V rate) p (runRound S node version list credential)
      (Earned S p c) x := by
  have hcollect := Machine.keeps_frame (M := books S V rate)
    (F := fun y : Ledger => Asked S y.1 c version list credential)
    (fun _ _ (hr : Counts p _ _) h => h.grows hr.rely.grows)
    (fun _ _ (hg : Pays p _ _) h => h.grows hg.guar.grows) ha
    (books_quiet (quiet_collectSignatures ⟨version, list⟩) (keeps_collectSignatures hp))
  refine books_seq hi (Machine.keeps_mono hcollect ?_)
  intro o y hpost hi₁
  obtain ⟨⟨hcol, hy⟩, ha₁⟩ := hpost
  cases o with
  | none => exact books_stop rfl
  | some quorum =>
    obtain ⟨rx, hc⟩ := hcol quorum rfl
    exact books_finishRound node hi₁ hc (yields_collectSignatures hy) ha₁

theorem books_coordinate (hi : Books S V rate x) (node : Nat) {payload : Bytes} {request : StatusRequest}
    (hd : StatusRequest.decode payload = some request) :
    (books S V rate).keeps (bookPact S V rate) p (coordinate S node request)
      (Earned S p (.statusRequest node payload)) x := by
  refine books_seq hi (Machine.keeps_mono (books_quiet quiet_currentRecord
    (keeps_currentRecord (F := fun _ => True) (fun _ _ _ h => h) trivial)) ?_)
  intro o y hpost hi₁
  cases hn : nextSnapshot S.mode o with
  | error why => exact books_stop rfl
  | ok next =>
    obtain ⟨version, list⟩ := next
    have hbase : Base S y.1.history version.toNat list := nextSnapshot_base hi₁.inv hpost.1.2 hn
    have hstable : ∀ w w', Relies p w w' → Base S w.history version.toNat list →
        Base S w'.history version.toNat list := fun w w' hr hb => hb.grows hr.grows
    refine books_seq hi₁ (Machine.keeps_mono (books_quiet
      (quiet_applyRequest node request version list)
      (keeps_applyRequest hstable hbase node request version list)) ?_)
    intro out z hpost₂ hi₂
    obtain ⟨⟨hb, hupd⟩, hy⟩ := hpost₂
    cases out with
    | error reply => exact books_stop (acknowledged_of_refused hy)
    | ok r =>
      obtain ⟨list', credential⟩ := r
      refine books_runRound node hi₂ ⟨list, hb, hupd list' credential rfl⟩ ?_
      exact ⟨node, payload, request, list, rfl, hd, hb.listBefore hi₂.inv, applies_of_applyRequest hy⟩

theorem books_onStatusRequest (node : Nat) (payload : Bytes) :
    (books S V rate).keeps (bookPact S V rate) p (onStatusRequest S node payload)
      (Earned S p (.statusRequest node payload)) x := by
  unfold onStatusRequest
  split
  · exact books_stop rfl
  · split
    · exact books_stop rfl
    · rename_i request hd
      refine Machine.keeps_perform fun y hr hi r z hx => ?_
      obtain ⟨⟨-, -, hz⟩, hz2⟩ := hx
      obtain rfl : z = ({ y.1 with round := Function.update y.1.round node (some p) }, y.2) :=
        Prod.ext hz hz2
      have hg : Guarantee p y.1 { y.1 with round := Function.update y.1.round node (some p) } :=
        .local _ y.1.stream fun _ _ => rfl
      have hi' : Books S V rate
          ({ y.1 with round := Function.update y.1.round node (some p) }, y.2) :=
        hi.quiet (hi.inv.local _ y.1.stream) hg.grows rfl rfl
      refine ⟨hi', ⟨hg, .inl rfl⟩, books_seq hi'
        (Machine.keeps_mono (books_coordinate hi' node hd) ?_)⟩
      intro reply t he _
      refine Machine.keeps_perform fun t' hr' hi'' r t'' hx => ?_
      obtain ⟨⟨-, ht⟩, ht2⟩ := hx
      obtain rfl : t'' = ({ t'.1 with round := Function.update t'.1.round node none }, t'.2) :=
        Prod.ext ht ht2
      have hg' : Guarantee p t'.1 { t'.1 with round := Function.update t'.1.round node none } :=
        .local _ t'.1.stream fun _ _ => rfl
      have hi₃ : Books S V rate ({ t'.1 with round := Function.update t'.1.round node none }, t'.2) :=
        hi''.quiet (hi''.inv.local _ t'.1.stream) hg'.grows rfl rfl
      refine ⟨hi₃, ⟨hg', .inl rfl⟩, books_return fun t₃ hr₃ _ => ?_⟩
      have he' := he.counts hr'
      refine Earned.counts (x := ({ t'.1 with round := Function.update t'.1.round node none }, t'.2))
        (fun u hu => ?_) hr₃
      obtain ⟨hw, hk, hn⟩ := he' u hu
      exact ⟨hw.grows hg'.grows, hk.grows hg'.grows, hn⟩

/-! ## Every run -/

/-- What is returned is entered. -/
theorem Books.enter {reply : Reply} (hi : Books S V rate x) (he : Earned S p c reply x) :
    Books S V rate (release p x.1, x.2 ++ [(c, reply)]) ∧
      Pays p x (release p x.1, x.2 ++ [(c, reply)]) := by
  obtain ⟨hinv, hg⟩ := inv_release hi.inv p
  refine ⟨⟨hinv, hi.genuine, fun e hm u hu => ?_, ?_⟩, hg, .inr ⟨(c, reply), rfl, fun v hv => ?_⟩⟩
  · rcases List.mem_append.mp hm with hm | hm
    · exact (hi.kept e hm u hu).grows hg.grows
    · rw [List.mem_singleton.mp hm] at hu ⊢
      exact (he u hu).2.1.grows hg.grows
  · rw [List.filterMap_append, List.nodup_append]
    refine ⟨hi.once, ?_, ?_⟩
    · cases h : acks (c, reply) <;> simp [h]
    · intro a ha b hb heq
      subst heq
      obtain ⟨e, hm, hv⟩ := List.mem_filterMap.mp hb
      rw [List.mem_singleton.mp hm] at hv
      obtain ⟨u, hu, rfl⟩ := Option.map_eq_some_iff.mp hv
      exact (he u hu).2.2 ha
  · obtain ⟨u, hu, rfl⟩ := Option.map_eq_some_iff.mp hv
    exact (he u hu).1

theorem books_release (hi : Books S V rate x) :
    Books S V rate (release p x.1, x.2) ∧ Pays p x (release p x.1, x.2) := by
  obtain ⟨hinv, hg⟩ := inv_release hi.inv p
  exact ⟨hi.quiet hinv hg.grows rfl rfl, hg, .inl rfl⟩

theorem books_honoured : Honoured (bookPact S V rate) (books S V rate) (api S).noting := by
  refine ⟨fun p o c m x hm hi => ?_, fun p x hi => books_release hi, fun _ _ h => h.1⟩
  simp only [Api.noting, api] at hm
  split at hm
  · cases hm
    have hk : (books S V rate).keeps (bookPact S V rate) p (c.program S) (Earned S p c) x := by
      cases c with
      | proposal node =>
        refine Machine.keeps_mono (books_quiet (quiet_serveProposal node)
          (keeps_serveProposal x.1 node)) ?_
        intro reply y hy
        exact .of_none (yields_serveProposal hy.2)
      | statusRequest node payload => exact books_onStatusRequest node payload
    refine Machine.keeps_bind hi (Machine.keeps_mono hk ?_)
    intro reply y he _
    refine Machine.keeps_ret fun z hr hi' => ?_
    exact hi'.enter (he.counts hr)
  · cases hm

theorem books_start : Books S V rate (World.start, []) := by
  refine ⟨inv_start, ?_, nofun, .nil⟩
  intro k y hk
  cases hk

theorem books_reachable {s : Sys DemoOp DemoAns Ledger Empty Request Reply} (hr : (ledger S V rate).Reachable s) :
    Books S V rate s.world := by
  have hr' : ((books S V rate).system (api S).noting
      fun x => x.1 = World.start ∧ x.2 = []).Reachable s := hr
  have h0 : ∀ x : Ledger, x.1 = World.start ∧ x.2 = [] → (bookPact S V rate).inv x := by
    intro x hx
    obtain rfl : x = (World.start, []) := Prod.ext hx.1 hx.2
    exact books_start
  exact (Pact.reachable books_honoured h0 hr').1

end

end

/-- Every record that was ever placed in storage is accepted. In every reachable state
of nodes with a working prover, whatever the schedule, the losses and the kills, entry
`k` of the history decodes and verifies for a relying party of the anchor, with
version `k` and the list the nodes read in it; and so does the record in storage. -/
theorem published_accepted {H : Hashes} (S : Setup H) (V : SnarkVerifier.LeanVM) (rate : Nat)
    (hV : S.mode = .snark → V.Complete S.xmssVerify rate)
    (s : Sys DemoOp DemoAns Ledger Empty Request Reply) (hr : (ledger S V rate).Reachable s) :
    (∀ k x, s.world.1.history[k]? = some x → ∃ version list,
      Accepted S V x.2 version list ∧ version.toNat = k ∧ ListAt S s.world.1 k list) ∧
    ∀ bytes, s.world.1.current = some bytes → ∃ version list, Accepted S V bytes version list ∧
      version.toNat + 1 = s.world.1.history.length := by
  have hb := books_reachable hr
  have hall : ∀ k x, s.world.1.history[k]? = some x → ∃ version list,
      Accepted S V x.2 version list ∧ version.toNat = k ∧ ListAt S s.world.1 k list := by
    intro k x hk
    obtain ⟨version, list, ⟨hd, ha⟩, hv⟩ := hb.genuine k x hk
    exact ⟨version, list, ha hV, hv, x, version, hk, hd, hv⟩
  refine ⟨hall, fun bytes hcur => ?_⟩
  rw [hb.inv.current] at hcur
  obtain ⟨x, hx, rfl⟩ := Option.map_eq_some_iff.mp hcur
  rw [List.getLast?_eq_getElem?] at hx
  obtain ⟨version, list, ha, hv, -⟩ := hall _ x hx
  have hlt := (List.getElem?_eq_some_iff.mp hx).1
  exact ⟨version, list, ha, by omega⟩

/-- No acknowledged update is lost, and none is acknowledged twice. In every reachable
state every `StatusUpdated` that was returned answers a status request; its version is
in the history, and the list of that version is the list of the version before it with
the requested issuance or revocation of that credential applied. The versions that
were acknowledged are pairwise different. -/
theorem acknowledged_kept {H : Hashes} (S : Setup H) (V : SnarkVerifier.LeanVM) (rate : Nat)
    (s : Sys DemoOp DemoAns Ledger Empty Request Reply) (hr : (ledger S V rate).Reachable s) :
    (∀ e ∈ s.world.2, ∀ u, acknowledged e.2 = some u → Holds S s.world.1 e.1 u) ∧
    (s.world.2.filterMap fun e => (acknowledged e.2).map StatusUpdated.version).Nodup := by
  have hb := books_reachable hr
  exact ⟨hb.kept, hb.once⟩

theorem proven_raw {H : Hashes} {S : Setup H} (V : SnarkVerifier.LeanVM) (rate : Nat)
    (h : S.mode = .raw) (op : DemoOp) (r : DemoAns op) : Proven S V rate op r := by
  cases op with
  | makeProof list version quorum =>
    cases r with
    | none => trivial
    | some proof =>
      intro hs
      rw [h] at hs
      cases hs
  | _ => trivial

/-- A credential is issued and revoked, and both updates are acknowledged. -/
theorem reachable_acknowledged : ∃ s, (ledger demoSetup SnarkVerifier.sampleVM 2).Reachable s ∧
    s.world.1.history.length = 2 ∧
    (.statusRequest 0 issueRequest,
      some (msgStatusUpdated, statusUpdated 0 demoCredential)) ∈ s.world.2 ∧
    (.statusRequest 3 revokeRequest,
      some (msgStatusUpdated, statusUpdated 1 demoCredential)) ∈ s.world.2 := by
  obtain ⟨w₁, w₂, hr₁, hr₂, hu₁, hu₂⟩ := reaches_two_updates
  have hQ := proven_raw SnarkVerifier.sampleVM 2 (rfl : demoSetup.mode = .raw)
  have h0 : (ledger demoSetup SnarkVerifier.sampleVM 2).Reachable
      ⟨(World.start, []), fun _ => .idle⟩ := .init ⟨⟨rfl, rfl⟩, rfl⟩
  obtain ⟨record₁, hl₁⟩ := reaches_noted hQ hr₁ []
  have hret₁ := hl₁.trans (reaches_noted_ret (p := 0)
    (acknowledging_self 0 0 issueRequest 0) _)
  rw [show Proc.ofResult (none : Option Empty) = .idle from rfl, acknowledging_returned] at hret₁
  obtain ⟨record₂, hl₂⟩ := reaches_noted hQ hr₂ ([] ++ record₁ ++ _)
  have hret₂ := (hret₁.trans hl₂).trans (reaches_noted_ret (p := 0)
    (acknowledging_self 0 3 revokeRequest 1) _)
  have hlen := length_two_updates hu₁ hu₂
  exact ⟨_, h0.reaches hret₂, hlen, by simp, by simp⟩

theorem published_accepted_first : ∃ (w : World) (first second : Nat × Bytes)
    (list list' : List Entry), w.history = [first, second] ∧
    Accepted demoSetup SnarkVerifier.sampleVM first.2 0 list ∧
    Accepted demoSetup SnarkVerifier.sampleVM second.2 1 list' := by
  obtain ⟨s, hr, hlen, -⟩ := reachable_acknowledged
  obtain ⟨h, -⟩ := published_accepted demoSetup SnarkVerifier.sampleVM 2 nofun s hr
  obtain ⟨first, second, hw⟩ := List.length_eq_two.mp hlen
  obtain ⟨v, list, ha, hv, -⟩ := h 0 first (by rw [hw]; rfl)
  obtain ⟨v', list', ha', hv', -⟩ := h 1 second (by rw [hw]; rfl)
  obtain rfl : v = 0 := UInt32.toNat_inj.mp hv
  obtain rfl : v' = 1 := UInt32.toNat_inj.mp hv'
  exact ⟨s.world.1, first, second, list, list', hw, ha, ha'⟩

theorem acknowledged_kept_first : ∃ w : World,
    Holds demoSetup w (.statusRequest 0 issueRequest) ⟨0, demoCredential⟩ ∧
    Holds demoSetup w (.statusRequest 3 revokeRequest) ⟨1, demoCredential⟩ := by
  obtain ⟨s, hr, -, hissued, hrevoked⟩ := reachable_acknowledged
  obtain ⟨h, -⟩ := acknowledged_kept demoSetup SnarkVerifier.sampleVM 2 s hr
  exact ⟨s.world.1, h _ hissued _ (acknowledged_statusUpdated 0 demoCredential),
    h _ hrevoked _ (acknowledged_statusUpdated 1 demoCredential)⟩

end Drot.L5.Demo
