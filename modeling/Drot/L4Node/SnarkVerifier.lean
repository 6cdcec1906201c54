import Drot.L4Node.RawVerifier

/-!
# The SNARK path (`node/snark_prover.rs`, `node/snark_verifier.rs`)

The aggregator replaces the signatures of a quorum by one leanVM aggregate and
the relying party checks the statement it declares against the anchor. leanVM is
a parameter (`LeanVM`); what the code relies on is stated apart:
`LeanVM.Complete` for the prover and `LeanVM.Sound` for the verifier.

* `records_one_wire_form`: decoding and encoding are inverse for both forms.
* `check_iff`: what the five checks and the shape guard accept.
* `snark_raw_same_policy`: on the same signatures both paths decide alike, and
  behind every accepted SNARK record stand signatures the raw path accepts.
-/
namespace Drot.L4.SnarkVerifier
open Bytes L1.Message L3.Protocol RawVerifier

/-- The parts of leanVM's aggregate API the code calls. `xmssSigners` is the
declared statement: for each group its slot, its message and its keys. -/
structure LeanVM where
  AggregateSignature : Type
  SphincsClaim : Type
  fromBytes : Bytes → Except String AggregateSignature
  toBytes : AggregateSignature → Bytes
  xmssSigners : AggregateSignature → List (UInt32 × Blob 32 × List XmssPublicKey)
  sphincsSigners : AggregateSignature → List SphincsClaim
  /-- `verify().is_ok()` -/
  verify : AggregateSignature → Bool
  /-- `aggregate(&[], xmss, Vec::new(), None, log_inv_rate)`, `none` on error -/
  aggregate : List (XmssPublicKey × UInt32 × Blob 32 × XmssSignature) → Nat →
    Option AggregateSignature

/-- Distinct keys with valid signatures aggregate, and the canonical bytes of
the aggregate decode to a statement about exactly these keys. -/
def LeanVM.Complete (V : LeanVM) (verify : XmssVerify) (logInvRate : Nat) : Prop :=
  ∀ (raws : List (XmssPublicKey × XmssSignature)) (message : Blob 32) (slot : UInt32),
    raws ≠ [] → (raws.map Prod.fst).Nodup →
    (∀ p ∈ raws, verify p.1 message p.2 slot = true) →
    ∃ agg agg' keys,
      V.aggregate (raws.map fun p => (p.1, slot, message, p.2)) logInvRate = some agg ∧
      V.fromBytes (V.toBytes agg) = .ok agg' ∧ V.toBytes agg' = V.toBytes agg ∧
      V.xmssSigners agg' = [(slot, message, keys)] ∧ keys.Perm (raws.map Prod.fst) ∧
      V.sphincsSigners agg' = [] ∧ V.verify agg' = true

/-- If the aggregate verifies, there is a signature for each declared key, and no
group declares a key twice. -/
def LeanVM.SoundAt (V : LeanVM) (verify : XmssVerify) (agg : V.AggregateSignature) : Prop :=
  V.verify agg = true → ∀ g ∈ V.xmssSigners agg,
    g.2.2.Nodup ∧ ∀ pk ∈ g.2.2, ∃ sig, verify pk g.2.1 sig g.1 = true

def LeanVM.Sound (V : LeanVM) (verify : XmssVerify) : Prop := ∀ agg, V.SoundAt verify agg

section
variable (H : Hashes) (V : LeanVM)

/-- mirrors src/src/protocol/status_list.rs:199-206 -/
def proof (r : SnarkStatusList) : Except String V.AggregateSignature :=
  match V.fromBytes r.zkProof with
  | .error e => .error s!"proof not deserializable: {e}"
  | .ok value =>
    if V.toBytes value ≠ r.zkProof then .error "proof is not canonically encoded" else .ok value

/-- A record next to the aggregate it carries; only `decode` builds one.
mirrors src/src/protocol/status_list.rs:253-256 -/
structure DecodedSnarkStatusList where
  record : SnarkStatusList
  aggregate : V.AggregateSignature
  carried : proof V record = .ok aggregate

/-- mirrors src/src/protocol/status_list.rs:215-221 -/
def decode (r : SnarkStatusList) : Except String (DecodedSnarkStatusList V) :=
  match h : proof V r with
  | .error e => .error e
  | .ok aggregate => .ok ⟨r, aggregate, h⟩

/-- mirrors src/src/node/snark_verifier.rs:48-99 -/
def check (c : Committee) (r : SnarkStatusList) (agg : V.AggregateSignature) : Bool :=
  if ¬ (V.sphincsSigners agg).isEmpty then false
  else match V.xmssSigners agg with
    | [(slot, message, pubkeys)] =>
      -- 1) every signer must belong to the committee
      if ¬ pubkeys.all (fun pk => c.members.contains pk) then false
      -- 2) bound to this committee, algorithm, list and version
      else if message ≠ H.statusListMessage (c.domain H r.alg) r.statusList r.version then false
      -- 3) at the slot this version derives to
      else if c.slotFor r.version ≠ some slot then false
      -- 4) quorum
      else if pubkeys.length < c.threshold then false
      -- 5) the aggregate itself
      else V.verify agg
    | _ => false

/-- mirrors src/src/node/snark_verifier.rs:31-37 -/
def verify (c : Committee) (r : SnarkStatusList) : Bool :=
  match proof V r with
  | .ok agg => check H V c r agg
  | .error _ => false

/-- `none` is the panic of `expect("aggregation failed")`.
mirrors src/src/node/snark_prover.rs:47-61 -/
def aggregate (raws : List (XmssPublicKey × XmssSignature)) (message : Blob 32) (slot : UInt32)
    (logInvRate : Nat) : Option Bytes :=
  (V.aggregate (raws.map fun p => (p.1, slot, message, p.2)) logInvRate).map V.toBytes

/-- `none` is also the panic of `expect("version has no slot under this anchor")`.
mirrors src/src/node/snark_prover.rs:26-43 -/
def makeProof (c : Committee) (alg : Algorithms) (raws : List (XmssPublicKey × XmssSignature))
    (list : List Entry) (version : UInt32) (logInvRate : Nat) : Option Bytes :=
  match c.slotFor version with
  | none => none
  | some slot => aggregate V raws (c.messageFor H alg list version) slot logInvRate

end

section
variable {H : Hashes} {V : LeanVM} {xmssVerify : XmssVerify}

theorem proof_ok {r : SnarkStatusList} {agg : V.AggregateSignature} :
    proof V r = .ok agg ↔ V.fromBytes r.zkProof = .ok agg ∧ V.toBytes agg = r.zkProof := by
  unfold proof
  split
  · simp_all
  · rename_i value hv
    rw [hv]
    split
    · rename_i hne
      constructor
      · intro h; cases h
      · intro h
        obtain ⟨h, hb⟩ := h
        cases h
        exact absurd hb hne
    · rename_i heq
      rw [not_not] at heq
      constructor
      · intro h
        cases h
        exact ⟨rfl, heq⟩
      · intro h
        exact h.1

/-! ## One wire form -/

theorem decode_record {r : SnarkStatusList} {d : DecodedSnarkStatusList V}
    (h : decode V r = .ok d) : d.record = r := by
  unfold decode at h
  split at h
  · cases h
  · cases h; rfl

/-- The aggregate fixes the proof bytes, whatever spellings leanVM accepts. -/
theorem zkProof_eq {d d' : DecodedSnarkStatusList V} (h : d.aggregate = d'.aggregate) :
    d.record.zkProof = d'.record.zkProof := by
  rw [← (proof_ok.mp d.carried).2, ← (proof_ok.mp d'.carried).2, h]

/-- Both published forms have one wire form: decoding accepts one spelling, and
encoding reads back below `2^32` bytes. -/
theorem records_one_wire_form (V : LeanVM) :
    (∀ bytes r, StatusList.fromBytes bytes = .ok r → r.toBytes = bytes ∧
      r.signers.bits.count true = r.signatures.length ∧ ∀ i ∈ r.signerIndices, i < r.signerSlots) ∧
    (∀ bytes r, SnarkStatusList.fromBytes bytes = .ok r → r.toBytes = bytes) ∧
    (∀ bytes bytes' r r' d d', SnarkStatusList.fromBytes bytes = .ok r →
      SnarkStatusList.fromBytes bytes' = .ok r' → decode V r = .ok d → decode V r' = .ok d' →
      d.record.alg = d'.record.alg → d.record.statusList = d'.record.statusList →
      d.record.version = d'.record.version → d.aggregate = d'.aggregate → bytes = bytes') ∧
    (∀ alg list version n pairs r, StatusList.new alg list version n pairs = .ok r →
      r.toBytes.length < 2 ^ 32 → StatusList.fromBytes r.toBytes = .ok r) ∧
    (∀ r : SnarkStatusList, r.toBytes.length < 2 ^ 32 →
      SnarkStatusList.fromBytes r.toBytes = .ok r) := by
  refine ⟨?_, ?_, ?_, ?_, ?_⟩
  · intro bytes r h
    exact ⟨StatusList.toBytes_fromBytes h, (StatusList.fromBytes_ok h).2, signerIndices_lt r⟩
  · intro bytes r h
    exact SnarkStatusList.toBytes_fromBytes h
  · intro bytes bytes' r r' d d' h h' hd hd' ha hl hv hagg
    have hr := decode_record hd
    have hr' := decode_record hd'
    have hz := zkProof_eq hagg
    rw [hr, hr'] at ha hl hv hz
    have : r = r' := by
      obtain ⟨alg, list, version, zk⟩ := r
      obtain ⟨alg', list', version', zk'⟩ := r'
      cases ha
      cases hl
      cases hv
      cases hz
      rfl
    rw [← SnarkStatusList.toBytes_fromBytes h, ← SnarkStatusList.toBytes_fromBytes h', this]
  · intro alg list version n pairs r h hlen
    exact StatusList.fromBytes_toBytes (StatusList.signerCount_of_new h) hlen
  · intro r hlen
    exact SnarkStatusList.fromBytes_toBytes hlen

/-- What the predicate accepts: one XMSS group, its keys members, its message
and slot the ones the anchor derives, enough keys, and a verifying aggregate. -/
theorem check_iff {c : Committee} {r : SnarkStatusList} {agg : V.AggregateSignature} :
    check H V c r agg = true ↔ V.sphincsSigners agg = [] ∧ ∃ slot keys,
      V.xmssSigners agg = [(slot, c.messageFor H r.alg r.statusList r.version, keys)] ∧
      (∀ pk ∈ keys, pk ∈ c.members) ∧ c.slotFor r.version = some slot ∧ c.t ≤ keys.length ∧
      V.verify agg = true := by
  unfold check Committee.threshold Committee.messageFor
  by_cases hs : V.sphincsSigners agg = []
  · rw [if_neg (by simp [hs])]
    split
    · rename_i slot message keys hx
      rw [hx]
      simp only [List.all_eq_true, List.contains_iff_mem, hs, true_and, List.cons.injEq,
        Prod.mk.injEq, and_true]
      constructor
      · intro h
        split at h; · cases h
        split at h; · cases h
        split at h; · cases h
        split at h; · cases h
        simp_all
      · intro h
        obtain ⟨_, _, ⟨rfl, rfl, rfl⟩, hm, hslot, ht, hv⟩ := h
        rw [if_neg (not_not.mpr hm), if_neg (not_not.mpr rfl), if_neg (not_not.mpr hslot),
          if_neg (by omega)]
        exact hv
    · rename_i hx
      simp only [Bool.false_eq_true, false_iff]
      intro h
      obtain ⟨-, slot, keys, h, -⟩ := h
      exact hx _ _ _ h
  · rw [if_pos (by simpa using hs)]
    simp [hs]

theorem verify_iff {c : Committee} {r : SnarkStatusList} :
    verify H V c r = true ↔ ∃ agg, proof V r = .ok agg ∧ check H V c r agg = true := by
  unfold verify
  split
  · rename_i agg h
    simp [h]
  · rename_i e h
    simp [h]

/-! ## From indices to keys and back -/

/-- `(members[i].clone(), signature)` for each pair: what the aggregator hands to
`make_proof`. -/
def rawsOf (c : Committee) (pairs : List (Nat × XmssSignature)) :
    List (XmssPublicKey × XmssSignature) :=
  pairs.filterMap fun p => (c.members[p.1]?).map fun pk => (pk, p.2)

theorem rawsOf_cons {c : Committee} {p : Nat × XmssSignature} {pk : XmssPublicKey}
    (h : c.members[p.1]? = some pk) (pairs : List (Nat × XmssSignature)) :
    rawsOf c (p :: pairs) = (pk, p.2) :: rawsOf c pairs := by
  unfold rawsOf
  rw [List.filterMap_cons_some]
  rw [h]; rfl

theorem mem_rawsOf {c : Committee} {pairs : List (Nat × XmssSignature)}
    {q : XmssPublicKey × XmssSignature} :
    q ∈ rawsOf c pairs ↔ ∃ p ∈ pairs, c.members[p.1]? = some q.1 ∧ p.2 = q.2 := by
  unfold rawsOf
  rw [List.mem_filterMap]
  constructor
  · intro h
    obtain ⟨p, hp, h⟩ := h
    obtain ⟨pk, hpk, rfl⟩ := Option.map_eq_some_iff.mp h
    exact ⟨p, hp, hpk, rfl⟩
  · intro h
    obtain ⟨p, hp, hpk, hq⟩ := h
    refine ⟨p, hp, ?_⟩
    rw [hpk, Option.map_some, hq]

/-- Distinct indices of an anchor stand for distinct keys. -/
theorem rawsOf_distinct {c : Committee} (hd : c.members.Nodup) :
    ∀ {pairs : List (Nat × XmssSignature)}, (pairs.map Prod.fst).Nodup →
      (∀ p ∈ pairs, ∃ pk, c.members[p.1]? = some pk) →
      (rawsOf c pairs).length = pairs.length ∧ ((rawsOf c pairs).map Prod.fst).Nodup
  | [], _, _ => ⟨rfl, .nil⟩
  | p :: pairs, hn, hk => by
    obtain ⟨hp, hn⟩ := List.nodup_cons.mp hn
    obtain ⟨⟨pk, hpk⟩, hk⟩ := List.forall_mem_cons.mp hk
    obtain ⟨hl, ih⟩ := rawsOf_distinct hd hn hk
    rw [rawsOf_cons hpk]
    refine ⟨by simp [hl], List.nodup_cons.mpr ⟨fun hm => ?_, ih⟩⟩
    obtain ⟨q, hq, hqk⟩ := List.mem_map.mp hm
    obtain ⟨p', hp', hpk', -⟩ := mem_rawsOf.mp hq
    rw [hqk] at hpk'
    obtain ⟨h1, e1⟩ := List.getElem?_eq_some_iff.mp hpk
    obtain ⟨h2, e2⟩ := List.getElem?_eq_some_iff.mp hpk'
    have hidx : p.1 = p'.1 := (List.Nodup.getElem_inj_iff hd).mp (e1.trans e2.symm)
    exact hp (hidx ▸ List.mem_map_of_mem hp')

/-- Distinct members, each with a signature, are given by distinct indices. -/
theorem pairs_of_keys {members : List XmssPublicKey} {Q : XmssPublicKey → XmssSignature → Prop} :
    ∀ {keys : List XmssPublicKey}, keys.Nodup → (∀ pk ∈ keys, pk ∈ members ∧ ∃ sig, Q pk sig) →
      ∃ pairs : List (Nat × XmssSignature), pairs.length = keys.length ∧
        (pairs.map Prod.fst).Nodup ∧
        ∀ p ∈ pairs, ∃ pk ∈ keys, members[p.1]? = some pk ∧ Q pk p.2
  | [], _, _ => ⟨[], rfl, .nil, by simp⟩
  | pk :: keys, hn, h => by
    obtain ⟨hpk, hn⟩ := List.nodup_cons.mp hn
    obtain ⟨⟨hm, sig, hsig⟩, h⟩ := List.forall_mem_cons.mp h
    obtain ⟨pairs, hl, hd, hv⟩ := pairs_of_keys hn h
    obtain ⟨i, hi⟩ := List.getElem?_of_mem hm
    refine ⟨(i, sig) :: pairs, by simp [hl], List.nodup_cons.mpr ⟨fun hmem => ?_, hd⟩,
      fun p hp => ?_⟩
    · obtain ⟨p, hp, hpi⟩ := List.mem_map.mp hmem
      obtain ⟨pk', hk', hp', -⟩ := hv p hp
      rw [hpi, hi] at hp'
      cases hp'
      exact hpk hk'
    · rcases List.mem_cons.mp hp with rfl | hp
      · exact ⟨pk, by simp, hi, hsig⟩
      · obtain ⟨pk', hk', hp'⟩ := hv p hp
        exact ⟨pk', by simp [hk'], hp'⟩

/-! ## The two paths -/

/-- The record made from valid signatures, in any order, is accepted exactly
when they are enough. -/
theorem verify_makeProof {rate : Nat} (hV : V.Complete xmssVerify rate) {c : Committee}
    (hc : WellFormed H c) {alg : Algorithms} {list : List Entry} {version slot : UInt32}
    {pairs : List (Nat × XmssSignature)} (h : ValidSet H xmssVerify c alg list version slot pairs)
    (hne : pairs ≠ []) {raws : List (XmssPublicKey × XmssSignature)}
    (hraws : raws.Perm (rawsOf c pairs)) :
    ∃ zkProof, makeProof H V c alg raws list version rate = some zkProof ∧
      (verify H V c { alg, statusList := list, version, zkProof } = true ↔
        c.t ≤ pairs.length) := by
  have hkeys : ∀ p ∈ pairs, ∃ pk, c.members[p.1]? = some pk := by
    intro p hp
    obtain ⟨pk, hpk, -⟩ := h.valid p hp
    exact ⟨pk, hpk⟩
  obtain ⟨hlen, hdist⟩ := rawsOf_distinct hc.distinct h.distinct hkeys
  have hnil : raws ≠ [] := by
    intro he
    have := hraws.length_eq
    rw [he, hlen] at this
    exact hne (List.eq_nil_of_length_eq_zero this.symm)
  have hvalid : ∀ q ∈ raws, xmssVerify q.1 (c.messageFor H alg list version) q.2 slot = true := by
    intro q hq
    obtain ⟨p, hp, hpk, hsig⟩ := mem_rawsOf.mp (hraws.mem_iff.mp hq)
    obtain ⟨pk, hpk', hv⟩ := h.valid p hp
    rw [hpk] at hpk'
    cases hpk'
    rw [← hsig]
    exact hv
  have hdist' : (raws.map Prod.fst).Nodup := (hraws.map Prod.fst).nodup_iff.mpr hdist
  obtain ⟨agg, agg', keys, hagg, hdec, henc, hx, hperm, hs, hv⟩ :=
    hV raws (c.messageFor H alg list version) slot hnil hdist' hvalid
  refine ⟨V.toBytes agg, ?_, ?_⟩
  · unfold makeProof aggregate
    rw [h.derived]
    simp only [hagg, Option.map_some]
  have hcount : keys.length = pairs.length := by
    rw [hperm.length_eq, List.length_map, hraws.length_eq, hlen]
  have hmem : ∀ pk ∈ keys, pk ∈ c.members := by
    intro pk hpk
    obtain ⟨q, hq, rfl⟩ := List.mem_map.mp (hperm.mem_iff.mp hpk)
    obtain ⟨p, -, hp, -⟩ := mem_rawsOf.mp (hraws.mem_iff.mp hq)
    exact List.mem_of_getElem? hp
  have hproof : proof V { alg, statusList := list, version, zkProof := V.toBytes agg } = .ok agg' :=
    proof_ok.mpr ⟨hdec, henc⟩
  constructor
  · intro hacc
    obtain ⟨a, ha, hc'⟩ := verify_iff.mp hacc
    obtain rfl : agg' = a := Except.ok.inj (hproof.symm.trans ha)
    obtain ⟨-, slot', keys', hx', -, -, ht, -⟩ := check_iff.mp hc'
    rw [hx] at hx'
    cases hx'
    omega
  · intro ht
    exact verify_iff.mpr ⟨agg', hproof, check_iff.mpr ⟨hs, slot, keys, hx, hmem, h.derived,
      by omega, hv⟩⟩

/-- Behind an accepted SNARK record stands a set of at least `t` valid
signatures. -/
theorem validSet_of_verify {c : Committee} {r : SnarkStatusList}
    (hV : ∀ agg, proof V r = .ok agg → V.SoundAt xmssVerify agg) (h : verify H V c r = true) :
    ∃ slot pairs,
      ValidSet H xmssVerify c r.alg r.statusList r.version slot pairs ∧ c.t ≤ pairs.length := by
  obtain ⟨agg, hagg, hcheck⟩ := verify_iff.mp h
  obtain ⟨-, slot, keys, hx, hm, hslot, ht, hv⟩ := check_iff.mp hcheck
  have hg : (slot, c.messageFor H r.alg r.statusList r.version, keys) ∈ V.xmssSigners agg := by
    rw [hx]
    exact List.mem_singleton_self _
  obtain ⟨(hn : keys.Nodup), hsig⟩ := hV agg hagg hv _ hg
  obtain ⟨pairs, hl, hd, hp⟩ := pairs_of_keys hn fun pk hpk => ⟨hm pk hpk, hsig pk hpk⟩
  refine ⟨slot, pairs, ⟨hslot, hd, fun p hpm => ?_⟩, by omega⟩
  obtain ⟨pk, -, hpk⟩ := hp p hpm
  exact ⟨pk, hpk⟩

/-- The two paths enforce one policy. On any non-empty set of valid signatures
the SNARK record made from it is accepted if and only if the raw record is; and
for any accepted SNARK record, whatever its proof bytes, there are signatures
from which the raw record of the same statement is built and accepted. -/
theorem snark_raw_same_policy (H : Hashes) (V : LeanVM) (xmssVerify : XmssVerify) (rate : Nat)
    (hcomplete : V.Complete xmssVerify rate) (hsound : V.Sound xmssVerify) (c : Anchor H) :
    (∀ alg list version slot pairs raws,
      ValidSet H xmssVerify c.committee alg list version slot pairs → pairs ≠ [] →
      raws.Perm (rawsOf c.committee pairs) →
      ∃ zkProof r, makeProof H V c.committee alg raws list version rate = some zkProof ∧
        StatusList.new alg list version c.committee.members.length pairs = .ok r ∧
        (verify H V c.committee { alg, statusList := list, version, zkProof } = true ↔
          verifyStatusList H xmssVerify c.committee r = some true)) ∧
    (∀ r : SnarkStatusList, verify H V c.committee r = true →
      ∃ slot pairs r', ValidSet H xmssVerify c.committee r.alg r.statusList r.version slot pairs ∧
        StatusList.new r.alg r.statusList r.version c.committee.members.length pairs = .ok r' ∧
        verifyStatusList H xmssVerify c.committee r' = some true) := by
  refine ⟨?_, ?_⟩
  · intro alg list version slot pairs raws h hne hraws
    obtain ⟨zkProof, hmake, hsnark⟩ := verify_makeProof hcomplete c.wellFormed h hne hraws
    obtain ⟨r, hr, -, -, -, -, hraw⟩ := verifyStatusList_new c.wellFormed h
    exact ⟨zkProof, r, hmake, hr, hsnark.trans hraw.symm⟩
  · intro r hr
    obtain ⟨slot, pairs, h, ht⟩ := validSet_of_verify (fun agg _ => hsound agg) hr
    obtain ⟨r', hr', -, -, -, -, hraw⟩ := verifyStatusList_new c.wellFormed h
    exact ⟨slot, pairs, r', h, hr', hraw.mpr ht⟩

end

/-! ## A leanVM with one provable statement -/

/-- The statement of the sample member over the empty list in version 0. -/
def sampleStatement : Blob 32 := sampleCommittee.messageFor sampleHashes .wotsXmss [] 0

/-- Knows one aggregate, of the sample member's one signature. -/
def sampleVM : LeanVM where
  AggregateSignature := Unit
  SphincsClaim := Unit
  fromBytes bytes := if bytes = [42] then .ok () else .error "unknown aggregate"
  toBytes _ := [42]
  xmssSigners _ := [(100, sampleStatement, [sampleKey])]
  sphincsSigners _ := []
  verify _ := true
  aggregate xmss _ := if xmss.isEmpty then none else some ()

theorem sample_validSet : ValidSet sampleHashes (sampleVerify sampleStatement) sampleCommittee
    .wotsXmss [] 0 100 [(0, sampleSignature)] := by
  refine ⟨rfl, by simp, fun p hp => ?_⟩
  rw [List.mem_singleton.mp hp]
  exact ⟨sampleKey, rfl, sampleVerify_self _⟩

/-- Each of the three has one signature over the one message, at the slot of
version 1, and an aggregate is the list of its keys. -/
def trioSignature (pk : XmssPublicKey) : XmssSignature := Blob.replicate 1208 (pk.1.headD 0)
def trioVerify : XmssVerify := fun pk m sig slot =>
  decide (pk ∈ trioKeys ∧ m = trioMessage ∧ sig = trioSignature pk ∧ slot = 101)
def trioVM : LeanVM where
  AggregateSignature := List XmssPublicKey
  SphincsClaim := Unit
  fromBytes bytes := (Ssz.decodeVec 32 bytes).elim (.error "unknown aggregate") .ok
  toBytes := Ssz.encodeVec
  xmssSigners keys := [(101, trioMessage, keys)]
  sphincsSigners _ := []
  verify keys := decide (keys.Nodup ∧ ∀ pk ∈ keys, pk ∈ trioKeys)
  aggregate xmss _ := if xmss.isEmpty then none else some (xmss.map Prod.fst)

/-- The third member signs before the first. -/
def trioRaws : List (XmssPublicKey × XmssSignature) :=
  (trioKeys.eraseIdx 1).map fun pk => (pk, trioSignature pk)
def trioPairs : List (Nat × XmssSignature) :=
  (trioKeys.zipIdx.eraseIdx 1).reverse.map fun p => (p.2, trioSignature p.1)

theorem trioVM_complete : trioVM.Complete trioVerify 2 := by
  intro raws message slot hne hd hv
  have hall : ∀ p ∈ raws, p.1 ∈ trioKeys ∧ message = trioMessage ∧ slot = 101 := by
    intro p hp
    obtain ⟨h1, h2, -, h4⟩ := of_decide_eq_true (hv p hp)
    exact ⟨h1, h2, h4⟩
  obtain ⟨p, hp⟩ := List.exists_mem_of_ne_nil raws hne
  obtain ⟨-, rfl, rfl⟩ := hall p hp
  have hmem : ∀ pk ∈ raws.map Prod.fst, pk ∈ trioKeys := by
    intro pk hpk
    obtain ⟨q, hq, rfl⟩ := List.mem_map.mp hpk
    exact (hall q hq).1
  refine ⟨raws.map Prod.fst, raws.map Prod.fst, raws.map Prod.fst, ?_, ?_, rfl, rfl,
    List.Perm.refl _, rfl, decide_eq_true ⟨hd, hmem⟩⟩
  · simp [trioVM, hne, Function.comp_def]
  · simp [trioVM, Ssz.decodeVec_encodeVec]

theorem trioVM_sound : trioVM.Sound trioVerify := by
  intro (keys : List XmssPublicKey) hv g hg
  obtain ⟨hd, hmem⟩ := of_decide_eq_true hv
  rw [List.mem_singleton.mp hg]
  exact ⟨hd, fun pk hpk => ⟨trioSignature pk, decide_eq_true ⟨hmem pk hpk, rfl, rfl, rfl⟩⟩⟩

theorem trio_validSet : ValidSet trioHashes trioVerify trioCommittee .wotsXmss [trioEntry] 1 101
    trioPairs := by
  refine ⟨rfl, by decide, fun p hp => ?_⟩
  obtain ⟨⟨pk, i⟩, hmem, rfl⟩ := List.mem_map.mp hp
  have hpk : trioKeys[i]? = some pk :=
    List.mk_mem_zipIdx_iff_getElem?.mp (List.mem_of_mem_eraseIdx (List.mem_reverse.mp hmem))
  refine ⟨pk, hpk, decide_eq_true ⟨?_, ?_, rfl, rfl⟩⟩
  · exact List.mem_of_getElem? hpk
  · exact messageFor_trio

theorem records_one_wire_form_sample : ∃ r,
    StatusList.new .wotsXmss [trioEntry] 1 3 trioPairs = .ok r ∧
    StatusList.fromBytes r.toBytes = .ok r ∧
    SnarkStatusList.fromBytes
      (SnarkStatusList.toBytes ⟨.wotsXmss, [trioEntry], 1, Ssz.encodeVec trioKeys⟩) =
      .ok ⟨.wotsXmss, [trioEntry], 1, Ssz.encodeVec trioKeys⟩ := by
  obtain ⟨-, -, -, hraw, hsnark⟩ := records_one_wire_form trioVM
  obtain ⟨r, hr, hlist, hsigs, hslots, -⟩ := verifyStatusList_new trioAnchor.wellFormed trio_validSet
  refine ⟨r, hr, hraw _ _ _ _ _ r hr ?_, hsnark _ ?_⟩
  · rw [StatusList.toBytes, RecordWire.length_encode]
    show 17 + 32 * r.statusList.length + (r.signerSlots / 8 + 1) + 1208 * r.signatures.length < _
    rw [hlist, hslots, hsigs]
    decide
  · rw [SnarkStatusList.length_toBytes, Ssz.length_encodeVec]
    decide

theorem snark_raw_same_policy_sample : ∃ zkProof r slot pairs r',
    makeProof trioHashes trioVM trioCommittee .wotsXmss trioRaws [trioEntry] 1 2 = some zkProof ∧
    StatusList.new .wotsXmss [trioEntry] 1 3 trioPairs = .ok r ∧
    verify trioHashes trioVM trioCommittee ⟨.wotsXmss, [trioEntry], 1, zkProof⟩ = true ∧
    verifyStatusList trioHashes trioVerify trioCommittee r = some true ∧
    ValidSet trioHashes trioVerify trioCommittee .wotsXmss [trioEntry] 1 slot pairs ∧
    StatusList.new .wotsXmss [trioEntry] 1 3 pairs = .ok r' ∧
    verifyStatusList trioHashes trioVerify trioCommittee r' = some true := by
  obtain ⟨hpaths, hback⟩ :=
    snark_raw_same_policy trioHashes trioVM trioVerify 2 trioVM_complete trioVM_sound trioAnchor
  have hperm : trioRaws.Perm (rawsOf trioCommittee trioPairs) := List.Perm.swap _ _ _
  obtain ⟨zkProof, r, hmake, hnew, hiff⟩ :=
    hpaths _ _ _ _ trioPairs trioRaws trio_validSet (List.cons_ne_nil _ _) hperm
  obtain ⟨r₁, hr₁, -, -, -, -, hraw⟩ := verifyStatusList_new trioAnchor.wellFormed trio_validSet
  obtain rfl : r₁ = r := Except.ok.inj (hr₁.symm.trans hnew)
  have haccepted := hraw.mpr (le_refl 2)
  obtain ⟨slot, pairs, r', hset, hr', hv'⟩ := hback _ (hiff.mpr haccepted)
  exact ⟨zkProof, r₁, slot, pairs, r', hmake, hnew, hiff.mpr haccepted, haccepted, hset, hr', hv'⟩

end Drot.L4.SnarkVerifier
