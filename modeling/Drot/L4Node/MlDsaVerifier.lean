import Drot.L3Protocol.MlDsa

/-!
# The ML-DSA quorum predicate (`mldsa/src/verifier.rs`)

The checks of the raw XMSS predicate without the slot, over the same `checkAll`:
`none` is the panic of `members()[index]`, which `verifyStatusList_total` rules
out.

* `mlDsa_quorum_sound_and_complete`: behind every accepted record stands a
  quorum, and every quorum that fits the byte limit builds an accepted record.
-/
namespace Drot.L4.MlDsaVerifier
open Bytes Bitmap L1.Message L3.MlDsa

/-- mirrors src/mldsa/src/verifier.rs:29-46 -/
def verifyStatusList {K : Primitives} (c : Committee K) (r : MlDsaStatusList K) : Option Bool :=
  if r.signerSlots ≠ c.memberCount ∨ r.signerCount < c.threshold ∨
      r.signerCount ≠ r.signatures.length then some false
  else
    let statement := c.statementFor r.statusList r.version
    checkAll c.members (fun publicKey signature => K.verify publicKey statement.1 signature)
      (r.signerIndices.zip r.signatures)

/-- The width check bounds every index. -/
theorem verifyStatusList_total {K : Primitives} (c : Committee K) (r : MlDsaStatusList K) :
    ∃ b, verifyStatusList c r = some b := by
  unfold verifyStatusList
  split
  · exact ⟨_, rfl⟩
  rename_i h
  have hw : r.signerSlots = c.memberCount := by
    by_contra hne
    exact h (.inl hne)
  refine checkAll_of_lt fun p hp => ?_
  have hi : p.1 ∈ r.signerIndices := (List.of_mem_zip hp).1
  have hlt : p.1 < r.signerSlots := (List.getElem?_eq_some_iff.mp (mem_indicesOf.mp hi)).1
  rw [hw] at hlt
  exact hlt

section
variable {K : Primitives} {c : Committee K} {r : MlDsaStatusList K}

/-- What the predicate accepts. -/
theorem verifyStatusList_iff : verifyStatusList c r = some true ↔
    r.signerSlots = c.members.length ∧ c.threshold ≤ r.signerCount ∧
    r.signerCount = r.signatures.length ∧
    ∀ p ∈ r.signerIndices.zip r.signatures, ∃ publicKey, c.members[p.1]? = some publicKey ∧
      K.verify publicKey (c.statementFor r.statusList r.version).1 p.2 = true := by
  unfold verifyStatusList Committee.memberCount
  split
  · rename_i h
    simp only [Option.some.injEq, Bool.false_eq_true, false_iff]
    intro h'
    omega
  · rename_i h
    rw [checkAll_eq_true]
    constructor
    · intro hall
      exact ⟨by omega, by omega, by omega, hall⟩
    · intro h'
      exact h'.2.2.2

/-- A quorum behind a record: distinct members, at least `threshold` of them,
and every signature of the record checked against its own key. -/
structure Quorum (c : Committee K) (r : MlDsaStatusList K) (keys : List K.PublicKey) : Prop where
  distinct : keys.Nodup
  enough : c.threshold ≤ keys.length
  signed : List.Forall₂ (fun publicKey signature => publicKey ∈ c.members ∧
    K.verify publicKey (c.statementFor r.statusList r.version).1 signature = true) keys r.signatures

theorem quorum_of_verifyStatusList (hc : WellFormed c) (h : verifyStatusList c r = some true) :
    (∃ keys, Quorum c r keys) ∧ ∀ i ∈ r.signerIndices, i < c.members.length := by
  obtain ⟨hw, ht, hcount, hall⟩ := verifyStatusList_iff.mp h
  have hlen : r.signerIndices.length = r.signatures.length :=
    (length_indicesOf _).trans hcount
  have hn : r.signerIndices.Nodup := (indicesOf_sorted _).imp Nat.ne_of_lt
  obtain ⟨keys, h1, h2, -⟩ := named_keys (Q := fun publicKey signature =>
      K.verify publicKey (c.statementFor r.statusList r.version).1 signature = true)
    (List.Nodup.of_map _ hc.distinct) hn hlen hall
  refine ⟨⟨keys, h1, ?_, h2⟩, fun i hi => ?_⟩
  · rw [h2.length_eq]
    omega
  · have : i < r.signerSlots := (List.getElem?_eq_some_iff.mp (mem_indicesOf.mp hi)).1
    omega

/-- Signatures by members, at most one for each index, all valid for the
statement; in any order. -/
structure ValidSet (c : Committee K) (list : List Entry) (version : UInt32)
    (pairs : List (Nat × K.Signature)) : Prop where
  distinct : (pairs.map Prod.fst).Nodup
  valid : ∀ p ∈ pairs, ∃ publicKey, c.members[p.1]? = some publicKey ∧
    K.verify publicKey (c.statementFor list version).1 p.2 = true

/-- Enough valid signatures build a record that is accepted, if it fits. -/
theorem verifyStatusList_new (hc : WellFormed c) {list : List Entry} {version : UInt32}
    {pairs : List (Nat × K.Signature)} (h : ValidSet c list version pairs)
    (ht : c.threshold ≤ pairs.length)
    (hsize : recordSize c.members.length list.length pairs.length ≤ maxRecordBytes) :
    ∃ r, MlDsaStatusList.new K list version c.members.length pairs = .ok r ∧
      r.signatures.length = r.signerCount ∧ 1 ≤ r.signerSlots ∧
      r.toBytes.length ≤ maxRecordBytes ∧ verifyStatusList c r = some true := by
  have hlt : ∀ p ∈ pairs, p.1 < c.members.length := by
    intro p hp
    obtain ⟨publicKey, hpk, -⟩ := h.valid p hp
    exact (List.getElem?_eq_some_iff.mp hpk).1
  have hn : 1 ≤ c.members.length := by
    have h1 := hc.one_le
    have h2 := hc.le_count
    omega
  have hperm := sortPairs_perm pairs
  have hlt' : ∀ i ∈ (sortPairs pairs).map Prod.fst, i < c.members.length := by
    intro i hi
    obtain ⟨p, hp, rfl⟩ := List.mem_map.mp hi
    exact hlt p (hperm.mem_iff.mp hp)
  let r : MlDsaStatusList K :=
    { statusList := list, version,
      signers := ⟨setBits c.members.length ((sortPairs pairs).map Prod.fst), by
        rw [length_setBits]; exact hc.size⟩,
      signatures := (sortPairs pairs).map Prod.snd }
  have hi : r.signerIndices = (sortPairs pairs).map Prod.fst :=
    indicesOf_setBits (sortPairs_sorted h.distinct) hlt'
  have hslots : r.signerSlots = c.members.length := length_setBits _ _
  have hsigs : r.signatures.length = pairs.length :=
    (List.length_map _).trans hperm.length_eq
  have hcount : r.signerCount = pairs.length := by
    have hl : r.signerIndices.length = r.signerCount := length_indicesOf _
    rw [← hl, hi, List.length_map, hperm.length_eq]
  refine ⟨r, ?_, by omega, by omega, ?_, ?_⟩
  · exact MlDsaStatusList.new_ok.mpr
      ⟨⟨hn, hc.size⟩, hsize, h.distinct, hlt, rfl, rfl, rfl, rfl⟩
  · rw [MlDsaStatusList.length_toBytes, hslots, hsigs]
    exact hsize
  · refine verifyStatusList_iff.mpr ⟨hslots, by omega, by omega, ?_⟩
    rw [hi]
    show ∀ p ∈ ((sortPairs pairs).map Prod.fst).zip ((sortPairs pairs).map Prod.snd), _
    rw [zip_fst_snd]
    exact fun p hp => h.valid p (hperm.mem_iff.mp hp)

/-- The quorum predicate of an ML-DSA anchor. Soundness: whatever decodes and is
accepted has at least `threshold` distinct members behind it, each with a
signature that is valid for the record's own statement, every index is in range
and every signature is checked. Completeness: any set of at least `threshold`
valid signatures, in any order, builds a record if it fits the byte limit, and
the record is accepted as it is and after encoding and decoding. -/
theorem mlDsa_quorum_sound_and_complete (K : Primitives) (hk : K.Canonical) (c : Anchor K) :
    (∀ bytes r, MlDsaStatusList.fromBytes K bytes = .ok r →
      verifyStatusList c.committee r = some true →
      (∃ keys, Quorum c.committee r keys) ∧
      ∀ i ∈ r.signerIndices, i < c.committee.members.length) ∧
    (∀ list version pairs, ValidSet c.committee list version pairs →
      c.committee.threshold ≤ pairs.length →
      recordSize c.committee.members.length list.length pairs.length ≤ maxRecordBytes →
      ∃ r, MlDsaStatusList.new K list version c.committee.members.length pairs = .ok r ∧
        r.toBytes.length = recordSize c.committee.members.length list.length pairs.length ∧
        verifyStatusList c.committee r = some true ∧
        ∃ r', MlDsaStatusList.fromBytes K r.toBytes = .ok r' ∧
          verifyStatusList c.committee r' = some true) := by
  refine ⟨?_, ?_⟩
  · intro bytes r _ hv
    exact quorum_of_verifyStatusList c.wellFormed hv
  · intro list version pairs h ht hsize
    obtain ⟨r, hr, hcount, hn, hlen, hv⟩ := verifyStatusList_new c.wellFormed h ht hsize
    obtain ⟨-, -, -, -, hl, -, hb, hs⟩ := MlDsaStatusList.new_ok.mp hr
    refine ⟨r, hr, ?_, hv, r, MlDsaStatusList.fromBytes_toBytes hk hn hcount hlen, hv⟩
    rw [MlDsaStatusList.length_toBytes, MlDsaStatusList.signerSlots, hb, hl, hs, length_setBits,
      List.length_map, (sortPairs_perm pairs).length_eq]

end

theorem mlDsa_quorum_sound_and_complete_sample : ∃ r r',
    MlDsaStatusList.new trioPrimitives [L3.Protocol.trioEntry] 1 3 trioPairs = .ok r ∧
    MlDsaStatusList.fromBytes trioPrimitives r.toBytes = .ok r' ∧
    verifyStatusList trioCommittee r' = some true ∧ ∃ keys, Quorum trioCommittee r' keys := by
  obtain ⟨hsound, hcomplete⟩ :=
    mlDsa_quorum_sound_and_complete trioPrimitives trioPrimitives_canonical trioAnchor
  have hset : ValidSet trioCommittee [L3.Protocol.trioEntry] 1 trioPairs := by
    refine ⟨trioPairs_indices ▸ by decide, fun p hp => ?_⟩
    obtain ⟨i, -, rfl⟩ := List.mem_map.mp hp
    exact ⟨trioKeys.get i, List.getElem?_eq_getElem _, trioPrimitives_verify (List.get_mem _ _)⟩
  obtain ⟨r, hr, -, -, r', hr', hv'⟩ :=
    hcomplete [L3.Protocol.trioEntry] 1 trioPairs hset (le_refl 2) (by decide)
  exact ⟨r, r', hr, hr', hv', (hsound _ r' hr' hv').1⟩

end Drot.L4.MlDsaVerifier
