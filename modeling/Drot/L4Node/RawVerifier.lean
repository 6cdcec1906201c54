import Drot.L3Protocol.StatusList

/-!
# The raw quorum predicate (`node/raw_verifier.rs`)

`verify_status_list` with its checks in the source's order. Indexing
`members[i]` can panic in Rust, so the predicate answers `none` for a panic;
`verifyStatusList_total` says it never does. leanVM's signature check is a
parameter.

* `verifyStatusList_iff`: what acceptance means.
* `raw_quorum_sound_and_complete`: soundness for every decoded byte string,
  completeness for every set of valid signatures, directly and through the wire
  for records below `2^32` bytes. `wire_completeness_fails` is the reason for
  the bound: an SSZ offset has four bytes.
-/
namespace Drot.L4.RawVerifier
open Bytes Ssz Bitmap L1.Message L3.Protocol

/-- `leanvm::xmss::verify(pk, message, signature, slot).is_ok()` -/
abbrev XmssVerify := XmssPublicKey → Blob 32 → XmssSignature → UInt32 → Bool

section
variable (H : Hashes) (verify : XmssVerify)

/-- mirrors src/src/node/raw_verifier.rs:66-125 -/
def verifyStatusList (c : Committee) (r : StatusList) : Option Bool :=
  if c.threshold = 0 then some false
  else if r.signerSlots ≠ c.members.length then some false
  else if r.signerCount < c.threshold ∨ r.signerCount ≠ r.signatures.length then some false
  else match c.slotFor r.version with
    | none => some false
    | some slot =>
      checkAll c.members
        (fun pk sig => verify pk (c.messageFor H r.alg r.statusList r.version) sig slot)
        (r.signerIndices.zip r.signatures)

end

section
variable {H : Hashes} {verify : XmssVerify}

theorem signerIndices_lt (r : StatusList) : ∀ i ∈ r.signerIndices, i < r.signerSlots := by
  intro i hi
  exact (List.getElem?_eq_some_iff.mp (mem_indicesOf.mp hi)).1

/-- The predicate never panics: the width check bounds every index. -/
theorem verifyStatusList_total (c : Committee) (r : StatusList) :
    ∃ b, verifyStatusList H verify c r = some b := by
  unfold verifyStatusList
  split
  · exact ⟨_, rfl⟩
  split
  · exact ⟨_, rfl⟩
  rename_i hw
  split
  · exact ⟨_, rfl⟩
  split
  · exact ⟨_, rfl⟩
  · refine checkAll_of_lt fun p hp => ?_
    rw [not_not] at hw
    rw [← hw]
    exact signerIndices_lt r p.1 (List.of_mem_zip hp).1

/-- What the predicate accepts. -/
theorem verifyStatusList_iff {c : Committee} {r : StatusList} :
    verifyStatusList H verify c r = some true ↔
      1 ≤ c.t ∧ r.signerSlots = c.members.length ∧ c.t ≤ r.signerCount ∧
      r.signerCount = r.signatures.length ∧ ∃ slot, c.slotFor r.version = some slot ∧
      ∀ p ∈ r.signerIndices.zip r.signatures, ∃ pk, c.members[p.1]? = some pk ∧
        verify pk (c.messageFor H r.alg r.statusList r.version) p.2 slot = true := by
  unfold verifyStatusList Committee.threshold
  by_cases h0 : c.t = 0
  · rw [if_pos h0]
    simp only [Option.some.injEq, Bool.false_eq_true, false_iff]
    intro h; omega
  rw [if_neg h0]
  by_cases hw : r.signerSlots = c.members.length
  · rw [if_neg (not_not.mpr hw)]
    by_cases hq : r.signerCount < c.t ∨ r.signerCount ≠ r.signatures.length
    · rw [if_pos hq]
      simp only [Option.some.injEq, Bool.false_eq_true, false_iff]
      intro h; omega
    · rw [if_neg hq]
      cases hs : c.slotFor r.version with
      | none => simp
      | some slot =>
        simp only [checkAll_eq_true, Option.some.injEq, exists_eq_left']
        constructor
        · intro h
          exact ⟨by omega, hw, by omega, by omega, h⟩
        · intro h
          exact h.2.2.2.2
  · rw [if_pos hw]
    simp only [Option.some.injEq, Bool.false_eq_true, false_iff]
    intro h
    exact hw h.2.1

/-! ## Soundness -/

/-- A quorum behind a record: `keys` are distinct members, at least `t` of them,
and every signature of the record is checked against its own key. -/
structure Quorum (H : Hashes) (verify : XmssVerify) (c : Committee) (r : StatusList) (slot : UInt32)
    (keys : List XmssPublicKey) : Prop where
  distinct : keys.Nodup
  enough : c.t ≤ keys.length
  signed : List.Forall₂ (fun pk sig => pk ∈ c.members ∧
    verify pk (c.messageFor H r.alg r.statusList r.version) sig slot = true) keys r.signatures

theorem quorum_of_accepted {c : Committee} (hd : c.members.Nodup) {r : StatusList}
    (h : verifyStatusList H verify c r = some true) :
    ∃ slot keys, c.slotFor r.version = some slot ∧ Quorum H verify c r slot keys ∧
      ∀ i ∈ r.signerIndices, i < c.members.length := by
  obtain ⟨-, hw, ht, hcount, slot, hs, hall⟩ := verifyStatusList_iff.mp h
  have hlen : r.signerIndices.length = r.signatures.length := by
    rw [StatusList.signerIndices, length_indicesOf]; exact hcount
  have hn : r.signerIndices.Nodup := (indicesOf_sorted _).imp Nat.ne_of_lt
  obtain ⟨keys, h1, h2, -⟩ := named_keys (Q := fun pk sig =>
    verify pk (c.messageFor H r.alg r.statusList r.version) sig slot = true) hd hn hlen hall
  refine ⟨slot, keys, hs, ⟨h1, ?_, h2⟩, fun i hi => ?_⟩
  · rw [h2.length_eq]; omega
  · rw [← hw]; exact signerIndices_lt r i hi

/-! ## Completeness -/

/-- Signatures by members, at most one for each index, all valid for the
statement; in any order. -/
structure ValidSet (H : Hashes) (verify : XmssVerify) (c : Committee) (alg : Algorithms)
    (list : List Entry) (version slot : UInt32) (pairs : List (Nat × XmssSignature)) : Prop where
  derived : c.slotFor version = some slot
  distinct : (pairs.map Prod.fst).Nodup
  valid : ∀ p ∈ pairs, ∃ pk, c.members[p.1]? = some pk ∧
    verify pk (c.messageFor H alg list version) p.2 slot = true

/-- An accepted record carries such a set, with at least `t` signatures. -/
theorem validSet_of_verifyStatusList {c : Committee} {r : StatusList}
    (h : verifyStatusList H verify c r = some true) : ∃ slot,
      ValidSet H verify c r.alg r.statusList r.version slot (r.signerIndices.zip r.signatures) ∧
      c.t ≤ (r.signerIndices.zip r.signatures).length := by
  obtain ⟨-, -, ht, hcount, slot, hs, hall⟩ := verifyStatusList_iff.mp h
  have hlen : r.signerIndices.length = r.signerCount := length_indicesOf _
  have hfst : (r.signerIndices.zip r.signatures).map Prod.fst = r.signerIndices :=
    List.map_fst_zip (by omega)
  refine ⟨slot, ⟨hs, ?_, hall⟩, ?_⟩
  · rw [hfst]
    exact (indicesOf_sorted _).imp Nat.ne_of_lt
  · rw [List.length_zip]
    omega

/-- A record built from valid signatures is accepted exactly when they are
enough. -/
theorem verifyStatusList_new {c : Committee} (hc : WellFormed H c) {alg : Algorithms}
    {list : List Entry} {version slot : UInt32} {pairs : List (Nat × XmssSignature)}
    (h : ValidSet H verify c alg list version slot pairs) :
    ∃ r, StatusList.new alg list version c.members.length pairs = .ok r ∧
      r.statusList = list ∧ r.signatures.length = pairs.length ∧
      r.signerSlots = c.members.length ∧ r.signerCount = r.signatures.length ∧
      (verifyStatusList H verify c r = some true ↔ c.t ≤ pairs.length) := by
  have hlt : ∀ p ∈ pairs, p.1 < c.members.length := by
    intro p hp
    obtain ⟨pk, hpk, -⟩ := h.valid p hp
    exact (List.getElem?_eq_some_iff.mp hpk).1
  obtain ⟨r, hr, rfl, rfl, rfl, hw, hi, hs⟩ := statusList_new_ok alg list version hc.size h.distinct hlt
  have hperm := sortPairs_perm pairs
  have hsig : r.signatures.length = pairs.length := by rw [hs, List.length_map, hperm.length_eq]
  have hcount : r.signerCount = pairs.length := by
    have := length_indicesOf r.signers.bits
    rw [← StatusList.signerIndices, hi, List.length_map, hperm.length_eq] at this
    exact this.symm
  refine ⟨r, hr, rfl, hsig, hw, hcount.trans hsig.symm, ?_⟩
  rw [verifyStatusList_iff]
  constructor
  · intro hv; omega
  · intro ht
    refine ⟨hc.one_le, hw, by omega, by omega, slot, h.derived, ?_⟩
    rw [hi, hs, zip_fst_snd]
    exact fun p hp => h.valid p (hperm.mem_iff.mp hp)

/-- The quorum predicate of an anchor. Soundness: whatever decodes and is
accepted has at least `t` distinct members behind it, each with a signature that
is valid for the record's own statement at the slot the anchor derives, every
index is in range and every signature is checked. Completeness: any set of at
least `t` valid signatures, in any order, builds a record that is accepted, and
accepted again after encoding and decoding if it takes fewer than `2^32` bytes. -/
theorem raw_quorum_sound_and_complete (H : Hashes) (verify : XmssVerify) (c : Anchor H) :
    (∀ bytes r, StatusList.fromBytes bytes = .ok r →
      verifyStatusList H verify c.committee r = some true →
      ∃ slot keys, c.committee.slotFor r.version = some slot ∧
        slot.toNat = c.committee.genesisSlot.toNat + r.version.toNat ∧
        Quorum H verify c.committee r slot keys ∧
        ∀ i ∈ r.signerIndices, i < c.committee.members.length) ∧
    (∀ alg list version slot pairs, ValidSet H verify c.committee alg list version slot pairs →
      c.committee.t ≤ pairs.length →
      ∃ r, StatusList.new alg list version c.committee.members.length pairs = .ok r ∧
        verifyStatusList H verify c.committee r = some true ∧
        (r.toBytes.length < 2 ^ 32 → ∃ r', StatusList.fromBytes r.toBytes = .ok r' ∧
          verifyStatusList H verify c.committee r' = some true)) := by
  refine ⟨?_, ?_⟩
  · intro bytes r _ hv
    obtain ⟨slot, keys, hs, hq, hi⟩ := quorum_of_accepted c.wellFormed.distinct hv
    refine ⟨slot, keys, hs, ?_, hq, hi⟩
    unfold Committee.slotFor at hs
    split at hs
    · cases hs
      rw [UInt32.toNat_add]; omega
    · cases hs
  · intro alg list version slot pairs h ht
    obtain ⟨r, hr, -, -, -, hc, hv⟩ := verifyStatusList_new c.wellFormed h
    exact ⟨r, hr, hv.mpr ht, fun hl => ⟨r, StatusList.fromBytes_toBytes hc hl, hv.mpr ht⟩⟩

end

/-! ## The limit of the wire -/

/-- Where the offsets have wrapped around: the list reads as empty and its first
byte as the bitmap. -/
theorem decode_wrapped (rest : Bytes) :
    RecordWire.decode maxCommitteeSize 1208
      ([1, 17, 0, 0, 0, 0, 0, 0, 0, 17, 0, 0, 0, 18, 0, 0, 0] ++ 0 :: rest) = none := by
  have hd : decodeFields [.fixed 1, .var, .fixed 4, .var, .var]
      ([1, 17, 0, 0, 0, 0, 0, 0, 0, 17, 0, 0, 0, 18, 0, 0, 0] ++ 0 :: rest) =
      some [[1], [], [0, 0, 0, 0], [0], rest] := by
    simp [decodeFields, register, ofLe, offsets, resolve, slice, fixedLen, Shape.width]
  unfold RecordWire.decode
  rw [hd]
  have hb : decodeBits maxCommitteeSize [0] = none := by
    simp [decodeBits, ofLe]
  simp only [hb]
  cases decodeVec 32 [] <;> rfl

/-- Completeness through the wire with no bound on the record. -/
def CompleteThroughWire (H : Hashes) (verify : XmssVerify) (c : Committee) : Prop :=
  ∀ alg list version slot pairs, ValidSet H verify c alg list version slot pairs →
    c.t ≤ pairs.length → ∃ r, StatusList.new alg list version c.members.length pairs = .ok r ∧
      ∃ r', StatusList.fromBytes r.toBytes = .ok r' ∧ verifyStatusList H verify c r' = some true

theorem length_zeroBytes : (List.replicate 32 (0 : UInt8)).length = 32 := List.length_replicate

def zeroEntry : Entry := ⟨List.replicate 32 0, length_zeroBytes⟩

/-- A list of `2^27` entries takes `2^32` bytes. -/
def bigList : List Entry := List.replicate (2 ^ 27) zeroEntry

theorem encodeVec_bigList : ∃ rest, encodeVec bigList = 0 :: rest ∧ rest.length + 1 = 2 ^ 32 := by
  have h1 : bigList = zeroEntry :: List.replicate (2 ^ 27 - 1) zeroEntry := by
    rw [bigList, ← List.replicate_succ]
    congr 1
  have h2 : encodeVec bigList =
      0 :: (List.replicate 31 0 ++ encodeVec (List.replicate (2 ^ 27 - 1) zeroEntry)) := by
    rw [h1]; rfl
  refine ⟨_, h2, ?_⟩
  rw [List.length_append, length_encodeVec, List.length_replicate, List.length_replicate]
  norm_num

/-- The record over `bigList` signed by the one member of a committee. -/
theorem toBytes_bigList {r : StatusList} (hl : r.statusList = bigList) (ha : r.alg = .wotsXmss)
    (hv : r.version = 0) (hb : (encodeBits r.signers).length = 1) : ∃ rest,
    r.toBytes = [1, 17, 0, 0, 0, 0, 0, 0, 0, 17, 0, 0, 0, 18, 0, 0, 0] ++ 0 :: rest := by
  obtain ⟨rest, hrest, hlen⟩ := encodeVec_bigList
  refine ⟨rest ++ (encodeBits r.signers ++ encodeVec r.signatures), ?_⟩
  have e2 : (17 + (rest.length + 1)) % 2 ^ 32 = 17 := by omega
  have e3 : (17 + (rest.length + 1) + 1) % 2 ^ 32 = 18 := by omega
  unfold StatusList.toBytes RecordWire.encode encodeFields
  have hf : r.wire.fields = [(.fixed 1, [1]), (.var, 0 :: rest), (.fixed 4, [0, 0, 0, 0]),
      (.var, encodeBits r.signers), (.var, encodeVec r.signatures)] := by
    unfold RecordWire.fields StatusList.wire
    simp only [hl, hrest, ha, hv]
    rfl
  rw [hf]
  simp only [fixedLen, List.map_cons, List.map_nil, Shape.width, List.sum_cons, List.sum_nil,
    header, varParts, List.flatten_cons, List.flatten_nil, List.length_cons, hb, e2, e3,
    Nat.reduceAdd, Nat.reduceMod, leBytes, List.append_nil]
  simp

/-- A one-member committee with a valid signature over `2^27` entries is not
complete through the wire: the record is built and accepted, but its encoding
does not decode. -/
theorem not_completeThroughWire {H : Hashes} {verify : XmssVerify} (c : Anchor H)
    {sig : XmssSignature} (hm : c.committee.members = [sampleKey]) (ht : c.committee.t = 1)
    (hg : c.committee.genesisSlot = 100)
    (hv : verify sampleKey (c.committee.messageFor H .wotsXmss bigList 0) sig 100 = true) :
    ¬ CompleteThroughWire H verify c.committee := by
  intro hcomplete
  have hset : ValidSet H verify c.committee .wotsXmss bigList 0 100 [(0, sig)] := by
    refine ⟨?_, by simp, ?_⟩
    · unfold Committee.slotFor; rw [hg]; rfl
    · intro p hp
      rw [List.mem_singleton] at hp
      subst hp
      exact ⟨sampleKey, by rw [hm]; rfl, hv⟩
  obtain ⟨r, hr, r', hr', -⟩ := hcomplete _ _ _ _ _ hset (by rw [ht]; simp)
  have hlt : ∀ p ∈ [(0, sig)], p.1 < c.committee.members.length := by rw [hm]; simp
  obtain ⟨r₁, hr₁, ha, hl, hver, hw, -, -⟩ :=
    statusList_new_ok .wotsXmss bigList 0 c.wellFormed.size (by simp) hlt
  obtain rfl : r₁ = r := Except.ok.inj (hr₁.symm.trans hr)
  have hbits : (encodeBits r₁.signers).length = 1 := by
    rw [length_encodeBits, ← StatusList.signerSlots, hw, hm]; rfl
  obtain ⟨rest, hrest⟩ := toBytes_bigList hl ha hver hbits
  unfold StatusList.fromBytes at hr'
  rw [hrest, decode_wrapped] at hr'
  cases hr'

def sampleSignature : XmssSignature := ⟨List.replicate 1208 7, List.length_replicate⟩

/-- The sample member's one signature, over `message` at slot 100. -/
def sampleVerify (message : Blob 32) : XmssVerify := fun pk m sig slot =>
  decide (pk = sampleKey ∧ m = message ∧ sig = sampleSignature ∧ slot = 100)

theorem sampleVerify_self (message : Blob 32) :
    sampleVerify message sampleKey message sampleSignature 100 = true :=
  decide_eq_true ⟨rfl, rfl, rfl, rfl⟩

theorem wire_completeness_fails : ¬ CompleteThroughWire sampleHashes
    (sampleVerify (sampleCommittee.messageFor sampleHashes .wotsXmss bigList 0))
    sampleAnchor.committee := by
  apply not_completeThroughWire sampleAnchor rfl rfl rfl
  · exact sampleVerify_self _

end Drot.L4.RawVerifier
