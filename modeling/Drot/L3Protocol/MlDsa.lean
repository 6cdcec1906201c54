import Drot.L3Protocol.StatusList

/-!
# The ML-DSA-65 anchor and record (`mldsa/src/committee.rs`, `mldsa/src/status_list.rs`)

The second signature scheme has its own anchor, without a genesis slot, and its
own record, in the container of the XMSS one (`RecordWire`). The `ml-dsa` and
`sha3` crates are a parameter (`Primitives`). `usize` has 64 bits, so the
conversion of a threshold from `u64` does not fail.

* `Committee.new_ok`, `Committee.fromBytes_wellFormed`: what the constructors
  check.
* `statement_determines_anchor`: equal statements mean equal anchors, versions
  and lists, and an anchor has one wire form.
* `MlDsaStatusList.new_ok`: when a record is built, and what it holds.
* `MlDsaStatusList.fromBytes_toBytes`: a record that fits reads back.
* `built_records_decode`: the size the constructor checks is the size of what it
  builds, and what it builds decodes; `recordLen_wraps` shows why the size of the
  committee has to be checked first.
-/
namespace Drot.L3.MlDsa
open Bytes Ssz Bitmap L1.Message Protocol

/-- What is called of the `ml-dsa` and `sha3` crates. `decodeKey` is total on
arrays of the right length; `decodeSignature` is not. -/
structure Primitives where
  PublicKey : Type
  Signature : Type
  encodeKey : PublicKey → Blob 1952
  decodeKey : Blob 1952 → PublicKey
  encodeSignature : Signature → Blob 3309
  decodeSignature : Blob 3309 → Option Signature
  verifyWithContext : PublicKey → Bytes → Bytes → Signature → Bool
  sha3_384 : Bytes → Blob 48
  shake256 : Bytes → Blob 64

/-- Under the empty context.
mirrors src/mldsa/src/signer.rs:70-72 -/
def Primitives.verify (K : Primitives) (publicKey : K.PublicKey) (message : Bytes)
    (signature : K.Signature) : Bool :=
  K.verifyWithContext publicKey message [] signature

/-- mirrors src/mldsa/src/status_list.rs:14-30 -/
def maxCommitteeSize : Nat := 2048
def maxRecordBytes : Nat := 64 * 1024 * 1024
def algorithmTag : UInt8 := 2
def statementDomain : Bytes := ascii "decentralized-root-of-trust/ml-dsa-65/status-list/v2\x00"

/-- mirrors src/mldsa/src/committee.rs:22-26 -/
def anchorIdDomain : Bytes := ascii "decentralized-root-of-trust/ml-dsa-65/anchor-id/v1\x00"
def maxCommitteeWireBytes : Nat := (4 + 8) + maxCommitteeSize * 1952

/-! ## The signed statement -/

/-- mirrors src/mldsa/src/status_list.rs:50-55 -/
def statementFields (anchorId : Blob 48) (list : List Entry) (version : UInt32) : List Field :=
  [(.fixed 1, [algorithmTag]), (.fixed 48, anchorId.1), (.fixed 4, leBytes 4 version.toNat),
    (.var, encodeVec list)]

/-- mirrors src/mldsa/src/status_list.rs:62-78 -/
def statementPreimage (anchorId : Blob 48) (list : List Entry) (version : UInt32) : Bytes :=
  statementDomain ++ encodeFields (statementFields anchorId list version)

/-- mirrors src/mldsa/src/status_list.rs:99-109 -/
def statementDigest (K : Primitives) (anchorId : Blob 48) (list : List Entry) (version : UInt32) :
    Blob 64 :=
  K.shake256 (statementPreimage anchorId list version)

/-! ## The anchor -/

/-- mirrors src/mldsa/src/committee.rs:41-45 -/
structure Committee (K : Primitives) where
  members : List K.PublicKey
  threshold : Nat
  anchorId : Blob 48

section
variable (K : Primitives)

/-- mirrors src/mldsa/src/committee.rs:57-65 -/
def decodePublicKey (bytes : Blob 1952) : Except String K.PublicKey :=
  if K.encodeKey (K.decodeKey bytes) ≠ bytes then .error "non-canonical ML-DSA-65 public key"
  else .ok (K.decodeKey bytes)

/-- mirrors src/mldsa/src/committee.rs:67-86 -/
def validateMembers (members : List K.PublicKey) : Except String Unit :=
  if members.isEmpty then .error "committee must contain at least one member"
  else if members.length > maxCommitteeSize then
    .error s!"committee names {members.length} members, above the ceiling of {maxCommitteeSize}"
  else if duplicateAfter [] (members.map K.encodeKey) then
    .error "committee contains duplicate member public keys"
  else .ok ()

/-- mirrors src/mldsa/src/committee.rs:88-95 -/
def validateThreshold (threshold memberCount : Nat) : Except String Unit :=
  if ¬ (1 ≤ threshold ∧ threshold ≤ memberCount) then
    .error s!"committee threshold {threshold} outside 1..={memberCount}"
  else .ok ()

/-- mirrors src/mldsa/src/committee.rs:97-103 -/
def wireBytes (members : List K.PublicKey) (threshold : Nat) : Bytes :=
  encodeFields [(.var, encodeVec (members.map K.encodeKey)), (.fixed 8, leBytes 8 threshold)]

/-- mirrors src/mldsa/src/committee.rs:109-118 -/
def anchorIdFromCanonicalBytes (bytes : Bytes) : Blob 48 := K.sha3_384 (anchorIdDomain ++ bytes)

namespace Committee

/-- mirrors src/mldsa/src/committee.rs:125-134 -/
def new (members : List K.PublicKey) (threshold : Nat) : Except String (Committee K) := do
  validateMembers K members
  validateThreshold threshold members.length
  return { members, threshold,
           anchorId := anchorIdFromCanonicalBytes K (wireBytes K members threshold) }

/-- mirrors src/mldsa/src/committee.rs:31-34 -/
def decodeWire (bytes : Bytes) : Option (List (Blob 1952) × Nat) :=
  match decodeFields [.var, .fixed 8] bytes with
  | some [members, threshold] =>
    (decodeVec 1952 members).map fun members => (members, ofLe threshold)
  | _ => none

/-- The text of `ssz::DecodeError` is left out.
mirrors src/mldsa/src/committee.rs:137-168 -/
def fromBytes (bytes : Bytes) : Except String (Committee K) :=
  if bytes.length > maxCommitteeWireBytes then
    .error s!"committee wire size {bytes.length} B is above the ceiling of {maxCommitteeWireBytes} B"
  else match decodeWire bytes with
    | none => .error "invalid ML-DSA committee SSZ"
    | some (raw, threshold) => do
      let members ← raw.mapM (decodePublicKey K)
      validateMembers K members
      validateThreshold threshold members.length
      if wireBytes K members threshold ≠ bytes then .error "non-canonical ML-DSA committee SSZ"
      else .ok { members, threshold, anchorId := anchorIdFromCanonicalBytes K bytes }

variable {K}

/-- mirrors src/mldsa/src/committee.rs:171-173 -/
def toBytes (c : Committee K) : Bytes := wireBytes K c.members c.threshold

/-- mirrors src/mldsa/src/committee.rs:186-188 -/
def memberCount (c : Committee K) : Nat := c.members.length

/-- mirrors src/mldsa/src/committee.rs:210-216 -/
def statementFor (c : Committee K) (list : List Entry) (version : UInt32) : Blob 64 :=
  statementDigest K c.anchorId list version

end Committee
end

/-- The fields are private: an anchor came from `new` or from `from_bytes`. -/
structure Anchor (K : Primitives) where
  committee : Committee K
  built : (∃ members threshold, Committee.new K members threshold = .ok committee) ∨
    ∃ bytes, Committee.fromBytes K bytes = .ok committee

/-! ## The record -/

/-- mirrors src/mldsa/src/status_list.rs:134-139 -/
structure MlDsaStatusList (K : Primitives) where
  statusList : List Entry
  version : UInt32
  signers : BitList maxCommitteeSize
  signatures : List K.Signature

/-- `usize::checked_add` and `checked_mul`. -/
def checkedAdd (a b : Nat) : Option Nat := if a + b < 2 ^ 64 then some (a + b) else none
def checkedMul (a b : Nat) : Option Nat := if a * b < 2 ^ 64 then some (a * b) else none

/-- The addition to `n_members` is the unchecked one; in a release build it wraps.
mirrors src/mldsa/src/status_list.rs:111-117 -/
def recordLen (nMembers listLen signatureCount : Nat) : Option Nat := do
  let list ← checkedMul listLen 32
  let len ← checkedAdd 17 list
  let len ← checkedAdd len ((nMembers + 8) % 2 ^ 64 / 8)
  let signatures ← checkedMul signatureCount 3309
  checkedAdd len signatures

/-- mirrors src/mldsa/src/status_list.rs:119-127 -/
def checkMemberCount (nMembers : Nat) : Except String Unit :=
  if 1 ≤ nMembers ∧ nMembers ≤ maxCommitteeSize then .ok ()
  else .error s!"committee size {nMembers} outside 1..={maxCommitteeSize}"

namespace MlDsaStatusList

/-- `is_none_or(|len| len > MAX_RECORD_BYTES)` -/
def tooLong : Option Nat → Bool
  | none => true
  | some len => decide (len > maxRecordBytes)

/-- mirrors src/mldsa/src/status_list.rs:146-187 -/
def new (K : Primitives) (statusList : List Entry) (version : UInt32) (nMembers : Nat)
    (signatures : List (Nat × K.Signature)) : Except String (MlDsaStatusList K) := do
  checkMemberCount nMembers
  if signatures.length > nMembers then .error "more signatures than committee members"
  else if tooLong (recordLen nMembers statusList.length signatures.length) then
    .error "ML-DSA status list exceeds the record byte limit"
  else
    let signatures := sortPairs signatures
    if adjacentEqual signatures then .error "duplicate signer index"
    else match signatures.getLast?.filter fun p => decide (nMembers ≤ p.1) with
      | some (index, _) => .error s!"signer index {index} outside committee"
      | none =>
        if h : nMembers ≤ maxCommitteeSize then
          .ok { statusList, version,
                signers := ⟨setBits nMembers (signatures.map Prod.fst), by rw [length_setBits]; exact h⟩,
                signatures := signatures.map Prod.snd }
        else .error "committee bitmap exceeds SSZ limit"

/-- mirrors src/mldsa/src/status_list.rs:218-236 -/
def wire {K : Primitives} (r : MlDsaStatusList K) : RecordWire maxCommitteeSize 3309 :=
  { tag := algorithmTag, statusList := r.statusList, version := r.version, signers := r.signers,
    signatures := r.signatures.map K.encodeSignature }

def toBytes {K : Primitives} (r : MlDsaStatusList K) : Bytes := r.wire.encode

/-- mirrors src/mldsa/src/status_list.rs:261-270 -/
def decodeSignature (K : Primitives) (raw : Blob 3309) : Except String K.Signature :=
  match K.decodeSignature raw with
  | none => .error "malformed ML-DSA signature"
  | some signature =>
    if K.encodeSignature signature ≠ raw then .error "non-canonical ML-DSA signature"
    else .ok signature

/-- mirrors src/mldsa/src/status_list.rs:241-277 -/
def fromBytes (K : Primitives) (bytes : Bytes) : Except String (MlDsaStatusList K) :=
  if bytes.length > maxRecordBytes then .error "ML-DSA status list exceeds the record byte limit"
  else match RecordWire.decode maxCommitteeSize 3309 bytes with
    | none => .error "invalid ML-DSA status-list SSZ"
    | some wire =>
      if wire.tag ≠ algorithmTag then .error s!"unexpected status-list algorithm tag {wire.tag}"
      else do
        checkMemberCount wire.signers.bits.length
        if wire.signatures.length ≠ wire.signers.bits.count true then
          .error "bitmap population differs from signature count"
        else if wire.encode ≠ bytes then .error "non-canonical status-list SSZ"
        else do
          let signatures ← wire.signatures.mapM (decodeSignature K)
          return { statusList := wire.statusList, version := wire.version, signers := wire.signers,
                   signatures }

variable {K : Primitives}

/-- mirrors src/mldsa/src/status_list.rs:197-199 -/
def signerSlots (r : MlDsaStatusList K) : Nat := r.signers.bits.length

/-- mirrors src/mldsa/src/status_list.rs:201-203 -/
def signerCount (r : MlDsaStatusList K) : Nat := r.signers.bits.count true

/-- mirrors src/mldsa/src/status_list.rs:206-211 -/
def signerIndices (r : MlDsaStatusList K) : List Nat := indicesOf r.signers.bits

end MlDsaStatusList

/-! ## Checks that succeed -/

theorem bind_ok {ε α β : Type} {x : Except ε α} {f : α → Except ε β} {b : β} :
    (x >>= f) = .ok b ↔ ∃ a, x = .ok a ∧ f a = .ok b := by
  cases x with
  | error e => simp [Bind.bind, Except.bind]
  | ok a => simp [Bind.bind, Except.bind]

/-- Elements that decode and are the encoding of what they decode to. -/
theorem map_of_mapM_ok {α β : Type} {f : β → Except String α} {g : α → β}
    (h : ∀ b a, f b = .ok a → g a = b) {bs : List β} {as : List α} (hm : bs.mapM f = .ok as) :
    as.map g = bs := by
  induction bs generalizing as with
  | nil => cases hm; rfl
  | cons b bs ih =>
    rw [List.mapM_cons] at hm
    obtain ⟨a, ha, hm⟩ := bind_ok.mp hm
    obtain ⟨as', has, hm⟩ := bind_ok.mp hm
    cases hm
    rw [List.map_cons, h b a ha, ih has]

theorem mapM_map_ok {α β : Type} {f : β → Except String α} {g : α → β}
    (h : ∀ a, f (g a) = .ok a) (as : List α) : (as.map g).mapM f = .ok as := by
  induction as with
  | nil => rfl
  | cons a as ih =>
    rw [List.map_cons, List.mapM_cons]
    exact bind_ok.mpr ⟨a, h a, bind_ok.mpr ⟨as, ih, rfl⟩⟩

/-- Decoding undoes encoding. -/
structure Primitives.Canonical (K : Primitives) : Prop where
  key : ∀ publicKey, K.decodeKey (K.encodeKey publicKey) = publicKey
  signature : ∀ signature, K.decodeSignature (K.encodeSignature signature) = some signature

theorem Primitives.Canonical.encodeKey_injective {K : Primitives} (h : K.Canonical) :
    Function.Injective K.encodeKey := Function.LeftInverse.injective h.key

section
variable {K : Primitives}

theorem decodePublicKey_encodeKey (h : K.Canonical) (pk : K.PublicKey) :
    decodePublicKey K (K.encodeKey pk) = .ok pk := by
  unfold decodePublicKey
  rw [h.key, if_neg (by simp)]

theorem validateMembers_ok {members : List K.PublicKey} :
    validateMembers K members = .ok () ↔ members ≠ [] ∧ members.length ≤ maxCommitteeSize ∧
      (members.map K.encodeKey).Nodup := by
  unfold validateMembers
  split
  · rename_i h
    simp_all
  rename_i hne
  split
  · rename_i hn
    simp only [reduceCtorEq, false_iff]
    intro h
    omega
  rename_i hn
  split
  · rename_i hd
    simp only [reduceCtorEq, false_iff]
    intro h
    rw [duplicateAfter_eq_false.mpr ⟨h.2.2, by simp⟩] at hd
    cases hd
  · rename_i hd
    refine ⟨fun _ => ⟨by simpa using hne, by omega, ?_⟩, fun _ => rfl⟩
    exact (duplicateAfter_eq_false.mp (Bool.not_eq_true _ ▸ hd)).1

theorem validateThreshold_ok {threshold memberCount : Nat} :
    validateThreshold threshold memberCount = .ok () ↔ 1 ≤ threshold ∧ threshold ≤ memberCount := by
  unfold validateThreshold
  split
  · rename_i h
    simp only [reduceCtorEq, false_iff]
    exact h
  · rename_i h
    exact ⟨fun _ => not_not.mp h, fun _ => rfl⟩

/-! ## Well-formed anchors -/

structure WellFormed (c : Committee K) : Prop where
  one_le : 1 ≤ c.threshold
  le_count : c.threshold ≤ c.members.length
  size : c.members.length ≤ maxCommitteeSize
  distinct : (c.members.map K.encodeKey).Nodup
  anchorId : c.anchorId = anchorIdFromCanonicalBytes K c.toBytes

theorem Committee.new_ok {members : List K.PublicKey} {threshold : Nat} {c : Committee K} :
    Committee.new K members threshold = .ok c ↔
      members.length ≤ maxCommitteeSize ∧ (members.map K.encodeKey).Nodup ∧
      (1 ≤ threshold ∧ threshold ≤ members.length) ∧
      c = ⟨members, threshold, anchorIdFromCanonicalBytes K (wireBytes K members threshold)⟩ := by
  unfold Committee.new
  constructor
  · intro h
    obtain ⟨⟨⟩, hm, h⟩ := bind_ok.mp h
    obtain ⟨⟨⟩, ht, h⟩ := bind_ok.mp h
    obtain ⟨-, hn, hd⟩ := validateMembers_ok.mp hm
    cases h
    exact ⟨hn, hd, validateThreshold_ok.mp ht, rfl⟩
  · intro h
    obtain ⟨hn, hd, ht, rfl⟩ := h
    have hne : members ≠ [] := by
      intro h
      subst h
      simp only [List.length_nil] at ht
      omega
    exact bind_ok.mpr ⟨(), validateMembers_ok.mpr ⟨hne, hn, hd⟩,
      bind_ok.mpr ⟨(), validateThreshold_ok.mpr ht, rfl⟩⟩

theorem Committee.new_wellFormed {members : List K.PublicKey} {threshold : Nat} {c : Committee K}
    (h : Committee.new K members threshold = .ok c) : WellFormed c := by
  obtain ⟨hn, hd, ht, rfl⟩ := Committee.new_ok.mp h
  exact ⟨ht.1, ht.2, hn, hd, rfl⟩

theorem Committee.fromBytes_wellFormed {bytes : Bytes} {c : Committee K}
    (h : Committee.fromBytes K bytes = .ok c) : WellFormed c ∧ c.toBytes = bytes := by
  unfold Committee.fromBytes at h
  split at h
  · cases h
  split at h
  · cases h
  obtain ⟨members, -, h⟩ := bind_ok.mp h
  obtain ⟨⟨⟩, hm, h⟩ := bind_ok.mp h
  obtain ⟨⟨⟩, ht, h⟩ := bind_ok.mp h
  split at h
  · cases h
  rename_i hcanon
  cases h
  obtain ⟨-, hn, hd⟩ := validateMembers_ok.mp hm
  obtain ⟨h1, h2⟩ := validateThreshold_ok.mp ht
  have hc := not_not.mp hcanon
  refine ⟨⟨h1, h2, hn, hd, ?_⟩, hc⟩
  exact congrArg (anchorIdFromCanonicalBytes K) hc.symm

theorem Anchor.wellFormed (c : Anchor K) : WellFormed c.committee := by
  rcases c.built with ⟨members, threshold, h⟩ | ⟨bytes, h⟩
  · exact Committee.new_wellFormed h
  · exact (Committee.fromBytes_wellFormed h).1

/-- A well-formed anchor is the one `new` builds from its members and threshold. -/
theorem WellFormed.new_eq {c : Committee K} (h : WellFormed c) :
    Committee.new K c.members c.threshold = .ok c := by
  refine Committee.new_ok.mpr ⟨h.size, h.distinct, ⟨h.one_le, h.le_count⟩, ?_⟩
  show (⟨c.members, c.threshold, c.anchorId⟩ : Committee K) = _
  rw [h.anchorId]
  rfl

/-! ## The wire form of an anchor -/

theorem wireBytes_eq (members : List K.PublicKey) (threshold : Nat) :
    wireBytes K members threshold =
      leBytes 4 12 ++ (leBytes 8 threshold ++ encodeVec (members.map K.encodeKey)) := by
  simp [wireBytes, encodeFields, header, varParts, fixedLen, Shape.width]

theorem wireBytes_inj (hk : K.Canonical) {members members' : List K.PublicKey}
    {threshold threshold' : Nat} (ht : threshold < 2 ^ 64) (ht' : threshold' < 2 ^ 64)
    (h : wireBytes K members threshold = wireBytes K members' threshold') :
    members = members' ∧ threshold = threshold' := by
  rw [wireBytes_eq, wireBytes_eq] at h
  obtain ⟨-, h⟩ := List.append_inj h rfl
  obtain ⟨h8, hvec⟩ := List.append_inj h (by simp)
  refine ⟨?_, leBytes_inj (by omega) (by omega) h8⟩
  exact (List.map_injective_iff.mpr hk.encodeKey_injective) (encodeVec_inj (by decide) hvec)

theorem WellFormed.threshold_lt {c : Committee K} (h : WellFormed c) : c.threshold < 2 ^ 64 := by
  have h1 := h.le_count
  have h2 := h.size
  unfold maxCommitteeSize at h2
  omega

theorem length_toBytes (c : Committee K) :
    c.toBytes.length = 12 + c.members.length * 1952 := by
  rw [Committee.toBytes, wireBytes_eq]
  simp [length_encodeVec]
  omega

theorem decodeWire_toBytes {c : Committee K} (h : WellFormed c) :
    Committee.decodeWire c.toBytes = some (c.members.map K.encodeKey, c.threshold) := by
  have hlen := length_toBytes c
  have hs := h.size
  unfold maxCommitteeSize at hs
  have hd := decodeFields_encodeFields
    [(.var, encodeVec (c.members.map K.encodeKey)), (.fixed 8, leBytes 8 c.threshold)]
    (by intro f hf n hn
        simp only [List.mem_cons, List.not_mem_nil, or_false] at hf
        rcases hf with rfl | rfl <;> cases hn
        simp)
    (by show c.toBytes.length < 2 ^ 32; omega)
  unfold Committee.decodeWire Committee.toBytes wireBytes
  simp only [List.map_cons, List.map_nil] at hd
  rw [hd]
  simp only [decodeVec_encodeVec (show 0 < 1952 by decide), Option.map_some]
  rw [ofLe_leBytes 8 _ (by have := h.threshold_lt; omega)]

/-- What `new` builds reads back as it is. -/
theorem Committee.fromBytes_toBytes (hk : K.Canonical) {c : Committee K} (h : WellFormed c) :
    Committee.fromBytes K c.toBytes = .ok c := by
  have hlen := length_toBytes c
  have hne : c.members ≠ [] := by
    intro he
    have h1 := h.one_le
    have h2 := h.le_count
    rw [he, List.length_nil] at h2
    omega
  unfold Committee.fromBytes
  rw [if_neg (by have := h.size; unfold maxCommitteeWireBytes; omega), decodeWire_toBytes h]
  refine bind_ok.mpr ⟨c.members, mapM_map_ok (decodePublicKey_encodeKey hk) _, ?_⟩
  refine bind_ok.mpr ⟨(), validateMembers_ok.mpr ⟨hne, h.size, h.distinct⟩, ?_⟩
  refine bind_ok.mpr ⟨(), validateThreshold_ok.mpr ⟨h.one_le, h.le_count⟩, ?_⟩
  have hcanon : wireBytes K c.members c.threshold = c.toBytes := rfl
  rw [if_neg (not_not.mpr hcanon)]
  show Except.ok (⟨c.members, c.threshold, _⟩ : Committee K) = .ok ⟨c.members, c.threshold, c.anchorId⟩
  rw [h.anchorId]

/-! ## The statement determines the anchor -/

theorem statementPreimage_eq (anchorId : Blob 48) (list : List Entry) (version : UInt32) :
    statementPreimage anchorId list version = statementDomain ++ ([algorithmTag] ++
      (anchorId.1 ++ (leBytes 4 version.toNat ++ (leBytes 4 57 ++ encodeVec list)))) := by
  simp [statementPreimage, statementFields, encodeFields, header, varParts, fixedLen, Shape.width]

/-- The framing is injective: the offset is the same for every list, and the
list is what remains. -/
theorem statementPreimage_inj {a a' : Blob 48} {l l' : List Entry} {v v' : UInt32}
    (h : statementPreimage a l v = statementPreimage a' l' v') : a = a' ∧ l = l' ∧ v = v' := by
  rw [statementPreimage_eq, statementPreimage_eq] at h
  obtain ⟨-, h⟩ := List.append_inj h rfl
  obtain ⟨-, h⟩ := List.append_inj h rfl
  obtain ⟨ha, h⟩ := List.append_inj h (by rw [a.2, a'.2])
  obtain ⟨hv, h⟩ := List.append_inj h (by simp)
  obtain ⟨-, hl⟩ := List.append_inj h rfl
  exact ⟨Subtype.ext ha, encodeVec_inj (by decide) hl, version_inj hv⟩

/-- The hashes do not collide on the inputs of two statements: the anchors'
encodings behind their domain, and the framed statements. -/
structure CollisionFree (c c' : Committee K) (l l' : List Entry) (v v' : UInt32) : Prop where
  sha3_384 : Set.InjOn K.sha3_384 {anchorIdDomain ++ c.toBytes, anchorIdDomain ++ c'.toBytes}
  shake256 : Set.InjOn K.shake256
    {statementPreimage c.anchorId l v, statementPreimage c'.anchorId l' v'}

/-- The statement a member signs determines the members in order, the threshold,
the version and the list; an anchor that decodes has one spelling and the
identifier `new` derives; and what `new` builds reads back. -/
theorem statement_determines_anchor (K : Primitives) (hk : K.Canonical) :
    (∀ (c c' : Anchor K) (l l' : List Entry) (v v' : UInt32),
      CollisionFree c.committee c'.committee l l' v v' →
      c.committee.statementFor l v = c'.committee.statementFor l' v' →
      c.committee.members = c'.committee.members ∧
      c.committee.threshold = c'.committee.threshold ∧ v = v' ∧ l = l') ∧
    (∀ bytes c, Committee.fromBytes K bytes = .ok c → c.toBytes = bytes ∧
      ∃ c', Committee.new K c.members c.threshold = .ok c' ∧ c.anchorId = c'.anchorId) ∧
    (∀ members threshold c, Committee.new K members threshold = .ok c →
      c.members = members ∧ c.threshold = threshold ∧
      Committee.fromBytes K c.toBytes = .ok c) := by
  refine ⟨?_, ?_, ?_⟩
  · intro c c' l l' v v' hf h
    have hw := c.wellFormed
    have hw' := c'.wellFormed
    obtain ⟨ha, hl, hv⟩ := statementPreimage_inj (hf.shake256 (by simp) (by simp) h)
    rw [hw.anchorId, hw'.anchorId] at ha
    have hbytes := List.append_cancel_left (hf.sha3_384 (by simp) (by simp) ha)
    obtain ⟨hm, ht⟩ := wireBytes_inj hk hw.threshold_lt hw'.threshold_lt hbytes
    exact ⟨hm, ht, hv, hl⟩
  · intro bytes c h
    obtain ⟨hw, hb⟩ := Committee.fromBytes_wellFormed h
    exact ⟨hb, c, hw.new_eq, rfl⟩
  · intro members threshold c h
    have hw := Committee.new_wellFormed h
    obtain ⟨-, -, -, rfl⟩ := Committee.new_ok.mp h
    exact ⟨rfl, rfl, Committee.fromBytes_toBytes hk hw⟩

/-! ## Records -/

/-- The length of a record over `n` members. -/
def recordSize (n listLen signatureCount : Nat) : Nat :=
  17 + 32 * listLen + (n / 8 + 1) + 3309 * signatureCount

/-- Where the bitmap's length does not wrap, the checked arithmetic overflows
exactly when the length does. -/
theorem recordLen_eq_some {n listLen signatureCount len : Nat} (hn : n + 8 < 2 ^ 64) :
    recordLen n listLen signatureCount = some len ↔
      len = recordSize n listLen signatureCount ∧ len < 2 ^ 64 := by
  unfold recordLen checkedMul checkedAdd recordSize
  have hn : (n + 8) % 2 ^ 64 / 8 = n / 8 + 1 := by
    rw [Nat.mod_eq_of_lt hn]
    omega
  rw [hn]
  constructor
  · intro h
    obtain ⟨a, ha, h⟩ := Option.bind_eq_some_iff.mp h
    obtain ⟨b, hb, h⟩ := Option.bind_eq_some_iff.mp h
    obtain ⟨d, hd, h⟩ := Option.bind_eq_some_iff.mp h
    obtain ⟨e, he, h⟩ := Option.bind_eq_some_iff.mp h
    split at ha <;> cases ha
    split at hb <;> cases hb
    split at hd <;> cases hd
    split at he <;> cases he
    split at h <;> cases h
    omega
  · intro h
    obtain ⟨rfl, h⟩ := h
    simp only [Option.bind_eq_bind]
    rw [if_pos (by omega), Option.bind_some, if_pos (by omega), Option.bind_some,
      if_pos (by omega), Option.bind_some, if_pos (by omega), Option.bind_some,
      if_pos (by omega)]
    congr 1
    omega

/-- On the largest `usize` it does wrap, and the result is too short. -/
theorem recordLen_wraps : recordLen (2 ^ 64 - 1) 0 0 = some 17 ∧
    ¬ (2 ^ 64 - 1) + 8 < 2 ^ 64 ∧ 17 ≠ recordSize (2 ^ 64 - 1) 0 0 := by
  refine ⟨?_, ?_, ?_⟩
  · decide
  · omega
  · unfold recordSize
    omega

theorem tooLong_recordLen {n listLen signatureCount : Nat} (hn : n + 8 < 2 ^ 64) :
    MlDsaStatusList.tooLong (recordLen n listLen signatureCount) = false ↔
      recordSize n listLen signatureCount ≤ maxRecordBytes := by
  unfold MlDsaStatusList.tooLong
  cases hr : recordLen n listLen signatureCount with
  | none =>
    simp only [Bool.true_eq_false, false_iff]
    intro h
    have := (recordLen_eq_some hn).mpr ⟨rfl, show recordSize n listLen signatureCount < 2 ^ 64 by
      unfold maxRecordBytes at h; omega⟩
    rw [hr] at this
    cases this
  | some len =>
    obtain ⟨rfl, -⟩ := (recordLen_eq_some hn).mp hr
    simp

theorem checkMemberCount_ok {n : Nat} :
    checkMemberCount n = .ok () ↔ 1 ≤ n ∧ n ≤ maxCommitteeSize := by
  unfold checkMemberCount
  split
  · rename_i h; simp [h]
  · rename_i h; simp [h]

/-- A size that was checked is far from wrapping. -/
theorem lt_of_checkMemberCount {n : Nat} (h : checkMemberCount n = .ok ()) : n + 8 < 2 ^ 64 := by
  have h := (checkMemberCount_ok.mp h).2
  unfold maxCommitteeSize at h
  omega

namespace MlDsaStatusList

/-- When a record is built, and what it holds. More distinct indices below `n`
than `n` there are not. -/
theorem new_ok {list : List Entry} {version : UInt32} {n : Nat} {pairs : List (Nat × K.Signature)}
    {r : MlDsaStatusList K} : MlDsaStatusList.new K list version n pairs = .ok r ↔
      (1 ≤ n ∧ n ≤ maxCommitteeSize) ∧ recordSize n list.length pairs.length ≤ maxRecordBytes ∧
      (pairs.map Prod.fst).Nodup ∧ (∀ p ∈ pairs, p.1 < n) ∧ r.statusList = list ∧
      r.version = version ∧ r.signers.bits = setBits n ((sortPairs pairs).map Prod.fst) ∧
      r.signatures = (sortPairs pairs).map Prod.snd := by
  unfold MlDsaStatusList.new
  constructor
  · intro h
    obtain ⟨⟨⟩, hn, h⟩ := bind_ok.mp h
    split at h
    · cases h
    split at h
    · cases h
    rename_i hlong
    dsimp only at h
    split at h
    · cases h
    rename_i hadj
    split at h
    · cases h
    rename_i hlast
    split at h
    · cases h
      have hlt := (last_lt (sortPairs_ordered pairs)).mp hlast
      refine ⟨checkMemberCount_ok.mp hn,
        (tooLong_recordLen (lt_of_checkMemberCount hn)).mp (Bool.not_eq_true _ ▸ hlong),
        adjacentEqual_sortPairs.mp (Bool.not_eq_true _ ▸ hadj), fun p hp => ?_, rfl, rfl, rfl, rfl⟩
      exact hlt p ((sortPairs_perm pairs).mem_iff.mpr hp)
    · cases h
  · intro h
    obtain ⟨hn, hsize, hd, hlt, hl, hv, hb, hs⟩ := h
    have hcount : pairs.length ≤ n := by
      have hsub : pairs.map Prod.fst ⊆ List.range n := by
        intro i hi
        obtain ⟨p, hp, rfl⟩ := List.mem_map.mp hi
        exact List.mem_range.mpr (hlt p hp)
      have := (hd.subperm hsub).length_le
      rwa [List.length_map, List.length_range] at this
    have hlast := (last_lt (sortPairs_ordered pairs)).mpr fun p hp =>
      hlt p ((sortPairs_perm pairs).mem_iff.mp hp)
    have hck := checkMemberCount_ok.mpr hn
    have hlong := (tooLong_recordLen (lt_of_checkMemberCount hck)).mpr hsize
    refine bind_ok.mpr ⟨(), hck, ?_⟩
    rw [if_neg (by omega), if_neg (by rw [hlong]; simp)]
    simp only [adjacentEqual_sortPairs.mpr hd, Bool.false_eq_true, if_false, hlast, hn.2, dif_pos]
    obtain ⟨list', version', ⟨bits, hbits⟩, signatures⟩ := r
    simp only at hl hv hb hs
    subst hl hv hb hs
    rfl

theorem length_toBytes (r : MlDsaStatusList K) :
    r.toBytes.length = recordSize r.signerSlots r.statusList.length r.signatures.length := by
  rw [toBytes, RecordWire.length_encode]
  simp only [wire, List.length_map, recordSize, signerSlots]

/-- What a record that decodes satisfies. -/
theorem fromBytes_ok {bytes : Bytes} {r : MlDsaStatusList K}
    (h : MlDsaStatusList.fromBytes K bytes = .ok r) :
    bytes.length ≤ maxRecordBytes ∧ (1 ≤ r.signerSlots ∧ r.signerSlots ≤ maxCommitteeSize) ∧
      r.signatures.length = r.signerCount ∧ r.toBytes = bytes := by
  unfold MlDsaStatusList.fromBytes at h
  split at h
  · cases h
  rename_i hlen
  split at h
  · cases h
  rename_i w hw
  split at h
  · cases h
  rename_i htag
  obtain ⟨⟨⟩, hn, h⟩ := bind_ok.mp h
  split at h
  · cases h
  rename_i hcount
  split at h
  · cases h
  rename_i hcanon
  obtain ⟨signatures, hsig, h⟩ := bind_ok.mp h
  cases h
  have hmap : signatures.map K.encodeSignature = w.signatures := by
    refine map_of_mapM_ok (f := decodeSignature K) ?_ hsig
    intro raw signature hraw
    unfold decodeSignature at hraw
    split at hraw
    · cases hraw
    split at hraw
    · cases hraw
    · rename_i he
      cases hraw
      exact not_not.mp he
  refine ⟨by omega, checkMemberCount_ok.mp hn, ?_, ?_⟩
  · have := congrArg List.length hmap
    rw [List.length_map] at this
    exact this.trans (not_not.mp hcount)
  · rw [← not_not.mp hcanon]
    obtain ⟨tag, list, version, signers, sigs⟩ := w
    simp only at hmap htag
    unfold toBytes wire
    rw [hmap, ← not_not.mp htag]

/-- A record that fits and counts its signatures reads back. -/
theorem fromBytes_toBytes (hk : K.Canonical) {r : MlDsaStatusList K}
    (hn : 1 ≤ r.signerSlots) (hc : r.signatures.length = r.signerCount)
    (hlen : r.toBytes.length ≤ maxRecordBytes) : MlDsaStatusList.fromBytes K r.toBytes = .ok r := by
  have hsig : ∀ signature, decodeSignature K (K.encodeSignature signature) = .ok signature := by
    intro signature
    unfold decodeSignature
    rw [hk.signature]
    exact if_neg (not_not.mpr rfl)
  have hdec : RecordWire.decode maxCommitteeSize 3309 r.toBytes = some r.wire :=
    RecordWire.decode_encode (by decide) r.wire (by
      have : r.wire.encode.length ≤ maxRecordBytes := hlen
      unfold maxRecordBytes at this
      omega)
  have htag : r.wire.tag = algorithmTag := rfl
  have hcount : r.wire.signatures.length = r.wire.signers.bits.count true :=
    (List.length_map _).trans hc
  have hcanon : r.wire.encode = r.toBytes := rfl
  unfold MlDsaStatusList.fromBytes
  rw [if_neg (by omega), hdec]
  dsimp only
  rw [if_neg (not_not.mpr htag)]
  refine bind_ok.mpr ⟨(), checkMemberCount_ok.mpr ⟨hn, r.signers.bound⟩, ?_⟩
  rw [if_neg (not_not.mpr hcount), if_neg (not_not.mpr hcanon)]
  exact bind_ok.mpr ⟨r.signatures, mapM_map_ok hsig _, rfl⟩

/-- The size check of the constructor is the size of what it builds. -/
theorem recordLen_of_new {list : List Entry} {version : UInt32} {n : Nat}
    {pairs : List (Nat × K.Signature)} {r : MlDsaStatusList K}
    (h : MlDsaStatusList.new K list version n pairs = .ok r) :
    recordLen n list.length pairs.length = some r.toBytes.length ∧
      r.toBytes.length ≤ maxRecordBytes ∧ 1 ≤ r.signerSlots ∧
      r.signatures.length = r.signerCount := by
  obtain ⟨hn, hsize, hd, hlt, hl, hv, hb, hs⟩ := new_ok.mp h
  have hslots : r.signerSlots = n := by rw [signerSlots, hb, length_setBits]
  have hcount : r.signatures.length = pairs.length := by
    rw [hs, List.length_map]
    exact (sortPairs_perm pairs).length_eq
  have hbytes : r.toBytes.length = recordSize n list.length pairs.length := by
    rw [length_toBytes, hslots, hl, hcount]
  refine ⟨?_, by omega, by omega, ?_⟩
  · refine (recordLen_eq_some (lt_of_checkMemberCount (checkMemberCount_ok.mpr hn))).mpr ⟨hbytes, ?_⟩
    unfold maxRecordBytes at hsize
    omega
  · have hlt' : ∀ i ∈ (sortPairs pairs).map Prod.fst, i < n := by
      intro i hi
      obtain ⟨p, hp, rfl⟩ := List.mem_map.mp hi
      exact hlt p ((sortPairs_perm pairs).mem_iff.mp hp)
    rw [signerCount, hb, ← length_indicesOf, indicesOf_setBits (sortPairs_sorted hd) hlt', hs,
      List.length_map, List.length_map]

end MlDsaStatusList

/-- The two size gates agree: `record_len` is exact while the bitmap's length does
not wrap, the constructor accepts exactly what fits, what it builds decodes to
itself, and a record that decodes has one spelling. -/
theorem built_records_decode (K : Primitives) (hk : K.Canonical) :
    (∀ n listLen signatureCount len, n + 8 < 2 ^ 64 →
      (recordLen n listLen signatureCount = some len ↔
        len = recordSize n listLen signatureCount ∧ len < 2 ^ 64)) ∧
    (∀ list version n pairs, (∃ r, MlDsaStatusList.new K list version n pairs = .ok r) ↔
      (1 ≤ n ∧ n ≤ 2048) ∧ (pairs.map Prod.fst).Nodup ∧ (∀ p ∈ pairs, p.1 < n) ∧
        ∃ len, recordLen n list.length pairs.length = some len ∧ len ≤ maxRecordBytes) ∧
    (∀ list version n pairs r, MlDsaStatusList.new K list version n pairs = .ok r →
      recordLen n list.length pairs.length = some r.toBytes.length ∧
        MlDsaStatusList.fromBytes K r.toBytes = .ok r) ∧
    ∀ bytes r, MlDsaStatusList.fromBytes K bytes = .ok r → r.toBytes = bytes := by
  refine ⟨fun _ _ _ _ hn => recordLen_eq_some hn, ?_, ?_, ?_⟩
  · intro list version n pairs
    constructor
    · intro ⟨r, h⟩
      obtain ⟨hn, -, hd, hlt, -⟩ := MlDsaStatusList.new_ok.mp h
      obtain ⟨hlen, hmax, -⟩ := MlDsaStatusList.recordLen_of_new h
      exact ⟨hn, hd, hlt, _, hlen, hmax⟩
    · intro ⟨hn, hd, hlt, len, hlen, hmax⟩
      have hck := lt_of_checkMemberCount (checkMemberCount_ok.mpr hn)
      obtain ⟨rfl, -⟩ := (recordLen_eq_some hck).mp hlen
      refine ⟨⟨list, version, ⟨setBits n ((sortPairs pairs).map Prod.fst), ?_⟩, _⟩,
        MlDsaStatusList.new_ok.mpr ⟨hn, hmax, hd, hlt, rfl, rfl, rfl, rfl⟩⟩
      rw [length_setBits]
      exact hn.2
  · intro list version n pairs r h
    obtain ⟨hlen, hmax, hslots, hcount⟩ := MlDsaStatusList.recordLen_of_new h
    exact ⟨hlen, MlDsaStatusList.fromBytes_toBytes hk hslots hcount hmax⟩
  · intro bytes r h
    exact (MlDsaStatusList.fromBytes_ok h).2.2.2
end

/-! ## An anchor of three members -/

/-- A signature with this challenge, a zero response and no hints. -/
def signatureOf (challenge : Blob 48) : Blob 3309 :=
  ⟨challenge.1 ++ ((List.replicate 640 [0, 0, 8, 0, 0x80]).flatten ++ List.replicate 61 0),
    by rw [List.length_append, List.length_append, List.length_flatten, List.map_replicate,
         List.sum_replicate, List.length_replicate, challenge.2]; rfl⟩

/-- The challenge a raw signature starts with. -/
def challengeOf (raw : Blob 3309) : Blob 48 :=
  ⟨raw.1.take 48, by rw [List.length_take, raw.2]; rfl⟩

def decodeChallenge (raw : Blob 3309) : Option (Blob 48) :=
  if signatureOf (challengeOf raw) = raw then some (challengeOf raw) else none

theorem decodeChallenge_signatureOf (challenge : Blob 48) :
    decodeChallenge (signatureOf challenge) = some challenge := by
  have h : challengeOf (signatureOf challenge) = challenge :=
    Subtype.ext (List.take_left' challenge.2)
  unfold decodeChallenge
  rw [h, if_pos rfl]

/-- Three members of whom two must sign, with the digests of the program's hashes
on their anchor and on a list of one entry at version 1. -/
def trioKeys : List (Blob 1952) := [1, 2, 3].map (Blob.replicate 1952)
def trioAnchorId : Blob 48 :=
  ⟨[0x15, 0xa7, 0x43, 0x1a, 0x3d, 0xe5, 0xf7, 0x97, 0x2c, 0x78, 0x87, 0x2d, 0x32, 0x0d, 0xae, 0x61,
    0xef, 0x13, 0x19, 0x70, 0xd3, 0x66, 0x61, 0x80, 0x00, 0x77, 0xcf, 0x59, 0xc1, 0x92, 0x39, 0xc7,
    0x70, 0xe0, 0x56, 0xa4, 0x07, 0x9c, 0xba, 0x3b, 0x46, 0x9d, 0x9c, 0xc9, 0x37, 0x6b, 0xc4, 0x5b], rfl⟩
def trioStatement : Blob 64 :=
  ⟨[0x7f, 0x73, 0xa7, 0x16, 0x48, 0x61, 0x3e, 0xbc, 0x78, 0x63, 0x8f, 0x61, 0xb4, 0xb6, 0x9c, 0x63,
    0x58, 0x4e, 0xf9, 0xc4, 0x54, 0x1b, 0x08, 0xed, 0x10, 0x8f, 0xb3, 0x23, 0x0b, 0xe9, 0x6e, 0x77,
    0xba, 0x0c, 0x8f, 0xb3, 0x90, 0x09, 0x00, 0xc4, 0x35, 0x4b, 0x39, 0x25, 0xb0, 0x95, 0x7f, 0x40,
    0xb1, 0xa7, 0x46, 0xe6, 0x9b, 0x83, 0xac, 0xd2, 0x28, 0xcb, 0xaa, 0xed, 0x4f, 0x9c, 0xd2, 0xc6], rfl⟩

/-- Each of the three signs the one statement with a challenge of its own. -/
def trioChallenge (publicKey : Blob 1952) : Blob 48 := Blob.replicate 48 (publicKey.1.headD 0)

def signedBy (keys : List (Blob 1952)) (messages : List Bytes) (publicKey : Blob 1952)
    (message context : Bytes) : Bool :=
  decide (publicKey ∈ keys ∧ message ∈ messages ∧ context = [])

/-- A signature is its challenge. -/
def trioPrimitives : Primitives where
  PublicKey := Blob 1952
  Signature := Blob 48
  encodeKey := id
  decodeKey := id
  encodeSignature := signatureOf
  decodeSignature := decodeChallenge
  verifyWithContext publicKey message context challenge :=
    signedBy trioKeys [trioStatement.1] publicKey message context &&
      challenge = trioChallenge publicKey
  sha3_384 _ := trioAnchorId
  shake256 _ := trioStatement

theorem trioPrimitives_canonical : trioPrimitives.Canonical :=
  ⟨fun _ => rfl, decodeChallenge_signatureOf⟩

theorem trioPrimitives_verify {publicKey : Blob 1952} (h : publicKey ∈ trioKeys) :
    trioPrimitives.verify publicKey trioStatement.1 (trioChallenge publicKey) = true := by
  refine Bool.and_eq_true_iff.mpr ⟨decide_eq_true ⟨h, ?_, rfl⟩, decide_eq_true rfl⟩
  exact List.mem_singleton_self _

def trioCommittee : Committee trioPrimitives := ⟨trioKeys, 2, trioAnchorId⟩

theorem trioKeys_nodup : trioKeys.Nodup := by
  refine List.Nodup.map (fun a b h => ?_) (by decide)
  exact List.replicate_right_injective (n := 1952) (by decide) (congrArg Subtype.val h)

theorem new_trioCommittee : Committee.new trioPrimitives trioKeys 2 = .ok trioCommittee := by
  refine Committee.new_ok.mpr ⟨?_, ?_, ⟨Nat.le_succ 1, Nat.le_succ 2⟩, rfl⟩
  · show 3 ≤ maxCommitteeSize
    decide
  · show (trioKeys.map id).Nodup
    rw [List.map_id]
    exact trioKeys_nodup

def trioAnchor : Anchor trioPrimitives := ⟨trioCommittee, .inl ⟨_, _, new_trioCommittee⟩⟩

/-- The third member signs before the first. -/
def trioPairs : List (Nat × Blob 48) :=
  [2, 0].map fun i : Fin 3 => (i.1, trioChallenge (trioKeys.get i))

theorem trioPairs_indices : trioPairs.map Prod.fst = [2, 0] := rfl

theorem built_records_decode_sample :
    ∃ r, MlDsaStatusList.new trioPrimitives [trioEntry] 1 3 trioPairs = .ok r ∧
      recordLen 3 1 2 = some r.toBytes.length ∧
      MlDsaStatusList.fromBytes trioPrimitives r.toBytes = .ok r := by
  obtain ⟨hlen, hnew, hread, -⟩ := built_records_decode trioPrimitives trioPrimitives_canonical
  have hsize : 6668 = recordSize 3 1 2 ∧ 6668 < 2 ^ 64 := by
    unfold recordSize
    omega
  have hmax : 6668 ≤ maxRecordBytes := by
    unfold maxRecordBytes
    omega
  have hl : recordLen 3 1 2 = some 6668 := (hlen 3 1 2 6668 (by omega)).mpr hsize
  have hlt : ∀ p ∈ trioPairs, p.1 < 3 := by
    intro p hp
    obtain ⟨i, -, rfl⟩ := List.mem_map.mp hp
    exact i.2
  obtain ⟨r, hr⟩ := (hnew [trioEntry] 1 3 trioPairs).mpr
    ⟨by omega, trioPairs_indices ▸ by decide, hlt, 6668, hl, hmax⟩
  exact ⟨r, hr, hread [trioEntry] 1 3 trioPairs r hr⟩

theorem statement_determines_anchor_sample :
    CollisionFree trioCommittee trioCommittee [trioEntry] [trioEntry] 1 1 ∧
    Committee.fromBytes trioPrimitives trioCommittee.toBytes = .ok trioCommittee ∧
    trioCommittee.members = trioAnchor.committee.members := by
  obtain ⟨h1, -, h3⟩ := statement_determines_anchor trioPrimitives trioPrimitives_canonical
  have hfree : CollisionFree trioCommittee trioCommittee [trioEntry] [trioEntry] 1 1 := by
    refine ⟨?_, ?_⟩
    · rw [Set.pair_eq_singleton]; exact Set.injOn_singleton _ _
    · rw [Set.pair_eq_singleton]; exact Set.injOn_singleton _ _
  exact ⟨hfree, (h3 _ _ _ new_trioCommittee).2.2,
    (h1 trioAnchor trioAnchor [trioEntry] [trioEntry] 1 1 hfree rfl).1⟩

end Drot.L3.MlDsa
