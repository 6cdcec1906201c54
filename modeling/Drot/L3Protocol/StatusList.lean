import Drot.Core.Bitmap
import Drot.L3Protocol.Committee

/-!
# Published records (`protocol/status_list.rs`)

`StatusList` carries raw XMSS signatures and a bitmap of anchor indices,
`SnarkStatusList` the bytes of a leanVM aggregate. Both have one SSZ container.

* `statusList_new_ok`: on distinct indices below `n` the constructor succeeds,
  whatever the order of the pairs; its bitmap has `n` bits, and reading off the
  set bits next to the signatures gives the pairs back, sorted.
* `record_construction_canonical`: it accepts nothing else, never panics, and any
  order of the same pairs gives the same bytes.
* `fromBytes_toBytes`: a record of fewer than `2^32` bytes reads back.
-/
namespace Drot.L3.Protocol
open Bytes Ssz Bitmap L1.Message

abbrev SignerBits := BitList maxCommitteeSize

/-! ## The container of a raw record -/

section
variable {max n : Nat}

/-- One tag, the list, the version, the signer bitmap and the signatures. -/
structure RecordWire (max n : Nat) where
  tag : UInt8
  statusList : List Entry
  version : UInt32
  signers : BitList max
  signatures : List (Blob n)

/-- mirrors src/src/protocol/status_list.rs:35-41 -/
def RecordWire.fields (w : RecordWire max n) : List Field :=
  [(.fixed 1, [w.tag]), (.var, encodeVec w.statusList), (.fixed 4, leBytes 4 w.version.toNat),
    (.var, encodeBits w.signers), (.var, encodeVec w.signatures)]

def RecordWire.encode (w : RecordWire max n) : Bytes := encodeFields w.fields

def RecordWire.decode (max n : Nat) (bytes : Bytes) : Option (RecordWire max n) :=
  match decodeFields [.fixed 1, .var, .fixed 4, .var, .var] bytes with
  | some [[tag], list, version, signers, signatures] => do
    let statusList ← decodeVec 32 list
    let signers ← decodeBits max signers
    let signatures ← decodeVec n signatures
    return { tag, statusList, version := UInt32.ofNat (ofLe version), signers, signatures }
  | _ => none

theorem RecordWire.fits_fields (w : RecordWire max n) : ∀ f ∈ w.fields, Field.Fits f := by
  intro f hf m hm
  simp only [fields, List.mem_cons, List.not_mem_nil, or_false] at hf
  rcases hf with rfl | rfl | rfl | rfl | rfl <;> cases hm <;> simp

theorem RecordWire.length_encode (w : RecordWire max n) : w.encode.length =
    17 + 32 * w.statusList.length + (w.signers.bits.length / 8 + 1) + n * w.signatures.length := by
  unfold encode encodeFields
  rw [List.length_append, length_header _ _ w.fits_fields]
  simp only [fields, fixedLen, List.map_cons, List.map_nil, Shape.width, List.sum_cons,
    List.sum_nil, varParts, List.flatten_cons, List.flatten_nil, List.length_append,
    length_encodeVec, length_encodeBits, List.length_nil, Nat.mul_comm n]
  omega

/-- A container of fewer than `2^32` bytes reads back. -/
theorem RecordWire.decode_encode (hn : 0 < n) (w : RecordWire max n)
    (h : w.encode.length < 2 ^ 32) : decode max n w.encode = some w := by
  have hd := decodeFields_encodeFields w.fields w.fits_fields h
  have hs : w.fields.map Prod.fst = [.fixed 1, .var, .fixed 4, .var, .var] := rfl
  have hv := w.version.toNat_lt
  rw [hs] at hd
  unfold decode encode
  rw [hd]
  simp only [fields, List.map_cons, List.map_nil]
  rw [decodeVec_encodeVec (by decide), decodeBits_encodeBits, decodeVec_encodeVec hn,
    ofLe_leBytes 4 _ (by omega)]
  simp

/-- A `u32` field that was read is written back as it was. -/
theorem leBytes_version {bytes : Bytes} (h : bytes.length = 4) :
    leBytes 4 (UInt32.ofNat (ofLe bytes)).toNat = bytes := by
  have hlt : ofLe bytes < 2 ^ 32 := by
    have := ofLe_lt bytes
    rw [h] at this
    omega
  rw [UInt32.toNat_ofNat', Nat.mod_eq_of_lt hlt, ← h]
  exact leBytes_ofLe bytes

/-- A container has one spelling. -/
theorem RecordWire.encode_decode {bytes : Bytes} {w : RecordWire max n}
    (h : decode max n bytes = some w) : w.encode = bytes := by
  unfold decode at h
  split at h
  · rename_i tag list version signers signatures hd
    obtain ⟨statusList, hlist, h⟩ := Option.bind_eq_some_iff.mp h
    obtain ⟨bits, hbits, h⟩ := Option.bind_eq_some_iff.mp h
    obtain ⟨sigs, hsigs, h⟩ := Option.bind_eq_some_iff.mp h
    cases h
    obtain ⟨-, hfit, henc⟩ := encodeFields_decodeFields hd
    have hv : version.length = 4 := hfit (.fixed 4, version) (by simp) 4 rfl
    rw [← henc]
    unfold encode fields
    rw [encodeVec_decodeVec hlist, encodeBits_decodeBits hbits, encodeVec_decodeVec hsigs,
      leBytes_version hv]
    rfl
  · cases h

end

/-- mirrors src/src/protocol/status_list.rs:272-280 -/
structure StatusList where
  alg : Algorithms
  statusList : List Entry
  version : UInt32
  signers : SignerBits
  signatures : List XmssSignature

/-- mirrors src/src/protocol/status_list.rs:157-162 -/
structure SnarkStatusList where
  alg : Algorithms
  statusList : List Entry
  version : UInt32
  zkProof : Bytes

namespace StatusList

/-- mirrors src/src/protocol/status_list.rs:286-321 -/
def new (alg : Algorithms) (statusList : List Entry) (version : UInt32) (nMembers : Nat)
    (signatures : List (Nat × XmssSignature)) : Except String StatusList :=
  let signatures := sortPairs signatures
  if adjacentEqual signatures then .error "duplicate signer index"
  else match signatures.getLast?.filter fun p => decide (nMembers ≤ p.1) with
    | some (i, _) => .error s!"signer index {i} outside a committee of {nMembers}"
    | none =>
      if h : nMembers ≤ maxCommitteeSize then
        .ok { alg, statusList, version,
              signers := ⟨setBits nMembers (signatures.map Prod.fst), by rw [length_setBits]; exact h⟩,
              signatures := signatures.map Prod.snd }
      else .error s!"committee of {nMembers} exceeds the ceiling of {maxCommitteeSize}"

/-- `new` with its panic: `none` when the loop over the bitmap reaches `expect`.
mirrors src/src/protocol/status_list.rs:286-321 -/
def tryNew (alg : Algorithms) (statusList : List Entry) (version : UInt32) (nMembers : Nat)
    (signatures : List (Nat × XmssSignature)) : Option (Except String StatusList) :=
  let signatures := sortPairs signatures
  if adjacentEqual signatures then some (.error "duplicate signer index")
  else match signatures.getLast?.filter fun p => decide (nMembers ≤ p.1) with
    | some (i, _) => some (.error s!"signer index {i} outside a committee of {nMembers}")
    | none =>
      if nMembers ≤ maxCommitteeSize then do
        let bits ← setEach (signatures.map Prod.fst) (List.replicate nMembers false)
        if h : bits.length ≤ maxCommitteeSize then
          return .ok { alg, statusList, version, signers := ⟨bits, h⟩,
                       signatures := signatures.map Prod.snd }
        else none
      else some (.error s!"committee of {nMembers} exceeds the ceiling of {maxCommitteeSize}")

/-- mirrors src/src/protocol/status_list.rs:338-340 -/
def signerSlots (r : StatusList) : Nat := r.signers.bits.length

/-- mirrors src/src/protocol/status_list.rs:343-345 -/
def signerCount (r : StatusList) : Nat := r.signers.bits.count true

/-- mirrors src/src/protocol/status_list.rs:350-355 -/
def signerIndices (r : StatusList) : List Nat := indicesOf r.signers.bits

/-- mirrors src/src/protocol/status_list.rs:362-371 -/
def wire (r : StatusList) : RecordWire maxCommitteeSize 1208 :=
  { tag := algorithmTag r.alg, statusList := r.statusList, version := r.version,
    signers := r.signers, signatures := r.signatures }

def toBytes (r : StatusList) : Bytes := r.wire.encode

/-- mirrors src/src/protocol/status_list.rs:380-398 -/
def fromBytes (bytes : Bytes) : Except String StatusList :=
  match RecordWire.decode maxCommitteeSize 1208 bytes with
  | none => .error "raw status list is not valid SSZ"
  | some wire =>
    match algorithmFromTag wire.tag with
    | .error e => .error e
    | .ok alg =>
      let value : StatusList :=
        { alg, statusList := wire.statusList, version := wire.version, signers := wire.signers,
          signatures := wire.signatures }
      if value.signerCount ≠ value.signatures.length then
        .error (s!"bitmap names {value.signerCount} signers but " ++
          s!"{value.signatures.length} signatures are present")
      else .ok value

end StatusList

namespace SnarkStatusList

/-- mirrors src/src/protocol/status_list.rs:47-52 -/
def wireFields (r : SnarkStatusList) : List Field :=
  [(.fixed 1, [algorithmTag r.alg]), (.var, encodeVec r.statusList),
    (.fixed 4, leBytes 4 r.version.toNat), (.var, r.zkProof)]

/-- mirrors src/src/protocol/status_list.rs:224-232 -/
def toBytes (r : SnarkStatusList) : Bytes := encodeFields r.wireFields

/-- mirrors src/src/protocol/status_list.rs:236-245 -/
def fromBytes (bytes : Bytes) : Except String SnarkStatusList :=
  match decodeFields [.fixed 1, .var, .fixed 4, .var] bytes with
  | some [[tag], list, version, zkProof] =>
    match decodeVec 32 list with
    | none => .error "SNARK status list is not valid SSZ"
    | some statusList =>
      match algorithmFromTag tag with
      | .error e => .error e
      | .ok alg => .ok { alg, statusList, version := UInt32.ofNat (ofLe version), zkProof }
  | _ => .error "SNARK status list is not valid SSZ"

end SnarkStatusList

/-! ## Construction -/

/-- On distinct indices below `n` the constructor succeeds, in any order of the
pairs, and the record names exactly these members next to their signatures. -/
theorem statusList_new_ok (alg : Algorithms) (list : List Entry) (version : UInt32) {n : Nat}
    {pairs : List (Nat × XmssSignature)} (hn : n ≤ maxCommitteeSize)
    (hd : (pairs.map Prod.fst).Nodup) (hlt : ∀ p ∈ pairs, p.1 < n) :
    ∃ r, StatusList.new alg list version n pairs = .ok r ∧ r.alg = alg ∧ r.statusList = list ∧
      r.version = version ∧ r.signerSlots = n ∧
      r.signerIndices = (sortPairs pairs).map Prod.fst ∧
      r.signatures = (sortPairs pairs).map Prod.snd := by
  have hs := sortPairs_sorted hd
  have hlt' : ∀ p ∈ sortPairs pairs, p.1 < n := fun p hp => hlt p ((sortPairs_perm pairs).mem_iff.mp hp)
  have hlast := (last_lt (sortPairs_ordered pairs)).mpr hlt'
  have hnew : StatusList.new alg list version n pairs = .ok
      { alg, statusList := list, version,
        signers := ⟨setBits n ((sortPairs pairs).map Prod.fst), by rw [length_setBits]; exact hn⟩,
        signatures := (sortPairs pairs).map Prod.snd } := by
    unfold StatusList.new
    simp only [adjacentEqual_sortPairs.mpr hd, Bool.false_eq_true, if_false, hlast, hn, dif_pos]
  refine ⟨_, hnew, rfl, rfl, rfl, length_setBits _ _, ?_, rfl⟩
  refine indicesOf_setBits hs fun i hi => ?_
  obtain ⟨p, hp, rfl⟩ := List.mem_map.mp hi
  exact hlt' p hp

/-- The indices the loop sets are inside the bitmap. -/
theorem StatusList.tryNew_eq (alg : Algorithms) (list : List Entry) (version : UInt32) (n : Nat)
    (pairs : List (Nat × XmssSignature)) :
    tryNew alg list version n pairs = some (new alg list version n pairs) := by
  unfold tryNew new
  dsimp only
  split
  · rfl
  split
  · rfl
  rename_i hlast
  have hlt := (last_lt (sortPairs_ordered pairs)).mp hlast
  have hset : setEach ((sortPairs pairs).map Prod.fst) (List.replicate n false) =
      some (setBits n ((sortPairs pairs).map Prod.fst)) := by
    refine setEach_eq fun i hi => ?_
    obtain ⟨p, hp, rfl⟩ := List.mem_map.mp hi
    exact hlt p hp
  split
  · rename_i hn
    rw [hset]
    simp only [Option.bind_eq_bind, Option.bind_some, length_setBits, hn, dif_pos]
    rfl
  · rfl

/-! ## The wire -/

/-- A record of fewer than `2^32` bytes whose bitmap counts its signatures
reads back. -/
theorem StatusList.fromBytes_toBytes {r : StatusList} (hc : r.signerCount = r.signatures.length)
    (h : r.toBytes.length < 2 ^ 32) : fromBytes r.toBytes = .ok r := by
  have ha : algorithmFromTag r.wire.tag = .ok r.alg := algorithmFromTag_ok.mpr rfl
  unfold fromBytes
  rw [toBytes, RecordWire.decode_encode (by decide) r.wire h]
  simp only [ha]
  exact if_neg (not_not.mpr hc)

theorem StatusList.fromBytes_ok {bytes : Bytes} {r : StatusList} (h : fromBytes bytes = .ok r) :
    RecordWire.decode maxCommitteeSize 1208 bytes = some r.wire ∧
      r.signerCount = r.signatures.length := by
  unfold fromBytes at h
  split at h
  · cases h
  rename_i wire hw
  split at h
  · cases h
  rename_i alg ha
  dsimp only at h
  split at h
  · cases h
  · rename_i hc
    cases h
    refine ⟨?_, not_not.mp hc⟩
    rw [hw]
    unfold StatusList.wire
    rw [← algorithmFromTag_ok.mp ha]

theorem StatusList.toBytes_fromBytes {bytes : Bytes} {r : StatusList}
    (h : fromBytes bytes = .ok r) : r.toBytes = bytes :=
  RecordWire.encode_decode (fromBytes_ok h).1

/-- What the constructor returns comes from distinct indices below `n`. -/
theorem StatusList.of_new_ok {alg : Algorithms} {list : List Entry} {version : UInt32} {n : Nat}
    {pairs : List (Nat × XmssSignature)} {r : StatusList}
    (h : StatusList.new alg list version n pairs = .ok r) :
    (pairs.map Prod.fst).Nodup ∧ (∀ p ∈ pairs, p.1 < n) ∧ n ≤ maxCommitteeSize := by
  unfold StatusList.new at h
  dsimp only at h
  split at h
  · cases h
  rename_i hadj
  split at h
  · cases h
  rename_i hlast
  split at h
  · rename_i hn
    have hlt := (last_lt (sortPairs_ordered pairs)).mp hlast
    refine ⟨adjacentEqual_sortPairs.mp (Bool.not_eq_true _ ▸ hadj), fun p hp => ?_, hn⟩
    exact hlt p ((sortPairs_perm pairs).mem_iff.mpr hp)
  · cases h

/-- It has one signature for each set bit. -/
theorem StatusList.signerCount_of_new {alg : Algorithms} {list : List Entry} {version : UInt32}
    {n : Nat} {pairs : List (Nat × XmssSignature)} {r : StatusList}
    (h : StatusList.new alg list version n pairs = .ok r) :
    r.signerCount = r.signatures.length := by
  obtain ⟨hd, hlt, hn⟩ := StatusList.of_new_ok h
  obtain ⟨r', hr', -, -, -, -, hi, hs⟩ := statusList_new_ok alg list version hn hd hlt
  obtain rfl : r' = r := Except.ok.inj (hr'.symm.trans h)
  have hcount : r'.signerIndices.length = r'.signerCount := length_indicesOf _
  rw [← hcount, hi, hs, List.length_map, List.length_map]

/-- The order of arrival does not matter to the constructor. -/
theorem StatusList.new_of_perm {alg : Algorithms} {list : List Entry} {version : UInt32} {n : Nat}
    {pairs pairs' : List (Nat × XmssSignature)} {r : StatusList} (hp : pairs.Perm pairs')
    (h : new alg list version n pairs = .ok r) : new alg list version n pairs' = .ok r := by
  have hs := sortPairs_eq_of_perm hp (of_new_ok h).1
  unfold new at h ⊢
  simp only [← hs]
  exact h

/-- A record is a function of the set of pairs. The constructor never panics and
accepts exactly distinct indices of a committee it can hold; what it builds names
each pair once, in index order, and has one spelling. -/
theorem record_construction_canonical (alg : Algorithms) (list : List Entry) (version : UInt32)
    (n : Nat) (pairs : List (Nat × XmssSignature)) :
    StatusList.tryNew alg list version n pairs =
        some (StatusList.new alg list version n pairs) ∧
      ((∃ r, StatusList.new alg list version n pairs = .ok r) ↔
        (pairs.map Prod.fst).Nodup ∧ (∀ p ∈ pairs, p.1 < n) ∧ n ≤ 2048) ∧
      ∀ r, StatusList.new alg list version n pairs = .ok r →
        r.signerSlots = n ∧
        r.signerIndices.length = r.signatures.length ∧
        (r.signerIndices.zip r.signatures).Perm pairs ∧
        ((r.signerIndices.zip r.signatures).map Prod.fst).Pairwise (· < ·) ∧
        ∀ pairs', pairs'.Perm pairs → ∃ r',
          StatusList.new alg list version n pairs' = .ok r' ∧ r'.toBytes = r.toBytes := by
  refine ⟨StatusList.tryNew_eq alg list version n pairs, ⟨?_, ?_⟩, ?_⟩
  · intro ⟨r, h⟩
    exact StatusList.of_new_ok h
  · intro ⟨hd, hlt, hn⟩
    obtain ⟨r, hr, -⟩ := statusList_new_ok alg list version hn hd hlt
    exact ⟨r, hr⟩
  · intro r h
    obtain ⟨hd, hlt, hn⟩ := StatusList.of_new_ok h
    obtain ⟨r', hr', -, -, -, hslots, hi, hs⟩ := statusList_new_ok alg list version hn hd hlt
    obtain rfl : r' = r := Except.ok.inj (hr'.symm.trans h)
    have hzip : r'.signerIndices.zip r'.signatures = sortPairs pairs := by
      rw [hi, hs]
      exact zip_fst_snd _
    refine ⟨hslots, ?_, ?_, ?_, ?_⟩
    · rw [hi, hs, List.length_map, List.length_map]
    · rw [hzip]
      exact sortPairs_perm pairs
    · rw [hzip]
      exact sortPairs_sorted hd
    · intro pairs' hp
      exact ⟨r', StatusList.new_of_perm hp.symm h, rfl⟩

/-! ## The SNARK container -/

theorem SnarkStatusList.fits_wireFields (r : SnarkStatusList) :
    ∀ f ∈ r.wireFields, Field.Fits f := by
  intro f hf n hn
  simp only [wireFields, List.mem_cons, List.not_mem_nil, or_false] at hf
  rcases hf with rfl | rfl | rfl | rfl <;> cases hn <;> simp

theorem SnarkStatusList.length_toBytes (r : SnarkStatusList) :
    r.toBytes.length = 13 + 32 * r.statusList.length + r.zkProof.length := by
  unfold toBytes encodeFields
  rw [List.length_append, length_header _ _ r.fits_wireFields]
  simp only [wireFields, fixedLen, List.map_cons, List.map_nil, Shape.width, List.sum_cons,
    List.sum_nil, varParts, List.flatten_cons, List.flatten_nil, List.length_append,
    length_encodeVec, List.length_nil]
  omega

/-- A record of fewer than `2^32` bytes reads back. -/
theorem SnarkStatusList.fromBytes_toBytes {r : SnarkStatusList} (h : r.toBytes.length < 2 ^ 32) :
    fromBytes r.toBytes = .ok r := by
  have hd := decodeFields_encodeFields r.wireFields r.fits_wireFields h
  have hs : r.wireFields.map Prod.fst = [.fixed 1, .var, .fixed 4, .var] := rfl
  have hv := r.version.toNat_lt
  have ha : algorithmFromTag (algorithmTag r.alg) = .ok r.alg := algorithmFromTag_ok.mpr rfl
  rw [hs] at hd
  unfold fromBytes toBytes
  rw [hd]
  simp only [wireFields, List.map_cons, List.map_nil]
  rw [decodeVec_encodeVec (by decide), ofLe_leBytes 4 _ (by omega)]
  simp [ha]

theorem SnarkStatusList.toBytes_fromBytes {bytes : Bytes} {r : SnarkStatusList}
    (h : fromBytes bytes = .ok r) : r.toBytes = bytes := by
  unfold fromBytes at h
  split at h
  · rename_i tag list version zkProof hd
    split at h
    · cases h
    rename_i statusList hlist
    split at h
    · cases h
    rename_i alg ha
    cases h
    obtain ⟨-, hfit, henc⟩ := encodeFields_decodeFields hd
    have hv : version.length = 4 := hfit (.fixed 4, version) (by simp) 4 rfl
    rw [← henc]
    unfold toBytes wireFields
    rw [encodeVec_decodeVec hlist, leBytes_version hv, ← algorithmFromTag_ok.mp ha]
    rfl
  · cases h

end Drot.L3.Protocol
