import Drot.L1Encoding.Message

/-!
# The trust anchor (`protocol/committee.rs`)

The anchor names the members in order, the threshold and the slot of round 0,
and has one SSZ wire form, whose SHA3-256 digest is its identity. `new` asserts
what `fromBytes` checks, so a committee of either origin is well formed
(`Anchor.wellFormed`), and everything downstream is stated about an `Anchor`.

* `anchor_one_wire_form`: decoding accepts one spelling, encoding reads back,
  the fingerprint is that of the encoding either way, and `indexOf` inverts
  `members`.
* `message_determines_statement`: equal messages mean equal anchors, lists and
  versions, and the hashed byte strings are prefix-free and separated.
-/
namespace Drot.L3.Protocol
open Bytes Ssz L1.Message

/-- mirrors src/src/protocol/mod.rs:8 -/
def maxCommitteeSize : Nat := 2048

/-- mirrors src/src/protocol/committee.rs:31-34 -/
def maxCommitteeWireBytes : Nat := (4 + 8 + 4) + maxCommitteeSize * 32

/-- mirrors src/src/protocol/committee.rs:44-52 -/
structure Committee where
  members : List XmssPublicKey
  t : Nat
  genesisSlot : UInt32
  fingerprint : Blob 32
  deriving DecidableEq

/-- The `HashSet` filled from left to right.
mirrors src/src/protocol/committee.rs:54-59 -/
def duplicateAfter {α : Type} [DecidableEq α] (seen : List α) : List α → Bool
  | [] => false
  | m :: ms => if m ∈ seen then true else duplicateAfter (m :: seen) ms

def hasDuplicateMembers (members : List XmssPublicKey) : Bool := duplicateAfter [] members

/-- mirrors src/src/protocol/committee.rs:61-69 -/
def ensureMemberCountIsSupported (n : Nat) : Except String Unit :=
  if n > maxCommitteeSize then
    .error s!"anchor names {n} members, above the ceiling of {maxCommitteeSize}"
  else .ok ()

/-- The SSZ container: `members`, `t: u64`, `genesis_slot: u32`.
mirrors src/src/protocol/committee.rs:25-29 -/
def wireFields (members : List XmssPublicKey) (t : Nat) (genesisSlot : UInt32) : List Field :=
  [(.var, encodeVec members), (.fixed 8, leBytes 8 t), (.fixed 4, leBytes 4 genesisSlot.toNat)]

def encodeWire (members : List XmssPublicKey) (t : Nat) (genesisSlot : UInt32) : Bytes :=
  encodeFields (wireFields members t genesisSlot)

def decodeWire (bytes : Bytes) : Option (List XmssPublicKey × Nat × UInt32) :=
  match decodeFields [.var, .fixed 8, .fixed 4] bytes with
  | some [members, t, genesis] =>
    (decodeVec 32 members).map fun members => (members, ofLe t, UInt32.ofNat (ofLe genesis))
  | _ => none

namespace Committee

/-- A failed assertion is an error that carries its text.
mirrors src/src/protocol/committee.rs:114-137 -/
def new (H : Hashes) (members : List XmssPublicKey) (t : Nat) (genesisSlot : UInt32) :
    Except String Committee :=
  if ¬ (1 ≤ t ∧ t ≤ members.length) then
    .error s!"threshold {t} outside 1..={members.length} for this committee"
  else if ¬ members.length ≤ maxCommitteeSize then
    .error s!"anchor names {members.length} members, above the ceiling of {maxCommitteeSize}"
  else if hasDuplicateMembers members then
    .error "committee members must have distinct public keys"
  else .ok { members, t, genesisSlot, fingerprint := H.sha3 (encodeWire members t genesisSlot) }

/-- mirrors src/src/protocol/committee.rs:172-174 -/
def indexOf (c : Committee) (member : XmssPublicKey) : Option Nat :=
  c.members.findIdx? (· == member)

/-- mirrors src/src/protocol/committee.rs:176-178 -/
def threshold (c : Committee) : Nat := c.t

/-- mirrors src/src/protocol/committee.rs:197-199 -/
def slotFor (c : Committee) (version : UInt32) : Option UInt32 :=
  if c.genesisSlot.toNat + version.toNat < 2 ^ 32 then some (c.genesisSlot + version) else none

/-- mirrors src/src/protocol/committee.rs:203-210 -/
def toBytes (c : Committee) : Bytes := encodeWire c.members c.t c.genesisSlot

/-- The text of `ssz::DecodeError` is left out.
mirrors src/src/protocol/committee.rs:229-267 -/
def fromBytes (H : Hashes) (bytes : Bytes) : Except String Committee :=
  if bytes.length > maxCommitteeWireBytes then
    .error (s!"anchor wire size {bytes.length} B is above the ceiling of {maxCommitteeWireBytes} B" ++
      s!" for {maxCommitteeSize} members")
  else match decodeWire bytes with
    | none => .error "committee is not valid SSZ"
    | some (members, t, genesisSlot) =>
      match ensureMemberCountIsSupported members.length with
      | .error e => .error e
      | .ok () =>
        if ¬ (1 ≤ t ∧ t ≤ members.length) then
          .error s!"anchor threshold {t} outside 1..={members.length}"
        else if hasDuplicateMembers members then
          .error "anchor contains duplicate member public keys"
        else .ok { members, t, genesisSlot, fingerprint := H.sha3 bytes }

/-- mirrors src/src/protocol/committee.rs:283-285 -/
def domain (H : Hashes) (c : Committee) (alg : Algorithms) : Domain := H.domain c.fingerprint alg

/-- mirrors src/src/protocol/committee.rs:292-294 -/
def messageFor (H : Hashes) (c : Committee) (alg : Algorithms) (list : List Entry)
    (version : UInt32) : Blob 32 :=
  H.statusListMessage (c.domain H alg) list version

end Committee

/-! ## Well-formed anchors -/

/-- The fields of a committee are private, so every one a program holds came
from `new` or from `from_bytes`. -/
structure Anchor (H : Hashes) where
  committee : Committee
  built : (∃ members t genesisSlot, Committee.new H members t genesisSlot = .ok committee) ∨
    ∃ bytes, Committee.fromBytes H bytes = .ok committee

structure WellFormed (H : Hashes) (c : Committee) : Prop where
  one_le : 1 ≤ c.t
  t_le : c.t ≤ c.members.length
  size : c.members.length ≤ maxCommitteeSize
  distinct : c.members.Nodup
  fingerprint : c.fingerprint = H.sha3 c.toBytes

theorem duplicateAfter_eq_false {α : Type} [DecidableEq α] {seen members : List α} :
    duplicateAfter seen members = false ↔ members.Nodup ∧ ∀ m ∈ members, m ∉ seen := by
  induction members generalizing seen with
  | nil => simp [duplicateAfter]
  | cons m ms ih =>
    unfold duplicateAfter
    by_cases hm : m ∈ seen
    · simp [hm]
    · rw [if_neg hm, ih]
      constructor
      · intro ⟨hn, hs⟩
        refine ⟨List.nodup_cons.mpr ⟨fun h => hs m h (by simp), hn⟩, fun x hx => ?_⟩
        rcases List.mem_cons.mp hx with rfl | hx
        · exact hm
        · exact fun h => hs x hx (by simp [h])
      · intro ⟨hn, hs⟩
        obtain ⟨hmm, hn⟩ := List.nodup_cons.mp hn
        refine ⟨hn, fun x hx h => ?_⟩
        rcases List.mem_cons.mp h with rfl | h
        · exact hmm hx
        · exact hs x (by simp [hx]) h

theorem hasDuplicateMembers_eq_false {members : List XmssPublicKey} :
    hasDuplicateMembers members = false ↔ members.Nodup := by
  unfold hasDuplicateMembers
  rw [duplicateAfter_eq_false]
  simp

theorem fits_wireFields (members : List XmssPublicKey) (t : Nat) (genesisSlot : UInt32) :
    ∀ f ∈ wireFields members t genesisSlot, Field.Fits f := by
  intro f hf n hn
  simp only [wireFields, List.mem_cons, List.not_mem_nil, or_false] at hf
  rcases hf with rfl | rfl | rfl <;> cases hn <;> simp

/-- Sixteen bytes and 32 for each member. -/
theorem length_encodeWire (members : List XmssPublicKey) (t : Nat) (genesisSlot : UInt32) :
    (encodeWire members t genesisSlot).length = 16 + members.length * 32 := by
  unfold encodeWire encodeFields
  rw [List.length_append, length_header _ _ (fits_wireFields members t genesisSlot)]
  simp [wireFields, fixedLen, Shape.width, varParts, length_encodeVec]

theorem decodeWire_encodeWire {members : List XmssPublicKey} {t : Nat} (genesisSlot : UInt32)
    (hn : members.length ≤ maxCommitteeSize) (ht : t < 2 ^ 64) :
    decodeWire (encodeWire members t genesisSlot) = some (members, t, genesisSlot) := by
  have hlen := length_encodeWire members t genesisSlot
  have h := decodeFields_encodeFields (wireFields members t genesisSlot)
    (fits_wireFields members t genesisSlot) (by
      rw [← encodeWire, hlen]; unfold maxCommitteeSize at hn; omega)
  have hs : (wireFields members t genesisSlot).map Prod.fst = [.var, .fixed 8, .fixed 4] := rfl
  rw [hs] at h
  have hg := genesisSlot.toNat_lt
  unfold decodeWire encodeWire
  rw [h]
  simp only [wireFields, List.map_cons, List.map_nil]
  rw [decodeVec_encodeVec (by decide), ofLe_leBytes 8 t (by omega), ofLe_leBytes 4 _ (by omega)]
  simp

/-- Decoding has one spelling. -/
theorem encodeWire_decodeWire {bytes : Bytes} {members : List XmssPublicKey} {t : Nat}
    {genesisSlot : UInt32} (h : decodeWire bytes = some (members, t, genesisSlot)) :
    encodeWire members t genesisSlot = bytes := by
  unfold decodeWire at h
  split at h
  · rename_i m tb gb hd
    obtain ⟨members', hm, he⟩ := Option.map_eq_some_iff.mp h
    simp only [Prod.mk.injEq] at he
    obtain ⟨rfl, rfl, rfl⟩ := he
    obtain ⟨-, hfit, henc⟩ := encodeFields_decodeFields hd
    have ht : tb.length = 8 := hfit (.fixed 8, tb) (by simp) 8 rfl
    have hg : gb.length = 4 := hfit (.fixed 4, gb) (by simp) 4 rfl
    have hgl : ofLe gb < 2 ^ 32 := by have := ofLe_lt gb; rw [hg] at this; omega
    have e1 : leBytes 8 (ofLe tb) = tb := by rw [← ht]; exact leBytes_ofLe tb
    have e2 : leBytes 4 (UInt32.ofNat (ofLe gb)).toNat = gb := by
      rw [UInt32.toNat_ofNat', Nat.mod_eq_of_lt hgl, ← hg]; exact leBytes_ofLe gb
    rw [← henc]
    unfold encodeWire wireFields
    rw [encodeVec_decodeVec hm, e1, e2]
    rfl
  · cases h

theorem Committee.new_ok {H : Hashes} {members : List XmssPublicKey} {t : Nat}
    {genesisSlot : UInt32} {c : Committee} :
    Committee.new H members t genesisSlot = .ok c ↔
      (1 ≤ t ∧ t ≤ members.length) ∧ members.length ≤ maxCommitteeSize ∧ members.Nodup ∧
      c = ⟨members, t, genesisSlot, H.sha3 (encodeWire members t genesisSlot)⟩ := by
  unfold Committee.new
  split
  · rename_i h
    simp only [reduceCtorEq, false_iff]
    exact fun h' => h h'.1
  split
  · rename_i h
    simp only [reduceCtorEq, false_iff]
    exact fun h' => h h'.2.1
  split
  · rename_i h
    simp only [reduceCtorEq, false_iff]
    intro h'
    rw [hasDuplicateMembers_eq_false.mpr h'.2.2.1] at h
    cases h
  · rename_i h1 h2 h3
    rw [not_not] at h1 h2
    have hd := hasDuplicateMembers_eq_false.mp (Bool.not_eq_true _ ▸ h3)
    simp only [Except.ok.injEq]
    exact ⟨fun h => ⟨h1, h2, hd, h.symm⟩, fun h => h.2.2.2.symm⟩

theorem Committee.fromBytes_ok {H : Hashes} {bytes : Bytes} {c : Committee} :
    Committee.fromBytes H bytes = .ok c ↔
      bytes.length ≤ maxCommitteeWireBytes ∧ ∃ members t genesisSlot,
        decodeWire bytes = some (members, t, genesisSlot) ∧ members.length ≤ maxCommitteeSize ∧
        (1 ≤ t ∧ t ≤ members.length) ∧ members.Nodup ∧
        c = ⟨members, t, genesisSlot, H.sha3 bytes⟩ := by
  unfold Committee.fromBytes
  by_cases hb : bytes.length > maxCommitteeWireBytes
  · rw [if_pos hb]
    simp only [reduceCtorEq, false_iff]
    intro h; omega
  rw [if_neg hb]
  cases hd : decodeWire bytes with
  | none => simp
  | some x =>
    obtain ⟨members, t, genesisSlot⟩ := x
    simp only [Option.some.injEq, Prod.mk.injEq]
    unfold ensureMemberCountIsSupported
    by_cases hn : members.length > maxCommitteeSize
    · rw [if_pos hn]
      simp only [reduceCtorEq, false_iff]
      intro h
      obtain ⟨-, m, _, _, ⟨rfl, _, _⟩, h, _⟩ := h
      omega
    rw [if_neg hn]
    by_cases ht : 1 ≤ t ∧ t ≤ members.length
    · dsimp only
      rw [if_neg (not_not.mpr ht)]
      cases hdup : hasDuplicateMembers members with
      | true =>
        simp only [if_true, reduceCtorEq, false_iff]
        intro h
        obtain ⟨-, m, _, _, ⟨rfl, _, _⟩, _, _, h, _⟩ := h
        rw [hasDuplicateMembers_eq_false.mpr h] at hdup; cases hdup
      | false =>
        have hnd := hasDuplicateMembers_eq_false.mp hdup
        simp only [Bool.false_eq_true, if_false, Except.ok.injEq]
        constructor
        · intro h
          exact ⟨by omega, members, t, genesisSlot, ⟨rfl, rfl, rfl⟩, by omega, ht, hnd, h.symm⟩
        · intro h
          obtain ⟨-, m, t', g, ⟨rfl, rfl, rfl⟩, _, _, _, h⟩ := h
          exact h.symm
    · dsimp only
      rw [if_pos ht]
      simp only [reduceCtorEq, false_iff]
      intro h
      obtain ⟨-, m, t', _, ⟨rfl, rfl, _⟩, _, h, _⟩ := h
      exact ht h

/-- What `new` builds reads back as it is. -/
theorem Committee.fromBytes_toBytes {H : Hashes} {c : Committee} (h : WellFormed H c) :
    Committee.fromBytes H c.toBytes = .ok c := by
  obtain ⟨h1, h2, h3, h4, h5⟩ := h
  rw [Committee.fromBytes_ok]
  have hlen : c.toBytes.length = 16 + c.members.length * 32 := length_encodeWire _ _ _
  unfold maxCommitteeSize at h3
  refine ⟨?_, c.members, c.t, c.genesisSlot, ?_, h3, ⟨h1, h2⟩, h4, ?_⟩
  · rw [hlen]; unfold maxCommitteeWireBytes maxCommitteeSize; omega
  · exact decodeWire_encodeWire c.genesisSlot h3 (by omega)
  · rw [← h5]

theorem Committee.new_wellFormed {H : Hashes} {members : List XmssPublicKey} {t : Nat}
    {genesisSlot : UInt32} {c : Committee} (h : Committee.new H members t genesisSlot = .ok c) :
    WellFormed H c := by
  obtain ⟨⟨h1, h2⟩, h3, h4, rfl⟩ := Committee.new_ok.mp h
  exact ⟨h1, h2, h3, h4, rfl⟩

theorem Committee.fromBytes_wellFormed {H : Hashes} {bytes : Bytes} {c : Committee}
    (h : Committee.fromBytes H bytes = .ok c) : WellFormed H c ∧ c.toBytes = bytes := by
  obtain ⟨-, members, t, g, hd, hs, ⟨h1, h2⟩, h4, rfl⟩ := Committee.fromBytes_ok.mp h
  have he := encodeWire_decodeWire hd
  refine ⟨⟨h1, h2, hs, h4, ?_⟩, he⟩
  show H.sha3 bytes = H.sha3 (encodeWire members t g)
  rw [he]

theorem Anchor.wellFormed {H : Hashes} (c : Anchor H) : WellFormed H c.committee := by
  rcases c.built with ⟨members, t, g, h⟩ | ⟨bytes, h⟩
  · exact Committee.new_wellFormed h
  · exact (Committee.fromBytes_wellFormed h).1

theorem Committee.indexOf_eq_some {c : Committee} (hd : c.members.Nodup) {member : XmssPublicKey}
    {i : Nat} : c.indexOf member = some i ↔ c.members[i]? = some member := by
  unfold Committee.indexOf
  rw [List.findIdx?_eq_some_iff_getElem]
  constructor
  · intro ⟨hi, hm, _⟩
    rw [List.getElem?_eq_getElem hi, eq_of_beq hm]
  · intro h
    obtain ⟨hi, hm⟩ := List.getElem?_eq_some_iff.mp h
    refine ⟨hi, by simp [hm], fun j hj hb => ?_⟩
    have hji : c.members[j] = c.members[i] := by rw [hm]; exact eq_of_beq hb
    have := (List.Nodup.getElem_inj_iff hd).mp hji
    omega

/-! ## One wire form and one identity -/

/-- Decoding accepts one spelling of one well-formed anchor and hashes it;
encoding reads back as the same anchor, at every size up to the ceiling; and
`index_of` is the two-sided inverse of `members`. -/
theorem anchor_one_wire_form (H : Hashes) :
    (∀ bytes c, Committee.fromBytes H bytes = .ok c →
      c.toBytes = bytes ∧ c.fingerprint = H.sha3 c.toBytes ∧
      1 ≤ c.t ∧ c.t ≤ c.members.length ∧ c.members.length ≤ 2048 ∧ c.members.Nodup) ∧
    (∀ members t genesisSlot c, Committee.new H members t genesisSlot = .ok c →
      c.members = members ∧ c.t = t ∧ c.genesisSlot = genesisSlot ∧
      c.toBytes.length = 16 + 32 * members.length ∧ Committee.fromBytes H c.toBytes = .ok c) ∧
    (∀ c : Anchor H, ∀ member i,
      c.committee.indexOf member = some i ↔ c.committee.members[i]? = some member) := by
  refine ⟨?_, ?_, ?_⟩
  · intro bytes c h
    obtain ⟨hw, he⟩ := Committee.fromBytes_wellFormed h
    exact ⟨he, hw.fingerprint, hw.one_le, hw.t_le, hw.size, hw.distinct⟩
  · intro members t genesisSlot c h
    have hw := Committee.new_wellFormed h
    obtain ⟨-, -, -, rfl⟩ := Committee.new_ok.mp h
    refine ⟨rfl, rfl, rfl, ?_, Committee.fromBytes_toBytes hw⟩
    rw [Committee.toBytes, length_encodeWire, Nat.mul_comm]
  · intro c member i
    exact Committee.indexOf_eq_some c.wellFormed.distinct

/-- A committee of one member, with the digests of the program's hashes on what
it hashes: its encoding, its domain preimage and the empty list at version 0. -/
def sampleKey : XmssPublicKey := ⟨List.replicate 32 1, by simp⟩
def sampleFingerprint : Blob 32 :=
  ⟨[0xe9, 0xef, 0xe8, 0x7b, 0x34, 0x3e, 0x04, 0xb9, 0x09, 0xc0, 0xc4, 0x1f, 0x52, 0x34, 0x1a, 0x88,
    0x7c, 0x48, 0x30, 0x14, 0xe2, 0xc3, 0xdd, 0x30, 0x0d, 0xce, 0xbf, 0xba, 0x0e, 0x7d, 0xd7, 0x67], rfl⟩
def sampleDomain : Blob 32 :=
  ⟨[0x15, 0x55, 0xdf, 0x5e, 0xc7, 0x0d, 0x40, 0xe3, 0x99, 0xca, 0xa8, 0xee, 0xf5, 0x78, 0xc3, 0x97,
    0x81, 0x0e, 0xf5, 0x36, 0x20, 0x87, 0x0e, 0xcf, 0x0f, 0x9f, 0xc3, 0x09, 0x16, 0x02, 0x14, 0xa6], rfl⟩
def sampleMessage : Blob 32 :=
  ⟨[0x11, 0x5e, 0xc1, 0xfb, 0xb9, 0xb4, 0x0e, 0x82, 0x33, 0x11, 0xd3, 0xd4, 0x0b, 0xde, 0xfb, 0x14,
    0x5d, 0x20, 0xf9, 0x6d, 0x54, 0xb1, 0xc5, 0x2f, 0xfb, 0x62, 0x0e, 0x0c, 0x45, 0xb7, 0xea, 0x04], rfl⟩
def sampleHashes : Hashes where
  sha3 _ := sampleFingerprint
  blake2s bytes :=
    if bytes = domainPreimage sampleFingerprint .wotsXmss then sampleDomain else sampleMessage
def sampleCommittee : Committee := ⟨[sampleKey], 1, 100, sampleFingerprint⟩

theorem new_sampleCommittee : Committee.new sampleHashes [sampleKey] 1 100 = .ok sampleCommittee :=
  Committee.new_ok.mpr ⟨by simp, by simp [maxCommitteeSize], by simp, rfl⟩

def sampleAnchor : Anchor sampleHashes := ⟨sampleCommittee, .inl ⟨_, _, _, new_sampleCommittee⟩⟩

/-- Three members of whom two must sign, with the digests of the program's hashes
on their encoding, its domain preimage and a list of one entry at version 1. -/
def trioKeys : List XmssPublicKey := [1, 2, 3].map (Blob.replicate 32)
def trioFingerprint : Blob 32 :=
  ⟨[0x10, 0xbd, 0x34, 0xc8, 0xb4, 0xad, 0x93, 0x9e, 0x30, 0xeb, 0xb7, 0x5b, 0x6b, 0xdb, 0x3b, 0x3d,
    0x22, 0xaf, 0xdf, 0x65, 0x86, 0x68, 0x83, 0x5f, 0xb0, 0x32, 0x06, 0x05, 0xf3, 0xab, 0x40, 0xf6], rfl⟩
def trioDomain : Blob 32 :=
  ⟨[0x55, 0xdb, 0xa4, 0xcf, 0xd6, 0xd8, 0x83, 0x83, 0xe4, 0xe6, 0xa5, 0x97, 0xb6, 0xaf, 0xc0, 0x59,
    0x7f, 0x8a, 0xc7, 0xee, 0x06, 0x1f, 0xf5, 0x9c, 0x84, 0xb0, 0xc3, 0x18, 0x8c, 0xe3, 0x77, 0xc1], rfl⟩
def trioEntry : Entry :=
  ⟨[0x82, 0x28, 0x3b, 0x4b, 0x03, 0x05, 0x89, 0xa7, 0xaa, 0x0c, 0xa2, 0x8b, 0x8e, 0x93, 0x3a, 0xc0,
    0xbd, 0x89, 0x73, 0x8a, 0x0d, 0xf5, 0x09, 0x80, 0x6c, 0x86, 0x43, 0x66, 0xde, 0xec, 0x31, 0xd7], rfl⟩
def trioMessage : Blob 32 :=
  ⟨[0xdd, 0x67, 0x5c, 0x2e, 0xbf, 0x8e, 0xd6, 0xf9, 0xe2, 0x54, 0xf3, 0x1b, 0x6c, 0x15, 0xf0, 0x95,
    0xfb, 0x20, 0x77, 0xe7, 0xa9, 0xcb, 0x38, 0xb4, 0x65, 0x87, 0xb9, 0x7b, 0xde, 0xd6, 0x32, 0xb9], rfl⟩
def trioHashes : Hashes where
  sha3 _ := trioFingerprint
  blake2s bytes :=
    if bytes = domainPreimage trioFingerprint .wotsXmss then trioDomain else trioMessage
def trioCommittee : Committee := ⟨trioKeys, 2, 100, trioFingerprint⟩

theorem trioKeys_nodup : trioKeys.Nodup := by decide

theorem new_trioCommittee : Committee.new trioHashes trioKeys 2 100 = .ok trioCommittee :=
  Committee.new_ok.mpr ⟨by decide, by decide, trioKeys_nodup, rfl⟩

def trioAnchor : Anchor trioHashes := ⟨trioCommittee, .inl ⟨_, _, _, new_trioCommittee⟩⟩

theorem anchor_one_wire_form_sample : trioCommittee.toBytes.length = 112 ∧
    Committee.fromBytes trioHashes trioCommittee.toBytes = .ok trioCommittee ∧
    ∀ i (h : i < trioKeys.length), trioCommittee.indexOf (trioKeys.get ⟨i, h⟩) = some i := by
  obtain ⟨-, h2, h3⟩ := anchor_one_wire_form trioHashes
  obtain ⟨-, -, -, hlen, hread⟩ := h2 _ _ _ _ new_trioCommittee
  refine ⟨hlen, hread, fun i h => (h3 trioAnchor _ i).mpr ?_⟩
  exact List.getElem?_eq_getElem h

/-! ## The message determines the statement -/

/-- The anchor's own encoding determines the anchor. -/
theorem WellFormed.eq_of_toBytes {H : Hashes} {c c' : Committee} (h : WellFormed H c)
    (h' : WellFormed H c') (he : c.toBytes = c'.toBytes) : c = c' := by
  have e := Committee.fromBytes_toBytes h
  rw [he, Committee.fromBytes_toBytes h'] at e
  exact (Except.ok.inj e).symm

/-- The hashes do not collide on the inputs of two messages: the anchors'
encodings, the domain preimages and the framed statements. -/
structure CollisionFree (H : Hashes) (c c' : Committee) (alg : Algorithms) (l l' : List Entry)
    (v v' : UInt32) : Prop where
  sha3 : Set.InjOn H.sha3 {c.toBytes, c'.toBytes}
  blake2s : Set.InjOn H.blake2s {domainPreimage c.fingerprint alg, domainPreimage c'.fingerprint alg,
    messagePreimage (c.domain H alg) l v, messagePreimage (c'.domain H alg) l' v'}

theorem statement_of_message_eq {H : Hashes} {c c' : Committee} (hc : WellFormed H c)
    (hc' : WellFormed H c') {alg : Algorithms} {l l' : List Entry} {v v' : UInt32}
    (hf : CollisionFree H c c' alg l l' v v')
    (h : c.messageFor H alg l v = c'.messageFor H alg l' v') : c = c' ∧ l = l' ∧ v = v' := by
  have hm := hf.blake2s (by simp) (by simp) h
  obtain ⟨hd, hl, hv⟩ := messagePreimage_inj hm
  have hp := hf.blake2s (by simp) (by simp) hd
  have hfp := domainPreimage_inj hp
  rw [hc.fingerprint, hc'.fingerprint] at hfp
  exact ⟨hc.eq_of_toBytes hc' (hf.sha3 (by simp) (by simp) hfp), hl, hv⟩

/-- A signed message determines the anchor, the list and the version; the
byte strings hashed for messages are prefix-free, and none of them is
comparable with one hashed for a domain. A Rust slice has fewer than `2^64`
entries. -/
theorem message_determines_statement (H : Hashes) :
    (∀ (c c' : Anchor H) (alg : Algorithms) (l l' : List Entry) (v v' : UInt32),
      CollisionFree H c.committee c'.committee alg l l' v v' →
      c.committee.messageFor H alg l v = c'.committee.messageFor H alg l' v' →
      c.committee.members = c'.committee.members ∧ c.committee.t = c'.committee.t ∧
      c.committee.genesisSlot = c'.committee.genesisSlot ∧ l = l' ∧ v = v') ∧
    (∀ (d d' : Domain) (l l' : List Entry) (v v' : UInt32),
      l.length < 2 ^ 64 → l'.length < 2 ^ 64 →
      messagePreimage d l v <+: messagePreimage d' l' v' → d = d' ∧ l = l' ∧ v = v') ∧
    (∀ (d : Domain) (l : List Entry) (v : UInt32) (f : Blob 32) (alg : Algorithms),
      messagePreimage d l v ≠ domainPreimage f alg ∧
      ¬ messagePreimage d l v <+: domainPreimage f alg ∧
      ¬ domainPreimage f alg <+: messagePreimage d l v) := by
  refine ⟨?_, ?_, ?_⟩
  · intro c c' alg l l' v v' hf h
    obtain ⟨he, hl, hv⟩ := statement_of_message_eq c.wellFormed c'.wellFormed hf h
    rw [he]
    exact ⟨rfl, rfl, rfl, hl, hv⟩
  · intro d d' l l' v v' hl hl' ⟨t, ht⟩
    refine messagePreimage_append_inj (s := t) (t := []) hl hl' ?_
    rw [ht, List.append_nil]
  · intro d l v f alg
    obtain ⟨h1, h2⟩ := message_domain_separated d l v f alg
    exact ⟨fun h => h1 (h ▸ List.prefix_rfl), h1, h2⟩

/-- One statement's domain and message do not collide when they differ. -/
theorem collisionFree_of_ne {H : Hashes} {c : Committee} {alg : Algorithms} {list : List Entry}
    {version : UInt32} (hne : c.domain H alg ≠ c.messageFor H alg list version) :
    CollisionFree H c c alg list list version version := by
  refine ⟨by simp, ?_⟩
  intro x hx y hy hxy
  simp only [Set.mem_insert_iff, Set.mem_singleton_iff, or_self, or_self_left] at hx hy
  rcases hx with rfl | rfl <;> rcases hy with rfl | rfl
  · rfl
  · exact absurd hxy hne
  · exact absurd hxy.symm hne
  · rfl

theorem trio_blake2s (bytes : Bytes) : trioHashes.blake2s bytes =
    if bytes = domainPreimage trioFingerprint .wotsXmss then trioDomain else trioMessage := rfl

/-- The message the two of three sign. -/
theorem messageFor_trio :
    trioCommittee.messageFor trioHashes .wotsXmss [trioEntry] 1 = trioMessage := by
  have hsep := (message_domain_separated (trioCommittee.domain trioHashes .wotsXmss) [trioEntry] 1
    trioFingerprint .wotsXmss).1
  refine (trio_blake2s _).trans (if_neg fun h => ?_)
  exact hsep (h ▸ List.prefix_rfl)

theorem message_determines_statement_sample :
    CollisionFree trioHashes trioCommittee trioCommittee .wotsXmss [trioEntry] [trioEntry] 1 1 ∧
    trioCommittee.members = trioAnchor.committee.members ∧ (1 : UInt32) = 1 := by
  have hdomain : trioCommittee.domain trioHashes .wotsXmss = trioDomain :=
    (trio_blake2s _).trans (if_pos rfl)
  have hfree : CollisionFree trioHashes trioCommittee trioCommittee .wotsXmss [trioEntry]
      [trioEntry] 1 1 := by
    apply collisionFree_of_ne
    rw [hdomain, messageFor_trio]
    decide
  obtain ⟨h1, -, -, -, h5⟩ := (message_determines_statement trioHashes).1 trioAnchor
    trioAnchor .wotsXmss [trioEntry] [trioEntry] 1 1 hfree rfl
  exact ⟨hfree, h1, h5⟩

end Drot.L3.Protocol
