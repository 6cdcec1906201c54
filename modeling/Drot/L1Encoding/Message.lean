import Drot.Core.Ssz

/-!
# The signed message (`protocol/status_list.rs`)

A member signs a BLAKE2s-256 digest of a framed statement: a context string,
the committee's domain, the version, the number of entries and the entries.
The domain is itself a BLAKE2s-256 digest of another context string, the
message format, the algorithm tag and the anchor's fingerprint. Both hashes of
the program are parameters (`Hashes`); the byte strings they are applied to are
the definitions here.

* `messagePreimage_append_inj`: the framed statements are prefix-free, because
  every field before the entries has a fixed width and the entry count comes
  first.
* `message_domain_separated`: no framed statement is a prefix of a domain
  preimage or the other way round; the context strings differ inside their
  common length.
-/
namespace Drot.L1.Message
open Bytes Ssz

/-- leanVM's XMSS keys and signatures, in their SSZ form. -/
abbrev XmssPublicKey := Blob 32
abbrev XmssSignature := Blob 1208

/-- SHA3-256 and BLAKE2s-256. -/
structure Hashes where
  sha3 : Bytes → Blob 32
  blake2s : Bytes → Blob 32

/-- mirrors src/src/protocol/status_list.rs:28-30 -/
inductive Algorithms where
  | wotsXmss
  deriving DecidableEq, Repr

/-- mirrors src/src/protocol/status_list.rs:54-60 -/
def algorithmTag : Algorithms → UInt8
  | .wotsXmss => 1

/-- mirrors src/src/protocol/status_list.rs:62-68 -/
def algorithmFromTag (tag : UInt8) : Except String Algorithms :=
  if tag = 1 then .ok .wotsXmss
  else if tag = 0 then .error "status-list algorithm tag 0 is retired"
  else .error s!"unknown status-list algorithm tag {tag}"

/-- The bytes of an ASCII byte-string literal. -/
def ascii (s : String) : Bytes := s.toList.map fun c => UInt8.ofNat c.toNat

/-- mirrors src/src/protocol/status_list.rs:84-86 -/
def messageFormat : Nat := 2
def domainContext : Bytes := ascii "decentralized-root-of-trust/status-list-domain"
def messageContext : Bytes := ascii "decentralized-root-of-trust/status-list-message"

abbrev Entry := Blob 32
abbrev Domain := Blob 32

/-- What `Domain::new` hashes.
mirrors src/src/protocol/status_list.rs:128-135 -/
def domainPreimage (fingerprint : Blob 32) (alg : Algorithms) : Bytes :=
  domainContext ++ leBytes 4 messageFormat ++ [algorithmTag alg] ++ fingerprint.1

/-- mirrors src/src/protocol/status_list.rs:128-135 -/
def Hashes.domain (H : Hashes) (fingerprint : Blob 32) (alg : Algorithms) : Domain :=
  H.blake2s (domainPreimage fingerprint alg)

/-- What `status_list_message` hashes; `list.len() as u64` is eight bytes.
mirrors src/src/protocol/status_list.rs:144-154 -/
def messagePreimage (domain : Domain) (list : List Entry) (version : UInt32) : Bytes :=
  messageContext ++ domain.1 ++ leBytes 4 version.toNat ++ leBytes 8 list.length ++ encodeVec list

/-- mirrors src/src/protocol/status_list.rs:144-154 -/
def Hashes.statusListMessage (H : Hashes) (domain : Domain) (list : List Entry) (version : UInt32) :
    Blob 32 :=
  H.blake2s (messagePreimage domain list version)

theorem algorithmFromTag_ok {tag : UInt8} {alg : Algorithms} :
    algorithmFromTag tag = .ok alg ↔ tag = algorithmTag alg := by
  cases alg
  unfold algorithmFromTag algorithmTag
  by_cases h1 : tag = 1
  · simp [h1]
  · by_cases h0 : tag = 0
    · simp [h0]
    · simp [h1, h0]

theorem length_messageContext : messageContext.length = 47 := by decide

theorem length_domainContext : domainContext.length = 46 := by decide

/-- The contexts differ at their forty-first byte. -/
theorem contexts_differ : messageContext.take 41 ≠ domainContext.take 41 := by decide

theorem version_inj {v v' : UInt32} (h : leBytes 4 v.toNat = leBytes 4 v'.toNat) : v = v' := by
  have hv := v.toNat_lt
  have hv' := v'.toNat_lt
  exact UInt32.toNat_inj.mp (leBytes_inj (by omega) (by omega) h)

/-- The fields in front of the entries, of two statements with whatever follows. -/
theorem messagePreimage_head {d d' : Domain} {l l' : List Entry} {v v' : UInt32} {s t : Bytes}
    (h : messagePreimage d l v ++ s = messagePreimage d' l' v' ++ t) :
    d = d' ∧ v = v' ∧ leBytes 8 l.length = leBytes 8 l'.length ∧
      encodeVec l ++ s = encodeVec l' ++ t := by
  unfold messagePreimage at h
  simp only [List.append_assoc] at h
  have h1 := List.append_cancel_left h
  obtain ⟨hd, h2⟩ := List.append_inj h1 (by rw [d.2, d'.2])
  obtain ⟨hv, h3⟩ := List.append_inj h2 (by simp)
  obtain ⟨hn, h4⟩ := List.append_inj h3 (by simp)
  exact ⟨Subtype.ext hd, version_inj hv, hn, h4⟩

/-- A framed statement can be split off any longer byte string. -/
theorem messagePreimage_append_inj {d d' : Domain} {l l' : List Entry} {v v' : UInt32}
    {s t : Bytes} (hl : l.length < 2 ^ 64) (hl' : l'.length < 2 ^ 64)
    (h : messagePreimage d l v ++ s = messagePreimage d' l' v' ++ t) :
    d = d' ∧ l = l' ∧ v = v' := by
  obtain ⟨hd, hv, hn, he⟩ := messagePreimage_head h
  have hlen : l.length = l'.length := leBytes_inj (by omega) (by omega) hn
  obtain ⟨hl, -⟩ := List.append_inj he (by rw [length_encodeVec, length_encodeVec, hlen])
  exact ⟨hd, encodeVec_inj (by decide) hl, hv⟩

/-- Equal preimages have equal statements, however long: their own length fixes
the number of entries. -/
theorem messagePreimage_inj {d d' : Domain} {l l' : List Entry} {v v' : UInt32}
    (h : messagePreimage d l v = messagePreimage d' l' v') : d = d' ∧ l = l' ∧ v = v' := by
  have h' : messagePreimage d l v ++ [] = messagePreimage d' l' v' ++ [] := by rw [h]
  obtain ⟨hd, hv, -, he⟩ := messagePreimage_head h'
  simp only [List.append_nil] at he
  exact ⟨hd, encodeVec_inj (by decide) he, hv⟩

theorem domainPreimage_inj {f f' : Blob 32} {alg alg' : Algorithms}
    (h : domainPreimage f alg = domainPreimage f' alg') : f = f' := by
  unfold domainPreimage at h
  simp only [List.append_assoc] at h
  have h1 := List.append_cancel_left (List.append_cancel_left h)
  obtain ⟨-, h2⟩ := List.append_inj h1 rfl
  exact Subtype.ext h2

theorem take_messagePreimage (d : Domain) (l : List Entry) (v : UInt32) :
    (messagePreimage d l v).take 41 = messageContext.take 41 := by
  unfold messagePreimage
  simp only [List.append_assoc]
  exact List.take_append_of_le_length (by rw [length_messageContext]; omega)

theorem take_domainPreimage (f : Blob 32) (alg : Algorithms) :
    (domainPreimage f alg).take 41 = domainContext.take 41 := by
  unfold domainPreimage
  simp only [List.append_assoc]
  exact List.take_append_of_le_length (by rw [length_domainContext]; omega)

/-- Byte strings that differ in their first `n` bytes, both that long, are not
prefixes of one another. -/
theorem not_prefix_of_take_ne {x y : Bytes} {n : Nat} (hx : n ≤ x.length)
    (h : x.take n ≠ y.take n) : ¬ x <+: y := by
  intro hp
  apply h
  obtain ⟨t, rfl⟩ := hp
  rw [List.take_append_of_le_length hx]

/-- No framed statement is a prefix of a domain preimage, nor the reverse. -/
theorem message_domain_separated (d : Domain) (l : List Entry) (v : UInt32) (f : Blob 32)
    (alg : Algorithms) :
    ¬ messagePreimage d l v <+: domainPreimage f alg ∧
      ¬ domainPreimage f alg <+: messagePreimage d l v := by
  have hm : 41 ≤ (messagePreimage d l v).length := by
    unfold messagePreimage
    simp only [List.length_append, length_messageContext]; omega
  have hd : 41 ≤ (domainPreimage f alg).length := by
    unfold domainPreimage
    simp only [List.length_append, length_domainContext]; omega
  have hne : (messagePreimage d l v).take 41 ≠ (domainPreimage f alg).take 41 := by
    rw [take_messagePreimage, take_domainPreimage]; exact contexts_differ
  exact ⟨not_prefix_of_take_ne hm hne, not_prefix_of_take_ne hd hne.symm⟩

end Drot.L1.Message
