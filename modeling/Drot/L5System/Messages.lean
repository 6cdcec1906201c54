import Drot.Core.Column
import Drot.L5System.DemoPact

/-!
# The messages of the demo network (`demo/src/wire.rs`)

`Demo` has the messages its handlers read; this module adds the rest and the other
direction of each. A message is a container of one or two columns, so its two
inverse laws are those of `Column`.

* `messages_one_wire_form`: every message that takes fewer than `2^32` bytes reads
  back, and what decodes re-encodes to the same bytes.
-/
namespace Drot.L5.Demo
open Bytes Ssz Text L1.Message L3.Protocol

/-- mirrors src/demo/src/wire.rs:21-32 -/
def msgStatusRequest : UInt8 := 1
def msgProposal : UInt8 := 2
def msgRoundRequest : UInt8 := 6
def msgRoundResult : UInt8 := 7

/-- mirrors src/demo/src/wire.rs:41 -/
def actionVerify : UInt8 := 0

/-- mirrors src/demo/src/wire.rs:52-55 -/
def StatusRequest.encode (x : StatusRequest) : Bytes :=
  Column.encode₂ .u8 .bytes (x.action, x.data)

/-- mirrors src/demo/src/wire.rs:94-97 -/
structure StatusUpdated where
  version : UInt32
  credential : Bytes

namespace StatusUpdated

def encode (x : StatusUpdated) : Bytes := statusUpdated x.version x.credential

def decode (bytes : Bytes) : Option StatusUpdated :=
  (Column.decode₂ .u32 .bytes bytes).map fun y => ⟨y.1, y.2⟩

end StatusUpdated

/-- mirrors src/demo/src/wire.rs:101-103 -/
structure Failure where
  reason : Bytes

namespace Failure

def encode (x : Failure) : Bytes := Column.encode₁ .bytes x.reason

def decode (bytes : Bytes) : Option Failure := (Column.decode₁ .bytes bytes).map Failure.mk

/-- mirrors src/demo/src/wire.rs:106-111 -/
def of (reason : Str) : Bytes := encode ⟨toUtf8 reason⟩

/-- mirrors src/demo/src/wire.rs:113-117 -/
def text (bytes : Bytes) : Str :=
  match decode bytes with
  | some f => fromUtf8Lossy f.reason
  | none => "undecodable failure message".toList

end Failure

/-- mirrors src/demo/src/wire.rs:177-181 -/
structure MlDsaSignatureReply where
  signature : List Bytes
  reason : Bytes

namespace MlDsaSignatureReply

def encode (x : MlDsaSignatureReply) : Bytes :=
  Column.encode₂ .items .bytes (x.signature, x.reason)

def decode (bytes : Bytes) : Option MlDsaSignatureReply :=
  (Column.decode₂ .items .bytes bytes).map fun y => ⟨y.1, y.2⟩

end MlDsaSignatureReply

/-! ## One wire form -/

theorem StatusRequest.length_encode (x : StatusRequest) : x.encode.length = 5 + x.data.length := by
  simp [encode, Column.encode₂, Column.u8, Column.bytes, encodeFields, header, varParts, fixedLen,
    Shape.width]
  omega

theorem StatusRequest.exact : Exact encode decode := by
  refine (Column.exact₂ .u8 .bytes).map (fun x => (x.action, x.data)) (fun y => ⟨y.1, y.2⟩)
    (fun _ => rfl) (fun _ => rfl) (fun _ => rfl) fun bytes => ?_
  unfold decode Column.decode₂
  simp only [Column.u8, Column.bytes]
  split
  · rename_i action data hd
    rw [hd]
    rfl
  · rename_i hno
    split
    · rename_i a data hd
      -- a field of width one is one byte
      obtain ⟨-, hfit, -⟩ := encodeFields_decodeFields hd
      have ha : a.length = 1 := hfit (.fixed 1, a) (by simp) 1 rfl
      obtain ⟨action, rfl⟩ := List.length_eq_one_iff.mp ha
      exact absurd hd (hno action data)
    · rfl

theorem Proposal.exact : Exact encode decode := by
  refine (Column.exact₂ .u32 (.vec 32 (by decide))).map (fun x => (x.version, x.list))
    (fun y => ⟨y.1, y.2⟩) (fun _ => rfl) (fun _ => rfl) (fun _ => rfl) fun bytes => ?_
  unfold decode Column.decode₂
  simp only [Column.u32, Column.vec]
  cases decodeFields [.fixed 4, .var] bytes with
  | none => rfl
  | some parts =>
    rcases parts with _ | ⟨version, _ | ⟨list, _ | ⟨c, parts⟩⟩⟩
    · rfl
    · rfl
    · cases hl : decodeVec 32 list <;> simp [hl]
    · rfl

theorem SignatureReply.exact : Exact encode decode := by
  refine (Column.exact₂ (.vec 1208 (by decide)) .bytes).map (fun x => (x.signature, x.reason))
    (fun y => ⟨y.1, y.2⟩) (fun _ => rfl) (fun _ => rfl) (fun _ => rfl) fun bytes => ?_
  unfold decode Column.decode₂
  simp only [Column.bytes, Column.vec]
  cases decodeFields [.var, .var] bytes with
  | none => rfl
  | some parts =>
    rcases parts with _ | ⟨signature, _ | ⟨reason, _ | ⟨c, parts⟩⟩⟩
    · rfl
    · rfl
    · cases hs : decodeVec 1208 signature <;> simp [hs]
    · rfl

theorem StatusUpdated.exact : Exact encode decode :=
  (Column.exact₂ .u32 .bytes).map (fun x => (x.version, x.credential)) (fun y => ⟨y.1, y.2⟩)
    (fun _ => rfl) (fun _ => rfl) (fun _ => rfl) fun _ => rfl

theorem Failure.exact : Exact encode decode :=
  (Column.exact₁ .bytes).map Failure.reason Failure.mk (fun _ => rfl) (fun _ => rfl) (fun _ => rfl)
    fun _ => rfl

theorem MlDsaSignatureReply.exact : Exact encode decode :=
  (Column.exact₂ .items .bytes).map (fun x => (x.signature, x.reason)) (fun y => ⟨y.1, y.2⟩)
    (fun _ => rfl) (fun _ => rfl) (fun _ => rfl) fun _ => rfl

/-- Every message of the demo network has one wire form: below `2^32` bytes it reads
back, and what decodes re-encodes to the same bytes. -/
theorem messages_one_wire_form : Exact StatusRequest.encode StatusRequest.decode ∧
    Exact Proposal.encode Proposal.decode ∧ Exact SignatureReply.encode SignatureReply.decode ∧
    Exact StatusUpdated.encode StatusUpdated.decode ∧ Exact Failure.encode Failure.decode ∧
    Exact MlDsaSignatureReply.encode MlDsaSignatureReply.decode :=
  ⟨StatusRequest.exact, Proposal.exact, SignatureReply.exact, StatusUpdated.exact, Failure.exact,
    MlDsaSignatureReply.exact⟩

/-- A failure that fits a frame shows the reader the text it was made of. -/
theorem Failure.text_of {reason : Str} (h : (Failure.of reason).length ≤ maxFrame) :
    Failure.text (Failure.of reason) = reason := by
  have hlt : (Failure.encode ⟨toUtf8 reason⟩).length < 2 ^ 32 :=
    lt_of_le_of_lt h (by decide)
  unfold Failure.text Failure.of
  rw [Failure.exact.decode_encode _ hlt]
  exact fromUtf8Lossy_toUtf8 reason

end Drot.L5.Demo
