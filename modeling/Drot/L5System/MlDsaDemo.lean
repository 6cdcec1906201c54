import Drot.L5System.Acknowledged

/-!
# The ML-DSA demo (`demo/src/bin/mldsa_signer.rs`)

The ten members, the storage volume and the messages of the XMSS demo over the other
signature scheme. ML-DSA has no slots: a member signs every proposal that decodes
(`onProposal`), so no quorum rules out another one for the same version, and only the
`round` mutex of an aggregator keeps its own updates apart.

* Storage, `vc::issue` and the mutex are the effects of `Demo`, under `shared`.
* The answers of a round are fixed when it is opened (`World.opened`): at most one
  frame for each member, in the order in which they arrive, written by anybody. A
  proposal over the frame ceiling is not sent and not answered.
* `serve` answers any frame on any connection.

The fields `writing`, `placed`, `placers`, `unread` and `returned` of `World` record
what happened; no program reads them.
-/
namespace Drot.L5.MlDsaDemo
open Bytes Ssz Text L1.Message L3.MlDsa L4.Relying Prog
open Demo (nMembers threshold maxFrame Frame Proposal StatusRequest StatusUpdated StorageName
  DemoOp DemoAns DemoProg MlDsaSignatureReply Failure checkedSucc addValid revoke msgStatusRequest
  msgProposal msgSignature msgStatusUpdated msgFailure actionIssue actionRevoke acknowledged)

/-- What the ten nodes are started with. `sha3` is the hash of a fingerprint.
mirrors src/demo/src/bin/mldsa_bootstrap.rs:33-52 -/
structure Setup (K : Primitives) where
  sha3 : Bytes → Blob 32
  members : List K.PublicKey
  size : members.length = nMembers
  committee : Committee K
  built : Committee.new K members threshold = .ok committee

def Setup.anchor {K : Primitives} (S : Setup K) : Anchor K := ⟨S.committee, .inl ⟨_, _, S.built⟩⟩

/-! ## Effects -/

inductive Op where
  | shared (op : DemoOp)
  | recvTimeout (rx : Nat)
  | sign (node : Nat) (statement : Blob 64)

@[reducible] def Ans (K : Primitives) : Op → Type
  | .shared op => DemoAns op
  | .recvTimeout _ => Option (Nat × K.Signature)
  | .sign _ _ => Except String K.Signature  -- the error as it is displayed

abbrev MlDsaProg (K : Primitives) := Prog Op (Ans K)

section
variable {K : Primitives}

def ask (op : Op) : MlDsaProg K (Ans K op) := perform op

/-- A program of the other demo. -/
def shared {α : Type} (m : DemoProg α) : MlDsaProg K α := m.within .shared fun _ r => r

def refuse (reason : String) : Frame := (msgFailure, Failure.of reason.toList)

/-! ## The member's side -/

/-- What the thread of a connection passes on of an answer: exactly one signature, of
the right length, that decodes.
mirrors src/demo/src/bin/mldsa_signer.rs:301-329 -/
def replySignature (answer : Frame) : Option K.Signature :=
  if answer.1 = msgSignature then do
    let reply ← MlDsaSignatureReply.decode answer.2
    match reply.signature with
    | [raw] => if h : raw.length = 3309 then K.decodeSignature ⟨raw, h⟩ else none
    | _ => none
  else none

section Programs
variable (S : Setup K) (node : Nat)

/-- The reply to an undecodable proposal is without the decoder's error.
mirrors src/demo/src/bin/mldsa_signer.rs:132-174 -/
def onProposal (payload : Bytes) : MlDsaProg K Frame :=
  match Proposal.decode payload with
  | none => return refuse "malformed proposal"
  | some proposal => do
    match ← ask (.sign node (S.committee.statementFor proposal.list proposal.version)) with
    | .error e => return refuse s!"ML-DSA signing failed: {e}"
    | .ok signature =>
      return (msgSignature, MlDsaSignatureReply.encode ⟨[(K.encodeSignature signature).1], []⟩)

/-! ## The aggregator's side -/

/-- mirrors src/demo/src/bin/mldsa_signer.rs:190-209 -/
def nextSnapshot (K : Primitives) : Option Bytes → Except String (UInt32 × List Entry)
  | none => .ok (0, [])
  | some bytes =>
    match MlDsaStatusList.fromBytes K bytes with
    | .error e => .error s!"published record is unreadable: {e}"
    | .ok record =>
      match checkedSucc record.version with
      | none => .error "status-list version exhausted"
      | some next => .ok (next, record.statusList)

/-- The list and the credential after the request, or what the handler returns instead.
mirrors src/demo/src/bin/mldsa_signer.rs:211-247 -/
def applyRequest (request : StatusRequest) (version : UInt32) (list : List Entry) :
    MlDsaProg K (Except Frame (List Entry × Bytes)) :=
  if request.action = actionIssue then
    match fromUtf8 request.data with
    | none => return .error (refuse "credential subject is empty or not UTF-8")
    | some [] => return .error (refuse "credential subject is empty or not UTF-8")
    | some subject => do
      let credential ← ask (.shared (.issue subject version node))
      match addValid S.sha3 list credential with
      | (_, false) => return .error (refuse "new credential fingerprint already exists")
      | (list, true) => return .ok (list, credential)
  else if request.action = actionRevoke then
    if request.data = [] then
      return .error (refuse "credential is absent from the current snapshot")
    else
      match revoke S.sha3 list request.data with
      | (_, false) => return .error (refuse "credential is absent from the current snapshot")
      | (list, true) => return .ok (list, request.data)
  else return .error (refuse s!"unknown status action {request.action}")

/-- The receiving loop: `senders` threads may still send.
mirrors src/demo/src/bin/mldsa_signer.rs:338-353 -/
def collect (statement : Blob 64) (rx : Nat) :
    Nat → List (Nat × K.Signature) → MlDsaProg K (List (Nat × K.Signature))
  | 0, quorum => return quorum
  | senders + 1, quorum =>
    if threshold ≤ quorum.length then return quorum
    else do
      match ← ask (.recvTimeout rx) with
      | none => return quorum
      | some (index, signature) =>
        match S.committee.members[index]? with
        | none => return quorum   -- unreachable: the threads are numbered below `N_MEMBERS`
        | some publicKey =>
          if K.verify publicKey statement.1 signature then
            collect statement rx senders (quorum ++ [(index, signature)])
          else collect statement rx senders quorum

/-- mirrors src/demo/src/bin/mldsa_signer.rs:294-354 -/
def collectSignatures (proposal : Proposal) : MlDsaProg K (List (Nat × K.Signature)) := do
  let rx ← ask (.shared (.propose proposal))
  collect S (S.committee.statementFor proposal.list proposal.version) rx nMembers []

/-- mirrors src/demo/src/bin/mldsa_signer.rs:249-291 -/
def runRound (version : UInt32) (list : List Entry) (credential : Bytes) : MlDsaProg K Frame := do
  let quorum ← collectSignatures S ⟨version, list⟩
  if quorum.length < threshold then
    return refuse s!"only {quorum.length} of {threshold} signatures arrived"
  else
    match MlDsaStatusList.new K list version nMembers quorum with
    | .error e => return refuse e
    | .ok record =>
      match ← shared (Demo.publish record.toBytes).run with
      | .error e => return refuse s!"cannot publish: {e.message}"
      | .ok _ => return (msgStatusUpdated, StatusUpdated.encode ⟨version, credential⟩)

/-- One update, from what was read of storage.
mirrors src/demo/src/bin/mldsa_signer.rs:191-291 -/
def proceed (request : StatusRequest) (stored : Option Bytes) : MlDsaProg K Frame :=
  match nextSnapshot K stored with
  | .error why => return refuse why
  | .ok (version, list) => do
    match ← applyRequest S node request version list with
    | .error reply => return reply
    | .ok (list, credential) => runRound S version list credential

/-- One update, under the node's `round` mutex.
mirrors src/demo/src/bin/mldsa_signer.rs:190-291 -/
def coordinate (request : StatusRequest) : MlDsaProg K Frame := do
  proceed S node request (← shared Demo.currentRecord)

/-- The reply to an undecodable request is without the decoder's error.
mirrors src/demo/src/bin/mldsa_signer.rs:176-292 -/
def onStatusRequest (payload : Bytes) : MlDsaProg K Frame :=
  match StatusRequest.decode payload with
  | none => return refuse "malformed request"
  | some request => do
    ask (.shared (.lockRound node))
    let reply ← coordinate S node request
    ask (.shared (.unlockRound node))
    return reply

/-- One connection, from the frame that was read to the frame that is written.
mirrors src/demo/src/bin/mldsa_signer.rs:98-130 -/
def serve (frame : Frame) : MlDsaProg K Frame :=
  if frame.1 = msgProposal then onProposal S node frame.2
  else if frame.1 = msgStatusRequest then onStatusRequest S node frame.2
  else return refuse s!"unknown message type {frame.1}"

end Programs

/-! ## The system -/

/-- A frame that reaches a node. -/
structure Request where
  node : Nat
  frame : Frame

variable (K) in
structure World where
  volume : Volume StorageName
  round : Nat → Option Nat                  -- the thread that holds a node's `round`
  channel : List (List (Nat × K.Signature)) -- what the threads of a round have yet to send
  writing : Nat → Bool                      -- in `write_atomic`, from the create to the rename
  placed : List (Nat × Bytes)               -- inode and content of the records, oldest first
  placers : List Nat                        -- the threads that placed them
  unread : Nat                              -- how often a stored record could not be read
  returned : List (Request × Frame)

namespace World

/-- Nothing published. -/
def start : World K := ⟨.empty, fun _ => none, [], fun _ => false, [], [], 0, []⟩

/-- A round is opened; `answers` are what its connections will be answered. -/
def opened (w : World K) (answers : List (Nat × Frame)) : World K :=
  { w with channel := w.channel ++
      [answers.filterMap fun y => (replySignature y.2).map fun signature => (y.1, signature)] }

def afterStorage (p : Nat) (w : World K) (v : Volume StorageName) :
    (op : VolOp StorageName) → Except IoError (VolRes op) → World K
  | .openFile .currentRecord, .error _ =>
    { w with volume := v, unread := w.unread + (w.volume.dir .currentRecord).toList.length }
  | .readToEnd _, .error _ => { w with volume := v, unread := w.unread + 1 }
  | .create .tmp, .ok _ => { w with volume := v, writing := Function.update w.writing p true }
  | .writeAll _ _, .error _ | .syncAll _, .error _ | .rename _ _, .error _ =>
    { w with volume := v, writing := Function.update w.writing p false }
  | .rename .tmp .currentRecord, .ok _ =>
    { w with volume := v, writing := Function.update w.writing p false,
             placed := w.placed ++ ((v.dir .currentRecord).map fun i => (i, v.inode i)).toList,
             placers := w.placers ++ [p] }
  | _, _ => { w with volume := v }

def current (w : World K) : Option Bytes := (w.volume.dir .currentRecord).map w.volume.inode

end World

/-- The answers a round may get. -/
structure Answered (proposal : Proposal) (answers : List (Nat × Frame)) : Prop where
  once : (answers.map Prod.fst).Nodup
  dialled : ∀ y ∈ answers, y.1 < nMembers
  sent : answers ≠ [] → proposal.encode.length ≤ maxFrame

/-- What thread `p` may be answered, and what the effect leaves. No other effect of
`Demo` is performed. -/
def exec (p : Nat) (w : World K) : (op : Op) → Ans K op → World K → Prop
  | .shared (.storage op), r, w' => ∃ v, w.volume.exec op r v ∧ w' = w.afterStorage p v op r
  | .shared (.lockRound node), _, w' =>
    w.round node = none ∧ w' = { w with round := Function.update w.round node (some p) }
  | .shared (.unlockRound node), _, w' =>
    w' = { w with round := Function.update w.round node none }
  | .shared (.issue _ _ _), _, w' => w' = w
  | .shared (.propose proposal), rx, w' =>
    rx = w.channel.length ∧ ∃ answers, Answered proposal answers ∧ w' = w.opened answers
  | .shared _, _, _ => False
  | .recvTimeout _, none, w' => w' = w
  | .recvTimeout rx, some y, w' =>
    ∃ rest, w.channel[rx]? = some (y :: rest) ∧ w' = { w with channel := w.channel.set rx rest }
  | .sign _ _, _, w' => w' = w

/-- The end of a thread: its mutex is dropped. -/
def release (p : Nat) (w : World K) : World K :=
  { w with round := fun node => if w.round node = some p then none else w.round node
           writing := Function.update w.writing p false }

def machine : Machine Op (Ans K) (World K) where
  exec := exec
  owns _ _ := False
  release := release
  power _ _ := False

def api (S : Setup K) : Api Op (Ans K) (World K) Empty Request Frame where
  run _ c := if c.node < nMembers then
    some ((serve S c.node c.frame).bind fun r => .ret (none, r)) else none
  note c r w := { w with returned := w.returned ++ [(c, r)] }

variable (K) in
abbrev MlDsaSys := Sys Op (Ans K) (World K) Empty Request Frame

/-- The ten nodes, serving any number of connections. -/
def mlDsaDemo (S : Setup K) : LTS (MlDsaSys K) Act := machine.system (api S) (· = World.start)

/-! ## What a record says -/

/-- A relying party of the anchor reads this version and this list. -/
def Accepted (S : Setup K) (bytes : Bytes) (version : UInt32) (list : List Entry) : Prop :=
  ∃ r, (mlDsaForm K).Authentic S.anchor bytes r ∧ r.version = version ∧ r.statusList = list

/-- `list` is `before` with what was asked for applied. -/
def Applies (S : Setup K) (request : StatusRequest) (before list : List Entry)
    (credential : Bytes) : Prop :=
  request.action = actionIssue ∧ addValid S.sha3 before credential = (list, true) ∨
    request.action = actionRevoke ∧ credential = request.data ∧
      revoke S.sha3 before credential = (list, true)

/-- A list that version `version` may start from: the empty one, or one that was placed
with the version before. -/
def Before (S : Setup K) (w : World K) (version : UInt32) (before : List Entry) : Prop :=
  version = 0 ∧ before = [] ∨
    ∃ x ∈ w.placed, ∃ v, Accepted S x.2 v before ∧ v.toNat + 1 = version.toNat

end
end Drot.L5.MlDsaDemo
