import Drot.Core.Placing
import Drot.L2State.SlotWindow
import Drot.L4Node.RawVerifier

/-!
# The XMSS demo (`demo/src/bin/signer.rs`)

Ten members, any of which (raw) or a subset of which (SNARK) also aggregates, and
one shared storage volume. `onProposal` is the member's side of a round,
`onStatusRequest` the aggregator's side of one update; both are programs over
`DemoOp`, and `demo` is the system of any number of threads that run them, in
every interleaving, with a kill between any two effects.

* The storage volume is the file `status-current.ssz` and the temporary every
  publisher uses on the way to it.
* A member's slot counter is the bounded burn counter `burnAt`, which is what
  `reserve_at` on the journal does (`returns_reservedAt`). A reservation that fails
  for any other reason may leave the counter anywhere up to the slot after the one
  asked for; a restart finds the counter where it was left.
* A round has one connection to every member (`Link`). A proposal is taken at most
  once and answered at most once, on its connection; a message that is lost is one
  that is never taken, and nothing fixes an order.
* `vc::issue` and `make_proof` answer what they like.

The fields `rounds`, `votes` and `history` of `World` record what was proposed,
signed and placed in storage; no program reads them.
-/
namespace Drot.L5.Demo
open Bytes Ssz Text L1.Message L3.Protocol L4.RawVerifier L2.SlotCounter Prog

/-! ## Configuration -/

/-- mirrors src/demo/src/config.rs:19-22 -/
def nMembers : Nat := 10
def threshold : Nat := 7

/-- mirrors src/demo/src/config.rs:25 -/
def allMemberIndices : List Nat := [0, 1, 2, 3, 4, 5, 6, 7, 8, 9]

/-- mirrors src/demo/src/config.rs:34 -/
def snarkAggregatorIndices : List Nat := [0, 4, 8]

/-- mirrors src/demo/src/config.rs:69-74 -/
inductive Mode where
  | raw | snark
  deriving DecidableEq, Repr

/-- mirrors src/demo/src/config.rs:91-96 -/
def Mode.asStr : Mode → String
  | .raw => "raw"
  | .snark => "snark"

/-- mirrors src/demo/src/config.rs:121-126 -/
def aggregatorIndices : Mode → List Nat
  | .raw => allMemberIndices
  | .snark => snarkAggregatorIndices

/-- mirrors src/demo/src/config.rs:129-131 -/
def canAggregate (mode : Mode) (index : Nat) : Bool := (aggregatorIndices mode).contains index

/-- mirrors src/demo/src/config.rs:134-140 -/
def formatIndices (indices : List Nat) : String := ", ".intercalate (indices.map toString)

/-- mirrors src/src/params.rs:9 and :73 -/
def Params.slot : UInt32 := 43
def Params.keySlots : UInt32 := 64

/-- The end of every member's counter, `SLOT + KEY_SLOTS`.
mirrors src/demo/src/bin/signer.rs:112-124 -/
def slotEnd : UInt32 := Params.slot + Params.keySlots

/-- What the ten nodes are started with: the anchor that `bootstrap` assembles from
their keys, and leanVM's signature check. `signWindow` is `config::sign_window()` as
it is printed.
mirrors src/demo/src/bin/bootstrap.rs:75 -/
structure Setup (H : Hashes) where
  mode : Mode
  members : List XmssPublicKey
  size : members.length = nMembers
  committee : Committee
  built : Committee.new H members threshold Params.slot = .ok committee
  xmssVerify : XmssVerify
  signWindow : String

/-! ## The wire -/

/-- mirrors src/demo/src/wire.rs:23-25 -/
def msgSignature : UInt8 := 3
def msgStatusUpdated : UInt8 := 4
def msgFailure : UInt8 := 5

/-- mirrors src/demo/src/wire.rs:39 -/
def maxFrame : Nat := 8 * 1024 * 1024

/-- mirrors src/demo/src/wire.rs:42-43 -/
def actionIssue : UInt8 := 1
def actionRevoke : UInt8 := 2

/-- mirrors src/demo/src/wire.rs:64-70 -/
structure Proposal where
  version : UInt32
  list : List Entry

namespace Proposal

def fields (x : Proposal) : List Field :=
  [(.fixed 4, leBytes 4 x.version.toNat), (.var, encodeVec x.list)]

def encode (x : Proposal) : Bytes := encodeFields x.fields

def decode (bytes : Bytes) : Option Proposal :=
  match decodeFields [.fixed 4, .var] bytes with
  | some [version, list] => do
    return { version := UInt32.ofNat (ofLe version), list := ← decodeVec 32 list }
  | _ => none

end Proposal

/-- mirrors src/demo/src/wire.rs:79-86 -/
structure SignatureReply where
  signature : List XmssSignature
  reason : Bytes

namespace SignatureReply

def fields (x : SignatureReply) : List Field :=
  [(.var, encodeVec x.signature), (.var, x.reason)]

def encode (x : SignatureReply) : Bytes := encodeFields x.fields

def decode (bytes : Bytes) : Option SignatureReply :=
  match decodeFields [.var, .var] bytes with
  | some [signature, reason] => do return { signature := ← decodeVec 1208 signature, reason }
  | _ => none

end SignatureReply

/-- mirrors src/demo/src/wire.rs:52-55 -/
structure StatusRequest where
  action : UInt8
  data : Bytes

def StatusRequest.decode (bytes : Bytes) : Option StatusRequest :=
  match decodeFields [.fixed 1, .var] bytes with
  | some [[action], data] => some { action, data }
  | _ => none

/-- mirrors src/demo/src/wire.rs:94-97 -/
def statusUpdated (version : UInt32) (credential : Bytes) : Bytes :=
  encodeFields [(.fixed 4, leBytes 4 version.toNat), (.var, credential)]

def utf8 (text : String) : Bytes := toUtf8 text.toList

/-- A frame: its type and its payload. -/
abbrev Frame := UInt8 × Bytes

/-- What a handler leaves to be sent; `none` when its thread panicked. -/
abbrev Reply := Option Frame

/-- mirrors src/demo/src/wire.rs:106-111 -/
def failure (reason : String) : Reply := some (msgFailure, encodeFields [(.var, utf8 reason)])

/-- mirrors src/demo/src/bin/signer.rs:659-665 -/
def abstain (reason : String) : Frame := (msgSignature, SignatureReply.encode ⟨[], utf8 reason⟩)

/-- What a requesting thread passes on of an answer.
mirrors src/demo/src/bin/signer.rs:533-553 -/
def replySignature (kind : UInt8) (payload : Bytes) : Option XmssSignature :=
  if kind = msgSignature then
    match SignatureReply.decode payload with
    | some reply => reply.signature.head?
    | none => none
  else none

/-! ## Credentials -/

section Credentials
variable (sha3 : Bytes → Blob 32)

/-- The snapshot after the call, and whether it changed.
mirrors src/demo/src/vc.rs:53-60 -/
def addValid (list : List Entry) (credential : Bytes) : List Entry × Bool :=
  let entry := sha3 credential
  if list.contains entry then (list, false) else (list ++ [entry], true)

/-- mirrors src/demo/src/vc.rs:66-71 -/
def revoke (list : List Entry) (credential : Bytes) : List Entry × Bool :=
  let entry := sha3 credential
  let kept := list.filter fun candidate => candidate ≠ entry
  (kept, kept.length ≠ list.length)

end Credentials

/-! ## The published record, as the nodes read it -/

/-- mirrors src/demo/src/bin/signer.rs:332-339 -/
def decodeList : Mode → Bytes → Except String (UInt32 × List Entry)
  | .raw, bytes => (StatusList.fromBytes bytes).map fun r => (r.version, r.statusList)
  | .snark, bytes => (SnarkStatusList.fromBytes bytes).map fun r => (r.version, r.statusList)

/-- `version.checked_add(1)` -/
def checkedSucc (version : UInt32) : Option UInt32 :=
  if version.toNat + 1 < 2 ^ 32 then some (version + 1) else none

/-- mirrors src/demo/src/bin/signer.rs:376-394 -/
def nextSnapshot (mode : Mode) : Option Bytes → Except String (UInt32 × List Entry)
  | none => .ok (0, [])
  | some bytes =>
    match decodeList mode bytes with
    | .error e => .error s!"published record is unreadable: {e}"
    | .ok (version, list) =>
      match checkedSucc version with
      | none => .error "the status-list version is exhausted"
      | some next => .ok (next, list)

/-- The member's own reading of it.
mirrors src/demo/src/bin/signer.rs:248-267 -/
def expectedVersion (mode : Mode) : Option Bytes → Except String UInt32
  | none => .ok 0
  | some bytes =>
    match decodeList mode bytes with
    | .error e => .error s!"published record is unreadable: {e}"
    | .ok (published, _) =>
      match checkedSucc published with
      | none => .error "the status-list version is exhausted"
      | some next => .ok next

/-! ## Effects -/

/-- The file the record is published as, and the temporary on the way to it.
mirrors src/demo/src/storage.rs:38 and :73-75 -/
inductive StorageName where
  | currentRecord | tmp
  deriving DecidableEq, Repr

/-- The bytes leanVM writes a proof as. A record addresses its fields with 32-bit
offsets. -/
abbrev ProofBytes := { bytes : Bytes // bytes.length < 2 ^ 31 }

inductive DemoOp where
  | storage (op : VolOp StorageName)
  | lockRound (node : Nat)
  | unlockRound (node : Nat)
  | issue (subject : Str) (version : UInt32) (node : Nat)
  | propose (proposal : Proposal)          -- one connection to every member
  | recvTimeout (rx : Nat)
  | makeProof (list : List Entry) (version : UInt32) (quorum : List (Nat × XmssSignature))
  | accept (node : Nat)
  | signAt (node : Nat) (message : Blob 32) (slot : UInt32)
  | send (kind : UInt8) (payload : Bytes)

@[reducible] def DemoAns : DemoOp → Type
  | .storage op => Except IoError (VolRes op)
  | .lockRound _ => Unit
  | .unlockRound _ => Unit
  | .issue _ _ _ => Bytes
  | .propose _ => Nat
  | .recvTimeout _ => Option (Nat × XmssSignature)
  | .makeProof _ _ _ => Option ProofBytes  -- `none`: it panicked
  | .accept _ => Bytes
  | .signAt _ _ _ => Except String XmssSignature  -- the error as it is displayed
  | .send _ _ => Except IoError Unit

abbrev DemoProg := Prog DemoOp DemoAns

def ask (op : DemoOp) : DemoProg (DemoAns op) := perform op

/-- One storage operation under `?`. -/
def storage (op : VolOp StorageName) : ExceptT IoError DemoProg (VolRes op) :=
  ExceptT.mk (ask (.storage op))

/-- mirrors src/demo/src/storage.rs:150-152 -/
def currentRecord : DemoProg (Option Bytes) := do
  match ← ask (.storage (.openFile .currentRecord)) with
  | .error _ => return none
  | .ok f =>
    match ← ask (.storage (.readToEnd f)) with
    | .error _ => return none
    | .ok bytes => return some bytes

/-- mirrors src/demo/src/storage.rs:70-85 and :143-147 -/
def publish (bytes : Bytes) : ExceptT IoError DemoProg Unit := do
  let f ← storage (.create .tmp)
  storage (.writeAll f bytes)
  storage (.syncAll f)
  storage (.rename .tmp .currentRecord)
  storage .syncDir

/-- It is the replacement of a shared file. -/
theorem publish_within (bytes : Bytes) : (publish bytes).run =
    (Volume.replace .tmp .currentRecord bytes).run.within DemoOp.storage (fun _ r => r) := by
  refine congrArg (Prog.call _) (funext fun r => ?_)
  cases r with
  | error e => rfl
  | ok f =>
    refine congrArg (Prog.call _) (funext fun r => ?_)
    cases r with
    | error e => rfl
    | ok u =>
      refine congrArg (Prog.call _) (funext fun r => ?_)
      cases r with
      | error e => rfl
      | ok u =>
        refine congrArg (Prog.call _) (funext fun r => ?_)
        cases r <;> rfl

/-! ## The member's side -/

section Programs
variable {H : Hashes} (S : Setup H) (node : Nat)

/-- The reply to an undecodable proposal is without the decoder's error.
mirrors src/demo/src/bin/signer.rs:229-328 -/
def onProposal (payload : Bytes) : DemoProg Frame :=
  match Proposal.decode payload with
  | none => return (msgFailure, encodeFields [(.var, utf8 "malformed proposal")])
  | some proposal => do
    match expectedVersion S.mode (← currentRecord) with
    | .error why => return abstain why
    | .ok expected =>
      if proposal.version ≠ expected then
        return abstain s!"version {proposal.version} is not the next version {expected}"
      else
        match S.committee.slotFor proposal.version with
        | none => return abstain "version has no slot under this anchor"
        | some slot =>
          let message := S.committee.messageFor H .wotsXmss proposal.list proposal.version
          match ← ask (.signAt node message slot) with
          | .ok signature => return (msgSignature, SignatureReply.encode ⟨[signature], []⟩)
          | .error e => return abstain e

/-- The thread of one proposal's connection.
mirrors src/demo/src/bin/signer.rs:198-226 -/
def serveProposal : DemoProg Reply := do
  let payload ← ask (.accept node)
  let (kind, reply) ← onProposal S node payload
  let _ ← ask (.send kind reply)
  return some (kind, reply)

/-! ## The aggregator's side -/

/-- The list and the credential after the request, or what the handler returns
instead. The assertion panics.
mirrors src/demo/src/bin/signer.rs:397-441 -/
def applyRequest (request : StatusRequest) (version : UInt32) (list : List Entry) :
    DemoProg (Except Reply (List Entry × Bytes)) :=
  if request.action = actionIssue then
    match fromUtf8 request.data with
    | none => return .error (failure "credential subject is not UTF-8")
    | some [] => return .error (failure "credential subject is empty")
    | some subject => do
      let credential ← ask (.issue subject version node)
      match addValid H.sha3 list credential with
      | (_, false) => return .error none
      | (list, true) => return .ok (list, credential)
  else if request.action = actionRevoke then
    if request.data = [] then
      return .error (failure "revocation requires the canonical credential bytes")
    else
      match revoke H.sha3 list request.data with
      | (_, false) => return .error (failure "credential is not valid in the current snapshot")
      | (list, true) => return .ok (list, request.data)
  else return .error (failure s!"unknown status action {request.action}")

/-- The receiving loop: `senders` threads may still send. That `members[index]` is a
member, which `VerifierNode::verify` asks first, needs no check.
mirrors src/demo/src/bin/signer.rs:564-584 -/
def collect (message : Blob 32) (slot : UInt32) (rx : Nat) :
    Nat → List (Nat × XmssSignature) → DemoProg (List (Nat × XmssSignature))
  | 0, quorum => return quorum
  | senders + 1, quorum =>
    if threshold ≤ quorum.length then return quorum
    else do
      match ← ask (.recvTimeout rx) with
      | none => return quorum
      | some (index, signature) =>
        match S.committee.members[index]? with
        | none => return quorum   -- unreachable: the threads are numbered below `N_MEMBERS`
        | some pk =>
          if S.xmssVerify pk message signature slot then
            collect message slot rx senders (quorum ++ [(index, signature)])
          else collect message slot rx senders quorum

/-- `none`: a version without a slot panics here.
mirrors src/demo/src/bin/signer.rs:510-585 -/
def collectSignatures (proposal : Proposal) : DemoProg (Option (List (Nat × XmssSignature))) :=
  let message := S.committee.messageFor H .wotsXmss proposal.list proposal.version
  match S.committee.slotFor proposal.version with
  | none => return none
  | some slot => do
    let rx ← ask (.propose proposal)
    some <$> collect S message slot rx nMembers []

/-- mirrors src/demo/src/bin/signer.rs:592-656 -/
def buildRecord (list : List Entry) (version : UInt32) (quorum : List (Nat × XmssSignature)) :
    DemoProg (Option (Except String Bytes)) :=
  match S.mode with
  | .raw =>
    return some ((StatusList.new .wotsXmss list version nMembers quorum).map StatusList.toBytes)
  | .snark =>
    if canAggregate .snark node then do
      match ← ask (.makeProof list version quorum) with
      | none => return none
      | some proof =>
        return some (.ok (SnarkStatusList.toBytes ⟨.wotsXmss, list, version, proof.1⟩))
    else return some (.error s!"member {node} is not a configured SNARK aggregator")

/-- From the collected signatures on.
mirrors src/demo/src/bin/signer.rs:461-501 -/
def finishRound (version : UInt32) (list : List Entry) (credential : Bytes) :
    Option (List (Nat × XmssSignature)) → DemoProg Reply
  | none => return none
  | some quorum =>
    if quorum.length < threshold then
      return failure (s!"only {quorum.length} of {threshold} signatures arrived within " ++
        S.signWindow)
    else do
      match ← buildRecord S node list version quorum with
      | none => return none
      | some (.error e) => return failure e
      | some (.ok record) =>
        match ← (publish record).run with
        | .error e => return failure s!"cannot publish: {e.message}"
        | .ok _ => return some (msgStatusUpdated, statusUpdated version credential)

/-- mirrors src/demo/src/bin/signer.rs:456-501 -/
def runRound (version : UInt32) (list : List Entry) (credential : Bytes) : DemoProg Reply := do
  let quorum ← collectSignatures S ⟨version, list⟩
  finishRound S node version list credential quorum

/-- One update, under the node's `round` mutex.
mirrors src/demo/src/bin/signer.rs:376-501 -/
def coordinate (request : StatusRequest) : DemoProg Reply := do
  match nextSnapshot S.mode (← currentRecord) with
  | .error why => return failure why
  | .ok (version, list) =>
    match ← applyRequest (H := H) node request version list with
    | .error reply => return reply
    | .ok (list, credential) => runRound S node version list credential

/-- A panic in a round leaves its mutex poisoned in the source and free here: that
only lets the node serve more requests. The reply to an undecodable request is
without the decoder's error.
mirrors src/demo/src/bin/signer.rs:342-501 -/
def onStatusRequest (payload : Bytes) : DemoProg Reply :=
  if canAggregate S.mode node = false then
    return failure (s!"member {node} is signer-only in {S.mode.asStr} mode; " ++
      s!"ask one of [{formatIndices (aggregatorIndices S.mode)}]")
  else
    match StatusRequest.decode payload with
    | none => return failure "malformed request"
    | some request => do
      ask (.lockRound node)
      let reply ← coordinate S node request
      ask (.unlockRound node)
      return reply

end Programs

/-! ## The system -/

/-- One connection of a round: dialled with a proposal, taken by the member,
answered, and the answer passed on. -/
inductive Link where
  | idle
  | proposed (bytes : Bytes)
  | taken
  | answered (kind : UInt8) (payload : Bytes)
  | delivered

/-- `member` signed at `slot`, for the round and the index of `stream`. -/
structure Vote where
  member : Nat
  slot : UInt32
  stream : Option (Nat × Nat)

structure World where
  volume : Volume StorageName
  counter : Nat → UInt64
  round : Nat → Option Nat               -- the thread that holds a node's `round`
  link : Nat → Nat → Link
  stream : Nat → Option (Nat × Nat)      -- the connection a thread serves
  rounds : List (Nat × Proposal)         -- the thread that proposed, and what
  votes : List Vote
  history : List (Nat × Bytes)           -- inode and content, oldest first

namespace World

/-- The record in storage, as its bytes. -/
def current (w : World) : Option Bytes := (w.volume.dir .currentRecord).map w.volume.inode

/-- Nothing published, every counter at `SLOT`. -/
def start : World where
  volume := .empty
  counter _ := Params.slot.toUInt64
  round _ := none
  link _ _ := .idle
  stream _ := none
  rounds := []
  votes := []
  history := []

def setLink (w : World) (rx index : Nat) (l : Link) : World :=
  { w with link := Function.update w.link rx (Function.update (w.link rx) index l) }

/-- A new round of thread `p`. A frame over the ceiling is not sent. -/
def propose (w : World) (p : Nat) (proposal : Proposal) : World :=
  { w with
    rounds := w.rounds ++ [(p, proposal)]
    link := Function.update w.link w.rounds.length fun index =>
      if index < nMembers ∧ proposal.encode.length ≤ maxFrame then .proposed proposal.encode
      else .idle }

def setCounter (w : World) (node : Nat) (next : UInt64) : World :=
  { w with counter := Function.update w.counter node next }

/-- A rename over the published name adds to the history. -/
def afterStorage (w : World) (v : Volume StorageName) :
    (op : VolOp StorageName) → Except IoError (VolRes op) → World
  | .rename .tmp .currentRecord, .ok _ =>
    { w with volume := v,
             history := w.history ++ ((v.dir .currentRecord).map fun i => (i, v.inode i)).toList }
  | _, _ => { w with volume := v }

end World

/-- What thread `p` may be answered, and what the effect leaves. -/
def exec (p : Nat) (w : World) : (op : DemoOp) → DemoAns op → World → Prop
  | .storage op, r, w' => ∃ v, w.volume.exec op r v ∧ w' = w.afterStorage v op r
  | .lockRound node, _, w' =>
    w.round node = none ∧ w' = { w with round := Function.update w.round node (some p) }
  | .unlockRound node, _, w' => w' = { w with round := Function.update w.round node none }
  | .issue _ _ _, _, w' => w' = w
  | .propose proposal, rx, w' => rx = w.rounds.length ∧ w' = w.propose p proposal
  | .recvTimeout _, none, w' => w' = w
  | .recvTimeout rx, some (index, signature), w' => ∃ kind payload,
      w.link rx index = .answered kind payload ∧ replySignature kind payload = some signature ∧
      w' = w.setLink rx index .delivered
  | .makeProof _ _ _, _, w' => w' = w
  | .accept node, payload, w' => ∃ rx, w.link rx node = .proposed payload ∧
      w' = { w.setLink rx node .taken with stream := Function.update w.stream p (some (rx, node)) }
  | .signAt node _ slot, .ok _, w' => burnAt (w.counter node) slotEnd slot = .ok slot ∧
      w' = { w.setCounter node (slot.toUInt64 + 1) with
             votes := ⟨node, slot, w.stream p⟩ :: w.votes }
  | .signAt node _ slot, .error _, w' => w' = w ∨ burnAt (w.counter node) slotEnd slot = .ok slot ∧
      ∃ next, w.counter node ≤ next ∧ next ≤ slot.toUInt64 + 1 ∧ w' = w.setCounter node next
  | .send kind payload, .ok _, w' => payload.length ≤ maxFrame ∧ ∃ rx index,
      w.stream p = some (rx, index) ∧ w.link rx index = .taken ∧
      w' = w.setLink rx index (.answered kind payload)
  | .send _ _, .error _, w' => w' = w

/-- The end of a thread: its connection and its mutex are dropped. -/
def release (p : Nat) (w : World) : World :=
  { w with round := fun node => if w.round node = some p then none else w.round node
           stream := Function.update w.stream p none }

def machine : Machine DemoOp DemoAns World where
  exec := exec
  owns _ _ := False
  release := release
  power _ _ := False

/-- What a thread of a node is spawned for. -/
inductive Request where
  | proposal (node : Nat)
  | statusRequest (node : Nat) (payload : Bytes)

def Request.node : Request → Nat
  | .proposal node => node
  | .statusRequest node _ => node

section
variable {H : Hashes} (S : Setup H)

def Request.program : Request → DemoProg Reply
  | .proposal node => serveProposal S node
  | .statusRequest node payload => onStatusRequest S node payload

def api : Api DemoOp DemoAns World Empty Request Reply where
  run _ c := if c.node < nMembers then some ((c.program S).bind fun r => .ret (none, r)) else none
  note _ _ w := w

abbrev DemoSys := Sys DemoOp DemoAns World Empty Request Reply

/-- The ten nodes, serving any number of requests. -/
def demo : LTS DemoSys Act := machine.system (api S) (· = World.start)

end
end Drot.L5.Demo
