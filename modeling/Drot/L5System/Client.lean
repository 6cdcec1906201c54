import Drot.L5System.Holder
import Drot.L5System.MlDsaDemo

/-!
# Node A as a client and as a server (`demo/src/bin/holder.rs`, `mldsa_holder.rs`)

`requestStatusUpdate` asks an aggregator over `net`, the network; `handle` serves one
trigger and `trigger` is the driver that sends it. What the two holders do
differently is in their texts (`AskTexts`, `Texts`).

* `request_understood`, `mlDsa_request_understood`: whatever aggregator is chosen accepts
  the request as one, with the action and the data that were meant.
* `trigger_reports_round`: a trigger runs the round it names, and its exit code and
  text are the round's result.
* `verdict_after_update`: a holder whose request was acknowledged reads its own update:
  its verdict says so, unless a later version is in storage, and then it says that.
-/
namespace Drot.L5.Holder
open Bytes Ssz Text L1.Message L2.Freshness L3.Protocol L4 L4.Relying RawVerifier Prog
open Demo (Mode Frame Setup Request Ledger aggregatorIndices canAggregate formatIndices nMembers
  msgStatusRequest msgStatusUpdated msgFailure msgRoundRequest msgRoundResult actionVerify maxFrame)

/-! ## Asking an aggregator -/

/-- Where the two holders differ when they ask. -/
structure AskTexts where
  candidates : List Nat
  notANumber : Str → String
  notAllowed : Nat → String
  unsupported : UInt8 → Option String
  noAnswer : Nat → String → String
  failed : Nat → Str → String
  malformed : String

/-- mirrors src/demo/src/bin/holder.rs:491-494 -/
def role : Mode → String
  | .raw => "member"
  | .snark => "SNARK aggregator"

/-- mirrors src/demo/src/bin/holder.rs:489-561 -/
def holderAsk (mode : Mode) : AskTexts where
  candidates := aggregatorIndices mode
  notANumber raw := s!"TARGET_MEMBER must be a committee index, got `{String.ofList raw}`"
  notAllowed target := s!"member {target} cannot aggregate in {mode.asStr} mode; " ++
    s!"allowed targets: [{formatIndices (aggregatorIndices mode)}]"
  unsupported action :=
    if action = actionIssue ∨ action = actionRevoke then none
    else some s!"unsupported status action {action}"
  noAnswer target e := s!"{role mode} {target} did not answer: {e}"
  failed target reason := s!"{role mode} {target} failed the round: {String.ofList reason}"
  malformed := "malformed status-update response"

/-- Without the decoder's error, and the quotes around a value that is not a number.
mirrors src/demo/src/bin/mldsa_holder.rs:317-355 -/
def mlDsaHolderAsk : AskTexts where
  candidates := Demo.allMemberIndices
  notANumber raw := s!"invalid TARGET_MEMBER {String.ofList raw}"
  notAllowed target := s!"member {target} is outside the committee"
  unsupported _ := none
  noAnswer target e := s!"aggregator {target} did not answer: {e}"
  failed target reason := s!"aggregator {target} failed: {String.ofList reason}"
  malformed := "malformed update response"

/-- `TARGET_MEMBER` if it is set, else one of the candidates.
mirrors src/demo/src/bin/holder.rs:495-510, mldsa_holder.rs:319-330 -/
def chooseTarget (x : AskTexts) (targetMember : Option Str) (random : UInt64) :
    Except String Nat :=
  match targetMember with
  | some raw =>
    match parseUnsigned (2 ^ 64) raw with
    | .error _ => .error (x.notANumber raw)
    | .ok target =>
      if x.candidates.contains target then .ok target else .error (x.notAllowed target)
  | none => .ok (x.candidates.getD (random.toNat % x.candidates.length) 0)

/-- One request and one response on one connection. -/
abbrev Net := Nat → UInt8 → Bytes → Except String Frame

/-- mirrors src/demo/src/bin/holder.rs:489-561, mldsa_holder.rs:317-355 -/
def requestStatusUpdate (x : AskTexts) (targetMember : Option Str) (random : UInt64) (net : Net)
    (action : UInt8) (data : Bytes) : Except String StatusUpdated := do
  let target ← chooseTarget x targetMember random
  match x.unsupported action with
  | some e => .error e
  | none =>
    match net target msgStatusRequest (Demo.StatusRequest.encode ⟨action, data⟩) with
    | .error e => .error (x.noAnswer target e)
    | .ok (kind, reply) =>
      if kind = msgStatusUpdated then
        match Demo.StatusUpdated.decode reply with
        | some u => .ok ⟨u.version, u.credential⟩
        | none => .error x.malformed
      else .error (x.failed target (Demo.Failure.text reply))

theorem chooseTarget_mem {x : AskTexts} (hx : x.candidates ≠ []) {targetMember : Option Str}
    {random : UInt64} {target : Nat} (h : chooseTarget x targetMember random = .ok target) :
    target ∈ x.candidates := by
  unfold chooseTarget at h
  split at h
  · split at h
    · cases h
    · split at h
      · rename_i hc
        cases h
        exact List.contains_iff_mem.mp hc
      · cases h
  · cases h
    have hpos := List.length_pos_iff.mpr hx
    have hlt : random.toNat % x.candidates.length < x.candidates.length := Nat.mod_lt _ hpos
    rw [List.getD_eq_getElem?_getD, List.getElem?_eq_getElem hlt]
    exact List.getElem_mem hlt

/-- A request is understood. Whatever `TARGET_MEMBER` says and whatever is drawn, the
aggregator that is chosen may aggregate in the mode, and it reads the request as the
action and the data that were meant: it goes on to the update under its mutex. -/
theorem request_understood {H : Hashes} (S : Setup H) (targetMember : Option Str)
    (random : UInt64) (target : Nat) (action : UInt8) (data : Bytes)
    (h : chooseTarget (holderAsk S.mode) targetMember random = .ok target)
    (hlen : (Demo.StatusRequest.encode ⟨action, data⟩).length ≤ maxFrame) :
    target < nMembers ∧
    Demo.onStatusRequest S target (Demo.StatusRequest.encode ⟨action, data⟩) = (do
      Demo.ask (.lockRound target)
      let reply ← Demo.coordinate S target ⟨action, data⟩
      Demo.ask (.unlockRound target)
      return reply) := by
  have hne : (holderAsk S.mode).candidates ≠ [] := by
    show aggregatorIndices S.mode ≠ []
    cases S.mode <;> decide
  have hmem : target ∈ aggregatorIndices S.mode := chooseTarget_mem hne h
  have hlt : ∀ mode, ∀ i ∈ aggregatorIndices mode, i < nMembers := by
    intro mode
    cases mode <;> decide
  have hagg : canAggregate S.mode target = true := List.contains_iff_mem.mpr hmem
  have hd := Demo.StatusRequest.exact.decode_encode ⟨action, data⟩ (lt_of_le_of_lt hlen (by decide))
  refine ⟨hlt _ _ hmem, ?_⟩
  unfold Demo.onStatusRequest
  rw [hagg, hd]
  rfl

/-- The same for an ML-DSA holder and the ten members it may ask. -/
theorem mlDsa_request_understood {K : L3.MlDsa.Primitives} (S : MlDsaDemo.Setup K)
    (targetMember : Option Str) (random : UInt64) (target : Nat) (action : UInt8) (data : Bytes)
    (h : chooseTarget mlDsaHolderAsk targetMember random = .ok target)
    (hlen : (Demo.StatusRequest.encode ⟨action, data⟩).length ≤ maxFrame) :
    target < nMembers ∧
    MlDsaDemo.onStatusRequest S target (Demo.StatusRequest.encode ⟨action, data⟩) = (do
      MlDsaDemo.ask (.shared (.lockRound target))
      let reply ← MlDsaDemo.coordinate S target ⟨action, data⟩
      MlDsaDemo.ask (.shared (.unlockRound target))
      return reply) := by
  have hmem : target ∈ Demo.allMemberIndices := chooseTarget_mem (by decide) h
  have hlt : ∀ i ∈ Demo.allMemberIndices, i < nMembers := by decide
  have hd := Demo.StatusRequest.exact.decode_encode ⟨action, data⟩ (lt_of_le_of_lt hlen (by decide))
  refine ⟨hlt _ hmem, ?_⟩
  unfold MlDsaDemo.onStatusRequest
  rw [hd]

/-! ## Triggers -/

/-- `Err` carries the frame that is sent instead of a round's result. The text for an
undecodable request is without the decoder's error.
mirrors src/demo/src/bin/holder.rs:296-340, mldsa_holder.rs:169-207 -/
def triggeredAction (malformed : Str) (subject : Str) (kind : UInt8) (payload : Bytes) :
    Except Frame Action :=
  if kind ≠ msgRoundRequest then
    .error (msgFailure, Demo.Failure.of "not a round request".toList)
  else
    match Demo.StatusRequest.decode payload with
    | none => .error (msgFailure, Demo.Failure.of malformed)
    | some request =>
      if request.action = actionVerify then .ok .verify
      else if request.action = actionRevoke then .ok .revoke
      else if request.action = actionIssue then
        match fromUtf8 request.data with
        | none => .error (msgFailure, Demo.Failure.of "credential subject is not UTF-8".toList)
        | some asked => .ok (.issue (if asked = "default".toList then subject else asked))
      else
        .error (msgFailure, Demo.Failure.of (s!"unknown status action {request.action}").toList)

/-- The frame a round's result is sent as.
mirrors src/demo/src/bin/holder.rs:342-347, mldsa_holder.rs:208-213 -/
def resultFrame : Except String String → Frame
  | .ok text => (msgRoundResult, Demo.Failure.of text.toList)
  | .error text => (msgFailure, Demo.Failure.of text.toList)

/-- One trigger, from the frame it was read as; `none` for a frame that cannot be
read, which is not answered.
mirrors src/demo/src/bin/holder.rs:279-350, mldsa_holder.rs:155-218 -/
def handle {V : Type} (malformed : Str) (t : Texts) (f : Form V) (sha3 : Bytes → Blob 32)
    (subject : Str) (n : Node V) (frame : Option Frame) (w : Outside) :
    MarkProg (Node V × Option Frame) :=
  match frame with
  | none => .ret (n, none)
  | some (kind, payload) =>
    match triggeredAction malformed subject kind payload with
    | .error reply => .ret (n, some reply)
    | .ok action => (runRound t f sha3 n action w).bind fun x =>
      .ret (x.1, some (resultFrame x.2))

/-- The words `HOLDER_TRIGGER` may be; `none` exits with 2.
mirrors src/demo/src/bin/holder.rs:353-363, mldsa_holder.rs:220-229 -/
def triggerRequest (kind subject : Str) : Option Demo.StatusRequest :=
  if kind = "round".toList then some ⟨actionIssue, toUtf8 subject⟩
  else if kind = "revoke".toList then some ⟨actionRevoke, []⟩
  else if kind = "verify".toList then some ⟨actionVerify, []⟩
  else none

/-- The line it prints and the code it exits with.
mirrors src/demo/src/bin/holder.rs:366-378, mldsa_holder.rs:231-241 -/
def triggerResult (reply : Frame) : Str × Nat :=
  (Demo.Failure.text reply.2, if reply.1 = msgRoundResult then 0 else 1)

/-- What a word means to a node that was started with `own` as its subject. -/
def meant (own kind subject : Str) : Option Action :=
  if kind = "round".toList then
    some (.issue (if subject = "default".toList then own else subject))
  else if kind = "revoke".toList then some .revoke
  else if kind = "verify".toList then some .verify
  else none

section
variable {V : Type} {f : Form V} {t : Texts} {sha3 : Bytes → Blob 32}

theorem triggeredAction_request {malformed own kind subject : Str} {request : Demo.StatusRequest}
    {action : Action} (hreq : triggerRequest kind subject = some request)
    (hmeant : meant own kind subject = some action)
    (hlen : (Demo.StatusRequest.encode request).length < 2 ^ 32) :
    triggeredAction malformed own msgRoundRequest (Demo.StatusRequest.encode request) =
      .ok action := by
  have hd := Demo.StatusRequest.exact.decode_encode request hlen
  unfold triggeredAction
  rw [if_neg (by simp), hd]
  unfold triggerRequest at hreq
  unfold meant at hmeant
  split at hreq
  · rename_i hk
    rw [if_pos hk] at hmeant
    cases hreq
    cases hmeant
    have hv : ¬ actionIssue = actionVerify := by decide
    have hr : ¬ actionIssue = actionRevoke := by decide
    simp only [hv, hr, if_false, if_true, fromUtf8_toUtf8]
  · rename_i hk
    rw [if_neg hk] at hmeant
    split at hreq
    · rename_i hk'
      rw [if_pos hk'] at hmeant
      cases hreq
      cases hmeant
      have hv : ¬ actionRevoke = actionVerify := by decide
      simp only [hv, if_false, if_true]
    · rename_i hk'
      rw [if_neg hk'] at hmeant
      split at hreq
      · rename_i hk''
        rw [if_pos hk''] at hmeant
        cases hreq
        cases hmeant
        simp only [if_true]
      · cases hreq

/-- A trigger reports the round it asked for. For every word, every subject, every node
and whatever storage and the network answer, what `handle` does with the frame a
trigger sends is the round that the word names; and if its answer fits a frame the
trigger prints the text the round returned and exits with 0 exactly when the round
succeeded. -/
theorem trigger_reports_round {V : Type} (malformed : Str) (t : Texts) (f : Form V)
    (sha3 : Bytes → Blob 32) (own kind subject : Str) (request : Demo.StatusRequest)
    (hreq : triggerRequest kind subject = some request)
    (hlen : (Demo.StatusRequest.encode request).length ≤ maxFrame) :
    ∃ action, meant own kind subject = some action ∧ ∀ (n : Node V) (w : Outside)
      (Q : (op : MarkOp) → Ans NoCall op → Prop) (n' : Node V) (reply : Option Frame),
      Yields Q (handle malformed t f sha3 own n
        (some (msgRoundRequest, Demo.StatusRequest.encode request)) w) (n', reply) ↔
      ∃ result, Yields Q (runRound t f sha3 n action w) (n', result) ∧
        reply = some (resultFrame result) ∧
        ((resultFrame result).2.length ≤ maxFrame → triggerResult (resultFrame result) =
          match result with
          | .ok text => (text.toList, 0)
          | .error text => (text.toList, 1)) := by
  have hmeant : ∃ action, meant own kind subject = some action := by
    unfold triggerRequest at hreq
    unfold meant
    split at hreq
    · rename_i hk
      exact ⟨_, if_pos hk⟩
    · rename_i hk
      rw [if_neg hk]
      split at hreq
      · rename_i hk'
        exact ⟨_, if_pos hk'⟩
      · rename_i hk'
        rw [if_neg hk']
        split at hreq
        · rename_i hk''
          exact ⟨_, if_pos hk''⟩
        · cases hreq
  obtain ⟨action, hmeant⟩ := hmeant
  refine ⟨action, hmeant, fun n w Q n' reply => ?_⟩
  have hact : triggeredAction malformed own msgRoundRequest (Demo.StatusRequest.encode request) =
      .ok action := triggeredAction_request hreq hmeant (lt_of_le_of_lt hlen (by decide))
  have hresult : ∀ result, (resultFrame result).2.length ≤ maxFrame →
      triggerResult (resultFrame result) = match result with
        | .ok text => (text.toList, 0)
        | .error text => (text.toList, 1) := by
    intro result hfit
    unfold triggerResult
    cases result with
    | ok text => exact Prod.ext (Demo.Failure.text_of hfit) rfl
    | error text => exact Prod.ext (Demo.Failure.text_of hfit) rfl
  simp only [handle, hact]
  constructor
  · intro h
    obtain ⟨⟨n₁, result⟩, hrun, hx⟩ := yields_bind.mp h
    cases yields_ret.mp hx
    exact ⟨result, hrun, rfl, hresult result⟩
  · intro h
    obtain ⟨result, hrun, rfl, -⟩ := h
    exact yields_bind.mpr ⟨(n', result), hrun, .ret _⟩

/-- Nobody is asked and nothing is published. -/
def nothingPublished : Outside where
  requestStatusUpdate _ _ := .error "nobody is asked"
  loadCredential := .error "no issued credential is available"
  loadCredentialIfPresent := none
  currentRecord := none
  writeAtomic _ := .ok ()

theorem trigger_reports_round_verify :
    Yields AnyAnswer (handle [] holderTexts (rawForm sampleHashes oldVerify) sampleHashes.sha3 []
      nodeAtOne (some (msgRoundRequest, Demo.StatusRequest.encode ⟨actionVerify, []⟩))
      nothingPublished) (nodeAtOne, some (resultFrame (.error "nothing is published"))) := by
  obtain ⟨action, hmeant, h⟩ := trigger_reports_round [] holderTexts
    (rawForm sampleHashes oldVerify) sampleHashes.sha3 [] "verify".toList [] ⟨actionVerify, []⟩ rfl
    (by decide)
  cases hmeant
  exact (h nodeAtOne nothingPublished AnyAnswer nodeAtOne _).mpr ⟨.error "nothing is published", .ret _, rfl,
    fun hfit => Prod.ext (Demo.Failure.text_of hfit) rfl⟩

/-! ## The verdict -/

/-- A round that finds an authentic record, with a working disk: it concludes from that
record, and the mark it leaves is at or above it. -/
theorem yields_runRound_authentic {n n' : Node V} {action : Action} {w : Outside}
    {pending : Pending} {bytes : Bytes} {r : f.Record} {result : Except String String}
    (hp : request w action = .ok pending) (hb : w.currentRecord = some bytes)
    (hr : f.Authentic n.verifier bytes r)
    (h : Yields Succeeds (runRound t f sha3 n action w) (n', result)) :
    ∃ note mark, result = conclude t sha3 w pending (f.list r) (f.version r) note ∧
      n'.mark.mark = some mark ∧ f.version r ≤ mark := by
  unfold runRound at h
  rw [hp] at h
  simp only [hb] at h
  obtain ⟨⟨n₁, o⟩, hacc, hx⟩ := yields_bind.mp h
  cases yields_ret.mp hx
  have hof := Form.offered_eq_some.mpr ⟨r, hr, rfl⟩
  rw [report_eq hr.1]
  rcases yields_accept hacc with ⟨hno, -, -⟩ | ⟨version, hof', -, hadv⟩
  · rw [hof] at hno
    cases hno
  rw [hof] at hof'
  cases hof'
  rcases yields_advance hadv with ⟨-, hm, rfl⟩ | ⟨-, -, rfl⟩ | ⟨mark, hmark, hle, hm, rfl⟩
  · exact ⟨_, f.version r, rfl, hm, UInt32.le_refl _⟩
  · exact absurd hadv ((yields_advance_succeeds _ _).2 _)
  · exact ⟨_, mark, rfl, by rw [hm, hmark], hle⟩

/-- Such a round answers. -/
theorem exists_runRound {n : Node V} {action : Action} {w : Outside} :
    ∃ x, Yields Succeeds (runRound t f sha3 n action w) x := by
  unfold runRound
  split
  · exact ⟨_, .ret _⟩
  · split
    · exact ⟨_, .ret _⟩
    · rename_i bytes _
      unfold Form.accept
      split
      · exact ⟨_, yields_bind.mpr ⟨_, .ret _, .ret _⟩⟩
      · split
        · obtain ⟨y, hy⟩ := (yields_advance_succeeds n.mark (f.version _)).1
          exact ⟨_, yields_bind.mpr ⟨_, yields_bind.mpr ⟨y, hy, .ret _⟩, .ret _⟩⟩
        · exact ⟨_, yields_bind.mpr ⟨_, .ret _, .ret _⟩⟩

/-- What the text of a successful round says about the credential. -/
def said : Action → String
  | .issue _ => "credential issued and present: valid"
  | .revoke => "credential removed: revoked"
  | .verify => ""

theorem conclude_other {w : Outside} {pending : Pending} {list : List Entry} {version : UInt32}
    {note : String} {u : StatusUpdated} (hu : pending.updated = some u) (hv : u.version ≠ version) :
    conclude t sha3 w pending list version note = .error (t.otherVersion u.version version) := by
  unfold conclude
  rw [hu]
  simp [Option.filter_some, hv]

theorem isValid_addValid {before list : List Entry} {credential : Bytes}
    (h : Demo.addValid sha3 before credential = (list, true)) :
    isValid sha3 list credential = true := by
  unfold Demo.addValid at h
  dsimp only at h
  split at h
  · cases h
  · cases h
    simp [isValid]

theorem isValid_revoke {before list : List Entry} {credential : Bytes}
    (h : Demo.revoke sha3 before credential = (list, true)) :
    isValid sha3 list credential = false := by
  have hl := congrArg Prod.fst h
  simp only [Demo.revoke] at hl
  rw [← hl]
  simp [isValid]

/-- The holder's own action, as an aggregator reads it. -/
def Meets (action : Action) (w : Outside) (u : StatusUpdated) (before list : List Entry)
    (sha3 : Bytes → Blob 32) : Prop :=
  match action with
  | .issue _ => Demo.addValid sha3 before u.credential = (list, true)
  | .revoke => w.loadCredential = .ok u.credential ∧
      Demo.revoke sha3 before u.credential = (list, true)
  | .verify => False

theorem request_revoke {w : Outside} {credential : Bytes} (h : w.loadCredential = .ok credential) :
    request w .revoke = (w.requestStatusUpdate actionRevoke credential).map .revoked := by
  unfold request
  rw [h]
  rfl

/-- A round whose action is in the list it reads says so. -/
theorem conclude_meets {action : Action} {w : Outside} {pending : Pending} {u : StatusUpdated}
    {before list : List Entry} {note : String} (hp : request w action = .ok pending)
    (hu : pending.updated = some u) (hm : Meets action w u before list sha3)
    (hwrite : w.writeAtomic u.credential = .ok ()) :
    conclude t sha3 w pending list u.version note =
      .ok s!"v{u.version} verified, {said action}, {note}" := by
  cases action with
  | issue subject =>
    have hvalid := isValid_addValid hm
    simp only [request] at hp
    cases hr : w.requestStatusUpdate actionIssue (toUtf8 subject) with
    | error e => rw [hr] at hp; cases hp
    | ok u' =>
      rw [hr] at hp
      cases hp
      cases hu
      simp [conclude, Pending.updated, Option.filter_some, hvalid, hwrite, said]
  | revoke =>
    obtain ⟨hload, hm⟩ := hm
    have hvalid := isValid_revoke hm
    rw [request_revoke hload] at hp
    cases hr : w.requestStatusUpdate actionRevoke u.credential with
    | error e => rw [hr] at hp; cases hp
    | ok u' =>
      rw [hr] at hp
      cases hp
      cases hu
      simp [conclude, Pending.updated, Option.filter_some, hvalid, said]
  | verify => cases hm

/-- An update that is reported was read in an answer to the request. -/
theorem requestStatusUpdate_ok {x : AskTexts} {targetMember : Option Str} {random : UInt64}
    {net : Net} {action : UInt8} {data : Bytes} {u : StatusUpdated}
    (h : requestStatusUpdate x targetMember random net action data = .ok u) :
    ∃ target reply, net target msgStatusRequest (Demo.StatusRequest.encode ⟨action, data⟩) =
        .ok (msgStatusUpdated, reply) ∧
      Demo.acknowledged (some (msgStatusUpdated, reply)) = some ⟨u.version, u.credential⟩ := by
  unfold requestStatusUpdate at h
  cases hc : chooseTarget x targetMember random with
  | error e => rw [hc] at h; cases h
  | ok target =>
    rw [hc] at h
    dsimp only [Bind.bind, Except.bind] at h
    split at h
    · cases h
    · split at h
      · cases h
      · rename_i kind reply hnet
        split at h
        · rename_i hk
          subst hk
          split at h
          · rename_i u' hu
            cases h
            refine ⟨target, reply, hnet, ?_⟩
            show Demo.StatusUpdated.decode reply = _
            rw [hu]
          · cases h
        · cases h

end

section
variable {H : Hashes}

/-- The status updates that reach the holder were returned to its request, which fitted
a frame. -/
def Delivers (returned : List (Request × Demo.Reply)) (net : Net) : Prop :=
  ∀ target payload reply, net target msgStatusRequest payload = .ok (msgStatusUpdated, reply) →
    payload.length ≤ maxFrame ∧
    (.statusRequest target payload, some (msgStatusUpdated, reply)) ∈ returned

/-- What was acknowledged to the holder is what it asked for, and is in the history. -/
theorem meets_of_request {S : Setup H} {V : SnarkVerifier.LeanVM} {rate : Nat} {x : Ledger}
    (hb : Demo.Books S V rate x) {ask : AskTexts} {targetMember : Option Str} {random : UInt64} {net : Net}
    (hnet : Delivers x.2 net) {action : Action} {w : Outside}
    (hw : w.requestStatusUpdate = requestStatusUpdate ask targetMember random net)
    {pending : Pending} {u : StatusUpdated} (hp : request w action = .ok pending)
    (hu : pending.updated = some u) : ∃ before list,
      Demo.ListAt S x.1 u.version.toNat list ∧ Meets action w u before list H.sha3 := by
  -- the entry of the record that answers a request of this kind and data
  have hentry : ∀ kind data u, w.requestStatusUpdate kind data = .ok u → ∃ before list,
      Demo.ListAt S x.1 u.version.toNat list ∧
      Demo.Applies (H := H) ⟨kind, data⟩ before list u.credential := by
    intro kind data u hreq
    rw [hw] at hreq
    obtain ⟨target, reply, hans, hack⟩ := requestStatusUpdate_ok hreq
    obtain ⟨hlen, hmem⟩ := hnet _ _ _ hans
    obtain ⟨node, payload, req, before, list, hc, hd, -, hl, ha⟩ := hb.kept _ hmem _ hack
    cases hc
    rw [Demo.StatusRequest.exact.decode_encode _ (lt_of_le_of_lt hlen (by decide))] at hd
    cases hd
    exact ⟨before, list, hl, ha⟩
  cases action with
  | issue subject =>
    simp only [request] at hp
    cases hr : w.requestStatusUpdate actionIssue (toUtf8 subject) with
    | error e => rw [hr] at hp; cases hp
    | ok u' =>
      rw [hr] at hp
      cases hp
      cases hu
      obtain ⟨before, list, hl, ⟨-, ha⟩ | ⟨hne, -⟩⟩ := hentry _ _ _ hr
      · exact ⟨before, list, hl, ha⟩
      · exact absurd (show actionIssue = Demo.actionRevoke from hne) (by decide)
  | revoke =>
    cases hload : w.loadCredential with
    | error e =>
      unfold request at hp
      rw [hload] at hp
      cases hp
    | ok credential =>
      rw [request_revoke hload] at hp
      cases hr : w.requestStatusUpdate actionRevoke credential with
      | error e => rw [hr] at hp; cases hp
      | ok u' =>
        rw [hr] at hp
        cases hp
        cases hu
        obtain ⟨before, list, hl, ⟨hne, -⟩ | ⟨-, hcred, ha⟩⟩ := hentry _ _ _ hr
        · exact absurd (show actionRevoke = Demo.actionIssue from hne) (by decide)
        · refine ⟨before, list, hl, ?_, ha⟩
          rw [hload]
          exact congrArg Except.ok hcred.symm
  | verify =>
    cases hp
    cases hu

/-- A holder reads its own update. In every reachable state of the demo, for every
holder of the anchor whose issuance or revocation was acknowledged and which then reads
the storage, with a working disk: if its version is the one in storage the verdict is
that the credential is present, or removed, as it asked; if a later version is in
storage the verdict names the one that is there; and the mark it leaves is not below its update. -/
theorem verdict_after_update (S : Setup H) (V : SnarkVerifier.LeanVM) (rate : Nat)
    (hV : S.mode = .snark → V.Complete S.xmssVerify rate)
    (s : Sys Demo.DemoOp Demo.DemoAns Ledger Empty Request Demo.Reply)
    (hr : (Demo.ledger S V rate).Reachable s) (t : Texts) (targetMember : Option Str)
    (random : UInt64) (net : Net) (hnet : Delivers s.world.2 net) (action : Action) (w : Outside)
    (hw : w.requestStatusUpdate = requestStatusUpdate (holderAsk S.mode) targetMember random net)
    (hcur : w.currentRecord = s.world.1.current) (hwrite : ∀ c, w.writeAtomic c = .ok ())
    (n : Node (Anchor H)) (hn : n.verifier = S.anchor) (pending : Pending) (u : StatusUpdated)
    (hp : request w action = .ok pending) (hu : pending.updated = some u) :
    u.version.toNat < s.world.1.history.length ∧
    (∃ x, Yields Succeeds (runRound t (S.form V) H.sha3 n action w) x) ∧
    ∀ n' result, Yields Succeeds (runRound t (S.form V) H.sha3 n action w) (n', result) →
      (u.version.toNat + 1 = s.world.1.history.length →
        ∃ note : String, result = .ok s!"v{u.version} verified, {said action}, {note}") ∧
      (u.version.toNat + 1 < s.world.1.history.length →
        ∃ later, later.toNat + 1 = s.world.1.history.length ∧
          result = .error (t.otherVersion u.version later)) ∧
      ∃ mark, n'.mark.mark = some mark ∧ u.version ≤ mark := by
  have hb := Demo.books_reachable hr
  obtain ⟨before, list, ⟨x, version, hk, hd, hv⟩, hmeets⟩ := meets_of_request hb hnet hw hp hu
  have hlt := (List.getElem?_eq_some_iff.mp hk).1
  refine ⟨hlt, exists_runRound, fun n' result hy => ?_⟩
  -- the record in storage is the last of the history
  obtain ⟨last, hlast⟩ : ∃ last, s.world.1.history[s.world.1.history.length - 1]? = some last :=
    ⟨_, List.getElem?_eq_getElem (by omega)⟩
  have hbytes : w.currentRecord = some last.2 := by
    rw [hcur, hb.inv.current, List.getLast?_eq_getElem?, hlast]
    rfl
  obtain ⟨version', list', ⟨hdec, hacc⟩, hv'⟩ := hb.genuine _ _ hlast
  obtain ⟨r, hauth, rfl, rfl⟩ := hacc hV
  rw [← hn] at hauth
  obtain ⟨note, mark, hres, hmark, hle⟩ := yields_runRound_authentic hp hbytes hauth hy
  refine ⟨fun hcurrent => ?_, fun hlater => ?_, mark, hmark, UInt32.le_trans ?_ hle⟩
  · have hidx : u.version.toNat = s.world.1.history.length - 1 := by omega
    rw [hidx, hlast] at hk
    cases hk
    rw [hdec] at hd
    cases hd
    have hver : (S.form V).version r = u.version := UInt32.toNat_inj.mp (by omega)
    rw [hver] at hres
    exact ⟨note, hres.trans (conclude_meets hp hu hmeets (hwrite _))⟩
  · have hnow : ((S.form V).version r).toNat + 1 = s.world.1.history.length := by omega
    refine ⟨_, hnow, hres.trans (conclude_other hu fun he => ?_)⟩
    rw [he] at hlater
    omega
  · exact UInt32.le_iff_toNat_le.mpr (by omega)

end

/-- Member `node` answers one request. -/
def demoNet (node : Nat) (payload : Bytes) (version : UInt32) : Net := fun target kind data =>
  if target = node ∧ kind = msgStatusRequest ∧ data = payload then
    .ok (msgStatusUpdated, Demo.statusUpdated version Demo.demoCredential)
  else .error "connection refused"

/-- The holder of the credential that asked there, as it finds the storage of `world`. -/
def demoOutside (member : Str) (net : Net) (world : Demo.World) : Outside where
  requestStatusUpdate := requestStatusUpdate (holderAsk Demo.demoSetup.mode) (some member) 0 net
  loadCredential := .ok Demo.demoCredential
  loadCredentialIfPresent := none
  currentRecord := world.current
  writeAtomic _ := .ok ()

theorem requestStatusUpdate_demo (member : Str) (node : Nat) (action : UInt8) (data : Bytes)
    (version : UInt32)
    (htarget : chooseTarget (holderAsk Demo.demoSetup.mode) (some member) 0 = .ok node)
    (hsup : (holderAsk Demo.demoSetup.mode).unsupported action = none) :
    requestStatusUpdate (holderAsk Demo.demoSetup.mode) (some member) 0
      (demoNet node (Demo.StatusRequest.encode ⟨action, data⟩) version) action data =
      .ok ⟨version, Demo.demoCredential⟩ := by
  have hans : demoNet node (Demo.StatusRequest.encode ⟨action, data⟩) version node msgStatusRequest
      (Demo.StatusRequest.encode ⟨action, data⟩) =
      .ok (msgStatusUpdated, Demo.statusUpdated version Demo.demoCredential) :=
    if_pos ⟨rfl, rfl, rfl⟩
  have hd : Demo.StatusUpdated.decode (Demo.statusUpdated version Demo.demoCredential) =
      some ⟨version, Demo.demoCredential⟩ := Demo.acknowledged_statusUpdated version _
  simp only [requestStatusUpdate, htarget, Bind.bind, Except.bind, hsup, hans, if_true, hd]

theorem demoNet_delivers {s : Sys Demo.DemoOp Demo.DemoAns Ledger Empty Request Demo.Reply}
    {node : Nat} {payload : Bytes} (hlen : payload.length ≤ Demo.maxFrame) {version : UInt32}
    (h : (.statusRequest node payload,
      some (msgStatusUpdated, Demo.statusUpdated version Demo.demoCredential)) ∈ s.world.2) :
    Delivers s.world.2 (demoNet node payload version) := by
  intro target data reply hans
  unfold demoNet at hans
  split at hans
  · rename_i hc
    obtain ⟨rfl, -, rfl⟩ := hc
    cases hans
    exact ⟨hlen, h⟩
  · cases hans

/-- A holder that has accepted nothing yet. -/
def freshHolder : Node (Anchor Demo.demoHashes) :=
  ⟨Demo.demoSetup.anchor, ⟨⟨"state", "highwater"⟩, [], 0, false⟩⟩

/-- Ten members issue a credential and revoke it. The holder that asked for it reads version 1,
and the one that had it revoked reads its own update. -/
theorem verdict_after_update_first : ∃ (world : Demo.World) (n n' : Node (Anchor Demo.demoHashes))
    (text note : String), world.history.length = 2 ∧ text = said .revoke ∧
    Yields Succeeds (runRound holderTexts (Demo.demoSetup.form SnarkVerifier.sampleVM)
      Demo.demoHashes.sha3 freshHolder (.issue ['a'])
      (demoOutside "0".toList (demoNet 0 Demo.issueRequest 0) world))
      (n, .error (holderTexts.otherVersion 0 1)) ∧
    Yields Succeeds (runRound holderTexts (Demo.demoSetup.form SnarkVerifier.sampleVM)
      Demo.demoHashes.sha3 freshHolder .revoke
      (demoOutside "3".toList (demoNet 3 Demo.revokeRequest 1) world))
      (n', .ok s!"v{(1 : UInt32)} verified, {text}, {note}") := by
  obtain ⟨s, hr, hlen, hissued, hrevoked⟩ := Demo.reachable_acknowledged
  have hissue : request (demoOutside "0".toList (demoNet 0 Demo.issueRequest 0) s.world.1)
      (.issue ['a']) = .ok (.issued ⟨0, Demo.demoCredential⟩) := by
    have hask : requestStatusUpdate (holderAsk Demo.demoSetup.mode) (some "0".toList) 0
        (demoNet 0 Demo.issueRequest 0) actionIssue (toUtf8 ['a']) = .ok ⟨0, Demo.demoCredential⟩ :=
      requestStatusUpdate_demo _ 0 actionIssue _ 0 rfl rfl
    simp only [request, demoOutside]
    rw [hask]
    rfl
  have hrevoke : request (demoOutside "3".toList (demoNet 3 Demo.revokeRequest 1) s.world.1)
      .revoke = .ok (.revoked ⟨1, Demo.demoCredential⟩) := by
    have hload : (demoOutside "3".toList (demoNet 3 Demo.revokeRequest 1)
        s.world.1).loadCredential = .ok Demo.demoCredential := by simp only [demoOutside]
    have hask : requestStatusUpdate (holderAsk Demo.demoSetup.mode) (some "3".toList) 0
        (demoNet 3 Demo.revokeRequest 1) actionRevoke Demo.demoCredential =
        .ok ⟨1, Demo.demoCredential⟩ :=
      requestStatusUpdate_demo _ 3 actionRevoke _ 1 rfl rfl
    rw [request_revoke hload]
    simp only [demoOutside]
    rw [hask]
    rfl
  obtain ⟨-, ⟨⟨n, result⟩, hy⟩, hall⟩ := verdict_after_update Demo.demoSetup
    SnarkVerifier.sampleVM 2 (fun h => by cases h) s hr holderTexts (some "0".toList) 0
    (demoNet 0 Demo.issueRequest 0) (demoNet_delivers (by decide) hissued) (.issue ['a']) _ rfl rfl
    (fun _ => rfl) freshHolder rfl
    (.issued ⟨0, Demo.demoCredential⟩) ⟨0, Demo.demoCredential⟩ hissue rfl
  obtain ⟨-, ⟨⟨n', result'⟩, hy'⟩, hall'⟩ := verdict_after_update Demo.demoSetup
    SnarkVerifier.sampleVM 2 (fun h => by cases h) s hr holderTexts (some "3".toList) 0
    (demoNet 3 Demo.revokeRequest 1)
    (demoNet_delivers (by rw [Demo.length_revokeRequest]; decide) hrevoked) .revoke _ rfl rfl
    (fun _ => rfl) freshHolder rfl
    (.revoked ⟨1, Demo.demoCredential⟩) ⟨1, Demo.demoCredential⟩ hrevoke rfl
  obtain ⟨-, hlater, -⟩ := hall n result hy
  obtain ⟨later, hnow, rfl⟩ := hlater (by rw [hlen]; decide)
  obtain rfl : later = 1 := UInt32.toNat_inj.mp (Nat.succ.inj (hnow.trans hlen))
  obtain ⟨hcurrent, -, -⟩ := hall' n' result' hy'
  obtain ⟨note, rfl⟩ := hcurrent (by rw [hlen]; rfl)
  exact ⟨s.world.1, n, n', _, note, hlen, rfl, hy, hy'⟩

end Drot.L5.Holder
