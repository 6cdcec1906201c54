import Drot.L5System.Messages

/-!
# One update of the XMSS demo

What the two handlers do when nothing fails, from any state: a member that takes the
proposal that is due signs it (`reaches_signer`), any number of them do so one after the
other (`reaches_signers`), the aggregator gets as far as its proposal
(`reaches_proposed`), and in raw mode it publishes what seven members signed
(`reaches_acknowledging`). Thread `p` aggregates and thread `q` serves the members.

`Asks` says which proposal a status request makes of what storage holds, and `Due` that
the members sign it.
-/
namespace Drot.L5.Demo
open Bytes Ssz Bitmap Text L1.Message L3.Protocol L4.RawVerifier L2.SlotCounter Prog

/-- No condition on where an effect happens. -/
def Anywhere (_ : World) (_ : DemoOp) : Prop := True

/-- No member is served here. -/
def Aggregating (_ : World) (op : DemoOp) : Prop := ∀ node, op ≠ .accept node

/-- Nothing was proposed or published since `w₀`. -/
def Since (w₀ : World) (w : World) (_ : DemoOp) : Prop :=
  w.rounds = w₀.rounds ∧ w.history = w₀.history

section
variable {α β : Type} {Q : World → DemoOp → Prop} {p : Nat} {w w₁ w₂ : World}

theorem runs_ask {op : DemoOp} {k : DemoAns op → DemoProg α} {m : DemoProg α} (hq : Q w op)
    (r : DemoAns op) (hx : exec p w op r w₁) (h : machine.Runs Q p (k r) w₁ m w₂) :
    machine.Runs Q p (ask op >>= k) w m w₂ := .step r hq hx h

theorem runs_seq {m : DemoProg β} {f : β → DemoProg α} {m' : DemoProg α} {b : β}
    (h : machine.Runs Q p m w (.ret b) w₁) (h' : machine.Runs Q p (f b) w₁ m' w₂) :
    machine.Runs Q p (m >>= f) w m' w₂ := (h.bind f).trans h'

/-- What storage holds is read. -/
theorem runs_currentRecord (hq : ∀ op, Q w (.storage op)) :
    machine.Runs Q p currentRecord w (.ret w.current) w := by
  cases hd : w.volume.dir .currentRecord with
  | none =>
    rw [World.current, hd]
    exact runs_ask (hq _) (.error ⟨.notFound, "No such file or directory (os error 2)"⟩)
      ⟨w.volume, rfl, rfl⟩ .refl
  | some f =>
    rw [World.current, hd]
    exact runs_ask (hq _) (.ok f) ⟨w.volume, ⟨hd, rfl⟩, rfl⟩
      (runs_ask (hq _) (.ok (w.volume.inode f)) ⟨w.volume, ⟨rfl, rfl⟩, rfl⟩ .refl)

end

/-! ## A member signs -/

section
variable {H : Hashes} (S : Setup H)

theorem slotFor_zero : S.committee.slotFor 0 = some Params.slot := by
  unfold Committee.slotFor
  rw [S.genesis]
  rfl

/-- What the nodes make of a record that decodes. -/
theorem expectedVersion_decoded {mode : Mode} {bytes : Bytes} {version next : UInt32}
    {list : List Entry} (hd : decodeList mode bytes = .ok (version, list))
    (hn : checkedSucc version = some next) : expectedVersion mode (some bytes) = .ok next := by
  unfold expectedVersion
  dsimp only
  rw [hd]
  dsimp only
  rw [hn]

theorem nextSnapshot_decoded {mode : Mode} {bytes : Bytes} {version next : UInt32}
    {list : List Entry} (hd : decodeList mode bytes = .ok (version, list))
    (hn : checkedSucc version = some next) : nextSnapshot mode (some bytes) = .ok (next, list) := by
  unfold nextSnapshot
  dsimp only
  rw [hd]
  dsimp only
  rw [hn]

/-- The proposal is for the version after the one in storage; it has a slot and fits a
frame. -/
structure Due (w : World) (x : Proposal) (slot : UInt32) : Prop where
  expected : expectedVersion S.mode w.current = .ok x.version
  slot : S.committee.slotFor x.version = some slot
  fits : x.encode.length ≤ maxFrame

/-- The member has not spent the slot. -/
def CanBurn (w : World) (slot : UInt32) (i : Nat) : Prop :=
  burnAt (w.counter i) slotEnd slot = .ok slot

def signedReply (signature : XmssSignature) : Bytes := SignatureReply.encode ⟨[signature], []⟩

theorem length_signedReply (signature : XmssSignature) :
    (signedReply signature).length ≤ maxFrame := by
  have hfit : ∀ f ∈ (SignatureReply.mk [signature] []).fields, Field.Fits f := by
    intro f hf n hn
    simp only [SignatureReply.fields, List.mem_cons, List.not_mem_nil, or_false] at hf
    rcases hf with rfl | rfl <;> cases hn
  unfold signedReply SignatureReply.encode encodeFields
  rw [List.length_append, length_header _ _ hfit]
  simp only [SignatureReply.fields, fixedLen, List.map_cons, List.map_nil, Shape.width,
    List.sum_cons, List.sum_nil, varParts, List.flatten_cons, List.flatten_nil, List.length_append,
    length_encodeVec, List.length_cons, List.length_nil]
  decide

theorem replySignature_signed (signature : XmssSignature) :
    replySignature msgSignature (signedReply signature) = some signature := by
  unfold replySignature
  rw [if_pos rfl, signedReply, SignatureReply.decode_encode (length_signedReply signature)]
  rfl

/-- Member `i` has signed for round `rx`, and its answer is on the way. -/
structure SignedFor (slot : UInt32) (rx i : Nat) (signature : XmssSignature) (w w' : World) :
    Prop where
  link : w'.link rx i = .answered msgSignature (signedReply signature)
  counter : w'.counter i = slot.toUInt64 + 1
  others : ∀ j, j ≠ i → w'.link rx j = w.link rx j ∧ w'.counter j = w.counter j
  volume : w'.volume = w.volume
  rounds : w'.rounds = w.rounds
  history : w'.history = w.history
  round : w'.round = w.round

variable {S} {rx i : Nat} {x : Proposal} {w : World} {slot : UInt32}

theorem runs_serveProposal (q : Nat) (signature : XmssSignature) (hx : Due S w x slot)
    (hl : w.link rx i = .proposed x.encode) (hc : CanBurn w slot i) : ∃ frame w',
    machine.Runs (Since w) q (serveProposal S i) w (.ret (some frame)) w' ∧
      SignedFor slot rx i signature w w' := by
  set w₁ : World := { w.setLink rx i .taken with
    stream := Function.update w.stream q (some (rx, i)) } with hw₁
  set w₂ : World := { w₁.setCounter i (slot.toUInt64 + 1) with
    votes := ⟨i, slot, w₁.stream q⟩ :: w₁.votes } with hw₂
  have hstream : w₂.stream q = some (rx, i) := Function.update_self ..
  have htaken : w₂.link rx i = .taken := by
    show (w.setLink rx i .taken).link rx i = _
    rw [setLink_link, if_pos ⟨rfl, rfl⟩]
  have hon : machine.Runs (Since w) q (onProposal S i x.encode) w₁
      (.ret (msgSignature, signedReply signature)) w₂ := by
    unfold onProposal
    rw [Proposal.decode_encode hx.fits]
    refine runs_seq (runs_currentRecord fun _ => ⟨rfl, rfl⟩) ?_
    rw [show w₁.current = w.current from rfl, hx.expected]
    simp only [ne_eq, not_true_eq_false, if_false]
    rw [hx.slot]
    exact runs_ask ⟨rfl, rfl⟩ (.ok signature) ⟨hc, rfl⟩ .refl
  refine ⟨_, _, runs_ask ⟨rfl, rfl⟩ x.encode ⟨rx, hl, rfl⟩ (runs_seq hon (runs_ask ⟨rfl, rfl⟩
    (.ok ()) ⟨length_signedReply signature, rx, i, hstream, htaken, rfl⟩ .refl)), ?_⟩
  refine ⟨?_, ?_, fun j hj => ⟨?_, ?_⟩, rfl, rfl, rfl, rfl⟩
  · rw [setLink_link, if_pos ⟨rfl, rfl⟩]
  · exact Function.update_self ..
  · rw [setLink_link, if_neg (fun h => hj h.2)]
    show (w.setLink rx i .taken).link rx j = _
    rw [setLink_link, if_neg (fun h => hj h.2)]
  · exact Function.update_of_ne hj _ _

/-- Thread `q`, which serves proposals, may move as long as nothing else was proposed
or published since `w₀`. -/
structure Lets (G : DemoSys → Act → Prop) (q : Nat) (w₀ : World)
    (procs : Nat → Proc DemoOp DemoAns Empty Request Reply) : Prop where
  call : ∀ w, w.rounds = w₀.rounds → w.history = w₀.history → G ⟨w, procs⟩ (.call q)
  moves : ∀ w i m a, w.rounds = w₀.rounds → w.history = w₀.history → a = .exec q ∨ a = .ret q →
    G ⟨w, Function.update procs q (.busy (.proposal i) m)⟩ a

/-- The mutex of a node that is free stays free, and a thread that holds one keeps it
unless it is `q`. -/
theorem release_round {q node : Nat} {holder : Option Nat} (hw : w.round node = holder)
    (hq : holder ≠ some q) : (release q w).round node = holder := by
  show (if w.round node = some q then none else w.round node) = holder
  rw [hw, if_neg hq]

variable {G : DemoSys → Act → Prop} {procs : Nat → Proc DemoOp DemoAns Empty Request Reply}

/-- Thread `q` serves a proposal from beginning to end. -/
theorem reaches_signer {q : Nat} (signature : XmssSignature) (hG : Lets G q w procs)
    (hx : Due S w x slot) (hi : i < nMembers) (hl : w.link rx i = .proposed x.encode)
    (hc : CanBurn w slot i) (hp : procs q = .idle) : ∃ w',
    ((demo S).guard G).Reaches ⟨w, procs⟩ ⟨release q w', procs⟩ ∧
      SignedFor slot rx i signature w w' := by
  obtain ⟨frame, w', hruns, hs⟩ := runs_serveProposal (S := S) q signature hx hl hc
  have hm : (api S).run none (.proposal i) =
      some ((serveProposal S i).bind fun r => .ret (none, r)) := if_pos hi
  have hcall : machine.Runs (Since w) q ((serveProposal S i).bind fun r => .ret (none, r)) w
      (.ret ((none : Option Empty), some frame)) w' := hruns.bind _
  have hobj : (procs q).object = some none := by rw [hp]; rfl
  have hself : Function.update procs q .idle = procs := by rw [← hp, Function.update_eq_self]
  have hmade : ((demo S).guard G).Reaches ⟨w, procs⟩
      ⟨w, Function.update procs q (.busy (.proposal i) _)⟩ :=
    Machine.reaches_busy hm hobj (hG.call w rfl rfl)
  have hserved : ((demo S).guard G).Reaches ⟨w, Function.update procs q (.busy (.proposal i) _)⟩
      ⟨w', Function.update procs q
        (.busy (.proposal i) (.ret ((none : Option Empty), some frame)))⟩ :=
    Machine.reaches_runs_among hcall
      fun op k u hu => hG.moves u i (.call op k) _ hu.1 hu.2 (.inl rfl)
  have hdone : ((demo S).guard G).Reaches
      ⟨w', Function.update procs q (.busy (.proposal i) (.ret ((none : Option Empty), some frame)))⟩
      ⟨release q w', Function.update procs q .idle⟩ :=
    Machine.reaches_returned (M := machine) (A := api S) (o := none)
      (hG.moves w' i _ _ hs.rounds hs.history (.inr rfl))
  rw [hself] at hdone
  exact ⟨w', (hmade.trans hserved).trans hdone, hs⟩

/-- The first `n` members have signed for round `rx`. -/
structure SignedBy (slot : UInt32) (rx : Nat) (sign : Nat → XmssSignature) (n : Nat)
    (w w' : World) : Prop where
  done : ∀ i < n, w'.link rx i = .answered msgSignature (signedReply (sign i)) ∧
    w'.counter i = slot.toUInt64 + 1
  rest : ∀ i, n ≤ i → w'.link rx i = w.link rx i ∧ w'.counter i = w.counter i
  volume : w'.volume = w.volume
  rounds : w'.rounds = w.rounds
  history : w'.history = w.history

theorem SignedBy.refl (slot : UInt32) (rx : Nat) (sign : Nat → XmssSignature) (w : World) :
    SignedBy slot rx sign 0 w w := ⟨nofun, fun _ _ => ⟨rfl, rfl⟩, rfl, rfl, rfl⟩

/-- One more. -/
theorem SignedBy.succ {sign : Nat → XmssSignature} {n : Nat} {w₁ w₂ : World}
    (h : SignedBy slot rx sign n w w₁) (hs : SignedFor slot rx n (sign n) w₁ w₂) :
    SignedBy slot rx sign (n + 1) w w₂ := by
  refine ⟨fun i hi => ?_, fun i hi => ?_, hs.volume.trans h.volume, hs.rounds.trans h.rounds,
    hs.history.trans h.history⟩
  · by_cases hin : i = n
    · subst hin
      exact ⟨hs.link, hs.counter⟩
    · obtain ⟨h1, h2⟩ := hs.others i hin
      obtain ⟨h3, h4⟩ := h.done i (by omega)
      exact ⟨h1.trans h3, h2.trans h4⟩
  · obtain ⟨h1, h2⟩ := hs.others i (by omega)
    obtain ⟨h3, h4⟩ := h.rest i (by omega)
    exact ⟨h1.trans h3, h2.trans h4⟩

/-- The first `n` members sign, one after the other. -/
theorem reaches_signers {q : Nat} (rx : Nat) (sign : Nat → XmssSignature) (hG : Lets G q w procs)
    (hx : Due S w x slot) (hp : procs q = .idle) (n : Nat) (hn : n ≤ nMembers)
    (hl : ∀ i < n, w.link rx i = .proposed x.encode) (hc : ∀ i < n, CanBurn w slot i) : ∃ w',
    ((demo S).guard G).Reaches ⟨w, procs⟩ ⟨w', procs⟩ ∧ SignedBy slot rx sign n w w' ∧
      ∀ node holder, holder ≠ some q → w.round node = holder → w'.round node = holder := by
  induction n with
  | zero => exact ⟨w, .refl, .refl .., fun _ _ _ h => h⟩
  | succ n ih =>
    obtain ⟨w₁, hr₁, hs₁, hround₁⟩ := ih (by omega) (fun i hi => hl i (by omega))
      fun i hi => hc i (by omega)
    obtain ⟨hln, hcn⟩ := hs₁.rest n (le_refl n)
    have hG₁ : Lets G q w₁ procs :=
      ⟨fun u h h' => hG.call u (h.trans hs₁.rounds) (h'.trans hs₁.history),
        fun u i m a h h' => hG.moves u i m a (h.trans hs₁.rounds) (h'.trans hs₁.history)⟩
    have hx₁ : Due S w₁ x slot := by
      refine ⟨?_, hx.slot, hx.fits⟩
      rw [show w₁.current = w.current by unfold World.current; rw [hs₁.volume]]
      exact hx.expected
    have hcn₁ : CanBurn w₁ slot n := by
      unfold CanBurn
      rw [hcn]
      exact hc n (by omega)
    obtain ⟨w₂, hr₂, hs₂⟩ :=
      reaches_signer (sign n) hG₁ hx₁ hn (hln.trans (hl n (by omega))) hcn₁ hp
    obtain ⟨hdone, hrest, hvol, hrounds, hhist⟩ := hs₁.succ hs₂
    refine ⟨release q w₂, hr₁.trans hr₂, ⟨hdone, hrest, hvol, hrounds, hhist⟩, ?_⟩
    intro node holder hne hw
    refine release_round ?_ hne
    rw [hs₂.round]
    exact hround₁ node holder hne hw

end

/-! ## The aggregator proposes -/

section
variable {H : Hashes}

/-- The request is not refused, and makes `after` of `before`. -/
def Granted (sha3 : Bytes → Blob 32) (request : StatusRequest) (before after : List Entry)
    (credential : Bytes) : Prop :=
  request.action = actionIssue ∧ (∃ c cs, fromUtf8 request.data = some (c :: cs)) ∧
    addValid sha3 before credential = (after, true) ∨
  request.action = actionRevoke ∧ request.data = credential ∧ credential ≠ [] ∧
    revoke sha3 before credential = (after, true)

/-- What a status request at a free aggregator is turned into, from what storage holds. -/
structure Asks (S : Setup H) (w : World) (node : Nat) (payload : Bytes) (x : Proposal)
    (credential : Bytes) : Prop where
  served : node < nMembers
  aggregates : canAggregate S.mode node = true
  free : w.round node = none
  proposes : ∃ request before, StatusRequest.decode payload = some request ∧
    nextSnapshot S.mode w.current = .ok (x.version, before) ∧
    Granted H.sha3 request before x.list credential

/-- The world in which thread `p`, on `node`, has just proposed `x`. -/
def World.proposed (w : World) (p node : Nat) (x : Proposal) : World :=
  World.propose { w with round := Function.update w.round node (some p) } p x

theorem World.proposed_link (w : World) (p node : Nat) {x : Proposal}
    (hx : x.encode.length ≤ maxFrame) {i : Nat} (hi : i < nMembers) :
    (w.proposed p node x).link w.rounds.length i = .proposed x.encode := by
  show Function.update w.link w.rounds.length _ w.rounds.length i = _
  rw [Function.update_self, if_pos ⟨hi, hx⟩]

variable (S : Setup H) (node rx : Nat) (slot : UInt32) (x : Proposal) (credential : Bytes)

/-- What is left of the request then. -/
def collectingRest : DemoProg Reply :=
  (((collect S (S.committee.messageFor H .wotsXmss x.list x.version) slot rx nMembers
    []).bind fun quorum => .ret (some quorum)).bind
      (finishRound S node x.version x.list credential)).bind fun reply =>
        (ask (.unlockRound node)).bind fun _ => .ret reply

/-- What is left of its thread. -/
def collecting : DemoProg (Option Empty × Reply) :=
  (collectingRest S node rx slot x credential).bind fun r => .ret (none, r)

variable {S node rx slot x credential} {p : Nat} {w : World} {payload : Bytes}

theorem runs_applyRequest {request : StatusRequest} {before : List Entry} {version : UInt32}
    (h : Granted H.sha3 request before x.list credential) :
    machine.Runs Aggregating p (applyRequest (H := H) node request version before) w
      (.ret (.ok (x.list, credential))) w := by
  unfold applyRequest
  rcases h with ⟨ha, ⟨c, cs, hs⟩, hadd⟩ | ⟨ha, hdata, hne, hrev⟩
  · rw [if_pos ha, hs]
    refine runs_ask nofun credential rfl ?_
    rw [hadd]
    exact .refl
  · rw [if_neg (by rw [ha]; decide), if_pos ha, hdata, if_neg hne, hrev]
    exact .refl

theorem runs_proposed (h : Asks S w node payload x credential)
    (hs : S.committee.slotFor x.version = some slot) :
    machine.Runs Aggregating p (onStatusRequest S node payload) w
      (collectingRest S node w.rounds.length slot x credential) (w.proposed p node x) := by
  obtain ⟨request, before, hdec, hnext, hgranted⟩ := h.proposes
  unfold onStatusRequest
  rw [h.aggregates, hdec]
  simp only [Bool.true_eq_false, if_false]
  set w₀ : World := { w with round := Function.update w.round node (some p) }
  refine runs_ask nofun () ⟨h.free, rfl⟩ ?_
  set waiting : DemoProg (Option (List (Nat × XmssSignature))) :=
    (collect S (S.committee.messageFor H .wotsXmss x.list x.version) slot w.rounds.length nMembers
      []).bind fun quorum => .ret (some quorum)
  have hcollect : machine.Runs Aggregating p (collectSignatures S x) w₀ waiting
      (w.proposed p node x) := by
    unfold collectSignatures
    dsimp only
    rw [hs]
    exact runs_ask nofun w.rounds.length ⟨rfl, rfl⟩ .refl
  have hcoord : machine.Runs Aggregating p (coordinate S node request) w₀
      (waiting.bind (finishRound S node x.version x.list credential)) (w.proposed p node x) := by
    refine runs_seq (runs_currentRecord fun _ => nofun) ?_
    rw [show w₀.current = w.current from rfl, hnext]
    exact runs_seq (runs_applyRequest hgranted) (hcollect.bind _)
  exact hcoord.bind _

variable {G : DemoSys → Act → Prop} {procs : Nat → Proc DemoOp DemoAns Empty Request Reply}

/-- Thread `p` is inside the request. -/
def requestProcs (procs : Nat → Proc DemoOp DemoAns Empty Request Reply) (p node : Nat)
    (payload : Bytes) (m : DemoProg (Option Empty × Reply)) :
    Nat → Proc DemoOp DemoAns Empty Request Reply :=
  Function.update procs p (.busy (.statusRequest node payload) m)

theorem reaches_proposed (h : Asks S w node payload x credential)
    (hs : S.committee.slotFor x.version = some slot) (hp : procs p = .idle)
    (hcall : G ⟨w, procs⟩ (.call p))
    (hexec : ∀ w op k, Aggregating w op →
      G ⟨w, requestProcs procs p node payload (.call op k)⟩ (.exec p)) :
    ((demo S).guard G).Reaches ⟨w, procs⟩ ⟨w.proposed p node x,
      requestProcs procs p node payload (collecting S node w.rounds.length slot x credential)⟩ := by
  have hm : (api S).run none (.statusRequest node payload) =
      some ((onStatusRequest S node payload).bind fun r => .ret (none, r)) := if_pos h.served
  have hobj : (procs p).object = some none := by rw [hp]; rfl
  have hmade : ((demo S).guard G).Reaches ⟨w, procs⟩ ⟨w, requestProcs procs p node payload _⟩ :=
    Machine.reaches_busy hm hobj hcall
  exact hmade.trans (Machine.reaches_runs_among ((runs_proposed h hs).bind _)
    fun op k u hu => hexec u op k hu)

/-- The first `n` members have signed what was proposed. -/
theorem reaches_signed {q : Nat} (hpq : p ≠ q) (sign : Nat → XmssSignature)
    (h : Asks S w node payload x credential) (hx : Due S w x slot) (hp : procs p = .idle)
    (hq : procs q = .idle) (hcall : G ⟨w, procs⟩ (.call p))
    (hexec : ∀ w op k, Aggregating w op →
      G ⟨w, requestProcs procs p node payload (.call op k)⟩ (.exec p))
    (hG : Lets G q (w.proposed p node x)
      (requestProcs procs p node payload (collecting S node w.rounds.length slot x credential)))
    (n : Nat) (hn : n ≤ nMembers) (hc : ∀ i < n, CanBurn w slot i) : ∃ w',
    ((demo S).guard G).Reaches ⟨w, procs⟩ ⟨w',
      requestProcs procs p node payload (collecting S node w.rounds.length slot x credential)⟩ ∧
      SignedBy slot w.rounds.length sign n (w.proposed p node x) w' ∧
      ∀ node', w.round node' = none → node' ≠ node → w'.round node' = none := by
  obtain ⟨w', hr, hs, hround⟩ := reaches_signers (S := S) w.rounds.length sign hG
    ⟨hx.expected, hx.slot, hx.fits⟩ ((Function.update_of_ne hpq.symm ..).trans hq) n hn
    (fun i hi => w.proposed_link p node hx.fits (by omega)) hc
  refine ⟨w', (reaches_proposed h hx.slot hp hcall hexec).trans hr, hs, fun node' hf hne => ?_⟩
  refine hround node' none nofun ?_
  exact (Function.update_of_ne hne ..).trans hf

end

/-! ## The aggregator publishes -/

section
variable {H : Hashes} {S : Setup H} {p : Nat}

theorem runs_storage {α : Type} {op : VolOp StorageName}
    {f : VolRes op → ExceptT IoError DemoProg α}
    {m : DemoProg (Except IoError α)} {w w' : World} {v : Volume StorageName} (a : VolRes op)
    (hv : w.volume.exec op (.ok a) v)
    (h : machine.Runs Anywhere p (f a).run (w.afterStorage v op (.ok a)) m w') :
    machine.Runs Anywhere p (storage op >>= f).run w m w' := .step (.ok a) trivial ⟨v, hv, rfl⟩ h

/-- What a publication leaves. -/
def World.publishes (w : World) (record : Bytes) : World :=
  let f := w.volume.createIno .tmp
  { w with volume := ((w.volume.createAt .tmp).setFile f record).renamed .tmp .currentRecord f
           history := w.history ++ [(f, record)] }

theorem current_publishes (w : World) (record : Bytes) :
    (w.publishes record).current = some record := by
  simp [World.current, World.publishes, Volume.renamed, Volume.setFile]

theorem runs_publish (record : Bytes) (w : World) :
    machine.Runs Anywhere p (publish record).run w (.ret (.ok ())) (w.publishes record) := by
  set f := w.volume.createIno .tmp with hf
  set v := (w.volume.createAt .tmp).setFile f record with hv
  have hdir : v.dir .tmp = some f := w.volume.createAt_dir .tmp
  have hwrite : (w.volume.createAt .tmp).exec (.writeAll f record) (.ok ()) v := by
    show v = _
    rw [hf, w.volume.createAt_inode .tmp, List.drop_nil, List.append_nil]
  have hafter : { w with volume := v }.afterStorage (v.renamed .tmp .currentRecord f)
      (.rename .tmp .currentRecord) (.ok ()) = w.publishes record := by
    have h1 : (v.renamed .tmp .currentRecord f).dir .currentRecord = some f := by
      simp [Volume.renamed]
    have h2 : (v.renamed .tmp .currentRecord f).inode f = record := by
      simp [Volume.renamed, hv, Volume.setFile]
    simp [World.afterStorage, World.publishes, h1, h2, ← hf, ← hv]
  refine runs_storage f ⟨rfl, rfl⟩ (runs_storage () hwrite (runs_storage () rfl
    (runs_storage () ⟨f, hdir, rfl⟩ (.step (.ok ()) trivial ⟨_, rfl, rfl⟩ ?_))))
  rw [← hafter]
  exact .refl

/-- The signatures of the first `k` members. -/
def firstSigned (sign : Nat → XmssSignature) (k : Nat) : List (Nat × XmssSignature) :=
  (List.range k).map fun i => (i, sign i)

theorem firstSigned_indices (sign : Nat → XmssSignature) (k : Nat) :
    (firstSigned sign k).map Prod.fst = List.range k := by
  simp [firstSigned, Function.comp_def]

theorem firstSigned_succ (sign : Nat → XmssSignature) (k : Nat) :
    firstSigned sign (k + 1) = firstSigned sign k ++ [(k, sign k)] := by
  simp [firstSigned, List.range_succ]

theorem length_firstSigned (sign : Nat → XmssSignature) (k : Nat) :
    (firstSigned sign k).length = k := by
  simp [firstSigned]

/-- The answers of the first seven members arrive in order. Three threads have sent
nothing when the loop ends. -/
theorem runs_collect {message : Blob 32} {slot : UInt32} {rx : Nat} {sign : Nat → XmssSignature}
    (hmem : ∀ i < threshold, ∃ pk, S.committee.members[i]? = some pk ∧
      S.xmssVerify pk message (sign i) slot = true) (d k : Nat) (hk : k + d = threshold) (w : World)
    (hl : ∀ i, k ≤ i → i < threshold →
      w.link rx i = .answered msgSignature (signedReply (sign i))) : ∃ link,
    machine.Runs Anywhere p (collect S message slot rx (d + 3) (firstSigned sign k)) w
      (.ret (firstSigned sign threshold)) { w with link := link } := by
  induction d generalizing k w with
  | zero =>
    obtain rfl : k = threshold := hk
    refine ⟨w.link, ?_⟩
    unfold collect
    rw [if_pos (le_of_eq (length_firstSigned sign threshold).symm)]
    exact .refl
  | succ d ih =>
    have hlt : k < threshold := by omega
    obtain ⟨pk, hpk, hv⟩ := hmem k hlt
    obtain ⟨link, hrun⟩ := ih (k + 1) (by omega) (w.setLink rx k .delivered) fun i hi hit => by
      rw [setLink_link, if_neg (by omega)]
      exact hl i (by omega) hit
    refine ⟨link, ?_⟩
    rw [show d + 1 + 3 = d + 3 + 1 from rfl]
    unfold collect
    rw [if_neg (by rw [length_firstSigned]; omega)]
    refine runs_ask trivial (some (k, sign k)) ⟨_, _, hl k (le_refl k) hlt,
      replySignature_signed (sign k), rfl⟩ ?_
    simp only [hpk, hv, if_true]
    rw [← firstSigned_succ]
    exact hrun

/-- In raw mode the round publishes what seven members signed. -/
theorem runs_finishRound (hraw : S.mode = .raw) (sign : Nat → XmssSignature) (node : Nat)
    {x : Proposal} (hx : x.encode.length ≤ maxFrame) (credential : Bytes) (w : World) :
    ∃ record, decodeList S.mode record = .ok (x.version, x.list) ∧
      machine.Runs Anywhere p (finishRound S node x.version x.list credential
        (some (firstSigned sign threshold))) w
        (.ret (some (msgStatusUpdated, statusUpdated x.version credential)))
        (w.publishes record) := by
  have hlt : ∀ y ∈ firstSigned sign threshold, y.1 < nMembers := by
    intro y hy
    have hy' : y.1 ∈ List.range threshold :=
      firstSigned_indices sign threshold ▸ List.mem_map_of_mem hy
    exact lt_trans (List.mem_range.mp hy') (by decide)
  obtain ⟨r, hnew, -, hlist, hversion, hslots, -, hsigs⟩ :=
    statusList_new_ok .wotsXmss x.list x.version (show nMembers ≤ maxCommitteeSize by decide)
      (firstSigned_indices sign threshold ▸ List.nodup_range) hlt
  have hlen : r.toBytes.length < 2 ^ 32 := by
    have hcount : r.signatures.length = threshold := by
      rw [hsigs, List.length_map, (sortPairs_perm _).length_eq, length_firstSigned]
    rw [StatusList.toBytes, RecordWire.length_encode]
    show 17 + 32 * r.statusList.length + (r.signerSlots / 8 + 1) + 1208 * r.signatures.length < _
    rw [Proposal.length_encode] at hx
    rw [hlist, hslots, hcount]
    unfold threshold nMembers
    unfold maxFrame at hx
    omega
  refine ⟨r.toBytes, ?_, ?_⟩
  · unfold decodeList
    rw [hraw]
    dsimp only
    rw [StatusList.fromBytes_toBytes (StatusList.signerCount_of_new hnew) hlen, ← hversion, ← hlist]
    rfl
  · have hbuild : buildRecord S node x.list x.version (firstSigned sign threshold) =
        .ret (some (.ok r.toBytes)) := by
      unfold buildRecord
      rw [hraw]
      dsimp only
      rw [hnew]
      rfl
    unfold finishRound
    dsimp only
    rw [if_neg (by rw [length_firstSigned]; exact lt_irrefl _), hbuild]
    exact runs_seq .refl (runs_seq (runs_publish r.toBytes w) .refl)

/-- What an update that goes through leaves: the new record is the one in storage and the
last one placed, seven members have spent its slot, and no mutex is taken. -/
structure Updated (S : Setup H) (x : Proposal) (slot : UInt32) (w w' : World) : Prop where
  placed : ∃ f record, w'.history = w.history ++ [(f, record)] ∧ w'.current = some record ∧
    decodeList S.mode record = .ok (x.version, x.list)
  spent : ∀ i < threshold, w'.counter i = slot.toUInt64 + 1
  free : (∀ node, w.round node = none) → ∀ node, w'.round node = none

/-- In raw mode, a request that is turned into the proposal that is due is acknowledged
if seven members can sign it: its thread is about to say so. -/
theorem reaches_acknowledging (hraw : S.mode = .raw) {q : Nat} (hpq : p ≠ q) (w : World)
    (procs : Nat → Proc DemoOp DemoAns Empty Request Reply) (hp : procs p = .idle)
    (hq : procs q = .idle) (sign : Nat → XmssSignature) {node : Nat} {payload : Bytes}
    {x : Proposal} {credential : Bytes} {slot : UInt32} (h : Asks S w node payload x credential)
    (hx : Due S w x slot) (hc : ∀ i < threshold, CanBurn w slot i)
    (hmem : ∀ i < threshold, ∃ pk, S.committee.members[i]? = some pk ∧
      S.xmssVerify pk (S.committee.messageFor H .wotsXmss x.list x.version) (sign i) slot = true) :
    ∃ w', (demo S).Reaches ⟨w, procs⟩ ⟨w', requestProcs procs p node payload
        (.ret (none, some (msgStatusUpdated, statusUpdated x.version credential)))⟩ ∧
      Updated S x slot w w' := by
  let G : DemoSys → Act → Prop := fun _ _ => True
  obtain ⟨w₁, hr, hs, hround⟩ := reaches_signed (G := G) hpq sign h hx hp hq trivial
    (fun _ _ _ _ => trivial) ⟨fun _ _ _ => trivial, fun _ _ _ _ _ _ _ => trivial⟩ threshold
    (by decide) hc
  obtain ⟨link, hcollect⟩ := runs_collect (p := p) hmem threshold 0 rfl w₁
    fun i _ hi => (hs.done i hi).1
  obtain ⟨record, hdec, hfinish⟩ := runs_finishRound (p := p) hraw sign node hx.fits credential
    { w₁ with link := link }
  have hrest := ((hcollect.bind fun quorum => .ret (some quorum)).bind
    (finishRound S node x.version x.list credential)).trans hfinish
  have hwhole := ((hrest.bind fun reply => (ask (.unlockRound node)).bind fun _ => .ret reply).trans
    (.step () trivial rfl .refl)).bind fun r => .ret ((none : Option Empty), r)
  refine ⟨_, LTS.Reaches.of_guard (hr.trans (Machine.reaches_runs_among hwhole
    fun _ _ _ _ => trivial)), ⟨w₁.volume.createIno .tmp, record, ?_,
    current_publishes { w₁ with link := link } record, hdec⟩, fun i hi => ?_, fun hf node' => ?_⟩
  · show w₁.history ++ _ = _
    rw [hs.history]
    rfl
  · exact (hs.done i hi).2
  · show Function.update w₁.round node none node' = none
    by_cases hne : node' = node
    · subst hne
      exact Function.update_self ..
    · exact (Function.update_of_ne hne ..).trans (hround node' (hf node') hne)

end
/-! ## A committee of ten -/

def demoKeys : List XmssPublicKey :=
  (List.range nMembers).map fun i => ⟨List.replicate 32 (UInt8.ofNat i), List.length_replicate⟩

/-- What `vc::issue` makes for the subject `a`, member 0 and version 0. -/
def demoCredential : Bytes := utf8 ("\x7b\"@context\":[\"https://www.w3.org/ns/credentials/v2\"]," ++
  "\"credentialStatus\":\x7b\"statusListVersion\":0,\"type\":\"CommitteeStatusList\"\x7d," ++
  "\"credentialSubject\":\x7b\"id\":\"a\"\x7d," ++
  "\"id\":\"urn:uuid:00112233445566778899aabbccddeeff\"," ++
  "\"issuer\":\"did:demo:committee#member-0\"," ++
  "\"type\":[\"VerifiableCredential\",\"DemoStatusCredential\"]\x7d")

/-- A holder asks for a credential for the subject `a`. -/
def issueRequest : Bytes := StatusRequest.encode ⟨actionIssue, toUtf8 ['a']⟩

/-- And to have it revoked. -/
def revokeRequest : Bytes := StatusRequest.encode ⟨actionRevoke, demoCredential⟩

/-- The program's hashes on what is hashed here: the anchor's encoding, the
credential, the domain and the statements of versions 0 and 1. -/
def demoFingerprint : Blob 32 :=
  ⟨[0xfa, 0xa0, 0x1e, 0x85, 0xe2, 0xd9, 0xfe, 0x5e, 0xd5, 0xa0, 0xf9, 0xfb, 0x7f, 0x6e, 0x8b, 0xdb,
    0xa8, 0x44, 0x9c, 0x0c, 0x62, 0x7c, 0x05, 0xfc, 0x39, 0xe3, 0xf4, 0x5a, 0x21, 0xa9, 0x6f, 0x1f], rfl⟩
def demoEntry : Entry :=
  ⟨[0xa1, 0xa8, 0xff, 0x62, 0x3e, 0x63, 0x7f, 0x9a, 0x20, 0x29, 0x61, 0xab, 0x02, 0xc0, 0x65, 0x9b,
    0x3e, 0x3b, 0x05, 0x0a, 0x04, 0x2e, 0x7b, 0x42, 0x2c, 0x1b, 0x94, 0x83, 0xb7, 0xd2, 0x52, 0xe7], rfl⟩
def demoDomain : Blob 32 :=
  ⟨[0x8c, 0x90, 0x03, 0xc1, 0xcd, 0x6a, 0xe9, 0x73, 0xc0, 0x8e, 0x54, 0xb2, 0x6e, 0x56, 0xd1, 0xdd,
    0xab, 0xf3, 0x1d, 0x65, 0xad, 0x69, 0xa5, 0xdc, 0xa9, 0x20, 0xdb, 0x77, 0x61, 0x3b, 0xc5, 0x8e], rfl⟩
def demoMessage : Blob 32 :=
  ⟨[0x77, 0x47, 0xa6, 0x17, 0x73, 0x80, 0xa7, 0x0c, 0x2c, 0xfc, 0x0d, 0xb5, 0x35, 0x85, 0xfb, 0x41,
    0xe3, 0x18, 0x79, 0x2d, 0xa1, 0x30, 0x79, 0xea, 0x09, 0x8f, 0x75, 0x2d, 0x9e, 0xbc, 0xda, 0xc3], rfl⟩
def demoRevoked : Blob 32 :=
  ⟨[0x83, 0x58, 0x52, 0xb1, 0xa6, 0x5b, 0xd4, 0xaa, 0xa9, 0x8a, 0xc6, 0x5c, 0x55, 0x9f, 0x56, 0xe0,
    0x96, 0xb8, 0x34, 0x2e, 0xca, 0x17, 0xb8, 0xb8, 0xcd, 0x4e, 0x95, 0x62, 0x36, 0xe9, 0x00, 0x85], rfl⟩
def demoHashes : Hashes where
  sha3 bytes := if bytes = demoCredential then demoEntry else demoFingerprint
  blake2s bytes :=
    if bytes = domainPreimage demoFingerprint .wotsXmss then demoDomain
    else if bytes = messagePreimage demoDomain [] 1 then demoRevoked
    else demoMessage

def demoCommittee : Committee :=
  ⟨demoKeys, threshold, Params.slot, demoHashes.sha3 (encodeWire demoKeys threshold Params.slot)⟩

theorem demoKeys_nodup : demoKeys.Nodup := by
  refine (List.nodup_range).map_on fun i hi j hj h => ?_
  have hi' := List.mem_range.mp hi
  have hj' := List.mem_range.mp hj
  have hhead := congrArg (fun b => b.1.head?) h
  simp only [List.replicate_succ, List.head?_cons, Option.some.injEq] at hhead
  have hnat := congrArg UInt8.toNat hhead
  simp only [UInt8.toNat_ofNat'] at hnat
  unfold nMembers at hi' hj'
  omega

/-- Member `i` has one signature for each slot. -/
def demoSignature (slot : UInt32) (i : Nat) : XmssSignature :=
  ⟨List.replicate 1204 (UInt8.ofNat i) ++ leBytes 4 slot.toNat,
    by rw [List.length_append, List.length_replicate, length_leBytes]⟩

/-- The two updates: the credential is issued, and revoked. -/
def demoIssued : Proposal := ⟨0, [demoEntry]⟩
def demoEmptied : Proposal := ⟨1, []⟩

/-- The signatures the members make over them. -/
def demoVerify : XmssVerify := fun pk message signature slot =>
  decide (∃ i ∈ List.range nMembers, demoKeys[i]? = some pk ∧ signature = demoSignature slot i ∧
    ∃ x ∈ [demoIssued, demoEmptied], demoCommittee.slotFor x.version = some slot ∧
      message = demoCommittee.messageFor demoHashes .wotsXmss x.list x.version)

theorem length_demoKeys : demoKeys.length = nMembers := by
  rw [demoKeys, List.length_map, List.length_range]

def demoSetup : Setup demoHashes where
  mode := .raw
  members := demoKeys
  size := length_demoKeys
  committee := demoCommittee
  built := by
    refine Committee.new_ok.mpr ⟨?_, ?_, demoKeys_nodup, rfl⟩
    · rw [length_demoKeys]
      decide
    · rw [length_demoKeys]
      decide
  xmssVerify := demoVerify
  signWindow := "5s"

theorem demoVerify_signed {x : Proposal} (hx : x ∈ [demoIssued, demoEmptied]) {slot : UInt32}
    (hs : demoCommittee.slotFor x.version = some slot) {i : Nat} (hi : i < threshold) :
    ∃ pk, demoSetup.committee.members[i]? = some pk ∧
      demoSetup.xmssVerify pk (demoSetup.committee.messageFor demoHashes .wotsXmss x.list x.version)
        (demoSignature slot i) slot = true := by
  have hi' : i < nMembers := lt_trans hi (by decide)
  have hpk := List.getElem?_eq_getElem (length_demoKeys.symm ▸ hi')
  exact ⟨_, hpk, decide_eq_true ⟨i, List.mem_range.mpr hi', hpk, rfl, x, hx, hs, rfl⟩⟩

theorem sha3_demoCredential : demoHashes.sha3 demoCredential = demoEntry := by
  simp only [demoHashes, if_true]

theorem length_demoCredential : demoCredential.length = 299 := by decide +kernel

theorem decode_issueRequest : StatusRequest.decode issueRequest = some ⟨actionIssue, toUtf8 ['a']⟩ :=
  StatusRequest.exact.decode_encode _ (by decide)

theorem length_revokeRequest : revokeRequest.length = 304 := by
  rw [revokeRequest, StatusRequest.length_encode, length_demoCredential]

theorem decode_revokeRequest :
    StatusRequest.decode revokeRequest = some ⟨actionRevoke, demoCredential⟩ :=
  StatusRequest.exact.decode_encode _ (length_revokeRequest.trans_lt (by decide))

variable {w : World} {record : Bytes}

/-- Nothing is published, and the credential is asked for at member 0. -/
theorem asks_issued (hfree : w.round 0 = none) (hcur : w.current = none) :
    Asks demoSetup w 0 issueRequest demoIssued demoCredential := by
  refine ⟨by decide, rfl, hfree, _, [], decode_issueRequest, by rw [hcur]; rfl,
    .inl ⟨rfl, ⟨'a', [], fromUtf8_toUtf8 _⟩, ?_⟩⟩
  unfold addValid
  dsimp only
  rw [sha3_demoCredential, if_neg (by simp)]
  rfl

theorem due_issued (hcur : w.current = none) : Due demoSetup w demoIssued Params.slot := by
  refine ⟨by rw [hcur]; rfl, slotFor_zero demoSetup, ?_⟩
  rw [Proposal.length_encode]
  decide

/-- It is in the list, and its revocation is asked for at member 3. -/
theorem asks_emptied (hfree : w.round 3 = none) (hcur : w.current = some record)
    (hdec : decodeList .raw record = .ok (0, [demoEntry])) :
    Asks demoSetup w 3 revokeRequest demoEmptied demoCredential := by
  have hrevoke : revoke demoHashes.sha3 [demoEntry] demoCredential = ([], true) := by
    unfold revoke
    rw [sha3_demoCredential]
    rfl
  refine ⟨by decide, rfl, hfree, ⟨actionRevoke, demoCredential⟩, [demoEntry], decode_revokeRequest,
    ?_, .inr ⟨rfl, by dsimp only, ?_, hrevoke⟩⟩
  · rw [hcur]
    exact nextSnapshot_decoded hdec rfl
  · intro h
    have hlen := length_demoCredential
    rw [h] at hlen
    cases hlen

theorem due_emptied (hcur : w.current = some record)
    (hdec : decodeList .raw record = .ok (0, [demoEntry])) :
    Due demoSetup w demoEmptied (Params.slot + 1) := by
  refine ⟨?_, rfl, ?_⟩
  · rw [hcur]
    exact expectedVersion_decoded hdec rfl
  · rw [Proposal.length_encode]
    decide

/-- The thread of a request is about to acknowledge it. -/
def acknowledging (p node : Nat) (payload : Bytes) (version : UInt32) :
    Nat → Proc DemoOp DemoAns Empty Request Reply :=
  requestProcs (fun _ => .idle) p node payload
    (.ret (none, some (msgStatusUpdated, statusUpdated version demoCredential)))

/-- The ten issue a credential and revoke it. -/
theorem reaches_two_updates : ∃ w₁ w₂,
    (demo demoSetup).Reaches ⟨World.start, fun _ => .idle⟩ ⟨w₁, acknowledging 0 0 issueRequest 0⟩ ∧
    (demo demoSetup).Reaches ⟨release 0 w₁, fun _ => .idle⟩
      ⟨w₂, acknowledging 0 3 revokeRequest 1⟩ ∧
    Updated demoSetup demoIssued Params.slot World.start w₁ ∧
    Updated demoSetup demoEmptied (Params.slot + 1) (release 0 w₁) w₂ := by
  obtain ⟨w₁, hr₁, hu₁⟩ := reaches_acknowledging (p := 0) (q := 1) rfl Nat.zero_ne_one
    World.start (fun _ => .idle) rfl rfl (demoSignature Params.slot) (asks_issued rfl rfl)
    (due_issued rfl) (fun _ _ => rfl)
    fun i hi => demoVerify_signed (x := demoIssued) (by simp) (slotFor_zero demoSetup) hi
  obtain ⟨f, record, -, hcur, hdec⟩ := hu₁.placed
  have hfree := release_round (q := 0) (hu₁.free (fun _ => rfl) 3) nofun
  have hspent : ∀ i < threshold, CanBurn (release 0 w₁) (Params.slot + 1) i := by
    intro i hi
    show burnAt (w₁.counter i) _ _ = _
    rw [hu₁.spent i hi]
    rfl
  obtain ⟨w₂, hr₂, hu₂⟩ := reaches_acknowledging (p := 0) (q := 1) rfl Nat.zero_ne_one
    (release 0 w₁) (fun _ => .idle) rfl rfl (demoSignature (Params.slot + 1))
    (asks_emptied hfree hcur hdec) (due_emptied hcur hdec) hspent
    fun i hi => demoVerify_signed (by simp) rfl hi
  exact ⟨w₁, w₂, hr₁, hr₂, hu₁, hu₂⟩

theorem acknowledging_self (p node : Nat) (payload : Bytes) (version : UInt32) :
    acknowledging p node payload version p = .busy (.statusRequest node payload)
      (.ret (none, some (msgStatusUpdated, statusUpdated version demoCredential))) := by
  unfold acknowledging requestProcs
  exact Function.update_self ..

/-- What is left when the thread has returned. -/
theorem acknowledging_returned (p node : Nat) (payload : Bytes) (version : UInt32) :
    Function.update (acknowledging p node payload version) p .idle = fun _ => .idle := by
  unfold acknowledging requestProcs
  rw [Function.update_idem]
  exact Function.update_eq_self p fun _ => Proc.idle

theorem reaches_acknowledged (w : World) (p node : Nat) (payload : Bytes) (version : UInt32) :
    (demo demoSetup).Reaches ⟨w, acknowledging p node payload version⟩
      ⟨release p w, fun _ => .idle⟩ := by
  rw [← acknowledging_returned p node payload version]
  have hs : (demo demoSetup).step ⟨w, acknowledging p node payload version⟩ (.ret p)
      ⟨release p w, Function.update (acknowledging p node payload version) p .idle⟩ :=
    Machine.Step.ret (s := ⟨w, acknowledging p node payload version⟩)
      (acknowledging_self p node payload version)
  exact .step (.ret p) hs

theorem length_two_updates {w₁ w₂ : World} {slot slot' : UInt32}
    (h₁ : Updated demoSetup demoIssued slot World.start w₁)
    (h₂ : Updated demoSetup demoEmptied slot' (release 0 w₁) w₂) : w₂.history.length = 2 := by
  obtain ⟨_, _, h₁, -⟩ := h₁.placed
  obtain ⟨_, _, h₂, -⟩ := h₂.placed
  rw [h₂, List.length_append, show (release 0 w₁).history = w₁.history from rfl, h₁]
  rfl

theorem reachable_two_updates : ∃ s : DemoSys, (demo demoSetup).Reachable s ∧
    s.world.history.length = 2 := by
  obtain ⟨w₁, w₂, hr₁, hr₂, hu₁, hu₂⟩ := reaches_two_updates
  have h0 : (demo demoSetup).Reachable ⟨World.start, fun _ => .idle⟩ := .init ⟨rfl, rfl⟩
  have hrun := (hr₁.trans (reaches_acknowledged w₁ 0 0 issueRequest 0)).trans hr₂
  exact ⟨_, h0.reaches hrun, length_two_updates hu₁ hu₂⟩

end Drot.L5.Demo
