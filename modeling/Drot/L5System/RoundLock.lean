import Drot.L5System.DemoRuns

/-!
# What storage can do to an aggregator (`demo/src/bin/signer.rs`)

`on_status_request` works on whatever decodes from storage. `v.checked_add(1)` bounds
the version, `slot_for` bounds the slot, and `collect_signatures` expects the second
from the first: a stored version in the `SLOT` values below `u32::MAX` passes the one
and fails the other. The panic happens inside the `round` mutex, so it is the last
round of the node.

`onStatusRequestAt` is the handler with its mutex, `Visit` what one request meets
outside: the stored bytes, the credential `vc::issue` makes and a prover that does not
panic. `roundLock` is the sequence of requests of one node.

* `requests_answered_iff`: a request is answered exactly when it is turned down before
  a proposal or the stored version has a successor with a slot; in a run of such
  requests the mutex is never poisoned.
* `status_request_panics`: a stored version that ends the rounds of a node.
-/
namespace Drot.L5.Demo
open Bytes Ssz Text L1.Message L3.Protocol L4.RawVerifier Prog

section
variable {H : Hashes} (S : Setup H) (node : Nat)

/-- The handler at a node whose mutex may be poisoned, and the mutex after it. A
panic under the mutex poisons it, and then `lock().expect(..)` panics.
mirrors src/demo/src/bin/signer.rs:342-501 -/
def onStatusRequestAt (poisoned : Bool) (payload : Bytes) : DemoProg (Reply × Bool) :=
  if canAggregate S.mode node = false then
    return (failure (s!"member {node} is signer-only in {S.mode.asStr} mode; " ++
      s!"ask one of [{formatIndices (aggregatorIndices S.mode)}]"), poisoned)
  else
    match StatusRequest.decode payload with
    | none => return (failure "malformed request", poisoned)
    | some request =>
      if poisoned then return (none, true)
      else do
        let reply ← coordinate S node request
        return (reply, reply.isNone)

end

/-! ## What a request meets outside -/

/-- The bytes the storage returns, none where the read fails, and the credential
`vc::issue` makes of its random identifier. -/
structure Visit where
  stored : Option Bytes
  credential : Bytes

/-- The answers of such a visit; members may answer anything, and a quorum that was
checked is aggregated. -/
def Visit.Answers (v : Visit) : (op : DemoOp) → DemoAns op → Prop
  | .storage (.openFile _), r => v.stored ≠ none → ∃ f, r = .ok f
  | .storage (.readToEnd _), r => match v.stored with
    | some bytes => r = .ok bytes
    | none => ∃ e, r = .error e
  | .issue _ _ _, r => r = v.credential
  | .makeProof _ _ _, r => r ≠ none
  | _, _ => True

/-- Such a visit answers every effect. -/
theorem Visit.answers_total (v : Visit) (op : DemoOp) : ∃ r, v.Answers op r := by
  cases op with
  | storage op =>
    cases op with
    | openFile q => exact ⟨.ok 0, fun _ => ⟨0, rfl⟩⟩
    | readToEnd f =>
      obtain ⟨stored, credential⟩ := v
      cases stored with
      | none => exact ⟨.error ⟨.other, ""⟩, _, rfl⟩
      | some bytes => exact ⟨.ok bytes, rfl⟩
    | _ => exact ⟨.error ⟨.other, ""⟩, trivial⟩
  | issue subject version node => exact ⟨v.credential, rfl⟩
  | makeProof list version quorum => exact ⟨some ⟨[], by decide⟩, Option.some_ne_none _⟩
  | recvTimeout rx => exact ⟨none, trivial⟩
  | accept node => exact ⟨[], trivial⟩
  | signAt node message slot => exact ⟨.error "", trivial⟩
  | send kind payload => exact ⟨.ok (), trivial⟩
  | propose proposal => exact ⟨0, trivial⟩
  | lockRound node => exact ⟨(), trivial⟩
  | unlockRound node => exact ⟨(), trivial⟩

section
variable {H : Hashes} (S : Setup H) (node : Nat)

/-- A new identifier: the credential is not in the list that was read. -/
def Visit.Fresh (v : Visit) : Prop :=
  ∀ version list, nextSnapshot S.mode v.stored = .ok (version, list) →
    H.sha3 v.credential ∉ list

/-- `version + 1` fits a `u32`, and its slot does not. -/
def Slotless (version : UInt32) : Prop :=
  version.toNat + 1 < 2 ^ 32 ∧ 2 ^ 32 ≤ Params.slot.toNat + (version.toNat + 1)

/-- The request is turned down before a proposal is made of it. -/
def Refused (H : Hashes) (list : List Entry) (request : StatusRequest) : Prop :=
  if request.action = actionIssue then
    fromUtf8 request.data = none ∨ fromUtf8 request.data = some []
  else if request.action = actionRevoke then
    request.data = [] ∨ H.sha3 request.data ∉ list
  else True

/-- The node is no aggregator, the request is malformed or turned down, or the stored
version is not one without a slot after it. -/
def Covered (payload : Bytes) (stored : Option Bytes) : Prop :=
  canAggregate S.mode node = true → ∀ request, StatusRequest.decode payload = some request →
    ∀ bytes version list, stored = some bytes → decodeList S.mode bytes = .ok (version, list) →
      Refused H list request ∨ ¬ Slotless version

/-! ## The panic of `collect_signatures` -/

variable {S node}

/-- The snapshot of a version without a slot is the one after a slotless version. -/
theorem slotFor_nextSnapshot {stored : Option Bytes} {version : UInt32} {list : List Entry}
    (h : nextSnapshot S.mode stored = .ok (version, list)) :
    S.committee.slotFor version = none ↔
      ∃ bytes v, stored = some bytes ∧ decodeList S.mode bytes = .ok (v, list) ∧ Slotless v := by
  have hslot : ∀ v : UInt32, S.committee.slotFor v = none ↔
      2 ^ 32 ≤ Params.slot.toNat + v.toNat := by
    intro v
    unfold Committee.slotFor
    rw [S.genesis]
    split
    · rename_i hlt
      simp only [reduceCtorEq, false_iff]
      omega
    · rename_i hge
      simp only [true_iff]
      omega
  rw [hslot]
  unfold nextSnapshot at h
  split at h
  · cases h
    constructor
    · intro h
      exact absurd h (by decide)
    · intro ⟨_, _, hs, _⟩
      cases hs
  · rename_i bytes
    split at h
    · cases h
    rename_i v list' hd
    split at h
    · cases h
    rename_i next hnext
    cases h
    unfold checkedSucc at hnext
    split at hnext
    · rename_i hlt
      cases hnext
      have hv : (v + 1).toNat = v.toNat + 1 := by
        rw [UInt32.toNat_add]
        exact Nat.mod_eq_of_lt hlt
      rw [hv]
      constructor
      · intro hge
        exact ⟨bytes, v, rfl, hd, hlt, hge⟩
      · intro ⟨bytes', v', hb, hd', hs⟩
        cases hb
        rw [hd] at hd'
        cases hd'
        exact hs.2
    · cases hnext

theorem addValid_new {sha3 : Bytes → Blob 32} {list : List Entry} {credential : Bytes}
    (h : sha3 credential ∉ list) :
    addValid sha3 list credential = (list ++ [sha3 credential], true) :=
  if_neg fun hm => h (List.contains_iff_mem.mp hm)

theorem revoke_changed {sha3 : Bytes → Blob 32} {list : List Entry} {credential : Bytes} :
    (revoke sha3 list credential).2 = true ↔ sha3 credential ∈ list := by
  unfold revoke
  simp only [decide_eq_true_eq]
  constructor
  · intro h
    by_contra hm
    refine h (congrArg List.length (List.filter_eq_self.mpr fun a ha => ?_))
    exact decide_eq_true fun he => hm (he ▸ ha)
  · intro hm
    refine Nat.ne_of_lt (List.length_filter_lt_length_iff_exists.mpr ⟨_, hm, ?_⟩)
    simp

/-! ## Runs of the handler -/

variable {v : Visit}

theorem yields_ask {op : DemoOp} {α : Type} {k : DemoAns op → DemoProg α} {a : α} :
    Yields v.Answers (ask op >>= k) a ↔ ∃ r, v.Answers op r ∧ Yields v.Answers (k r) a := yields_call

theorem yields_currentRecord {r : Option Bytes} : Yields v.Answers currentRecord r ↔ r = v.stored := by
  obtain ⟨stored, credential⟩ := v
  unfold currentRecord
  rw [yields_ask]
  constructor
  · intro ⟨f, hf, h⟩
    cases f with
    | error e =>
      obtain rfl := yields_ret.mp h
      by_contra hn
      obtain ⟨f, hf⟩ := hf fun hs => hn hs.symm
      cases hf
    | ok f =>
      obtain ⟨bytes, hb, h⟩ := yields_ask.mp h
      cases stored with
      | none =>
        obtain ⟨e, rfl⟩ := hb
        exact yields_ret.mp h
      | some stored =>
        obtain rfl : bytes = .ok stored := hb
        exact yields_ret.mp h
  · intro h
    subst h
    refine ⟨.ok 0, fun _ => ⟨0, rfl⟩, ?_⟩
    cases r with
    | none => exact yields_ask.mpr ⟨.error ⟨.other, ""⟩, ⟨_, rfl⟩, .ret none⟩
    | some bytes => exact yields_ask.mpr ⟨.ok bytes, rfl, .ret _⟩

/-- A request that is turned down is answered; what is not turned down goes on. -/
theorem yields_applyRequest {request : StatusRequest} {version : UInt32} {list : List Entry}
    {x : Except Reply (List Entry × Bytes)} (hf : H.sha3 v.credential ∉ list)
    (h : Yields v.Answers (applyRequest (H := H) node request version list) x) :
    Refused H list request ∧ (∃ reply, x = .error (some reply)) ∨
      ¬ Refused H list request ∧ ∃ y, x = .ok y := by
  unfold applyRequest at h
  unfold Refused
  split at h
  · rename_i ha
    rw [if_pos ha]
    split at h
    · rename_i hu
      exact .inl ⟨.inl hu, _, yields_ret.mp h⟩
    · rename_i hu
      exact .inl ⟨.inr hu, _, yields_ret.mp h⟩
    · rename_i subject hne hu
      obtain ⟨credential, hc, h⟩ := yields_ask.mp h
      obtain rfl : credential = v.credential := hc
      rw [addValid_new hf] at h
      refine .inr ⟨fun hr => ?_, _, yields_ret.mp h⟩
      rcases hr with hr | hr
      · rw [hu] at hr
        cases hr
      · rw [hu] at hr
        cases hr
        exact hne rfl
  · rename_i ha
    rw [if_neg ha]
    split at h
    · rename_i hb
      rw [if_pos hb]
      split at h
      · rename_i hd
        exact .inl ⟨.inl hd, _, yields_ret.mp h⟩
      · rename_i hd
        split at h
        · rename_i hr
          have hm : H.sha3 request.data ∉ list := by
            rw [← revoke_changed, hr]
            exact Bool.false_ne_true
          exact .inl ⟨.inr hm, _, yields_ret.mp h⟩
        · rename_i hr
          have hm : H.sha3 request.data ∈ list := by
            rw [← revoke_changed, hr]
          refine .inr ⟨fun h' => ?_, _, yields_ret.mp h⟩
          rcases h' with h' | h'
          · exact hd h'
          · exact h' hm
    · rename_i hb
      rw [if_neg hb]
      exact .inl ⟨trivial, _, yields_ret.mp h⟩

/-- Some run of a request that is not turned down goes on. -/
theorem applyRequest_goes_on {request : StatusRequest} {version : UInt32} {list : List Entry}
    (hf : H.sha3 v.credential ∉ list) (hr : ¬ Refused H list request) :
    ∃ y, Yields v.Answers (applyRequest (H := H) node request version list) (.ok y) := by
  have hx : ∃ x, Yields v.Answers (applyRequest (H := H) node request version list) x := by
    unfold applyRequest
    split
    · split
      · exact ⟨_, .ret _⟩
      · exact ⟨_, .ret _⟩
      · refine ⟨.ok (list ++ [H.sha3 v.credential], v.credential),
          yields_ask.mpr ⟨v.credential, rfl, ?_⟩⟩
        rw [addValid_new hf]
        exact .ret _
    split
    · split
      · exact ⟨_, .ret _⟩
      · split <;> exact ⟨_, .ret _⟩
    · exact ⟨_, .ret _⟩
  obtain ⟨x, hx⟩ := hx
  rcases yields_applyRequest hf hx with ⟨hr', -⟩ | ⟨-, y, rfl⟩
  · exact absurd hr' hr
  · exact ⟨y, hx⟩

theorem yields_some {α : Type} {a : α} {r : Option α}
    (h : Yields v.Answers (.ret (some a) : DemoProg (Option α)) r) : r ≠ none := by
  rw [yields_ret.mp h]
  exact Option.some_ne_none _

theorem yields_finishRound {version : UInt32} {list : List Entry} {credential : Bytes}
    {quorum : List (Nat × XmssSignature)} {reply : Reply}
    (h : Yields v.Answers (finishRound S node version list credential (some quorum)) reply) :
    reply ≠ none := by
  unfold finishRound at h
  dsimp only at h
  split at h
  · exact yields_some h
  obtain ⟨record, hb, h⟩ := yields_bind.mp h
  have hrecord : record ≠ none := by
    unfold buildRecord at hb
    split at hb
    · exact yields_some hb
    · split at hb
      · obtain ⟨proof, hp, hb⟩ := yields_ask.mp hb
        cases proof with
        | none => exact absurd rfl hp
        | some proof => exact yields_some hb
      · exact yields_some hb
  cases record with
  | none => exact absurd rfl hrecord
  | some record =>
    cases record with
    | error e => exact yields_some h
    | ok bytes =>
      obtain ⟨published, -, h⟩ := yields_bind.mp h
      cases published with
      | error e => exact yields_some h
      | ok _ => exact yields_some h

/-- A round panics exactly when its version has no slot. -/
theorem yields_runRound_some {version : UInt32} {list : List Entry} {credential : Bytes}
    {reply : Reply} (hs : S.committee.slotFor version ≠ none)
    (h : Yields v.Answers (runRound S node version list credential) reply) : reply ≠ none := by
  obtain ⟨quorum, hc, h⟩ := yields_bind.mp h
  unfold collectSignatures at hc
  dsimp only at hc
  split at hc
  · rename_i hn
    exact absurd hn hs
  · obtain ⟨rx, -, hc⟩ := yields_ask.mp hc
    obtain ⟨signatures, -, hc⟩ := yields_bind.mp hc
    rw [yields_ret.mp hc] at h
    exact yields_finishRound h

theorem runRound_panics {version : UInt32} {list : List Entry} {credential : Bytes}
    (hs : S.committee.slotFor version = none) :
    runRound S node version list credential = .ret none := by
  unfold runRound collectSignatures
  dsimp only
  rw [hs]
  rfl

/-- One round of the node: no panic, exactly when it is turned down first or the
version has a slot. -/
theorem coordinate_answers (hf : v.Fresh S) (request : StatusRequest) :
    (∀ reply, Yields v.Answers (coordinate S node request) reply → reply ≠ none) ↔
      ∀ version list, nextSnapshot S.mode v.stored = .ok (version, list) →
        Refused H list request ∨ S.committee.slotFor version ≠ none := by
  constructor
  · intro hall version list hn
    by_contra hbad
    push Not at hbad
    obtain ⟨hr, hs⟩ := hbad
    have hgoes : ∃ y, Yields v.Answers (applyRequest (H := H) node request version list) (.ok y) :=
      applyRequest_goes_on (hf version list hn) hr
    obtain ⟨⟨list', credential⟩, hy⟩ := hgoes
    refine hall none ?_ rfl
    refine yields_bind.mpr ⟨v.stored, yields_currentRecord.mpr rfl, ?_⟩
    rw [hn]
    refine yields_bind.mpr ⟨_, hy, ?_⟩
    dsimp only
    rw [runRound_panics hs]
    exact .ret none
  · intro hcov reply h
    obtain ⟨stored, hc, h⟩ := yields_bind.mp h
    obtain rfl := yields_currentRecord.mp hc
    cases hn : nextSnapshot S.mode v.stored with
    | error why =>
      rw [hn] at h
      exact yields_some h
    | ok y =>
      obtain ⟨version, list⟩ := y
      rw [hn] at h
      obtain ⟨x, hx, h⟩ := yields_bind.mp h
      rcases yields_applyRequest (hf version list hn) hx with ⟨-, frame, rfl⟩ | ⟨hr, y, rfl⟩
      · exact yields_some h
      · rcases hcov version list hn with hr' | hs
        · exact absurd hr' hr
        · exact yields_runRound_some hs h

/-- The handler at a node that has not panicked yet. -/
theorem onStatusRequestAt_answers (hf : v.Fresh S) (payload : Bytes) :
    (∀ reply poisoned, Yields v.Answers (onStatusRequestAt S node false payload) (reply, poisoned) →
      reply ≠ none) ↔ Covered S node payload v.stored := by
  have hslot : ∀ request, (∀ version list, nextSnapshot S.mode v.stored = .ok (version, list) →
      Refused H list request ∨ S.committee.slotFor version ≠ none) ↔
      ∀ bytes version list, v.stored = some bytes → decodeList S.mode bytes = .ok (version, list) →
        Refused H list request ∨ ¬ Slotless version := by
    intro request
    constructor
    · intro h bytes version list hb hd
      by_cases hs : Slotless version
      · have hn : nextSnapshot S.mode v.stored = .ok (version + 1, list) := by
          rw [hb]
          exact nextSnapshot_decoded hd (if_pos hs.1)
        rcases h _ _ hn with hr | hne
        · exact .inl hr
        · exact absurd ((slotFor_nextSnapshot hn).mpr ⟨bytes, version, hb, hd, hs⟩) hne
      · exact .inr hs
    · intro h version list hn
      by_cases hs : S.committee.slotFor version = none
      · obtain ⟨bytes, w, hb, hd, hsl⟩ := (slotFor_nextSnapshot hn).mp hs
        rcases h bytes w list hb hd with hr | hns
        · exact .inl hr
        · exact absurd hsl hns
      · exact .inr hs
  unfold onStatusRequestAt Covered
  by_cases hc : canAggregate S.mode node = false
  · rw [if_pos hc]
    constructor
    · intro _ hc'
      rw [hc] at hc'
      cases hc'
    · intro _ reply poisoned h
      cases yields_ret.mp h
      exact Option.some_ne_none _
  · rw [if_neg hc]
    have hc : canAggregate S.mode node = true := Bool.not_eq_false _ ▸ hc
    cases hd : StatusRequest.decode payload with
    | none =>
      constructor
      · intro _ _ request hr
        cases hr
      · intro _ reply poisoned h
        cases yields_ret.mp h
        exact Option.some_ne_none _
    | some request =>
      simp only [Bool.false_eq_true, if_false]
      have hrun : (∀ reply poisoned, Yields v.Answers (do
            let reply ← coordinate S node request
            return (reply, reply.isNone)) (reply, poisoned) → reply ≠ none) ↔
          ∀ reply, Yields v.Answers (coordinate S node request) reply → reply ≠ none := by
        constructor
        · intro h reply hy
          exact h reply _ (yields_bind.mpr ⟨reply, hy, .ret _⟩)
        · intro h reply poisoned hy
          obtain ⟨reply', hy', he⟩ := yields_bind.mp hy
          cases yields_ret.mp he
          exact h _ hy'
      rw [hrun, coordinate_answers hf request, hslot request]
      constructor
      · intro h _ request' hr
        cases hr
        exact h
      · intro h
        exact h hc request rfl

/-! ## The requests of one node -/

/-- A request, what it met and the reply it got. -/
structure Served where
  payload : Bytes
  visit : Visit
  reply : Reply

variable (S node)

/-- The requests of a node in the order they took the mutex; the state is whether it
is poisoned. -/
def roundLock : LTS Bool Served where
  init poisoned := poisoned = false
  step poisoned l poisoned' :=
    Yields l.visit.Answers (onStatusRequestAt S node poisoned l.payload) (l.reply, poisoned')

/-- The steps of a run that never panics. -/
def Kept (_ : Bool) (l : Served) : Prop :=
  l.visit.Fresh S ∧ Covered S node l.payload l.visit.stored

variable {S node}

/-- A panic is what poisons the mutex. -/
theorem poisoned_of_yields {poisoned : Bool} {payload : Bytes} {reply : Reply}
    (h : Yields v.Answers (onStatusRequestAt S node false payload) (reply, poisoned)) :
    poisoned = reply.isNone := by
  unfold onStatusRequestAt at h
  split at h
  · cases yields_ret.mp h
    rfl
  split at h
  · cases yields_ret.mp h
    rfl
  · obtain ⟨reply', -, h⟩ := yields_bind.mp h
    cases yields_ret.mp h
    rfl

/-- A `Kept` request can be served, whatever else it meets. -/
theorem exists_kept (S : Setup H) (node : Nat) (v : Visit) (payload : Bytes) (hf : v.Fresh S)
    (hc : Covered S node payload v.stored) :
    ∃ reply, ((roundLock S node).guard (Kept S node)).step false ⟨payload, v, reply⟩ false := by
  obtain ⟨⟨reply, poisoned⟩, hy⟩ :=
    exists_yields v.answers_total (onStatusRequestAt S node false payload)
  have hreply := (onStatusRequestAt_answers hf payload).mpr hc reply poisoned hy
  obtain rfl := poisoned_of_yields hy
  rw [Option.isNone_eq_false_iff.mpr (Option.isSome_iff_ne_none.mpr hreply)] at hy
  exact ⟨reply, ⟨hf, hc⟩, hy⟩

/-- Storage decides over the node: a request is answered exactly when it is turned down
before a proposal or the stored version is not slotless, and as long as every request
is of this kind the mutex is not poisoned and the next one is answered too. -/
theorem requests_answered_iff {H : Hashes} (S : Setup H) (node : Nat) :
    (∀ (v : Visit) (payload : Bytes), v.Fresh S →
      ((∀ reply poisoned,
          Yields v.Answers (onStatusRequestAt S node false payload) (reply, poisoned) → reply ≠ none) ↔
        Covered S node payload v.stored)) ∧
    ∀ poisoned, ((roundLock S node).guard (Kept S node)).Reachable poisoned →
      poisoned = false ∧ ∀ l poisoned', (roundLock S node).step poisoned l poisoned' →
        Kept S node poisoned l → l.reply ≠ none := by
  refine ⟨fun v payload hf => onStatusRequestAt_answers hf payload, ?_⟩
  have hstep : ∀ l poisoned', (roundLock S node).step false l poisoned' → Kept S node false l →
      l.reply ≠ none := by
    intro l poisoned' hs hk
    exact (onStatusRequestAt_answers hk.1 l.payload).mpr hk.2 l.reply poisoned' hs
  have hI : ((roundLock S node).guard (Kept S node)).Inductive (· = false) := by
    refine ⟨fun _ h => h, ?_⟩
    intro poisoned l poisoned' hp hs
    subst hp
    have hreply := hstep l poisoned' hs.2 hs.1
    rw [poisoned_of_yields hs.2]
    exact Bool.eq_false_iff.mpr fun hn => hreply (Option.isNone_iff_eq_none.mp hn)
  intro poisoned hr
  obtain rfl := hI.reachable poisoned hr
  exact ⟨rfl, hstep⟩

/-- At such a node it is the handler of the system. -/
theorem yields_onStatusRequest {payload : Bytes} {reply : Reply} :
    Yields v.Answers (onStatusRequest S node payload) reply ↔
      ∃ poisoned, Yields v.Answers (onStatusRequestAt S node false payload) (reply, poisoned) := by
  unfold onStatusRequest onStatusRequestAt
  by_cases hc : canAggregate S.mode node = false
  · rw [if_pos hc, if_pos hc]
    constructor
    · intro h
      obtain rfl := yields_ret.mp h
      exact ⟨false, .ret _⟩
    · intro ⟨_, h⟩
      cases yields_ret.mp h
      exact .ret _
  rw [if_neg hc, if_neg hc]
  cases StatusRequest.decode payload with
  | none =>
    constructor
    · intro h
      obtain rfl := yields_ret.mp h
      exact ⟨false, .ret _⟩
    · intro ⟨_, h⟩
      cases yields_ret.mp h
      exact .ret _
  | some request =>
    constructor
    · intro h
      obtain ⟨_, -, h⟩ := yields_ask.mp h
      obtain ⟨reply', hc, h⟩ := yields_bind.mp h
      obtain ⟨_, -, h⟩ := yields_ask.mp h
      obtain rfl := yields_ret.mp h
      exact ⟨_, yields_bind.mpr ⟨reply, hc, .ret _⟩⟩
    · intro ⟨_, h⟩
      obtain ⟨reply', hc, h⟩ := yields_bind.mp h
      cases yields_ret.mp h
      exact yields_ask.mpr ⟨(), trivial, yields_bind.mpr ⟨reply, hc, yields_ask.mpr ⟨(), trivial,
        .ret _⟩⟩⟩

/-- After a panic every request that gets to the mutex panics. -/
theorem poisoned_node_panics {payload : Bytes} {r : Reply × Bool} {request : StatusRequest}
    (hc : canAggregate S.mode node = true) (hd : StatusRequest.decode payload = some request)
    (h : Yields v.Answers (onStatusRequestAt S node true payload) r) : r = (none, true) := by
  unfold onStatusRequestAt at h
  rw [if_neg (Bool.not_eq_false _ ▸ hc), hd] at h
  exact yields_ret.mp h

end

/-! ## A version 43 below the last -/

/-- A record of the raw form that nobody signed. -/
def unsignedRecord (version : UInt32) : StatusList where
  alg := .wotsXmss
  statusList := []
  version := version
  signers := ⟨List.replicate nMembers false, by decide⟩
  signatures := []

theorem decodeList_unsigned (version : UInt32) :
    decodeList .raw (unsignedRecord version).toBytes = .ok (version, []) := by
  have hlen : (unsignedRecord version).toBytes.length < 2 ^ 32 := by
    rw [StatusList.toBytes, RecordWire.length_encode]
    show 17 + 32 * 0 + (nMembers / 8 + 1) + 1208 * 0 < 2 ^ 32
    decide
  have hcount : (unsignedRecord version).signerCount =
      (unsignedRecord version).signatures.length := rfl
  unfold decodeList
  dsimp only
  rw [StatusList.fromBytes_toBytes hcount hlen]
  rfl

theorem fresh_unsigned {version next : UInt32} (credential : Bytes)
    (hn : checkedSucc version = some next) :
    Visit.Fresh demoSetup ⟨some (unsignedRecord version).toBytes, credential⟩ := by
  intro v list h
  have hnext : nextSnapshot .raw (some (unsignedRecord version).toBytes) = .ok (next, []) :=
    nextSnapshot_decoded (decodeList_unsigned version) hn
  cases h.symm.trans hnext
  exact List.not_mem_nil

/-- Three requests at one member: nothing is stored; a version that has a successor with
a slot is stored; a slotless version is stored, and the request is turned down first. -/
theorem requests_answered_iff_first : ∃ first second third : Served,
    (first.visit.stored = none ∧
      second.visit.stored = some (unsignedRecord 41).toBytes ∧
      third.visit.stored = some (unsignedRecord 4294967252).toBytes) ∧
    ∀ l ∈ [first, second, third],
      ((roundLock demoSetup 0).guard (Kept demoSetup 0)).step false l false ∧ l.reply ≠ none := by
  obtain ⟨-, hrun⟩ := requests_answered_iff demoSetup 0
  obtain ⟨-, hanswered⟩ := hrun false (.init rfl)
  obtain ⟨r₀, h₀⟩ := exists_kept demoSetup 0 ⟨none, demoCredential⟩ issueRequest
    (fun version list h => by cases h; exact List.not_mem_nil) (fun _ _ _ _ _ _ h => by cases h)
  obtain ⟨r₁, h₁⟩ := exists_kept demoSetup 0
    ⟨some (unsignedRecord 41).toBytes, demoCredential⟩ issueRequest
    (fresh_unsigned demoCredential (show checkedSucc 41 = some 42 by decide))
    (fun _ _ _ bytes version list hb hd => .inr fun hs => by
      cases hb
      cases hd.symm.trans (decodeList_unsigned 41)
      exact absurd hs.2 (by decide))
  obtain ⟨r₂, h₂⟩ := exists_kept demoSetup 0
    ⟨some (unsignedRecord 4294967252).toBytes, demoCredential⟩ revokeRequest
    (fresh_unsigned demoCredential (show checkedSucc 4294967252 = some 4294967253 by decide))
    (fun _ request hr bytes version list hb hd => .inl (by
      cases hb
      cases hd.symm.trans (decodeList_unsigned 4294967252)
      cases hr.symm.trans decode_revokeRequest
      exact .inr List.not_mem_nil))
  refine ⟨⟨issueRequest, ⟨none, demoCredential⟩, r₀⟩,
    ⟨issueRequest, ⟨some (unsignedRecord 41).toBytes, demoCredential⟩, r₁⟩,
    ⟨revokeRequest, ⟨some (unsignedRecord 4294967252).toBytes, demoCredential⟩, r₂⟩,
    ⟨rfl, rfl, rfl⟩, fun l hl => ?_⟩
  have hstep : ((roundLock demoSetup 0).guard (Kept demoSetup 0)).step false l false := by
    simp only [List.mem_cons, List.not_mem_nil, or_false] at hl
    rcases hl with rfl | rfl | rfl
    · exact h₀
    · exact h₁
    · exact h₂
  exact ⟨hstep, hanswered l false hstep.2 hstep.1⟩

/-- Storage holds it and a holder asks for a credential: the handler panics, and so
does every later request that decodes. -/
theorem status_request_panics : ∃ v : Visit, v.Fresh demoSetup ∧
    (∃ bytes version list, v.stored = some bytes ∧
      decodeList demoSetup.mode bytes = .ok (version, list)) ∧
    Yields v.Answers (onStatusRequestAt demoSetup 0 false issueRequest) (none, true) ∧
    ∀ (v' : Visit) r, Yields v'.Answers (onStatusRequestAt demoSetup 0 true issueRequest) r →
      r = (none, true) := by
  have hagg : canAggregate demoSetup.mode 0 = true := rfl
  have hd := decodeList_unsigned 4294967252
  have hfresh := fresh_unsigned demoCredential
    (show checkedSucc 4294967252 = some 4294967253 by decide)
  have hpanic : ¬ Covered demoSetup 0 issueRequest (some (unsignedRecord 4294967252).toBytes) := by
    intro hc
    rcases hc hagg _ decode_issueRequest _ _ _ rfl hd with hr | hs
    · unfold Refused at hr
      rw [if_pos rfl, fromUtf8_toUtf8] at hr
      rcases hr with hr | hr <;> cases hr
    · exact hs ⟨by decide, by decide⟩
  refine ⟨_, hfresh, ⟨_, _, _, rfl, hd⟩, ?_,
    fun v' r h => poisoned_node_panics hagg decode_issueRequest h⟩
  rw [← onStatusRequestAt_answers hfresh] at hpanic
  push Not at hpanic
  obtain ⟨reply, poisoned, hy, hn⟩ := hpanic
  subst hn
  obtain rfl := poisoned_of_yields hy
  exact hy

end Drot.L5.Demo
