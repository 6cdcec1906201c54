import Drot.L4Node.Relying

/-!
# Node A of the demo (`demo/src/bin/holder.rs`, `demo/src/bin/mldsa_holder.rs`)

One round asks an aggregator for an update when the action needs one, fetches the
published bytes, hands them to the node and looks for the credential in the list
they carry. What the aggregator, the volumes and the credential file answer is
`Outside`; what the mark's file answers is left open by `Prog.Yields`. The two
binaries differ in their texts and in the node.

`run_round` treats every `Stale` outcome alike. A record at the mark is the one
accepted before; a record below it is a replay, and its list is interpreted all
the same (`rolled_back_record_reported`).

* `rounds_report_at_the_mark`: a round answers from the record at the mark if and
  only if it is not handed an authentic record below the mark that passes the
  round's other checks, and in every run of such rounds no answer rests on a
  record below a version accepted earlier.
-/
namespace Drot.L5.Holder
open Bytes Text L1.Message L2.Freshness L3.Protocol L4 L4.Relying RawVerifier Prog

/-- mirrors src/demo/src/bin/holder.rs:57-61 -/
inductive Action where
  | issue (subject : Str)
  | revoke
  | verify

/-- mirrors src/demo/src/wire.rs:94-97 -/
structure StatusUpdated where
  version : UInt32
  credential : Bytes

/-- mirrors src/demo/src/wire.rs:42-43 -/
def actionIssue : UInt8 := 1
def actionRevoke : UInt8 := 2

/-- What the world answers during one round, errors with their texts. -/
structure Outside where
  requestStatusUpdate : UInt8 → Bytes → Except String StatusUpdated
  loadCredential : Except String Bytes
  loadCredentialIfPresent : Option Bytes
  currentRecord : Option Bytes
  writeAtomic : Bytes → Except String Unit

/-- The texts in which the two binaries differ. -/
structure Texts where
  unverified : String
  otherVersion : UInt32 → UInt32 → String
  absent : UInt32 → String
  stillPresent : UInt32 → String
  notSaved : String → String
  alreadySeen : UInt32 → String

/-- mirrors src/demo/src/bin/holder.rs:419-468 -/
def holderTexts : Texts where
  unverified := "the canonical record did not verify, refusing it"
  otherVersion reported version := s!"aggregator reported v{reported} but storage returned v{version}"
  absent version := s!"v{version} verified, but the issued credential is absent"
  stillPresent version := s!"v{version} verified, but the revoked credential is still present"
  notSaved e := s!"cannot persist the issued credential: {e}"
  alreadySeen mark := s!"already seen, high-water stays at v{mark}"

/-- mirrors src/demo/src/bin/mldsa_holder.rs:275-303 -/
def mlDsaHolderTexts : Texts where
  unverified := "record failed ML-DSA quorum verification; freshness unchanged"
  otherVersion _ _ := "aggregator version differs from stored record"
  absent _ := "authenticated snapshot has the wrong credential state"
  stillPresent _ := "authenticated snapshot has the wrong credential state"
  notSaved e := s!"cannot save credential: {e}"
  alreadySeen mark := s!"already seen, high-water remains v{mark}"

/-- mirrors src/demo/src/vc.rs:46-48 -/
def isValid (sha3 : Bytes → Blob 32) (list : List Entry) (credential : Bytes) : Bool :=
  list.contains (sha3 credential)

/-- `(updated, expected_presence)`: the three pairs a round starts from. -/
inductive Pending where
  | issued (updated : StatusUpdated)
  | revoked (updated : StatusUpdated)
  | nothing

def Pending.updated : Pending → Option StatusUpdated
  | .issued u => some u
  | .revoked u => some u
  | .nothing => none

/-- mirrors src/demo/src/bin/holder.rs:382-406 -/
def request (w : Outside) : Action → Except String Pending
  | .issue subject => (w.requestStatusUpdate actionIssue (toUtf8 subject)).map .issued
  | .revoke => do
    let credential ← w.loadCredential
    (w.requestStatusUpdate actionRevoke credential).map .revoked
  | .verify => .ok .nothing

/-- From the verified version on.
mirrors src/demo/src/bin/holder.rs:436-480 -/
def conclude (t : Texts) (sha3 : Bytes → Blob 32) (w : Outside) (pending : Pending)
    (list : List Entry) (version : UInt32) (note : String) : Except String String :=
  match pending.updated.filter fun u => decide (u.version ≠ version) with
  | some u => .error (t.otherVersion u.version version)
  | none =>
    let credential := (pending.updated.map StatusUpdated.credential).or w.loadCredentialIfPresent
    let membership := credential.map (isValid sha3 list)
    let text (operation : String) := s!"v{version} verified, {operation}, {note}"
    match pending with
    | .issued u =>
      if membership = some false then .error (t.absent version)
      else match w.writeAtomic u.credential with
        | .error e => .error (t.notSaved e)
        | .ok _ => .ok (text "credential issued and present: valid")
    | .revoked _ =>
      if membership = some true then .error (t.stillPresent version)
      else .ok (text "credential removed: revoked")
    | .nothing =>
      match membership with
      | some true => .ok (text "saved credential is present: valid")
      | some false => .ok (text "saved credential is absent: revoked")
      | none => .ok (text "no saved credential to query")

/-- mirrors src/demo/src/bin/holder.rs:419-434 -/
def verdict (t : Texts) (sha3 : Bytes → Blob 32) (w : Outside) (pending : Pending)
    (list : List Entry) : Outcome → Except String String
  | .accepted version => conclude t sha3 w pending list version s!"high-water now v{version}"
  | .stale version mark => conclude t sha3 w pending list version (t.alreadySeen mark)
  | .refused => .error t.unverified

/-- The list the report hands back: of the bytes, decoded a second time.
mirrors src/demo/src/bin/holder.rs:185-250, mldsa_holder.rs:110-136 -/
def report {V : Type} (f : Form V) (bytes : Bytes) : List Entry :=
  match f.fromBytes bytes with
  | .error _ => []
  | .ok record => f.list record

/-- mirrors src/demo/src/bin/holder.rs:381-481, mldsa_holder.rs:244-315 -/
def runRound {V : Type} (t : Texts) (f : Form V) (sha3 : Bytes → Blob 32) (n : Node V)
    (action : Action) (w : Outside) : MarkProg (Node V × Except String String) :=
  match request w action with
  | .error e => .ret (n, .error e)
  | .ok pending =>
    match w.currentRecord with
    | none => .ret (n, .error "nothing is published")
    | some bytes => (f.accept n bytes).bind fun x =>
      .ret (x.1, verdict t sha3 w pending (report f bytes) x.2)

/-! ## One round -/

section
variable {V : Type} {f : Form V} {t : Texts} {sha3 : Bytes → Blob 32}

/-- Whatever storage answers. -/
def AnyAnswer (op : MarkOp) (_ : Ans NoCall op) : Prop := True

/-- The record whose list the round looks into. -/
def Used (f : Form V) (w : Outside) (r : f.Record) : Prop :=
  ∃ bytes, w.currentRecord = some bytes ∧ f.fromBytes bytes = .ok r

/-- If the round answers, it does so from the record at the mark it leaves. -/
def ReportsAtMark (t : Texts) (f : Form V) (sha3 : Bytes → Blob 32) (n : Node V) (action : Action)
    (w : Outside) : Prop :=
  ∀ n' text, Yields AnyAnswer (runRound t f sha3 n action w) (n', .ok text) →
    ∃ r, Used f w r ∧ n'.mark.mark = some (f.version r)

/-- The checks of a round other than verification and freshness, for a record
with this list and version. -/
def OtherChecksPass (sha3 : Bytes → Blob 32) (w : Outside) (list : List Entry) (version : UInt32) :
    Action → Prop
  | .issue subject => ∃ u, w.requestStatusUpdate actionIssue (toUtf8 subject) = .ok u ∧
      u.version = version ∧ isValid sha3 list u.credential = true ∧
      w.writeAtomic u.credential = .ok ()
  | .revoke => ∃ credential u, w.loadCredential = .ok credential ∧
      w.requestStatusUpdate actionRevoke credential = .ok u ∧
      u.version = version ∧ isValid sha3 list u.credential = false
  | .verify => True

/-- The published bytes are an authentic record below the mark, and nothing else
is wrong with the round. -/
def RolledBack (f : Form V) (sha3 : Bytes → Blob 32) (n : Node V) (action : Action)
    (w : Outside) : Prop :=
  ∃ bytes r mark, w.currentRecord = some bytes ∧ f.Authentic n.verifier bytes r ∧
    n.mark.mark = some mark ∧ f.version r < mark ∧
    OtherChecksPass sha3 w (f.list r) (f.version r) action

section Conclude
variable {w : Outside} {list : List Entry} {version : UInt32} {note : String}

theorem conclude_issued {u : StatusUpdated} :
    (∃ text, conclude t sha3 w (.issued u) list version note = .ok text) ↔
      u.version = version ∧ isValid sha3 list u.credential = true ∧
        w.writeAtomic u.credential = .ok () := by
  unfold conclude
  by_cases hv : u.version = version
  · cases hm : isValid sha3 list u.credential <;> cases hw : w.writeAtomic u.credential <;>
      simp [Pending.updated, Option.filter_some, hv, hm, hw]
  · simp [Pending.updated, Option.filter_some, hv]

theorem conclude_revoked {u : StatusUpdated} :
    (∃ text, conclude t sha3 w (.revoked u) list version note = .ok text) ↔
      u.version = version ∧ isValid sha3 list u.credential = false := by
  unfold conclude
  by_cases hv : u.version = version
  · cases hm : isValid sha3 list u.credential <;>
      simp [Pending.updated, Option.filter_some, hv, hm]
  · simp [Pending.updated, Option.filter_some, hv]

theorem conclude_nothing : ∃ text, conclude t sha3 w .nothing list version note = .ok text := by
  unfold conclude
  cases w.loadCredentialIfPresent with
  | none => simp [Pending.updated]
  | some credential =>
    cases hm : isValid sha3 list credential <;> simp [Pending.updated, hm]

/-- The tail of a round answers exactly when the other checks pass. -/
theorem conclude_ok {action : Action} : (∃ pending text, request w action = .ok pending ∧
      conclude t sha3 w pending list version note = .ok text) ↔
    OtherChecksPass sha3 w list version action := by
  simp only [exists_and_left]
  cases action with
  | issue subject =>
    simp only [request, OtherChecksPass]
    cases w.requestStatusUpdate actionIssue (toUtf8 subject) with
    | error e => simp [Except.map]
    | ok u =>
      simp only [Except.map, Except.ok.injEq, exists_eq_left']
      exact conclude_issued
  | revoke =>
    simp only [request, OtherChecksPass]
    cases w.loadCredential with
    | error e => simp [Bind.bind, Except.bind]
    | ok credential =>
      simp only [Bind.bind, Except.bind, Except.ok.injEq, exists_and_left, exists_eq_left']
      cases w.requestStatusUpdate actionRevoke credential with
      | error e => simp [Except.map]
      | ok u =>
        simp only [Except.map, Except.ok.injEq, exists_eq_left']
        exact conclude_revoked
  | verify =>
    simp only [request, OtherChecksPass, Except.ok.injEq, exists_eq_left', iff_true]
    exact conclude_nothing

end Conclude

theorem report_eq {bytes : Bytes} {r : f.Record} (h : f.fromBytes bytes = .ok r) :
    report f bytes = f.list r := by
  unfold report
  rw [h]

/-- What a round that answers has done. -/
theorem yields_runRound {n n' : Node V} {action : Action} {w : Outside} {text : String}
    (h : Yields AnyAnswer (runRound t f sha3 n action w) (n', .ok text)) :
    ∃ bytes r, w.currentRecord = some bytes ∧ f.Authentic n.verifier bytes r ∧
      n'.verifier = n.verifier ∧ OtherChecksPass sha3 w (f.list r) (f.version r) action ∧
      (n'.mark.mark = some (f.version r) ∧ Above n.mark.mark (f.version r) ∨
        ∃ mark, n.mark.mark = some mark ∧ f.version r ≤ mark ∧ n'.mark = n.mark) := by
  unfold runRound at h
  split at h
  · cases yields_ret.mp h
  rename_i pending hp
  split at h
  · cases yields_ret.mp h
  rename_i bytes hb
  obtain ⟨⟨n₁, o⟩, hacc, hx⟩ := yields_bind.mp h
  have hx := yields_ret.mp hx
  simp only [Prod.mk.injEq] at hx
  obtain ⟨rfl, hverdict⟩ := hx
  rcases yields_accept hacc with ⟨-, -, rfl⟩ | ⟨version, hof, hv, hadv⟩
  · cases hverdict
  obtain ⟨r, hr, rfl⟩ := Form.offered_eq_some.mp hof
  rw [report_eq hr.1] at hverdict
  rcases yields_advance hadv with ⟨hab, hm, rfl⟩ | ⟨-, -, rfl⟩ | ⟨mark, hmark, hle, hm, rfl⟩
  · exact ⟨bytes, r, hb, hr, hv, conclude_ok.mp ⟨pending, text, hp, hverdict.symm⟩, .inl ⟨hm, hab⟩⟩
  · cases hverdict
  · exact ⟨bytes, r, hb, hr, hv, conclude_ok.mp ⟨pending, text, hp, hverdict.symm⟩,
      .inr ⟨mark, hmark, hle, hm⟩⟩

/-- A round handed an authentic record at or below the mark goes on with it. -/
theorem yields_stale {n : Node V} {action : Action} {w : Outside} {bytes : Bytes} {r : f.Record}
    {mark : UInt32} {pending : Pending} (hb : w.currentRecord = some bytes)
    (hr : f.Authentic n.verifier bytes r) (hmark : n.mark.mark = some mark)
    (hle : f.version r ≤ mark) (hp : request w action = .ok pending) :
    Yields AnyAnswer (runRound t f sha3 n action w)
      (n, conclude t sha3 w pending (f.list r) (f.version r) (t.alreadySeen mark)) := by
  have hstale : n.mark.have_ = true ∧ f.version r ≤ n.mark.current := by
    by_contra hn
    exact absurd (above_iff.mpr hn mark hmark) (UInt32.not_lt.mpr hle)
  have hcur : n.mark.current = mark := by
    have : n.mark.mark = some n.mark.current := by simp [HighWaterMark.mark, hstale.1]
    exact Option.some.inj (this.symm.trans hmark)
  have hadv : Outcome.advance n.mark (f.version r) = .ret (n.mark, .stale (f.version r) mark) := by
    unfold Outcome.advance
    rw [(commits_tryAdvance n.mark (f.version r)).bind]
    unfold advanced
    rw [if_pos hstale, hcur]
    rfl
  unfold runRound
  rw [hp]
  simp only [hb]
  refine yields_bind.mpr ⟨(n, .stale (f.version r) mark), ?_, yields_ret.mpr ?_⟩
  · unfold Form.accept
    rw [hr.1]
    simp only [hr.2, if_true, hadv]
    exact .ret _
  · rw [report_eq hr.1]
    rfl

/-- One round. -/
theorem reportsAtMark_iff (n : Node V) (action : Action) (w : Outside) :
    ReportsAtMark t f sha3 n action w ↔ ¬ RolledBack f sha3 n action w := by
  constructor
  · intro hrep hrb
    obtain ⟨bytes, r, mark, hb, hr, hmark, hlt, hpass⟩ := hrb
    have hanswer : ∃ pending text, request w action = .ok pending ∧
        conclude t sha3 w pending (f.list r) (f.version r) (t.alreadySeen mark) = .ok text :=
      conclude_ok.mpr hpass
    obtain ⟨pending, text, hp, hc⟩ := hanswer
    have hy : Yields AnyAnswer (runRound t f sha3 n action w) (n, .ok text) := by
      rw [← hc]
      exact yields_stale hb hr hmark (UInt32.le_of_lt hlt) hp
    obtain ⟨r', ⟨bytes', hb', hr'⟩, hm⟩ := hrep n text hy
    rw [hb] at hb'
    cases hb'
    obtain rfl : r' = r := Except.ok.inj (hr'.symm.trans hr.1)
    rw [hmark] at hm
    cases hm
    exact absurd hlt (UInt32.lt_irrefl _)
  · intro hn n' text hy
    obtain ⟨bytes, r, hb, hr, -, hpass, ⟨hm, -⟩ | ⟨mark, hmark, hle, hm⟩⟩ := yields_runRound hy
    · exact ⟨r, ⟨bytes, hb, hr.1⟩, hm⟩
    · refine ⟨r, ⟨bytes, hb, hr.1⟩, ?_⟩
      have hge : ¬ f.version r < mark := fun hlt =>
        hn ⟨bytes, r, mark, hb, hr, hmark, hlt, hpass⟩
      have : f.version r = mark := UInt32.le_antisymm hle (UInt32.not_lt.mp hge)
      rw [hm, hmark, this]

/-! ## Runs -/

/-- One round as it happened. -/
structure Round (V : Type) where
  before : Node V
  action : Action
  outside : Outside
  result : Except String String
  after : Node V

/-- Round after round of a resident node A, with any answers from outside. -/
inductive Rounds (t : Texts) (f : Form V) (sha3 : Bytes → Blob 32) :
    Node V → List (Round V) → Prop where
  | nil (n : Node V) : Rounds t f sha3 n []
  | cons {n n' : Node V} {action : Action} {w : Outside} {result : Except String String}
      {rs : List (Round V)} (h : Yields AnyAnswer (runRound t f sha3 n action w) (n', result))
      (hs : Rounds t f sha3 n' rs) : Rounds t f sha3 n (⟨n, action, w, result, n'⟩ :: rs)

/-- No round lowers the mark. -/
theorem mark_le {n n' : Node V} {action : Action} {w : Outside} {result : Except String String}
    (h : Yields AnyAnswer (runRound t f sha3 n action w) (n', result)) {m : UInt32}
    (hm : n.mark.mark = some m) : ∃ m', n'.mark.mark = some m' ∧ m ≤ m' := by
  have stay : n'.mark = n.mark → ∃ m', n'.mark.mark = some m' ∧ m ≤ m' := by
    intro he
    exact ⟨m, by rw [he, hm], UInt32.le_refl m⟩
  unfold runRound at h
  split at h
  · cases yields_ret.mp h
    exact stay rfl
  split at h
  · cases yields_ret.mp h
    exact stay rfl
  obtain ⟨⟨n₁, o⟩, hacc, hx⟩ := yields_bind.mp h
  cases yields_ret.mp hx
  rcases yields_accept hacc with ⟨-, rfl, -⟩ | ⟨version, -, -, hadv⟩
  · exact stay rfl
  rcases yields_advance hadv with ⟨hab, hv, -⟩ | ⟨-, he, -⟩ | ⟨mark, -, -, he, -⟩
  · exact ⟨version, hv, UInt32.le_of_lt (hab m hm)⟩
  · exact stay he
  · exact stay he

/-- Every later answer of a run without rolled-back rounds rests on a record at
or above the mark `m` the run started from. -/
theorem rounds_above {n : Node V} {rs : List (Round V)} (h : Rounds t f sha3 n rs)
    (hok : ∀ r ∈ rs, ¬ RolledBack f sha3 r.before r.action r.outside) {m : UInt32}
    (hm : n.mark.mark = some m) : ∀ r ∈ rs, ∀ text, r.result = .ok text →
      ∃ record, Used f r.outside record ∧ m ≤ f.version record := by
  induction h generalizing m with
  | nil n => simp
  | @cons n n' action w result rs hy _ ih =>
    rw [List.forall_mem_cons] at hok ⊢
    obtain ⟨m', hm', hle⟩ := mark_le hy hm
    refine ⟨fun text ht => ?_, fun r hr text ht => ?_⟩
    · simp only at ht
      subst ht
      obtain ⟨record, hu, he⟩ := (reportsAtMark_iff n action w).mpr hok.1 n' text hy
      refine ⟨record, hu, ?_⟩
      rw [hm'] at he
      cases he
      exact hle
    · obtain ⟨record, hu, hge⟩ := ih hok.2 hm' r hr text ht
      exact ⟨record, hu, UInt32.le_trans hle hge⟩

/-- What a holder of form `f` does: exactly when one round answers from the
record at the mark, and what follows for runs. -/
structure Faithful (t : Texts) (f : Form V) (sha3 : Bytes → Blob 32) : Prop where
  round : ∀ n action w, ReportsAtMark t f sha3 n action w ↔ ¬ RolledBack f sha3 n action w
  run : ∀ n rs, Rounds t f sha3 n rs →
    (∀ r ∈ rs, ¬ RolledBack f sha3 r.before r.action r.outside) →
    (∀ r ∈ rs, ∀ text, r.result = .ok text →
      ∃ record, Used f r.outside record ∧ r.after.mark.mark = some (f.version record)) ∧
    rs.Pairwise fun earlier later => ∀ m, earlier.after.mark.mark = some m →
      ∀ text, later.result = .ok text →
        ∃ record, Used f later.outside record ∧ m ≤ f.version record

theorem faithful (t : Texts) (f : Form V) (sha3 : Bytes → Blob 32) : Faithful t f sha3 := by
  refine ⟨reportsAtMark_iff, fun n rs h hok => ?_⟩
  induction h with
  | nil n => exact ⟨by simp, .nil⟩
  | @cons n n' action w result rs hy hs ih =>
    rw [List.forall_mem_cons] at hok
    obtain ⟨hat, hpair⟩ := ih hok.2
    refine ⟨List.forall_mem_cons.mpr ⟨fun text ht => ?_, hat⟩, List.pairwise_cons.mpr ⟨?_, hpair⟩⟩
    · simp only at ht
      subst ht
      exact (reportsAtMark_iff n action w).mpr hok.1 n' text hy
    · intro r hr m hm text ht
      exact rounds_above hs hok.2 hm r hr text ht

end

/-! ## A replayed record -/

/-- The sample anchor's record of version 0 that lists one credential. -/
def oldList : List Entry := [sampleHashes.sha3 [42]]

def oldVerify : XmssVerify :=
  sampleVerify (sampleCommittee.messageFor sampleHashes .wotsXmss oldList 0)

theorem old_validSet : ValidSet sampleHashes oldVerify sampleCommittee .wotsXmss oldList 0 100
    [(0, sampleSignature)] := by
  refine ⟨rfl, by simp, fun p hp => ?_⟩
  rw [List.mem_singleton.mp hp]
  exact ⟨sampleKey, rfl, sampleVerify_self _⟩

/-- Node A has accepted version 1. -/
def nodeAtOne : Node (Anchor sampleHashes) :=
  ⟨sampleAnchor, { path := ⟨"state", "highwater"⟩, fingerprint := [], current := 1, have_ := true }⟩

/-- The storage volume hands out `bytes`; the credential was saved earlier. -/
def replay (bytes : Bytes) : Outside where
  requestStatusUpdate _ _ := .error "nobody is asked"
  loadCredential := .ok [42]
  loadCredentialIfPresent := some [42]
  currentRecord := some bytes
  writeAtomic _ := .ok ()

theorem old_record : ∃ r : StatusList, r.version = 0 ∧ r.statusList = oldList ∧
    (rawForm sampleHashes oldVerify).Authentic sampleAnchor r.toBytes r := by
  obtain ⟨r, hnew, hl, hs, hw, hc, hv⟩ := verifyStatusList_new sampleAnchor.wellFormed old_validSet
  have hv0 : r.version = 0 := by
    obtain ⟨r', hr', -, -, h0, -⟩ := statusList_new_ok .wotsXmss oldList 0
      sampleAnchor.wellFormed.size old_validSet.distinct (by intro p hp; simp_all; decide)
    rw [Except.ok.inj (hnew.symm.trans hr')]
    exact h0
  have hlen : r.toBytes.length < 2 ^ 32 := by
    have hslots : r.signers.bits.length = 1 := hw
    rw [StatusList.toBytes, RecordWire.length_encode]
    simp only [StatusList.wire, hl, hs, hslots, oldList, List.length_cons, List.length_nil]
    norm_num
  refine ⟨r, hv0, hl, StatusList.fromBytes_toBytes hc hlen, ?_⟩
  have hok : verifyStatusList sampleHashes oldVerify sampleCommittee r = some true :=
    hv.mpr (le_refl 1)
  show Option.get _ _ = true
  simp only [sampleAnchor, hok, Option.get_some]

/-- Handed the genuine record of version 0 after accepting version 1, node A
reports the credential as present and valid. -/
theorem rolled_back_record_reported : ∃ (bytes : Bytes) (r : StatusList),
    StatusList.fromBytes bytes = .ok r ∧ r.version = 0 ∧ nodeAtOne.mark.mark = some 1 ∧
    Yields AnyAnswer (runRound holderTexts (rawForm sampleHashes oldVerify) sampleHashes.sha3
      nodeAtOne .verify (replay bytes)) (nodeAtOne, .ok
        "v0 verified, saved credential is present: valid, already seen, high-water stays at v1") ∧
    ¬ ReportsAtMark holderTexts (rawForm sampleHashes oldVerify) sampleHashes.sha3 nodeAtOne
      .verify (replay bytes) := by
  obtain ⟨r, hv, hl, ha⟩ := old_record
  have hc : conclude holderTexts sampleHashes.sha3 (replay r.toBytes) .nothing oldList 0
      (holderTexts.alreadySeen 1) = .ok
        "v0 verified, saved credential is present: valid, already seen, high-water stays at v1" := by
    have hmem : isValid sampleHashes.sha3 oldList [42] = true := by simp [isValid, oldList]
    simp only [conclude, Pending.updated, replay, Option.filter_none, Option.map_none,
      Option.none_or, Option.map_some, hmem]
    rfl
  have hlist : (rawForm sampleHashes oldVerify).list r = oldList := hl
  have hversion : (rawForm sampleHashes oldVerify).version r = 0 := hv
  have hmark : nodeAtOne.mark.mark = some 1 := rfl
  have hle : (rawForm sampleHashes oldVerify).version r ≤ 1 := by rw [hversion]; decide
  have hy : Yields AnyAnswer (runRound holderTexts (rawForm sampleHashes oldVerify)
      sampleHashes.sha3 nodeAtOne .verify (replay r.toBytes)) (nodeAtOne, .ok
        "v0 verified, saved credential is present: valid, already seen, high-water stays at v1") := by
    rw [← hc, ← hlist, ← hversion]
    exact yields_stale rfl ha hmark hle rfl
  refine ⟨r.toBytes, r, ha.1, hv, rfl, hy, fun h => ?_⟩
  obtain ⟨r', ⟨bytes', hb', hr'⟩, hm⟩ := h _ _ hy
  cases hb'
  obtain rfl : r' = r := Except.ok.inj (hr'.symm.trans ha.1)
  rw [hversion] at hm
  cases hm

/-- The raw and the SNARK holder and the ML-DSA holder, under every anchor: a
round answers from the record at the mark if and only if it is not rolled back,
and along every run without rolled-back rounds no answer rests on a record below
a version accepted earlier. -/
theorem rounds_report_at_the_mark (H : Hashes) (xmssVerify : XmssVerify)
    (V : SnarkVerifier.LeanVM) (K : L3.MlDsa.Primitives) :
    Faithful holderTexts (rawForm H xmssVerify) H.sha3 ∧
    Faithful holderTexts (snarkForm H V) H.sha3 ∧
    Faithful mlDsaHolderTexts (mlDsaForm K) H.sha3 :=
  ⟨faithful _ _ _, faithful _ _ _, faithful _ _ _⟩

end Drot.L5.Holder
