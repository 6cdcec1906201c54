import Drot.L5System.MlDsaDemo

/-!
# When an ML-DSA update is published

One request at one node, on storage that works, with answers that arrive before the
deadline (`Visit`). `Goes` says which version, list and credential the request makes
of what storage holds, and that seven of the answers count.

* `update_decided`: such a request is answered, and it is answered with a
  `StatusUpdated` exactly when it goes; then the record in storage is one that every
  relying party accepts for that version and list, and otherwise storage is as it was.
* `seven_honest_publish`: seven members whose answers arrive are enough, whatever the
  others send and in whatever order.
-/
namespace Drot.L5.MlDsaDemo
open Bytes Bitmap Ssz Text L1.Message L3.MlDsa L4.Relying L4.MlDsaVerifier Prog
open Demo (nMembers threshold maxFrame Frame Proposal StatusRequest StatusUpdated StorageName
  DemoOp DemoAns DemoProg MlDsaSignatureReply Failure checkedSucc addValid revoke msgStatusRequest
  msgProposal msgSignature msgStatusUpdated msgFailure actionIssue actionRevoke acknowledged)

/-- What one request meets outside: the credential that `vc::issue` makes, and the
answers of its round, in the order in which they arrive. -/
structure Visit where
  credential : Bytes
  answers : List (Nat × Frame)

section
variable {K : Primitives}

namespace Visit
variable (v : Visit)

/-- Storage works, and an answer that arrives arrives in time. -/
def Prompt (w : World K) : (op : Op) → Ans K op → World K → Prop
  | .shared (.storage (.openFile q)), .error _, _ => w.volume.dir q = none
  | .shared (.storage _), .ok _, _ => True
  | .shared (.storage _), .error _, _ => False
  | .shared (.issue _ _ _), r, _ => r = v.credential
  | .shared (.propose _), _, w' => w' = w.opened v.answers
  | .recvTimeout rx, none, _ => ∀ pending, w.channel[rx]? = some pending → pending = []
  | _, _, _ => True

variable (K) in
def machine : Machine Op (Ans K) (World K) :=
  { MlDsaDemo.machine with exec := fun p w op r w' => v.Prompt w op r w' ∧ exec p w op r w' }

/-- The signatures that the connections pass on. -/
def signatures (K : Primitives) : List (Nat × K.Signature) :=
  v.answers.filterMap fun y => (replySignature y.2).map fun signature => (y.1, signature)

end Visit

/-- No condition on where an effect happens. -/
def Anywhere (_ : World K) (_ : Op) : Prop := True

/-- A condition that is about taking a mutex and creating the temporary only. -/
def Lets (G : World K → Op → Prop) : Prop :=
  ∀ w op, (∀ node, op ≠ .shared (.lockRound node)) → op ≠ .shared (.storage (.create .tmp)) → G w op

section
variable {v : Visit} {G : World K → Op → Prop} {p : Nat} {w w₁ w' : World K} {α β : Type}

/-- The one complete run of a program of thread `p`, with its effects where `G` allows
them. -/
abbrev Visit.Does (v : Visit) (G : World K → Op → Prop) (p : Nat) (m : MlDsaProg K α)
    (w : World K) (a : α) (w' : World K) : Prop := (v.machine K).Does G p m w a w'

theorem does_ask {op : Op} {k : Ans K op → MlDsaProg K α} {a : α} (hq : G w op)
    (hx : ∃ r u, v.Prompt w op r u ∧ exec p w op r u)
    (h : ∀ r u, v.Prompt w op r u → exec p w op r u → v.Does G p (k r) u a w') :
    v.Does G p (ask op >>= k) w a w' :=
  Machine.does_call hq hx fun r u hu => h r u hu.1 hu.2

theorem does_seq {m : MlDsaProg K β} {f : β → MlDsaProg K α} {b : β} {a : α}
    (hm : v.Does G p m w b w₁) (hf : v.Does G p (f b) w₁ a w') : v.Does G p (m >>= f) w a w' :=
  Machine.does_bind hm hf

theorem does_return {a : α} : v.Does G p (pure a) w a w := Machine.does_ret

/-! ## Storage -/

/-- The one complete run of a program of `Demo`. -/
abbrev Visit.DoesShared (v : Visit) (G : World K → Op → Prop) (p : Nat) (m : DemoProg α)
    (w : World K) (a : α) (w' : World K) : Prop :=
  ((v.machine K).seen .shared fun _ r => r).Does (fun w op => G w (.shared op)) p m w a w'

theorem does_storage {op : VolOp StorageName} {k : Except IoError (VolRes op) → DemoProg α} {a : α}
    (hq : G w (.shared (.storage op)))
    (hx : ∃ r u, v.Prompt w (.shared (.storage op)) r (w.afterStorage p u op r) ∧
      w.volume.exec op r u)
    (h : ∀ r u, v.Prompt w (.shared (.storage op)) r (w.afterStorage p u op r) →
      w.volume.exec op r u → v.DoesShared G p (k r) (w.afterStorage p u op r) a w') :
    v.DoesShared G p (Demo.ask (.storage op) >>= k) w a w' := by
  refine Machine.does_call hq ?_ fun r w₁ hw => ?_
  · obtain ⟨r, u, hp, hu⟩ := hx
    exact ⟨r, _, r, rfl, hp, u, hu, rfl⟩
  · obtain ⟨r', rfl, hp, u, hu, rfl⟩ := hw
    exact h r' u hp hu

/-- One effect under `?`, other than an open: it does not fail. -/
theorem does_works {op : VolOp StorageName} {f : VolRes op → ExceptT IoError DemoProg α}
    {r : Except IoError α} (hq : G w (.shared (.storage op))) (hop : ∀ q, op ≠ .openFile q)
    (hx : ∃ b u, w.volume.exec op (.ok b) u)
    (h : ∀ b u, w.volume.exec op (.ok b) u →
      v.DoesShared G p (f b).run (w.afterStorage p u op (.ok b)) r w') :
    v.DoesShared G p (Demo.storage op >>= f).run w r w' := by
  refine does_storage (k := fun r => ExceptT.bindCont f r) hq ?_ fun r u hp hu => ?_
  · obtain ⟨b, u, hu⟩ := hx
    exact ⟨.ok b, u, by cases op <;> trivial, hu⟩
  · cases r with
    | error e => cases op <;> first | exact absurd hp id | exact absurd rfl (hop _)
    | ok b => exact h b u hu

theorem does_currentRecord (hG : Lets G) : v.Does G p (shared Demo.currentRecord) w w.current w := by
  refine Machine.does_within (does_storage (hG _ _ (by simp) (by simp)) ?_ fun r u hp hu => ?_)
  · cases hd : w.volume.dir .currentRecord with
    | none => exact ⟨.error ⟨.notFound, ""⟩, w.volume, hd, rfl⟩
    | some f => exact ⟨.ok f, w.volume, trivial, hd, rfl⟩
  · cases r with
    | error e =>
      have hd : w.volume.dir .currentRecord = none := hp
      obtain rfl : u = w.volume := hu
      have hw : w.afterStorage p w.volume (.openFile .currentRecord) (.error e) = w := by
        simp [World.afterStorage, hd]
      rw [hw, World.current, hd]
      exact Machine.does_ret
    | ok f =>
      obtain ⟨hd, rfl⟩ := hu
      refine does_storage (hG _ _ (by simp) (by simp))
        ⟨.ok (w.volume.inode f), w.volume, trivial, rfl, rfl⟩ fun r u hp hu => ?_
      cases r with
      | error e => exact absurd hp id
      | ok bytes =>
        obtain ⟨rfl, rfl⟩ := hu
        rw [World.current, hd]
        exact Machine.does_ret

/-- What a publication leaves. -/
def World.publishes (w : World K) (p : Nat) (bytes : Bytes) : World K :=
  let f := w.volume.createIno .tmp
  { w with volume := ((w.volume.createAt .tmp).setFile f bytes).renamed .tmp .currentRecord f
           writing := Function.update w.writing p false
           placed := w.placed ++ [(f, bytes)]
           placers := w.placers ++ [p] }

theorem current_publishes (w : World K) (p : Nat) (bytes : Bytes) :
    (w.publishes p bytes).current = some bytes := by
  simp [World.current, World.publishes, Volume.renamed, Volume.setFile]

theorem does_publish (hG : Lets G) (hc : G w (.shared (.storage (.create .tmp)))) (bytes : Bytes) :
    v.Does G p (shared (Demo.publish bytes).run) w (.ok ()) (w.publishes p bytes) := by
  refine Machine.does_within ?_
  set f := w.volume.createIno .tmp with hf
  set u := (w.volume.createAt .tmp).setFile f bytes with hu
  have hdir : u.dir .tmp = some f := w.volume.createAt_dir .tmp
  have hwrite : ∀ u', (w.volume.createAt .tmp).exec (.writeAll f bytes) (.ok ()) u' ↔ u' = u := by
    intro u'
    show u' = _ ↔ _
    rw [hf, w.volume.createAt_inode .tmp, List.drop_nil, List.append_nil]
  have hafter : ((w.afterStorage p (w.volume.createAt .tmp) (.create .tmp) (.ok f)).afterStorage p u
      (.writeAll f bytes) (.ok ())).afterStorage p (u.renamed .tmp .currentRecord f)
      (.rename .tmp .currentRecord) (.ok ()) = w.publishes p bytes := by
    have h1 : (u.renamed .tmp .currentRecord f).dir .currentRecord = some f := by
      simp [Volume.renamed]
    have h2 : (u.renamed .tmp .currentRecord f).inode f = bytes := by
      simp [Volume.renamed, hu, Volume.setFile]
    simp [World.afterStorage, World.publishes, h1, h2, Function.update_idem, ← hf, ← hu]
  refine does_works hc (by simp) ⟨f, _, hf, rfl⟩ fun f' u₁ h₁ => ?_
  obtain ⟨rfl, rfl⟩ := h₁
  refine does_works (hG _ _ (by simp) (by simp)) (by simp)
    ⟨(), u, (hwrite u).mpr rfl⟩ fun _ u₂ h₂ => ?_
  obtain rfl := (hwrite u₂).mp h₂
  refine does_works (hG _ _ (by simp) (by simp)) (by simp) ⟨(), _, rfl⟩ fun _ u₃ h₃ => ?_
  obtain rfl : u₃ = u := h₃
  refine does_works (hG _ _ (by simp) (by simp)) (by simp) ⟨(), _, f, hdir, rfl⟩ fun _ u₄ h₄ => ?_
  obtain ⟨i, hi, rfl⟩ := h₄
  obtain rfl : i = f := Option.some.inj (hi.symm.trans hdir)
  refine does_storage (k := .ret) (hG _ _ (by simp) (by simp))
    ⟨.ok (), _, trivial, rfl⟩ fun r u₅ hp h₅ => ?_
  cases r with
  | error e => exact absurd hp id
  | ok b =>
    obtain rfl : u₅ = _ := h₅
    exact hafter ▸ Machine.does_ret

/-! ## Signatures -/

/-- The signature is one that the loop keeps. -/
def Counts (S : Setup K) (statement : Blob 64) (y : Nat × K.Signature) : Bool :=
  match S.committee.members[y.1]? with
  | some publicKey => K.verify publicKey statement.1 y.2
  | none => false

theorem Setup.members_length (S : Setup K) : S.committee.members.length = nMembers := by
  rw [(Committee.new_ok.mp S.built).2.2.2]
  exact S.size

theorem Setup.threshold_eq (S : Setup K) : S.committee.threshold = threshold := by
  rw [(Committee.new_ok.mp S.built).2.2.2]

variable {S : Setup K}

/-- The next signature arrives. -/
theorem does_recv {rx : Nat} {y : Nat × K.Signature} {rest : List (Nat × K.Signature)}
    {k : Option (Nat × K.Signature) → MlDsaProg K α} {a : α} (hG : Lets G)
    (hch : w.channel[rx]? = some (y :: rest))
    (h : v.Does G p (k (some y)) { w with channel := w.channel.set rx rest } a w') :
    v.Does G p (ask (.recvTimeout rx) >>= k) w a w' := by
  refine does_ask (hG _ _ (by simp) (by simp))
    ⟨some y, _, trivial, rest, hch, rfl⟩ fun r u hp hx => ?_
  cases r with
  | none =>
    have hnil : y :: rest = [] := hp _ hch
    cases hnil
  | some z =>
    obtain ⟨rest', hr, rfl⟩ := hx
    rw [hch] at hr
    cases hr
    exact h

/-- Nothing more will arrive. -/
theorem does_recv_nil {rx : Nat} {k : Option (Nat × K.Signature) → MlDsaProg K α} {a : α}
    (hG : Lets G) (hch : w.channel[rx]? = some []) (h : v.Does G p (k none) w a w') :
    v.Does G p (ask (.recvTimeout rx) >>= k) w a w' := by
  refine does_ask (hG _ _ (by simp) (by simp))
    ⟨none, w, fun pending hp => ?_, rfl⟩ fun r u hp hx => ?_
  · rw [hch] at hp
    cases hp
    rfl
  · cases r with
    | none =>
      obtain rfl : u = w := hx
      exact h
    | some z =>
      obtain ⟨rest, hr, -⟩ := hx
      rw [hch] at hr
      cases hr

/-- The loop ends with the first seven signatures that verify, or with all of them. -/
theorem does_collect (hG : Lets G) {statement : Blob 64} {rx : Nat} (senders : Nat)
    {pending quorum : List (Nat × K.Signature)} (hch : w.channel[rx]? = some pending)
    (hlen : pending.length ≤ senders) (hq : quorum.length ≤ threshold)
    (hmem : ∀ y ∈ pending, y.1 < nMembers) : ∃ channel,
    v.Does G p (collect S statement rx senders quorum) w
      ((quorum ++ pending.filter (Counts S statement)).take threshold)
      { w with channel := channel } := by
  induction senders generalizing pending quorum w with
  | zero =>
    obtain rfl := List.length_eq_zero_iff.mp (Nat.le_zero.mp hlen)
    refine ⟨w.channel, ?_⟩
    simp only [List.filter_nil, List.append_nil, List.take_of_length_le hq]
    exact does_return
  | succ senders ih =>
    unfold collect
    split
    · rename_i hge
      refine ⟨w.channel, ?_⟩
      rw [List.take_append_of_le_length hge, List.take_of_length_le hq]
      exact does_return
    · rename_i hlt
      cases pending with
      | nil =>
        refine ⟨w.channel, does_recv_nil hG hch ?_⟩
        simp only [List.filter_nil, List.append_nil, List.take_of_length_le hq]
        exact does_return
      | cons y rest =>
        have hy := hmem y List.mem_cons_self
        obtain ⟨pk, hpk⟩ : ∃ pk, S.committee.members[y.1]? = some pk :=
          ⟨_, List.getElem?_eq_getElem (S.members_length ▸ hy)⟩
        have hrx : rx < w.channel.length := (List.getElem?_eq_some_iff.mp hch).1
        set w₁ : World K := { w with channel := w.channel.set rx rest }
        have hch₁ : w₁.channel[rx]? = some rest := List.getElem?_set_self hrx
        have hlen₁ : rest.length ≤ senders := Nat.le_of_succ_le_succ hlen
        have hmem₁ : ∀ z ∈ rest, z.1 < nMembers := fun z hz => hmem z (List.mem_cons_of_mem _ hz)
        have hcount : Counts S statement y = K.verify pk statement.1 y.2 := by
          unfold Counts
          rw [hpk]
        by_cases hv : K.verify pk statement.1 y.2 = true
        · have hq₁ : (quorum ++ [y]).length ≤ threshold := by
            rw [List.length_append]
            exact Nat.lt_of_not_le hlt
          obtain ⟨channel, h⟩ := ih hch₁ hlen₁ hq₁ hmem₁
          refine ⟨channel, does_recv hG hch ?_⟩
          have hcons : quorum ++ y :: rest.filter (Counts S statement) =
              (quorum ++ [y]) ++ rest.filter (Counts S statement) := List.append_cons _ _ _
          simp only [hpk, hv, if_true]
          rw [List.filter_cons_of_pos (hcount.trans hv), hcons]
          exact h
        · obtain ⟨channel, h⟩ := ih hch₁ hlen₁ hq hmem₁
          refine ⟨channel, does_recv hG hch ?_⟩
          simp only [hpk, hv]
          rw [List.filter_cons_of_neg (by rw [hcount]; exact hv)]
          exact h

/-! ## What is built is accepted -/

theorem signatures_map (v : Visit) : ((v.signatures K).map Prod.fst).Sublist
    (v.answers.map Prod.fst) := by
  unfold Visit.signatures
  induction v.answers with
  | nil => exact List.Sublist.refl _
  | cons y answers ih =>
    rw [List.filterMap_cons]
    cases hy : (replySignature y.2 : Option K.Signature) with
    | none => simpa [hy] using ih.cons y.1
    | some signature => simpa [hy] using ih.cons_cons y.1

/-- What the loop has counted. -/
def Visit.quorum (v : Visit) (S : Setup K) (x : Proposal) : List (Nat × K.Signature) :=
  ((v.signatures K).filter (Counts S (S.committee.statementFor x.list x.version))).take threshold

theorem quorum_sublist (v : Visit) (x : Proposal) : (v.quorum S x).Sublist (v.signatures K) :=
  (List.take_sublist _ _).trans List.filter_sublist

theorem quorum_validSet {x : Proposal} (ha : Answered x v.answers) :
    ValidSet S.committee x.list x.version (v.quorum S x) := by
  refine ⟨((((quorum_sublist v x).map Prod.fst).trans (signatures_map v)).nodup ha.once), ?_⟩
  intro y hy
  have hc := (List.mem_filter.mp ((List.take_sublist _ _).subset hy)).2
  unfold Counts at hc
  split at hc
  · rename_i pk hpk
    exact ⟨pk, hpk, hc⟩
  · cases hc

/-- An answered proposal fits a frame, so its record fits a record. -/
theorem recordSize_le {x : Proposal} (ha : Answered x v.answers)
    (ht : threshold ≤ (v.quorum S x).length) :
    recordSize S.committee.members.length x.list.length (v.quorum S x).length ≤ maxRecordBytes := by
  have hne : v.answers ≠ [] := by
    intro h
    have hq : v.quorum S x = [] := by simp [Visit.quorum, Visit.signatures, h]
    rw [hq, List.length_nil] at ht
    exact absurd ht (by decide)
  have hsent := ha.sent hne
  rw [Proposal.length_encode] at hsent
  have hq : (v.quorum S x).length ≤ threshold := List.length_take_le _ _
  rw [S.members_length]
  unfold recordSize maxRecordBytes nMembers
  unfold threshold at hq
  unfold maxFrame at hsent
  omega

/-- Seven signatures that verify make a record which a relying party accepts. -/
theorem accepted_new (hk : K.Canonical) {list : List Entry} {version : UInt32}
    {quorum : List (Nat × K.Signature)} (hv : ValidSet S.committee list version quorum)
    (ht : threshold ≤ quorum.length) {record : MlDsaStatusList K}
    (hnew : MlDsaStatusList.new K list version nMembers quorum = .ok record) :
    Accepted S record.toBytes version list := by
  obtain ⟨-, hsize, -, -, hl, hver, -, -⟩ := MlDsaStatusList.new_ok.mp hnew
  rw [← S.members_length] at hnew hsize
  have hc := Committee.new_wellFormed S.built
  obtain ⟨r, hr, hcount, hn, hlen, hok⟩ := verifyStatusList_new hc hv (S.threshold_eq ▸ ht) hsize
  obtain rfl : r = record := Except.ok.inj (hr.symm.trans hnew)
  refine ⟨r, ⟨MlDsaStatusList.fromBytes_toBytes hk hn hcount hlen, ?_⟩, hver, hl⟩
  have hok' : verifyStatusList S.anchor.committee r = some true := hok
  simp only [mlDsaForm, hok', Option.get_some]

/-! ## One request -/

/-- The request makes `list` of `before`; `issued` is what `vc::issue` answers. -/
structure Asks (S : Setup K) (request : StatusRequest) (issued : Bytes) (before list : List Entry)
    (credential : Bytes) : Prop where
  applies : Applies S request before list credential
  issue : request.action = actionIssue → credential = issued ∧
    ∃ c cs, fromUtf8 request.data = some (c :: cs)
  revoke : request.action = actionRevoke → request.data ≠ []

/-- What the request is turned into, from what storage holds. -/
def Proposes (S : Setup K) (stored : Option Bytes) (v : Visit) (payload : Bytes) (x : Proposal)
    (credential : Bytes) : Prop :=
  ∃ request before, StatusRequest.decode payload = some request ∧
    nextSnapshot K stored = .ok (x.version, before) ∧
    Asks S request v.credential before x.list credential

/-- What a request is turned into is determined. -/
theorem Proposes.unique {stored : Option Bytes} {payload : Bytes} {x y : Proposal}
    {credential credential' : Bytes} (h : Proposes S stored v payload x credential)
    (h' : Proposes S stored v payload y credential') :
    y = x ∧ credential' = credential := by
  obtain ⟨request, before, hd, hn, hasks⟩ := h
  obtain ⟨request', before', hd', hn', hasks'⟩ := h'
  rw [hd] at hd'
  cases hd'
  rw [hn] at hn'
  obtain ⟨hver, rfl⟩ := Prod.ext_iff.mp (Except.ok.inj hn')
  have hne : actionIssue ≠ actionRevoke := by decide
  have hlist : y.list = x.list ∧ credential' = credential := by
    rcases hasks.applies with ⟨hi, hadd⟩ | ⟨hr, hc, hrev⟩
    · rcases hasks'.applies with ⟨-, hadd'⟩ | ⟨hr', -⟩
      · obtain ⟨rfl, -⟩ := hasks.issue hi
        obtain ⟨rfl, -⟩ := hasks'.issue hi
        exact ⟨congrArg Prod.fst (hadd'.symm.trans hadd), rfl⟩
      · exact absurd (hi.symm.trans hr') hne
    · rcases hasks'.applies with ⟨hi', -⟩ | ⟨-, hc', hrev'⟩
      · exact absurd (hi'.symm.trans hr) hne
      · subst hc hc'
        exact ⟨congrArg Prod.fst (hrev'.symm.trans hrev), rfl⟩
  obtain ⟨xv, xl⟩ := x
  obtain ⟨yv, yl⟩ := y
  exact ⟨congrArg₂ Proposal.mk hver.symm hlist.1, hlist.2⟩

/-- The request is turned into a proposal, and seven of its answers count. -/
def Goes (S : Setup K) (stored : Option Bytes) (v : Visit) (payload : Bytes) (x : Proposal)
    (credential : Bytes) : Prop :=
  Proposes S stored v payload x credential ∧ threshold ≤ (v.quorum S x).length

/-- A request is applied, or refused with nothing changed. -/
theorem does_applyRequest (hG : Lets G) (node : Nat) (request : StatusRequest) (version : UInt32)
    (before : List Entry) :
    (∃ list credential, Asks S request v.credential before list credential ∧
      v.Does G p (applyRequest S node request version before) w (.ok (list, credential)) w) ∨
    (¬ ∃ list credential, Asks S request v.credential before list credential) ∧
      ∃ reason, v.Does G p (applyRequest S node request version before) w
        (.error (refuse reason)) w := by
  unfold applyRequest
  by_cases hissue : request.action = actionIssue
  · have hrevoke : request.action ≠ actionRevoke := by
      rw [hissue]
      decide
    rw [if_pos hissue]
    rcases hutf : fromUtf8 request.data with _ | _ | ⟨c, cs⟩
    · refine .inr ⟨fun h => ?_, _, does_return⟩
      obtain ⟨list, credential, ha⟩ := h
      obtain ⟨-, c, cs, hc⟩ := ha.issue hissue
      rw [hutf] at hc
      cases hc
    · refine .inr ⟨fun h => ?_, _, does_return⟩
      obtain ⟨list, credential, ha⟩ := h
      obtain ⟨-, c, cs, hc⟩ := ha.issue hissue
      rw [hutf] at hc
      cases hc
    · -- the credential is the one that `vc::issue` answers
      have hask : ∀ {k : Bytes → MlDsaProg K (Except Frame (List Entry × Bytes))} {x},
          v.Does G p (k v.credential) w x w →
          v.Does G p (ask (.shared (.issue (c :: cs) version node)) >>= k) w x w := by
        intro k x h
        refine does_ask (hG _ _ (by simp) (by simp)) ⟨v.credential, w, rfl, rfl⟩ fun r u hr hu => ?_
        obtain rfl : r = v.credential := hr
        obtain rfl : u = w := hu
        exact h
      rcases hadd : addValid S.sha3 before v.credential with ⟨list, changed⟩
      cases changed with
      | false =>
        refine .inr ⟨fun h => ?_, "new credential fingerprint already exists", hask ?_⟩
        · obtain ⟨list', credential, ha⟩ := h
          obtain ⟨rfl, -⟩ := ha.issue hissue
          rcases ha.applies with ⟨-, h⟩ | ⟨h, -⟩
          · rw [hadd] at h
            cases h
          · exact hrevoke h
        · rw [hadd]
          exact does_return
      | true =>
        refine .inl ⟨list, v.credential, ⟨.inl ⟨hissue, hadd⟩, fun _ => ⟨rfl, c, cs, hutf⟩,
          fun h => absurd h hrevoke⟩, hask ?_⟩
        rw [hadd]
        exact does_return
  · rw [if_neg hissue]
    by_cases hrevoke : request.action = actionRevoke
    · rw [if_pos hrevoke]
      by_cases hdata : request.data = []
      · rw [if_pos hdata]
        refine .inr ⟨fun h => ?_, _, does_return⟩
        obtain ⟨list, credential, ha⟩ := h
        exact ha.revoke hrevoke hdata
      · rw [if_neg hdata]
        rcases hrev : revoke S.sha3 before request.data with ⟨list, changed⟩
        cases changed with
        | false =>
          refine .inr ⟨fun h => ?_, _, does_return⟩
          obtain ⟨list', credential, ha⟩ := h
          rcases ha.applies with ⟨h, -⟩ | ⟨-, rfl, h⟩
          · exact hissue h
          · rw [hrev] at h
            cases h
        | true =>
          exact .inl ⟨list, request.data, ⟨.inr ⟨hrevoke, rfl, hrev⟩, fun h => absurd h hissue,
            fun _ => hdata⟩, does_return⟩
    · rw [if_neg hrevoke]
      refine .inr ⟨fun h => ?_, _, does_return⟩
      obtain ⟨list, credential, ha⟩ := h
      rcases ha.applies with ⟨h, -⟩ | ⟨h, -⟩
      · exact hissue h
      · exact hrevoke h

/-- At most one answer for each member. -/
theorem signatures_bound {x : Proposal} (ha : Answered x v.answers) :
    (v.signatures K).length ≤ nMembers ∧ ∀ y ∈ v.signatures K, y.1 < nMembers := by
  have hsub : ∀ i ∈ (v.signatures K).map Prod.fst, i < nMembers := by
    intro i hi
    obtain ⟨y, hy, rfl⟩ := List.mem_map.mp ((signatures_map v).subset hi)
    exact ha.dialled y hy
  refine ⟨?_, fun y hy => hsub _ (List.mem_map_of_mem hy)⟩
  have hd : ((v.signatures K).map Prod.fst).Nodup := (signatures_map v).nodup ha.once
  have hle := (List.subperm_of_subset hd fun i hi => List.mem_range.mpr (hsub i hi)).length_le
  rwa [List.length_map, List.length_range] at hle

/-- What one request leaves as it was. -/
structure Undisturbed (w w' : World K) : Prop where
  round : w'.round = w.round
  unread : w'.unread = w.unread
  returned : w'.returned = w.returned
  quiet : (∀ q, w.writing q = false) → ∀ q, w'.writing q = false

/-- A round publishes what it proposes, or changes nothing. -/
theorem does_runRound (hk : K.Canonical) (hG : Lets G)
    (hc : ∀ u, u.writing = w.writing → G u (.shared (.storage (.create .tmp))))
    {version : UInt32} {list : List Entry} (credential : Bytes)
    (ha : Answered ⟨version, list⟩ v.answers) :
    (threshold ≤ (v.quorum S ⟨version, list⟩).length ∧ ∃ record w', Accepted S record version list ∧
      v.Does G p (runRound S version list credential) w
        (msgStatusUpdated, StatusUpdated.encode ⟨version, credential⟩) w' ∧
      w'.current = some record ∧ (∃ f, w'.placed = w.placed ++ [(f, record)]) ∧
      Undisturbed w w') ∨
    (¬ threshold ≤ (v.quorum S ⟨version, list⟩).length) ∧ ∃ reason w',
      v.Does G p (runRound S version list credential) w (refuse reason) w' ∧
      w'.volume = w.volume ∧ w'.placed = w.placed ∧ w'.round = w.round := by
  set x : Proposal := ⟨version, list⟩
  set w₁ := w.opened v.answers
  have hch : w₁.channel[w.channel.length]? = some (v.signatures K) := by
    show (w.channel ++ [v.signatures K])[w.channel.length]? = _
    simp
  obtain ⟨hlen, hmem⟩ := signatures_bound (K := K) ha
  obtain ⟨channel, hcol⟩ : ∃ channel, v.Does G p (collect S (S.committee.statementFor list version)
      w.channel.length nMembers []) w₁ (v.quorum S x) { w₁ with channel := channel } :=
    does_collect hG nMembers hch hlen (Nat.zero_le _) hmem
  have hquorum : v.Does G p (collectSignatures S x) w (v.quorum S x)
      { w₁ with channel := channel } := by
    refine does_ask (hG _ _ (by simp) (by simp))
      ⟨w.channel.length, w₁, rfl, rfl, v.answers, ha, rfl⟩ fun r u hu hx => ?_
    obtain ⟨rfl, -⟩ := hx
    obtain rfl : u = w₁ := hu
    exact hcol
  by_cases ht : threshold ≤ (v.quorum S x).length
  · refine .inl ⟨ht, ?_⟩
    have hv := quorum_validSet (S := S) ha
    have hlt : ∀ y ∈ v.quorum S x, y.1 < nMembers :=
      fun y hy => hmem y ((quorum_sublist v x).subset hy)
    have hsize := recordSize_le (S := S) ha ht
    rw [S.members_length] at hsize
    obtain ⟨record, hnew⟩ : ∃ record, MlDsaStatusList.new K list version nMembers (v.quorum S x) =
        .ok record := by
      have hc := Committee.new_wellFormed S.built
      obtain ⟨r, hr, -⟩ := verifyStatusList_new hc hv (S.threshold_eq ▸ ht)
        (by rw [S.members_length]; exact hsize)
      rw [S.members_length] at hr
      exact ⟨r, hr⟩
    refine ⟨record.toBytes, _, accepted_new hk hv ht hnew, does_seq hquorum ?_,
      current_publishes { w₁ with channel := channel } p record.toBytes, ⟨_, rfl⟩, rfl, rfl, rfl,
      fun hw q => ?_⟩
    · rw [if_neg (Nat.not_lt.mpr ht), hnew]
      have hcreate := hc { w₁ with channel := channel } rfl
      exact does_seq (does_publish hG hcreate record.toBytes) does_return
    · show Function.update w.writing p false q = false
      by_cases hq : q = p
      · subst hq
        exact Function.update_self ..
      · exact (Function.update_of_ne hq ..).trans (hw q)
  · refine .inr ⟨ht, s!"only {(v.quorum S x).length} of {threshold} signatures arrived",
      { w₁ with channel := channel }, does_seq hquorum ?_, rfl, rfl, rfl⟩
    rw [if_pos (Nat.lt_of_not_le ht)]
    exact does_return

/-- A request goes, or is refused with nothing changed. -/
theorem does_proceed (hk : K.Canonical) (hG : Lets G)
    (hc : ∀ u, u.writing = w.writing → G u (.shared (.storage (.create .tmp)))) (node : Nat)
    {payload : Bytes} {request : StatusRequest} (hd : StatusRequest.decode payload = some request)
    {stored : Option Bytes}
    (ha : ∀ x credential, Proposes S stored v payload x credential → Answered x v.answers) :
    (∃ x credential record w', Goes S stored v payload x credential ∧
      v.Does G p (proceed S node request stored) w
        (msgStatusUpdated, StatusUpdated.encode ⟨x.version, credential⟩) w' ∧
      Accepted S record x.version x.list ∧ w'.current = some record ∧
      (∃ f, w'.placed = w.placed ++ [(f, record)]) ∧ Undisturbed w w') ∨
    (¬ ∃ x credential, Goes S stored v payload x credential) ∧ ∃ reason w',
      v.Does G p (proceed S node request stored) w (refuse reason) w' ∧
      w'.volume = w.volume ∧ w'.placed = w.placed ∧ w'.round = w.round := by
  unfold proceed
  cases hn : nextSnapshot K stored with
  | error why =>
    refine .inr ⟨fun h => ?_, why, w, does_return, rfl, rfl, rfl⟩
    obtain ⟨x, credential, ⟨request', before, -, hn', -⟩, -⟩ := h
    rw [hn] at hn'
    cases hn'
  | ok next =>
    obtain ⟨version, before⟩ := next
    rcases does_applyRequest (S := S) (v := v) (p := p) (w := w) hG node request version before with
      ⟨list, credential, hasks, happly⟩ | ⟨hno, reason, happly⟩
    · have hprop : Proposes S stored v payload ⟨version, list⟩ credential :=
        ⟨request, before, hd, hn, hasks⟩
      rcases does_runRound (S := S) (p := p) (w := w) hk hG hc credential (ha _ _ hprop) with
        ⟨ht, record, w', hacc, hrun, hcur, hplaced, hu⟩ | ⟨ht, reason, w', hrun, hvol, hpl, hround⟩
      · exact .inl ⟨⟨version, list⟩, credential, record, w', ⟨hprop, ht⟩, does_seq happly hrun, hacc,
          hcur, hplaced, hu⟩
      · refine .inr ⟨fun h => ?_, reason, w', does_seq happly hrun, hvol, hpl, hround⟩
        obtain ⟨x, credential', hp, ht'⟩ := h
        obtain ⟨rfl, -⟩ := hprop.unique hp
        exact ht ht'
    · refine .inr ⟨fun h => ?_, reason, w, does_seq happly does_return, rfl, rfl, rfl⟩
      obtain ⟨x, credential, ⟨request', before', hd', hn', hasks⟩, -⟩ := h
      rw [hd] at hd'
      cases hd'
      rw [hn] at hn'
      cases hn'
      exact hno ⟨x.list, credential, hasks⟩

/-! ## Honest answers -/

/-- A key signs, and the signature verifies under it. -/
def Signs (S : Setup K) : (op : Op) → Ans K op → Prop
  | .sign node statement, r => ∃ signature, r = .ok signature ∧
    ∀ publicKey, S.committee.members[node]? = some publicKey →
      K.verify publicKey statement.1 signature = true
  | _, _ => True

/-- What a member answers to a proposal. -/
def Honest (S : Setup K) (x : Proposal) (y : Nat × Frame) : Prop :=
  Yields (Signs S) (onProposal S y.1 x.encode) y.2

theorem replySignature_honest (hk : K.Canonical) (signature : K.Signature) :
    replySignature (msgSignature,
      MlDsaSignatureReply.encode ⟨[(K.encodeSignature signature).1], []⟩) = some signature := by
  have hraw := (K.encodeSignature signature).2
  have hlen : (MlDsaSignatureReply.encode ⟨[(K.encodeSignature signature).1], []⟩).length <
      2 ^ 32 := by
    simp [MlDsaSignatureReply.encode, Column.encode₂, Column.items, Column.bytes, encodeItems,
      encodeFields, header, varParts, fixedLen, Shape.width, length_leBytes, hraw]
  unfold replySignature
  rw [if_pos rfl, MlDsaSignatureReply.exact.decode_encode _ hlen]
  simp only [Option.bind_eq_bind, Option.bind_some, hraw, dif_pos]
  exact hk.signature signature

/-- An honest answer counts. -/
theorem Honest.counts (hk : K.Canonical) {x : Proposal} {y : Nat × Frame} (h : Honest S x y)
    (hy : y.1 < nMembers) (hlen : x.encode.length ≤ maxFrame) : ∃ signature,
    replySignature y.2 = some signature ∧
      Counts S (S.committee.statementFor x.list x.version) (y.1, signature) = true := by
  unfold Honest onProposal at h
  rw [Proposal.decode_encode hlen] at h
  obtain ⟨r, ⟨signature, rfl, hv⟩, h⟩ := yields_call.mp h
  have hreply := yields_ret.mp h
  refine ⟨signature, by rw [hreply]; exact replySignature_honest hk signature, ?_⟩
  obtain ⟨pk, hpk⟩ : ∃ pk, S.committee.members[y.1]? = some pk :=
    ⟨_, List.getElem?_eq_getElem (S.members_length ▸ hy)⟩
  unfold Counts
  simp only [hpk]
  exact hv pk hpk

/-- Every honest answer counts, whatever arrives between them. -/
theorem length_le_counted (hk : K.Canonical) {x : Proposal} (hlen : x.encode.length ≤ maxFrame)
    {honest answers : List (Nat × Frame)} (hsub : honest.Sublist answers)
    (hh : ∀ y ∈ honest, Honest S x y) (hd : ∀ y ∈ answers, y.1 < nMembers) :
    honest.length ≤ ((answers.filterMap fun y =>
      (replySignature y.2).map fun signature => (y.1, signature)).filter
        (Counts S (S.committee.statementFor x.list x.version))).length := by
  induction hsub with
  | slnil => exact Nat.zero_le _
  | @cons l₁ l₂ y hs ih =>
    refine le_trans (ih hh fun z hz => hd z (List.mem_cons_of_mem _ hz)) ?_
    refine List.Sublist.length_le (List.Sublist.filter _ ?_)
    exact List.Sublist.filterMap _ (List.sublist_cons_self y l₂)
  | @cons_cons l₁ l₂ y hs ih =>
    obtain ⟨signature, hr, hc⟩ := (hh y List.mem_cons_self).counts hk (hd y List.mem_cons_self) hlen
    have ih' := ih (fun z hz => hh z (List.mem_cons_of_mem _ hz))
      fun z hz => hd z (List.mem_cons_of_mem _ hz)
    simp only [List.filterMap_cons, hr, Option.map_some]
    rw [List.filter_cons_of_pos hc]
    exact Nat.succ_le_succ ih'

/-- Seven honest answers are a quorum. -/
theorem threshold_le_quorum (hk : K.Canonical) {x : Proposal} (ha : Answered x v.answers)
    {honest : List (Nat × Frame)} (hsub : honest.Sublist v.answers)
    (ht : threshold ≤ honest.length) (hh : ∀ y ∈ honest, Honest S x y) :
    threshold ≤ (v.quorum S x).length := by
  have hne : v.answers ≠ [] := by
    intro h
    rw [h] at hsub
    rw [List.sublist_nil.mp hsub, List.length_nil] at ht
    exact absurd ht (by decide)
  have hcount := length_le_counted hk (ha.sent hne) hsub hh ha.dialled
  unfold Visit.quorum
  rw [List.length_take]
  exact le_min (le_refl _) (le_trans ht hcount)

/-- The mutex is given back. -/
theorem does_unlock (hG : Lets G) (node : Nat) (reply : Frame) :
    v.Does G p (do ask (.shared (.unlockRound node)); return reply) w reply
      { w with round := Function.update w.round node none } := by
  refine does_ask (hG _ _ (by simp) (by simp)) ⟨(), _, trivial, rfl⟩ fun _ u _ hx => ?_
  obtain rfl : u = _ := hx
  exact does_return

end
end

/-! ## A committee of ten -/

def tenKey (i : Nat) : Blob 1952 := ⟨List.replicate 1952 (UInt8.ofNat i), List.length_replicate⟩

def tenKeys : List (Blob 1952) := (List.range nMembers).map tenKey

theorem length_tenKeys : tenKeys.length = nMembers := by
  rw [tenKeys, List.length_map, List.length_range]

def sampleSignature : Blob 3309 := signatureOf (Blob.replicate 48 0)

/-- Digests of the program's hashes: on the anchor of these keys, on the list of the one
credential at version 0, and on the empty list at version 1. -/
def tenAnchorId : Blob 48 :=
  ⟨[0xee, 0x4e, 0xc8, 0x84, 0x3a, 0x03, 0x72, 0x41, 0x01, 0x7e, 0x3e, 0x6a, 0xa8, 0x14, 0x75, 0x97,
    0x42, 0xe6, 0x46, 0xc6, 0x36, 0xcb, 0xb5, 0xe5, 0xcb, 0x64, 0xa7, 0xde, 0x55, 0x3e, 0x30, 0x01,
    0xab, 0x51, 0x7e, 0x01, 0xcd, 0x35, 0x89, 0x76, 0xf0, 0x3a, 0x42, 0xa5, 0x47, 0x13, 0xe7, 0x0d], rfl⟩
def tenStatement : Blob 64 :=
  ⟨[0xd7, 0xe0, 0x5f, 0xff, 0x23, 0x30, 0xd2, 0x0d, 0x53, 0x73, 0xab, 0x5b, 0x03, 0xf3, 0xda, 0xb6,
    0x51, 0x9c, 0x96, 0x94, 0xe7, 0xd4, 0x10, 0x57, 0x8a, 0x50, 0xb6, 0x13, 0x1d, 0x05, 0xb2, 0x54,
    0xd8, 0xfc, 0xd4, 0x6d, 0x81, 0x5a, 0x9c, 0xfb, 0xc2, 0x45, 0x80, 0xdb, 0xc0, 0xe8, 0xf6, 0x0a,
    0x0d, 0x6d, 0x35, 0xb3, 0xc8, 0x4f, 0xc8, 0x70, 0xbf, 0x3d, 0x3c, 0xb2, 0x1e, 0x9e, 0x5d, 0x82], rfl⟩

def tenRevoked : Blob 64 :=
  ⟨[0x8b, 0x73, 0xa9, 0x4e, 0x2e, 0xb3, 0x4b, 0xd5, 0xbb, 0xfc, 0x5f, 0x9a, 0x5b, 0xcc, 0xbd, 0xc2,
    0x54, 0x03, 0x05, 0x2e, 0x20, 0x6d, 0x2e, 0x5a, 0xec, 0xce, 0xf7, 0xae, 0x9f, 0xe8, 0xbb, 0x9b,
    0x13, 0x1b, 0x56, 0xe2, 0xe9, 0xc3, 0xef, 0x66, 0x22, 0x88, 0x5f, 0x97, 0x53, 0x0c, 0x70, 0xcb,
    0x5b, 0xeb, 0xe1, 0x9f, 0xaa, 0xd0, 0x90, 0xf9, 0x73, 0xde, 0x86, 0x22, 0x5c, 0xe0, 0x43, 0x8f], rfl⟩

/-- Knows one signature, of each of the ten over those statements. -/
def tenPrimitives : Primitives where
  PublicKey := Blob 1952
  Signature := Unit
  encodeKey := id
  decodeKey := id
  encodeSignature _ := sampleSignature
  decodeSignature raw := if raw = sampleSignature then some () else none
  verifyWithContext publicKey message context _ :=
    signedBy tenKeys [tenStatement.1, tenRevoked.1] publicKey message context
  sha3_384 _ := tenAnchorId
  shake256 bytes := if bytes = statementPreimage tenAnchorId [] 1 then tenRevoked else tenStatement

theorem tenPrimitives_canonical : tenPrimitives.Canonical := by
  refine ⟨fun _ => rfl, fun _ => ?_⟩
  simp only [tenPrimitives, if_true]
  rfl

theorem tenPrimitives_verify {publicKey : Blob 1952} (h : publicKey ∈ tenKeys) (bytes : Bytes)
    (signature : Unit) :
    tenPrimitives.verify publicKey (tenPrimitives.shake256 bytes).1 signature = true := by
  refine decide_eq_true ⟨h, ?_, rfl⟩
  simp only [tenPrimitives]
  split <;> simp

theorem tenKeys_nodup : tenKeys.Nodup := by
  refine (List.nodup_range).map_on fun i hi j hj h => ?_
  have hi' := List.mem_range.mp hi
  have hj' := List.mem_range.mp hj
  have hbyte : UInt8.ofNat i = UInt8.ofNat j :=
    List.replicate_right_injective (n := 1952) (by decide) (congrArg Subtype.val h)
  have hnat := congrArg UInt8.toNat hbyte
  simp only [UInt8.toNat_ofNat'] at hnat
  unfold nMembers at hi' hj'
  omega

def tenSetup : Setup tenPrimitives where
  sha3 := Demo.demoHashes.sha3
  members := tenKeys
  size := length_tenKeys
  committee := ⟨tenKeys, threshold, tenAnchorId⟩
  built := by
    refine Committee.new_ok.mpr ⟨?_, ?_, ?_, rfl⟩
    · show tenKeys.length ≤ maxCommitteeSize
      rw [length_tenKeys]
      decide
    · show (tenKeys.map id).Nodup
      rw [List.map_id]
      exact tenKeys_nodup
    · show 1 ≤ threshold ∧ threshold ≤ tenKeys.length
      rw [length_tenKeys]
      decide

/-- The first seven members answer, in order. -/
def tenVisit : Visit where
  credential := Demo.demoCredential
  answers := (List.range threshold).map fun i =>
    (i, (msgSignature, MlDsaSignatureReply.encode ⟨[sampleSignature.1], []⟩))

theorem credential_ten : tenVisit.credential = Demo.demoCredential := by simp only [tenVisit]

theorem sha3_ten : tenSetup.sha3 Demo.demoCredential = Demo.demoEntry := by
  simp only [tenSetup, Demo.sha3_demoCredential]

/-- Nothing is published, and the credential is asked for. -/
theorem proposes_issued (stored : Option Bytes) (hw : stored = none) :
    Proposes tenSetup stored tenVisit Demo.issueRequest Demo.demoIssued Demo.demoCredential := by
  subst hw
  refine ⟨_, [], Demo.decode_issueRequest, rfl, .inl ⟨rfl, ?_⟩,
    fun _ => ⟨credential_ten.symm, 'a', [], fromUtf8_toUtf8 _⟩, fun h => absurd h (by decide)⟩
  unfold addValid
  dsimp only
  rw [sha3_ten, if_neg (by simp)]
  rfl

/-- It is in the list, and its revocation is asked for. -/
theorem proposes_emptied {record : Bytes} (h : Accepted tenSetup record 0 [Demo.demoEntry]) :
    Proposes tenSetup (some record) tenVisit Demo.revokeRequest Demo.demoEmptied
      Demo.demoCredential := by
  obtain ⟨r, ⟨hdec, -⟩, hversion, hlist⟩ := h
  have hread : MlDsaStatusList.fromBytes tenPrimitives record = .ok r := hdec
  refine ⟨⟨actionRevoke, Demo.demoCredential⟩, [Demo.demoEntry], Demo.decode_revokeRequest, ?_,
    .inr ⟨rfl, by dsimp only, ?_⟩, fun h => absurd h (by decide), fun _ h => ?_⟩
  · unfold nextSnapshot
    dsimp only
    rw [hread]
    dsimp only
    rw [hversion, hlist]
    rfl
  · unfold revoke
    rw [sha3_ten]
    rfl
  · have hlen := Demo.length_demoCredential
    dsimp only at h
    rw [h] at hlen
    cases hlen

theorem answered_ten {x : Proposal} (hx : x.encode.length ≤ maxFrame) :
    Answered x tenVisit.answers := by
  refine ⟨?_, fun y hy => ?_, fun _ => hx⟩
  · simp [tenVisit, Function.comp_def, List.nodup_range]
  · obtain ⟨i, hi, rfl⟩ := List.mem_map.mp hy
    exact lt_trans (List.mem_range.mp hi) (by decide)

theorem honest_ten {x : Proposal} (hx : x.encode.length ≤ maxFrame) :
    ∀ y ∈ tenVisit.answers, Honest tenSetup x y := by
  intro y hy
  obtain ⟨i, hi, rfl⟩ := List.mem_map.mp hy
  unfold Honest onProposal
  rw [Proposal.decode_encode hx]
  refine .call (.ok ()) ⟨(), rfl, fun pk hpk => ?_⟩ (.ret _)
  exact tenPrimitives_verify (List.mem_of_getElem? hpk) _ ()

theorem quorum_ten {x : Proposal} (hx : x.encode.length ≤ maxFrame) :
    threshold ≤ (tenVisit.quorum tenSetup x).length :=
  threshold_le_quorum tenPrimitives_canonical (answered_ten hx) (List.Sublist.refl _)
    (by simp [tenVisit]) (honest_ten hx)

theorem fits_issued : Demo.demoIssued.encode.length ≤ maxFrame := by
  rw [Proposal.length_encode]
  decide

theorem fits_emptied : Demo.demoEmptied.encode.length ≤ maxFrame := by
  rw [Proposal.length_encode]
  decide

end Drot.L5.MlDsaDemo
