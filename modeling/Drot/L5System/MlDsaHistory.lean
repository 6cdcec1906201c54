import Drot.L5System.MlDsaPact

/-!
# What the ML-DSA demo publishes

Every member signs whatever decodes, so two aggregators that start from one record can
both publish its successor. Every thread keeps `pact`, and from it:

* `records_genuine`: while publications are kept apart, every record that was ever in
  storage is accepted by every relying party, and is one request away from a record
  that was placed with the version before; and so is every acknowledged update.
* `rounds_linear`: while rounds are kept apart, and no stored record fails to be read,
  the versions of the records are 0, 1, 2, ..., and none is acknowledged twice.
* `one_aggregator_linear`: a single aggregator keeps its rounds apart.
* `conflicting_updates`: two do not. Both updates are acknowledged for one version, and
  the second record is without the first update.
-/
namespace Drot.L5.MlDsaDemo
open Bytes Bitmap Ssz Text L1.Message L3.MlDsa L4.Relying L4.MlDsaVerifier Prog
open Demo (nMembers threshold maxFrame Frame Proposal StatusRequest StatusUpdated StorageName
  DemoOp DemoAns DemoProg MlDsaSignatureReply Failure checkedSucc addValid revoke msgStatusRequest
  msgProposal msgSignature msgStatusUpdated msgFailure actionIssue actionRevoke acknowledged)

section
variable {K : Primitives}

section
variable {S : Setup K} {T : Discipline} {p : Nat} {w w' w'' : World K}

/-! ## Every call keeps the pact -/

section
variable {α β : Type}

/-- A program of `Demo` that thread `p` runs. -/
abbrev KeepsShared (S : Setup K) (T : Discipline) (p : Nat) (m : DemoProg α)
    (Q : α → World K → Prop) (w : World K) : Prop :=
  ((careful K T).seen .shared fun _ r => r).keeps (pact S T) p m Q w

abbrev Keeps (S : Setup K) (T : Discipline) (p : Nat) (m : MlDsaProg K α)
    (Q : α → World K → Prop) (w : World K) : Prop := (careful K T).keeps (pact S T) p m Q w

theorem keeps_seq {m : MlDsaProg K α} {f : α → MlDsaProg K β} {Q : β → World K → Prop}
    (hi : Inv S T w) (h : Keeps S T p m (fun a w' => Inv S T w' → Keeps S T p (f a) Q w') w) :
    Keeps S T p (m >>= f) Q w := Machine.keeps_bind hi h

theorem keeps_return {a : α} {Q : α → World K → Prop}
    (h : ∀ w', Relies T p w w' → Inv S T w' → Q a w') : Keeps S T p (pure a) Q w := h

theorem keeps_ask {op : Op} {k : Ans K op → MlDsaProg K α} {Q : α → World K → Prop}
    (h : ∀ w₁, Relies T p w w₁ → Inv S T w₁ → Apart T w₁ op → ∀ r w₂, exec p w₁ op r w₂ →
      Inv S T w₂ ∧ Guarantee T p w₁ w₂ ∧ Keeps S T p (k r) Q w₂) :
    Keeps S T p (ask op >>= k) Q w :=
  Machine.keeps_call fun w₁ hr hi r w₂ hx => h w₁ hr hi hx.1 r w₂ hx.2

theorem keeps_read {op : VolOp StorageName} {k : Except IoError (VolRes op) → DemoProg α}
    {Q : α → World K → Prop}
    (h : ∀ w₁, Relies T p w w₁ → Inv S T w₁ → ∀ r v, w₁.volume.exec op r v →
      Inv S T (w₁.afterStorage p v op r) ∧ Guarantee T p w₁ (w₁.afterStorage p v op r) ∧
      KeepsShared S T p (k r) Q (w₁.afterStorage p v op r)) :
    KeepsShared S T p (Demo.ask (.storage op) >>= k) Q w := by
  refine Machine.keeps_call fun w₁ hr hi r w₂ hx => ?_
  obtain ⟨r, rfl, -, v, hv, rfl⟩ := hx
  exact h w₁ hr hi r v hv

/-! ### Reading -/

/-- What was read is a record that was placed, and under `rounds` the last one. -/
structure Found (T : Discipline) (p node : Nat) (o : Option Bytes) (w : World K) : Prop where
  held : Held T p node w
  placed : ∀ bytes, o = some bytes → ∃ x ∈ w.placed, x.2 = bytes
  last : T = .rounds → w.unread = 0 → o = w.placed.getLast?.map Prod.snd

theorem Found.relies {node : Nat} {o : Option Bytes} (h : Found T p node o w)
    (hr : Relies T p w w') : Found T p node o w' := by
  refine ⟨h.held.relies hr, fun bytes ho => ?_, fun hT h0 => ?_⟩
  · obtain ⟨x, hx, hb⟩ := h.placed bytes ho
    exact ⟨x, hr.grows.placed.subset hx, hb⟩
  · rw [hr.placed hT ⟨node, h.held.lock⟩]
    exact h.last hT (hr.grows.unread_zero h0)

/-- A failed read leaves a trace. -/
theorem found_none {node : Nat} (h : Held T p node w)
    (hn : w.unread = 0 → w.volume.dir .currentRecord = none) (hi : Inv S T w) :
    Found T p node none w := by
  refine ⟨h, (fun bytes ho => by cases ho), fun _ h0 => ?_⟩
  have hlast := hi.shelf.current.symm.trans (hn h0)
  rw [Option.map_eq_none_iff.mp hlast]
  rfl

theorem keeps_currentRecord {node : Nat} (h : Held T p node w) :
    Keeps S T p (shared Demo.currentRecord) (fun o w' => Found T p node o w') w := by
  refine Machine.keeps_within (keeps_read fun w₁ hr₁ hi₁ r v hv => ?_)
  have hh₁ := h.relies hr₁
  cases r with
  | error e =>
    obtain rfl : v = w₁.volume := hv
    have hle : w₁.unread ≤ w₁.unread + (w₁.volume.dir .currentRecord).toList.length :=
      Nat.le_add_right _ _
    obtain ⟨hi₂, hg₂⟩ := hi₁.local p w₁.channel hle
    have hmissing : w₁.unread + (w₁.volume.dir .currentRecord).toList.length = 0 →
        w₁.volume.dir .currentRecord = none := by
      intro h0
      cases hd : w₁.volume.dir .currentRecord with
      | none => rfl
      | some f =>
        rw [hd] at h0
        exact absurd h0 (Nat.succ_ne_zero _)
    have hf : Found T p node none
        (w₁.afterStorage p w₁.volume (.openFile .currentRecord) (.error e)) :=
      found_none ⟨hh₁.lock, hh₁.idle⟩ hmissing hi₂
    exact ⟨hi₂, hg₂, fun w₃ hr₃ _ => hf.relies hr₃⟩
  | ok f =>
    obtain ⟨hdir, rfl⟩ := hv
    refine ⟨hi₁, .refl, keeps_read fun w₃ hr₃ hi₃ r v hv => ?_⟩
    have hr₃ : Relies T p w₁ w₃ := hr₃
    have hh₃ := hh₁.relies hr₃
    cases r with
    | error e =>
      obtain rfl : v = w₃.volume := hv
      obtain ⟨hi₄, hg₄⟩ := hi₃.local p w₃.channel (Nat.le_succ w₃.unread)
      have hf : Found T p node none (w₃.afterStorage p w₃.volume (.readToEnd f) (.error e)) :=
        found_none ⟨hh₃.lock, hh₃.idle⟩ (fun h0 => absurd h0 (Nat.succ_ne_zero _)) hi₄
      exact ⟨hi₄, hg₄, fun w₅ hr₅ _ => hf.relies hr₅⟩
    | ok bytes =>
      obtain ⟨hbytes, rfl⟩ := hv
      refine ⟨hi₃, .refl, fun w₅ hr₅ _ => Found.relies ⟨hh₃, fun b hb => ?_, fun hT h0 => ?_⟩ hr₅⟩
      · cases hb
        exact ⟨_, hi₁.shelf.reads hdir hr₃.grows.placed hi₃.shelf, hbytes.symm⟩
      · -- the last record when the file was opened is the last one still
        have hlast := hi₁.shelf.current.symm.trans hdir
        obtain ⟨x, hx, hxf⟩ := Option.map_eq_some_iff.mp hlast
        have hpl := hr₃.placed hT ⟨node, hh₁.lock⟩
        show some bytes = w₃.placed.getLast?.map Prod.snd
        rw [hpl, hx, Option.map_some, hbytes, ← hxf]
        have hmem : x ∈ w₃.placed := hpl ▸ List.mem_of_getLast? hx
        rw [(hi₃.shelf.kept x hmem).1]

/-! ### The next snapshot -/

/-- The list that the request is applied to. -/
structure Due (S : Setup K) (T : Discipline) (p node : Nat) (version : UInt32)
    (before : List Entry) (w : World K) : Prop where
  held : Held T p node w
  start : Before S w version before
  nodup : before.Nodup
  due : T = .rounds → w.unread = 0 → version.toNat = w.placed.length

theorem Due.relies {node : Nat} {version : UInt32} {before : List Entry}
    (h : Due S T p node version before w) (hr : Relies T p w w') :
    Due S T p node version before w' := by
  refine ⟨h.held.relies hr, h.start.grows hr.grows, h.nodup, fun hT h0 => ?_⟩
  rw [hr.placed hT ⟨node, h.held.lock⟩]
  exact h.due hT (hr.grows.unread_zero h0)

theorem Found.due {node : Nat} {o : Option Bytes} {version : UInt32} {before : List Entry}
    (h : Found T p node o w) (hi : Inv S T w) (hn : nextSnapshot K o = .ok (version, before)) :
    Due S T p node version before w := by
  cases o with
  | none =>
    cases hn
    refine ⟨h.held, .inl ⟨rfl, rfl⟩, List.nodup_nil, fun hT h0 => ?_⟩
    have hnone := Option.map_eq_none_iff.mp (h.last hT h0).symm
    rw [List.getLast?_eq_none_iff.mp hnone]
    rfl
  | some bytes =>
    obtain ⟨x, hx, rfl⟩ := h.placed bytes rfl
    obtain ⟨v, list, hacc, hnodup, -⟩ := hi.genuine x hx
    obtain ⟨r, ⟨hr, hok⟩, rfl, rfl⟩ := hacc
    have hr' : MlDsaStatusList.fromBytes K x.2 = .ok r := hr
    simp only [nextSnapshot, hr'] at hn
    cases hs : checkedSucc r.version with
    | none => rw [hs] at hn; cases hn
    | some next =>
      rw [hs] at hn
      cases hn
      have hnext := Demo.checkedSucc_toNat hs
      have hacc : Accepted S x.2 r.version r.statusList := ⟨r, ⟨hr, hok⟩, rfl, rfl⟩
      refine ⟨h.held, .inr ⟨x, hx, r.version, hacc, hnext.symm⟩, hnodup, fun hT h0 => ?_⟩
      obtain ⟨y, hy, hyx⟩ := Option.map_eq_some_iff.mp (h.last hT h0).symm
      rw [List.getLast?_eq_getElem?] at hy
      obtain ⟨v, l, hacc', hv⟩ := hi.numbered hT h0 _ y hy
      rw [hyx] at hacc'
      obtain ⟨rfl, -⟩ := hacc'.unique hacc
      have hlt := (List.getElem?_eq_some_iff.mp hy).1
      omega

theorem Applies.nodup {request : StatusRequest} {before list : List Entry} {credential : Bytes}
    (h : Applies S request before list credential) (hn : before.Nodup) : list.Nodup := by
  rcases h with ⟨-, h⟩ | ⟨-, -, h⟩
  · exact Demo.Update.nodup ⟨credential, .inl h⟩ hn
  · exact Demo.Update.nodup ⟨credential, .inr h⟩ hn

/-- What `applyRequest` returns: the list and the credential, or a refusal. -/
structure Settled (S : Setup K) (T : Discipline) (p node : Nat) (version : UInt32)
    (before : List Entry) (request : StatusRequest) (o : Except Frame (List Entry × Bytes))
    (w : World K) : Prop where
  due : Due S T p node version before w
  applied : ∀ list credential, o = .ok (list, credential) → Applies S request before list credential
  refused : ∀ reply, o = .error reply → ∃ reason, reply = refuse reason

theorem Due.applied {node : Nat} {version : UInt32} {before list : List Entry}
    {request : StatusRequest} {credential : Bytes} (h : Due S T p node version before w)
    (ha : Applies S request before list credential) :
    Settled S T p node version before request (.ok (list, credential)) w := by
  refine ⟨h, fun l c ho => ?_, fun _ ho => by cases ho⟩
  cases ho
  exact ha

theorem Due.refused {node : Nat} {version : UInt32} {before : List Entry} {request : StatusRequest}
    (h : Due S T p node version before w) (reason : String) :
    Settled S T p node version before request (.error (refuse reason)) w := by
  refine ⟨h, (fun _ _ ho => by cases ho), fun reply ho => ?_⟩
  cases ho
  exact ⟨reason, rfl⟩

theorem keeps_applyRequest {node : Nat} {version : UInt32} {before : List Entry}
    (h : Due S T p node version before w) (request : StatusRequest) :
    Keeps S T p (applyRequest S node request version before)
      (Settled S T p node version before request) w := by
  unfold applyRequest
  split
  · rename_i hissue
    split
    · exact keeps_return fun w' hr _ => (h.relies hr).refused _
    · exact keeps_return fun w' hr _ => (h.relies hr).refused _
    · refine keeps_ask fun w₁ hr₁ hi₁ _ credential w₂ hx => ?_
      obtain rfl : w₂ = w₁ := hx
      have h₁ := h.relies hr₁
      refine ⟨hi₁, .refl, ?_⟩
      split
      · exact keeps_return fun w' hr _ => (h₁.relies hr).refused _
      · rename_i list hadd
        exact keeps_return fun w' hr _ => (h₁.relies hr).applied (.inl ⟨hissue, hadd⟩)
  · split
    · rename_i hrevoke
      split
      · exact keeps_return fun w' hr _ => (h.relies hr).refused _
      · split
        · exact keeps_return fun w' hr _ => (h.relies hr).refused _
        · rename_i list hrev
          exact keeps_return fun w' hr _ => (h.relies hr).applied (.inr ⟨hrevoke, rfl, hrev⟩)
    · exact keeps_return fun w' hr _ => (h.relies hr).refused _

/-! ### Collecting -/

/-- The messages of rounds are nobody's concern. -/
theorem Due.channel {node : Nat} {version : UInt32} {before : List Entry}
    (h : Due S T p node version before w) (channel : List (List (Nat × K.Signature))) :
    Due S T p node version before { w with channel := channel } :=
  ⟨⟨h.held.lock, h.held.idle⟩, h.start, h.nodup, h.due⟩

/-- The receiving loop counts a signature after it has verified. -/
theorem keeps_collect {node : Nat} {version : UInt32} {before : List Entry}
    (h : Due S T p node version before w) {statement : Blob 64} {rx : Nat} (senders : Nat)
    {quorum : List (Nat × K.Signature)} (hq : ∀ y ∈ quorum, Counts S statement y = true) :
    Keeps S T p (collect S statement rx senders quorum) (fun quorum' w' =>
      Due S T p node version before w' ∧ ∀ y ∈ quorum', Counts S statement y = true) w := by
  induction senders generalizing w quorum with
  | zero => exact keeps_return fun w' hr _ => ⟨h.relies hr, hq⟩
  | succ senders ih =>
    unfold collect
    split
    · exact keeps_return fun w' hr _ => ⟨h.relies hr, hq⟩
    · refine keeps_ask fun w₁ hr₁ hi₁ _ r w₂ hx => ?_
      have h₁ := h.relies hr₁
      cases r with
      | none =>
        obtain rfl : w₂ = w₁ := hx
        exact ⟨hi₁, .refl, keeps_return fun w' hr _ => ⟨h₁.relies hr, hq⟩⟩
      | some y =>
        obtain ⟨index, signature⟩ := y
        obtain ⟨rest, -, rfl⟩ := hx
        obtain ⟨hi₂, hg₂⟩ := hi₁.local p (w₁.channel.set rx rest) (le_refl w₁.unread)
        have h₂ := h₁.channel (w₁.channel.set rx rest)
        refine ⟨hi₂, hg₂, ?_⟩
        dsimp only
        split
        · exact keeps_return fun w' hr _ => ⟨h₂.relies hr, hq⟩
        · rename_i pk hpk
          split
          · rename_i hv
            refine ih h₂ fun y hy => ?_
            rcases List.mem_append.mp hy with hy | hy
            · exact hq y hy
            · rw [List.mem_singleton.mp hy]
              simp only [Counts, hpk, hv]
          · exact ih h₂ hq

theorem keeps_collectSignatures {node : Nat} {version : UInt32} {before : List Entry}
    (h : Due S T p node version before w) (x : Proposal) :
    Keeps S T p (collectSignatures S x) (fun quorum w' => Due S T p node version before w' ∧
      ∀ y ∈ quorum, Counts S (S.committee.statementFor x.list x.version) y = true) w := by
  refine keeps_ask fun w₁ hr₁ hi₁ _ rx w₂ hx => ?_
  obtain ⟨-, answers, -, rfl⟩ := hx
  obtain ⟨hi₂, hg₂⟩ := hi₁.local p (w₁.opened answers).channel (le_refl w₁.unread)
  exact ⟨hi₂, hg₂, keeps_collect ((h.relies hr₁).channel _) nMembers fun y hy => by cases hy⟩

/-! ### Publishing -/

/-- What a publication that returned has done. -/
structure Published (S : Setup K) (T : Discipline) (p node : Nat) (bytes : Bytes)
    (version : UInt32) (r : Except IoError Unit) (w : World K) : Prop where
  held : Held T p node w
  placed : r = .ok () → Placed S T p bytes version w

/-- Thread `p` is in `write_atomic`, on behalf of the round of `node`. -/
structure Publishing (S : Setup K) (T : Discipline) (p node : Nat) (bytes : Bytes)
    (version : UInt32) (w : World K) : Prop
    extends Entitled S T p bytes version w where
  on : w.writing p = true
  lock : w.round node = some p

theorem Publishing.relies {node : Nat} {bytes : Bytes} {version : UInt32}
    (h : Publishing S T p node bytes version w) (hr : Relies T p w w') :
    Publishing S T p node bytes version w' ∧ w'.volume = w.volume :=
  ⟨⟨h.toEntitled.relies hr, hr.writing.trans h.on, (hr.round node).mpr h.lock⟩, hr.volume h.on⟩

theorem afterStorage_volume (w : World K) (v : Volume StorageName) (op : VolOp StorageName)
    (r : Except IoError (VolRes op)) : (w.afterStorage p v op r).volume = v := by
  unfold World.afterStorage
  split <;> rfl

/-- The mark goes with the error. -/
theorem Publishing.fail {node : Nat} {bytes : Bytes} {version : UInt32} {v : Volume StorageName}
    (h : Publishing S T p node bytes version w) (hi : Inv S T w)
    (hs : v.Shelf .tmp .currentRecord w.placed) :
    Inv S T { w with volume := v, writing := Function.update w.writing p false } ∧
      Guarantee T p w { w with volume := v, writing := Function.update w.writing p false } ∧
      Held T p node { w with volume := v, writing := Function.update w.writing p false } := by
  obtain ⟨hi', hg⟩ := hi.setVolume false hs (hi.others h.on) (fun hf => by cases hf)
  exact ⟨hi', hg, h.lock, fun _ => Function.update_self ..⟩

/-- The thread of a round may put its record in place. -/
def Publishing.placer (S : Setup K) (T : Discipline) (p node : Nat) (bytes : Bytes)
    (version : UInt32) : Volume.Placer
      (((careful K T).seen .shared fun _ r => r).seen DemoOp.storage fun _ r => r) (pact S T) p .tmp
      .currentRecord bytes where
  volume w := w.volume
  placed w := w.placed
  ready w := Held T p node w ∧ Entitled S T p bytes version w
  begun := Publishing S T p node bytes version
  written := Publishing S T p node bytes version
  failed := Held T p node
  done w := Held T p node w ∧ Placed S T p bytes version w
  exec hx := by
    obtain ⟨_, rfl, _, rfl, -, v, hv, rfl⟩ := hx
    rw [afterStorage_volume]
    exact hv
  shelf hi := hi.shelf
  ready_rely h hr := ⟨h.1.relies hr, h.2.relies hr⟩
  begun_rely h hr := h.relies hr
  written_rely h hr := h.relies hr
  failed_rely h hr := h.relies hr
  done_rely h hr := ⟨h.1.relies hr, h.2.relies hr⟩
  create {w _ w'} hi h hx hs := by
    obtain ⟨_, rfl, r, rfl, hap, v, hv, rfl⟩ := hx
    obtain ⟨hh, he⟩ := h
    cases r with
    | error e =>
      obtain rfl : v = w.volume := hv
      exact ⟨hi, .refl, fun _ _ => hh, fun _ h => by cases h⟩
    | ok f =>
      have hnobody := hh.nobody hi hap
      obtain ⟨hi', hg⟩ := hi.setVolume true hs (fun q _ => hnobody q) fun _ => he.inside
      exact ⟨hi', hg, (fun _ h => by cases h), fun _ _ =>
        ⟨⟨he.genuine, he.inside, he.due⟩, Function.update_self .., hh.lock⟩⟩
  write {w f _ w'} hi h hx hs := by
    obtain ⟨_, rfl, r, rfl, -, v, hv, rfl⟩ := hx
    cases r with
    | error e =>
      obtain ⟨hi', hg, hh⟩ := h.fail hi hs
      exact ⟨hi', hg, fun _ _ => hh, fun _ h => by cases h⟩
    | ok u =>
      obtain ⟨hi', hg⟩ := hi.setVolume true hs (hi.others h.on) fun _ => h.inside
      -- the mark stays
      rw [show Function.update w.writing p true = w.writing by
        rw [← h.on, Function.update_eq_self]] at hi' hg
      exact ⟨hi', hg, (fun _ h => by cases h), fun _ _ =>
        ⟨⟨h.genuine, h.inside, h.due⟩, h.on, h.lock⟩⟩
  sync {w f _ w'} hi h hx := by
    obtain ⟨_, rfl, r, rfl, -, v, hv, rfl⟩ := hx
    obtain rfl : v = w.volume := hv
    cases r with
    | error e =>
      obtain ⟨hi', hg, hh⟩ := h.fail hi hi.shelf
      exact ⟨hi', hg, fun _ _ => hh, fun _ h => by cases h⟩
    | ok u => exact ⟨hi, .refl, (fun _ h => by cases h), fun _ _ => h⟩
  rename {w e w'} hi h hx := by
    obtain ⟨_, rfl, _, rfl, -, v, hv, rfl⟩ := hx
    obtain rfl : v = w.volume := hv
    exact h.fail hi hi.shelf
  place {w f w'} hi h hdir hino hx := by
    obtain ⟨_, rfl, _, rfl, -, v, ⟨i, hi', rfl⟩, rfl⟩ := hx
    obtain rfl : i = f := Option.some.inj (hi'.symm.trans hdir)
    obtain ⟨hi₂, hg₂, hp₂⟩ := step_rename hi ⟨h.on, hdir, hino⟩ h.toEntitled
    exact ⟨hi₂, hg₂, ⟨h.lock, fun _ => Function.update_self ..⟩, hp₂⟩
  syncDir {w _ w'} hi h hx := by
    obtain ⟨_, rfl, _, rfl, -, v, hv, rfl⟩ := hx
    obtain rfl : v = w.volume := hv
    exact ⟨hi, .refl, h⟩

theorem keeps_publish {node : Nat} {bytes : Bytes} {version : UInt32} (h : Held T p node w)
    (he : Entitled S T p bytes version w) : Keeps S T p (shared (Demo.publish bytes).run)
      (Published S T p node bytes version) w := by
  rw [Demo.publish_within]
  have hkeeps := (Publishing.placer S T p node bytes version).keeps_replace (by decide) ⟨h, he⟩
  refine Machine.keeps_within (Machine.keeps_within (Machine.keeps_mono hkeeps ?_))
  intro r w' hpost
  exact ⟨hpost.2.elim id And.left, fun hok => (hpost.1 hok).2⟩

/-! ### One update -/

/-- Of what a request starts with, and how it ends. -/
structure Served (S : Setup K) (T : Discipline) (p node : Nat) (c : Request) (reply : Frame)
    (w : World K) : Prop where
  held : Held T p node w
  earned : Earned S T p c reply w

theorem keeps_refuse {node : Nat} (h : Held T p node w) (reason : String) (c : Request) :
    Keeps S T p (pure (refuse reason)) (Served S T p node c) w :=
  keeps_return fun _ hr _ => ⟨h.relies hr, earned_refuse reason c⟩

theorem keeps_runRound (hk : K.Canonical) {node : Nat} {version : UInt32} {before list : List Entry}
    {credential : Bytes} {request : StatusRequest} {c : Request} (hi : Inv S T w)
    (h : Due S T p node version before w) (happ : Applies S request before list credential)
    (hkind : c.frame.1 = msgStatusRequest) (hd : StatusRequest.decode c.frame.2 = some request) :
    Keeps S T p (runRound S version list credential) (Served S T p node c) w := by
  refine keeps_seq hi (Machine.keeps_mono (keeps_collectSignatures h ⟨version, list⟩) ?_)
  intro quorum w₁ hpost hi₁
  obtain ⟨h₁, hq⟩ := hpost
  split
  · exact keeps_refuse h₁.held _ c
  · rename_i hlen
    split
    · exact keeps_refuse h₁.held _ c
    · rename_i record hnew
      have hvalid : ValidSet S.committee list version quorum := by
        refine ⟨(MlDsaStatusList.new_ok.mp hnew).2.2.1, fun y hy => ?_⟩
        have hc := hq y hy
        unfold Counts at hc
        split at hc
        · rename_i pk hpk
          exact ⟨pk, hpk, hc⟩
        · cases hc
      have hacc := accepted_new hk hvalid (Nat.le_of_not_lt hlen) hnew
      have he : Entitled S T p record.toBytes version w₁ :=
        ⟨⟨list, hacc, happ.nodup h₁.nodup, request, before, credential, h₁.start, happ⟩,
          fun _ => ⟨node, h₁.held.lock⟩, h₁.due⟩
      have hpublish := Machine.keeps_frame (F := fun w => Before S w version before)
        (fun _ _ (hr : Relies T p _ _) hb => hb.grows hr.grows)
        (fun _ _ (hg : Guarantee T p _ _) hb => hb.grows hg.grows) h₁.start (keeps_publish h₁.held he)
      refine keeps_seq hi₁ (Machine.keeps_mono hpublish ?_)
      intro r w₂ hpost₂ _
      obtain ⟨hpub, hbefore⟩ := hpost₂
      cases r with
      | error e => exact keeps_refuse hpub.held _ c
      | ok u =>
        have hplaced := hpub.placed rfl
        refine keeps_return fun w₃ hr₃ _ => ⟨hpub.held.relies hr₃, Earned.relies (w := w₂) ?_ hr₃⟩
        intro u hu
        have hu' := (Demo.acknowledged_statusUpdated version credential).symm.trans hu
        cases hu'
        obtain ⟨x, hx, hb⟩ := hplaced.mem
        exact ⟨⟨request, before, list, hkind, hd, ⟨x, hx, hb ▸ hacc⟩, hbefore, happ⟩,
          fun hT h0 => ⟨hplaced.mine hT h0, hplaced.silent hT h0⟩⟩

theorem keeps_coordinate (hk : K.Canonical) {node : Nat} {request : StatusRequest} {c : Request}
    (hi : Inv S T w) (h : Held T p node w) (hkind : c.frame.1 = msgStatusRequest)
    (hd : StatusRequest.decode c.frame.2 = some request) :
    Keeps S T p (coordinate S node request) (Served S T p node c) w := by
  refine keeps_seq hi (Machine.keeps_mono (keeps_currentRecord h) ?_)
  intro o w₁ hf hi₁
  unfold proceed
  split
  · exact keeps_refuse hf.held _ c
  · rename_i version before hn
    refine keeps_seq hi₁ (Machine.keeps_mono (keeps_applyRequest (hf.due hi₁ hn) request) ?_)
    intro out w₂ hs hi₂
    cases out with
    | error reply =>
      obtain ⟨reason, rfl⟩ := hs.refused reply rfl
      exact keeps_refuse hs.due.held reason c
    | ok y =>
      obtain ⟨list, credential⟩ := y
      exact keeps_runRound hk hi₂ hs.due (hs.applied list credential rfl) hkind hd

theorem keeps_onStatusRequest (hk : K.Canonical) (node : Nat) {c : Request}
    (hkind : c.frame.1 = msgStatusRequest) :
    Keeps S T p (onStatusRequest S node c.frame.2) (Earned S T p c) w := by
  unfold onStatusRequest
  split
  · exact keeps_return fun _ _ _ => earned_refuse _ c
  · rename_i request hd
    refine keeps_ask fun w₁ _ hi₁ hap r w₂ hx => ?_
    obtain ⟨hnone, rfl⟩ := hx
    obtain ⟨hi₂, hg₂, hh₂⟩ := step_lock (p := p) hi₁ hnone fun hT => by
      subst hT
      exact hap node rfl
    refine ⟨hi₂, hg₂, keeps_seq hi₂ (Machine.keeps_mono (keeps_coordinate hk hi₂ hh₂ hkind hd) ?_)⟩
    intro reply w₃ hs _
    refine keeps_ask fun w₄ hr₄ hi₄ _ r w₅ hx => ?_
    obtain rfl : w₅ = _ := hx
    obtain ⟨hi₅, hg₅⟩ := step_unlock hi₄ (hs.held.relies hr₄)
    have he₄ : Earned S T p c reply w₄ := hs.earned.relies hr₄
    have he₅ : Earned S T p c reply { w₄ with round := Function.update w₄.round node none } := he₄
    exact ⟨hi₅, hg₅, keeps_return fun w₆ hr₆ _ => he₅.relies hr₆⟩

/-- An answer that is no update acknowledges none. -/
theorem earned_other {c : Request} {reply : Frame} (h : reply.1 ≠ msgStatusUpdated) :
    Earned S T p c reply w := by
  intro u hu
  simp only [acknowledged, h, if_false] at hu
  cases hu

theorem keeps_onProposal (node : Nat) (payload : Bytes) (c : Request) :
    Keeps S T p (onProposal S node payload) (Earned S T p c) w := by
  unfold onProposal
  split
  · exact keeps_return fun _ _ _ => earned_refuse _ c
  · refine keeps_ask fun w₁ _ hi₁ _ r w₂ hx => ?_
    obtain rfl : w₂ = w₁ := hx
    refine ⟨hi₁, .refl, ?_⟩
    split
    · exact keeps_return fun _ _ _ => earned_refuse _ c
    · exact keeps_return fun _ _ _ => earned_other (show msgSignature ≠ msgStatusUpdated by decide)

theorem keeps_serve (hk : K.Canonical) (c : Request) :
    Keeps S T p (serve S c.node c.frame) (Earned S T p c) w := by
  unfold serve
  split
  · exact keeps_onProposal _ _ c
  · split
    · rename_i hkind
      exact keeps_onStatusRequest hk _ hkind
    · exact keeps_return fun _ _ _ => earned_refuse _ c

/-! ## Every run -/

theorem inv_start : Inv S T World.start := by
  refine ⟨Volume.shelf_empty, fun p q h => ?_, fun x hx => ?_, fun e he => ?_, rfl, fun _ p h => ?_,
    fun _ p q h => ?_, fun _ _ k x hk => ?_, fun _ _ => List.nodup_nil⟩
  · cases h
  · cases hx
  · cases he
  · cases h
  · obtain ⟨m, hm⟩ := h
    cases hm
  · cases hk

theorem honoured (hk : K.Canonical) : Honoured (pact S T) (careful K T) (api S) := by
  refine ⟨fun p o c m w hm hi => ?_, fun p w hi => step_release hi p, fun _ _ h => h⟩
  simp only [api] at hm
  split at hm
  · cases hm
    refine Machine.keeps_bind hi (Machine.keeps_mono (keeps_serve hk c) ?_)
    intro reply w₁ he _
    exact Machine.keeps_ret fun w₂ hr₂ hi₂ => step_return hi₂ (he.relies hr₂)
  · cases hm

theorem reachable_inv (hk : K.Canonical) {s : MlDsaSys K}
    (hr : ((mlDsaDemo S).guard (Machine.NextWhere (Apart T))).Reachable s) : Inv S T s.world := by
  have hr' : ((careful K T).system (api S) (· = World.start)).Reachable s :=
    Machine.reachable_given hr
  refine (Pact.reachable (honoured hk) (fun w hw => ?_) hr').1
  rw [hw]
  exact inv_start

end
end

/-! ## Rounds that do not overlap -/

/-- Record `k` is version `k`, with this list. -/
def ListAt (S : Setup K) (w : World K) (k : Nat) (list : List Entry) : Prop :=
  ∃ x version, w.placed[k]? = some x ∧ Accepted S x.2 version list ∧ version.toNat = k

/-- The list before version `k`. -/
def ListBefore (S : Setup K) (w : World K) (k : Nat) (list : List Entry) : Prop :=
  k = 0 ∧ list = [] ∨ ∃ j, k = j + 1 ∧ ListAt S w j list

/-- The records are the versions 0, 1, 2, ..., each an update of the one before, and every
update that was acknowledged is one of them, and no other's. -/
structure Linear (S : Setup K) (w : World K) : Prop where
  chain : ∀ k < w.placed.length, ∃ request before list credential, ListBefore S w k before ∧
    ListAt S w k list ∧ Applies S request before list credential
  kept : ∀ e ∈ w.returned, ∀ u, acknowledged (some e.2) = some u → ∃ request before list,
    e.1.frame.1 = msgStatusRequest ∧ StatusRequest.decode e.1.frame.2 = some request ∧
    ListBefore S w u.version.toNat before ∧ ListAt S w u.version.toNat list ∧
    Applies S request before list u.credential
  once : (w.returned.filterMap acks).Nodup

section
variable {S : Setup K} {w : World K}

theorem Numbered.listAt (hn : Numbered S w) {x : Nat × Bytes} {version : UInt32}
    {list : List Entry} (hx : x ∈ w.placed) (ha : Accepted S x.2 version list) :
    ListAt S w version.toNat list := by
  obtain ⟨k, hk⟩ := List.mem_iff_getElem?.mp hx
  obtain ⟨v, l, ha', hv⟩ := hn k x hk
  obtain ⟨rfl, rfl⟩ := ha.unique ha'
  exact ⟨x, version, hv ▸ hk, ha, rfl⟩

theorem Numbered.listBefore (hn : Numbered S w) {version : UInt32} {before : List Entry}
    (h : Before S w version before) : ListBefore S w version.toNat before := by
  rcases h with ⟨rfl, rfl⟩ | ⟨x, hx, v, ha, hv⟩
  · exact .inl ⟨rfl, rfl⟩
  · exact .inr ⟨v.toNat, hv.symm, hn.listAt hx ha⟩

theorem Inv.linear (hi : Inv S .rounds w) (h0 : w.unread = 0) : Linear S w := by
  have hn := hi.numbered rfl h0
  refine ⟨fun k hk => ?_, fun e he u hu => ?_, hi.unrepeated rfl h0⟩
  · have hx := List.getElem?_eq_getElem hk
    obtain ⟨v, l, ha, rfl⟩ := hn k _ hx
    obtain ⟨version, list, ha', -, request, before, credential, hb, happ⟩ :=
      hi.genuine _ (List.getElem_mem hk)
    obtain ⟨rfl, rfl⟩ := ha'.unique ha
    exact ⟨request, before, list, credential, hn.listBefore hb, ⟨_, version, hx, ha, rfl⟩, happ⟩
  · obtain ⟨request, before, list, hkind, hd, ⟨x, hx, ha⟩, hb, happ⟩ := hi.kept e he u hu
    exact ⟨request, before, list, hkind, hd, hn.listBefore hb, hn.listAt hx ha, happ⟩

end

/-- Only the mutex of this node is taken. -/
def OnlyAt (a : Nat) (_ : World K) (op : Op) : Prop :=
  ∀ node, op = .shared (.lockRound node) → node = a

theorem afterStorage_round {p : Nat} {w : World K} {v : Volume StorageName}
    {op : VolOp StorageName} {r : Except IoError (VolRes op)} :
    (w.afterStorage p v op r).round = w.round := by
  unfold World.afterStorage
  split <;> rfl

/-- No other mutex gets an owner. -/
theorem exec_round {a p : Nat} {w w' : World K} {op : Op} {r : Ans K op} (ho : OnlyAt a w op)
    (hx : exec p w op r w') (hw : ∀ m, m ≠ a → w.round m = none) : ∀ m, m ≠ a → w'.round m = none := by
  intro m hm
  cases op with
  | shared op =>
    cases op with
    | storage op =>
      obtain ⟨v, -, rfl⟩ := hx
      rw [afterStorage_round]
      exact hw m hm
    | lockRound node =>
      obtain ⟨-, rfl⟩ := hx
      obtain rfl := ho node rfl
      exact (Function.update_of_ne hm ..).trans (hw m hm)
    | unlockRound node =>
      obtain rfl : w' = _ := hx
      by_cases hmn : m = node
      · subst hmn
        exact Function.update_self ..
      · exact (Function.update_of_ne hmn ..).trans (hw m hm)
    | issue subject version node =>
      obtain rfl : w' = w := hx
      exact hw m hm
    | propose x =>
      obtain ⟨-, answers, -, rfl⟩ := hx
      exact hw m hm
    | _ => exact absurd hx id
  | recvTimeout rx =>
    cases r with
    | none =>
      obtain rfl : w' = w := hx
      exact hw m hm
    | some y =>
      obtain ⟨rest, -, rfl⟩ := hx
      exact hw m hm
  | sign node statement =>
    obtain rfl : w' = w := hx
    exact hw m hm

/-- With one mutex, rounds do not overlap. -/
theorem reachable_apart {S : Setup K} {a : Nat} {s : MlDsaSys K}
    (hr : ((mlDsaDemo S).guard (Machine.NextWhere (OnlyAt a))).Reachable s) :
    ((mlDsaDemo S).guard (Machine.NextWhere (Apart .rounds))).Reachable s := by
  have hrelease : ∀ (p : Nat) (w : World K), (∀ m, m ≠ a → w.round m = none) →
      ∀ m, m ≠ a → (release p w).round m = none := by
    intro p w hw m hm
    simp [release, hw m hm]
  refine (LTS.Reachable.guard_mono (I := fun s => ∀ m, m ≠ a → s.world.round m = none)
    (fun s h0 m _ => ?_) (fun s act s' hnone hg hs => ?_) hr).1
  · rw [h0.1]
    rfl
  · cases hs with
    | call ho hm => exact ⟨trivial, hnone⟩
    | @exec p c op k r w hp hx =>
      have ho : OnlyAt a s.world op := hg c op k hp
      refine ⟨fun c' op' k' hp' => ?_, exec_round ho hx hnone⟩
      rw [hp] at hp'
      cases hp'
      intro node hop m
      subst hop
      obtain rfl := ho node rfl
      by_cases hm : m = node
      · subst hm
        exact hx.1
      · exact hnone m hm
    | @ret p c o r hp =>
      cases o with
      | none => exact ⟨trivial, hrelease p _ hnone⟩
      | some o => cases o
    | drop hp => exact ⟨trivial, hrelease _ _ hnone⟩
    | kill => exact ⟨trivial, hrelease _ _ hnone⟩
    | power hw => exact absurd hw id

/-! ## Rounds that overlap -/

/-- A status request reaches a member whose mutex is free, and `v` lets it go. -/
structure Ready (S : Setup K) (w : World K) (v : Visit) (c : Request) (x : Proposal)
    (credential : Bytes) : Prop where
  kind : c.frame.1 = msgStatusRequest
  node : c.node < nMembers
  free : w.round c.node = none
  goes : Goes S w.current v c.frame.2 x credential
  answered : Answered x v.answers

section
variable {S : Setup K} {G : World K → Op → Prop} {v : Visit} {p : Nat} {w w' : World K}
  {procs : Nat → Proc Op (Ans K) Empty Request Frame} {c : Request}

theorem serve_statusRequest {node : Nat} {frame : Frame} (h : frame.1 = msgStatusRequest) :
    serve S node frame = onStatusRequest S node frame.2 := by
  have hne : msgStatusRequest ≠ msgProposal := by decide
  unfold serve
  rw [h, if_neg hne, if_pos rfl]

/-- The system does what a thread does on its own. -/
theorem reaches_thread {m m' : MlDsaProg K Frame} (h : (v.machine K).Runs G p m w m' w') :
    ((mlDsaDemo S).guard (Machine.NextWhere G)).Reaches
      ⟨w, Function.update procs p (.busy c (m.bind fun r => .ret (none, r)))⟩
      ⟨w', Function.update procs p (.busy c (m'.bind fun r => .ret (none, r)))⟩ := by
  refine Machine.reaches_runs_among ((h.mono fun _ _ _ _ hx => hx.2).bind _) fun op k w hq => ?_
  intro c' op' k' hp
  simp only [Function.update_self] at hp
  cases hp
  exact hq

/-- A thread is free again once it has replied. -/
theorem reaches_reply {reply : Frame} : ((mlDsaDemo S).guard (Machine.NextWhere G)).Reaches
    ⟨w, Function.update procs p (.busy c (.ret (none, reply)))⟩
    ⟨release p { w with returned := w.returned ++ [(c, reply)] },
      Function.update procs p .idle⟩ := Machine.reaches_returned trivial

theorem reaches_made (procs : Nat → Proc Op (Ans K) Empty Request Frame) {m : MlDsaProg K Frame}
    (hm : serve S c.node c.frame = m) (hn : c.node < nMembers) (hp : (procs p).object = some none) :
    ((mlDsaDemo S).guard (Machine.NextWhere G)).Reaches ⟨w, procs⟩
      ⟨w, Function.update procs p (.busy c (m.bind fun r => .ret (none, r)))⟩ := by
  refine Machine.reaches_busy ?_ hp trivial
  simp only [api, hn, if_true, hm]

/-- From what was read on, a request that goes is published. -/
theorem Goes.does {x : Proposal} {credential : Bytes} {stored : Option Bytes}
    {request : StatusRequest} (hgo : Goes S stored v c.frame.2 x credential)
    (hd : StatusRequest.decode c.frame.2 = some request) (ha : Answered x v.answers)
    (hk : K.Canonical) (hG : Lets G)
    (hc : ∀ u, u.writing = w.writing → G u (.shared (.storage (.create .tmp)))) :
    ∃ record w', v.Does G p (proceed S c.node request stored) w
        (msgStatusUpdated, StatusUpdated.encode ⟨x.version, credential⟩) w' ∧
      Accepted S record x.version x.list ∧ w'.current = some record ∧
      (∃ f, w'.placed = w.placed ++ [(f, record)]) ∧ Undisturbed w w' := by
  obtain ⟨hp, ht⟩ := hgo
  rcases does_proceed (S := S) (v := v) (p := p) (w := w) hk hG hc c.node hd
    (fun y credential' h => (hp.unique h).1 ▸ ha) with
    ⟨y, credential', record, w', hgo, hrun, hacc, hcur, hplaced, hu⟩ | ⟨hno, -⟩
  · obtain ⟨rfl, rfl⟩ := hp.unique hgo.1
    exact ⟨record, w', hrun, hacc, hcur, hplaced, hu⟩
  · exact absurd ⟨x, credential, hp, ht⟩ hno

theorem Goes.version_eq {x y : Proposal} {credential credential' payload payload' : Bytes}
    {stored : Option Bytes} {u : Visit} (h : Goes S stored u payload x credential)
    (h' : Goes S stored v payload' y credential') : x.version = y.version := by
  obtain ⟨⟨_, _, -, hn, -⟩, -⟩ := h
  obtain ⟨⟨_, _, -, hn', -⟩, -⟩ := h'
  exact (Prod.ext_iff.mp (Except.ok.inj (hn.symm.trans hn'))).1

/-- A thread that has read what is stored, inside the mutex. -/
def halfway (S : Setup K) (c : Request) (request : StatusRequest) (stored : Option Bytes) :
    Proc Op (Ans K) Empty Request Frame :=
  .busy c (Prog.bind (do
    let reply ← proceed S c.node request stored
    ask (.shared (.unlockRound c.node))
    return reply) fun reply => .ret (none, reply))

theorem Ready.reaches_halfway {x : Proposal} {credential : Bytes} {request : StatusRequest}
    (h : Ready S w v c x credential) (hd : StatusRequest.decode c.frame.2 = some request)
    (hG : Lets G) (hl : G w (.shared (.lockRound c.node)))
    (procs : Nat → Proc Op (Ans K) Empty Request Frame) (hp : (procs p).object = some none) :
    ((mlDsaDemo S).guard (Machine.NextWhere G)).Reaches ⟨w, procs⟩
      ⟨{ w with round := Function.update w.round c.node (some p) },
        Function.update procs p (halfway S c request w.current)⟩ := by
  set w₁ : World K := { w with round := Function.update w.round c.node (some p) }
  have hcur : v.Does G p (shared Demo.currentRecord) w₁ w₁.current w₁ := does_currentRecord hG
  have hread : (v.machine K).Runs G p (onStatusRequest S c.node c.frame.2) w
      (proceed S c.node request w.current >>= fun reply => do
        ask (.shared (.unlockRound c.node)); return reply) w₁ := by
    unfold onStatusRequest
    rw [hd]
    exact .step () hl ⟨trivial, h.free, rfl⟩ ((hcur.runs.bind _).bind _)
  have hmade := reaches_made (S := S) (G := G) (w := w) procs (serve_statusRequest h.kind) h.node hp
  exact hmade.trans (reaches_thread hread)

/-- It goes on from what it had read, whatever is stored by now. -/
theorem Goes.reaches {x : Proposal} {credential : Bytes} {stored : Option Bytes}
    {request : StatusRequest} (hgo : Goes S stored v c.frame.2 x credential)
    (hd : StatusRequest.decode c.frame.2 = some request) (ha : Answered x v.answers)
    (hk : K.Canonical) (hG : Lets G)
    (hc : ∀ u, u.writing = w.writing → G u (.shared (.storage (.create .tmp))))
    (procs : Nat → Proc Op (Ans K) Empty Request Frame) :
    ∃ record w', ((mlDsaDemo S).guard (Machine.NextWhere G)).Reaches
        ⟨w, Function.update procs p (halfway S c request stored)⟩
        ⟨release p { w' with
            round := Function.update w.round c.node none
            returned := w'.returned ++
              [(c, (msgStatusUpdated, StatusUpdated.encode ⟨x.version, credential⟩))] },
          Function.update procs p .idle⟩ ∧
      Accepted S record x.version x.list ∧ w'.current = some record ∧
      (∃ f, w'.placed = w.placed ++ [(f, record)]) ∧ Undisturbed w w' := by
  obtain ⟨record, w', hrun, hacc, hcur, hplaced, hu⟩ :=
    hgo.does (p := p) (w := w) hd ha hk hG hc
  refine ⟨record, w', ?_, hacc, hcur, hplaced, hu⟩
  rw [← hu.round]
  have hdoes := does_seq (f := fun reply => do
    ask (.shared (.unlockRound c.node)); return reply) hrun (does_unlock hG c.node _)
  refine (reaches_thread hdoes.runs).trans ?_
  exact reaches_reply (w := { w' with round := Function.update w'.round c.node none })

/-- Alone, it is acknowledged. -/
theorem Ready.reaches {x : Proposal} {credential : Bytes} (h : Ready S w v c x credential)
    (hk : K.Canonical) (hG : Lets G) (hl : G w (.shared (.lockRound c.node)))
    (hc : ∀ u, u.writing = w.writing → G u (.shared (.storage (.create .tmp))))
    (procs : Nat → Proc Op (Ans K) Empty Request Frame) (hp : (procs p).object = some none) :
    ∃ record w', ((mlDsaDemo S).guard (Machine.NextWhere G)).Reaches ⟨w, procs⟩
        ⟨release p { w' with returned := w'.returned ++
          [(c, (msgStatusUpdated, StatusUpdated.encode ⟨x.version, credential⟩))] },
          Function.update procs p .idle⟩ ∧
      Accepted S record x.version x.list ∧ w'.current = some record ∧
      (∃ f, w'.placed = w.placed ++ [(f, record)]) ∧ Undisturbed w w' := by
  obtain ⟨request, -, hd, -⟩ := h.goes.1
  obtain ⟨record, w', hr, hacc, hcur, hplaced, hu⟩ := h.goes.reaches (p := p)
    (w := { w with round := Function.update w.round c.node (some p) }) hd h.answered hk hG hc procs
  have hfree : Function.update (Function.update w.round c.node (some p)) c.node none = w.round := by
    rw [Function.update_idem, ← h.free, Function.update_eq_self]
  rw [hfree] at hr
  exact ⟨record, { w' with round := w.round }, (h.reaches_halfway hd hG hl procs hp).trans hr, hacc,
    hcur, hplaced, rfl, hu.unread, hu.returned, hu.quiet⟩

/-! ## Threads that stop -/

/-- Threads from `n` on have not started. -/
def Unstarted (n : Nat) (s : MlDsaSys K) : Prop :=
  ∀ r, n ≤ r → s.procs r = .idle ∧ s.world.writing r = false

theorem afterStorage_writing {q : Nat} (hq : q ≠ p) (v : Volume StorageName)
    (op : VolOp StorageName) (r : Except IoError (VolRes op)) :
    (w.afterStorage p v op r).writing q = w.writing q := by
  unfold World.afterStorage
  split <;> first | rfl | exact Function.update_of_ne hq ..

theorem exec_writing {op : Op} {r : Ans K op} (hx : exec p w op r w') {q : Nat} (hq : q ≠ p) :
    w'.writing q = w.writing q := by
  cases op with
  | shared op =>
    cases op with
    | storage op =>
      obtain ⟨v, -, rfl⟩ := hx
      exact afterStorage_writing hq v op r
    | lockRound node =>
      obtain ⟨-, rfl⟩ := hx
      rfl
    | unlockRound node =>
      obtain rfl : w' = _ := hx
      rfl
    | issue subject version node =>
      obtain rfl : w' = w := hx
      rfl
    | propose x =>
      obtain ⟨-, answers, -, rfl⟩ := hx
      rfl
    | _ => exact absurd hx id
  | recvTimeout rx =>
    cases r with
    | none =>
      obtain rfl : w' = w := hx
      rfl
    | some y =>
      obtain ⟨rest, -, rfl⟩ := hx
      rfl
  | sign node statement =>
    obtain rfl : w' = w := hx
    rfl

theorem Unstarted.update {n : Nat} {s : MlDsaSys K} (h : Unstarted n s)
    {x : Proc Op (Ans K) Empty Request Frame} (hw : ∀ q, q ≠ p → w.writing q = s.world.writing q) :
    Unstarted (max n (p + 1)) ⟨w, Function.update s.procs p x⟩ := by
  intro r hr
  have hn : n ≤ r := le_trans (le_max_left ..) hr
  have hp : p + 1 ≤ r := le_trans (le_max_right ..) hr
  have hne : r ≠ p := Nat.ne_of_gt hp
  exact ⟨(Function.update_of_ne hne ..).trans (h r hn).1, (hw r hne).trans (h r hn).2⟩

/-- Only so many threads have started. -/
theorem exists_unstarted {s : MlDsaSys K} (hr : (mlDsaDemo S).Reachable s) :
    ∃ n, Unstarted n s := by
  have hrelease : ∀ (p : Nat) (w : World K) q, q ≠ p → (release p w).writing q = w.writing q :=
    fun _ _ _ hq => Function.update_of_ne hq ..
  induction hr with
  | @init s h0 =>
    obtain ⟨hw, hprocs⟩ := h0
    exact ⟨0, fun r _ => by rw [hw, hprocs]; exact ⟨rfl, rfl⟩⟩
  | step a _ hs ih =>
    obtain ⟨n, ih⟩ := ih
    cases hs with
    | call ho hm => exact ⟨_, ih.update fun _ _ => rfl⟩
    | exec hp hx => exact ⟨_, ih.update fun _ hq => exec_writing hx hq⟩
    | @ret p c o r hp =>
      cases o with
      | none => exact ⟨_, ih.update (hrelease p _)⟩
      | some o => cases o
    | @drop p o hp => exact ⟨_, ih.update (hrelease p _)⟩
    | @kill p => exact ⟨_, ih.update (hrelease p _)⟩
    | power hw => exact absurd hw id

/-- What kills leave as it was. -/
structure Stopped (w w' : World K) : Prop where
  volume : w'.volume = w.volume
  placed : w'.placed = w.placed
  returned : w'.returned = w.returned
  round : ∀ node, w.round node = none → w'.round node = none

theorem Stopped.ready {x : Proposal} {credential : Bytes} (h : Stopped w w')
    (hr : Ready S w v c x credential) : Ready S w' v c x credential := by
  have hcur : w'.current = w.current := by
    unfold World.current
    rw [h.volume]
  exact ⟨hr.kind, hr.node, h.round _ hr.free, hcur ▸ hr.goes, hr.answered⟩

/-- All the threads that started are killed. -/
theorem reaches_stopped {n : Nat} {s : MlDsaSys K} (h : Unstarted n s) : ∃ w,
    ((mlDsaDemo S).guard (Machine.NextWhere G)).Reaches s ⟨w, fun _ => .idle⟩ ∧
      (∀ r, w.writing r = false) ∧ Stopped s.world w := by
  induction n generalizing s with
  | zero =>
    obtain ⟨w, procs⟩ := s
    obtain rfl : procs = fun _ => .idle := funext fun r => (h r (Nat.zero_le r)).1
    exact ⟨w, .refl, fun r => (h r (Nat.zero_le r)).2, rfl, rfl, rfl, fun _ => id⟩
  | succ n ih =>
    set s₁ : MlDsaSys K := ⟨release n s.world, Function.update s.procs n .idle⟩
    have hkill : ((mlDsaDemo S).guard (Machine.NextWhere G)).Reaches s s₁ :=
      .step (.kill n) ⟨trivial, .kill⟩
    have h₁ : Unstarted n s₁ := by
      intro r hr
      by_cases hrn : r = n
      · subst hrn
        exact ⟨Function.update_self .., Function.update_self ..⟩
      · have hlt : n + 1 ≤ r := by omega
        exact ⟨(Function.update_of_ne hrn ..).trans (h r hlt).1,
          (Function.update_of_ne hrn ..).trans (h r hlt).2⟩
    obtain ⟨w, hr, hquiet, hst⟩ := ih h₁
    refine ⟨w, hkill.trans hr, hquiet, hst.volume, hst.placed, hst.returned, fun node hn => ?_⟩
    refine hst.round node ?_
    simp [s₁, release, hn]

end

end

/-! ## Two updates of the ten -/

theorem ready_issued {w : World tenPrimitives} (node : Nat) (h : node < nMembers)
    (hfree : w.round node = none) (hcur : w.current = none) : Ready tenSetup w tenVisit
      ⟨node, (msgStatusRequest, Demo.issueRequest)⟩ Demo.demoIssued Demo.demoCredential :=
  ⟨rfl, h, hfree, ⟨proposes_issued _ hcur, quorum_ten fits_issued⟩, answered_ten fits_issued⟩

theorem ready_emptied {w : World tenPrimitives} (node : Nat) (h : node < nMembers)
    (hfree : w.round node = none) {record : Bytes} (hcur : w.current = some record)
    (hacc : Accepted tenSetup record 0 [Demo.demoEntry]) : Ready tenSetup w tenVisit
      ⟨node, (msgStatusRequest, Demo.revokeRequest)⟩ Demo.demoEmptied Demo.demoCredential :=
  ⟨rfl, h, hfree, ⟨hcur ▸ proposes_emptied hacc, quorum_ten fits_emptied⟩,
    answered_ten fits_emptied⟩

/-- The ten issue a credential at member 0 and revoke it at `node`. -/
theorem reachable_ten {G : World tenPrimitives → Op → Prop} (hG : Lets G) (node : Nat)
    (hn : node < nMembers)
    (hl : ∀ u n, n = 0 ∨ n = node → (∀ n, u.round n = none) → G u (.shared (.lockRound n)))
    (hc : ∀ u : World tenPrimitives, u.writing = (fun _ => false) →
      G u (.shared (.storage (.create .tmp)))) :
    ∃ s, ((mlDsaDemo tenSetup).guard (Machine.NextWhere G)).Reachable s ∧ s.world.unread = 0 ∧
      s.world.placed.length = 2 := by
  have h0 : ((mlDsaDemo tenSetup).guard (Machine.NextWhere G)).Reachable ⟨.start, fun _ => .idle⟩ :=
    .init ⟨rfl, rfl⟩
  obtain ⟨record, w₁, hr₁, hacc, hcur, ⟨f, hplaced⟩, hu⟩ :=
    (ready_issued (w := .start) 0 (by decide) rfl rfl).reaches (p := 0)
      tenPrimitives_canonical hG (hl _ 0 (.inl rfl) fun _ => rfl) hc (fun _ => .idle) rfl
  set w₂ : World tenPrimitives := release 0 { w₁ with returned := w₁.returned ++ _ } with hw₂
  have hfree : ∀ n, w₂.round n = none := by
    intro n
    show (if w₁.round n = some 0 then none else w₁.round n) = none
    rw [hu.round]
    rfl
  have hquiet : w₂.writing = fun _ => false := by
    funext q
    show Function.update w₁.writing 0 false q = false
    by_cases hq : q = 0
    · rw [hq, Function.update_self]
    · exact (Function.update_of_ne hq ..).trans (hu.quiet (fun _ => rfl) q)
  obtain ⟨record', w₃, hr₂, -, -, ⟨g, hplaced'⟩, hu'⟩ :=
    (ready_emptied (w := w₂) node hn (hfree node) hcur hacc).reaches (p := 0)
      tenPrimitives_canonical hG (hl w₂ node (.inr rfl) hfree)
      (fun u hw => hc u (hw.trans hquiet)) (Function.update (fun _ => .idle) 0 .idle)
      (by rw [Function.update_self]; rfl)
  refine ⟨_, (h0.reaches hr₁).reaches hr₂, hu'.unread.trans hu.unread, ?_⟩
  show w₃.placed.length = 2
  rw [hplaced', List.length_append, show w₂.placed = w₁.placed from rfl, hplaced]
  rfl

/-- Every record is genuine. In every reachable state in which no thread created the
temporary between the create and the rename of another, whatever the schedule, the
answers of the rounds, the failures of storage and the kills: every record that was
ever placed in storage, and the one that is there, is accepted by every relying party
of the anchor, lists no credential twice, and is one issuance or revocation away from
the empty list at version 0 or from a record that was placed with the version before;
and every update that was acknowledged was asked for and placed. -/
theorem records_genuine {K : Primitives} (hk : K.Canonical) (S : Setup K) (s : MlDsaSys K)
    (hr : ((mlDsaDemo S).guard (Machine.NextWhere (Apart .publications))).Reachable s) :
    (∀ x ∈ s.world.placed, ∃ version list, Genuine S s.world x.2 version list) ∧
    (∀ bytes, s.world.current = some bytes → ∃ x ∈ s.world.placed, x.2 = bytes) ∧
    ∀ e ∈ s.world.returned, ∀ u, acknowledged (some e.2) = some u → Kept S s.world e.1 u := by
  have hi := reachable_inv hk hr
  refine ⟨hi.genuine, fun bytes hb => ?_, hi.kept⟩
  obtain ⟨f, hf, rfl⟩ := Option.map_eq_some_iff.mp hb
  obtain ⟨bytes, hmem⟩ := hi.shelf.opened hf
  exact ⟨_, hmem, (hi.shelf.kept _ hmem).1.symm⟩

theorem records_genuine_ten : ∃ (w : World tenPrimitives) (first second : Nat × Bytes),
    w.placed = [first, second] ∧ (∃ version list, Genuine tenSetup w first.2 version list) ∧
    ∃ version list, Genuine tenSetup w second.2 version list := by
  obtain ⟨s, hr, -, hlen⟩ := reachable_ten (G := Apart .publications)
    (fun _ _ _ h h' => absurd h' h) 3 (by decide) (fun _ _ _ _ h => by cases h)
    fun u hu _ q => by rw [hu]
  obtain ⟨h, -, -⟩ := records_genuine tenPrimitives_canonical tenSetup s hr
  obtain ⟨first, second, hw⟩ := List.length_eq_two.mp hlen
  exact ⟨s.world, first, second, hw, h first (by simp [hw]), h second (by simp [hw])⟩

/-- Rounds that do not overlap lose nothing. In every reachable state in which no thread
took a `round` mutex while another held one of any node, and no stored record failed to
be read, the records are the versions 0, 1, 2, ..., each the one before with one request
applied; every acknowledged update is the record of its version; and no version was
acknowledged twice. -/
theorem rounds_linear {K : Primitives} (hk : K.Canonical) (S : Setup K) (s : MlDsaSys K)
    (hr : ((mlDsaDemo S).guard (Machine.NextWhere (Apart .rounds))).Reachable s)
    (h0 : s.world.unread = 0) : Linear S s.world := (reachable_inv hk hr).linear h0

theorem rounds_linear_ten : ∃ w : World tenPrimitives, Linear tenSetup w ∧ w.placed.length = 2 := by
  obtain ⟨s, hr, h0, hlen⟩ := reachable_ten (G := Apart .rounds)
    (fun _ _ h _ node h' => absurd h' (h node)) 3 (by decide) (fun _ _ _ hfree _ _ m => hfree m)
    fun _ _ _ h => by cases h
  exact ⟨s.world, rounds_linear tenPrimitives_canonical tenSetup s hr h0, hlen⟩

/-- One aggregator loses nothing. The same holds in every reachable state in which the
mutex of one member only was taken, by any number of threads. -/
theorem one_aggregator_linear {K : Primitives} (hk : K.Canonical) (S : Setup K) (a : Nat)
    (s : MlDsaSys K) (hr : ((mlDsaDemo S).guard (Machine.NextWhere (OnlyAt a))).Reachable s)
    (h0 : s.world.unread = 0) : Linear S s.world := (reachable_inv hk (reachable_apart hr)).linear h0

theorem one_aggregator_linear_ten : ∃ w : World tenPrimitives,
    Linear tenSetup w ∧ w.placed.length = 2 := by
  obtain ⟨s, hr, h0, hlen⟩ := reachable_ten (G := OnlyAt 0)
    (fun _ _ h _ node h' => absurd h' (h node)) 0 (by decide)
    (fun _ n hn _ m hm => by
      cases hm
      rcases hn with rfl | rfl <;> rfl)
    fun _ _ _ h => by cases h
  exact ⟨s.world, one_aggregator_linear tenPrimitives_canonical tenSetup 0 s hr h0, hlen⟩

/-- Nothing keeps the rounds of two members apart. If, in any reachable state, two requests
reach two members whose mutexes are free, and both can be turned into proposals from the
record in storage with seven valid answers each, then both proposals are for the same
version, and from that state there is a run in which both requests are acknowledged for
it, with the publications kept apart: the record in storage is the second one, with only
the second update in it. The run starts with a kill of the other threads, one of which may
be inside a publication. -/
theorem conflicting_updates {K : Primitives} (hk : K.Canonical) (S : Setup K) (s : MlDsaSys K)
    (hr : (mlDsaDemo S).Reachable s) (c d : Request) (hcd : c.node ≠ d.node) (u v : Visit)
    (x y : Proposal) (credential credential' : Bytes) (hc : Ready S s.world u c x credential)
    (hd : Ready S s.world v d y credential') :
    x.version = y.version ∧
    ∃ s', ((mlDsaDemo S).guard (Machine.NextWhere (Apart .publications))).Reaches s s' ∧
      s'.world.returned = s.world.returned ++
        [(c, (msgStatusUpdated, StatusUpdated.encode ⟨x.version, credential⟩)),
         (d, (msgStatusUpdated, StatusUpdated.encode ⟨y.version, credential'⟩))] ∧
      ∃ first second, Accepted S first x.version x.list ∧ Accepted S second y.version y.list ∧
        s'.world.current = some second ∧
        s'.world.placed.map Prod.snd = s.world.placed.map Prod.snd ++ [first, second] := by
  refine ⟨hc.goes.version_eq hd.goes, ?_⟩
  have hG : Lets (Apart (K := K) .publications) := fun _ _ _ h h' => absurd h' h
  have hlock : ∀ (w : World K) node, Apart .publications w (.shared (.lockRound node)) := by
    intro w node h
    cases h
  -- nobody is inside a publication
  obtain ⟨n, hn⟩ := exists_unstarted hr
  obtain ⟨w, hr₀, hquiet, hst⟩ := reaches_stopped (S := S) (G := Apart .publications) hn
  have hc := hst.ready hc
  have hd := hst.ready hd
  -- the second member reads what is stored, and waits
  obtain ⟨request, -, hdec, -⟩ := hd.goes.1
  have hr₁ := hr₀.trans
    (hd.reaches_halfway (p := 1) hdec hG (hlock w d.node) (fun _ => .idle) rfl)
  set w₁ : World K := { w with round := Function.update w.round d.node (some 1) } with hw₁
  -- the first one serves its request meanwhile
  have hc₁ : Ready S w₁ u c x credential :=
    ⟨hc.kind, hc.node, (Function.update_of_ne hcd ..).trans hc.free, hc.goes, hc.answered⟩
  obtain ⟨first, w₂, hr₂, hacc, -, ⟨f, hplaced⟩, hu⟩ := hc₁.reaches (p := 0) hk hG
    (hlock w₁ c.node) (fun u hu _ r => hu ▸ hquiet r)
    (Function.update (fun _ => .idle) 1 (halfway S d request w.current)) rfl
  rw [Function.update_comm (show (1 : Nat) ≠ 0 by decide)] at hr₂
  set w₃ : World K := release 0 { w₂ with returned := w₂.returned ++
    [(c, (msgStatusUpdated, StatusUpdated.encode ⟨x.version, credential⟩))] } with hw₃
  have hquiet₃ : ∀ r, w₃.writing r = false := by
    intro r
    show Function.update w₂.writing 0 false r = false
    by_cases h : r = 0
    · rw [h, Function.update_self]
    · exact (Function.update_of_ne h ..).trans (hu.quiet hquiet r)
  -- and the second one goes on from what it had read
  obtain ⟨second, w₄, hr₃, hacc', hcur, ⟨g, hplaced'⟩, hu'⟩ := hd.goes.reaches (p := 1) (w := w₃)
    hdec hd.answered hk hG (fun u hu _ r => hu ▸ hquiet₃ r) _
  refine ⟨_, (hr₁.trans hr₂).trans hr₃, ?_, first, second, hacc, hacc', hcur, ?_⟩
  · show w₄.returned ++ _ = _
    rw [hu'.returned]
    show (w₂.returned ++ _) ++ _ = _
    rw [hu.returned, List.append_assoc]
    show w.returned ++ _ = _
    rw [hst.returned]
    rfl
  · show w₄.placed.map Prod.snd = _
    rw [hplaced']
    show (w₂.placed ++ [(g, second)]).map Prod.snd = _
    rw [hplaced]
    simp [hw₁, hst.placed]

theorem conflicting_updates_ten : ∃ s, (mlDsaDemo tenSetup).Reachable s ∧ s.world.returned =
    [(⟨0, (msgStatusRequest, Demo.issueRequest)⟩, (msgStatusUpdated,
       StatusUpdated.encode ⟨0, Demo.demoCredential⟩)),
     (⟨1, (msgStatusRequest, Demo.issueRequest)⟩, (msgStatusUpdated,
       StatusUpdated.encode ⟨0, Demo.demoCredential⟩))] := by
  have h0 : (mlDsaDemo tenSetup).Reachable ⟨.start, fun _ => .idle⟩ := .init ⟨rfl, rfl⟩
  obtain ⟨-, s, hr, hret, -⟩ := conflicting_updates tenPrimitives_canonical tenSetup _ h0
    ⟨0, (msgStatusRequest, Demo.issueRequest)⟩
    ⟨1, (msgStatusRequest, Demo.issueRequest)⟩ (by decide) tenVisit tenVisit Demo.demoIssued
    Demo.demoIssued Demo.demoCredential Demo.demoCredential (ready_issued 0 (by decide) rfl rfl)
    (ready_issued 1 (by decide) rfl rfl)
  exact ⟨s, h0.reaches hr.of_guard, hret⟩

end Drot.L5.MlDsaDemo
