import Drot.L5System.DemoRuns

/-!
# Publication in the demo is linear

The two handlers keep the pact, whatever the other threads do between two of
their effects (`keeps_serveProposal`, `keeps_onStatusRequest`).

* `publication_linear`: in every reachable state the records placed in storage
  have versions 0, 1, 2, ..., each list is the one before it with one `add_valid`
  or `revoke` applied, and no list has a duplicate.
-/
namespace Drot.L5.Demo
open Bytes Ssz Bitmap Text L1.Message L3.Protocol L4.RawVerifier L2.SlotCounter Prog

section
variable {H : Hashes} {S : Setup H} {w w' w'' : World} {p rx : Nat}

/-! ## The member keeps the pact -/

section Rules
variable {α β : Type} {Q : α → World → Prop}

theorem keeps_ask {op : DemoOp} {k : DemoAns op → DemoProg α}
    (h : ∀ w₁, Relies p w w₁ → Inv S w₁ → ∀ r w₂, exec p w₁ op r w₂ →
      Inv S w₂ ∧ Guarantee p w₁ w₂ ∧ machine.keeps (pact S) p (k r) Q w₂) :
    machine.keeps (pact S) p (ask op >>= k) Q w := Machine.keeps_perform h

theorem keeps_seq {m : DemoProg β} {f : β → DemoProg α} (hi : Inv S w)
    (h : machine.keeps (pact S) p m
      (fun b w' => Inv S w' → machine.keeps (pact S) p (f b) Q w') w) :
    machine.keeps (pact S) p (m >>= f) Q w := Machine.keeps_bind hi h

theorem keeps_return {a : α} (h : ∀ w', Relies p w w' → Inv S w' → Q a w') :
    machine.keeps (pact S) p (pure a) Q w := Machine.keeps_ret h

end Rules

/-- What a thread finds under the published name was placed there. -/
def ReadFrom (w : World) (o : Option Bytes) : Prop :=
  ∀ bytes, o = some bytes → ∃ (k : Nat) (x : Nat × Bytes), w.history[k]? = some x ∧ x.2 = bytes

theorem ReadFrom.grows {o : Option Bytes} (h : ReadFrom w o) (hg : Grows w w') : ReadFrom w' o := by
  intro bytes ho
  obtain ⟨k, x, hk, hx⟩ := h bytes ho
  exact ⟨k, x, getElem?_of_prefix hg.history hk, hx⟩

/-- Reading changes nothing. A file that was opened under the published name still
has the content it was published with. -/
theorem keeps_currentRecord {F : World → Prop} (hF : ∀ w w', Relies p w w' → F w → F w')
    (h : F w) : machine.keeps (pact S) p currentRecord (fun o w' => F w' ∧ ReadFrom w' o) w := by
  have hnone : ∀ w, ReadFrom w none := fun w bytes he => by cases he
  apply keeps_ask
  intro w₁ hr₁ hi₁ r w₂ hx
  obtain ⟨v, hv, rfl⟩ := hx
  cases r with
  | error e =>
    obtain rfl : v = w₁.volume := hv
    exact ⟨hi₁, .refl, fun w' hr' _ => ⟨hF _ _ hr' (hF _ _ hr₁ h), hnone w'⟩⟩
  | ok f =>
    obtain ⟨hdir, rfl⟩ := hv
    refine ⟨hi₁, .refl, ?_⟩
    apply keeps_ask
    intro w₃ hr₃ hi₃ r w₄ hx
    obtain ⟨v, hv, rfl⟩ := hx
    have hF₃ : F w₃ := hF _ _ hr₃ (hF _ _ hr₁ h)
    cases r with
    | error e =>
      obtain rfl : v = w₃.volume := hv
      exact ⟨hi₃, .refl, fun w' hr' _ => ⟨hF _ _ hr' hF₃, hnone w'⟩⟩
    | ok bytes =>
      obtain ⟨hbytes, rfl⟩ := hv
      refine ⟨hi₃, .refl, fun w' hr' _ => ⟨hF _ _ hr' hF₃, ?_⟩⟩
      have hread : ReadFrom w₃ (some bytes) := by
        intro b hb
        cases hb
        obtain ⟨k, hk⟩ := List.mem_iff_getElem?.mp
          (hi₁.shelf.reads hdir hr₃.grows.history hi₃.shelf)
        exact ⟨k, _, hk, hbytes.symm⟩
      exact hread.grows hr'.grows

theorem checkedSucc_toNat {v next : UInt32} (h : checkedSucc v = some next) :
    next.toNat = v.toNat + 1 := by
  unfold checkedSucc at h
  split at h
  · rename_i hlt
    cases h
    rw [UInt32.toNat_add]
    exact Nat.mod_eq_of_lt hlt
  · cases h

/-- The next snapshot starts from the version before it. -/
theorem nextSnapshot_base {o : Option Bytes} {version : UInt32} {list : List Entry} (hi : Inv S w)
    (hr : ReadFrom w o) (h : nextSnapshot S.mode o = .ok (version, list)) :
    Base S w.history version.toNat list := by
  cases o with
  | none =>
    cases h
    exact .inl ⟨rfl, rfl⟩
  | some bytes =>
    obtain ⟨k, x, hk, rfl⟩ := hr bytes rfl
    obtain ⟨-, -, prop, -, -, hv, hd⟩ := hi.chain k x hk
    simp only [nextSnapshot, hd] at h
    cases hc : checkedSucc prop.version with
    | none => rw [hc] at h; cases h
    | some next =>
      rw [hc] at h
      cases h
      refine .inr ⟨k, x, prop.version, ?_, hk, hd⟩
      rw [checkedSucc_toNat hc, hv]

theorem expectedVersion_le {o : Option Bytes} {version : UInt32} (hi : Inv S w)
    (hr : ReadFrom w o) (h : expectedVersion S.mode o = .ok version) :
    version.toNat ≤ w.history.length := by
  cases o with
  | none =>
    cases h
    exact Nat.zero_le _
  | some bytes =>
    obtain ⟨k, x, hk, rfl⟩ := hr bytes rfl
    obtain ⟨-, -, prop, -, -, hv, hd⟩ := hi.chain k x hk
    have hlt := (List.getElem?_eq_some_iff.mp hk).1
    simp only [expectedVersion, hd] at h
    cases hc : checkedSucc prop.version with
    | none => rw [hc] at h; cases h
    | some next =>
      rw [hc] at h
      cases h
      rw [checkedSucc_toNat hc, hv]
      omega

/-- A frame with a signature in it answers a vote. -/
def Answers (w : World) (rx i : Nat) (frame : Frame) : Prop :=
  frame.2.length ≤ maxFrame → ∀ signature, replySignature frame.1 frame.2 = some signature →
    HasVote w rx i

theorem answers_abstain (w : World) (rx i : Nat) (reason : String) :
    Answers w rx i (abstain reason) := by
  intro hlen signature hs
  rw [replySignature_abstain hlen] at hs
  cases hs

theorem keeps_onProposal {i : Nat} {x : Proposal} (hi : Inv S w) (hs : Serving p rx i x w) :
    machine.keeps (pact S) p (onProposal S i x.encode)
      (fun frame w' => Serving p rx i x w' ∧ Answers w' rx i frame) w := by
  unfold onProposal
  rw [Proposal.decode_encode hs.sent]
  refine keeps_seq hi (Machine.keeps_mono
    (keeps_currentRecord (fun _ _ hr h => Serving.relies h hr) hs) ?_)
  intro o w₁ hpre hi₁
  obtain ⟨hs₁, hread⟩ := hpre
  have habstain : ∀ reason, machine.keeps (pact S) p (pure (abstain reason))
      (fun frame w' => Serving p rx i x w' ∧ Answers w' rx i frame) w₁ := fun reason =>
    keeps_return fun w' hr _ => ⟨hs₁.relies hr, answers_abstain w' rx i reason⟩
  cases he : expectedVersion S.mode o with
  | error why => exact habstain _
  | ok expected =>
    dsimp only
    split
    · exact habstain _
    · rename_i hne
      have hv : x.version = expected := not_not.mp hne
      cases hslot : S.committee.slotFor x.version with
      | none => exact habstain _
      | some slot =>
        dsimp only
        apply keeps_ask
        intro w₂ hr₂ hi₂ r w₃ hx
        have hle : x.version.toNat ≤ w₂.history.length := by
          rw [hv]
          exact expectedVersion_le hi₂ (hread.grows hr₂.grows) he
        have hs₂ := hs₁.relies hr₂
        obtain ⟨hi₃, hg₃, hvote⟩ := effect_signAt hi₂ hs₂ hslot hle hx
        have hstream : w₃.stream p = w₂.stream p := by
          cases r with
          | error e => rcases hx with rfl | ⟨-, next, -, -, rfl⟩ <;> rfl
          | ok sig => obtain ⟨-, rfl⟩ := hx; rfl
        have hs₃ := hs₂.grows hg₃.grows hstream
        refine ⟨hi₃, hg₃, ?_⟩
        cases r with
        | error e =>
          exact keeps_return fun w' hr _ => ⟨hs₃.relies hr, answers_abstain w' rx i e⟩
        | ok sig =>
          refine keeps_return fun w' hr _ => ⟨hs₃.relies hr, fun _ _ _ => ?_⟩
          exact (hvote sig rfl).grows hr.grows

theorem keeps_serveProposal (w : World) (i : Nat) :
    machine.keeps (pact S) p (serveProposal S i) (fun _ _ => True) w := by
  apply keeps_ask
  intro w₁ hr₁ hi₁ payload w₂ hx
  obtain ⟨hi₂, hg₂, rx, x, hs, rfl⟩ := effect_accept hi₁ hx
  refine ⟨hi₂, hg₂, keeps_seq hi₂ (Machine.keeps_mono (keeps_onProposal hi₂ hs) ?_)⟩
  intro frame w₃ hpre hi₃
  obtain ⟨hs₃, ha⟩ := hpre
  apply keeps_ask
  intro w₄ hr₄ hi₄ r w₅ hx
  obtain ⟨hi₅, hg₅⟩ := effect_send hi₄ (hs₃.relies hr₄)
    (fun hlen sig hsig => (ha hlen sig hsig).grows hr₄.grows) hx
  exact ⟨hi₅, hg₅, keeps_return fun _ _ _ => trivial⟩

/-! ## The aggregator keeps the pact -/

/-- Round `rx` of thread `p` has a quorum for the version that is due. -/
structure Entitled (p rx : Nat) (x : Proposal) (w : World) : Prop where
  opened : Opened w rx p x
  quorate : Quorate w rx
  due : x.version.toNat = w.history.length

theorem Entitled.holder {x : Proposal} (h : Entitled p rx x w) : Holder p w :=
  ⟨rx, x, h.opened, h.quorate, h.due⟩

theorem Entitled.relies {x : Proposal} (h : Entitled p rx x w) (hr : Relies p w w') :
    Entitled p rx x w' := by
  obtain ⟨-, hh⟩ := hr.volume h.holder
  exact ⟨h.opened.grows hr.grows, h.quorate.grows hr.grows, by rw [hh]; exact h.due⟩

/-- A quorum is made of votes, and votes of proposals that were sent. -/
theorem Inv.sent {x : Proposal} (hi : Inv S w) (hx : Opened w rx p x) (h : Quorate w rx) :
    x.encode.length ≤ maxFrame ∧ x.version.toNat ≤ w.history.length := by
  obtain ⟨A, hA, ht, hv⟩ := h
  have hpos : 0 < A.card := lt_of_lt_of_le (by decide) ht
  obtain ⟨i, hiA⟩ := Finset.card_pos.mp hpos
  obtain ⟨a, ha, ham, has⟩ := hv i hiA
  obtain ⟨r, q, z, hr, hz, -, hlen, hle⟩ := (hi.cast a ha).round
  rw [has, ham] at hr
  cases hr
  obtain ⟨-, rfl⟩ := hz.unique hx
  exact ⟨hlen, hle⟩

/-! ### Publishing -/

theorem Inv.setVolume {v : Volume StorageName} (hi : Inv S w)
    (hs : v.Shelf .tmp .currentRecord w.history) : Inv S { w with volume := v } :=
  hi.frame ⟨fun _ hx => hx, List.prefix_rfl, List.prefix_rfl, fun _ _ hd => hd⟩ rfl rfl rfl
    hi.counters hs hi.links

theorem Entitled.guarantee {x : Proposal} (h : Entitled p rx x w) (v : Volume StorageName) :
    Guarantee p w { w with volume := v } :=
  ⟨⟨fun _ hx => hx, List.prefix_rfl, List.prefix_rfl, fun _ _ hd => hd⟩, fun _ _ => rfl,
    .inr ⟨h.holder, Nat.le_succ _⟩⟩

/-- The record of an entitled round takes its place. -/
theorem Entitled.place {x : Proposal} {f : Nat} {record : Bytes} (hi : Inv S w)
    (he : Entitled p rx x w) (hdir : w.volume.dir .tmp = some f)
    (hino : w.volume.inode f = record)
    (hd : decodeList S.mode record = .ok (x.version, x.list)) {w' : World}
    (hw' : w' = { w with volume := w.volume.renamed .tmp .currentRecord f
                         history := w.history ++ [(f, record)] }) :
    Inv S w' ∧ Guarantee p w w' := by
  subst hw'
  have hlen : (w.history ++ [(f, record)]).length = w.history.length + 1 := by simp
  have hg : Grows w { w with volume := w.volume.renamed .tmp .currentRecord f
                             history := w.history ++ [(f, record)] } :=
    ⟨fun _ hx => hx, List.prefix_append _ _, List.prefix_rfl, fun _ _ hd => hd⟩
  have hshelf := hi.shelf.rename (by decide) hdir
  rw [hino] at hshelf
  refine ⟨⟨fun y hy => (hi.cast y hy).grows hg (le_refl _), hi.once,
    fun r i => (hi.links r i).grows hg, fun r q prop ho => (hi.planned r q prop ho).grows hg,
    fun i => ?_, hshelf, fun k y hk => ?_⟩, hg, fun _ _ => rfl, .inr ⟨he.holder, hlen.le⟩⟩
  · have := hi.behind i
    show (w.counter i).toNat ≤ _ + (w.history ++ [(f, record)]).length + 1
    omega
  · have hk' : (w.history ++ [(f, record)])[k]? = some y := hk
    by_cases hlt : k < w.history.length
    · rw [List.getElem?_append_left hlt] at hk'
      exact (hi.chain k y hk').grows hg
    · have hbound := (List.getElem?_eq_some_iff.mp hk').1
      obtain rfl : k = w.history.length := by omega
      rw [List.getElem?_append_right (le_refl _)] at hk'
      simp only [Nat.sub_self, List.getElem?_cons_zero, Option.some.injEq] at hk'
      subst hk'
      exact ⟨rx, p, x, he.opened, he.quorate, he.due, hd⟩

theorem Entitled.setVolume {x : Proposal} (h : Entitled p rx x w) (v : Volume StorageName) :
    Entitled p rx x { w with volume := v } := ⟨h.opened, h.quorate, h.due⟩

theorem afterStorage_volume (w : World) (v : Volume StorageName) (op : VolOp StorageName)
    (r : Except IoError (VolRes op)) : (w.afterStorage v op r).volume = v := by
  unfold World.afterStorage
  split <;> rfl

theorem afterStorage_renamed (w : World) (f : Nat) :
    w.afterStorage (w.volume.renamed .tmp .currentRecord f) (.rename .tmp .currentRecord) (.ok ()) =
      { w with volume := w.volume.renamed .tmp .currentRecord f
               history := w.history ++ [(f, w.volume.inode f)] } := by
  have hdir : (w.volume.renamed .tmp .currentRecord f).dir .currentRecord = some f := by
    simp [Volume.renamed]
  simp only [World.afterStorage, hdir, Option.map_some, Option.toList_some]
  rfl

/-- The thread of an entitled round may put its record in place. -/
def Entitled.placer (S : Setup H) (p rx : Nat) {x : Proposal} {record : Bytes}
    (hd : decodeList S.mode record = .ok (x.version, x.list)) :
    Volume.Placer (machine.seen .storage fun _ r => r) (pact S) p .tmp .currentRecord record where
  volume w := w.volume
  placed w := w.history
  ready := Entitled p rx x
  begun := Entitled p rx x
  written := Entitled p rx x
  failed _ := True
  done _ := True
  exec hx := by
    obtain ⟨_, rfl, v, hv, rfl⟩ := hx
    rw [afterStorage_volume]
    exact hv
  shelf hi := hi.shelf
  ready_rely h hr := h.relies hr
  begun_rely h hr := ⟨h.relies hr, (hr.volume h.holder).1⟩
  written_rely h hr := ⟨h.relies hr, (hr.volume h.holder).1⟩
  failed_rely _ _ := trivial
  done_rely _ _ := trivial
  create hi h hx hs := by
    obtain ⟨_, rfl, v, -, rfl⟩ := hx
    exact ⟨hi.setVolume hs, h.guarantee v, fun _ _ => trivial, fun _ _ => h.setVolume v⟩
  write hi h hx hs := by
    obtain ⟨_, rfl, v, -, rfl⟩ := hx
    exact ⟨hi.setVolume hs, h.guarantee v, fun _ _ => trivial, fun _ _ => h.setVolume v⟩
  sync hi h hx := by
    obtain ⟨_, rfl, v, hv, rfl⟩ := hx
    obtain rfl : v = _ := hv
    exact ⟨hi, .refl, fun _ _ => trivial, fun _ _ => h⟩
  rename hi h hx := by
    obtain ⟨_, rfl, v, hv, rfl⟩ := hx
    obtain rfl : v = _ := hv
    exact ⟨hi, .refl, trivial⟩
  place {w f w'} hi h hdir hino hx := by
    obtain ⟨_, rfl, v, ⟨i, hi', rfl⟩, rfl⟩ := hx
    obtain rfl : i = f := Option.some.inj (hi'.symm.trans hdir)
    obtain ⟨hi₂, hg₂⟩ := h.place hi hdir hino hd (hino ▸ afterStorage_renamed w i)
    exact ⟨hi₂, hg₂, trivial⟩
  syncDir hi _ hx := by
    obtain ⟨_, rfl, v, hv, rfl⟩ := hx
    obtain rfl : v = _ := hv
    exact ⟨hi, .refl, trivial⟩

theorem keeps_publish {x : Proposal} {record : Bytes} (he : Entitled p rx x w)
    (hd : decodeList S.mode record = .ok (x.version, x.list)) :
    machine.keeps (pact S) p (publish record).run (fun _ _ => True) w := by
  rw [publish_within]
  have h := (Entitled.placer S p rx hd).keeps_replace (by decide) he
  exact Machine.keeps_within (Machine.keeps_mono h fun _ _ _ => trivial)

/-! ### Collecting -/

/-- The signatures counted so far come from different members, over connections
that have delivered. -/
structure Counted (rx : Nat) (quorum : List (Nat × XmssSignature)) (w : World) : Prop where
  distinct : (quorum.map Prod.fst).Nodup
  votes : ∀ y ∈ quorum, y.1 < nMembers ∧ w.link rx y.1 = .delivered ∧ HasVote w rx y.1

theorem Counted.grows {quorum : List (Nat × XmssSignature)} (h : Counted rx quorum w)
    (hg : Grows w w') : Counted rx quorum w' := by
  refine ⟨h.distinct, fun y hy => ?_⟩
  obtain ⟨hlt, hd, hv⟩ := h.votes y hy
  exact ⟨hlt, hg.delivered rx y.1 hd, hv.grows hg⟩

/-- A signature over a connection that had not delivered is a new one. -/
theorem Counted.push {quorum : List (Nat × XmssSignature)} {i : Nat} {signature : XmssSignature}
    (h : Counted rx quorum w) (hg : Grows w w') (hlt : i < nMembers) (hv : HasVote w' rx i)
    (hnew : w.link rx i ≠ .delivered) (hd : w'.link rx i = .delivered) :
    Counted rx (quorum ++ [(i, signature)]) w' := by
  refine ⟨?_, fun y hy => ?_⟩
  · rw [List.map_append, List.nodup_append]
    refine ⟨h.distinct, List.nodup_singleton _, ?_⟩
    intro a ha b hb heq
    obtain ⟨y, hy, rfl⟩ := List.mem_map.mp ha
    rw [List.mem_singleton.mp hb] at heq
    have hi : y.1 = i := heq
    exact hnew (hi ▸ (h.votes y hy).2.1)
  · rcases List.mem_append.mp hy with hy | hy
    · exact (h.grows hg).votes y hy
    · rw [List.mem_singleton.mp hy]
      exact ⟨hlt, hd, hv⟩

theorem Counted.quorate {quorum : List (Nat × XmssSignature)} (h : Counted rx quorum w)
    (ht : threshold ≤ quorum.length) : Quorate w rx := by
  refine ⟨(quorum.map Prod.fst).toFinset, fun i hi => ?_, ?_, fun i hi => ?_⟩
  · obtain ⟨y, hy, rfl⟩ := List.mem_map.mp (List.mem_toFinset.mp hi)
    exact Finset.mem_range.mpr (h.votes y hy).1
  · rw [List.toFinset_card_of_nodup h.distinct, List.length_map]
    exact ht
  · obtain ⟨y, hy, rfl⟩ := List.mem_map.mp (List.mem_toFinset.mp hi)
    exact (h.votes y hy).2.2

/-- Thread `p` is collecting for its round `rx`. -/
structure Collecting (p rx : Nat) (x : Proposal) (quorum : List (Nat × XmssSignature)) (w : World) :
    Prop where
  opened : Opened w rx p x
  unpublished : ¬ Published w rx
  counted : Counted rx quorum w

theorem Collecting.relies {x : Proposal} {quorum : List (Nat × XmssSignature)}
    (h : Collecting p rx x quorum w) (hr : Relies p w w') : Collecting p rx x quorum w' :=
  ⟨h.opened.grows hr.grows, fun hp => h.unpublished (hr.mine rx x h.opened hp),
    h.counted.grows hr.grows⟩

theorem keeps_collect (message : Blob 32) (slot : UInt32) {x : Proposal} (senders : Nat)
    {quorum : List (Nat × XmssSignature)} {w : World} (hc : Collecting p rx x quorum w) :
    machine.keeps (pact S) p (collect S message slot rx senders quorum)
      (fun quorum' w' => Collecting p rx x quorum' w') w := by
  induction senders generalizing quorum w with
  | zero => exact keeps_return fun w' hr _ => hc.relies hr
  | succ senders ih =>
    unfold collect
    split
    · exact keeps_return fun w' hr _ => hc.relies hr
    · apply keeps_ask
      intro w₁ hr₁ hi₁ r w₂ hx
      have hc₁ := hc.relies hr₁
      cases r with
      | none =>
        obtain rfl : w₂ = w₁ := hx
        exact ⟨hi₁, .refl, keeps_return fun w' hr _ => hc₁.relies hr⟩
      | some y =>
        obtain ⟨i, signature⟩ := y
        obtain ⟨hi₂, hg₂, hlt, hv, hnew, hd⟩ := effect_recv hi₁ hx
        have hpub : ¬ Published w₂ rx := by
          obtain ⟨_, _, _, _, rfl⟩ := hx
          exact hc₁.unpublished
        have hsame : Collecting p rx x quorum w₂ :=
          ⟨hc₁.opened.grows hg₂.grows, hpub, hc₁.counted.grows hg₂.grows⟩
        refine ⟨hi₂, hg₂, ?_⟩
        dsimp only
        split
        · exact keeps_return fun w' hr _ => hsame.relies hr
        · split
          · exact ih ⟨hsame.opened, hpub, hc₁.counted.push hg₂.grows hlt hv hnew hd⟩
          · exact ih hsame

theorem keeps_collectSignatures {x : Proposal} (hp : Planned S w.history x) :
    machine.keeps (pact S) p (collectSignatures S x)
      (fun o w' => ∀ quorum, o = some quorum → ∃ rx, Collecting p rx x quorum w') w := by
  unfold collectSignatures
  dsimp only
  split
  · exact keeps_return fun w' _ _ => nofun
  · rename_i slot _
    apply keeps_ask
    intro w₁ hr₁ hi₁ rx w₂ hx
    obtain ⟨hi₂, hg₂, ho, hn⟩ := effect_propose hi₁ (hp.grows hr₁.grows) hx
    have hc : Collecting p rx x [] w₂ := ⟨ho, hn, List.nodup_nil, fun y hy => by cases hy⟩
    refine ⟨hi₂, hg₂, keeps_seq hi₂ (Machine.keeps_mono (keeps_collect _ slot nMembers hc) ?_)⟩
    intro quorum w₃ hc₃ _
    refine keeps_return fun w' hr _ quorum' hq => ?_
    cases hq
    exact ⟨rx, hc₃.relies hr⟩

/-! ### The record -/

/-- A built record reads back as what was proposed. -/
theorem decodeList_new {list : List Entry} {version : UInt32} {quorum : List (Nat × XmssSignature)}
    {record : Bytes} (hlen : 32 * list.length ≤ maxFrame)
    (h : (StatusList.new .wotsXmss list version nMembers quorum).map StatusList.toBytes = .ok record) :
    decodeList .raw record = .ok (version, list) := by
  cases hnew : StatusList.new .wotsXmss list version nMembers quorum with
  | error e => rw [hnew] at h; cases h
  | ok r =>
    rw [hnew] at h
    cases h
    obtain ⟨hd, hlt, hn⟩ := StatusList.of_new_ok hnew
    obtain ⟨r', hr', -, hlist, hver, hslots, -, hsigs⟩ :=
      statusList_new_ok .wotsXmss list version hn hd hlt
    obtain rfl : r' = r := Except.ok.inj (hr'.symm.trans hnew)
    have hsub : (quorum.map Prod.fst) ⊆ List.range nMembers := by
      intro i hi
      obtain ⟨y, hy, rfl⟩ := List.mem_map.mp hi
      exact List.mem_range.mpr (hlt y hy)
    have hq : quorum.length ≤ nMembers := by
      have := (List.subperm_of_subset hd hsub).length_le
      rwa [List.length_map, List.length_range] at this
    have hsn : r'.signatures.length = quorum.length := by
      rw [hsigs, List.length_map, (sortPairs_perm quorum).length_eq]
    have hbytes : r'.toBytes.length < 2 ^ 32 := by
      have hwire := r'.wire.length_encode
      have hbits : r'.wire.signers.bits.length = nMembers := hslots
      have hl : r'.wire.statusList.length = list.length := by rw [← hlist]; rfl
      have hs : r'.wire.signatures.length = quorum.length := hsn
      rw [hbits, hl, hs] at hwire
      show r'.wire.encode.length < 2 ^ 32
      unfold nMembers at hwire hq
      unfold maxFrame at hlen
      omega
    show (StatusList.fromBytes r'.toBytes).map _ = _
    rw [StatusList.fromBytes_toBytes (StatusList.signerCount_of_new hnew) hbytes]
    show Except.ok (r'.version, r'.statusList) = _
    rw [hver, hlist]

theorem decodeList_snark {list : List Entry} (version : UInt32) (proof : ProofBytes)
    (hlen : 32 * list.length ≤ maxFrame) :
    decodeList .snark (SnarkStatusList.toBytes ⟨.wotsXmss, list, version, proof.1⟩) =
      .ok (version, list) := by
  set r : SnarkStatusList := ⟨.wotsXmss, list, version, proof.1⟩
  have hbytes : r.toBytes.length < 2 ^ 32 := by
    have hp := proof.2
    unfold SnarkStatusList.toBytes encodeFields
    rw [List.length_append, length_header _ _ r.fits_wireFields]
    simp only [SnarkStatusList.wireFields, fixedLen, List.map_cons, List.map_nil, Shape.width,
      List.sum_cons, List.sum_nil, varParts, List.flatten_cons, List.flatten_nil,
      List.length_append, length_encodeVec, List.length_nil, r]
    unfold maxFrame at hlen
    omega
  show (SnarkStatusList.fromBytes r.toBytes).map _ = _
  rw [SnarkStatusList.fromBytes_toBytes hbytes]
  rfl

theorem keeps_buildRecord {F : World → Prop} (hF : ∀ w w', Relies p w w' → F w → F w') (h : F w)
    (node : Nat) {list : List Entry} (version : UInt32) (quorum : List (Nat × XmssSignature))
    (hlen : 32 * list.length ≤ maxFrame) :
    machine.keeps (pact S) p (buildRecord S node list version quorum)
      (fun o w' => F w' ∧ ∀ record, o = some (.ok record) →
        decodeList S.mode record = .ok (version, list)) w := by
  unfold buildRecord
  cases hm : S.mode with
  | raw =>
    refine keeps_return fun w' hr _ => ⟨hF _ _ hr h, fun record ho => ?_⟩
    exact decodeList_new hlen (Option.some.inj ho)
  | snark =>
    dsimp only
    split
    · apply keeps_ask
      intro w₁ hr₁ hi₁ r w₂ hx
      obtain rfl : w₂ = w₁ := hx
      refine ⟨hi₁, .refl, ?_⟩
      cases r with
      | none => exact keeps_return fun w' hr _ => ⟨hF _ _ hr (hF _ _ hr₁ h), nofun⟩
      | some proof =>
        refine keeps_return fun w' hr _ => ⟨hF _ _ hr (hF _ _ hr₁ h), fun record ho => ?_⟩
        cases ho
        exact decodeList_snark version proof hlen
    · exact keeps_return fun w' hr _ => ⟨hF _ _ hr h, nofun⟩

theorem keeps_done (r : Reply) : machine.keeps (pact S) p (pure r) (fun _ _ => True) w :=
  keeps_return fun _ _ _ => trivial

theorem keeps_finishRound (node : Nat) {version : UInt32} {list : List Entry} (credential : Bytes)
    {quorum : List (Nat × XmssSignature)} (hi : Inv S w)
    (hc : Collecting p rx ⟨version, list⟩ quorum w) :
    machine.keeps (pact S) p (finishRound S node version list credential (some quorum))
      (fun _ _ => True) w := by
  unfold finishRound
  dsimp only
  split
  · exact keeps_done _
  · rename_i ht
    -- a quorum, so the round is entitled to publish
    have hq := hc.counted.quorate (not_lt.mp ht)
    obtain ⟨hsent, hle⟩ := hi.sent hc.opened hq
    have hdue : version.toNat = w.history.length := by
      by_contra hne
      exact hc.unpublished ⟨p, _, hc.opened, hq, lt_of_le_of_ne hle hne⟩
    have he : Entitled p rx ⟨version, list⟩ w := ⟨hc.opened, hq, hdue⟩
    have hlen : 32 * list.length ≤ maxFrame := by
      have hl := Proposal.length_encode ⟨version, list⟩
      rw [hl] at hsent
      exact le_trans (Nat.le_add_left _ _) hsent
    refine keeps_seq hi (Machine.keeps_mono
      (keeps_buildRecord (fun _ _ hr h => Entitled.relies h hr) he node version quorum hlen) ?_)
    intro built w₁ hpost hi₁
    obtain ⟨he₁, hrecord⟩ := hpost
    match built with
    | none => exact keeps_done _
    | some (.error e) => exact keeps_done _
    | some (.ok record) =>
      refine keeps_seq hi₁ (Machine.keeps_mono (keeps_publish he₁ (hrecord record rfl)) ?_)
      intro r w₂ _ _
      cases r with
      | error e => exact keeps_done _
      | ok u => exact keeps_done _

theorem keeps_runRound (node : Nat) {version : UInt32} {list : List Entry} (credential : Bytes)
    (hi : Inv S w) (hp : Planned S w.history ⟨version, list⟩) :
    machine.keeps (pact S) p (runRound S node version list credential) (fun _ _ => True) w := by
  refine keeps_seq hi (Machine.keeps_mono (keeps_collectSignatures hp) ?_)
  intro o w₁ hpost hi₁
  cases o with
  | none => exact keeps_done _
  | some quorum =>
    obtain ⟨rx, hc⟩ := hpost quorum rfl
    exact keeps_finishRound node credential hi₁ hc

/-! ### One update -/

theorem keeps_applyRequest {F : World → Prop} (hF : ∀ w w', Relies p w w' → F w → F w') (h : F w)
    (node : Nat) (request : StatusRequest) (version : UInt32) (list : List Entry) :
    machine.keeps (pact S) p (applyRequest (H := H) node request version list)
      (fun o w' => F w' ∧ ∀ list' credential, o = .ok (list', credential) →
        Update H.sha3 list list') w := by
  have hstop : ∀ r : Reply, machine.keeps (pact S) p
      (pure (.error r) : DemoProg (Except Reply (List Entry × Bytes)))
      (fun o w' => F w' ∧ ∀ list' credential, o = .ok (list', credential) →
        Update H.sha3 list list') w :=
    fun r => keeps_return fun w' hr _ => ⟨hF _ _ hr h, nofun⟩
  unfold applyRequest
  split
  · split
    · exact hstop _
    · exact hstop _
    · apply keeps_ask
      intro w₁ hr₁ hi₁ credential w₂ hx
      obtain rfl : w₂ = w₁ := hx
      refine ⟨hi₁, .refl, ?_⟩
      split
      · exact keeps_return fun w' hr _ => ⟨hF _ _ hr (hF _ _ hr₁ h), nofun⟩
      · rename_i list' hadd
        refine keeps_return fun w' hr _ => ⟨hF _ _ hr (hF _ _ hr₁ h), fun l c ho => ?_⟩
        cases ho
        exact ⟨credential, .inl hadd⟩
  · split
    · split
      · exact hstop _
      · split
        · exact hstop _
        · rename_i list' hrev
          refine keeps_return fun w' hr _ => ⟨hF _ _ hr h, fun l c ho => ?_⟩
          cases ho
          exact ⟨request.data, .inr hrev⟩
    · exact hstop _

theorem keeps_coordinate (hi : Inv S w) (node : Nat) (request : StatusRequest) :
    machine.keeps (pact S) p (coordinate S node request) (fun _ _ => True) w := by
  refine keeps_seq hi (Machine.keeps_mono
    (keeps_currentRecord (F := fun _ => True) (fun _ _ _ h => h) trivial) ?_)
  intro o w₁ hpre hi₁
  cases hn : nextSnapshot S.mode o with
  | error why => exact keeps_return fun _ _ _ => trivial
  | ok next =>
    obtain ⟨version, list⟩ := next
    have hbase : Base S w₁.history version.toNat list := nextSnapshot_base hi₁ hpre.2 hn
    have hstable : ∀ w w', Relies p w w' → Base S w.history version.toNat list →
        Base S w'.history version.toNat list := fun w w' hr hb => hb.grows hr.grows
    refine keeps_seq hi₁ (Machine.keeps_mono
      (keeps_applyRequest hstable hbase node request version list) ?_)
    intro out w₂ hpost hi₂
    cases out with
    | error reply => exact keeps_return fun _ _ _ => trivial
    | ok y =>
      obtain ⟨list', credential⟩ := y
      exact keeps_runRound node credential hi₂ ⟨list, hpost.1, hpost.2 list' credential rfl⟩

theorem keeps_onStatusRequest (w : World) (node : Nat) (payload : Bytes) :
    machine.keeps (pact S) p (onStatusRequest S node payload) (fun _ _ => True) w := by
  unfold onStatusRequest
  split
  · exact keeps_return fun _ _ _ => trivial
  · split
    · exact keeps_return fun _ _ _ => trivial
    · rename_i request _
      apply keeps_ask
      intro w₁ hr₁ hi₁ r w₂ hx
      obtain ⟨-, rfl⟩ := hx
      have hi₂ := hi₁.local (Function.update w₁.round node (some p)) w₁.stream
      refine ⟨hi₂, .local _ _ fun _ _ => rfl,
        keeps_seq hi₂ (Machine.keeps_mono (keeps_coordinate hi₂ node request) ?_)⟩
      intro reply w₃ _ _
      apply keeps_ask
      intro w₄ hr₄ hi₄ r w₅ hx
      obtain rfl : w₅ = _ := hx
      exact ⟨hi₄.local _ w₄.stream, .local _ _ fun _ _ => rfl, keeps_return fun _ _ _ => trivial⟩

/-! ## Every run -/

theorem inv_start : Inv S World.start := by
  refine ⟨nofun, nofun, fun _ _ => trivial, nofun, fun i => ?_, Volume.shelf_empty, nofun⟩
  show Params.slot.toUInt64.toNat ≤ Params.slot.toNat + 0 + 1
  decide

theorem honoured : Honoured (pact S) machine (api S) := by
  refine ⟨fun p o c m w hm hi => ?_, fun p w hi => inv_release hi p, fun _ _ h => h⟩
  simp only [api] at hm
  split at hm
  · cases hm
    have hk : machine.keeps (pact S) p (c.program S) (fun _ _ => True) w := by
      cases c with
      | proposal node => exact keeps_serveProposal w node
      | statusRequest node payload => exact keeps_onStatusRequest w node payload
    refine Machine.keeps_bind hi (Machine.keeps_mono hk ?_)
    intro r w' _ _
    exact Machine.keeps_ret fun w'' _ hi'' => inv_release hi'' p
  · cases hm

theorem holds_reachable {s : DemoSys} (hr : (demo S).Reachable s) :
    (pact S).Holds machine (api S) s := by
  have h0 : ∀ w, w = World.start → (pact S).inv w := by
    intro w hw
    rw [hw]
    exact inv_start
  exact Pact.reachable honoured h0 hr

theorem inv_reachable {s : DemoSys} (hr : (demo S).Reachable s) : Inv S s.world :=
  (holds_reachable hr).1

theorem Inv.current (hi : Inv S w) : w.current = w.history.getLast?.map Prod.snd := by
  unfold World.current
  rw [hi.shelf.current]
  cases hl : w.history.getLast? with
  | none => rfl
  | some x =>
    have hk := (hi.shelf.kept x (List.mem_of_getLast? hl)).1
    simp [hk]

/-- Version `k` of the list: what entry `k` of the history decodes to. -/
def ListAt (S : Setup H) (w : World) (k : Nat) (list : List Entry) : Prop :=
  ∃ x version, w.history[k]? = some x ∧ decodeList S.mode x.2 = .ok (version, list) ∧
    version.toNat = k

/-- Publication is linear and loses no update. In every reachable state, the
records that were placed in storage, in the order in which they were placed,
carry the versions 0, 1, 2, ...; the one in storage is the last of them; the list
of a version is the list of the version before it, or the empty list, with one
`add_valid` or `revoke` applied; and no list has a duplicate. -/
theorem publication_linear (S : Setup H) (s : DemoSys) (hr : (demo S).Reachable s) :
    s.world.current = s.world.history.getLast?.map Prod.snd ∧
    ∀ k, k < s.world.history.length → ∃ list, ListAt S s.world k list ∧ list.Nodup ∧
      ∃ before, (k = 0 ∧ before = [] ∨ ∃ j, k = j + 1 ∧ ListAt S s.world j before) ∧
        ∃ credential, addValid H.sha3 before credential = (list, true) ∨
          revoke H.sha3 before credential = (list, true) := by
  have hi := inv_reachable hr
  refine ⟨hi.current, fun k => ?_⟩
  induction k with
  | zero =>
    intro hk
    obtain ⟨rx, q, prop, ho, -, hv, hd⟩ := hi.chain 0 _ (List.getElem?_eq_getElem hk)
    obtain ⟨before, hb, hu⟩ := hi.planned rx q prop ho
    rcases hb with ⟨-, rfl⟩ | ⟨j, x, version, hj, -⟩
    · exact ⟨prop.list, ⟨_, prop.version, List.getElem?_eq_getElem hk, hd, hv⟩,
        hu.nodup List.nodup_nil, [], .inl ⟨rfl, rfl⟩, hu⟩
    · omega
  | succ j ih =>
    intro hk
    obtain ⟨list, ⟨x, version, hx, hdx, hvx⟩, hn, -⟩ := ih (by omega)
    obtain ⟨rx, q, prop, ho, -, hv, hd⟩ := hi.chain (j + 1) _ (List.getElem?_eq_getElem hk)
    obtain ⟨before, hb, hu⟩ := hi.planned rx q prop ho
    rcases hb with ⟨h0, -⟩ | ⟨i, y, version', hi', hy, hdy⟩
    · omega
    · obtain rfl : i = j := by omega
      rw [hx] at hy
      cases hy
      rw [hdx] at hdy
      cases hdy
      exact ⟨prop.list, ⟨_, prop.version, List.getElem?_eq_getElem hk, hd, hv⟩, hu.nodup hn,
        list, .inr ⟨i, rfl, x, version, hx, hdx, hvx⟩, hu⟩

end

/-- A credential is issued by one member and revoked by another. -/
theorem publication_linear_first : ∃ s : DemoSys, s.world.history.length = 2 ∧
    ∃ first second, ListAt demoSetup s.world 0 first ∧ ListAt demoSetup s.world 1 second ∧
      second.Nodup ∧ ∃ credential, addValid demoHashes.sha3 first credential = (second, true) ∨
        revoke demoHashes.sha3 first credential = (second, true) := by
  obtain ⟨s, hr, hlen⟩ := reachable_two_updates
  obtain ⟨-, h⟩ := publication_linear demoSetup s hr
  obtain ⟨second, hl, hn, before, hbefore, credential, hu⟩ := h 1 (by omega)
  rcases hbefore with ⟨h, -⟩ | ⟨j, hj, hfirst⟩
  · cases h
  · obtain rfl : j = 0 := by omega
    exact ⟨s, hlen, before, second, hfirst, hl, hn, credential, hu⟩

end Drot.L5.Demo
