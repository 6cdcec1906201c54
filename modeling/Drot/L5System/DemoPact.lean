import Drot.Core.Quorum
import Drot.Core.Rely
import Drot.L5System.Demo

/-!
# What the threads of the demo owe each other

Aggregators read, propose, collect and overwrite storage without a lock between
them. What keeps their updates apart is that a member signs a slot once
(`Inv.once`): two rounds of one version cannot both reach the threshold
(`quorate_unique`), so at any time at most one thread may touch the volume
(`Holder`), the one whose round has a quorum for the version after the published
one. `pact` is the agreement between threads that says so; the `effect_` lemmas are
what the effects of a thread that keeps it do.
-/
namespace Drot.L5.Demo
open Bytes Ssz Text L1.Message L3.Protocol L4.RawVerifier L2.SlotCounter Prog

/-! ## Round trips -/

namespace Proposal

theorem fits_fields (x : Proposal) : ∀ f ∈ x.fields, Field.Fits f := by
  intro f hf n hn
  simp only [fields, List.mem_cons, List.not_mem_nil, or_false] at hf
  rcases hf with rfl | rfl <;> cases hn
  simp

theorem length_encode (x : Proposal) : x.encode.length = 8 + 32 * x.list.length := by
  unfold encode encodeFields
  rw [List.length_append, length_header _ _ x.fits_fields]
  simp only [fields, fixedLen, List.map_cons, List.map_nil, Shape.width, List.sum_cons,
    List.sum_nil, varParts, List.flatten_cons, List.flatten_nil, List.length_append,
    length_encodeVec, List.length_nil]
  omega

/-- A proposal that fits a frame reads back. -/
theorem decode_encode {x : Proposal} (h : x.encode.length ≤ maxFrame) :
    decode x.encode = some x := by
  have hlt : (encodeFields x.fields).length < 2 ^ 32 := by
    have : maxFrame < 2 ^ 32 := by decide
    exact lt_of_le_of_lt h this
  have hd := decodeFields_encodeFields x.fields x.fits_fields hlt
  have hs : x.fields.map Prod.fst = [.fixed 4, .var] := rfl
  have hv := x.version.toNat_lt
  rw [hs] at hd
  unfold decode encode
  rw [hd]
  simp only [fields, List.map_cons, List.map_nil]
  rw [decodeVec_encodeVec (by decide), ofLe_leBytes 4 _ (by omega)]
  simp

end Proposal

theorem SignatureReply.decode_encode {x : SignatureReply} (h : x.encode.length ≤ maxFrame) :
    decode x.encode = some x := by
  have hlt : (encodeFields x.fields).length < 2 ^ 32 := by
    have : maxFrame < 2 ^ 32 := by decide
    exact lt_of_le_of_lt h this
  have hfit : ∀ f ∈ x.fields, Field.Fits f := by
    intro f hf n hn
    simp only [fields, List.mem_cons, List.not_mem_nil, or_false] at hf
    rcases hf with rfl | rfl <;> cases hn
  have hd := decodeFields_encodeFields x.fields hfit hlt
  have hs : x.fields.map Prod.fst = [.var, .var] := rfl
  rw [hs] at hd
  unfold decode encode
  rw [hd]
  simp only [fields, List.map_cons, List.map_nil]
  rw [decodeVec_encodeVec (by decide)]
  rfl

/-- An abstention that is sent carries no signature. -/
theorem replySignature_abstain {reason : String} (h : (abstain reason).2.length ≤ maxFrame) :
    replySignature (abstain reason).1 (abstain reason).2 = none := by
  unfold replySignature abstain
  rw [if_pos rfl, SignatureReply.decode_encode h]
  rfl

/-! ## What is recorded -/

section
variable {H : Hashes} (S : Setup H)

/-- One `add_valid` or one `revoke` that changed the list. -/
def Update (sha3 : Bytes → Blob 32) (before after : List Entry) : Prop :=
  ∃ credential, addValid sha3 before credential = (after, true) ∨
    revoke sha3 before credential = (after, true)

theorem Update.nodup {sha3 : Bytes → Blob 32} {before after : List Entry}
    (h : Update sha3 before after) (hn : before.Nodup) : after.Nodup := by
  obtain ⟨credential, h | h⟩ := h
  · unfold addValid at h
    dsimp only at h
    split at h
    · cases h
    · rename_i hc
      cases h
      rw [List.nodup_append]
      refine ⟨hn, List.nodup_singleton _, ?_⟩
      intro a ha b hb heq
      rw [List.mem_singleton.mp hb] at heq
      subst heq
      exact hc (List.contains_iff_mem.mpr ha)
  · unfold revoke at h
    have h1 := congrArg Prod.fst h
    dsimp only at h1
    rw [← h1]
    exact hn.filter _

/-- What the list of version `v` is an update of. -/
def Base (history : List (Nat × Bytes)) (v : Nat) (list : List Entry) : Prop :=
  v = 0 ∧ list = [] ∨ ∃ k x version, v = k + 1 ∧ history[k]? = some x ∧
    decodeList S.mode x.2 = .ok (version, list)

/-- The proposal is an update of the version before its own. -/
def Planned (history : List (Nat × Bytes)) (x : Proposal) : Prop :=
  ∃ list, Base S history x.version.toNat list ∧ Update H.sha3 list x.list

/-- Member `i` signed for round `rx`. -/
def HasVote (w : World) (rx i : Nat) : Prop :=
  ∃ x ∈ w.votes, x.member = i ∧ x.stream = some (rx, i)

/-- Round `rx` has a quorum. -/
def Quorate (w : World) (rx : Nat) : Prop :=
  ∃ A ⊆ Finset.range nMembers, threshold ≤ A.card ∧ ∀ i ∈ A, HasVote w rx i

/-- Round `rx` of thread `p` proposed `x`. -/
def Opened (w : World) (rx p : Nat) (x : Proposal) : Prop := w.rounds[rx]? = some (p, x)

/-- The round has a quorum and its version is in storage. -/
def Published (w : World) (rx : Nat) : Prop :=
  ∃ p x, Opened w rx p x ∧ Quorate w rx ∧ x.version.toNat < w.history.length

/-- Thread `p` has a quorum for the version that is due. -/
def Holder (p : Nat) (w : World) : Prop :=
  ∃ rx x, Opened w rx p x ∧ Quorate w rx ∧ x.version.toNat = w.history.length

/-- A vote stands for a proposal that was sent, at its slot, and not ahead of the
published version. -/
structure Cast (w : World) (x : Vote) : Prop where
  spent : x.slot.toNat < (w.counter x.member).toNat
  round : ∃ rx p prop, x.stream = some (rx, x.member) ∧ Opened w rx p prop ∧
    S.committee.slotFor prop.version = some x.slot ∧
    prop.encode.length ≤ maxFrame ∧ prop.version.toNat ≤ w.history.length

/-- Entry `k` of the history is the record of a round for version `k`. -/
def Certified (w : World) (k : Nat) (x : Nat × Bytes) : Prop :=
  ∃ rx p prop, Opened w rx p prop ∧ Quorate w rx ∧ prop.version.toNat = k ∧
    decodeList S.mode x.2 = .ok (prop.version, prop.list)

/-- Connection `i` of round `rx` was dialled. -/
def Dialled (w : World) (rx i : Nat) : Prop := rx < w.rounds.length ∧ i < nMembers

/-- A proposal in flight is its round's, and an answer with a signature in it comes
from a vote for the round. -/
def LinkOk (w : World) (rx i : Nat) : Link → Prop
  | .idle => True
  | .proposed bytes => Dialled w rx i ∧
      ∃ p prop, Opened w rx p prop ∧ bytes = prop.encode ∧ prop.encode.length ≤ maxFrame
  | .taken => Dialled w rx i
  | .answered kind payload => Dialled w rx i ∧
      ∀ signature, replySignature kind payload = some signature → HasVote w rx i
  | .delivered => Dialled w rx i

/-- What every reachable world satisfies. -/
structure Inv (w : World) : Prop where
  cast : ∀ x ∈ w.votes, Cast S w x
  once : ∀ x ∈ w.votes, ∀ y ∈ w.votes, x.member = y.member → x.slot = y.slot → x = y
  links : ∀ rx i, LinkOk w rx i (w.link rx i)
  planned : ∀ rx p prop, Opened w rx p prop → Planned S w.history prop
  behind : ∀ i, (w.counter i).toNat ≤ Params.slot.toNat + w.history.length + 1
  shelf : w.volume.Shelf .tmp .currentRecord w.history
  chain : ∀ k x, w.history[k]? = some x → Certified S w k x

/-- What no effect takes back. -/
structure Grows (w w' : World) : Prop where
  votes : ∀ x ∈ w.votes, x ∈ w'.votes
  history : w.history <+: w'.history
  rounds : w.rounds <+: w'.rounds
  delivered : ∀ rx i, w.link rx i = .delivered → w'.link rx i = .delivered

end

section
variable {H : Hashes} {S : Setup H} {w w' w'' : World} {p rx : Nat}

/-! ## One quorum a version -/

theorem HasVote.grows {i : Nat} (h : HasVote w rx i) (hg : Grows w w') : HasVote w' rx i := by
  obtain ⟨x, hx, hm, hs⟩ := h
  exact ⟨x, hg.votes x hx, hm, hs⟩

theorem Quorate.grows (h : Quorate w rx) (hg : Grows w w') : Quorate w' rx := by
  obtain ⟨A, hA, ht, hv⟩ := h
  exact ⟨A, hA, ht, fun i hi => (hv i hi).grows hg⟩

theorem getElem?_of_prefix {α : Type} {l l' : List α} (h : l <+: l') {k : Nat} {x : α}
    (hx : l[k]? = some x) : l'[k]? = some x := by
  obtain ⟨more, rfl⟩ := h
  rw [List.getElem?_append_left (List.getElem?_eq_some_iff.mp hx).1]
  exact hx

theorem Opened.grows {x : Proposal} (h : Opened w rx p x) (hg : Grows w w') :
    Opened w' rx p x := getElem?_of_prefix hg.rounds h

/-- A round has one owner and one proposal. -/
theorem Opened.unique {q : Nat} {x y : Proposal} (h : Opened w rx p x) (h' : Opened w rx q y) :
    p = q ∧ x = y := by
  have := Option.some.inj (h.symm.trans h')
  cases this
  exact ⟨rfl, rfl⟩

/-- Two quorums share a member, and it signed the slot once. -/
theorem quorate_unique {rx' q : Nat} {x y : Proposal} (hi : Inv S w) (hx : Opened w rx p x)
    (hy : Opened w rx' q y) (h : Quorate w rx) (h' : Quorate w rx') (hv : x.version = y.version) :
    rx = rx' := by
  obtain ⟨A, hA, htA, hvA⟩ := h
  obtain ⟨B, hB, htB, hvB⟩ := h'
  have hsize : (Finset.range nMembers).card + 0 < 2 * threshold := by decide
  have hnone : (∅ : Finset Nat).card ≤ 0 := le_refl 0
  obtain ⟨i, hm, -⟩ := Quorum.exists_correct hA hB htA htB hnone hsize
  obtain ⟨hiA, hiB⟩ := Finset.mem_inter.mp hm
  obtain ⟨a, ha, ham, has⟩ := hvA i hiA
  obtain ⟨b, hb, hbm, hbs⟩ := hvB i hiB
  -- both votes are at the slot of the one version
  obtain ⟨r, q₁, z, hr, hz, hzs, -⟩ := (hi.cast a ha).round
  obtain ⟨r', q₂, z', hr', hz', hzs', -⟩ := (hi.cast b hb).round
  rw [has, ham] at hr
  rw [hbs, hbm] at hr'
  cases hr
  cases hr'
  have hzx : z.version = x.version := by rw [(hz.unique hx).2]
  have hzy : z'.version = y.version := by rw [(hz'.unique hy).2]
  have hslot : a.slot = b.slot := by
    rw [hzx, hv, ← hzy, hzs'] at hzs
    exact (Option.some.inj hzs).symm
  have hab := hi.once a ha b hb (ham.trans hbm.symm) hslot
  rw [hab, hbs] at has
  exact (Prod.mk.inj (Option.some.inj has)).1.symm

theorem Holder.unique {q : Nat} (hi : Inv S w) (h : Holder p w) (h' : Holder q w) : p = q := by
  obtain ⟨rx, x, hx, hqx, hlx⟩ := h
  obtain ⟨rx', y, hy, hqy, hly⟩ := h'
  have hv : x.version = y.version := UInt32.toNat_inj.mp (hlx.trans hly.symm)
  have := quorate_unique hi hx hy hqx hqy hv
  subst this
  exact (hx.unique hy).1

/-! ## The pact -/

theorem Grows.refl : Grows w w := ⟨fun _ h => h, List.prefix_rfl, List.prefix_rfl, fun _ _ h => h⟩

theorem Grows.trans (h : Grows w w') (h' : Grows w' w'') : Grows w w'' :=
  ⟨fun x hx => h'.votes x (h.votes x hx), h.history.trans h'.history, h.rounds.trans h'.rounds,
    fun rx i hd => h'.delivered rx i (h.delivered rx i hd)⟩

/-- Thread `p` leaves the other connections and, unless it is entitled to publish,
the volume alone. -/
structure Guarantee (p : Nat) (w w' : World) : Prop where
  grows : Grows w w'
  stream : ∀ q, q ≠ p → w'.stream q = w.stream q
  volume : w'.volume = w.volume ∧ w'.history = w.history ∨
    Holder p w ∧ w'.history.length ≤ w.history.length + 1

/-- The others publish none of `p`'s rounds, and while `p` is entitled to publish
they do not touch the volume. -/
structure Relies (p : Nat) (w w' : World) : Prop where
  grows : Grows w w'
  stream : w'.stream p = w.stream p
  mine : ∀ rx x, Opened w rx p x → Published w' rx → Published w rx
  volume : Holder p w → w'.volume = w.volume ∧ w'.history = w.history

theorem Relies.holder (h : Relies p w w') (hp : Holder p w) : Holder p w' := by
  obtain ⟨rx, x, hx, hq, hl⟩ := hp
  obtain ⟨-, hh⟩ := h.volume ⟨rx, x, hx, hq, hl⟩
  exact ⟨rx, x, hx.grows h.grows, hq.grows h.grows, by rw [hh]; exact hl⟩

theorem Relies.trans (h : Relies p w w') (h' : Relies p w' w'') : Relies p w w'' := by
  refine ⟨h.grows.trans h'.grows, h'.stream.trans h.stream, fun rx x hx hp => ?_, fun hp => ?_⟩
  · exact h.mine rx x hx (h'.mine rx x (hx.grows h.grows) hp)
  · obtain ⟨hv, hh⟩ := h.volume hp
    obtain ⟨hv', hh'⟩ := h'.volume (h.holder hp)
    exact ⟨hv'.trans hv, hh'.trans hh⟩

theorem Guarantee.relies {q : Nat} (hne : q ≠ p) (hi : Inv S w) (hi' : Inv S w')
    (h : Guarantee q w w') : Relies p w w' := by
  refine ⟨h.grows, h.stream p (Ne.symm hne), fun rx x hx hp => ?_, fun hp => ?_⟩
  · obtain ⟨r, y, hy, hqy, hly⟩ := hp
    obtain ⟨rfl, rfl⟩ := hy.unique (hx.grows h.grows)
    by_cases hlt : y.version.toNat < w.history.length
    · -- its version was in storage before, from this very round
      obtain ⟨rx', p', z, hz, hqz, hvz, -⟩ :=
        hi.chain _ _ (List.getElem?_eq_getElem hlt)
      have hv : y.version = z.version := (UInt32.toNat_inj.mp hvz).symm
      have he := quorate_unique hi' hy (hz.grows h.grows) hqy (hqz.grows h.grows) hv
      subst he
      exact ⟨r, y, hx, hqz, hlt⟩
    · rcases h.volume with ⟨-, hh⟩ | ⟨⟨rx', z, hz, hqz, hlz⟩, hle⟩
      · rw [hh] at hly
        exact absurd hly hlt
      · have hv : y.version = z.version := UInt32.toNat_inj.mp (by omega)
        have he := quorate_unique hi' hy (hz.grows h.grows) hqy (hqz.grows h.grows) hv
        subst he
        exact absurd (hz.unique hx).1 hne
  · rcases h.volume with hv | ⟨hq, -⟩
    · exact hv
    · exact absurd (hq.unique hi hp) hne

variable (S) in
/-- The agreement between the threads. -/
def pact : Pact World where
  inv := Inv S
  guar := Guarantee
  rely := Relies
  refl _ _ := ⟨.refl, rfl, fun _ _ _ h => h, fun _ => ⟨rfl, rfl⟩⟩
  trans _ _ _ _ h h' := h.trans h'
  other _ _ _ _ hne hi hi' h := h.relies hne hi hi'

/-! ## What one effect does -/

theorem Guarantee.of_eq (hg : Grows w w') (hs : ∀ q, q ≠ p → w'.stream q = w.stream q)
    (hv : w'.volume = w.volume) (hh : w'.history = w.history) : Guarantee p w w' :=
  ⟨hg, hs, .inl ⟨hv, hh⟩⟩

theorem Guarantee.refl : Guarantee p w w := .of_eq .refl (fun _ _ => rfl) rfl rfl

theorem Base.grows {v : Nat} {list : List Entry} (h : Base S w.history v list) (hg : Grows w w') :
    Base S w'.history v list := by
  rcases h with h0 | ⟨k, x, version, hv, hk, hd⟩
  · exact .inl h0
  · exact .inr ⟨k, x, version, hv, getElem?_of_prefix hg.history hk, hd⟩

theorem Planned.grows {x : Proposal} (h : Planned S w.history x) (hg : Grows w w') :
    Planned S w'.history x := by
  obtain ⟨list, hb, hu⟩ := h
  exact ⟨list, hb.grows hg, hu⟩

theorem Cast.grows {x : Vote} (h : Cast S w x) (hg : Grows w w')
    (hc : (w.counter x.member).toNat ≤ (w'.counter x.member).toNat) : Cast S w' x := by
  obtain ⟨rx, q, prop, hs, ho, hslot, hlen, hle⟩ := h.round
  have := hg.history.length_le
  have := h.spent
  exact ⟨by omega, rx, q, prop, hs, ho.grows hg, hslot, hlen, by omega⟩

theorem Certified.grows {k : Nat} {x : Nat × Bytes} (h : Certified S w k x) (hg : Grows w w') :
    Certified S w' k x := by
  obtain ⟨rx, q, prop, ho, hq, hv, hd⟩ := h
  exact ⟨rx, q, prop, ho.grows hg, hq.grows hg, hv, hd⟩

theorem LinkOk.grows {i : Nat} {l : Link} (h : LinkOk w rx i l) (hg : Grows w w') :
    LinkOk w' rx i l := by
  have hdial : Dialled w rx i → Dialled w' rx i := fun hd =>
    ⟨lt_of_lt_of_le hd.1 hg.rounds.length_le, hd.2⟩
  cases l with
  | idle => trivial
  | proposed bytes =>
    obtain ⟨hd, q, prop, ho, he, hlen⟩ := h
    exact ⟨hdial hd, q, prop, ho.grows hg, he, hlen⟩
  | taken => exact hdial h
  | answered kind payload => exact ⟨hdial h.1, fun sig hs => (h.2 sig hs).grows hg⟩
  | delivered => exact hdial h

/-- Effects that propose nothing, sign nothing and place nothing. -/
theorem Inv.frame (hi : Inv S w) (hg : Grows w w') (hv : w'.votes = w.votes)
    (hr : w'.rounds = w.rounds) (hh : w'.history = w.history)
    (hc : ∀ i, (w.counter i).toNat ≤ (w'.counter i).toNat ∧
      (w'.counter i).toNat ≤ Params.slot.toNat + w.history.length + 1)
    (hs : w'.volume.Shelf .tmp .currentRecord w.history)
    (hl : ∀ rx i, LinkOk w rx i (w'.link rx i)) : Inv S w' := by
  refine ⟨fun x hx => ?_, ?_, fun rx i => (hl rx i).grows hg, fun rx q prop ho => ?_, fun i => ?_,
    ?_, fun k x hk => ?_⟩
  · rw [hv] at hx
    exact (hi.cast x hx).grows hg (hc x.member).1
  · rw [hv]
    exact hi.once
  · unfold Opened at ho
    rw [hr] at ho
    exact (hi.planned rx q prop ho).grows hg
  · rw [hh]
    exact (hc i).2
  · rw [hh]
    exact hs
  · rw [hh] at hk
    exact (hi.chain k x hk).grows hg

theorem Inv.counters (hi : Inv S w) (i : Nat) : (w.counter i).toNat ≤ (w.counter i).toNat ∧
    (w.counter i).toNat ≤ Params.slot.toNat + w.history.length + 1 := ⟨le_refl _, hi.behind i⟩

/-! ### Connections -/

theorem setLink_link (w : World) (rx i rx' i' : Nat) (l : Link) :
    (w.setLink rx i l).link rx' i' = if rx' = rx ∧ i' = i then l else w.link rx' i' := by
  unfold World.setLink
  by_cases hr : rx' = rx
  · subst hr
    by_cases hi : i' = i
    · subst hi; simp
    · simp [hi]
  · simp [hr]

theorem grows_setLink {i : Nat} {l : Link} (h : w.link rx i ≠ .delivered ∨ l = .delivered) :
    Grows w (w.setLink rx i l) := by
  refine ⟨fun _ hx => hx, List.prefix_rfl, List.prefix_rfl, fun rx' i' hd => ?_⟩
  rw [setLink_link]
  split
  · rename_i he
    obtain ⟨rfl, rfl⟩ := he
    rcases h with h | h
    · exact absurd hd h
    · exact h
  · exact hd

theorem Inv.setLink {i : Nat} {l : Link} (hi : Inv S w) (hl : LinkOk w rx i l)
    (h : w.link rx i ≠ .delivered ∨ l = .delivered) : Inv S (w.setLink rx i l) := by
  refine hi.frame (grows_setLink h) rfl rfl rfl hi.counters hi.shelf fun rx' i' => ?_
  rw [setLink_link]
  split
  · rename_i he
    obtain ⟨rfl, rfl⟩ := he
    exact hl
  · exact hi.links rx' i'

/-- The mutexes and the connections of threads are nobody's concern. -/
theorem Inv.local (hi : Inv S w) (round : Nat → Option Nat) (stream : Nat → Option (Nat × Nat)) :
    Inv S { w with round := round, stream := stream } :=
  hi.frame ⟨fun _ hx => hx, List.prefix_rfl, List.prefix_rfl, fun _ _ hd => hd⟩ rfl rfl rfl
    hi.counters hi.shelf hi.links

theorem Guarantee.local (round : Nat → Option Nat) (stream : Nat → Option (Nat × Nat))
    (h : ∀ q, q ≠ p → stream q = w.stream q) :
    Guarantee p w { w with round := round, stream := stream } :=
  .of_eq ⟨fun _ hx => hx, List.prefix_rfl, List.prefix_rfl, fun _ _ hd => hd⟩ h rfl rfl

theorem inv_release (hi : Inv S w) (p : Nat) :
    Inv S (release p w) ∧ Guarantee p w (release p w) := by
  refine ⟨hi.local _ _, .local _ _ fun q hq => ?_⟩
  exact Function.update_of_ne hq _ _

/-- Thread `p` serves connection `i` of round `rx`, which proposed `x`. -/
structure Serving (p rx i : Nat) (x : Proposal) (w : World) : Prop where
  stream : w.stream p = some (rx, i)
  member : i < nMembers
  sent : x.encode.length ≤ maxFrame
  opened : ∃ q, Opened w rx q x

theorem Serving.grows {i : Nat} {x : Proposal} (h : Serving p rx i x w) (hg : Grows w w')
    (hs : w'.stream p = w.stream p) : Serving p rx i x w' := by
  obtain ⟨q, ho⟩ := h.opened
  exact ⟨hs.trans h.stream, h.member, h.sent, q, ho.grows hg⟩

theorem Serving.relies {i : Nat} {x : Proposal} (h : Serving p rx i x w) (hr : Relies p w w') :
    Serving p rx i x w' := h.grows hr.grows hr.stream

theorem effect_accept {i : Nat} {payload : Bytes} (hi : Inv S w)
    (hx : exec p w (.accept i) payload w') : Inv S w' ∧ Guarantee p w w' ∧
      ∃ rx x, Serving p rx i x w' ∧ payload = x.encode := by
  obtain ⟨rx, hl, rfl⟩ := hx
  have hlink := hi.links rx i
  rw [hl] at hlink
  obtain ⟨hd, q, x, ho, he, hlen⟩ := hlink
  have hne : w.link rx i ≠ .delivered ∨ Link.taken = .delivered := by
    rw [hl]; exact .inl (by simp)
  have htaken : LinkOk w rx i .taken := hd
  refine ⟨(hi.setLink htaken hne).local _ _, ?_, rx, x, ⟨Function.update_self .., hd.2, hlen, q, ho⟩, he⟩
  have hg := grows_setLink hne
  exact .of_eq ⟨hg.votes, hg.history, hg.rounds, hg.delivered⟩
    (fun r hr => Function.update_of_ne hr _ _) rfl rfl

theorem effect_send {i : Nat} {x : Proposal} {kind : UInt8} {payload : Bytes}
    {r : Except IoError Unit} (hi : Inv S w) (hs : Serving p rx i x w)
    (hv : payload.length ≤ maxFrame → ∀ signature, replySignature kind payload = some signature →
      HasVote w rx i)
    (hx : exec p w (.send kind payload) r w') : Inv S w' ∧ Guarantee p w w' := by
  cases r with
  | error e =>
    cases hx
    exact ⟨hi, .refl⟩
  | ok u =>
    obtain ⟨hlen, rx', i', hst, hl, rfl⟩ := hx
    rw [hs.stream] at hst
    cases hst
    have hlink := hi.links rx i
    rw [hl] at hlink
    have hne : w.link rx i ≠ .delivered ∨ Link.answered kind payload = .delivered := by
      rw [hl]; exact .inl (by simp)
    exact ⟨hi.setLink ⟨hlink, hv hlen⟩ hne, .of_eq (grows_setLink hne) (fun _ _ => rfl) rfl rfl⟩

theorem effect_recv {i : Nat} {signature : XmssSignature} (hi : Inv S w)
    (hx : exec p w (.recvTimeout rx) (some (i, signature)) w') : Inv S w' ∧ Guarantee p w w' ∧
      i < nMembers ∧ HasVote w' rx i ∧ w.link rx i ≠ .delivered ∧ w'.link rx i = .delivered := by
  obtain ⟨kind, payload, hl, hsig, rfl⟩ := hx
  have hlink := hi.links rx i
  rw [hl] at hlink
  obtain ⟨hd, hvote⟩ := hlink
  have hg : Grows w (w.setLink rx i .delivered) := grows_setLink (.inr rfl)
  refine ⟨hi.setLink hd (.inr rfl), .of_eq hg (fun _ _ => rfl) rfl rfl, hd.2,
    (hvote _ hsig).grows hg, ?_, ?_⟩
  · rw [hl]; simp
  · rw [setLink_link, if_pos ⟨rfl, rfl⟩]

/-! ### Proposing and signing -/

theorem not_hasVote_fresh (hi : Inv S w) (i : Nat) : ¬ HasVote w w.rounds.length i := by
  intro h
  obtain ⟨x, hx, hm, hs⟩ := h
  obtain ⟨rx, q, prop, hst, ho, -⟩ := (hi.cast x hx).round
  rw [hs, hm] at hst
  cases hst
  have hlt := (List.getElem?_eq_some_iff.mp ho).1
  omega

theorem grows_propose (hi : Inv S w) (x : Proposal) : Grows w (w.propose p x) := by
  refine ⟨fun _ hx => hx, List.prefix_rfl, List.prefix_append _ _, fun rx i hd => ?_⟩
  have hlink := hi.links rx i
  rw [hd] at hlink
  have hlt : rx < w.rounds.length := hlink.1
  show Function.update w.link w.rounds.length _ rx i = .delivered
  rw [Function.update_of_ne (by omega)]
  exact hd

theorem effect_propose {x : Proposal} (hi : Inv S w) (hp : Planned S w.history x)
    (hx : exec p w (.propose x) rx w') : Inv S w' ∧ Guarantee p w w' ∧ Opened w' rx p x ∧
      ¬ Published w' rx := by
  obtain ⟨rfl, rfl⟩ := hx
  have hg : Grows w (w.propose p x) := grows_propose hi x
  have ho : Opened (w.propose p x) w.rounds.length p x := by
    unfold Opened World.propose
    simp
  refine ⟨⟨fun y hy => ?_, hi.once, fun rx i => ?_, fun rx q prop hop => ?_, hi.behind, hi.shelf,
    fun k y hk => (hi.chain k y hk).grows hg⟩, .of_eq hg (fun _ _ => rfl) rfl rfl, ho, ?_⟩
  · exact (hi.cast y hy).grows hg (le_refl _)
  · by_cases hrx : rx = w.rounds.length
    · subst hrx
      show LinkOk _ _ _ (Function.update w.link w.rounds.length _ w.rounds.length i)
      rw [Function.update_self]
      split
      · rename_i hc
        have hlt : w.rounds.length < (w.propose p x).rounds.length := by simp [World.propose]
        exact ⟨⟨hlt, hc.1⟩, p, x, ho, rfl, hc.2⟩
      · trivial
    · show LinkOk _ _ _ (Function.update w.link w.rounds.length _ rx i)
      rw [Function.update_of_ne hrx]
      exact (hi.links rx i).grows hg
  · have hop' : (w.rounds ++ [(p, x)])[rx]? = some (q, prop) := hop
    rcases Nat.lt_trichotomy rx w.rounds.length with hlt | heq | hgt
    · rw [List.getElem?_append_left hlt] at hop'
      exact hi.planned rx q prop hop'
    · subst heq
      rw [List.getElem?_append_right (le_refl _)] at hop'
      simp only [Nat.sub_self, List.getElem?_cons_zero, Option.some.injEq, Prod.mk.injEq] at hop'
      rw [← hop'.2]
      exact hp
    · rw [List.getElem?_eq_none (by simp; omega)] at hop'
      cases hop'
  · intro hpub
    obtain ⟨-, -, -, ⟨A, -, ht, hv⟩, -⟩ := hpub
    have hpos : 0 < A.card := lt_of_lt_of_le (by decide) ht
    obtain ⟨i, hiA⟩ := Finset.card_pos.mp hpos
    exact not_hasVote_fresh hi i (hv i hiA)

theorem Setup.genesis (S : Setup H) : S.committee.genesisSlot = Params.slot := by
  rw [(Committee.new_ok.mp S.built).2.2.2]

theorem slotFor_toNat {version slot : UInt32}
    (h : S.committee.slotFor version = some slot) :
    slot.toNat = Params.slot.toNat + version.toNat := by
  unfold Committee.slotFor at h
  rw [S.genesis] at h
  split at h
  · rename_i hlt
    cases h
    rw [UInt32.toNat_add, Nat.mod_eq_of_lt hlt]
  · cases h

theorem setCounter_counter (w : World) (i j : Nat) (next : UInt64) :
    (w.setCounter i next).counter j = if j = i then next else w.counter j := by
  unfold World.setCounter
  by_cases h : j = i
  · subst h; simp
  · simp [h]

/-- A counter that moves forward, up to the slot after one that is not ahead. -/
theorem Inv.counted {i : Nat} {next : UInt64} (hi : Inv S w) (hle : w.counter i ≤ next)
    (hn : next.toNat ≤ Params.slot.toNat + w.history.length + 1) (j : Nat) :
    (w.counter j).toNat ≤ ((w.setCounter i next).counter j).toNat ∧
      ((w.setCounter i next).counter j).toNat ≤ Params.slot.toNat + w.history.length + 1 := by
  rw [setCounter_counter]
  split
  · rename_i h
    subst h
    exact ⟨UInt64.le_iff_toNat_le.mp hle, hn⟩
  · exact hi.counters j

theorem Inv.setCounter {i : Nat} {next : UInt64} (hi : Inv S w) (hle : w.counter i ≤ next)
    (hn : next.toNat ≤ Params.slot.toNat + w.history.length + 1) : Inv S (w.setCounter i next) :=
  hi.frame ⟨fun _ hx => hx, List.prefix_rfl, List.prefix_rfl, fun _ _ hd => hd⟩ rfl rfl rfl
    (hi.counted hle hn) hi.shelf hi.links

theorem effect_signAt {i : Nat} {x : Proposal} {message : Blob 32} {slot : UInt32}
    {r : Except String XmssSignature} (hi : Inv S w) (hs : Serving p rx i x w)
    (hslot : S.committee.slotFor x.version = some slot)
    (hle : x.version.toNat ≤ w.history.length) (hx : exec p w (.signAt i message slot) r w') :
    Inv S w' ∧ Guarantee p w w' ∧ ∀ signature, r = .ok signature → HasVote w' rx i := by
  have hsn := slotFor_toNat hslot
  have hsucc := toNat_succ_slot slot
  cases r with
  | error e =>
    rcases hx with rfl | ⟨-, next, hlo, hhi, rfl⟩
    · exact ⟨hi, .refl, nofun⟩
    · rw [UInt64.le_iff_toNat_le] at hhi
      refine ⟨hi.setCounter hlo (by omega), ?_, nofun⟩
      exact .of_eq ⟨fun _ hx => hx, List.prefix_rfl, List.prefix_rfl, fun _ _ hd => hd⟩
        (fun _ _ => rfl) rfl rfl
  | ok signature =>
    obtain ⟨hb, rfl⟩ := hx
    obtain ⟨hlo, -⟩ := burnAt_ok hb
    have hup : w.counter i ≤ slot.toUInt64 + 1 := by
      rw [UInt64.le_iff_toNat_le]
      omega
    have hcount := hi.counted hup (by omega)
    set v : Vote := ⟨i, slot, w.stream p⟩ with hv
    set w₁ : World := { w.setCounter i (slot.toUInt64 + 1) with votes := v :: w.votes } with hw₁
    have hg : Grows w w₁ :=
      ⟨fun _ hx => List.mem_cons_of_mem _ hx, List.prefix_rfl, List.prefix_rfl, fun _ _ hd => hd⟩
    -- a vote at this slot would already have moved the counter past it
    have hnew : ∀ y ∈ w.votes, y.member = i → y.slot ≠ slot := by
      intro y hy hm he
      have hsp := (hi.cast y hy).spent
      rw [hm, he] at hsp
      omega
    obtain ⟨q, ho⟩ := hs.opened
    have hcast : Cast S w₁ v := by
      refine ⟨?_, rx, q, x, hs.stream, ho, hslot, hs.sent, hle⟩
      have hcv : w₁.counter v.member = slot.toUInt64 + 1 := by
        show (w.setCounter i _).counter i = _
        rw [setCounter_counter, if_pos rfl]
      show slot.toNat < _
      rw [hcv]
      omega
    refine ⟨⟨fun y hy => ?_, fun y hy z hz hm he => ?_, fun rx i => (hi.links rx i).grows hg,
      fun rx q prop ho => (hi.planned rx q prop ho), fun j => (hcount j).2, hi.shelf,
      fun k y hk => (hi.chain k y hk).grows hg⟩, .of_eq hg (fun _ _ => rfl) rfl rfl,
      fun _ _ => ⟨v, List.mem_cons_self, rfl, hs.stream⟩⟩
    · rcases List.mem_cons.mp hy with rfl | hy
      · exact hcast
      · exact (hi.cast y hy).grows hg (hcount y.member).1
    · rcases List.mem_cons.mp hy with rfl | hy
      · rcases List.mem_cons.mp hz with rfl | hz
        · rfl
        · exact absurd he.symm (hnew z hz hm.symm)
      · rcases List.mem_cons.mp hz with rfl | hz
        · exact absurd he (hnew y hy hm)
        · exact hi.once y hy z hz hm he

end
end Drot.L5.Demo
