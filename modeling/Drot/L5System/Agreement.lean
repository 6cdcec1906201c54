import Drot.Core.Quorum
import Drot.L2State.SlotRuns
import Drot.L4Node.SnarkVerifier

/-!
# Agreement of relying parties

The committee, the signatures in circulation and the records offered to relying
parties, as one transition system.

* Every correct member runs processes on its own slot counter (`counterApi` on
  `killMachine`): any aggregator's `sign` and `sign_at` requests in any order,
  kills and restarts. Its key signs through `SignerNode` only.
* `emit` puts a signature into circulation, by whomever. The signature scheme is
  not forged: under a correct member's key it verifies only for a message and a
  slot this member has signed (`Unforged`).
* `publish` offers a record. A raw record is made of signatures in circulation; a
  verifying aggregate has one in circulation for each key it declares
  (`FromPool`).

`relying_parties_agree`: with `2t > N + f`, of two accepted records of one
version, by either verifier and at any time, the lists are equal.
-/
namespace Drot.L5.Agreement
open Bytes Bitmap L1.Message L2.SlotCounter L2.SlotJournal L3.Protocol L4.RawVerifier L4.SnarkVerifier

/-- A record in either published form. -/
inductive Published where
  | raw (r : StatusList)
  | snark (r : SnarkStatusList)

namespace Published

def alg : Published → Algorithms
  | .raw r => r.alg
  | .snark r => r.alg

def list : Published → List Entry
  | .raw r => r.statusList
  | .snark r => r.statusList

def version : Published → UInt32
  | .raw r => r.version
  | .snark r => r.version

end Published

/-- The anchor, who is faulty, and where each member keeps its counter. `base` is
the frontier of a counter carried over from the text format. -/
structure Deployment (H : Hashes) where
  anchor : Anchor H
  faulty : Finset Nat
  path : Nat → Path
  slotEnd : Nat → UInt32
  base : Nat → Nat

structure Net where
  member : Nat → SlotSys
  pool : List XmssSignature
  board : List Published

inductive NetAct where
  | member (i : Nat) (a : Act)
  | emit (sig : XmssSignature)
  | publish (x : Published)

section
variable {H : Hashes} (D : Deployment H) (V : LeanVM) (xmssVerify : XmssVerify)

/-- Member `i` of the anchor is correct and has key `pk`. -/
def Correct (i : Nat) (pk : XmssPublicKey) : Prop :=
  i ∉ D.faulty ∧ D.anchor.committee.members[i]? = some pk

/-- Member `i`'s processes and its counter, from a path that holds no journal yet. -/
def memberSystem (i : Nat) (pk : XmssPublicKey) : LTS SlotSys Act :=
  (killMachine H.sha3).system (counterApi H.sha3 (D.path i) pk (D.slotEnd i))
    (Start (D.path i) (keyFingerprint H.sha3 pk) (D.base i))

/-- `leanvm::xmss::sign` was called with this slot and message. -/
def Signed (s : SlotSys) (slot : UInt32) (message : Blob 32) : Prop :=
  ∃ r, .op (.ext ⟨slot, message⟩) r ∈ s.world.log

def Unforged (n : Net) (sig : XmssSignature) : Prop :=
  ∀ i pk message slot, Correct D i pk → xmssVerify pk message sig slot = true →
    Signed (n.member i) slot message

/-- Verification of a signature in circulation. -/
def poolVerify (pool : List XmssSignature) : XmssVerify := fun pk message sig slot =>
  xmssVerify pk message sig slot && decide (sig ∈ pool)

def FromPool (pool : List XmssSignature) : Published → Prop
  | .raw r => ∀ sig ∈ r.signatures, sig ∈ pool
  | .snark r => ∀ agg, proof V r = .ok agg → V.SoundAt (poolVerify xmssVerify pool) agg

inductive NetStep : Net → NetAct → Net → Prop where
  | member {n : Net} {i : Nat} {pk : XmssPublicKey} {a : Act} {s : SlotSys} (hi : Correct D i pk)
      (h : (memberSystem D i pk).step (n.member i) a s) :
      NetStep n (.member i a) { n with member := Function.update n.member i s }
  | emit {n : Net} {sig : XmssSignature} (h : Unforged D xmssVerify n sig) :
      NetStep n (.emit sig) { n with pool := sig :: n.pool }
  | publish {n : Net} {x : Published} (h : FromPool V xmssVerify n.pool x) :
      NetStep n (.publish x) { n with board := x :: n.board }

def network : LTS Net NetAct where
  init n := (∀ i pk, Correct D i pk → (memberSystem D i pk).init (n.member i)) ∧
    n.pool = [] ∧ n.board = []
  step := NetStep D V xmssVerify

/-- A relying party of the record's form accepts it. -/
def Accepts : Published → Prop
  | .raw r => verifyStatusList H xmssVerify D.anchor.committee r = some true
  | .snark r => verify H V D.anchor.committee r = true

/-- BLAKE2s-256 does not collide on the statements of the records offered. -/
def StatementsDistinct (n : Net) : Prop :=
  Set.InjOn H.blake2s {b | ∃ x ∈ n.board,
    b = messagePreimage (D.anchor.committee.domain H x.alg) x.list x.version}

/-- What every reachable network satisfies. -/
structure NetInv (n : Net) : Prop where
  member : ∀ i pk, Correct D i pk → (memberSystem D i pk).Reachable (n.member i)
  pool : ∀ sig ∈ n.pool, Unforged D xmssVerify n sig
  board : ∀ x ∈ n.board, FromPool V xmssVerify n.pool x

end

section
variable {H : Hashes} {D : Deployment H} {V : LeanVM} {xmssVerify : XmssVerify}

/-! ## One step -/

/-- A member's signatures stay on record. -/
theorem Signed.step {i : Nat} {pk : XmssPublicKey} {a : Act} {s s' : SlotSys} {slot : UInt32}
    {message : Blob 32} (h : Signed s slot message) (hs : (memberSystem D i pk).step s a s') :
    Signed s' slot message := by
  obtain ⟨r, hr⟩ := h
  refine ⟨r, (log_suffix ?_ hs).subset hr⟩
  intro c r w
  cases r <;> first | exact List.suffix_rfl | exact List.suffix_cons _ _

theorem Signed.update {n : Net} {i j : Nat} {pk : XmssPublicKey} {a : Act} {s : SlotSys}
    {slot : UInt32} {message : Blob 32} (hs : (memberSystem D i pk).step (n.member i) a s)
    (h : Signed (n.member j) slot message) :
    Signed (Function.update n.member i s j) slot message := by
  by_cases hj : j = i
  · subst hj
    rw [Function.update_self]
    exact h.step hs
  · rw [Function.update_of_ne hj]
    exact h

theorem FromPool.cons {pool : List XmssSignature} {x : Published}
    (h : FromPool V xmssVerify pool x) (sig : XmssSignature) :
    FromPool V xmssVerify (sig :: pool) x := by
  cases x with
  | raw r => exact fun s hs => List.mem_cons_of_mem _ (h s hs)
  | snark r =>
    intro agg hagg hv g hg
    obtain ⟨hn, hk⟩ := h agg hagg hv g hg
    refine ⟨hn, fun pk hpk => ?_⟩
    obtain ⟨s, hs⟩ := hk pk hpk
    refine ⟨s, ?_⟩
    simp only [poolVerify, Bool.and_eq_true, decide_eq_true_eq] at hs ⊢
    exact ⟨hs.1, List.mem_cons_of_mem _ hs.2⟩

theorem netInv_step {n n' : Net} {a : NetAct} (h : NetInv D V xmssVerify n)
    (hs : NetStep D V xmssVerify n a n') : NetInv D V xmssVerify n' := by
  cases hs with
  | @member i pk a s hi hstep =>
    refine ⟨fun j pk' hj => ?_, fun sig hsig j pk' m slot hj hv => ?_, h.board⟩
    · by_cases hji : j = i
      · subst hji
        obtain rfl : pk = pk' := Option.some.inj (hi.2.symm.trans hj.2)
        simp only [Function.update_self]
        exact .step a (h.member j pk hj) hstep
      · simp only [Function.update_of_ne hji]
        exact h.member j pk' hj
    · exact (h.pool sig hsig j pk' m slot hj hv).update hstep
  | @emit sig hu =>
    refine ⟨h.member, fun s hs => ?_, fun x hx => (h.board x hx).cons sig⟩
    rcases List.mem_cons.mp hs with rfl | hs
    · exact hu
    · exact h.pool s hs
  | @publish x hx =>
    refine ⟨h.member, h.pool, fun y hy => ?_⟩
    rcases List.mem_cons.mp hy with rfl | hy
    · exact hx
    · exact h.board y hy

theorem netInv_reachable {n : Net} (hr : (network D V xmssVerify).Reachable n) :
    NetInv D V xmssVerify n := by
  have hI : (network D V xmssVerify).Inductive (NetInv D V xmssVerify) := by
    refine ⟨fun n h => ?_, fun n a n' h hs => netInv_step h hs⟩
    obtain ⟨hm, hp, hb⟩ := h
    refine ⟨fun i pk hi => .init (hm i pk hi), ?_, ?_⟩
    · rw [hp]; simp
    · rw [hb]; simp
  exact hI.reachable n hr

/-! ## Votes and certificates -/

/-- Two entries of a list with the same image under `f` are one, if the images
are distinct. -/
theorem eq_of_filterMap_nodup {α β : Type} {f : α → Option β} {l : List α}
    (h : (l.filterMap f).Nodup) {a b : α} {x : β} (ha : a ∈ l) (hb : b ∈ l) (hfa : f a = some x)
    (hfb : f b = some x) : a = b := by
  induction l with
  | nil => cases ha
  | cons e l ih =>
    have hmem : ∀ c ∈ l, f c = some x → x ∈ l.filterMap f :=
      fun c hc hfc => List.mem_filterMap.mpr ⟨c, hc, hfc⟩
    rcases List.mem_cons.mp ha with rfl | hal
    · rcases List.mem_cons.mp hb with rfl | hbl
      · rfl
      · rw [List.filterMap_cons_some hfa] at h
        exact absurd (hmem b hbl hfb) (List.nodup_cons.mp h).1
    · rcases List.mem_cons.mp hb with rfl | hbl
      · rw [List.filterMap_cons_some hfb] at h
        exact absurd (hmem a hal hfa) (List.nodup_cons.mp h).1
      · cases he : f e with
        | none => rw [List.filterMap_cons_none he] at h; exact ih h hal hbl
        | some y => rw [List.filterMap_cons_some he] at h; exact ih (List.nodup_cons.mp h).2 hal hbl

/-- A correct member signs one message for a slot. -/
theorem signed_once {i : Nat} {pk : XmssPublicKey} {s : SlotSys}
    (hr : (memberSystem D i pk).Reachable s) {slot : UInt32} {m m' : Blob 32}
    (h : Signed s slot m) (h' : Signed s slot m') : m = m' := by
  obtain ⟨n, hl⟩ := (inv_reachable (L := .visible) hr).logged
  have hd : (spentSlots s.world.log).Nodup := hl.spent.imp fun h => Nat.ne_of_gt h
  obtain ⟨r, hr⟩ := h
  obtain ⟨r', hr'⟩ := h'
  have he := eq_of_filterMap_nodup (x := slot.toNat) hd hr hr' rfl rfl
  cases he
  rfl

/-- The members in whose name a set of signatures stands. -/
theorem certified_of_validSet {n : Net} (hn : NetInv D V xmssVerify n) {alg : Algorithms}
    {list : List Entry} {version slot : UInt32} {pairs : List (Nat × XmssSignature)}
    (h : ValidSet H xmssVerify D.anchor.committee alg list version slot pairs)
    (ht : D.anchor.committee.t ≤ pairs.length) (hpool : ∀ p ∈ pairs, p.2 ∈ n.pool) :
    Quorum.Certified (Finset.range D.anchor.committee.members.length) D.faulty
      D.anchor.committee.t (fun i => Signed (n.member i)) slot
      (D.anchor.committee.messageFor H alg list version) := by
  refine ⟨(pairs.map Prod.fst).toFinset, fun i hi => ?_, ?_, fun i hi hc => ?_⟩
  · obtain ⟨p, hp, rfl⟩ := List.mem_map.mp (List.mem_toFinset.mp hi)
    obtain ⟨pk, hpk, -⟩ := h.valid p hp
    exact Finset.mem_range.mpr (List.getElem?_eq_some_iff.mp hpk).1
  · rw [List.toFinset_card_of_nodup h.distinct, List.length_map]
    exact ht
  · obtain ⟨p, hp, rfl⟩ := List.mem_map.mp (List.mem_toFinset.mp hi)
    obtain ⟨pk, hpk, hv⟩ := h.valid p hp
    exact hn.pool p.2 (hpool p hp) p.1 pk _ slot ⟨hc, hpk⟩ hv

/-- An accepted record is a certificate for its statement at its version's slot. -/
theorem certified_of_accepts {n : Net} (hn : NetInv D V xmssVerify n) {x : Published}
    (hx : x ∈ n.board) (ha : Accepts D V xmssVerify x) :
    ∃ slot, D.anchor.committee.slotFor x.version = some slot ∧
      Quorum.Certified (Finset.range D.anchor.committee.members.length) D.faulty
        D.anchor.committee.t (fun i => Signed (n.member i)) slot
        (D.anchor.committee.messageFor H x.alg x.list x.version) := by
  have hfrom := hn.board x hx
  cases x with
  | raw r =>
    obtain ⟨slot, hset, ht⟩ := validSet_of_verifyStatusList ha
    refine ⟨slot, hset.derived, certified_of_validSet hn hset ht fun p hp => ?_⟩
    exact hfrom p.2 (List.of_mem_zip hp).2
  | snark r =>
    obtain ⟨slot, pairs, hset, ht⟩ := validSet_of_verify hfrom ha
    -- the signatures behind the aggregate verify and are in circulation
    have hboth : ∀ p ∈ pairs, ∃ pk, D.anchor.committee.members[p.1]? = some pk ∧
        xmssVerify pk (D.anchor.committee.messageFor H r.alg r.statusList r.version) p.2 slot =
          true ∧ p.2 ∈ n.pool := by
      intro p hp
      obtain ⟨pk, hpk, hv⟩ := hset.valid p hp
      simp only [poolVerify, Bool.and_eq_true, decide_eq_true_eq] at hv
      exact ⟨pk, hpk, hv⟩
    refine ⟨slot, hset.derived, certified_of_validSet hn
      ⟨hset.derived, hset.distinct, fun p hp => ?_⟩ ht fun p hp => ?_⟩
    · obtain ⟨pk, hpk, hv, -⟩ := hboth p hp
      exact ⟨pk, hpk, hv⟩
    · obtain ⟨-, -, -, hm⟩ := hboth p hp
      exact hm

/-- Relying parties agree on the content of every version: in every reachable
state, two records of one version that are accepted, by whichever verifier,
carry the same list. -/
theorem relying_parties_agree (D : Deployment H) (V : LeanVM) (xmssVerify : XmssVerify) (f : Nat)
    (hf : D.faulty.card ≤ f)
    (hquorum : D.anchor.committee.members.length + f < 2 * D.anchor.committee.t) (n : Net)
    (hr : (network D V xmssVerify).Reachable n) (hhash : StatementsDistinct D n) :
    ∀ x ∈ n.board, ∀ y ∈ n.board, Accepts D V xmssVerify x →
      Accepts D V xmssVerify y → x.version = y.version → x.list = y.list := by
  intro x hx y hy hax hay hv
  have hn := netInv_reachable hr
  obtain ⟨slot, hslot, hcx⟩ := certified_of_accepts hn hx hax
  obtain ⟨slot', hslot', hcy⟩ := certified_of_accepts hn hy hay
  rw [← hv, hslot] at hslot'
  cases hslot'
  have honce : ∀ i ∈ Finset.range D.anchor.committee.members.length, i ∉ D.faulty →
      ∀ slot m m', Signed (n.member i) slot m → Signed (n.member i) slot m' → m = m' := by
    intro i hi hc slot m m' h h'
    have hpk := List.getElem?_eq_getElem (Finset.mem_range.mp hi)
    exact signed_once (hn.member i _ ⟨hc, hpk⟩) h h'
  have hmsg := hcx.unique hf (by rw [Finset.card_range]; exact hquorum) honce hcy
  have hpre := hhash ⟨x, hx, rfl⟩ ⟨y, hy, rfl⟩ hmsg
  exact (messagePreimage_inj hpre).2.1

/-- A run of one member's processes is a run of the network. -/
theorem reachable_member (V : LeanVM) (xmssVerify : XmssVerify) {members : Nat → SlotSys} {i : Nat}
    {pk : XmssPublicKey} {s : SlotSys} (hi : Correct D i pk)
    (h0 : ∀ j pk', Correct D j pk' → (memberSystem D j pk').init (members j)) (hr : (memberSystem D i pk).Reachable s) :
    (network D V xmssVerify).Reachable ⟨Function.update members i s, [], []⟩ := by
  induction hr with
  | @init s hs =>
    refine .init ⟨fun j pk' hj => ?_, rfl, rfl⟩
    by_cases hji : j = i
    · subst hji
      obtain rfl : pk = pk' := Option.some.inj (hi.2.symm.trans hj.2)
      simpa using hs
    · simpa [Function.update_of_ne hji] using h0 j pk' hj
  | @step s s' a hr hs ih =>
    have hstep : NetStep D V xmssVerify ⟨Function.update members i s, [], []⟩ (.member i a) _ :=
      .member hi (s := s') (by simpa using hs)
    simp only [Function.update_idem] at hstep
    exact .step _ ih hstep

theorem reachable_emit {n : Net} (hr : (network D V xmssVerify).Reachable n) {sig : XmssSignature}
    (h : Unforged D xmssVerify n sig) :
    (network D V xmssVerify).Reachable { n with pool := sig :: n.pool } :=
  .step (.emit sig) hr (.emit h)

theorem reachable_publish {n : Net} (hr : (network D V xmssVerify).Reachable n) {x : Published}
    (h : FromPool V xmssVerify n.pool x) :
    (network D V xmssVerify).Reachable { n with board := x :: n.board } :=
  .step (.publish x) hr (.publish h)

end

/-! ## One version, both forms -/

/-- The sample committee with its member correct. -/
def sampleDeployment : Deployment sampleHashes where
  anchor := sampleAnchor
  faulty := ∅
  path _ := demoPath
  slotEnd _ := 107
  base _ := 0

def sampleSnark : SnarkStatusList := ⟨.wotsXmss, [], 0, [42]⟩

theorem correct_sample {i : Nat} {pk : XmssPublicKey} (h : Correct sampleDeployment i pk) :
    i = 0 ∧ pk = sampleKey := by
  obtain ⟨hi, hpk⟩ := List.getElem?_eq_some_iff.mp h.2
  have h0 : i = 0 := Nat.lt_one_iff.mp hi
  subst h0
  exact ⟨rfl, hpk.symm⟩

theorem sampleSnark_accepted :
    verify sampleHashes sampleVM sampleCommittee sampleSnark = true := by
  refine verify_iff.mpr ⟨(), proof_ok.mpr ⟨rfl, rfl⟩, check_iff.mpr ⟨rfl, 100, [sampleKey], rfl, ?_⟩⟩
  exact ⟨by simp [sampleCommittee], rfl, le_refl _, rfl⟩

theorem sampleSnark_fromPool :
    FromPool sampleVM (sampleVerify sampleStatement) [sampleSignature] (.snark sampleSnark) := by
  intro agg _ _ g hg
  rw [List.mem_singleton.mp hg]
  refine ⟨by simp, fun pk hpk => ⟨sampleSignature, ?_⟩⟩
  rw [List.mem_singleton.mp hpk]
  simp [poolVerify, sampleVerify]

/-- The member signs version 0, and its one signature is published in both
forms; both are accepted. -/
theorem relying_parties_agree_sample : ∃ (n : Net) (r : StatusList),
    n.board = [.snark sampleSnark, .raw r] ∧
    Accepts sampleDeployment sampleVM (sampleVerify sampleStatement) (.raw r) ∧
    Accepts sampleDeployment sampleVM (sampleVerify sampleStatement) (.snark sampleSnark) ∧
    r.statusList = sampleSnark.statusList := by
  have h0 : Correct sampleDeployment 0 sampleKey := ⟨Finset.notMem_empty 0, rfl⟩
  obtain ⟨s, hs, hlog⟩ := reachable_signed sampleHashes.sha3 demoPath sampleKey
    (show (100 : UInt32) ≤ 107 by decide) sampleStatement sampleSignature
  obtain ⟨r, hnew, -, -, -, -, hiff⟩ := verifyStatusList_new sampleAnchor.wellFormed sample_validSet
  have hraw : Accepts sampleDeployment sampleVM (sampleVerify sampleStatement) (.raw r) :=
    hiff.mpr (le_refl 1)
  have hlt : ∀ p ∈ [(0, sampleSignature)], p.1 < sampleCommittee.members.length := by
    simp [sampleCommittee]
  obtain ⟨r', hnew', halg, hlist, hver, -, -, hsig⟩ :=
    statusList_new_ok .wotsXmss [] 0 sampleAnchor.wellFormed.size (by simp) hlt
  obtain rfl : r' = r := Except.ok.inj (hnew'.symm.trans hnew)
  -- the member signs, the signature circulates, both records are offered
  have hblank : ∀ j pk, Correct sampleDeployment j pk →
      (memberSystem sampleDeployment j pk).init ⟨blank, fun _ => .idle⟩ :=
    fun j pk _ => ⟨start_blank _ _, rfl⟩
  have h1 := reachable_member sampleVM (sampleVerify sampleStatement) h0 hblank hs
  have hunforged : Unforged sampleDeployment (sampleVerify sampleStatement)
      ⟨Function.update (fun _ => ⟨blank, fun _ => .idle⟩) 0 s, [], []⟩ sampleSignature := by
    intro i pk m slot hi hv
    obtain ⟨rfl, rfl⟩ := correct_sample hi
    obtain ⟨-, rfl, -, rfl⟩ := of_decide_eq_true hv
    exact ⟨_, by simpa using hlog⟩
  have h2 := reachable_emit h1 hunforged
  have hfrom : FromPool sampleVM (sampleVerify sampleStatement) [sampleSignature] (.raw r') := by
    intro sig hmem
    rw [hsig] at hmem
    obtain ⟨p, hp, rfl⟩ := List.mem_map.mp hmem
    rw [List.mem_singleton.mp ((sortPairs_perm _).mem_iff.mp hp)]
    exact List.mem_singleton_self _
  have h4 := reachable_publish (reachable_publish h2 hfrom) sampleSnark_fromPool
  refine ⟨⟨Function.update (fun _ => ⟨blank, fun _ => .idle⟩) 0 s, [sampleSignature],
    [.snark sampleSnark, .raw r']⟩, r', rfl, hraw, sampleSnark_accepted, ?_⟩
  refine relying_parties_agree sampleDeployment sampleVM (sampleVerify sampleStatement) 0
    (le_refl 0) (by decide) _ h4 ?_ (.raw r') (by simp) (.snark sampleSnark) (by simp) hraw
    sampleSnark_accepted hver
  -- one statement, so nothing to collide
  rintro b ⟨x, hx, rfl⟩ b' ⟨y, hy, rfl⟩ -
  simp only [List.mem_cons, List.not_mem_nil, or_false] at hx hy
  rcases hx with rfl | rfl <;> rcases hy with rfl | rfl <;>
    simp [Published.alg, Published.list, Published.version, halg, hlist, hver, sampleSnark]

end Drot.L5.Agreement
