import Drot.L2State.Freshness
import Drot.L4Node.MlDsaVerifier
import Drot.L4Node.SnarkVerifier

/-!
# Relying parties (`node/mod.rs`, `raw_node.rs`, `snark_node.rs`, `mldsa_holder.rs`)

Decode, verify, and only then offer the version to the freshness gate. The three
nodes differ in the published form alone, so `accept` is one definition over a
`Form` and each node instantiates it. What storage answers is left open by
`Prog.Yields`.

* `yields_accept`: what one call does, whatever storage answers.
* `forged_bytes_never_move_the_gate`: over any sequence of calls the mark ends at
  the maximum of where it started and the authentic versions offered, each
  outcome is determined by the input and the mark before, and the order of the
  inputs does not matter.
-/
namespace Drot.L4.Relying
open Bytes L1.Message L2.Freshness L3.Protocol RawVerifier Prog

/-- mirrors src/src/node/mod.rs:18-33 -/
inductive Outcome where
  | accepted (version : UInt32)
  | stale (version mark : UInt32)
  | refused
  deriving DecidableEq, Repr

/-- mirrors src/src/node/mod.rs:48-54 -/
def Outcome.advance (mark : HighWaterMark) (version : UInt32) :
    MarkProg (HighWaterMark × Outcome) :=
  ((tryAdvance version).run.run mark).bind fun
    | (.ok .accepted, mark) => .ret (mark, .accepted version)
    | (.ok (.stale m), mark) => .ret (mark, .stale version m)
    | (.error _, mark) => .ret (mark, .refused)

/-- One published form: how a record is decoded and checked, and what it says. -/
structure Form (V : Type) where
  Record : Type
  fromBytes : Bytes → Except String Record
  verify : V → Record → Bool
  version : Record → UInt32
  list : Record → List Entry

/-- mirrors src/src/node/raw_node.rs:12-15, snark_node.rs:23-26, mldsa_holder.rs:27-30 -/
structure Node (V : Type) where
  verifier : V
  mark : HighWaterMark

/-- mirrors src/src/node/raw_node.rs:41-53, snark_node.rs:61-69 -/
def Form.accept {V : Type} (f : Form V) (n : Node V) (bytes : Bytes) : MarkProg (Node V × Outcome) :=
  match f.fromBytes bytes with
  | .error _ => .ret (n, .refused)
  | .ok record =>
    if f.verify n.verifier record then
      (Outcome.advance n.mark (f.version record)).bind fun x => .ret ({ n with mark := x.1 }, x.2)
    else .ret (n, .refused)

/-! ## The three nodes -/

/-- `VerifierNode::verify_status_list`, which always answers. -/
def rawForm (H : Hashes) (xmssVerify : XmssVerify) : Form (Anchor H) where
  Record := StatusList
  fromBytes := StatusList.fromBytes
  verify c r := (verifyStatusList H xmssVerify c.committee r).get
    (Option.isSome_iff_exists.mpr (verifyStatusList_total c.committee r))
  version := StatusList.version
  list := StatusList.statusList

def snarkForm (H : Hashes) (V : SnarkVerifier.LeanVM) : Form (Anchor H) where
  Record := SnarkStatusList
  fromBytes := SnarkStatusList.fromBytes
  verify c r := SnarkVerifier.verify H V c.committee r
  version := SnarkStatusList.version
  list := SnarkStatusList.statusList

/-- mirrors src/demo/src/bin/mldsa_holder.rs:91-108, where `advance` is written
out -/
def mlDsaForm (K : L3.MlDsa.Primitives) : Form (L3.MlDsa.Anchor K) where
  Record := L3.MlDsa.MlDsaStatusList K
  fromBytes := L3.MlDsa.MlDsaStatusList.fromBytes K
  verify c r := (MlDsaVerifier.verifyStatusList c.committee r).get
    (Option.isSome_iff_exists.mpr (MlDsaVerifier.verifyStatusList_total c.committee r))
  version := L3.MlDsa.MlDsaStatusList.version
  list := L3.MlDsa.MlDsaStatusList.statusList

/-! ## One call -/

section
variable {V : Type} {f : Form V} {Q : (op : MarkOp) → Ans NoCall op → Prop}

/-- The input decodes to `r`, and `r` passes the node's predicate. -/
def Form.Authentic (f : Form V) (v : V) (bytes : Bytes) (r : f.Record) : Prop :=
  f.fromBytes bytes = .ok r ∧ f.verify v r = true

/-- The version an input offers to the gate. -/
def Form.offered (f : Form V) (v : V) (bytes : Bytes) : Option UInt32 :=
  match f.fromBytes bytes with
  | .error _ => none
  | .ok r => if f.verify v r then some (f.version r) else none

theorem Form.offered_eq_some {v : V} {bytes : Bytes} {version : UInt32} :
    f.offered v bytes = some version ↔ ∃ r, f.Authentic v bytes r ∧ f.version r = version := by
  unfold offered Authentic
  split
  · rename_i e he
    simp [he]
  · rename_i r hr
    rw [hr]
    split
    · rename_i hv
      simp [hv]
    · rename_i hv
      constructor
      · intro h; cases h
      · intro h
        obtain ⟨_, ⟨⟨⟩, hr'⟩, -⟩ := h
        exact absurd hr' hv

/-- The mark against which a version is new. -/
def Above (mark : Option UInt32) (version : UInt32) : Prop := ∀ m, mark = some m → m < version

theorem above_iff {m : HighWaterMark} {version : UInt32} :
    Above m.mark version ↔ ¬ (m.have_ = true ∧ version ≤ m.current) := by
  unfold Above HighWaterMark.mark
  split
  · rename_i h
    simp [h]
  · rename_i h
    simp [h]

/-- What the gate does, whatever storage answers. -/
theorem yields_advance {m m' : HighWaterMark} {version : UInt32} {o : Outcome}
    (h : Yields Q (Outcome.advance m version) (m', o)) :
    (Above m.mark version ∧ m'.mark = some version ∧ o = .accepted version) ∨
    (Above m.mark version ∧ m' = m ∧ o = .refused) ∨
    ∃ mark, m.mark = some mark ∧ version ≤ mark ∧ m' = m ∧ o = .stale version mark := by
  unfold Outcome.advance at h
  rw [(commits_tryAdvance m version).bind] at h
  obtain ⟨x, hx, ho⟩ := yields_bind.mp h
  unfold advanced at hx
  split at hx
  · rename_i hs
    obtain rfl := yields_ret.mp hx
    cases yields_ret.mp ho
    exact .inr (.inr ⟨m.current, by simp [HighWaterMark.mark, hs.1], hs.2, rfl, rfl⟩)
  · rename_i hs
    obtain ⟨y, -, hy⟩ := yields_bind.mp hx
    cases y with
    | error e =>
      obtain rfl := yields_ret.mp hy
      cases yields_ret.mp ho
      exact .inr (.inl ⟨above_iff.mpr hs, rfl, rfl⟩)
    | ok u =>
      obtain rfl := yields_ret.mp hy
      cases yields_ret.mp ho
      exact .inl ⟨above_iff.mpr hs, rfl, rfl⟩

/-- What one call does: nothing for an input that is not authentic, else what
the gate does with its version. -/
theorem yields_accept {n n' : Node V} {bytes : Bytes} {o : Outcome}
    (h : Yields Q (f.accept n bytes) (n', o)) :
    (f.offered n.verifier bytes = none ∧ n' = n ∧ o = .refused) ∨
    ∃ version, f.offered n.verifier bytes = some version ∧ n'.verifier = n.verifier ∧
      Yields Q (Outcome.advance n.mark version) (n'.mark, o) := by
  unfold Form.accept at h
  unfold Form.offered
  split at h
  · cases yields_ret.mp h
    exact .inl ⟨rfl, rfl, rfl⟩
  rename_i r _
  split at h
  · rename_i hv
    obtain ⟨⟨m', o'⟩, hm, hx⟩ := yields_bind.mp h
    cases yields_ret.mp hx
    exact .inr ⟨f.version r, if_pos hv, rfl, hm⟩
  · rename_i hv
    cases yields_ret.mp h
    exact .inl ⟨if_neg hv, rfl, rfl⟩

/-! ## When storage succeeds -/

/-- `persist` succeeds when its operations do. -/
theorem yields_persist {m : HighWaterMark} {version : Option UInt32}
    {x : Except HighWaterMarkError Unit} :
    Yields Succeeds (persist m version).run x ↔ x = .ok () := by
  unfold persist
  constructor
  · intro h
    obtain ⟨y, hy, hx⟩ := yields_bind.mp h
    obtain ⟨k, rfl⟩ := yields_atomicReplace.mp hy
    exact yields_ret.mp hx
  · intro h
    subst h
    exact yields_bind.mpr ⟨.ok 0, yields_atomicReplace.mpr ⟨0, rfl⟩, .ret _⟩

/-- The gate then never refuses, and it answers. -/
theorem yields_advance_succeeds (m : HighWaterMark) (version : UInt32) :
    (∃ x, Yields Succeeds (Outcome.advance m version) x) ∧
    ∀ m', ¬ Yields Succeeds (Outcome.advance m version) (m', .refused) := by
  unfold Outcome.advance
  rw [(commits_tryAdvance m version).bind]
  unfold advanced
  split
  · refine ⟨⟨_, .ret _⟩, fun m' h => ?_⟩
    cases yields_ret.mp h
  · refine ⟨⟨({ m with current := version, have_ := true }, .accepted version), ?_⟩, fun m' h => ?_⟩
    · exact yields_bind.mpr ⟨.ok _, yields_bind.mpr ⟨.ok (), yields_persist.mpr rfl, .ret _⟩, .ret _⟩
    · obtain ⟨x, hx, ho⟩ := yields_bind.mp h
      obtain ⟨y, hy, hx⟩ := yields_bind.mp hx
      obtain rfl := yields_persist.mp hy
      obtain rfl := yields_ret.mp hx
      cases yields_ret.mp ho

/-! ## Sequences of calls -/

/-- One call as it was made: the mark it found, its input and its outcome. -/
structure Call where
  before : Option UInt32
  input : Bytes
  outcome : Outcome

/-- Calls one after the other, with `persist` succeeding in each. -/
inductive Session (f : Form V) : Node V → List Call → Node V → Prop where
  | nil (n : Node V) : Session f n [] n
  | cons {n n' n'' : Node V} {input : Bytes} {outcome : Outcome} {calls : List Call}
      (h : Yields Succeeds (f.accept n input) (n', outcome)) (hs : Session f n' calls n'') :
      Session f n (⟨n.mark.mark, input, outcome⟩ :: calls) n''

/-- The mark as a point of the versions with a bottom: nothing accepted yet. -/
def Node.level (n : Node V) : WithBot Nat := n.mark.mark.map UInt32.toNat

/-- The versions of the authentic inputs. -/
def Form.versions (f : Form V) (v : V) (inputs : List Bytes) : List Nat :=
  inputs.filterMap fun bytes => (f.offered v bytes).map UInt32.toNat

/-- What the outcome of a call says about its input. -/
structure Decided (f : Form V) (v : V) (c : Call) : Prop where
  accepted : ∀ version, c.outcome = .accepted version ↔
    ∃ r, f.Authentic v c.input r ∧ f.version r = version ∧ Above c.before version
  stale : ∀ version mark, c.outcome = .stale version mark ↔
    ∃ r, f.Authentic v c.input r ∧ f.version r = version ∧ c.before = some mark ∧ version ≤ mark
  refused : c.outcome = .refused ↔ ¬ ∃ r, f.Authentic v c.input r

theorem not_authentic {v : V} {bytes : Bytes} (h : f.offered v bytes = none) (r : f.Record) :
    ¬ f.Authentic v bytes r := by
  intro hr
  rw [Form.offered_eq_some.mpr ⟨r, hr, rfl⟩] at h
  cases h

/-- Decode is a function: an authentic input has one record. -/
theorem authentic_unique {v : V} {bytes : Bytes} {r r' : f.Record} (h : f.Authentic v bytes r)
    (h' : f.Authentic v bytes r') : r = r' :=
  Except.ok.inj (h.1.symm.trans h'.1)

/-- One call with a working disk. -/
theorem accept_step {n n' : Node V} {input : Bytes} {outcome : Outcome}
    (h : Yields Succeeds (f.accept n input) (n', outcome)) :
    n'.verifier = n.verifier ∧ Decided f n.verifier ⟨n.mark.mark, input, outcome⟩ ∧
      n'.level = max n.level ((f.offered n.verifier input).map UInt32.toNat : WithBot Nat) := by
  rcases yields_accept h with ⟨hno, rfl, rfl⟩ | ⟨version, hof, hv, hadv⟩
  · have hn := not_authentic hno
    refine ⟨rfl, ⟨?_, ?_, ?_⟩, ?_⟩
    · simp [hn]
    · simp [hn]
    · simp [hn]
    · rw [hno]
      exact (max_bot_right _).symm
  obtain ⟨r, hr, rfl⟩ := Form.offered_eq_some.mp hof
  have huniq : ∀ {r'}, f.Authentic n.verifier input r' → r' = r := fun h' => authentic_unique h' hr
  rcases yields_advance hadv with ⟨hab, hm, rfl⟩ | ⟨-, -, rfl⟩ | ⟨mark, hmark, hle, hm, rfl⟩
  · refine ⟨hv, ⟨fun v => ⟨?_, ?_⟩, fun v m => ⟨by rintro ⟨⟩, ?_⟩, ⟨by rintro ⟨⟩, ?_⟩⟩, ?_⟩
    · rintro ⟨⟩
      exact ⟨r, hr, rfl, hab⟩
    · intro h
      obtain ⟨r', hr', rfl, -⟩ := h
      rw [huniq hr']
    · intro h
      obtain ⟨r', hr', rfl, hb, hle⟩ := h
      rw [huniq hr'] at hle
      exact absurd (hab m hb) (UInt32.not_lt.mpr hle)
    · exact fun hn => absurd ⟨r, hr⟩ hn
    · unfold Node.level
      rw [hm, hof]
      symm
      apply max_eq_right
      cases hb : n.mark.mark with
      | none => exact bot_le
      | some m => exact WithBot.coe_le_coe.mpr (UInt32.lt_iff_toNat_lt.mp (hab m hb)).le
  · exact absurd hadv ((yields_advance_succeeds _ _).2 _)
  · refine ⟨hv, ⟨fun v => ⟨by rintro ⟨⟩, ?_⟩, fun v m => ⟨?_, ?_⟩, ⟨by rintro ⟨⟩, ?_⟩⟩, ?_⟩
    · intro h
      obtain ⟨r', hr', rfl, hab⟩ := h
      rw [huniq hr'] at hab
      exact absurd (hab mark hmark) (UInt32.not_lt.mpr hle)
    · rintro ⟨⟩
      exact ⟨r, hr, rfl, hmark, hle⟩
    · intro h
      obtain ⟨r', hr', rfl, hb, -⟩ := h
      rw [huniq hr']
      rw [hmark] at hb
      cases hb
      rfl
    · exact fun hn => absurd ⟨r, hr⟩ hn
    · unfold Node.level
      rw [hm, hof, hmark]
      symm
      apply max_eq_left
      exact WithBot.coe_le_coe.mpr (UInt32.le_iff_toNat_le.mp hle)

/-- Any sequence of calls. -/
theorem session_spec {n n' : Node V} {calls : List Call} (h : Session f n calls n') :
    (∀ c ∈ calls, Decided f n.verifier c) ∧
      n'.level = max n.level (f.versions n.verifier (calls.map Call.input)).maximum := by
  induction h with
  | nil n => exact ⟨by simp, (max_bot_right _).symm⟩
  | @cons n n₁ n₂ input outcome calls h _ ih =>
    obtain ⟨hv, hd, hl⟩ := accept_step h
    obtain ⟨hall, hmax⟩ := ih
    rw [hv] at hall hmax
    refine ⟨List.forall_mem_cons.mpr ⟨hd, hall⟩, ?_⟩
    rw [hmax, hl]
    unfold Form.versions
    rw [List.map_cons, List.filterMap_cons]
    cases f.offered n.verifier input with
    | none => exact congrArg (max · _) (max_bot_right _)
    | some v =>
      simp only [Option.map_some, List.maximum_cons]
      exact max_assoc _ _ _

/-- A working disk answers every call. -/
theorem exists_session (f : Form V) (n : Node V) (inputs : List Bytes) :
    ∃ calls n', Session f n calls n' ∧ calls.map Call.input = inputs := by
  induction inputs generalizing n with
  | nil => exact ⟨[], n, .nil n, rfl⟩
  | cons input inputs ih =>
    have hx : ∃ x, Yields Succeeds (f.accept n input) x := by
      unfold Form.accept
      split
      · exact ⟨_, .ret _⟩
      split
      · obtain ⟨x, hx⟩ := (yields_advance_succeeds n.mark (f.version _)).1
        exact ⟨_, yields_bind.mpr ⟨x, hx, .ret _⟩⟩
      · exact ⟨_, .ret _⟩
    obtain ⟨⟨n₁, outcome⟩, h⟩ := hx
    obtain ⟨calls, n', hs, hc⟩ := ih n₁
    exact ⟨_, n', .cons h hs, by rw [List.map_cons, hc]⟩

theorem mark_eq_of_level_eq {n n' : Node V} (h : n.level = n'.level) : n.mark.mark = n'.mark.mark :=
  Option.map_injective (fun _ _ => UInt32.toNat_inj.mp) h

/-- What holds of a node of form `f`: every sequence of calls answers, ends at
the maximum of the mark it started from and the versions of its authentic
inputs, decides each input by the mark it found, and ends at the same mark in
any other order. -/
def Gated (f : Form V) : Prop :=
  ∀ (n : Node V) (inputs : List Bytes),
    (∃ calls n', Session f n calls n' ∧ calls.map Call.input = inputs) ∧
    ∀ calls n', Session f n calls n' → calls.map Call.input = inputs →
      n'.level = max n.level (f.versions n.verifier inputs).maximum ∧
      (∀ c ∈ calls, Decided f n.verifier c) ∧
      ∀ calls' n'', Session f n calls' n'' → (calls'.map Call.input).Perm inputs →
        n''.mark.mark = n'.mark.mark

theorem gated (f : Form V) : Gated f := by
  intro n inputs
  refine ⟨exists_session f n inputs, ?_⟩
  rintro calls n' h rfl
  obtain ⟨hd, hl⟩ := session_spec h
  refine ⟨hl, hd, fun calls' n'' h' hp => mark_eq_of_level_eq ?_⟩
  have hperm : (f.versions n.verifier (calls'.map Call.input)).Perm
      (f.versions n.verifier (calls.map Call.input)) := hp.filterMap _
  rw [(session_spec h').2, hl, hperm.maximum_eq]

end

/-- Bytes that do not decode or do not verify never move the gate: for the raw
node, the SNARK node and the ML-DSA node of the demo, under every anchor and from
every mark. -/
theorem forged_bytes_never_move_the_gate (H : Hashes) (xmssVerify : XmssVerify)
    (V : SnarkVerifier.LeanVM) (K : L3.MlDsa.Primitives) :
    Gated (rawForm H xmssVerify) ∧ Gated (snarkForm H V) ∧ Gated (mlDsaForm K) :=
  ⟨gated _, gated _, gated _⟩

end Drot.L4.Relying
