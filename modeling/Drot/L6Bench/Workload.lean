import Drot.Core.Shuffle
import Drot.L3Protocol.StatusList

/-!
# Fixture quorums (`bench/workload.rs`, `bin/committee_fixture.rs`)

The fixture process holds the key of every member and signs without a slot
counter. The signers of a version are drawn by `quorum_indices`, a partial
shuffle driven by SplitMix64; the ML-DSA fixture has its own copy of it
(`mldsa/src/bin/support/mod.rs`).

`signStatement` is one round of the fixture: the slot of a version, the message,
the signatures and the record made of them. `none` is a panic, and the calls to
`sign` made before it are listed all the same.

* `quorumIndices_eq_some`: `t ≤ n` distinct indices below `n`, no division by zero
  and no swap out of range.
* `fixture_quorums_distinct`: no key signs twice in a round, and the record of the
  round is built.
* `signAll_uses_nodup`: no key signs twice at one slot in the whole process.
-/
namespace Drot.L6.Bench
open Bytes Bitmap Shuffle L1.Message L3.Protocol

/-! ## SplitMix64 -/

/-- The constants of a generator and of its seed. -/
structure SplitMix where
  increment : UInt64
  version : UInt64
  first : UInt64
  second : UInt64

namespace SplitMix

def seed (g : SplitMix) (version : UInt32) : UInt64 := g.increment ^^^ version.toUInt64 * g.version

/-- The next word and the state after it. -/
def next (g : SplitMix) (state : UInt64) : UInt64 × UInt64 :=
  let state := state + g.increment
  let z := (state ^^^ (state >>> 30)) * g.first
  let z := (z ^^^ (z >>> 27)) * g.second
  (z ^^^ (z >>> 31), state)

/-- `position + (next() % (n - position) as u64) as usize`; a remainder by zero panics. -/
def draw (g : SplitMix) (n : Nat) (state : UInt64) (position : Nat) : Option (Nat × UInt64) :=
  let (word, state) := g.next state
  let bound := UInt64.ofNat (n - position)
  if bound = 0 then none else some (position + (word % bound).toNat, state)

/-- `t` members of `0..n`: the first positions of the shuffle. -/
def quorum (g : SplitMix) (n t : Nat) (version : UInt32) : Option (List Nat) :=
  if t ≤ n then do
    let members ← shuffle (g.draw n) t 0 (g.seed version) (List.range n)
    return members.take t
  else none

/-- The remainder shrinks with the position, and is taken by what is left. -/
theorem inRange_draw (g : SplitMix) {n : Nat} (hn : n < 2 ^ 64) : InRange (g.draw n) n := by
  intro s position hp
  have hb : (UInt64.ofNat (n - position)).toNat = n - position := by
    rw [UInt64.toNat_ofNat']
    exact Nat.mod_eq_of_lt (by omega)
  have hne : UInt64.ofNat (n - position) ≠ 0 := by
    intro h
    have := congrArg UInt64.toNat h
    rw [hb] at this
    simp only [UInt64.toNat_zero] at this
    omega
  refine ⟨position + ((g.next s).1 % UInt64.ofNat (n - position)).toNat, (g.next s).2,
    if_neg hne, Nat.le_add_right _ _, ?_⟩
  rw [UInt64.toNat_mod, hb]
  have := Nat.mod_lt (g.next s).1.toNat (show n - position > 0 by omega)
  omega

/-- Whatever the constants, a quorum of a committee is drawn without a panic and
names `t` different members. -/
theorem quorum_eq_some (g : SplitMix) {n t : Nat} (hn : n < 2 ^ 64) (ht : t ≤ n)
    (version : UInt32) : ∃ q, g.quorum n t version = some q ∧ q.length = t ∧ q.Nodup ∧
      ∀ i ∈ q, i < n := by
  have hd : InRange (g.draw n) (List.range n).length := by
    rw [List.length_range]
    exact g.inRange_draw hn
  obtain ⟨l, hl, hlen, hnodup, hmem⟩ :=
    shuffle_distinct hd (List.length_range.symm ▸ ht : t ≤ (List.range n).length)
      List.nodup_range (g.seed version)
  refine ⟨l.take t, ?_, hlen, hnodup, fun i hi => List.mem_range.mp (hmem i hi)⟩
  unfold quorum
  rw [if_pos ht, hl]
  rfl

end SplitMix

/-- mirrors src/src/bench/workload.rs:102-120 -/
def quorumIndices (n t : Nat) (version : UInt32) : Option (List Nat) :=
  SplitMix.quorum ⟨0x9E3779B97F4A7C15, 0xD6E8FEB86659FD93, 0xBF58476D1CE4E5B9, 0x94D049BB133111EB⟩
    n t version

namespace MlDsaSupport

/-- mirrors src/mldsa/src/bin/support/mod.rs:123-141 -/
def quorumIndices (n t : Nat) (version : UInt32) : Option (List Nat) :=
  SplitMix.quorum ⟨0x9E3779B97F4A7C15, 0xD6E8FEB86659FD93, 0xBF58476D1CE4E5B9, 0x94D049BB133111EB⟩
    n t version

end MlDsaSupport

theorem quorumIndices_eq_some {n t : Nat} (hn : n < 2 ^ 64) (ht : t ≤ n) (version : UInt32) :
    ∃ q, quorumIndices n t version = some q ∧ q.length = t ∧ q.Nodup ∧ ∀ i ∈ q, i < n :=
  SplitMix.quorum_eq_some _ hn ht version

example : quorumIndices 10 4 3 = some [3, 5, 4, 0] := by decide +kernel

theorem quorumIndices_copy (n t : Nat) (version : UInt32) :
    MlDsaSupport.quorumIndices n t version = quorumIndices n t version := rfl

/-! ## The fixture process -/

/-- A call of `sign`: whose key, at which slot. -/
structure KeyUse where
  publicKey : XmssPublicKey
  slot : UInt32

/-- A list and a version to record, and the version whose slot it is signed at. -/
structure Statement where
  list : List Entry
  version : UInt32
  signedAt : UInt32

section
variable {Secret : Type} (H : Hashes) (sign : Secret → Blob 32 → UInt32 → Option XmssSignature)
  (keypairs : List (Secret × XmssPublicKey))

/-- mirrors src/src/bin/committee_fixture.rs:40-54 -/
def signaturesFor (message : Blob 32) (slot : UInt32) :
    List Nat → List KeyUse × Option (List (Nat × XmssSignature))
  | [] => ([], some [])
  | index :: rest =>
    match keypairs[index]? with
    | none => ([], none)
    | some (secret, publicKey) =>
      match sign secret message slot with
      | none => ([⟨publicKey, slot⟩], none)
      | some signature =>
        let (uses, signatures) := signaturesFor message slot rest
        (⟨publicKey, slot⟩ :: uses, signatures.map ((index, signature) :: ·))

/-- One record of the fixture, from the slot to `expect` on the constructor.
mirrors src/src/bin/committee_fixture.rs:88-101 -/
def signStatement (c : Committee) (indices : Option (List Nat)) (s : Statement) :
    List KeyUse × Option StatusList :=
  match c.slotFor s.signedAt with
  | none => ([], none)
  | some slot =>
    match indices with
    | none => ([], none)
    | some indices =>
      let message := c.messageFor H .wotsXmss s.list s.version
      let (uses, signatures) := signaturesFor sign keypairs message slot indices
      (uses, signatures.bind fun signatures =>
        (StatusList.new .wotsXmss s.list s.version keypairs.length signatures).toOption)

/-- mirrors src/src/bin/committee_fixture.rs:83-106 -/
def update (c : Committee) (t : Nat) (list : List Entry) (version : UInt32) :
    List KeyUse × Option StatusList :=
  signStatement H sign keypairs c (quorumIndices keypairs.length t version) ⟨list, version, version⟩

/-- One record after the other, up to the first panic. -/
def signEach (c : Committee) :
    List (Option (List Nat) × Statement) → List KeyUse × Option (List StatusList)
  | [] => ([], some [])
  | (indices, s) :: rest =>
    match signStatement H sign keypairs c indices s with
    | (uses, none) => (uses, none)
    | (uses, some record) =>
      let (more, records) := signEach c rest
      (uses ++ more, records.map (record :: ·))

/-- The updates, then the honest, wrong-slot and relabelling controls; `lists` are
the lists of the workload. The control of the outsider reuses signatures.
mirrors src/src/bin/committee_fixture.rs:83-164 -/
def statements (t nUpdates : Nat) (keySlots : UInt32) (lists : Nat → List Entry) :
    List (Option (List Nat) × Statement) :=
  let attackVersion := UInt32.ofNat nUpdates
  let list := lists (nUpdates - 1)
  (List.range nUpdates).map (fun version =>
      (quorumIndices keypairs.length t (UInt32.ofNat version),
        ⟨lists version, UInt32.ofNat version, UInt32.ofNat version⟩)) ++
    [(some (List.range t), ⟨list, attackVersion, attackVersion⟩),
      (some (List.range t), ⟨list, attackVersion, attackVersion + 1⟩),
      (some (List.range t), ⟨list, UInt32.ofNat (nUpdates - 1), keySlots⟩)]

/-- What `main` signs with the keys of members.
mirrors src/src/bin/committee_fixture.rs:68-164 -/
def signAll (t : Nat) (slot : UInt32) (nUpdates : Nat) (keySlots : UInt32)
    (lists : Nat → List Entry) : List KeyUse × Option (List StatusList) :=
  match Committee.new H (keypairs.map Prod.snd) t slot with
  | .error _ => ([], none)
  | .ok c => signEach H sign keypairs c (statements keypairs t nUpdates keySlots lists)

variable {H sign keypairs}

/-! ## One round -/

theorem mem_signaturesFor {message : Blob 32} {slot : UInt32} {u : KeyUse} {indices : List Nat}
    (h : u ∈ (signaturesFor sign keypairs message slot indices).1) :
    u.slot = slot ∧ ∃ i ∈ indices, (keypairs.map Prod.snd)[i]? = some u.publicKey := by
  induction indices with
  | nil => cases h
  | cons index rest ih =>
    unfold signaturesFor at h
    cases hk : keypairs[index]? with
    | none => rw [hk] at h; cases h
    | some keypair =>
      obtain ⟨secret, publicKey⟩ := keypair
      have hpk : (keypairs.map Prod.snd)[index]? = some publicKey := by
        rw [List.getElem?_map, hk]
        rfl
      rw [hk] at h
      dsimp only at h
      split at h
      · obtain rfl := List.mem_singleton.mp h
        exact ⟨rfl, index, by simp, hpk⟩
      · rcases List.mem_cons.mp h with rfl | h
        · exact ⟨rfl, index, by simp, hpk⟩
        · obtain ⟨hs, i, hi, hu⟩ := ih h
          exact ⟨hs, i, by simp [hi], hu⟩

/-- Distinct members of an anchor have distinct keys. -/
theorem signaturesFor_nodup (hk : (keypairs.map Prod.snd).Nodup) {message : Blob 32}
    {slot : UInt32} {indices : List Nat} (hn : indices.Nodup) :
    (signaturesFor sign keypairs message slot indices).1.Nodup := by
  induction indices with
  | nil => exact List.nodup_nil
  | cons index rest ih =>
    obtain ⟨hi, hn⟩ := List.nodup_cons.mp hn
    unfold signaturesFor
    cases hp : keypairs[index]? with
    | none => exact List.nodup_nil
    | some keypair =>
      obtain ⟨secret, publicKey⟩ := keypair
      dsimp only
      split
      · exact List.nodup_singleton _
      · refine List.nodup_cons.mpr ⟨fun hm => ?_, ih hn⟩
        obtain ⟨-, j, hj, hu⟩ := mem_signaturesFor hm
        have hpk : (keypairs.map Prod.snd)[index]? = some publicKey := by
          rw [List.getElem?_map, hp]
          rfl
        obtain ⟨hil, hie⟩ := List.getElem?_eq_some_iff.mp hpk
        obtain ⟨hjl, hje⟩ := List.getElem?_eq_some_iff.mp hu
        have hij : index = j := (List.Nodup.getElem_inj_iff hk).mp (hie.trans hje.symm)
        exact hi (hij ▸ hj)

/-- Keys that sign give one signature for each index, in order. -/
theorem signaturesFor_eq_some {message : Blob 32} {slot : UInt32} {indices : List Nat}
    (hs : ∀ k ∈ keypairs, ∃ signature, sign k.1 message slot = some signature)
    (hlt : ∀ i ∈ indices, i < keypairs.length) :
    ∃ pairs, (signaturesFor sign keypairs message slot indices).2 = some pairs ∧
      pairs.map Prod.fst = indices := by
  induction indices with
  | nil => exact ⟨[], rfl, rfl⟩
  | cons index rest ih =>
    obtain ⟨pairs, hpairs, hfst⟩ := ih fun i hi => hlt i (by simp [hi])
    have hi : index < keypairs.length := hlt index (by simp)
    obtain ⟨signature, hsig⟩ := hs _ (List.getElem_mem hi)
    refine ⟨(index, signature) :: pairs, ?_, by rw [List.map_cons, hfst]⟩
    unfold signaturesFor
    rw [List.getElem?_eq_getElem hi]
    dsimp only
    rw [hsig]
    dsimp only
    rw [hpairs]
    rfl

theorem mem_signStatement {c : Committee} {indices : Option (List Nat)} {s : Statement}
    {u : KeyUse} (h : u ∈ (signStatement H sign keypairs c indices s).1) :
    c.slotFor s.signedAt = some u.slot := by
  unfold signStatement at h
  split at h
  · cases h
  rename_i slot hslot
  split at h
  · cases h
  · rw [hslot, (mem_signaturesFor h).1]

theorem signStatement_nodup (hk : (keypairs.map Prod.snd).Nodup) {c : Committee}
    {indices : Option (List Nat)} {s : Statement} (hn : ∀ q, indices = some q → q.Nodup) :
    (signStatement H sign keypairs c indices s).1.Nodup := by
  unfold signStatement
  split
  · exact List.nodup_nil
  split
  · exact List.nodup_nil
  · rename_i indices
    exact signaturesFor_nodup hk (hn indices rfl)

theorem signStatement_eq_some {c : Committee} {indices : List Nat} {s : Statement} {slot : UInt32}
    (hslot : c.slotFor s.signedAt = some slot)
    (hs : ∀ k ∈ keypairs, ∃ signature,
      sign k.1 (c.messageFor H .wotsXmss s.list s.version) slot = some signature)
    (hn : indices.Nodup) (hlt : ∀ i ∈ indices, i < keypairs.length)
    (hsize : keypairs.length ≤ maxCommitteeSize) :
    ∃ r, (signStatement H sign keypairs c (some indices) s).2 = some r := by
  obtain ⟨pairs, hpairs, hfst⟩ := signaturesFor_eq_some hs hlt
  have hlt' : ∀ p ∈ pairs, p.1 < keypairs.length := by
    intro p hp
    exact hlt p.1 (hfst ▸ List.mem_map_of_mem hp)
  obtain ⟨r, hr, -⟩ := statusList_new_ok .wotsXmss s.list s.version hsize (hfst.symm ▸ hn) hlt'
  refine ⟨r, ?_⟩
  unfold signStatement
  rw [hslot]
  dsimp only
  rw [hpairs, Option.bind_some, hr]
  rfl

end

/-- Quorums of the fixtures: drawn without a panic, of `t` different members, the
same in both crates. In a round of the fixture no key signs twice, and where the
keys sign the record is built. -/
theorem fixture_quorums_distinct :
    (∀ n t version, n < 2 ^ 64 → t ≤ n → ∃ q, quorumIndices n t version = some q ∧
      q.length = t ∧ q.Nodup ∧ ∀ i ∈ q, i < n) ∧
    (∀ n t version, MlDsaSupport.quorumIndices n t version = quorumIndices n t version) ∧
    ∀ (Secret : Type) (H : Hashes) (sign : Secret → Blob 32 → UInt32 → Option XmssSignature)
      (keypairs : List (Secret × XmssPublicKey)) (t : Nat) (genesis : UInt32) (c : Committee)
      (list : List Entry) (version : UInt32),
      Committee.new H (keypairs.map Prod.snd) t genesis = .ok c →
        (update H sign keypairs c t list version).1.Nodup ∧
        ∀ slot, c.slotFor version = some slot →
          (∀ k ∈ keypairs, ∃ signature,
            sign k.1 (c.messageFor H .wotsXmss list version) slot = some signature) →
          ∃ r, (update H sign keypairs c t list version).2 = some r := by
  refine ⟨fun n t version hn ht => quorumIndices_eq_some hn ht version,
    quorumIndices_copy, ?_⟩
  intro Secret H sign keypairs t genesis c list version hc
  obtain ⟨ht, hsize, hk, -⟩ := Committee.new_ok.mp hc
  rw [List.length_map] at ht hsize
  have hn : keypairs.length < 2 ^ 64 := by
    unfold maxCommitteeSize at hsize
    omega
  obtain ⟨q, hq, -, hnodup, hlt⟩ := quorumIndices_eq_some hn ht.2 version
  unfold update
  rw [hq]
  refine ⟨signStatement_nodup hk fun q' hq' => Option.some.inj hq' ▸ hnodup, ?_⟩
  intro slot hslot hs
  exact signStatement_eq_some hslot hs hnodup hlt hsize

/-! ## The whole process -/

section
variable {Secret : Type} {H : Hashes} {sign : Secret → Blob 32 → UInt32 → Option XmssSignature}
  {keypairs : List (Secret × XmssPublicKey)} {c : Committee}

theorem slotFor_inj {v w slot : UInt32} (hv : c.slotFor v = some slot)
    (hw : c.slotFor w = some slot) : v = w := by
  unfold Committee.slotFor at hv hw
  split at hv
  · split at hw
    · have h : c.genesisSlot + v = c.genesisSlot + w :=
        (Option.some.inj hv).trans (Option.some.inj hw).symm
      exact (UInt32.add_right_inj c.genesisSlot).mp h
    · cases hw
  · cases hv

theorem mem_signEach {u : KeyUse} {rounds : List (Option (List Nat) × Statement)}
    (h : u ∈ (signEach H sign keypairs c rounds).1) :
    ∃ r ∈ rounds, c.slotFor r.2.signedAt = some u.slot := by
  induction rounds with
  | nil => cases h
  | cons r rest ih =>
    obtain ⟨indices, s⟩ := r
    unfold signEach at h
    split at h
    · rename_i uses hr
      have h : u ∈ (signStatement H sign keypairs c indices s).1 := hr ▸ h
      exact ⟨_, List.mem_cons_self, mem_signStatement h⟩
    · rename_i uses record hr
      rcases List.mem_append.mp h with h | h
      · have h : u ∈ (signStatement H sign keypairs c indices s).1 := hr ▸ h
        exact ⟨_, List.mem_cons_self, mem_signStatement h⟩
      · obtain ⟨r, hm, hu⟩ := ih h
        exact ⟨r, List.mem_cons_of_mem _ hm, hu⟩

/-- Rounds at different slots, with distinct indices in each, use no key twice at
one slot. -/
theorem signEach_nodup (hk : (keypairs.map Prod.snd).Nodup)
    {rounds : List (Option (List Nat) × Statement)}
    (hq : ∀ r ∈ rounds, ∀ q, r.1 = some q → q.Nodup)
    (hs : (rounds.map fun r => r.2.signedAt).Nodup) :
    (signEach H sign keypairs c rounds).1.Nodup := by
  induction rounds with
  | nil => exact List.nodup_nil
  | cons r rest ih =>
    obtain ⟨indices, s⟩ := r
    have hround : (signStatement H sign keypairs c indices s).1.Nodup :=
      signStatement_nodup hk (hq _ List.mem_cons_self)
    rw [List.map_cons, List.nodup_cons] at hs
    have hrest := ih (fun r hr => hq r (List.mem_cons_of_mem _ hr)) hs.2
    unfold signEach
    split
    · rename_i uses hr
      rw [hr] at hround
      exact hround
    · rename_i uses record hr
      rw [hr] at hround
      refine List.nodup_append.mpr ⟨hround, hrest, fun u hu u' hu' he => ?_⟩
      subst he
      have hslot := mem_signStatement (hr ▸ hu : u ∈ (signStatement H sign keypairs c indices s).1)
      obtain ⟨r, hm, hslot'⟩ := mem_signEach hu'
      exact hs.1 (List.mem_map.mpr ⟨r, hm, slotFor_inj hslot' hslot⟩)

/-- The assertion of `params.rs` keeps the slots of the controls apart. -/
theorem statements_signedAt_nodup (t : Nat) {nUpdates : Nat} {keySlots : UInt32}
    (hu : nUpdates + 1 < keySlots.toNat) (lists : Nat → List Entry) :
    ((statements keypairs t nUpdates keySlots lists).map fun r => r.2.signedAt).Nodup := by
  have hlt := keySlots.toNat_lt
  have hof : ∀ v, v ≤ nUpdates + 1 → (UInt32.ofNat v).toNat = v := by
    intro v hv
    rw [UInt32.toNat_ofNat']
    exact Nat.mod_eq_of_lt (by omega)
  have hsucc : UInt32.ofNat nUpdates + 1 = UInt32.ofNat (nUpdates + 1) := by
    rw [UInt32.ofNat_add]
    rfl
  have hmap : ((statements keypairs t nUpdates keySlots lists).map fun r => r.2.signedAt) =
      (List.range (nUpdates + 2)).map UInt32.ofNat ++ [keySlots] := by
    unfold statements
    dsimp only
    rw [List.range_succ, List.range_succ, hsucc]
    simp [Function.comp_def]
  rw [hmap]
  refine List.nodup_append.mpr ⟨List.Nodup.map_on ?_ List.nodup_range, List.nodup_singleton _, ?_⟩
  · intro v hv w hw he
    have hv := List.mem_range.mp hv
    have hw := List.mem_range.mp hw
    have he := congrArg UInt32.toNat he
    rwa [hof v (by omega), hof w (by omega)] at he
  · intro v hv w hw he
    obtain ⟨n, hn, rfl⟩ := List.mem_map.mp hv
    have hn := List.mem_range.mp hn
    obtain rfl := List.mem_singleton.mp hw
    have he := congrArg UInt32.toNat he
    rw [hof n (by omega)] at he
    omega

/-- No key of a member signs twice at one slot, over all updates and controls. -/
theorem signAll_uses_nodup (t : Nat) (slot : UInt32) {nUpdates : Nat} {keySlots : UInt32}
    (hu : nUpdates + 1 < keySlots.toNat) (lists : Nat → List Entry) :
    (signAll H sign keypairs t slot nUpdates keySlots lists).1.Nodup := by
  unfold signAll
  split
  · exact List.nodup_nil
  · rename_i c hc
    obtain ⟨ht, hsize, hk, -⟩ := Committee.new_ok.mp hc
    rw [List.length_map] at ht hsize
    have hn : keypairs.length < 2 ^ 64 := by
      unfold maxCommitteeSize at hsize
      omega
    refine signEach_nodup hk ?_ (statements_signedAt_nodup t hu lists)
    intro r hr q hq
    rcases List.mem_append.mp hr with hr | hr
    · obtain ⟨version, -, rfl⟩ := List.mem_map.mp hr
      obtain ⟨q', hq', -, hnodup, -⟩ := quorumIndices_eq_some hn ht.2 (UInt32.ofNat version)
      obtain rfl := Option.some.inj (hq'.symm.trans hq)
      exact hnodup
    · have hcontrol : r.1 = some (List.range t) := by
        simp only [List.mem_cons, List.not_mem_nil, or_false] at hr
        rcases hr with rfl | rfl | rfl <;> rfl
      obtain rfl := Option.some.inj (hcontrol.symm.trans hq)
      exact List.nodup_range

end
end Drot.L6.Bench
