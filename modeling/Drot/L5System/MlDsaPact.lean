import Drot.L5System.MlDsaRounds

/-!
# What the threads of the ML-DSA demo owe each other

Nothing makes two quorums for one version share an honest signature: every member
signs whatever decodes. What the threads can count on is what a run keeps apart
(`Discipline`), and `pact` says what follows. Under `publications` the temporary has one
writer at a time. Under `rounds` a thread that holds a `round` mutex is also the only
one that places records, so the record it read is still the last one when it publishes
its successor. The `step_` lemmas are the effects that change what is recorded.
-/
namespace Drot.L5.MlDsaDemo
open Bytes Bitmap Ssz Text L1.Message L3.MlDsa L4.Relying L4.MlDsaVerifier Prog
open Demo (nMembers threshold maxFrame Frame Proposal StatusRequest StatusUpdated StorageName
  DemoOp DemoAns DemoProg MlDsaSignatureReply Failure checkedSucc addValid revoke msgStatusRequest
  msgProposal msgSignature msgStatusUpdated msgFailure actionIssue actionRevoke acknowledged)

/-- What a run keeps apart: the writes of two publications, or two rounds. -/
inductive Discipline where
  | publications | rounds
  deriving DecidableEq, Repr

section
variable {K : Primitives}

def Apart : Discipline → World K → Op → Prop
  | .publications, w, op => op = .shared (.storage (.create .tmp)) → ∀ q, w.writing q = false
  | .rounds, w, op => ∀ node, op = .shared (.lockRound node) → ∀ m, w.round m = none

/-- The thread holds the mutex of some node. -/
def InRound (w : World K) (p : Nat) : Prop := ∃ node, w.round node = some p

/-- The record is accepted, and it is one update away from what was placed before it. -/
def Genuine (S : Setup K) (w : World K) (bytes : Bytes) (version : UInt32) (list : List Entry) :
    Prop :=
  Accepted S bytes version list ∧ list.Nodup ∧ ∃ request before credential,
    Before S w version before ∧ Applies S request before list credential

/-- The update that an answer reports was placed. -/
def Kept (S : Setup K) (w : World K) (c : Request) (u : StatusUpdated) : Prop :=
  ∃ request before list, c.frame.1 = msgStatusRequest ∧
    StatusRequest.decode c.frame.2 = some request ∧
    (∃ x ∈ w.placed, Accepted S x.2 u.version list) ∧ Before S w u.version before ∧
    Applies S request before list u.credential

/-- The version an answer acknowledges. -/
def acks (e : Request × Frame) : Option UInt32 := (acknowledged (some e.2)).map StatusUpdated.version

/-- The records are numbered by their versions. -/
def Numbered (S : Setup K) (w : World K) : Prop :=
  ∀ k x, w.placed[k]? = some x → ∃ version list, Accepted S x.2 version list ∧ version.toNat = k

/-! ## The pact -/

structure Inv (S : Setup K) (T : Discipline) (w : World K) : Prop where
  shelf : w.volume.Shelf .tmp .currentRecord w.placed
  once : ∀ p q, w.writing p = true → w.writing q = true → p = q
  genuine : ∀ x ∈ w.placed, ∃ version list, Genuine S w x.2 version list
  kept : ∀ e ∈ w.returned, ∀ u, acknowledged (some e.2) = some u → Kept S w e.1 u
  placers : w.placers.length = w.placed.length
  inside : T = .rounds → ∀ p, w.writing p = true → InRound w p
  alone : T = .rounds → ∀ p q, InRound w p → InRound w q → p = q
  numbered : T = .rounds → w.unread = 0 → Numbered S w
  unrepeated : T = .rounds → w.unread = 0 → (w.returned.filterMap acks).Nodup

/-- What only grows. -/
structure Grows (w w' : World K) : Prop where
  placed : w.placed <+: w'.placed
  placers : w.placers <+: w'.placers
  unread : w.unread ≤ w'.unread

/-- A thread changes the volume only while no other one writes, places a record only
inside a round, and acknowledges a version that it placed. -/
structure Guarantee (T : Discipline) (p : Nat) (w w' : World K) : Prop where
  grows : Grows w w'
  writing : ∀ q, q ≠ p → w'.writing q = w.writing q
  round : ∀ q, q ≠ p → ∀ node, w'.round node = some q ↔ w.round node = some q
  volume : w'.volume = w.volume ∨ ∀ q, q ≠ p → w.writing q = false
  placed : w'.placed = w.placed ∨ (T = .rounds → InRound w p)
  returned : w'.returned = w.returned ∨ ∃ e, w'.returned = w.returned ++ [e] ∧
    (T = .rounds → w'.unread = 0 → ∀ v, acks e = some v → w.placers[v.toNat]? = some p)

structure Relies (T : Discipline) (p : Nat) (w w' : World K) : Prop where
  grows : Grows w w'
  writing : w'.writing p = w.writing p
  round : ∀ node, w'.round node = some p ↔ w.round node = some p
  volume : w.writing p = true → w'.volume = w.volume
  placed : T = .rounds → InRound w p → w'.placed = w.placed
  returned : T = .rounds → w'.unread = 0 → ∀ v, w.placers[v.toNat]? = some p →
    v ∈ w'.returned.filterMap acks → v ∈ w.returned.filterMap acks

section
variable {S : Setup K} {T : Discipline} {p : Nat} {w w' w'' : World K}

theorem Accepted.unique {bytes : Bytes} {v v' : UInt32} {l l' : List Entry}
    (h : Accepted S bytes v l) (h' : Accepted S bytes v' l') : v = v' ∧ l = l' := by
  obtain ⟨r, ⟨hr, -⟩, rfl, rfl⟩ := h
  obtain ⟨r', ⟨hr', -⟩, rfl, rfl⟩ := h'
  obtain rfl := Except.ok.inj (hr.symm.trans hr')
  exact ⟨rfl, rfl⟩

theorem Grows.refl : Grows w w := ⟨List.prefix_rfl, List.prefix_rfl, le_refl _⟩

theorem Grows.trans (h : Grows w w') (h' : Grows w' w'') : Grows w w'' :=
  ⟨h.placed.trans h'.placed, h.placers.trans h'.placers, le_trans h.unread h'.unread⟩

theorem Grows.unread_zero (h : Grows w w') (h0 : w'.unread = 0) : w.unread = 0 :=
  Nat.le_zero.mp (h0 ▸ h.unread)

theorem Before.grows {version : UInt32} {before : List Entry} (h : Before S w version before)
    (hg : Grows w w') : Before S w' version before := by
  rcases h with h | ⟨x, hx, h⟩
  · exact .inl h
  · exact .inr ⟨x, hg.placed.subset hx, h⟩

theorem Genuine.grows {bytes : Bytes} {version : UInt32} {list : List Entry}
    (h : Genuine S w bytes version list) (hg : Grows w w') : Genuine S w' bytes version list := by
  obtain ⟨ha, hn, request, before, credential, hb, happ⟩ := h
  exact ⟨ha, hn, request, before, credential, hb.grows hg, happ⟩

theorem Kept.grows {c : Request} {u : StatusUpdated} (h : Kept S w c u) (hg : Grows w w') :
    Kept S w' c u := by
  obtain ⟨request, before, list, hk, hd, ⟨x, hx, ha⟩, hb, happ⟩ := h
  exact ⟨request, before, list, hk, hd, ⟨x, hg.placed.subset hx, ha⟩, hb.grows hg, happ⟩

/-- An acknowledged version is the number of a record. -/
theorem Kept.lt {c : Request} {u : StatusUpdated} (h : Kept S w c u) (hn : Numbered S w) :
    u.version.toNat < w.placed.length := by
  obtain ⟨_, _, list, -, -, ⟨x, hx, ha⟩, -⟩ := h
  obtain ⟨k, hk⟩ := List.mem_iff_getElem?.mp hx
  obtain ⟨v, l, ha', hv⟩ := hn k x hk
  obtain ⟨rfl, -⟩ := ha.unique ha'
  rw [hv]
  exact (List.getElem?_eq_some_iff.mp hk).1

theorem InRound.relies (h : InRound w p) (hr : Relies T p w w') : InRound w' p := by
  obtain ⟨node, hn⟩ := h
  exact ⟨node, (hr.round node).mpr hn⟩

theorem Relies.refl : Relies T p w w :=
  ⟨.refl, rfl, fun _ => Iff.rfl, fun _ => rfl, fun _ _ => rfl, fun _ _ _ _ h => h⟩

theorem Relies.trans (h : Relies T p w w') (h' : Relies T p w' w'') : Relies T p w w'' := by
  refine ⟨h.grows.trans h'.grows, h'.writing.trans h.writing,
    fun node => (h'.round node).trans (h.round node), fun hw => ?_, fun hT hin => ?_,
    fun hT h0 v hv hm => ?_⟩
  · exact (h'.volume (h.writing.trans hw)).trans (h.volume hw)
  · exact (h'.placed hT (hin.relies h)).trans (h.placed hT hin)
  · exact h.returned hT (h'.grows.unread_zero h0) v hv
      (h'.returned hT h0 v (Demo.getElem?_of_prefix h.grows.placers hv) hm)

theorem Guarantee.refl : Guarantee T p w w :=
  ⟨.refl, fun _ _ => rfl, fun _ _ _ => Iff.rfl, .inl rfl, .inl rfl, .inl rfl⟩

theorem Guarantee.relies {q : Nat} (hne : q ≠ p) (hi : Inv S T w) (h : Guarantee T q w w') :
    Relies T p w w' := by
  refine ⟨h.grows, h.writing p (Ne.symm hne), h.round p (Ne.symm hne), fun hw => ?_,
    fun hT hin => ?_, fun hT h0 v hv hm => ?_⟩
  · rcases h.volume with hv | hv
    · exact hv
    · rw [hv p (Ne.symm hne)] at hw
      cases hw
  · rcases h.placed with hp | hp
    · exact hp
    · exact absurd (hi.alone hT q p (hp hT) hin) hne
  · rcases h.returned with he | ⟨e, he, hacks⟩
    · rwa [he] at hm
    · rw [he, List.filterMap_append] at hm
      rcases List.mem_append.mp hm with hm | hm
      · exact hm
      · obtain ⟨e', he', hv'⟩ := List.mem_filterMap.mp hm
        rw [List.mem_singleton.mp he'] at hv'
        exact absurd (Option.some.inj ((hacks hT h0 v hv').symm.trans hv)) hne

variable (S T) in
def pact : Pact (World K) where
  inv := Inv S T
  guar := Guarantee T
  rely := Relies T
  refl _ _ := .refl
  trans _ _ _ _ h h' := h.trans h'
  other _ _ _ _ hne hi _ h := h.relies hne hi

variable (K) in
/-- The machine whose threads keep this much apart. -/
abbrev careful (T : Discipline) : Machine Op (Ans K) (World K) := machine.given (Apart T)

/-! ## One step -/

/-- Nothing was placed and nothing returned. -/
theorem Inv.still {u : World K} (hi : Inv S T w) (hplaced : u.placed = w.placed)
    (hplacers : u.placers = w.placers)
    (hret : u.returned = w.returned) (hunread : w.unread ≤ u.unread)
    (hshelf : u.volume.Shelf .tmp .currentRecord w.placed)
    (honce : ∀ p q, u.writing p = true → u.writing q = true → p = q)
    (hinside : T = .rounds → ∀ p, u.writing p = true → InRound u p)
    (halone : T = .rounds → ∀ p q, InRound u p → InRound u q → p = q) :
    Inv S T u ∧ Grows w u := by
  have hg : Grows w u := ⟨hplaced ▸ List.prefix_rfl, hplacers ▸ List.prefix_rfl, hunread⟩
  refine ⟨⟨hplaced ▸ hshelf, honce, fun x hx => ?_, fun e he a ha => ?_, ?_, hinside, halone,
    fun hT h0 k x hk => ?_, fun hT h0 => ?_⟩, hg⟩
  · rw [hplaced] at hx
    obtain ⟨version, list, h⟩ := hi.genuine x hx
    exact ⟨version, list, h.grows hg⟩
  · rw [hret] at he
    exact (hi.kept e he a ha).grows hg
  · rw [hplacers, hplaced]
    exact hi.placers
  · rw [hplaced] at hk
    exact hi.numbered hT (hg.unread_zero h0) k x hk
  · rw [hret]
    exact hi.unrepeated hT (hg.unread_zero h0)

/-- Only the channels, or the number of failed reads. -/
theorem Inv.local (hi : Inv S T w) (p : Nat) (channel : List (List (Nat × K.Signature)))
    {unread : Nat} (hu : w.unread ≤ unread) :
    Inv S T { w with channel := channel, unread := unread } ∧
      Guarantee T p w { w with channel := channel, unread := unread } := by
  obtain ⟨hi', hg⟩ := hi.still (u := { w with channel := channel, unread := unread }) rfl rfl rfl hu
    hi.shelf hi.once hi.inside hi.alone
  exact ⟨hi', hg, fun _ _ => rfl, fun _ _ _ => Iff.rfl, .inl rfl, .inl rfl, .inl rfl⟩

/-- The temporary, by the only thread that writes. -/
theorem Inv.setVolume (hi : Inv S T w) {v : Volume StorageName} (on : Bool)
    (hs : v.Shelf .tmp .currentRecord w.placed) (hal : ∀ q, q ≠ p → w.writing q = false)
    (hin : on = true → T = .rounds → InRound w p) :
    Inv S T { w with volume := v, writing := Function.update w.writing p on } ∧
      Guarantee T p w { w with volume := v, writing := Function.update w.writing p on } := by
  have hother : ∀ q, q ≠ p → Function.update w.writing p on q = w.writing q :=
    fun q hq => Function.update_of_ne hq ..
  -- whoever writes now is `p`
  have hself : ∀ q, Function.update w.writing p on q = true → q = p ∧ on = true := by
    intro q hq
    by_cases hqp : q = p
    · subst hqp
      rw [Function.update_self] at hq
      exact ⟨rfl, hq⟩
    · rw [hother q hqp, hal q hqp] at hq
      cases hq
  obtain ⟨hi', hg⟩ := hi.still
    (u := { w with volume := v, writing := Function.update w.writing p on }) rfl rfl rfl (le_refl _) hs
    (fun q r hq hr => (hself q hq).1.trans (hself r hr).1.symm)
    (fun hT q hq => (hself q hq).1 ▸ hin (hself q hq).2 hT) hi.alone
  exact ⟨hi', hg, hother, fun _ _ _ => Iff.rfl, .inr hal, .inl rfl, .inl rfl⟩

/-- `p` is in `write_atomic`, and its temporary holds `bytes`. -/
structure Writing (p f : Nat) (bytes : Bytes) (w : World K) : Prop where
  on : w.writing p = true
  tmp : w.volume.dir .tmp = some f
  holds : w.volume.inode f = bytes

theorem Writing.relies {f : Nat} {bytes : Bytes} (h : Writing p f bytes w) (hr : Relies T p w w') :
    Writing p f bytes w' := by
  have hv := hr.volume h.on
  exact ⟨hr.writing.trans h.on, hv ▸ h.tmp, hv ▸ h.holds⟩

theorem Inv.others (hi : Inv S T w) (hw : w.writing p = true) : ∀ q, q ≠ p → w.writing q = false := by
  intro q hq
  by_contra h
  exact hq (hi.once q p (Bool.not_eq_false _ ▸ h) hw)

/-- `p` may place this record: it is genuine, and under `rounds` its version is due. -/
structure Entitled (S : Setup K) (T : Discipline) (p : Nat) (bytes : Bytes) (version : UInt32)
    (w : World K) : Prop where
  genuine : ∃ list, Genuine S w bytes version list
  inside : T = .rounds → InRound w p
  due : T = .rounds → w.unread = 0 → version.toNat = w.placed.length

theorem Entitled.relies {bytes : Bytes} {version : UInt32} (h : Entitled S T p bytes version w)
    (hr : Relies T p w w') : Entitled S T p bytes version w' := by
  obtain ⟨list, hgen⟩ := h.genuine
  refine ⟨⟨list, hgen.grows hr.grows⟩, fun hT => (h.inside hT).relies hr, fun hT h0 => ?_⟩
  rw [hr.placed hT (h.inside hT)]
  exact h.due hT (hr.grows.unread_zero h0)

/-- `p` has placed a record of this version and not yet said so. -/
structure Placed (S : Setup K) (T : Discipline) (p : Nat) (bytes : Bytes) (version : UInt32)
    (w : World K) : Prop where
  mem : ∃ x ∈ w.placed, x.2 = bytes
  mine : T = .rounds → w.unread = 0 → w.placers[version.toNat]? = some p
  silent : T = .rounds → w.unread = 0 → version ∉ w.returned.filterMap acks

theorem Placed.relies {bytes : Bytes} {version : UInt32} (h : Placed S T p bytes version w)
    (hr : Relies T p w w') : Placed S T p bytes version w' := by
  obtain ⟨x, hx, hb⟩ := h.mem
  refine ⟨⟨x, hr.grows.placed.subset hx, hb⟩, fun hT h0 => ?_, fun hT h0 hm => ?_⟩
  · exact Demo.getElem?_of_prefix hr.grows.placers (h.mine hT (hr.grows.unread_zero h0))
  · have h0' := hr.grows.unread_zero h0
    exact h.silent hT h0' (hr.returned hT h0 version (h.mine hT h0') hm)

/-- The rename places the record. -/
theorem step_rename {f : Nat} {bytes : Bytes} {version : UInt32} (hi : Inv S T w)
    (hw : Writing p f bytes w) (he : Entitled S T p bytes version w) :
    Inv S T (w.afterStorage p (w.volume.renamed .tmp .currentRecord f)
      (.rename .tmp .currentRecord) (.ok ())) ∧
    Guarantee T p w (w.afterStorage p (w.volume.renamed .tmp .currentRecord f)
      (.rename .tmp .currentRecord) (.ok ())) ∧
    Placed S T p bytes version (w.afterStorage p (w.volume.renamed .tmp .currentRecord f)
      (.rename .tmp .currentRecord) (.ok ())) := by
  have hafter : w.afterStorage p (w.volume.renamed .tmp .currentRecord f)
      (.rename .tmp .currentRecord) (.ok ()) =
      { w with volume := w.volume.renamed .tmp .currentRecord f
               writing := Function.update w.writing p false
               placed := w.placed ++ [(f, bytes)]
               placers := w.placers ++ [p] } := by
    have h1 : (w.volume.renamed .tmp .currentRecord f).dir .currentRecord = some f := by
      simp [Volume.renamed]
    have h2 : (w.volume.renamed .tmp .currentRecord f).inode f = bytes := hw.holds
    simp only [World.afterStorage, h1, Option.map_some, Option.toList_some, h2]
  rw [hafter]
  set w₁ : World K := { w with volume := w.volume.renamed .tmp .currentRecord f
                               writing := Function.update w.writing p false
                               placed := w.placed ++ [(f, bytes)]
                               placers := w.placers ++ [p] } with hw₁
  have hg : Grows w w₁ := ⟨List.prefix_append _ _, List.prefix_append _ _, le_refl _⟩
  have hoff : ∀ q, w₁.writing q = true → q ≠ p ∧ w.writing q = true := by
    intro q hq
    by_cases h : q = p
    · subst h
      rw [hw₁] at hq
      simp only [Function.update_self] at hq
      cases hq
    · exact ⟨h, by rw [← hq]; exact (Function.update_of_ne h ..).symm⟩
  obtain ⟨list, hgen⟩ := he.genuine
  have hshelf : w₁.volume.Shelf .tmp .currentRecord w₁.placed := by
    have h := hi.shelf.rename (by decide) hw.tmp
    rw [hw.holds] at h
    exact h
  have hmem : (f, bytes) ∈ w₁.placed := List.mem_append_right _ (List.mem_singleton_self _)
  refine ⟨⟨hshelf, fun q r hq hr => hi.once q r (hoff q hq).2 (hoff r hr).2, fun x hx => ?_,
    fun e he u hu => (hi.kept e he u hu).grows hg, ?_, fun hT q hq => hi.inside hT q (hoff q hq).2,
    hi.alone, fun hT h0 k x hk => ?_, hi.unrepeated⟩,
    ⟨hg, fun q hq => Function.update_of_ne hq .., fun _ _ _ => Iff.rfl, .inr (hi.others hw.on),
      .inr he.inside, .inl rfl⟩, ⟨⟨_, hmem, rfl⟩, fun hT h0 => ?_, fun hT h0 hm => ?_⟩⟩
  · rcases List.mem_append.mp hx with hx | hx
    · obtain ⟨v, l, h⟩ := hi.genuine x hx
      exact ⟨v, l, h.grows hg⟩
    · rw [List.mem_singleton.mp hx]
      exact ⟨version, list, hgen.grows hg⟩
  · show (w.placers ++ [p]).length = (w.placed ++ [(f, bytes)]).length
    simp [hi.placers]
  · rcases lt_or_ge k w.placed.length with hlt | hge
    · have hk' : (w.placed ++ [(f, bytes)])[k]? = some x := hk
      rw [List.getElem?_append_left hlt] at hk'
      exact hi.numbered hT h0 k x hk'
    · have hk' : (w.placed ++ [(f, bytes)])[k]? = some x := hk
      rw [List.getElem?_append_right hge] at hk'
      obtain ⟨hz, hx⟩ := List.getElem?_eq_some_iff.mp hk'
      have hz : k - w.placed.length < 1 := hz
      have hkk : k = w.placed.length := by omega
      subst hkk
      simp only [Nat.sub_self, List.getElem_cons_zero] at hx
      subst hx
      exact ⟨version, list, hgen.1, he.due hT h0⟩
  · show (w.placers ++ [p])[version.toNat]? = some p
    rw [he.due hT h0, ← hi.placers]
    simp
  · -- what was acknowledged before has a smaller version
    obtain ⟨e, hem, hv⟩ := List.mem_filterMap.mp hm
    obtain ⟨u, hu, rfl⟩ := Option.map_eq_some_iff.mp hv
    have hlt := (hi.kept e hem u hu).lt (hi.numbered hT h0)
    rw [he.due hT h0] at hlt
    exact absurd hlt (Nat.lt_irrefl _)

/-! ### The mutex -/

/-- The thread holds the mutex of `node`, and is not in `write_atomic`. -/
structure Held (T : Discipline) (p node : Nat) (w : World K) : Prop where
  lock : w.round node = some p
  idle : T = .rounds → w.writing p = false

theorem Held.relies {node : Nat} (h : Held T p node w) (hr : Relies T p w w') : Held T p node w' :=
  ⟨(hr.round node).mpr h.lock, fun hT => hr.writing.trans (h.idle hT)⟩

/-- Nobody is in `write_atomic` when a thread inside a round comes to it. -/
theorem Held.nobody {node : Nat} (h : Held T p node w) (hi : Inv S T w)
    (hap : Apart T w (.shared (.storage (.create .tmp)))) : ∀ q, w.writing q = false := by
  intro q
  cases T with
  | publications => exact hap rfl q
  | rounds =>
    by_contra hq
    have hw : w.writing q = true := Bool.not_eq_false _ ▸ hq
    obtain rfl := hi.alone rfl q p (hi.inside rfl q hw) ⟨node, h.lock⟩
    rw [h.idle rfl] at hw
    cases hw

theorem step_lock {node : Nat} (hi : Inv S T w) (hn : w.round node = none)
    (hap : T = .rounds → ∀ m, w.round m = none) :
    Inv S T { w with round := Function.update w.round node (some p) } ∧
    Guarantee T p w { w with round := Function.update w.round node (some p) } ∧
    Held T p node { w with round := Function.update w.round node (some p) } := by
  set w₁ : World K := { w with round := Function.update w.round node (some p) }
  -- under `rounds` nobody was inside one
  have hquiet : T = .rounds → ∀ q, w.writing q = false := by
    intro hT q
    by_contra hq
    obtain ⟨m, hm⟩ := hi.inside hT q (Bool.not_eq_false _ ▸ hq)
    rw [hap hT m] at hm
    cases hm
  have honly : T = .rounds → ∀ q, InRound w₁ q → q = p := by
    intro hT q hq
    obtain ⟨m, hm⟩ := hq
    have hm' : Function.update w.round node (some p) m = some q := hm
    by_cases hmn : m = node
    · subst hmn
      rw [Function.update_self] at hm'
      exact (Option.some.inj hm').symm
    · rw [Function.update_of_ne hmn, hap hT m] at hm'
      cases hm'
  obtain ⟨hi', hg⟩ := hi.still (u := w₁) rfl rfl rfl (le_refl _) hi.shelf hi.once
    (fun hT q hq => by rw [hquiet hT q] at hq; cases hq)
    (fun hT q r hq hr => (honly hT q hq).trans (honly hT r hr).symm)
  refine ⟨hi', ⟨hg, fun _ _ => rfl, fun q hq m => ?_, .inl rfl, .inl rfl, .inl rfl⟩,
    Function.update_self .., fun hT => hquiet hT p⟩
  by_cases hm : m = node
  · subst hm
    simp [w₁, hn, Ne.symm hq]
  · simp [w₁, hm]

/-- A thread leaves: its mutexes and its mark are gone. -/
theorem Inv.leave (hi : Inv S T w) {round : Nat → Option Nat} {f : Nat → Bool}
    (hround : ∀ q, q ≠ p → ∀ m, round m = some q ↔ w.round m = some q)
    (hmine : ∀ m, round m = some p → w.round m = some p)
    (hmark : ∀ q, q ≠ p → f q = w.writing q)
    (hidle : T = .rounds → f p = false) (hoff : f p = true → w.writing p = true) :
    Inv S T { w with round := round, writing := f } ∧
      Guarantee T p w { w with round := round, writing := f } := by
  have hwas : ∀ q, f q = true → w.writing q = true := by
    intro q hq
    by_cases h : q = p
    · subst h
      exact hoff hq
    · exact hmark q h ▸ hq
  have hin : ∀ q, InRound { w with round := round, writing := f } q → InRound w q := by
    intro q hq
    obtain ⟨m, hm⟩ := hq
    by_cases h : q = p
    · subst h
      exact ⟨m, hmine m hm⟩
    · exact ⟨m, (hround q h m).mp hm⟩
  obtain ⟨hi', hg⟩ := hi.still (u := { w with round := round, writing := f }) rfl rfl rfl
    (le_refl _) hi.shelf (fun q r hq hr => hi.once q r (hwas q hq) (hwas r hr))
    (fun hT q hq => by
      have hqp : q ≠ p := by
        intro h
        subst h
        have hq' : f q = true := hq
        rw [hidle hT] at hq'
        cases hq'
      obtain ⟨m, hm⟩ := hi.inside hT q (hwas q hq)
      exact ⟨m, (hround q hqp m).mpr hm⟩)
    (fun hT q r hq hr => hi.alone hT q r (hin q hq) (hin r hr))
  exact ⟨hi', hg, hmark, hround, .inl rfl, .inl rfl, .inl rfl⟩

theorem step_unlock {node : Nat} (hi : Inv S T w) (h : Held T p node w) :
    Inv S T { w with round := Function.update w.round node none } ∧
    Guarantee T p w { w with round := Function.update w.round node none } := by
  refine hi.leave (f := w.writing) (fun q hq m => ?_) (fun m hm => ?_) (fun _ _ => rfl) h.idle id
  · by_cases hm : m = node
    · subst hm
      simp [h.lock, Ne.symm hq]
    · simp [hm]
  · by_cases hmn : m = node
    · subst hmn
      exact h.lock
    · rwa [Function.update_of_ne hmn] at hm

theorem step_release (hi : Inv S T w) (p : Nat) :
    Inv S T (release p w) ∧ Guarantee T p w (release p w) := by
  refine hi.leave (fun q hq m => ?_) (fun m hm => ?_) (fun q hq => Function.update_of_ne hq ..)
    (fun _ => Function.update_self ..) (fun h => ?_)
  · by_cases hm : w.round m = some p
    · simp [hm, Ne.symm hq]
    · simp [hm]
  · split at hm
    · cases hm
    · exact hm
  · rw [Function.update_self] at h
    cases h

/-! ### Returning -/

/-- What an answer says is true, and said for the first time. -/
def Earned (S : Setup K) (T : Discipline) (p : Nat) (c : Request) (reply : Frame) (w : World K) :
    Prop :=
  ∀ u, acknowledged (some reply) = some u → Kept S w c u ∧
    (T = .rounds → w.unread = 0 → w.placers[u.version.toNat]? = some p ∧
      u.version ∉ w.returned.filterMap acks)

theorem Earned.relies {c : Request} {reply : Frame} (h : Earned S T p c reply w)
    (hr : Relies T p w w') : Earned S T p c reply w' := by
  intro u hu
  obtain ⟨hk, hn⟩ := h u hu
  refine ⟨hk.grows hr.grows, fun hT h0 => ?_⟩
  obtain ⟨hp, hnew⟩ := hn hT (hr.grows.unread_zero h0)
  exact ⟨Demo.getElem?_of_prefix hr.grows.placers hp, fun hm => hnew (hr.returned hT h0 _ hp hm)⟩

theorem earned_refuse (reason : String) (c : Request) : Earned S T p c (refuse reason) w := by
  intro u hu
  cases hu

/-- An answer is returned. -/
theorem step_return {c : Request} {reply : Frame} (hi : Inv S T w) (he : Earned S T p c reply w) :
    Inv S T (release p { w with returned := w.returned ++ [(c, reply)] }) ∧
    Guarantee T p w (release p { w with returned := w.returned ++ [(c, reply)] }) := by
  obtain ⟨hi', hg⟩ := step_release hi p
  have hacks : ∀ v, acks (c, reply) = some v → ∃ u, acknowledged (some reply) = some u ∧ u.version = v :=
    fun v hv => Option.map_eq_some_iff.mp hv
  refine ⟨⟨hi'.shelf, hi'.once, hi'.genuine, fun e hm u hu => ?_, hi'.placers, hi'.inside, hi'.alone,
    hi'.numbered, fun hT h0 => ?_⟩, ⟨hg.grows.placed, hg.grows.placers, hg.grows.unread⟩, hg.writing,
    hg.round, hg.volume, hg.placed, .inr ⟨(c, reply), rfl, fun hT h0 v hv => ?_⟩⟩
  · rcases List.mem_append.mp hm with hm | hm
    · exact hi.kept e hm u hu
    · rw [List.mem_singleton.mp hm] at hu ⊢
      exact (he u hu).1
  · show ((w.returned ++ [(c, reply)]).filterMap acks).Nodup
    rw [List.filterMap_append, List.nodup_append]
    refine ⟨hi.unrepeated hT h0, ?_, fun a ha b hb heq => ?_⟩
    · cases h : acks (c, reply) <;> simp [h]
    · subst heq
      obtain ⟨e, hm, hv⟩ := List.mem_filterMap.mp hb
      rw [List.mem_singleton.mp hm] at hv
      obtain ⟨u, hu, rfl⟩ := hacks _ hv
      exact ((he u hu).2 hT h0).2 ha
  · obtain ⟨u, hu, rfl⟩ := hacks v hv
    exact ((he u hu).2 hT h0).1

end
end
end Drot.L5.MlDsaDemo
