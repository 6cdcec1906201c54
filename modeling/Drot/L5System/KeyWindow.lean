import Drot.L5System.Publication
import Drot.L5System.RoundLock

/-!
# The key window under a flood of proposals (`demo/src/bin/signer.rs`)

A proposal is not authenticated, and `reserve_at` burns every slot up to the one it is
asked for. `proposalSystem` is any number of threads that each serve one proposal with
an arbitrary payload, for any member, in every interleaving of what they read and sign
with publications of arbitrary records, failed reads, failed reservations, kills and
restarts.

* `window_bounded`: whatever comes in, a member's next free slot is at most the one after
  the slot of the version that is due, and it signs a version at most once.
* `failed_read_burns`: a read that fails makes version 0 the next one, although a record
  is published, and the member burns the slot of version 0.
* `window_kept`: that is the only way. While no read of a published record fails where it
  matters (`Window.lapse`), a member's counter moves only for a well-formed proposal that
  names the next version, or at a restart.

A publication is the rename that replaces the record, in one step with the create and
the write before it; its bytes are arbitrary, so the stored version may also go down.
The fields `asked`, `since`, `heard`, `history`, `signed`, `restarts` and `lapses` of
`Window` are records of what happened, which no program reads.
-/
namespace Drot.L5.KeyWindow
open Bytes L1.Message L2.SlotCounter L3.Protocol L4.RawVerifier Prog Demo

/-! ## The system -/

/-- A signature that was released. -/
structure Signed where
  member : Nat
  slot : UInt32
  version : Option UInt32   -- of the proposal it answers

structure Window where
  volume : Volume StorageName
  next : Nat → UInt64                     -- the counter of a running member
  stored : Nat → UInt64                   -- where its journal stands
  asked : Nat → Option (Nat × Bytes)      -- the member and the payload a thread serves
  since : Nat → Nat                       -- how many records were published when it took it
  heard : Nat → Option Bytes              -- what it read of the record
  history : List (Nat × Bytes)            -- the records published, oldest first
  signed : List Signed
  restarts : List Nat                     -- the members restarted, newest first
  lapses : Nat                            -- the failed reads that matter

namespace Window

/-- Nothing published, every counter at `SLOT`. -/
def start : Window where
  volume := .empty
  next _ := Params.slot.toUInt64
  stored _ := Params.slot.toUInt64
  asked _ := none
  since _ := 0
  heard _ := none
  history := []
  signed := []
  restarts := []
  lapses := 0

def ask (w : Window) (p node : Nat) (payload : Bytes) : Window :=
  { w with asked := Function.update w.asked p (some (node, payload)),
           since := Function.update w.since p w.history.length,
           heard := Function.update w.heard p none }

/-- The version thread `p` is asked to sign. -/
def version (w : Window) (p : Nat) : Option UInt32 := do
  let (_, payload) ← w.asked p
  return (← Proposal.decode payload).version

/-- A failed read matters in a thread that serves a well-formed proposal for version 0,
to a member that can still sign it. -/
def lapse (w : Window) (p : Nat) : Nat :=
  match w.asked p with
  | some (node, _) =>
    if w.version p = some 0 ∧ w.next node ≤ Params.slot.toUInt64 then 1 else 0
  | none => 0

def hear (w : Window) (p : Nat) (v : Volume StorageName) :
    (op : VolOp StorageName) → Except IoError (VolRes op) → Window
  | .readToEnd _, .ok bytes =>
    { w with volume := v, heard := Function.update w.heard p (some bytes) }
  | .openFile .currentRecord, .error _ =>
    { w with volume := v,
             lapses := w.lapses + if (w.volume.dir .currentRecord).isSome then w.lapse p else 0 }
  | .readToEnd _, .error _ => { w with volume := v, lapses := w.lapses + w.lapse p }
  | _, _ => { w with volume := v }

def burn (w : Window) (node : Nat) (slot : UInt32) : Window :=
  { w with next := Function.update w.next node (slot.toUInt64 + 1),
           stored := Function.update w.stored node (slot.toUInt64 + 1) }

def sign (w : Window) (p node : Nat) (slot : UInt32) : Window :=
  { w.burn node slot with signed := ⟨node, slot, w.version p⟩ :: w.signed }

/-- The create, the write and the rename of a publication. -/
def publish (w : Window) (bytes : Bytes) : Window :=
  let i := w.volume.createIno .tmp
  let v := (w.volume.createAt .tmp).setFile i bytes
  { w with volume := v.renamed .tmp .currentRecord i, history := w.history ++ [(i, bytes)] }

/-- The counter is opened again. -/
def restart (w : Window) (node : Nat) : Window :=
  { w with next := Function.update w.next node (w.stored node), restarts := node :: w.restarts }

end Window

/-- A failed `sign_at` was refused; or its reservation failed, which keeps the running
counter, while its record may have reached the journal or have spoilt the one an earlier
failure left there; or the reservation stood and the signing after it failed. -/
def exec (p : Nat) (w : Window) : (op : DemoOp) → DemoAns op → Window → Prop
  | .accept node, payload, w' => w' = w.ask p node payload
  | .storage op, r, w' => ∃ v, w.volume.exec op r v ∧ w' = w.hear p v op r
  | .signAt node _ slot, .ok _, w' =>
    burnAt (w.next node) slotEnd slot = .ok slot ∧ w' = w.sign p node slot
  | .signAt node _ slot, .error _, w' => w' = w ∨ burnAt (w.next node) slotEnd slot = .ok slot ∧
      ((∃ at', (at' = w.next node ∨ at' = slot.toUInt64 + 1) ∧
        w' = { w with stored := Function.update w.stored node at' }) ∨ w' = w.burn node slot)
  | .send _ _, _, w' => w' = w
  | _, _, _ => False

def machine : Machine DemoOp DemoAns Window where
  exec := exec
  owns _ _ := False
  release p w := { w with asked := Function.update w.asked p none,
                          heard := Function.update w.heard p none }
  power _ _ := False

inductive Event where
  | proposal (node : Nat)
  | publication (bytes : Bytes)
  | restart (node : Nat)

section
variable {H : Hashes} (S : Setup H)

def api : Api DemoOp DemoAns Window Empty Event Reply where
  run
    | _, .proposal node =>
      if node < nMembers then some ((serveProposal S node).bind fun r => .ret (none, r)) else none
    | _, _ => some (.ret (none, none))
  note
    | .proposal _, _, w => w
    | .publication bytes, _, w => w.publish bytes
    | .restart node, _, w => w.restart node

abbrev ProposalSys := Sys DemoOp DemoAns Window Empty Event Reply

def proposalSystem : LTS ProposalSys Act := machine.system (api S) (· = Window.start)

/-- The version after the highest one published, 0 when none was. -/
def due : List (Nat × Bytes) → Nat
  | [] => 0
  | x :: history =>
    max (match decodeList S.mode x.2 with
      | .ok (version, _) => version.toNat + 1
      | .error _ => 0) (due history)

/-- The record in storage after the first `m` publications. -/
def storedAt (history : List (Nat × Bytes)) (m : Nat) : Option Bytes :=
  (history.take m).getLast?.map Prod.snd

/-- Thread `p` serves a well-formed proposal to member `n`, and its version was the next
one at a moment since it took it: the one after the version in storage then, or 0 when
nothing was published. -/
def Called (w : Window) (p n : Nat) : Prop :=
  ∃ payload proposal m, w.asked p = some (n, payload) ∧ Proposal.decode payload = some proposal ∧
    w.since p ≤ m ∧ m ≤ w.history.length ∧
    expectedVersion S.mode (storedAt w.history m) = .ok proposal.version

/-- Member `n` is restarted and takes up the counter where its journal stands. -/
def Resumed (w w' : Window) (n : Nat) : Prop :=
  w'.restarts = n :: w.restarts ∧ w'.next n = w.stored n ∧ w'.stored n = w.stored n

/-- What a flood of proposals must not do. The next free slot of a member, of the running
counter and of the journal, is at most the one after the slot of the version that is due;
the member signed no version twice; and a step that moves one of the two is one of a
thread that was called to it, or a restart of the member. -/
structure Undrained (s : ProposalSys) : Prop where
  bound : ∀ n, (s.world.next n).toNat ≤ Params.slot.toNat + due S s.world.history + 1 ∧
    (s.world.stored n).toNat ≤ Params.slot.toNat + due S s.world.history + 1
  once : (s.world.signed.map fun x => (x.member, x.version)).Nodup
  called : ∀ a s', (proposalSystem S).step s a s' → ∀ n,
    s'.world.next n ≠ s.world.next n ∨ s'.world.stored n ≠ s.world.stored n →
    (∃ p, a.mover = some p ∧ Called S s.world p n) ∨ Resumed s.world s'.world n

end

/-! ## The pact -/

section
variable {H : Hashes} {S : Setup H} {w w' w'' : Window} {p n : Nat}

theorem due_mem {history : List (Nat × Bytes)} {x : Nat × Bytes} {version : UInt32}
    {list : List Entry} (hx : x ∈ history) (hd : decodeList S.mode x.2 = .ok (version, list)) :
    version.toNat + 1 ≤ due S history := by
  induction history with
  | nil => cases hx
  | cons y history ih =>
    unfold due
    rcases List.mem_cons.mp hx with h | h
    · subst h
      rw [hd]
      exact le_max_left _ _
    · exact le_trans (ih h) (le_max_right _ _)

theorem due_append (history more : List (Nat × Bytes)) :
    due S history ≤ due S (history ++ more) := by
  induction history with
  | nil => exact Nat.zero_le _
  | cons x history ih => exact max_le_max (le_refl _) ih

theorem due_grows {history history' : List (Nat × Bytes)} (h : history <+: history') :
    due S history ≤ due S history' := by
  obtain ⟨more, rfl⟩ := h
  exact due_append history more

variable (S) in
structure Inv (w : Window) : Prop where
  shelf : w.volume.Shelf .tmp .currentRecord w.history
  ahead : ∀ n, (w.next n).toNat ≤ (w.stored n).toNat
  bound : ∀ n, (w.stored n).toNat ≤ Params.slot.toNat + due S w.history + 1
  spent : ∀ x ∈ w.signed, x.slot.toNat < (w.next x.member).toNat
  derived : ∀ x ∈ w.signed, ∃ v, x.version = some v ∧ S.committee.slotFor v = some x.slot
  once : (w.signed.map fun x => (x.member, x.slot)).Nodup
  since : ∀ p, w.since p ≤ w.history.length
  heard : ∀ p bytes, w.heard p = some bytes → bytes ∈ w.history.map Prod.snd

/-- What only grows. -/
structure Grows (w w' : Window) : Prop where
  history : w.history <+: w'.history
  next : ∀ n, (w.next n).toNat ≤ (w'.next n).toNat
  lapses : w.lapses ≤ w'.lapses

/-- The records of the other threads stay as they are. -/
structure Own (p : Nat) (w w' : Window) : Prop where
  asked : ∀ q, q ≠ p → w'.asked q = w.asked q
  since : ∀ q, q ≠ p → w'.since q = w.since q
  heard : ∀ q, q ≠ p → w'.heard q = w.heard q

variable (S) in
/-- A thread keeps to its own records, and moves a counter only as it was called to, as
long as no read that matters failed. -/
structure Guarantee (p : Nat) (w w' : Window) : Prop where
  grows : Grows w w'
  own : Own p w w'
  moved : ∀ n, w'.next n ≠ w.next n ∨ w'.stored n ≠ w.stored n →
    (w.lapses = 0 → Called S w p n) ∨ Resumed w w' n

structure Relies (p : Nat) (w w' : Window) : Prop where
  grows : Grows w w'
  asked : w'.asked p = w.asked p
  since : w'.since p = w.since p
  heard : w'.heard p = w.heard p

theorem Grows.refl : Grows w w := ⟨List.prefix_rfl, fun _ => le_refl _, le_refl _⟩

theorem Grows.of_eq (hh : w'.history = w.history) (hn : w'.next = w.next)
    (hl : w'.lapses = w.lapses) : Grows w w' :=
  ⟨by rw [hh], fun n => by rw [hn], by rw [hl]⟩

theorem Grows.trans (h : Grows w w') (h' : Grows w' w'') : Grows w w'' :=
  ⟨h.history.trans h'.history, fun n => le_trans (h.next n) (h'.next n),
    le_trans h.lapses h'.lapses⟩

theorem Grows.zero (h : Grows w w') (h0 : w'.lapses = 0) : w.lapses = 0 :=
  Nat.le_zero.mp (h0 ▸ h.lapses)

theorem Own.refl : Own p w w := ⟨fun _ _ => rfl, fun _ _ => rfl, fun _ _ => rfl⟩

theorem Own.trans (h : Own p w w') (h' : Own p w' w'') : Own p w w'' :=
  ⟨fun q hq => (h'.asked q hq).trans (h.asked q hq),
    fun q hq => (h'.since q hq).trans (h.since q hq),
    fun q hq => (h'.heard q hq).trans (h.heard q hq)⟩

/-- The counters stay where they are. -/
theorem Guarantee.still (hg : Grows w w') (ho : Own p w w') (hn : w'.next = w.next)
    (hs : w'.stored = w.stored) : Guarantee S p w w' := by
  refine ⟨hg, ho, fun n hm => ?_⟩
  rw [hn, hs] at hm
  rcases hm with hm | hm <;> exact absurd rfl hm

theorem Guarantee.refl : Guarantee S p w w := .still .refl .refl rfl rfl

theorem Relies.refl : Relies p w w := ⟨.refl, rfl, rfl, rfl⟩

theorem Relies.trans (h : Relies p w w') (h' : Relies p w' w'') : Relies p w w'' :=
  ⟨h.grows.trans h'.grows, h'.asked.trans h.asked, h'.since.trans h.since, h'.heard.trans h.heard⟩

variable (S) in
def pact : Pact Window where
  inv := Inv S
  guar := Guarantee S
  rely := Relies
  refl _ _ := .refl
  trans _ _ _ _ h h' := h.trans h'
  other p _ _ _ hne _ _ h := ⟨h.grows, h.own.asked p (Ne.symm hne), h.own.since p (Ne.symm hne),
    h.own.heard p (Ne.symm hne)⟩

/-! ## What a thread does -/

theorem storedAt_grows {history history' : List (Nat × Bytes)} {m : Nat}
    (hp : history <+: history') (hm : m ≤ history.length) :
    storedAt history' m = storedAt history m := by
  obtain ⟨more, rfl⟩ := hp
  unfold storedAt
  rw [List.take_append_of_le_length hm]

theorem expectedVersion_due {history : List (Nat × Bytes)} {o : Option Bytes} {version : UInt32}
    (ho : ∀ bytes, o = some bytes → bytes ∈ history.map Prod.snd)
    (h : expectedVersion S.mode o = .ok version) : version.toNat ≤ due S history := by
  cases o with
  | none =>
    cases h
    exact Nat.zero_le _
  | some bytes =>
    obtain ⟨x, hx, rfl⟩ := List.mem_map.mp (ho bytes rfl)
    unfold expectedVersion at h
    dsimp only at h
    cases hd : decodeList S.mode x.2 with
    | error e => rw [hd] at h; cases h
    | ok y =>
      obtain ⟨published, list⟩ := y
      rw [hd] at h
      dsimp only at h
      cases hc : checkedSucc published with
      | none => rw [hc] at h; cases h
      | some next =>
        rw [hc] at h
        cases h
        rw [checkedSucc_toNat hc]
        exact due_mem hx hd

/-- The counters and the signatures stay as they are. -/
theorem Inv.still (hi : Inv S w) (hs : w'.volume.Shelf .tmp .currentRecord w'.history)
    (hg : Grows w w') (hn : w'.next = w.next) (hst : w'.stored = w.stored)
    (hsg : w'.signed = w.signed) (hsince : ∀ p, w'.since p ≤ w'.history.length)
    (hr : ∀ p bytes, w'.heard p = some bytes → bytes ∈ w'.history.map Prod.snd) : Inv S w' := by
  refine ⟨hs, fun n => ?_, fun n => ?_, fun x hx => ?_, fun x hx => ?_, ?_, hsince, hr⟩
  · rw [hn, hst]
    exact hi.ahead n
  · rw [hst]
    have hd := due_grows (S := S) hg.history
    have hb := hi.bound n
    omega
  · rw [hsg] at hx
    rw [hn]
    exact hi.spent x hx
  · rw [hsg] at hx
    exact hi.derived x hx
  · rw [hsg]
    exact hi.once

theorem heard_update {o : Option Bytes} (hi : Inv S w)
    (ho : ∀ bytes, o = some bytes → bytes ∈ w.history.map Prod.snd) :
    ∀ q bytes, Function.update w.heard p o q = some bytes → bytes ∈ w.history.map Prod.snd := by
  intro q bytes h
  by_cases hq : q = p
  · subst hq
    rw [Function.update_self] at h
    exact ho bytes h
  · rw [Function.update_of_ne hq] at h
    exact hi.heard q bytes h

theorem step_ask (hi : Inv S w) (node : Nat) (payload : Bytes) :
    Inv S (w.ask p node payload) ∧ Guarantee S p w (w.ask p node payload) := by
  have hg : Grows w (w.ask p node payload) := .of_eq rfl rfl rfl
  refine ⟨hi.still hi.shelf hg rfl rfl rfl (fun q => ?_) (heard_update hi fun _ h => by cases h),
    .still hg ⟨fun _ hq => Function.update_of_ne hq .., fun _ hq => Function.update_of_ne hq ..,
      fun _ hq => Function.update_of_ne hq ..⟩ rfl rfl⟩
  show Function.update w.since p w.history.length q ≤ w.history.length
  by_cases hq : q = p
  · rw [hq, Function.update_self]
  · rw [Function.update_of_ne hq]
    exact hi.since q

theorem step_read (hi : Inv S w) {i : Nat} {bytes : Bytes} (hb : bytes ∈ w.history.map Prod.snd) :
    Inv S (w.hear p w.volume (.readToEnd i) (.ok bytes)) ∧
      Guarantee S p w (w.hear p w.volume (.readToEnd i) (.ok bytes)) := by
  have hg : Grows w (w.hear p w.volume (.readToEnd i) (.ok bytes)) := .of_eq rfl rfl rfl
  exact ⟨hi.still hi.shelf hg rfl rfl rfl hi.since (heard_update hi fun _ h => Option.some.inj h ▸ hb),
    .still hg ⟨fun _ _ => rfl, fun _ _ => rfl, fun _ hq => Function.update_of_ne hq ..⟩ rfl rfl⟩

/-- A read fails. -/
theorem step_lapse (hi : Inv S w) (k : Nat) :
    Inv S { w with lapses := w.lapses + k } ∧ Guarantee S p w { w with lapses := w.lapses + k } := by
  have hg : Grows w { w with lapses := w.lapses + k } :=
    ⟨List.prefix_rfl, fun _ => le_refl _, Nat.le_add_right _ _⟩
  exact ⟨hi.still hi.shelf hg rfl rfl rfl hi.since hi.heard,
    .still hg ⟨fun _ _ => rfl, fun _ _ => rfl, fun _ _ => rfl⟩ rfl rfl⟩

/-- One member's counter moves forward, and its journal is not behind it. -/
theorem Inv.moved (hi : Inv S w) (hv : w'.volume = w.volume) (hh : w'.history = w.history)
    (hsince : w'.since = w.since) (hr : w'.heard = w.heard) (hsg : w'.signed = w.signed)
    (hn : ∀ m, m ≠ n → w'.next m = w.next m) (hs : ∀ m, m ≠ n → w'.stored m = w.stored m)
    (hup : (w.next n).toNat ≤ (w'.next n).toNat) (ha : (w'.next n).toNat ≤ (w'.stored n).toNat)
    (hb : (w'.stored n).toNat ≤ Params.slot.toNat + due S w.history + 1) : Inv S w' := by
  refine ⟨by rw [hv, hh]; exact hi.shelf, fun m => ?_, fun m => ?_, fun x hx => ?_,
    by rw [hsg]; exact hi.derived, by rw [hsg]; exact hi.once, by rw [hsince, hh]; exact hi.since,
    by rw [hr, hh]; exact hi.heard⟩
  · by_cases hm : m = n
    · rw [hm]
      exact ha
    · rw [hn m hm, hs m hm]
      exact hi.ahead m
  · rw [hh]
    by_cases hm : m = n
    · rw [hm]
      exact hb
    · rw [hs m hm]
      exact hi.bound m
  · rw [hsg] at hx
    have hsp := hi.spent x hx
    by_cases hm : x.member = n
    · rw [hm] at hsp ⊢
      omega
    · rw [hn _ hm]
      exact hsp

/-- A signature at a slot that has none. -/
theorem Inv.signing (hi : Inv S w) {x : Signed} {version : UInt32}
    (hsp : x.slot.toNat < (w.next x.member).toNat) (hv : x.version = some version)
    (hslot : S.committee.slotFor version = some x.slot)
    (hnew : ∀ y ∈ w.signed, y.member = x.member → y.slot ≠ x.slot) :
    Inv S { w with signed := x :: w.signed } := by
  refine ⟨hi.shelf, hi.ahead, hi.bound, fun y hy => ?_, fun y hy => ?_, ?_, hi.since, hi.heard⟩
  · rcases List.mem_cons.mp hy with h | hy
    · rw [h]
      exact hsp
    · exact hi.spent y hy
  · rcases List.mem_cons.mp hy with h | hy
    · rw [h]
      exact ⟨version, hv, hslot⟩
    · exact hi.derived y hy
  · refine List.nodup_cons.mpr ⟨fun hm => ?_, hi.once⟩
    obtain ⟨y, hy, he⟩ := List.mem_map.mp hm
    obtain ⟨hm, hs⟩ := Prod.mk.inj he
    exact hnew y hy hm hs

/-- What a call lets the counters of its member do. -/
theorem Guarantee.called (hc : w.lapses = 0 → Called S w p n) (hg : Grows w w') (ho : Own p w w')
    (hn : ∀ m, m ≠ n → w'.next m = w.next m) (hs : ∀ m, m ≠ n → w'.stored m = w.stored m) :
    Guarantee S p w w' := by
  refine ⟨hg, ho, fun m hm => .inl ?_⟩
  by_cases hmn : m = n
  · subst hmn
    exact hc
  · rcases hm with hm | hm
    · exact absurd (hn m hmn) hm
    · exact absurd (hs m hmn) hm

/-- The reservation fails after it may have written. -/
theorem step_spoilt {slot version : UInt32} {at' : UInt64} (hi : Inv S w)
    (hc : w.lapses = 0 → Called S w p n)
    (hslot : S.committee.slotFor version = some slot) (hle : version.toNat ≤ due S w.history)
    (hb : burnAt (w.next n) slotEnd slot = .ok slot)
    (hat : at' = w.next n ∨ at' = slot.toUInt64 + 1) :
    Inv S { w with stored := Function.update w.stored n at' } ∧
      Guarantee S p w { w with stored := Function.update w.stored n at' } := by
  set w₁ : Window := { w with stored := Function.update w.stored n at' }
  have hself : w₁.stored n = at' := Function.update_self ..
  have hother : ∀ m, m ≠ n → w₁.stored m = w.stored m := fun _ hm => Function.update_of_ne hm ..
  have hwin : (w.next n).toNat ≤ at'.toNat ∧
      at'.toNat ≤ Params.slot.toNat + due S w.history + 1 := by
    have hlo := (burnAt_ok hb).1
    have hsn := slotFor_toNat hslot
    have hsucc := toNat_succ_slot slot
    have hahead := hi.ahead n
    have hbound := hi.bound n
    rcases hat with rfl | rfl <;> omega
  refine ⟨hi.moved rfl rfl rfl rfl rfl (fun _ _ => rfl) hother (le_refl _) ?_ ?_,
    .called hc (.of_eq rfl rfl rfl) ⟨fun _ _ => rfl, fun _ _ => rfl, fun _ _ => rfl⟩
      (fun _ _ => rfl) hother⟩
  · rw [hself]
    exact hwin.1
  · rw [hself]
    exact hwin.2

/-- The reservation stands. -/
theorem step_burn {slot version : UInt32} (hi : Inv S w) (hc : w.lapses = 0 → Called S w p n)
    (hslot : S.committee.slotFor version = some slot) (hle : version.toNat ≤ due S w.history)
    (hb : burnAt (w.next n) slotEnd slot = .ok slot) :
    Inv S (w.burn n slot) ∧ Guarantee S p w (w.burn n slot) := by
  have hlo := (burnAt_ok hb).1
  have hsn := slotFor_toNat hslot
  have hsucc := toNat_succ_slot slot
  have hnext : ∀ m, m ≠ n → (w.burn n slot).next m = w.next m :=
    fun _ hm => Function.update_of_ne hm ..
  have hstored : ∀ m, m ≠ n → (w.burn n slot).stored m = w.stored m :=
    fun _ hm => Function.update_of_ne hm ..
  have hself : (w.burn n slot).next n = slot.toUInt64 + 1 := Function.update_self ..
  have hself' : (w.burn n slot).stored n = slot.toUInt64 + 1 := Function.update_self ..
  have hup : (w.next n).toNat ≤ ((w.burn n slot).next n).toNat := by
    rw [hself]
    omega
  have hg : Grows w (w.burn n slot) := by
    refine ⟨List.prefix_rfl, fun m => ?_, le_refl _⟩
    by_cases hm : m = n
    · rw [hm]
      exact hup
    · rw [hnext m hm]
  refine ⟨hi.moved rfl rfl rfl rfl rfl hnext hstored hup ?_ ?_,
    .called hc hg ⟨fun _ _ => rfl, fun _ _ => rfl, fun _ _ => rfl⟩ hnext hstored⟩
  · rw [hself, hself']
  · rw [hself']
    omega

theorem step_sign {slot version : UInt32} (hi : Inv S w) (hc : w.lapses = 0 → Called S w p n)
    (hv : w.version p = some version) (hslot : S.committee.slotFor version = some slot)
    (hle : version.toNat ≤ due S w.history) (hb : burnAt (w.next n) slotEnd slot = .ok slot) :
    Inv S (w.sign p n slot) ∧ Guarantee S p w (w.sign p n slot) := by
  obtain ⟨hi', hg⟩ := step_burn hi hc hslot hle hb
  refine ⟨hi'.signing ?_ hv hslot fun y hy hm he => ?_,
    ⟨hg.grows.history, hg.grows.next, hg.grows.lapses⟩,
    ⟨fun _ _ => rfl, fun _ _ => rfl, fun _ _ => rfl⟩, hg.moved⟩
  · show slot.toNat < (Function.update w.next n (slot.toUInt64 + 1) n).toNat
    have hsucc := toNat_succ_slot slot
    rw [Function.update_self]
    omega
  · -- it would have moved the counter past this slot
    have hsp := hi.spent y hy
    rw [hm, he] at hsp
    exact absurd hsp (Nat.not_lt.mpr (burnAt_ok hb).1)

theorem step_signAt {message : Blob 32} {slot version : UInt32} {r : Except String XmssSignature}
    (hi : Inv S w) (hc : burnAt (w.next n) slotEnd slot = .ok slot → w.lapses = 0 → Called S w p n)
    (hv : w.version p = some version) (hslot : S.committee.slotFor version = some slot)
    (hle : version.toNat ≤ due S w.history) (hx : exec p w (.signAt n message slot) r w') :
    Inv S w' ∧ Guarantee S p w w' := by
  cases r with
  | error e =>
    rcases hx with rfl | ⟨hb, ⟨at', hat, rfl⟩ | rfl⟩
    · exact ⟨hi, .refl⟩
    · exact step_spoilt hi (hc hb) hslot hle hb hat
    · exact step_burn hi (hc hb) hslot hle hb
  | ok signature =>
    obtain ⟨hb, rfl⟩ := hx
    exact step_sign hi (hc hb) hv hslot hle hb

/-- A record is published. -/
theorem step_publish (hi : Inv S w) (bytes : Bytes) :
    Inv S (w.publish bytes) ∧ Guarantee S p w (w.publish bytes) := by
  have hdir := w.volume.createAt_dir .tmp
  have hcreate := (hi.shelf.create (by decide)).1
  have hshelf := (hcreate.write hdir bytes).rename (by decide) hdir
  rw [show ((w.volume.createAt .tmp).setFile (w.volume.createIno .tmp) bytes).inode
    (w.volume.createIno .tmp) = bytes from Function.update_self ..] at hshelf
  have hg : Grows w (w.publish bytes) := ⟨List.prefix_append _ _, fun _ => le_refl _, le_refl _⟩
  refine ⟨hi.still hshelf hg rfl rfl rfl
    (fun q => le_trans (hi.since q) hg.history.length_le) fun q b hb => ?_,
    .still hg ⟨fun _ _ => rfl, fun _ _ => rfl, fun _ _ => rfl⟩ rfl rfl⟩
  obtain ⟨x, hx, rfl⟩ := List.mem_map.mp (hi.heard q b hb)
  exact List.mem_map.mpr ⟨x, hg.history.subset hx, rfl⟩

theorem step_restart (hi : Inv S w) (node : Nat) :
    Inv S (w.restart node) ∧ Guarantee S p w (w.restart node) := by
  have hother : ∀ m, m ≠ node → (w.restart node).next m = w.next m :=
    fun _ hm => Function.update_of_ne hm ..
  have hself : (w.restart node).next node = w.stored node := Function.update_self ..
  have hup : ∀ m, (w.next m).toNat ≤ ((w.restart node).next m).toNat := by
    intro m
    by_cases hm : m = node
    · rw [hm, hself]
      exact hi.ahead node
    · rw [hother m hm]
  refine ⟨hi.moved rfl rfl rfl rfl rfl hother (fun _ _ => rfl) (hup node) ?_ (hi.bound node),
    ⟨List.prefix_rfl, hup, le_refl _⟩, ⟨fun _ _ => rfl, fun _ _ => rfl, fun _ _ => rfl⟩,
    fun m hm => .inr ?_⟩
  · rw [hself]
    exact le_refl _
  · by_cases hmn : m = node
    · rw [hmn]
      exact ⟨rfl, hself, rfl⟩
    · rcases hm with hm | hm
      · exact absurd (hother m hmn) hm
      · exact absurd rfl hm

theorem step_release (hi : Inv S w) (p : Nat) :
    Inv S (machine.release p w) ∧ Guarantee S p w (machine.release p w) := by
  have hg : Grows w (machine.release p w) := .of_eq rfl rfl rfl
  exact ⟨hi.still hi.shelf hg rfl rfl rfl hi.since (heard_update hi fun _ h => by cases h),
    .still hg ⟨fun _ hq => Function.update_of_ne hq .., fun _ _ => rfl,
      fun _ hq => Function.update_of_ne hq ..⟩ rfl rfl⟩

/-! ## Every thread keeps the pact -/

/-- Thread `p` serves `payload` to member `n`, and has read `o`: a record that was in
storage since it took the proposal, or none. -/
structure Knows (p n : Nat) (payload : Bytes) (o : Option Bytes) (w : Window) : Prop where
  serving : w.asked p = some (n, payload)
  heard : w.heard p = o
  stored : ∀ bytes, o = some bytes → ∃ m, w.since p ≤ m ∧ m ≤ w.history.length ∧
    storedAt w.history m = some bytes
  unread : o = none → w.lapses = 0 → w.since p = 0 ∨ w.version p ≠ some 0 ∨
    Params.slot.toNat < (w.next n).toNat

theorem version_congr (h : w'.asked p = w.asked p) : w'.version p = w.version p := by
  unfold Window.version
  rw [h]

theorem Knows.relies {payload : Bytes} {o : Option Bytes} (h : Knows p n payload o w)
    (hr : Relies p w w') : Knows p n payload o w' := by
  refine ⟨hr.asked.trans h.serving, hr.heard.trans h.heard, fun bytes ho => ?_, fun ho h0 => ?_⟩
  · obtain ⟨m, hs, hm, hb⟩ := h.stored bytes ho
    exact ⟨m, hr.since ▸ hs, le_trans hm hr.grows.history.length_le,
      (storedAt_grows hr.grows.history hm).trans hb⟩
  · rw [hr.since, version_congr hr.asked]
    have hnext := hr.grows.next n
    exact (h.unread ho (hr.grows.zero h0)).imp_right (.imp_right fun hlt => lt_of_lt_of_le hlt hnext)

/-- A failed read that does not matter. -/
theorem of_lapse {payload : Bytes} (hs : w.asked p = some (n, payload)) (h : w.lapse p = 0) :
    w.version p ≠ some 0 ∨ Params.slot.toNat < (w.next n).toNat := by
  unfold Window.lapse at h
  simp only [hs] at h
  by_contra hno
  obtain ⟨hv, hn⟩ := not_or.mp hno
  have hle : w.next n ≤ Params.slot.toUInt64 := UInt64.le_iff_toNat_le.mpr (Nat.le_of_not_lt hn)
  rw [if_pos ⟨not_not.mp hv, hle⟩] at h
  cases h

/-- Nothing is in storage as long as nothing was published. -/
theorem Inv.history_of_dir (hi : Inv S w) (hd : w.volume.dir .currentRecord = none) :
    w.history = [] := by
  rw [hi.shelf.current] at hd
  exact List.getLast?_eq_none_iff.mp (Option.map_eq_none_iff.mp hd)

theorem keeps_currentRecord {payload : Bytes} (hs : w.asked p = some (n, payload))
    (hnone : w.heard p = none) : machine.keeps (pact S) p currentRecord
      (fun o w' => Knows p n payload o w') w := by
  have hfail : ∀ w₁, Knows p n payload none w₁ → machine.keeps (pact S) p (.ret none)
      (fun o w' => Knows p n payload o w') w₁ :=
    fun w₁ h => Machine.keeps_ret fun w' hr _ => h.relies hr
  apply Machine.keeps_call
  intro w₁ hr₁ hi₁ r w₂ hx
  obtain ⟨v, hv, rfl⟩ := hx
  have hs₁ : w₁.asked p = some (n, payload) := hr₁.asked.trans hs
  have hn₁ : w₁.heard p = none := hr₁.heard.trans hnone
  cases r with
  | error e =>
    obtain rfl : v = w₁.volume := hv
    obtain ⟨hi₂, hg₂⟩ := step_lapse (p := p) hi₁
      (if (w₁.volume.dir .currentRecord).isSome then w₁.lapse p else 0)
    refine ⟨hi₂, hg₂, hfail _ ⟨hs₁, hn₁, (fun _ h => by cases h), fun _ h0 => ?_⟩⟩
    cases hd : w₁.volume.dir .currentRecord with
    | none =>
      have hnil := hi₁.history_of_dir hd
      have hsince := hi₁.since p
      rw [hnil] at hsince
      exact .inl (Nat.le_zero.mp hsince)
    | some f =>
      have hadd : w₁.lapses +
          (if (w₁.volume.dir .currentRecord).isSome then w₁.lapse p else 0) = 0 := h0
      rw [hd] at hadd
      exact .inr (of_lapse hs₁ (Nat.add_eq_zero_iff.mp hadd).2)
  | ok f =>
    obtain ⟨hdir, rfl⟩ := hv
    refine ⟨hi₁, .refl, ?_⟩
    apply Machine.keeps_call
    intro w₃ hr₃ hi₃ r w₄ hx
    obtain ⟨v, hv, rfl⟩ := hx
    have hs₃ : w₃.asked p = some (n, payload) := hr₃.asked.trans hs₁
    have hn₃ : w₃.heard p = none := hr₃.heard.trans hn₁
    cases r with
    | error e =>
      obtain rfl : v = w₃.volume := hv
      obtain ⟨hi₄, hg₄⟩ := step_lapse (p := p) hi₃ (w₃.lapse p)
      refine ⟨hi₄, hg₄, hfail _ ⟨hs₃, hn₃, (fun _ h => by cases h), fun _ h0 => .inr ?_⟩⟩
      have hadd : w₃.lapses + w₃.lapse p = 0 := h0
      exact of_lapse hs₃ (Nat.add_eq_zero_iff.mp hadd).2
    | ok read =>
      obtain ⟨hread, rfl⟩ := hv
      have hb : read ∈ w₃.history.map Prod.snd :=
        List.mem_map.mpr ⟨_, hi₁.shelf.reads hdir hr₃.grows.history hi₃.shelf, hread.symm⟩
      obtain ⟨hi₄, hg₄⟩ := step_read (p := p) (i := f) hi₃ hb
      -- it is the record that was in storage when the file was opened
      have hthen : storedAt w₃.history w₁.history.length = some read := by
        rw [hread]
        exact hi₁.shelf.reads_last hdir hr₃.grows.history hi₃.shelf
      have hk : Knows p n payload (some read) (w₃.hear p w₃.volume (.readToEnd f) (.ok read)) := by
        refine ⟨hs₃, Function.update_self .., fun bytes hbytes => ?_, fun h => by cases h⟩
        cases hbytes
        exact ⟨w₁.history.length, hr₃.since ▸ hi₁.since p, hr₃.grows.history.length_le, hthen⟩
      exact ⟨hi₄, hg₄, Machine.keeps_ret fun w' hr' _ => hk.relies hr'⟩

theorem keeps_done (frame : Frame) : machine.keeps (pact S) p (pure frame) (fun _ _ => True) w :=
  Machine.keeps_ret fun _ _ _ => trivial

/-- What is signed was called for. -/
theorem Knows.called {payload : Bytes} {o : Option Bytes} {proposal : Proposal} {slot : UInt32}
    (h : Knows p n payload o w) (hd : Proposal.decode payload = some proposal)
    (he : expectedVersion S.mode o = .ok proposal.version)
    (hslot : S.committee.slotFor proposal.version = some slot)
    (hb : burnAt (w.next n) slotEnd slot = .ok slot) (h0 : w.lapses = 0) : Called S w p n := by
  cases o with
  | some bytes =>
    obtain ⟨m, hs, hm, hbytes⟩ := h.stored bytes rfl
    exact ⟨payload, proposal, m, h.serving, hd, hs, hm, by rw [hbytes]; exact he⟩
  | none =>
    have hv : proposal.version = 0 := (Except.ok.inj he).symm
    rcases h.unread rfl h0 with hs | hne | hlt
    · exact ⟨payload, proposal, 0, h.serving, hd, Nat.le_of_eq hs, Nat.zero_le _, he⟩
    · refine absurd ?_ hne
      unfold Window.version
      rw [h.serving]
      simp [hd, hv]
    · have hle := (burnAt_ok hb).1
      rw [hv, slotFor_zero] at hslot
      cases hslot
      omega

theorem keeps_onProposal {payload : Bytes} (hi : Inv S w) (hs : w.asked p = some (n, payload))
    (hnone : w.heard p = none) :
    machine.keeps (pact S) p (onProposal S n payload) (fun _ _ => True) w := by
  unfold onProposal
  cases hd : Proposal.decode payload with
  | none => exact keeps_done _
  | some proposal =>
    refine Machine.keeps_bind hi (Machine.keeps_mono (keeps_currentRecord hs hnone) ?_)
    intro o w₁ hk₁ hi₁
    cases he : expectedVersion S.mode o with
    | error why => exact keeps_done _
    | ok expected =>
      dsimp only
      split
      · exact keeps_done _
      · rename_i hne
        have hv : proposal.version = expected := not_not.mp hne
        rw [← hv] at he
        cases hslot : S.committee.slotFor proposal.version with
        | none => exact keeps_done _
        | some slot =>
          apply Machine.keeps_perform
          intro w₂ hr₂ hi₂ r w₃ hx
          have hk₂ := hk₁.relies hr₂
          have hver : w₂.version p = some proposal.version := by
            unfold Window.version
            rw [hk₂.serving]
            simp [hd]
          have hdue : proposal.version.toNat ≤ due S w₂.history :=
            expectedVersion_due (hk₂.heard ▸ hi₂.heard p) he
          obtain ⟨hi₃, hg₃⟩ := step_signAt hi₂ (hk₂.called hd he hslot) hver hslot hdue hx
          refine ⟨hi₃, hg₃, ?_⟩
          cases r with
          | error e => exact keeps_done _
          | ok signature => exact keeps_done _

theorem keeps_serveProposal (w : Window) (node : Nat) :
    machine.keeps (pact S) p (serveProposal S node) (fun _ _ => True) w := by
  apply Machine.keeps_perform
  intro w₁ _ hi₁ payload w₂ hx
  obtain rfl : w₂ = w₁.ask p node payload := hx
  obtain ⟨hi₂, hg₂⟩ := step_ask (p := p) hi₁ node payload
  refine ⟨hi₂, hg₂, Machine.keeps_bind hi₂ (Machine.keeps_mono
    (keeps_onProposal hi₂ (Function.update_self ..) (Function.update_self ..)) ?_)⟩
  intro frame w₃ _ _
  apply Machine.keeps_perform
  intro w₄ _ hi₄ r w₅ hx
  obtain rfl : w₅ = w₄ := hx
  exact ⟨hi₄, .refl, Machine.keeps_ret fun _ _ _ => trivial⟩

theorem honoured : Honoured (pact S) machine (api S) := by
  refine ⟨fun p o e m w hm hi => ?_, fun p w hi => step_release hi p, fun _ _ h => h⟩
  -- a step of the event, and then the end of its thread
  have hend : ∀ w₁ w₂, Inv S w₁ → Inv S w₂ ∧ Guarantee S p w₁ w₂ →
      Inv S (machine.release p w₂) ∧ Guarantee S p w₁ (machine.release p w₂) := by
    intro w₁ w₂ hi₁ h
    obtain ⟨hi₂, hg₂⟩ := h
    obtain ⟨hi₃, hg₃⟩ := step_release hi₂ p
    exact ⟨hi₃, hg₂.grows.trans hg₃.grows, hg₂.own.trans hg₃.own, hg₂.moved⟩
  cases e with
  | proposal node =>
    simp only [api] at hm
    split at hm
    · cases hm
      refine Machine.keeps_bind hi (Machine.keeps_mono (keeps_serveProposal w node) ?_)
      intro r w₁ _ _
      exact Machine.keeps_ret fun w₂ _ hi₂ => hend _ _ hi₂ ⟨hi₂, .refl⟩
    · cases hm
  | publication bytes =>
    cases hm
    exact Machine.keeps_ret fun w₁ _ hi₁ => hend _ _ hi₁ (step_publish hi₁ bytes)
  | restart node =>
    cases hm
    exact Machine.keeps_ret fun w₁ _ hi₁ => hend _ _ hi₁ (step_restart hi₁ node)

/-! ## Every run -/

theorem inv_start : Inv S Window.start := by
  refine ⟨Volume.shelf_empty, fun _ => le_refl _, fun _ => ?_, fun _ h => ?_, fun _ h => ?_,
    List.nodup_nil, fun _ => le_refl _, fun _ _ h => ?_⟩
  · show Params.slot.toUInt64.toNat ≤ Params.slot.toNat + 0 + 1
    decide
  · cases h
  · cases h
  · cases h

theorem holds_reachable {s : ProposalSys} (hr : (proposalSystem S).Reachable s) :
    (pact S).Holds machine (api S) s := by
  have h0 : ∀ w, w = Window.start → Inv S w := by
    intro w hw
    rw [hw]
    exact inv_start
  exact Pact.reachable honoured h0 hr

/-- The slot of a signature tells its version. -/
theorem Inv.versions_once (hi : Inv S w) :
    (w.signed.map fun x => (x.member, x.version)).Nodup := by
  have hmap : (w.signed.map fun x => (x.member, x.version)).map
      (fun y => (y.1, y.2.bind S.committee.slotFor)) =
      (w.signed.map fun x => (x.member, x.slot)).map fun y => (y.1, some y.2) := by
    rw [List.map_map, List.map_map]
    refine List.map_congr_left fun x hx => ?_
    obtain ⟨v, hv, hs⟩ := hi.derived x hx
    simp [hv, hs]
  have hinj : Function.Injective fun y : Nat × UInt32 => (y.1, some y.2) := by
    intro a b h
    simp only [Prod.mk.injEq, Option.some.injEq] at h
    exact Prod.ext h.1 h.2
  exact List.Nodup.of_map _ (hmap ▸ hi.once.map hinj)

end

/-! ## A record, and a proposal -/

def firstRecord : StatusList := unsignedRecord 0

/-- Thread 1 published it. -/
def firstWindow : Window := machine.release 1 (Window.start.publish firstRecord.toBytes)

section
variable {H : Hashes} (S : Setup H) {p n : Nat} {w w' : Window}

/-- A thread that cannot open the record. -/
theorem runs_unread : ∃ lapses, machine.Runs (fun _ _ => True) p currentRecord w (.ret none)
    { w with lapses := lapses } :=
  ⟨_, .step (.error ⟨.other, "Input/output error (os error 5)"⟩) trivial ⟨w.volume, rfl, rfl⟩ .refl⟩

theorem runs_read {f : Nat} (hd : w.volume.dir .currentRecord = some f) :
    machine.Runs (fun _ _ => True) p currentRecord w (.ret (some (w.volume.inode f)))
      { w with heard := Function.update w.heard p (some (w.volume.inode f)) } :=
  .step (.ok f) trivial ⟨w.volume, ⟨hd, rfl⟩, rfl⟩
    (.step (.ok (w.volume.inode f)) trivial ⟨w.volume, ⟨rfl, rfl⟩, rfl⟩ .refl)

/-- With what it has read, the thread comes to sign. -/
theorem runs_signAt {x : Proposal} {slot : UInt32} {o : Option Bytes}
    (hlen : x.encode.length ≤ maxFrame)
    (hread : machine.Runs (fun _ _ => True) p currentRecord (w.ask p n x.encode) (.ret o) w')
    (he : expectedVersion S.mode o = .ok x.version)
    (hslot : S.committee.slotFor x.version = some slot) :
    ∃ k, machine.Runs (fun _ _ => True) p (serveProposal S n) w
      (.call (.signAt n (S.committee.messageFor H .wotsXmss x.list x.version) slot) k) w' := by
  have hon : ∃ k, machine.Runs (fun _ _ => True) p (onProposal S n x.encode) (w.ask p n x.encode)
      (.call (.signAt n (S.committee.messageFor H .wotsXmss x.list x.version) slot) k) w' := by
    unfold onProposal
    rw [Proposal.decode_encode hlen]
    refine ⟨fun
      | .ok signature => .ret (msgSignature, SignatureReply.encode ⟨[signature], []⟩)
      | .error e => .ret (abstain e), (hread.bind _).trans (.of_eq ?_)⟩
    simp only [Prog.bind, he, ne_eq, not_true_eq_false, if_false, hslot]
    exact congrArg (Prog.call _) (funext fun r => by cases r <;> rfl)
  obtain ⟨k, hk⟩ := hon
  exact ⟨_, .step x.encode trivial rfl (hk.bind _)⟩

end

/-- Version 0 is published, and thread 0 signs `x` for member 0. -/
theorem reachable_signAt {x : Proposal} {slot : UInt32} {o : Option Bytes} {w : Window}
    (hlen : x.encode.length ≤ maxFrame) (hread : machine.Runs (fun _ _ => True) 0 currentRecord
      (firstWindow.ask 0 0 x.encode) (.ret o) w)
    (he : expectedVersion demoSetup.mode o = .ok x.version)
    (hslot : demoSetup.committee.slotFor x.version = some slot)
    (hb : burnAt (w.next 0) slotEnd slot = .ok slot) : ∃ s s',
    (proposalSystem demoSetup).Reachable s ∧ (proposalSystem demoSetup).step s (.exec 0) s' ∧
      s.world = w ∧ s'.world = w.sign 0 0 slot := by
  let G : ProposalSys → Act → Prop := fun _ _ => True
  have h0 : ((proposalSystem demoSetup).guard G).Reachable ⟨Window.start, fun _ => .idle⟩ :=
    .init ⟨rfl, rfl⟩
  have h1 := Machine.reachable_call (p := 1) (c := .publication firstRecord.toBytes)
    (Q := fun _ _ => True) .refl rfl rfl (fun _ _ _ _ _ _ => trivial) (fun _ => trivial)
    (fun _ => trivial) h0
  obtain ⟨k, hruns⟩ := runs_signAt demoSetup hlen hread he hslot
  have h2 := Machine.reachable_busy (p := 0) (o := none) (c := .proposal 0) rfl rfl trivial h1
  have h3 := Machine.reachable_runs_among (hruns.bind _) (fun _ _ _ _ => trivial) h2
  have hsign : ∀ message, machine.exec 0 w (.signAt 0 message slot) (.ok sampleSignature)
      (w.sign 0 0 slot) := fun _ => ⟨hb, rfl⟩
  exact ⟨_, _, h3.of_guard, .exec rfl (hsign _), rfl, rfl⟩

/-! ## Every proposal, in every run -/

/-- A flood of proposals does not drain the key window. In every reachable state, whatever
was published, read and restarted, the next free slot of every member, of the running
counter and of the journal, is at most the one after the slot of the version that is due,
and the member signed no version twice. -/
theorem window_bounded {H : Hashes} (S : Setup H) (s : ProposalSys)
    (hr : (proposalSystem S).Reachable s) :
    (∀ n, (s.world.next n).toNat ≤ Params.slot.toNat + due S s.world.history + 1 ∧
      (s.world.stored n).toNat ≤ Params.slot.toNat + due S s.world.history + 1) ∧
    (s.world.signed.map fun x => (x.member, x.version)).Nodup := by
  have hi := (holds_reachable hr).1
  exact ⟨fun n => ⟨le_trans (hi.ahead n) (hi.bound n), hi.bound n⟩, hi.versions_once⟩

/-- Nor does it move a counter that it should not. In every run in which no read of a
published record failed in a thread that serves a well-formed proposal for version 0 to
a member that can still sign it, every state that is reached is undrained: a counter
moves only for a well-formed proposal whose version was the next one while it was served,
or at a restart. -/
theorem window_kept {H : Hashes} (S : Setup H) (s : ProposalSys)
    (hr : (proposalSystem S).Reachable s) (h0 : s.world.lapses = 0) : Undrained S s := by
  obtain ⟨hbound, honce⟩ := window_bounded S s hr
  refine ⟨hbound, honce, fun a s' hs n hm => ?_⟩
  rcases Pact.guar_step honoured (holds_reachable hr) hs with he | ⟨p, hp, hg⟩
  · rw [he] at hm
    rcases hm with hm | hm <;> exact absurd rfl hm
  · exact (hg.moved n hm).imp (fun hc => ⟨p, hp, hc h0⟩) id

def secondProposal : Proposal := ⟨1, [demoEntry]⟩

/-- Member 0 reads version 0 and signs version 1. -/
theorem window_kept_second : ∃ s s' : ProposalSys, (proposalSystem demoSetup).Reachable s ∧
    (proposalSystem demoSetup).step s (.exec 0) s' ∧ due demoSetup s.world.history = 1 ∧
    s'.world.next 0 = 45 ∧ Undrained demoSetup s ∧ Called demoSetup s.world 0 0 := by
  have hlen : secondProposal.encode.length ≤ maxFrame := by
    rw [Proposal.length_encode]
    decide
  have hd : decodeList demoSetup.mode firstRecord.toBytes = .ok (0, []) := decodeList_unsigned 0
  have he : expectedVersion demoSetup.mode (some firstRecord.toBytes) = .ok 1 := by
    simp only [expectedVersion, hd]
    rfl
  obtain ⟨s, s', hr, hs, hw, hw'⟩ := reachable_signAt hlen (runs_read (f := 0) rfl) he
    (show demoSetup.committee.slotFor 1 = some 44 from rfl) rfl
  have h := window_kept demoSetup s hr (by rw [hw]; rfl)
  have hne : s'.world.next 0 ≠ s.world.next 0 := by
    rw [hw, hw']
    decide
  refine ⟨s, s', hr, hs, ?_, by rw [hw']; rfl, h, ?_⟩
  · rw [hw]
    show due demoSetup [(0, firstRecord.toBytes)] = 1
    simp only [due, hd]
    rfl
  · rcases h.called _ s' hs 0 (.inl hne) with ⟨p, hp, hc⟩ | ⟨hrestart, -⟩
    · cases hp
      exact hc
    · rw [hw, hw'] at hrestart
      cases hrestart

def firstProposal : Proposal := ⟨0, []⟩

/-- The record in storage has been version 0 since before the proposal came, which names
version 0, not the one after it; the read fails, and member 0 burns the slot. -/
theorem failed_read_burns : ∃ s s' : ProposalSys, (proposalSystem demoSetup).Reachable s ∧
    (proposalSystem demoSetup).step s (.exec 0) s' ∧
    s.world.history = [(0, firstRecord.toBytes)] ∧ s.world.since 0 = 1 ∧
    s.world.asked 0 = some (0, firstProposal.encode) ∧
    s.world.next 0 = 43 ∧ s'.world.next 0 = 44 ∧ ¬ Undrained demoSetup s := by
  have hlen : firstProposal.encode.length ≤ maxFrame := by
    rw [Proposal.length_encode]
    decide
  obtain ⟨lapses, hread⟩ := runs_unread (p := 0) (w := firstWindow.ask 0 0 firstProposal.encode)
  obtain ⟨s, s', hr, hs, hw, hw'⟩ := reachable_signAt hlen hread rfl
    (slotFor_zero demoSetup) rfl
  refine ⟨s, s', hr, hs, by rw [hw]; rfl, by rw [hw]; rfl, by rw [hw]; rfl, by rw [hw]; rfl,
    by rw [hw']; rfl, fun h => ?_⟩
  have hne : s'.world.next 0 ≠ s.world.next 0 := by
    rw [hw, hw']
    show (44 : UInt64) ≠ 43
    decide
  rcases h.called _ s' hs 0 (.inl hne) with ⟨p, hp, payload, x, m, ha, hd, hsince, hm, he⟩ | ⟨hre, -⟩
  · cases hp
    rw [hw] at ha hsince hm he
    cases ha
    rw [Proposal.decode_encode hlen] at hd
    cases hd
    -- at no moment since was anything but version 0 in storage
    obtain rfl : m = 1 := Nat.le_antisymm hm hsince
    have hdec : decodeList demoSetup.mode firstRecord.toBytes = .ok (0, []) := decodeList_unsigned 0
    have hnext : expectedVersion demoSetup.mode (some firstRecord.toBytes) = .ok 1 := by
      simp only [expectedVersion, hdec]
      rfl
    have hcontra : Except.ok (ε := String) (1 : UInt32) = .ok 0 := hnext.symm.trans he
    cases hcontra
  · rw [hw, hw'] at hre
    cases hre

end Drot.L5.KeyWindow
