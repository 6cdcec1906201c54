import Drot.Core.Rely
import Drot.L3Protocol.Committee
import Drot.L5System.Demo

/-!
# How a committee comes to be (`demo/src/bin/bootstrap.rs`)

The containers of the XMSS demo start in any order, over a shared directory.
`bootstrap` publishes a run identifier, waits for the ten keys and assembles the anchor
from them; a `member` waits for the identifier, derives its key from it, publishes the
key and waits for the anchor; a `holder` waits for the anchor. Each may be killed
between any two effects, started again, and time out.

* `started_agree`: while the identifier that is there can be read, all members and
  holders that ever start have one committee, the one of the ten keys of one run
  identifier; no member finds that the anchor does not name it; and every anchor that
  is ever read is that committee's.
* `failed_read_new_run`: a single failed read of the identifier is enough to lose that:
  the holder keeps the committee of a run that is over.

There is one container a role, so no two write the same name, and `write_atomic` is one
effect; one that fails may have taken place.
-/
namespace Drot.L5.Bootstrap
open Bytes L1.Message L3.Protocol Prog
open Demo (nMembers threshold)

/-! ## The programs -/

inductive FileName where
  | runId
  | memberKey (index : Nat)
  | anchor
  deriving DecidableEq, Repr

inductive Role where
  | bootstrap | holder
  | member (index : Nat)

inductive BootOp where
  | env
  | read (name : FileName)         -- `fs::read`
  | waitFor (name : FileName)      -- until the deadline
  | exist (name : FileName)        -- `Path::exists`
  | readDir
  | remove (name : FileName)
  | random
  | openCounter (index : Nat) (pk : XmssPublicKey)
  | writeAtomic (name : FileName) (bytes : Bytes)

@[reducible] def BootAns : BootOp → Type
  | .env => Role
  | .read _ | .waitFor _ => Option Bytes
  | .exist _ | .openCounter _ _ => Bool
  | .readDir => List FileName
  | .remove _ => Unit
  | .random => Blob 32
  | .writeAtomic _ _ => Except IoError Unit

abbrev BootProg := Prog BootOp BootAns

def ask (op : BootOp) : BootProg (BootAns op) := perform op

/-- What ends a start, by the text of its `expect` or `panic!`. -/
inductive Panic where
  | cannotPublishRunId (e : IoError)
  | neverPublished (index : Nat)
  | malformedKey (index : Nat)
  | committee (text : String)
  | cannotPublishAnchor (e : IoError)
  | outside (index : Nat)
  | neverStarted
  | cannotPublishKey (e : IoError)
  | counterState
  | noAnchor (text : String)
  | notNamed (index : Nat)

inductive Started where
  | bootstrap
  | holder (committee : Committee)
  | member (index : Nat) (runId : Bytes) (committee : Committee)

/-- The hash, leanVM's `key_gen_from_seed` at the demo's slots, and `MEMBER_SECRET`. -/
structure Deployment where
  hashes : Hashes
  keyGen : Blob 32 → XmssPublicKey
  secret : Nat → Bytes

/-- mirrors src/demo/src/storage.rs:131-140 -/
def memberSeed (H : Hashes) (secret runId : Bytes) (index : Nat) : Blob 32 :=
  H.sha3 (ascii "drot-demo/member-seed/v1" ++ secret ++ runId ++ leBytes 8 index)

/-- mirrors src/demo/src/bin/bootstrap.rs:92-101 -/
def reset : List FileName → BootProg Unit
  | [] => return ()
  | name :: names => do
    ask (.remove name)
    reset names

/-- mirrors src/demo/src/bin/bootstrap.rs:41-49 -/
def newRun : BootProg (Except Panic Unit) := do
  let entries ← ask .readDir
  reset entries
  let id ← ask .random
  match ← ask (.writeAtomic .runId id.1) with
  | .error e => return .error (.cannotPublishRunId e)
  | .ok () => return .ok ()

/-- mirrors src/demo/src/bin/bootstrap.rs:56-70 -/
def collectKeys : List Nat → BootProg (Except Panic (List XmssPublicKey))
  | [] => return .ok []
  | index :: rest => do
    match ← ask (.waitFor (.memberKey index)) with
    | none => return .error (.neverPublished index)
    | some bytes =>
      if h : bytes.length = 32 then
        match ← collectKeys rest with
        | .error e => return .error e
        | .ok members => return .ok (⟨bytes, h⟩ :: members)
      else return .error (.malformedKey index)

/-- mirrors src/demo/src/bin/bootstrap.rs:56-77 -/
def assemble (D : Deployment) : BootProg (Except Panic Started) := do
  match ← collectKeys (List.range nMembers) with
  | .error e => return .error e
  | .ok members =>
    match Committee.new D.hashes members threshold Demo.Params.slot with
    | .error text => return .error (.committee text)
    | .ok committee =>
      match ← ask (.writeAtomic .anchor committee.toBytes) with
      | .error e => return .error (.cannotPublishAnchor e)
      | .ok () => return .ok .bootstrap

/-- mirrors src/demo/src/bin/bootstrap.rs:32-88 -/
def bootstrap (D : Deployment) : BootProg (Except Panic Started) := do
  let id ← ask (.read .runId)
  if id.getD [] = [] then
    match ← newRun with
    | .error e => return .error e
    | .ok () => assemble D
  else assemble D

/-- mirrors src/demo/src/storage.rs:114-117 -/
def waitForCommittee (D : Deployment) : BootProg (Except Panic Committee) := do
  match ← ask (.waitFor .anchor) with
  | none => return .error (.noAnchor "did not appear")
  | some bytes =>
    match Committee.fromBytes D.hashes bytes with
    | .error text => return .error (.noAnchor text)
    | .ok committee => return .ok committee

/-- mirrors src/demo/src/bin/signer.rs:101-104 -/
def publishKey (index : Nat) (pk : XmssPublicKey) : BootProg (Except Panic Unit) := do
  if ← ask (.exist (.memberKey index)) then return .ok ()
  else
    match ← ask (.writeAtomic (.memberKey index) pk.1) with
    | .error e => return .error (.cannotPublishKey e)
    | .ok () => return .ok ()

/-- The key of a member in a run. -/
def keyOf (D : Deployment) (runId : Bytes) (index : Nat) : XmssPublicKey :=
  D.keyGen (memberSeed D.hashes (D.secret index) runId index)

/-- mirrors src/demo/src/bin/signer.rs:67-131 -/
def member (D : Deployment) (index : Nat) : BootProg (Except Panic Started) := do
  if nMembers ≤ index then return .error (.outside index)
  else
    match ← ask (.waitFor .runId) with
    | none => return .error .neverStarted
    | some runId =>
      let pk := keyOf D runId index
      match ← publishKey index pk with
      | .error e => return .error e
      | .ok () =>
        if ← ask (.openCounter index pk) then
          match ← waitForCommittee D with
          | .error e => return .error e
          | .ok committee =>
            if committee.indexOf pk = some index then
              return .ok (.member index runId committee)
            else return .error (.notNamed index)
        else return .error .counterState

/-- mirrors src/demo/src/bin/holder.rs:75 -/
def holder (D : Deployment) : BootProg (Except Panic Started) := do
  match ← waitForCommittee D with
  | .error e => return .error e
  | .ok committee => return .ok (.holder committee)

/-- A container is started: its environment says as what. -/
def start (D : Deployment) : BootProg (Except Panic Started) := do
  match ← ask .env with
  | .bootstrap => bootstrap D
  | .holder => holder D
  | .member index => member D index

/-! ## The system -/

structure World where
  files : FileName → Option Bytes
  counters : Nat → Option XmssPublicKey  -- the key of each member's `slot-counter`
  unread : Nat                           -- reads of a file that is there that failed
  ended : List (Except Panic Started)

namespace World

def empty : World := ⟨fun _ => none, fun _ => none, 0, []⟩

def put (w : World) (name : FileName) (content : Option Bytes) : World :=
  { w with files := Function.update w.files name content }

def setCounter (w : World) (index : Nat) (pk : XmssPublicKey) : World :=
  { w with counters := Function.update w.counters index (some pk) }

end World

/-- One container a role. -/
def roleOf : Nat → Role
  | 0 => .bootstrap
  | 1 => .holder
  | n + 2 => .member n

def exec (p : Nat) (w : World) : (op : BootOp) → BootAns op → World → Prop
  | .env, role, w' => role = roleOf p ∧ w' = w
  | .read name, some bytes, w' => w.files name = some bytes ∧ w' = w
  | .read name, none, w' =>
    w' = { w with unread := w.unread + if (w.files name).isSome then 1 else 0 }
  | .waitFor name, some bytes, w' => w.files name = some bytes ∧ bytes ≠ [] ∧ w' = w
  | .exist name, true, w' => (w.files name).isSome ∧ w' = w
  | .remove name, _, w' => w' = w ∨ w' = w.put name none
  | .writeAtomic name bytes, .ok (), w' => w' = w.put name (some bytes)
  | .writeAtomic name bytes, .error _, w' => w' = w ∨ w' = w.put name (some bytes)
  -- `open` refuses the counter of another key; `create` may fail after its rename
  | .openCounter index pk, true, w' =>
    (w.counters index = none ∨ w.counters index = some pk) ∧ w' = w.setCounter index pk
  | .openCounter index pk, false, w' =>
    w' = w ∨ w.counters index = none ∧ w' = w.setCounter index pk
  | .waitFor _, none, w' | .exist _, false, w' | .readDir, _, w' | .random, _, w' => w' = w

def machine : Machine BootOp BootAns World where
  exec := exec
  owns _ _ := False
  release _ w := w
  power _ _ := False

def api (D : Deployment) : Api BootOp BootAns World Empty Unit (Except Panic Started) where
  run _ _ := some ((start D).bind fun r => .ret (none, r))
  note _ r w := { w with ended := w.ended ++ [r] }

abbrev BootSys := Sys BootOp BootAns World Empty Unit (Except Panic Started)

/-- Containers over an empty directory. -/
def deployment (D : Deployment) : LTS BootSys Act := machine.system (api D) (· = World.empty)

/-! ## The pact -/

/-- The ten keys of a run, in the order of the committee. -/
def keysOf (D : Deployment) (runId : Bytes) : List XmssPublicKey :=
  (List.range nMembers).map (keyOf D runId)

theorem length_keysOf (D : Deployment) (id : Bytes) : (keysOf D id).length = nMembers := by
  simp [keysOf]

/-- The committee of a run. -/
def Makes (D : Deployment) (runId : Bytes) (committee : Committee) : Prop :=
  Committee.new D.hashes (keysOf D runId) threshold Demo.Params.slot = .ok committee

/-- The run is `id`, as long as no read has failed. -/
def Run (w : World) (id : Bytes) : Prop := w.unread = 0 → w.files .runId = some id

/-- What a container that started has. -/
def Fine (D : Deployment) (w : World) : Started → Prop
  | .bootstrap => True
  | .holder c => ∃ id, Run w id ∧ Makes D id c
  | .member index id c => Run w id ∧ Makes D id c ∧ c.indexOf (keyOf D id index) = some index

/-- Any panic but that the anchor does not name a member. -/
def Panic.Other : Panic → Prop
  | .notNamed _ => False
  | _ => True

/-- What a program returns is `P`; it may panic, but for that one reason. -/
def Returns {α : Type} (P : α → World → Prop) : Except Panic α → World → Prop
  | .ok a, w => P a w
  | .error e, _ => e.Other

structure Good (D : Deployment) (w : World) : Prop where
  idle : w.files .runId = none → ∀ name, w.files name = none
  nonempty : w.files .runId ≠ some []
  keys : ∀ id index bytes, w.files .runId = some id → w.files (.memberKey index) = some bytes →
    bytes = (keyOf D id index).1
  anchor : ∀ id bytes, w.files .runId = some id → w.files .anchor = some bytes →
    ∃ c, Makes D id c ∧ bytes = c.toBytes
  ended : ∀ r ∈ w.ended, Returns (fun s w => Fine D w s) r w

/-- Good until a read fails. -/
def Inv (D : Deployment) (w : World) : Prop := w.unread = 0 → Good D w

structure Relies (p : Nat) (w w' : World) : Prop where
  unread : w.unread ≤ w'.unread
  run : w'.unread = 0 → ∀ id, w.files .runId = some id → w'.files .runId = some id
  mine : p = 0 → w'.files .runId = w.files .runId

def Guarantee (p : Nat) (w w' : World) : Prop := ∀ q, q ≠ p → Relies q w w'

section
variable {D : Deployment} {p q : Nat} {w w' w'' : World} {id : Bytes} {α β : Type}

theorem Relies.refl : Relies p w w := ⟨Nat.le_refl _, fun _ _ h => h, fun _ => rfl⟩

theorem Relies.before (hr : Relies p w w') (h0 : w'.unread = 0) : w.unread = 0 :=
  Nat.le_zero.mp (h0 ▸ hr.unread)

theorem Relies.trans (h : Relies p w w') (h' : Relies p w' w'') : Relies p w w'' := by
  refine ⟨h.unread.trans h'.unread, fun h0 id hid => ?_, fun hp => (h'.mine hp).trans (h.mine hp)⟩
  exact h'.run h0 id (h.run (h'.before h0) id hid)

def pact (D : Deployment) : Pact World where
  inv := Inv D
  guar := Guarantee
  rely := Relies
  refl _ _ := .refl
  trans _ _ _ _ h h' := h.trans h'
  other _ _ _ _ hne _ _ h := h _ (Ne.symm hne)

theorem Guarantee.refl : Guarantee p w w := fun _ _ => .refl

theorem Run.relies (h : Run w id) (hr : Relies p w w') : Run w' id :=
  fun h0 => hr.run h0 id (h (hr.before h0))

theorem Run.unique {id' : Bytes} (h : Run w id) (h' : Run w id') (h0 : w.unread = 0) : id = id' :=
  Option.some.inj ((h h0).symm.trans (h' h0))

theorem Fine.relies {s : Started} (h : Fine D w s) (hr : Relies p w w') : Fine D w' s := by
  cases s with
  | bootstrap => trivial
  | holder c =>
    obtain ⟨id, hid, hc⟩ := h
    exact ⟨id, hid.relies hr, hc⟩
  | member index id c => exact ⟨h.1.relies hr, h.2⟩

theorem Returns.relies {P : α → World → Prop} {r : Except Panic α}
    (hP : ∀ a, P a w → P a w') (h : Returns P r w) : Returns P r w' := by
  cases r with
  | error e => exact h
  | ok a => exact hP a h

theorem Good.grows (hgood : Good D w) (hr : Relies p w w') :
    ∀ r ∈ w.ended, Returns (fun s w => Fine D w s) r w' :=
  fun r hmem => (hgood.ended r hmem).relies fun _ h => h.relies hr

/-! ### Steps -/

theorem put_self (name : FileName) (content : Option Bytes) :
    (w.put name content).files name = content := Function.update_self ..

theorem put_ne {name other : FileName} (h : other ≠ name) (content : Option Bytes) :
    (w.put name content).files other = w.files other := Function.update_of_ne h ..

/-- A file of a run is written, and the identifier stays. -/
theorem step_put (name : FileName) (bytes : Bytes) (hi : Inv D w) (hrun : Run w id)
    (hname : name ≠ .runId)
    (hkey : w.unread = 0 → ∀ index, name = .memberKey index → bytes = (keyOf D id index).1)
    (hanchor : w.unread = 0 → name = .anchor → ∃ c, Makes D id c ∧ bytes = c.toBytes) :
    Inv D (w.put name (some bytes)) ∧ Guarantee p w (w.put name (some bytes)) := by
  have hid : (w.put name (some bytes)).files .runId = w.files .runId := put_ne hname.symm _
  have hg : Guarantee p w (w.put name (some bytes)) := fun q _ =>
    ⟨Nat.le_refl _, fun _ id h => hid.trans h, fun _ => hid⟩
  refine ⟨fun h0 => ?_, hg⟩
  have hgood := hi h0
  have hrun := hrun h0
  refine ⟨fun h => ?_, fun h => hgood.nonempty (hid.symm.trans h), fun id' index bytes' h hb => ?_,
    fun id' bytes' h hb => ?_, hgood.grows (hg (p + 1) (Nat.succ_ne_self p))⟩
  · rw [hid, hrun] at h
    cases h
  · rw [hid] at h
    obtain rfl : id = id' := Option.some.inj (hrun.symm.trans h)
    by_cases hn : name = .memberKey index
    · subst hn
      rw [put_self] at hb
      exact Option.some.inj hb ▸ hkey h0 index rfl
    · rw [put_ne (Ne.symm hn)] at hb
      exact hgood.keys _ _ _ h hb
  · rw [hid] at h
    obtain rfl : id = id' := Option.some.inj (hrun.symm.trans h)
    by_cases hn : name = .anchor
    · subst hn
      rw [put_self] at hb
      exact Option.some.inj hb ▸ hanchor h0 rfl
    · rw [put_ne (Ne.symm hn)] at hb
      exact hgood.anchor _ _ h hb

/-- There is no run. -/
def NoRun (w : World) : Prop := w.unread = 0 → w.files .runId = none

theorem NoRun.relies (h : NoRun w) (hr : Relies 0 w w') : NoRun w' :=
  fun h0 => (hr.mine rfl).trans (h (hr.before h0))

/-- Where there is no run, there is nothing to remove. -/
theorem step_remove (name : FileName) (hi : Inv D w) (hno : NoRun w) :
    Inv D (w.put name none) ∧ Guarantee 0 w (w.put name none) ∧ NoRun (w.put name none) := by
  have hsame : w.unread = 0 → w.put name none = w := by
    intro h0
    have hnone := (hi h0).idle (hno h0) name
    simp only [World.put, ← hnone, Function.update_eq_self]
  refine ⟨fun h0 => ?_, fun q hq => ⟨Nat.le_refl _, fun h0 id hid => ?_, fun h => absurd h hq⟩,
    fun h0 => ?_⟩
  · rw [hsame h0]
    exact hi h0
  · rw [hsame h0]
    exact hid
  · rw [hsame h0]
    exact hno h0

/-- A run begins. -/
theorem step_begin (id : Blob 32) (hi : Inv D w) (hno : NoRun w) :
    Inv D (w.put .runId (some id.1)) ∧ Guarantee 0 w (w.put .runId (some id.1)) ∧
      Run (w.put .runId (some id.1)) id.1 := by
  have hg : Guarantee 0 w (w.put .runId (some id.1)) := by
    refine fun q hq => ⟨Nat.le_refl _, fun h0 id' hid' => ?_, fun h => absurd h hq⟩
    rw [hno h0] at hid'
    cases hid'
  have hrun : Run (w.put .runId (some id.1)) id.1 := fun _ => put_self _ _
  refine ⟨fun h0 => ?_, hg, hrun⟩
  have hgood := hi h0
  have hnone : ∀ name, name ≠ .runId → (w.put .runId (some id.1)).files name = none :=
    fun name hn => (put_ne hn _).trans (hgood.idle (hno h0) name)
  refine ⟨fun h => ?_, fun h => ?_, fun id' index bytes _ hb => ?_, fun id' bytes _ hb => ?_,
    hgood.grows (hg 1 Nat.one_ne_zero)⟩
  · rw [put_self] at h
    cases h
  · rw [put_self] at h
    have hlen := id.2
    rw [Option.some.inj h] at hlen
    cases hlen
  · rw [hnone _ (by simp)] at hb
    cases hb
  · rw [hnone _ (by simp)] at hb
    cases hb

/-- A read fails. -/
theorem step_unread : Inv D { w with unread := w.unread + 1 } ∧
    Guarantee p w { w with unread := w.unread + 1 } :=
  ⟨fun h => absurd h (Nat.succ_ne_zero _), fun _ _ =>
    ⟨Nat.le_succ _, fun h => absurd h (Nat.succ_ne_zero _), fun _ => rfl⟩⟩

/-- A member creates its counter. -/
theorem step_counter (index : Nat) (pk : XmssPublicKey) (hi : Inv D w) :
    Inv D (w.setCounter index pk) ∧ Guarantee p w (w.setCounter index pk) := by
  have hg : Guarantee p w (w.setCounter index pk) :=
    fun q _ => ⟨Nat.le_refl _, fun _ _ h => h, fun _ => rfl⟩
  refine ⟨fun h0 => ?_, hg⟩
  have hgood := hi h0
  exact ⟨hgood.idle, hgood.nonempty, hgood.keys, hgood.anchor,
    hgood.grows (hg (p + 1) (Nat.succ_ne_self p))⟩

/-! ### Programs -/

theorem keeps_seq {m : BootProg α} {g : α → BootProg β} {Q : β → World → Prop} (hi : Inv D w)
    (h : machine.keeps (pact D) p m (fun a w' => Inv D w' → machine.keeps (pact D) p (g a) Q w') w) :
    machine.keeps (pact D) p (m >>= g) Q w := Machine.keeps_bind hi h

theorem keeps_return {a : α} {Q : α → World → Prop} (h : ∀ w', Relies p w w' → Q a w') :
    machine.keeps (pact D) p (pure a : BootProg α) Q w := Machine.keeps_ret fun w' hr _ => h w' hr

theorem keeps_ask {op : BootOp} {k : BootAns op → BootProg α} {Q : α → World → Prop}
    (h : ∀ w₁, Relies p w w₁ → Inv D w₁ → ∀ r w₂, exec p w₁ op r w₂ →
      Inv D w₂ ∧ Guarantee p w₁ w₂ ∧ machine.keeps (pact D) p (k r) Q w₂) :
    machine.keeps (pact D) p (ask op >>= k) Q w := Machine.keeps_call h

theorem keeps_reset (names : List FileName) (hno : NoRun w) :
    machine.keeps (pact D) 0 (reset names) (fun _ w' => NoRun w') w := by
  induction names generalizing w with
  | nil => exact keeps_return fun w' hr => hno.relies hr
  | cons name names ih =>
    refine keeps_ask fun w₁ hr₁ hi₁ _ w₂ hx => ?_
    have hno₁ := hno.relies hr₁
    rcases hx with rfl | rfl
    · exact ⟨hi₁, .refl, ih hno₁⟩
    · obtain ⟨hi₂, hg₂, hno₂⟩ := step_remove name hi₁ hno₁
      exact ⟨hi₂, hg₂, ih hno₂⟩

theorem keeps_newRun (hno : NoRun w) :
    machine.keeps (pact D) 0 newRun (Returns fun _ w' => ∃ id, Run w' id) w := by
  refine keeps_ask fun w₁ hr₁ hi₁ entries w₂ hx => ?_
  obtain rfl : w₂ = w₁ := hx
  refine ⟨hi₁, .refl, keeps_seq hi₁ (Machine.keeps_mono (keeps_reset entries (hno.relies hr₁)) ?_)⟩
  intro _ w₃ hno₃ hi₃
  refine keeps_ask fun w₄ hr₄ hi₄ id w₅ hx => ?_
  obtain rfl : w₅ = w₄ := hx
  refine ⟨hi₄, .refl, keeps_ask fun w₆ hr₆ hi₆ r w₇ hx => ?_⟩
  obtain ⟨hi', hg', hrun⟩ := step_begin id hi₆ ((hno₃.relies hr₄).relies hr₆)
  cases r with
  | ok u =>
    obtain rfl : w₇ = _ := hx
    exact ⟨hi', hg', keeps_return fun w' hr => ⟨id.1, hrun.relies hr⟩⟩
  | error e =>
    rcases hx with rfl | rfl
    · exact ⟨hi₆, .refl, keeps_return fun _ _ => trivial⟩
    · exact ⟨hi', hg', keeps_return fun _ _ => trivial⟩

/-- The keys that are collected are those of the run. `P` is what was known before. -/
theorem keeps_collectKeys (indices : List Nat) {P : Prop} (hP : w.unread = 0 → P) (hrun : Run w id) :
    machine.keeps (pact D) 0 (collectKeys indices) (Returns fun members w' => Run w' id ∧
      (w'.unread = 0 → P ∧ members = indices.map (keyOf D id))) w := by
  induction indices generalizing w P with
  | nil => exact keeps_return fun w' hr => ⟨hrun.relies hr, fun h0 => ⟨hP (hr.before h0), rfl⟩⟩
  | cons index rest ih =>
    refine keeps_ask fun w₁ hr₁ hi₁ r w₂ hx => ?_
    have hrun₁ := hrun.relies hr₁
    cases r with
    | none =>
      obtain rfl : w₂ = w₁ := hx
      exact ⟨hi₁, .refl, keeps_return fun _ _ => trivial⟩
    | some bytes =>
      obtain ⟨hbytes, -, rfl⟩ := hx
      refine ⟨hi₁, .refl, ?_⟩
      by_cases h32 : bytes.length = 32
      · simp only [dif_pos h32]
        have hkey : w₂.unread = 0 → P ∧ (⟨bytes, h32⟩ : XmssPublicKey) = keyOf D id index :=
          fun h0 => ⟨hP (hr₁.before h0), Subtype.ext ((hi₁ h0).keys _ _ _ (hrun₁ h0) hbytes)⟩
        refine keeps_seq hi₁ (Machine.keeps_mono (ih hkey hrun₁) ?_)
        intro r w₃ hpost hi₃
        cases r with
        | error e => exact keeps_return fun _ _ => hpost
        | ok members =>
          obtain ⟨hrun₃, hmembers⟩ := hpost
          refine keeps_return fun w' hr => ⟨hrun₃.relies hr, fun h0 => ?_⟩
          obtain ⟨⟨hp, hkey⟩, hmembers⟩ := hmembers (hr.before h0)
          refine ⟨hp, ?_⟩
          rw [hkey, hmembers]
          rfl
      · simp only [dif_neg h32]
        exact keeps_return fun _ _ => trivial

/-- A start ends as it may, unless a read failed. -/
def Ended (D : Deployment) (r : Except Panic Started) (w : World) : Prop :=
  w.unread = 0 → Returns (fun s w => Fine D w s) r w

theorem keeps_assemble (hi : Inv D w) (hrun : Run w id) :
    machine.keeps (pact D) 0 (assemble D) (Ended D) w := by
  refine keeps_seq hi (Machine.keeps_mono (keeps_collectKeys _ (fun _ => trivial) hrun) ?_)
  intro r w₁ hpost hi₁
  cases r with
  | error e => exact keeps_return fun _ _ _ => hpost
  | ok members =>
    obtain ⟨hrun₁, hmembers⟩ := hpost
    cases hnew : Committee.new D.hashes members threshold Demo.Params.slot with
    | error text =>
      simp only [hnew]
      exact keeps_return fun _ _ _ => trivial
    | ok committee =>
      simp only [hnew]
      have hmakes : w₁.unread = 0 → Makes D id committee := by
        intro h0
        rw [(hmembers h0).2] at hnew
        exact hnew
      refine keeps_ask fun w₂ hr₂ hi₂ r w₃ hx => ?_
      obtain ⟨hi', hg'⟩ := step_put (p := 0) .anchor committee.toBytes hi₂
        (hrun₁.relies hr₂) (by simp) (fun _ index h => by cases h)
        fun h0 _ => ⟨committee, hmakes (hr₂.before h0), rfl⟩
      cases r with
      | ok u =>
        obtain rfl : w₃ = _ := hx
        exact ⟨hi', hg', keeps_return fun _ _ _ => trivial⟩
      | error e =>
        rcases hx with rfl | rfl
        · exact ⟨hi₂, .refl, keeps_return fun _ _ _ => trivial⟩
        · exact ⟨hi', hg', keeps_return fun _ _ _ => trivial⟩

/-- A run is resumed, or there is none and one begins. -/
theorem step_read {r : Option Bytes} (hi : Inv D w) (hx : exec 0 w (.read .runId) r w') :
    Inv D w' ∧ Guarantee 0 w w' ∧ (r.getD [] = [] → NoRun w') ∧
      (r.getD [] ≠ [] → ∃ id, Run w' id) := by
  cases r with
  | none =>
    cases hfile : w.files .runId with
    | none =>
      obtain rfl : w' = w := by
        simp only [exec, hfile] at hx
        exact hx
      exact ⟨hi, .refl, fun _ _ => hfile, fun h => absurd rfl h⟩
    | some id =>
      obtain rfl : w' = { w with unread := w.unread + 1 } := by
        simp only [exec, hfile] at hx
        exact hx
      obtain ⟨hi', hg'⟩ := step_unread (D := D) (p := 0) (w := w)
      exact ⟨hi', hg', fun _ h => absurd h (Nat.succ_ne_zero _), fun h => absurd rfl h⟩
  | some id =>
    obtain ⟨hfile, rfl⟩ := hx
    refine ⟨hi, .refl, fun h h0 => ?_, fun _ => ⟨id, fun _ => hfile⟩⟩
    obtain rfl : id = [] := h
    exact absurd hfile (hi h0).nonempty

theorem keeps_bootstrap : machine.keeps (pact D) 0 (bootstrap D) (Ended D) w := by
  refine keeps_ask fun w₁ hr₁ hi₁ r w₂ hx => ?_
  obtain ⟨hi₂, hg₂, hno, hrun⟩ := step_read hi₁ hx
  refine ⟨hi₂, hg₂, ?_⟩
  by_cases hnone : r.getD [] = []
  · simp only [if_pos hnone]
    refine keeps_seq hi₂ (Machine.keeps_mono (keeps_newRun (hno hnone)) ?_)
    intro r w₃ hpost hi₃
    cases r with
    | error e => exact keeps_return fun _ _ _ => hpost
    | ok u =>
      obtain ⟨id, hrun⟩ := hpost
      exact keeps_assemble hi₃ hrun
  · simp only [if_neg hnone]
    obtain ⟨id, hrun⟩ := hrun hnone
    exact keeps_assemble hi₂ hrun

/-- An anchor is the committee of a run. -/
theorem Good.run_of_anchor (hgood : Good D w) {bytes : Bytes} (h : w.files .anchor = some bytes) :
    ∃ id c, w.files .runId = some id ∧ Makes D id c ∧ bytes = c.toBytes := by
  cases hid : w.files .runId with
  | none =>
    rw [hgood.idle hid] at h
    cases h
  | some id =>
    obtain ⟨c, hc⟩ := hgood.anchor _ _ hid h
    exact ⟨id, c, rfl, hc⟩

/-- `K` is what was known before. -/
theorem keeps_waitForCommittee {K : World → Prop} (hK : ∀ {w w'}, K w → Relies p w w' → K w')
    (hk : K w) : machine.keeps (pact D) p (waitForCommittee D) (Returns fun c w' => K w' ∧
      (w'.unread = 0 → ∃ id, Run w' id ∧ Makes D id c)) w := by
  refine keeps_ask fun w₁ hr₁ hi₁ r w₂ hx => ?_
  have hk₁ := hK hk hr₁
  cases r with
  | none =>
    obtain rfl : w₂ = w₁ := hx
    exact ⟨hi₁, .refl, keeps_return fun _ _ => trivial⟩
  | some bytes =>
    obtain ⟨hbytes, -, rfl⟩ := hx
    refine ⟨hi₁, .refl, ?_⟩
    cases hc : Committee.fromBytes D.hashes bytes with
    | error text =>
      simp only [hc]
      exact keeps_return fun _ _ => trivial
    | ok committee =>
      simp only [hc]
      refine keeps_return fun w' hr => ⟨hK hk₁ hr, fun h0 => ?_⟩
      obtain ⟨id, c, hid, hmakes, rfl⟩ := (hi₁ (hr.before h0)).run_of_anchor hbytes
      rw [Committee.fromBytes_toBytes (Committee.new_wellFormed hmakes)] at hc
      cases hc
      exact ⟨id, fun h0 => hr.run h0 id hid, hmakes⟩

theorem keeps_holder (hi : Inv D w) : machine.keeps (pact D) p (holder D) (Ended D) w := by
  refine keeps_seq hi (Machine.keeps_mono
    (keeps_waitForCommittee (K := fun _ => True) (fun _ _ => trivial) trivial) ?_)
  intro r w₁ hpost _
  cases r with
  | error e => exact keeps_return fun _ _ _ => hpost
  | ok c =>
    refine keeps_return fun w' hr h0 => ?_
    obtain ⟨id, hrun, hc⟩ := hpost.2 (hr.before h0)
    exact ⟨id, hrun.relies hr, hc⟩

theorem keeps_publishKey {index : Nat} (hrun : Run w id) :
    machine.keeps (pact D) p (publishKey index (keyOf D id index))
      (Returns fun _ w' => Run w' id) w := by
  refine keeps_ask fun w₁ hr₁ hi₁ r w₂ hx => ?_
  have hrun₁ := hrun.relies hr₁
  cases r with
  | true =>
    obtain ⟨-, rfl⟩ := hx
    exact ⟨hi₁, .refl, keeps_return fun w' hr => hrun₁.relies hr⟩
  | false =>
    obtain rfl : w₂ = w₁ := hx
    refine ⟨hi₁, .refl, keeps_ask fun w₃ hr₃ hi₃ r w₄ hx => ?_⟩
    have hrun₃ := hrun₁.relies hr₃
    obtain ⟨hi', hg'⟩ := step_put (p := p) (.memberKey index) (keyOf D id index).1 hi₃ hrun₃ (by simp)
      (fun _ i h => by cases h; rfl) fun _ h => by cases h
    cases r with
    | ok u =>
      obtain rfl : w₄ = _ := hx
      have hput : Run (w₃.put (.memberKey index) (some (keyOf D id index).1)) id :=
        fun h0 => (put_ne (by simp) _).trans (hrun₃ h0)
      exact ⟨hi', hg', keeps_return fun w' hr => hput.relies hr⟩
    | error e =>
      rcases hx with rfl | rfl
      · exact ⟨hi₃, .refl, keeps_return fun _ _ => trivial⟩
      · exact ⟨hi', hg', keeps_return fun _ _ => trivial⟩

/-- The committee of a run names every member. -/
theorem Makes.indexOf {c : Committee} (h : Makes D id c) {index : Nat} (hlt : index < nMembers) :
    c.indexOf (keyOf D id index) = some index := by
  obtain ⟨-, -, hnodup, rfl⟩ := Committee.new_ok.mp h
  refine (Committee.indexOf_eq_some hnodup).mpr ?_
  simp [keysOf, hlt]

theorem keeps_member (index : Nat) :
    machine.keeps (pact D) p (member D index) (Ended D) w := by
  unfold member
  by_cases hlt : nMembers ≤ index
  · rw [if_pos hlt]
    exact keeps_return fun _ _ _ => trivial
  · rw [if_neg hlt]
    have hlt := Nat.lt_of_not_le hlt
    refine keeps_ask fun w₁ hr₁ hi₁ r w₂ hx => ?_
    cases r with
    | none =>
      obtain rfl : w₂ = w₁ := hx
      exact ⟨hi₁, .refl, keeps_return fun _ _ _ => trivial⟩
    | some id =>
      obtain ⟨hid, -, rfl⟩ := hx
      refine ⟨hi₁, .refl, keeps_seq hi₁ (Machine.keeps_mono (keeps_publishKey fun _ => hid) ?_)⟩
      intro r w₃ hrun₃ hi₃
      cases r with
      | error e => exact keeps_return fun _ _ _ => hrun₃
      | ok u =>
        refine keeps_ask fun w₄ hr₄ hi₄ r w₅ hx => ?_
        obtain ⟨hi₅, hg₅⟩ := step_counter (p := p) index (keyOf D id index) hi₄
        cases r with
        | false =>
          rcases hx with rfl | ⟨-, rfl⟩
          · exact ⟨hi₄, .refl, keeps_return fun _ _ _ => trivial⟩
          · exact ⟨hi₅, hg₅, keeps_return fun _ _ _ => trivial⟩
        | true =>
          obtain ⟨-, rfl⟩ := hx
          have hrun₄ : Run w₄ id := Run.relies hrun₃ hr₄
          have hrun₅ : Run (w₄.setCounter index (keyOf D id index)) id := hrun₄
          refine ⟨hi₅, hg₅, keeps_seq hi₅ (Machine.keeps_mono
            (keeps_waitForCommittee (K := (Run · id)) (fun h hr => h.relies hr) hrun₅) ?_)⟩
          intro r w₆ hpost _
          cases r with
          | error e => exact keeps_return fun _ _ _ => hpost
          | ok c =>
            obtain ⟨hrun₆, hmakes⟩ := hpost
            have hc : w₆.unread = 0 → Makes D id c := by
              intro h0
              obtain ⟨id', hrun', hc⟩ := hmakes h0
              rwa [hrun₆.unique hrun' h0]
            by_cases hnamed : c.indexOf (keyOf D id index) = some index
            · simp only [if_pos hnamed]
              exact keeps_return fun w' hr h0 => ⟨hrun₆.relies hr, hc (hr.before h0), hnamed⟩
            · simp only [if_neg hnamed]
              exact keeps_return fun w' hr h0 => absurd ((hc (hr.before h0)).indexOf hlt) hnamed

theorem keeps_start : machine.keeps (pact D) p (start D) (Ended D) w := by
  refine keeps_ask fun w₁ hr₁ hi₁ r w₂ hx => ?_
  obtain ⟨rfl, rfl⟩ := hx
  refine ⟨hi₁, .refl, ?_⟩
  cases p with
  | zero => exact keeps_bootstrap
  | succ p =>
    cases p with
    | zero => exact keeps_holder hi₁
    | succ index => exact keeps_member index

/-- The end of a start is noted. -/
theorem step_ended {r : Except Panic Started} (hi : Inv D w) (hr : Ended D r w) :
    (pact D).Ends machine (api D) p () (none, r) w := by
  have hg : Guarantee p w { w with ended := w.ended ++ [r] } :=
    fun q _ => ⟨Nat.le_refl _, fun _ _ h => h, fun _ => rfl⟩
  refine ⟨fun h0 => ?_, hg⟩
  obtain ⟨hidle, hne, hkeys, hanchor, hended⟩ := hi h0
  refine ⟨hidle, hne, hkeys, hanchor, fun r' hr' => ?_⟩
  rcases List.mem_append.mp hr' with hr' | hr'
  · exact (hended r' hr').relies fun _ h => h.relies (hg (p + 1) (Nat.succ_ne_self p))
  · rw [List.mem_singleton.mp hr']
    exact (hr h0).relies fun _ h => h.relies (hg (p + 1) (Nat.succ_ne_self p))

theorem honoured : Honoured (pact D) machine (api D) := by
  refine ⟨fun p o c m w hm hi => ?_, fun p w hi => ⟨hi, .refl⟩, fun _ _ h => h⟩
  cases hm
  refine Machine.keeps_bind hi (Machine.keeps_mono keeps_start ?_)
  intro r w₁ hr hi₁
  refine Machine.keeps_ret fun w₂ hr₂ hi₂ => step_ended hi₂ fun h0 => ?_
  exact (hr (hr₂.before h0)).relies fun _ h => h.relies hr₂

theorem inv_start : Inv D World.empty := by
  refine fun _ => ⟨fun _ _ => rfl, fun h => ?_, fun _ _ _ h => ?_, fun _ _ h => ?_, fun r hr => ?_⟩
  · cases h
  · cases h
  · cases h
  · cases hr

theorem reachable_inv {s : BootSys} (hr : (deployment D).Reachable s) : Inv D s.world := by
  refine (Pact.reachable honoured (fun w hw => ?_) hr).1
  rw [hw]
  exact inv_start

/-! ## Runs -/

theorem update_idle : Function.update (fun _ => .idle) p .idle =
    fun _ => (.idle : Proc BootOp BootAns Empty Unit (Except Panic Started)) :=
  Function.update_eq_self p _

theorem step_kill {procs : Nat → Proc BootOp BootAns Empty Unit (Except Panic Started)} :
    (deployment D).step ⟨w, procs⟩ (.kill p) ⟨w, Function.update procs p .idle⟩ :=
  Machine.Step.kill (s := ⟨w, procs⟩)

/-- A container runs alone, and is killed. -/
theorem reachable_killed {m : BootProg (Except Panic Started)}
    (h : machine.Runs (fun _ _ => True) p (start D) w m w')
    (hr : (deployment D).Reachable ⟨w, fun _ => .idle⟩) :
    (deployment D).Reachable ⟨w', fun _ => .idle⟩ := by
  have h0 : ((deployment D).guard fun _ _ => True).Reachable ⟨w, fun _ => .idle⟩ :=
    hr.to_guard fun _ _ => trivial
  have hbusy := Machine.reachable_busy (A := api D) (c := ()) (p := p) rfl rfl trivial h0
  have hrun : (deployment D).Reachable ⟨w', Function.update (fun _ => .idle) p (.busy () _)⟩ :=
    (Machine.reachable_runs_among (h.bind _) (fun _ _ _ _ => trivial) hbusy).of_guard
  have hkill := LTS.Reachable.step (.kill p) hrun step_kill
  rw [Function.update_idem, update_idle] at hkill
  exact hkill

/-- A container runs alone, up to its end. -/
theorem reachable_ended {r : Except Panic Started}
    (h : machine.Runs (fun _ _ => True) p (start D) w (.ret r) w')
    (hr : (deployment D).Reachable ⟨w, fun _ => .idle⟩) :
    (deployment D).Reachable ⟨{ w' with ended := w'.ended ++ [r] }, fun _ => .idle⟩ := by
  have h0 : ((deployment D).guard fun _ _ => True).Reachable ⟨w, fun _ => .idle⟩ :=
    hr.to_guard fun _ _ => trivial
  have hend := (Machine.reachable_call_among (A := api D) (c := ()) (h.bind _) rfl rfl
    (fun _ _ _ _ => trivial) trivial trivial h0).of_guard
  rw [show Proc.ofResult none = Proc.idle from rfl, update_idle] at hend
  exact hend

theorem runs_reset (names : List FileName) (w : World) : ∃ w',
    machine.Runs (fun _ _ => True) p (reset names) w (.ret ()) w' ∧ w'.unread = w.unread ∧
    w'.ended = w.ended ∧ w'.counters = w.counters := by
  induction names generalizing w with
  | nil => exact ⟨w, .refl, rfl, rfl, rfl⟩
  | cons name names ih =>
    obtain ⟨w', hruns, hrest⟩ := ih (w.put name none)
    exact ⟨w', .step () trivial (.inr rfl) hruns, hrest⟩

/-- Container 0 begins a run. If there is one, it could not be read. -/
theorem begins (hr : (deployment D).Reachable ⟨w, fun _ => .idle⟩) (id : Blob 32) : ∃ w',
    (deployment D).Reachable ⟨w', fun _ => .idle⟩ ∧ w'.files .runId = some id.1 ∧
    w'.ended = w.ended ∧ w'.counters = w.counters ∧
    w'.unread = w.unread + if (w.files .runId).isSome then 1 else 0 := by
  obtain ⟨w₁, hreset, hunread, hended, hcounters⟩ := runs_reset (p := 0)
    (.anchor :: (List.range nMembers).map .memberKey)
    { w with unread := w.unread + if (w.files .runId).isSome then 1 else 0 }
  have hnew : machine.Runs (fun _ _ => True) 0 newRun
      { w with unread := w.unread + if (w.files .runId).isSome then 1 else 0 } (.ret (.ok ()))
      (w₁.put .runId (some id.1)) := by
    refine .step (.anchor :: (List.range nMembers).map .memberKey) trivial rfl ?_
    refine (hreset.bind _).trans ?_
    exact .step id trivial rfl (.step (Except.ok ()) trivial rfl .refl)
  exact ⟨w₁.put .runId (some id.1), reachable_killed (p := 0) (.step .bootstrap trivial ⟨rfl, rfl⟩
    (.step none trivial rfl (hnew.bind _))) hr, put_self _ _, hended, hcounters, hunread⟩

/-- Member `index` publishes its key. -/
theorem publishes (hr : (deployment D).Reachable ⟨w, fun _ => .idle⟩) (hid : w.files .runId = some id)
    (hne : id ≠ []) {index : Nat} (hlt : index < nMembers) : (deployment D).Reachable
      ⟨w.put (.memberKey index) (some (keyOf D id index).1), fun _ => .idle⟩ := by
  have hpublish : machine.Runs (fun _ _ => True) (index + 2) (publishKey index (keyOf D id index)) w
      (.ret (.ok ())) (w.put (.memberKey index) (some (keyOf D id index).1)) :=
    .step false trivial rfl (.step (.ok ()) trivial rfl .refl)
  have hmember : ∃ m, machine.Runs (fun _ _ => True) (index + 2) (member D index) w m
      (w.put (.memberKey index) (some (keyOf D id index).1)) := by
    unfold member
    rw [if_neg (Nat.not_le.mpr hlt)]
    exact ⟨_, .step (some id) trivial ⟨hid, hne, rfl⟩ (hpublish.bind _)⟩
  obtain ⟨m, hmember⟩ := hmember
  exact reachable_killed (.step (.member index) trivial ⟨rfl, rfl⟩ hmember) hr

/-- The members publish their keys, one after the other. -/
theorem all_publish (hr : (deployment D).Reachable ⟨w, fun _ => .idle⟩)
    (hid : w.files .runId = some id) (hne : id ≠ []) (n : Nat) (hn : n ≤ nMembers) : ∃ w',
    (deployment D).Reachable ⟨w', fun _ => .idle⟩ ∧ w'.files .runId = some id ∧
    (∀ index < n, w'.files (.memberKey index) = some (keyOf D id index).1) ∧
    w'.ended = w.ended ∧ w'.counters = w.counters ∧ w'.unread = w.unread := by
  induction n with
  | zero => exact ⟨w, hr, hid, fun index h => absurd h (Nat.not_lt_zero _), rfl, rfl, rfl⟩
  | succ n ih =>
    obtain ⟨w', hr', hid', hkeys, hrest⟩ := ih (Nat.le_of_succ_le hn)
    refine ⟨_, publishes hr' hid' hne hn, (put_ne (by simp) _).trans hid', fun index hlt => ?_, hrest⟩
    by_cases hi : index = n
    · subst hi
      exact put_self _ _
    · rw [put_ne (by simp [hi])]
      exact hkeys index (Nat.lt_of_le_of_ne (Nat.le_of_lt_succ hlt) hi)

theorem runs_collectKeys (indices : List Nat)
    (hkeys : ∀ index ∈ indices, w.files (.memberKey index) = some (keyOf D id index).1) :
    machine.Runs (fun _ _ => True) p (collectKeys indices) w
      (.ret (.ok (indices.map (keyOf D id)))) w := by
  induction indices with
  | nil => exact .refl
  | cons index rest ih =>
    have hfile := hkeys index List.mem_cons_self
    have h32 := (keyOf D id index).2
    have hne : (keyOf D id index).1 ≠ [] := by
      intro h
      rw [h] at h32
      cases h32
    refine .step (some (keyOf D id index).1) trivial ⟨hfile, hne, rfl⟩ ?_
    show machine.Runs _ _ (if h : (keyOf D id index).1.length = 32 then _ else _) _ _ _
    rw [dif_pos h32]
    exact ((ih fun i hi => hkeys i (List.mem_cons_of_mem _ hi)).bind _).trans .refl

/-- Container 0, started again, assembles the anchor. -/
theorem assembles (hr : (deployment D).Reachable ⟨w, fun _ => .idle⟩)
    (hid : w.files .runId = some id) (hne : id ≠ [])
    (hkeys : ∀ index < nMembers, w.files (.memberKey index) = some (keyOf D id index).1)
    {c : Committee} (hc : Makes D id c) :
    (deployment D).Reachable ⟨w.put .anchor (some c.toBytes), fun _ => .idle⟩ := by
  have hcollect := runs_collectKeys (p := 0) (List.range nMembers)
    fun index h => hkeys index (List.mem_range.mp h)
  have hassemble : machine.Runs (fun _ _ => True) 0 (assemble D) w (.ret (.ok .bootstrap))
      (w.put .anchor (some c.toBytes)) := by
    refine (hcollect.bind _).trans ?_
    have hnew : Committee.new D.hashes ((List.range nMembers).map (keyOf D id)) threshold
        Demo.Params.slot = .ok c := hc
    simp only [Prog.bind, hnew]
    exact .step (Except.ok ()) trivial rfl .refl
  have hboot : machine.Runs (fun _ _ => True) 0 (bootstrap D) w (.ret (.ok .bootstrap))
      (w.put .anchor (some c.toBytes)) := by
    refine .step (some id) trivial ⟨hid, rfl⟩ ?_
    show machine.Runs _ _ (if id = [] then _ else _) _ _ _
    rw [if_neg hne]
    exact hassemble
  exact reachable_killed (.step .bootstrap trivial ⟨rfl, rfl⟩ hboot) hr

theorem runs_waitForCommittee {c : Committee} (hc : Makes D id c)
    (hanchor : w.files .anchor = some c.toBytes) :
    machine.Runs (fun _ _ => True) p (waitForCommittee D) w (.ret (.ok c)) w := by
  have hread := Committee.fromBytes_toBytes (Committee.new_wellFormed hc)
  refine .step (some c.toBytes) trivial ⟨hanchor, ?_, rfl⟩ ?_
  · refine List.ne_nil_of_length_pos ?_
    rw [Committee.toBytes, length_encodeWire]
    exact Nat.add_pos_left (by decide) _
  · simp only [Prog.bind, hread]
    exact .refl

/-- The holder starts. -/
theorem holds (hr : (deployment D).Reachable ⟨w, fun _ => .idle⟩) {c : Committee}
    (hc : Makes D id c) (hanchor : w.files .anchor = some c.toBytes) : (deployment D).Reachable
      ⟨{ w with ended := w.ended ++ [.ok (.holder c)] }, fun _ => .idle⟩ := by
  have hwait := runs_waitForCommittee (p := 1) hc hanchor
  exact reachable_ended (.step .holder trivial ⟨rfl, rfl⟩ ((hwait.bind _).trans .refl)) hr

/-- Member `index`, started again, starts. -/
theorem starts (hr : (deployment D).Reachable ⟨w, fun _ => .idle⟩)
    (hid : w.files .runId = some id) (hne : id ≠ []) {index : Nat} (hlt : index < nMembers)
    (hkey : w.files (.memberKey index) = some (keyOf D id index).1)
    (hcounter : w.counters index = none) {c : Committee}
    (hc : Makes D id c) (hanchor : w.files .anchor = some c.toBytes) : (deployment D).Reachable
      ⟨{ w.setCounter index (keyOf D id index) with
        ended := w.ended ++ [.ok (.member index id c)] }, fun _ => .idle⟩ := by
  have hwait := runs_waitForCommittee (w := w.setCounter index (keyOf D id index)) (p := index + 2)
    hc hanchor
  have hpublish : machine.Runs (fun _ _ => True) (index + 2) (publishKey index (keyOf D id index)) w
      (.ret (.ok ())) w := .step true trivial ⟨by rw [hkey]; rfl, rfl⟩ .refl
  have hmember : machine.Runs (fun _ _ => True) (index + 2) (member D index) w
      (.ret (.ok (.member index id c))) (w.setCounter index (keyOf D id index)) := by
    unfold member
    rw [if_neg (Nat.not_le.mpr hlt)]
    refine .step (some id) trivial ⟨hid, hne, rfl⟩ ((hpublish.bind _).trans ?_)
    refine .step true trivial ⟨.inl hcounter, rfl⟩ ((hwait.bind _).trans ?_)
    show machine.Runs _ _ (if c.indexOf (keyOf D id index) = some index then _ else _) _ _ _
    rw [if_pos (hc.indexOf hlt)]
    exact .refl
  exact reachable_ended (.step (.member index) trivial ⟨rfl, rfl⟩ hmember) hr

/-- A run up to its anchor. -/
structure Made (D : Deployment) (w : World) (id : Bytes) (c : Committee) : Prop where
  reachable : (deployment D).Reachable ⟨w, fun _ => .idle⟩
  runId : w.files .runId = some id
  keys : ∀ index < nMembers, w.files (.memberKey index) = some (keyOf D id index).1
  anchor : w.files .anchor = some c.toBytes

/-- From wherever nothing runs, a run can begin and its anchor be made. -/
theorem can_make (hr : (deployment D).Reachable ⟨w, fun _ => .idle⟩) (id : Blob 32) {c : Committee}
    (hc : Makes D id.1 c) : ∃ w', Made D w' id.1 c ∧ w'.ended = w.ended ∧
    w'.counters = w.counters ∧
    w'.unread = w.unread + if (w.files .runId).isSome then 1 else 0 := by
  have hne : id.1 ≠ [] := List.ne_nil_of_length_pos (by rw [id.2]; decide)
  obtain ⟨w₁, hr₁, hid₁, hended₁, hcounters₁, hunread₁⟩ := begins hr id
  obtain ⟨w₂, hr₂, hid₂, hkeys₂, hended₂, hcounters₂, hunread₂⟩ :=
    all_publish hr₁ hid₁ hne nMembers (Nat.le_refl _)
  refine ⟨w₂.put .anchor (some c.toBytes), ⟨assembles hr₂ hid₂ hne hkeys₂ hc,
    (put_ne (by simp) _).trans hid₂, fun index hlt => (put_ne (by simp) _).trans (hkeys₂ index hlt),
    put_self _ _⟩, hended₂.trans hended₁, hcounters₂.trans hcounters₁, hunread₂.trans hunread₁⟩

theorem Made.starts {id : Blob 32} {c : Committee} (h : Made D w id.1 c) (hc : Makes D id.1 c)
    (index : Nat) (hlt : index < nMembers) (hcounter : w.counters index = none) :
    (deployment D).Reachable ⟨{ w.setCounter index (keyOf D id.1 index) with
      ended := w.ended ++ [.ok (.member index id.1 c)] }, fun _ => .idle⟩ :=
  Bootstrap.starts h.reachable h.runId (List.ne_nil_of_length_pos (by rw [id.2]; decide)) hlt
    (h.keys index hlt) hcounter hc h.anchor

end

/-! ## What a deployment is -/

/-- The container serves, or verifies, under `c`. -/
def Serves (w : World) (c : Committee) : Prop :=
  .ok (.holder c) ∈ w.ended ∨ ∃ index id, .ok (.member index id c) ∈ w.ended

/-- There is one committee. -/
structure Agreed (D : Deployment) (w : World) : Prop where
  made : ∀ c, Serves w c → ∃ id, w.files .runId = some id ∧ Makes D id c
  setup : ∀ c, Serves w c → ∀ mode xmssVerify signWindow, ∃ S : Demo.Setup D.hashes,
    S.committee = c ∧ S.mode = mode ∧ S.xmssVerify = xmssVerify ∧ S.signWindow = signWindow
  one : ∀ c c', Serves w c → Serves w c' → c = c'
  run : ∀ index id c, .ok (.member index id c) ∈ w.ended → w.files .runId = some id ∧
    c.indexOf (keyOf D id index) = some index
  named : ∀ index, .error (.notNamed index) ∉ w.ended
  anchor : ∀ bytes, w.files .anchor = some bytes → ∃ id c, w.files .runId = some id ∧ Makes D id c ∧
    Committee.fromBytes D.hashes bytes = .ok c

section
variable {D : Deployment} {w : World}

theorem Good.made (hgood : Good D w) (h0 : w.unread = 0) {c : Committee} (hs : Serves w c) :
    ∃ id, w.files .runId = some id ∧ Makes D id c := by
  rcases hs with hs | ⟨index, id, hs⟩
  · obtain ⟨id, hid, hc⟩ := hgood.ended _ hs
    exact ⟨id, hid h0, hc⟩
  · obtain ⟨hid, hc, -⟩ := hgood.ended _ hs
    exact ⟨id, hid h0, hc⟩

theorem Good.agreed (hgood : Good D w) (h0 : w.unread = 0) : Agreed D w := by
  refine ⟨fun c hs => hgood.made h0 hs, fun c hs mode xmssVerify signWindow => ?_,
    fun c c' hs hs' => ?_, fun index id c hmem => ?_,
    fun index hmem => hgood.ended _ hmem, fun bytes hb => ?_⟩
  · obtain ⟨id, -, hc⟩ := hgood.made h0 hs
    exact ⟨⟨mode, keysOf D id, length_keysOf D id, c, hc, xmssVerify, signWindow⟩, rfl, rfl, rfl, rfl⟩
  · obtain ⟨id, hid, hc⟩ := hgood.made h0 hs
    obtain ⟨id', hid', hc'⟩ := hgood.made h0 hs'
    obtain rfl : id = id' := Option.some.inj (hid.symm.trans hid')
    exact Except.ok.inj (hc.symm.trans hc')
  · obtain ⟨hid, -, hnamed⟩ := hgood.ended _ hmem
    exact ⟨hid h0, hnamed⟩
  · obtain ⟨id, c, hid, hc, rfl⟩ := hgood.run_of_anchor hb
    exact ⟨id, c, hid, hc, Committee.fromBytes_toBytes (Committee.new_wellFormed hc)⟩

end

/-- A hash that keeps the last bytes. -/
def lastBytes (bytes : Bytes) : Blob 32 :=
  ⟨(bytes.reverse ++ List.replicate 32 0).take 32, by simp⟩

def demoDeployment : Deployment := ⟨⟨lastBytes, lastBytes⟩, fun seed => seed, fun _ => []⟩

def demoRun (b : UInt8) : Blob 32 := ⟨List.replicate 32 b, List.length_replicate⟩

theorem makes_demo (b : UInt8) (h : (keysOf demoDeployment (demoRun b).1).Nodup) :
    ∃ c, Makes demoDeployment (demoRun b).1 c ∧ c.members = keysOf demoDeployment (demoRun b).1 := by
  refine ⟨_, Committee.new_ok.mpr ⟨?_, ?_, h, rfl⟩, rfl⟩
  · rw [length_keysOf]
    decide
  · rw [length_keysOf]
    decide

/-- The committee is agreed. In every reachable state in which no read of the run
identifier failed while it was there, whatever the order in which the containers start,
time out, fail to write, are killed and are started again: all members and holders that
ever started have one committee, the one of the ten keys of the run identifier that is
published, in the order of their indices, and they are the demo's `Setup`; every member
started under that identifier and is named at its index; none ever found that the anchor
does not name it; and the anchor that is published reads back as that committee. -/
theorem started_agree (D : Deployment) (s : BootSys) (hr : (deployment D).Reachable s)
    (h0 : s.world.unread = 0) : Agreed D s.world := (reachable_inv hr h0).agreed h0

theorem started_agree_first : ∃ (w : World) (c : Committee), Agreed demoDeployment w ∧
    w.ended = [.ok (.member 0 (demoRun 7).1 c)] := by
  obtain ⟨c, hc, -⟩ := makes_demo 7 (by decide)
  obtain ⟨w, hmade, hended, hcounters, hunread⟩ :=
    can_make (D := demoDeployment) (.init ⟨rfl, rfl⟩) (demoRun 7) hc
  have hr := hmade.starts hc 0 (by decide) (by rw [hcounters])
  exact ⟨_, c, started_agree demoDeployment _ hr hunread, by rw [hended]; rfl⟩

/-- One failed read starts a new run beside the old one. For any two identifiers whose
keys make a committee, there is a run in which one read of the identifier fails, the
holder has started under the first and is not started again, and a member starts under
the second. The members of the first run are killed before they create their counters:
a counter of the first key would not be opened under the second. -/
theorem failed_read_new_run (D : Deployment) (id id' : Blob 32) (c c' : Committee)
    (hc : Makes D id.1 c) (hc' : Makes D id'.1 c') : ∃ s : BootSys, (deployment D).Reachable s ∧
    s.world.unread = 1 ∧ s.world.ended = [.ok (.holder c), .ok (.member 0 id'.1 c')] := by
  obtain ⟨w, hmade, hended, hcounters, hunread⟩ := can_make (D := D) (.init ⟨rfl, rfl⟩) id hc
  have hr := holds hmade.reachable hc hmade.anchor
  obtain ⟨w', hmade', hended', hcounters', hunread'⟩ := can_make hr id' hc'
  have hcounter : w'.counters 0 = none := by
    rw [hcounters']
    show w.counters 0 = none
    rw [hcounters]
  refine ⟨_, hmade'.starts hc' 0 (by decide) hcounter, ?_, ?_⟩
  · show w'.unread = 1
    rw [hunread']
    show w.unread + (if (w.files .runId).isSome then 1 else 0) = 1
    rw [hunread, hmade.runId]
    rfl
  · show w'.ended ++ _ = _
    rw [hended']
    show (w.ended ++ _) ++ _ = _
    rw [hended]
    rfl

theorem failed_read_new_run_demo : ∃ (w : World) (c c' : Committee), w.unread = 1 ∧ Serves w c ∧
    Serves w c' ∧ c ≠ c' := by
  obtain ⟨c, hc, hmembers⟩ := makes_demo 7 (by decide)
  obtain ⟨c', hc', hmembers'⟩ := makes_demo 8 (by decide)
  obtain ⟨s, -, hunread, hended⟩ :=
    failed_read_new_run demoDeployment (demoRun 7) (demoRun 8) c c' hc hc'
  refine ⟨s.world, c, c', hunread, .inl ?_, .inr ⟨0, (demoRun 8).1, ?_⟩, fun h => ?_⟩
  · rw [hended]
    exact List.mem_cons_self
  · rw [hended]
    exact List.mem_cons_of_mem _ List.mem_cons_self
  · rw [h, hmembers'] at hmembers
    exact absurd hmembers (by decide)

end Drot.L5.Bootstrap
