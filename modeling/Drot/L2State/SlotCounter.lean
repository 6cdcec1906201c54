import Drot.Core.Replace
import Drot.Core.Text
import Drot.L1Encoding.Message
import Drot.L1Encoding.SlotRecord

/-!
# `AtomicSlotCounter` and `SignerNode` (`state/slot_counter.rs`, `node/signer.rs`)

The counter's operations as programs over storage: every file operation is one
effect, so a kill can come between any two of them and each can fail. The
lock file is the machine's lock; it is taken by `acquireLock` and released
when the counter is dropped, when a constructor fails or when the process
dies. `leanvm::xmss::sign` is an external call that leaves storage alone.

`counterApi` is what a process can do with one state path and one key: build a
counter with `create` or `open_`, use it through `reserve`, `reserveAt`,
`sign` and `signAt`, drop it and start again.
-/
namespace Drot.L2.SlotCounter
open Bytes Text L1.SlotRecord
open L1.Message (XmssPublicKey XmssSignature)

/-- A path is a directory and a file name. -/
structure Path where
  parent : String
  fileName : String
  deriving DecidableEq, Repr

def Path.display (path : Path) : String := path.parent ++ "/" ++ path.fileName

/-- mirrors src/src/state/slot_counter.rs:19-24 -/
def sibling (path : Path) (suffix : String) : Path :=
  { path with fileName := path.fileName ++ "." ++ suffix }

theorem sibling_ne (path : Path) (suffix : String) : sibling path suffix ≠ path := by
  intro h
  have := congrArg (fun q : Path => q.fileName.toList.length) h
  simp [sibling] at this

/-- One call of `leanvm::xmss::sign` with the node's key. -/
structure SignCall where
  slot : UInt32
  message : Blob 32
  deriving DecidableEq

abbrev SignAns : SignCall → Type := fun _ => Except String XmssSignature

abbrev SlotOp := Op Path SignCall
abbrev SlotProg := Prog SlotOp (Ans SignAns)
abbrev SlotIo := ExceptT AtomicSlotCounterError SlotProg

/-- mirrors src/src/state/slot_counter.rs:279-290 (`_lock` is the machine's lock) -/
structure AtomicSlotCounter where
  stateFile : Nat
  keyTag : Blob 32
  generation : UInt64
  next : UInt64
  slotEnd : UInt32

/-- A method on `&mut self`: an error comes with the counter it leaves. -/
abbrev SlotMut := ExceptT AtomicSlotCounterError (StateT AtomicSlotCounter SlotProg)

/-- mirrors src/src/node/signer.rs:17-22 -/
inductive SignerNodeError where
  | slot (e : AtomicSlotCounterError)
  | sign (message : String)

variable (sha3 : Bytes → Blob 32)

/-- mirrors src/src/state/slot_counter.rs:135-138 -/
def keyFingerprint (pk : XmssPublicKey) : Blob 32 := sha3 pk.1

/-- mirrors src/src/state/slot_counter.rs:140-142 -/
def keyFingerprintHex (keyTag : Blob 32) : Str := hexString keyTag.1

/-- mirrors src/src/state/slot_counter.rs:146-172 -/
def parseLegacy (s : Str) (keyTag : Blob 32) : Except AtomicSlotCounterError (UInt64 × Bool) :=
  let versioned := "v2 ".toList.isPrefixOf s
  let s := if versioned then s.drop 3 else s
  match splitWhitespace s with
  | [] => .error (.state "empty state file")
  | [_] => .error (.state "missing slot counter")
  | fp :: next :: rest =>
    if fp ≠ keyFingerprintHex keyTag then .error (.state "state file belongs to a different key")
    else match parseUnsigned (2 ^ 64) next with
      | .error e => .error (.state s!"unparseable slot counter: {e}")
      | .ok next =>
        if rest ≠ [] then .error (.state "unexpected trailing data in state file")
        else .ok (UInt64.ofNat next, !versioned)

/-- Opening the lock file and `try_lock`.
mirrors src/src/state/slot_counter.rs:118-132 -/
def acquireLock : SlotIo Unit := takeLock .busy .io

/-- The whole file `install_journal` writes: one record of generation 0 and
zeros.
mirrors src/src/state/slot_counter.rs:93-98 -/
def journalImage (keyTag : Blob 32) (nextFree : UInt64) : Bytes :=
  encodeRecord sha3 ⟨0, nextFree, keyTag⟩ ++ List.replicate (journalSize - recordSize) 0

/-- mirrors src/src/state/slot_counter.rs:87-114 -/
def installJournal (path : Path) (keyTag : Blob 32) (nextFree : UInt64) : SlotIo Nat :=
  atomicReplace .io (sibling path "tmp") path (journalImage sha3 keyTag nextFree)

/-- `Path::exists`: the metadata query succeeds. -/
def pathExists (path : Path) : SlotIo Bool :=
  io .io (.metadata path) fun
    | .ok _ => .ok true
    | .error _ => .ok false

/-- mirrors src/src/state/slot_counter.rs:305-329 -/
def create (path : Path) (pk : XmssPublicKey) (slotStart slotEnd : UInt32) :
    SlotIo AtomicSlotCounter := do
  let keyTag := keyFingerprint sha3 pk
  acquireLock
  if ← pathExists path then
    throw (.state s!"{path.display} already exists; refusing to reset a live counter")
  let stateFile ← installJournal sha3 path keyTag slotStart.toUInt64
  return { stateFile, keyTag, generation := 0, next := slotStart.toUInt64, slotEnd }

/-- The part of `open` that follows the read: a journal is recovered, anything
else is migrated once. The text of Rust's `Utf8Error` is left out.
mirrors src/src/state/slot_counter.rs:361-401 -/
def resume (path : Path) (keyTag : Blob 32) (slotEnd : UInt32) (stateFile : Nat) (raw : Bytes) :
    SlotIo AtomicSlotCounter :=
  if raw.length = journalSize then do
    let current ← liftExcept (recoverJournal sha3 raw keyTag slotEnd)
    return { stateFile, keyTag, generation := current.generation, next := current.nextFree, slotEnd }
  else match fromUtf8 raw with
    | none => liftExcept (.error (.state "state is neither a journal nor UTF-8"))
    | some text => do
      let (next, unversioned) ← liftExcept (parseLegacy text keyTag)
      if slotEnd.toNat + 1 < next.toNat then
        liftExcept (.error (.state (s!"persisted next slot {next} is outside this key's " ++
          s!"window ending at {slotEnd}")))
      else if unversioned && slotEnd.toNat == 2 ^ 32 - 1 && next.toNat == 2 ^ 32 - 1 then
        liftExcept (.error (.state
          "legacy state at u32::MAX is ambiguous; refusing to risk slot reuse"))
      else do
        let stateFile ← installJournal sha3 path keyTag next
        return { stateFile, keyTag, generation := 0, next, slotEnd }

variable {sha3} in
/-- A journal is resumed at the record recovery picks. -/
theorem resume_journal {path : Path} {keyTag : Blob 32} {slotEnd : UInt32} {raw : Bytes}
    {record : JournalRecord} {f : Nat} (h : recoverJournal sha3 raw keyTag slotEnd = .ok record) :
    resume sha3 path keyTag slotEnd f raw =
      (pure ⟨f, keyTag, record.generation, record.nextFree, slotEnd⟩ : SlotIo _) := by
  unfold resume
  rw [if_pos ((recoverJournal_ok_iff _ _ _ _ _).mp h).1, h]
  rfl

/-- mirrors src/src/state/slot_counter.rs:341-402 -/
def open_ (path : Path) (pk : XmssPublicKey) (slotEnd : UInt32) : SlotIo AtomicSlotCounter := do
  let keyTag := keyFingerprint sha3 pk
  let cannotRead (e : IoError) : AtomicSlotCounterError :=
    .state s!"cannot read {path.display}: {e.message}"
  acquireLock
  let stateFile ← io cannotRead (.openFile path) id
  let raw ← io cannotRead (.readToEnd stateFile) id
  resume sha3 path keyTag slotEnd stateFile raw

/-- mirrors src/src/state/slot_counter.rs:404-424 -/
def persistNext (nextFree : UInt64) : SlotMut Unit := do
  let c ← get
  if c.generation.toNat + 1 < 2 ^ 64 then
    let generation := c.generation + 1
    let slot := generation.toNat % 2
    let bytes := encodeRecord sha3 ⟨generation, nextFree, c.keyTag⟩
    (io .io (.seek c.stateFile (slot * journalSlotSize)) id : SlotIo Unit)
    (io .io (.write c.stateFile bytes) id : SlotIo Unit)
    (io .io (.sync c.stateFile) id : SlotIo Unit)
    modify fun c => { c with generation }
  else throw (.state "journal generation exhausted")

/-- mirrors src/src/state/slot_counter.rs:427-429 -/
def AtomicSlotCounter.nextSlot (c : AtomicSlotCounter) : UInt64 := c.next

/-- `(u64::from(end) + 1).saturating_sub(next)`
mirrors src/src/state/slot_counter.rs:432-434 -/
def AtomicSlotCounter.remaining (c : AtomicSlotCounter) : UInt64 :=
  if c.next ≤ c.slotEnd.toUInt64 + 1 then c.slotEnd.toUInt64 + 1 - c.next else 0

/-- mirrors src/src/state/slot_counter.rs:440-452 -/
def reserve : SlotMut UInt32 := do
  let c ← get
  if c.slotEnd.toUInt64 < c.next then throw (.exhausted c.next c.slotEnd)
  else
    let slot := UInt32.ofNat c.next.toNat
    let target := c.next + 1
    persistNext sha3 target
    modify fun c => { c with next := target }
    return slot

/-- mirrors src/src/state/slot_counter.rs:471-489 -/
def reserveAt (requested : UInt32) : SlotMut UInt32 := do
  let c ← get
  if c.slotEnd.toUInt64 < c.next ∨ c.slotEnd < requested then
    throw (.exhausted (max c.next requested.toUInt64) c.slotEnd)
  else if requested.toUInt64 < c.next then throw (.alreadySpent requested c.next)
  else
    let target := requested.toUInt64 + 1
    persistNext sha3 target
    modify fun c => { c with next := target }
    return requested

/-- Burn, then sign; the counter stays advanced when `leanvm` refuses.
mirrors src/src/node/signer.rs:95-104 and 136-154 -/
def burnAndSign (c : AtomicSlotCounter) (burn : SlotMut UInt32) (message : Blob 32) :
    SlotProg (AtomicSlotCounter × Except SignerNodeError (UInt32 × XmssSignature)) :=
  (burn.run.run c).bind fun
    | (.error e, c) => .ret (c, .error (.slot e))
    | (.ok slot, c) => .call (.ext ⟨slot, message⟩) fun
      | .error e => .ret (c, .error (.sign s!"{e} at slot {slot}"))
      | .ok signature => .ret (c, .ok (slot, signature))

/-- mirrors src/src/node/signer.rs:95-104 -/
def sign (c : AtomicSlotCounter) (message : Blob 32) :
    SlotProg (AtomicSlotCounter × Except SignerNodeError (UInt32 × XmssSignature)) :=
  burnAndSign c (reserve sha3) message

/-- mirrors src/src/node/signer.rs:116-154 (`sign_at`; the timings are left out) -/
def signAt (c : AtomicSlotCounter) (message : Blob 32) (slot : UInt32) :
    SlotProg (AtomicSlotCounter × Except SignerNodeError (UInt32 × XmssSignature)) :=
  burnAndSign c (reserveAt sha3 slot) message

/-! ## The counter a reservation leaves

`self` moves only after the last fallible operation, so a reservation is a
computation of the next counter, and an error leaves `self` as it was. -/

/-- The counter `persist_next` leaves when it succeeds. -/
def persisted (c : AtomicSlotCounter) (nextFree : UInt64) : SlotIo AtomicSlotCounter :=
  if c.generation.toNat + 1 < 2 ^ 64 then do
    let generation := c.generation + 1
    let slot := generation.toNat % 2
    let bytes := encodeRecord sha3 ⟨generation, nextFree, c.keyTag⟩
    io .io (.seek c.stateFile (slot * journalSlotSize)) id
    io .io (.write c.stateFile bytes) id
    io .io (.sync c.stateFile) id
    return { c with generation }
  else liftExcept (.error (.state "journal generation exhausted"))

/-- The counter and the slot of `reserve` when it succeeds. -/
def reserved (c : AtomicSlotCounter) : SlotIo (AtomicSlotCounter × UInt32) :=
  if c.slotEnd.toUInt64 < c.next then liftExcept (.error (.exhausted c.next c.slotEnd))
  else do
    let c' ← persisted sha3 c (c.next + 1)
    return ({ c' with next := c.next + 1 }, UInt32.ofNat c.next.toNat)

/-- The counter and the slot of `reserve_at` when it succeeds. -/
def reservedAt (c : AtomicSlotCounter) (requested : UInt32) : SlotIo (AtomicSlotCounter × UInt32) :=
  if c.slotEnd.toUInt64 < c.next ∨ c.slotEnd < requested then
    liftExcept (.error (.exhausted (max c.next requested.toUInt64) c.slotEnd))
  else if requested.toUInt64 < c.next then
    liftExcept (.error (.alreadySpent requested c.next))
  else do
    let c' ← persisted sha3 c (requested.toUInt64 + 1)
    return ({ c' with next := requested.toUInt64 + 1 }, requested)

section
variable {sha3}

theorem commits_persistNext (c : AtomicSlotCounter) (nextFree : UInt64) :
    Prog.Commits (persistNext sha3 nextFree) c (do
      let c' ← persisted sha3 c nextFree
      return (c', ())) := by
  unfold persisted
  refine .get ?_
  by_cases hg : c.generation.toNat + 1 < 2 ^ 64
  · rw [if_pos hg, if_pos hg]
    simp only [bind_assoc, pure_bind]
    exact .lift fun _ => .lift fun _ => .lift fun _ => .modify _
  · rw [if_neg hg, if_neg hg]
    exact .throw _

theorem commits_reserve (c : AtomicSlotCounter) :
    Prog.Commits (reserve sha3) c (reserved sha3 c) := by
  unfold reserved
  refine .get ?_
  by_cases hn : c.slotEnd.toUInt64 < c.next
  · rw [if_pos hn, if_pos hn]
    exact .throw _
  · rw [if_neg hn, if_neg hn]
    have h := (@commits_persistNext sha3 c (c.next + 1)).map
      (fun c' => { c' with next := c.next + 1 }) (UInt32.ofNat c.next.toNat)
    simpa only [bind_assoc, pure_bind] using h

theorem commits_reserveAt (c : AtomicSlotCounter) (requested : UInt32) :
    Prog.Commits (reserveAt sha3 requested) c (reservedAt sha3 c requested) := by
  unfold reservedAt
  refine .get ?_
  by_cases hn : c.slotEnd.toUInt64 < c.next ∨ c.slotEnd < requested
  · rw [if_pos hn, if_pos hn]
    exact .throw _
  rw [if_neg hn, if_neg hn]
  by_cases hr : requested.toUInt64 < c.next
  · rw [if_pos hr, if_pos hr]
    exact .throw _
  · rw [if_neg hr, if_neg hr]
    have h := (@commits_persistNext sha3 c (requested.toUInt64 + 1)).map
      (fun c' => { c' with next := requested.toUInt64 + 1 }) requested
    simpa only [bind_assoc, pure_bind] using h

end

/-! ## What a process can call -/

inductive SlotCall where
  | create (slotStart : UInt32)
  | open_
  | reserve
  | reserveAt (requested : UInt32)
  | sign (message : Blob 32)
  | signAt (message : Blob 32) (slot : UInt32)

inductive SlotReply where
  | opened (next : UInt64)
  | slot (s : UInt32)
  | signed (s : UInt32) (signature : XmssSignature)
  | refused (e : AtomicSlotCounterError)
  | failed (e : SignerNodeError)

abbrev SlotEv := Ev Path SignCall SignAns SlotReply
abbrev SlotWorld := World Path SignCall SignAns SlotReply
abbrev SlotSys := Sys SlotOp (Ans SignAns) SlotWorld AtomicSlotCounter SlotCall SlotReply

def asConstructor (x : SlotIo AtomicSlotCounter) : SlotProg (Option AtomicSlotCounter × SlotReply) :=
  x.run.bind fun
    | .ok c => .ret (some c, .opened c.next)
    | .error e => .ret (none, .refused e)

def asReservation (c : AtomicSlotCounter) (x : SlotMut UInt32) :
    SlotProg (Option AtomicSlotCounter × SlotReply) :=
  (x.run.run c).bind fun
    | (.ok s, c) => .ret (some c, .slot s)
    | (.error e, c) => .ret (some c, .refused e)

def asSignature
    (x : SlotProg (AtomicSlotCounter × Except SignerNodeError (UInt32 × XmssSignature))) :
    SlotProg (Option AtomicSlotCounter × SlotReply) :=
  x.bind fun
    | (c, .ok (s, sig)) => .ret (some c, .signed s sig)
    | (c, .error e) => .ret (some c, .failed e)

/-- One state path and one key; every call uses the same `slot_end`, and
`create` is called with `slot_start <= slot_end`. A successful return is
recorded. -/
def counterApi (path : Path) (pk : XmssPublicKey) (slotEnd : UInt32) :
    Api SlotOp (Ans SignAns) SlotWorld AtomicSlotCounter SlotCall SlotReply where
  run
    | none, .create slotStart =>
      if slotStart ≤ slotEnd then some (asConstructor (create sha3 path pk slotStart slotEnd))
      else none
    | none, .open_ => some (asConstructor (open_ sha3 path pk slotEnd))
    | some c, .reserve => some (asReservation c (reserve sha3))
    | some c, .reserveAt requested => some (asReservation c (reserveAt sha3 requested))
    | some c, .sign message => some (asSignature (sign sha3 c message))
    | some c, .signAt message slot => some (asSignature (signAt sha3 c message slot))
    | _, _ => none
  note _ r w :=
    match r with
    | .refused _ => w
    | .failed _ => w
    | r => { w with log := .ret r :: w.log }

end Drot.L2.SlotCounter
