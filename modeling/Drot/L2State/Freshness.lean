import Drot.L2State.SlotCounter

/-!
# The freshness gate (`state/freshness.rs`)

`HighWaterMark` is the highest version a relying party has accepted, kept in a
one-line text file that names the anchor. The constructors and `try_advance` are
programs over storage; what they decide from the bytes they read is in the pure
functions `parse`, `createFrom`, `openFrom` and `recoverFrom`.

* `parse_stateLine`: what `persist` writes reads back, for an empty mark and for
  every version.
-/
namespace Drot.L2.Freshness
open Bytes Text SlotCounter

/-- mirrors src/src/state/freshness.rs:14-19 -/
inductive Decision where
  | accepted
  | stale (mark : UInt32)
  deriving DecidableEq, Repr

/-- mirrors src/src/state/freshness.rs:23-30 -/
inductive HighWaterMarkError where
  | state (m : String)
  | busy
  | io (e : IoError)
  deriving DecidableEq, Repr

/-- The gate calls nothing outside storage. -/
abbrev NoCall : Empty → Type := fun _ => Unit

abbrev MarkOp := Op Path Empty
abbrev MarkProg := Prog MarkOp (Ans NoCall)
abbrev MarkIo := ExceptT HighWaterMarkError MarkProg

/-- mirrors src/src/state/freshness.rs:51-59 (`_lock` is the machine's lock) -/
structure HighWaterMark where
  path : Path
  fingerprint : Str
  current : UInt32
  have_ : Bool
  deriving DecidableEq

/-- A method on `&mut self`: an error comes with the mark it leaves. -/
abbrev MarkMut := ExceptT HighWaterMarkError (StateT HighWaterMark MarkProg)

/-- `HighWaterMark::current`.
mirrors src/src/state/freshness.rs:167-169 -/
def HighWaterMark.mark (m : HighWaterMark) : Option UInt32 :=
  if m.have_ then some m.current else none

/-! ## The state file -/

/-- Lower-case hex of SHA3-256.
mirrors src/src/state/freshness.rs:218-225 -/
def fingerprint (sha3 : Bytes → Blob 32) (anchor : Bytes) : Str := hexString (sha3 anchor).1

theorem fingerprint_word (sha3 : Bytes → Blob 32) (anchor : Bytes) :
    fingerprint sha3 anchor ≠ [] ∧ ∀ c ∈ fingerprint sha3 anchor, isWhitespace c = false := by
  refine ⟨hexString_ne_nil ?_, fun c hc => isWhitespace_of_mem_hexString hc⟩
  intro h
  have := (sha3 anchor).2
  rw [h] at this; cases this

/-- mirrors src/src/state/freshness.rs:228-247 -/
def parse (s : Str) (fingerprint : Str) : Except String (UInt32 × Bool) :=
  match splitWhitespace s with
  | [] => .error "empty state file"
  | [_] => .error "missing freshness value"
  | fp :: value :: rest =>
    if rest ≠ [] then .error "trailing data in state file"
    else if fp ≠ fingerprint then .error "state file belongs to a different anchor"
    else if value = "none".toList then .ok (0, false)
    else match parseUnsigned (2 ^ 32) value with
      | .error e => .error s!"unparseable freshness value: {e}"
      | .ok version => .ok (UInt32.ofNat version, true)

def versionText : Option UInt32 → Str
  | none => "none".toList
  | some v => decimal v.toNat

/-- mirrors src/src/state/freshness.rs:187-188 -/
def stateLine (fingerprint : Str) (version : Option UInt32) : Str :=
  fingerprint ++ ' ' :: (versionText version ++ ['\n'])

theorem versionText_word (v : Option UInt32) :
    versionText v ≠ [] ∧ ∀ c ∈ versionText v, isWhitespace c = false := by
  cases v with
  | none => exact ⟨by decide, isWhitespace_of_all (by decide)⟩
  | some v =>
    exact ⟨decimal_ne_nil _, fun c hc => isWhitespace_of_isDigit (isDigit_of_mem_decimal hc)⟩

theorem decimal_ne_none (n : Nat) : decimal n ≠ "none".toList := by
  intro h
  have hn : 'n' ∈ decimal n := by rw [h]; decide
  exact absurd (isDigit_of_mem_decimal hn) (by decide)

theorem splitWhitespace_stateLine (sha3 : Bytes → Blob 32) (anchor : Bytes) (v : Option UInt32) :
    splitWhitespace (stateLine (fingerprint sha3 anchor) v) =
      [fingerprint sha3 anchor, versionText v] := by
  obtain ⟨hfp, hwfp⟩ := fingerprint_word sha3 anchor
  obtain ⟨hne, hword⟩ := versionText_word v
  unfold stateLine
  rw [splitWhitespace_cons hfp hwfp (by decide), splitWhitespace_cons hne hword (by decide),
    splitWhitespace_nil]

/-- What is written reads back. -/
theorem parse_stateLine (sha3 : Bytes → Blob 32) (anchor : Bytes) (v : Option UInt32) :
    parse (stateLine (fingerprint sha3 anchor) v) (fingerprint sha3 anchor) =
      .ok (v.getD 0, v.isSome) := by
  unfold parse
  rw [splitWhitespace_stateLine]
  cases v with
  | none => simp [versionText]
  | some v =>
    have hv : parseUnsigned (2 ^ 32) (decimal v.toNat) = .ok v.toNat :=
      parseUnsigned_decimal v.toNat_lt
    simp only [versionText, ne_eq, not_true_eq_false, if_false, decimal_ne_none, hv,
      UInt32.ofNat_toNat, Option.getD_some, Option.isSome_some]

/-! ## Constructors -/

/-- mirrors src/src/state/freshness.rs:204-216 -/
def acquireLock : MarkIo Unit := takeLock .busy .io

/-- mirrors src/src/state/freshness.rs:186-201 -/
def persist (m : HighWaterMark) (version : Option UInt32) : MarkIo Unit := do
  let _ ← atomicReplace .io (sibling m.path "tmp") m.path
    (toUtf8 (stateLine m.fingerprint version))
  return ()

/-- Only a missing entry is initialised.
mirrors src/src/state/freshness.rs:72-81 -/
def createFrom (path : Path) : Except IoError Unit → Except HighWaterMarkError Unit
  | .ok _ =>
    .error (.state s!"{path.display} already exists; refusing to reset freshness state")
  | .error e => if e.kind = .notFound then .ok () else .error (.io e)

/-- mirrors src/src/state/freshness.rs:68-91 -/
def create (sha3 : Bytes → Blob 32) (path : Path) (anchor : Bytes) : MarkIo HighWaterMark := do
  acquireLock
  let found ← io .io (.metadata path) .ok
  liftExcept (createFrom path found)
  let mark : HighWaterMark :=
    { path, fingerprint := fingerprint sha3 anchor, current := 0, have_ := false }
  persist mark none
  return mark

/-- What `open` makes of the bytes it read. The text of Rust's `Utf8Error` is
left out.
mirrors src/src/state/freshness.rs:104-117 -/
def openFrom (path : Path) (fingerprint : Str) :
    Except IoError Bytes → Except HighWaterMarkError HighWaterMark
  | .error e => .error (.state s!"cannot read {path.display}: {e.message}")
  | .ok bytes =>
    match fromUtf8 bytes with
    | none => .error (.state s!"{path.display} is not UTF-8")
    | some raw =>
      match parse raw fingerprint with
      | .error m => .error (.state m)
      | .ok (current, have_) => .ok { path, fingerprint, current, have_ }

theorem openFrom_error {path : Path} {fp s : Str} {e : String} (h : parse s fp = .error e) :
    openFrom path fp (.ok (toUtf8 s)) = .error (.state e) := by
  simp only [openFrom, fromUtf8_toUtf8, h]

theorem openFrom_ok {path : Path} {fp s : Str} {u : UInt32} {b : Bool} (h : parse s fp = .ok (u, b)) :
    openFrom path fp (.ok (toUtf8 s)) = .ok ⟨path, fp, u, b⟩ := by
  simp only [openFrom, fromUtf8_toUtf8, h]

/-- mirrors src/src/state/freshness.rs:99-117 -/
def open_ (sha3 : Bytes → Blob 32) (path : Path) (anchor : Bytes) : MarkIo HighWaterMark := do
  acquireLock
  let read ← readFile .io path
  liftExcept (openFrom path (fingerprint sha3 anchor) read)

/-- `str::from_utf8(&bytes).is_ok_and(|raw| parse(raw, fingerprint).is_ok())` -/
def validState (fingerprint : Str) (bytes : Bytes) : Bool :=
  match fromUtf8 bytes with
  | none => false
  | some raw => (parse raw fingerprint).isOk

/-- Whether recovery may replace what was read.
mirrors src/src/state/freshness.rs:140-154 -/
def recoverFrom (path : Path) (fingerprint : Str) :
    Except IoError Bytes → Except HighWaterMarkError Unit
  | .ok bytes =>
    if validState fingerprint bytes then
      .error (.state s!"{path.display} contains valid state; refusing trusted-source recovery")
    else .ok ()
  | .error e => if e.kind = .notFound then .ok () else .error (.io e)

/-- mirrors src/src/state/freshness.rs:131-164 -/
def loadFromTrustedSource (sha3 : Bytes → Blob 32) (path : Path) (anchor : Bytes)
    (authenticatedLatestVersion : UInt32) : MarkIo HighWaterMark := do
  acquireLock
  let read ← readFile .io path
  liftExcept (recoverFrom path (fingerprint sha3 anchor) read)
  let mark : HighWaterMark :=
    { path, fingerprint := fingerprint sha3 anchor, current := authenticatedLatestVersion,
      have_ := true }
  persist mark (some authenticatedLatestVersion)
  return mark

/-! ## The gate -/

/-- mirrors src/src/state/freshness.rs:175-183 -/
def tryAdvance (version : UInt32) : MarkMut Decision := do
  let m ← get
  if m.have_ ∧ version ≤ m.current then return .stale m.current
  else
    (persist m (some version) : MarkIo Unit)
    modify fun m => { m with current := version, have_ := true }
    return .accepted

/-- The mark and the decision of `try_advance` when it succeeds. -/
def advanced (m : HighWaterMark) (version : UInt32) : MarkIo (HighWaterMark × Decision) :=
  if m.have_ ∧ version ≤ m.current then return (m, .stale m.current)
  else do
    persist m (some version)
    return ({ m with current := version, have_ := true }, .accepted)

/-- The mark moves after the last fallible operation, so an error leaves it as it
was. -/
theorem commits_tryAdvance (m : HighWaterMark) (version : UInt32) :
    Prog.Commits (tryAdvance version) m (advanced m version) := by
  unfold advanced
  refine .get ?_
  by_cases hs : m.have_ = true ∧ version ≤ m.current
  · rw [if_pos hs, if_pos hs]
    rfl
  · rw [if_neg hs, if_neg hs]
    exact .lift fun _ => rfl

/-! ## What a process can call -/

inductive MarkCall where
  | create
  | open_
  | loadFromTrustedSource (authenticatedLatestVersion : UInt32)
  | tryAdvance (version : UInt32)

inductive MarkReply where
  | opened (mark : Option UInt32)
  | accepted (version : UInt32)
  | stale (mark : UInt32)
  | refused (e : HighWaterMarkError)

abbrev MarkEv := Ev Path Empty NoCall MarkReply
abbrev MarkWorld := World Path Empty NoCall MarkReply
abbrev MarkSys := Sys MarkOp (Ans NoCall) MarkWorld HighWaterMark MarkCall MarkReply

def asConstructor (x : MarkIo HighWaterMark) : MarkProg (Option HighWaterMark × MarkReply) :=
  x.run.bind fun
    | .ok m => .ret (some m, .opened m.mark)
    | .error e => .ret (none, .refused e)

def asAdvance (m : HighWaterMark) (version : UInt32) (x : MarkMut Decision) :
    MarkProg (Option HighWaterMark × MarkReply) :=
  (x.run.run m).bind fun
    | (.ok .accepted, m) => .ret (some m, .accepted version)
    | (.ok (.stale mark), m) => .ret (some m, .stale mark)
    | (.error e, m) => .ret (some m, .refused e)

/-- One path and one anchor. Constructors that succeed and acceptances are
recorded. -/
def markApi (sha3 : Bytes → Blob 32) (path : Path) (anchor : Bytes) :
    Api MarkOp (Ans NoCall) MarkWorld HighWaterMark MarkCall MarkReply where
  run
    | none, .create => some (asConstructor (create sha3 path anchor))
    | none, .open_ => some (asConstructor (open_ sha3 path anchor))
    | none, .loadFromTrustedSource v =>
      some (asConstructor (loadFromTrustedSource sha3 path anchor v))
    | some m, .tryAdvance v => some (asAdvance m v (tryAdvance v))
    | _, _ => none
  note _ r w :=
    match r with
    | .opened _ => { w with log := .ret r :: w.log }
    | .accepted _ => { w with log := .ret r :: w.log }
    | _ => w

end Drot.L2.Freshness
