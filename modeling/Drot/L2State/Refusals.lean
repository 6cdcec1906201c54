import Drot.L2State.FreshnessRuns
import Drot.L2State.SlotRuns

/-!
# What a refusal leaves behind

`persist` and `install_journal` replace a file by a rename in the middle of a
sequence of fallible operations, and `AtomicSlotCounter::create` trusts
`Path::exists`. Which operation fails, and what the existence query answers,
decides whether an error means that nothing moved.

* `refused_advance_iff`: after an error of `try_advance` or
  `HighWaterMark::create`, the file is as before if and only if the operation that
  failed was not one on the directory.
* `create_keeps_entry_iff`: `AtomicSlotCounter::create` leaves an entry at the
  path alone if and only if its existence query succeeds.
-/
namespace Drot.L2.Freshness
open Bytes Text SlotCounter

section Open
variable {F : Faults} {p : Nat} {sha3 : Bytes → Blob 32} {path : Path} {anchor : Bytes}
  {m : HighWaterMark} {w w' : MarkWorld}

theorem reads_of_open (hl : w.disk.lock = none)
    (h : MarkReturns F p (open_ sha3 path anchor) w (.ok m) w') :
    Reads path (fingerprint sha3 anchor) w.disk m := by
  have hwp : (markMachine F).wp (fun w₁ => SameFiles w.disk w₁.disk) p (open_ sha3 path anchor).run
      (fun x _ => ∀ m, x = .ok m → Reads path (fingerprint sha3 anchor) w.disk m) w := by
    unfold markMachine open_ acquireLock
    refine wp_takeLock ⟨rfl, rfl, rfl⟩ (by rw [hl]; simp) (fun w₁ h => ⟨h.dir, h.inode, h.fresh⟩) ?_
      (fun e w₁ _ _ => by rintro _ ⟨⟩)
    intro w₁ hs₁ hl₁
    have htrans : ∀ d, SameFiles w₁.disk d → SameFiles w.disk d := fun d hs =>
      ⟨hs.dir.trans hs₁.dir, hs.inode.trans hs₁.inode, hs.fresh.trans hs₁.fresh⟩
    refine wp_readFile hl₁ (fun d l hs _ => htrans d hs) ?_
    intro r d l hr hs hl₂ _
    refine Machine.wp_ret (M := storage _ _ _) (htrans d hs) hl₂ ?_
    intro m hm
    cases r with
    | error e => cases hm
    | ok bytes =>
      obtain ⟨i, hi, rfl⟩ := hr
      unfold Reads Disk.lookup
      rw [← hs₁.dir, ← hs₁.inode]
      exact ⟨i, hi, hm⟩
  exact Machine.wp_runs hwp h m rfl

/-- A later `open` can succeed, and yields this mark when it does. -/
def OpensWith (F : Faults) (sha3 : Bytes → Blob 32) (path : Path) (anchor : Bytes) (w : MarkWorld)
    (mark : Option UInt32) : Prop :=
  (∃ p m w', MarkReturns F p (open_ sha3 path anchor) (dropped w) (.ok m) w') ∧
    ∀ p m w', MarkReturns F p (open_ sha3 path anchor) (dropped w) (.ok m) w' → m.mark = mark

theorem opensWith_iff {mark : Option UInt32} : OpensWith F sha3 path anchor w mark ↔
    ∃ m, Reads path (fingerprint sha3 anchor) w.disk m ∧ m.mark = mark := by
  constructor
  · intro h
    obtain ⟨⟨p, m, w', h⟩, hall⟩ := h
    exact ⟨m, reads_of_open (w := dropped w) rfl h, hall p m w' h⟩
  · intro h
    obtain ⟨m, hm, rfl⟩ := h
    obtain ⟨w', h, -⟩ := open_of_reads F 0 (w := dropped w) rfl hm
    refine ⟨⟨0, m, w', h⟩, fun p m' w' h' => ?_⟩
    obtain ⟨i, hi, hm⟩ := hm
    obtain ⟨j, hj, hm'⟩ := reads_of_open (w := dropped w) rfl h'
    obtain rfl : i = j := Option.some.inj (hi.symm.trans hj)
    rw [show m' = m from Except.ok.inj (hm'.symm.trans hm)]

end Open

section Persist
variable {F : Faults} {p : Nat} {sha3 : Bytes → Blob 32} {path : Path} {anchor : Bytes}
  {m : HighWaterMark} {w w' : MarkWorld} {e : HighWaterMarkError}

/-- How `persist` can fail: before the rename, or after it. -/
theorem persist_error {version : Option UInt32} (hl : w.disk.lock = some p)
    (ht : Tidy (sibling m.path "tmp") m.path w.disk)
    (h : MarkReturns F p (persist m version) w (.error e) w') :
    w.log <:+ w'.log ∧
      ((¬ EndsOnDirectory w w' ∧ Scratch (sibling m.path "tmp") m.path w.disk w'.disk) ∨
        (EndsOnDirectory w w' ∧ ∃ i, Replaced (sibling m.path "tmp") m.path
          (toUtf8 (stateLine m.fingerprint version)) i w.disk w'.disk)) := by
  rcases runs_try.mp h with ⟨f, w₁, -, h₂⟩ | ⟨e', h₁, -⟩
  · cases (Machine.runs_ret.mp h₂).1
  · obtain ⟨-, hlog, hend⟩ := atomicReplace_end (sibling_ne m.path "tmp") hl ht h₁
    cases hend with
    | before _ hd hs => exact ⟨hlog, .inl ⟨hd, hs⟩⟩
    | after _ i hd hr => exact ⟨hlog, .inr ⟨hd, i, hr⟩⟩

/-- The steps before the rename do not touch what the path reads as. -/
theorem reads_scratch {tmp : Path} {fp : Str} {d d' : Disk Path} (h : Scratch tmp path d d') :
    Reads path fp d' m ↔ Reads path fp d m := by
  unfold Reads
  rw [h.look]
  refine exists_congr fun i => and_congr_right fun hi => ?_
  rw [h.files _ d.dir.visible_mem_all i hi]

/-- After the rename the path reads as the version written. -/
theorem reads_replaced {tmp : Path} {d d' : Disk Path} {v : Option UInt32} {i : Nat}
    (h : Replaced tmp path (toUtf8 (stateLine (fingerprint sha3 anchor) v)) i d d')
    (hm : Reads path (fingerprint sha3 anchor) d' m) : m.mark = v := by
  obtain ⟨j, hj, hm⟩ := hm
  obtain rfl : i = j := Option.some.inj (h.look.symm.trans hj)
  rw [h.file, File.content_sync, File.content_writeAt_nil,
    openFrom_ok (parse_stateLine sha3 anchor v)] at hm
  cases hm
  cases v <;> rfl

/-- What a live mark is: its process holds the lock, it belongs to the anchor,
and the temporary name does not share the state file. -/
structure Live (sha3 : Bytes → Blob 32) (anchor : Bytes) (p : Nat) (m : HighWaterMark)
    (w : MarkWorld) : Prop where
  lock : w.disk.lock = some p
  tag : m.fingerprint = fingerprint sha3 anchor
  tidy : Tidy (sibling m.path "tmp") m.path w.disk

theorem advance_error {version : UInt32} (h : MarkReturns F p (advanced m version) w (.error e) w') :
    ¬ (m.have_ = true ∧ version ≤ m.current) ∧
      MarkReturns F p (persist m (some version)) w (.error e) w' := by
  unfold advanced at h
  split at h
  · cases (Machine.runs_ret.mp h).1
  · rename_i hnew
    refine ⟨hnew, ?_⟩
    rcases runs_try.mp h with ⟨u, w₁, -, h₂⟩ | ⟨e', h₁, he⟩
    · cases (Machine.runs_ret.mp h₂).1
    · cases he; exact h₁

/-- A version that passes the comparison is not the current one. -/
theorem mark_ne {version : UInt32} (h : ¬ (m.have_ = true ∧ version ≤ m.current)) :
    m.mark ≠ some version := by
  unfold HighWaterMark.mark
  split
  · rename_i hh
    intro he
    cases he
    exact h ⟨hh, UInt32.le_refl _⟩
  · simp

theorem create_error (hl : w.disk.lock = none) (ht : Tidy (sibling path "tmp") path w.disk)
    (hn : w.disk.lookup path = none)
    (h : MarkReturns F p (create sha3 path anchor) w (.error e) w') :
    (w'.disk.lookup path = none ↔ ¬ EndsOnDirectory w w') := by
  unfold create acquireLock at h
  obtain ⟨r, w₁, -, hx, h⟩ := runs_takeLock.mp h
  obtain ⟨-, hx, hlog⟩ := hx
  have hno : w₁.log = w.log → w₁.disk.lookup path = none →
      (w₁.disk.lookup path = none ↔ ¬ EndsOnDirectory w w₁) := by
    intro hl hn
    refine ⟨fun _ => ?_, fun _ => hn⟩
    rw [endsOnDirectory_iff (l := []) hl]
    exact id
  cases r with
  | wouldBlock => exact absurd hl hx.1
  | failed e' =>
    obtain ⟨-, rfl⟩ := h
    exact hno hlog (by rw [hx]; exact hn)
  | acquired =>
  obtain ⟨d₁, l₁⟩ := w₁
  obtain ⟨-, rfl⟩ := hx
  cases hlog
  obtain ⟨r, ⟨d₂, l₂⟩, -, ⟨-, hx, hlog⟩, h⟩ := runs_io.mp h
  cases r with
  | ok u => exact absurd hn hx.1
  | error e' =>
  obtain ⟨-, hk, rfl⟩ := hx
  cases hlog
  obtain ⟨a, ha, h⟩ | ⟨_, he, -⟩ := h
  swap
  · cases he
  cases ha
  rcases runs_liftExcept.mp h with ⟨_, -, h⟩ | ⟨_, he, -⟩
  swap
  · simp [createFrom, hk] at he
  rcases runs_try.mp h with ⟨_, _, -, h⟩ | ⟨_, h, -⟩
  · cases (Machine.runs_ret.mp h).1
  have ht' : Tidy (sibling path "tmp") path { w.disk with lock := some p } :=
    ht.sameFiles ⟨rfl, rfl, rfl⟩
  obtain ⟨hsuf, hend⟩ := persist_error (m := ⟨path, fingerprint sha3 anchor, 0, false⟩) rfl ht' h
  rw [endsOnDirectory_of_cons (u := w) id rfl hsuf]
  rcases hend with ⟨hd, hs⟩ | ⟨hd, i, hr⟩
  · exact ⟨fun _ => hd, fun _ => hs.look.trans hn⟩
  · refine ⟨fun hnone => ?_, fun hn => absurd hd hn⟩
    rw [hr.look] at hnone
    cases hnone

end Persist

/-- After an error of `try_advance`, memory is unchanged in any case; a later `open`
yields the same mark if and only if it would have before the call and the operation
that failed was not one on the directory. After an error of `create` on an absent path,
the path is absent if and only if the operation that failed was not one on the
directory. -/
theorem refused_advance_iff (F : Faults) (sha3 : Bytes → Blob 32) (anchor : Bytes) (p : Nat)
    (e : HighWaterMarkError) (w w' : MarkWorld) :
    (∀ m m' version, Live sha3 anchor p m w →
      (markMachine F).Runs (fun _ _ => True) p (asAdvance m version (tryAdvance version)) w
        (.ret (m', .refused e)) w' →
      m' = some m ∧ ((m'.map HighWaterMark.mark = some m.mark ∧
          OpensWith F sha3 m.path anchor w' m.mark) ↔
        OpensWith F sha3 m.path anchor w m.mark ∧ ¬ EndsOnDirectory w w')) ∧
    ∀ path, w.disk.lock = none → Tidy (sibling path "tmp") path w.disk →
      w.disk.lookup path = none → MarkReturns F p (create sha3 path anchor) w (.error e) w' →
      (w'.disk.lookup path = none ↔ ¬ EndsOnDirectory w w') := by
  refine ⟨fun m m' version hlive h => ?_, fun path hl ht hn h => create_error hl ht hn h⟩
  unfold asAdvance at h
  rw [(commits_tryAdvance m version).bind] at h
  obtain ⟨r, w₁, h, h₂⟩ := Machine.runs_bind.mp h
  rcases r with e' | ⟨m₁, _ | mark⟩
  · obtain ⟨heq, rfl⟩ := Machine.runs_ret.mp h₂
    cases heq
    refine ⟨rfl, ?_⟩
    obtain ⟨hnew, h⟩ := advance_error h
    obtain ⟨-, hend⟩ := persist_error hlive.lock hlive.tidy h
    rw [opensWith_iff, opensWith_iff]
    rcases hend with ⟨hd, hs⟩ | ⟨hd, i, hr⟩
    · simp only [reads_scratch hs]
      exact ⟨fun h => ⟨h.2, hd⟩, fun h => ⟨rfl, h.1⟩⟩
    · refine ⟨?_, fun h => absurd hd h.2⟩
      intro h
      obtain ⟨-, m₂, hm₂, heq⟩ := h
      rw [hlive.tag] at hr
      exact absurd (heq.symm.trans (reads_replaced hr hm₂)) (mark_ne hnew)
  · cases (Machine.runs_ret.mp h₂).1
  · cases (Machine.runs_ret.mp h₂).1

/-! ## Two refused updates -/

/-- A new mark of `anchor-A`, held by process 0. -/
def newMark : HighWaterMark := ⟨⟨"state", "mark"⟩, fingerprint (fun _ => digestA) anchorA, 0, false⟩
def newWorld : MarkWorld :=
  ⟨Disk.single newMark.path (toUtf8 (stateLine newMark.fingerprint none)) (some 0), []⟩

theorem live_newMark : Live (fun _ => digestA) anchorA 0 newMark newWorld :=
  ⟨rfl, rfl, tidy_single (sibling_ne _ _) _ _⟩

theorem opens_newWorld (F : Faults) :
    OpensWith F (fun _ => digestA) newMark.path anchorA newWorld newMark.mark := by
  refine opensWith_iff.mpr ⟨newMark, ⟨0, Disk.single_lookup _ _ _, ?_⟩, rfl⟩
  show openFrom newMark.path newMark.fingerprint
    (.ok ((Disk.single newMark.path _ (some 0)).inode 0).content) = _
  rw [Disk.single_content]
  exact openFrom_ok (parse_stateLine (fun _ => digestA) anchorA none)

/-- `persist` when only the directory cannot be synced. -/
theorem runs_persist_unsynced (F : Faults) (p : Nat) (w : MarkWorld) (m : HighWaterMark)
    (version : Option UInt32) (e : IoError) : ∃ w',
    MarkReturns F p (persist m version) w (.error (.io e)) w' ∧ EndsOnDirectory w w' := by
  obtain ⟨i, hi⟩ := createAt_lookup w.disk (sibling m.path "tmp")
  set f := w.disk.handles
  let bs := toUtf8 (stateLine m.fingerprint version)
  let d := ((((w.disk.createAt (sibling m.path "tmp")).writeTo f bs).syncFile f).renamed
    (sibling m.path "tmp") m.path i)
  let l : List MarkEv := [.op .syncDir (.error e), .op .openDir (.ok ()),
    .op (.rename (sibling m.path "tmp") m.path) (.ok ()), .op (.sync f) (.ok ()),
    .op (.write f bs) (.ok ()), .op (.create (sibling m.path "tmp")) (.ok f)]
  refine ⟨⟨d, l ++ w.log⟩, ?_, ⟨l, rfl, trivial⟩⟩
  refine runs_op (.create (sibling m.path "tmp")) (.ok f) _ trivial trivial ⟨rfl, rfl⟩ ?_
  refine runs_op (.write f bs) (.ok ()) _ trivial trivial rfl ?_
  refine runs_op (.sync f) (.ok ()) _ trivial trivial rfl ?_
  refine runs_op (.rename _ _) (.ok ()) d trivial trivial ⟨i, hi, rfl⟩ ?_
  refine runs_op .openDir (.ok ()) d trivial trivial rfl ?_
  exact runs_op .syncDir (.error e) d trivial trivial rfl .refl

/-- The temporary cannot be created: nothing moved. -/
theorem refused_advance_iff_sample : ∃ w', (markMachine ⟨fun _ _ _ => True, fun _ _ => True⟩).Runs
      (fun _ _ => True) 0 (asAdvance newMark 1 (tryAdvance 1)) newWorld
      (.ret (some newMark, .refused (.io ⟨.other, "Is a directory"⟩))) w' ∧
    OpensWith ⟨fun _ _ _ => True, fun _ _ => True⟩ (fun _ => digestA) newMark.path anchorA w' none := by
  let e : IoError := ⟨.other, "Is a directory"⟩
  let w' : MarkWorld := ⟨newWorld.disk, [.op (.create (sibling newMark.path "tmp")) (.error e)]⟩
  have hrun : (markMachine ⟨fun _ _ _ => True, fun _ _ => True⟩).Runs (fun _ _ => True) 0
      (asAdvance newMark 1 (tryAdvance 1)) newWorld
      (.ret (some newMark, .refused (.io e))) w' :=
    runs_op (.create (sibling newMark.path "tmp")) (.error e) _ trivial trivial rfl .refl
  refine ⟨w', hrun, ?_⟩
  have h := (refused_advance_iff _ (fun _ => digestA) anchorA 0 (.io e) newWorld w').1 newMark
    (some newMark) 1 live_newMark hrun
  refine (h.2.mpr ⟨opens_newWorld _, ?_⟩).2
  rw [endsOnDirectory_iff (l := [.op (.create (sibling newMark.path "tmp")) (.error e)]) rfl]
  exact id

/-- The directory cannot be synced: version 1 is refused, and the next `open`
starts above it. -/
theorem refused_update_moved : ∃ F w' e,
    (markMachine F).Runs (fun _ _ => True) 0 (asAdvance newMark 1 (tryAdvance 1)) newWorld
      (.ret (some newMark, .refused e)) w' ∧
    Live (fun _ => digestA) anchorA 0 newMark newWorld ∧
    OpensWith F (fun _ => digestA) newMark.path anchorA newWorld none ∧
    OpensWith F (fun _ => digestA) newMark.path anchorA w' (some 1) := by
  let F : Faults := ⟨fun _ _ _ => True, fun _ _ => True⟩
  obtain ⟨w', hrun, hdir⟩ := runs_persist_unsynced F 0 newWorld newMark (some 1)
    ⟨.other, "Input/output error"⟩
  have hcall : (markMachine F).Runs (fun _ _ => True) 0 (asAdvance newMark 1 (tryAdvance 1))
      newWorld (.ret (some newMark, .refused (.io ⟨.other, "Input/output error"⟩))) w' := by
    unfold asAdvance
    rw [(commits_tryAdvance newMark 1).bind]
    exact Machine.runs_bind.mpr ⟨.error _, w', runs_try.mpr (.inr ⟨_, hrun, rfl⟩), .refl⟩
  refine ⟨F, w', _, hcall, live_newMark, opens_newWorld F, ?_⟩
  obtain ⟨-, ⟨hd, -⟩ | ⟨-, i, hr⟩⟩ := persist_error live_newMark.lock live_newMark.tidy hrun
  · exact absurd hdir hd
  · refine opensWith_iff.mpr ⟨⟨newMark.path, newMark.fingerprint, 1, true⟩, ⟨i, hr.look, ?_⟩, rfl⟩
    rw [hr.file, File.content_sync, File.content_writeAt_nil]
    exact openFrom_ok (parse_stateLine (fun _ => digestA) anchorA (some 1))

end Drot.L2.Freshness

namespace Drot.L2.SlotCounter
open Bytes Text L1.SlotRecord
open L1.Message (XmssPublicKey XmssSignature)

/-! ## The existence query -/

/-- The metadata queries made so far. -/
def queries (log : List SlotEv) : Nat :=
  log.countP fun
    | .op (.metadata _) _ => true
    | _ => false

/-- Storage in which the `n`-th metadata query is answered `q n` whatever is at the
path: a link whose target is missing and an entry whose metadata cannot be read
answer with an error. -/
def askedMachine (F : Faults) (q : Nat → Except IoError Unit) :
    Machine SlotOp (Ans SignAns) SlotWorld :=
  { diskMachine F with
    exec := fun p w op r w' =>
      match op, r with
      | .metadata a, r => r = q (queries w.log) ∧ w' = ⟨w.disk, .op (.metadata a) r :: w.log⟩
      | op, r => (diskMachine F).exec p w op r w' }

/-- mirrors src/demo/src/bin/signer.rs:106-124 (the reports are left out) -/
def openOrCreate (sha3 : Bytes → Blob 32) (path : Path) (pk : XmssPublicKey)
    (slotStart slotEnd : UInt32) : SlotIo AtomicSlotCounter := do
  if ← pathExists path then open_ sha3 path pk slotEnd
  else create sha3 path pk slotStart slotEnd

section
variable {sha3 : Bytes → Blob 32} {path : Path} {pk : XmssPublicKey} {slotStart slotEnd : UInt32}
  {F : Faults} {p : Nat} {q : Nat → Except IoError Unit} {w w' : SlotWorld}
  {x : Except AtomicSlotCounterError AtomicSlotCounter}

/-- The world after the next query. -/
def queried (q : Nat → Except IoError Unit) (path : Path) (w : SlotWorld) : SlotWorld :=
  ⟨w.disk, .op (.metadata path) (q (queries w.log)) :: w.log⟩

theorem queries_queried : queries (queried q path w).log = queries w.log + 1 :=
  List.countP_cons_of_pos rfl

/-- `Path::exists` is whether the query succeeded. -/
theorem returns_pathExists {α : Type} {k : Bool → SlotIo α} {x : Except AtomicSlotCounterError α} :
    Returns (askedMachine F q) p (pathExists path >>= k) w x w' ↔
      Returns (askedMachine F q) p (k (q (queries w.log)).isOk) (queried q path w) x w' := by
  unfold pathExists queried
  rw [Returns, runs_io]
  constructor
  · intro h
    obtain ⟨r, w₁, -, ⟨hr, rfl⟩, ⟨a, ha, h⟩ | ⟨e, he, -⟩⟩ := h
    · rw [← hr]
      cases r with
      | ok u => cases ha; exact h
      | error e => cases ha; exact h
    · cases r <;> cases he
  · intro h
    refine ⟨q (queries w.log), _, trivial, ⟨rfl, rfl⟩, .inl ⟨(q (queries w.log)).isOk, ?_, h⟩⟩
    cases q (queries w.log) <;> rfl

theorem faithful_asked : Faithful F p (askedMachine F q) := by
  intro w op r w' hop h
  cases op <;> first | exact h | exact absurd rfl (hop _)

/-- When the query fails, `create` installs a new journal. -/
theorem create_of_error {e : IoError} (hl : w.disk.lock = none)
    (hq : q (queries w.log) = .error e) : ∃ f w',
    Returns (askedMachine F q) p (create sha3 path pk slotStart slotEnd) w
      (.ok ⟨f, keyFingerprint sha3 pk, 0, slotStart.toUInt64, slotEnd⟩) w' := by
  set w₁ : SlotWorld := ⟨{ w.disk with lock := some p }, w.log⟩
  obtain ⟨w', h⟩ := runs_installCounter F p sha3 path (keyFingerprint sha3 pk) slotEnd
    slotStart.toUInt64 (queried q path w₁)
  have hrun : Returns (askedMachine F q) p
      (installCounter sha3 path (keyFingerprint sha3 pk) slotEnd slotStart.toUInt64)
      (queried q path w₁)
      (.ok ⟨w₁.disk.handles, keyFingerprint sha3 pk, 0, slotStart.toUInt64, slotEnd⟩) w' := by
    refine h.of_restrict.transfer (S := fun op => ∀ q, op ≠ .metadata q) ?_ ?_ (fun _ _ _ h => h)
    · refine Prog.only_bind only_atomicReplace fun a => ?_
      cases a <;> exact trivial
    · intro w op r w' hop hx
      cases op <;> first | exact hx | exact absurd rfl (hop _)
  refine ⟨w₁.disk.handles, w', runs_takeLock.mpr ⟨.acquired, w₁, trivial,
    ⟨trivial, ⟨hl, rfl⟩, rfl⟩, ?_⟩⟩
  refine returns_pathExists.mpr ?_
  rw [show q (queries w₁.log) = .error e from hq]
  exact hrun

/-- When it succeeds, `create` fails and touches nothing. -/
theorem create_of_ok {u : Unit} (hq : q (queries w.log) = .ok u)
    (h : Returns (askedMachine F q) p (create sha3 path pk slotStart slotEnd) w x w') :
    (∃ e, x = .error e) ∧ SameFiles w.disk w'.disk := by
  obtain ⟨r, w₁, -, ⟨-, hx, hlog⟩, h⟩ := runs_takeLock.mp h
  cases r with
  | wouldBlock =>
    obtain ⟨-, hx⟩ := hx
    obtain ⟨hx', rfl⟩ := h
    exact ⟨⟨_, hx'⟩, by rw [hx]; exact ⟨rfl, rfl, rfl⟩⟩
  | failed e =>
    obtain ⟨hx', rfl⟩ := h
    have hx : w'.disk = w.disk := hx
    exact ⟨⟨_, hx'⟩, by rw [hx]; exact ⟨rfl, rfl, rfl⟩⟩
  | acquired =>
    obtain ⟨-, hx⟩ := hx
    have h := returns_pathExists.mp h
    rw [show w₁.log = w.log from hlog, hq] at h
    obtain ⟨rfl, rfl⟩ := Machine.runs_ret.mp h
    refine ⟨⟨_, rfl⟩, ?_⟩
    show SameFiles w.disk w₁.disk
    rw [hx]
    exact ⟨rfl, rfl, rfl⟩

/-- `open` resumes the journal it finds. -/
theorem open_of_journal {M : Machine SlotOp (Ans SignAns) SlotWorld} (hM : Faithful F p M) {i : Nat}
    {record : JournalRecord} {c : AtomicSlotCounter} (hl : w.disk.lock = none)
    (hi : w.disk.lookup path = some i)
    (hrec : recoverJournal sha3 (w.disk.inode i).content (keyFingerprint sha3 pk) slotEnd =
      .ok record)
    (h : Returns M p (open_ sha3 path pk slotEnd) w (.ok c) w') : c.next = record.nextFree := by
  rcases returns_open hM hl h with ⟨⟨e, he⟩, -⟩ | ⟨j, d, l, hj, -, -, -, h⟩
  · cases he
  · obtain rfl : i = j := Option.some.inj (hi.symm.trans hj)
    rw [resume_journal hrec] at h
    cases (Machine.runs_ret.mp h).1
    rfl

end

/-- An entry at the path, whatever the existence queries answer: `create` fails and
leaves the files as they are, if and only if its query succeeds. 'Open if the path
exists, else create' makes two queries; it resumes a live counter, and never restarts
it, if and only if one of the two succeeds. -/
theorem create_keeps_entry_iff (F : Faults) (q : Nat → Except IoError Unit)
    (sha3 : Bytes → Blob 32) (path : Path) (pk : XmssPublicKey) (slotStart slotEnd : UInt32)
    (p : Nat) (w : SlotWorld) (i : Nat) (hl : w.disk.lock = none) (hi : w.disk.lookup path = some i) :
    ((∀ x w', Returns (askedMachine F q) p (create sha3 path pk slotStart slotEnd) w x w' →
        (∃ e, x = .error e) ∧ SameFiles w.disk w'.disk) ↔ (q (queries w.log)).isOk = true) ∧
    ∀ record, recoverJournal sha3 (w.disk.inode i).content (keyFingerprint sha3 pk) slotEnd =
        .ok record → record.nextFree ≠ slotStart.toUInt64 →
      ((∀ c w', Returns (askedMachine F q) p (openOrCreate sha3 path pk slotStart slotEnd) w
          (.ok c) w' → c.next = record.nextFree) ↔
        (q (queries w.log)).isOk = true ∨ (q (queries w.log + 1)).isOk = true) := by
  constructor
  · cases hq : q (queries w.log) with
    | ok u => exact ⟨fun _ => rfl, fun _ x w' h => create_of_ok hq h⟩
    | error e =>
      refine ⟨fun hall => ?_, fun h => by cases h⟩
      obtain ⟨f, w', h⟩ := create_of_error (F := F) (p := p) (w := w) hl hq
      obtain ⟨⟨e', he⟩, -⟩ := hall _ w' h
      cases he
  intro record hrec hne
  cases hq : q (queries w.log) with
  | ok u =>
    refine ⟨fun _ => .inl rfl, fun _ c w' h => ?_⟩
    have h := returns_pathExists.mp h
    rw [hq] at h
    exact open_of_journal faithful_asked (w := queried q path w) hl hi hrec h
  | error e =>
    -- the query of `create` decides
    have hcreate : ∀ c w', Returns (askedMachine F q) p (openOrCreate sha3 path pk slotStart slotEnd)
        w (.ok c) w' ↔ Returns (askedMachine F q) p (create sha3 path pk slotStart slotEnd)
          (queried q path w) (.ok c) w' := by
      intro c w'
      unfold openOrCreate
      rw [returns_pathExists, hq]
      exact Iff.rfl
    simp only [hcreate]
    cases hq' : q (queries w.log + 1) with
    | ok u =>
      refine ⟨fun _ => .inr rfl, fun _ c w' h => ?_⟩
      obtain ⟨⟨e', he⟩, -⟩ := create_of_ok (by rw [queries_queried]; exact hq') h
      cases he
    | error e' =>
      refine ⟨fun hall => ?_, fun h => by rcases h with h | h <;> cases h⟩
      obtain ⟨f, w', h⟩ := create_of_error (F := F) (p := p) (q := q) (w := queried q path w) hl
        (by rw [queries_queried]; exact hq')
      exact absurd (hall _ w' h).symm hne

open SlotJournal (slotFaults sampleDigest0 recover_image)

/-- SHA3-256 on what is hashed below: the sample key, and the records of
generation 0 with the frontiers 0 and 5. -/
def digest5 : Blob 32 :=
  ⟨[0x93, 0x55, 0xec, 0x36, 0xbf, 0xef, 0x8a, 0x7c, 0xdc, 0x46, 0xff, 0x76, 0xae, 0x3c, 0xfa, 0xa7,
    0xa9, 0x97, 0x4f, 0x40, 0x18, 0x76, 0x61, 0x87, 0x61, 0xfa, 0xd0, 0x48, 0xb5, 0x55, 0xd8, 0xa1], rfl⟩
def liveSha3 (bytes : Bytes) : Blob 32 :=
  if bytes = demoKey.1 then sampleTag
  else if bytes = recordHead ⟨0, 0, sampleTag⟩ then sampleDigest0
  else digest5

/-- A live counter whose next free slot is 5. -/
def liveWorld : SlotWorld :=
  ⟨Disk.single demoPath (journalImage liveSha3 (keyFingerprint liveSha3 demoKey) 5) none, []⟩

theorem recover_liveWorld : recoverJournal liveSha3 (liveWorld.disk.inode 0).content
    (keyFingerprint liveSha3 demoKey) 7 = .ok ⟨0, 5, keyFingerprint liveSha3 demoKey⟩ := by
  show recoverJournal liveSha3 ((Disk.single demoPath _ none).inode 0).content _ 7 = _
  rw [Disk.single_content]
  exact recover_image liveSha3 _ (by decide)

/-- The first query fails and the second succeeds. -/
def onceFailing (n : Nat) : Except IoError Unit :=
  if n = 0 then .error ⟨.other, "Input/output error"⟩ else .ok ()

theorem create_keeps_entry_iff_sample :
    (∀ x w', Returns (askedMachine (slotFaults liveSha3) fun _ => .ok ()) 0
      (create liveSha3 demoPath demoKey 0 7) liveWorld x w' →
      (∃ e, x = .error e) ∧ SameFiles liveWorld.disk w'.disk) ∧
    ∀ c w', Returns (askedMachine (slotFaults liveSha3) onceFailing) 0
      (openOrCreate liveSha3 demoPath demoKey 0 7) liveWorld (.ok c) w' → c.next = 5 := by
  have hcreate := create_keeps_entry_iff (slotFaults liveSha3) (fun _ => .ok ()) liveSha3 demoPath
    demoKey 0 7 0 liveWorld 0 rfl (Disk.single_lookup _ _ _)
  have hopen := create_keeps_entry_iff (slotFaults liveSha3) onceFailing liveSha3 demoPath
    demoKey 0 7 0 liveWorld 0 rfl (Disk.single_lookup _ _ _)
  exact ⟨hcreate.1.mpr rfl, (hopen.2 _ recover_liveWorld (by decide)).mpr (.inr rfl)⟩

/-- The metadata of the entry cannot be read: `create` succeeds over it, and the
key starts again at slot 0. -/
theorem live_counter_reset : ∃ c w',
    Returns (askedMachine (slotFaults liveSha3) fun _ => .error ⟨.other, "Input/output error"⟩) 0
      (create liveSha3 demoPath demoKey 0 7) liveWorld (.ok c) w' ∧
    liveWorld.disk.lookup demoPath = some 0 ∧ c.next = 0 := by
  obtain ⟨f, w', h⟩ := create_of_error (F := slotFaults liveSha3) (p := 0) (w := liveWorld)
    (q := fun _ => .error ⟨.other, "Input/output error"⟩) rfl rfl
  exact ⟨_, w', h, Disk.single_lookup _ _ _, rfl⟩

end Drot.L2.SlotCounter
