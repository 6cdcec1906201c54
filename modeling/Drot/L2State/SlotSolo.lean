import Drot.L2State.SlotOutline

/-!
# Complete calls of one process

What a call of `create`, `open`, `reserve` or `reserve_at` returns and leaves when
its process is alone and is not killed: every operation may fail (`diskMachine`),
or all of them do what they are asked to do (`goodMachine`).
-/
namespace Drot.L2.SlotCounter
open Bytes Text L1.SlotRecord
open L1.Message (XmssPublicKey XmssSignature)

/-- Storage in which every call may fail. -/
def diskMachine (F : Faults) : Machine SlotOp (Ans SignAns) SlotWorld :=
  storage F (fun _ _ => True) (Disk.powerFail F)

/-- Storage in which every call succeeds. -/
def goodMachine (F : Faults) : Machine SlotOp (Ans SignAns) SlotWorld :=
  (diskMachine F).restrict Succeeds

/-- A complete run of `x`, from `w` to `w'`, that returns `r`. -/
abbrev Returns {ε α : Type} (M : Machine SlotOp (Ans SignAns) SlotWorld) (p : Nat)
    (x : ExceptT ε SlotProg α) (w : SlotWorld) (r : Except ε α) (w' : SlotWorld) : Prop :=
  M.Runs (fun _ _ => True) p x.run w (.ret r) w'

/-- A complete run of a method on `c` that returns `r` and leaves the counter `c'`. -/
abbrev Calls {α : Type} (M : Machine SlotOp (Ans SignAns) SlotWorld) (p : Nat) (x : SlotMut α)
    (c : AtomicSlotCounter) (w : SlotWorld) (r : Except AtomicSlotCounterError α)
    (c' : AtomicSlotCounter) (w' : SlotWorld) : Prop :=
  M.Runs (fun _ _ => True) p (x.run.run c) w (.ret (r, c')) w'

/-- `M` answers like storage with faults `F`, metadata queries aside. -/
def Faithful (F : Faults) (p : Nat) (M : Machine SlotOp (Ans SignAns) SlotWorld) : Prop :=
  ∀ w op r w', (∀ q, op ≠ .metadata q) → M.exec p w op r w' → (diskMachine F).exec p w op r w'

/-- Some operation was answered with an error. -/
def Fails (M : Machine SlotOp (Ans SignAns) SlotWorld) (p : Nat) : Prop :=
  ∃ w op r w', M.exec p w op r w' ∧ ¬ Succeeds op r

variable {sha3 : Bytes → Blob 32} {path : Path} {pk : XmssPublicKey} {slotEnd : UInt32}
  {F : Faults} {p : Nat} {M : Machine SlotOp (Ans SignAns) SlotWorld} {w w' : SlotWorld}

theorem faithful_disk : Faithful F p (diskMachine F) := fun _ _ _ _ _ h => h

theorem faithful_good : Faithful F p (goodMachine F) := fun _ _ _ _ _ h => h.2

theorem not_fails_good : ¬ Fails (goodMachine F) p := by
  intro h
  obtain ⟨w, op, r, w', h, hn⟩ := h
  exact hn h.1

theorem calls_iff {α : Type} {x : SlotMut α} {y : SlotIo (AtomicSlotCounter × α)}
    {c c' : AtomicSlotCounter} {r : Except AtomicSlotCounterError α} (hy : Prog.Commits x c y) :
    Calls M p x c w r c' w' ↔ ∃ z, Returns M p y w z w' ∧ Prog.committed c z = (r, c') := by
  rw [Calls, show x.run.run c = _ from hy, Machine.runs_bind]
  refine exists_congr fun z => ⟨fun h => ?_, fun h => ?_⟩
  · obtain ⟨w₁, h, hret⟩ := h
    obtain ⟨heq, rfl⟩ := Machine.runs_ret.mp hret
    exact ⟨h, heq.symm⟩
  · exact ⟨w', h.1, Machine.runs_ret.mpr ⟨h.2.symm, rfl⟩⟩

theorem calls_ok_iff {α : Type} {x : SlotMut α} {y : SlotIo (AtomicSlotCounter × α)}
    {c c' : AtomicSlotCounter} {a : α} (hy : Prog.Commits x c y) :
    Calls M p x c w (.ok a) c' w' ↔ Returns M p y w (.ok (c', a)) w' := by
  rw [calls_iff hy]
  constructor
  · intro h
    obtain ⟨z, h, hz⟩ := h
    cases z with
    | ok z => cases hz; exact h
    | error e => cases hz
  · exact fun h => ⟨_, h, rfl⟩

/-- One operation: an error ends the call, an answer goes on. -/
theorem returns_io (hM : Faithful F p M) {α β : Type} {conv : IoError → AtomicSlotCounterError}
    {op : SlotOp} {g : Ans SignAns op → Except IoError α} {k : α → SlotIo β}
    {x : Except AtomicSlotCounterError β} (hop : ∀ q, op ≠ .metadata q)
    (hs : ∀ r e, g r = .error e → ¬ Succeeds op r) (h : Returns M p (io conv op g >>= k) w x w') :
    ((∃ e, x = .error e) ∧ Fails M p) ∨ ∃ r a d l, g r = .ok a ∧
      Disk.exec F p w.disk op r d ∧ Returns M p (k a) ⟨d, l⟩ x w' := by
  obtain ⟨r, ⟨d, l⟩, -, hx, ⟨a, ha, h⟩ | ⟨e, he, h, -⟩⟩ := runs_io.mp h
  · exact .inr ⟨r, a, d, l, ha, (hM _ _ _ _ hop hx).2.1, h⟩
  · exact .inl ⟨⟨_, h⟩, _, _, _, _, hx, hs r e he⟩

/-- `open` fails before it reads, or it resumes from the content of the file. -/
theorem returns_open (hM : Faithful F p M) {x : Except AtomicSlotCounterError AtomicSlotCounter}
    (hl : w.disk.lock = none) (h : Returns M p (open_ sha3 path pk slotEnd) w x w') :
    ((∃ e, x = .error e) ∧ Fails M p) ∨
      ∃ i d l, w.disk.lookup path = some i ∧ SameFiles w.disk d ∧ d.lock = some p ∧
        (d.handle w.disk.handles).ino = i ∧
        Returns M p (resume sha3 path (keyFingerprint sha3 pk) slotEnd w.disk.handles
          (w.disk.inode i).content) ⟨d, l⟩ x w' := by
  unfold open_ acquireLock at h
  obtain ⟨r, w₁, -, hx, h⟩ := runs_takeLock.mp h
  have hx' := (hM _ _ _ _ (by simp) hx).2
  cases r with
  | wouldBlock => exact absurd hl hx'.1.1
  | failed e => exact .inl ⟨⟨_, h.1⟩, _, _, _, _, hx, by simp [Succeeds]⟩
  | acquired =>
  obtain ⟨d₁, l₁⟩ := w₁
  obtain ⟨⟨-, rfl⟩, -⟩ := hx'
  rcases returns_io hM (by simp) (by rintro _ _ rfl ⟨⟩) h with hf | ⟨_, f, d₂, l₂, rfl, hx, h⟩
  · exact .inl hf
  obtain ⟨i, hi, rfl, rfl⟩ := hx
  rcases returns_io hM (by simp) (by rintro _ _ rfl ⟨⟩) h with hf | ⟨_, raw, d₃, l₃, rfl, hx, h⟩
  · exact .inl hf
  obtain ⟨hraw, rfl⟩ := hx
  set d : Disk Path := { w.disk with lock := some p }
  have hopen : (d.openAt i).handle d.handles = ⟨i, 0⟩ := Disk.openAt_handle d i
  have hcontent : (w.disk.inode i).content = raw := by
    have e : raw = (d.inode ((d.openAt i).handle d.handles).ino).content.drop
        ((d.openAt i).handle d.handles).pos := hraw
    rw [e, hopen]
    rfl
  rw [← hcontent] at h
  refine .inr ⟨i, (d.openAt i).seekTo d.handles
    (((d.openAt i).handle d.handles).pos + (w.disk.inode i).content.length), l₃, hi,
    ⟨rfl, rfl, rfl⟩, rfl, ?_, h⟩
  show (Function.update (d.openAt i).handle d.handles _ d.handles).ino = i
  rw [Function.update_self]
  show ((d.openAt i).handle d.handles).ino = i
  rw [hopen]

/-- When nothing fails, `open` gets to the content of the file. -/
theorem runs_open_good (F : Faults) (p : Nat) (sha3 : Bytes → Blob 32) (pk : XmssPublicKey)
    (slotEnd : UInt32) {i : Nat} (hl : w.disk.lock = none) (hi : w.disk.lookup path = some i) :
    ∃ d l, (goodMachine F).Runs (fun _ _ => True) p (open_ sha3 path pk slotEnd).run w
      (resume sha3 path (keyFingerprint sha3 pk) slotEnd w.disk.handles
        (w.disk.inode i).content).run ⟨d, l⟩ := by
  set d : Disk Path := { w.disk with lock := some p }
  have hopen : (d.openAt i).handle d.handles = ⟨i, 0⟩ := Disk.openAt_handle d i
  refine ⟨(d.openAt i).seekTo d.handles (w.disk.inode i).content.length,
    .op (.readToEnd d.handles) (.ok (w.disk.inode i).content) ::
      .op (.openFile path) (.ok d.handles) :: w.log, ?_⟩
  refine runs_good .tryLock .acquired d trivial trivial rfl ⟨hl, rfl⟩ ?_
  refine runs_good (.openFile path) (.ok d.handles) _ trivial trivial rfl ⟨i, hi, rfl, rfl⟩ ?_
  refine runs_good (.readToEnd d.handles) (.ok (w.disk.inode i).content)
    ((d.openAt i).seekTo d.handles (w.disk.inode i).content.length) trivial trivial rfl ⟨?_, ?_⟩ ?_
  · show _ = (d.inode ((d.openAt i).handle d.handles).ino).content.drop
      ((d.openAt i).handle d.handles).pos
    rw [hopen]
    rfl
  · show _ = (d.openAt i).seekTo d.handles (((d.openAt i).handle d.handles).pos + _)
    rw [hopen, Nat.zero_add]
  · exact .refl

/-- `install_journal` and the counter over the new journal: what `create` and a
migration end with. -/
def installCounter (sha3 : Bytes → Blob 32) (path : Path) (keyTag : Blob 32) (slotEnd : UInt32)
    (next : UInt64) : SlotIo AtomicSlotCounter := do
  let stateFile ← installJournal sha3 path keyTag next
  return { stateFile, keyTag, generation := 0, next, slotEnd }

/-- It fails, or the counter starts at `next` and the path holds the journal image. -/
theorem returns_installCounter {keyTag : Blob 32} {next : UInt64}
    {x : Except AtomicSlotCounterError AtomicSlotCounter}
    (h : Returns (diskMachine F) p (installCounter sha3 path keyTag slotEnd next) w x w') :
    (∃ e, x = .error e) ∨ ∃ f, x = .ok ⟨f, keyTag, 0, next, slotEnd⟩ ∧
      (w.disk.lock = some p → Tidy (sibling path "tmp") path w.disk →
        Installed (sibling path "tmp") path (journalImage sha3 keyTag next)
          (w'.disk.handle f).ino w.disk w'.disk ∧ w'.disk.lock = some p) := by
  rcases runs_try.mp h with ⟨f, w₁, h₁, h₂⟩ | ⟨e, -, rfl⟩
  · obtain ⟨rfl, rfl⟩ := Machine.runs_ret.mp h₂
    refine .inr ⟨f, rfl, fun hl ht => ?_⟩
    obtain ⟨hl', -, hend⟩ := atomicReplace_end (sibling_ne path "tmp") hl ht h₁
    cases hend with
    | done _ hi => exact ⟨hi, hl'⟩
  · exact .inl ⟨e, rfl⟩

/-- It does not fail when no operation does. -/
theorem returns_installCounter_good {keyTag : Blob 32} {next : UInt64}
    {x : Except AtomicSlotCounterError AtomicSlotCounter}
    (h : Returns (goodMachine F) p (installCounter sha3 path keyTag slotEnd next) w x w') :
    ∃ f, x = .ok ⟨f, keyTag, 0, next, slotEnd⟩ := by
  rcases runs_try.mp h with ⟨f, w₁, -, h₂⟩ | ⟨e, h₁, -⟩
  · exact ⟨f, (Machine.runs_ret.mp h₂).1⟩
  · obtain ⟨f, hf⟩ := yields_atomicReplace.mp h₁.yields
    cases hf

theorem runs_installCounter (F : Faults) (p : Nat) (sha3 : Bytes → Blob 32) (path : Path)
    (keyTag : Blob 32) (slotEnd : UInt32) (next : UInt64) (w : SlotWorld) : ∃ w',
    Returns (goodMachine F) p (installCounter sha3 path keyTag slotEnd next) w
      (.ok ⟨w.disk.handles, keyTag, 0, next, slotEnd⟩) w' := by
  obtain ⟨d, l, h, -, -⟩ := runs_atomicReplace F (Disk.powerFail F) p AtomicSlotCounterError.io
    (sibling path "tmp") path (journalImage sha3 keyTag next) w (fun _ _ _ => trivial)
  exact ⟨_, runs_try.mpr (.inl ⟨_, _, h, .refl⟩)⟩

/-- The disk after `persist_next`: the record of the next generation in its
region, synced. -/
def burnedDisk (sha3 : Bytes → Blob 32) (c : AtomicSlotCounter) (nextFree : UInt64)
    (d : Disk Path) : Disk Path :=
  ((d.seekTo c.stateFile ((c.generation + 1).toNat % 2 * journalSlotSize)).writeTo c.stateFile
    (encodeRecord sha3 ⟨c.generation + 1, nextFree, c.keyTag⟩)).syncFile c.stateFile

theorem burnedDisk_ino (sha3 : Bytes → Blob 32) (c : AtomicSlotCounter) (nextFree : UInt64)
    (d : Disk Path) : ((burnedDisk sha3 c nextFree d).handle c.stateFile).ino =
      (d.handle c.stateFile).ino := by
  simp [burnedDisk]

theorem burnedDisk_file (sha3 : Bytes → Blob 32) (c : AtomicSlotCounter) (nextFree : UInt64)
    (d : Disk Path) : (burnedDisk sha3 c nextFree d).inode (d.handle c.stateFile).ino =
      ((d.file c.stateFile).writeAt ((c.generation + 1).toNat % 2 * journalSlotSize)
        (encodeRecord sha3 ⟨c.generation + 1, nextFree, c.keyTag⟩)).sync :=
  Disk.burned_inode d c.stateFile _ _

/-- `persist_next` fails because an operation does, or burns. -/
theorem returns_persisted (hM : Faithful F p M) {c : AtomicSlotCounter} {nextFree : UInt64}
    {x : Except AtomicSlotCounterError AtomicSlotCounter}
    (hg : c.generation.toNat + 1 < 2 ^ 64)
    (h : Returns M p (persisted sha3 c nextFree) w x w') :
    ((∃ e, x = .error e) ∧ Fails M p) ∨
      (x = .ok { c with generation := c.generation + 1 } ∧
        w'.disk = burnedDisk sha3 c nextFree w.disk) := by
  unfold persisted at h
  rw [if_pos hg] at h
  rcases returns_io hM (by simp) (by rintro _ _ rfl ⟨⟩) h with hf | ⟨_, _, d₁, l₁, rfl, hx₁, h₁⟩
  · exact .inl hf
  rcases returns_io hM (by simp) (by rintro _ _ rfl ⟨⟩) h₁ with hf | ⟨_, _, d₂, l₂, rfl, hx₂, h₂⟩
  · exact .inl hf
  rcases returns_io hM (by simp) (by rintro _ _ rfl ⟨⟩) h₂ with hf | ⟨_, _, d₃, l₃, rfl, hx₃, h₃⟩
  · exact .inl hf
  obtain rfl : d₁ = _ := hx₁
  obtain rfl : d₂ = _ := hx₂
  obtain ⟨rfl, rfl⟩ := Machine.runs_ret.mp h₃
  exact .inr ⟨rfl, hx₃⟩

/-- When nothing fails, `persist_next` burns, with the state file alone. -/
theorem runs_persisted {G : SlotWorld → SlotOp → Prop} {pow : Disk Path → Disk Path → Prop}
    {Q : SlotWorld → SlotOp → Prop} (F : Faults) (p : Nat) (sha3 : Bytes → Blob 32)
    {c : AtomicSlotCounter} (nextFree : UInt64) (w : SlotWorld)
    (hg : c.generation.toNat + 1 < 2 ^ 64)
    (hG : ∀ w op, (∀ h, op ≠ .readToEnd h) → Q w op ∧ G w op) : ∃ l,
    ((storage F G pow).restrict Succeeds).Runs Q p (persisted sha3 c nextFree).run w
      (.ret (.ok { c with generation := c.generation + 1 }))
      ⟨burnedDisk sha3 c nextFree w.disk, l ++ w.log⟩ ∧ ∀ e ∈ l, e.Quiet := by
  refine ⟨[.op (.sync c.stateFile) (.ok ()),
    .op (.write c.stateFile (encodeRecord sha3 ⟨c.generation + 1, nextFree, c.keyTag⟩)) (.ok ()),
    .op (.seek c.stateFile ((c.generation + 1).toNat % 2 * journalSlotSize)) (.ok ())], ?_,
    by simp [Ev.Quiet]⟩
  unfold persisted
  rw [if_pos hg]
  have hok (w : SlotWorld) (op : SlotOp) (h : ∀ h, op ≠ .readToEnd h) := hG w op h
  refine runs_good (.seek _ _) (.ok ()) _ (hok _ _ (by simp)).1 (hok _ _ (by simp)).2 rfl rfl ?_
  refine runs_good (.write _ _) (.ok ()) _ (hok _ _ (by simp)).1 (hok _ _ (by simp)).2 rfl rfl ?_
  exact runs_good (.sync _) (.ok ()) _ (hok _ _ (by simp)).1 (hok _ _ (by simp)).2 rfl rfl .refl

/-! ## Sample values -/

/-- An empty disk before anything has run. -/
def blank : SlotWorld := ⟨.empty, []⟩

/-- A path and a key for the runs on fixed values, and the SHA3-256 digest of the key. -/
def demoPath : Path := ⟨"state", "slots"⟩
def demoKey : XmssPublicKey := ⟨List.replicate 32 0, by simp⟩
def sampleTag : Blob 32 :=
  ⟨[0x9e, 0x62, 0x91, 0x97, 0x0c, 0xb4, 0x4d, 0xd9, 0x40, 0x08, 0xc7, 0x9b, 0xca, 0xf9, 0xd8, 0x6f,
    0x18, 0xb4, 0xb4, 0x9b, 0xa5, 0xb2, 0xa0, 0x47, 0x81, 0xdb, 0x71, 0x99, 0xed, 0x3b, 0x9e, 0x4e], rfl⟩

end Drot.L2.SlotCounter
