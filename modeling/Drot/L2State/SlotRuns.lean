import Drot.L2State.SlotWindow

/-!
# Whole runs of the slot counter

`killMachine` is storage under kills and failing calls, `powerMachine` adds
power failures. The results are about every reachable state of any number of
processes that use `counterApi` on one path and one key:

* `slots_never_reused`: under kills, no slot is returned or signed twice, a
  signature call comes after a synced record that covers its slot, and the
  journal always recovers above every slot used.
* `burns_survive_power_failure`: under power failures the burns survive in
  every run in which `open` reads the state file only while its directory
  entry and the record it adopts are durable. `burn_lost` is a run in which they
  do not survive: `open` adopts a journal whose rename was never synced.
-/
namespace Drot.L2.SlotJournal
open Bytes Text L1.SlotRecord SlotCounter
open L1.Message (XmssPublicKey XmssSignature)

section
variable (sha3 : Bytes → Blob 32)

/-- Kills and failing calls, no power failure. -/
def killMachine : Machine SlotOp (Ans SignAns) SlotWorld :=
  storage (slotFaults sha3) (fun _ _ => True) (fun _ _ => False)

/-- Kills, failing calls and power failures. -/
def powerMachine : Machine SlotOp (Ans SignAns) SlotWorld :=
  storage (slotFaults sha3) (fun _ _ => True) (Disk.powerFail (slotFaults sha3))

variable (path : Path) (keyTag : Blob 32) (slotEnd : UInt32)

/-- Nothing has run yet, and the path is absent or refers to a synced file
that is not a journal; `base` is the frontier of a legacy file. -/
structure Start (base : Nat) (w : SlotWorld) : Prop where
  log : w.log = []
  lock : w.disk.lock = none
  tidy : Tidy (sibling path "tmp") path w.disk
  synced : w.disk.dir.pending = []
  file : (w.disk.lookup path = none ∧ base = 0) ∨
    ∃ i, w.disk.lookup path = some i ∧ LegacyFile keyTag base (w.disk.inode i)

/-- Whenever `open` is about to read the state file, the directory entry and
the record it will adopt are durable. -/
def OpensSynced (s : SlotSys) (a : Act) : Prop :=
  ∀ p c h k, a = .exec p → s.procs p = .busy c (.call (.readToEnd h) k) →
    Synced sha3 path keyTag slotEnd s.world.disk h

/-- The slots `leanvm::xmss::sign` was called with, newest first. -/
def signedSlots (log : List SlotEv) : List Nat :=
  log.filterMap fun
    | .op (.ext c) _ => some c.slot.toNat
    | _ => none

/-- The state file is a journal that recovers above every slot used so far. -/
def Recoverable (w : SlotWorld) : Prop :=
  ∃ i r, w.disk.lookup path = some i ∧
    recoverJournal sha3 (w.disk.inode i).content keyTag slotEnd = .ok r ∧
    (∀ s ∈ okSlots w.log, s < r.nextFree.toNat) ∧ ∀ s ∈ spentSlots w.log, s < r.nextFree.toNat

end

section Runs
variable {sha3 : Bytes → Blob 32} {path : Path} {pk : XmssPublicKey} {slotEnd : UInt32} {L : Level}
  {base : Nat}

theorem Start.inv {keyTag : Blob 32} {w : SlotWorld} (h : Start path keyTag base w) :
    Inv sha3 path keyTag slotEnd L base w := by
  refine ⟨h.tidy, .inl ⟨by rw [h.log]; simp, fun m hm => ?_⟩⟩
  have hm' : m = w.disk.dir.visible := by
    rw [Cell.visible_of_pending_nil h.synced]
    simpa [Cell.all, h.synced] using hm
  rw [hm']
  rcases h.file with hn | ⟨i, hi, hf⟩
  · exact .inl hn
  · exact .inr ⟨i, hi, .inl hf⟩

/-- The invariant holds in every reachable state of a level. -/
theorem inv_reachable {s : SlotSys}
    (hr : ((slotMachine sha3 path (keyFingerprint sha3 pk) slotEnd L).system
      (counterApi sha3 path pk slotEnd) (Start path (keyFingerprint sha3 pk) base)).Reachable s) :
    Inv sha3 path (keyFingerprint sha3 pk) slotEnd L base s.world := by
  refine ((slotOutline sha3 path pk slotEnd L base).reachable (fun w h => h.inv) ?_ s hr).1
  intro p w h ho
  have ho : w.disk.lock = some p := ho
  rw [h.lock] at ho; cases ho

theorem Inv.logged {keyTag : Blob 32} {w : SlotWorld} (h : Inv sha3 path keyTag slotEnd L base w) :
    ∃ n, Logged sha3 base n w.log := by
  obtain ⟨-, hf | ⟨i, g, n, -, -, hl⟩⟩ := h
  · exact ⟨base, .of_quiet hf.log (le_refl _)⟩
  · exact ⟨_, hl⟩

theorem Inv.recoverable {keyTag : Blob 32} {w : SlotWorld}
    (h : Inv sha3 path keyTag slotEnd L base w) {e : SlotEv} (he : e ∈ w.log) (hq : ¬ e.Quiet) :
    Recoverable sha3 path keyTag slotEnd w := by
  obtain ⟨-, hf | ⟨i, g, n, hset, hcore, hl⟩⟩ := h
  · exact absurd (hf.log e he) hq
  · obtain ⟨r, hr, hn⟩ := core_recovers hcore
    refine ⟨i, r, settled_look hset, hr, fun s hs => ?_, fun s hs => ?_⟩
    · exact (hl.okBelow s hs).2.trans_le hn
    · exact (hl.spentBelow s hs).2.trans_le hn

theorem signedSlots_sublist (log : List SlotEv) :
    (signedSlots log).Sublist (spentSlots log) := by
  induction log with
  | nil => exact .slnil
  | cons e l ih =>
    unfold signedSlots spentSlots at *
    cases e with
    | ret r => cases r <;> first | exact ih | exact .cons _ ih
    | op o r => cases o <;> first | exact ih | exact ih.cons_cons _

end Runs

/-! ## A first run -/

section Provisioning

theorem start_blank (path : Path) (keyTag : Blob 32) : Start path keyTag 0 blank :=
  ⟨rfl, rfl, tidy_empty _ _, rfl, .inl ⟨rfl, rfl⟩⟩

/-- Not the read of `open`. -/
def NoRead (_ : SlotWorld) (op : SlotOp) : Prop := ∀ h, op ≠ .readToEnd h

/-- The disk after the rename of a first `create`, by process 0. -/
def renamedDisk (sha3 : Bytes → Blob 32) (path : Path) (keyTag : Blob 32) (n : UInt64) : Disk Path :=
  Disk.renamed (Disk.syncFile (Disk.writeTo (Disk.createAt { blank.disk with lock := some 0 }
    (sibling path "tmp")) 0 (journalImage sha3 keyTag n)) 0) (sibling path "tmp") path 0

/-- The last answer of `create` decides whether it returns a counter or an
error; the rename has happened either way. -/
theorem runs_create (sha3 : Bytes → Blob 32) (path : Path) (pk : XmssPublicKey) (slotEnd : UInt32)
    (pow : Disk Path → Disk Path → Prop) (slotStart : UInt32) (r : Except IoError Unit) : ∃ l,
    (storage (slotFaults sha3) (fun _ _ => True) pow).Runs NoRead 0
      (asConstructor (create sha3 path pk slotStart slotEnd)) blank
      (.ret (match r with
        | .ok _ => (some ⟨0, keyFingerprint sha3 pk, 0, slotStart.toUInt64, slotEnd⟩,
            .opened slotStart.toUInt64)
        | .error e => (none, .refused (.io e))))
      ⟨match r with
        | .ok _ => { renamedDisk sha3 path (keyFingerprint sha3 pk) slotStart.toUInt64 with
            dir := (renamedDisk sha3 path (keyFingerprint sha3 pk) slotStart.toUInt64).dir.sync }
        | .error _ => renamedDisk sha3 path (keyFingerprint sha3 pk) slotStart.toUInt64, l⟩ ∧
    ∀ e ∈ l, e.Quiet := by
  refine ⟨[.op .syncDir r, .op .openDir (.ok ()), .op (.rename (sibling path "tmp") path) (.ok ()),
    .op (.sync 0) (.ok ()),
    .op (.write 0 (journalImage sha3 (keyFingerprint sha3 pk) slotStart.toUInt64)) (.ok ()),
    .op (.create (sibling path "tmp")) (.ok 0), .op (.metadata path) (.error ⟨.notFound, ""⟩)],
    ?_, by simp [Ev.Quiet]⟩
  refine runs_op .tryLock .acquired _ (by simp [NoRead]) trivial ⟨rfl, rfl⟩ ?_
  refine runs_op (.metadata path) (.error ⟨.notFound, ""⟩) _ (by simp [NoRead]) trivial
     ⟨rfl, rfl, rfl⟩ ?_
  refine runs_op (.create (sibling path "tmp")) (.ok 0) _ (by simp [NoRead]) trivial
     ⟨rfl, rfl⟩ ?_
  refine runs_op (.write 0 _) (.ok ()) _ (by simp [NoRead]) trivial rfl ?_
  refine runs_op (.sync 0) (.ok ()) _ (by simp [NoRead]) trivial rfl ?_
  refine runs_op (.rename _ _) (.ok ()) _ (by simp [NoRead]) trivial ⟨0, ?_, rfl⟩ ?_
  · simp [Disk.lookup, Disk.createAt, blank, Disk.empty]
  refine runs_op .openDir (.ok ()) _ (by simp [NoRead]) trivial rfl ?_
  cases r with
  | ok u => exact runs_op .syncDir (.ok u) _ (by simp [NoRead]) trivial rfl .refl
  | error e => exact runs_op .syncDir (.error e) _ (by simp [NoRead]) trivial rfl .refl

theorem noRead_true {w : SlotWorld} {op : SlotOp} (h : ∀ h, op ≠ .readToEnd h) :
    NoRead w op ∧ True := ⟨h, trivial⟩

/-- A reservation that meets no fault takes the next free slot. -/
theorem runs_reserve (sha3 : Bytes → Blob 32) (pow : Disk Path → Disk Path → Prop) (p : Nat)
    (w : SlotWorld) {c : AtomicSlotCounter} (hg : c.generation.toNat + 1 < 2 ^ 64)
    (hn : c.next.toNat ≤ c.slotEnd.toNat) : ∃ d l,
    (storage (slotFaults sha3) (fun _ _ => True) pow).Runs NoRead p
      (asReservation c (reserve sha3)) w
      (.ret (some (c.burned (UInt32.ofNat c.next.toNat)), .slot (UInt32.ofNat c.next.toNat)))
      ⟨d, l ++ w.log⟩ ∧ (∀ e ∈ l, e.Quiet) ∧ d.dir = w.disk.dir := by
  have hend := c.slotEnd.toNat_lt
  have hr : (UInt32.ofNat c.next.toNat).toNat = c.next.toNat :=
    UInt32.toNat_ofNat_of_lt' (show c.next.toNat < 2 ^ 32 by omega)
  obtain ⟨l, h, hl⟩ := runs_burn (slotFaults sha3) p sha3 w hg (r := UInt32.ofNat c.next.toNat)
    ⟨by omega, by omega⟩ fun _ _ => noRead_true
  refine ⟨burnedDisk sha3 c ((UInt32.ofNat c.next.toNat).toUInt64 + 1) w.disk, l, ?_, hl, rfl⟩
  unfold asReservation
  rw [(commits_reserve c).bind, reserved_eq hn]
  exact h.of_restrict.bind _

/-- A signature that meets no fault, at a free slot of the caller's choice. -/
theorem runs_signAt (sha3 : Bytes → Blob 32) (pow : Disk Path → Disk Path → Prop) (p : Nat)
    (w : SlotWorld) {c : AtomicSlotCounter} (message : Blob 32) {slot : UInt32}
    (hg : c.generation.toNat + 1 < 2 ^ 64)
    (hs : c.next.toNat ≤ slot.toNat ∧ slot.toNat ≤ c.slotEnd.toNat) (sig : XmssSignature) : ∃ l,
    (storage (slotFaults sha3) (fun _ _ => True) pow).Runs NoRead p
      (asSignature (signAt sha3 c message slot)) w
      (.ret (some (c.burned slot), .signed slot sig))
      ⟨burnedDisk sha3 c (slot.toUInt64 + 1) w.disk,
        .op (.ext ⟨slot, message⟩) (.ok sig) :: (l ++ w.log)⟩ := by
  obtain ⟨l, h, -⟩ := runs_burn (slotFaults sha3) p sha3 w hg hs fun _ _ => noRead_true
  refine ⟨l, ?_⟩
  unfold signAt burnAndSign
  rw [(commits_reserveAt c slot).bind]
  refine ((h.of_restrict.bind _).bind _).trans ?_
  exact runs_op (.ext (SignCall.mk slot message)) (.ok sig) _ (by simp [NoRead]) trivial rfl .refl

/-- `open` on a journal image that is visible at the path. -/
theorem runs_open (sha3 : Bytes → Blob 32) (path : Path) (pk : XmssPublicKey) (slotEnd : UInt32)
    (pow : Disk Path → Disk Path → Prop) (p : Nat) {d : Disk Path} (l : List SlotEv) {i : Nat}
    {n : UInt64} (hl : d.lock = none)
    (hi : d.lookup path = some i)
    (hf : (d.inode i).content = journalImage sha3 (keyFingerprint sha3 pk) n)
    (hn : n.toNat ≤ slotEnd.toNat + 1) : ∃ d' l',
    (storage (slotFaults sha3) (fun _ _ => True) pow).Runs (fun _ _ => True) p
      (asConstructor (open_ sha3 path pk slotEnd)) ⟨d, l⟩
      (.ret (some ⟨d.handles, keyFingerprint sha3 pk, 0, n, slotEnd⟩, .opened n)) ⟨d', l' ++ l⟩ ∧
    (∀ e ∈ l', e.Quiet) ∧ d'.dir = d.dir := by
  have hrec := recover_image sha3 (keyFingerprint sha3 pk) hn
  set raw := journalImage sha3 (keyFingerprint sha3 pk) n with hraw
  let hd (i : Nat) : Handle := (({ d with lock := some p } : Disk Path).openAt i).handle d.handles
  have hopen : hd i = ⟨i, 0⟩ := Disk.openAt_handle { d with lock := some p } i
  refine ⟨(({ d with lock := some p } : Disk Path).openAt i).seekTo d.handles raw.length,
    [.op (.readToEnd d.handles) (.ok raw), .op (.openFile path) (.ok d.handles)], ?_,
    by simp [Ev.Quiet], rfl⟩
  refine runs_op .tryLock .acquired _ trivial trivial ⟨hl, rfl⟩ ?_
  refine runs_op (.openFile path) (.ok d.handles) _ trivial trivial ⟨i, hi, rfl, rfl⟩ ?_
  refine runs_op (.readToEnd d.handles) (.ok raw)
    ((({ d with lock := some p } : Disk Path).openAt i).seekTo d.handles raw.length) trivial
    trivial ⟨?_, ?_⟩ ?_
  · show raw = (d.inode (hd i).ino).content.drop (hd i).pos
    rw [hopen]; simpa using hf.symm
  · show _ = Disk.seekTo _ _ ((hd i).pos + raw.length)
    rw [hopen]; simp
  · show (storage _ _ _).Runs _ _
      ((resume sha3 path (keyFingerprint sha3 pk) slotEnd d.handles raw).run.bind _) _ _ _
    rw [resume_journal hrec]
    exact .refl

theorem okSlots_first {l l' : List SlotEv} (hl' : ∀ e ∈ l', e.Quiet) (hl : ∀ e ∈ l, e.Quiet) :
    okSlots (.ret (.slot 0) :: (l' ++ .ret (.opened 0) :: l)) = [0] := by
  have e' : l'.filterMap okSlot = [] :=
    List.filterMap_eq_nil_iff.mpr fun e he => okSlot_of_quiet (hl' e he)
  have e : l.filterMap okSlot = [] :=
    List.filterMap_eq_nil_iff.mpr fun e he => okSlot_of_quiet (hl e he)
  unfold okSlots
  have h1 : okSlot (.ret (.slot 0)) = some 0 := rfl
  have h2 : okSlot (.ret (.opened 0)) = none := rfl
  rw [List.filterMap_cons_some h1, List.filterMap_append, e', List.filterMap_cons_none h2, e]
  rfl

/-- A counter is created and a slot reserved. -/
theorem reachable_reserved (sha3 : Bytes → Blob 32) (pow : Disk Path → Disk Path → Prop) :
    ∃ s : SlotSys, (((storage (slotFaults sha3) (fun _ _ => True) pow).system
      (counterApi sha3 demoPath demoKey 7)
      (Start demoPath (keyFingerprint sha3 demoKey) 0)).guard
      (OpensSynced sha3 demoPath (keyFingerprint sha3 demoKey) 7)).Reachable s ∧
      okSlots s.world.log = [0] := by
  have hG : ∀ c op k w procs, NoRead w op → procs 0 = Proc.busy c (.call op k) →
      OpensSynced sha3 demoPath (keyFingerprint sha3 demoKey) 7 ⟨w, procs⟩ (.exec 0) := by
    rintro c op k w procs hq hp p c' h k' ⟨⟩ hp'
    have := hp.symm.trans hp'
    cases this
    exact absurd rfl (hq h)
  have h0 : (((storage (slotFaults sha3) (fun _ _ => True) pow).system
      (counterApi sha3 demoPath demoKey 7)
      (Start demoPath (keyFingerprint sha3 demoKey) 0)).guard
      (OpensSynced sha3 demoPath (keyFingerprint sha3 demoKey) 7)).Reachable
      ⟨blank, fun _ => .idle⟩ := .init ⟨start_blank _ _, rfl⟩
  obtain ⟨l, hc, hl⟩ := runs_create sha3 demoPath demoKey 7 pow 0 (.ok ())
  have h1 := Machine.reachable_call (o := none) (c := .create 0) hc rfl rfl (hG _)
    (fun s => by rintro _ _ _ _ ⟨⟩) (fun s => by rintro _ _ _ _ ⟨⟩) h0
  obtain ⟨d, l', hres, hl', -⟩ := runs_reserve sha3 pow 0
    ((storage (slotFaults sha3) (fun _ _ => True) pow).finish (counterApi sha3 demoPath demoKey 7)
      0 (.create 0) (some ⟨0, keyFingerprint sha3 demoKey, 0, 0, 7⟩) (.opened 0) _)
    (c := ⟨0, keyFingerprint sha3 demoKey, 0, 0, 7⟩)
    (show (0 : UInt64).toNat + 1 < 2 ^ 64 by decide) (Nat.zero_le _)
  have h2 := Machine.reachable_call (o := some ⟨0, keyFingerprint sha3 demoKey, 0, 0, 7⟩)
    (c := .reserve) hres rfl (by simp [Proc.ofResult, Proc.object]) (hG _)
    (fun s => by rintro _ _ _ _ ⟨⟩) (fun s => by rintro _ _ _ _ ⟨⟩) h1
  exact ⟨_, h2, okSlots_first hl' hl⟩

end Provisioning

/-! ## Runs of one process -/

section Serving
variable {sha3 : Bytes → Blob 32} {path : Path} {pk : XmssPublicKey} {slotStart slotEnd : UInt32}
  {base p : Nat} {c : AtomicSlotCounter} {s : SlotSys}

/-- Process `p` holds `c`, and the journal holds exactly its record. -/
structure Serving (sha3 : Bytes → Blob 32) (path : Path) (pk : XmssPublicKey)
    (slotStart slotEnd : UInt32) (p : Nat) (c : AtomicSlotCounter) (s : SlotSys) : Prop where
  live : s.procs p = .live c
  exact : Exact sha3 path pk slotStart slotEnd (c, s.world)

/-- A call meets no power failure. -/
theorem runs_kill {α : Type} {Q : SlotWorld → SlotOp → Prop} {m m' : SlotProg α} {w w' : SlotWorld}
    (h : (diskMachine (slotFaults sha3)).Runs Q p m w m' w') :
    (killMachine sha3).Runs Q p m w m' w' := h.mono fun _ _ _ _ hx => hx

/-- A first `create` that meets no fault. -/
theorem serving_created (sha3 : Bytes → Blob 32) (path : Path) (pk : XmssPublicKey)
    (hs : slotStart ≤ slotEnd) : ∃ (s : SlotSys) (c : AtomicSlotCounter),
    ((killMachine sha3).system (counterApi sha3 path pk slotEnd)
      (Start path (keyFingerprint sha3 pk) 0)).Reachable s ∧
    Serving sha3 path pk slotStart slotEnd 0 c s ∧ c.next = slotStart.toUInt64 := by
  obtain ⟨f, w', h⟩ := SlotCounter.runs_create (slotFaults sha3) 0 sha3 path pk slotStart slotEnd
    (w := blank) rfl rfl
  obtain ⟨hn, hx⟩ := returns_create hs (tidy_empty _ _) h
  have hcall : (killMachine sha3).Runs (fun _ _ => True) 0
      (asConstructor (create sha3 path pk slotStart slotEnd)) blank _ w' :=
    (runs_kill h).bind _
  have hrun : (counterApi sha3 path pk slotEnd).run none (.create slotStart) =
      some (asConstructor (create sha3 path pk slotStart slotEnd)) := by
    simp only [counterApi, if_pos hs]
  have hr := Machine.reachable_done (s := ⟨blank, fun _ => .idle⟩) hcall hrun rfl
    (.init ⟨start_blank path (keyFingerprint sha3 pk), rfl⟩)
  exact ⟨_, _, hr, ⟨rfl, hx.onDisk, hx.older, hx.burned⟩, hn⟩

/-- A message is signed at a free slot. -/
theorem serving_signed (h : Serving sha3 path pk slotStart slotEnd p c s)
    (hr : ((killMachine sha3).system (counterApi sha3 path pk slotEnd)
      (Start path (keyFingerprint sha3 pk) base)).Reachable s)
    (message : Blob 32) (sig : XmssSignature) (slot : UInt32)
    (hs : c.next.toNat ≤ slot.toNat ∧ slot.toNat ≤ slotEnd.toNat) : ∃ (s' : SlotSys) (l : _),
    ((killMachine sha3).system (counterApi sha3 path pk slotEnd)
      (Start path (keyFingerprint sha3 pk) base)).Reachable s' ∧
    Serving sha3 path pk slotStart slotEnd p (c.burned slot) s' ∧
    s'.world.log = .ret (.signed slot sig) :: .op (.ext ⟨slot, message⟩) (.ok sig) ::
      (l ++ s.world.log) := by
  have hstop : c.slotEnd = slotEnd := h.exact.onDisk.stop
  obtain ⟨l, hcall⟩ := runs_signAt sha3 (fun _ _ => False) p s.world message h.exact.room.2
    ⟨hs.1, by rw [hstop]; exact hs.2⟩ sig
  have hr' := Machine.reachable_done (M := killMachine sha3) (o := some c)
    (c := .signAt message slot) hcall rfl (by rw [h.live]; rfl) hr
  refine ⟨_, l, hr', ⟨Function.update_self .., ?_⟩, rfl⟩
  have hslot := toNat_succ_slot slot
  exact h.exact.burn (by rw [hslot]; exact Nat.lt_succ_of_le hs.1) (by omega) rfl

/-- The process is killed, and another counter is opened. -/
theorem serving_restarted (h : Serving sha3 path pk slotStart slotEnd p c s)
    (hr : ((killMachine sha3).system (counterApi sha3 path pk slotEnd)
      (Start path (keyFingerprint sha3 pk) base)).Reachable s) :
    ∃ (s' : SlotSys) (c' : AtomicSlotCounter) (l : _),
    ((killMachine sha3).system (counterApi sha3 path pk slotEnd)
      (Start path (keyFingerprint sha3 pk) base)).Reachable s' ∧
    Serving sha3 path pk slotStart slotEnd p c' s' ∧ c'.next = c.next ∧
    s'.world.log = .ret (.opened c.next) :: (l ++ s.world.log) := by
  have hlock : s.world.disk.lock = some p := by
    have hinv := (slotOutline sha3 path pk slotEnd .visible base).reachable (fun w h => h.inv)
      (fun p w h ho => by
        have ho : w.disk.lock = some p := ho
        rw [h.lock] at ho
        cases ho) s hr
    have hp := hinv.2 p
    rw [h.live] at hp
    exact hp.1
  have hkilled : (killMachine sha3).release p s.world = released s.world := if_pos hlock
  have hk : ((killMachine sha3).system (counterApi sha3 path pk slotEnd)
      (Start path (keyFingerprint sha3 pk) base)).Reachable
      ⟨released s.world, Function.update s.procs p .idle⟩ := by
    rw [← hkilled]
    exact .step (.kill p) hr .kill
  obtain ⟨x, w', hopen⟩ := runs_reopen (slotFaults sha3) p h.exact
  rcases returns_reopen faithful_good h.exact hopen with ⟨-, hf⟩ | ⟨c', rfl, -, hn, hx⟩
  · exact absurd hf not_fails_good
  have hcall : (killMachine sha3).Runs (fun _ _ => True) p
      (asConstructor (open_ sha3 path pk slotEnd)) (released s.world) _ w' :=
    (runs_kill hopen.of_restrict).bind _
  obtain ⟨l, hl⟩ := runs_suffix hcall
  have hr' := Machine.reachable_done (o := none) (c := .open_) hcall rfl
    (by simp [Proc.object]) hk
  refine ⟨_, c', l, hr', ⟨Function.update_self .., hx.onDisk, hx.older, hx.burned⟩, hn, ?_⟩
  show .ret (.opened c'.next) :: w'.log = _
  rw [← hl, hn]
  rfl

/-- A counter is created and a message signed at `slot`. -/
theorem reachable_signed (sha3 : Bytes → Blob 32) (path : Path) (pk : XmssPublicKey)
    {slotEnd slot : UInt32} (hs : slot ≤ slotEnd) (message : Blob 32) (sig : XmssSignature) :
    ∃ s : SlotSys, ((killMachine sha3).system (counterApi sha3 path pk slotEnd)
      (Start path (keyFingerprint sha3 pk) 0)).Reachable s ∧
      .op (.ext ⟨slot, message⟩) (.ok sig) ∈ s.world.log := by
  obtain ⟨s, c, hr, hc, hn⟩ := serving_created sha3 path pk
    (show (0 : UInt32) ≤ slotEnd from UInt32.le_iff_toNat_le.mpr (Nat.zero_le _))
  obtain ⟨s', l, hr', -, hlog⟩ := serving_signed hc hr message sig slot
    ⟨by rw [hn]; exact Nat.zero_le _, UInt32.le_iff_toNat_le.mp hs⟩
  exact ⟨s', hr', by rw [hlog]; simp⟩

end Serving

/-- SHA3-256 on what the sample runs hash: the sample key, and the records of
generations 0, 1 and 2. -/
def sampleDigest0 : Blob 32 :=
  ⟨[0xa6, 0xf7, 0xb9, 0x11, 0x3c, 0x06, 0xdf, 0x38, 0xee, 0x77, 0xef, 0xd1, 0xf3, 0x0a, 0xce, 0x87,
    0xe8, 0x94, 0x05, 0xc4, 0xf8, 0x1f, 0x69, 0xa4, 0xac, 0x46, 0x45, 0x6a, 0xaf, 0x80, 0xaf, 0x67], rfl⟩
def sampleDigest1 : Blob 32 :=
  ⟨[0x9d, 0xbb, 0x8e, 0x9b, 0x6c, 0x4b, 0x02, 0xeb, 0x35, 0x17, 0xbc, 0x02, 0xba, 0x03, 0x24, 0xd0,
    0x31, 0x72, 0xe3, 0x62, 0xb7, 0x9a, 0xef, 0xdb, 0xd7, 0x1f, 0x3e, 0x75, 0x91, 0xf1, 0x8b, 0xef], rfl⟩
def sampleDigest2 : Blob 32 :=
  ⟨[0xcd, 0x2e, 0xae, 0x7c, 0x5a, 0x39, 0x96, 0xe3, 0xf1, 0x74, 0xa8, 0xab, 0x24, 0xb8, 0x09, 0x33,
    0xfe, 0xca, 0x53, 0x8d, 0x88, 0x70, 0x90, 0x3a, 0xec, 0x23, 0xd5, 0xec, 0x12, 0x9e, 0x21, 0x27], rfl⟩
def sampleSha3 (bytes : Bytes) : Blob 32 :=
  if bytes = demoKey.1 then sampleTag
  else if bytes = recordHead ⟨0, 0, sampleTag⟩ then sampleDigest0
  else if bytes = recordHead ⟨1, 1, sampleTag⟩ then sampleDigest1
  else sampleDigest2

/-! ## Kills -/

/-- In every reachable state: the slots returned with `Ok` increase in the
order returned, none is below a legacy frontier, no slot is signed twice, every
signature call comes after a record above its slot was written and synced, and
once a constructor has returned the journal recovers above every slot used. -/
theorem slots_never_reused (sha3 : Bytes → Blob 32) (path : Path) (pk : XmssPublicKey)
    (slotEnd : UInt32) (base : Nat) (s : SlotSys)
    (hr : ((killMachine sha3).system (counterApi sha3 path pk slotEnd)
      (Start path (keyFingerprint sha3 pk) base)).Reachable s) :
    (okSlots s.world.log).reverse.Pairwise (· < ·) ∧
    (∀ x ∈ okSlots s.world.log, base ≤ x) ∧
    (signedSlots s.world.log).Nodup ∧
    (spentSlots s.world.log).reverse.Pairwise (· < ·) ∧
    SignsBacked sha3 s.world.log ∧
    (∀ n, .ret (.opened n) ∈ s.world.log →
      Recoverable sha3 path (keyFingerprint sha3 pk) slotEnd s.world) := by
  have hinv := inv_reachable (L := .visible) hr
  obtain ⟨n, hl⟩ := hinv.logged
  refine ⟨List.pairwise_reverse.mpr hl.ok, fun x hx => (hl.okBelow x hx).1, ?_,
    List.pairwise_reverse.mpr hl.spent, hl.backed, fun m hm => hinv.recoverable hm (by simp [Ev.Quiet])⟩
  refine (signedSlots_sublist s.world.log).nodup ?_
  exact hl.spent.imp fun h => Nat.ne_of_gt h

/-- Two signatures, with a kill and a restart between them. -/
theorem slots_never_reused_first : ∃ (s : SlotSys) (message : Blob 32) (sig : XmssSignature),
    [.ret (.signed 1 sig), .op (.ext ⟨1, message⟩) (.ok sig), .ret (.opened 1),
      .ret (.signed 0 sig), .op (.ext ⟨0, message⟩) (.ok sig)].Sublist s.world.log ∧
    (okSlots s.world.log).reverse.Pairwise (· < ·) ∧ (signedSlots s.world.log).Nodup ∧
    SignsBacked sampleSha3 s.world.log ∧
    Recoverable sampleSha3 demoPath (keyFingerprint sampleSha3 demoKey) 7 s.world := by
  let message : Blob 32 := ⟨List.replicate 32 0, by simp⟩
  let sig : XmssSignature := ⟨List.replicate 1208 0, List.length_replicate⟩
  obtain ⟨s₀, c₀, hr₀, hc₀, hn₀⟩ := serving_created sampleSha3 demoPath demoKey
    (show (0 : UInt32) ≤ 7 by decide)
  obtain ⟨s₁, l₁, hr₁, hc₁, hlog₁⟩ := serving_signed hc₀ hr₀ message sig 0
    (by rw [hn₀]; decide)
  obtain ⟨s₂, c₂, l₂, hr₂, hc₂, hn₂, hlog₂⟩ := serving_restarted hc₁ hr₁
  obtain ⟨s₃, l₃, hr₃, -, hlog₃⟩ := serving_signed hc₂ hr₂ message sig 1
    (by rw [hn₂]; exact ⟨show (0 + 1 : UInt64).toNat ≤ (1 : UInt32).toNat by decide, by decide⟩)
  obtain ⟨hok, -, hsigned, -, hbacked, hrec⟩ :=
    slots_never_reused sampleSha3 demoPath demoKey 7 0 s₃ hr₃
  have hsub : [.ret (.signed 1 sig), .op (.ext ⟨1, message⟩) (.ok sig), .ret (.opened 1),
      .ret (.signed 0 sig), .op (.ext ⟨0, message⟩) (.ok sig)].Sublist s₃.world.log := by
    rw [hlog₃, hlog₂, hlog₁]
    refine .cons_cons _ (.cons_cons _ (List.Sublist.trans ?_ (List.sublist_append_right l₃ _)))
    refine .cons_cons _ (List.Sublist.trans ?_ (List.sublist_append_right l₂ _))
    exact .cons_cons _ (.cons_cons _ (List.nil_sublist _))
  exact ⟨s₃, message, sig, hsub, hok, hsigned, hbacked, hrec 1 (hsub.subset (by simp))⟩

/-! ## Power failures -/

/-- Once a slot was returned with `Ok`, the state file is there, and every
later constructor that succeeds starts above it. -/
def BurnsSurvive (path : Path) (w : SlotWorld) : Prop :=
  OpensAbove w.log ∧ (okSlots w.log ≠ [] → w.disk.lookup path ≠ none)

/-- A run whose reads are all synced is a run of the durable level. -/
theorem reachable_durable {sha3 : Bytes → Blob 32} {path : Path} {pk : XmssPublicKey}
    {slotEnd : UInt32} {init : SlotWorld → Prop} {s : SlotSys}
    (hr : (((powerMachine sha3).system (counterApi sha3 path pk slotEnd) init).guard
      (OpensSynced sha3 path (keyFingerprint sha3 pk) slotEnd)).Reachable s) :
    ((slotMachine sha3 path (keyFingerprint sha3 pk) slotEnd .durable).system
      (counterApi sha3 path pk slotEnd) init).Reachable s := by
  induction hr with
  | init h => exact .init h
  | step a hr hs ih =>
    refine .step a ih ?_
    obtain ⟨hg, hs⟩ := hs
    cases hs with
    | call ho hm => exact .call ho hm
    | @exec p c op k r w hp hx =>
      refine .exec hp ⟨?_, hx.2⟩
      cases op with
      | readToEnd h => exact hg p c h k rfl hp
      | _ => exact trivial
    | ret hp => exact .ret hp
    | drop hp => exact .drop hp
    | kill => exact .kill
    | power hw => exact .power hw

/-- Burns survive every run in which `open` adopts only what is durable. -/
theorem burns_survive_power_failure (sha3 : Bytes → Blob 32) (path : Path) (pk : XmssPublicKey)
    (slotEnd : UInt32) (base : Nat) (s : SlotSys)
    (hr : (((powerMachine sha3).system (counterApi sha3 path pk slotEnd)
      (Start path (keyFingerprint sha3 pk) base)).guard
      (OpensSynced sha3 path (keyFingerprint sha3 pk) slotEnd)).Reachable s) :
    BurnsSurvive path s.world := by
  have hinv := inv_reachable (reachable_durable hr)
  obtain ⟨n, hl⟩ := hinv.logged
  refine ⟨hl.opened, fun hne habs => ?_⟩
  obtain ⟨x, hx⟩ := List.exists_mem_of_ne_nil _ hne
  obtain ⟨e, he, hes⟩ := List.mem_filterMap.mp hx
  have hq : ¬ e.Quiet := fun hq => by rw [okSlot_of_quiet hq] at hes; cases hes
  obtain ⟨i, r, hi, -⟩ := hinv.recoverable he hq
  rw [habs] at hi; cases hi

/-- The first slot survives a power failure. -/
theorem burns_survive_power_failure_first : ∃ s : SlotSys, okSlots s.world.log = [0] ∧
    (∀ p, (s.procs p).object = some none) ∧ BurnsSurvive demoPath s.world := by
  obtain ⟨s, hr, hs⟩ := reachable_reserved sampleSha3 (Disk.powerFail (slotFaults sampleSha3))
  have hp := Disk.powerFail_of (slotFaults sampleSha3) s.world.disk s.world.disk.dir.visible_mem_all
  have hr' := reachable_power hr (by rintro _ _ _ _ ⟨⟩) hp rfl
  have hb := burns_survive_power_failure sampleSha3 demoPath demoKey 7 0 _ hr'
  exact ⟨⟨_, fun _ => .idle⟩, hs, fun _ => rfl, hb⟩

/-- Without the condition a burn can be lost, whatever the hash: the directory
sync of `create` fails, `open` adopts the journal all the same, a slot is
reserved, and the power failure takes the journal's name away. -/
theorem burn_lost : ¬ ∃ sha3 : Bytes → Blob 32, ∀ s : SlotSys,
    ((powerMachine sha3).system (counterApi sha3 demoPath demoKey 7)
      (Start demoPath (keyFingerprint sha3 demoKey) 0)).Reachable s →
    BurnsSurvive demoPath s.world := by
  intro h
  obtain ⟨sha3, hall⟩ := h
  have h0 : (((powerMachine sha3).system (counterApi sha3 demoPath demoKey 7)
      (Start demoPath (keyFingerprint sha3 demoKey) 0)).guard fun _ _ => True).Reachable
      ⟨blank, fun _ => .idle⟩ := .init ⟨start_blank _ _, rfl⟩
  -- `create` renames the journal into place and then cannot sync the directory
  obtain ⟨l, hc, hl⟩ := runs_create sha3 demoPath demoKey 7
    (Disk.powerFail (slotFaults sha3)) 0 (.error ⟨.other, "sync"⟩)
  have h1 := Machine.reachable_call (o := none) (c := .create 0) hc rfl rfl
    (fun _ _ _ _ _ _ => trivial) (fun _ => trivial) (fun _ => trivial) h0
  set d := renamedDisk sha3 demoPath (keyFingerprint sha3 demoKey) 0 with hd
  have hlook : d.lookup demoPath = some 0 := by simp [hd, renamedDisk, Disk.renamed, Disk.lookup]
  have hfile : (d.inode 0).content = journalImage sha3 (keyFingerprint sha3 demoKey) 0 := by
    have : d.inode 0 = (File.writeAt [] 0 (journalImage sha3 (keyFingerprint sha3 demoKey) 0)).sync := by
      simp [hd, renamedDisk, Disk.renamed, Disk.syncFile, Disk.writeTo, Disk.createAt, blank,
        Disk.empty, Disk.lookup, Disk.openAt, Disk.file, Disk.setFile, Disk.seekTo]
    rw [this, File.content_sync, File.content_writeAt_nil]
  -- a second process opens it and reserves a slot
  obtain ⟨d2, l2, hopen, hl2, hdir2⟩ := runs_open sha3 demoPath demoKey 7
    (Disk.powerFail (slotFaults sha3)) 1 (d := { d with lock := none }) l rfl hlook hfile
    (by decide)
  have h2 := Machine.reachable_call (o := none) (c := .open_) hopen rfl rfl
    (fun _ _ _ _ _ _ => trivial) (fun _ => trivial) (fun _ => trivial) h1
  obtain ⟨d3, l3, hres, hl3, hdir3⟩ := runs_reserve sha3 (Disk.powerFail (slotFaults sha3)) 1
    ((powerMachine sha3).finish (counterApi sha3 demoPath demoKey 7) 1 .open_
      (some ⟨d.handles, keyFingerprint sha3 demoKey, 0, 0, 7⟩) (.opened 0) ⟨d2, l2 ++ l⟩)
    (c := ⟨d.handles, keyFingerprint sha3 demoKey, 0, 0, 7⟩)
    (show (0 : UInt64).toNat + 1 < 2 ^ 64 by decide) (Nat.zero_le _)
  have h3 := Machine.reachable_call (o := some ⟨d.handles, keyFingerprint sha3 demoKey, 0, 0, 7⟩)
    (c := .reserve) hres rfl (by simp [Proc.ofResult, Proc.object])
    (fun _ _ _ _ _ _ => trivial) (fun _ => trivial) (fun _ => trivial) h2
  -- the directory comes back as it was before the rename
  have hm : (fun _ => none) ∈ d3.dir.all := by
    rw [hdir3]
    show (fun _ => none) ∈ d2.dir.all
    rw [hdir2]
    exact List.mem_cons_self
  have hp := Disk.powerFail_of (slotFaults sha3) d3 hm
  have h4 := reachable_power h3 trivial hp rfl
  have hlog : okSlots (.ret (.slot 0) :: (l3 ++ .ret (.opened 0) :: (l2 ++ l))) = [0] :=
    okSlots_first hl3 fun e he => (List.mem_append.mp he).elim (hl2 e) (hl e)
  refine (hall _ h4.of_guard).2 ?_ rfl
  show okSlots (.ret (.slot 0) :: (l3 ++ .ret (.opened 0) :: (l2 ++ l))) ≠ []
  rw [hlog]
  simp

end Drot.L2.SlotJournal
