import Drot.L2State.SlotSolo
import Mathlib.Data.Set.Card

/-!
# The counter as an exact bounded burn counter

`burnAt` is what the counter is for: it hands out a requested slot that is free and
inside the window, and burns everything below it. `counterSystem` is any sequence of
`reserve`, `reserve_at` and drop-then-open that starts with a `create`, each call
returning `Ok`. While storage works, the calls return exactly what `burnAt` says up
to and including the top of the `u32` range (`counter_exact`).
-/
namespace Drot.L2.SlotCounter
open Bytes Text L1.SlotRecord
open L1.Message (XmssPublicKey XmssSignature)
open SlotJournal (Core OnDisk core_image core_sync core_sync_other core_pick core_recovers image_other
  succ_toNat)

/-- The bounded burn counter. -/
def burnAt (next : UInt64) (slotEnd requested : UInt32) :
    Except AtomicSlotCounterError UInt32 :=
  if next.toNat ≤ requested.toNat ∧ requested.toNat ≤ slotEnd.toNat then .ok requested
  else if requested.toNat < next.toNat ∧ next.toNat ≤ slotEnd.toNat then
    .error (.alreadySpent requested next)
  else .error (.exhausted (max next requested.toUInt64) slotEnd)

/-- The counter is dropped: its lock is free and the files are as they are. -/
def released (w : SlotWorld) : SlotWorld := { w with disk := { w.disk with lock := none } }

section
variable (F : Faults) (sha3 : Bytes → Blob 32) (path : Path) (pk : XmssPublicKey)
  (slotStart slotEnd : UInt32)

/-- A live counter and the world it lives in. The label is the slot the call
returned; a drop-then-open returns none. -/
def counterSystem : LTS (AtomicSlotCounter × SlotWorld) (Option UInt32) where
  init s := ∃ p w, Tidy (sibling path "tmp") path w.disk ∧
    Returns (diskMachine F) p (create sha3 path pk slotStart slotEnd) w (.ok s.1) s.2
  step s slot s' :=
    match slot with
    | some r => ∃ p, Calls (diskMachine F) p (reserve sha3) s.1 s.2 (.ok r) s'.1 s'.2 ∨
        ∃ requested, Calls (diskMachine F) p (reserveAt sha3 requested) s.1 s.2 (.ok r) s'.1 s'.2
    | none => ∃ p, Returns (diskMachine F) p (open_ sha3 path pk slotEnd) (released s.2)
        (.ok s'.1) s'.2

/-- The journal at the path holds exactly the counter's record: no newer one, and
every generation has burned a slot. -/
structure Exact (s : AtomicSlotCounter × SlotWorld) : Prop where
  onDisk : OnDisk sha3 path (keyFingerprint sha3 pk) slotEnd .visible s.1 s.2.disk
  older : ∀ r, recordAt sha3 (s.2.disk.file s.1.stateFile).content
    ((s.1.generation.toNat + 1) % 2) = some r → r.generation.toNat + 1 = s.1.generation.toNat
  burned : s.1.generation.toNat + slotStart.toNat ≤ s.1.next.toNat

end

section
variable {F : Faults} {sha3 : Bytes → Blob 32} {path : Path} {pk : XmssPublicKey}
  {slotStart slotEnd : UInt32} {p : Nat} {s : AtomicSlotCounter × SlotWorld}
  {M : Machine SlotOp (Ans SignAns) SlotWorld}

/-- The generation never runs out before the window does. -/
theorem Exact.room (h : Exact sha3 path pk slotStart slotEnd s) :
    s.1.next.toNat ≤ slotEnd.toNat + 1 ∧ s.1.generation.toNat + 1 < 2 ^ 64 := by
  have hw := h.onDisk.core.window
  have hb := h.burned
  have := slotEnd.toNat_lt
  exact ⟨hw, by omega⟩

/-- Recovery returns the counter's own record. -/
theorem Exact.recovers (h : Exact sha3 path pk slotStart slotEnd s) :
    recoverJournal sha3 (s.2.disk.file s.1.stateFile).content (keyFingerprint sha3 pk) slotEnd =
      .ok ⟨s.1.generation, s.1.next, keyFingerprint sha3 pk⟩ := by
  obtain ⟨r, hr, -⟩ := core_recovers h.onDisk.core
  rcases core_pick h.onDisk.core hr with rfl | ⟨hx, hg⟩
  · exact hr
  · have := h.older r hx
    omega

/-- One burn. -/
theorem Exact.burn (h : Exact sha3 path pk slotStart slotEnd s) {t : UInt64} {w' : SlotWorld}
    (ht : s.1.next.toNat < t.toNat) (hw : t.toNat ≤ slotEnd.toNat + 1)
    (hd : w'.disk = burnedDisk sha3 s.1 t s.2.disk) :
    Exact sha3 path pk slotStart slotEnd
      ({ s.1 with generation := s.1.generation + 1, next := t }, w') := by
  obtain ⟨c, w⟩ := s
  obtain ⟨d', l'⟩ := w'
  obtain rfl : d' = _ := hd
  have hg := h.room.2
  have hg1 : (c.generation + 1).toNat = c.generation.toNat + 1 := succ_toNat hg
  have htag : c.keyTag = keyFingerprint sha3 pk := h.onDisk.tag
  have hino := burnedDisk_ino sha3 c t w.disk
  have hfile := burnedDisk_file sha3 c t w.disk
  rw [hg1, htag] at hfile
  refine ⟨h.onDisk.move rfl rfl hino rfl rfl rfl ?_, ?_, ?_⟩
  · rw [hfile]
    exact core_sync h.onDisk.core hg ht hw
  · intro r hr
    have hother := core_sync_other h.onDisk.core hg ht hw
    simp only [Disk.file] at hr hother hfile
    rw [hino, hfile, hg1, show (c.generation.toNat + 1 + 1) % 2 = c.generation.toNat % 2 by omega,
      hother] at hr
    cases hr
    exact hg1.symm
  · have := h.burned
    show (c.generation + 1).toNat + slotStart.toNat ≤ t.toNat
    simp only at this ht
    omega

/-! ## The calls -/

/-- What a burn leaves of the counter. -/
def AtomicSlotCounter.burned (c : AtomicSlotCounter) (r : UInt32) : AtomicSlotCounter :=
  { c with generation := c.generation + 1, next := r.toUInt64 + 1 }

theorem toNat_succ_slot (r : UInt32) : (r.toUInt64 + 1).toNat = r.toNat + 1 := by
  have := r.toNat_lt
  rw [succ_toNat (by rw [UInt32.toNat_toUInt64]; omega), UInt32.toNat_toUInt64]

theorem reservedAt_refused {c : AtomicSlotCounter} {r : UInt32} {e : AtomicSlotCounterError}
    (h : burnAt c.next c.slotEnd r = .error e) :
    reservedAt sha3 c r = liftExcept (.error e) := by
  unfold burnAt at h
  split at h
  · cases h
  rename_i hok
  unfold reservedAt
  split at h
  · rename_i hspent
    cases h
    rw [if_neg, if_pos]
    · rw [UInt64.lt_iff_toNat_lt, UInt32.toNat_toUInt64]
      exact hspent.1
    · rw [UInt64.lt_iff_toNat_lt, UInt32.lt_iff_toNat_lt, UInt32.toNat_toUInt64]
      omega
  · rename_i hspent
    cases h
    rw [if_pos]
    rw [UInt64.lt_iff_toNat_lt, UInt32.lt_iff_toNat_lt, UInt32.toNat_toUInt64]
    omega

theorem reservedAt_burns {c : AtomicSlotCounter} {r : UInt32}
    (h : c.next.toNat ≤ r.toNat ∧ r.toNat ≤ c.slotEnd.toNat) :
    reservedAt sha3 c r = (do
      let c ← persisted sha3 c (r.toUInt64 + 1)
      return ({ c with next := r.toUInt64 + 1 }, r)) := by
  unfold reservedAt
  rw [if_neg, if_neg]
  · rw [UInt64.lt_iff_toNat_lt, UInt32.toNat_toUInt64]
    omega
  · rw [UInt64.lt_iff_toNat_lt, UInt32.lt_iff_toNat_lt, UInt32.toNat_toUInt64]
    omega

/-- `reserve` is `reserve_at` of the next free slot. -/
theorem reserved_eq {c : AtomicSlotCounter} (h : c.next.toNat ≤ c.slotEnd.toNat) :
    reserved sha3 c = reservedAt sha3 c (UInt32.ofNat c.next.toNat) := by
  have hend := c.slotEnd.toNat_lt
  have hr : (UInt32.ofNat c.next.toNat).toNat = c.next.toNat :=
    UInt32.toNat_ofNat_of_lt' (show c.next.toNat < 2 ^ 32 by omega)
  have hnext : (UInt32.ofNat c.next.toNat).toUInt64 = c.next := by
    apply UInt64.toNat_inj.mp
    rw [UInt32.toNat_toUInt64, hr]
  rw [reservedAt_burns ⟨by omega, by omega⟩]
  unfold reserved
  rw [if_neg, hnext]
  rw [UInt64.lt_iff_toNat_lt, UInt32.toNat_toUInt64]
  omega

theorem reserved_exhausted {c : AtomicSlotCounter} (h : c.slotEnd.toNat < c.next.toNat) :
    reserved sha3 c = liftExcept (.error (.exhausted c.next c.slotEnd)) := by
  unfold reserved
  rw [if_pos]
  rw [UInt64.lt_iff_toNat_lt, UInt32.toNat_toUInt64]
  exact h

/-- `reserve_at` fails because an operation does, or it does what `burnAt` says. -/
theorem returns_reservedAt (hM : Faithful F p M) (h : Exact sha3 path pk slotStart slotEnd s)
    {r : UInt32} {x : Except AtomicSlotCounterError (AtomicSlotCounter × UInt32)} {w' : SlotWorld}
    (hr : Returns M p (reservedAt sha3 s.1 r) s.2 x w') :
    ((∃ e, x = .error e) ∧ Fails M p) ∨
      (∃ e, burnAt s.1.next slotEnd r = .error e ∧ x = .error e ∧ w' = s.2) ∨
      (burnAt s.1.next slotEnd r = .ok r ∧ x = .ok (s.1.burned r, r) ∧
        Exact sha3 path pk slotStart slotEnd (s.1.burned r, w')) := by
  have hstop : s.1.slotEnd = slotEnd := h.onDisk.stop
  cases hb : burnAt s.1.next slotEnd r with
  | error e =>
    rw [reservedAt_refused (by rw [hstop]; exact hb)] at hr
    obtain ⟨rfl, rfl⟩ := Machine.runs_ret.mp hr
    exact .inr (.inl ⟨e, rfl, rfl, rfl⟩)
  | ok r' =>
    have hwin : (s.1.next.toNat ≤ r.toNat ∧ r.toNat ≤ slotEnd.toNat) ∧ r' = r := by
      unfold burnAt at hb
      split at hb
      · cases hb; exact ⟨‹_›, rfl⟩
      · split at hb <;> cases hb
    obtain ⟨⟨hlo, hhi⟩, rfl⟩ := hwin
    rw [reservedAt_burns ⟨hlo, by rw [hstop]; exact hhi⟩] at hr
    rcases runs_try.mp hr with ⟨c', w₁, h₁, h₂⟩ | ⟨e, h₁, rfl⟩
    · obtain ⟨rfl, rfl⟩ := Machine.runs_ret.mp h₂
      rcases returns_persisted hM h.room.2 h₁ with ⟨⟨e, he⟩, -⟩ | ⟨hc, hd⟩
      · cases he
      · cases hc
        refine .inr (.inr ⟨rfl, rfl, ?_⟩)
        have hn := toNat_succ_slot r'
        exact h.burn (by omega) (by omega) hd
    · rcases returns_persisted hM h.room.2 h₁ with ⟨-, hf⟩ | ⟨hc, -⟩
      · exact .inl ⟨⟨e, rfl⟩, hf⟩
      · cases hc

/-- `open` after a drop finds the same counter. -/
theorem returns_reopen (hM : Faithful F p M) (h : Exact sha3 path pk slotStart slotEnd s)
    {x : Except AtomicSlotCounterError AtomicSlotCounter} {w' : SlotWorld}
    (hr : Returns M p (open_ sha3 path pk slotEnd) (released s.2) x w') :
    ((∃ e, x = .error e) ∧ Fails M p) ∨
      ∃ c', x = .ok c' ∧ c'.generation = s.1.generation ∧ c'.next = s.1.next ∧
        Exact sha3 path pk slotStart slotEnd (c', w') := by
  obtain ⟨c, w⟩ := s
  rcases returns_open hM rfl hr with hf | ⟨i, d, l, hi, hs, -, hino, hr⟩
  · exact .inl hf
  have hlook : w.disk.lookup path = some (w.disk.handle c.stateFile).ino := h.onDisk.settled
  obtain rfl : (w.disk.handle c.stateFile).ino = i := Option.some.inj (hlook.symm.trans hi)
  have hrec : recoverJournal sha3 ((released w).disk.inode (w.disk.handle c.stateFile).ino).content
      (keyFingerprint sha3 pk) slotEnd = .ok _ := h.recovers
  rw [show (released (c, w).2) = released w from rfl, resume_journal hrec] at hr
  obtain ⟨rfl, rfl⟩ := Machine.runs_ret.mp hr
  have hfile : d.file w.disk.handles = w.disk.file c.stateFile := by
    unfold Disk.file
    rw [hs.inode]
    show w.disk.inode (d.handle w.disk.handles).ino = _
    rw [show (d.handle w.disk.handles).ino = (w.disk.handle c.stateFile).ino from hino]
  refine .inr ⟨_, rfl, rfl, rfl, ⟨h.onDisk.tidy.sameFiles ⟨hs.dir, hs.inode, hs.fresh⟩, rfl, rfl,
    ?_, ?_⟩, ?_, h.burned⟩
  · show d.dir.visible path = some (d.handle w.disk.handles).ino
    rw [hs.dir, show (d.handle w.disk.handles).ino = (w.disk.handle c.stateFile).ino from hino]
    exact hlook
  · show Core sha3 _ _ _ (d.file w.disk.handles) c.generation c.next
    rw [hfile]
    exact h.onDisk.core
  · show ∀ r, recordAt sha3 (d.file w.disk.handles).content ((c.generation.toNat + 1) % 2) = some r → _
    rw [hfile]
    exact h.older

/-- A successful `create` starts the journal of a new key. -/
theorem returns_create {w w' : SlotWorld} {c : AtomicSlotCounter} (hs : slotStart ≤ slotEnd)
    (ht : Tidy (sibling path "tmp") path w.disk)
    (hr : Returns (diskMachine F) p (create sha3 path pk slotStart slotEnd) w (.ok c) w') :
    c.next = slotStart.toUInt64 ∧ Exact sha3 path pk slotStart slotEnd (c, w') := by
  obtain ⟨r, ⟨d₁, l₁⟩, -, ⟨-, hx, -⟩, hr⟩ := runs_takeLock.mp hr
  cases r with
  | wouldBlock => cases hr.1
  | failed e => cases hr.1
  | acquired =>
  obtain ⟨-, rfl⟩ := hx
  obtain ⟨r, ⟨d₂, l₂⟩, -, ⟨-, hx, -⟩, hr⟩ := runs_io.mp hr
  cases r with
  | ok u =>
    obtain ⟨_, ha, hr⟩ | ⟨_, he, -⟩ := hr
    · cases ha; cases (Machine.runs_ret.mp hr).1
    · cases he
  | error e =>
  obtain ⟨-, -, rfl⟩ := hx
  obtain ⟨_, ha, hr⟩ | ⟨_, he, -⟩ := hr
  swap
  · cases he
  cases ha
  have hr : Returns (diskMachine F) p (installCounter sha3 path (keyFingerprint sha3 pk) slotEnd
    slotStart.toUInt64) _ _ _ := hr
  rcases returns_installCounter hr with ⟨e', he⟩ | ⟨f, hc, hin⟩
  · cases he
  cases hc
  obtain ⟨hin, -⟩ := hin rfl (ht.sameFiles ⟨rfl, rfl, rfl⟩)
  have hle := UInt32.le_iff_toNat_le.mp hs
  refine ⟨rfl, ⟨hin.tidy, rfl, rfl, hin.look, ?_⟩, ?_, ?_⟩
  · show Core sha3 _ _ _ (w'.disk.inode (w'.disk.handle f).ino) 0 _
    rw [hin.file]
    exact core_image (by rw [UInt32.toNat_toUInt64]; omega)
  · intro r hr
    have hr : recordAt sha3 (w'.disk.inode (w'.disk.handle f).ino).content 1 = some r := hr
    rw [hin.file, image_other] at hr
    cases hr
  · show (0 : UInt64).toNat + slotStart.toNat ≤ slotStart.toUInt64.toNat
    rw [UInt32.toNat_toUInt64]
    simp

/-- What a step does to the next free slot. -/
def Moves (slotEnd : UInt32) (s s' : AtomicSlotCounter × SlotWorld) : Option UInt32 → Prop
  | none => s'.1.next = s.1.next
  | some r => s.1.next.toNat ≤ r.toNat ∧ r.toNat ≤ slotEnd.toNat ∧ s'.1.next.toNat = r.toNat + 1

theorem burnAt_ok {next : UInt64} {r r' : UInt32} (h : burnAt next slotEnd r = .ok r') :
    next.toNat ≤ r.toNat ∧ r.toNat ≤ slotEnd.toNat := by
  unfold burnAt at h
  split at h
  · assumption
  · split at h <;> cases h

theorem exact_reservedAt (h : Exact sha3 path pk slotStart slotEnd s) {r r' : UInt32}
    {s' : AtomicSlotCounter × SlotWorld}
    (hr : Returns (diskMachine F) p (reservedAt sha3 s.1 r) s.2 (.ok (s'.1, r')) s'.2) :
    Exact sha3 path pk slotStart slotEnd s' ∧ Moves slotEnd s s' (some r') := by
  obtain ⟨c', w'⟩ := s'
  rcases returns_reservedAt faithful_disk h hr with ⟨⟨e, he⟩, -⟩ | ⟨e, -, he, -⟩ | ⟨hb, hc, hx⟩
  · cases he
  · cases he
  · cases hc
    obtain ⟨hlo, hhi⟩ := burnAt_ok hb
    exact ⟨hx, hlo, hhi, toNat_succ_slot r⟩

theorem exact_step (h : Exact sha3 path pk slotStart slotEnd s) {slot : Option UInt32}
    {s' : AtomicSlotCounter × SlotWorld}
    (hstep : (counterSystem F sha3 path pk slotStart slotEnd).step s slot s') :
    Exact sha3 path pk slotStart slotEnd s' ∧ Moves slotEnd s s' slot := by
  cases slot with
  | none =>
    obtain ⟨p, hr⟩ := hstep
    rcases returns_reopen faithful_disk h hr with ⟨⟨e, he⟩, -⟩ | ⟨c', hc, -, hn, hx⟩
    · cases he
    · cases hc; exact ⟨hx, hn⟩
  | some r =>
    obtain ⟨p, hr | ⟨requested, hr⟩⟩ := hstep
    · rw [calls_ok_iff (commits_reserve s.1)] at hr
      by_cases hn : s.1.next.toNat ≤ s.1.slotEnd.toNat
      · rw [reserved_eq hn] at hr
        exact exact_reservedAt h hr
      · rw [reserved_exhausted (by omega)] at hr
        cases (Machine.runs_ret.mp hr).1
    · exact exact_reservedAt h ((calls_ok_iff (commits_reserveAt s.1 requested)).mp hr)

/-- Every counter of the system is exact. -/
theorem exact_reachable (hs : slotStart ≤ slotEnd)
    (hr : (counterSystem F sha3 path pk slotStart slotEnd).Reachable s) :
    Exact sha3 path pk slotStart slotEnd s := by
  refine LTS.Inductive.reachable ⟨?_, fun s l s' h hstep => (exact_step h hstep).1⟩ s hr
  rintro s ⟨p, w, ht, h⟩
  exact (returns_create hs ht h).2

/-! ## Storage that works -/

/-- A burn, with the state file alone. -/
theorem runs_burn {G : SlotWorld → SlotOp → Prop} {pow : Disk Path → Disk Path → Prop}
    {Q : SlotWorld → SlotOp → Prop} (F : Faults) (p : Nat) (sha3 : Bytes → Blob 32)
    {c : AtomicSlotCounter} {r : UInt32} (w : SlotWorld) (hg : c.generation.toNat + 1 < 2 ^ 64)
    (hr : c.next.toNat ≤ r.toNat ∧ r.toNat ≤ c.slotEnd.toNat)
    (hG : ∀ w op, (∀ h, op ≠ .readToEnd h) → Q w op ∧ G w op) : ∃ l,
    ((storage F G pow).restrict Succeeds).Runs Q p (reservedAt sha3 c r).run w
      (.ret (.ok (c.burned r, r)))
      ⟨burnedDisk sha3 c (r.toUInt64 + 1) w.disk, l ++ w.log⟩ ∧ ∀ e ∈ l, e.Quiet := by
  obtain ⟨l, h, hl⟩ := runs_persisted F p sha3 (r.toUInt64 + 1) w hg hG
  refine ⟨l, ?_, hl⟩
  rw [reservedAt_burns hr]
  exact runs_try.mpr (.inl ⟨_, _, h, .refl⟩)

theorem runs_reservedAt (F : Faults) (p : Nat) (h : Exact sha3 path pk slotStart slotEnd s)
    (r : UInt32) : ∃ x w', Returns (goodMachine F) p (reservedAt sha3 s.1 r) s.2 x w' := by
  cases hb : burnAt s.1.next s.1.slotEnd r with
  | error e => exact ⟨_, _, by rw [reservedAt_refused hb]; exact .refl⟩
  | ok r' =>
    obtain ⟨l, hr, -⟩ := runs_burn F p sha3 s.2 h.room.2 (burnAt_ok hb)
      fun _ _ _ => ⟨trivial, trivial⟩
    exact ⟨_, _, hr⟩

theorem runs_reopen (F : Faults) (p : Nat) (h : Exact sha3 path pk slotStart slotEnd s) :
    ∃ x w', Returns (goodMachine F) p (open_ sha3 path pk slotEnd) (released s.2) x w' := by
  have hi : (released s.2).disk.lookup path = some (s.2.disk.handle s.1.stateFile).ino :=
    h.onDisk.settled
  obtain ⟨d, l, hr⟩ := runs_open_good F p sha3 pk slotEnd rfl hi
  have hrec : recoverJournal sha3
      ((released s.2).disk.inode (s.2.disk.handle s.1.stateFile).ino).content
      (keyFingerprint sha3 pk) slotEnd = .ok _ := h.recovers
  rw [resume_journal hrec] at hr
  exact ⟨_, _, hr⟩

/-! ## The slots that are left -/

/-- Some future call returns `r`: after any calls that go on from `s`. -/
def Issuable (F : Faults) (sha3 : Bytes → Blob 32) (path : Path) (pk : XmssPublicKey)
    (slotStart slotEnd : UInt32) (s : AtomicSlotCounter × SlotWorld) (r : UInt32) : Prop :=
  ∃ s' s'', ({ counterSystem F sha3 path pk slotStart slotEnd with init := (· = s) } :
      LTS _ _).Reachable s' ∧
    (counterSystem F sha3 path pk slotStart slotEnd).step s' (some r) s''

theorem issuable_iff (h : Exact sha3 path pk slotStart slotEnd s) {r : UInt32} :
    Issuable F sha3 path pk slotStart slotEnd s r ↔
      s.1.next.toNat ≤ r.toNat ∧ r.toNat ≤ slotEnd.toNat := by
  constructor
  · intro h
    obtain ⟨s', s'', hreach, hstep⟩ := h
    -- the next free slot only grows on the way to `s'`
    have hinv : Exact sha3 path pk slotStart slotEnd s' ∧ s.1.next.toNat ≤ s'.1.next.toNat := by
      refine LTS.Inductive.reachable (I := fun t => Exact sha3 path pk slotStart slotEnd t ∧
        s.1.next.toNat ≤ t.1.next.toNat) ⟨?_, ?_⟩ s' hreach
      · rintro t rfl
        exact ⟨h, le_refl _⟩
      · rintro t slot t' ⟨ht, hle⟩ hstep
        obtain ⟨ht', hm⟩ := exact_step ht hstep
        refine ⟨ht', ?_⟩
        cases slot with
        | none => rw [show t'.1.next = t.1.next from hm]; exact hle
        | some r => obtain ⟨h1, -, h3⟩ := hm; omega
    obtain ⟨-, h1, h2, -⟩ := exact_step hinv.1 hstep
    exact ⟨by omega, h2⟩
  · intro h
    obtain ⟨h1, h2⟩ := h
    obtain ⟨x, w', hr⟩ := runs_reservedAt F 0 h r
    have hb : burnAt s.1.next slotEnd r = .ok r := if_pos ⟨h1, h2⟩
    rcases returns_reservedAt faithful_good h hr with ⟨-, hf⟩ | ⟨e, he, -⟩ | ⟨-, rfl, -⟩
    · exact absurd hf not_fails_good
    · rw [hb] at he; cases he
    · exact ⟨s, (s.1.burned r, w'), .init rfl, 0,
        .inr ⟨r, (calls_ok_iff (commits_reserveAt s.1 r)).mpr hr.of_restrict⟩⟩

theorem ncard_window {n e : Nat} (he : e < 2 ^ 32) :
    {r : UInt32 | n ≤ r.toNat ∧ r.toNat ≤ e}.ncard = e + 1 - n := by
  have himage : UInt32.toNat '' {r : UInt32 | n ≤ r.toNat ∧ r.toNat ≤ e} = Finset.Icc n e := by
    ext m
    simp only [Set.mem_image, Set.mem_ofPred_eq, Finset.coe_Icc, Set.mem_Icc]
    constructor
    · intro h
      obtain ⟨r, hr, rfl⟩ := h
      exact hr
    · intro hm
      have : (UInt32.ofNat m).toNat = m := UInt32.toNat_ofNat_of_lt' (show m < 2 ^ 32 by omega)
      exact ⟨UInt32.ofNat m, by rw [this]; exact hm, this⟩
  have hinj : Function.Injective UInt32.toNat := fun a b h => UInt32.toNat_inj.mp h
  rw [← Set.ncard_image_of_injective _ hinj, himage, Set.ncard_coe_finset, Nat.card_Icc]

theorem remaining_toNat (h : Exact sha3 path pk slotStart slotEnd s) :
    s.1.remaining.toNat = slotEnd.toNat + 1 - s.1.next.toNat := by
  have hstop : s.1.slotEnd = slotEnd := h.onDisk.stop
  have hend := toNat_succ_slot slotEnd
  have hle : s.1.next ≤ slotEnd.toUInt64 + 1 := by
    rw [UInt64.le_iff_toNat_le, hend]
    exact h.room.1
  unfold AtomicSlotCounter.remaining
  rw [hstop, if_pos hle, UInt64.toNat_sub_of_le _ _ hle, hend]

end

/-- Every counter reached from `create(slot_start, slot_end)` by calls that returned
`Ok`, while storage works: `reserve_at` does what `burnAt` says, and a refusal
changes nothing; `reserve` is `reserve_at` of the next free slot, or `Exhausted`;
the next free slot stays at or below `slot_end + 1`, fits a `u32` when it is handed
out and is the same after a drop-then-open; and `remaining` counts the slots that
can still be returned. -/
theorem counter_exact (F : Faults) (sha3 : Bytes → Blob 32) (path : Path) (pk : XmssPublicKey)
    (slotStart slotEnd : UInt32) (hs : slotStart ≤ slotEnd) (s : AtomicSlotCounter × SlotWorld)
    (hr : (counterSystem F sha3 path pk slotStart slotEnd).Reachable s) (p : Nat) :
    (∀ r, (∃ x c' w', Calls (goodMachine F) p (reserveAt sha3 r) s.1 s.2 x c' w') ∧
      ∀ x c' w', Calls (goodMachine F) p (reserveAt sha3 r) s.1 s.2 x c' w' →
        match burnAt s.1.next slotEnd r with
        | .ok _ => x = .ok r ∧ c'.next.toNat = r.toNat + 1
        | .error e => x = .error e ∧ c' = s.1 ∧ w' = s.2) ∧
    (s.1.next.toNat ≤ slotEnd.toNat →
      (reserve sha3).run.run s.1 = (reserveAt sha3 (UInt32.ofNat s.1.next.toNat)).run.run s.1 ∧
        (UInt32.ofNat s.1.next.toNat).toNat = s.1.next.toNat) ∧
    (slotEnd.toNat < s.1.next.toNat →
      (reserve sha3).run.run s.1 = .ret (.error (.exhausted s.1.next slotEnd), s.1)) ∧
    s.1.nextSlot.toNat ≤ slotEnd.toNat + 1 ∧
    (∃ x w', Returns (goodMachine F) p (open_ sha3 path pk slotEnd) (released s.2) x w') ∧
    (∀ x w', Returns (goodMachine F) p (open_ sha3 path pk slotEnd) (released s.2) x w' →
      ∃ c, x = .ok c ∧ c.next = s.1.next) ∧
    s.1.remaining.toNat = {r | Issuable F sha3 path pk slotStart slotEnd s r}.ncard := by
  have h := exact_reachable hs hr
  have hstop : s.1.slotEnd = slotEnd := h.onDisk.stop
  have hend := slotEnd.toNat_lt
  refine ⟨fun r => ⟨?_, fun x c' w' hcall => ?_⟩, fun hn => ⟨?_, ?_⟩,
    fun hn => ?_, h.room.1, runs_reopen F p h, fun x w' hret => ?_, ?_⟩
  · obtain ⟨z, w', hret⟩ := runs_reservedAt F p h r
    exact ⟨_, _, w', (calls_iff (commits_reserveAt s.1 r)).mpr ⟨z, hret, rfl⟩⟩
  · obtain ⟨z, hret, hz⟩ := (calls_iff (commits_reserveAt s.1 r)).mp hcall
    rcases returns_reservedAt faithful_good h hret with ⟨-, hf⟩ | ⟨e, hb, rfl, rfl⟩ | ⟨hb, rfl, -⟩
    · exact absurd hf not_fails_good
    · cases hz
      rw [hb]
      exact ⟨rfl, rfl, rfl⟩
    · cases hz
      rw [hb]
      exact ⟨rfl, toNat_succ_slot r⟩
  · rw [show (reserve sha3).run.run s.1 = _ from commits_reserve s.1,
      show (reserveAt sha3 _).run.run s.1 = _ from commits_reserveAt s.1 _,
      reserved_eq (by rw [hstop]; exact hn)]
  · exact UInt32.toNat_ofNat_of_lt' (show s.1.next.toNat < 2 ^ 32 by omega)
  · rw [show (reserve sha3).run.run s.1 = _ from commits_reserve s.1,
      reserved_exhausted (by rw [hstop]; exact hn), hstop]
    rfl
  · rcases returns_reopen faithful_good h hret with ⟨-, hf⟩ | ⟨c, rfl, -, hn, -⟩
    · exact absurd hf not_fails_good
    · exact ⟨c, rfl, hn⟩
  · simp only [issuable_iff h]
    rw [remaining_toNat h, ncard_window hend]

/-! ## The last slot -/

/-- `create` on an absent path. -/
theorem runs_create (F : Faults) (p : Nat) (sha3 : Bytes → Blob 32) (path : Path)
    (pk : XmssPublicKey) (slotStart slotEnd : UInt32) {w : SlotWorld} (hl : w.disk.lock = none)
    (hn : w.disk.lookup path = none) : ∃ f w',
    Returns (diskMachine F) p (create sha3 path pk slotStart slotEnd) w
      (.ok ⟨f, keyFingerprint sha3 pk, 0, slotStart.toUInt64, slotEnd⟩) w' := by
  set w₁ : SlotWorld := ⟨{ w.disk with lock := some p },
    .op (.metadata path) (.error ⟨.notFound, ""⟩) :: w.log⟩
  obtain ⟨w', h⟩ := runs_installCounter F p sha3 path (keyFingerprint sha3 pk) slotEnd
    slotStart.toUInt64 w₁
  refine ⟨w₁.disk.handles, w', ?_⟩
  refine runs_op .tryLock .acquired _ trivial trivial ⟨hl, rfl⟩ ?_
  exact runs_op (.metadata path) (.error ⟨.notFound, ""⟩) _ trivial trivial ⟨hn, rfl, rfl⟩
    h.of_restrict

open SlotJournal (slotFaults)

/-- SHA3-256 on what is hashed below: the sample key, and the record of generation
0 with the frontier `u32::MAX`. -/
def digestMax : Blob 32 :=
  ⟨[0xbc, 0x84, 0xaf, 0xf1, 0x41, 0x27, 0x5e, 0xbc, 0xef, 0xf8, 0x23, 0xe6, 0xe8, 0xcb, 0x80, 0x8a,
    0x33, 0x30, 0xa9, 0x5b, 0x6b, 0xa3, 0xfc, 0xf3, 0xdc, 0x95, 0x7d, 0x10, 0xe9, 0x6b, 0x3a, 0x91], rfl⟩
def topSha3 (bytes : Bytes) : Blob 32 := if bytes = demoKey.1 then sampleTag else digestMax

def maxSlot : UInt32 := 0xFFFFFFFF

/-- A key whose window is the single slot `u32::MAX`. -/
theorem counter_exact_top : ∃ s : AtomicSlotCounter × SlotWorld, s.1.next.toNat = 2 ^ 32 - 1 ∧
    {r | Issuable (slotFaults topSha3) topSha3 demoPath demoKey maxSlot maxSlot s r}.ncard = 1 := by
  obtain ⟨f, w', h⟩ := runs_create (slotFaults topSha3) 0 topSha3 demoPath demoKey maxSlot maxSlot
    (w := blank) rfl rfl
  let c : AtomicSlotCounter := ⟨f, keyFingerprint topSha3 demoKey, 0, maxSlot.toUInt64, maxSlot⟩
  refine ⟨(c, w'), rfl, ?_⟩
  obtain ⟨-, -, -, -, -, -, hrem⟩ := counter_exact (slotFaults topSha3) topSha3 demoPath demoKey
    maxSlot maxSlot (by decide) (c, w') (.init ⟨0, blank, tidy_empty _ _, h⟩) 0
  have hle : c.next ≤ c.slotEnd.toUInt64 + 1 := show maxSlot.toUInt64 ≤ maxSlot.toUInt64 + 1 by decide
  have hone : c.remaining = 1 := by
    rw [AtomicSlotCounter.remaining, if_pos hle]
    exact show maxSlot.toUInt64 + 1 - maxSlot.toUInt64 = 1 by decide
  rw [← hrem, hone]
  decide

end Drot.L2.SlotCounter
