import Drot.L2State.SlotJournal

/-!
# The counter's proof outline

What a run leaves in the log (`okSlots`, `spentSlots`, `SignsBacked`), the
crash invariant `Inv` and what a live counter means (`Holds`), one rule for
each operation of `AtomicSlotCounter` and `SignerNode`, and the outline they
add up to (`slotOutline`). The level is a variable throughout, so the runs with
kills only and the runs with power failures share every proof.
-/
namespace Drot.L2.SlotJournal
open Bytes Text L1.SlotRecord SlotCounter
open L1.Message (XmssPublicKey XmssSignature)

/-! ## The log -/

/-- The slot a call returned with `Ok`. -/
def okSlot : SlotEv → Option Nat
  | .ret (.slot s) => some s.toNat
  | .ret (.signed s _) => some s.toNat
  | _ => none

/-- The slot a returned reservation or a signature call used up. -/
def spentSlot : SlotEv → Option Nat
  | .ret (.slot s) => some s.toNat
  | .op (.ext c) _ => some c.slot.toNat
  | _ => none

/-- Newest first, as the log. -/
def okSlots (log : List SlotEv) : List Nat := log.filterMap okSlot

def spentSlots (log : List SlotEv) : List Nat := log.filterMap spentSlot

section
variable (sha3 : Bytes → Blob 32)

/-- A record with a frontier above `s` was written and, next, synced. -/
def Backed (log : List SlotEv) (s : Nat) : Prop :=
  ∃ l₁ l₂ h r, s < r.nextFree.toNat ∧
    log = l₁ ++ .op (.sync h) (.ok ()) :: .op (.write h (encodeRecord sha3 r)) (.ok ()) :: l₂

/-- Every signature call comes after a record that covers its slot. -/
def SignsBacked (log : List SlotEv) : Prop :=
  ∀ l₁ c a l₂, log = l₁ ++ .op (.ext c) a :: l₂ → Backed sha3 l₂ c.slot.toNat

/-- Every constructor that succeeds starts above all slots returned before. -/
def OpensAbove (log : List SlotEv) : Prop :=
  ∀ l₁ n l₂, log = l₁ ++ .ret (.opened n) :: l₂ → ∀ s ∈ okSlots l₂, s < n.toNat

/-- The log of a counter whose frontier is `n` and which started at `base`. -/
structure Logged (base n : Nat) (log : List SlotEv) : Prop where
  base_le : base ≤ n
  ok : (okSlots log).Pairwise (· > ·)
  spent : (spentSlots log).Pairwise (· > ·)
  okBelow : ∀ s ∈ okSlots log, base ≤ s ∧ s < n
  spentBelow : ∀ s ∈ spentSlots log, base ≤ s ∧ s < n
  backed : SignsBacked sha3 log
  opened : OpensAbove log

end

section Log
variable {sha3 : Bytes → Blob 32} {base n : Nat} {log : List SlotEv} {e : SlotEv}

theorem okSlot_of_quiet (h : e.Quiet) : okSlot e = none := by
  cases e with
  | ret r => exact absurd h (by simp [Ev.Quiet])
  | op o r => rfl

theorem spentSlot_of_quiet (h : e.Quiet) : spentSlot e = none := by
  cases e with
  | ret r => exact absurd h (by simp [Ev.Quiet])
  | op o r => cases o <;> first | rfl | exact absurd h (by simp [Ev.Quiet])

theorem Logged.mono (h : Logged sha3 base n log) {m : Nat} (hm : n ≤ m) :
    Logged sha3 base m log := by
  refine ⟨h.base_le.trans hm, h.ok, h.spent, fun s hs => ?_, fun s hs => ?_, h.backed, h.opened⟩
  · exact ⟨(h.okBelow s hs).1, (h.okBelow s hs).2.trans_le hm⟩
  · exact ⟨(h.spentBelow s hs).1, (h.spentBelow s hs).2.trans_le hm⟩

/-- What one more event needs. -/
theorem Logged.cons (h : Logged sha3 base n log)
    (hok : ∀ s, okSlot e = some s → base ≤ s ∧ s < n ∧ ∀ x ∈ okSlots log, x < s)
    (hspent : ∀ s, spentSlot e = some s → base ≤ s ∧ s < n ∧ ∀ x ∈ spentSlots log, x < s)
    (hsign : ∀ c a, e = .op (.ext c) a → Backed sha3 log c.slot.toNat)
    (hopen : ∀ m, e = .ret (.opened m) → ∀ s ∈ okSlots log, s < m.toNat) :
    Logged sha3 base n (e :: log) := by
  refine ⟨h.base_le, ?_, ?_, ?_, ?_, ?_, ?_⟩
  · unfold okSlots
    cases ho : okSlot e with
    | none => rw [List.filterMap_cons_none ho]; exact h.ok
    | some s => rw [List.filterMap_cons_some ho]; exact .cons (hok s ho).2.2 h.ok
  · unfold spentSlots
    cases ho : spentSlot e with
    | none => rw [List.filterMap_cons_none ho]; exact h.spent
    | some s => rw [List.filterMap_cons_some ho]; exact .cons (hspent s ho).2.2 h.spent
  · intro s hs
    rw [okSlots, List.mem_filterMap] at hs
    obtain ⟨x, hx, hs⟩ := hs
    rcases List.mem_cons.mp hx with rfl | hx
    · exact ⟨(hok s hs).1, (hok s hs).2.1⟩
    · exact h.okBelow s (List.mem_filterMap.mpr ⟨x, hx, hs⟩)
  · intro s hs
    rw [spentSlots, List.mem_filterMap] at hs
    obtain ⟨x, hx, hs⟩ := hs
    rcases List.mem_cons.mp hx with rfl | hx
    · exact ⟨(hspent s hs).1, (hspent s hs).2.1⟩
    · exact h.spentBelow s (List.mem_filterMap.mpr ⟨x, hx, hs⟩)
  · intro l₁ c a l₂ hl
    cases l₁ with
    | nil => cases hl; exact hsign c a rfl
    | cons x l₁ => cases hl; exact h.backed l₁ c a l₂ rfl
  · intro l₁ m l₂ hl
    cases l₁ with
    | nil => cases hl; exact hopen m rfl
    | cons x l₁ => cases hl; exact h.opened l₁ m l₂ rfl

theorem Logged.quiet (h : Logged sha3 base n log) {l : List SlotEv} (hl : ∀ e ∈ l, e.Quiet) :
    Logged sha3 base n (l ++ log) := by
  induction l with
  | nil => exact h
  | cons e l ih =>
    have he := hl e (by simp)
    refine (ih fun x hx => hl x (by simp [hx])).cons ?_ ?_ ?_ ?_
    · intro s hs; rw [okSlot_of_quiet he] at hs; cases hs
    · intro s hs; rw [spentSlot_of_quiet he] at hs; cases hs
    · rintro c a rfl; exact absurd he (by simp [Ev.Quiet])
    · rintro m rfl; exact absurd he (by simp [Ev.Quiet])

theorem okSlots_quiet {l : List SlotEv} (hl : ∀ e ∈ l, e.Quiet) :
    okSlots (l ++ log) = okSlots log := by
  unfold okSlots
  rw [List.filterMap_append, List.filterMap_eq_nil_iff.mpr fun e he => okSlot_of_quiet (hl e he)]
  rfl

theorem spentSlots_quiet {l : List SlotEv} (hl : ∀ e ∈ l, e.Quiet) :
    spentSlots (l ++ log) = spentSlots log := by
  unfold spentSlots
  rw [List.filterMap_append,
    List.filterMap_eq_nil_iff.mpr fun e he => spentSlot_of_quiet (hl e he)]
  rfl

/-- A log in which nothing was returned and nothing signed. -/
theorem Logged.of_quiet (h : ∀ e ∈ log, e.Quiet) (hn : base ≤ n) : Logged sha3 base n log := by
  have h0 : Logged sha3 base n ([] : List SlotEv) := by
    refine ⟨hn, .nil, .nil, by simp [okSlots], by simp [spentSlots], ?_, ?_⟩
    · intro l₁ c a l₂ hl; simp at hl
    · intro l₁ m l₂ hl; simp at hl
  simpa using h0.quiet h

end Log

/-! ## The invariant -/

section
variable (sha3 : Bytes → Blob 32) (path : Path) (keyTag : Blob 32) (slotEnd : UInt32) (L : Level)
  (base : Nat)

/-- A synced file that is not a journal; `base` is not above any frontier
`parse_legacy` finds in it. -/
structure LegacyFile (f : File) : Prop where
  clean : ∀ c ∈ f, c.pending = []
  length : f.content.length ≠ journalSize
  frontier : ∀ text next unversioned, fromUtf8 f.content = some text →
    parseLegacy text keyTag = .ok (next, unversioned) → base ≤ next.toNat

/-- What the path may refer to before the first constructor has returned. -/
def FreshFile (f : File) : Prop :=
  LegacyFile keyTag base f ∨ ∃ n, base ≤ n.toNat ∧ Core sha3 keyTag slotEnd L f 0 n

/-- Nothing was returned yet. -/
structure Fresh (w : SlotWorld) : Prop where
  log : ∀ e ∈ w.log, e.Quiet
  names : ∀ m ∈ w.disk.dir.all, (m path = none ∧ base = 0) ∨
    ∃ i, m path = some i ∧ FreshFile sha3 keyTag slotEnd L base (w.disk.inode i)

/-- The path refers to a journal whose frontier covers the log. -/
def Live (w : SlotWorld) : Prop :=
  ∃ i g n, L.settled path w.disk.dir i ∧ Core sha3 keyTag slotEnd L (w.disk.inode i) g n ∧
    Logged sha3 base n.toNat w.log

/-- The crash invariant. -/
def Inv (w : SlotWorld) : Prop :=
  Tidy (sibling path "tmp") path w.disk ∧
    (Fresh sha3 path keyTag slotEnd L base w ∨ Live sha3 path keyTag slotEnd L base w)

/-- The journal `c` writes to is the one at the path, and `c` knows its
generation and its frontier. -/
structure OnDisk (c : AtomicSlotCounter) (d : Disk Path) : Prop where
  tidy : Tidy (sibling path "tmp") path d
  tag : c.keyTag = keyTag
  stop : c.slotEnd = slotEnd
  settled : L.settled path d.dir (d.handle c.stateFile).ino
  core : Core sha3 keyTag slotEnd L (d.file c.stateFile) c.generation c.next

/-- What a counter that no call is using means. -/
def Holds (c : AtomicSlotCounter) (w : SlotWorld) : Prop :=
  OnDisk sha3 path keyTag slotEnd L c w.disk ∧ Logged sha3 base c.next.toNat w.log

end

section Frames
variable {sha3 : Bytes → Blob 32} {path : Path} {keyTag : Blob 32} {slotEnd : UInt32} {L : Level}
  {base : Nat} {c : AtomicSlotCounter} {d d' : Disk Path} {w : SlotWorld}

theorem Holds.inv (h : Holds sha3 path keyTag slotEnd L base c w) :
    Inv sha3 path keyTag slotEnd L base w :=
  ⟨h.1.tidy, .inr ⟨_, _, _, h.1.settled, h.1.core, h.2⟩⟩

/-- The invariant is about the directory, the files and the log only. -/
theorem Inv.frame {l : List SlotEv} (h : Inv sha3 path keyTag slotEnd L base ⟨d, l⟩)
    (hdir : d'.dir = d.dir) (hino : d'.inode = d.inode) (hfresh : d'.fresh = d.fresh) :
    Inv sha3 path keyTag slotEnd L base ⟨d', l⟩ := by
  obtain ⟨dir, inode, fresh, hd, hds, lock⟩ := d
  obtain ⟨dir', inode', fresh', hd', hds', lock'⟩ := d'
  simp only at hdir hino hfresh
  subst hdir hino hfresh
  obtain ⟨⟨t1, t2, t3, t4⟩, ⟨f1, f2⟩ | h⟩ := h
  · exact ⟨⟨t1, t2, t3, t4⟩, .inl ⟨f1, f2⟩⟩
  · exact ⟨⟨t1, t2, t3, t4⟩, .inr h⟩

theorem Inv.quiet {l : List SlotEv} (h : Inv sha3 path keyTag slotEnd L base ⟨d, l⟩)
    (l' : List SlotEv) (hl : ∀ e ∈ l', e.Quiet) : Inv sha3 path keyTag slotEnd L base ⟨d, l' ++ l⟩ := by
  obtain ⟨ht, ⟨f1, f2⟩ | ⟨i, g, n, h1, h2, h3⟩⟩ := h
  · refine ⟨ht, .inl ⟨fun e he => ?_, f2⟩⟩
    rcases List.mem_append.mp he with he | he
    · exact hl e he
    · exact f1 e he
  · exact ⟨ht, .inr ⟨i, g, n, h1, h2, h3.quiet hl⟩⟩

/-- The disk moves under a live counter. -/
theorem OnDisk.move (h : OnDisk sha3 path keyTag slotEnd L c d) {c' : AtomicSlotCounter}
    (hdir : d'.dir = d.dir) (hfresh : d'.fresh = d.fresh)
    (hino : (d'.handle c.stateFile).ino = (d.handle c.stateFile).ino)
    (hs : c'.stateFile = c.stateFile) (ht : c'.keyTag = c.keyTag) (he : c'.slotEnd = c.slotEnd)
    (hcore : Core sha3 keyTag slotEnd L (d'.inode (d.handle c.stateFile).ino) c'.generation c'.next) :
    OnDisk sha3 path keyTag slotEnd L c' d' := by
  obtain ⟨⟨t1, t2, t3, t4⟩, htag, hstop, hset, -⟩ := h
  refine ⟨⟨?_, ?_, ?_, ?_⟩, ht.trans htag, he.trans hstop, ?_, ?_⟩
  · rw [hdir, hfresh]; exact t1
  · rw [hdir, hfresh]; exact t2
  · rw [hdir]; exact t3
  · unfold Disk.lookup; rw [hdir]; exact t4
  · rw [hs, hino, hdir]; exact hset
  · unfold Disk.file; rw [hs, hino]; exact hcore

/-- Before the first return, the steps of `install_journal` up to the rename
change nothing that counts. -/
theorem Fresh.scratch {l l' : List SlotEv} (h : Fresh sha3 path keyTag slotEnd L base ⟨d, l⟩)
    (hs : Scratch (sibling path "tmp") path d d') (hl : ∀ e ∈ l', e.Quiet) :
    Inv sha3 path keyTag slotEnd L base ⟨d', l' ++ l⟩ := by
  refine ⟨hs.tidy, .inl ⟨fun e he => ?_, fun m' hm' => ?_⟩⟩
  · rcases List.mem_append.mp he with he | he
    · exact hl e he
    · exact h.log e he
  · obtain ⟨m, hm, he⟩ := hs.names m' hm'
    rcases h.names m hm with ⟨hn, hb⟩ | ⟨i, hi, hf⟩
    · exact .inl ⟨he.trans hn, hb⟩
    · refine .inr ⟨i, he.trans hi, ?_⟩
      rw [hs.files m hm i hi]; exact hf

theorem Fresh.replaced {l l' : List SlotEv} (h : Fresh sha3 path keyTag slotEnd L base ⟨d, l⟩)
    {n : UInt64} {i : Nat} (hn : base ≤ n.toNat) (hw : n.toNat ≤ slotEnd.toNat + 1)
    (hr : Replaced (sibling path "tmp") path (journalImage sha3 keyTag n) i d d')
    (hl : ∀ e ∈ l', e.Quiet) : Inv sha3 path keyTag slotEnd L base ⟨d', l' ++ l⟩ := by
  refine ⟨hr.tidy, .inl ⟨fun e he => ?_, fun m' hm' => ?_⟩⟩
  · rcases List.mem_append.mp he with he | he
    · exact hl e he
    · exact h.log e he
  · rcases hr.names m' hm' with hi | ⟨m, hm, he⟩
    · refine .inr ⟨i, hi, .inr ⟨n, hn, ?_⟩⟩
      rw [hr.file]; exact core_image hw
    · rcases h.names m hm with ⟨hn', hb⟩ | ⟨j, hj, hf⟩
      · exact .inl ⟨he.trans hn', hb⟩
      · refine .inr ⟨j, he.trans hj, ?_⟩
        rw [hr.files m hm j hj]; exact hf

/-- After the directory sync the new journal is the only file the path can
refer to. -/
theorem Fresh.installed {l l' : List SlotEv} (h : Fresh sha3 path keyTag slotEnd L base ⟨d, l⟩)
    {n : UInt64} {i k : Nat} (hn : base ≤ n.toNat) (hw : n.toNat ≤ slotEnd.toNat + 1)
    (hr : Installed (sibling path "tmp") path (journalImage sha3 keyTag n) i d d')
    (hk : (d'.handle k).ino = i) (hl : ∀ e ∈ l', e.Quiet) :
    Holds sha3 path keyTag slotEnd L base ⟨k, keyTag, 0, n, slotEnd⟩ ⟨d', l' ++ l⟩ := by
  refine ⟨⟨hr.tidy, rfl, rfl, ?_, ?_⟩, ?_⟩
  · subst hk; exact settled_of_all hr.settled
  · unfold Disk.file; rw [hk, hr.file]; exact core_image hw
  · exact (Logged.of_quiet h.log hn).quiet hl

end Frames

/-! ## The rules -/

section Rules
variable {sha3 : Bytes → Blob 32} {path : Path} {keyTag : Blob 32} {slotEnd : UInt32} {L : Level}
  {base p : Nat} {c : AtomicSlotCounter} {w : SlotWorld}

theorem succ_toNat {x : UInt64} (h : x.toNat + 1 < 2 ^ 64) : (x + 1).toNat = x.toNat + 1 := by
  rw [UInt64.toNat_add, UInt64.toNat_one]; omega

/-- What a write of the next record leaves, whether it fails or not: the
counter still holds. -/
theorem holds_write (h : Holds sha3 path keyTag slotEnd L base c w) {d d' : Disk Path}
    {bs : Bytes} (hb : bs.length = recordSize)
    (ho : ∀ r, decodeRecord sha3 bs ((c.generation.toNat + 1) % 2) = .ok (some r) →
      Other keyTag slotEnd c.generation.toNat c.next.toNat (some r))
    (hd : d = w.disk.seekTo c.stateFile ((c.generation.toNat + 1) % 2 * journalSlotSize))
    (hdir : d'.dir = d.dir) (hfresh : d'.fresh = d.fresh)
    (hino : (d'.handle c.stateFile).ino = (d.handle c.stateFile).ino)
    (hfile : d'.inode = (d.writeTo c.stateFile bs).inode) :
    Holds sha3 path keyTag slotEnd L base c ⟨d', w.log⟩ := by
  subst hd
  refine ⟨h.1.move hdir hfresh (by rw [hino]; simp) rfl rfl rfl ?_, h.2⟩
  have hw := Disk.writeTo_inode_self
    (w.disk.seekTo c.stateFile ((c.generation.toNat + 1) % 2 * journalSlotSize)) c.stateFile bs
  rw [Disk.seekTo_ino] at hw
  rw [hfile, hw]
  simp only [Disk.file, Disk.seekTo_inode, Disk.seekTo_handle_self]
  exact core_write h.1.core hb ho

theorem Holds.log {d : Disk Path} {l : List SlotEv} {e : SlotEv}
    (h : Holds sha3 path keyTag slotEnd L base c ⟨d, l⟩) (he : e.Quiet) :
    Holds sha3 path keyTag slotEnd L base c ⟨d, e :: l⟩ :=
  ⟨h.1, h.2.quiet (l := [e]) (by simpa using he)⟩

/-- The next record, in the inactive region. -/
theorem other_nextRecord (h : Holds sha3 path keyTag slotEnd L base c w)
    (hg : c.generation.toNat + 1 < 2 ^ 64) {t : UInt64} (ht : c.next.toNat < t.toNat)
    (hw : t.toNat ≤ slotEnd.toNat + 1) (r : JournalRecord)
    (hr : decodeRecord sha3 (encodeRecord sha3 ⟨c.generation + 1, t, c.keyTag⟩)
      ((c.generation.toNat + 1) % 2) = .ok (some r)) :
    Other keyTag slotEnd c.generation.toNat c.next.toNat (some r) := by
  rw [decodeRecord_encodeRecord_eq] at hr
  split at hr
  · cases hr
  · cases hr
    intro r' hr'
    cases hr'
    exact ⟨h.1.tag, .inr ⟨succ_toNat hg, ht, hw⟩⟩

/-- A write that fails leaves nothing, all of the record or a torn part of it. -/
theorem holds_failedWrite (h : Holds sha3 path keyTag slotEnd L base c w) {d d' : Disk Path}
    {bs : Bytes} (hb : bs.length = recordSize)
    (ho : ∀ r, decodeRecord sha3 bs ((c.generation.toNat + 1) % 2) = .ok (some r) →
      Other keyTag slotEnd c.generation.toNat c.next.toNat (some r))
    (hd : d = w.disk.seekTo c.stateFile ((c.generation.toNat + 1) % 2 * journalSlotSize))
    (hx : (∃ pos, d' = d.seekTo c.stateFile pos) ∨ ∃ bs' pos,
      (bs' = bs ∨ (slotFaults sha3).tear (d.handle c.stateFile).pos bs bs') ∧
        d' = (d.writeTo c.stateFile bs').seekTo c.stateFile pos) :
    Holds sha3 path keyTag slotEnd L base c ⟨d', w.log⟩ := by
  rcases hx with ⟨pos, rfl⟩ | ⟨bs', pos, htear, rfl⟩
  · subst hd
    exact ⟨h.1.move rfl rfl (by simp) rfl rfl rfl h.1.core, h.2⟩
  · have hb' : bs'.length = recordSize ∧ ∀ r,
        decodeRecord sha3 bs' ((c.generation.toNat + 1) % 2) = .ok (some r) →
        Other keyTag slotEnd c.generation.toNat c.next.toNat (some r) := by
      rcases htear with rfl | htear
      · exact ⟨hb, ho⟩
      · have hpos : (d.handle c.stateFile).pos / journalSlotSize =
            (c.generation.toNat + 1) % 2 := by
          rw [hd, Disk.seekTo_handle_self]
          exact Nat.mul_div_cancel _ (by decide)
        obtain ⟨h1, h2⟩ := htear hb
        rw [hpos] at h2
        exact ⟨h1, fun r hr => absurd hr (h2 r)⟩
    exact holds_write h hb'.1 hb'.2 hd rfl rfl (by simp) rfl

/-- After the sync the journal is one generation on. -/
theorem onDisk_synced (h : Holds sha3 path keyTag slotEnd L base c w)
    (hg : c.generation.toNat + 1 < 2 ^ 64) {t : UInt64} (ht : c.next.toNat < t.toNat)
    (hw : t.toNat ≤ slotEnd.toNat + 1) {d : Disk Path}
    (hd : d = w.disk.seekTo c.stateFile ((c.generation.toNat + 1) % 2 * journalSlotSize)) :
    OnDisk sha3 path keyTag slotEnd L { c with generation := c.generation + 1, next := t }
      ((d.writeTo c.stateFile (encodeRecord sha3 ⟨c.generation + 1, t, c.keyTag⟩)).syncFile
        c.stateFile) := by
  set bs := encodeRecord sha3 ⟨c.generation + 1, t, c.keyTag⟩ with hbs
  have hi : (d.handle c.stateFile).ino = (w.disk.handle c.stateFile).ino := by rw [hd]; simp
  have hp : (d.handle c.stateFile).pos = (c.generation.toNat + 1) % 2 * journalSlotSize := by
    rw [hd]; simp
  have hf : d.file c.stateFile = w.disk.file c.stateFile := by
    unfold Disk.file; rw [hi, hd]; rfl
  have hino : ((d.writeTo c.stateFile bs).handle c.stateFile).ino =
      (w.disk.handle c.stateFile).ino := by rw [← hi]; simp
  refine h.1.move (by rw [hd]; rfl) (by rw [hd]; rfl) (by rw [Disk.syncFile_handle, hino])
    rfl rfl rfl ?_
  have hs := Disk.syncFile_inode_self (d.writeTo c.stateFile bs) c.stateFile
  have hwr := Disk.writeTo_inode_self d c.stateFile bs
  rw [hi, hp, hf] at hwr
  rw [hino] at hs
  rw [hs, Disk.file, hino, hwr, hbs, h.1.tag]
  exact core_sync h.1.core hg ht hw

/-- `persist_next`: a failure leaves the counter as it was, a success moves the
journal one generation on. -/
theorem wp_persisted (h : Holds sha3 path keyTag slotEnd L base c w)
    (hl : w.disk.lock = some p) {t : UInt64} (ht : c.next.toNat < t.toNat)
    (hw : t.toNat ≤ slotEnd.toNat + 1) :
    (slotMachine sha3 path keyTag slotEnd L).wp (Inv sha3 path keyTag slotEnd L base) p
      (persisted sha3 c t).run (fun x w' => w'.disk.lock = some p ∧
        match x with
        | .error _ => Holds sha3 path keyTag slotEnd L base c w'
        | .ok c' => OnDisk sha3 path keyTag slotEnd L { c' with next := t } w'.disk ∧
          ∃ l, w'.log = l ++ w.log ∧ (∀ e ∈ l, e.Quiet) ∧ Backed sha3 l (t.toNat - 1)) w := by
  unfold slotMachine persisted
  split
  case isFalse => exact Machine.wp_ret (M := storage _ _ _) h.inv hl ⟨hl, h⟩
  rename_i hg
  have hrec := other_nextRecord h hg ht hw
  have hblen := length_encodeRecord sha3 ⟨c.generation + 1, t, c.keyTag⟩
  have hd := onDisk_synced h hg ht hw rfl
  dsimp only
  rw [succ_toNat hg]
  set bs := encodeRecord sha3 ⟨c.generation + 1, t, c.keyTag⟩
  -- seek
  refine wp_io (by simp) h.inv hl ?_
  intro r d1 _ hx1 hl1
  rcases r with e | u
  · cases hx1
    exact ⟨(h.log (by exact trivial)).inv, hl, h.log (by exact trivial)⟩
  have hx1 : d1 = w.disk.seekTo c.stateFile ((c.generation.toNat + 1) % 2 * journalSlotSize) := hx1
  have hh1 : Holds sha3 path keyTag slotEnd L base c ⟨d1, w.log⟩ := by
    rw [hx1]; exact ⟨h.1.move rfl rfl (by simp) rfl rfl rfl h.1.core, h.2⟩
  -- write
  refine wp_io (by simp) (hh1.log (by exact trivial)).inv hl1 ?_
  intro r d2 _ hx2 hl2
  rcases r with e | u2
  · have hh2 := holds_failedWrite h hblen hrec hx1 hx2
    have hlog {a b : SlotEv} (ha : a.Quiet) (hb : b.Quiet) := (hh2.log ha).log hb
    exact ⟨(hlog (by exact trivial) (by exact trivial)).inv, hl2,
      hlog (by exact trivial) (by exact trivial)⟩
  obtain rfl : d2 = d1.writeTo c.stateFile bs := hx2
  have hh2 : Holds sha3 path keyTag slotEnd L base c ⟨d1.writeTo c.stateFile bs, w.log⟩ :=
    holds_write h hblen hrec hx1 rfl rfl (by simp) rfl
  -- sync
  refine wp_io (by simp) ((hh2.log (by exact trivial)).log (by exact trivial)).inv hl2 ?_
  intro r d3 _ hx3 hl3
  rcases r with e | u3
  · cases hx3
    have hlog {a b x : SlotEv} (ha : a.Quiet) (hb : b.Quiet) (hx : x.Quiet) :=
      ((hh2.log ha).log hb).log hx
    exact ⟨(hlog (by exact trivial) (by exact trivial) (by exact trivial)).inv, hl3,
      hlog (by exact trivial) (by exact trivial) (by exact trivial)⟩
  obtain rfl : d3 = (d1.writeTo c.stateFile bs).syncFile c.stateFile := hx3
  rw [← hx1] at hd
  have hq : ∀ x ∈ ([.op (.sync c.stateFile) (.ok u3), .op (.write c.stateFile bs) (.ok u2),
      .op (.seek c.stateFile ((c.generation.toNat + 1) % 2 * journalSlotSize)) (.ok u)] :
      List SlotEv), x.Quiet := by simp [Ev.Quiet]
  have hlog := (h.2.mono ht.le).quiet hq
  have hinv : Inv sha3 path keyTag slotEnd L base
      ⟨(d1.writeTo c.stateFile bs).syncFile c.stateFile, _⟩ :=
    Holds.inv (c := { c with generation := c.generation + 1, next := t }) ⟨hd, hlog⟩
  refine Machine.wp_ret (M := storage _ _ _) hinv hl3 ⟨hl3, hd, _, rfl, hq, ?_⟩
  refine ⟨[], [_], c.stateFile, ⟨c.generation + 1, t, c.keyTag⟩, ?_, rfl⟩
  show t.toNat - 1 < t.toNat
  omega

section
variable (sha3 path keyTag slotEnd L base)

/-- What a successful reservation of `s` leaves. -/
structure Burned (c : AtomicSlotCounter) (s : UInt32) (w : SlotWorld) : Prop where
  holds : Holds sha3 path keyTag slotEnd L base c w
  below : s.toNat < c.next.toNat
  above : base ≤ s.toNat
  ok : ∀ x ∈ okSlots w.log, x < s.toNat
  spent : ∀ x ∈ spentSlots w.log, x < s.toNat
  backed : Backed sha3 w.log s.toNat

/-- What a reservation on `c` leaves. -/
def BurnPost (p : Nat) (c : AtomicSlotCounter)
    (x : Except AtomicSlotCounterError (AtomicSlotCounter × UInt32)) (w : SlotWorld) : Prop :=
  w.disk.lock = some p ∧
    match x with
    | .error _ => Holds sha3 path keyTag slotEnd L base c w
    | .ok (c', s) => Burned sha3 path keyTag slotEnd L base c' s w

end

/-- Persisting a frontier one above a slot that is still free burns it. -/
theorem wp_burn (h : Holds sha3 path keyTag slotEnd L base c w) (hl : w.disk.lock = some p)
    {s : UInt32} {t : UInt64} (hs : c.next.toNat ≤ s.toNat) (ht : t.toNat = s.toNat + 1)
    (he : s.toNat ≤ slotEnd.toNat) :
    (slotMachine sha3 path keyTag slotEnd L).wp (Inv sha3 path keyTag slotEnd L base) p
      (do let c ← persisted sha3 c t
          return ({ c with next := t }, s) : SlotIo _).run
      (BurnPost sha3 path keyTag slotEnd L base p c) w := by
  unfold slotMachine
  refine wp_try _ (wp_persisted h hl (by omega) (by omega)) (fun e w' _ hx => ?_) ?_
  · exact ⟨hx.1, hx.1, hx.2⟩
  rintro c' ⟨d, l'⟩ hc ⟨hl', hd, l, rfl, hq, hb⟩
  have hlog : Logged sha3 base t.toNat (l ++ w.log) := (h.2.mono (by omega)).quiet hq
  refine Machine.wp_ret (M := storage _ _ _) hc hl' ⟨hl', ⟨hd, hlog⟩, ?_, ?_, ?_, ?_, ?_⟩
  · show s.toNat < t.toNat; omega
  · have := h.2.base_le; omega
  · intro x hx
    rw [okSlots_quiet hq] at hx
    have := (h.2.okBelow x hx).2; omega
  · intro x hx
    rw [spentSlots_quiet hq] at hx
    have := (h.2.spentBelow x hx).2; omega
  · obtain ⟨l₁, l₂, k, r, hr, rfl⟩ := hb
    exact ⟨l₁, l₂ ++ w.log, k, r, by omega, by simp⟩

theorem wp_reserved (h : Holds sha3 path keyTag slotEnd L base c w) (hl : w.disk.lock = some p) :
    (slotMachine sha3 path keyTag slotEnd L).wp (Inv sha3 path keyTag slotEnd L base) p
      (reserved sha3 c).run (BurnPost sha3 path keyTag slotEnd L base p c) w := by
  unfold reserved
  split
  · exact Machine.wp_ret (M := slotMachine _ _ _ _ _) h.inv hl ⟨hl, h⟩
  · rename_i hn
    rw [UInt64.lt_iff_toNat_lt, h.1.stop, UInt32.toNat_toUInt64, Nat.not_lt] at hn
    have hend := slotEnd.toNat_lt
    have hs : (UInt32.ofNat c.next.toNat).toNat = c.next.toNat := by
      rw [UInt32.toNat_ofNat']; omega
    exact wp_burn h hl hs.ge (by rw [succ_toNat (by omega), hs]) (by omega)

theorem wp_reservedAt (h : Holds sha3 path keyTag slotEnd L base c w) (hl : w.disk.lock = some p)
    (requested : UInt32) :
    (slotMachine sha3 path keyTag slotEnd L).wp (Inv sha3 path keyTag slotEnd L base) p
      (reservedAt sha3 c requested).run (BurnPost sha3 path keyTag slotEnd L base p c) w := by
  unfold reservedAt
  split
  · exact Machine.wp_ret (M := slotMachine _ _ _ _ _) h.inv hl ⟨hl, h⟩
  split
  · exact Machine.wp_ret (M := slotMachine _ _ _ _ _) h.inv hl ⟨hl, h⟩
  · rename_i h1 h2
    rw [not_or, UInt32.lt_iff_toNat_lt, h.1.stop] at h1
    rw [UInt64.lt_iff_toNat_lt, UInt32.toNat_toUInt64] at h2
    have hreq := requested.toNat_lt
    refine wp_burn h hl (by omega) ?_ (by omega)
    rw [succ_toNat (by rw [UInt32.toNat_toUInt64]; omega), UInt32.toNat_toUInt64]

/-- What `sign` and `sign_at` leave: the counter moved on and the slot is
spent, whether `leanvm` signed or not. -/
def SignPost (sha3 : Bytes → Blob 32) (path : Path) (keyTag : Blob 32) (slotEnd : UInt32)
    (L : Level) (base p : Nat)
    (x : AtomicSlotCounter × Except SignerNodeError (UInt32 × XmssSignature)) (w : SlotWorld) :
    Prop :=
  w.disk.lock = some p ∧ Holds sha3 path keyTag slotEnd L base x.1 w ∧
    ∀ s sig, x.2 = .ok (s, sig) →
      base ≤ s.toNat ∧ s.toNat < x.1.next.toNat ∧ ∀ y ∈ okSlots w.log, y < s.toNat

theorem wp_burnAndSign {burn : SlotMut UInt32} {y : SlotIo (AtomicSlotCounter × UInt32)}
    {message : Blob 32} (hy : Prog.Commits burn c y)
    (hb : (slotMachine sha3 path keyTag slotEnd L).wp (Inv sha3 path keyTag slotEnd L base) p
      y.run (BurnPost sha3 path keyTag slotEnd L base p c) w) :
    (slotMachine sha3 path keyTag slotEnd L).wp (Inv sha3 path keyTag slotEnd L base) p
      (burnAndSign c burn message) (SignPost sha3 path keyTag slotEnd L base p) w := by
  unfold burnAndSign
  rw [hy.bind]
  refine Machine.wp_bind (Machine.wp_mono hb fun x w' hx hc => ?_)
  cases x with
  | error e =>
    exact Machine.wp_ret (M := slotMachine _ _ _ _ _) hc hx.1 ⟨hx.1, hx.2, by rintro s sig ⟨⟩⟩
  | ok y =>
    obtain ⟨c', s⟩ := y
    obtain ⟨hl, hB⟩ := hx
    unfold slotMachine
    refine wp_call (by simp) hc hl fun r d hg hx hl' => ?_
    obtain rfl : d = w'.disk := hx
    have hh : Holds sha3 path keyTag slotEnd L base c'
        ⟨w'.disk, .op (.ext ⟨s, message⟩) r :: w'.log⟩ := by
      refine ⟨hB.holds.1, hB.holds.2.cons ?_ ?_ ?_ ?_⟩
      · intro x hx; cases hx
      · intro x hx; cases hx; exact ⟨hB.above, hB.below, hB.spent⟩
      · rintro _ _ ⟨⟩; exact hB.backed
      · rintro _ ⟨⟩
    cases r with
    | error e => exact Machine.wp_ret (M := storage _ _ _) hh.inv hl ⟨hl, hh, by rintro _ _ ⟨⟩⟩
    | ok sig =>
      refine Machine.wp_ret (M := storage _ _ _) hh.inv hl ⟨hl, hh, ?_⟩
      rintro _ _ ⟨⟩
      exact ⟨hB.above, hB.below, hB.ok⟩

/-! ### Constructors -/

/-- What a constructor leaves. -/
def OpenPost (sha3 : Bytes → Blob 32) (path : Path) (keyTag : Blob 32) (slotEnd : UInt32)
    (L : Level) (base p : Nat) (x : Except AtomicSlotCounterError AtomicSlotCounter)
    (w : SlotWorld) : Prop :=
  ∀ c, x = .ok c → w.disk.lock = some p ∧ Holds sha3 path keyTag slotEnd L base c w

theorem wp_refuse (hc : Inv sha3 path keyTag slotEnd L base w) (hl : w.disk.lock = some p)
    (e : AtomicSlotCounterError) :
    (slotMachine sha3 path keyTag slotEnd L).wp (Inv sha3 path keyTag slotEnd L base) p
      (.ret (.error e)) (OpenPost sha3 path keyTag slotEnd L base p) w :=
  Machine.wp_ret (M := slotMachine _ _ _ _ _) hc hl (by rintro _ ⟨⟩)

/-- `install_journal`, while nothing was returned yet, and the counter over the
new journal. -/
theorem wp_install (hf : Fresh sha3 path keyTag slotEnd L base w)
    (ht : Tidy (sibling path "tmp") path w.disk) (hl : w.disk.lock = some p) {n : UInt64}
    (hn : base ≤ n.toNat) (hw : n.toNat ≤ slotEnd.toNat + 1) :
    (slotMachine sha3 path keyTag slotEnd L).wp (Inv sha3 path keyTag slotEnd L base) p
      (do let stateFile ← installJournal sha3 path keyTag n
          return ⟨stateFile, keyTag, 0, n, slotEnd⟩ : SlotIo _).run
      (OpenPost sha3 path keyTag slotEnd L base p) w := by
  unfold slotMachine
  refine wp_try (fun x w' => w'.disk.lock = some p ∧ ∀ k, x = .ok k →
      Holds sha3 path keyTag slotEnd L base ⟨k, keyTag, 0, n, slotEnd⟩ w') ?_ ?_ ?_
  · refine wp_atomicReplace (sibling_ne path "tmp") hl ht ?_ ?_ ?_
    · intro d l hs hd hq
      exact ⟨hf.scratch hs hq, fun e _ => ⟨hd, by rintro _ ⟨⟩⟩⟩
    · intro i d l hr hd hq
      exact ⟨hf.replaced hn hw hr hq, fun e _ => ⟨hd, by rintro _ ⟨⟩⟩⟩
    · intro i k d l hr hk hd hq
      refine ⟨hd, ?_⟩
      rintro _ ⟨⟩
      exact hf.installed hn hw hr hk hq
  · intro e w' _ hx
    exact ⟨hx.1, by rintro _ ⟨⟩⟩
  · intro k w' hc hx
    refine Machine.wp_ret (M := storage _ _ _) hc hx.1 ?_
    rintro _ ⟨⟩
    exact ⟨hx.1, hx.2 k rfl⟩

theorem wp_create {pk : XmssPublicKey} (hk : keyFingerprint sha3 pk = keyTag) {slotStart : UInt32}
    (hs : slotStart ≤ slotEnd) (hc : Inv sha3 path keyTag slotEnd L base w)
    (hl : w.disk.lock ≠ some p) :
    (slotMachine sha3 path keyTag slotEnd L).wp (Inv sha3 path keyTag slotEnd L base) p
      (create sha3 path pk slotStart slotEnd).run (OpenPost sha3 path keyTag slotEnd L base p) w := by
  unfold slotMachine create
  rw [hk]
  refine wp_takeLock hc hl (fun w h => h.frame rfl rfl rfl) ?_ (fun e w _ _ => by rintro _ ⟨⟩)
  intro w hc hl
  refine wp_io (by simp) hc hl ?_
  rintro (e | u) d - ⟨hx, -, rfl⟩ hl'
  · -- the path is absent, so nothing was returned yet
    have hq : ∀ x ∈ ([.op (.metadata path) (.error e)] : List SlotEv), x.Quiet := by
      simp [Ev.Quiet]
    obtain ⟨ht, hf | ⟨i, g, n, hset, -⟩⟩ := hc.quiet _ hq
    · have hb : base = 0 := by
        rcases hf.names _ w.disk.dir.visible_mem_all with ⟨-, hb⟩ | ⟨i, hi, -⟩
        · exact hb
        · rw [Disk.lookup] at hx; rw [hx] at hi; cases hi
      refine wp_install hf ht hl' (by omega) ?_
      rw [UInt32.toNat_toUInt64]
      have := UInt32.le_iff_toNat_le.mp hs
      omega
    · rw [Disk.lookup, settled_look hset] at hx; cases hx
  · exact wp_refuse (hc.quiet [_] (by simp [Ev.Quiet])) hl' _

/-- The file the path refers to is a journal whose frontier the log respects, or a
legacy file, and then nothing was returned yet. -/
theorem Inv.atPath {k : Nat} (hc : Inv sha3 path keyTag slotEnd L base w)
    (hk : w.disk.lookup path = some (w.disk.handle k).ino) :
    (∃ g n, Core sha3 keyTag slotEnd L (w.disk.file k) g n ∧ Logged sha3 base n.toNat w.log) ∨
      (Fresh sha3 path keyTag slotEnd L base w ∧ LegacyFile keyTag base (w.disk.file k)) := by
  obtain ⟨-, hf | ⟨i, g, n, hset, hcore, hlog⟩⟩ := hc
  · rcases hf.names _ w.disk.dir.visible_mem_all with ⟨hn, -⟩ | ⟨i, hi, hfile⟩
    · rw [Disk.lookup, hn] at hk
      cases hk
    · rw [Disk.lookup, hi, Option.some.injEq] at hk
      subst hk
      rcases hfile with hleg | ⟨n, hn, hcore⟩
      · exact .inr ⟨hf, hleg⟩
      · exact .inl ⟨0, n, hcore, .of_quiet hf.log hn⟩
  · have hi := settled_look hset
    rw [← Disk.lookup, hk, Option.some.injEq] at hi
    subst hi
    exact .inl ⟨g, n, hcore, hlog⟩

/-- The file the path refers to, as `open` finds it: a journal that recovery
resumes, or a file to migrate. -/
theorem wp_resume {k : Nat} (hc : Inv sha3 path keyTag slotEnd L base w)
    (hl : w.disk.lock = some p) (hk : w.disk.lookup path = some (w.disk.handle k).ino)
    (hs : L = .durable → Synced sha3 path keyTag slotEnd w.disk k) :
    (slotMachine sha3 path keyTag slotEnd L).wp (Inv sha3 path keyTag slotEnd L base) p
      (resume sha3 path keyTag slotEnd k (w.disk.file k).content).run
      (OpenPost sha3 path keyTag slotEnd L base p) w := by
  have hsettled : L.settled path w.disk.dir (w.disk.handle k).ino := by
    cases L with
    | visible => exact hk
    | durable => intro m hm; rw [(hs rfl).1 m hm, hk]
  have hadopt : ∀ r, recoverJournal sha3 (w.disk.file k).content keyTag slotEnd = .ok r →
      ∀ c, (w.disk.file k)[r.generation.toNat % 2]? = some c → ∀ b,
        L.surv sha3 (r.generation.toNat % 2) c b → b = c.visible := by
    intro r hr c hcell b hb
    cases L with
    | visible => exact hb
    | durable => exact surv_of_pending_nil ((hs rfl).2 r hr c hcell) hb
  unfold resume
  split
  · rename_i hlen
    unfold slotMachine
    refine wp_liftExcept hc hl (fun e _ => by rintro _ ⟨⟩) fun r hr => ?_
    rcases hc.atPath hk with ⟨g, n, hcore, hlog⟩ | ⟨-, hleg⟩
    · obtain ⟨hcore', htag, hle⟩ := core_adopt hcore hr (hadopt r hr)
      refine Machine.wp_ret (M := storage _ _ _) hc hl ?_
      rintro _ ⟨⟩
      exact ⟨hl, ⟨hc.1, rfl, rfl, hsettled, hcore'⟩, hlog.mono hle⟩
    · exact absurd hlen hleg.length
  · rename_i hlen
    rcases hc.atPath hk with ⟨g, n, hcore, -⟩ | ⟨hf, hleg⟩
    · exact absurd hcore.content.1 hlen
    split
    · exact wp_refuse hc hl _
    rename_i text htext
    unfold slotMachine
    refine wp_liftExcept hc hl (fun e _ => by rintro _ ⟨⟩) ?_
    rintro ⟨next, unversioned⟩ hparse
    dsimp only
    split
    · exact wp_refuse hc hl _
    split
    · exact wp_refuse hc hl _
    · rename_i hwin _
      exact wp_install hf hc.1 hl (hleg.frontier text next unversioned htext hparse) (by omega)

theorem wp_open {pk : XmssPublicKey} (hk : keyFingerprint sha3 pk = keyTag)
    (hc : Inv sha3 path keyTag slotEnd L base w) (hl : w.disk.lock ≠ some p) :
    (slotMachine sha3 path keyTag slotEnd L).wp (Inv sha3 path keyTag slotEnd L base) p
      (open_ sha3 path pk slotEnd).run (OpenPost sha3 path keyTag slotEnd L base p) w := by
  unfold slotMachine open_
  rw [hk]
  refine wp_takeLock hc hl (fun w h => h.frame rfl rfl rfl) ?_ (fun e w _ _ => by rintro _ ⟨⟩)
  intro w hc hl
  refine wp_io (by simp) hc hl ?_
  intro r d1 _ hx1 hl1
  rcases r with e | k
  · obtain ⟨-, rfl⟩ := hx1
    exact ⟨hc.quiet [_] (by simp [Ev.Quiet]), by rintro _ ⟨⟩⟩
  obtain ⟨i, hi, rfl, rfl⟩ := hx1
  have hc1 : Inv sha3 path keyTag slotEnd L base ⟨w.disk.openAt i, w.log⟩ := hc.frame rfl rfl rfl
  refine wp_io (by simp) (hc1.quiet [_] (by simp [Ev.Quiet])) hl1 ?_
  rintro (e | raw) d2 hg hx2 hl2
  · obtain ⟨-, pos, rfl⟩ := hx2
    have hc2 : Inv sha3 path keyTag slotEnd L base
        ⟨(w.disk.openAt i).seekTo w.disk.handles pos, w.log⟩ := hc1.frame rfl rfl rfl
    exact ⟨hc2.quiet [_, _] (by simp [Ev.Quiet]), by rintro _ ⟨⟩⟩
  obtain ⟨hraw, rfl⟩ := hx2
  have hraw' : raw = ((w.disk.openAt i).file w.disk.handles).content := by
    rw [hraw, Disk.openAt_handle]; rfl
  subst hraw'
  set d2 := (w.disk.openAt i).seekTo w.disk.handles _ with hd2
  have hc2 : Inv sha3 path keyTag slotEnd L base ⟨d2, w.log⟩ := hc1.frame rfl rfl rfl
  have hino : (d2.handle w.disk.handles).ino = i := by rw [hd2]; simp
  have hfile : d2.file w.disk.handles = (w.disk.openAt i).file w.disk.handles := by
    unfold Disk.file; rw [hino]; simp [hd2]
  rw [← hfile]
  refine wp_resume (hc2.quiet [_, _] (by simp [Ev.Quiet])) hl2 ?_ ?_
  · show w.disk.lookup path = _
    rw [hi, hino]
  · intro h
    subst h
    obtain ⟨h1, h2⟩ : Synced sha3 path keyTag slotEnd (w.disk.openAt i) w.disk.handles := hg
    refine ⟨h1, ?_⟩
    show ∀ r, recoverJournal sha3 (d2.file w.disk.handles).content keyTag slotEnd = .ok r →
      ∀ c, (d2.file w.disk.handles)[r.generation.toNat % 2]? = some c → c.pending = []
    rw [hfile]
    exact h2

end Rules

/-! ## The outline -/

section Outline
variable {sha3 : Bytes → Blob 32} {path : Path} {pk : XmssPublicKey} {slotEnd : UInt32} {L : Level}
  {base p : Nat} {c : AtomicSlotCounter} {w : SlotWorld}

theorem inv_release {keyTag : Blob 32} (h : Inv sha3 path keyTag slotEnd L base w) :
    Inv sha3 path keyTag slotEnd L base
      ((slotMachine sha3 path keyTag slotEnd L).release p w) := by
  unfold slotMachine storage
  dsimp only
  split
  · exact h.frame rfl rfl rfl
  · exact h

theorem wp_asConstructor {call : SlotCall} {x : SlotIo AtomicSlotCounter}
    (h : (slotMachine sha3 path (keyFingerprint sha3 pk) slotEnd L).wp
      (Inv sha3 path (keyFingerprint sha3 pk) slotEnd L base) p x.run
      (OpenPost sha3 path (keyFingerprint sha3 pk) slotEnd L base p) w) :
    (slotMachine sha3 path (keyFingerprint sha3 pk) slotEnd L).wp
      (Inv sha3 path (keyFingerprint sha3 pk) slotEnd L base) p (asConstructor x)
      (Done (slotMachine sha3 path (keyFingerprint sha3 pk) slotEnd L)
        (counterApi sha3 path pk slotEnd) (Inv sha3 path (keyFingerprint sha3 pk) slotEnd L base)
        (Holds sha3 path (keyFingerprint sha3 pk) slotEnd L base) p call) w := by
  refine Machine.wp_bind (Machine.wp_mono h fun y w' hy hc => ?_)
  cases y with
  | error e =>
    refine ⟨hc, fun w'' he => ?_⟩
    have hc' : Inv sha3 path (keyFingerprint sha3 pk) slotEnd L base w'' := by
      rcases he with rfl | ⟨-, -, hc'⟩
      · exact hc
      · exact hc'
    exact done_none rfl (inv_release hc')
  | ok c =>
    obtain ⟨hl, hh⟩ := hy c rfl
    have hh' : Holds sha3 path (keyFingerprint sha3 pk) slotEnd L base c
        ⟨w'.disk, .ret (.opened c.next) :: w'.log⟩ := by
      refine ⟨hh.1, hh.2.cons (fun _ h => by cases h) (fun _ h => by cases h)
        (fun _ _ h => by cases h) ?_⟩
      rintro _ ⟨⟩ s hs
      exact (hh.2.okBelow s hs).2
    exact Machine.wp_ret (M := slotMachine _ _ _ _ _) hc hl (done_some hl hl hh'.inv hh')

theorem wp_asReservation {call : SlotCall} {x : SlotMut UInt32}
    {y : SlotIo (AtomicSlotCounter × UInt32)} (hy : Prog.Commits x c y)
    (h : (slotMachine sha3 path (keyFingerprint sha3 pk) slotEnd L).wp
      (Inv sha3 path (keyFingerprint sha3 pk) slotEnd L base) p y.run
      (BurnPost sha3 path (keyFingerprint sha3 pk) slotEnd L base p c) w) :
    (slotMachine sha3 path (keyFingerprint sha3 pk) slotEnd L).wp
      (Inv sha3 path (keyFingerprint sha3 pk) slotEnd L base) p (asReservation c x)
      (Done (slotMachine sha3 path (keyFingerprint sha3 pk) slotEnd L)
        (counterApi sha3 path pk slotEnd) (Inv sha3 path (keyFingerprint sha3 pk) slotEnd L base)
        (Holds sha3 path (keyFingerprint sha3 pk) slotEnd L base) p call) w := by
  unfold asReservation
  rw [hy.bind]
  refine Machine.wp_bind (Machine.wp_mono h fun y w' hy hc => ?_)
  rcases y with e | ⟨c', s⟩
  · obtain ⟨hl, hh⟩ := hy
    exact Machine.wp_ret (M := slotMachine _ _ _ _ _) hc hl (done_some hl hl hc hh)
  · obtain ⟨hl, hb⟩ := hy
    have hh' : Holds sha3 path (keyFingerprint sha3 pk) slotEnd L base c'
        ⟨w'.disk, .ret (.slot s) :: w'.log⟩ := by
      refine ⟨hb.holds.1, hb.holds.2.cons ?_ ?_ (fun _ _ h => by cases h) (fun _ h => by cases h)⟩
      · rintro _ ⟨⟩; exact ⟨hb.above, hb.below, hb.ok⟩
      · rintro _ ⟨⟩; exact ⟨hb.above, hb.below, hb.spent⟩
    exact Machine.wp_ret (M := slotMachine _ _ _ _ _) hc hl (done_some hl hl hh'.inv hh')

theorem wp_asSignature {call : SlotCall}
    {x : SlotProg (AtomicSlotCounter × Except SignerNodeError (UInt32 × XmssSignature))}
    (h : (slotMachine sha3 path (keyFingerprint sha3 pk) slotEnd L).wp
      (Inv sha3 path (keyFingerprint sha3 pk) slotEnd L base) p x
      (SignPost sha3 path (keyFingerprint sha3 pk) slotEnd L base p) w) :
    (slotMachine sha3 path (keyFingerprint sha3 pk) slotEnd L).wp
      (Inv sha3 path (keyFingerprint sha3 pk) slotEnd L base) p (asSignature x)
      (Done (slotMachine sha3 path (keyFingerprint sha3 pk) slotEnd L)
        (counterApi sha3 path pk slotEnd) (Inv sha3 path (keyFingerprint sha3 pk) slotEnd L base)
        (Holds sha3 path (keyFingerprint sha3 pk) slotEnd L base) p call) w := by
  refine Machine.wp_bind (Machine.wp_mono h fun y w' hy hc => ?_)
  obtain ⟨hl, hh, hs⟩ := hy
  rcases y with ⟨c', e | ⟨s, sig⟩⟩
  · exact Machine.wp_ret (M := slotMachine _ _ _ _ _) hc hl (done_some hl hl hc hh)
  · obtain ⟨h1, h2, h3⟩ := hs s sig rfl
    have hh' : Holds sha3 path (keyFingerprint sha3 pk) slotEnd L base c'
        ⟨w'.disk, .ret (.signed s sig) :: w'.log⟩ := by
      refine ⟨hh.1, hh.2.cons ?_ (fun _ h => by cases h) (fun _ _ h => by cases h)
        (fun _ h => by cases h)⟩
      rintro _ ⟨⟩; exact ⟨h1, h2, h3⟩
    exact Machine.wp_ret (M := slotMachine _ _ _ _ _) hc hl (done_some hl hl hh'.inv hh')

theorem inv_power {keyTag : Blob 32} {w' : SlotWorld} (h : Inv sha3 path keyTag slotEnd L base w)
    (hp : (slotMachine sha3 path keyTag slotEnd L).power w w') :
    Inv sha3 path keyTag slotEnd L base w' := by
  obtain ⟨hp, -, hlog⟩ := hp
  cases L with
  | visible => exact hp.elim
  | durable =>
    have hp : Disk.powerFail (slotFaults sha3) w.disk w'.disk := hp
    obtain ⟨ht, hw⟩ := h
    refine ⟨ht.power hp, ?_⟩
    obtain ⟨⟨m, hm, hdir⟩, hfiles, -, -⟩ := hp
    have hall : ∀ m' ∈ w'.disk.dir.all, m' = m := by rw [hdir]; simp
    rcases hw with hf | ⟨i, g, n, hset, hcore, hl⟩
    · refine .inl ⟨by rw [hlog]; exact hf.log, fun m' hm' => ?_⟩
      rw [hall m' hm']
      rcases hf.names m hm with hn | ⟨i, hi, hfile⟩
      · exact .inl hn
      · refine .inr ⟨i, hi, ?_⟩
        rcases hfile with hleg | ⟨n, hn, hcore⟩
        · rw [(hfiles i).eq_of_clean hleg.clean]; exact .inl hleg
        · exact .inr ⟨n, hn, core_power hcore (hfiles i)⟩
    · refine .inr ⟨i, g, n, fun m' hm' => ?_, core_power hcore (hfiles i), by rw [hlog]; exact hl⟩
      rw [hall m' hm']; exact hset m hm

/-- Every call of the counter and the signer meets the invariant, at both
levels. -/
def slotOutline (sha3 : Bytes → Blob 32) (path : Path) (pk : XmssPublicKey) (slotEnd : UInt32)
    (L : Level) (base : Nat) :
    Outline (slotMachine sha3 path (keyFingerprint sha3 pk) slotEnd L)
      (counterApi sha3 path pk slotEnd) := by
  refine storageOutline (Inv sha3 path (keyFingerprint sha3 pk) slotEnd L base)
    (Holds sha3 path (keyFingerprint sha3 pk) slotEnd L base) (fun w h => h.frame rfl rfl rfl)
    (fun w w' h hp => inv_power h hp) ?_ ?_
  · intro p call m w hm hc hl
    cases call with
    | create slotStart =>
      simp only [counterApi] at hm
      split at hm
      · cases hm; exact wp_asConstructor (wp_create rfl (by assumption) hc hl)
      · cases hm
    | open_ => cases hm; exact wp_asConstructor (wp_open rfl hc hl)
    | reserve => cases hm
    | reserveAt _ => cases hm
    | sign _ => cases hm
    | signAt _ _ => cases hm
  · intro p call m c w hm hc hl hh
    cases call with
    | create _ => cases hm
    | open_ => cases hm
    | reserve => cases hm; exact wp_asReservation (commits_reserve c) (wp_reserved hh hl)
    | reserveAt r => cases hm; exact wp_asReservation (commits_reserveAt c r) (wp_reservedAt hh hl r)
    | sign _ =>
      cases hm
      exact wp_asSignature (wp_burnAndSign (commits_reserve c) (wp_reserved hh hl))
    | signAt _ r =>
      cases hm
      exact wp_asSignature (wp_burnAndSign (commits_reserveAt c r) (wp_reservedAt hh hl r))

end Outline
end Drot.L2.SlotJournal
