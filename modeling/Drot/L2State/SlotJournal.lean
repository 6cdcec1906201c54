import Drot.L2State.SlotCounter

/-!
# The journal's invariant

One proof for both failure models of the counter. A `Level` says which
contents of a block count: under `.visible` (kills only) the visible one,
under `.durable` (power failures too) everything the block may come back with.
Under `.durable` a run is restricted by `Synced`: the state file is read only
when its directory entry, and the record the reader will adopt, are durable.

`Core` ties a generation `g` and a frontier `n` to a journal: the active region
`g % 2` holds the record `(g, n)`, and whatever the other region holds does not
decode, is older with a smaller frontier, or is the next generation with a
larger one. It survives failed and cut-off writes of the next generation,
rewrites of that generation with another target, and recovery, which adopts
`(g, n)` or the next generation (`core_adopt`).
-/
namespace Drot.L2.SlotJournal
open Bytes Text L1.SlotRecord SlotCounter
open L1.Message (XmssPublicKey XmssSignature)

inductive Level where
  | visible | durable
  deriving DecidableEq, Repr

variable (sha3 : Bytes → Blob 32)

/-- The record block `k` decodes to when its content is `b`. -/
def recAt (k : Nat) (b : Bytes) : Option JournalRecord :=
  match decodeRecord sha3 (b.take recordSize) k with
  | .ok r => r
  | .error _ => none

/-- A full block whose record `decode_record` does not accept. -/
def Unreadable (k : Nat) (b : Bytes) : Prop := b.length = blockSize ∧ recAt sha3 k b = none

/-- A failed write of a 128-byte record leaves, besides the old and the new
bytes, only bytes that `decode_record` does not accept; a failed write of
anything else (the temporary image) may leave anything. A block that had
unsynced writes may come back unreadable. -/
def slotFaults : Faults where
  tear pos bs bs' := bs.length = recordSize →
    bs'.length = recordSize ∧ ∀ r, decodeRecord sha3 bs' (pos / journalSlotSize) ≠ .ok (some r)
  rot k b := Unreadable sha3 k b

namespace Level

/-- The contents of block `k` that count. -/
def surv : Level → Nat → Cell Bytes → Bytes → Prop
  | .visible, _, c, b => b = c.visible
  | .durable, k, c, b => b ∈ c.all ∨ (c.pending ≠ [] ∧ Unreadable sha3 k b)

/-- The path refers to inode `i`, now and (under `.durable`) after any power
failure. -/
def settled (path : Path) : Level → Cell (Path → Option Nat) → Nat → Prop
  | .visible, dir, i => dir.visible path = some i
  | .durable, dir, i => ∀ m ∈ dir.all, m path = some i

end Level

section
variable (path : Path) (keyTag : Blob 32) (slotEnd : UInt32)

/-- No unsynced rename of the path, and no unsynced write in the region of the
record that reading `h` will adopt. -/
def Synced (d : Disk Path) (h : Nat) : Prop :=
  (∀ m ∈ d.dir.all, m path = d.lookup path) ∧
  ∀ r, recoverJournal sha3 (d.file h).content keyTag slotEnd = .ok r →
    ∀ c, (d.file h)[r.generation.toNat % 2]? = some c → c.pending = []

/-- The operations a run of the level may perform. -/
def Level.guard : Level → SlotWorld → SlotOp → Prop
  | .durable, w, .readToEnd h => Synced sha3 path keyTag slotEnd w.disk h
  | _, _, _ => True

def Level.power : Level → Disk Path → Disk Path → Prop
  | .visible => fun _ _ => False
  | .durable => Disk.powerFail (slotFaults sha3)

/-- The machine of a level. -/
def slotMachine (L : Level) : Machine SlotOp (Ans SignAns) SlotWorld :=
  storage (slotFaults sha3) (L.guard sha3 path keyTag slotEnd) (L.power sha3)

/-! ## The journal -/

/-- What the inactive region may decode to while `(g, n)` is active. -/
def Other (g n : Nat) (x : Option JournalRecord) : Prop :=
  ∀ r, x = some r → r.keyTag = keyTag ∧
    ((r.generation.toNat + 1 = g ∧ r.nextFree.toNat < n) ∨
      (r.generation.toNat = g + 1 ∧ n < r.nextFree.toNat ∧ r.nextFree.toNat ≤ slotEnd.toNat + 1))

structure Core (L : Level) (f : File) (g n : UInt64) : Prop where
  len : f.length = 2
  size : ∀ k c, f[k]? = some c → ∀ b, L.surv sha3 k c b → b.length = blockSize
  active : ∀ c, f[g.toNat % 2]? = some c → ∀ b, L.surv sha3 (g.toNat % 2) c b →
    recAt sha3 (g.toNat % 2) b = some ⟨g, n, keyTag⟩
  other : ∀ c, f[(g.toNat + 1) % 2]? = some c → ∀ b, L.surv sha3 ((g.toNat + 1) % 2) c b →
    Other keyTag slotEnd g.toNat n.toNat (recAt sha3 ((g.toNat + 1) % 2) b)
  window : n.toNat ≤ slotEnd.toNat + 1

end

section Laws
variable {sha3} {L : Level} {k : Nat} {c : Cell Bytes} {b b' : Bytes}

theorem surv_visible : L.surv sha3 k c c.visible := by
  cases L
  · rfl
  · exact .inl c.visible_mem_all

theorem surv_of_pending_nil (hp : c.pending = []) (h : L.surv sha3 k c b) : b = c.visible := by
  cases L
  · exact h
  · rcases h with h | ⟨h, -⟩
    · rw [Cell.visible_of_pending_nil hp]; simpa [Cell.all, hp] using h
    · exact absurd hp h

theorem surv_write (h : L.surv sha3 k (c.write b') b) :
    L.surv sha3 k c b ∨ b = b' ∨ Unreadable sha3 k b := by
  cases L
  · exact .inr (.inl h)
  · rcases h with h | ⟨-, h⟩
    · rcases Cell.mem_all_write.mp h with h | h
      · exact .inr (.inl h)
      · exact .inl (.inl h)
    · exact .inr (.inr h)

theorem settled_look {path : Path} {dir : Cell (Path → Option Nat)} {i : Nat}
    (h : L.settled path dir i) : dir.visible path = some i := by
  cases L
  · exact h
  · exact h _ dir.visible_mem_all

theorem settled_of_all {path : Path} {dir : Cell (Path → Option Nat)} {i : Nat}
    (h : ∀ m ∈ dir.all, m path = some i) : L.settled path dir i := by
  cases L
  · exact h _ dir.visible_mem_all
  · exact h

end Laws

section Blocks

/-- A two-block file of full blocks is a journal whose records are its blocks'. -/
theorem content_two {f : File} {c0 c1 : Cell Bytes} (hf : f = [c0, c1])
    (h0 : c0.visible.length = blockSize) (h1 : c1.visible.length = blockSize) :
    f.content.length = journalSize ∧ recordAt sha3 f.content 0 = recAt sha3 0 c0.visible ∧
      recordAt sha3 f.content 1 = recAt sha3 1 c1.visible := by
  subst hf
  have e : File.content [c0, c1] = c0.visible ++ c1.visible := by simp [File.content]
  have hs0 : slice (c0.visible ++ c1.visible) (0 * journalSlotSize)
      (0 * journalSlotSize + recordSize) = c0.visible.take recordSize := by
    rw [slice_append_left (by rw [h0]; decide)]; simp [slice]
  have hs1 : slice (c0.visible ++ c1.visible) (1 * journalSlotSize)
      (1 * journalSlotSize + recordSize) = c1.visible.take recordSize := by
    rw [slice_append_right blockSize h0 (by decide)]; simp [slice, journalSlotSize, blockSize]
  refine ⟨by simp [e, h0, h1, blockSize, journalSize, journalSlotSize], ?_, ?_⟩
  · rw [recordAt, e, hs0]; rfl
  · rw [recordAt, e, hs1]; rfl

/-- A record at the start of a full block is what the block decodes to. -/
theorem recAt_overlay {old bs : Bytes} (hb : bs.length = recordSize) (ho : old.length = blockSize)
    (k : Nat) :
    (File.overlay old 0 bs).length = blockSize ∧
      recAt sha3 k (File.overlay old 0 bs) =
        match decodeRecord sha3 bs k with
        | .ok r => r
        | .error _ => none := by
  rw [File.overlay_zero]
  refine ⟨?_, ?_⟩
  · simp only [List.length_append, List.length_drop, hb, ho]; decide
  · rw [recAt, List.take_append_of_le_length (by omega), List.take_of_length_le (by omega)]

theorem recAt_overlay_record {old : Bytes} (ho : old.length = blockSize) (r : JournalRecord) :
    recAt sha3 (r.generation.toNat % 2) (File.overlay old 0 (encodeRecord sha3 r)) = some r := by
  rw [(recAt_overlay sha3 (length_encodeRecord sha3 r) ho _).2, decodeRecord_encodeRecord]

/-- A record written into region `k` of a two-block file. -/
theorem writeAt_region {f : File} (hlen : f.length = 2) {k : Nat} (hk : k < 2) {bs : Bytes}
    (hb : bs.length = recordSize) (hfull : ∀ c, f[0]? = some c → c.visible.length = blockSize)
    {c : Cell Bytes} (hc : f[k]? = some c) :
    f.writeAt (k * journalSlotSize) bs = f.set k (c.write (File.overlay c.visible 0 bs)) := by
  have hne : bs ≠ [] := by rintro rfl; cases hb
  have hle : bs.length ≤ blockSize := by rw [hb]; decide
  match f, hlen with
  | [c0, c1], _ =>
    obtain rfl | rfl : k = 0 ∨ k = 1 := by omega
    · have : c0 = c := by simpa using hc
      subst this
      simp [File.writeAt_first hne hle]
    · have : c1 = c := by simpa using hc
      subst this
      have h0 := hfull c0 rfl
      rw [show 1 * journalSlotSize = blockSize + 0 from rfl, File.writeAt_skip hne 0 h0,
        File.writeAt_first hne hle]
      rfl

end Blocks

section Journal
variable {sha3} {keyTag : Blob 32} {slotEnd : UInt32} {L : Level} {f : File} {g n : UInt64}

theorem Core.cell (h : Core sha3 keyTag slotEnd L f g n) {k : Nat} (hk : k < 2) :
    ∃ c, f[k]? = some c ∧ c.visible.length = blockSize := by
  have hk' : k < f.length := by rw [h.len]; exact hk
  exact ⟨f[k], List.getElem?_eq_getElem hk', h.size k _ (List.getElem?_eq_getElem hk') _ surv_visible⟩

theorem Core.blocks (h : Core sha3 keyTag slotEnd L f g n) {c0 c1 : Cell Bytes}
    (h0 : f[0]? = some c0) (h1 : f[1]? = some c1) : f = [c0, c1] := by
  match f, h.len with
  | [a, b], _ => simp_all

/-- The image `install_journal` writes: the record of generation 0 in the first
block, nothing in the second. -/
theorem image_blocks (sha3 : Bytes → Blob 32) (keyTag : Blob 32) (n : UInt64) : ∃ b0 b1 : Bytes,
    (File.writeAt [] 0 (journalImage sha3 keyTag n)).sync = [.clean b0, .clean b1] ∧
    b0.length = blockSize ∧ b1.length = blockSize ∧
    recAt sha3 0 b0 = some ⟨0, n, keyTag⟩ ∧ recAt sha3 1 b1 = none := by
  set b0 := encodeRecord sha3 ⟨0, n, keyTag⟩ ++ List.replicate (blockSize - recordSize) 0 with hb0
  set b1 : Bytes := List.replicate blockSize 0 with hb1
  have l0 : b0.length = blockSize := by
    rw [hb0, List.length_append, length_encodeRecord, List.length_replicate]; decide
  have l1 : b1.length = blockSize := by simp [hb1]
  refine ⟨b0, b1, ?_, l0, l1, ?_, ?_⟩
  · have : journalImage sha3 keyTag n = b0 ++ (b1 ++ []) := by
      simp only [journalImage, hb0, hb1, List.append_assoc, List.append_nil,
        List.replicate_append_replicate]
      rfl
    rw [this, File.writeAt_nil_append l0, File.writeAt_nil_append l1]
    simp [File.sync, Cell.sync]
  · have hd := decodeRecord_encodeRecord sha3 ⟨0, n, keyTag⟩
    rw [recAt, hb0, List.take_append_of_le_length (by simp), List.take_of_length_le (by simp)]
    simp only [UInt64.toNat_zero, Nat.zero_mod] at hd
    rw [hd]
  · rw [recAt, hb1, List.take_replicate]
    simp [decodeRecord, recordSize, blockSize]

/-- It is a journal of generation 0. -/
theorem core_image (hw : n.toNat ≤ slotEnd.toNat + 1) :
    Core sha3 keyTag slotEnd L (File.writeAt [] 0 (journalImage sha3 keyTag n)).sync 0 n := by
  obtain ⟨b0, b1, hf, l0, l1, hrec0, hrec1⟩ := image_blocks sha3 keyTag n
  rw [hf]
  refine ⟨rfl, ?_, ?_, ?_, hw⟩
  · intro k c hc b hb
    obtain ⟨rfl, rfl⟩ | ⟨rfl, rfl⟩ : (k = 0 ∧ c = .clean b0) ∨ (k = 1 ∧ c = .clean b1) := by
      match k, hc with
      | 0, hc => exact .inl ⟨rfl, by simpa using hc.symm⟩
      | 1, hc => exact .inr ⟨rfl, by simpa using hc.symm⟩
    · rw [surv_of_pending_nil rfl hb]; exact l0
    · rw [surv_of_pending_nil rfl hb]; exact l1
  · intro c hc b hb
    obtain rfl : Cell.clean b0 = c := by simpa using hc
    rw [surv_of_pending_nil rfl hb]; exact hrec0
  · intro c hc b hb
    obtain rfl : Cell.clean b1 = c := by simpa using hc
    rw [surv_of_pending_nil rfl hb]
    intro r hr
    have : recAt sha3 1 b1 = some r := hr
    rw [hrec1] at this; cases this

/-- The second region of a fresh image is empty. -/
theorem image_other (sha3 : Bytes → Blob 32) (keyTag : Blob 32) (n : UInt64) :
    recordAt sha3 (File.writeAt [] 0 (journalImage sha3 keyTag n)).sync.content 1 = none := by
  obtain ⟨b0, b1, hf, l0, l1, -, hrec1⟩ := image_blocks sha3 keyTag n
  rw [(content_two sha3 hf l0 l1).2.2]
  exact hrec1

/-- Recovery of a fresh image starts where the image says. -/
theorem recover_image (sha3 : Bytes → Blob 32) (keyTag : Blob 32) (hw : n.toNat ≤ slotEnd.toNat + 1) :
    recoverJournal sha3 (journalImage sha3 keyTag n) keyTag slotEnd = .ok ⟨0, n, keyTag⟩ := by
  obtain ⟨b0, b1, hf, l0, l1, hrec0, hrec1⟩ := image_blocks sha3 keyTag n
  obtain ⟨hlen, h0, h1⟩ := content_two sha3 hf l0 l1
  rw [File.content_sync, File.content_writeAt_nil] at hlen h0 h1
  rw [recoverJournal_ok_iff, h0, h1]
  exact ⟨hlen, rfl, hw, .inl ⟨hrec0, hrec1⟩⟩

/-- A write of the next generation into the inactive region, torn or whole,
leaves the active record in charge. -/
theorem core_write (h : Core sha3 keyTag slotEnd L f g n) {bs : Bytes}
    (hb : bs.length = recordSize)
    (ho : ∀ r, decodeRecord sha3 bs ((g.toNat + 1) % 2) = .ok (some r) →
      Other keyTag slotEnd g.toNat n.toNat (some r)) :
    Core sha3 keyTag slotEnd L (f.writeAt ((g.toNat + 1) % 2 * journalSlotSize) bs) g n := by
  obtain ⟨c, hc, hlen⟩ := h.cell (k := (g.toNat + 1) % 2) (by omega)
  have hk : (g.toNat + 1) % 2 < 2 := by omega
  have hne : (g.toNat + 1) % 2 ≠ g.toNat % 2 := by omega
  rw [writeAt_region h.len hk hb (fun c0 h0 => h.size 0 c0 h0 _ surv_visible) hc]
  obtain ⟨hl, hr⟩ := recAt_overlay sha3 hb hlen ((g.toNat + 1) % 2)
  have hget : (f.set ((g.toNat + 1) % 2) (c.write (File.overlay c.visible 0 bs)))[(g.toNat + 1) % 2]? =
      some (c.write (File.overlay c.visible 0 bs)) := by
    rw [List.getElem?_set_self (by rw [h.len]; exact hk)]
  refine ⟨by rw [List.length_set]; exact h.len, ?_, ?_, ?_, h.window⟩
  · intro k c' hc' b hb'
    by_cases hkk : k = (g.toNat + 1) % 2
    · subst hkk
      rw [hget, Option.some.injEq] at hc'
      subst hc'
      rcases surv_write hb' with hb' | rfl | hb'
      · exact h.size _ c hc b hb'
      · exact hl
      · exact hb'.1
    · rw [List.getElem?_set_ne (Ne.symm hkk)] at hc'
      exact h.size k c' hc' b hb'
  · intro c' hc' b hb'
    rw [List.getElem?_set_ne hne] at hc'
    exact h.active c' hc' b hb'
  · intro c' hc' b hb' r hrec
    rw [hget, Option.some.injEq] at hc'
    subst hc'
    rcases surv_write hb' with hb' | rfl | hb'
    · exact h.other c hc b hb' r hrec
    · rw [hr] at hrec
      cases hd : decodeRecord sha3 bs ((g.toNat + 1) % 2) with
      | error e => rw [hd] at hrec; cases hrec
      | ok x =>
        rw [hd] at hrec
        simp only at hrec
        subst hrec
        exact ho r hd r rfl
    · rw [hb'.2] at hrec; cases hrec

/-- Once the whole record of the next generation is written and synced, it is
the active one. -/
theorem core_sync (h : Core sha3 keyTag slotEnd L f g n) {t : UInt64} (hg : g.toNat + 1 < 2 ^ 64)
    (ht : n.toNat < t.toNat) (hw : t.toNat ≤ slotEnd.toNat + 1) :
    Core sha3 keyTag slotEnd L (f.writeAt ((g.toNat + 1) % 2 * journalSlotSize)
      (encodeRecord sha3 ⟨g + 1, t, keyTag⟩)).sync (g + 1) t := by
  have hg1 : (g + 1).toNat = g.toNat + 1 := by
    rw [UInt64.toNat_add, UInt64.toNat_one]; omega
  obtain ⟨c, hc, hlen⟩ := h.cell (k := (g.toNat + 1) % 2) (by omega)
  obtain ⟨a, ha, halen⟩ := h.cell (k := g.toNat % 2) (by omega)
  have hk : (g.toNat + 1) % 2 < 2 := by omega
  have hne : (g.toNat + 1) % 2 ≠ g.toNat % 2 := by omega
  have hback : (g.toNat + 1 + 1) % 2 = g.toNat % 2 := by omega
  have hl := (recAt_overlay sha3 (length_encodeRecord sha3 ⟨g + 1, t, keyTag⟩) hlen
    ((g.toNat + 1) % 2)).1
  have hr := recAt_overlay_record sha3 hlen ⟨g + 1, t, keyTag⟩
  simp only [hg1] at hr
  rw [writeAt_region h.len hk (length_encodeRecord _ _)
    (fun c0 h0 => h.size 0 c0 h0 _ surv_visible) hc]
  -- both blocks are clean now, so only their visible contents count
  have hget : ∀ k c', (File.sync (f.set ((g.toNat + 1) % 2) (c.write
      (File.overlay c.visible 0 (encodeRecord sha3 ⟨g + 1, t, keyTag⟩)))))[k]? = some c' →
      ∀ b, L.surv sha3 k c' b →
      (k = (g.toNat + 1) % 2 ∧ b = File.overlay c.visible 0 (encodeRecord sha3 ⟨g + 1, t, keyTag⟩)) ∨
      (k ≠ (g.toNat + 1) % 2 ∧ ∃ c0, f[k]? = some c0 ∧ b = c0.visible) := by
    intro k c' hc' b hb
    rw [File.sync, List.getElem?_map] at hc'
    obtain ⟨c0, hc0, rfl⟩ := Option.map_eq_some_iff.mp hc'
    rw [surv_of_pending_nil rfl hb]
    by_cases hkk : k = (g.toNat + 1) % 2
    · subst hkk
      rw [List.getElem?_set_self (by rw [h.len]; exact hk), Option.some.injEq] at hc0
      subst hc0
      exact .inl ⟨rfl, rfl⟩
    · rw [List.getElem?_set_ne (Ne.symm hkk)] at hc0
      exact .inr ⟨hkk, c0, hc0, rfl⟩
  refine ⟨by simp [File.sync, h.len], ?_, ?_, ?_, hw⟩
  · intro k c' hc' b hb
    rcases hget k c' hc' b hb with ⟨-, rfl⟩ | ⟨-, c0, hc0, rfl⟩
    · exact hl
    · exact h.size k c0 hc0 _ surv_visible
  · intro c' hc' b hb
    rw [hg1] at hc' hb ⊢
    rcases hget _ c' hc' b hb with ⟨-, rfl⟩ | ⟨hn, -⟩
    · exact hr
    · exact absurd rfl hn
  · intro c' hc' b hb
    rw [hg1, hback] at hc' hb ⊢
    rcases hget _ c' hc' b hb with ⟨hn, -⟩ | ⟨-, c0, hc0, rfl⟩
    · exact absurd hn.symm hne
    · intro r hrec
      rw [h.active c0 hc0 _ surv_visible, Option.some.injEq] at hrec
      subst hrec
      exact ⟨rfl, .inl ⟨rfl, ht⟩⟩

/-- The record recovery sees in region `k` is that of block `k`. -/
theorem Core.recordAt_content (h : Core sha3 keyTag slotEnd L f g n) {k : Nat} (hk : k < 2)
    {c : Cell Bytes} (hc : f[k]? = some c) :
    recordAt sha3 f.content k = recAt sha3 k c.visible := by
  obtain ⟨c0, h0, l0⟩ := h.cell (k := 0) (by omega)
  obtain ⟨c1, h1, l1⟩ := h.cell (k := 1) (by omega)
  obtain ⟨-, r0, r1⟩ := content_two sha3 (h.blocks h0 h1) l0 l1
  obtain rfl | rfl : k = 0 ∨ k = 1 := by omega
  · rw [h0, Option.some.injEq] at hc; rw [r0, hc]
  · rw [h1, Option.some.injEq] at hc; rw [r1, hc]

/-- What recovery sees: the active record, and what the other region may hold. -/
theorem Core.content (h : Core sha3 keyTag slotEnd L f g n) :
    f.content.length = journalSize ∧
      recordAt sha3 f.content (g.toNat % 2) = some ⟨g, n, keyTag⟩ ∧
      Other keyTag slotEnd g.toNat n.toNat (recordAt sha3 f.content ((g.toNat + 1) % 2)) := by
  obtain ⟨c0, h0, l0⟩ := h.cell (k := 0) (by omega)
  obtain ⟨c1, h1, l1⟩ := h.cell (k := 1) (by omega)
  obtain ⟨a, ha, -⟩ := h.cell (k := g.toNat % 2) (by omega)
  obtain ⟨o, ho, -⟩ := h.cell (k := (g.toNat + 1) % 2) (by omega)
  refine ⟨(content_two sha3 (h.blocks h0 h1) l0 l1).1, ?_, ?_⟩
  · rw [h.recordAt_content (by omega) ha]; exact h.active a ha _ surv_visible
  · rw [h.recordAt_content (by omega) ho]; exact h.other o ho _ surv_visible

/-- The generation before stays in the other region. -/
theorem core_sync_other (h : Core sha3 keyTag slotEnd L f g n) {t : UInt64}
    (hg : g.toNat + 1 < 2 ^ 64) (ht : n.toNat < t.toNat) (hw : t.toNat ≤ slotEnd.toNat + 1) :
    recordAt sha3 (f.writeAt ((g.toNat + 1) % 2 * journalSlotSize)
      (encodeRecord sha3 ⟨g + 1, t, keyTag⟩)).sync.content (g.toNat % 2) = some ⟨g, n, keyTag⟩ := by
  obtain ⟨c, hc, -⟩ := h.cell (k := (g.toNat + 1) % 2) (by omega)
  obtain ⟨a, ha, -⟩ := h.cell (k := g.toNat % 2) (by omega)
  have hcell : (f.writeAt ((g.toNat + 1) % 2 * journalSlotSize)
      (encodeRecord sha3 ⟨g + 1, t, keyTag⟩)).sync[g.toNat % 2]? = some a.sync := by
    rw [writeAt_region h.len (by omega) (length_encodeRecord _ _)
      (fun c0 h0 => h.size 0 c0 h0 _ surv_visible) hc, File.sync, List.getElem?_map,
      List.getElem?_set_ne (by omega), ha]
    rfl
  rw [(core_sync h hg ht hw).recordAt_content (by omega) hcell]
  exact h.active a ha _ surv_visible

/-- Recovery never fails on a journal, and never falls behind its frontier. -/
theorem core_recovers (h : Core sha3 keyTag slotEnd L f g n) :
    ∃ r, recoverJournal sha3 f.content keyTag slotEnd = .ok r ∧ n.toNat ≤ r.nextFree.toNat := by
  obtain ⟨hlen, ha, ho⟩ := h.content
  have key : ∃ r, Recovers keyTag slotEnd (recordAt sha3 f.content (g.toNat % 2))
      (recordAt sha3 f.content ((g.toNat + 1) % 2)) r ∧ n.toNat ≤ r.nextFree.toNat := by
    cases hx : recordAt sha3 f.content ((g.toNat + 1) % 2) with
    | none => exact ⟨⟨g, n, keyTag⟩, ⟨rfl, h.window, .inl ⟨ha, rfl⟩⟩, le_refl _⟩
    | some o =>
      obtain ⟨ht, ⟨hg, hn⟩ | ⟨hg, hn, hw⟩⟩ := ho o hx
      · exact ⟨⟨g, n, keyTag⟩, ⟨rfl, h.window, .inr (.inr ⟨o, .inr ⟨ha, rfl⟩, ht, hg.symm, hn⟩)⟩,
          le_refl _⟩
      · exact ⟨o, ⟨ht, hw, .inr (.inr ⟨_, .inl ⟨ha, rfl⟩, rfl, hg, hn⟩)⟩, hn.le⟩
  obtain ⟨r, hr, hn⟩ := key
  refine ⟨r, (recoverJournal_ok_iff sha3 _ _ _ _).mpr ⟨hlen, ?_⟩, hn⟩
  obtain hp | hp : g.toNat % 2 = 0 ∨ g.toNat % 2 = 1 := by omega
  · rwa [hp, show (g.toNat + 1) % 2 = 1 by omega] at hr
  · rw [hp, show (g.toNat + 1) % 2 = 0 by omega] at hr
    exact hr.symm

/-- Recovery picks the active record, or the next generation in the other region. -/
theorem core_pick (h : Core sha3 keyTag slotEnd L f g n) {r : JournalRecord}
    (hr : recoverJournal sha3 f.content keyTag slotEnd = .ok r) :
    r = ⟨g, n, keyTag⟩ ∨ recordAt sha3 f.content ((g.toNat + 1) % 2) = some r ∧
      r.generation.toNat = g.toNat + 1 := by
  obtain ⟨-, hrec⟩ := (recoverJournal_ok_iff sha3 _ _ _ _).mp hr
  obtain ⟨-, ha, -⟩ := h.content
  have hrec' : Recovers keyTag slotEnd (recordAt sha3 f.content (g.toNat % 2))
      (recordAt sha3 f.content ((g.toNat + 1) % 2)) r := by
    obtain hp | hp : g.toNat % 2 = 0 ∨ g.toNat % 2 = 1 := by omega
    · rwa [hp, show (g.toNat + 1) % 2 = 1 by omega]
    · rw [hp, show (g.toNat + 1) % 2 = 0 by omega]
      exact hrec.symm
  rw [ha] at hrec'
  rcases hrec'.pick with ⟨h1, -⟩ | ⟨h1, -⟩ | ⟨o, ⟨h1, h2⟩ | ⟨h1, h2⟩, -, h3, -⟩
  · exact .inl (Option.some.inj h1).symm
  · cases h1
  · cases h1; exact .inr ⟨h2, h3⟩
  · exact .inl (Option.some.inj h1).symm

/-- Whatever recovery adopts is in charge from then on, provided nothing else of
its region counts. -/
theorem core_adopt (h : Core sha3 keyTag slotEnd L f g n) {r : JournalRecord}
    (hr : recoverJournal sha3 f.content keyTag slotEnd = .ok r)
    (hs : ∀ c, f[r.generation.toNat % 2]? = some c → ∀ b,
      L.surv sha3 (r.generation.toNat % 2) c b → b = c.visible) :
    Core sha3 keyTag slotEnd L f r.generation r.nextFree ∧ r.keyTag = keyTag ∧
      n.toNat ≤ r.nextFree.toNat := by
  obtain ⟨-, ha, ho⟩ := h.content
  rcases core_pick h hr with rfl | ⟨hx, hg⟩
  · exact ⟨h, rfl, le_refl _⟩
  · obtain ⟨ht, ⟨hg', -⟩ | ⟨-, hn, hw⟩⟩ := ho r hx
    · omega
    have hback : (r.generation.toNat + 1) % 2 = g.toNat % 2 := by omega
    refine ⟨⟨h.len, h.size, ?_, ?_, hw⟩, ht, hn.le⟩
    · intro c hc b hb
      rw [hs c hc b hb]
      rw [hg] at hc ⊢
      have : recordAt sha3 f.content ((g.toNat + 1) % 2) =
          recAt sha3 ((g.toNat + 1) % 2) c.visible := h.recordAt_content (by omega) hc
      rw [← this, hx, ← ht]
    · intro c hc b hb
      rw [hback] at hc hb ⊢
      rw [h.active c hc b hb]
      rintro _ ⟨⟩
      exact ⟨rfl, .inl ⟨hg.symm, hn⟩⟩

/-- A power failure leaves the journal in charge of the same frontier. -/
theorem core_power (h : Core sha3 keyTag slotEnd .durable f g n) {f' : File}
    (hs : Disk.Survives (slotFaults sha3) f f') : Core sha3 keyTag slotEnd .durable f' g n := by
  obtain ⟨hlen, hs⟩ := hs
  have hback : ∀ k c', f'[k]? = some c' → ∀ b, Level.durable.surv sha3 k c' b →
      ∃ c, f[k]? = some c ∧ Level.durable.surv sha3 k c b := by
    intro k c' hc' b hb
    have hk : k < f.length := by
      rw [← hlen]; exact (List.getElem?_eq_some_iff.mp hc').1
    obtain ⟨b', hb', he⟩ := hs k _ (List.getElem?_eq_getElem hk)
    rw [he, Option.some.injEq] at hc'
    subst hc'
    rw [surv_of_pending_nil rfl hb]
    exact ⟨_, List.getElem?_eq_getElem hk, hb'⟩
  refine ⟨hlen.trans h.len, ?_, ?_, ?_, h.window⟩
  · intro k c' hc' b hb
    obtain ⟨c, hc, hb'⟩ := hback k c' hc' b hb
    exact h.size k c hc b hb'
  · intro c' hc' b hb
    obtain ⟨c, hc, hb'⟩ := hback _ c' hc' b hb
    exact h.active c hc b hb'
  · intro c' hc' b hb
    obtain ⟨c, hc, hb'⟩ := hback _ c' hc' b hb
    exact h.other c hc b hb'

end Journal
end Drot.L2.SlotJournal
