import Drot.Core.Disk
import Mathlib.Tactic

/-!
# The slot journal's records (`state/slot_counter.rs`)

The state file of one XMSS key is 8 KiB: two 128-byte records, each at the
start of its own 4 KiB region. A record is the magic, the generation, the next
free slot, the key tag, forty reserved zero bytes and the SHA3-256 checksum of
all that; generation `g` lives in region `g % 2`. SHA3-256 is a parameter.

* `decodeRecord_encodeRecord`: a record reads back in the region its
  generation belongs to.
* `recoverJournal_ok_iff`: what recovery accepts, in terms of the records that
  decode in the two regions.
-/
namespace Drot.L1.SlotRecord
open Bytes

/-- mirrors src/src/state/slot_counter.rs:26-33 -/
def recordSize : Nat := 128
def journalSlotSize : Nat := 4096
def journalSize : Nat := journalSlotSize * 2
def checksumOffset : Nat := 96
/-- `b"DROTSL03"` -/
def journalMagic : Bytes := [0x44, 0x52, 0x4f, 0x54, 0x53, 0x4c, 0x30, 0x33]

/-- mirrors src/src/state/slot_counter.rs:36-40 -/
structure JournalRecord where
  generation : UInt64
  nextFree : UInt64
  keyTag : Blob 32
  deriving DecidableEq

/-- Refusals from slot allocation.
mirrors src/src/state/slot_counter.rs:235-249 -/
inductive AtomicSlotCounterError where
  | exhausted (next : UInt64) (slotEnd : UInt32)
  | alreadySpent (requested : UInt32) (next : UInt64)
  | state (message : String)
  | busy
  | io (e : IoError)
  deriving DecidableEq, Repr

variable (sha3 : Bytes → Blob 32)

/-- The checksummed part of a record: bytes `0..96`. -/
def recordHead (record : JournalRecord) : Bytes :=
  journalMagic ++ leBytes 8 record.generation.toNat ++ leBytes 8 record.nextFree.toNat ++
    record.keyTag.1 ++ List.replicate 40 0

/-- mirrors src/src/state/slot_counter.rs:42-51 -/
def encodeRecord (record : JournalRecord) : Bytes :=
  recordHead record ++ (sha3 (recordHead record)).1

/-- mirrors src/src/state/slot_counter.rs:53-82 -/
def decodeRecord (bytes : Bytes) (slot : Nat) : Except String (Option JournalRecord) :=
  if h : bytes.length ≠ recordSize then .error "wrong record length"
  else if bytes.all (· == 0) then .ok none
  else if slice bytes 0 8 ≠ journalMagic then .error "wrong journal magic"
  else if (slice bytes 56 checksumOffset).any (· != 0) then .error "non-zero reserved bytes"
  else if bytes.drop checksumOffset ≠ (sha3 (bytes.take checksumOffset)).1 then
    .error "checksum mismatch"
  else
    let generation := UInt64.ofNat (ofLe (slice bytes 8 16))
    if generation.toNat % 2 ≠ slot then
      .error "generation is stored in the wrong journal slot"
    else
      .ok (some { generation, nextFree := UInt64.ofNat (ofLe (slice bytes 16 24)),
                  keyTag := ⟨slice bytes 24 56, by
                    rw [length_slice _ _ _ (by simp [recordSize] at h; omega)]⟩ })

@[simp] theorem length_recordHead (r : JournalRecord) : (recordHead r).length = checksumOffset := by
  simp [recordHead, journalMagic, r.keyTag.2, checksumOffset]

@[simp] theorem length_encodeRecord (r : JournalRecord) :
    (encodeRecord sha3 r).length = recordSize := by
  simp [encodeRecord, (sha3 (recordHead r)).2, checksumOffset, recordSize]

theorem take_encodeRecord (r : JournalRecord) :
    (encodeRecord sha3 r).take checksumOffset = recordHead r := by
  rw [encodeRecord, List.take_append_of_le_length (by simp), List.take_of_length_le (by simp)]

theorem drop_encodeRecord (r : JournalRecord) :
    (encodeRecord sha3 r).drop checksumOffset = (sha3 (recordHead r)).1 := by
  rw [encodeRecord, List.drop_append, List.drop_of_length_le (by simp)]
  simp

/-- The five fields of a record's head, by position. -/
theorem slice_recordHead (r : JournalRecord) :
    slice (recordHead r) 0 8 = journalMagic ∧
    slice (recordHead r) 8 16 = leBytes 8 r.generation.toNat ∧
    slice (recordHead r) 16 24 = leBytes 8 r.nextFree.toNat ∧
    slice (recordHead r) 24 56 = r.keyTag.1 ∧
    slice (recordHead r) 56 96 = List.replicate 40 0 := by
  have e : recordHead r = journalMagic ++ (leBytes 8 r.generation.toNat ++
      (leBytes 8 r.nextFree.toNat ++ (r.keyTag.1 ++ List.replicate 40 0))) := by
    simp [recordHead]
  have h8 : journalMagic.length = 8 := rfl
  have hk := r.keyTag.2
  rw [e]
  refine ⟨?_, ?_, ?_, ?_, ?_⟩
  · rw [slice_append_left (by simp [h8]), slice_self 8 h8]
  · rw [slice_append_right 8 h8 (by omega), slice_append_left (by simp), slice_self 8 (by simp)]
  · rw [slice_append_right 8 h8 (by omega), slice_append_right 8 (by simp) (by omega),
      slice_append_left (by simp), slice_self 8 (by simp)]
  · rw [slice_append_right 8 h8 (by omega), slice_append_right 8 (by simp) (by omega),
      slice_append_right 8 (by simp) (by omega), slice_append_left (by simp [hk]),
      slice_self 32 hk]
  · rw [slice_append_right 8 h8 (by omega), slice_append_right 8 (by simp) (by omega),
      slice_append_right 8 (by simp) (by omega), slice_append_right 32 hk (by omega),
      slice_self 40 (by simp)]

theorem ofNat_ofLe_leBytes (x : UInt64) : UInt64.ofNat (ofLe (leBytes 8 x.toNat)) = x := by
  rw [ofLe_leBytes 8 _ (by have := x.toNat_lt; omega)]
  simp

/-- What a record decodes to, in any region. -/
theorem decodeRecord_encodeRecord_eq (r : JournalRecord) (slot : Nat) :
    decodeRecord sha3 (encodeRecord sha3 r) slot =
      if r.generation.toNat % 2 ≠ slot then
        .error "generation is stored in the wrong journal slot"
      else .ok (some r) := by
  obtain ⟨s0, s1, s2, s3, s4⟩ := slice_recordHead r
  have lift : ∀ a b, b ≤ 96 → slice (encodeRecord sha3 r) a b = slice (recordHead r) a b :=
    fun a b hb => slice_append_left (by simpa [checksumOffset] using hb)
  have hz : ¬ (encodeRecord sha3 r).all (· == 0) = true := by
    simp [encodeRecord, recordHead, journalMagic]
  unfold decodeRecord
  rw [dif_neg (by simp), if_neg hz, if_neg (by rw [lift 0 8 (by omega), s0]; simp),
    if_neg (by rw [checksumOffset, lift 56 96 (by omega), s4]; simp),
    if_neg (by rw [take_encodeRecord, drop_encodeRecord]; simp)]
  have e1 : UInt64.ofNat (ofLe (slice (encodeRecord sha3 r) 8 16)) = r.generation := by
    rw [lift 8 16 (by omega), s1, ofNat_ofLe_leBytes]
  have e2 : UInt64.ofNat (ofLe (slice (encodeRecord sha3 r) 16 24)) = r.nextFree := by
    rw [lift 16 24 (by omega), s2, ofNat_ofLe_leBytes]
  have e3 : slice (encodeRecord sha3 r) 24 56 = r.keyTag.1 := by
    rw [lift 24 56 (by omega), s3]
  simp only [e1, e2, e3]

theorem decodeRecord_encodeRecord (r : JournalRecord) :
    decodeRecord sha3 (encodeRecord sha3 r) (r.generation.toNat % 2) = .ok (some r) := by
  rw [decodeRecord_encodeRecord_eq]; simp

theorem leBytes_ofNat_ofLe {bytes : Bytes} (h : bytes.length = 8) :
    leBytes 8 (UInt64.ofNat (ofLe bytes)).toNat = bytes := by
  have hlt : ofLe bytes < 2 ^ 64 := by
    have := ofLe_lt bytes
    rw [h] at this
    omega
  rw [UInt64.toNat_ofNat', Nat.mod_eq_of_lt hlt, ← h]
  exact leBytes_ofLe bytes

/-- What decodes to a record is its encoding, in the region of its generation. -/
theorem encodeRecord_decodeRecord {bytes : Bytes} {slot : Nat} {r : JournalRecord}
    (h : decodeRecord sha3 bytes slot = .ok (some r)) :
    bytes = encodeRecord sha3 r ∧ r.generation.toNat % 2 = slot := by
  unfold decodeRecord at h
  split at h
  · cases h
  rename_i hlen
  split at h
  · cases h
  split at h
  · cases h
  rename_i hmagic
  split at h
  · cases h
  rename_i hzero
  split at h
  · cases h
  rename_i hsum
  dsimp only at h
  split at h
  · cases h
  rename_i hslot
  cases h
  have hlen : bytes.length = 128 := not_not.mp hlen
  refine ⟨?_, not_not.mp hslot⟩
  have hreserved : slice bytes 56 96 = List.replicate 40 0 := by
    refine List.eq_replicate_iff.mpr ⟨by rw [length_slice _ _ _ (by omega)], fun b hb => ?_⟩
    by_contra hne
    exact hzero (List.any_eq_true.mpr ⟨b, hb, by simpa using hne⟩)
  have hhead : recordHead ⟨UInt64.ofNat (ofLe (slice bytes 8 16)),
      UInt64.ofNat (ofLe (slice bytes 16 24)), ⟨slice bytes 24 56, by
        rw [length_slice _ _ _ (by omega)]⟩⟩ = bytes.take checksumOffset := by
    unfold recordHead
    dsimp only
    rw [← not_not.mp hmagic, leBytes_ofNat_ofLe (by rw [length_slice _ _ _ (by omega)]),
      leBytes_ofNat_ofLe (by rw [length_slice _ _ _ (by omega)]), ← hreserved]
    have h0 : slice bytes 0 8 = bytes.take 8 := rfl
    rw [h0, take_append_slice bytes (by decide), take_append_slice bytes (by decide),
      take_append_slice bytes (by decide), take_append_slice bytes (by decide)]
    rfl
  unfold encodeRecord
  rw [hhead, ← not_not.mp hsum, List.take_append_drop]

theorem eq_zero_of_decodeRecord {bytes : Bytes} {slot : Nat}
    (h : decodeRecord sha3 bytes slot = .ok none) : bytes = List.replicate recordSize 0 := by
  unfold decodeRecord at h
  split at h
  · cases h
  rename_i hlen
  split at h
  · rename_i hzero
    refine List.eq_replicate_iff.mpr ⟨not_not.mp hlen, fun b hb => ?_⟩
    simpa using List.all_eq_true.mp hzero b hb
  · split at h
    · cases h
    split at h
    · cases h
    split at h
    · cases h
    dsimp only at h
    split at h
    · cases h
    · cases h

/-! ## Recovery -/

/-- The loop over the two regions: the records that decode, and the reasons of
those that do not.
mirrors src/src/state/slot_counter.rs:186-196 -/
def scanRecords (bytes : Bytes) : List JournalRecord × List String :=
  [0, 1].foldl (fun (records, invalid) slot =>
    let start := slot * journalSlotSize
    match decodeRecord sha3 (slice bytes start (start + recordSize)) slot with
    | .ok (some record) => (records ++ [record], invalid)
    | .ok none => (records, invalid)
    | .error reason => (records, invalid ++ [s!"record {slot}: {reason}"])) ([], [])

/-- mirrors src/src/state/slot_counter.rs:213-221 -/
def notMonotonic : List JournalRecord → Bool
  | [older, newer] =>
    newer.generation != older.generation + 1 || decide (newer.nextFree ≤ older.nextFree)
  | _ => false

/-- What recovery makes of the scanned records.
mirrors src/src/state/slot_counter.rs:197-230 -/
def settleRecords (records : List JournalRecord) (invalid : List String) (keyTag : Blob 32)
    (slotEnd : UInt32) : Except AtomicSlotCounterError JournalRecord :=
  if h : records = [] then
    let detail := if invalid = [] then "both records are empty" else "; ".intercalate invalid
    .error (.state s!"journal contains no valid record ({detail})")
  else if records.any (fun record => decide (record.keyTag ≠ keyTag)) then
    .error (.state "journal belongs to a different key or mixes keys")
  else
    let sorted := records.mergeSort fun a b => decide (a.generation ≤ b.generation)
    if notMonotonic sorted then
      .error (.state "journal records are not one monotonic generation apart")
    else
      let current := sorted.getLast (by
        intro e; apply h; rw [← List.length_eq_zero_iff] at e ⊢; simpa [sorted] using e)
      if slotEnd.toNat + 1 < current.nextFree.toNat then
        .error (.state (s!"persisted next slot {current.nextFree} is outside this key's " ++
          s!"window ending at {slotEnd}"))
      else .ok current

/-- mirrors src/src/state/slot_counter.rs:174-231 -/
def recoverJournal (bytes : Bytes) (keyTag : Blob 32) (slotEnd : UInt32) :
    Except AtomicSlotCounterError JournalRecord :=
  if bytes.length ≠ journalSize then
    .error (.state s!"journal has length {bytes.length}, expected {journalSize}")
  else settleRecords (scanRecords sha3 bytes).1 (scanRecords sha3 bytes).2 keyTag slotEnd

/-- The record region `slot` of a journal image holds, if it decodes to one. -/
def recordAt (bytes : Bytes) (slot : Nat) : Option JournalRecord :=
  match decodeRecord sha3 (slice bytes (slot * journalSlotSize)
      (slot * journalSlotSize + recordSize)) slot with
  | .ok r => r
  | .error _ => none

theorem scanRecords_fst (bytes : Bytes) :
    (scanRecords sha3 bytes).1 = (recordAt sha3 bytes 0).toList ++ (recordAt sha3 bytes 1).toList := by
  simp only [scanRecords, recordAt, List.foldl_cons, List.foldl_nil]
  rcases decodeRecord sha3 (slice bytes (0 * journalSlotSize) (0 * journalSlotSize + recordSize)) 0
    with _ | _ | r <;>
  rcases decodeRecord sha3 (slice bytes (1 * journalSlotSize) (1 * journalSlotSize + recordSize)) 1
    with _ | _ | r' <;> rfl

/-- What recovery needs of the records in the two regions to settle on `r`. -/
structure Recovers (keyTag : Blob 32) (slotEnd : UInt32) (x y : Option JournalRecord)
    (r : JournalRecord) : Prop where
  tag : r.keyTag = keyTag
  window : r.nextFree.toNat ≤ slotEnd.toNat + 1
  pick : (x = some r ∧ y = none) ∨ (x = none ∧ y = some r) ∨
    ∃ o, ((x = some o ∧ y = some r) ∨ (x = some r ∧ y = some o)) ∧ o.keyTag = keyTag ∧
      r.generation.toNat = o.generation.toNat + 1 ∧ o.nextFree.toNat < r.nextFree.toNat

/-- Which record sits in which region does not matter to recovery. -/
theorem Recovers.symm {keyTag : Blob 32} {slotEnd : UInt32} {x y : Option JournalRecord}
    {r : JournalRecord} (h : Recovers keyTag slotEnd x y r) : Recovers keyTag slotEnd y x r := by
  refine ⟨h.tag, h.window, ?_⟩
  rcases h.pick with ⟨h1, h2⟩ | ⟨h1, h2⟩ | ⟨o, ⟨h1, h2⟩ | ⟨h1, h2⟩, h3⟩
  · exact .inr (.inl ⟨h2, h1⟩)
  · exact .inl ⟨h2, h1⟩
  · exact .inr (.inr ⟨o, .inr ⟨h2, h1⟩, h3⟩)
  · exact .inr (.inr ⟨o, .inl ⟨h2, h1⟩, h3⟩)

theorem mergeSort_pair (a b : JournalRecord) :
    [a, b].mergeSort (fun a b => decide (a.generation ≤ b.generation)) =
      if a.generation ≤ b.generation then [a, b] else [b, a] := by
  rw [List.mergeSort]
  simp [List.MergeSort.Internal.splitInTwo, List.merge]

theorem settleRecords_single (r r' : JournalRecord) (invalid : List String) (keyTag : Blob 32)
    (slotEnd : UInt32) :
    settleRecords [r] invalid keyTag slotEnd = .ok r' ↔
      r = r' ∧ r.keyTag = keyTag ∧ r.nextFree.toNat ≤ slotEnd.toNat + 1 := by
  by_cases ht : r.keyTag = keyTag
  · by_cases hw : slotEnd.toNat + 1 < r.nextFree.toNat
    · simp [settleRecords, notMonotonic, ht, hw]
    · simp [settleRecords, notMonotonic, ht, hw, Nat.not_lt.mp hw]
  · simp [settleRecords, ht]

/-- Two records in generation order. -/
theorem settleRecords_sorted (o n r' : JournalRecord) (hle : o.generation ≤ n.generation)
    {l : List JournalRecord} (hl : l ≠ [])
    (hs : l.mergeSort (fun a b => decide (a.generation ≤ b.generation)) = [o, n])
    (invalid : List String) (keyTag : Blob 32) (slotEnd : UInt32) :
    settleRecords l invalid keyTag slotEnd = .ok r' ↔
      n = r' ∧ o.keyTag = keyTag ∧ n.keyTag = keyTag ∧ n.nextFree.toNat ≤ slotEnd.toNat + 1 ∧
      n.generation.toNat = o.generation.toNat + 1 ∧ o.nextFree.toNat < n.nextFree.toNat := by
  have hmem : ∀ x, x ∈ l ↔ x = o ∨ x = n := by
    intro x
    have hm : x ∈ l.mergeSort (fun a b => decide (a.generation ≤ b.generation)) ↔ x ∈ l :=
      List.mem_mergeSort
    rw [← hm, hs]
    simp
  have hany : l.any (fun record => decide (record.keyTag ≠ keyTag)) = true ↔
      ¬ (o.keyTag = keyTag ∧ n.keyTag = keyTag) := by
    simp only [List.any_eq_true, decide_eq_true_eq, hmem]
    constructor
    · rintro ⟨x, rfl | rfl, hx⟩ ⟨h1, h2⟩
      · exact hx h1
      · exact hx h2
    · intro h
      by_cases h1 : o.keyTag = keyTag
      · exact ⟨n, .inr rfl, fun h2 => h ⟨h1, h2⟩⟩
      · exact ⟨o, .inl rfl, h1⟩
  -- the sum cannot wrap: `o` is not above `n`, so it is not the last `u64`
  have hmono : notMonotonic [o, n] = true ↔
      ¬ (n.generation.toNat = o.generation.toNat + 1 ∧ o.nextFree.toNat < n.nextFree.toNat) := by
    have hle' := UInt64.le_iff_toNat_le.mp hle
    have hn := n.generation.toNat_lt
    simp only [notMonotonic, Bool.or_eq_true, bne_iff_ne, decide_eq_true_eq, ne_eq,
      ← UInt64.toNat_inj, UInt64.toNat_add, UInt64.toNat_one, UInt64.le_iff_toNat_le]
    omega
  unfold settleRecords
  rw [dif_neg hl]
  by_cases ht : o.keyTag = keyTag ∧ n.keyTag = keyTag
  · rw [if_neg (by rw [hany]; simpa using ht)]
    simp only [hs, List.getLast_cons_cons, List.getLast_singleton]
    by_cases hm : n.generation.toNat = o.generation.toNat + 1 ∧ o.nextFree.toNat < n.nextFree.toNat
    · rw [if_neg (by rw [hmono]; simpa using hm)]
      by_cases hw : slotEnd.toNat + 1 < n.nextFree.toNat
      · simp [hw]
      · simp [hw, ht, hm, Nat.not_lt.mp hw]
    · rw [if_pos (hmono.mpr hm)]
      simp only [reduceCtorEq, false_iff]
      intro h
      obtain ⟨-, -, -, -, h1, h2⟩ := h
      exact hm ⟨h1, h2⟩
  · rw [if_pos (hany.mpr ht)]
    simp only [reduceCtorEq, false_iff]
    intro h
    obtain ⟨-, h1, h2, -⟩ := h
    exact ht ⟨h1, h2⟩

theorem settleRecords_pair {o n : JournalRecord} (hle : o.generation ≤ n.generation)
    {l : List JournalRecord} (hl : l ≠ [])
    (hs : l.mergeSort (fun a b => decide (a.generation ≤ b.generation)) = [o, n])
    (invalid : List String) (keyTag : Blob 32) (slotEnd : UInt32) (r : JournalRecord) :
    settleRecords l invalid keyTag slotEnd = .ok r ↔
      Recovers keyTag slotEnd (some o) (some n) r := by
  rw [settleRecords_sorted o n r hle hl hs]
  constructor
  · intro h
    obtain ⟨rfl, h1, h2, h3, h4⟩ := h
    exact ⟨h2, h3, .inr (.inr ⟨o, .inl ⟨rfl, rfl⟩, h1, h4⟩)⟩
  · intro h
    obtain ⟨ht, hw, hpick⟩ := h
    rcases hpick with ⟨-, h⟩ | ⟨h, -⟩ | ⟨x, ⟨h, h'⟩ | ⟨h, h'⟩, h1, h2, h3⟩
    · cases h
    · cases h
    · cases h
      cases h'
      exact ⟨rfl, h1, ht, hw, h2, h3⟩
    · cases h
      cases h'
      have hle' := UInt64.le_iff_toNat_le.mp hle
      omega

theorem recoverJournal_ok_iff (bytes : Bytes) (keyTag : Blob 32) (slotEnd : UInt32)
    (r : JournalRecord) :
    recoverJournal sha3 bytes keyTag slotEnd = .ok r ↔ bytes.length = journalSize ∧
      Recovers keyTag slotEnd (recordAt sha3 bytes 0) (recordAt sha3 bytes 1) r := by
  unfold recoverJournal
  by_cases hlen : bytes.length = journalSize
  · rw [if_neg (by simpa using hlen), scanRecords_fst]
    simp only [hlen, true_and]
    generalize (scanRecords sha3 bytes).2 = invalid
    generalize recordAt sha3 bytes 0 = x
    generalize recordAt sha3 bytes 1 = y
    rcases x with _ | a <;> rcases y with _ | b
    · simp only [Option.toList_none, List.append_nil, settleRecords, dite_true, reduceCtorEq,
        false_iff]
      rintro ⟨-, -, ⟨h, -⟩ | ⟨-, h⟩ | ⟨o, ⟨h, -⟩ | ⟨h, -⟩, -⟩⟩ <;> cases h
    · simp only [Option.toList_none, Option.toList_some, List.nil_append, settleRecords_single]
      constructor
      · intro h
        obtain ⟨rfl, ht, hw⟩ := h
        exact ⟨ht, hw, .inr (.inl ⟨rfl, rfl⟩)⟩
      · rintro ⟨ht, hw, ⟨h, -⟩ | ⟨-, h⟩ | ⟨o, ⟨h, -⟩ | ⟨h, -⟩, -⟩⟩ <;> cases h
        exact ⟨rfl, ht, hw⟩
    · simp only [Option.toList_none, Option.toList_some, List.append_nil, settleRecords_single]
      constructor
      · intro h
        obtain ⟨rfl, ht, hw⟩ := h
        exact ⟨ht, hw, .inl ⟨rfl, rfl⟩⟩
      · rintro ⟨ht, hw, ⟨h, -⟩ | ⟨h, -⟩ | ⟨o, ⟨-, h⟩ | ⟨-, h⟩, -⟩⟩ <;> cases h
        exact ⟨rfl, ht, hw⟩
    · simp only [Option.toList_some, List.singleton_append]
      have hs := mergeSort_pair a b
      by_cases hab : a.generation ≤ b.generation
      · rw [if_pos hab] at hs
        exact settleRecords_pair hab (by simp) hs invalid keyTag slotEnd r
      · have hba : b.generation ≤ a.generation := UInt64.le_of_lt (UInt64.not_le.mp hab)
        rw [if_neg hab] at hs
        rw [settleRecords_pair hba (by simp) hs invalid keyTag slotEnd r]
        exact ⟨Recovers.symm, Recovers.symm⟩
  · rw [if_pos hlen]
    simp [hlen]

/-! ## The codec and recovery, together -/

theorem recordAt_eq_some {bytes : Bytes} {slot : Nat} {r : JournalRecord} :
    recordAt sha3 bytes slot = some r ↔ decodeRecord sha3 (slice bytes (slot * journalSlotSize)
      (slot * journalSlotSize + recordSize)) slot = .ok (some r) := by
  unfold recordAt
  split
  · rename_i x hx
    rw [hx]
    simp
  · rename_i e he
    rw [he]
    simp

/-- The two records of an image have different generations: one is even, one odd.
So the older one is not the last `u64`. -/
theorem older_succ {bytes : Bytes} {older newer : JournalRecord}
    (h : (scanRecords sha3 bytes).1.mergeSort (fun a b => decide (a.generation ≤ b.generation)) =
      [older, newer]) : older.generation.toNat + 1 < 2 ^ 64 := by
  rw [scanRecords_fst] at h
  cases h0 : recordAt sha3 bytes 0 with
  | none =>
    have hlen := congrArg List.length h
    rw [h0, List.length_mergeSort] at hlen
    cases h1 : recordAt sha3 bytes 1 <;> simp [h1] at hlen
  | some a =>
    cases h1 : recordAt sha3 bytes 1 with
    | none =>
      have hlen := congrArg List.length h
      rw [h0, h1, List.length_mergeSort] at hlen
      simp at hlen
    | some b =>
      have ha := (encodeRecord_decodeRecord sha3 ((recordAt_eq_some sha3).mp h0)).2
      have hb := (encodeRecord_decodeRecord sha3 ((recordAt_eq_some sha3).mp h1)).2
      have ha' := a.generation.toNat_lt
      have hb' := b.generation.toNat_lt
      rw [h0, h1, Option.toList_some, Option.toList_some, List.singleton_append,
        mergeSort_pair] at h
      split at h
      · rename_i hle
        cases h
        have := UInt64.le_iff_toNat_le.mp hle
        omega
      · rename_i hle
        cases h
        have := UInt64.lt_iff_toNat_lt.mp (UInt64.not_le.mp hle)
        omega

/-- What recovery returns, and what else is in the image. -/
theorem recovered_newest {bytes : Bytes} {keyTag : Blob 32} {slotEnd : UInt32} {r : JournalRecord}
    (h : recoverJournal sha3 bytes keyTag slotEnd = .ok r) :
    ∃ slot < 2, recordAt sha3 bytes slot = some r ∧
      ∀ slot' < 2, slot' ≠ slot → ∀ o, recordAt sha3 bytes slot' = some o →
        o.keyTag = r.keyTag ∧ o.generation.toNat + 1 = r.generation.toNat ∧
        o.nextFree.toNat < r.nextFree.toNat := by
  obtain ⟨-, hrec⟩ := (recoverJournal_ok_iff sha3 bytes keyTag slotEnd r).mp h
  rcases hrec.pick with ⟨h0, h1⟩ | ⟨h0, h1⟩ | ⟨x, ⟨h0, h1⟩ | ⟨h0, h1⟩, htag, hgen, hnext⟩
  · refine ⟨0, by decide, h0, fun slot' hlt hne o ho => ?_⟩
    obtain rfl : slot' = 1 := by omega
    rw [h1] at ho
    cases ho
  · refine ⟨1, by decide, h1, fun slot' hlt hne o ho => ?_⟩
    obtain rfl : slot' = 0 := by omega
    rw [h0] at ho
    cases ho
  · refine ⟨1, by decide, h1, fun slot' hlt hne o ho => ?_⟩
    obtain rfl : slot' = 0 := by omega
    rw [h0] at ho
    cases ho
    exact ⟨htag.trans hrec.tag.symm, hgen.symm, hnext⟩
  · refine ⟨0, by decide, h0, fun slot' hlt hne o ho => ?_⟩
    obtain rfl : slot' = 1 := by omega
    rw [h1] at ho
    cases ho
    exact ⟨htag.trans hrec.tag.symm, hgen.symm, hnext⟩

/-- The record codec is exact, and recovery picks the newest record without
overflow. A record reads back in the region of its generation and in no other; what
decodes to a record is its encoding, what decodes to nothing is 128 zero bytes. On
every 8 KiB image, `older.generation + 1` does not overflow. The record recovery
returns is stored in the image, no record that decodes there has a larger
generation, and one that decodes in the other region has the same key, the
generation before and a smaller next slot. -/
theorem journal_codec_exact (sha3 : Bytes → Blob 32) :
    (∀ r : JournalRecord,
      decodeRecord sha3 (encodeRecord sha3 r) (r.generation.toNat % 2) = .ok (some r) ∧
      ∀ slot, slot ≠ r.generation.toNat % 2 →
        ∃ e, decodeRecord sha3 (encodeRecord sha3 r) slot = .error e) ∧
    (∀ bytes slot,
      (∀ r, decodeRecord sha3 bytes slot = .ok (some r) →
        bytes = encodeRecord sha3 r ∧ r.generation.toNat % 2 = slot) ∧
      (decodeRecord sha3 bytes slot = .ok none → bytes = List.replicate 128 0)) ∧
    (∀ bytes : Bytes, bytes.length = 8192 →
      ∀ older newer, (scanRecords sha3 bytes).1.mergeSort
          (fun a b => decide (a.generation ≤ b.generation)) = [older, newer] →
        older.generation.toNat + 1 < 2 ^ 64) ∧
    (∀ (bytes : Bytes) (keyTag : Blob 32) (slotEnd : UInt32) r,
      recoverJournal sha3 bytes keyTag slotEnd = .ok r → ∃ slot < 2,
        slice bytes (slot * 4096) (slot * 4096 + 128) = encodeRecord sha3 r ∧
        ∀ slot' < 2, ∀ o, decodeRecord sha3
            (slice bytes (slot' * 4096) (slot' * 4096 + 128)) slot' = .ok (some o) →
          o.generation ≤ r.generation ∧
          (slot' ≠ slot → o.keyTag = r.keyTag ∧
            o.generation.toNat + 1 = r.generation.toNat ∧ o.nextFree < r.nextFree)) := by
  refine ⟨fun r => ⟨decodeRecord_encodeRecord sha3 r, fun slot hne => ?_⟩,
    fun bytes slot => ⟨fun r h => encodeRecord_decodeRecord sha3 h, eq_zero_of_decodeRecord sha3⟩,
    fun bytes _ older newer h => older_succ sha3 h, fun bytes keyTag slotEnd r h => ?_⟩
  · rw [decodeRecord_encodeRecord_eq, if_pos (Ne.symm hne)]
    exact ⟨_, rfl⟩
  · obtain ⟨slot, hlt, hr, hothers⟩ := recovered_newest sha3 h
    have hstored := (recordAt_eq_some sha3).mp hr
    refine ⟨slot, hlt, (encodeRecord_decodeRecord sha3 hstored).1, fun slot' hlt' o ho => ?_⟩
    have ho' : recordAt sha3 bytes slot' = some o := (recordAt_eq_some sha3).mpr ho
    by_cases hs : slot' = slot
    · subst hs
      rw [hr] at ho'
      cases ho'
      exact ⟨UInt64.le_refl _, fun hne => absurd rfl hne⟩
    · obtain ⟨htag, hgen, hnext⟩ := hothers slot' hlt' hs o ho'
      refine ⟨UInt64.le_iff_toNat_le.mpr (by omega), fun _ => ⟨htag, hgen, ?_⟩⟩
      exact UInt64.lt_iff_toNat_lt.mpr hnext

end Drot.L1.SlotRecord
