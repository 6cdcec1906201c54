import Drot.L2State.FreshnessRuns
import Drot.L2State.SlotRuns

/-!
# State files that lost their tail

Both text formats (the freshness line and the counter's two legacy lines) end in
a decimal number that nothing delimits: the parsers require neither the newline
nor a length. A file cut inside the number therefore parses as the number
without its last digits.

* `damaged_tail_iff`: a freshness file cut short is refused or read exactly,
  unless the cut falls inside the digits of the version.
* `cut_legacy_iff`: the same for `AtomicSlotCounter::open` on a legacy file.
-/
namespace Drot.L2.Freshness
open Bytes Text SlotCounter

/-- What is left of the line has some of the version's digits, but not all of
them. -/
def CutsVersion (fp : Str) (m : Option UInt32) (kept : Nat) : Prop :=
  ∃ v, m = some v ∧ fp.length + 1 < kept ∧ kept < fp.length + 1 + (decimal v.toNat).length

/-- A text that is refused or reads as `m`, is never opened as another mark, and
stands in the way of a recovery only when it reads as `m`. -/
structure ReadsBack (path : Path) (fp : Str) (m : Option UInt32) (s : Str) : Prop where
  parsed : (∃ e, parse s fp = .error e) ∨ parse s fp = .ok (m.getD 0, m.isSome)
  opened : ∀ mark, openFrom path fp (.ok (toUtf8 s)) = .ok mark → mark.mark = m
  recovered : ∀ e, recoverFrom path fp (.ok (toUtf8 s)) = .error e →
    parse s fp = .ok (m.getD 0, m.isSome)

section
variable {path : Path} {fp s : Str} {m : Option UInt32}

/-- What `open` and recovery do follows from what `parse` says. -/
theorem readsBack_of_parsed
    (h : (∃ e, parse s fp = .error e) ∨ parse s fp = .ok (m.getD 0, m.isSome)) :
    ReadsBack path fp m s := by
  refine ⟨h, ?_, ?_⟩
  · intro mark hm
    rcases h with ⟨e, h⟩ | h
    · rw [openFrom_error h] at hm; cases hm
    · rw [openFrom_ok h] at hm
      cases hm
      cases m <;> rfl
  · intro e he
    rcases h with ⟨e', h⟩ | h
    · simp only [recoverFrom, validState, fromUtf8_toUtf8, h] at he
      cases he
    · exact h

theorem parse_short (h : splitWhitespace s = [] ∨ ∃ u, splitWhitespace s = [u]) :
    ∃ e, parse s fp = .error e := by
  unfold parse
  rcases h with h | ⟨u, h⟩ <;> rw [h] <;> exact ⟨_, rfl⟩

theorem parse_other {fp' v : Str} (h : splitWhitespace s = [fp', v]) (hne : fp' ≠ fp) :
    ∃ e, parse s fp = .error e := by
  unfold parse
  rw [h]
  exact ⟨"state file belongs to a different anchor", by simp [hne]⟩

theorem parse_decimal {n : Nat} (h : splitWhitespace s = [fp, decimal n]) (hn : n < 2 ^ 32) :
    parse s fp = .ok (UInt32.ofNat n, true) := by
  unfold parse
  rw [h]
  simp only [ne_eq, not_true_eq_false, if_false, decimal_ne_none, parseUnsigned_decimal hn]

/-- A beginning of `none` is no number. -/
theorem parse_cut_none {q : Str} (h : splitWhitespace s = [fp, q]) (hq : q <+: "none".toList)
    (h0 : q ≠ []) : (∃ e, parse s fp = .error e) ∨ parse s fp = .ok (0, false) := by
  have hcases : ∀ q ∈ "none".toList.inits, q ≠ [] → q ≠ "none".toList →
      parseUnsigned (2 ^ 32) q = .error "invalid digit found in string" := by decide
  unfold parse
  rw [h]
  by_cases hn : q = "none".toList
  · exact .inr (by simp [hn])
  · have hp := hcases q ((List.mem_inits _ _).mpr hq) h0 hn
    simp only [ne_eq, not_true_eq_false, if_false, hn, hp]
    exact .inl ⟨_, rfl⟩

end

section
variable (sha3 : Bytes → Blob 32) (anchor : Bytes)

/-- What a proper beginning of the line parses as. -/
theorem parse_cut (m : Option UInt32) {p : Str} (h : p <+: stateLine (fingerprint sha3 anchor) m)
    (hne : p ≠ stateLine (fingerprint sha3 anchor) m) :
    (¬ CutsVersion (fingerprint sha3 anchor) m p.length ∧
      ((∃ e, parse p (fingerprint sha3 anchor) = .error e) ∨
        parse p (fingerprint sha3 anchor) = .ok (m.getD 0, m.isSome))) ∨
    CutsVersion (fingerprint sha3 anchor) m p.length ∧
      ∃ u v, m = some v ∧ u < v ∧ parse p (fingerprint sha3 anchor) = .ok (u, true) := by
  obtain ⟨hfp, hwfp⟩ := fingerprint_word sha3 anchor
  set fp := fingerprint sha3 anchor
  rcases splitWhitespace_cut hfp hwfp (versionText_word m).2 h hne with
    ⟨hlen, hsplit⟩ | ⟨q, h0, hq, rfl, hsplit⟩
  · refine .inl ⟨?_, .inl (parse_short hsplit)⟩
    intro h
    obtain ⟨v, -, hlt, -⟩ := h
    omega
  · have hlen : (fp ++ ' ' :: q).length = fp.length + 1 + q.length := by simp; omega
    have hpos : 0 < q.length := List.length_pos_iff.mpr h0
    cases m with
    | none =>
      refine .inl ⟨?_, parse_cut_none hsplit hq h0⟩
      intro h
      obtain ⟨v, hv, -⟩ := h
      cases hv
    | some v =>
      have hv := v.toNat_lt
      rcases prefix_decimal h0 hq with rfl | ⟨n, h10, hn, rfl⟩
      · refine .inl ⟨?_, .inr ?_⟩
        · intro h
          obtain ⟨v', hv', -, hlt⟩ := h
          cases hv'
          omega
        · rw [parse_decimal hsplit hv]
          simp
      · refine .inr ⟨⟨v, rfl, by omega, ?_⟩, UInt32.ofNat n, v, rfl, ?_,
          parse_decimal hsplit (by omega)⟩
        · have := length_decimal_lt hq (show n ≠ v.toNat by omega)
          omega
        · rw [UInt32.lt_iff_toNat_lt, UInt32.toNat_ofNat_of_lt' (show n < 2 ^ 32 by omega)]
          omega

theorem stateLine_ascii (m : Option UInt32) :
    ∀ c ∈ stateLine (fingerprint sha3 anchor) m, c.toNat < 128 := by
  intro c hc
  simp only [stateLine, List.mem_append, List.mem_cons, List.not_mem_nil, or_false] at hc
  rcases hc with hc | rfl | hc | rfl
  · obtain ⟨d, hd, rfl⟩ := mem_hexString hc
    exact (hexDigit_spec d hd).2.1
  · decide
  · cases m with
    | none => exact ascii_of_all (by decide) c hc
    | some v => have := (toNat_of_isDigit (isDigit_of_mem_decimal hc)).2; omega
  · decide

end

/-- The line `persist` writes reads back and is refused under every other
fingerprint. What is left of the file when its tail is lost is refused or read as
the same mark, if and only if the cut is not inside the digits of the version. -/
theorem damaged_tail_iff (sha3 : Bytes → Blob 32) (anchor : Bytes) (path : Path)
    (m : Option UInt32) :
    parse (stateLine (fingerprint sha3 anchor) m) (fingerprint sha3 anchor) =
        .ok (m.getD 0, m.isSome) ∧
      (∀ fp, fp ≠ fingerprint sha3 anchor →
        ∃ e, parse (stateLine (fingerprint sha3 anchor) m) fp = .error e) ∧
      ∀ cut, cut <+: toUtf8 (stateLine (fingerprint sha3 anchor) m) →
        cut ≠ toUtf8 (stateLine (fingerprint sha3 anchor) m) →
        ∃ p, p <+: stateLine (fingerprint sha3 anchor) m ∧ cut = toUtf8 p ∧
          (ReadsBack path (fingerprint sha3 anchor) m p ↔
            ¬ CutsVersion (fingerprint sha3 anchor) m cut.length) := by
  refine ⟨parse_stateLine sha3 anchor m, ?_, ?_⟩
  · intro fp hfp
    refine parse_other (splitWhitespace_stateLine sha3 anchor m) (Ne.symm hfp)
  · intro cut hcut hne
    obtain ⟨p, hp, rfl, hlen⟩ := prefix_toUtf8 (stateLine_ascii sha3 anchor m) hcut
    refine ⟨p, hp, rfl, ?_⟩
    rw [hlen]
    rcases parse_cut sha3 anchor m hp (by rintro rfl; exact hne rfl) with
      ⟨hin, h⟩ | ⟨hin, u, v, rfl, hlt, h⟩
    · exact ⟨fun _ => hin, fun _ => readsBack_of_parsed h⟩
    · refine ⟨fun hr => ?_, fun hn => absurd hin hn⟩
      have := hr.opened _ (openFrom_ok h)
      cases this
      exact absurd hlt (UInt32.lt_irrefl _)

/-- The mark of `anchor-A`, and its file when version 42 was accepted. -/
def markPath : Path := ⟨"state", "mark"⟩
def markFp : Str := fingerprint (fun _ => digestA) anchorA

/-- The space after the fingerprint is kept and no digit. -/
theorem damaged_tail_iff_sample : ∃ p, p <+: stateLine markFp (some 42) ∧
    toUtf8 (markFp ++ [' ']) = toUtf8 p ∧ (ReadsBack markPath markFp (some 42) p ↔
      ¬ CutsVersion markFp (some 42) (toUtf8 (markFp ++ [' '])).length) := by
  have h : toUtf8 (markFp ++ [' ']) <+: toUtf8 (stateLine markFp (some 42)) := by
    have e : toUtf8 (stateLine markFp (some 42)) =
        toUtf8 (markFp ++ [' ']) ++ toUtf8 (decimal 42 ++ ['\n']) := by
      simp [toUtf8, stateLine, versionText]
    rw [e]
    exact List.prefix_append _ _
  have hne : toUtf8 (markFp ++ [' ']) ≠ toUtf8 (stateLine markFp (some 42)) := by
    intro he
    have := congrArg fromUtf8 he
    rw [fromUtf8_toUtf8, fromUtf8_toUtf8] at this
    have := congrArg List.length (Option.some.inj this)
    simp [stateLine, versionText, decimal] at this
  exact (damaged_tail_iff (fun _ => digestA) anchorA markPath (some 42)).2.2 _ h hne

/-- Version 42 was accepted and the last two bytes of the file were lost: `open`
yields mark 4, and trusted-source recovery is refused. -/
theorem lower_mark_opened : ∃ p, p <+: stateLine markFp (some 42) ∧
    p ≠ stateLine markFp (some 42) ∧
    openFrom markPath markFp (.ok (toUtf8 p)) = .ok ⟨markPath, markFp, 4, true⟩ ∧
    (∃ e, recoverFrom markPath markFp (.ok (toUtf8 p)) = .error e) ∧
    ¬ ((∃ e, parse p markFp = .error e) ∨ parse p markFp = .ok (42, true)) := by
  have hfp : markFp ≠ [] := (fingerprint_word _ anchorA).1
  have hwfp : ∀ c ∈ markFp, isWhitespace c = false := (fingerprint_word _ anchorA).2
  have hsplit : splitWhitespace (markFp ++ ' ' :: decimal 4) = [markFp, decimal 4] := by
    rw [splitWhitespace_cons hfp hwfp (by decide), splitWhitespace_word (by decide) (isWhitespace_of_all (by decide))]
  have hp : parse (markFp ++ ' ' :: decimal 4) markFp = .ok (4, true) :=
    parse_decimal hsplit (by decide)
  refine ⟨markFp ++ ' ' :: decimal 4, ?_, ?_, openFrom_ok hp, ?_, ?_⟩
  · rw [stateLine, List.prefix_append_right_inj]
    decide
  · intro h
    have := List.append_cancel_left h
    revert this
    decide
  · simp only [recoverFrom, validState, fromUtf8_toUtf8, hp]
    exact ⟨_, rfl⟩
  · rw [hp]
    intro h
    rcases h with ⟨e, h⟩ | h
    · cases h
    · cases h

end Drot.L2.Freshness

namespace Drot.L2.SlotCounter
open Bytes Text L1.SlotRecord
open L1.Message (XmssPublicKey XmssSignature)

/-! ## Legacy counter files -/

/-- What the two legacy writers recorded for the frontier `n`: with the mark `v2`
or without it. The writers are gone from the source; its tests keep the format.
mirrors src/src/state/slot_counter.rs:600-642 -/
def legacyLine (versioned : Bool) (keyTag : Blob 32) (n : Nat) : Str :=
  (if versioned then "v2 ".toList else []) ++
    (keyFingerprintHex keyTag ++ ' ' :: (decimal n ++ ['\n']))

/-- What is left of the line has some of the frontier's digits, but not all of
them. -/
def CutsFrontier (versioned : Bool) (keyTag : Blob 32) (n kept : Nat) : Prop :=
  let start := (if versioned then 3 else 0) + (keyFingerprintHex keyTag).length + 1
  start < kept ∧ kept < start + (decimal n).length

section
variable {versioned : Bool} {keyTag : Blob 32} {n : Nat} {s q : Str}

theorem keyFingerprintHex_word (keyTag : Blob 32) : keyFingerprintHex keyTag ≠ [] ∧
    ∀ c ∈ keyFingerprintHex keyTag, isWhitespace c = false := by
  refine ⟨hexString_ne_nil ?_, fun c hc => isWhitespace_of_mem_hexString hc⟩
  intro h
  have := keyTag.2
  rw [h] at this; cases this

/-- `s` is `q`, with the mark `v2` in front if `versioned`. -/
def Marked (versioned : Bool) (q s : Str) : Prop :=
  "v2 ".toList.isPrefixOf s = versioned ∧ (if versioned then s.drop 3 else s) = q

theorem parseLegacy_short (h : Marked versioned q s)
    (hq : splitWhitespace q = [] ∨ ∃ u, splitWhitespace q = [u]) :
    ∃ e, parseLegacy s keyTag = .error e := by
  simp only [parseLegacy, h.1, h.2]
  rcases hq with hq | ⟨u, hq⟩ <;> rw [hq] <;> exact ⟨_, rfl⟩

theorem parseLegacy_decimal (h : Marked versioned q s)
    (hq : splitWhitespace q = [keyFingerprintHex keyTag, decimal n]) (hn : n < 2 ^ 64) :
    parseLegacy s keyTag = .ok (UInt64.ofNat n, !versioned) := by
  simp only [parseLegacy, h.1, h.2]
  rw [hq]
  simp only [ne_eq, not_true_eq_false, if_false, parseUnsigned_decimal hn]

/-- No fingerprint starts like the mark. -/
theorem marked_plain (hq : q <+: keyFingerprintHex keyTag ++ ' ' :: (decimal n ++ ['\n'])) :
    Marked false q q := by
  refine ⟨?_, rfl⟩
  match q, hq with
  | [], _ => rfl
  | c :: q, hq =>
    have hc : c ≠ 'v' := by
      obtain ⟨hne, -⟩ := keyFingerprintHex_word keyTag
      obtain ⟨a, l, hl⟩ := List.exists_cons_of_ne_nil hne
      rw [hl, List.cons_append] at hq
      rw [(List.cons_prefix_cons.mp hq).1]
      have ha : a ∈ hexString keyTag.1 := by
        show a ∈ keyFingerprintHex keyTag
        rw [hl]; simp
      obtain ⟨d, hd, rfl⟩ := mem_hexString ha
      exact (hexDigit_spec d hd).2.2
    simp [List.isPrefixOf, hc.symm]

theorem marked_v2 : Marked true q ("v2 ".toList ++ q) := by
  refine ⟨?_, rfl⟩
  simp

/-- A beginning of a legacy line: nothing but the mark or less is left, or a
beginning of the two words. -/
theorem prefix_legacyLine (h : s <+: legacyLine versioned keyTag n) :
    (s.length ≤ (if versioned then 3 else 0) ∧ ∃ b, Marked b [] s ∨
      ∃ u, Marked b u s ∧ splitWhitespace u = [u]) ∨
    ∃ q, Marked versioned q s ∧ q <+: keyFingerprintHex keyTag ++ ' ' :: (decimal n ++ ['\n']) ∧
      s.length = (if versioned then 3 else 0) + q.length ∧
      (s = legacyLine versioned keyTag n ↔
        q = keyFingerprintHex keyTag ++ ' ' :: (decimal n ++ ['\n'])) := by
  cases versioned with
  | false => exact .inr ⟨s, marked_plain h, h, by simp, Iff.rfl⟩
  | true =>
    rcases List.prefix_or_prefix_of_prefix h (List.prefix_append "v2 ".toList _) with hs | ⟨q, rfl⟩
    · have hcases : ∀ s ∈ "v2 ".toList.inits, s = [] ∨ s = ['v'] ∨ s = ['v', '2'] ∨
        s = "v2 ".toList := by decide
      refine .inl ⟨hs.length_le, ?_⟩
      rcases hcases s ((List.mem_inits _ _).mpr hs) with rfl | rfl | rfl | rfl
      · exact ⟨false, .inl ⟨rfl, rfl⟩⟩
      · exact ⟨false, .inr ⟨_, ⟨rfl, rfl⟩, splitWhitespace_word (by decide) (isWhitespace_of_all (by decide))⟩⟩
      · exact ⟨false, .inr ⟨_, ⟨rfl, rfl⟩, splitWhitespace_word (by decide) (isWhitespace_of_all (by decide))⟩⟩
      · exact ⟨true, .inl ⟨rfl, rfl⟩⟩
    · refine .inr ⟨q, marked_v2, (List.prefix_append_right_inj _).mp h, ?_, ?_⟩
      · simp; omega
      · exact List.append_right_inj _

theorem parseLegacy_full (hn : n < 2 ^ 64) :
    parseLegacy (legacyLine versioned keyTag n) keyTag = .ok (UInt64.ofNat n, !versioned) := by
  obtain ⟨hne, hword⟩ := keyFingerprintHex_word keyTag
  have hsplit : splitWhitespace (keyFingerprintHex keyTag ++ ' ' :: (decimal n ++ ['\n'])) =
      [keyFingerprintHex keyTag, decimal n] := by
    rw [splitWhitespace_cons hne hword (by decide), splitWhitespace_cons (decimal_ne_nil n)
      (fun c hc => isWhitespace_of_isDigit (isDigit_of_mem_decimal hc)) (by decide),
      splitWhitespace_nil]
  cases versioned with
  | false => exact parseLegacy_decimal (marked_plain List.prefix_rfl) hsplit hn
  | true => exact parseLegacy_decimal marked_v2 hsplit hn

/-- What a proper beginning of a legacy line parses as. -/
theorem parseLegacy_cut (hn : n < 2 ^ 64) (h : s <+: legacyLine versioned keyTag n)
    (hne : s ≠ legacyLine versioned keyTag n) :
    (¬ CutsFrontier versioned keyTag n s.length ∧ ((∃ e, parseLegacy s keyTag = .error e) ∨
      parseLegacy s keyTag = .ok (UInt64.ofNat n, !versioned))) ∨
    CutsFrontier versioned keyTag n s.length ∧
      ∃ k, 10 ≤ n ∧ k ≤ n / 10 ∧ parseLegacy s keyTag = .ok (UInt64.ofNat k, !versioned) := by
  unfold CutsFrontier
  rcases prefix_legacyLine h with ⟨hlen, b, hs⟩ | ⟨q, hs, hq, hlen, hiff⟩
  · refine .inl ⟨by omega, .inl ?_⟩
    rcases hs with hs | ⟨u, hs, hu⟩
    · exact parseLegacy_short hs (.inl splitWhitespace_nil)
    · exact parseLegacy_short hs (.inr ⟨u, hu⟩)
  obtain ⟨hfp, hwfp⟩ := keyFingerprintHex_word keyTag
  have hdigits : ∀ c ∈ decimal n, isWhitespace c = false := fun c hc =>
    isWhitespace_of_isDigit (isDigit_of_mem_decimal hc)
  rcases splitWhitespace_cut hfp hwfp hdigits hq (fun he => hne (hiff.mpr he)) with
    ⟨hshort, hsplit⟩ | ⟨d, h0, hd, rfl, hsplit⟩
  · exact .inl ⟨by omega, .inl (parseLegacy_short hs hsplit)⟩
  · have hpos : 0 < d.length := List.length_pos_iff.mpr h0
    have hl : (keyFingerprintHex keyTag ++ ' ' :: d).length =
        (keyFingerprintHex keyTag).length + 1 + d.length := by simp; omega
    rcases prefix_decimal h0 hd with rfl | ⟨k, h10, hk, rfl⟩
    · exact .inl ⟨by omega, .inr (parseLegacy_decimal hs hsplit hn)⟩
    · have := length_decimal_lt hd (show k ≠ n by omega)
      exact .inr ⟨by omega, k, h10, hk, parseLegacy_decimal hs hsplit (by omega)⟩

theorem legacyLine_ascii : ∀ c ∈ legacyLine versioned keyTag n, c.toNat < 128 := by
  intro c hc
  simp only [legacyLine, List.mem_append, List.mem_cons, List.not_mem_nil, or_false] at hc
  rcases hc with hc | hc | rfl | hc | rfl
  · cases versioned with
    | false => cases hc
    | true => exact ascii_of_all (by decide) c hc
  · obtain ⟨d, hd, rfl⟩ := mem_hexString hc
    exact (hexDigit_spec d hd).2.1
  · decide
  · have := (toNat_of_isDigit (isDigit_of_mem_decimal hc)).2; omega
  · decide

/-- No legacy line is as long as a journal. -/
theorem length_legacyLine (hn : n ≤ 2 ^ 32) :
    (legacyLine versioned keyTag n).length < journalSize := by
  have hd : (decimal n).length ≤ 10 :=
    (Nat.length_toDigits_le_iff (by decide) (by decide)).mpr (by omega)
  have hk : (keyFingerprintHex keyTag).length = 64 := by
    unfold keyFingerprintHex; rw [length_hexString, keyTag.2]
  have hj : journalSize = 8192 := rfl
  simp only [legacyLine, List.length_append, List.length_cons, List.length_nil, hk, hj]
  cases versioned <;> simp <;> omega

theorem length_cut (hn : n ≤ 2 ^ 32) {cut : Bytes}
    (h : cut <+: toUtf8 (legacyLine versioned keyTag n)) : cut.length ≠ journalSize := by
  obtain ⟨s, hs, -, hl⟩ := prefix_toUtf8 legacyLine_ascii h
  have h1 := hs.length_le
  have h2 : (legacyLine versioned keyTag n).length < journalSize := length_legacyLine hn
  omega

end

section
variable {sha3 : Bytes → Blob 32} {path : Path} {keyTag : Blob 32} {slotEnd : UInt32} {f : Nat}
  {raw : Bytes} {text : Str}

theorem resume_refused (hlen : raw.length ≠ journalSize) (hu : fromUtf8 raw = some text)
    {e : AtomicSlotCounterError} (hp : parseLegacy text keyTag = .error e) :
    resume sha3 path keyTag slotEnd f raw = liftExcept (.error e) := by
  unfold resume
  rw [if_neg hlen]
  simp only [hu, hp]
  rfl

/-- The top of the whole `u32` range in the format without a version. -/
def Ambiguous (versioned : Bool) (slotEnd : UInt32) (n : Nat) : Prop :=
  versioned = false ∧ slotEnd.toNat = 2 ^ 32 - 1 ∧ n = 2 ^ 32 - 1

theorem resume_ambiguous (hlen : raw.length ≠ journalSize) (hu : fromUtf8 raw = some text)
    {versioned : Bool} {n : Nat} (hp : parseLegacy text keyTag = .ok (UInt64.ofNat n, !versioned))
    (ha : Ambiguous versioned slotEnd n) :
    ∃ e, resume sha3 path keyTag slotEnd f raw = liftExcept (.error e) := by
  obtain ⟨rfl, he, rfl⟩ := ha
  have hn : (UInt64.ofNat (2 ^ 32 - 1)).toNat = 2 ^ 32 - 1 := rfl
  unfold resume
  rw [if_neg hlen]
  simp only [hu, hp]
  refine ⟨.state "legacy state at u32::MAX is ambiguous; refusing to risk slot reuse", ?_⟩
  show (if slotEnd.toNat + 1 < _ then _ else if (!false && slotEnd.toNat == _ && _) = true
    then _ else _) = _
  rw [he, hn]
  rfl

/-- What parses inside the window is migrated. -/
theorem resume_migrates (hlen : raw.length ≠ journalSize) (hu : fromUtf8 raw = some text)
    {versioned : Bool} {n : Nat} (hp : parseLegacy text keyTag = .ok (UInt64.ofNat n, !versioned))
    (hn : n ≤ slotEnd.toNat + 1) (ha : ¬ Ambiguous versioned slotEnd n) :
    resume sha3 path keyTag slotEnd f raw =
      installCounter sha3 path keyTag slotEnd (UInt64.ofNat n) := by
  have hend := slotEnd.toNat_lt
  have hnext : (UInt64.ofNat n).toNat = n := UInt64.toNat_ofNat_of_lt' (show n < 2 ^ 64 by omega)
  have hamb : (!versioned && slotEnd.toNat == 2 ^ 32 - 1 && n == 2 ^ 32 - 1) = false := by
    rw [Bool.eq_false_iff]
    intro h
    simp only [Bool.and_eq_true, Bool.not_eq_true', beq_iff_eq] at h
    exact ha ⟨h.1.1, h.1.2, h.2⟩
  unfold resume
  rw [if_neg hlen]
  simp only [hu, hp]
  show (if slotEnd.toNat + 1 < (UInt64.ofNat n).toNat then _ else if (!versioned && _ &&
    (UInt64.ofNat n).toNat == _) = true then _ else _) = _
  rw [hnext, if_neg (by omega), hamb]
  rfl

/-- The path refers to a file with these bytes, and nobody holds the lock. -/
structure StateFile (path : Path) (bytes : Bytes) (w : SlotWorld) : Prop where
  free : w.disk.lock = none
  file : ∃ i, w.disk.lookup path = some i ∧ (w.disk.inode i).content = bytes

/-- `open` failed, or it resumed at `n` and left the journal of `n` at the path
(a temporary that shares the old file aside). -/
def ResumesAt (sha3 : Bytes → Blob 32) (path : Path) (keyTag : Blob 32) (n : Nat) (w : SlotWorld)
    (x : Except AtomicSlotCounterError AtomicSlotCounter) (w' : SlotWorld) : Prop :=
  (∃ e, x = .error e) ∨ ∃ c, x = .ok c ∧ c.next.toNat = n ∧
    (Tidy (sibling path "tmp") path w.disk → ∃ i, w'.disk.lookup path = some i ∧
      (w'.disk.inode i).content = journalImage sha3 keyTag (UInt64.ofNat n))

end

section
variable {sha3 : Bytes → Blob 32} {path : Path} {pk : XmssPublicKey} {slotEnd : UInt32}
  {F : Faults} {p : Nat} {w w' : SlotWorld} {bytes : Bytes} {text : Str}
  {x : Except AtomicSlotCounterError AtomicSlotCounter}

/-- A file that is refused. -/
theorem open_refused (hf : StateFile path bytes w)
    (hres : ∀ f, ∃ e, resume sha3 path (keyFingerprint sha3 pk) slotEnd f bytes =
      liftExcept (.error e))
    (h : Returns (diskMachine F) p (open_ sha3 path pk slotEnd) w x w') : ∃ e, x = .error e := by
  obtain ⟨i, hi, rfl⟩ := hf.file
  rcases returns_open faithful_disk hf.free h with ⟨he, -⟩ | ⟨j, d, l, hj, -, -, -, h⟩
  · exact he
  · obtain rfl : i = j := Option.some.inj (hi.symm.trans hj)
    obtain ⟨e, he⟩ := hres w.disk.handles
    rw [he] at h
    exact ⟨e, (Machine.runs_ret.mp h).1⟩

/-- A file that is migrated at `n`. -/
theorem open_migrates {n : Nat} (hn : n < 2 ^ 64) (hf : StateFile path bytes w)
    (hres : ∀ f, resume sha3 path (keyFingerprint sha3 pk) slotEnd f bytes =
      installCounter sha3 path (keyFingerprint sha3 pk) slotEnd (UInt64.ofNat n)) :
    (∀ x w', Returns (diskMachine F) p (open_ sha3 path pk slotEnd) w x w' →
      ResumesAt sha3 path (keyFingerprint sha3 pk) n w x w') ∧
    (∃ x w', Returns (goodMachine F) p (open_ sha3 path pk slotEnd) w x w') ∧
    ∀ x w', Returns (goodMachine F) p (open_ sha3 path pk slotEnd) w x w' →
      ∃ c, x = .ok c ∧ c.next.toNat = n := by
  have hnext : (UInt64.ofNat n).toNat = n := UInt64.toNat_ofNat_of_lt' hn
  obtain ⟨i, hi, rfl⟩ := hf.file
  refine ⟨fun x w' h => ?_, ?_, fun x w' h => ?_⟩
  · rcases returns_open faithful_disk hf.free h with ⟨he, -⟩ | ⟨j, d, l, hj, hs, hl, -, h⟩
    · exact .inl he
    · obtain rfl : i = j := Option.some.inj (hi.symm.trans hj)
      rw [hres] at h
      rcases returns_installCounter h with he | ⟨f, rfl, hinst⟩
      · exact .inl he
      · refine .inr ⟨_, rfl, hnext, fun ht => ?_⟩
        obtain ⟨hin, -⟩ := hinst hl (ht.sameFiles hs)
        refine ⟨_, hin.look, ?_⟩
        rw [hin.file, File.content_sync, File.content_writeAt_nil]
  · obtain ⟨d, l, h⟩ := runs_open_good F p sha3 pk slotEnd hf.free hi
    rw [hres] at h
    obtain ⟨w', h'⟩ := runs_installCounter F p sha3 path (keyFingerprint sha3 pk) slotEnd
      (UInt64.ofNat n) ⟨d, l⟩
    exact ⟨_, w', h.trans h'⟩
  · rcases returns_open faithful_good hf.free h with ⟨-, he⟩ | ⟨j, d, l, hj, -, -, -, h⟩
    · exact absurd he not_fails_good
    · obtain rfl : i = j := Option.some.inj (hi.symm.trans hj)
      rw [hres] at h
      obtain ⟨f, rfl⟩ := returns_installCounter_good h
      exact ⟨_, rfl, hnext⟩

end

/-- `open` on what is left of a legacy file of the frontier `n`: it fails or
resumes at `n`, if and only if the cut is not inside the digits of `n`. On the
whole file it resumes at `n`, the ambiguous top of the range aside. -/
theorem cut_legacy_iff (sha3 : Bytes → Blob 32) (path : Path) (pk : XmssPublicKey)
    (slotEnd : UInt32) (F : Faults) (p : Nat) (versioned : Bool) (n : Nat)
    (hn : n ≤ slotEnd.toNat + 1) :
    (∀ cut w, cut <+: toUtf8 (legacyLine versioned (keyFingerprint sha3 pk) n) →
      cut ≠ toUtf8 (legacyLine versioned (keyFingerprint sha3 pk) n) → StateFile path cut w →
      ((∀ x w', Returns (diskMachine F) p (open_ sha3 path pk slotEnd) w x w' →
          ResumesAt sha3 path (keyFingerprint sha3 pk) n w x w') ↔
        ¬ CutsFrontier versioned (keyFingerprint sha3 pk) n cut.length)) ∧
    ∀ w, StateFile path (toUtf8 (legacyLine versioned (keyFingerprint sha3 pk) n)) w →
      (Ambiguous versioned slotEnd n → ∀ x w',
        Returns (diskMachine F) p (open_ sha3 path pk slotEnd) w x w' → ∃ e, x = .error e) ∧
      (¬ Ambiguous versioned slotEnd n →
        (∀ x w', Returns (diskMachine F) p (open_ sha3 path pk slotEnd) w x w' →
          ResumesAt sha3 path (keyFingerprint sha3 pk) n w x w') ∧
        (∃ x w', Returns (goodMachine F) p (open_ sha3 path pk slotEnd) w x w') ∧
        ∀ x w', Returns (goodMachine F) p (open_ sha3 path pk slotEnd) w x w' →
          ∃ c, x = .ok c ∧ c.next.toNat = n) := by
  set tag := keyFingerprint sha3 pk with htag
  have hend := slotEnd.toNat_lt
  constructor
  · intro cut w hcut hne hf
    obtain ⟨s, hs, rfl, hl⟩ := prefix_toUtf8 legacyLine_ascii hcut
    have hsne : s ≠ legacyLine versioned tag n := by rintro rfl; exact hne rfl
    have hj := length_cut (by omega) hcut
    rw [hl]
    rcases parseLegacy_cut (by omega) hs hsne with ⟨hin, hp⟩ | ⟨hin, k, h10, hk, hp⟩
    · refine ⟨fun _ => hin, fun _ x w' h => ?_⟩
      rcases hp with ⟨e, hp⟩ | hp
      · exact .inl (open_refused hf (fun f => ⟨e, resume_refused hj (fromUtf8_toUtf8 s) hp⟩) h)
      · by_cases ha : Ambiguous versioned slotEnd n
        · exact .inl (open_refused hf
            (fun f => resume_ambiguous hj (fromUtf8_toUtf8 s) hp ha) h)
        · exact (open_migrates (by omega) hf
            (fun f => resume_migrates hj (fromUtf8_toUtf8 s) hp hn ha)).1 x w' h
    · refine ⟨fun hall => ?_, fun hn => absurd hin hn⟩
      have ha : ¬ Ambiguous versioned slotEnd k := by
        intro h
        obtain ⟨-, -, rfl⟩ := h
        omega
      have hres : ∀ f, resume sha3 path tag slotEnd f (toUtf8 s) =
          installCounter sha3 path tag slotEnd (UInt64.ofNat k) := fun f =>
        resume_migrates hj (fromUtf8_toUtf8 s) hp (by omega) ha
      obtain ⟨-, ⟨x, w', hr⟩, hok⟩ := open_migrates (F := F) (p := p) (by omega) hf hres
      obtain ⟨c, rfl, hc⟩ := hok x w' hr
      rcases hall _ _ hr.of_restrict with ⟨e, he⟩ | ⟨c', he, hc', -⟩
      · cases he
      · cases he
        omega
  · intro w hf
    have hp : parseLegacy (legacyLine versioned tag n) tag = _ := parseLegacy_full (by omega)
    have hj := length_cut (by omega) (List.prefix_refl (toUtf8 (legacyLine versioned tag n)))
    constructor
    · intro ha x w' h
      exact open_refused hf (fun f => resume_ambiguous hj (fromUtf8_toUtf8 _) hp ha) h
    · intro ha
      exact open_migrates (by omega) hf
        (fun f => resume_migrates hj (fromUtf8_toUtf8 _) hp hn ha)

def fileWorld (path : Path) (bytes : Bytes) : SlotWorld := ⟨Disk.single path bytes none, []⟩

theorem stateFile_fileWorld (path : Path) (bytes : Bytes) :
    StateFile path bytes (fileWorld path bytes) :=
  ⟨rfl, 0, Disk.single_lookup _ _ _, Disk.single_content _ _ _ _⟩

open SlotJournal (slotFaults)

/-- SHA3-256 on what is hashed below: the sample key, and the records of
generation 0 that install the frontiers 103 and 10. -/
def digest103 : Blob 32 :=
  ⟨[0x8a, 0xdb, 0x32, 0xe1, 0xe4, 0x82, 0x3e, 0xcb, 0xcf, 0x95, 0xf5, 0x10, 0xa8, 0x6d, 0x9b, 0x03,
    0xe8, 0xf2, 0x99, 0x34, 0xe4, 0x87, 0xe7, 0x1f, 0x6f, 0xe7, 0xd6, 0x5e, 0x17, 0x3c, 0x34, 0x99], rfl⟩
def digest10 : Blob 32 :=
  ⟨[0x49, 0x45, 0xd3, 0xe9, 0xe0, 0x75, 0x57, 0x69, 0x41, 0x5c, 0x47, 0x97, 0xf3, 0xd4, 0xa5, 0x5a,
    0x06, 0xf9, 0xa0, 0xa5, 0xe8, 0x3c, 0xa7, 0xf9, 0x03, 0x35, 0xcb, 0x43, 0x9e, 0x51, 0x5c, 0x0b], rfl⟩
def legacySha3 (bytes : Bytes) : Blob 32 :=
  if bytes = demoKey.1 then sampleTag
  else if bytes = recordHead ⟨0, 103, sampleTag⟩ then digest103
  else digest10

/-- The file of the migration test without its newline, and whole: the counter resumes
at 103 from both. -/
theorem cut_legacy_iff_sample : ∃ cut whole,
    whole = toUtf8 (legacyLine true (keyFingerprint legacySha3 demoKey) 103) ∧
    cut ++ [0x0a] = whole ∧ ∀ bytes ∈ [cut, whole],
      (∀ x w', Returns (diskMachine (slotFaults legacySha3)) 0 (open_ legacySha3 demoPath demoKey 199)
        (fileWorld demoPath bytes) x w' →
          ResumesAt legacySha3 demoPath (keyFingerprint legacySha3 demoKey) 103
            (fileWorld demoPath bytes) x w') ∧
      ∃ c w', Returns (diskMachine (slotFaults legacySha3)) 0
        (open_ legacySha3 demoPath demoKey 199) (fileWorld demoPath bytes) (.ok c) w' := by
  set tag := keyFingerprint legacySha3 demoKey with htag
  obtain ⟨hfp, hwfp⟩ := keyFingerprintHex_word tag
  let s : Str := "v2 ".toList ++ (keyFingerprintHex tag ++ ' ' :: decimal 103)
  have hsplit : splitWhitespace (keyFingerprintHex tag ++ ' ' :: decimal 103) =
      [keyFingerprintHex tag, decimal 103] := by
    rw [splitWhitespace_cons hfp hwfp (by decide),
      splitWhitespace_word (by decide) (isWhitespace_of_all (by decide))]
  have hp : parseLegacy s tag = .ok (UInt64.ofNat 103, !true) :=
    parseLegacy_decimal marked_v2 hsplit (by decide)
  have hline : toUtf8 s ++ [0x0a] = toUtf8 (legacyLine true tag 103) := by
    have e : toUtf8 (s ++ ['\n']) = toUtf8 s ++ [0x0a] := List.flatMap_append
    rw [← e]
    simp [legacyLine, s]
  have hpre : toUtf8 s <+: toUtf8 (legacyLine true tag 103) := ⟨_, hline⟩
  have hcut : ¬ CutsFrontier true tag 103 (toUtf8 s).length := by
    obtain ⟨q, -, heq, hlen⟩ := prefix_toUtf8 legacyLine_ascii hpre
    obtain rfl : s = q := by
      have := congrArg fromUtf8 heq
      rw [fromUtf8_toUtf8, fromUtf8_toUtf8] at this
      exact Option.some.inj this
    rw [hlen]
    rintro ⟨-, hlt⟩
    simp [s] at hlt
    omega
  have h := cut_legacy_iff legacySha3 demoPath demoKey 199 (slotFaults legacySha3) 0 true 103
    (by decide)
  refine ⟨toUtf8 s, _, rfl, hline, fun bytes hb => ?_⟩
  rcases List.mem_pair.mp hb with rfl | rfl
  · refine ⟨(h.1 _ _ hpre ?_ (stateFile_fileWorld demoPath _)).mpr hcut, ?_⟩
    · intro he
      have := congrArg List.length (hline.trans he.symm)
      simp at this
    · have hres : ∀ f, resume legacySha3 demoPath tag 199 f (toUtf8 s) =
          installCounter legacySha3 demoPath tag 199 (UInt64.ofNat 103) := fun f =>
        resume_migrates (length_cut (by decide) hpre) (fromUtf8_toUtf8 s) hp (by decide)
          (by rintro ⟨h, -⟩; cases h)
      obtain ⟨-, ⟨x, w', hr⟩, hok⟩ := open_migrates (F := slotFaults legacySha3) (p := 0)
        (by decide) (stateFile_fileWorld demoPath (toUtf8 s)) hres
      obtain ⟨c, rfl, -⟩ := hok x w' hr
      exact ⟨c, w', hr.of_restrict⟩
  · obtain ⟨hall, ⟨x, w', hr⟩, hok⟩ := (h.2 _ (stateFile_fileWorld demoPath _)).2
      (by rintro ⟨h, -⟩; cases h)
    obtain ⟨c, rfl, -⟩ := hok x w' hr
    exact ⟨hall, c, w', hr.of_restrict⟩

/-- The file of the migration test without its last two bytes: the frontier was
103, the counter resumes at 10, and slots 10 to 102 are handed out again. -/
theorem lowered_frontier : ∃ cut,
    cut <+: toUtf8 (legacyLine true (keyFingerprint legacySha3 demoKey) 103) ∧
    cut ≠ toUtf8 (legacyLine true (keyFingerprint legacySha3 demoKey) 103) ∧
    StateFile demoPath cut (fileWorld demoPath cut) ∧
    ∃ c w', Returns (diskMachine (slotFaults legacySha3)) 0
      (open_ legacySha3 demoPath demoKey 199) (fileWorld demoPath cut) (.ok c) w' ∧
      c.next.toNat = 10 := by
  set tag := keyFingerprint legacySha3 demoKey with htag
  obtain ⟨hfp, hwfp⟩ := keyFingerprintHex_word tag
  let s : Str := "v2 ".toList ++ (keyFingerprintHex tag ++ ' ' :: decimal 10)
  have hsplit : splitWhitespace (keyFingerprintHex tag ++ ' ' :: decimal 10) =
      [keyFingerprintHex tag, decimal 10] := by
    rw [splitWhitespace_cons hfp hwfp (by decide), splitWhitespace_word (by decide) (isWhitespace_of_all (by decide))]
  have hp : parseLegacy s tag = .ok (UInt64.ofNat 10, !true) :=
    parseLegacy_decimal marked_v2 hsplit (by decide)
  have hline : legacyLine true tag 103 = s ++ ['3', '\n'] := by
    have e : decimal 103 = decimal 10 ++ ['3'] := by decide
    simp [legacyLine, s, e]
  have hcut : toUtf8 s <+: toUtf8 (legacyLine true tag 103) := by
    have e : toUtf8 (s ++ ['3', '\n']) = toUtf8 s ++ toUtf8 ['3', '\n'] := List.flatMap_append
    rw [hline, e]
    exact List.prefix_append _ _
  have hres : ∀ f, resume legacySha3 demoPath tag 199 f (toUtf8 s) =
      installCounter legacySha3 demoPath tag 199 (UInt64.ofNat 10) := fun f =>
    resume_migrates (length_cut (by decide) hcut) (fromUtf8_toUtf8 s) hp (by decide)
      (by rintro ⟨h, -⟩; cases h)
  refine ⟨toUtf8 s, hcut, ?_, stateFile_fileWorld _ _, ?_⟩
  · intro h
    have := congrArg fromUtf8 h
    rw [fromUtf8_toUtf8, fromUtf8_toUtf8, hline] at this
    have := congrArg List.length (Option.some.inj this)
    simp at this
  · obtain ⟨-, ⟨x, w', hr⟩, hok⟩ := open_migrates (F := slotFaults legacySha3) (p := 0)
      (by decide) (stateFile_fileWorld demoPath (toUtf8 s)) hres
    obtain ⟨c, rfl, hc⟩ := hok x w' hr
    exact ⟨c, w', hr.of_restrict, hc⟩

end Drot.L2.SlotCounter
