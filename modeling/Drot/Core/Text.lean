import Drot.Core.Bytes
import Mathlib.Tactic

/-!
# Text, as the Rust standard library reads and writes it

Strings are lists of characters. `fromUtf8` is `str::from_utf8`,
`splitWhitespace` is `str::split_whitespace` (Unicode `White_Space`),
`parseUnsigned bound` is `str::parse` for an unsigned type with `bound`
values (one leading `+` is accepted, digit by digit, the first offence wins),
`hexString` is `{:02x}` over bytes.
-/
namespace Drot.Text

abbrev Str := List Char

/-! ## UTF-8 -/

def toUtf8 (s : Str) : Bytes := s.flatMap String.utf8EncodeChar

def fromUtf8 (bs : Bytes) : Option Str := bs.toByteArray.utf8Decode?.map Array.toList

theorem fromUtf8_toUtf8 (s : Str) : fromUtf8 (toUtf8 s) = some s := by
  have h : (toUtf8 s).toByteArray = s.utf8Encode := rfl
  simp [fromUtf8, h]

/-- A continuation byte. -/
def isCont (b : UInt8) : Bool := 0x80 ≤ b && b ≤ 0xBF

/-- The second bytes a three- or four-byte character may have after its first. -/
def secondByte (first second : UInt8) : Bool :=
  if first = 0xE0 then 0xA0 ≤ second && second ≤ 0xBF
  else if first = 0xED then 0x80 ≤ second && second ≤ 0x9F
  else if first = 0xF0 then 0x90 ≤ second && second ≤ 0xBF
  else if first = 0xF4 then 0x80 ≤ second && second ≤ 0x8F
  else isCont second

/-- How much of the input one replacement character stands for. -/
def errorLength : Bytes → Nat
  | a :: b :: c :: _ =>
    if 0xE0 ≤ a ∧ a ≤ 0xEF then if secondByte a b then 2 else 1
    else if 0xF0 ≤ a ∧ a ≤ 0xF4 then if secondByte a b then if isCont c then 3 else 2 else 1
    else 1
  | [a, b] => if 0xE0 ≤ a ∧ a ≤ 0xF4 ∧ secondByte a b then 2 else 1
  | _ => 1

/-- The character the input starts with, and its length. -/
def firstChar (bs : Bytes) : Option (Char × Nat) :=
  [1, 2, 3, 4].findSome? fun n =>
    match fromUtf8 (bs.take n) with
    | some [c] => some (c, n)
    | _ => none

def lossyChars : Nat → Bytes → Str
  | 0, _ => []
  | _, [] => []
  | fuel + 1, bs =>
    match firstChar bs with
    | some (c, n) => c :: lossyChars fuel (bs.drop n)
    | none => '\uFFFD' :: lossyChars fuel (bs.drop (errorLength bs))

/-- `String::from_utf8_lossy`. -/
def fromUtf8Lossy (bs : Bytes) : Str :=
  match fromUtf8 bs with
  | some s => s
  | none => lossyChars bs.length bs

theorem fromUtf8Lossy_toUtf8 (s : Str) : fromUtf8Lossy (toUtf8 s) = s := by
  unfold fromUtf8Lossy
  rw [fromUtf8_toUtf8]

/-- Texts of one byte a character are cut where their bytes are cut. -/
theorem prefix_toUtf8 {s : Str} {bs : Bytes} (hs : ∀ c ∈ s, c.toNat < 128)
    (h : bs <+: toUtf8 s) : ∃ p, p <+: s ∧ bs = toUtf8 p ∧ bs.length = p.length := by
  induction s generalizing bs with
  | nil => exact ⟨[], List.prefix_rfl, by simpa [toUtf8] using h⟩
  | cons c s ih =>
    have hc : String.utf8EncodeChar c = [c.val.toUInt8] := by
      apply String.utf8EncodeChar_eq_singleton
      rw [Char.utf8Size_eq_one_iff, UInt32.le_iff_toNat_le]
      exact Nat.le_of_lt_succ (hs c (by simp))
    have e : toUtf8 (c :: s) = c.val.toUInt8 :: toUtf8 s := by
      simp only [toUtf8, List.flatMap_cons, hc]; rfl
    rw [e] at h
    rcases List.prefix_cons_iff.mp h with rfl | ⟨t, rfl, ht⟩
    · exact ⟨[], List.nil_prefix, rfl, rfl⟩
    · obtain ⟨p, hp, rfl, hl⟩ := ih (fun c hc => hs c (by simp [hc])) ht
      refine ⟨c :: p, (List.prefix_cons_inj c).mpr hp, ?_, by simp [hl]⟩
      simp only [toUtf8, List.flatMap_cons, hc]; rfl

/-! ## Whitespace -/

/-- `char::is_whitespace`: the Unicode property `White_Space`. -/
def isWhitespace (c : Char) : Bool :=
  let n := c.toNat
  (9 ≤ n && n ≤ 13) || n == 0x20 || n == 0x85 || n == 0xA0 || n == 0x1680 ||
    (0x2000 ≤ n && n ≤ 0x200A) || n == 0x2028 || n == 0x2029 || n == 0x202F || n == 0x205F ||
    n == 0x3000

/-- The maximal runs of other characters, in order. -/
def splitWhitespace (s : Str) : List Str := (s.splitOnP isWhitespace).filter (· ≠ [])

/-- A word and the whitespace character that ends it. -/
theorem splitWhitespace_cons {word rest : Str} {sep : Char} (hne : word ≠ [])
    (hw : ∀ c ∈ word, isWhitespace c = false) (hs : isWhitespace sep = true) :
    splitWhitespace (word ++ sep :: rest) = word :: splitWhitespace rest := by
  rw [splitWhitespace, List.splitOnP_append_cons_of_forall_mem hw sep hs]
  simp [splitWhitespace, hne]

theorem splitWhitespace_nil : splitWhitespace [] = [] := by
  simp [splitWhitespace]

/-- A word that nothing follows. -/
theorem splitWhitespace_word {word : Str} (hne : word ≠ [])
    (hw : ∀ c ∈ word, isWhitespace c = false) : splitWhitespace word = [word] := by
  rw [splitWhitespace, List.splitOnP_eq_singleton hw]
  simp [hne]

/-- A line of two words that lost its tail: at most one word is left of it, or
the first word and a beginning of the second. -/
theorem splitWhitespace_cut {a b p : Str} (ha : a ≠ []) (hwa : ∀ c ∈ a, isWhitespace c = false)
    (hwb : ∀ c ∈ b, isWhitespace c = false) (h : p <+: a ++ ' ' :: (b ++ ['\n']))
    (hne : p ≠ a ++ ' ' :: (b ++ ['\n'])) :
    (p.length ≤ a.length + 1 ∧ (splitWhitespace p = [] ∨ ∃ u, splitWhitespace p = [u])) ∨
      ∃ q, q ≠ [] ∧ q <+: b ∧ p = a ++ ' ' :: q ∧ splitWhitespace p = [a, q] := by
  have hsp : isWhitespace ' ' = true := by decide
  rcases List.prefix_or_prefix_of_prefix h (List.prefix_append a _) with hp | ⟨t, rfl⟩
  · -- inside the first word
    refine .inl ⟨le_trans hp.length_le (by omega), ?_⟩
    by_cases hp0 : p = []
    · exact .inl (by rw [hp0, splitWhitespace_nil])
    · exact .inr ⟨p, splitWhitespace_word hp0 fun c hc => hwa c (hp.subset hc)⟩
  rw [List.prefix_append_right_inj] at h
  rcases List.prefix_cons_iff.mp h with rfl | ⟨q, rfl, hq⟩
  · rw [List.append_nil]
    exact .inl ⟨by omega, .inr ⟨a, splitWhitespace_word ha hwa⟩⟩
  rw [splitWhitespace_cons ha hwa hsp]
  rcases List.prefix_concat_iff.mp hq with rfl | hq
  · exact absurd rfl hne
  by_cases hq0 : q = []
  · subst hq0
    refine .inl ⟨by simp, .inr ⟨a, ?_⟩⟩
    rw [splitWhitespace_nil]
  · refine .inr ⟨q, hq0, hq, rfl, ?_⟩
    rw [splitWhitespace_word hq0 fun c hc => hwb c (hq.subset hc)]

/-! ## Decimal numbers -/

def parseDigits (bound : Nat) : Nat → Str → Except String Nat
  | acc, [] => .ok acc
  | acc, c :: cs =>
    if c.isDigit = false then .error "invalid digit found in string"
    else
      let acc' := 10 * acc + (c.toNat - '0'.toNat)
      if bound ≤ acc' then .error "number too large to fit in target type"
      else parseDigits bound acc' cs

def parseUnsigned (bound : Nat) : Str → Except String Nat
  | [] => .error "cannot parse integer from empty string"
  | ['+'] => .error "invalid digit found in string"
  | '+' :: cs => parseDigits bound 0 cs
  | cs => parseDigits bound 0 cs

/-- `u32::to_string` and the like. -/
def decimal (n : Nat) : Str := Nat.toDigits 10 n

theorem le_ofDigitChars (l : Str) (n : Nat) : n ≤ Nat.ofDigitChars 10 l n := by
  induction l generalizing n with
  | nil => simp
  | cons c l ih =>
    rw [Nat.ofDigitChars_cons]
    exact le_trans (by omega) (ih _)

/-- Digits whose value stays below the bound are read as that value. -/
theorem parseDigits_of_lt {bound : Nat} (l : Str) (acc : Nat) (hd : ∀ c ∈ l, c.isDigit = true)
    (hb : Nat.ofDigitChars 10 l acc < bound) :
    parseDigits bound acc l = .ok (Nat.ofDigitChars 10 l acc) := by
  induction l generalizing acc with
  | nil => simp [parseDigits]
  | cons c l ih =>
    rw [Nat.ofDigitChars_cons] at hb ⊢
    have hc : c.isDigit = true := hd c (by simp)
    have hle := le_ofDigitChars l (10 * acc + (c.toNat - '0'.toNat))
    have hacc : 10 * acc + (c.toNat - '0'.toNat) < bound := lt_of_le_of_lt hle hb
    simp only [parseDigits, hc, Bool.true_eq_false, if_false, Nat.not_le.mpr hacc]
    exact ih _ (fun x hx => hd x (by simp [hx])) hb

theorem isDigit_of_mem_decimal {n : Nat} {c : Char} (h : c ∈ decimal n) : c.isDigit = true :=
  Nat.isDigit_of_mem_toDigits (by decide) (by decide) h

theorem decimal_ne_nil (n : Nat) : decimal n ≠ [] := Nat.toDigits_ne_nil

theorem parseUnsigned_digits {bound : Nat} {l : Str} (hne : l ≠ [])
    (hd : ∀ c ∈ l, c.isDigit = true) : parseUnsigned bound l = parseDigits bound 0 l := by
  match l, hne with
  | c :: cs, _ =>
    have hc : c ≠ '+' := by
      intro h
      subst h
      exact absurd (hd '+' (by simp)) (by decide)
    unfold parseUnsigned
    split
    · contradiction
    · rename_i h; cases h; exact absurd rfl hc
    · rename_i h; cases h; exact absurd rfl hc
    · rfl

/-- A number reads back as itself. -/
theorem parseUnsigned_decimal {bound n : Nat} (h : n < bound) :
    parseUnsigned bound (decimal n) = .ok n := by
  rw [parseUnsigned_digits (decimal_ne_nil n) fun c hc => isDigit_of_mem_decimal hc,
    parseDigits_of_lt _ _ (fun c hc => isDigit_of_mem_decimal hc)]
  · rw [decimal, Nat.ofDigitChars_ten_toDigits]
  · rw [decimal, Nat.ofDigitChars_ten_toDigits]; exact h

theorem toNat_of_isDigit {c : Char} (h : c.isDigit = true) : 48 ≤ c.toNat ∧ c.toNat ≤ 57 := by
  simp only [Char.isDigit, ge_iff_le, Bool.and_eq_true, decide_eq_true_eq,
    UInt32.le_iff_toNat_le] at h
  exact h

theorem isWhitespace_of_isDigit {c : Char} (h : c.isDigit = true) : isWhitespace c = false := by
  have h' := toNat_of_isDigit h
  simp only [isWhitespace, Bool.or_eq_false_iff, Bool.and_eq_false_iff, decide_eq_false_iff_not,
    beq_eq_false_iff_ne]
  omega

/-- A closed word is checked by running over it. -/
theorem isWhitespace_of_all {s : Str} (h : s.all (fun c => !isWhitespace c) = true) :
    ∀ c ∈ s, isWhitespace c = false := by
  intro c hc
  have := List.all_eq_true.mp h c hc
  simpa using this

theorem ascii_of_all {s : Str} (h : s.all (fun c => decide (c.toNat < 128)) = true) :
    ∀ c ∈ s, c.toNat < 128 := by
  intro c hc
  exact of_decide_eq_true (List.all_eq_true.mp h c hc)

theorem decimal_injective : Function.Injective decimal := by
  intro m n h
  have := congrArg (fun s => Nat.ofDigitChars 10 s 0) h
  simpa only [decimal, Nat.ofDigitChars_ten_toDigits] using this

/-- A number cut short is the number without its last digits. -/
theorem prefix_decimal {d : Str} {n : Nat} (hne : d ≠ []) (h : d <+: decimal n) :
    d = decimal n ∨ ∃ m, 10 ≤ n ∧ m ≤ n / 10 ∧ d = decimal m := by
  induction n using Nat.strongRecOn with
  | ind n ih =>
    by_cases hn : n < 10
    · have e : decimal n = [n.digitChar] := Nat.toDigits_of_lt_base hn
      rw [e] at h ⊢
      rcases List.prefix_cons_iff.mp h with rfl | ⟨t, rfl, ht⟩
      · exact absurd rfl hne
      · rw [List.prefix_nil.mp ht]; exact .inl rfl
    · have hn : 10 ≤ n := Nat.not_lt.mp hn
      have e : decimal n = decimal (n / 10) ++ [(n % 10).digitChar] :=
        Nat.toDigits_of_base_le (by decide) hn
      rw [e] at h
      rcases List.prefix_concat_iff.mp h with rfl | h
      · exact .inl e.symm
      · rcases ih (n / 10) (by omega) h with rfl | ⟨m, -, hm, rfl⟩
        · exact .inr ⟨n / 10, hn, le_refl _, rfl⟩
        · exact .inr ⟨m, hn, by omega, rfl⟩

theorem length_decimal_lt {m n : Nat} (h : decimal m <+: decimal n) (hne : m ≠ n) :
    (decimal m).length < (decimal n).length :=
  lt_of_le_of_ne h.length_le fun he => hne (decimal_injective (h.eq_of_length he))

/-! ## Hexadecimal -/

/-- `format!("{b:02x}")`. -/
def hexByte (b : UInt8) : Str := [Nat.digitChar (b.toNat / 16), Nat.digitChar (b.toNat % 16)]

def hexString (bs : Bytes) : Str := bs.flatMap hexByte

/-- What can be checked of sixteen digits holds of every character. -/
theorem mem_hexString {bs : Bytes} {c : Char} (h : c ∈ hexString bs) :
    ∃ d, d < 16 ∧ c = Nat.digitChar d := by
  obtain ⟨b, -, hc⟩ := List.mem_flatMap.mp h
  have hb := b.toNat_lt
  simp only [hexByte, List.mem_cons, List.not_mem_nil, or_false] at hc
  rcases hc with rfl | rfl
  · exact ⟨_, by omega, rfl⟩
  · exact ⟨_, by omega, rfl⟩

theorem hexDigit_spec : ∀ d, d < 16 → isWhitespace (Nat.digitChar d) = false ∧
    (Nat.digitChar d).toNat < 128 ∧ Nat.digitChar d ≠ 'v' := by decide

theorem isWhitespace_of_mem_hexString {bs : Bytes} {c : Char} (h : c ∈ hexString bs) :
    isWhitespace c = false := by
  obtain ⟨d, hd, rfl⟩ := mem_hexString h
  exact (hexDigit_spec d hd).1

theorem hexString_ne_nil {bs : Bytes} (h : bs ≠ []) : hexString bs ≠ [] := by
  obtain ⟨b, bs, rfl⟩ := List.exists_cons_of_ne_nil h
  simp [hexString, hexByte]

theorem length_hexString (bs : Bytes) : (hexString bs).length = 2 * bs.length := by
  induction bs with
  | nil => rfl
  | cons b bs ih => simp only [hexString, List.flatMap_cons, hexByte] at ih ⊢; simp [ih]; omega

end Drot.Text
