import Drot.Core.Ssz

/-!
# Lists of variable-size items, and typed containers

`decodeItems` is `decode_list_of_variable_length_items` of `ethereum_ssz`: the
first offset says how many items there are, an item ends where the next one
starts, and the last one gets the rest. It accepts what `decodeFields` accepts
for that many variable fields (`decodeItems_eq_some`), so its two inverse laws are
those of containers.

A `Column` is a field with its values: an encoding, a decoding, and the two inverse
laws. A container of columns has them too (`Column.exact₁`, `Column.exact₂`).
-/
namespace Drot.Ssz
open Bytes

/-! ## Lists of variable-size items -/

def encodeItems (l : List Bytes) : Bytes := encodeFields (l.map fun b => (.var, b))

/-- The item at `start`, which `left` more items follow; the next offset is the
`i`-th. -/
def items (bytes : Bytes) (first : Nat) : Nat → Nat → Nat → Option (List Bytes)
  | 0, _, start => some [bytes.drop start]
  | left + 1, i, start =>
    if bytes.length < 4 * i + 4 then none
    else
      let next := ofLe (slice bytes (4 * i) (4 * i + 4))
      if next < first ∨ bytes.length < next ∨ next < start then none
      else (items bytes first left (i + 1) next).map (slice bytes start next :: ·)

def decodeItems (bytes : Bytes) : Option (List Bytes) :=
  if bytes = [] then some []
  else if bytes.length < 4 then none
  else
    let first := ofLe (bytes.take 4)
    if bytes.length < first then none
    else if first % 4 ≠ 0 ∨ first < 4 then none
    else items bytes first (first / 4 - 1) 1 first

theorem fixedLen_replicate (n : Nat) : fixedLen (List.replicate n .var) = 4 * n := by
  simp [fixedLen, Shape.width, Nat.mul_comm]

/-- The loop of the list decoder is the first pass of the container decoder. -/
theorem items_eq {bytes : Bytes} {first : Nat} : ∀ (left i start : Nat), first ≤ start →
    items bytes first left i start =
      (register bytes.length (List.replicate left .var) (bytes.drop (4 * i)) start).map
        fun found => resolve bytes (.offset start :: found)
  | 0, _, _, _ => rfl
  | left + 1, i, start, hs => by
    have hread : slice bytes (4 * i) (4 * i + 4) = (bytes.drop (4 * i)).take 4 := by
      unfold slice
      rw [Nat.add_sub_cancel_left]
    have hrest : (bytes.drop (4 * i)).drop 4 = bytes.drop (4 * (i + 1)) := by
      rw [List.drop_drop]
      congr 1
    simp only [items, List.replicate_succ, register, hread, hrest, List.length_drop]
    set next := ofLe ((bytes.drop (4 * i)).take 4)
    by_cases hlen : bytes.length < 4 * i + 4
    · rw [if_pos hlen, if_neg (by omega)]
      rfl
    · have h4 : 4 ≤ bytes.length - 4 * i := by omega
      rw [if_neg hlen, if_pos h4]
      by_cases hoff : next ≤ bytes.length ∧ start ≤ next
      · have hin : ¬ (next < first ∨ bytes.length < next ∨ next < start) := by omega
        rw [if_pos hoff, if_neg hin, items_eq left (i + 1) _ (hs.trans hoff.2), Option.map_map,
          Option.map_map]
        rfl
      · have hout : next < first ∨ bytes.length < next ∨ next < start := by omega
        rw [if_neg hoff, if_pos hout]
        rfl

/-- The list decoder accepts what the container decoder does for one variable field
or more. -/
theorem decodeItems_eq_some {bytes : Bytes} {l : List Bytes} (hne : bytes ≠ []) :
    decodeItems bytes = some l ↔
      ∃ n, decodeFields (List.replicate (n + 1) .var) bytes = some l := by
  have hshape : ∀ n, decodeFields (List.replicate (n + 1) .var) bytes = some l ↔
      4 ≤ bytes.length ∧ ofLe (bytes.take 4) = 4 * (n + 1) ∧ 4 * (n + 1) ≤ bytes.length ∧
        items bytes (4 * (n + 1)) n 1 (4 * (n + 1)) = some l := by
    intro n
    rw [items_eq n 1 _ (le_refl _)]
    unfold decodeFields
    simp only [List.replicate_succ, register, Nat.zero_le, and_true, Nat.mul_one]
    by_cases h4 : 4 ≤ bytes.length
    · rw [if_pos h4]
      by_cases hoff : ofLe (bytes.take 4) ≤ bytes.length
      · rw [if_pos hoff]
        have hfix : fixedLen (Shape.var :: List.replicate n Shape.var) = 4 * (n + 1) := by
          rw [← List.replicate_succ, fixedLen_replicate]
        by_cases hfirst : ofLe (bytes.take 4) = 4 * (n + 1)
        · rw [hfirst] at hoff ⊢
          simp only [h4, hoff, true_and]
          cases register bytes.length (List.replicate n .var) (bytes.drop 4) (4 * (n + 1)) with
          | none => simp
          | some found => simp [offsets, hfix]
        · constructor
          · intro h
            obtain ⟨found, hf, h⟩ := Option.bind_eq_some_iff.mp h
            obtain ⟨l', -, rfl⟩ := Option.map_eq_some_iff.mp hf
            simp only [offsets, hfix] at h
            rw [if_neg hfirst] at h
            cases h
          · intro h
            exact absurd h.2.1 hfirst
      · rw [if_neg hoff]
        simp only [Option.bind_none, reduceCtorEq, false_iff]
        omega
    · rw [if_neg h4]
      simp only [Option.bind_none, reduceCtorEq, false_iff]
      omega
  simp only [hshape]
  unfold decodeItems
  rw [if_neg hne]
  dsimp only
  constructor
  · intro h
    split at h; · cases h
    split at h; · cases h
    split at h; · cases h
    rename_i h4 hle hdiv
    refine ⟨ofLe (bytes.take 4) / 4 - 1, ?_⟩
    have hfirst : 4 * (ofLe (bytes.take 4) / 4 - 1 + 1) = ofLe (bytes.take 4) := by omega
    rw [hfirst]
    exact ⟨by omega, rfl, by omega, h⟩
  · intro h
    obtain ⟨n, h4, hfirst, hle, h⟩ := h
    rw [hfirst, if_neg (by omega), if_neg (by omega), if_neg (by omega)]
    have hn : 4 * (n + 1) / 4 - 1 = n := by omega
    rw [hn]
    exact h

theorem fits_vars (l : List Bytes) : ∀ f ∈ l.map (fun b => ((Shape.var, b) : Field)), Field.Fits f := by
  intro f hf n hn
  obtain ⟨b, -, rfl⟩ := List.mem_map.mp hf
  cases hn

/-- A list shorter than `2^32` bytes reads back. -/
theorem decodeItems_encodeItems (l : List Bytes) (hlen : (encodeItems l).length < 2 ^ 32) :
    decodeItems (encodeItems l) = some l := by
  cases l with
  | nil => rfl
  | cons b l =>
    have hd := decodeFields_encodeFields _ (fits_vars (b :: l)) hlen
    have hshapes : ((b :: l).map fun b => ((Shape.var, b) : Field)).map Prod.fst =
        List.replicate (l.length + 1) .var := by
      rw [List.map_map, List.eq_replicate_iff]
      simp
    have hvals : ((b :: l).map fun b => ((Shape.var, b) : Field)).map Prod.snd = b :: l := by
      simp
    rw [hshapes, hvals] at hd
    have hne : encodeItems (b :: l) ≠ [] := by
      intro he
      have hl := congrArg List.length he
      rw [encodeItems, encodeFields, List.length_append, length_header _ _ (fits_vars _)] at hl
      simp only [hshapes, fixedLen_replicate, List.length_nil] at hl
      omega
    exact (decodeItems_eq_some hne).mpr ⟨l.length, hd⟩

/-- A list has one spelling. -/
theorem encodeItems_decodeItems {bytes : Bytes} {l : List Bytes} (h : decodeItems bytes = some l) :
    encodeItems l = bytes := by
  by_cases hne : bytes = []
  · subst hne
    cases h
    rfl
  · obtain ⟨n, hn⟩ := (decodeItems_eq_some hne).mp h
    obtain ⟨hl, -, he⟩ := encodeFields_decodeFields hn
    rw [List.length_replicate] at hl
    have hz : (List.replicate (n + 1) Shape.var).zip l = l.map fun b => (.var, b) := by
      rw [← hl]
      clear hl he hn h
      induction l with
      | nil => rfl
      | cons b l ih => simp [List.replicate_succ, ih]
    rw [hz] at he
    exact he

/-! ## Columns -/

/-- `encode` and `decode` are inverse, on values that take fewer than `2^32` bytes. -/
structure Exact {α : Type} (encode : α → Bytes) (decode : Bytes → Option α) : Prop where
  decode_encode : ∀ a, (encode a).length < 2 ^ 32 → decode (encode a) = some a
  encode_decode : ∀ bytes a, decode bytes = some a → encode a = bytes

/-- The values by another name. -/
theorem Exact.map {α β : Type} {encode : α → Bytes} {decode : Bytes → Option α} {encode' : β → Bytes}
    {decode' : Bytes → Option β} (h : Exact encode decode) (f : β → α) (g : α → β)
    (hgf : ∀ b, g (f b) = b) (hfg : ∀ a, f (g a) = a) (he : ∀ b, encode' b = encode (f b))
    (hd : ∀ bytes, decode' bytes = (decode bytes).map g) : Exact encode' decode' := by
  refine ⟨fun b hb => ?_, fun bytes b hb => ?_⟩
  · rw [he] at hb
    rw [he, hd, h.decode_encode _ hb, Option.map_some, hgf]
  · rw [hd] at hb
    obtain ⟨a, ha, rfl⟩ := Option.map_eq_some_iff.mp hb
    rw [he, hfg]
    exact h.encode_decode _ _ ha

/-- A field of a container, with its values. -/
structure Column (α : Type) where
  shape : Shape
  encode : α → Bytes
  decode : Bytes → Option α
  fits : ∀ a, Field.Fits (shape, encode a)
  decode_encode : ∀ a, (encode a).length < 2 ^ 32 → decode (encode a) = some a
  encode_decode : ∀ bytes a, Field.Fits (shape, bytes) → decode bytes = some a → encode a = bytes

namespace Column
variable {α β : Type}

theorem fits_var (bytes : Bytes) : Field.Fits (.var, bytes) := fun _ h => by cases h

/-- `u8` -/
def u8 : Column UInt8 where
  shape := .fixed 1
  encode a := [a]
  decode bytes := bytes.head?
  fits a n hn := by cases hn; rfl
  decode_encode _ _ := rfl
  encode_decode bytes a hf h := by
    have hlen : bytes.length = 1 := hf 1 rfl
    obtain ⟨b, rfl⟩ := List.length_eq_one_iff.mp hlen
    cases h
    rfl

/-- `u32` -/
def u32 : Column UInt32 where
  shape := .fixed 4
  encode a := leBytes 4 a.toNat
  decode bytes := some (UInt32.ofNat (ofLe bytes))
  fits a n hn := by cases hn; simp
  decode_encode a _ := by
    have := a.toNat_lt
    rw [ofLe_leBytes 4 _ (by omega), UInt32.ofNat_toNat]
  encode_decode bytes a hf h := by
    have hlen : bytes.length = 4 := hf 4 rfl
    have hlt := ofLe_lt bytes
    cases h
    rw [UInt32.toNat_ofNat_of_lt' (by rw [hlen] at hlt; omega), ← hlen]
    exact leBytes_ofLe bytes

/-- `Vec<u8>` -/
def bytes : Column Bytes where
  shape := .var
  encode a := a
  decode := some
  fits := fits_var
  decode_encode _ _ := rfl
  encode_decode bytes a _ h := by cases h; rfl

/-- A vector of fixed-width items. -/
def vec (n : Nat) (hn : 0 < n) : Column (List (Blob n)) where
  shape := .var
  encode := encodeVec
  decode := decodeVec n
  fits _ := fits_var _
  decode_encode a _ := decodeVec_encodeVec hn a
  encode_decode _ _ _ h := encodeVec_decodeVec h

/-- `Vec<Vec<u8>>` -/
def items : Column (List Bytes) where
  shape := .var
  encode := encodeItems
  decode := decodeItems
  fits _ := fits_var _
  decode_encode a h := decodeItems_encodeItems a h
  encode_decode _ _ _ h := encodeItems_decodeItems h

/-! ## Containers of columns -/

theorem length_le_encodeFields {fs : List Field} (hf : ∀ f ∈ fs, Field.Fits f) {f : Field}
    (hmem : f ∈ fs) : f.2.length ≤ (encodeFields fs).length := by
  rw [encodeFields, List.length_append, length_header _ _ hf]
  induction fs with
  | nil => cases hmem
  | cons g fs ih =>
    obtain ⟨shape, bs⟩ := g
    rcases List.mem_cons.mp hmem with rfl | hmem
    · cases shape with
      | fixed n =>
        have hn : bs.length = n := hf (.fixed n, bs) hmem n rfl
        simp only [varParts, fixedLen, List.map_cons, List.sum_cons, Shape.width]
        omega
      | var =>
        simp only [varParts, List.flatten_cons, List.length_append]
        omega
    · have := ih (fun f h => hf f (List.mem_cons_of_mem _ h)) hmem
      cases shape with
      | fixed n =>
        simp only [varParts, fixedLen, List.map_cons, List.sum_cons] at this ⊢
        omega
      | var =>
        simp only [varParts, fixedLen, List.map_cons, List.sum_cons, List.flatten_cons,
          List.length_append] at this ⊢
        omega

/-- A container of one field. -/
def encode₁ (f : Column α) (a : α) : Bytes := encodeFields [(f.shape, f.encode a)]

def decode₁ (f : Column α) (bytes : Bytes) : Option α :=
  match decodeFields [f.shape] bytes with
  | some [a] => f.decode a
  | _ => none

theorem exact₁ (f : Column α) : Exact f.encode₁ f.decode₁ := by
  refine ⟨fun a h => ?_, fun bytes a h => ?_⟩
  · have hfit : ∀ x ∈ [(f.shape, f.encode a)], Field.Fits x := by
      simpa using f.fits a
    have ha := lt_of_le_of_lt (length_le_encodeFields hfit (List.mem_singleton_self _)) h
    have hd := decodeFields_encodeFields _ hfit h
    simp only [List.map_cons, List.map_nil] at hd
    unfold decode₁ encode₁
    rw [hd]
    exact f.decode_encode a ha
  · unfold decode₁ at h
    split at h
    · rename_i x hx
      obtain ⟨-, hfit, he⟩ := encodeFields_decodeFields hx
      have := f.encode_decode x a (hfit _ (by simp)) h
      unfold encode₁
      rw [this]
      exact he
    · cases h

/-- A container of two fields. -/
def encode₂ (f : Column α) (g : Column β) (x : α × β) : Bytes :=
  encodeFields [(f.shape, f.encode x.1), (g.shape, g.encode x.2)]

def decode₂ (f : Column α) (g : Column β) (bytes : Bytes) : Option (α × β) :=
  match decodeFields [f.shape, g.shape] bytes with
  | some [a, b] => do return (← f.decode a, ← g.decode b)
  | _ => none

theorem exact₂ (f : Column α) (g : Column β) : Exact (encode₂ f g) (decode₂ f g) := by
  refine ⟨fun x h => ?_, fun bytes x h => ?_⟩
  · have hfit : ∀ y ∈ [(f.shape, f.encode x.1), (g.shape, g.encode x.2)], Field.Fits y := by
      simpa using And.intro (f.fits x.1) (g.fits x.2)
    have ha := lt_of_le_of_lt (length_le_encodeFields hfit List.mem_cons_self) h
    have hb := lt_of_le_of_lt
      (length_le_encodeFields hfit (List.mem_cons_of_mem _ (List.mem_singleton_self _))) h
    have hd := decodeFields_encodeFields _ hfit h
    simp only [List.map_cons, List.map_nil] at hd
    unfold decode₂ encode₂
    rw [hd]
    simp [f.decode_encode x.1 ha, g.decode_encode x.2 hb]
  · unfold decode₂ at h
    split at h
    · rename_i u v huv
      obtain ⟨-, hfit, he⟩ := encodeFields_decodeFields huv
      obtain ⟨a, ha, h⟩ := Option.bind_eq_some_iff.mp h
      obtain ⟨b, hb, h⟩ := Option.bind_eq_some_iff.mp h
      cases h
      have h1 := f.encode_decode u a (hfit _ (by simp)) ha
      have h2 := g.encode_decode v b (hfit _ (by simp)) hb
      unfold encode₂
      rw [h1, h2]
      exact he
    · cases h

end Column
end Drot.Ssz
