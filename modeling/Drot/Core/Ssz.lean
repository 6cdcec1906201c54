import Drot.Core.Bytes
import Mathlib.Tactic

/-!
# SSZ, as `ethereum_ssz` implements it

The encodings the wire schemas are made of: containers of fixed and variable
fields, vectors of fixed-width items, and bit lists. A container starts with
its fixed part, in which a variable field is a 4-byte offset; the decoder wants
the first offset to be the length of the fixed part, offsets that do not
decrease or leave the input, and gives the last field the rest. The encoder
writes an offset modulo `2^32` (`encode_length` only asserts the bound in debug
builds), so a container reads back when it is shorter than that.

* `decodeFields_encodeFields`: a short container reads back.
* `encodeFields_decodeFields`: what decodes re-encodes to the same bytes, so a
  container has one spelling.
* `decodeVec_encodeVec`, `encodeVec_decodeVec` and `decodeBits_encodeBits`,
  `encodeBits_decodeBits`: the same for vectors and bit lists.
-/
namespace Drot.Ssz
open Bytes

/-! ## Containers -/

inductive Shape where
  | fixed (n : Nat)
  | var
  deriving DecidableEq, Repr

/-- A field and its own encoding. -/
abbrev Field := Shape × Bytes

def Shape.width : Shape → Nat
  | .fixed n => n
  | .var => 4

/-- The encoding of a fixed field has the field's width. -/
def Field.Fits (f : Field) : Prop := ∀ n, f.1 = .fixed n → f.2.length = n

def fixedLen (shapes : List Shape) : Nat := (shapes.map Shape.width).sum

/-- The fixed part; `off` is where the next variable field will start. -/
def header (off : Nat) : List Field → Bytes
  | [] => []
  | (.fixed _, bs) :: fs => bs ++ header off fs
  | (.var, bs) :: fs => leBytes 4 (off % 2 ^ 32) ++ header (off + bs.length) fs

/-- The encodings of the variable fields. -/
def varParts : List Field → List Bytes
  | [] => []
  | (.fixed _, _) :: fs => varParts fs
  | (.var, bs) :: fs => bs :: varParts fs

def encodeFields (fs : List Field) : Bytes :=
  header (fixedLen (fs.map Prod.fst)) fs ++ (varParts fs).flatten

/-- What the first pass over the fixed part finds for each field. -/
inductive Found where
  | item (bs : Bytes)
  | offset (n : Nat)

/-- `rest` is the input from the current position on, `len` the length of the
whole input and `prev` the last offset. -/
def register (len : Nat) : List Shape → Bytes → Nat → Option (List Found)
  | [], _, _ => some []
  | .fixed n :: s, rest, prev =>
    if n ≤ rest.length then (register len s (rest.drop n) prev).map (.item (rest.take n) :: ·)
    else none
  | .var :: s, rest, prev =>
    if 4 ≤ rest.length then
      let off := ofLe (rest.take 4)
      if off ≤ len ∧ prev ≤ off then (register len s (rest.drop 4) off).map (.offset off :: ·)
      else none
    else none

def offsets : List Found → List Nat
  | [] => []
  | .item _ :: l => offsets l
  | .offset n :: l => n :: offsets l

/-- The fields, with each offset replaced by the bytes up to the next one. -/
def resolve (bytes : Bytes) : List Found → List Bytes
  | [] => []
  | .item bs :: l => bs :: resolve bytes l
  | .offset n :: l =>
    (match offsets l with
      | [] => bytes.drop n
      | m :: _ => slice bytes n m) :: resolve bytes l

def decodeFields (shapes : List Shape) (bytes : Bytes) : Option (List Bytes) :=
  (register bytes.length shapes bytes 0).bind fun found =>
    match offsets found with
    | [] => if bytes.length = fixedLen shapes then some (resolve bytes found) else none
    | first :: _ => if first = fixedLen shapes then some (resolve bytes found) else none

section Encode

theorem length_header : ∀ (fs : List Field) (off : Nat), (∀ f ∈ fs, Field.Fits f) →
    (header off fs).length = fixedLen (fs.map Prod.fst)
  | [], _, _ => rfl
  | (.fixed n, bs) :: fs, off, h => by
    have hb : bs.length = n := h (.fixed n, bs) (by simp) n rfl
    have := length_header fs off fun f hf => h f (by simp [hf])
    simp only [header, List.length_append, this, fixedLen, List.map_cons, List.sum_cons,
      Shape.width, hb]
  | (.var, bs) :: fs, off, h => by
    have := length_header fs (off + bs.length) fun f hf => h f (by simp [hf])
    simp only [header, List.length_append, length_leBytes, this, fixedLen, List.map_cons,
      List.sum_cons, Shape.width]

/-- What the first pass finds in an encoding. -/
def founds (off : Nat) : List Field → List Found
  | [] => []
  | (.fixed _, bs) :: fs => .item bs :: founds off fs
  | (.var, bs) :: fs => .offset off :: founds (off + bs.length) fs

theorem register_header (len : Nat) (hlen : len < 2 ^ 32) :
    ∀ (fs : List Field) (off prev : Nat) (tail : Bytes), (∀ f ∈ fs, Field.Fits f) → prev ≤ off →
      off + (varParts fs).flatten.length ≤ len →
      register len (fs.map Prod.fst) (header off fs ++ tail) prev = some (founds off fs)
  | [], _, _, _, _, _, _ => rfl
  | (.fixed n, bs) :: fs, off, prev, tail, h, hp, hl => by
    have hb : bs.length = n := h (.fixed n, bs) (by simp) n rfl
    have ih := register_header len hlen fs off prev tail (fun f hf => h f (by simp [hf])) hp hl
    subst hb
    simp only [List.map_cons, header, register, List.append_assoc, List.length_append,
      Nat.le_add_right, if_true, List.drop_left, List.take_left, ih, Option.map_some, founds]
  | (.var, bs) :: fs, off, prev, tail, h, hp, hl => by
    simp only [varParts, List.flatten_cons, List.length_append] at hl
    have ih := register_header len hlen fs (off + bs.length) off tail
      (fun f hf => h f (by simp [hf])) (by omega) (by omega)
    have hoff : ofLe (leBytes 4 (off % 2 ^ 32)) = off := by
      rw [Nat.mod_eq_of_lt (by omega), ofLe_leBytes 4 off (by omega)]
    have h4 : (leBytes 4 (off % 2 ^ 32)).length = 4 := length_leBytes _ _
    simp only [List.map_cons, header, register, List.append_assoc, List.length_append, h4,
      Nat.le_add_right, if_true, List.take_left' h4, List.drop_left' h4, hoff]
    rw [if_pos ⟨by omega, hp⟩, ih]
    rfl

theorem offsets_founds : ∀ (fs : List Field) (off : Nat),
    (varParts fs = [] ∧ offsets (founds off fs) = []) ∨
    ∃ v vs l, varParts fs = v :: vs ∧ offsets (founds off fs) = off :: l
  | [], _ => .inl ⟨rfl, rfl⟩
  | (.fixed _, _) :: fs, off => offsets_founds fs off
  | (.var, bs) :: fs, _ => .inr ⟨bs, varParts fs, _, rfl, rfl⟩

theorem resolve_founds : ∀ (fs : List Field) (pre : Bytes),
    resolve (pre ++ (varParts fs).flatten) (founds pre.length fs) = fs.map Prod.snd
  | [], _ => rfl
  | (.fixed n, bs) :: fs, pre => by
    simp only [varParts, founds, resolve, List.map_cons, resolve_founds fs pre]
  | (.var, bs) :: fs, pre => by
    have ih := resolve_founds fs (pre ++ bs)
    simp only [List.append_assoc, List.length_append] at ih
    simp only [varParts, List.flatten_cons, founds, resolve, List.map_cons, ih, List.cons.injEq,
      and_true]
    rcases offsets_founds fs (pre.length + bs.length) with ⟨hv, ho⟩ | ⟨v, vs, l, -, ho⟩
    · simp only [ho, hv, List.flatten_nil, List.append_nil, List.drop_left]
    · simp only [ho]
      rw [slice_append_right pre.length rfl (le_refl _), slice_append_left (by omega),
        Nat.sub_self, slice_self _ (by omega)]

/-- A container shorter than `2^32` bytes reads back. -/
theorem decodeFields_encodeFields (fs : List Field) (h : ∀ f ∈ fs, Field.Fits f)
    (hlen : (encodeFields fs).length < 2 ^ 32) :
    decodeFields (fs.map Prod.fst) (encodeFields fs) = some (fs.map Prod.snd) := by
  have hh := length_header fs (fixedLen (fs.map Prod.fst)) h
  have hl : (encodeFields fs).length =
      fixedLen (fs.map Prod.fst) + (varParts fs).flatten.length := by
    rw [encodeFields, List.length_append, hh]
  have hreg := register_header (encodeFields fs).length hlen fs (fixedLen (fs.map Prod.fst)) 0
    (varParts fs).flatten h (Nat.zero_le _) (by omega)
  have hres := resolve_founds fs (header (fixedLen (fs.map Prod.fst)) fs)
  rw [hh] at hres
  unfold decodeFields
  rw [← encodeFields] at hreg hres
  rw [hreg, Option.bind_some]
  rcases offsets_founds fs (fixedLen (fs.map Prod.fst)) with ⟨hv, ho⟩ | ⟨v, vs, l, -, ho⟩
  · simp only [ho]
    rw [if_pos (by rw [hl, hv]; simp), hres]
  · simp only [ho, if_true, hres]

end Encode

section Decode

/-- The first pass reads the header of what it found, and the offsets it
accepts do not decrease. -/
theorem register_some {len : Nat} : ∀ {shapes : List Shape} {rest : Bytes} {prev : Nat}
    {found : List Found}, register len shapes rest prev = some found →
    fixedLen shapes ≤ rest.length ∧ found.length = shapes.length ∧
      (prev :: offsets found).Pairwise (· ≤ ·) ∧ ∀ o ∈ offsets found, o ≤ len ∧ o < 2 ^ 32
  | [], _, _, _, h => by
    cases h; simp [fixedLen, offsets]
  | .fixed n :: s, rest, prev, found, h => by
    unfold register at h
    split at h
    · obtain ⟨l, hl, rfl⟩ := Option.map_eq_some_iff.mp h
      obtain ⟨h1, h2, h3, h4⟩ := register_some hl
      rw [List.length_drop] at h1
      refine ⟨?_, by simp [h2], h3, h4⟩
      simp only [fixedLen, List.map_cons, List.sum_cons, Shape.width] at h1 ⊢
      omega
    · cases h
  | .var :: s, rest, prev, found, h => by
    unfold register at h
    split at h
    · dsimp only at h
      split at h
      · rename_i hr ho
        obtain ⟨l, hl, rfl⟩ := Option.map_eq_some_iff.mp h
        obtain ⟨h1, h2, h3, h4⟩ := register_some hl
        rw [List.length_drop] at h1
        have hlt : ofLe (rest.take 4) < 2 ^ 32 := by
          have := ofLe_lt (rest.take 4)
          rw [List.length_take, Nat.min_eq_left hr] at this
          omega
        refine ⟨?_, by simp [h2], ?_, ?_⟩
        · simp only [fixedLen, List.map_cons, List.sum_cons, Shape.width] at h1 ⊢
          omega
        · rw [offsets, List.pairwise_cons]
          refine ⟨fun o hm => ?_, h3⟩
          rcases List.mem_cons.mp hm with rfl | hm
          · exact ho.2
          · exact ho.2.trans ((List.pairwise_cons.mp h3).1 o hm)
        · intro o hm
          rcases List.mem_cons.mp hm with rfl | hm
          · exact ⟨ho.1, hlt⟩
          · exact h4 o hm
      · cases h
    · cases h

/-- The bytes the variable fields cover: from the first offset to the end. -/
def covered (bytes : Bytes) (found : List Found) : Bytes :=
  match offsets found with
  | [] => []
  | o :: _ => bytes.drop o

theorem drop_eq_slice_append (bytes : Bytes) {o m : Nat} (h : o ≤ m) :
    bytes.drop o = slice bytes o m ++ bytes.drop m := by
  unfold slice
  have hm : bytes.drop m = (bytes.drop o).drop (m - o) := by
    rw [List.drop_drop]; congr 1; omega
  rw [hm, List.take_append_drop]

/-- The bytes of a field end where the next offset points. -/
theorem resolve_offset {bytes : Bytes} {o : Nat} {l : List Found}
    (hmono : (o :: offsets l).Pairwise (· ≤ ·)) (hle : ∀ m ∈ offsets l, m ≤ bytes.length) :
    ∃ v, resolve bytes (.offset o :: l) = v :: resolve bytes l ∧
      (∀ m ∈ (offsets l).head?, m = o + v.length) ∧ bytes.drop o = v ++ covered bytes l := by
  cases hol : offsets l with
  | nil => exact ⟨bytes.drop o, by simp [resolve, hol], by simp, by simp [covered, hol]⟩
  | cons m ms =>
    rw [hol] at hmono hle
    have hom : o ≤ m := (List.pairwise_cons.mp hmono).1 m (by simp)
    refine ⟨slice bytes o m, by simp [resolve, hol], ?_, ?_⟩
    · simp only [List.head?_cons, Option.mem_def, Option.some.injEq, forall_eq']
      rw [length_slice _ _ _ (hle m (by simp))]
      omega
    · simp only [covered, hol]
      exact drop_eq_slice_append bytes hom

/-- Encoding what the two passes make of the input gives the input back, field
by field. -/
theorem header_resolve {bytes : Bytes} : ∀ {shapes : List Shape} {rest : Bytes} {prev : Nat}
    {found : List Found} (off : Nat), register bytes.length shapes rest prev = some found →
    (∀ o ∈ (offsets found).head?, o = off) →
    header off (shapes.zip (resolve bytes found)) = rest.take (fixedLen shapes) ∧
      (∀ f ∈ shapes.zip (resolve bytes found), Field.Fits f) ∧
      (varParts (shapes.zip (resolve bytes found))).flatten = covered bytes found
  | [], _, _, _, _, h, _ => by
    cases h; simp [header, fixedLen, varParts, covered, offsets]
  | .fixed n :: s, rest, prev, found, off, h, ho => by
    unfold register at h
    split at h
    · rename_i hn
      obtain ⟨l, hl, rfl⟩ := Option.map_eq_some_iff.mp h
      obtain ⟨h1, h2, h3⟩ := header_resolve off hl ho
      refine ⟨?_, ?_, h3⟩
      · simp only [resolve, List.zip_cons_cons, header, h1, fixedLen, List.map_cons,
          List.sum_cons, Shape.width]
        rw [List.take_add]
      · intro f hf
        simp only [resolve, List.zip_cons_cons, List.mem_cons] at hf
        rcases hf with rfl | hf
        · intro k hk
          cases hk
          rw [List.length_take, Nat.min_eq_left hn]
        · exact h2 f hf
    · cases h
  | .var :: s, rest, prev, found, off, h, ho => by
    have hsorted := register_some h
    unfold register at h
    split at h
    · dsimp only at h
      split at h
      · rename_i hn hb
        obtain ⟨l, hl, rfl⟩ := Option.map_eq_some_iff.mp h
        obtain rfl : ofLe (rest.take 4) = off := ho _ rfl
        set o := ofLe (rest.take 4) with hdef
        obtain ⟨-, -, hmono, hlt⟩ := hsorted
        have hfst : leBytes 4 (o % 2 ^ 32) = rest.take 4 := by
          have h4 : (rest.take 4).length = 4 := by rw [List.length_take, Nat.min_eq_left hn]
          rw [Nat.mod_eq_of_lt (hlt o (by simp [offsets])).2]
          have := leBytes_ofLe (rest.take 4)
          rwa [h4] at this
        obtain ⟨v, hv, hnext, hcov⟩ := resolve_offset (List.pairwise_cons.mp hmono).2
          fun m hm => (hlt m (List.mem_cons_of_mem _ hm)).1
        obtain ⟨h1, h2, h3⟩ := header_resolve (o + v.length) hl hnext
        rw [hv]
        refine ⟨?_, ?_, ?_⟩
        · simp only [List.zip_cons_cons, header, h1, hfst, fixedLen, List.map_cons, List.sum_cons,
            Shape.width]
          rw [List.take_add]
        · intro f hf
          simp only [List.zip_cons_cons, List.mem_cons] at hf
          rcases hf with rfl | hf
          · intro k hk; cases hk
          · exact h2 f hf
        · simp only [List.zip_cons_cons, varParts, List.flatten_cons, h3]
          exact hcov.symm
      · cases h
    · cases h

theorem length_resolve (bytes : Bytes) : ∀ found, (resolve bytes found).length = found.length
  | [] => rfl
  | .item _ :: l => by simp [resolve, length_resolve bytes l]
  | .offset _ :: l => by simp [resolve, length_resolve bytes l]

/-- A container has one spelling: what decodes encodes to the same bytes. -/
theorem encodeFields_decodeFields {shapes : List Shape} {bytes : Bytes} {vs : List Bytes}
    (h : decodeFields shapes bytes = some vs) :
    vs.length = shapes.length ∧ (∀ f ∈ shapes.zip vs, Field.Fits f) ∧
      encodeFields (shapes.zip vs) = bytes := by
  unfold decodeFields at h
  obtain ⟨found, hreg, h⟩ := Option.bind_eq_some_iff.mp h
  obtain ⟨hle, hlen, -, -⟩ := register_some hreg
  have hcount : (resolve bytes found).length = shapes.length := by rw [length_resolve, hlen]
  have hfst : (shapes.zip (resolve bytes found)).map Prod.fst = shapes :=
    List.map_fst_zip (by omega)
  have finish : (∀ o ∈ (offsets found).head?, o = fixedLen shapes) →
      bytes.take (fixedLen shapes) ++ covered bytes found = bytes →
      resolve bytes found = vs → vs.length = shapes.length ∧
        (∀ f ∈ shapes.zip vs, Field.Fits f) ∧ encodeFields (shapes.zip vs) = bytes := by
    intro ho hcov hvs
    obtain ⟨h1, h2, h3⟩ := header_resolve (fixedLen shapes) hreg ho
    rw [← hvs]
    refine ⟨hcount, h2, ?_⟩
    rw [encodeFields, hfst, h1, h3, hcov]
  cases hoff : offsets found with
  | nil =>
    rw [hoff] at h
    dsimp only at h
    split at h
    · rename_i hb
      refine finish (by simp [hoff]) ?_ (by simpa using h)
      rw [covered, hoff, ← hb]; simp
    · cases h
  | cons o os =>
    rw [hoff] at h
    dsimp only at h
    split at h
    · rename_i ho
      refine finish (by simp [hoff, ho]) ?_ (by simpa using h)
      rw [covered, hoff, ho]; exact List.take_append_drop _ _
    · cases h

end Decode

/-! ## Vectors of fixed-width items -/

def encodeVec {n : Nat} (l : List (Blob n)) : Bytes := (l.map Subtype.val).flatten

/-- `chunks(n)`, each of which must have the full width. -/
def decodeChunks (n : Nat) : Nat → Bytes → Option (List (Blob n))
  | _, [] => some []
  | 0, _ :: _ => none
  | fuel + 1, bs =>
    if h : n ≤ bs.length then
      (decodeChunks n fuel (bs.drop n)).map (⟨bs.take n, by simp [h]⟩ :: ·)
    else none

def decodeVec (n : Nat) (bs : Bytes) : Option (List (Blob n)) := decodeChunks n bs.length bs

theorem length_encodeVec {n : Nat} (l : List (Blob n)) : (encodeVec l).length = l.length * n := by
  induction l with
  | nil => simp [encodeVec]
  | cons b l ih =>
    simp only [encodeVec, List.map_cons, List.flatten_cons, List.length_append, b.2,
      List.length_cons] at ih ⊢
    rw [ih, Nat.succ_mul, Nat.add_comm]

theorem decodeChunks_encodeVec {n : Nat} (hn : 0 < n) : ∀ (l : List (Blob n)) (fuel : Nat),
    l.length ≤ fuel → decodeChunks n fuel (encodeVec l) = some l
  | [], fuel, _ => by cases fuel <;> rfl
  | b :: l, 0, h => by simp at h
  | b :: l, fuel + 1, h => by
    have hne : encodeVec (b :: l) = b.1 ++ encodeVec l := by simp [encodeVec]
    have ih := decodeChunks_encodeVec hn l fuel (by simpa using h)
    rw [hne]
    cases hb : b.1 ++ encodeVec l with
    | nil =>
      have := congrArg List.length hb
      rw [List.length_append, b.2, List.length_nil] at this
      omega
    | cons x xs =>
      rw [← hb, decodeChunks.eq_3 _ _ _ (by rw [hb]; simp)]
      rw [dif_pos (by rw [List.length_append, b.2]; omega)]
      simp only [List.drop_left' b.2, ih, Option.map_some, List.take_left' b.2]

theorem decodeVec_encodeVec {n : Nat} (hn : 0 < n) (l : List (Blob n)) :
    decodeVec n (encodeVec l) = some l := by
  refine decodeChunks_encodeVec hn l _ ?_
  rw [length_encodeVec]
  exact Nat.le_mul_of_pos_right _ hn

theorem encodeVec_decodeChunks {n : Nat} : ∀ (fuel : Nat) (bs : Bytes) (l : List (Blob n)),
    decodeChunks n fuel bs = some l → encodeVec l = bs
  | fuel, [], l, h => by
    cases fuel <;> (cases h; rfl)
  | 0, b :: bs, l, h => by cases h
  | fuel + 1, b :: bs, l, h => by
    unfold decodeChunks at h
    split at h
    · rename_i hn
      obtain ⟨l', hl, rfl⟩ := Option.map_eq_some_iff.mp h
      have ih := encodeVec_decodeChunks fuel _ l' hl
      simp only [encodeVec, List.map_cons, List.flatten_cons] at ih ⊢
      rw [ih, List.take_append_drop]
    · cases h

theorem encodeVec_decodeVec {n : Nat} {bs : Bytes} {l : List (Blob n)}
    (h : decodeVec n bs = some l) : encodeVec l = bs :=
  encodeVec_decodeChunks _ _ _ h

theorem encodeVec_inj {n : Nat} (hn : 0 < n) {l l' : List (Blob n)}
    (h : encodeVec l = encodeVec l') : l = l' := by
  have := decodeVec_encodeVec hn l
  rw [h, decodeVec_encodeVec hn l'] at this
  exact (Option.some.inj this).symm

/-! ## Bit lists -/

/-- `BitList<N>`: a bit for each position, at most `max` of them. -/
structure BitList (max : Nat) where
  bits : List Bool
  bound : bits.length ≤ max
  deriving DecidableEq, Repr

/-- Bits as a number, bit `i` with weight `2^i`. In a byte string read as a
little-endian number this is bit `i % 8` of byte `i / 8`. -/
def ofBits : List Bool → Nat
  | [] => 0
  | b :: bs => b.toNat + 2 * ofBits bs

def toBits (n len : Nat) : List Bool := (List.range len).map n.testBit

/-- The bits, then a set bit that marks the end. -/
def encodeBits {max : Nat} (b : BitList max) : Bytes :=
  leBytes (b.bits.length / 8 + 1) (ofBits (b.bits ++ [true]))

/-- The highest set bit marks the end; it has to be in the last byte. -/
def decodeBits (max : Nat) (bytes : Bytes) : Option (BitList max) :=
  let n := ofLe bytes
  if n = 0 then none
  else if n.log2 / 8 + 1 ≠ bytes.length then none
  else if h : n.log2 ≤ max then some ⟨toBits n n.log2, by simpa [toBits] using h⟩
  else none

theorem ofBits_lt : ∀ bs : List Bool, ofBits bs < 2 ^ bs.length
  | [] => by simp [ofBits]
  | b :: bs => by
    have := ofBits_lt bs
    have hb : b.toNat ≤ 1 := b.toNat_le
    simp only [ofBits, List.length_cons, Nat.pow_succ]
    omega

theorem testBit_ofBits : ∀ (bs : List Bool) (i : Nat), (ofBits bs).testBit i = bs.getD i false
  | [], i => by simp [ofBits]
  | b :: bs, 0 => by
    cases b <;> simp [ofBits, Nat.testBit_zero]
  | b :: bs, i + 1 => by
    rw [Nat.testBit_add_one, ofBits, show (b.toNat + 2 * ofBits bs) / 2 = ofBits bs by
      have := b.toNat_le; omega, testBit_ofBits bs i]
    simp

theorem ofBits_append_true (bs : List Bool) : ofBits (bs ++ [true]) = ofBits bs + 2 ^ bs.length := by
  induction bs with
  | nil => rfl
  | cons b bs ih =>
    simp only [List.cons_append, ofBits, ih, List.length_cons, Nat.pow_succ]
    omega

theorem log2_ofBits_append_true (bs : List Bool) : (ofBits (bs ++ [true])).log2 = bs.length := by
  have h := ofBits_lt bs
  rw [ofBits_append_true, Nat.log2_eq_iff (by have := Nat.two_pow_pos bs.length; omega)]
  rw [Nat.pow_succ]
  omega

theorem decodeBits_encodeBits {max : Nat} (b : BitList max) :
    decodeBits max (encodeBits b) = some b := by
  have hlt := ofBits_lt (b.bits ++ [true])
  have hpow : 2 ^ (b.bits ++ [true]).length ≤ 256 ^ (b.bits.length / 8 + 1) := by
    rw [show (256 : Nat) = 2 ^ 8 from rfl, ← Nat.pow_mul]
    refine Nat.pow_le_pow_right (by decide) ?_
    rw [List.length_append, List.length_singleton]
    omega
  have hn : ofLe (encodeBits b) = ofBits (b.bits ++ [true]) :=
    ofLe_leBytes _ _ (lt_of_lt_of_le hlt hpow)
  have hpos : ofBits (b.bits ++ [true]) ≠ 0 := by
    rw [ofBits_append_true]; have := Nat.two_pow_pos b.bits.length; omega
  have hlen : (encodeBits b).length = b.bits.length / 8 + 1 := length_leBytes _ _
  unfold decodeBits
  simp only [hn, log2_ofBits_append_true, hpos, if_false, hlen, ne_eq, not_true_eq_false,
    b.bound, dif_pos]
  congr 1
  obtain ⟨bits, hb⟩ := b
  congr 1
  refine List.ext_getElem (by simp [toBits]) fun i h1 h2 => ?_
  simp only [toBits, List.getElem_map, List.getElem_range, testBit_ofBits]
  simp [List.getElem?_append_left h2, List.getElem?_eq_getElem h2]

theorem ofBits_toBits {n : Nat} (hn : n ≠ 0) : ofBits (toBits n n.log2 ++ [true]) = n := by
  have hlen : (toBits n n.log2).length = n.log2 := by simp [toBits]
  refine Nat.eq_of_testBit_eq fun i => ?_
  rw [testBit_ofBits]
  rcases Nat.lt_trichotomy i n.log2 with hi | hi | hi
  · rw [List.getD_eq_getElem?_getD, List.getElem?_append_left (by omega)]
    simp [toBits, hi]
  · rw [List.getD_eq_getElem?_getD, List.getElem?_append_right (by omega), hlen, hi,
      Nat.sub_self]
    simp [Nat.testBit_log2 hn]
  · have : n < 2 ^ i := lt_of_lt_of_le Nat.lt_log2_self (Nat.pow_le_pow_right (by decide) hi)
    rw [List.getD_eq_getElem?_getD, List.getElem?_eq_none (by simp [hlen]; omega),
      Nat.testBit_lt_two_pow this]
    rfl

theorem encodeBits_decodeBits {max : Nat} {bytes : Bytes} {b : BitList max}
    (h : decodeBits max bytes = some b) : encodeBits b = bytes := by
  unfold decodeBits at h
  dsimp only at h
  split at h
  · cases h
  rename_i hn
  split at h
  · cases h
  rename_i hlen
  split at h
  · cases h
    rw [not_not] at hlen
    have hl : (toBits (ofLe bytes) (ofLe bytes).log2).length = (ofLe bytes).log2 := by simp [toBits]
    simp only [encodeBits, ofBits_toBits hn, hl, hlen]
    exact leBytes_ofLe bytes
  · cases h

theorem length_encodeBits {max : Nat} (b : BitList max) :
    (encodeBits b).length = b.bits.length / 8 + 1 := length_leBytes _ _

end Drot.Ssz
