import Mathlib.Algebra.Group.Nat.Defs
import Mathlib.Data.List.Basic

/-!
# Byte strings

Byte strings, fixed-length byte vectors, slices, and little-endian integers of
a fixed width with their two inverse laws (`ofLe_leBytes`, `leBytes_ofLe`).
-/
namespace Drot

abbrev Bytes := List UInt8

/-- `[u8; n]`. -/
abbrev Blob (n : Nat) := { bs : Bytes // bs.length = n }

def Blob.replicate (n : Nat) (b : UInt8) : Blob n := ⟨List.replicate n b, List.length_replicate⟩

namespace Bytes

/-- `bytes[a..b]`. -/
def slice (bs : Bytes) (a b : Nat) : Bytes := (bs.drop a).take (b - a)

/-- `w` bytes of `n`, least significant first (`to_le_bytes`). -/
def leBytes : Nat → Nat → Bytes
  | 0, _ => []
  | w + 1, n => UInt8.ofNat (n % 256) :: leBytes w (n / 256)

/-- `from_le_bytes`. -/
def ofLe : Bytes → Nat
  | [] => 0
  | b :: bs => b.toNat + 256 * ofLe bs

theorem length_slice (bs : Bytes) (a b : Nat) (h : b ≤ bs.length) :
    (slice bs a b).length = b - a := by
  simp [slice]; omega

/-- The slice of a concatenation that lies behind the first part. -/
theorem slice_append_right {x y : Bytes} {a b : Nat} (n : Nat) (hn : x.length = n) (ha : n ≤ a) :
    slice (x ++ y) a b = slice y (a - n) (b - n) := by
  subst hn
  obtain ⟨k, rfl⟩ := Nat.le.dest ha
  simp only [slice]
  rw [List.drop_append, List.drop_of_length_le (by omega), List.nil_append, Nat.add_sub_cancel_left]
  congr 1; omega

/-- The slice of a concatenation that lies inside the first part. -/
theorem slice_append_left {x y : Bytes} {a b : Nat} (h : b ≤ x.length) :
    slice (x ++ y) a b = slice x a b := by
  simp only [slice]
  by_cases hab : a ≤ b
  · rw [List.drop_append_of_le_length (by omega), List.take_append_of_le_length (by simp; omega)]
  · rw [show b - a = 0 by omega]; simp

theorem slice_self {x : Bytes} (n : Nat) (h : x.length = n) : slice x 0 n = x := by
  simp [slice, ← h]

theorem take_append_slice (bs : Bytes) {a b : Nat} (h : a ≤ b) :
    bs.take a ++ slice bs a b = bs.take b := by
  unfold slice
  rw [← List.take_add, Nat.add_sub_cancel' h]

@[simp] theorem length_leBytes : ∀ w n, (leBytes w n).length = w
  | 0, _ => rfl
  | w + 1, n => by simp [leBytes, length_leBytes w]

theorem ofLe_lt : ∀ bs : Bytes, ofLe bs < 256 ^ bs.length
  | [] => by simp [ofLe]
  | b :: bs => by
    have h1 := b.toNat_lt
    have h2 := ofLe_lt bs
    simp only [ofLe, List.length_cons, Nat.pow_succ]
    omega

theorem ofLe_leBytes : ∀ (w n : Nat), n < 256 ^ w → ofLe (leBytes w n) = n
  | 0, n, h => by simp [leBytes, ofLe] at h ⊢; omega
  | w + 1, n, h => by
    have hd : n / 256 < 256 ^ w := by
      rw [Nat.div_lt_iff_lt_mul (by decide), ← Nat.pow_succ]; exact h
    simp only [leBytes, ofLe, ofLe_leBytes w _ hd, UInt8.toNat_ofNat']
    omega

theorem leBytes_ofLe : ∀ bs : Bytes, leBytes bs.length (ofLe bs) = bs
  | [] => rfl
  | b :: bs => by
    have hb := b.toNat_lt
    simp only [List.length_cons, ofLe, leBytes]
    rw [show (b.toNat + 256 * ofLe bs) % 256 = b.toNat by omega,
      show (b.toNat + 256 * ofLe bs) / 256 = ofLe bs by omega, leBytes_ofLe bs]
    simp

theorem leBytes_inj {w m n : Nat} (hm : m < 256 ^ w) (hn : n < 256 ^ w)
    (h : leBytes w m = leBytes w n) : m = n := by
  rw [← ofLe_leBytes w m hm, ← ofLe_leBytes w n hn, h]

end Bytes
end Drot
