import Mathlib.Algebra.BigOperators.Group.Finset.Basic
import Mathlib.Algebra.BigOperators.Intervals
import Mathlib.Data.List.Perm.Subperm
import Mathlib.Tactic

/-!
# Williams orders

The zig-zag `0, 1, n - 1, 2, n - 2, ..` over the residues modulo `n` and its `n`
rotations. Neighbours of the zig-zag differ by `p + 1` after an even position `p`
and by `n - (p + 1)` after an odd one, so for even `n` every non-zero difference
occurs once, and for odd `n` the odd ones occur twice.

* `rotation_perm`: a rotation orders all residues.
* `card_rotation_at`: over the rotations each residue is once at each position.
* `sum_timesBefore_even`, `sum_timesBefore_odd`: how often one residue is
  immediately before another.
-/
namespace Drot.Williams
open Finset

/-! ## Differences modulo `n` -/

/-- `b - a` modulo `n`, for residues. -/
def diff (n a b : ℕ) : ℕ := if a ≤ b then b - a else b + n - a

theorem diff_lt {n a b : ℕ} (hb : b < n) (ha : a < n) : diff n a b < n := by
  unfold diff
  split <;> omega

/-- The sum of two residues wraps at most once. -/
theorem add_mod_eq_iff {n z r a : ℕ} (hz : z < n) (hr : r < n) (ha : a < n) :
    (z + r) % n = a ↔ r = diff n z a := by
  unfold diff
  by_cases h : z + r < n
  · rw [Nat.mod_eq_of_lt h]
    split <;> omega
  · rw [Nat.mod_eq_sub_mod (by omega), Nat.mod_eq_of_lt (by omega)]
    split <;> omega

theorem add_diff {n a b : ℕ} (ha : a < n) :
    a + diff n a b = b ∨ a + diff n a b = b + n := by
  unfold diff
  split <;> omega

/-- Two pairs differ by the same when their first and their second residues do. -/
theorem diff_eq_diff_iff {n x y a b : ℕ} (hx : x < n) (hy : y < n) (ha : a < n) (hb : b < n) :
    diff n x a = diff n y b ↔ diff n x y = diff n a b := by
  have hxa := add_diff hx (b := a)
  have hyb := add_diff hy (b := b)
  have hxy := add_diff hx (b := y)
  have hab := add_diff ha (b := b)
  have := diff_lt ha hx
  have := diff_lt hb hy
  have := diff_lt hy hx
  have := diff_lt hb ha
  omega

/-! ## The zig-zag -/

/-- Position `p` of `0, 1, n - 1, 2, n - 2, ..`. -/
def zigzag (n p : ℕ) : ℕ :=
  if p = 0 then 0 else if p % 2 = 1 then (p + 1) / 2 else n - p / 2

theorem zigzag_lt {n p : ℕ} (hp : p < n) : zigzag n p < n := by
  unfold zigzag
  split
  · omega
  split <;> omega

theorem zigzag_inj {n p q : ℕ} (hp : p < n) (hq : q < n) (h : zigzag n p = zigzag n q) :
    p = q := by
  unfold zigzag at h
  split_ifs at h <;> omega

theorem diff_zigzag_succ {n p : ℕ} (hp : p + 1 < n) :
    diff n (zigzag n p) (zigzag n (p + 1)) = if p % 2 = 0 then p + 1 else n - (p + 1) := by
  rcases Nat.mod_two_eq_zero_or_one p with h | h
  · have h1 : zigzag n (p + 1) = p / 2 + 1 := by
      unfold zigzag
      rw [if_neg (by omega), if_pos (by omega)]
      omega
    rw [h1, if_pos h]
    unfold zigzag diff
    split_ifs <;> omega
  · have h0 : zigzag n p = (p + 1) / 2 := by
      unfold zigzag
      rw [if_neg (by omega), if_pos h]
    have h1 : zigzag n (p + 1) = n - (p + 1) / 2 := by
      unfold zigzag
      rw [if_neg (by omega), if_neg (by omega)]
    rw [h0, h1, if_neg (by omega)]
    unfold diff
    split <;> omega

/-- Where neighbours of the zig-zag differ by the same as `a` and `b`. -/
theorem diff_zigzag {n p a b : ℕ} (hp : p + 1 < n) (ha : a < n) (hb : b < n) :
    diff n (zigzag n p) a = diff n (zigzag n (p + 1)) b ↔
      (p % 2 = 0 ∧ diff n a b = p + 1) ∨ (p % 2 = 1 ∧ diff n a b = n - (p + 1)) := by
  rw [diff_eq_diff_iff (zigzag_lt (by omega)) (zigzag_lt hp) ha hb, diff_zigzag_succ hp]
  split <;> omega

/-! ## Rotations -/

/-- The zig-zag moved by `r`. -/
def rotation (n r : ℕ) : List ℕ := (List.range n).map fun p => (zigzag n p + r) % n

@[simp] theorem length_rotation (n r : ℕ) : (rotation n r).length = n := by
  unfold rotation
  rw [List.length_map, List.length_range]

theorem getElem?_rotation {n r p : ℕ} (hp : p < n) :
    (rotation n r)[p]? = some ((zigzag n p + r) % n) := by
  unfold rotation
  rw [List.getElem?_map, List.getElem?_range hp]
  rfl

theorem mem_rotation {n r i : ℕ} (h : i ∈ rotation n r) : i < n := by
  obtain ⟨p, hp, rfl⟩ := List.mem_map.mp h
  have := List.mem_range.mp hp
  exact Nat.mod_lt _ (by omega)

theorem rotation_nodup {n r : ℕ} (hr : r < n) : (rotation n r).Nodup := by
  refine List.Nodup.map_on ?_ List.nodup_range
  intro p hp q hq h
  have hp := List.mem_range.mp hp
  have hq := List.mem_range.mp hq
  have hzp := zigzag_lt hp
  have hzq := zigzag_lt hq
  have hd := (add_mod_eq_iff hzp hr (Nat.mod_lt _ (by omega))).mp h
  have hd' := (add_mod_eq_iff hzq hr (Nat.mod_lt _ (by omega))).mp rfl
  refine zigzag_inj hp hq ?_
  have hlt : (zigzag n q + r) % n < n := Nat.mod_lt _ (by omega)
  have hp' := add_diff hzp (b := (zigzag n q + r) % n)
  have hq' := add_diff hzq (b := (zigzag n q + r) % n)
  omega

theorem rotation_perm {n r : ℕ} (hr : r < n) : (rotation n r).Perm (List.range n) := by
  have hsub : rotation n r ⊆ List.range n := by
    intro i hi
    exact List.mem_range.mpr (mem_rotation hi)
  refine ((rotation_nodup hr).subperm hsub).perm_of_length_le ?_
  rw [length_rotation, List.length_range]

/-- Over the rotations, each residue is once at each position. -/
theorem card_rotation_at {n p a : ℕ} (hp : p < n) (ha : a < n) :
    ((range n).filter fun r => (rotation n r)[p]? = some a).card = 1 := by
  have h : (range n).filter (fun r => (rotation n r)[p]? = some a) = {diff n (zigzag n p) a} := by
    ext r
    rw [mem_filter, mem_range, mem_singleton, getElem?_rotation hp, Option.some.injEq]
    constructor
    · intro ⟨hr, h⟩
      exact (add_mod_eq_iff (zigzag_lt hp) hr ha).mp h
    · rintro rfl
      have hr := diff_lt ha (zigzag_lt hp)
      exact ⟨hr, (add_mod_eq_iff (zigzag_lt hp) hr ha).mpr rfl⟩
  rw [h, card_singleton]

/-! ## Neighbours -/

section
variable {α β : Type} [DecidableEq α] [DecidableEq β]

/-- How often `a` is immediately before `b`. -/
def timesBefore (a b : α) : List α → ℕ
  | x :: y :: rest => (if x = a ∧ y = b then 1 else 0) + timesBefore a b (y :: rest)
  | _ => 0

theorem timesBefore_eq_sum (a b : α) : ∀ l : List α, timesBefore a b l =
    ∑ p ∈ range (l.length - 1), if l[p]? = some a ∧ l[p + 1]? = some b then 1 else 0
  | [] => rfl
  | [_] => rfl
  | x :: y :: rest => by
    have hlen : (x :: y :: rest).length - 1 = (y :: rest).length - 1 + 1 := by simp
    rw [timesBefore, timesBefore_eq_sum a b (y :: rest), hlen, sum_range_succ']
    simp only [List.getElem?_cons_succ, List.getElem?_cons_zero, Option.some.injEq]
    rw [Nat.add_comm]

/-- Reading backwards swaps before and after. -/
theorem timesBefore_reverse (a b : α) (l : List α) :
    timesBefore a b l.reverse = timesBefore b a l := by
  rw [timesBefore_eq_sum, timesBefore_eq_sum, List.length_reverse,
    ← sum_range_reflect _ (l.length - 1)]
  refine sum_congr rfl fun p hp => ?_
  have hp := mem_range.mp hp
  have h0 : l.length - 1 - (l.length - 1 - 1 - p) = p + 1 := by omega
  have h1 : l.length - 1 - (l.length - 1 - 1 - p + 1) = p := by omega
  rw [List.getElem?_reverse (by omega), List.getElem?_reverse (by omega), h0, h1]
  refine if_congr ?_ rfl rfl
  exact And.comm

theorem timesBefore_map {f : α → β} {a b : α} : ∀ {l : List α},
    (∀ x ∈ l, f x = f a ↔ x = a) → (∀ x ∈ l, f x = f b ↔ x = b) →
      timesBefore (f a) (f b) (l.map f) = timesBefore a b l
  | [], _, _ => rfl
  | [_], _, _ => rfl
  | x :: y :: rest, ha, hb => by
    have ih := timesBefore_map (l := y :: rest) (fun z hz => ha z (List.mem_cons_of_mem _ hz))
      (fun z hz => hb z (List.mem_cons_of_mem _ hz))
    have hx := ha x List.mem_cons_self
    have hy := hb y (List.mem_cons_of_mem _ List.mem_cons_self)
    rw [List.map_cons, List.map_cons, timesBefore, timesBefore, ← List.map_cons, ih]
    simp only [hx, hy]

end

/-- One rotation for each place of the zig-zag where neighbours differ as `a` and
`b` do. -/
theorem sum_timesBefore {n a b : ℕ} (ha : a < n) (hb : b < n) :
    ∑ r ∈ range n, timesBefore a b (rotation n r) =
      ((range (n - 1)).filter fun p =>
        (p % 2 = 0 ∧ diff n a b = p + 1) ∨ (p % 2 = 1 ∧ diff n a b = n - (p + 1))).card := by
  have hrow : ∀ r, timesBefore a b (rotation n r) = ∑ p ∈ range (n - 1),
      if (rotation n r)[p]? = some a ∧ (rotation n r)[p + 1]? = some b then 1 else 0 := by
    intro r
    rw [timesBefore_eq_sum, length_rotation]
  rw [sum_congr rfl fun r _ => hrow r, sum_comm, card_filter]
  refine sum_congr rfl fun p hp => ?_
  have hp : p + 1 < n := by
    have := mem_range.mp hp
    omega
  -- the rotation that puts `a` at `p` is the one that puts `b` after it, or none is
  have hiff : ∀ r ∈ range n, ((rotation n r)[p]? = some a ∧ (rotation n r)[p + 1]? = some b) ↔
      r = diff n (zigzag n p) a ∧ diff n (zigzag n p) a = diff n (zigzag n (p + 1)) b := by
    intro r hr
    have hr := mem_range.mp hr
    rw [getElem?_rotation (by omega), getElem?_rotation hp, Option.some.injEq, Option.some.injEq,
      add_mod_eq_iff (zigzag_lt (by omega)) hr ha, add_mod_eq_iff (zigzag_lt hp) hr hb]
    constructor
    · intro ⟨h, h'⟩
      exact ⟨h, h ▸ h'⟩
    · intro ⟨h, h'⟩
      exact ⟨h, h ▸ h'⟩
  rw [sum_congr rfl fun r hr => if_congr (hiff r hr) rfl rfl]
  have hd := diff_lt ha (zigzag_lt (show p < n by omega))
  by_cases h : diff n (zigzag n p) a = diff n (zigzag n (p + 1)) b
  · rw [if_pos ((diff_zigzag hp ha hb).mp h)]
    simp only [h, and_true]
    rw [sum_ite_eq' (range n)]
    exact if_pos (mem_range.mpr (h ▸ hd))
  · rw [if_neg fun h' => h ((diff_zigzag hp ha hb).mpr h')]
    simp only [h, and_false, if_false]
    exact sum_const_zero

/-- For even `n` each ordered pair is adjacent once. -/
theorem sum_timesBefore_even {n a b : ℕ} (hn : n % 2 = 0) (ha : a < n) (hb : b < n)
    (hab : a ≠ b) : ∑ r ∈ range n, timesBefore a b (rotation n r) = 1 := by
  have hd := diff_lt hb ha
  have hpos : 0 < diff n a b := by
    unfold diff
    split <;> omega
  rw [sum_timesBefore ha hb, card_eq_one]
  rcases Nat.mod_two_eq_zero_or_one (diff n a b) with h | h
  · refine ⟨n - diff n a b - 1, ?_⟩
    ext p
    rw [mem_filter, mem_range, mem_singleton]
    omega
  · refine ⟨diff n a b - 1, ?_⟩
    ext p
    rw [mem_filter, mem_range, mem_singleton]
    omega

/-- For odd `n` each ordered pair is adjacent twice, forwards or backwards. -/
theorem sum_timesBefore_odd {n a b : ℕ} (hn : n % 2 = 1) (ha : a < n) (hb : b < n)
    (hab : a ≠ b) : ∑ r ∈ range n, timesBefore a b (rotation n r) +
      ∑ r ∈ range n, timesBefore b a (rotation n r) = 2 := by
  have hd := diff_lt hb ha
  have hpos : 0 < diff n a b := by
    unfold diff
    split <;> omega
  have hback : diff n b a = n - diff n a b := by
    unfold diff
    split <;> split <;> omega
  -- two places for an odd difference, none for an even one
  have hodd : ∀ d, 0 < d → d < n → ((range (n - 1)).filter fun p =>
      (p % 2 = 0 ∧ d = p + 1) ∨ (p % 2 = 1 ∧ d = n - (p + 1))).card = if d % 2 = 1 then 2 else 0 := by
    intro d h0 hlt
    split
    · rename_i h
      rw [card_eq_two]
      refine ⟨d - 1, n - d - 1, by omega, ?_⟩
      ext p
      rw [mem_filter, mem_range, mem_insert, mem_singleton]
      omega
    · rename_i h
      rw [card_eq_zero]
      refine filter_eq_empty_iff.mpr fun p hp => ?_
      have := mem_range.mp hp
      omega
  rw [sum_timesBefore ha hb, sum_timesBefore hb ha, hback, hodd _ hpos hd,
    hodd _ (by omega) (by omega)]
  split <;> split <;> omega

end Drot.Williams
