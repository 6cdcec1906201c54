import Mathlib.Data.List.Perm.Basic
import Mathlib.Tactic

/-!
# Partial Fisher-Yates shuffles

`for position in 0..t { members.swap(position, pick) }`, with the positions
picked by a generator whose state is threaded through the loop. A generator that
panics and a swap outside the vector are both `none`. Generators and elements are
of arbitrary types.

* `shuffle_perm`: with picks from `position..len` the loop does not panic, the
  vector stays a permutation and the positions already passed are final.
* `shuffle_distinct`: the first `t` elements are `t` distinct ones of the input.
-/
namespace Drot.Shuffle
variable {α σ : Type}

/-- `slice::swap`: `none` when an index is out of range. -/
def trySwap (l : List α) (i j : Nat) : Option (List α) :=
  if i < l.length ∧ j < l.length then some (l.swap i j) else none

/-- The loop over `k` positions from `position` on. -/
def shuffle (draw : σ → Nat → Option (Nat × σ)) : Nat → Nat → σ → List α → Option (List α)
  | 0, _, _, l => some l
  | k + 1, position, s, l => do
    let (pick, s) ← draw s position
    let l ← trySwap l position pick
    shuffle draw k (position + 1) s l

/-- Every draw at a position below `n` picks one from there to `n`. -/
def InRange (draw : σ → Nat → Option (Nat × σ)) (n : Nat) : Prop :=
  ∀ s position, position < n → ∃ pick s', draw s position = some (pick, s') ∧
    position ≤ pick ∧ pick < n

theorem trySwap_eq {l : List α} {i j : Nat} (hi : i < l.length) (hj : j < l.length) :
    trySwap l i j = some (l.swap i j) := if_pos ⟨hi, hj⟩

/-- A swap leaves what is before both positions. -/
theorem take_swap {l : List α} {i j : Nat} (hij : i ≤ j) : (l.swap i j).take i = l.take i := by
  by_cases hj : j < l.length
  · rw [List.swap_eq_of_lt (by omega) hj, List.take_set_of_le hij, List.take_set_of_le (le_refl i)]
  · rw [List.swap_eq_of_ge_right (by omega)]

/-- The loop keeps a permutation of the input, and every position it has passed. -/
theorem shuffle_perm {draw : σ → Nat → Option (Nat × σ)} {n : Nat} (hd : InRange draw n) :
    ∀ (k position : Nat) (s : σ) (l : List α), l.length = n → position + k ≤ n →
      ∃ l', shuffle draw k position s l = some l' ∧ l'.Perm l ∧
        l'.take position = l.take position := by
  intro k
  induction k with
  | zero =>
    intro position s l _ _
    exact ⟨l, rfl, List.Perm.refl l, rfl⟩
  | succ k ih =>
    intro position s l hl hk
    obtain ⟨pick, s', hdraw, hle, hlt⟩ := hd s position (by omega)
    have hswap : trySwap l position pick = some (l.swap position pick) :=
      trySwap_eq (by omega) (by omega)
    obtain ⟨l', hl', hp, ht⟩ := ih (position + 1) s' (l.swap position pick)
      (by rw [List.length_swap]; exact hl) (by omega)
    refine ⟨l', ?_, hp.trans (List.swap_perm _ _ _), ?_⟩
    · unfold shuffle
      rw [hdraw]
      simp only [Option.bind_eq_bind, Option.bind_some]
      rw [hswap, Option.bind_some]
      exact hl'
    · have h := congrArg (List.take position) ht
      rw [List.take_take, List.take_take, Nat.min_eq_left (Nat.le_succ position)] at h
      rw [h, take_swap hle]

/-- The first `t` elements of the shuffle of a vector without duplicates. -/
theorem shuffle_distinct {draw : σ → Nat → Option (Nat × σ)} {l : List α} {t : Nat}
    (hd : InRange draw l.length) (ht : t ≤ l.length) (hn : l.Nodup) (s : σ) :
    ∃ l', shuffle draw t 0 s l = some l' ∧ (l'.take t).length = t ∧ (l'.take t).Nodup ∧
      ∀ x ∈ l'.take t, x ∈ l := by
  obtain ⟨l', hl', hp, -⟩ := shuffle_perm hd t 0 s l rfl (by omega)
  refine ⟨l', hl', ?_, ?_, ?_⟩
  · rw [List.length_take, hp.length_eq]
    omega
  · exact (hp.nodup_iff.mpr hn).sublist (List.take_sublist t l')
  · intro x hx
    exact hp.mem_iff.mp (List.mem_of_mem_take hx)

end Drot.Shuffle
