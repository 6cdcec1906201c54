import Drot.Core.Williams
import Mathlib.Data.List.GetD

/-!
# The order of benchmark targets (`benchmark.sh`)

An interleaved sweep runs every target once a step, in the order of
`balanced_row`. The rows of one design are the `n` rotations of the zig-zag,
followed for odd `n` by their reversals.

* `balancedRow_of_lt`, `balancedRow_reverse`: a row is a rotation or the reversal
  of one.
* `balanced_crossover`: over a complete design each target is at each position,
  and immediately before each other target, equally often.
-/
namespace Drot.L6.Bench
open Williams Finset

/-- mirrors src/benchmark.sh:1247-1250 -/
def balancedDesignRows (targetList : List String) : ℕ :=
  let n := targetList.length
  if n % 2 = 1 then 2 * n else n

/-- An index that is not in the array expands to the empty string.
mirrors src/benchmark.sh:1251-1274 -/
def balancedRow (targetList : List String) (row : ℕ) : List String :=
  let n := targetList.length
  let row := row % balancedDesignRows targetList
  let reverse := n % 2 = 1 ∧ row ≥ n
  let row := row % n
  (List.range n).map fun pos =>
    let sequencePos := if reverse then n - 1 - pos else pos
    let base :=
      if sequencePos = 0 then 0
      else if sequencePos % 2 = 1 then (sequencePos + 1) / 2
      else n - sequencePos / 2
    let index := (base + row) % n
    targetList.getD index ""

variable {targetList : List String}

/-! ## Rows are rotations -/

theorem balancedDesignRows_pos (hn : 0 < targetList.length) : 0 < balancedDesignRows targetList := by
  unfold balancedDesignRows
  dsimp only
  split <;> omega

/-- The three branches of `base` are the zig-zag. -/
theorem balancedRow_eq (row : ℕ) : balancedRow targetList row =
    (List.range targetList.length).map fun pos => targetList.getD
      ((zigzag targetList.length
          (if targetList.length % 2 = 1 ∧
              row % balancedDesignRows targetList ≥ targetList.length
            then targetList.length - 1 - pos else pos) +
        row % balancedDesignRows targetList % targetList.length) % targetList.length) "" := rfl

/-- The design repeats as a whole. -/
theorem balancedRow_mod (row : ℕ) :
    balancedRow targetList (row % balancedDesignRows targetList) = balancedRow targetList row := by
  unfold balancedRow
  rw [Nat.mod_mod]

/-- The first `n` rows are the rotations. -/
theorem balancedRow_of_lt {row : ℕ} (hr : row < targetList.length) :
    balancedRow targetList row =
      (Williams.rotation targetList.length row).map fun i => targetList.getD i "" := by
  have hd : row % balancedDesignRows targetList = row := by
    refine Nat.mod_eq_of_lt ?_
    unfold balancedDesignRows
    dsimp only
    split <;> omega
  unfold Williams.rotation
  rw [balancedRow_eq, hd, List.map_map]
  refine List.map_congr_left fun pos _ => ?_
  rw [if_neg (by omega), Nat.mod_eq_of_lt hr]
  rfl

/-- The next `n` rows of an odd design are the same, read backwards. -/
theorem balancedRow_reverse {row : ℕ} (hn : targetList.length % 2 = 1)
    (hr : row < targetList.length) :
    balancedRow targetList (targetList.length + row) = (balancedRow targetList row).reverse := by
  have hd : (targetList.length + row) % balancedDesignRows targetList = targetList.length + row := by
    refine Nat.mod_eq_of_lt ?_
    unfold balancedDesignRows
    dsimp only
    rw [if_pos hn]
    omega
  rw [balancedRow_of_lt hr, balancedRow_eq, hd, Nat.add_mod_left, Nat.mod_eq_of_lt hr]
  refine List.ext_getElem? fun pos => ?_
  by_cases hp : pos < targetList.length
  · rw [List.getElem?_reverse (by rw [List.length_map, length_rotation]; exact hp), List.length_map,
      length_rotation, List.getElem?_map, List.getElem?_map, List.getElem?_range hp,
      getElem?_rotation (by omega), Option.map_some, Option.map_some, if_pos ⟨hn, by omega⟩]
  · rw [List.getElem?_eq_none (by rw [List.length_map, List.length_range]; omega),
      List.getElem?_eq_none (by rw [List.length_reverse, List.length_map, length_rotation]; omega)]

/-! ## Balance -/

/-- Different indices below `n` hold different targets. -/
theorem getD_eq_iff (hd : targetList.Nodup) {i j : ℕ} (hi : i < targetList.length)
    (hj : j < targetList.length) : targetList.getD i "" = targetList.getD j "" ↔ i = j := by
  rw [List.getD_eq_getElem _ _ hi, List.getD_eq_getElem _ _ hj]
  exact hd.getElem_inj_iff

theorem balancedRow_perm_of_lt {row : ℕ} (hr : row < targetList.length) :
    (balancedRow targetList row).Perm targetList := by
  rw [balancedRow_of_lt hr]
  refine ((rotation_perm hr).map _).trans (List.Perm.of_eq ?_)
  refine List.ext_getElem? fun i => ?_
  rw [List.getElem?_map]
  by_cases hi : i < targetList.length
  · rw [List.getElem?_range hi, Option.map_some, List.getD_eq_getElem _ _ hi,
      List.getElem?_eq_getElem hi]
  · rw [List.getElem?_eq_none (by rw [List.length_range]; omega),
      List.getElem?_eq_none (by omega)]
    rfl

/-- A row of a design is a rotation, or the reversal of one where `n` is odd. -/
theorem row_cases (hn : 0 < targetList.length) (row : ℕ) :
    ∃ r < targetList.length, balancedRow targetList row = balancedRow targetList r ∨
      balancedRow targetList row = (balancedRow targetList r).reverse := by
  have hlt := Nat.mod_lt row (balancedDesignRows_pos hn)
  rw [← balancedRow_mod row]
  by_cases h : row % balancedDesignRows targetList < targetList.length
  · exact ⟨_, h, .inl rfl⟩
  · have hodd : targetList.length % 2 = 1 ∧
        row % balancedDesignRows targetList < 2 * targetList.length := by
      unfold balancedDesignRows at hlt h ⊢
      dsimp only at hlt h ⊢
      split at hlt
      · rename_i hodd
        rw [if_pos hodd]
        exact ⟨hodd, hlt⟩
      · rename_i heven
        rw [if_neg heven] at h
        exact absurd hlt h
    refine ⟨row % balancedDesignRows targetList - targetList.length, by omega, .inr ?_⟩
    rw [← balancedRow_reverse hodd.1 (by omega)]
    congr 1
    omega

theorem balancedRow_perm (hn : 0 < targetList.length) (row : ℕ) :
    (balancedRow targetList row).Perm targetList := by
  obtain ⟨r, hr, h | h⟩ := row_cases hn row
  · rw [h]
    exact balancedRow_perm_of_lt hr
  · rw [h]
    exact (List.reverse_perm _).trans (balancedRow_perm_of_lt hr)

/-- A count over the rows of one design: the rotations, and for odd `n` their
reversals. -/
theorem sum_design (f : List String → ℕ) (design : ℕ) :
    ∑ i ∈ range (balancedDesignRows targetList),
        f (balancedRow targetList (design * balancedDesignRows targetList + i)) =
      ∑ r ∈ range targetList.length, f (balancedRow targetList r) +
        if targetList.length % 2 = 1 then
          ∑ r ∈ range targetList.length, f (balancedRow targetList r).reverse
        else 0 := by
  have hshift : ∀ i, balancedRow targetList (design * balancedDesignRows targetList + i) =
      balancedRow targetList i := by
    intro i
    rw [← balancedRow_mod, Nat.mul_add_mod_self_right, balancedRow_mod]
  rw [sum_congr rfl fun i _ => congrArg f (hshift i)]
  split
  · rename_i hodd
    have hrows : balancedDesignRows targetList = targetList.length + targetList.length := by
      unfold balancedDesignRows
      dsimp only
      rw [if_pos hodd]
      omega
    rw [hrows, sum_range_add]
    congr 1
    refine sum_congr rfl fun r hr => ?_
    rw [balancedRow_reverse hodd (mem_range.mp hr)]
  · rename_i heven
    have hrows : balancedDesignRows targetList = targetList.length := if_neg heven
    rw [hrows, Nat.add_zero]

theorem design_div (hn : 0 < targetList.length) :
    balancedDesignRows targetList / targetList.length =
      if targetList.length % 2 = 1 then 2 else 1 := by
  unfold balancedDesignRows
  dsimp only
  split
  · exact Nat.mul_div_cancel _ hn
  · exact Nat.div_self hn

/-- Over the rotations each target is once at each position. -/
theorem sum_rotations_at (hd : targetList.Nodup) {pos : ℕ} (hp : pos < targetList.length)
    {target : String} (ht : target ∈ targetList) :
    ∑ r ∈ range targetList.length,
      (if (balancedRow targetList r)[pos]? = some target then 1 else 0) = 1 := by
  obtain ⟨i, hi, rfl⟩ := List.mem_iff_getElem.mp ht
  have h := card_rotation_at hp hi
  rw [card_filter] at h
  refine Eq.trans (sum_congr rfl fun r hr => if_congr ?_ rfl rfl) h
  have hr := mem_range.mp hr
  rw [balancedRow_of_lt hr, List.getElem?_map, getElem?_rotation hp, Option.map_some,
    Option.some.injEq, Option.some.injEq, ← List.getD_eq_getElem _ "" hi]
  exact getD_eq_iff hd (Nat.mod_lt _ (by omega)) hi

theorem timesBefore_row (hd : targetList.Nodup) {i j r : ℕ} (hi : i < targetList.length)
    (hj : j < targetList.length) (hr : r < targetList.length) :
    timesBefore targetList[i] targetList[j] (balancedRow targetList r) =
      timesBefore i j (Williams.rotation targetList.length r) := by
  rw [balancedRow_of_lt hr, ← List.getD_eq_getElem _ "" hi, ← List.getD_eq_getElem _ "" hj]
  refine timesBefore_map (f := fun i => targetList.getD i "") ?_ ?_
  · intro x hx
    exact getD_eq_iff hd (mem_rotation hx) hi
  · intro x hx
    exact getD_eq_iff hd (mem_rotation hx) hj

/-- The order is a balanced crossover, for any number of distinct targets: over the
`D` rows of a complete design every target is `D / n` times at every position and
`D / n` times immediately before every other target. -/
theorem balanced_crossover (targetList : List String) (hd : targetList.Nodup)
    (hn : 2 ≤ targetList.length) :
    (∀ row, (balancedRow targetList row).Perm targetList) ∧
    (∀ design, ∀ pos < targetList.length, ∀ target ∈ targetList,
      ((range (balancedDesignRows targetList)).filter fun i =>
        (balancedRow targetList (design * balancedDesignRows targetList + i))[pos]? =
          some target).card = balancedDesignRows targetList / targetList.length) ∧
    (∀ design, ∀ a ∈ targetList, ∀ b ∈ targetList, a ≠ b →
      ∑ i ∈ range (balancedDesignRows targetList),
        timesBefore a b (balancedRow targetList (design * balancedDesignRows targetList + i)) =
          balancedDesignRows targetList / targetList.length) ∧
    ∀ row, balancedRow targetList (row + balancedDesignRows targetList) =
      balancedRow targetList row := by
  have hpos : 0 < targetList.length := by omega
  refine ⟨balancedRow_perm hpos, ?_, ?_, ?_⟩
  · intro design pos hp target ht
    have hback : ∀ r ∈ range targetList.length,
        (if (balancedRow targetList r).reverse[pos]? = some target then 1 else 0) =
          if (balancedRow targetList r)[targetList.length - 1 - pos]? = some target then 1 else 0 := by
      intro r hr
      have hlen := (balancedRow_perm_of_lt (mem_range.mp hr)).length_eq
      rw [List.getElem?_reverse (by omega), hlen]
    rw [card_filter, sum_design (fun row => if row[pos]? = some target then 1 else 0), design_div hpos,
      sum_rotations_at hd hp ht, sum_congr rfl hback,
      sum_rotations_at hd (show targetList.length - 1 - pos < _ by omega) ht]
    split <;> rfl
  · intro design a ha b hb hab
    obtain ⟨i, hi, rfl⟩ := List.mem_iff_getElem.mp ha
    obtain ⟨j, hj, rfl⟩ := List.mem_iff_getElem.mp hb
    have hij : i ≠ j := by
      rintro rfl
      exact hab rfl
    have hrow : ∀ r ∈ range targetList.length,
        timesBefore targetList[i] targetList[j] (balancedRow targetList r) =
          timesBefore i j (Williams.rotation targetList.length r) :=
      fun r hr => timesBefore_row hd hi hj (mem_range.mp hr)
    have hback : ∀ r ∈ range targetList.length,
        timesBefore targetList[i] targetList[j] (balancedRow targetList r).reverse =
          timesBefore j i (Williams.rotation targetList.length r) := by
      intro r hr
      rw [timesBefore_reverse, timesBefore_row hd hj hi (mem_range.mp hr)]
    rw [sum_design (timesBefore targetList[i] targetList[j]), design_div hpos, sum_congr rfl hrow,
      sum_congr rfl hback]
    split
    · rename_i hodd
      exact sum_timesBefore_odd hodd hi hj hij
    · rename_i heven
      rw [Nat.add_zero]
      exact sum_timesBefore_even (by omega) hi hj hij
  · intro row
    rw [← balancedRow_mod, Nat.add_mod_right, balancedRow_mod]

/-- Three targets: six rows, each pair of neighbours twice. -/
theorem balanced_crossover_three :
    timesBefore "signer" "prover" (balancedRow ["prover", "verifier", "signer"] 0) = 0 ∧
    ∑ i ∈ range 6, timesBefore "signer" "prover"
      (balancedRow ["prover", "verifier", "signer"] (0 * 6 + i)) = 2 := by
  have h := balanced_crossover ["prover", "verifier", "signer"] (by decide) (by decide)
  exact ⟨by decide, h.2.2.1 0 "signer" (by decide) "prover" (by decide) (by decide)⟩

end Drot.L6.Bench
