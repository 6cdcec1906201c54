import Mathlib.Data.Finset.Card

/-!
# Quorums and certificates

Voters of an arbitrary type vote for values in rounds; up to `f` of them are
faulty. A value is certified when `t` members back it, each of which is faulty
or has voted for it. With `2t > n + f` two quorums share a voter that is not
faulty (`exists_correct`), so correct voters that vote once a round certify one
value a round (`Certified.unique`).
-/
namespace Drot.Quorum
variable {α ρ ν : Type} [DecidableEq α]

/-- Two sets of `t` out of `n` voters share one that is not faulty. -/
theorem exists_correct {members faulty A B : Finset α} {t f : Nat} (hA : A ⊆ members)
    (hB : B ⊆ members) (htA : t ≤ A.card) (htB : t ≤ B.card) (hf : faulty.card ≤ f)
    (ht : members.card + f < 2 * t) : ∃ x ∈ A ∩ B, x ∉ faulty := by
  have hunion : (A ∪ B).card ≤ members.card := Finset.card_le_card (Finset.union_subset hA hB)
  have hsum := Finset.card_union_add_card_inter A B
  have hlt : faulty.card < (A ∩ B).card := by omega
  by_contra h
  push Not at h
  have := Finset.card_le_card h
  omega

/-- `v` has `t` backers in round `r`; the correct ones among them voted for it. -/
def Certified (members faulty : Finset α) (t : Nat) (voted : α → ρ → ν → Prop) (r : ρ) (v : ν) :
    Prop :=
  ∃ A ⊆ members, t ≤ A.card ∧ ∀ x ∈ A, x ∉ faulty → voted x r v

theorem Certified.unique {members faulty : Finset α} {t f : Nat} {voted : α → ρ → ν → Prop}
    (hf : faulty.card ≤ f) (ht : members.card + f < 2 * t)
    (once : ∀ x ∈ members, x ∉ faulty → ∀ r v v', voted x r v → voted x r v' → v = v') {r : ρ}
    {v v' : ν} (h : Certified members faulty t voted r v)
    (h' : Certified members faulty t voted r v') : v = v' := by
  obtain ⟨A, hA, htA, hvA⟩ := h
  obtain ⟨B, hB, htB, hvB⟩ := h'
  obtain ⟨x, hx, hc⟩ := exists_correct hA hB htA htB hf ht
  obtain ⟨hxA, hxB⟩ := Finset.mem_inter.mp hx
  exact once x (hA hxA) hc r v v' (hvA x hxA hc) (hvB x hxB hc)

end Drot.Quorum
