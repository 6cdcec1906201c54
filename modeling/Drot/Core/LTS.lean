import Mathlib.Data.List.Basic
import Mathlib.Logic.Relation

/-!
# Labelled transition systems

Initial states, a labelled step relation, the states some run reaches (from the
start, or from a given state), and the one induction every safety result of the
development goes through (`LTS.Inductive.reachable`).
-/
namespace Drot

structure LTS (σ Λ : Type) where
  init : σ → Prop
  step : σ → Λ → σ → Prop

namespace LTS
variable {σ Λ : Type}

/-- The states some finite run reaches. -/
inductive Reachable (L : LTS σ Λ) : σ → Prop where
  | init {s : σ} (h : L.init s) : Reachable L s
  | step {s s' : σ} (l : Λ) (hr : Reachable L s) (h : L.step s l s') : Reachable L s'

/-- An inductive invariant. -/
structure Inductive (L : LTS σ Λ) (I : σ → Prop) : Prop where
  init : ∀ s, L.init s → I s
  step : ∀ s l s', I s → L.step s l s' → I s'

theorem Inductive.reachable {L : LTS σ Λ} {I : σ → Prop} (h : L.Inductive I) :
    ∀ s, L.Reachable s → I s := by
  intro s hr
  induction hr with
  | init h0 => exact h.init _ h0
  | step l _ hs ih => exact h.step _ l _ ih hs

/-- The restriction of a system to the steps that satisfy `G`. -/
def guard (L : LTS σ Λ) (G : σ → Λ → Prop) : LTS σ Λ where
  init := L.init
  step s l s' := G s l ∧ L.step s l s'

theorem Reachable.of_guard {L : LTS σ Λ} {G : σ → Λ → Prop} {s : σ}
    (h : (L.guard G).Reachable s) : L.Reachable s := by
  induction h with
  | init h0 => exact .init h0
  | step l _ hs ih => exact .step l ih hs.2

theorem Reachable.to_guard {L : LTS σ Λ} {G : σ → Λ → Prop} (hG : ∀ s l, G s l) {s : σ}
    (h : L.Reachable s) : (L.guard G).Reachable s := by
  induction h with
  | init h0 => exact .init h0
  | step l _ hs ih => exact .step l ih ⟨hG _ _, hs⟩

/-- Some finite run leads from one state to the other. -/
def Reaches (L : LTS σ Λ) : σ → σ → Prop := Relation.ReflTransGen fun s s' => ∃ l, L.step s l s'

theorem Reaches.step {L : LTS σ Λ} {s s' : σ} (l : Λ) (h : L.step s l s') : L.Reaches s s' :=
  .single ⟨l, h⟩

theorem Reachable.reaches {L : LTS σ Λ} {s s' : σ} (hr : L.Reachable s) (h : L.Reaches s s') :
    L.Reachable s' := by
  induction h with
  | refl => exact hr
  | tail _ hs ih =>
    obtain ⟨l, hs⟩ := hs
    exact .step l ih hs

theorem Reaches.of_guard {L : LTS σ Λ} {G : σ → Λ → Prop} {s s' : σ}
    (h : (L.guard G).Reaches s s') : L.Reaches s s' :=
  Relation.ReflTransGen.mono (fun _ _ hs => hs.imp fun _ hl => hl.2) _ _ h

/-- Steps that satisfy `G` satisfy `G'` wherever an invariant of theirs holds. -/
theorem Reachable.guard_mono {L : LTS σ Λ} {G G' : σ → Λ → Prop} {I : σ → Prop}
    (h0 : ∀ s, L.init s → I s)
    (h : ∀ s l s', I s → G s l → L.step s l s' → G' s l ∧ I s') {s : σ}
    (hr : (L.guard G).Reachable s) : (L.guard G').Reachable s ∧ I s := by
  induction hr with
  | init hi => exact ⟨.init hi, h0 _ hi⟩
  | step l _ hs ih =>
    obtain ⟨hg, hi⟩ := h _ l _ ih.2 hs.1 hs.2
    exact ⟨.step l ih.1 ⟨hg, hs.2⟩, hi⟩

end LTS
end Drot
