import Drot.Core.Rely
import Drot.Core.Volume

/-!
# Placing a file under a pact

`Volume.replace` writes a temporary and renames it over a name, next to other
processes that share the volume. `Placer` is what a pact has to grant the process
that does so: what holds before it begins, between its effects and when it has failed,
and that its effects keep the pact. `Placer.keeps_replace` is the rule: the process
keeps the pact, wherever the others move and whichever operation fails.
-/
namespace Drot

@[reducible] def VolAns {P : Type} (op : VolOp P) : Type := Except IoError (VolRes op)

namespace Volume
variable {P : Type}

def effect (op : VolOp P) : ExceptT IoError (Prog (VolOp P) VolAns) (VolRes op) :=
  ExceptT.mk (Prog.perform op)

def replace (tmp path : P) (bytes : Bytes) : ExceptT IoError (Prog (VolOp P) VolAns) Unit := do
  let f ← effect (.create tmp)
  effect (.writeAll f bytes)
  effect (.syncAll f)
  effect (.rename tmp path)
  effect .syncDir

variable {W : Type}

/-- An effect of `p` keeps the pact, and leaves `next`, or `failed` with an error. -/
structure Leaves {α : Type} (T : Pact W) (p : Nat) (failed next : W → Prop) (w : W)
    (r : Except IoError α) (w' : W) : Prop where
  inv : T.inv w'
  guar : T.guar p w w'
  failed : ∀ e, r = .error e → failed w'
  next : ∀ a, r = .ok a → next w'

variable [DecidableEq P]

/-- What process `p` is granted. -/
structure Placer (M : Machine (VolOp P) VolAns W) (T : Pact W) (p : Nat) (tmp path : P)
    (bytes : Bytes) where
  volume : W → Volume P
  placed : W → List (Nat × Bytes)
  ready : W → Prop
  begun : W → Prop              -- it has created the temporary
  written : W → Prop
  failed : W → Prop
  done : W → Prop
  exec : ∀ {w op r w'}, M.exec p w op r w' → (volume w).exec op r (volume w')
  shelf : ∀ {w}, T.inv w → (volume w).Shelf tmp path (placed w)
  ready_rely : ∀ {w w'}, ready w → T.rely p w w' → ready w'
  begun_rely : ∀ {w w'}, begun w → T.rely p w w' → begun w' ∧ volume w' = volume w
  written_rely : ∀ {w w'}, written w → T.rely p w w' → written w' ∧ volume w' = volume w
  failed_rely : ∀ {w w'}, failed w → T.rely p w w' → failed w'
  done_rely : ∀ {w w'}, done w → T.rely p w w' → done w'
  create : ∀ {w r w'}, T.inv w → ready w → M.exec p w (.create tmp) r w' →
    (volume w').Shelf tmp path (placed w) → Leaves T p failed begun w r w'
  write : ∀ {w f r w'}, T.inv w → begun w → M.exec p w (.writeAll f bytes) r w' →
    (volume w').Shelf tmp path (placed w) → Leaves T p failed written w r w'
  sync : ∀ {w f r w'}, T.inv w → written w → M.exec p w (.syncAll f) r w' →
    Leaves T p failed written w r w'
  rename : ∀ {w e w'}, T.inv w → written w → M.exec p w (.rename tmp path) (.error e) w' →
    T.inv w' ∧ T.guar p w w' ∧ failed w'
  place : ∀ {w f w'}, T.inv w → written w → (volume w).dir tmp = some f →
    (volume w).inode f = bytes → M.exec p w (.rename tmp path) (.ok ()) w' →
    T.inv w' ∧ T.guar p w w' ∧ done w'
  syncDir : ∀ {w r w'}, T.inv w → done w → M.exec p w .syncDir r w' →
    T.inv w' ∧ T.guar p w w' ∧ done w'

namespace Placer
variable {M : Machine (VolOp P) VolAns W} {T : Pact W} {p : Nat} {tmp path : P} {bytes : Bytes}
  (A : Placer M T p tmp path bytes) {w : W}

/-- What `replace` leaves. The directory may fail to sync after the rename. -/
def Post (r : Except IoError Unit) (w : W) : Prop :=
  (r = .ok () → A.done w) ∧ (A.failed w ∨ A.done w)

/-- The temporary `f` holds `bs`. -/
def Holding (f : Nat) (bs : Bytes) (w : W) : Prop :=
  (A.volume w).dir tmp = some f ∧ (A.volume w).inode f = bs

variable {A} in
theorem Holding.of_eq {f : Nat} {bs : Bytes} {w' : W} (h : A.Holding f bs w)
    (hv : A.volume w' = A.volume w) : A.Holding f bs w' := ⟨hv ▸ h.1, hv ▸ h.2⟩

omit [DecidableEq P] in
theorem keeps_effect {α : Type} {op : VolOp P}
    {f : VolRes op → ExceptT IoError (Prog (VolOp P) VolAns) α} {Q : Except IoError α → W → Prop}
    (h : ∀ w₁, T.rely p w w₁ → T.inv w₁ → ∀ r w₂, M.exec p w₁ op r w₂ →
      T.inv w₂ ∧ T.guar p w₁ w₂ ∧ (∀ e, r = .error e → M.keeps T p (.ret (.error e)) Q w₂) ∧
      ∀ a, r = .ok a → M.keeps T p (f a).run Q w₂) :
    M.keeps T p (effect op >>= f).run Q w := Machine.keeps_try (R := VolAns) op id h

theorem keeps_failed (h : A.failed w) (e : IoError) :
    M.keeps T p (.ret (.error e) : Prog (VolOp P) VolAns (Except IoError Unit)) A.Post w :=
  fun _ hr _ => ⟨fun he => (by cases he), .inl (A.failed_rely h hr)⟩

/-- An effect that leaves `next` goes on from there. -/
theorem keeps_leaves {α : Type} {w' : W} {next : W → Prop} {r : Except IoError α}
    {f : α → Prog (VolOp P) VolAns (Except IoError Unit)}
    (h : Leaves T p A.failed next w r w')
    (hf : ∀ a, r = .ok a → next w' → M.keeps T p (f a) A.Post w') :
    T.inv w' ∧ T.guar p w w' ∧ (∀ e, r = .error e → M.keeps T p (.ret (.error e)) A.Post w') ∧
      ∀ a, r = .ok a → M.keeps T p (f a) A.Post w' :=
  ⟨h.inv, h.guar, fun e he => A.keeps_failed (h.failed e he) e, fun a ha => hf a ha (h.next a ha)⟩

/-- The rename puts the file in place; the directory sync comes after. -/
theorem keeps_install {f : Nat} (h : A.written w) (hh : A.Holding f bytes w) :
    M.keeps T p (ExceptT.run do
      effect (.rename tmp path)
      effect .syncDir) A.Post w := by
  refine keeps_effect fun w₁ hr₁ hi₁ r w₂ hx => ?_
  obtain ⟨h₁, hv⟩ := A.written_rely h hr₁
  have hh₁ := hh.of_eq hv
  cases r with
  | error e =>
    obtain ⟨hi₂, hg₂, hfail⟩ := A.rename hi₁ h₁ hx
    exact ⟨hi₂, hg₂, fun e _ => A.keeps_failed hfail e, fun _ h => by cases h⟩
  | ok u =>
    obtain ⟨hi₂, hg₂, hd₂⟩ := A.place hi₁ h₁ hh₁.1 hh₁.2 hx
    refine ⟨hi₂, hg₂, (fun _ h => by cases h), fun _ _ => ?_⟩
    intro w₃ hr₃ hi₃ r w₄ hx
    obtain ⟨hi₄, hg₄, hd₄⟩ := A.syncDir hi₃ (A.done_rely hd₂ hr₃) hx
    refine ⟨hi₄, hg₄, fun w₅ hr₅ _ => ?_⟩
    have hd₅ := A.done_rely hd₄ hr₅
    exact ⟨fun _ => hd₅, .inr hd₅⟩

theorem keeps_fill {f : Nat} (h : A.begun w) (hh : A.Holding f [] w) :
    M.keeps T p (ExceptT.run do
      effect (.writeAll f bytes)
      effect (.syncAll f)
      effect (.rename tmp path)
      effect .syncDir) A.Post w := by
  refine keeps_effect fun w₁ hr₁ hi₁ r w₂ hx => ?_
  obtain ⟨h₁, hv⟩ := A.begun_rely h hr₁
  have hh₁ := hh.of_eq hv
  have hs : (A.volume w₂).Shelf tmp path (A.placed w₁) := by
    cases r with
    | error e =>
      obtain ⟨bs, hv⟩ := A.exec hx
      exact hv ▸ (A.shelf hi₁).write hh₁.1 bs
    | ok u =>
      have hv := A.exec hx
      exact hv ▸ (A.shelf hi₁).write hh₁.1 _
  refine A.keeps_leaves (A.write hi₁ h₁ hx hs) fun u hu h₂ => ?_
  subst hu
  have hv : A.volume w₂ = (A.volume w₁).setFile f
      (bytes ++ ((A.volume w₁).inode f).drop bytes.length) := A.exec hx
  have hh₂ : A.Holding f bytes w₂ := by
    refine ⟨by rw [hv]; exact hh₁.1, ?_⟩
    rw [hv, hh₁.2, List.drop_nil, List.append_nil]
    exact Function.update_self ..
  refine keeps_effect fun w₃ hr₃ hi₃ r w₄ hx => ?_
  obtain ⟨h₃, hv⟩ := A.written_rely h₂ hr₃
  have hh₃ := hh₂.of_eq hv
  exact A.keeps_leaves (A.sync hi₃ h₃ hx) fun _ _ h₄ => A.keeps_install h₄ (hh₃.of_eq (A.exec hx))

/-- **The rule.** -/
theorem keeps_replace (hne : tmp ≠ path) (h : A.ready w) :
    M.keeps T p (replace tmp path bytes).run A.Post w := by
  refine keeps_effect fun w₁ hr₁ hi₁ r w₂ hx => ?_
  have h₁ := A.ready_rely h hr₁
  obtain ⟨hs, hnil⟩ := (A.shelf hi₁).create hne
  have hs₂ : (A.volume w₂).Shelf tmp path (A.placed w₁) := by
    cases r with
    | error e =>
      have hv : A.volume w₂ = A.volume w₁ := A.exec hx
      exact hv ▸ A.shelf hi₁
    | ok f =>
      obtain ⟨-, hv⟩ := A.exec hx
      exact hv ▸ hs
  refine A.keeps_leaves (A.create hi₁ h₁ hx hs₂) fun f hf h₂ => ?_
  subst hf
  obtain ⟨rfl, hv⟩ := A.exec hx
  refine A.keeps_fill h₂ ⟨?_, ?_⟩
  · rw [hv]
    exact createAt_dir ..
  · rw [hv]
    exact hnil

end Placer
end Volume
end Drot
