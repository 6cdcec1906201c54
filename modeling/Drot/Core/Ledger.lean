import Drot.Core.Rely

/-!
# Systems that keep a record of what was returned

`Machine.noting` and `Api.noting` put next to the world the list of the calls that
have returned, with what they returned. Nothing reads it, so every run of
the system is one with a record (`reaches_noted`).

Three rules carry what is known about the system over. A program that keeps a pact
keeps a pact that refines it, where the difference between the two does not matter
to its effects (`Lifts.keeps`); what a program returns it can return, whatever the
pact (`keeps_yields`); and what nobody can undo still holds at its end
(`keeps_frame`).
-/
namespace Drot
variable {O : Type} {R : O → Type} {W Obj Call Rep : Type}

def Machine.noting (M : Machine O R W) (N : Type) : Machine O R (W × N) where
  exec p x op r y := M.exec p x.1 op r y.1 ∧ y.2 = x.2
  owns p x := M.owns p x.1
  release p x := (M.release p x.1, x.2)
  power x y := M.power x.1 y.1 ∧ y.2 = x.2

def Api.noting (A : Api O R W Obj Call Rep) :
    Api O R (W × List (Call × Rep)) Obj Call Rep where
  run := A.run
  note c r x := (A.note c r x.1, x.2 ++ [(c, r)])

/-- The record starts empty. -/
def noted (M : Machine O R W) (A : Api O R W Obj Call Rep) (init : W → Prop) :
    LTS (Sys O R (W × List (Call × Rep)) Obj Call Rep) Act :=
  (M.noting (List (Call × Rep))).system A.noting fun x => init x.1 ∧ x.2 = []

theorem finish_noting (M : Machine O R W) (A : Api O R W Obj Call Rep) (p : Nat) (c : Call)
    (o : Option Obj) (r : Rep) (x : W × List (Call × Rep)) :
    (M.noting _).finish A.noting p c o r x = (M.finish A p c o r x.1, x.2 ++ [(c, r)]) := by
  cases o <;> rfl

section
variable {M : Machine O R W} {A : Api O R W Obj Call Rep} {Q : (op : O) → R op → Prop}
  {s s' : Sys O R W Obj Call Rep}

/-- A step notes at most one return, also where the answers are restricted to what they
always are. -/
theorem step_noted (hQ : ∀ op r, Q op r) {a : Act} (hs : M.Step A s a s')
    (record : List (Call × Rep)) : ∃ more, ((M.restrict Q).noting _).Step A.noting
      ⟨(s.world, record), s.procs⟩ a ⟨(s'.world, record ++ more), s'.procs⟩ := by
  cases hs with
  | call ho hm =>
    refine ⟨[], ?_⟩
    rw [List.append_nil]
    exact .call ho hm
  | @exec p c op k r w hp hx =>
    refine ⟨[], ?_⟩
    rw [List.append_nil]
    exact .exec (w := (w, record)) hp ⟨⟨hQ op r, hx⟩, rfl⟩
  | @ret p c o r hp =>
    refine ⟨[(c, r)], ?_⟩
    have hret := Machine.Step.ret (M := (M.restrict Q).noting _) (A := A.noting)
      (s := ⟨(s.world, record), s.procs⟩) hp
    rw [finish_noting] at hret
    exact hret
  | drop hp =>
    refine ⟨[], ?_⟩
    rw [List.append_nil]
    exact .drop hp
  | kill =>
    refine ⟨[], ?_⟩
    rw [List.append_nil]
    exact .kill
  | @power w hw =>
    refine ⟨[], ?_⟩
    rw [List.append_nil]
    exact .power (w := (w, record)) ⟨hw, rfl⟩

/-- Noting changes nothing: every run has its record. -/
theorem reaches_noted {init : W → Prop} (hQ : ∀ op r, Q op r)
    (h : (M.system A init).Reaches s s') (record : List (Call × Rep)) : ∃ more,
    (noted (M.restrict Q) A init).Reaches ⟨(s.world, record), s.procs⟩
      ⟨(s'.world, record ++ more), s'.procs⟩ := by
  induction h with
  | refl =>
    refine ⟨[], ?_⟩
    rw [List.append_nil]
    exact .refl
  | tail _ hs ih =>
    obtain ⟨more, ih⟩ := ih
    obtain ⟨a, hs⟩ := hs
    obtain ⟨last, hlast⟩ := step_noted hQ hs (record ++ more)
    rw [List.append_assoc] at hlast
    exact ⟨more ++ last, ih.trans (LTS.Reaches.step a hlast)⟩

/-- A call returns, and is noted. -/
theorem reaches_noted_ret {init : W → Prop} {p : Nat} {c : Call} {o : Option Obj} {r : Rep}
    (hp : s.procs p = .busy c (.ret (o, r))) (record : List (Call × Rep)) :
    (noted (M.restrict Q) A init).Reaches ⟨(s.world, record), s.procs⟩
      ⟨(M.finish A p c o r s.world, record ++ [(c, r)]),
        Function.update s.procs p (.ofResult o)⟩ := by
  have hret := Machine.Step.ret (M := (M.restrict Q).noting (List (Call × Rep))) (A := A.noting)
    (s := ⟨(s.world, record), s.procs⟩) hp
  rw [finish_noting] at hret
  exact .step (.ret p) hret

end

/-! ## Refined pacts -/

/-- Over the worlds `W'`, which `π` reads as worlds of `W`, an effect in `S` that
keeps the pact `T` keeps `T'`. -/
structure Lifts {W' : Type} (M : Machine O R W) (T : Pact W) (M' : Machine O R W') (T' : Pact W')
    (π : W' → W) (S : O → Prop) (p : Nat) : Prop where
  inv : ∀ x, T'.inv x → T.inv (π x)
  rely : ∀ x y, T'.rely p x y → T.rely p (π x) (π y)
  exec : ∀ x op r y, S op → M'.exec p x op r y → M.exec p (π x) op r (π y)
  step : ∀ x op r y, S op → M'.exec p x op r y → T'.inv x → T.inv (π y) →
    T.guar p (π x) (π y) → T'.inv y ∧ T'.guar p x y

theorem Lifts.keeps {W' α : Type} {M : Machine O R W} {T : Pact W} {M' : Machine O R W'}
    {T' : Pact W'} {π : W' → W} {S : O → Prop} {p : Nat} (hl : Lifts M T M' T' π S p)
    {m : Prog O R α} {Q : α → W → Prop} {x : W'} (hm : m.Only S) (h : M.keeps T p m Q (π x)) :
    M'.keeps T' p m (fun a y => Q a (π y)) x := by
  induction m generalizing x with
  | ret a => exact fun y hr hi => h _ (hl.rely _ _ hr) (hl.inv _ hi)
  | call op k ih =>
    intro y hr hi r z hx
    obtain ⟨hiz, hg, hk⟩ := h _ (hl.rely _ _ hr) (hl.inv _ hi) r _ (hl.exec _ _ _ _ hm.1 hx)
    obtain ⟨hiz', hg'⟩ := hl.step _ _ _ _ hm.1 hx hi hiz hg
    exact ⟨hiz', hg', ih r (hm.2 r) hk⟩

namespace Machine
variable {α : Type} {M : Machine O R W} {T : Pact W} {p : Nat}

/-- What a program returns is one of its results. -/
theorem keeps_yields {Q : (op : O) → R op → Prop} (hQ : ∀ w op r w', M.exec p w op r w' → Q op r)
    {m : Prog O R α} {P : α → W → Prop} {w : W} (h : M.keeps T p m P w) :
    M.keeps T p m (fun a w' => P a w' ∧ Prog.Yields Q m a) w := by
  induction m generalizing w with
  | ret a => exact fun w' hr hi => ⟨h w' hr hi, .ret a⟩
  | call op k ih =>
    intro w' hr hi r w'' hx
    obtain ⟨hi', hg, hk⟩ := h w' hr hi r w'' hx
    refine ⟨hi', hg, keeps_mono (ih r hk) fun a w₁ ha => ⟨ha.1, .call r (hQ _ _ _ _ hx) ha.2⟩⟩

/-- What neither the others nor the program itself can undo. -/
theorem keeps_frame {F : W → Prop} (hr : ∀ w w', T.rely p w w' → F w → F w')
    (hg : ∀ w w', T.guar p w w' → F w → F w') {m : Prog O R α} {P : α → W → Prop} {w : W}
    (hF : F w) (h : M.keeps T p m P w) : M.keeps T p m (fun a w' => P a w' ∧ F w') w := by
  induction m generalizing w with
  | ret a => exact fun w' hrw hi => ⟨h w' hrw hi, hr _ _ hrw hF⟩
  | call op k ih =>
    intro w' hrw hi r w'' hx
    obtain ⟨hi', hgw, hk⟩ := h w' hrw hi r w'' hx
    exact ⟨hi', hgw, ih r (hg _ _ hgw (hr _ _ hrw hF)) hk⟩

end Machine
end Drot
