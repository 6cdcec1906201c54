import Drot.Core.Prog

/-!
# Processes without a lock: rely and guarantee

A `Pact` fixes a world invariant, what an effect of process `p` may do (`guar p`)
and what `p` may count on between two of its effects (`rely p`). The one
obligation that ties them together is `other`: what a process guarantees, every
other process relies on.

`keeps` is the weakest precondition of a program under a pact: wherever the
other processes moved the world inside `rely p`, the next effect restores the
invariant inside `guar p`. `Pact.reachable` is the rule: when every call of an
API keeps the pact, the invariant holds in every reachable state of the system.
-/
namespace Drot

structure Pact (W : Type) where
  inv : W → Prop
  guar : Nat → W → W → Prop
  rely : Nat → W → W → Prop
  refl : ∀ p w, rely p w w
  trans : ∀ p u v w, rely p u v → rely p v w → rely p u w
  other : ∀ p q w w', q ≠ p → inv w → inv w' → guar q w w' → rely p w w'

namespace Machine
variable {O : Type} {R : O → Type} {W α β : Type}

def keeps (M : Machine O R W) (T : Pact W) (p : Nat) : Prog O R α → (α → W → Prop) → W → Prop
  | .ret a, Q, w => ∀ w', T.rely p w w' → T.inv w' → Q a w'
  | .call op k, Q, w => ∀ w', T.rely p w w' → T.inv w' → ∀ r w'', M.exec p w' op r w'' →
      T.inv w'' ∧ T.guar p w' w'' ∧ M.keeps T p (k r) Q w''

variable {M : Machine O R W} {T : Pact W} {p : Nat}

/-- A move of the others is absorbed. -/
theorem keeps_rely {m : Prog O R α} {Q : α → W → Prop} {w w' : W} (h : M.keeps T p m Q w)
    (hr : T.rely p w w') : M.keeps T p m Q w' := by
  cases m with
  | ret a => exact fun w'' h' hi => h w'' (T.trans p _ _ _ hr h') hi
  | call op k => exact fun w'' h' hi => h w'' (T.trans p _ _ _ hr h') hi

theorem keeps_mono {m : Prog O R α} {Q Q' : α → W → Prop} {w : W} (h : M.keeps T p m Q w)
    (hq : ∀ a w, Q a w → Q' a w) : M.keeps T p m Q' w := by
  induction m generalizing w with
  | ret a => exact fun w' hr hi => hq a w' (h w' hr hi)
  | call op k ih =>
    intro w' hr hi r w'' hx
    obtain ⟨hi', hg, hk⟩ := h w' hr hi r w'' hx
    exact ⟨hi', hg, ih r hk⟩

theorem keeps_ret {a : α} {Q : α → W → Prop} {w : W}
    (h : ∀ w', T.rely p w w' → T.inv w' → Q a w') : M.keeps T p (.ret a) Q w := h

/-- One effect, from wherever the others left the world. -/
theorem keeps_call {op : O} {k : R op → Prog O R α} {Q : α → W → Prop} {w : W}
    (h : ∀ w', T.rely p w w' → T.inv w' → ∀ r w'', M.exec p w' op r w'' →
      T.inv w'' ∧ T.guar p w' w'' ∧ M.keeps T p (k r) Q w'') :
    M.keeps T p (.call op k) Q w := h

theorem keeps_perform {op : O} {k : R op → Prog O R α} {Q : α → W → Prop} {w : W}
    (h : ∀ w', T.rely p w w' → T.inv w' → ∀ r w'', M.exec p w' op r w'' →
      T.inv w'' ∧ T.guar p w' w'' ∧ M.keeps T p (k r) Q w'') :
    M.keeps T p (Prog.perform op >>= k) Q w := keeps_call h

/-- Sequencing. -/
theorem keeps_bind {m : Prog O R α} {f : α → Prog O R β} {Q : β → W → Prop} {w : W}
    (hi : T.inv w)
    (h : M.keeps T p m (fun a w' => T.inv w' → M.keeps T p (f a) Q w') w) :
    M.keeps T p (m.bind f) Q w := by
  induction m generalizing w with
  | ret a => exact h w (T.refl p w) hi hi
  | call op k ih =>
    intro w' hr hw r w'' hx
    obtain ⟨hi', hg, hk⟩ := h w' hr hw r w'' hx
    exact ⟨hi', hg, ih r hi' hk⟩

/-- A program keeps the pact with its effects inside a larger set if it keeps it with
its own. -/
theorem keeps_within {O' : Type} {R' : O' → Type} {M : Machine O' R' W} {ι : O → O'}
    {back : ∀ op, R' (ι op) → R op} {m : Prog O R α} {Q : α → W → Prop} {w : W}
    (h : (M.seen ι back).keeps T p m Q w) : M.keeps T p (m.within ι back) Q w := by
  induction m generalizing w with
  | ret a => exact h
  | call op k ih =>
    intro w' hr hi r w'' hx
    obtain ⟨hi', hg, hk⟩ := h w' hr hi (back op r) w'' ⟨r, rfl, hx⟩
    exact ⟨hi', hg, ih (back op r) hk⟩

/-- One effect under `?`. -/
theorem keeps_try {ε γ : Type} (op : O) (g : R op → Except ε α) {f : α → ExceptT ε (Prog O R) γ}
    {Q : Except ε γ → W → Prop} {w : W}
    (h : ∀ w', T.rely p w w' → T.inv w' → ∀ r w'', M.exec p w' op r w'' →
      T.inv w'' ∧ T.guar p w' w'' ∧ (∀ e, g r = .error e → M.keeps T p (.ret (.error e)) Q w'') ∧
      ∀ a, g r = .ok a → M.keeps T p (f a).run Q w'') :
    M.keeps T p (ExceptT.mk (Prog.perform op >>= fun r => pure (g r)) >>= f).run Q w := by
  show M.keeps T p (.call op fun r => ExceptT.bindCont f (g r)) Q w
  apply keeps_call
  intro w' hr hi r w'' hx
  obtain ⟨hi', hg, herr, hok⟩ := h w' hr hi r w'' hx
  refine ⟨hi', hg, ?_⟩
  cases hres : g r with
  | error e => exact herr e hres
  | ok a => exact hok a hres

end Machine

section Rule
variable {O : Type} {R : O → Type} {W Obj Call Rep : Type}

/-- What the end of a call owes the others. -/
def Pact.Ends (T : Pact W) (M : Machine O R W) (A : Api O R W Obj Call Rep) (p : Nat) (c : Call)
    (x : Option Obj × Rep) (w : W) : Prop :=
  T.inv (M.finish A p c x.1 x.2 w) ∧ T.guar p w (M.finish A p c x.1 x.2 w)

/-- Every call of the API keeps the pact, and so does the end of a process. -/
structure Honoured (T : Pact W) (M : Machine O R W) (A : Api O R W Obj Call Rep) : Prop where
  call : ∀ p o c m w, A.run o c = some m → T.inv w → M.keeps T p m (T.Ends M A p c) w
  release : ∀ p w, T.inv w → T.inv (M.release p w) ∧ T.guar p w (M.release p w)
  power : ∀ w w', ¬ M.power w w'

namespace Pact
variable {T : Pact W} {M : Machine O R W} {A : Api O R W Obj Call Rep}

/-- The invariant, and every process inside a call goes on to keep the pact. -/
def Holds (T : Pact W) (M : Machine O R W) (A : Api O R W Obj Call Rep)
    (s : Sys O R W Obj Call Rep) : Prop :=
  T.inv s.world ∧ ∀ p c m, s.procs p = .busy c m → M.keeps T p m (T.Ends M A p c) s.world

/-- A move of `p` inside its guarantee. -/
theorem holds_update {s : Sys O R W Obj Call Rep} (h : T.Holds M A s) {p : Nat} {w : W}
    (hi : T.inv w) (hg : T.guar p s.world w) {x : Proc O R Obj Call Rep}
    (hx : ∀ c m, x = .busy c m → M.keeps T p m (T.Ends M A p c) w) :
    T.Holds M A ⟨w, Function.update s.procs p x⟩ := by
  refine ⟨hi, fun q c m hq => ?_⟩
  by_cases hqp : q = p
  · subst hqp
    simp only [Function.update_self] at hq
    exact hx c m hq
  · simp only [Function.update_of_ne hqp] at hq
    exact Machine.keeps_rely (h.2 q c m hq) (T.other q p _ _ (Ne.symm hqp) h.1 hi hg)

theorem holds_step (hon : Honoured T M A) {s s' : Sys O R W Obj Call Rep} {a : Act}
    (h : T.Holds M A s) (hs : M.Step A s a s') : T.Holds M A s' := by
  cases hs with
  | @call p o c m ho hm =>
    refine ⟨h.1, fun q c' m' hq => ?_⟩
    by_cases hqp : q = p
    · subst hqp
      simp only [Function.update_self] at hq
      cases hq
      exact hon.call q o c m s.world hm h.1
    · simp only [Function.update_of_ne hqp] at hq
      exact h.2 q c' m' hq
  | @exec p c op k r w hp hx =>
    obtain ⟨hi, hg, hk⟩ := h.2 p c _ hp s.world (T.refl p _) h.1 r w hx
    refine holds_update h hi hg fun c' m' he => ?_
    cases he
    exact hk
  | @ret p c o r hp =>
    obtain ⟨hi, hg⟩ := h.2 p c _ hp s.world (T.refl p _) h.1
    refine holds_update h hi hg fun c' m' he => ?_
    cases o <;> cases he
  | @drop p o hp =>
    obtain ⟨hi, hg⟩ := hon.release p _ h.1
    exact holds_update h hi hg fun c' m' he => by cases he
  | @kill p =>
    obtain ⟨hi, hg⟩ := hon.release p _ h.1
    exact holds_update h hi hg fun c' m' he => by cases he
  | @power w hw => exact absurd hw (hon.power _ _)

/-- A step leaves the world alone or is inside the guarantee of the process that moves. -/
theorem guar_step (hon : Honoured T M A) {s s' : Sys O R W Obj Call Rep} {a : Act}
    (h : T.Holds M A s) (hs : M.Step A s a s') :
    s'.world = s.world ∨ ∃ p, a.mover = some p ∧ T.guar p s.world s'.world := by
  cases hs with
  | call ho hm => exact .inl rfl
  | @exec p c op k r w hp hx =>
    obtain ⟨-, hg, -⟩ := h.2 p c _ hp s.world (T.refl p _) h.1 r w hx
    exact .inr ⟨p, rfl, hg⟩
  | @ret p c o r hp =>
    exact .inr ⟨p, rfl, (h.2 p c _ hp s.world (T.refl p _) h.1).2⟩
  | @drop p o hp => exact .inr ⟨p, rfl, (hon.release p _ h.1).2⟩
  | @kill p => exact .inr ⟨p, rfl, (hon.release p _ h.1).2⟩
  | @power w hw => exact absurd hw (hon.power _ _)

/-- **The rule.** -/
theorem reachable (hon : Honoured T M A) {init : W → Prop} (h0 : ∀ w, init w → T.inv w)
    {s : Sys O R W Obj Call Rep} (hr : (M.system A init).Reachable s) : T.Holds M A s := by
  have hI : (M.system A init).Inductive (T.Holds M A) := by
    refine ⟨fun s hs => ?_, fun s a s' h hs => holds_step hon h hs⟩
    refine ⟨h0 _ hs.1, fun p c m hp => ?_⟩
    rw [hs.2] at hp
    cases hp
  exact hI.reachable s hr

end Pact
end Rule
end Drot
