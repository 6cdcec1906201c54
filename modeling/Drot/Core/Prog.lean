import Drot.Core.LTS

/-!
# Processes that share a world, hold a lock and may be killed

`Prog O R α` is a sequential program that performs effects `op : O`, each
answered by a value of `R op`. A `Machine` says what an effect may do to the
shared world, which process owns the lock, what dies with a process
(`release`) and what a power failure leaves (`power`). An `Api` gives the
program a process runs when it makes a call, on no object (a constructor) or
on the object it holds (a method). `Machine.system` is the resulting
transition system: any number of processes, every interleaving, a kill
between any two effects.

`wp` is the weakest precondition of a program with a crash invariant `C`:
`C` holds before every effect and at the end, and while the process does not
own the lock the other processes may move the world anywhere inside `C`
(`Env`). `Outline.reachable` is the rule: when every call of the API meets
its outline from every state that satisfies the crash invariant, the
invariant holds in every reachable state of the system.
-/
namespace Drot

inductive Prog (O : Type) (R : O → Type) (α : Type) where
  | ret (a : α)
  | call (op : O) (k : R op → Prog O R α)

namespace Prog
variable {O : Type} {R : O → Type} {α β : Type}

def bind : Prog O R α → (α → Prog O R β) → Prog O R β
  | .ret a, f => f a
  | .call op k, f => .call op fun r => (k r).bind f

instance : Monad (Prog O R) where
  pure := .ret
  bind := bind

theorem bind_ret (m : Prog O R α) : m.bind .ret = m := by
  induction m with
  | ret a => rfl
  | call op k ih => exact congrArg (Prog.call op) (funext fun r => ih r)

theorem bind_assoc {γ : Type} (m : Prog O R α) (f : α → Prog O R β) (g : β → Prog O R γ) :
    (m.bind f).bind g = m.bind fun a => (f a).bind g := by
  induction m with
  | ret a => rfl
  | call op k ih => exact congrArg (Prog.call op) (funext fun r => ih r)

instance : LawfulMonad (Prog O R) := .mk' _ bind_ret (fun _ _ => rfl) bind_assoc

/-- Perform one effect. -/
def perform (op : O) : Prog O R (R op) := .call op .ret

/-! ### Methods -/

section
variable {σ ε : Type}

/-- A fallible part that does not touch the object. -/
instance : MonadLift (ExceptT ε (Prog O R)) (ExceptT ε (StateT σ (Prog O R))) where
  monadLift x := fun s => x.run.bind fun r => .ret (r, s)

/-- What is returned and left by a method whose errors leave the object `s` it found. -/
def committed (s : σ) : Except ε (σ × α) → Except ε α × σ
  | .ok (s', a) => (.ok a, s')
  | .error e => (.error e, s)

/-- A method on `&mut self` is atomic in memory: `y` computes the object that a success
leaves, and an error leaves the object as it was. -/
def Commits (m : ExceptT ε (StateT σ (Prog O R)) α) (s : σ) (y : ExceptT ε (Prog O R) (σ × α)) :
    Prop :=
  m.run.run s = y.run.bind fun r => .ret (committed s r)

namespace Commits
variable {m : ExceptT ε (StateT σ (Prog O R)) α} {s : σ} {y : ExceptT ε (Prog O R) (σ × α)}

protected theorem get {f : σ → ExceptT ε (StateT σ (Prog O R)) α} (h : Commits (f s) s y) :
    Commits (get >>= f) s y := h

protected theorem throw (e : ε) :
    Commits (throw e : ExceptT ε (StateT σ (Prog O R)) α) s (ExceptT.mk (.ret (.error e))) := rfl

protected theorem modify (f : σ → σ) :
    Commits (modify f : ExceptT ε (StateT σ (Prog O R)) PUnit) s (pure (f s, ⟨⟩)) := rfl

theorem lift {x : ExceptT ε (Prog O R) β} {f : β → ExceptT ε (StateT σ (Prog O R)) α}
    {g : β → ExceptT ε (Prog O R) (σ × α)} (h : ∀ b, Commits (f b) s (g b)) :
    Commits (liftM x >>= f) s (x >>= g) := by
  refine (bind_assoc x.run _ _).trans (Eq.trans ?_ (bind_assoc x.run _ _).symm)
  refine congrArg x.run.bind (funext fun r => ?_)
  cases r with
  | ok b => exact h b
  | error e => rfl

/-- What is made of the outcome. -/
theorem bind (h : Commits m s y) (k : Except ε α × σ → Prog O R β) :
    (m.run.run s).bind k = y.run.bind fun r => k (committed s r) := by
  rw [show m.run.run s = _ from h, bind_assoc]
  rfl

/-- A method that goes on by moving the object once more. -/
theorem map (h : Commits m s y) (f : σ → σ) (b : β) :
    Commits (do let _ ← m; modify f; return b) s (do let x ← y; return (f x.1, b)) := by
  refine (h.bind _).trans (Eq.trans ?_ (bind_assoc y.run _ _).symm)
  refine congrArg y.run.bind (funext fun r => ?_)
  cases r with
  | ok x => rfl
  | error e => rfl

end Commits
end

/-- The program can return `a` when every effect is answered as `Q` allows. -/
inductive Yields (Q : (op : O) → R op → Prop) : Prog O R α → α → Prop where
  | ret (a : α) : Yields Q (.ret a) a
  | call {op : O} {k : R op → Prog O R α} {a : α} (r : R op) (hq : Q op r)
      (h : Yields Q (k r) a) : Yields Q (.call op k) a

variable {Q : (op : O) → R op → Prop}

theorem yields_ret {a b : α} : Yields Q (.ret a : Prog O R α) b ↔ b = a := by
  constructor
  · intro h; cases h; rfl
  · intro h
    subst h
    exact .ret b

theorem yields_call {op : O} {k : R op → Prog O R α} {a : α} :
    Yields Q (.call op k) a ↔ ∃ r, Q op r ∧ Yields Q (k r) a := by
  constructor
  · intro h; cases h with | call r hq h => exact ⟨r, hq, h⟩
  · intro h
    obtain ⟨r, hq, h⟩ := h
    exact .call r hq h

theorem yields_bind {m : Prog O R α} {f : α → Prog O R β} {b : β} :
    Yields Q (m.bind f) b ↔ ∃ a, Yields Q m a ∧ Yields Q (f a) b := by
  induction m with
  | ret a => simp [bind, yields_ret]
  | call op k ih =>
    simp only [bind, yields_call, ih]
    constructor
    · intro h
      obtain ⟨r, hq, a, h, hf⟩ := h
      exact ⟨a, ⟨r, hq, h⟩, hf⟩
    · intro h
      obtain ⟨a, ⟨r, hq, h⟩, hf⟩ := h
      exact ⟨r, hq, a, h, hf⟩

/-- Where every effect has an answer, the program returns. -/
theorem exists_yields (hQ : ∀ op, ∃ r, Q op r) (m : Prog O R α) : ∃ a, Yields Q m a := by
  induction m with
  | ret a => exact ⟨a, .ret a⟩
  | call op k ih =>
    obtain ⟨r, hr⟩ := hQ op
    obtain ⟨a, ha⟩ := ih r
    exact ⟨a, .call r hr ha⟩

/-- Whatever the answers, the program performs effects in `S` only. -/
def Only (S : O → Prop) : Prog O R α → Prop
  | .ret _ => True
  | .call op k => S op ∧ ∀ r, (k r).Only S

theorem only_bind {S : O → Prop} {m : Prog O R α} {f : α → Prog O R β} (hm : m.Only S)
    (hf : ∀ a, (f a).Only S) : (m.bind f).Only S := by
  induction m with
  | ret a => exact hf a
  | call op k ih => exact ⟨hm.1, fun r => ih r (hm.2 r)⟩

end Prog

/-- The world processes act on. Process identifiers are natural numbers. -/
structure Machine (O : Type) (R : O → Type) (W : Type) where
  exec : Nat → W → (op : O) → R op → W → Prop
  owns : Nat → W → Prop
  release : Nat → W → W
  power : W → W → Prop

/-- The calls a process can make. `note` is what the return of a call adds to
the world's record. -/
structure Api (O : Type) (R : O → Type) (W Obj Call Rep : Type) where
  run : Option Obj → Call → Option (Prog O R (Option Obj × Rep))
  note : Call → Rep → W → W

/-- A process holds nothing, holds an object, or is inside a call. -/
inductive Proc (O : Type) (R : O → Type) (Obj Call Rep : Type) where
  | idle
  | live (o : Obj)
  | busy (c : Call) (m : Prog O R (Option Obj × Rep))

namespace Proc
variable {O : Type} {R : O → Type} {Obj Call Rep : Type}

/-- The object a process that is not inside a call can use. -/
def object : Proc O R Obj Call Rep → Option (Option Obj)
  | .idle => some none
  | .live o => some (some o)
  | .busy _ _ => none

def ofResult : Option Obj → Proc O R Obj Call Rep
  | none => .idle
  | some o => .live o

end Proc

structure Sys (O : Type) (R : O → Type) (W Obj Call Rep : Type) where
  world : W
  procs : Nat → Proc O R Obj Call Rep

/-- Who moves. -/
inductive Act where
  | call (p : Nat)
  | exec (p : Nat)
  | ret (p : Nat)
  | drop (p : Nat)
  | kill (p : Nat)
  | power
  deriving DecidableEq, Repr

/-- The process that moves. -/
def Act.mover : Act → Option Nat
  | .call p => some p
  | .exec p => some p
  | .ret p => some p
  | .drop p => some p
  | .kill p => some p
  | .power => none

namespace Machine
variable {O : Type} {R : O → Type} {W Obj Call Rep : Type}

/-- What a returned call leaves: the record of the call, and no lock if no
object is left to hold it. -/
def finish (M : Machine O R W) (A : Api O R W Obj Call Rep) (p : Nat) (c : Call)
    (o : Option Obj) (r : Rep) (w : W) : W :=
  match o with
  | none => M.release p (A.note c r w)
  | some _ => A.note c r w

inductive Step (M : Machine O R W) (A : Api O R W Obj Call Rep) :
    Sys O R W Obj Call Rep → Act → Sys O R W Obj Call Rep → Prop where
  | call {s : Sys O R W Obj Call Rep} {p : Nat} {o : Option Obj} {c : Call}
      {m : Prog O R (Option Obj × Rep)} (ho : (s.procs p).object = some o)
      (hm : A.run o c = some m) :
      Step M A s (.call p) { s with procs := Function.update s.procs p (.busy c m) }
  | exec {s : Sys O R W Obj Call Rep} {p : Nat} {c : Call} {op : O}
      {k : R op → Prog O R (Option Obj × Rep)} {r : R op} {w : W}
      (hp : s.procs p = .busy c (.call op k)) (hx : M.exec p s.world op r w) :
      Step M A s (.exec p) ⟨w, Function.update s.procs p (.busy c (k r))⟩
  | ret {s : Sys O R W Obj Call Rep} {p : Nat} {c : Call} {o : Option Obj} {r : Rep}
      (hp : s.procs p = .busy c (.ret (o, r))) :
      Step M A s (.ret p)
        ⟨M.finish A p c o r s.world, Function.update s.procs p (.ofResult o)⟩
  | drop {s : Sys O R W Obj Call Rep} {p : Nat} {o : Obj} (hp : s.procs p = .live o) :
      Step M A s (.drop p) ⟨M.release p s.world, Function.update s.procs p .idle⟩
  | kill {s : Sys O R W Obj Call Rep} {p : Nat} :
      Step M A s (.kill p) ⟨M.release p s.world, Function.update s.procs p .idle⟩
  | power {s : Sys O R W Obj Call Rep} {w : W} (hw : M.power s.world w) :
      Step M A s .power ⟨w, fun _ => .idle⟩

/-- Any number of processes, none of which has started yet. -/
def system (M : Machine O R W) (A : Api O R W Obj Call Rep) (init : W → Prop) :
    LTS (Sys O R W Obj Call Rep) Act where
  init s := init s.world ∧ s.procs = fun _ => .idle
  step := M.Step A

/-- Process `p` performs the effects from `m` up to `m'`, each where `Q` holds. -/
inductive Runs {α : Type} (M : Machine O R W) (Q : W → O → Prop) (p : Nat) :
    Prog O R α → W → Prog O R α → W → Prop where
  | refl {m : Prog O R α} {w : W} : Runs M Q p m w m w
  | step {op : O} {k : R op → Prog O R α} {m' : Prog O R α} {w w' w'' : W} (r : R op)
      (hq : Q w op) (hx : M.exec p w op r w') (h : Runs M Q p (k r) w' m' w'') :
      Runs M Q p (.call op k) w m' w''

theorem Runs.of_eq {α : Type} {M : Machine O R W} {Q : W → O → Prop} {p : Nat}
    {m m' : Prog O R α} {w : W} (h : m = m') : M.Runs Q p m w m' w := h ▸ .refl

theorem Runs.trans {α : Type} {M : Machine O R W} {Q : W → O → Prop} {p : Nat}
    {m m' m'' : Prog O R α} {w w' w'' : W} (h : M.Runs Q p m w m' w')
    (h' : M.Runs Q p m' w' m'' w'') : M.Runs Q p m w m'' w'' := by
  induction h with
  | refl => exact h'
  | step r hq hx _ ih => exact .step r hq hx (ih h')

/-- The first part of a sequence runs. -/
theorem Runs.bind {α β : Type} {M : Machine O R W} {Q : W → O → Prop} {p : Nat}
    {m m' : Prog O R α} {w w' : W} (h : M.Runs Q p m w m' w') (f : α → Prog O R β) :
    M.Runs Q p (m.bind f) w (m'.bind f) w' := by
  induction h with
  | refl => exact .refl
  | step r hq hx _ ih => exact .step r hq hx ih

/-- A run on one machine is a run on another that does the same with the effects
the program performs. -/
theorem Runs.transfer {α : Type} {M M' : Machine O R W} {Q Q' : W → O → Prop} {S : O → Prop}
    {p : Nat} {m m' : Prog O R α} {w w' : W} (h : M.Runs Q p m w m' w') (hm : m.Only S)
    (hx : ∀ w op r w', S op → M.exec p w op r w' → M'.exec p w op r w')
    (hq : ∀ w op, S op → Q w op → Q' w op) : M'.Runs Q' p m w m' w' := by
  induction h with
  | refl => exact .refl
  | step r hQ hX _ ih => exact .step r (hq _ _ hm.1 hQ) (hx _ _ _ _ hm.1 hX) (ih (hm.2 r))

/-- The machine whose answers all satisfy `S`. -/
def restrict (M : Machine O R W) (S : (op : O) → R op → Prop) : Machine O R W :=
  { M with exec := fun p w op r w' => S op r ∧ M.exec p w op r w' }

/-- A run on a machine that does less. -/
theorem Runs.mono {α : Type} {M M' : Machine O R W} {Q : W → O → Prop} {p : Nat}
    {m m' : Prog O R α} {w w' : W} (h : M.Runs Q p m w m' w')
    (hx : ∀ w op r w', M.exec p w op r w' → M'.exec p w op r w') : M'.Runs Q p m w m' w' := by
  induction h with
  | refl => exact .refl
  | step r hq hX _ ih => exact .step r hq (hx _ _ _ _ hX) ih

/-- A run on a machine that another one simulates, effect for effect. -/
theorem Runs.simulate {V α : Type} {M : Machine O R W} {M' : Machine O R V} {S : W → V → Prop}
    {Q : W → O → Prop} {p : Nat} {m m' : Prog O R α} {w w' : W} (h : M.Runs Q p m w m' w')
    (hx : ∀ w op r w' v, M.exec p w op r w' → S w v → ∃ v', M'.exec p v op r v' ∧ S w' v') {v : V}
    (hs : S w v) : ∃ v', M'.Runs (fun _ _ => True) p m v m' v' ∧ S w' v' := by
  induction h generalizing v with
  | refl => exact ⟨v, .refl, hs⟩
  | step r _ hX _ ih =>
    obtain ⟨v₁, hX', hs₁⟩ := hx _ _ _ _ _ hX hs
    obtain ⟨v', hruns, hs'⟩ := ih hs₁
    exact ⟨v', .step r trivial hX' hruns, hs'⟩

theorem Runs.of_restrict {α : Type} {M : Machine O R W} {S : (op : O) → R op → Prop}
    {Q : W → O → Prop} {p : Nat} {m m' : Prog O R α} {w w' : W}
    (h : (M.restrict S).Runs Q p m w m' w') : M.Runs Q p m w m' w' := by
  induction h with
  | refl => exact .refl
  | step r hQ hX _ ih => exact .step r hQ hX.2 ih

/-- The machine that performs an effect only where `G` allows it. -/
def given (M : Machine O R W) (G : W → O → Prop) : Machine O R W :=
  { M with exec := fun p w op r w' => G w op ∧ M.exec p w op r w' }

/-- The next effect of a process happens where `G` allows it. -/
def NextWhere {Obj Call Rep : Type} (G : W → O → Prop) (s : Sys O R W Obj Call Rep) : Act → Prop
  | .exec p => ∀ c op k, s.procs p = .busy c (.call op k) → G s.world op
  | _ => True

/-- Runs whose effects all happen where `G` allows them are runs of that machine. -/
theorem reachable_given {Obj Call Rep : Type} {M : Machine O R W} {A : Api O R W Obj Call Rep}
    {init : W → Prop} {G : W → O → Prop} {s : Sys O R W Obj Call Rep}
    (h : ((M.system A init).guard (NextWhere G)).Reachable s) :
    ((M.given G).system A init).Reachable s := by
  induction h with
  | init h0 => exact .init h0
  | step a _ hs ih =>
    refine .step a ih ?_
    obtain ⟨hg, hs⟩ := hs
    cases hs with
    | call ho hm => exact .call ho hm
    | exec hp hx => exact .exec hp ⟨hg _ _ _ hp, hx⟩
    | ret hp => exact .ret hp
    | drop hp => exact .drop hp
    | kill => exact .kill
    | power hw => exact .power hw

/-! A program over some effects is a program over more effects. -/

end Machine

namespace Prog
variable {O O' : Type} {R : O → Type} {R' : O' → Type} {α β : Type}

/-- The same program, whose effects are some of `O'`. -/
def within (ι : O → O') (back : ∀ op, R' (ι op) → R op) : Prog O R α → Prog O' R' α
  | .ret a => .ret a
  | .call op k => .call (ι op) fun r => (k (back op r)).within ι back

end Prog

namespace Machine
variable {O : Type} {R : O → Type} {W Obj Call Rep : Type}

/-- The machine as a program sees it whose effects are some of its own. -/
def seen {O' : Type} {R' : O' → Type} (M : Machine O' R' W) (ι : O → O')
    (back : ∀ op, R' (ι op) → R op) : Machine O R W where
  exec p w op r w' := ∃ r', back op r' = r ∧ M.exec p w (ι op) r' w'
  owns := M.owns
  release := M.release
  power := M.power

/-- A complete run of the program is a complete run of what it was made of. -/
theorem runs_within {O' : Type} {R' : O' → Type} {M : Machine O' R' W} {ι : O → O'}
    {back : ∀ op, R' (ι op) → R op} {Q : W → O' → Prop} {p : Nat} {α : Type} {m : Prog O R α}
    {w w' : W} {a : α} : M.Runs Q p (m.within ι back) w (.ret a) w' ↔
      (M.seen ι back).Runs (fun w op => Q w (ι op)) p m w (.ret a) w' := by
  constructor
  · intro h
    generalize hm : m.within ι back = m' at h
    generalize hr : (Prog.ret a : Prog O' R' α) = last at h
    induction h generalizing m with
    | refl =>
      subst hr
      cases m with
      | ret b => cases hm; exact .refl
      | call op k => cases hm
    | step r hq hx _ ih =>
      cases m with
      | ret b => cases hm
      | call op k =>
        cases hm
        exact .step (back op r) hq ⟨r, rfl, hx⟩ (ih rfl hr)
  · intro h
    generalize hr : (Prog.ret a : Prog O R α) = last at h
    induction h with
    | refl => subst hr; exact .refl
    | step r hq hx _ ih =>
      obtain ⟨r', rfl, hx⟩ := hx
      exact .step r' hq hx (ih hr)

/-! Complete runs: every effect of a program, up to what it returns. -/

section Complete
variable {α β : Type} {M : Machine O R W} {Q : W → O → Prop} {p : Nat} {w w' : W}

theorem runs_ret {a : α} {b : α} : M.Runs Q p (.ret a) w (.ret b) w' ↔ b = a ∧ w' = w := by
  constructor
  · intro h; cases h; exact ⟨rfl, rfl⟩
  · intro h
    obtain ⟨rfl, rfl⟩ := h
    exact .refl

theorem runs_call {op : O} {k : R op → Prog O R α} {a : α} :
    M.Runs Q p (.call op k) w (.ret a) w' ↔
      ∃ r w₁, Q w op ∧ M.exec p w op r w₁ ∧ M.Runs Q p (k r) w₁ (.ret a) w' := by
  constructor
  · intro h; cases h with | step r hq hx h => exact ⟨r, _, hq, hx, h⟩
  · intro h
    obtain ⟨r, w₁, hq, hx, h⟩ := h
    exact .step r hq hx h

theorem runs_bind {m : Prog O R α} {f : α → Prog O R β} {b : β} :
    M.Runs Q p (m.bind f) w (.ret b) w' ↔
      ∃ a w₁, M.Runs Q p m w (.ret a) w₁ ∧ M.Runs Q p (f a) w₁ (.ret b) w' := by
  constructor
  · intro h
    induction m generalizing w with
    | ret a => exact ⟨a, w, .refl, h⟩
    | call op k ih =>
      obtain ⟨r, w₁, hq, hx, h⟩ := runs_call.mp h
      obtain ⟨a, w₂, h₁, h₂⟩ := ih r h
      exact ⟨a, w₂, .step r hq hx h₁, h₂⟩
  · intro h
    obtain ⟨a, w₁, h₁, h₂⟩ := h
    exact (h₁.bind f).trans h₂

/-- The program has one complete run, which returns `a` and leaves `w'`. -/
def Does (M : Machine O R W) (Q : W → O → Prop) (p : Nat) (m : Prog O R α) (w : W) (a : α)
    (w' : W) : Prop :=
  ∀ b u, M.Runs Q p m w (.ret b) u ↔ b = a ∧ u = w'

theorem does_ret {a : α} : M.Does Q p (.ret a) w a w := fun _ _ => runs_ret

/-- Whatever the effect is answered, the rest does the same. -/
theorem does_call {op : O} {k : R op → Prog O R α} {a : α} (hq : Q w op)
    (hx : ∃ r u, M.exec p w op r u)
    (h : ∀ r u, M.exec p w op r u → M.Does Q p (k r) u a w') : M.Does Q p (.call op k) w a w' := by
  intro b u
  constructor
  · intro hr
    obtain ⟨r, w₁, -, hx, hk⟩ := runs_call.mp hr
    exact (h r w₁ hx b u).mp hk
  · intro he
    obtain ⟨r, w₁, hx⟩ := hx
    exact runs_call.mpr ⟨r, w₁, hq, hx, (h r w₁ hx b u).mpr he⟩

theorem does_bind {m : Prog O R α} {f : α → Prog O R β} {a : α} {b : β} {w₁ : W}
    (hm : M.Does Q p m w a w₁) (hf : M.Does Q p (f a) w₁ b w') :
    M.Does Q p (m.bind f) w b w' := by
  intro b' u
  rw [runs_bind, ← hf b' u]
  constructor
  · intro hr
    obtain ⟨a', w₂, hm', hf'⟩ := hr
    obtain ⟨rfl, rfl⟩ := (hm a' w₂).mp hm'
    exact hf'
  · intro hf'
    exact ⟨a, w₁, (hm a w₁).mpr ⟨rfl, rfl⟩, hf'⟩

theorem does_within {O' : Type} {R' : O' → Type} {M : Machine O' R' W} {ι : O → O'}
    {back : ∀ op, R' (ι op) → R op} {Q : W → O' → Prop} {m : Prog O R α} {a : α}
    (h : (M.seen ι back).Does (fun w op => Q w (ι op)) p m w a w') :
    M.Does Q p (m.within ι back) w a w' := fun b u => runs_within.trans (h b u)

theorem Does.runs {m : Prog O R α} {a : α} (h : M.Does Q p m w a w') :
    M.Runs Q p m w (.ret a) w' := (h a w').mpr ⟨rfl, rfl⟩

/-- A complete run is a way to answer the effects. -/
theorem Runs.yields {m : Prog O R α} {S : (op : O) → R op → Prop} {a : α}
    (h : (M.restrict S).Runs Q p m w (.ret a) w') : Prog.Yields S m a := by
  induction m generalizing w with
  | ret b => exact Prog.yields_ret.mpr (runs_ret.mp h).1
  | call op k ih =>
    obtain ⟨r, w₁, -, hx, h⟩ := runs_call.mp h
    exact .call r hx.1 (ih r h)

end Complete

/-- What a process does on its own, the system can do, with the other processes
where they are. -/
theorem reaches_runs_among {M : Machine O R W} {A : Api O R W Obj Call Rep} {init : W → Prop}
    {G : Sys O R W Obj Call Rep → Act → Prop} {Q : W → O → Prop} {p : Nat} {c : Call}
    {m m' : Prog O R (Option Obj × Rep)} {w w' : W} (h : M.Runs Q p m w m' w')
    {procs : Nat → Proc O R Obj Call Rep}
    (hG : ∀ op k w, Q w op → G ⟨w, Function.update procs p (.busy c (.call op k))⟩ (.exec p)) :
    ((M.system A init).guard G).Reaches ⟨w, Function.update procs p (.busy c m)⟩
      ⟨w', Function.update procs p (.busy c m')⟩ := by
  induction h with
  | refl => exact .refl
  | @step op k m' w w₁ w₂ r hq hx _ ih =>
    have hs : M.Step A ⟨w, Function.update procs p (.busy c (.call op k))⟩ (.exec p)
        ⟨w₁, Function.update (Function.update procs p (.busy c (.call op k))) p (.busy c (k r))⟩ :=
      .exec (Function.update_self ..) hx
    rw [Function.update_idem] at hs
    exact Relation.ReflTransGen.head ⟨.exec p, hG _ _ _ hq, hs⟩ ih

/-- A call is made. -/
theorem reaches_busy {M : Machine O R W} {A : Api O R W Obj Call Rep} {init : W → Prop}
    {G : Sys O R W Obj Call Rep → Act → Prop} {p : Nat} {o : Option Obj} {c : Call}
    {m : Prog O R (Option Obj × Rep)} {w : W} (hm : A.run o c = some m)
    {procs : Nat → Proc O R Obj Call Rep} (hp : (procs p).object = some o)
    (hG : G ⟨w, procs⟩ (.call p)) :
    ((M.system A init).guard G).Reaches ⟨w, procs⟩ ⟨w, Function.update procs p (.busy c m)⟩ :=
  .step (.call p) ⟨hG, .call hp hm⟩

/-- A call returns. -/
theorem reaches_returned {M : Machine O R W} {A : Api O R W Obj Call Rep} {init : W → Prop}
    {G : Sys O R W Obj Call Rep → Act → Prop} {p : Nat} {o : Option Obj} {c : Call} {r : Rep}
    {w : W} {procs : Nat → Proc O R Obj Call Rep}
    (hG : G ⟨w, Function.update procs p (.busy c (.ret (o, r)))⟩ (.ret p)) :
    ((M.system A init).guard G).Reaches ⟨w, Function.update procs p (.busy c (.ret (o, r)))⟩
      ⟨M.finish A p c o r w, Function.update procs p (.ofResult o)⟩ := by
  have hs : M.Step A ⟨w, Function.update procs p (.busy c (.ret (o, r)))⟩ (.ret p) _ :=
    .ret (c := c) (o := o) (r := r) (Function.update_self ..)
  rw [Function.update_idem] at hs
  exact .step (.ret p) ⟨hG, hs⟩

theorem reachable_runs_among {M : Machine O R W} {A : Api O R W Obj Call Rep} {init : W → Prop}
    {G : Sys O R W Obj Call Rep → Act → Prop} {Q : W → O → Prop} {p : Nat} {c : Call}
    {m m' : Prog O R (Option Obj × Rep)} {w w' : W} (h : M.Runs Q p m w m' w')
    {procs : Nat → Proc O R Obj Call Rep}
    (hG : ∀ op k w, Q w op → G ⟨w, Function.update procs p (.busy c (.call op k))⟩ (.exec p))
    (hr : ((M.system A init).guard G).Reachable ⟨w, Function.update procs p (.busy c m)⟩) :
    ((M.system A init).guard G).Reachable ⟨w', Function.update procs p (.busy c m')⟩ :=
  hr.reaches (reaches_runs_among h hG)

theorem reachable_busy {M : Machine O R W} {A : Api O R W Obj Call Rep} {init : W → Prop}
    {G : Sys O R W Obj Call Rep → Act → Prop} {p : Nat} {o : Option Obj} {c : Call}
    {m : Prog O R (Option Obj × Rep)} {w : W} (hm : A.run o c = some m)
    {procs : Nat → Proc O R Obj Call Rep} (hp : (procs p).object = some o)
    (hG : G ⟨w, procs⟩ (.call p)) (hr : ((M.system A init).guard G).Reachable ⟨w, procs⟩) :
    ((M.system A init).guard G).Reachable ⟨w, Function.update procs p (.busy c m)⟩ :=
  hr.reaches (reaches_busy hm hp hG)

theorem reachable_returned {M : Machine O R W} {A : Api O R W Obj Call Rep} {init : W → Prop}
    {G : Sys O R W Obj Call Rep → Act → Prop} {p : Nat} {o : Option Obj} {c : Call} {r : Rep}
    {w : W} {procs : Nat → Proc O R Obj Call Rep}
    (hG : G ⟨w, Function.update procs p (.busy c (.ret (o, r)))⟩ (.ret p))
    (hr : ((M.system A init).guard G).Reachable
      ⟨w, Function.update procs p (.busy c (.ret (o, r)))⟩) :
    ((M.system A init).guard G).Reachable
      ⟨M.finish A p c o r w, Function.update procs p (.ofResult o)⟩ :=
  hr.reaches (reaches_returned hG)

/-- A whole call, from the moment it is made until it has returned. -/
theorem reachable_call_among {M : Machine O R W} {A : Api O R W Obj Call Rep} {init : W → Prop}
    {G : Sys O R W Obj Call Rep → Act → Prop} {Q : W → O → Prop} {p : Nat} {o o' : Option Obj}
    {c : Call} {r : Rep} {m : Prog O R (Option Obj × Rep)} {w w' : W}
    (h : M.Runs Q p m w (.ret (o', r)) w') (hm : A.run o c = some m)
    {procs : Nat → Proc O R Obj Call Rep} (hp : (procs p).object = some o)
    (hG : ∀ op k w, Q w op → G ⟨w, Function.update procs p (.busy c (.call op k))⟩ (.exec p))
    (hcall : G ⟨w, procs⟩ (.call p))
    (hret : G ⟨w', Function.update procs p (.busy c (.ret (o', r)))⟩ (.ret p))
    (hr : ((M.system A init).guard G).Reachable ⟨w, procs⟩) :
    ((M.system A init).guard G).Reachable
      ⟨M.finish A p c o' r w', Function.update procs p (.ofResult o')⟩ :=
  reachable_returned hret (reachable_runs_among h hG (reachable_busy hm hp hcall hr))

/-- The same where the condition does not ask about the other processes. -/
theorem reachable_call {M : Machine O R W} {A : Api O R W Obj Call Rep} {init : W → Prop}
    {G : Sys O R W Obj Call Rep → Act → Prop} {Q : W → O → Prop} {p : Nat} {o o' : Option Obj}
    {c : Call} {r : Rep} {m : Prog O R (Option Obj × Rep)} {w w' : W}
    (h : M.Runs Q p m w (.ret (o', r)) w') (hm : A.run o c = some m)
    {procs : Nat → Proc O R Obj Call Rep} (hp : (procs p).object = some o)
    (hG : ∀ op k w procs, Q w op → procs p = .busy c (.call op k) → G ⟨w, procs⟩ (.exec p))
    (hcall : ∀ s, G s (.call p)) (hret : ∀ s, G s (.ret p))
    (hr : ((M.system A init).guard G).Reachable ⟨w, procs⟩) :
    ((M.system A init).guard G).Reachable
      ⟨M.finish A p c o' r w', Function.update procs p (.ofResult o')⟩ :=
  reachable_call_among h hm hp (fun _ _ _ hq => hG _ _ _ _ hq (Function.update_self ..)) (hcall _)
    (hret _) hr

/-- A complete call, where nothing restricts the steps. -/
theorem reachable_done {M : Machine O R W} {A : Api O R W Obj Call Rep} {init : W → Prop}
    {Q : W → O → Prop} {p : Nat} {o o' : Option Obj} {c : Call} {r : Rep}
    {m : Prog O R (Option Obj × Rep)} {s : Sys O R W Obj Call Rep} {w' : W}
    (h : M.Runs Q p m s.world (.ret (o', r)) w') (hm : A.run o c = some m)
    (hp : (s.procs p).object = some o) (hr : (M.system A init).Reachable s) :
    (M.system A init).Reachable
      ⟨M.finish A p c o' r w', Function.update s.procs p (.ofResult o')⟩ :=
  (reachable_call h hm hp (fun _ _ _ _ _ _ => trivial) (fun _ => trivial) (fun _ => trivial)
    (hr.to_guard (G := fun _ _ => True) fun _ _ => trivial)).of_guard

/-! ## Weakest preconditions with a crash invariant -/

/-- What the other processes may do between two effects of `p`: nothing while
`p` owns the lock, anything inside `C` while it does not. -/
def Env (M : Machine O R W) (C : W → Prop) (p : Nat) (w w' : W) : Prop :=
  w' = w ∨ (¬ M.owns p w ∧ ¬ M.owns p w' ∧ C w')

/-- What a move of `p` must respect: the world of another lock owner, and who
the other owners are. -/
def Guar (M : Machine O R W) (p : Nat) (w w' : W) : Prop :=
  ∀ q, q ≠ p → (M.owns q w → w' = w) ∧ (M.owns q w' → M.owns q w)

def wp {α : Type} (M : Machine O R W) (C : W → Prop) (p : Nat) :
    Prog O R α → (α → W → Prop) → W → Prop
  | .ret a, Q, w => C w ∧ ∀ w', M.Env C p w w' → Q a w'
  | .call op k, Q, w => C w ∧ ∀ w', M.Env C p w w' → ∀ r w'', M.exec p w' op r w'' →
      M.Guar p w' w'' ∧ M.wp C p (k r) Q w''

variable {M : Machine O R W} {C : W → Prop} {p : Nat} {α β : Type}

theorem Env.refl {w : W} : M.Env C p w w := .inl rfl

theorem Env.trans {u v w : W} (h : M.Env C p u v) (h' : M.Env C p v w) : M.Env C p u w := by
  rcases h with rfl | ⟨hu, hv, hc⟩
  · exact h'
  · rcases h' with rfl | ⟨-, hw, hc'⟩
    · exact .inr ⟨hu, hv, hc⟩
    · exact .inr ⟨hu, hw, hc'⟩

/-- The lock owner sees no interference. -/
theorem Env.eq_of_owns {w w' : W} (h : M.Env C p w w') (ho : M.owns p w) : w' = w := by
  rcases h with rfl | ⟨hn, -, -⟩
  · rfl
  · exact absurd ho hn

theorem Guar.refl {w : W} : M.Guar p w w := fun _ _ => ⟨fun _ => rfl, id⟩

theorem wp_inv {m : Prog O R α} {Q : α → W → Prop} {w : W} (h : M.wp C p m Q w) : C w := by
  cases m <;> exact h.1

theorem wp_env {m : Prog O R α} {Q : α → W → Prop} {w w' : W} (h : M.wp C p m Q w)
    (he : M.Env C p w w') (hc : C w') : M.wp C p m Q w' := by
  cases m with
  | ret a => exact ⟨hc, fun w'' h' => h.2 w'' (he.trans h')⟩
  | call op k => exact ⟨hc, fun w'' h' => h.2 w'' (he.trans h')⟩

theorem wp_mono {m : Prog O R α} {Q Q' : α → W → Prop} {w : W} (h : M.wp C p m Q w)
    (hq : ∀ a w, Q a w → Q' a w) : M.wp C p m Q' w := by
  induction m generalizing w with
  | ret a => exact ⟨h.1, fun w' he => hq a w' (h.2 w' he)⟩
  | call op k ih =>
    refine ⟨h.1, fun w' he r w'' hx => ?_⟩
    obtain ⟨hg, hk⟩ := h.2 w' he r w'' hx
    exact ⟨hg, ih r hk⟩

/-- Sequencing. The intermediate world satisfies the crash invariant as well
as the intermediate postcondition. -/
theorem wp_bind {m : Prog O R α} {f : α → Prog O R β} {Q : β → W → Prop} {w : W}
    (h : M.wp C p m (fun a w' => C w' → M.wp C p (f a) Q w') w) :
    M.wp C p (m.bind f) Q w := by
  induction m generalizing w with
  | ret a => exact h.2 w .refl h.1
  | call op k ih =>
    refine ⟨h.1, fun w' he r w'' hx => ?_⟩
    obtain ⟨hg, hk⟩ := h.2 w' he r w'' hx
    exact ⟨hg, ih r hk⟩

theorem wp_ret {a : α} {Q : α → W → Prop} {w : W} (hc : C w) (ho : M.owns p w) (h : Q a w) :
    M.wp C p (.ret a) Q w := by
  refine ⟨hc, fun w' he => ?_⟩
  obtain rfl := he.eq_of_owns ho
  exact h

/-- What a program guarantees, a run of it that nobody interrupts delivers. -/
theorem wp_runs {m : Prog O R α} {Q : α → W → Prop} {Q' : W → O → Prop} {a : α} {w w' : W}
    (h : M.wp C p m Q w) (hr : M.Runs Q' p m w (.ret a) w') : Q a w' := by
  induction m generalizing w with
  | ret b =>
    obtain ⟨rfl, rfl⟩ := runs_ret.mp hr
    exact h.2 _ .refl
  | call op k ih =>
    obtain ⟨r, w₁, -, hx, hr⟩ := runs_call.mp hr
    exact ih r (h.2 w .refl r w₁ hx).2 hr

end Machine

/-! ## The rule -/

section Rule
variable {O : Type} {R : O → Type} {W Obj Call Rep : Type}

/-- What a call must leave when it returns `x`. -/
structure Done (M : Machine O R W) (A : Api O R W Obj Call Rep) (C : W → Prop)
    (Holds : Obj → W → Prop) (p : Nat) (c : Call) (x : Option Obj × Rep) (w : W) : Prop where
  inv : C (M.finish A p c x.1 x.2 w)
  guar : M.Guar p w (M.finish A p c x.1 x.2 w)
  gone : x.1 = none → ¬ M.owns p (M.finish A p c x.1 x.2 w)
  held : ∀ o, x.1 = some o →
    M.owns p (M.finish A p c x.1 x.2 w) ∧ Holds o (M.finish A p c x.1 x.2 w)

/-- A proof outline for an API over a machine: a crash invariant, what a held
object means, and the fact that every call meets the outline. -/
structure Outline (M : Machine O R W) (A : Api O R W Obj Call Rep) where
  C : W → Prop
  Holds : Obj → W → Prop
  release_inv : ∀ p w, C w → C (M.release p w)
  release_owns : ∀ p q w, M.owns q (M.release p w) → q ≠ p ∧ M.owns q w
  release_other : ∀ p w, ¬ M.owns p w → M.release p w = w
  exclusive : ∀ p q w, M.owns p w → M.owns q w → p = q
  power_inv : ∀ w w', C w → M.power w w' → C w'
  power_owns : ∀ p w w', M.power w w' → ¬ M.owns p w'
  construct : ∀ p c m w, A.run none c = some m → C w → ¬ M.owns p w →
    M.wp C p m (Done M A C Holds p c) w
  method : ∀ p c m o w, A.run (some o) c = some m → C w → M.owns p w → Holds o w →
    M.wp C p m (Done M A C Holds p c) w

namespace Outline
variable {M : Machine O R W} {A : Api O R W Obj Call Rep}

/-- What the outline says about one process. -/
def ProcOk (T : Outline M A) (p : Nat) (w : W) : Proc O R Obj Call Rep → Prop
  | .idle => ¬ M.owns p w
  | .live o => M.owns p w ∧ T.Holds o w
  | .busy c m => M.wp T.C p m (Done M A T.C T.Holds p c) w

def Inv (T : Outline M A) (s : Sys O R W Obj Call Rep) : Prop :=
  T.C s.world ∧ ∀ p, T.ProcOk p s.world (s.procs p)

/-- A move of `p` that respects the other lock owner leaves what the outline
says about any other process. -/
theorem procOk_other (T : Outline M A) {p q : Nat} (hq : q ≠ p) {w w' : W}
    (hg : M.Guar p w w') (hc : T.C w') {x : Proc O R Obj Call Rep} (h : T.ProcOk q w x) :
    T.ProcOk q w' x := by
  obtain ⟨hkeep, hown⟩ := hg q hq
  by_cases ho : M.owns q w
  · rw [hkeep ho]; exact h
  · have ho' : ¬ M.owns q w' := fun h' => ho (hown h')
    cases x with
    | idle => exact ho'
    | live o => exact absurd h.1 ho
    | busy c m => exact Machine.wp_env h (.inr ⟨ho, ho', hc⟩) hc

theorem inv_update (T : Outline M A) {s : Sys O R W Obj Call Rep} (hi : T.Inv s) {p : Nat} {w : W}
    (hc : T.C w) (hg : M.Guar p s.world w) {x : Proc O R Obj Call Rep} (hx : T.ProcOk p w x) :
    T.Inv ⟨w, Function.update s.procs p x⟩ := by
  refine ⟨hc, fun q => ?_⟩
  by_cases hq : q = p
  · subst hq; simpa using hx
  · simpa [Function.update_of_ne hq] using T.procOk_other hq hg hc (hi.2 q)

theorem release_guar (T : Outline M A) (p : Nat) (w : W) : M.Guar p w (M.release p w) := by
  intro q hq
  refine ⟨fun ho => T.release_other p w fun hp => hq (T.exclusive q p w ho hp), fun ho => ?_⟩
  exact (T.release_owns p q w ho).2

theorem inv_step (T : Outline M A) (s : Sys O R W Obj Call Rep) (a : Act)
    (s' : Sys O R W Obj Call Rep) (hi : T.Inv s) (hs : M.Step A s a s') : T.Inv s' := by
  cases hs with
  | @call p o c m ho hm =>
    refine T.inv_update hi hi.1 .refl ?_
    have hp := hi.2 p
    cases hx : s.procs p with
    | idle =>
      rw [hx] at ho hp; cases ho
      exact T.construct p c m s.world hm hi.1 hp
    | live o' =>
      rw [hx] at ho hp; cases ho
      exact T.method p c m o' s.world hm hi.1 hp.1 hp.2
    | busy c' m' => rw [hx] at ho; cases ho
  | @exec p c op k r w hp hx =>
    have h := hi.2 p
    rw [hp] at h
    obtain ⟨hg, hk⟩ := h.2 s.world .refl r w hx
    exact T.inv_update hi (Machine.wp_inv hk) hg hk
  | @ret p c o r hp =>
    have h := hi.2 p
    rw [hp] at h
    have hd := h.2 s.world .refl
    refine T.inv_update hi hd.inv hd.guar ?_
    cases o with
    | none => exact hd.gone rfl
    | some o => exact hd.held o rfl
  | @drop p o hp =>
    exact T.inv_update hi (T.release_inv p _ hi.1) (T.release_guar p _)
      fun ho => (T.release_owns p p _ ho).1 rfl
  | @kill p =>
    exact T.inv_update hi (T.release_inv p _ hi.1) (T.release_guar p _)
      fun ho => (T.release_owns p p _ ho).1 rfl
  | @power w hw => exact ⟨T.power_inv _ _ hi.1 hw, fun p => T.power_owns p _ _ hw⟩

/-- **The rule.** From an initial world that satisfies the crash invariant and
in which nobody owns the lock, the outline holds in every reachable state. -/
theorem reachable (T : Outline M A) {init : W → Prop} (h0 : ∀ w, init w → T.C w)
    (hl : ∀ p w, init w → ¬ M.owns p w) (s : Sys O R W Obj Call Rep)
    (hr : (M.system A init).Reachable s) : T.Inv s := by
  have hI : (M.system A init).Inductive T.Inv := by
    refine ⟨?_, T.inv_step⟩
    rintro s ⟨hw, hp⟩
    refine ⟨h0 _ hw, fun p => ?_⟩
    rw [hp]
    exact hl p _ hw
  exact hI.reachable s hr

end Outline
end Rule
end Drot
