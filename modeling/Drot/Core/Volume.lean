import Drot.Core.Disk

/-!
# A directory that several processes share

Names, inodes and contents, as running processes see them. An open file is its
inode: files here are read whole and written from the start. `Shelf` is what a
directory keeps in which one name is only ever replaced by renaming a temporary
over it: the files placed under that name stay as they were placed, also for a
process that opened one before it was replaced, and the temporary is none of
them. It survives as long as no two processes are between creating the temporary
and renaming it; `Shelf.create`, `Shelf.write` and `Shelf.rename` are the steps of
the one that is.
-/
namespace Drot

inductive VolOp (P : Type) where
  | openFile (q : P)
  | readToEnd (i : Nat)
  | create (q : P)               -- create + truncate
  | writeAll (i : Nat) (bs : Bytes)
  | syncAll (i : Nat)
  | rename (a b : P)
  | syncDir

@[reducible] def VolRes {P : Type} : VolOp P → Type
  | .openFile _ => Nat
  | .readToEnd _ => Bytes
  | .create _ => Nat
  | .writeAll _ _ => Unit
  | .syncAll _ => Unit
  | .rename _ _ => Unit
  | .syncDir => Unit

structure Volume (P : Type) where
  dir : P → Option Nat
  inode : Nat → Bytes
  fresh : Nat             -- inodes from here on were never used

namespace Volume
variable {P : Type}

def empty : Volume P := ⟨fun _ => none, fun _ => [], 0⟩

def setFile (v : Volume P) (i : Nat) (bs : Bytes) : Volume P :=
  { v with inode := Function.update v.inode i bs }

variable [DecidableEq P]

/-- The inode a new file gets: the one its name has, or a fresh one. -/
def createIno (v : Volume P) (q : P) : Nat := (v.dir q).getD v.fresh

def createAt (v : Volume P) (q : P) : Volume P :=
  match v.dir q with
  | some i => v.setFile i []
  | none => { dir := Function.update v.dir q (some v.fresh),
              inode := Function.update v.inode v.fresh [], fresh := v.fresh + 1 }

def renamed (v : Volume P) (a b : P) (i : Nat) : Volume P :=
  { v with dir := Function.update (Function.update v.dir a none) b (some i) }

/-- What an operation may answer and leave. A failed write may leave anything in
its file. -/
def exec (v : Volume P) : (op : VolOp P) → Except IoError (VolRes op) → Volume P → Prop
  | .openFile q, .ok i, v' => v.dir q = some i ∧ v' = v
  | .openFile _, .error _, v' => v' = v
  | .readToEnd i, .ok bs, v' => bs = v.inode i ∧ v' = v
  | .readToEnd _, .error _, v' => v' = v
  | .create q, .ok i, v' => i = v.createIno q ∧ v' = v.createAt q
  | .create _, .error _, v' => v' = v
  | .writeAll i bs, .ok _, v' => v' = v.setFile i (bs ++ (v.inode i).drop bs.length)
  | .writeAll i _, .error _, v' => ∃ bs', v' = v.setFile i bs'
  | .syncAll _, _, v' => v' = v
  | .rename a b, .ok _, v' => ∃ i, v.dir a = some i ∧ v' = v.renamed a b i
  | .rename _ _, .error _, v' => v' = v
  | .syncDir, _, v' => v' = v

theorem createAt_dir (v : Volume P) (q : P) : (v.createAt q).dir q = some (v.createIno q) := by
  unfold createAt createIno
  cases hd : v.dir q with
  | some i => exact hd
  | none => exact Function.update_self ..

/-- What was created is empty. -/
theorem createAt_inode (v : Volume P) (q : P) : (v.createAt q).inode (v.createIno q) = [] := by
  unfold createAt createIno
  cases hd : v.dir q with
  | some i => exact Function.update_self ..
  | none => exact Function.update_self ..

/-- `placed` are the inodes and contents the name `path` has had, in this order. -/
structure Shelf (tmp path : P) (placed : List (Nat × Bytes)) (v : Volume P) : Prop where
  current : v.dir path = placed.getLast?.map Prod.fst
  kept : ∀ x ∈ placed, v.inode x.1 = x.2 ∧ x.1 < v.fresh
  apart : ∀ i, v.dir tmp = some i → i < v.fresh ∧ ∀ x ∈ placed, x.1 ≠ i

variable {tmp path : P} {placed : List (Nat × Bytes)} {v : Volume P}

omit [DecidableEq P] in
theorem shelf_empty : Shelf tmp path [] (empty : Volume P) := by
  refine ⟨rfl, ?_, ?_⟩
  · intro x hx; cases hx
  · intro i hi; cases hi

theorem Shelf.create (hne : tmp ≠ path) (h : Shelf tmp path placed v) :
    Shelf tmp path placed (v.createAt tmp) ∧
      (v.createAt tmp).inode (v.createIno tmp) = [] := by
  cases hd : v.dir tmp with
  | some i =>
    have e : v.createAt tmp = v.setFile i [] := by rw [createAt, hd]
    have hi : v.createIno tmp = i := by rw [createIno, hd]; rfl
    obtain ⟨hlt, hap⟩ := h.apart i hd
    rw [e, hi]
    refine ⟨⟨h.current, fun x hx => ?_, h.apart⟩, Function.update_self ..⟩
    obtain ⟨hc, hf⟩ := h.kept x hx
    exact ⟨(Function.update_of_ne (hap x hx) ..).trans hc, hf⟩
  | none =>
    have e : v.createAt tmp = ⟨Function.update v.dir tmp (some v.fresh),
        Function.update v.inode v.fresh [], v.fresh + 1⟩ := by rw [createAt, hd]
    have hi : v.createIno tmp = v.fresh := by rw [createIno, hd]; rfl
    rw [e, hi]
    refine ⟨⟨(Function.update_of_ne (Ne.symm hne) ..).trans h.current, fun x hx => ?_,
      fun i hdir => ?_⟩, Function.update_self ..⟩
    · obtain ⟨hc, hf⟩ := h.kept x hx
      exact ⟨(Function.update_of_ne (Nat.ne_of_lt hf) ..).trans hc, Nat.lt_succ_of_lt hf⟩
    · simp only [Function.update_self, Option.some.injEq] at hdir
      subst hdir
      exact ⟨Nat.lt_succ_self _, fun x hx => Nat.ne_of_lt (h.kept x hx).2⟩

omit [DecidableEq P] in
/-- Whatever lands in the temporary. -/
theorem Shelf.write {i : Nat} (h : Shelf tmp path placed v) (hi : v.dir tmp = some i)
    (bs : Bytes) : Shelf tmp path placed (v.setFile i bs) := by
  refine ⟨h.current, fun x hx => ?_, h.apart⟩
  obtain ⟨hc, hf⟩ := h.kept x hx
  exact ⟨(Function.update_of_ne ((h.apart i hi).2 x hx) ..).trans hc, hf⟩

theorem Shelf.rename (hne : tmp ≠ path) {i : Nat} (h : Shelf tmp path placed v)
    (hi : v.dir tmp = some i) :
    Shelf tmp path (placed ++ [(i, v.inode i)]) (v.renamed tmp path i) := by
  refine ⟨?_, fun x hx => ?_, fun j hj => ?_⟩
  · simp [renamed]
  · rcases List.mem_append.mp hx with hx | hx
    · exact h.kept x hx
    · rw [List.mem_singleton.mp hx]
      exact ⟨rfl, (h.apart i hi).1⟩
  · have hnone : (v.renamed tmp path i).dir tmp = none := by
      simp [renamed, Function.update_of_ne hne]
    rw [hnone] at hj
    cases hj

omit [DecidableEq P] in
/-- A process that opens the name opens a file that was placed under it. -/
theorem Shelf.opened {i : Nat} (h : Shelf tmp path placed v) (hi : v.dir path = some i) :
    ∃ bs, (i, bs) ∈ placed := by
  rw [h.current] at hi
  obtain ⟨x, hx, rfl⟩ := Option.map_eq_some_iff.mp hi
  exact ⟨x.2, List.mem_of_getLast? hx⟩

omit [DecidableEq P] in
/-- What it reads later was placed there, whatever was placed in between. -/
theorem Shelf.reads {i : Nat} {placed' : List (Nat × Bytes)} {v' : Volume P}
    (h : Shelf tmp path placed v) (hi : v.dir path = some i) (hp : placed <+: placed')
    (h' : Shelf tmp path placed' v') : (i, v'.inode i) ∈ placed' := by
  obtain ⟨bs, hmem⟩ := h.opened hi
  have hmem' := hp.subset hmem
  rw [(h'.kept _ hmem').1]
  exact hmem'

omit [DecidableEq P] in
/-- It is the file that was placed last when the name was opened. -/
theorem Shelf.reads_last {i : Nat} {placed' : List (Nat × Bytes)} {v' : Volume P}
    (h : Shelf tmp path placed v) (hi : v.dir path = some i) (hp : placed <+: placed')
    (h' : Shelf tmp path placed' v') :
    (placed'.take placed.length).getLast?.map Prod.snd = some (v'.inode i) := by
  rw [h.current] at hi
  obtain ⟨x, hx, rfl⟩ := Option.map_eq_some_iff.mp hi
  have hmem := hp.subset (List.mem_of_getLast? hx)
  rw [(h'.kept x hmem).1, ← List.prefix_iff_eq_take.mp hp, hx]
  rfl

end Volume
end Drot
