import Drot.Core.Disk

/-!
# Reading a file whole, and replacing it atomically

`readFile` is `std::fs::read`. `atomicReplace` is the sequence every durable state
file of the development is installed with: create a temporary, write it, sync it,
rename it over the target, sync the directory. `Scratch` is what the steps before
the rename may leave, `Replaced` what the rename leaves and `Installed` what the
directory sync adds; `wp_atomicReplace` is the one proof that these are all the crash
points there are. `Tidy` is the condition under which truncating a leftover temporary
cannot reach a file the target name may still come back to.
-/
namespace Drot

section
variable {P E : Type} {X : E → Type} {Rep : Type} [DecidableEq P]

def atomicReplace {ε : Type} (conv : IoError → ε) (tmp path : P) (bs : Bytes) :
    ExceptT ε (Prog (Op P E) (Ans X)) Nat := do
  let f ← io conv (.create tmp) id
  io conv (.write f bs) id
  io conv (.sync f) id
  io conv (.rename tmp path) id
  io conv .openDir id
  io conv .syncDir id
  return f

/-- Open and read; the caller sees either error. -/
def readFile {ε : Type} (conv : IoError → ε) (path : P) :
    ExceptT ε (Prog (Op P E) (Ans X)) (Except IoError Bytes) := do
  match ← io conv (.openFile path) .ok with
  | .error e => return .error e
  | .ok h => io conv (.readToEnd h) .ok

omit [DecidableEq P] in
/-- In no state the directory may come back to does the temporary name share
its inode with the target, and the current temporary is nowhere the target. -/
structure Tidy (tmp path : P) (d : Disk P) : Prop where
  path_lt : ∀ m ∈ d.dir.all, ∀ i, m path = some i → i < d.fresh
  tmp_lt : ∀ m ∈ d.dir.all, ∀ i, m tmp = some i → i < d.fresh
  own : ∀ m ∈ d.dir.all, ∀ i, m tmp = some i → m path ≠ some i
  apart : ∀ i, d.lookup tmp = some i → ∀ m ∈ d.dir.all, m path ≠ some i

omit [DecidableEq P] in
/-- A power failure leaves a tidy directory tidy. -/
theorem Tidy.power {F : Faults} {tmp path : P} {d d' : Disk P} (h : Tidy tmp path d)
    (hp : Disk.powerFail F d d') : Tidy tmp path d' := by
  obtain ⟨⟨m, hm, hdir⟩, -, hfresh, -⟩ := hp
  have hall : ∀ m' ∈ d'.dir.all, m' = m := by rw [hdir]; simp
  have hvis : d'.dir.visible = m := by rw [hdir]; rfl
  refine ⟨?_, ?_, ?_, ?_⟩
  · intro m' hm'; rw [hall m' hm', hfresh]; exact h.path_lt m hm
  · intro m' hm'; rw [hall m' hm', hfresh]; exact h.tmp_lt m hm
  · intro m' hm'; rw [hall m' hm']; exact h.own m hm
  · intro i hi m' hm'
    rw [Disk.lookup, hvis] at hi
    rw [hall m' hm']
    exact h.own m hm i hi

/-- The target name and every file it may refer to are as before. -/
structure Scratch (tmp path : P) (d d' : Disk P) : Prop where
  tidy : Tidy tmp path d'
  look : d'.lookup path = d.lookup path
  names : ∀ m' ∈ d'.dir.all, ∃ m ∈ d.dir.all, m' path = m path
  files : ∀ m ∈ d.dir.all, ∀ i, m path = some i → d'.inode i = d.inode i

/-- The target name refers to a new file that holds `bs`, all of it synced; the
directory may still come back to an earlier file. -/
structure Replaced (tmp path : P) (bs : Bytes) (i : Nat) (d d' : Disk P) : Prop where
  tidy : Tidy tmp path d'
  look : d'.lookup path = some i
  new : ∀ m ∈ d.dir.all, m path ≠ some i
  file : d'.inode i = (File.writeAt [] 0 bs).sync
  names : ∀ m' ∈ d'.dir.all, m' path = some i ∨ ∃ m ∈ d.dir.all, m' path = m path
  files : ∀ m ∈ d.dir.all, ∀ j, m path = some j → d'.inode j = d.inode j

structure Installed (tmp path : P) (bs : Bytes) (i : Nat) (d d' : Disk P) : Prop
    extends Replaced tmp path bs i d d' where
  settled : ∀ m' ∈ d'.dir.all, m' path = some i

/-- Neither a call's return nor an external call. -/
def Ev.Quiet : Ev P E X Rep → Prop
  | .op (.ext _) _ => False
  | .ret _ => False
  | _ => True

/-- The newest entry is an operation on the directory, which come after the
rename. -/
def OnDirectory : List (Ev P E X Rep) → Prop
  | .op .openDir _ :: _ => True
  | .op .syncDir _ :: _ => True
  | _ => False

/-- The temporary `f` is open on inode `i`, out of the target's reach. -/
structure Prepared (tmp path : P) (f i : Nat) (d d' : Disk P) : Prop
    extends Scratch tmp path d d' where
  tmp_look : d'.lookup tmp = some i
  new : ∀ m ∈ d.dir.all, m path ≠ some i
  ino : (d'.handle f).ino = i

omit [DecidableEq P] in
theorem Scratch.refl {tmp path : P} {d : Disk P} (h : Tidy tmp path d) : Scratch tmp path d d :=
  ⟨h, rfl, fun m hm => ⟨m, hm, rfl⟩, fun _ _ _ _ => rfl⟩

theorem prepared_create {tmp path : P} (hne : tmp ≠ path) {d : Disk P} (ht : Tidy tmp path d) :
    ∃ i, Prepared tmp path d.handles i d (d.createAt tmp) ∧ (d.createAt tmp).inode i = [] ∧
      ((d.createAt tmp).handle d.handles).pos = 0 := by
  cases hl : d.lookup tmp with
  | some i =>
    have e : d.createAt tmp = (d.setFile i []).openAt i := by simp [Disk.createAt, hl]
    have eh : d.handles = (d.setFile i []).handles := rfl
    rw [e]
    refine ⟨i, ⟨⟨⟨ht.path_lt, ht.tmp_lt, ht.own, ht.apart⟩, rfl, fun m hm => ⟨m, hm, rfl⟩,
      fun m hm j hj => ?_⟩, hl, ht.apart i hl, by rw [eh]; simp⟩, by simp, by rw [eh]; simp⟩
    exact Disk.setFile_inode_ne _ _ fun h => ht.apart i hl m hm (h ▸ hj)
  | none =>
    set m0 := Function.update d.dir.visible tmp (some d.fresh) with hm0
    have hp0 : m0 path = d.dir.visible path := by
      simp [hm0, Function.update_of_ne hne.symm]
    have ht0 : m0 tmp = some d.fresh := by simp [hm0]
    let d1 : Disk P := { d with dir := d.dir.write m0,
                                inode := Function.update d.inode d.fresh [], fresh := d.fresh + 1 }
    have e : d.createAt tmp = d1.openAt d.fresh := by simp [Disk.createAt, hl, d1, hm0]
    have eh : d.handles = d1.handles := rfl
    have hv := d.dir.visible_mem_all
    have hnew : ∀ m ∈ d.dir.all, m path ≠ some d.fresh := fun m hm h =>
      absurd (ht.path_lt m hm _ h) (by omega)
    have hpath : ∀ m ∈ (d.dir.write m0).all, ∃ m' ∈ d.dir.all, m path = m' path := by
      intro m hm
      rcases Cell.mem_all_write.mp hm with rfl | hm
      · exact ⟨_, hv, hp0⟩
      · exact ⟨m, hm, rfl⟩
    rw [e]
    refine ⟨d.fresh, ⟨⟨⟨?_, ?_, ?_, ?_⟩, hp0, hpath, ?_⟩, ht0, hnew, by rw [eh]; simp⟩,
      by simp [d1], by rw [eh]; simp⟩
    · intro m hm i hi
      obtain ⟨m', hm', he⟩ := hpath m hm
      have := ht.path_lt m' hm' i (he ▸ hi)
      show i < d.fresh + 1
      omega
    · intro m hm i hi
      show i < d.fresh + 1
      rcases Cell.mem_all_write.mp hm with rfl | hm
      · rw [ht0, Option.some.injEq] at hi; omega
      · have := ht.tmp_lt m hm i hi; omega
    · intro m hm i hi
      rcases Cell.mem_all_write.mp hm with rfl | hm
      · rw [ht0, Option.some.injEq] at hi; rw [hp0, ← hi]; exact hnew _ hv
      · exact ht.own m hm i hi
    · intro i hi m hm h
      have hi' : d.fresh = i := by
        have : m0 tmp = some i := hi
        rw [ht0, Option.some.injEq] at this; exact this
      obtain ⟨m', hm', he⟩ := hpath m hm
      exact hnew m' hm' (he ▸ hi' ▸ h)
    · intro m hm j hj
      have : j ≠ d.fresh := fun h => hnew m hm (h ▸ hj)
      simp [d1, Function.update_of_ne this]

omit [DecidableEq P] in
/-- Whatever lands in the temporary, the target does not notice. -/
theorem Prepared.setFile {tmp path : P} {f i : Nat} {d d' d'' : Disk P}
    (h : Prepared tmp path f i d d') (hdir : d''.dir = d'.dir) (hfresh : d''.fresh = d'.fresh)
    (hh : (d''.handle f).ino = (d'.handle f).ino)
    (hother : ∀ j, j ≠ i → d''.inode j = d'.inode j) : Prepared tmp path f i d d'' := by
  refine ⟨⟨⟨?_, ?_, ?_, ?_⟩, ?_, ?_, ?_⟩, ?_, h.new, hh.trans h.ino⟩
  · rw [hdir, hfresh]; exact h.tidy.path_lt
  · rw [hdir, hfresh]; exact h.tidy.tmp_lt
  · rw [hdir]; exact h.tidy.own
  · simp only [Disk.lookup]; rw [hdir]; exact h.tidy.apart
  · simp only [Disk.lookup]; rw [hdir]; exact h.look
  · rw [hdir]; exact h.names
  · intro m hm j hj
    rw [hother j fun e => h.new m hm (e ▸ hj)]
    exact h.files m hm j hj
  · simp only [Disk.lookup]; rw [hdir]; exact h.tmp_look

theorem replaced_rename {tmp path : P} (hne : tmp ≠ path) {bs : Bytes} {f i : Nat} {d d' : Disk P}
    (h : Prepared tmp path f i d d') (hf : d'.inode i = (File.writeAt [] 0 bs).sync) :
    Replaced tmp path bs i d (d'.renamed tmp path i) := by
  set m0 := Function.update (Function.update d'.dir.visible tmp none) path (some i) with hm0
  have hp0 : m0 path = some i := by simp [hm0]
  have ht0 : m0 tmp = none := by simp [hm0, Function.update_of_ne hne]
  have hi : i < d'.fresh := h.tidy.tmp_lt _ d'.dir.visible_mem_all i h.tmp_look
  have hall : ∀ m ∈ (d'.dir.write m0).all, m = m0 ∨ m ∈ d'.dir.all := fun m hm =>
    Cell.mem_all_write.mp hm
  refine ⟨⟨?_, ?_, ?_, ?_⟩, hp0, h.new, hf, ?_, h.files⟩
  · intro m hm j hj
    rcases hall m hm with rfl | hm
    · rw [hp0, Option.some.injEq] at hj; exact hj ▸ hi
    · exact h.tidy.path_lt m hm j hj
  · intro m hm j hj
    rcases hall m hm with rfl | hm
    · rw [ht0] at hj; cases hj
    · exact h.tidy.tmp_lt m hm j hj
  · intro m hm j hj
    rcases hall m hm with rfl | hm
    · rw [ht0] at hj; cases hj
    · exact h.tidy.own m hm j hj
  · intro j hj
    have hj' : m0 tmp = some j := hj
    rw [ht0] at hj'; cases hj'
  · intro m hm
    rcases hall m hm with rfl | hm
    · exact .inl hp0
    · exact .inr (h.names m hm)

omit [DecidableEq P] in
theorem installed_syncDir {tmp path : P} {bs : Bytes} {i : Nat} {d d' : Disk P}
    (h : Replaced tmp path bs i d d') :
    Installed tmp path bs i d { d' with dir := d'.dir.sync } := by
  have hall : ∀ m ∈ d'.dir.sync.all, m = d'.dir.visible := by simp
  have hv := d'.dir.visible_mem_all
  refine ⟨⟨⟨?_, ?_, ?_, ?_⟩, h.look, h.new, h.file, ?_, h.files⟩, ?_⟩
  · intro m hm; rw [hall m hm]; exact h.tidy.path_lt _ hv
  · intro m hm; rw [hall m hm]; exact h.tidy.tmp_lt _ hv
  · intro m hm; rw [hall m hm]; exact h.tidy.own _ hv
  · intro j hj m hm; rw [hall m hm]; exact h.tidy.apart j hj _ hv
  · intro m hm; rw [hall m hm]; exact .inl h.look
  · intro m hm; rw [hall m hm]; exact h.look

variable {F : Faults} {G : World P E X Rep → Op P E → Prop} {pow : Disk P → Disk P → Prop}
  {C : World P E X Rep → Prop} {p : Nat}

/-- From the rename on. -/
theorem wp_syncDirectory {ε : Type} {conv : IoError → ε} {tmp path : P} {bs : Bytes} {i f : Nat}
    {Q : Except ε Nat → World P E X Rep → Prop} {w : World P E X Rep} {d : Disk P}
    {l : List (Ev P E X Rep)} (hr : Replaced tmp path bs i w.disk d)
    (hino : (d.handle f).ino = i) (ho : d.lock = some p) (hq : ∀ e ∈ l, e.Quiet)
    (hR : ∀ i d l, Replaced tmp path bs i w.disk d → d.lock = some p → (∀ e ∈ l, e.Quiet) →
      C ⟨d, l ++ w.log⟩ ∧ ∀ e, OnDirectory l → Q (.error e) ⟨d, l ++ w.log⟩)
    (hI : ∀ i f d l, Installed tmp path bs i w.disk d → (d.handle f).ino = i →
      d.lock = some p → (∀ e ∈ l, e.Quiet) → Q (.ok f) ⟨d, l ++ w.log⟩) :
    (storage F G pow).wp C p (ExceptT.run do
      io conv .openDir id
      io conv .syncDir id
      return f) Q ⟨d, l ++ w.log⟩ := by
  refine wp_io (by simp) (hR i d l hr ho hq).1 ho ?_
  intro r d1 _ hx1 hl1
  have hq1 : ∀ e ∈ .op .openDir r :: l, e.Quiet := List.forall_mem_cons.mpr ⟨trivial, hq⟩
  rcases r with e | u
  · cases hx1
    exact (hR i d _ hr ho hq1).imp_right fun h => h _ trivial
  cases hx1
  refine wp_io (by simp) (hR i d _ hr ho hq1).1 ho ?_
  intro r d2 _ hx2 hl2
  have hq2 : ∀ e ∈ .op .syncDir r :: .op .openDir (.ok u) :: l, e.Quiet :=
    List.forall_mem_cons.mpr ⟨trivial, hq1⟩
  rcases r with e | u
  · cases hx2
    exact (hR i d _ hr ho hq2).imp_right fun h => h _ trivial
  cases hx2
  have hin := installed_syncDir hr
  exact Machine.wp_ret (M := storage F G pow) (hR i _ _ hin.toReplaced hl2 hq2).1 hl2
    (hI i f _ _ hin hino hl2 hq2)

/-- From the written temporary on. -/
theorem wp_syncAndRename {ε : Type} {conv : IoError → ε} {tmp path : P} (hne : tmp ≠ path)
    {bs : Bytes} {i f : Nat} {Q : Except ε Nat → World P E X Rep → Prop} {w : World P E X Rep}
    {d : Disk P} {l : List (Ev P E X Rep)} (hp : Prepared tmp path f i w.disk d)
    (hf : d.inode i = File.writeAt [] 0 bs) (ho : d.lock = some p) (hq : ∀ e ∈ l, e.Quiet)
    (hS : ∀ d l, Scratch tmp path w.disk d → d.lock = some p → (∀ e ∈ l, e.Quiet) →
      C ⟨d, l ++ w.log⟩ ∧ ∀ e, ¬ OnDirectory l → Q (.error e) ⟨d, l ++ w.log⟩)
    (hR : ∀ i d l, Replaced tmp path bs i w.disk d → d.lock = some p → (∀ e ∈ l, e.Quiet) →
      C ⟨d, l ++ w.log⟩ ∧ ∀ e, OnDirectory l → Q (.error e) ⟨d, l ++ w.log⟩)
    (hI : ∀ i f d l, Installed tmp path bs i w.disk d → (d.handle f).ino = i →
      d.lock = some p → (∀ e ∈ l, e.Quiet) → Q (.ok f) ⟨d, l ++ w.log⟩) :
    (storage F G pow).wp C p (ExceptT.run do
      io conv (.sync f) id
      io conv (.rename tmp path) id
      io conv .openDir id
      io conv .syncDir id
      return f) Q ⟨d, l ++ w.log⟩ := by
  refine wp_io (by simp) (hS d l hp.toScratch ho hq).1 ho ?_
  intro r d1 _ hx1 hl1
  have hq1 : ∀ e ∈ .op (.sync f) r :: l, e.Quiet := List.forall_mem_cons.mpr ⟨trivial, hq⟩
  rcases r with e | u
  · cases hx1
    exact (hS d _ hp.toScratch ho hq1).imp_right fun h => h _ id
  have hx1 : d1 = _ := hx1
  have hp1 : Prepared tmp path f i w.disk d1 := by
    rw [hx1]
    refine hp.setFile rfl rfl (by simp) fun j hj => ?_
    exact Disk.syncFile_inode_ne _ (by rw [hp.ino]; exact hj)
  have hf1 : d1.inode i = (File.writeAt [] 0 bs).sync := by
    have := Disk.syncFile_inode_self d f
    rw [Disk.file, hp.ino, hf] at this
    rw [hx1]
    exact this
  clear hx1
  refine wp_io (by simp) (hS d1 _ hp1.toScratch hl1 hq1).1 hl1 ?_
  intro r d2 _ hx2 hl2
  have hq2 : ∀ e ∈ .op (.rename tmp path) r :: .op (.sync f) (.ok u) :: l, e.Quiet :=
    List.forall_mem_cons.mpr ⟨trivial, hq1⟩
  rcases r with e | u
  · cases hx2
    exact (hS d1 _ hp1.toScratch hl1 hq2).imp_right fun h => h _ id
  obtain ⟨i', hi', rfl⟩ := hx2
  obtain rfl : i' = i := Option.some.inj (hi'.symm.trans hp1.tmp_look)
  exact wp_syncDirectory (replaced_rename hne hp1 hf1) hp1.ino hl2 hq2 hR hI

/-- Every crash point and every outcome of `atomicReplace`, for the lock owner:
an error comes from before the rename, or from an operation on the directory
after it. -/
theorem wp_atomicReplace {ε : Type} {conv : IoError → ε} {tmp path : P} (hne : tmp ≠ path)
    {bs : Bytes} {Q : Except ε Nat → World P E X Rep → Prop} {w : World P E X Rep}
    (ho : w.disk.lock = some p) (ht : Tidy tmp path w.disk)
    (hS : ∀ d l, Scratch tmp path w.disk d → d.lock = some p → (∀ e ∈ l, e.Quiet) →
      C ⟨d, l ++ w.log⟩ ∧ ∀ e, ¬ OnDirectory l → Q (.error e) ⟨d, l ++ w.log⟩)
    (hR : ∀ i d l, Replaced tmp path bs i w.disk d → d.lock = some p → (∀ e ∈ l, e.Quiet) →
      C ⟨d, l ++ w.log⟩ ∧ ∀ e, OnDirectory l → Q (.error e) ⟨d, l ++ w.log⟩)
    (hI : ∀ i f d l, Installed tmp path bs i w.disk d → (d.handle f).ino = i →
      d.lock = some p → (∀ e ∈ l, e.Quiet) → Q (.ok f) ⟨d, l ++ w.log⟩) :
    (storage F G pow).wp C p (atomicReplace conv tmp path bs).run Q w := by
  have hcw : C w := (hS w.disk [] (.refl ht) ho (by simp)).1
  unfold atomicReplace
  refine wp_io (by simp) hcw ho ?_
  intro r d1 _ hx1 hl1
  have hq1 : ∀ e ∈ ([.op (.create tmp) r] : List (Ev P E X Rep)), e.Quiet := by simp [Ev.Quiet]
  rcases r with e | f
  · cases hx1
    exact (hS _ [_] (.refl ht) ho hq1).imp_right fun h => h _ id
  obtain ⟨rfl, rfl⟩ := hx1
  obtain ⟨i, hp, hnil, hpos⟩ := prepared_create hne ht
  set f := w.disk.handles
  refine wp_io (by simp) (hS _ [_] hp.toScratch hl1 hq1).1 hl1 ?_
  intro r d2 _ hx2 hl2
  have hq2 : ∀ e ∈ ([.op (.write f bs) r, .op (.create tmp) (.ok f)] : List (Ev P E X Rep)),
      e.Quiet := List.forall_mem_cons.mpr ⟨trivial, hq1⟩
  rcases r with e | u
  · have hp2 : Prepared tmp path f i w.disk d2 := by
      rcases hx2 with ⟨pos, rfl⟩ | ⟨bs', pos, -, rfl⟩
      · exact hp.setFile rfl rfl (by simp) fun j _ => rfl
      · refine hp.setFile rfl rfl (by simp) fun j hj => ?_
        exact Disk.writeTo_inode_ne _ _ (by rw [hp.ino]; exact hj)
    exact (hS _ [_, _] hp2.toScratch hl2 hq2).imp_right fun h => h _ id
  have hx2 : d2 = _ := hx2
  have hp2 : Prepared tmp path f i w.disk d2 := by
    rw [hx2]
    refine hp.setFile rfl rfl (by simp) fun j hj => ?_
    exact Disk.writeTo_inode_ne _ _ (by rw [hp.ino]; exact hj)
  have hf2 : d2.inode i = File.writeAt [] 0 bs := by
    have := Disk.writeTo_inode_self (w.disk.createAt tmp) f bs
    rw [Disk.file, hp.ino, hnil, hpos] at this
    rw [hx2]
    exact this
  exact wp_syncAndRename hne hp2 hf2 hl2 hq2 hS hR hI

/-- Between `w` and `w'`, the last operation was one on the directory. -/
def EndsOnDirectory (w w' : World P E X Rep) : Prop := ∃ l, w'.log = l ++ w.log ∧ OnDirectory l

omit [DecidableEq P] in
theorem endsOnDirectory_iff {w w' : World P E X Rep} {l : List (Ev P E X Rep)}
    (h : w'.log = l ++ w.log) : EndsOnDirectory w w' ↔ OnDirectory l := by
  constructor
  · intro h
    obtain ⟨l', hl', hd⟩ := h
    rwa [List.append_cancel_right (h.symm.trans hl')]
  · intro hd
    exact ⟨l, h, hd⟩

omit [DecidableEq P] in
/-- What comes before the last operation does not matter. -/
theorem endsOnDirectory_of_cons {u w w' : World P E X Rep} {e : Ev P E X Rep}
    (he : ¬ OnDirectory [e]) (hu : w.log = e :: u.log) (h : w.log <:+ w'.log) :
    EndsOnDirectory u w' ↔ EndsOnDirectory w w' := by
  obtain ⟨l, hl⟩ := h
  have hlu : w'.log = (l ++ [e]) ++ u.log := by rw [← hl, hu]; simp
  rw [endsOnDirectory_iff hl.symm, endsOnDirectory_iff hlu]
  cases l with
  | nil => exact ⟨fun h => absurd h he, False.elim⟩
  | cons a l => cases a with
    | ret r => exact Iff.rfl
    | op o r => cases o <;> exact Iff.rfl

/-- How a complete run of `atomicReplace` can end: with an error before the
rename, with an error after it, or with the new file in place. -/
inductive ReplaceEnd {ε : Type} (tmp path : P) (bs : Bytes) (w w' : World P E X Rep) :
    Except ε Nat → Prop where
  | before (e : ε) (hl : ¬ EndsOnDirectory w w') (h : Scratch tmp path w.disk w'.disk) :
      ReplaceEnd tmp path bs w w' (.error e)
  | after (e : ε) (i : Nat) (hl : EndsOnDirectory w w')
      (h : Replaced tmp path bs i w.disk w'.disk) : ReplaceEnd tmp path bs w w' (.error e)
  | done (f : Nat) (h : Installed tmp path bs (w'.disk.handle f).ino w.disk w'.disk) :
      ReplaceEnd tmp path bs w w' (.ok f)

theorem atomicReplace_end {ε : Type} {conv : IoError → ε} {tmp path : P} (hne : tmp ≠ path)
    {bs : Bytes} {Q : World P E X Rep → Op P E → Prop} {x : Except ε Nat} {w w' : World P E X Rep}
    (ho : w.disk.lock = some p) (ht : Tidy tmp path w.disk)
    (h : (storage F G pow).Runs Q p (atomicReplace conv tmp path bs).run w (.ret x) w') :
    w'.disk.lock = some p ∧ w.log <:+ w'.log ∧ ReplaceEnd tmp path bs w w' x := by
  refine Machine.wp_runs (C := fun _ => True)
    (Q := fun x w' => w'.disk.lock = some p ∧ w.log <:+ w'.log ∧ ReplaceEnd tmp path bs w w' x)
    (wp_atomicReplace hne ho ht ?_ ?_ ?_) h
  · intro d l hs hd _
    exact ⟨trivial, fun e hl => ⟨hd, List.suffix_append _ _,
      .before e (mt (endsOnDirectory_iff rfl).mp hl) hs⟩⟩
  · intro i d l hr hd _
    exact ⟨trivial, fun e hl => ⟨hd, List.suffix_append _ _, .after e i ⟨l, rfl, hl⟩ hr⟩⟩
  · intro i f d l hi hf hd _
    refine ⟨hd, List.suffix_append _ _, .done f ?_⟩
    show Installed tmp path bs (d.handle f).ino w.disk d
    rw [hf]
    exact hi

theorem createAt_lookup (d : Disk P) (q : P) : ∃ i, (d.createAt q).lookup q = some i := by
  cases hl : d.lookup q with
  | some i => exact ⟨i, by rw [Disk.createAt, hl]; exact hl⟩
  | none => exact ⟨d.fresh, by rw [Disk.createAt, hl]; simp [Disk.lookup, Disk.openAt]⟩

/-- `atomicReplace` when no call fails. -/
theorem runs_atomicReplace {ε : Type} (F : Faults) (pow : Disk P → Disk P → Prop) (p : Nat)
    (conv : IoError → ε) (tmp path : P) (bs : Bytes) (w : World P E X Rep)
    {Q : World P E X Rep → Op P E → Prop} (hQ : ∀ w op, (∀ h, op ≠ .readToEnd h) → Q w op) : ∃ d l,
    ((storage F (fun _ _ => True) pow).restrict Succeeds).Runs Q p
      (atomicReplace conv tmp path bs).run w (.ret (.ok w.disk.handles)) ⟨d, l ++ w.log⟩ ∧
    (∀ e ∈ l, e.Quiet) ∧ d.lock = w.disk.lock := by
  obtain ⟨i, hi⟩ := createAt_lookup w.disk tmp
  let f := w.disk.handles
  let d := (((w.disk.createAt tmp).writeTo f bs).syncFile f).renamed tmp path i
  refine ⟨{ d with dir := d.dir.sync }, [.op .syncDir (.ok ()), .op .openDir (.ok ()),
    .op (.rename tmp path) (.ok ()), .op (.sync f) (.ok ()), .op (.write f bs) (.ok ()),
    .op (.create tmp) (.ok f)], ?_, by simp [Ev.Quiet], ?_⟩
  · refine runs_good (.create tmp) (.ok f) _ (hQ _ _ (by simp)) trivial rfl ⟨rfl, rfl⟩ ?_
    refine runs_good (.write f bs) (.ok ()) _ (hQ _ _ (by simp)) trivial rfl rfl ?_
    refine runs_good (.sync f) (.ok ()) _ (hQ _ _ (by simp)) trivial rfl rfl ?_
    refine runs_good (.rename tmp path) (.ok ()) d (hQ _ _ (by simp)) trivial rfl ⟨i, hi, rfl⟩ ?_
    refine runs_good .openDir (.ok ()) d (hQ _ _ (by simp)) trivial rfl rfl ?_
    exact runs_good .syncDir (.ok ()) _ (hQ _ _ (by simp)) trivial rfl rfl .refl
  · show (w.disk.createAt tmp).lock = w.disk.lock
    unfold Disk.createAt
    split <;> rfl

omit [DecidableEq P] in
/-- When every operation succeeds, so does the replacement; and it can. -/
theorem yields_atomicReplace {ε : Type} {conv : IoError → ε} {tmp path : P} {bs : Bytes}
    {x : Except ε Nat} : Prog.Yields Succeeds
      (atomicReplace conv tmp path bs : ExceptT ε (Prog (Op P E) (Ans X)) Nat).run x ↔
    ∃ f, x = .ok f := by
  unfold atomicReplace
  simp only [yields_io]
  constructor
  · intro h
    obtain ⟨r, hr, h⟩ := h
    obtain ⟨f, -, h⟩ | ⟨e, rfl, -⟩ := h
    swap; · cases hr
    obtain ⟨_, hw, ⟨_, -, h⟩ | ⟨e, rfl, -⟩⟩ := h
    swap; · cases hw
    obtain ⟨_, hs, ⟨_, -, h⟩ | ⟨e, rfl, -⟩⟩ := h
    swap; · cases hs
    obtain ⟨_, hn, ⟨_, -, h⟩ | ⟨e, rfl, -⟩⟩ := h
    swap; · cases hn
    obtain ⟨_, ho, ⟨_, -, h⟩ | ⟨e, rfl, -⟩⟩ := h
    swap; · cases ho
    obtain ⟨_, hd, ⟨_, -, h⟩ | ⟨e, rfl, -⟩⟩ := h
    swap; · cases hd
    exact ⟨f, Prog.yields_ret.mp h⟩
  · intro h
    obtain ⟨f, rfl⟩ := h
    refine ⟨.ok f, rfl, .inl ⟨f, rfl, .ok (), rfl, .inl ⟨(), rfl, .ok (), rfl, .inl ⟨(), rfl, ?_⟩⟩⟩⟩
    refine ⟨.ok (), rfl, .inl ⟨(), rfl, .ok (), rfl, .inl ⟨(), rfl, .ok (), rfl, .inl ⟨(), rfl, ?_⟩⟩⟩⟩
    exact .ret _

omit [DecidableEq P] in
/-- A replacement asks for no metadata. -/
theorem only_atomicReplace {ε : Type} {conv : IoError → ε} {tmp path : P} {bs : Bytes} :
    Prog.Only (fun op => ∀ q, op ≠ .metadata q)
      (atomicReplace conv tmp path bs : ExceptT ε (Prog (Op P E) (Ans X)) Nat).run := by
  unfold atomicReplace
  refine only_io (by simp) fun f => only_io (by simp) fun _ => only_io (by simp) fun _ => ?_
  exact only_io (by simp) fun _ => only_io (by simp) fun _ => only_io (by simp) fun _ => trivial

/-- What reading the file at `path` may answer. -/
def ReadAns (path : P) (d : Disk P) : Except IoError Bytes → Prop
  | .ok bytes => ∃ i, d.lookup path = some i ∧ bytes = (d.inode i).content
  | .error e => e.kind = .notFound → d.lookup path = none

/-- Directory and files are as before. -/
structure SameFiles (d d' : Disk P) : Prop where
  dir : d'.dir = d.dir
  inode : d'.inode = d.inode
  fresh : d'.fresh = d.fresh

omit [DecidableEq P] in
theorem Tidy.sameFiles {tmp path : P} {d d' : Disk P} (h : Tidy tmp path d) (hs : SameFiles d d') :
    Tidy tmp path d' := by
  obtain ⟨h1, h2, h3, h4⟩ := h
  refine ⟨?_, ?_, ?_, ?_⟩
  · rw [hs.dir, hs.fresh]; exact h1
  · rw [hs.dir, hs.fresh]; exact h2
  · rw [hs.dir]; exact h3
  · unfold Disk.lookup; rw [hs.dir]; exact h4

/-- Reading moves cursors only. -/
theorem wp_readFile {ε β : Type} {conv : IoError → ε} {path : P}
    {k : Except IoError Bytes → ExceptT ε (Prog (Op P E) (Ans X)) β}
    {Q : Except ε β → World P E X Rep → Prop} {w : World P E X Rep} (ho : w.disk.lock = some p)
    (hC : ∀ d l, SameFiles w.disk d → (∀ e ∈ l, e.Quiet) → C ⟨d, l ++ w.log⟩)
    (h : ∀ r d l, ReadAns path w.disk r → SameFiles w.disk d → d.lock = some p →
      (∀ e ∈ l, e.Quiet) → (storage F G pow).wp C p (k r).run Q ⟨d, l ++ w.log⟩) :
    (storage F G pow).wp C p (readFile conv path >>= k).run Q w := by
  have hcw : C w := by simpa using hC w.disk [] ⟨rfl, rfl, rfl⟩ (by simp)
  refine wp_call (show Op.openFile path ≠ .tryLock by simp) hcw ho ?_
  intro r d1 _ hx1 hl1
  rcases r with e | f
  · obtain ⟨hn, rfl⟩ := hx1
    exact h (.error e) _ [_] hn ⟨rfl, rfl, rfl⟩ hl1 (by simp [Ev.Quiet])
  obtain ⟨i, hi, rfl, rfl⟩ := hx1
  refine wp_call (show Op.readToEnd w.disk.handles ≠ .tryLock by simp)
    (hC _ [_] ⟨rfl, rfl, rfl⟩ (by simp [Ev.Quiet])) hl1 ?_
  intro r d2 _ hx2 hl2
  rcases r with e | bytes
  · obtain ⟨hk, pos, rfl⟩ := hx2
    exact h (.error e) _ [_, _] (fun he => absurd he hk) ⟨rfl, rfl, rfl⟩ hl2 (by simp [Ev.Quiet])
  obtain ⟨hb, rfl⟩ := hx2
  refine h (.ok bytes) _ [_, _] ⟨i, hi, ?_⟩ ⟨rfl, rfl, rfl⟩ hl2 (by simp [Ev.Quiet])
  rw [hb, Disk.openAt_handle, List.drop_zero, Disk.file, Disk.openAt_handle]
  rfl

omit [DecidableEq P] in
theorem tidy_empty (tmp path : P) : Tidy tmp path (Disk.empty : Disk P) := by
  refine ⟨?_, ?_, ?_, ?_⟩ <;> simp [Disk.empty, Disk.lookup]

/-- A disk with one file. -/
def Disk.single (path : P) (bytes : Bytes) (lock : Option Nat) : Disk P :=
  ⟨.clean fun q => if q = path then some 0 else none, fun _ => [.clean bytes], 1, fun _ => ⟨0, 0⟩,
    0, lock⟩

theorem Disk.single_lookup (path : P) (bytes : Bytes) (lock : Option Nat) :
    (Disk.single path bytes lock).lookup path = some 0 := by
  simp [Disk.single, Disk.lookup]

theorem Disk.single_content (path : P) (bytes : Bytes) (lock : Option Nat) (i : Nat) :
    ((Disk.single path bytes lock).inode i).content = bytes := by
  simp [Disk.single, File.content]

theorem tidy_single {tmp path : P} (hne : tmp ≠ path) (bytes : Bytes) (lock : Option Nat) :
    Tidy tmp path (Disk.single path bytes lock) := by
  refine ⟨?_, ?_, ?_, ?_⟩ <;> simp [Disk.single, Disk.lookup, hne]

end
end Drot
