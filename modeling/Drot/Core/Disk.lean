import Drot.Core.Bytes
import Drot.Core.Prog
import Mathlib.Data.List.Basic
import Mathlib.Logic.Function.Basic

/-!
# Storage with two levels, as a machine

A `Cell` holds what the last successful sync made durable and every content
written since. A file is a list of 4 KiB blocks, each a cell; a directory is
one cell whose content maps names to inodes, so a rename (which changes two
names) is undone as a whole or not at all. Every operation acts on visible
contents and may be answered with an error; a failed write may leave what
`Faults.tear` allows. A kill changes nothing but the lock; a power failure
leaves, for the directory and for every block on its own, the durable content
or a later visible one, and for a block with unsynced writes also what
`Faults.rot` allows. `storage` is the machine, and `wp_io`, `wp_liftExcept` and
`wp_takeLock` are the rules for programs over it.
-/
namespace Drot

/-! ## Cells -/

structure Cell (α : Type) where
  durable : α
  pending : List α   -- newest first
  deriving DecidableEq, Repr

namespace Cell
variable {α : Type}

def clean (a : α) : Cell α := ⟨a, []⟩

def visible (c : Cell α) : α := c.pending.headD c.durable

def write (c : Cell α) (a : α) : Cell α := ⟨c.durable, a :: c.pending⟩

def sync (c : Cell α) : Cell α := clean c.visible

/-- The contents the cell may come back with after a power failure. -/
def all (c : Cell α) : List α := c.durable :: c.pending

@[simp] theorem visible_clean (a : α) : (clean a).visible = a := rfl
@[simp] theorem visible_write (c : Cell α) (a : α) : (c.write a).visible = a := rfl
@[simp] theorem visible_sync (c : Cell α) : c.sync.visible = c.visible := rfl
@[simp] theorem pending_clean (a : α) : (clean a).pending = [] := rfl
@[simp] theorem pending_sync (c : Cell α) : c.sync.pending = [] := rfl
@[simp] theorem durable_clean (a : α) : (clean a).durable = a := rfl
@[simp] theorem durable_sync (c : Cell α) : c.sync.durable = c.visible := rfl
@[simp] theorem all_clean (a : α) : (clean a).all = [a] := rfl
@[simp] theorem all_sync (c : Cell α) : c.sync.all = [c.visible] := rfl

theorem mem_all_write {c : Cell α} {a b : α} : b ∈ (c.write a).all ↔ b = a ∨ b ∈ c.all := by
  simp only [all, write, List.mem_cons]; tauto

theorem visible_mem_all (c : Cell α) : c.visible ∈ c.all := by
  obtain ⟨d, _ | ⟨x, l⟩⟩ := c <;> simp [visible, all]

theorem visible_of_pending_nil {c : Cell α} (h : c.pending = []) : c.visible = c.durable := by
  simp [visible, h]

end Cell

/-! ## Files -/

def blockSize : Nat := 4096

abbrev File := List (Cell Bytes)

namespace File

def content (f : File) : Bytes := (f.map Cell.visible).flatten

/-- `bs` laid over `old` at offset `off`, padding a short block with zeros. -/
def overlay (old : Bytes) (off : Nat) (bs : Bytes) : Bytes :=
  (old ++ List.replicate (off - old.length) 0).take off ++ bs ++ old.drop (off + bs.length)

/-- A write of `bs` at position `pos`, block by block; a missing block is an
empty one. -/
def writeAt (f : File) (pos : Nat) (bs : Bytes) : File :=
  if bs = [] then f
  else
    let c := f.headD (.clean [])
    if blockSize ≤ pos then
      (if c.visible.length < blockSize then c.write (overlay c.visible blockSize []) else c) ::
        writeAt f.tail (pos - blockSize) bs
    else
      c.write (overlay c.visible pos (bs.take (blockSize - pos))) ::
        writeAt f.tail 0 (bs.drop (blockSize - pos))
termination_by pos + bs.length
decreasing_by
  all_goals
    have : 0 < bs.length := List.length_pos_iff.mpr ‹_›
    simp only [List.length_drop, blockSize] at *
    omega

def sync (f : File) : File := f.map Cell.sync

@[simp] theorem content_sync (f : File) : content (sync f) = content f := by
  simp [content, sync, Function.comp_def]

theorem overlay_zero (old bs : Bytes) : overlay old 0 bs = bs ++ old.drop bs.length := by
  simp [overlay]

@[simp] theorem writeAt_nil (f : File) (pos : Nat) : writeAt f pos [] = f := by
  rw [writeAt]; simp

/-- A write that stays inside the block at the cursor. -/
theorem writeAt_first {f : File} {c : Cell Bytes} {bs : Bytes} (hne : bs ≠ [])
    (hlen : bs.length ≤ blockSize) :
    writeAt (c :: f) 0 bs = c.write (overlay c.visible 0 bs) :: f := by
  rw [writeAt]
  simp only [hne, if_false, List.headD_cons, List.tail_cons, Nat.sub_zero,
    List.take_of_length_le hlen, List.drop_of_length_le hlen, writeAt_nil]
  rw [if_neg (by decide)]

/-- A write that starts behind a full block leaves that block alone. -/
theorem writeAt_skip {f : File} {c : Cell Bytes} {bs : Bytes} (hne : bs ≠ []) (pos : Nat)
    (hfull : c.visible.length = blockSize) :
    writeAt (c :: f) (blockSize + pos) bs = c :: writeAt f pos bs := by
  rw [writeAt]
  simp [hne, hfull]

/-- Writing a fresh file starts with its first full block. -/
theorem writeAt_nil_append {b rest : Bytes} (hb : b.length = blockSize) :
    writeAt [] 0 (b ++ rest) = (Cell.clean []).write b :: writeAt [] 0 rest := by
  have hne : b ++ rest ≠ [] := by
    intro h
    have := congrArg List.length (List.append_eq_nil_iff.mp h).1
    rw [hb] at this; cases this
  rw [writeAt, if_neg hne, if_neg (by decide), ← hb]
  simp [overlay_zero]

/-- The content of a fresh file is what was written to it. -/
theorem content_writeAt_nil (bs : Bytes) : content (writeAt [] 0 bs) = bs := by
  induction h : bs.length using Nat.strongRecOn generalizing bs with
  | ind n ih =>
    by_cases hb : bs = []
    · subst hb; simp [content]
    · have hpos := List.length_pos_iff.mpr hb
      rw [writeAt]
      simp only [hb, if_false, List.headD_nil, Cell.visible_clean, List.tail_nil, Nat.sub_zero]
      rw [if_neg (by decide)]
      have hd := ih (bs.drop blockSize).length (by simp [blockSize]; omega) _ rfl
      simp only [content, List.map_cons, List.flatten_cons, Cell.visible_write] at hd ⊢
      rw [hd, overlay_zero]
      simp

end File

/-! ## Operations -/

inductive ErrorKind where
  | notFound | other
  deriving DecidableEq, Repr

structure IoError where
  kind : ErrorKind
  message : String
  deriving DecidableEq, Repr

inductive LockAns where
  | acquired
  | wouldBlock
  | failed (e : IoError)
  deriving DecidableEq, Repr

/-- Operations on names `P`; `ext` is a call that leaves storage alone. -/
inductive Op (P E : Type) where
  | tryLock
  | metadata (q : P)
  | openFile (q : P)
  | create (q : P)               -- create + truncate
  | readToEnd (h : Nat)
  | seek (h pos : Nat)
  | write (h : Nat) (bs : Bytes)
  | sync (h : Nat)               -- sync_data / sync_all
  | rename (a b : P)
  | openDir
  | syncDir
  | ext (e : E)

@[reducible] def Ans {P E : Type} (X : E → Type) : Op P E → Type
  | .tryLock => LockAns
  | .metadata _ => Except IoError Unit
  | .openFile _ => Except IoError Nat
  | .create _ => Except IoError Nat
  | .readToEnd _ => Except IoError Bytes
  | .seek _ _ => Except IoError Unit
  | .write _ _ => Except IoError Unit
  | .sync _ => Except IoError Unit
  | .rename _ _ => Except IoError Unit
  | .openDir => Except IoError Unit
  | .syncDir => Except IoError Unit
  | .ext e => X e

/-- The operation did what it was asked to do. -/
def Succeeds {P E : Type} {X : E → Type} : (op : Op P E) → Ans X op → Prop
  | .tryLock, r => r = .acquired
  | .metadata _, r => r.isOk
  | .openFile _, r => r.isOk
  | .create _, r => r.isOk
  | .readToEnd _, r => r.isOk
  | .seek _ _, r => r.isOk
  | .write _ _, r => r.isOk
  | .sync _, r => r.isOk
  | .rename _ _, r => r.isOk
  | .openDir, r => r.isOk
  | .syncDir, r => r.isOk
  | .ext _, _ => True

/-- What may go wrong with contents: `tear pos bs bs'`, a failed write of `bs`
at `pos` may land as `bs'`; `rot k b`, block `k` may come back from a power
failure as `b` when it had unsynced writes. -/
structure Faults where
  tear : Nat → Bytes → Bytes → Prop
  rot : Nat → Bytes → Prop

/-- An open file: its inode and its cursor. -/
structure Handle where
  ino : Nat
  pos : Nat

structure Disk (P : Type) where
  dir : Cell (P → Option Nat)
  inode : Nat → File
  fresh : Nat             -- inodes from here on were never used
  handle : Nat → Handle
  handles : Nat           -- next handle number
  lock : Option Nat

namespace Disk
variable {P E : Type} {X : E → Type}

/-- No file yet. -/
def empty : Disk P := ⟨.clean fun _ => none, fun _ => [], 0, fun _ => ⟨0, 0⟩, 0, none⟩

/-- The inode a name refers to. -/
def lookup (d : Disk P) (q : P) : Option Nat := d.dir.visible q

def file (d : Disk P) (h : Nat) : File := d.inode (d.handle h).ino

def openAt (d : Disk P) (i : Nat) : Disk P :=
  { d with handle := Function.update d.handle d.handles ⟨i, 0⟩, handles := d.handles + 1 }

def seekTo (d : Disk P) (h pos : Nat) : Disk P :=
  { d with handle := Function.update d.handle h ⟨(d.handle h).ino, pos⟩ }

def setFile (d : Disk P) (i : Nat) (f : File) : Disk P :=
  { d with inode := Function.update d.inode i f }

def createAt [DecidableEq P] (d : Disk P) (q : P) : Disk P :=
  match d.lookup q with
  | some i => (d.setFile i []).openAt i
  | none =>
    openAt { d with dir := d.dir.write (Function.update d.dir.visible q (some d.fresh)),
                    inode := Function.update d.inode d.fresh [], fresh := d.fresh + 1 } d.fresh

def writeTo (d : Disk P) (h : Nat) (bs : Bytes) : Disk P :=
  (d.setFile (d.handle h).ino ((d.file h).writeAt (d.handle h).pos bs)).seekTo h
    ((d.handle h).pos + bs.length)

def syncFile (d : Disk P) (h : Nat) : Disk P :=
  d.setFile (d.handle h).ino (d.file h).sync

def renamed [DecidableEq P] (d : Disk P) (a b : P) (i : Nat) : Disk P :=
  { d with dir := d.dir.write (Function.update (Function.update d.dir.visible a none) b (some i)) }

/-- What process `p` may be answered, and what the operation leaves. -/
def exec [DecidableEq P] (F : Faults) (p : Nat) (d : Disk P) :
    (op : Op P E) → Ans X op → Disk P → Prop
  | .tryLock, .acquired, d' => d.lock = none ∧ d' = { d with lock := some p }
  | .tryLock, .wouldBlock, d' => d.lock ≠ none ∧ d' = d
  | .tryLock, .failed _, d' => d' = d
  | .metadata q, .ok _, d' => d.lookup q ≠ none ∧ d' = d
  | .metadata q, .error e, d' => d.lookup q = none ∧ e.kind = .notFound ∧ d' = d
  | .openFile q, .ok h, d' => ∃ i, d.lookup q = some i ∧ h = d.handles ∧ d' = d.openAt i
  | .openFile q, .error e, d' => (e.kind = .notFound → d.lookup q = none) ∧ d' = d
  | .create q, .ok h, d' => h = d.handles ∧ d' = d.createAt q
  | .create _, .error _, d' => d' = d
  | .readToEnd h, .ok bs, d' =>
    bs = (d.file h).content.drop (d.handle h).pos ∧ d' = d.seekTo h ((d.handle h).pos + bs.length)
  | .readToEnd h, .error e, d' => e.kind ≠ .notFound ∧ ∃ pos, d' = d.seekTo h pos
  | .seek h pos, .ok _, d' => d' = d.seekTo h pos
  | .seek _ _, .error _, d' => d' = d
  | .write h bs, .ok _, d' => d' = d.writeTo h bs
  | .write h bs, .error _, d' => (∃ pos, d' = d.seekTo h pos) ∨
    ∃ bs' pos, (bs' = bs ∨ F.tear (d.handle h).pos bs bs') ∧ d' = (d.writeTo h bs').seekTo h pos
  | .sync h, .ok _, d' => d' = d.syncFile h
  | .sync _, .error _, d' => d' = d
  | .rename a b, .ok _, d' => ∃ i, d.lookup a = some i ∧ d' = d.renamed a b i
  | .rename _ _, .error _, d' => d' = d
  | .openDir, _, d' => d' = d
  | .syncDir, .ok _, d' => d' = { d with dir := d.dir.sync }
  | .syncDir, .error _, d' => d' = d
  | .ext _, _, d' => d' = d

/-- What a power failure may leave of one file. -/
def Survives (F : Faults) (f f' : File) : Prop :=
  f'.length = f.length ∧ ∀ k c, f[k]? = some c →
    ∃ b, (b ∈ c.all ∨ (c.pending ≠ [] ∧ F.rot k b)) ∧ f'[k]? = some (.clean b)

/-- What a power failure may leave: the directory as of some moment since its
last sync, every file block by block, no lock and no open file. -/
def powerFail (F : Faults) (d d' : Disk P) : Prop :=
  (∃ m ∈ d.dir.all, d'.dir = .clean m) ∧ (∀ i, Survives F (d.inode i) (d'.inode i)) ∧
    d'.fresh = d.fresh ∧ d'.lock = none

/-- A synced file survives as it is. -/
theorem Survives.eq_of_clean {F : Faults} {f f' : File} (h : Survives F f f')
    (hc : ∀ c ∈ f, c.pending = []) : f' = f := by
  obtain ⟨hlen, h⟩ := h
  refine List.ext_getElem? fun k => ?_
  by_cases hk : k < f.length
  · have hp := hc _ (List.getElem_mem hk)
    obtain ⟨b, hb, he⟩ := h k _ (List.getElem?_eq_getElem hk)
    have hb' : b = f[k].durable := by simpa [Cell.all, hp] using hb
    rw [he, List.getElem?_eq_getElem hk, hb', Cell.clean, ← hp]
  · rw [List.getElem?_eq_none (by omega), List.getElem?_eq_none (by omega)]

/-- A power failure may leave the files as they are visible, under any
directory since its last sync. -/
theorem powerFail_of (F : Faults) (d : Disk P) {m : P → Option Nat} (hm : m ∈ d.dir.all) :
    powerFail F d ⟨.clean m, fun i => (d.inode i).sync, d.fresh, d.handle, d.handles, none⟩ := by
  refine ⟨⟨m, hm, rfl⟩, fun i => ⟨by simp [File.sync], fun k c hc => ?_⟩, rfl, rfl⟩
  exact ⟨c.visible, .inl c.visible_mem_all, by simp [File.sync, hc, Cell.sync]⟩

/-! ### Field lemmas -/

@[simp] theorem seekTo_dir (d : Disk P) (h n : Nat) : (d.seekTo h n).dir = d.dir := rfl
@[simp] theorem seekTo_inode (d : Disk P) (h n : Nat) : (d.seekTo h n).inode = d.inode := rfl
@[simp] theorem seekTo_fresh (d : Disk P) (h n : Nat) : (d.seekTo h n).fresh = d.fresh := rfl
@[simp] theorem seekTo_lock (d : Disk P) (h n : Nat) : (d.seekTo h n).lock = d.lock := rfl
@[simp] theorem seekTo_handle_self (d : Disk P) (h n : Nat) :
    (d.seekTo h n).handle h = ⟨(d.handle h).ino, n⟩ := by simp [seekTo]
@[simp] theorem seekTo_ino (d : Disk P) (h n k : Nat) :
    ((d.seekTo h n).handle k).ino = (d.handle k).ino := by
  by_cases hk : k = h
  · subst hk; simp
  · simp [seekTo, Function.update_of_ne hk]
@[simp] theorem openAt_dir (d : Disk P) (i : Nat) : (d.openAt i).dir = d.dir := rfl
@[simp] theorem openAt_inode (d : Disk P) (i : Nat) : (d.openAt i).inode = d.inode := rfl
@[simp] theorem openAt_fresh (d : Disk P) (i : Nat) : (d.openAt i).fresh = d.fresh := rfl
@[simp] theorem openAt_lock (d : Disk P) (i : Nat) : (d.openAt i).lock = d.lock := rfl
@[simp] theorem openAt_handle (d : Disk P) (i : Nat) :
    (d.openAt i).handle d.handles = ⟨i, 0⟩ := by simp [openAt]
@[simp] theorem setFile_dir (d : Disk P) (i : Nat) (f : File) : (d.setFile i f).dir = d.dir := rfl
@[simp] theorem setFile_fresh (d : Disk P) (i : Nat) (f : File) :
    (d.setFile i f).fresh = d.fresh := rfl
@[simp] theorem setFile_lock (d : Disk P) (i : Nat) (f : File) :
    (d.setFile i f).lock = d.lock := rfl
@[simp] theorem setFile_handle (d : Disk P) (i : Nat) (f : File) :
    (d.setFile i f).handle = d.handle := rfl
@[simp] theorem setFile_inode_self (d : Disk P) (i : Nat) (f : File) :
    (d.setFile i f).inode i = f := by simp [setFile]
theorem setFile_inode_ne (d : Disk P) {i j : Nat} (f : File) (h : j ≠ i) :
    (d.setFile i f).inode j = d.inode j := by simp [setFile, Function.update_of_ne h]
@[simp] theorem writeTo_dir (d : Disk P) (h : Nat) (bs : Bytes) : (d.writeTo h bs).dir = d.dir := rfl
@[simp] theorem writeTo_fresh (d : Disk P) (h : Nat) (bs : Bytes) :
    (d.writeTo h bs).fresh = d.fresh := rfl
@[simp] theorem writeTo_lock (d : Disk P) (h : Nat) (bs : Bytes) :
    (d.writeTo h bs).lock = d.lock := rfl
@[simp] theorem writeTo_ino (d : Disk P) (h : Nat) (bs : Bytes) (k : Nat) :
    ((d.writeTo h bs).handle k).ino = (d.handle k).ino := by simp [writeTo]
theorem writeTo_inode_self (d : Disk P) (h : Nat) (bs : Bytes) :
    (d.writeTo h bs).inode (d.handle h).ino = (d.file h).writeAt (d.handle h).pos bs := by
  simp [writeTo]
theorem writeTo_inode_ne (d : Disk P) {h j : Nat} (bs : Bytes) (hj : j ≠ (d.handle h).ino) :
    (d.writeTo h bs).inode j = d.inode j := by simp [writeTo, setFile_inode_ne _ _ hj]
@[simp] theorem syncFile_dir (d : Disk P) (h : Nat) : (d.syncFile h).dir = d.dir := rfl
@[simp] theorem syncFile_fresh (d : Disk P) (h : Nat) : (d.syncFile h).fresh = d.fresh := rfl
@[simp] theorem syncFile_lock (d : Disk P) (h : Nat) : (d.syncFile h).lock = d.lock := rfl
@[simp] theorem syncFile_handle (d : Disk P) (h : Nat) : (d.syncFile h).handle = d.handle := rfl
theorem syncFile_inode_self (d : Disk P) (h : Nat) :
    (d.syncFile h).inode (d.handle h).ino = (d.file h).sync := by simp [syncFile]
theorem syncFile_inode_ne (d : Disk P) {h j : Nat} (hj : j ≠ (d.handle h).ino) :
    (d.syncFile h).inode j = d.inode j := by simp [syncFile, setFile_inode_ne _ _ hj]

/-- Seek, write and sync, as one change of the file. -/
theorem burned_inode (d : Disk P) (h off : Nat) (bs : Bytes) :
    (((d.seekTo h off).writeTo h bs).syncFile h).inode (d.handle h).ino =
      ((d.file h).writeAt off bs).sync := by
  have hs := syncFile_inode_self ((d.seekTo h off).writeTo h bs) h
  have hw := writeTo_inode_self (d.seekTo h off) h bs
  rw [file, writeTo_ino, hw] at hs
  simpa [file] using hs

/-- Only `tryLock` touches the lock. -/
theorem exec_lock [DecidableEq P] {F : Faults} {p : Nat} {d d' : Disk P} {op : Op P E} {r : Ans X op}
    (hop : op ≠ .tryLock) (h : exec F p d op r d') : d'.lock = d.lock := by
  cases op with
  | tryLock => exact absurd rfl hop
  | metadata q => cases r <;> simp only [exec] at h <;> simp [h]
  | openFile q =>
    cases r with
    | error e => simp only [exec] at h; simp [h]
    | ok n => obtain ⟨i, -, -, rfl⟩ := h; rfl
  | create q =>
    cases r with
    | error e => simp only [exec] at h; simp [h]
    | ok n =>
      obtain ⟨-, rfl⟩ := h
      unfold createAt
      split <;> rfl
  | readToEnd k =>
    cases r with
    | error e => obtain ⟨-, pos, rfl⟩ := h; rfl
    | ok bs => obtain ⟨-, rfl⟩ := h; rfl
  | seek k pos => cases r <;> simp only [exec] at h <;> simp [h]
  | write k bs =>
    cases r with
    | error e => rcases h with ⟨pos, rfl⟩ | ⟨bs', pos, -, rfl⟩ <;> simp
    | ok u => simp only [exec] at h; simp [h]
  | sync k => cases r <;> simp only [exec] at h <;> simp [h]
  | rename a b =>
    cases r with
    | error e => simp only [exec] at h; simp [h]
    | ok u => obtain ⟨i, -, rfl⟩ := h; rfl
  | openDir => simp only [exec] at h; simp [h]
  | syncDir => cases r <;> simp only [exec] at h <;> simp [h]
  | ext e => simp only [exec] at h; simp [h]

end Disk

/-! ## The machine -/

/-- What a run leaves behind: the operations performed and the calls that
returned something worth recording. -/
inductive Ev (P E : Type) (X : E → Type) (Rep : Type) where
  | op (o : Op P E) (r : Ans X o)
  | ret (r : Rep)

structure World (P E : Type) (X : E → Type) (Rep : Type) where
  disk : Disk P
  log : List (Ev P E X Rep)   -- newest first

section
variable {P E : Type} {X : E → Type} {Rep : Type}

/-- Everything but the attempts to take the lock is recorded. -/
def record : (op : Op P E) → Ans X op → List (Ev P E X Rep) → List (Ev P E X Rep)
  | .tryLock, _, l => l
  | op, r, l => .op op r :: l

theorem record_of_ne {op : Op P E} (h : op ≠ .tryLock) (r : Ans X op)
    (l : List (Ev P E X Rep)) : record op r l = .op op r :: l := by
  cases op <;> first | rfl | exact absurd rfl h

variable [DecidableEq P]

/-- Storage as a machine. `G` restricts the worlds an operation is performed
in (`fun _ _ => True`: no restriction), `pow` is the power failures considered. -/
def storage (F : Faults) (G : World P E X Rep → Op P E → Prop)
    (pow : Disk P → Disk P → Prop) : Machine (Op P E) (Ans X) (World P E X Rep) where
  exec p w op r w' :=
    G w op ∧ Disk.exec F p w.disk op r w'.disk ∧ w'.log = record op r w.log
  owns p w := w.disk.lock = some p
  release p w := if w.disk.lock = some p then { w with disk := { w.disk with lock := none } } else w
  power w w' := pow w.disk w'.disk ∧ w'.disk.lock = none ∧ w'.log = w.log

variable {F : Faults} {G : World P E X Rep → Op P E → Prop} {pow : Disk P → Disk P → Prop}
  {C : World P E X Rep → Prop} {p : Nat}

theorem storage_guar {w w' : World P E X Rep} (ho : (storage F G pow).owns p w)
    (ho' : (storage F G pow).owns p w') : (storage F G pow).Guar p w w' := by
  simp only [storage] at ho ho'
  intro q hq
  constructor
  · intro h; simp only [storage] at h
    rw [ho] at h; exact absurd (Option.some.inj h).symm hq
  · intro h; simp only [storage] at h
    rw [ho'] at h; exact absurd (Option.some.inj h).symm hq

/-! ## Programs over storage -/

/-- Perform `op`; an error ends the program as `conv` of it (Rust's `?`). -/
def io {ε α : Type} (conv : IoError → ε) (op : Op P E) (g : Ans X op → Except IoError α) :
    ExceptT ε (Prog (Op P E) (Ans X)) α :=
  ExceptT.mk (.call op fun r => .ret ((g r).mapError conv))

/-- A pure step that may fail, inside a program. -/
def liftExcept {ε α : Type} (x : Except ε α) : ExceptT ε (Prog (Op P E) (Ans X)) α :=
  ExceptT.mk (.ret x)

/-- Take the lock or fail: `busy` when another process holds it. -/
def takeLock {ε : Type} (busy : ε) (conv : IoError → ε) :
    ExceptT ε (Prog (Op P E) (Ans X)) Unit :=
  ExceptT.mk (.call .tryLock fun
    | .acquired => .ret (.ok ())
    | .wouldBlock => .ret (.error busy)
    | .failed e => .ret (.error (conv e)))

/-- What holds by cases on a result, as one of two ways to go on. -/
theorem iff_ok_or_error {ε α : Type} {y : Except ε α} {A : α → Prop} {B : ε → Prop} {R : Prop}
    (hok : ∀ a, y = .ok a → (R ↔ A a)) (herr : ∀ e, y = .error e → (R ↔ B e)) :
    R ↔ (∃ a, y = .ok a ∧ A a) ∨ ∃ e, y = .error e ∧ B e := by
  refine ⟨fun h => ?_, fun h => ?_⟩
  · cases hy : y with
    | ok a => exact .inl ⟨a, rfl, (hok a hy).mp h⟩
    | error e => exact .inr ⟨e, rfl, (herr e hy).mp h⟩
  · rcases h with ⟨a, hy, ha⟩ | ⟨e, hy, he⟩
    · exact (hok a hy).mpr ha
    · exact (herr e hy).mpr he

omit [DecidableEq P] in
/-- An answer, then what follows it: an error ends the program. -/
theorem yields_io {ε α β : Type} {Q : (op : Op P E) → Ans X op → Prop} {conv : IoError → ε}
    {op : Op P E} {g : Ans X op → Except IoError α} {k : α → ExceptT ε (Prog (Op P E) (Ans X)) β}
    {x : Except ε β} : Prog.Yields Q (io conv op g >>= k).run x ↔
      ∃ r, Q op r ∧ ((∃ a, g r = .ok a ∧ Prog.Yields Q (k a).run x) ∨
        ∃ e, g r = .error e ∧ x = .error (conv e)) := by
  show Prog.Yields Q (.call op fun r => (Prog.ret ((g r).mapError conv)).bind (ExceptT.bindCont k)) x ↔ _
  rw [Prog.yields_call]
  refine exists_congr fun r => and_congr_right fun _ => ?_
  refine iff_ok_or_error (fun a ha => ?_) (fun e he => ?_)
  · rw [ha]
    exact Iff.rfl
  · rw [he]
    exact Prog.yields_ret

omit [DecidableEq P] in
theorem only_io {ε α β : Type} {S : Op P E → Prop} {conv : IoError → ε} {op : Op P E} (hop : S op)
    {g : Ans X op → Except IoError α} {k : α → ExceptT ε (Prog (Op P E) (Ans X)) β}
    (hk : ∀ a, Prog.Only S (k a).run) : Prog.Only S (io conv op g >>= k).run := by
  refine ⟨hop, fun r => ?_⟩
  show Prog.Only S ((Prog.ret ((g r).mapError conv)).bind (ExceptT.bindCont k))
  cases g r with
  | ok a => exact hk a
  | error e => exact trivial

/-- One operation of the lock owner. -/
theorem wp_call {β : Type} {op : Op P E} (hop : op ≠ .tryLock)
    {k : Ans X op → Prog (Op P E) (Ans X) β} {Q : β → World P E X Rep → Prop}
    {w : World P E X Rep} (hc : C w) (ho : w.disk.lock = some p)
    (h : ∀ r d', G w op → Disk.exec F p w.disk op r d' → d'.lock = some p →
      (storage F G pow).wp C p (k r) Q ⟨d', .op op r :: w.log⟩) :
    (storage F G pow).wp C p (.call op k) Q w := by
  refine ⟨hc, fun w' he r w'' hx => ?_⟩
  obtain rfl := he.eq_of_owns (M := storage F G pow) ho
  obtain ⟨d', l'⟩ := w''
  obtain ⟨hg, hx, rfl⟩ := hx
  rw [record_of_ne hop]
  have hl : d'.lock = some p := (Disk.exec_lock hop hx).trans ho
  exact ⟨storage_guar (F := F) ho hl, h r d' hg hx hl⟩

/-- One operation of a run. -/
theorem runs_op {α : Type} {Q : World P E X Rep → Op P E → Prop} (op : Op P E)
    {k : Ans X op → Prog (Op P E) (Ans X) α} {m' : Prog (Op P E) (Ans X) α}
    {w w' : World P E X Rep} (r : Ans X op) (d : Disk P) (hq : Q w op) (hg : G w op)
    (hx : Disk.exec F p w.disk op r d)
    (h : (storage F G pow).Runs Q p (k r) ⟨d, record op r w.log⟩ m' w') :
    (storage F G pow).Runs Q p (.call op k) w m' w' :=
  .step r hq ⟨hg, hx, rfl⟩ h

/-- One operation that does what it was asked to do. -/
theorem runs_good {α : Type} {Q : World P E X Rep → Op P E → Prop} (op : Op P E)
    {k : Ans X op → Prog (Op P E) (Ans X) α} {m' : Prog (Op P E) (Ans X) α}
    {w w' : World P E X Rep} (r : Ans X op) (d : Disk P) (hq : Q w op) (hg : G w op)
    (hs : Succeeds op r) (hx : Disk.exec F p w.disk op r d)
    (h : ((storage F G pow).restrict Succeeds).Runs Q p (k r) ⟨d, record op r w.log⟩ m' w') :
    ((storage F G pow).restrict Succeeds).Runs Q p (.call op k) w m' w' :=
  .step r hq ⟨hs, hg, hx, rfl⟩ h

/-! Complete runs of a program over storage. -/

omit [DecidableEq P] in
/-- An answer, then what follows it: an error ends the run. -/
theorem runs_io {M : Machine (Op P E) (Ans X) (World P E X Rep)} {ε α β : Type}
    {Q : World P E X Rep → Op P E → Prop} {conv : IoError → ε} {op : Op P E}
    {g : Ans X op → Except IoError α} {k : α → ExceptT ε (Prog (Op P E) (Ans X)) β}
    {x : Except ε β} {w w' : World P E X Rep} :
    M.Runs Q p (io conv op g >>= k).run w (.ret x) w' ↔
      ∃ r w₁, Q w op ∧ M.exec p w op r w₁ ∧
        ((∃ a, g r = .ok a ∧ M.Runs Q p (k a).run w₁ (.ret x) w') ∨
          ∃ e, g r = .error e ∧ x = .error (conv e) ∧ w' = w₁) := by
  show M.Runs Q p (.call op fun r => (Prog.ret ((g r).mapError conv)).bind (ExceptT.bindCont k)) w
    (.ret x) w' ↔ _
  rw [Machine.runs_call]
  refine exists_congr fun r => exists_congr fun w₁ => and_congr_right fun _ =>
    and_congr_right fun _ => ?_
  refine iff_ok_or_error (fun a ha => ?_) (fun e he => ?_)
  · rw [ha]
    exact Iff.rfl
  · rw [he]
    exact Machine.runs_ret

omit [DecidableEq P] in
/-- The lock is taken, or the run ends. -/
theorem runs_takeLock {M : Machine (Op P E) (Ans X) (World P E X Rep)} {ε β : Type}
    {Q : World P E X Rep → Op P E → Prop} {busy : ε} {conv : IoError → ε}
    {k : Unit → ExceptT ε (Prog (Op P E) (Ans X)) β} {x : Except ε β} {w w' : World P E X Rep} :
    M.Runs Q p (takeLock busy conv >>= k).run w (.ret x) w' ↔
      ∃ (r : LockAns) (w₁ : World P E X Rep), Q w .tryLock ∧ M.exec p w .tryLock r w₁ ∧
        match r with
        | .acquired => M.Runs Q p (k ()).run w₁ (.ret x) w'
        | .wouldBlock => x = .error busy ∧ w' = w₁
        | .failed e => x = .error (conv e) ∧ w' = w₁ := by
  refine Machine.runs_call.trans ?_
  refine exists_congr fun r => exists_congr fun w₁ => and_congr_right fun _ =>
    and_congr_right fun _ => ?_
  cases r with
  | acquired => exact Iff.rfl
  | wouldBlock => exact Machine.runs_ret
  | failed e => exact Machine.runs_ret

omit [DecidableEq P] in
/-- A pure step that may fail. -/
theorem runs_liftExcept {M : Machine (Op P E) (Ans X) (World P E X Rep)} {ε α β : Type}
    {Q : World P E X Rep → Op P E → Prop} {y : Except ε α}
    {k : α → ExceptT ε (Prog (Op P E) (Ans X)) β} {x : Except ε β} {w w' : World P E X Rep} :
    M.Runs Q p ((liftExcept y : ExceptT ε (Prog (Op P E) (Ans X)) α) >>= k).run w (.ret x) w' ↔
      (∃ a, y = .ok a ∧ M.Runs Q p (k a).run w (.ret x) w') ∨
        ∃ e, y = .error e ∧ x = .error e ∧ w' = w := by
  refine iff_ok_or_error (fun a ha => ?_) (fun e he => ?_)
  · rw [ha]
    exact Iff.rfl
  · rw [he]
    exact Machine.runs_ret

omit [DecidableEq P] in
/-- A fallible part, then the rest. -/
theorem runs_try {M : Machine (Op P E) (Ans X) (World P E X Rep)} {ε α β : Type}
    {Q : World P E X Rep → Op P E → Prop} {m : ExceptT ε (Prog (Op P E) (Ans X)) α}
    {k : α → ExceptT ε (Prog (Op P E) (Ans X)) β} {x : Except ε β} {w w' : World P E X Rep} :
    M.Runs Q p (m >>= k).run w (.ret x) w' ↔
      (∃ a w₁, M.Runs Q p m.run w (.ret (.ok a)) w₁ ∧ M.Runs Q p (k a).run w₁ (.ret x) w') ∨
        ∃ e, M.Runs Q p m.run w (.ret (.error e)) w' ∧ x = .error e := by
  refine (Machine.runs_bind (f := ExceptT.bindCont k)).trans ?_
  constructor
  · intro h
    obtain ⟨y, w₁, h₁, h₂⟩ := h
    cases y with
    | ok a => exact .inl ⟨a, w₁, h₁, h₂⟩
    | error e =>
      obtain ⟨rfl, rfl⟩ := Machine.runs_ret.mp h₂
      exact .inr ⟨e, h₁, rfl⟩
  · intro h
    rcases h with ⟨a, w₁, h₁, h₂⟩ | ⟨e, h, rfl⟩
    · exact ⟨.ok a, w₁, h₁, h₂⟩
    · exact ⟨.error e, w', h, .refl⟩

/-- The same, in a program that goes on after an answer and stops at an error. -/
theorem wp_io {ε α β : Type} {conv : IoError → ε} {op : Op P E} (hop : op ≠ .tryLock)
    {g : Ans X op → Except IoError α} {k : α → ExceptT ε (Prog (Op P E) (Ans X)) β}
    {Q : Except ε β → World P E X Rep → Prop} {w : World P E X Rep} (hc : C w)
    (ho : w.disk.lock = some p)
    (h : ∀ r d', G w op → Disk.exec F p w.disk op r d' → d'.lock = some p →
      match g r with
      | .ok a => (storage F G pow).wp C p (k a).run Q ⟨d', .op op r :: w.log⟩
      | .error e => C ⟨d', .op op r :: w.log⟩ ∧ Q (.error (conv e)) ⟨d', .op op r :: w.log⟩) :
    (storage F G pow).wp C p (io conv op g >>= k).run Q w := by
  refine wp_call (k := fun r => (Prog.ret ((g r).mapError conv)).bind (ExceptT.bindCont k))
    hop hc ho fun r d' hg hx hl => ?_
  have := h r d' hg hx hl
  cases hr : g r with
  | ok a => rw [hr] at this; exact this
  | error e =>
    rw [hr] at this
    exact Machine.wp_ret (M := storage F G pow) this.1 hl this.2

/-- A fallible part with a postcondition of its own, then the rest. -/
theorem wp_try {ε α β : Type} {m : ExceptT ε (Prog (Op P E) (Ans X)) α}
    {k : α → ExceptT ε (Prog (Op P E) (Ans X)) β} (Q' : Except ε α → World P E X Rep → Prop)
    {Q : Except ε β → World P E X Rep → Prop} {w : World P E X Rep}
    (h : (storage F G pow).wp C p m.run Q' w)
    (herr : ∀ e w, C w → Q' (.error e) w → w.disk.lock = some p ∧ Q (.error e) w)
    (hok : ∀ a w, C w → Q' (.ok a) w → (storage F G pow).wp C p (k a).run Q w) :
    (storage F G pow).wp C p (m >>= k).run Q w := by
  refine Machine.wp_bind (Machine.wp_mono h fun x w' hx hc => ?_)
  cases x with
  | ok a => exact hok a w' hc hx
  | error e =>
    obtain ⟨hl, hq⟩ := herr e w' hc hx
    exact Machine.wp_ret (M := storage F G pow) hc hl hq

/-- A pure step that may fail. -/
theorem wp_liftExcept {ε α β : Type} {x : Except ε α} {k : α → ExceptT ε (Prog (Op P E) (Ans X)) β}
    {Q : Except ε β → World P E X Rep → Prop} {w : World P E X Rep} (hc : C w)
    (ho : w.disk.lock = some p) (herr : ∀ e, x = .error e → Q (.error e) w)
    (hok : ∀ a, x = .ok a → (storage F G pow).wp C p (k a).run Q w) :
    (storage F G pow).wp C p ((liftExcept x : ExceptT ε (Prog (Op P E) (Ans X)) α) >>= k).run Q w := by
  cases x with
  | error e => exact Machine.wp_ret (M := storage F G pow) hc ho (herr e rfl)
  | ok a => exact hok a rfl

/-- A process that does not hold the lock takes it, in whatever world the
others have left by then, or fails without a trace. -/
theorem wp_takeLock {ε β : Type} {busy : ε} {conv : IoError → ε}
    {k : Unit → ExceptT ε (Prog (Op P E) (Ans X)) β}
    {Q : Except ε β → World P E X Rep → Prop} {w : World P E X Rep} (hc : C w)
    (hn : w.disk.lock ≠ some p)
    (hlock : ∀ w, C w → C { w with disk := { w.disk with lock := some p } })
    (hok : ∀ w, C w → w.disk.lock = some p → (storage F G pow).wp C p (k ()).run Q w)
    (herr : ∀ e w, C w → w.disk.lock ≠ some p → Q (.error e) w) :
    (storage F G pow).wp C p (takeLock busy conv >>= k).run Q w := by
  refine ⟨hc, fun w' he r w'' hx => ?_⟩
  have hw' : C w' ∧ w'.disk.lock ≠ some p := by
    rcases he with rfl | ⟨-, h, hc'⟩
    · exact ⟨hc, hn⟩
    · exact ⟨hc', h⟩
  have stop : ∀ e : ε, (storage F G pow).wp C p (.ret (.error e)) Q w' := by
    intro e
    refine ⟨hw'.1, fun u hu => ?_⟩
    rcases hu with rfl | ⟨-, h, hc'⟩
    · exact herr e _ hw'.1 hw'.2
    · exact herr e _ hc' h
  obtain ⟨d', l'⟩ := w''
  obtain ⟨-, hx, rfl⟩ := hx
  cases r with
  | acquired =>
    obtain ⟨hfree, rfl⟩ := hx
    refine ⟨fun q hq => ⟨fun h => ?_, fun h => ?_⟩, hok _ (hlock _ hw'.1) rfl⟩
    · simp only [storage, hfree] at h; cases h
    · simp only [storage, Option.some.injEq] at h; exact absurd h.symm hq
  | wouldBlock => obtain ⟨-, rfl⟩ := hx; exact ⟨.refl, stop busy⟩
  | failed e => cases hx; exact ⟨.refl, stop (conv e)⟩

/-! ## Returning from a call -/

variable {Obj Call : Type} {A : Api (Op P E) (Ans X) (World P E X Rep) Obj Call Rep}
  {Holds : Obj → World P E X Rep → Prop}

theorem storage_release_guar (w : World P E X Rep) :
    (storage F G pow).Guar p w ((storage F G pow).release p w) := by
  intro q hq
  simp only [storage]
  split
  · rename_i h
    refine ⟨fun hqo => ?_, fun hqo => by simp at hqo⟩
    rw [h, Option.some.injEq] at hqo
    exact absurd hqo.symm hq
  · exact ⟨fun _ => rfl, id⟩

/-- A power failure is a step of the system. -/
theorem reachable_power {init : World P E X Rep → Prop}
    {K : Sys (Op P E) (Ans X) (World P E X Rep) Obj Call Rep → Act → Prop}
    {s : Sys (Op P E) (Ans X) (World P E X Rep) Obj Call Rep} {d : Disk P}
    (hr : (((storage F G pow).system A init).guard K).Reachable s) (hK : K s .power)
    (hd : pow s.world.disk d) (hl : d.lock = none) :
    (((storage F G pow).system A init).guard K).Reachable ⟨⟨d, s.world.log⟩, fun _ => .idle⟩ := by
  have hstep : (storage F G pow).Step A s .power ⟨⟨d, s.world.log⟩, fun _ => .idle⟩ :=
    .power ⟨hd, hl, rfl⟩
  exact .step .power hr ⟨hK, hstep⟩

omit [DecidableEq P] in
theorem record_suffix (op : Op P E) (r : Ans X op) (l : List (Ev P E X Rep)) :
    l <:+ record op r l := by
  by_cases hop : op = .tryLock
  · subst hop
    exact List.suffix_rfl
  · rw [record_of_ne hop]
    exact List.suffix_cons _ _

/-- Nothing that was recorded is forgotten, within a call. -/
theorem runs_suffix {α : Type} {Q : World P E X Rep → Op P E → Prop}
    {m m' : Prog (Op P E) (Ans X) α} {w w' : World P E X Rep}
    (h : (storage F G pow).Runs Q p m w m' w') : w.log <:+ w'.log := by
  induction h with
  | refl => exact List.suffix_rfl
  | @step op _ _ w _ _ r _ hx _ ih =>
    refine List.IsSuffix.trans ?_ ih
    rw [hx.2.2]
    exact record_suffix op r w.log

/-- Nothing that was recorded is forgotten, whatever happens. -/
theorem log_suffix {s s' : Sys (Op P E) (Ans X) (World P E X Rep) Obj Call Rep} {a : Act}
    (hn : ∀ c r w, w.log <:+ (A.note c r w).log) (h : (storage F G pow).Step A s a s') :
    s.world.log <:+ s'.world.log := by
  have hrel : ∀ p (w : World P E X Rep), ((storage F G pow).release p w).log = w.log := by
    intro p w
    simp only [storage]
    split <;> rfl
  cases h with
  | call => exact List.suffix_rfl
  | @exec p c op k r w hp hx =>
    show s.world.log <:+ w.log
    rw [hx.2.2]
    exact record_suffix op r s.world.log
  | @ret p c o r hp =>
    show s.world.log <:+ ((storage F G pow).finish A p c o r s.world).log
    cases o with
    | none =>
      rw [Machine.finish, hrel]
      exact hn c r s.world
    | some o => exact hn c r s.world
  | drop => exact (hrel _ _).symm ▸ List.suffix_rfl
  | kill => exact (hrel _ _).symm ▸ List.suffix_rfl
  | power hw => exact hw.2.2 ▸ List.suffix_rfl

/-- A call that leaves no object behind. -/
theorem done_none {c : Call} {r : Rep} {w : World P E X Rep} (hn : A.note c r w = w)
    (hc : C ((storage F G pow).release p w)) :
    Done (storage F G pow) A C Holds p c (none, r) w := by
  have e : (storage F G pow).finish A p c none r w = (storage F G pow).release p w := by
    simp only [Machine.finish, hn]
  refine ⟨?_, ?_, fun _ => ?_, fun o h => by cases h⟩
  · rw [e]; exact hc
  · rw [e]; exact storage_release_guar w
  · rw [e]; simp only [storage]; split <;> simp_all

/-- A call that returns an object to the owner of the lock. -/
theorem done_some {c : Call} {r : Rep} {o : Obj} {w : World P E X Rep}
    (ho : w.disk.lock = some p) (ho' : (A.note c r w).disk.lock = some p)
    (hc : C (A.note c r w)) (hh : Holds o (A.note c r w)) :
    Done (storage F G pow) A C Holds p c (some o, r) w := by
  refine ⟨hc, storage_guar ho ho', fun h => (by cases h), fun o' h => ?_⟩
  cases h
  exact ⟨ho', hh⟩

/-- The outline of an API over storage, from what its calls do. -/
def storageOutline (C : World P E X Rep → Prop) (Holds : Obj → World P E X Rep → Prop)
    (release_inv : ∀ w, C w → C { w with disk := { w.disk with lock := none } })
    (power_inv : ∀ w w', C w → (storage F G pow).power w w' → C w')
    (construct : ∀ p c m w, A.run none c = some m → C w → w.disk.lock ≠ some p →
      (storage F G pow).wp C p m (Done (storage F G pow) A C Holds p c) w)
    (method : ∀ p c m o w, A.run (some o) c = some m → C w → w.disk.lock = some p → Holds o w →
      (storage F G pow).wp C p m (Done (storage F G pow) A C Holds p c) w) :
    Outline (storage F G pow) A where
  C := C
  Holds := Holds
  release_inv p w h := by
    simp only [storage]
    split
    · exact release_inv w h
    · exact h
  release_owns p q w h := by
    simp only [storage] at h ⊢
    split at h
    · cases h
    · rename_i hn
      exact ⟨fun e => hn (e ▸ h), h⟩
  release_other p w h := if_neg h
  exclusive p q w hp hq := by
    simp only [storage] at hp hq
    exact Option.some.inj (hp.symm.trans hq)
  power_inv := power_inv
  power_owns p w w' hp h := by
    simp only [storage] at hp h
    rw [hp.2.1] at h; cases h
  construct := construct
  method := method

end
end Drot
