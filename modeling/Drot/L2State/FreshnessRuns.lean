import Drot.L2State.Freshness

/-!
# Whole runs of the freshness gate

Any number of processes that use `markApi` on one path and one anchor, over
storage in which every call may fail, processes are killed and power failures
bring the directory back to any state since its last sync.

A failed `persist` can leave the file ahead of the mark in memory, and a later,
smaller advance can lower the file again, so the file and the mark in memory are
not related. What holds (`Inv`) is a bound by the last accepted version: each
file the path may come back to is synced and reads as a version at least that
high, and so does each mark in memory (`Holds`).

* `accepted_versions_increase`: accepted versions strictly increase across
  processes and restarts, and every constructor that succeeds starts at or above
  all versions accepted before.
-/
namespace Drot.L2.Freshness
open Bytes Text SlotCounter

/-! ## The log -/

def acceptedVersion : MarkEv → Option Nat
  | .ret (.accepted v) => some v.toNat
  | _ => none

/-- Newest first, as the log. -/
def acceptedVersions (log : List MarkEv) : List Nat := log.filterMap acceptedVersion

def AtLeast (mark : Option UInt32) (v : Nat) : Prop := ∃ m, mark = some m ∧ v ≤ m.toNat

/-- Every constructor that succeeds starts at or above what was accepted before. -/
def OpensAtLeast (log : List MarkEv) : Prop :=
  ∀ l₁ mark l₂, log = l₁ ++ .ret (.opened mark) :: l₂ →
    ∀ v ∈ acceptedVersions l₂, AtLeast mark v

structure Logged (log : List MarkEv) : Prop where
  accepted : (acceptedVersions log).Pairwise (· > ·)
  opened : OpensAtLeast log

theorem OpensAtLeast.cons {log : List MarkEv} (h : OpensAtLeast log) {e : MarkEv}
    (he : ∀ mark, e = .ret (.opened mark) → ∀ v ∈ acceptedVersions log, AtLeast mark v) :
    OpensAtLeast (e :: log) := by
  intro l₁ mark l₂ heq
  cases l₁ with
  | nil =>
    obtain ⟨rfl, rfl⟩ := List.cons.inj heq
    exact he mark rfl
  | cons a l₁ => exact h l₁ mark l₂ (List.cons.inj heq).2

theorem acceptedVersions_quiet {l : List MarkEv} (hl : ∀ e ∈ l, e.Quiet) (log : List MarkEv) :
    acceptedVersions (l ++ log) = acceptedVersions log := by
  have hnil : l.filterMap acceptedVersion = [] := by
    apply List.filterMap_eq_nil_iff.mpr
    intro e he
    have hq := hl e he
    unfold acceptedVersion
    split
    · exact hq.elim
    · rfl
  unfold acceptedVersions
  rw [List.filterMap_append, hnil, List.nil_append]

theorem Logged.quiet {log : List MarkEv} (h : Logged log) {l : List MarkEv}
    (hl : ∀ e ∈ l, e.Quiet) : Logged (l ++ log) := by
  refine ⟨by rw [acceptedVersions_quiet hl]; exact h.accepted, ?_⟩
  induction l with
  | nil => exact h.opened
  | cons e l ih =>
    refine (ih fun x hx => hl x (by simp [hx])).cons ?_
    rintro mark rfl
    exact (hl (.ret (.opened mark)) (by simp)).elim

/-! ## The invariant -/

/-- A synced state file of this anchor whose version is at least `v`. -/
structure MarkFile (fp : Str) (v : Nat) (f : File) : Prop where
  clean : ∀ c ∈ f, c.pending = []
  reads : ∃ raw u, fromUtf8 f.content = some raw ∧ parse raw fp = .ok (u, true) ∧ v ≤ u.toNat

/-- Every file the path may refer to or come back to. -/
def MarkOnDisk (path : Path) (fp : Str) (v : Nat) (d : Disk Path) : Prop :=
  ∀ m ∈ d.dir.all, ∃ i, m path = some i ∧ MarkFile fp v (d.inode i)

structure Inv (path : Path) (fp : Str) (w : MarkWorld) : Prop where
  tidy : Tidy (sibling path "tmp") path w.disk
  logged : Logged w.log
  onDisk : ∀ v ∈ acceptedVersions w.log, MarkOnDisk path fp v w.disk

/-- A mark in memory. -/
structure Holds (path : Path) (fp : Str) (m : HighWaterMark) (w : MarkWorld) : Prop where
  inv : Inv path fp w
  path_eq : m.path = path
  fp_eq : m.fingerprint = fp
  above : ∀ v ∈ acceptedVersions w.log, AtLeast m.mark v

/-- Any content at the path; the temporary does not share a file with it. -/
structure Start (path : Path) (w : MarkWorld) : Prop where
  log : w.log = []
  lock : w.disk.lock = none
  tidy : Tidy (sibling path "tmp") path w.disk

/-- Kills, failing calls and power failures. -/
def markMachine (F : Faults) : Machine MarkOp (Ans NoCall) MarkWorld :=
  storage F (fun _ _ => True) (Disk.powerFail F)

section Frames
variable {path : Path} {fp : Str} {d d' : Disk Path} {l l' : List MarkEv}

theorem Inv.sameFiles (h : Inv path fp ⟨d, l⟩) (hs : SameFiles d d') (l' : List MarkEv)
    (hq : ∀ e ∈ l', e.Quiet) : Inv path fp ⟨d', l' ++ l⟩ := by
  obtain ⟨ht, hl, hd⟩ := h
  refine ⟨ht.sameFiles hs, hl.quiet hq, ?_⟩
  · rw [acceptedVersions_quiet hq]
    intro v hv
    unfold MarkOnDisk
    rw [hs.dir, hs.inode]
    exact hd v hv

theorem Inv.lock {w : MarkWorld} (h : Inv path fp w) {o : Option Nat} :
    Inv path fp { w with disk := { w.disk with lock := o } } := by
  have hs : SameFiles w.disk { w.disk with lock := o } := ⟨rfl, rfl, rfl⟩
  exact h.sameFiles hs [] (by simp)

/-- The steps of `persist` up to the rename leave every file in place. -/
theorem Inv.scratch (h : Inv path fp ⟨d, l⟩) (hs : Scratch (sibling path "tmp") path d d')
    (hq : ∀ e ∈ l', e.Quiet) : Inv path fp ⟨d', l' ++ l⟩ := by
  refine ⟨hs.tidy, h.logged.quiet hq, ?_⟩
  rw [acceptedVersions_quiet hq]
  intro v hv m' hm'
  obtain ⟨m, hm, he⟩ := hs.names m' hm'
  obtain ⟨i, hi, hf⟩ := h.onDisk v hv m hm
  refine ⟨i, he.trans hi, ?_⟩
  rw [hs.files m hm i hi]
  exact hf

/-- The rename adds a file that holds `bs`. -/
theorem Inv.replaced (h : Inv path fp ⟨d, l⟩) {bs : Bytes} {i : Nat}
    (hr : Replaced (sibling path "tmp") path bs i d d') (hq : ∀ e ∈ l', e.Quiet)
    (hbs : ∀ v ∈ acceptedVersions l, MarkFile fp v (File.writeAt [] 0 bs).sync) :
    Inv path fp ⟨d', l' ++ l⟩ := by
  refine ⟨hr.tidy, h.logged.quiet hq, ?_⟩
  rw [acceptedVersions_quiet hq]
  intro v hv m' hm'
  rcases hr.names m' hm' with hi | ⟨m, hm, he⟩
  · refine ⟨i, hi, ?_⟩
    show MarkFile fp v (d'.inode i)
    rw [hr.file]
    exact hbs v hv
  · obtain ⟨j, hj, hf⟩ := h.onDisk v hv m hm
    refine ⟨j, he.trans hj, ?_⟩
    show MarkFile fp v (d'.inode j)
    rw [hr.files m hm j hj]
    exact hf

theorem Inv.power {F : Faults} (h : Inv path fp ⟨d, l⟩) (hp : Disk.powerFail F d d') :
    Inv path fp ⟨d', l⟩ := by
  refine ⟨h.tidy.power hp, h.logged, fun v hv m' hm' => ?_⟩
  obtain ⟨⟨m, hm, hdir⟩, hfiles, -, -⟩ := hp
  have hmm : m' = m := by
    have hm' : m' ∈ d'.dir.all := hm'
    rw [hdir] at hm'
    simpa using hm'
  obtain ⟨i, hi, hf⟩ := h.onDisk v hv m hm
  refine ⟨i, by rw [hmm]; exact hi, ?_⟩
  show MarkFile fp v (d'.inode i)
  rw [(hfiles i).eq_of_clean hf.clean]
  exact hf

end Frames

/-- What `persist` writes for a version. -/
theorem markFile_written (sha3 : Bytes → Blob 32) (anchor : Bytes) {u : UInt32} {v : Nat}
    (h : v ≤ u.toNat) : MarkFile (fingerprint sha3 anchor) v
      (File.writeAt [] 0 (toUtf8 (stateLine (fingerprint sha3 anchor) (some u)))).sync := by
  refine ⟨fun c hc => ?_, stateLine (fingerprint sha3 anchor) (some u), u, ?_, ?_, h⟩
  · obtain ⟨c', -, rfl⟩ := List.mem_map.mp hc
    rfl
  · rw [File.content_sync, File.content_writeAt_nil, fromUtf8_toUtf8]
  · exact parse_stateLine sha3 anchor (some u)

/-! ## The rules -/

section Rules
variable {sha3 : Bytes → Blob 32} {path : Path} {anchor : Bytes} {F : Faults} {p : Nat}
  {m : HighWaterMark} {w : MarkWorld}

/-- Every crash point of `persist`, when the version it writes is at least as
high as all accepted ones. -/
theorem wp_persist {version : Option UInt32} (hc : Inv path (fingerprint sha3 anchor) w)
    (hl : w.disk.lock = some p) (hpath : m.path = path)
    (hfp : m.fingerprint = fingerprint sha3 anchor)
    (hv : ∀ v ∈ acceptedVersions w.log, AtLeast version v) :
    (markMachine F).wp (Inv path (fingerprint sha3 anchor)) p (persist m version).run
      (fun x w' => w'.disk.lock = some p ∧ acceptedVersions w'.log = acceptedVersions w.log ∧
        (x = .ok () → ∀ u, version = some u →
          MarkOnDisk path (fingerprint sha3 anchor) u.toNat w'.disk)) w := by
  have hbs : ∀ v ∈ acceptedVersions w.log, MarkFile (fingerprint sha3 anchor) v
      (File.writeAt [] 0 (toUtf8 (stateLine (fingerprint sha3 anchor) version))).sync := by
    intro v hmem
    obtain ⟨u, rfl, hu⟩ := hv v hmem
    exact markFile_written sha3 anchor hu
  unfold markMachine persist
  rw [hpath, hfp]
  refine wp_try (fun x w' => w'.disk.lock = some p ∧
    acceptedVersions w'.log = acceptedVersions w.log ∧ ∀ k, x = .ok k → ∀ u, version = some u →
      MarkOnDisk path (fingerprint sha3 anchor) u.toNat w'.disk) ?_ ?_ ?_
  · refine wp_atomicReplace (sibling_ne path "tmp") hl hc.tidy ?_ ?_ ?_
    · intro d l hs hd hq
      exact ⟨hc.scratch hs hq, fun e _ => ⟨hd, acceptedVersions_quiet hq _, by rintro _ ⟨⟩⟩⟩
    · intro i d l hr hd hq
      exact ⟨hc.replaced hr hq hbs, fun e _ => ⟨hd, acceptedVersions_quiet hq _, by rintro _ ⟨⟩⟩⟩
    · intro i k d l hr _ hd hq
      refine ⟨hd, acceptedVersions_quiet hq _, fun _ _ u hu m' hm' => ?_⟩
      refine ⟨i, hr.settled m' hm', ?_⟩
      show MarkFile _ _ (d.inode i)
      rw [hr.file, hu]
      exact markFile_written sha3 anchor (le_refl _)
  · intro e w' _ hx
    exact ⟨hx.1, hx.1, hx.2.1, by rintro ⟨⟩⟩
  · intro k w' hc' hx
    exact Machine.wp_ret (M := storage _ _ _) hc' hx.1 ⟨hx.1, hx.2.1, fun _ => hx.2.2 k rfl⟩

/-- What a constructor leaves. -/
def OpenPost (path : Path) (fp : Str) (p : Nat) (x : Except HighWaterMarkError HighWaterMark)
    (w : MarkWorld) : Prop :=
  ∀ m, x = .ok m → w.disk.lock = some p ∧ Holds path fp m w

/-- A constructor that writes its own mark first. -/
theorem wp_persistNew {version : Option UInt32} (hc : Inv path (fingerprint sha3 anchor) w)
    (hl : w.disk.lock = some p) (hpath : m.path = path)
    (hfp : m.fingerprint = fingerprint sha3 anchor) (hnone : acceptedVersions w.log = []) :
    (markMachine F).wp (Inv path (fingerprint sha3 anchor)) p
      (do persist m version
          return m : MarkIo HighWaterMark).run
      (OpenPost path (fingerprint sha3 anchor) p) w := by
  unfold markMachine
  refine wp_try _ (wp_persist hc hl hpath hfp (by rw [hnone]; simp)) ?_ ?_
  · intro e w' _ hx
    exact ⟨hx.1, by rintro _ ⟨⟩⟩
  · intro u w' hc' hx
    refine Machine.wp_ret (M := storage _ _ _) hc' hx.1 ?_
    rintro _ ⟨⟩
    refine ⟨hx.1, hc', hpath, hfp, ?_⟩
    rw [hx.2.1, hnone]
    simp

/-- The path is absent, or holds no valid state: nothing was accepted yet. -/
theorem none_accepted (hc : Inv path (fingerprint sha3 anchor) w)
    (h : ∀ i, w.disk.lookup path = some i →
      validState (fingerprint sha3 anchor) (w.disk.inode i).content = false) :
    acceptedVersions w.log = [] := by
  apply List.eq_nil_iff_forall_not_mem.mpr
  intro v hv
  obtain ⟨i, hi, hf⟩ := hc.onDisk v hv _ w.disk.dir.visible_mem_all
  obtain ⟨raw, u, hraw, hparse, -⟩ := hf.reads
  have := h i hi
  unfold validState at this
  rw [hraw] at this
  simp only [hparse] at this
  cases this

theorem wp_create (hc : Inv path (fingerprint sha3 anchor) w) (hl : w.disk.lock ≠ some p) :
    (markMachine F).wp (Inv path (fingerprint sha3 anchor)) p (create sha3 path anchor).run
      (OpenPost path (fingerprint sha3 anchor) p) w := by
  unfold markMachine create acquireLock
  refine wp_takeLock hc hl (fun w h => h.lock) ?_ (fun e w _ _ => by rintro _ ⟨⟩)
  intro w hc hl
  refine wp_io (by simp) hc hl ?_
  rintro r d - hx hl'
  have hd : d = w.disk := by cases r <;> simp_all [Disk.exec]
  subst hd
  have hc' := hc.sameFiles ⟨rfl, rfl, rfl⟩ [.op (.metadata path) r] (by simp [Ev.Quiet])
  refine wp_liftExcept hc' hl' (fun e _ => by rintro _ ⟨⟩) fun _ hr => ?_
  have habs : w.disk.lookup path = none := by
    cases r with
    | ok u => cases hr
    | error e => exact hx.1
  exact wp_persistNew hc' hl' rfl rfl (none_accepted hc' (by rw [habs]; rintro _ ⟨⟩))

/-- Whatever valid state `open` reads is at or above all accepted versions. -/
theorem openFrom_holds (hc : Inv path (fingerprint sha3 anchor) w)
    {read : Except IoError Bytes} (hread : ReadAns path w.disk read)
    (h : openFrom path (fingerprint sha3 anchor) read = .ok m) :
    Holds path (fingerprint sha3 anchor) m w := by
  unfold openFrom at h
  split at h
  · cases h
  rename_i bytes
  split at h
  · cases h
  rename_i raw hraw
  split at h
  · cases h
  rename_i current have_ hparse
  cases h
  refine ⟨hc, rfl, rfl, fun v hv => ?_⟩
  obtain ⟨i, hi, rfl⟩ := hread
  obtain ⟨j, hj, hf⟩ := hc.onDisk v hv _ w.disk.dir.visible_mem_all
  obtain rfl : i = j := Option.some.inj (hi.symm.trans hj)
  obtain ⟨raw', u, hraw', hparse', hvu⟩ := hf.reads
  rw [hraw] at hraw'
  cases hraw'
  rw [hparse] at hparse'
  cases hparse'
  exact ⟨current, rfl, hvu⟩

theorem wp_open (hc : Inv path (fingerprint sha3 anchor) w) (hl : w.disk.lock ≠ some p) :
    (markMachine F).wp (Inv path (fingerprint sha3 anchor)) p (open_ sha3 path anchor).run
      (OpenPost path (fingerprint sha3 anchor) p) w := by
  unfold markMachine open_ acquireLock
  refine wp_takeLock hc hl (fun w h => h.lock) ?_ (fun e w _ _ => by rintro _ ⟨⟩)
  intro w hc hl
  refine wp_readFile hl (fun d l hs hq => hc.sameFiles hs _ hq) ?_
  intro r d l hr hs hl' hq
  have hc' := hc.sameFiles hs _ hq
  refine Machine.wp_ret (M := storage _ _ _) hc' hl' ?_
  intro m hm
  have hr' : ReadAns path d r := by
    unfold ReadAns Disk.lookup at hr ⊢
    rw [hs.dir, hs.inode]
    exact hr
  exact ⟨hl', openFrom_holds hc' hr' hm⟩

theorem wp_loadFromTrustedSource (hc : Inv path (fingerprint sha3 anchor) w)
    (hl : w.disk.lock ≠ some p) (latest : UInt32) :
    (markMachine F).wp (Inv path (fingerprint sha3 anchor)) p
      (loadFromTrustedSource sha3 path anchor latest).run
      (OpenPost path (fingerprint sha3 anchor) p) w := by
  unfold markMachine loadFromTrustedSource acquireLock
  refine wp_takeLock hc hl (fun w h => h.lock) ?_ (fun e w _ _ => by rintro _ ⟨⟩)
  intro w hc hl
  refine wp_readFile hl (fun d l hs hq => hc.sameFiles hs _ hq) ?_
  intro r d l hr hs hl' hq
  have hc' := hc.sameFiles hs _ hq
  refine wp_liftExcept hc' hl' (fun e _ => by rintro _ ⟨⟩) fun _ hrec => ?_
  refine wp_persistNew hc' hl' rfl rfl ?_
  -- recovery goes on only where there is no valid state to overwrite
  rw [acceptedVersions_quiet hq]
  refine none_accepted hc fun i hi => ?_
  unfold recoverFrom at hrec
  cases r with
  | ok bytes =>
    obtain ⟨j, hj, rfl⟩ := hr
    rw [hi] at hj
    cases hj
    by_contra hv
    rw [Bool.not_eq_false] at hv
    simp only [hv, if_true] at hrec
    cases hrec
  | error e =>
    by_cases hk : e.kind = .notFound
    · rw [hr hk] at hi; cases hi
    · simp only [if_neg hk] at hrec; cases hrec

/-- What `try_advance` leaves, the record of an acceptance included. -/
def AdvancePost (path : Path) (fp : Str) (p : Nat) (m : HighWaterMark) (version : UInt32)
    (x : Except HighWaterMarkError (HighWaterMark × Decision)) (w : MarkWorld) : Prop :=
  w.disk.lock = some p ∧ match x with
    | .error _ => Holds path fp m w
    | .ok (m', .stale _) => Holds path fp m' w
    | .ok (m', .accepted) => Holds path fp m' ⟨w.disk, .ret (.accepted version) :: w.log⟩

/-- An acceptance on disk becomes one on record. -/
theorem holds_accepted {version : UInt32} (hc : Inv path (fingerprint sha3 anchor) w)
    (hd : MarkOnDisk path (fingerprint sha3 anchor) version.toNat w.disk)
    (hpath : m.path = path) (hfp : m.fingerprint = fingerprint sha3 anchor)
    (hv : ∀ v ∈ acceptedVersions w.log, v < version.toNat) :
    Holds path (fingerprint sha3 anchor) { m with current := version, have_ := true }
      ⟨w.disk, .ret (.accepted version) :: w.log⟩ := by
  have hall : acceptedVersions (.ret (.accepted version) :: w.log) =
      version.toNat :: acceptedVersions w.log := rfl
  refine ⟨⟨hc.tidy, ⟨?_, ?_⟩, ?_⟩, hpath, hfp, ?_⟩
  · rw [hall]
    exact List.pairwise_cons.mpr ⟨hv, hc.logged.accepted⟩
  · exact hc.logged.opened.cons (by rintro _ ⟨⟩)
  · rw [hall]
    intro v hmem
    rcases List.mem_cons.mp hmem with rfl | hmem
    · exact hd
    · exact hc.onDisk v hmem
  · rw [hall]
    intro v hmem
    refine ⟨version, rfl, ?_⟩
    rcases List.mem_cons.mp hmem with rfl | hmem
    · exact le_refl _
    · exact (hv v hmem).le

theorem wp_advanced (h : Holds path (fingerprint sha3 anchor) m w) (hl : w.disk.lock = some p)
    (version : UInt32) :
    (markMachine F).wp (Inv path (fingerprint sha3 anchor)) p (advanced m version).run
      (AdvancePost path (fingerprint sha3 anchor) p m version) w := by
  unfold markMachine advanced
  split
  · exact Machine.wp_ret (M := storage _ _ _) h.inv hl ⟨hl, h⟩
  rename_i hnew
  -- what passes the comparison is above every accepted version
  have hlt : ∀ v ∈ acceptedVersions w.log, v < version.toNat := by
    intro v hv
    obtain ⟨u, hu, hle⟩ := h.above v hv
    unfold HighWaterMark.mark at hu
    split at hu
    · rename_i hh
      cases hu
      have : ¬ version ≤ m.current := fun hle => hnew ⟨hh, hle⟩
      rw [UInt32.not_le, UInt32.lt_iff_toNat_lt] at this
      omega
    · cases hu
  refine wp_try _ (wp_persist h.inv hl h.path_eq h.fp_eq
    (fun v hv => ⟨version, rfl, (hlt v hv).le⟩)) ?_ ?_
  · intro e w' hc' hx
    refine ⟨hx.1, hx.1, hc', h.path_eq, h.fp_eq, ?_⟩
    rw [hx.2.1]
    exact h.above
  · intro _ w' hc' hx
    refine Machine.wp_ret (M := storage _ _ _) hc' hx.1 ⟨hx.1, ?_⟩
    exact holds_accepted hc' (hx.2.2 rfl version rfl) h.path_eq h.fp_eq (by rw [hx.2.1]; exact hlt)

end Rules

/-! ## The outline -/

section Outline
variable {sha3 : Bytes → Blob 32} {path : Path} {anchor : Bytes} {F : Faults} {p : Nat}
  {m : HighWaterMark} {w : MarkWorld} {call : MarkCall}

theorem wp_asConstructor {x : MarkIo HighWaterMark}
    (h : (markMachine F).wp (Inv path (fingerprint sha3 anchor)) p x.run
      (OpenPost path (fingerprint sha3 anchor) p) w) :
    (markMachine F).wp (Inv path (fingerprint sha3 anchor)) p (asConstructor x)
      (Done (markMachine F) (markApi sha3 path anchor) (Inv path (fingerprint sha3 anchor))
        (Holds path (fingerprint sha3 anchor)) p call) w := by
  refine Machine.wp_bind (Machine.wp_mono h fun y w' hy hc => ?_)
  cases y with
  | error e =>
    refine ⟨hc, fun w'' he => done_none rfl ?_⟩
    have hc' : Inv path (fingerprint sha3 anchor) w'' := by
      rcases he with rfl | ⟨-, -, hc'⟩
      · exact hc
      · exact hc'
    simp only [storage]
    split
    · exact hc'.lock
    · exact hc'
  | ok m =>
    obtain ⟨hl, hh⟩ := hy m rfl
    have hc' : Inv path (fingerprint sha3 anchor) ⟨w'.disk, .ret (.opened m.mark) :: w'.log⟩ := by
      refine ⟨hc.tidy, ⟨hc.logged.accepted, hc.logged.opened.cons ?_⟩, hc.onDisk⟩
      rintro _ ⟨⟩
      exact hh.above
    exact Machine.wp_ret (M := markMachine F) hc hl
      (done_some hl hl hc' ⟨hc', hh.path_eq, hh.fp_eq, hh.above⟩)

theorem wp_asAdvance {version : UInt32} {x : MarkMut Decision}
    {y : MarkIo (HighWaterMark × Decision)} (hy : Prog.Commits x m y)
    (h : (markMachine F).wp (Inv path (fingerprint sha3 anchor)) p y.run
      (AdvancePost path (fingerprint sha3 anchor) p m version) w) :
    (markMachine F).wp (Inv path (fingerprint sha3 anchor)) p (asAdvance m version x)
      (Done (markMachine F) (markApi sha3 path anchor) (Inv path (fingerprint sha3 anchor))
        (Holds path (fingerprint sha3 anchor)) p call) w := by
  unfold asAdvance
  rw [hy.bind]
  refine Machine.wp_bind (Machine.wp_mono h fun r w' hr hc => ?_)
  obtain ⟨hl, hy⟩ := hr
  rcases r with e | ⟨m', _ | mark⟩
  · exact Machine.wp_ret (M := markMachine F) hc hl (done_some hl hl hc hy)
  · exact Machine.wp_ret (M := markMachine F) hc hl (done_some hl hl hy.inv hy)
  · exact Machine.wp_ret (M := markMachine F) hc hl (done_some hl hl hc hy)

/-- Every call of the gate meets the invariant. -/
def markOutline (sha3 : Bytes → Blob 32) (path : Path) (anchor : Bytes) (F : Faults) :
    Outline (markMachine F) (markApi sha3 path anchor) := by
  refine storageOutline (Inv path (fingerprint sha3 anchor)) (Holds path (fingerprint sha3 anchor))
    (fun w h => h.lock) ?_ ?_ ?_
  · intro w w' h hp
    obtain ⟨hp, -, hlog⟩ := hp
    obtain ⟨d', l'⟩ := w'
    cases hlog
    exact h.power hp
  · intro p call m w hm hc hl
    cases call with
    | create => cases hm; exact wp_asConstructor (wp_create hc hl)
    | open_ => cases hm; exact wp_asConstructor (wp_open hc hl)
    | loadFromTrustedSource v =>
      cases hm; exact wp_asConstructor (wp_loadFromTrustedSource hc hl v)
    | tryAdvance _ => cases hm
  · intro p call m c w hm hc hl hh
    cases call with
    | create => cases hm
    | open_ => cases hm
    | loadFromTrustedSource _ => cases hm
    | tryAdvance v => cases hm; exact wp_asAdvance (commits_tryAdvance c v) (wp_advanced hh hl v)

end Outline

theorem Start.inv {path : Path} {fp : Str} {w : MarkWorld} (h : Start path w) : Inv path fp w := by
  have hnil : acceptedVersions w.log = [] := by rw [h.log]; rfl
  refine ⟨h.tidy, ⟨by rw [hnil]; exact .nil, ?_⟩, by rw [hnil]; simp⟩
  rw [h.log]
  intro l₁ mark l₂ he
  simp at he

theorem inv_reachable {sha3 : Bytes → Blob 32} {path : Path} {anchor : Bytes} {F : Faults}
    {s : MarkSys} (hr : ((markMachine F).system (markApi sha3 path anchor) (Start path)).Reachable s) :
    Inv path (fingerprint sha3 anchor) s.world := by
  refine ((markOutline sha3 path anchor F).reachable (fun w h => h.inv) ?_ s hr).1
  intro p w h ho
  have ho : w.disk.lock = some p := ho
  rw [h.lock] at ho
  cases ho

/-- In every run, whatever the initial content of the path, whichever calls fail,
wherever processes are killed and whatever a power failure takes back: accepted
versions strictly increase in the order accepted, and every constructor that
succeeds yields a mark at least as high as every version accepted before. -/
theorem accepted_versions_increase (sha3 : Bytes → Blob 32) (path : Path) (anchor : Bytes)
    (F : Faults) (s : MarkSys)
    (hr : ((markMachine F).system (markApi sha3 path anchor) (Start path)).Reachable s) :
    (acceptedVersions s.world.log).reverse.Pairwise (· < ·) ∧ OpensAtLeast s.world.log := by
  have hinv := inv_reachable hr
  exact ⟨List.pairwise_reverse.mpr hinv.logged.accepted, hinv.logged.opened⟩

/-! ## Complete calls -/

/-- A complete call, from `w` to `w'`, that returns `r`. -/
abbrev MarkReturns {α : Type} (F : Faults) (p : Nat) (x : MarkIo α) (w : MarkWorld)
    (r : Except HighWaterMarkError α) (w' : MarkWorld) : Prop :=
  (markMachine F).Runs (fun _ _ => True) p x.run w (.ret r) w'

/-- The mark is dropped: its lock is free and the files are as they are. -/
def dropped (w : MarkWorld) : MarkWorld := { w with disk := { w.disk with lock := none } }

section Calls
variable {F : Faults} {p : Nat} {sha3 : Bytes → Blob 32} {path : Path} {anchor : Bytes}
  {m : HighWaterMark} {w : MarkWorld}

/-- What the path holds reads as `m`. -/
def Reads (path : Path) (fp : Str) (d : Disk Path) (m : HighWaterMark) : Prop :=
  ∃ i, d.lookup path = some i ∧ openFrom path fp (.ok (d.inode i).content) = .ok m

theorem open_of_reads (F : Faults) (p : Nat) (hl : w.disk.lock = none)
    (h : Reads path (fingerprint sha3 anchor) w.disk m) :
    ∃ w', MarkReturns F p (open_ sha3 path anchor) w (.ok m) w' ∧ SameFiles w.disk w'.disk := by
  obtain ⟨i, hi, hm⟩ := h
  set d : Disk Path := { w.disk with lock := some p }
  have hopen : (d.openAt i).handle d.handles = ⟨i, 0⟩ := Disk.openAt_handle d i
  refine ⟨⟨(d.openAt i).seekTo d.handles (w.disk.inode i).content.length,
    .op (.readToEnd d.handles) (.ok (w.disk.inode i).content) ::
      .op (.openFile path) (.ok d.handles) :: w.log⟩, ?_, ⟨rfl, rfl, rfl⟩⟩
  refine runs_op .tryLock .acquired d trivial trivial ⟨hl, rfl⟩ ?_
  refine runs_op (.openFile path) (.ok d.handles) _ trivial trivial ⟨i, hi, rfl, rfl⟩ ?_
  refine runs_op (.readToEnd d.handles) (.ok (w.disk.inode i).content)
    ((d.openAt i).seekTo d.handles (w.disk.inode i).content.length) trivial trivial ⟨?_, ?_⟩ ?_
  · show _ = (d.inode ((d.openAt i).handle d.handles).ino).content.drop
      ((d.openAt i).handle d.handles).pos
    rw [hopen]
    rfl
  · show _ = (d.openAt i).seekTo d.handles (((d.openAt i).handle d.handles).pos + _)
    rw [hopen, Nat.zero_add]
  · exact Machine.runs_ret.mpr ⟨hm.symm, rfl⟩

/-- `persist` when no call fails: the path then reads as the version written. -/
theorem runs_persist (F : Faults) (version : Option UInt32) (hl : w.disk.lock = some p)
    (ht : Tidy (sibling m.path "tmp") m.path w.disk) : ∃ w' l,
    MarkReturns F p (persist m version) w (.ok ()) w' ∧ w'.log = l ++ w.log ∧
    (∀ e ∈ l, e.Quiet) ∧ ∃ i, w'.disk.lookup m.path = some i ∧
      (w'.disk.inode i).content = toUtf8 (stateLine m.fingerprint version) := by
  obtain ⟨d, l, hrun, hq, -⟩ := runs_atomicReplace F (Disk.powerFail F) p HighWaterMarkError.io
    (sibling m.path "tmp") m.path (toUtf8 (stateLine m.fingerprint version)) w
    (fun _ _ _ => trivial)
  obtain ⟨-, -, hend⟩ := atomicReplace_end (sibling_ne m.path "tmp") hl ht hrun.of_restrict
  refine ⟨⟨d, l ++ w.log⟩, l, hrun.of_restrict.bind _, rfl, hq, ?_⟩
  cases hend with
  | done f hi =>
    refine ⟨_, hi.look, ?_⟩
    rw [hi.file, File.content_sync, File.content_writeAt_nil]

end Calls

/-! ## Two acceptances -/

section Serving
variable {F : Faults} {p : Nat} {sha3 : Bytes → Blob 32} {path : Path} {anchor : Bytes}
  {m : HighWaterMark} {s : MarkSys}

/-- Process `p` holds `m`, and the path reads as `m`. -/
structure Serving (sha3 : Bytes → Blob 32) (path : Path) (anchor : Bytes) (p : Nat)
    (m : HighWaterMark) (s : MarkSys) : Prop where
  live : s.procs p = .live m
  reads : Reads path (fingerprint sha3 anchor) s.world.disk m

theorem serving_holds (h : Serving sha3 path anchor p m s)
    (hr : ((markMachine F).system (markApi sha3 path anchor) (Start path)).Reachable s) :
    s.world.disk.lock = some p ∧ Holds path (fingerprint sha3 anchor) m s.world := by
  have hinv := (markOutline sha3 path anchor F).reachable (fun w h => h.inv) (fun p w h ho => by
    have ho : w.disk.lock = some p := ho
    rw [h.lock] at ho
    cases ho) s hr
  have hp := hinv.2 p
  rw [h.live] at hp
  exact hp

/-- A first `create` that meets no fault. -/
theorem serving_created (F : Faults) (sha3 : Bytes → Blob 32) (path : Path) (anchor : Bytes) :
    ∃ s : MarkSys, ((markMachine F).system (markApi sha3 path anchor) (Start path)).Reachable s ∧
      Serving sha3 path anchor 0 ⟨path, fingerprint sha3 anchor, 0, false⟩ s := by
  let m : HighWaterMark := ⟨path, fingerprint sha3 anchor, 0, false⟩
  let w : MarkWorld := ⟨{ (Disk.empty : Disk Path) with lock := some 0 },
    [.op (.metadata path) (.error ⟨.notFound, ""⟩)]⟩
  obtain ⟨⟨d, l⟩, -, hpersist, -, -, i, hi, hfile⟩ := runs_persist (w := w) (m := m) (p := 0) F
    none rfl ((tidy_empty _ _).sameFiles ⟨rfl, rfl, rfl⟩)
  have hcreate : (markMachine F).Runs (fun _ _ => True) 0 (asConstructor (create sha3 path anchor))
      ⟨.empty, []⟩ (.ret (some m, .opened none)) ⟨d, l⟩ := by
    refine runs_op .tryLock .acquired _ trivial trivial ⟨rfl, rfl⟩ ?_
    refine runs_op (.metadata path) (.error ⟨.notFound, ""⟩) _ trivial trivial ⟨rfl, rfl, rfl⟩ ?_
    exact (hpersist.bind _).bind _
  have h0 : ((markMachine F).system (markApi sha3 path anchor) (Start path)).Reachable
      ⟨⟨.empty, []⟩, fun _ => .idle⟩ := .init ⟨⟨rfl, rfl, tidy_empty _ _⟩, rfl⟩
  have hr := Machine.reachable_done (o := none) (c := MarkCall.create) hcreate rfl rfl h0
  refine ⟨_, hr, rfl, i, hi, ?_⟩
  show openFrom path _ (.ok (d.inode i).content) = _
  rw [hfile]
  exact openFrom_ok (parse_stateLine sha3 anchor none)

/-- A version above the mark is accepted. -/
theorem serving_advanced (h : Serving sha3 path anchor p m s)
    (hr : ((markMachine F).system (markApi sha3 path anchor) (Start path)).Reachable s)
    (version : UInt32) (hnew : ¬ (m.have_ = true ∧ version ≤ m.current)) :
    ∃ (s' : MarkSys) (l : _),
    ((markMachine F).system (markApi sha3 path anchor) (Start path)).Reachable s' ∧
    Serving sha3 path anchor p { m with current := version, have_ := true } s' ∧
    s'.world.log = .ret (.accepted version) :: (l ++ s.world.log) := by
  obtain ⟨hl, hm⟩ := serving_holds h hr
  obtain ⟨w', l, hpersist, hlog, -, i, hi, hfile⟩ := runs_persist (w := s.world) (m := m) F
    (some version) hl (by rw [hm.path_eq]; exact hm.inv.tidy)
  have hcall : (markMachine F).Runs (fun _ _ => True) p (asAdvance m version (tryAdvance version))
      s.world (.ret (some { m with current := version, have_ := true }, .accepted version)) w' := by
    unfold asAdvance
    rw [(commits_tryAdvance m version).bind]
    unfold advanced
    rw [if_neg hnew]
    exact (hpersist.bind _).bind _
  have hr' := Machine.reachable_done (o := some m) (c := MarkCall.tryAdvance version) hcall rfl
    (by rw [h.live]; rfl) hr
  refine ⟨_, l, hr', ⟨Function.update_self .., i, by rw [← hm.path_eq]; exact hi, ?_⟩, ?_⟩
  · show openFrom path _ (.ok (w'.disk.inode i).content) = _
    rw [hfile, hm.fp_eq, ← hm.path_eq]
    exact openFrom_ok (parse_stateLine sha3 anchor (some version))
  · show .ret (.accepted version) :: w'.log = _
    rw [hlog]

/-- The process is killed, and the mark is opened again. -/
theorem serving_restarted (h : Serving sha3 path anchor p m s)
    (hr : ((markMachine F).system (markApi sha3 path anchor) (Start path)).Reachable s) :
    ∃ (s' : MarkSys) (l : _),
    ((markMachine F).system (markApi sha3 path anchor) (Start path)).Reachable s' ∧
    Serving sha3 path anchor p m s' ∧
    s'.world.log = .ret (.opened m.mark) :: (l ++ s.world.log) := by
  have hkilled : (markMachine F).release p s.world = dropped s.world :=
    if_pos (serving_holds h hr).1
  have hk : ((markMachine F).system (markApi sha3 path anchor) (Start path)).Reachable
      ⟨dropped s.world, Function.update s.procs p .idle⟩ := by
    rw [← hkilled]
    exact .step (.kill p) hr .kill
  obtain ⟨w', hopen, hs⟩ := open_of_reads F p (w := dropped s.world) rfl h.reads
  have hcall : (markMachine F).Runs (fun _ _ => True) p (asConstructor (open_ sha3 path anchor))
      (dropped s.world) (.ret (some m, .opened m.mark)) w' := hopen.bind _
  obtain ⟨l, hl⟩ := runs_suffix hcall
  have hr' := Machine.reachable_done (o := none) (c := MarkCall.open_) hcall rfl
    (by simp [Proc.object]) hk
  refine ⟨_, l, hr', ⟨Function.update_self .., ?_⟩, ?_⟩
  · obtain ⟨i, hi, hm⟩ := h.reads
    refine ⟨i, ?_, ?_⟩
    · show w'.disk.dir.visible path = some i
      rw [hs.dir]
      exact hi
    · show openFrom path _ (.ok (w'.disk.inode i).content) = _
      rw [hs.inode]
      exact hm
  · show .ret (.opened m.mark) :: w'.log = _
    rw [← hl]
    rfl

end Serving

/-- The bytes `anchor-A` and their SHA3-256 digest. -/
def anchorA : Bytes := [0x61, 0x6e, 0x63, 0x68, 0x6f, 0x72, 0x2d, 0x41]
def digestA : Blob 32 :=
  ⟨[0xcd, 0xbc, 0x80, 0x77, 0x34, 0x4e, 0x3f, 0x1e, 0x73, 0x52, 0x96, 0xa0, 0xbf, 0x89, 0x4b, 0xc1,
    0x6f, 0xd3, 0x37, 0xe4, 0x00, 0x6b, 0xba, 0x09, 0xd0, 0x6b, 0x3f, 0x36, 0xbd, 0x81, 0xf8, 0xfe],
    rfl⟩

/-- Two acceptances, with a kill and a restart between them. -/
theorem accepted_versions_increase_first : ∃ s : MarkSys,
    [.ret (.accepted 43), .ret (.opened (some 42)), .ret (.accepted 42)].Sublist s.world.log ∧
    (acceptedVersions s.world.log).reverse.Pairwise (· < ·) ∧ OpensAtLeast s.world.log := by
  let F : Faults := ⟨fun _ _ _ => True, fun _ _ => True⟩
  let path : Path := ⟨"state", "mark"⟩
  obtain ⟨s₀, hr₀, h₀⟩ := serving_created F (fun _ => digestA) path anchorA
  obtain ⟨s₁, l₁, hr₁, h₁, hlog₁⟩ := serving_advanced h₀ hr₀ 42 (by simp)
  obtain ⟨s₂, l₂, hr₂, h₂, hlog₂⟩ := serving_restarted h₁ hr₁
  obtain ⟨s₃, l₃, hr₃, -, hlog₃⟩ := serving_advanced h₂ hr₂ 43 (by decide)
  refine ⟨s₃, ?_, accepted_versions_increase (fun _ => digestA) path anchorA F s₃ hr₃⟩
  rw [hlog₃, hlog₂, hlog₁]
  refine .cons_cons _ (List.Sublist.trans ?_ (List.sublist_append_right l₃ _))
  refine .cons_cons _ (List.Sublist.trans ?_ (List.sublist_append_right l₂ _))
  exact .cons_cons _ (List.nil_sublist _)

end Drot.L2.Freshness
