import Drot.Core.Rely
import Drot.L5System.Demo

/-!
# Concurrent publishers (`demo/src/storage.rs`)

`write_atomic` goes through `<name>.tmp`, the same temporary for every caller, and
several members may aggregate at once. `volumeSystem` is any number of processes that
publish to one path and read it, in every interleaving of their steps.

* `reads_complete`: while no call creates the temporary between the create and the
  rename of another, every read returns the old content or all the bytes of one call,
  and once a call has returned `Ok` the path holds all the bytes of one call.
* `shared_temporary_torn`: a second create truncates what the first caller is about
  to rename, and a reader sees an empty record.
-/
namespace Drot.L5.Storage
open Bytes Prog Demo

/-! ## The system -/

/-- The volume, and what is recorded of the calls. -/
structure Shared where
  volume : Volume StorageName
  writing : Nat → Bool           -- a process is between its `create` and its `rename`
  passed : List Bytes            -- the bytes of the calls that got as far as writing
  placed : List (Nat × Bytes)    -- inode and content the path has had, oldest first
  reads : List Bytes             -- what was read from the path
  published : Nat                -- calls that returned `Ok`

namespace Shared

def after (p : Nat) (w : Shared) (v : Volume StorageName) :
    (op : VolOp StorageName) → Except IoError (VolRes op) → Shared
  | .create .tmp, .ok _ => { w with volume := v, writing := Function.update w.writing p true }
  | .writeAll _ bytes, _ => { w with volume := v, passed := bytes :: w.passed }
  | .rename .tmp .currentRecord, .ok _ =>
    { w with volume := v, writing := Function.update w.writing p false,
             placed := w.placed ++ ((v.dir .currentRecord).map fun i => (i, v.inode i)).toList }
  | _, _ => { w with volume := v }

def current (w : Shared) : Option Bytes := (w.volume.dir .currentRecord).map w.volume.inode

/-- The path has its old content, the temporary is nobody's. -/
def Before (before : Option Bytes) (w : Shared) : Prop :=
  (∃ i, w.placed = (before.map fun bytes => (i, bytes)).toList) ∧
  w.volume.Shelf .tmp .currentRecord w.placed ∧ (∀ p, w.writing p = false) ∧ w.passed = [] ∧
  w.reads = [] ∧ w.published = 0

end Shared

def machine : Machine DemoOp DemoAns Shared where
  exec p w
    | .storage op, r, w' => ∃ v, w.volume.exec op r v ∧ w' = w.after p v op r
    | _, _, _ => False
  owns _ _ := False
  release p w := { w with writing := Function.update w.writing p false }
  power _ _ := False

inductive StorageCall where
  | publish (bytes : Bytes)
  | read

inductive StorageReply where
  | published (r : Except IoError Unit)
  | read (r : Option Bytes)

def StorageCall.program : StorageCall → DemoProg StorageReply
  | .publish bytes => (Demo.publish bytes).run.bind fun r => .ret (.published r)
  | .read => currentRecord.bind fun r => .ret (.read r)

def api : Api DemoOp DemoAns Shared Empty StorageCall StorageReply where
  run _ c := some (c.program.bind fun r => .ret (none, r))
  note
    | _, .published (.ok _), w => { w with published := w.published + 1 }
    | _, .read (some bytes), w => { w with reads := bytes :: w.reads }
    | _, _, w => w

abbrev VolumeSys := Sys DemoOp DemoAns Shared Empty StorageCall StorageReply

def volumeSystem (before : Option Bytes) : LTS VolumeSys Act :=
  machine.system api (Shared.Before before)

/-- The temporary is created while nobody else uses it. -/
def Alone (w : Shared) (op : DemoOp) : Prop :=
  op = .storage (.create .tmp) → ∀ q, w.writing q = false

/-! ## The pact of callers that are alone -/

/-- The path holds the bytes of a call. -/
def Shared.Fixed (w : Shared) : Prop := ∃ x, w.placed.getLast? = some x ∧ x.2 ∈ w.passed

structure Inv (before : Option Bytes) (w : Shared) : Prop where
  shelf : w.volume.Shelf .tmp .currentRecord w.placed
  origin : ∀ x ∈ w.placed, before = some x.2 ∨ x.2 ∈ w.passed
  reads : ∀ bytes ∈ w.reads, before = some bytes ∨ bytes ∈ w.passed
  once : ∀ p q, w.writing p = true → w.writing q = true → p = q
  fixed : 0 < w.published → w.Fixed

/-- What only grows. -/
structure Grows (w w' : Shared) : Prop where
  passed : ∀ bytes ∈ w.passed, bytes ∈ w'.passed
  placed : w.placed <+: w'.placed
  fixed : w.Fixed → w'.Fixed

/-- A process changes the volume only while no other process writes. -/
structure Guarantee (p : Nat) (w w' : Shared) : Prop where
  grows : Grows w w'
  writing : ∀ q, q ≠ p → w'.writing q = w.writing q
  volume : w'.volume = w.volume ∨ ∀ q, q ≠ p → w.writing q = false

structure Relies (p : Nat) (w w' : Shared) : Prop where
  grows : Grows w w'
  writing : w'.writing p = w.writing p
  volume : w.writing p = true → w'.volume = w.volume

section
variable {before : Option Bytes} {p : Nat} {w w' w'' : Shared}

theorem Grows.refl : Grows w w := ⟨fun _ h => h, List.prefix_rfl, id⟩

theorem Grows.trans (h : Grows w w') (h' : Grows w' w'') : Grows w w'' :=
  ⟨fun b hb => h'.passed b (h.passed b hb), h.placed.trans h'.placed, h'.fixed ∘ h.fixed⟩

theorem Guarantee.refl : Guarantee p w w := ⟨.refl, fun _ _ => rfl, .inl rfl⟩

theorem Relies.trans (h : Relies p w w') (h' : Relies p w' w'') : Relies p w w'' := by
  refine ⟨h.grows.trans h'.grows, h'.writing.trans h.writing, fun hw => ?_⟩
  exact (h'.volume (h.writing.trans hw)).trans (h.volume hw)

theorem Guarantee.relies {q : Nat} (hne : q ≠ p) (h : Guarantee q w w') : Relies p w w' := by
  refine ⟨h.grows, h.writing p (Ne.symm hne), fun hw => ?_⟩
  rcases h.volume with hv | hv
  · exact hv
  · rw [hv p (Ne.symm hne)] at hw
    cases hw

variable (before) in
def pact : Pact Shared where
  inv := Inv before
  guar := Guarantee
  rely := Relies
  refl _ _ := ⟨.refl, rfl, fun _ => rfl⟩
  trans _ _ _ _ h h' := h.trans h'
  other _ _ _ _ hne _ _ h := h.relies hne

/-- The machine whose callers are alone. -/
abbrev careful : Machine DemoOp DemoAns Shared := machine.given Alone

/-! ## One step of a caller -/

/-- The one that writes: nobody else is. -/
theorem Inv.others (hi : Inv before w) (hw : w.writing p = true) :
    ∀ q, q ≠ p → w.writing q = false := by
  intro q hq
  by_contra h
  exact hq (hi.once q p (Bool.not_eq_false _ ▸ h) hw)

/-- More bytes were passed, the path is as it was. -/
theorem Inv.passing (hi : Inv before w) (p : Nat) (w' : Shared)
    (hp : ∀ bytes ∈ w.passed, bytes ∈ w'.passed)
    (hpl : w'.placed = w.placed) (hr : w'.reads = w.reads) (hd : w'.published = w.published)
    (hw : ∀ q, w'.writing q = true → q = p ∨ w.writing q = true)
    (ho : w'.writing p = true → ∀ q, q ≠ p → w.writing q = false)
    (hs : w'.volume.Shelf .tmp .currentRecord w.placed) : Inv before w' ∧ Grows w w' := by
  have hfix : w.Fixed → w'.Fixed := by
    intro ⟨x, hl, hx⟩
    exact ⟨x, by rw [hpl]; exact hl, hp _ hx⟩
  refine ⟨⟨by rw [hpl]; exact hs, fun x hx => ?_, fun bytes hb => ?_, fun q r hq hr => ?_,
    fun h => ?_⟩, hp, by rw [hpl], hfix⟩
  · rw [hpl] at hx
    exact (hi.origin x hx).imp id (hp _)
  · rw [hr] at hb
    exact (hi.reads bytes hb).imp id (hp _)
  · by_cases hqp : q = p
    · subst hqp
      by_contra hne
      rcases hw r hr with h | h
      · exact hne h.symm
      · rw [ho hq r (Ne.symm hne)] at h
        cases h
    · rcases hw q hq with h | h
      · exact absurd h hqp
      · rcases hw r hr with h' | h'
        · subst h'
          rw [ho hr q hqp] at h
          cases h
        · exact hi.once q r h h'
  · rw [hd] at h
    exact hfix (hi.fixed h)

theorem Inv.release (hi : Inv before w) (p : Nat) :
    Inv before (machine.release p w) ∧ Guarantee p w (machine.release p w) := by
  have hwr : ∀ q, q ≠ p → (machine.release p w).writing q = w.writing q :=
    fun q hq => Function.update_of_ne hq ..
  have hoff : (machine.release p w).writing p = false := Function.update_self ..
  obtain ⟨hi', hg⟩ := hi.passing p (machine.release p w) (fun _ h => h) rfl rfl rfl
    (fun q hq => by
      by_cases h : q = p
      · exact .inl h
      · exact .inr (hwr q h ▸ hq))
    (fun h => by rw [hoff] at h; cases h) hi.shelf
  exact ⟨hi', hg, hwr, .inl rfl⟩

theorem step_create {v : Volume StorageName} {f : Nat} (hi : Inv before w)
    (hs : v.Shelf .tmp .currentRecord w.placed) (hal : ∀ q, w.writing q = false) :
    Inv before (w.after p v (.create .tmp) (.ok f)) ∧
      Guarantee p w (w.after p v (.create .tmp) (.ok f)) := by
  have hwr : ∀ q, q ≠ p → (w.after p v (.create .tmp) (.ok f)).writing q = w.writing q :=
    fun q hq => Function.update_of_ne hq ..
  obtain ⟨hi', hg⟩ := hi.passing p (w.after p v (.create .tmp) (.ok f)) (fun _ h => h) rfl rfl rfl
    (fun q hq => by
      by_cases h : q = p
      · exact .inl h
      · exact .inr (hwr q h ▸ hq))
    (fun _ q _ => hal q) hs
  exact ⟨hi', hg, hwr, .inr fun q _ => hal q⟩

/-- Whatever lands in the temporary of the one that writes. -/
theorem step_write {v : Volume StorageName} {f : Nat} {bytes : Bytes} {r : Except IoError Unit}
    (hi : Inv before w) (hs : v.Shelf .tmp .currentRecord w.placed) (hon : w.writing p = true) :
    Inv before (w.after p v (.writeAll f bytes) r) ∧
      Guarantee p w (w.after p v (.writeAll f bytes) r) := by
  obtain ⟨hi', hg⟩ := hi.passing p (w.after p v (.writeAll f bytes) r)
    (fun _ h => List.mem_cons_of_mem _ h) rfl rfl rfl (fun _ h => .inr h) (fun h => hi.others h) hs
  exact ⟨hi', hg, fun _ _ => rfl, .inr (hi.others hon)⟩

/-- The rename places all the bytes of a call. -/
theorem step_rename {f : Nat} {bytes : Bytes} (hi : Inv before w) (hon : w.writing p = true)
    (htmp : w.volume.dir .tmp = some f) (hholds : w.volume.inode f = bytes)
    (hb : bytes ∈ w.passed) :
    Inv before (w.after p (w.volume.renamed .tmp .currentRecord f) (.rename .tmp .currentRecord)
      (.ok ())) ∧
    Guarantee p w (w.after p (w.volume.renamed .tmp .currentRecord f)
      (.rename .tmp .currentRecord) (.ok ())) ∧
    (w.after p (w.volume.renamed .tmp .currentRecord f) (.rename .tmp .currentRecord)
      (.ok ())).Fixed := by
  have hdir : (w.volume.renamed .tmp .currentRecord f).dir .currentRecord = some f := by
    simp [Volume.renamed]
  have hino : (w.volume.renamed .tmp .currentRecord f).inode f = bytes := hholds
  have hafter : w.after p (w.volume.renamed .tmp .currentRecord f) (.rename .tmp .currentRecord)
      (.ok ()) = { w with volume := w.volume.renamed .tmp .currentRecord f,
                          writing := Function.update w.writing p false,
                          placed := w.placed ++ [(f, bytes)] } := by
    simp only [Shared.after, hdir, Option.map_some, Option.toList_some, hino]
  rw [hafter]
  have hfix : Shared.Fixed { w with volume := w.volume.renamed .tmp .currentRecord f,
                                    writing := Function.update w.writing p false,
                                    placed := w.placed ++ [(f, bytes)] } :=
    ⟨(f, bytes), List.getLast?_concat, hb⟩
  have hoff : ∀ q, Function.update w.writing p false q = true → w.writing q = true := by
    intro q hq
    by_cases h : q = p
    · subst h
      rw [Function.update_self] at hq
      cases hq
    · rwa [Function.update_of_ne h] at hq
  refine ⟨⟨?_, fun x hx => ?_, hi.reads, fun q r hq hr => hi.once q r (hoff q hq) (hoff r hr),
    fun _ => hfix⟩, ⟨⟨fun _ h => h, List.prefix_append _ _, fun _ => hfix⟩, fun q hq =>
      Function.update_of_ne hq .., .inr (hi.others hon)⟩, hfix⟩
  · have h := hi.shelf.rename (by decide) htmp
    rw [hholds] at h
    exact h
  · rcases List.mem_append.mp hx with hx | hx
    · exact hi.origin x hx
    · rw [List.mem_singleton.mp hx]
      exact .inr hb

/-! ## Every call keeps the pact -/

/-- What a publication that returned has done. -/
def Installed (r : Except IoError Unit) (w : Shared) : Prop := r = .ok () → w.Fixed

theorem after_volume (w : Shared) (v : Volume StorageName) (op : VolOp StorageName)
    (r : Except IoError (VolRes op)) : (w.after p v op r).volume = v := by
  unfold Shared.after
  split <;> rfl

/-- A caller that is alone may put its bytes in place. -/
def placer (before : Option Bytes) (p : Nat) (bytes : Bytes) : Volume.Placer
    (careful.seen DemoOp.storage fun _ r => r) (pact before) p .tmp .currentRecord bytes where
  volume w := w.volume
  placed w := w.placed
  ready _ := True
  begun w := w.writing p = true
  written w := w.writing p = true ∧ bytes ∈ w.passed
  failed _ := True
  done w := w.Fixed
  exec hx := by
    obtain ⟨_, rfl, -, v, hv, rfl⟩ := hx
    rw [after_volume]
    exact hv
  shelf hi := hi.shelf
  ready_rely _ _ := trivial
  begun_rely h hr := ⟨hr.writing.trans h, hr.volume h⟩
  written_rely h hr := ⟨⟨hr.writing.trans h.1, hr.grows.passed _ h.2⟩, hr.volume h.1⟩
  failed_rely _ _ := trivial
  done_rely h hr := hr.grows.fixed h
  create {w _ w'} hi _ hx hs := by
    obtain ⟨r, rfl, hal, v, hv, rfl⟩ := hx
    cases r with
    | error e =>
      obtain rfl : v = w.volume := hv
      exact ⟨hi, .refl, fun _ _ => trivial, fun _ h => by cases h⟩
    | ok f =>
      obtain ⟨hi', hg⟩ := step_create hi hs (hal rfl)
      exact ⟨hi', hg, fun _ _ => trivial, fun _ _ => Function.update_self ..⟩
  write {w f _ w'} hi h hx hs := by
    obtain ⟨r, rfl, -, v, hv, rfl⟩ := hx
    obtain ⟨hi', hg⟩ := step_write hi hs h
    exact ⟨hi', hg, fun _ _ => trivial, fun _ _ => ⟨h, List.mem_cons_self⟩⟩
  sync {w f _ w'} hi h hx := by
    obtain ⟨r, rfl, -, v, hv, rfl⟩ := hx
    obtain rfl : v = w.volume := hv
    exact ⟨hi, .refl, fun _ _ => trivial, fun _ _ => h⟩
  rename {w e w'} hi _ hx := by
    obtain ⟨_, rfl, -, v, hv, rfl⟩ := hx
    obtain rfl : v = w.volume := hv
    exact ⟨hi, .refl, trivial⟩
  place {w f w'} hi h hdir hino hx := by
    obtain ⟨_, rfl, -, v, ⟨i, hi', rfl⟩, rfl⟩ := hx
    obtain rfl : i = f := Option.some.inj (hi'.symm.trans hdir)
    exact step_rename hi h.1 hdir hino h.2
  syncDir {w _ w'} hi h hx := by
    obtain ⟨_, rfl, -, v, hv, rfl⟩ := hx
    obtain rfl : v = w.volume := hv
    exact ⟨hi, .refl, h⟩

theorem keeps_publish (bytes : Bytes) :
    careful.keeps (pact before) p (Demo.publish bytes).run Installed w := by
  rw [Demo.publish_within]
  have h := (placer before p bytes).keeps_replace (w := w) (by decide) trivial
  exact Machine.keeps_within (Machine.keeps_mono h fun _ _ hpost => hpost.1)

/-- What a read may return. -/
def Complete (before : Option Bytes) (o : Option Bytes) (w : Shared) : Prop :=
  ∀ bytes, o = some bytes → before = some bytes ∨ bytes ∈ w.passed

theorem keeps_currentRecord :
    careful.keeps (pact before) p currentRecord (Complete before) w := by
  have hnone : ∀ w, Complete before none w := fun w bytes h => by cases h
  apply Machine.keeps_call
  intro w₁ _ hi₁ r w₂ hx
  obtain ⟨-, v, hv, rfl⟩ := hx
  cases r with
  | error e =>
    obtain rfl : v = w₁.volume := hv
    exact ⟨hi₁, .refl, fun w' _ _ => hnone w'⟩
  | ok f =>
    obtain ⟨hdir, rfl⟩ := hv
    refine ⟨hi₁, .refl, ?_⟩
    apply Machine.keeps_call
    intro w₃ hr₃ hi₃ r w₄ hx
    obtain ⟨-, v, hv, rfl⟩ := hx
    cases r with
    | error e =>
      obtain rfl : v = w₃.volume := hv
      exact ⟨hi₃, .refl, fun w' _ _ => hnone w'⟩
    | ok read =>
      obtain ⟨hread, rfl⟩ := hv
      refine ⟨hi₃, .refl, fun w' hr' _ b hb => ?_⟩
      cases hb
      rw [hread]
      exact (hi₃.origin _ (hi₁.shelf.reads hdir hr₃.grows.placed hi₃.shelf)).imp id
        (hr'.grows.passed _)

/-- The end of a call, with what is recorded of it. -/
theorem ends_call (hi : Inv before w) (c : StorageCall) (r : StorageReply)
    (hp : ∀ u, r = .published u → Installed u w) (hr : ∀ o, r = .read o → Complete before o w) :
    (pact before).Ends careful api p c (none, r) w := by
  have hnote : Inv before (api.note c r w) ∧ Grows w (api.note c r w) ∧
      (api.note c r w).writing = w.writing ∧ (api.note c r w).volume = w.volume := by
    cases r with
    | published u =>
      cases u with
      | error e => exact ⟨hi, .refl, rfl, rfl⟩
      | ok u =>
        have hfix : w.Fixed := hp _ rfl rfl
        exact ⟨⟨hi.shelf, hi.origin, hi.reads, hi.once, fun _ => hfix⟩,
          ⟨fun _ h => h, List.prefix_rfl, id⟩, rfl, rfl⟩
    | read o =>
      cases o with
      | none => exact ⟨hi, .refl, rfl, rfl⟩
      | some bytes =>
        refine ⟨⟨hi.shelf, hi.origin, fun b hb => ?_, hi.once, hi.fixed⟩,
          ⟨fun _ h => h, List.prefix_rfl, id⟩, rfl, rfl⟩
        rcases List.mem_cons.mp hb with rfl | hb
        · exact hr _ rfl _ rfl
        · exact hi.reads b hb
  obtain ⟨hi₁, hg₁, hwr, hv⟩ := hnote
  obtain ⟨hi₂, hg₂⟩ := hi₁.release p
  refine ⟨hi₂, hg₁.trans hg₂.grows, fun q hq => ?_, .inl hv⟩
  exact (hg₂.writing q hq).trans (congrFun hwr q)

theorem honoured : Honoured (pact before) careful api := by
  refine ⟨fun p o c m w hm hi => ?_, fun p w hi => hi.release p, fun _ _ h => h⟩
  cases hm
  cases c with
  | publish bytes =>
    refine Machine.keeps_bind hi (Machine.keeps_bind hi (Machine.keeps_mono (keeps_publish bytes) ?_))
    intro r w₁ hr hi₁ w₂ hrel hi₂ hi₂'
    refine Machine.keeps_ret fun w₃ hrel₃ hi₃ => ends_call hi₃ _ _ ?_ ?_
    · intro u hu hok
      cases hu
      exact hrel₃.grows.fixed (hrel.grows.fixed (hr hok))
    · intro o ho
      cases ho
  | read =>
    refine Machine.keeps_bind hi (Machine.keeps_bind hi (Machine.keeps_mono keeps_currentRecord ?_))
    intro r w₁ hr hi₁ w₂ hrel hi₂ hi₂'
    refine Machine.keeps_ret fun w₃ hrel₃ hi₃ => ends_call hi₃ _ _ ?_ ?_
    · intro u hu
      cases hu
    · intro o ho bytes hb
      cases ho
      exact (hr bytes hb).imp id fun h => hrel₃.grows.passed _ (hrel.grows.passed _ h)

/-! ## Every run -/

theorem Shared.Before.inv (h : w.Before before) : Inv before w := by
  obtain ⟨⟨i, hpl⟩, hs, hwr, hpa, hre, hpub⟩ := h
  refine ⟨hs, fun x hx => .inl ?_, fun b hb => ?_, fun p q hp => ?_, fun h => ?_⟩
  · rw [hpl] at hx
    cases before with
    | none => cases hx
    | some bytes =>
      rw [List.mem_singleton.mp hx]
  · rw [hre] at hb
    cases hb
  · rw [hwr p] at hp
    cases hp
  · rw [hpub] at h
    exact absurd h (Nat.lt_irrefl 0)

/-- The content of the path is the last one placed. -/
theorem Inv.current (hi : Inv before w) (h : w.Fixed) :
    ∃ bytes ∈ w.passed, w.current = some bytes := by
  obtain ⟨x, hl, hx⟩ := h
  refine ⟨x.2, hx, ?_⟩
  unfold Shared.current
  rw [hi.shelf.current, hl]
  have hk := (hi.shelf.kept x (List.mem_of_getLast? hl)).1
  simp [hk]

end

/-- In a run in which no call creates the temporary while another is between its
create and its rename, every read returns the old content or all the bytes of one
call, and once a call has returned `Ok` the path holds all the bytes of one call. -/
theorem reads_complete (before : Option Bytes) :
    ∀ s, ((volumeSystem before).guard (Machine.NextWhere Alone)).Reachable s →
      (∀ bytes ∈ s.world.reads, before = some bytes ∨ bytes ∈ s.world.passed) ∧
      (0 < s.world.published → ∃ bytes ∈ s.world.passed, s.world.current = some bytes) := by
  intro s hr
  have hi : Inv before s.world :=
    (Pact.reachable honoured (fun _ h => h.inv) (Machine.reachable_given hr)).1
  exact ⟨hi.reads, fun h => hi.current (hi.fixed h)⟩

/-! ## Two callers at once -/

/-- The path does not exist. -/
def emptyVolume : Shared := ⟨.empty, fun _ => false, [], [], [], 0⟩

theorem before_emptyVolume : emptyVolume.Before none :=
  ⟨⟨0, rfl⟩, Volume.shelf_empty, fun _ => rfl, rfl, rfl, rfl⟩

section
variable {before : Option Bytes} {G : VolumeSys → Act → Prop} {s : VolumeSys}

theorem reachable_call (p : Nat) (c : StorageCall)
    (hr : ((volumeSystem before).guard G).Reachable s) (hp : (s.procs p).object = some none)
    (hG : G s (.call p)) : ((volumeSystem before).guard G).Reachable
      ⟨s.world, Function.update s.procs p (.busy c (c.program.bind fun r => .ret (none, r)))⟩ :=
  Machine.reachable_busy rfl hp hG hr

theorem reachable_exec (p : Nat) {c : StorageCall} (op : VolOp StorageName)
    {k : DemoAns (.storage op) → DemoProg (Option Empty × StorageReply)}
    (r : Except IoError (VolRes op)) (v : Volume StorageName)
    (hr : ((volumeSystem before).guard G).Reachable s)
    (hp : s.procs p = .busy c (.call (.storage op) k)) (hv : s.world.volume.exec op r v)
    (hG : G s (.exec p)) : ((volumeSystem before).guard G).Reachable
      ⟨s.world.after p v op r, Function.update s.procs p (.busy c (k r))⟩ :=
  .step (.exec p) hr ⟨hG, .exec hp ⟨v, hv, rfl⟩⟩

theorem reachable_ret (p : Nat) {c : StorageCall} {r : StorageReply}
    (hr : ((volumeSystem before).guard G).Reachable s) (hp : s.procs p = .busy c (.ret (none, r)))
    (hG : G s (.ret p)) : ((volumeSystem before).guard G).Reachable
      ⟨machine.release p (api.note c r s.world), Function.update s.procs p .idle⟩ :=
  .step (.ret p) hr ⟨hG, .ret hp⟩

end

/-- Nobody else writes when the next effect is not a create, or nobody does. -/
theorem nextWhere_alone {s : VolumeSys} (p : Nat) {c : StorageCall} {op : DemoOp}
    {k : DemoAns op → DemoProg (Option Empty × StorageReply)}
    (hp : s.procs p = .busy c (.call op k)) (h : Alone s.world op) :
    Machine.NextWhere Alone s (.exec p) := by
  intro c' op' k' hp'
  rw [hp] at hp'
  cases hp'
  exact h

/-- Two publishers, the second in its call before the first has renamed, and readers
between their steps: `[1]` is read while `[2]` is being written, then `[2]`. -/
theorem reads_complete_two : ∃ s,
    ((volumeSystem none).guard (Machine.NextWhere Alone)).Reachable s ∧
    s.world.reads = [[2], [1]] ∧ s.world.published = 2 ∧ s.world.current = some [2] ∧
    (∀ bytes ∈ s.world.reads, none = some bytes ∨ bytes ∈ s.world.passed) ∧
    ∃ bytes ∈ s.world.passed, s.world.current = some bytes := by
  have h0 : ((volumeSystem none).guard (Machine.NextWhere Alone)).Reachable
      ⟨emptyVolume, fun _ => .idle⟩ := .init ⟨before_emptyVolume, rfl⟩
  have h1 := reachable_call 0 (.publish [1]) h0 rfl trivial
  have h2 := reachable_call 1 (.publish [2]) h1 rfl trivial
  have h3 := reachable_exec 0 (.create .tmp) (.ok 0) _ h2 rfl ⟨rfl, rfl⟩
    (nextWhere_alone 0 rfl fun _ _ => rfl)
  have h4 := reachable_exec 0 (.writeAll 0 [1]) (.ok ()) _ h3 rfl rfl
    (nextWhere_alone 0 rfl fun h => by cases h)
  have h5 := reachable_exec 0 (.syncAll 0) (.ok ()) _ h4 rfl rfl
    (nextWhere_alone 0 rfl fun h => by cases h)
  have h6 := reachable_exec 0 (.rename .tmp .currentRecord) (.ok ()) _ h5 rfl ⟨0, rfl, rfl⟩
    (nextWhere_alone 0 rfl fun h => by cases h)
  -- the first caller has renamed, and has not synced the directory yet
  have h7 := reachable_exec 1 (.create .tmp) (.ok 1) _ h6 rfl ⟨rfl, rfl⟩
    (nextWhere_alone 1 rfl fun _ q => by cases q <;> rfl)
  have h8 := reachable_call 2 .read h7 rfl trivial
  have h9 := reachable_exec 2 (.openFile .currentRecord) (.ok 0) _ h8 rfl ⟨rfl, rfl⟩
    (nextWhere_alone 2 rfl fun h => by cases h)
  have h10 := reachable_exec 1 (.writeAll 1 [2]) (.ok ()) _ h9 rfl rfl
    (nextWhere_alone 1 rfl fun h => by cases h)
  have h11 := reachable_exec 2 (.readToEnd 0) (.ok [1]) _ h10 rfl ⟨rfl, rfl⟩
    (nextWhere_alone 2 rfl fun h => by cases h)
  have h12 := reachable_ret 2 h11 rfl trivial
  have h13 := reachable_exec 1 (.syncAll 1) (.ok ()) _ h12 rfl rfl
    (nextWhere_alone 1 rfl fun h => by cases h)
  have h14 := reachable_exec 1 (.rename .tmp .currentRecord) (.ok ()) _ h13 rfl ⟨1, rfl, rfl⟩
    (nextWhere_alone 1 rfl fun h => by cases h)
  have h15 := reachable_exec 0 .syncDir (.ok ()) _ h14 rfl rfl
    (nextWhere_alone 0 rfl fun h => by cases h)
  have h16 := reachable_ret 0 h15 rfl trivial
  have h17 := reachable_call 2 .read h16 rfl trivial
  have h18 := reachable_exec 2 (.openFile .currentRecord) (.ok 1) _ h17 rfl ⟨rfl, rfl⟩
    (nextWhere_alone 2 rfl fun h => by cases h)
  have h19 := reachable_exec 2 (.readToEnd 1) (.ok [2]) _ h18 rfl ⟨rfl, rfl⟩
    (nextWhere_alone 2 rfl fun h => by cases h)
  have h20 := reachable_ret 2 h19 rfl trivial
  have h21 := reachable_exec 1 .syncDir (.ok ()) _ h20 rfl rfl
    (nextWhere_alone 1 rfl fun h => by cases h)
  have h22 := reachable_ret 1 h21 rfl trivial
  obtain ⟨hreads, hpath⟩ := reads_complete none _ h22
  exact ⟨_, h22, rfl, rfl, rfl, hreads, hpath (by decide)⟩

/-- Process 0 writes `[1]`, process 1 creates the temporary again, process 0 renames
it, process 2 reads the path: no bytes at all. -/
theorem shared_temporary_torn : ∃ s, (volumeSystem none).Reachable s ∧
    s.world.reads = [[]] ∧ s.world.passed = [[2], [1]] := by
  let G : VolumeSys → Act → Prop := fun _ _ => True
  have h0 : ((volumeSystem none).guard G).Reachable ⟨emptyVolume, fun _ => .idle⟩ :=
    .init ⟨before_emptyVolume, rfl⟩
  have h1 := reachable_call 0 (.publish [1]) h0 rfl trivial
  have h2 := reachable_exec 0 (.create .tmp) (.ok 0) _ h1 rfl ⟨rfl, rfl⟩ trivial
  have h3 := reachable_exec 0 (.writeAll 0 [1]) (.ok ()) _ h2 rfl rfl trivial
  have h4 := reachable_call 1 (.publish [2]) h3 rfl trivial
  have h5 := reachable_exec 1 (.create .tmp) (.ok 0) _ h4 rfl ⟨rfl, rfl⟩ trivial
  have h6 := reachable_exec 0 (.syncAll 0) (.ok ()) _ h5 rfl rfl trivial
  have h7 := reachable_exec 0 (.rename .tmp .currentRecord) (.ok ()) _ h6 rfl ⟨0, rfl, rfl⟩ trivial
  have h8 := reachable_call 2 .read h7 rfl trivial
  have h9 := reachable_exec 2 (.openFile .currentRecord) (.ok 0) _ h8 rfl ⟨rfl, rfl⟩ trivial
  have h10 := reachable_exec 2 (.readToEnd 0) (.ok []) _ h9 rfl ⟨rfl, rfl⟩ trivial
  have h11 := reachable_ret 2 h10 rfl trivial
  have h12 := reachable_exec 1 (.writeAll 0 [2]) (.ok ()) _ h11 rfl rfl trivial
  exact ⟨_, h12.of_guard, rfl, rfl⟩

end Drot.L5.Storage
