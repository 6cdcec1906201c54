import Drot.Core.Disk
import Drot.Core.Rely

/-!
# Byte streams

A `read` returns some of the bytes that are next, at most as many as asked for, and
none only when the stream has ended; a `write` takes some of the bytes it is given.
`readExact` and `writeAll` repeat them. An interrupted call is tried again and not seen
here; any other error ends the loop.

`Tape` is a stream with a fixed input. On one whose calls do not fail (`Tape.steady`)
the loops do the same however the bytes are cut (`Tape.does_readExact`,
`Tape.does_writeAll`). On a stream that others move as well, `keeps_readExact` and
`keeps_writeAll` are the rules of the loops under a pact: what has been read is a
prefix of what there is, what has been written a prefix of what there was to write.
-/
namespace Drot
open Prog

inductive StreamOp where
  | read (n : Nat)
  | write (bytes : Bytes)
  | flush
  | alloc (n : Nat)         -- a zeroed buffer

@[reducible] def StreamRes : StreamOp → Type
  | .read _ => Except IoError Bytes
  | .write _ => Except IoError Nat
  | .flush => Except IoError Unit
  | .alloc _ => Unit

abbrev StreamProg := Prog StreamOp StreamRes

namespace ByteStream

def ask (op : StreamOp) : StreamProg (StreamRes op) := perform op

def unexpectedEof : IoError := ⟨.other, "failed to fill whole buffer"⟩
def writeZero : IoError := ⟨.other, "failed to write whole buffer"⟩

/-- `Read::read_exact` into a buffer of `n` bytes. -/
def readExact (n : Nat) : StreamProg (Except IoError Bytes) :=
  if n = 0 then return .ok []
  else do
    match ← ask (.read n) with
    | .error e => return .error e
    | .ok bytes =>
      if bytes = [] then return .error unexpectedEof
      else
        match ← readExact (n - bytes.length) with
        | .error e => return .error e
        | .ok more => return .ok (bytes ++ more)
termination_by n
decreasing_by
  have := List.length_pos_iff.mpr ‹¬bytes = []›
  omega

/-- `Write::write_all`. -/
def writeAll (bytes : Bytes) : StreamProg (Except IoError Unit) :=
  if bytes = [] then return .ok ()
  else do
    match ← ask (.write bytes) with
    | .error e => return .error e
    | .ok n => if n = 0 then return .error writeZero else writeAll (bytes.drop n)
termination_by bytes.length
decreasing_by
  have := List.length_pos_iff.mpr ‹¬bytes = []›
  rw [List.length_drop]
  omega

end ByteStream

/-! ## A stream of one's own -/

structure Tape where
  input : Bytes            -- what has not been read yet
  output : Bytes
  buffers : List Nat       -- the sizes that were allocated, newest first

namespace Tape
open ByteStream

def exec (_ : Nat) (w : Tape) : (op : StreamOp) → StreamRes op → Tape → Prop
  | .read n, .ok bytes, w' => w.input = bytes ++ w'.input ∧ bytes.length ≤ n ∧
      (bytes = [] → n = 0 ∨ w.input = []) ∧ w' = { w with input := w'.input }
  | .write bytes, .ok n, w' => n ≤ bytes.length ∧ w' = { w with output := w.output ++ bytes.take n }
  | .alloc n, _, w' => w' = { w with buffers := n :: w.buffers }
  | .read _, .error _, w' | .write _, .error _, w' | .flush, _, w' => w' = w

def machine : Machine StreamOp StreamRes Tape where
  exec := exec
  owns _ _ := False
  release _ w := w
  power _ _ := False

/-- The call does not fail, and a write makes progress. -/
def Works : (op : StreamOp) → StreamRes op → Prop
  | .read _, r => ∃ bytes, r = .ok bytes
  | .write _, r => ∃ n, r = .ok n ∧ 0 < n
  | .flush, r => r = .ok ()
  | .alloc _, _ => True

def steady : Machine StreamOp StreamRes Tape := machine.restrict Works

variable {p : Nat} {α : Type} {w w' : Tape}

/-- The one complete run of a program, however the bytes are cut. -/
abbrev Does (p : Nat) (m : StreamProg α) (w : Tape) (a : α) (w' : Tape) : Prop :=
  steady.Does (fun _ _ => True) p m w a w'

theorem does_alloc {n : Nat} {k : Unit → StreamProg α} {a : α}
    (h : Does p (k ()) { w with buffers := n :: w.buffers } a w') :
    Does p (ask (.alloc n) >>= k) w a w' := by
  refine Machine.does_call trivial ⟨(), _, trivial, rfl⟩ fun r u hu => ?_
  obtain ⟨-, rfl⟩ := hu
  exact h

theorem does_flush {k : Except IoError Unit → StreamProg α} {a : α} (h : Does p (k (.ok ())) w a w') :
    Does p (ask .flush >>= k) w a w' := by
  refine Machine.does_call trivial ⟨.ok (), w, rfl, rfl⟩ fun r u hu => ?_
  obtain ⟨hr, rfl⟩ := hu
  obtain rfl : r = .ok () := hr
  exact h

/-- One read of a loop that still wants bytes. -/
theorem does_read {n : Nat} (hn : n ≠ 0) {k : Except IoError Bytes → StreamProg α} {a : α}
    (hend : w.input = [] → Does p (k (.ok [])) w a w')
    (h : ∀ bytes rest, bytes ≠ [] → w.input = bytes ++ rest → bytes.length ≤ n →
      Does p (k (.ok bytes)) { w with input := rest } a w') :
    Does p (ask (.read n) >>= k) w a w' := by
  refine Machine.does_call trivial ?_ fun r u hu => ?_
  · cases hw : w.input with
    | nil => exact ⟨.ok [], w, ⟨[], rfl⟩, by simp [hw], Nat.zero_le _, (fun _ => .inr hw), rfl⟩
    | cons b rest =>
      refine ⟨.ok [b], { w with input := rest }, ⟨[b], rfl⟩, hw, ?_, (fun h => by cases h), rfl⟩
      exact Nat.one_le_iff_ne_zero.mpr hn
  · obtain ⟨⟨bytes, rfl⟩, hin, hle, hnil, hu⟩ := hu
    by_cases hb : bytes = []
    · subst hb
      have hw : w.input = [] := (hnil rfl).resolve_left hn
      have hu' : u = w := by
        rw [hu, ← List.nil_append u.input, ← hin]
      exact hu' ▸ hend hw
    · exact hu ▸ h bytes u.input hb hin hle

/-- However the bytes are cut. -/
theorem does_readExact (n : Nat) : n ≤ w.input.length →
    Does p (readExact n) w (.ok (w.input.take n)) { w with input := w.input.drop n } := by
  induction n using Nat.strongRecOn generalizing w with
  | ind n ih =>
    intro hle
    unfold readExact
    by_cases hn : n = 0
    · subst hn
      exact Machine.does_ret
    · rw [if_neg hn]
      refine does_read hn (fun hw => ?_) fun bytes rest hb hin hlen => ?_
      · rw [hw] at hle
        exact absurd (Nat.le_zero.mp hle) hn
      · have hpos := List.length_pos_iff.mpr hb
        have hrest : n - bytes.length ≤ rest.length := by
          rw [hin, List.length_append] at hle
          omega
        have htake : w.input.take n = bytes ++ rest.take (n - bytes.length) := by
          rw [hin, List.take_append, List.take_of_length_le hlen]
        have hdrop : w.input.drop n = rest.drop (n - bytes.length) := by
          rw [hin, List.drop_append, List.drop_of_length_le hlen, List.nil_append]
        rw [htake, hdrop]
        dsimp only
        rw [if_neg hb]
        exact Machine.does_bind (ih (n - bytes.length) (by omega) (w := { w with input := rest }) hrest)
          Machine.does_ret

/-- A stream that ends early is read to its end. -/
theorem does_readExact_eof (n : Nat) : w.input.length < n →
    Does p (readExact n) w (.error unexpectedEof) { w with input := [] } := by
  induction n using Nat.strongRecOn generalizing w with
  | ind n ih =>
    intro hlt
    have hn : n ≠ 0 := by omega
    unfold readExact
    rw [if_neg hn]
    refine does_read hn (fun hw => ?_) fun bytes rest hb hin hlen => ?_
    · have : w = { w with input := [] } := by rw [← hw]
      rw [← this]
      exact Machine.does_ret
    · have hpos := List.length_pos_iff.mpr hb
      have hrest : rest.length < n - bytes.length := by
        rw [hin, List.length_append] at hlt
        omega
      dsimp only
      rw [if_neg hb]
      exact Machine.does_bind (ih (n - bytes.length) (by omega) (w := { w with input := rest }) hrest)
        Machine.does_ret

/-- One write of a loop that still has bytes. -/
theorem does_write {bytes : Bytes} (hb : bytes ≠ []) {k : Except IoError Nat → StreamProg α} {a : α}
    (h : ∀ n, 0 < n → Does p (k (.ok n)) { w with output := w.output ++ bytes.take n } a w') :
    Does p (ask (.write bytes) >>= k) w a w' := by
  refine Machine.does_call trivial ⟨.ok 1, _, ⟨1, rfl, Nat.one_pos⟩, List.length_pos_iff.mpr hb, rfl⟩
    fun r u hu => ?_
  obtain ⟨⟨n, rfl, hn⟩, -, rfl⟩ := hu
  exact h n hn

theorem does_writeAll (bytes : Bytes) :
    Does p (writeAll bytes) w (.ok ()) { w with output := w.output ++ bytes } := by
  induction h : bytes.length using Nat.strongRecOn generalizing bytes w with
  | ind len ih =>
    unfold writeAll
    by_cases hb : bytes = []
    · subst hb
      rw [List.append_nil]
      exact Machine.does_ret
    · have hpos := List.length_pos_iff.mpr hb
      have hsplit : ∀ n, w.output ++ bytes = w.output ++ bytes.take n ++ bytes.drop n := fun n => by
        rw [List.append_assoc, List.take_append_drop]
      rw [if_neg hb]
      refine does_write hb fun n hn => ?_
      have hlt : (bytes.drop n).length < len := by
        rw [List.length_drop]
        omega
      dsimp only
      rw [hsplit n, if_neg (Nat.ne_of_gt hn)]
      exact ih _ hlt (bytes.drop n) (w := { w with output := w.output ++ bytes.take n }) rfl

end Tape

/-! ## A stream that others move as well -/

section Shared
open ByteStream
variable {W : Type} {M : Machine StreamOp StreamRes W} {T : Pact W} {p : Nat}

/-- `Got got` says that `p` has read `got` so far. -/
structure Reads (M : Machine StreamOp StreamRes W) (T : Pact W) (p : Nat)
    (Got : Bytes → W → Prop) : Prop where
  rely : ∀ got w w', T.rely p w w' → Got got w → Got got w'
  failed : ∀ got n e w w', T.inv w → Got got w → M.exec p w (.read n) (.error e) w' →
    T.inv w' ∧ T.guar p w w' ∧ Got got w'
  read : ∀ got n bytes w w', T.inv w → Got got w → M.exec p w (.read n) (.ok bytes) w' →
    T.inv w' ∧ T.guar p w w' ∧ bytes.length ≤ n ∧ Got (got ++ bytes) w'

/-- `Put done` says that `p` has written `done` so far, out of `total`. -/
structure Writes (M : Machine StreamOp StreamRes W) (T : Pact W) (p : Nat) (total : Bytes)
    (Put : Bytes → W → Prop) : Prop where
  rely : ∀ done w w', T.rely p w w' → Put done w → Put done w'
  failed : ∀ done bytes e w w', T.inv w → Put done w → M.exec p w (.write bytes) (.error e) w' →
    T.inv w' ∧ T.guar p w w' ∧ Put done w'
  write : ∀ done bytes n w w', done ++ bytes = total → T.inv w → Put done w →
    M.exec p w (.write bytes) (.ok n) w' →
    T.inv w' ∧ T.guar p w w' ∧ Put (done ++ bytes.take n) w'

/-- What was read is read, and when nothing failed it is as much as was asked for. -/
theorem keeps_readExact {Got : Bytes → W → Prop} (h : Reads M T p Got) (n : Nat) {got : Bytes}
    {w : W} (hg : Got got w) : M.keeps T p (readExact n) (fun r w' => ∃ more,
      Got (got ++ more) w' ∧ ∀ bytes, r = .ok bytes → bytes = more ∧ bytes.length = n) w := by
  induction n using Nat.strongRecOn generalizing got w with
  | ind n ih =>
    have hstop : ∀ (e : IoError) {got : Bytes} {w : W}, Got got w →
        M.keeps T p (pure (.error e) : StreamProg (Except IoError Bytes)) (fun r w' => ∃ more,
          Got (got ++ more) w' ∧ ∀ bytes, r = .ok bytes → bytes = more ∧ bytes.length = n) w := by
      intro e got w hg
      refine Machine.keeps_ret fun w' hr _ => ⟨[], ?_, fun _ h => by cases h⟩
      rw [List.append_nil]
      exact h.rely _ _ _ hr hg
    unfold readExact
    by_cases hn : n = 0
    · subst hn
      rw [if_pos rfl]
      refine Machine.keeps_ret fun w' hr _ => ⟨[], ?_, fun bytes hb => ?_⟩
      · rw [List.append_nil]
        exact h.rely _ _ _ hr hg
      · cases hb
        exact ⟨rfl, rfl⟩
    · rw [if_neg hn]
      refine Machine.keeps_perform fun w₁ hr hi r w₂ hx => ?_
      have hg₁ := h.rely _ _ _ hr hg
      cases r with
      | error e =>
        obtain ⟨hi₂, hgu, hg₂⟩ := h.failed _ _ e _ _ hi hg₁ hx
        exact ⟨hi₂, hgu, hstop e hg₂⟩
      | ok bytes =>
        obtain ⟨hi₂, hgu, hle, hg₂⟩ := h.read _ _ bytes _ _ hi hg₁ hx
        refine ⟨hi₂, hgu, ?_⟩
        dsimp only
        by_cases hb : bytes = []
        · subst hb
          rw [if_pos rfl]
          rw [List.append_nil] at hg₂
          exact hstop _ hg₂
        · have hpos := List.length_pos_iff.mpr hb
          rw [if_neg hb]
          refine Machine.keeps_bind hi₂ (Machine.keeps_mono (ih (n - bytes.length) (by omega) hg₂) ?_)
          intro r w₃ hpost _
          obtain ⟨more, hg₃, hmore⟩ := hpost
          rw [List.append_assoc] at hg₃
          cases r with
          | error e =>
            exact Machine.keeps_ret fun w' hr _ => ⟨_, h.rely _ _ _ hr hg₃, fun _ h => by cases h⟩
          | ok last =>
            obtain ⟨rfl, hlen⟩ := hmore last rfl
            refine Machine.keeps_ret fun w' hr _ => ⟨_, h.rely _ _ _ hr hg₃, fun all ha => ?_⟩
            cases ha
            refine ⟨rfl, ?_⟩
            rw [List.length_append]
            omega

theorem keeps_writeAll {total : Bytes} {Put : Bytes → W → Prop} (h : Writes M T p total Put)
    (bytes : Bytes) {done : Bytes} (hd : done ++ bytes = total) {w : W} (hp : Put done w) :
    M.keeps T p (writeAll bytes) (fun r w' => ∃ done', Put done' w' ∧ (r = .ok () → done' = total))
      w := by
  induction hl : bytes.length using Nat.strongRecOn generalizing bytes done w with
  | ind len ih =>
    have hstop : ∀ (e : IoError) {done : Bytes} {w : W}, Put done w →
        M.keeps T p (pure (.error e) : StreamProg (Except IoError Unit)) (fun r w' => ∃ done',
          Put done' w' ∧ (r = .ok () → done' = total)) w := by
      intro e done w hp
      exact Machine.keeps_ret fun w' hr _ => ⟨_, h.rely _ _ _ hr hp, fun h => by cases h⟩
    unfold writeAll
    by_cases hb : bytes = []
    · subst hb
      rw [if_pos rfl]
      rw [List.append_nil] at hd
      exact Machine.keeps_ret fun w' hr _ => ⟨_, h.rely _ _ _ hr hp, fun _ => hd⟩
    · have hpos := List.length_pos_iff.mpr hb
      rw [if_neg hb]
      refine Machine.keeps_perform fun w₁ hr hi r w₂ hx => ?_
      have hp₁ := h.rely _ _ _ hr hp
      cases r with
      | error e =>
        obtain ⟨hi₂, hgu, hp₂⟩ := h.failed _ _ e _ _ hi hp₁ hx
        exact ⟨hi₂, hgu, hstop e hp₂⟩
      | ok n =>
        obtain ⟨hi₂, hgu, hp₂⟩ := h.write _ _ n _ _ hd hi hp₁ hx
        refine ⟨hi₂, hgu, ?_⟩
        dsimp only
        by_cases hn : n = 0
        · rw [if_pos hn]
          exact hstop _ hp₂
        · have hlt : (bytes.drop n).length < len := by
            rw [List.length_drop]
            omega
          have hd₂ : done ++ bytes.take n ++ bytes.drop n = total := by
            rw [List.append_assoc, List.take_append_drop, hd]
          rw [if_neg hn]
          exact ih _ hlt _ hd₂ hp₂ rfl

end Shared
end Drot
