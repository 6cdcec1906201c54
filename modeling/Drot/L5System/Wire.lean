import Drot.Core.Stream
import Drot.L5System.Demo

/-!
# Frames on a connection (`demo/src/wire.rs`)

A frame is a type byte, a length and a payload, over a TCP stream that may cut it
anywhere.

* `does_send`, `does_send_refused`: `send` writes a frame whole, or nothing if its payload
  does not fit the ceiling.
* `recv_decides`: while reads do not fail, `recv` returns a frame exactly when the bytes
  that arrive start with it and its payload fits the ceiling, and it reads nothing behind
  it; it never allocates more than the ceiling, and nothing for a length over it.
* `keeps_send`, `keeps_recv`: the same on a stream that somebody else moves too and that
  may fail at any time, as rules for programs that use them.
-/
namespace Drot.L5.Wire
open Bytes ByteStream Prog
open Demo (Frame maxFrame)

/-- The bytes of a frame.
mirrors src/demo/src/wire.rs:128-132 -/
def encode (f : Frame) : Bytes := f.1 :: (leBytes 4 f.2.length ++ f.2)

def outboundTooLong (n : Nat) : IoError :=
  ⟨.other, s!"outbound frame of {n} bytes exceeds the {maxFrame}-byte ceiling"⟩

def inboundTooLong (n : Nat) : IoError :=
  ⟨.other, s!"inbound frame announces {n} bytes, over the {maxFrame}-byte ceiling"⟩

/-- mirrors src/demo/src/wire.rs:121-134 -/
def send (f : Frame) : StreamProg (Except IoError Unit) :=
  if maxFrame < f.2.length then return .error (outboundTooLong f.2.length)
  else do
    match ← writeAll (encode f) with
    | .error e => return .error e
    | .ok () => ByteStream.ask .flush

/-- mirrors src/demo/src/wire.rs:139-151 -/
def recv : StreamProg (Except IoError Frame) := do
  match ← readExact 5 with
  | .error e => return .error e
  | .ok header =>
    let len := ofLe (slice header 1 5)
    if maxFrame < len then return .error (inboundTooLong len)
    else do
      ByteStream.ask (.alloc len)
      match ← readExact len with
      | .error e => return .error e
      | .ok payload => return .ok (header.headD 0, payload)

/-! ## One end -/

section
variable {f g : Frame} {bytes : Bytes}

theorem length_encode (f : Frame) : (encode f).length = 5 + f.2.length := by
  simp [encode, length_leBytes]
  omega

theorem encode_header (f : Frame) : (encode f).take 5 = f.1 :: leBytes 4 f.2.length := by
  have h4 : (leBytes 4 f.2.length).length = 4 := length_leBytes _ _
  simp [encode, List.take_left' h4]

theorem encode_payload (f : Frame) : (encode f).drop 5 = f.2 := by
  have h4 : (leBytes 4 f.2.length).length = 4 := length_leBytes _ _
  simp [encode, List.drop_left' h4]

/-- The length that a header announces. -/
theorem announced (b : UInt8) (n : Nat) (h : n < 2 ^ 32) :
    ofLe (slice (b :: leBytes 4 n) 1 5) = n := by
  have h4 : (leBytes 4 n).length = 4 := length_leBytes _ _
  have hs : slice (b :: leBytes 4 n) 1 5 = leBytes 4 n := by
    simp [slice, List.take_of_length_le (Nat.le_of_eq h4)]
  rw [hs, ofLe_leBytes 4 n h]

/-- A header and as many bytes as it announces are a frame. -/
theorem encode_of_header {header payload : Bytes} (h5 : header.length = 5)
    (hp : payload.length = ofLe (slice header 1 5)) :
    encode (header.headD 0, payload) = header ++ payload := by
  match header, h5 with
  | b :: rest, h5 =>
    have h4 : rest.length = 4 := Nat.succ.inj h5
    have hs : slice (b :: rest) 1 5 = rest := by
      simp [slice, List.take_of_length_le (Nat.le_of_eq h4)]
    rw [hs] at hp
    simp only [encode, List.headD_cons, hp]
    rw [← h4, leBytes_ofLe]
    rfl

theorem lt_of_le_maxFrame {n : Nat} (h : n ≤ maxFrame) : n < 2 ^ 32 :=
  lt_of_le_of_lt h (by decide)

/-- At most one frame is at the start of a stream. -/
theorem encode_unique (hf : encode f <+: bytes) (hg : encode g <+: bytes)
    (hlf : f.2.length ≤ maxFrame) (hlg : g.2.length ≤ maxFrame) : f = g := by
  have htake : ∀ {x : Frame}, encode x <+: bytes → bytes.take 5 = x.1 :: leBytes 4 x.2.length := by
    intro x hx
    obtain ⟨rest, rfl⟩ := hx
    rw [← encode_header, List.take_append_of_le_length (by rw [length_encode]; omega)]
  have hh := (htake hf).symm.trans (htake hg)
  have hlen : f.2.length = g.2.length :=
    leBytes_inj (lt_of_le_maxFrame hlf) (lt_of_le_maxFrame hlg) (List.cons.inj hh).2
  have heq : encode f = encode g := by
    refine List.IsPrefix.eq_of_length (List.prefix_of_prefix_length_le hf hg ?_) ?_
    · rw [length_encode, length_encode, hlen]
    · rw [length_encode, length_encode, hlen]
  refine Prod.ext (List.cons.inj hh).1 ?_
  rw [← encode_payload f, heq, encode_payload]

variable {p : Nat} {w : Tape}

/-- A frame that fits is written whole. -/
theorem does_send (h : f.2.length ≤ maxFrame) :
    Tape.Does p (send f) w (.ok ()) { w with output := w.output ++ encode f } := by
  unfold send
  rw [if_neg (Nat.not_lt.mpr h)]
  exact Machine.does_bind (Tape.does_writeAll (encode f)) (Tape.does_flush Machine.does_ret)

/-- A frame that does not is refused before anything is written. -/
theorem does_send_refused (h : maxFrame < f.2.length) :
    Tape.Does p (send f) w (.error (outboundTooLong f.2.length)) w := by
  unfold send
  rw [if_pos h]
  exact Machine.does_ret

/-- The stream starts with a frame under the ceiling. -/
def Starts (bytes : Bytes) (f : Frame) : Prop := encode f <+: bytes ∧ f.2.length ≤ maxFrame

theorem Starts.unique (hf : Starts bytes f) (hg : Starts bytes g) : f = g :=
  encode_unique hf.1 hg.1 hf.2 hg.2

theorem Starts.grows {bytes' : Bytes} (h : Starts bytes f) (hp : bytes <+: bytes') :
    Starts bytes' f := ⟨h.1.trans hp, h.2⟩

theorem Starts.length_le (h : Starts bytes f) : 5 + f.2.length ≤ bytes.length := by
  rw [← length_encode]
  exact h.1.length_le

theorem Starts.announced (h : Starts bytes f) : ofLe (slice (bytes.take 5) 1 5) = f.2.length := by
  obtain ⟨⟨rest, rfl⟩, hle⟩ := h
  have h5 : 5 ≤ (encode f).length := by
    rw [length_encode]
    omega
  rw [List.take_append_of_le_length h5, encode_header]
  exact Wire.announced f.1 _ (lt_of_le_maxFrame hle)

/-- The length that the first five bytes announce. -/
def announcedLen (bytes : Bytes) : Nat := ofLe (slice (bytes.take 5) 1 5)

/-- A stream that starts with no frame is too short, or announces too much. -/
theorem starts_or (bytes : Bytes) : (∃ f, Starts bytes f) ∨ bytes.length < 5 ∨
    5 ≤ bytes.length ∧ (maxFrame < announcedLen bytes ∨
      announcedLen bytes ≤ maxFrame ∧ bytes.length < 5 + announcedLen bytes) := by
  by_cases h5 : bytes.length < 5
  · exact .inr (.inl h5)
  · by_cases hbig : maxFrame < announcedLen bytes
    · exact .inr (.inr ⟨Nat.le_of_not_lt h5, .inl hbig⟩)
    · have hle := Nat.le_of_not_lt hbig
      by_cases hcut : bytes.length < 5 + announcedLen bytes
      · exact .inr (.inr ⟨Nat.le_of_not_lt h5, .inr ⟨hle, hcut⟩⟩)
      · have hheader : (bytes.take 5).length = 5 := by
          rw [List.length_take]
          omega
        have hpayload : ((bytes.drop 5).take (announcedLen bytes)).length = announcedLen bytes := by
          rw [List.length_take, List.length_drop]
          omega
        refine .inl ⟨((bytes.take 5).headD 0, (bytes.drop 5).take (announcedLen bytes)), ?_, ?_⟩
        · rw [encode_of_header hheader hpayload, ← List.take_add]
          exact List.take_prefix _ _
        · rw [hpayload]
          exact hle

/-- A frame that is there is received, and nothing behind it is read. -/
theorem does_recv (h : Starts w.input f) : Tape.Does p recv w (.ok f)
    ⟨w.input.drop (5 + f.2.length), w.output, f.2.length :: w.buffers⟩ := by
  obtain ⟨⟨rest, hrest⟩, hle⟩ := h
  have hlen := length_encode f
  have h5 : 5 ≤ w.input.length := by
    rw [← hrest, List.length_append]
    omega
  have htake : w.input.take 5 = f.1 :: leBytes 4 f.2.length := by
    rw [← hrest, List.take_append_of_le_length (by omega), encode_header]
  have hdrop : w.input.drop 5 = f.2 ++ rest := by
    rw [← hrest, List.drop_append_of_le_length (by omega), encode_payload]
  have hpayload := Tape.does_readExact (p := p) (w := ⟨w.input.drop 5, w.output,
    f.2.length :: w.buffers⟩) f.2.length (by rw [hdrop, List.length_append]; omega)
  have htwo : (w.input.drop 5).take f.2.length = f.2 := by
    rw [hdrop, List.take_left' rfl]
  rw [htwo, List.drop_drop] at hpayload
  refine Machine.does_bind (Tape.does_readExact 5 h5) ?_
  dsimp only
  rw [htake, Wire.announced f.1 _ (lt_of_le_maxFrame hle), if_neg (Nat.not_lt.mpr hle)]
  exact Tape.does_alloc (Machine.does_bind hpayload Machine.does_ret)

theorem does_recv_short (h : w.input.length < 5) :
    Tape.Does p recv w (.error unexpectedEof) { w with input := [] } :=
  Machine.does_bind (Tape.does_readExact_eof 5 h) Machine.does_ret

/-- A length over the ceiling is refused behind the header. -/
theorem does_recv_over (h5 : 5 ≤ w.input.length) (h : maxFrame < announcedLen w.input) :
    Tape.Does p recv w (.error (inboundTooLong (announcedLen w.input)))
      { w with input := w.input.drop 5 } := by
  refine Machine.does_bind (Tape.does_readExact 5 h5) ?_
  dsimp only
  rw [announcedLen] at h
  rw [if_pos h]
  exact Machine.does_ret

theorem does_recv_cut (h5 : 5 ≤ w.input.length) (hle : announcedLen w.input ≤ maxFrame)
    (h : w.input.length < 5 + announcedLen w.input) : Tape.Does p recv w (.error unexpectedEof)
      ⟨[], w.output, announcedLen w.input :: w.buffers⟩ := by
  have hcut := Tape.does_readExact_eof (p := p) (w := ⟨w.input.drop 5, w.output,
    announcedLen w.input :: w.buffers⟩) (announcedLen w.input) (by rw [List.length_drop]; omega)
  refine Machine.does_bind (Tape.does_readExact 5 h5) ?_
  dsimp only
  rw [announcedLen] at hle hcut ⊢
  rw [if_neg (Nat.not_lt.mpr hle)]
  exact Tape.does_alloc (Machine.does_bind hcut Machine.does_ret)

end

/-- What `recv` does with the bytes that arrive, however they are cut, while reads do not
fail. It returns `f` exactly when they start with `f` and its payload fits the ceiling,
and then it has read nothing behind `f`. It never allocates more than the ceiling. When
the header announces more than that it stops behind the header and allocates nothing. -/
theorem recv_decides (p : Nat) (w : Tape) : ∃ r w', Tape.Does p recv w r w' ∧
    (∀ f, r = .ok f ↔ Starts w.input f) ∧
    (∀ f, r = .ok f → w'.input = w.input.drop (5 + f.2.length)) ∧
    (∃ sizes, w'.buffers = sizes ++ w.buffers ∧ ∀ n ∈ sizes, n ≤ maxFrame) ∧
    (5 ≤ w.input.length → maxFrame < announcedLen w.input →
      r = .error (inboundTooLong (announcedLen w.input)) ∧
        w' = { w with input := w.input.drop 5 }) := by
  have hnone : ∀ {e : IoError}, (∀ f, ¬ Starts w.input f) → ∀ f,
    .error e = Except.ok f ↔ Starts w.input f :=
    fun hno f => ⟨(fun h => by cases h), fun h => absurd h (hno f)⟩
  have herr : ∀ {e : IoError} {w' : Tape} (f : Frame), .error e = Except.ok f →
      w'.input = w.input.drop (5 + f.2.length) := fun f h => by cases h
  rcases starts_or w.input with ⟨f, hf⟩ | hshort | ⟨h5, hbig | ⟨hle, hcut⟩⟩
  · refine ⟨_, _, does_recv hf, fun g => ⟨fun h => ?_, fun h => ?_⟩, fun g h => ?_,
      ⟨[f.2.length], rfl, ?_⟩, fun _ hbig => ?_⟩
    · cases h
      exact hf
    · rw [hf.unique h]
    · cases h
      rfl
    · intro n hn
      rw [List.mem_singleton.mp hn]
      exact hf.2
    · rw [announcedLen, hf.announced] at hbig
      exact absurd hf.2 (Nat.not_le.mpr hbig)
  · refine ⟨_, _, does_recv_short hshort, hnone fun f h => ?_, herr,
      ⟨[], rfl, fun _ h => by cases h⟩, fun h5 => absurd hshort (Nat.not_lt.mpr h5)⟩
    have := h.length_le
    omega
  · refine ⟨_, _, does_recv_over h5 hbig, hnone fun f h => ?_, herr,
      ⟨[], rfl, fun _ h => by cases h⟩, fun _ _ => ⟨rfl, rfl⟩⟩
    rw [announcedLen, h.announced] at hbig
    exact absurd h.2 (Nat.not_le.mpr hbig)
  · refine ⟨_, _, does_recv_cut h5 hle hcut, hnone fun f h => ?_, herr,
      ⟨[announcedLen w.input], rfl, fun n hn => ?_⟩, fun _ hbig => absurd hle (Nat.not_le.mpr hbig)⟩
    · have := h.length_le
      rw [announcedLen, h.announced] at hcut
      omega
    · rw [List.mem_singleton.mp hn]
      exact hle

/-! ## A connection that others move as well -/

section
variable {W : Type} {M : Machine StreamOp StreamRes W} {T : Pact W} {p : Nat} {w : W}

/-- What was written is the frame, when the send did not fail. -/
theorem keeps_send {f : Frame} {Put : Bytes → W → Prop}
    (h : f.2.length ≤ maxFrame → Writes M T p (encode f) Put)
    (hrely : ∀ done w w', T.rely p w w' → Put done w → Put done w')
    (hflush : ∀ done r w w', T.inv w → Put done w → M.exec p w .flush r w' →
      T.inv w' ∧ T.guar p w w' ∧ Put done w') (hput : Put [] w) (hi : T.inv w) :
    M.keeps T p (send f) (fun r w' => ∃ done, Put done w' ∧
      (r = .ok () → done = encode f ∧ f.2.length ≤ maxFrame)) w := by
  unfold send
  split
  · exact Machine.keeps_ret fun w' hr _ => ⟨[], hrely _ _ _ hr hput, fun h => by cases h⟩
  · rename_i hle
    have h := h (Nat.le_of_not_lt hle)
    refine Machine.keeps_bind hi (Machine.keeps_mono
      (keeps_writeAll h (encode f) (List.nil_append _) hput) ?_)
    intro r w₁ hpost _
    obtain ⟨done, hput₁, hdone⟩ := hpost
    cases r with
    | error e => exact Machine.keeps_ret fun w' hr _ => ⟨done, h.rely _ _ _ hr hput₁,
      fun h => by cases h⟩
    | ok u =>
      refine Machine.keeps_perform fun w₂ hr hi₂ r w₃ hx => ?_
      obtain ⟨hi₃, hg, hput₃⟩ := hflush _ r _ _ hi₂ (h.rely _ _ _ hr hput₁) hx
      exact ⟨hi₃, hg, Machine.keeps_ret fun w' hr _ => ⟨done, h.rely _ _ _ hr hput₃,
        fun _ => ⟨hdone rfl, Nat.le_of_not_lt hle⟩⟩⟩

/-- What was read is the frame, when the receive did not fail. -/
theorem keeps_recv {Got : Bytes → W → Prop} (h : Reads M T p Got)
    (halloc : ∀ got n r w w', n ≤ maxFrame → T.inv w → Got got w → M.exec p w (.alloc n) r w' →
      T.inv w' ∧ T.guar p w w' ∧ Got got w') (hgot : Got [] w) (hi : T.inv w) :
    M.keeps T p recv (fun r w' => ∃ got, Got got w' ∧
      ∀ f, r = .ok f → got = encode f ∧ f.2.length ≤ maxFrame) w := by
  have hstop : ∀ (e : IoError) {got : Bytes} {w : W}, Got got w →
      M.keeps T p (pure (.error e) : StreamProg (Except IoError Frame)) (fun r w' => ∃ got,
        Got got w' ∧ ∀ f, r = .ok f → got = encode f ∧ f.2.length ≤ maxFrame) w := by
    intro e got w hg
    exact Machine.keeps_ret fun w' hr _ => ⟨got, h.rely _ _ _ hr hg, fun _ h => by cases h⟩
  refine Machine.keeps_bind hi (Machine.keeps_mono (keeps_readExact h 5 hgot) ?_)
  intro r w₁ hpost _
  obtain ⟨header, hg₁, hheader⟩ := hpost
  rw [List.nil_append] at hg₁
  cases r with
  | error e => exact hstop e hg₁
  | ok header' =>
    obtain ⟨rfl, h5⟩ := hheader header' rfl
    dsimp only
    split
    · exact hstop _ hg₁
    · rename_i hle
      have hle := Nat.le_of_not_lt hle
      refine Machine.keeps_perform fun w₂ hr hi₂ r w₃ hx => ?_
      obtain ⟨hi₃, hgu, hg₃⟩ := halloc _ _ r _ _ hle hi₂ (h.rely _ _ _ hr hg₁) hx
      refine ⟨hi₃, hgu, Machine.keeps_bind hi₃ (Machine.keeps_mono (keeps_readExact h _ hg₃) ?_)⟩
      intro r w₄ hpost₄ _
      obtain ⟨payload, hg₄, hpayload⟩ := hpost₄
      cases r with
      | error e => exact hstop e hg₄
      | ok payload' =>
        obtain ⟨rfl, hlen⟩ := hpayload payload' rfl
        refine Machine.keeps_ret fun w' hr _ => ⟨_, h.rely _ _ _ hr hg₄, fun f hf => ?_⟩
        cases hf
        exact ⟨(encode_of_header h5 hlen).symm, hlen ▸ hle⟩

end
end Drot.L5.Wire
