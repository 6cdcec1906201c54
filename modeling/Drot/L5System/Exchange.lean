import Drot.L5System.Wire

/-!
# One request, one response, one connection

Any number of clients and servers, any number of connections, every interleaving of
their reads and writes, failures anywhere, and peers on either side that write what they
like. `request` is the client's program, `serve` a node's; the handler between its
`recv` and its `send` is one effect, answered by any frame.

* `exchange_exact`: a `request` that returns a reply got the bytes its peer wrote; if the
  peer is a node, it handled this very request, once, and this is what its handler
  replied. What a node handles a client wrote. No connection answers two requests, and
  no peer makes a process allocate more than the ceiling.
* `exchange_completes`: whatever else is going on, two processes that are free can
  exchange any two frames under the ceiling.

A stream that ends is a `read` that returns nothing, which may happen at any time.
-/
namespace Drot.L5.Exchange
open Bytes ByteStream Prog Wire
open Demo (Frame maxFrame)

/-! ## The programs -/

inductive Side where
  | client | server
  deriving DecidableEq, Repr

inductive NetOp where
  | connect (asked : Option Frame)  -- the request, or somebody else's connection
  | accept (forged : Bool)          -- whether a node accepts, or somebody at its address
  | handle (id : Nat) (frame : Frame)
  | stream (id : Nat) (side : Side) (op : StreamOp)

@[reducible] def NetAns : NetOp → Type
  | .connect _ => Except IoError Nat
  | .accept _ => Nat
  | .handle _ _ => Frame
  | .stream _ _ op => StreamRes op

abbrev NetProg := Prog NetOp NetAns

def ask (op : NetOp) : NetProg (NetAns op) := perform op

/-- A program on one end of a connection. -/
def onStream {α : Type} (id : Nat) (side : Side) (m : StreamProg α) : NetProg α :=
  m.within (.stream id side) fun _ r => r

/-- The reply, and the connection it came over.
mirrors src/demo/src/wire.rs:158-169 -/
def request (f : Frame) : NetProg (Option Nat × Except IoError Frame) := do
  match ← ask (.connect (some f)) with
  | .error e => return (none, .error e)
  | .ok id =>
    match ← onStream id .client (send f) with
    | .error e => return (some id, .error e)
    | .ok () =>
      let reply ← onStream id .client recv
      return (some id, reply)

/-- mirrors src/demo/src/bin/signer.rs:198-226 and src/demo/src/bin/mldsa_signer.rs:98-130 -/
def serve : NetProg Unit := do
  let id ← ask (.accept false)
  match ← onStream id .server recv with
  | .error _ => return ()
  | .ok frame =>
    let reply ← ask (.handle id frame)
    let _ ← onStream id .server (send reply)
    return ()

/-- Somebody who writes `bytes`. -/
def scribble (side : Side) (bytes : Bytes) : NetProg Unit :=
  match side with
  | .client => do
    match ← ask (.connect none) with
    | .error _ => return ()
    | .ok id =>
      let _ ← onStream id .client (writeAll bytes)
      return ()
  | .server => do
    let id ← ask (.accept true)
    let _ ← onStream id .server (writeAll bytes)
    return ()

/-! ## The system -/

structure Conn where
  client : Nat                      -- the process that connected
  asked : Option Frame              -- what it connected for
  up : Bytes                        -- what it has written
  upRead : Nat                      -- how much of it was read
  server : Option Nat               -- the process that accepted
  forged : Bool
  handled : List (Frame × Frame)    -- what was handled, and replied
  down : Bytes
  downRead : Nat

namespace Conn

def opened (p : Nat) (asked : Option Frame) : Conn := ⟨p, asked, [], 0, none, false, [], [], 0⟩

/-- What an end has not read yet. -/
def waiting (c : Conn) : Side → Bytes
  | .client => c.down.drop c.downRead
  | .server => c.up.drop c.upRead

def advance (c : Conn) (n : Nat) : Side → Conn
  | .client => { c with downRead := c.downRead + n }
  | .server => { c with upRead := c.upRead + n }

def push (c : Conn) (bytes : Bytes) : Side → Conn
  | .client => { c with up := c.up ++ bytes }
  | .server => { c with down := c.down ++ bytes }

end Conn

structure Net where
  conns : List Conn
  buffers : List Nat
  returned : List (Frame × Option Nat × Except IoError Frame)

namespace Net

def start : Net := ⟨[], [], []⟩

def set (w : Net) (id : Nat) (c : Conn) : Net := { w with conns := w.conns.set id c }

/-- The connections of the requests that have returned. -/
def used (w : Net) : List Nat := w.returned.filterMap fun x => x.2.1

end Net

def exec (p : Nat) (w : Net) : (op : NetOp) → NetAns op → Net → Prop
  | .connect _, .error _, w' => w' = w
  | .connect asked, .ok id, w' =>
    id = w.conns.length ∧ w' = { w with conns := w.conns ++ [Conn.opened p asked] }
  | .accept forged, id, w' => ∃ c, w.conns[id]? = some c ∧ c.server = none ∧
      w' = w.set id { c with server := some p, forged := forged }
  | .handle id frame, reply, w' => ∃ c, w.conns[id]? = some c ∧
      w' = w.set id { c with handled := c.handled ++ [(frame, reply)] }
  | .stream _ _ (.alloc n), _, w' => w' = { w with buffers := n :: w.buffers }
  | .stream id side (.read n), .ok bytes, w' => ∃ c, w.conns[id]? = some c ∧
      bytes <+: c.waiting side ∧ bytes.length ≤ n ∧ w' = w.set id (c.advance bytes.length side)
  | .stream id side (.write bytes), .ok n, w' => ∃ c, w.conns[id]? = some c ∧
      n ≤ bytes.length ∧ w' = w.set id (c.push (bytes.take n) side)
  | .stream _ _ (.read _), .error _, w' | .stream _ _ (.write _), .error _, w'
  | .stream _ _ .flush, _, w' => w' = w

def machine : Machine NetOp NetAns Net where
  exec := exec
  owns _ _ := False
  release _ w := w
  power _ _ := False

inductive Call where
  | request (f : Frame)
  | serve
  | scribble (side : Side) (bytes : Bytes)

abbrev Result := Option (Option Nat × Except IoError Frame)

def Call.program : Call → NetProg Result
  | .request f => (Exchange.request f).bind fun r => .ret (some r)
  | .serve => Exchange.serve.bind fun _ => .ret none
  | .scribble side bytes => (Exchange.scribble side bytes).bind fun _ => .ret none

def api : Api NetOp NetAns Net Empty Call Result where
  run _ c := some (c.program.bind fun r => .ret (none, r))
  note
    | .request f, some r, w => { w with returned := w.returned ++ [(f, r)] }
    | _, _, w => w

abbrev NetSys := Sys NetOp NetAns Net Empty Call Result

/-- Any number of processes that connect, accept and write. -/
def network : LTS NetSys Act := machine.system api (· = Net.start)

/-! ## The pact -/

/-- What a connection of a node, or of somebody else, looks like. -/
structure ConnOk (c : Conn) : Prop where
  idle : c.server = none → c.handled = [] ∧ c.down = [] ∧ c.upRead = 0
  once : c.handled.length ≤ 1
  fetched : ∀ x ∈ c.handled, Starts c.up x.1
  sent : ∀ f, c.asked = some f → c.up <+: encode f ∧ (c.up ≠ [] → f.2.length ≤ maxFrame)
  replied : c.forged = false → c.down ≠ [] → ∃ x ∈ c.handled, c.down <+: encode x.2 ∧
    x.2.2.length ≤ maxFrame
  forged : c.forged = true → c.handled = []

/-- The reply that a request returned was on its connection. -/
def Answered (w : Net) (f : Frame) (id : Nat) (reply : Frame) : Prop :=
  ∃ c, w.conns[id]? = some c ∧ c.asked = some f ∧ Starts c.up f ∧ Starts c.down reply

structure Inv (w : Net) : Prop where
  conns : ∀ (id : Nat) c, w.conns[id]? = some c → ConnOk c
  buffers : ∀ n ∈ w.buffers, n ≤ maxFrame
  returned : ∀ x ∈ w.returned, ∀ reply, x.2.2 = .ok reply →
    ∃ id, x.2.1 = some id ∧ Answered w x.1 id reply
  fresh : ∀ id ∈ w.used, id < w.conns.length
  once : w.used.Nodup

/-- What others may do to a connection of `p`. -/
structure ConnRelies (p : Nat) (c c' : Conn) : Prop where
  client : c'.client = c.client
  asked : c'.asked = c.asked
  up : c.up <+: c'.up
  down : c.down <+: c'.down
  server : ∀ q, c.server = some q → c'.server = some q ∧ c'.forged = c.forged
  mine : c.client = p → c'.up = c.up ∧ c'.downRead = c.downRead
  served : c.server = some p → c'.upRead = c.upRead ∧ c'.down = c.down ∧ c'.handled = c.handled

structure Relies (p : Nat) (w w' : Net) : Prop where
  conns : ∀ (id : Nat) c, w.conns[id]? = some c → ∃ c', w'.conns[id]? = some c' ∧ ConnRelies p c c'
  used : ∀ (id : Nat) c, w.conns[id]? = some c → c.client = p → id ∈ w'.used → id ∈ w.used

def Guarantee (p : Nat) (w w' : Net) : Prop := ∀ q, q ≠ p → Relies q w w'

section
variable {p : Nat} {w w' w'' : Net} {c c' c'' : Conn} {id : Nat}

theorem ConnRelies.refl : ConnRelies p c c :=
  ⟨rfl, rfl, List.prefix_rfl, List.prefix_rfl, fun _ h => ⟨h, rfl⟩, fun _ => ⟨rfl, rfl⟩,
    fun _ => ⟨rfl, rfl, rfl⟩⟩

theorem ConnRelies.trans (h : ConnRelies p c c') (h' : ConnRelies p c' c'') : ConnRelies p c c'' := by
  refine ⟨h'.client.trans h.client, h'.asked.trans h.asked, h.up.trans h'.up, h.down.trans h'.down,
    fun q hq => ?_,
    fun hm => ?_, fun hs => ?_⟩
  · obtain ⟨hq', hf⟩ := h.server q hq
    obtain ⟨hq'', hf'⟩ := h'.server q hq'
    exact ⟨hq'', hf'.trans hf⟩
  · obtain ⟨h1, h2⟩ := h.mine hm
    obtain ⟨h1', h2'⟩ := h'.mine (h.client.trans hm)
    exact ⟨h1'.trans h1, h2'.trans h2⟩
  · obtain ⟨h1, h2, h3⟩ := h.served hs
    obtain ⟨h1', h2', h3'⟩ := h'.served (h.server p hs).1
    exact ⟨h1'.trans h1, h2'.trans h2, h3'.trans h3⟩

theorem Relies.refl : Relies p w w := ⟨fun _ c h => ⟨c, h, .refl⟩, fun _ _ _ _ h => h⟩

theorem Relies.trans (h : Relies p w w') (h' : Relies p w' w'') : Relies p w w'' := by
  refine ⟨fun id c hc => ?_, fun id c hc hm hu => ?_⟩
  · obtain ⟨c', hc', hr⟩ := h.conns id c hc
    obtain ⟨c'', hc'', hr'⟩ := h'.conns id c' hc'
    exact ⟨c'', hc'', hr.trans hr'⟩
  · obtain ⟨c', hc', hr⟩ := h.conns id c hc
    exact h.used id c hc hm (h'.used id c' hc' (hr.client.trans hm) hu)

def pact : Pact Net where
  inv := Inv
  guar := Guarantee
  rely := Relies
  refl _ _ := .refl
  trans _ _ _ _ h h' := h.trans h'
  other _ _ _ _ hne _ _ h := h _ (Ne.symm hne)

theorem Guarantee.refl : Guarantee p w w := fun _ _ => .refl

theorem Answered.grows {f reply : Frame} (h : Answered w f id reply) (hr : Relies p w w') :
    Answered w' f id reply := by
  obtain ⟨c, hc, ha, hu, hd⟩ := h
  obtain ⟨c', hc', hcr⟩ := hr.conns id c hc
  exact ⟨c', hc', hcr.asked.trans ha, hu.grows hcr.up, hd.grows hcr.down⟩

theorem length_le_of_relies (hr : Relies p w w') : w.conns.length ≤ w'.conns.length := by
  by_contra hlt
  have hlt : w'.conns.length < w.conns.length := Nat.lt_of_not_le hlt
  obtain ⟨c', hc', -⟩ := hr.conns _ _ (List.getElem?_eq_getElem hlt)
  exact absurd (List.getElem?_eq_some_iff.mp hc').1 (Nat.lt_irrefl _)

/-! ### Steps -/

/-- Nothing returned, and every connection is well. -/
theorem Inv.move (hi : Inv w) (hok : ∀ (id : Nat) c, w'.conns[id]? = some c → ConnOk c)
    (hb : ∀ n ∈ w'.buffers, n ≤ maxFrame) (hret : w'.returned = w.returned)
    (hg : Guarantee p w w') : Inv w' := by
  have hr := hg (p + 1) (Nat.succ_ne_self p)
  have hused : w'.used = w.used := by
    unfold Net.used
    rw [hret]
  refine ⟨hok, hb, fun x hx reply hrep => ?_, fun id hid => ?_, hused ▸ hi.once⟩
  · rw [hret] at hx
    obtain ⟨id, hid, ha⟩ := hi.returned x hx reply hrep
    exact ⟨id, hid, ha.grows hr⟩
  · rw [hused] at hid
    exact lt_of_lt_of_le (hi.fresh id hid) (length_le_of_relies hr)

/-- One connection changes. -/
theorem step_set (hi : Inv w) (hc : w.conns[id]? = some c) (hok : ConnOk c')
    (hr : ∀ q, q ≠ p → ConnRelies q c c') : Inv (w.set id c') ∧ Guarantee p w (w.set id c') := by
  have hlt := (List.getElem?_eq_some_iff.mp hc).1
  have hself : (w.set id c').conns[id]? = some c' := List.getElem?_set_self hlt
  have hother : ∀ j : Nat, j ≠ id → (w.set id c').conns[j]? = w.conns[j]? :=
    fun j hj => List.getElem?_set_ne (Ne.symm hj)
  have hg : Guarantee p w (w.set id c') := by
    refine fun q hq => ⟨fun j d hd => ?_, fun _ _ _ _ h => h⟩
    by_cases hj : j = id
    · subst hj
      rw [hc] at hd
      cases hd
      exact ⟨c', hself, hr q hq⟩
    · exact ⟨d, (hother j hj).trans hd, .refl⟩
  refine ⟨hi.move (fun j d hd => ?_) hi.buffers rfl hg, hg⟩
  by_cases hj : j = id
  · subst hj
    rw [hself] at hd
    cases hd
    exact hok
  · rw [hother j hj] at hd
    exact hi.conns j d hd

theorem connOk_opened (p : Nat) (asked : Option Frame) : ConnOk (Conn.opened p asked) := by
  refine ⟨fun _ => ⟨rfl, rfl, rfl⟩, Nat.zero_le _, fun x hx => ?_,
    fun _ _ => ⟨List.nil_prefix, fun h => absurd rfl h⟩, fun _ h => absurd rfl h, fun h => ?_⟩
  · cases hx
  · cases h

theorem step_connect {a : Option Frame} (hi : Inv w) :
    Inv { w with conns := w.conns ++ [Conn.opened p a] } ∧
      Guarantee p w { w with conns := w.conns ++ [Conn.opened p a] } := by
  have hold : ∀ (j : Nat) d, w.conns[j]? = some d → (w.conns ++ [Conn.opened p a])[j]? = some d := by
    intro j d hd
    rw [List.getElem?_append_left (List.getElem?_eq_some_iff.mp hd).1]
    exact hd
  have hg : Guarantee p w { w with conns := w.conns ++ [Conn.opened p a] } :=
    fun q _ => ⟨fun j d hd => ⟨d, hold j d hd, .refl⟩, fun _ _ _ _ h => h⟩
  refine ⟨hi.move (fun j d hd => ?_) hi.buffers rfl hg, hg⟩
  rcases List.mem_append.mp (List.mem_of_getElem? hd) with hd | hd
  · obtain ⟨k, hk⟩ := List.mem_iff_getElem?.mp hd
    exact hi.conns k d hk
  · rw [List.mem_singleton.mp hd]
    exact connOk_opened p a

theorem step_accept {b : Bool} (hi : Inv w) (hc : w.conns[id]? = some c)
    (hs : c.server = none) :
    Inv (w.set id { c with server := some p, forged := b }) ∧
      Guarantee p w (w.set id { c with server := some p, forged := b }) := by
  have hok := hi.conns id c hc
  obtain ⟨hh, hd, -⟩ := hok.idle hs
  refine step_set hi hc ⟨(fun h => by cases h), hok.once, hok.fetched, hok.sent,
    fun _ h => absurd hd h,
    fun _ => hh⟩
    fun q _ => ⟨rfl, rfl, List.prefix_rfl, List.prefix_rfl, fun r hr => ?_, fun _ => ⟨rfl, rfl⟩,
      fun _ => ⟨rfl, rfl, rfl⟩⟩
  rw [hs] at hr
  cases hr

theorem step_alloc {n : Nat} (hi : Inv w) (hn : n ≤ maxFrame) :
    Inv { w with buffers := n :: w.buffers } ∧ Guarantee p w { w with buffers := n :: w.buffers } := by
  have hg : Guarantee p w { w with buffers := n :: w.buffers } :=
    fun q _ => ⟨fun j d hd => ⟨d, hd, .refl⟩, fun _ _ _ _ h => h⟩
  refine ⟨hi.move hi.conns (fun m hm => ?_) rfl hg, hg⟩
  rcases List.mem_cons.mp hm with rfl | hm
  · exact hn
  · exact hi.buffers m hm

/-- The client writes. -/
theorem step_push_client (hi : Inv w) (hc : w.conns[id]? = some c) (hm : c.client = p)
    {b : Bytes} (hsent : ∀ f, c.asked = some f →
      c.up ++ b <+: encode f ∧ (c.up ++ b ≠ [] → f.2.length ≤ maxFrame)) :
    Inv (w.set id (c.push b .client)) ∧ Guarantee p w (w.set id (c.push b .client)) := by
  have hok := hi.conns id c hc
  refine step_set hi hc ⟨hok.idle, hok.once,
    fun x hx => (hok.fetched x hx).grows (List.prefix_append _ _), hsent, hok.replied, hok.forged⟩
    fun q hq => ⟨rfl, rfl, List.prefix_append _ _, List.prefix_rfl, fun _ hs => ⟨hs, rfl⟩,
      fun h => ?_,
      fun _ => ⟨rfl, rfl, rfl⟩⟩
  exact absurd (h.symm.trans hm) hq

/-- The client reads. -/
theorem step_advance_client (hi : Inv w) (hc : w.conns[id]? = some c) (hm : c.client = p) (n : Nat) :
    Inv (w.set id (c.advance n .client)) ∧ Guarantee p w (w.set id (c.advance n .client)) := by
  have hok := hi.conns id c hc
  refine step_set hi hc ⟨hok.idle, hok.once, hok.fetched, hok.sent, hok.replied, hok.forged⟩
    fun q hq => ⟨rfl, rfl, List.prefix_rfl, List.prefix_rfl, fun _ hs => ⟨hs, rfl⟩, fun h => ?_,
      fun _ => ⟨rfl, rfl, rfl⟩⟩
  exact absurd (h.symm.trans hm) hq

/-- The server reads, handles or writes: `d` is `c` but for that. -/
theorem step_server {d : Conn} (hi : Inv w) (hc : w.conns[id]? = some c) (hs : c.server = some p)
    (hclient : d.client = c.client) (hasked : d.asked = c.asked) (hup : d.up = c.up)
    (hread : d.downRead = c.downRead)
    (hserver : d.server = c.server) (hforged : d.forged = c.forged) (hdown : c.down <+: d.down)
    (honce : d.handled.length ≤ 1) (hfetched : ∀ x ∈ d.handled, Starts c.up x.1)
    (hreplied : c.forged = false → d.down ≠ [] → ∃ x ∈ d.handled, d.down <+: encode x.2 ∧
      x.2.2.length ≤ maxFrame)
    (hbad : c.forged = true → d.handled = []) :
    Inv (w.set id d) ∧ Guarantee p w (w.set id d) := by
  refine step_set hi hc ⟨fun h => ?_, honce, hup ▸ hfetched, ?_, hforged ▸ hreplied,
    hforged ▸ hbad⟩ fun q hq => ⟨hclient, hasked, hup ▸ List.prefix_rfl, hdown,
      fun r hr => ⟨hserver.trans hr, hforged⟩,
      fun _ => ⟨hup, hread⟩, fun h => ?_⟩
  · rw [hserver, hs] at h
    cases h
  · rw [hasked, hup]
    exact (hi.conns id c hc).sent
  · exact absurd (Option.some.inj (h.symm.trans hs)) hq

end

/-! ### The client's end -/

section
variable {p id : Nat} {f : Frame} {w w' : Net}

/-- One end of a connection, as a program on a stream sees it. -/
abbrev endOf (id : Nat) (side : Side) : Machine StreamOp StreamRes Net :=
  machine.seen (.stream id side) fun _ r => r

/-- The client of a request has written `done`, and read nothing. -/
def Asking (p id : Nat) (f : Frame) (done : Bytes) (w : Net) : Prop :=
  ∃ c, w.conns[id]? = some c ∧ c.client = p ∧ c.asked = some f ∧ c.up = done ∧ c.downRead = 0 ∧
    id ∉ w.used

/-- It has sent `f`, and read `got`. -/
def Awaiting (p id : Nat) (f : Frame) (got : Bytes) (w : Net) : Prop :=
  ∃ c, w.conns[id]? = some c ∧ c.client = p ∧ c.asked = some f ∧ Starts c.up f ∧
    c.downRead = got.length ∧
    got <+: c.down ∧ id ∉ w.used

theorem Asking.relies {done : Bytes} (h : Asking p id f done w) (hr : Relies p w w') :
    Asking p id f done w' := by
  obtain ⟨c, hc, hm, ha, hup, hread, hn⟩ := h
  obtain ⟨c', hc', hcr⟩ := hr.conns id c hc
  obtain ⟨h1, h2⟩ := hcr.mine hm
  exact ⟨c', hc', hcr.client.trans hm, hcr.asked.trans ha, h1.trans hup, h2.trans hread,
    fun h => hn (hr.used id c hc hm h)⟩

theorem Awaiting.relies {got : Bytes} (h : Awaiting p id f got w) (hr : Relies p w w') :
    Awaiting p id f got w' := by
  obtain ⟨c, hc, hm, ha, hup, hread, hgot, hn⟩ := h
  obtain ⟨c', hc', hcr⟩ := hr.conns id c hc
  obtain ⟨-, h2⟩ := hcr.mine hm
  exact ⟨c', hc', hcr.client.trans hm, hcr.asked.trans ha, hup.grows hcr.up, h2.trans hread,
    hgot.trans hcr.down,
    fun h => hn (hr.used id c hc hm h)⟩

theorem getElem?_set {c c' : Conn} (hc : w.conns[id]? = some c) :
    (w.set id c').conns[id]? = some c' :=
  List.getElem?_set_self (List.getElem?_eq_some_iff.mp hc).1

/-- What comes next extends what was read. -/
theorem prefix_next {got bytes stream : Bytes} (h : got <+: stream)
    (hb : bytes <+: stream.drop got.length) : got ++ bytes <+: stream := by
  obtain ⟨rest, rfl⟩ := h
  rw [List.drop_left' rfl] at hb
  exact (List.prefix_append_right_inj got).mpr hb

theorem writes_asking (hle : f.2.length ≤ maxFrame) :
    Writes (endOf id .client) pact p (encode f) (Asking p id f) := by
  refine ⟨fun _ _ _ hr h => h.relies hr, fun done bytes e w w' hi h hx => ?_,
    fun done bytes n w w' htotal hi h hx => ?_⟩
  · obtain ⟨r, rfl, hx⟩ := hx
    obtain rfl : w' = w := hx
    exact ⟨hi, .refl, h⟩
  · obtain ⟨r, rfl, c', hc', -, rfl⟩ := hx
    obtain ⟨c, hc, hm, ha, hup, hread, hn⟩ := h
    obtain rfl : c = c' := Option.some.inj (hc.symm.trans hc')
    have hsent : ∀ g, c.asked = some g → c.up ++ bytes.take n <+: encode g ∧
        (c.up ++ bytes.take n ≠ [] → g.2.length ≤ maxFrame) := by
      intro g hg
      obtain rfl : f = g := Option.some.inj (ha.symm.trans hg)
      rw [hup, ← htotal]
      exact ⟨(List.prefix_append_right_inj done).mpr (List.take_prefix _ _), fun _ => hle⟩
    obtain ⟨hi', hg⟩ := step_push_client hi hc hm hsent
    exact ⟨hi', hg, _, getElem?_set hc, hm, ha, by rw [← hup]; rfl, hread, hn⟩

theorem reads_awaiting : Reads (endOf id .client) pact p (Awaiting p id f) := by
  refine ⟨fun _ _ _ hr h => h.relies hr, fun got n e w w' hi h hx => ?_,
    fun got n bytes w w' hi h hx => ?_⟩
  · obtain ⟨r, rfl, hx⟩ := hx
    obtain rfl : w' = w := hx
    exact ⟨hi, .refl, h⟩
  · obtain ⟨r, rfl, c', hc', hb, hle, rfl⟩ := hx
    obtain ⟨c, hc, hm, ha, hup, hread, hgot, hn⟩ := h
    obtain rfl : c = c' := Option.some.inj (hc.symm.trans hc')
    obtain ⟨hi', hg⟩ := step_advance_client hi hc hm bytes.length
    refine ⟨hi', hg, hle, _, getElem?_set hc, hm, ha, hup, ?_, ?_, hn⟩
    · show c.downRead + bytes.length = _
      rw [hread, List.length_append]
    · rw [Conn.waiting, hread] at hb
      exact prefix_next hgot hb

/-! ### The server's end -/

/-- The node has read `got`, and handled nothing. -/
def Fetching (p id : Nat) (got : Bytes) (w : Net) : Prop :=
  ∃ c, w.conns[id]? = some c ∧ c.server = some p ∧ c.forged = false ∧ c.handled = [] ∧ c.down = [] ∧
    c.upRead = got.length ∧ got <+: c.up

/-- It has handled a frame, and written `done`. -/
def Replying (p id : Nat) (x : Frame × Frame) (done : Bytes) (w : Net) : Prop :=
  ∃ c, w.conns[id]? = some c ∧ c.server = some p ∧ c.forged = false ∧ c.handled = [x] ∧ c.down = done

theorem Fetching.relies {got : Bytes} (h : Fetching p id got w) (hr : Relies p w w') :
    Fetching p id got w' := by
  obtain ⟨c, hc, hs, hf, hh, hd, hread, hgot⟩ := h
  obtain ⟨c', hc', hcr⟩ := hr.conns id c hc
  obtain ⟨hs', hf'⟩ := hcr.server p hs
  obtain ⟨h1, h2, h3⟩ := hcr.served hs
  exact ⟨c', hc', hs', hf'.trans hf, h3.trans hh, h2.trans hd, h1.trans hread, hgot.trans hcr.up⟩

theorem Replying.relies {x : Frame × Frame} {done : Bytes} (h : Replying p id x done w)
    (hr : Relies p w w') : Replying p id x done w' := by
  obtain ⟨c, hc, hs, hf, hh, hd⟩ := h
  obtain ⟨c', hc', hcr⟩ := hr.conns id c hc
  obtain ⟨hs', hf'⟩ := hcr.server p hs
  obtain ⟨-, h2, h3⟩ := hcr.served hs
  exact ⟨c', hc', hs', hf'.trans hf, h3.trans hh, h2.trans hd⟩

theorem reads_fetching : Reads (endOf id .server) pact p (Fetching p id) := by
  refine ⟨fun _ _ _ hr h => h.relies hr, fun got n e w w' hi h hx => ?_,
    fun got n bytes w w' hi h hx => ?_⟩
  · obtain ⟨r, rfl, hx⟩ := hx
    obtain rfl : w' = w := hx
    exact ⟨hi, .refl, h⟩
  · obtain ⟨r, rfl, c', hc', hb, hle, rfl⟩ := hx
    obtain ⟨c, hc, hs, hf, hh, hd, hread, hgot⟩ := h
    obtain rfl : c = c' := Option.some.inj (hc.symm.trans hc')
    have hok := hi.conns id c hc
    obtain ⟨hi', hg⟩ := step_server (d := c.advance bytes.length .server) hi hc hs rfl rfl rfl rfl
      rfl rfl
      List.prefix_rfl hok.once hok.fetched hok.replied hok.forged
    refine ⟨hi', hg, hle, _, getElem?_set hc, hs, hf, hh, hd, ?_, ?_⟩
    · show c.upRead + bytes.length = _
      rw [hread, List.length_append]
    · rw [Conn.waiting, hread] at hb
      exact prefix_next hgot hb

theorem step_handle {c : Conn} {frame r : Frame} (hi : Inv w) (hc : w.conns[id]? = some c)
    (hs : c.server = some p) (hf : c.forged = false) (hh : c.handled = []) (hd : c.down = [])
    (hstarts : Starts c.up frame) :
    Inv (w.set id { c with handled := c.handled ++ [(frame, r)] }) ∧
    Guarantee p w (w.set id { c with handled := c.handled ++ [(frame, r)] }) ∧
    Replying p id (frame, r) [] (w.set id { c with handled := c.handled ++ [(frame, r)] }) := by
  have hlog : c.handled ++ [(frame, r)] = [(frame, r)] := by rw [hh, List.nil_append]
  rw [hlog]
  obtain ⟨hi', hg⟩ := step_server (d := { c with handled := [(frame, r)] }) hi hc hs rfl rfl rfl
    rfl rfl rfl List.prefix_rfl (le_refl _)
    (fun x hx => by rw [List.mem_singleton.mp hx]; exact hstarts) (fun _ h => absurd hd h)
    (fun h => by rw [hf] at h; cases h)
  exact ⟨hi', hg, _, getElem?_set hc, hs, hf, rfl, hd⟩

theorem writes_replying {x : Frame × Frame} (hx : x.2.2.length ≤ maxFrame) :
    Writes (endOf id .server) pact p (encode x.2) (Replying p id x) := by
  refine ⟨fun _ _ _ hr h => h.relies hr, fun done bytes e w w' hi h hex => ?_,
    fun done bytes n w w' htotal hi h hex => ?_⟩
  · obtain ⟨r, rfl, hex⟩ := hex
    obtain rfl : w' = w := hex
    exact ⟨hi, .refl, h⟩
  · obtain ⟨r, rfl, c', hc', -, rfl⟩ := hex
    obtain ⟨c, hc, hs, hf, hh, hd⟩ := h
    obtain rfl : c = c' := Option.some.inj (hc.symm.trans hc')
    have hok := hi.conns id c hc
    have hprefix : c.down ++ bytes.take n <+: encode x.2 := by
      rw [← htotal, hd]
      exact (List.prefix_append_right_inj done).mpr (List.take_prefix _ _)
    obtain ⟨hi', hg⟩ := step_server (d := c.push (bytes.take n) .server) hi hc hs rfl rfl rfl rfl
      rfl rfl
      (List.prefix_append _ _) hok.once hok.fetched
      (fun _ _ => ⟨x, by rw [Conn.push, hh]; exact List.mem_singleton_self x, hprefix, hx⟩)
      (fun h => by rw [hf] at h; cases h)
    exact ⟨hi', hg, _, getElem?_set hc, hs, hf, hh, by rw [← hd]; rfl⟩

/-! ### Somebody -/

/-- The client of a connection that it only writes to. -/
def Scribbling (p id : Nat) (_ : Bytes) (w : Net) : Prop :=
  ∃ c, w.conns[id]? = some c ∧ c.client = p ∧ c.asked = none

/-- Somebody at a node's address. -/
def Forging (p id : Nat) (_ : Bytes) (w : Net) : Prop :=
  ∃ c, w.conns[id]? = some c ∧ c.server = some p ∧ c.forged = true

theorem writes_scribbling (total : Bytes) :
    Writes (endOf id .client) pact p total (Scribbling p id) := by
  refine ⟨fun _ w w' hr h => ?_, fun done bytes e w w' hi h hx => ?_,
    fun done bytes n w w' _ hi h hx => ?_⟩
  · obtain ⟨c, hc, hm, ha⟩ := h
    obtain ⟨c', hc', hcr⟩ := hr.conns id c hc
    exact ⟨c', hc', hcr.client.trans hm, hcr.asked.trans ha⟩
  · obtain ⟨r, rfl, hx⟩ := hx
    obtain rfl : w' = w := hx
    exact ⟨hi, .refl, h⟩
  · obtain ⟨r, rfl, c', hc', -, rfl⟩ := hx
    obtain ⟨c, hc, hm, ha⟩ := h
    obtain rfl : c = c' := Option.some.inj (hc.symm.trans hc')
    obtain ⟨hi', hg⟩ := step_push_client (b := bytes.take n) hi hc hm
      (fun g hg => by rw [ha] at hg; cases hg)
    exact ⟨hi', hg, _, getElem?_set hc, hm, ha⟩

theorem writes_forging (total : Bytes) :
    Writes (endOf id .server) pact p total (Forging p id) := by
  refine ⟨fun _ w w' hr h => ?_, fun done bytes e w w' hi h hx => ?_,
    fun done bytes n w w' _ hi h hx => ?_⟩
  · obtain ⟨c, hc, hs, hf⟩ := h
    obtain ⟨c', hc', hcr⟩ := hr.conns id c hc
    obtain ⟨hs', hf'⟩ := hcr.server p hs
    exact ⟨c', hc', hs', hf'.trans hf⟩
  · obtain ⟨r, rfl, hx⟩ := hx
    obtain rfl : w' = w := hx
    exact ⟨hi, .refl, h⟩
  · obtain ⟨r, rfl, c', hc', -, rfl⟩ := hx
    obtain ⟨c, hc, hs, hf⟩ := h
    obtain rfl : c = c' := Option.some.inj (hc.symm.trans hc')
    have hok := hi.conns id c hc
    obtain ⟨hi', hg⟩ := step_server (d := c.push (bytes.take n) .server) hi hc hs rfl rfl rfl rfl
      rfl rfl
      (List.prefix_append _ _) hok.once hok.fetched (fun h => by rw [hf] at h; cases h) hok.forged
    exact ⟨hi', hg, _, getElem?_set hc, hs, hf⟩

end

/-! ## Every call keeps the pact -/

section
variable {p id : Nat} {f : Frame} {w w' : Net} {α β : Type}

theorem keeps_seq {m : NetProg α} {g : α → NetProg β} {Q : β → Net → Prop} (hi : Inv w)
    (h : machine.keeps pact p m (fun a w' => Inv w' → machine.keeps pact p (g a) Q w') w) :
    machine.keeps pact p (m >>= g) Q w := Machine.keeps_bind hi h

theorem keeps_return {a : α} {Q : α → Net → Prop} (h : ∀ w', Relies p w w' → Q a w') :
    machine.keeps pact p (pure a : NetProg α) Q w := Machine.keeps_ret fun w' hr _ => h w' hr

theorem keeps_ask {op : NetOp} {k : NetAns op → NetProg α} {Q : α → Net → Prop}
    (h : ∀ w₁, Relies p w w₁ → Inv w₁ → ∀ r w₂, exec p w₁ op r w₂ →
      Inv w₂ ∧ Guarantee p w₁ w₂ ∧ machine.keeps pact p (k r) Q w₂) :
    machine.keeps pact p (ask op >>= k) Q w := Machine.keeps_call h

/-- A failed flush is no concern of the connection. -/
theorem flushes {Put : Bytes → Net → Prop} {side : Side} (done : Bytes) (r : Except IoError Unit)
    (w w' : Net) (hi : pact.inv w) (hp : Put done w) (hx : (endOf id side).exec p w .flush r w') :
    pact.inv w' ∧ pact.guar p w w' ∧ Put done w' := by
  obtain ⟨r, -, hx⟩ := hx
  obtain rfl : w' = w := hx
  exact ⟨hi, .refl, hp⟩

/-- What a request that returns says. -/
structure Returned (p : Nat) (f : Frame) (r : Option Nat × Except IoError Frame)
    (w : Net) : Prop where
  mine : ∀ id, r.1 = some id → (∃ c, w.conns[id]? = some c ∧ c.client = p) ∧ id ∉ w.used
  answered : ∀ reply, r.2 = .ok reply → ∃ id, r.1 = some id ∧ Answered w f id reply

theorem Returned.relies {r : Option Nat × Except IoError Frame} (h : Returned p f r w)
    (hr : Relies p w w') : Returned p f r w' := by
  refine ⟨fun id hid => ?_, fun reply hrep => ?_⟩
  · obtain ⟨⟨c, hc, hm⟩, hn⟩ := h.mine id hid
    obtain ⟨c', hc', hcr⟩ := hr.conns id c hc
    exact ⟨⟨c', hc', hcr.client.trans hm⟩, fun h => hn (hr.used id c hc hm h)⟩
  · obtain ⟨id, hid, ha⟩ := h.answered reply hrep
    exact ⟨id, hid, ha.grows hr⟩

/-- A connection of `p` that no request has returned. -/
theorem returned_error {e : IoError} (h : (∃ c, w.conns[id]? = some c ∧ c.client = p) ∧ id ∉ w.used) :
    Returned p f (some id, .error e) w := by
  refine ⟨fun j hj => ?_, fun _ hr => by cases hr⟩
  cases hj
  exact h

theorem keeps_request (f : Frame) :
    machine.keeps pact p (Exchange.request f) (Returned p f) w := by
  refine keeps_ask fun w₁ hr₁ hi₁ r w₂ hx => ?_
  cases r with
  | error e =>
    obtain rfl : w₂ = w₁ := hx
    refine ⟨hi₁, .refl, keeps_return fun w' _ => ⟨(fun id h => by cases h), fun _ h => by cases h⟩⟩
  | ok id =>
    obtain ⟨rfl, rfl⟩ := hx
    obtain ⟨hi₂, hg₂⟩ := step_connect (p := p) (a := some f) hi₁
    have hasking : Asking p w₁.conns.length f []
        { w₁ with conns := w₁.conns ++ [Conn.opened p (some f)] } :=
      ⟨_, List.getElem?_concat_length, rfl, rfl, rfl, rfl,
        fun h => absurd (hi₁.fresh _ h) (Nat.lt_irrefl _)⟩
    refine ⟨hi₂, hg₂, keeps_seq hi₂ (Machine.keeps_mono (Machine.keeps_within (keeps_send
      (fun hle => writes_asking hle) (fun _ _ _ hr h => h.relies hr) flushes hasking hi₂)) ?_)⟩
    intro r w₃ hpost hi₃
    obtain ⟨done, ⟨c, hc, hm, ha, hup, hread, hn⟩, hdone⟩ := hpost
    cases r with
    | error e => exact keeps_return fun w' hr => (returned_error ⟨⟨c, hc, hm⟩, hn⟩).relies hr
    | ok u =>
      obtain ⟨rfl, hle⟩ := hdone rfl
      have hawaiting : Awaiting p w₁.conns.length f [] w₃ :=
        ⟨c, hc, hm, ha, ⟨hup ▸ List.prefix_rfl, hle⟩, hread, List.nil_prefix, hn⟩
      refine keeps_seq hi₃ (Machine.keeps_mono (Machine.keeps_within (keeps_recv reads_awaiting
        (fun got n r w w' hn hi h hx => ?_) hawaiting hi₃)) ?_)
      · obtain ⟨r, -, hx⟩ := hx
        obtain rfl : w' = _ := hx
        obtain ⟨hi', hg'⟩ := step_alloc (p := p) hi hn
        exact ⟨hi', hg', h⟩
      · intro r w₄ hpost _
        obtain ⟨got, ⟨c, hc, hm, ha, hup, hread, hgot, hn⟩, hreply⟩ := hpost
        refine keeps_return fun w' hr => Returned.relies (w := w₄) ⟨fun j hj => ?_,
          fun reply hrep => ?_⟩ hr
        · cases hj
          exact ⟨⟨c, hc, hm⟩, hn⟩
        · obtain ⟨rfl, hle⟩ := hreply reply hrep
          exact ⟨_, rfl, c, hc, ha, hup, hgot, hle⟩

theorem keeps_serve : machine.keeps pact p Exchange.serve (fun _ _ => True) w := by
  refine keeps_ask fun w₁ hr₁ hi₁ id w₂ hx => ?_
  obtain ⟨c, hc, hs, rfl⟩ := hx
  obtain ⟨hi₂, hg₂⟩ := step_accept (p := p) (b := false) hi₁ hc hs
  obtain ⟨hh, hd, hread⟩ := (hi₁.conns id c hc).idle hs
  have hfetching : Fetching p id [] (w₁.set id { c with server := some p, forged := false }) :=
    ⟨_, getElem?_set hc, rfl, rfl, hh, hd, hread, List.nil_prefix⟩
  refine ⟨hi₂, hg₂, keeps_seq hi₂ (Machine.keeps_mono (Machine.keeps_within (keeps_recv reads_fetching
    (fun got n r w w' hn hi h hx => ?_) hfetching hi₂)) ?_)⟩
  · obtain ⟨r, -, hx⟩ := hx
    obtain rfl : w' = _ := hx
    obtain ⟨hi', hg'⟩ := step_alloc (p := p) hi hn
    exact ⟨hi', hg', h⟩
  · intro r w₃ hpost hi₃
    cases r with
    | error e => exact keeps_return fun _ _ => trivial
    | ok frame =>
      obtain ⟨got, hgot, hframe⟩ := hpost
      obtain ⟨rfl, hle⟩ := hframe frame rfl
      refine keeps_ask fun w₄ hr₄ hi₄ reply w₅ hx => ?_
      obtain ⟨c', hc', rfl⟩ := hx
      obtain ⟨c, hc, hs, hf, hh, hd, -, hup⟩ := hgot.relies hr₄
      obtain rfl : c = c' := Option.some.inj (hc.symm.trans hc')
      obtain ⟨hi₅, hg₅, hreplying⟩ := step_handle (r := reply) hi₄ hc hs hf hh hd ⟨hup, hle⟩
      refine ⟨hi₅, hg₅, keeps_seq hi₅ (Machine.keeps_mono (Machine.keeps_within (keeps_send
        (fun hle => writes_replying (x := (frame, reply)) hle)
          (fun _ _ _ hr h => h.relies hr) flushes hreplying hi₅)) ?_)⟩
      intro r w₆ _ _
      exact keeps_return fun _ _ => trivial

theorem keeps_scribble (side : Side) (bytes : Bytes) :
    machine.keeps pact p (Exchange.scribble side bytes) (fun _ _ => True) w := by
  cases side with
  | client =>
    refine keeps_ask fun w₁ hr₁ hi₁ r w₂ hx => ?_
    cases r with
    | error e =>
      obtain rfl : w₂ = w₁ := hx
      exact ⟨hi₁, .refl, keeps_return fun _ _ => trivial⟩
    | ok id =>
      obtain ⟨rfl, rfl⟩ := hx
      obtain ⟨hi₂, hg₂⟩ := step_connect (p := p) (a := none) hi₁
      have hscribbling : Scribbling p w₁.conns.length []
          { w₁ with conns := w₁.conns ++ [Conn.opened p none] } :=
        ⟨_, List.getElem?_concat_length, rfl, rfl⟩
      refine ⟨hi₂, hg₂, keeps_seq hi₂ (Machine.keeps_mono (Machine.keeps_within
        (keeps_writeAll (writes_scribbling bytes) bytes (List.nil_append _) hscribbling)) ?_)⟩
      intro r w₃ _ _
      exact keeps_return fun _ _ => trivial
  | server =>
    refine keeps_ask fun w₁ hr₁ hi₁ id w₂ hx => ?_
    obtain ⟨c, hc, hs, rfl⟩ := hx
    obtain ⟨hi₂, hg₂⟩ := step_accept (p := p) (b := true) hi₁ hc hs
    have hforging : Forging p id [] (w₁.set id { c with server := some p, forged := true }) :=
      ⟨_, getElem?_set hc, rfl, rfl⟩
    refine ⟨hi₂, hg₂, keeps_seq hi₂ (Machine.keeps_mono (Machine.keeps_within
      (keeps_writeAll (writes_forging bytes) bytes (List.nil_append _) hforging)) ?_)⟩
    intro r w₃ _ _
    exact keeps_return fun _ _ => trivial

/-! ## Every run -/

theorem step_return {r : Option Nat × Except IoError Frame} (hi : Inv w) (h : Returned p f r w) :
    Inv { w with returned := w.returned ++ [(f, r)] } ∧
      Guarantee p w { w with returned := w.returned ++ [(f, r)] } := by
  have hused : ∀ {q : List Nat}, q = Net.used { w with returned := w.returned ++ [(f, r)] } →
      q = w.used ++ r.1.toList := by
    intro q hq
    rw [hq, Net.used, List.filterMap_append]
    cases h1 : r.1 <;> simp [Net.used, h1]
  have hused := hused rfl
  refine ⟨⟨hi.conns, hi.buffers, fun x hx reply hrep => ?_, fun id hid => ?_, ?_⟩, fun q hq =>
    ⟨fun j c hc => ⟨c, hc, .refl⟩, fun id c hc hm hid => ?_⟩⟩
  · rcases List.mem_append.mp hx with hx | hx
    · exact hi.returned x hx reply hrep
    · rw [List.mem_singleton.mp hx] at hrep ⊢
      exact h.answered reply hrep
  · rw [hused] at hid
    rcases List.mem_append.mp hid with hid | hid
    · exact hi.fresh id hid
    · obtain ⟨⟨c, hc, -⟩, -⟩ := h.mine id (Option.mem_toList.mp hid)
      exact (List.getElem?_eq_some_iff.mp hc).1
  · rw [hused, List.nodup_append]
    refine ⟨hi.once, ?_, fun a ha b hb heq => ?_⟩
    · cases r.1 <;> simp
    · subst heq
      exact (h.mine a (Option.mem_toList.mp hb)).2 ha
  · rw [hused] at hid
    rcases List.mem_append.mp hid with hid | hid
    · exact hid
    · obtain ⟨⟨c', hc', hm'⟩, -⟩ := h.mine id (Option.mem_toList.mp hid)
      rw [hc] at hc'
      cases hc'
      exact absurd (hm.symm.trans hm') hq

theorem honoured : Honoured pact machine api := by
  refine ⟨fun p o c m w hm hi => ?_, fun p w hi => ⟨hi, .refl⟩, fun _ _ h => h⟩
  cases hm
  have hquiet : ∀ {c : Call} {r : Result} {w : Net}, (∀ f r', c = .request f → r ≠ some r') → Inv w →
      pact.Ends machine api p c (none, r) w := by
    intro c r w hne hi
    cases c with
    | request f =>
      cases r with
      | none => exact ⟨hi, .refl⟩
      | some r => exact absurd rfl (hne f r rfl)
    | serve => exact ⟨hi, .refl⟩
    | scribble side bytes => exact ⟨hi, .refl⟩
  cases c with
  | request f =>
    refine Machine.keeps_bind hi (Machine.keeps_bind hi (Machine.keeps_mono (keeps_request f) ?_))
    intro r w₁ h₁ _
    exact Machine.keeps_ret fun w₂ hr₂ _ hi₂ => Machine.keeps_ret fun w₃ hr₃ hi₃ =>
      step_return hi₃ ((h₁.relies hr₂).relies hr₃)
  | serve =>
    refine Machine.keeps_bind hi (Machine.keeps_bind hi (Machine.keeps_mono keeps_serve ?_))
    intro r w₁ _ _
    exact Machine.keeps_ret fun w₂ hr₂ _ hi₂ => Machine.keeps_ret fun w₃ hr₃ hi₃ =>
      hquiet (fun f r' h => by cases h) hi₃
  | scribble side bytes =>
    refine Machine.keeps_bind hi (Machine.keeps_bind hi (Machine.keeps_mono
      (keeps_scribble side bytes) ?_))
    intro r w₁ _ _
    exact Machine.keeps_ret fun w₂ hr₂ _ hi₂ => Machine.keeps_ret fun w₃ hr₃ hi₃ =>
      hquiet (fun f r' h => by cases h) hi₃

theorem inv_start : Inv Net.start := by
  refine ⟨fun id c hc => ?_, fun n hn => ?_, fun x hx => ?_, fun id hid => ?_, List.nodup_nil⟩
  · cases hc
  · cases hn
  · cases hx
  · cases hid

theorem reachable_inv {s : NetSys} (hr : network.Reachable s) : Inv s.world := by
  refine (Pact.reachable honoured (fun w hw => ?_) hr).1
  rw [hw]
  exact inv_start

end

/-! ## What an exchange is -/

/-- What holds of every connection and every request that has returned. -/
structure Exact (w : Net) : Prop where
  answered : ∀ x ∈ w.returned, ∀ reply, x.2.2 = .ok reply → ∃ id c, x.2.1 = some id ∧
    w.conns[id]? = some c ∧ Starts c.up x.1 ∧ Starts c.down reply ∧
    (c.forged = false → c.handled = [(x.1, reply)])
  handled : ∀ c ∈ w.conns, ∀ x ∈ c.handled, c.handled = [x] ∧ Starts c.up x.1 ∧
    ∀ f, c.asked = some f → x.1 = f
  once : w.used.Nodup
  bounded : ∀ n ∈ w.buffers, n ≤ maxFrame

section
variable {c : Conn} {w : Net}

/-- What a node handled is the only thing it handled on that connection. -/
theorem ConnOk.handled_eq (hok : ConnOk c) {x : Frame × Frame} (hx : x ∈ c.handled) :
    c.handled = [x] := by
  obtain ⟨y, hy⟩ := List.length_eq_one_iff.mp
    (Nat.le_antisymm hok.once (List.length_pos_of_mem hx))
  rw [hy] at hx
  rw [hy, List.mem_singleton.mp hx]

/-- What a node handles for a client is what it asked. -/
theorem ConnOk.asked_eq (hok : ConnOk c) {x : Frame × Frame} (hx : x ∈ c.handled) {f : Frame}
    (hf : c.asked = some f) : x.1 = f := by
  have hstarts := hok.fetched x hx
  obtain ⟨hup, hle⟩ := hok.sent f hf
  have hne : c.up ≠ [] := List.ne_nil_of_length_pos (by have := hstarts.length_le; omega)
  exact (hstarts.grows hup).unique ⟨List.prefix_rfl, hle hne⟩

/-- What a node has written starts with one frame only, the reply of its handler. -/
theorem ConnOk.reply_eq (hok : ConnOk c) (hforged : c.forged = false) {reply : Frame}
    (hdown : Starts c.down reply) : ∃ x ∈ c.handled, x.2 = reply := by
  have hne : c.down ≠ [] := List.ne_nil_of_length_pos (by have := hdown.length_le; omega)
  obtain ⟨x, hx, hp, hle⟩ := hok.replied hforged hne
  have hself : Starts (encode x.2) x.2 := ⟨List.prefix_rfl, hle⟩
  exact ⟨x, hx, hself.unique (hdown.grows hp)⟩

theorem Inv.exact (hi : Inv w) : Exact w := by
  refine ⟨fun x hx reply hreply => ?_, fun c hc x hx => ?_, hi.once, hi.buffers⟩
  · obtain ⟨id, hid, c, hc, hasked, hup, hdown⟩ := hi.returned x hx reply hreply
    refine ⟨id, c, hid, hc, hup, hdown, fun hforged => ?_⟩
    have hok := hi.conns id c hc
    obtain ⟨y, hy, hyreply⟩ := hok.reply_eq hforged hdown
    have hyx : y = (x.1, reply) := Prod.ext (hok.asked_eq hy hasked) hyreply
    rw [hok.handled_eq hy, hyx]
  · obtain ⟨id, hid⟩ := List.mem_iff_getElem?.mp hc
    have hok := hi.conns id c hid
    exact ⟨hok.handled_eq hx, hok.fetched x hx, fun f hf => hok.asked_eq hx hf⟩

end

/-! ## An exchange can complete -/

namespace Conn

/-- What an end reads from. -/
def source (c : Conn) : Side → Bytes
  | .client => c.down
  | .server => c.up

/-- One end has written `out` and read `k` bytes. -/
def atEnd (c : Conn) (out : Bytes) (k : Nat) : Side → Conn
  | .client => { c with up := out, downRead := k }
  | .server => { c with down := out, upRead := k }

end Conn

/-- An end that has not read yet. -/
theorem Conn.atEnd_server {c : Conn} (hread : c.upRead = 0) : c.atEnd c.down 0 .server = c := by
  rw [← hread]
  rfl

theorem Conn.atEnd_client {c : Conn} (hread : c.downRead = 0) : c.atEnd c.up 0 .client = c := by
  rw [← hread]
  rfl

/-- `w` with another connection `id`, and other buffers. -/
def Net.place (w : Net) (id : Nat) (c : Conn) (buffers : List Nat) : Net :=
  ⟨w.conns.set id c, buffers, w.returned⟩

/-- `w` with one more connection. -/
def Net.connected (w : Net) (c : Conn) : Net := { w with conns := w.conns ++ [c] }

section
variable {p q id : Nat} {c d : Conn} {e : Side} {w v : Net} {buffers : List Nat} {α : Type}

theorem place_conn (h : id < w.conns.length) : (w.place id c buffers).conns[id]? = some c :=
  List.getElem?_set_self h

theorem place_set : (w.place id c buffers).set id d = w.place id d buffers := by
  simp [Net.place, Net.set, List.set_set]

theorem place_connected (c d : Conn) :
    (w.connected c).place w.conns.length d w.buffers = w.connected d := by
  simp [Net.place, Net.connected]

/-- One end of a connection looks like a tape. -/
def View (w : Net) (id : Nat) (c : Conn) (e : Side) (t : Tape) (v : Net) : Prop :=
  ∃ was, c.source e = was ++ t.input ∧ v = w.place id (c.atEnd t.output was.length e) t.buffers

theorem view_step (hid : id < w.conns.length) (p : Nat) (t : Tape) (op : StreamOp) (r : StreamRes op)
    (t' : Tape) (v : Net) (hx : Tape.steady.exec p t op r t') (hv : View w id c e t v) :
    ∃ v', (endOf id e).exec p v op r v' ∧ View w id c e t' v' := by
  obtain ⟨was, hsource, rfl⟩ := hv
  have hconn : (w.place id (c.atEnd t.output was.length e) t.buffers).conns[id]? =
      some (c.atEnd t.output was.length e) := place_conn hid
  cases op with
  | read n =>
    obtain ⟨⟨bytes, rfl⟩, hin, hle, -, ht'⟩ := hx
    have hwaiting : (c.atEnd t.output was.length e).waiting e = t.input := by
      cases e <;> exact (congrArg (List.drop was.length) hsource).trans (List.drop_left' rfl)
    have hadvance : (c.atEnd t.output was.length e).advance bytes.length e =
        c.atEnd t.output (was ++ bytes).length e := by
      rw [List.length_append]
      cases e <;> rfl
    refine ⟨w.place id (c.atEnd t.output (was ++ bytes).length e) t.buffers,
      ⟨_, rfl, _, hconn, ?_, hle, ?_⟩, was ++ bytes, ?_, ?_⟩
    · rw [hwaiting, hin]
      exact List.prefix_append _ _
    · rw [place_set, hadvance]
    · rw [hsource, hin, List.append_assoc]
    · rw [ht']
  | write bytes =>
    obtain ⟨⟨n, rfl, -⟩, hle, rfl⟩ := hx
    have hpush : (c.atEnd t.output was.length e).push (bytes.take n) e =
        c.atEnd (t.output ++ bytes.take n) was.length e := by
      cases e <;> rfl
    exact ⟨_, ⟨_, rfl, _, hconn, hle, rfl⟩, was, hsource, by rw [place_set, hpush]⟩
  | flush =>
    obtain ⟨-, rfl⟩ := hx
    exact ⟨_, ⟨r, rfl, rfl⟩, was, hsource, rfl⟩
  | alloc n =>
    obtain ⟨-, rfl⟩ := hx
    exact ⟨_, ⟨r, rfl, rfl⟩, was, hsource, rfl⟩

/-- What a program does with a tape, it does at an end that looks like it. -/
theorem runs_end {m : StreamProg α} {a : α} {t t' : Tape} (hid : id < w.conns.length)
    (h : Tape.Does p m t a t') (hv : View w id c e t v) :
    ∃ v', machine.Runs (fun _ _ => True) p (onStream id e m) v (.ret a) v' ∧
      View w id c e t' v' := by
  obtain ⟨v', hruns, hv'⟩ := h.runs.simulate (view_step hid p) hv
  exact ⟨v', Machine.runs_within.mpr hruns, hv'⟩

/-- A client connects and sends. -/
theorem runs_ask {f : Frame} (hf : f.2.length ≤ maxFrame) (w : Net) :
    machine.Runs (fun _ _ => True) p (Exchange.request f) w
      (onStream w.conns.length .client recv >>= fun reply => pure (some w.conns.length, reply))
      (w.connected { Conn.opened p (some f) with up := encode f }) := by
  have hid : w.conns.length < (w.connected (Conn.opened p (some f))).conns.length := by
    simp [Net.connected]
  obtain ⟨v, hsend, was, hwas, rfl⟩ := runs_end (p := p) (c := Conn.opened p (some f)) (e := .client)
    (t := ⟨[], [], w.buffers⟩) hid (does_send hf) ⟨[], rfl, (place_connected _ _).symm⟩
  obtain rfl : was = [] := (List.append_eq_nil_iff.mp hwas.symm).1
  rw [place_connected] at hsend
  exact .step (.ok w.conns.length) trivial ⟨rfl, rfl⟩ (hsend.bind _)

/-- A node accepts, receives, handles and replies. -/
theorem runs_serve {f g : Frame} (buffers : List Nat) (hf : f.2.length ≤ maxFrame)
    (hg : g.2.length ≤ maxFrame) (hid : id < w.conns.length) (hup : c.up = encode f)
    (hfree : c.server = none) (hread : c.upRead = 0) (hdown : c.down = []) : ∃ k,
    machine.Runs (fun _ _ => True) q Exchange.serve (w.place id c buffers) (.ret ())
      (w.place id { c with
        server := some q, forged := false, upRead := k, handled := c.handled ++ [(f, g)],
        down := encode g } (f.2.length :: buffers)) := by
  set c₁ : Conn := { c with server := some q, forged := false }
  have hfresh : c₁.atEnd [] 0 .server = c₁ := hdown ▸ Conn.atEnd_server (c := c₁) hread
  have hstarts : Starts (encode f) f := ⟨List.prefix_rfl, hf⟩
  obtain ⟨v₁, hrecv, was, hwas, rfl⟩ := runs_end (p := q) (c := c₁) (e := .server)
    (t := ⟨encode f, [], buffers⟩) hid (does_recv hstarts) (v := w.place id c₁ buffers)
    ⟨[], hup, congrArg (w.place id · buffers) hfresh.symm⟩
  set c₂ : Conn := { c₁.atEnd [] was.length .server with handled := c.handled ++ [(f, g)] }
  obtain ⟨v₂, hreply, was', hwas', rfl⟩ := runs_end (p := q) (c := c₂) (e := .server)
    (t := ⟨(encode f).drop (5 + f.2.length), [], f.2.length :: buffers⟩) hid (does_send hg)
    (v := w.place id c₂ (f.2.length :: buffers)) ⟨was, hwas, rfl⟩
  refine ⟨was'.length, .step id trivial ⟨c, place_conn hid, hfree, place_set.symm⟩
    ((hrecv.bind _).trans (.step g trivial ⟨_, place_conn hid, ?_⟩ ((hreply.bind _).trans .refl)))⟩
  rw [place_set]
  rfl

/-- A client receives. -/
theorem runs_reply {g : Frame} (buffers : List Nat) (hg : g.2.length ≤ maxFrame)
    (hid : id < w.conns.length) (hdown : c.down = encode g) (hread : c.downRead = 0) : ∃ k,
    machine.Runs (fun _ _ => True) p (onStream id .client recv) (w.place id c buffers) (.ret (.ok g))
      (w.place id { c with downRead := k } (g.2.length :: buffers)) := by
  have hfresh : c.atEnd c.up 0 .client = c := Conn.atEnd_client hread
  obtain ⟨v, hgot, was, hwas, rfl⟩ := runs_end (p := p) (c := c) (e := .client)
    (t := ⟨encode g, c.up, buffers⟩) hid (does_recv (f := g) ⟨List.prefix_rfl, hg⟩)
    (v := w.place id c buffers) ⟨[], hdown, congrArg (w.place id · buffers) hfresh.symm⟩
  exact ⟨was.length, hgot⟩

/-- Whatever else is going on, two processes that are free can exchange any two frames
under the ceiling, and are free again. -/
theorem exchange_completes {s : NetSys} (hr : network.Reachable s) (hpq : p ≠ q)
    (hp : s.procs p = .idle) (hq : s.procs q = .idle) {f g : Frame} (hf : f.2.length ≤ maxFrame)
    (hg : g.2.length ≤ maxFrame) : ∃ s' id c, network.Reachable s' ∧
      s'.world.returned = s.world.returned ++ [(f, some id, .ok g)] ∧
      s'.world.conns[id]? = some c ∧ c.forged = false ∧ c.handled = [(f, g)] ∧
      ∀ r, s.procs r = .idle → s'.procs r = .idle := by
  have hid : s.world.conns.length < (s.world.connected (Conn.opened p (some f))).conns.length := by
    simp [Net.connected]
  have hask := runs_ask (p := p) hf s.world
  rw [← place_connected (Conn.opened p (some f))] at hask
  set c₁ : Conn := { Conn.opened p (some f) with up := encode f }
  obtain ⟨k, hserve⟩ := runs_serve (q := q) (c := c₁) s.world.buffers hf hg hid rfl rfl rfl rfl
  set c₂ : Conn := { c₁ with
    server := some q, forged := false, upRead := k, handled := [(f, g)], down := encode g }
  obtain ⟨l, hgot⟩ := runs_reply (p := p) (c := c₂) (f.2.length :: s.world.buffers) hg hid rfl rfl
  have h0 : (network.guard fun _ _ => True).Reachable s := hr.to_guard fun _ _ => trivial
  have hbusy := Machine.reachable_busy (A := api) (c := Call.request f) rfl (by rw [hp]; rfl)
    trivial h0
  have hsent := Machine.reachable_runs_among ((hask.bind _).bind _) (fun _ _ _ _ => trivial) hbusy
  have hserved := Machine.reachable_call_among (A := api) (c := Call.serve)
    ((hserve.bind _).bind _) rfl (by rw [Function.update_of_ne (Ne.symm hpq), hq]; rfl)
    (fun _ _ _ _ => trivial) trivial trivial hsent
  rw [Function.update_comm hpq] at hserved
  have hdone := Machine.reachable_runs_among (((hgot.bind _).bind _).bind _)
    (fun _ _ _ _ => trivial) hserved
  refine ⟨_, s.world.conns.length, { c₂ with downRead := l },
    (Machine.reachable_returned trivial hdone).of_guard, rfl, ?_, rfl, rfl, fun r hr => ?_⟩
  · exact List.getElem?_set_self hid
  · by_cases hrp : r = p
    · subst hrp
      exact Function.update_self ..
    by_cases hrq : r = q
    · subst hrq
      exact (Function.update_of_ne hrp ..).trans (Function.update_self ..)
    · exact (Function.update_of_ne hrp ..).trans ((Function.update_of_ne hrq ..).trans hr)

end

/-- Every exchange is exact. In every reachable state, whatever the interleaving, the
failures, the clients that write what they like and the servers that do: a request that
returned a reply had been written whole to its connection, and the reply is the frame its
peer wrote; if the peer is a node, the request is what it handled there, once, and the
reply is its handler's. What a node handled, the other end had written, and is what was
asked if that end is a client. No connection answered two requests, and no buffer was
larger than the ceiling. -/
theorem exchange_exact (s : NetSys) (hr : network.Reachable s) : Exact s.world :=
  (reachable_inv hr).exact

/-- Two exchanges between the same processes, the second with an empty reply. -/
theorem exchange_exact_first : ∃ (w : Net) (id id' : Nat), Exact w ∧ w.returned =
    [((2, [1, 2, 3]), some id, .ok (Demo.msgSignature, [4, 5])),
      ((2, [6]), some id', .ok (Demo.msgSignature, []))] := by
  have h0 : network.Reachable ⟨.start, fun _ => .idle⟩ := .init ⟨rfl, rfl⟩
  have hle (bytes : Bytes) (h : bytes.length ≤ 3) : bytes.length ≤ maxFrame :=
    h.trans (show 3 ≤ maxFrame by decide)
  obtain ⟨s, id, -, hr, hreturned, -, -, -, hidle⟩ := exchange_completes (f := (2, [1, 2, 3]))
    (g := (Demo.msgSignature, [4, 5])) h0 Nat.zero_ne_one rfl rfl (hle _ (by decide))
    (hle _ (by decide))
  obtain ⟨s', id', -, hr', hreturned', -⟩ := exchange_completes (f := (2, [6]))
    (g := (Demo.msgSignature, [])) hr Nat.zero_ne_one (hidle 0 rfl) (hidle 1 rfl)
    (hle _ (by decide)) (hle _ (by decide))
  refine ⟨s'.world, id, id', exchange_exact s' hr', ?_⟩
  rw [hreturned', hreturned]
  rfl

end Drot.L5.Exchange
