import Mathlib.Data.List.Zip
import Mathlib.Tactic

/-!
# Signer bitmaps

A quorum is published as a bitmap over the members and one signature for each
set bit, in index order. `setBits` and `indicesOf` go from indices to the bitmap
and back, `sortPairs` puts (index, signature) pairs in index order and
`adjacentEqual` is the duplicate check after sorting. `checkAll` looks up the key
of each index and checks the signature against it; an index outside the key list
is a panic (`none`). Keys and signatures are of arbitrary types.

* `indicesOf_setBits`: the set bits of a bitmap built from sorted indices.
* `sortPairs_sorted`, `adjacentEqual_eq_false`: distinct indices sort strictly.
* `checkAll_of_lt`, `checkAll_eq_true`: when it does not panic, what it accepts.
* `named_keys`: distinct indices of a duplicate-free key list name distinct keys.
-/
namespace Drot.Bitmap

/-! ## Bits and indices -/

/-- One bit for each of `n` members, those of `is` set. -/
def setBits (n : Nat) (is : List Nat) : List Bool :=
  is.foldl (fun bits i => bits.set i true) (List.replicate n false)

/-- The loop of `set(i, true).expect(..)` over a bitmap: `none` when `expect` panics. -/
def setEach : List Nat → List Bool → Option (List Bool)
  | [], bits => some bits
  | i :: is, bits => if i < bits.length then setEach is (bits.set i true) else none

/-- `iter().enumerate().filter_map(..)`: the positions of the set bits. -/
def indicesOf (bits : List Bool) : List Nat :=
  bits.zipIdx.filterMap fun p => if p.1 then some p.2 else none

theorem length_setBits (n : Nat) (is : List Nat) : (setBits n is).length = n := by
  have h : ∀ (is : List Nat) (bits : List Bool),
      (is.foldl (fun bits i => bits.set i true) bits).length = bits.length := by
    intro is
    induction is with
    | nil => intro bits; rfl
    | cons i is ih => intro bits; rw [List.foldl_cons, ih, List.length_set]
  rw [setBits, h, List.length_replicate]

/-- Below the length of the bitmap the loop does not panic. -/
theorem setEach_eq {n : Nat} {is : List Nat} (hlt : ∀ i ∈ is, i < n) :
    setEach is (List.replicate n false) = some (setBits n is) := by
  have h : ∀ (is : List Nat) (bits : List Bool), (∀ i ∈ is, i < bits.length) →
      setEach is bits = some (is.foldl (fun bits i => bits.set i true) bits) := by
    intro is
    induction is with
    | nil => intro bits _; rfl
    | cons i is ih =>
      intro bits hb
      unfold setEach
      rw [if_pos (hb i (by simp))]
      refine ih _ fun j hj => ?_
      rw [List.length_set]
      exact hb j (by simp [hj])
  exact h is _ (by simpa using hlt)

theorem mem_indicesOf {bits : List Bool} {i : Nat} : i ∈ indicesOf bits ↔ bits[i]? = some true := by
  unfold indicesOf
  rw [List.mem_filterMap]
  constructor
  · intro h
    obtain ⟨⟨b, j⟩, hm, he⟩ := h
    rw [List.mem_zipIdx_iff_getElem?] at hm
    cases b
    · cases he
    · cases he; exact hm
  · intro h
    exact ⟨(true, i), List.mem_zipIdx_iff_getElem?.mpr h, rfl⟩

theorem indicesOf_sorted (bits : List Bool) : (indicesOf bits).Pairwise (· < ·) := by
  unfold indicesOf
  rw [List.pairwise_filterMap]
  have hz : bits.zipIdx.Pairwise fun a b => a.2 < b.2 := by
    have := List.pairwise_lt_range' (s := 0) (n := bits.length)
    rw [← List.zipIdx_map_snd 0 bits, List.pairwise_map] at this
    exact this
  refine hz.imp fun {a b} hab i hi j hj => ?_
  obtain ⟨x, k⟩ := a
  obtain ⟨y, m⟩ := b
  cases x <;> cases y <;> cases hi <;> cases hj
  exact hab

theorem length_indicesOf (bits : List Bool) : (indicesOf bits).length = bits.count true := by
  unfold indicesOf
  suffices h : ∀ n, ((bits.zipIdx n).filterMap fun p => if p.1 then some p.2 else none).length =
      bits.count true from h 0
  induction bits with
  | nil => intro n; rfl
  | cons b bits ih =>
    intro n
    cases b
    · simp [List.zipIdx_cons, ih]
    · simp [List.zipIdx_cons, ih]

theorem getElem?_setBits {n : Nat} {is : List Nat} {i : Nat} :
    (setBits n is)[i]? = some true ↔ i < n ∧ i ∈ is := by
  have h : ∀ (is : List Nat) (bits : List Bool),
      (is.foldl (fun bits i => bits.set i true) bits)[i]? = some true ↔
        i < bits.length ∧ (i ∈ is ∨ bits[i]? = some true) := by
    intro is
    induction is with
    | nil =>
      intro bits
      simp only [List.foldl_nil, List.not_mem_nil, false_or]
      refine ⟨fun h => ⟨(List.getElem?_eq_some_iff.mp h).1, h⟩, fun h => h.2⟩
    | cons j is ih =>
      intro bits
      rw [List.foldl_cons, ih, List.length_set, List.mem_cons, List.getElem?_set]
      by_cases hj : j = i
      · subst hj
        by_cases hl : j < bits.length <;> simp [hl]
      · simp [hj, Ne.symm hj]
  rw [setBits, h, List.length_replicate]
  constructor
  · intro h
    obtain ⟨hn, hm | hm⟩ := h
    · exact ⟨hn, hm⟩
    · rw [List.getElem?_replicate, if_pos hn] at hm; cases hm
  · intro ⟨hn, hm⟩
    exact ⟨hn, .inl hm⟩

/-- Strictly increasing lists with the same members are equal. -/
theorem eq_of_sorted_of_mem {l l' : List Nat} (h : l.Pairwise (· < ·)) (h' : l'.Pairwise (· < ·))
    (hm : ∀ i, i ∈ l ↔ i ∈ l') : l = l' := by
  have hn : l.Nodup := h.imp Nat.ne_of_lt
  have hn' : l'.Nodup := h'.imp Nat.ne_of_lt
  refine List.Perm.eq_of_pairwise ?_ h h' ((List.perm_ext_iff_of_nodup hn hn').mpr hm)
  intro a b _ _ hab hba
  omega

/-- The set bits of a bitmap built from sorted indices are these indices. -/
theorem indicesOf_setBits {n : Nat} {is : List Nat} (hs : is.Pairwise (· < ·))
    (hlt : ∀ i ∈ is, i < n) : indicesOf (setBits n is) = is := by
  refine eq_of_sorted_of_mem (indicesOf_sorted _) hs fun i => ?_
  rw [mem_indicesOf, getElem?_setBits]
  exact ⟨fun h => h.2, fun h => ⟨hlt i h, h⟩⟩

section
variable {σ κ : Type}

/-! ## Sorting by index -/

/-- The pairs in index order. -/
def sortPairs (pairs : List (Nat × σ)) : List (Nat × σ) :=
  pairs.mergeSort fun a b => decide (a.1 ≤ b.1)

theorem sortPairs_perm (pairs : List (Nat × σ)) : (sortPairs pairs).Perm pairs :=
  List.mergeSort_perm _ _

theorem sortPairs_ordered (pairs : List (Nat × σ)) :
    ((sortPairs pairs).map Prod.fst).Pairwise (· ≤ ·) := by
  rw [List.pairwise_map]
  refine (List.pairwise_mergeSort ?_ ?_ pairs).imp fun h => of_decide_eq_true h
  · intro a b c hab hbc
    simp only [decide_eq_true_eq] at hab hbc ⊢
    omega
  · intro a b
    simp only [Bool.or_eq_true, decide_eq_true_eq]
    omega

theorem sortPairs_sorted {pairs : List (Nat × σ)} (hd : (pairs.map Prod.fst).Nodup) :
    ((sortPairs pairs).map Prod.fst).Pairwise (· < ·) := by
  have hn : ((sortPairs pairs).map Prod.fst).Nodup := ((sortPairs_perm pairs).map _).nodup_iff.mpr hd
  exact ((sortPairs_ordered pairs).and hn).imp fun h => Nat.lt_of_le_of_ne h.1 h.2

/-- With distinct indices the order of arrival does not matter. -/
theorem sortPairs_eq_of_perm {pairs pairs' : List (Nat × σ)} (hp : pairs.Perm pairs')
    (hd : (pairs.map Prod.fst).Nodup) : sortPairs pairs = sortPairs pairs' := by
  have hd' : (pairs'.map Prod.fst).Nodup := (hp.map _).nodup_iff.mp hd
  have hs := List.pairwise_map.mp (sortPairs_sorted hd)
  have hs' := List.pairwise_map.mp (sortPairs_sorted hd')
  refine List.Perm.eq_of_pairwise ?_ hs hs'
    ((sortPairs_perm pairs).trans (hp.trans (sortPairs_perm pairs').symm))
  intro a b _ _ hab hba
  omega

/-- `windows(2).any(|w| w[0].0 == w[1].0)` -/
def adjacentEqual : List (Nat × σ) → Bool
  | a :: b :: rest => a.1 == b.1 || adjacentEqual (b :: rest)
  | _ => false

/-- In index order, no two neighbours are equal exactly when the order is strict. -/
theorem adjacentEqual_eq_false : ∀ {pairs : List (Nat × σ)},
    (pairs.map Prod.fst).Pairwise (· ≤ ·) →
      (adjacentEqual pairs = false ↔ (pairs.map Prod.fst).Pairwise (· < ·))
  | [], _ => by simp [adjacentEqual]
  | [_], _ => by simp [adjacentEqual]
  | a :: b :: rest, h => by
    rw [List.map_cons, List.pairwise_cons] at h
    have ih := adjacentEqual_eq_false h.2
    have hab : a.1 ≤ b.1 := h.1 b.1 (by simp)
    rw [adjacentEqual, Bool.or_eq_false_iff, beq_eq_false_iff_ne, ih]
    show _ ↔ (a.1 :: (b :: rest).map Prod.fst).Pairwise (· < ·)
    rw [List.pairwise_cons]
    constructor
    · intro ⟨hne, hs⟩
      refine ⟨fun i hi => ?_, hs⟩
      rw [List.map_cons] at hi hs
      rcases List.mem_cons.mp hi with rfl | hi
      · omega
      · have := (List.pairwise_cons.mp hs).1 i hi
        omega
    · intro ⟨hlt, hs⟩
      have := hlt b.1 (by simp)
      exact ⟨by omega, hs⟩

/-- The duplicate check after sorting. -/
theorem adjacentEqual_sortPairs {pairs : List (Nat × σ)} :
    adjacentEqual (sortPairs pairs) = false ↔ (pairs.map Prod.fst).Nodup := by
  rw [adjacentEqual_eq_false (sortPairs_ordered pairs)]
  constructor
  · intro h
    exact ((sortPairs_perm pairs).map _).nodup_iff.mp (h.imp Nat.ne_of_lt)
  · exact sortPairs_sorted

/-- In index order, the last index bounds all of them. -/
theorem last_lt {n : Nat} {pairs : List (Nat × σ)} (hs : (pairs.map Prod.fst).Pairwise (· ≤ ·)) :
    (pairs.getLast?.filter fun p => decide (n ≤ p.1)) = none ↔ ∀ p ∈ pairs, p.1 < n := by
  rcases List.eq_nil_or_concat pairs with rfl | ⟨init, last, rfl⟩
  · simp
  rw [List.concat_eq_append] at hs ⊢
  rw [List.getLast?_concat, Option.filter_some]
  rw [List.map_append, List.pairwise_append] at hs
  constructor
  · intro h p hp
    have hlast : last.1 < n := by
      by_contra hge
      rw [if_pos (by simpa using hge)] at h
      cases h
    rcases List.mem_append.mp hp with hp | hp
    · have := hs.2.2 p.1 (List.mem_map_of_mem hp) last.1 (by simp)
      omega
    · rw [List.mem_singleton.mp hp]
      exact hlast
  · intro h
    have := h last (by simp)
    rw [if_neg (by simpa using this)]

theorem zip_fst_snd (l : List (κ × σ)) : (l.map Prod.fst).zip (l.map Prod.snd) = l := by
  induction l with
  | nil => rfl
  | cons p l ih => rw [List.map_cons, List.map_cons, List.zip_cons_cons, ih]

/-! ## Checking every signature -/

/-- `all` over the zipped indices and signatures; a missing key is a panic. -/
def checkAll (keys : List κ) (ok : κ → σ → Bool) : List (Nat × σ) → Option Bool
  | [] => some true
  | (i, sig) :: rest =>
    match keys[i]? with
    | none => none
    | some pk => if ok pk sig then checkAll keys ok rest else some false

variable {keys : List κ} {ok : κ → σ → Bool}

theorem checkAll_of_lt : ∀ {pairs : List (Nat × σ)}, (∀ p ∈ pairs, p.1 < keys.length) →
    ∃ b, checkAll keys ok pairs = some b
  | [], _ => ⟨true, rfl⟩
  | (i, sig) :: rest, h => by
    have hi : i < keys.length := h (i, sig) (by simp)
    unfold checkAll
    rw [List.getElem?_eq_getElem hi]
    dsimp only
    split
    · exact checkAll_of_lt fun p hp => h p (by simp [hp])
    · exact ⟨false, rfl⟩

theorem checkAll_eq_true {pairs : List (Nat × σ)} : checkAll keys ok pairs = some true ↔
    ∀ p ∈ pairs, ∃ pk, keys[p.1]? = some pk ∧ ok pk p.2 = true := by
  induction pairs with
  | nil => simp [checkAll]
  | cons p rest ih =>
    obtain ⟨i, sig⟩ := p
    unfold checkAll
    rw [List.forall_mem_cons]
    cases hm : keys[i]? with
    | none => simp
    | some pk =>
      by_cases hv : ok pk sig = true
      · simp [hv, ih]
      · simp [hv]

/-- Distinct positions of a duplicate-free list name distinct keys. -/
theorem named_keys {members : List κ} (hd : members.Nodup)
    {Q : κ → σ → Prop} {is : List Nat} {sigs : List σ}
    (hn : is.Nodup) (hl : is.length = sigs.length)
    (h : ∀ p ∈ is.zip sigs, ∃ pk, members[p.1]? = some pk ∧ Q pk p.2) :
    ∃ keys : List κ, keys.Nodup ∧
      List.Forall₂ (fun pk sig => pk ∈ members ∧ Q pk sig) keys sigs ∧
      ∀ pk ∈ keys, ∃ i ∈ is, members[i]? = some pk := by
  induction is generalizing sigs with
  | nil =>
    obtain rfl : sigs = [] := List.eq_nil_of_length_eq_zero hl.symm
    exact ⟨[], .nil, .nil, by simp⟩
  | cons i is ih =>
    obtain ⟨sig, sigs, rfl⟩ := List.exists_cons_of_length_eq_add_one hl.symm
    obtain ⟨hi, hn⟩ := List.nodup_cons.mp hn
    rw [List.zip_cons_cons, List.forall_mem_cons] at h
    obtain ⟨⟨pk, hpk, hq⟩, h⟩ := h
    obtain ⟨keys, h1, h2, h3⟩ := ih hn (by simpa using hl) h
    refine ⟨pk :: keys, List.nodup_cons.mpr ⟨fun hm => ?_, h1⟩,
      .cons ⟨List.mem_of_getElem? hpk, hq⟩ h2, fun k hk => ?_⟩
    · obtain ⟨j, hj, hjk⟩ := h3 pk hm
      obtain ⟨hil, hie⟩ := List.getElem?_eq_some_iff.mp hpk
      obtain ⟨hjl, hje⟩ := List.getElem?_eq_some_iff.mp hjk
      have hij : i = j := (List.Nodup.getElem_inj_iff hd).mp (hie.trans hje.symm)
      exact hi (hij ▸ hj)
    · rcases List.mem_cons.mp hk with rfl | hk
      · exact ⟨i, by simp, hpk⟩
      · obtain ⟨j, hj, hjk⟩ := h3 k hk
        exact ⟨j, by simp [hj], hjk⟩

end
end Drot.Bitmap
