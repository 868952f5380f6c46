import Utsuite.EdgeComponents
import Utsuite.Destination
import Mathlib.Data.List.AList
import Mathlib.Data.Finset.Sort
import Mathlib.Data.Finset.Option
import Mathlib.Algebra.Order.BigOperators.Group.List

namespace Utsuite.AddressGroupings

open Transaction Script Interpreter Destination EdgeComponents List AList
open InterpreterSafety (constantHashes)

inductive Failure
  | assertion
  | outside
  | dangling

abbrev MapWallet := AList fun _ : uint256 => CMutableTransaction

abbrev Addresses := Finset CTxDestination

/-- The script that an input spends. `operator[]` of the map would create a missing transaction
without outputs, so the position behind it is outside a vector. -/
def prevScript (mapWallet : MapWallet) (prevout : COutPoint) : Except Failure CScript :=
  match mapWallet.lookup prevout.hash with
  | none => .error .outside
  | some tx =>
    match tx.vout[prevout.n.toNat]? with
    | none => .error .outside
    | some txout => .ok txout.scriptPubKey

section

variable {m : Type → Type} [Monad m] [MonadExcept Failure m] (P : Primitives)
  (read : COutPoint → m CScript)

def addInput (grouping : Addresses) (txin : CTxIn) : m Addresses := do
  let scriptPubKey ← read txin.prevout
  match extractDestination P scriptPubKey with
  | .error _ => throw .assertion
  | .ok none => pure grouping
  | .ok (some address) => pure (insert address grouping)

def addEntry (s : Finset Addresses × Addresses) (tx : CMutableTransaction) :
    m (Finset Addresses × Addresses) :=
  if tx.vin.length > 0 then do
    let grouping ← tx.vin.foldlM (addInput P read) s.2
    if grouping.card > 0 then pure (insert grouping s.1, ∅) else pure (s.1, grouping)
  else pure s

end

abbrev Heap := AList fun _ : Nat => Addresses

structure Groups where
  heap : Heap
  uniqueGroupings : Finset Nat
  setmap : CTxDestination → Option Nat

def absorb (merged : Nat) (s : Groups) (hit : Nat) : Except Failure Groups :=
  match s.heap.lookup merged, s.heap.lookup hit with
  | some new, some old =>
    .ok { s with
      heap := (s.heap.insert merged (new ∪ old)).erase hit
      uniqueGroupings := s.uniqueGroupings.erase hit }
  | _, _ => .error .dangling

def hits (s : Groups) (grouping : Addresses) : Finset Nat :=
  grouping.biUnion fun address => (s.setmap address).toFinset

def addGrouping (merged : Nat) (grouping : Addresses) (s : Groups) : Except Failure Groups := do
  let s' ← ((hits s grouping).sort (· ≤ ·)).foldlM (absorb merged)
    { s with heap := s.heap.insert merged grouping }
  match s'.heap.lookup merged with
  | none => .error .dangling
  | some elements =>
    .ok { s' with
      uniqueGroupings := insert merged s'.uniqueGroupings
      setmap := fun element => if element ∈ elements then some merged else s'.setmap element }

/-- The addresses that `new` returns, call after call. All that is known of them is that they are
not in use. -/
structure Allocator where
  malloc : Nat → Heap → Nat
  malloc_fresh : ∀ call heap, malloc call heap ∉ heap

structure Iteration where
  toList : Finset Addresses → List Addresses
  mem_toList : ∀ s grouping, grouping ∈ toList s ↔ grouping ∈ s

def mergeGroupings (A : Allocator) : Nat → List Addresses → Groups → Except Failure Groups
  | _, [], s => .ok s
  | call, grouping :: groupings, s => do
    let s ← addGrouping (A.malloc call s.heap) grouping s
    mergeGroupings A (call + 1) groupings s

def collect (s : Finset Addresses × Heap) (uniqueGrouping : Nat) :
    Except Failure (Finset Addresses × Heap) :=
  match s.2.lookup uniqueGrouping with
  | none => .error .dangling
  | some group => .ok (insert group s.1, s.2.erase uniqueGrouping)

def transactions (mapWallet : MapWallet) : List CMutableTransaction :=
  mapWallet.entries.map fun walletEntry => walletEntry.2

def uniteGroupings (A : Allocator) (I : Iteration) (groupings : Finset Addresses) :
    Except Failure (Finset Addresses) := do
  let groups ← mergeGroupings A 0 (I.toList groupings)
    { heap := ∅, uniqueGroupings := ∅, setmap := fun _ => none }
  let ret ← (groups.uniqueGroupings.sort (· ≤ ·)).foldlM collect (∅, groups.heap)
  .ok ret.1

def getAddressGroupings (P : Primitives) (A : Allocator) (I : Iteration) (mapWallet : MapWallet) :
    Except Failure (Finset Addresses) := do
  let s ← (transactions mapWallet).foldlM (addEntry P (prevScript mapWallet)) (∅, ∅)
  uniteGroupings A I s.1

def InputAddress (P : Primitives) (mapWallet : MapWallet) (txin : CTxIn)
    (address : CTxDestination) : Prop :=
  ∃ scriptPubKey, prevScript mapWallet txin.prevout = .ok scriptPubKey ∧
    extractDestination P scriptPubKey = .ok (some address)

def SpendsFrom (P : Primitives) (mapWallet : MapWallet) (tx : CMutableTransaction)
    (address : CTxDestination) : Prop :=
  ∃ txin ∈ tx.vin, InputAddress P mapWallet txin address

def PrevPresent (mapWallet : MapWallet) : Prop :=
  ∀ tx ∈ transactions mapWallet, ∀ txin ∈ tx.vin, ∃ prev,
    mapWallet.lookup txin.prevout.hash = some prev ∧ txin.prevout.n.toNat < prev.vout.length

theorem foldlM_adds {σ τ β : Type} {f : σ → τ → Except Failure σ} {I : σ → Prop}
    {R : σ → β → Prop} {Q : τ → β → Prop} {ts : List τ}
    (hstep : ∀ t ∈ ts, ∀ s, I s → ∃ s', f s t = .ok s' ∧ I s' ∧ ∀ x, R s' x ↔ R s x ∨ Q t x)
    {s : σ} (hs : I s) :
    ∃ s', ts.foldlM f s = .ok s' ∧ I s' ∧ ∀ x, R s' x ↔ R s x ∨ ∃ t ∈ ts, Q t x := by
  induction ts generalizing s with
  | nil => exact ⟨s, rfl, hs, fun x => by simp⟩
  | cons t ts ih =>
    obtain ⟨ht, hts⟩ := forall_mem_cons.mp hstep
    obtain ⟨s₁, hs₁, hI₁, hR₁⟩ := ht s hs
    obtain ⟨s₂, hs₂, hI₂, hR₂⟩ := ih hts hI₁
    refine ⟨s₂, ?_, hI₂, fun x => ?_⟩
    · rw [foldlM_cons, hs₁]
      exact hs₂
    · rw [hR₂, hR₁, or_assoc, exists_mem_cons_iff]

section

variable {P : Primitives} {mapWallet : MapWallet}

theorem prevScript_ok
    (h : ∃ prev, mapWallet.lookup prevout.hash = some prev ∧ prevout.n.toNat < prev.vout.length) :
    ∃ scriptPubKey, prevScript mapWallet prevout = .ok scriptPubKey := by
  obtain ⟨prev, hprev, hn⟩ := h
  refine ⟨(prev.vout.get ⟨_, hn⟩).scriptPubKey, ?_⟩
  rw [prevScript, hprev]
  dsimp only
  rw [getElem?_eq_getElem hn]
  rfl

theorem addInput_ok (h : ∃ scriptPubKey, prevScript mapWallet txin.prevout = .ok scriptPubKey)
    (grouping : Addresses) :
    ∃ grouping', addInput P (prevScript mapWallet) grouping txin = .ok grouping' ∧
      ∀ a, a ∈ grouping' ↔ a ∈ grouping ∨ InputAddress P mapWallet txin a := by
  obtain ⟨scriptPubKey, hscript⟩ := h
  obtain ⟨address, haddress⟩ := extractDestination_ok P scriptPubKey
  have hinput : ∀ a, InputAddress P mapWallet txin a ↔ address = some a := by
    intro a
    constructor
    · rintro ⟨script, hscript', ha⟩
      cases hscript.symm.trans hscript'
      exact Except.ok.inj (haddress.symm.trans ha)
    · rintro rfl
      exact ⟨scriptPubKey, hscript, haddress⟩
  simp only [hinput]
  rw [addInput, hscript]
  dsimp only [bind, Except.bind]
  rw [haddress]
  cases address with
  | none => exact ⟨grouping, rfl, fun a => by simp⟩
  | some address =>
    refine ⟨_, rfl, fun a => ?_⟩
    rw [Finset.mem_insert, Option.some_inj, or_comm, eq_comm]

theorem foldlM_addInput {vin : List CTxIn}
    (h : ∀ txin ∈ vin, ∃ scriptPubKey, prevScript mapWallet txin.prevout = .ok scriptPubKey)
    (grouping : Addresses) :
    ∃ grouping', vin.foldlM (addInput P (prevScript mapWallet)) grouping = .ok grouping' ∧
      ∀ a, a ∈ grouping' ↔ a ∈ grouping ∨ ∃ txin ∈ vin, InputAddress P mapWallet txin a := by
  have hstep : ∀ txin ∈ vin, ∀ grouping : Addresses, True →
      ∃ grouping', addInput P (prevScript mapWallet) grouping txin = .ok grouping' ∧ True ∧
        ∀ a, a ∈ grouping' ↔ a ∈ grouping ∨ InputAddress P mapWallet txin a := by
    intro txin htxin grouping _
    obtain ⟨grouping', hadd, hmem⟩ := addInput_ok (h txin htxin) grouping
    exact ⟨grouping', hadd, trivial, hmem⟩
  obtain ⟨grouping', hfold, -, hmem⟩ := foldlM_adds hstep trivial
  exact ⟨grouping', hfold, hmem⟩

def IsGrouping (P : Primitives) (mapWallet : MapWallet) (tx : CMutableTransaction)
    (grouping : Addresses) : Prop :=
  grouping.Nonempty ∧ ∀ a, a ∈ grouping ↔ SpendsFrom P mapWallet tx a

theorem addEntry_ok {tx : CMutableTransaction}
    (h : ∀ txin ∈ tx.vin, ∃ scriptPubKey, prevScript mapWallet txin.prevout = .ok scriptPubKey)
    (s : Finset Addresses × Addresses) (hs : s.2 = ∅) :
    ∃ s', addEntry P (prevScript mapWallet) s tx = .ok s' ∧ s'.2 = ∅ ∧
      ∀ g, g ∈ s'.1 ↔ g ∈ s.1 ∨ IsGrouping P mapWallet tx g := by
  obtain ⟨grouping, hfold, hmem⟩ := foldlM_addInput (P := P) h s.2
  have hspends : ∀ a, a ∈ grouping ↔ SpendsFrom P mapWallet tx a := fun a => by
    rw [hmem, SpendsFrom, hs]
    simp
  have hgrouping : ∀ g, IsGrouping P mapWallet tx g ↔ g.Nonempty ∧ g = grouping := fun g =>
    and_congr_right fun _ => by
      rw [Finset.ext_iff]
      exact forall_congr' fun a => by rw [hspends]
  simp only [hgrouping]
  rw [addEntry]
  by_cases hvin : tx.vin.length > 0
  · rw [if_pos hvin, hfold]
    dsimp only [bind, Except.bind]
    by_cases hcard : grouping.card > 0
    · rw [if_pos hcard]
      refine ⟨_, rfl, rfl, fun g => ?_⟩
      rw [Finset.mem_insert, or_comm]
      refine or_congr_right ⟨fun hg => ⟨?_, hg⟩, And.right⟩
      rw [hg]
      exact Finset.card_pos.mp hcard
    · rw [if_neg hcard]
      obtain rfl : grouping = ∅ := Finset.card_eq_zero.mp (Nat.eq_zero_of_not_pos hcard)
      refine ⟨_, rfl, rfl, fun g => ⟨.inl, ?_⟩⟩
      rintro (hg | ⟨hne, rfl⟩)
      · exact hg
      · exact absurd hne Finset.not_nonempty_empty
  · rw [if_neg hvin]
    refine ⟨s, rfl, hs, fun g => ⟨.inl, ?_⟩⟩
    rintro (hg | ⟨⟨a, ha⟩, rfl⟩)
    · exact hg
    · obtain ⟨txin, htxin, -⟩ := (hspends a).mp ha
      exact absurd (length_pos_of_mem htxin) hvin

theorem foldlM_addEntry (h : PrevPresent mapWallet) :
    ∃ s, (transactions mapWallet).foldlM (addEntry P (prevScript mapWallet)) (∅, ∅) = .ok s ∧
      ∀ g, g ∈ s.1 ↔ ∃ tx ∈ transactions mapWallet, IsGrouping P mapWallet tx g := by
  have hstep := fun tx htx => addEntry_ok (P := P) fun txin htxin => prevScript_ok (h tx htx txin htxin)
  obtain ⟨s, hfold, -, hmem⟩ := foldlM_adds hstep (rfl : ((∅, ∅) : Finset Addresses × Addresses).2 = ∅)
  refine ⟨s, hfold, fun g => ?_⟩
  rw [hmem]
  simp

end

section

variable {E : Set Addresses} {s : Groups}

def blocks (heap : Heap) : Set Addresses := {S | ∃ p, heap.lookup p = some S}

/-- The invariant of the merging loop. The sets on the heap are the components of the groupings so
far, and `setmap` leads from each address to the set it is in. -/
structure Merged (E : Set Addresses) (s : Groups) : Prop where
  components : Components E (blocks s.heap)
  live : ∀ p, p ∈ s.uniqueGroupings ↔ p ∈ s.heap
  setmap : ∀ a p, s.setmap a = some p ↔ ∃ S, s.heap.lookup p = some S ∧ a ∈ S

theorem blocks_empty : blocks ∅ = ∅ := by
  ext S
  simp [blocks]

theorem Merged.start : Merged ∅ { heap := ∅, uniqueGroupings := ∅, setmap := fun _ => none } := by
  refine ⟨?_, fun p => ?_, fun a p => ?_⟩
  · rw [blocks_empty]
    exact Components.empty
  · exact iff_of_false (Finset.notMem_empty p) (notMem_empty p)
  · simp

theorem Merged.mem_hits (h : Merged E s) (grouping : Addresses) (p : Nat) :
    p ∈ hits s grouping ↔ ∃ S, s.heap.lookup p = some S ∧ ∃ c ∈ S, c ∈ grouping := by
  rw [hits, Finset.mem_biUnion]
  constructor
  · rintro ⟨c, hc, hp⟩
    obtain ⟨S, hS, hcS⟩ := (h.setmap c p).mp (Option.mem_toFinset.mp hp)
    exact ⟨S, hS, c, hcS, hc⟩
  · rintro ⟨S, hS, c, hcS, hc⟩
    exact ⟨c, hc, Option.mem_toFinset.mpr ((h.setmap c p).mpr ⟨S, hS, hcS⟩)⟩

theorem foldlM_absorb (merged : Nat) {ps : List Nat} (hnodup : ps.Nodup) (hmerged : merged ∉ ps)
    {s : Groups} (hlive : ∀ p ∈ ps, p ∈ s.heap) {M : Addresses}
    (hM : s.heap.lookup merged = some M) :
    ∃ s' M', ps.foldlM (absorb merged) s = .ok s' ∧ s'.heap.lookup merged = some M' ∧
      (∀ a, a ∈ M' ↔ a ∈ M ∨ ∃ p ∈ ps, ∃ S, s.heap.lookup p = some S ∧ a ∈ S) ∧
      (∀ q, q ≠ merged → s'.heap.lookup q = if q ∈ ps then none else s.heap.lookup q) ∧
      (∀ q, q ∈ s'.uniqueGroupings ↔ q ∈ s.uniqueGroupings ∧ q ∉ ps) ∧
      s'.setmap = s.setmap := by
  induction ps generalizing s M with
  | nil => exact ⟨s, M, rfl, hM, by simp, by simp, by simp, rfl⟩
  | cons p ps ih =>
    obtain ⟨hp, hnodup⟩ := nodup_cons.mp hnodup
    obtain ⟨hne, hmerged⟩ := not_or.mp (mt mem_cons.mpr hmerged)
    obtain ⟨S, hS⟩ := Option.isSome_iff_exists.mp
      (lookup_isSome.mpr (hlive p mem_cons_self))
    have habsorb : absorb merged s p = .ok { s with
        heap := (s.heap.insert merged (M ∪ S)).erase p
        uniqueGroupings := s.uniqueGroupings.erase p } := by
      rw [absorb, hM, hS]
    -- what the other pointers lead to is untouched
    have hother : ∀ q, q ≠ merged → q ≠ p →
        ((s.heap.insert merged (M ∪ S)).erase p).lookup q = s.heap.lookup q := by
      intro q hqm hqp
      rw [lookup_erase_ne hqp, lookup_insert_ne hqm]
    have hnew : ((s.heap.insert merged (M ∪ S)).erase p).lookup merged = some (M ∪ S) := by
      rw [lookup_erase_ne hne, lookup_insert]
    have hrest : ∀ q ∈ ps, ((s.heap.insert merged (M ∪ S)).erase p).lookup q = s.heap.lookup q :=
      fun q hq => hother q (fun h => hmerged (h ▸ hq)) (fun h => hp (h ▸ hq))
    have hlive' : ∀ q ∈ ps, q ∈ (s.heap.insert merged (M ∪ S)).erase p := by
      intro q hq
      rw [← lookup_isSome, hrest q hq, lookup_isSome]
      exact hlive q (mem_cons_of_mem p hq)
    obtain ⟨s', M', hfold, hM', hmem, hlookup, hunique, hsetmap⟩ :=
      ih (s := ⟨(s.heap.insert merged (M ∪ S)).erase p, s.uniqueGroupings.erase p, s.setmap⟩)
        hnodup hmerged hlive' hnew
    refine ⟨s', M', ?_, hM', fun a => ?_, fun q hq => ?_, fun q => ?_, hsetmap⟩
    · rw [foldlM_cons, habsorb]
      exact hfold
    · rw [hmem, Finset.mem_union, or_assoc, exists_mem_cons_iff, hS]
      refine or_congr_right (or_congr ?_ ?_)
      · simp
      · exact exists_congr fun q => and_congr_right fun hq => by rw [hrest q hq]
    · rw [hlookup q hq]
      by_cases hqp : q = p
      · subst hqp
        rw [if_neg hp, if_pos mem_cons_self, lookup_erase]
      · rw [hother q hq hqp]
        simp [hqp]
    · rw [hunique, Finset.mem_erase, mem_cons, not_or, and_assoc, and_left_comm]

theorem absorb_hits (h : Merged E s) {merged : Nat} (hfresh : merged ∉ s.heap)
    (grouping : Addresses) :
    ∃ s' M, ((hits s grouping).sort (· ≤ ·)).foldlM (absorb merged)
        { s with heap := s.heap.insert merged grouping } = .ok s' ∧
      s'.setmap = s.setmap ∧
      (∀ a, a ∈ M ↔ a ∈ grouping ∨ ∃ S ∈ blocks s.heap, (∃ c ∈ S, c ∈ grouping) ∧ a ∈ S) ∧
      (∀ q S, s'.heap.lookup q = some S ↔
        (q = merged ∧ S = M) ∨ (s.heap.lookup q = some S ∧ ∀ c ∈ S, c ∉ grouping)) ∧
      ∀ q, q ≠ merged → (q ∈ s'.uniqueGroupings ↔ q ∈ s'.heap) := by
  have hne : ∀ {q S}, s.heap.lookup q = some S → q ≠ merged := by
    rintro q S hS rfl
    exact hfresh (lookup_isSome.mp (Option.isSome_of_mem hS))
  have hsame : ∀ q, q ≠ merged → (s.heap.insert merged grouping).lookup q = s.heap.lookup q :=
    fun q hq => lookup_insert_ne hq
  have hhits := h.mem_hits grouping
  have hmerged : merged ∉ hits s grouping := fun hmem => by
    obtain ⟨S, hS, -⟩ := (hhits merged).mp hmem
    exact hne hS rfl
  have hlive : ∀ p ∈ hits s grouping, p ∈ s.heap.insert merged grouping := fun p hp => by
    obtain ⟨S, hS, -⟩ := (hhits p).mp hp
    rw [mem_insert]
    exact .inr (lookup_isSome.mp (Option.isSome_of_mem hS))
  obtain ⟨s', M, hfold, hlookupM, hM, hlookup, hunique, hsetmap⟩ :=
    foldlM_absorb merged (s := { s with heap := s.heap.insert merged grouping })
      (Finset.sort_nodup (hits s grouping) (· ≤ ·)) (by rwa [Finset.mem_sort])
      (fun p hp => hlive p ((Finset.mem_sort _).mp hp)) (lookup_insert _)
  simp only [Finset.mem_sort] at hM hlookup hunique
  refine ⟨s', M, hfold, hsetmap, fun a => ?_, fun q S => ?_, fun q hq => ?_⟩
  · rw [hM]
    refine or_congr_right ⟨?_, ?_⟩
    · rintro ⟨p, hp, T, hT, ha⟩
      obtain ⟨S, hS, hmeet⟩ := (hhits p).mp hp
      rw [hsame p (hne hS), hS] at hT
      cases hT
      exact ⟨_, ⟨p, hS⟩, hmeet, ha⟩
    · rintro ⟨S, ⟨p, hS⟩, hmeet, ha⟩
      exact ⟨p, (hhits p).mpr ⟨S, hS, hmeet⟩, S, (hsame p (hne hS)).trans hS, ha⟩
  · by_cases hq : q = merged
    · subst hq
      rw [hlookupM, Option.some_inj]
      constructor
      · intro heq
        exact .inl ⟨rfl, heq.symm⟩
      · rintro (⟨-, heq⟩ | ⟨hS, -⟩)
        · exact heq.symm
        · exact absurd rfl (hne hS)
    · rw [hlookup q hq, hsame q hq]
      have hmiss : ∀ {S}, s.heap.lookup q = some S →
          (q ∉ hits s grouping ↔ ∀ c ∈ S, c ∉ grouping) := by
        intro S hS
        rw [hhits q, hS]
        simp
      constructor
      · intro hif
        split_ifs at hif with hmem
        exact .inr ⟨hif, (hmiss hif).mp hmem⟩
      · rintro (⟨heq, -⟩ | ⟨hS, hno⟩)
        · exact absurd heq hq
        · rw [if_neg ((hmiss hS).mpr hno), hS]
  · rw [hunique, h.live, ← lookup_isSome, ← lookup_isSome, hlookup q hq, hsame q hq]
    by_cases hmem : q ∈ hits s grouping
    · rw [if_pos hmem]
      simp [hmem]
    · rw [if_neg hmem]
      simp [hmem]

theorem addGrouping_ok (h : Merged E s) (hg : grouping.Nonempty) (hfresh : merged ∉ s.heap) :
    ∃ s', addGrouping merged grouping s = .ok s' ∧ Merged (insert grouping E) s' := by
  obtain ⟨s', M, hfold, hsetmap, hM, hblock, hunique⟩ := absorb_hits h hfresh grouping
  have hlookupM : s'.heap.lookup merged = some M := (hblock merged M).mpr (.inl ⟨rfl, rfl⟩)
  have hcomp : Components (insert grouping E) (blocks s'.heap) := by
    refine h.components.insert hg hM fun S => ?_
    constructor
    · rintro ⟨q, hq⟩
      rcases (hblock q S).mp hq with ⟨-, rfl⟩ | ⟨hS, hno⟩
      · exact .inl rfl
      · exact .inr ⟨⟨q, hS⟩, hno⟩
    · rintro (rfl | ⟨⟨q, hS⟩, hno⟩)
      · exact ⟨merged, hlookupM⟩
      · exact ⟨q, (hblock q S).mpr (.inr ⟨hS, hno⟩)⟩
  rw [addGrouping, hfold]
  dsimp only [bind, Except.bind]
  rw [hlookupM]
  refine ⟨_, rfl, hcomp, fun p => ?_, fun a p => ?_⟩
  · dsimp only
    rw [Finset.mem_insert]
    by_cases hp : p = merged
    · subst hp
      exact iff_of_true (.inl rfl) (lookup_isSome.mp (Option.isSome_of_mem hlookupM))
    · rw [hunique p hp, or_iff_right hp]
  · dsimp only
    rw [hsetmap]
    by_cases ha : a ∈ M
    · rw [if_pos ha, Option.some_inj]
      constructor
      · rintro rfl
        exact ⟨M, hlookupM, ha⟩
      · rintro ⟨S, hS, haS⟩
        rcases (hblock p S).mp hS with ⟨heq, -⟩ | ⟨-, hno⟩
        · exact heq.symm
        · -- the merged set has addresses of the grouping, this one has none
          obtain rfl := hcomp.eq_of_mem S ⟨p, hS⟩ M ⟨merged, hlookupM⟩ a haS ha
          obtain ⟨c, hc⟩ := hg
          exact absurd hc (hno c ((hM c).mpr (.inl hc)))
    · rw [if_neg ha, h.setmap]
      constructor
      · rintro ⟨S, hS, haS⟩
        refine ⟨S, (hblock p S).mpr (.inr ⟨hS, fun c hc hcg => ha ?_⟩), haS⟩
        exact (hM a).mpr (.inr ⟨S, ⟨p, hS⟩, ⟨c, hc, hcg⟩, haS⟩)
      · rintro ⟨S, hS, haS⟩
        rcases (hblock p S).mp hS with ⟨-, rfl⟩ | ⟨hS, -⟩
        · exact absurd haS ha
        · exact ⟨S, hS, haS⟩

theorem mergeGroupings_ok (A : Allocator) (hg : ∀ grouping ∈ groupings, grouping.Nonempty)
    (call : Nat) (h : Merged E s) :
    ∃ s', mergeGroupings A call groupings s = .ok s' ∧ Merged ({g | g ∈ groupings} ∪ E) s' := by
  induction groupings generalizing call s E with
  | nil => exact ⟨s, rfl, by simpa using h⟩
  | cons grouping groupings ih =>
    obtain ⟨hhead, htail⟩ := forall_mem_cons.mp hg
    obtain ⟨s₁, hs₁, hmerged₁⟩ := addGrouping_ok h hhead (A.malloc_fresh call s.heap)
    obtain ⟨s₂, hs₂, hmerged₂⟩ := ih htail (call + 1) hmerged₁
    refine ⟨s₂, ?_, ?_⟩
    · rw [mergeGroupings, hs₁]
      exact hs₂
    · have hset : {g | g ∈ grouping :: groupings} ∪ E =
          {g | g ∈ groupings} ∪ insert grouping E := by
        ext g
        simp only [mem_cons, Set.mem_union, Set.mem_ofPred_eq, Set.mem_insert_iff]
        tauto
      rw [hset]
      exact hmerged₂

theorem foldlM_collect {ps : List Nat} (hnodup : ps.Nodup) {heap : Heap}
    (hlive : ∀ p ∈ ps, p ∈ heap) (ret : Finset Addresses) :
    ∃ s, ps.foldlM collect (ret, heap) = .ok s ∧
      ∀ S, S ∈ s.1 ↔ S ∈ ret ∨ ∃ p ∈ ps, heap.lookup p = some S := by
  induction ps generalizing ret heap with
  | nil => exact ⟨(ret, heap), rfl, fun S => by simp⟩
  | cons p ps ih =>
    obtain ⟨hp, hnodup⟩ := nodup_cons.mp hnodup
    obtain ⟨S, hS⟩ := Option.isSome_iff_exists.mp
      (lookup_isSome.mpr (hlive p mem_cons_self))
    have hother : ∀ q ∈ ps, (heap.erase p).lookup q = heap.lookup q :=
      fun q hq => lookup_erase_ne fun h => hp (h ▸ hq)
    have hlive' : ∀ q ∈ ps, q ∈ heap.erase p := fun q hq => by
      rw [← lookup_isSome, hother q hq, lookup_isSome]
      exact hlive q (mem_cons_of_mem p hq)
    obtain ⟨s, hfold, hmem⟩ := ih hnodup hlive' (insert S ret)
    refine ⟨s, ?_, fun T => ?_⟩
    · rw [foldlM_cons, collect, hS]
      exact hfold
    · rw [hmem, Finset.mem_insert, exists_mem_cons_iff, hS, Option.some_inj, or_comm (a := T = S),
        or_assoc, eq_comm]
      exact or_congr_right (or_congr_right
        (exists_congr fun q => and_congr_right fun hq => by rw [hother q hq]))

end

def SpentTogether (P : Primitives) (mapWallet : MapWallet) (a b : CTxDestination) : Prop :=
  ∃ tx ∈ transactions mapWallet, SpendsFrom P mapWallet tx a ∧ SpendsFrom P mapWallet tx b

theorem exists_grouping {P : Primitives} {mapWallet : MapWallet} (h : PrevPresent mapWallet)
    {tx : CMutableTransaction} (htx : tx ∈ transactions mapWallet) {a : CTxDestination}
    (ha : SpendsFrom P mapWallet tx a) : ∃ g, IsGrouping P mapWallet tx g := by
  obtain ⟨g, -, hmem⟩ := foldlM_addInput (P := P) (fun txin htxin => prevScript_ok (h tx htx txin htxin)) ∅
  have hspends : ∀ a, a ∈ g ↔ SpendsFrom P mapWallet tx a := fun a => by
    rw [hmem, SpendsFrom]
    simp
  exact ⟨g, ⟨a, (hspends a).mpr ha⟩, hspends⟩

theorem getAddressGroupings_ok {P : Primitives} (A : Allocator) (I : Iteration)
    {mapWallet : MapWallet} (h : PrevPresent mapWallet) :
    ∃ ret, getAddressGroupings P A I mapWallet = .ok ret ∧
      Components {g | ∃ tx ∈ transactions mapWallet, IsGrouping P mapWallet tx g}
        {S | S ∈ ret} := by
  obtain ⟨s, hs, hgroupings⟩ := foldlM_addEntry (P := P) h
  have hedge : ∀ g, g ∈ I.toList s.1 ↔ ∃ tx ∈ transactions mapWallet, IsGrouping P mapWallet tx g :=
    fun g => (I.mem_toList s.1 g).trans (hgroupings g)
  have hnonempty : ∀ g ∈ I.toList s.1, g.Nonempty := fun g hg => by
    obtain ⟨tx, -, hne, -⟩ := (hedge g).mp hg
    exact hne
  obtain ⟨groups, hmerge, hmerged⟩ := mergeGroupings_ok A hnonempty 0 Merged.start
  obtain ⟨ret, hret, hmem⟩ := foldlM_collect (Finset.sort_nodup groups.uniqueGroupings (· ≤ ·))
    (fun p hp => (hmerged.live p).mp ((Finset.mem_sort _).mp hp)) ∅
  have hblocks : blocks groups.heap = {S | S ∈ ret.1} := by
    ext S
    rw [Set.mem_ofPred_eq, hmem]
    simp only [Finset.notMem_empty, false_or, Finset.mem_sort]
    constructor
    · rintro ⟨p, hp⟩
      exact ⟨p, (hmerged.live p).mpr (lookup_isSome.mp (Option.isSome_of_mem hp)), hp⟩
    · rintro ⟨p, -, hp⟩
      exact ⟨p, hp⟩
  have hcomp := hmerged.components
  rw [Set.union_empty, hblocks] at hcomp
  simp only [hedge] at hcomp
  refine ⟨ret.1, ?_, hcomp⟩
  have hunite : uniteGroupings A I s.1 = .ok ret.1 := by
    rw [uniteGroupings, hmerge]
    dsimp only [bind, Except.bind]
    rw [hret]
  rw [getAddressGroupings, hs]
  exact hunite

/-- `GetAddressGroupings` partitions the addresses that spend into classes. Two of them are in one
class exactly when a chain of transactions spends them together. -/
theorem groupings_are_components (P : Primitives) (A : Allocator) (I : Iteration)
    (mapWallet : MapWallet) (h : PrevPresent mapWallet) :
    ∃ ret, getAddressGroupings P A I mapWallet = .ok ret ∧
      (∀ S ∈ ret, S.Nonempty) ∧ (∀ S ∈ ret, ∀ T ∈ ret, S ≠ T → Disjoint S T) ∧
      (∀ a, (∃ S ∈ ret, a ∈ S) ↔
        ∃ tx ∈ transactions mapWallet, SpendsFrom P mapWallet tx a) ∧
      ∀ a b, (∃ S ∈ ret, a ∈ S ∧ b ∈ S) ↔
        Relation.TransGen (SpentTogether P mapWallet) a b := by
  obtain ⟨ret, hret, hcomp⟩ := getAddressGroupings_ok (P := P) A I h
  -- the edges are the address sets of the transactions
  have hjoined : Joined {g | ∃ tx ∈ transactions mapWallet, IsGrouping P mapWallet tx g} =
      SpentTogether P mapWallet := by
    funext a b
    refine propext ⟨?_, ?_⟩
    · rintro ⟨g, ⟨tx, htx, -, hspends⟩, ha, hb⟩
      exact ⟨tx, htx, (hspends a).mp ha, (hspends b).mp hb⟩
    · rintro ⟨tx, htx, ha, hb⟩
      obtain ⟨g, hg⟩ := exists_grouping h htx ha
      exact ⟨g, ⟨tx, htx, hg⟩, (hg.2 a).mpr ha, (hg.2 b).mpr hb⟩
  refine ⟨ret, hret, hcomp.nonempty, fun S hS T hT hne => hcomp.disjoint hS hT hne,
    fun a => ?_, fun a b => ?_⟩
  · refine hcomp.mem_iff.trans ⟨?_, ?_⟩
    · rintro ⟨g, ⟨tx, htx, -, hspends⟩, ha⟩
      exact ⟨tx, htx, (hspends a).mp ha⟩
    · rintro ⟨tx, htx, ha⟩
      obtain ⟨g, hg⟩ := exists_grouping h htx ha
      exact ⟨g, ⟨tx, htx, hg⟩, (hg.2 a).mpr ha⟩
  · refine hcomp.same_iff.trans ?_
    rw [Linked, hjoined]

def bump : Allocator where
  malloc _ heap := heap.keys.sum + 1
  malloc_fresh _ heap h := by
    have := le_sum_of_mem (mem_keys.mp h)
    omega

noncomputable def anyOrder : Iteration where
  toList := Finset.toList
  mem_toList _ _ := Finset.mem_toList

def firstKey : CTxDestination := .keyID ⟨replicate 20 1, rfl⟩

def secondKey : CTxDestination := .keyID ⟨replicate 20 2, rfl⟩

def payment : CMutableTransaction where
  nVersion := 1
  vin := []
  vout := [⟨1, getScriptForDestination firstKey⟩, ⟨2, getScriptForDestination secondKey⟩]
  nLockTime := 0

def spending : CMutableTransaction where
  nVersion := 1
  vin := [⟨⟨⟨replicate 32 1, rfl⟩, 0⟩, [], 0⟩, ⟨⟨⟨replicate 32 1, rfl⟩, 1⟩, [], 0⟩]
  vout := []
  nLockTime := 0

def twoEntries : MapWallet :=
  ((∅ : MapWallet).insert ⟨replicate 32 1, rfl⟩ payment).insert ⟨replicate 32 2, rfl⟩
    spending

theorem groupings_are_components_twoKeys :
    PrevPresent twoEntries ∧
      ∃ ret, getAddressGroupings constantHashes bump anyOrder twoEntries = .ok ret ∧
        ∃ S ∈ ret, firstKey ∈ S ∧ secondKey ∈ S := by
  have htxs : transactions twoEntries = [spending, payment] := rfl
  have hlookup : twoEntries.lookup ⟨replicate 32 1, rfl⟩ = some payment := rfl
  have hpresent : PrevPresent twoEntries := by
    intro tx htx txin htxin
    rw [htxs] at htx
    rcases mem_pair.mp htx with rfl | rfl
    · rcases mem_pair.mp htxin with rfl | rfl
      · exact ⟨payment, hlookup, by decide⟩
      · exact ⟨payment, hlookup, by decide⟩
    · exact absurd htxin not_mem_nil
  obtain ⟨ret, hret, -, -, -, hlinked⟩ :=
    groupings_are_components constantHashes bump anyOrder twoEntries hpresent
  have hmem : spending ∈ transactions twoEntries := by
    rw [htxs]
    exact mem_cons_self
  refine ⟨hpresent, ret, hret, (hlinked firstKey secondKey).mpr (.single ⟨spending, hmem, ?_, ?_⟩)⟩
  · exact ⟨_, mem_cons_self, _, rfl,
      extractDestination_script _ (by decide : firstKey ≠ .noDestination)⟩
  · exact ⟨_, mem_cons_of_mem _ mem_cons_self, _, rfl,
      extractDestination_script _ (by decide : secondKey ≠ .noDestination)⟩

section

abbrev Query := ExceptT Failure (StateM MapWallet)

/-- `mapWallet[hash]` reads a transaction of the wallet. Where there is none, it puts a
`CWalletTx()` there and reads that. -/
def entryAt (mapWallet : MapWallet) (hash : uint256) : CMutableTransaction × MapWallet :=
  match mapWallet.lookup hash with
  | some tx => (tx, mapWallet)
  | none =>
    let tx : CMutableTransaction := ⟨1, [], [], 0⟩
    (tx, mapWallet.insert hash tx)

def queryScript (prevout : COutPoint) : Query CScript := ExceptT.mk fun mapWallet =>
  let (tx, mapWallet) := entryAt mapWallet prevout.hash
  match tx.vout[prevout.n.toNat]? with
  | none => (.error .outside, mapWallet)
  | some txout => (.ok txout.scriptPubKey, mapWallet)

def queryAddressGroupings (P : Primitives) (A : Allocator) (I : Iteration) :
    Query (Finset Addresses) := do
  let s ← (transactions (← get)).foldlM (addEntry P queryScript) (∅, ∅)
  liftExcept (uniteGroupings A I s.1)

def Follows {α : Type} (mapWallet : MapWallet) (q : Query α) (r : Except Failure α) : Prop :=
  (q.run.run mapWallet).1 = r ∧ ∀ a, r = .ok a → (q.run.run mapWallet).2 = mapWallet

variable {P : Primitives} {mapWallet : MapWallet}

theorem Follows.bind (h : Follows mapWallet q r) (hf : ∀ a, Follows mapWallet (f a) (g a)) :
    Follows mapWallet (q >>= f) (r >>= g) := by
  obtain ⟨hr, hkeep⟩ := h
  have hrun : (q >>= f).run.run mapWallet = match q.run.run mapWallet with
      | (.ok a, m) => (f a).run.run m
      | (.error e, m) => (.error e, m) := by
    simp only [ExceptT.run_bind, StateT.run_bind]
    rcases q.run.run mapWallet with ⟨_ | _, _⟩ <;> rfl
  rw [Follows, hrun]
  rcases hq : q.run.run mapWallet with ⟨a | a, m⟩ <;> rw [hq] at hr hkeep <;> subst hr
  · exact ⟨rfl, fun b hb => by cases hb⟩
  · obtain rfl : m = mapWallet := hkeep a rfl
    exact hf a

theorem Follows.foldlM {σ τ : Type} {f : σ → τ → Query σ} {g : σ → τ → Except Failure σ}
    (h : ∀ s t, Follows mapWallet (f s t) (g s t)) (ts : List τ) (s : σ) :
    Follows mapWallet (ts.foldlM f s) (ts.foldlM g s) := by
  induction ts generalizing s with
  | nil => exact ⟨rfl, fun _ _ => rfl⟩
  | cons t ts ih =>
    rw [foldlM_cons, foldlM_cons]
    exact (h s t).bind ih

theorem follows_queryScript (prevout : COutPoint) :
    Follows mapWallet (queryScript prevout) (prevScript mapWallet prevout) := by
  simp only [Follows, queryScript, prevScript, entryAt, ExceptT.run_mk, StateT.run]
  rcases mapWallet.lookup prevout.hash with _ | tx
  · exact ⟨rfl, fun _ h => by cases h⟩
  · dsimp only
    rcases tx.vout[prevout.n.toNat]? with _ | txout <;> exact ⟨rfl, fun _ _ => rfl⟩

theorem follows_addInput (grouping : Addresses) (txin : CTxIn) :
    Follows mapWallet (addInput P queryScript grouping txin) (addInput P (prevScript mapWallet) grouping txin) := by
  refine (follows_queryScript txin.prevout).bind fun scriptPubKey => ?_
  rcases extractDestination P scriptPubKey with e | _ | address <;>
    exact ⟨rfl, fun _ _ => rfl⟩

theorem follows_addEntry (s : Finset Addresses × Addresses) (tx : CMutableTransaction) :
    Follows mapWallet (addEntry P queryScript s tx) (addEntry P (prevScript mapWallet) s tx) := by
  rw [addEntry, addEntry]
  split
  · refine (Follows.foldlM follows_addInput _ _).bind fun grouping => ?_
    split <;> exact ⟨rfl, fun _ _ => rfl⟩
  · exact ⟨rfl, fun _ _ => rfl⟩

theorem follows_queryAddressGroupings (A : Allocator) (I : Iteration) :
    Follows mapWallet (queryAddressGroupings P A I) (getAddressGroupings P A I mapWallet) := by
  have hfold : Follows mapWallet ((transactions mapWallet).foldlM (addEntry P queryScript) (∅, ∅)) _ :=
    Follows.foldlM follows_addEntry _ _
  refine hfold.bind (f := fun s => liftExcept (uniteGroupings A I s.1))
    (g := fun s => uniteGroupings A I s.1) fun s => ?_
  rcases uniteGroupings A I s.1 with e | ret <;> exact ⟨rfl, fun _ _ => rfl⟩

theorem step_ok_of_foldlM {σ τ : Type} {f : σ → τ → Except Failure σ} {ts : List τ} {s s' : σ}
    (h : ts.foldlM f s = .ok s') : ∀ t ∈ ts, ∃ s₁ s₂, f s₁ t = .ok s₂ := by
  induction ts generalizing s with
  | nil => simp
  | cons t ts ih =>
    rw [foldlM_cons] at h
    rcases hf : f s t with e | s₁
    · rw [hf] at h
      cases h
    · rw [hf] at h
      exact forall_mem_cons.mpr ⟨⟨s, s₁, hf⟩, ih h⟩

theorem prevPresent_of_ok {A : Allocator} {I : Iteration} {ret : Finset Addresses}
    (h : getAddressGroupings P A I mapWallet = .ok ret) : PrevPresent mapWallet := by
  intro tx htx txin htxin
  rcases hfold : (transactions mapWallet).foldlM (addEntry P (prevScript mapWallet)) (∅, ∅) with e | s
  · rw [getAddressGroupings, hfold] at h
    cases h
  obtain ⟨s₁, s₂, hentry⟩ := step_ok_of_foldlM hfold tx htx
  rw [addEntry, if_pos (length_pos_of_mem htxin)] at hentry
  rcases hvin : tx.vin.foldlM (addInput P (prevScript mapWallet)) s₁.2 with e | grouping
  · rw [hvin] at hentry
    cases hentry
  obtain ⟨g₁, g₂, hinput⟩ := step_ok_of_foldlM hvin txin htxin
  rw [addInput, prevScript] at hinput
  rcases hlookup : mapWallet.lookup txin.prevout.hash with _ | prev
  · rw [hlookup] at hinput
    cases hinput
  · refine ⟨prev, rfl, ?_⟩
    by_contra hn
    rw [hlookup] at hinput
    dsimp only at hinput
    rw [getElem?_eq_none (not_lt.mp hn)] at hinput
    cases hinput

/-- The call is a pure query exactly when no input spends an output of a transaction that the wallet
does not have. -/
theorem grouping_pure_query_iff (P : Primitives) (A : Allocator) (I : Iteration)
    (mapWallet : MapWallet) :
    (∃ ret, (queryAddressGroupings P A I).run.run mapWallet = (.ok ret, mapWallet)) ↔
      PrevPresent mapWallet := by
  obtain ⟨hresult, hkeep⟩ := @follows_queryAddressGroupings P mapWallet A I
  constructor
  · rintro ⟨ret, hret⟩
    rw [hret] at hresult
    exact prevPresent_of_ok hresult.symm
  · intro h
    obtain ⟨ret, hret, -⟩ := getAddressGroupings_ok (P := P) A I h
    exact ⟨ret, Prod.ext (hresult.trans hret) (hkeep ret hret)⟩

/-- An input that spends a foreign output puts an empty transaction into the wallet, and the code
then reads an output that it does not have. -/
theorem foreign_input_inserted :
    (queryAddressGroupings constantHashes bump anyOrder).run.run
        ((∅ : MapWallet).insert ⟨replicate 32 2, rfl⟩ spending) =
      (.error .outside, ((∅ : MapWallet).insert ⟨replicate 32 2, rfl⟩ spending).insert
        ⟨replicate 32 1, rfl⟩ ⟨1, [], [], 0⟩) :=
  rfl

end

end Utsuite.AddressGroupings
