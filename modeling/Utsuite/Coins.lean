import Mathlib.Data.List.AList
import Mathlib.Data.List.DropRight
import Utsuite.Transaction
import Utsuite.Transitions
import Utsuite.WriteBack

namespace Utsuite.Coins

open Transaction Transitions WriteBack List Function

def isNull (txout : CTxOut) : Bool := txout.nValue == -1

def nullTxOut : CTxOut := ⟨-1, []⟩

structure CCoins where
  fCoinBase : Bool
  vout : List CTxOut
  nHeight : Int32
  nVersion : Int32
  deriving DecidableEq

namespace CCoins

def clear : CCoins := ⟨false, [], 0, 0⟩

def cleanup (coins : CCoins) : CCoins := { coins with vout := coins.vout.rdropWhile isNull }

def isPruned (coins : CCoins) : Bool := coins.vout.all isNull

def available (coins : CCoins) (nPos : Nat) : Option CTxOut :=
  coins.vout[nPos]?.filter fun txout => !isNull txout

def spend (coins : CCoins) (nPos : Nat) : CCoins :=
  match coins.available nPos with
  | none => coins
  | some _ => cleanup { coins with vout := coins.vout.set nPos nullTxOut }

end CCoins

structure CCoinsCacheEntry where
  coins : CCoins
  dirty : Bool
  fresh : Bool
  deriving DecidableEq

abbrev CCoinsMap := AList fun _ : uint256 => CCoinsCacheEntry

abbrev Outputs := Nat → Option CTxOut

def noOutputs : Outputs := fun _ => none

def outputs (coins : Option CCoins) : Outputs := coins.elim noOutputs CCoins.available

/-- What lies below the caches. It must keep what is written to it, provided that entries marked as
fresh are new to it. -/
structure CCoinsView where
  State : Type
  getCoins : State → uint256 → Option CCoins
  batchWrite : State → CCoinsMap → State
  outputs_batchWrite : ∀ s mapCoins,
    (∀ txid, ∀ entry ∈ mapCoins.lookup txid, entry.fresh = true →
      outputs (getCoins s txid) = noOutputs) →
    ∀ txid, outputs (getCoins (batchWrite s mapCoins) txid) =
      match mapCoins.lookup txid with
      | some entry => if entry.dirty then entry.coins.available else outputs (getCoins s txid)
      | none => outputs (getCoins s txid)

structure Views (base : CCoinsView) where
  store : base.State
  layers : List CCoinsMap

/-- What `GetCoins` returns, and the entries that `FetchCoins` leaves in the caches on the way. -/
def getCoins (base : uint256 → Option CCoins) : List CCoinsMap → uint256 → Option CCoins × List CCoinsMap
  | [], txid => (base txid, [])
  | cacheCoins :: below, txid =>
    match cacheCoins.lookup txid with
    | some entry => (some entry.coins, cacheCoins :: below)
    | none =>
      match getCoins base below txid with
      | (none, below') => (none, cacheCoins :: below')
      | (some tmp, below') =>
        (some tmp, cacheCoins.insert txid ⟨tmp, false, tmp.isPruned⟩ :: below')

def finishModifier (cacheCoins : CCoinsMap) (txid : uint256) (entry : CCoinsCacheEntry) : CCoinsMap :=
  let coins := entry.coins.cleanup
  if entry.fresh && coins.isPruned then cacheCoins.erase txid
  else cacheCoins.insert txid { entry with coins }

structure Modification where
  run : CCoins → CCoins
  effect : Outputs → Outputs
  available_run : ∀ coins, (run coins).available = effect coins.available

def modifyCoins (base : uint256 → Option CCoins) (txid : uint256) (f : Modification) :
    List CCoinsMap → List CCoinsMap
  | [] => []
  | cacheCoins :: below =>
    match cacheCoins.lookup txid with
    | some entry =>
      finishModifier cacheCoins txid { entry with coins := f.run entry.coins, dirty := true } :: below
    | none =>
      match getCoins base below txid with
      | (none, below') => finishModifier cacheCoins txid ⟨f.run .clear, true, true⟩ :: below'
      | (some coins, below') =>
        finishModifier cacheCoins txid ⟨f.run coins, true, coins.isPruned⟩ :: below'

def modifyNewCoins (txid : uint256) (f : Modification) : List CCoinsMap → List CCoinsMap
  | [] => []
  | cacheCoins :: below => finishModifier cacheCoins txid ⟨f.run .clear, true, true⟩ :: below

def uncache (txid : uint256) (cacheCoins : CCoinsMap) : CCoinsMap :=
  match cacheCoins.lookup txid with
  | some entry => if !entry.dirty && !entry.fresh then cacheCoins.erase txid else cacheCoins
  | none => cacheCoins

def batchEntry (cacheCoins : CCoinsMap) (it : Sigma fun _ : uint256 => CCoinsCacheEntry) : CCoinsMap :=
  if it.2.dirty then
    match cacheCoins.lookup it.1 with
    | none =>
      if it.2.fresh && it.2.coins.isPruned then cacheCoins
      else cacheCoins.insert it.1 ⟨it.2.coins, true, it.2.fresh⟩
    | some itUs =>
      if itUs.fresh && it.2.coins.isPruned then cacheCoins.erase it.1
      else cacheCoins.insert it.1 ⟨it.2.coins, true, itUs.fresh⟩
  else cacheCoins

def batchWrite (cacheCoins mapCoins : CCoinsMap) : CCoinsMap :=
  mapCoins.entries.foldl batchEntry cacheCoins

variable {base : CCoinsView}

def flush (store : base.State) : List CCoinsMap → base.State × List CCoinsMap
  | [] => (store, [])
  | [cacheCoins] => (base.batchWrite store cacheCoins, [∅])
  | cacheCoins :: parent :: below => (store, ∅ :: batchWrite parent cacheCoins :: below)

def flushAt (store : base.State) : Nat → List CCoinsMap → base.State × List CCoinsMap
  | 0, layers => flush store layers
  | _ + 1, [] => (store, [])
  | i + 1, cacheCoins :: below =>
    let r := flushAt store i below
    (r.1, cacheCoins :: r.2)

inductive Op
  | newLayer
  | modifyCoins (txid : uint256) (f : Modification)
  | modifyNewCoins (txid : uint256) (f : Modification)
  | accessCoins (txid : uint256)
  | haveCoins (txid : uint256)
  | uncache (i : Nat) (txid : uint256)
  | flush (i : Nat)
  | destroy

def step (s : Views base) : Op → Views base
  | .newLayer => { s with layers := ∅ :: s.layers }
  | .modifyCoins txid f => { s with layers := modifyCoins (base.getCoins s.store) txid f s.layers }
  | .modifyNewCoins txid f => { s with layers := modifyNewCoins txid f s.layers }
  | .accessCoins txid | .haveCoins txid =>
    { s with layers := (getCoins (base.getCoins s.store) s.layers txid).2 }
  | .uncache i txid => { s with layers := s.layers.modify i (uncache txid) }
  | .flush i =>
    let r := flushAt s.store i s.layers
    ⟨r.1, r.2⟩
  | .destroy => { s with layers := s.layers.tail }

def seen (s : Views base) (txid : uint256) : Outputs :=
  outputs (getCoins (base.getCoins s.store) s.layers txid).1

def haveCoins (s : Views base) (txid : uint256) : Bool :=
  match (getCoins (base.getCoins s.store) s.layers txid).1 with
  | some coins => !coins.vout.isEmpty
  | none => false

structure Plain where
  base : uint256 → Outputs
  layers : List (uint256 → Outputs)

def Plain.top (p : Plain) : uint256 → Outputs := p.layers.headD p.base

def Plain.flush (base : uint256 → Outputs) :
    List (uint256 → Outputs) → (uint256 → Outputs) × List (uint256 → Outputs)
  | [] => (base, [])
  | [m] => (m, [m])
  | m :: _ :: below => (base, m :: m :: below)

def Plain.flushAt (base : uint256 → Outputs) :
    Nat → List (uint256 → Outputs) → (uint256 → Outputs) × List (uint256 → Outputs)
  | 0, layers => Plain.flush base layers
  | _ + 1, [] => (base, [])
  | i + 1, m :: below =>
    let r := Plain.flushAt base i below
    (r.1, m :: r.2)

def Plain.modify (txid : uint256) (f : Outputs → Outputs) :
    List (uint256 → Outputs) → List (uint256 → Outputs)
  | [] => []
  | m :: below => update m txid (f (m txid)) :: below

def Plain.step (p : Plain) : Op → Plain
  | .newLayer => { p with layers := p.top :: p.layers }
  | .modifyCoins txid f => { p with layers := Plain.modify txid f.effect p.layers }
  | .modifyNewCoins txid f => { p with layers := Plain.modify txid (fun _ => f.effect noOutputs) p.layers }
  | .accessCoins _ | .haveCoins _ | .uncache _ _ => p
  | .flush i =>
    let r := Plain.flushAt p.base i p.layers
    ⟨r.1, r.2⟩
  | .destroy => { p with layers := p.layers.tail }

variable {layers : List CCoinsMap}

section

variable (coins : CCoins)

theorem isPruned_iff : coins.isPruned = true ↔ coins.available = noOutputs := by
  rw [CCoins.isPruned, all_eq_true]
  constructor
  · intro h
    funext n
    rw [CCoins.available, noOutputs, Option.filter_eq_none_iff]
    intro txout htxout
    rw [h txout (mem_of_getElem? htxout)]
    decide
  · intro h txout htxout
    obtain ⟨n, hn⟩ := mem_iff_getElem?.mp htxout
    have hnone := congrFun h n
    rw [CCoins.available, noOutputs, Option.filter_eq_none_iff] at hnone
    simpa using hnone txout hn

theorem available_cleanup : coins.cleanup.available = coins.available := by
  funext n
  have hsplit : coins.vout.rdropWhile isNull ++ coins.vout.rtakeWhile isNull = coins.vout :=
    rdropWhile_append_rtakeWhile
  rw [CCoins.available, CCoins.available, CCoins.cleanup]
  conv_rhs => rw [← hsplit]
  by_cases hn : n < (coins.vout.rdropWhile isNull).length
  · rw [getElem?_append_left hn]
  · rw [getElem?_append_right (Nat.le_of_not_lt hn),
      getElem?_eq_none (Nat.le_of_not_lt hn), Option.filter_none, eq_comm,
      Option.filter_eq_none_iff]
    intro txout htxout
    rw [mem_rtakeWhile_imp (mem_of_getElem? htxout)]
    decide

@[simp] theorem available_clear : CCoins.clear.available = noOutputs := rfl

end

def entryLine (entry : CCoinsCacheEntry) : Line Outputs :=
  ⟨entry.coins.available, entry.dirty, entry.fresh⟩

def lines (cacheCoins : CCoinsMap) : Layer uint256 Outputs := fun txid =>
  (cacheCoins.lookup txid).map entryLine

theorem lines_insert (cacheCoins : CCoinsMap) (txid : uint256) (entry : CCoinsCacheEntry) :
    lines (cacheCoins.insert txid entry) =
      update (lines cacheCoins) txid (some (entryLine entry)) := by
  funext t
  by_cases ht : t = txid
  · subst ht
    rw [lines, AList.lookup_insert, update_self]
    rfl
  · rw [lines, AList.lookup_insert_ne ht, update_of_ne ht]
    rfl

theorem lines_erase (cacheCoins : CCoinsMap) (txid : uint256) :
    lines (cacheCoins.erase txid) = update (lines cacheCoins) txid none := by
  funext t
  by_cases ht : t = txid
  · subst ht
    rw [lines, AList.lookup_erase, update_self]
    rfl
  · rw [lines, AList.lookup_erase_ne ht, update_of_ne ht]
    rfl

theorem batchEntry_self (cacheCoins : CCoinsMap) (txid : uint256) (entry : CCoinsCacheEntry) :
    lines (batchEntry cacheCoins ⟨txid, entry⟩) txid =
      pushLine noOutputs (some (entryLine entry)) (lines cacheCoins txid) := by
  have hpruned := isPruned_iff entry.coins
  by_cases hdirty : entry.dirty = true
  · cases hus : cacheCoins.lookup txid with
    | none =>
      have hown : lines cacheCoins txid = none := by rw [lines, hus]; rfl
      simp only [batchEntry, hdirty, if_true, hus, hown]
      by_cases hdrop : entry.fresh = true ∧ entry.coins.available = noOutputs
      · rw [pushLine_drop (entryLine entry) none hdirty hdrop, if_pos (by rwa [Bool.and_eq_true, hpruned]), hown]
      · rw [pushLine_keep (entryLine entry) none hdirty hdrop, if_neg (by rwa [Bool.and_eq_true, hpruned]), lines_insert,
          update_self]
        rfl
    | some us =>
      have hown : lines cacheCoins txid = some (entryLine us) := by rw [lines, hus]; rfl
      simp only [batchEntry, hdirty, if_true, hus, hown]
      by_cases hdrop : us.fresh = true ∧ entry.coins.available = noOutputs
      · rw [pushLine_drop (entryLine entry) (some (entryLine us)) hdirty hdrop, if_pos (by rwa [Bool.and_eq_true, hpruned]), lines_erase,
          update_self]
      · rw [pushLine_keep (entryLine entry) (some (entryLine us)) hdirty hdrop, if_neg (by rwa [Bool.and_eq_true, hpruned]), lines_insert,
          update_self]
        rfl
  · rw [pushLine_clean (entryLine entry) _ hdirty, batchEntry, if_neg hdirty]

theorem batchEntry_ne (cacheCoins : CCoinsMap) (entry : CCoinsCacheEntry) (h : t ≠ txid) :
    lines (batchEntry cacheCoins ⟨txid, entry⟩) t = lines cacheCoins t := by
  unfold batchEntry
  split
  · split
    · split
      · rfl
      · rw [lines_insert, update_of_ne h]
    · split
      · rw [lines_erase, update_of_ne h]
      · rw [lines_insert, update_of_ne h]
  · rfl

theorem lines_foldl_batchEntry (es : List (Sigma fun _ : uint256 => CCoinsCacheEntry))
    (hkeys : es.NodupKeys) (cacheCoins : CCoinsMap) (txid : uint256) :
    lines (es.foldl batchEntry cacheCoins) txid =
      pushLine noOutputs ((es.dlookup txid).map entryLine) (lines cacheCoins txid) := by
  induction es generalizing cacheCoins with
  | nil => rfl
  | cons it es ih =>
    obtain ⟨t, entry⟩ := it
    obtain ⟨hnew, hkeys⟩ := nodupKeys_cons.mp hkeys
    rw [foldl_cons, ih hkeys]
    by_cases ht : txid = t
    · subst ht
      rw [dlookup_eq_none.mpr hnew, dlookup_cons_eq, batchEntry_self]
      rfl
    · rw [dlookup_cons_ne es ⟨t, entry⟩ ht, batchEntry_ne cacheCoins entry ht]

theorem lines_batchWrite (cacheCoins mapCoins : CCoinsMap) :
    lines (batchWrite cacheCoins mapCoins) = push noOutputs (lines mapCoins) (lines cacheCoins) :=
  funext fun txid => lines_foldl_batchEntry mapCoins.entries mapCoins.nodupKeys cacheCoins txid

section

variable {under : uint256 → Outputs} {below : List (Layer uint256 Outputs)} {cacheCoins : CCoinsMap}
  {txid : uint256}

theorem see_of_lookup_none (h : cacheCoins.lookup txid = none) :
    see under (lines cacheCoins :: below) txid = see under below txid := by
  rw [see, lines, h]
  rfl

theorem see_of_lookup_some (h : cacheCoins.lookup txid = some entry) :
    see under (lines cacheCoins :: below) txid = entry.coins.available := by
  rw [see, lines, h]
  rfl

theorem agrees_of_lookup_some (h : cacheCoins.lookup txid = some entry)
    (hsound : Sound noOutputs under (lines cacheCoins :: below)) :
    Agrees noOutputs (entryLine entry) (see under below txid) :=
  hsound.1 txid (entryLine entry) (by rw [lines, h]; rfl)

theorem finishModifier_spec (entry : CCoinsCacheEntry)
    (h : Sound noOutputs under (lines cacheCoins :: below)) (hdirty : entry.dirty = true)
    (hfresh : entry.fresh = true → see under below txid = noOutputs) :
    Sound noOutputs under (lines (finishModifier cacheCoins txid entry) :: below) ∧
      see under (lines (finishModifier cacheCoins txid entry) :: below) =
        Function.update (see under (lines cacheCoins :: below)) txid entry.coins.available := by
  rw [finishModifier]
  split
  · next hdrop =>
      rw [Bool.and_eq_true, isPruned_iff, available_cleanup] at hdrop
      rw [lines_erase, see_update, hdrop.2]
      refine ⟨h.update (by nofun), ?_⟩
      rw [← hfresh hdrop.1]
      rfl
  · rw [lines_insert, see_update, ← available_cleanup]
    refine ⟨h.update fun line hline => ?_, rfl⟩
    obtain rfl := Option.some.inj hline
    exact ⟨fun hclean => absurd (hdirty.symm.trans hclean) (by decide), hfresh⟩

theorem uncache_spec (h : Sound noOutputs under (lines cacheCoins :: below)) (txid : uint256) :
    Sound noOutputs under (lines (uncache txid cacheCoins) :: below) ∧
      see under (lines (uncache txid cacheCoins) :: below) =
        see under (lines cacheCoins :: below) := by
  rw [uncache]
  split
  · next entry hentry =>
      split
      · next hclean =>
          rw [Bool.and_eq_true, Bool.not_eq_true'] at hclean
          have hsame := (agrees_of_lookup_some hentry h).clean hclean.1
          rw [lines_erase, see_update]
          refine ⟨h.update (by nofun), update_eq_self_iff.mpr ?_⟩
          rw [see_of_lookup_some hentry]
          exact hsame.symm
      · exact ⟨h, rfl⟩
  · exact ⟨h, rfl⟩

end

def shows (b : uint256 → Option CCoins) (layers : List CCoinsMap) : List (uint256 → Outputs) :=
  seeAll (fun txid => outputs (b txid)) (layers.map lines)

def SoundOver (b : uint256 → Option CCoins) (layers : List CCoinsMap) : Prop :=
  Sound noOutputs (fun txid => outputs (b txid)) (layers.map lines)

section

variable {b : uint256 → Option CCoins}

theorem getCoins_spec (h : SoundOver b layers) (txid : uint256) :
    outputs (getCoins b layers txid).1 = see (fun txid => outputs (b txid)) (layers.map lines) txid ∧
      SoundOver b (getCoins b layers txid).2 ∧ shows b (getCoins b layers txid).2 = shows b layers := by
  induction layers with
  | nil => exact ⟨rfl, trivial, rfl⟩
  | cons cacheCoins below ih =>
    obtain ⟨hval, hsound, hshows⟩ := ih h.2
    have hsee := see_congr hshows
    have hsound' := Sound.cons_congr h hsound hsee
    rw [getCoins]
    cases hentry : cacheCoins.lookup txid with
    | some entry => exact ⟨(see_of_lookup_some hentry).symm, h, rfl⟩
    | none =>
      have hthrough : see (fun txid => outputs (b txid)) ((cacheCoins :: below).map lines) txid =
          see (fun txid => outputs (b txid)) (below.map lines) txid := see_of_lookup_none hentry
      generalize getCoins b below txid = r at hval hsound hshows hsee hsound'
      obtain ⟨found, below'⟩ := r
      cases found with
      | none =>
        refine ⟨hval.trans hthrough.symm, hsound', ?_⟩
        exact congrArg₂ List.cons (see_cons_congr hsee) hshows
      | some tmp =>
        have hagrees : Agrees noOutputs (entryLine ⟨tmp, false, tmp.isPruned⟩)
            (see (fun txid => outputs (b txid)) (below'.map lines) txid) := by
          rw [hsee, ← hval]
          exact ⟨fun _ => rfl, fun hpruned => (isPruned_iff tmp).mp hpruned⟩
        refine ⟨hval.trans hthrough.symm, ?_, ?_⟩
        · rw [SoundOver, map_cons, lines_insert]
          refine hsound'.update fun line hline => ?_
          obtain rfl := Option.some.inj hline
          exact hagrees
        · rw [shows, map_cons, lines_insert]
          refine congrArg₂ List.cons ?_ hshows
          rw [see_update, see_cons_congr hsee]
          refine Function.update_eq_self_iff.mpr ?_
          exact hval.trans hthrough.symm

theorem modifyCoins_spec (h : SoundOver b layers) (txid : uint256) (f : Modification) :
    SoundOver b (modifyCoins b txid f layers) ∧
      shows b (modifyCoins b txid f layers) = Plain.modify txid f.effect (shows b layers) := by
  cases layers with
  | nil => exact ⟨trivial, rfl⟩
  | cons cacheCoins below =>
    rw [modifyCoins]
    cases hentry : cacheCoins.lookup txid with
    | some entry =>
      have hagrees := agrees_of_lookup_some hentry h
      obtain ⟨hsound, hsee⟩ := finishModifier_spec
        { entry with coins := f.run entry.coins, dirty := true } h rfl hagrees.fresh
      refine ⟨hsound, congrArg₂ cons ?_ rfl⟩
      rw [hsee, f.available_run, see_of_lookup_some hentry]
    | none =>
      obtain ⟨hval, hbelow, hshows⟩ := getCoins_spec h.2 txid
      have hsee := see_congr hshows
      have hsound := Sound.cons_congr h hbelow hsee
      have hthrough : see (fun txid => outputs (b txid)) ((cacheCoins :: below).map lines) txid =
          see (fun txid => outputs (b txid)) (below.map lines) txid := see_of_lookup_none hentry
      generalize getCoins b below txid = r at hval hbelow hshows hsee hsound
      obtain ⟨found, below'⟩ := r
      -- Both answers of the layers below give an entry that is fresh only if it is pruned.
      have hfinish : ∀ (coins : CCoins) (fresh : Bool), coins.available = outputs found →
          (fresh = true → coins.available = noOutputs) →
          SoundOver b (finishModifier cacheCoins txid ⟨f.run coins, true, fresh⟩ :: below') ∧
            shows b (finishModifier cacheCoins txid ⟨f.run coins, true, fresh⟩ :: below') =
              Plain.modify txid f.effect (shows b (cacheCoins :: below)) := by
        intro coins fresh hcoins hfresh
        have hunder := hcoins.trans hval
        obtain ⟨hsound', hsee'⟩ := finishModifier_spec ⟨f.run coins, true, fresh⟩ hsound
          rfl fun h => (congrFun hsee txid).trans (hunder.symm.trans (hfresh h))
        refine ⟨hsound', congrArg₂ cons ?_ hshows⟩
        rw [hsee', f.available_run, see_cons_congr hsee, hunder, ← hthrough]
        rfl
      cases found with
      | none => exact hfinish .clear true rfl fun _ => rfl
      | some coins => exact hfinish coins coins.isPruned rfl (isPruned_iff coins).mp

theorem modifyNewCoins_spec (h : SoundOver b layers) (f : Modification)
    (hnew : outputs (getCoins b layers.tail txid).1 = noOutputs) :
    SoundOver b (modifyNewCoins txid f layers) ∧
      shows b (modifyNewCoins txid f layers) =
        Plain.modify txid (fun _ => f.effect noOutputs) (shows b layers) := by
  cases layers with
  | nil => exact ⟨trivial, rfl⟩
  | cons cacheCoins below =>
    obtain ⟨hsound, hsee⟩ := finishModifier_spec ⟨f.run .clear, true, true⟩ h rfl
      fun _ => (getCoins_spec h.2 txid).1.symm.trans hnew
    refine ⟨hsound, congrArg₂ cons ?_ rfl⟩
    rw [hsee, f.available_run, available_clear]

theorem uncache_layers_spec (h : SoundOver b layers) (i : Nat) (txid : uint256) :
    SoundOver b (layers.modify i (uncache txid)) ∧
      shows b (layers.modify i (uncache txid)) = shows b layers := by
  induction layers generalizing i with
  | nil =>
    rw [modify_nil]
    exact ⟨h, rfl⟩
  | cons cacheCoins below ih =>
    cases i with
    | zero =>
      obtain ⟨hsound, hsee⟩ := uncache_spec h txid
      exact ⟨hsound, congrArg₂ cons hsee rfl⟩
    | succ i =>
      obtain ⟨hbelow, hshows⟩ := ih h.2 i
      have hsee := see_congr hshows
      exact ⟨Sound.cons_congr h hbelow hsee, congrArg₂ cons (see_cons_congr hsee) hshows⟩

end

theorem outputs_batchWrite_eq (h : SoundOver (base.getCoins store) [cacheCoins]) :
    (fun txid => outputs (base.getCoins (base.batchWrite store cacheCoins) txid)) =
      see (fun txid => outputs (base.getCoins store txid)) [lines cacheCoins] := by
  rw [← settle_eq h]
  funext txid
  rw [base.outputs_batchWrite store cacheCoins, settle, lines]
  · cases cacheCoins.lookup txid <;> rfl
  · intro t entry hentry
    exact (agrees_of_lookup_some hentry h).fresh

structure Settled (store store' : base.State) (layers layers' : List CCoinsMap)
    (plain : (uint256 → Outputs) × List (uint256 → Outputs)) : Prop where
  sound : SoundOver (base.getCoins store') layers'
  see_eq : see (fun txid => outputs (base.getCoins store' txid)) (layers'.map lines) =
    see (fun txid => outputs (base.getCoins store txid)) (layers.map lines)
  base_eq : (fun txid => outputs (base.getCoins store' txid)) = plain.1
  shows_eq : shows (base.getCoins store') layers' = plain.2

theorem flush_settled (h : SoundOver (base.getCoins store) layers) :
    Settled store (flush store layers).1 layers (flush store layers).2
      (Plain.flush (fun txid => outputs (base.getCoins store txid))
        (shows (base.getCoins store) layers)) := by
  match layers with
  | [] => exact ⟨h, rfl, rfl, rfl⟩
  | [cacheCoins] =>
    have hwrite := outputs_batchWrite_eq h
    exact ⟨Sound.empty trivial, hwrite, hwrite, congrArg (fun m => [m]) hwrite⟩
  | cacheCoins :: parent :: below =>
    have hsound := Sound.push h
    have hsee := see_push h
    rw [← lines_batchWrite] at hsound hsee
    refine ⟨Sound.empty hsound, hsee, rfl, ?_⟩
    exact congrArg₂ cons hsee (congrArg₂ cons hsee rfl)

theorem flushAt_settled (i : Nat) (h : SoundOver (base.getCoins store) layers) :
    Settled store (flushAt store i layers).1 layers (flushAt store i layers).2
      (Plain.flushAt (fun txid => outputs (base.getCoins store txid)) i
        (shows (base.getCoins store) layers)) := by
  induction i generalizing layers with
  | zero => exact flush_settled h
  | succ i ih =>
    cases layers with
    | nil => exact ⟨h, rfl, rfl, rfl⟩
    | cons cacheCoins below =>
      obtain ⟨hsound, hsee, hbase, hshows⟩ := ih h.2
      refine ⟨Sound.cons_congr h hsound hsee, see_cons_congr hsee, hbase, ?_⟩
      exact congrArg₂ cons (see_cons_congr hsee) hshows

/-- The abstraction of a stack of caches. Each plain map shows what is seen through the caches from
its layer down. -/
structure Refines (s : Views base) (p : Plain) : Prop where
  sound : SoundOver (base.getCoins s.store) s.layers
  base_eq : (fun txid => outputs (base.getCoins s.store txid)) = p.base
  shows_eq : shows (base.getCoins s.store) s.layers = p.layers

theorem Refines.see_eq (h : Refines s p) :
    see (fun txid => outputs (base.getCoins s.store txid)) (s.layers.map lines) = p.top := by
  rw [see_eq_headD, Plain.top, ← h.shows_eq, ← h.base_eq]
  rfl

theorem Refines.seen_eq (h : Refines s p) : seen s = p.top := by
  rw [← h.see_eq]
  exact funext fun txid => (getCoins_spec h.sound txid).1

/-- `ModifyNewCoins` is only called for a transaction of which no unspent output is seen below. -/
def NewBelow (s : Views base) : Op → Prop
  | .modifyNewCoins txid _ => outputs (getCoins (base.getCoins s.store) s.layers.tail txid).1 = noOutputs
  | _ => True

theorem Refines.step (h : Refines s p) (hop : NewBelow s op) : Refines (step s op) (p.step op) := by
  cases op with
  | newLayer =>
    refine ⟨Sound.empty h.sound, h.base_eq, ?_⟩
    exact congrArg₂ cons h.see_eq h.shows_eq
  | modifyCoins txid f =>
    obtain ⟨hsound, hshows⟩ := modifyCoins_spec h.sound txid f
    exact ⟨hsound, h.base_eq, hshows.trans (congrArg _ h.shows_eq)⟩
  | modifyNewCoins txid f =>
    obtain ⟨hsound, hshows⟩ := modifyNewCoins_spec h.sound f hop
    exact ⟨hsound, h.base_eq, hshows.trans (congrArg _ h.shows_eq)⟩
  | accessCoins txid | haveCoins txid =>
    obtain ⟨_, hsound, hshows⟩ := getCoins_spec h.sound txid
    exact ⟨hsound, h.base_eq, hshows.trans h.shows_eq⟩
  | uncache i txid =>
    obtain ⟨hsound, hshows⟩ := uncache_layers_spec h.sound i txid
    exact ⟨hsound, h.base_eq, hshows.trans h.shows_eq⟩
  | flush i =>
    obtain ⟨hsound, _, hbase, hshows⟩ := flushAt_settled i h.sound
    rw [h.base_eq, h.shows_eq] at hbase hshows
    exact ⟨hsound, hbase, hshows⟩
  | destroy =>
    refine ⟨?_, h.base_eq, ?_⟩
    · cases hlayers : s.layers with
      | nil => rw [Coins.step, hlayers]; trivial
      | cons cacheCoins below =>
        have hsound := h.sound
        rw [hlayers] at hsound
        rw [Coins.step, hlayers]
        exact hsound.2
    · rw [Plain.step, ← h.shows_eq, Coins.step]
      cases s.layers <;> rfl

def coinsViews (base : CCoinsView) : System (Views base) Op where
  start := {s | s.layers = []}
  next s op s' := s' = step s op

def Plain.run (p : Plain) (ops : List Op) : Plain := ops.foldl Plain.step p

theorem Refines.run (h : Refines s p) (hrun : Run ((coinsViews base).under NewBelow) s ops s') :
    Refines s' (p.run ops) := by
  induction hrun with
  | nil => exact h
  | snoc _ hs ih =>
    obtain ⟨hop, rfl⟩ := hs
    rw [Plain.run, foldl_append]
    exact ih.step hop

def flushEvery (n : Nat) : List Op := (range n).map Op.flush

theorem Refines.flushes (h : Refines s p) (is : List Nat) :
    Refines ((is.map Op.flush).foldl Coins.step s) (p.run (is.map Op.flush)) := by
  induction is generalizing s p with
  | nil => exact h
  | cons i is ih =>
    have hop : NewBelow s (.flush i) := trivial
    exact ih (h.step hop)

theorem Plain.flushAt_replicate (base m : uint256 → Outputs) (n : Nat)
    (tail : List (uint256 → Outputs)) :
    Plain.flushAt base n (replicate n m ++ tail) =
      ((Plain.flush base tail).1, replicate n m ++ (Plain.flush base tail).2) := by
  induction n with
  | zero => rfl
  | succ n ih =>
    rw [replicate_succ, cons_append, Plain.flushAt, ih]
    rfl

theorem Plain.run_flushEvery_succ (p : Plain) (n : Nat) :
    p.run (flushEvery (n + 1)) = (p.run (flushEvery n)).step (.flush n) := by
  rw [Plain.run, flushEvery, range_succ, map_append, foldl_append]
  rfl

theorem Plain.run_flushEvery (base m : uint256 → Outputs) (rest : List (uint256 → Outputs))
    (hn : n ≤ rest.length) :
    Plain.run ⟨base, m :: rest⟩ (flushEvery n) =
      ⟨base, replicate n m ++ m :: rest.drop n⟩ := by
  induction n with
  | zero => rfl
  | succ n ih =>
    have hdrop : rest.drop n = rest[n] :: rest.drop (n + 1) := drop_eq_getElem_cons hn
    rw [Plain.run_flushEvery_succ, ih (Nat.le_of_succ_le hn), hdrop]
    simp only [Plain.step, Plain.flushAt_replicate, Plain.flush, replicate_succ',
      append_assoc, singleton_append]

theorem Plain.flushEvery_base (p : Plain) : (p.run (flushEvery p.layers.length)).base = p.top := by
  obtain ⟨base, layers⟩ := p
  cases layers with
  | nil => rfl
  | cons m rest =>
    rw [length_cons, Plain.run_flushEvery_succ, Plain.run_flushEvery base m rest le_rfl,
      drop_length]
    simp only [Plain.step, Plain.flushAt_replicate, Plain.flush]
    rfl

theorem outputs_of_not_haveCoins (h : haveCoins s txid = false) : seen s txid = noOutputs := by
  rw [haveCoins] at h
  rw [seen]
  split at h
  · next coins hcoins =>
      rw [hcoins]
      have hvout : coins.vout = [] := by simpa using h
      refine (isPruned_iff coins).mp ?_
      rw [CCoins.isPruned, hvout]
      rfl
  · next hcoins =>
      rw [hcoins]
      rfl

/-- Reading through the caches and flushing them show what plain maps would show after the same
calls, as long as new records are new below. -/
theorem coins_transparent (base : CCoinsView) {s₀ s : Views base} {ops : List Op}
    (hstart : s₀ ∈ (coinsViews base).start)
    (hrun : Run ((coinsViews base).under NewBelow) s₀ ops s) :
    let p := Plain.run ⟨fun txid => outputs (base.getCoins s₀.store txid), []⟩ ops
    (∀ txid, seen s txid = p.top txid) ∧
    (∀ txid, haveCoins s txid = false → p.top txid = noOutputs) ∧
    ∀ txid, outputs (base.getCoins ((flushEvery s.layers.length).foldl step s).store txid) =
      p.top txid := by
  have hrefines₀ : Refines s₀ ⟨fun txid => outputs (base.getCoins s₀.store txid), []⟩ := by
    refine ⟨?_, rfl, ?_⟩
    · rw [show s₀.layers = [] from hstart]
      trivial
    · rw [show s₀.layers = [] from hstart]
      rfl
  have hrefines := hrefines₀.run hrun
  generalize Plain.run _ ops = p at hrefines
  have hlength : s.layers.length = p.layers.length := by
    rw [← hrefines.shows_eq, shows, seeAll_length, length_map]
  refine ⟨congrFun hrefines.seen_eq, fun txid hnot => ?_, fun txid => ?_⟩
  · rw [← hrefines.seen_eq]
    exact outputs_of_not_haveCoins hnot
  · have hflushed := hrefines.flushes (range s.layers.length)
    rw [← p.flushEvery_base, ← hlength]
    exact congrFun hflushed.base_eq txid

theorem available_spend (coins : CCoins) (nPos : Nat) :
    (coins.spend nPos).available = update coins.available nPos none := by
  funext n
  rw [CCoins.spend]
  cases hn : coins.available nPos with
  | none =>
    by_cases h : n = nPos
    · rw [h, update_self, hn]
    · rw [update_of_ne h]
  | some txout =>
    rw [available_cleanup]
    by_cases h : n = nPos
    · rw [h, update_self, CCoins.available, Option.filter_eq_none_iff]
      intro out hout
      rw [getElem?_set_self'] at hout
      obtain ⟨_, _, hnull⟩ := Option.map_eq_some_iff.mp hout
      rw [← hnull, const_apply]
      decide
    · rw [update_of_ne h, CCoins.available, getElem?_set_ne (Ne.symm h),
        CCoins.available]

def spending (nPos : Nat) : Modification where
  run coins := coins.spend nPos
  effect outs := update outs nPos none
  available_run coins := available_spend coins nPos

def replacing (coins : CCoins) : Modification where
  run _ := coins
  effect _ := coins.available
  available_run _ := rfl

def mapView : CCoinsView where
  State := uint256 → Option CCoins
  getCoins s := s
  batchWrite s mapCoins txid :=
    match mapCoins.lookup txid with
    | some entry =>
      if entry.dirty then (if entry.coins.isPruned then none else some entry.coins) else s txid
    | none => s txid
  outputs_batchWrite s mapCoins _ txid := by
    dsimp only
    cases mapCoins.lookup txid with
    | none => rfl
    | some entry =>
      dsimp only
      split
      · split
        · next hpruned => exact ((isPruned_iff entry.coins).mp hpruned).symm
        · rfl
      · rfl

def someTxid : uint256 := ByteWords.zeroBytes 32

def oneOutput (nValue : Int64) : CCoins := ⟨false, [⟨nValue, []⟩], 1, 1⟩

def oneRecord : Views mapView := ⟨fun txid => if txid = someTxid then some (oneOutput 5) else none, []⟩

def otherTxid : uint256 := ⟨replicate 32 1, length_replicate⟩

def flushedOps : List Op :=
  [.newLayer, .newLayer, .modifyCoins someTxid (spending 0),
    .modifyNewCoins otherTxid (replacing (oneOutput 7)), .flush 0]

def flushedViews : Views mapView := flushedOps.foldl step oneRecord

theorem coins_transparent_flushed :
    Run ((coinsViews mapView).under NewBelow) oneRecord flushedOps flushedViews ∧
      seen flushedViews someTxid = noOutputs ∧ seen flushedViews otherTxid 0 = some ⟨7, []⟩ ∧
      ∀ txid, outputs (mapView.getCoins ((flushEvery 2).foldl step flushedViews).store txid) =
        seen flushedViews txid := by
  have hrun : Run ((coinsViews mapView).under NewBelow) oneRecord
      ([] ++ [.newLayer] ++ [.newLayer] ++ [.modifyCoins someTxid (spending 0)] ++
        [.modifyNewCoins otherTxid (replacing (oneOutput 7))] ++ [.flush 0]) flushedViews :=
    .snoc (.snoc (.snoc (.snoc (.snoc .nil ⟨trivial, rfl⟩) ⟨trivial, rfl⟩) ⟨trivial, rfl⟩)
      ⟨rfl, rfl⟩) ⟨trivial, rfl⟩
  obtain ⟨hseen, -, hstored⟩ := coins_transparent mapView rfl hrun
  refine ⟨hrun, ?_, ?_, fun txid => (hstored txid).trans (hseen txid).symm⟩
  · rw [hseen]
    funext n
    cases n <;> rfl
  · rw [hseen]
    rfl

def NewOnTop (s : Views base) : Op → Prop
  | .modifyNewCoins txid _ => seen s txid = noOutputs
  | _ => True

/-- When the record is not new below, the entry is dropped because it is marked as fresh, and an
output that was spent is visible again. -/
theorem spent_output_visible_again : ∃ (s : Views mapView) (ops : List Op),
    Run ((coinsViews mapView).under NewOnTop) oneRecord ops s ∧
    seen s someTxid 0 = some ⟨5, []⟩ ∧
    (Plain.run ⟨fun txid => outputs (mapView.getCoins oneRecord.store txid), []⟩ ops).top someTxid 0 =
      none := by
  let spend : Op := .modifyCoins someTxid (spending 0)
  let renew : Op := .modifyNewCoins someTxid (replacing (oneOutput 7))
  let system := (coinsViews mapView).under NewOnTop
  let s₁ := step oneRecord .newLayer
  let s₂ := step s₁ spend
  let s₃ := step s₂ renew
  let s₄ := step s₃ spend
  have hnew : seen s₂ someTxid = noOutputs := rfl
  have h₁ : Run system oneRecord ([] ++ [.newLayer]) s₁ := .snoc .nil ⟨trivial, rfl⟩
  have h₂ : Run system oneRecord ([] ++ [.newLayer] ++ [spend]) s₂ := .snoc h₁ ⟨trivial, rfl⟩
  have h₃ : Run system oneRecord ([] ++ [.newLayer] ++ [spend] ++ [renew]) s₃ := .snoc h₂ ⟨hnew, rfl⟩
  have h₄ : Run system oneRecord ([] ++ [.newLayer] ++ [spend] ++ [renew] ++ [spend]) s₄ :=
    .snoc h₃ ⟨trivial, rfl⟩
  have hseen : seen s₄ someTxid 0 = some ⟨5, []⟩ := by decide +kernel
  refine ⟨s₄, _, h₄, hseen, ?_⟩
  rfl

end Utsuite.Coins
