import Mathlib.Algebra.Group.Nat.Defs
import Utsuite.HeightForest
import Utsuite.Transitions

namespace Utsuite.BlockChain

open Transitions HeightForest List

section

abbrev Ptr := Nat

structure CBlockIndex (H : Type) where
  hash : H
  pprev : Option Ptr
  pskip : Option Ptr
  nHeight : Nat

inductive Fault
  | assertion
  | endless
  | pointer
  | range
  | overflow

variable {H : Type}

def deref (index : List (CBlockIndex H)) (p : Ptr) : Except Fault (CBlockIndex H) :=
  match index[p]? with
  | some block => .ok block
  | none => .error .pointer

def invertLowestOne (n : Nat) : Nat := n &&& (n - 1)

def getSkipHeight (height : Nat) : Nat :=
  if height < 2 then 0
  else if height &&& 1 ≠ 0 then invertLowestOne (invertLowestOne (height - 1)) + 1
  else invertLowestOne height

def takesSkip (height heightWalk : Nat) : Bool :=
  let heightSkip : Int := getSkipHeight heightWalk
  let heightSkipPrev : Int := getSkipHeight (heightWalk - 1)
  heightSkip == height ||
    (heightSkip > height && !(heightSkipPrev < heightSkip - 2 && heightSkipPrev ≥ height))

variable (index : List (CBlockIndex H))

/-- The loop of `GetAncestor`, bounded by a number of rounds. It may take the skip pointer of a
block instead of its parent. -/
def walk (height : Nat) : Nat → Ptr → Nat → Except Fault Ptr
  | 0, pindexWalk, heightWalk =>
    if heightWalk > height then .error .endless else .ok pindexWalk
  | rounds + 1, pindexWalk, heightWalk =>
    if heightWalk > height then do
      let block ← deref index pindexWalk
      match block.pskip.filter fun _ => takesSkip height heightWalk with
      | some pskip => walk height rounds pskip (getSkipHeight heightWalk)
      | none =>
        match block.pprev with
        | none => .error .assertion
        | some pprev => walk height rounds pprev (heightWalk - 1)
    else .ok pindexWalk

def getAncestor (p : Ptr) (height : Int) : Except Fault (Option Ptr) := do
  let block ← deref index p
  if height > block.nHeight ∨ height < 0 then pure none
  else do
    let pindex ← walk index height.toNat block.nHeight p block.nHeight
    pure (some pindex)

def buildSkip (p : Ptr) : Except Fault (List (CBlockIndex H)) := do
  let block ← deref index p
  match block.pprev with
  | none => pure index
  | some pprev => do
    let pskip ← getAncestor index pprev (getSkipHeight block.nHeight)
    pure (index.set p { block with pskip })

def setLoop : Nat → Option Ptr → List (Option Ptr) → Except Fault (List (Option Ptr))
  | _, none, vChain => .ok vChain
  | 0, some _, _ => .error .endless
  | rounds + 1, some pindex, vChain => do
    let block ← deref index pindex
    match vChain[block.nHeight]? with
    | none => .error .range
    | some entry =>
      if entry = some pindex then pure vChain
      else setLoop rounds block.pprev (vChain.set block.nHeight (some pindex))

def resize (vChain : List (Option Ptr)) (size : Nat) : List (Option Ptr) :=
  vChain.take size ++ replicate (size - vChain.length) none

def setTip (pindex : Option Ptr) (vChain : List (Option Ptr)) : Except Fault (List (Option Ptr)) :=
  match pindex with
  | none => .ok []
  | some p => do
    let block ← deref index p
    setLoop index (block.nHeight + 2) pindex (resize vChain (block.nHeight + 1))

def chainAt (vChain : List (Option Ptr)) (nHeight : Int) : Option Ptr :=
  if nHeight < 0 ∨ nHeight ≥ vChain.length then none else vChain[nHeight.toNat]?.join

def contains (vChain : List (Option Ptr)) (p : Ptr) (block : CBlockIndex H) : Bool :=
  chainAt vChain block.nHeight == some p

def tip (vChain : List (Option Ptr)) : Option Ptr := vChain.getLast?.join

def chainHeight (vChain : List (Option Ptr)) : Int := vChain.length - 1

def forkLoop (vChain : List (Option Ptr)) : Nat → Option Ptr → Except Fault (Option Ptr)
  | _, none => .ok none
  | 0, some _ => .error .endless
  | rounds + 1, some pindex => do
    let block ← deref index pindex
    if contains vChain pindex block then pure (some pindex)
    else forkLoop vChain rounds block.pprev

def findFork (vChain : List (Option Ptr)) (pindex : Option Ptr) : Except Fault (Option Ptr) :=
  match pindex with
  | none => .ok none
  | some p => do
    let block ← deref index p
    if block.nHeight > chainHeight vChain then do
      let pindex ← getAncestor index p (chainHeight vChain)
      forkLoop index vChain (block.nHeight + 1) pindex
    else forkLoop index vChain (block.nHeight + 1) (some p)

def lowerBlock (vChain : List (Option Ptr)) (pindex : Ptr) (block : CBlockIndex H)
    (nHeight : Nat) : Except Fault (Option Ptr) :=
  if contains vChain pindex block then .ok (chainAt vChain nHeight)
  else getAncestor index pindex nHeight

/-- The line `nStep *= 2` of an `int`, which is reached once the locator has more than ten hashes.
-/
def nextStep (nStep size : Nat) : Except Fault Nat :=
  if size > 10 then if nStep * 2 < 2 ^ 31 then .ok (nStep * 2) else .error .overflow
  else .ok nStep

def locatorLoop (vChain : List (Option Ptr)) :
    Nat → Option Ptr → Nat → List Ptr → Except Fault (List Ptr)
  | _, none, _, vHave => .ok vHave
  | 0, some _, _, _ => .error .endless
  | rounds + 1, some pindex, nStep, vHave => do
    let block ← deref index pindex
    let vHave := vHave ++ [pindex]
    if block.nHeight = 0 then pure vHave
    else do
      let next ← lowerBlock index vChain pindex block (block.nHeight - nStep)
      let nStep ← nextStep nStep vHave.length
      locatorLoop vChain rounds next nStep vHave

def locatorBlocks (vChain : List (Option Ptr)) (pindex : Option Ptr) :
    Except Fault (List Ptr) :=
  match pindex.or (tip vChain) with
  | none => .ok []
  | some p => do
    let block ← deref index p
    locatorLoop index vChain (block.nHeight + 1) (some p) 1 []

def getLocator (vChain : List (Option Ptr)) (pindex : Option Ptr) : Except Fault (List H) := do
  let blocks ← locatorBlocks index vChain pindex
  let vHave ← blocks.mapM (deref index)
  pure (vHave.map CBlockIndex.hash)

end

section

variable {H : Type}

structure World (H : Type) where
  index : List (CBlockIndex H)
  vChain : List (Option Ptr)
  last : Option Ptr

inductive Op (H : Type)
  | genesis (hash : H)
  | link (hash : H) (pprev : Ptr)
  | buildSkip (p : Ptr)
  | setTip (pindex : Option Ptr)

def step (w : World H) : Op H → Except Fault (World H)
  | .genesis hash => .ok { w with index := w.index ++ [⟨hash, none, none, 0⟩] }
  | .link hash pprev => do
    let block ← deref w.index pprev
    pure { w with index := w.index ++ [⟨hash, some pprev, none, block.nHeight + 1⟩] }
  | .buildSkip p => do
    let index ← buildSkip w.index p
    pure { w with index }
  | .setTip pindex => do
    let vChain ← setTip w.index pindex w.vChain
    pure { w with vChain, last := pindex }

def system (H : Type) : System (World H) (Op H) where
  start := {⟨[], [], none⟩}
  next w op w' := step w op = .ok w'

def heightOf (index : List (CBlockIndex H)) (p : Ptr) : Nat :=
  (index[p]?.map CBlockIndex.nHeight).getD 0

def parentOf (index : List (CBlockIndex H)) (p : Ptr) : Option Ptr :=
  index[p]?.bind CBlockIndex.pprev

def Allowed (w : World H) : Op H → Prop
  | .genesis _ => True
  | .link _ pprev => pprev < w.index.length ∧ heightOf w.index pprev + 1 < 2 ^ 30
  | .buildSkip p => p < w.index.length
  | .setTip pindex => ∀ p ∈ pindex, p < w.index.length

end

variable {p : Ptr} {last : Option Ptr}

section

variable {H : Type} {index : List (CBlockIndex H)}

structure Linked (index : List (CBlockIndex H)) : Prop where
  root : ∀ {p : Ptr} {b : CBlockIndex H}, index[p]? = some b → b.pprev = none → b.nHeight = 0
  child : ∀ {p q : Ptr} {b : CBlockIndex H}, index[p]? = some b → b.pprev = some q →
    ∃ b' : CBlockIndex H, index[q]? = some b' ∧ b.nHeight = b'.nHeight + 1

theorem deref_eq (hp : index[p]? = some b) : deref index p = .ok b := by
  rw [deref, hp]

theorem heightOf_eq (hp : index[p]? = some b) : heightOf index p = b.nHeight := by
  rw [heightOf, hp]
  rfl

theorem parentOf_eq (hp : index[p]? = some b) : parentOf index p = b.pprev := by
  rw [parentOf, hp]
  rfl

theorem Linked.leveled (h : Linked index) : Leveled (parentOf index) (heightOf index) where
  child := by
    intro p q hparent
    obtain ⟨b, hb, hprev⟩ := Option.bind_eq_some_iff.mp hparent
    obtain ⟨b', hb', hheight⟩ := h.child hb hprev
    rw [heightOf_eq hb, heightOf_eq hb', hheight]
  root := by
    intro p hparent
    cases hp : index[p]? with
    | none =>
      rw [heightOf, hp]
      rfl
    | some b =>
      rw [parentOf_eq hp] at hparent
      rw [heightOf_eq hp, h.root hp hparent]

theorem Linked.exists_block (h : Linked index) (hp : index[p]? = some b)
    (hbranch : Branch (parentOf index) p c) : ∃ b', index[c]? = some b' := by
  induction hbranch with
  | refl => exact ⟨b, hp⟩
  | tail _ hstep _ =>
    obtain ⟨b₁, hb₁, hprev⟩ := Option.bind_eq_some_iff.mp hstep
    obtain ⟨b', hb', -⟩ := h.child hb₁ hprev
    exact ⟨b', hb'⟩

end

section

variable {H : Type} {index : List (CBlockIndex H)}

theorem invertLowestOne_le (n : Nat) : invertLowestOne n ≤ n - 1 := Nat.and_le_right

theorem getSkipHeight_lt (h : 0 < height) : getSkipHeight height < height := by
  unfold getSkipHeight
  split
  · exact h
  · split
    · have hinner := invertLowestOne_le (height - 1)
      have houter := invertLowestOne_le (invertLowestOne (height - 1))
      omega
    · have := invertLowestOne_le height
      omega

theorem le_of_takesSkip (h : takesSkip height heightWalk = true) :
    height ≤ getSkipHeight heightWalk := by
  unfold takesSkip at h
  rcases Bool.or_eq_true_iff.mp h with heq | hgt
  · have := beq_iff_eq.mp heq
    omega
  · have := of_decide_eq_true (Bool.and_eq_true_iff.mp hgt).1
    omega

def Skips (index : List (CBlockIndex H)) : Prop :=
  ∀ {p s : Ptr} {b : CBlockIndex H}, index[p]? = some b → b.pskip = some s →
    Branch (parentOf index) p s ∧ heightOf index s = getSkipHeight b.nHeight

/-- Whichever of the two pointers the loop takes, it stays on the branch of the block, so it arrives
at the ancestor of the height asked for. -/
theorem walk_spec (hl : Linked index) (hskips : Skips index) (height rounds : Nat)
    (hp : index[p]? = some b) (hle : height ≤ b.nHeight) (hrounds : b.nHeight ≤ rounds + height) :
    ∃ c, walk index height rounds p b.nHeight = .ok c ∧ Branch (parentOf index) p c ∧
      heightOf index c = height := by
  induction rounds generalizing p b with
  | zero =>
    refine ⟨p, if_neg (by omega), .refl p, ?_⟩
    rw [heightOf_eq hp]
    omega
  | succ rounds ih =>
    rw [walk]
    by_cases hgt : b.nHeight > height
    · rw [if_pos hgt, deref_eq hp]
      cases hskip : b.pskip.filter fun _ => takesSkip height b.nHeight with
      | some s =>
        obtain ⟨hs, htakes⟩ := Option.filter_eq_some_iff.mp hskip
        obtain ⟨hbranch, hheight⟩ := hskips hp hs
        obtain ⟨b', hb'⟩ := hl.exists_block hp hbranch
        rw [heightOf_eq hb'] at hheight
        have hlow := le_of_takesSkip htakes
        have hless := getSkipHeight_lt (by omega : 0 < b.nHeight)
        obtain ⟨c, hwalk, hc, hheightc⟩ := ih hb' (by omega) (by omega)
        rw [hheight] at hwalk
        exact ⟨c, by dsimp only [bind, Except.bind]; rw [hskip]; exact hwalk,
          hbranch.trans hc, hheightc⟩
      | none =>
        cases hprev : b.pprev with
        | none =>
          have := hl.root hp hprev
          omega
        | some q =>
          obtain ⟨b', hb', hheight⟩ := hl.child hp hprev
          obtain ⟨c, hwalk, hc, hheightc⟩ := ih hb' (by omega) (by omega)
          have hstep : Branch (parentOf index) p q := .of_parent ((parentOf_eq hp).trans hprev)
          have hless : b.nHeight - 1 = b'.nHeight := by omega
          refine ⟨c, ?_, hstep.trans hc, hheightc⟩
          dsimp only [bind, Except.bind]
          rw [hskip, hprev, hless]
          exact hwalk
    · refine ⟨p, if_neg hgt, .refl p, ?_⟩
      rw [heightOf_eq hp]
      omega

theorem getAncestor_spec (hl : Linked index) (hskips : Skips index) (hp : index[p]? = some b)
    (hle : height ≤ b.nHeight) :
    ∃ c, getAncestor index p height = .ok (some c) ∧ Branch (parentOf index) p c ∧
      heightOf index c = height := by
  obtain ⟨c, hwalk, hc, hheight⟩ := walk_spec hl hskips height b.nHeight hp hle (by omega)
  refine ⟨c, ?_, hc, hheight⟩
  unfold getAncestor
  rw [deref_eq hp]
  dsimp only [bind, Except.bind]
  rw [if_neg (by omega), Int.toNat_natCast, hwalk]
  rfl

theorem getAncestor_outside {b : CBlockIndex H} (hp : index[p]? = some b) {height : Int}
    (hout : height > b.nHeight ∨ height < 0) : getAncestor index p height = .ok none := by
  unfold getAncestor
  rw [deref_eq hp]
  dsimp only [bind, Except.bind]
  rw [if_pos hout]
  rfl

end

section

variable {H : Type} {index : List (CBlockIndex H)} {vChain : List (Option Ptr)}

def Holds (index : List (CBlockIndex H)) (vChain : List (Option Ptr)) (t : Ptr) : Prop :=
  vChain.length = heightOf index t + 1 ∧
    ∀ c, Branch (parentOf index) t c → vChain[heightOf index c]? = some (some c)

def ChainOf (index : List (CBlockIndex H)) (vChain : List (Option Ptr)) : Option Ptr → Prop
  | none => vChain = []
  | some t => t < index.length ∧ Holds index vChain t

theorem Holds.branch (hl : Linked index) (h : Holds index vChain t)
    (hx : vChain[n]? = some (some x)) : Branch (parentOf index) t x ∧ heightOf index x = n := by
  obtain ⟨hlt, -⟩ := List.getElem?_eq_some_iff.mp hx
  obtain ⟨c, hc, hheight⟩ := hl.leveled.exists_at (h := n) t (by rw [h.1] at hlt; omega)
  have hentry := h.2 c hc
  rw [hheight, hx] at hentry
  obtain rfl := Option.some.inj (Option.some.inj hentry)
  exact ⟨hc, hheight⟩

theorem resize_length (vChain : List (Option Ptr)) (size : Nat) :
    (resize vChain size).length = size := by
  rw [resize, length_append, length_take, length_replicate]
  omega

theorem resize_getElem? (vChain : List (Option Ptr)) (hn : n < size) :
    (resize vChain size)[n]? = some (vChain[n]?.join) := by
  unfold resize
  by_cases hlt : n < vChain.length
  · rw [getElem?_append_left (by rw [length_take]; omega), getElem?_take_of_lt hn,
      getElem?_eq_getElem hlt]
    rfl
  · rw [getElem?_append_right (by rw [length_take]; omega), length_take,
      getElem?_replicate, if_pos (by omega), getElem?_eq_none (not_lt.mp hlt)]
    rfl

theorem old_branch (hl : Linked index) (h : ChainOf index vChain last)
    (hsize : heightOf index x < size) (hx : (resize vChain size)[heightOf index x]? = some (some x))
    (hc : Branch (parentOf index) x c) :
    (resize vChain size)[heightOf index c]? = some (some c) := by
  have hle := hl.leveled.height_le hc
  rw [resize_getElem? vChain hsize] at hx
  have hentry := Option.join_eq_some_iff.mp (Option.some.inj hx)
  cases last with
  | none =>
    rw [h] at hentry
    cases hentry
  | some t =>
    have hbranch := (h.2.branch hl hentry).1.trans hc
    rw [resize_getElem? vChain (by omega), h.2.2 c hbranch]
    rfl

/-- The invariant of `SetTip` while it walks down. The entries above `x` are those of the new
branch, and below `x` the vector is as it was. -/
structure Setting (index : List (CBlockIndex H)) (old v : List (Option Ptr)) (t x : Ptr) :
    Prop where
  branch : Branch (parentOf index) t x
  length : v.length = heightOf index t + 1
  above : ∀ c, Branch (parentOf index) t c → heightOf index x < heightOf index c →
    v[heightOf index c]? = some (some c)
  below : ∀ i, i ≤ heightOf index x → v[i]? = old[i]?

theorem Setting.set_above (hl : Linked index) (h : Setting index old v t x)
    (hc : Branch (parentOf index) t c) (hle : heightOf index x ≤ heightOf index c) :
    (v.set (heightOf index x) (some x))[heightOf index c]? = some (some c) := by
  have hx : heightOf index x < v.length := by
    have := hl.leveled.height_le h.branch
    have := h.length
    omega
  rcases Nat.eq_or_lt_of_le hle with heq | hlt
  · obtain rfl := hl.leveled.eq_of_height h.branch hc heq
    rw [getElem?_set_self hx]
  · rw [getElem?_set_ne (ne_of_lt hlt)]
    exact h.above c hc hlt

theorem setLoop_spec (hl : Linked index)
    (hold : ∀ x, Branch (parentOf index) t x → old[heightOf index x]? = some (some x) →
      ∀ c, Branch (parentOf index) x c → old[heightOf index c]? = some (some c)) (rounds : Nat)
    (hx : index[x]? = some b) (h : Setting index old v t x) (hrounds : b.nHeight < rounds) :
    ∃ v', setLoop index rounds (some x) v = .ok v' ∧ Holds index v' t := by
  induction rounds generalizing x b v with
  | zero => omega
  | succ rounds ih =>
    have hheight := heightOf_eq hx
    have hle := hl.leveled.height_le h.branch
    have hlt : b.nHeight < v.length := by
      have := h.length
      omega
    rw [setLoop, deref_eq hx]
    dsimp only [bind, Except.bind]
    rw [getElem?_eq_getElem hlt]
    dsimp only
    by_cases hentry : v[b.nHeight] = some x
    · rw [if_pos hentry]
      refine ⟨v, rfl, h.length, fun c hc => ?_⟩
      by_cases habove : heightOf index x < heightOf index c
      · exact h.above c hc habove
      · -- From `x` down the old chain is the branch already.
        have hxc := hl.leveled.branch_of_le h.branch hc (not_lt.mp habove)
        have hat : old[heightOf index x]? = some (some x) := by
          rw [← h.below _ le_rfl, hheight, getElem?_eq_getElem hlt, hentry]
        rw [h.below _ (not_lt.mp habove)]
        exact hold x h.branch hat c hxc
    · rw [if_neg hentry, ← hheight]
      have hset := fun c hc hle => h.set_above hl (c := c) hc hle
      have hlength : (v.set (heightOf index x) (some x)).length = heightOf index t + 1 := by
        rw [length_set, h.length]
      cases hprev : b.pprev with
      | none =>
        have hzero := hl.root hx hprev
        refine ⟨_, by rw [setLoop], hlength, fun c hc => hset c hc (by omega)⟩
      | some y =>
        obtain ⟨b', hb', hparent⟩ := hl.child hx hprev
        have hy := heightOf_eq hb'
        refine ih hb' ⟨?_, hlength, fun c hc hc' => hset c hc (by omega), fun i hi => ?_⟩ (by omega)
        · exact h.branch.trans (.of_parent ((parentOf_eq hx).trans hprev))
        · rw [getElem?_set_ne (by omega)]
          exact h.below i (by omega)

theorem setTip_spec (hl : Linked index) (h : ChainOf index vChain last) (ht : index[t]? = some b) :
    ∃ v, setTip index (some t) vChain = .ok v ∧ Holds index v t := by
  have hheight := heightOf_eq ht
  have hsetting : Setting index (resize vChain (b.nHeight + 1)) (resize vChain (b.nHeight + 1)) t t :=
    { branch := .refl t
      length := by rw [resize_length, hheight]
      above := fun c hc hlt => absurd (hl.leveled.height_le hc) (not_le.mpr hlt)
      below := fun _ _ => rfl }
  have hold : ∀ x, Branch (parentOf index) t x →
      (resize vChain (b.nHeight + 1))[heightOf index x]? = some (some x) →
      ∀ c, Branch (parentOf index) x c →
        (resize vChain (b.nHeight + 1))[heightOf index c]? = some (some c) := by
    intro x hx hentry c hc
    have := hl.leveled.height_le hx
    exact old_branch hl h (by omega) hentry hc
  obtain ⟨v, hv, hholds⟩ := setLoop_spec hl hold (b.nHeight + 2) ht hsetting (by omega)
  refine ⟨v, ?_, hholds⟩
  rw [setTip, deref_eq ht]
  exact hv

end

section

variable {H : Type} {index : List (CBlockIndex H)} {vChain : List (Option Ptr)}

def InChain (index : List (CBlockIndex H)) (vChain : List (Option Ptr)) (x : Ptr) : Prop :=
  vChain[heightOf index x]? = some (some x)

theorem chainAt_natCast (vChain : List (Option Ptr)) (n : Nat) :
    chainAt vChain n = vChain[n]?.join := by
  unfold chainAt
  split
  · rw [getElem?_eq_none (by omega)]
    rfl
  · rw [Int.toNat_natCast]

theorem contains_iff (hx : index[x]? = some b) :
    contains vChain x b = true ↔ InChain index vChain x := by
  unfold contains InChain
  rw [beq_iff_eq, chainAt_natCast, Option.join_eq_some_iff, heightOf_eq hx]

def IsFork (index : List (CBlockIndex H)) (vChain : List (Option Ptr)) (x : Ptr) :
    Option Ptr → Prop
  | none => ∀ g, Branch (parentOf index) x g → ¬InChain index vChain g
  | some f => Branch (parentOf index) x f ∧ InChain index vChain f ∧
      ∀ g, Branch (parentOf index) x g → InChain index vChain g →
        heightOf index g ≤ heightOf index f

theorem IsFork.of_lower (hxy : Branch (parentOf index) x y)
    (hbetween : ∀ g, Branch (parentOf index) x g → InChain index vChain g →
      Branch (parentOf index) y g) (h : IsFork index vChain y r) : IsFork index vChain x r := by
  cases r with
  | none => exact fun g hg hchain => h g (hbetween g hg hchain) hchain
  | some f =>
    obtain ⟨hf, hchain, hmax⟩ := h
    exact ⟨hxy.trans hf, hchain, fun g hg hg' => hmax g (hbetween g hg hg') hg'⟩

theorem forkLoop_spec (hl : Linked index) (rounds : Nat) (hx : index[x]? = some b)
    (hrounds : b.nHeight < rounds) :
    ∃ r, forkLoop index vChain rounds (some x) = .ok r ∧ IsFork index vChain x r := by
  induction rounds generalizing x b with
  | zero => omega
  | succ rounds ih =>
    rw [forkLoop, deref_eq hx]
    dsimp only [bind, Except.bind]
    by_cases hcontains : contains vChain x b = true
    · rw [if_pos hcontains]
      exact ⟨some x, rfl, .refl x, (contains_iff hx).mp hcontains,
        fun g hg _ => hl.leveled.height_le hg⟩
    · rw [if_neg hcontains]
      have hnot : ¬InChain index vChain x := fun h => hcontains ((contains_iff hx).mpr h)
      cases hprev : b.pprev with
      | none =>
        refine ⟨none, by rw [forkLoop], fun g hg hchain => ?_⟩
        have hzero := hl.root hx hprev
        have hle := hl.leveled.height_le hg
        rw [heightOf_eq hx, hzero] at hle
        obtain rfl := hl.leveled.eq_of_height (.refl x) hg (by rw [heightOf_eq hx]; omega)
        exact hnot hchain
      | some y =>
        obtain ⟨b', hb', hheight⟩ := hl.child hx hprev
        have hparent : parentOf index x = some y := (parentOf_eq hx).trans hprev
        obtain ⟨r, hr, hfork⟩ := ih hb' (by omega)
        refine ⟨r, hr, hfork.of_lower (.of_parent hparent) fun g hg hchain => ?_⟩
        rcases Relation.ReflTransGen.cases_head hg with rfl | ⟨y', hstep, hrest⟩
        · exact absurd hchain hnot
        · obtain rfl := Option.some.inj (hparent.symm.trans hstep)
          exact hrest

theorem findFork_spec (hl : Linked index) (hskips : Skips index) {b : CBlockIndex H}
    (hp : index[p]? = some b) :
    ∃ r, findFork index vChain (some p) = .ok r ∧ IsFork index vChain p r := by
  rw [findFork, deref_eq hp]
  dsimp only [bind, Except.bind]
  by_cases hgt : (b.nHeight : Int) > chainHeight vChain
  · rw [if_pos hgt]
    unfold chainHeight at hgt ⊢
    by_cases hempty : vChain.length = 0
    · rw [getAncestor_outside hp (Or.inr (by omega))]
      refine ⟨none, by dsimp only; rw [forkLoop], fun g _ hchain => ?_⟩
      rw [InChain, getElem?_eq_none (by omega)] at hchain
      cases hchain
    · have htop : ((vChain.length : Int) - 1) = ((vChain.length - 1 : Nat) : Int) := by omega
      obtain ⟨c, hc, hbranch, hheight⟩ :=
        getAncestor_spec hl hskips hp (by omega : vChain.length - 1 ≤ b.nHeight)
      obtain ⟨b', hb'⟩ := hl.exists_block hp hbranch
      rw [heightOf_eq hb'] at hheight
      obtain ⟨r, hr, hfork⟩ : ∃ r, forkLoop index vChain (b.nHeight + 1) (some c) = .ok r ∧
          IsFork index vChain c r := forkLoop_spec hl (b.nHeight + 1) hb' (by omega)
      rw [htop, hc]
      refine ⟨r, hr, hfork.of_lower hbranch fun g hg hchain => ?_⟩
      obtain ⟨hlt, -⟩ := List.getElem?_eq_some_iff.mp hchain
      exact hl.leveled.branch_of_le hbranch hg (by rw [heightOf_eq hb']; omega)
  · rw [if_neg hgt]
    exact forkLoop_spec hl (b.nHeight + 1) hp (by omega)

end

section

variable {H : Type} {index : List (CBlockIndex H)} {vChain : List (Option Ptr)}

structure Locates (index : List (CBlockIndex H)) (p : Ptr) (blocks : List Ptr) : Prop where
  decreasing : blocks.Pairwise fun a c => heightOf index c < heightOf index a
  ancestors : ∀ a ∈ blocks, Branch (parentOf index) p a
  first : blocks.head? = some p
  genesis : ∃ g, blocks.getLast? = some g ∧ heightOf index g = 0

theorem Locates.cons (hl : Linked index) (h : Locates index q blocks)
    (hbranch : Branch (parentOf index) p q) (hlt : heightOf index q < heightOf index p) :
    Locates index p (p :: blocks) where
  decreasing := by
    refine pairwise_cons.mpr ⟨fun a ha => ?_, h.decreasing⟩
    have := hl.leveled.height_le (h.ancestors a ha)
    omega
  ancestors := by
    intro a ha
    rcases mem_cons.mp ha with rfl | ha
    · exact .refl a
    · exact hbranch.trans (h.ancestors a ha)
  first := rfl
  genesis := by
    obtain ⟨g, hg, hzero⟩ := h.genesis
    refine ⟨g, ?_, hzero⟩
    rw [getLast?_cons, hg]
    rfl

theorem chainAt_ancestor (hl : Linked index) (h : ChainOf index vChain last)
    (hp : InChain index vChain p) (hn : n ≤ heightOf index p) :
    ∃ c, chainAt vChain n = some c ∧ Branch (parentOf index) p c ∧ heightOf index c = n := by
  cases last with
  | none =>
    rw [InChain, h] at hp
    cases hp
  | some t =>
    obtain ⟨c, hc, hheight⟩ := hl.leveled.exists_at p hn
    have htp := (h.2.branch hl hp).1
    refine ⟨c, ?_, hc, hheight⟩
    rw [chainAt_natCast, ← hheight, h.2.2 c (htp.trans hc)]
    rfl

theorem lowerBlock_spec (hl : Linked index) (hskips : Skips index) (h : ChainOf index vChain last)
    (hp : index[p]? = some b) (hn : n ≤ b.nHeight) :
    ∃ c, lowerBlock index vChain p b n = .ok (some c) ∧ Branch (parentOf index) p c ∧
      heightOf index c = n := by
  unfold lowerBlock
  by_cases hcontains : contains vChain p b = true
  · obtain ⟨c, hc, hbranch⟩ := chainAt_ancestor hl h ((contains_iff hp).mp hcontains)
      (hn.trans_eq (heightOf_eq hp).symm)
    rw [if_pos hcontains, hc]
    exact ⟨c, rfl, hbranch⟩
  · rw [if_neg hcontains]
    exact getAncestor_spec hl hskips hp hn

/-- The steps of the locator double no further than the way already gone, so they fit into an `int`
for blocks below height 2^30. -/
theorem locatorLoop_spec (hl : Linked index) (hskips : Skips index) (h : ChainOf index vChain last)
    (hstart : start < 2 ^ 30) (rounds : Nat) (hp : index[p]? = some b)
    (hrounds : b.nHeight < rounds) (hpos : 0 < nStep)
    (hstep : b.nHeight = 0 ∨ nStep + b.nHeight ≤ start + 1) (vHave : List Ptr) :
    ∃ blocks, locatorLoop index vChain rounds (some p) nStep vHave = .ok (vHave ++ blocks) ∧
      Locates index p blocks := by
  induction rounds generalizing p b nStep vHave with
  | zero => omega
  | succ rounds ih =>
    rw [locatorLoop, deref_eq hp]
    dsimp only [bind, Except.bind]
    by_cases hzero : b.nHeight = 0
    · rw [if_pos hzero]
      exact ⟨[p], rfl, pairwise_singleton _ _,
        fun a ha => by rw [mem_singleton.mp ha]; exact .refl p, rfl, p, rfl,
        (heightOf_eq hp).trans hzero⟩
    · obtain ⟨c, hnext, hbranch, hheight⟩ :=
        lowerBlock_spec hl hskips h hp (Nat.sub_le b.nHeight nStep)
      obtain ⟨b', hb'⟩ := hl.exists_block hp hbranch
      rw [heightOf_eq hb'] at hheight
      obtain ⟨nStep', hnStep, hpos', hle⟩ : ∃ nStep',
          nextStep nStep (vHave ++ [p]).length = .ok nStep' ∧ 0 < nStep' ∧ nStep' ≤ nStep * 2 := by
        unfold nextStep
        split
        · exact ⟨nStep * 2, if_pos (by omega), by omega, le_rfl⟩
        · exact ⟨nStep, rfl, hpos, by omega⟩
      obtain ⟨blocks, hblocks, hlocates⟩ :=
        ih hb' (by omega) hpos' (by omega) (vHave ++ [p])
      refine ⟨p :: blocks, ?_, hlocates.cons hl hbranch ?_⟩
      · rw [if_neg hzero, hnext]
        dsimp only
        rw [hnStep]
        dsimp only
        rw [hblocks, append_assoc]
        rfl
      · rw [heightOf_eq hp, heightOf_eq hb']
        omega

theorem locatorBlocks_spec (hl : Linked index) (hskips : Skips index)
    (h : ChainOf index vChain last) (hstart : pindex.or (tip vChain) = some p)
    (hp : index[p]? = some b) (hlow : b.nHeight < 2 ^ 30) :
    ∃ blocks, locatorBlocks index vChain pindex = .ok blocks ∧ Locates index p blocks := by
  obtain ⟨blocks, hblocks, hlocates⟩ :=
    locatorLoop_spec hl hskips h hlow (b.nHeight + 1) hp (by omega) Nat.one_pos (by omega) []
  refine ⟨blocks, ?_, hlocates⟩
  rw [locatorBlocks, hstart]
  dsimp only
  rw [deref_eq hp]
  exact hblocks

theorem mapM_deref (hl : Linked index) (hp : index[p]? = some b) (blocks : List Ptr)
    (hblocks : ∀ a ∈ blocks, Branch (parentOf index) p a) :
    ∃ vHave, blocks.mapM (deref index) = .ok vHave ∧
      vHave.map some = blocks.map fun a => index[a]? := by
  induction blocks with
  | nil => exact ⟨[], rfl, rfl⟩
  | cons a blocks ih =>
    obtain ⟨vHave, hvHave, hmap⟩ := ih fun c hc => hblocks c (mem_cons_of_mem _ hc)
    obtain ⟨b', hb'⟩ := hl.exists_block hp (hblocks a mem_cons_self)
    refine ⟨b' :: vHave, ?_, ?_⟩
    · rw [mapM_cons, deref_eq hb', hvHave]
      rfl
    · rw [map_cons, map_cons, hmap, hb']

end

section

variable {H : Type} {index index' : List (CBlockIndex H)}

def Extends (index index' : List (CBlockIndex H)) : Prop :=
  ∀ (p : Ptr) (b : CBlockIndex H), index[p]? = some b →
    ∃ b' : CBlockIndex H, index'[p]? = some b' ∧ b'.pprev = b.pprev ∧ b'.nHeight = b.nHeight

theorem Extends.height (h : Extends index index') (hp : index[p]? = some b) :
    heightOf index' p = heightOf index p := by
  obtain ⟨b', hb', -, hheight⟩ := h _ _ hp
  rw [heightOf_eq hb', heightOf_eq hp, hheight]

theorem Extends.parent (h : Extends index index') (hp : index[p]? = some b) :
    parentOf index' p = parentOf index p := by
  obtain ⟨b', hb', hprev, -⟩ := h _ _ hp
  rw [parentOf_eq hb', parentOf_eq hp, hprev]

theorem Extends.branch_iff (h : Extends index index') (hl : Linked index) (hp : index[p]? = some b) :
    Branch (parentOf index') p c ↔ Branch (parentOf index) p c := by
  constructor
  · intro hbranch
    induction hbranch with
    | refl => exact .refl p
    | tail _ hstep ih =>
      obtain ⟨b', hb'⟩ := hl.exists_block hp ih
      exact ih.trans (.of_parent (by rw [← h.parent hb', hstep]))
  · refine Branch.mono fun a a' hparent => ?_
    obtain ⟨b', hb', -⟩ := Option.bind_eq_some_iff.mp hparent
    rw [h.parent hb', hparent]

theorem Extends.chainOf (h : Extends index index') (hl : Linked index)
    (hchain : ChainOf index vChain last) : ChainOf index' vChain last := by
  cases last with
  | none => exact hchain
  | some t =>
    obtain ⟨hlt, hlength, hholds⟩ := hchain
    have ht := getElem?_eq_getElem hlt
    obtain ⟨b', hb', -⟩ := h _ _ ht
    refine ⟨(List.getElem?_eq_some_iff.mp hb').1, by rw [hlength, h.height ht], fun c hc => ?_⟩
    have hbranch := (h.branch_iff hl ht).mp hc
    obtain ⟨b₁, hb₁⟩ := hl.exists_block ht hbranch
    rw [h.height hb₁]
    exact hholds c hbranch

theorem Extends.skip (h : Extends index index') (hl : Linked index) (hp : index[p]? = some b)
    (hbranch : Branch (parentOf index) p s) :
    Branch (parentOf index') p s ∧ heightOf index' s = heightOf index s := by
  obtain ⟨b', hb'⟩ := hl.exists_block hp hbranch
  exact ⟨(h.branch_iff hl hp).mpr hbranch, h.height hb'⟩

/-- A forest of blocks in which every skip pointer leads to the ancestor of the right height, and
all heights fit. -/
structure Sound (index : List (CBlockIndex H)) : Prop where
  linked : Linked index
  skips : Skips index
  low : ∀ {p : Ptr} {b : CBlockIndex H}, index[p]? = some b → b.nHeight < 2 ^ 30

theorem getElem?_concat (h : (index ++ [b])[p]? = some c) : index[p]? = some c ∨ c = b := by
  rcases Nat.lt_trichotomy p index.length with hlt | rfl | hgt
  · exact .inl (by rwa [getElem?_append_left hlt] at h)
  · rw [getElem?_concat_length] at h
    exact Or.inr (Option.some.inj h).symm
  · rw [getElem?_eq_none (by simp; omega)] at h
    cases h

theorem extends_concat (b : CBlockIndex H) : Extends index (index ++ [b]) := by
  intro p b' hp
  obtain ⟨hlt, -⟩ := List.getElem?_eq_some_iff.mp hp
  exact ⟨b', by rw [getElem?_append_left hlt, hp], rfl, rfl⟩

/-- What has to hold of the pointers of a block `c` for it to stand at `p` in `index`. -/
structure Fits (index : List (CBlockIndex H)) (p : Ptr) (c : CBlockIndex H) : Prop where
  root : c.pprev = none → c.nHeight = 0
  child : ∀ q, c.pprev = some q → ∃ b : CBlockIndex H, index[q]? = some b ∧ c.nHeight = b.nHeight + 1
  skip : ∀ s, c.pskip = some s → (∃ b, index[p]? = some b) ∧ Branch (parentOf index) p s ∧
    heightOf index s = getSkipHeight c.nHeight
  low : c.nHeight < 2 ^ 30

theorem Sound.fits (h : Sound index) (hp : index[p]? = some b) : Fits index p b :=
  ⟨h.linked.root hp, fun _ => h.linked.child hp, fun _ hs => ⟨⟨b, hp⟩, h.skips hp hs⟩, h.low hp⟩

theorem Extends.sound (hext : Extends index index') (hl : Linked index)
    (h : ∀ p c, index'[p]? = some c → Fits index p c) : Sound index' := by
  refine ⟨⟨fun hc => (h _ _ hc).root, ?_⟩, ?_, fun hc => (h _ _ hc).low⟩
  · intro p q c hc hprev
    obtain ⟨b, hb, hheight⟩ := (h p c hc).child q hprev
    obtain ⟨b', hb', -, heq⟩ := hext q b hb
    exact ⟨b', hb', hheight.trans (by rw [heq])⟩
  · intro p s c hc hs
    obtain ⟨⟨b, hb⟩, hbranch, hheight⟩ := (h p c hc).skip s hs
    obtain ⟨hbranch', hheight'⟩ := hext.skip hl hb hbranch
    exact ⟨hbranch', hheight'.trans hheight⟩

theorem Sound.concat (h : Sound index) (hb : ∀ p, Fits index p b) : Sound (index ++ [b]) := by
  refine (extends_concat b).sound h.linked fun p c hc => ?_
  rcases getElem?_concat hc with hc | rfl
  · exact h.fits hc
  · exact hb p

theorem extends_set (hp : index[p]? = some b) (pskip : Option Ptr) :
    Extends index (index.set p { b with pskip }) := by
  intro q c hq
  by_cases hqp : p = q
  · subst hqp
    obtain rfl := Option.some.inj (hp.symm.trans hq)
    obtain ⟨hlt, -⟩ := List.getElem?_eq_some_iff.mp hp
    exact ⟨_, getElem?_set_self hlt, rfl, rfl⟩
  · exact ⟨c, by rw [getElem?_set_ne hqp, hq], rfl, rfl⟩

theorem getElem?_set (h : (index.set p b)[q]? = some c) : index[q]? = some c ∨ q = p ∧ c = b := by
  by_cases hqp : p = q
  · subst hqp
    rw [List.getElem?_set] at h
    simp only [if_true] at h
    split at h
    · exact Or.inr ⟨rfl, (Option.some.inj h).symm⟩
    · cases h
  · exact .inl (by rwa [getElem?_set_ne hqp] at h)

theorem Sound.set (h : Sound index) (hp : index[p]? = some b)
    (hskip : ∀ s ∈ pskip, Branch (parentOf index) p s ∧ heightOf index s = getSkipHeight b.nHeight) :
    Sound (index.set p { b with pskip }) := by
  refine (extends_set hp pskip).sound h.linked fun q c hc => ?_
  rcases getElem?_set hc with hc | ⟨rfl, rfl⟩
  · exact h.fits hc
  · have hb := h.fits hp
    exact ⟨hb.root, hb.child, fun s hs => ⟨⟨b, hp⟩, hskip s hs⟩, hb.low⟩

theorem buildSkip_spec (h : Sound index) (hp : index[p]? = some b) :
    ∃ index', buildSkip index p = .ok index' ∧ Sound index' ∧ Extends index index' := by
  unfold buildSkip
  rw [deref_eq hp]
  dsimp only [bind, Except.bind]
  cases hprev : b.pprev with
  | none => exact ⟨index, rfl, h, fun p b hp => ⟨b, hp, rfl, rfl⟩⟩
  | some q =>
    obtain ⟨b', hb', hheight⟩ := h.linked.child hp hprev
    have hlt := getSkipHeight_lt (by omega : 0 < b.nHeight)
    obtain ⟨s, hs, hbranch, hskip⟩ := getAncestor_spec h.linked h.skips hb'
      (by omega : getSkipHeight b.nHeight ≤ b'.nHeight)
    have hstep : Branch (parentOf index) p q := .of_parent ((parentOf_eq hp).trans hprev)
    refine ⟨_, by dsimp only; rw [hs, hprev]; rfl, h.set hp ?_, extends_set hp (some s)⟩
    intro s' hs'
    obtain rfl := Option.some.inj hs'
    exact ⟨hstep.trans hbranch, hskip⟩

end

section

variable {H : Type}

def Inv (w : World H) : Prop := Sound w.index ∧ ChainOf w.index w.vChain w.last

theorem exists_block {index : List (CBlockIndex H)} (h : p < index.length) :
    ∃ b, index[p]? = some b :=
  ⟨_, getElem?_eq_getElem h⟩

theorem step_inv {w : World H} (h : Inv w) {op : Op H} (hop : Allowed w op) :
    ∃ w', step w op = .ok w' ∧ Inv w' := by
  obtain ⟨hsound, hchain⟩ := h
  cases op with
  | genesis hash =>
    exact ⟨_, rfl, hsound.concat fun _ => ⟨fun _ => rfl, nofun, nofun, Nat.two_pow_pos 30⟩,
      (extends_concat _).chainOf hsound.linked hchain⟩
  | link hash pprev =>
    obtain ⟨hlt, hlow⟩ := hop
    obtain ⟨b, hb⟩ := exists_block hlt
    rw [heightOf_eq hb] at hlow
    have hfits : ∀ p, Fits w.index p ⟨hash, some pprev, none, b.nHeight + 1⟩ := by
      refine fun p => ⟨nofun, fun q hq => ?_, nofun, hlow⟩
      cases hq
      exact ⟨b, hb, rfl⟩
    exact ⟨_, by rw [step, deref_eq hb]; rfl, hsound.concat hfits,
      (extends_concat _).chainOf hsound.linked hchain⟩
  | buildSkip p =>
    obtain ⟨b, hb⟩ := exists_block hop
    obtain ⟨index', hindex, hsound', hext⟩ := buildSkip_spec hsound hb
    exact ⟨_, by rw [step, hindex]; rfl, hsound', hext.chainOf hsound.linked hchain⟩
  | setTip pindex =>
    cases pindex with
    | none => exact ⟨_, rfl, hsound, rfl⟩
    | some t =>
      have hlt : t < w.index.length := hop t rfl
      obtain ⟨b, hb⟩ := exists_block hlt
      obtain ⟨v, hv, hholds⟩ := setTip_spec hsound.linked hchain hb
      exact ⟨⟨w.index, v, some t⟩, by rw [step, hv]; rfl, hsound, hlt, hholds⟩

theorem reach_inv (h : Reach ((system H).under Allowed) w) : Inv w := by
  refine Reach.invariant ?_ ?_ h
  · rintro _ rfl
    refine ⟨⟨⟨?_, ?_⟩, ?_, ?_⟩, rfl⟩
    · intro p b hp
      cases hp
    · intro p q b hp
      cases hp
    · intro p s b hp
      cases hp
    · intro p b hp
      cases hp
  · rintro w op w' hw ⟨hop, hstep⟩
    obtain ⟨w₁, hw₁, hinv⟩ := step_inv hw hop
    obtain rfl : w₁ = w' := Except.ok.inj (hw₁.symm.trans hstep)
    exact hinv

theorem Holds.tip (h : Holds index vChain t) : tip vChain = some t := by
  rw [BlockChain.tip, getLast?_eq_getElem?, h.1, Nat.add_sub_cancel, h.2 t (.refl t)]
  rfl

/-- What the four functions are for. `GetAncestor`, `SetTip`, `FindFork` and `GetLocator` agree with
the branches of the tree of blocks. -/
structure Exact (w : World H) : Prop where
  ancestor : ∀ p < w.index.length, ∀ height ≤ heightOf w.index p,
    ∃ c, getAncestor w.index p height = .ok (some c) ∧ Branch (parentOf w.index) p c ∧
      heightOf w.index c = height
  no_ancestor : ∀ p < w.index.length, ∀ height : Int,
    height > heightOf w.index p ∨ height < 0 → getAncestor w.index p height = .ok none
  no_chain : w.last = none → w.vChain = []
  chain : ∀ t ∈ w.last, tip w.vChain = some t ∧ w.vChain.length = heightOf w.index t + 1 ∧
    ∀ c, Branch (parentOf w.index) t c → w.vChain[heightOf w.index c]? = some (some c)
  fork : ∀ p < w.index.length,
    ∃ r, findFork w.index w.vChain (some p) = .ok r ∧ IsFork w.index w.vChain p r
  locator : ∀ (pindex : Option Ptr) (p : Ptr), pindex.or (tip w.vChain) = some p →
    p < w.index.length →
    ∃ blocks vHave, Locates w.index p blocks ∧ getLocator w.index w.vChain pindex = .ok vHave ∧
      vHave.map some = blocks.map fun a => w.index[a]?.map CBlockIndex.hash
  progress : ∀ op, Allowed w op → ∃ w', step w op = .ok w'

theorem getLocator_spec {w : World H} (h : Inv w) {pindex : Option Ptr}
    (hstart : pindex.or (tip w.vChain) = some p) (hp : p < w.index.length) :
    ∃ blocks vHave, Locates w.index p blocks ∧ getLocator w.index w.vChain pindex = .ok vHave ∧
      vHave.map some = blocks.map fun a => w.index[a]?.map CBlockIndex.hash := by
  obtain ⟨hsound, hchain⟩ := h
  obtain ⟨b, hb⟩ := exists_block hp
  obtain ⟨blocks, hblocks, hlocates⟩ :=
    locatorBlocks_spec hsound.linked hsound.skips hchain hstart hb (hsound.low hb)
  obtain ⟨found, hfound, hmap⟩ := mapM_deref hsound.linked hb blocks hlocates.ancestors
  refine ⟨blocks, found.map CBlockIndex.hash, hlocates, ?_, ?_⟩
  · rw [getLocator, hblocks]
    dsimp only [bind, Except.bind]
    rw [hfound]
    rfl
  · have hhash := congrArg (map (Option.map CBlockIndex.hash)) hmap
    rw [map_map, map_map] at hhash
    rw [map_map]
    exact hhash

/-- In every history in which blocks at heights below 2^30 are linked to known parents, the skip
pointers and the chain give the answers that the branches have. -/
theorem skip_pointers_exact (w : World H) (h : Reach ((system H).under Allowed) w) : Exact w := by
  have hinv := reach_inv h
  obtain ⟨hsound, hchain⟩ := id hinv
  refine ⟨fun p hp height hle => ?_, fun p hp height hout => ?_, fun hlast => ?_, fun t ht => ?_,
    fun p hp => ?_, fun pindex p hstart hp => getLocator_spec hinv hstart hp, fun op hop => ?_⟩
  · obtain ⟨b, hb⟩ := exists_block hp
    rw [heightOf_eq hb] at hle
    exact getAncestor_spec hsound.linked hsound.skips hb hle
  · obtain ⟨b, hb⟩ := exists_block hp
    rw [heightOf_eq hb] at hout
    exact getAncestor_outside hb hout
  · rw [hlast] at hchain
    exact hchain
  · rw [ht] at hchain
    exact ⟨hchain.2.tip, hchain.2.1, hchain.2.2⟩
  · obtain ⟨b, hb⟩ := exists_block hp
    exact findFork_spec hsound.linked hsound.skips hb
  · obtain ⟨w', hw', -⟩ := step_inv hinv hop
    exact ⟨w', hw'⟩

def twoBranches : World Nat where
  index := [⟨100, none, none, 0⟩, ⟨101, some 0, some 0, 1⟩, ⟨102, some 1, some 0, 2⟩,
    ⟨103, some 0, none, 1⟩]
  vChain := [some 0, some 1, some 2]
  last := some 2

theorem reach_next (h : Reach ((system H).under Allowed) w) (op : Op H) (hstep : step w op = .ok w')
    (hop : Allowed w op) : Reach ((system H).under Allowed) w' :=
  .step h ⟨hop, hstep⟩

theorem twoBranches_reach : Reach ((system Nat).under Allowed) twoBranches := by
  have h₁ := reach_next (.start rfl) (Op.genesis 100) rfl trivial
  have h₂ := reach_next h₁ (.link 101 0) rfl ⟨by decide, by decide⟩
  have h₃ := reach_next h₂ (.buildSkip 1) rfl (by unfold Allowed; decide)
  have h₄ := reach_next h₃ (.link 102 1) rfl ⟨by decide, by decide⟩
  have h₅ := reach_next h₄ (.buildSkip 2) rfl (by unfold Allowed; decide)
  have h₆ := reach_next h₅ (.link 103 0) rfl ⟨by decide, by decide⟩
  have h₇ := reach_next h₆ (.setTip (some 3)) rfl (by unfold Allowed; decide)
  exact reach_next h₇ (.setTip (some 2)) rfl (by unfold Allowed; decide)

theorem skip_pointers_exact_twoBranches :
    Reach ((system Nat).under Allowed) twoBranches ∧ Exact twoBranches :=
  ⟨twoBranches_reach, skip_pointers_exact twoBranches twoBranches_reach⟩

end

end Utsuite.BlockChain
