import Utsuite.PairLevels
import Mathlib.Data.Nat.Pairing

namespace Utsuite.Merkle

open PairLevels List

variable {H : Type} (hash : H → H → H)

structure Cursor (H : Type) where
  level : Nat
  h : H
  matchh : Bool
  mutated : Bool
  pbranch : Option (List H)

def record (inner : Nat → H) (matchlevel : Int) (c : Cursor H) : Bool × Option (List H) :=
  match c.pbranch with
  | none => (c.matchh, none)
  | some branch =>
    if c.matchh then (true, some (branch ++ [inner c.level]))
    else if matchlevel = c.level then (true, some (branch ++ [c.h]))
    else (false, some branch)

/-- Two nodes become one. Only the loop over the leaves looks for equal values. -/
def combine [DecidableEq H] (detect : Bool) (inner : Nat → H) (matchlevel : Int) (c : Cursor H) : Cursor H where
  level := c.level + 1
  h := hash (inner c.level) c.h
  matchh := (record inner matchlevel c).1
  mutated := c.mutated || (detect && inner c.level == c.h)
  pbranch := (record inner matchlevel c).2

/-- The loop that combines nodes. At level 32 both the shift and the access to `inner` would be
undefined, which is `none`. -/
def combineLoop [DecidableEq H] (detect : Bool) (count : Nat) (inner : Nat → H) (matchlevel : Int) :
    Nat → Cursor H → Option (Cursor H)
  | 0, _ => none
  | left + 1, c =>
    if count.testBit c.level then some c
    else combineLoop detect count inner matchlevel left (combine hash detect inner matchlevel c)

structure State (H : Type) where
  count : Nat
  inner : Nat → H
  matchlevel : Int
  mutated : Bool
  pbranch : Option (List H)

def addLeaf [DecidableEq H] (branchpos : Nat) (s : State H) (leaf : H) : Option (State H) :=
  let count := (s.count + 1) % 2 ^ 32
  (combineLoop hash true count s.inner s.matchlevel 32
      { level := 0, h := leaf, matchh := s.count == branchpos, mutated := s.mutated,
        pbranch := s.pbranch }).map fun c =>
    { count := count
      inner := Function.update s.inner c.level c.h
      matchlevel := if c.matchh then c.level else s.matchlevel
      mutated := c.mutated
      pbranch := c.pbranch }

def lowLevel (count : Nat) : Nat → Nat → Option Nat
  | 0, _ => none
  | left + 1, level => if count.testBit level then some level else lowLevel count left (level + 1)

def double (c : Cursor H) : Cursor H where
  level := c.level + 1
  h := hash c.h c.h
  matchh := c.matchh
  mutated := c.mutated
  pbranch := if c.matchh then c.pbranch.map (· ++ [c.h]) else c.pbranch

def sweep [DecidableEq H] (inner : Nat → H) (matchlevel : Int) : Nat → Nat → Cursor H → Option (Cursor H)
  | 0, _, _ => none
  | left + 1, count, c =>
    if count = 2 ^ c.level then some c
    else
      let count := (count + 2 ^ c.level) % 2 ^ 32
      (combineLoop hash false count inner matchlevel (32 - (c.level + 1)) (double hash c)).bind
        fun c => sweep inner matchlevel left count c

def merkleComputation [DecidableEq H] (null : H) (leaves : List H) (branchpos : Nat) (pbranch : Bool) :
    Option (H × Bool × Option (List H)) :=
  let branch := if pbranch then some [] else none
  if leaves.length = 0 then some (null, false, branch)
  else do
    let s ← leaves.foldlM (addLeaf hash branchpos)
      { count := 0, inner := fun _ => null, matchlevel := -1, mutated := false, pbranch := branch }
    let level ← lowLevel s.count 32 0
    let c ← sweep hash s.inner s.matchlevel 32 s.count
      { level := level, h := s.inner level, matchh := s.matchlevel == level,
        mutated := s.mutated, pbranch := s.pbranch }
    some (c.h, c.mutated, c.pbranch)

def computeMerkleRoot [DecidableEq H] (null : H) (leaves : List H) : Option (H × Bool) :=
  (merkleComputation hash null leaves (2 ^ 32 - 1) false).map fun r => (r.1, r.2.1)

def computeMerkleBranch [DecidableEq H] (null : H) (leaves : List H) (position : Nat) : Option (List H) :=
  (merkleComputation hash null leaves position true).bind fun r => r.2.2

def rootFromBranchStep (s : H × Nat) (it : H) : H × Nat :=
  (if s.2 % 2 = 1 then hash it s.1 else hash s.1 it, s.2 / 2)

def computeMerkleRootFromBranch (leaf : H) (vMerkleBranch : List H) (nIndex : Nat) : H :=
  (vMerkleBranch.foldl (rootFromBranchStep hash) (leaf, nIndex)).1

section

variable {a b c l m : Nat}

theorem div_two_pow_succ (a l : Nat) : a / 2 ^ (l + 1) = a / 2 ^ l / 2 := by
  rw [pow_succ, Nat.div_div_eq_div_mul]

theorem div_two_pow_congr (hlm : l ≤ m) (h : a / 2 ^ l = b / 2 ^ l) : a / 2 ^ m = b / 2 ^ m := by
  obtain ⟨k, rfl⟩ := Nat.le.dest hlm
  rw [pow_add, ← Nat.div_div_eq_div_mul, ← Nat.div_div_eq_div_mul, h]

theorem testBit_eq_true : a.testBit l = true ↔ a / 2 ^ l % 2 = 1 := by
  rw [Nat.testBit_eq_decide_div_mod_eq, decide_eq_true_eq]

theorem div_of_end (h : c = (a / 2 ^ l + 1) * 2 ^ l) : c / 2 ^ l = a / 2 ^ l + 1 := by
  rw [h, Nat.mul_div_cancel _ (Nat.two_pow_pos l)]

theorem div_above_of_end (h : c = (a / 2 ^ l + 1) * 2 ^ l) (heven : a / 2 ^ l % 2 = 0)
    (hlm : l < m) : c / 2 ^ m = a / 2 ^ m := by
  refine div_two_pow_congr (Nat.succ_le_of_lt hlm) ?_
  rw [div_two_pow_succ, div_two_pow_succ, div_of_end h]
  omega

theorem end_succ (h : c = (a / 2 ^ l + 1) * 2 ^ l) (hodd : a / 2 ^ l % 2 = 1) :
    c = (a / 2 ^ (l + 1) + 1) * 2 ^ (l + 1) := by
  have hq : a / 2 ^ l + 1 = (a / 2 ^ l / 2 + 1) * 2 := by omega
  rw [h, hq, div_two_pow_succ, pow_succ']
  ring

theorem even_of_dvd (h : 2 ^ (l + 1) ∣ c) : c / 2 ^ l % 2 = 0 := by
  obtain ⟨k, rfl⟩ := h
  rw [pow_succ, mul_assoc, Nat.mul_div_cancel_left _ (Nat.two_pow_pos l)]
  exact Nat.mul_mod_right 2 k

theorem level_lt_of_end (h : c = (a / 2 ^ l + 1) * 2 ^ l) (hc : c < 2 ^ m) : l < m := by
  refine (Nat.pow_lt_pow_iff_right (Nat.one_lt_two)).mp (lt_of_le_of_lt ?_ hc)
  rw [h]
  exact Nat.le_mul_of_pos_left _ (Nat.succ_pos _)

end

variable {hash} {xs : List H} {p o count : Nat} {inner : Nat → H} {matchlevel : Int}

def Kept (hash : H → H → H) (xs : List H) (inner : Nat → H) (o l : Nat) : Prop :=
  ∀ m, l ≤ m → o / 2 ^ m % 2 = 1 → Node hash xs m (o / 2 ^ m - 1) (inner m)

/-- The leaf `p` is still to come, or it lies below a node that is kept at level `l` or higher. -/
def Pending (hash : H → H → H) (xs : List H) (p o l : Nat) (matchlevel : Int)
    (branch : List H) : Prop :=
  (o ≤ p ∧ matchlevel = -1 ∧ branch = []) ∨
    ∃ m : Nat, l ≤ m ∧ matchlevel = m ∧ o / 2 ^ m % 2 = 1 ∧ p / 2 ^ m + 1 = o / 2 ^ m ∧
      Path hash xs p m branch

def Found (hash : H → H → H) (xs : List H) (p o : Nat) (c : Cursor H) (branch : List H) : Prop :=
  c.matchh = true ∧ p / 2 ^ c.level = o / 2 ^ c.level ∧ Path hash xs p c.level branch

/-- The invariant of the loop over the leaves: `o` is the last one read, and its node at this level
ends at `count`. -/
structure Combining (hash : H → H → H) (xs : List H) (p o count : Nat) (matchlevel : Int)
    (twins : Prop) (wanted detect : Bool) (c : Cursor H) : Prop where
  ends : count = (o / 2 ^ c.level + 1) * 2 ^ c.level
  node : Node hash xs c.level (o / 2 ^ c.level) c.h
  recorded : c.pbranch.isSome = wanted
  path : p < xs.length → ∀ branch, c.pbranch = some branch → Found hash xs p o c branch ∨
    (c.matchh = false ∧ p / 2 ^ c.level ≠ o / 2 ^ c.level ∧
      Pending hash xs p o c.level matchlevel branch)
  mutated : c.mutated = true ↔
    twins ∨ (detect = true ∧ ∃ l < c.level, TwinsAt hash xs count l)

theorem Combining.left (h : Combining hash xs p o count matchlevel twins wanted detect c)
    (hodd : o / 2 ^ c.level % 2 = 1) (hkept : Kept hash xs inner o c.level) :
    ∃ j, o / 2 ^ c.level = 2 * j + 1 ∧ o / 2 ^ (c.level + 1) = j ∧
      count = (2 * j + 2) * 2 ^ c.level ∧ Node hash xs c.level (2 * j) (inner c.level) ∧
      Node hash xs c.level (2 * j + 1) c.h := by
  obtain ⟨j, hj⟩ : ∃ j, o / 2 ^ c.level = 2 * j + 1 := ⟨o / 2 ^ c.level / 2, by omega⟩
  have hup : o / 2 ^ (c.level + 1) = j := by
    rw [div_two_pow_succ, hj]
    omega
  have hleft := hkept c.level (le_refl _) hodd
  have hends := h.ends
  have hnode := h.node
  rw [hj] at hleft hends hnode
  exact ⟨j, hj, hup, hends, hleft, hnode⟩

theorem Pending.next (h : Pending hash xs p o l matchlevel branch) (hodd : o / 2 ^ l % 2 = 1)
    (hp : p / 2 ^ l ≠ o / 2 ^ l) (hl : matchlevel ≠ l) :
    p / 2 ^ (l + 1) ≠ o / 2 ^ (l + 1) ∧ Pending hash xs p o (l + 1) matchlevel branch := by
  rcases h with ⟨hop, hml, hb⟩ | ⟨m, hlm, hml, hm, hpm, hpath⟩
  · have hle : o / 2 ^ l ≤ p / 2 ^ l := Nat.div_le_div_right hop
    refine ⟨?_, .inl ⟨hop, hml, hb⟩⟩
    rw [div_two_pow_succ, div_two_pow_succ]
    omega
  · have hlt : l + 1 ≤ m := by
      rcases Nat.eq_or_lt_of_le hlm with heq | hlt
      · exact absurd (by rw [hml, heq]) hl
      · exact hlt
    refine ⟨fun heq => ?_, .inr ⟨m, hlt, hml, hm, hpm, hpath⟩⟩
    have := div_two_pow_congr hlt heq
    omega

theorem Combining.path_combine [DecidableEq H]
    (h : Combining hash xs p o count matchlevel twins wanted detect c)
    (hodd : o / 2 ^ c.level % 2 = 1) (hkept : Kept hash xs inner o c.level) (hin : p < xs.length)
    (branch : List H) (hbranch : (record inner matchlevel c).2 = some branch) :
    Found hash xs p o (combine hash detect inner matchlevel c) branch ∨
      ((record inner matchlevel c).1 = false ∧ p / 2 ^ (c.level + 1) ≠ o / 2 ^ (c.level + 1) ∧
        Pending hash xs p o (c.level + 1) matchlevel branch) := by
  obtain ⟨j, hj, hup, -, hleft, hright⟩ := h.left hodd hkept
  unfold Found combine
  unfold record at hbranch ⊢
  cases hb : c.pbranch with
  | none => rw [hb] at hbranch; cases hbranch
  | some b =>
    have hpath := h.path hin b hb
    rw [hb] at hbranch
    dsimp only at hbranch ⊢
    by_cases hm : c.matchh = true
    · rw [if_pos hm] at hbranch ⊢
      obtain ⟨-, hp, hpath⟩ := hpath.resolve_right fun h => by simp [hm] at h
      have hsib : Sibling hash xs c.level (p / 2 ^ c.level) (inner c.level) := by
        have hpodd : p / 2 ^ c.level % 2 = 1 := by rw [hp, hodd]
        unfold Sibling
        rw [if_pos hpodd, hp, hj]
        exact hleft
      cases hbranch
      refine .inl ⟨rfl, ?_, hpath.snoc hsib⟩
      rw [div_two_pow_succ, div_two_pow_succ, hp]
    · rw [if_neg hm] at hbranch ⊢
      obtain ⟨-, hp, hpend⟩ := hpath.resolve_left fun h => hm h.1
      by_cases hl : matchlevel = c.level
      · rw [if_pos hl] at hbranch ⊢
        -- the leaf is below the node kept here, which is the left one
        obtain ⟨m, hlm, hml, -, hpm, hpath⟩ := hpend.resolve_left fun h => by omega
        obtain rfl : m = c.level := by omega
        have hpj : p / 2 ^ c.level = 2 * j := by omega
        have hsib : Sibling hash xs c.level (p / 2 ^ c.level) c.h := by
          have hpeven : ¬ p / 2 ^ c.level % 2 = 1 := by omega
          unfold Sibling
          rw [if_neg hpeven, hpj]
          exact .inl hright
        cases hbranch
        refine .inl ⟨rfl, ?_, hpath.snoc hsib⟩
        rw [div_two_pow_succ, hpj, hup]
        omega
      · rw [if_neg hl] at hbranch ⊢
        cases hbranch
        obtain ⟨hp', hpend'⟩ := hpend.next hodd hp hl
        exact .inr ⟨rfl, hp', hpend'⟩

theorem Pending.settle (h : Pending hash xs p o l matchlevel branch)
    (hends : count = (o / 2 ^ l + 1) * 2 ^ l) (heven : o / 2 ^ l % 2 = 0)
    (hp : p / 2 ^ l ≠ o / 2 ^ l) : Pending hash xs p count (l + 1) matchlevel branch := by
  rcases h with ⟨hop, hml, hb⟩ | ⟨m, hlm, hml, hm, hpm, hpath⟩
  · have hle : o / 2 ^ l ≤ p / 2 ^ l := Nat.div_le_div_right hop
    have hlt : o / 2 ^ l + 1 ≤ p / 2 ^ l := by omega
    refine .inl ⟨?_, hml, hb⟩
    rw [hends]
    exact (Nat.mul_le_mul_right _ hlt).trans (Nat.div_mul_le_self p _)
  · have hlt : l < m := by
      refine lt_of_le_of_ne hlm fun heq => ?_
      subst heq
      omega
    have habove := div_above_of_end hends heven hlt
    refine .inr ⟨m, hlt, hml, ?_, ?_, hpath⟩
    · rw [habove]; exact hm
    · rw [habove]; exact hpm

theorem Kept.mono (h : Kept hash xs inner o l) (hle : l ≤ l') : Kept hash xs inner o l' :=
  fun m hm => h m (hle.trans hm)

theorem Kept.settle (h : Kept hash xs inner o l) (hends : count = (o / 2 ^ l + 1) * 2 ^ l)
    (heven : o / 2 ^ l % 2 = 0) : Kept hash xs inner count (l + 1) := by
  intro m hlm hm
  have habove := div_above_of_end hends heven hlm
  rw [habove] at hm ⊢
  exact h m (Nat.le_of_succ_le hlm) hm

theorem isSome_record (inner : Nat → H) (matchlevel : Int) (c : Cursor H) :
    (record inner matchlevel c).2.isSome = c.pbranch.isSome := by
  unfold record
  split
  · next h => rw [h]
  · next b h => rw [h]; split_ifs <;> rfl

structure Processed (hash : H → H → H) (xs : List H) (p : Nat) (wanted : Bool) (s : State H) :
    Prop where
  kept : Kept hash xs s.inner s.count 0
  recorded : s.pbranch.isSome = wanted
  path : p < xs.length → ∀ branch, s.pbranch = some branch →
    Pending hash xs p s.count 0 s.matchlevel branch
  mutated : s.mutated = true ↔ TwinsWithin hash xs s.count

theorem Processed.start (h : Processed hash xs p wanted s) (hleaf : xs[s.count]? = some leaf) :
    Combining hash xs p s.count (s.count + 1) s.matchlevel (TwinsWithin hash xs s.count) wanted true
      { level := 0, h := leaf, matchh := s.count == p, mutated := s.mutated,
        pbranch := s.pbranch } := by
  refine ⟨?_, ?_, h.recorded, ?_, ?_⟩
  · rw [pow_zero, Nat.div_one, mul_one]
  · rw [pow_zero, Nat.div_one]
    exact hleaf
  · intro hin branch hbranch
    have hpend := h.path hin branch hbranch
    unfold Found
    rw [pow_zero, Nat.div_one, Nat.div_one]
    by_cases heq : s.count = p
    · rcases hpend with ⟨-, -, rfl⟩ | ⟨m, -, -, -, hpm, -⟩
      · exact .inl ⟨beq_iff_eq.mpr heq, heq.symm, Path.nil⟩
      · rw [heq] at hpm
        omega
    · exact .inr ⟨beq_eq_false_iff_ne.mpr heq, Ne.symm heq, hpend⟩
  · rw [h.mutated]
    constructor
    · exact .inl
    · rintro (ht | ⟨-, l, hl, -⟩)
      · exact ht
      · exact absurd hl (Nat.not_lt_zero l)

theorem twinsWithin_succ (hodd : (o + 1) / 2 ^ l % 2 = 1) :
    TwinsWithin hash xs (o + 1) ↔
      TwinsWithin hash xs o ∨ ∃ m < l, TwinsAt hash xs (o + 1) m := by
  constructor
  · rintro ⟨d, hd, m, ht⟩
    rcases Nat.le_succ_iff.mp hd with hd | rfl
    · exact .inl ⟨d, hd, m, ht⟩
    · refine .inr ⟨m, Nat.lt_of_not_le fun hlm => ?_, ht⟩
      obtain ⟨j, a, hj, -, -⟩ := ht
      have hdvd : 2 ^ (l + 1) ∣ o + 1 := by
        have hm : o + 1 = (j + 1) * 2 ^ (m + 1) := hj.symm.trans (by ring)
        rw [hm]
        exact Dvd.dvd.mul_left (Nat.pow_dvd_pow 2 (Nat.succ_le_succ hlm)) _
      have := even_of_dvd hdvd
      omega
  · rintro (⟨d, hd, m, ht⟩ | ⟨m, -, ht⟩)
    · exact ⟨d, Nat.le_succ_of_le hd, m, ht⟩
    · exact ⟨o + 1, le_refl _, m, ht⟩

theorem lowLevel_spec (hdvd : 2 ^ l ∣ count) (hpos : 0 < count) (hcount : count < 2 ^ 32)
    (hleft : 32 ≤ left + l) :
    ∃ l', lowLevel count left l = some l' ∧ 2 ^ l' ∣ count ∧ count / 2 ^ l' % 2 = 1 := by
  induction left generalizing l with
  | zero =>
    have hl : l < 32 := (Nat.pow_lt_pow_iff_right Nat.one_lt_two).mp
      (lt_of_le_of_lt (Nat.le_of_dvd hpos hdvd) hcount)
    omega
  | succ left ih =>
    rw [lowLevel]
    by_cases hset : count.testBit l = true
    · rw [if_pos hset]
      exact ⟨l, rfl, hdvd, testBit_eq_true.mp hset⟩
    · rw [if_neg hset]
      rw [testBit_eq_true] at hset
      refine ih ?_ (by omega)
      have htwo : 2 ∣ count / 2 ^ l := Nat.dvd_of_mod_eq_zero (by omega)
      rw [pow_succ]
      exact (Nat.dvd_div_iff_mul_dvd hdvd).mp htwo

/-- The invariant of the last loop: the node at the cursor is the last of its level and a left
child. -/
structure Sweeping (hash : H → H → H) (xs : List H) (p : Nat) (inner : Nat → H) (matchlevel : Int)
    (twins : Prop) (wanted : Bool) (count q : Nat) (c : Cursor H) : Prop where
  ends : count = (2 * q + 1) * 2 ^ c.level
  node : Node hash xs c.level (2 * q) c.h
  all : xs.length ≤ count
  few : count < 2 * xs.length
  kept : Kept hash xs inner count (c.level + 1)
  recorded : c.pbranch.isSome = wanted
  path : p < xs.length → ∀ branch, c.pbranch = some branch →
    (c.matchh = true ∧ p / 2 ^ c.level = 2 * q ∧ Path hash xs p c.level branch) ∨
      (c.matchh = false ∧ Pending hash xs p count (c.level + 1) matchlevel branch)
  mutated : c.mutated = true ↔ twins

theorem Combining.sweeping (h : Combining hash xs p o count matchlevel twins wanted false c)
    (heven : o / 2 ^ c.level % 2 = 0) (hkept : Kept hash xs inner o c.level)
    (hall : xs.length ≤ count) (hfew : count < 2 * xs.length) :
    Sweeping hash xs p inner matchlevel twins wanted count (o / 2 ^ c.level / 2) c := by
  have hq : 2 * (o / 2 ^ c.level / 2) = o / 2 ^ c.level := by omega
  refine ⟨?_, ?_, hall, hfew, hkept.settle h.ends heven, h.recorded, ?_, ?_⟩
  · rw [hq]
    exact h.ends
  · rw [hq]
    exact h.node
  · intro hin branch hbranch
    rw [hq]
    rcases h.path hin branch hbranch with hfound | ⟨hm, hp, hpend⟩
    · exact .inl hfound
    · exact .inr ⟨hm, hpend.settle h.ends heven hp⟩
  · rw [h.mutated]
    exact ⟨fun h => h.resolve_right fun h => Bool.false_ne_true h.1, .inl⟩

section

variable {twins : Prop} {wanted : Bool} {q : Nat} {c : Cursor H}

theorem Sweeping.div_succ
    (h : Sweeping hash xs p inner matchlevel twins wanted count q c) :
    count / 2 ^ (c.level + 1) = q := by
  rw [div_two_pow_succ, h.ends, Nat.mul_div_cancel _ (Nat.two_pow_pos _)]
  omega

theorem Sweeping.double (h : Sweeping hash xs p inner matchlevel twins wanted count q c) :
    Combining hash xs p count (count + 2 ^ c.level) matchlevel twins wanted false
      (double hash c) := by
  have hdiv := h.div_succ
  have hpair : (2 * q + 1) * 2 ^ c.level + 2 ^ c.level = (q + 1) * 2 ^ (c.level + 1) := by ring
  refine ⟨?_, ?_, ?_, ?_, ?_⟩
  · change count + 2 ^ c.level = (count / 2 ^ (c.level + 1) + 1) * 2 ^ (c.level + 1)
    rw [hdiv, ← hpair, ← h.ends]
  · change Node hash xs (c.level + 1) (count / 2 ^ (c.level + 1)) (hash c.h c.h)
    rw [hdiv]
    exact h.node.self (h.ends ▸ h.all)
  · rw [← h.recorded]
    unfold Merkle.double
    split_ifs
    · exact Option.isSome_map
    · rfl
  · intro hin branch hbranch
    unfold Found
    unfold Merkle.double at hbranch ⊢
    rw [hdiv]
    by_cases hm : c.matchh = true
    · rw [if_pos hm, Option.map_eq_some_iff] at hbranch
      obtain ⟨b, hb, rfl⟩ := hbranch
      obtain ⟨-, hp, hpath⟩ := (h.path hin b hb).resolve_right fun h => by simp [hm] at h
      have hsib : Sibling hash xs c.level (p / 2 ^ c.level) c.h := by
        have heven : ¬ 2 * q % 2 = 1 := by omega
        have hend := h.ends ▸ h.all
        unfold Sibling
        rw [hp, if_neg heven]
        exact Or.inr ⟨Nat.le_of_not_lt fun hlt => Nat.not_lt.mpr hend (lt_length_level.mp hlt),
          h.node⟩
      refine .inl ⟨hm, ?_, hpath.snoc hsib⟩
      rw [div_two_pow_succ, hp]
      omega
    · rw [if_neg hm] at hbranch
      obtain ⟨hmf, hpend⟩ := (h.path hin branch hbranch).resolve_left fun h => hm h.1
      refine .inr ⟨hmf, fun heq => ?_, hpend⟩
      have hall := h.all
      rcases hpend with ⟨hle, -, -⟩ | ⟨m, hlm, -, -, hpm, -⟩
      · omega
      · have := div_two_pow_congr hlm (heq.trans hdiv.symm)
        omega
  · rw [← h.mutated]
    constructor
    · exact .inl
    · rintro (ht | ⟨hf, -⟩)
      · exact ht
      · cases hf

end

theorem foldl_rootFromBranchStep (h : Path hash xs p k branch) (hleaf : xs[p]? = some leaf) :
    ∃ a, branch.foldl (rootFromBranchStep hash) (leaf, p) = (a, p / 2 ^ k) ∧
      Node hash xs k (p / 2 ^ k) a := by
  induction h with
  | nil =>
    rw [pow_zero, Nat.div_one]
    exact ⟨leaf, rfl, hleaf⟩
  | snoc _ hsib ih =>
    obtain ⟨a, ha, hnode⟩ := ih
    refine ⟨_, ?_, by rw [div_two_pow_succ]; exact hsib.above hnode⟩
    rw [foldl_append, ha, div_two_pow_succ]
    rfl

theorem Processed.sweeping (h : Processed hash xs p wanted s) (hcount : s.count = xs.length)
    (hdvd : 2 ^ l ∣ s.count) (hpos : 0 < s.count) (hodd : s.count / 2 ^ l % 2 = 1) :
    Sweeping hash xs p s.inner s.matchlevel (TwinsWithin hash xs xs.length) wanted s.count
      (s.count / 2 ^ l / 2)
      { level := l, h := s.inner l, matchh := s.matchlevel == l, mutated := s.mutated,
        pbranch := s.pbranch } := by
  have hq : 2 * (s.count / 2 ^ l / 2) + 1 = s.count / 2 ^ l := by omega
  refine ⟨?_, ?_, hcount.ge, by omega, h.kept.mono (Nat.zero_le _), h.recorded, ?_, ?_⟩
  · rw [hq, Nat.div_mul_cancel hdvd]
  · have := h.kept l (Nat.zero_le l) hodd
    rw [← hq, Nat.add_sub_cancel] at this
    exact this
  · intro hin branch hbranch
    dsimp only
    obtain ⟨m, -, hml, hm, hpm, hpath⟩ :=
      (h.path hin branch hbranch).resolve_left fun h => by omega
    by_cases heq : m = l
    · subst heq
      exact .inl ⟨beq_iff_eq.mpr hml, by omega, hpath⟩
    · -- below the lowest bit there is none
      have hlm : l + 1 ≤ m := by
        refine Nat.lt_of_not_le fun hle => ?_
        have := even_of_dvd ((Nat.pow_dvd_pow 2 (lt_of_le_of_ne hle heq)).trans hdvd)
        omega
      refine .inr ⟨beq_eq_false_iff_ne.mpr ?_, .inr ⟨m, hlm, hml, hm, hpm, hpath⟩⟩
      omega
  · rw [h.mutated, hcount]

section

variable [DecidableEq H] {twins : Prop} {wanted detect : Bool} {c : Cursor H}

theorem Combining.combine (h : Combining hash xs p o count matchlevel twins wanted detect c)
    (hodd : o / 2 ^ c.level % 2 = 1) (hkept : Kept hash xs inner o c.level) :
    Combining hash xs p o count matchlevel twins wanted detect
      (combine hash detect inner matchlevel c) := by
  obtain ⟨j, hj, hup, hcount, hleft, hright⟩ := h.left hodd hkept
  refine ⟨end_succ h.ends hodd, ?_, ?_, h.path_combine hodd hkept, ?_⟩
  · have := hleft.pair hright
    rw [← hup] at this
    exact this
  · exact (isSome_record inner matchlevel c).trans h.recorded
  · -- the nodes compared are the only ones at this level that end at `count`
    have hhere : inner c.level = c.h ↔ TwinsAt hash xs count c.level := by
      constructor
      · intro heq
        rw [heq] at hleft
        exact ⟨j, c.h, hcount.symm, hleft, hright⟩
      · rintro ⟨i, a, hi, hl, hr⟩
        obtain rfl : i = j := by
          have := Nat.eq_of_mul_eq_mul_right (Nat.two_pow_pos _) (hi.trans hcount)
          omega
        rw [hleft.unique hl, hright.unique hr]
    have hsucc : (∃ l < c.level + 1, TwinsAt hash xs count l) ↔
        (∃ l < c.level, TwinsAt hash xs count l) ∨ TwinsAt hash xs count c.level := by
      constructor
      · rintro ⟨l, hl, ht⟩
        rcases Nat.lt_succ_iff_lt_or_eq.mp hl with hl | rfl
        · exact .inl ⟨l, hl, ht⟩
        · exact .inr ht
      · rintro (⟨l, hl, ht⟩ | ht)
        · exact ⟨l, Nat.lt_succ_of_lt hl, ht⟩
        · exact ⟨c.level, Nat.lt_succ_self _, ht⟩
    change (c.mutated || (detect && inner c.level == c.h)) = true ↔ _
    rw [Bool.or_eq_true, Bool.and_eq_true, beq_iff_eq, h.mutated, hhere, or_assoc, ← and_or_left]
    exact or_congr_right (and_congr_right fun _ => hsucc.symm)

theorem combineLoop_spec (hcount : count < 2 ^ 32) (hleft : 32 ≤ left + c.level)
    (h : Combining hash xs p o count matchlevel twins wanted detect c)
    (hkept : Kept hash xs inner o c.level) :
    ∃ c', combineLoop hash detect count inner matchlevel left c = some c' ∧
      Combining hash xs p o count matchlevel twins wanted detect c' ∧
      o / 2 ^ c'.level % 2 = 0 ∧ c.level ≤ c'.level := by
  induction left generalizing c with
  | zero =>
    have := level_lt_of_end h.ends hcount
    omega
  | succ left ih =>
    have hbit := div_of_end h.ends
    rw [combineLoop]
    by_cases hset : count.testBit c.level = true
    · rw [if_pos hset]
      rw [testBit_eq_true] at hset
      exact ⟨c, rfl, h, by omega, le_refl _⟩
    · rw [if_neg hset]
      rw [testBit_eq_true] at hset
      have hlevel : (Merkle.combine hash detect inner matchlevel c).level = c.level + 1 := rfl
      obtain ⟨c', hc', hcomb, heven, hle⟩ := ih (c := Merkle.combine hash detect inner matchlevel c)
        (by omega) (h.combine (by omega) hkept) (hkept.mono (Nat.le_succ _))
      exact ⟨c', hc', hcomb, heven, by omega⟩

theorem addLeaf_spec (h : Processed hash xs p wanted s) (hleaf : xs[s.count]? = some leaf)
    (hcount : s.count + 1 < 2 ^ 32) :
    ∃ s', addLeaf hash p s leaf = some s' ∧ s'.count = s.count + 1 ∧
      Processed hash xs p wanted s' := by
  obtain ⟨c, hc, hcomb, heven, -⟩ :=
    combineLoop_spec hcount (Nat.le_refl 32) (h.start hleaf) h.kept
  have hmod : (s.count + 1) % 2 ^ 32 = s.count + 1 := Nat.mod_eq_of_lt hcount
  have hdiv := div_of_end hcomb.ends
  have hkept := h.kept.mono (Nat.zero_le c.level)
  rw [addLeaf, hmod, hc]
  refine ⟨_, rfl, rfl, ?_, hcomb.recorded, ?_, ?_⟩
  · intro m _ hm
    dsimp only at hm ⊢
    rcases Nat.lt_trichotomy m c.level with hlt | rfl | hgt
    · -- the bits below the cursor's level are clear
      have hdvd : 2 ^ (m + 1) ∣ s.count + 1 := by
        rw [hcomb.ends]
        exact Dvd.dvd.mul_left (Nat.pow_dvd_pow 2 hlt) _
      have := even_of_dvd hdvd
      omega
    · rw [Function.update_self, hdiv, Nat.add_sub_cancel]
      exact hcomb.node
    · rw [Function.update_of_ne (Nat.ne_of_gt hgt)]
      exact hkept.settle hcomb.ends heven m hgt hm
  · intro hin branch hbranch
    dsimp only
    rcases hcomb.path hin branch hbranch with ⟨hm, hp, hpath⟩ | ⟨hm, hp, hpend⟩
    · rw [if_pos hm]
      exact Or.inr ⟨c.level, Nat.zero_le _, rfl, by omega, by omega, hpath⟩
    · rw [hm, if_neg Bool.false_ne_true]
      rcases hpend.settle hcomb.ends heven hp with hl | ⟨m, -, hr⟩
      · exact Or.inl hl
      · exact Or.inr ⟨m, Nat.zero_le m, hr⟩
  · dsimp only
    rw [hcomb.mutated, twinsWithin_succ (by omega : (s.count + 1) / 2 ^ c.level % 2 = 1)]
    exact or_congr_right ⟨fun h => h.2, fun h => ⟨rfl, h⟩⟩

theorem foldlM_addLeaf (rest : List H) (h : Processed hash xs p wanted s)
    (hrest : xs.drop s.count = rest) (hle : s.count ≤ xs.length) (hlen : xs.length < 2 ^ 32) :
    ∃ s', rest.foldlM (addLeaf hash p) s = some s' ∧ s'.count = xs.length ∧
      Processed hash xs p wanted s' := by
  induction rest generalizing s with
  | nil =>
    have := drop_eq_nil_iff.mp hrest
    exact ⟨s, rfl, by omega, h⟩
  | cons leaf rest ih =>
    have hleaf : xs[s.count]? = some leaf := by
      rw [← head?_drop, hrest]
      rfl
    have hlt := (List.getElem?_eq_some_iff.mp hleaf).1
    obtain ⟨s', hs', hcount, hproc⟩ := addLeaf_spec h hleaf (by omega)
    have hrest' : xs.drop s'.count = rest := by
      rw [hcount, ← tail_drop, hrest]
      rfl
    obtain ⟨s'', hs'', hfin⟩ := ih hproc hrest' (by omega)
    refine ⟨s'', ?_, hfin⟩
    rw [foldlM_cons, hs']
    exact hs''

theorem sweep_spec (hlen : xs.length < 2 ^ 31) (hleft : 32 ≤ left + c.level)
    (h : Sweeping hash xs p inner matchlevel twins wanted count q c) :
    ∃ c', sweep hash inner matchlevel left count c = some c' ∧
      Sweeping hash xs p inner matchlevel twins wanted (2 ^ c'.level) 0 c' := by
  induction left generalizing count q c with
  | zero =>
    have hle : 2 ^ c.level ≤ count := by
      rw [h.ends]
      exact Nat.le_mul_of_pos_left _ (Nat.succ_pos _)
    have hfew := h.few
    have hlevel : c.level < 32 := (Nat.pow_lt_pow_iff_right Nat.one_lt_two).mp (by omega)
    omega
  | succ left ih =>
    rw [sweep]
    by_cases htop : count = 2 ^ c.level
    · rw [if_pos htop]
      obtain rfl : q = 0 := by
        have hq := h.ends.symm.trans htop
        have := Nat.eq_of_mul_eq_mul_right (Nat.two_pow_pos _) (hq.trans (one_mul _).symm)
        omega
      exact ⟨c, rfl, htop ▸ h⟩
    · rw [if_neg htop]
      -- another node is left of this one, so that the doubled one still covers leaves enough
      have hq : 1 ≤ q := by
        refine Nat.one_le_iff_ne_zero.mpr fun h0 => htop ?_
        rw [h.ends, h0, mul_zero, zero_add, one_mul]
      have hfew : count + 2 ^ c.level < 2 * xs.length := by
        have hnode := h.node.lt
        have hends := h.ends
        have hpow : 1 * 2 ^ c.level ≤ q * 2 ^ c.level := Nat.mul_le_mul_right _ hq
        rw [add_mul, one_mul] at hends
        rw [mul_assoc] at hnode hends
        omega
      have hmod : (count + 2 ^ c.level) % 2 ^ 32 = count + 2 ^ c.level :=
        Nat.mod_eq_of_lt (by omega)
      have hlevel : (double hash c).level = c.level + 1 := rfl
      obtain ⟨c', hc', hcomb, heven, hle⟩ := combineLoop_spec (by omega)
        (by omega : 32 ≤ 32 - (c.level + 1) + (double hash c).level) h.double h.kept
      have hnext := hcomb.sweeping heven (h.kept.mono hle)
        (h.all.trans (Nat.le_add_right _ _)) hfew
      obtain ⟨c'', hc'', hfin⟩ := ih (by omega) hnext
      refine ⟨c'', ?_, hfin⟩
      dsimp only
      rw [hmod, hc']
      exact hc''

theorem merkleComputation_spec (null : H) (hpos : 0 < xs.length) (hlen : xs.length < 2 ^ 31)
    (p : Nat) (wanted : Bool) :
    ∃ r mutated branch, merkleComputation hash null xs p wanted = some (r, mutated, branch) ∧
      root hash xs = some r ∧ (mutated = true ↔ TwinsWithin hash xs xs.length) ∧
      branch.isSome = wanted ∧
      (p < xs.length → ∀ b, branch = some b → ∃ k, Path hash xs p k b ∧ p / 2 ^ k = 0 ∧
        Node hash xs k 0 r) := by
  have hstart : Processed hash xs p wanted
      { count := 0, inner := fun _ => null, matchlevel := -1, mutated := false,
        pbranch := if wanted then some [] else none } := by
    refine ⟨?_, ?_, ?_, ?_⟩
    · intro m _ hm
      dsimp only at hm
      rw [Nat.zero_div] at hm
      omega
    · cases wanted <;> rfl
    · intro _ branch hbranch
      refine Or.inl ⟨Nat.zero_le p, rfl, ?_⟩
      cases wanted <;> cases hbranch
      rfl
    · refine ⟨fun h => absurd h Bool.false_ne_true, ?_⟩
      rintro ⟨d, hd, l, j, a, hj, -, -⟩
      have hpow : 0 < (2 * j + 2) * 2 ^ l := Nat.mul_pos (Nat.succ_pos _) (Nat.two_pow_pos l)
      dsimp only at hd
      omega
  obtain ⟨s, hs, hcount, hproc⟩ := foldlM_addLeaf xs hstart rfl (Nat.zero_le _) (by omega)
  obtain ⟨l, hl, hdvd, hodd⟩ := lowLevel_spec (one_dvd _ : 2 ^ 0 ∣ s.count) (by omega)
    (by omega) (le_refl (32 + 0))
  obtain ⟨c, hc, hsweep⟩ := sweep_spec hlen (Nat.le_add_right 32 _)
    (hproc.sweeping hcount hdvd (by omega) hodd)
  refine ⟨c.h, c.mutated, c.pbranch, ?_, ?_, hsweep.mutated, hsweep.recorded, ?_⟩
  · rw [merkleComputation, if_neg (ne_of_gt hpos), hs]
    dsimp
    rw [hl]
    dsimp
    rw [hc]
    rfl
  · exact hsweep.node.root hsweep.all hsweep.few
  · intro hin b hb
    have hzero : p / 2 ^ c.level = 0 := Nat.div_eq_of_lt (lt_of_lt_of_le hin hsweep.all)
    rcases hsweep.path hin b hb with ⟨-, -, hpath⟩ | ⟨-, hpend⟩
    · exact ⟨c.level, hpath, hzero, hsweep.node⟩
    · have hall := hsweep.all
      rcases hpend with ⟨hle, -, -⟩ | ⟨m, hlm, -, hm, -, -⟩
      · omega
      · have hlt : 2 ^ c.level < 2 ^ m := Nat.pow_lt_pow_right Nat.one_lt_two hlm
        rw [Nat.div_eq_of_lt hlt] at hm
        omega

end

theorem not_twins_nil : ¬ Twins hash [] := by
  rintro ⟨l, j, a, hl, -⟩
  exact absurd hl.lt (Nat.not_lt_zero _)

theorem merkleComputation_root [DecidableEq H] (null : H) (hlen : xs.length < 2 ^ 31)
    (branchpos : Nat) (pbranch : Bool) :
    ∃ mutated branch, merkleComputation hash null xs branchpos pbranch =
        some ((root hash xs).getD null, mutated, branch) ∧
      (CollisionFree hash xs → (mutated = true ↔ Twins hash xs)) := by
  rcases Nat.eq_zero_or_pos xs.length with hnil | hpos
  · obtain rfl := length_eq_zero_iff.mp hnil
    refine ⟨false, if pbranch then some [] else none, ?_, fun _ => ?_⟩
    · rw [root_nil]
      rfl
    · exact iff_of_false Bool.false_ne_true not_twins_nil
  · obtain ⟨r, mutated, branch, hcall, hroot, hmut, -⟩ :=
      merkleComputation_spec null hpos hlen branchpos pbranch
    refine ⟨mutated, branch, ?_, fun hfree => ?_⟩
    · rw [hroot]
      exact hcall
    · rw [hmut, twinsWithin_iff hfree]

/-- The computation gives the root of the levels, and every branch leads back to it. Without
collisions the flag tells whether the tree has twins. -/
theorem merkle_matches_levels [DecidableEq H] (hash : H → H → H) (null : H) (leaves : List H)
    (hlen : leaves.length < 2 ^ 31) :
    (∀ branchpos pbranch, ∃ mutated branch,
      merkleComputation hash null leaves branchpos pbranch =
        some ((root hash leaves).getD null, mutated, branch) ∧
      (CollisionFree hash leaves → (mutated = true ↔ Twins hash leaves))) ∧
    (∃ mutated, computeMerkleRoot hash null leaves = some ((root hash leaves).getD null, mutated) ∧
      (CollisionFree hash leaves → (mutated = true ↔ Twins hash leaves))) ∧
    (∀ i, (hi : i < leaves.length) → ∃ branch,
      computeMerkleBranch hash null leaves i = some branch ∧
      some (computeMerkleRootFromBranch hash leaves[i] branch i) = root hash leaves) ∧
    (Function.Injective2 hash → CollisionFree hash leaves) := by
  refine ⟨merkleComputation_root null hlen, ?_, ?_, collisionFree_of_injective⟩
  · obtain ⟨mutated, branch, hcall, hmut⟩ := merkleComputation_root null hlen (2 ^ 32 - 1) false
    refine ⟨mutated, ?_, hmut⟩
    rw [computeMerkleRoot, hcall]
    rfl
  · intro i hi
    obtain ⟨r, mutated, branch, hcall, hroot, -, hsome, hpath⟩ :=
      merkleComputation_spec null (Nat.zero_lt_of_lt hi) hlen i true
    obtain ⟨b, rfl⟩ := Option.isSome_iff_exists.mp hsome
    obtain ⟨k, hk, hzero, hnode⟩ := hpath hi b rfl
    obtain ⟨a, ha, htop⟩ := foldl_rootFromBranchStep hk (getElem?_eq_getElem hi)
    rw [hzero] at htop
    refine ⟨b, ?_, ?_⟩
    · rw [computeMerkleBranch, hcall]
      rfl
    · rw [computeMerkleRootFromBranch, ha, hroot, htop.unique hnode]

theorem merkle_matches_levels_twins :
    ([5, 7, 5, 7, 9] : List Nat).length < 2 ^ 31 ∧ Function.Injective2 Nat.pair ∧
      ∃ r, computeMerkleRoot Nat.pair 0 [5, 7, 5, 7, 9] = some (r, true) := by
  have hinj : Function.Injective2 Nat.pair := fun _ _ _ _ h => Nat.pair_eq_pair.mp h
  obtain ⟨-, ⟨mutated, hroot, hmut⟩, -, hfree⟩ :=
    merkle_matches_levels Nat.pair 0 [5, 7, 5, 7, 9] (by decide)
  have htwins : Twins Nat.pair [5, 7, 5, 7, 9] := ⟨1, 0, Nat.pair 5 7, rfl, rfl⟩
  obtain rfl := (hmut (hfree hinj)).mpr htwins
  exact ⟨by decide, hinj, _, hroot⟩

end Utsuite.Merkle
