import Utsuite.Compressor

namespace Utsuite.Amounts

open Transaction List
open Compressor (COIN MAX_MONEY)

inductive Failure
  | overflow
  | runtimeError (what : String)
  deriving DecidableEq

abbrev MoneyRange (nValue : Int) : Prop := 0 ≤ nValue ∧ nValue ≤ MAX_MONEY

def addAmount (a b : Int) : Except Failure Int :=
  if -2 ^ 63 ≤ a + b ∧ a + b < 2 ^ 63 then .ok (a + b) else .error .overflow

def outOfRange : Failure := .runtimeError "CTransaction::GetValueOut(): value out of range"

def valueOutLoop : Int → List Int64 → Except Failure Int
  | nValueOut, [] => .ok nValueOut
  | nValueOut, nValue :: vout => do
    let nValueOut ← addAmount nValueOut nValue.toInt
    if ¬MoneyRange nValue.toInt ∨ ¬MoneyRange nValueOut then .error outOfRange
    else valueOutLoop nValueOut vout

def getValueOut (tx : CMutableTransaction) : Except Failure Int :=
  valueOutLoop 0 (tx.vout.map (·.nValue))

/-- The arguments of `state.DoS(nDoS, false, REJECT_INVALID, reason)`, by which a transaction is
refused. -/
structure Rejection where
  nDoS : Nat
  reason : String

def checkOutputs : Int → List Int64 → Option Rejection
  | _, [] => none
  | nValueOut, nValue :: vout =>
    if nValue.toInt < 0 then some ⟨100, "bad-txns-vout-negative"⟩
    else if nValue.toInt > MAX_MONEY then some ⟨100, "bad-txns-vout-toolarge"⟩
    else if ¬MoneyRange (nValueOut + nValue.toInt) then
      some ⟨100, "bad-txns-txouttotal-toolarge"⟩
    else checkOutputs (nValueOut + nValue.toInt) vout

def prevoutIsNull (txin : CTxIn) : Bool :=
  txin.prevout.hash.1.all (· == 0) && txin.prevout.n == 0xffffffff

def checkInputs (tx : CMutableTransaction) : Option Rejection :=
  if ¬(tx.vin.map (·.prevout)).Nodup then some ⟨100, "bad-txns-inputs-duplicate"⟩
  else match tx.vin with
    | [txin] =>
      if prevoutIsNull txin ∧ (txin.scriptSig.length < 2 ∨ txin.scriptSig.length > 100)
      then some ⟨100, "bad-cb-length"⟩ else none
    | vin => if vin.any prevoutIsNull then some ⟨10, "bad-txns-prevout-null"⟩ else none

def checkTransaction (tx : CMutableTransaction) : Option Rejection :=
  if tx.vin = [] then some ⟨10, "bad-txns-vin-empty"⟩
  else if tx.vout = [] then some ⟨10, "bad-txns-vout-empty"⟩
  else (checkOutputs 0 (tx.vout.map (·.nValue))).or (checkInputs tx)

def outputReasons : List String :=
  ["bad-txns-vout-negative", "bad-txns-vout-toolarge", "bad-txns-txouttotal-toolarge"]

def total (start : Int) (vs : List Int64) : Int := start + (vs.map Int64.toInt).sum

def InRange (start : Int) (vs : List Int64) : Prop :=
  (∀ v ∈ vs, MoneyRange v.toInt) ∧ ∀ part, part <+: vs → MoneyRange (total start part)

def SumsFit : Int → List Int64 → Prop
  | _, [] => True
  | start, v :: vs => start + v.toInt < 2 ^ 63 ∧
    (MoneyRange v.toInt ∧ MoneyRange (start + v.toInt) → SumsFit (start + v.toInt) vs)

variable {start : Int} {tx : CMutableTransaction} {r : Rejection}

theorem total_cons (start : Int) (v : Int64) (vs : List Int64) :
    total start (v :: vs) = total (start + v.toInt) vs := by
  simp [total, Int.add_assoc]

theorem inRange_cons (h : MoneyRange start) :
    InRange start (v :: vs) ↔
      (MoneyRange v.toInt ∧ MoneyRange (start + v.toInt)) ∧ InRange (start + v.toInt) vs := by
  simp only [InRange, forall_mem_cons, prefix_cons_iff]
  constructor
  · rintro ⟨⟨hv, hvs⟩, hsum⟩
    refine ⟨⟨hv, ?_⟩, hvs, fun part hpart => ?_⟩
    · simpa [total] using hsum [v] (.inr ⟨[], rfl, nil_prefix⟩)
    · exact total_cons start v part ▸ hsum (v :: part) (.inr ⟨part, rfl, hpart⟩)
  · rintro ⟨⟨hv, -⟩, hvs, hsum⟩
    refine ⟨⟨hv, hvs⟩, ?_⟩
    rintro _ (rfl | ⟨part, rfl, hpart⟩)
    · simpa [total] using h
    · exact total_cons start v part ▸ hsum part hpart

theorem checkOutputs_eq_none (h : MoneyRange start) :
    checkOutputs start vs = none ↔ InRange start vs := by
  induction vs generalizing start with
  | nil => simpa [checkOutputs, InRange, total] using h
  | cons v vs ih =>
    rw [inRange_cons h, checkOutputs]
    split_ifs with hneg hlarge hsum
    · simp; omega
    · simp; omega
    · rw [ih hsum, and_iff_right ⟨by omega, hsum⟩]
    · simp [hsum]

theorem checkOutputs_reason (h : checkOutputs start vs = some r) : r.reason ∈ outputReasons := by
  induction vs generalizing start with
  | nil => cases h
  | cons v vs ih =>
    rw [checkOutputs] at h
    split_ifs at h
    all_goals first | (cases h; decide) | exact ih h

theorem checkInputs_reason (h : checkInputs tx = some r) : r.reason ∉ outputReasons := by
  rw [checkInputs] at h
  split at h
  · cases h
    decide
  · split at h <;> split at h <;> cases h <;> decide

theorem passes_outputs_iff (hvin : tx.vin ≠ []) (hvout : tx.vout ≠ []) :
    (∀ r, checkTransaction tx = some r → r.reason ∉ outputReasons) ↔
      InRange 0 (tx.vout.map (·.nValue)) := by
  rw [← checkOutputs_eq_none (by decide), checkTransaction, if_neg hvin, if_neg hvout]
  cases hout : checkOutputs 0 (tx.vout.map (·.nValue)) with
  | none => exact iff_of_true (fun r hr => checkInputs_reason hr) rfl
  | some r => exact iff_of_false (fun h => h r rfl (checkOutputs_reason hout)) nofun

theorem valueOutLoop_spec (h : MoneyRange start) (vs : List Int64) :
    (SumsFit start vs → (InRange start vs → valueOutLoop start vs = .ok (total start vs)) ∧
      (¬InRange start vs → valueOutLoop start vs = .error outOfRange)) ∧
    (¬SumsFit start vs → valueOutLoop start vs = .error .overflow) := by
  induction vs generalizing start with
  | nil =>
    have hrange : InRange start [] := ⟨nofun, by simpa [total] using h⟩
    simp [SumsFit, hrange, valueOutLoop, total]
  | cons v vs ih =>
    have hlow := v.le_toInt
    rw [valueOutLoop, addAmount, inRange_cons h, total_cons, SumsFit]
    by_cases hfits : start + v.toInt < 2 ^ 63
    · rw [if_pos ⟨by omega, hfits⟩]
      dsimp only [bind, Except.bind]
      by_cases hrange : MoneyRange v.toInt ∧ MoneyRange (start + v.toInt)
      · rw [if_neg (not_or.mpr ⟨not_not.mpr hrange.1, not_not.mpr hrange.2⟩), and_iff_right hrange]
        obtain ⟨hok, hover⟩ := ih hrange.2
        exact ⟨fun h => hok (h.2 hrange), fun h => hover fun h' => h ⟨hfits, fun _ => h'⟩⟩
      · rw [if_pos (not_and_or.mp hrange)]
        exact ⟨fun _ => ⟨fun h => absurd h.1 hrange, fun _ => rfl⟩,
          fun h => absurd ⟨hfits, fun h => absurd h hrange⟩ h⟩
    · rw [if_neg fun h => hfits h.2]
      exact ⟨fun h => absurd h.1 hfits, fun _ => rfl⟩

structure TotalsAgree (tx : CMutableTransaction) : Prop where
  no_overflow : getValueOut tx ≠ .error .overflow
  throws_iff : getValueOut tx = .error outOfRange ↔ ¬InRange 0 (tx.vout.map (·.nValue))
  exact_sum : InRange 0 (tx.vout.map (·.nValue)) →
    getValueOut tx = .ok (total 0 (tx.vout.map (·.nValue)))
  passes_iff : tx.vin ≠ [] → tx.vout ≠ [] →
    ((∀ r, checkTransaction tx = some r → r.reason ∉ outputReasons) ↔
      ∃ nValueOut, getValueOut tx = .ok nValueOut)

/-- `CheckTransaction` and `GetValueOut` agree on a transaction exactly when no sum overflows, since
a value is added to the total before the total is checked. -/
theorem totals_agree_iff (tx : CMutableTransaction) :
    TotalsAgree tx ↔ SumsFit 0 (tx.vout.map (·.nValue)) := by
  obtain ⟨hfit, hover⟩ := @valueOutLoop_spec 0 (by decide) (tx.vout.map (·.nValue))
  refine ⟨fun h => by_contra fun hnot => h.no_overflow (hover hnot), fun h => ?_⟩
  obtain ⟨hin, hout⟩ := hfit h
  by_cases hrange : InRange 0 (tx.vout.map (·.nValue))
  · have hok : getValueOut tx = _ := hin hrange
    refine ⟨by simp [hok], by simp [hok, hrange], fun _ => hok, fun hvin hvout => ?_⟩
    exact iff_of_true ((passes_outputs_iff hvin hvout).mpr hrange) ⟨_, hok⟩
  · have hthrow : getValueOut tx = .error outOfRange := hout hrange
    refine ⟨by simp [hthrow, outOfRange], by simp [hthrow, hrange], fun h => absurd h hrange,
      fun hvin hvout => ?_⟩
    exact iff_of_false (fun h => hrange ((passes_outputs_iff hvin hvout).mp h)) (by simp [hthrow])

/-- Two values that are both in the range of an `int64_t` can have a sum that is not, and then the
addition in `GetValueOut` overflows. -/
theorem second_value_overflows :
    getValueOut ⟨1, [], [⟨1, []⟩, ⟨Int64.maxValue, []⟩], 0⟩ = .error .overflow := by
  decide

end Utsuite.Amounts
