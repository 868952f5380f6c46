import Mathlib.Data.List.TakeWhile
import Utsuite.ByteWords

namespace Utsuite.LineStream

open ByteWords List

/-- A file that cannot be opened, one that can be read to its end, or one where reading fails behind
some bytes. -/
inductive File
  | unopenable
  | readable (content : Bytes)
  | failing (content : Bytes)

/-- A stream as the bytes still to come, whether reading fails behind them, and its state bits. -/
structure IFStream where
  rest : Bytes
  broken : Bool
  eofbit : Bool
  failbit : Bool
  badbit : Bool

def File.open : File → IFStream
  | .unopenable => ⟨[], false, false, true, false⟩
  | .readable content => ⟨content, false, false, false, false⟩
  | .failing content => ⟨content, true, false, false, false⟩

def IFStream.good (s : IFStream) : Bool := !(s.eofbit || s.failbit || s.badbit)

def newline : UInt8 := 0x0a

def getline (s : IFStream) (str : Bytes) : Bytes × IFStream :=
  if !s.good then (str, { s with failbit := true })
  else
    let line := s.rest.takeWhile (· != newline)
    match s.rest.dropWhile (· != newline) with
    | _ :: rest => (line, { s with rest := rest })
    | [] =>
      if s.broken then (line, { s with rest := [], badbit := true })
      else (line, { s with rest := [], eofbit := true, failbit := line.isEmpty })

section

variable {σ : Type} (body : σ → Bytes → σ × Bytes)

/-- The loop `while(!infile.eof())` with a bound on its rounds. `none` stands for a loop that is
still running. -/
def readLoop : Nat → IFStream → Bytes → σ → Option (Bytes × σ)
  | 0, _, _, _ => none
  | rounds + 1, infile, stringLine, acc =>
    if infile.eofbit then some (stringLine, acc)
    else
      let (stringLine, infile) := getline infile stringLine
      let (acc, stringLine) := body acc stringLine
      readLoop rounds infile stringLine acc

end

def fileLines : Bytes → List Bytes
  | [] => []
  | c :: content =>
    if c = newline then [] :: fileLines content
    else match fileLines content with
      | [] => [[c]]
      | line :: lines => (c :: line) :: lines

def seenLines (content : Bytes) : List Bytes :=
  fileLines content ++ if content = [] ∨ content.getLast? = some newline then [[]] else []

theorem fileLines_newline (h : newline ∉ line) (rest : Bytes) :
    fileLines (line ++ newline :: rest) = line :: fileLines rest := by
  induction line with
  | nil => exact if_pos rfl
  | cons c line ih =>
    rw [mem_cons, not_or] at h
    rw [cons_append, fileLines, if_neg (Ne.symm h.1), ih h.2]

theorem fileLines_last (h : newline ∉ line) (hne : line ≠ []) : fileLines line = [line] := by
  induction line with
  | nil => exact absurd rfl hne
  | cons c line ih =>
    rw [mem_cons, not_or] at h
    rw [fileLines, if_neg (Ne.symm h.1)]
    cases line with
    | nil => rfl
    | cons d line => rw [ih h.2 (cons_ne_nil d line)]

theorem seenLines_newline (h : newline ∉ line) (rest : Bytes) :
    seenLines (line ++ newline :: rest) = line :: seenLines rest := by
  rw [seenLines, seenLines, fileLines_newline h, cons_append]
  cases rest with
  | nil => simp
  | cons c rest => simp

theorem seenLines_last (h : newline ∉ line) : seenLines line = [line] := by
  cases line with
  | nil => rfl
  | cons c line =>
    have hlast : (c :: line).getLast? ≠ some newline := fun hlast =>
      h (mem_of_getLast? hlast)
    rw [seenLines, fileLines_last h (cons_ne_nil c line), if_neg (by simp [hlast])]
    rfl

theorem exists_line (content : Bytes) :
    newline ∉ content ∨ ∃ line rest, content = line ++ newline :: rest ∧ newline ∉ line := by
  by_cases h : newline ∈ content
  · exact Or.inr (eq_append_cons_of_mem h)
  · exact Or.inl h

section

variable {σ : Type} {body : σ → Bytes → σ × Bytes}

theorem ne_newline {line : Bytes} (h : newline ∉ line) : ∀ c ∈ line, (c != newline) = true :=
  fun _ hc => bne_iff_ne.mpr fun heq => h (heq ▸ hc)

theorem takeWhile_line {line : Bytes} (h : newline ∉ line) (rest : Bytes) :
    (line ++ newline :: rest).takeWhile (· != newline) = line := by
  rw [takeWhile_append_of_pos (ne_newline h), takeWhile_cons_of_neg (by decide),
    append_nil]

theorem dropWhile_line {line : Bytes} (h : newline ∉ line) (rest : Bytes) :
    (line ++ newline :: rest).dropWhile (· != newline) = newline :: rest := by
  rw [dropWhile_append_of_pos (ne_newline h), dropWhile_cons_of_neg (by decide)]

theorem getline_newline (hs : s.good = true) (h : newline ∉ line)
    (hrest : s.rest = line ++ newline :: rest) (str : Bytes) :
    getline s str = (line, { s with rest := rest }) := by
  rw [getline, hs, hrest, dropWhile_line h, takeWhile_line h]
  rfl

theorem getline_last {s : IFStream} (hs : s.good = true) (h : newline ∉ s.rest) (str : Bytes) :
    getline s str = (s.rest, if s.broken then { s with rest := [], badbit := true }
      else { s with rest := [], eofbit := true, failbit := s.rest.isEmpty }) := by
  have htake : s.rest.takeWhile (· != newline) = s.rest := List.takeWhile_eq_self_iff.mpr (ne_newline h)
  have hdrop : s.rest.dropWhile (· != newline) = [] := List.dropWhile_eq_nil_iff.mpr (ne_newline h)
  rw [getline, hs, hdrop, htake]
  cases s.broken <;> rfl

def IFStream.Stuck (s : IFStream) : Prop := s.eofbit = false ∧ s.good = false

theorem getline_stuck (h : s.Stuck) (str : Bytes) : (getline s str).2.Stuck := by
  rw [getline, h.2]
  refine ⟨h.1, ?_⟩
  simp [IFStream.good]

theorem readLoop_stuck (h : s.Stuck) (rounds : Nat) (str : Bytes) (acc : σ) :
    readLoop body rounds s str acc = none := by
  induction rounds generalizing s str acc with
  | zero => rfl
  | succ rounds ih =>
    rw [readLoop, h.1]
    exact ih (getline_stuck h str) _ _

theorem readLoop_unopenable (rounds : Nat) (str : Bytes) (acc : σ) :
    readLoop body rounds File.unopenable.open str acc = none :=
  readLoop_stuck ⟨rfl, rfl⟩ rounds str acc

theorem readLoop_failing (content : Bytes) (rounds : Nat) (str : Bytes) (acc : σ) :
    readLoop body rounds (File.failing content).open str acc = none := by
  induction rounds generalizing content str acc with
  | zero => rfl
  | succ rounds ih =>
    rw [readLoop, show (File.failing content).open.eofbit = false from rfl]
    rcases exists_line content with h | ⟨line, rest, hcontent, h⟩
    · rw [getline_last (s := (File.failing content).open) rfl h]
      exact readLoop_stuck ⟨rfl, rfl⟩ _ _ _
    · rw [getline_newline (s := (File.failing content).open) rfl h hcontent]
      exact ih rest _ _

/-- On a file that can be read the loop ends, after all lines and at most one empty line at the end.
-/
theorem readLoop_readable (body : σ → Bytes → σ × Bytes) (content str : Bytes) (acc : σ) :
    ∃ last, ∀ rounds, (seenLines content).length < rounds →
      readLoop body rounds (File.readable content).open str acc =
        some (last, (seenLines content).foldl (fun acc line => (body acc line).1) acc) := by
  induction hsize : content.length using Nat.strong_induction_on generalizing content str acc with
  | _ size ih =>
    rcases exists_line content with h | ⟨line, rest, hcontent, h⟩
    · refine ⟨(body acc content).2, fun rounds hrounds => ?_⟩
      rw [seenLines_last h] at hrounds ⊢
      obtain ⟨rounds, rfl⟩ : ∃ n, rounds = n + 2 := ⟨rounds - 2, by
        rw [length_singleton] at hrounds
        omega⟩
      rw [readLoop, getline_last (s := (File.readable content).open) rfl h]
      rfl
    · have hlt : rest.length < size := by
        rw [← hsize, hcontent, length_append, length_cons]
        omega
      obtain ⟨last, hlast⟩ := ih rest.length hlt rest (body acc line).2 (body acc line).1 rfl
      refine ⟨last, fun rounds hrounds => ?_⟩
      rw [hcontent, seenLines_newline h] at hrounds
      obtain ⟨rounds, rfl⟩ := Nat.exists_eq_succ_of_ne_zero (Nat.ne_zero_of_lt hrounds)
      rw [readLoop, getline_newline (s := (File.readable content).open) rfl h hcontent, hcontent,
        seenLines_newline h]
      exact hlast rounds (Nat.lt_of_succ_lt_succ hrounds)

end

end Utsuite.LineStream
