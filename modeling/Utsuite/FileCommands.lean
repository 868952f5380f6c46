import Utsuite.LineStream
import Utsuite.UosAddress

namespace Utsuite.FileCommands

open ByteWords LineStream
open UosAddress (find)

def isDigit (c : UInt8) : Bool := 0x30 ≤ c && c ≤ 0x39

def isAlnum (c : UInt8) : Bool := isDigit c || (0x41 ≤ c && c ≤ 0x5a) || (0x61 ≤ c && c ≤ 0x7a)

def matchNumber (s : Bytes) : Option (Bytes × Bytes) :=
  let digits := s.takeWhile isDigit
  if digits = [] then none else some (digits, s.dropWhile isDigit)

def matchDotted : Nat → Bytes → Option Bytes
  | 0, _ => some []
  | n + 1, 0x2e :: s => do
    let (digits, s) ← matchNumber s
    let dotted ← matchDotted n s
    some (0x2e :: (digits ++ dotted))
  | _, _ => none

def matchIp (s : Bytes) : Option Bytes := do
  let (digits, s) ← matchNumber s
  let dotted ← matchDotted 3 s
  some (digits ++ dotted)

def getip : Bytes → Bytes
  | [] => []
  | c :: ipline => (matchIp (c :: ipline)).getD (getip ipline)

def getfirststr (srcstr : Bytes) : Bytes :=
  (srcstr.dropWhile fun c => !isAlnum c).takeWhile isAlnum

def trim (s : Bytes) : Bytes :=
  ((s.dropWhile (· == 0x20)).reverse.dropWhile (· == 0x20)).reverse

def tokens (s : Bytes) : List Bytes := (s.splitOn 0x20).filter fun token => !token.isEmpty

section

variable (fs : Bytes → File)

def statIpRound (acc : List Bytes × List Bytes) (stringLine : Bytes) :
    (List Bytes × List Bytes) × Bytes :=
  let stringLine := getip stringLine
  ((acc.1 ++ tokens stringLine, acc.2 ++ [stringLine]), stringLine)

def statIpOutput (count : Int) (acc : List Bytes × List Bytes) : List Bytes :=
  acc.1.foldl (fun resultLine ipstr =>
    let num : Int := acc.2.count ipstr
    if num ≥ count ∧ resultLine.count ipstr = 0 then resultLine ++ [ipstr] else resultLine) []

def statIp (rounds : Nat) (filestr : Bytes) (count : Int) : Option (List Bytes) := do
  let (_, acc) ← readLoop statIpRound rounds (fs filestr).open [] ([], [])
  some (statIpOutput count acc)

def findIpRound (ipLine : List Bytes) (stringLine : Bytes) : List Bytes × Bytes :=
  let stringip := getip stringLine
  (if stringip ≠ [] then ipLine ++ [stringip] else ipLine, stringLine)

def findDstRound (dstLine : List Bytes) (stringLine : Bytes) : List Bytes × Bytes :=
  let stringip := getip stringLine
  (if stringip ≠ [] then dstLine ++ [stringLine] else dstLine, stringLine)

def findIpOutput (ipLine dstLine : List Bytes) : List Bytes :=
  ipLine.flatMap fun it1 => dstLine.filter fun it2 => it1 = getip it2

def findIp (rounds : Nat) (ipsrc ipdst : Bytes) : Option (List Bytes) := do
  let (stringLine, ipLine) ← readLoop findIpRound rounds (fs ipsrc).open [] []
  let (_, dstLine) ← readLoop findDstRound rounds (fs ipdst).open stringLine []
  some (findIpOutput ipLine dstLine)

def trimRound (ipLine : List Bytes) (stringLine : Bytes) : List Bytes × Bytes :=
  let stringLine := trim stringLine
  (if stringLine ≠ [] then ipLine ++ [stringLine] else ipLine, stringLine)

def plainRound (dstLine : List Bytes) (stringLine : Bytes) : List Bytes × Bytes :=
  (if stringLine ≠ [] then dstLine ++ [stringLine] else dstLine, stringLine)

def statnodeOutput (ipLine dstLine : List Bytes) : List Bytes :=
  dstLine.flatMap fun it2 =>
    let retstr := getfirststr it2
    ipLine.filterMap fun it1 =>
      if retstr ≠ [] ∧ (find retstr it1).isSome then some (it1 ++ [0x20, 0x20, 0x20] ++ it2)
      else none

def statnode (rounds : Nat) (strfile dstfilename : Bytes) : Option (List Bytes) := do
  let (stringLine, ipLine) ← readLoop trimRound rounds (fs strfile).open [] []
  let (_, dstLine) ← readLoop plainRound rounds (fs dstfilename).open stringLine []
  some (statnodeOutput ipLine dstLine)

def gencmd (rounds : Nat) (strfile : Bytes) : Option (List Bytes) := do
  let (_, ipLine) ← readLoop trimRound rounds (fs strfile).open [] []
  some ipLine

end

def Readable (file : File) : Prop := ∃ content, file = .readable content

def LinesOf (file : File) (lines : List Bytes) : Prop :=
  ∀ content, file = .readable content →
    lines = fileLines content ∨ lines = fileLines content ++ [[]]

def gather {σ : Type} (round : σ → Bytes → σ × Bytes) (acc : σ) (lines : List Bytes) : σ :=
  lines.foldl (fun acc line => (round acc line).1) acc

theorem linesOf_seenLines (content : Bytes) : LinesOf (.readable content) (seenLines content) := by
  rintro _ ⟨⟩
  rw [seenLines]
  split
  · exact Or.inr rfl
  · exact Or.inl (List.append_nil _)

section

variable {σ : Type} {round : σ → Bytes → σ × Bytes}

theorem readable_of_readLoop (h : readLoop round rounds file.open str acc = some result) :
    Readable file := by
  cases file with
  | unopenable =>
    rw [readLoop_unopenable] at h
    cases h
  | readable content => exact ⟨content, rfl⟩
  | failing content =>
    rw [readLoop_failing] at h
    cases h

theorem exists_rounds (h : Readable file) (round : σ → Bytes → σ × Bytes) (str : Bytes) (acc : σ) :
    ∃ lines last bound, LinesOf file lines ∧ ∀ rounds, bound < rounds →
      readLoop round rounds file.open str acc = some (last, gather round acc lines) := by
  obtain ⟨content, rfl⟩ := h
  obtain ⟨last, hlast⟩ := readLoop_readable round content str acc
  exact ⟨_, last, _, linesOf_seenLines content, hlast⟩

end

def Finishes {σ α : Type} (file : File) (round : σ → Bytes → σ × Bytes) (acc : σ) (output : σ → α)
    (run : Nat → Option α) : Prop :=
  ∃ lines rounds, LinesOf file lines ∧ run rounds = some (output (gather round acc lines))

def FinishesTwo {σ τ α : Type} (file file' : File) (round : σ → Bytes → σ × Bytes) (acc : σ)
    (round' : τ → Bytes → τ × Bytes) (acc' : τ) (output : σ → τ → α) (run : Nat → Option α) : Prop :=
  ∃ lines lines' rounds, LinesOf file lines ∧ LinesOf file' lines' ∧
    run rounds = some (output (gather round acc lines) (gather round' acc' lines'))

theorem finishes_iff {σ α : Type} (file : File) (round : σ → Bytes → σ × Bytes) (acc : σ)
    (output : σ → α) :
    Finishes file round acc output (fun rounds => do
      let (_, acc) ← readLoop round rounds file.open [] acc
      some (output acc)) ↔ Readable file := by
  constructor
  · rintro ⟨lines, rounds, -, hrun⟩
    obtain ⟨result, hloop, -⟩ := Option.bind_eq_some_iff.mp hrun
    exact readable_of_readLoop hloop
  · intro h
    obtain ⟨lines, last, bound, hlines, hloop⟩ := exists_rounds h round [] acc
    refine ⟨lines, bound + 1, hlines, ?_⟩
    dsimp only
    rw [hloop _ (Nat.lt_succ_self bound)]
    rfl

theorem finishesTwo_iff {σ τ α : Type} (file file' : File) (round : σ → Bytes → σ × Bytes) (acc : σ)
    (round' : τ → Bytes → τ × Bytes) (acc' : τ) (output : σ → τ → α) :
    FinishesTwo file file' round acc round' acc' output (fun rounds => do
      let (str, acc) ← readLoop round rounds file.open [] acc
      let (_, acc') ← readLoop round' rounds file'.open str acc'
      some (output acc acc')) ↔ Readable file ∧ Readable file' := by
  constructor
  · rintro ⟨lines, lines', rounds, -, -, hrun⟩
    obtain ⟨result, hloop, hrun⟩ := Option.bind_eq_some_iff.mp hrun
    obtain ⟨result', hloop', -⟩ := Option.bind_eq_some_iff.mp hrun
    exact ⟨readable_of_readLoop hloop, readable_of_readLoop hloop'⟩
  · rintro ⟨h, h'⟩
    obtain ⟨lines, last, bound, hlines, hloop⟩ := exists_rounds h round [] acc
    obtain ⟨lines', last', bound', hlines', hloop'⟩ := exists_rounds h' round' last acc'
    refine ⟨lines, lines', max bound bound' + 1, hlines, hlines', ?_⟩
    dsimp only
    rw [hloop _ (by omega)]
    change (readLoop round' _ file'.open last acc').bind _ = _
    rw [hloop' _ (by omega)]
    rfl

/-- Each command ends exactly when every file that it reads can be opened and read to its end. -/
theorem file_commands_finish_iff (fs : Bytes → File) (src dst : Bytes) (count : Int) :
    (Finishes (fs src) statIpRound ([], []) (statIpOutput count)
        (fun rounds => statIp fs rounds src count) ↔ Readable (fs src)) ∧
      (FinishesTwo (fs src) (fs dst) findIpRound [] findDstRound [] findIpOutput
        (fun rounds => findIp fs rounds src dst) ↔ Readable (fs src) ∧ Readable (fs dst)) ∧
      (FinishesTwo (fs src) (fs dst) trimRound [] plainRound [] statnodeOutput
        (fun rounds => statnode fs rounds src dst) ↔ Readable (fs src) ∧ Readable (fs dst)) ∧
      (Finishes (fs src) trimRound [] id (fun rounds => gencmd fs rounds src) ↔
        Readable (fs src)) :=
  ⟨finishes_iff _ _ _ _, finishesTwo_iff _ _ _ _ _ _ _, finishesTwo_iff _ _ _ _ _ _ _,
    finishes_iff _ _ _ _⟩

/-- The commands loop on `eof()`, so they never end on a file that cannot be opened or that fails
while it is read. -/
theorem missing_file_never_finishes :
    (∀ rounds, statIp (fun _ => .unopenable) rounds [] 1 = none) ∧
      (∀ rounds, findIp (fun _ => .unopenable) rounds [] [] = none) ∧
      (∀ rounds, statnode (fun _ => .unopenable) rounds [] [] = none) ∧
      (∀ rounds, gencmd (fun _ => .unopenable) rounds [] = none) ∧
      ∀ rounds, gencmd (fun _ => .failing []) rounds [] = none := by
  refine ⟨fun rounds => ?_, fun rounds => ?_, fun rounds => ?_, fun rounds => ?_, fun rounds => ?_⟩
  · rw [statIp, readLoop_unopenable]
    rfl
  · rw [findIp, readLoop_unopenable]
    rfl
  · rw [statnode, readLoop_unopenable]
    rfl
  · rw [gencmd, readLoop_unopenable]
    rfl
  · rw [gencmd, readLoop_failing]
    rfl

end Utsuite.FileCommands
