import Utsuite.ByteWords

namespace Utsuite.SqlLiteral

open ByteWords List

def quote : UInt8 := 0x27

def backslash : UInt8 := 0x5c

/-- The value of a character behind a backslash. In front of the wildcards the backslash is kept. -/
def unescape (c : UInt8) : Bytes :=
  if c = 0x30 then [0x00]
  else if c = 0x62 then [0x08]
  else if c = 0x6e then [0x0a]
  else if c = 0x72 then [0x0d]
  else if c = 0x74 then [0x09]
  else if c = 0x5a then [0x1a]
  else if c = 0x25 ∨ c = 0x5f then [backslash, c]
  else [c]

/-- Reads a string literal behind its opening quote, with what follows it. `none` is a literal that
does not end. -/
def lexLiteral : Bytes → Option (Bytes × Bytes)
  | [] => none
  | [c] => if c = quote then some ([], []) else none
  | c :: c' :: text =>
    if c = quote then
      if c' = quote then (lexLiteral text).map fun s => (quote :: s.1, s.2)
      else some ([], c' :: text)
    else if c = backslash then (lexLiteral text).map fun s => (unescape c' ++ s.1, s.2)
    else (lexLiteral (c' :: text)).map fun s => (c :: s.1, s.2)

def Plain : Bytes → Prop
  | [] => True
  | [c] => c ≠ quote ∧ c ≠ backslash
  | c :: c' :: text =>
    c ≠ quote ∧
      if c = backslash then (c' = 0x25 ∨ c' = 0x5f) ∧ Plain text else Plain (c' :: text)

theorem unescape_wildcard (h : c = 0x25 ∨ c = 0x5f) : unescape c = [backslash, c] := by
  obtain rfl | rfl := h <;> rfl

theorem length_unescape (c : UInt8) : (unescape c).length ≤ 2 := by
  unfold unescape
  split_ifs <;> simp

theorem wildcard_of_unescape (h : (unescape c).length = 2) : c = 0x25 ∨ c = 0x5f := by
  unfold unescape at h
  split_ifs at h <;> simp_all

theorem lexLiteral_length (h : lexLiteral text = some (value, rest)) :
    value.length + rest.length < text.length := by
  fun_induction lexLiteral text generalizing value rest with
  | case1 => cases h
  | case2 =>
    cases h
    simp
  | case3 => cases h
  | case4 text ih =>
    obtain ⟨s, hs, heq⟩ := Option.map_eq_some_iff.mp h
    cases heq
    have := ih hs
    simp only [length_cons]
    omega
  | case5 =>
    cases h
    simp
  | case6 c' text hc ih =>
    obtain ⟨s, hs, heq⟩ := Option.map_eq_some_iff.mp h
    cases heq
    have := ih hs
    have := length_unescape c'
    simp only [length_append, length_cons]
    omega
  | case7 c c' text hc hc' ih =>
    obtain ⟨s, hs, heq⟩ := Option.map_eq_some_iff.mp h
    cases heq
    have := ih hs
    simp only [length_cons] at this ⊢
    omega

theorem lexLiteral_self_iff (value : Bytes) :
    lexLiteral (value ++ [quote]) = some (value, []) ↔ Plain value := by
  fun_induction Plain value with
  | case1 => simp [lexLiteral]
  | case2 c =>
    simp only [cons_append, nil_append, lexLiteral]
    by_cases hquote : c = quote
    · simp [hquote]
    · by_cases hback : c = backslash
      · simp [hback]
      · simp [hquote, hback]
  | case3 c c' text ih₁ ih₂ =>
    simp only [cons_append, lexLiteral]
    by_cases hquote : c = quote
    · have hlonger : ∀ s, lexLiteral (text ++ [quote]) = some s → quote :: s.1 ≠ c :: c' :: text := by
        intro s hs heq
        have hlen := lexLiteral_length hs
        simp only [List.cons.injEq] at heq
        rw [heq.2, length_append, length_cons, length_singleton] at hlen
        omega
      rw [if_pos hquote]
      split
      · simp only [Option.map_eq_some_iff, Prod.mk.injEq, hquote, ne_eq, not_true, false_and,
          iff_false]
        rintro ⟨s, hs, heq, -⟩
        exact hlonger s hs (hquote ▸ heq)
      · simp [hquote]
    · rw [if_neg hquote]
      by_cases hback : c = backslash
      · rw [if_pos hback, if_pos hback]
        simp only [ne_eq, hquote, not_false_eq_true, true_and, Option.map_eq_some_iff,
          Prod.mk.injEq, ← ih₁]
        constructor
        · rintro ⟨⟨v, rest⟩, hs, heq, rfl⟩
          have hlen := lexLiteral_length hs
          have htotal := congrArg List.length heq
          have hle := length_unescape c'
          simp only [length_append, length_cons, length_nil] at hlen htotal
          have hwild := wildcard_of_unescape (c := c') (by omega)
          rw [unescape_wildcard hwild] at heq
          obtain ⟨-, -, rfl⟩ : backslash = c ∧ c' = c' ∧ v = text := by simpa using heq
          exact ⟨hwild, hs⟩
        · rintro ⟨hwild, hs⟩
          exact ⟨_, hs, by rw [unescape_wildcard hwild, hback]; rfl, rfl⟩
      · rw [if_neg hback, if_neg hback]
        simp only [ne_eq, hquote, not_false_eq_true, true_and, Option.map_eq_some_iff,
          Prod.mk.injEq, List.cons.injEq, ← ih₂, cons_append]
        constructor
        · rintro ⟨⟨v, rest⟩, hs, rfl, rfl⟩
          exact hs
        · exact fun hs => ⟨_, hs, rfl, rfl⟩

end Utsuite.SqlLiteral
