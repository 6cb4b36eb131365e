import Credence.Pattern.Basic
import Credence.Text.Blank
/-!
# Tokens of patterns

The text of a pattern falls into parentheses, quoted names and symbols. Blanks
separate tokens and mean nothing else. A symbol is a longest run of other
characters; in a quoted name a backslash stands before a quote, a backslash or any
other character of the same line, which it leaves as it is.

Every token takes at least one character, so scanning ends with the text.
-/

namespace Credence.Pattern

/-- What a token is. -/
inductive Lexeme where
  | opening
  | closing
  | name (text : List Char)
  | symbol (text : List Char)
deriving Repr, DecidableEq

/-- A token and its place: that of the first character, or of the first one inside the quotes. -/
structure Token where
  lexeme : Lexeme
  pos : Nat
deriving Repr, DecidableEq

/-- A quoted name after its opening quote: the name, and what follows the closing quote. -/
def scanName : List Char → Option (List Char × List Char)
  | [] => none
  | '"' :: rest => some ([], rest)
  | '\\' :: c :: rest =>
    if c = '\n' then none else (scanName rest).map fun r => (c :: r.1, r.2)
  | c :: rest => if c = '\\' then none else (scanName rest).map fun r => (c :: r.1, r.2)

theorem scanName_length {cs name rest : List Char} (h : scanName cs = some (name, rest)) :
    rest.length < cs.length := by
  fun_induction scanName cs generalizing name rest with
  | case1 => simp at h
  | case2 r => simp at h; simp [← h.2]
  | case3 => simp at h
  | case4 c r _ ih =>
    obtain ⟨p, hp, he⟩ := Option.map_eq_some_iff.1 h
    have : p.2.length < _ := ih hp
    simp at he
    simp only [← he.2, List.length_cons]; omega
  | case5 => simp at h
  | case6 c r _ _ _ ih =>
    obtain ⟨p, hp, he⟩ := Option.map_eq_some_iff.1 h
    have : p.2.length < _ := ih hp
    simp at he
    simp only [← he.2, List.length_cons]; omega

/-- Whether a character belongs to a symbol. -/
def isSymbolChar (c : Char) : Bool := !(Text.isBlank c || c = '(' || c = ')' || c = '"')

theorem length_dropWhile_le (p : Char → Bool) (cs : List Char) :
    (cs.dropWhile p).length ≤ cs.length := by
  induction cs with
  | nil => simp
  | cons c cs ih =>
    simp only [List.dropWhile_cons]
    split
    · simp only [List.length_cons]; omega
    · exact Nat.le_refl _

/-- The tokens of a text that starts at position `pos`. -/
def scan (pos : Nat) (cs : List Char) : Except PatternError (List Token) :=
  match cs with
  | [] => .ok []
  | c :: rest =>
    if Text.isBlank c then scan (pos + 1) rest
    else if c = '(' then (scan (pos + 1) rest).map (⟨.opening, pos⟩ :: ·)
    else if c = ')' then (scan (pos + 1) rest).map (⟨.closing, pos⟩ :: ·)
    else if c = '"' then
      match h : scanName rest with
      | none => .error (.unterminated pos)
      | some (name, after) =>
        have := scanName_length h
        (scan (pos + 1 + (rest.length - after.length)) after).map (⟨.name name, pos + 1⟩ :: ·)
    else
      let word := rest.takeWhile isSymbolChar
      let after := rest.dropWhile isSymbolChar
      have := length_dropWhile_le isSymbolChar rest
      (scan (pos + 1 + word.length) after).map (⟨.symbol (c :: word), pos⟩ :: ·)
termination_by cs.length
decreasing_by all_goals simp_all; try omega

/-- The tokens of a text. -/
def tokens (s : String) : Except PatternError (List Token) := scan 0 s.toList

end Credence.Pattern
