import Credence.Pattern.Source
import Credence.Proofs.Except
import Credence.Proofs.Pattern.Derivation
import Credence.Proofs.Pattern.Expression
/-!
# The language of patterns

A text is taken apart by matching the expression of tokens again and again, up to where
only blanks are left. Each match takes a character at least, so this comes to an end, and
what it gives is what the scan of the text gives. With the grammar over lexemes this says
which texts spell patterns: those whose tokens derive one. Every other text fails with an
error of patterns.
-/

namespace Credence.Pattern

/-! ## The loop -/

/-- The length of a text without the blanks at its end. -/
def trimmedLength (cs : List Char) : Nat := (cs.reverse.dropWhile Text.isBlank).length

/-- The end of the trimmed text is still ahead as long as there is something but blanks. -/
theorem lt_trimmedLength_iff {before cs : List Char} :
    before.length < trimmedLength (before ++ cs) ↔ ∃ c ∈ cs, Text.isBlank c = false := by
  unfold trimmedLength
  rw [List.reverse_append]
  constructor
  · intro hlt
    by_cases hblanks : ∀ c ∈ cs, Text.isBlank c = true
    · have hle := length_dropWhile_le Text.isBlank before.reverse
      rw [List.dropWhile_append_of_pos fun c hc => hblanks c (List.mem_reverse.1 hc)] at hlt
      rw [List.length_reverse] at hle
      exact absurd hlt (Nat.not_lt.2 hle)
    · simpa using hblanks
  · rintro ⟨d, hd, hblank⟩
    obtain ⟨blanks, c, rest, hcs, hblanks, hc⟩ := exists_first ⟨d, List.mem_reverse.2 hd, hblank⟩
    rw [hcs, List.append_assoc, List.dropWhile_append_of_pos hblanks, List.cons_append,
      List.dropWhile_cons_of_neg (by simp [hc])]
    simp only [List.length_cons, List.length_append, List.length_reverse]
    omega

/-- What a text is taken apart into. -/
inductive Lexed where
  | tokens (ts : List Token)
  | unterminated (pos : Nat)
  | unexpected (pos : Nat)

/-- Puts a token in front. -/
def Lexed.cons (t : Token) : Lexed → Lexed
  | .tokens ts => .tokens (t :: ts)
  | r => r

/-- The loop over the tokens: from a place in the text up to `stop` it gives `r`. -/
inductive LexesFrom (stop : Nat) : Nat → List Char → Lexed → Prop
  | done {pos : Nat} {cs : List Char} (hpos : stop ≤ pos) : LexesFrom stop pos cs (.tokens [])
  | token {pos pos' : Nat} {cs rest : List Char} {t : Token} {r : Lexed} (hpos : pos < stop)
    (hnext : nextToken pos cs = .token t pos' rest) (hrest : LexesFrom stop pos' rest r) :
    LexesFrom stop pos cs (r.cons t)
  | unterminated {pos start : Nat} {cs : List Char} (hpos : pos < stop)
    (hnext : nextToken pos cs = .unterminated start) : LexesFrom stop pos cs (.unterminated start)
  | unexpected {pos at' : Nat} {cs : List Char} (hpos : pos < stop)
    (hnext : nextToken pos cs = .unexpected at') : LexesFrom stop pos cs (.unexpected at')

/-- The text is taken apart into `r`. -/
def Lexes (s : String) (r : Lexed) : Prop := LexesFrom (trimmedLength s.toList) 0 s.toList r

/-- A place that the loop reaches in a text. -/
inductive Reaches (text : List Char) : Nat → List Char → Prop
  | start : Reaches text 0 text
  | next {pos pos' : Nat} {cs rest : List Char} {t : Token} (h : Reaches text pos cs)
    (hpos : pos < trimmedLength text) (hnext : nextToken pos cs = .token t pos' rest) :
    Reaches text pos' rest

/-! ## The loop and the scan -/

section Loop

variable {text : List Char}

/-- A place that counts the characters before it. -/
def IsPlace (text : List Char) (pos : Nat) (cs : List Char) : Prop :=
  ∃ before, text = before ++ cs ∧ before.length = pos

theorem IsPlace.start : IsPlace text 0 text := ⟨[], rfl, rfl⟩

theorem IsPlace.behind {pos : Nat} {taken rest : List Char}
    (h : IsPlace text pos (taken ++ rest)) : IsPlace text (pos + taken.length) rest := by
  obtain ⟨before, rfl, rfl⟩ := h
  exact ⟨before ++ taken, (List.append_assoc ..).symm, List.length_append⟩

theorem IsPlace.lt_iff {pos : Nat} {cs : List Char} (h : IsPlace text pos cs) :
    pos < trimmedLength text ↔ ∃ c ∈ cs, Text.isBlank c = false := by
  obtain ⟨before, rfl, rfl⟩ := h
  exact lt_trimmedLength_iff

theorem IsPlace.advances {pos : Nat} {cs : List Char} (h : IsPlace text pos cs)
    (hpos : pos < trimmedLength text) : Advances pos cs :=
  Pattern.advances (h.lt_iff.1 hpos) pos

theorem Reaches.isPlace {pos : Nat} {cs : List Char} (h : Reaches text pos cs) :
    IsPlace text pos cs := by
  induction h with
  | start => exact .start
  | @next pos pos' cs rest t _ hpos hnext ih =>
    cases ih.advances hpos with
    | token _ hcs hnext' _ =>
      rw [hnext] at hnext'
      cases hnext'
      rw [hcs] at ih
      exact ih.behind
    | unterminated hnext' _ =>
      rw [hnext] at hnext'
      cases hnext'

/-- What the loop gives is what the scan gives. -/
def Lexed.Of : Lexed → Except PatternError (List Token) → Prop
  | .tokens ts, r => r = .ok ts
  | .unterminated pos, r => r = .error (.unterminated pos)
  | .unexpected _, _ => False

theorem Lexed.Of.cons {r : Lexed} {pos pos' : Nat} {cs rest : List Char} {t : Token}
    (htakes : Takes pos cs [t] pos' rest) (h : r.Of (scan pos' rest)) :
    (r.cons t).Of (scan pos cs) := by
  rw [show scan pos cs = _ from htakes]
  cases r with
  | tokens ts =>
    rw [show scan pos' rest = _ from h]
    rfl
  | unterminated start =>
    rw [show scan pos' rest = _ from h]
    rfl
  | unexpected start => exact h

theorem LexesFrom.of_scan {pos : Nat} {cs : List Char} {r : Lexed} (hplace : IsPlace text pos cs)
    (h : LexesFrom (trimmedLength text) pos cs r) : r.Of (scan pos cs) := by
  induction h with
  | @done pos cs hpos =>
    have hblanks : ∀ c ∈ cs, Text.isBlank c = true := by
      intro c hc
      cases hblank : Text.isBlank c with
      | true => rfl
      | false => exact absurd (hplace.lt_iff.2 ⟨c, hc, hblank⟩) (Nat.not_lt.2 hpos)
    have htakes := takes_blanks hblanks pos []
    rw [List.append_nil] at htakes
    unfold Takes at htakes
    rw [scan_nil] at htakes
    exact htakes
  | @token pos pos' cs rest t r hpos hnext hrest ih =>
    cases hplace.advances hpos with
    | token _ hcs hnext' htakes =>
      rw [hnext] at hnext'
      cases hnext'
      rw [hcs] at hplace
      exact (ih hplace.behind).cons htakes
    | unterminated hnext' _ =>
      rw [hnext] at hnext'
      cases hnext'
  | @unterminated pos start cs hpos hnext =>
    cases hplace.advances hpos with
    | token _ _ hnext' _ =>
      rw [hnext] at hnext'
      cases hnext'
    | unterminated hnext' hscan =>
      rw [hnext] at hnext'
      cases hnext'
      exact hscan
  | @unexpected pos start cs hpos hnext =>
    cases hplace.advances hpos with
    | token _ _ hnext' _ =>
      rw [hnext] at hnext'
      cases hnext'
    | unterminated hnext' _ =>
      rw [hnext] at hnext'
      cases hnext'

/-- The loop ends, since what is left gets shorter. -/
theorem exists_lexesFrom {pos : Nat} {cs : List Char} (hplace : IsPlace text pos cs) :
    ∃ r, LexesFrom (trimmedLength text) pos cs r := by
  induction hn : cs.length using Nat.strongRecOn generalizing pos cs with
  | ind n ih =>
    by_cases hpos : pos < trimmedLength text
    · cases hplace.advances hpos with
      | @token t taken rest hne hcs hnext _ =>
        subst hcs hn
        have hshort : rest.length < (taken ++ rest).length := by
          have htaken : 0 < taken.length := List.length_pos_iff.2 hne
          rw [List.length_append]
          omega
        obtain ⟨r, hr⟩ := ih rest.length hshort hplace.behind rfl
        exact ⟨_, .token hpos hnext hr⟩
      | unterminated hnext _ => exact ⟨_, .unterminated hpos hnext⟩
    · exact ⟨_, .done (Nat.not_lt.1 hpos)⟩

end Loop

theorem lexes_tokens_iff {s : String} {ts : List Token} :
    Lexes s (.tokens ts) ↔ tokens s = .ok ts := by
  constructor
  · exact LexesFrom.of_scan .start
  · intro h
    have hstart : IsPlace s.toList 0 s.toList := .start
    obtain ⟨r, hr⟩ := exists_lexesFrom hstart
    have hof : r.Of (tokens s) := hr.of_scan .start
    rw [h] at hof
    cases r with
    | tokens us =>
      cases (hof : Except.ok ts = Except.ok us)
      exact hr
    | unterminated pos => exact absurd hof nofun
    | unexpected pos => exact absurd hof id

/-! ## The language -/

/-- The text is taken apart into tokens whose lexemes derive the pattern. -/
def Spells (s : String) (p : Pattern) : Prop :=
  ∃ ts, Lexes s (.tokens ts) ∧ Derives (ts.map Token.lexeme) p

theorem parse_iff_spells {s : String} {p : Pattern} : parse s = .ok p ↔ Spells s p := by
  unfold parse Spells
  constructor
  · intro h
    obtain ⟨ts, hts, hp⟩ := bind_eq_ok h
    exact ⟨ts, lexes_tokens_iff.2 hts, ofTokens_iff_derives.1 hp⟩
  · rintro ⟨ts, hts, hp⟩
    rw [lexes_tokens_iff.1 hts]
    exact ofTokens_iff_derives.2 hp

theorem Spells.unique {s : String} {p q : Pattern} (hp : Spells s p) (hq : Spells s q) :
    p = q := by
  obtain ⟨ts, hts, hp⟩ := hp
  obtain ⟨us, hus, hq⟩ := hq
  have hsame := lexes_tokens_iff.1 hts
  rw [lexes_tokens_iff.1 hus] at hsame
  cases hsame
  exact hp.unique hq

/-- At every place that the loop reaches, a match takes at least one character or finds a quote
that nothing closes, so the loop ends, and never for want of a match. A text is read as a pattern
exactly when its tokens derive that pattern, which is the only one they derive; every other text
fails with an error of patterns. -/
theorem parse_accepts (s : String) :
    (∀ pos cs, Reaches s.toList pos cs → pos < trimmedLength s.toList →
      (∃ t taken rest, nextToken pos cs = .token t (pos + taken.length) rest ∧
        cs = taken ++ rest ∧ taken ≠ []) ∨
      ∃ start, nextToken pos cs = .unterminated start) ∧
    (∃ r, Lexes s r) ∧ (∀ pos, ¬ Lexes s (.unexpected pos)) ∧
    (∀ p, (Source.text s).pattern = .ok p ↔ Spells s p) ∧
    (∀ p q, Spells s p → Spells s q → p = q) ∧
    ((∀ p, ¬ Spells s p) → ∃ e, (Source.text s).pattern = .error (.pattern e) ∧
      (Error.pattern e).family = "InvalidPatternError") := by
  have hsource : (Source.text s).pattern = (parse s).mapError .pattern := rfl
  refine ⟨fun pos cs hreach hpos => ?_, exists_lexesFrom .start, fun pos h => ?_, fun p => ?_,
    fun p q => Spells.unique, fun hnone => ?_⟩
  · cases hreach.isPlace.advances hpos with
    | @token t taken rest hne hcs hnext _ => exact .inl ⟨t, taken, rest, hnext, hcs, hne⟩
    | @unterminated start hnext _ => exact .inr ⟨start, hnext⟩
  · exact h.of_scan .start
  · rw [hsource, ← parse_iff_spells]
    cases parse s <;> simp [Except.mapError]
  · rw [hsource]
    cases hparse : parse s with
    | ok p => exact absurd (parse_iff_spells.1 hparse) (hnone p)
    | error e => exact ⟨e, rfl, rfl⟩

end Credence.Pattern
