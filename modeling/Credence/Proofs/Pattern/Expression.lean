import Credence.Proofs.Pattern.Tokens
/-!
# Tokens by a regular expression

Tokens are described by one regular expression, which a backtracking matcher tries from
a place on: it takes alternatives in their order and as many repetitions as it can, and
gives back what it took where the rest of the expression does not match. The outcomes of
an expression are listed here in the order in which such a matcher reaches them, and the
first one counts.

From a place with a character ahead that is not blank, the matcher finds the token that
a scan of the text takes first, and behind it the place where the scan goes on. So it
always finds one, and moves by a character at least.
-/

namespace Credence.Text

/-! ## Matching -/

/-- What a group of an expression matched, and where. -/
structure Capture where
  group : Nat
  start : Nat
  text : List Char

/-- A place in a text: the number of characters before it, those behind it, and what the groups
matched on the way there, the last one first. -/
structure Cursor where
  pos : Nat
  rest : List Char
  captures : List Capture

/-- A regular expression. -/
inductive Expression where
  | char (p : Char → Bool)
  | seq (r s : Expression)
  | alt (r s : Expression)
  | star (r : Expression)
  | group (n : Nat) (r : Expression)

/-- What a repetition leads to: one round more wherever there is one, and then none. -/
def repeated (round : Cursor → List Cursor) : Nat → Cursor → List Cursor
  | 0, c => [c]
  | n + 1, c => (round c).flatMap (repeated round n) ++ [c]

/-- Notes what a group matched between two places. -/
def Cursor.capture (n : Nat) (c d : Cursor) : Cursor :=
  { d with captures := ⟨n, c.pos, c.rest.take (d.pos - c.pos)⟩ :: d.captures }

/-- The places that an expression leads to, in the order of preference. No repetition has more
rounds than there are characters, as a round takes one at least. -/
def Expression.outcomes : Expression → Cursor → List Cursor
  | .char p, c =>
    match c.rest with
    | [] => []
    | x :: rest => if p x then [{ c with pos := c.pos + 1, rest := rest }] else []
  | .seq r s, c => (r.outcomes c).flatMap s.outcomes
  | .alt r s, c => r.outcomes c ++ s.outcomes c
  | .star r, c => repeated r.outcomes c.rest.length c
  | .group n r, c => (r.outcomes c).map (Cursor.capture n c)

/-- The first outcome of an expression from a place in a text. -/
def Expression.firstMatch (r : Expression) (pos : Nat) (cs : List Char) : Option Cursor :=
  (r.outcomes ⟨pos, cs, []⟩).head?

/-- What a group matched, if it took part. -/
def Cursor.text? (c : Cursor) (n : Nat) : Option (List Char) :=
  (c.captures.find? fun k => k.group = n).map Capture.text

/-- Where the last group started that took part. -/
def Cursor.lastStart (c : Cursor) : Nat := (c.captures.head?.map Capture.start).getD c.pos

/-- The place behind the characters of a class that come next. -/
def Cursor.past (p : Char → Bool) (c : Cursor) : Cursor :=
  { c with pos := c.pos + (c.rest.takeWhile p).length, rest := c.rest.dropWhile p }

theorem head?_flatMap_of_head? {α β : Type} {xs : List α} {x : α} {y : β} {f : α → List β}
    (hx : xs.head? = some x) (hy : (f x).head? = some y) : (xs.flatMap f).head? = some y := by
  cases xs with
  | nil => cases hx
  | cons z xs =>
    cases hx
    rw [List.flatMap_cons, List.head?_append, hy]
    rfl

section Characters

variable {p : Char → Bool} {x : Char} (pos : Nat) (rest : List Char) (captures : List Capture)

theorem outcomes_char (hx : p x = true) :
    (Expression.char p).outcomes ⟨pos, x :: rest, captures⟩ = [⟨pos + 1, rest, captures⟩] :=
  if_pos hx

theorem outcomes_char_of_not (hx : p x = false) :
    (Expression.char p).outcomes ⟨pos, x :: rest, captures⟩ = [] :=
  if_neg (by rw [hx]; exact Bool.false_ne_true)

/-- A repeated class of characters prefers all that come next. -/
theorem head?_star_char (p : Char → Bool) :
    ((Expression.star (.char p)).outcomes ⟨pos, rest, captures⟩).head? =
      some (Cursor.past p ⟨pos, rest, captures⟩) := by
  induction rest generalizing pos with
  | nil => rfl
  | cons x rest ih =>
    show ((((Expression.char p).outcomes ⟨pos, x :: rest, captures⟩).flatMap
      (repeated (Expression.char p).outcomes rest.length)) ++ [_]).head? = _
    unfold Cursor.past
    cases hx : p x with
    | false =>
      rw [outcomes_char_of_not pos rest captures hx]
      simp [hx]
    | true =>
      have hrest : (repeated (Expression.char p).outcomes rest.length
          ⟨pos + 1, rest, captures⟩).head? = _ := ih (pos + 1)
      rw [outcomes_char pos rest captures hx, List.flatMap_singleton, List.head?_append, hrest]
      simp [Cursor.past, hx, Nat.add_comm, Nat.add_left_comm]

end Characters

end Credence.Text

namespace Credence.Pattern

open Text

/-! ## The expression of tokens -/

/-- A character of a quoted name, or an escaped one of the same line. -/
def nameChar : Expression :=
  .alt (.char fun c => c != '"' && c != '\\') (.seq (.char (· == '\\')) (.char (· != '\n')))

/-- A quoted name, whose characters are the third group. -/
def quotedName : Expression :=
  .seq (.char (· == '"')) (.seq (.group 3 (.star nameChar)) (.char (· == '"')))

/-- A parenthesis, a quoted name, a quote that nothing closes, or a symbol. -/
def lexeme : Expression :=
  .alt (.group 1 (.char (· == '('))) <|
  .alt (.group 2 (.char (· == ')'))) <|
  .alt quotedName <|
  .alt (.group 4 (.char (· == '"')))
    (.group 5 (.seq (.char isSymbolChar) (.star (.char isSymbolChar))))

/-- A lexeme after any number of blanks. -/
def tokenExpression : Expression := .seq (.star (.char Text.isBlank)) lexeme

/-- A quoted name without the backslashes that escape a character of the same line. -/
def unescape : List Char → List Char
  | [] => []
  | '\\' :: c :: rest => if c = '\n' then '\\' :: unescape (c :: rest) else c :: unescape rest
  | c :: rest => c :: unescape rest

/-- What one match of the expression gives. -/
inductive Match where
  | token (t : Token) (pos : Nat) (rest : List Char)
  | unterminated (pos : Nat)
  | unexpected (pos : Nat)

/-- What the groups of a match stand for: the first one that took part tells the sort. -/
def found (m : Cursor) : Match :=
  let start := m.lastStart
  if (m.text? 1).isSome then .token ⟨.opening, start⟩ m.pos m.rest
  else if (m.text? 2).isSome then .token ⟨.closing, start⟩ m.pos m.rest
  else
    match m.text? 3 with
    | some text => .token ⟨.name (unescape text), start⟩ m.pos m.rest
    | none =>
      if (m.text? 4).isSome then .unterminated start
      else .token ⟨.symbol ((m.text? 5).getD []), start⟩ m.pos m.rest

/-- What one match of the expression from a place on gives. -/
def nextToken (pos : Nat) (cs : List Char) : Match :=
  match tokenExpression.firstMatch pos cs with
  | none => .unexpected pos
  | some m => found m

/-! ## Quoted names -/

section NameChars

variable {x : Char} (pos : Nat) (rest : List Char) (captures : List Capture)

theorem outcomes_nameChar (hquote : x ≠ '"') (hslash : x ≠ '\\') :
    nameChar.outcomes ⟨pos, x :: rest, captures⟩ = [⟨pos + 1, rest, captures⟩] := by
  simp [nameChar, Expression.outcomes, hquote, hslash]

theorem outcomes_nameChar_escaped (hline : x ≠ '\n') :
    nameChar.outcomes ⟨pos, '\\' :: x :: rest, captures⟩ = [⟨pos + 2, rest, captures⟩] := by
  simp [nameChar, Expression.outcomes, hline]

theorem outcomes_nameChar_nil : nameChar.outcomes ⟨pos, [], captures⟩ = [] := rfl

theorem outcomes_nameChar_quote : nameChar.outcomes ⟨pos, '"' :: rest, captures⟩ = [] := rfl

theorem outcomes_nameChar_slash (hrest : rest.head? = none ∨ rest.head? = some '\n') :
    nameChar.outcomes ⟨pos, '\\' :: rest, captures⟩ = [] := by
  cases rest with
  | nil => rfl
  | cons x rest =>
    obtain rfl : x = '\n' := by simpa using hrest
    rfl

end NameChars

/-- A repetition whose round leads nowhere. -/
theorem repeated_of_nil {round : Cursor → List Cursor} {c : Cursor} (h : round c = []) (n : Nat) :
    repeated round n c = [c] := by
  cases n with
  | zero => rfl
  | succ n =>
    unfold repeated
    rw [h]
    rfl

/-- A repetition whose round leads to one place. -/
theorem repeated_of_singleton {round : Cursor → List Cursor} {c d : Cursor} (h : round c = [d])
    (n : Nat) : repeated round (n + 1) c = repeated round n d ++ [c] := by
  rw [repeated, h, List.flatMap_singleton]

/-- What needs a quote behind name characters sees the closing one only, and the name before it
without its backslashes; it sees nothing when no quote closes the name. -/
def SeesName (f : Cursor → List Cursor) (cs : List Char) : Option (List Char × List Char) → Prop
  | none => ∀ (n pos : Nat) (captures : List Capture), cs.length ≤ n →
      (repeated nameChar.outcomes n ⟨pos, cs, captures⟩).flatMap f = []
  | some (name, after) => ∃ raw, cs = raw ++ '"' :: after ∧ unescape raw = name ∧
      ∀ (n pos : Nat) (captures : List Capture), cs.length ≤ n →
        (repeated nameChar.outcomes n ⟨pos, cs, captures⟩).flatMap f =
          f ⟨pos + raw.length, '"' :: after, captures⟩

section SeesName

variable {f : Cursor → List Cursor} (hf : ∀ d : Cursor, d.rest.head? ≠ some '"' → f d = [])
include hf

/-- A place with no name character ahead. -/
theorem SeesName.stuck {cs : List Char} (hcs : cs.head? ≠ some '"')
    (hstuck : ∀ pos captures, nameChar.outcomes ⟨pos, cs, captures⟩ = []) :
    SeesName f cs none := by
  intro n pos captures _
  rw [repeated_of_nil (hstuck pos captures), List.flatMap_singleton]
  exact hf _ hcs

/-- One character of the name more, which may be escaped. -/
theorem SeesName.step {front cs : List Char} {c : Char} {r : Option (List Char × List Char)}
    (hfront : front ≠ []) (hquote : (front ++ cs).head? ≠ some '"')
    (hunescape : ∀ raw, unescape (front ++ raw) = c :: unescape raw)
    (hround : ∀ pos captures, nameChar.outcomes ⟨pos, front ++ cs, captures⟩ =
      [⟨pos + front.length, cs, captures⟩])
    (h : SeesName f cs r) : SeesName f (front ++ cs) (r.map fun r => (c :: r.1, r.2)) := by
  -- One round takes the characters in front; with no round at all there is no quote ahead.
  have hmore : ∀ n pos captures,
      (repeated nameChar.outcomes (n + 1) ⟨pos, front ++ cs, captures⟩).flatMap f =
        (repeated nameChar.outcomes n ⟨pos + front.length, cs, captures⟩).flatMap f := by
    intro n pos captures
    rw [repeated_of_singleton (hround pos captures), List.flatMap_append, List.flatMap_singleton,
      hf _ hquote, List.append_nil]
  have hlen : 0 < front.length := List.length_pos_iff.2 hfront
  cases r with
  | none =>
    intro n pos captures hn
    rw [List.length_append] at hn
    obtain ⟨m, rfl⟩ := Nat.exists_eq_succ_of_ne_zero (n := n) (by omega)
    rw [hmore]
    exact h m _ captures (by omega)
  | some r =>
    obtain ⟨name, after⟩ := r
    obtain ⟨raw, rfl, rfl, hraw⟩ := h
    refine ⟨front ++ raw, (List.append_assoc ..).symm, hunescape raw, ?_⟩
    intro n pos captures hn
    rw [List.length_append] at hn
    obtain ⟨m, rfl⟩ := Nat.exists_eq_succ_of_ne_zero (n := n) (by omega)
    rw [hmore, hraw m _ captures (by omega), List.length_append, Nat.add_assoc]

theorem seesName_scanName (cs : List Char) : SeesName f cs (scanName cs) := by
  fun_induction scanName cs with
  | case1 => exact .stuck hf (by simp) outcomes_nameChar_nil
  | case2 r =>
    refine ⟨[], rfl, rfl, fun n pos captures _ => ?_⟩
    rw [repeated_of_nil (outcomes_nameChar_quote pos r captures), List.flatMap_singleton]
    rfl
  | case3 r =>
    exact .stuck hf (by simp) fun pos captures =>
      outcomes_nameChar_slash pos ('\n' :: r) captures (.inr rfl)
  | case4 c r hline ih =>
    show SeesName f (['\\', c] ++ r) _
    refine .step hf (by simp) (by simp) (fun raw => ?_)
      (fun pos captures => outcomes_nameChar_escaped pos r captures hline) ih
    rw [List.cons_append, List.singleton_append, unescape, if_neg hline]
  | case5 r _ hnext =>
    refine .stuck hf (by simp) fun pos captures => outcomes_nameChar_slash pos r captures ?_
    cases r with
    | nil => exact .inl rfl
    | cons c r => exact (hnext c r rfl rfl).elim
  | case6 c r hquote hnext hslash ih =>
    show SeesName f ([c] ++ r) _
    refine .step hf (by simp) (by simpa using hquote) (fun raw => ?_)
      (fun pos captures => outcomes_nameChar pos r captures hquote hslash) ih
    rw [List.singleton_append, unescape]
    rintro d ds rfl
    exact absurd rfl hslash

end SeesName

/-! ## Lexemes -/

section Lexemes

variable (pos : Nat) (rest : List Char)

theorem lexeme_opening :
    (lexeme.outcomes ⟨pos, '(' :: rest, []⟩).head? =
      some ⟨pos + 1, rest, [⟨1, pos, ['(']⟩]⟩ := by
  simp [lexeme, Expression.outcomes, Cursor.capture]

theorem lexeme_closing :
    (lexeme.outcomes ⟨pos, ')' :: rest, []⟩).head? =
      some ⟨pos + 1, rest, [⟨2, pos, [')']⟩]⟩ := by
  simp [lexeme, Expression.outcomes, Cursor.capture]

/-- Behind an opening quote the closing one decides. -/
theorem outcomes_quotedName :
    SeesName (fun d => (Expression.char (· == '"')).outcomes
        (Cursor.capture 3 ⟨pos + 1, rest, []⟩ d)) rest (scanName rest) ∧
      quotedName.outcomes ⟨pos, '"' :: rest, []⟩ =
        (repeated nameChar.outcomes rest.length ⟨pos + 1, rest, []⟩).flatMap fun d =>
          (Expression.char (· == '"')).outcomes (Cursor.capture 3 ⟨pos + 1, rest, []⟩ d) := by
  constructor
  · refine seesName_scanName (fun d hd => ?_) rest
    obtain ⟨pos', cs, captures⟩ := d
    cases cs with
    | nil => rfl
    | cons x cs => exact outcomes_char_of_not pos' cs _ (by simpa using hd)
  · simp [quotedName, Expression.outcomes, List.flatMap_map]

/-- A quote that opens no name is the lexeme of its own that reports it. -/
theorem lexeme_quote :
    (lexeme.outcomes ⟨pos, '"' :: rest, []⟩).head? =
      (quotedName.outcomes ⟨pos, '"' :: rest, []⟩).head?.or
        (some ⟨pos + 1, rest, [⟨4, pos, ['"']⟩]⟩) := by
  simp [lexeme, Expression.outcomes, Cursor.capture]

theorem lexeme_name {name after : List Char} (h : scanName rest = some (name, after)) :
    ∃ raw, rest = raw ++ '"' :: after ∧ unescape raw = name ∧
      (lexeme.outcomes ⟨pos, '"' :: rest, []⟩).head? =
        some ⟨pos + 1 + raw.length + 1, after, [⟨3, pos + 1, raw⟩]⟩ := by
  obtain ⟨hsees, houtcomes⟩ := outcomes_quotedName pos rest
  rw [h] at hsees
  obtain ⟨raw, hrest, hname, hraw⟩ := hsees
  refine ⟨raw, hrest, hname, ?_⟩
  rw [lexeme_quote, houtcomes, hraw rest.length (pos + 1) [] (Nat.le_refl _), hrest]
  simp [Expression.outcomes, Cursor.capture]

theorem lexeme_unterminated (h : scanName rest = none) :
    (lexeme.outcomes ⟨pos, '"' :: rest, []⟩).head? =
      some ⟨pos + 1, rest, [⟨4, pos, ['"']⟩]⟩ := by
  obtain ⟨hsees, houtcomes⟩ := outcomes_quotedName pos rest
  rw [h] at hsees
  rw [lexeme_quote, houtcomes, hsees rest.length (pos + 1) [] (Nat.le_refl _)]
  rfl

theorem lexeme_symbol {c : Char} (hc : isSymbolChar c = true) :
    (lexeme.outcomes ⟨pos, c :: rest, []⟩).head? =
      some ⟨pos + 1 + (rest.takeWhile isSymbolChar).length, rest.dropWhile isSymbolChar,
        [⟨5, pos, c :: rest.takeWhile isSymbolChar⟩]⟩ := by
  obtain ⟨_, hopen, hclose, hquote⟩ := isSymbolChar_iff.1 hc
  have hword := head?_star_char (pos + 1) rest [] isSymbolChar
  have htake : rest.take (rest.takeWhile isSymbolChar).length = rest.takeWhile isSymbolChar :=
    (List.prefix_iff_eq_take.1 (List.takeWhile_prefix _)).symm
  have hlen : pos + 1 + (rest.takeWhile isSymbolChar).length - pos =
      (rest.takeWhile isSymbolChar).length + 1 := by omega
  have hgroup : (lexeme.outcomes ⟨pos, c :: rest, []⟩) =
      ((Expression.star (.char isSymbolChar)).outcomes ⟨pos + 1, rest, []⟩).map
        (Cursor.capture 5 ⟨pos, c :: rest, []⟩) := by
    simp [lexeme, quotedName, Expression.outcomes, hopen, hclose, hquote, hc]
  rw [hgroup, List.head?_map, hword]
  simp [Cursor.capture, Cursor.past, hlen, htake]

end Lexemes

/-! ## The next token -/

/-- Blanks in front are passed over before the lexeme is matched. -/
theorem nextToken_of_lexeme {blanks rest : List Char} {c : Char} {m : Cursor} {pos : Nat}
    (hblanks : ∀ b ∈ blanks, Text.isBlank b = true) (hc : Text.isBlank c = false)
    (hm : (lexeme.outcomes ⟨pos + blanks.length, c :: rest, []⟩).head? = some m) :
    nextToken pos (blanks ++ c :: rest) = found m := by
  have htake : (blanks ++ c :: rest).takeWhile Text.isBlank = blanks := by
    rw [List.takeWhile_append_of_pos hblanks]
    simp [hc]
  have hdrop : (blanks ++ c :: rest).dropWhile Text.isBlank = c :: rest := by
    rw [List.dropWhile_append_of_pos hblanks]
    simp [hc]
  have hpast := Text.head?_star_char pos (blanks ++ c :: rest) [] Text.isBlank
  unfold Text.Cursor.past at hpast
  rw [htake, hdrop] at hpast
  have hfirst : tokenExpression.firstMatch pos (blanks ++ c :: rest) = some m :=
    Text.head?_flatMap_of_head? hpast hm
  unfold nextToken
  rw [hfirst]

theorem takes_blanks {blanks : List Char} (hblanks : ∀ b ∈ blanks, Text.isBlank b = true)
    (pos : Nat) (rest : List Char) :
    Takes pos (blanks ++ rest) [] (pos + blanks.length) rest := by
  induction blanks generalizing pos with
  | nil => exact Takes.nothing pos rest
  | cons b blanks ih =>
    obtain ⟨hb, hblanks⟩ := List.forall_mem_cons.1 hblanks
    have htakes := (takes_blank hb pos (blanks ++ rest)).trans (ih hblanks (pos + 1))
    rw [List.length_cons, Nat.add_comm blanks.length, ← Nat.add_assoc]
    exact htakes

/-- The match takes one token or reports a quote, as the scan does; what it takes is never
nothing. -/
inductive Advances (pos : Nat) (cs : List Char) : Prop
  | token {t : Token} {taken rest : List Char} (hne : taken ≠ []) (hcs : cs = taken ++ rest)
    (hnext : nextToken pos cs = .token t (pos + taken.length) rest)
    (hscan : Takes pos cs [t] (pos + taken.length) rest)
  | unterminated {start : Nat} (hnext : nextToken pos cs = .unterminated start)
    (hscan : scan pos cs = .error (.unterminated start))

theorem advances_of_lexeme {blanks after : List Char} {c : Char} {t : Token} (front : List Char)
    {captures : List Capture} {pos : Nat} (hblanks : ∀ b ∈ blanks, Text.isBlank b = true)
    (hc : Text.isBlank c = false)
    (hm : (lexeme.outcomes ⟨pos + blanks.length, c :: front ++ after, []⟩).head? =
      some ⟨pos + blanks.length + 1 + front.length, after, captures⟩)
    (hfound : found ⟨pos + blanks.length + 1 + front.length, after, captures⟩ =
      .token t (pos + blanks.length + 1 + front.length) after)
    (htakes : Takes (pos + blanks.length) (c :: front ++ after) [t]
      (pos + blanks.length + 1 + front.length) after) :
    Advances pos (blanks ++ (c :: front ++ after)) := by
  have hlen : pos + (blanks ++ c :: front).length = pos + blanks.length + 1 + front.length := by
    simp only [List.length_append, List.length_cons]
    omega
  have hsplit : blanks ++ (c :: front ++ after) = blanks ++ c :: front ++ after :=
    (List.append_assoc ..).symm
  refine .token (t := t) (by simp) hsplit ?_ ?_
  · rw [hlen]
    exact (nextToken_of_lexeme hblanks hc hm).trans hfound
  · rw [hlen]
    exact (takes_blanks hblanks pos _).trans htakes

/-- The first character that is not blank. -/
theorem exists_first {cs : List Char} (h : ∃ c ∈ cs, Text.isBlank c = false) :
    ∃ blanks c rest, cs = blanks ++ c :: rest ∧ (∀ b ∈ blanks, Text.isBlank b = true) ∧
      Text.isBlank c = false := by
  have hsome : (cs.find? fun c => !Text.isBlank c).isSome = true := by
    rw [List.find?_isSome]
    obtain ⟨c, hc, hblank⟩ := h
    exact ⟨c, hc, by rw [hblank]; rfl⟩
  obtain ⟨c, hc⟩ := Option.isSome_iff_exists.1 hsome
  obtain ⟨hblank, blanks, rest, hcs, hblanks⟩ := List.find?_eq_some_iff_append.1 hc
  exact ⟨blanks, c, rest, hcs, fun b hb => by simpa using hblanks b hb, by simpa using hblank⟩

/-- A character that is not blank begins a lexeme. -/
theorem advances {cs : List Char} (h : ∃ c ∈ cs, Text.isBlank c = false) (pos : Nat) :
    Advances pos cs := by
  obtain ⟨blanks, c, rest, rfl, hblanks, hc⟩ := exists_first h
  by_cases hopen : c = '('
  · subst hopen
    exact advances_of_lexeme [] hblanks hc (lexeme_opening _ rest) rfl
      (takes_opening _ rest)
  by_cases hclose : c = ')'
  · subst hclose
    exact advances_of_lexeme [] hblanks hc (lexeme_closing _ rest) rfl
      (takes_closing _ rest)
  by_cases hquote : c = '"'
  · subst hquote
    cases hname : scanName rest with
    | none =>
      have hnext : nextToken pos (blanks ++ '"' :: rest) = .unterminated (pos + blanks.length) :=
        nextToken_of_lexeme hblanks hc (lexeme_unterminated _ rest hname)
      have hskip := takes_blanks hblanks pos ('"' :: rest)
      unfold Takes at hskip
      refine .unterminated hnext ?_
      rw [hskip, scan_unterminated hname]
      rfl
    | some r =>
      obtain ⟨name, after⟩ := r
      obtain ⟨raw, rfl, rfl, hm⟩ := lexeme_name (pos + blanks.length) rest hname
      have htakes := takes_name hname (pos + blanks.length)
      have hlen : (raw ++ '"' :: after).length - after.length = (raw ++ ['"']).length := by
        simp only [List.length_append, List.length_cons, List.length_nil]
        omega
      have hsplit : raw ++ '"' :: after = raw ++ ['"'] ++ after := by
        rw [List.append_assoc, List.singleton_append]
      rw [hlen] at htakes
      rw [hsplit] at hm htakes ⊢
      have hend : pos + blanks.length + 1 + raw.length + 1 =
          pos + blanks.length + 1 + (raw ++ ['"']).length := by
        rw [List.length_append]
        rfl
      rw [hend] at hm
      exact advances_of_lexeme _ hblanks hc hm rfl htakes
  · have hsymbol : isSymbolChar c = true := isSymbolChar_iff.2 ⟨hc, hopen, hclose, hquote⟩
    have hm := lexeme_symbol (pos + blanks.length) rest hsymbol
    have hword : ∀ d ∈ c :: rest.takeWhile isSymbolChar, isSymbolChar d = true :=
      List.forall_mem_cons.2 ⟨hsymbol, fun d hd => List.all_eq_true.1 List.all_takeWhile d hd⟩
    have htakes := takes_symbol hword (atBreak_dropWhile rest) (pos + blanks.length)
    have hsplit : c :: rest.takeWhile isSymbolChar ++ rest.dropWhile isSymbolChar = c :: rest := by
      rw [List.cons_append, List.takeWhile_append_dropWhile]
    rw [← hsplit] at hm ⊢
    exact advances_of_lexeme _ hblanks hc hm rfl htakes

end Credence.Pattern
