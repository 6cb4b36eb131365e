import Credence.Proofs.Pattern.Grammar
/-!
# The grammar of patterns

The grammar over lexemes is a relation of its own here, which says nothing of
positions, of open links or of errors. The reader accepts a list of tokens exactly when
its lexemes derive a pattern, and gives that pattern, so no list of lexemes derives two.

That the reader accepts what is derived goes by the derivation, with any links open
around it and any tokens behind it. That it accepts nothing else goes along its own
recursion: the tokens it has still to read complete the innermost open link, then the
next one, and so on to the outermost.
-/

namespace Credence.Pattern

/-! ## Names of variables -/

/-- The name of a variable with its mark, which is put in front unless it is there. -/
def marked (name : List Char) : List Char :=
  if name.head? = some '$' then name else '$' :: name

theorem marked_of_head {name : List Char} (h : name.head? = some '$') : marked name = name :=
  if_pos h

theorem front_ofList_iff {cs : List Char} (hcs : cs ≠ []) :
    (String.ofList cs).front = '$' ↔ cs.head? = some '$' := by
  have hfront : (String.ofList cs).front = (String.ofList cs).front?.getD default := rfl
  rw [hfront, String.front?_eq, String.toList_ofList]
  cases cs with
  | nil => exact absurd rfl hcs
  | cons c cs => simp

/-- A name makes a variable when something follows its mark. -/
theorem ofVariable_text_iff {cs : List Char} {p : Pattern} :
    ofVariable (.text (.ofList cs)) = .ok p ↔
      2 ≤ (marked cs).length ∧ p = .var (.ofList (marked cs)) := by
  cases cs with
  | nil => simp [ofVariable, variableName, marked, Except.map]
  | cons c cs =>
    have hempty : (String.ofList (c :: cs)).isEmpty = false := by
      rw [String.isEmpty_eq_false_iff]
      intro h
      exact absurd (congrArg String.toList h) (by simp)
    have hname : (if (String.ofList (c :: cs)).front = '$' then String.ofList (c :: cs)
        else "$" ++ String.ofList (c :: cs)) = String.ofList (marked (c :: cs)) := by
      unfold marked
      simp only [front_ofList_iff (List.cons_ne_nil c cs)]
      split
      · rfl
      · rw [← String.toList_inj]
        simp
    unfold ofVariable variableName
    simp only [hempty, hname, Bool.false_eq_true, if_false, String.length_ofList]
    by_cases hlen : (marked (c :: cs)).length < 2
    · rw [if_pos hlen]
      simp [Except.map]
      omega
    · rw [if_neg hlen]
      simp only [Except.map, Except.ok.injEq]
      constructor
      · rintro rfl
        exact ⟨by omega, rfl⟩
      · rintro ⟨_, rfl⟩
        rfl

/-! ## Derivations -/

mutual

/-- The lexemes derive the pattern. -/
inductive Derives : List Lexeme → Pattern → Prop
  /-- A symbol with the mark of variables and something after it. -/
  | symbol {word : List Char} (hmark : word.head? = some '$') (hlen : 2 ≤ word.length) :
    Derives [.symbol word] (.var (.ofList word))
  /-- A node with its name. -/
  | node {word : List Char} {k : NodeKind} (hword : Kind.ofKeyword? (.ofList word) = some (.node k))
    (hk : k ≠ .variable) (name : List Char) :
    Derives [.opening, .symbol word, .name name, .closing] (.node (.node k) (.ofList name))
  /-- A variable node, whose name gets the mark of variables. -/
  | variableNode {word : List Char}
    (hword : Kind.ofKeyword? (.ofList word) = some (.node .variable)) {name : List Char}
    (hlen : 2 ≤ (marked name).length) :
    Derives [.opening, .symbol word, .name name, .closing] (.var (.ofList (marked name)))
  /-- A link with as many children as its kind accepts. -/
  | link {word : List Char} {k : LinkKind}
    (hword : Kind.ofKeyword? (.ofList word) = some (.link k)) {ls : List Lexeme}
    {cs : List Pattern} (hcs : DerivesEach ls cs) (hcount : k.accepts cs.length = true) :
    Derives (.opening :: .symbol word :: ls ++ [.closing]) (.link (.link k) cs)

/-- The lexemes derive the patterns one after the other. -/
inductive DerivesEach : List Lexeme → List Pattern → Prop
  | nil : DerivesEach [] []
  | cons {ls ls' : List Lexeme} {p : Pattern} {ps : List Pattern} (hp : Derives ls p)
    (hps : DerivesEach ls' ps) : DerivesEach (ls ++ ls') (p :: ps)

end

/-! ## What is derived is read -/

/-- Goes on behind a finished pattern with the given links open. -/
def resume (p : Pattern) (ts : List Token) (fs : List Frame) : Except PatternError Pattern :=
  match Frame.place p fs with
  | none => finish p ts
  | some fs => read ts fs

theorem read_symbol {word : List Char} (hmark : word.head? = some '$') (hlen : 2 ≤ word.length)
    (pos : Nat) (rest : List Token) (fs : List Frame) :
    read (⟨.symbol word, pos⟩ :: rest) fs = resume (.var (.ofList word)) rest fs := by
  have hvar : ofVariable (.text (.ofList word)) = .ok (.var (.ofList word)) := by
    rw [ofVariable_text_iff, marked_of_head hmark]
    exact ⟨hlen, rfl⟩
  rw [read.eq_def]
  simp only [hmark, hvar, if_true]
  rfl

theorem read_node {word name : List Char} {k : NodeKind} {p : Pattern}
    (hword : Kind.ofKeyword? (.ofList word) = some (.node k))
    (hp : ofNode k (.ofList name) = .ok p) (i j m n : Nat) (rest : List Token) (fs : List Frame) :
    read (⟨.opening, i⟩ :: ⟨.symbol word, j⟩ :: ⟨.name name, m⟩ :: ⟨.closing, n⟩ :: rest) fs =
      resume p rest fs := by
  rw [read.eq_def]
  simp only [hword, hp]
  rfl

/-- The tokens of a node in their order. -/
theorem eq_of_map_lexeme {ts : List Token} {a b c d : Lexeme}
    (h : ts.map Token.lexeme = [a, b, c, d]) :
    ∃ i j m n, ts = [⟨a, i⟩, ⟨b, j⟩, ⟨c, m⟩, ⟨d, n⟩] := by
  match ts, h with
  | [⟨_, i⟩, ⟨_, j⟩, ⟨_, m⟩, ⟨_, n⟩], rfl => exact ⟨i, j, m, n, rfl⟩

theorem read_link {word : List Char} {k : LinkKind}
    (hword : Kind.ofKeyword? (.ofList word) = some (.link k)) (i j : Nat) (rest : List Token)
    (fs : List Frame) :
    read (⟨.opening, i⟩ :: ⟨.symbol word, j⟩ :: rest) fs = read rest (⟨k, j, []⟩ :: fs) := by
  rw [read.eq_def]
  simp only [hword]

theorem read_closing {f : Frame} (hcount : f.kind.accepts f.children.length = true) (pos : Nat)
    (rest : List Token) (fs : List Frame) :
    read (⟨.closing, pos⟩ :: rest) (f :: fs) =
      resume (.link (.link f.kind) f.children.reverse) rest fs := by
  rw [read.eq_def]
  simp only [hcount, if_true]
  rfl

mutual

theorem read_of_derives {ls : List Lexeme} {p : Pattern} (h : Derives ls p) {ts : List Token}
    (hts : ts.map Token.lexeme = ls) (rest : List Token) (fs : List Frame) :
    read (ts ++ rest) fs = resume p rest fs := by
  cases h with
  | symbol hmark hlen =>
    obtain ⟨⟨_, pos⟩, rfl, rfl⟩ := List.map_eq_singleton_iff.1 hts
    exact read_symbol hmark hlen pos rest fs
  | @node word k hword hk name =>
    obtain ⟨i, j, m, n, rfl⟩ := eq_of_map_lexeme hts
    have hnode : ofNode k (.ofList name) = .ok (.node (.node k) (.ofList name)) := by
      cases k with
      | concept => rfl
      | predicate => rfl
      | _ => exact absurd rfl hk
    exact read_node hword hnode i j m n rest fs
  | variableNode hword hlen =>
    obtain ⟨i, j, m, n, rfl⟩ := eq_of_map_lexeme hts
    exact read_node hword (ofVariable_text_iff.2 ⟨hlen, rfl⟩) i j m n rest fs
  | @link word k hword ls cs hcs hcount =>
    obtain ⟨us, vs, rfl, hus, hvs⟩ := List.map_eq_append_iff.1 hts
    obtain ⟨⟨_, n⟩, rfl, rfl⟩ := List.map_eq_singleton_iff.1 hvs
    obtain ⟨⟨_, i⟩, ws, rfl, rfl, hws⟩ := List.map_eq_cons_iff.1 hus
    obtain ⟨⟨_, j⟩, inside, rfl, rfl, hinside⟩ := List.map_eq_cons_iff.1 hws
    have hopen := read_link hword i j (inside ++ ⟨.closing, n⟩ :: rest) fs
    have hinner := read_of_derivesEach hcs hinside (⟨.closing, n⟩ :: rest) ⟨k, j, []⟩ fs
    rw [List.append_nil] at hinner
    have hclose : k.accepts cs.reverse.length = true := by
      rw [List.length_reverse]
      exact hcount
    rw [read_closing (f := ⟨k, j, cs.reverse⟩) hclose n rest fs, List.reverse_reverse] at hinner
    simp only [List.cons_append, List.append_assoc, List.nil_append]
    exact hopen.trans hinner

theorem read_of_derivesEach {ls : List Lexeme} {ps : List Pattern} (h : DerivesEach ls ps)
    {ts : List Token} (hts : ts.map Token.lexeme = ls) (rest : List Token) (f : Frame)
    (fs : List Frame) :
    read (ts ++ rest) (f :: fs) =
      read rest ({ f with children := ps.reverse ++ f.children } :: fs) := by
  cases h with
  | nil =>
    obtain rfl := List.map_eq_nil_iff.1 hts
    rfl
  | @cons ls ls' p ps hp hps =>
    obtain ⟨us, vs, rfl, hus, hvs⟩ := List.map_eq_append_iff.1 hts
    rw [List.append_assoc, read_of_derives hp hus]
    show read (vs ++ rest) ({ f with children := p :: f.children } :: fs) = _
    rw [read_of_derivesEach hps hvs, List.reverse_cons, List.append_assoc]
    rfl

end

theorem ofTokens_of_derives {ts : List Token} {p : Pattern}
    (h : Derives (ts.map Token.lexeme) p) : ofTokens ts = .ok p := by
  have hread := read_of_derives h rfl [] []
  rw [List.append_nil] at hread
  cases ts with
  | nil => exact absurd h (by rintro ⟨⟩)
  | cons t ts => exact hread

/-! ## What is read is derived -/

/-- The lexemes end the open links around a finished pattern, and with them the pattern `p`. -/
inductive Ends : Pattern → List Frame → List Lexeme → Pattern → Prop
  | outermost (p : Pattern) : Ends p [] [] p
  | inner {q p : Pattern} {f : Frame} {fs : List Frame} {ls rest : List Lexeme}
    {cs : List Pattern} (hcs : DerivesEach ls cs)
    (hcount : f.kind.accepts (f.children.reverse ++ q :: cs).length = true)
    (hrest : Ends (.link (.link f.kind) (f.children.reverse ++ q :: cs)) fs rest p) :
    Ends q (f :: fs) (ls ++ .closing :: rest) p

/-- The lexemes complete the open links, and with them the pattern `p`. -/
inductive Completes : List Frame → List Lexeme → Pattern → Prop
  | outermost {ls : List Lexeme} {p : Pattern} (h : Derives ls p) : Completes [] ls p
  | inner {p : Pattern} {f : Frame} {fs : List Frame} {ls rest : List Lexeme}
    {cs : List Pattern} (hcs : DerivesEach ls cs)
    (hcount : f.kind.accepts (f.children.reverse ++ cs).length = true)
    (hrest : Ends (.link (.link f.kind) (f.children.reverse ++ cs)) fs rest p) :
    Completes (f :: fs) (ls ++ .closing :: rest) p

/-- A derived child in front leaves the open links to be ended. -/
theorem Ends.completes {ls rest : List Lexeme} {q p : Pattern} {fs : List Frame}
    (h : Ends q fs rest p) (hq : Derives ls q) : Completes fs (ls ++ rest) p := by
  cases h with
  | outermost =>
    rw [List.append_nil]
    exact .outermost hq
  | inner hcs hcount hrest =>
    rw [← List.append_assoc]
    exact .inner (.cons hq hcs) hcount hrest

/-- A finished child goes to the children of the innermost open link. -/
theorem Completes.ends {q p : Pattern} {fs fs' : List Frame} {ls : List Lexeme}
    (hplace : Frame.place q fs = some fs') (h : Completes fs' ls p) : Ends q fs ls p := by
  cases fs with
  | nil => cases hplace
  | cons f fs =>
    cases hplace
    cases h with
    | @inner _ _ _ ls rest cs hcs hcount hrest =>
      have hchildren : (q :: f.children).reverse ++ cs = f.children.reverse ++ q :: cs := by
        rw [List.reverse_cons, List.append_assoc]
        rfl
      simp only [hchildren] at hcount hrest
      exact .inner hcs hcount hrest

theorem ends_of_finish {q p : Pattern} {fs : List Frame} {ts : List Token}
    (hplace : Frame.place q fs = none) (h : finish q ts = .ok p) :
    Ends q fs (ts.map Token.lexeme) p := by
  cases fs with
  | cons f fs => cases hplace
  | nil =>
    cases ts with
    | nil =>
      cases h
      exact .outermost q
    | cons t ts =>
      unfold finish at h
      split at h
      · next hnil => cases hnil
      · split at h <;> cases h

theorem derives_of_symbol {word : List Char} {p : Pattern} (hmark : word.head? = some '$')
    (h : ofVariable (.text (.ofList word)) = .ok p) : Derives [.symbol word] p := by
  rw [ofVariable_text_iff, marked_of_head hmark] at h
  obtain ⟨hlen, rfl⟩ := h
  exact .symbol hmark hlen

theorem derives_of_node {word name : List Char} {k : NodeKind} {p : Pattern}
    (hword : Kind.ofKeyword? (.ofList word) = some (.node k))
    (h : ofNode k (.ofList name) = .ok p) :
    Derives [.opening, .symbol word, .name name, .closing] p := by
  unfold ofNode at h
  split at h
  · obtain ⟨hlen, rfl⟩ := ofVariable_text_iff.1 h
    exact .variableNode hword hlen
  · next hk =>
    cases h
    exact .node hword hk name

/-- The first tokens open a link: what completes it is its derivation and ends the others. -/
theorem Completes.opened {word : List Char} {k : LinkKind} {fs : List Frame} {ls : List Lexeme}
    {p : Pattern} {pos : Nat} (hword : Kind.ofKeyword? (.ofList word) = some (.link k))
    (h : Completes (⟨k, pos, []⟩ :: fs) ls p) :
    Completes fs (.opening :: .symbol word :: ls) p := by
  cases h with
  | inner hcs hcount hrest =>
    have hlink := hrest.completes (.link hword hcs hcount)
    simpa using hlink

/-- A token that closes a link with enough children leaves the next link innermost. -/
theorem Ends.closed {f : Frame} {fs : List Frame} {ls : List Lexeme} {p : Pattern}
    (hcount : f.kind.accepts f.children.length = true)
    (h : Ends (.link (.link f.kind) f.children.reverse) fs ls p) :
    Completes (f :: fs) (.closing :: ls) p := by
  rw [← List.append_nil f.children.reverse] at h
  refine .inner .nil ?_ h
  rw [List.append_nil, List.length_reverse]
  exact hcount

theorem completes_of_read {ts : List Token} {fs : List Frame} {p : Pattern}
    (h : read ts fs = .ok p) : Completes fs (ts.map Token.lexeme) p := by
  fun_induction read ts fs with
  | case4 word pos rest fs hmark q hq hplace =>
    exact (ends_of_finish hplace h).completes (derives_of_symbol hmark hq)
  | case5 word pos rest fs hmark q hq fs' hplace ih =>
    exact (Completes.ends hplace (ih h)).completes (derives_of_symbol hmark hq)
  | case9 pos rest f fs hcount q hplace =>
    exact (ends_of_finish hplace h).closed hcount
  | case10 pos rest f fs hcount q fs' hplace ih =>
    exact (Completes.ends hplace (ih h)).closed hcount
  | case14 pos head rest fs word hlex k hword ih =>
    rw [List.map_cons, List.map_cons, hlex]
    exact (ih h).opened hword
  | case18 pos head fs word hlex k hword name pos₁ pos₂ rest q hq hplace =>
    simp only [List.map_cons, hlex]
    exact (ends_of_finish hplace h).completes (derives_of_node hword hq)
  | case19 pos head fs word hlex k hword name pos₁ pos₂ rest q hq fs' hplace ih =>
    simp only [List.map_cons, hlex]
    exact (Completes.ends hplace (ih h)).completes (derives_of_node hword hq)
  | _ => cases h

/-- The tokens that spell a pattern are those whose lexemes derive it. -/
theorem ofTokens_iff_derives {ts : List Token} {p : Pattern} :
    ofTokens ts = .ok p ↔ Derives (ts.map Token.lexeme) p := by
  constructor
  · intro h
    cases ts with
    | nil => cases h
    | cons t ts =>
      cases completes_of_read h with
      | outermost hp => exact hp
  · exact ofTokens_of_derives

/-- Lexemes derive one pattern at most. -/
theorem Derives.unique {ls : List Lexeme} {p q : Pattern} (hp : Derives ls p)
    (hq : Derives ls q) : p = q := by
  -- Any positions will do to read the lexemes.
  have hls : (ls.map fun l => (⟨l, 0⟩ : Token)).map Token.lexeme = ls := by
    rw [List.map_map]
    exact List.map_id ls
  rw [← hls] at hp hq
  have hread := ofTokens_of_derives hp
  rw [ofTokens_of_derives hq] at hread
  exact (Except.ok.inj hread).symm

end Credence.Pattern
