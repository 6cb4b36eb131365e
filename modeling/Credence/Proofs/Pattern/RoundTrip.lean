import Credence.Pattern.Printer
import Credence.Proofs.Pattern.Derivation
import Credence.Proofs.Pattern.Key
import Credence.Proofs.Pattern.Tokens
/-!
# Patterns that read back

A pattern whose links have enough children, whose variables are spelled as symbols and
whose nodes are of the kinds that a text keeps as nodes is read back from its own text.
The names of its nodes may be any texts: escaping leaves no quote bare, and every other
character of a name stands for itself.

Scanning the text of a pattern takes the tokens of the pattern off the front and stops
before whatever stands behind, as long as that does not go on its last symbol.
-/

namespace Credence.Pattern

/-- Whether the text of a pattern keeps all there is to it. -/
inductive WellNamed : Pattern → Prop
  | var {v : String} (hv : IsVariableName v) : WellNamed (.var v)
  | node {k : NodeKind} (hk : k ≠ .variable) (name : String) : WellNamed (.node (.node k) name)
  | link {k : LinkKind} {cs : List Pattern} (hcs : ∀ c ∈ cs, WellNamed c)
    (hcount : k.accepts cs.length = true) : WellNamed (.link (.link k) cs)

/-! ## Names -/

/-- Reading undoes escaping, and stops at the quote behind. -/
theorem scanName_escape (name rest : List Char) :
    scanName (escape name ++ '"' :: rest) = some (name, rest) := by
  induction name with
  | nil => rfl
  | cons c name ih =>
    unfold escape
    split
    · next hc =>
      have hline : c ≠ '\n' := by
        rintro rfl
        exact absurd hc (by decide)
      rw [List.cons_append, List.cons_append, scanName.eq_def]
      simp only [hline, if_false, ih]
      rfl
    · next hc =>
      simp only [Bool.or_eq_true, decide_eq_true_eq, not_or] at hc
      rw [List.cons_append, scanName.eq_def]
      split <;> simp_all

theorem takes_quote (name : String) (pos : Nat) (rest : List Char) :
    ∃ pos', Takes pos (quote name ++ rest) [⟨.name name.toList, pos + 1⟩] pos' rest := by
  unfold quote
  rw [List.cons_append, List.cons_append, List.append_assoc, List.singleton_append]
  exact ⟨_, takes_name (scanName_escape name.toList rest) pos⟩

theorem isSymbolChar_of_mem_name (k : Kind) : ∀ c ∈ k.name.toList, isSymbolChar c = true := by
  have hall : k.name.toList.all isSymbolChar = true := by
    rcases k with k | k <;> cases k <;> rfl
  exact List.all_eq_true.1 hall

/-- A word of symbols that is not empty is one symbol. -/
theorem takes_word {word rest : List Char} (hne : word ≠ [])
    (hword : ∀ c ∈ word, isSymbolChar c = true) (hrest : AtBreak rest) (pos : Nat) :
    ∃ pos', Takes pos (word ++ rest) [⟨.symbol word, pos⟩] pos' rest := by
  cases word with
  | nil => exact absurd rfl hne
  | cons c word => exact ⟨_, takes_symbol hword hrest pos⟩

/-- The kind behind an opening parenthesis is read as its keyword. -/
theorem takes_keyword (k : Kind) (pos : Nat) {rest : List Char} (hrest : AtBreak rest) :
    ∃ pos', Takes pos ('(' :: k.name.toList ++ rest)
      [⟨.opening, pos⟩, ⟨.symbol k.name.toList, pos + 1⟩] pos' rest := by
  have hne : k.name.toList ≠ [] := by
    rcases k with k | k <;> cases k <;> exact List.cons_ne_nil _ _
  obtain ⟨pos', htakes⟩ := takes_word hne (isSymbolChar_of_mem_name k) hrest (pos + 1)
  exact ⟨pos', (takes_opening pos _).trans htakes⟩

theorem ofKeyword?_toList (k : Kind) : Kind.ofKeyword? (.ofList k.name.toList) = some k := by
  rw [String.ofList_toList]
  exact Kind.ofKeyword?_name k

/-! ## Patterns -/

theorem isBlank_space : Text.isBlank ' ' = true := rfl

mutual

/-- The text of a pattern is taken as lexemes that derive the pattern. -/
theorem takes_render {p : Pattern} (hp : p.WellNamed) (pos : Nat) {rest : List Char}
    (hrest : AtBreak rest) :
    ∃ ts pos', Derives (ts.map Token.lexeme) p ∧ Takes pos (p.render ++ rest) ts pos' rest := by
  cases p with
  | var v =>
    cases hp with
    | var hv =>
      obtain ⟨hmark, hlen, hsymbols⟩ := hv
      rw [← String.length_toList] at hlen
      have hne : v.toList ≠ [] := List.ne_nil_of_length_pos (by omega)
      obtain ⟨pos', htakes⟩ := takes_word hne hsymbols hrest pos
      refine ⟨_, pos', ?_, htakes⟩
      have hderives := Derives.symbol hmark hlen
      rwa [String.ofList_toList] at hderives
  | node k name =>
    cases hp with
    | @node k hk =>
      have htext : (Pattern.node (.node k) name).render ++ rest =
          '(' :: (Kind.node k).name.toList ++ ' ' :: (quote name ++ ')' :: rest) := by
        simp [render]
      obtain ⟨i, hkind⟩ := takes_keyword (.node k) pos (atBreak_space (quote name ++ ')' :: rest))
      obtain ⟨j, hname⟩ := takes_quote name (i + 1) (')' :: rest)
      have htakes := ((hkind.trans (takes_blank isBlank_space i _)).trans hname).trans
        (takes_closing j rest)
      have hderives := Derives.node (ofKeyword?_toList (.node k)) hk name.toList
      rw [String.ofList_toList] at hderives
      rw [htext]
      refine ⟨_, j + 1, ?_, htakes⟩
      exact hderives
  | link k cs =>
    cases hp with
    | @link k _ hcs hcount =>
      have htext : (Pattern.link (.link k) cs).render ++ rest =
          '(' :: (Kind.link k).name.toList ++ (renderList cs ++ ')' :: rest) := by
        simp [render]
      obtain ⟨i, hkind⟩ := takes_keyword (.link k) pos
        (atBreak_renderList cs (atBreak_closing rest))
      obtain ⟨ts, j, hderives, hchildren⟩ := takes_renderList hcs i (atBreak_closing rest)
      have htakes := (hkind.trans hchildren).trans (takes_closing j rest)
      have hlink := Derives.link (ofKeyword?_toList (.link k)) hderives hcount
      rw [htext]
      refine ⟨_, j + 1, ?_, htakes⟩
      simpa using hlink

theorem takes_renderList {cs : List Pattern} (hcs : ∀ c ∈ cs, c.WellNamed) (pos : Nat)
    {rest : List Char} (hrest : AtBreak rest) :
    ∃ ts pos', DerivesEach (ts.map Token.lexeme) cs ∧
      Takes pos (renderList cs ++ rest) ts pos' rest := by
  cases cs with
  | nil => exact ⟨[], pos, .nil, Takes.nothing pos rest⟩
  | cons c cs =>
    obtain ⟨hc, hcs⟩ := List.forall_mem_cons.1 hcs
    obtain ⟨ts, pos₁, hderives, hchild⟩ := takes_render hc (pos + 1) (atBreak_renderList cs hrest)
    obtain ⟨us, pos₂, hothers, hchildren⟩ := takes_renderList hcs pos₁ hrest
    refine ⟨ts ++ us, pos₂, ?_, ?_⟩
    · rw [List.map_append]
      exact .cons hderives hothers
    · have htakes := ((takes_blank isBlank_space pos _).trans hchild).trans hchildren
      simpa only [renderList, List.cons_append, List.append_assoc, List.nil_append] using htakes

end

theorem parse_toText {p : Pattern} (hp : p.WellNamed) : parse p.toText = .ok p := by
  have hend : AtBreak [] := by rintro c ⟨⟩
  obtain ⟨ts, pos, hderives, hscan⟩ := takes_render hp 0 hend
  unfold Takes at hscan
  rw [scan_nil, List.append_nil] at hscan
  have htokens : tokens p.toText = .ok ts := by
    unfold tokens toText
    rw [String.toList_ofList, hscan]
    exact congrArg Except.ok (List.append_nil ts)
  unfold parse
  rw [htokens]
  exact ofTokens_of_derives hderives

/-- Writing a well-named pattern and reading it again gives the pattern, so its text is that of
no other well-named pattern. -/
theorem toText_roundTrip {p : Pattern} (hp : p.WellNamed) :
    parse p.toText = .ok p ∧ ∀ q : Pattern, q.WellNamed → p.toText = q.toText → p = q := by
  have hread := parse_toText hp
  refine ⟨hread, fun q hq heq => ?_⟩
  rw [heq, parse_toText hq] at hread
  exact (Except.ok.inj hread).symm

/-- A tree whose names hold every character that the notation uses itself. -/
def tangled : Pattern :=
  .link (.link .evaluation)
    [.node (.node .predicate) "say \\\"(hi)\\\" \\n", .var "$X\\",
      .link (.link .list) [.node (.node .concept) "", .node (.node .concept) "two\nlines",
        .link (.link .list) []]]

theorem toText_roundTrip_tangled :
    tangled.WellNamed ∧ parse tangled.toText = .ok tangled := by
  have hvar : IsVariableName "$X\\" := ⟨rfl, by decide, List.all_eq_true.1 rfl⟩
  have hinner : WellNamed (.link (.link .list) [.node (.node .concept) "",
      .node (.node .concept) "two\nlines", .link (.link .list) []]) := by
    refine .link ?_ rfl
    simp only [List.forall_mem_cons]
    exact ⟨.node (by decide) _, .node (by decide) _, .link (List.forall_mem_nil _) rfl,
      List.forall_mem_nil _⟩
  have htangled : tangled.WellNamed := by
    refine .link ?_ rfl
    simp only [List.forall_mem_cons]
    exact ⟨.node (by decide) _, .var hvar, hinner, List.forall_mem_nil _⟩
  exact ⟨htangled, (toText_roundTrip htangled).1⟩

end Credence.Pattern
