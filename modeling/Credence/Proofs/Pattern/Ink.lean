import Credence.Proofs.Except
import Credence.Proofs.Pattern.RoundTrip
import Mathlib.Data.List.TakeWhile
/-!
# Patterns that do not read back

The text of a variable is its name, and a variable that was spelled as a node may have a
name that no symbol spells. A pattern with such a variable is never read back from its
text: counting the characters that are not blank, any text that it is read from is
longer than the one it is written as.
-/

namespace Credence.Pattern

/-- The number of characters that are not blank. -/
def ink (cs : List Char) : Nat := cs.countP fun c => !Text.isBlank c

theorem ink_append (cs ds : List Char) : ink (cs ++ ds) = ink cs + ink ds := List.countP_append

theorem ink_cons (c : Char) (cs : List Char) : ink (c :: cs) = ink [c] + ink cs :=
  ink_append [c] cs

/-! ## Lexemes -/

/-- The characters that are not blank of the shortest text of a lexeme. -/
def Lexeme.ink : Lexeme → Nat
  | .opening => 1
  | .closing => 1
  | .name text => Pattern.ink (escape text) + 2
  | .symbol word => Pattern.ink word

/-- Whether a symbol has the characters of symbols only. -/
def Lexeme.Spelled : Lexeme → Prop
  | .symbol word => ∀ c ∈ word, isSymbolChar c = true
  | _ => True

/-- The characters that are not blank of the shortest text of lexemes. -/
def inkOf : List Lexeme → Nat
  | [] => 0
  | l :: ls => l.ink + inkOf ls

theorem inkOf_append (ls ls' : List Lexeme) : inkOf (ls ++ ls') = inkOf ls + inkOf ls' := by
  induction ls with
  | nil => exact (Nat.zero_add _).symm
  | cons l ls ih => exact (congrArg (l.ink + ·) ih).trans (Nat.add_assoc ..).symm

/-- A quoted name is written with no more characters than it was read from. -/
theorem ink_escape_le {cs name rest : List Char} (h : scanName cs = some (name, rest)) :
    ink (escape name) + ink rest + 1 ≤ ink cs := by
  fun_induction scanName cs generalizing name rest with
  | case1 => cases h
  | case2 rest =>
    cases h
    have hquote : ink ['"'] = 1 := rfl
    have hnil : ink (escape []) = 0 := rfl
    rw [ink_cons '"']
    omega
  | case3 => cases h
  | case4 c cs _ ih =>
    obtain ⟨⟨n, r⟩, hname, heq⟩ := Option.map_eq_some_iff.1 h
    cases heq
    dsimp only
    have hle := ih hname
    have hmark : ink ['\\'] = 1 := rfl
    rw [ink_cons '\\', ink_cons c cs]
    unfold escape
    split
    · rw [ink_cons '\\', ink_cons c (escape n)]
      omega
    · rw [ink_cons c (escape n)]
      omega
  | case5 => cases h
  | case6 c cs hquote _ hmark ih =>
    obtain ⟨⟨n, r⟩, hname, heq⟩ := Option.map_eq_some_iff.1 h
    cases heq
    dsimp only
    have hle := ih hname
    unfold escape
    rw [ink_cons c cs, if_neg (by simp_all), ink_cons c (escape n)]
    omega

/-- Whether a text has the characters for some tokens. -/
structure Affords (cs : List Char) (ts : List Token) : Prop where
  inkOf_le : inkOf (ts.map Token.lexeme) ≤ ink cs
  spelled : ∀ l ∈ ts.map Token.lexeme, l.Spelled

theorem Affords.cons {cs rest : List Char} {ts : List Token} {t : Token} (h : Affords rest ts)
    (ht : t.lexeme.Spelled) (hle : t.lexeme.ink + ink rest ≤ ink cs) : Affords cs (t :: ts) := by
  refine ⟨?_, List.forall_mem_cons.2 ⟨ht, h.spelled⟩⟩
  rw [List.map_cons, inkOf]
  exact Nat.le_trans (Nat.add_le_add_left h.inkOf_le _) hle

theorem affords_of_scan {pos : Nat} {cs : List Char} {ts : List Token}
    (h : scan pos cs = .ok ts) : Affords cs ts := by
  fun_induction scan pos cs generalizing ts with
  | case1 =>
    cases h
    exact ⟨Nat.zero_le _, List.forall_mem_nil _⟩
  | case2 pos c rest _ ih =>
    have hrest := ih h
    refine ⟨?_, hrest.spelled⟩
    rw [ink_cons]
    exact Nat.le_add_left_of_le hrest.inkOf_le
  | case3 pos rest _ ih =>
    obtain ⟨us, hus, rfl⟩ := map_eq_ok h
    exact (ih hus).cons trivial (Nat.le_of_eq (ink_cons '(' rest).symm)
  | case4 pos rest _ _ ih =>
    obtain ⟨us, hus, rfl⟩ := map_eq_ok h
    exact (ih hus).cons trivial (Nat.le_of_eq (ink_cons ')' rest).symm)
  | case5 => cases h
  | case6 pos rest name after hname _ _ _ _ ih =>
    obtain ⟨us, hus, rfl⟩ := map_eq_ok h
    refine (ih hus).cons trivial ?_
    have hle := ink_escape_le hname
    have hquote : ink ['"'] = 1 := rfl
    rw [ink_cons '"']
    show ink (escape name) + 2 + ink after ≤ _
    omega
  | case7 pos c rest hblank hopen hclose hquote word after =>
    rename_i ih
    obtain ⟨us, hus, rfl⟩ := map_eq_ok h
    refine (ih hus).cons (List.forall_mem_cons.2 ⟨?_, fun d hd => ?_⟩) (Nat.le_of_eq ?_)
    · exact isSymbolChar_iff.2 ⟨Bool.eq_false_iff.2 hblank, hopen, hclose, hquote⟩
    · exact List.mem_takeWhile_imp hd
    · show ink (c :: word) + ink after = ink (c :: rest)
      rw [← ink_append, List.cons_append, List.takeWhile_append_dropWhile]

/-! ## Patterns -/

/-- No keyword of a kind is shorter than its name. -/
theorem ink_name_le {word : List Char} {k : Kind} (h : Kind.ofKeyword? (.ofList word) = some k) :
    ink k.name.toList ≤ ink word := by
  have hall : ∀ e ∈ Kind.keywords, ink e.2.name.toList ≤ ink e.1.toList := by decide
  obtain ⟨e, he, rfl⟩ := Option.map_eq_some_iff.1 h
  have hle := hall e (List.mem_of_find?_eq_some he)
  have hword : e.1 = .ofList word := by simpa using List.find?_some he
  rwa [hword, String.toList_ofList] at hle

theorem ink_le_escape (cs : List Char) : ink cs ≤ ink (escape cs) := by
  induction cs with
  | nil => exact Nat.le_refl _
  | cons c cs ih =>
    unfold escape
    split
    · rw [ink_cons '\\', ink_cons c cs, ink_cons c (escape cs)]
      omega
    · rw [ink_cons c cs, ink_cons c (escape cs)]
      omega

theorem ink_render_node (k : Kind) (name : String) :
    ink (node k name).render = ink k.name.toList + ink (escape name.toList) + 4 := by
  have hmarks : ink ['('] = 1 ∧ ink [' '] = 0 ∧ ink ['"'] = 1 ∧ ink [')'] = 1 :=
    ⟨rfl, rfl, rfl, rfl⟩
  unfold render quote
  rw [ink_append, ink_append, ink_cons '(', ink_cons ' ', ink_append, ink_cons '"']
  omega

theorem ink_render_link (k : Kind) (cs : List Pattern) :
    ink (link k cs).render = ink k.name.toList + ink (renderList cs) + 2 := by
  have hmarks : ink ['('] = 1 ∧ ink [')'] = 1 := ⟨rfl, rfl⟩
  unfold render
  rw [ink_append, ink_append, ink_cons '(']
  omega

mutual

/-- Lexemes that derive a pattern have at least the characters of its text, and more if the pattern
does not read back. -/
theorem ink_render_le {ls : List Lexeme} {p : Pattern} (h : Derives ls p)
    (hs : ∀ l ∈ ls, l.Spelled) :
    ink p.render ≤ inkOf ls ∧ (inkOf ls ≤ ink p.render → p.WellNamed) := by
  cases h with
  | @symbol word hmark hlen =>
    have hword : ∀ c ∈ word, isSymbolChar c = true := hs _ (List.mem_singleton_self _)
    unfold render
    rw [String.toList_ofList]
    refine ⟨Nat.le_of_eq rfl, fun _ => .var ⟨?_, ?_, ?_⟩⟩
    · rwa [String.toList_ofList]
    · rwa [String.length_ofList]
    · rwa [String.toList_ofList]
  | @node word k hword hk name =>
    have hle := ink_name_le hword
    have hink : inkOf [.opening, .symbol word, .name name, .closing] =
        1 + (ink word + (ink (escape name) + 2 + 1)) := rfl
    rw [ink_render_node, String.toList_ofList, hink]
    exact ⟨by omega, fun _ => .node hk _⟩
  | @variableNode word hword name hlen =>
    -- The mark of variables takes the place of a keyword, which is longer.
    have hle := ink_name_le hword
    have hkeyword : ink (Kind.node .variable).name.toList = 8 := by decide
    have hescape := ink_le_escape name
    have hmarked : ink (marked name) ≤ 1 + ink name := by
      unfold marked
      split
      · exact Nat.le_add_left ..
      · rw [ink_cons]
        exact Nat.le_of_eq rfl
    have hink : inkOf [.opening, .symbol word, .name name, .closing] =
        1 + (ink word + (ink (escape name) + 2 + 1)) := rfl
    unfold render
    rw [String.toList_ofList, hink]
    exact ⟨by omega, fun hge => by omega⟩
  | @link word k hword ls cs hcs hcount =>
    have hle := ink_name_le hword
    obtain ⟨hchildren, _⟩ := List.forall_mem_append.1 hs
    obtain ⟨_, hchildren⟩ := List.forall_mem_cons.1 hchildren
    obtain ⟨_, hchildren⟩ := List.forall_mem_cons.1 hchildren
    obtain ⟨hrest, hwell⟩ := ink_renderList_le hcs hchildren
    have hink : inkOf (.opening :: .symbol word :: ls ++ [.closing]) =
        1 + (ink word + inkOf ls) + 1 := by
      rw [inkOf_append, inkOf, inkOf]
      rfl
    rw [ink_render_link, hink]
    exact ⟨by omega, fun hge => .link (hwell (by omega)) hcount⟩

theorem ink_renderList_le {ls : List Lexeme} {ps : List Pattern} (h : DerivesEach ls ps)
    (hs : ∀ l ∈ ls, l.Spelled) :
    ink (renderList ps) ≤ inkOf ls ∧ (inkOf ls ≤ ink (renderList ps) → ∀ p ∈ ps, p.WellNamed) := by
  cases h with
  | nil => exact ⟨Nat.le_refl _, fun _ => List.forall_mem_nil _⟩
  | @cons ls ls' p ps hp hps =>
    obtain ⟨hs, hs'⟩ := List.forall_mem_append.1 hs
    obtain ⟨hle, hwell⟩ := ink_render_le hp hs
    obtain ⟨hle', hwell'⟩ := ink_renderList_le hps hs'
    have hspace : ink [' '] = 0 := rfl
    unfold renderList
    rw [inkOf_append, List.cons_append, ink_cons, ink_append, hspace]
    exact ⟨by omega, fun hge => List.forall_mem_cons.2 ⟨hwell (by omega), hwell' (by omega)⟩⟩

end

/-! ## Names of variables -/

theorem isVariableName_iff {v : List Char} (hmark : v.head? = some '$') (hlen : 2 ≤ v.length) :
    IsVariableName (.ofList v) ↔ ∀ c ∈ v, isSymbolChar c = true := by
  unfold IsVariableName
  rw [String.toList_ofList, String.length_ofList]
  exact ⟨fun h => h.2.2, fun h => ⟨hmark, hlen, h⟩⟩

theorem head?_marked (name : List Char) : (marked name).head? = some '$' := by
  unfold marked
  split
  · assumption
  · rfl

theorem wellNamed_var_iff {v : String} : (var v).WellNamed ↔ IsVariableName v :=
  ⟨fun h => by cases h with | var hv => exact hv, .var⟩

/-- Whether a variable is spelled by a symbol. -/
def IsSymbol (v : String) : Prop := ∀ c ∈ v.toList, isSymbolChar c = true

instance (v : String) : Decidable (IsSymbol v) :=
  decidable_of_iff (v.toList.all isSymbolChar = true) List.all_eq_true

mutual

/-- What was read is well named exactly if symbols spell its variables. -/
theorem wellNamed_iff_of_derives {ls : List Lexeme} {p : Pattern} (h : Derives ls p) :
    p.WellNamed ↔ ∀ v ∈ p.occurrences, IsSymbol v := by
  have hvar : ∀ {v : List Char}, v.head? = some '$' → 2 ≤ v.length →
      ((var (.ofList v)).WellNamed ↔ ∀ w ∈ (var (.ofList v)).occurrences, IsSymbol w) := by
    intro v hmark hlen
    unfold occurrences IsSymbol
    rw [wellNamed_var_iff, isVariableName_iff hmark hlen, List.forall_mem_singleton,
      String.toList_ofList]
  cases h with
  | symbol hmark hlen => exact hvar hmark hlen
  | node _ hk name => exact ⟨fun _ => List.forall_mem_nil _, fun _ => .node hk _⟩
  | @variableNode _ _ name hlen => exact hvar (head?_marked name) hlen
  | @link _ k _ _ cs hcs hcount =>
    have hall := wellNamed_iff_of_derivesEach hcs
    refine Iff.trans ⟨fun h => ?_, fun h => .link h hcount⟩ hall
    cases h with
    | link h _ => exact h

theorem wellNamed_iff_of_derivesEach {ls : List Lexeme} {ps : List Pattern}
    (h : DerivesEach ls ps) :
    (∀ p ∈ ps, p.WellNamed) ↔ ∀ v ∈ occurrencesList ps, IsSymbol v := by
  cases h with
  | nil => exact ⟨fun _ => List.forall_mem_nil _, fun _ => List.forall_mem_nil _⟩
  | cons hp hps =>
    unfold occurrencesList
    rw [List.forall_mem_cons, List.forall_mem_append, wellNamed_iff_of_derives hp,
      wellNamed_iff_of_derivesEach hps]

end

theorem derives_of_parse {s : String} {p : Pattern} (h : parse s = .ok p) :
    ∃ ts, tokens s = .ok ts ∧ Derives (ts.map Token.lexeme) p := by
  unfold parse at h
  obtain ⟨ts, hts, h⟩ := bind_eq_ok h
  exact ⟨ts, hts, ofTokens_iff_derives.1 h⟩

/-- A pattern is read back from its text exactly if it is well named. -/
theorem parse_toText_iff {p : Pattern} : parse p.toText = .ok p ↔ p.WellNamed := by
  refine ⟨fun h => ?_, parse_toText⟩
  obtain ⟨ts, hts, hderives⟩ := derives_of_parse h
  unfold tokens toText at hts
  rw [String.toList_ofList] at hts
  have hafford := affords_of_scan hts
  exact (ink_render_le hderives hafford.spelled).2 hafford.inkOf_le

/-- What was read from some text is read back from its own exactly if symbols spell its variables,
which a variable node does not ask for. -/
theorem parse_toText_iff_of_parse {s : String} {p : Pattern} (h : parse s = .ok p) :
    parse p.toText = .ok p ↔ ∀ v ∈ p.occurrences, IsSymbol v := by
  obtain ⟨_, _, hderives⟩ := derives_of_parse h
  rw [parse_toText_iff, wellNamed_iff_of_derives hderives]

end Credence.Pattern
