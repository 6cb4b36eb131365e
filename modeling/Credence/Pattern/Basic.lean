import Credence.Kind
import Credence.Distinct
import Credence.Document.Value
/-!
# Patterns

A pattern is a tree over variables, named nodes and links. A pattern without
variables is ground: it describes one atom. Patterns may be built with a kind of
either family and any number of children; only the parser and `Pattern.ofLink` insist
on a kind that fits and on its arity.

Two patterns are compared by structure, and `subst` replaces variables by patterns
everywhere at once.
-/

namespace Credence

/-- A tree over variables, named nodes and links. -/
inductive Pattern where
  | var (name : String)
  | node (kind : Kind) (name : String)
  | link (kind : Kind) (children : List Pattern)
deriving Repr, Inhabited

/-- Why a text or tree is no pattern. Positions count characters from the start of the text. -/
inductive PatternError where
  | notText (kindName : String)
  | notAPattern (v : Value)
  | invalidName (v : Value)
  | emptyName
  | unterminated (pos : Nat)
  | empty
  | unexpectedEnd
  | strayClose (pos : Nat)
  | trailing (pos : Nat)
  | bareSymbol (word : String) (pos : Nat)
  | strayText (pos : Nat)
  | noKeyword (pos : Nat)
  | unknownKeyword (word : String) (pos : Nat)
  | nameExpected (kind : NodeKind) (pos : Nat)
  | neverClosed (kind : LinkKind) (pos : Nat)
  | childCount (kind : LinkKind) (got : Nat)
  | outgoingCount (kind : LinkKind) (got : Nat)
  | notALinkKind (kind : NodeKind)
  | notGround (text : String)
deriving Repr

/-- The wording of a pattern error. -/
def PatternError.message : PatternError → String
  | notText k => "pattern must be text, got " ++ k
  | notAPattern v => "not a pattern: " ++ v.literal
  | invalidName v => "invalid variable name: " ++ v.literal
  | emptyName => "variable name cannot be empty"
  | unterminated pos => "unterminated string at " ++ toString pos
  | empty => "empty pattern"
  | unexpectedEnd => "unbalanced parentheses: unexpected end of pattern"
  | strayClose pos => "unbalanced parentheses: stray ')' at " ++ toString pos
  | trailing pos => "unexpected trailing input at " ++ toString pos
  | bareSymbol word pos =>
    "bare symbol " ++ Text.literal word ++ " at " ++ toString pos ++
      "; expected '(' or a $variable"
  | strayText pos =>
    "unexpected string at " ++ toString pos ++ "; names belong inside a node expression"
  | noKeyword pos => "expected a kind keyword at " ++ toString pos
  | unknownKeyword word pos =>
    "unknown kind keyword " ++ Text.literal word ++ " at " ++ toString pos
  | nameExpected kind pos => kind.name ++ " at " ++ toString pos ++ " expects one quoted name"
  | neverClosed kind pos =>
    "unbalanced parentheses: " ++ kind.name ++ " at " ++ toString pos ++ " is never closed"
  | childCount kind got =>
    kind.name ++ " expects " ++ kind.describeArity ++ " children, got " ++ toString got
  | outgoingCount kind got =>
    kind.name ++ " expects " ++ kind.describeArity ++ " outgoing atoms, got " ++ toString got
  | notALinkKind kind => kind.name ++ " is not a link kind"
  | notGround text => "cannot assert non-ground pattern " ++ text

namespace Pattern

/-! ## Equality -/

mutual

/-- Decides equality of patterns. -/
def decEq : (p q : Pattern) → Decidable (p = q)
  | .var a, .var b => if h : a = b then isTrue (by rw [h]) else isFalse (by simp [h])
  | .node k a, .node l b =>
    if h : k = l ∧ a = b then isTrue (by rw [h.1, h.2]) else isFalse (by simpa using h)
  | .link k ps, .link l qs =>
    match decEqs ps qs with
    | isTrue hc => if hk : k = l then isTrue (by rw [hk, hc]) else isFalse (by simp [hk])
    | isFalse hc => isFalse (by simp [hc])
  | .var _, .node _ _ => isFalse (by simp)
  | .var _, .link _ _ => isFalse (by simp)
  | .node _ _, .var _ => isFalse (by simp)
  | .node _ _, .link _ _ => isFalse (by simp)
  | .link _ _, .var _ => isFalse (by simp)
  | .link _ _, .node _ _ => isFalse (by simp)

/-- Decides equality of lists of patterns. -/
def decEqs : (ps qs : List Pattern) → Decidable (ps = qs)
  | [], [] => isTrue rfl
  | [], _ :: _ => isFalse (by simp)
  | _ :: _, [] => isFalse (by simp)
  | p :: ps, q :: qs =>
    match decEq p q with
    | isTrue h =>
      match decEqs ps qs with
      | isTrue hs => isTrue (by rw [h, hs])
      | isFalse hs => isFalse (by simp [hs])
    | isFalse h => isFalse (by simp [h])

end

instance : DecidableEq Pattern := decEq

/-! ## Variables -/

mutual

/-- The variables of a pattern as they occur, left to right. -/
def occurrences : Pattern → List String
  | .var v => [v]
  | .node _ _ => []
  | .link _ cs => occurrencesList cs

/-- The variables of a list of patterns as they occur, left to right. -/
def occurrencesList : List Pattern → List String
  | [] => []
  | c :: cs => occurrences c ++ occurrencesList cs

end

/-- The variables of a pattern in the order of their first occurrence. -/
def vars (p : Pattern) : List String := distinct p.occurrences

/-- The variables of a list of patterns in the order of their first occurrence. -/
def varsOf (ps : List Pattern) : List String := distinct (occurrencesList ps)

/-- Whether a pattern has no variables. -/
def isGround (p : Pattern) : Bool := p.occurrences.isEmpty

/-- The number of children of a link. -/
def arity? : Pattern → Option Nat
  | .link _ cs => some cs.length
  | _ => none

mutual

/-- The number of variables, nodes and links in a pattern. -/
def size : Pattern → Nat
  | .var _ => 1
  | .node _ _ => 1
  | .link _ cs => 1 + sizeList cs

/-- The number of variables, nodes and links in a list of patterns. -/
def sizeList : List Pattern → Nat
  | [] => 0
  | c :: cs => size c + sizeList cs

end

theorem size_pos (p : Pattern) : 0 < p.size := by
  cases p with
  | var => exact Nat.one_pos
  | node => exact Nat.one_pos
  | link k cs => simp only [size]; omega

/-! ## Replacing variables -/

mutual

/-- Replaces every variable at once. -/
def subst (σ : String → Pattern) : Pattern → Pattern
  | .var v => σ v
  | .node k n => .node k n
  | .link k cs => .link k (substList σ cs)

/-- Replaces every variable of a list of patterns at once. -/
def substList (σ : String → Pattern) : List Pattern → List Pattern
  | [] => []
  | c :: cs => subst σ c :: substList σ cs

end

/-! ## Building patterns -/

/-- The name of a variable, which starts with `$` and has a character after it. -/
def variableName (v : Value) : Except PatternError String :=
  match v with
  | .text s =>
    if s.isEmpty then .error (.invalidName v)
    else
      let name := if s.front = '$' then s else "$" ++ s
      if name.length < 2 then .error .emptyName else .ok name
  | v => .error (.invalidName v)

/-- A variable of this name; the leading `$` may be left out. -/
def ofVariable (v : Value) : Except PatternError Pattern := (variableName v).map .var

/-- A link whose number of children fits its kind. -/
def ofLink (kind : Kind) (children : List Pattern) : Except PatternError Pattern :=
  match kind with
  | .node k => .error (.notALinkKind k)
  | .link k =>
    if k.accepts children.length then .ok (.link (.link k) children)
    else .error (.outgoingCount k children.length)

end Pattern

end Credence
