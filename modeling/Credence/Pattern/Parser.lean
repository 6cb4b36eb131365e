import Credence.Pattern.Token
/-!
# Reading patterns

The grammar over tokens, with a link's children counted against its kind:

    expr := $symbol | ( node-keyword name ) | ( Variable name ) | ( link-keyword expr* )

The reader goes through the tokens once. It keeps the links that are still open,
innermost first, each with the children read so far in reverse.
-/

namespace Credence.Pattern

/-- A link that is still open. -/
structure Frame where
  kind : LinkKind
  pos : Nat
  children : List Pattern

/-- Puts a finished child into the innermost open link, or ends with it when none is open. -/
def Frame.place (p : Pattern) : List Frame → Option (List Frame)
  | [] => none
  | f :: frames => some ({ f with children := p :: f.children } :: frames)

/-- What may follow a finished pattern: nothing. -/
def finish (p : Pattern) : List Token → Except PatternError Pattern
  | [] => .ok p
  | t :: _ =>
    match t.lexeme with
    | .closing => .error (.strayClose t.pos)
    | _ => .error (.trailing t.pos)

/-- The node or variable that a node keyword and a name make. -/
def ofNode (kind : NodeKind) (name : String) : Except PatternError Pattern :=
  match kind with
  | .variable => ofVariable (.text name)
  | k => .ok (.node (.node k) name)

/-- Reads the rest of a pattern with the given links open. -/
def read : List Token → List Frame → Except PatternError Pattern
  | [], [] => .error .unexpectedEnd
  | [], f :: _ => .error (.neverClosed f.kind f.pos)
  | ⟨.symbol word, pos⟩ :: rest, frames =>
    if word.head? = some '$' then
      match ofVariable (.text (String.ofList word)) with
      | .error e => .error e
      | .ok p =>
        match Frame.place p frames with
        | none => finish p rest
        | some frames => read rest frames
    else .error (.bareSymbol (String.ofList word) pos)
  | ⟨.name _, pos⟩ :: _, _ => .error (.strayText pos)
  | ⟨.closing, pos⟩ :: _, [] => .error (.strayClose pos)
  | ⟨.closing, _⟩ :: rest, f :: frames =>
    if f.kind.accepts f.children.length then
      let p := Pattern.link (.link f.kind) f.children.reverse
      match Frame.place p frames with
      | none => finish p rest
      | some frames => read rest frames
    else .error (.childCount f.kind f.children.length)
  | [⟨.opening, _⟩], _ => .error .unexpectedEnd
  | ⟨.opening, _⟩ :: head :: rest, frames =>
    match head.lexeme with
    | .symbol word =>
      match Kind.ofKeyword? (String.ofList word) with
      | none => .error (.unknownKeyword (String.ofList word) head.pos)
      | some (.link k) => read rest (⟨k, head.pos, []⟩ :: frames)
      | some (.node k) =>
        match rest with
        | [] => .error .unexpectedEnd
        | ⟨.name _, _⟩ :: [] => .error .unexpectedEnd
        | ⟨.name name, _⟩ :: ⟨.closing, _⟩ :: rest =>
          match ofNode k (String.ofList name) with
          | .error e => .error e
          | .ok p =>
            match Frame.place p frames with
            | none => finish p rest
            | some frames => read rest frames
        | _ => .error (.nameExpected k head.pos)
    | _ => .error (.noKeyword head.pos)

/-- The pattern that a list of tokens spells. -/
def ofTokens : List Token → Except PatternError Pattern
  | [] => .error .empty
  | ts => read ts []

/-- The pattern that a text spells. -/
def parse (s : String) : Except PatternError Pattern := do
  let ts ← tokens s
  ofTokens ts

end Credence.Pattern
