import Credence.Pattern.Basic
import Credence.Table
/-!
# Substitutions

A substitution binds variables to patterns, in order of insertion. Its bindings may
mention bound variables: applying it follows such chains to their end. A chain
without a cycle visits each binding at most once, so as many rounds of replacement
as there are bindings reach the end of every chain.
-/

namespace Credence

/-- Bindings of variables to patterns. -/
abbrev Substitution := Table String Pattern

namespace Substitution

/-- Follows bindings through at most `rounds` links of every chain. -/
def follow (θ : Substitution) : Nat → Pattern → Pattern
  | 0, p => p
  | rounds + 1, p => p.subst fun v =>
    match θ.get? v with
    | some q => follow θ rounds q
    | none => .var v

/-- Replaces every bound variable, following chains of bindings to their end. -/
def apply (θ : Substitution) (p : Pattern) : Pattern := θ.follow θ.size p

/-- The values of the bound names among a list, fully replaced. -/
def resolve (θ : Substitution) (names : List String) : Table String Pattern :=
  Table.ofList (names.filterMap fun v => (θ.get? v).map fun p => (v, θ.apply p))

/-- Whether a variable occurs in a pattern once the bindings are applied. -/
def occurs (θ : Substitution) (v : String) (p : Pattern) : Bool :=
  (θ.apply p).occurrences.contains v

/-- The substitution that appends a suffix to every variable of the patterns. -/
def suffixing (ps : List Pattern) (suffix : String) : Substitution :=
  Table.ofList ((Pattern.varsOf ps).map fun v => (v, .var (v ++ suffix)))

/-- The patterns with the suffix appended to their variables. A name that is itself another
variable with the suffix is followed to the end of the chain. -/
def renameApart (ps : List Pattern) (suffix : String) : List Pattern :=
  ps.map (suffixing ps suffix).apply

end Substitution

end Credence
