/-!
# Faults of documents

A document that does not fit its description has one issue for each field at
fault: where the field stands and what is wrong with it.
-/

namespace Credence

/-- One step from a document to a part of it. -/
inductive Step where
  | field (name : String)
  | item (index : Nat)
deriving Repr, DecidableEq

/-- What is wrong with a part of a document. -/
inductive Fault where
  | missing
  | unknownField
  | notARecord
  | notAMapping
  | notAList
  | notAText
  | emptyText
  | emptyList
  | notAnInteger
  | unreadableInteger
  | overlongInteger
  | fractionalInteger
  | infiniteInteger
  | notANumber
  | unreadableNumber
  | notABool
  | unreadableBool
  | notAbove
  | below
  | above
  | refused
  | badInstant
  | badSpan
deriving Repr, DecidableEq

/-- A fault and where it stands. -/
structure Issue where
  path : List Step
  fault : Fault
deriving Repr, DecidableEq

/-- The issue as seen from the document around it. -/
def Issue.under (s : Step) (i : Issue) : Issue := { i with path := s :: i.path }

/-- Why a document gives no value: what does not fit, or a quantity of the right form that is too
large to be represented. -/
inductive Defect where
  | misfit (issues : List Issue)
  | overflow
deriving Repr, DecidableEq

namespace Defect

/-- The defect as seen from the document around it. -/
def under (s : Step) : Defect → Defect
  | misfit is => misfit (is.map (Issue.under s))
  | overflow => overflow

/-- The defect of two parts of a document: the issues of both, unless something overflows. -/
def both : Defect → Defect → Defect
  | misfit is, misfit js => misfit (is ++ js)
  | overflow, _ => overflow
  | _, overflow => overflow

end Defect

end Credence
