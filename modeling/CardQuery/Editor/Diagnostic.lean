import CardQuery.Argument.Alias
import CardQuery.Parse.Problem
import CardQuery.Tree.Focus

/-!
# Diagnostics

Everything that is wrong with a text: its syntax errors, arguments that are not known, and
comparisons that an argument does not accept. They come in the order of their starts; where two
start together, syntax errors come first.
-/

set_option autoImplicit false

namespace CardQuery

/-- How serious a diagnostic is. -/
inductive Severity
  | error
  | warning
  deriving DecidableEq, Repr

/-- What a diagnostic is about. -/
inductive Finding
  | syntaxError (problem : Problem)
  | unknownArgument (name : Text)
  | comparisonNotAllowed (operator name : Text) (allowed : ComparisonClass)
  deriving DecidableEq, Repr

namespace Finding

/-- An argument that is not known is a warning, everything else an error. -/
def severity : Finding → Severity
  | .unknownArgument _ => .warning
  | _ => .error

/-- The message for a finding. -/
def message : Finding → Text
  | .syntaxError problem => problem.message.toList
  | .unknownArgument name => "unknown argument '".toList ++ name ++ "'".toList
  | .comparisonNotAllowed operator name allowed =>
    "operator '".toList ++ operator ++ "' is not valid for '".toList ++ name
      ++ "' (expected one of ".toList
      ++ Text.join [' '] (allowed.comparisons.map fun op => op.spelling.toList) ++ [')']

end Finding

/-- A finding and the range it is shown at. -/
structure Diagnostic where
  finding : Finding
  span : Span
  deriving DecidableEq, Repr

/-- What is wrong with the argument or the comparison of a tag that has both. -/
def Focus.tagDiagnostic? (f : Focus) : Option Diagnostic :=
  if f.tree.isKind .tag then do
    let argument ← f.child? .argument
    let operator ← f.child? .operator
    let name := argument.tree.text
    match argumentKind? name with
    | none => some ⟨.unknownArgument name, argument.span⟩
    | some kind =>
      let op ← operator.tree.comparisonKind?
      if kind.comparisonClass.allows op then none
      else
        some ⟨.comparisonNotAllowed operator.tree.text name kind.comparisonClass, operator.span⟩
  else none

namespace Tree

/-- What is wrong with the tags of a tree, in preorder. -/
def tagDiagnostics (t : Tree) : List Diagnostic :=
  t.nodes.filterMap Focus.tagDiagnostic?

/-- Everything that is wrong with a tree, by start. -/
def diagnostics (t : Tree) : List Diagnostic :=
  let errors := (syntaxErrors t).map fun e => (⟨.syntaxError e.problem, e.span⟩ : Diagnostic)
  (errors ++ t.tagDiagnostics).mergeSort fun a b => a.span.start ≤ b.span.start

end Tree

end CardQuery
