import FieldLisp.Circuit
import FieldLisp.Sha256

/-! # The layout of a circuit

The text of a circuit without its assignment: how many variables there are, how many of them are
public, how many constraints, and the terms of each constraint. Its digest is what two circuits of
the same shape share. -/

namespace FieldLisp.Circuit

/-- A term in parentheses. -/
def termText (term : Term) : String :=
  "(" ++ toString term.1 ++ ", " ++ toString term.2 ++ ")"

/-- Terms in parentheses, separated by commas; a comma follows a term that stands alone. -/
def termsText : List Term → String
  | [term] => "(" ++ termText term ++ ",)"
  | terms => "(" ++ ", ".intercalate (terms.map termText) ++ ")"

def constraintText (k : Constraint) : String :=
  "(" ++ termsText k.a ++ ", " ++ termsText k.b ++ ", " ++ termsText k.c ++ ")"

/-- The counts, and then every constraint. -/
def layoutText (s : Circuit) : String :=
  s.constraints.foldl (fun text k => text ++ constraintText k)
    (toString s.assignment.size ++ ":" ++ toString s.publicCount ++ ":" ++
      toString s.constraints.size)

/-- Digest of the layout. -/
def shapeDigest (s : Circuit) : String := Sha256.hexDigest s.layoutText.toUTF8

end FieldLisp.Circuit
