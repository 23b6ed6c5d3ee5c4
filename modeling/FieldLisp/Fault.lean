import FieldLisp.Pointer

/-! # Faults

What can go wrong outside the language itself. An unbound variable or a bad argument is no fault: it
is an error value of the machine. A fault says that the caller asked for something without meaning,
that a structural rule was broken, or that a limit was hit. There is one constructor for each cause,
and one message for each constructor. -/

namespace FieldLisp

inductive Fault where
  /-- No entry backs the pointer. -/
  | dangling (pointer : Pointer)
  /-- A node was asked for with a number of children that its tag does not have. -/
  | childCount (tag : Tag) (count : Nat)
  /-- Only a node, with as many children as were asked for, can be taken apart. -/
  | notANode (pointer : Pointer) (arity : Option Int)
  | notANumber (pointer : Pointer)
  /-- The recorded preimage of a hash slot has the wrong length. -/
  | slotSize (phase : Nat) (arity : Int) (index found : Nat) (expected : Int)
  | unknownTag (value : Int)
  /-- What is shown stands where the number of a tag is needed. -/
  | notATag (shown : String)
  | unknownErrorCode (value : Int)
  /-- A continuation needs a tag that has children. -/
  | notAContinuation (tag : Tag)
  | booleanDatum
  | decimalDatum
  /-- A text that nests deeper than the entries of a store can. -/
  | cyclicContent
  | unexpectedEnd
  | unexpectedClose
  | unterminatedList
  | closeExpected
  | expressionCount (found : Nat)
  /-- A numeral has more digits than are read. -/
  | numeralTooLong
  | lookupDepth (value : Int)
  | constraintLimit (value : Int)
  | workerCount (value : Int)
  /-- Not exactly one rule applied. -/
  | dispatch (rules : List String)
  | zeroInverse
  | divisionByZero
  /-- An operand list is empty. -/
  | noOperands
  /-- A number does not fit into a word. -/
  | notAWord
  /-- A list would be longer than lists get. -/
  | listTooLong
  /-- An array element is not canonical. -/
  | notCanonical
  | permutationWidth (found : Nat)
  | circuitWidth (found : Nat)
  | stateSize (found : Nat)
  /-- A pointer lacks an element that is needed. -/
  | missingElement
  | negativeSteps (steps : Int)
  | traceTooLong (frames : Nat) (length : Int)
  | traceNotHalted
  | unsharedStore
  | noWorkers
  | frameGap (index : Nat)
  | noFrames
  /-- A circuit grew beyond its limit. -/
  | circuitSize (limit : Int)
  | publicAfterPrivate
  | combinationProduct
  | noSuchEntry
  | unsatisfiedStep (step : Int) (constraint : Nat) (label : String) (total : Nat)
  | shapeDiffers (step : Int)
  | stepGap (step : Int)
  | endDiffers
  | notHexadecimal
  /-- An operation was given a value that it cannot compute with. -/
  | unfitOperand
  /-- A value was asked for a part that values of its kind do not have. -/
  | absentPart
  deriving DecidableEq, Repr, Inhabited

namespace Pointer

/-- What an immediate pointer carries: the first element of its digest. -/
def payload (p : Pointer) : Except Fault Int :=
  match p.digest with
  | value :: _ => .ok value
  | [] => .error .missingElement

/-- Text that names a pointer in a message. The digest must not be empty, and the code of an error
value must be a known one. -/
def describe (p : Pointer) : Except Fault String := do
  let value ← p.payload
  match p.tag with
  | .number => .ok ("Ptr(NUM, " ++ toString value ++ ")")
  | .error =>
    match ErrorCode.ofValue? value with
    | some code => .ok ("Ptr(ERR, " ++ code.name ++ ")")
    | none => .error (.unknownErrorCode value)
  | tag => .ok ("Ptr(" ++ tag.name ++ ", " ++ hexadecimal value ++ "...)")

end Pointer

namespace Fault

/-- The pointer that the message of a fault names, if it names one. -/
def subject? : Fault → Option Pointer
  | dangling p | notANode p _ | notANumber p => some p
  | _ => none

/-- The fault that is reported: where the pointer of a message cannot be named, that comes first. -/
def reported (fault : Fault) : Fault :=
  match fault.subject?.map Pointer.describe with
  | some (.error unnamed) => unnamed
  | _ => fault

private def describe (p : Pointer) : String :=
  match p.describe with
  | .ok text => text
  | .error _ => ""

private def count : Option Int → String
  | some n => toString n
  | none => "None"

private def quoted (names : List String) : String :=
  "[" ++ ", ".intercalate (names.map fun name => "'" ++ name ++ "'") ++ "]"

/-- Wording of a fault; it is empty where the cause says everything. -/
def message : Fault → String
  | dangling p => "dangling pointer: " ++ describe p
  | childCount tag n => tag.name ++ s!" takes {count (tag.arity?.map Int.ofNat)} children, got {n}"
  | notANode p arity => describe p ++ s!" is not a node of arity {count arity}"
  | notANumber p => describe p ++ " is not a number"
  | slotSize phase arity index found expected =>
    s!"slot ({phase}, {arity}, {index}) holds {found} elements, expected {expected}"
  | unknownTag value => s!"{value} is not a valid Tag"
  | notATag shown => shown ++ " is not a valid Tag"
  | unknownErrorCode value => s!"{value} is not a valid ErrorCode"
  | booleanDatum => "booleans are not data; use 't' or None"
  | decimalDatum => "cannot intern float"
  | unexpectedEnd => "unexpected end of input"
  | unexpectedClose => "unexpected ')'"
  | unterminatedList => "unterminated list"
  | closeExpected => "expected ')' after dotted tail"
  | expressionCount found => s!"expected one expression, found {found}"
  | lookupDepth value => s!"max_lookup_depth must be >= 1, got {value}"
  | constraintLimit value => s!"max_constraints must be positive, got {value}"
  | workerCount value => s!"synthesis_workers must be positive, got {value}"
  | dispatch rules => "guards selected " ++ quoted rules ++ ", expected exactly one"
  | zeroInverse => "0 has no inverse in GF(p)"
  | permutationWidth found => s!"input_data must have 16 elements, got {found}"
  | circuitWidth found => s!"state must have 16 elements, got {found}"
  | stateSize found => s!"a state has 15 elements, got {found}"
  | negativeSteps steps => s!"max_steps must be non-negative, got {steps}"
  | traceTooLong frames length => s!"trace has {frames} frames, cannot pad to {length}"
  | traceNotHalted => "only traces ending in a terminal state can be padded"
  | unsharedStore => "jobs sharing a store require Store(shared=True)"
  | frameGap index =>
    s!"frame {index} does not start where frame {(index : Int) - 1} ended"
  | noFrames => "an empty frame sequence has no initial state"
  | circuitSize limit => s!"frame circuit exceeds max_constraints={limit}"
  | publicAfterPrivate => "public variables must be allocated before private ones"
  | unsatisfiedStep step constraint label total =>
    s!"step {step}: constraint {constraint} ({label}) fails, {total} in total"
  | shapeDiffers step => s!"step {step} has a different circuit shape"
  | stepGap step => s!"step {step} does not continue the trace"
  | endDiffers => "last instance does not end in the final state"
  | notAContinuation _ | noWorkers | cyclicContent | numeralTooLong | divisionByZero | noOperands
  | notAWord | listTooLong | notCanonical | missingElement | combinationProduct | noSuchEntry
  | notHexadecimal | unfitOperand | absentPart => ""

end Fault

end FieldLisp
