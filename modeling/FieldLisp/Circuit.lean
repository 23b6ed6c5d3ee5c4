import FieldLisp.Circuit.Combination
import FieldLisp.Fault
import FieldLisp.Position

/-! # Circuits

A constraint states that the product of two linear combinations is a third. A circuit is a list of
constraints together with an assignment of its variables, built up side by side. Public variables
come right after the constant one, before all others. Labels name where a constraint comes from;
they mean nothing. -/

namespace FieldLisp

/-- The product of `a` and `b` is `c`. -/
structure Constraint where
  a : List Term
  b : List Term
  c : List Term
  deriving DecidableEq, Repr, Inhabited

structure Circuit where
  /-- Most constraints that the circuit may have, if there is a bound. -/
  limit : Option Int
  /-- Values of the variables. -/
  assignment : Array Int
  publicCount : Nat
  constraints : Array Constraint
  /-- The label of each constraint. -/
  labels : Array String
  /-- Scopes that are open, innermost first. -/
  scopes : List String
  /-- The label that the open scopes give. -/
  label : String
  deriving DecidableEq, Repr

/-- An operation that may extend a circuit. It keeps what it added before it failed. -/
abbrev CircuitM := EStateM Fault Circuit

namespace Circuit

/-- No variable but the constant one, and no constraint. -/
def empty (limit : Option Int) : Circuit := ⟨limit, #[1], 0, #[], #[], [], ""⟩

instance : Inhabited Circuit := ⟨empty none⟩

/-! ## Building -/

/-- A new variable. -/
def alloc (value : Int) : CircuitM Combination := fun s =>
  let value := Field.reduce value
  .ok (.ofVariable s.assignment.size value) { s with assignment := s.assignment.push value }

/-- A new public variable, as long as there is no other one. -/
def allocPublic (value : Int) : CircuitM Combination := fun s =>
  if s.publicCount + 1 = s.assignment.size then
    alloc value { s with publicCount := s.publicCount + 1 }
  else .error .publicAfterPrivate s

def enter (s : Circuit) (name : String) : Circuit :=
  let scopes := name :: s.scopes
  { s with scopes := scopes, label := "/".intercalate scopes.reverse }

def leave (s : Circuit) : Circuit :=
  let scopes := s.scopes.tail
  { s with scopes := scopes, label := "/".intercalate scopes.reverse }

/-- Labels what an operation adds; the scope ends however the operation does. -/
def within (name : String) (operation : CircuitM α) : CircuitM α := fun s =>
  match operation (s.enter name) with
  | .ok a s => .ok a s.leave
  | .error fault s => .error fault s.leave

/-- A circuit that is as large as it may be takes no further constraint. -/
def checkRoom : CircuitM Unit := fun s =>
  match s.limit.filter (fun limit => limit ≤ (s.constraints.size : Int)) with
  | some limit => .error (.circuitSize limit) s
  | none => .ok () s

/-- Demands that the product of `a` and `b` is `c`. -/
def enforce (a b c : Combination) : CircuitM Unit := fun s =>
  match checkRoom s with
  | .error fault s => .error fault s
  | .ok () s => .ok () { s with
      constraints := s.constraints.push ⟨a.terms, b.terms, c.terms⟩
      labels := s.labels.push s.label }

/-- The product, which needs no constraint if a factor is constant. -/
def mul (a b : Combination) : CircuitM Combination :=
  if a.isConstant then pure (b * a.value)
  else if b.isConstant then pure (a * b.value)
  else do
    let c ← alloc (a.value * b.value)
    enforce a b c
    pure c

/-! ## Reading -/

/-- Values of the public variables. -/
def publicValues (s : Circuit) : List Int := (s.assignment.toList.drop 1).take s.publicCount

/-- Whether an assignment satisfies a constraint. -/
def holds (assignment : Array Int) (k : Constraint) : Bool :=
  Field.reduce (Combination.evalTerms assignment k.a * Combination.evalTerms assignment k.b) ==
    Combination.evalTerms assignment k.c

/-- Number and label of each constraint that the assignment violates. -/
def unsatisfied (s : Circuit) : List (Nat × String) :=
  ((s.constraints.toList.zip s.labels.toList).zipIdx.filter fun (entry, _) =>
    !holds s.assignment entry.1).map fun (entry, index) => (index, entry.2)

def isSatisfied (s : Circuit) : Bool := s.unsatisfied.isEmpty

/-- How many constraints in a row carry each label. -/
def labelRuns (s : Circuit) : List (String × Nat) :=
  (s.labels.toList.splitBy (· == ·)).map fun run => (run.headD "", run.length)

/-- Overwrites the value of a variable; a negative index counts from the last. -/
def assign (s : Circuit) (index : Int) (value : Int) : Except Fault Circuit :=
  let index := position s.assignment.size index
  if 0 ≤ index ∧ index < s.assignment.size then
    .ok { s with assignment := s.assignment.set! index.toNat value }
  else .error .noSuchEntry

end Circuit

end FieldLisp
