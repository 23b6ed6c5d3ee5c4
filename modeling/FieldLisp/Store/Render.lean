import FieldLisp.Store

/-! # Written form of content

Lists are written with parentheses and a dot before an improper end, numbers with a sign, symbols by
name. What cannot be read back is set in angle brackets. Every step down goes to a child, and a node
is taken in after its children, so a path is no longer than the store is large: that bounds the
recursion. -/

namespace FieldLisp.Store

private def spaced (parts : List String) : String := " ".intercalate parts

mutual

/-- Written form of a pointer, going down at most `fuel` levels. -/
def renderWithin (s : Store) : Nat → Pointer → Except Fault String
  | 0, _ => .error .cyclicContent
  | fuel + 1, p =>
    match p.tag with
    | .nil => .ok "nil"
    | .number => do
      let value ← p.payload
      .ok (toString (Field.toSigned value))
    | .symbol => s.nameOf p
    | .error => do
      let value ← p.payload
      match ErrorCode.ofValue? value with
      | some code => .ok ("<ERR " ++ code.name ++ ">")
      | none => .error (.unknownErrorCode value)
    | .cons => do
      let parts ← renderItems s fuel p
      .ok ("(" ++ spaced parts ++ ")")
    | .function => do
      match ← s.fetch p none with
      | parameter :: body :: _ =>
        let parameters ←
          if parameter = Builtin.noParameterPointer then .ok ""
          else renderWithin s fuel parameter
        let body ← renderWithin s fuel body
        .ok ("<FUN (" ++ parameters ++ ") " ++ body ++ ">")
      | _ => .error (.notANode p (some 3))
    | .thunk => do
      match ← s.fetch p none with
      | value :: _ =>
        let value ← renderWithin s fuel value
        .ok ("<THUNK " ++ value ++ ">")
      | _ => .error (.notANode p (some 2))
    | .commitment => do
      let value ← p.payload
      .ok ("<COMM " ++ hexadecimal value ++ ">")
    | .env | .recEnv => do
      let bindings ← renderBindings s fuel p
      .ok ("<ENV " ++ spaced bindings ++ ">")
    | tag => .ok ("<CONT " ++ tag.name ++ ">")

/-- Written forms of the items of a list, and of an improper end after a dot. -/
def renderItems (s : Store) : Nat → Pointer → Except Fault (List String)
  | 0, _ => .error .cyclicContent
  | fuel + 1, p =>
    match p.tag with
    | .cons => do
      match ← s.fetch p none with
      | [car, cdr] =>
        let item ← renderWithin s fuel car
        let items ← renderItems s fuel cdr
        .ok (item :: items)
      | _ => .error (.notANode p (some 2))
    | .nil => .ok []
    | _ => do
      let tail ← renderWithin s fuel p
      .ok [".", tail]

/-- Written forms of the bindings of an environment, innermost first. -/
def renderBindings (s : Store) : Nat → Pointer → Except Fault (List String)
  | 0, _ => .error .cyclicContent
  | fuel + 1, p =>
    if p.tag.isEnv then do
      match ← s.fetch p none with
      | [var, val, parent] =>
        let var ← renderWithin s fuel var
        let val ← renderWithin s fuel val
        let bindings ← renderBindings s fuel parent
        .ok (("(" ++ var ++ " . " ++ val ++ ")") :: bindings)
      | _ => .error (.notANode p (some 3))
    else .ok []

end

/-- Written form of a pointer. A node costs at most three levels, a leaf one. -/
def render (s : Store) (p : Pointer) : Except Fault String :=
  s.renderWithin (3 * s.nodes.size + 3) p

end FieldLisp.Store
