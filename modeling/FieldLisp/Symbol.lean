import FieldLisp.Pointer
import FieldLisp.Sponge

/-! # Symbols and builtins

A symbol's digest is the hash of its name, so its pointer is known without a store. The builtin
symbols are constants: rules compare pointers with them and never look a name up. -/

namespace FieldLisp

/-- Elements hashed for a symbol: the tag, the number of bytes, and the packed bytes. -/
def symbolPreimage (name : String) : List Int :=
  let bytes := name.toUTF8.toList
  Tag.symbol.value :: (bytes.length : Int) :: Field.packBytes bytes

/-- Pointer of the symbol with a given name. -/
def symbolPointer (name : String) : Pointer := .ofDigest .symbol (Sponge.hash (symbolPreimage name))

/-- Builtins of one operand. -/
inductive UnaryOp where
  | car | cdr | atom | commit | payload | secret | emit
  deriving DecidableEq, Repr, Inhabited

/-- Builtins of two operands. -/
inductive BinaryOp where
  | add | sub | mul | div | rem | equal | less | greater | atMost | atLeast | same | cons | hide
  deriving DecidableEq, Repr, Inhabited

/-- Heads that make an expression more than a call. -/
inductive Form where
  | quote | lambda | cond | bindLet | bindRec
  | unary (op : UnaryOp)
  | binary (op : BinaryOp)
  deriving DecidableEq, Repr, Inhabited

namespace UnaryOp

def all : List UnaryOp := [car, cdr, atom, commit, payload, secret, emit]

def name : UnaryOp → String
  | car => "car" | cdr => "cdr" | atom => "atom" | commit => "commit" | payload => "open"
  | secret => "secret" | emit => "emit"

end UnaryOp

namespace BinaryOp

def all : List BinaryOp :=
  [add, sub, mul, div, rem, equal, less, greater, atMost, atLeast, same, cons, hide]

def name : BinaryOp → String
  | add => "+" | sub => "-" | mul => "*" | div => "/" | rem => "%" | equal => "=" | less => "<"
  | greater => ">" | atMost => "<=" | atLeast => ">=" | same => "eq" | cons => "cons"
  | hide => "hide"

end BinaryOp

namespace Form

/-- All forms; their flags are computed in this order. -/
def all : List Form :=
  [quote, lambda, cond, bindLet, bindRec] ++ UnaryOp.all.map unary ++ BinaryOp.all.map binary

def name : Form → String
  | quote => "quote" | lambda => "lambda" | cond => "if" | bindLet => "let" | bindRec => "letrec"
  | unary op => op.name
  | binary op => op.name

end Form

namespace Builtin

/-- The truth value. -/
def truth : String := "t"

/-- The parameter of a function without parameters. -/
def noParameter : String := "_"

def names : List String := truth :: noParameter :: Form.all.map Form.name

/-- The builtin symbols with their names. -/
def table : List (Pointer × String) := names.map fun name => (symbolPointer name, name)

def truthPointer : Pointer := symbolPointer truth

def noParameterPointer : Pointer := symbolPointer noParameter

/-- The symbols of the forms, computed once. -/
def formTable : List (Form × Pointer) := Form.all.map fun form => (form, symbolPointer form.name)

end Builtin

/-- The symbol of a form. -/
def Form.symbol (form : Form) : Pointer := (Builtin.formTable.lookup form).getD .nil

theorem Form.symbol_eq (form : Form) : form.symbol = symbolPointer form.name := by
  cases form with
  | unary op => cases op <;> rfl
  | binary op => cases op <;> rfl
  | _ => rfl

end FieldLisp
