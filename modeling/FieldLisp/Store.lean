import FieldLisp.Fault
import FieldLisp.Symbol
import Std.Data.HashMap

/-! # The store

Content goes in, pointers come out. The pointer of a node is the hash of its tag and of the pointers
of its children, so it is a function of content alone: stores that took in the same content, in any
order, hand out the same pointers. What a store keeps is the way back, from a pointer to the
children of a node or to the name of a symbol. An operation that fails keeps what it has taken in so
far. -/

namespace FieldLisp

/-- Elements hashed for a node: its tag, then the elements of each child. -/
def nodePreimage (tag : Tag) (children : List Pointer) : List Int :=
  tag.value :: children.flatMap Pointer.elements

def nodeDigest (tag : Tag) (children : List Pointer) : Digest Int :=
  Sponge.hash (nodePreimage tag children)

/-- Expressions, environments and continuations, by pointer and by content. -/
structure Store where
  /-- Several evaluations may run on this store. -/
  shared : Bool
  /-- Children of each node. -/
  nodes : Std.HashMap Pointer (List Pointer)
  /-- Pointer of each node, by its content. -/
  interned : Std.HashMap (Tag × List Pointer) Pointer
  /-- Name of each symbol. -/
  names : Std.HashMap Pointer String
  deriving Inhabited

/-- An operation that may take content into a store. -/
abbrev StoreM := EStateM Fault Store

/-- What a pointer stands for. -/
inductive Content where
  | children (pointers : List Pointer)
  | name (text : String)
  | value (element : Int)
  deriving DecidableEq, Repr, Inhabited

namespace Store

/-- A store that knows the builtin symbols only. -/
def empty (shared : Bool) : Store := ⟨shared, ∅, ∅, .ofList Builtin.table⟩

/-- Number of nodes and symbols. -/
def size (s : Store) : Nat := s.nodes.size + s.names.size

/-- Immediate pointers are in every store. -/
def contains (s : Store) (p : Pointer) : Bool :=
  p.tag.isImmediate || s.nodes.contains p || s.names.contains p

/-! ## Taking content in -/

/-- A node needs as many children as its tag has, and each of them in the store. -/
def checkNode (s : Store) (tag : Tag) (children : List Pointer) : Except Fault Unit :=
  if tag.arity? = some children.length then
    match children.find? (!s.contains ·) with
    | some child => .error (Fault.dangling child).reported
    | none => .ok ()
  else .error (.childCount tag children.length)

/-- The pointer handed out for a node before, if there was one. -/
def internedAs? (s : Store) (tag : Tag) (children : List Pointer) : Option Pointer :=
  s.interned[(tag, children)]?

/-- Keeps a node under the hash of its content, unless an entry is there already. -/
def record (s : Store) (tag : Tag) (children : List Pointer) : Pointer × Store :=
  let fresh : Pointer := .ofDigest tag (nodeDigest tag children)
  let pointer := s.interned.getD (tag, children) fresh
  (pointer, { s with
    interned := s.interned.insertIfNew (tag, children) fresh
    nodes := s.nodes.insertIfNew pointer children })

/-- Keeps the name of a symbol, unless one is there already. -/
def recordName (s : Store) (pointer : Pointer) (name : String) : Store :=
  { s with names := s.names.insertIfNew pointer name }

/-- Takes in a node: its children are checked, then it is looked up, and only a new one is hashed
and kept. -/
def internNode (tag : Tag) (children : List Pointer) : StoreM Pointer := fun s =>
  match s.checkNode tag children with
  | .error fault => .error fault s
  | .ok () =>
    match s.internedAs? tag children with
    | some pointer => .ok pointer s
    | none =>
      match s.record tag children with
      | (pointer, s) => .ok pointer s

/-- Takes in a symbol. The name of nil is nil. -/
def internSymbol (name : String) : StoreM Pointer := fun s =>
  if name = "nil" then .ok .nil s
  else
    let pointer := symbolPointer name
    .ok pointer (s.recordName pointer name)

/-- A pointer, if it is in the store. -/
def internPointer (p : Pointer) : StoreM Pointer := fun s =>
  if s.contains p then .ok p s else .error (Fault.dangling p).reported s

def cons (car cdr : Pointer) : StoreM Pointer := internNode .cons [car, cdr]

/-- A list that ends in `tail`, built from its last item. -/
def list : List Pointer → Pointer → StoreM Pointer
  | [], tail => pure tail
  | item :: items, tail => do
    let rest ← list items tail
    cons item rest

/-- A value wrapped so that it is not evaluated again. -/
def thunk (value : Pointer) : StoreM Pointer := internNode .thunk [value, .nil]

def function (parameter body env : Pointer) : StoreM Pointer :=
  internNode .function [parameter, body, env]

/-- A binding in front of an environment. -/
def bind (var val parent : Pointer) (recursive : Bool) : StoreM Pointer :=
  internNode (if recursive then .recEnv else .env) [var, val, parent]

/-- A continuation; children left out at the end are nil. -/
def continuation (tag : Tag) (children : List Pointer) : StoreM Pointer :=
  match tag.arity? with
  | none => throw (.notAContinuation tag)
  | some arity => internNode tag (children ++ List.replicate (arity - children.length) .nil)

/-- Commitment to a payload, blinded by a number. -/
def hide (secret : Int) (payload : Pointer) : StoreM Pointer :=
  internNode .commitment [.number secret, payload]

def commit (payload : Pointer) : StoreM Pointer := hide 0 payload

/-! ## Looking content up -/

/-- Children of a node; `arity`, if given, is what the caller expects. -/
def fetch (s : Store) (p : Pointer) (arity : Option Int) : Except Fault (List Pointer) :=
  match p.tag.arity? with
  | none => .error (Fault.notANode p arity).reported
  | some n =>
    if arity.all (· == (n : Int)) then
      match s.nodes[p]? with
      | some children => .ok children
      | none => .error (Fault.dangling p).reported
    else .error (Fault.notANode p arity).reported

/-- Name of a symbol. -/
def nameOf (s : Store) (p : Pointer) : Except Fault String :=
  match s.names[p]? with
  | some name => .ok name
  | none => .error (Fault.dangling p).reported

/-- Children of a node, name of a symbol, value of anything else. -/
def resolve (s : Store) (p : Pointer) : Except Fault Content :=
  if p.tag.isImmediate then p.payload.map .value
  else if p.tag = .symbol then (s.nameOf p).map .name
  else (s.fetch p none).map .children

/-- Commitment to what stands behind a pointer, and to its tag. A hashed pointer has absorbed its
tag already; an immediate one is hashed here, and its preimage starts with a tag that no node or
symbol has. -/
def digest (s : Store) (p : Pointer) : Except Fault (List Int) :=
  if s.contains p then
    .ok (if p.tag.isImmediate then (Sponge.hash p.elements).toList else p.digest)
  else .error (Fault.dangling p).reported

/-- The signed integer that a number pointer stands for. -/
def readNumber (p : Pointer) : Except Fault Int :=
  if p.tag = .number then p.payload.map Field.toSigned
  else .error (Fault.notANumber p).reported

end Store

/-- The pointer that elements give: the number of a tag, then at most four of a digest; more are
ignored. -/
def Pointer.ofElements : List Int → Except Fault Pointer
  | [] => .error .missingElement
  | tag :: digest =>
    match Tag.ofValue? tag with
    | some tag => .ok ⟨tag, digest.take (pointerSize - 1)⟩
    | none => .error (.unknownTag tag)

end FieldLisp
