import FieldLisp.Store

/-! # Data

Plain values that can be taken into a store without being written as text: numbers, symbols by name,
and lists of data. Pointers pass through, if they are in the store. -/

namespace FieldLisp

inductive Datum where
  | pointer (pointer : Pointer)
  | null
  | integer (n : Int)
  | boolean (b : Bool)
  | decimal
  | text (name : String)
  | items (items : List Datum)
  deriving Repr, Inhabited

namespace Store

mutual

/-- Takes in a datum; the items of a list go in first, then the list from its end. -/
def intern : Datum → StoreM Pointer
  | .pointer p => internPointer p
  | .null => pure .nil
  | .integer n => pure (.number n)
  | .boolean _ => throw .booleanDatum
  | .decimal => throw .decimalDatum
  | .text name => internSymbol name
  | .items items => do
    let pointers ← internItems items
    list pointers .nil

/-- Takes in data from the first to the last. -/
def internItems : List Datum → StoreM (List Pointer)
  | [] => pure []
  | datum :: data => do
    let pointer ← intern datum
    let pointers ← internItems data
    pure (pointer :: pointers)

end

end Store

end FieldLisp
