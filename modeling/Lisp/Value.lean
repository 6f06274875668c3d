import Lisp.Builtin
import Lisp.Source.Span
import Lisp.Symbol

/-!
# Values

Programs and data share one type: a form is a value, and evaluating it gives a
value.  Values are immutable.  What can change later lives in the heap, and a
value refers to it by number: closures, interfaces, record types, and the call
stack that an error value is given when it is first thrown.

A list remembers the span it was read from, for diagnostics only.  A map is
kept as its entries, no two of them under structurally equal keys.
-/

namespace Lisp

/-- A closure of the heap. -/
abbrev ClosureId := Nat

/-- An interface of the heap. -/
abbrev InterfaceId := Nat

/-- A record type of the heap. -/
abbrev RecordTypeId := Nat

/-- A frame of the heap. -/
abbrev FrameId := Nat

/-- One tag per kind of value: the keys of interface dispatch. -/
inductive TypeTag where
  | nil
  | bool
  | num
  | str
  | sym
  | keyword
  | list
  | map
  | proc
  | interface
  | type
  | error
  | record (id : RecordTypeId)
  deriving DecidableEq, Repr, Inhabited

/-- The three ways in which a value that is no procedure can be applied: as a
key, as a map to look into, and as a list to index. -/
inductive Access where
  | byKeyword
  | intoMap
  | intoList
  deriving DecidableEq, Repr

/-- The values of the language. -/
inductive Value where
  | nil
  | bool (b : Bool)
  | num (n : Float)
  | str (text : String)
  | sym (s : Symbol)
  | keyword (name : String)
  | list (items : List Value) (source : Option Span)
  | map (entries : List (Value × Value))
  | closure (id : ClosureId)
  | builtin (b : Builtin)
  | accessor (serial : Nat) (way : Access) (subject : Value)
  | bound (receiver target : Value)
  | interface (id : InterfaceId)
  | type (tag : TypeTag)
  | record (type : RecordTypeId) (fields : List Value)
  | error (serial : Nat) (message : String) (data : Value) (kind : Option String)
  deriving Inhabited

/-- The printed name of an access procedure. -/
def Access.name : Access → String
  | .byKeyword => "keyword-lookup"
  | .intoMap => "map-lookup"
  | .intoList => "list-index"

namespace TypeTag

/-- The tags of builtin types, in the order in which they are listed. -/
def builtins : List TypeTag :=
  [.nil, .bool, .num, .str, .sym, .keyword, .list, .map, .proc, .interface, .type, .error]

/-- The name of a builtin type. -/
def builtinName : TypeTag → String
  | .nil => "Nil"
  | .bool => "Bool"
  | .num => "Num"
  | .str => "Str"
  | .sym => "Sym"
  | .keyword => "Keyword"
  | .list => "List"
  | .map => "Map"
  | .proc => "Proc"
  | .interface => "Interface"
  | .type => "Type"
  | .error => "Error"
  | .record _ => "Record"

end TypeTag

namespace Value

/-- A list that was not read from any text. -/
def ofList (items : List Value) : Value := .list items none

/-- The interned symbol of a name, as a value. -/
def symbol (name : String) : Value := .sym (.intern name)

/-- The tag of a value's type. -/
def tag : Value → TypeTag
  | .nil => .nil
  | .bool _ => .bool
  | .num _ => .num
  | .str _ => .str
  | .sym _ => .sym
  | .keyword _ => .keyword
  | .list .. => .list
  | .map _ => .map
  | .closure _ | .builtin _ | .accessor .. | .bound .. => .proc
  | .interface _ => .interface
  | .type _ => .type
  | .record ty _ => .record ty
  | .error .. => .error

/-- Values that can be applied as they are. -/
def isCallable : Value → Bool
  | .closure _ | .builtin _ | .accessor .. | .bound .. | .interface _ | .type _ => true
  | _ => false

/-- The symbol `...`. -/
def isSpliceMarker : Value → Bool
  | .sym s => s.isSplice
  | _ => false

/-- The operand of a two-element list headed by `...`. -/
def spreadOperand? : Value → Option Value
  | .list [.sym s, operand] _ => if s.isSplice then some operand else none
  | _ => none

/-- The special form that the head of a list of forms selects. -/
def headForm? : List Value → Option SpecialForm
  | .sym s :: _ => SpecialForm.ofSymbol? s
  | _ => none

/-- The name that a key gives to a record field or a part of an error. -/
def fieldName? : Value → Option String
  | .sym s => some s.name
  | .keyword name => some name
  | .str name => some name
  | _ => none

end Value

end Lisp
