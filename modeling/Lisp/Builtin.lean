import Lisp.Arity

/-!
# Builtin procedures

The procedures that are present before any program runs, in families: each
family is an enumeration with the name and the arity of every member.  What
they do is defined beside the evaluator.  `CoreOp` are the implementations of
the core interfaces for builtin types; they have no global name, and two of
them share a printed name with a global procedure without being the same
procedure.
-/

namespace Lisp

/-- Procedures on types and interfaces. -/
inductive TypeOp where
  | typeOf
  | typeName
  | assertType
  | isImplemented
  | interfaceName
  | interfaceSignature
  deriving DecidableEq, Repr

/-- Arithmetic, comparison and equality. -/
inductive NumberOp where
  | add
  | subtract
  | multiply
  | divide
  | remainder
  | power
  | floor
  | less
  | lessEqual
  | greater
  | greaterEqual
  | equal
  | notEqual
  | negate
  | isNumber
  | isInteger
  deriving DecidableEq, Repr

/-- Procedures on lists, maps and other sequences. -/
inductive SequenceOp where
  | get
  | count
  | cons
  | conj
  | concat
  | assoc
  | dissoc
  | keys
  | vals
  | contains
  | nth
  | apply
  | map
  | filter
  | reduce
  | forEach
  | chunk
  | flatten
  deriving DecidableEq, Repr

/-- Procedures on error values. -/
inductive ErrorOp where
  | make
  | message
  | data
  | stack
  | kind
  | isError
  deriving DecidableEq, Repr

/-- Reading, evaluating and printing from within a program. -/
inductive ReflectionOp where
  | read
  | eval
  | print
  | colorPrint
  | uniqueSymbol
  deriving DecidableEq, Repr

/-- Output and files. -/
inductive SystemOp where
  | println
  | readFile
  | writeFile
  | exec
  deriving DecidableEq, Repr

/-- Implementations of the core interfaces for builtin types. -/
inductive CoreOp where
  | print
  | hash
  | equals
  | nilToBool
  | numToBool
  | strToBool
  | listToBool
  | mapToBool
  | boolToNum
  | strToNum
  | keywordToProc
  | mapToProc
  | listToProc
  | listFirst
  | listRest
  | listIsEmpty
  | nilFirst
  | nilRest
  | nilIsEmpty
  | mapIsEmpty
  | alwaysTrue
  deriving DecidableEq, Repr

/-- A builtin procedure. -/
inductive Builtin where
  | type (op : TypeOp)
  | number (op : NumberOp)
  | sequence (op : SequenceOp)
  | error (op : ErrorOp)
  | reflection (op : ReflectionOp)
  | system (op : SystemOp)
  | core (op : CoreOp)
  deriving DecidableEq, Repr

namespace TypeOp

/-- All members, in the order in which they are bound. -/
def all : List TypeOp :=
  [.typeOf, .typeName, .assertType, .isImplemented, .interfaceName, .interfaceSignature]

/-- The name of a member, under which it is printed and bound. -/
def name : TypeOp → String
  | .typeOf => "type-of"
  | .typeName => "type-name"
  | .assertType => "assert-type"
  | .isImplemented => "impl?"
  | .interfaceName => "interface-name"
  | .interfaceSignature => "interface-signature"

/-- How many arguments a member takes. -/
def arity : TypeOp → Arity
  | .typeOf | .typeName | .interfaceName | .interfaceSignature => .exactly 1
  | .assertType => .exactly 2
  | .isImplemented => .atLeast 1

end TypeOp

namespace NumberOp

/-- All members, in the order in which they are bound. -/
def all : List NumberOp :=
  [.add, .subtract, .multiply, .divide, .remainder, .power, .floor, .less, .lessEqual,
   .greater, .greaterEqual, .equal, .notEqual, .negate, .isNumber, .isInteger]

/-- The name of a member, under which it is printed and bound. -/
def name : NumberOp → String
  | .add => "+"
  | .subtract => "-"
  | .multiply => "*"
  | .divide => "/"
  | .remainder => "%"
  | .power => "**"
  | .floor => "floor"
  | .less => "<"
  | .lessEqual => "<="
  | .greater => ">"
  | .greaterEqual => ">="
  | .equal => "="
  | .notEqual => "not="
  | .negate => "not"
  | .isNumber => "num?"
  | .isInteger => "integer?"

/-- How many arguments a member takes. -/
def arity : NumberOp → Arity
  | .add | .subtract | .multiply => .atLeast 0
  | .divide | .less | .lessEqual | .greater | .greaterEqual | .equal | .notEqual => .atLeast 1
  | .remainder | .power => .exactly 2
  | .floor | .negate | .isNumber | .isInteger => .exactly 1

end NumberOp

namespace SequenceOp

/-- All members, in the order in which they are bound. -/
def all : List SequenceOp :=
  [.get, .count, .cons, .conj, .concat, .assoc, .dissoc, .keys, .vals, .contains, .nth,
   .apply, .map, .filter, .reduce, .forEach, .chunk, .flatten]

/-- The name of a member, under which it is printed and bound. -/
def name : SequenceOp → String
  | .get => "get"
  | .count => "count"
  | .cons => "cons"
  | .conj => "conj"
  | .concat => "concat"
  | .assoc => "assoc"
  | .dissoc => "dissoc"
  | .keys => "keys"
  | .vals => "vals"
  | .contains => "contains?"
  | .nth => "nth"
  | .apply => "apply"
  | .map => "map"
  | .filter => "filter"
  | .reduce => "reduce"
  | .forEach => "for-each"
  | .chunk => "chunk"
  | .flatten => "flatten"

/-- How many arguments a member takes. -/
def arity : SequenceOp → Arity
  | .get | .nth => .between 2 3
  | .count | .keys | .vals | .flatten => .exactly 1
  | .cons | .contains | .map | .filter | .forEach | .chunk => .exactly 2
  | .conj | .assoc | .dissoc | .apply => .atLeast 1
  | .concat => .atLeast 0
  | .reduce => .exactly 3

end SequenceOp

namespace ErrorOp

/-- All members, in the order in which they are bound. -/
def all : List ErrorOp :=
  [.make, .message, .data, .stack, .kind, .isError]

/-- The name of a member, under which it is printed and bound. -/
def name : ErrorOp → String
  | .make => "error"
  | .message => "get-message"
  | .data => "get-data"
  | .stack => "get-stack"
  | .kind => "error-kind"
  | .isError => "error?"

/-- How many arguments a member takes. -/
def arity : ErrorOp → Arity
  | .make => .between 0 3
  | .message | .data | .stack | .kind | .isError => .exactly 1

end ErrorOp

namespace ReflectionOp

/-- All members, in the order in which they are bound. -/
def all : List ReflectionOp :=
  [.read, .eval, .print, .colorPrint, .uniqueSymbol]

/-- The name of a member, under which it is printed and bound. -/
def name : ReflectionOp → String
  | .read => "read"
  | .eval => "eval"
  | .print => "print"
  | .colorPrint => "color-print"
  | .uniqueSymbol => "unique-sym"

/-- How many arguments a member takes. -/
def arity : ReflectionOp → Arity
  | .read => .between 1 2
  | .eval | .print | .colorPrint => .exactly 1
  | .uniqueSymbol => .between 0 1

end ReflectionOp

namespace SystemOp

/-- All members, in the order in which they are bound. -/
def all : List SystemOp :=
  [.println, .readFile, .writeFile, .exec]

/-- The name of a member, under which it is printed and bound. -/
def name : SystemOp → String
  | .println => "println"
  | .readFile => "read-file"
  | .writeFile => "write-file"
  | .exec => "exec"

/-- How many arguments a member takes. -/
def arity : SystemOp → Arity
  | .println => .atLeast 0
  | .readFile => .exactly 1
  | .writeFile => .between 2 3
  | .exec => .atLeast 1

end SystemOp

namespace CoreOp

/-- The name of a member, under which it is printed. -/
def name : CoreOp → String
  | .print => "print"
  | .hash => "hash"
  | .equals => "equals"
  | .nilToBool => "nil->bool"
  | .numToBool => "num->bool"
  | .strToBool => "str->bool"
  | .listToBool => "list->bool"
  | .mapToBool => "map->bool"
  | .boolToNum => "bool->num"
  | .strToNum => "str->num"
  | .keywordToProc => "keyword->proc"
  | .mapToProc => "map->proc"
  | .listToProc => "list->proc"
  | .listFirst => "list-first"
  | .listRest => "list-rest"
  | .listIsEmpty => "list-empty?"
  | .nilFirst => "nil-first"
  | .nilRest => "nil-rest"
  | .nilIsEmpty => "nil-empty?"
  | .mapIsEmpty => "map-empty?"
  | .alwaysTrue => "always-true"

/-- How many arguments a member takes. -/
def arity : CoreOp → Arity
  | .equals => .exactly 2
  | _ => .exactly 1

end CoreOp

namespace Builtin

/-- The name under which a builtin is printed and shown in a call stack. -/
def name : Builtin → String
  | .type op => op.name
  | .number op => op.name
  | .sequence op => op.name
  | .error op => op.name
  | .reflection op => op.name
  | .system op => op.name
  | .core op => op.name

/-- How many arguments a builtin takes. -/
def arity : Builtin → Arity
  | .type op => op.arity
  | .number op => op.arity
  | .sequence op => op.arity
  | .error op => op.arity
  | .reflection op => op.arity
  | .system op => op.arity
  | .core op => op.arity

/-- The builtins bound to global names in every interpreter. -/
def globals : List Builtin :=
  TypeOp.all.map .type ++ NumberOp.all.map .number ++ SequenceOp.all.map .sequence ++
    ErrorOp.all.map .error ++ ReflectionOp.all.map .reflection

end Builtin

end Lisp
