import WasmBackend.Opcode

/-! # Operators of instructions -/

namespace WasmBackend

/-! ### Local variables -/

/-- Access to a local variable. -/
inductive VariableOp
  | get
  | set
  /-- Write and keep the value on the stack. -/
  | tee
  deriving DecidableEq

namespace VariableOp

/-- Every operator. -/
def all : List VariableOp := [get, set, tee]

def name : VariableOp → String
  | get => "get"
  | set => "set"
  | tee => "tee"

def opcode : VariableOp → Opcode
  | get => .localGet
  | set => .localSet
  | tee => .localTee

end VariableOp

/-! ### Arrays -/

/-- Operations on arrays. -/
inductive ArrayOp
  /-- Allocate an array of a given length. -/
  | new
  /-- Read an element. -/
  | get
  /-- Read a packed element, sign-extended. -/
  | getSigned
  /-- Read a packed element, zero-extended. -/
  | getUnsigned
  /-- Write an element. -/
  | set
  | len
  /-- Allocate an array of a given length and runtime type descriptor. -/
  | newWithDescriptor
  deriving DecidableEq

namespace ArrayOp

/-- Every operator. -/
def all : List ArrayOp := [new, get, getSigned, getUnsigned, set, len, newWithDescriptor]

def name : ArrayOp → String
  | new => "NEW"
  | get => "GET"
  | getSigned => "GET_S"
  | getUnsigned => "GET_U"
  | set => "SET"
  | len => "LEN"
  | newWithDescriptor => "NEW_ARRAY_WITH_RTT"

/-- The operation reads an element. -/
def isGet : ArrayOp → Bool
  | get | getSigned | getUnsigned => true
  | _ => false

end ArrayOp

/-! ### Numbers -/

/-- Arithmetic, bitwise and comparison operators. -/
inductive NumericOp
  | add | sub | mul | div | rem
  | and | or | xor | shl | shrS | shrU
  | eq | ne | lt | le | gt | ge
  | neg | eqz
  deriving DecidableEq

namespace NumericOp

/-- Every operator. -/
def all : List NumericOp :=
  [add, sub, mul, div, rem, and, or, xor, shl, shrS, shrU, eq, ne, lt, le, gt, ge, neg, eqz]

def name : NumericOp → String
  | add => "add"
  | sub => "sub"
  | mul => "mul"
  | div => "div"
  | rem => "rem"
  | and => "and"
  | or => "or"
  | xor => "xor"
  | shl => "shl"
  | shrS => "shr_s"
  | shrU => "shr_u"
  | eq => "eq"
  | ne => "ne"
  | lt => "lt"
  | le => "le"
  | gt => "gt"
  | ge => "ge"
  | neg => "neg"
  | eqz => "eqz"

/-- The result is a truth value. -/
def isComparison : NumericOp → Bool
  | eq | ne | lt | le | gt | ge | eqz => true
  | _ => false

/-- The operator takes one operand. -/
def isUnary : NumericOp → Bool
  | neg | eqz => true
  | _ => false

end NumericOp

/-! ### Control -/

/-- Structured control and stack operators. -/
inductive ControlOp
  | ret
  | drop
  | unreachable
  | block
  | loop
  | endBlock
  | br
  | brIf
  deriving DecidableEq

namespace ControlOp

/-- Every operator. -/
def all : List ControlOp := [ret, drop, unreachable, block, loop, endBlock, br, brIf]

def name : ControlOp → String
  | ret => "RETURN"
  | drop => "DROP"
  | unreachable => "UNREACHABLE"
  | block => "BLOCK"
  | loop => "LOOP"
  | endBlock => "END"
  | br => "BR"
  | brIf => "BR_IF"

def opcode : ControlOp → Opcode
  | ret => .ret
  | drop => .drop
  | unreachable => .unreachable
  | block => .block
  | loop => .loop
  | endBlock => .endBlock
  | br => .br
  | brIf => .brIf

end ControlOp

end WasmBackend
