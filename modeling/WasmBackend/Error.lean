import WasmBackend.Binary.Error
import WasmBackend.CodePosition
import WasmBackend.Conversion
import WasmBackend.OperandType
import WasmBackend.Operator
import WasmBackend.Text.Quoted

/-! # Compilation errors

An error is a cause with what is needed to describe it; `CompileError.message` is its text. A broken
promise between two parts of the compiler is a `Fault`, reported as an internal error. Errors that
can arise away from an instruction have an optional position, which `CompileError.located` fills in. -/

namespace WasmBackend

/-- Broken promises between parts of the compiler. -/
inductive Fault
  | unknownStruct (id : Nat)
  | unknownArray (id : Nat)
  | unknownFunction (id : Nat)
  /-- Inline array code was asked of an array class without a native type. -/
  | noNativeArray (name : String)
  /-- A parameter was added after a local. -/
  | lateParameter (slot : Nat)
  | unresolvedSlot (slot : Nat)
  | stringIdRange (id : Nat)
  | dropWithoutOperand
  /-- The constant is not of the operand type. -/
  | conversionOperand (conversion : Conversion) (value : Literal)
  | literalType (value : Literal) (ty : ValueType)
  | noNumericCode (op : NumericOp) (ty : ValueType)
  | noInlineForm (op : ArrayOp)
  /-- A function was started while another one, described by `current`, was being written. -/
  | functionOpen (name current : String)
  | noOpenFunction
  | endWithoutBegin
  /-- A module was finished while a function, perhaps named here, was being written. -/
  | finishedWhileOpen (name : Option String)
  | writtenTwice (name : String)
  | notFinished
  | missingBody (index : Nat)
  | finalizedTwice
  | dataOffsetRange (offset : Nat)
  | tableOffsetRange (offset : Nat)
  | endWithoutBlock
  | blocksNotClosed (count : Nat) (function : String)
  | other (text : String)
  deriving DecidableEq

namespace Fault

/-- Text of the fault. -/
def message : Fault → String
  | unknownStruct id => s!"Unknown struct type {id}"
  | unknownArray id => s!"Unknown array type {id}"
  | unknownFunction id => s!"Unknown function fn{id}"
  | noNativeArray name => s!"No native array type for {name}"
  | lateParameter slot => s!"Parameter in slot {slot} registered after locals were allocated"
  | unresolvedSlot slot => s!"Source slot {slot} was not resolved"
  | stringIdRange id => s!"String id {id} exceeds i32"
  | dropWithoutOperand => "DROP without an operand type"
  | conversionOperand conversion value =>
    s!"Conversion {conversion.name} cannot be applied to {value.type.name} value {value.text}"
  | literalType value ty => s!"Constant {value.text} is not a {ty.name}"
  | noNumericCode op ty => s!"No lowering of {op.name} for {ty.name}"
  | noInlineForm op => s!"No lowering of {op.name} for inline native arrays"
  | functionOpen name current => s!"Function {name} started while {current} is still open"
  | noOpenFunction => "No function is being written"
  | endWithoutBegin => "end_function without begin_function"
  | finishedWhileOpen none => "Module finished while a function is open"
  | finishedWhileOpen (some name) => s!"Module finished while {name} is still open"
  | writtenTwice name => s!"Function {name} written twice"
  | notFinished => "Code section encoded before the module was finished"
  | missingBody index => s!"Function index {index} has no body"
  | finalizedTwice => "String pool finalized twice"
  | dataOffsetRange offset => s!"Data offset {offset} exceeds 32 bits"
  | tableOffsetRange offset => s!"String table offset {offset} exceeds i32"
  | endWithoutBlock => "END without an open block"
  | blocksNotClosed count function => s!"{count} block(s) not closed in {function}"
  | other text => text

end Fault

/-- Families of operators that not every operand type admits. -/
inductive OperatorFamily
  | numeric
  | block
  deriving DecidableEq

namespace OperatorFamily

def name : OperatorFamily → String
  | numeric => "numeric"
  | block => "block"

end OperatorFamily

/-- The part of a function whose stack is out of balance. -/
inductive StackScope
  | function (name : String)
  /-- The block of a function that the `END` at a position closes. -/
  | block (function : String) (position : CodePosition)
  deriving DecidableEq

namespace StackScope

def text : StackScope → String
  | function name => name
  | block owner position => s!"{owner} block closed at {position.text}"

end StackScope

/-- Why compilation fails. -/
inductive CompileError
  | internal (fault : Fault) (position : Option CodePosition)
  | unknownOperator (operator : String) (family : OperatorFamily) (position : Option CodePosition)
  | encoding (cause : EncodeError)
  | unsupportedConstant (typeName : String) (position : Option CodePosition)
  | stackUnderflow (function : String) (position : CodePosition)
  /-- The absence of a type stands for no value. -/
  | stackTypeMismatch (function : String) (position : CodePosition)
      (expected found : Option OperandType)
  | stackNotBalanced (scope : StackScope) (expected found : List OperandType)
  | unknownLocal (index : Nat)
  | poolFinalized (value : String)
  /-- The options document is malformed or names an unknown option. -/
  | config
  deriving DecidableEq

namespace CompileError

/-- A fault without a position. -/
abbrev ofFault (fault : Fault) : CompileError := .internal fault none

/-- Gives a position to an error that can have one and has none yet. -/
def located (position : CodePosition) : CompileError → CompileError
  | internal fault none => .internal fault (some position)
  | unknownOperator operator family none => .unknownOperator operator family (some position)
  | unsupportedConstant typeName none => .unsupportedConstant typeName (some position)
  | e => e

/-- The end of a message that says where the error is, if that is known. -/
def placeText : Option CodePosition → String
  | some position => s!" at {position.text}"
  | none => ""

/-- Name of a type, or of the absence of a value. -/
def typeText : Option OperandType → String
  | some ty => ty.name
  | none => "void"

/-- Names of the types on a stack, bottom to top. -/
def stackText (types : List OperandType) : String :=
  ", ".intercalate (types.map OperandType.name)

/-- Text of the error. -/
def message : CompileError → String
  | internal fault position =>
    s!"Internal compiler error: {fault.message}" ++ placeText position
  | unknownOperator operator family position =>
    s!"Unknown operator {operator} for {family.name}" ++ placeText position
  | encoding cause => s!"Encoding error: {cause.message}"
  | unsupportedConstant typeName position =>
    s!"Not supported constant type: {typeName}" ++ placeText position
  | stackUnderflow function position => s!"Stack underflow in {function} at {position.text}"
  | stackTypeMismatch function position expected found =>
    s!"Stack type mismatch in {function} at {position.text}: expected {typeText expected}, " ++
      s!"found {typeText found}"
  | stackNotBalanced scope expected found =>
    s!"Stack not balanced at end of {scope.text}: expected [{stackText expected}], " ++
      s!"found [{stackText found}]"
  | unknownLocal index => s!"Unknown local variable index {index}"
  | poolFinalized value =>
    s!"String pool already finalized, cannot register {Text.quote value}"
  | config => "Invalid compiler options"

end CompileError

namespace Conversion

/-- The conversion of a constant. -/
def fold (c : Conversion) (v : Literal) : Except CompileError Literal :=
  match c.fold? v with
  | some w => .ok w
  | none => .error (.ofFault (.conversionOperand c v))

end Conversion

namespace BoxedNumber

/-- The literal of the same type and value. -/
def toLiteral (n : BoxedNumber) (position : CodePosition) : Except CompileError Literal :=
  match n.toLiteral? with
  | some v => .ok v
  | none => .error (.unsupportedConstant n.typeName (some position))

end BoxedNumber

end WasmBackend
