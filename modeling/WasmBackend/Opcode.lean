/-! # Opcodes of the target

The part of the target's instruction set that generated code uses. Most opcodes are one byte. The
struct and array instructions stand behind the lead byte `0xFB` and the saturating truncations
behind `0xFC`, each followed by a sub-opcode of its own. Lead byte and code together determine the
opcode: `decode?_lead_code`. -/

namespace WasmBackend

/-- Instructions of the target, without their immediates. -/
inductive Opcode
  -- control, calls and `drop`
  | unreachable | nop | block | loop | endBlock | br | brIf | ret | call | drop
  -- locals
  | localGet | localSet | localTee
  -- constants
  | i32Const | i64Const | f32Const | f64Const
  -- comparisons
  | i32Eqz | i32Eq | i32Ne | i32LtS | i32GtS | i32LeS | i32GeS | i64Eqz | i64Eq | i64Ne | i64LtS
  | i64GtS | i64LeS | i64GeS | f32Eq | f32Ne | f32Lt | f32Gt | f32Le | f32Ge | f64Eq | f64Ne
  | f64Lt | f64Gt | f64Le | f64Ge
  -- arithmetic
  | i32Add | i32Sub | i32Mul | i32DivS | i32RemS | i32And | i32Or | i32Xor | i32Shl | i32ShrS
  | i32ShrU | i64Add | i64Sub | i64Mul | i64DivS | i64RemS | i64And | i64Or | i64Xor | i64Shl
  | i64ShrS | i64ShrU | f32Neg | f32Add | f32Sub | f32Mul | f32Div | f64Neg | f64Add | f64Sub
  | f64Mul | f64Div
  -- conversions
  | i32WrapI64 | i64ExtendI32S | f32ConvertI32S | f32ConvertI64S | f32DemoteF64 | f64ConvertI32S
  | f64ConvertI64S | f64PromoteF32 | i32Extend8S | i32Extend16S
  -- saturating truncations
  | i32TruncSatF32S | i32TruncSatF64S | i64TruncSatF32S | i64TruncSatF64S
  -- structs and arrays
  | structNew | structGet | arrayNewDefault | arrayGet | arrayGetS | arrayGetU | arraySet
  | arrayLen
  deriving DecidableEq

namespace Opcode

/-- Lead byte of the struct and array instructions. -/
def gcLead : UInt8 := 0xFB

/-- Lead byte of the saturating truncations. -/
def saturatingLead : UInt8 := 0xFC

/-- Every opcode, in declaration order. -/
def all : List Opcode :=
  [unreachable, nop, block, loop, endBlock, br, brIf, ret, call, drop, localGet, localSet,
   localTee, i32Const, i64Const, f32Const, f64Const, i32Eqz, i32Eq, i32Ne, i32LtS, i32GtS,
   i32LeS, i32GeS, i64Eqz, i64Eq, i64Ne, i64LtS, i64GtS, i64LeS, i64GeS, f32Eq, f32Ne, f32Lt,
   f32Gt, f32Le, f32Ge, f64Eq, f64Ne, f64Lt, f64Gt, f64Le, f64Ge, i32Add, i32Sub, i32Mul,
   i32DivS, i32RemS, i32And, i32Or, i32Xor, i32Shl, i32ShrS, i32ShrU, i64Add, i64Sub, i64Mul,
   i64DivS, i64RemS, i64And, i64Or, i64Xor, i64Shl, i64ShrS, i64ShrU, f32Neg, f32Add, f32Sub,
   f32Mul, f32Div, f64Neg, f64Add, f64Sub, f64Mul, f64Div, i32WrapI64, i64ExtendI32S,
   f32ConvertI32S, f32ConvertI64S, f32DemoteF64, f64ConvertI32S, f64ConvertI64S, f64PromoteF32,
   i32Extend8S, i32Extend16S, i32TruncSatF32S, i32TruncSatF64S, i64TruncSatF32S, i64TruncSatF64S,
   structNew, structGet, arrayNewDefault, arrayGet, arrayGetS, arrayGetU, arraySet, arrayLen]

/-- Lead byte, if the opcode is not a single byte. -/
def lead : Opcode → Option UInt8
  | i32TruncSatF32S | i32TruncSatF64S | i64TruncSatF32S | i64TruncSatF64S =>
    some saturatingLead
  | structNew | structGet | arrayNewDefault | arrayGet |
    arrayGetS | arrayGetU | arraySet | arrayLen => some gcLead
  | _ => none

/-- The opcode byte, or the sub-opcode behind a lead byte. -/
def code : Opcode → UInt8
  | unreachable => 0x00
  | nop => 0x01
  | block => 0x02
  | loop => 0x03
  | endBlock => 0x0B
  | br => 0x0C
  | brIf => 0x0D
  | ret => 0x0F
  | call => 0x10
  | drop => 0x1A
  | localGet => 0x20
  | localSet => 0x21
  | localTee => 0x22
  | i32Const => 0x41
  | i64Const => 0x42
  | f32Const => 0x43
  | f64Const => 0x44
  | i32Eqz => 0x45
  | i32Eq => 0x46
  | i32Ne => 0x47
  | i32LtS => 0x48
  | i32GtS => 0x4A
  | i32LeS => 0x4C
  | i32GeS => 0x4E
  | i64Eqz => 0x50
  | i64Eq => 0x51
  | i64Ne => 0x52
  | i64LtS => 0x53
  | i64GtS => 0x55
  | i64LeS => 0x57
  | i64GeS => 0x59
  | f32Eq => 0x5B
  | f32Ne => 0x5C
  | f32Lt => 0x5D
  | f32Gt => 0x5E
  | f32Le => 0x5F
  | f32Ge => 0x60
  | f64Eq => 0x61
  | f64Ne => 0x62
  | f64Lt => 0x63
  | f64Gt => 0x64
  | f64Le => 0x65
  | f64Ge => 0x66
  | i32Add => 0x6A
  | i32Sub => 0x6B
  | i32Mul => 0x6C
  | i32DivS => 0x6D
  | i32RemS => 0x6F
  | i32And => 0x71
  | i32Or => 0x72
  | i32Xor => 0x73
  | i32Shl => 0x74
  | i32ShrS => 0x75
  | i32ShrU => 0x76
  | i64Add => 0x7C
  | i64Sub => 0x7D
  | i64Mul => 0x7E
  | i64DivS => 0x7F
  | i64RemS => 0x81
  | i64And => 0x83
  | i64Or => 0x84
  | i64Xor => 0x85
  | i64Shl => 0x86
  | i64ShrS => 0x87
  | i64ShrU => 0x88
  | f32Neg => 0x8C
  | f32Add => 0x92
  | f32Sub => 0x93
  | f32Mul => 0x94
  | f32Div => 0x95
  | f64Neg => 0x9A
  | f64Add => 0xA0
  | f64Sub => 0xA1
  | f64Mul => 0xA2
  | f64Div => 0xA3
  | i32WrapI64 => 0xA7
  | i64ExtendI32S => 0xAC
  | f32ConvertI32S => 0xB2
  | f32ConvertI64S => 0xB4
  | f32DemoteF64 => 0xB6
  | f64ConvertI32S => 0xB7
  | f64ConvertI64S => 0xB9
  | f64PromoteF32 => 0xBB
  | i32Extend8S => 0xC0
  | i32Extend16S => 0xC1
  | i32TruncSatF32S => 0x00
  | i32TruncSatF64S => 0x02
  | i64TruncSatF32S => 0x04
  | i64TruncSatF64S => 0x06
  | structNew => 0x00
  | structGet => 0x02
  | arrayNewDefault => 0x07
  | arrayGet => 0x0B
  | arrayGetS => 0x0C
  | arrayGetU => 0x0D
  | arraySet => 0x0E
  | arrayLen => 0x0F

/-- Mnemonic in the text format. -/
def name : Opcode → String
  | unreachable => "unreachable"
  | nop => "nop"
  | block => "block"
  | loop => "loop"
  | endBlock => "end"
  | br => "br"
  | brIf => "br_if"
  | ret => "return"
  | call => "call"
  | drop => "drop"
  | localGet => "local.get"
  | localSet => "local.set"
  | localTee => "local.tee"
  | i32Const => "i32.const"
  | i64Const => "i64.const"
  | f32Const => "f32.const"
  | f64Const => "f64.const"
  | i32Eqz => "i32.eqz"
  | i32Eq => "i32.eq"
  | i32Ne => "i32.ne"
  | i32LtS => "i32.lt_s"
  | i32GtS => "i32.gt_s"
  | i32LeS => "i32.le_s"
  | i32GeS => "i32.ge_s"
  | i64Eqz => "i64.eqz"
  | i64Eq => "i64.eq"
  | i64Ne => "i64.ne"
  | i64LtS => "i64.lt_s"
  | i64GtS => "i64.gt_s"
  | i64LeS => "i64.le_s"
  | i64GeS => "i64.ge_s"
  | f32Eq => "f32.eq"
  | f32Ne => "f32.ne"
  | f32Lt => "f32.lt"
  | f32Gt => "f32.gt"
  | f32Le => "f32.le"
  | f32Ge => "f32.ge"
  | f64Eq => "f64.eq"
  | f64Ne => "f64.ne"
  | f64Lt => "f64.lt"
  | f64Gt => "f64.gt"
  | f64Le => "f64.le"
  | f64Ge => "f64.ge"
  | i32Add => "i32.add"
  | i32Sub => "i32.sub"
  | i32Mul => "i32.mul"
  | i32DivS => "i32.div_s"
  | i32RemS => "i32.rem_s"
  | i32And => "i32.and"
  | i32Or => "i32.or"
  | i32Xor => "i32.xor"
  | i32Shl => "i32.shl"
  | i32ShrS => "i32.shr_s"
  | i32ShrU => "i32.shr_u"
  | i64Add => "i64.add"
  | i64Sub => "i64.sub"
  | i64Mul => "i64.mul"
  | i64DivS => "i64.div_s"
  | i64RemS => "i64.rem_s"
  | i64And => "i64.and"
  | i64Or => "i64.or"
  | i64Xor => "i64.xor"
  | i64Shl => "i64.shl"
  | i64ShrS => "i64.shr_s"
  | i64ShrU => "i64.shr_u"
  | f32Neg => "f32.neg"
  | f32Add => "f32.add"
  | f32Sub => "f32.sub"
  | f32Mul => "f32.mul"
  | f32Div => "f32.div"
  | f64Neg => "f64.neg"
  | f64Add => "f64.add"
  | f64Sub => "f64.sub"
  | f64Mul => "f64.mul"
  | f64Div => "f64.div"
  | i32WrapI64 => "i32.wrap_i64"
  | i64ExtendI32S => "i64.extend_i32_s"
  | f32ConvertI32S => "f32.convert_i32_s"
  | f32ConvertI64S => "f32.convert_i64_s"
  | f32DemoteF64 => "f32.demote_f64"
  | f64ConvertI32S => "f64.convert_i32_s"
  | f64ConvertI64S => "f64.convert_i64_s"
  | f64PromoteF32 => "f64.promote_f32"
  | i32Extend8S => "i32.extend8_s"
  | i32Extend16S => "i32.extend16_s"
  | i32TruncSatF32S => "i32.trunc_sat_f32_s"
  | i32TruncSatF64S => "i32.trunc_sat_f64_s"
  | i64TruncSatF32S => "i64.trunc_sat_f32_s"
  | i64TruncSatF64S => "i64.trunc_sat_f64_s"
  | structNew => "struct.new"
  | structGet => "struct.get"
  | arrayNewDefault => "array.new_default"
  | arrayGet => "array.get"
  | arrayGetS => "array.get_s"
  | arrayGetU => "array.get_u"
  | arraySet => "array.set"
  | arrayLen => "array.len"

/-- The opcode with a given lead byte and code. -/
def decode? (lead : Option UInt8) (code : UInt8) : Option Opcode :=
  all.find? fun op => op.lead = lead && op.code = code

/-- Control never reaches the next instruction. -/
def isTerminator : Opcode → Bool
  | unreachable | br | ret => true
  | _ => false

/-- The instruction opens a block that `end` closes. -/
def opensBlock : Opcode → Bool
  | block | loop => true
  | _ => false

theorem mem_all (op : Opcode) : op ∈ all := by
  cases op <;> decide

/-- **Lead byte and code determine the opcode.** -/
theorem decode?_lead_code (op : Opcode) : decode? op.lead op.code = some op := by
  cases op <;> decide

end Opcode

end WasmBackend
