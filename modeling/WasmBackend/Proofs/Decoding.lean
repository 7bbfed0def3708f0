import WasmBackend.Proofs.Immediates
import WasmBackend.Proofs.Reader

/-! # Decoding target code

A decoder for instructions and types of locals, built on the reading operations. It knows an
instruction by its opcode, which prescribes the shape of what follows it.

A decoder *recovers* a value from its bytes if it gives the value back wherever the bytes stand. What
decoders recover one after the other, they recover together (`Recovers.bind`), so that no encoding
can be mistaken for the start of another one. -/

namespace WasmBackend

/-- A computation that reads bytes one after the other; there is no result if they are malformed. -/
abbrev Decoder (α : Type) : Type := StateT ByteReader Option α

namespace Decoder

variable {α β : Type}

/-- The decoder that makes one reading operation. -/
def ofRead (read : ByteReader → Except DecodeError α × ByteReader) : Decoder α := fun r =>
  match read r with
  | (.ok a, next) => some (a, next)
  | (.error _, _) => none

/-- Wherever the bytes stand, the decoder gives `a` and stops behind them. -/
def Recovers (d : Decoder α) (bytes : List UInt8) (a : α) : Prop :=
  ∀ pre post, d.run ⟨pre ++ bytes ++ post, pre.length⟩ =
    some (a, ⟨pre ++ bytes ++ post, pre.length + bytes.length⟩)

/-- The decoder gives `a` from bytes with which the input ends. -/
def RecoversLast (d : Decoder α) (bytes : List UInt8) (a : α) : Prop :=
  ∀ pre, d.run ⟨pre ++ bytes, pre.length⟩ = some (a, ⟨pre ++ bytes, (pre ++ bytes).length⟩)

theorem recovers_ofRead {read : ByteReader → Except DecodeError α × ByteReader}
    {bytes : List UInt8} {a : α} (h : ByteReader.Recovers read bytes a) :
    Recovers (ofRead read) bytes a := by
  intro pre post
  show ofRead read _ = _
  unfold ofRead
  rw [h pre post]

theorem recovers_pure (a : α) : Recovers (pure a) [] a := by
  intro pre post
  rfl

theorem run_bind_of_eq {d : Decoder α} {f : α → Decoder β} {r next : ByteReader} {a : α}
    (h : d.run r = some (a, next)) : (d >>= f).run r = (f a).run next := by
  rw [StateT.run_bind, h]
  rfl

/-- Encodings that stand one after the other are recovered one after the other. -/
theorem Recovers.bind {d : Decoder α} {f : α → Decoder β} {bytes bytes' : List UInt8} {a : α}
    {b : β} (h : Recovers d bytes a) (h' : Recovers (f a) bytes' b) :
    Recovers (d >>= f) (bytes ++ bytes') b := by
  intro pre post
  have hfirst := h pre (bytes' ++ post)
  have hsecond := h' (pre ++ bytes) post
  simp only [List.append_assoc, List.length_append] at hfirst hsecond ⊢
  rw [run_bind_of_eq hfirst, hsecond, Nat.add_assoc]

theorem Recovers.bindLast {d : Decoder α} {f : α → Decoder β} {bytes bytes' : List UInt8} {a : α}
    {b : β} (h : Recovers d bytes a) (h' : RecoversLast (f a) bytes' b) :
    RecoversLast (d >>= f) (bytes ++ bytes') b := by
  intro pre
  have hfirst := h pre bytes'
  have hsecond := h' (pre ++ bytes)
  simp only [List.append_assoc, List.length_append] at hfirst hsecond ⊢
  rw [run_bind_of_eq hfirst, hsecond]

theorem Recovers.map {d : Decoder α} {bytes : List UInt8} {a : α} (h : Recovers d bytes a)
    (g : α → β) : Recovers (do return g (← d)) bytes (g a) := by
  have hbind := h.bind (f := fun x => pure (g x)) (recovers_pure (g a))
  rwa [List.append_nil] at hbind

theorem RecoversLast.map {d : Decoder α} {bytes : List UInt8} {a : α} (h : RecoversLast d bytes a)
    (g : α → β) : RecoversLast (do return g (← d)) bytes (g a) := by
  intro pre
  exact run_bind_of_eq (h pre)

/-! ### Sequences -/

/-- Decodes a given number of items. -/
def times (d : Decoder α) : (count : Nat) → Decoder (List α)
  | 0 => return []
  | count + 1 => do
    let a ← d
    let rest ← times d count
    return a :: rest

theorem recovers_times {d : Decoder α} {encode : α → List UInt8} {items : List α}
    (h : ∀ a ∈ items, Recovers d (encode a) a) :
    Recovers (times d items.length) (items.flatMap encode) items := by
  induction items with
  | nil => exact recovers_pure []
  | cons a rest ih =>
    have hrest := ih fun b hb => h b (List.mem_cons_of_mem a hb)
    exact (h a List.mem_cons_self).bind (hrest.map (a :: ·))

end Decoder

/-! ### Instructions -/

/-- The type is not packed, and its index is a word. -/
def WasmType.IsLocal : WasmType → Prop
  | .value ty => ty.isSubWord = false
  | .ref index => index < 0x100000000

namespace Decoder

/-- Decodes an index. -/
def readIndex : Decoder Nat := do return (← ofRead ByteReader.readVaruint).toNat

/-- Decodes what follows an opcode. -/
def readImmediates (op : Opcode) : Decoder TargetOp :=
  match op.immediates with
  | .nothing => return .plain op
  | .int32 => do return .i32Const (← ofRead ByteReader.readVarint).toInt32
  | .int64 => do return .i64Const (← ofRead ByteReader.readVarint)
  | .float32 => do return .f32Const ⟨← ofRead ByteReader.readWord32⟩
  | .float64 => do return .f64Const ⟨← ofRead ByteReader.readWord64⟩
  | .index => do return .indexed op (← readIndex)
  | .field => do
    let typeIndex ← readIndex
    let field ← readIndex
    return .structGet typeIndex field
  | .blockType => do
    let byte ← ofRead ByteReader.readByte
    if byte = emptyBlockType then return .block op else failure

/-- Decodes an instruction. -/
def readOp : Decoder TargetOp := do
  let op ← ofRead ByteReader.readOpcode
  readImmediates op

theorem recovers_readIndex {n : Nat} (hn : n < 0x100000000) :
    Recovers readIndex (Leb128.encodeNat n) n := by
  have h := (recovers_ofRead (ByteReader.recovers_readVaruint hn)).map UInt32.toNat
  have htoNat : (UInt32.ofNat n).toNat = n := by
    rw [UInt32.toNat_ofNat']
    omega
  rw [htoNat] at h
  exact h

theorem recovers_readInt32 (v : Int32) :
    Recovers (do return TargetOp.i32Const (← ofRead ByteReader.readVarint).toInt32)
      (Leb128.encodeInt v.toInt) (.i32Const v) := by
  have h := (recovers_ofRead (ByteReader.recovers_readVarint v.toInt64)).map
    fun w => TargetOp.i32Const w.toInt32
  rw [Int32.toInt_toInt64, Int32.toInt32_toInt64] at h
  exact h

theorem recovers_readOp_append {op : Opcode} {bytes : List UInt8} {instr : TargetOp}
    (h : Recovers (readImmediates op) bytes instr) : Recovers readOp (op.encode ++ bytes) instr :=
  (recovers_ofRead (ByteReader.recovers_readOpcode op)).bind h

/-- **An instruction is recovered from its bytes.** -/
theorem recovers_readOp {instr : TargetOp} (h : instr.WellShaped) :
    Recovers readOp instr.encode instr := by
  cases instr with
  | plain op =>
    have himm : Recovers (readImmediates op) [] (.plain op) := by
      unfold readImmediates
      rw [of_decide_eq_true h.1]
      exact recovers_pure _
    have hop := recovers_readOp_append himm
    rwa [List.append_nil] at hop
  | i32Const v => exact recovers_readOp_append (recovers_readInt32 v)
  | i64Const v =>
    have hword := recovers_ofRead (ByteReader.recovers_readVarint v)
    exact recovers_readOp_append (hword.map TargetOp.i64Const)
  | f32Const v =>
    have hword := recovers_ofRead (ByteReader.recovers_readWord32 v.bits)
    exact recovers_readOp_append (hword.map fun w => TargetOp.f32Const ⟨w⟩)
  | f64Const v =>
    have hword := recovers_ofRead (ByteReader.recovers_readWord64 v.bits)
    exact recovers_readOp_append (hword.map fun w => TargetOp.f64Const ⟨w⟩)
  | indexed op index =>
    obtain ⟨hop, hindex⟩ := h
    have hindex := hindex index List.mem_cons_self
    have himm : Recovers (readImmediates op) (Leb128.encodeNat index) (.indexed op index) := by
      unfold readImmediates
      rw [of_decide_eq_true hop]
      exact (recovers_readIndex hindex).map (TargetOp.indexed op)
    exact recovers_readOp_append himm
  | structGet typeIndex field =>
    have htype := h.2 typeIndex List.mem_cons_self
    have hfield := h.2 field (List.mem_cons_of_mem _ List.mem_cons_self)
    have himm : Recovers (readImmediates .structGet)
        (Leb128.encodeNat typeIndex ++ Leb128.encodeNat field) (.structGet typeIndex field) :=
      (recovers_readIndex htype).bind
        ((recovers_readIndex hfield).map (TargetOp.structGet typeIndex))
    have hop := recovers_readOp_append himm
    rwa [← List.append_assoc] at hop
  | block op =>
    have himm : Recovers (readImmediates op) [emptyBlockType] (.block op) := by
      unfold readImmediates
      rw [of_decide_eq_true h.1]
      have hbyte := recovers_ofRead (ByteReader.recovers_readByte emptyBlockType)
      exact hbyte.bind (recovers_pure (TargetOp.block op))
    exact recovers_readOp_append himm

/-! ### Types of locals -/

/-- The value types that a local can have, by their code. -/
def localValueType? (code : UInt8) : Option ValueType :=
  ValueType.all.find? fun ty => !ty.isSubWord && ty.code = code

/-- The reference type with a decoded index. -/
def refType? (index : Int64) : Option WasmType :=
  if 0 ≤ index.toInt then some (.ref index.toInt.toNat) else none

/-- Decodes the rest of a type after its first byte. -/
def readTypeFrom (byte : UInt8) : Decoder WasmType :=
  if byte = nullableRef then do
    let index ← ofRead ByteReader.readVarint
    StateT.lift (refType? index)
  else StateT.lift ((localValueType? byte).map WasmType.value)

/-- Decodes the type of a local. -/
def readType : Decoder WasmType := do
  let byte ← ofRead ByteReader.readByte
  readTypeFrom byte

theorem localValueType?_code {ty : ValueType} (h : ty.isSubWord = false) :
    localValueType? ty.code = some ty ∧ ty.code ≠ nullableRef := by
  cases ty with
  | i8 | i16 | u16 | bool => cases h
  | _ => decide

theorem recovers_lift {answer : Option α} {a : α} (h : answer = some a) :
    Recovers (StateT.lift answer) [] a := by
  intro pre post
  rw [h]
  rfl

theorem toInt_ofInt_of_lt {n : Nat} (h : n < 0x100000000) : (Int64.ofInt n).toInt = n := by
  have hsize : ((Int64.size : Nat) : Int) = 0x10000000000000000 := rfl
  rw [Int64.toInt_ofInt]
  exact Int.bmod_eq_of_le (by omega) (by omega)

theorem recovers_readTypeFrom_ref {index : Nat} (h : index < 0x100000000) :
    Recovers (readTypeFrom nullableRef) (Leb128.encodeInt index) (.ref index) := by
  have hindex := toInt_ofInt_of_lt h
  have hword := recovers_ofRead (ByteReader.recovers_readVarint (Int64.ofInt index))
  have href : refType? (Int64.ofInt index) = some (.ref index) := by
    simp [refType?, hindex]
  have hread := hword.bind (f := fun w => StateT.lift (refType? w)) (recovers_lift href)
  rw [hindex, List.append_nil] at hread
  exact hread

theorem recovers_readTypeFrom_value {ty : ValueType} (h : ty.isSubWord = false) :
    Recovers (readTypeFrom ty.code) [] (.value ty) := by
  obtain ⟨hty, hne⟩ := localValueType?_code h
  unfold readTypeFrom
  rw [if_neg hne, hty]
  exact recovers_lift rfl

theorem recovers_readType {ty : WasmType} (h : ty.IsLocal) : Recovers readType ty.encode ty := by
  cases ty with
  | value ty =>
    have hbyte := recovers_ofRead (ByteReader.recovers_readByte ty.code)
    exact hbyte.bind (recovers_readTypeFrom_value h)
  | ref index =>
    have hbyte := recovers_ofRead (ByteReader.recovers_readByte nullableRef)
    exact hbyte.bind (recovers_readTypeFrom_ref h)

end Decoder

end WasmBackend
