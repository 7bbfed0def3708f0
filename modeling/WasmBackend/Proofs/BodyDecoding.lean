import WasmBackend.Proofs.BinaryModule
import WasmBackend.Proofs.Decoding
import WasmBackend.Proofs.FunctionRegistry

/-! # Decoding function bodies

A finished function can be decoded: its size is the number of bytes behind it, its groups of locals
expand to the declared locals and the scratch locals, its code is what was written, and it stops with
`end` at the last byte. -/

namespace WasmBackend

/-! ### Groups of locals -/

/-- The types of locals that are declared in groups. -/
def expand (groups : List (Nat × WasmType)) : List WasmType :=
  groups.flatMap fun (count, ty) => List.replicate count ty

theorem expand_runLengths (types : List WasmType) : expand (runLengths types) = types := by
  induction types with
  | nil => rfl
  | cons ty rest ih =>
    unfold runLengths
    split
    · next count first groups hrest =>
      rw [hrest] at ih
      split_ifs with hty
      · subst hty
        rw [← ih]
        simp [expand, List.replicate_succ]
      · rw [← ih]
        simp [expand]
    · next hrest =>
      rw [hrest] at ih
      rw [← ih]
      rfl

theorem length_runLengths_le (types : List WasmType) :
    (runLengths types).length ≤ types.length := by
  induction types with
  | nil => simp [runLengths]
  | cons ty rest ih =>
    unfold runLengths
    split
    · next hrest =>
      rw [hrest] at ih
      split_ifs <;> simp at ih ⊢ <;> omega
    · simp

/-- A group is no longer than all declarations, and declares one of their types. -/
theorem mem_runLengths {types : List WasmType} {group : Nat × WasmType}
    (h : group ∈ runLengths types) : group.1 ≤ types.length ∧ group.2 ∈ types := by
  induction types generalizing group with
  | nil => cases h
  | cons ty rest ih =>
    have hlater : ∀ g ∈ runLengths rest, g.1 ≤ (ty :: rest).length ∧ g.2 ∈ ty :: rest := by
      intro g hg
      obtain ⟨hcount, hmem⟩ := ih hg
      exact ⟨Nat.le_succ_of_le hcount, List.mem_cons_of_mem _ hmem⟩
    unfold runLengths at h
    split at h
    · next count first groups hrest =>
      obtain ⟨hcount, hfirst⟩ := ih (hrest ▸ List.mem_cons_self : (count, first) ∈ runLengths rest)
      split_ifs at h with hty
      · rcases List.mem_cons.mp h with rfl | hgroup
        · exact ⟨Nat.succ_le_succ hcount, List.mem_cons_of_mem _ hfirst⟩
        · exact hlater group (hrest ▸ List.mem_cons_of_mem _ hgroup)
      · rcases List.mem_cons.mp h with rfl | hgroup
        · exact ⟨by simp, List.mem_cons_self⟩
        · exact hlater group (hrest ▸ hgroup)
    · obtain rfl := List.mem_singleton.mp h
      exact ⟨by simp, List.mem_cons_self⟩

namespace Decoder

/-- Decodes a group of locals of one type. -/
def readGroup : Decoder (Nat × WasmType) := do
  let count ← readIndex
  let ty ← readType
  return (count, ty)

/-- Decodes the declarations of locals. -/
def readLocals : Decoder (List WasmType) := do
  let count ← readIndex
  let groups ← times readGroup count
  return expand groups

theorem recovers_readGroup {count : Nat} {ty : WasmType} (hcount : count < 0x100000000)
    (hty : ty.IsLocal) :
    Recovers readGroup (Leb128.encodeNat count ++ ty.encode) (count, ty) :=
  (recovers_readIndex hcount).bind ((recovers_readType hty).map (Prod.mk count))

theorem recovers_readLocals {types : List WasmType} (hcount : types.length < 0x100000000)
    (htypes : ∀ ty ∈ types, ty.IsLocal) :
    Recovers readLocals (encodeLocals types) types := by
  have hgroups : Recovers (times readGroup (runLengths types).length)
      ((runLengths types).flatMap fun (count, ty) => Leb128.encodeNat count ++ ty.encode)
      (runLengths types) := by
    refine recovers_times fun group hgroup => ?_
    obtain ⟨hlength, hmem⟩ := mem_runLengths hgroup
    exact recovers_readGroup (by omega) (htypes _ hmem)
  have hexpand := hgroups.map expand
  rw [expand_runLengths] at hexpand
  have hlength := length_runLengths_le types
  exact (recovers_readIndex (by omega)).bind hexpand

/-! ### Code -/

/-- Decodes instructions up to the end of the bytes. An instruction takes a byte or more, so that
the number of bytes limits their number. -/
def readOps : (limit : Nat) → Decoder (List TargetOp)
  | 0 => return []
  | limit + 1 => do
    if (← get).hasMore then
      let instr ← readOp
      let rest ← readOps limit
      return instr :: rest
    else return []

theorem run_readOps_succ (limit : Nat) (r : ByteReader) :
    (readOps (limit + 1)).run r =
      if r.hasMore then
        (do
          let instr ← readOp
          let rest ← readOps limit
          return instr :: rest : Decoder (List TargetOp)).run r
      else some ([], r) := by
  cases h : r.hasMore <;> simp [readOps, h]

theorem opcode_encode_ne_nil (op : Opcode) : op.encode ≠ [] := by
  unfold Opcode.encode
  split <;> simp

theorem encode_ne_nil (instr : TargetOp) : instr.encode ≠ [] := by
  cases instr <;> simp [TargetOp.encode, opcode_encode_ne_nil]

/-- Instructions are recovered up to the end of the bytes. -/
theorem recoversLast_readOps {ops : List TargetOp} (h : ∀ instr ∈ ops, instr.WellShaped)
    {limit : Nat} (hlimit : ops.length ≤ limit) :
    RecoversLast (readOps limit) (ops.flatMap TargetOp.encode) ops := by
  induction ops generalizing limit with
  | nil =>
    intro pre
    cases limit with
    | zero => simp [readOps]
    | succ limit =>
      rw [run_readOps_succ, if_neg (by simp [ByteReader.hasMore])]
      simp
  | cons instr rest ih =>
    obtain ⟨limit, rfl⟩ : ∃ l, limit = l + 1 := ⟨limit - 1, by simp at hlimit; omega⟩
    have hrest : RecoversLast (readOps limit) (rest.flatMap TargetOp.encode) rest :=
      ih (fun i hi => h i (List.mem_cons_of_mem _ hi)) (by simpa using hlimit)
    have hread : RecoversLast (do
          let instr ← readOp
          let rest ← readOps limit
          return instr :: rest) (instr.encode ++ rest.flatMap TargetOp.encode) (instr :: rest) :=
      (recovers_readOp (h instr List.mem_cons_self)).bindLast (hrest.map (instr :: ·))
    intro pre
    have hpos : 0 < instr.encode.length := List.length_pos_of_ne_nil (encode_ne_nil instr)
    rw [run_readOps_succ, if_pos (by simp [ByteReader.hasMore]; omega)]
    exact hread pre

/-! ### Functions -/

end Decoder

/-- What a function body declares and executes. -/
structure DecodedFunction where
  locals : List WasmType
  code : List TargetOp
  deriving DecidableEq

namespace Decoder

/-- The code before the `end` of a body. -/
def bodyCode? (ops : List TargetOp) : Option (List TargetOp) :=
  if ops.getLast? = some (.plain .endBlock) then some ops.dropLast else none

/-- Decodes all instructions that are left. -/
def readRest : Decoder (List TargetOp) := do readOps (← get).remaining

/-- Decodes code and its `end` up to the end of the bytes. -/
def readCode : Decoder (List TargetOp) := do StateT.lift (bodyCode? (← readRest))

/-- Decodes a body up to the end of the bytes. -/
def readBody : Decoder DecodedFunction := do
  let locals ← readLocals
  let code ← readCode
  return { locals, code }

/-- Decodes a body if its size is the number of bytes that are left. -/
def readSized (size : Nat) : Decoder DecodedFunction := do
  if size = (← get).remaining then readBody else failure

/-- Decodes a body with its size in front. -/
def readFunction : Decoder DecodedFunction := do
  let size ← readIndex
  readSized size

theorem length_le_length_flatMap (ops : List TargetOp) :
    ops.length ≤ (ops.flatMap TargetOp.encode).length := by
  induction ops with
  | nil => simp
  | cons instr rest ih =>
    have hpos : 0 < instr.encode.length := List.length_pos_of_ne_nil (encode_ne_nil instr)
    simp only [List.length_cons, List.flatMap_cons, List.length_append]
    omega

theorem bodyCode?_append (ops : List TargetOp) :
    bodyCode? (ops ++ [.plain .endBlock]) = some ops := by
  simp [bodyCode?]

theorem recoversLast_readRest {ops : List TargetOp} (h : ∀ instr ∈ ops, instr.WellShaped) :
    RecoversLast readRest (ops.flatMap TargetOp.encode) ops := by
  intro pre
  have hremaining : ByteReader.remaining ⟨pre ++ ops.flatMap TargetOp.encode, pre.length⟩ =
      (ops.flatMap TargetOp.encode).length := by
    simp [ByteReader.remaining]
  show (readOps (ByteReader.remaining ⟨pre ++ ops.flatMap TargetOp.encode, pre.length⟩)).run _ = _
  rw [hremaining]
  exact recoversLast_readOps h (length_le_length_flatMap ops) pre

theorem recoversLast_readCode {ops : List TargetOp} (h : ∀ instr ∈ ops, instr.WellShaped) :
    RecoversLast readCode (ops.flatMap TargetOp.encode ++ Opcode.endBlock.encode) ops := by
  have hbytes : ops.flatMap TargetOp.encode ++ Opcode.endBlock.encode =
      (ops ++ [TargetOp.plain .endBlock]).flatMap TargetOp.encode := by
    simp [TargetOp.encode]
  have hshaped : ∀ instr ∈ ops ++ [TargetOp.plain .endBlock], instr.WellShaped := by
    intro instr hinstr
    rcases List.mem_append.mp hinstr with hold | hlast
    · exact h instr hold
    · obtain rfl := List.mem_singleton.mp hlast
      exact ⟨rfl, by simp⟩
  rw [hbytes]
  intro pre
  refine (run_bind_of_eq (recoversLast_readRest hshaped pre)).trans ?_
  rw [bodyCode?_append]
  rfl

theorem recoversLast_readBody {types : List WasmType} {ops : List TargetOp}
    (hcount : types.length < 0x100000000) (htypes : ∀ ty ∈ types, ty.IsLocal)
    (hops : ∀ instr ∈ ops, instr.WellShaped) :
    RecoversLast readBody
      (encodeLocals types ++ (ops.flatMap TargetOp.encode ++ Opcode.endBlock.encode))
      { locals := types, code := ops } :=
  (recovers_readLocals hcount htypes).bindLast
    ((recoversLast_readCode hops).map (DecodedFunction.mk types))

theorem recoversLast_readFunction {body : List UInt8} {f : DecodedFunction}
    (hsize : body.length < 0x100000000) (hbody : RecoversLast readBody body f) :
    RecoversLast readFunction (Leb128.encodeNat body.length ++ body) f := by
  have hsized : RecoversLast (readSized body.length) body f := by
    intro pre
    have hremaining : body.length = ByteReader.remaining ⟨pre ++ body, pre.length⟩ := by
      simp [ByteReader.remaining]
    show (if body.length = ByteReader.remaining ⟨pre ++ body, pre.length⟩ then readBody
      else failure).run _ = _
    rw [if_pos hremaining]
    exact hbody pre
  exact (recovers_readIndex hsize).bindLast hsized

end Decoder

/-- The function with the given bytes, of which none is left over. -/
def decodeFunction (bytes : List UInt8) : Option DecodedFunction :=
  match Decoder.readFunction.run ⟨bytes, 0⟩ with
  | some (f, r) => if r.hasMore then none else some f
  | none => none

/-- The body of a function with the given locals and code. -/
def functionBody (locals : List WasmType) (ops : List TargetOp) : List UInt8 :=
  encodeLocals locals ++ ops.flatMap TargetOp.encode ++ Opcode.endBlock.encode

/-- The bytes of a function: the size of its body and its body. -/
def functionBytes (locals : List WasmType) (ops : List TargetOp) : List UInt8 :=
  Leb128.encodeNat (functionBody locals ops).length ++ functionBody locals ops

/-- **A function is decoded from its size, locals, code and `end`.** -/
theorem decodeFunction_functionBytes {locals : List WasmType} {ops : List TargetOp}
    (hcount : locals.length < 0x100000000) (hlocals : ∀ ty ∈ locals, ty.IsLocal)
    (hops : ∀ instr ∈ ops, instr.WellShaped)
    (hsize : (functionBytes locals ops).length < 0x100000000) :
    decodeFunction (functionBytes locals ops) = some { locals, code := ops } := by
  have hlength : (functionBody locals ops).length < 0x100000000 := by
    rw [functionBytes, List.length_append] at hsize
    omega
  have hread := Decoder.recoversLast_readBody hcount hlocals hops
  rw [← List.append_assoc] at hread
  have hrun := Decoder.recoversLast_readFunction hlength hread []
  unfold decodeFunction functionBytes
  simp only [List.nil_append, List.length_nil] at hrun
  rw [hrun]
  simp [ByteReader.hasMore]

end WasmBackend
