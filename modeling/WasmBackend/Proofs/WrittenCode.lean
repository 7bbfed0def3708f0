import WasmBackend.Proofs.BinaryWriter
import WasmBackend.Proofs.BodyDecoding

/-! # Binary functions decode to what was written

Scratch locals are numbered after parameters and declared locals, in the order of first use, and a
callee by its index in the finished module (`Emission.resolved?`). A function that was written by a
binary writer, one emission after the other and among other functions, decodes to its locals and its
resolved code once the module is finished (`decodeFunction_of_written`). -/

namespace WasmBackend

/-! ### Resolved code -/

namespace Emission

/-- The instruction that an emission stands for, where the scratch locals are numbered from `base`
on. -/
def resolved? (base : Nat) (scratch : List (Nat × WasmType)) (registry : FunctionRegistry) :
    Emission → Option TargetOp
  | .op (.target instr) => some instr
  | .op (.scratchSet n ty) =>
    (scratch.idxOf? (n, ty)).map fun place => .indexed .localSet (base + place)
  | .op (.scratchGet n ty) =>
    (scratch.idxOf? (n, ty)).map fun place => .indexed .localGet (base + place)
  | .call _ callee _ => (registry.indexOf? callee).map (.indexed .call)

/-- Instructions have the immediates that their opcode prescribes, and scratch locals can be
declared. -/
def WellShaped : Emission → Prop
  | .op (.target instr) => instr.WellShaped
  | .op (.scratchSet _ ty) | .op (.scratchGet _ ty) => ty.IsLocal
  | .call _ _ _ => True

end Emission

theorem encode_place {base : Nat} {scratch : List (Nat × WasmType)} {registry : FunctionRegistry}
    {e : Emission} {bytes : List UInt8} (hscratch : ∀ key, e.scratch? = some key → key ∈ scratch)
    (h : (e.place fun key => base + scratch.idxOf key).encode (.ofRegistry registry) = .ok bytes) :
    ∃ instr, e.resolved? base scratch registry = some instr ∧ bytes = instr.encode := by
  rcases e with op | ⟨name, callee, viewedAs⟩
  · cases op with
    | target instr =>
      cases h
      exact ⟨instr, rfl, rfl⟩
    | scratchSet n ty =>
      cases h
      obtain ⟨hplace, -⟩ := idxOf?_of_mem (hscratch (n, ty) rfl)
      exact ⟨_, by simp [Emission.resolved?, hplace], rfl⟩
    | scratchGet n ty =>
      cases h
      obtain ⟨hplace, -⟩ := idxOf?_of_mem (hscratch (n, ty) rfl)
      exact ⟨_, by simp [Emission.resolved?, hplace], rfl⟩
  · obtain ⟨index, hindex, rfl⟩ := map_eq_ok.mp h
    exact ⟨_, by simp [Emission.resolved?, FunctionRegistry.get_ofRegistry.mp hindex], rfl⟩

/-- A resolved emission has the immediates of its opcode. -/
theorem wellShaped_of_resolved? {base : Nat} {scratch : List (Nat × WasmType)}
    {registry : FunctionRegistry} {e : Emission} {instr : TargetOp} (he : e.WellShaped)
    (hbase : base + scratch.length ≤ 0x100000000) (hcount : registry.count ≤ 0x100000000)
    (h : e.resolved? base scratch registry = some instr) : instr.WellShaped := by
  rcases e with op | ⟨name, callee, viewedAs⟩
  · cases op with
    | target instr' =>
      cases h
      exact he
    | scratchSet n ty =>
      obtain ⟨place, hplace, rfl⟩ := Option.map_eq_some_iff.mp h
      obtain ⟨hlt, -⟩ := List.idxOf?_eq_some_iff.mp hplace
      exact ⟨rfl, by simpa using by omega⟩
    | scratchGet n ty =>
      obtain ⟨place, hplace, rfl⟩ := Option.map_eq_some_iff.mp h
      obtain ⟨hlt, -⟩ := List.idxOf?_eq_some_iff.mp hplace
      exact ⟨rfl, by simpa using by omega⟩
  · obtain ⟨index, hindex, rfl⟩ := Option.map_eq_some_iff.mp h
    have hlt := FunctionRegistry.indexOf?_lt hindex
    exact ⟨rfl, by simpa using by omega⟩

/-- Code is encoded as the instructions it stands for. -/
theorem encodeAll_place {base : Nat} {scratch : List (Nat × WasmType)}
    {registry : FunctionRegistry} {code : List Emission} {encoded : List (List UInt8)}
    (hscratch : ∀ e ∈ code, ∀ key, e.scratch? = some key → key ∈ scratch)
    (h : (code.map (Emission.place fun key => base + scratch.idxOf key)).mapM
      (BodyOp.encode (.ofRegistry registry)) = .ok encoded) :
    ∃ ops, code.mapM (Emission.resolved? base scratch registry) = some ops ∧
      encoded.flatten = ops.flatMap TargetOp.encode ∧
      ∀ instr ∈ ops, ∃ e ∈ code, e.resolved? base scratch registry = some instr := by
  induction code generalizing encoded with
  | nil =>
    cases h
    exact ⟨[], rfl, rfl, by simp⟩
  | cons e rest ih =>
    simp only [List.map_cons, List.mapM_cons, bind_eq_ok, pure_eq_ok] at h
    obtain ⟨bytes, hbytes, others, hothers, rfl⟩ := h
    obtain ⟨instr, hinstr, rfl⟩ := encode_place (hscratch e List.mem_cons_self) hbytes
    obtain ⟨ops, hops, hflatten, hfrom⟩ :=
      ih (fun e' he' => hscratch e' (List.mem_cons_of_mem _ he')) hothers
    refine ⟨instr :: ops, ?_, ?_, ?_⟩
    · simp [List.mapM_cons, hinstr, hops]
    · simp [hflatten]
    · intro i hi
      rcases List.mem_cons.mp hi with rfl | hrest
      · exact ⟨e, List.mem_cons_self, hinstr⟩
      · obtain ⟨e', he', hresolved⟩ := hfrom i hrest
        exact ⟨e', List.mem_cons_of_mem _ he', hresolved⟩

/-! ### Finished functions -/

/-- The types of the locals of a function with some code: declared ones, then scratch locals. -/
def localTypes (locals : List WasmType) (code : List Emission) : List WasmType :=
  locals ++ (scratchLocals code).map Prod.snd

theorem isLocal_of_mem_localTypes {locals : List WasmType} {code : List Emission}
    (hlocals : ∀ ty ∈ locals, ty.IsLocal) (hcode : ∀ e ∈ code, e.WellShaped) {ty : WasmType}
    (h : ty ∈ localTypes locals code) : ty.IsLocal := by
  rcases List.mem_append.mp h with hdeclared | hscratch
  · exact hlocals ty hdeclared
  · obtain ⟨⟨n, ty⟩, hkey, rfl⟩ := List.mem_map.mp hscratch
    obtain ⟨e, he, huse⟩ := List.mem_filterMap.mp (List.mem_eraseDups.mp hkey)
    have hshape := hcode e he
    unfold Emission.scratch? at huse
    split at huse
    · cases huse
      exact hshape
    · cases huse
      exact hshape
    · cases huse

/-- What a finished function has of its draft; `ops` is the code that the draft stands for. -/
structure FunctionDraft.Finishes (f : FunctionDraft) (registry : FunctionRegistry)
    (e : EncodedFunction) (ops : List TargetOp) : Prop where
  id : e.id = f.id
  index : registry.indexOf? f.id = some e.index
  name : e.name = f.name
  params : e.params = f.params
  result : e.result = f.result
  code : f.body.mapM (Emission.resolved? f.scratchBase (scratchLocals f.body) registry) = some ops
  /-- Every instruction comes from an emission. -/
  origin : ∀ instr ∈ ops, ∃ e ∈ f.body,
    e.resolved? f.scratchBase (scratchLocals f.body) registry = some instr
  bytes : e.bytes = functionBytes (localTypes f.locals f.body) ops

theorem FunctionDraft.encode_eq_ok {f : FunctionDraft} {registry : FunctionRegistry}
    {e : EncodedFunction} (h : f.encode (.ofRegistry registry) = .ok e) :
    ∃ ops, f.Finishes registry e ops := by
  obtain ⟨body, hbody, h⟩ := bind_eq_ok.mp h
  obtain ⟨index, hindex, h⟩ := bind_eq_ok.mp h
  cases h
  obtain ⟨_, hcode, hbody⟩ := map_eq_ok.mp hbody
  obtain ⟨encoded, hencoded, rfl⟩ := map_eq_ok.mp hcode
  have hdeclared : f.declared = localTypes f.locals f.body := by
    rw [FunctionDraft.declared, scratch_eq, localTypes]
  unfold FunctionDraft.code at hencoded
  rw [scratch_eq] at hencoded
  obtain ⟨ops, hops, hflatten, hfrom⟩ :=
    encodeAll_place (fun e he key hkey => mem_scratchLocals he hkey) hencoded
  rw [hdeclared, hflatten] at hbody
  subst hbody
  exact ⟨ops, rfl, FunctionRegistry.get_ofRegistry.mp hindex, rfl, rfl, rfl, hops, hfrom, rfl⟩

/-- **A finished function decodes to its draft.** -/
theorem FunctionDraft.Finishes.decodeFunction {f : FunctionDraft} {registry : FunctionRegistry}
    {e : EncodedFunction} {ops : List TargetOp} (h : f.Finishes registry e ops)
    (hlocals : ∀ ty ∈ f.locals, ty.IsLocal) (hcode : ∀ e ∈ f.body, e.WellShaped)
    (hcount : registry.count ≤ 0x100000000)
    (hindices : f.params.length + (localTypes f.locals f.body).length < 0x100000000)
    (hsize : e.bytes.length < 0x100000000) :
    decodeFunction e.bytes = some { locals := localTypes f.locals f.body, code := ops } := by
  have hshaped : ∀ instr ∈ ops, instr.WellShaped := by
    intro instr hinstr
    obtain ⟨e, he, hresolved⟩ := h.origin instr hinstr
    have hbase : f.scratchBase + (scratchLocals f.body).length ≤ 0x100000000 := by
      simp only [localTypes, List.length_append, List.length_map] at hindices
      unfold FunctionDraft.scratchBase
      omega
    exact wellShaped_of_resolved? (hcode e he) hbase hcount hresolved
  rw [h.bytes] at hsize ⊢
  exact decodeFunction_functionBytes (by omega)
    (fun ty hty => isLocal_of_mem_localTypes hlocals hcode hty) hshaped hsize

/-- **A binary function decodes to what was written.** Its code is encoded while it is written, and
the indices of its callees are put in when the module is finished. -/
theorem decodeFunction_of_written {w w₁ w₂ w₃ w' : BinaryWriter} {f : OpenFunction}
    {code : List Emission} (later : List BinaryWriter.Call) {registry : FunctionRegistry}
    (hbegin : w.beginFunction f = .ok w₁) (hwrite : code.foldlM BinaryWriter.write w₁ = .ok w₂)
    (hend : w₂.endFunction = .ok w₃) (hlater : ∀ c ∈ later, ∀ r, c ≠ .finish r)
    (hfinish : (BinaryWriter.runWith BinaryWriter.serve w₃ later).2.finish registry = (.ok (), w'))
    (hlocals : ∀ ty ∈ f.locals, ty.IsLocal) (hcode : ∀ e ∈ code, e.WellShaped)
    (hcount : registry.count ≤ 0x100000000)
    (hindices : f.params.length + (localTypes f.locals code).length < 0x100000000)
    (hsize : ∀ e ∈ w'.functions, e.id = f.id → e.bytes.length < 0x100000000) :
    ∃ e ∈ w'.functions, e.id = f.id ∧ registry.indexOf? f.id = some e.index ∧ e.name = f.name ∧
      e.params = f.params ∧ e.result = f.result ∧ ∃ ops,
      code.mapM (Emission.resolved? (f.params.length + f.locals.length) (scratchLocals code)
        registry) = some ops ∧
      decodeFunction e.bytes = some { locals := localTypes f.locals code, code := ops } := by
  have hbuffered := BinaryWriter.buffered_subset_run w₃ hlater
    (BinaryWriter.mem_buffered_of_written hbegin hwrite hend)
  obtain ⟨e, he, hresolve⟩ := BinaryWriter.resolve_of_mem_buffered hfinish hbuffered
  rw [FunctionDraft.resolve_buffer] at hresolve
  obtain ⟨ops, hfinishes⟩ := FunctionDraft.encode_eq_ok hresolve
  exact ⟨e, he, hfinishes.id, hfinishes.index, hfinishes.name, hfinishes.params,
    hfinishes.result, ops, hfinishes.code,
    hfinishes.decodeFunction hlocals hcode hcount hindices (hsize e he hfinishes.id)⟩

/-- The registry of a module with an import and a function that calls it. -/
def callingRegistry : FunctionRegistry :=
  let imported : FunctionName :=
    { className := "host", methodName := "log", signature := "(I)V", params := [.i32], result := none }
  let caller : FunctionName := { imported with className := "Main", methodName := "run" }
  (({} : FunctionRegistry).mark caller false).2.mark imported true |>.2

/-- A function with a parameter and a declared local. -/
def callingFunction : OpenFunction where
  id := 0
  name := "Main.run"
  params := [.value .i32]
  result := none
  locals := [.value .i64]

/-- Code that keeps its parameter in a scratch local for a call of the import. -/
def callingCode : List Emission :=
  [.target (.indexed .localGet 0), .op (.scratchSet 0 (.value .i32)),
    .op (.scratchGet 0 (.value .i32)),
    .call { className := "host", methodName := "log", signature := "(I)V", params := [.i32]
            result := none } 1 none]

/-- The function while it is open, when all its code has been written: the call has no index, and the
offset where it goes is recorded. -/
def callingWriter : BinaryWriter where
  current := some callingFunction
  code := { bytes := [0x20, 0, 0x21, 2, 0x20, 2, 0x10], calls := [(7, 1)] }
  scratch := { base := 2, keys := [(0, .value .i32)] }

/-- The finished function. -/
def callingBytes : EncodedFunction where
  id := 0
  index := 1
  name := "Main.run"
  params := [.value .i32]
  result := none
  bytes := [14, 2, 1, 0x7E, 1, 0x7F, 0x20, 0, 0x21, 2, 0x20, 2, 0x10, 0, 0x0B]

/-- The scratch local follows the parameter and the declared local, and the import comes first in
the index space, although it was registered last. -/
theorem decodeFunction_callingCode :
    ∃ w₁ w₂ w', ({} : BinaryWriter).beginFunction callingFunction = .ok w₁ ∧
      callingCode.foldlM BinaryWriter.write w₁ = .ok callingWriter ∧
      callingWriter.endFunction = .ok w₂ ∧ w₂.finish callingRegistry = (.ok (), w') ∧
      w'.functions = [callingBytes] ∧ ∃ e ∈ w'.functions,
        decodeFunction e.bytes =
          some { locals := [.value .i64, .value .i32]
                 code := [.indexed .localGet 0, .indexed .localSet 2, .indexed .localGet 2,
                   .indexed .call 0] } := by
  let w₁ : BinaryWriter := { current := some callingFunction, scratch := { base := 2 } }
  let w₂ : BinaryWriter :=
    { callingWriter with
      buffered := [callingFunction.close callingWriter.code callingWriter.scratch]
      current := none, code := {} }
  let w' : BinaryWriter :=
    { w₂ with buffered := [], functions := [callingBytes], importCount := 1 }
  have hbegin : ({} : BinaryWriter).beginFunction callingFunction = .ok w₁ := rfl
  have hwrite : callingCode.foldlM BinaryWriter.write w₁ = .ok callingWriter := by decide +kernel
  have hend : callingWriter.endFunction = .ok w₂ := rfl
  have hfinish : w₂.finish callingRegistry = (.ok (), w') := by decide +kernel
  have hcode : ∀ e ∈ callingCode, e.WellShaped := by
    simp [callingCode, Emission.WellShaped, TargetOp.WellShaped, WasmType.IsLocal,
      ValueType.isSubWord]
  obtain ⟨e, he, -, -, -, -, -, ops, hops, hdecode⟩ :=
    decodeFunction_of_written [] hbegin hwrite hend (by simp) hfinish
      (by simp [callingFunction, WasmType.IsLocal, ValueType.isSubWord]) hcode (by decide)
      (by decide +kernel) (by simp [w', callingBytes])
  cases hops
  exact ⟨w₁, w₂, w', hbegin, hwrite, hend, hfinish, rfl, e, he, hdecode⟩

end WasmBackend
