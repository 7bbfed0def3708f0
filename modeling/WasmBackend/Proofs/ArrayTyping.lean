import WasmBackend.Proofs.Typing

/-! # Types of array code

An array operation is typed by the lowered types of references to the class and of its elements
(`arrayType`), in both ways in which a module implements arrays:

* with native types an access parks the operands above the array in scratch locals, loads the
  buffer from the wrapper and reads or writes an element (`hasType_inlineCode`);
* allocation, and without native types every operation, calls a helper with that signature
  (`helper?_cases`). A helper of the host is shared by all element types with the same host type. -/

namespace WasmBackend.Typing

/-! ### Lowered signatures -/

section Lowering

variable {t : TypeRegistry}

theorem lowerAll_cons_eq_ok {ty : OperandType} {rest : List OperandType} {ws : List WasmType} :
    t.lowerAll (ty :: rest) = .ok ws ↔
      ∃ w ws', t.lower ty = .ok w ∧ t.lowerAll rest = .ok ws' ∧ ws = w :: ws' := by
  unfold TypeRegistry.lowerAll
  simp only [List.mapM_cons, bind_eq_ok, pure_eq_ok]
  grind

theorem lowerAll_map_widened (tys : List OperandType) :
    t.lowerAll (tys.map OperandType.widened) = t.lowerAll tys := by
  unfold TypeRegistry.lowerAll
  rw [List.mapM_map]
  congr
  funext ty
  exact t.lower_widened ty

theorem lowerResult_some_eq_ok {ty : OperandType} {result : Option WasmType} :
    t.lowerResult (some ty) = .ok result ↔ ∃ w, t.lower ty = .ok w ∧ result = some w := by
  show (t.lower ty).map some = .ok result ↔ _
  rw [map_eq_ok]
  grind

theorem descriptor_of_lower {ty : OperandType} {w : WasmType} (h : t.lower ty = .ok w) :
    ∃ d, t.descriptor ty = .ok d := by
  cases ty with
  | value ty => exact ⟨_, rfl⟩
  | struct id =>
    obtain ⟨s, hs, -⟩ := map_eq_ok.mp h
    exact ⟨_, map_eq_ok.mpr ⟨s, hs, rfl⟩⟩
  | array id =>
    obtain ⟨a, ha, -⟩ := map_eq_ok.mp h
    exact ⟨_, map_eq_ok.mpr ⟨a, ha, rfl⟩⟩

theorem typeName_of_lower {ty : OperandType} {w : WasmType} (h : t.lower ty = .ok w) :
    ∃ name, t.typeName ty = .ok name := by
  cases ty with
  | value ty => exact ⟨_, rfl⟩
  | struct id =>
    obtain ⟨s, hs, -⟩ := map_eq_ok.mp h
    exact ⟨_, map_eq_ok.mpr ⟨s, hs, rfl⟩⟩
  | array id =>
    obtain ⟨a, ha, -⟩ := map_eq_ok.mp h
    exact ⟨_, map_eq_ok.mpr ⟨a, ha, rfl⟩⟩

theorem descriptors_of_lowerAll {tys : List OperandType} {ws : List WasmType}
    (h : t.lowerAll tys = .ok ws) : ∃ ds, tys.mapM t.descriptor = .ok ds := by
  induction tys generalizing ws with
  | nil => exact ⟨[], rfl⟩
  | cons ty rest ih =>
    obtain ⟨w, ws', hw, hws', -⟩ := lowerAll_cons_eq_ok.mp h
    obtain ⟨d, hd⟩ := descriptor_of_lower hw
    obtain ⟨ds, hds⟩ := ih hws'
    refine ⟨d :: ds, ?_⟩
    simp only [List.mapM_cons, bind_eq_ok, pure_eq_ok]
    exact ⟨d, hd, ds, hds, rfl⟩

/-- The function has a signature in target types. -/
def HasSignature (t : TypeRegistry) (name : FunctionName) (sig : Signature) : Prop :=
  ∃ result, t.lowerAll name.params = .ok sig.params ∧ t.lowerResult name.result = .ok result ∧
    sig.results = result.toList

theorem helperName_of_lower {params : List OperandType} {result : Option OperandType}
    {ws : List WasmType} {w : Option WasmType} (hparams : t.lowerAll params = .ok ws)
    (hresult : t.lowerResult result = .ok w) (className methodName : String) :
    ∃ name, ArrayProfile.helperName t className methodName params result = .ok name ∧
      HasSignature t name ⟨ws, w.toList⟩ := by
  obtain ⟨ds, hds⟩ := descriptors_of_lowerAll hparams
  have hd : ∃ d, t.methodDescriptor params result = .ok d := by
    cases result with
    | none => exact ⟨_, bind_eq_ok.mpr ⟨ds, hds, rfl⟩⟩
    | some ty =>
      obtain ⟨w', hw', -⟩ := lowerResult_some_eq_ok.mp hresult
      obtain ⟨d, hd⟩ := descriptor_of_lower hw'
      exact ⟨_, bind_eq_ok.mpr ⟨ds, hds, bind_eq_ok.mpr ⟨d, hd, rfl⟩⟩⟩
  obtain ⟨d, hd⟩ := hd
  exact ⟨_, map_eq_ok.mpr ⟨d, hd, rfl⟩, w, hparams, hresult, rfl⟩

end Lowering

/-! ### Native arrays -/

section NativeArrays

variable {env : Env} {a : ArrayClass} {native : NativeArray}

theorem unpacked_storageType {t : TypeRegistry} {element : OperandType} {w storage : WasmType}
    (hw : t.lower element = .ok w) (hs : t.storageType element = .ok storage) :
    w = unpacked storage := by
  cases element with
  | value ty =>
    cases hw
    cases hs
    rfl
  | struct id =>
    obtain ⟨s, -, rfl⟩ := map_eq_ok.mp hs
    cases hw.symm.trans hs
    unfold TypeRegistry.classReference
    split_ifs <;> rfl
  | array id =>
    obtain ⟨s, -, rfl⟩ := map_eq_ok.mp hs
    cases hw.symm.trans hs
    unfold TypeRegistry.classReference
    split_ifs <;> rfl

theorem elementLocal_eq (ht : env.types.WellFormed) (ha : a ∈ env.types.arrays)
    (hn : a.native? = some native) : a.elementLocal = unpacked native.storage :=
  unpacked_storageType (ht.elementLocal a ha) (ht.storage a ha native hn)

theorem hasType_scratchSet (n : Nat) (w : WasmType) :
    HasType env [.op (.scratchSet n w)] [w] [] :=
  hasType_singleton fun _ => rfl

theorem hasType_scratchGet (n : Nat) (w : WasmType) :
    HasType env [.op (.scratchGet n w)] [] [w] :=
  hasType_singleton fun _ => rfl

theorem hasType_loadBuffer (ht : env.types.WellFormed) (ha : a ∈ env.types.arrays)
    (hn : a.native? = some native) :
    HasType env [.target a.loadBuffer] [.ref a.typeIndex] [.ref native.typeIndex] := by
  refine hasType_singleton fun _ => ?_
  show env.targetType? (.structGet a.typeIndex ArrayClass.bufferField) (some (.ref a.typeIndex)) = _
  simp [Env.targetType?, ht.typeAt?_wrapper ha hn, ArrayClass.bufferField, unpacked]

theorem readOpcode_cases (op : ArrayOp) (storage : WasmType) :
    (isPacked storage = true ∧
        (op.readOpcode storage = .arrayGetS ∨ op.readOpcode storage = .arrayGetU) ∧
        unpacked storage = .value .i32) ∨
      (isPacked storage = false ∧ op.readOpcode storage = .arrayGet ∧
        unpacked storage = storage) := by
  rcases storage with ty | index
  · cases ty with
    | i8 | i16 => exact Or.inl ⟨rfl, (ite_eq_or_eq _ _ _).symm, rfl⟩
    | u16 | bool => exact Or.inl ⟨rfl, ite_eq_or_eq _ _ _, rfl⟩
    | _ => exact Or.inr ⟨rfl, rfl, rfl⟩
  · exact Or.inr ⟨rfl, rfl, rfl⟩

theorem hasType_read (ht : env.types.WellFormed) (ha : a ∈ env.types.arrays)
    (hn : a.native? = some native) (op : ArrayOp) :
    HasType env [.target (.indexed (op.readOpcode native.storage) native.typeIndex)]
      [.ref native.typeIndex, .value .i32] [a.elementLocal] := by
  refine hasType_singleton fun _ => ?_
  show env.indexedType? (op.readOpcode native.storage) native.typeIndex = _
  rw [elementLocal_eq ht ha hn]
  have hbuffer := ht.typeAt?_buffer ha hn
  rcases readOpcode_cases op native.storage with ⟨hp, hop | hop, hu⟩ | ⟨hp, hop, hu⟩
  · simp [hop, Env.indexedType?, hbuffer, hp, hu]
  · simp [hop, Env.indexedType?, hbuffer, hp, hu]
  · simp [hop, Env.indexedType?, hbuffer, hp, hu]

theorem hasType_write (ht : env.types.WellFormed) (ha : a ∈ env.types.arrays)
    (hn : a.native? = some native) :
    HasType env [.target (.indexed .arraySet native.typeIndex)]
      [.ref native.typeIndex, .value .i32, a.elementLocal] [] := by
  refine hasType_singleton fun _ => ?_
  show env.indexedType? .arraySet native.typeIndex = _
  simp [Env.indexedType?, ht.typeAt?_buffer ha hn, elementLocal_eq ht ha hn]

theorem hasType_length (ht : env.types.WellFormed) (ha : a ∈ env.types.arrays)
    (hn : a.native? = some native) :
    HasType env [.target (.plain .arrayLen)] [.ref native.typeIndex] [.value .i32] := by
  refine hasType_singleton fun _ => ?_
  show env.targetType? (.plain .arrayLen) (some (.ref native.typeIndex)) = _
  simp [Env.targetType?, ht.typeAt?_buffer ha hn]

/-- Operands and results of an array operation, by the types of references, elements and lengths. -/
def arrayType (op : ArrayOp) (reference element : WasmType) : Signature :=
  match op with
  | .new => ⟨[.value .i32], [reference]⟩
  | .newWithDescriptor => ⟨[.value .i32, .value .i32], [reference]⟩
  | .get | .getSigned | .getUnsigned => ⟨[reference, .value .i32], [element]⟩
  | .set => ⟨[reference, .value .i32, element], []⟩
  | .len => ⟨[reference], [.value .i32]⟩

/-- The operation allocates an array. -/
def allocates : ArrayOp → Bool
  | .new | .newWithDescriptor => true
  | _ => false

/-- Inline code keeps the operands above the array in order while it loads the buffer. -/
theorem hasType_inlineCode (ht : env.types.WellFormed) (ha : a ∈ env.types.arrays)
    (hn : a.native? = some native) {op : ArrayOp} (hop : allocates op = false) :
    ∃ ops, op.inlineCode a = .ok ops ∧
      HasType env (ops.map .op) (arrayType op (.ref a.typeIndex) a.elementLocal).params
        (arrayType op (.ref a.typeIndex) a.elementLocal).results := by
  have hnative : a.native = .ok native := by simp [ArrayClass.native, hn]
  have hload := hasType_loadBuffer ht ha hn
  have hget : HasType env
      [.op (.scratchSet 0 (.value .i32)), .target a.loadBuffer, .op (.scratchGet 0 (.value .i32)),
        .target (.indexed (op.readOpcode native.storage) native.typeIndex)]
      [.ref a.typeIndex, .value .i32] [a.elementLocal] :=
    ((hasType_scratchSet 0 _).frame [_]).cons <| hload.cons <|
      ((hasType_scratchGet 0 _).frame [_]).cons <| hasType_read ht ha hn op
  cases op with
  | new => cases hop
  | newWithDescriptor => cases hop
  | get => exact ⟨_, bind_eq_ok.mpr ⟨native, hnative, rfl⟩, hget⟩
  | getSigned => exact ⟨_, bind_eq_ok.mpr ⟨native, hnative, rfl⟩, hget⟩
  | getUnsigned => exact ⟨_, bind_eq_ok.mpr ⟨native, hnative, rfl⟩, hget⟩
  | set =>
    refine ⟨_, bind_eq_ok.mpr ⟨native, hnative, rfl⟩, ?_⟩
    exact ((hasType_scratchSet 1 _).frame [_, _]).cons <| ((hasType_scratchSet 0 _).frame [_]).cons <|
      hload.cons <| ((hasType_scratchGet 0 _).frame [_]).cons <|
      ((hasType_scratchGet 1 _).frame [_, _]).cons <| hasType_write ht ha hn
  | len =>
    exact ⟨_, bind_eq_ok.mpr ⟨native, hnative, rfl⟩, hload.cons (hasType_length ht ha hn)⟩

end NativeArrays

/-! ### Helpers of array operations -/

section Helpers

open ArrayProfile

variable {t : TypeRegistry} {a : ArrayClass}

/-- A generic reference type, which a host helper takes and gives as a host reference. -/
def isGeneric (ty : OperandType) : Bool :=
  ty = .value .funcRef || ty = .value .anyRef || ty = .value .eqRef

theorem lower_eq_hostType (hgc : t.useGc = false) {element : OperandType} {w : WasmType}
    (hw : t.lower element = .ok w) (hne : isGeneric element = false) :
    w = .value element.hostType := by
  cases element with
  | value ty =>
    cases hw
    cases ty with
    | funcRef | anyRef | eqRef => cases hne
    | _ => rfl
  | struct id =>
    obtain ⟨s, -, rfl⟩ := map_eq_ok.mp hw
    simp [TypeRegistry.classReference, hgc, OperandType.hostType]
  | array id =>
    obtain ⟨s, -, rfl⟩ := map_eq_ok.mp hw
    simp [TypeRegistry.classReference, hgc, OperandType.hostType]

theorem lower_hostType (t : TypeRegistry) (element : OperandType) :
    t.lower (.value element.hostType) = .ok (.value element.hostType) := by
  cases element with
  | value ty => cases ty <;> rfl
  | struct id => rfl
  | array id => rfl

theorem lower_operandType (ha : t.arrayClass a.id = .ok a) :
    t.lower a.operandType = .ok (t.classReference a.typeIndex) := by
  unfold ArrayClass.operandType TypeRegistry.lower
  rw [map_eq_ok]
  exact ⟨a, ha, rfl⟩

theorem elementName_of_lower {w : WasmType} (hw : t.lower a.element = .ok w) :
    ∃ name, elementName a t = .ok name := by
  obtain ⟨name, hname⟩ := typeName_of_lower hw
  unfold elementName
  split
  · exact ⟨_, rfl⟩
  · exact ⟨_, map_eq_ok.mpr ⟨name, hname, rfl⟩⟩

theorem allocator_hasSignature (ha : t.arrayClass a.id = .ok a) {params : List OperandType}
    {ws : List WasmType} (hparams : t.lowerAll params = .ok ws) (className methodName : String) :
    ∃ name, helperName t className methodName params a.operandType = .ok name ∧
      HasSignature t name ⟨ws, [t.classReference a.typeIndex]⟩ :=
  helperName_of_lower hparams
    (lowerResult_some_eq_ok.mpr ⟨_, lower_operandType ha, rfl⟩) className methodName

theorem nativeHelper_hasSignature (ha : t.arrayClass a.id = .ok a)
    (hw : t.lower a.element = .ok a.elementLocal) {native : NativeArray}
    (hn : a.native? = some native) {op : ArrayOp} (hop : allocates op = true) :
    ∃ name body, nativeHelper op a t = .ok (some (name, body)) ∧
      HasSignature t name (arrayType op (t.classReference a.typeIndex) a.elementLocal) := by
  have hnative : a.native = .ok native := by simp [ArrayClass.native, hn]
  obtain ⟨element, helement⟩ := elementName_of_lower hw
  cases op with
  | new =>
    have hparams : t.lowerAll [.i32] = .ok [.value .i32] := rfl
    obtain ⟨name, hname, hsig⟩ :=
      allocator_hasSignature ha hparams helperClass ("array_new_" ++ element)
    exact ⟨name, _, bind_eq_ok.mpr ⟨native, hnative, bind_eq_ok.mpr ⟨element, helement,
      bind_eq_ok.mpr ⟨name, hname, rfl⟩⟩⟩, hsig⟩
  | newWithDescriptor =>
    have hparams : t.lowerAll [.i32, .i32] = .ok [.value .i32, .value .i32] := rfl
    obtain ⟨name, hname, hsig⟩ :=
      allocator_hasSignature ha hparams helperClass ("array_new_rtt_" ++ element)
    exact ⟨name, _, bind_eq_ok.mpr ⟨native, hnative, bind_eq_ok.mpr ⟨element, helement,
      bind_eq_ok.mpr ⟨name, hname, rfl⟩⟩⟩, hsig⟩
  | _ => cases hop

theorem nativeHelper_of_access {w : WasmType} (hw : t.lower a.element = .ok w)
    {native : NativeArray} (hn : a.native? = some native) {op : ArrayOp}
    (hop : allocates op = false) : nativeHelper op a t = .ok none := by
  have hnative : a.native = .ok native := by simp [ArrayClass.native, hn]
  obtain ⟨element, helement⟩ := elementName_of_lower hw
  refine bind_eq_ok.mpr ⟨native, hnative, bind_eq_ok.mpr ⟨element, helement, ?_⟩⟩
  cases op with
  | new | newWithDescriptor => cases hop
  | _ => rfl

/-- A host helper takes an array as a host reference and an element in its host type. -/
theorem exists_hostHelper (ha : t.arrayClass a.id = .ok a) {w : WasmType}
    (hw : t.lower a.element = .ok w) (op : ArrayOp) (options : Options) :
    ∃ name body, hostHelper op a t options = .ok (name, body) ∧
      HasSignature t name (arrayType op
        (if allocates op then t.classReference a.typeIndex else .value .externRef)
        (.value a.element.hostType)) := by
  obtain ⟨element, helement⟩ := elementName_of_lower hw
  have hhost := lower_hostType t a.element
  have hget : ∀ method, ∃ name,
      helperName t options.hostModule method [.value .externRef, .i32]
        (some (.value a.element.hostType)) = .ok name ∧
      HasSignature t name ⟨[.value .externRef, .value .i32], [.value a.element.hostType]⟩ :=
    fun method => helperName_of_lower rfl (lowerResult_some_eq_ok.mpr ⟨_, hhost, rfl⟩) _ method
  cases op with
  | new =>
    have hparams : t.lowerAll [.i32] = .ok [.value .i32] := rfl
    obtain ⟨name, hname, hsig⟩ :=
      allocator_hasSignature ha hparams options.hostModule ("array_new_" ++ element)
    exact ⟨name, _, bind_eq_ok.mpr ⟨element, helement, bind_eq_ok.mpr ⟨name, hname, rfl⟩⟩, hsig⟩
  | newWithDescriptor =>
    have hparams : t.lowerAll [.i32, .i32] = .ok [.value .i32, .value .i32] := rfl
    obtain ⟨name, hname, hsig⟩ :=
      allocator_hasSignature ha hparams options.hostModule ("array_new_rtt_" ++ element)
    exact ⟨name, _, bind_eq_ok.mpr ⟨element, helement, bind_eq_ok.mpr ⟨name, hname, rfl⟩⟩, hsig⟩
  | get | getSigned | getUnsigned =>
    obtain ⟨name, hname, hsig⟩ := hget ("array_get_" ++ a.element.hostType.name)
    exact ⟨name, _, bind_eq_ok.mpr ⟨name, hname, rfl⟩, hsig⟩
  | set =>
    have hparams : t.lowerAll [.value .externRef, .i32, .value a.element.hostType] =
        .ok [.value .externRef, .value .i32, .value a.element.hostType] :=
      lowerAll_cons_eq_ok.mpr ⟨_, _, rfl, lowerAll_cons_eq_ok.mpr ⟨_, _, rfl,
        lowerAll_cons_eq_ok.mpr ⟨_, _, hhost, rfl, rfl⟩, rfl⟩, rfl⟩
    have hresult : t.lowerResult none = .ok none := rfl
    obtain ⟨name, hname, hsig⟩ := helperName_of_lower hparams hresult options.hostModule
      ("array_set_" ++ a.element.hostType.name)
    exact ⟨name, _, bind_eq_ok.mpr ⟨name, hname, rfl⟩, hsig⟩
  | len =>
    have hparams : t.lowerAll [.value .externRef] = .ok [.value .externRef] := rfl
    have hresult : t.lowerResult (some .i32) = .ok (some (.value .i32)) := rfl
    obtain ⟨name, hname, hsig⟩ :=
      helperName_of_lower hparams hresult options.hostModule "array_len"
    exact ⟨name, _, bind_eq_ok.mpr ⟨name, hname, rfl⟩, hsig⟩

theorem hostHelper_hasSignature (ha : t.arrayClass a.id = .ok a) (hgc : t.useGc = false)
    (hw : t.lower a.element = .ok a.elementLocal) (hne : isGeneric a.element = false)
    (op : ArrayOp) (options : Options) :
    ∃ name body, hostHelper op a t options = .ok (name, body) ∧
      HasSignature t name (arrayType op (t.classReference a.typeIndex) a.elementLocal) := by
  have href : t.classReference a.typeIndex = .value .externRef := by
    simp [TypeRegistry.classReference, hgc]
  obtain ⟨name, body, hhelper, hsig⟩ := exists_hostHelper ha hw op options
  rw [← lower_eq_hostType hgc hw hne, href, ite_self] at hsig
  exact ⟨name, body, hhelper, href ▸ hsig⟩

/-- An array operation has a helper with its signature, or is an access to a native array. -/
theorem helper?_cases (ht : t.WellFormed) (hmem : a ∈ t.arrays) (ha : t.arrayClass a.id = .ok a)
    {options : Options} (hgc : t.useGc = options.useGc)
    (hne : options.useGc = false → isGeneric a.element = false) (op : ArrayOp) :
    (∃ name body, helper? op a t options = .ok (some (name, body)) ∧
        HasSignature t name (arrayType op (t.classReference a.typeIndex) a.elementLocal)) ∨
      (helper? op a t options = .ok none ∧ allocates op = false ∧ t.useGc = true) := by
  have hw := ht.elementLocal a hmem
  unfold helper?
  cases h : options.useGc with
  | false =>
    obtain ⟨name, body, hname, hsig⟩ :=
      hostHelper_hasSignature ha (hgc.trans h) hw (hne h) op options
    exact Or.inl ⟨name, body, map_eq_ok.mpr ⟨_, hname, rfl⟩, hsig⟩
  | true =>
    have hsome := ht.native_isSome a hmem
    rw [hgc.trans h] at hsome
    obtain ⟨native, hn⟩ := Option.isSome_iff_exists.mp hsome
    cases hop : allocates op with
    | false => exact Or.inr ⟨nativeHelper_of_access hw hn hop, rfl, hgc.trans h⟩
    | true => exact Or.inl (nativeHelper_hasSignature ha hw hn hop)

theorem hasType_hostExtension {env : Env} {element : OperandType} {w : WasmType}
    (hw : env.types.lower element = .ok w) (op : ArrayOp) (reference : WasmType) :
    HasType env ((op.hostExtension element).map .target) (arrayType op reference w).results
      (arrayType op reference w).results := by
  unfold ArrayOp.hostExtension
  split
  · cases hw
    exact fun _ => rfl
  · cases hw
    exact fun _ => rfl
  · cases hw
    exact fun _ => rfl
  · cases hw
    exact fun _ => rfl
  · exact HasType.nil _

end Helpers

end WasmBackend.Typing
