import WasmBackend.Proofs.ArrayElements
import WasmBackend.Proofs.ArrayProgram

/-! # Runs of array operations

What the code of each array operation does to the machine.

* `NativeAt`: a wrapper and its buffer among the native objects; `NativeAt.run_read`,
  `NativeAt.run_write`, `NativeAt.run_len` and `run_allocation_native` run inline code and the
  allocation helper;
* `IsHostHelper`: a function that holds the script of an operation; `call_read`, `call_write`,
  `call_len` and `call_new` run its call on a host array. -/

namespace WasmBackend.Machine

open ArrayProgram ArrayProfile
open Host (BufferKind)

section Steps

variable {types : TypeRegistry} {functions : FunctionRegistry} {stack : List Value}
  {locals : List (Nat × Value)} {scratch : List ((Nat × WasmType) × Value)} {objects : List Object}
  {host : Host.Heap}

theorem run_scratchSet (n : Nat) (w : WasmType) (v : Value) (code : List Emission) :
    run types functions ⟨v :: stack, locals, scratch, objects, host⟩ (.op (.scratchSet n w) :: code) =
      run types functions ⟨stack, locals, ((n, w), v) :: scratch, objects, host⟩ code := rfl

theorem run_scratchGet {n : Nat} {w : WasmType} (v : Value) (h : scratch.lookup (n, w) = some v)
    (code : List Emission) :
    run types functions ⟨stack, locals, scratch, objects, host⟩ (.op (.scratchGet n w) :: code) =
      run types functions ⟨v :: stack, locals, scratch, objects, host⟩ code := by
  simp [run_cons, step, stepCode, h]

theorem run_indexed {s s' : State} {op : Opcode} {index : Nat}
    (h : stepIndexed types s op index = some s') (code : List Emission) :
    run types functions s (.target (.indexed op index) :: code) = run types functions s' code := by
  simp [run_cons, step, stepCode, stepTarget, h]

end Steps

/-! ### Native arrays -/

/-- The wrapper at an address and its buffer with the given elements. -/
structure NativeAt (a : ArrayClass) (native : NativeArray) (objects : List Object)
    (address buffer : Nat) (elements : List Nat) : Prop where
  wrapper : ∃ vtable hash,
    objects[address]? = some (.struct a.typeIndex [vtable, hash, .ref buffer])
  array : objects[buffer]? = some (.array native.typeIndex elements)

section Native

variable {options : Options} {types : TypeRegistry} {functions : FunctionRegistry} {array : Nat}
  {a : ArrayClass} {native : NativeArray} {ty : ValueType} {address buffer : Nat}
  {elements : List Nat} {stack : List Value} {locals : List (Nat × Value)}
  {scratch : List ((Nat × WasmType) × Value)} {objects : List Object} {host : Host.Heap}

theorem NativeAt.set_array (h : NativeAt a native objects address buffer elements)
    (elements' : List Nat) :
    NativeAt a native (objects.set buffer (.array native.typeIndex elements')) address buffer
      elements' := by
  obtain ⟨vtable, hash, hwrapper⟩ := h.wrapper
  obtain ⟨hkept, hwritten⟩ :=
    Host.getElem?_set_of_ne hwrapper h.array (by simp) (.array native.typeIndex elements')
  exact ⟨⟨vtable, hash, hkept⟩, hwritten⟩

theorem NativeAt.run_loadBuffer (h : NativeAt a native objects address buffer elements)
    (code : List Emission) :
    run types functions ⟨.ref address :: stack, locals, scratch, objects, host⟩
        (.op a.loadBuffer :: code) =
      run types functions ⟨.ref buffer :: stack, locals, scratch, objects, host⟩ code := by
  obtain ⟨vtable, hash, hwrapper⟩ := h.wrapper
  simp [run_cons, step, stepCode, ArrayClass.loadBuffer, stepTarget, hwrapper,
    ArrayClass.bufferField]

/-- The types of a native array class. -/
structure NativeTypes (types : TypeRegistry) (a : ArrayClass) (native : NativeArray)
    (ty : ValueType) : Prop where
  storage : native.storage = .value ty
  wrapper : types.typeAt? a.typeIndex =
    some (.wrapper [.value .i32, .value .i32, .ref native.typeIndex])
  buffer : types.typeAt? native.typeIndex = some (.buffer (.value ty))

section Access

variable (hclass : IsNative options types array a native) (htypes : NativeTypes types a native ty)
  (h : NativeAt a native objects address buffer elements)

include htypes h in
theorem NativeAt.arrayAt? {s : State} (hs : s.objects = objects) :
    arrayAt? types s native.typeIndex buffer = some (ty, elements) := by
  simp [Machine.arrayAt?, htypes.buffer, hs, h.array]

include hclass htypes h

theorem NativeAt.run_read {op : ArrayOp} (hop : isRead op = true) {ops : List CodeOp}
    (hops : op.inlineCode a = .ok ops) {i : Int32} {p : Nat} {v : Value}
    (hp : elements[unsigned i]? = some p)
    (hv : unpack (op.readOpcode (.value ty)) ty p = some v) :
    run types functions ⟨.i32 i :: .ref address :: stack, locals, scratch, objects, host⟩
        (ops.map .op) =
      some ⟨v :: stack, locals, ((0, .value .i32), .i32 i) :: scratch, objects, host⟩ := by
  obtain rfl : ops = [.scratchSet 0 (.value .i32), .target a.loadBuffer,
      .scratchGet 0 (.value .i32),
      .target (.indexed (op.readOpcode (.value ty)) native.typeIndex)] := by
    rw [hclass.inlineCode, htypes.storage] at hops
    cases op with
    | get | getSigned | getUnsigned =>
      cases hops
      rfl
    | _ => cases hop
  have hread (scratch : List ((Nat × WasmType) × Value)) :
      stepIndexed types ⟨.i32 i :: .ref buffer :: stack, locals, scratch, objects, host⟩
          (op.readOpcode (.value ty)) native.typeIndex =
        some ⟨v :: stack, locals, scratch, objects, host⟩ := by
    have harray : Machine.arrayAt? types
        ⟨.i32 i :: .ref buffer :: stack, locals, scratch, objects, host⟩ native.typeIndex buffer =
          some (ty, elements) := h.arrayAt? htypes rfl
    rcases Typing.readOpcode_cases op (.value ty) with ⟨-, hread | hread, -⟩ | ⟨-, hread, -⟩
    all_goals
      rw [hread] at hv ⊢
      simp [stepIndexed, harray, hp, hv]
  simp only [List.map_cons, List.map_nil]
  rw [run_scratchSet, h.run_loadBuffer, run_scratchGet (.i32 i) (by simp), run_indexed (hread _)]
  rfl

theorem NativeAt.run_write {ops : List CodeOp} (hops : ArrayOp.set.inlineCode a = .ok ops)
    {i : Int32} {p : Nat} {v : Value} (hi : unsigned i < elements.length)
    (hv : pack ty v = some p) :
    run types functions ⟨v :: .i32 i :: .ref address :: stack, locals, scratch, objects, host⟩
        (ops.map .op) =
      some ⟨stack, locals,
        ((0, .value .i32), .i32 i) :: ((1, a.elementLocal), v) :: scratch,
        objects.set buffer (.array native.typeIndex (elements.set (unsigned i) p)), host⟩ := by
  have hwrite (scratch : List ((Nat × WasmType) × Value)) :
      stepIndexed types ⟨v :: .i32 i :: .ref buffer :: stack, locals, scratch, objects, host⟩
          .arraySet native.typeIndex =
        some ⟨stack, locals, scratch,
          objects.set buffer (.array native.typeIndex (elements.set (unsigned i) p)), host⟩ := by
    have harray : Machine.arrayAt? types
        ⟨v :: .i32 i :: .ref buffer :: stack, locals, scratch, objects, host⟩ native.typeIndex
          buffer = some (ty, elements) := h.arrayAt? htypes rfl
    simp [stepIndexed, harray, hv, hi]
  rw [hclass.inlineCode] at hops
  cases hops
  simp only [List.map_cons, List.map_nil]
  have hother : ((1, a.elementLocal) == (0, WasmType.value .i32)) = false := by simp
  rw [run_scratchSet, run_scratchSet, h.run_loadBuffer, run_scratchGet (.i32 i) (by simp),
    run_scratchGet v (by simp [List.lookup_cons, hother]), run_indexed (hwrite _)]
  rfl

omit htypes in
theorem NativeAt.run_len {ops : List CodeOp} (hops : ArrayOp.len.inlineCode a = .ok ops) :
    run types functions ⟨.ref address :: stack, locals, scratch, objects, host⟩ (ops.map .op) =
      some ⟨.i32 (Int32.ofInt elements.length) :: stack, locals, scratch, objects, host⟩ := by
  rw [hclass.inlineCode] at hops
  cases hops
  simp only [List.map_cons, List.map_nil]
  rw [h.run_loadBuffer]
  simp [run, step, stepCode, stepTarget, stepPlain, h.array]

end Access

/-- An allocation puts a buffer of zeros and its wrapper at the end of the objects. -/
theorem run_allocation_native (htypes : NativeTypes types a native ty) {id : Nat}
    {e : FunctionEntry} (he : functions.get? id = some e) (hparams : e.name.params = [.i32])
    {reference : OperandType} (hresult : e.name.result = some reference) {vtable : Int32}
    (hbody : e.body = some (allocation (.i32Const vtable) a native)) (n : Int32) :
    ∃ objects', call types functions ⟨.i32 n :: stack, locals, scratch, objects, host⟩ id =
        some ⟨.ref (objects.length + 1) :: stack, locals, scratch, objects', host⟩ ∧
      NativeAt a native objects' (objects.length + 1) objects.length
        (List.replicate (unsigned n) 0) := by
  refine ⟨objects ++ [.array native.typeIndex (List.replicate (unsigned n) 0),
    .struct a.typeIndex [.i32 vtable, .i32 0, .ref objects.length]], ?_, ?_, ?_⟩
  · simp [call, he, hbody, hparams, hresult, callBody, allocation, runBody, stepCode, stepTarget,
      stepIndexed, htypes.buffer, htypes.wrapper, State.allocate]
  · exact ⟨.i32 vtable, .i32 0, by simp⟩
  · simp

end Native

/-! ### Host arrays -/

section HostArrays

variable {types : TypeRegistry} {functions : FunctionRegistry} {array vtable id : Nat}
  {ty : ValueType} {kind : BufferKind} {address buffer : Nat} {elements : List Nat}
  {stack : List Value} {locals : List (Nat × Value)} {scratch : List ((Nat × WasmType) × Value)}
  {objects : List Object} {host : Host.Heap}

/-- The function with a number is the host helper of an operation. -/
structure IsHostHelper (functions : FunctionRegistry) (ty : ValueType) (array vtable : Nat)
    (op : ArrayOp) (id : Nat) : Prop where
  entry : ∃ e hostModule, functions.get? id = some e ∧ e.name.params = hostParams ty op ∧
    e.name.result = hostResult ty array op ∧
    e.body = some (.hostScript hostModule (hostText ty vtable op))

theorem IsHostHelper.call_eq {op : ArrayOp} (h : IsHostHelper functions ty array vtable op id)
    {args : List Value} (hcount : (hostParams ty op).length = args.length) {script : Host.Script}
    (hparse : Host.Script.parse (hostText ty vtable op) = some script)
    {hostArgs : List Host.Value} (hargs : args.mapM Value.toHost? = some hostArgs) {v : Host.Value}
    {heap : Host.Heap} (hrun : script.run hostArgs host = some (v, heap)) {stack' : List Value}
    (hstack : stack' = args.reverse ++ stack) :
    call types functions ⟨stack', locals, scratch, objects, host⟩ id =
      returnHost ⟨stack', locals, scratch, objects, host⟩ stack heap v (hostResult ty array op) := by
  obtain ⟨e, hostModule, he, hparams, hresult, hbody⟩ := h.entry
  rw [call_hostScript he hbody hstack (by rw [hparams, hcount]) hparse hargs hrun, hresult]

theorem cast_unsigned {v : Int32} (h : 0 ≤ v.toInt) : ((unsigned v : Nat) : Int) = v.toInt := by
  have := v.toInt_lt
  have hsize : ((Nat.pow 2 32 : Nat) : Int) = 4294967296 := rfl
  rw [unsigned, hsize]
  omega

theorem unsigned_lt (v : Int32) : unsigned v < 2 ^ 53 := by
  have hsize : ((Nat.pow 2 32 : Nat) : Int) = 4294967296 := rfl
  rw [unsigned, hsize]
  omega

theorem IsHostHelper.call_read {op : ArrayOp} (h : IsHostHelper functions ty array vtable op id)
    (hop : isRead op = true) (harray : Host.IsArray host address buffer kind elements) {i : Int32}
    (hi : 0 ≤ i.toInt) {q : Nat} (hq : elements[unsigned i]? = some q) {y : Value}
    (hy : Value.ofHost? (OperandType.hostType (.value ty)) (kind.load q) = some y) :
    call types functions
        ⟨.i32 i :: .host (.object address) :: stack, locals, scratch, objects, host⟩ id =
      some ⟨y :: stack, locals, scratch, objects, host⟩ := by
  have hrun := harray.run_get (unsigned_lt i) hq
  rw [cast_unsigned hi] at hrun
  have hargs : [Value.host (.object address), .i32 i].mapM Value.toHost? =
      some [.object address, .number (F64.ofInt i.toInt)] := rfl
  cases op with
  | get | getSigned | getUnsigned =>
    refine (h.call_eq rfl Host.Script.parse_get hargs hrun rfl).trans ?_
    simp [returnHost, hostResult, hostType_hostType, hy]
  | _ => cases hop

theorem IsHostHelper.call_write (h : IsHostHelper functions ty array vtable .set id)
    (harray : Host.IsArray host address buffer kind elements) {i : Int32} (hi : 0 ≤ i.toInt)
    {v : Value} {w : Host.Value} (hw : v.toHost? = some w) {q : Nat} (hq : kind.store w = some q) :
    call types functions
        ⟨v :: .i32 i :: .host (.object address) :: stack, locals, scratch, objects, host⟩ id =
      some ⟨stack, locals, scratch, objects,
        host.set buffer (.buffer kind (elements.set (unsigned i) q))⟩ := by
  have hrun := harray.run_set (unsigned_lt i) hq
  rw [cast_unsigned hi] at hrun
  have hargs : [Value.host (.object address), .i32 i, v].mapM Value.toHost? =
      some [.object address, .number (F64.ofInt i.toInt), w] := by
    have hobject : (Value.host (.object address)).toHost? = some (.object address) := rfl
    have hindex : (Value.i32 i).toHost? = some (.number (F64.ofInt i.toInt)) := rfl
    simp [hobject, hindex, hw]
  exact h.call_eq rfl Host.Script.parse_set hargs hrun rfl

theorem IsHostHelper.call_len (h : IsHostHelper functions ty array vtable .len id)
    (harray : Host.IsArray host address buffer kind elements) (hlength : elements.length < 2 ^ 53) :
    call types functions ⟨.host (.object address) :: stack, locals, scratch, objects, host⟩ id =
      some ⟨.i32 (Int32.ofInt elements.length) :: stack, locals, scratch, objects, host⟩ := by
  have hargs : [Value.host (.object address)].mapM Value.toHost? = some [.object address] := rfl
  have hword := ofHost?_ofInt (n := (elements.length : Int)) (by simpa using hlength)
  refine (h.call_eq rfl Host.Script.parse_len hargs harray.run_len rfl).trans ?_
  have htype : OperandType.hostType .i32 = .i32 := rfl
  simp [returnHost, hostResult, htype, hword]

theorem IsHostHelper.call_new (h : IsHostHelper functions ty array vtable .new id)
    (hkind : BufferKind.ofType? ty = some kind) {n : Int32} (hn : 0 ≤ n.toInt) :
    ∃ host', call types functions ⟨.i32 n :: stack, locals, scratch, objects, host⟩ id =
        some ⟨.host (.object host.length) :: stack, locals, scratch, objects, host'⟩ ∧
      Host.IsArray host' host.length (host.length + 1) kind (List.replicate (unsigned n) 0) := by
  obtain ⟨host', hrun, harray⟩ := Host.run_allocation vtable kind (unsigned_lt n) host
  rw [cast_unsigned hn] at hrun
  have hargs : [Value.i32 n].mapM Value.toHost? = some [.number (F64.ofInt n.toInt)] := rfl
  refine ⟨host', ?_, harray⟩
  exact h.call_eq rfl (Host.Script.parse_new vtable hkind) hargs hrun rfl

end HostArrays

end WasmBackend.Machine
