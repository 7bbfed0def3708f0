import WasmBackend.Proofs.CompiledFunction
import WasmBackend.Proofs.EmissionTyping

/-! # Programs on one array

A *program* allocates an array, keeps it in a local and then accesses it any number of times. This
module says what code a program has, in either profile.

* `bodyCode_append`: once the registry holds all functions of a body, every part of the body has its
  code in that registry;
* `Linked`: the functions of a program are the helpers of its array class, each with its own body;
* `arrayCode_of_linked`: so a call in a program reaches the body that its operation asks for. -/

namespace WasmBackend.ArrayProgram

open ArrayProfile

/-! ### Programs -/

/-- An access to an array. -/
inductive Access
  | set (index : Int32) (v : Literal)
  /-- A read, plain or with an extension. -/
  | read (op : ArrayOp) (index : Int32)
  | len
  deriving DecidableEq

/-- The operation of an access. -/
def Access.op : Access → ArrayOp
  | set _ _ => .set
  | read op _ => op
  | len => .len

/-- The operands of an access above the array. -/
def Access.operands : Access → List Literal
  | set index v => [.i32 index, v]
  | read _ index => [.i32 index]
  | len => []

section Programs

variable (position : CodePosition) (ty : ValueType) (array : Nat)

/-- An operation on the array class. -/
def operation (op : ArrayOp) : Instruction := ⟨position, .array op (.value ty) array⟩

/-- The instructions of an access to the array in the first local. -/
def Access.body (access : Access) : List Instruction :=
  .ofLocal .get 0 position :: access.operands.map (⟨position, .const ·⟩) ++
    [operation position ty array access.op]

/-- A program: an array of the given length is allocated and then accessed. -/
def program (length : Int32) (accesses : List Access) : List Instruction :=
  [⟨position, .const (.i32 length)⟩, operation position ty array .new, .ofLocal .set 0 position] ++
    accesses.flatMap (Access.body position ty array)

end Programs

/-! ### Code in the final registry -/

section Code

variable {options : Options} {types : TypeRegistry} {functions final : FunctionRegistry}
  {code : List Emission}

theorem bodyCode_cons_final {i : Instruction} {rest : List Instruction}
    (h : bodyCode options types functions (i :: rest) = some (code, final)) :
    ∃ first more, i.code options types final = (.ok first, final) ∧
      bodyCode options types final rest = some (more, final) ∧ code = first ++ more := by
  obtain ⟨first, next, more, hfirst, hmore, rfl⟩ := bodyCode_cons.mp h
  have hagain := (generates_code hfirst).again final (extends_bodyCode hmore)
  exact ⟨first, more, hagain, bodyCode_again hmore (.refl _), rfl⟩

/-- **Every part of a body has its code in the final registry.** -/
theorem bodyCode_append {front back : List Instruction}
    (h : bodyCode options types functions (front ++ back) = some (code, final)) :
    ∃ first more, bodyCode options types final front = some (first, final) ∧
      bodyCode options types final back = some (more, final) ∧ code = first ++ more := by
  induction front generalizing functions code with
  | nil => exact ⟨[], code, rfl, bodyCode_again h (.refl _), rfl⟩
  | cons i front ih =>
    obtain ⟨first, more, hfirst, hmore, rfl⟩ := bodyCode_cons_final h
    obtain ⟨inner, outer, hinner, houter, rfl⟩ := ih hmore
    refine ⟨first ++ inner, outer, ?_, houter, (List.append_assoc _ _ _).symm⟩
    exact bodyCode_cons.mpr ⟨first, final, inner, hfirst, hinner, rfl⟩

theorem bodyCode_constants (position : CodePosition) (vs : List Literal) :
    bodyCode options types final (vs.map (⟨position, .const ·⟩)) =
      some (vs.map fun v => .target v.code, final) := by
  induction vs with
  | nil => rfl
  | cons v vs ih => exact bodyCode_cons.mpr ⟨_, final, _, rfl, ih, rfl⟩

theorem bodyCode_operation {position : CodePosition} {ty : ValueType} {array : Nat} {op : ArrayOp}
    (h : bodyCode options types functions [operation position ty array op] = some (code, final)) :
    Instruction.arrayCode op (.value ty) array options types final = (.ok code, final) := by
  obtain ⟨first, more, hfirst, hmore, rfl⟩ := bodyCode_cons_final h
  cases hmore
  rw [List.append_nil]
  exact hfirst

theorem bodyCode_access {position : CodePosition} {ty : ValueType} {array : Nat} {access : Access}
    (h : bodyCode options types functions (access.body position ty array) = some (code, final)) :
    ∃ more, Instruction.arrayCode access.op (.value ty) array options types final =
        (.ok more, final) ∧
      code = .target (.indexed .localGet 0) ::
        (access.operands.map fun v => .target v.code) ++ more := by
  obtain ⟨first, more, hfirst, hmore, rfl⟩ := bodyCode_append h
  obtain ⟨get, constants, hget, hconstants, rfl⟩ := bodyCode_cons_final hfirst
  rw [bodyCode_constants] at hconstants
  cases hget
  cases hconstants
  exact ⟨more, bodyCode_operation hmore, rfl⟩

theorem bodyCode_program {position : CodePosition} {ty : ValueType} {array : Nat} {length : Int32}
    {accesses : List Access}
    (h : bodyCode options types functions (program position ty array length accesses) =
      some (code, final)) :
    ∃ allocation more, Instruction.arrayCode .new (.value ty) array options types final =
        (.ok allocation, final) ∧
      bodyCode options types final (accesses.flatMap (Access.body position ty array)) =
        some (more, final) ∧
      code = .target (.i32Const length) :: allocation ++ [.target (.indexed .localSet 0)] ++ more := by
  obtain ⟨front, more, hfront, hmore, rfl⟩ := bodyCode_append h
  obtain ⟨constant, rest, hconstant, hrest, rfl⟩ := bodyCode_cons_final hfront
  obtain ⟨allocation, last, hallocation, hlast, rfl⟩ := bodyCode_cons_final hrest
  cases hconstant
  cases hlast
  refine ⟨allocation, more, hallocation, hmore, ?_⟩
  simp [Literal.code, VariableOp.code, VariableOp.opcode]

end Code

/-! ### Linked registries -/

section Linked

variable {options : Options} {types : TypeRegistry} {a : ArrayClass}

/-- Every function is the helper of an operation on the array class, with the body of that helper. -/
def Linked (options : Options) (types : TypeRegistry) (a : ArrayClass) (r : FunctionRegistry) :
    Prop :=
  ∀ e ∈ r.entries, ∃ op body, op ≠ .newWithDescriptor ∧
    helper? op a types options = .ok (some (e.name, body)) ∧ e.body = some body

theorem linked_empty : Linked options types a {} := by simp [Linked]

theorem Linked.markSynthetic {r : FunctionRegistry} (h : Linked options types a r) {op : ArrayOp}
    (hop : op ≠ .newWithDescriptor) {name : FunctionName} {body : FunctionBody}
    (hhelper : helper? op a types options = .ok (some (name, body))) :
    Linked options types a (r.markSynthetic name body).2 := by
  unfold FunctionRegistry.markSynthetic FunctionRegistry.insert
  split
  · exact h
  · intro e he
    rcases List.mem_append.mp he with hold | hnew
    · exact h e hold
    · obtain rfl := List.mem_singleton.mp hnew
      exact ⟨op, body, hop, hhelper, rfl⟩

/-- The instruction is a constant, an access to a local or an operation on the array class. -/
def OnArray (array : Nat) (i : Instruction) : Prop :=
  match i.kind with
  | .const _ | .localVar _ _ _ => True
  | .array op _ id => op ≠ .newWithDescriptor ∧ id = array
  | _ => False

theorem onArray_program (position : CodePosition) (ty : ValueType) (array : Nat) (length : Int32)
    {accesses : List Access} (h : ∀ access ∈ accesses, access.op ≠ .newWithDescriptor) :
    ∀ i ∈ program position ty array length accesses, OnArray array i := by
  intro i hi
  simp only [program, List.mem_append, List.mem_cons, List.not_mem_nil, or_false,
    List.mem_flatMap] at hi
  rcases hi with (rfl | rfl | rfl) | ⟨access, haccess, hi⟩
  · exact trivial
  · exact ⟨by decide, rfl⟩
  · exact trivial
  · simp only [Access.body, List.mem_append, List.mem_cons, List.not_mem_nil, or_false,
      List.mem_map] at hi
    rcases hi with (rfl | ⟨v, -, rfl⟩) | rfl
    · exact trivial
    · exact trivial
    · exact ⟨h access haccess, rfl⟩

theorem Linked.select {array : Nat} (ha : types.arrayClass array = .ok a) {op : ArrayOp}
    (hop : op ≠ .newWithDescriptor) {r r' : FunctionRegistry} (h : Linked options types a r)
    {helper : Option Nat} (hselect : select op array options types r = .ok (helper, r')) :
    Linked options types a r' := by
  obtain ⟨a', ha', hcases⟩ := select_eq_ok hselect
  rw [ha] at ha'
  cases ha'
  rcases hcases with ⟨-, -, rfl⟩ | ⟨name, body, hhelper, -, rfl⟩
  · exact h
  · exact h.markSynthetic hop hhelper

/-- **An instruction of a program keeps the registry linked.** -/
theorem Linked.code {array : Nat} (ha : types.arrayClass array = .ok a) {i : Instruction}
    (hi : OnArray array i) {r : FunctionRegistry} (h : Linked options types a r) :
    Linked options types a (i.code options types r).2 := by
  obtain ⟨position, kind⟩ := i
  cases kind with
  | const v | localVar op index known => exact h
  | array op element id =>
    obtain ⟨hop, rfl⟩ := hi
    change Linked options types a (Instruction.arrayCode op element id options types r).2
    unfold Instruction.arrayCode
    split
    · exact h
    · next hselect => exact h.select ha hop hselect
    · next hselect => exact h.select ha hop hselect
  | _ => cases hi

theorem Linked.bodyCode {array : Nat} (ha : types.arrayClass array = .ok a)
    {body : List Instruction} (hbody : ∀ i ∈ body, OnArray array i) {r r' : FunctionRegistry}
    (h : Linked options types a r) {code : List Emission}
    (hcode : bodyCode options types r body = some (code, r')) : Linked options types a r' := by
  induction body generalizing r code with
  | nil =>
    cases hcode
    exact h
  | cons i rest ih =>
    obtain ⟨first, next, more, hfirst, hmore, rfl⟩ := bodyCode_cons.mp hcode
    have hnext := h.code ha (hbody i List.mem_cons_self)
    rw [hfirst] at hnext
    exact ih (fun j hj => hbody j (List.mem_cons_of_mem _ hj)) hnext hmore

/-- Helpers of one array class that the registry cannot tell apart are the same. -/
def NamesHelpers (options : Options) (types : TypeRegistry) (a : ArrayClass) : Prop :=
  ∀ op op' name name' body body', op ≠ .newWithDescriptor → op' ≠ .newWithDescriptor →
    helper? op a types options = .ok (some (name, body)) →
    helper? op' a types options = .ok (some (name', body')) →
    name.signatureName = name'.signatureName → name = name' ∧ body = body'

/-- **A call in a program reaches the body that its operation asks for.** -/
theorem arrayCode_of_linked {array : Nat} (ha : types.arrayClass array = .ok a)
    {r : FunctionRegistry} (h : Linked options types a r) (hnames : NamesHelpers options types a)
    {op : ArrayOp} (hop : op ≠ .newWithDescriptor) {name : FunctionName} {body : FunctionBody}
    (hhelper : helper? op a types options = .ok (some (name, body))) {element : OperandType}
    {code : List Emission}
    (hcode : Instruction.arrayCode op element array options types r = (.ok code, r)) :
    ∃ id e, r.get? id = some e ∧ e.name = name ∧ e.body = some body ∧
      code = .call name id none :: (op.hostExtension element).map .target := by
  have hselect := select_of_helper ha hhelper r
  have hlookup := r.lookup_markSynthetic name body
  obtain ⟨e, he⟩ := r.entry_markSynthetic name body
  simp only [Instruction.arrayCode, hselect, Prod.mk.injEq] at hcode
  obtain ⟨hok, hsame⟩ := hcode
  rw [he] at hok
  rw [hsame] at hlookup he
  cases hok
  obtain ⟨e', he', hsignature⟩ := FunctionRegistry.signatureName_of_lookup hlookup
  have hget : r.get? (r.markSynthetic name body).1 = some e' := he'
  obtain rfl : e' = e := by simpa [FunctionRegistry.entry, hget] using he
  obtain ⟨op', body', hop', hhelper', hbody'⟩ := h e' (List.mem_of_getElem? he')
  obtain ⟨hname, rfl⟩ := hnames op' op _ _ _ _ hop' hop hhelper' hhelper hsignature
  exact ⟨_, e', hget, hname, hbody', by rw [hname]⟩

/-- A program has code if its array operations have. -/
theorem exists_bodyCode {array : Nat}
    (hops : ∀ op, op ≠ .newWithDescriptor → ∀ element r, ∃ code r',
      Instruction.arrayCode op element array options types r = (.ok code, r'))
    {body : List Instruction} (hbody : ∀ i ∈ body, OnArray array i) (r : FunctionRegistry) :
    ∃ code r', bodyCode options types r body = some (code, r') := by
  induction body generalizing r with
  | nil => exact ⟨[], r, rfl⟩
  | cons i rest ih =>
    have hfirst : ∃ first next, i.code options types r = (.ok first, next) := by
      have hi := hbody i List.mem_cons_self
      obtain ⟨position, kind⟩ := i
      cases kind with
      | const v | localVar op index known => exact ⟨_, r, rfl⟩
      | array op element id =>
        obtain ⟨hop, rfl⟩ := hi
        exact hops op hop element r
      | _ => cases hi
    obtain ⟨first, next, hfirst⟩ := hfirst
    obtain ⟨more, final, hmore⟩ := ih (fun j hj => hbody j (List.mem_cons_of_mem _ hj)) next
    exact ⟨first ++ more, final, bodyCode_cons.mpr ⟨first, next, more, hfirst, hmore, rfl⟩⟩

end Linked

/-! ### The two profiles -/

theorem helperName_eq_ok {types : TypeRegistry} {className methodName : String}
    {params : List OperandType} {result : Option OperandType} {name : FunctionName}
    (h : helperName types className methodName params result = .ok name) :
    ∃ signature, name = ⟨className, methodName, signature, params, result⟩ := by
  obtain ⟨signature, -, rfl⟩ := map_eq_ok.mp h
  exact ⟨signature, rfl⟩

section Native

variable {options : Options} {types : TypeRegistry} {array : Nat} {a : ArrayClass}
  {native : NativeArray}

/-- The array class has native arrays. -/
structure IsNative (options : Options) (types : TypeRegistry) (array : Nat) (a : ArrayClass)
    (native : NativeArray) : Prop where
  useGc : options.useGc = true
  class_eq : types.arrayClass array = .ok a
  id_eq : a.id = array
  lower : types.lower a.element = .ok a.elementLocal
  native_eq : a.native? = some native

theorem allocates_eq_false {op : ArrayOp} (hnew : op ≠ .new) (hrtt : op ≠ .newWithDescriptor) :
    Typing.allocates op = false := by
  cases op with
  | new => exact absurd rfl hnew
  | newWithDescriptor => exact absurd rfl hrtt
  | _ => rfl

theorem IsNative.helper?_access (h : IsNative options types array a native) {op : ArrayOp}
    (hop : Typing.allocates op = false) : helper? op a types options = .ok none := by
  rw [helper?, if_pos h.useGc]
  exact Typing.nativeHelper_of_access h.lower h.native_eq hop

theorem IsNative.helper?_new (h : IsNative options types array a native) :
    ∃ name, helper? .new a types options =
        .ok (some (name, allocation (.i32Const (Int32.ofNat a.vtable)) a native)) ∧
      name.params = [.i32] ∧ name.result = some a.operandType := by
  have hnative : a.native = .ok native := by simp [ArrayClass.native, h.native_eq]
  obtain ⟨element, helement⟩ := Typing.elementName_of_lower h.lower
  have hclass : types.arrayClass a.id = .ok a := by rw [h.id_eq, h.class_eq]
  have hparams : types.lowerAll [.i32] = .ok [.value .i32] := rfl
  obtain ⟨name, hname, -⟩ :=
    Typing.allocator_hasSignature hclass hparams helperClass ("array_new_" ++ element)
  refine ⟨name, ?_, ?_⟩
  · rw [helper?, if_pos h.useGc]
    exact bind_eq_ok.mpr ⟨native, hnative, bind_eq_ok.mpr ⟨element, helement,
      bind_eq_ok.mpr ⟨name, hname, rfl⟩⟩⟩
  · obtain ⟨signature, rfl⟩ := helperName_eq_ok hname
    exact ⟨rfl, rfl⟩

theorem IsNative.namesHelpers (h : IsNative options types array a native) :
    NamesHelpers options types a := by
  have hnew (op : ArrayOp) (name : FunctionName) (body : FunctionBody)
      (hop : op ≠ .newWithDescriptor)
      (hhelper : helper? op a types options = .ok (some (name, body))) : op = .new := by
    by_contra hne
    rw [h.helper?_access (allocates_eq_false hne hop)] at hhelper
    cases hhelper
  intro op op' name name' body body' hop hop' hhelper hhelper' _
  obtain rfl := hnew op name body hop hhelper
  obtain rfl := hnew op' name' body' hop' hhelper'
  rw [hhelper] at hhelper'
  cases hhelper'
  exact ⟨rfl, rfl⟩

theorem IsNative.inlineCode (h : IsNative options types array a native) (op : ArrayOp) :
    op.inlineCode a = match op with
      | .new | .newWithDescriptor => .error (.ofFault (.noInlineForm op))
      | .get | .getSigned | .getUnsigned =>
        .ok [.scratchSet 0 (.value .i32), a.loadBuffer, .scratchGet 0 (.value .i32),
          TargetOp.indexed (op.readOpcode native.storage) native.typeIndex]
      | .set => .ok [.scratchSet 1 a.elementLocal, .scratchSet 0 (.value .i32), a.loadBuffer,
          .scratchGet 0 (.value .i32), .scratchGet 1 a.elementLocal,
          TargetOp.indexed .arraySet native.typeIndex]
      | .len => .ok [a.loadBuffer, TargetOp.plain .arrayLen] := by
  have hnative : a.native = .ok native := by simp [ArrayClass.native, h.native_eq]
  unfold ArrayOp.inlineCode
  rw [hnative]
  cases op <;> rfl

theorem IsNative.exists_inlineCode (h : IsNative options types array a native) {op : ArrayOp}
    (hop : Typing.allocates op = false) : ∃ ops, op.inlineCode a = .ok ops := by
  rw [h.inlineCode]
  cases op with
  | new | newWithDescriptor => cases hop
  | _ => exact ⟨_, rfl⟩

theorem IsNative.exists_arrayCode (h : IsNative options types array a native) {op : ArrayOp}
    (hop : op ≠ .newWithDescriptor) (element : OperandType) (r : FunctionRegistry) :
    ∃ code r', Instruction.arrayCode op element array options types r = (.ok code, r') := by
  by_cases hnew : op = .new
  · obtain ⟨name, hhelper, -⟩ := h.helper?_new
    obtain ⟨name', id, r', hcode⟩ := Typing.arrayCode_helper h.class_eq (hnew ▸ hhelper) element r
    exact ⟨_, r', hcode⟩
  · have haccess := allocates_eq_false hnew hop
    obtain ⟨ops, hops⟩ := h.exists_inlineCode haccess
    exact ⟨_, r, Typing.arrayCode_inline h.class_eq (h.helper?_access haccess) hops element r⟩

end Native

section Host

variable {options : Options} {types : TypeRegistry} {array : Nat} {a : ArrayClass} {ty : ValueType}

/-- The array class has host arrays with elements of a value type. -/
structure IsHost (options : Options) (types : TypeRegistry) (array : Nat) (a : ArrayClass)
    (ty : ValueType) : Prop where
  useGc : options.useGc = false
  types_useGc : types.useGc = false
  class_eq : types.arrayClass array = .ok a
  id_eq : a.id = array
  lower : types.lower a.element = .ok a.elementLocal
  element_eq : a.element = .value ty
  isRef : ty.isRef = false

theorem hostType_hostType (ty : OperandType) :
    OperandType.hostType (.value ty.hostType) = ty.hostType := by
  cases ty with
  | value ty => cases ty <;> rfl
  | struct id => rfl
  | array id => rfl

/-- Method of the host helper of an operation. -/
def hostMethod (ty : ValueType) : ArrayOp → String
  | .new => "array_new_" ++ ty.name
  | .newWithDescriptor => "array_new_rtt_" ++ ty.name
  | .get | .getSigned | .getUnsigned => "array_get_" ++ (OperandType.hostType (.value ty)).name
  | .set => "array_set_" ++ (OperandType.hostType (.value ty)).name
  | .len => "array_len"

/-- Parameters of the host helper of an operation. -/
def hostParams (ty : ValueType) : ArrayOp → List OperandType
  | .new => [.i32]
  | .newWithDescriptor => [.i32, .i32]
  | .get | .getSigned | .getUnsigned => [.value .externRef, .i32]
  | .set => [.value .externRef, .i32, .value (OperandType.hostType (.value ty))]
  | .len => [.value .externRef]

/-- Result of the host helper of an operation. -/
def hostResult (ty : ValueType) (array : Nat) : ArrayOp → Option OperandType
  | .new | .newWithDescriptor => some (.array array)
  | .get | .getSigned | .getUnsigned => some (.value (OperandType.hostType (.value ty)))
  | .set => none
  | .len => some .i32

/-- Script of the host helper of an operation. -/
def hostText (ty : ValueType) (vtable : Nat) : ArrayOp → String
  | .new => "(l)=>" ++ hostObject (toString vtable) (hostBuffer (.value ty))
  | .newWithDescriptor => "(l,t)=>" ++ hostObject "t" (hostBuffer (.value ty))
  | .get | .getSigned | .getUnsigned => "(a,i)=>a[2][i]"
  | .set => "(a,i,v)=>a[2][i]=v"
  | .len => "(a)=>a[2].length"

theorem hostHelper_eq (helement : a.element = .value ty) (op : ArrayOp) :
    hostHelper op a types options =
      (helperName types options.hostModule (hostMethod ty op) (hostParams ty op)
        (hostResult ty a.id op)).map fun name =>
          (name, .hostScript options.hostModule (hostText ty a.vtable op)) := by
  have hname : elementName a types = .ok ty.name := by simp [elementName, helement]
  unfold hostHelper
  rw [hname, helement]
  cases op <;> rfl

theorem IsHost.helper?_eq (h : IsHost options types array a ty) (op : ArrayOp) :
    ∃ signature, helper? op a types options = .ok (some
      (⟨options.hostModule, hostMethod ty op, signature, hostParams ty op, hostResult ty array op⟩,
        .hostScript options.hostModule (hostText ty a.vtable op))) := by
  have hclass : types.arrayClass a.id = .ok a := by rw [h.id_eq, h.class_eq]
  have hgeneric : Typing.isGeneric a.element = false := by
    rw [h.element_eq]
    have href := h.isRef
    cases ty with
    | funcRef | externRef | anyRef | eqRef => cases href
    | _ => rfl
  obtain ⟨name, body, hhelper, -⟩ :=
    Typing.hostHelper_hasSignature hclass h.types_useGc h.lower hgeneric op options
  rw [helper?, if_neg (by simp [h.useGc]), hhelper]
  rw [hostHelper_eq h.element_eq, h.id_eq] at hhelper
  obtain ⟨name', hname, hpair⟩ := map_eq_ok.mp hhelper
  obtain ⟨signature, rfl⟩ := helperName_eq_ok hname
  cases hpair
  exact ⟨signature, rfl⟩

theorem IsHost.exists_arrayCode (h : IsHost options types array a ty) (op : ArrayOp)
    (element : OperandType) (r : FunctionRegistry) :
    ∃ code r', Instruction.arrayCode op element array options types r = (.ok code, r') := by
  obtain ⟨signature, hhelper⟩ := h.helper?_eq op
  obtain ⟨name, id, r', hcode⟩ := Typing.arrayCode_helper h.class_eq hhelper element r
  exact ⟨_, r', hcode⟩

/-- The letter in which the methods of the host helpers differ. -/
def hostLetter : ArrayOp → Char
  | .new | .newWithDescriptor => 'n'
  | .get | .getSigned | .getUnsigned => 'g'
  | .set => 's'
  | .len => 'l'

theorem hostMethod_letter (ty : ValueType) (op : ArrayOp) :
    ∃ rest, (hostMethod ty op).toList = "array_".toList ++ hostLetter op :: rest := by
  have hnew : "array_new_".toList = "array_".toList ++ 'n' :: "ew_".toList := by decide +kernel
  have hrtt : "array_new_rtt_".toList = "array_".toList ++ 'n' :: "ew_rtt_".toList := by
    decide +kernel
  have hget : "array_get_".toList = "array_".toList ++ 'g' :: "et_".toList := by decide +kernel
  have hset : "array_set_".toList = "array_".toList ++ 's' :: "et_".toList := by decide +kernel
  have hlen : "array_len".toList = "array_".toList ++ 'l' :: "en".toList := by decide +kernel
  cases op with
  | new => exact ⟨_, by rw [hostMethod, String.toList_append, hnew, List.append_assoc]; rfl⟩
  | newWithDescriptor =>
    exact ⟨_, by rw [hostMethod, String.toList_append, hrtt, List.append_assoc]; rfl⟩
  | get | getSigned | getUnsigned =>
    exact ⟨_, by rw [hostMethod, String.toList_append, hget, List.append_assoc]; rfl⟩
  | set => exact ⟨_, by rw [hostMethod, String.toList_append, hset, List.append_assoc]; rfl⟩
  | len => exact ⟨_, hlen⟩

/-- The helpers of an array class have different names, except that all reads share one. -/
theorem IsHost.namesHelpers (h : IsHost options types array a ty) :
    NamesHelpers options types a := by
  intro op op' name name' body body' hop hop' hhelper hhelper' hsignature
  obtain ⟨signature, hspec⟩ := h.helper?_eq op
  obtain ⟨signature', hspec'⟩ := h.helper?_eq op'
  have hletter : hostLetter op = hostLetter op' := by
    rw [hspec] at hhelper
    rw [hspec'] at hhelper'
    cases hhelper
    cases hhelper'
    obtain ⟨rest, hrest⟩ := hostMethod_letter ty op
    obtain ⟨rest', hrest'⟩ := hostMethod_letter ty op'
    have hlist := congrArg String.toList hsignature
    simp only [FunctionName.signatureName, String.toList_append, hrest, hrest',
      List.append_assoc] at hlist
    have htail := List.append_cancel_left (List.append_cancel_left (List.append_cancel_left hlist))
    exact (List.cons.inj htail).1
  have hsame : helper? op a types options = helper? op' a types options := by
    cases op <;> cases op' <;> first | rfl | contradiction
  rw [hsame, hhelper'] at hhelper
  cases hhelper
  exact ⟨rfl, rfl⟩

end Host

end WasmBackend.ArrayProgram
