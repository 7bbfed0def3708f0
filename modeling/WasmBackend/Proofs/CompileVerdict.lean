import WasmBackend.Proofs.EmissionTyping
import WasmBackend.Proofs.Recompilation

/-! # The verdict on a function

A function whose class references are registered compiles exactly if the verifier accepts it: what the
verifier accepts can be lowered, has code in both profiles and can be written (`compile_verdict`). A
rejected function leaves nothing behind but, if it is new, its own entry in the registry.

* `exists_arrayCode`: every operation on a registered array class has code;
* `exists_code`: an instruction with a contract has code, once its slot is resolved;
* `mem_types_resolveAll`: the locals of a resolved body have the types of its slot accesses. -/

namespace WasmBackend

/-! ### Known classes -/

namespace TypeRegistry

/-- The class that the type refers to, if any, is registered. -/
def Knows (t : TypeRegistry) : OperandType → Prop
  | .value _ => True
  | .struct id => id < t.structs.length
  | .array id => id < t.arrays.length

instance (t : TypeRegistry) : DecidablePred t.Knows
  | .value _ => .isTrue trivial
  | .struct id => inferInstanceAs (Decidable (id < t.structs.length))
  | .array id => inferInstanceAs (Decidable (id < t.arrays.length))

variable {t : TypeRegistry}

theorem Knows.widened {ty : OperandType} (h : t.Knows ty) : t.Knows ty.widened := by
  cases ty <;> exact h

theorem lower_of_knows {ty : OperandType} (h : t.Knows ty) : ∃ w, t.lower ty = .ok w := by
  cases ty with
  | value ty => exact ⟨_, rfl⟩
  | struct id =>
    have hid : t.structs[id]? = some t.structs[id] := List.getElem?_eq_getElem h
    exact ⟨_, map_eq_ok.mpr ⟨_, structClass_eq_ok.mpr hid, rfl⟩⟩
  | array id =>
    have hid : t.arrays[id]? = some t.arrays[id] := List.getElem?_eq_getElem h
    exact ⟨_, map_eq_ok.mpr ⟨_, arrayClass_eq_ok.mpr hid, rfl⟩⟩

theorem lowerAll_of_knows {tys : List OperandType} (h : ∀ ty ∈ tys, t.Knows ty) :
    ∃ ws, t.lowerAll tys = .ok ws := by
  induction tys with
  | nil => exact ⟨[], rfl⟩
  | cons ty rest ih =>
    obtain ⟨w, hw⟩ := lower_of_knows (h ty List.mem_cons_self)
    obtain ⟨ws, hws⟩ := ih fun ty' hty' => h ty' (List.mem_cons_of_mem _ hty')
    exact ⟨w :: ws, Typing.lowerAll_cons_eq_ok.mpr ⟨w, ws, hw, hws, rfl⟩⟩

theorem lowerResult_of_knows {result : Option OperandType} (h : ∀ ty ∈ result, t.Knows ty) :
    ∃ w, t.lowerResult result = .ok w := by
  cases result with
  | none => exact ⟨none, rfl⟩
  | some ty =>
    obtain ⟨w, hw⟩ := lower_of_knows (h ty rfl)
    exact ⟨some w, Typing.lowerResult_some_eq_ok.mpr ⟨w, hw, rfl⟩⟩

end TypeRegistry

/-! ### Code of array operations -/

section ArrayCode

open ArrayProfile Typing

variable {options : Options} {types : TypeRegistry}

/-- **Every operation on a registered array class has code**, whatever the element type that the
operation names. -/
theorem exists_arrayCode (htypes : (TypeRegistry.new options.useGc).Grows types) {array : Nat}
    (harray : array < types.arrays.length) (op : ArrayOp) (element : OperandType)
    (functions : FunctionRegistry) :
    ∃ code functions', Instruction.arrayCode op element array options types functions =
      (.ok code, functions') := by
  have ht := TypeRegistry.wellFormed_of_grows htypes
  have hgc := useGc_of_grows htypes
  obtain ⟨a, ha⟩ : ∃ a, types.arrays[array]? = some a := ⟨_, List.getElem?_eq_getElem harray⟩
  have hmem := List.mem_of_getElem? ha
  obtain rfl := ht.array_id array a ha
  have hclass := TypeRegistry.arrayClass_eq_ok.mpr ha
  have hw := ht.elementLocal a hmem
  -- either there is a helper to call, or an access has inline code
  have hcases : (∃ name body, helper? op a types options = .ok (some (name, body))) ∨
      (helper? op a types options = .ok none ∧ ∃ ops, op.inlineCode a = .ok ops) := by
    unfold helper?
    cases huse : options.useGc with
    | false =>
      obtain ⟨name, body, hhelper, -⟩ := exists_hostHelper hclass hw op options
      exact .inl ⟨name, body, map_eq_ok.mpr ⟨_, hhelper, rfl⟩⟩
    | true =>
      have hsome := ht.native_isSome a hmem
      rw [hgc.trans huse] at hsome
      obtain ⟨native, hn⟩ := Option.isSome_iff_exists.mp hsome
      cases hop : allocates op with
      | false =>
        let env : Env := { types, slots := {} }
        obtain ⟨ops, hops, -⟩ := hasType_inlineCode (show env.types.WellFormed from ht) hmem hn hop
        exact .inr ⟨nativeHelper_of_access hw hn hop, ops, hops⟩
      | true =>
        obtain ⟨name, body, hhelper, -⟩ := nativeHelper_hasSignature hclass hw hn hop
        exact .inl ⟨name, body, hhelper⟩
  rcases hcases with ⟨name, body, hhelper⟩ | ⟨hhelper, ops, hops⟩
  · obtain ⟨written, id, functions', hcode⟩ := arrayCode_helper hclass hhelper element functions
    exact ⟨_, functions', hcode⟩
  · exact ⟨_, functions, arrayCode_inline hclass hhelper hops element functions⟩

end ArrayCode

/-! ### Code of instructions -/

namespace Instruction

/-- The types whose classes are looked up when the instruction is written or its local declared. -/
def references (i : Instruction) : List OperandType :=
  match i.kind with
  | .loadStore _ _ ty _ => [ty]
  | .array _ _ array => [.array array]
  | .call _ viewedAs => viewedAs.toList
  | _ => []

/-- The number of the string that the instruction loads. -/
def string? (i : Instruction) : Option Nat :=
  match i.kind with
  | .stringConst id _ => some id
  | _ => none

/-- The classes that the instruction refers to are registered, and the number of its string fits. -/
structure WellReferenced (types : TypeRegistry) (i : Instruction) : Prop where
  classes : ∀ ty ∈ i.references, types.Knows ty
  string : ∀ id ∈ i.string?, id < 0x80000000

instance (types : TypeRegistry) : DecidablePred (WellReferenced types) := fun i =>
  decidable_of_iff ((∀ ty ∈ i.references, types.Knows ty) ∧ ∀ id ∈ i.string?, id < 0x80000000)
    ⟨fun h => ⟨h.1, h.2⟩, fun h => ⟨h.classes, h.string⟩⟩

variable {options : Options} {types : TypeRegistry} {slots : SlotTable}

theorem WellReferenced.resolve {i : Instruction} (h : i.WellReferenced types) (t : SlotTable) :
    (i.resolve t).1.WellReferenced types := by
  unfold Instruction.resolve
  split
  · next op slot ty hkind =>
    have hreferences : i.references = [ty] := by simp [references, hkind]
    refine ⟨?_, fun id hid => nomatch hid⟩
    have hclasses := h.classes
    rw [hreferences] at hclasses
    exact hclasses
  · exact h

theorem WellReferenced.resolveAll {body : List Instruction}
    (h : ∀ i ∈ body, i.WellReferenced types) {t : SlotTable} :
    ∀ i ∈ (resolveAll body t).1, i.WellReferenced types := by
  induction body generalizing t with
  | nil => simp [Instruction.resolveAll]
  | cons head rest ih =>
    simp only [Instruction.resolveAll, List.forall_mem_cons] at h ⊢
    exact ⟨h.1.resolve t, ih h.2⟩

/-- **An instruction with a contract has code**, once its slot is resolved. -/
theorem exists_code (htypes : (TypeRegistry.new options.useGc).Grows types) {i : Instruction}
    (hresolved : i.IsResolved) (hi : i.WellReferenced types) {pops : List OperandType}
    (hpops : i.popTypes slots = .ok pops) (functions : FunctionRegistry) :
    ∃ code functions', i.code options types functions = (.ok code, functions') := by
  obtain ⟨position, kind⟩ := i
  cases kind with
  | const value => exact ⟨_, _, rfl⟩
  | convert conversion => exact ⟨_, _, rfl⟩
  | localVar op index known => exact ⟨_, _, rfl⟩
  | loadStore op slot ty resolved =>
    cases resolved with
    | none => exact absurd rfl (hresolved op slot ty)
    | some index => exact ⟨_, _, rfl⟩
  | numeric op ty =>
    obtain ⟨⟨⟩, hcheck, -⟩ := bind_eq_ok.mp hpops
    unfold checkNumeric at hcheck
    split at hcheck
    · next ops hops =>
      refine ⟨ops.map .target, functions, ?_⟩
      simp [Instruction.code, NumericOp.code, hops, Except.map]
    · cases hcheck
  | array op element array =>
    have harray := hi.classes (.array array) List.mem_cons_self
    exact exists_arrayCode htypes harray op element functions
  | call name viewedAs =>
    obtain ⟨w, hw⟩ := TypeRegistry.lowerResult_of_knows fun ty hty =>
      hi.classes ty (Option.mem_toList.mpr hty)
    refine ⟨[.call name (functions.mark name false).1 w], (functions.mark name false).2, ?_⟩
    simp [Instruction.code, hw, Except.map]
  | stringConst id ty =>
    obtain ⟨callee, functions', hcode⟩ := Typing.stringCode_eq (hi.string id rfl) functions
    exact ⟨_, functions', hcode⟩
  | control op ty depth =>
    have hcontrol : Instruction.controlPops ⟨position, .control op ty depth⟩ op ty = .ok pops := hpops
    refine ⟨[.target (op.code depth)], functions, ?_⟩
    simp [Instruction.code, hcontrol, Except.map]

end Instruction

theorem exists_bodyCode_of_accepts {options : Options} {types : TypeRegistry}
    (htypes : (TypeRegistry.new options.useGc).Grows types) {ctx : Verifier.Context}
    {s : Verifier.State} {body : List Instruction} (h : Verifier.Accepts ctx s body)
    (hresolved : ∀ i ∈ body, i.IsResolved) (hbody : ∀ i ∈ body, i.WellReferenced types)
    (functions : FunctionRegistry) :
    ∃ code functions', bodyCode options types functions body = some (code, functions') := by
  induction body generalizing s functions with
  | nil => exact ⟨[], functions, rfl⟩
  | cons i rest ih =>
    obtain ⟨s', hstep, hrest⟩ := Verifier.accepts_cons.mp h
    obtain ⟨-, pops, -, -, hpops, -⟩ := Verifier.step_eq_ok.mp hstep
    rw [List.forall_mem_cons] at hresolved hbody
    obtain ⟨first, next, hfirst⟩ := Instruction.exists_code htypes hresolved.1 hbody.1 hpops functions
    obtain ⟨more, final, hmore⟩ := ih hrest hresolved.2 hbody.2 next
    exact ⟨first ++ more, final, bodyCode_cons.mpr ⟨first, next, more, hfirst, hmore, rfl⟩⟩

/-! ### Types of locals -/

namespace SlotTable

theorem exists_addParamsFrom {t : SlotTable} (ht : t.size = t.paramCount)
    (params : List OperandType) (slot : Nat) :
    ∃ t', t.addParamsFrom slot params = .ok t' ∧
      t'.types = t.types ++ params.map OperandType.widened := by
  induction params generalizing t slot with
  | nil => exact ⟨t, rfl, by simp⟩
  | cons ty rest ih =>
    have hadd : t.addParam slot ty = (.ok t.size,
        { t.allocate slot ty.widened with paramCount := t.paramCount + 1 }) := by
      rw [addParam, if_pos ht]
    have hnext : ({ t.allocate slot ty.widened with paramCount := t.paramCount + 1 } :
        SlotTable).size = t.paramCount + 1 := by
      show (t.allocate slot ty.widened).size = _
      rw [size_allocate, ht]
    obtain ⟨t', ht', htypes⟩ := ih hnext (slot + ty.slotCount)
    refine ⟨t', by rw [addParamsFrom, hadd]; exact ht', ?_⟩
    rw [htypes]
    simp [allocate]

theorem exists_ofParams (params : List OperandType) :
    ∃ t, ofParams params = .ok t ∧ t.types = params.map OperandType.widened :=
  exists_addParamsFrom rfl params 0

theorem mem_types_resolve {t : SlotTable} {slot : Nat} {ty ty' : OperandType}
    (h : ty' ∈ (t.resolve slot ty).2.types) : ty' ∈ t.types ∨ ty' = ty.widened := by
  unfold SlotTable.resolve at h
  split at h
  · exact .inl h
  · rcases List.mem_append.mp h with hold | hnew
    · exact .inl hold
    · exact .inr (List.mem_singleton.mp hnew)

end SlotTable

/-- **The locals of a resolved body** have the types of the table before it, or the stack types of its
slot accesses. -/
theorem mem_types_resolveAll {body : List Instruction} {t : SlotTable} {ty : OperandType}
    (h : ty ∈ (Instruction.resolveAll body t).2.types) :
    ty ∈ t.types ∨ ∃ i ∈ body, ∃ ty' ∈ i.references, ty = ty'.widened := by
  induction body generalizing t with
  | nil => exact .inl h
  | cons i rest ih =>
    simp only [Instruction.resolveAll] at h
    rcases ih h with hfirst | ⟨i', hi', hty⟩
    · unfold Instruction.resolve at hfirst
      split at hfirst
      · next op slot ty' hkind =>
        rcases SlotTable.mem_types_resolve hfirst with hold | hnew
        · exact .inl hold
        · exact .inr ⟨i, List.mem_cons_self, ty', by simp [Instruction.references, hkind], hnew⟩
      · exact .inl hfirst
    · exact .inr ⟨i', List.mem_cons_of_mem _ hi', hty⟩

/-! ### The verdict -/

/-- The classes that the function refers to are registered, and the numbers of its strings fit. -/
structure FunctionCode.WellReferenced (types : TypeRegistry) (code : FunctionCode) : Prop where
  params : ∀ ty ∈ code.name.params, types.Knows ty
  result : ∀ ty ∈ code.name.result, types.Knows ty
  instructions : ∀ i ∈ code.instructions, i.WellReferenced types

theorem FunctionRegistry.mark_cases (r : FunctionRegistry) (name : FunctionName) :
    ((r.lookup name).isSome ∧ (r.mark name false).2 = r) ∨
      (r.lookup name = none ∧ (r.mark name false).2.entries =
        r.entries ++ [{ id := r.count, name, isImport := false, body := none }]) := by
  unfold FunctionRegistry.mark FunctionRegistry.insert
  split
  · next id hknown => exact .inl ⟨by rw [hknown]; rfl, rfl⟩
  · next hnew => exact .inr ⟨hnew, rfl⟩

namespace ModuleCompiler

variable {c : ModuleCompiler} {w : ModuleWriter} {code : FunctionCode} {params slots : SlotTable}
  {body : List Instruction}

theorem exists_draft (hcode : code.WellReferenced c.types) {locals : List OperandType}
    (hlocals : ∀ ty ∈ locals, c.types.Knows ty) (id : Nat) :
    ∃ f, c.draft id code.name locals = .ok f := by
  obtain ⟨params, hparams⟩ := TypeRegistry.lowerAll_of_knows hcode.params
  obtain ⟨result, hresult⟩ := TypeRegistry.lowerResult_of_knows hcode.result
  obtain ⟨lowered, hlowered⟩ := TypeRegistry.lowerAll_of_knows hlocals
  simp only [draft, bind_eq_ok, pure_eq_ok]
  exact ⟨_, params, hparams, result, hresult, lowered, hlowered, rfl⟩

theorem knows_localTypes (hcode : code.WellReferenced c.types)
    (hparams : params.types = code.name.params.map OperandType.widened)
    (hresolve : Instruction.resolveAll code.instructions params = (body, slots)) :
    ∀ ty ∈ slots.localTypes, c.types.Knows ty := by
  intro ty hty
  have hmem : ty ∈ (Instruction.resolveAll code.instructions params).2.types := by
    rw [hresolve]
    exact List.mem_of_mem_drop hty
  rcases mem_types_resolveAll hmem with hparam | ⟨i, hi, ty', hty', rfl⟩
  · rw [hparams] at hparam
    obtain ⟨ty', hty', rfl⟩ := List.mem_map.mp hparam
    exact (hcode.params ty' hty').widened
  · exact ((hcode.instructions i hi).classes ty' hty').widened

/-- An accepted function goes through all stages. -/
theorem nonempty_stages_of_verify (htypes : (TypeRegistry.new c.options.useGc).Grows c.types)
    (hcode : code.WellReferenced c.types) (hclosed : w.current = none)
    (hindices : w.indices? = none) (hof : SlotTable.ofParams code.name.params = .ok params)
    (hparams : params.types = code.name.params.map OperandType.widened)
    (hresolve : Instruction.resolveAll code.instructions params = (body, slots))
    (hverify : Verifier.verify (verifierContext code.name slots) body = .ok ()) :
    Nonempty (Stages c w code) := by
  have hbody : (Instruction.resolveAll code.instructions params).1 = body := by rw [hresolve]
  have hresolved : ∀ i ∈ body, i.IsResolved := by
    rw [← hbody]
    intro i hi
    exact Instruction.isResolved_resolveAll hi
  have hreferenced : ∀ i ∈ body, i.WellReferenced c.types := by
    rw [← hbody]
    exact Instruction.WellReferenced.resolveAll hcode.instructions
  have hlocals := knows_localTypes hcode hparams hresolve
  obtain ⟨f, hf⟩ := exists_draft hcode hlocals (c.functions.mark code.name false).1
  obtain ⟨emitted, functions, hwritten⟩ := exists_bodyCode_of_accepts htypes
    (Verifier.accepts_iff_verify.mpr hverify) hresolved hreferenced (c.marked code.name).functions
  exact ⟨{ params, slots, body, draft := f, emitted, functions, ofParams := hof
           resolveAll := hresolve, verify := hverify, drafted := hf, closed := hclosed
           written := hwritten, ended := ModuleWriter.endFunction_of_unindexed hindices _ }⟩

theorem compile_of_rejected {e : CompileError}
    (hof : SlotTable.ofParams code.name.params = .ok params)
    (hresolve : Instruction.resolveAll code.instructions params = (body, slots))
    (hverify : Verifier.verify (verifierContext code.name slots) body = .error e) :
    c.compile w code =
      { result := .error e
        compiler := c.marked code.name
        writer := w
        code := { code with instructions :=
          Verifier.remembered (verifierContext code.name slots) body } } := by
  simp only [verifierContext] at hverify
  simp only [ModuleCompiler.compile, hof, hresolve, hverify]
  rfl

/-- **Only the verifier rejects a function.** A function whose class references are registered gets
its number exactly if the verifier accepts its resolved body. Otherwise the error is the verifier's,
and all that is left is the entry of the function, without a body. -/
theorem compile_verdict (htypes : (TypeRegistry.new c.options.useGc).Grows c.types)
    (hcode : code.WellReferenced c.types) (hclosed : w.current = none)
    (hindices : w.indices? = none) :
    ∃ params body slots, SlotTable.ofParams code.name.params = .ok params ∧
      Instruction.resolveAll code.instructions params = (body, slots) ∧
      (c.compile w code).result = (Verifier.verify (verifierContext code.name slots) body).map
        (fun _ => (c.functions.mark code.name false).1) ∧
      ∀ e, Verifier.verify (verifierContext code.name slots) body = .error e →
        (c.compile w code).writer = w ∧
        (c.compile w code).compiler.options = c.options ∧
        (c.compile w code).compiler.types = c.types ∧
        (c.compile w code).compiler.strings = c.strings ∧
        (((c.functions.lookup code.name).isSome ∧
            (c.compile w code).compiler.functions = c.functions) ∨
          (c.functions.lookup code.name = none ∧
            (c.compile w code).compiler.functions.entries = c.functions.entries ++
              [{ id := c.functions.count, name := code.name, isImport := false, body := none }])) := by
  obtain ⟨params, hof, hparams⟩ := SlotTable.exists_ofParams code.name.params
  rcases hresolve : Instruction.resolveAll code.instructions params with ⟨body, slots⟩
  refine ⟨params, body, slots, hof, hresolve, ?_, ?_⟩
  · cases hverify : Verifier.verify (verifierContext code.name slots) body with
    | error e => rw [compile_of_rejected hof hresolve hverify]; rfl
    | ok =>
      obtain ⟨stages⟩ :=
        nonempty_stages_of_verify htypes hcode hclosed hindices hof hparams hresolve hverify
      rw [stages.result_eq]
      rfl
  · intro e hverify
    rw [compile_of_rejected hof hresolve hverify]
    exact ⟨rfl, rfl, rfl, rfl, c.functions.mark_cases code.name⟩

/-- The compiler of a module with native types and one array class, of bytes. -/
def byteCompiler : ModuleCompiler where
  options := { useGc := true }
  types := Typing.byteArrays

/-- A procedure that stores a byte, if the code before gives it an array and a place. -/
def storingByte (operands : List Instruction) : FunctionCode where
  name := { className := "Main", methodName := "store", signature := "([BI)V"
            params := [.array 0, .i32], result := none }
  instructions := operands ++ [⟨.unknown, .const (.i32 7)⟩, ⟨.unknown, .array .set (.value .i8) 0⟩]

/-- With both operands the procedure compiles; without the array it is rejected, and only its entry
is left. -/
theorem compile_verdict_storingByte :
    let array := Instruction.ofSlot .get 0 (.array 0) .unknown
    let place := Instruction.ofSlot .get 1 .i32 .unknown
    let whole := byteCompiler.compile (.newText {}) (storingByte [array, place])
    let cut := byteCompiler.compile (.newText {}) (storingByte [place])
    (TypeRegistry.new true).Grows byteCompiler.types ∧
      (storingByte [array, place]).WellReferenced byteCompiler.types ∧
      (storingByte [place]).WellReferenced byteCompiler.types ∧
      whole.result = .ok 0 ∧ cut.result = .error (.stackUnderflow "Main.store" .unknown) ∧
      cut.writer = .newText {} ∧ cut.compiler.functions.entries =
        [{ id := 0, name := (storingByte []).name, isImport := false, body := none }] := by
  intro array place whole cut
  have hadded : (TypeRegistry.new true).internArray (.value .i8) = (.ok 0, Typing.byteArrays) := rfl
  have hgrows : (TypeRegistry.new true).Grows byteCompiler.types := .internArray .refl hadded
  have hwhole : (storingByte [array, place]).WellReferenced byteCompiler.types :=
    ⟨by decide, by decide, by decide⟩
  have hcut : (storingByte [place]).WellReferenced byteCompiler.types :=
    ⟨by decide, by decide, by decide⟩
  obtain ⟨params, body, slots, hof, hresolve, haccepted, -⟩ :=
    compile_verdict (w := .newText {}) hgrows hwhole rfl rfl
  obtain ⟨params', body', slots', hof', hresolve', hrejected, hleft⟩ :=
    compile_verdict (w := .newText {}) hgrows hcut rfl rfl
  cases hof
  cases hresolve
  cases hof'
  cases hresolve'
  obtain ⟨hwriter, -, -, -, hentries⟩ := hleft (.stackUnderflow "Main.store" .unknown) (by decide)
  refine ⟨hgrows, hwhole, hcut, haccepted.trans (by decide), hrejected.trans (by decide), hwriter, ?_⟩
  rcases hentries with ⟨hknown, -⟩ | ⟨-, hadded⟩
  · cases hknown
  · exact hadded

end ModuleCompiler

end WasmBackend
