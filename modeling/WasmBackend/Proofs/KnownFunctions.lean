import Mathlib.Data.List.Forall2
import WasmBackend.Proofs.EmissionCalls

/-! # Functions keep their numbers

A registry only grows, and a known function keeps its name and its number (`Extends`). So what an
instruction calls can be said by name, and the code of an instruction stays the same when it is asked
for again in a later registry.

Main statement: an instruction calls the function it names, by the number of that function, and
asking again gives the same code and registers nothing (`generates_code`). -/

namespace WasmBackend

namespace FunctionRegistry

/-- The second registry knows the functions of the first one by the same numbers. -/
def Extends (r r' : FunctionRegistry) : Prop :=
  r.entries.map FunctionEntry.name <+: r'.entries.map FunctionEntry.name

theorem Extends.refl (r : FunctionRegistry) : Extends r r := List.prefix_rfl

theorem Extends.trans {r r' r'' : FunctionRegistry} (h : Extends r r') (h' : Extends r' r'') :
    Extends r r'' :=
  List.IsPrefix.trans h h'

theorem lookup_eq_findIdx? (r : FunctionRegistry) (name : FunctionName) :
    r.lookup name =
      (r.entries.map FunctionEntry.name).findIdx? fun n => n.signatureName = name.signatureName := by
  rw [List.findIdx?_map]
  rfl

/-- **A known function keeps its number.** -/
theorem Extends.lookup {r r' : FunctionRegistry} (h : Extends r r') {name : FunctionName} {id : Nat}
    (hid : r.lookup name = some id) : r'.lookup name = some id := by
  rw [lookup_eq_findIdx?] at hid ⊢
  exact List.IsPrefix.findIdx?_eq_some h hid

theorem Extends.name_eq {r r' : FunctionRegistry} (h : Extends r r') {id : Nat}
    {e : FunctionEntry} (he : r.entries[id]? = some e) :
    ∃ e', r'.entries[id]? = some e' ∧ e'.name = e.name := by
  have hname : (r.entries.map FunctionEntry.name)[id]? = some e.name := by
    rw [List.getElem?_map, he]
    rfl
  obtain ⟨hlt, hget⟩ := List.getElem?_eq_some_iff.mp hname
  have hkept := List.prefix_iff_getElem?.mp h id hlt
  rw [hget, List.getElem?_map] at hkept
  exact Option.map_eq_some_iff.mp hkept

theorem signatureName_of_lookup {r : FunctionRegistry} {name : FunctionName} {id : Nat}
    (h : r.lookup name = some id) :
    ∃ e, r.entries[id]? = some e ∧ e.name.signatureName = name.signatureName := by
  obtain ⟨hlt, hname, -⟩ := List.findIdx?_eq_some_iff_getElem.mp h
  exact ⟨_, List.getElem?_eq_getElem hlt, of_decide_eq_true hname⟩

theorem extends_add (r : FunctionRegistry) (name : FunctionName) (isImport : Bool)
    (body : Option FunctionBody) : Extends r (r.add name isImport body) := by
  unfold Extends FunctionRegistry.add
  rw [List.map_append]
  exact List.prefix_append _ _

theorem extends_insert (r : FunctionRegistry) (name : FunctionName) (isImport : Bool)
    (body : Option FunctionBody) : Extends r (r.insert name isImport body).2 := by
  unfold FunctionRegistry.insert
  split
  · exact .refl r
  · exact r.extends_add name isImport body

theorem extends_mark (r : FunctionRegistry) (name : FunctionName) (isImport : Bool) :
    Extends r (r.mark name isImport).2 := r.extends_insert name isImport none

theorem extends_markSynthetic (r : FunctionRegistry) (name : FunctionName) (body : FunctionBody) :
    Extends r (r.markSynthetic name body).2 := r.extends_insert name _ _

theorem lookup_add {r : FunctionRegistry} {name : FunctionName} (h : r.lookup name = none)
    (isImport : Bool) (body : Option FunctionBody) :
    (r.add name isImport body).lookup name = some r.entries.length := by
  unfold FunctionRegistry.lookup at h
  unfold FunctionRegistry.add FunctionRegistry.lookup
  rw [List.findIdx?_append, h]
  simp

theorem lookup_insert (r : FunctionRegistry) (name : FunctionName) (isImport : Bool)
    (body : Option FunctionBody) :
    (r.insert name isImport body).2.lookup name = some (r.insert name isImport body).1 := by
  unfold FunctionRegistry.insert
  split
  · next id hid => exact hid
  · next hnone => exact lookup_add hnone isImport body

theorem lookup_mark (r : FunctionRegistry) (name : FunctionName) (isImport : Bool) :
    (r.mark name isImport).2.lookup name = some (r.mark name isImport).1 :=
  r.lookup_insert name isImport none

theorem lookup_markSynthetic (r : FunctionRegistry) (name : FunctionName) (body : FunctionBody) :
    (r.markSynthetic name body).2.lookup name = some (r.markSynthetic name body).1 :=
  r.lookup_insert name _ _

theorem insert_of_lookup {r : FunctionRegistry} {name : FunctionName} {id : Nat}
    (h : r.lookup name = some id) (isImport : Bool) (body : Option FunctionBody) :
    r.insert name isImport body = (id, r) := by
  unfold FunctionRegistry.insert
  rw [h]

theorem Extends.insert_again {r r' : FunctionRegistry} {name : FunctionName} {isImport : Bool}
    {body : Option FunctionBody} (h : Extends (r.insert name isImport body).2 r')
    (isImport' : Bool) (body' : Option FunctionBody) :
    r'.insert name isImport' body' = ((r.insert name isImport body).1, r') :=
  insert_of_lookup (h.lookup (r.lookup_insert name isImport body)) isImport' body'

theorem map_name_modify (entries : List FunctionEntry) (id : Nat)
    {f : FunctionEntry → FunctionEntry} (hf : ∀ e, (f e).name = e.name) :
    (entries.modify id f).map FunctionEntry.name = entries.map FunctionEntry.name := by
  refine List.ext_getElem? fun place => ?_
  rw [List.getElem?_map, List.getElem?_map, List.getElem?_modify]
  rcases entries[place]? with _ | e
  · rfl
  · simp only [Option.map_eq_map, Option.map_some]
    split_ifs
    · rw [hf]
    · rfl

theorem extends_markReplacing (r : FunctionRegistry) (name : FunctionName) (body : FunctionBody) :
    Extends r (r.markReplacing name body).2 := by
  unfold FunctionRegistry.markReplacing
  split
  · refine ⟨[], ?_⟩
    rw [List.append_nil]
    refine (map_name_modify _ _ ?_).symm
    intro e
    rfl
  · exact r.extends_add name _ _

end FunctionRegistry

/-! ### What an instruction calls -/

/-- The number of the function that an emission calls. -/
def Emission.callee? : Emission → Option Nat
  | .op _ => none
  | .call _ callee _ => some callee

/-- The function that an instruction calls: the one it names, the accessor of strings, or the helper
of an array operation. -/
def Instruction.callee? (options : Options) (types : TypeRegistry) (i : Instruction) :
    Option FunctionName :=
  match i.kind with
  | .call name _ => some name
  | .stringConst _ _ => some (StringPool.accessor options)
  | .array op _ array =>
    match types.arrayClass array >>= fun a => ArrayProfile.helper? op a types options with
    | .ok (some (name, _)) => some name
    | _ => none
  | _ => none

/-- The calls in some code are those of the named functions, in order, by the numbers that the
functions have in the registry. -/
def CallsNamed (functions : FunctionRegistry) (names : List FunctionName) (code : List Emission) :
    Prop :=
  List.Forall₂ (fun name callee => functions.lookup name = some callee) names
    (code.filterMap Emission.callee?)

theorem CallsNamed.mono {functions functions' : FunctionRegistry} {names : List FunctionName}
    {code : List Emission} (h : CallsNamed functions names code)
    (hext : functions.Extends functions') : CallsNamed functions' names code :=
  List.Forall₂.imp (fun _ _ hlookup => hext.lookup hlookup) h

theorem CallsNamed.append {functions : FunctionRegistry} {names names' : List FunctionName}
    {code code' : List Emission} (h : CallsNamed functions names code)
    (h' : CallsNamed functions names' code') :
    CallsNamed functions (names ++ names') (code ++ code') := by
  unfold CallsNamed at h h' ⊢
  rw [List.filterMap_append]
  exact List.rel_append h h'

theorem filterMap_callee?_op (ops : List CodeOp) :
    (ops.map Emission.op).filterMap Emission.callee? = [] := by
  rw [List.filterMap_map, List.filterMap_eq_nil_iff]
  intro op _
  rfl

theorem filterMap_callee?_target (ops : List TargetOp) :
    (ops.map Emission.target).filterMap Emission.callee? = [] := by
  rw [List.filterMap_map, List.filterMap_eq_nil_iff]
  intro op _
  rfl

theorem callsNamed_target (functions : FunctionRegistry) (ops : List TargetOp) :
    CallsNamed functions [] (ops.map .target) := by
  unfold CallsNamed
  rw [filterMap_callee?_target]
  exact .nil

/-- What the code of an instruction says of the registries before and after it: the second extends
the first, and any registry that extends the second gives the same code. -/
structure Generates (options : Options) (types : TypeRegistry) (i : Instruction)
    (functions functions' : FunctionRegistry) (code : List Emission) : Prop where
  grows : functions.Extends functions'
  calls : CallsNamed functions' (i.callee? options types).toList code
  again : ∀ later, functions'.Extends later → i.code options types later = (.ok code, later)

theorem generates_of_target {options : Options} {types : TypeRegistry} {i : Instruction}
    (hcallee : i.callee? options types = none) (ops : List TargetOp)
    (h : ∀ functions, i.code options types functions = (.ok (ops.map .target), functions))
    (functions : FunctionRegistry) :
    Generates options types i functions functions (ops.map .target) :=
  ⟨.refl _, hcallee ▸ callsNamed_target functions ops, fun later _ => h later⟩

theorem select_eq_ok {op : ArrayOp} {array : Nat} {options : Options} {types : TypeRegistry}
    {functions functions' : FunctionRegistry} {helper : Option Nat}
    (h : ArrayProfile.select op array options types functions = .ok (helper, functions')) :
    ∃ a, types.arrayClass array = .ok a ∧
      ((ArrayProfile.helper? op a types options = .ok none ∧ helper = none ∧
          functions' = functions) ∨
        ∃ name body, ArrayProfile.helper? op a types options = .ok (some (name, body)) ∧
          helper = some (functions.markSynthetic name body).1 ∧
          functions' = (functions.markSynthetic name body).2) := by
  obtain ⟨a, ha, h⟩ := bind_eq_ok.mp h
  obtain ⟨found, hfound, h⟩ := bind_eq_ok.mp h
  refine ⟨a, ha, ?_⟩
  rcases found with _ | ⟨name, body⟩
  · cases h
    exact .inl ⟨hfound, rfl, rfl⟩
  · cases h
    exact .inr ⟨name, body, hfound, rfl, rfl⟩

theorem select_of_helper {op : ArrayOp} {array : Nat} {options : Options} {types : TypeRegistry}
    {a : ArrayClass} (ha : types.arrayClass array = .ok a) {name : FunctionName}
    {body : FunctionBody}
    (hhelper : ArrayProfile.helper? op a types options = .ok (some (name, body)))
    (functions : FunctionRegistry) :
    ArrayProfile.select op array options types functions =
      .ok (some (functions.markSynthetic name body).1, (functions.markSynthetic name body).2) := by
  unfold ArrayProfile.select
  rw [ha]
  change (ArrayProfile.helper? op a types options >>= _) = _
  rw [hhelper]
  rfl

theorem select_of_inline {op : ArrayOp} {array : Nat} {options : Options} {types : TypeRegistry}
    {a : ArrayClass} (ha : types.arrayClass array = .ok a)
    (hhelper : ArrayProfile.helper? op a types options = .ok none) (functions : FunctionRegistry) :
    ArrayProfile.select op array options types functions = .ok (none, functions) := by
  unfold ArrayProfile.select
  rw [ha]
  change (ArrayProfile.helper? op a types options >>= _) = _
  rw [hhelper]
  rfl

theorem callee?_array {options : Options} {types : TypeRegistry} {position : CodePosition}
    {op : ArrayOp} {element : OperandType} {array : Nat} {a : ArrayClass}
    (ha : types.arrayClass array = .ok a) {helper : Option (FunctionName × FunctionBody)}
    (hhelper : ArrayProfile.helper? op a types options = .ok helper) :
    Instruction.callee? options types ⟨position, .array op element array⟩ =
      helper.map Prod.fst := by
  have hfound : (types.arrayClass array >>= fun a => ArrayProfile.helper? op a types options) =
      .ok helper := bind_eq_ok.mpr ⟨a, ha, hhelper⟩
  unfold Instruction.callee?
  simp only [hfound]
  rcases helper with _ | ⟨name, body⟩
  · rfl
  · rfl

theorem generates_array {options : Options} {types : TypeRegistry} {position : CodePosition}
    {op : ArrayOp} {element : OperandType} {array : Nat} {functions functions' : FunctionRegistry}
    {code : List Emission}
    (h : Instruction.arrayCode op element array options types functions = (.ok code, functions')) :
    Generates options types ⟨position, .array op element array⟩ functions functions' code := by
  unfold Instruction.arrayCode at h
  split at h
  · cases h
  · next kept hselect =>
    obtain ⟨a, ha, ⟨hhelper, -, rfl⟩ | ⟨name, body, -, hsome, -⟩⟩ := select_eq_ok hselect
    · obtain ⟨hcode, rfl⟩ := Prod.mk.inj h
      refine ⟨.refl _, ?_, fun later _ => ?_⟩
      · obtain ⟨a', -, hcode⟩ := bind_eq_ok.mp hcode
        obtain ⟨ops, -, hcode⟩ := bind_eq_ok.mp hcode
        cases hcode
        unfold CallsNamed
        rw [callee?_array ha hhelper, filterMap_callee?_op]
        exact .nil
      · show Instruction.arrayCode op element array options types later = _
        unfold Instruction.arrayCode
        rw [select_of_inline ha hhelper later]
        exact Prod.ext hcode rfl
    · cases hsome
  · next id marked hselect =>
    obtain ⟨a, ha, ⟨-, hnone, -⟩ | ⟨name, body, hhelper, hid, rfl⟩⟩ := select_eq_ok hselect
    · cases hnone
    · cases hid
      obtain ⟨hcode, rfl⟩ := Prod.mk.inj h
      obtain ⟨entry, hentry, hcode⟩ := bind_eq_ok.mp hcode
      cases hcode
      have hlookup := functions.lookup_markSynthetic name body
      refine ⟨functions.extends_markSynthetic name body, ?_, fun later hlater => ?_⟩
      · unfold CallsNamed
        simp only [callee?_array ha hhelper, List.filterMap_cons, filterMap_callee?_target]
        exact .cons hlookup .nil
      · -- the entry of the helper has the same name in every later registry
        have hfound : (functions.markSynthetic name body).2.entries[
            (functions.markSynthetic name body).1]? = some entry := by
          unfold FunctionRegistry.entry FunctionRegistry.get? at hentry
          split at hentry
          · next e he =>
            cases hentry
            exact he
          · cases hentry
        obtain ⟨entry', hentry', hname⟩ := hlater.name_eq hfound
        have hagain : later.markSynthetic name body =
            ((functions.markSynthetic name body).1, later) := hlater.insert_again _ _
        show Instruction.arrayCode op element array options types later = _
        unfold Instruction.arrayCode
        rw [select_of_helper ha hhelper later, hagain]
        refine Prod.ext ?_ rfl
        show (later.entry _ >>= _) = _
        unfold FunctionRegistry.entry FunctionRegistry.get?
        rw [hentry']
        show Except.ok _ = _
        rw [hname]

theorem generates_string {options : Options} {types : TypeRegistry} {position : CodePosition}
    {id : Nat} {ty : OperandType} {functions functions' : FunctionRegistry} {code : List Emission}
    (h : Instruction.stringCode id options functions = (.ok code, functions')) :
    Generates options types ⟨position, .stringConst id ty⟩ functions functions' code := by
  unfold Instruction.stringCode at h
  dsimp only at h
  split_ifs at h with hid
  swap
  · cases h
  cases h
  have hmark := functions.extends_mark (StringPool.accessor options) false
  have hoffset := (functions.mark (StringPool.accessor options) false).2.extends_markSynthetic
    (StringPool.offsetFunction options) (StringPool.constantBody 0)
  refine ⟨hmark.trans hoffset, ?_, fun later hlater => ?_⟩
  · exact .cons (hoffset.lookup (functions.lookup_mark _ false)) .nil
  · have haccessor : later.mark (StringPool.accessor options) false =
        ((functions.mark (StringPool.accessor options) false).1, later) :=
      (hoffset.trans hlater).insert_again _ _
    have htable : (later.markSynthetic (StringPool.offsetFunction options)
        (StringPool.constantBody 0)).2 = later :=
      congrArg Prod.snd (hlater.insert_again _ _)
    show Instruction.stringCode id options later = _
    unfold Instruction.stringCode
    dsimp only
    rw [haccessor, htable, if_pos hid]

theorem generates_call {options : Options} {types : TypeRegistry} {position : CodePosition}
    {name : FunctionName} {viewedAs : Option OperandType} {functions functions' : FunctionRegistry}
    {code : List Emission}
    (h : Instruction.code ⟨position, .call name viewedAs⟩ options types functions =
      (.ok code, functions')) :
    Generates options types ⟨position, .call name viewedAs⟩ functions functions' code := by
  obtain ⟨hcode, rfl⟩ := Prod.mk.inj h
  obtain ⟨ty, hty, rfl⟩ := map_eq_ok.mp hcode
  refine ⟨functions.extends_mark name false, .cons (functions.lookup_mark name false) .nil,
    fun later hlater => ?_⟩
  have hagain : later.mark name false = ((functions.mark name false).1, later) :=
    FunctionRegistry.Extends.insert_again hlater _ _
  simp only [Instruction.code]
  rw [hagain, hty]
  rfl

/-- **Code of an instruction, asked for once, can be asked for again**, and its calls are those of
the function that the instruction names. -/
theorem generates_code {options : Options} {types : TypeRegistry} {i : Instruction}
    {functions functions' : FunctionRegistry} {code : List Emission}
    (h : i.code options types functions = (.ok code, functions')) :
    Generates options types i functions functions' code := by
  rcases i with ⟨position, kind⟩
  cases kind with
  | const value =>
    cases h
    exact generates_of_target rfl [value.code] (fun _ => rfl) functions
  | convert conversion =>
    cases h
    exact generates_of_target rfl conversion.code (fun _ => rfl) functions
  | localVar op index known =>
    cases h
    exact generates_of_target rfl [op.code index] (fun _ => rfl) functions
  | loadStore op slot ty resolved =>
    cases resolved with
    | none => cases h
    | some index =>
      cases h
      exact generates_of_target rfl [op.code index] (fun _ => rfl) functions
  | numeric op ty =>
    obtain ⟨hcode, rfl⟩ := Prod.mk.inj h
    obtain ⟨ops, hops, rfl⟩ := map_eq_ok.mp hcode
    refine generates_of_target rfl ops (fun later => ?_) functions
    simp only [Instruction.code, hops]
    rfl
  | array op element array => exact generates_array h
  | call name viewedAs => exact generates_call h
  | stringConst id ty => exact generates_string h
  | control op ty depth =>
    obtain ⟨hcode, rfl⟩ := Prod.mk.inj h
    obtain ⟨pops, hpops, rfl⟩ := map_eq_ok.mp hcode
    refine generates_of_target rfl [op.code depth] (fun later => ?_) functions
    simp only [Instruction.code, hpops]
    rfl

/-- Also an instruction without code only adds functions. -/
theorem extends_code (i : Instruction) (options : Options) (types : TypeRegistry)
    (functions : FunctionRegistry) :
    functions.Extends (i.code options types functions).2 := by
  rcases i with ⟨position, kind⟩
  cases kind with
  | loadStore op slot ty resolved => cases resolved <;> exact .refl _
  | array op element array =>
    show functions.Extends (Instruction.arrayCode op element array options types functions).2
    unfold Instruction.arrayCode
    split
    · exact .refl _
    · next hselect =>
      obtain ⟨a, -, ⟨-, -, rfl⟩ | ⟨name, body, -, hsome, -⟩⟩ := select_eq_ok hselect
      · exact .refl _
      · cases hsome
    · next hselect =>
      obtain ⟨a, -, ⟨-, hnone, -⟩ | ⟨name, body, -, -, rfl⟩⟩ := select_eq_ok hselect
      · cases hnone
      · exact functions.extends_markSynthetic name body
  | call name viewedAs => exact functions.extends_mark name false
  | stringConst id ty =>
    show functions.Extends (Instruction.stringCode id options functions).2
    unfold Instruction.stringCode
    dsimp only
    have hmark := functions.extends_mark (StringPool.accessor options) false
    have hoffset := (functions.mark (StringPool.accessor options) false).2.extends_markSynthetic
      (StringPool.offsetFunction options) (StringPool.constantBody 0)
    split_ifs
    · exact hmark.trans hoffset
    · exact hmark.trans hoffset
  | _ => exact .refl _

theorem emissions_eq_ok {i : Instruction} {options : Options} {types : TypeRegistry}
    {functions functions' : FunctionRegistry} {code : List Emission} :
    i.emissions options types functions = (.ok code, functions') ↔
      i.code options types functions = (.ok code, functions') := by
  unfold Instruction.emissions
  rcases i.code options types functions with ⟨result, after⟩
  rcases result with e | code'
  · simp [Except.mapError]
  · simp [Except.mapError]

theorem extends_emissions (i : Instruction) (options : Options) (types : TypeRegistry)
    (functions : FunctionRegistry) :
    functions.Extends (i.emissions options types functions).2 :=
  extends_code i options types functions

end WasmBackend
