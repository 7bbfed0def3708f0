import WasmBackend.Proofs.CallIndices

/-! # Functions up to renumbering

The numbers and the indices of functions depend on the order in which functions are asked for. A view
of a finished function is what does not: name, types of parameters, result and locals, and the
instructions, in which a call has the name of its callee in place of its index (`Shows`).

* `shows_of_encode`: a function shows the view of its draft.
* `view?_eq`: drafts whose code is the same up to the numbers of callees have the same view.
* `sameCode_of_bodyCode`: code of the same instructions in two registries is the same up to those. -/

namespace WasmBackend

/-! ### Names of callees -/

namespace FunctionRegistry

/-- The text by which the function with a number is known. -/
def key? (r : FunctionRegistry) (id : Nat) : Option String :=
  r.entries[id]?.map fun e => e.name.signatureName

/-- The text by which the function with an index in the finished module is known. -/
def keyAt? (r : FunctionRegistry) (index : Nat) : Option String :=
  ((List.range r.count).find? fun id => r.indexOf? id = some index).bind r.key?

theorem lt_of_indexOf? {r : FunctionRegistry} {id index : Nat} (h : r.indexOf? id = some index) :
    id < r.count := by
  obtain ⟨e, he, -⟩ := Option.map_eq_some_iff.mp h
  exact (List.getElem?_eq_some_iff.mp he).1

theorem key?_of_indexOf? {r : FunctionRegistry} {id index : Nat} (h : r.indexOf? id = some index) :
    ∃ key, r.key? id = some key :=
  ⟨_, congrArg (Option.map _) (List.getElem?_eq_getElem (lt_of_indexOf? h))⟩

theorem keyAt?_of_indexOf? {r : FunctionRegistry} {id index : Nat} (h : r.indexOf? id = some index) :
    r.keyAt? index = r.key? id := by
  have hid := lt_of_indexOf? h
  have hfound : (List.range r.count).find? (fun id => r.indexOf? id = some index) = some id := by
    rcases hfind : (List.range r.count).find? (fun id => r.indexOf? id = some index) with _ | id'
    · have hnone := List.find?_eq_none.mp hfind id (List.mem_range.mpr hid)
      exact absurd (decide_eq_true h) hnone
    · have hid' : r.indexOf? id' = some index := by simpa using List.find?_some hfind
      rw [indexOf?_inj hid' h]
  rw [keyAt?, hfound, Option.bind_some]

theorem key?_of_lookup {r : FunctionRegistry} {name : FunctionName} {id : Nat}
    (h : r.lookup name = some id) : r.key? id = some name.signatureName := by
  obtain ⟨e, he, hname⟩ := signatureName_of_lookup h
  rw [key?, he, Option.map_some, hname]

end FunctionRegistry

/-! ### Views -/

/-- An instruction in which a call names its callee. -/
inductive NamedOp
  | op (instr : TargetOp)
  | call (callee : String)
  deriving DecidableEq

/-- The instruction with the name of its callee in the place of the index. -/
def TargetOp.named? (r : FunctionRegistry) : TargetOp → Option NamedOp
  | .indexed .call index => (r.keyAt? index).map .call
  | instr => some (.op instr)

/-- What a function is, whatever its number and those of its callees. -/
structure FunctionView where
  name : String
  params : List WasmType
  result : Option WasmType
  /-- The types of the locals that are not parameters. -/
  locals : List WasmType
  code : List NamedOp
  deriving DecidableEq

/-- The view of a finished function. -/
structure Shows (r : FunctionRegistry) (e : EncodedFunction) (v : FunctionView) : Prop where
  name : v.name = e.name
  params : v.params = e.params
  result : v.result = e.result
  body : ∃ ops, e.bytes = functionBytes v.locals ops ∧ (∀ instr ∈ ops, instr.hasShape = true) ∧
    ops.mapM (TargetOp.named? r) = some v.code

namespace Emission

/-- The instruction that an emission stands for, with the name of its callee. -/
def named? (base : Nat) (scratch : List (Nat × WasmType)) (r : FunctionRegistry) :
    Emission → Option NamedOp
  | .op (.target instr) => some (.op instr)
  | .op (.scratchSet n ty) =>
    (scratch.idxOf? (n, ty)).map fun place => .op (.indexed .localSet (base + place))
  | .op (.scratchGet n ty) =>
    (scratch.idxOf? (n, ty)).map fun place => .op (.indexed .localGet (base + place))
  | .call _ callee _ => (r.key? callee).map .call

theorem named?_of_resolved {e : Emission} {n base : Nat} {scratch : List (Nat × WasmType)}
    {r : FunctionRegistry} {instr : TargetOp} (h : e.CallsBelow n)
    (hresolved : e.resolved? base scratch r = some instr) :
    instr.named? r = e.named? base scratch r := by
  rcases e with op | ⟨name, callee, viewedAs⟩
  · cases op with
    | target instr' =>
      cases hresolved
      unfold TargetOp.named?
      split
      · simp [Emission.CallsBelow] at h
      · rfl
    | scratchSet n ty =>
      obtain ⟨place, hplace, rfl⟩ := Option.map_eq_some_iff.mp hresolved
      simp only [named?, hplace]
      rfl
    | scratchGet n ty =>
      obtain ⟨place, hplace, rfl⟩ := Option.map_eq_some_iff.mp hresolved
      simp only [named?, hplace]
      rfl
  · obtain ⟨index, hindex, rfl⟩ := Option.map_eq_some_iff.mp hresolved
    simp only [TargetOp.named?, named?, FunctionRegistry.keyAt?_of_indexOf? hindex]

theorem exists_named {e : Emission} {base : Nat} {scratch : List (Nat × WasmType)}
    {r : FunctionRegistry} {instr : TargetOp}
    (h : e.resolved? base scratch r = some instr) : ∃ named, e.named? base scratch r = some named := by
  rcases e with op | ⟨name, callee, viewedAs⟩
  · cases op with
    | target instr' => exact ⟨_, rfl⟩
    | scratchSet n ty | scratchGet n ty =>
      obtain ⟨place, hplace, -⟩ := Option.map_eq_some_iff.mp h
      exact ⟨_, congrArg (Option.map _) hplace⟩
  · obtain ⟨index, hindex, -⟩ := Option.map_eq_some_iff.mp h
    obtain ⟨key, hkey⟩ := FunctionRegistry.key?_of_indexOf? hindex
    exact ⟨_, congrArg (Option.map _) hkey⟩

end Emission

/-- The view of a draft in a registry. -/
def FunctionDraft.view? (r : FunctionRegistry) (f : FunctionDraft) : Option FunctionView :=
  (f.body.mapM (Emission.named? f.scratchBase (scratchLocals f.body) r)).map fun code =>
    { name := f.name, params := f.params, result := f.result
      locals := localTypes f.locals f.body, code }

theorem named?_of_resolvedAll {code : List Emission} {n base : Nat}
    {scratch : List (Nat × WasmType)} {r : FunctionRegistry} {ops : List TargetOp}
    (h : ∀ e ∈ code, e.CallsBelow n)
    (hresolved : code.mapM (Emission.resolved? base scratch r) = some ops) :
    ops.mapM (TargetOp.named? r) = code.mapM (Emission.named? base scratch r) := by
  induction code generalizing ops with
  | nil =>
    cases hresolved
    rfl
  | cons e rest ih =>
    simp only [List.mapM_cons, Option.bind_eq_bind, Option.bind_eq_some_iff, Option.pure_def,
      Option.some.injEq] at hresolved
    obtain ⟨instr, hinstr, others, hothers, rfl⟩ := hresolved
    have hrest := ih (fun e' he' => h e' (List.mem_cons_of_mem _ he')) hothers
    have hhead := Emission.named?_of_resolved (h e List.mem_cons_self) hinstr
    rw [List.mapM_cons, List.mapM_cons, hhead, hrest]

/-- A draft that can be finished has a view. -/
theorem exists_view {f : FunctionDraft} {r : FunctionRegistry} {e : EncodedFunction}
    (hencode : f.encode (.ofRegistry r) = .ok e) : ∃ v, f.view? r = some v := by
  obtain ⟨ops, hfinishes⟩ := FunctionDraft.encode_eq_ok hencode
  have hcode := hfinishes.code
  have hnamed : ∃ code, f.body.mapM (Emission.named? f.scratchBase (scratchLocals f.body) r) =
      some code := by
    generalize scratchLocals f.body = scratch at hcode ⊢
    generalize f.body = body at hcode ⊢
    clear hfinishes
    induction body generalizing ops with
    | nil => exact ⟨[], rfl⟩
    | cons head rest ih =>
      simp only [List.mapM_cons, Option.bind_eq_bind, Option.bind_eq_some_iff, Option.pure_def,
        Option.some.injEq] at hcode
      obtain ⟨instr, hinstr, others, hothers, -⟩ := hcode
      obtain ⟨named, hnamed⟩ := Emission.exists_named hinstr
      obtain ⟨more, hmore⟩ := ih others hothers
      exact ⟨named :: more, by rw [List.mapM_cons, hnamed, hmore]; rfl⟩
  obtain ⟨code, hnamed⟩ := hnamed
  exact ⟨_, congrArg _ hnamed⟩

/-- **A finished function shows the view of its draft.** -/
theorem shows_of_encode {f : FunctionDraft} {r : FunctionRegistry} {e : EncodedFunction}
    {v : FunctionView} (hcalls : f.CallsBelow r.count) (hencode : f.encode (.ofRegistry r) = .ok e)
    (hview : f.view? r = some v) : Shows r e v := by
  obtain ⟨ops, hfinishes⟩ := FunctionDraft.encode_eq_ok hencode
  obtain ⟨code, hcode, rfl⟩ := Option.map_eq_some_iff.mp hview
  refine ⟨hfinishes.name.symm, hfinishes.params.symm, hfinishes.result.symm, ops, hfinishes.bytes,
    fun instr hinstr => ?_, ?_⟩
  · obtain ⟨e', he', hresolved⟩ := hfinishes.origin instr hinstr
    exact ((hcalls.2 e' he').resolved? hresolved).1
  · rw [named?_of_resolvedAll hcalls.2 hfinishes.code]
    exact hcode

/-! ### The same code in two registries -/

/-- The operation of an emission that is no call. -/
def Emission.op? : Emission → Option CodeOp
  | .op operation => some operation
  | .call _ _ _ => none

/-- The emissions are the same operation, or calls of functions with the same name. -/
structure SameEmission (r r' : FunctionRegistry) (e e' : Emission) : Prop where
  op : e.op? = e'.op?
  callee : e.callee?.bind r.key? = e'.callee?.bind r'.key?

theorem SameEmission.scratch? {r r' : FunctionRegistry} {e e' : Emission}
    (h : SameEmission r r' e e') : e.scratch? = e'.scratch? := by
  have hop := h.op
  cases e with
  | op op =>
    cases e' with
    | op op' =>
      cases hop
      rfl
    | call name callee viewedAs => cases hop
  | call name callee viewedAs =>
    cases e' with
    | op op' => cases hop
    | call name' callee' viewedAs' => rfl

theorem SameEmission.named? {r r' : FunctionRegistry} {e e' : Emission} (h : SameEmission r r' e e')
    (base : Nat) (scratch : List (Nat × WasmType)) :
    e.named? base scratch r = e'.named? base scratch r' := by
  have hop := h.op
  have hcallee := h.callee
  cases e with
  | op op =>
    cases e' with
    | op op' =>
      cases hop
      cases op <;> rfl
    | call name callee viewedAs => cases hop
  | call name callee viewedAs =>
    cases e' with
    | op op' => cases hop
    | call name' callee' viewedAs' => exact congrArg (Option.map NamedOp.call) hcallee

/-- Code that is the same up to the numbers of callees. -/
abbrev SameCode (r r' : FunctionRegistry) : List Emission → List Emission → Prop :=
  List.Forall₂ (SameEmission r r')

section SameCode

variable {r r' : FunctionRegistry} {code code' : List Emission}

theorem SameCode.scratchLocals (h : SameCode r r' code code') :
    scratchLocals code = scratchLocals code' := by
  have hscratch : code.filterMap Emission.scratch? = code'.filterMap Emission.scratch? := by
    induction h with
    | nil => rfl
    | cons hhead _ ih => rw [List.filterMap_cons, List.filterMap_cons, hhead.scratch?, ih]
  rw [WasmBackend.scratchLocals, WasmBackend.scratchLocals, hscratch]

theorem SameCode.named? (h : SameCode r r' code code') (base : Nat)
    (scratch : List (Nat × WasmType)) :
    code.mapM (Emission.named? base scratch r) = code'.mapM (Emission.named? base scratch r') := by
  induction h with
  | nil => rfl
  | cons hhead _ ih => rw [List.mapM_cons, List.mapM_cons, hhead.named?, ih]

/-- **Drafts with the same code have the same view.** -/
theorem view?_eq {f f' : FunctionDraft} (hname : f.name = f'.name) (hparams : f.params = f'.params)
    (hresult : f.result = f'.result) (hlocals : f.locals = f'.locals)
    (hbody : SameCode r r' f.body f'.body) : f.view? r = f'.view? r' := by
  have hscratch := hbody.scratchLocals
  have hbase : f.scratchBase = f'.scratchBase := by
    rw [FunctionDraft.scratchBase, FunctionDraft.scratchBase, hparams, hlocals]
  have hcode := hbody.named? f'.scratchBase (scratchLocals f'.body)
  unfold FunctionDraft.view? localTypes
  rw [hname, hparams, hresult, hlocals, hbase, hscratch, hcode]

theorem sameCode_op (ops : List CodeOp) : SameCode r r' (ops.map .op) (ops.map .op) := by
  induction ops with
  | nil => exact .nil
  | cons op rest ih => exact .cons ⟨rfl, rfl⟩ ih

/-- Code with the same operations that calls the same functions is the same. -/
theorem sameCode_of_calls {names : List FunctionName}
    (hops : code.map Emission.op? = code'.map Emission.op?) (hcalls : CallsNamed r names code)
    (hcalls' : CallsNamed r' names code') : SameCode r r' code code' := by
  unfold CallsNamed at hcalls hcalls'
  induction code generalizing code' names with
  | nil =>
    obtain rfl := List.map_eq_nil_iff.mp hops.symm
    exact .nil
  | cons e rest ih =>
    cases code' with
    | nil => cases hops
    | cons e' rest' =>
      obtain ⟨hhead, hrest⟩ := List.cons.inj hops
      cases e with
      | op op =>
        cases e' with
        | op op' => exact .cons ⟨hhead, rfl⟩ (ih hrest hcalls hcalls')
        | call name' callee' viewedAs' => cases hhead
      | call name callee viewedAs =>
        cases e' with
        | op op' => cases hhead
        | call name' callee' viewedAs' =>
          obtain ⟨callee₀, names₀, hlookup, hothers, rfl⟩ := List.forall₂_cons_right_iff.mp hcalls
          obtain ⟨hlookup', hothers'⟩ := List.forall₂_cons.mp hcalls'
          refine .cons ⟨rfl, ?_⟩ (ih hrest hothers hothers')
          exact (FunctionRegistry.key?_of_lookup hlookup).trans
            (FunctionRegistry.key?_of_lookup hlookup').symm

end SameCode

/-! ### Code of the same instructions -/

section Instructions

variable {options : Options} {types : TypeRegistry}

theorem map_op?_arrayCode (op : ArrayOp) (element : OperandType) (array : Nat)
    (r r' : FunctionRegistry) :
    (Instruction.arrayCode op element array options types r).1.map (List.map Emission.op?) =
      (Instruction.arrayCode op element array options types r').1.map (List.map Emission.op?) := by
  unfold Instruction.arrayCode
  rcases ha : types.arrayClass array with e | a
  · simp [ArrayProfile.select, ha, bind, Except.bind]
  · rcases hhelper : ArrayProfile.helper? op a types options with e | _ | ⟨name, body⟩
    · simp [ArrayProfile.select, ha, hhelper, bind, Except.bind]
    · rw [select_of_inline ha hhelper r, select_of_inline ha hhelper r']
    · obtain ⟨entry, hentry⟩ := r.entry_markSynthetic name body
      obtain ⟨entry', hentry'⟩ := r'.entry_markSynthetic name body
      rw [select_of_helper ha hhelper r, select_of_helper ha hhelper r']
      simp only [hentry, hentry']
      rfl

theorem map_op?_code (i : Instruction) (r r' : FunctionRegistry) :
    (i.code options types r).1.map (List.map Emission.op?) =
      (i.code options types r').1.map (List.map Emission.op?) := by
  rcases i with ⟨position, kind⟩
  cases kind with
  | loadStore op slot ty resolved => cases resolved <;> rfl
  | array op element array => exact map_op?_arrayCode op element array r r'
  | call name viewedAs =>
    simp only [Instruction.code]
    rcases types.lowerResult viewedAs with e | ty <;> rfl
  | stringConst id ty =>
    simp only [Instruction.code, Instruction.stringCode]
    split_ifs <;> rfl
  | _ => rfl

/-- **Code of the same instructions is the same**, up to the numbers of callees. -/
theorem sameCode_of_bodyCode {body : List Instruction} {r₀ r r₀' r' : FunctionRegistry}
    {code code' : List Emission} (h : bodyCode options types r₀ body = some (code, r))
    (h' : bodyCode options types r₀' body = some (code', r')) {later later' : FunctionRegistry}
    (hlater : r.Extends later) (hlater' : r'.Extends later') : SameCode later later' code code' := by
  have hops : code.map Emission.op? = code'.map Emission.op? := by
    clear hlater hlater'
    induction body generalizing r₀ r₀' code code' with
    | nil =>
      cases h
      cases h'
      rfl
    | cons i rest ih =>
      obtain ⟨first, next, more, hfirst, hmore, rfl⟩ := bodyCode_cons.mp h
      obtain ⟨first', next', more', hfirst', hmore', rfl⟩ := bodyCode_cons.mp h'
      have hhead : (i.code options types r₀).1.map (List.map Emission.op?) =
          (i.code options types r₀').1.map (List.map Emission.op?) := map_op?_code i r₀ r₀'
      rw [hfirst, hfirst'] at hhead
      rw [List.map_append, List.map_append, Except.ok.inj hhead, ih hmore hmore']
  exact sameCode_of_calls hops ((callsNamed_bodyCode h).mono hlater)
    ((callsNamed_bodyCode h').mono hlater')

end Instructions

end WasmBackend
