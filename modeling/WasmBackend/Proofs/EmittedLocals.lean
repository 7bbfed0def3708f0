import WasmBackend.Proofs.CompileVerdict
import WasmBackend.Proofs.Recompilation
import WasmBackend.Proofs.RelatedLists
import WasmBackend.Proofs.WrittenCode

/-! # Locals of emitted code

The locals of a function come from three places: its parameters, the slots that its instructions
name, and the scratch locals that generated code needs for itself. They are numbered in this order
(`FunctionDraft.allLocals`), the scratch locals only after all slots are known.

* `lowerAll_types`: the parameters and declared locals of a draft are the locals that the verifier
  knew, each with the lowering of its type.
* `scratchIndex_eq_iff`, `allLocals_scratchIndex`: a scratch local has a place of its own behind them,
  declared with its type.
* `local?_code`: code that is generated for anything but an access to a local uses only scratch locals.

`emitted_locals` puts them together for every function that compiles. -/

namespace WasmBackend

/-! ### Locals by index -/

/-- The local that a target instruction reads or writes. -/
def TargetOp.local? : TargetOp → Option Nat
  | .indexed .localGet index | .indexed .localSet index | .indexed .localTee index => some index
  | _ => none

/-- The local that an item of code reads or writes. -/
def BodyOp.local? : BodyOp → Option Nat
  | .op instr => instr.local?
  | .call _ _ _ => none

/-- The local that an emission names by its index. -/
def Emission.local? : Emission → Option Nat
  | .op (.target instr) => instr.local?
  | _ => none

theorem TargetOp.local?_variableOp (op : VariableOp) (index : Nat) :
    (op.code index).local? = some index := by
  cases op <;> rfl

theorem Emission.local?_place_of_scratch (index : Nat × WasmType → Nat) {e : Emission}
    {key : Nat × WasmType} (h : e.scratch? = some key) :
    (e.place index).local? = some (index key) := by
  unfold Emission.scratch? at h
  split at h
  · cases h
    rfl
  · cases h
    rfl
  · cases h

/-! ### Places of scratch locals -/

namespace FunctionDraft

variable (f : FunctionDraft)

/-- Types of all locals in index order: parameters, declared locals, scratch locals. -/
def allLocals : List WasmType := f.params ++ f.declared

/-- The index of a scratch local. -/
def scratchIndex (key : Nat × WasmType) : Nat := f.scratchBase + f.scratch.idxOf key

theorem code_eq_map_place : f.code = f.body.map (Emission.place f.scratchIndex) := rfl

theorem allLocals_eq : f.allLocals = f.params ++ f.locals ++ f.scratch.map Prod.snd :=
  (List.append_assoc ..).symm

theorem length_allLocals :
    f.allLocals.length = f.params.length + f.locals.length + f.scratch.length := by
  rw [allLocals_eq, List.length_append, List.length_append, List.length_map]

variable {f} {key key' : Nat × WasmType}

theorem mem_scratch {e : Emission} (he : e ∈ f.body) (hkey : e.scratch? = some key) :
    key ∈ f.scratch := by
  rw [scratch_eq]
  exact mem_scratchLocals he hkey

/-- **A scratch local is declared with its type.** -/
theorem allLocals_scratchIndex (h : key ∈ f.scratch) :
    f.allLocals[f.scratchIndex key]? = some key.2 := by
  have hbase : (f.params ++ f.locals).length = f.scratchBase := List.length_append
  have hplace := (idxOf?_of_mem h).2
  rw [allLocals_eq, scratchIndex, List.getElem?_append_right (by omega), hbase,
    Nat.add_sub_cancel_left, List.getElem?_map, List.getElem?_eq_getElem hplace,
    List.getElem_idxOf hplace]
  rfl

/-- What is written for an emission: an access to a scratch local is one to a local behind parameters
and declared locals that is declared with the type of the scratch local. -/
inductive WrittenAs (f : FunctionDraft) : Emission → BodyOp → Prop
  | target (instr : TargetOp) : WrittenAs f (.target instr) (.op instr)
  | call (name : FunctionName) (callee : Nat) (viewedAs : Option WasmType) :
      WrittenAs f (.call name callee viewedAs) (.call name callee viewedAs)
  | scratchSet {n index : Nat} {ty : WasmType} : f.params.length + f.locals.length ≤ index →
      f.allLocals[index]? = some ty →
      WrittenAs f (.op (.scratchSet n ty)) (.op (.indexed .localSet index))
  | scratchGet {n index : Nat} {ty : WasmType} : f.params.length + f.locals.length ≤ index →
      f.allLocals[index]? = some ty →
      WrittenAs f (.op (.scratchGet n ty)) (.op (.indexed .localGet index))

theorem writtenAs_place {e : Emission} (he : e ∈ f.body) :
    WrittenAs f e (e.place f.scratchIndex) := by
  rcases e with op | ⟨name, callee, viewedAs⟩
  · cases op with
    | target instr => exact .target instr
    | scratchSet n ty =>
      exact .scratchSet (Nat.le_add_right _ _) (allLocals_scratchIndex (mem_scratch he rfl))
    | scratchGet n ty =>
      exact .scratchGet (Nat.le_add_right _ _) (allLocals_scratchIndex (mem_scratch he rfl))
  · exact .call name callee viewedAs

/-- What is written accesses a local that the emission names, or one that is declared. -/
theorem WrittenAs.local?_eq {e : Emission} {o : BodyOp} (h : WrittenAs f e o) {index : Nat}
    (hindex : o.local? = some index) : e.local? = some index ∨ index < f.allLocals.length := by
  cases h with
  | target instr => exact .inl hindex
  | call name callee viewedAs => cases hindex
  | scratchSet _ hdeclared =>
    cases hindex
    exact .inr (List.getElem?_eq_some_iff.mp hdeclared).1
  | scratchGet _ hdeclared =>
    cases hindex
    exact .inr (List.getElem?_eq_some_iff.mp hdeclared).1

/-- **Scratch locals share a place only if they are the same.** -/
theorem scratchIndex_eq_iff (h : key ∈ f.scratch) :
    f.scratchIndex key = f.scratchIndex key' ↔ key = key' := by
  unfold scratchIndex
  rw [Nat.add_left_cancel_iff]
  exact List.idxOf_inj h

end FunctionDraft

/-! ### Code without accesses to locals -/

theorem local?_of_isUnindexed {op : TargetOp} (h : op.isUnindexed = true) : op.local? = none := by
  obtain ⟨-, hindices⟩ := Bool.and_eq_true_iff.mp h
  cases op with
  | indexed opcode index => cases hindices
  | _ => rfl

theorem local?_map_target {ops : List TargetOp} (h : Unindexed ops) :
    ∀ e ∈ ops.map Emission.target, e.local? = none := by
  intro e he
  obtain ⟨op, hop, rfl⟩ := List.mem_map.mp he
  exact local?_of_isUnindexed (h op hop)

theorem local?_inlineCode {op : ArrayOp} {a : ArrayClass} {ops : List CodeOp}
    (h : op.inlineCode a = .ok ops) : ∀ e ∈ ops.map Emission.op, e.local? = none := by
  obtain ⟨native, -, h⟩ := bind_eq_ok.mp h
  cases op with
  | new | newWithDescriptor => cases h
  | get | getSigned | getUnsigned =>
    cases h
    intro e he
    simp only [List.map_cons, List.map_nil, List.mem_cons, List.not_mem_nil, or_false] at he
    rcases he with rfl | rfl | rfl | rfl
    · rfl
    · rfl
    · rfl
    · simp only [Emission.local?]
      rcases Typing.readOpcode_cases _ native.storage with ⟨-, h | h, -⟩ | ⟨-, h, -⟩
      · rw [h]
        rfl
      · rw [h]
        rfl
      · rw [h]
        rfl
  | set | len =>
    cases h
    simp [ArrayClass.loadBuffer, Emission.local?, TargetOp.local?]

theorem local?_arrayCode {op : ArrayOp} {element : OperandType} {array : Nat} {options : Options}
    {types : TypeRegistry} {functions : FunctionRegistry} {code : List Emission}
    (h : (Instruction.arrayCode op element array options types functions).1 = .ok code) :
    ∀ e ∈ code, e.local? = none := by
  unfold Instruction.arrayCode at h
  split at h
  · cases h
  · obtain ⟨a, -, h⟩ := bind_eq_ok.mp h
    obtain ⟨ops, hops, h⟩ := bind_eq_ok.mp h
    cases h
    exact local?_inlineCode hops
  · obtain ⟨entry, -, h⟩ := bind_eq_ok.mp h
    cases h
    intro e he
    rcases List.mem_cons.mp he with rfl | hrest
    · rfl
    · exact local?_map_target (unindexed_hostExtension op element) e hrest

namespace Instruction

/-- The access to a local that the instruction stands for. -/
def access? (i : Instruction) : Option (VariableOp × Nat) :=
  match i.kind with
  | .localVar op index _ => some (op, index)
  | .loadStore op _ _ resolved => resolved.map fun index => (op, index)
  | _ => none

section Code

variable {i : Instruction} {options : Options} {types : TypeRegistry}
  {functions functions' : FunctionRegistry} {code : List Emission}

theorem code_of_access? {op : VariableOp} {index : Nat} (h : i.access? = some (op, index))
    (hcode : i.code options types functions = (.ok code, functions')) :
    code = [.target (op.code index)] := by
  obtain ⟨position, kind⟩ := i
  cases kind with
  | localVar op' index' known =>
    cases h
    cases hcode
    rfl
  | loadStore op' slot ty resolved =>
    obtain ⟨index', rfl, hop⟩ := Option.map_eq_some_iff.mp h
    cases hop
    cases hcode
    rfl
  | _ => cases h

/-- **Other instructions access scratch locals at most.** -/
theorem local?_code (h : i.access? = none)
    (hcode : i.code options types functions = (.ok code, functions')) :
    ∀ e ∈ code, e.local? = none := by
  obtain ⟨position, kind⟩ := i
  have hresult := congrArg Prod.fst hcode
  cases kind with
  | const value =>
    cases hresult
    intro e he
    obtain rfl := List.mem_singleton.mp he
    exact local?_of_isUnindexed (isUnindexed_literal value)
  | convert conversion =>
    cases hresult
    exact local?_map_target (unindexed_conversion conversion)
  | localVar op index known => cases h
  | loadStore op slot ty resolved =>
    cases resolved with
    | none => cases hresult
    | some index => cases h
  | numeric op ty =>
    obtain ⟨ops, hops, rfl⟩ := map_eq_ok.mp hresult
    exact local?_map_target (unindexed_numericOp hops)
  | array op element array => exact local?_arrayCode hresult
  | call name viewedAs =>
    obtain ⟨ty, -, rfl⟩ := map_eq_ok.mp hresult
    intro e he
    obtain rfl := List.mem_singleton.mp he
    rfl
  | stringConst id ty =>
    simp only [Instruction.code, stringCode] at hresult
    split_ifs at hresult
    cases hresult
    intro e he
    simp only [List.mem_cons, List.not_mem_nil, or_false] at he
    rcases he with rfl | rfl <;> rfl
  | control op ty depth =>
    obtain ⟨pops, -, rfl⟩ := map_eq_ok.mp hresult
    intro e he
    obtain rfl := List.mem_singleton.mp he
    cases op <;> rfl

end Code

end Instruction

/-! ### Locals that the verifier knows -/

namespace SlotTable

theorem grows_addParamsFrom {t₀ t t' : SlotTable} (h : Grows t₀ t) {params : List OperandType}
    {slot : Nat} (hparams : t.addParamsFrom slot params = .ok t') : Grows t₀ t' := by
  induction params generalizing t slot with
  | nil =>
    cases hparams
    exact h
  | cons ty rest ih =>
    unfold addParamsFrom at hparams
    split at hparams
    · next index next hadd => exact ih (h.addParam hadd) hparams
    · cases hparams

end SlotTable

namespace Instruction

/-- The instruction remembers nothing of a function it was used in. -/
def isFresh (i : Instruction) : Bool :=
  match i.kind with
  | .localVar _ _ known => known.isNone
  | .loadStore _ _ _ resolved => resolved.isNone
  | _ => true

/-- What the instruction names is a local of the table. A slot has a local of its own type; the type
of a local is the one in the table. -/
def Settled (slots : SlotTable) (i : Instruction) : Prop :=
  match i.kind with
  | .localVar _ _ known => known = none
  | .loadStore _ _ ty resolved =>
    ∃ index, resolved = some index ∧ slots.typeOf index = .ok ty.widened
  | _ => True

theorem grows_resolve {t₀ t : SlotTable} (h : t₀.Grows t) (i : Instruction) :
    t₀.Grows (i.resolve t).2 := by
  unfold resolve
  split
  · exact h.resolve _ _
  · exact h

theorem grows_resolveAll {t₀ t : SlotTable} (h : t₀.Grows t) (body : List Instruction) :
    t₀.Grows (resolveAll body t).2 := by
  induction body generalizing t with
  | nil => exact h
  | cons i rest ih => exact ih (grows_resolve h i)

theorem Settled.mono {t t' : SlotTable} (hgrows : t.Grows t') {i : Instruction} (h : i.Settled t) :
    i.Settled t' := by
  obtain ⟨position, kind⟩ := i
  cases kind with
  | loadStore op slot ty resolved =>
    obtain ⟨index, rfl, hty⟩ := h
    exact ⟨index, rfl, hgrows.typeOf hty⟩
  | _ => exact h

theorem settled_resolve {t : SlotTable} (ht : SlotTable.Grows {} t) {i : Instruction}
    (h : i.isFresh = true) : (i.resolve t).1.Settled (i.resolve t).2 := by
  obtain ⟨position, kind⟩ := i
  cases kind with
  | localVar op index known => exact Option.isNone_iff_eq_none.mp h
  | loadStore op slot ty resolved =>
    obtain rfl := Option.isNone_iff_eq_none.mp h
    exact ⟨_, rfl, SlotTable.typeOf_resolve ht rfl⟩
  | _ => trivial

theorem settled_resolveAll {t : SlotTable} (ht : SlotTable.Grows {} t) {body : List Instruction}
    (h : ∀ i ∈ body, i.isFresh = true) :
    ∀ i ∈ (resolveAll body t).1, i.Settled (resolveAll body t).2 := by
  induction body generalizing t with
  | nil =>
    intro i hi
    cases hi
  | cons head rest ih =>
    intro i hi
    rcases List.mem_cons.mp hi with rfl | hrest
    · exact (settled_resolve ht (h head List.mem_cons_self)).mono
        (grows_resolveAll .refl rest)
    · exact ih (grows_resolve ht head) (fun i' hi' => h i' (List.mem_cons_of_mem _ hi')) i hrest

/-- The verifier takes the instruction for an access to a local of a type. -/
structure AccessesAs (slots : SlotTable) (i : Instruction) (op : VariableOp) (ty : OperandType) :
    Prop where
  pops : i.popTypes slots = .ok (if op = .get then [] else [ty])
  pushes : i.pushType slots = .ok (if op = .set then none else some ty)

/-- The verifier accesses a local with the type that the table has for it. -/
theorem Settled.accessesAs {slots : SlotTable} {i : Instruction} (h : i.Settled slots)
    {op : VariableOp} {index : Nat} (haccess : i.access? = some (op, index))
    {pops : List OperandType} {pushed : Option OperandType} (hpops : i.popTypes slots = .ok pops)
    (hpushed : i.pushType slots = .ok pushed) :
    ∃ ty, i.AccessesAs slots op ty ∧ slots.typeOf index = .ok ty := by
  obtain ⟨position, kind⟩ := i
  cases kind with
  | localVar op' index' known =>
    cases haccess
    obtain rfl : known = none := h
    obtain ⟨ty, hty⟩ : ∃ ty, slots.typeOf index = .ok ty := by
      cases op with
      | get =>
        obtain ⟨ty, hty, -⟩ := map_eq_ok.mp hpushed
        exact ⟨ty, hty⟩
      | set | tee =>
        obtain ⟨ty, hty, -⟩ := map_eq_ok.mp hpops
        exact ⟨ty, hty⟩
    refine ⟨ty, ⟨?_, ?_⟩, hty⟩
    · cases op <;> simp [popTypes, localType, hty, Except.map]
    · cases op <;> simp [pushType, localType, hty, Except.map]
  | loadStore op' slot ty resolved =>
    obtain ⟨index', rfl, hty⟩ := h
    cases haccess
    exact ⟨ty.widened, ⟨by cases op <;> rfl, by cases op <;> rfl⟩, hty⟩
  | _ => cases haccess

end Instruction

theorem Verifier.contract_of_accepts {ctx : Context} {s : State} {body : List Instruction}
    (h : Accepts ctx s body) {i : Instruction} (hi : i ∈ body) :
    ∃ pops pushed, i.popTypes ctx.slots = .ok pops ∧ i.pushType ctx.slots = .ok pushed := by
  induction body generalizing s with
  | nil => cases hi
  | cons head rest ih =>
    obtain ⟨s', hstep, hrest⟩ := accepts_cons.mp h
    rcases List.mem_cons.mp hi with rfl | hi
    · obtain ⟨-, pops, frame, pushed, hpops, -, hpushed, -⟩ := step_eq_ok.mp hstep
      exact ⟨pops, pushed, hpops, hpushed⟩
    · exact ih hrest hi

/-! ### Lowered locals -/

namespace TypeRegistry

variable {types : TypeRegistry}

theorem lowerAll_append {tys tys' : List OperandType} {ws ws' : List WasmType}
    (h : types.lowerAll tys = .ok ws) (h' : types.lowerAll tys' = .ok ws') :
    types.lowerAll (tys ++ tys') = .ok (ws ++ ws') := by
  induction tys generalizing ws with
  | nil =>
    cases h
    exact h'
  | cons ty rest ih =>
    obtain ⟨w, ws₁, hw, hws₁, rfl⟩ := Typing.lowerAll_cons_eq_ok.mp h
    exact Typing.lowerAll_cons_eq_ok.mpr ⟨w, ws₁ ++ ws', hw, ih hws₁, rfl⟩

theorem lower_getElem? {tys : List OperandType} {ws : List WasmType}
    (h : types.lowerAll tys = .ok ws) {index : Nat} {ty : OperandType}
    (hty : tys[index]? = some ty) : ∃ w, types.lower ty = .ok w ∧ ws[index]? = some w := by
  induction tys generalizing ws index with
  | nil => cases hty
  | cons head rest ih =>
    obtain ⟨w, ws', hw, hws', rfl⟩ := Typing.lowerAll_cons_eq_ok.mp h
    cases index with
    | zero =>
      cases hty
      exact ⟨w, hw, rfl⟩
    | succ index => exact ih hws' hty

end TypeRegistry

/-! ### Code of a body, instruction by instruction -/

theorem exists_pieces {options : Options} {types : TypeRegistry}
    {functions functions' : FunctionRegistry} {body : List Instruction} {code : List Emission}
    (h : bodyCode options types functions body = some (code, functions')) :
    ∃ pieces, code = pieces.flatten ∧
      List.Forall₂ (fun i piece => ∃ r r', i.code options types r = (.ok piece, r')) body pieces := by
  induction body generalizing functions code with
  | nil =>
    cases h
    exact ⟨[], rfl, .nil⟩
  | cons i rest ih =>
    obtain ⟨first, next, more, hfirst, hmore, rfl⟩ := bodyCode_cons.mp h
    obtain ⟨pieces, rfl, hpieces⟩ := ih hmore
    exact ⟨first :: pieces, rfl, .cons ⟨functions, next, hfirst⟩ hpieces⟩

/-- The code of an instruction, each emission with what is written for it, and what it does with the
locals of a function. An access to a local is that access, to a local declared with the lowering of
the type that the verifier saw; any other instruction names no local. -/
structure UsesLocals (c : ModuleCompiler) (f : FunctionDraft) (slots : SlotTable)
    (i : Instruction) (piece : List (Emission × BodyOp)) : Prop where
  code : ∃ r r', i.code c.options c.types r = (.ok (piece.map Prod.fst), r')
  access : ∀ op index, i.access? = some (op, index) →
    piece = [(.target (op.code index), .op (op.code index))] ∧ ∃ ty lowered,
      i.AccessesAs slots op ty ∧ c.types.lower ty = .ok lowered ∧
        f.allLocals[index]? = some lowered
  other : i.access? = none → ∀ x ∈ piece, x.1.local? = none

theorem UsesLocals.lt {c : ModuleCompiler} {f : FunctionDraft} {slots : SlotTable}
    {i : Instruction} {piece : List (Emission × BodyOp)} (h : UsesLocals c f slots i piece)
    {x : Emission × BodyOp} (hx : x ∈ piece) (hwritten : f.WrittenAs x.1 x.2) {index : Nat}
    (hindex : x.2.local? = some index) : index < f.allLocals.length := by
  rcases haccess : i.access? with _ | ⟨op, place⟩
  · rcases hwritten.local?_eq hindex with hnamed | hlt
    · rw [h.other haccess x hx] at hnamed
      cases hnamed
    · exact hlt
  · obtain ⟨rfl, ty, lowered, -, -, hdeclared⟩ := h.access op place haccess
    obtain rfl := List.mem_singleton.mp hx
    rw [BodyOp.local?, TargetOp.local?_variableOp] at hindex
    cases hindex
    exact (List.getElem?_eq_some_iff.mp hdeclared).1

namespace ModuleCompiler

variable {c : ModuleCompiler} {w : ModuleWriter} {code : FunctionCode}

theorem lowered_of_draft {id : Nat} {name : FunctionName} {locals : List OperandType}
    {f : FunctionDraft} (h : c.draft id name locals = .ok f) :
    c.types.lowerAll name.params = .ok f.params ∧ c.types.lowerAll locals = .ok f.locals ∧
      f.body = [] := by
  simp only [draft, bind_eq_ok, pure_eq_ok] at h
  obtain ⟨params, hparams, result, -, lowered, hlowered, rfl⟩ := h
  exact ⟨hparams, hlowered, rfl⟩

/-- The function with all its code. -/
def Stages.complete (s : Stages c w code) : FunctionDraft := s.draft.extend s.emitted

/-- **The parameters and declared locals are those that the verifier knew, lowered.** -/
theorem Stages.lowerAll_types (s : Stages c w code) :
    c.types.lowerAll s.slots.types = .ok (s.complete.params ++ s.complete.locals) := by
  obtain ⟨params, hof, htypes⟩ := SlotTable.exists_ofParams code.name.params
  cases hof.symm.trans s.ofParams
  have hgrows : s.params.Grows (Instruction.resolveAll code.instructions s.params).2 :=
    Instruction.grows_resolveAll .refl code.instructions
  have hcount := (Instruction.size_le_resolveAll code.instructions s.params).2
  rw [s.resolveAll] at hgrows hcount
  obtain ⟨more, hmore⟩ := hgrows.isPrefix_types
  have hlocals : s.slots.localTypes = more := by
    rw [SlotTable.localTypes, hcount, ← SlotTable.size_ofParams s.ofParams, ← hmore]
    exact List.drop_left
  obtain ⟨hlowered, hdeclared, -⟩ := lowered_of_draft s.drafted
  rw [← Typing.lowerAll_map_widened, ← htypes] at hlowered
  rw [hlocals] at hdeclared
  rw [← hmore]
  exact TypeRegistry.lowerAll_append hlowered hdeclared

theorem Stages.body_complete (s : Stages c w code) : s.complete.body = s.emitted := by
  obtain ⟨-, -, hempty⟩ := lowered_of_draft s.drafted
  rw [Stages.complete, FunctionDraft.extend, hempty, List.nil_append]

/-- Emissions, each with what is written for it. -/
def Stages.items (s : Stages c w code) (piece : List Emission) : List (Emission × BodyOp) :=
  piece.map fun e => (e, e.place s.complete.scratchIndex)

theorem Stages.usesLocals (s : Stages c w code) {i : Instruction} (hi : i ∈ s.body)
    (hsettled : i.Settled s.slots) {piece : List Emission} {r r' : FunctionRegistry}
    (hcode : i.code c.options c.types r = (.ok piece, r')) :
    UsesLocals c s.complete s.slots i (s.items piece) where
  code := by
    refine ⟨r, r', ?_⟩
    simpa [Stages.items, Function.comp_def] using hcode
  access := by
    intro op index haccess
    obtain ⟨pops, pushed, hpops, hpushed⟩ :=
      Verifier.contract_of_accepts (Verifier.accepts_iff_verify.mpr s.verify) hi
    obtain ⟨ty, has, hty⟩ := hsettled.accessesAs haccess hpops hpushed
    obtain ⟨lowered, hlowered, hdeclared⟩ :=
      TypeRegistry.lower_getElem? s.lowerAll_types (SlotTable.typeOf_eq_ok.mp hty)
    have hlocal : s.complete.allLocals[index]? = some lowered := by
      rw [FunctionDraft.allLocals_eq,
        List.getElem?_append_left (List.getElem?_eq_some_iff.mp hdeclared).1]
      exact hdeclared
    rw [Instruction.code_of_access? haccess hcode]
    exact ⟨rfl, ty, lowered, has, hlowered, hlocal⟩
  other := by
    intro haccess x hx
    obtain ⟨e, he, rfl⟩ := List.mem_map.mp hx
    exact Instruction.local?_code haccess hcode e he

/-- The code of the function consists of what each instruction does with locals. -/
theorem Stages.exists_uses (s : Stages c w code)
    (hfresh : ∀ i ∈ code.instructions, i.isFresh = true) :
    ∃ pieces, pieces.flatten = s.items s.complete.body ∧
      List.Forall₂ (UsesLocals c s.complete s.slots) s.body pieces := by
  have hsettled : ∀ i ∈ s.body, i.Settled s.slots := by
    have hgrows : SlotTable.Grows {} s.params := SlotTable.grows_addParamsFrom .refl s.ofParams
    have hall := Instruction.settled_resolveAll hgrows hfresh
    rw [s.resolveAll] at hall
    exact hall
  obtain ⟨pieces, hcode, hpieces⟩ := exists_pieces s.written
  refine ⟨pieces.map s.items, ?_, ?_⟩
  · rw [s.body_complete, hcode]
    exact List.map_flatten.symm
  · rw [List.forall₂_map_right_iff]
    have hall := (List.forall₂_and_left _ _).mpr ⟨fun i (hi : i ∈ s.body) => hi, hpieces⟩
    refine hall.imp fun i piece h => ?_
    obtain ⟨hi, r, r', hgenerated⟩ := h
    exact s.usesLocals hi (hsettled i hi) hgenerated

/-- **Locals of a function that compiles.** Its code is that of its resolved instructions, one after
the other; an access to a local or a slot is to a local declared with the lowering of the type that
the verifier gave the access, and all other code uses scratch locals. Every local that the code
accesses is declared. An access to a scratch local is written as one to a local that lies behind
parameters and declared locals and is declared with the type of the scratch local, and two of them
are to the same local exactly if they have the same number and type. -/
theorem emitted_locals {id : Nat} (h : (c.compile w code).result = .ok id)
    (hfresh : ∀ i ∈ code.instructions, i.isFresh = true) :
    ∃ params body slots f pieces, SlotTable.ofParams code.name.params = .ok params ∧
      Instruction.resolveAll code.instructions params = (body, slots) ∧
      Verifier.verify (verifierContext code.name slots) body = .ok () ∧
      (c.compile w code).writer.completed = w.completed ++ [f] ∧
      f.body = pieces.flatten.map Prod.fst ∧ f.code = pieces.flatten.map Prod.snd ∧
      List.Forall₂ (UsesLocals c f slots) body pieces ∧
      (∀ o ∈ f.code, ∀ index, o.local? = some index →
        index < f.params.length + f.locals.length + f.scratch.length) ∧
      (∀ x ∈ pieces.flatten, f.WrittenAs x.1 x.2) ∧
      ∀ x ∈ pieces.flatten, ∀ y ∈ pieces.flatten, ∀ key key', x.1.scratch? = some key →
        y.1.scratch? = some key' → (x.2.local? = y.2.local? ↔ key = key') := by
  obtain ⟨s⟩ := nonempty_stages h
  obtain ⟨pieces, hitems, huses⟩ := s.exists_uses hfresh
  have hcompleted : (c.compile w code).writer.completed = w.completed ++ [s.complete] := by
    rw [s.compile_eq]
    exact ModuleWriter.completed_endFunction s.ended
  have hcode : s.complete.code = pieces.flatten.map Prod.snd := by
    rw [hitems, FunctionDraft.code_eq_map_place]
    simp [Stages.items, Function.comp_def]
  have hwritten : ∀ x ∈ pieces.flatten, s.complete.WrittenAs x.1 x.2 := by
    intro x hx
    rw [hitems] at hx
    obtain ⟨e, he, rfl⟩ := List.mem_map.mp hx
    exact FunctionDraft.writtenAs_place he
  refine ⟨s.params, s.body, s.slots, s.complete, pieces, s.ofParams, s.resolveAll, s.verify,
    hcompleted, ?_, hcode, huses, ?_, hwritten, ?_⟩
  · rw [hitems]
    simp [Stages.items, Function.comp_def]
  · intro o ho index hindex
    rw [hcode] at ho
    obtain ⟨x, hx, rfl⟩ := List.mem_map.mp ho
    obtain ⟨piece, hpiece, hmem⟩ := List.mem_flatten.mp hx
    obtain ⟨i, -, huse⟩ := exists_left_of_mem huses hpiece
    rw [← FunctionDraft.length_allLocals]
    exact huse.lt hmem (hwritten x hx) hindex
  · intro x hx y hy key key' hkey hkey'
    rw [hitems] at hx hy
    obtain ⟨e, he, rfl⟩ := List.mem_map.mp hx
    obtain ⟨e', -, rfl⟩ := List.mem_map.mp hy
    rw [Emission.local?_place_of_scratch _ hkey, Emission.local?_place_of_scratch _ hkey',
      Option.some.injEq]
    exact FunctionDraft.scratchIndex_eq_iff (FunctionDraft.mem_scratch he hkey)

/-- A byte is stored at a place that is kept in a slot. The procedure has two parameters, a local for
the slot and two scratch locals, for the place and the byte. -/
theorem emitted_locals_storingByte :
    let operands := [Instruction.ofSlot .get 0 (.array 0) .unknown,
      .ofSlot .get 1 .i32 .unknown, .ofSlot .set 2 .i32 .unknown, .ofLocal .get 2 .unknown]
    let compiled := byteCompiler.compile .newBinary (storingByte operands)
    compiled.result = .ok 0 ∧ (∀ i ∈ (storingByte operands).instructions, i.isFresh = true) ∧
      ∃ f, compiled.writer.completed = [f] ∧ f.scratchBase = 3 ∧
        f.scratch = [(1, .value .i32), (0, .value .i32)] ∧
        f.code.filterMap BodyOp.local? = [0, 1, 2, 2, 3, 4, 4, 3] ∧
        (∀ o ∈ f.code, ∀ index, o.local? = some index →
          index < f.params.length + f.locals.length + f.scratch.length) ∧
        ∃ pieces : List (List (Emission × BodyOp)), f.code = pieces.flatten.map Prod.snd ∧
          ∀ x ∈ pieces.flatten, f.WrittenAs x.1 x.2 := by
  intro operands compiled
  have hresult : compiled.result = .ok 0 := by decide +kernel
  have hfresh : ∀ i ∈ (storingByte operands).instructions, i.isFresh = true := by decide +kernel
  obtain ⟨-, -, -, f, pieces, -, -, -, hcompleted, -, hcode, -, hdeclared, hwritten, -⟩ :=
    emitted_locals hresult hfresh
  have hshape : compiled.writer.completed.map
      (fun f => (f.scratchBase, f.scratch, f.code.filterMap BodyOp.local?)) =
        [(3, [(1, .value .i32), (0, .value .i32)], [0, 1, 2, 2, 3, 4, 4, 3])] := by decide +kernel
  have hone : compiled.writer.completed = [f] := hcompleted
  rw [hone] at hshape
  simp only [List.map_cons, List.map_nil, List.cons.injEq, Prod.mk.injEq, and_true] at hshape
  obtain ⟨hbase, hscratch, hlocals⟩ := hshape
  exact ⟨hresult, hfresh, f, hone, hbase, hscratch, hlocals, hdeclared, pieces, hcode, hwritten⟩

end ModuleCompiler

end WasmBackend
