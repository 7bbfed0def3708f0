import WasmBackend.Proofs.CodeSection
import WasmBackend.Proofs.Session

/-! # Indices of calls

In a finished binary module every body comes from a request to compile a function, or from a function
whose code the registry holds. The calls of a compiled body are those of the functions that its
instructions name, in order, and the immediate of each call is the index of the named function: the
number of imports registered before it if it is imported, and the place of its body behind all
imports if it has one (`callIndices_of_session`). -/

namespace WasmBackend

/-! ### Call immediates -/

/-- The immediate of a call. -/
def TargetOp.callIndex? : TargetOp → Option Nat
  | .indexed .call index => some index
  | _ => none

/-- A resolved emission is a call exactly if the emission is one, and then it has the index of the
callee. -/
theorem callIndex?_of_resolved {e : Emission} {n base : Nat} {scratch : List (Nat × WasmType)}
    {r : FunctionRegistry} {instr : TargetOp} (h : e.CallsBelow n)
    (hresolved : e.resolved? base scratch r = some instr) :
    (e.callee? = none ∧ instr.callIndex? = none) ∨
      ∃ callee index, e.callee? = some callee ∧ instr.callIndex? = some index ∧
        r.indexOf? callee = some index := by
  rcases e with op | ⟨name, callee, viewedAs⟩
  · refine .inl ⟨rfl, ?_⟩
    -- an operation that is no call is not resolved to one
    cases op with
    | target instr' =>
      cases hresolved
      unfold TargetOp.callIndex?
      split
      · simp [Emission.CallsBelow] at h
      · rfl
    | scratchSet n ty =>
      obtain ⟨place, -, rfl⟩ := Option.map_eq_some_iff.mp hresolved
      rfl
    | scratchGet n ty =>
      obtain ⟨place, -, rfl⟩ := Option.map_eq_some_iff.mp hresolved
      rfl
  · obtain ⟨index, hindex, rfl⟩ := Option.map_eq_some_iff.mp hresolved
    exact .inr ⟨callee, index, rfl, rfl, hindex⟩

/-- The call immediates of resolved code are the indices of the callees, in order. -/
theorem callIndices_of_resolved {code : List Emission} {n base : Nat}
    {scratch : List (Nat × WasmType)} {r : FunctionRegistry} {ops : List TargetOp}
    (h : ∀ e ∈ code, e.CallsBelow n)
    (hresolved : code.mapM (Emission.resolved? base scratch r) = some ops) :
    List.Forall₂ (fun callee index => r.indexOf? callee = some index)
      (code.filterMap Emission.callee?) (ops.filterMap TargetOp.callIndex?) := by
  induction code generalizing ops with
  | nil =>
    cases hresolved
    exact .nil
  | cons e rest ih =>
    simp only [List.mapM_cons, Option.bind_eq_bind, Option.bind_eq_some_iff, Option.pure_def,
      Option.some.injEq] at hresolved
    obtain ⟨instr, hinstr, others, hothers, rfl⟩ := hresolved
    have hrest := ih (fun e' he' => h e' (List.mem_cons_of_mem _ he')) hothers
    rcases callIndex?_of_resolved (h e List.mem_cons_self) hinstr with
      ⟨hcallee, hindex⟩ | ⟨callee, index, hcallee, hindex, hcall⟩
    · rw [List.filterMap_cons_none hcallee, List.filterMap_cons_none hindex]
      exact hrest
    · rw [List.filterMap_cons_some hcallee, List.filterMap_cons_some hindex]
      exact .cons hcall hrest

/-! ### Where bodies come from -/

theorem callee?_resolve (i : Instruction) (t : SlotTable) (options : Options)
    (types : TypeRegistry) :
    (i.resolve t).1.callee? options types = i.callee? options types := by
  unfold Instruction.resolve
  split
  · next hkind => simp only [Instruction.callee?, hkind]
  · rfl

theorem filterMap_callee?_resolveAll (body : List Instruction) (t : SlotTable) (options : Options)
    (types : TypeRegistry) :
    (Instruction.resolveAll body t).1.filterMap (Instruction.callee? options types) =
      body.filterMap (Instruction.callee? options types) := by
  induction body generalizing t with
  | nil => rfl
  | cons i rest ih =>
    simp only [Instruction.resolveAll, List.filterMap_cons, callee?_resolve, ih]

namespace Session

/-- A session in which nothing has been asked for, which writes a binary module. -/
def new (options : Options) : Session := ⟨.new options, .newBinary⟩

/-- The functions that a request to compile a function calls, by the names of its instructions. -/
def calleeNames (s : Session) (code : FunctionCode) : List FunctionName :=
  code.instructions.filterMap (Instruction.callee? s.compiler.options s.compiler.types)

/-- The draft is that of a function that one of the requests asked to compile. -/
def Compiles (s : Session) (requests : List Request) (f : FunctionDraft) : Prop :=
  ∃ before code after, requests = before ++ .compile code :: after ∧
    ((s.run before).compiler.compile (s.run before).writer code).result = .ok f.id ∧
    CallsNamed (s.run requests).compiler.functions ((s.run before).calleeNames code) f.body

theorem Compiles.append {s : Session} {requests : List Request} {f : FunctionDraft}
    (h : s.Compiles requests f) (more : List Request) : s.Compiles (requests ++ more) f := by
  obtain ⟨before, code, after, rfl, hresult, hcalls⟩ := h
  have hkeeps := ((s.run (before ++ .compile code :: after)).run_of_session more).keeps
  refine ⟨before, code, after ++ more, by simp, hresult, ?_⟩
  rw [run_append]
  exact hcalls.mono hkeeps.functions

theorem compiles_of_stages {s : Session} {requests : List Request} {code : FunctionCode}
    (stages : ModuleCompiler.Stages (s.run requests).compiler (s.run requests).writer code) :
    s.Compiles (requests ++ [.compile code]) (stages.draft.extend stages.emitted) := by
  refine ⟨requests, code, [], rfl, ?_, ?_⟩
  · rw [stages.result_eq]
    exact congrArg Except.ok (ModuleCompiler.id_of_draft stages.drafted).1.symm
  · have hcompiler : (s.run (requests ++ [.compile code])).compiler.functions =
        stages.functions := by
      rw [run_concat, serve_of_stages stages]
    have hcalls := callsNamed_bodyCode stages.written
    have hnames := filterMap_callee?_resolveAll code.instructions stages.params
      (s.run requests).compiler.options (s.run requests).compiler.types
    rw [stages.resolveAll] at hnames
    rw [hnames] at hcalls
    rw [stages.body_eq, hcompiler]
    exact hcalls

/-- Every complete function of a session was written by one of its requests. -/
theorem exists_stages_of_mem_completed {s : Session} (hnew : s.writer.completed = [])
    (requests : List Request) {f : FunctionDraft} (hf : f ∈ (s.run requests).writer.completed) :
    ∃ before code after, requests = before ++ .compile code :: after ∧
      ∃ stages : ModuleCompiler.Stages (s.run before).compiler (s.run before).writer code,
        f = stages.draft.extend stages.emitted := by
  induction requests using List.reverseRecOn with
  | nil =>
    rw [run_nil, hnew] at hf
    cases hf
  | append_singleton before q ih =>
    have hkept (hmem : f ∈ (s.run before).writer.completed) :
        ∃ earlier code after, before ++ [q] = earlier ++ .compile code :: after ∧
          ∃ stages : ModuleCompiler.Stages (s.run earlier).compiler (s.run earlier).writer code,
            f = stages.draft.extend stages.emitted := by
      obtain ⟨earlier, code, after, rfl, hstages⟩ := ih hmem
      exact ⟨earlier, code, after ++ [q], by simp, hstages⟩
    rw [run_concat] at hf
    rcases serve_cases (s.run before).compiler q with ⟨code, rfl⟩ | ⟨bytes, rfl⟩ | ⟨c, -, hserve⟩
    · rcases ModuleCompiler.completed_compile (s.run before).compiler (s.run before).writer code with
        hsame | ⟨stages, hnewDraft⟩
      · exact hkept (hsame ▸ hf)
      · have hmem : f ∈ (s.run before).writer.completed ++
            [stages.draft.extend stages.emitted] := hnewDraft ▸ hf
        rcases List.mem_append.mp hmem with hold | hlast
        · exact hkept hold
        · exact ⟨before, code, [], rfl, stages, List.mem_singleton.mp hlast⟩
    · refine hkept ?_
      simp only [serve, ModuleWriter.completed_withData] at hf
      exact hf
    · rw [show (s.run before).serve q = ⟨c, (s.run before).writer⟩ from hserve _] at hf
      exact hkept hf

theorem compiles_of_mem_completed {s : Session} (hnew : s.writer.completed = [])
    (requests : List Request) {f : FunctionDraft} (hf : f ∈ (s.run requests).writer.completed) :
    s.Compiles requests f := by
  obtain ⟨before, code, after, rfl, stages, rfl⟩ := exists_stages_of_mem_completed hnew requests hf
  have hcompiles := (compiles_of_stages stages).append after
  rwa [List.append_assoc] at hcompiles

/-! ### The finished module -/

variable {options : Options} {requests : List Request} {c : ModuleCompiler} {m : BinaryModule}

/-- The drafts from which the finished module of a session is made. -/
theorem exists_drafts
    (hfinish : ((new options).run requests).finish = ⟨.ok (), c, .binary m⟩) :
    ∃ m₀ : BinaryModule, m₀.finish c.functions = (.ok (), m) ∧
      m₀.Drafting c.functions.count ∧
      ((new options).run requests).compiler.functions.Extends c.functions ∧
      ∀ f ∈ m₀.buffered, f ∈ ((new options).run requests).writer.completed ∨
        ∃ e ops, (e, ops) ∈ c.functions.codeFunctions ∧ f.id = e.id ∧ f.body = ops.map .op := by
  have hdrafting := ModuleCompiler.drafting_of_run ((new options).run_of_session requests)
  obtain ⟨stages, rfl, hfinished⟩ := ModuleCompiler.finish_eq_ok hfinish
  have hadvances := ModuleCompiler.advances_patchOffset stages.patchOffset
  have hsound := hadvances.sound hdrafting.sound
  have hwritten := ModuleCompiler.Drafting.writeCodeFunctions
    (c := { ((new options).run requests).compiler with
      strings := stages.strings, functions := stages.functions })
    ((hdrafting.writer.withData stages.data).mono hadvances.count_le)
    fun e ops he => hsound.codeFunctions he
  rw [stages.writeCodeFunctions] at hwritten
  obtain ⟨-, horigin⟩ := ModuleCompiler.writeCodeFunctions_eq_ok stages.writeCodeFunctions
  rw [ModuleWriter.completed_withData] at horigin
  have hextends := ModuleCompiler.extends_patchOffset stages.patchOffset
  have hstage := stages.finish
  rcases hw : stages.written with m₀ | m₀
  · rw [hw] at hwritten
    exact hwritten.elim
  · rw [hw] at hwritten horigin hstage
    rcases hm : m₀.finish stages.functions with ⟨result, m'⟩
    simp only [ModuleWriter.finish, hm, Prod.mk.injEq] at hstage
    obtain ⟨rfl, hm'⟩ := hstage
    rw [← hm', ModuleWriter.binary.injEq] at hfinished
    subst hfinished
    exact ⟨m₀, hm, hwritten, hextends, horigin⟩

/-- The number is the index of the named function: of an import, the number of imports registered
before it; of a function with a body, the place of the body behind all imports. -/
def IndexOfName (r : FunctionRegistry) (m : BinaryModule) (name : FunctionName) (index : Nat) :
    Prop :=
  ∃ callee entry, r.lookup name = some callee ∧ r.entries[callee]? = some entry ∧
    (entry.isImport = true →
      index = (r.entries.take callee).countP FunctionEntry.isImport ∧ index < m.importCount) ∧
    ∀ place e, m.functions[place]? = some e → e.id = callee → index = m.importCount + place

theorem indexOfName_of_lookup {r : FunctionRegistry} (hcount : m.importCount = r.importCount)
    (hbodies : ∀ e ∈ m.functions, r.indexOf? e.id = some e.index)
    (hindices : m.functions.map EncodedFunction.index =
      List.range' m.importCount m.functions.length)
    {name : FunctionName} {callee index : Nat} (hlookup : r.lookup name = some callee)
    (hindex : r.indexOf? callee = some index) : IndexOfName r m name index := by
  obtain ⟨entry, hentry, heq⟩ := Option.map_eq_some_iff.mp hindex
  refine ⟨callee, entry, hlookup, hentry, fun himport => ?_, fun place e he hid => ?_⟩
  · rw [if_pos himport] at heq
    rw [← heq, hcount]
    exact ⟨rfl, FunctionRegistry.countP_take_lt hentry himport⟩
  · have hplace : e.index = m.importCount + place := by
      have hat := congrArg (·[place]?) hindices
      obtain ⟨hlt, rfl⟩ := List.getElem?_eq_some_iff.mp he
      simpa [hlt] using hat
    have hsame := hbodies e (List.mem_of_getElem? he)
    rw [hid, hindex, Option.some.injEq] at hsame
    rw [hsame, hplace]

/-- **Every call names the right function.** A body of the code section belongs to a function that a
request asked to compile, and its call immediates are the indices of the functions that the
instructions name, in order; or it belongs to a function with a body of its own in the registry,
which calls nothing. -/
theorem callIndices_of_session {payload : List UInt8}
    (hfinish : ((new options).run requests).finish = ⟨.ok (), c, .binary m⟩)
    (hcode : m.codeSection = .ok payload) :
    m.importCount = c.functions.importCount ∧
      payload = Leb128.encodeNat m.functions.length ++ m.functions.flatMap EncodedFunction.bytes ∧
      ∀ e ∈ m.functions, ∃ locals ops, e.bytes = functionBytes locals ops ∧
        (∀ instr ∈ ops, instr.hasShape = true) ∧
        ((∃ before code after, requests = before ++ .compile code :: after ∧
            let s := (new options).run before
            (s.compiler.compile s.writer code).result = .ok e.id ∧
            List.Forall₂ (IndexOfName c.functions m) (s.calleeNames code)
              (ops.filterMap TargetOp.callIndex?)) ∨
          ∃ entry body, (entry, body) ∈ c.functions.codeFunctions ∧ entry.id = e.id ∧
            ops.filterMap TargetOp.callIndex? = []) := by
  obtain ⟨m₀, hm, hdrafting, hextends, horigin⟩ := exists_drafts hfinish
  obtain ⟨-, encoded, hencoded, -, hfinished⟩ := BinaryModule.finish_eq_ok hm
  obtain ⟨hindices, hpayload⟩ := BinaryModule.codeSection_eq_ok hcode
  have hcount : m.importCount = c.functions.importCount := by rw [hfinished]
  have hdraft : ∀ e ∈ m.functions, ∃ f ∈ m₀.buffered, ∃ ops, f.Finishes c.functions e ops := by
    intro e he
    rw [hfinished, BinaryModule.mem_inOrder, hdrafting.functions, List.nil_append] at he
    obtain ⟨f, hf, hencode⟩ := hencoded.exists_draft he
    exact ⟨f, hf, FunctionDraft.encode_eq_ok hencode⟩
  have hbodies : ∀ e ∈ m.functions, c.functions.indexOf? e.id = some e.index := by
    intro e he
    obtain ⟨f, -, ops, hfinishes⟩ := hdraft e he
    rw [hfinishes.id]
    exact hfinishes.index
  refine ⟨hcount, hpayload, fun e he => ?_⟩
  obtain ⟨f, hf, ops, hfinishes⟩ := hdraft e he
  have hbelow := (hdrafting.buffered f hf).2
  have hcalls := callIndices_of_resolved hbelow hfinishes.code
  refine ⟨_, ops, hfinishes.bytes, fun instr hinstr => ?_, ?_⟩
  · obtain ⟨emission, hemission, hresolved⟩ := hfinishes.origin instr hinstr
    exact ((hbelow emission hemission).resolved? hresolved).1
  · rcases horigin f hf with hcompleted | ⟨entry, body, hentry, hid, hbody⟩
    · obtain ⟨before, code, after, hrequests, hresult, hnamed⟩ :=
        compiles_of_mem_completed (s := new options) rfl requests hcompleted
      refine .inl ⟨before, code, after, hrequests, ?_, ?_⟩
      · rw [hfinishes.id]
        exact hresult
      · refine forall₂_comp ?_ (hnamed.mono hextends) hcalls
        intro name callee index hlookup hindex
        exact indexOfName_of_lookup hcount hbodies hindices hlookup hindex
    · refine .inr ⟨entry, body, hentry, hid.symm.trans hfinishes.id.symm, ?_⟩
      rw [hbody, filterMap_callee?_op] at hcalls
      exact List.forall₂_nil_left_iff.mp hcalls

/-- A procedure that allocates an array, for which it needs a helper of the host, and then calls
itself. -/
def allocatingForever : FunctionCode :=
  let name : FunctionName :=
    { className := "Main", methodName := "run", signature := "()V", params := [], result := none }
  { name
    instructions :=
      [⟨.unknown, .const (.i32 3)⟩, ⟨.unknown, .array .new (.value .i32) 0⟩,
        ⟨.unknown, .control .drop (some (.array 0)) 0⟩, ⟨.unknown, .call name none⟩] }

/-- The helper that it needs. -/
def allocationHelper : FunctionName :=
  { className := ({} : Options).hostModule, methodName := "array_new_i32", signature := "(I)[I"
    params := [.i32], result := some (.array 0) }

/-- The session that compiles the procedure. -/
def allocatingRequests : List Request :=
  [.internArray (.value .i32), .compile allocatingForever]

/-- The finished module of that session. -/
def allocatedForever : BinaryModule where
  functions :=
    [{ id := 0, index := 1, name := "Main.run", params := [], result := none
       bytes := [9, 0, 0x41, 3, 0x10, 0, 0x1A, 0x10, 1, 0x0B] }]
  importCount := 1

/-- The helper is registered after the procedure and comes first in the module, so the procedure
calls functions `0` and `1`. -/
theorem callIndices_allocatedForever :
    ∃ c, ((new {}).run allocatingRequests).finish = ⟨.ok (), c, .binary allocatedForever⟩ ∧
      allocatedForever.codeSection = .ok [1, 9, 0, 0x41, 3, 0x10, 0, 0x1A, 0x10, 1, 0x0B] ∧
      ∃ e ∈ allocatedForever.functions, ∃ locals ops, e.bytes = functionBytes locals ops ∧
        ops.filterMap TargetOp.callIndex? = [0, 1] := by
  let finished := ((new {}).run allocatingRequests).finish
  have hresult : finished.result = .ok () := by decide +kernel
  have hwriter : finished.writer = .binary allocatedForever := by decide +kernel
  have hfinish : finished = ⟨.ok (), finished.compiler, .binary allocatedForever⟩ := by
    rw [← hresult, ← hwriter]
  have hcode : allocatedForever.codeSection =
      .ok [1, 9, 0, 0x41, 3, 0x10, 0, 0x1A, 0x10, 1, 0x0B] := by decide +kernel
  have hnone : finished.compiler.functions.codeFunctions = [] := by decide +kernel
  have hnames : ((new {}).run [.internArray (.value .i32)]).calleeNames allocatingForever =
      [allocationHelper, allocatingForever.name] := by decide +kernel
  have hhelper : finished.compiler.functions.lookup allocationHelper = some 1 := by decide +kernel
  have hself : finished.compiler.functions.lookup allocatingForever.name = some 0 := by
    decide +kernel
  have hbefore : (finished.compiler.functions.entries.take 1).countP FunctionEntry.isImport = 0 := by
    decide +kernel
  obtain ⟨-, -, hbodies⟩ := callIndices_of_session hfinish hcode
  obtain ⟨locals, ops, hbytes, -, hcalls⟩ := hbodies _ List.mem_cons_self
  refine ⟨finished.compiler, hfinish, hcode, _, List.mem_cons_self, locals, ops, hbytes, ?_⟩
  rcases hcalls with ⟨before, code, after, hrequests, -, hcalls⟩ | ⟨entry, body, hentry, -⟩
  · obtain ⟨rfl, rfl⟩ : before = [.internArray (.value .i32)] ∧ code = allocatingForever := by
      rcases before with _ | ⟨q, _ | ⟨q', before⟩⟩
      · simp [allocatingRequests] at hrequests
      · simp only [allocatingRequests, List.cons_append, List.nil_append, List.cons.injEq,
          Request.compile.injEq] at hrequests
        exact ⟨by rw [hrequests.1], hrequests.2.1.symm⟩
      · simp [allocatingRequests] at hrequests
    rw [hnames] at hcalls
    obtain ⟨first, rest, ⟨callee, entry, hcallee, hentry, himport, -⟩, hcalls, hindices⟩ :=
      List.forall₂_cons_left_iff.mp hcalls
    obtain ⟨second, none, ⟨callee', -, hcallee', -, -, hbody⟩, hcalls', rfl⟩ :=
      List.forall₂_cons_left_iff.mp hcalls
    obtain rfl := List.forall₂_nil_left_iff.mp hcalls'
    cases hhelper.symm.trans hcallee
    cases hself.symm.trans hcallee'
    have hfirst : first = 0 := by
      rw [(himport ?_).1, hbefore]
      have himported : (some entry).map FunctionEntry.isImport = some true := by
        rw [← hentry]
        decide +kernel
      exact Option.some.inj himported
    have hsecond : second = 1 := hbody 0 _ rfl rfl
    rw [hindices, hfirst, hsecond]
  · rw [hnone] at hentry
    cases hentry

end Session

end WasmBackend
