import WasmBackend.Proofs.Compilation
import WasmBackend.Proofs.WrittenCode

/-! # Complete code sections

A code section holds the bodies of the functions that are not imported, by increasing index. When it
is encoded, the indices of the bodies have to be consecutive from the first one after the imports on,
but nothing says how many bodies there have to be. So the bodies are those of the first functions
that need one (`isPrefix_definedIds`), and none is missing exactly if the last function that needs a
body has one (`codeSection_complete_iff`). A function that is called and never compiled can be the
last one, and then the call has an index behind all bodies. -/

namespace WasmBackend

/-! ### Consecutive indices -/

namespace BinaryModule

theorem checkIndices_eq_ok {first : Nat} {functions : List EncodedFunction} :
    checkIndices first functions = .ok () ↔
      functions.map EncodedFunction.index = List.range' first functions.length := by
  induction functions generalizing first with
  | nil => simp [checkIndices]
  | cons f rest ih =>
    rw [List.map_cons, List.length_cons, List.range'_succ, List.cons.injEq, ← ih, checkIndices]
    by_cases h : f.index = first
    · simp [h]
    · simp [h]

theorem repeated?_eq_none {first : Nat} {functions : List EncodedFunction}
    (h : functions.map EncodedFunction.index = List.range' first functions.length) :
    repeated? functions = none := by
  induction functions generalizing first with
  | nil => rfl
  | cons f rest ih =>
    rw [List.map_cons, List.length_cons, List.range'_succ, List.cons.injEq] at h
    obtain ⟨hf, hrest⟩ := h
    cases rest with
    | nil => rfl
    | cons g rest =>
      have hg : g.index = first + 1 := by
        rw [List.map_cons, List.length_cons, List.range'_succ, List.cons.injEq] at hrest
        exact hrest.1
      rw [repeated?, if_neg (by omega)]
      exact ih hrest

theorem codeSection_eq_ok {m : BinaryModule} {payload : List UInt8}
    (h : m.codeSection = .ok payload) :
    m.functions.map EncodedFunction.index = List.range' m.importCount m.functions.length ∧
      payload = Leb128.encodeNat m.functions.length ++
        m.functions.flatMap EncodedFunction.bytes := by
  unfold codeSection at h
  split_ifs at h
  obtain ⟨⟨⟩, hcheck, rfl⟩ := map_eq_ok.mp h
  exact ⟨checkIndices_eq_ok.mp hcheck, rfl⟩

end BinaryModule

/-! ### Bodies of a finished module -/

theorem Emission.CalleeBelow.encode {e : Emission} {r : FunctionRegistry}
    (h : e.CalleeBelow r.count) (index : Nat × WasmType → Nat) :
    ∃ bytes, (e.place index).encode (.ofRegistry r) = .ok bytes := by
  rcases e with op | ⟨name, callee, viewedAs⟩
  · cases op <;> exact ⟨_, rfl⟩
  · obtain ⟨k, hk⟩ := FunctionRegistry.indexOf?_of_lt h
    exact ⟨_, map_eq_ok.mpr ⟨k, FunctionRegistry.get_ofRegistry.mpr hk, rfl⟩⟩

theorem encodeAll_of_calleeBelow {code : List Emission} {r : FunctionRegistry}
    (h : ∀ e ∈ code, e.CalleeBelow r.count) (index : Nat × WasmType → Nat) :
    ∃ encoded, (code.map (Emission.place index)).mapM (BodyOp.encode (.ofRegistry r)) =
      .ok encoded := by
  induction code with
  | nil => exact ⟨[], rfl⟩
  | cons e rest ih =>
    obtain ⟨bytes, hbytes⟩ := (h e List.mem_cons_self).encode index
    obtain ⟨others, hothers⟩ := ih fun e' he' => h e' (List.mem_cons_of_mem _ he')
    refine ⟨bytes :: others, ?_⟩
    simp only [List.map_cons, List.mapM_cons, bind_eq_ok, pure_eq_ok]
    exact ⟨bytes, hbytes, others, hothers, rfl⟩

theorem FunctionDraft.exists_encode {f : FunctionDraft} {r : FunctionRegistry}
    (hid : f.id < r.count) (hbody : ∀ e ∈ f.body, e.CalleeBelow r.count) :
    ∃ e, f.encode (.ofRegistry r) = .ok e := by
  obtain ⟨k, hk⟩ := FunctionRegistry.indexOf?_of_lt hid
  obtain ⟨encoded, hencoded⟩ :=
    encodeAll_of_calleeBelow hbody fun key => f.scratchBase + f.scratch.idxOf key
  simp only [FunctionDraft.encode, FunctionDraft.encodeBody, encodeCode, map_eq_ok, bind_eq_ok,
    pure_eq_ok]
  exact ⟨_, _, ⟨_, ⟨encoded, hencoded, rfl⟩, rfl⟩, k, FunctionRegistry.get_ofRegistry.mpr hk, rfl⟩

theorem FunctionDraft.CallsBelow.encode {f : FunctionDraft} {r : FunctionRegistry}
    (h : f.CallsBelow r.count) : ∃ e, f.encode (.ofRegistry r) = .ok e :=
  FunctionDraft.exists_encode h.1 fun e he => (h.2 e he).calleeBelow

namespace BinaryModule

theorem encodes_of_callsBelow {r : FunctionRegistry} {drafts : List FunctionDraft}
    (h : ∀ f ∈ drafts, f.CallsBelow r.count) : ∃ encoded, Encodes (.ofRegistry r) drafts encoded :=
  exists_forall₂ fun f hf => (h f hf).encode

theorem nodup_index {r : FunctionRegistry} {functions : List EncodedFunction}
    (hindex : ∀ e ∈ functions, r.indexOf? e.id = some e.index)
    (hids : (functions.map EncodedFunction.id).Nodup) :
    (functions.map EncodedFunction.index).Nodup := by
  have hdiffer : functions.Pairwise fun e e' => e.id ≠ e'.id := List.pairwise_map.mp hids
  refine List.pairwise_map.mpr (hdiffer.imp_of_mem fun {e e'} he he' hne hsame => hne ?_)
  have hother := hindex e' he'
  rw [← hsame] at hother
  exact FunctionRegistry.indexOf?_inj (hindex e he) hother

/-- The finished functions come from drafts that know only functions of the registry. -/
structure Resolved (r : FunctionRegistry) (m : BinaryModule) : Prop where
  importCount : m.functions ≠ [] → repeated? m.functions = none → m.importCount = r.importCount
  bodies : ∀ e ∈ m.functions, ∃ (f : FunctionDraft) (ops : List TargetOp),
    f.CallsBelow r.count ∧ f.Finishes r e ops

theorem Drafting.resolved {r : FunctionRegistry} {m : BinaryModule} {n : Nat}
    (h : m.Drafting n) : Resolved r m :=
  ⟨fun hne => absurd h.functions hne, by simp [h.functions]⟩

theorem Drafting.finish {r : FunctionRegistry} {m m' : BinaryModule}
    {result : Except CompileError Unit} (h : m.Drafting r.count)
    (hfinish : m.finish r = (result, m')) : Resolved r m' := by
  obtain ⟨encoded, hencoded⟩ := encodes_of_callsBelow h.buffered
  have hbodies : ∀ e ∈ inOrder (m.functions ++ encoded),
      ∃ (f : FunctionDraft) (ops : List TargetOp), f.CallsBelow r.count ∧ f.Finishes r e ops := by
    intro e he
    rw [mem_inOrder, h.functions, List.nil_append] at he
    obtain ⟨f, hf, hencode⟩ := hencoded.exists_draft he
    obtain ⟨ops, hfinishes⟩ := FunctionDraft.encode_eq_ok hencode
    exact ⟨f, ops, h.buffered f hf, hfinishes⟩
  cases hcurrent : m.current with
  | some f =>
    simp only [BinaryModule.finish, hcurrent] at hfinish
    cases hfinish
    exact h.resolved
  | none =>
    rcases finish_of_forall₂ hcurrent hencoded with ⟨f, hrepeated, hfailed⟩ | ⟨-, hdone⟩
    · rw [hfailed] at hfinish
      cases hfinish
      refine ⟨fun _ hnone => ?_, hbodies⟩
      cases hrepeated.symm.trans hnone
    · rw [hdone] at hfinish
      cases hfinish
      exact ⟨fun _ _ => rfl, hbodies⟩

/-- **The bodies of a code section are those of the first functions that need one.** -/
theorem Resolved.isPrefix_definedIds {r : FunctionRegistry} {m : BinaryModule} (h : Resolved r m)
    (hr : r.Sound)
    (hindices : m.functions.map EncodedFunction.index =
      List.range' m.importCount m.functions.length) :
    m.functions.map EncodedFunction.id <+: r.definedIds := by
  refine List.prefix_iff_getElem?.mpr fun place hplace => ?_
  rw [List.length_map] at hplace
  have hcount : m.importCount = r.importCount :=
    h.importCount (List.ne_nil_of_length_pos (by omega)) (repeated?_eq_none hindices)
  have hindex : m.functions[place].index = r.importCount + place := by
    have hat := congrArg (·[place]?) hindices
    simpa [hplace, hcount] using hat
  obtain ⟨f, ops, -, hfinishes⟩ := h.bodies _ (List.getElem_mem hplace)
  rw [List.getElem_map, hfinishes.id]
  rcases hr.indexOf?_cases hfinishes.index with ⟨-, hlt⟩ | ⟨-, place', hplace', hid⟩
  · omega
  · obtain rfl : place' = place := by omega
    exact hid

end BinaryModule

section Drafts

variable {r : FunctionRegistry} {drafts : List FunctionDraft} {encoded : List EncodedFunction}

theorem exists_encodes (hknown : ∀ f ∈ drafts, f.id < r.count)
    (hcallees : ∀ f ∈ drafts, ∀ e ∈ f.body, e.CalleeBelow r.count) :
    ∃ encoded, BinaryModule.Encodes (.ofRegistry r) drafts encoded :=
  exists_forall₂ fun f hf => FunctionDraft.exists_encode (hknown f hf) (hcallees f hf)

theorem map_id_of_encodes (h : BinaryModule.Encodes (.ofRegistry r) drafts encoded) :
    encoded.map EncodedFunction.id = drafts.map FunctionDraft.id := by
  refine (map_eq_map_of_forall₂ h fun f e hencode => ?_).symm
  obtain ⟨ops, hfinishes⟩ := FunctionDraft.encode_eq_ok hencode
  exact hfinishes.id.symm

theorem indexOf?_of_encodes (h : BinaryModule.Encodes (.ofRegistry r) drafts encoded) :
    ∀ e ∈ encoded, r.indexOf? e.id = some e.index := by
  intro e he
  obtain ⟨f, -, hencode⟩ := h.exists_draft he
  obtain ⟨ops, hfinishes⟩ := FunctionDraft.encode_eq_ok hencode
  rw [hfinishes.id]
  exact hfinishes.index

theorem nodup_index_of_encodes (h : BinaryModule.Encodes (.ofRegistry r) drafts encoded)
    (hids : (drafts.map FunctionDraft.id).Nodup) :
    (encoded.map EncodedFunction.index).Nodup :=
  BinaryModule.nodup_index (indexOf?_of_encodes h) (map_id_of_encodes h ▸ hids)

theorem nodup_id_of_encodes (h : BinaryModule.Encodes (.ofRegistry r) drafts encoded)
    (hindices : (encoded.map EncodedFunction.index).Nodup) :
    (drafts.map FunctionDraft.id).Nodup := by
  have hdiffer : encoded.Pairwise fun e e' => e.index ≠ e'.index := List.pairwise_map.mp hindices
  rw [← map_id_of_encodes h]
  refine List.pairwise_map.mpr (hdiffer.imp_of_mem fun {e e'} he he' hne hsame => hne ?_)
  have hindex := indexOf?_of_encodes h e he
  rw [hsame, indexOf?_of_encodes h e' he'] at hindex
  exact (Option.some.inj hindex).symm

end Drafts

/-! ### Calls -/

/-- A resolved emission calls a function of the registry. -/
theorem Emission.CallsBelow.resolved? {e : Emission} {n : Nat} {r : FunctionRegistry} {base : Nat}
    {scratch : List (Nat × WasmType)} {instr : TargetOp} (h : e.CallsBelow n)
    (hresolved : e.resolved? base scratch r = some instr) :
    instr.hasShape = true ∧
      ∀ index, instr = .indexed .call index → ∃ callee, r.indexOf? callee = some index := by
  rcases e with op | ⟨name, callee, viewedAs⟩
  · cases op with
    | target instr' =>
      cases hresolved
      obtain ⟨hshape, hcall⟩ := Bool.and_eq_true_iff.mp h
      refine ⟨hshape, ?_⟩
      rintro index rfl
      cases hcall
    | scratchSet n ty =>
      obtain ⟨place, -, rfl⟩ := Option.map_eq_some_iff.mp hresolved
      exact ⟨rfl, fun index hindex => nomatch hindex⟩
    | scratchGet n ty =>
      obtain ⟨place, -, rfl⟩ := Option.map_eq_some_iff.mp hresolved
      exact ⟨rfl, fun index hindex => nomatch hindex⟩
  · obtain ⟨index, hindex, rfl⟩ := Option.map_eq_some_iff.mp hresolved
    refine ⟨rfl, ?_⟩
    rintro index' ⟨⟩
    exact ⟨callee, hindex⟩

/-! ### Complete sections -/

theorem mem_iff_of_isPrefix {α : Type} {front whole : List α} (h : front <+: whole)
    (hnodup : whole.Nodup) {place : Nat} {a : α} (ha : whole[place]? = some a) :
    a ∈ front ↔ place < front.length := by
  constructor
  · intro hmem
    obtain ⟨place', hplace', rfl⟩ := List.getElem_of_mem hmem
    have hsame := ha.trans (List.prefix_iff_getElem?.mp h place' hplace').symm
    have hlt := (List.getElem?_eq_some_iff.mp ha).1
    have heq := (List.getElem?_inj hlt hnodup).mp hsame
    omega
  · intro hlt
    have hsame := (List.prefix_iff_getElem?.mp h place hlt).symm.trans ha
    cases hsame
    exact List.getElem_mem hlt

theorem length_eq_iff_of_isPrefix {α : Type} {front whole : List α} (h : front <+: whole)
    (hnodup : whole.Nodup) :
    front.length = whole.length ↔ ∀ a ∈ whole.getLast?, a ∈ front := by
  have hle := h.length_le
  rw [List.getLast?_eq_getElem?]
  by_cases hempty : whole.length = 0
  · have hnone : whole[whole.length - 1]? = none := by
      rw [List.getElem?_eq_none]
      omega
    simp only [hnone, Option.mem_def, reduceCtorEq, false_imp_iff, implies_true, iff_true]
    omega
  · have hlast : whole.length - 1 < whole.length := by omega
    have hmem := mem_iff_of_isPrefix h hnodup (List.getElem?_eq_getElem hlast)
    rw [List.getElem?_eq_getElem hlast]
    simp only [Option.mem_def, Option.some.injEq, forall_eq', hmem]
    omega

/-- If bodies are there for the first functions that need one, an index is in the module exactly if
its function is an import or has a body. -/
theorem FunctionRegistry.Sound.lt_iff_of_isPrefix {r : FunctionRegistry} (h : r.Sound)
    {ids : List Nat} (hids : ids <+: r.definedIds) {id index : Nat}
    (hindex : r.indexOf? id = some index) :
    index < r.importCount + ids.length ↔ r.IsImport id ∨ id ∈ ids := by
  rcases h.indexOf?_cases hindex with ⟨himport, hlt⟩ | ⟨himport, place, rfl, hplace⟩
  · exact ⟨fun _ => .inl himport, fun _ => by omega⟩
  · rw [mem_iff_of_isPrefix hids h.nodup_definedIds hplace]
    constructor
    · intro hlt
      exact .inr (by omega)
    · rintro (himport' | hlt)
      · exact absurd himport' himport
      · omega

namespace ModuleCompiler

theorem Run.resolved {options : Options} {c c' : ModuleCompiler} {w : ModuleWriter}
    {m : BinaryModule} {result : Except CompileError Unit} (h : Run (.new options) .newBinary c w)
    (hfinish : c.finish w = ⟨result, c', .binary m⟩) :
    c'.functions.Sound ∧ m.Resolved c'.functions := by
  have hdrafting := (drafting_of_run h).finish
  rw [hfinish] at hdrafting
  rcases hdrafting with hdrafting | ⟨w', hdrafting, hresolve⟩
  · exact ⟨hdrafting.sound, hdrafting.writer.resolved⟩
  · refine ⟨hdrafting.sound, ?_⟩
    have hw' := hdrafting.writer
    cases w' with
    | text m' => exact hw'.elim
    | binary m' =>
      rcases hm' : m'.finish c'.functions with ⟨result', m''⟩
      simp only [ModuleWriter.finish, hm'] at hresolve
      cases hresolve
      exact BinaryModule.Drafting.finish hw' hm'

/-- **A code section is complete exactly if the last function that needs a body has one.** Whether
or not it is, its bodies are those of the first functions that need one, and the index of a call is
in the module exactly if the callee is an import or has a body. -/
theorem codeSection_complete_iff {options : Options} {c c' : ModuleCompiler} {w : ModuleWriter}
    {m : BinaryModule} {result : Except CompileError Unit} {payload : List UInt8}
    (hrun : Run (.new options) .newBinary c w)
    (hfinish : c.finish w = ⟨result, c', .binary m⟩) (hcode : m.codeSection = .ok payload) :
    let r := c'.functions
    let ids := m.functions.map EncodedFunction.id
    payload = Leb128.encodeNat m.functions.length ++ m.functions.flatMap EncodedFunction.bytes ∧
      ids <+: r.definedIds ∧
      (m.functions.length = r.count - r.importCount ↔ ∀ id ∈ r.definedIds.getLast?, id ∈ ids) ∧
      ∀ e ∈ m.functions, ∃ locals ops, e.bytes = functionBytes locals ops ∧
        (∀ instr ∈ ops, instr.hasShape = true) ∧
        ∀ index, .indexed .call index ∈ ops → ∃ callee, r.indexOf? callee = some index ∧
          (index < r.importCount + m.functions.length ↔ r.IsImport callee ∨ callee ∈ ids) := by
  intro r ids
  obtain ⟨hsound, hresolved⟩ := hrun.resolved hfinish
  obtain ⟨hindices, hpayload⟩ := BinaryModule.codeSection_eq_ok hcode
  have hfront : ids <+: r.definedIds := hresolved.isPrefix_definedIds hsound hindices
  have hlength : ids.length = m.functions.length := List.length_map _
  refine ⟨hpayload, hfront, ?_, ?_⟩
  · rw [← hlength, ← FunctionRegistry.length_definedIds]
    exact length_eq_iff_of_isPrefix hfront hsound.nodup_definedIds
  · intro e he
    obtain ⟨f, ops, hcalls, hfinishes⟩ := hresolved.bodies e he
    refine ⟨_, ops, hfinishes.bytes, fun instr hinstr => ?_, fun index hcall => ?_⟩
    · obtain ⟨e', he', hinstr⟩ := hfinishes.origin instr hinstr
      exact ((hcalls.2 e' he').resolved? hinstr).1
    · obtain ⟨e', he', hinstr⟩ := hfinishes.origin _ hcall
      obtain ⟨callee, hcallee⟩ := ((hcalls.2 e' he').resolved? hinstr).2 index rfl
      rw [← hlength]
      exact ⟨callee, hcallee, hsound.lt_iff_of_isPrefix hfront hcallee⟩

/-- A procedure of the main class. -/
def procedure (methodName : String) : FunctionName :=
  { className := "Main", methodName, signature := "()V", params := [], result := none }

/-- A compiler that knows arrays of integers. -/
def withIntArrays : ModuleCompiler :=
  { new {} with
    types := (TypeRegistry.new false).addArray (.value .i32) "[I" (.value .i32) (.value .i32) }

/-- What is left of a procedure that allocates an array, for which it needs a helper of the host. -/
def allocating : Compiled :=
  withIntArrays.compile .newBinary
    { name := procedure "run"
      instructions :=
        [⟨.unknown, .const (.i32 3)⟩, ⟨.unknown, .array .new (.value .i32) 0⟩,
          ⟨.unknown, .control .drop (some (.array 0)) 0⟩] }

/-- The finished module of that procedure. -/
def allocatingModule : BinaryModule where
  functions :=
    [{ id := 0, index := 1, name := "Main.run", params := [], result := none
       bytes := [7, 0, 0x41, 3, 0x10, 0, 0x1A, 0x0B] }]
  importCount := 1

/-- The body follows the import, and no other one is needed. -/
theorem codeSection_allocating :
    ∃ c', allocating.compiler.finish allocating.writer = ⟨.ok (), c', .binary allocatingModule⟩ ∧
      allocatingModule.codeSection = .ok [1, 7, 0, 0x41, 3, 0x10, 0, 0x1A, 0x0B] ∧
      allocatingModule.functions.length = c'.functions.count - c'.functions.importCount := by
  let finished := allocating.compiler.finish allocating.writer
  have hadded : (TypeRegistry.new false).internArray (.value .i32) =
      (.ok 0, withIntArrays.types) := rfl
  have hrun : Run (.new {}) .newBinary allocating.compiler allocating.writer :=
    .compile _ (.internArray .refl hadded)
  have hresult : finished.result = .ok () := by decide +kernel
  have hwriter : finished.writer = .binary allocatingModule := by decide +kernel
  have hfinish : finished = ⟨.ok (), finished.compiler, .binary allocatingModule⟩ := by
    rw [← hresult, ← hwriter]
  have hcode : allocatingModule.codeSection = .ok [1, 7, 0, 0x41, 3, 0x10, 0, 0x1A, 0x0B] := by
    decide +kernel
  have hlast : finished.compiler.functions.definedIds.getLast? = some 0 := by decide +kernel
  obtain ⟨-, -, hcomplete, -⟩ := codeSection_complete_iff hrun hfinish hcode
  refine ⟨_, hfinish, hcode, hcomplete.mpr fun id hid => ?_⟩
  cases hlast.symm.trans hid
  exact List.mem_cons_self

/-- What is left of a procedure that calls one that is never compiled. -/
def calling : Compiled :=
  (new {}).compile .newBinary
    { name := procedure "run", instructions := [⟨.unknown, .call (procedure "step") none⟩] }

/-- The finished module of that procedure. -/
def callingOnly : BinaryModule where
  functions :=
    [{ id := 0, index := 0, name := "Main.run", params := [], result := none
       bytes := [4, 0, 0x10, 1, 0x0B] }]

/-- A code section is encoded although a function that is called has no body. -/
theorem codeSection_calling :
    ∃ c', Run (.new {}) .newBinary calling.compiler calling.writer ∧
      calling.compiler.finish calling.writer = ⟨.ok (), c', .binary callingOnly⟩ ∧
      callingOnly.codeSection = .ok [1, 4, 0, 0x10, 1, 0x0B] ∧
      callingOnly.functions.length < c'.functions.count - c'.functions.importCount ∧
      ∃ e ∈ callingOnly.functions, ∃ index,
        e.bytes = functionBytes [] [.indexed .call index] ∧
        c'.functions.importCount + callingOnly.functions.length ≤ index := by
  let finished := calling.compiler.finish calling.writer
  have hresult : finished.result = .ok () := by decide +kernel
  have hwriter : finished.writer = .binary callingOnly := by decide +kernel
  have hfinish : finished = ⟨.ok (), finished.compiler, .binary callingOnly⟩ := by
    rw [← hresult, ← hwriter]
  exact ⟨_, .compile _ .refl, hfinish, by decide +kernel, by decide +kernel, _, List.mem_cons_self, 1,
    by decide +kernel, by decide +kernel⟩

end ModuleCompiler

end WasmBackend
