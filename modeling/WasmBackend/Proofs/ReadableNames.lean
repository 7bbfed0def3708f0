import WasmBackend.Proofs.CompilationOrder
import WasmBackend.Proofs.PrintedModule

/-! # Readable names

With readable names a call shows the class and the method of its callee, and the header of a
function shows its own. The signature is not shown, and characters that cannot stand in an identifier
are shown as `_`, so names can look alike (`LookAlike`).

This is the only way in which functions are confused (`readable_names`): calls show the same target
exactly if the names of their callees look alike, and a target stands in as many headers as there are
functions whose names look like that of the callee. Overloads of a method always look alike
(`overloads_alike`). -/

namespace WasmBackend

/-! ### Names that look alike -/

/-- The characters that are shown as `_`. -/
def blurred : List Char := ['_', ' ', '(', ')', ';', ',', '"', '[', ']', '\x7b', '\x7d']

/-- A character as it is shown. -/
def shownChar (c : Char) : Char := if c ∈ blurred then '_' else c

theorem textIdentifier_eq (name : String) :
    textIdentifier name = String.ofList (name.toList.map shownChar) := by
  refine congrArg String.ofList (List.map_congr_left fun c _ => ?_)
  by_cases hc : c = '_'
  · rw [hc]
    decide
  · simp only [shownChar, blurred, List.mem_cons, hc, false_or]

theorem shownChar_eq_iff {c d : Char} :
    shownChar c = shownChar d ↔ c = d ∨ c ∈ blurred ∧ d ∈ blurred := by
  have hself : '_' ∈ blurred := by decide
  unfold shownChar
  by_cases hc : c ∈ blurred <;> by_cases hd : d ∈ blurred <;> grind

/-- The names differ at most in characters that are shown as `_`. -/
def LookAlike (a b : String) : Prop :=
  List.Forall₂ (fun c d => c = d ∨ c ∈ blurred ∧ d ∈ blurred) a.toList b.toList

/-- **Identifiers are the same exactly if the names look alike.** -/
theorem textIdentifier_eq_iff {a b : String} :
    textIdentifier a = textIdentifier b ↔ LookAlike a b := by
  rw [textIdentifier_eq, textIdentifier_eq, String.ofList_inj, ← List.forall₂_eq_eq_eq,
    List.forall₂_map_left_iff, List.forall₂_map_right_iff]
  simp only [shownChar_eq_iff, LookAlike]

instance (a b : String) : Decidable (LookAlike a b) := decidable_of_iff _ textIdentifier_eq_iff

/-! ### Callees by name -/

theorem FunctionRegistry.lookup_entry_name {r : FunctionRegistry} {name : FunctionName} {id : Nat}
    (h : r.lookup name = some id) {entry : FunctionEntry} (hentry : r.entry id = .ok entry) :
    r.lookup entry.name = some id := by
  obtain ⟨found, hfound, hname⟩ := signatureName_of_lookup h
  have hsame : found = entry := by
    unfold FunctionRegistry.entry FunctionRegistry.get? at hentry
    rw [hfound] at hentry
    exact Except.ok.inj hentry
  rw [← h, FunctionRegistry.lookup, FunctionRegistry.lookup, ← hname, hsame]

/-- Every call names its callee, by a name that the registry knows. -/
def NamesCallees (functions : FunctionRegistry) (code : List Emission) : Prop :=
  ∀ name callee viewedAs, .call name callee viewedAs ∈ code → functions.lookup name = some callee

theorem NamesCallees.mono {functions functions' : FunctionRegistry} {code : List Emission}
    (h : NamesCallees functions code) (hext : functions.Extends functions') :
    NamesCallees functions' code :=
  fun name callee viewedAs hcall => hext.lookup (h name callee viewedAs hcall)

theorem NamesCallees.append {functions : FunctionRegistry} {code code' : List Emission}
    (h : NamesCallees functions code) (h' : NamesCallees functions code') :
    NamesCallees functions (code ++ code') := by
  intro name callee viewedAs hcall
  rcases List.mem_append.mp hcall with hfirst | hrest
  · exact h _ _ _ hfirst
  · exact h' _ _ _ hrest

theorem namesCallees_call {functions : FunctionRegistry} {name : FunctionName} {callee : Nat}
    (h : functions.lookup name = some callee) (viewedAs : Option WasmType) :
    NamesCallees functions [.call name callee viewedAs] := by
  intro name' callee' viewedAs' hcall
  cases List.mem_singleton.mp hcall
  exact h

theorem namesCallees_of_no_callee {functions : FunctionRegistry} {code : List Emission}
    (h : code.filterMap Emission.callee? = []) : NamesCallees functions code := by
  intro name callee viewedAs hcall
  cases List.filterMap_eq_nil_iff.mp h _ hcall

/-- Code of an instruction names its callee. -/
theorem namesCallees_code {options : Options} {types : TypeRegistry} {i : Instruction}
    {functions functions' : FunctionRegistry} {code : List Emission}
    (h : i.code options types functions = (.ok code, functions')) :
    NamesCallees functions' code := by
  -- most instructions call nothing, so only those with a callee have to be looked at
  rcases hcallee : i.callee? options types with _ | callee
  · have hcalls := (generates_code h).calls
    rw [hcallee] at hcalls
    exact namesCallees_of_no_callee (List.forall₂_nil_left_iff.mp hcalls)
  rcases i with ⟨position, kind⟩
  cases kind with
  | call name viewedAs =>
    obtain ⟨hcode, rfl⟩ := Prod.mk.inj h
    obtain ⟨ty, -, rfl⟩ := map_eq_ok.mp hcode
    exact namesCallees_call (functions.lookup_mark name false) ty
  | stringConst id ty =>
    change Instruction.stringCode id options functions = _ at h
    unfold Instruction.stringCode at h
    dsimp only at h
    split_ifs at h
    · cases h
      have hoffset := (functions.mark (StringPool.accessor options) false).2.extends_markSynthetic
        (StringPool.offsetFunction options) (StringPool.constantBody 0)
      have hnumber := filterMap_callee?_target [.i32Const (Int32.ofNat id)]
      exact (namesCallees_of_no_callee hnumber).append
        (namesCallees_call (hoffset.lookup (functions.lookup_mark _ false)) none)
    · cases h
  | array op element array =>
    change Instruction.arrayCode op element array options types functions = _ at h
    unfold Instruction.arrayCode at h
    split at h
    · cases h
    · next hselect =>
      obtain ⟨a, ha, ⟨hhelper, -, -⟩ | ⟨name, body, -, hsome, -⟩⟩ := select_eq_ok hselect
      · rw [callee?_array ha hhelper] at hcallee
        cases hcallee
      · cases hsome
    · next hselect =>
      obtain ⟨a, -, ⟨-, hnone, -⟩ | ⟨name, body, -, hid, rfl⟩⟩ := select_eq_ok hselect
      · cases hnone
      · cases hid
        obtain ⟨hcode, rfl⟩ := Prod.mk.inj h
        obtain ⟨entry, hentry, hcode⟩ := bind_eq_ok.mp hcode
        cases hcode
        -- the call has the name of the entry, which may be an earlier one with the same key
        have hlookup := functions.lookup_markSynthetic name body
        exact (namesCallees_call (FunctionRegistry.lookup_entry_name hlookup hentry) none).append
          (namesCallees_of_no_callee (filterMap_callee?_target _))
  | _ => cases hcallee

theorem namesCallees_bodyCode {options : Options} {types : TypeRegistry}
    {functions functions' : FunctionRegistry} {body : List Instruction} {code : List Emission}
    (h : bodyCode options types functions body = some (code, functions')) :
    NamesCallees functions' code := by
  induction body generalizing functions code with
  | nil =>
    cases h
    exact namesCallees_of_no_callee rfl
  | cons i rest ih =>
    obtain ⟨first, next, more, hfirst, hmore, rfl⟩ := bodyCode_cons.mp h
    exact ((namesCallees_code hfirst).mono (extends_bodyCode hmore)).append (ih hmore)

/-- **The calls of every complete function name their callees.** -/
theorem Session.namesCallees_of_mem_completed {s : Session} (hnew : s.writer.completed = [])
    (requests : List Request) {f : FunctionDraft} (hf : f ∈ (s.run requests).writer.completed) :
    NamesCallees (s.run requests).compiler.functions f.body := by
  obtain ⟨before, code, after, rfl, stages, rfl⟩ := exists_stages_of_mem_completed hnew requests hf
  have hkeeps := ((s.run (before ++ [.compile code])).run_of_session after).keeps.functions
  rw [← run_append, List.append_assoc, List.singleton_append, run_concat,
    serve_of_stages stages] at hkeeps
  rw [stages.body_eq]
  exact (namesCallees_bodyCode stages.written).mono hkeeps

/-! ### Functions as they are shown -/

/-- A call as it is shown. -/
structure ShownCall where
  /-- The name by which a function is called. -/
  name : FunctionName
  /-- The number of the function. -/
  callee : Nat
  /-- What is shown of the name. -/
  target : String
  deriving DecidableEq

/-- A line of code. -/
inductive ShownLine
  | instr (depth : Nat) (op : TargetOp)
  | call (depth : Nat) (shown : ShownCall) (comment : String)

/-- A function of a text. -/
structure ShownFunction where
  name : String
  /-- Parameters and result. -/
  types : String
  locals : String
  lines : List ShownLine

namespace ShownLine

def text : ShownLine → String
  | instr depth op => CallStyle.indent depth ++ op.text
  | call depth shown comment => CallStyle.indent depth ++ ("call $" ++ shown.target ++ comment)

def call? : ShownLine → Option ShownCall
  | instr _ _ => none
  | call _ shown _ => some shown

/-- The line shows an emission: an instruction in which a scratch local has its place, or a call
with the identifier of the callee. -/
inductive Shows : ShownLine → Emission → Prop
  | instr (depth : Nat) {place : Nat × WasmType → Nat} {op : CodeOp} {shown : TargetOp} :
      (Emission.op op).place place = .op shown → Shows (.instr depth shown) (.op op)
  | call (depth : Nat) (name : FunctionName) (callee : Nat) (viewedAs : Option WasmType) :
      Shows (.call depth ⟨name, callee, textIdentifier name.fullName⟩
        (Emission.call name callee viewedAs).comment) (.call name callee viewedAs)

end ShownLine

namespace ShownFunction

def text (f : ShownFunction) : String :=
  "(func $" ++ f.name ++ f.types ++ "\n" ++ f.locals ++
    String.join (f.lines.map fun line => line.text ++ "\n") ++ ")\n"

/-- The calls of the function. -/
def calls (f : ShownFunction) : List ShownCall := f.lines.filterMap ShownLine.call?

/-- The function is that of a draft, line by line. -/
structure Shows (shown : ShownFunction) (f : FunctionDraft) : Prop where
  name : shown.name = textIdentifier f.name
  lines : List.Forall₂ ShownLine.Shows shown.lines f.body

end ShownFunction

/-- The lines of code with readable names. -/
theorem CallStyle.exists_lines_of_named {style : CallStyle} (h : style.named = true)
    (place : Nat × WasmType → Nat) (code : List Emission) (depth : Nat) :
    ∃ lines : List ShownLine, List.Forall₂ ShownLine.Shows lines code ∧
      style.lines depth (code.map (Emission.place place)) = .ok (lines.map ShownLine.text) := by
  induction code generalizing depth with
  | nil => exact ⟨[], .nil, rfl⟩
  | cons e rest ih =>
    rcases e with op | ⟨name, callee, viewedAs⟩
    · obtain ⟨instr, hinstr⟩ : ∃ instr, (Emission.op op).place place = .op instr := by
        cases op <;> exact ⟨_, rfl⟩
      obtain ⟨lines, hshows, hlines⟩ := ih (instr.depthAfter depth)
      rw [List.map_cons, hinstr]
      exact ⟨_, .cons (.instr _ hinstr) hshows, lines_op_at hlines⟩
    · obtain ⟨lines, hshows, hlines⟩ := ih depth
      have hcall : style.callText name callee viewedAs =
          .ok ("call $" ++ textIdentifier name.fullName ++
            (Emission.call name callee viewedAs).comment) := by
        unfold CallStyle.callText
        rw [if_pos h]
        cases viewedAs <;> rfl
      exact ⟨_, .cons (.call depth name callee viewedAs) hshows,
        bind_eq_ok.mpr ⟨_, hcall, bind_eq_ok.mpr ⟨_, hlines, rfl⟩⟩⟩

theorem FunctionDraft.exists_shown (f : FunctionDraft) {style : CallStyle}
    (h : style.named = true) :
    ∃ shown : ShownFunction, shown.Shows f ∧ f.text style = .ok shown.text := by
  obtain ⟨lines, hshows, hlines⟩ := CallStyle.exists_lines_of_named h
    (fun key => f.scratchBase + f.scratch.idxOf key) f.body 0
  obtain ⟨types, htypes⟩ : ∃ types, f.header = "(func $" ++ textIdentifier f.name ++ types :=
    ⟨_, String.append_assoc⟩
  refine ⟨⟨textIdentifier f.name, types, f.localsText, lines⟩, ⟨rfl, hshows⟩, ?_⟩
  refine bind_eq_ok.mpr ⟨_, hlines, ?_⟩
  rw [pure_eq_ok, htypes, List.map_map]
  rfl

/-- **The output of a text, function by function.** -/
theorem TextModule.Printed.exists_shown {m : TextModule} (h : m.Printed) :
    ∃ shown, List.Forall₂ ShownFunction.Shows shown m.functions ∧
      m.output = String.join (shown.map ShownFunction.text) := by
  obtain ⟨texts, htexts, houtput⟩ := h.output
  have hfunctions : ∀ f ∈ m.functions, ∃ shown : ShownFunction,
      shown.Shows f ∧ f.text m.style = .ok shown.text :=
    fun f _ => f.exists_shown h.named
  obtain ⟨shown, hshown⟩ := exists_forall₂ hfunctions
  refine ⟨shown, (hshown.imp fun _ _ hf => hf.1).flip, ?_⟩
  have hsame : shown.map ShownFunction.text = texts := by
    rw [← List.forall₂_eq_eq_eq, List.forall₂_map_left_iff]
    refine forall₂_comp (fun s f text hs htext => ?_) hshown.flip htexts
    exact Except.ok.inj (hs.2.symm.trans htext)
  rw [houtput, hsame]

/-! ### Calls and headers -/

/-- The calls of a text. -/
def shownCalls (text : List ShownFunction) : List ShownCall := text.flatMap ShownFunction.calls

/-- In the text of some functions, names are confused only if they look alike. Calls are those of
functions of the registry; targets are the same for callees that look alike; and a target stands in
one header for each function that looks like the callee. -/
structure Readable (r : FunctionRegistry) (functions : List FunctionName)
    (text : List ShownFunction) : Prop where
  callee : ∀ call ∈ shownCalls text, r.lookup call.name = some call.callee
  target : ∀ call ∈ shownCalls text, ∀ other ∈ shownCalls text,
    call.target = other.target ↔ LookAlike call.name.fullName other.name.fullName
  headers : ∀ call ∈ shownCalls text, (text.map ShownFunction.name).count call.target =
    functions.countP fun name => LookAlike name.fullName call.name.fullName

/-- A call as it is shown with the identifier of its callee. -/
def Emission.shownCall? : Emission → Option ShownCall
  | .op _ => none
  | .call name callee _ => some ⟨name, callee, textIdentifier name.fullName⟩

theorem ShownFunction.Shows.calls_eq {shown : ShownFunction} {f : FunctionDraft}
    (h : shown.Shows f) : shown.calls = f.body.filterMap Emission.shownCall? := by
  obtain ⟨-, hlines⟩ := h
  unfold ShownFunction.calls
  generalize shown.lines = lines at hlines
  generalize f.body = body at hlines
  induction hlines with
  | nil => rfl
  | cons hline _ ih =>
    cases hline with
    | instr depth _ => exact ih
    | call depth name callee viewedAs => exact congrArg _ ih

theorem count_textIdentifier (functions : List FunctionName) (name : FunctionName) :
    ((functions.map FunctionName.fullName).map textIdentifier).count
        (textIdentifier name.fullName) =
      functions.countP fun other => LookAlike other.fullName name.fullName := by
  rw [List.map_map, List.count_eq_countP, List.countP_map]
  refine List.countP_congr fun other _ => ?_
  simp [textIdentifier_eq_iff]

theorem readable_of_shows {r : FunctionRegistry} {functions : List FunctionName}
    {drafts : List FunctionDraft} {text : List ShownFunction}
    (hshows : List.Forall₂ ShownFunction.Shows text drafts)
    (hfunctions : (drafts.map FunctionDraft.name).Perm (functions.map FunctionName.fullName))
    (hcallees : ∀ f ∈ drafts, NamesCallees r f.body) : Readable r functions text := by
  have hcall : ∀ call ∈ shownCalls text, call.target = textIdentifier call.name.fullName ∧
      r.lookup call.name = some call.callee := by
    intro call hcall
    obtain ⟨shown, hshown, hcall⟩ := List.mem_flatMap.mp hcall
    obtain ⟨f, hf, hshow⟩ := exists_right_of_mem hshows hshown
    rw [hshow.calls_eq] at hcall
    obtain ⟨e, he, hcall⟩ := List.mem_filterMap.mp hcall
    cases e with
    | op op => cases hcall
    | call name callee viewedAs =>
      cases hcall
      exact ⟨rfl, hcallees f hf _ _ _ he⟩
  have hheaders : (text.map ShownFunction.name).Perm
      ((functions.map FunctionName.fullName).map textIdentifier) := by
    have hnames : text.map ShownFunction.name =
        (drafts.map FunctionDraft.name).map textIdentifier := by
      rw [List.map_map]
      exact map_eq_map_of_forall₂ hshows fun _ _ hshow => hshow.name
    rw [hnames]
    exact hfunctions.map _
  refine ⟨fun call hmem => (hcall call hmem).2, ?_, ?_⟩
  · intro call hmem other hother
    rw [(hcall call hmem).1, (hcall other hother).1]
    exact textIdentifier_eq_iff
  · intro call hmem
    rw [hheaders.count_eq, (hcall call hmem).1]
    exact count_textIdentifier functions call.name

namespace Session

theorem nonempty_printedFinish_run (options style : Options)
    (hnames : style.debugNames = true) (requests : List Request) :
    Nonempty (ModuleCompiler.PrintedFinish ((newText options style).run requests).compiler
      ((newText options style).run requests).writer) := by
  have hstep := (inStep_new options style).run requests
  have hprinted := printed_run (s := newText options style) (ModuleWriter.printed_newText hnames)
    requests
  have hdrafting := ModuleCompiler.drafting_of_run ((new options).run_of_session requests)
  refine ModuleCompiler.nonempty_printedFinish hprinted (hstep.compiler ▸ hdrafting.sound) ?_
  intro f hf
  obtain ⟨drafts, hcompleted, hdrafted⟩ := (newText options style).completed_run requests
  rw [hcompleted] at hf
  obtain ⟨function, -, hdraft⟩ := exists_left_of_mem hdrafted hf
  obtain ⟨entry, hentry, -⟩ := FunctionRegistry.signatureName_of_lookup hdraft.lookup
  rw [hdraft.id]
  exact (List.getElem?_eq_some_iff.mp hentry).1

theorem map_name_completed {s : Session} (hnew : s.writer.completed = [])
    (requests : List Request) {c : ModuleCompiler}
    {written : List (FunctionEntry × List CodeOp)} {drafts : List FunctionDraft}
    (hdrafts : List.Forall₂ (fun f d => c.codeDraft f = .ok d) written drafts) :
    ((s.run requests).writer.completed ++ drafts).map FunctionDraft.name =
      ((s.compiled requests).map Prod.fst ++ written.map fun f => f.1.name).map
        FunctionName.fullName := by
  obtain ⟨compiled, hcompleted, hcompiled⟩ := s.completed_run requests
  rw [hnew, List.nil_append] at hcompleted
  have hfirst : (s.compiled requests).map (FunctionName.fullName ∘ Prod.fst) =
      compiled.map FunctionDraft.name :=
    map_eq_map_of_forall₂ hcompiled fun _ _ hdraft => hdraft.name.symm
  have hrest : written.map (FunctionName.fullName ∘ fun f => f.1.name) =
      drafts.map FunctionDraft.name := by
    refine map_eq_map_of_forall₂ hdrafts fun _ _ hdraft => ?_
    obtain ⟨params, result, -, -, rfl⟩ := ModuleCompiler.codeDraft_eq_ok hdraft
    rfl
  rw [hcompleted, List.map_append, List.map_append, List.map_map, List.map_map, hfirst, hrest]

theorem readable_of_printedFinish {options style : Options} {requests : List Request}
    (finish : ModuleCompiler.PrintedFinish ((newText options style).run requests).compiler
      ((newText options style).run requests).writer)
    {text : List ShownFunction}
    (hshows : List.Forall₂ ShownFunction.Shows text finish.module.functions) :
    Readable ((newText options style).run requests).finish.compiler.functions
      (((newText options style).compiled requests).map Prod.fst ++
        finish.written.map fun f => f.1.name) text := by
  refine readable_of_shows hshows ?_ ?_
  · rw [← map_name_completed (s := newText options style) rfl requests finish.drafted]
    exact finish.functions.map _
  · intro f hf
    rcases List.mem_append.mp (finish.functions.mem_iff.mp hf) with hcompleted | hcode
    · have hcallees := namesCallees_of_mem_completed (s := newText options style) rfl requests
        hcompleted
      exact hcallees.mono (ModuleCompiler.extends_finish _ _)
    · obtain ⟨function, -, hdraft⟩ := exists_left_of_mem finish.drafted hcode
      obtain ⟨params, result, -, -, rfl⟩ := ModuleCompiler.codeDraft_eq_ok hdraft
      exact namesCallees_of_no_callee (filterMap_callee?_op _)

/-- **Readable names are confused only if they look alike.** In a text with readable names, after
any requests and an attempt to finish it, calls show the same target exactly if the names by which
they call look alike; and a target stands in the headers of those functions whose names look alike,
among the compiled functions and the code functions of the registry, which are all written if the
module is finished. -/
theorem readable_names (options style : Options) (hnames : style.debugNames = true)
    (requests : List Request) :
    let s := (newText options style).run requests
    let r := s.finish.compiler.functions
    ∃ m text written, s.finish.writer = .text m ∧
      m.output = String.join (text.map ShownFunction.text) ∧
      List.Forall₂ ShownFunction.Shows text m.functions ∧
      written <+: r.codeFunctions.map (fun f => f.1.name) ∧
      (s.finish.result = .ok () → written = r.codeFunctions.map fun f => f.1.name) ∧
      Readable r (((newText options style).compiled requests).map Prod.fst ++ written) text := by
  intro s r
  obtain ⟨finish⟩ := nonempty_printedFinish_run options style hnames requests
  obtain ⟨text, hshows, houtput⟩ := finish.printed.exists_shown
  exact ⟨finish.module, text, finish.written.map fun f => f.1.name, finish.writer, houtput, hshows,
    finish.isPrefix.map _, fun hok => congrArg _ (finish.all hok),
    readable_of_printedFinish finish hshows⟩

/-- A name of a procedure of the main class. -/
def mainName (methodName signature : String) (params : List OperandType) : FunctionName :=
  { className := "Main", methodName, signature, params, result := none }

/-- A procedure that calls itself and a procedure that is not compiled. -/
def recursing : FunctionCode :=
  { name := mainName "run" "()V" []
    instructions := [⟨.unknown, .call (mainName "run" "()V" []) none⟩,
      ⟨.unknown, .call (mainName "step" "()V" []) none⟩] }

/-- What is written for the procedure. -/
def recursingDraft : FunctionDraft :=
  { id := 0, name := "Main.run", params := [], result := none, locals := []
    body := [.call (mainName "run" "()V" []) 0 none, .call (mainName "step" "()V" []) 1 none] }

/-- The first target has one header, the second one has none. -/
theorem readable_names_recursing :
    let s := (newText {} { debugNames := true }).run [.compile recursing]
    s.finish.result = .ok () ∧ ∃ m text, s.finish.writer = .text m ∧
      m.output = "(func $Main.run\n  call $Main.run\n  call $Main.step\n)\n" ∧
      m.output = String.join (text.map ShownFunction.text) ∧
      (shownCalls text).map ShownCall.target = ["Main.run", "Main.step"] ∧
      ((shownCalls text).map fun call => (text.map ShownFunction.name).count call.target) =
        [1, 0] := by
  intro s
  have hresult : s.finish.result = .ok () := by decide +kernel
  have hfinished : s.finish.writer = .text
      { debugNames := true, functions := [recursingDraft]
        indices := some (.ofRegistry s.finish.compiler.functions)
        output := "(func $Main.run\n  call $Main.run\n  call $Main.step\n)\n" } := by
    decide +kernel
  obtain ⟨m, text, written, hwriter, houtput, hshows, -, hall, hreadable⟩ :=
    readable_names {} { debugNames := true } rfl [.compile recursing]
  obtain rfl := ModuleWriter.text.inj (hwriter.symm.trans hfinished)
  obtain ⟨shown, rfl, hshow⟩ : ∃ shown, text = [shown] ∧ shown.Shows recursingDraft := by
    cases hshows with
    | cons hshow hrest =>
      cases hrest
      exact ⟨_, rfl, hshow⟩
  have hcalls : shownCalls [shown] = recursingDraft.body.filterMap Emission.shownCall? := by
    rw [shownCalls, List.flatMap_singleton, hshow.calls_eq]
  have hwritten : written = [] := (hall hresult).trans (by decide +kernel)
  refine ⟨hresult, _, [shown], hfinished, rfl, houtput, ?_, ?_⟩
  · rw [hcalls]
    decide +kernel
  · rw [List.map_congr_left hreadable.headers, hcalls, hwritten]
    decide +kernel

/-- Two procedures that differ in their parameters only, and one that calls both. -/
def overloads : List Request :=
  [.compile { name := mainName "step" "()V" [], instructions := [] },
    .compile { name := mainName "step" "(I)V" [.i32], instructions := [] },
    .compile
      { name := mainName "run" "()V" []
        instructions := [⟨.unknown, .call (mainName "step" "()V" []) none⟩,
          ⟨.unknown, .const (.i32 1)⟩,
          ⟨.unknown, .call (mainName "step" "(I)V" [.i32]) none⟩] }]

/-- What is written for the procedure that calls the other ones. -/
def overloadsDraft : FunctionDraft :=
  { id := 2, name := "Main.run", params := [], result := none, locals := []
    body := [.call (mainName "step" "()V" []) 0 none, .target (.i32Const 1),
      .call (mainName "step" "(I)V" [.i32]) 1 none] }

/-- Overloads have different signatures, but calls of them show the same target, which stands in
both headers. -/
theorem overloads_alike :
    let start := newText {} { debugNames := true }
    let finished := (start.run overloads).finish
    ((start.compiled overloads).map fun f => f.1.signatureName).Nodup ∧
      finished.result = .ok () ∧ ∃ m text, finished.writer = .text m ∧
        m.output = String.join (text.map ShownFunction.text) ∧
        List.Forall₂ ShownFunction.Shows text m.functions ∧
        ∃ call ∈ shownCalls text, ∃ other ∈ shownCalls text, call.callee ≠ other.callee ∧
          call.target = other.target ∧ (text.map ShownFunction.name).count call.target = 2 := by
  intro start finished
  have hdistinct : ((start.compiled overloads).map fun f => f.1.signatureName).Nodup := by
    decide +kernel
  have hsignatures : ((new {}).run overloads).signatures =
      .ok [⟨"Main.step", [], none⟩, ⟨"Main.step", [.value .i32], none⟩,
        ⟨"Main.run", [], none⟩] := by
    decide +kernel
  -- both forms can be finished together, and a binary module is known to be finished
  have hbinary := (finish_signatures (by decide +kernel) (by decide +kernel) (by decide +kernel)
    (by decide +kernel) hsignatures).1
  have hresult : finished.result = .ok () :=
    ((inStep_new {} { debugNames := true }).run overloads).finish.ok hbinary
  obtain ⟨finish⟩ := nonempty_printedFinish_run {} { debugNames := true } rfl overloads
  obtain ⟨text, hshows, houtput⟩ := finish.printed.exists_shown
  have hreadable := readable_of_printedFinish finish hshows
  have hwritten : finish.written = [] := (finish.all hresult).trans (by decide +kernel)
  have hf : overloadsDraft ∈ finish.module.functions := by
    refine finish.functions.mem_iff.mpr (List.mem_append_left _ ?_)
    decide +kernel
  obtain ⟨shown, hshown, hshow⟩ := exists_left_of_mem hshows hf
  have hcalls : ∀ call ∈ overloadsDraft.body.filterMap Emission.shownCall?,
      call ∈ shownCalls text := by
    intro call hcall
    exact List.mem_flatMap.mpr ⟨shown, hshown, hshow.calls_eq ▸ hcall⟩
  have hcall := hcalls ⟨mainName "step" "()V" [], 0, "Main.step"⟩ (by decide +kernel)
  have hother := hcalls ⟨mainName "step" "(I)V" [.i32], 1, "Main.step"⟩ (by decide +kernel)
  refine ⟨hdistinct, hresult, finish.module, text, finish.writer, houtput, hshows, _, hcall, _,
    hother, by decide, rfl, ?_⟩
  rw [hreadable.headers _ hcall, hwritten]
  decide +kernel

end Session

end WasmBackend
