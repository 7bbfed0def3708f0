import WasmBackend.Proofs.CodeSection
import WasmBackend.Proofs.Recompilation

/-! # Listings of binary functions

A module that is written in text form and in binary form is the same module twice. If functions are
not named in calls, the finished text is a listing of the finished binary module: function by
function in the order of the bodies, the header, the types of the locals and one line for each
instruction that the body decodes to, indented by block depth (`output_eq_listings`). A listing is
made of words (`listingLine`), apart from the code that writes texts.

The text has one thing that the binary form has not: behind a call whose result the caller views as
another type, a comment gives that type. And it tells packed types of locals apart that have the same
code (`text_not_determined`). -/

namespace WasmBackend

/-! ### The format of a listing -/

/-- A line with words, behind two blanks for each level. -/
def listingLine (level : Nat) (words : List String) : String :=
  String.join (List.replicate level "  ") ++ " ".intercalate words

/-- A clause with types, such as `(param i32 i64)`. There is none without types. -/
def typeClause (keyword : String) (types : List WasmType) : List String :=
  if types.isEmpty then [] else ["(" ++ " ".intercalate (keyword :: types.map WasmType.name) ++ ")"]

/-- The name of an instruction and its operands. -/
def TargetOp.words : TargetOp → List String
  | plain op => [op.name]
  | i32Const v => ["i32.const", toString v.toInt]
  | i64Const v => ["i64.const", toString v.toInt]
  | f32Const v => ["f32.const", floatLiteral v.value v.text]
  | f64Const v => ["f64.const", floatLiteral v.value v.text]
  | indexed op index => [op.name, toString index]
  | structGet typeIndex field => ["struct.get", toString typeIndex, toString field]
  | block op => [op.name]

theorem TargetOp.text_eq (op : TargetOp) : op.text = " ".intercalate op.words := by
  cases op <;> rfl

theorem indent_eq (depth : Nat) :
    CallStyle.indent depth = String.join (List.replicate (depth + 1) "  ") := by
  refine String.toList_inj.mp ?_
  rw [CallStyle.indent, String.toList_ofList, String.toList_join]
  induction depth with
  | zero => rfl
  | succ depth ih =>
    rw [List.replicate_succ, List.flatMap_cons, ← ih, Nat.mul_succ, Nat.add_comm, List.replicate_add]
    rfl

theorem intercalate_cons (word : String) (words : List String) :
    " ".intercalate (word :: words) = word ++ String.join (words.map (" " ++ ·)) := by
  induction words generalizing word with
  | nil => simp
  | cons next words ih =>
    rw [String.intercalate_cons_cons, ih, List.map_cons, String.join_cons, String.append_assoc,
      String.append_assoc]

theorem join_typeClause (keyword : String) (types : List WasmType) :
    String.join ((typeClause keyword types).map (" " ++ ·)) =
      if types.isEmpty then ""
      else " (" ++ keyword ++ String.join (types.map fun ty => " " ++ ty.name) ++ ")" := by
  unfold typeClause
  split
  · rfl
  · have hopen : " (" = " " ++ "(" := rfl
    rw [intercalate_cons, List.map_map, hopen]
    simp only [List.map_cons, List.map_nil, String.join_cons, String.join_nil, String.append_empty,
      String.append_assoc, Function.comp_def]

theorem FunctionDraft.header_eq (f : FunctionDraft) :
    f.header = listingLine 0 (["(func", "$" ++ textIdentifier f.name] ++
      typeClause "param" f.params ++ typeClause "result" f.result.toList) := by
  have hwords : listingLine 0 (["(func", "$" ++ textIdentifier f.name] ++
        typeClause "param" f.params ++ typeClause "result" f.result.toList) =
      "(func $" ++ textIdentifier f.name ++
        String.join ((typeClause "param" f.params).map (" " ++ ·)) ++
        String.join ((typeClause "result" f.result.toList).map (" " ++ ·)) := by
    have hopen : "(func $" = "(func" ++ (" " ++ "$") := rfl
    rw [hopen, listingLine, List.append_assoc, List.cons_append, intercalate_cons]
    simp only [List.cons_append, List.nil_append, List.map_cons, List.map_append, String.join_cons,
      String.join_append, String.append_assoc, List.replicate_zero, String.join_nil,
      String.empty_append]
  rw [hwords, join_typeClause, join_typeClause]
  unfold header
  cases f.result <;> rfl

theorem FunctionDraft.localsText_eq (f : FunctionDraft) :
    f.localsText = String.join ((typeClause "local" f.declared).map fun clause =>
      listingLine 1 [clause] ++ "\n") := by
  unfold localsText typeClause
  split
  · rfl
  · next h =>
    have hopen : "  (local " = "  " ++ "(" ++ "local" ++ " " := rfl
    have hclose : ")\n" = ")" ++ "\n" := rfl
    rw [String.intercalate_cons_of_ne_nil (by simpa using h), hopen, hclose]
    simp only [listingLine, List.map_cons, List.map_nil, String.join_cons, String.join_nil,
      String.append_empty, String.append_assoc, List.replicate_one, String.intercalate_singleton]

/-! ### Lines of decoded code -/

/-- The block depth behind an instruction. -/
def TargetOp.depthAfter (depth : Nat) : TargetOp → Nat
  | .block _ => depth + 1
  | op => if op = .plain .endBlock then depth - 1 else depth

/-- The block depth behind some code. -/
def blockDepth (code : List TargetOp) : Nat := code.foldl TargetOp.depthAfter 0

/-- The depth at which an instruction is shown behind some code. The `end` of a block stands where
the block was opened. -/
def shownDepth (before : List TargetOp) (op : TargetOp) : Nat :=
  if op = .plain .endBlock then blockDepth before - 1 else blockDepth before

/-- The comment behind a call whose result is viewed as another type. -/
def Emission.comment : Emission → String
  | .call _ _ (some ty) => " ;; -> " ++ ty.name
  | _ => ""

/-- Lines of code that follows other code; each one has the comment at its place. -/
def codeLines (before code : List TargetOp) (comments : List String) : List String :=
  code.mapIdx fun place op =>
    listingLine (shownDepth (before ++ code.take place) op + 1) op.words ++ comments.getD place ""

theorem codeLines_cons (before : List TargetOp) (op : TargetOp) (code : List TargetOp)
    (comment : String) (comments : List String) :
    codeLines before (op :: code) (comment :: comments) =
      (CallStyle.indent (shownDepth before op) ++ op.text ++ comment) ::
        codeLines (before ++ [op]) code comments := by
  simp [codeLines, List.mapIdx_cons, listingLine, indent_eq, TargetOp.text_eq]

theorem blockDepth_concat (before : List TargetOp) (op : TargetOp) :
    blockDepth (before ++ [op]) = op.depthAfter (blockDepth before) :=
  List.foldl_concat ..

theorem lines_op_at {style : CallStyle} {depth : Nat} {op : TargetOp} {rest : List BodyOp}
    {lines : List String} (h : style.lines (op.depthAfter depth) rest = .ok lines) :
    style.lines depth (.op op :: rest) =
      .ok ((CallStyle.indent (if op = .plain .endBlock then depth - 1 else depth) ++ op.text) ::
        lines) := by
  cases op <;> exact bind_eq_ok.mpr ⟨lines, h, rfl⟩

theorem lines_op {style : CallStyle} {before : List TargetOp} {op : TargetOp} {rest : List BodyOp}
    {lines : List String} (h : style.lines (blockDepth (before ++ [op])) rest = .ok lines) :
    style.lines (blockDepth before) (.op op :: rest) =
      .ok ((CallStyle.indent (shownDepth before op) ++ op.text) :: lines) := by
  rw [blockDepth_concat] at h
  exact lines_op_at h

theorem text_call (index : Nat) (comment : String) :
    s!"call {index}{comment}" = (TargetOp.indexed .call index).text ++ comment := by
  show "call " ++ toString index ++ comment = "call" ++ " " ++ toString index ++ comment
  rfl

/-- A call has the line of the instruction that it stands for, and its comment. -/
theorem lines_call {r : FunctionRegistry} {name : FunctionName} {callee index : Nat}
    {viewedAs : Option WasmType} (hindex : r.indexOf? callee = some index)
    {before : List TargetOp} {rest : List BodyOp} {lines : List String}
    (h : CallStyle.lines ⟨false, some (.ofRegistry r)⟩
      (blockDepth (before ++ [.indexed .call index])) rest = .ok lines) :
    CallStyle.lines ⟨false, some (.ofRegistry r)⟩ (blockDepth before)
        (.call name callee viewedAs :: rest) =
      .ok ((CallStyle.indent (shownDepth before (.indexed .call index)) ++
        (TargetOp.indexed .call index).text ++
        (Emission.call name callee viewedAs).comment) :: lines) := by
  have hget := FunctionRegistry.get_ofRegistry.mpr hindex
  have hcall : CallStyle.callText ⟨false, some (.ofRegistry r)⟩ name callee viewedAs =
      .ok ((TargetOp.indexed .call index).text ++
        (Emission.call name callee viewedAs).comment) := by
    unfold CallStyle.callText
    dsimp only
    rw [hget]
    cases viewedAs with
    | none => exact congrArg Except.ok (text_call index _)
    | some ty => exact congrArg Except.ok (text_call index _)
  rw [blockDepth_concat] at h
  refine bind_eq_ok.mpr ⟨_, hcall, bind_eq_ok.mpr ⟨lines, h, ?_⟩⟩
  rw [pure_eq_ok, String.append_assoc]
  rfl

/-- The lines that are written for emissions are those of the instructions they stand for. -/
theorem lines_of_resolved {base : Nat} {scratch : List (Nat × WasmType)} {r : FunctionRegistry}
    {code : List Emission} {ops : List TargetOp}
    (hscratch : ∀ e ∈ code, ∀ key, e.scratch? = some key → key ∈ scratch)
    (h : code.mapM (Emission.resolved? base scratch r) = some ops) (before : List TargetOp) :
    CallStyle.lines ⟨false, some (.ofRegistry r)⟩ (blockDepth before)
        (code.map (Emission.place fun key => base + scratch.idxOf key)) =
      .ok (codeLines before ops (code.map Emission.comment)) := by
  induction code generalizing ops before with
  | nil =>
    cases h
    rfl
  | cons e rest ih =>
    simp only [List.mapM_cons, Option.bind_eq_bind, Option.bind_eq_some_iff, Option.pure_def,
      Option.some.injEq] at h
    obtain ⟨instr, hinstr, others, hothers, rfl⟩ := h
    have hrest := ih (fun e' he' => hscratch e' (List.mem_cons_of_mem _ he')) hothers
      (before ++ [instr])
    rw [List.map_cons, List.map_cons, codeLines_cons]
    rcases e with op | ⟨name, callee, viewedAs⟩
    · -- what is no call has no comment
      have hplaced : (Emission.op op).place (fun key => base + scratch.idxOf key) = .op instr := by
        cases op with
        | target instr' =>
          cases hinstr
          rfl
        | scratchSet n ty =>
          obtain ⟨hplace, -⟩ := idxOf?_of_mem (hscratch _ List.mem_cons_self (n, ty) rfl)
          simp only [Emission.resolved?, hplace, Option.map_some, Option.some.injEq] at hinstr
          rw [← hinstr]
          rfl
        | scratchGet n ty =>
          obtain ⟨hplace, -⟩ := idxOf?_of_mem (hscratch _ List.mem_cons_self (n, ty) rfl)
          simp only [Emission.resolved?, hplace, Option.map_some, Option.some.injEq] at hinstr
          rw [← hinstr]
          rfl
      have hnone : (Emission.op op).comment = "" := rfl
      rw [hplaced, hnone, String.append_empty]
      exact lines_op hrest
    · obtain ⟨index, hindex, rfl⟩ := Option.map_eq_some_iff.mp hinstr
      exact lines_call hindex hrest

/-- Code has lines only if its callees have an index. -/
theorem calleeBelow_of_lines {r : FunctionRegistry} {index : Nat × WasmType → Nat}
    {code : List Emission} {depth : Nat} {lines : List String}
    (h : CallStyle.lines ⟨false, some (.ofRegistry r)⟩ depth (code.map (Emission.place index)) =
      .ok lines) : ∀ e ∈ code, e.CalleeBelow r.count := by
  induction code generalizing depth lines with
  | nil => simp
  | cons e rest ih =>
    rw [List.map_cons] at h
    have hsplit : e.CalleeBelow r.count ∧ ∃ depth' lines',
        CallStyle.lines ⟨false, some (.ofRegistry r)⟩ depth' (rest.map (Emission.place index)) =
          .ok lines' := by
      rcases e with op | ⟨name, callee, viewedAs⟩
      · refine ⟨trivial, ?_⟩
        cases op with
        | target instr =>
          cases instr <;>
          · obtain ⟨lines', hlines, -⟩ := bind_eq_ok.mp h
            exact ⟨_, lines', hlines⟩
        | scratchSet n ty =>
          obtain ⟨lines', hlines, -⟩ := bind_eq_ok.mp h
          exact ⟨_, lines', hlines⟩
        | scratchGet n ty =>
          obtain ⟨lines', hlines, -⟩ := bind_eq_ok.mp h
          exact ⟨_, lines', hlines⟩
      · obtain ⟨call, hcall, h⟩ := bind_eq_ok.mp h
        obtain ⟨lines', hlines, -⟩ := bind_eq_ok.mp h
        refine ⟨?_, _, lines', hlines⟩
        unfold CallStyle.callText at hcall
        dsimp only at hcall
        obtain ⟨k, hk, -⟩ := map_eq_ok.mp hcall
        obtain ⟨entry, hentry, -⟩ :=
          Option.map_eq_some_iff.mp (FunctionRegistry.get_ofRegistry.mp hk)
        exact (List.getElem?_eq_some_iff.mp hentry).1
    obtain ⟨hfirst, depth', lines', hlines⟩ := hsplit
    intro e' he'
    rcases List.mem_cons.mp he' with rfl | hrest
    · exact hfirst
    · exact ih hlines e' hrest

/-! ### Listings of functions -/

namespace EncodedFunction

/-- The text of a function whose body is decoded: its signature, the types of its locals and the
lines of its code. -/
def listing (e : EncodedFunction) (d : DecodedFunction) (comments : List String) : String :=
  let signature := ["(func", "$" ++ textIdentifier e.name] ++ typeClause "param" e.params ++
    typeClause "result" e.result.toList
  let locals := (typeClause "local" d.locals).map fun clause => listingLine 1 [clause]
  let lines := listingLine 0 signature :: locals ++ codeLines [] d.code comments ++
    [listingLine 0 [")"]]
  String.join (lines.map (· ++ "\n"))

end EncodedFunction

namespace FunctionDraft

/-- The text of a function is the listing of what it becomes. -/
theorem Finishes.text {f : FunctionDraft} {r : FunctionRegistry} {e : EncodedFunction}
    {ops : List TargetOp} (h : f.Finishes r e ops) :
    f.text ⟨false, some (.ofRegistry r)⟩ =
      .ok (e.listing ⟨localTypes f.locals f.body, ops⟩ (f.body.map Emission.comment)) := by
  have hlines := lines_of_resolved (fun e he key hkey => mem_scratchLocals he hkey) h.code []
  have hdeclared : f.declared = localTypes f.locals f.body := by
    rw [declared, scratch_eq, localTypes]
  unfold FunctionDraft.text FunctionDraft.code
  rw [scratch_eq]
  refine bind_eq_ok.mpr ⟨_, hlines, ?_⟩
  rw [pure_eq_ok, EncodedFunction.listing, header_eq, localsText_eq, hdeclared, h.name, h.params,
    h.result]
  have hclose : listingLine 0 [")"] ++ "\n" = ")\n" := rfl
  simp only [List.cons_append, List.append_assoc, List.map_cons, List.map_append, List.map_map,
    List.map_nil, String.join_cons, String.join_append, String.join_nil, String.append_empty,
    String.append_assoc, hclose, Function.comp_def]

theorem calleeBelow_of_text {f : FunctionDraft} {r : FunctionRegistry} {text : String}
    (h : f.text ⟨false, some (.ofRegistry r)⟩ = .ok text) : ∀ e ∈ f.body, e.CalleeBelow r.count := by
  obtain ⟨lines, hlines, -⟩ := bind_eq_ok.mp h
  exact calleeBelow_of_lines hlines

theorem calleeBelow_of_encode {f : FunctionDraft} {r : FunctionRegistry} {e : EncodedFunction}
    (h : f.encode (.ofRegistry r) = .ok e) : ∀ e ∈ f.body, e.CalleeBelow r.count := by
  obtain ⟨ops, hfinishes⟩ := encode_eq_ok h
  exact calleeBelow_of_text hfinishes.text

end FunctionDraft

/-! ### Listings of modules -/

section Drafts

variable {r : FunctionRegistry} {drafts : List FunctionDraft} {encoded : List EncodedFunction}

theorem indexed_of_encodes (h : BinaryModule.Encodes (.ofRegistry r) drafts encoded) :
    TextModule.indexed (.ofRegistry r) drafts =
      .ok ((drafts.zip encoded).map fun p => (p.2.index, p.1)) := by
  refine mapM_eq_ok.mpr ?_
  induction h with
  | nil => exact .nil
  | cons hhead _ ih =>
    obtain ⟨ops, hfinishes⟩ := FunctionDraft.encode_eq_ok hhead
    refine .cons (map_eq_ok.mpr ⟨_, ?_, rfl⟩) ih
    exact FunctionRegistry.get_ofRegistry.mpr hfinishes.index

end Drafts

/-- The listing is that of the function that one of the drafts becomes. -/
def ListsDraft (r : FunctionRegistry) (drafts : List FunctionDraft) (e : EncodedFunction)
    (listing : String) : Prop :=
  ∃ f ∈ drafts, ∃ ops, f.Finishes r e ops ∧
    listing = e.listing ⟨localTypes f.locals f.body, ops⟩ (f.body.map Emission.comment)

/-- The text of a module lists what its functions become, by increasing index. -/
theorem TextModule.finish_of_encodes {m : TextModule} {r : FunctionRegistry}
    {encoded : List EncodedFunction} (hcurrent : m.current = none) (hnames : m.debugNames = false)
    (hencoded : BinaryModule.Encodes (.ofRegistry r) m.functions encoded) :
    (m.finish r).1 = .ok () ∧ ∃ listings, (m.finish r).2.output = String.join listings ∧
      List.Forall₂ (ListsDraft r m.functions) (BinaryModule.inOrder encoded) listings := by
  obtain ⟨hlength, hpairs⟩ := List.forall₂_iff_zip.mp hencoded
  -- both forms sort the functions by the same indices, so they are sorted as pairs
  let sorted := (m.functions.zip encoded).mergeSort fun p q => p.2.index ≤ q.2.index
  have hkeyed : sorted.map (fun p => (p.2.index, p.1)) =
      ((m.functions.zip encoded).map fun p => (p.2.index, p.1)).mergeSort fun f g => f.1 ≤ g.1 :=
    List.map_mergeSort fun _ _ _ _ => rfl
  have hencodedSorted : sorted.map Prod.snd =
      ((m.functions.zip encoded).map Prod.snd).mergeSort fun e e' => e.index ≤ e'.index :=
    List.map_mergeSort fun _ _ _ _ => rfl
  have hfunctions : (((m.functions.zip encoded).map fun p => (p.2.index, p.1)).mergeSort
      fun f g => f.1 ≤ g.1).map Prod.snd = sorted.map Prod.fst := by
    rw [← hkeyed, List.map_map]
    rfl
  have hinOrder : BinaryModule.inOrder encoded = sorted.map Prod.snd := by
    rw [hencodedSorted, List.map_snd_zip (Nat.le_of_eq hlength.symm)]
    rfl
  have htexts : ∀ p ∈ sorted, ∃ listing,
      p.1.text ⟨false, some (.ofRegistry r)⟩ = .ok listing ∧
        ListsDraft r m.functions p.2 listing := by
    intro p hp
    have hmem : (p.1, p.2) ∈ m.functions.zip encoded := (List.mergeSort_perm _ _).mem_iff.mp hp
    obtain ⟨ops, hfinishes⟩ := FunctionDraft.encode_eq_ok (hpairs hmem)
    exact ⟨_, hfinishes.text, p.1, (List.of_mem_zip hmem).1, ops, hfinishes, rfl⟩
  obtain ⟨listings, hlistings⟩ := exists_forall₂ htexts
  have hmapM : (sorted.map Prod.fst).mapM (FunctionDraft.text · ⟨false, some (.ofRegistry r)⟩) =
      .ok listings := by
    refine mapM_eq_ok.mpr (List.forall₂_map_left_iff.mpr ?_)
    exact hlistings.imp fun _ _ h => h.1
  have hfinish : m.finish r = (.ok (), { m with
      functions := sorted.map Prod.fst, indices := some (.ofRegistry r)
      output := String.join listings }) := by
    simp only [TextModule.finish, hcurrent, Option.isSome_none, Bool.false_eq_true, if_false,
      indexed_of_encodes hencoded, hfunctions, TextModule.style, hnames, hmapM]
  rw [hfinish, hinOrder]
  refine ⟨rfl, listings, rfl, List.forall₂_map_left_iff.mpr ?_⟩
  exact hlistings.imp fun _ _ h => h.2

/-- A text is finished only if every callee has an index. -/
theorem TextModule.calleeBelow_of_finish {m : TextModule} {r : FunctionRegistry}
    (hnames : m.debugNames = false) (h : (m.finish r).1 = .ok ()) :
    ∀ f ∈ m.functions, ∀ e ∈ f.body, e.CalleeBelow r.count := by
  unfold TextModule.finish at h
  dsimp only at h
  split at h
  · cases h
  · split at h
    · cases h
    · next keyed hkeyed =>
      split at h
      · next texts htexts =>
        have hwritten := mapM_eq_ok.mp htexts
        simp only [TextModule.style, hnames] at hwritten
        intro f hf
        have hkey : ∃ index, (index, f) ∈ keyed := by
          obtain ⟨p, hp, hpair⟩ := exists_right_of_mem (mapM_eq_ok.mp hkeyed) hf
          obtain ⟨index, -, rfl⟩ := map_eq_ok.mp hpair
          exact ⟨index, hp⟩
        obtain ⟨index, hindex⟩ := hkey
        have hsorted := List.mem_map_of_mem (f := Prod.snd)
          ((List.mergeSort_perm keyed fun f g => f.1 ≤ g.1).mem_iff.mpr hindex)
        obtain ⟨text, -, htext⟩ := exists_right_of_mem hwritten hsorted
        exact FunctionDraft.calleeBelow_of_text htext
      · cases h

theorem TextModule.finish_ok_iff {m : TextModule} {r : FunctionRegistry} (hcurrent : m.current = none)
    (hnames : m.debugNames = false) (hknown : ∀ f ∈ m.functions, f.id < r.count) :
    (m.finish r).1 = .ok () ↔ ∀ f ∈ m.functions, ∀ e ∈ f.body, e.CalleeBelow r.count := by
  constructor
  · intro hok
    exact TextModule.calleeBelow_of_finish hnames hok
  · intro hcallees
    obtain ⟨encoded, hencoded⟩ := exists_encodes hknown hcallees
    exact (TextModule.finish_of_encodes hcurrent hnames hencoded).1

theorem BinaryModule.finish_ok_iff {m : BinaryModule} {r : FunctionRegistry}
    (hcurrent : m.current = none) (hfunctions : m.functions = [])
    (hids : (m.buffered.map FunctionDraft.id).Nodup) (hknown : ∀ f ∈ m.buffered, f.id < r.count) :
    (m.finish r).1 = .ok () ↔ ∀ f ∈ m.buffered, ∀ e ∈ f.body, e.CalleeBelow r.count := by
  constructor
  · intro hok f hf
    obtain ⟨-, encoded, hencoded, -⟩ := BinaryModule.finish_eq_ok (Prod.ext hok rfl)
    obtain ⟨e, -, hencode⟩ := hencoded.exists_encoded hf
    exact FunctionDraft.calleeBelow_of_encode hencode
  · intro hcallees
    obtain ⟨encoded, hencoded⟩ := exists_encodes hknown hcallees
    have hnodup := nodup_index_of_encodes hencoded hids
    rw [BinaryModule.finish_of_encodes hcurrent hencoded (by rwa [hfunctions, List.nil_append])]

/-! ### Writing a module twice -/

/-- A function as it is handed to a writer: what it is begun with, and its code piece by piece. -/
structure FunctionPieces where
  opening : FunctionDraft
  pieces : List (List Emission)

/-- The function with all its code. -/
def FunctionPieces.draft (f : FunctionPieces) : FunctionDraft := f.opening.extend f.pieces.flatten

namespace ModuleWriter

/-- Begins a function, writes its code piece by piece and completes it. -/
def writePieces (w : ModuleWriter) (f : FunctionPieces) : Except CompileError ModuleWriter := do
  let opened ← w.beginFunction f.opening
  let written ← f.pieces.foldlM (fun w code => w.emit code) opened
  written.endFunction.1
  return written.endFunction.2

/-- Writes functions one after the other. -/
def writeFunctions (w : ModuleWriter) (functions : List FunctionPieces) :
    Except CompileError ModuleWriter :=
  functions.foldlM writePieces w

theorem foldlM_emit (w : ModuleWriter) (f : FunctionDraft) (pieces : List (List Emission)) :
    pieces.foldlM (fun w code => w.emit code) (w.withCurrent f) =
      .ok (w.withCurrent (f.extend pieces.flatten)) := by
  induction pieces generalizing f with
  | nil => simp [FunctionDraft.extend, pure, Except.pure]
  | cons code rest ih =>
    rw [List.foldlM_cons]
    refine bind_eq_ok.mpr ⟨_, emit_withCurrent w f code, ?_⟩
    rw [ih]
    simp [FunctionDraft.extend]

theorem writePieces_of_unindexed {w : ModuleWriter} (hcurrent : w.current = none)
    (hindices : w.indices? = none) (f : FunctionPieces) :
    w.writePieces f = .ok (w.withCurrent f.draft).endFunction.2 :=
  bind_eq_ok.mpr ⟨_, beginFunction_eq_ok.mpr ⟨hcurrent, rfl⟩,
    bind_eq_ok.mpr ⟨_, foldlM_emit w f.opening f.pieces,
      bind_eq_ok.mpr ⟨(), endFunction_of_unindexed hindices f.draft, rfl⟩⟩⟩

theorem writeFunctions_binary {m : BinaryModule} (hcurrent : m.current = none)
    (functions : List FunctionPieces) :
    (binary m).writeFunctions functions =
      .ok (.binary { m with buffered := m.buffered ++ functions.map FunctionPieces.draft }) := by
  induction functions generalizing m with
  | nil => simp [writeFunctions, pure, Except.pure]
  | cons f rest ih =>
    have hfirst : (binary m).writePieces f =
        .ok (.binary { m with buffered := m.buffered ++ [f.draft] }) := by
      rw [writePieces_of_unindexed (w := binary m) hcurrent rfl, hcurrent]
      rfl
    rw [writeFunctions, List.foldlM_cons]
    refine bind_eq_ok.mpr ⟨_, hfirst, ?_⟩
    have hrest := @ih { m with buffered := m.buffered ++ [f.draft] } hcurrent
    rw [List.append_assoc] at hrest
    exact hrest

theorem writeFunctions_text {m : TextModule} (hcurrent : m.current = none)
    (hindices : m.indices = none) (functions : List FunctionPieces) :
    ∃ output, (text m).writeFunctions functions =
      .ok (.text { m with
        functions := m.functions ++ functions.map FunctionPieces.draft, output }) := by
  induction functions generalizing m with
  | nil => exact ⟨m.output, by simp [writeFunctions, pure, Except.pure]⟩
  | cons f rest ih =>
    have hfirst : ∃ output, (text m).writePieces f =
        .ok (.text { m with functions := m.functions ++ [f.draft], output }) := by
      have hended := endFunction_of_unindexed (w := text m) hindices f.draft
      rw [writePieces_of_unindexed (w := text m) hcurrent hindices]
      simp only [withCurrent, ModuleWriter.endFunction, TextModule.endFunction] at hended ⊢
      split at hended
      · next text htext =>
        refine ⟨m.output ++ text, ?_⟩
        rw [hcurrent]
      · cases hended
    obtain ⟨output, hfirst⟩ := hfirst
    obtain ⟨output', hrest⟩ :=
      @ih { m with functions := m.functions ++ [f.draft], output } hcurrent hindices
    refine ⟨output', ?_⟩
    rw [writeFunctions, List.foldlM_cons]
    refine bind_eq_ok.mpr ⟨_, hfirst, ?_⟩
    rw [List.append_assoc] at hrest
    exact hrest

end ModuleWriter

namespace FunctionDraft

/-- The function can be encoded so that it can be decoded: its code has the immediates of its
opcodes, its locals are not packed, and indices of locals are words. -/
structure Encodable (f : FunctionDraft) : Prop where
  locals : ∀ ty ∈ f.locals, ty.IsLocal
  code : ∀ e ∈ f.body, e.WellShaped
  indices : f.params.length + (localTypes f.locals f.body).length < 0x100000000

end FunctionDraft

/-- The text is the listing of a finished function: of its signature as it was written, and of what
its body decodes to. -/
def FunctionPieces.Lists (f : FunctionPieces) (e : EncodedFunction) (text : String) : Prop :=
  e.id = f.opening.id ∧ e.name = f.opening.name ∧ e.params = f.opening.params ∧
    e.result = f.opening.result ∧
    ∃ d, decodeFunction e.bytes = some d ∧ text = e.listing d (f.draft.body.map Emission.comment)

/-- **The finished text lists the finished binary module.** Functions that are written in the same
way into a text module, in which calls are not named, and into a binary module can be finished in
both if all callees are registered, and otherwise in none. Then the binary module has exactly these
functions, and the text is the concatenation of their listings in the order of the bodies. -/
theorem output_eq_listings {options : Options} {functions : List FunctionPieces}
    {r : FunctionRegistry} (hnames : options.debugNames = false)
    (hids : (functions.map fun f => f.opening.id).Nodup)
    (hknown : ∀ f ∈ functions, f.opening.id < r.count)
    (hencodable : ∀ f ∈ functions, f.draft.Encodable) (hcount : r.count ≤ 0x100000000) :
    ∃ t b, (ModuleWriter.newText options).writeFunctions functions = .ok (.text t) ∧
      ModuleWriter.newBinary.writeFunctions functions = .ok (.binary b) ∧
      ((t.finish r).1 = .ok () ↔
        ∀ f ∈ functions, ∀ e ∈ f.draft.body, e.CalleeBelow r.count) ∧
      ((b.finish r).1 = .ok () ↔
        ∀ f ∈ functions, ∀ e ∈ f.draft.body, e.CalleeBelow r.count) ∧
      ((b.finish r).1 = .ok () →
        ((b.finish r).2.functions.map EncodedFunction.id).Perm
          (functions.map fun f => f.opening.id) ∧
        ((∀ e ∈ (b.finish r).2.functions, e.bytes.length < 0x100000000) →
          ∃ texts, (t.finish r).2.output = String.join texts ∧
            List.Forall₂ (fun e text => ∃ f ∈ functions, f.Lists e text)
              (b.finish r).2.functions texts)) := by
  obtain ⟨output, htext⟩ := ModuleWriter.writeFunctions_text
    (m := { debugNames := options.debugNames }) rfl rfl functions
  have hbinary := ModuleWriter.writeFunctions_binary (m := {}) rfl functions
  refine ⟨_, _, htext, hbinary, ?_⟩
  set drafts := functions.map FunctionPieces.draft with hdrafts
  set t : TextModule := { debugNames := options.debugNames, functions := [] ++ drafts, output }
  set b : BinaryModule := { buffered := [] ++ drafts }
  have hmap : drafts.map FunctionDraft.id = functions.map fun f => f.opening.id := by
    rw [hdrafts, List.map_map]
    rfl
  have hdraftIds : (drafts.map FunctionDraft.id).Nodup := by rwa [hmap]
  have hdraftKnown : ∀ f ∈ drafts, f.id < r.count := List.forall_mem_map.mpr hknown
  have hcallees : (∀ f ∈ functions, ∀ e ∈ f.draft.body, e.CalleeBelow r.count) ↔
      ∀ f ∈ drafts, ∀ e ∈ f.body, e.CalleeBelow r.count := by
    simp only [hdrafts, List.forall_mem_map]
  have htextIff : (t.finish r).1 = .ok () ↔ ∀ f ∈ drafts, ∀ e ∈ f.body, e.CalleeBelow r.count :=
    TextModule.finish_ok_iff rfl hnames hdraftKnown
  have hbinaryIff : (b.finish r).1 = .ok () ↔
      ∀ f ∈ drafts, ∀ e ∈ f.body, e.CalleeBelow r.count :=
    BinaryModule.finish_ok_iff rfl rfl hdraftIds hdraftKnown
  refine ⟨htextIff.trans hcallees.symm, hbinaryIff.trans hcallees.symm, fun hok => ?_⟩
  obtain ⟨encoded, hencoded⟩ := exists_encodes hdraftKnown (hbinaryIff.mp hok)
  have hfinish : b.finish r = (.ok (), { b with
      buffered := [], functions := BinaryModule.inOrder encoded, importCount := r.importCount }) :=
    BinaryModule.finish_of_encodes rfl hencoded (nodup_index_of_encodes hencoded hdraftIds)
  rw [hfinish]
  constructor
  · rw [← hmap, ← map_id_of_encodes hencoded]
    exact (List.mergeSort_perm encoded _).map _
  · intro hsize
    obtain ⟨-, texts, houtput, htexts⟩ :=
      TextModule.finish_of_encodes (m := t) rfl hnames hencoded
    refine ⟨texts, houtput, ?_⟩
    have hlisted := List.forall₂_iff_zip.mp htexts
    refine List.forall₂_iff_zip.mpr ⟨hlisted.1, fun {e text} he => ?_⟩
    obtain ⟨f, hf, ops, hfinishes, rfl⟩ := hlisted.2 he
    obtain ⟨pieces, hpieces, rfl⟩ := List.mem_map.mp hf
    have hencodes := hencodable pieces hpieces
    have hdecode := hfinishes.decodeFunction hencodes.locals hencodes.code hcount
      hencodes.indices (hsize e (List.of_mem_zip he).1)
    exact ⟨pieces, hpieces, hfinishes.id, hfinishes.name, hfinishes.params, hfinishes.result,
      _, hdecode, rfl⟩

/-- A function with a block, in which its parameter is kept in a scratch local and given to the
import. It is written in three pieces. -/
def listedFunction : FunctionPieces where
  opening :=
    { id := 0, name := "Main.run", params := [.value .i32], result := none, locals := [.value .i64] }
  pieces := [[.target (.block .block)], callingCode, [.target (.plain .endBlock)]]

/-- The text of a module with this function. -/
def listedText : String :=
  "(func $Main.run (param i32)\n  (local i64 i32)\n  block\n    local.get 0\n    local.set 2\n" ++
    "    local.get 2\n    call 0\n  end\n)\n"

/-- The text of that module is the listing of its one body. -/
theorem output_listedFunction :
    ∃ t b e d, (ModuleWriter.newText {}).writeFunctions [listedFunction] = .ok (.text t) ∧
      ModuleWriter.newBinary.writeFunctions [listedFunction] = .ok (.binary b) ∧
      (t.finish callingRegistry).1 = .ok () ∧ (t.finish callingRegistry).2.output = listedText ∧
      (b.finish callingRegistry).2.functions = [e] ∧ decodeFunction e.bytes = some d ∧
      listedText = e.listing d ["", "", "", "", "", ""] := by
  have hencodable : ∀ f ∈ [listedFunction], f.draft.Encodable := by
    intro f hf
    obtain rfl := List.mem_singleton.mp hf
    refine ⟨?_, ?_, by decide +kernel⟩
    · simp [listedFunction, FunctionPieces.draft, FunctionDraft.extend, WasmType.IsLocal,
        ValueType.isSubWord]
    · simp [listedFunction, FunctionPieces.draft, FunctionDraft.extend, callingCode,
        Emission.WellShaped, TargetOp.WellShaped, WasmType.IsLocal, ValueType.isSubWord]
  have hcallees : ∀ f ∈ [listedFunction], ∀ e ∈ f.draft.body,
      e.CalleeBelow callingRegistry.count := by decide +kernel
  obtain ⟨t, b, ht, hb, htext, hbinary, hlists⟩ := @output_eq_listings {}
    [listedFunction] callingRegistry rfl (by decide +kernel)
    (by decide +kernel) hencodable (by decide +kernel)
  obtain ⟨-, hlists⟩ := hlists (hbinary.mpr hcallees)
  -- the modules that are written, and what they are when they are finished
  have hbuffered : ModuleWriter.newBinary.writeFunctions [listedFunction] =
      .ok (.binary { buffered := [listedFunction.draft] }) := by decide +kernel
  have hwritten : ((ModuleWriter.newText {}).writeFunctions [listedFunction]).map
      (fun w => (w.finish callingRegistry).2) = .ok (.text
        { debugNames := false, functions := [listedFunction.draft], output := listedText
          indices := some (.ofRegistry callingRegistry) }) := by decide +kernel
  have hbytes : ∀ e ∈ (BinaryModule.finish { buffered := [listedFunction.draft] }
      callingRegistry).2.functions, e.bytes.length < 0x100000000 := by decide +kernel
  have hone : (BinaryModule.finish { buffered := [listedFunction.draft] }
      callingRegistry).2.functions.length = 1 := by decide +kernel
  rw [ht] at hwritten
  have hfinished := ModuleWriter.text.inj (Except.ok.inj hwritten)
  obtain rfl := ModuleWriter.binary.inj (Except.ok.inj (hbuffered.symm.trans hb))
  obtain ⟨e, he⟩ := List.length_eq_one_iff.mp hone
  obtain ⟨texts, houtput, hlisted⟩ := hlists hbytes
  rw [he] at hlisted
  obtain ⟨text, rest, ⟨f, hf, -, -, -, -, d, hdecode, rfl⟩, hnil, rfl⟩ :=
    List.forall₂_cons_left_iff.mp hlisted
  obtain rfl := List.forall₂_nil_left_iff.mp hnil
  obtain rfl := List.mem_singleton.mp hf
  have hout : (t.finish callingRegistry).2.output = listedText := congrArg TextModule.output hfinished
  refine ⟨t, _, e, d, ht, hb, htext.mpr hcallees, hout, he, hdecode, ?_⟩
  rw [← hout, houtput]
  simp [String.join, listedFunction, FunctionPieces.draft, FunctionDraft.extend, callingCode,
    Emission.comment]

/-- A procedure with one local that calls the import, and views the result as a type. -/
def callingImport (ty : ValueType) (viewedAs : Option WasmType) : FunctionPieces where
  opening := { id := 0, name := "Main.run", params := [], result := none, locals := [.value ty] }
  pieces :=
    [[.call { className := "host", methodName := "log", signature := "(I)V", params := [.i32]
              result := none } 1 viewedAs]]

/-- The finished module with a procedure, in a form of module. -/
def finishedWith (w : ModuleWriter) (f : FunctionPieces) :
    Except CompileError (Except CompileError Unit × ModuleWriter) :=
  (w.writeFunctions [f]).map (ModuleWriter.finish callingRegistry)

/-- **A text says more than the binary module.** The type as which the result of a call is viewed is
not in the binary module, and two packed types of a local have one code there. -/
theorem text_not_determined :
    finishedWith .newBinary (callingImport .i16 (some (.value .i32))) =
        finishedWith .newBinary (callingImport .i16 none) ∧
      finishedWith (.newText {}) (callingImport .i16 (some (.value .i32))) ≠
        finishedWith (.newText {}) (callingImport .i16 none) ∧
      finishedWith .newBinary (callingImport .u16 none) =
        finishedWith .newBinary (callingImport .i16 none) ∧
      finishedWith (.newText {}) (callingImport .u16 none) ≠
        finishedWith (.newText {}) (callingImport .i16 none) := by
  decide +kernel

end WasmBackend
