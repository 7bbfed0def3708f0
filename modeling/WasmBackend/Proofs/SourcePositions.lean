import WasmBackend.ModuleCompiler
import WasmBackend.Proofs.Outcome

/-! # Source positions

The position of an instruction says where it comes from. It is passed on to errors and decides nothing
(`compile_ignores_positions`): two functions of the same name whose instructions are of the same kinds
either both compile, to the same number, or both fail for the same cause, and in both cases they leave
the same compiler and the same module behind.

Computations are compared by `Alike`: the same result, or errors that differ only in positions. What is
put together from computations that are alike is alike (`Alike.bind`), so that every part of the
pipeline has to be looked at once. -/

namespace WasmBackend

/-! ### Errors without their place -/

/-- Kinds of errors. -/
inductive ErrorKind
  | internal
  | unknownOperator
  | encoding
  | unsupportedConstant
  | stackUnderflow
  | stackTypeMismatch
  | stackNotBalanced
  | unknownLocal
  | poolFinalized
  | config
  deriving DecidableEq

/-- The scope, in which a block is closed at no known position. -/
def StackScope.unplaced : StackScope → StackScope
  | function name => .function name
  | block owner _ => .block owner .unknown

namespace CompileError

/-- The kind of an error. -/
def kind : CompileError → ErrorKind
  | internal _ _ => .internal
  | unknownOperator _ _ _ => .unknownOperator
  | encoding _ => .encoding
  | unsupportedConstant _ _ => .unsupportedConstant
  | stackUnderflow _ _ => .stackUnderflow
  | stackTypeMismatch _ _ _ _ => .stackTypeMismatch
  | stackNotBalanced _ _ _ => .stackNotBalanced
  | unknownLocal _ => .unknownLocal
  | poolFinalized _ => .poolFinalized
  | config => .config

/-- The error with every position that it has replaced by the unknown one. -/
def unplaced : CompileError → CompileError
  | internal fault position => .internal fault (position.map fun _ => .unknown)
  | unknownOperator operator family position =>
    .unknownOperator operator family (position.map fun _ => .unknown)
  | unsupportedConstant typeName position =>
    .unsupportedConstant typeName (position.map fun _ => .unknown)
  | stackUnderflow function _ => .stackUnderflow function .unknown
  | stackTypeMismatch function _ expected found =>
    .stackTypeMismatch function .unknown expected found
  | stackNotBalanced scope expected found => .stackNotBalanced scope.unplaced expected found
  | e => e

@[simp]
theorem kind_unplaced (e : CompileError) : e.unplaced.kind = e.kind := by
  cases e <;> rfl

@[simp]
theorem unplaced_located (position : CodePosition) (e : CompileError) :
    (e.located position).unplaced = e.unplaced.located .unknown := by
  cases e with
  | internal fault p => cases p <;> rfl
  | unknownOperator operator family p => cases p <;> rfl
  | unsupportedConstant typeName p => cases p <;> rfl
  | _ => rfl

end CompileError

/-! ### Computations that are alike -/

/-- The computations have the same result, or they fail with errors that differ only in positions. -/
def Alike {α : Type} (x y : Except CompileError α) : Prop :=
  x.mapError CompileError.unplaced = y.mapError CompileError.unplaced

section Alike

variable {α β : Type} {x y : Except CompileError α}

theorem Alike.refl (x : Except CompileError α) : Alike x x := rfl

theorem alike_error {e e' : CompileError} (h : e.unplaced = e'.unplaced) :
    Alike (.error e : Except CompileError α) (.error e') :=
  congrArg Except.error h

theorem Alike.cases (h : Alike x y) :
    (∃ a, x = .ok a ∧ y = .ok a) ∨
      ∃ e e', x = .error e ∧ y = .error e' ∧ e.unplaced = e'.unplaced := by
  rcases x with e | a <;> rcases y with e' | b
  · exact .inr ⟨e, e', rfl, rfl, Except.error.inj h⟩
  · cases h
  · cases h
  · cases h
    exact .inl ⟨a, rfl, rfl⟩

theorem Alike.bind (h : Alike x y) {f g : α → Except CompileError β}
    (hfg : ∀ a, Alike (f a) (g a)) : Alike (x >>= f) (y >>= g) := by
  rcases h.cases with ⟨a, rfl, rfl⟩ | ⟨e, e', rfl, rfl, he⟩
  · exact hfg a
  · exact alike_error he

theorem Alike.map (h : Alike x y) (f : α → β) : Alike (x.map f) (y.map f) := by
  rcases h.cases with ⟨a, rfl, rfl⟩ | ⟨e, e', rfl, rfl, he⟩
  · rfl
  · exact alike_error he

theorem Alike.located (h : Alike x y) (position position' : CodePosition) :
    Alike (x.mapError (CompileError.located position))
      (y.mapError (CompileError.located position')) := by
  rcases h.cases with ⟨a, rfl, rfl⟩ | ⟨e, e', rfl, rfl, he⟩
  · rfl
  · refine alike_error ?_
    rw [CompileError.unplaced_located, CompileError.unplaced_located, he]

end Alike

/-! ### Contracts -/

namespace Instruction

variable (position position' : CodePosition)

/-- The bodies have the same kinds of instructions in the same order. -/
inductive SameKinds : List Instruction → List Instruction → Prop
  | nil : SameKinds [] []
  | cons {rest rest' : List Instruction} (position position' : CodePosition) (kind : InstrKind) :
      SameKinds rest rest' → SameKinds (⟨position, kind⟩ :: rest) (⟨position', kind⟩ :: rest')

theorem SameKinds.cons_of_kind {i i' : Instruction} {rest rest' : List Instruction}
    (hkind : i.kind = i'.kind) (hrest : SameKinds rest rest') :
    SameKinds (i :: rest) (i' :: rest') := by
  obtain ⟨position, kind⟩ := i
  obtain ⟨position', kind'⟩ := i'
  cases hkind
  exact hrest.cons position position' kind

theorem sameKinds_iff {body body' : List Instruction} :
    SameKinds body body' ↔ body.map kind = body'.map kind := by
  constructor
  · intro h
    induction h with
    | nil => rfl
    | cons position position' kind _ ih => rw [List.map_cons, List.map_cons, ih]
  · intro h
    induction body generalizing body' with
    | nil =>
      obtain rfl := List.map_eq_nil_iff.mp h.symm
      exact .nil
    | cons i rest ih =>
      obtain ⟨i', rest', rfl, hkind, hrest⟩ := List.map_eq_cons_iff.mp h.symm
      exact .cons_of_kind hkind.symm (ih hrest.symm)

theorem alike_checkNumeric (kind : InstrKind) (op : NumericOp) (ty : ValueType) :
    Alike (checkNumeric ⟨position, kind⟩ op ty) (checkNumeric ⟨position', kind⟩ op ty) := by
  unfold checkNumeric
  split
  · exact .refl _
  · exact alike_error rfl

theorem alike_controlPops (kind : InstrKind) (op : ControlOp) (ty : Option OperandType) :
    Alike (controlPops ⟨position, kind⟩ op ty) (controlPops ⟨position', kind⟩ op ty) := by
  cases op <;> cases ty <;> exact rfl

theorem alike_popTypes (kind : InstrKind) (slots : SlotTable) :
    Alike (popTypes ⟨position, kind⟩ slots) (popTypes ⟨position', kind⟩ slots) := by
  cases kind with
  | numeric op ty => exact (alike_checkNumeric position position' _ op ty).bind fun _ => .refl _
  | control op ty depth => exact alike_controlPops position position' _ op ty
  | _ => exact .refl _

theorem alike_pushType (kind : InstrKind) (slots : SlotTable) :
    Alike (pushType ⟨position, kind⟩ slots) (pushType ⟨position', kind⟩ slots) := by
  cases kind with
  | numeric op ty => exact (alike_checkNumeric position position' _ op ty).bind fun _ => .refl _
  | control op ty depth => exact (alike_controlPops position position' _ op ty).map _
  | _ => exact .refl _

theorem kind_remember (kind : InstrKind) (slots : SlotTable) :
    (remember ⟨position, kind⟩ slots).kind = (remember ⟨position', kind⟩ slots).kind := by
  unfold remember
  dsimp only
  split
  · split <;> rfl
  · rfl

/-! ### Locals -/

theorem resolve_position (kind : InstrKind) (slots : SlotTable) :
    (resolve ⟨position, kind⟩ slots).1.kind = (resolve ⟨position', kind⟩ slots).1.kind ∧
      (resolve ⟨position, kind⟩ slots).2 = (resolve ⟨position', kind⟩ slots).2 := by
  unfold resolve
  dsimp only
  split <;> exact ⟨rfl, rfl⟩

theorem SameKinds.resolveAll {body body' : List Instruction} (h : SameKinds body body')
    (slots : SlotTable) :
    SameKinds (resolveAll body slots).1 (resolveAll body' slots).1 ∧
      (resolveAll body slots).2 = (resolveAll body' slots).2 := by
  induction h generalizing slots with
  | nil => exact ⟨.nil, rfl⟩
  | cons position position' kind _ ih =>
    obtain ⟨hfirst, hslots⟩ := resolve_position position position' kind slots
    obtain ⟨hrest, hlast⟩ := ih (resolve ⟨position, kind⟩ slots).2
    simp only [Instruction.resolveAll]
    rw [← hslots]
    exact ⟨.cons_of_kind hfirst hrest, hlast⟩

end Instruction

open Instruction (SameKinds)

/-! ### Verification -/

namespace Verifier

variable (ctx : Context) (position position' : CodePosition)

theorem alike_pop (function : String) (frame : Frame) (expected : OperandType) :
    Alike (pop function position frame expected) (pop function position' frame expected) := by
  unfold pop
  split
  · split_ifs
    · exact .refl _
    · exact alike_error rfl
  · split_ifs
    · exact .refl _
    · exact alike_error rfl

theorem alike_popAll (function : String) (frame : Frame) (expected : List OperandType) :
    Alike (popAll function position frame expected) (popAll function position' frame expected) := by
  unfold popAll
  induction expected.reverse generalizing frame with
  | nil => exact .refl _
  | cons ty rest ih =>
    rw [List.foldlM_cons, List.foldlM_cons]
    exact (alike_pop position position' function frame ty).bind ih

theorem alike_checkReturn (kind : InstrKind) :
    Alike (checkReturn ctx ⟨position, kind⟩) (checkReturn ctx ⟨position', kind⟩) := by
  unfold checkReturn
  dsimp only
  split
  · split_ifs
    · exact .refl _
    · exact alike_error rfl
  · exact .refl _

theorem alike_control (op : ControlOp) (s : State) :
    Alike (control ctx position op s) (control ctx position' op s) := by
  cases op with
  | endBlock =>
    unfold control
    dsimp only
    split
    · exact alike_error rfl
    · split_ifs
      · exact .refl _
      · exact alike_error rfl
  | _ => exact .refl _

theorem alike_step (s : State) (kind : InstrKind) :
    Alike (step ctx s ⟨position, kind⟩) (step ctx s ⟨position', kind⟩) := by
  unfold step
  refine (alike_checkReturn ctx position position' kind).bind fun _ => ?_
  refine (Instruction.alike_popTypes position position' kind ctx.slots).bind fun pops => ?_
  refine (alike_popAll position position' ctx.function s.current pops).bind fun frame => ?_
  refine (Instruction.alike_pushType position position' kind ctx.slots).bind fun pushed => ?_
  have hop : Instruction.controlOp? ⟨position, kind⟩ = Instruction.controlOp? ⟨position', kind⟩ :=
    rfl
  rw [hop]
  cases Instruction.controlOp? ⟨position', kind⟩ with
  | none => exact .refl _
  | some op => exact alike_control ctx position position' op _

variable {body body' : List Instruction}

theorem alike_steps (h : SameKinds body body') (s : State) :
    Alike (body.foldlM (step ctx) s) (body'.foldlM (step ctx) s) := by
  induction h generalizing s with
  | nil => exact .refl _
  | cons position position' kind _ ih =>
    rw [List.foldlM_cons, List.foldlM_cons]
    exact (alike_step ctx position position' s kind).bind ih

theorem alike_verify (h : SameKinds body body') : Alike (verify ctx body) (verify ctx body') :=
  (alike_steps ctx h {}).bind fun _ => .refl _

theorem sameKinds_remembering (h : SameKinds body body') (s : State) :
    SameKinds (remembering ctx s body) (remembering ctx s body') := by
  induction h generalizing s with
  | nil => exact .nil
  | cons position position' kind hrest ih =>
    refine .cons_of_kind (Instruction.kind_remember position position' kind ctx.slots) ?_
    rcases (alike_step ctx position position' s kind).cases with
      ⟨next, hfirst, hsecond⟩ | ⟨e, e', hfirst, hsecond, -⟩
    · rw [hfirst, hsecond]
      exact ih next
    · rw [hfirst, hsecond]
      exact hrest

end Verifier

/-! ### Writing -/

section Writing

variable (options : Options) (types : TypeRegistry) (functions : FunctionRegistry)
  (position position' : CodePosition)

theorem alike_code (kind : InstrKind) :
    Alike (Instruction.code ⟨position, kind⟩ options types functions).1
        (Instruction.code ⟨position', kind⟩ options types functions).1 ∧
      (Instruction.code ⟨position, kind⟩ options types functions).2 =
        (Instruction.code ⟨position', kind⟩ options types functions).2 := by
  cases kind with
  | control op ty depth =>
    exact ⟨(Instruction.alike_controlPops position position' _ op ty).map _, rfl⟩
  | _ => exact ⟨.refl _, rfl⟩

theorem alike_emissions (kind : InstrKind) :
    Alike (Instruction.emissions ⟨position, kind⟩ options types functions).1
        (Instruction.emissions ⟨position', kind⟩ options types functions).1 ∧
      (Instruction.emissions ⟨position, kind⟩ options types functions).2 =
        (Instruction.emissions ⟨position', kind⟩ options types functions).2 := by
  obtain ⟨hcode, hfunctions⟩ := alike_code options types functions position position' kind
  exact ⟨hcode.located position position', hfunctions⟩

namespace ModuleWriter

/-- What is left after writing is the same, up to positions in the error. -/
structure Written.SameUpToPlace (written written' : Written) : Prop where
  result : Alike written.result written'.result
  writer : written.writer = written'.writer
  functions : written.functions = written'.functions

theorem sameUpToPlace_write (w : ModuleWriter) (kind : InstrKind) :
    (w.write ⟨position, kind⟩ options types functions).SameUpToPlace
      (w.write ⟨position', kind⟩ options types functions) := by
  obtain ⟨hresult, hfunctions⟩ := alike_emissions options types functions position position' kind
  unfold ModuleWriter.write
  rcases hfirst : Instruction.emissions ⟨position, kind⟩ options types functions with ⟨first, r⟩
  rcases hsecond : Instruction.emissions ⟨position', kind⟩ options types functions with ⟨second, r'⟩
  rw [hfirst, hsecond] at hresult hfunctions
  dsimp only at hresult hfunctions
  subst hfunctions
  rcases hresult.cases with ⟨code, rfl, rfl⟩ | ⟨e, e', rfl, rfl, he⟩
  · dsimp only
    split
    · exact ⟨.refl _, rfl, rfl⟩
    · next e hemit =>
      refine ⟨alike_error ?_, rfl, rfl⟩
      rw [CompileError.unplaced_located, CompileError.unplaced_located]
  · exact ⟨alike_error he, rfl, rfl⟩

theorem sameUpToPlace_writeAll {body body' : List Instruction} (h : SameKinds body body')
    (w : ModuleWriter) (functions : FunctionRegistry) :
    (w.writeAll options types functions body).SameUpToPlace
      (w.writeAll options types functions body') := by
  induction h generalizing w functions with
  | nil => exact ⟨.refl _, rfl, rfl⟩
  | cons position position' kind _ ih =>
    have hfirst := sameUpToPlace_write options types functions position position' w kind
    simp only [ModuleWriter.writeAll]
    rcases hfirst.result.cases with ⟨⟨⟩, hok, hok'⟩ | ⟨e, e', hfails, hfails', -⟩
    · rw [hok, hok', hfirst.writer, hfirst.functions]
      exact ih _ _
    · rw [hfails, hfails']
      exact hfirst

end ModuleWriter

end Writing

/-! ### Compilation -/

namespace ModuleCompiler

/-- What is left after compiling is the same, up to positions in the error and in the function. -/
structure Compiled.SameUpToPlace (compiled compiled' : Compiled) : Prop where
  result : Alike compiled.result compiled'.result
  compiler : compiled.compiler = compiled'.compiler
  writer : compiled.writer = compiled'.writer
  instructions : SameKinds compiled.code.instructions compiled'.code.instructions

theorem sameUpToPlace_compile (c : ModuleCompiler) (w : ModuleWriter) (name : FunctionName)
    {instructions instructions' : List Instruction} (h : SameKinds instructions instructions') :
    (c.compile w ⟨name, instructions⟩).SameUpToPlace (c.compile w ⟨name, instructions'⟩) := by
  unfold ModuleCompiler.compile
  dsimp only
  cases SlotTable.ofParams name.params with
  | error e => exact ⟨.refl _, rfl, rfl, h⟩
  | ok slots =>
    obtain ⟨hbody, hslots⟩ := h.resolveAll slots
    dsimp only
    rw [← hslots]
    have hremembered := fun ctx => Verifier.sameKinds_remembering ctx hbody {}
    -- the function is opened in both runs or in none
    have hopened := fun (ctx : Verifier.Context) (g : Unit → Except CompileError ModuleWriter) =>
      (Verifier.alike_verify ctx hbody).bind fun u => Alike.refl (g u)
    split
    · next e hfirst =>
      rcases (hopened _ _).cases with ⟨w', hok, -⟩ | ⟨e₁, e', hfails, hfails', he⟩
      · rw [hfirst] at hok
        cases hok
      · rw [hfirst] at hfails
        cases hfails
        rw [hfails']
        exact ⟨alike_error he, rfl, rfl, hremembered _⟩
    · next w' hfirst =>
      rcases (hopened _ _).cases with ⟨w₁, hok, hok'⟩ | ⟨e₁, e', hfails, -⟩
      · rw [hfirst] at hok
        cases hok
        rw [hok']
        dsimp only
        have hwritten := ModuleWriter.sameUpToPlace_writeAll c.options c.types hbody w'
          (c.functions.mark name false).2
        rcases hwritten.result.cases with ⟨⟨⟩, hdone, hdone'⟩ | ⟨e, e', hstops, hstops', he⟩
        · rw [hdone, hdone', hwritten.writer, hwritten.functions]
          exact ⟨.refl _, rfl, rfl, hremembered _⟩
        · rw [hstops, hstops', hwritten.writer, hwritten.functions]
          exact ⟨alike_error he, rfl, rfl, hremembered _⟩
      · rw [hfirst] at hfails
        cases hfails

/-- **Positions decide nothing.** Functions of the same name with the same kinds of instructions,
compiled by the same compiler into the same module, both get the same number, or both fail with an
error of the same kind that differs at most in its position. The compiler, the module and what the
instructions learned are the same afterwards. -/
theorem compile_ignores_positions (c : ModuleCompiler) (w : ModuleWriter)
    (code code' : FunctionCode) (hname : code.name = code'.name)
    (hkinds : code.instructions.map Instruction.kind = code'.instructions.map Instruction.kind) :
    (c.compile w code).compiler = (c.compile w code').compiler ∧
      (c.compile w code).writer = (c.compile w code').writer ∧
      (c.compile w code).code.instructions.map Instruction.kind =
        (c.compile w code').code.instructions.map Instruction.kind ∧
      ((∃ id, (c.compile w code).result = .ok id ∧ (c.compile w code').result = .ok id) ∨
        ∃ e e', (c.compile w code).result = .error e ∧ (c.compile w code').result = .error e' ∧
          e.kind = e'.kind ∧ e.unplaced = e'.unplaced) := by
  obtain ⟨name, instructions⟩ := code
  obtain ⟨name', instructions'⟩ := code'
  cases hname
  have hsame := c.sameUpToPlace_compile w name (Instruction.sameKinds_iff.mpr hkinds)
  refine ⟨hsame.compiler, hsame.writer, Instruction.sameKinds_iff.mp hsame.instructions, ?_⟩
  rcases hsame.result.cases with hok | ⟨e, e', hfails, hfails', he⟩
  · exact .inl hok
  · refine .inr ⟨e, e', hfails, hfails', ?_, he⟩
    rw [← e.kind_unplaced, he, e'.kind_unplaced]

/-- A procedure that stores what the code before leaves, all of it at one position. -/
def storingAt (position : CodePosition) (operands : List InstrKind) : FunctionCode where
  name := { className := "Main", methodName := "run", signature := "()V", params := []
            result := none }
  instructions := (operands ++ [InstrKind.loadStore .set 0 .i32 none]).map (Instruction.mk position)

/-- With a constant to store the procedure compiles to the same module from both positions; without
one it fails at its own position each time. -/
theorem compile_ignores_positions_storingAt :
    let compiled := fun position operands => (new {}).compile .newBinary (storingAt position operands)
    (compiled ⟨0, 1⟩ [.const (.i32 7)]).result = .ok 0 ∧
      (compiled ⟨9, 4⟩ [.const (.i32 7)]).result = .ok 0 ∧
      (compiled ⟨0, 1⟩ [.const (.i32 7)]).writer = (compiled ⟨9, 4⟩ [.const (.i32 7)]).writer ∧
      (compiled ⟨0, 1⟩ []).result = .error (.stackUnderflow "Main.run" ⟨0, 1⟩) ∧
      (compiled ⟨9, 4⟩ []).result = .error (.stackUnderflow "Main.run" ⟨9, 4⟩) ∧
      (compiled ⟨0, 1⟩ []).compiler = (compiled ⟨9, 4⟩ []).compiler := by
  intro compiled
  have hsame := fun operands => compile_ignores_positions (new {}) .newBinary
    (storingAt ⟨0, 1⟩ operands) (storingAt ⟨9, 4⟩ operands) rfl (by
      rw [storingAt, storingAt, List.map_map, List.map_map]
      rfl)
  obtain ⟨-, hwriter, -⟩ := hsame [.const (.i32 7)]
  obtain ⟨hcompiler, -⟩ := hsame []
  exact ⟨by decide +kernel, by decide +kernel, hwriter, by decide +kernel, by decide +kernel,
    hcompiler⟩

end ModuleCompiler

end WasmBackend
