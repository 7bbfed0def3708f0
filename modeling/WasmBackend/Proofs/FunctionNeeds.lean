import WasmBackend.Proofs.HelperSelection
import WasmBackend.Proofs.Session

/-! # Which functions a module needs

Whatever is compiled, the registry of functions only ever answers *needs*: a function is needed by its
name, with a body if it is not compiled from source. What an instruction needs does not depend on the
registry (`functions_code`), and a registry holds one function for each name that was needed, with
the body of the first need (`answers_needAll`).

Every body in a registry is the one of an array helper or that of the function that gives the offset
of the string table (`Need.Allowed`, `Run.answers`). -/

namespace WasmBackend

/-- A function that is needed, with its body if it has one of its own. -/
structure Need where
  name : FunctionName
  body : Option FunctionBody
  deriving DecidableEq

/-! ### Registries of needed functions -/

namespace FunctionRegistry

/-- The registry once a function is needed. -/
def need (r : FunctionRegistry) (n : Need) : FunctionRegistry :=
  (r.insert n.name (n.body.any FunctionBody.isImport) n.body).2

/-- The registry once some functions are needed. -/
def needAll (r : FunctionRegistry) (needs : List Need) : FunctionRegistry := needs.foldl need r

theorem needAll_append (r : FunctionRegistry) (needs needs' : List Need) :
    r.needAll (needs ++ needs') = (r.needAll needs).needAll needs' :=
  List.foldl_append

theorem extends_needAll (r : FunctionRegistry) (needs : List Need) : r.Extends (r.needAll needs) := by
  induction needs generalizing r with
  | nil => exact .refl r
  | cons n rest ih => exact (r.extends_insert _ _ _).trans (ih (r.need n))

/-- The registry holds one function for each name that is needed, as it was needed first. -/
structure Answers (needs : List Need) (r : FunctionRegistry) : Prop where
  nodup : (r.entries.map fun e => e.name.signatureName).Nodup
  origin : ∀ e ∈ r.entries, ⟨e.name, e.body⟩ ∈ needs
  known : ∀ n ∈ needs, ∃ e ∈ r.entries, e.name.signatureName = n.name.signatureName

theorem answers_empty : Answers [] {} := ⟨List.nodup_nil, by simp, by simp⟩

theorem lookup_eq_none_iff {r : FunctionRegistry} {name : FunctionName} :
    r.lookup name = none ↔ ∀ e ∈ r.entries, e.name.signatureName ≠ name.signatureName := by
  simp [FunctionRegistry.lookup]

theorem Answers.need {needs : List Need} {r : FunctionRegistry} (h : Answers needs r) (n : Need) :
    Answers (needs ++ [n]) (r.need n) := by
  have hkept : ∀ {e : FunctionEntry}, e ∈ r.entries → ⟨e.name, e.body⟩ ∈ needs ++ [n] :=
    fun he => List.mem_append_left _ (h.origin _ he)
  unfold FunctionRegistry.need FunctionRegistry.insert
  split
  · next id hid =>
    -- a known function stays as it is
    obtain ⟨e, he, hname⟩ := signatureName_of_lookup hid
    refine ⟨h.nodup, fun e he => hkept he, fun n' hn' => ?_⟩
    rcases List.mem_append.mp hn' with hold | hnew
    · exact h.known n' hold
    · obtain rfl := List.mem_singleton.mp hnew
      exact ⟨e, List.mem_of_getElem? he, hname⟩
  · next hnone =>
    have hfresh := lookup_eq_none_iff.mp hnone
    refine ⟨?_, fun e he => ?_, fun n' hn' => ?_⟩
    · simp only [FunctionRegistry.add, List.map_append, List.map_cons, List.map_nil]
      refine List.nodup_append_comm.mp (List.nodup_cons.mpr ⟨?_, h.nodup⟩)
      rintro hmem
      obtain ⟨e, he, hname⟩ := List.mem_map.mp hmem
      exact hfresh e he hname
    · rcases List.mem_append.mp he with hold | hnew
      · exact hkept hold
      · obtain rfl := List.mem_singleton.mp hnew
        exact List.mem_append_right _ List.mem_cons_self
    · rcases List.mem_append.mp hn' with hold | hnew
      · obtain ⟨e, he, hname⟩ := h.known n' hold
        exact ⟨e, List.mem_append_left _ he, hname⟩
      · obtain rfl := List.mem_singleton.mp hnew
        exact ⟨_, List.mem_append_right _ List.mem_cons_self, rfl⟩

/-- **A registry answers everything that was needed.** -/
theorem answers_needAll (needs : List Need) : Answers needs (needAll {} needs) := by
  induction needs using List.reverseRecOn with
  | nil => exact answers_empty
  | append_singleton before n ih =>
    rw [needAll_append]
    exact ih.need n

end FunctionRegistry

/-! ### Needs of instructions -/

namespace Instruction

/-- The functions that an instruction needs. -/
def needs (options : Options) (types : TypeRegistry) (i : Instruction) : List Need :=
  match i.kind with
  | .array op _ array =>
    (ArrayProfile.helperOf options types (op, array)).toList.map fun helper =>
      ⟨helper.1, some helper.2⟩
  | .call name _ => [⟨name, none⟩]
  | .stringConst _ _ =>
    [⟨StringPool.accessor options, none⟩,
      ⟨StringPool.offsetFunction options, some (StringPool.constantBody 0)⟩]
  | _ => []

theorem functions_arrayCode (op : ArrayOp) (element : OperandType) (array : Nat) (options : Options)
    (types : TypeRegistry) (r : FunctionRegistry) :
    (arrayCode op element array options types r).2 =
      ArrayProfile.serve options types r (op, array) := by
  unfold arrayCode ArrayProfile.serve
  dsimp only
  split <;> next hselect => rw [hselect]

/-- **What an instruction does to the registry**, whether or not it has code: its needs are met. -/
theorem functions_code (i : Instruction) (options : Options) (types : TypeRegistry)
    (r : FunctionRegistry) : (i.code options types r).2 = r.needAll (i.needs options types) := by
  rcases i with ⟨position, kind⟩
  cases kind with
  | const value => rfl
  | convert conversion => rfl
  | localVar op index ty => rfl
  | loadStore op slot ty resolved => cases resolved <;> rfl
  | numeric op ty => rfl
  | array op element array =>
    show (arrayCode op element array options types r).2 = _
    rw [functions_arrayCode, ArrayProfile.serve_eq]
    simp only [needs]
    rcases ArrayProfile.helperOf options types (op, array) with _ | ⟨name, body⟩
    · rfl
    · rfl
  | call name viewedAs => rfl
  | stringConst id ty =>
    show (stringCode id options r).2 = _
    unfold stringCode
    dsimp only
    split <;> rfl
  | control op ty depth => rfl

end Instruction

theorem functions_bodyCode {options : Options} {types : TypeRegistry} {r r' : FunctionRegistry}
    {body : List Instruction} {code : List Emission}
    (h : bodyCode options types r body = some (code, r')) :
    r' = r.needAll (body.flatMap (Instruction.needs options types)) := by
  induction body generalizing r code with
  | nil =>
    cases h
    rfl
  | cons i rest ih =>
    obtain ⟨first, next, more, hfirst, hmore, rfl⟩ := bodyCode_cons.mp h
    have hnext := i.functions_code options types r
    rw [hfirst] at hnext
    rw [ih hmore, List.flatMap_cons, FunctionRegistry.needAll_append, ← hnext]

namespace ModuleWriter

theorem functions_write (w : ModuleWriter) (i : Instruction) (options : Options)
    (types : TypeRegistry) (r : FunctionRegistry) :
    (w.write i options types r).functions = r.needAll (i.needs options types) := by
  rw [← i.functions_code options types r]
  unfold ModuleWriter.write Instruction.emissions
  dsimp only
  split
  · next hcode => exact (Prod.mk.inj hcode).2.symm
  · next hcode => split <;> exact (Prod.mk.inj hcode).2.symm

theorem functions_writeAll (w : ModuleWriter) (body : List Instruction) (options : Options)
    (types : TypeRegistry) (r : FunctionRegistry) :
    ∃ written, written <+: body ∧ (w.writeAll options types r body).functions =
      r.needAll (written.flatMap (Instruction.needs options types)) := by
  induction body generalizing w r with
  | nil => exact ⟨[], List.prefix_rfl, rfl⟩
  | cons i rest ih =>
    have hfirst := w.functions_write i options types r
    simp only [ModuleWriter.writeAll]
    split
    · obtain ⟨written, hwritten, hfunctions⟩ := ih (w.write i options types r).writer
        (w.write i options types r).functions
      refine ⟨i :: written, List.cons_prefix_cons.mpr ⟨rfl, hwritten⟩, ?_⟩
      rw [hfunctions, hfirst, List.flatMap_cons, FunctionRegistry.needAll_append]
    · refine ⟨[i], List.cons_prefix_cons.mpr ⟨rfl, List.nil_prefix⟩, ?_⟩
      rw [hfirst, List.flatMap_singleton]

end ModuleWriter

/-! ### Helpers while classes are added -/

namespace ArrayProfile

section Growth

variable {options : Options} {t t' : TypeRegistry} (h : t.Extends t')
include h

theorem methodDescriptor_of_extends {params : List OperandType} {result : Option OperandType}
    {d : String} (hd : t.methodDescriptor params result = .ok d) :
    t'.methodDescriptor params result = .ok d := by
  obtain ⟨ds, hds, hd⟩ := bind_eq_ok.mp hd
  have hds' : params.mapM t'.descriptor = .ok ds :=
    mapM_eq_ok.mpr ((mapM_eq_ok.mp hds).imp fun _ _ hdescriptor => h.descriptor hdescriptor)
  cases result with
  | none => exact bind_eq_ok.mpr ⟨ds, hds', hd⟩
  | some ty =>
    obtain ⟨d', hd', hd⟩ := bind_eq_ok.mp hd
    exact bind_eq_ok.mpr ⟨ds, hds', bind_eq_ok.mpr ⟨d', h.descriptor hd', hd⟩⟩

theorem helperName_of_extends {className method : String} {params : List OperandType}
    {result : Option OperandType} {name : FunctionName}
    (hname : helperName t className method params result = .ok name) :
    helperName t' className method params result = .ok name := by
  obtain ⟨d, hd, hname⟩ := map_eq_ok.mp hname
  exact map_eq_ok.mpr ⟨d, methodDescriptor_of_extends h hd, hname⟩

theorem elementName_of_extends {a : ArrayClass} {element : String}
    (helement : elementName a t = .ok element) : elementName a t' = .ok element := by
  unfold elementName at helement ⊢
  split at helement
  · exact helement
  · obtain ⟨name, hname, helement⟩ := map_eq_ok.mp helement
    refine map_eq_ok.mpr ⟨name, ?_, helement⟩
    generalize a.element = ty at hname ⊢
    cases ty with
    | value ty => exact hname
    | struct id =>
      obtain ⟨c, hc, hname⟩ := map_eq_ok.mp hname
      exact map_eq_ok.mpr ⟨c, h.structClass hc, hname⟩
    | array id =>
      obtain ⟨c, hc, hname⟩ := map_eq_ok.mp hname
      exact map_eq_ok.mpr ⟨c, h.arrayClass hc, hname⟩

theorem nativeHelper_of_extends {op : ArrayOp} {a : ArrayClass}
    {helper : Option (FunctionName × FunctionBody)} (hhelper : nativeHelper op a t = .ok helper) :
    nativeHelper op a t' = .ok helper := by
  obtain ⟨native, hnative, hhelper⟩ := bind_eq_ok.mp hhelper
  obtain ⟨element, helement, hhelper⟩ := bind_eq_ok.mp hhelper
  refine bind_eq_ok.mpr ⟨native, hnative,
    bind_eq_ok.mpr ⟨element, elementName_of_extends h helement, ?_⟩⟩
  cases op with
  | new | newWithDescriptor =>
    obtain ⟨name, hname, hhelper⟩ := bind_eq_ok.mp hhelper
    exact bind_eq_ok.mpr ⟨name, helperName_of_extends h hname, hhelper⟩
  | _ => exact hhelper

theorem hostHelper_of_extends {op : ArrayOp} {a : ArrayClass} {helper : FunctionName × FunctionBody}
    (hhelper : hostHelper op a t options = .ok helper) :
    hostHelper op a t' options = .ok helper := by
  cases op with
  | new | newWithDescriptor =>
    obtain ⟨element, helement, hhelper⟩ := bind_eq_ok.mp hhelper
    obtain ⟨name, hname, hhelper⟩ := bind_eq_ok.mp hhelper
    exact bind_eq_ok.mpr ⟨element, elementName_of_extends h helement,
      bind_eq_ok.mpr ⟨name, helperName_of_extends h hname, hhelper⟩⟩
  | _ =>
    obtain ⟨name, hname, hhelper⟩ := bind_eq_ok.mp hhelper
    exact bind_eq_ok.mpr ⟨name, helperName_of_extends h hname, hhelper⟩

theorem helperOf_of_extends {q : ArrayOp × Nat} {name : FunctionName} {body : FunctionBody}
    (hhelper : helperOf options t q = some (name, body)) :
    helperOf options t' q = some (name, body) := by
  obtain ⟨a, ha, hhelper⟩ := helperOf_eq_some.mp hhelper
  refine helperOf_eq_some.mpr ⟨a, h.arrayClass ha, ?_⟩
  unfold helper? at hhelper ⊢
  split_ifs at hhelper ⊢
  · exact nativeHelper_of_extends h hhelper
  · obtain ⟨helper, hhost, hhelper⟩ := map_eq_ok.mp hhelper
    exact map_eq_ok.mpr ⟨helper, hostHelper_of_extends h hhost, hhelper⟩

end Growth

end ArrayProfile

/-! ### Keys of helpers -/

namespace ArrayProfile

/-- The operations on arrays. -/
def operations : List ArrayOp :=
  [.new, .get, .getSigned, .getUnsigned, .set, .len, .newWithDescriptor]

theorem mem_operations (op : ArrayOp) : op ∈ operations := by
  cases op <;> simp [operations]

/-- The texts by which the helpers of the registered array classes are known. -/
def helperKeys (options : Options) (types : TypeRegistry) : List String :=
  (List.range types.arrays.length).flatMap fun array =>
    operations.filterMap fun op =>
      (helperOf options types (op, array)).map fun helper => helper.1.signatureName

theorem mem_helperKeys {options : Options} {types : TypeRegistry} {q : ArrayOp × Nat}
    {name : FunctionName} {body : FunctionBody} (h : helperOf options types q = some (name, body)) :
    name.signatureName ∈ helperKeys options types := by
  obtain ⟨a, ha, -⟩ := helperOf_eq_some.mp h
  have harray : q.2 < types.arrays.length :=
    (List.getElem?_eq_some_iff.mp (TypeRegistry.arrayClass_eq_ok.mp ha)).1
  refine List.mem_flatMap.mpr ⟨q.2, List.mem_range.mpr harray, ?_⟩
  refine List.mem_filterMap.mpr ⟨q.1, mem_operations q.1, ?_⟩
  rw [h, Option.map_some]

end ArrayProfile

/-! ### Bodies of needed functions -/

/-- A body that is needed is the one of an array helper, or the first one of the function that gives
the offset of the string table. -/
def Need.Allowed (options : Options) (types : TypeRegistry) (n : Need) : Prop :=
  ∀ body, n.body = some body →
    (n.name = StringPool.offsetFunction options ∧ body = StringPool.constantBody 0) ∨
      ∃ q, ArrayProfile.helperOf options types q = some (n.name, body)

theorem Need.Allowed.mono {options : Options} {t t' : TypeRegistry} (h : t.Extends t') {n : Need}
    (hn : n.Allowed options t) : n.Allowed options t' := by
  intro body hbody
  rcases hn body hbody with hoffset | ⟨q, hq⟩
  · exact .inl hoffset
  · exact .inr ⟨q, ArrayProfile.helperOf_of_extends h hq⟩

theorem Instruction.allowed_of_mem_needs {options : Options} {types : TypeRegistry} {i : Instruction}
    {n : Need} (h : n ∈ i.needs options types) : n.Allowed options types := by
  intro body hbody
  unfold Instruction.needs at h
  split at h
  · next op element array hkind =>
    obtain ⟨⟨name, helperBody⟩, hhelper, rfl⟩ := List.mem_map.mp h
    cases hbody
    exact .inr ⟨(op, array), Option.mem_toList.mp hhelper⟩
  · obtain rfl := List.mem_singleton.mp h
    cases hbody
  · rcases List.mem_cons.mp h with rfl | hrest
    · cases hbody
    · obtain rfl := List.mem_singleton.mp hrest
      cases hbody
      exact .inl ⟨rfl, rfl⟩
  · cases h

namespace ModuleCompiler

/-- What compiling a function, successfully or not, does to the compiler: the function is needed, and
so are the functions that its instructions need. -/
theorem needs_compile (c : ModuleCompiler) (w : ModuleWriter) (code : FunctionCode) :
    ∃ needs, (c.compile w code).compiler = { c with functions := c.functions.needAll needs } ∧
      ∀ n ∈ needs, n.Allowed c.options c.types := by
  have hown : (⟨code.name, none⟩ : Need).Allowed c.options c.types := fun body hbody => nomatch hbody
  rcases c.compile_cases w code with ⟨hc, -, -⟩ | ⟨f, body, written, hbegun⟩
  · refine ⟨[⟨code.name, none⟩], hc, fun n hn => ?_⟩
    obtain rfl := List.mem_singleton.mp hn
    exact hown
  · obtain ⟨w', -, rfl⟩ := hbegun.writes
    obtain ⟨written, -, hfunctions⟩ := w'.functions_writeAll body c.options c.types
      (c.marked code.name).functions
    refine ⟨⟨code.name, none⟩ :: written.flatMap (Instruction.needs c.options c.types), ?_, ?_⟩
    · rw [hbegun.compiler, hfunctions]
      rfl
    · intro n hn
      rcases List.mem_cons.mp hn with rfl | hrest
      · exact hown
      · obtain ⟨i, -, hneeds⟩ := List.mem_flatMap.mp hrest
        exact Instruction.allowed_of_mem_needs hneeds

theorem Run.grows {c₀ c : ModuleCompiler} {w₀ w : ModuleWriter} (h : Run c₀ w₀ c w) :
    c₀.types.Grows c.types := by
  induction h with
  | refl => exact .refl
  | registerStruct name fields _ ih => exact ih.registerStruct name fields
  | internArray _ hintern ih => exact ih.internArray hintern
  | internString _ _ ih => exact ih
  | appendData bytes _ ih => exact ih
  | @compile c w code _ ih =>
    obtain ⟨functions, -, hc⟩ := c.compiler_compile w code
    rw [hc]
    exact ih

/-- **The registry of a run answers needs, and all bodies in it are allowed.** -/
theorem Run.answers {options : Options} {c : ModuleCompiler} {w₀ w : ModuleWriter}
    (h : Run (.new options) w₀ c w) :
    ∃ needs, c.functions = FunctionRegistry.needAll {} needs ∧
      ∀ n ∈ needs, n.Allowed options c.types := by
  induction h with
  | refl => exact ⟨[], rfl, by simp⟩
  | @registerStruct c w name fields _ ih =>
    obtain ⟨needs, hfunctions, hallowed⟩ := ih
    exact ⟨needs, hfunctions, fun n hn =>
      (hallowed n hn).mono (c.types.extends_registerStruct name fields)⟩
  | internArray _ hintern ih =>
    obtain ⟨needs, hfunctions, hallowed⟩ := ih
    have hextends := (TypeRegistry.Grows.internArray .refl hintern).extends
    exact ⟨needs, hfunctions, fun n hn => (hallowed n hn).mono hextends⟩
  | internString _ _ ih => exact ih
  | appendData bytes _ ih => exact ih
  | @compile c w code hrun ih =>
    obtain ⟨needs, hfunctions, hallowed⟩ := ih
    obtain ⟨more, hc, hmore⟩ := c.needs_compile w code
    have hoptions : c.options = options := hrun.keeps.options
    rw [hc]
    refine ⟨needs ++ more, ?_, fun n hn => ?_⟩
    · rw [FunctionRegistry.needAll_append, ← hfunctions]
    · rcases List.mem_append.mp hn with hold | hnew
      · exact hallowed n hold
      · exact hoptions ▸ hmore n hnew

end ModuleCompiler

end WasmBackend
