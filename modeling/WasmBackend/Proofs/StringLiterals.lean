import WasmBackend.Proofs.Session
import WasmBackend.Proofs.StringTable

/-! # String literals

What happens to a string literal from the moment it is asked for to the finished module. Its number is
the constant of the code that loads it, the table of all literals is written behind the data, and the
function that gives the offset of the table returns that offset. So the word at that offset, four
bytes on for each number, is the offset of a name, and the name is the literal
(`readName_of_stringConstant`). -/

namespace WasmBackend

/-! ### The function that gives the offset -/

namespace FunctionRegistry

theorem lookup_markReplacing (r : FunctionRegistry) (name : FunctionName) (body : FunctionBody) :
    (r.markReplacing name body).2.lookup name = some (r.markReplacing name body).1 := by
  unfold FunctionRegistry.markReplacing
  split
  · next id hid =>
    have hextends := r.extends_markReplacing name body
    unfold FunctionRegistry.markReplacing at hextends
    rw [hid] at hextends
    exact hextends.lookup hid
  · next hnone => exact lookup_add hnone _ _

theorem get?_markReplacing (r : FunctionRegistry) (name : FunctionName) (body : FunctionBody) :
    ∃ e, (r.markReplacing name body).2.get? (r.markReplacing name body).1 = some e ∧
      e.body = some body := by
  unfold FunctionRegistry.markReplacing FunctionRegistry.get?
  split
  · next id hid =>
    obtain ⟨e, he, -⟩ := signatureName_of_lookup hid
    refine ⟨{ e with isImport := body.isImport, body := some body }, ?_, rfl⟩
    rw [List.getElem?_modify, he]
    simp
  · exact ⟨_, List.getElem?_concat_length .., rfl⟩

end FunctionRegistry

namespace StringPool

theorem offsetBody_eq_ok {offset : Nat} {body : FunctionBody} (h : offsetBody offset = .ok body) :
    offset < 0x80000000 ∧ body = constantBody (Int32.ofNat offset) := by
  unfold offsetBody at h
  split_ifs at h with hoffset
  cases h
  exact ⟨hoffset, rfl⟩

theorem finalize_eq_ok {p p' : StringPool} {data data' : DataSection}
    (h : p.finalize data = (.ok data', p')) :
    (p.strings = [] ∧ data' = data) ∨
      ∃ bytes, encodeTable data.size p.strings = .ok bytes ∧ data' = data.append bytes ∧
        p'.baseOffset = some data.size ∧ p'.strings = p.strings := by
  unfold finalize at h
  split_ifs at h with hfinalized hempty
  · cases h
  · cases h
    exact .inl ⟨List.isEmpty_iff.mp hempty, rfl⟩
  · right
    dsimp only at h
    split at h
    · next bytes hbytes =>
      cases h
      exact ⟨bytes, hbytes, rfl, rfl, rfl⟩
    · cases h

end StringPool

/-! ### Finishing -/

namespace ModuleWriter

theorem data_finish (w : ModuleWriter) (registry : FunctionRegistry) :
    (w.finish registry).2.data = w.data := by
  cases w with
  | text m =>
    simp only [ModuleWriter.finish, TextModule.finish]
    split_ifs
    · rfl
    · split
      · rfl
      · split <;> rfl
  | binary m =>
    simp only [ModuleWriter.finish, BinaryModule.finish]
    split
    · rfl
    · split <;> rfl

end ModuleWriter

namespace ModuleCompiler

variable {c : ModuleCompiler} {w : ModuleWriter}

theorem Finishing.data_eq (f : Finishing c w) : f.finished.data = f.data := by
  obtain ⟨hwritten, -⟩ := writeCodeFunctions_eq_ok f.writeCodeFunctions
  have hfinished := f.written.data_finish f.functions
  rw [f.finish] at hfinished
  rw [hfinished, hwritten, ModuleWriter.data_withData]

/-- The table is behind the data, and the function that gives its offset returns that. -/
theorem Finishing.table (f : Finishing c w) (hstrings : c.strings.strings ≠ []) :
    ∃ bytes, StringPool.encodeTable w.data.size c.strings.strings = .ok bytes ∧
      f.data = w.data.append bytes ∧ w.data.size < 0x80000000 ∧
      ∃ id e, f.functions.lookup (StringPool.offsetFunction c.options) = some id ∧
        f.functions.get? id = some e ∧
        e.body = some (StringPool.constantBody (Int32.ofNat w.data.size)) := by
  rcases StringPool.finalize_eq_ok f.finalize with ⟨hnil, -⟩ | ⟨bytes, hbytes, hdata, hbase, hsame⟩
  · exact absurd hnil hstrings
  · have hpatch := f.patchOffset
    unfold ModuleCompiler.patchOffset at hpatch
    simp only [hsame, List.isEmpty_eq_false_iff.mpr hstrings, Bool.false_and, Bool.false_eq_true,
      if_false, hbase, Option.getD_some] at hpatch
    obtain ⟨body, hbody, hfunctions⟩ := bind_eq_ok.mp hpatch
    rw [pure_eq_ok] at hfunctions
    obtain ⟨hoffset, rfl⟩ := StringPool.offsetBody_eq_ok hbody
    have hlookup := c.functions.lookup_markReplacing (StringPool.offsetFunction c.options)
      (StringPool.constantBody (Int32.ofNat w.data.size))
    obtain ⟨e, he, hebody⟩ := c.functions.get?_markReplacing
      (StringPool.offsetFunction c.options) (StringPool.constantBody (Int32.ofNat w.data.size))
    rw [hfunctions] at hlookup he
    exact ⟨bytes, hbytes, hdata, hoffset, _, e, hlookup, he, hebody⟩

theorem Finishing.isPrefix_data (f : Finishing c w) : w.data.bytes <+: f.data.bytes := by
  rcases StringPool.finalize_eq_ok f.finalize with ⟨-, hdata⟩ | ⟨bytes, -, hdata, -⟩
  · exact ⟨[], by rw [hdata, List.append_nil]⟩
  · rw [hdata]
    exact List.prefix_append _ _

end ModuleCompiler

/-! ### Loading a literal -/

theorem emissions_stringConst {options : Options} {id : Nat} (hid : id < 0x80000000)
    (position : CodePosition) (ty : OperandType) (types : TypeRegistry)
    (functions : FunctionRegistry) :
    ∃ callee functions',
      Instruction.emissions ⟨position, .stringConst id ty⟩ options types functions =
        (.ok [.target (.i32Const (Int32.ofNat id)), .call (StringPool.accessor options) callee none],
          functions') ∧
      functions'.lookup (StringPool.accessor options) = some callee := by
  refine ⟨(functions.mark (StringPool.accessor options) false).1,
    ((functions.mark (StringPool.accessor options) false).2.markSynthetic
      (StringPool.offsetFunction options) (StringPool.constantBody 0)).2, ?_, ?_⟩
  · refine emissions_eq_ok.mpr ?_
    show Instruction.stringCode id options functions = _
    unfold Instruction.stringCode
    dsimp only
    rw [if_pos hid]
  · exact (FunctionRegistry.extends_markSynthetic _ _ _).lookup (functions.lookup_mark _ false)

/-! ### From the request to the finished module -/

namespace Session

variable {options : Options} {w w' : ModuleWriter} {requests : List Request} {c : ModuleCompiler}

/-- While a module is not finished, a literal is given a number, which it keeps. -/
theorem stringConstant_of_run {s : Session} (hopen : s.compiler.strings.finalized = false)
    (before after : List Request) (value : String) (position : CodePosition) :
    ∃ id c₁, (s.run before).compiler.stringConstant value position =
        (.ok ⟨position, .stringConst id TypeRegistry.stringType⟩, c₁) ∧
      (s.run (before ++ .stringConstant value position :: after)).compiler.strings.strings[id]? =
        some value := by
  have hkeeps := (s.run_of_session before).keeps
  have hintern : ∃ id strings, (s.run before).compiler.strings.intern value = (.ok id, strings) := by
    unfold StringPool.intern
    split
    · exact ⟨_, _, rfl⟩
    · rw [hkeeps.finalized, hopen]
      exact ⟨_, _, rfl⟩
  obtain ⟨id, strings, hintern⟩ := hintern
  have hconstant : (s.run before).compiler.stringConstant value position =
      (.ok ⟨position, .stringConst id TypeRegistry.stringType⟩,
        { (s.run before).compiler with strings }) := by
    unfold ModuleCompiler.stringConstant
    rw [hintern]
    rfl
  refine ⟨id, _, hconstant, ?_⟩
  have hserve : (s.run before).serve (.stringConstant value position) =
      ⟨{ (s.run before).compiler with strings }, (s.run before).writer⟩ := by
    simp only [serve, hconstant]
  obtain ⟨-, hvalue, -⟩ := StringPool.intern_eq_ok hintern
  have hlater := (((s.run before).serve (.stringConstant value position)).run_of_session after).keeps
  rw [hserve] at hlater
  rw [run_append, show (s.run before).run (.stringConstant value position :: after) =
    ((s.run before).serve (.stringConstant value position)).run after from rfl, hserve]
  obtain ⟨hlt, hget⟩ := List.getElem?_eq_some_iff.mp hvalue
  rw [List.prefix_iff_getElem?.mp hlater.strings id hlt, hget]

/-- **String literals survive to the finished module.** The data is still in its place, the function
that gives the offset of the string table keeps its number, and the literal of every request is read
back: with the constant in its code and the constant in that function, the word in its entry of the
table is the offset of its name. -/
theorem readName_of_stringConstant
    (hfinish : ((Session.mk (.new options) w).run requests).finish = ⟨.ok (), c, w'⟩)
    (hsize : w'.data.size < 0x80000000) :
    let s : Session := ⟨.new options, w⟩
    (s.run requests).writer.data.bytes <+: w'.data.bytes ∧
      (∀ before after id, requests = before ++ after →
        (s.run before).compiler.functions.lookup (StringPool.offsetFunction options) = some id →
        c.functions.lookup (StringPool.offsetFunction options) = some id) ∧
      ∀ before value position after, requests = before ++ .stringConstant value position :: after →
        ∃ i c₁, ∃ number base : Int32, ∃ id e,
          (s.run before).compiler.stringConstant value position = (.ok i, c₁) ∧
          (∀ types functions, ∃ callee functions',
            i.emissions options types functions =
              (.ok [.target (.i32Const number), .call (StringPool.accessor options) callee none],
                functions') ∧
            functions'.lookup (StringPool.accessor options) = some callee) ∧
          c.functions.lookup (StringPool.offsetFunction options) = some id ∧
          c.functions.get? id = some e ∧ e.body = some (StringPool.constantBody base) ∧
          0 ≤ base.toInt ∧ 0 ≤ number.toInt ∧ ∃ offset : UInt32,
            (ByteReader.readWord32
              ⟨w'.data.bytes, (base.toInt + 4 * number.toInt).toNat⟩).1 = .ok offset ∧
            (ByteReader.readName ⟨w'.data.bytes, offset.toNat⟩).1 = .ok value := by
  intro s
  obtain ⟨f, rfl, rfl⟩ := ModuleCompiler.finish_eq_ok hfinish
  have hkeeps := (s.run_of_session requests).keeps
  have hoptions : (s.run requests).compiler.options = options := hkeeps.options
  rw [f.data_eq] at hsize ⊢
  refine ⟨f.isPrefix_data, ?_, ?_⟩
  · rintro before after id rfl hid
    have hafter := ((s.run before).run_of_session after).keeps.functions
    rw [← run_append] at hafter
    exact (ModuleCompiler.extends_patchOffset f.patchOffset).lookup (hafter.lookup hid)
  · rintro before value position after rfl
    obtain ⟨number, c₁, hconstant, hvalue⟩ :=
      stringConstant_of_run (s := s) rfl before after value position
    have hstrings : (s.run (before ++ .stringConstant value position :: after)).compiler.strings.strings
        ≠ [] := by
      intro hnil
      rw [hnil] at hvalue
      cases hvalue
    obtain ⟨bytes, hbytes, hdata, hbase, id, e, hid, he, hbody⟩ := f.table hstrings
    have hnumber := (List.getElem?_eq_some_iff.mp hvalue).1
    have htable := Nat.le_trans (Nat.mul_le_mul_left 4 (Nat.succ_le_of_lt hnumber))
      (StringPool.length_encodeTable hbytes)
    rw [hdata, DataSection.size_append] at hsize
    have hlt : number < 0x80000000 := by omega
    rw [hoptions] at hid
    refine ⟨_, c₁, Int32.ofNat number, Int32.ofNat _, id, e, hconstant,
      emissions_stringConst hlt position _, hid, he, hbody, ?_⟩
    rw [Int32.toInt_ofNat_of_lt hbase, Int32.toInt_ofNat_of_lt hlt]
    refine ⟨by omega, by omega, ?_⟩
    obtain ⟨offset, hword, hname⟩ := StringPool.readTable hbytes
      (by rw [List.length_append]; unfold DataSection.size at hsize; omega) hvalue
    rw [hdata]
    refine ⟨offset, ?_, hname⟩
    rw [← hword]
    congr 3

/-- Two literals among data, the first one asked for twice. -/
def greetings : List Request :=
  [.appendData [7], .stringConstant "hi" .unknown, .appendData [8, 9],
    .stringConstant "grüß" .unknown, .stringConstant "hi" .unknown]

/-- The data, the table and the two names. -/
theorem readName_greetings :
    let s : Session := ⟨.new {}, .newBinary⟩
    ∃ c w', (s.run greetings).finish = ⟨.ok (), c, w'⟩ ∧
      w'.data.bytes = [7, 8, 9, 11, 0, 0, 0, 14, 0, 0, 0, 2, 104, 105, 6, 103, 114, 195, 188, 195, 159] ∧
      ∃ number base : Int32, ∃ id e,
        c.functions.lookup (StringPool.offsetFunction {}) = some id ∧ c.functions.get? id = some e ∧
        e.body = some (StringPool.constantBody base) ∧ ∃ offset : UInt32,
          (ByteReader.readWord32
            ⟨w'.data.bytes, (base.toInt + 4 * number.toInt).toNat⟩).1 = .ok offset ∧
          (ByteReader.readName ⟨w'.data.bytes, offset.toNat⟩).1 = .ok "grüß" := by
  intro s
  let finished := (s.run greetings).finish
  have hresult : finished.result = .ok () := by decide +kernel
  have hfinish : finished = ⟨.ok (), finished.compiler, finished.writer⟩ := by rw [← hresult]
  have hbytes : finished.writer.data.bytes =
      [7, 8, 9, 11, 0, 0, 0, 14, 0, 0, 0, 2, 104, 105, 6, 103, 114, 195, 188, 195, 159] := by
    decide +kernel
  have hsize : finished.writer.data.size < 0x80000000 := by
    unfold DataSection.size
    rw [hbytes]
    decide
  obtain ⟨-, -, hliterals⟩ := readName_of_stringConstant hfinish hsize
  obtain ⟨i, c₁, number, base, id, e, -, -, hid, he, hbody, -, -, hread⟩ :=
    hliterals [.appendData [7], .stringConstant "hi" .unknown, .appendData [8, 9]] "grüß" .unknown
      [.stringConstant "hi" .unknown] rfl
  exact ⟨_, _, hfinish, hbytes, number, base, id, e, hid, he, hbody, hread⟩

end Session

end WasmBackend
