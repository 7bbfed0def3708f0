import Mathlib.Data.List.Induction
import WasmBackend.Module.Buffer
import WasmBackend.Proofs.Outcome

/-! # Encoding at once

If all indices were known from the start, a function could be encoded in one pass
(`FunctionDraft.encode`). A function that is buffered and resolved later is encoded to the same bytes
and fails with the same error (`resolve_buffer`):

* `splice_append`, `splice_concat`: what is written behind a buffer stays behind it, and the index of
  a call comes right after the bytes that were there when the call was written;
* `splice_shifted`: bytes in front of a buffer move the offsets of its calls;
* `StandsFor`: after each emission, the buffer stands for the emissions so far. -/

namespace WasmBackend

/-! ### Encoding in one pass -/

/-- Bytes of an item of code. -/
def BodyOp.encode (indices : ModuleIndices) : BodyOp → Except CompileError (List UInt8)
  | .op instr => .ok instr.encode
  | .call _ callee _ => (indices.get callee).map fun index => (TargetOp.indexed .call index).encode

/-- Bytes of code. -/
def encodeCode (indices : ModuleIndices) (code : List BodyOp) : Except CompileError (List UInt8) :=
  (code.mapM (BodyOp.encode indices)).map List.flatten

namespace FunctionDraft

/-- Bytes of the body: locals, code and `end`. -/
def encodeBody (f : FunctionDraft) (indices : ModuleIndices) : Except CompileError (List UInt8) :=
  (encodeCode indices f.code).map fun code =>
    encodeLocals f.declared ++ code ++ Opcode.endBlock.encode

/-- The finished function. -/
def encode (f : FunctionDraft) (indices : ModuleIndices) : Except CompileError EncodedFunction := do
  let body ← f.encodeBody indices
  let index ← indices.get f.id
  return { id := f.id, index, name := f.name, params := f.params, result := f.result
           bytes := Leb128.encodeNat body.length ++ body }

end FunctionDraft

theorem encodeCode_concat (indices : ModuleIndices) (code : List BodyOp) (op : BodyOp) :
    encodeCode indices (code ++ [op]) =
      (encodeCode indices code).bind fun bytes => (op.encode indices).map (bytes ++ ·) := by
  unfold encodeCode
  rw [List.mapM_append]
  rcases code.mapM (BodyOp.encode indices) with e | front
  · rfl
  · rcases hop : op.encode indices with e | bytes
    · simp [List.mapM_cons, hop, Except.map, Except.bind, bind]
    · simp [List.mapM_cons, hop, Except.map, Except.bind, bind, pure, Except.pure]

/-! ### Splicing -/

section Splice

variable (indices : ModuleIndices) {bytes : List UInt8} {calls : List (Nat × Nat)} {copied : Nat}

theorem splice_append (more : List UInt8) (hcopied : copied ≤ bytes.length)
    (hcalls : ∀ call ∈ calls, call.1 ≤ bytes.length) :
    splice indices (bytes ++ more) copied calls =
      (splice indices bytes copied calls).map (· ++ more) := by
  induction calls generalizing copied with
  | nil => simp [splice, Except.map, List.drop_append_of_le_length hcopied]
  | cons call calls ih =>
    obtain ⟨offset, callee⟩ := call
    have hoffset : offset ≤ bytes.length := hcalls _ List.mem_cons_self
    have hrest := ih hoffset fun call hcall => hcalls call (List.mem_cons_of_mem _ hcall)
    simp only [splice, hrest, List.take_append_of_le_length hoffset]
    rcases indices.get callee with e | index
    · rfl
    · rcases splice indices bytes offset calls with e | rest
      · rfl
      · simp [Except.map, bind, Except.bind, pure, Except.pure]

/-- The index of a call at the end of the bytes is put behind them. -/
theorem splice_concat (callee : Nat) :
    splice indices bytes copied (calls ++ [(bytes.length, callee)]) =
      (splice indices bytes copied calls).bind fun spliced =>
        (indices.get callee).map (spliced ++ Leb128.encodeNat ·) := by
  induction calls generalizing copied with
  | nil =>
    rcases hindex : indices.get callee with e | index
    · simp [splice, hindex, Except.map, bind, Except.bind]
    · simp [splice, hindex, Except.map, bind, Except.bind, pure, Except.pure]
  | cons call calls ih =>
    obtain ⟨offset, first⟩ := call
    simp only [List.cons_append, splice, ih]
    rcases indices.get first with e | index
    · rfl
    · rcases splice indices bytes offset calls with e | rest
      · rfl
      · rcases indices.get callee with e | last
        · rfl
        · simp [Except.map, bind, Except.bind, pure, Except.pure]

/-- The offsets of the calls once some bytes have been put in front of the code. -/
def shifted (header : List UInt8) (calls : List (Nat × Nat)) : List (Nat × Nat) :=
  calls.map fun call => (header.length + call.1, call.2)

theorem splice_shifted_add (header bytes : List UInt8) (copied : Nat) (calls : List (Nat × Nat)) :
    splice indices (header ++ bytes) (header.length + copied) (shifted header calls) =
      splice indices bytes copied calls := by
  induction calls generalizing copied with
  | nil => simp [splice, shifted]
  | cons call calls ih =>
    obtain ⟨offset, callee⟩ := call
    have hrest := ih offset
    have hcopy : ((header ++ bytes).take (header.length + offset)).drop (header.length + copied) =
        (bytes.take offset).drop copied := by
      rw [List.take_length_add_append, List.drop_length_add_append]
    simp only [shifted, List.map_cons, splice, hcopy] at hrest ⊢
    rw [hrest]

/-- Bytes in front of the code are copied, and the offsets move behind them. -/
theorem splice_shifted (header : List UInt8) :
    splice indices (header ++ bytes) 0 (shifted header calls) =
      (splice indices bytes 0 calls).map (header ++ ·) := by
  cases calls with
  | nil => rfl
  | cons call calls =>
    obtain ⟨offset, callee⟩ := call
    have hrest := splice_shifted_add indices header bytes offset calls
    simp only [shifted, List.map_cons, splice, List.drop_zero, List.take_length_add_append] at hrest ⊢
    rw [hrest]
    rcases indices.get callee with e | index
    · rfl
    · rcases splice indices bytes offset calls with e | rest
      · rfl
      · simp [Except.map, bind, Except.bind, pure, Except.pure]

end Splice

/-! ### Scratch locals -/

/-- The scratch locals that some code uses, in the order of first use. -/
def scratchLocals (code : List Emission) : List (Nat × WasmType) :=
  (code.filterMap Emission.scratch?).eraseDups

theorem firstUses_filter {α : Type} [DecidableEq α] (p : α → Bool) (l : List α) :
    firstUses (l.filter p) = (firstUses l).filter p := by
  induction l with
  | nil => rfl
  | cons a rest ih =>
    by_cases hp : p a = true
    · simp only [List.filter_cons_of_pos hp, firstUses, ih, List.filter_filter, Bool.and_comm]
    · have hne : ∀ b ∈ firstUses rest, (p b && decide (b ≠ a)) = p b := by
        intro b _
        by_cases hb : b = a
        · simp [hb, hp]
        · simp [hb]
      simp only [List.filter_cons_of_neg hp, firstUses, ih, List.filter_filter]
      exact (List.filter_congr hne).symm

theorem firstUses_eq_eraseDups {α : Type} [DecidableEq α] [BEq α] [LawfulBEq α] (l : List α) :
    firstUses l = l.eraseDups := by
  induction hn : l.length using Nat.strongRecOn generalizing l with
  | ind n ih =>
    cases l with
    | nil => rfl
    | cons a rest =>
      have hlength := List.length_filter_le (fun b => !b == a) rest
      rw [List.eraseDups_cons, ← ih _ (by rw [List.length_cons] at hn; omega) _ rfl,
        firstUses_filter, firstUses]
      congr 2
      funext b
      by_cases hb : b = a <;> simp [hb]

theorem scratch_eq (f : FunctionDraft) : f.scratch = scratchLocals f.body :=
  firstUses_eq_eraseDups _

theorem mem_scratchLocals {code : List Emission} {e : Emission} (he : e ∈ code)
    {key : Nat × WasmType} (hkey : e.scratch? = some key) : key ∈ scratchLocals code :=
  List.mem_eraseDups.mpr (List.mem_filterMap.mpr ⟨e, he, hkey⟩)

theorem idxOf?_of_mem {scratch : List (Nat × WasmType)} {key : Nat × WasmType}
    (h : key ∈ scratch) :
    scratch.idxOf? key = some (scratch.idxOf key) ∧ scratch.idxOf key < scratch.length := by
  obtain ⟨place, hplace⟩ := Option.isSome_iff_exists.mp (List.isSome_idxOf?.mpr h)
  rw [List.idxOf_eq_getD_idxOf?, hplace]
  exact ⟨rfl, (List.idxOf?_eq_some_iff.mp hplace).1⟩

theorem scratchLocals_concat_of_none {code : List Emission} {e : Emission} (h : e.scratch? = none) :
    scratchLocals (code ++ [e]) = scratchLocals code := by
  simp [scratchLocals, h]

theorem scratchLocals_concat (code : List Emission) {e : Emission} {key : Nat × WasmType}
    (h : e.scratch? = some key) :
    key ∈ scratchLocals code ∧ scratchLocals (code ++ [e]) = scratchLocals code ∨
      key ∉ scratchLocals code ∧ scratchLocals (code ++ [e]) = scratchLocals code ++ [key] := by
  have hused : (code ++ [e]).filterMap Emission.scratch? =
      code.filterMap Emission.scratch? ++ [key] := by simp [h]
  unfold scratchLocals
  rw [hused, List.eraseDups_append, List.mem_eraseDups]
  generalize code.filterMap Emission.scratch? = used
  by_cases hmem : key ∈ used
  · exact .inl ⟨hmem, by simp [List.removeAll, hmem]⟩
  · exact .inr ⟨hmem, by simp [List.removeAll, hmem, List.eraseDups_cons]⟩

theorem isPrefix_scratchLocals (code : List Emission) (e : Emission) :
    scratchLocals code <+: scratchLocals (code ++ [e]) := by
  cases h : e.scratch? with
  | none => exact ⟨[], by rw [scratchLocals_concat_of_none h, List.append_nil]⟩
  | some key =>
    rcases scratchLocals_concat code h with ⟨-, hsame⟩ | ⟨-, hadded⟩
    · exact ⟨[], by rw [hsame, List.append_nil]⟩
    · exact ⟨[key], hadded.symm⟩

/-- A table that holds the scratch locals of the code before gives one its place among those of all
code, and holds it then. -/
theorem ScratchTable.index_eq {base : Nat} {code : List Emission} {e : Emission}
    {key : Nat × WasmType} (h : e.scratch? = some key) :
    ({ base, keys := scratchLocals code } : ScratchTable).index key =
      (base + (scratchLocals (code ++ [e])).idxOf key,
        { base, keys := scratchLocals (code ++ [e]) }) := by
  unfold ScratchTable.index
  rcases scratchLocals_concat code h with ⟨hmem, hsame⟩ | ⟨hmem, hadded⟩
  · rw [hsame]
    simp only [(idxOf?_of_mem hmem).1]
  · have hnone : (scratchLocals code).idxOf? key = none := List.idxOf?_eq_none_iff.mpr hmem
    rw [hadded, List.idxOf_append_of_notMem hmem, List.idxOf_cons_self, Nat.add_zero]
    simp only [hnone]

/-! ### What a buffer stands for -/

/-- Code, with its scratch locals placed from `base` on in the order of the given keys. -/
def placed (base : Nat) (keys : List (Nat × WasmType)) (code : List Emission) : List BodyOp :=
  code.map (Emission.place fun key => base + keys.idxOf key)

/-- A buffer and a table of scratch locals stand for some code: once callees have their indices, the
buffer holds its bytes. -/
structure StandsFor (base : Nat) (code : List Emission) (s : CodeBuffer × ScratchTable) : Prop where
  scratch : s.2 = { base, keys := scratchLocals code }
  calls_le : ∀ call ∈ s.1.calls, call.1 ≤ s.1.bytes.length
  splice_eq : ∀ indices keys, scratchLocals code <+: keys →
    splice indices s.1.bytes 0 s.1.calls = encodeCode indices (placed base keys code)

theorem standsFor_nil (base : Nat) : StandsFor base [] ({}, { base }) where
  scratch := rfl
  calls_le := by simp
  splice_eq := by
    intro indices keys _
    rfl

section Write

variable {base : Nat} {code : List Emission} {s : CodeBuffer × ScratchTable}

theorem placed_concat (base : Nat) (keys : List (Nat × WasmType)) (code : List Emission)
    (e : Emission) : placed base keys (code ++ [e]) =
      placed base keys code ++ [e.place fun key => base + keys.idxOf key] := by
  simp [placed]

theorem StandsFor.writeOp (h : StandsFor base code s) {e : Emission} (instr : TargetOp)
    (hplace : ∀ keys, scratchLocals (code ++ [e]) <+: keys →
      e.place (fun key => base + keys.idxOf key) = .op instr) :
    StandsFor base (code ++ [e])
      (s.1.writeOp instr, { base, keys := scratchLocals (code ++ [e]) }) where
  scratch := rfl
  calls_le := by
    intro call hcall
    have hle := h.calls_le call hcall
    simp only [CodeBuffer.writeOp, List.length_append]
    omega
  splice_eq := by
    intro indices keys hkeys
    have hbefore := h.splice_eq indices keys ((isPrefix_scratchLocals code e).trans hkeys)
    rw [placed_concat, encodeCode_concat, hplace keys hkeys, ← hbefore]
    exact splice_append indices instr.encode (Nat.zero_le _) h.calls_le

/-- A call is written behind the code, and its index will follow it. -/
theorem StandsFor.writeCall (h : StandsFor base code s) (name : FunctionName) (callee : Nat)
    (viewedAs : Option WasmType) :
    StandsFor base (code ++ [.call name callee viewedAs]) (s.1.writeCall callee, s.2) where
  scratch := by
    rw [h.scratch, scratchLocals_concat_of_none rfl]
  calls_le := by
    intro call hcall
    simp only [CodeBuffer.writeCall, List.mem_append, List.mem_singleton] at hcall ⊢
    rcases hcall with hold | rfl
    · have hle := h.calls_le call hold
      rw [List.length_append]
      omega
    · exact Nat.le_refl _
  splice_eq := by
    intro indices keys hkeys
    rw [scratchLocals_concat_of_none rfl] at hkeys
    have hbefore := h.splice_eq indices keys hkeys
    rw [placed_concat, encodeCode_concat, ← hbefore]
    simp only [CodeBuffer.writeCall]
    rw [splice_concat, splice_append indices _ (Nat.zero_le _) h.calls_le]
    rcases splice indices s.1.bytes 0 s.1.calls with e | spliced
    · rfl
    · rcases hindex : indices.get callee with e | index
      · simp [Emission.place, BodyOp.encode, hindex, Except.map, Except.bind]
      · simp [Emission.place, BodyOp.encode, hindex, Except.map, Except.bind, TargetOp.encode]

theorem StandsFor.writeScratch (h : StandsFor base code s) {e : Emission} {key : Nat × WasmType}
    {op : Opcode} (hkey : e.scratch? = some key)
    (hplace : ∀ index, e.place index = .op (.indexed op (index key))) :
    StandsFor base (code ++ [e])
      (s.1.writeOp (.indexed op (s.2.index key).1), (s.2.index key).2) := by
  rw [h.scratch, ScratchTable.index_eq hkey]
  refine h.writeOp _ fun keys hkeys => ?_
  obtain ⟨more, rfl⟩ := hkeys
  have hmem : key ∈ scratchLocals (code ++ [e]) := by
    refine mem_scratchLocals ?_ hkey
    simp
  rw [hplace, List.idxOf_append_of_mem hmem]

/-- **What one emission preserves.** -/
theorem StandsFor.write (h : StandsFor base code s) (e : Emission) :
    StandsFor base (code ++ [e]) (CodeBuffer.write s e) := by
  rcases e with op | ⟨name, callee, viewedAs⟩
  · cases op with
    | target instr =>
      have hwritten := h.writeOp (e := .target instr) instr fun _ _ => rfl
      rwa [scratchLocals_concat_of_none rfl, ← h.scratch] at hwritten
    | scratchSet n ty => exact h.writeScratch rfl fun _ => rfl
    | scratchGet n ty => exact h.writeScratch rfl fun _ => rfl
  · exact h.writeCall name callee viewedAs

end Write

/-- **What a run of emissions leaves behind.** -/
theorem standsFor_foldl (base : Nat) (code : List Emission) :
    StandsFor base code (code.foldl CodeBuffer.write ({}, { base })) := by
  induction code using List.reverseRecOn with
  | nil => exact standsFor_nil base
  | append_singleton code e ih =>
    rw [List.foldl_append]
    exact ih.write e

/-! ### Complete functions -/

/-- Declarations in front of the code and `end` behind it leave the code as it is. -/
theorem splice_close (f : OpenFunction) {code : List Emission} {s : CodeBuffer × ScratchTable}
    (h : StandsFor f.scratch.base code s) (indices : ModuleIndices) :
    splice indices (f.close s.1 s.2).body 0 (f.close s.1 s.2).calls =
      (encodeCode indices (placed f.scratch.base (scratchLocals code) code)).map fun code' =>
        encodeLocals (f.locals ++ (scratchLocals code).map Prod.snd) ++ code' ++
          Opcode.endBlock.encode := by
  have hcode := h.splice_eq indices (scratchLocals code) ⟨[], List.append_nil _⟩
  have hcalls : ∀ header : List UInt8, ∀ call ∈ shifted header s.1.calls,
      call.1 ≤ (header ++ s.1.bytes).length := by
    intro header call hcall
    obtain ⟨call', hcall', rfl⟩ := List.mem_map.mp hcall
    have hle := h.calls_le call' hcall'
    rw [List.length_append]
    omega
  rw [← hcode, h.scratch]
  show splice indices (encodeLocals _ ++ s.1.bytes ++ Opcode.endBlock.encode) 0
    (shifted (encodeLocals _) s.1.calls) = _
  rw [splice_append indices _ (Nat.zero_le _) (hcalls _), splice_shifted]
  rcases splice indices s.1.bytes 0 s.1.calls with e | spliced
  · rfl
  · rfl

/-- **A buffered function is encoded as if all indices had been known from the start.** -/
theorem FunctionDraft.resolve_buffer (f : FunctionDraft) (indices : ModuleIndices) :
    f.buffer.resolve indices = f.encode indices := by
  have hbody : splice indices f.buffer.body 0 f.buffer.calls = f.encodeBody indices := by
    rw [encodeBody, code, declared, scratch_eq]
    exact splice_close f.opened (standsFor_foldl f.opened.scratch.base f.body) indices
  unfold BufferedFunction.resolve encode
  rw [hbody]
  rfl

end WasmBackend
