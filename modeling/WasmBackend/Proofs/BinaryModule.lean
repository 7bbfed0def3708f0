import WasmBackend.Module.Binary
import WasmBackend.Proofs.BufferedCode
import WasmBackend.Proofs.RelatedLists

/-! # Writing a binary module

What the operations of a module do when they succeed. When the module is finished, every complete
function is encoded (`finish_eq_ok`). -/

namespace WasmBackend

theorem BufferedFunction.resolveAll_eq_ok {indices : ModuleIndices}
    {buffered : List BufferedFunction} {finished : List EncodedFunction} :
    resolveAll indices buffered = (finished, .ok ()) ↔
      List.Forall₂ (fun b e => b.resolve indices = .ok e) buffered finished := by
  induction buffered generalizing finished with
  | nil =>
    rw [resolveAll, List.forall₂_nil_left_iff, Prod.mk.injEq]
    simp [eq_comm]
  | cons b rest ih =>
    rw [List.forall₂_cons_left_iff, resolveAll]
    rcases b.resolve indices with e | first
    · simp
    · rcases hothers : resolveAll indices rest with ⟨others, result⟩
      constructor
      · intro h
        cases h
        exact ⟨first, others, rfl, ih.mp hothers, rfl⟩
      · rintro ⟨e, others', ⟨⟩, hrest, rfl⟩
        rw [ih.mpr hrest] at hothers
        cases hothers
        rfl

namespace BinaryModule

theorem beginFunction_eq_ok {m m' : BinaryModule} {f : FunctionDraft}
    (h : m.beginFunction f = .ok m') : m.current = none ∧ m' = { m with current := some f } := by
  unfold beginFunction at h
  split at h
  · cases h
  · next hnone =>
    cases h
    exact ⟨hnone, rfl⟩

theorem emit_eq_ok {m m' : BinaryModule} {code : List Emission} (h : m.emit code = .ok m') :
    m' = { m with current := m.current.map (·.extend code) } := by
  unfold emit at h
  split at h
  · next f hf =>
    cases h
    simp [hf]
  · next hnone =>
    cases h
    rw [hnone, Option.map_none, ← hnone]
  · cases h

theorem endFunction_eq_ok {m m' : BinaryModule} (h : m.endFunction = .ok m') :
    ∃ f, m.current = some f ∧ m' = { m with current := none, buffered := m.buffered ++ [f] } := by
  unfold endFunction at h
  split at h
  · next f hf =>
    cases h
    exact ⟨f, hf, rfl⟩
  · cases h

/-! ### Finishing -/

/-- The functions are the drafts, encoded one by one. -/
abbrev Encodes (indices : ModuleIndices) : List FunctionDraft → List EncodedFunction → Prop :=
  List.Forall₂ fun f e => f.encode indices = .ok e

theorem resolveAll_buffer {indices : ModuleIndices} {drafts : List FunctionDraft}
    {encoded : List EncodedFunction} :
    BufferedFunction.resolveAll indices (drafts.map FunctionDraft.buffer) = (encoded, .ok ()) ↔
      Encodes indices drafts encoded := by
  rw [BufferedFunction.resolveAll_eq_ok, List.forall₂_map_left_iff]
  simp only [FunctionDraft.resolve_buffer]

theorem Encodes.exists_encoded {indices : ModuleIndices} {drafts : List FunctionDraft}
    {encoded : List EncodedFunction} (h : Encodes indices drafts encoded) {f : FunctionDraft}
    (hf : f ∈ drafts) : ∃ e ∈ encoded, f.encode indices = .ok e :=
  exists_right_of_mem h hf

theorem Encodes.exists_draft {indices : ModuleIndices} {drafts : List FunctionDraft}
    {encoded : List EncodedFunction} (h : Encodes indices drafts encoded) {e : EncodedFunction}
    (he : e ∈ encoded) : ∃ f ∈ drafts, f.encode indices = .ok e :=
  exists_left_of_mem h he

theorem finishFunctions_eq_ok {indices : ModuleIndices} {finished functions : List EncodedFunction}
    {buffered : List BufferedFunction}
    (h : finishFunctions indices finished buffered = (.ok (), functions)) :
    ∃ others, BufferedFunction.resolveAll indices buffered = (others, .ok ()) ∧
      repeated? (inOrder (finished ++ others)) = none ∧
      functions = inOrder (finished ++ others) := by
  rcases hresolved : BufferedFunction.resolveAll indices buffered with ⟨others, e | ⟨⟩⟩
  · simp only [finishFunctions, hresolved] at h
    cases h
  · simp only [finishFunctions, hresolved] at h
    split at h
    · cases h
    · next hrepeated =>
      cases h
      exact ⟨others, rfl, hrepeated, rfl⟩

/-- What finishing a module does when it succeeds. -/
theorem finish_eq_ok {m m' : BinaryModule} {registry : FunctionRegistry}
    (h : m.finish registry = (.ok (), m')) :
    m.current = none ∧ ∃ encoded,
      Encodes (.ofRegistry registry) m.buffered encoded ∧
      repeated? (inOrder (m.functions ++ encoded)) = none ∧
      m' = { m with
        buffered := [], functions := inOrder (m.functions ++ encoded)
        importCount := registry.importCount } := by
  unfold finish at h
  split at h
  · cases h
  · next hnone =>
    rcases hfinished : finishFunctions (.ofRegistry registry) m.functions
      (m.buffered.map FunctionDraft.buffer) with ⟨e | ⟨⟩, functions⟩
    · simp only [hfinished] at h
      cases h
    · obtain ⟨encoded, hencoded, hrepeated, rfl⟩ := finishFunctions_eq_ok hfinished
      simp only [hfinished] at h
      cases h
      exact ⟨hnone, encoded, resolveAll_buffer.mp hencoded, hrepeated, rfl⟩

theorem mem_inOrder {e : EncodedFunction} {functions : List EncodedFunction} :
    e ∈ inOrder functions ↔ e ∈ functions :=
  (List.mergeSort_perm functions _).mem_iff

theorem pairwise_le_inOrder (functions : List EncodedFunction) :
    (inOrder functions).Pairwise fun e e' => e.index ≤ e'.index := by
  have hle : (inOrder functions).Pairwise fun e e' => decide (e.index ≤ e'.index) = true := by
    refine List.pairwise_mergeSort (fun a b c hab hbc => ?_) (fun a b => ?_) functions
    · have hab := of_decide_eq_true hab
      have hbc := of_decide_eq_true hbc
      exact decide_eq_true (by omega)
    · rw [Bool.or_eq_true, decide_eq_true_eq, decide_eq_true_eq]
      omega
  exact hle.imp of_decide_eq_true

theorem pairwise_inOrder {functions : List EncodedFunction}
    (h : (functions.map EncodedFunction.index).Nodup) :
    (inOrder functions).Pairwise fun e e' => e.index < e'.index := by
  have hne : (inOrder functions).Pairwise fun e e' => e.index ≠ e'.index := by
    rw [← List.pairwise_map (f := EncodedFunction.index)]
    exact ((List.mergeSort_perm functions _).map _).nodup_iff.mpr h
  exact (pairwise_le_inOrder functions).imp₂ (fun e e' hle hne => by omega) hne

theorem repeated?_of_pairwise {functions : List EncodedFunction}
    (h : functions.Pairwise fun e e' => e.index < e'.index) : repeated? functions = none := by
  induction functions with
  | nil => rfl
  | cons e rest ih =>
    obtain ⟨hfirst, hrest⟩ := List.pairwise_cons.mp h
    cases rest with
    | nil => rfl
    | cons e' rest =>
      have hlt := hfirst e' List.mem_cons_self
      rw [repeated?, if_neg (by omega)]
      exact ih hrest

theorem pairwise_of_repeated? {functions : List EncodedFunction}
    (hle : functions.Pairwise fun e e' => e.index ≤ e'.index) (h : repeated? functions = none) :
    functions.Pairwise fun e e' => e.index < e'.index := by
  induction functions with
  | nil => exact .nil
  | cons e rest ih =>
    obtain ⟨hfirst, hrest⟩ := List.pairwise_cons.mp hle
    cases rest with
    | nil => exact List.pairwise_singleton _ _
    | cons e' rest =>
      rw [repeated?] at h
      split_ifs at h with hne
      have hsecond := hfirst e' List.mem_cons_self
      have hothers := (List.pairwise_cons.mp hrest).1
      refine List.pairwise_cons.mpr ⟨fun e'' he'' => ?_, ih hrest h⟩
      rcases List.mem_cons.mp he'' with rfl | hlater
      · omega
      · have hlast := hothers e'' hlater
        omega

theorem nodup_of_repeated? {functions : List EncodedFunction}
    (h : repeated? (inOrder functions) = none) :
    (functions.map EncodedFunction.index).Nodup := by
  have hlt := pairwise_of_repeated? (pairwise_le_inOrder functions) h
  have hnodup : ((inOrder functions).map EncodedFunction.index).Nodup :=
    List.pairwise_map.mpr (hlt.imp fun hless => by omega)
  exact ((List.mergeSort_perm functions _).map _).nodup_iff.mp hnodup

theorem finish_of_forall₂ {m : BinaryModule} {registry : FunctionRegistry}
    {encoded : List EncodedFunction} (hcurrent : m.current = none)
    (hencoded : Encodes (.ofRegistry registry) m.buffered encoded) :
    (∃ f, repeated? (inOrder (m.functions ++ encoded)) = some f ∧
      m.finish registry = (.error (.ofFault (.writtenTwice f.name)), { m with
        buffered := [], functions := inOrder (m.functions ++ encoded) })) ∨
    repeated? (inOrder (m.functions ++ encoded)) = none ∧
      m.finish registry = (.ok (), { m with
        buffered := [], functions := inOrder (m.functions ++ encoded)
        importCount := registry.importCount }) := by
  simp only [finish, finishFunctions, hcurrent, resolveAll_buffer.mpr hencoded]
  rcases repeated? (inOrder (m.functions ++ encoded)) with - | f
  · exact .inr ⟨rfl, rfl⟩
  · exact .inl ⟨f, rfl, rfl⟩

theorem finish_of_encodes {m : BinaryModule} {registry : FunctionRegistry}
    {encoded : List EncodedFunction} (hcurrent : m.current = none)
    (hencoded : Encodes (.ofRegistry registry) m.buffered encoded)
    (hnodup : ((m.functions ++ encoded).map EncodedFunction.index).Nodup) :
    m.finish registry = (.ok (), { m with
      buffered := [], functions := inOrder (m.functions ++ encoded)
      importCount := registry.importCount }) := by
  rcases finish_of_forall₂ hcurrent hencoded with ⟨f, hrepeated, -⟩ | ⟨-, hfinish⟩
  · rw [repeated?_of_pairwise (pairwise_inOrder hnodup)] at hrepeated
    cases hrepeated
  · exact hfinish

end BinaryModule

end WasmBackend
