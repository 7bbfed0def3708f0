import Mathlib.Data.List.Forall2
import WasmBackend.Proofs.ArrayRuns

/-! # The two array profiles compute the same values

A program on one array runs in both profiles, from allocation to its last access. The invariant is
that the first local holds an array in either run and that the two arrays have the same elements
(`Related`). Every access keeps it and adds the same value to both stacks, or none
(`Related.access`), so the results of the whole program are the same (`results_agree`). A negative
length is an unsigned one for a native array and an error for the host
(`results_differ_negativeLength`). -/

namespace WasmBackend.Machine

open ArrayProgram ArrayProfile
open Host (BufferKind)

theorem run_operands {types : TypeRegistry} {functions : FunctionRegistry} {s : State} {v : Value}
    (h : s.locals.lookup 0 = some v) (operands : List Literal) (code : List Emission) :
    run types functions s (.target (.indexed .localGet 0) ::
        (operands.map fun w => .target w.code) ++ code) =
      run types functions
        { s with stack := (operands.map Value.ofLiteral).reverse ++ v :: s.stack } code := by
  have hconstants (s : State) : run types functions s
        ((operands.map fun w => .target w.code) ++ code) =
      run types functions
        { s with stack := (operands.map Value.ofLiteral).reverse ++ s.stack } code := by
    induction operands generalizing s with
    | nil => rfl
    | cons w operands ih =>
      rw [List.map_cons, List.cons_append, run_literal, ih]
      simp
  rw [List.cons_append, run_localGet h, hconstants]

/-! ### Native arrays -/

/-- The first local holds a native array with the given elements. -/
def HoldsNative (a : ArrayClass) (native : NativeArray) (s : State) (elements : List Nat) : Prop :=
  ∃ address buffer, s.locals.lookup 0 = some (.ref address) ∧
    NativeAt a native s.objects address buffer elements

/-- What a program on a native array is compiled and run with. -/
structure NativeProfile (options : Options) (types : TypeRegistry) (functions : FunctionRegistry)
    (array : Nat) (a : ArrayClass) (native : NativeArray) (ty : ValueType) : Prop where
  class_eq : IsNative options types array a native
  types_eq : NativeTypes types a native ty
  linked : Linked options types a functions

section Native

variable {options : Options} {types : TypeRegistry} {functions : FunctionRegistry} {array : Nat}
  {a : ArrayClass} {native : NativeArray} {ty : ValueType} {position : CodePosition} {s : State}
  {elements : List Nat} {code : List Emission}

theorem NativeProfile.code_access (h : NativeProfile options types functions array a native ty)
    (access : Access) (hop : Typing.allocates access.op = false)
    (hcode : bodyCode options types functions (access.body position ty array) =
      some (code, functions)) :
    ∃ ops, access.op.inlineCode a = .ok ops ∧
      code = .target (.indexed .localGet 0) ::
        (access.operands.map fun v => .target v.code) ++ ops.map .op := by
  obtain ⟨more, hmore, rfl⟩ := bodyCode_access hcode
  obtain ⟨ops, hops⟩ := h.class_eq.exists_inlineCode hop
  rw [Typing.arrayCode_inline h.class_eq.class_eq (h.class_eq.helper?_access hop) hops] at hmore
  cases hmore
  exact ⟨ops, hops, rfl⟩

theorem NativeProfile.run_set (h : NativeProfile options types functions array a native ty)
    (hs : HoldsNative a native s elements) {i : Int32} {v : Literal}
    (hcode : bodyCode options types functions ((Access.set i v).body position ty array) =
      some (code, functions))
    {p : Nat} (hi : unsigned i < elements.length) (hp : pack ty (.ofLiteral v) = some p) :
    ∃ s', run types functions s code = some s' ∧ s'.stack = s.stack ∧
      HoldsNative a native s' (elements.set (unsigned i) p) := by
  obtain ⟨address, buffer, hlocal, harray⟩ := hs
  obtain ⟨ops, hops, rfl⟩ := h.code_access _ rfl hcode
  rw [run_operands hlocal]
  refine ⟨_, harray.run_write h.class_eq h.types_eq hops hi hp, rfl, ?_⟩
  exact ⟨address, buffer, hlocal, harray.set_array _⟩

theorem NativeProfile.run_read (h : NativeProfile options types functions array a native ty)
    (hs : HoldsNative a native s elements) {op : ArrayOp} (hop : isRead op = true) {i : Int32}
    (hcode : bodyCode options types functions ((Access.read op i).body position ty array) =
      some (code, functions))
    {p : Nat} {v : Value} (hp : elements[unsigned i]? = some p)
    (hv : unpack (op.readOpcode (.value ty)) ty p = some v) :
    ∃ s', run types functions s code = some s' ∧ s'.stack = v :: s.stack ∧
      HoldsNative a native s' elements := by
  obtain ⟨address, buffer, hlocal, harray⟩ := hs
  obtain ⟨hnew, hrtt⟩ := ne_new_of_isRead hop
  obtain ⟨ops, hops, rfl⟩ := h.code_access (.read op i) (allocates_eq_false hnew hrtt) hcode
  rw [run_operands hlocal]
  refine ⟨_, harray.run_read h.class_eq h.types_eq hop hops hp hv, rfl, ?_⟩
  exact ⟨address, buffer, hlocal, harray⟩

theorem NativeProfile.run_len (h : NativeProfile options types functions array a native ty)
    (hs : HoldsNative a native s elements)
    (hcode : bodyCode options types functions (Access.len.body position ty array) =
      some (code, functions)) :
    ∃ s', run types functions s code = some s' ∧
      s'.stack = .i32 (Int32.ofInt elements.length) :: s.stack ∧
      HoldsNative a native s' elements := by
  obtain ⟨address, buffer, hlocal, harray⟩ := hs
  obtain ⟨ops, hops, rfl⟩ := h.code_access _ rfl hcode
  rw [run_operands hlocal]
  exact ⟨_, harray.run_len h.class_eq hops, rfl, address, buffer, hlocal, harray⟩

theorem NativeProfile.run_new (h : NativeProfile options types functions array a native ty)
    (hcode : Instruction.arrayCode .new (.value ty) array options types functions =
      (.ok code, functions)) (n : Int32) :
    ∃ s, run types functions {} (.target (.i32Const n) :: code ++ [.target (.indexed .localSet 0)]) =
        some s ∧ s.stack = [] ∧ HoldsNative a native s (List.replicate (unsigned n) 0) := by
  obtain ⟨name, hhelper, hparams, hresult⟩ := h.class_eq.helper?_new
  obtain ⟨id, e, he, rfl, hbody, rfl⟩ := arrayCode_of_linked h.class_eq.class_eq h.linked
    h.class_eq.namesHelpers (by decide) hhelper hcode
  have hnew : ∃ objects, call types functions ⟨[.i32 n], [], [], [], []⟩ id =
        some ⟨[.ref 1], [], [], objects, []⟩ ∧
      NativeAt a native objects 1 0 (List.replicate (unsigned n) 0) :=
    run_allocation_native h.types_eq he hparams hresult hbody n
  obtain ⟨objects, hcall, harray⟩ := hnew
  refine ⟨⟨[], [(0, .ref 1)], [], objects, []⟩, ?_, rfl, 1, 0, rfl, harray⟩
  simp [run, step, stepCode, stepTarget, hcall, stepIndexed, ArrayOp.hostExtension]

end Native

/-! ### Host arrays -/

/-- The first local holds a host array with the given elements. -/
def HoldsHost (kind : BufferKind) (s : State) (elements : List Nat) : Prop :=
  ∃ address buffer, s.locals.lookup 0 = some (.host (.object address)) ∧
    Host.IsArray s.host address buffer kind elements

/-- What a program on a host array is compiled and run with. -/
structure HostProfile (options : Options) (types : TypeRegistry) (functions : FunctionRegistry)
    (array : Nat) (a : ArrayClass) (kind : BufferKind) (ty : ValueType) : Prop where
  class_eq : IsHost options types array a ty
  kind_eq : BufferKind.ofType? ty = some kind
  linked : Linked options types a functions

section HostArrays

variable {options : Options} {types : TypeRegistry} {functions : FunctionRegistry} {array : Nat}
  {a : ArrayClass} {kind : BufferKind} {ty : ValueType} {position : CodePosition} {s : State}
  {elements : List Nat} {code : List Emission}

theorem HostProfile.code_operation (h : HostProfile options types functions array a kind ty)
    {op : ArrayOp} (hop : op ≠ .newWithDescriptor)
    (hcode : Instruction.arrayCode op (.value ty) array options types functions =
      (.ok code, functions)) :
    ∃ name id, IsHostHelper functions ty array a.vtable op id ∧
      code = .call name id none :: (op.hostExtension (.value ty)).map .target := by
  obtain ⟨signature, hhelper⟩ := h.class_eq.helper?_eq op
  obtain ⟨id, e, he, hname, hbody, rfl⟩ := arrayCode_of_linked h.class_eq.class_eq h.linked
    h.class_eq.namesHelpers hop hhelper hcode
  exact ⟨_, id, ⟨e, _, he, by rw [hname], by rw [hname], hbody⟩, rfl⟩

theorem HostProfile.code_access (h : HostProfile options types functions array a kind ty)
    (access : Access) (hop : access.op ≠ .newWithDescriptor)
    (hcode : bodyCode options types functions (access.body position ty array) =
      some (code, functions)) :
    ∃ name id, IsHostHelper functions ty array a.vtable access.op id ∧
      code = .target (.indexed .localGet 0) ::
        (access.operands.map fun v => .target v.code) ++
          .call name id none :: (access.op.hostExtension (.value ty)).map .target := by
  obtain ⟨more, hmore, rfl⟩ := bodyCode_access hcode
  obtain ⟨name, id, hhelper, rfl⟩ := h.code_operation hop hmore
  exact ⟨name, id, hhelper, rfl⟩

theorem HostProfile.run_set (h : HostProfile options types functions array a kind ty)
    (hs : HoldsHost kind s elements) {i : Int32} (hi : 0 ≤ i.toInt) {v : Literal}
    (hcode : bodyCode options types functions ((Access.set i v).body position ty array) =
      some (code, functions))
    {w : Host.Value} {q : Nat} (hw : (Value.ofLiteral v).toHost? = some w)
    (hq : kind.store w = some q) :
    ∃ s', run types functions s code = some s' ∧ s'.stack = s.stack ∧
      HoldsHost kind s' (elements.set (unsigned i) q) := by
  obtain ⟨address, buffer, hlocal, harray⟩ := hs
  obtain ⟨name, id, hhelper, rfl⟩ := h.code_access _ (by simp [Access.op]) hcode
  refine ⟨_, (run_operands hlocal _ _).trans
    (run_call (hhelper.call_write harray hi hw hq) _), rfl, ?_⟩
  exact ⟨address, buffer, hlocal, harray.set_buffer _⟩

theorem HostProfile.run_read (h : HostProfile options types functions array a kind ty)
    (hs : HoldsHost kind s elements) {op : ArrayOp} (hop : isRead op = true) {i : Int32}
    (hi : 0 ≤ i.toInt)
    (hcode : bodyCode options types functions ((Access.read op i).body position ty array) =
      some (code, functions))
    {q : Nat} {y z : Value} (hq : elements[unsigned i]? = some q)
    (hy : Value.ofHost? (OperandType.hostType (.value ty)) (kind.load q) = some y)
    (hz : Replaces ((op.hostExtension (.value ty)).map .target) y z) :
    ∃ s', run types functions s code = some s' ∧ s'.stack = z :: s.stack ∧
      HoldsHost kind s' elements := by
  obtain ⟨address, buffer, hlocal, harray⟩ := hs
  obtain ⟨name, id, hhelper, rfl⟩ := h.code_access (.read op i) (ne_new_of_isRead hop).2 hcode
  refine ⟨_, (run_operands hlocal _ _).trans
    ((run_call (hhelper.call_read hop harray hi hq hy) _).trans (hz _ _ s s.stack)), rfl, ?_⟩
  exact ⟨address, buffer, hlocal, harray⟩

theorem HostProfile.run_len (h : HostProfile options types functions array a kind ty)
    (hs : HoldsHost kind s elements) (hlength : elements.length < 2 ^ 53)
    (hcode : bodyCode options types functions (Access.len.body position ty array) =
      some (code, functions)) :
    ∃ s', run types functions s code = some s' ∧
      s'.stack = .i32 (Int32.ofInt elements.length) :: s.stack ∧ HoldsHost kind s' elements := by
  obtain ⟨address, buffer, hlocal, harray⟩ := hs
  obtain ⟨name, id, hhelper, rfl⟩ := h.code_access _ (by simp [Access.op]) hcode
  refine ⟨_, (run_operands hlocal _ _).trans (run_call (hhelper.call_len harray hlength) _), rfl, ?_⟩
  exact ⟨address, buffer, hlocal, harray⟩

theorem HostProfile.run_new (h : HostProfile options types functions array a kind ty)
    (hcode : Instruction.arrayCode .new (.value ty) array options types functions =
      (.ok code, functions)) {n : Int32} (hn : 0 ≤ n.toInt) :
    ∃ s, run types functions {} (.target (.i32Const n) :: code ++ [.target (.indexed .localSet 0)]) =
        some s ∧ s.stack = [] ∧ HoldsHost kind s (List.replicate (unsigned n) 0) := by
  obtain ⟨name, id, hhelper, rfl⟩ := h.code_operation (by decide) hcode
  have hnew : ∃ host, call types functions ⟨[.i32 n], [], [], [], []⟩ id =
        some ⟨[.host (.object 0)], [], [], [], host⟩ ∧
      Host.IsArray host 0 1 kind (List.replicate (unsigned n) 0) :=
    hhelper.call_new h.kind_eq hn
  obtain ⟨host, hcall, harray⟩ := hnew
  refine ⟨⟨[], [(0, .host (.object 0))], [], [], host⟩, ?_, rfl, 0, 1, rfl, harray⟩
  simp [run, step, stepCode, stepTarget, hcall, stepIndexed, ArrayOp.hostExtension]

end HostArrays

/-! ### Both profiles -/

/-- The access lies within an array of the given length, and stores a value of the element type. -/
def IsValid (ty : ValueType) (length : Int32) : Access → Prop
  | .set i v => 0 ≤ i.toInt ∧ i.toInt < length.toInt ∧ v.type = ty.widened
  | .read op i => isRead op = true ∧ 0 ≤ i.toInt ∧ i.toInt < length.toInt
  | .len => True

/-- The access has a result. -/
def hasResult : Access → Bool
  | .set _ _ => false
  | .read _ _ | .len => true

/-- The two runs hold arrays with the same elements and have the same values on their stacks. -/
structure Related (a : ArrayClass) (native : NativeArray) (kind : BufferKind) (ty : ValueType)
    (length : Nat) (s t : State) : Prop where
  elements : ∃ es fs, HoldsNative a native s es ∧ HoldsHost kind t fs ∧
    List.Forall₂ (SameElement ty) es fs ∧ es.length = length
  stack : List.Forall₂ SameValue s.stack t.stack

theorem unsigned_lt_unsigned {i n : Int32} (hi : 0 ≤ i.toInt) (h : i.toInt < n.toInt) :
    unsigned i < unsigned n := by
  have hcast := cast_unsigned hi
  have hcast' := cast_unsigned (v := n) (by omega)
  omega

theorem forall₂_set {R : Nat → Nat → Prop} {ps qs : List Nat} (h : List.Forall₂ R ps qs) {p q : Nat}
    (hpq : R p q) (i : Nat) : List.Forall₂ R (ps.set i p) (qs.set i q) := by
  induction h generalizing i with
  | nil => exact .nil
  | cons hhead htail ih =>
    cases i with
    | zero => exact .cons hpq htail
    | succ i => exact .cons hhead (ih i)

section Both

variable {nativeOptions hostOptions : Options} {nativeTypes hostTypes : TypeRegistry}
  {nativeFunctions hostFunctions : FunctionRegistry} {array array' : Nat} {a a' : ArrayClass}
  {native : NativeArray} {kind : BufferKind} {ty : ValueType} {position position' : CodePosition}
  {length : Int32} {s t : State} {code code' : List Emission}

/-- **Every access keeps the two runs related.** -/
theorem Related.access
    (hnative : NativeProfile nativeOptions nativeTypes nativeFunctions array a native ty)
    (hhost : HostProfile hostOptions hostTypes hostFunctions array' a' kind ty)
    (h : Related a native kind ty (unsigned length) s t) {access : Access}
    (hvalid : IsValid ty length access)
    (hcode : bodyCode nativeOptions nativeTypes nativeFunctions (access.body position ty array) =
      some (code, nativeFunctions))
    (hcode' : bodyCode hostOptions hostTypes hostFunctions (access.body position' ty array') =
      some (code', hostFunctions)) :
    ∃ s' t', run nativeTypes nativeFunctions s code = some s' ∧
      run hostTypes hostFunctions t code' = some t' ∧
      Related a native kind ty (unsigned length) s' t' ∧
      s'.stack.length = (hasResult access).toNat + s.stack.length := by
  obtain ⟨⟨es, fs, hs, ht, hsame, hlength⟩, hstack⟩ := h
  cases access with
  | set i v =>
    obtain ⟨hi, hlt, hv⟩ := hvalid
    have hindex := unsigned_lt_unsigned hi hlt
    obtain ⟨p, w, q, hp, hw, hq, hpq⟩ := exists_store hhost.kind_eq hv
    obtain ⟨s', hrun, hstack_s, hs'⟩ := hnative.run_set hs hcode (hlength ▸ hindex) hp
    obtain ⟨t', hrun', hstack_t, ht'⟩ := hhost.run_set ht hi hcode' hw hq
    refine ⟨s', t', hrun, hrun', ⟨⟨_, _, hs', ht', ?_, ?_⟩, ?_⟩, ?_⟩
    · exact forall₂_set hsame hpq _
    · rw [List.length_set, hlength]
    · rw [hstack_s, hstack_t]
      exact hstack
    · simp [hstack_s, hasResult]
  | read op i =>
    obtain ⟨hop, hi, hlt⟩ := hvalid
    have hes : unsigned i < es.length := by
      rw [hlength]
      exact unsigned_lt_unsigned hi hlt
    have hfs : unsigned i < fs.length := hsame.length_eq ▸ hes
    obtain ⟨x, y, z, hx, hy, hz, hxz⟩ := exists_read hhost.kind_eq hop (hsame.get hes hfs)
    obtain ⟨s', hrun, hstack_s, hs'⟩ :=
      hnative.run_read hs hop hcode (List.getElem?_eq_getElem hes) hx
    obtain ⟨t', hrun', hstack_t, ht'⟩ :=
      hhost.run_read ht hop hi hcode' (List.getElem?_eq_getElem hfs) hy hz
    refine ⟨s', t', hrun, hrun', ⟨⟨es, fs, hs', ht', hsame, hlength⟩, ?_⟩, ?_⟩
    · rw [hstack_s, hstack_t]
      exact .cons hxz hstack
    · simp [hstack_s, hasResult, Nat.add_comm]
  | len =>
    have hfs : fs.length < 2 ^ 53 := by
      rw [← hsame.length_eq, hlength]
      exact unsigned_lt _
    obtain ⟨s', hrun, hstack_s, hs'⟩ := hnative.run_len hs hcode
    obtain ⟨t', hrun', hstack_t, ht'⟩ := hhost.run_len ht hfs hcode'
    refine ⟨s', t', hrun, hrun', ⟨⟨_, _, hs', ht', hsame, hlength⟩, ?_⟩, ?_⟩
    · rw [hstack_s, hstack_t, hsame.length_eq]
      exact .cons (.refl _) hstack
    · simp [hstack_s, hasResult, Nat.add_comm]

/-- **Any number of accesses keeps the two runs related.** -/
theorem Related.accesses
    (hnative : NativeProfile nativeOptions nativeTypes nativeFunctions array a native ty)
    (hhost : HostProfile hostOptions hostTypes hostFunctions array' a' kind ty)
    (h : Related a native kind ty (unsigned length) s t) {accesses : List Access}
    (hvalid : ∀ access ∈ accesses, IsValid ty length access)
    (hcode : bodyCode nativeOptions nativeTypes nativeFunctions
      (accesses.flatMap (Access.body position ty array)) = some (code, nativeFunctions))
    (hcode' : bodyCode hostOptions hostTypes hostFunctions
      (accesses.flatMap (Access.body position' ty array')) = some (code', hostFunctions)) :
    ∃ s' t', run nativeTypes nativeFunctions s code = some s' ∧
      run hostTypes hostFunctions t code' = some t' ∧
      Related a native kind ty (unsigned length) s' t' ∧
      s'.stack.length = accesses.countP hasResult + s.stack.length := by
  induction accesses generalizing s t code code' with
  | nil =>
    cases hcode
    cases hcode'
    exact ⟨s, t, rfl, rfl, h, by simp⟩
  | cons access accesses ih =>
    rw [List.flatMap_cons] at hcode hcode'
    obtain ⟨first, more, hfirst, hmore, rfl⟩ := bodyCode_append hcode
    obtain ⟨first', more', hfirst', hmore', rfl⟩ := bodyCode_append hcode'
    obtain ⟨s₁, t₁, hrun, hrun', hrelated, hcount⟩ :=
      h.access hnative hhost (hvalid access List.mem_cons_self) hfirst hfirst'
    obtain ⟨s₂, t₂, hrest, hrest', hrelated', hcount'⟩ :=
      ih hrelated (fun b hb => hvalid b (List.mem_cons_of_mem _ hb)) hmore hmore'
    refine ⟨s₂, t₂, ?_, ?_, hrelated', ?_⟩
    · rw [run_append, hrun, Option.bind_some, hrest]
    · rw [run_append, hrun', Option.bind_some, hrest']
    · rw [hcount', hcount, List.countP_cons]
      cases hasResult access <;> simp
      omega

end Both

/-! ### Whole programs -/

theorem exists_native {options : Options} {types : TypeRegistry}
    (htypes : (TypeRegistry.new options.useGc).Grows types) (hgc : options.useGc = true)
    {ty : ValueType} {array : Nat} (harray : types.arrayOf? (.value ty) = some array) :
    ∃ a native, IsNative options types array a native ∧ NativeTypes types a native ty := by
  have hformed := TypeRegistry.wellFormed_of_grows htypes
  obtain ⟨a, hclass, hmem, helement, hid⟩ := TypeRegistry.arrayClass_of_arrayOf? hformed harray
  have hsome := hformed.native_isSome a hmem
  rw [Typing.useGc_of_grows htypes, hgc] at hsome
  obtain ⟨native, hnative⟩ := Option.isSome_iff_exists.mp hsome
  have hstorage : native.storage = .value ty := by
    have hstored := hformed.storage a hmem native hnative
    rw [helement] at hstored
    exact (Except.ok.inj hstored).symm
  refine ⟨a, native, ⟨hgc, hclass, hid, hformed.elementLocal a hmem, hnative⟩, hstorage,
    hformed.typeAt?_wrapper hmem hnative, ?_⟩
  rw [hformed.typeAt?_buffer hmem hnative, hstorage]

theorem exists_host {options : Options} {types : TypeRegistry}
    (htypes : (TypeRegistry.new options.useGc).Grows types) (hgc : options.useGc = false)
    {ty : ValueType} (hty : ty.isRef = false) {array : Nat}
    (harray : types.arrayOf? (.value ty) = some array) : ∃ a, IsHost options types array a ty := by
  have hformed := TypeRegistry.wellFormed_of_grows htypes
  obtain ⟨a, hclass, hmem, helement, hid⟩ := TypeRegistry.arrayClass_of_arrayOf? hformed harray
  have htypesGc := Typing.useGc_of_grows htypes
  exact ⟨a, hgc, htypesGc.trans hgc, hclass, hid, hformed.elementLocal a hmem, helement, hty⟩

/-- The values that a body leaves on the stack when it is compiled and run on its own, the first one
first. -/
def results (options : Options) (types : TypeRegistry) (body : List Instruction) :
    Option (List Value) :=
  (bodyCode options types {} body).bind fun (code, functions) =>
    (run types functions {} code).map fun s => s.stack.reverse

theorem results_eq {options : Options} {types : TypeRegistry} {functions : FunctionRegistry}
    {body : List Instruction} {code : List Emission} {s : State}
    (hcode : bodyCode options types {} body = some (code, functions))
    (hrun : run types functions {} code = some s) :
    results options types body = some s.stack.reverse := by
  simp [results, hcode, hrun]

theorem exists_kind {ty : ValueType} (hty : ty.isRef = false) :
    ∃ kind, BufferKind.ofType? ty = some kind := by
  cases ty with
  | funcRef | externRef | anyRef | eqRef => cases hty
  | _ => exact ⟨_, rfl⟩

theorem op_of_isValid {ty : ValueType} {length : Int32} {access : Access}
    (h : IsValid ty length access) : access.op ≠ .newWithDescriptor := by
  cases access with
  | set i v => simp [Access.op]
  | read op i => exact (ne_new_of_isRead h.1).2
  | len => simp [Access.op]

/-- A program has code: that of the allocation and that of the accesses, with all functions that they
call in one registry. -/
theorem exists_programCode {options : Options} {types : TypeRegistry} {array : Nat} {a : ArrayClass}
    (hclass : types.arrayClass array = .ok a)
    (hcode : ∀ op, op ≠ .newWithDescriptor → ∀ element r, ∃ code r',
      Instruction.arrayCode op element array options types r = (.ok code, r'))
    {accesses : List Access} (hops : ∀ access ∈ accesses, access.op ≠ .newWithDescriptor)
    (position : CodePosition) (ty : ValueType) (length : Int32) :
    ∃ functions allocation more, Linked options types a functions ∧
      Instruction.arrayCode .new (.value ty) array options types functions =
        (.ok allocation, functions) ∧
      bodyCode options types functions (accesses.flatMap (Access.body position ty array)) =
        some (more, functions) ∧
      bodyCode options types {} (program position ty array length accesses) =
        some (.target (.i32Const length) :: allocation ++ [.target (.indexed .localSet 0)] ++ more,
          functions) := by
  have honArray := onArray_program position ty array length hops
  obtain ⟨code, functions, hbody⟩ := exists_bodyCode hcode honArray {}
  have hlinked := linked_empty.bodyCode hclass honArray hbody
  obtain ⟨allocation, more, hnew, hmore, rfl⟩ := bodyCode_program hbody
  exact ⟨functions, allocation, more, hlinked, hnew, hmore, hbody⟩

theorem related_new {nativeOptions hostOptions : Options} {nativeTypes hostTypes : TypeRegistry}
    {nativeFunctions hostFunctions : FunctionRegistry} {array array' : Nat} {a a' : ArrayClass}
    {native : NativeArray} {kind : BufferKind} {ty : ValueType} {code code' : List Emission}
    (hnative : NativeProfile nativeOptions nativeTypes nativeFunctions array a native ty)
    (hhost : HostProfile hostOptions hostTypes hostFunctions array' a' kind ty)
    (hcode : Instruction.arrayCode .new (.value ty) array nativeOptions nativeTypes nativeFunctions =
      (.ok code, nativeFunctions))
    (hcode' : Instruction.arrayCode .new (.value ty) array' hostOptions hostTypes hostFunctions =
      (.ok code', hostFunctions)) {length : Int32} (hlength : 0 ≤ length.toInt) :
    ∃ s t, run nativeTypes nativeFunctions {}
        (.target (.i32Const length) :: code ++ [.target (.indexed .localSet 0)]) = some s ∧
      run hostTypes hostFunctions {}
        (.target (.i32Const length) :: code' ++ [.target (.indexed .localSet 0)]) = some t ∧
      Related a native kind ty (unsigned length) s t ∧ s.stack = [] := by
  obtain ⟨s, hrun, hs, hholds⟩ := hnative.run_new hcode length
  obtain ⟨t, hrun', ht, hholds'⟩ := hhost.run_new hcode' hlength
  refine ⟨s, t, hrun, hrun', ⟨⟨_, _, hholds, hholds', ?_, List.length_replicate⟩, ?_⟩, hs⟩
  · refine List.forall₂_same.mpr fun p hp => ?_
    rw [(List.mem_replicate.mp hp).2]
    exact SameElement.zero ty
  · rw [hs, ht]
    exact .nil

/-- **Both array profiles compute the same values.** A program allocates an array of numbers, of a
length that is not negative, and accesses it within its bounds. With native arrays and with host
arrays it has code, the code runs to its end, and every read and every length has the same value,
where NaNs are compared as NaNs. -/
theorem results_agree {ty : ValueType} (hty : ty.isRef = false) {nativeOptions hostOptions : Options}
    (hnative : nativeOptions.useGc = true) (hhost : hostOptions.useGc = false)
    {nativeTypes hostTypes : TypeRegistry}
    (hnativeTypes : (TypeRegistry.new nativeOptions.useGc).Grows nativeTypes)
    (hhostTypes : (TypeRegistry.new hostOptions.useGc).Grows hostTypes) {array array' : Nat}
    (harray : nativeTypes.arrayOf? (.value ty) = some array)
    (harray' : hostTypes.arrayOf? (.value ty) = some array') {length : Int32}
    (hlength : 0 ≤ length.toInt) {accesses : List Access}
    (hvalid : ∀ access ∈ accesses, IsValid ty length access) (position position' : CodePosition) :
    ∃ xs ys,
      results nativeOptions nativeTypes (program position ty array length accesses) = some xs ∧
      results hostOptions hostTypes (program position' ty array' length accesses) = some ys ∧
      xs.length = accesses.countP hasResult ∧ List.Forall₂ SameValue xs ys := by
  have hops : ∀ access ∈ accesses, access.op ≠ .newWithDescriptor :=
    fun access haccess => op_of_isValid (hvalid access haccess)
  obtain ⟨kind, hkind⟩ := exists_kind hty
  obtain ⟨a, native, hclass, htypes⟩ := exists_native hnativeTypes hnative harray
  obtain ⟨a', hclass'⟩ := exists_host hhostTypes hhost hty harray'
  obtain ⟨functions, allocation, more, hlinked, hnew, hmore, hcode⟩ := exists_programCode
    hclass.class_eq (fun op hop => hclass.exists_arrayCode hop) hops position ty length
  obtain ⟨functions', allocation', more', hlinked', hnew', hmore', hcode'⟩ := exists_programCode
    hclass'.class_eq (fun op _ => hclass'.exists_arrayCode op) hops position' ty length
  have hprofile : NativeProfile nativeOptions nativeTypes functions array a native ty :=
    ⟨hclass, htypes, hlinked⟩
  have hprofile' : HostProfile hostOptions hostTypes functions' array' a' kind ty :=
    ⟨hclass', hkind, hlinked'⟩
  obtain ⟨s, t, hrun, hrun', hrelated, hempty⟩ := related_new hprofile hprofile' hnew hnew' hlength
  obtain ⟨s', t', hrest, hrest', hrelated', hcount⟩ :=
    hrelated.accesses hprofile hprofile' hvalid hmore hmore'
  refine ⟨s'.stack.reverse, t'.stack.reverse, ?_, ?_, ?_, ?_⟩
  · exact results_eq hcode (by rw [run_append, hrun, Option.bind_some, hrest])
  · exact results_eq hcode' (by rw [run_append, hrun', Option.bind_some, hrest'])
  · rw [List.length_reverse, hcount, hempty]
    rfl
  · exact List.forall₂_reverse_iff.mpr hrelated'.stack

/-- The registry of a module with one array class, of 16-bit characters. -/
def charArrays (useGc : Bool) : TypeRegistry :=
  (TypeRegistry.new useGc).addArray (.value .u16) "[C" (.value .i32) (.value .u16)

theorem charArrays_grows (useGc : Bool) : (TypeRegistry.new useGc).Grows (charArrays useGc) :=
  have hadded : (TypeRegistry.new useGc).internArray (.value .u16) = (.ok 0, charArrays useGc) := rfl
  .internArray .refl hadded

/-- A character is stored from a negative integer and read with either extension. -/
def storedChar : List Access :=
  [.set 1 (.i32 (-2)), .read .get 1, .read .getSigned 1, .read .getUnsigned 0, .len]

theorem results_agree_storedChar :
    (∀ access ∈ storedChar, IsValid .u16 3 access) ∧ ∃ xs ys,
      results { useGc := true } (charArrays true) (program .unknown .u16 0 3 storedChar) = some xs ∧
      results { useGc := false } (charArrays false) (program .unknown .u16 0 3 storedChar) =
        some ys ∧ xs.length = 4 ∧ List.Forall₂ SameValue xs ys := by
  have hvalid : ∀ access ∈ storedChar, IsValid .u16 3 access := by
    simp [storedChar, IsValid, isRead, ValueType.widened, ValueType.isSubWord, Literal.type]
  exact ⟨hvalid, results_agree rfl rfl rfl (charArrays_grows true) (charArrays_grows false) rfl rfl
    (by decide) hvalid .unknown .unknown⟩

example : ∀ useGc, results { useGc } (charArrays useGc) (program .unknown .u16 0 3 storedChar) =
    some [.i32 65534, .i32 (-2), .i32 0, .i32 3] := by decide +kernel

/-- With native arrays the length is taken as unsigned, so that every array can be allocated. -/
theorem results_len_native {ty : ValueType} {options : Options} (hgc : options.useGc = true)
    {types : TypeRegistry} (htypes : (TypeRegistry.new options.useGc).Grows types) {array : Nat}
    (harray : types.arrayOf? (.value ty) = some array) (position : CodePosition) (length : Int32) :
    results options types (program position ty array length [.len]) =
      some [.i32 (Int32.ofInt (unsigned length))] := by
  have hops : ∀ access ∈ [Access.len], access.op ≠ .newWithDescriptor := by simp [Access.op]
  obtain ⟨a, native, hclass, hnative⟩ := exists_native htypes hgc harray
  obtain ⟨functions, allocation, more, hlinked, hnew, hmore, hcode⟩ := exists_programCode
    hclass.class_eq (fun op hop => hclass.exists_arrayCode hop) hops position ty length
  have hprofile : NativeProfile options types functions array a native ty :=
    ⟨hclass, hnative, hlinked⟩
  obtain ⟨s, hrun, hs, hholds⟩ := hprofile.run_new hnew length
  rw [List.flatMap_singleton] at hmore
  obtain ⟨s', hrest, hs', -⟩ := hprofile.run_len hholds hmore
  rw [results_eq hcode (by rw [run_append, hrun, Option.bind_some, hrest]), hs', hs,
    List.length_replicate]
  rfl

/-- With a negative length the profiles differ: the host has no such array. -/
theorem results_differ_negativeLength :
    (∀ access ∈ [Access.len], IsValid .u16 (-1) access) ∧
      results { useGc := true } (charArrays true) (program .unknown .u16 0 (-1) [.len]) =
        some [.i32 (-1)] ∧
      results { useGc := false } (charArrays false) (program .unknown .u16 0 (-1) [.len]) = none := by
  refine ⟨by simp [IsValid], ?_, by decide +kernel⟩
  exact results_len_native rfl (charArrays_grows true) rfl _ _

end WasmBackend.Machine
