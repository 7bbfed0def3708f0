import WasmBackend.Proofs.ArrayProgram
import WasmBackend.Proofs.ClassNames

/-! # Which helper a request gets

The registry of functions knows a helper by a text made of its name and signature, and keeps the first
body it is given for that text. All helpers of accesses with the same text are the same
(`access_eq_of_signatureName`). The text of an allocation has the name of the elements and the name
of the class, and these determine the class unless it holds arrays
(`allocator_of_signatureName`): arrays of built-in references of two kinds have the same name, so the
classes of arrays of them *share their allocator*, and the class that is asked for first provides it
for both (`entry_of_select`). -/

namespace WasmBackend.ArrayProfile

open Typing (allocates)
open ArrayProgram (hostMethod hostParams hostResult hostText hostLetter hostMethod_letter
  hostType_hostType helperName_eq_ok)

variable {options : Options} {types : TypeRegistry} {a a' : ArrayClass} {op op' : ArrayOp}
  {name name' : FunctionName} {body body' : FunctionBody}

/-! ### Texts -/

theorem split_inj {c : Char} {front front' rest rest' : List Char} (hfront : c ∉ front)
    (hfront' : c ∉ front') (h : front ++ c :: rest = front' ++ c :: rest') :
    front = front' ∧ rest = rest' := by
  induction front generalizing front' with
  | nil =>
    cases front' with
    | nil => exact ⟨rfl, (List.cons.inj h).2⟩
    | cons d front' => exact absurd ((List.cons.inj h).1 ▸ List.mem_cons_self) hfront'
  | cons d front ih =>
    cases front' with
    | nil => exact absurd ((List.cons.inj h).1 ▸ List.mem_cons_self) hfront
    | cons d' front' =>
      obtain ⟨rfl, htail⟩ := List.cons.inj h
      obtain ⟨rfl, hrest⟩ := ih (List.not_mem_of_not_mem_cons hfront)
        (List.not_mem_of_not_mem_cons hfront') htail
      exact ⟨rfl, hrest⟩

/-- Method of an allocation, with its parameters. -/
def allocatorName (op : ArrayOp) (element : String) : String :=
  match op with
  | .newWithDescriptor => "array_new_rtt_" ++ element ++ "(II)"
  | _ => "array_new_" ++ element ++ "(I)"

theorem allocatorName_letter (op : ArrayOp) (element : String) :
    ∃ rest, (allocatorName op element).toList = "array_".toList ++ 'n' :: rest := by
  cases op <;> simp [allocatorName]

theorem bracket_notMem_allocatorName {element : String} (h : '[' ∉ element.toList) (op : ArrayOp) :
    '[' ∉ (allocatorName op element).toList := by
  cases op <;> simpa [allocatorName] using h

theorem eq_of_allocates (h : allocates op = true) : op = .new ∨ op = .newWithDescriptor := by
  cases op <;> simp [allocates] at h ⊢

/-- The two allocations end in different parameters. -/
theorem allocatorName_inj (hop : allocates op = true) (hop' : allocates op' = true)
    {element element' : String} (h : allocatorName op element = allocatorName op' element') :
    op = op' ∧ element = element' := by
  have hne : ∀ s s' : String, s ++ "(I)" ≠ s' ++ "(II)" := by
    intro s s' heq
    have hlist : s.toList ++ ['(', 'I', ')'] = (s'.toList ++ ['(']) ++ ['I', 'I', ')'] := by
      simpa using congrArg String.toList heq
    cases List.append_inj_right' hlist rfl
  rcases eq_of_allocates hop with rfl | rfl <;> rcases eq_of_allocates hop' with rfl | rfl <;>
    simp only [allocatorName] at h
  · exact ⟨rfl, by simpa using h⟩
  · exact absurd h (hne _ _)
  · exact absurd h.symm (hne _ _)
  · exact ⟨rfl, by simpa using h⟩

theorem parenthesis_notMem_hostMethod (hop : allocates op = false) (ty : ValueType) :
    '(' ∉ (hostMethod ty op).toList := by
  have hname : ∀ ty : ValueType, '(' ∉ ty.name.toList := by
    intro ty
    cases ty <;> simp [ValueType.name]
  cases op with
  | new | newWithDescriptor => cases hop
  | len => simp [hostMethod]
  | _ => simpa [hostMethod] using hname _

/-- The method of an access determines everything else about its helper. -/
theorem hostMethod_inj (hop : allocates op = false) (hop' : allocates op' = false)
    {ty ty' : ValueType} (h : hostMethod ty op = hostMethod ty' op') (array vtable : Nat) :
    hostParams ty op = hostParams ty' op' ∧ hostResult ty array op = hostResult ty' array op' ∧
      hostText ty vtable op = hostText ty' vtable op' := by
  have hletter : hostLetter op = hostLetter op' := by
    obtain ⟨rest, hrest⟩ := hostMethod_letter ty op
    obtain ⟨rest', hrest'⟩ := hostMethod_letter ty' op'
    rw [h, hrest', List.append_right_inj] at hrest
    exact (List.cons.inj hrest).1.symm
  -- the letter leaves a read and a read, a write and a write, or a length and a length
  cases op <;> cases op' <;> simp only [allocates, hostLetter, reduceCtorEq, Char.reduceEq] at *
  case len.len => exact ⟨rfl, rfl, rfl⟩
  all_goals
    simp only [hostMethod, String.append_right_inj] at h
    simp only [hostParams, hostResult, hostText, ValueType.name_injective h, and_self]

/-! ### Helpers -/

/-- Class of the helpers. -/
def helperOwner (options : Options) : String :=
  if options.useGc then helperClass else options.hostModule

theorem helperName_signatureName {className method d : String} {params : List OperandType}
    {result : OperandType} {ds : List String} (hparams : params.mapM types.descriptor = .ok ds)
    (hresult : types.descriptor result = .ok d)
    (h : helperName types className method params (some result) = .ok name) :
    name.result = some result ∧
      name.signatureName = className ++ "." ++ (method ++ ("(" ++ String.join ds ++ ")") ++ d) := by
  have hsignature : types.methodDescriptor params (some result) =
      .ok ("(" ++ String.join ds ++ ")" ++ d) :=
    bind_eq_ok.mpr ⟨ds, hparams, bind_eq_ok.mpr ⟨d, hresult, rfl⟩⟩
  unfold helperName at h
  rw [hsignature] at h
  cases h
  exact ⟨rfl, by simp only [FunctionName.signatureName, String.append_assoc]⟩

/-- In both profiles an allocation is named after the elements. -/
theorem allocator_cases (hop : allocates op = true)
    (h : helper? op a types options = .ok (some (name, body))) :
    ∃ element, elementName a types = .ok element ∧
      ((op = .new ∧ helperName types (helperOwner options) ("array_new_" ++ element) [.i32]
          a.operandType = .ok name) ∨
        (op = .newWithDescriptor ∧ helperName types (helperOwner options)
          ("array_new_rtt_" ++ element) [.i32, .i32] a.operandType = .ok name)) := by
  unfold helper? at h
  unfold helperOwner
  split_ifs at h ⊢ with hgc
  · obtain ⟨native, -, h⟩ := bind_eq_ok.mp h
    obtain ⟨element, helement, h⟩ := bind_eq_ok.mp h
    refine ⟨element, helement, ?_⟩
    rcases eq_of_allocates hop with rfl | rfl <;> obtain ⟨_, hname, h⟩ := bind_eq_ok.mp h <;> cases h
    · exact .inl ⟨rfl, hname⟩
    · exact .inr ⟨rfl, hname⟩
  · obtain ⟨helper, h, hpair⟩ := map_eq_ok.mp h
    cases hpair
    rcases eq_of_allocates hop with rfl | rfl <;>
      obtain ⟨element, helement, h⟩ := bind_eq_ok.mp h <;>
      obtain ⟨_, hname, h⟩ := bind_eq_ok.mp h <;> cases h
    · exact ⟨element, helement, .inl ⟨rfl, hname⟩⟩
    · exact ⟨element, helement, .inr ⟨rfl, hname⟩⟩

theorem allocator_signatureName (ha : types.arrayClass a.id = .ok a) (hop : allocates op = true)
    (h : helper? op a types options = .ok (some (name, body))) :
    name.result = some a.operandType ∧ ∃ element, elementName a types = .ok element ∧
      name.signatureName = helperOwner options ++ "." ++ (allocatorName op element ++ a.name) := by
  have hresult : types.descriptor a.operandType = .ok a.name := map_eq_ok.mpr ⟨a, ha, rfl⟩
  have hnew : [OperandType.i32].mapM types.descriptor = .ok ["I"] := rfl
  have hrtt : [OperandType.i32, .i32].mapM types.descriptor = .ok ["I", "I"] := rfl
  obtain ⟨element, helement, ⟨rfl, hname⟩ | ⟨rfl, hname⟩⟩ := allocator_cases hop h
  · obtain ⟨hres, hkey⟩ := helperName_signatureName hnew hresult hname
    exact ⟨hres, element, helement, hkey⟩
  · obtain ⟨hres, hkey⟩ := helperName_signatureName hrtt hresult hname
    exact ⟨hres, element, helement, hkey⟩

/-- The helper of an access is the one of its host type. -/
theorem hostHelper_access (hop : allocates op = false)
    (h : helper? op a types options = .ok (some (name, body))) :
    options.useGc = false ∧ helperName types options.hostModule (hostMethod a.element.hostType op)
        (hostParams a.element.hostType op) (hostResult a.element.hostType 0 op) = .ok name ∧
      body = .hostScript options.hostModule (hostText a.element.hostType 0 op) := by
  unfold helper? at h
  split_ifs at h with hgc
  · obtain ⟨native, -, h⟩ := bind_eq_ok.mp h
    obtain ⟨element, -, h⟩ := bind_eq_ok.mp h
    cases op with
    | new | newWithDescriptor => cases hop
    | _ => cases h
  · obtain ⟨helper, hhelper, h⟩ := map_eq_ok.mp h
    cases h
    refine ⟨by simpa using hgc, ?_⟩
    cases op with
    | new | newWithDescriptor => cases hop
    | _ =>
      obtain ⟨_, hname, h⟩ := bind_eq_ok.mp hhelper
      cases h
      simp only [hostMethod, hostParams, hostResult, hostText, hostType_hostType]
      exact ⟨hname, trivial⟩

theorem exists_methodDescriptor {params : List OperandType} {result : Option OperandType}
    {signature : String} (h : types.methodDescriptor params result = .ok signature) :
    ∃ rest, signature = "(" ++ rest := by
  obtain ⟨ds, -, h⟩ := bind_eq_ok.mp h
  have hd : ∃ d, signature = "(" ++ String.join ds ++ ")" ++ d := by
    cases result with
    | none =>
      cases h
      exact ⟨"V", rfl⟩
    | some ty =>
      obtain ⟨d, -, h⟩ := bind_eq_ok.mp h
      cases h
      exact ⟨d, rfl⟩
  obtain ⟨d, rfl⟩ := hd
  exact ⟨String.join ds ++ ")" ++ d, by simp only [String.append_assoc]⟩

theorem access_signatureName (hop : allocates op = false)
    (h : helper? op a types options = .ok (some (name, body))) : ∃ rest,
      name.signatureName.toList = (helperOwner options ++ ".").toList ++
        ((hostMethod a.element.hostType op).toList ++ '(' :: rest) := by
  obtain ⟨hgc, hname, -⟩ := hostHelper_access hop h
  obtain ⟨signature, hsignature, rfl⟩ := map_eq_ok.mp hname
  obtain ⟨rest, rfl⟩ := exists_methodDescriptor hsignature
  refine ⟨rest.toList, ?_⟩
  simp [FunctionName.signatureName, helperOwner, hgc]

/-! ### Helpers with the same text -/

theorem access_eq_of_signatureName (hop : allocates op = false) (hop' : allocates op' = false)
    (h : helper? op a types options = .ok (some (name, body)))
    (h' : helper? op' a' types options = .ok (some (name', body')))
    (hkey : name'.signatureName = name.signatureName) : name' = name ∧ body' = body := by
  obtain ⟨rest, hrest⟩ := access_signatureName hop h
  obtain ⟨rest', hrest'⟩ := access_signatureName hop' h'
  rw [hkey, hrest, List.append_right_inj] at hrest'
  have hmethod := (split_inj (parenthesis_notMem_hostMethod hop _)
    (parenthesis_notMem_hostMethod hop' _) hrest').1
  rw [String.toList_inj] at hmethod
  obtain ⟨hparams, hresult, htext⟩ := hostMethod_inj hop hop' hmethod 0 0
  obtain ⟨-, hname, rfl⟩ := hostHelper_access hop h
  obtain ⟨-, hname', rfl⟩ := hostHelper_access hop' h'
  rw [← hmethod, ← hparams, ← hresult, hname] at hname'
  exact ⟨(Except.ok.inj hname').symm, by rw [htext]⟩

theorem allocates_eq_of_signatureName (ha : types.arrayClass a.id = .ok a)
    (hop : allocates op = true) (h : helper? op a types options = .ok (some (name, body)))
    (h' : helper? op' a' types options = .ok (some (name', body')))
    (hkey : name'.signatureName = name.signatureName) : allocates op' = true := by
  by_contra hop'
  rw [Bool.not_eq_true] at hop'
  obtain ⟨-, element, -, hsignature⟩ := allocator_signatureName ha hop h
  obtain ⟨rest', hrest'⟩ := access_signatureName hop' h'
  obtain ⟨rest, hrest⟩ := allocatorName_letter op element
  obtain ⟨rest'', hrest''⟩ := hostMethod_letter a'.element.hostType op'
  rw [hkey, hsignature, String.toList_append, List.append_right_inj, String.toList_append, hrest,
    hrest'', List.append_assoc, List.append_assoc, List.append_right_inj] at hrest'
  have hletter : 'n' = hostLetter op' := (List.cons.inj hrest').1
  cases op' with
  | new | newWithDescriptor => cases hop'
  | _ => simp [hostLetter] at hletter

/-- The allocator of one class is the one of the other: they are the same class, or both hold arrays
and have the same name. -/
def sharesAllocator (types : TypeRegistry) (array array' : Nat) : Bool :=
  match types.arrays[array]?, types.arrays[array']? with
  | some a, some a' =>
    array = array' || (a.element.isArray && a'.element.isArray && a.name = a'.name)
  | _, _ => false

section Allocators

variable (hid : types.arrays[a.id]? = some a) (hid' : types.arrays[a'.id]? = some a')
include hid hid'

theorem sharesAllocator_iff : sharesAllocator types a.id a'.id = true ↔
    a = a' ∨ ((a.element.isArray = true ∧ a'.element.isArray = true) ∧ a.name = a'.name) := by
  have heq : a.id = a'.id ↔ a = a' := by
    constructor
    · intro h
      rw [h, hid'] at hid
      exact (Option.some.inj hid).symm
    · rintro rfl
      rfl
  simp [sharesAllocator, hid, hid', heq]

variable (htypes : types.Named) (hop : allocates op = true)
  (h : helper? op a types options = .ok (some (name, body)))
include htypes hop h

/-- **Allocations with the same text** are the same operation, on classes that share it. -/
theorem allocator_of_signatureName
    (h' : helper? op' a' types options = .ok (some (name', body')))
    (hkey : name'.signatureName = name.signatureName) :
    op' = op ∧ sharesAllocator types a'.id a.id = true := by
  have ha := TypeRegistry.arrayClass_eq_ok.mpr hid
  have ha' := TypeRegistry.arrayClass_eq_ok.mpr hid'
  have hop' := allocates_eq_of_signatureName ha hop h h' hkey
  obtain ⟨-, element, helement, hsignature⟩ := allocator_signatureName ha hop h
  obtain ⟨-, element', helement', hsignature'⟩ := allocator_signatureName ha' hop' h'
  obtain ⟨d, -, hname⟩ := htypes.arrays a (List.mem_of_getElem? hid)
  obtain ⟨d', -, hname'⟩ := htypes.arrays a' (List.mem_of_getElem? hid')
  -- the first bracket of the text is the one with which the name of the class begins
  have hsplit : (allocatorName op' element').toList ++ '[' :: d'.toList =
      (allocatorName op element).toList ++ '[' :: d.toList := by
    rw [hsignature, hsignature', String.append_right_inj, hname, hname', ← String.toList_inj] at hkey
    simpa using hkey
  obtain ⟨hmethod, hd⟩ := split_inj
    (bracket_notMem_allocatorName (TypeRegistry.bracket_notMem_elementName helement') op')
    (bracket_notMem_allocatorName (TypeRegistry.bracket_notMem_elementName helement) op) hsplit
  rw [String.toList_inj] at hmethod hd
  obtain ⟨rfl, rfl⟩ := allocatorName_inj hop' hop hmethod
  have hsame : a'.name = a.name := by rw [hname, hname', hd]
  refine ⟨rfl, (sharesAllocator_iff hid' hid).mpr ?_⟩
  rcases htypes.eq_or_nested (List.mem_of_getElem? hid') (List.mem_of_getElem? hid) hsame
    (helement'.trans helement.symm) with heq | hnested
  · exact .inl heq
  · exact .inr ⟨hnested, hsame⟩

theorem signatureName_of_shares
    (h' : helper? op a' types options = .ok (some (name', body')))
    (hshares : sharesAllocator types a'.id a.id = true) :
    name'.signatureName = name.signatureName := by
  have ha := TypeRegistry.arrayClass_eq_ok.mpr hid
  have ha' := TypeRegistry.arrayClass_eq_ok.mpr hid'
  rcases (sharesAllocator_iff hid' hid).mp hshares with rfl | ⟨⟨harray', harray⟩, hsame⟩
  · rw [h] at h'
    cases h'
    rfl
  · obtain ⟨-, element, helement, hsignature⟩ := allocator_signatureName ha hop h
    obtain ⟨-, element', helement', hsignature'⟩ := allocator_signatureName ha' hop h'
    obtain ⟨d, hname, hd⟩ := htypes.elementName_array (List.mem_of_getElem? hid) harray
    obtain ⟨d', hname', hd'⟩ := htypes.elementName_array (List.mem_of_getElem? hid') harray'
    have hdd : d' = d := by
      rwa [hname, hname', String.append_right_inj] at hsame
    have helements : element' = element := by
      rw [hd', hdd, ← hd, helement] at helement'
      exact (Except.ok.inj helement').symm
    rw [hsignature, hsignature', helements, hsame]

end Allocators

/-! ### Requests -/

/-- The helper of a request, an operation on an array class, if it needs one. -/
def helperOf (options : Options) (types : TypeRegistry) (q : ArrayOp × Nat) :
    Option (FunctionName × FunctionBody) :=
  match types.arrayClass q.2 >>= fun a => helper? q.1 a types options with
  | .ok helper => helper
  | .error _ => none

/-- The registry after a request; one that fails changes nothing. -/
def serve (options : Options) (types : TypeRegistry) (r : FunctionRegistry) (q : ArrayOp × Nat) :
    FunctionRegistry :=
  match select q.1 q.2 options types r with
  | .ok (_, r) => r
  | .error _ => r

theorem helperOf_eq_some {q : ArrayOp × Nat} :
    helperOf options types q = some (name, body) ↔
      ∃ a, types.arrayClass q.2 = .ok a ∧ helper? q.1 a types options = .ok (some (name, body)) := by
  unfold helperOf
  rw [← bind_eq_ok]
  split
  · next helper hhelper => simp [hhelper]
  · next e he => simp [he]

theorem serve_eq (r : FunctionRegistry) (q : ArrayOp × Nat) :
    serve options types r q = match helperOf options types q with
      | some (name, body) => (r.markSynthetic name body).2
      | none => r := by
  rcases ha : types.arrayClass q.2 with e | a
  · simp [serve, select, helperOf, ha, bind, Except.bind]
  · rcases hhelper : helper? q.1 a types options with e | _ | ⟨name, body⟩
    · simp [serve, select, helperOf, ha, hhelper, bind, Except.bind]
    · simp [serve, select_of_inline ha hhelper, helperOf, ha, hhelper, bind, Except.bind]
    · simp [serve, select_of_helper ha hhelper, helperOf, ha, hhelper, bind, Except.bind]

/-- The name and the body that the registry has for a text. -/
def known (r : FunctionRegistry) (key : String) : Option (FunctionName × Option FunctionBody) :=
  (r.entries.find? fun e => e.name.signatureName = key).map fun e => (e.name, e.body)

theorem known_markSynthetic (r : FunctionRegistry) (name : FunctionName) (body : FunctionBody)
    (key : String) : known (r.markSynthetic name body).2 key =
      (known r key).or (if name.signatureName = key then some (name, some body) else none) := by
  unfold FunctionRegistry.markSynthetic FunctionRegistry.insert
  split
  · next id hid =>
    split_ifs with hkey
    · obtain ⟨e, he, hname⟩ := FunctionRegistry.signatureName_of_lookup hid
      have hfound : (known r key).isSome = true := by
        rw [known, Option.isSome_map, List.find?_isSome]
        exact ⟨e, List.mem_of_getElem? he, by simp [hname, hkey]⟩
      rw [Option.or_of_isSome hfound]
    · rw [Option.or_none]
  · simp only [known, FunctionRegistry.add, List.find?_append, List.find?_cons, List.find?_nil,
      Option.map_or]
    split_ifs with hkey <;> simp [hkey]

/-- **What a request leaves for a text**: what was there, or else its own helper. -/
theorem known_serve (r : FunctionRegistry) (q : ArrayOp × Nat) (key : String) :
    known (serve options types r q) key = (known r key).or
      (((helperOf options types q).filter fun helper => helper.1.signatureName = key).map
        fun helper => (helper.1, some helper.2)) := by
  rw [serve_eq]
  rcases helperOf options types q with _ | ⟨name, body⟩
  · simp
  · simp only [known_markSynthetic, Option.filter_some]
    split_ifs <;> simp_all

/-- **What a run of requests leaves for a text**: the first helper that was asked for with it. -/
theorem known_run (r : FunctionRegistry) (requests : List (ArrayOp × Nat)) (key : String) :
    known (requests.foldl (serve options types) r) key = (known r key).or
      (((requests.filterMap (helperOf options types)).find?
        fun helper => helper.1.signatureName = key).map fun helper => (helper.1, some helper.2)) := by
  induction requests generalizing r with
  | nil => simp
  | cons q rest ih =>
    rw [List.foldl_cons, ih, known_serve, Option.or_assoc]
    congr 1
    rw [List.filterMap_cons]
    rcases helperOf options types q with _ | ⟨name, body⟩
    · simp
    · by_cases hkey : name.signatureName = key <;> simp [Option.filter_some, hkey]

theorem entry_of_known {r : FunctionRegistry} {id : Nat} (hid : r.lookup name = some id)
    {found : FunctionName × Option FunctionBody} (h : known r name.signatureName = some found) :
    ∃ e, r.entry id = .ok e ∧ e.name = found.1 ∧ e.body = found.2 := by
  obtain ⟨e, he, rfl⟩ := Option.map_eq_some_iff.mp h
  refine ⟨e, ?_, rfl, rfl⟩
  have hentry : r.entries[id]? = some e := by
    rw [← (List.findIdx?_eq_some_iff_findIdx_eq.mp hid).2, ← List.find?_eq_getElem?_findIdx]
    exact he
  simp [FunctionRegistry.entry, FunctionRegistry.get?, hentry]

theorem extends_run (options : Options) (types : TypeRegistry) (r : FunctionRegistry)
    (requests : List (ArrayOp × Nat)) : r.Extends (requests.foldl (serve options types) r) := by
  induction requests generalizing r with
  | nil => exact .refl r
  | cons q rest ih =>
    refine FunctionRegistry.Extends.trans ?_ (ih (serve options types r q))
    rw [serve_eq]
    split
    · exact r.extends_markSynthetic _ _
    · exact .refl r

/-! ### The class that is served -/

section Served

variable (hwf : types.WellFormed) {array : Nat} (ha : types.arrayClass array = .ok a)
  (h : helper? op a types options = .ok (some (name, body)))
include hwf ha

theorem id_of_arrayClass : a.id = array ∧ types.arrays[a.id]? = some a := by
  have hplace := TypeRegistry.arrayClass_eq_ok.mp ha
  have hid := hwf.array_id array a hplace
  exact ⟨hid, hid ▸ hplace⟩

include h

theorem result_of_allocator (hop : allocates op = true) : name.result = some (.array array) := by
  obtain ⟨rfl, hid⟩ := id_of_arrayClass hwf ha
  exact (allocator_signatureName (TypeRegistry.arrayClass_eq_ok.mpr hid) hop h).1

/-- If one class has an allocator, then every class has. -/
theorem exists_allocator (hop : allocates op = true) {array' : Nat}
    (ha' : types.arrayClass array' = .ok a') :
    ∃ name' body', helper? op a' types options = .ok (some (name', body')) := by
  obtain ⟨-, hid⟩ := id_of_arrayClass hwf ha
  obtain ⟨-, hid'⟩ := id_of_arrayClass hwf ha'
  have hmem' := List.mem_of_getElem? hid'
  have hclass' := TypeRegistry.arrayClass_eq_ok.mpr hid'
  unfold helper? at h ⊢
  split_ifs at h ⊢ with hgc
  · obtain ⟨native, hnative, -⟩ := bind_eq_ok.mp h
    have hsome : a.native?.isSome = true := by
      unfold ArrayClass.native at hnative
      split at hnative
      · next hn => rw [hn]; rfl
      · cases hnative
    rw [hwf.native_isSome a (List.mem_of_getElem? hid), ← hwf.native_isSome a' hmem'] at hsome
    obtain ⟨native', hn'⟩ := Option.isSome_iff_exists.mp hsome
    obtain ⟨name', body', hhelper, -⟩ :=
      Typing.nativeHelper_hasSignature hclass' (hwf.elementLocal a' hmem') hn' hop
    exact ⟨name', body', hhelper⟩
  · obtain ⟨name', body', hhelper, -⟩ :=
      Typing.exists_hostHelper hclass' (hwf.elementLocal a' hmem') op options
    exact ⟨name', body', map_eq_ok.mpr ⟨_, hhelper, rfl⟩⟩

/-- The requests for the text of an allocation are those for classes that share it. -/
theorem any_helperOf (hnamed : types.Named) (hop : allocates op = true) (q : ArrayOp × Nat) :
    (helperOf options types q).any (fun helper => helper.1.signatureName = name.signatureName) =
      (decide (q.1 = op) && sharesAllocator types q.2 array) := by
  obtain ⟨rfl, hid⟩ := id_of_arrayClass hwf ha
  rw [Bool.eq_iff_iff, Option.any_eq_true, Bool.and_eq_true, decide_eq_true_eq]
  constructor
  · rintro ⟨⟨name', body'⟩, hhelper, hkey⟩
    obtain ⟨a', ha', h'⟩ := helperOf_eq_some.mp hhelper
    obtain ⟨hq, hid'⟩ := id_of_arrayClass hwf ha'
    obtain ⟨hsame, hshares⟩ :=
      allocator_of_signatureName hid hid' hnamed hop h h' (of_decide_eq_true hkey)
    exact ⟨hsame, hq ▸ hshares⟩
  · rintro ⟨hsame, hshares⟩
    obtain ⟨a', ha'⟩ : ∃ a', types.arrayClass q.2 = .ok a' := by
      unfold sharesAllocator at hshares
      split at hshares
      · next a' _ hplace _ => exact ⟨a', TypeRegistry.arrayClass_eq_ok.mpr hplace⟩
      · cases hshares
    obtain ⟨hq, hid'⟩ := id_of_arrayClass hwf ha'
    obtain ⟨name', body', h'⟩ := exists_allocator hwf ha h hop ha'
    have hkey := signatureName_of_shares hid hid' hnamed hop h h' (hq ▸ hshares)
    exact ⟨(name', body'), helperOf_eq_some.mpr ⟨a', ha', hsame ▸ h'⟩, decide_eq_true hkey⟩

end Served

/-- The class whose helper a request gets after some others: that of the first request for the same
allocation, if its allocator is shared. -/
def servedClass (types : TypeRegistry) (requests : List (ArrayOp × Nat)) (op : ArrayOp)
    (array : Nat) : Nat :=
  if allocates op then
    ((requests.find? fun q => q.1 = op && sharesAllocator types q.2 array).map Prod.snd).getD array
  else array

/-- The first helper that was asked for with the text of a request is that of the class served. -/
theorem first_helper (hwf : types.WellFormed) (hnamed : types.Named) {array : Nat}
    (ha : types.arrayClass array = .ok a) (h : helper? op a types options = .ok (some (name, body)))
    (requests : List (ArrayOp × Nat)) :
    ∃ served, types.arrayClass (servedClass types requests op array) = .ok served ∧
      helper? op served types options =
        .ok (some (((requests.filterMap (helperOf options types)).find?
          fun helper => helper.1.signatureName = name.signatureName).getD (name, body))) := by
  by_cases hop : allocates op = true
  · simp only [servedClass, hop, if_true]
    simp only [List.find?_filterMap, any_helperOf hwf ha h hnamed hop]
    cases hfirst : requests.find? (fun q => q.1 = op && sharesAllocator types q.2 array) with
    | none =>
      simp only [Option.map_none, Option.getD_none, Option.bind_none]
      exact ⟨a, ha, h⟩
    | some q =>
      have hq := List.find?_some hfirst
      have hsame : q.1 = op := of_decide_eq_true (Bool.and_eq_true_iff.mp hq).1
      rw [← any_helperOf hwf ha h hnamed hop, Option.any_eq_true] at hq
      obtain ⟨⟨name', body'⟩, hhelper, -⟩ := hq
      obtain ⟨served, hserved, h'⟩ := helperOf_eq_some.mp hhelper
      simp only [Option.map_some, Option.getD_some, Option.bind_some, hhelper]
      exact ⟨served, hserved, hsame ▸ h'⟩
  · rw [Bool.not_eq_true] at hop
    simp only [servedClass, hop, Bool.false_eq_true, if_false]
    refine ⟨a, ha, ?_⟩
    cases hfirst : (requests.filterMap (helperOf options types)).find?
        (fun helper => helper.1.signatureName = name.signatureName) with
    | none => exact h
    | some helper =>
      obtain ⟨q, -, hhelper⟩ := List.mem_filterMap.mp (List.mem_of_find?_eq_some hfirst)
      have hkey : helper.1.signatureName = name.signatureName := by
        simpa using List.find?_some hfirst
      obtain ⟨a', ha', h'⟩ := helperOf_eq_some.mp hhelper
      have hop' : allocates q.1 = false := by
        by_contra hallocates'
        rw [Bool.not_eq_false] at hallocates'
        have hclass' := TypeRegistry.arrayClass_eq_ok.mpr (id_of_arrayClass hwf ha').2
        have hallocates := allocates_eq_of_signatureName hclass' hallocates' h' h hkey.symm
        exact Bool.false_ne_true (hop.symm.trans hallocates)
      obtain ⟨hname, hbody⟩ := access_eq_of_signatureName hop hop' h h' hkey
      rw [Option.getD_some, show helper = (name, body) from Prod.ext hname hbody]
      exact h

theorem known_of_request (requests later : List (ArrayOp × Nat)) (name : FunctionName)
    (body : FunctionBody) {helper : FunctionName × FunctionBody}
    (h : ((requests.filterMap (helperOf options types)).find?
      fun helper => helper.1.signatureName = name.signatureName).getD (name, body) = helper) :
    known (later.foldl (serve options types)
        ((requests.foldl (serve options types) {}).markSynthetic name body).2)
      name.signatureName = some (helper.1, some helper.2) := by
  have hempty : known {} name.signatureName = none := rfl
  rw [known_run, known_markSynthetic, known_run, hempty, if_pos rfl, Option.none_or]
  cases hfirst : (requests.filterMap (helperOf options types)).find?
      (fun helper => helper.1.signatureName = name.signatureName) with
  | none =>
    rw [hfirst] at h
    simp [← h]
  | some first =>
    rw [hfirst] at h
    simp [← h]

/-- **Which helper a request gets**, after any requests and before any later ones: the one of the
class served. It is the helper of the class itself exactly if no other class that shares its
allocator was asked for first. -/
theorem entry_of_select {useGc : Bool} (htypes : (TypeRegistry.new useGc).Grows types)
    (requests later : List (ArrayOp × Nat)) {array id : Nat} {r : FunctionRegistry}
    (h : select op array options types (requests.foldl (serve options types) {}) =
      .ok (some id, r)) :
    ∃ a served name body name' body' e, types.arrayClass array = .ok a ∧
      helper? op a types options = .ok (some (name, body)) ∧
      types.arrayClass (servedClass types requests op array) = .ok served ∧
      helper? op served types options = .ok (some (name', body')) ∧
      (later.foldl (serve options types) r).entry id = .ok e ∧ e.name = name' ∧
      e.body = some body' ∧
      ((e.name.params = name.params ∧ e.name.result = name.result ∧ e.body = some body) ↔
        servedClass types requests op array = array) := by
  have hwf := TypeRegistry.wellFormed_of_grows htypes
  have hnamed := TypeRegistry.named_of_grows htypes
  obtain ⟨a, ha, ⟨-, hnone, -⟩ | ⟨name, body, hhelper, hid, rfl⟩⟩ := select_eq_ok h
  · cases hnone
  obtain ⟨served, hserved, hfirst⟩ := first_helper hwf hnamed ha hhelper requests
  rcases hfound : ((requests.filterMap (helperOf options types)).find?
    fun helper => helper.1.signatureName = name.signatureName).getD (name, body) with ⟨name', body'⟩
  rw [hfound] at hfirst
  -- the number of the text is the same in all later registries
  have hlookup := (extends_run options types _ later).lookup
    ((requests.foldl (serve options types) {}).lookup_markSynthetic name body)
  rw [← hid] at hlookup
  obtain ⟨e, hentry, hname, hbody⟩ :=
    entry_of_known hlookup (known_of_request requests later name body hfound)
  refine ⟨a, served, name, body, name', body', e, ha, hhelper, hserved, hfirst, hentry, hname, hbody,
    ?_, ?_⟩
  · rintro ⟨-, hresult, -⟩
    by_cases hop : allocates op = true
    · rw [hname, result_of_allocator hwf ha hhelper hop,
        result_of_allocator hwf hserved hfirst hop] at hresult
      exact OperandType.array.inj (Option.some.inj hresult)
    · rw [servedClass, if_neg hop]
  · intro hsame
    rw [hsame, ha] at hserved
    cases hserved
    rw [hhelper] at hfirst
    cases hfirst
    rw [hname, hbody]
    exact ⟨rfl, rfl, rfl⟩

/-- Classes of arrays of two kinds of references, and of arrays of those. -/
def nestedArrays : TypeRegistry :=
  TypeRegistry.run (.new true)
    ([.value .anyRef, .value .externRef, .array 0, .array 1].map .internArray)

/-- An array class is served its own allocator although another class has its name. -/
theorem entry_of_select_nestedArrays :
    (TypeRegistry.new true).Grows nestedArrays ∧ ∃ id r e,
      select .new 1 { useGc := true } nestedArrays
        ([(.new, 0), (.new, 2)].foldl (serve { useGc := true } nestedArrays) {}) = .ok (some id, r) ∧
      r.entry id = .ok e ∧ e.name.result = some (.array 1) := by
  have hgrows : (TypeRegistry.new true).Grows nestedArrays := TypeRegistry.Grows.run .refl _
  have hselect : (select .new 1 { useGc := true } nestedArrays
      ([(.new, 0), (.new, 2)].foldl (serve { useGc := true } nestedArrays) {})).map Prod.fst =
        .ok (some 2) := by
    decide +kernel
  obtain ⟨⟨_, r⟩, hselect, rfl⟩ := map_eq_ok.mp hselect
  have hserved : servedClass nestedArrays [(.new, 0), (.new, 2)] .new 1 = 1 := by decide +kernel
  obtain ⟨a, -, name, body, -, -, e, ha, hhelper, -, -, hentry, -, -, hown⟩ :=
    entry_of_select hgrows [(.new, 0), (.new, 2)] [] hselect
  refine ⟨hgrows, 2, r, e, hselect, hentry, ?_⟩
  rw [(hown.mpr hserved).2.1]
  exact result_of_allocator (TypeRegistry.wellFormed_of_grows hgrows) ha hhelper rfl

/-- The allocator of the first class of nested arrays is given to the second one. -/
theorem shared_allocator_nestedArrays :
    let first := serve { useGc := true } nestedArrays {} (.new, 2)
    let second := serve { useGc := true } nestedArrays first (.new, 3)
    (TypeRegistry.new true).Grows nestedArrays ∧
      (select .new 3 { useGc := true } nestedArrays first).map Prod.fst = .ok (some 0) ∧
      (second.entry 0).map (fun e => e.name.result) = .ok (some (.array 2)) ∧
      (helperOf { useGc := true } nestedArrays (.new, 3)).map (fun helper => helper.1.result) =
        some (some (.array 3)) ∧
      (second.entry 0).map FunctionEntry.body ≠
        .ok ((helperOf { useGc := true } nestedArrays (.new, 3)).map Prod.snd) :=
  ⟨TypeRegistry.Grows.run .refl _, by decide +kernel⟩

end WasmBackend.ArrayProfile
