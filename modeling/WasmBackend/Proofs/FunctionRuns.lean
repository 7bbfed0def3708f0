import Mathlib.Data.List.Dedup
import Mathlib.Data.List.Induction
import WasmBackend.Proofs.StringLiterals

/-! # Runs of a function registry

A registry starts empty and is asked for functions in three ways, in any order. Whatever is asked, a
function keeps the number and the name of the first call for its key. Whether it is imported and what
its body is was said by the *decisive* call: the last one that replaces, or else the first one
(`Reflects`, `functions_over_runs`). -/

namespace WasmBackend.FunctionRegistry

/-! ### Calls -/

/-- What a registry can be asked for. -/
inductive Call
  | mark (name : FunctionName) (isImport : Bool)
  | markSynthetic (name : FunctionName) (body : FunctionBody)
  | markReplacing (name : FunctionName) (body : FunctionBody)
  deriving DecidableEq

namespace Call

/-- The function that is asked for. -/
def name : Call → FunctionName
  | mark name _ | markSynthetic name _ | markReplacing name _ => name

/-- The name and signature by which the registry knows the function. -/
def key (c : Call) : String := c.name.signatureName

/-- Whether the function is to be imported, and its body. -/
def content : Call → Bool × Option FunctionBody
  | mark _ isImport => (isImport, none)
  | markSynthetic _ body | markReplacing _ body => (body.isImport, some body)

/-- The call replaces the body of a known function. -/
def replaces : Call → Bool
  | markReplacing _ _ => true
  | mark _ _ | markSynthetic _ _ => false

/-- What becomes of the known function that is asked for. -/
def update (c : Call) (e : FunctionEntry) : FunctionEntry :=
  if c.replaces then { e with isImport := c.content.1, body := c.content.2 } else e

@[simp]
theorem name_update (c : Call) (e : FunctionEntry) : (c.update e).name = e.name := by
  unfold update
  split <;> rfl

@[simp]
theorem id_update (c : Call) (e : FunctionEntry) : (c.update e).id = e.id := by
  unfold update
  split <;> rfl

end Call

/-- The number that a call gives, and the registry after it. -/
def serve (r : FunctionRegistry) : Call → Nat × FunctionRegistry
  | .mark name isImport => r.mark name isImport
  | .markSynthetic name body => r.markSynthetic name body
  | .markReplacing name body => r.markReplacing name body

/-- The registry after some calls. -/
def run (r : FunctionRegistry) (calls : List Call) : FunctionRegistry :=
  calls.foldl (fun r c => (r.serve c).2) r

theorem run_append (r : FunctionRegistry) (calls calls' : List Call) :
    r.run (calls ++ calls') = (r.run calls).run calls' :=
  List.foldl_append ..

/-! ### One call -/

theorem serve_of_lookup {r : FunctionRegistry} {c : Call} {id : Nat}
    (h : r.lookup c.name = some id) : r.serve c = (id, ⟨r.entries.modify id c.update⟩) := by
  have hkept : r.entries.modify id (fun e => e) = r.entries := List.modify_id id r.entries
  cases c with
  | mark name isImport =>
    refine (insert_of_lookup h _ _).trans ?_
    exact Prod.ext rfl (congrArg FunctionRegistry.mk hkept.symm)
  | markSynthetic name body =>
    refine (insert_of_lookup h _ _).trans ?_
    exact Prod.ext rfl (congrArg FunctionRegistry.mk hkept.symm)
  | markReplacing name body =>
    have hid : r.lookup name = some id := h
    simp only [serve, markReplacing, hid]
    rfl

theorem serve_of_new {r : FunctionRegistry} {c : Call} (h : r.lookup c.name = none) :
    r.serve c = (r.entries.length, r.add c.name c.content.1 c.content.2) := by
  cases c with
  | mark name isImport =>
    have hnone : r.lookup name = none := h
    simp only [serve, FunctionRegistry.mark, FunctionRegistry.insert, hnone]
    rfl
  | markSynthetic name body =>
    have hnone : r.lookup name = none := h
    simp only [serve, FunctionRegistry.markSynthetic, FunctionRegistry.insert, hnone]
    rfl
  | markReplacing name body =>
    have hnone : r.lookup name = none := h
    simp only [serve, FunctionRegistry.markReplacing, hnone]
    rfl

theorem extends_serve (r : FunctionRegistry) (c : Call) : Extends r (r.serve c).2 := by
  cases c with
  | mark name isImport => exact r.extends_mark name isImport
  | markSynthetic name body => exact r.extends_markSynthetic name body
  | markReplacing name body => exact r.extends_markReplacing name body

theorem lookup_serve (r : FunctionRegistry) (c : Call) :
    (r.serve c).2.lookup c.name = some (r.serve c).1 := by
  cases c with
  | mark name isImport => exact r.lookup_mark name isImport
  | markSynthetic name body => exact r.lookup_markSynthetic name body
  | markReplacing name body => exact r.lookup_markReplacing name body

theorem extends_run_calls (r : FunctionRegistry) (calls : List Call) : Extends r (r.run calls) := by
  induction calls generalizing r with
  | nil => exact .refl r
  | cons c rest ih => exact (r.extends_serve c).trans (ih (r.serve c).2)

/-! ### Decisive calls -/

/-- The first call for a key. -/
def first? (calls : List Call) (key : String) : Option Call := calls.find? fun c => c.key = key

/-- The last call for a key that replaces. -/
def lastReplacing? (calls : List Call) (key : String) : Option Call :=
  calls.reverse.find? fun c => c.replaces ∧ c.key = key

/-- The call that says what the function with a key is. -/
def decisive? (calls : List Call) (key : String) : Option Call :=
  (lastReplacing? calls key).or (first? calls key)

theorem first?_concat (calls : List Call) (c : Call) (key : String) :
    first? (calls ++ [c]) key = (first? calls key).or (if c.key = key then some c else none) := by
  unfold first?
  rw [List.find?_append, List.find?_singleton]
  simp only [decide_eq_true_eq]

theorem decisive?_concat_of_ne {calls : List Call} {c : Call} {key : String} (h : c.key ≠ key) :
    decisive? (calls ++ [c]) key = decisive? calls key := by
  have hlast : lastReplacing? (calls ++ [c]) key = lastReplacing? calls key := by
    unfold lastReplacing?
    rw [List.reverse_concat, List.find?_cons_of_neg]
    simp [h]
  have hfirst : first? (calls ++ [c]) key = first? calls key := by
    rw [first?_concat, if_neg h, Option.or_none]
  rw [decisive?, hlast, hfirst, decisive?]

theorem decisive?_concat_self (calls : List Call) (c : Call) :
    decisive? (calls ++ [c]) c.key =
      if c.replaces then some c else (decisive? calls c.key).or (some c) := by
  unfold decisive?
  rw [first?_concat, if_pos rfl, lastReplacing?, List.reverse_concat]
  by_cases hreplaces : c.replaces = true
  · rw [List.find?_cons_of_pos (by simp [hreplaces]), if_pos hreplaces, Option.some_or]
  · rw [List.find?_cons_of_neg (by simp [hreplaces]), if_neg hreplaces, Option.or_assoc]
    rfl

theorem first?_eq_none_iff {calls : List Call} {key : String} :
    first? calls key = none ↔ key ∉ calls.map Call.key := by
  simp [first?]

/-! ### What a run leaves behind -/

/-- The keys of the functions, in registry order. -/
def keys (r : FunctionRegistry) : List String := r.entries.map fun e => e.name.signatureName

theorem lookup_eq_none_iff_key {r : FunctionRegistry} {name : FunctionName} :
    r.lookup name = none ↔ name.signatureName ∉ r.keys := by
  simp [FunctionRegistry.lookup, keys]

theorem getElem?_keys {r : FunctionRegistry} {id : Nat} {e : FunctionEntry}
    (h : r.entries[id]? = some e) : r.keys[id]? = some e.name.signatureName := by
  rw [keys, List.getElem?_map, h]
  rfl

/-- The function is as the calls for its key say. -/
structure Described (calls : List Call) (e : FunctionEntry) : Prop where
  name : (first? calls e.name.signatureName).map Call.name = some e.name
  content : (decisive? calls e.name.signatureName).map Call.content = some (e.isImport, e.body)

/-- The registry holds one function for each key of the calls, numbered by its place. -/
structure Reflects (calls : List Call) (r : FunctionRegistry) : Prop where
  nodup : r.keys.Nodup
  mem_iff : ∀ key, key ∈ r.keys ↔ key ∈ calls.map Call.key
  id_eq : ∀ (id : Nat) (e : FunctionEntry), r.entries[id]? = some e → e.id = id
  described : ∀ e ∈ r.entries, Described calls e

theorem Described.concat_of_ne {calls : List Call} {c : Call} {e : FunctionEntry}
    (h : Described calls e) (hne : c.key ≠ e.name.signatureName) : Described (calls ++ [c]) e := by
  refine ⟨?_, ?_⟩
  · rw [first?_concat, if_neg hne, Option.or_none]
    exact h.name
  · rw [decisive?_concat_of_ne hne]
    exact h.content

theorem Described.update {calls : List Call} {c : Call} {e : FunctionEntry}
    (h : Described calls e) (hkey : c.key = e.name.signatureName) :
    Described (calls ++ [c]) (c.update e) := by
  obtain ⟨first, hfirst, hname⟩ := Option.map_eq_some_iff.mp h.name
  obtain ⟨decisive, hdecisive, hcontent⟩ := Option.map_eq_some_iff.mp h.content
  refine ⟨?_, ?_⟩
  · rw [Call.name_update, first?_concat, hfirst, Option.some_or, Option.map_some, hname]
  · rw [Call.name_update, ← hkey, decisive?_concat_self]
    unfold Call.update
    by_cases hreplaces : c.replaces = true
    · rw [if_pos hreplaces, if_pos hreplaces]
      rfl
    · rw [if_neg hreplaces, if_neg hreplaces, hkey, hdecisive, Option.some_or, Option.map_some,
        hcontent]

theorem described_new {calls : List Call} {c : Call} (h : c.key ∉ calls.map Call.key) (id : Nat) :
    Described (calls ++ [c]) ⟨id, c.name, c.content.1, c.content.2⟩ := by
  have hfirst : first? calls c.key = none := first?_eq_none_iff.mpr h
  have hlast : lastReplacing? calls c.key = none := by
    simp only [lastReplacing?, List.find?_eq_none, List.mem_reverse, decide_eq_true_eq, not_and]
    intro c' hc' _ hkey
    exact h (hkey ▸ List.mem_map_of_mem hc')
  refine ⟨?_, ?_⟩
  · show (first? (calls ++ [c]) c.key).map Call.name = _
    rw [first?_concat, hfirst, if_pos rfl]
    rfl
  · show (decisive? (calls ++ [c]) c.key).map Call.content = _
    rw [decisive?_concat_self, decisive?, hlast, hfirst]
    split <;> rfl

theorem reflects_empty : Reflects [] {} := ⟨List.nodup_nil, by simp [keys], by simp, by simp⟩

theorem Reflects.modify {calls : List Call} {r : FunctionRegistry} (h : Reflects calls r) {c : Call}
    {id : Nat} (hlookup : r.lookup c.name = some id) :
    Reflects (calls ++ [c]) ⟨r.entries.modify id c.update⟩ := by
  obtain ⟨known, hknown, hkey⟩ := signatureName_of_lookup hlookup
  have hplace : r.keys[id]? = some c.key := (getElem?_keys hknown).trans (congrArg some hkey)
  have hkeys : keys ⟨r.entries.modify id c.update⟩ = r.keys := by
    have hnames := congrArg (List.map FunctionName.signatureName)
      (map_name_modify r.entries id c.name_update)
    rw [List.map_map, List.map_map] at hnames
    exact hnames
  refine ⟨hkeys ▸ h.nodup, ?_, ?_, ?_⟩
  · intro key
    have hmem : c.key ∈ calls.map Call.key := (h.mem_iff _).mp (List.mem_of_getElem? hplace)
    rw [hkeys, h.mem_iff, List.map_append, List.mem_append, List.map_singleton, List.mem_singleton]
    constructor
    · exact Or.inl
    · rintro (hold | rfl)
      · exact hold
      · exact hmem
  · intro place e he
    rw [List.getElem?_modify] at he
    obtain ⟨old, hold, rfl⟩ := Option.map_eq_some_iff.mp he
    have hid := h.id_eq place old hold
    split_ifs
    · rw [Call.id_update, hid]
    · exact hid
  · intro e he
    obtain ⟨place, he⟩ := List.getElem?_of_mem he
    rw [List.getElem?_modify] at he
    obtain ⟨old, hold, rfl⟩ := Option.map_eq_some_iff.mp he
    have hdescribed := h.described old (List.mem_of_getElem? hold)
    by_cases hat : id = place
    · subst hat
      cases hold.symm.trans hknown
      rw [if_pos rfl]
      exact hdescribed.update hkey.symm
    · rw [if_neg hat]
      -- a function at another place has another key
      refine hdescribed.concat_of_ne fun hequal => hat ?_
      have hlt := (List.getElem?_eq_some_iff.mp hplace).1
      refine (List.getElem?_inj hlt h.nodup).mp ?_
      rw [hplace, getElem?_keys hold, hequal]

theorem Reflects.add {calls : List Call} {r : FunctionRegistry} (h : Reflects calls r) {c : Call}
    (hlookup : r.lookup c.name = none) :
    Reflects (calls ++ [c]) (r.add c.name c.content.1 c.content.2) := by
  have hnew : c.key ∉ r.keys := lookup_eq_none_iff_key.mp hlookup
  have hkeys : (r.add c.name c.content.1 c.content.2).keys = r.keys ++ [c.key] := by
    simp only [keys, FunctionRegistry.add, List.map_append, List.map_cons, List.map_nil]
    rfl
  refine ⟨?_, ?_, ?_, ?_⟩
  · rw [hkeys]
    exact List.nodup_append_comm.mp (List.nodup_cons.mpr ⟨hnew, h.nodup⟩)
  · intro key
    rw [hkeys, List.mem_append, h.mem_iff, List.map_append, List.mem_append, List.map_singleton]
  · intro place e he
    rcases getElem?_concat_eq_some.mp he with hold | ⟨rfl, rfl⟩
    · exact h.id_eq place e hold
    · rfl
  · intro e he
    rcases List.mem_append.mp he with hold | hadded
    · refine (h.described e hold).concat_of_ne fun hequal => hnew ?_
      rw [hequal]
      exact List.mem_map_of_mem hold
    · obtain rfl := List.mem_singleton.mp hadded
      exact described_new (fun hmem => hnew ((h.mem_iff _).mpr hmem)) _

/-- **What one call preserves.** -/
theorem Reflects.serve {calls : List Call} {r : FunctionRegistry} (h : Reflects calls r) (c : Call) :
    Reflects (calls ++ [c]) (r.serve c).2 := by
  cases hlookup : r.lookup c.name with
  | some id =>
    rw [serve_of_lookup hlookup]
    exact h.modify hlookup
  | none =>
    rw [serve_of_new hlookup]
    exact h.add hlookup

/-- **What a run leaves behind.** -/
theorem reflects_run (calls : List Call) : Reflects calls (run {} calls) := by
  induction calls using List.reverseRecOn with
  | nil => exact reflects_empty
  | append_singleton calls c ih =>
    rw [run_append]
    exact ih.serve c

theorem Reflects.count_eq {calls : List Call} {r : FunctionRegistry} (h : Reflects calls r) :
    r.count = (calls.map Call.key).dedup.length := by
  have hperm : r.keys.Perm (calls.map Call.key).dedup := by
    refine (List.perm_ext_iff_of_nodup h.nodup (List.nodup_dedup _)).mpr ?_
    intro key
    rw [List.mem_dedup, h.mem_iff]
  rw [← hperm.length_eq, keys, List.length_map]
  rfl

/-- A call of the run, and the number that it gave. -/
def Gives (calls : List Call) (c : Call) (id : Nat) : Prop :=
  ∃ before after, calls = before ++ c :: after ∧ ((run {} before).serve c).1 = id

theorem Gives.lookup {calls : List Call} {c : Call} {id : Nat} (h : Gives calls c id) :
    (run {} calls).lookup c.name = some id := by
  obtain ⟨before, after, rfl, rfl⟩ := h
  rw [run_append]
  exact (extends_run_calls _ after).lookup ((run {} before).lookup_serve c)

theorem lookup_congr (r : FunctionRegistry) {name name' : FunctionName}
    (h : name.signatureName = name'.signatureName) : r.lookup name = r.lookup name' := by
  unfold FunctionRegistry.lookup
  rw [h]

/-- **A function registry over whole runs.** There are as many functions as different keys. Two calls
give the same number exactly if they have the same key. Ever after, a number that a call gave is the
place of a function and what looking up the name of the call gives; that function has the name of the
first call for the key, and is imported and has a body as the last replacing call for the key says, or
the first call if none replaces. -/
theorem functions_over_runs (calls : List Call) :
    let r := run {} calls
    r.count = (calls.map Call.key).dedup.length ∧
    (∀ c c' id id', Gives calls c id → Gives calls c' id' → (id = id' ↔ c.key = c'.key)) ∧
    ∀ c id, Gives calls c id → r.lookup c.name = some id ∧
      ∃ e, r.get? id = some e ∧ e.id = id ∧
        (first? calls c.key).map Call.name = some e.name ∧
        (decisive? calls c.key).map Call.content = some (e.isImport, e.body) := by
  intro r
  have hreflects : Reflects calls r := reflects_run calls
  refine ⟨hreflects.count_eq, ?_, ?_⟩
  · intro c c' id id' hgives hgives'
    have hid : r.lookup c.name = some id := hgives.lookup
    have hid' : r.lookup c'.name = some id' := hgives'.lookup
    constructor
    · rintro rfl
      obtain ⟨e, he, hkey⟩ := signatureName_of_lookup hid
      obtain ⟨e', he', hkey'⟩ := signatureName_of_lookup hid'
      cases he.symm.trans he'
      exact hkey.symm.trans hkey'
    · intro hkey
      rw [r.lookup_congr hkey, hid'] at hid
      exact (Option.some.inj hid).symm
  · intro c id hgives
    have hid : r.lookup c.name = some id := hgives.lookup
    obtain ⟨e, he, hkey⟩ := signatureName_of_lookup hid
    obtain ⟨hname, hcontent⟩ := hreflects.described e (List.mem_of_getElem? he)
    rw [hkey] at hname hcontent
    exact ⟨hid, e, he, hreflects.id_eq id e he, hname, hcontent⟩

/-- A function with one integer parameter and an integer result. -/
def integerFunction (methodName : String) : FunctionName :=
  ⟨"demo/Main", methodName, "(I)I", [.i32], some .i32⟩

/-- A call for a function that is compiled from source. -/
def plainCall : Call := .mark (integerFunction "run") false

/-- A call for an imported function, whose key has a body by then. -/
def lateCall : Call := .mark (integerFunction "offset") true

/-- A body is given as a placeholder, replaced, and asked for twice more. -/
def replacedBody : List Call :=
  [plainCall, .markSynthetic (integerFunction "offset") (StringPool.constantBody 0),
    .markReplacing (integerFunction "offset") (StringPool.constantBody 64),
    .markSynthetic (integerFunction "offset") (StringPool.constantBody 0), lateCall]

/-- The replaced body stays, under the number that was given first. -/
theorem functions_over_runs_replacedBody :
    (run {} replacedBody).count = 2 ∧ Gives replacedBody plainCall 0 ∧
      Gives replacedBody lateCall 1 ∧ (0 = 1 ↔ plainCall.key = lateCall.key) ∧
      (run {} replacedBody).lookup lateCall.name = some 1 ∧
      ∃ e, (run {} replacedBody).get? 1 = some e ∧ e.id = 1 ∧ e.name = integerFunction "offset" ∧
        e.isImport = false ∧ e.body = some (StringPool.constantBody 64) := by
  have hplain : Gives replacedBody plainCall 0 := ⟨[], replacedBody.drop 1, rfl, by decide +kernel⟩
  have hlate : Gives replacedBody lateCall 1 := ⟨replacedBody.take 4, [], rfl, by decide +kernel⟩
  have hkeys : (replacedBody.map Call.key).dedup.length = 2 := by decide +kernel
  have hfirst : (first? replacedBody lateCall.key).map Call.name =
      some (integerFunction "offset") := by decide +kernel
  have hdecisive : (decisive? replacedBody lateCall.key).map Call.content =
      some (false, some (StringPool.constantBody 64)) := by decide +kernel
  obtain ⟨hcount, hapart, hgiven⟩ := functions_over_runs replacedBody
  obtain ⟨hlookup, e, he, hid, hname, hcontent⟩ := hgiven lateCall 1 hlate
  rw [hfirst] at hname
  rw [hdecisive] at hcontent
  obtain ⟨himport, hbody⟩ := Prod.mk.inj (Option.some.inj hcontent)
  exact ⟨hcount.trans hkeys, hplain, hlate, hapart _ _ _ _ hplain hlate, hlookup, e, he, hid,
    (Option.some.inj hname).symm, himport.symm, hbody.symm⟩

end WasmBackend.FunctionRegistry
