import Mathlib.Data.List.Dedup
import Mathlib.Data.List.Induction
import WasmBackend.Proofs.RelatedLists
import WasmBackend.StringPool

/-! # Runs of a string pool

A pool starts empty and is asked for literals and to be written into a data section, in any order. What
it knows after a run is said by the requests that succeeded (`interned`): each of their literals has
one number, which counts the distinct literals before its first request (`numbered_run`). Once the
pool has been written it is closed, and nothing that is asked of it changes it any more
(`intern_over_runs`). -/

namespace WasmBackend.StringPool

/-! ### One request -/

theorem findIdx?_of_mem {strings : List String} {value : String} (h : value ∈ strings) :
    strings.findIdx? (· = value) = some (strings.idxOf value) := by
  have hlt := List.idxOf_lt_length_of_mem h
  refine List.findIdx?_eq_some_iff_getElem.mpr ⟨hlt, by simp, fun j hj => ?_⟩
  have hbefore := List.not_of_lt_findIdx (show j < strings.findIdx (· == value) from hj)
  simpa using hbefore

theorem intern_of_mem {p : StringPool} {value : String} (h : value ∈ p.strings) :
    p.intern value = (.ok (p.strings.idxOf value), p) := by
  unfold intern
  rw [findIdx?_of_mem h]

theorem intern_of_notMem {p : StringPool} {value : String} (h : value ∉ p.strings) :
    p.intern value =
      if p.finalized then (.error (.poolFinalized value), p)
      else (.ok p.strings.length, { p with strings := p.strings ++ [value] }) := by
  have hnone : p.strings.findIdx? (· = value) = none := by
    rw [List.findIdx?_eq_none_iff]
    intro s hs
    have hne : s ≠ value := fun heq => h (heq ▸ hs)
    simpa using hne
  unfold intern
  rw [hnone]

theorem intern_eq_ok {p p' : StringPool} {value : String} {id : Nat}
    (h : p.intern value = (.ok id, p')) :
    p.strings <+: p'.strings ∧ p'.strings[id]? = some value ∧ p'.finalized = p.finalized ∧
      p'.baseOffset = p.baseOffset := by
  unfold intern at h
  split at h
  · next found hfound =>
    cases h
    obtain ⟨hlt, hvalue, -⟩ := List.findIdx?_eq_some_iff_getElem.mp hfound
    refine ⟨List.prefix_rfl, ?_, rfl, rfl⟩
    rw [List.getElem?_eq_getElem hlt, of_decide_eq_true hvalue]
  · split_ifs at h
    · cases h
    · cases h
      exact ⟨List.prefix_append _ _, List.getElem?_concat_length .., rfl, rfl⟩

theorem intern_eq_error {p p' : StringPool} {value : String} {e : CompileError}
    (h : p.intern value = (.error e, p')) : p' = p := by
  unfold intern at h
  split at h
  · cases h
  · split_ifs at h
    · cases h
      rfl
    · cases h

theorem finalized_intern (p : StringPool) (value : String) :
    (p.intern value).2.finalized = p.finalized ∧
      (p.intern value).2.baseOffset = p.baseOffset := by
  unfold intern
  split
  · exact ⟨rfl, rfl⟩
  · split_ifs <;> exact ⟨rfl, rfl⟩

theorem finalize_closes (p : StringPool) (data : DataSection) :
    (p.finalize data).2.strings = p.strings ∧ (p.finalize data).2.finalized = true := by
  unfold finalize
  split_ifs with hclosed hempty
  · exact ⟨rfl, hclosed⟩
  · exact ⟨rfl, rfl⟩
  · dsimp only
    split <;> exact ⟨rfl, rfl⟩

theorem finalize_of_finalized {p : StringPool} (h : p.finalized = true) (data : DataSection) :
    p.finalize data = (.error (.ofFault .finalizedTwice), p) := by
  unfold finalize
  rw [if_pos h]

/-! ### Runs -/

/-- What a pool can be asked for. -/
inductive Call
  | intern (value : String)
  /-- Writing the pool behind the bytes of a data section. -/
  | finalize (data : DataSection)
  deriving DecidableEq

/-- The pool after a call. -/
def serve (p : StringPool) : Call → StringPool
  | .intern value => (p.intern value).2
  | .finalize data => (p.finalize data).2

/-- The pool after some calls. -/
def run (p : StringPool) (calls : List Call) : StringPool := calls.foldl serve p

/-- The data section after the pool has been asked to be written there. -/
def sinkAfter (p : StringPool) (data : DataSection) : DataSection :=
  match (p.finalize data).1 with
  | .ok written => written
  | .error _ => data

/-- The literals of the requests that succeed. -/
def interned (p : StringPool) : List Call → List String
  | [] => []
  | c :: rest =>
    match c with
    | .intern value =>
      if (p.intern value).1.isOk then value :: interned (p.serve c) rest
      else interned (p.serve c) rest
    | .finalize _ => interned (p.serve c) rest

theorem run_append (p : StringPool) (calls calls' : List Call) :
    p.run (calls ++ calls') = (p.run calls).run calls' :=
  List.foldl_append ..

theorem interned_append (p : StringPool) (calls calls' : List Call) :
    p.interned (calls ++ calls') = p.interned calls ++ (p.run calls).interned calls' := by
  induction calls generalizing p with
  | nil => rfl
  | cons c rest ih =>
    cases c with
    | intern value =>
      simp only [List.cons_append, interned, ih]
      split_ifs <;> rfl
    | finalize data => exact ih _

/-- **What a call does to the literals**: it changes nothing and succeeds only for a literal that is
known, or it adds a literal that is new. -/
theorem serve_cases (p : StringPool) (c : Call) :
    ((p.serve c).strings = p.strings ∧ ∀ s ∈ p.interned [c], s ∈ p.strings) ∨
      ∃ value, c = .intern value ∧ value ∉ p.strings ∧ (p.serve c).strings = p.strings ++ [value] ∧
        p.interned [c] = [value] := by
  cases c with
  | finalize data => exact .inl ⟨(finalize_closes p data).1, by simp [interned]⟩
  | intern value =>
    by_cases hmem : value ∈ p.strings
    · left
      simp [serve, interned, intern_of_mem hmem, Except.isOk, Except.toBool, hmem]
    · cases hclosed : p.finalized with
      | true =>
        left
        simp [serve, interned, intern_of_notMem hmem, hclosed, Except.isOk, Except.toBool]
      | false =>
        right
        refine ⟨value, rfl, hmem, ?_, ?_⟩
        · simp [serve, intern_of_notMem hmem, hclosed]
        · simp [interned, intern_of_notMem hmem, hclosed, Except.isOk, Except.toBool]

theorem isPrefix_run (p : StringPool) (calls : List Call) : p.strings <+: (p.run calls).strings := by
  induction calls generalizing p with
  | nil => exact List.prefix_rfl
  | cons c rest ih =>
    refine List.IsPrefix.trans ?_ (ih (p.serve c))
    rcases serve_cases p c with ⟨hsame, -⟩ | ⟨value, -, -, hadded, -⟩
    · exact ⟨[], by rw [List.append_nil, hsame]⟩
    · exact ⟨[value], hadded.symm⟩

theorem get?_run {p : StringPool} {id : Nat} {s : String} (h : p.get? id = some s)
    (later : List Call) : (p.run later).get? id = some s := by
  obtain ⟨hlt, hvalue⟩ := List.getElem?_eq_some_iff.mp h
  unfold get?
  rw [List.prefix_iff_getElem?.mp (isPrefix_run p later) id hlt, hvalue]

/-- The pool is asked to be written. -/
def Closing (calls : List Call) : Prop := ∃ data, .finalize data ∈ calls

/-- While the pool is open its table has not been written; the calls close it when one of them asks
for the table. -/
theorem finalized_run (calls : List Call) :
    ((run {} calls).finalized = true ↔ Closing calls) ∧
      ((run {} calls).finalized = false → (run {} calls).baseOffset = none) := by
  induction calls using List.reverseRecOn with
  | nil => simp [run, Closing]
  | append_singleton calls c ih =>
    rw [run_append]
    cases c with
    | finalize data =>
      have hclosed : ((run {} calls).run [.finalize data]).finalized = true :=
        (finalize_closes (run {} calls) data).2
      simp [hclosed, Closing]
    | intern value =>
      have hsame : ((run {} calls).run [.intern value]).finalized = (run {} calls).finalized ∧
          ((run {} calls).run [.intern value]).baseOffset = (run {} calls).baseOffset :=
        finalized_intern _ value
      rw [hsame.1, hsame.2]
      simpa [Closing] using ih

/-! ### Numbers -/

/-- The request in the run that gave a literal its number, which is the first one that succeeded. The
number counts the distinct literals before it. -/
def FirstRequest (calls : List Call) (s : String) (id : Nat) : Prop :=
  ∃ before after, calls = before ++ .intern s :: after ∧ s ∉ interned {} before ∧
    s ∈ interned {} (before ++ [.intern s]) ∧ id = (interned {} before).dedup.length

theorem FirstRequest.append {calls : List Call} {s : String} {id : Nat}
    (h : FirstRequest calls s id) (later : List Call) : FirstRequest (calls ++ later) s id := by
  obtain ⟨before, after, rfl, hbefore, hfirst, hid⟩ := h
  exact ⟨before, after ++ later, by simp, hbefore, hfirst, hid⟩

/-- The literals of the pool are those of the requests that succeeded, each of them once and in the
order of their first requests. -/
structure Numbered (calls : List Call) (p : StringPool) : Prop where
  nodup : p.strings.Nodup
  mem_iff : ∀ s, s ∈ p.strings ↔ s ∈ interned {} calls
  first : ∀ id s, p.get? id = some s → FirstRequest calls s id

theorem Numbered.length_eq {calls : List Call} {p : StringPool} (h : Numbered calls p) :
    p.strings.length = (interned {} calls).dedup.length := by
  refine List.Perm.length_eq ((List.perm_ext_iff_of_nodup h.nodup (List.nodup_dedup _)).mpr ?_)
  intro s
  rw [List.mem_dedup, h.mem_iff]

/-- **What one call preserves.** -/
theorem Numbered.serve {calls : List Call} (h : Numbered calls (run {} calls)) (c : Call) :
    Numbered (calls ++ [c]) ((run {} calls).serve c) := by
  rcases serve_cases (run {} calls) c with ⟨hsame, hknown⟩ | ⟨value, rfl, hnew, hadded, hinterned⟩
  · refine ⟨hsame ▸ h.nodup, fun s => ?_, fun id s hs => ?_⟩
    · rw [hsame, interned_append, List.mem_append, ← h.mem_iff]
      exact ⟨Or.inl, fun hs => hs.elim id (hknown s)⟩
    · rw [get?, hsame] at hs
      exact (h.first id s hs).append [c]
  · have hlater : interned {} (calls ++ [.intern value]) = interned {} calls ++ [value] := by
      rw [interned_append, hinterned]
    refine ⟨?_, fun s => ?_, fun id s hs => ?_⟩
    · rw [hadded]
      exact List.nodup_append_comm.mp (List.nodup_cons.mpr ⟨hnew, h.nodup⟩)
    · rw [hadded, hlater, List.mem_append, List.mem_append, h.mem_iff]
    · rw [get?, hadded] at hs
      rcases getElem?_concat_eq_some.mp hs with hold | ⟨rfl, rfl⟩
      · exact (h.first id s hold).append [.intern value]
      · exact ⟨calls, [], rfl, fun hold => hnew ((h.mem_iff value).mpr hold), by simp [hlater],
          h.length_eq⟩

/-- **What a run leaves behind.** -/
theorem numbered_run (calls : List Call) : Numbered calls (run {} calls) := by
  induction calls using List.reverseRecOn with
  | nil => exact ⟨List.nodup_nil, fun _ => Iff.rfl, by simp [run, get?]⟩
  | append_singleton calls c ih =>
    rw [run_append]
    exact ih.serve c

theorem Numbered.idxOf_eq {calls : List Call} {p : StringPool} (h : Numbered calls p) {s : String}
    {id : Nat} (hs : p.get? id = some s) : id = p.strings.idxOf s := by
  obtain ⟨hlt, rfl⟩ := List.getElem?_eq_some_iff.mp hs
  exact (h.nodup.idxOf_getElem id hlt).symm

theorem serve_of_intern {p q : StringPool} {s : String} {id : Nat} (h : p.intern s = (.ok id, q)) :
    p.serve (.intern s) = q := by
  rw [serve, h]

theorem get?_of_intern {p q : StringPool} {s : String} {id : Nat} (h : p.intern s = (.ok id, q))
    (later : List Call) : (q.run later).get? id = some s :=
  get?_run (intern_eq_ok h).2.1 later

/-- **A string pool over whole runs.** After any calls, a request that succeeds gives the number of
distinct literals that were interned before the literal was interned first, and the literal keeps it.
Numbers from the length of the pool on have no literal. Before the pool is closed every request
succeeds. Afterwards those for known literals succeed, with the old number, all others fail and change
nothing, and asking again for the table fails, writes nothing and changes nothing. -/
theorem intern_over_runs (calls : List Call) (s : String) (data : DataSection) :
    let p := run {} calls
    (∀ id q, p.intern s = (.ok id, q) → FirstRequest (calls ++ [.intern s]) s id ∧
      ∀ later, (q.run later).get? id = some s) ∧
    (∀ id, p.strings.length ≤ id → p.get? id = none) ∧
    (¬ Closing calls → ∃ id q, p.intern s = (.ok id, q)) ∧
    (Closing calls →
      (s ∈ p.strings → ∃ id, p.intern s = (.ok id, p) ∧
        ∀ before after id' q, calls = before ++ .intern s :: after →
          (run {} before).intern s = (.ok id', q) → id' = id) ∧
      (s ∉ p.strings → p.intern s = (.error (.poolFinalized s), p) ∧ p.serve (.intern s) = p) ∧
      p.finalize data = (.error (.ofFault .finalizedTwice), p) ∧ p.sinkAfter data = data) := by
  intro p
  obtain ⟨hclosed, -⟩ := finalized_run calls
  refine ⟨fun id q hintern => ⟨?_, get?_of_intern hintern⟩, fun id hid => ?_, ?_, ?_⟩
  · have hnumbered := (numbered_run calls).serve (.intern s)
    exact hnumbered.first id s (serve_of_intern hintern ▸ get?_of_intern hintern [])
  · exact List.getElem?_eq_none hid
  · intro hopen
    by_cases hmem : s ∈ p.strings
    · exact ⟨_, _, intern_of_mem hmem⟩
    · have hfinalized : p.finalized = false := by
        rw [← hclosed] at hopen
        simpa using hopen
      exact ⟨_, _, by rw [intern_of_notMem hmem, hfinalized, if_neg Bool.false_ne_true]⟩
  · intro hcalls
    have hfinalized : p.finalized = true := hclosed.mpr hcalls
    refine ⟨fun hmem => ⟨_, intern_of_mem hmem, ?_⟩, fun hmem => ?_,
      finalize_of_finalized hfinalized data, ?_⟩
    · rintro before after id' q rfl hearlier
      have hp : p = q.run after := by
        rw [← serve_of_intern hearlier]
        exact run_append ..
      refine (numbered_run _).idxOf_eq ?_
      show p.get? id' = some s
      rw [hp]
      exact get?_of_intern hearlier after
    · have hrefused : p.intern s = (.error (.poolFinalized s), p) := by
        rw [intern_of_notMem hmem, hfinalized, if_pos rfl]
      exact ⟨hrefused, congrArg Prod.snd hrefused⟩
    · simp [sinkAfter, finalize_of_finalized hfinalized]

/-- Two literals, one of them asked for twice, and a third one once the pool has been written. -/
def closedEarly : List Call :=
  [.intern "ab", .intern "c", .intern "ab", .finalize ⟨[7]⟩, .intern "d"]

/-- The literal `c` has the number 1 for ever, `d` is refused and a second table is not written. -/
theorem intern_over_runs_closedEarly :
    let p := run {} closedEarly
    p.strings = ["ab", "c"] ∧ p.intern "c" = (.ok 1, p) ∧
      FirstRequest (closedEarly ++ [.intern "c"]) "c" 1 ∧
      (∀ later, (p.run later).get? 1 = some "c") ∧
      p.intern "d" = (.error (.poolFinalized "d"), p) ∧ p.serve (.intern "d") = p ∧
      p.sinkAfter ⟨[9]⟩ = ⟨[9]⟩ := by
  intro p
  have hstrings : p.strings = ["ab", "c"] := by decide +kernel
  have hintern : p.intern "c" = (.ok 1, p) := by decide +kernel
  obtain ⟨hnumber, -, -, -⟩ := intern_over_runs closedEarly "c" ⟨[9]⟩
  obtain ⟨-, -, -, hclosed⟩ := intern_over_runs closedEarly "d" ⟨[9]⟩
  obtain ⟨-, hrefused, -, hsink⟩ := hclosed ⟨⟨[7]⟩, by simp [closedEarly]⟩
  obtain ⟨hfirst, hget⟩ := hnumber 1 p hintern
  obtain ⟨herror, hsame⟩ := hrefused (by rw [hstrings]; decide)
  exact ⟨hstrings, hintern, hfirst, hget, herror, hsame, hsink⟩

end WasmBackend.StringPool
