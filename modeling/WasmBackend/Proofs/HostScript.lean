import WasmBackend.ArrayProfile
import WasmBackend.Proofs.FloatRounding

/-! # Scripts of the host

A helper of the host is an arrow function in the text of its script. This module reads such a text
and runs it on a heap of records and typed buffers.

* `Value`, `Object`: numbers are 64-bit floats, a buffer holds the bit patterns of its elements;
* `BufferKind.store`, `BufferKind.load`: what a typed buffer does to a value;
* `Script.parse`, `Script.run`: the meaning of the text of a script. -/

namespace WasmBackend.Host

/-! ### Values and buffers -/

/-- A value of the host. -/
inductive Value
  | undefined
  | number (x : F64)
  | bigInt (v : Int)
  | object (address : Nat)
  deriving DecidableEq

/-- Kinds of typed buffers. -/
inductive BufferKind
  | int8 | uint8 | int16 | uint16 | int32 | bigInt64 | float32 | float64
  deriving DecidableEq

/-- An object of the host. -/
inductive Object
  /-- Numbered fields; of two entries for one field the first counts. -/
  | record (fields : List (Nat × Value))
  /-- Bit patterns of the elements. -/
  | buffer (kind : BufferKind) (elements : List Nat)
  deriving DecidableEq

/-- The objects of the host, by address. -/
abbrev Heap := List Object

/-- The integer part of a number, modulo a power of two; a NaN or an infinity gives zero. -/
def toWord (bits : Nat) : FloatValue → Nat
  | .finite negative significand exponent =>
    let n : Int := FloatValue.integerPart significand exponent
    ((if negative then -n else n) % (Nat.pow 2 bits : Nat)).toNat
  | _ => 0

/-- The value as a number. -/
def Value.toNumber? : Value → Option F64
  | undefined => some (F64.round (.nan false))
  | number x => some x
  | _ => none

/-- The value as an index: a number that is a natural number. -/
def Value.index? : Value → Option Nat
  | number x =>
    match x.value with
    | .finite _ significand exponent =>
      let n := FloatValue.integerPart significand exponent
      if x = F64.ofInt n then some n else none
    | _ => none
  | _ => none

namespace BufferKind

/-- Bits of an element. -/
def bits : BufferKind → Nat
  | int8 | uint8 => 8
  | int16 | uint16 => 16
  | int32 | float32 => 32
  | bigInt64 | float64 => 64

/-- The pattern of an element after a value is assigned to it. An integer loses its upper bits and a
number is rounded to the type of the element. -/
def store (kind : BufferKind) (v : Value) : Option Nat :=
  match kind with
  | bigInt64 =>
    match v with
    | .bigInt n => some (n % (Nat.pow 2 kind.bits : Nat)).toNat
    | _ => none
  | float32 => v.toNumber?.map fun x => (F32.round x.value).bits.toNat
  | float64 => v.toNumber?.map fun x => (F64.round x.value).bits.toNat
  | int8 | uint8 | int16 | uint16 | int32 => v.toNumber?.map fun x => toWord kind.bits x.value

/-- The value of an element. -/
def load (kind : BufferKind) (pattern : Nat) : Value :=
  match kind with
  | int8 | int16 | int32 => .number (F64.ofInt (Int.bmod pattern (Nat.pow 2 kind.bits)))
  | uint8 | uint16 => .number (F64.ofInt pattern)
  | bigInt64 => .bigInt (Int.bmod pattern (Nat.pow 2 kind.bits))
  | float32 => .number (F64.round (F32.value ⟨UInt32.ofNat pattern⟩))
  | float64 => .number ⟨UInt64.ofNat pattern⟩

end BufferKind

/-- The field or element of an object. -/
def readField (heap : Heap) (object key : Value) : Option Value :=
  match object, key.index? with
  | .object address, some index =>
    match heap[address]? with
    | some (.record fields) => some ((fields.lookup index).getD .undefined)
    | some (.buffer kind elements) => some ((elements[index]?.map kind.load).getD .undefined)
    | none => none
  | _, _ => none

/-- The heap after an assignment to a field or element of an object. An element beyond the buffer is
not stored. -/
def writeField (heap : Heap) (object key v : Value) : Option Heap :=
  match object, key.index? with
  | .object address, some index =>
    match heap[address]? with
    | some (.record fields) => some (heap.set address (.record ((index, v) :: fields)))
    | some (.buffer kind elements) =>
      (kind.store v).map fun pattern =>
        heap.set address (.buffer kind (elements.set index pattern))
    | none => none
  | _, _ => none

/-- The number of elements of a buffer. -/
def bufferLength (heap : Heap) : Value → Option Value
  | .object address =>
    match heap[address]? with
    | some (.buffer _ elements) => some (.number (F64.ofInt elements.length))
    | _ => none
  | _ => none

/-! ### Expressions -/

/-- Expressions of the scripts. -/
inductive Expr
  | var (name : String)
  | number (n : Nat)
  | emptyRecord
  | withField (record : Expr) (key : Nat) (value : Expr)
  | sealed (object : Expr)
  | newBuffer (kind : BufferKind) (size : Expr)
  | index (object key : Expr)
  | length (buffer : Expr)
  | assign (object key value : Expr)
  deriving DecidableEq

/-- The value of an expression and the heap after it. Operands are evaluated from left to right. A
sealed object cannot get other fields, but those that it has are read and written as before. -/
def Expr.eval (env : List (String × Value)) : Expr → Heap → Option (Value × Heap)
  | var name, heap => (env.lookup name).map (·, heap)
  | number n, heap => some (.number (F64.ofInt n), heap)
  | emptyRecord, heap => some (.object heap.length, heap ++ [.record []])
  | withField record key value, heap => do
    let (object, heap) ← record.eval env heap
    let (v, heap) ← value.eval env heap
    let heap ← writeField heap object (.number (F64.ofInt key)) v
    return (object, heap)
  | sealed object, heap => object.eval env heap
  | newBuffer kind size, heap => do
    let (n, heap) ← size.eval env heap
    let n ← n.index?
    return (.object heap.length, heap ++ [.buffer kind (List.replicate n 0)])
  | index object key, heap => do
    let (o, heap) ← object.eval env heap
    let (k, heap) ← key.eval env heap
    let v ← readField heap o k
    return (v, heap)
  | length buffer, heap => do
    let (o, heap) ← buffer.eval env heap
    let n ← bufferLength heap o
    return (n, heap)
  | assign object key value, heap => do
    let (o, heap) ← object.eval env heap
    let (k, heap) ← key.eval env heap
    let (v, heap) ← value.eval env heap
    let heap ← writeField heap o k v
    return (v, heap)

/-! ### The text of a script -/

/-- Words and signs of a script. -/
inductive Token
  | number (n : Nat)
  | name (s : String)
  | kind (k : BufferKind)
  | new | object | sealing | length
  | sign (c : Char)
  deriving DecidableEq

/-- The token of a word. -/
def Token.ofWord (word : List Char) : Token :=
  match ofDecimal? word with
  | some n => .number n
  | none =>
    match String.ofList word with
    | "new" => .new
    | "Object" => .object
    | "seal" => .sealing
    | "length" => .length
    | "Int8Array" => .kind .int8
    | "Uint8Array" => .kind .uint8
    | "Int16Array" => .kind .int16
    | "Uint16Array" => .kind .uint16
    | "Int32Array" => .kind .int32
    | "BigInt64Array" => .kind .bigInt64
    | "Float32Array" => .kind .float32
    | "Float64Array" => .kind .float64
    | s => .name s

/-- The token of a group of characters; a blank has none. -/
def Token.ofGroup? (group : List Char) : Option Token :=
  match group with
  | [c] =>
    if c.isAlphanum then some (ofWord group) else if c = ' ' then none else some (.sign c)
  | _ => some (ofWord group)

/-- One more character in front of the groups: letters and digits that stand together are one group,
every other character is a group of its own. -/
def addChar (c : Char) : List (List Char) → List (List Char)
  | (d :: word) :: groups =>
    if c.isAlphanum && d.isAlphanum then (c :: d :: word) :: groups else [c] :: (d :: word) :: groups
  | groups => [c] :: groups

/-- The tokens of a text. -/
def tokens (text : List Char) : List Token :=
  (text.foldr addChar []).filterMap Token.ofGroup?

-- The depth of a text is less than twice the number of its tokens, which bounds the recursion.
mutual

/-- An expression, and what follows it. -/
def readExpr : Nat → List Token → Option (Expr × List Token)
  | 0, _ => none
  | fuel + 1, text => do
    let (e, text) ← readOperand fuel text
    readSuffixes fuel e text

/-- An expression without suffixes. -/
def readOperand : Nat → List Token → Option (Expr × List Token)
  | 0, _ => none
  | _ + 1, .number n :: text => some (.number n, text)
  | _ + 1, .name s :: text => some (.var s, text)
  | fuel + 1, .sign '\x7b' :: text => readFields fuel .emptyRecord text
  | fuel + 1, .new :: .kind k :: .sign '(' :: text => do
    let (n, text) ← readExpr fuel text
    match text with
    | .sign ')' :: text => some (.newBuffer k n, text)
    | _ => none
  | fuel + 1, .object :: .sign '.' :: .sealing :: .sign '(' :: text => do
    let (e, text) ← readExpr fuel text
    match text with
    | .sign ')' :: text => some (.sealed e, text)
    | _ => none
  | _ + 1, _ => none

/-- Indices, `.length` and an assignment after an expression. -/
def readSuffixes : Nat → Expr → List Token → Option (Expr × List Token)
  | 0, _, _ => none
  | fuel + 1, e, .sign '[' :: text => do
    let (key, text) ← readExpr fuel text
    match text with
    | .sign ']' :: text => readSuffixes fuel (.index e key) text
    | _ => none
  | fuel + 1, e, .sign '.' :: .length :: text => readSuffixes fuel (.length e) text
  | fuel + 1, .index object key, .sign '=' :: text => do
    let (value, text) ← readExpr fuel text
    some (.assign object key value, text)
  | _ + 1, e, text => some (e, text)

/-- The fields of a record up to its closing brace. -/
def readFields : Nat → Expr → List Token → Option (Expr × List Token)
  | 0, _, _ => none
  | fuel + 1, record, .number key :: .sign ':' :: text => do
    let (value, text) ← readExpr fuel text
    match text with
    | .sign ',' :: text => readFields fuel (.withField record key value) text
    | .sign '\x7d' :: text => some (.withField record key value, text)
    | _ => none
  | _ + 1, _, _ => none

end

/-- Names up to a closing parenthesis, divided by commas. -/
def readParams : List Token → Option (List String × List Token)
  | .name s :: .sign ',' :: text => (readParams text).map fun (names, text) => (s :: names, text)
  | .name s :: .sign ')' :: text => some ([s], text)
  | _ => none

/-- An arrow function. -/
structure Script where
  params : List String
  body : Expr
  deriving DecidableEq

namespace Script

/-- The script whose tokens are given. -/
def ofTokens? : List Token → Option Script
  | .sign '(' :: text =>
    match readParams text with
    | some (params, .sign '=' :: .sign '>' :: text) =>
      match readExpr (2 * text.length) text with
      | some (body, []) => some { params, body }
      | _ => none
    | _ => none
  | _ => none

/-- The script with the given text. -/
def parse (text : String) : Option Script := ofTokens? (tokens text.toList)

/-- The result of a script on the given arguments, and the heap after it. -/
def run (s : Script) (args : List Value) (heap : Heap) : Option (Value × Heap) :=
  s.body.eval (s.params.zip args) heap

/-- The script that reads an element. -/
def get : Script := ⟨["a", "i"], .index (.index (.var "a") (.number 2)) (.var "i")⟩

/-- The script that assigns to an element. -/
def set : Script :=
  ⟨["a", "i", "v"], .assign (.index (.var "a") (.number 2)) (.var "i") (.var "v")⟩

/-- The script that gives the length of an array. -/
def len : Script := ⟨["a"], .length (.index (.var "a") (.number 2))⟩

/-- The script that allocates an array with the given vtable. -/
def allocation (vtable : Nat) (kind : BufferKind) : Script :=
  ⟨["l"], .sealed (.withField (.withField (.withField .emptyRecord 0 (.number vtable)) 1 (.number 0))
    2 (.newBuffer kind (.var "l")))⟩

theorem parse_get : parse "(a,i)=>a[2][i]" = some get := by decide +kernel

theorem parse_set : parse "(a,i,v)=>a[2][i]=v" = some set := by decide +kernel

theorem parse_len : parse "(a)=>a[2].length" = some len := by decide +kernel

end Script

/-! ### A numeral inside a text -/

theorem addChar_of_not_alphanum {c : Char} (hc : c.isAlphanum = false) (groups : List (List Char)) :
    addChar c groups = [c] :: groups := by
  unfold addChar
  split
  · rw [if_neg (by simp [hc])]
  · rfl

theorem addChar_append (c : Char) {front : List (List Char)} (h : front ≠ [])
    (back : List (List Char)) :
    addChar c (front ++ back) = addChar c front ++ back ∧ addChar c front ≠ [] := by
  obtain ⟨group, groups, rfl⟩ := List.exists_cons_of_ne_nil h
  rcases group with - | ⟨d, word⟩
  · exact ⟨rfl, List.cons_ne_nil _ _⟩
  · by_cases hword : c.isAlphanum && d.isAlphanum <;> simp [addChar, hword]

theorem tokens_append {before : List Char} {c : Char} (hlast : before.getLast? = some c)
    (hc : c.isAlphanum = false) (after : List Char) :
    tokens (before ++ after) = tokens before ++ tokens after := by
  obtain ⟨init, rfl⟩ := List.getLast?_eq_some_iff.mp hlast
  have hgroups : (init ++ [c] ++ after).foldr addChar [] =
      (init ++ [c]).foldr addChar [] ++ after.foldr addChar [] ∧
      (init ++ [c]).foldr addChar [] ≠ [] := by
    clear hlast
    induction init with
    | nil => simp [addChar_of_not_alphanum hc]
    | cons d init ih =>
      obtain ⟨hsplit, hne⟩ := ih
      simp only [List.cons_append, List.foldr_cons, hsplit]
      exact addChar_append d hne _
  rw [tokens, hgroups.1, List.filterMap_append]
  rfl

theorem ofDecimal?_toDigits (n : Nat) : ofDecimal? (Nat.toDigits 10 n) = some n := by
  have hdigits : (Nat.toDigits 10 n).all Char.isDigit = true :=
    List.all_eq_true.mpr fun c hc => Nat.isDigit_of_mem_toDigits (by decide) (by decide) hc
  have hne : (Nat.toDigits 10 n).isEmpty = false := by simp [Nat.toDigits_ne_nil]
  rw [ofDecimal?, hdigits, hne]
  exact congrArg some Nat.ofDigitChars_ten_toDigits

theorem foldr_addChar_word {word : List Char} (hword : ∀ c ∈ word, c.isAlphanum) (hne : word ≠ [])
    {c : Char} (hc : c.isAlphanum = false) (groups : List (List Char)) :
    word.foldr addChar ([c] :: groups) = word :: [c] :: groups := by
  induction word with
  | nil => exact absurd rfl hne
  | cons d word ih =>
    rcases word with - | ⟨d', word⟩
    · simp [addChar, hc]
    · have hd : d.isAlphanum := hword d (by simp)
      have hd' : d'.isAlphanum := hword d' (by simp)
      rw [List.foldr_cons, ih (fun c hc => hword c (by simp_all)) (by simp)]
      simp [addChar, hd, hd']

theorem tokens_numeral (n : Nat) {after : List Char} {c : Char} (hhead : after.head? = some c)
    (hc : c.isAlphanum = false) :
    tokens (Nat.toDigits 10 n ++ after) = .number n :: tokens after := by
  obtain ⟨rest, rfl⟩ := List.head?_eq_some_iff.mp hhead
  have hword : ∀ d ∈ Nat.toDigits 10 n, d.isAlphanum := by
    intro d hd
    have := Nat.isDigit_of_mem_toDigits (by decide) (by decide) hd
    simp [Char.isAlphanum, this]
  have htoken : Token.ofGroup? (Nat.toDigits 10 n) = some (.number n) := by
    have hof : Token.ofWord (Nat.toDigits 10 n) = .number n := by
      rw [Token.ofWord, ofDecimal?_toDigits]
    unfold Token.ofGroup?
    split
    · next d hd =>
      rw [if_pos (hword d (by simp [hd])), hof]
    · rw [hof]
  unfold tokens
  rw [List.foldr_append, List.foldr_cons, addChar_of_not_alphanum hc,
    foldr_addChar_word hword Nat.toDigits_ne_nil hc, List.filterMap_cons, htoken]

/-- The kind of buffer for the elements of a type. -/
def BufferKind.ofType? : ValueType → Option BufferKind
  | .i8 => some int8
  | .bool => some uint8
  | .i16 => some int16
  | .u16 => some uint16
  | .i32 => some int32
  | .i64 => some bigInt64
  | .f32 => some float32
  | .f64 => some float64
  | _ => none

theorem toList_numeral (before after : String) (n : Nat) :
    (before ++ toString n ++ after).toList =
      before.toList ++ (Nat.toDigits 10 n ++ after.toList) := by
  simp

theorem append_hostObject (front vtable buffer : String) :
    front ++ ArrayProfile.hostObject vtable buffer =
      (front ++ "Object.seal(\x7b0:") ++ vtable ++ (",1:0,2:" ++ buffer ++ "\x7d)") := by
  unfold ArrayProfile.hostObject
  simp only [String.append_assoc]

theorem Script.parse_new (vtable : Nat) {ty : ValueType} {kind : BufferKind}
    (h : BufferKind.ofType? ty = some kind) :
    parse ("(l)=>" ++ ArrayProfile.hostObject (toString vtable) (ArrayProfile.hostBuffer (.value ty))) =
      some (allocation vtable kind) := by
  have hjoined : "(l)=>" ++ "Object.seal(\x7b0:" = "(l)=>Object.seal(\x7b0:" := by decide +kernel
  have hfront : tokens "(l)=>Object.seal(\x7b0:".toList =
      [.sign '(', .name "l", .sign ')', .sign '=', .sign '>', .object, .sign '.', .sealing,
        .sign '(', .sign '\x7b', .number 0, .sign ':'] := by
    decide +kernel
  have hback : tokens (",1:0,2:" ++ ArrayProfile.hostBuffer (.value ty) ++ "\x7d)").toList =
      [.sign ',', .number 1, .sign ':', .number 0, .sign ',', .number 2, .sign ':', .new,
        .kind kind, .sign '(', .name "l", .sign ')', .sign '\x7d', .sign ')'] ∧
      (",1:0,2:" ++ ArrayProfile.hostBuffer (.value ty) ++ "\x7d)").toList.head? = some ',' := by
    cases ty <;> cases h <;> decide +kernel
  have hlast : "(l)=>Object.seal(\x7b0:".toList.getLast? = some ':' := by decide +kernel
  rw [parse, append_hostObject, hjoined, toList_numeral, tokens_append hlast (by decide),
    tokens_numeral vtable hback.2 (by decide), hfront, hback.1]
  rfl

/-! ### Running the scripts -/

theorem toWord_ofInt (bits : Nat) {n : Int} (h : n.natAbs < 2 ^ 53) :
    toWord bits (F64.ofInt n).value = (n % (Nat.pow 2 bits : Nat)).toNat := by
  obtain ⟨k, hvalue⟩ := F64.value_ofInt h
  have hpart : FloatValue.integerPart n.natAbs 0 = n.natAbs := by
    simp [FloatValue.integerPart]
  rw [hvalue, toWord, FloatValue.integerPart_scale, hpart]
  congr 2
  by_cases hn : n < 0
  · simp only [hn, decide_true, if_true]
    omega
  · simp only [hn, decide_false, Bool.false_eq_true, if_false]
    omega

theorem index?_ofInt {n : Nat} (h : n < 2 ^ 53) : (Value.number (F64.ofInt n)).index? = some n := by
  obtain ⟨k, hvalue⟩ := F64.value_ofInt (n := (n : Int)) (by simpa using h)
  have hpart : FloatValue.integerPart (n * 2 ^ k) (0 - k) = n := by
    rw [FloatValue.integerPart_scale]
    simp [FloatValue.integerPart]
  rw [Int.natAbs_natCast] at hvalue
  simp only [Value.index?, hvalue, hpart, if_true]

theorem getElem?_set_of_ne {α : Type} {objects : List α} {i j : Nat} {x y : α}
    (hi : objects[i]? = some x) (hj : objects[j]? = some y) (hne : x ≠ y) (z : α) :
    (objects.set j z)[i]? = some x ∧ (objects.set j z)[j]? = some z := by
  obtain ⟨hlt, -⟩ := List.getElem?_eq_some_iff.mp hj
  have hplaces : j ≠ i := by
    rintro rfl
    rw [hi] at hj
    exact hne (Option.some.inj hj)
  constructor
  · rw [List.getElem?_set_ne hplaces, hi]
  · rw [List.getElem?_set_self hlt]

/-- The object at an address is an array, with its buffer at another address. -/
structure IsArray (heap : Heap) (address bufferAddress : Nat) (kind : BufferKind)
    (elements : List Nat) : Prop where
  record : ∃ fields, heap[address]? = some (.record fields) ∧
    fields.lookup 2 = some (.object bufferAddress)
  buffer : heap[bufferAddress]? = some (.buffer kind elements)

namespace IsArray

variable {heap : Heap} {a b : Nat} {kind : BufferKind} {elements : List Nat}

theorem eval_buffer (h : IsArray heap a b kind elements) {env : List (String × Value)}
    (henv : env.lookup "a" = some (.object a)) :
    (Expr.index (.var "a") (.number 2)).eval env heap = some (.object b, heap) := by
  obtain ⟨fields, hrecord, hfield⟩ := h.record
  have hread : readField heap (.object a) (.number (F64.ofInt ((2 : Nat) : Int))) =
      some (.object b) := by
    simp only [readField, index?_ofInt (by decide : 2 < 2 ^ 53), hrecord, hfield, Option.getD_some]
  simp only [Expr.eval, henv, Option.map_some, Option.bind_eq_bind, Option.bind_some, hread]
  rfl

theorem run_get (h : IsArray heap a b kind elements) {i p : Nat} (hi : i < 2 ^ 53)
    (hp : elements[i]? = some p) :
    Script.get.run [.object a, .number (F64.ofInt i)] heap = some (kind.load p, heap) := by
  have hread : readField heap (.object b) (.number (F64.ofInt i)) = some (kind.load p) := by
    simp only [readField, index?_ofInt hi, h.buffer, hp, Option.map_some, Option.getD_some]
  rw [Script.run, Script.get, Expr.eval, h.eval_buffer rfl]
  simp [Expr.eval, List.lookup_cons, hread]

theorem run_len (h : IsArray heap a b kind elements) :
    Script.len.run [.object a] heap = some (.number (F64.ofInt elements.length), heap) := by
  rw [Script.run, Script.len, Expr.eval, h.eval_buffer rfl]
  simp [bufferLength, h.buffer]

theorem run_set (h : IsArray heap a b kind elements) {i p : Nat} (hi : i < 2 ^ 53) {v : Value}
    (hp : kind.store v = some p) :
    Script.set.run [.object a, .number (F64.ofInt i), v] heap =
      some (v, heap.set b (.buffer kind (elements.set i p))) := by
  have hwrite : writeField heap (.object b) (.number (F64.ofInt i)) v =
      some (heap.set b (.buffer kind (elements.set i p))) := by
    simp only [writeField, index?_ofInt hi, h.buffer, hp, Option.map_some]
  rw [Script.run, Script.set, Expr.eval, h.eval_buffer rfl]
  simp [Expr.eval, List.lookup_cons, hwrite]

theorem set_buffer (h : IsArray heap a b kind elements) (elements' : List Nat) :
    IsArray (heap.set b (.buffer kind elements')) a b kind elements' := by
  obtain ⟨fields, hrecord, hfield⟩ := h.record
  obtain ⟨hkept, hwritten⟩ := getElem?_set_of_ne hrecord h.buffer (by simp) (.buffer kind elements')
  exact ⟨⟨fields, hkept, hfield⟩, hwritten⟩

end IsArray

theorem eval_withField {env : List (String × Value)} {record : Expr} {heap rest : Heap}
    {fields : List (Nat × Value)} {key : Nat} (hkey : key < 2 ^ 53) (value : Expr) {v : Value}
    (hrecord : record.eval env heap = some (.object heap.length, heap ++ [.record fields]))
    (hvalue : value.eval env (heap ++ [.record fields]) = some (v, heap ++ .record fields :: rest)) :
    (Expr.withField record key value).eval env heap =
      some (.object heap.length, heap ++ .record ((key, v) :: fields) :: rest) := by
  have hwrite : writeField (heap ++ .record fields :: rest) (.object heap.length)
      (.number (F64.ofInt key)) v = some (heap ++ .record ((key, v) :: fields) :: rest) := by
    simp [writeField, index?_ofInt hkey]
  simp only [Expr.eval, hrecord, hvalue, Option.bind_eq_bind, Option.bind_some, hwrite]
  rfl

theorem run_allocation (vtable : Nat) (kind : BufferKind) {n : Nat} (hn : n < 2 ^ 53) (heap : Heap) :
    ∃ heap', (Script.allocation vtable kind).run [.number (F64.ofInt n)] heap =
        some (.object heap.length, heap') ∧
      IsArray heap' heap.length (heap.length + 1) kind (List.replicate n 0) := by
  let env : List (String × Value) := [("l", .number (F64.ofInt n))]
  have hbuffer (fields : List (Nat × Value)) :
      (Expr.newBuffer kind (.var "l")).eval env (heap ++ [.record fields]) =
        some (.object (heap.length + 1),
          heap ++ [.record fields, .buffer kind (List.replicate n 0)]) := by
    simp [Expr.eval, env, index?_ofInt hn]
  have hempty : Expr.emptyRecord.eval env heap =
      some (.object heap.length, heap ++ [.record []]) := rfl
  have hvtable := eval_withField (by decide : 0 < 2 ^ 53) (.number vtable) hempty rfl
  have hhash := eval_withField (by decide : 1 < 2 ^ 53) (.number 0) hvtable rfl
  have hrecord := eval_withField (by decide : 2 < 2 ^ 53) _ hhash (hbuffer _)
  have hget (object : Object) (rest : Heap) :
      (heap ++ object :: rest)[heap.length]? = some object := by simp
  exact ⟨_, hrecord, ⟨_, hget _ _, rfl⟩, by simp⟩

end WasmBackend.Host
