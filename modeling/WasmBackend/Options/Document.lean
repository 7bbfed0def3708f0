import WasmBackend.Error
import WasmBackend.Options

/-! # Options documents

Options can be given as a TOML document. Every option is a flag or a text under a key of its own at
the top of the document, so a document that uses anything else of TOML (numbers, dates, arrays,
tables, dotted keys) is refused, like one that is malformed, names an unknown key, repeats a key or
gives a key a value of the wrong kind.

Lines end in a line feed, which may follow a carriage return. `toLines` drops these carriage
returns, and any other one is refused by every rule below. The reading functions take the rest of
the document and give what they read with the rest after it.

This reader stands for a general TOML library, of which it has what options need. No theorem is about
it: wherever options occur in a statement they are an arbitrary `Options`, however they were read. -/

namespace WasmBackend.Options

/-- The value of a key. -/
inductive Value
  | flag (b : Bool)
  | text (s : String)
  deriving DecidableEq

/-! ### Characters -/

/-- Space or tab. -/
def isBlank (c : Char) : Bool := c = ' ' || c = '\t'

/-- A character of a comment or a string: no control character but the tab. -/
def isText (c : Char) : Bool := c = '\t' || (32 ≤ c.toNat && c.toNat ≠ 127)

/-- A character of a key without quotes. -/
def isBare (c : Char) : Bool := c.isAlphanum || c = '-' || c = '_'

/-- The document with a line feed alone at every line end. -/
def toLines : List Char → List Char
  | '\r' :: '\n' :: rest => '\n' :: toLines rest
  | c :: rest => c :: toLines rest
  | [] => []

/-! ### Strings -/

/-- Value of a hexadecimal digit. -/
def hexValue? (c : Char) : Option Nat :=
  if '0' ≤ c ∧ c ≤ '9' then some (c.toNat - '0'.toNat)
  else if 'a' ≤ c ∧ c ≤ 'f' then some (c.toNat - 'a'.toNat + 10)
  else if 'A' ≤ c ∧ c ≤ 'F' then some (c.toNat - 'A'.toNat + 10)
  else none

/-- The character whose code point has these hexadecimal digits. -/
def hexChar? (digits : List Char) : Option Char := do
  let values ← digits.mapM hexValue?
  let code := values.foldl (fun n d => 16 * n + d) 0
  if code.isValidChar then some (Char.ofNat code) else none

/-- The character that a backslash and a letter stand for. -/
def escape? (c : Char) : Option Char :=
  match c with
  | 'b' => some '\x08'
  | 't' => some '\t'
  | 'n' => some '\n'
  | 'f' => some '\x0c'
  | 'r' => some '\r'
  | '"' => some '"'
  | '\\' => some '\\'
  | _ => none

/-- A character in front of what was read after it. -/
def consChar (c : Option Char) (read : Option (List Char × List Char)) :
    Option (List Char × List Char) := do
  let c ← c
  let (s, rest) ← read
  return (c :: s, rest)

/-- Rest of a string in double quotes. -/
def basicString : List Char → Option (List Char × List Char)
  | [] => none
  | '"' :: rest => some ([], rest)
  | '\\' :: 'u' :: a :: b :: c :: d :: rest => consChar (hexChar? [a, b, c, d]) (basicString rest)
  | '\\' :: 'U' :: a :: b :: c :: d :: e :: f :: g :: h :: rest =>
    consChar (hexChar? [a, b, c, d, e, f, g, h]) (basicString rest)
  | '\\' :: c :: rest => consChar (escape? c) (basicString rest)
  | c :: rest => if isText c then consChar c (basicString rest) else none

/-- Rest of a string in single quotes. -/
def literalString : List Char → Option (List Char × List Char)
  | [] => none
  | '\'' :: rest => some ([], rest)
  | c :: rest => if isText c then consChar c (literalString rest) else none

/-- Where a multi-line string stands after a backslash at the end of a line. -/
inductive Joining
  /-- No such backslash came before. -/
  | no
  /-- Only blanks came after the backslash; a line end has to follow. -/
  | beforeBreak
  /-- Blanks and line ends are skipped. -/
  | afterBreak
  deriving DecidableEq

/-- Rest of a string in three double quotes. One or two quotes inside it stand for themselves, also
right before the closing ones. -/
def multilineBasic : Joining → List Char → Option (List Char × List Char)
  | _, [] => none
  | .beforeBreak, c :: rest =>
    if c = '\n' then multilineBasic .afterBreak rest
    else if isBlank c then multilineBasic .beforeBreak rest
    else none
  | .afterBreak, ' ' :: rest | .afterBreak, '\t' :: rest | .afterBreak, '\n' :: rest =>
    multilineBasic .afterBreak rest
  | _, '"' :: '"' :: '"' :: '"' :: '"' :: rest => some (['"', '"'], rest)
  | _, '"' :: '"' :: '"' :: '"' :: rest => some (['"'], rest)
  | _, '"' :: '"' :: '"' :: rest => some ([], rest)
  | _, '\\' :: 'u' :: a :: b :: c :: d :: rest =>
    consChar (hexChar? [a, b, c, d]) (multilineBasic .no rest)
  | _, '\\' :: 'U' :: a :: b :: c :: d :: e :: f :: g :: h :: rest =>
    consChar (hexChar? [a, b, c, d, e, f, g, h]) (multilineBasic .no rest)
  | _, '\\' :: c :: rest =>
    if c = '\n' then multilineBasic .afterBreak rest
    else if isBlank c then multilineBasic .beforeBreak rest
    else consChar (escape? c) (multilineBasic .no rest)
  | _, c :: rest =>
    if isText c || c = '\n' then consChar c (multilineBasic .no rest) else none

/-- Rest of a string in three single quotes. One or two quotes inside it stand for themselves, also
right before the closing ones. -/
def multilineLiteral : List Char → Option (List Char × List Char)
  | [] => none
  | '\'' :: '\'' :: '\'' :: '\'' :: '\'' :: rest => some (['\'', '\''], rest)
  | '\'' :: '\'' :: '\'' :: '\'' :: rest => some (['\''], rest)
  | '\'' :: '\'' :: '\'' :: rest => some ([], rest)
  | c :: rest => if isText c || c = '\n' then consChar c (multilineLiteral rest) else none

/-! ### Keys and values -/

/-- Reads a key. -/
def key : List Char → Option (List Char × List Char)
  | '"' :: rest => basicString rest
  | '\'' :: rest => literalString rest
  | cs =>
    let bare := cs.takeWhile isBare
    if bare.isEmpty then none else some (bare, cs.dropWhile isBare)

/-- The text after a line end at the start of a multi-line string. -/
def dropBreak : List Char → List Char
  | '\n' :: rest => rest
  | cs => cs

/-- A string that was read, as a value. -/
def textValue (read : Option (List Char × List Char)) : Option (Value × List Char) :=
  read.map fun (s, rest) => (.text (String.ofList s), rest)

/-- Reads a value. -/
def value : List Char → Option (Value × List Char)
  | '"' :: '"' :: '"' :: rest => textValue (multilineBasic .no (dropBreak rest))
  | '"' :: rest => textValue (basicString rest)
  | '\'' :: '\'' :: '\'' :: rest => textValue (multilineLiteral (dropBreak rest))
  | '\'' :: rest => textValue (literalString rest)
  | 't' :: 'r' :: 'u' :: 'e' :: rest => some (.flag true, rest)
  | 'f' :: 'a' :: 'l' :: 's' :: 'e' :: rest => some (.flag false, rest)
  | _ => none

/-! ### Lines -/

/-- Reads the end of a line: blanks, perhaps a comment, and a line feed or the end of the document. -/
def lineEnd (cs : List Char) : Option (List Char) :=
  let afterComment :=
    match cs.dropWhile isBlank with
    | '#' :: rest => rest.dropWhile isText
    | rest => rest
  match afterComment with
  | [] => some []
  | '\n' :: rest => some rest
  | _ => none

/-- Reads a key and its value up to the end of the line. -/
def setting (cs : List Char) : Option ((String × Value) × List Char) := do
  let (name, rest) ← key cs
  match rest.dropWhile isBlank with
  | '=' :: rest => do
    let (v, rest) ← value (rest.dropWhile isBlank)
    let rest ← lineEnd rest
    return ((String.ofList name, v), rest)
  | _ => none

/-- Reads the settings of a document. -/
def settings (cs : List Char) : Option (List (String × Value)) :=
  match cs.dropWhile isBlank with
  | [] => some []
  | c :: cs' =>
    match (if c = '#' ∨ c = '\n' then (lineEnd (c :: cs')).map ([], ·)
      else (setting (c :: cs')).map fun (s, rest) => ([s], rest)) with
    | none => none
    | some (found, rest) =>
      if rest.length < cs.length then (settings rest).map (found ++ ·) else none
termination_by cs.length

/-! ### Options -/

/-- The options after one setting. -/
def set (options : Options) : String × Value → Option Options
  | ("use_gc", .flag b) => some { options with useGc := b }
  | ("debug_names", .flag b) => some { options with debugNames := b }
  | ("host_module", .text s) => some { options with hostModule := s }
  | ("string_table_class", .text s) => some { options with stringTableClass := s }
  | _ => none

/-- A list without repetitions. -/
def distinct : List String → Bool
  | [] => true
  | s :: rest => !rest.contains s && distinct rest

/-- Reads the options of a document; what it does not set has its default. A byte order mark at the
start is skipped. -/
def ofDocument (source : String) : Except CompileError Options :=
  let body :=
    match source.toList with
    | '\uFEFF' :: rest => rest
    | cs => cs
  let options := do
    let found ← settings (toLines body)
    if distinct (found.map Prod.fst) then found.foldlM set {} else none
  match options with
  | some options => .ok options
  | none => .error .config

end WasmBackend.Options
