import WasmBackend.Binary.Token
import WasmBackend.Proofs.StringTable

/-! # Token streams

Tokens are written one behind the other at the end of a buffer (`Token.writeAll`), and tokens of known
shapes are read one after the other (`ByteReader.readTokens`). A signed number of 32 bits is written as
the 64-bit number of the same value.

Nothing but its own bytes marks the end of a token. Still, whatever was written before and whatever
stands behind, a reader that is told the shapes gets the tokens back and stops at the end of what was
written (`readTokens_writeAll`). -/

namespace WasmBackend

namespace Token

/-- The token can be written: the length of a name in bytes is a word. -/
def Writable : Token → Prop
  | name s => (utf8 s).length < 0x100000000
  | _ => True

instance : DecidablePred Writable
  | name s => inferInstanceAs (Decidable ((utf8 s).length < 0x100000000))
  | byte _ | word32 _ | float32 _ | float64 _ | raw _ | varuint _ | varint _ | opcode _ =>
    .isTrue trivial

/-- The buffer with tokens behind it, written one after the other. -/
def writeAll (buffer : List UInt8) (tokens : List Token) : List UInt8 :=
  tokens.foldl (fun buffer t => buffer ++ t.encode) buffer

theorem writeAll_eq_append (buffer : List UInt8) (tokens : List Token) :
    writeAll buffer tokens = buffer ++ tokens.flatMap encode := by
  unfold writeAll
  induction tokens generalizing buffer with
  | nil => rw [List.foldl_nil, List.flatMap_nil, List.append_nil]
  | cons t rest ih => rw [List.foldl_cons, ih, List.flatMap_cons, List.append_assoc]

end Token

namespace ByteReader

/-- Reads tokens of the given shapes one after the other, until one cannot be read. -/
def readTokens (r : ByteReader) : List Token.Shape → Except DecodeError (List Token) × ByteReader
  | [] => (.ok [], r)
  | shape :: rest =>
    match r.readToken shape with
    | (.error e, next) => (.error e, next)
    | (.ok t, next) =>
      let (result, last) := next.readTokens rest
      (result.map (t :: ·), last)

theorem Recovers.tokenOf {α : Type} {read : ByteReader → Except DecodeError α × ByteReader}
    {bytes : List UInt8} {a : α} (h : Recovers read bytes a) (f : α → Token) :
    Recovers (fun r => tokenOf f (read r)) bytes (f a) := by
  intro pre post
  simp only [ByteReader.tokenOf, h pre post, Except.map]

theorem recovers_readToken {t : Token} (ht : t.Writable) :
    Recovers (readToken · t.shape) t.encode t := by
  cases t with
  | byte b => exact (recovers_readByte b).tokenOf .byte
  | word32 w => exact (recovers_readWord32 w).tokenOf .word32
  | float32 x => exact (recovers_readWord32 x.bits).tokenOf fun w => .float32 ⟨w⟩
  | float64 x => exact (recovers_readWord64 x.bits).tokenOf fun w => .float64 ⟨w⟩
  | raw bytes => exact (recovers_readBytes bytes).tokenOf .raw
  | varuint n =>
    have hread := (recovers_readVaruint n.toNat_lt).tokenOf .varuint
    rw [UInt32.ofNat_toNat] at hread
    exact hread
  | varint v => exact (recovers_readVarint v).tokenOf .varint
  | name s => exact (recovers_readName ht).tokenOf .name
  | opcode op => exact (recovers_readOpcode op).tokenOf .opcode

theorem recovers_readTokens {tokens : List Token} (h : ∀ t ∈ tokens, t.Writable) :
    Recovers (readTokens · (tokens.map Token.shape)) (tokens.flatMap Token.encode) tokens := by
  induction tokens with
  | nil =>
    intro pre post
    rfl
  | cons t rest ih =>
    rw [List.forall_mem_cons] at h
    intro pre post
    -- what was written before a token is all that stands before it
    have hfirst := recovers_readToken h.1 pre (rest.flatMap Token.encode ++ post)
    have hrest := ih h.2 (pre ++ t.encode) post
    simp only [List.append_assoc, List.length_append] at hfirst hrest
    simp only [List.map_cons, List.flatMap_cons, readTokens, List.append_assoc, List.length_append,
      hfirst, hrest, Except.map, Nat.add_assoc]

/-- **Reading undoes writing on whole token streams.** Tokens that are written at the end of any
buffer are read back by their shapes, whatever bytes follow, and the reader ends where the writer
did. -/
theorem readTokens_writeAll {tokens : List Token} (h : ∀ t ∈ tokens, t.Writable)
    (buffer rest : List UInt8) :
    readTokens ⟨Token.writeAll buffer tokens ++ rest, buffer.length⟩ (tokens.map Token.shape) =
      (.ok tokens,
        ⟨Token.writeAll buffer tokens ++ rest, (Token.writeAll buffer tokens).length⟩) := by
  rw [Token.writeAll_eq_append, List.length_append]
  exact recovers_readTokens h buffer rest

/-- Encodings of many lengths: a number of ten bytes, opcodes with a lead byte, a quiet NaN and a name
of six bytes, in which no two characters take the same number of them. -/
def mixedTokens : List Token :=
  [.varint (-9223372036854775808), .opcode .i32TruncSatF64S, .varint (Int32.toInt64 (-65)),
    .float32 ⟨0x7FC00001⟩, .name "xé€", .raw [0x80, 0xFF], .varuint 4294967295, .opcode .structGet,
    .word32 0x80808080, .byte 0x80]

/-- These tokens are read back from between other bytes that could continue them. -/
theorem readTokens_mixedTokens :
    (∀ t ∈ mixedTokens, t.Writable) ∧ (Token.writeAll [0xFB] mixedTokens).length = 40 ∧
      readTokens ⟨Token.writeAll [0xFB] mixedTokens ++ [0x7F], 1⟩ (mixedTokens.map Token.shape) =
        (.ok mixedTokens, ⟨Token.writeAll [0xFB] mixedTokens ++ [0x7F], 40⟩) := by
  have hwritable : ∀ t ∈ mixedTokens, t.Writable := by decide +kernel
  have hlength : (Token.writeAll [0xFB] mixedTokens).length = 40 := by decide +kernel
  have hread := readTokens_writeAll hwritable [0xFB] [0x7F]
  rw [hlength] at hread
  exact ⟨hwritable, hlength, hread⟩

end ByteReader

end WasmBackend
