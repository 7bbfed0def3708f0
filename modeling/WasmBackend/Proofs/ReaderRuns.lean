import WasmBackend.Proofs.NumbersAtOffset
import WasmBackend.Proofs.TokenStreams

/-! # Runs of a reader

A reader is asked for tokens of any shapes, one after the other, whatever the bytes are and whether
or not it gets them. An operation looks at nothing but the bytes that are left (`Confined`): a front
of them decides the outcome, wherever it stands and whatever follows it, or the operation finds that
they end too early. So no operation leaves the bytes, however a name or an opcode fails halfway
(`reads_over_runs`). -/

namespace WasmBackend.ByteReader

open Leb128 (EndsAt)

/-! ### What an operation looks at -/

/-- What an operation does at a position behind which the bytes `rest` stand. -/
inductive Confined {α : Type} (read : ByteReader → Except DecodeError α × ByteReader)
    (rest : List UInt8) : Prop
  /-- It reads a front of the bytes. -/
  | done {used post : List UInt8} {a : α} (split : rest = used ++ post)
      (recovers : Recovers read used a)
  /-- It refuses a front of the bytes, and may have moved past some of it. -/
  | refused {used post : List UInt8} (e : Nat → DecodeError) (count : Nat)
      (split : rest = used ++ post) (count_le : count ≤ used.length)
      (fails : ∀ pre post', read ⟨pre ++ used ++ post', pre.length⟩ =
        (.error (e pre.length), ⟨pre ++ used ++ post', pre.length + count⟩))
  /-- It finds that a byte is missing. -/
  | short (missing count : Nat) (count_le : count ≤ missing) (missing_le : missing ≤ rest.length)
      (fails : ∀ pre, read ⟨pre ++ rest, pre.length⟩ =
        (.error (.unexpectedEnd (pre.length + missing)), ⟨pre ++ rest, pre.length + count⟩))

section Confined

variable {α β : Type} {read : ByteReader → Except DecodeError α × ByteReader} {rest : List UInt8}

/-- **An operation does not leave the bytes.** -/
theorem Confined.exists_advance (h : Confined read rest) (pre : List UInt8) :
    ∃ result count, read ⟨pre ++ rest, pre.length⟩ =
      (result, ⟨pre ++ rest, pre.length + count⟩) ∧ count ≤ rest.length := by
  cases h with
  | @done used post a split recovers =>
    subst split
    refine ⟨.ok a, used.length, ?_, (List.prefix_append used post).length_le⟩
    rw [← List.append_assoc]
    exact recovers pre post
  | @refused used post e count split count_le fails =>
    subst split
    refine ⟨.error (e pre.length), count, ?_,
      count_le.trans (List.prefix_append used post).length_le⟩
    rw [← List.append_assoc]
    exact fails pre post
  | short missing count count_le missing_le fails =>
    exact ⟨_, count, fails pre, count_le.trans missing_le⟩

/-- Reads something and decodes it. What cannot be decoded is an error at a position that is known
from where the operation started. -/
def decoding (read : ByteReader → Except DecodeError α × ByteReader)
    (decode : α → Except (Nat → DecodeError) β) (r : ByteReader) :
    Except DecodeError β × ByteReader :=
  ((read r).1.bind fun a => (decode a).mapError (· r.position), (read r).2)

theorem Confined.decoding (h : Confined read rest) (decode : α → Except (Nat → DecodeError) β) :
    Confined (decoding read decode) rest := by
  cases h with
  | @done used post a split recovers =>
    cases hdecode : decode a with
    | ok b =>
      refine .done (a := b) split fun pre post' => ?_
      simp only [ByteReader.decoding, recovers pre post', Except.bind, hdecode]
      rfl
    | error e =>
      refine .refused e used.length split (Nat.le_refl _) fun pre post' => ?_
      simp only [ByteReader.decoding, recovers pre post', Except.bind, hdecode]
      rfl
  | refused e count split count_le fails =>
    refine .refused e count split count_le fun pre post' => ?_
    simp only [ByteReader.decoding, fails pre post', Except.bind]
  | short missing count count_le missing_le fails =>
    refine .short missing count count_le missing_le fun pre => ?_
    simp only [ByteReader.decoding, fails pre, Except.bind]

theorem Confined.map (h : Confined read rest) {f : α → β}
    {read' : ByteReader → Except DecodeError β × ByteReader}
    (hread : ∀ r, read' r = ((read r).1.map f, (read r).2)) : Confined read' rest := by
  have heq : read' = ByteReader.decoding read fun a => .ok (f a) := by
    funext r
    rw [hread, ByteReader.decoding]
    cases (read r).1 <;> rfl
  rw [heq]
  exact h.decoding _

/-- An operation that has read a front of the bytes and goes on with another operation. -/
theorem Confined.behind (h : Confined read rest) (front : List UInt8)
    {read' : ByteReader → Except DecodeError α × ByteReader}
    (hread : ∀ pre rest', read' ⟨pre ++ front ++ rest', pre.length⟩ =
      read ⟨pre ++ front ++ rest', pre.length + front.length⟩) :
    Confined read' (front ++ rest) := by
  cases h with
  | @done used post a split recovers =>
    have hsplit : front ++ rest = (front ++ used) ++ post := by rw [split, List.append_assoc]
    refine .done (a := a) hsplit fun pre post' => ?_
    have hafter := recovers (pre ++ front) post'
    simp only [List.append_assoc, List.length_append, Nat.add_assoc] at hafter hread ⊢
    rw [hread, hafter]
  | @refused used post e count split count_le fails =>
    have hsplit : front ++ rest = (front ++ used) ++ post := by rw [split, List.append_assoc]
    refine .refused (fun start => e (start + front.length)) (front.length + count) hsplit ?_ ?_
    · rw [List.length_append]
      exact Nat.add_le_add_left count_le _
    · intro pre post'
      have hafter := fails (pre ++ front) post'
      simp only [List.append_assoc, List.length_append, Nat.add_assoc] at hafter hread ⊢
      rw [hread, hafter]
  | short missing count count_le missing_le fails =>
    refine .short (front.length + missing) (front.length + count)
      (Nat.add_le_add_left count_le _) ?_ fun pre => ?_
    · rw [List.length_append]
      exact Nat.add_le_add_left missing_le _
    · have hafter := fails (pre ++ front)
      simp only [List.append_assoc, List.length_append, Nat.add_assoc] at hafter hread ⊢
      rw [hread, hafter]

theorem Confined.position_lt (h : Confined read rest) (hnothing : ∀ a r, read ⟨[], 0⟩ ≠ (.ok a, r))
    {pre : List UInt8} {a : α} (hread : (read ⟨pre ++ rest, pre.length⟩).1 = .ok a) :
    pre.length < (read ⟨pre ++ rest, pre.length⟩).2.position := by
  cases h with
  | @done used post b split recovers =>
    subst split
    rw [← List.append_assoc, recovers pre post]
    have hused : used ≠ [] := by
      rintro rfl
      exact hnothing _ _ (recovers [] [])
    exact Nat.lt_add_of_pos_right (List.length_pos_iff.mpr hused)
  | refused e count split _ fails =>
    subst split
    rw [← List.append_assoc, fails] at hread
    cases hread
  | short missing count _ _ fails =>
    rw [fails] at hread
    cases hread

end Confined

/-! ### Operations -/

theorem confined_readByte (rest : List UInt8) : Confined readByte rest := by
  cases rest with
  | nil => exact .short 0 0 (Nat.le_refl 0) (Nat.le_refl 0) fun pre => by simp [readByte]
  | cons byte post => exact .done rfl (recovers_readByte byte)

theorem confined_readBytes (count : Nat) (rest : List UInt8) :
    Confined (readBytes · count) rest := by
  rcases Nat.lt_or_ge rest.length count with hshort | henough
  · refine .short 0 0 (Nat.le_refl 0) (Nat.zero_le _) fun pre => ?_
    simp [readBytes, hshort]
  · have hrecovers := recovers_readBytes (rest.take count)
    rw [List.length_take, Nat.min_eq_left henough] at hrecovers
    exact .done (List.take_append_drop count rest).symm hrecovers

theorem readWord_eq (r : ByteReader) (count : Nat) :
    r.readWord count = ((r.readBytes count).1.map ofLittleEndian, (r.readBytes count).2) := by
  unfold readWord
  split <;> next h => rw [h]; rfl

theorem confined_readWord (count : Nat) (rest : List UInt8) : Confined (readWord · count) rest :=
  (confined_readBytes count rest).map fun r => readWord_eq r count

theorem confined_readWord32 (rest : List UInt8) : Confined readWord32 rest :=
  (confined_readWord 4 rest).map fun _ => rfl

theorem confined_readWord64 (rest : List UInt8) : Confined readWord64 rest :=
  (confined_readWord 8 rest).map fun _ => rfl

theorem number_cases (rest : List UInt8) :
    (∃ init last post, rest = (init ++ [last]) ++ post ∧ init.length < 10 ∧
      ∀ pre post', EndsAt (pre ++ (init ++ [last]) ++ post') pre.length init last) ∨
    ∀ byte ∈ rest.take 10, ¬ byte < 128 := by
  by_cases hopen : ∀ byte ∈ rest.take 10, ¬ byte < 128
  · exact .inr hopen
  · push Not at hopen
    obtain ⟨byte, hmem, hbyte⟩ := hopen
    have hmem' : byte ∈ (rest.drop 0).take 10 := hmem
    obtain ⟨n, hn, hlength⟩ := Leb128.exists_lengthAt? hmem' hbyte
    obtain ⟨init, last, ⟨⟨post, hsplit⟩, hinit, hlast⟩, rfl⟩ := Leb128.exists_endsAt hlength
    rw [List.drop_zero] at hsplit
    rw [List.length_append, List.length_singleton] at hn
    refine .inl ⟨init, last, post, by simp [hsplit], by omega, fun pre post' => ?_⟩
    exact ⟨⟨post', by simp⟩, hinit, hlast⟩

/-- A number that does not end within ten bytes is refused if there is an eleventh byte; if not, its
end is missing. -/
theorem confined_of_open {α : Type} {read : ByteReader → Except DecodeError α × ByteReader}
    {rest : List UInt8} (hopen : ∀ byte ∈ rest.take 10, ¬ byte < 128)
    (hread : ∀ r : ByteReader, (∀ byte ∈ (r.bytes.drop r.position).take 10, ¬ byte < 128) →
      read r = (.error (Leb128.openError r.bytes r.position), r)) : Confined read rest := by
  rcases Nat.lt_or_ge 10 rest.length with heleven | hten
  · have hused : (rest.take 11).length = 11 := by
      rw [List.length_take, Nat.min_eq_left heleven]
    refine .refused .overflow 0 (List.take_append_drop 11 rest).symm (Nat.zero_le _) ?_
    intro pre post'
    rw [hread]
    · have hroom : pre.length + 11 ≤ (pre ++ rest.take 11 ++ post').length := by
        simp only [List.length_append, hused]
        omega
      rw [Leb128.openError, if_pos hroom]
      rfl
    · simp only [List.append_assoc, List.drop_left]
      rwa [List.take_append_of_le_length (by omega), List.take_take]
  · refine .short rest.length 0 (Nat.zero_le _) (Nat.le_refl _) fun pre => ?_
    rw [hread]
    · have hend : max pre.length (pre ++ rest).length = pre.length + rest.length := by
        rw [List.length_append]
        omega
      have hroom : ¬ pre.length + 11 ≤ (pre ++ rest).length := by
        rw [List.length_append]
        omega
      rw [Leb128.openError, if_neg hroom, hend]
      rfl
    · rwa [List.drop_left]

theorem confined_readVaruint (rest : List UInt8) : Confined readVaruint rest := by
  rcases number_cases rest with ⟨init, last, post, hsplit, hlength, hends⟩ | hopen
  · by_cases hfits : (UInt64.ofNat (Leb128.ofGroups (init ++ [last]))).toNat < 0x100000000
    · apply Confined.done hsplit
      intro pre post'
      rw [readVaruint, (hends pre post').readUnsigned_eq hlength]
      exact if_pos hfits
    · refine .refused .overflow 0 hsplit (Nat.zero_le _) fun pre post' => ?_
      rw [readVaruint, (hends pre post').readUnsigned_eq hlength]
      exact if_neg hfits
  · exact confined_of_open hopen fun r hr => by rw [readVaruint, (Leb128.read_of_open hr).1]

theorem confined_readVarint (rest : List UInt8) : Confined readVarint rest := by
  rcases number_cases rest with ⟨init, last, post, hsplit, hlength, hends⟩ | hopen
  · apply Confined.done hsplit
    intro pre post'
    rw [readVarint, (hends pre post').readSigned_eq hlength]
    rfl
  · exact confined_of_open hopen fun r hr => by rw [readVarint, (Leb128.read_of_open hr).2]

/-! ### Operations of two steps -/

/-- The text of a name whose length took `front` bytes. -/
def decodeText (front : Nat) (bytes : List UInt8) : Except (Nat → DecodeError) String :=
  (ofUtf8? bytes).elim (.error fun position => .invalidUtf8 (position - front)) .ok

theorem confined_readName (rest : List UInt8) : Confined readName rest := by
  cases confined_readVaruint rest with
  | @done front post length split recovers =>
    subst split
    have htext := (confined_readBytes length.toNat post).decoding (decodeText front.length)
    refine htext.behind front fun pre rest' => ?_
    rw [readName, recovers]
    dsimp only [decoding]
    rcases readBytes _ _ with ⟨e | bytes, next⟩
    · rfl
    · cases hdecode : ofUtf8? bytes <;>
        simp [Except.bind, decodeText, hdecode, Except.mapError]
  | refused e count split count_le fails =>
    exact .refused e count split count_le fun pre post' => by rw [readName, fails]
  | short missing count count_le missing_le fails =>
    exact .short missing count count_le missing_le fun pre => by rw [readName, fails]

/-- The opcode with a lead byte and a number. -/
def decodeSub (lead : UInt8) (sub : UInt32) : Except (Nat → DecodeError) Opcode :=
  if 256 ≤ sub.toNat then .error fun position => .invalidOpcode lead (position - 1)
  else (Opcode.decode? (some lead) sub.toUInt8).elim
    (.error fun position => .invalidOpcode sub.toUInt8 (position - 1)) .ok

theorem confined_readOpcode (rest : List UInt8) : Confined readOpcode rest := by
  cases rest with
  | nil =>
    exact .short 0 0 (Nat.le_refl 0) (Nat.le_refl 0) fun pre => by simp [readOpcode, readByte]
  | cons first rest =>
    by_cases hlead : first = Opcode.gcLead ∨ first = Opcode.saturatingLead
    · refine ((confined_readVaruint rest).decoding (decodeSub first)).behind [first] ?_
      intro pre rest'
      rw [readOpcode, recovers_readByte]
      dsimp only [decoding]
      rw [if_pos hlead]
      rcases readVaruint _ with ⟨e | sub, next⟩
      · rfl
      · dsimp only [Except.bind, decodeSub]
        split_ifs
        · rfl
        · cases Opcode.decode? (some first) sub.toUInt8 <;> rfl
    · cases hop : Opcode.decode? none first with
      | some op =>
        refine .done (a := op) List.singleton_append.symm fun pre post' => ?_
        rw [readOpcode, recovers_readByte]
        simp only [if_neg hlead, hop]
      | none =>
        refine .refused (.invalidOpcode first) 1 List.singleton_append.symm (Nat.le_refl 1)
          fun pre post' => ?_
        rw [readOpcode, recovers_readByte]
        simp only [if_neg hlead, hop]
        rfl

theorem confined_readToken (shape : Token.Shape) (rest : List UInt8) :
    Confined (readToken · shape) rest := by
  cases shape with
  | byte => exact (confined_readByte rest).map fun _ => rfl
  | word32 => exact (confined_readWord32 rest).map fun _ => rfl
  | float32 => exact (confined_readWord32 rest).map fun _ => rfl
  | float64 => exact (confined_readWord64 rest).map fun _ => rfl
  | raw count => exact (confined_readBytes count rest).map fun _ => rfl
  | varuint => exact (confined_readVaruint rest).map fun _ => rfl
  | varint => exact (confined_readVarint rest).map fun _ => rfl
  | name => exact (confined_readName rest).map fun _ => rfl
  | opcode => exact (confined_readOpcode rest).map fun _ => rfl

/-! ### Failures -/

/-- A failure leaves the reader where it was. -/
def Stays {α : Type} (read : ByteReader → Except DecodeError α × ByteReader) : Prop :=
  ∀ r e, (read r).1 = .error e → (read r).2 = r

theorem Stays.map {α β : Type} {read : ByteReader → Except DecodeError α × ByteReader}
    (h : Stays read) {f : α → β} {read' : ByteReader → Except DecodeError β × ByteReader}
    (hread : ∀ r, read' r = ((read r).1.map f, (read r).2)) : Stays read' := by
  intro r e herror
  rw [hread] at herror ⊢
  cases hresult : (read r).1 with
  | ok a =>
    rw [hresult] at herror
    cases herror
  | error e' => exact h r e' hresult

theorem stays_readByte : Stays readByte := by
  intro r e herror
  unfold readByte at herror ⊢
  split at herror
  · cases herror
  · rfl

theorem stays_readBytes (count : Nat) : Stays (readBytes · count) := by
  intro r e herror
  dsimp only [readBytes] at herror ⊢
  split_ifs at herror ⊢
  rfl

theorem stays_readWord (count : Nat) : Stays (readWord · count) :=
  (stays_readBytes count).map fun r => readWord_eq r count

theorem stays_readWord32 : Stays readWord32 := (stays_readWord 4).map fun _ => rfl

theorem stays_readWord64 : Stays readWord64 := (stays_readWord 8).map fun _ => rfl

theorem stays_readVaruint : Stays readVaruint := by
  intro r e herror
  unfold readVaruint at herror ⊢
  split at herror
  · split_ifs at herror ⊢
    rfl
  · rfl

theorem stays_readVarint : Stays readVarint := by
  intro r e herror
  unfold readVarint at herror ⊢
  split at herror
  · cases herror
  · rfl

theorem stays_readToken {shape : Token.Shape} (hname : shape ≠ .name) (hopcode : shape ≠ .opcode) :
    Stays (readToken · shape) := by
  cases shape with
  | byte => exact stays_readByte.map fun _ => rfl
  | word32 => exact stays_readWord32.map fun _ => rfl
  | float32 => exact stays_readWord32.map fun _ => rfl
  | float64 => exact stays_readWord64.map fun _ => rfl
  | raw count => exact (stays_readBytes count).map fun _ => rfl
  | varuint => exact stays_readVaruint.map fun _ => rfl
  | varint => exact stays_readVarint.map fun _ => rfl
  | name => exact absurd rfl hname
  | opcode => exact absurd rfl hopcode

/-! ### One read -/

theorem readToken_nil {shape : Token.Shape} (hshape : shape ≠ .raw 0) (t : Token)
    (next : ByteReader) : readToken ⟨[], 0⟩ shape ≠ (.ok t, next) := by
  cases shape with
  | raw count =>
    cases count with
    | zero => exact absurd rfl hshape
    | succ count => simp [readToken, tokenOf, readBytes, Except.map]
  | _ => intro h; cases h

/-- The position is in the bytes or at their end. -/
def Within (r : ByteReader) : Prop := r.position ≤ r.bytes.length

theorem Within.exists_split {r : ByteReader} (h : r.Within) :
    ∃ pre rest, r = ⟨pre ++ rest, pre.length⟩ := by
  refine ⟨r.bytes.take r.position, r.bytes.drop r.position, ?_⟩
  rw [List.take_append_drop, List.length_take, Nat.min_eq_left h]

/-- **What one read does to the position.** -/
theorem Within.readToken {r : ByteReader} (h : r.Within) (shape : Token.Shape) :
    (r.readToken shape).2.Within ∧ (r.readToken shape).2.bytes = r.bytes ∧
      r.position ≤ (r.readToken shape).2.position := by
  obtain ⟨pre, rest, rfl⟩ := h.exists_split
  obtain ⟨result, count, hread, hcount⟩ := (confined_readToken shape rest).exists_advance pre
  rw [hread]
  refine ⟨?_, rfl, Nat.le_add_right _ _⟩
  unfold Within
  rw [List.length_append]
  exact Nat.add_le_add_left hcount _

theorem Within.position_lt {r : ByteReader} (h : r.Within) {shape : Token.Shape}
    (hshape : shape ≠ .raw 0) {t : Token} (hread : (r.readToken shape).1 = .ok t) :
    r.position < (r.readToken shape).2.position := by
  obtain ⟨pre, rest, rfl⟩ := h.exists_split
  exact (confined_readToken shape rest).position_lt (readToken_nil hshape) hread

/-! ### Runs -/

/-- The reader after some reads, successful or not. -/
def run (r : ByteReader) (shapes : List Token.Shape) : ByteReader :=
  shapes.foldl (fun r shape => (r.readToken shape).2) r

/-- **What a run does to the position.** -/
theorem Within.run {r : ByteReader} (h : r.Within) (shapes : List Token.Shape) :
    (r.run shapes).Within ∧ (r.run shapes).bytes = r.bytes ∧
      r.position ≤ (r.run shapes).position := by
  induction shapes generalizing r with
  | nil => exact ⟨h, rfl, Nat.le_refl _⟩
  | cons shape rest ih =>
    obtain ⟨hnext, hbytes, hle⟩ := h.readToken shape
    obtain ⟨hlast, hbytes', hle'⟩ := ih hnext
    exact ⟨hlast, hbytes'.trans hbytes, hle.trans hle'⟩

theorem Within.position_add_remaining {r : ByteReader} (h : r.Within) :
    r.position + r.remaining = r.bytes.length :=
  Nat.add_sub_cancel' h

theorem hasMore_iff (r : ByteReader) : r.hasMore = true ↔ 0 < r.remaining := by
  unfold hasMore remaining
  rw [decide_eq_true_iff]
  omega

/-- **A reader over whole runs.** After any reads of any bytes, whether they succeeded or not, the
position is in the bytes or at their end, it counts the bytes that are not left, and no later read
moves it back. The next read looks only at bytes that are left. If it fails it leaves the position,
unless it reads in two steps; if it succeeds it moves the position, unless it was asked for no
bytes. -/
theorem reads_over_runs (bytes : List UInt8) (shapes : List Token.Shape) (shape : Token.Shape) :
    let r := run ⟨bytes, 0⟩ shapes
    r.bytes = bytes ∧ r.position ≤ bytes.length ∧ r.position + r.remaining = bytes.length ∧
    (r.hasMore = true ↔ 0 < r.remaining) ∧ (∀ later, r.position ≤ (r.run later).position) ∧
    Confined (readToken · shape) (bytes.drop r.position) ∧
    (∀ e, (r.readToken shape).1 = .error e → shape ≠ .name → shape ≠ .opcode →
      (r.readToken shape).2 = r) ∧
    ∀ t, (r.readToken shape).1 = .ok t → shape ≠ .raw 0 →
      r.position < (r.readToken shape).2.position := by
  intro r
  have hstart : (⟨bytes, 0⟩ : ByteReader).Within := Nat.zero_le _
  obtain ⟨hwithin, hbytes, -⟩ := hstart.run shapes
  have hlength : r.bytes.length = bytes.length := congrArg List.length hbytes
  refine ⟨hbytes, hlength ▸ hwithin, hlength ▸ hwithin.position_add_remaining, hasMore_iff r,
    fun later => (hwithin.run later).2.2, confined_readToken shape _, ?_, ?_⟩
  · intro e herror hname hopcode
    exact stays_readToken hname hopcode r e herror
  · intro t hread hshape
    exact hwithin.position_lt hshape hread

/-- The name is cut off behind its length, and the opcode behind its lead byte. -/
example : run ⟨[0x05, 0x61, 0xFC, 0x80], 0⟩ [.name, .byte, .opcode, .varuint] =
    ⟨[0x05, 0x61, 0xFC, 0x80], 3⟩ := by
  decide

end WasmBackend.ByteReader
