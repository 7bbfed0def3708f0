import WasmBackend.Binary.Reader
import WasmBackend.Proofs.Leb128

/-! # Reading what was written

A reading operation undoes a writing one wherever the written bytes stand: it gives the value back
and stops behind its bytes (`Recovers`). -/

namespace WasmBackend

theorem Opcode.code_ne_lead (op : Opcode) : ¬ (op.code = gcLead ∨ op.code = saturatingLead) := by
  cases op <;> decide

theorem Opcode.lead_cases (op : Opcode) :
    op.lead = none ∨ op.lead = some gcLead ∨ op.lead = some saturatingLead := by
  cases op <;> decide

namespace ByteReader

/-- Wherever the bytes stand, the operation reads them as `a` and stops behind them. -/
def Recovers {α : Type} (read : ByteReader → Except DecodeError α × ByteReader) (bytes : List UInt8)
    (a : α) : Prop :=
  ∀ pre post, read ⟨pre ++ bytes ++ post, pre.length⟩ =
    (.ok a, ⟨pre ++ bytes ++ post, pre.length + bytes.length⟩)

theorem recovers_readBytes (bytes : List UInt8) : Recovers (readBytes · bytes.length) bytes bytes := by
  intro pre post
  simp [readBytes, advance]

theorem recovers_readByte (byte : UInt8) : Recovers readByte [byte] byte := by
  intro pre post
  simp [readByte, advance]

theorem recovers_readWord (count n : Nat) :
    Recovers (readWord · count) (littleEndian count n) (n % Nat.pow 256 count) := by
  intro pre post
  have h := recovers_readBytes (littleEndian count n) pre post
  rw [length_littleEndian] at h
  simp only [readWord, h, ofLittleEndian_littleEndian, length_littleEndian]

theorem recovers_readWord32 (w : UInt32) : Recovers readWord32 (encodeWord32 w) w := by
  intro pre post
  have hmod : w.toNat % Nat.pow 256 4 = w.toNat := Nat.mod_eq_of_lt w.toNat_lt
  have hread := recovers_readWord 4 w.toNat pre post
  rw [hmod] at hread
  simp only [readWord32, encodeWord32, hread, Except.map, UInt32.ofNat_toNat]

theorem recovers_readWord64 (w : UInt64) : Recovers readWord64 (encodeWord64 w) w := by
  intro pre post
  have hmod : w.toNat % Nat.pow 256 8 = w.toNat := Nat.mod_eq_of_lt w.toNat_lt
  have hread := recovers_readWord 8 w.toNat pre post
  rw [hmod] at hread
  simp only [readWord64, encodeWord64, hread, Except.map, UInt64.ofNat_toNat]

theorem recovers_readVaruint {n : Nat} (hn : n < 0x100000000) :
    Recovers readVaruint (Leb128.encodeNat n) (UInt32.ofNat n) := by
  intro pre post
  unfold readVaruint
  rw [Leb128.readUnsigned_encodeNat (by omega)]
  have htoNat : (UInt64.ofNat n).toNat = n := by
    rw [UInt64.toNat_ofNat']
    omega
  have hword : (UInt64.ofNat n).toUInt32 = UInt32.ofNat n := by
    apply UInt32.toNat_inj.mp
    rw [UInt64.toNat_toUInt32, htoNat, UInt32.toNat_ofNat']
  simp [htoNat, hn, hword, advance]

theorem recovers_readVarint (v : Int64) : Recovers readVarint (Leb128.encodeInt v.toInt) v := by
  intro pre post
  unfold readVarint
  rw [Leb128.readSigned_encodeInt]
  rfl

/-- An opcode is read back from its bytes. -/
theorem recovers_readOpcode (op : Opcode) : Recovers readOpcode op.encode op := by
  intro pre post
  have hdecode := op.decode?_lead_code
  rcases op.lead_cases with hlead | hlead
  · have hbytes : op.encode = [op.code] := by simp [Opcode.encode, hlead]
    rw [hlead] at hdecode
    simp only [readOpcode, hbytes, recovers_readByte op.code pre post, if_neg op.code_ne_lead,
      hdecode]
  · obtain ⟨lead, hlead, hcases⟩ : ∃ lead, op.lead = some lead ∧
        (lead = Opcode.gcLead ∨ lead = Opcode.saturatingLead) := by
      rcases hlead with hlead | hlead
      · exact ⟨_, hlead, Or.inl rfl⟩
      · exact ⟨_, hlead, Or.inr rfl⟩
    have hbytes : op.encode = [lead] ++ Leb128.encodeNat op.code.toNat := by
      simp [Opcode.encode, hlead]
    rw [hlead] at hdecode
    have hcode : op.code.toNat < 256 := op.code.toNat_lt
    have hfirst := recovers_readByte lead pre (Leb128.encodeNat op.code.toNat ++ post)
    have hsub :=
      recovers_readVaruint (show op.code.toNat < 0x100000000 by omega) (pre ++ [lead]) post
    have htoNat : (UInt32.ofNat op.code.toNat).toNat = op.code.toNat := by
      rw [UInt32.toNat_ofNat']
      omega
    have hword : (UInt32.ofNat op.code.toNat).toUInt8 = op.code := by
      apply UInt8.toNat_inj.mp
      rw [UInt32.toNat_toUInt8, htoNat]
      omega
    simp only [List.append_assoc, List.length_append, List.length_singleton] at hfirst hsub
    simp only [readOpcode, hbytes, List.append_assoc, List.length_append, List.length_singleton,
      hfirst, if_pos hcases, hsub, htoNat, hword, hdecode,
      if_neg (show ¬ 256 ≤ op.code.toNat by omega), Nat.add_assoc]

end ByteReader

end WasmBackend
