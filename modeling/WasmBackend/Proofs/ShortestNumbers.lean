import WasmBackend.Proofs.NumbersAtOffset
import WasmBackend.Proofs.WordWriting

/-! # Words written in the fewest bytes

A reader takes many bytes for one word: a number can be padded with groups that add nothing, and bits
beyond the word are dropped. Of all bytes that are read as a word, those that a writer gives for it
are the fewest (`Shortest`), because a number of few groups is small: `n` groups denote less than
`128 ^ n`, and signed ones less than half of it on either side of zero.

A number says itself where it ends, so no writer begins a word with the bytes of another one
(`PrefixFree`).

* `shortest_unsigned`, `shortest_signed`: what is written is read, and nothing shorter is;
* `prefixFree_of_roundTrips`: words that are read back are not written one inside the other. -/

namespace WasmBackend.Leb128

/-! ### What is read has an end -/

theorem exists_endsAt_of_read {bytes : List UInt8} {offset n : Nat} {u : UInt64} {s : Int64}
    (h : readUnsigned bytes offset = .ok (u, n) ∨ readSigned bytes offset = .ok (s, n)) :
    ∃ init last, EndsAt bytes offset init last ∧ init.length < 10 := by
  by_contra hnone
  have hopen : ∀ m ≤ 10, lengthAt? bytes offset ≠ some m := by
    intro m hm hlength
    obtain ⟨init, last, hends, rfl⟩ := exists_endsAt hlength
    rw [List.length_append, List.length_singleton] at hm
    exact hnone ⟨init, last, hends, hm⟩
  obtain ⟨hunsigned, hsigned⟩ := read_open hopen
  rcases h with h | h
  · cases hunsigned.symm.trans h
  · cases hsigned.symm.trans h

/-! ### Few groups denote small numbers -/

theorem ofSignedGroups_bounds {number : List UInt8} {k : Nat} (h : number.length = k + 1) :
    -(64 * 128 ^ k : Nat) ≤ ofSignedGroups number ∧ ofSignedGroups number < (64 * 128 ^ k : Nat) := by
  have hlt := ofGroups_lt number
  have hpow : 128 ^ number.length = 2 * (64 * 128 ^ k) := by
    rw [h, pow_succ]
    ring
  have hwidth : Nat.pow 128 number.length = 2 * (64 * 128 ^ k) := hpow
  unfold ofSignedGroups
  rw [hwidth]
  rw [hpow] at hlt
  generalize 64 * 128 ^ k = half at *
  split_ifs <;> omega

theorem length_le_of_readUnsigned {bytes : List UInt8} {offset n : Nat} {v : UInt64}
    (h : readUnsigned bytes offset = .ok (v, n)) :
    (encodeNat v.toNat).length ≤ n ∧ offset + n ≤ bytes.length := by
  obtain ⟨init, last, hends, hshort⟩ := exists_endsAt_of_read (s := 0) (.inl h)
  rw [hends.readUnsigned_eq hshort] at h
  obtain ⟨rfl, rfl⟩ := Prod.mk.inj (Except.ok.inj h)
  refine ⟨?_, hends.add_length_le⟩
  -- dropping bits only makes the value smaller
  have hvalue : (UInt64.ofNat (ofGroups (init ++ [last]))).toNat < 128 ^ (init.length + 1) := by
    rw [UInt64.toNat_ofNat']
    refine (Nat.mod_le _ _).trans_lt ((ofGroups_lt _).trans_eq ?_)
    rw [List.length_append, List.length_singleton]
  rw [List.length_append, List.length_singleton]
  exact length_encodeNat_le hvalue

/-- The bytes of a signed word that is read from `n` bytes are at most `n`. -/
theorem length_le_of_readSigned {bytes : List UInt8} {offset n : Nat} {v : Int64}
    (h : readSigned bytes offset = .ok (v, n)) :
    (encodeInt v.toInt).length ≤ n ∧ offset + n ≤ bytes.length := by
  obtain ⟨init, last, hends, hshort⟩ := exists_endsAt_of_read (u := 0) (.inr h)
  rw [hends.readSigned_eq hshort] at h
  obtain ⟨hv, rfl⟩ := Prod.mk.inj (Except.ok.inj h)
  refine ⟨?_, hends.add_length_le⟩
  have hlength : (init ++ [last]).length = init.length + 1 := by
    rw [List.length_append, List.length_singleton]
  by_cases hnine : (init ++ [last]).length ≤ 9
  · -- the sign of at most nine groups is taken into account, and the value fits a word
    have hsigned := ofSignedGroups_concat init last
    simp only [hnine, true_and, ← hsigned] at hv
    obtain ⟨hlow, hhigh⟩ := ofSignedGroups_bounds hlength
    have hpow : 64 * 128 ^ init.length ≤ 64 * 128 ^ 8 :=
      Nat.mul_le_mul_left _ (Nat.pow_le_pow_right (by decide) (by omega))
    have hvalue : v.toInt = ofSignedGroups (init ++ [last]) := by
      rw [← hv]
      exact Int64.toInt_ofInt_of_le (by omega) (by omega)
    rw [hlength, hvalue]
    exact length_encodeInt_le hlow hhigh
  · have hten : (encodeInt v.toInt).length ≤ 10 := length_encodeInt_word v
    omega

/-! ### Writers -/

section Writers

variable {α : Type} {write : List UInt8 → α → Nat × List UInt8}
  {read : List UInt8 → Nat → Except DecodeError (α × Nat)}

/-- The bytes are what is written for the word, and the word is read from no fewer bytes. -/
structure Shortest (write : List UInt8 → α → Nat × List UInt8)
    (read : List UInt8 → Nat → Except DecodeError (α × Nat)) (v : α) (number : List UInt8) :
    Prop where
  written : ∀ out, write out v = (number.length, out ++ number)
  read_back : read number 0 = .ok (v, number.length)
  fewest : ∀ bytes offset n, read bytes offset = .ok (v, n) →
    number.length ≤ n ∧ offset + n ≤ bytes.length

/-- A buffer to which a word is written is not begun by the one to which another word is written. -/
def PrefixFree (write : List UInt8 → α → Nat × List UInt8) : Prop :=
  ∀ out v w, (write out v).2 <+: (write out w).2 → v = w

/-- **Words that are read back** whatever follows them are not written one inside the other. -/
theorem prefixFree_of_roundTrips (h : ∀ v, RoundTrips write read v) : PrefixFree write := by
  intro out v w hprefix
  obtain ⟨number, -, -, hwrite, hread⟩ := h v
  obtain ⟨number', -, -, hwrite', hread'⟩ := h w
  rw [hwrite, hwrite', List.prefix_append_right_inj] at hprefix
  obtain ⟨post, rfl⟩ := hprefix
  -- the bytes of `w` begin with those of `v`, so both are read there
  have hv : read (number ++ post) 0 = .ok (v, number.length) := hread [] post
  have hw := hread' [] []
  rw [List.nil_append, List.append_nil] at hw
  exact (Prod.mk.inj (Except.ok.inj (hv.symm.trans hw))).1

theorem PrefixFree.injective (h : PrefixFree write) (out : List UInt8) :
    Function.Injective fun v => (write out v).2 := by
  intro v w hsame
  exact h out v w ⟨[], (List.append_nil _).trans hsame⟩

end Writers

theorem shortest_unsigned (v : UInt64) :
    Shortest writeUnsigned readUnsigned v (encodeNat v.toNat) := by
  refine ⟨(writeUnsigned_eq · v), ?_, fun _ _ _ => length_le_of_readUnsigned⟩
  have hread := readUnsigned_encodeNat v.toNat_lt [] []
  rwa [List.nil_append, List.append_nil, UInt64.ofNat_toNat] at hread

theorem shortest_signed (v : Int64) :
    Shortest writeSigned readSigned v (encodeInt v.toInt) := by
  refine ⟨(writeSigned_eq · v), ?_, fun _ _ _ => length_le_of_readSigned⟩
  have hread := readSigned_encodeInt v [] []
  rwa [List.nil_append, List.append_nil] at hread

/-- **Words are written canonically.** A word is written in as many bytes as its length says, and no
fewer bytes are read as the word, at any offset of any buffer; so it is for signed words. Different
words are written differently, and what is written for one does not begin what is written for
another. -/
theorem words_canonical :
    (∀ v : UInt64, ∃ number, number.length = unsignedLength v.toNat ∧
      Shortest writeUnsigned readUnsigned v number) ∧
    (∀ v : Int64, ∃ number, Shortest writeSigned readSigned v number) ∧
    (∀ out, Function.Injective fun v => (writeUnsigned out v).2) ∧
    (∀ out, Function.Injective fun v => (writeSigned out v).2) ∧
    PrefixFree writeUnsigned ∧ PrefixFree writeSigned := by
  have hunsigned : PrefixFree writeUnsigned := prefixFree_of_roundTrips roundTrips_unsigned
  have hsigned : PrefixFree writeSigned := prefixFree_of_roundTrips roundTrips_signed
  exact ⟨fun v => ⟨_, length_encodeNat v.toNat, shortest_unsigned v⟩,
    fun v => ⟨_, shortest_signed v⟩, hunsigned.injective, hsigned.injective, hunsigned, hsigned⟩

/-- The word `1` is also read from two bytes and, with a bit beyond the word, from ten. -/
example :
    readUnsigned [0x81, 0x00] 0 = .ok (1, 2) ∧
      readUnsigned ([0x81] ++ List.replicate 8 0x80 ++ [0x02]) 0 = .ok (1, 10) := by
  decide

end WasmBackend.Leb128
