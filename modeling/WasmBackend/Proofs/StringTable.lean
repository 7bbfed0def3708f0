import WasmBackend.Proofs.Outcome
import WasmBackend.Proofs.Reader
import WasmBackend.StringPool

/-! # The string table

A name is read back from its bytes (`recovers_readName`). In a string table that has been written at
an offset of the data, the entry of a string follows four bytes for each string before it. The entry
is read as the offset of a name, and the name there is read as the string (`readTable`). -/

namespace WasmBackend

/-! ### Names -/

theorem ofUtf8?_utf8 (s : String) : ofUtf8? (utf8 s) = some s := by
  have hbytes : (⟨(utf8 s).toArray⟩ : ByteArray) = s.toUTF8 := by simp [utf8]
  unfold ofUtf8?
  rw [hbytes]
  unfold String.fromUTF8?
  exact dif_pos s.isValidUTF8

theorem length_utf8_le_encodeName (s : String) : (utf8 s).length ≤ (encodeName s).length := by
  rw [encodeName, List.length_append]
  omega

namespace ByteReader

theorem recovers_readName {s : String} (hs : (utf8 s).length < 0x100000000) :
    Recovers readName (encodeName s) s := by
  intro pre post
  have hlength := recovers_readVaruint hs pre (utf8 s ++ post)
  have hbody :=
    recovers_readBytes (utf8 s) (pre ++ Leb128.encodeNat (utf8 s).length) post
  have hword : (UInt32.ofNat (utf8 s).length).toNat = (utf8 s).length := by
    rw [UInt32.toNat_ofNat']
    omega
  simp only [List.append_assoc, List.length_append] at hlength hbody
  simp only [readName, encodeName, List.append_assoc, List.length_append, hlength, hword, hbody,
    ofUtf8?_utf8, Nat.add_assoc]

end ByteReader

/-! ### Layout -/

namespace StringPool

@[simp]
theorem length_offsetsFrom (offset : Nat) (strings : List String) :
    (offsetsFrom offset strings).length = strings.length := by
  induction strings generalizing offset with
  | nil => rfl
  | cons s rest ih => rw [offsetsFrom, List.length_cons, List.length_cons, ih]

theorem offsetsFrom_append (offset : Nat) (front back : List String) :
    offsetsFrom offset (front ++ back) =
      offsetsFrom offset front ++ offsetsFrom (offset + (front.flatMap encodeName).length) back := by
  induction front generalizing offset with
  | nil => rfl
  | cons s rest ih =>
    rw [List.cons_append, offsetsFrom, offsetsFrom, ih, List.flatMap_cons, List.length_append,
      Nat.add_assoc, List.cons_append]

theorem mapM_encodeOffset_eq_ok {offsets : List Nat} {encoded : List (List UInt8)}
    (h : offsets.mapM encodeOffset = .ok encoded) :
    encoded = offsets.map (littleEndian 4) ∧ ∀ offset ∈ offsets, offset < 0x100000000 := by
  induction offsets generalizing encoded with
  | nil =>
    cases h
    exact ⟨rfl, by simp⟩
  | cons offset rest ih =>
    simp only [List.mapM_cons, bind_eq_ok, pure_eq_ok] at h
    obtain ⟨bytes, hbytes, others, hothers, rfl⟩ := h
    obtain ⟨rfl, hrest⟩ := ih hothers
    unfold encodeOffset at hbytes
    split_ifs at hbytes with hoffset
    cases hbytes
    exact ⟨rfl, List.forall_mem_cons.mpr ⟨hoffset, hrest⟩⟩

theorem le_of_mem_offsetsFrom {offset : Nat} {strings : List String} {o : Nat}
    (h : o ∈ offsetsFrom offset strings) : o ≤ offset + (strings.flatMap encodeName).length := by
  induction strings generalizing offset with
  | nil => cases h
  | cons s rest ih =>
    rw [List.flatMap_cons, List.length_append]
    rcases List.mem_cons.mp h with rfl | hrest
    · omega
    · have hle := ih hrest
      omega

theorem mapM_encodeOffset_of_lt {offsets : List Nat} (h : ∀ offset ∈ offsets, offset < 0x100000000) :
    offsets.mapM encodeOffset = .ok (offsets.map (littleEndian 4)) := by
  rw [mapM_eq_ok, List.forall₂_map_right_iff, List.forall₂_same]
  exact fun offset hoffset => if_pos (h offset hoffset)

theorem encodeTable_of_lt {base : Nat} {strings : List String}
    (h : base + 4 * strings.length + (strings.flatMap encodeName).length < 0x100000000) :
    encodeTable base strings = .ok ((offsetsFrom (base + 4 * strings.length) strings).flatMap
      (littleEndian 4) ++ strings.flatMap encodeName) := by
  have hoffsets := mapM_encodeOffset_of_lt fun offset hoffset =>
    Nat.lt_of_le_of_lt (le_of_mem_offsetsFrom hoffset) h
  exact bind_eq_ok.mpr ⟨_, hoffsets, rfl⟩

theorem length_flatMap_littleEndian (offsets : List Nat) :
    (offsets.flatMap (littleEndian 4)).length = 4 * offsets.length := by
  induction offsets with
  | nil => rfl
  | cons offset rest ih =>
    rw [List.flatMap_cons, List.length_append, length_littleEndian, ih, List.length_cons]
    omega

theorem length_encodeTable {base : Nat} {strings : List String} {bytes : List UInt8}
    (h : encodeTable base strings = .ok bytes) : 4 * strings.length ≤ bytes.length := by
  obtain ⟨encoded, hencoded, h⟩ := bind_eq_ok.mp h
  rw [pure_eq_ok] at h
  obtain ⟨rfl, -⟩ := mapM_encodeOffset_eq_ok hencoded
  rw [← h, List.length_append, ← List.flatMap_def, length_flatMap_littleEndian,
    length_offsetsFrom]
  omega

/-- **The bytes of a table around one of its strings.** -/
theorem encodeTable_around {base : Nat} {front back : List String} {s : String}
    {bytes : List UInt8} (h : encodeTable base (front ++ s :: back) = .ok bytes) :
    ∃ entries entries' names : List UInt8, ∃ offset < 0x100000000,
      bytes = entries ++ littleEndian 4 offset ++ entries' ++ front.flatMap encodeName ++
        encodeName s ++ names ∧
      entries.length = 4 * front.length ∧
      offset = base + (entries ++ littleEndian 4 offset ++ entries' ++
        front.flatMap encodeName).length := by
  obtain ⟨encoded, hencoded, h⟩ := bind_eq_ok.mp h
  rw [pure_eq_ok] at h
  obtain ⟨rfl, hoffsets⟩ := mapM_encodeOffset_eq_ok hencoded
  rw [offsetsFrom_append, offsetsFrom] at h hoffsets
  let first := base + 4 * (front ++ s :: back).length
  let offset := first + (front.flatMap encodeName).length
  let later := offsetsFrom (offset + (encodeName s).length) back
  refine ⟨(offsetsFrom first front).flatMap (littleEndian 4), later.flatMap (littleEndian 4),
    back.flatMap encodeName, offset, hoffsets offset (by simp [offset, first]), ?_, ?_, ?_⟩
  · rw [← h]
    simp [first, offset, later, List.flatMap_def]
  · rw [length_flatMap_littleEndian, length_offsetsFrom]
  · simp only [List.length_append, length_flatMap_littleEndian, length_offsetsFrom,
      length_littleEndian, later, offset, first, List.length_cons]
    omega

/-- **A string is read back from its table.** The word in its entry is the offset of its name. -/
theorem readTable {data bytes : List UInt8} {strings : List String}
    (h : encodeTable data.length strings = .ok bytes)
    (hsize : (data ++ bytes).length < 0x100000000) {id : Nat} {s : String}
    (hs : strings[id]? = some s) :
    ∃ offset : UInt32,
      (ByteReader.readWord32 ⟨data ++ bytes, data.length + 4 * id⟩).1 = .ok offset ∧
      (ByteReader.readName ⟨data ++ bytes, offset.toNat⟩).1 = .ok s := by
  obtain ⟨hid, rfl⟩ := List.getElem?_eq_some_iff.mp hs
  have hsplit : strings = strings.take id ++ strings[id] :: strings.drop (id + 1) := by
    rw [← List.drop_eq_getElem_cons hid, List.take_append_drop]
  rw [hsplit] at h
  obtain ⟨entries, entries', names, offset, hoffset, rfl, hentries, hplace⟩ := encodeTable_around h
  rw [List.length_take, Nat.min_eq_left (Nat.le_of_lt hid)] at hentries
  have hword : (UInt32.ofNat offset).toNat = offset := by
    rw [UInt32.toNat_ofNat']
    omega
  refine ⟨UInt32.ofNat offset, ?_, ?_⟩
  · have hread := ByteReader.recovers_readWord32 (UInt32.ofNat offset) (data ++ entries)
      (entries' ++ (strings.take id).flatMap encodeName ++ encodeName strings[id] ++ names)
    simp only [encodeWord32, hword, List.length_append, List.append_assoc, hentries] at hread
    simp only [List.append_assoc, hread]
  · have hname : (utf8 strings[id]).length < 0x100000000 := by
      have hle := length_utf8_le_encodeName strings[id]
      simp only [List.length_append] at hsize
      omega
    have hread := ByteReader.recovers_readName hname
      (data ++ (entries ++ littleEndian 4 offset ++ entries' ++
        (strings.take id).flatMap encodeName)) names
    rw [hword]
    rw [List.length_append, ← hplace] at hread
    simp only [List.append_assoc] at hread ⊢
    rw [hread]

end StringPool

end WasmBackend
