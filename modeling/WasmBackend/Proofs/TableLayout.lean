import WasmBackend.Proofs.PoolRuns
import WasmBackend.Proofs.StringTable

/-! # Layout of the string table

A pool is written behind the bytes of a data section: four bytes for each string, then the names of
the strings one after the other. Where a name begins is computed from the sizes of the names before it
(`nameOffset`). The table holds these offsets, and reading the name at one of them stops at the next
(`finalize_layout`). -/

namespace WasmBackend.StringPool

/-! ### Offsets -/

/-- Number of bytes of a name: its length as a LEB128 number, and its UTF-8 bytes. -/
def nameSize (s : String) : Nat := Leb128.unsignedLength (utf8 s).length + (utf8 s).length

/-- Offset of the name of a string, by its number, in the table of some strings at a base. The offset
behind the last name is the end of the table. -/
def nameOffset (base : Nat) (strings : List String) (i : Nat) : Nat :=
  base + 4 * strings.length + ((strings.take i).map nameSize).sum

theorem length_encodeName (s : String) : (encodeName s).length = nameSize s := by
  rw [encodeName, List.length_append, Leb128.length_encodeNat, nameSize]

theorem length_flatMap_encodeName (strings : List String) :
    (strings.flatMap encodeName).length = (strings.map nameSize).sum := by
  induction strings with
  | nil => rfl
  | cons s rest ih =>
    rw [List.flatMap_cons, List.length_append, length_encodeName, ih, List.map_cons, List.sum_cons]

theorem nameOffset_succ (base : Nat) {strings : List String} {i : Nat} (hi : i < strings.length) :
    nameOffset base strings (i + 1) = nameOffset base strings i + nameSize strings[i] := by
  simp only [nameOffset, List.take_succ_eq_append_getElem hi, List.map_append, List.sum_append,
    List.map_cons, List.map_nil, List.sum_cons, List.sum_nil]
  omega

theorem nameOffset_length (base : Nat) (strings : List String) :
    nameOffset base strings strings.length =
      base + 4 * strings.length + (strings.flatMap encodeName).length := by
  rw [nameOffset, List.take_length, length_flatMap_encodeName]

theorem nameOffset_le_end (base : Nat) (strings : List String) (i : Nat) :
    nameOffset base strings i ≤ nameOffset base strings strings.length := by
  have hsplit := congrArg (fun l => (l.map nameSize).sum) (List.take_append_drop i strings)
  simp only [List.map_append, List.sum_append] at hsplit
  rw [nameOffset, nameOffset, List.take_length, ← hsplit]
  omega

theorem length_le_nameOffset (base : Nat) {strings : List String} {i : Nat}
    (hi : i < strings.length) :
    (utf8 strings[i]).length ≤ nameOffset base strings strings.length := by
  have hend := nameOffset_le_end base strings (i + 1)
  rw [nameOffset_succ base hi, nameSize] at hend
  omega

theorem getElem_offsetsFrom (offset : Nat) (strings : List String) (i : Nat)
    (hi : i < (offsetsFrom offset strings).length) :
    (offsetsFrom offset strings)[i] = offset + ((strings.take i).map nameSize).sum := by
  induction strings generalizing offset i with
  | nil => cases hi
  | cons s rest ih =>
    cases i with
    | zero => simp [offsetsFrom]
    | succ i =>
      simp only [offsetsFrom, List.getElem_cons_succ, ih, length_encodeName, List.take_succ_cons,
        List.map_cons, List.sum_cons]
      omega

/-! ### Bytes -/

theorem flatMap_around {α β : Type} (f : α → List β) {l : List α} {i : Nat} (hi : i < l.length) :
    l.flatMap f = (l.take i).flatMap f ++ (f l[i] ++ (l.drop (i + 1)).flatMap f) := by
  rw [← List.flatMap_cons, ← List.flatMap_append, ← List.drop_eq_getElem_cons hi,
    List.take_append_drop]

theorem take_drop_littleEndian {offsets : List Nat} {i : Nat} (hi : i < offsets.length) :
    ((offsets.flatMap (littleEndian 4)).drop (4 * i)).take 4 = littleEndian 4 offsets[i] := by
  have hfront : ((offsets.take i).flatMap (littleEndian 4)).length = 4 * i := by
    rw [length_flatMap_littleEndian, List.length_take, Nat.min_eq_left (Nat.le_of_lt hi)]
  rw [flatMap_around (littleEndian 4) hi, List.drop_append_of_le_length (by omega), ← hfront,
    List.drop_length, List.nil_append]
  exact List.take_left' (length_littleEndian 4 _)

theorem readName_between (front : List UInt8) {strings : List String} {i : Nat}
    (hi : i < strings.length) (hname : (utf8 strings[i]).length < 0x100000000) :
    let bytes := front ++ strings.flatMap encodeName
    let start := front.length + ((strings.take i).map nameSize).sum
    ByteReader.readName ⟨bytes, start⟩ = (.ok strings[i], ⟨bytes, start + nameSize strings[i]⟩) := by
  have hread := ByteReader.recovers_readName hname (front ++ (strings.take i).flatMap encodeName)
    ((strings.drop (i + 1)).flatMap encodeName)
  rw [List.length_append, length_flatMap_encodeName, length_encodeName] at hread
  simp only [List.append_assoc, ← flatMap_around encodeName hi] at hread
  exact hread

theorem finalize_of_lt {p : StringPool} {data : DataSection} (hopen : p.finalized = false)
    (hstrings : p.strings ≠ [])
    (hsize : nameOffset data.size p.strings p.strings.length < 0x100000000) :
    p.finalize data =
      (.ok (data.append ((offsetsFrom (data.size + 4 * p.strings.length) p.strings).flatMap
          (littleEndian 4) ++ p.strings.flatMap encodeName)),
        { p with finalized := true, baseOffset := some data.size }) := by
  rw [nameOffset_length] at hsize
  unfold finalize
  rw [hopen, if_neg Bool.false_ne_true]
  simp only [List.isEmpty_eq_false_iff.mpr hstrings, Bool.false_eq_true, if_false,
    encodeTable_of_lt hsize]

/-- **Layout of the string table.** Let a pool be open after any calls. If it has no string, writing it
succeeds, the data stays as it is and there is no table. Otherwise, if the names end below the bound of
offsets, writing the pool succeeds, the table begins at the end of the old data, which stays, and it is
followed by the names. Its entries are the offsets of the names; reading a name there
gives the string and stops at the next name, the last time at the end of the data. -/
theorem finalize_layout (calls : List Call) (data : DataSection)
    (hopen : (run {} calls).finalized = false) :
    let p := run {} calls
    let offset := nameOffset data.size p.strings
    (p.strings = [] → ∃ q, p.finalize data = (.ok data, q) ∧ q.baseOffset = none) ∧
    (p.strings ≠ [] → offset p.strings.length < 0x100000000 →
      ∃ data' q table, p.finalize data = (.ok data', q) ∧ q.baseOffset = some data.size ∧
        data'.bytes = data.bytes ++ table ++ p.strings.flatMap encodeName ∧
        table.length = 4 * p.strings.length ∧ data'.size = offset p.strings.length ∧
        ∀ (i : Nat) (hi : i < p.strings.length),
          (table.drop (4 * i)).take 4 = littleEndian 4 (offset i) ∧
          ByteReader.readName ⟨data'.bytes, offset i⟩ =
            (.ok p.strings[i], ⟨data'.bytes, offset (i + 1)⟩)) := by
  intro p offset
  refine ⟨fun hnil => ?_, fun hstrings hsize => ?_⟩
  · refine ⟨{ p with finalized := true }, ?_, (finalized_run calls).2 hopen⟩
    unfold finalize
    rw [hopen, if_neg Bool.false_ne_true, if_pos (List.isEmpty_iff.mpr hnil)]
  · let table := (offsetsFrom (data.size + 4 * p.strings.length) p.strings).flatMap (littleEndian 4)
    have htable : table.length = 4 * p.strings.length := by
      rw [length_flatMap_littleEndian, length_offsetsFrom]
    have hbytes : (data.append (table ++ p.strings.flatMap encodeName)).bytes =
        data.bytes ++ table ++ p.strings.flatMap encodeName := (List.append_assoc ..).symm
    refine ⟨_, _, table, finalize_of_lt hopen hstrings hsize, rfl, hbytes, htable, ?_,
      fun i hi => ⟨?_, ?_⟩⟩
    · rw [DataSection.size_append, List.length_append, htable, ← Nat.add_assoc]
      exact (nameOffset_length ..).symm
    · have hlt : i < (offsetsFrom (data.size + 4 * p.strings.length) p.strings).length := by
        rwa [length_offsetsFrom]
      rw [take_drop_littleEndian hlt, getElem_offsetsFrom]
      rfl
    · have hname : (utf8 p.strings[i]).length < 0x100000000 :=
        Nat.lt_of_le_of_lt (length_le_nameOffset data.size hi) hsize
      have hstart : offset i = (data.bytes ++ table).length + ((p.strings.take i).map nameSize).sum := by
        rw [List.length_append, htable]
        rfl
      have hnext : offset (i + 1) = offset i + nameSize p.strings[i] := nameOffset_succ data.size hi
      rw [hbytes, hnext, hstart]
      exact readName_between (data.bytes ++ table) hi hname

/-- Two literals, the second one with characters of two bytes. -/
def greeted : List Call := [.intern "hi", .intern "grüß", .intern "hi"]

/-- Behind three bytes the table has its entries at 3 and 7 and its names at 11 and 14. -/
theorem finalize_layout_greeted :
    let p := run {} greeted
    p.finalized = false ∧ p.strings = ["hi", "grüß"] ∧ ∃ data' q,
      p.finalize ⟨[7, 8, 9]⟩ = (.ok data', q) ∧ q.baseOffset = some 3 ∧
      data'.bytes =
        [7, 8, 9, 11, 0, 0, 0, 14, 0, 0, 0, 2, 104, 105, 6, 103, 114, 195, 188, 195, 159] ∧
      ByteReader.readName ⟨data'.bytes, 11⟩ = (.ok "hi", ⟨data'.bytes, 14⟩) ∧
      ByteReader.readName ⟨data'.bytes, 14⟩ = (.ok "grüß", ⟨data'.bytes, data'.size⟩) := by
  intro p
  have hopen : p.finalized = false := by decide +kernel
  have hstrings : p.strings = ["hi", "grüß"] := by decide +kernel
  obtain ⟨-, hlayout⟩ := finalize_layout greeted ⟨[7, 8, 9]⟩ hopen
  obtain ⟨data', q, table, hfinalize, hbase, -, -, hsize, hentries⟩ :=
    hlayout (by rw [hstrings]; simp) (by decide +kernel)
  have hbytes : (p.finalize ⟨[7, 8, 9]⟩).1.map DataSection.bytes =
      .ok [7, 8, 9, 11, 0, 0, 0, 14, 0, 0, 0, 2, 104, 105, 6, 103, 114, 195, 188, 195, 159] := by
    decide +kernel
  rw [hfinalize] at hbytes
  have hfirst : nameOffset 3 p.strings 0 = 11 := by decide +kernel
  have hsecond : nameOffset 3 p.strings 1 = 14 := by decide +kernel
  have hread := (hentries 0 (by rw [hstrings]; decide)).2
  have hread' := (hentries 1 (by rw [hstrings]; decide)).2
  simp only [hstrings] at hfirst hsecond hread hread' hsize
  refine ⟨hopen, hstrings, data', q, hfinalize, hbase, Except.ok.inj hbytes, ?_, ?_⟩
  · rw [← hfirst, ← hsecond]
    exact hread
  · rw [← hsecond, hsize]
    exact hread'

end WasmBackend.StringPool
