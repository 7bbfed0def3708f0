import WasmBackend.Proofs.ArrayMachine

/-! # Elements of native and host arrays

A native array and a host buffer keep a stored value as the same bit pattern (`exists_store`) and give
it back as the same value (`exists_read`), whichever extension the read asks for. Floats pass the
border to the host as numbers, which keep every value but not the payload of a NaN, so NaNs are
compared as NaNs (`SameValue`, `SameElement`). -/

namespace WasmBackend.Machine

open Host (BufferKind)

/-- The values are equal, or NaNs of one type. -/
inductive SameValue : Value → Value → Prop
  | refl (v : Value) : SameValue v v
  | nan32 {x y : F32} : x.value.IsNaN → y.value.IsNaN → SameValue (.f32 x) (.f32 y)
  | nan64 {x y : F64} : x.value.IsNaN → y.value.IsNaN → SameValue (.f64 x) (.f64 y)

theorem SameValue.of_eq {v w : Value} (h : v = w) : SameValue v w := h ▸ .refl v

/-- The pattern is a NaN of a float type. -/
def IsNaNPattern (ty : ValueType) (pattern : Nat) : Prop :=
  match ty with
  | .f32 => (F32.value ⟨UInt32.ofNat pattern⟩).IsNaN
  | .f64 => (F64.value ⟨UInt64.ofNat pattern⟩).IsNaN
  | _ => False

/-- Two patterns stand for the same element: they are equal, or NaNs. -/
structure SameElement (ty : ValueType) (p q : Nat) : Prop where
  lt : p < Nat.pow 2 (storageBits ty)
  same : p = q ∨ IsNaNPattern ty p ∧ IsNaNPattern ty q

theorem SameElement.zero (ty : ValueType) : SameElement ty 0 0 :=
  ⟨Nat.pow_pos (by decide), .inl rfl⟩

/-! ### Words -/

theorem ofInt32_congr {a b : Int} (h : a % (Int32.size : Int) = b % (Int32.size : Int)) :
    Int32.ofInt a = Int32.ofInt b := by
  rw [← Int32.toInt_inj, Int32.toInt_ofInt, Int32.toInt_ofInt, ← Int.emod_bmod, h, Int.emod_bmod]

theorem natAbs_toInt_lt (v : Int32) : v.toInt.natAbs < 2 ^ 53 := by
  have := v.le_toInt
  have := v.toInt_lt
  omega

theorem ofInt_toWord {n : Int} (h : n.natAbs < 2 ^ 53) :
    Int32.ofInt (Host.toWord 32 (F64.ofInt n).value) = Int32.ofInt n := by
  rw [Host.toWord_ofInt 32 h]
  refine ofInt32_congr ?_
  have hsize : (Int32.size : Int) = (Nat.pow 2 32 : Nat) := rfl
  rw [hsize, Int.toNat_of_nonneg (Int.emod_nonneg n (by decide)), Int.emod_emod]

theorem natAbs_bmod_lt (p : Nat) {k : Nat} (hk : k ≤ 32) :
    (Int.bmod p (Nat.pow 2 k)).natAbs < 2 ^ 53 := by
  have hm : 0 < Nat.pow 2 k := Nat.two_pow_pos k
  have hle : Nat.pow 2 k ≤ 2 ^ 32 := Nat.pow_le_pow_right (by decide) hk
  have hlower := Int.le_bmod (x := (p : Int)) hm
  have hupper := Int.bmod_lt (x := (p : Int)) hm
  omega

theorem and_mask {k : Nat} (hk : k ≤ 32) {mask : Int32}
    (hmask : mask.toBitVec.toNat = 2 ^ k - 1) (n : Int) :
    Int32.ofInt n &&& mask = Int32.ofInt (n % (2 ^ k : Nat)) := by
  have hpos : (0 : Int) < (2 ^ k : Nat) := Int.natCast_pos.mpr (Nat.two_pow_pos k)
  have hdvd : ((2 ^ k : Nat) : Int) ∣ ((2 ^ 32 : Nat) : Int) :=
    Int.natCast_dvd_natCast.mpr (Nat.pow_dvd_pow 2 hk)
  have hmod : n % (2 ^ k : Nat) % (2 ^ 32 : Nat) = n % (2 ^ k : Nat) := by
    have hle := Int.le_of_dvd (by decide) hdvd
    exact Int.emod_eq_of_lt (Int.emod_nonneg n hpos.ne') ((Int.emod_lt_of_pos n hpos).trans_le hle)
  rw [← Int32.toBitVec_inj, Int32.toBitVec_and, Int32.toBitVec_ofInt, Int32.toBitVec_ofInt]
  apply BitVec.eq_of_toNat_eq
  rw [BitVec.toNat_and, hmask, Nat.and_two_pow_sub_one_eq_mod, BitVec.toNat_ofInt,
    BitVec.toNat_ofInt, hmod, ← Int.emod_emod_of_dvd n hdvd,
    Int.toNat_emod (Int.emod_nonneg n (by decide)) hpos.le, Int.toNat_natCast]

theorem bmod_and_mask {k : Nat} (hk : k ≤ 32) {mask : Int32}
    (hmask : mask.toBitVec.toNat = 2 ^ k - 1) {p : Nat} (hp : p < 2 ^ k) :
    Int32.ofInt (Int.bmod p (2 ^ k)) &&& mask = Int32.ofInt p := by
  rw [and_mask hk hmask, Int.bmod_emod]
  congr 1
  exact Int.emod_eq_of_lt (Int.natCast_nonneg p) (Int.ofNat_lt.mpr hp)

theorem bmod_toInt_ofInt {m p : Nat} (hp : p < 2 ^ 31) :
    Int32.ofInt (Int.bmod (Int32.ofInt p).toInt m) = Int32.ofInt (Int.bmod p m) := by
  rw [Int32.toInt_ofInt_of_le (by omega) (by omega)]

/-! ### Storing -/

theorem sameElement_word (ty : ValueType) {n : Int} {q : Nat}
    (hq : q = (n % (Nat.pow 2 (storageBits ty) : Nat)).toNat) :
    SameElement ty (n % (Nat.pow 2 (storageBits ty) : Nat)).toNat q := by
  have hpos : (0 : Int) < (Nat.pow 2 (storageBits ty) : Nat) :=
    Int.natCast_pos.mpr (Nat.pow_pos (by decide))
  have hlt := Int.emod_lt_of_pos n hpos
  exact ⟨by omega, .inl hq.symm⟩

@[simp]
theorem isNaNPattern_f32 (x : F32) : IsNaNPattern .f32 x.bits.toNat ↔ x.value.IsNaN := by
  simp [IsNaNPattern]

@[simp]
theorem isNaNPattern_f64 (x : F64) : IsNaNPattern .f64 x.bits.toNat ↔ x.value.IsNaN := by
  simp [IsNaNPattern]

theorem sameElement_float {ty : ValueType} {p q : Nat} (hlt : p < Nat.pow 2 (storageBits ty))
    (hsame : ¬ IsNaNPattern ty p → q = p) (hnan : IsNaNPattern ty p → IsNaNPattern ty q) :
    SameElement ty p q := by
  refine ⟨hlt, ?_⟩
  by_cases hp : IsNaNPattern ty p
  · exact .inr ⟨hp, hnan hp⟩
  · exact .inl (hsame hp).symm

/-- **A stored value becomes the same element** of a native array and of a host buffer. -/
theorem exists_store {ty : ValueType} {kind : BufferKind}
    (hkind : BufferKind.ofType? ty = some kind) {v : Literal} (hv : v.type = ty.widened) :
    ∃ p w q, pack ty (.ofLiteral v) = some p ∧ (Value.ofLiteral v).toHost? = some w ∧
      kind.store w = some q ∧ SameElement ty p q := by
  cases ty with
  | i8 | bool | i16 | u16 | i32 =>
    cases hkind
    cases v with
    | i32 n =>
      refine ⟨_, _, _, rfl, rfl, rfl, sameElement_word _ ?_⟩
      exact Host.toWord_ofInt _ (natAbs_toInt_lt n)
    | _ => cases hv
  | i64 =>
    cases hkind
    cases v with
    | i64 n => exact ⟨_, _, _, rfl, rfl, rfl, sameElement_word _ rfl⟩
    | _ => cases hv
  | f32 =>
    cases hkind
    cases v with
    | f32 x =>
      refine ⟨_, _, _, rfl, rfl, rfl, sameElement_float x.bits.toNat_lt ?_ ?_⟩
      · intro hx
        exact congrArg (·.bits.toNat) (F32.round_widen (by simpa using hx))
      · rw [isNaNPattern_f32, isNaNPattern_f32]
        exact fun hx => F32.isNaN_round (F64.isNaN_round hx)
    | _ => cases hv
  | f64 =>
    cases hkind
    cases v with
    | f64 x =>
      refine ⟨_, _, _, rfl, rfl, rfl, sameElement_float x.bits.toNat_lt ?_ ?_⟩
      · intro hx
        exact congrArg (·.bits.toNat) (F64.round_value (by simpa using hx))
      · rw [isNaNPattern_f64, isNaNPattern_f64]
        exact F64.isNaN_round
    | _ => cases hv
  | funcRef | externRef | anyRef | eqRef => cases hkind

/-! ### Reading -/

/-- The operation reads an element. -/
def isRead : ArrayOp → Bool
  | .get | .getSigned | .getUnsigned => true
  | _ => false

theorem ne_new_of_isRead {op : ArrayOp} (h : isRead op = true) :
    op ≠ .new ∧ op ≠ .newWithDescriptor := by
  constructor <;> rintro rfl <;> cases h

/-- The code replaces the topmost operand by another, and does nothing else. -/
def Replaces (code : List Emission) (v w : Value) : Prop :=
  ∀ (types : TypeRegistry) (functions : FunctionRegistry) (s : State) (stack : List Value),
    run types functions { s with stack := v :: stack } code = some { s with stack := w :: stack }

theorem replaces_nil (v : Value) : Replaces [] v v := fun _ _ _ _ => rfl

theorem ofHost?_ofInt {n : Int} (h : n.natAbs < 2 ^ 53) :
    Value.ofHost? .i32 (.number (F64.ofInt n)) = some (.i32 (Int32.ofInt n)) := by
  simp only [Value.ofHost?, Host.Value.toNumber?, Option.map_some, ofInt_toWord h]

theorem ofHost?_bmod (p : Nat) {k : Nat} (hk : k ≤ 32) :
    Value.ofHost? .i32 (.number (F64.ofInt (Int.bmod p (Nat.pow 2 k)))) =
      some (.i32 (Int32.ofInt (Int.bmod p (Nat.pow 2 k)))) :=
  ofHost?_ofInt (natAbs_bmod_lt p hk)

/-- **The same element is read as the same value** from a native array and, with the extension that
follows, from a host buffer. -/
theorem exists_read {ty : ValueType} {kind : BufferKind}
    (hkind : BufferKind.ofType? ty = some kind) {op : ArrayOp} (hop : isRead op = true) {p q : Nat}
    (h : SameElement ty p q) :
    ∃ x y z, unpack (op.readOpcode (.value ty)) ty p = some x ∧
      Value.ofHost? (OperandType.hostType (.value ty)) (kind.load q) = some y ∧
      Replaces ((op.hostExtension (.value ty)).map .target) y z ∧ SameValue x z := by
  have hlt := h.lt
  cases ty with
  | i8 | i16 =>
    -- The buffer extends by the sign bit, and a mask takes that back.
    obtain rfl := h.same.resolve_right And.left
    cases hkind
    cases op with
    | get | getSigned =>
      exact ⟨_, _, _, rfl, ofHost?_bmod p (by decide), replaces_nil _, .refl _⟩
    | getUnsigned =>
      refine ⟨_, _, _, rfl, ofHost?_bmod p (by decide), fun _ _ _ _ => rfl, .of_eq ?_⟩
      exact congrArg Value.i32 (bmod_and_mask (by decide) rfl hlt).symm
    | _ => cases hop
  | u16 | bool =>
    -- The buffer extends by zeros, and the sign bit is still there.
    obtain rfl := h.same.resolve_right And.left
    cases hkind
    have hsmall : p < 2 ^ 31 := hlt.trans (by decide)
    have hread := ofHost?_ofInt (n := (p : Int)) (by omega)
    cases op with
    | get | getUnsigned => exact ⟨_, _, _, rfl, hread, replaces_nil _, .refl _⟩
    | getSigned =>
      refine ⟨_, _, _, rfl, hread, fun _ _ _ _ => rfl, .of_eq ?_⟩
      exact congrArg Value.i32 (bmod_toInt_ofInt hsmall).symm
    | _ => cases hop
  | i32 =>
    obtain rfl := h.same.resolve_right And.left
    cases hkind
    have hread := ofHost?_bmod p (by decide : 32 ≤ 32)
    have hword : Int32.ofInt p = Int32.ofInt (Int.bmod p (Nat.pow 2 32)) :=
      ofInt32_congr Int.bmod_emod.symm
    cases op with
    | get | getSigned | getUnsigned =>
      exact ⟨_, _, _, rfl, hread, replaces_nil _, .of_eq (congrArg Value.i32 hword)⟩
    | _ => cases hop
  | i64 =>
    obtain rfl := h.same.resolve_right And.left
    cases hkind
    have hword : Int64.ofInt p = Int64.ofInt (Int.bmod p (Nat.pow 2 64)) := by
      rw [← Int64.toInt_inj, Int64.toInt_ofInt, Int64.toInt_ofInt]
      exact Int.bmod_bmod.symm
    cases op with
    | get | getSigned | getUnsigned =>
      exact ⟨_, _, _, rfl, rfl, replaces_nil _, .of_eq (congrArg Value.i64 hword)⟩
    | _ => cases hop
  | f32 =>
    cases hkind
    have hsame : SameValue (.f32 ⟨UInt32.ofNat p⟩)
        (.f32 (F32.round (F64.round (F32.value ⟨UInt32.ofNat q⟩)).value)) := by
      by_cases hnan : (F32.value ⟨UInt32.ofNat q⟩).IsNaN
      · refine .nan32 ?_ (F32.isNaN_round (F64.isNaN_round hnan))
        rcases h.same with rfl | ⟨hp, -⟩
        · exact hnan
        · exact hp
      · obtain rfl := h.same.resolve_right fun hboth => hnan hboth.2
        exact .of_eq (congrArg Value.f32 (F32.round_widen hnan).symm)
    cases op with
    | get | getSigned | getUnsigned => exact ⟨_, _, _, rfl, rfl, replaces_nil _, hsame⟩
    | _ => cases hop
  | f64 =>
    cases hkind
    have hsame : SameValue (.f64 ⟨UInt64.ofNat p⟩) (.f64 ⟨UInt64.ofNat q⟩) := by
      rcases h.same with rfl | ⟨hp, hq⟩
      · exact .refl _
      · exact .nan64 hp hq
    cases op with
    | get | getSigned | getUnsigned => exact ⟨_, _, _, rfl, rfl, replaces_nil _, hsame⟩
    | _ => cases hop
  | funcRef | externRef | anyRef | eqRef => cases hkind

end WasmBackend.Machine
