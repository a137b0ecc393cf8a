import MinCorehdr.Emitter.Header
import MinCorehdr.Support.CConstant

/-!
# The constants of an enum

The printed constants read as the BTF values, except that a 32-bit enum is
always printed signed and that C has no literal for the smallest 64-bit number.
-/

namespace MinCorehdr

open Support.CConstant Support.Result

/-- The enumerators of a type and their values; the kind flag tells signed ones. -/
def enumValues (btf : Btf) (type : BtfType) : List (CString × Int) :=
  if type.kind = .enum then
    type.enums.map fun value =>
      (enumeratorName btf value.nameOff, if type.kflag then value.val.toInt else value.val.toNat)
  else
    type.enum64s.map fun value =>
      let bits : BitVec 64 := value.valHi32 ++ value.valLo32
      (enumeratorName btf value.nameOff, if type.kflag then bits.toInt else bits.toNat)

/-- Every value of the type has the text its flag asks for. -/
def EnumPrintable (type : BtfType) : Prop :=
  if type.kind = .enum then type.kflag = true ∨ ∀ value ∈ type.enums, value.val.toNat < 2 ^ 31
  else type.kflag = true →
    ∀ value ∈ type.enum64s, (value.valHi32 ++ value.valLo32 : BitVec 64) ≠ BitVec.intMin 64

theorem signedDecimal_eq_toDigits {n : Int} (h : 0 ≤ n) :
    signedDecimal n = Nat.toDigits 10 n.natAbs := by
  unfold signedDecimal
  rw [if_neg (by omega)]
  rfl

/-- `%lld` of a number other than the smallest reads back. -/
theorem constantValue_signedDecimal {n : Int} (hlow : -(2 ^ 63) < n) (hhigh : n < 2 ^ 63) :
    constantValue (signedDecimal n) = some n := by
  by_cases hneg : n < 0
  · unfold signedDecimal
    rw [if_pos hneg]
    change constantValue ('-' :: Nat.toDigits 10 n.natAbs) = some n
    have habs : n.natAbs < 2 ^ 63 := by omega
    rw [constantValue_minus, if_pos habs]
    have hvalue : -(n.natAbs : Int) = n := by omega
    rw [hvalue]
  · have hpos : 0 ≤ n := by omega
    rw [signedDecimal_eq_toDigits hpos, constantValue_toDigits (by omega)]
    have hvalue : (n.natAbs : Int) = n := by omega
    rw [hvalue]

theorem constantValue_smallest : constantValue (signedDecimal (-(2 ^ 63))) = none := by
  have habs : ((-(2 ^ 63) : Int)).natAbs = 2 ^ 63 := by decide
  unfold signedDecimal
  rw [if_pos (by decide), habs]
  change constantValue ('-' :: Nat.toDigits 10 (2 ^ 63)) = none
  rw [constantValue_minus, if_neg (by omega)]

/-! ## One enumerator -/

/-- `%d` reads as the signed value. -/
theorem constantValue_enum (value : BitVec 32) :
    constantValue (signedDecimal value.toInt) = some value.toInt := by
  have hlow := @BitVec.le_toInt 32 value
  have hhigh := @BitVec.toInt_lt 32 value
  exact constantValue_signedDecimal (by omega) (by omega)

/-- The signed value is the unsigned one in the lower half of the range. -/
theorem toInt_eq_toNat_iff (value : BitVec 32) :
    value.toInt = (value.toNat : Int) ↔ value.toNat < 2 ^ 31 := by
  rw [BitVec.toInt_eq_toNat_cond]
  split <;> omega

theorem constantValue_enum64_iff (bits : BitVec 64) :
    constantValue (signedDecimal bits.toInt) = some bits.toInt ↔ bits ≠ BitVec.intMin 64 := by
  have hlow := @BitVec.le_toInt 64 bits
  have hhigh := @BitVec.toInt_lt 64 bits
  constructor
  · rintro hread rfl
    have hsmallest : (BitVec.intMin 64).toInt = -(2 ^ 63) := by decide
    rw [hsmallest, constantValue_smallest] at hread
    cases hread
  · intro hne
    have hinner : bits.toInt ≠ -(2 ^ 63) := by
      intro heq
      apply hne
      apply BitVec.eq_of_toInt_eq
      rw [heq]
      decide
    exact constantValue_signedDecimal (by omega) (by omega)

/-! ## The whole list -/

/-- An enum definition that is printed reads back, name by name, as the values of
the type exactly where each value has its text. -/
theorem emitEnumDefinition_reads_iff {ctx : EmitCtx} {id : Nat} {type : BtfType}
    {st st' : EmitState} (htype : btfTypeById ctx.btf id = some type)
    (hkind : type.kind = .enum ∨ type.kind = .enum64)
    (h : emitEnumDefinition ctx id st = .ok st') :
    ∃ constants, st'.out = st.out ++ [.enumDef id (mchBtfTypeName ctx.btf type) constants] ∧
      (constants.map (fun constant => (constant.name, constantValue constant.value)) =
          (enumValues ctx.btf type).map (fun value => (value.1, some value.2)) ↔
        EnumPrintable type) := by
  obtain ⟨found, hfound, hst⟩ := bind_eq_ok.mp h
  have hsome : typeById ctx id = .ok type := by
    unfold typeById
    rw [htype]
  rw [hsome] at hfound
  cases hfound
  cases hst
  refine ⟨enumerators ctx.btf type, rfl, ?_⟩
  unfold enumerators enumValues EnumPrintable
  rcases hkind with hkind | hkind
  · simp only [hkind, if_true, List.map_map]
    cases hflag : type.kflag with
    | true => simp [constantValue_enum]
    | false => simp [constantValue_enum, toInt_eq_toNat_iff]
  · simp only [hkind, reduceCtorEq, if_false, List.map_map]
    cases hflag : type.kflag with
    | true => simp [constantValue_enum64_iff]
    | false =>
        have hread : ∀ bits : BitVec 64,
            constantValue (decimal bits.toNat ++ "ULL".toList) = some (bits.toNat : Int) :=
          fun bits => constantValue_unsigned bits.isLt
        simp only [List.map_inj_left, Function.comp_apply, Prod.mk.injEq, true_and]
        exact iff_of_true (fun value _ => hread _) fun hsigned => Bool.noConfusion hsigned

/-- `enum E { A = 4294967295 }`, an unsigned enum. -/
def unsignedEnumType : BtfType :=
  { nameOff := 1, kind := .enum, size := 4, enums := [{ nameOff := 3, val := 0xffffffff }] }

def unsignedEnum : Btf where
  types := [unsignedEnumType]
  strs := "\x00E\x00A\x00".toList

/-- What is printed for it. -/
def unsignedEnumPrinted : EmitState :=
  initialEmitState.print (.enumDef 1 ['E'] [{ name := ['A'], value := "-1".toList }])

theorem emitEnumDefinition_reads_unsignedEnum :
    ∃ constants, unsignedEnumPrinted.out = initialEmitState.out ++ [.enumDef 1 ['E'] constants] ∧
      (constants.map (fun constant => (constant.name, constantValue constant.value)) =
          (enumValues unsignedEnum unsignedEnumType).map (fun value => (value.1, some value.2)) ↔
        EnumPrintable unsignedEnumType) :=
  @emitEnumDefinition_reads_iff (emitCtx unsignedEnum none) 1 unsignedEnumType initialEmitState
    unsignedEnumPrinted rfl (Or.inl rfl) rfl

/-- The value is 4294967295, and the constant that is printed reads -1. -/
theorem unsignedEnum_readsNegative :
    emitEnumDefinition (emitCtx unsignedEnum none) 1 initialEmitState = .ok unsignedEnumPrinted ∧
      enumValues unsignedEnum unsignedEnumType = [(['A'], 4294967295)] ∧
      constantValue "-1".toList = some (-1) :=
  ⟨rfl, by decide, by decide⟩

end MinCorehdr
