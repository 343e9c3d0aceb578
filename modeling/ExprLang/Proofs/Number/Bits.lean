import Mathlib
import ExprLang.Number.Binary64

namespace ExprLang.Number
open Float.Model Float.Model.UnpackedFloat

theorem twoTo_eq (n : Nat) : twoTo n = 2 ^ n := rfl

theorem tenTo_eq (n : Nat) : tenTo n = 10 ^ n := rfl

theorem log2_eq_of_bounds {n k : Nat} (h : 2 ^ k ≤ n) (h' : n < 2 ^ (k + 1)) : n.log2 = k := by
  have hn : n ≠ 0 := by have := Nat.two_pow_pos k; omega
  have hle : k ≤ n.log2 := (Nat.le_log2 hn).mpr h
  have hlt : n.log2 < k + 1 := (Nat.log2_lt hn).mpr h'
  omega

section Fields

variable (b : BitVec Format.binary64.numBits)

theorem toNat_unpackMantissa : (unpackMantissa b).toNat = b.toNat % 2 ^ 52 := by
  simp [unpackMantissa, BitVec.extractLsb, Format.binary64]

theorem toNat_unpackExponent (h : b.toNat < 2 ^ 63) :
    (unpackExponent b).toNat = b.toNat / 2 ^ 52 := by
  simp only [unpackExponent, BitVec.extractLsb, BitVec.toNat_cast, BitVec.extractLsb'_toNat,
    Nat.shiftRight_eq_div_pow, Format.binary64]
  omega

theorem unpackSign_eq_zero (h : b.toNat < 2 ^ 63) : unpackSign b = 0#1 := by
  apply BitVec.eq_of_toNat_eq
  simp only [unpackSign, BitVec.extractLsb, BitVec.toNat_cast, BitVec.extractLsb'_toNat,
    Nat.shiftRight_eq_div_pow, Format.binary64, BitVec.toNat_ofNat]
  omega

theorem toNat_packComponents (e : BitVec 11) (m : BitVec 52) :
    (packComponents .binary64 .positive e m).toNat = e.toNat * 2 ^ 52 + m.toNat := by
  have hm := m.isLt
  simp only [packComponents, Sign.toBitVec, Format.binary64, BitVec.toNat_append,
    BitVec.toNat_ofNat, Nat.zero_mod, Nat.zero_shiftLeft, Nat.zero_or]
  rw [← Nat.shiftLeft_add_eq_or_of_lt hm, Nat.shiftLeft_eq]

theorem unpackMantissa_eq_zero (h : b.toNat ≤ 2047 * 2 ^ 52) (he : unpackExponent b = -1#_) :
    unpackMantissa b = 0#_ := by
  have he' : b.toNat / 2 ^ 52 = 2047 := by rw [← toNat_unpackExponent b (by omega), he]; rfl
  apply BitVec.eq_of_toNat_eq
  rw [toNat_unpackMantissa]
  simp only [Format.binary64, BitVec.toNat_ofNat]
  omega

theorem toNat_leading : (1#1 ++ unpackMantissa b).toNat = 2 ^ 52 + b.toNat % 2 ^ 52 := by
  rw [BitVec.toNat_append, ← Nat.shiftLeft_add_eq_or_of_lt (unpackMantissa b).isLt,
    toNat_unpackMantissa, Nat.shiftLeft_eq]
  rfl

theorem log2_leading : (1#1 ++ unpackMantissa b).toNat.log2 = 52 := by
  rw [toNat_leading]
  apply log2_eq_of_bounds <;> omega

theorem log2_unpackMantissa_ne : (unpackMantissa b).toNat.log2 ≠ 52 := by
  intro heq
  have hlow := Nat.log2_self_le (n := (unpackMantissa b).toNat) (by
    intro hz
    simp [hz] at heq)
  rw [heq, toNat_unpackMantissa] at hlow
  omega

/-- The bits up to those of infinity unpack to something without a sign, and not to a NaN. -/
theorem unpack_cases (h : b.toNat ≤ 2047 * 2 ^ 52) :
    UnpackedFloat.unpack .binary64 b = .infinity .positive ∨
      UnpackedFloat.unpack .binary64 b = .zero .positive ∨
      ∃ m e hm, UnpackedFloat.unpack .binary64 b = .finite .positive m e hm := by
  have hsign : Sign.ofBitVec (unpackSign b) = .positive := by
    rw [unpackSign_eq_zero b (by omega)]
    rfl
  rw [UnpackedFloat.unpack]
  simp only [hsign]
  split
  · rename_i he
    exact .inl (if_pos (unpackMantissa_eq_zero b h he))
  · split
    · split
      · exact .inr (.inl rfl)
      · rename_i hmant
        have hpos : 0 < (unpackMantissa b).toNat :=
          Nat.pos_of_ne_zero fun hz => hmant (BitVec.eq_of_toNat_eq hz)
        exact .inr (.inr ⟨_, _, hpos, rfl⟩)
    · have hpos : 0 < (1#1 ++ unpackMantissa b).toNat := by
        rw [toNat_leading]
        omega
      exact .inr (.inr ⟨_, _, hpos, rfl⟩)

theorem toNat_pack_unpack (h : b.toNat ≤ 2047 * 2 ^ 52) :
    (UnpackedFloat.pack .binary64 (UnpackedFloat.unpack .binary64 b)).toNat = b.toNat := by
  have hm := toNat_unpackMantissa b
  have he := toNat_unpackExponent b (by omega)
  have hs : Sign.ofBitVec (unpackSign b) = .positive := by
    rw [unpackSign_eq_zero b (by omega)]
    rfl
  have hbias : (Format.binary64.exponentBias : Int) = 1023 := rfl
  have hbits : Format.binary64.mantissaBits = 53 := rfl
  rw [UnpackedFloat.unpack]
  simp only [hs]
  split
  · rename_i hexp
    have hexp' : b.toNat / 2 ^ 52 = 2047 := by rw [← he, hexp]; rfl
    rw [if_pos (unpackMantissa_eq_zero b h hexp), UnpackedFloat.pack, packedInfinity,
      toNat_packComponents]
    simp
    omega
  · rename_i hexp
    have hexp' : b.toNat / 2 ^ 52 ≠ 2047 := by
      intro heq
      exact hexp (BitVec.eq_of_toNat_eq (by rw [he, heq]; rfl))
    split
    · rename_i hzero
      have hzero' : b.toNat / 2 ^ 52 = 0 := by rw [← he, hzero]; rfl
      split
      · rename_i hmant
        have hmant' : b.toNat % 2 ^ 52 = 0 := by rw [← hm, hmant]; rfl
        rw [UnpackedFloat.pack, packedZero, toNat_packComponents]
        simp
        omega
      · -- A subnormal number: there is no leading bit to leave out.
        have hlog : (unpackMantissa b).toNat.log2 + 1 ≠ 53 :=
          fun heq => log2_unpackMantissa_ne b (Nat.succ.inj heq)
        rw [UnpackedFloat.pack]
        simp only [hzero, hbias, hbits]
        rw [if_neg (by decide), if_neg hlog, toNat_packComponents]
        simp [hm]
        omega
    · rename_i hzero
      have hzero' : b.toNat / 2 ^ 52 ≠ 0 := by
        intro heq
        exact hzero (BitVec.eq_of_toNat_eq (by rw [he, heq]; rfl))
      have hback : (((b.toNat / 2 ^ 52 : Nat) : Int) - (1023 + ((52 : Nat) : Int)) + 1023 +
          ((52 : Nat) : Int)).toNat = b.toNat / 2 ^ 52 := by omega
      have hlead := toNat_leading b
      have hlog := log2_leading b
      rw [UnpackedFloat.pack]
      simp only [he, hbias, hbits, hlog, Format.binary64, hback]
      rw [if_neg (by omega), if_pos trivial, toNat_packComponents]
      simp only [BitVec.toNat_ofNat, hlead]
      omega

end Fields

theorem infinityBits_eq : infinityBits = 2047 * 2 ^ 52 := rfl

theorem toBits_ofSignBits {n : Nat} (h : n ≤ infinityBits) :
    (ofSignBits false n).toBits.toNat = n := by
  rw [infinityBits_eq] at h
  have hn : (UInt64.ofNat n).toBitVec.toNat = n := by
    simp only [UInt64.toNat_toBitVec, UInt64.toNat_ofNat']
    omega
  have hback := toNat_pack_unpack (UInt64.ofNat n).toBitVec (hn.trans_le h)
  exact hback.trans hn

theorem ofSignBits_toBits {x : Float} (h : x.toBits.toNat ≤ infinityBits) :
    ofSignBits false x.toBits.toNat = x := by
  have hback := toBits_ofSignBits h
  generalize ofSignBits false x.toBits.toNat = y at hback
  obtain ⟨⟨bx, hx⟩⟩ := x
  obtain ⟨⟨b, hy⟩⟩ := y
  have heq : b = bx := UInt64.toNat_inj.mp hback
  subst heq
  rfl

/-- A number without the sign of a zero, which plays no part when numbers are compared. -/
def withoutZeroSign : UnpackedFloat → UnpackedFloat
  | .zero _ => .zero .positive
  | u => u

theorem withoutZeroSign_eq_notANumber {u : UnpackedFloat} :
    withoutZeroSign u = .notANumber ↔ u = .notANumber := by
  cases u <;> simp [withoutZeroSign]

theorem withoutZeroSign_of_compare {u v : UnpackedFloat} (h : u.compare v = some .eq) :
    withoutZeroSign u = withoutZeroSign v := by
  cases u with
  | notANumber => cases h
  | infinity s =>
    cases v with
    | infinity t => cases s <;> cases t <;> first | rfl | cases h
    | notANumber | zero | finite => cases s <;> cases h
  | zero s =>
    cases v with
    | zero t => rfl
    | notANumber => cases h
    | infinity t | finite t => cases t <;> cases h
  | finite s m e hm =>
    cases v with
    | notANumber => cases h
    | zero => cases s <;> cases h
    | infinity t => cases s <;> cases t <;> cases h
    | finite t n f hn =>
      have hfields : s = t ∧ e = f ∧ m = n := by
        cases s <;> cases t <;> simp [UnpackedFloat.compare, Ordering.then_eq_eq] at h ⊢
        · exact h
        · exact h
      obtain ⟨rfl, rfl, rfl⟩ := hfields
      rfl

theorem compare_self {u : UnpackedFloat} (h : u ≠ .notANumber) : u.compare u = some .eq := by
  cases u with
  | infinity s => cases s <;> rfl
  | notANumber => exact absurd rfl h
  | zero s => rfl
  | finite s m e hm => cases s <;> simp [UnpackedFloat.compare, Ordering.then]

theorem compare_eq_iff {u v : UnpackedFloat} : u.compare v = some .eq ↔
    u ≠ .notANumber ∧ withoutZeroSign u = withoutZeroSign v := by
  constructor
  · intro h
    refine ⟨?_, withoutZeroSign_of_compare h⟩
    rintro rfl
    cases h
  · rintro ⟨hu, h⟩
    cases u with
    | notANumber => exact absurd rfl hu
    | zero s => cases v <;> first | rfl | cases h
    | infinity s =>
      cases v <;> cases h
      exact compare_self hu
    | finite s m e hm =>
      cases v <;> cases h
      exact compare_self hu

theorem isNaN_eq_false_iff {x : Float} : x.isNaN = false ↔ x.toModel.unpack ≠ .notANumber := by
  change x.toModel.unpack.isNaN = false ↔ _
  cases x.toModel.unpack <;> simp [UnpackedFloat.isNaN]

/-- Equal numbers are the same up to the sign of a zero, and no NaN is equal to anything. -/
theorem beq_iff {x y : Float} : (x == y) = true ↔ x.isNaN = false ∧
    withoutZeroSign x.toModel.unpack = withoutZeroSign y.toModel.unpack := by
  rw [isNaN_eq_false_iff, ← compare_eq_iff]
  change (x.toModel.unpack.compare y.toModel.unpack == some .eq) = true ↔ _
  rw [beq_iff_eq]

theorem beq_self_of_isNaN {x : Float} (h : x.isNaN = false) : (x == x) = true :=
  beq_iff.mpr ⟨h, rfl⟩

theorem isNaN_of_beq {x y : Float} (h : (x == y) = true) : x.isNaN = false :=
  (beq_iff.mp h).1

theorem beq_symm {x y : Float} (h : (x == y) = true) : (y == x) = true := by
  obtain ⟨hx, hxy⟩ := beq_iff.mp h
  refine beq_iff.mpr ⟨isNaN_eq_false_iff.mpr fun hy => ?_, hxy.symm⟩
  rw [hy] at hxy
  exact isNaN_eq_false_iff.mp hx (withoutZeroSign_eq_notANumber.mp hxy)

theorem beq_trans {x y z : Float} (hxy : (x == y) = true) (hyz : (y == z) = true) :
    (x == z) = true := by
  obtain ⟨hx, hxy⟩ := beq_iff.mp hxy
  exact beq_iff.mpr ⟨hx, hxy.trans (beq_iff.mp hyz).2⟩

section Unsigned

variable {x : Float} (h : x.toBits.toNat ≤ infinityBits)
include h

theorem unpack_unsigned : x.toModel.unpack = .infinity .positive ∨
    x.toModel.unpack = .zero .positive ∨
    ∃ m e hm, x.toModel.unpack = .finite .positive m e hm :=
  unpack_cases x.toModel.toBits.toBitVec h

theorem isNaN_eq_false : x.isNaN = false := by
  change x.toModel.unpack.isNaN = false
  rcases unpack_unsigned h with hx | hx | ⟨m, e, hm, hx⟩ <;> rw [hx] <;> rfl

theorem zero_le : 0 ≤ x := by
  have hzero : (0 : Float).toModel.unpack = .zero .positive := rfl
  have hle : ((0 : Float).toModel.unpack.le x.toModel.unpack) = true := by
    rw [hzero]
    rcases unpack_unsigned h with hx | hx | ⟨m, e, hm, hx⟩ <;> rw [hx] <;> rfl
  exact decide_eq_true hle

theorem beq_self : (x == x) = true := beq_self_of_isNaN (isNaN_eq_false h)

end Unsigned

end ExprLang.Number
