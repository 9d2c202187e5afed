import ExprLang.Number.Reading
import ExprLang.Proofs.Doubles.Patterns
import ExprLang.Proofs.Doubles.Rounding

/-!
Doubles that are numbers without a sign. Those are the values of number literals: a decimal is
rounded to one, and sums and products of them are again such.
-/
namespace ExprLang.Binary64

open Float.Model Float.Model.UnpackedFloat

/-- Neither negative nor a NaN. The zero is the positive one. -/
structure Unsigned (x : Float) : Prop where
  isNegative : isNegative x = false
  isNaN : isNaN x = false

def IsUnsigned : UnpackedFloat → Prop
  | .notANumber => False
  | .infinity s | .zero s | .finite s _ _ _ => s = .positive

variable {spec : Format} {u v : UnpackedFloat} {x y : Float}

theorem isUnsigned_unpack {b : BitVec spec.numBits} (hsign : unpackSign b = 0#1)
    (hnan : isNaNBits b = false) : IsUnsigned (unpack spec b) := by
  rw [isNaNBits, decide_eq_false_iff_not] at hnan
  have hpositive : Sign.ofBitVec (unpackSign b) = .positive := by
    rw [hsign]
    rfl
  simp only [UnpackedFloat.unpack]
  split
  · rename_i hexponent
    rw [if_pos (by_contra fun hmantissa => hnan ⟨hexponent, hmantissa⟩)]
    exact hpositive
  · split
    · split <;> exact hpositive
    · exact hpositive

theorem isNaNBits_packComponents {s : Sign} {e : BitVec spec.exponentBits}
    {m : BitVec spec.mantissaBitsWithoutImplicit} (h : e ≠ -1#_ ∨ m = 0#_) :
    isNaNBits (packComponents spec s e m) = false := by
  rw [isNaNBits, unpackExponent_packComponents, unpackMantissa_packComponents,
    decide_eq_false_iff_not, not_and_or, not_not]
  exact h

/-- Packing keeps that there is no sign. An exponent that is kept is never that of a NaN. -/
theorem unpackSign_pack (h : IsUnsigned u) :
    unpackSign (pack spec u) = 0#1 ∧ isNaNBits (pack spec u) = false := by
  have hzero : BitVec.ofNat spec.exponentBits 0 ≠ -1#_ := by
    rw [Ne, BitVec.zero_eq_neg_one_iff]
    exact (Nat.pos_of_ne_zero (Nat.ne_of_gt spec.he)).ne'
  cases u with
  | notANumber => exact h.elim
  | infinity s | zero s =>
    obtain rfl : s = .positive := h
    exact ⟨unpackSign_packComponents _ _ _, isNaNBits_packComponents (.inr rfl)⟩
  | finite s m e hm =>
    obtain rfl : s = .positive := h
    simp only [UnpackedFloat.pack]
    split
    · exact ⟨unpackSign_packComponents _ _ _, isNaNBits_packComponents (.inr rfl)⟩
    rename_i hfits
    split
    · refine ⟨unpackSign_packComponents _ _ _, isNaNBits_packComponents (.inl fun hones => ?_)⟩
      have hones := congrArg BitVec.toNat hones
      rw [BitVec.toNat_ofNat, BitVec.neg_one_eq_allOnes, BitVec.toNat_allOnes,
        Nat.mod_eq_of_lt (by omega)] at hones
      omega
    · exact ⟨unpackSign_packComponents _ _ _, isNaNBits_packComponents (.inl hzero)⟩

theorem isUnsigned_roundWithAccuracy (m : Nat) (e : Int) (a : Accuracy) :
    IsUnsigned (roundWithAccuracy spec .positive m e a) := by
  simp only [roundWithAccuracy]
  split <;> rfl

theorem isUnsigned_normalize {m : Int} (hm : 0 ≤ m) (e : Int) :
    IsUnsigned (UnpackedFloat.normalize spec m e .positive) := by
  unfold UnpackedFloat.normalize
  split
  · rename_i hlt
    exact absurd (Int.compare_eq_lt.1 hlt) (Int.not_lt.2 hm)
  · rfl
  · exact isUnsigned_roundWithAccuracy _ _ _

theorem isUnsigned_mul {m : Nat} {e : Int} {hm : 0 < m} (hu : IsUnsigned u) :
    IsUnsigned (UnpackedFloat.mul spec u (.finite .positive m e hm)) := by
  cases u with
  | notANumber => exact hu
  | infinity s | zero s =>
    obtain rfl : s = .positive := hu
    rfl
  | finite s =>
    obtain rfl : s = .positive := hu
    exact isUnsigned_roundWithAccuracy _ _ _

theorem isUnsigned_add (hu : IsUnsigned u) (hv : IsUnsigned v) :
    IsUnsigned (UnpackedFloat.add spec u v) := by
  cases u with
  | notANumber => exact hu.elim
  | infinity s =>
    obtain rfl : s = .positive := hu
    cases v with
    | notANumber => exact hv.elim
    | infinity t =>
      obtain rfl : t = .positive := hv
      rfl
    | _ => rfl
  | zero s =>
    obtain rfl : s = .positive := hu
    cases v with
    | notANumber => exact hv.elim
    | zero t =>
      obtain rfl : t = .positive := hv
      rfl
    | _ => exact hv
  | finite s m e hm =>
    obtain rfl : s = .positive := hu
    cases v with
    | notANumber => exact hv.elim
    | infinity t => exact hv
    | zero t => rfl
    | finite t n f hn =>
      obtain rfl : t = .positive := hv
      exact isUnsigned_normalize (Int.add_nonneg (Int.natCast_nonneg _) (Int.natCast_nonneg _)) _

theorem unsigned_iff : Unsigned x ↔
    @unpackSign .binary64 x.toBits.toBitVec = 0#1 ∧
      @isNaNBits .binary64 x.toBits.toBitVec = false := by
  have hsign : isNegative x = false ↔
      @unpackSign .binary64 x.toBits.toBitVec = 0#1 := by
    have hlt := x.toBits.toNat_lt
    rw [isNegative, decide_eq_false_iff_not, ← BitVec.toNat_inj, unpackSign_def,
      BitVec.extractLsb'_toNat, Nat.shiftRight_eq_div_pow]
    simp only [UInt64.toNat_toBitVec, BitVec.toNat_ofNat]
    norm_num [signBit]
    omega
  have hnan : isNaN x = false ↔
      @isNaNBits .binary64 x.toBits.toBitVec = false := by
    rw [isNaNBits_eq_false_iff, isNaN, magnitudeBits, decide_eq_false_iff_not, Nat.not_lt]
  exact ⟨fun h => ⟨hsign.1 h.isNegative, hnan.1 h.isNaN⟩, fun h => ⟨hsign.2 h.1, hnan.2 h.2⟩⟩

theorem Unsigned.unpack (h : Unsigned x) : IsUnsigned x.toModel.unpack :=
  isUnsigned_unpack (unsigned_iff.1 h).1 (unsigned_iff.1 h).2

theorem unsigned_pack (h : IsUnsigned u) : Unsigned ⟨Float.Model.pack u⟩ :=
  unsigned_iff.2 (unpackSign_pack h)

theorem Unsigned.add (hx : Unsigned x) (hy : Unsigned y) : Unsigned (x + y) :=
  unsigned_pack (isUnsigned_add hx.unpack hy.unpack)

theorem unsigned_ofMagnitude {bits : Nat} (h : bits ≤ infinityBits) :
    Unsigned (ofMagnitude false bits) where
  isNegative := isNegative_ofMagnitude h
  isNaN := by
    rw [Binary64.isNaN, magnitudeBits_ofMagnitude h, decide_eq_false_iff_not]
    exact Nat.not_lt.2 h

theorem unsigned_ofRatio (num den : Nat) : Unsigned (ofRatio false num den) :=
  unsigned_ofMagnitude (bitsOfRatio_le num den)

end ExprLang.Binary64

namespace ExprLang.Reading

open Binary64

theorem unsigned_toFloat {n : Numeral} (h : n.negative = false) : Unsigned n.toFloat := by
  rw [Numeral.toFloat, h]
  split
  · exact unsigned_ofRatio _ _
  split
  · exact unsigned_ofMagnitude le_rfl
  split
  · exact unsigned_ofRatio _ _
  split <;> exact unsigned_ofRatio _ _

theorem unsigned_radixValue {radix : Nat} (hradix : radix = 2 ∨ radix = 8 ∨ radix = 16)
    (ds : List Nat) : Unsigned (radixValue radix ds) := by
  obtain ⟨m, e, hm, hfinite⟩ : ∃ m e hm,
      (ofNat radix).toModel.unpack = .finite .positive m e hm := by
    rcases hradix with rfl | rfl | rfl <;> exact ⟨_, _, _, rfl⟩
  have hfold : ∀ x, Unsigned x →
      Unsigned (ds.foldl (fun x d => x * ofNat radix + ofNat d) x) := by
    induction ds with
    | nil => exact fun x hx => hx
    | cons d ds ih =>
      intro x hx
      refine ih _ (Unsigned.add (unsigned_pack ?_) (unsigned_ofRatio d 1))
      rw [hfinite]
      exact isUnsigned_mul hx.unpack
  exact hfold _ (unsigned_ofRatio 0 1)

end ExprLang.Reading
