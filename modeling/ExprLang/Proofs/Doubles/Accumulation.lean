import ExprLang.Proofs.Doubles.Operations

/-!
Hexadecimal digits accumulated as a double. Below 2^53 the value is exact; from there on the digits
that follow are lost, and only the rounding of the first value past that bound is seen.
-/
namespace ExprLang

namespace Binary64

variable {k s m n d c r e bits : Nat} {x y : Float}

section Quotients

theorem div_mul_add (hr : r < c) (m d : Nat) : (m * c + r) / (d * c) = m / d := by
  have hc : 0 < c := Nat.zero_lt_of_lt hr
  rw [Nat.mul_comm d, ← Nat.div_div_eq_div_mul, Nat.mul_comm m, Nat.mul_add_div hc,
    Nat.div_eq_of_lt hr, Nat.add_zero]

theorem mod_mul_add (hr : r < c) (m d : Nat) : (m * c + r) % (d * c) = m % d * c + r := by
  have hc : 0 < c := Nat.zero_lt_of_lt hr
  rw [Nat.mul_comm d, Nat.mod_mul, Nat.mul_comm m, Nat.mul_add_mod, Nat.mul_add_div hc,
    Nat.mod_eq_of_lt hr, Nat.div_eq_of_lt hr, Nat.add_zero]
  ring

/-- What follows is seen in rounding exactly if it stands behind a half that was rounded down. -/
theorem roundDiv_mul_add (hr : r < c) (hd : d % 2 = 0) :
    roundDiv (m * c + r) (d * c) =
      if 2 * (m % d) = d ∧ m / d % 2 = 0 ∧ r ≠ 0 then m / d + 1 else roundDiv m d := by
  obtain ⟨g, rfl⟩ : ∃ g, d = 2 * g := ⟨d / 2, by omega⟩
  unfold roundDiv
  dsimp only
  rw [div_mul_add hr, mod_mul_add hr, Nat.mul_assoc 2 g c]
  generalize m % (2 * g) = f
  rcases lt_trichotomy f g with hlt | rfl | hgt
  · have hle : (f + 1) * c ≤ g * c := Nat.mul_le_mul_right c hlt
    rw [Nat.succ_mul] at hle
    rw [if_pos (by omega), if_neg (by omega), if_pos (by omega)]
  · split_ifs <;> omega
  · have hle : (g + 1) * c ≤ f * c := Nat.mul_le_mul_right c hgt
    rw [Nat.succ_mul] at hle
    rw [if_neg (by omega), if_pos (by omega), if_neg (by omega), if_neg (by omega),
      if_pos (by omega)]

end Quotients

section Integers

theorem ofNat_of_roundsTo (h : RoundsTo n bits) :
    ofNat n = ofMagnitude false (min bits infinityBits) := by
  refine ofRatio_of_roundsTo false Nat.one_pos ?_
  rwa [Nat.cast_one, div_one]

/-- The pattern to which an integer rounds, by its leading bits. -/
theorem roundsTo_natCast (hlow : hiddenBit * 2 ^ e ≤ n) (hhigh : n ≤ 2 * hiddenBit * 2 ^ e) :
    RoundsTo n ((1074 + e) * hiddenBit + roundDiv n (2 ^ e)) := by
  have hpower : 0 < 2 ^ e := Nat.two_pow_pos e
  have hpos : (0 : ℚ) < 2 ^ (1074 + e) := by positivity
  have hunits : inUnits n = n / (2 ^ e : Nat) * 2 ^ (1074 + e) := by
    rw [inUnits_eq, pow_add]
    push_cast
    field_simp
  refine roundsTo_of_significand ?_ (roundDiv_le hpower hhigh) (.inr (le_roundDiv hpower hlow)) ?_
    (.inr ?_)
  · rw [hunits]
    positivity
  · rw [hunits, mul_div_assoc, div_self hpos.ne', mul_one]
    exact halfEven_roundDiv n hpower
  · rw [hunits, mul_le_mul_iff_of_pos_right hpos, le_div_iff₀ (by exact_mod_cast hpower)]
    exact_mod_cast hlow

/-- An integer of at most 53 bits is a double, also with some zeros behind it. -/
theorem exists_magnitude (hn : n < 2 * hiddenBit) (he : e ≤ 4) :
    ∃ bits < infinityBits, (magnitude bits * 2 ^ smallestExponent : ℚ) = n * 2 ^ e := by
  rcases Nat.eq_zero_or_pos n with rfl | hpos
  · refine ⟨0, by decide, ?_⟩
    rw [magnitude_zero, Nat.cast_zero, zero_mul, zero_mul]
  obtain ⟨i, hi⟩ : ∃ i, n.log2 + i = 52 := by
    have hlog : n.log2 < 53 := (Nat.log2_lt hpos.ne').2 hn
    exact ⟨52 - n.log2, by omega⟩
  have hlow : 2 ^ n.log2 * 2 ^ i ≤ n * 2 ^ i := Nat.mul_le_mul_right _ (Nat.log2_self_le hpos.ne')
  have hhigh : n * 2 ^ i < 2 ^ (n.log2 + 1) * 2 ^ i :=
    Nat.mul_lt_mul_of_pos_right Nat.lt_log2_self (Nat.two_pow_pos i)
  rw [← pow_add, hi] at hlow
  rw [← pow_add, Nat.add_right_comm, hi] at hhigh
  have hsplits : Splits (1022 + e + n.log2) (n * 2 ^ i) := ⟨hhigh, .inr hlow⟩
  refine ⟨(1022 + e + n.log2) * hiddenBit + n * 2 ^ i, ?_, ?_⟩
  · have hlt := hsplits.lt
    norm_num [infinityBits, hiddenBit] at hlt ⊢
    omega
  · have hexponent : smallestExponent + (i + (1022 + e + n.log2) : Nat) = e := by
      rw [smallestExponent]
      omega
    rw [magnitude_splits hsplits]
    push_cast
    rw [mul_assoc (n : ℚ), ← pow_add, mul_assoc, ← zpow_natCast, ← zpow_add₀ two_ne_zero,
      add_comm, hexponent, zpow_natCast]

theorem exact_ofMagnitude (hbits : bits < infinityBits) :
    isFinite (ofMagnitude false bits) = true ∧
      exact (ofMagnitude false bits) = magnitude bits * 2 ^ smallestExponent := by
  rw [exact_eq, isFinite, magnitudeBits_ofMagnitude hbits.le, isNegative_ofMagnitude hbits.le,
    if_neg Bool.false_ne_true, one_mul]
  exact ⟨decide_eq_true hbits, rfl⟩

/-- The double of such an integer has it as its exact value. -/
theorem exact_ofNat (hn : n < 2 * hiddenBit) (he : e ≤ 4) :
    isFinite (ofNat (n * 2 ^ e)) = true ∧ exact (ofNat (n * 2 ^ e)) = n * 2 ^ e := by
  obtain ⟨bits, hbits, hmagnitude⟩ := exists_magnitude hn he
  have hrounds : RoundsTo (n * 2 ^ e : Nat) bits := by
    rw [Nat.cast_mul, Nat.cast_pow, Nat.cast_two, ← hmagnitude]
    exact roundsTo_magnitude bits
  rw [ofNat_of_roundsTo hrounds, min_eq_left hbits.le, ← hmagnitude]
  exact exact_ofMagnitude hbits

variable (hx : Unsigned x) (hy : Unsigned y) (hfx : isFinite x = true) (hfy : isFinite y = true)
include hx hy hfx hfy

theorem mul_eq_ofNat (h : exact x * exact y = n) : x * y = ofNat n := by
  obtain ⟨bits, hrounds, -⟩ := exists_roundsTo n Nat.one_pos
  rw [Nat.cast_one, div_one] at hrounds
  rw [ofNat_of_roundsTo hrounds]
  exact mul_rounds hx hy hfx hfy (h ▸ hrounds)

theorem add_eq_ofNat (h : exact x + exact y = n) : x + y = ofNat n := by
  obtain ⟨bits, hrounds, -⟩ := exists_roundsTo n Nat.one_pos
  rw [Nat.cast_one, div_one] at hrounds
  rw [ofNat_of_roundsTo hrounds]
  exact add_rounds hx hy hfx hfy (h ▸ hrounds)

end Integers

section Steps

/-- Up to 2^53 a digit is added exactly, and the sum is rounded once. -/
theorem step_exact (hn : n < 2 * hiddenBit) (hd : d < 16) :
    ofNat n * ofNat 16 + ofNat d = ofNat (16 * n + d) := by
  obtain ⟨hfinite, hexact⟩ := exact_ofNat (e := 0) hn (by omega)
  obtain ⟨hfinite16, hexact16⟩ := exact_ofNat (n := 1) (e := 4) (by decide) le_rfl
  obtain ⟨hfiniteD, hexactD⟩ := exact_ofNat (n := d) (e := 0) (hd.trans (by decide)) (by omega)
  obtain ⟨hfiniteProduct, hexactProduct⟩ := exact_ofNat (e := 4) hn le_rfl
  rw [pow_zero, Nat.mul_one] at hfinite hexact hfiniteD hexactD
  have hproduct : ofNat n * ofNat 16 = ofNat (n * 2 ^ 4) := by
    refine mul_eq_ofNat (unsigned_ofRatio _ _) (unsigned_ofRatio _ _) hfinite hfinite16 ?_
    rw [hexact]
    refine (congrArg _ hexact16).trans ?_
    push_cast
    ring
  rw [hproduct]
  refine add_eq_ofNat (unsigned_ofRatio _ _) (unsigned_ofRatio _ _) hfiniteProduct hfiniteD ?_
  rw [hexactProduct, hexactD]
  push_cast
  ring

theorem infinity_add (hy : Unsigned y) : infinity false + y = infinity false := by
  have hunpack : (infinity false).toModel.unpack = .infinity .positive := by rfl
  have hpack : (⟨Float.Model.pack (.infinity .positive)⟩ : Float) = infinity false := by
    decide +kernel
  have hu := hy.unpack
  change (⟨Float.Model.pack (Float.Model.UnpackedFloat.add .binary64
    (infinity false).toModel.unpack y.toModel.unpack)⟩ : Float) = _
  rw [hunpack]
  generalize y.toModel.unpack = u at hu ⊢
  cases u with
  | notANumber => exact hu.elim
  | infinity t =>
    obtain rfl : t = .positive := hu
    exact hpack
  | zero => exact hpack
  | finite => exact hpack

/-- A digit is less than half a step of a large enough significand. -/
theorem roundsTo_lost (hk : 1079 ≤ k) (hlow : hiddenBit ≤ s) (hhigh : s ≤ 2 * hiddenBit)
    (hd : d < 16) : RoundsTo (magnitude (k * hiddenBit + s) * 2 ^ smallestExponent + d)
      (k * hiddenBit + s) := by
  obtain ⟨j, hj⟩ : ∃ j : Nat, smallestExponent + k = 5 + (j : Int) :=
    ⟨k - 1079, by rw [smallestExponent]; omega⟩
  have hpos : (0 : ℚ) < 2 ^ k := pow_pos two_pos k
  have hstep : (2 ^ smallestExponent * 2 ^ k : ℚ) = 32 * 2 ^ j := by
    rw [← zpow_natCast, ← zpow_add₀ two_ne_zero, hj, zpow_add₀ two_ne_zero, zpow_natCast]
    norm_num
  have hunits : inUnits (magnitude (k * hiddenBit + s) * 2 ^ smallestExponent + d) / 2 ^ k =
      s + d / (32 * 2 ^ j) := by
    rw [inUnits, add_div, mul_div_cancel_right₀ _ (by positivity), add_div,
      magnitude_eq hhigh (.inr hlow), div_div, hstep]
    push_cast
    rw [mul_div_cancel_right₀ _ hpos.ne']
  have hnonneg : (0 : ℚ) ≤ d / (32 * 2 ^ j) := by positivity
  have hlt : (d / (32 * 2 ^ j) : ℚ) < 1 / 2 := by
    have hd : (d : ℚ) < 16 := by exact_mod_cast hd
    have hone : (1 : ℚ) ≤ 2 ^ j := one_le_pow₀ one_le_two
    rw [div_lt_div_iff₀ (by positivity) two_pos]
    linarith
  have hlow' : (hiddenBit : ℚ) ≤ s := by exact_mod_cast hlow
  refine roundsTo_of_significand (by unfold inUnits; positivity) hhigh (.inr hlow) ?_ (.inr ?_)
  · rw [hunits]
    refine ⟨by linarith, by linarith, ?_⟩
    rintro (hbelow | habove) <;> linarith
  · rw [← le_div_iff₀ hpos, hunits]
    linarith

/-- Past 2^53 a digit is lost. -/
theorem step_lost (hk : 1075 ≤ k) (hlow : hiddenBit ≤ s) (hhigh : s ≤ 2 * hiddenBit) (hd : d < 16) :
    ofMagnitude false (min (k * hiddenBit + s) infinityBits) * ofNat 16 + ofNat d =
      ofMagnitude false (min ((k + 4) * hiddenBit + s) infinityBits) := by
  have hnext : (k + 4) * hiddenBit + s = k * hiddenBit + s + 4 * hiddenBit := by ring
  have hinfinity : infinity false * ofNat 16 = infinity false := by decide +kernel
  have hdigit : Unsigned (ofNat d) := unsigned_ofRatio d 1
  rcases Nat.lt_or_ge (k * hiddenBit + s) infinityBits with hbits | hbits
  · obtain ⟨hfinite, hexact⟩ := exact_ofMagnitude hbits
    obtain ⟨hfinite16, hexact16⟩ := exact_ofNat (n := 1) (e := 4) (by decide) le_rfl
    have hproduct : ofMagnitude false (k * hiddenBit + s) * ofNat 16 =
        ofMagnitude false (min ((k + 4) * hiddenBit + s) infinityBits) := by
      refine mul_rounds (unsigned_ofMagnitude hbits.le) (unsigned_ofRatio _ _) hfinite hfinite16 ?_
      have hvalue : exact (ofMagnitude false (k * hiddenBit + s)) * exact (ofNat 16) =
          magnitude ((k + 4) * hiddenBit + s) * 2 ^ smallestExponent := by
        rw [hexact, magnitude_eq hhigh (.inr hlow), magnitude_eq hhigh (.inr hlow), pow_add]
        refine (congrArg _ hexact16).trans ?_
        push_cast
        ring
      rw [hvalue]
      exact roundsTo_magnitude _
    rw [min_eq_left hbits.le, hproduct]
    rcases Nat.lt_or_ge ((k + 4) * hiddenBit + s) infinityBits with hbits' | hbits'
    · obtain ⟨hfinite', hexact'⟩ := exact_ofMagnitude hbits'
      obtain ⟨hfiniteD, hexactD⟩ := exact_ofNat (n := d) (e := 0) (hd.trans (by decide)) (by omega)
      rw [pow_zero, Nat.mul_one] at hfiniteD hexactD
      rw [min_eq_left hbits'.le]
      refine (add_rounds (unsigned_ofMagnitude hbits'.le) hdigit hfinite' hfiniteD ?_).trans
        (congrArg _ (min_eq_left hbits'.le))
      rw [hexact', hexactD, pow_zero, mul_one]
      exact roundsTo_lost (by omega) hlow hhigh hd
    · rw [min_eq_right hbits']
      exact infinity_add hdigit
  · rw [min_eq_right hbits, min_eq_right (by omega)]
    change infinity false * ofNat 16 + ofNat d = infinity false
    rw [hinfinity, infinity_add hdigit]

end Steps

section Ties

/-- Halfway between two neighbouring doubles, of which the lower one is even. -/
def TieDown (n : Nat) : Prop :=
  ∃ s b, hiddenBit ≤ s ∧ s < 2 * hiddenBit ∧ s % 2 = 0 ∧ n = s * 2 ^ (b + 1) + 2 ^ b

theorem TieDown.le (h : TieDown n) : 2 * hiddenBit ≤ n := by
  obtain ⟨s, b, hs, -, -, rfl⟩ := h
  calc 2 * hiddenBit = hiddenBit * 2 := Nat.mul_comm _ _
    _ ≤ s * 2 ^ (b + 1) := Nat.mul_le_mul hs (Nat.le_self_pow (Nat.succ_ne_zero b) 2)
    _ ≤ _ := Nat.le_add_right _ _

theorem sixteen_pow (t : Nat) : 16 ^ t = 2 ^ (4 * t) := by
  rw [pow_mul]
  rfl

theorem tieDown_iff (he : 1 ≤ e) (hlow : hiddenBit * 2 ^ e ≤ m)
    (hhigh : m < 2 * hiddenBit * 2 ^ e) :
    TieDown m ↔ 2 * (m % 2 ^ e) = 2 ^ e ∧ m / 2 ^ e % 2 = 0 := by
  obtain ⟨b, rfl⟩ : ∃ b, e = b + 1 := ⟨e - 1, by omega⟩
  have hpos : 0 < 2 ^ (b + 1) := Nat.two_pow_pos _
  constructor
  · rintro ⟨s, c, hs, hs', heven, rfl⟩
    have hhalf := Nat.two_pow_succ c
    have hsmall := Nat.mul_le_mul_right (2 ^ (c + 1)) hs
    have hlarge := Nat.mul_le_mul_right (2 ^ (c + 1)) hs'
    rw [Nat.succ_mul] at hlarge
    obtain rfl : c = b := by
      rcases lt_trichotomy c b with hlt | heq | hgt
      · have hpower : 2 * 2 ^ (c + 1) ≤ 2 ^ (b + 1) := by
          rw [← Nat.pow_succ']
          exact Nat.pow_le_pow_right two_pos (by omega)
        have hpower := Nat.mul_le_mul_left hiddenBit hpower
        rw [Nat.mul_left_comm, ← Nat.mul_assoc] at hpower
        have hpos := Nat.two_pow_pos c
        omega
      · exact heq
      · have hpower : 2 * 2 ^ (b + 1) ≤ 2 ^ (c + 1) := by
          rw [← Nat.pow_succ']
          exact Nat.pow_le_pow_right two_pos (by omega)
        have hpower := Nat.mul_le_mul_left hiddenBit hpower
        rw [Nat.mul_left_comm, ← Nat.mul_assoc] at hpower
        omega
    have hlt : 2 ^ c < 2 ^ (c + 1) := by omega
    rw [Nat.mul_comm s, Nat.mul_add_mod, Nat.mod_eq_of_lt hlt, Nat.mul_add_div hpos,
      Nat.div_eq_of_lt hlt, Nat.add_zero]
    exact ⟨by omega, heven⟩
  · rintro ⟨htie, heven⟩
    refine ⟨m / 2 ^ (b + 1), b, (Nat.le_div_iff_mul_le hpos).2 hlow,
      (Nat.div_lt_iff_lt_mul hpos).2 hhigh, heven, ?_⟩
    have hdiv := Nat.div_add_mod' m (2 ^ (b + 1))
    have hhalf : m % 2 ^ (b + 1) = 2 ^ b := by omega
    omega

/-- Whether some beginning is such a tie is told by the one that is first past 2^53. -/
theorem exists_tieDown_iff {t : Nat} (hlow : 2 * hiddenBit ≤ n / 16 ^ t)
    (hhigh : n / 16 ^ t < 32 * hiddenBit) :
    (∃ t, TieDown (n / 16 ^ t) ∧ n % 16 ^ t ≠ 0) ↔ TieDown (n / 16 ^ t) ∧ n % 16 ^ t ≠ 0 := by
  refine ⟨?_, fun h => ⟨t, h⟩⟩
  rintro ⟨t', htie, hrest⟩
  have hlarge := htie.le
  obtain ⟨s, b, hs, hs', heven, hn⟩ := htie
  have hpos := Nat.two_pow_pos b
  have hhalf := Nat.two_pow_succ b
  have hle : t' ≤ t := by
    by_contra hlt
    obtain ⟨u, rfl⟩ : ∃ u, t' = t + 1 + u := ⟨t' - (t + 1), by omega⟩
    rw [pow_add, pow_succ, ← Nat.div_div_eq_div_mul, ← Nat.div_div_eq_div_mul] at hlarge
    have hshorter := Nat.div_le_self (n / 16 ^ t / 16) (16 ^ u)
    omega
  obtain ⟨u, rfl⟩ := Nat.exists_eq_add_of_le hle
  have hbeginning : n / 16 ^ (t' + u) = n / 16 ^ t' / 16 ^ u := by
    rw [pow_add, Nat.div_div_eq_div_mul]
  have hpower : 0 < 2 ^ (4 * u) := Nat.two_pow_pos _
  -- The digits in between are zeros, or the earlier beginning would be below 2^53.
  obtain ⟨c, rfl⟩ : ∃ c, b = 4 * u + c := by
    rw [hbeginning, sixteen_pow u, Nat.le_div_iff_mul_le hpower, hn] at hlow
    have hmul := Nat.mul_le_mul_right (2 ^ (b + 1)) hs'
    rw [Nat.succ_mul] at hmul
    have hlt : 2 ^ (4 * u) < 2 ^ (b + 1) :=
      Nat.lt_of_mul_lt_mul_left (a := 2 * hiddenBit) (by omega)
    have hexponent := (Nat.pow_lt_pow_iff_right one_lt_two).1 hlt
    exact ⟨b - 4 * u, by omega⟩
  refine ⟨⟨s, c, hs, hs', heven, ?_⟩, fun hzero => hrest ?_⟩
  · rw [hbeginning, hn, sixteen_pow u, Nat.add_assoc, pow_add, pow_add 2 (4 * u) c,
      Nat.mul_left_comm, ← Nat.mul_add, Nat.mul_div_cancel_left _ hpower]
  · rw [pow_add] at hzero
    exact Nat.mod_eq_zero_of_dvd ((Nat.dvd_mul_right _ _).trans (Nat.dvd_of_mod_eq_zero hzero))

/-- The leading bits of a beginning are those of the number. -/
theorem leading_bounds {t : Nat} (hlow : hiddenBit * 2 ^ e ≤ n / 16 ^ t)
    (hhigh : n / 16 ^ t < 2 * hiddenBit * 2 ^ e) :
    hiddenBit * 2 ^ (e + 4 * t) ≤ n ∧ n < 2 * hiddenBit * 2 ^ (e + 4 * t) := by
  have hsixteen : 0 < 16 ^ t := Nat.pow_pos (by omega)
  rw [pow_add, ← sixteen_pow, ← Nat.mul_assoc, ← Nat.mul_assoc]
  exact ⟨(Nat.le_div_iff_mul_le hsixteen).1 hlow, (Nat.div_lt_iff_lt_mul hsixteen).1 hhigh⟩

/-- Below 2^1024 no significand runs past infinity. -/
theorem pattern_le_infinityBits (hlow : hiddenBit * 2 ^ e ≤ n) (hn : n < 2 ^ 1024)
    (hs : s ≤ 2 * hiddenBit) : (1074 + e) * hiddenBit + s ≤ infinityBits := by
  have hexponent : 52 + e < 1024 := by
    have hlt := hlow.trans_lt hn
    rw [hiddenBit_eq, ← pow_add] at hlt
    exact (pow_lt_pow_iff_right₀ one_lt_two).1 hlt
  norm_num [infinityBits, hiddenBit] at hs ⊢
  omega

/-- A number is rounded as its beginning is, but for a tie with something behind it. -/
theorem roundDiv_beginning {t : Nat} (he : 1 ≤ e) : roundDiv n (2 ^ (e + 4 * t)) =
    if 2 * (n / 16 ^ t % 2 ^ e) = 2 ^ e ∧ n / 16 ^ t / 2 ^ e % 2 = 0 ∧ n % 16 ^ t ≠ 0 then
      n / 16 ^ t / 2 ^ e + 1
    else roundDiv (n / 16 ^ t) (2 ^ e) := by
  have hrest : n % 16 ^ t < 16 ^ t := Nat.mod_lt n (Nat.pow_pos (by omega))
  have heven : 2 ^ e % 2 = 0 := Nat.mod_eq_zero_of_dvd (dvd_pow_self 2 (by omega))
  rw [← roundDiv_mul_add hrest heven, Nat.div_add_mod', sixteen_pow, ← pow_add]

end Ties

end Binary64

namespace Reading

open Binary64

/-- The exact value of hexadecimal digits. -/
def hexNatural (ds : List Nat) : Nat := ds.foldl (fun n d => 16 * n + d) 0

theorem hexNatural_concat (ds : List Nat) (d : Nat) :
    hexNatural (ds ++ [d]) = 16 * hexNatural ds + d := by
  rw [hexNatural, List.foldl_concat]
  rfl

theorem radixValue_concat (ds : List Nat) (d : Nat) :
    radixValue 16 (ds ++ [d]) = radixValue 16 ds * ofNat 16 + ofNat d := by
  rw [radixValue, List.foldl_concat]
  rfl

/-- What is held of a number of digits: the number itself up to 2^53, and from there on its
beginning that was first past that bound, rounded, with zeros for the digits behind it. -/
inductive Held (n : Nat) (x : Float) : Prop
  | exact (hn : n < 2 * hiddenBit) (hx : x = ofNat n)
  | rounded (t e : Nat) (hpos : 1 ≤ e) (he : e ≤ 4) (hlow : hiddenBit * 2 ^ e ≤ n / 16 ^ t)
    (hhigh : n / 16 ^ t < 2 * hiddenBit * 2 ^ e) (hx : x = ofMagnitude false
      (min ((1074 + (e + 4 * t)) * hiddenBit + roundDiv (n / 16 ^ t) (2 ^ e)) infinityBits))

theorem held_ofNat {n : Nat} (hn : n < 32 * hiddenBit) : Held n (ofNat n) := by
  by_cases hsmall : n < 2 * hiddenBit
  · exact .exact hsmall rfl
  have hn0 : n ≠ 0 := by
    rintro rfl
    exact hsmall (by decide)
  have hlog : 53 ≤ n.log2 := (Nat.le_log2 hn0).2 (Nat.not_lt.1 hsmall)
  have hlog' : n.log2 < 57 := (Nat.log2_lt hn0).2 hn
  obtain ⟨e, he⟩ : ∃ e, n.log2 = 52 + e := ⟨n.log2 - 52, by omega⟩
  have hlow : hiddenBit * 2 ^ e ≤ n := by
    rw [hiddenBit_eq, ← pow_add, ← he]
    exact Nat.log2_self_le hn0
  have hhigh : n < 2 * hiddenBit * 2 ^ e := by
    have hlt := Nat.lt_log2_self (n := n)
    rw [he, Nat.add_right_comm, pow_add] at hlt
    exact hlt
  have hwhole : n / 16 ^ 0 = n := by rw [pow_zero, Nat.div_one]
  refine .rounded 0 e (by omega) (by omega) (hwhole.symm ▸ hlow) (hwhole.symm ▸ hhigh) ?_
  rw [hwhole]
  exact ofNat_of_roundsTo (roundsTo_natCast hlow hhigh.le)

theorem Held.step {n d : Nat} {x : Float} (h : Held n x) (hd : d < 16) :
    Held (16 * n + d) (x * ofNat 16 + ofNat d) := by
  cases h with
  | exact hn hx =>
    rw [hx, step_exact hn hd]
    exact held_ofNat (by omega)
  | rounded t e hpos he hlow hhigh hx =>
    have hbeginning : (16 * n + d) / 16 ^ (t + 1) = n / 16 ^ t := by
      rw [pow_succ', ← Nat.div_div_eq_div_mul]
      congr 1
      omega
    have hpower := Nat.two_pow_pos e
    refine .rounded (t + 1) e hpos he (hbeginning.symm ▸ hlow) (hbeginning.symm ▸ hhigh) ?_
    rw [hx, hbeginning, step_lost (by omega) (le_roundDiv hpower hlow)
      (roundDiv_le hpower hhigh.le) hd, Nat.add_assoc, Nat.add_assoc, Nat.mul_succ]

theorem held_radixValue {ds : List Nat} (h : ∀ d ∈ ds, d < 16) :
    Held (hexNatural ds) (radixValue 16 ds) := by
  induction ds using List.reverseRecOn with
  | nil => exact .exact (by decide) rfl
  | append_singleton ds d ih =>
    rw [List.forall_mem_append, List.forall_mem_singleton] at h
    rw [hexNatural_concat, radixValue_concat]
    exact (ih h.1).step h.2

theorem Held.roundsTo_iff {n : Nat} {x : Float} (h : Held n x) (hn : n < 2 ^ 1024) :
    RoundsTo n (magnitudeBits x) ↔ ¬∃ t, TieDown (n / 16 ^ t) ∧ n % 16 ^ t ≠ 0 := by
  cases h with
  | exact hsmall hx =>
    obtain ⟨bits, hbits, hmagnitude⟩ := exists_magnitude (e := 0) hsmall (by omega)
    have hrounds : RoundsTo n bits := by
      rw [pow_zero, mul_one] at hmagnitude
      rw [← hmagnitude]
      exact roundsTo_magnitude bits
    have hx : magnitudeBits x = bits := by
      rw [hx, ofNat_of_roundsTo hrounds, min_eq_left hbits.le, magnitudeBits_ofMagnitude hbits.le]
    refine iff_of_true (hx.symm ▸ hrounds) ?_
    rintro ⟨t, htie, -⟩
    exact absurd (htie.le.trans (Nat.div_le_self _ _)) (Nat.not_le.2 hsmall)
  | rounded t e hpos he hlow hhigh hx =>
    have hpower := Nat.two_pow_pos e
    have hshort : 2 ^ e ≤ 2 ^ 4 := Nat.pow_le_pow_right two_pos he
    have htwo : 2 ≤ 2 ^ e := Nat.le_self_pow (by omega) 2
    have hstart : hiddenBit * 2 ≤ n / 16 ^ t := (Nat.mul_le_mul_left _ htwo).trans hlow
    have hend : n / 16 ^ t < 2 * hiddenBit * 2 ^ 4 :=
      hhigh.trans_le (Nat.mul_le_mul_left _ hshort)
    obtain ⟨hlow', hhigh'⟩ := leading_bounds hlow hhigh
    have hfits := pattern_le_infinityBits hlow' hn (roundDiv_le hpower hhigh.le)
    have hrounds := roundsTo_natCast hlow' hhigh'.le
    rw [roundDiv_beginning hpos] at hrounds
    rw [exists_tieDown_iff (t := t) (by omega) (by omega), tieDown_iff hpos hlow hhigh, hx,
      magnitudeBits_ofMagnitude (min_le_right _ _), min_eq_left hfits]
    constructor
    · rintro h ⟨⟨htie, heven⟩, hrest⟩
      have hdown : roundDiv (n / 16 ^ t) (2 ^ e) = n / 16 ^ t / 2 ^ e := by
        rw [roundDiv]
        simp only [htie, lt_irrefl, if_false, heven, if_true]
      rw [if_pos ⟨htie, heven, hrest⟩] at hrounds
      have hsame := h.unique hrounds
      rw [hdown] at hsame
      omega
    · intro hnot
      rwa [if_neg fun h => hnot ⟨⟨h.1, h.2.1⟩, h.2.2⟩] at hrounds

end Reading

end ExprLang
