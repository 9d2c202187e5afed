import ExprLang.Proofs.Doubles.Grid

/-!
Rounding a fraction to a double. No finite double lies strictly between a fraction and the double
that it is rounded to, so rounding keeps the order to every finite double.
-/
namespace ExprLang.Binary64

variable {num den n : Nat}

theorem le_roundDiv (hden : 0 < den) (h : n * den ≤ num) : n ≤ roundDiv num den := by
  have hq : n ≤ num / den := (Nat.le_div_iff_mul_le hden).2 h
  unfold roundDiv
  dsimp only
  split_ifs <;> omega

theorem roundDiv_le (hden : 0 < den) (h : num ≤ n * den) : roundDiv num den ≤ n := by
  have hq : num / den ≤ n := Nat.div_le_of_le_mul (Nat.mul_comm n den ▸ h)
  have hdiv := Nat.div_add_mod num den
  have hnext : num % den ≠ 0 → num / den < n := fun hmod => by
    refine Nat.lt_of_le_of_ne hq fun he => hmod ?_
    rw [he, Nat.mul_comm] at hdiv
    omega
  unfold roundDiv
  dsimp only
  split_ifs
  · exact hq
  all_goals omega

/-- A fraction divided by a power of two, again as a fraction. -/
def shifted (num den : Nat) (q : Int) : Nat × Nat :=
  if 0 ≤ q then (num, den * Nat.pow 2 q.toNat) else (num * Nat.pow 2 (-q).toNat, den)

theorem shifted_pos (hden : 0 < den) (q : Int) : 0 < (shifted num den q).2 := by
  unfold shifted
  split
  · exact Nat.mul_pos hden (Nat.two_pow_pos _)
  · exact hden

theorem shifted_div (num den : Nat) (q : Int) :
    ((shifted num den q).1 : ℚ) / (shifted num den q).2 = num / den / 2 ^ q := by
  unfold shifted
  split
  case isTrue hq =>
    have hpow : (2 : ℚ) ^ q = (Nat.pow 2 q.toNat : ℕ) := by
      rw [Nat.pow_eq, Nat.cast_pow, Nat.cast_two, ← zpow_natCast, Int.toNat_of_nonneg hq]
    rw [hpow, div_div, Nat.cast_mul]
  case isFalse hq =>
    have hpow : (2 : ℚ) ^ q = ((Nat.pow 2 (-q).toNat : ℕ) : ℚ)⁻¹ := by
      rw [Nat.pow_eq, Nat.cast_pow, Nat.cast_two, ← zpow_natCast, Int.toNat_of_nonneg (by omega),
        zpow_neg, inv_inv]
    rw [hpow, div_inv_eq_mul, Nat.cast_mul, mul_div_right_comm]

theorem mul_zpow_le_div_iff {q : Int} (hden : 0 < den) :
    (n : ℚ) * 2 ^ q ≤ num / den ↔ n * (shifted num den q).2 ≤ (shifted num den q).1 := by
  rw [← le_div_iff₀ (by positivity), ← shifted_div,
    le_div_iff₀ (by exact_mod_cast shifted_pos hden q)]
  exact_mod_cast Iff.rfl

theorem div_le_mul_zpow_iff {q : Int} (hden : 0 < den) :
    (num : ℚ) / den ≤ n * 2 ^ q ↔ (shifted num den q).1 ≤ n * (shifted num den q).2 := by
  rw [← div_le_iff₀ (by positivity), ← shifted_div,
    div_le_iff₀ (by exact_mod_cast shifted_pos hden q)]
  exact_mod_cast Iff.rfl

/-- The significand that a fraction is rounded to, at a power of two. -/
def rounded (num den : Nat) (q : Int) : Nat :=
  roundDiv (shifted num den q).1 (shifted num den q).2

theorem le_rounded {q : Int} (hden : 0 < den) (h : (n : ℚ) * 2 ^ q ≤ num / den) :
    n ≤ rounded num den q :=
  le_roundDiv (shifted_pos hden q) ((mul_zpow_le_div_iff hden).1 h)

theorem rounded_le {q : Int} (hden : 0 < den) (h : (num : ℚ) / den ≤ n * 2 ^ q) :
    rounded num den q ≤ n :=
  roundDiv_le (shifted_pos hden q) ((div_le_mul_zpow_iff hden).1 h)

/-- A fraction is within a factor of two of the power of two that the lengths of its parts give. -/
theorem div_bounds (hnum : num ≠ 0) (hden : 0 < den) :
    (2 : ℚ) ^ ((num.log2 : Int) - den.log2 - 1) ≤ num / den ∧
      (num : ℚ) / den < 2 ^ ((num.log2 : Int) - den.log2 + 1) := by
  have hnumLow : (2 : ℚ) ^ num.log2 ≤ num := by exact_mod_cast Nat.log2_self_le hnum
  have hnumHigh : (num : ℚ) < 2 ^ (num.log2 + 1) := by exact_mod_cast Nat.lt_log2_self
  have hdenLow : (2 : ℚ) ^ den.log2 ≤ den := by exact_mod_cast Nat.log2_self_le hden.ne'
  have hdenHigh : (den : ℚ) < 2 ^ (den.log2 + 1) := by exact_mod_cast Nat.lt_log2_self
  have hdenPos : (0 : ℚ) < den := by exact_mod_cast hden
  constructor
  · rw [le_div_iff₀ hdenPos]
    calc (2 : ℚ) ^ ((num.log2 : Int) - den.log2 - 1) * den
        ≤ 2 ^ ((num.log2 : Int) - den.log2 - 1) * 2 ^ (den.log2 + 1) := by gcongr
      _ = 2 ^ num.log2 := by
        rw [← zpow_natCast, ← zpow_add₀ two_ne_zero, ← zpow_natCast]
        congr 1
        push_cast
        ring
      _ ≤ num := hnumLow
  · rw [div_lt_iff₀ hdenPos]
    calc (num : ℚ) < 2 ^ (num.log2 + 1) := hnumHigh
      _ = 2 ^ ((num.log2 : Int) - den.log2 + 1) * 2 ^ den.log2 := by
        rw [← zpow_natCast, ← zpow_natCast, ← zpow_add₀ two_ne_zero]
        congr 1
        push_cast
        ring
      _ ≤ 2 ^ ((num.log2 : Int) - den.log2 + 1) * den := by gcongr

theorem hiddenBit_eq : hiddenBit = 2 ^ 52 := rfl

theorem cast_hiddenBit : (hiddenBit : ℚ) = 2 ^ (52 : Int) := by
  rw [hiddenBit_eq]
  norm_cast

theorem exponentOfRatio_eq {guess : Int} (h : guess = (num.log2 : Int) - den.log2 - 52)
    (hden : 0 < den) : exponentOfRatio num den =
      max (if (hiddenBit : ℚ) * 2 ^ guess ≤ num / den then guess else guess - 1)
        smallestExponent := by
  rw [exponentOfRatio, ← h]
  congr 1
  simp only [mul_zpow_le_div_iff hden, shifted]
  split
  · simp only [decide_eq_true_eq, Nat.mul_left_comm hiddenBit, Nat.mul_assoc]
  · simp only [decide_eq_true_eq, Nat.mul_comm den]

/-- At its exponent a fraction has 53 bits before the point, or fewer at the smallest exponent. -/
theorem exponentOfRatio_spec (hnum : num ≠ 0) (hden : 0 < den) :
    smallestExponent ≤ exponentOfRatio num den ∧
      (num : ℚ) / den < 2 * hiddenBit * 2 ^ exponentOfRatio num den ∧
      (exponentOfRatio num den = smallestExponent ∨
        (hiddenBit : ℚ) * 2 ^ exponentOfRatio num den ≤ num / den) := by
  obtain ⟨hlow, hhigh⟩ := div_bounds hnum hden
  obtain ⟨guess, hguess⟩ : ∃ guess : Int, guess = (num.log2 : Int) - den.log2 - 52 := ⟨_, rfl⟩
  have hpow (m : Int) : (hiddenBit : ℚ) * 2 ^ m = 2 ^ (m + 52) := by
    rw [cast_hiddenBit, ← zpow_add₀ two_ne_zero, add_comm]
  have hdouble (m : Int) : 2 * (hiddenBit : ℚ) * 2 ^ m = 2 ^ (m + 53) := by
    rw [mul_assoc, hpow, ← zpow_one_add₀ two_ne_zero]
    congr 1
    omega
  -- The exponent without regard to the smallest one.
  obtain ⟨e, he, hehigh, helow⟩ : ∃ e, exponentOfRatio num den = max e smallestExponent ∧
      (num : ℚ) / den < 2 * hiddenBit * 2 ^ e ∧ (hiddenBit : ℚ) * 2 ^ e ≤ num / den := by
    refine ⟨_, exponentOfRatio_eq hguess hden, ?_⟩
    by_cases henough : (hiddenBit : ℚ) * 2 ^ guess ≤ num / den
    · rw [if_pos henough, hdouble]
      refine ⟨hhigh.trans_eq ?_, henough⟩
      congr 1
      omega
    · rw [if_neg henough, hdouble, hpow]
      rw [hpow, not_le] at henough
      refine ⟨henough.trans_eq ?_, Eq.trans_le ?_ hlow⟩ <;> congr 1 <;> omega
  rw [he]
  refine ⟨le_max_right _ _, hehigh.trans_le ?_, ?_⟩
  · rw [hdouble, hdouble]
    exact zpow_le_zpow_right₀ one_le_two (by omega)
  · rcases le_total e smallestExponent with hle | hle
    · exact .inl (max_eq_right hle)
    · exact .inr (by rwa [max_eq_left hle])

theorem bitsOfRatio_eq (hnum : num ≠ 0) :
    bitsOfRatio num den =
      min ((exponentOfRatio num den - smallestExponent).toNat * hiddenBit +
        rounded num den (exponentOfRatio num den)) infinityBits := by
  rw [bitsOfRatio, if_neg hnum, rounded, shifted]
  dsimp only
  split <;> rfl

theorem bitsOfRatio_le (num den : Nat) : bitsOfRatio num den ≤ infinityBits := by
  unfold bitsOfRatio
  split
  · exact Nat.zero_le _
  · exact min_le_right _ _

/-- A value counted in units of the smallest magnitude that is not zero. -/
def inUnits (r : ℚ) : ℚ := r / 2 ^ smallestExponent

/-- No finite magnitude lies strictly between a value and the pattern. -/
def Nears (r : ℚ) (bits : Nat) : Prop :=
  ∀ c < infinityBits,
    ((magnitude c : ℚ) ≤ inUnits r → c ≤ bits) ∧ (inUnits r ≤ magnitude c → bits ≤ c)

theorem nears_of_significand {k s : Nat} {r : ℚ} (hs : s ≤ 2 * hiddenBit)
    (hhidden : k = 0 ∨ hiddenBit ≤ s) (hlow : ∀ n : Nat, (n : ℚ) * 2 ^ k ≤ inUnits r → n ≤ s)
    (hhigh : ∀ n : Nat, inUnits r ≤ (n : ℚ) * 2 ^ k → s ≤ n)
    (hlt : inUnits r < 2 * hiddenBit * 2 ^ k) (hge : k = 0 ∨ (hiddenBit : ℚ) * 2 ^ k ≤ inUnits r) :
    Nears r (k * hiddenBit + s) := by
  refine fun c _ => ⟨fun hc => ?_, fun hc => ?_⟩ <;> by_contra hcontra <;> rw [not_le] at hcontra
  · rcases Nat.lt_or_eq_of_le hs with hs | rfl
    · have hmono := magnitude_strictMono.monotone (Nat.succ_le_of_lt hcontra)
      rw [Nat.succ_eq_add_one, Nat.add_assoc,
        magnitude_eq hs (hhidden.imp_right (Nat.le_succ_of_le ·))] at hmono
      refine absurd (hlow (s + 1) (le_trans ?_ hc)) (Nat.not_succ_le_self s)
      exact_mod_cast hmono
    · have hmono := magnitude_strictMono hcontra
      rw [magnitude_eq hs hhidden] at hmono
      refine absurd (hc.trans_lt hlt) (not_lt.2 ?_)
      exact_mod_cast hmono.le
  · by_cases hstep : (k = 0 ∨ hiddenBit < s) ∧ s ≠ 0
    · obtain ⟨t, rfl⟩ := Nat.exists_eq_succ_of_ne_zero hstep.2
      have hmono := magnitude_strictMono.monotone (Nat.le_of_lt_succ hcontra)
      rw [Nat.add_eq, magnitude_eq (Nat.le_of_succ_le hs)
        (hstep.1.imp_right Nat.le_of_lt_succ)] at hmono
      refine absurd (hhigh t (hc.trans ?_)) (Nat.not_succ_le_self t)
      exact_mod_cast hmono
    · have hpos : 0 < hiddenBit := by decide
      have hk : k ≠ 0 := by
        rintro rfl
        omega
      obtain rfl : s = hiddenBit := by omega
      have hmono := magnitude_strictMono hcontra
      rw [magnitude_eq hs hhidden] at hmono
      refine absurd ((hge.resolve_left hk).trans hc) (not_le.2 ?_)
      exact_mod_cast hmono

theorem nears_zero : Nears 0 0 := by
  refine fun c _ => ⟨fun hc => ?_, fun _ => Nat.zero_le c⟩
  rw [inUnits, zero_div] at hc
  by_contra hcontra
  have hmono := magnitude_strictMono (not_le.1 hcontra)
  have hzero : magnitude c ≤ 0 := by exact_mod_cast hc
  omega

theorem Nears.min {r : ℚ} {bits : Nat} (h : Nears r bits) : Nears r (min bits infinityBits) :=
  fun c hc => ⟨fun hle => le_min ((h c hc).1 hle) hc.le,
    fun hle => (min_le_left _ _).trans ((h c hc).2 hle)⟩

theorem nears_bitsOfRatio (num : Nat) (hden : 0 < den) :
    Nears ((num : ℚ) / den) (bitsOfRatio num den) := by
  rcases eq_or_ne num 0 with rfl | hnum
  · rw [Nat.cast_zero, zero_div, bitsOfRatio, if_pos rfl]
    exact nears_zero
  rw [bitsOfRatio_eq hnum]
  refine Nears.min ?_
  obtain ⟨hsmallest, hlt, hge⟩ := exponentOfRatio_spec hnum hden
  obtain ⟨k, hk⟩ := Int.eq_ofNat_of_zero_le (sub_nonneg.2 hsmallest)
  generalize exponentOfRatio num den = q at hsmallest hlt hge hk ⊢
  have hunits (x : ℚ) : x * 2 ^ q = x * 2 ^ k * 2 ^ smallestExponent := by
    rw [mul_assoc, ← zpow_natCast, ← zpow_add₀ two_ne_zero]
    congr 2
    omega
  have hpos : (0 : ℚ) < 2 ^ smallestExponent := by positivity
  simp only [hunits, ← div_lt_iff₀ hpos, ← le_div_iff₀ hpos] at hlt hge
  have hlow : ∀ n : Nat, (n : ℚ) * 2 ^ k ≤ inUnits (num / den) → n ≤ rounded num den q :=
    fun n hn => le_rounded hden (by rwa [hunits, ← le_div_iff₀ hpos])
  have hhigh : ∀ n : Nat, inUnits (num / den) ≤ (n : ℚ) * 2 ^ k → rounded num den q ≤ n :=
    fun n hn => rounded_le hden (by rwa [hunits, ← div_le_iff₀ hpos])
  rw [hk, Int.toNat_natCast]
  have hge' : k = 0 ∨ (hiddenBit : ℚ) * 2 ^ k ≤ inUnits (num / den) :=
    hge.imp_left fun h => by omega
  refine nears_of_significand (hhigh _ ?_) (hge'.imp_right (hlow _)) hlow hhigh hlt hge'
  exact_mod_cast hlt.le

end ExprLang.Binary64
