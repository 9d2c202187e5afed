import ExprLang.Proofs.Doubles.Writing

/-!
The fewest digits. No decimal with fewer digits than those of a double rounds to it: the search
begins at the coarsest grid, and a shorter decimal would lie on a grid that was passed over.
-/
namespace ExprLang

open Binary64

theorem Reading.digitsValue_lt {ds : List Char} (h : ∀ c ∈ ds, c.isDigit) :
    digitsValue ds < 10 ^ ds.length := by
  induction ds using List.reverseRecOn with
  | nil => exact Nat.one_pos
  | append_singleton ds c ih =>
    rw [List.forall_mem_append, List.forall_mem_singleton] at h
    have hlt := ih h.1
    have hvalue : digitsValue (ds ++ [c]) = 10 * digitsValue ds + (c.toNat - '0'.toNat) := by
      rw [digitsValue, List.foldl_concat]
      rfl
    have hc : c.toNat - '0'.toNat ≤ 9 := Nat.sub_le_sub_right (toNat_of_isDigit h.2).2 '0'.toNat
    rw [hvalue, List.length_append, List.length_singleton, pow_succ]
    omega

namespace Shortest

open Reading

variable {i : Interval} {r a b : ℚ} {tie : Tie} {e : Int} {d : Decimal} {bits n : Nat}

section Grids

variable (hi : i.Proper)
include hi

/-- What lies between a decimal of the interval and the value lies in the interval. -/
theorem Interval.Has.between_below (ha : i.Has a) (hab : a ≤ b) (hb : b ≤ i.middle) : i.Has b := by
  have hupper := hb.trans_lt hi.lt_upper
  refine ⟨ha.lower.trans hab, hupper.le, fun hopen => ⟨?_, hupper.ne⟩⟩
  exact ((lt_of_le_of_ne ha.lower (ha.ends hopen).1).trans_le hab).ne

theorem Interval.Has.between_above (ha : i.Has a) (hb : i.middle ≤ b) (hba : b ≤ a) : i.Has b := by
  have hlower := hi.lower_lt.trans_le hb
  refine ⟨hlower.le, hba.trans ha.upper, fun hopen => ⟨hlower.ne, ?_⟩⟩
  exact (hba.trans_lt (lt_of_le_of_ne ha.upper (ha.ends hopen).2)).ne

/-- A grid that has a decimal of the interval is not passed over. -/
theorem isSome_onGrid?_of_has (hn : 0 < n) (h : i.Has (n * 10 ^ e)) :
    (onGrid? tie i e).isSome := by
  have hten : (0 : ℚ) < 10 ^ e := by positivity
  have hlow := steps_le hi.den_pos e
  have hhigh := lt_steps_succ hi.den_pos e
  refine isSome_onGrid?_of_fits hi.den_pos ?_
  rcases le_or_gt (n * 10 ^ e : ℚ) i.middle with hle | hgt
  · have hlt := (mul_lt_mul_iff_of_pos_right hten).1 (hle.trans_lt hhigh)
    have hsteps : n ≤ steps i e := Nat.le_of_lt_succ (by exact_mod_cast hlt)
    refine .inl ⟨hn.trans_le hsteps, h.between_below hi ?_ hlow⟩
    exact mul_le_mul_of_nonneg_right (by exact_mod_cast hsteps) hten.le
  · have hlt := (mul_lt_mul_iff_of_pos_right hten).1 (hlow.trans_lt hgt)
    have hsteps : steps i e + 1 ≤ n := by exact_mod_cast hlt
    refine .inr (h.between_above hi hhigh.le ?_)
    exact mul_le_mul_of_nonneg_right (by exact_mod_cast hsteps) hten.le

end Grids

section Search

theorem onGrid?_le (h : onGrid? tie i e = some d) :
    d.exponent = e ∧ d.significand ≤ steps i e + 1 := by
  unfold onGrid? at h
  simp only [Nat.pow_eq] at h
  rw [steps]
  generalize i.num * 10 ^ (-e).toNat / (i.den * 10 ^ e.toNat) = low at h ⊢
  split at h
  · split at h <;> cases h
    · exact ⟨rfl, Nat.le_succ low⟩
    · exact ⟨rfl, le_rfl⟩
  split at h
  · cases h
    exact ⟨rfl, Nat.le_succ low⟩
  split at h <;> cases h
  exact ⟨rfl, le_rfl⟩

/-- All the coarser grids were passed over. -/
theorem search_passes (h : search tie i n e = some d) :
    d.exponent ≤ e ∧ onGrid? tie i d.exponent = some d ∧
      ∀ g, d.exponent < g → g ≤ e → onGrid? tie i g = none := by
  induction n generalizing e with
  | zero => cases h
  | succ n ih =>
    rw [search] at h
    rcases Option.or_eq_some_iff.1 h with h | ⟨hnone, h⟩
    · obtain rfl := (onGrid?_le h).1
      exact ⟨le_rfl, h, fun g hlt hle => absurd hlt (not_lt.2 hle)⟩
    · obtain ⟨hle, hgrid, hpassed⟩ := ih h
      refine ⟨hle.trans (by omega), hgrid, fun g hlt hg => ?_⟩
      rcases hg.eq_or_lt with rfl | hg
      · exact hnone
      · exact hpassed g hlt (by omega)

theorem trim_ten_pow (k : Nat) : (Nat.toDigits 10 (10 ^ k)).rdropWhile (· = '0') = ['1'] := by
  induction k with
  | zero => rfl
  | succ k ih =>
    have hle : 10 ≤ 10 ^ (k + 1) := Nat.le_self_pow (Nat.succ_ne_zero k) 10
    have hmod : 10 ^ (k + 1) % 10 = 0 := Nat.mod_eq_zero_of_dvd (dvd_pow_self 10 (by omega))
    rw [Nat.toDigits_of_base_le (by omega) hle, hmod, pow_succ, Nat.mul_div_cancel _ (by omega),
      List.rdropWhile_concat_pos _ _ _ (by decide), ih]

/-- A significand up to a power of ten has no more digits than the power has zeros. -/
theorem length_digits_le {k : Nat} (hk : 1 ≤ k) (h : d.significand ≤ 10 ^ k) :
    d.digits.digits.length ≤ k := by
  change ((Nat.toDigits 10 d.significand).rdropWhile (· = '0')).length ≤ k
  rcases h.eq_or_lt with heq | hlt
  · rw [heq, trim_ten_pow]
    exact hk
  · exact (List.rdropWhile_prefix _ _).length_le.trans
      ((Nat.length_toDigits_le_iff (by omega) hk).2 hlt)

theorem lt_ten_zpow_leadingExponent {num den : Nat} (hnum : num ≠ 0) (hden : den ≠ 0) :
    (num / den : ℚ) < 10 ^ (leadingExponent num den + 1) := by
  have hdenPos : (0 : ℚ) < den := by exact_mod_cast Nat.pos_of_ne_zero hden
  rw [leadingExponent, div_lt_iff₀ hdenPos]
  split
  case isTrue hle =>
    rw [sub_add_cancel, zpow_natCast]
    have hlt := lt_ten_pow_digitCount (num / den)
    rw [Nat.div_lt_iff_lt_mul (Nat.pos_of_ne_zero hden)] at hlt
    exact_mod_cast hlt
  case isFalse hlt =>
    have hquotient : den / num ≠ 0 :=
      (Nat.div_pos (Nat.not_le.1 hlt).le (Nat.pos_of_ne_zero hnum)).ne'
    have hscale (j : Nat) (h : num * 10 ^ j < den) : (num : ℚ) < 10 ^ (-(j : Int)) * den := by
      rw [zpow_neg, zpow_natCast, lt_inv_mul_iff₀ (by positivity), mul_comm]
      exact_mod_cast h
    obtain ⟨k, hk⟩ : ∃ k, digitCount (den / num) = k + 1 :=
      Nat.exists_eq_succ_of_ne_zero (Nat.length_toDigits_pos).ne'
    have hle : num * 10 ^ k ≤ den := by
      have hle := ten_pow_digitCount_le hquotient
      rw [hk, Nat.add_sub_cancel, Nat.le_div_iff_mul_le (Nat.pos_of_ne_zero hnum)] at hle
      rwa [mul_comm]
    simp only [hk, Nat.add_sub_cancel, Nat.pow_eq]
    split
    case isTrue hge =>
      obtain ⟨j, rfl⟩ : ∃ j, k = j + 1 := Nat.exists_eq_succ_of_ne_zero (by
        rintro rfl
        omega)
      have hexponent : 1 - ((j + 1 + 1 : Nat) : Int) + 1 = -(j : Int) := by omega
      rw [hexponent]
      refine hscale j (lt_of_lt_of_le ?_ hle)
      exact Nat.mul_lt_mul_of_pos_left (Nat.pow_lt_pow_succ (by omega)) (Nat.pos_of_ne_zero hnum)
    case isFalse hgt =>
      have hexponent : -((k + 1 : Nat) : Int) + 1 = -(k : Int) := by omega
      rw [hexponent]
      exact hscale k (Nat.not_le.1 hgt)

end Search

section Fewest

theorem length_le_of_onGrid? (hden : 0 < i.den) {k : Nat} (hk : 1 ≤ k)
    (h : onGrid? tie i e = some d) (hlt : i.middle < 10 ^ k * 10 ^ e) :
    d.digits.digits.length ≤ k := by
  have hten : (0 : ℚ) < 10 ^ e := by positivity
  have hsteps := (mul_lt_mul_iff_of_pos_right hten).1 ((steps_le hden e).trans_lt hlt)
  have hsteps : steps i e < 10 ^ k := by exact_mod_cast hsteps
  exact length_digits_le hk ((onGrid?_le h).2.trans hsteps)

/-- A decimal with few digits shows that the interval has one of a coarser grid. -/
theorem exists_coarser (hi : i.Proper) {s k : Nat} {q top : Int} (hs : 0 < s) (hk : s < 10 ^ k)
    (hhas : i.Has (s * 10 ^ q)) (hshort : e + k ≤ top) (hleading : 10 ^ top ≤ i.middle) :
    ∃ g n, e < g ∧ g ≤ top ∧ 0 < n ∧ i.Has ((n : Nat) * 10 ^ g) := by
  have hpos : k ≠ 0 := by
    rintro rfl
    rw [pow_zero] at hk
    omega
  rcases lt_or_ge e q with hq | hq
  · rcases le_total q top with hle | hle
    · exact ⟨q, s, hq, hle, hs, hhas⟩
    · obtain ⟨j, hj⟩ := Int.eq_ofNat_of_zero_le (sub_nonneg.2 hle)
      refine ⟨top, s * 10 ^ j, by omega, le_rfl, Nat.mul_pos hs (Nat.pow_pos (by omega)), ?_⟩
      rwa [Nat.cast_mul, Nat.cast_pow, Nat.cast_ofNat, mul_assoc, ← zpow_natCast,
        ← zpow_add₀ (by norm_num), ← hj, sub_add_cancel]
  · -- The decimal lies below the power of ten that is below the value.
    refine ⟨top, 1, by omega, le_rfl, Nat.one_pos, ?_⟩
    rw [Nat.cast_one, one_mul]
    refine hhas.between_below hi ?_ hleading
    calc (s * 10 ^ q : ℚ) ≤ 10 ^ k * 10 ^ q := by
          have hk : (s : ℚ) ≤ 10 ^ k := by exact_mod_cast hk.le
          exact mul_le_mul_of_nonneg_right hk (by positivity)
      _ = 10 ^ (k + q) := by rw [zpow_add₀ (by norm_num), zpow_natCast]
      _ ≤ 10 ^ top := zpow_le_zpow_right₀ (by norm_num) (by omega)

/-- A decimal of the interval has no fewer digits than the one that is found. -/
theorem length_le_of_search (hi : i.Proper) {m s k : Nat} {q : Int}
    (h : search tie i m (leadingExponent i.num i.den) = some d) (hs : 0 < s) (hk : s < 10 ^ k)
    (hhas : i.Has (s * 10 ^ q)) : d.digits.digits.length ≤ k := by
  have hleading : (10 : ℚ) ^ leadingExponent i.num i.den ≤ i.middle :=
    ten_zpow_leadingExponent_le hi.num_ne_zero hi.den_pos.ne'
  have hleading' : i.middle < (10 : ℚ) ^ (leadingExponent i.num i.den + 1) :=
    lt_ten_zpow_leadingExponent hi.num_ne_zero hi.den_pos.ne'
  generalize leadingExponent i.num i.den = top at h hleading hleading'
  obtain ⟨htop, hgrid, hpassed⟩ := search_passes h
  obtain ⟨l, hl⟩ : ∃ l : Nat, top - d.exponent = l := Int.eq_ofNat_of_zero_le (sub_nonneg.2 htop)
  have hlength : d.digits.digits.length ≤ l + 1 := by
    refine length_le_of_onGrid? hi.den_pos (Nat.succ_pos l) hgrid (hleading'.trans_eq ?_)
    rw [← zpow_natCast, ← zpow_add₀ (by norm_num)]
    congr 1
    omega
  by_contra hlong
  obtain ⟨g, n, hlt, hle, hn, hcoarser⟩ :=
    exists_coarser hi (e := d.exponent) hs hk hhas (by omega) hleading
  have hsome : (onGrid? tie i g).isSome = true := isSome_onGrid?_of_has hi hn hcoarser
  rw [hpassed g hlt hle] at hsome
  cases hsome

/-- The digits of a double that is not zero are those of the decimal that is found. -/
theorem exists_search (tie : Tie) {x : Float} (hbits : magnitudeBits x ≠ 0) :
    ∃ d, digits tie x = d.digits ∧ search tie (interval (parts x)) 17
      (leadingExponent (interval (parts x)).num (interval (parts x)).den) = some d := by
  obtain ⟨d, hd⟩ := Option.isSome_iff_exists.1 (isSome_search_interval tie hbits)
  refine ⟨d, ?_, hd⟩
  simp only [digits, parts, ofParts, if_neg (significand_partsOfBits_ne_zero hbits), hd,
    Option.getD_some]

/-- A decimal that rounds to a double has no fewer digits than are written for it. -/
theorem length_digits_le_of_roundsTo (tie : Tie) {x : Float} (hzero : isZero x = false)
    {ds : List Char} (hds : ∀ c ∈ ds, c.isDigit) {point : Int}
    (h : RoundsTo (Digits.value ⟨ds, point⟩) (magnitudeBits x)) :
    (digits tie x).digits.length ≤ ds.length := by
  have hbits : magnitudeBits x ≠ 0 := fun hbits => by simp [isZero, hbits] at hzero
  have hpos : 0 < digitsValue ds := by
    refine Nat.pos_of_ne_zero fun hnone => hbits ?_
    rw [Digits.value, hnone, Nat.cast_zero, zero_mul] at h
    exact h.unique roundsTo_zero
  obtain ⟨d, hdigits, hd⟩ := exists_search tie hbits
  rw [hdigits]
  exact length_le_of_search (proper_interval hbits) hd hpos (digitsValue_lt hds)
    ((has_iff_roundsTo hbits).2 h)

end Fewest

end Shortest

end ExprLang
