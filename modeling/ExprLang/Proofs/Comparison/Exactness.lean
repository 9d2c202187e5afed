import ExprLang.Policy.Standard
import ExprLang.Proofs.Comparison
import ExprLang.Proofs.Doubles.Patterns
import ExprLang.Proofs.Doubles.Rounding

/-!
Numbers against big integers. A comparison never puts two of them in the wrong order, but it takes a
number and a big integer for equal when the double that stands for the latter is that number.
-/
namespace ExprLang

namespace BigInteger

open Binary64

variable {n : Nat}

theorem two_pow_le_of_bitLength (hn : n ≠ 0) : 2 ^ (bitLength n - 1) ≤ n := by
  rw [bitLength, if_neg hn, Nat.add_sub_cancel]
  exact Nat.log2_self_le hn

/-- The bits that are looked at lie below those that are kept. -/
theorem not_dvd_of_hasTail (h : hasTail n) : ¬2 ^ cut n ∣ n := by
  obtain ⟨i, hi, hword⟩ := List.any_eq_true.1 h
  rintro ⟨m, hm⟩
  have hlower := List.mem_range.1 hi
  have hbits : wordBits * i + leadingBits n ≤ cut n := by
    have hdiv := Nat.div_add_mod (bitLength n - 1) wordBits
    simp only [lowerWords, leadingBits, cut, wordBits] at *
    omega
  have hleading : leadingBits n ≤ wordBits := Nat.succ_le_of_lt (Nat.mod_lt _ (by decide))
  obtain ⟨d, hd⟩ := Nat.exists_eq_add_of_le hbits
  have hquotient : n / 2 ^ (wordBits * i) = 2 ^ leadingBits n * (2 ^ d * m) := by
    refine Nat.div_eq_of_eq_mul_right (Nat.two_pow_pos _) ?_
    rw [← Nat.mul_assoc, ← Nat.mul_assoc, ← Nat.pow_add, ← Nat.pow_add, ← hd, ← hm]
  refine (bne_iff_ne.1 hword) ?_
  rw [word, Nat.pow_eq, Nat.pow_eq, Nat.pow_eq, hquotient,
    Nat.mod_mod_of_dvd _ (Nat.pow_dvd_pow 2 hleading), Nat.mul_mod_right]

/-- A magnitude whose leading bits lie that high is a multiple of the unit of the bits kept. -/
theorem two_pow_dvd_magnitude {c w : Nat} (h : 2 ^ (w + 63) ≤ magnitude c) :
    2 ^ w ∣ magnitude c := by
  obtain ⟨k, s, hsplits, rfl⟩ := exists_splits c
  rw [magnitude_splits hsplits] at h ⊢
  have hsignificand : s < 2 ^ 53 := hsplits.lt
  have hlt : 2 ^ (w + 63) < 2 ^ (53 + k) := by
    rw [Nat.pow_add 2 53 k]
    exact h.trans_lt (Nat.mul_lt_mul_of_pos_right hsignificand (Nat.two_pow_pos k))
  have hexponent := (Nat.pow_lt_pow_iff_right Nat.one_lt_two).1 hlt
  exact (Nat.pow_dvd_pow 2 (by omega)).mul_left s

/-- The bits that are kept are as many as a word has. -/
theorem two_pow_le_kept (hn : wordBits < bitLength n) : 2 ^ 63 ≤ n / 2 ^ cut n := by
  have hpos : n ≠ 0 := by
    rintro rfl
    exact absurd hn (by decide)
  have hcut : bitLength n - 1 = 63 + cut n := by
    simp only [cut, wordBits] at *
    omega
  have hbits := two_pow_le_of_bitLength hpos
  rw [hcut, Nat.pow_add] at hbits
  exact (Nat.le_div_iff_mul_le (Nat.two_pow_pos _)).2 hbits

/-- A magnitude that is not below the kept bits is a multiple of their unit. -/
theorem exists_multiple {h w c : Nat} (hlong : 2 ^ 63 ≤ h) (hc : h * 2 ^ w ≤ magnitude c) :
    ∃ m, magnitude c = m * 2 ^ w := by
  have hhigh : 2 ^ (w + 63) ≤ h * 2 ^ w := by
    rw [Nat.pow_add, Nat.mul_comm]
    exact Nat.mul_le_mul_right _ hlong
  obtain ⟨m, hm⟩ := two_pow_dvd_magnitude (hhigh.trans hc)
  exact ⟨m, hm.trans (Nat.mul_comm _ _)⟩

/-- What was cut off is made up for: no magnitude lies between a big integer and its kept bits. -/
theorem head_keeps (hn : wordBits < bitLength n) (e c : Nat) :
    (magnitude c ≤ n * 2 ^ e → magnitude c ≤ head n * 2 ^ cut n * 2 ^ e) ∧
      (n * 2 ^ e ≤ magnitude c → head n * 2 ^ cut n * 2 ^ e ≤ magnitude c) := by
  have hlong := two_pow_le_kept hn
  have hunit (a : Nat) : a * 2 ^ cut n * 2 ^ e = a * 2 ^ (cut n + e) := by
    rw [Nat.mul_assoc, ← Nat.pow_add]
  obtain ⟨h, hh⟩ : ∃ h, n / 2 ^ cut n = h := ⟨_, rfl⟩
  have hlow : h * 2 ^ cut n ≤ n := hh ▸ Nat.div_mul_le_self n _
  have hhigh : n < (h + 1) * 2 ^ cut n := by
    rw [← hh, Nat.mul_comm]
    exact Nat.lt_mul_div_succ n (Nat.two_pow_pos _)
  rw [hh] at hlong
  have hlow' : h * 2 ^ (cut n + e) ≤ n * 2 ^ e := hunit h ▸ Nat.mul_le_mul_right _ hlow
  have hhigh' : n * 2 ^ e < (h + 1) * 2 ^ (cut n + e) :=
    hunit (h + 1) ▸ Nat.mul_lt_mul_of_pos_right hhigh (Nat.two_pow_pos e)
  rw [hunit]
  by_cases htail : (h % 2 = 0 && hasTail n) = true
  · have hhead : head n = h + 1 := by rw [head, Nat.pow_eq, hh, if_pos htail]
    rw [hhead]
    refine ⟨fun hc => hc.trans hhigh'.le, fun hc => ?_⟩
    obtain ⟨m, hm⟩ := exists_multiple hlong (hlow'.trans hc)
    have hstrict : h * 2 ^ (cut n + e) < n * 2 ^ e := by
      refine hunit h ▸ Nat.mul_lt_mul_of_pos_right (Nat.lt_of_le_of_ne hlow fun he => ?_)
        (Nat.two_pow_pos e)
      exact not_dvd_of_hasTail (Bool.and_eq_true_iff.1 htail).2 ⟨h, by rw [Nat.mul_comm, he]⟩
    have hlt := hstrict.trans_le hc
    rw [hm] at hlt ⊢
    exact Nat.mul_le_mul_right _ (Nat.lt_of_mul_lt_mul_right hlt)
  · have hhead : head n = h := by rw [head, Nat.pow_eq, hh, if_neg htail]
    rw [hhead]
    refine ⟨fun hc => ?_, fun hc => hlow'.trans hc⟩
    by_contra hcontra
    obtain ⟨m, hm⟩ := exists_multiple hlong (Nat.le_of_not_le hcontra)
    have hlt := hc.trans_lt hhigh'
    rw [hm] at hlt hcontra
    exact hcontra (Nat.mul_le_mul_right _ (Nat.le_of_lt_succ (Nat.lt_of_mul_lt_mul_right hlt)))

theorem inUnits_natCast (n : Nat) :
    inUnits n = ((n * 2 ^ (-smallestExponent).toNat : ℕ) : ℚ) := by
  have hexponent : smallestExponent = -((-smallestExponent).toNat : ℤ) := by decide
  rw [inUnits, hexponent, zpow_neg, zpow_natCast, div_inv_eq_mul, ← hexponent]
  push_cast
  rfl

theorem nears_head (n : Nat) : Nears n (bitsOfRatio (head n * Nat.pow 2 (cut n)) 1) := by
  have hnears := nears_bitsOfRatio (head n * Nat.pow 2 (cut n)) Nat.one_pos
  rw [Nat.cast_one, div_one] at hnears
  by_cases hn : bitLength n ≤ wordBits
  · have hcut : cut n = 0 := Nat.sub_eq_zero_of_le hn
    rwa [head_eq_self hn, hcut, Nat.pow_eq, Nat.pow_zero, Nat.mul_one] at hnears ⊢
  · intro c hc
    have hkeeps := head_keeps (not_le.1 hn) (-smallestExponent).toNat c
    have hnears := hnears c hc
    simp only [inUnits_natCast, Nat.cast_le] at hnears ⊢
    exact ⟨fun h => hnears.1 (hkeeps.1 h), fun h => hnears.2 (hkeeps.2 h)⟩

/-- Big integers past the longest ones exceed every finite double. -/
theorem nears_infinity (hn : longest < bitLength n) : Nears n infinityBits := by
  intro c hc
  refine ⟨fun _ => hc.le, fun h => ?_⟩
  have hpos : n ≠ 0 := by
    rintro rfl
    exact absurd hn (by decide)
  have hmagnitude := magnitude_strictMono hc
  have hlong : 2 ^ longest ≤ n :=
    (Nat.pow_le_pow_right Nat.two_pos (Nat.le_pred_of_lt hn)).trans (two_pow_le_of_bitLength hpos)
  have hinfinity : magnitude infinityBits = 2 ^ longest * 2 ^ (-smallestExponent).toNat := by
    have hsplits : infinityBits = 2046 * hiddenBit + hiddenBit := by decide
    have hexponent : 52 + 2046 = longest + (-smallestExponent).toNat := by decide
    rw [hsplits, magnitude_splits ⟨by decide, .inr le_rfl⟩, hiddenBit_eq, ← Nat.pow_add,
      ← Nat.pow_add, hexponent]
  rw [inUnits_natCast, Nat.cast_le] at h
  exact absurd (Nat.mul_le_mul_right _ hlong) (not_le.2 (h.trans_lt (hinfinity ▸ hmagnitude)))

theorem exists_toDouble (n : Int) : ∃ bits ≤ infinityBits,
    toDouble n = ofMagnitude (n < 0) bits ∧ Nears n.natAbs bits := by
  unfold toDouble
  dsimp only
  split
  case isTrue hlong => exact ⟨_, le_rfl, rfl, nears_infinity hlong⟩
  case isFalse => exact ⟨_, bitsOfRatio_le _ _, rfl, nears_head n.natAbs⟩

end BigInteger

namespace Binary64

variable {x : Float} {n : Int}

theorem isNaN_toDouble (n : Int) : isNaN (BigInteger.toDouble n) = false := by
  obtain ⟨bits, hbits, hdouble, -⟩ := BigInteger.exists_toDouble n
  rw [hdouble, isNaN, magnitudeBits_ofMagnitude hbits]
  exact decide_eq_false (Nat.not_lt.2 hbits)

theorem exact_int (n : Int) : (n : ℚ) = (if decide (n < 0) then -1 else 1) * (n.natAbs : ℚ) := by
  rw [← Int.cast_natCast]
  by_cases hn : n < 0
  · rw [decide_eq_true hn, Int.ofNat_natAbs_of_nonpos hn.le]
    simp
  · rw [decide_eq_false hn, Int.natAbs_of_nonneg (not_lt.1 hn)]
    simp

/-- The double of a big integer is not on the wrong side of any finite double. -/
theorem rank_toDouble (hx : isFinite x) (n : Int) :
    (exact x ≤ n → rank x ≤ rank (BigInteger.toDouble n)) ∧
      (n ≤ exact x → rank (BigInteger.toDouble n) ≤ rank x) := by
  obtain ⟨bits, hbits, hdouble, hnears⟩ := BigInteger.exists_toDouble n
  have hunit : (0 : ℚ) < 2 ^ smallestExponent := by positivity
  obtain ⟨hbelow, habove⟩ := hnears _ (of_decide_eq_true hx)
  rw [inUnits, le_div_iff₀ hunit] at hbelow
  rw [inUnits, div_le_iff₀ hunit] at habove
  have hzero : (n.natAbs : ℚ) = 0 → bits = 0 := fun h => by
    have hle := (hnears 0 (by decide)).2 (by rw [inUnits, h, zero_div]; positivity)
    exact Nat.le_zero.1 hle
  rw [hdouble, exact_eq, exact_int n, rank, rank, isNegative_ofMagnitude hbits,
    magnitudeBits_ofMagnitude hbits]
  exact ⟨signed_le (by positivity) (by positivity) hbelow habove eq_zero_of_mul_unit hzero _ _,
    signed_le (by positivity) (by positivity) habove hbelow hzero eq_zero_of_mul_unit _ _⟩

theorem compare_eq_compare {α β : Type} [LinearOrder α] [LinearOrder β] {a b : α} {c d : β}
    (hle : a ≤ b → c ≤ d) (hge : b ≤ a → d ≤ c) :
    (compare c d = compare a b ↔ (c = d → a = b)) := by
  rcases lt_trichotomy a b with h | rfl | h
  · rw [compare_lt_iff_lt.2 h, compare_lt_iff_lt]
    exact ⟨fun hlt he => absurd he hlt.ne, fun he => (hle h.le).lt_of_ne fun hcd => h.ne (he hcd)⟩
  · rw [compare_eq_iff_eq.2 rfl, compare_eq_iff_eq]
    exact ⟨fun _ _ => rfl, fun _ => le_antisymm (hle le_rfl) (hge le_rfl)⟩
  · rw [compare_gt_iff_gt.2 h, compare_gt_iff_gt]
    exact ⟨fun hlt he => absurd he hlt.ne', fun he =>
      (hge h.le).lt_of_ne fun hcd => h.ne (he hcd.symm).symm⟩

theorem same_toDouble_iff (hx : isFinite x) :
    same x (BigInteger.toDouble n) ↔ rank x = rank (BigInteger.toDouble n) := by
  rw [same, order?, NumberFormat.isNaN_of_isFinite hx, isNaN_toDouble, beq_iff_eq]
  exact Option.some_inj.trans compare_eq_iff_eq

theorem order?_toDouble (hx : isFinite x) (n : Int) : order? x (BigInteger.toDouble n) =
    some (compare (rank x) (rank (BigInteger.toDouble n))) := by
  rw [order?, NumberFormat.isNaN_of_isFinite hx, isNaN_toDouble]
  rfl

end Binary64

namespace Value

open Binary64

variable {x : Float} {a b c : Value}

/-- The exact value of a finite number or a big integer. -/
def rational? : Value → Option ℚ
  | number x => if isFinite x then some (exact x) else none
  | bigint n => some n
  | _ => none

/-- The double that stands for a big integer differs from a number unless they are equal. -/
def ToldApart : Value → Value → Prop
  | number x, bigint n | bigint n, number x =>
    same x (BigInteger.toDouble n) → exact x = n
  | _, _ => True

theorem order?_number_bigint (hx : isFinite x) (n : Int) : (number x).order? (bigint n) =
    .ok (some (compare (rank x) (rank (BigInteger.toDouble n)))) := by
  rw [order?, Comparable.ofValue, if_pos hx, ← order?_toDouble hx]
  rfl

theorem order?_bigint_number (hx : isFinite x) (n : Int) : (bigint n).order? (number x) =
    .ok (some (compare (rank (BigInteger.toDouble n)) (rank x))) := by
  have hswap := order?_swap (order?_number_bigint hx n)
  rwa [Option.map_some, ← Std.OrientedOrd.eq_swap] at hswap

/-- The exact condition under which a number and a big integer are compared by their values. -/
theorem order?_eq_compare_iff (hx : isFinite x) (n : Int) :
    ((number x).order? (bigint n) = .ok (some (compare (exact x) n)) ∧
      (bigint n).order? (number x) = .ok (some (compare (n : ℚ) (exact x)))) ↔
    (number x).ToldApart (bigint n) := by
  obtain ⟨hle, hge⟩ := rank_toDouble hx n
  rw [order?_number_bigint hx, order?_bigint_number hx, Except.ok.injEq, Option.some.injEq,
    Except.ok.injEq, Option.some.injEq, compare_eq_compare hle hge, compare_eq_compare hge hle,
    ToldApart, same_toDouble_iff hx, eq_comm (a := rank (BigInteger.toDouble n)),
    eq_comm (a := (n : ℚ)), and_self]

theorem order?_of_same (hx : isFinite x) {n : Int} (h : same x (BigInteger.toDouble n)) :
    (number x).order? (bigint n) = .ok (some .eq) ∧
      (bigint n).order? (number x) = .ok (some .eq) := by
  have hrank := (same_toDouble_iff hx).1 h
  rw [order?_number_bigint hx, order?_bigint_number hx, compare_eq_iff_eq.2 hrank,
    compare_eq_iff_eq.2 hrank.symm]
  exact ⟨rfl, rfl⟩

theorem rational?_eq_some {p : ℚ} (h : a.rational? = some p) :
    (∃ x, isFinite x ∧ a = .number x ∧ p = exact x) ∨ ∃ n : Int, a = .bigint n ∧ p = n := by
  cases a with
  | number x =>
    obtain ⟨hx, hp⟩ := Option.ite_none_right_eq_some.1 h
    exact .inl ⟨x, hx, rfl, (Option.some.inj hp).symm⟩
  | bigint n => exact .inr ⟨n, rfl, (Option.some.inj h).symm⟩
  | _ => cases h

theorem order?_exact {p q : ℚ} (ha : a.rational? = some p) (hb : b.rational? = some q)
    (h : a.ToldApart b) : a.order? b = .ok (some (compare p q)) := by
  rcases rational?_eq_some ha with ⟨x, hx, rfl, rfl⟩ | ⟨m, rfl, rfl⟩ <;>
    rcases rational?_eq_some hb with ⟨y, hy, rfl, rfl⟩ | ⟨n, rfl, rfl⟩
  · rw [order?_number hx hy, (compare_eq_compare rank_le_of_exact_le rank_le_of_exact_le).2]
    exact fun hrank => by rw [exact_eq_rank, hrank, ← exact_eq_rank]
  · exact ((order?_eq_compare_iff hx n).2 h).1
  · exact ((order?_eq_compare_iff hy m).2 h).2
  · refine congrArg (Except.ok <| some ·) ((compare_eq_compare ?_ ?_).2 ?_)
    · exact Int.cast_le.1
    · exact Int.cast_le.1
    · exact congrArg _

theorem relation_exact {p q : ℚ} (ha : a.rational? = some p) (hb : b.rational? = some q)
    (h : a.ToldApart b) (test : Ordering → Bool) :
    Policy.Standard.relation test a b = .ok (.bool (test (compare p q))) := by
  rw [Policy.Standard.relation, order?_exact ha hb h]
  rfl

theorem relation_trans {test : Ordering → Bool}
    (htest : ∀ p q r : ℚ, test (compare p q) → test (compare q r) → test (compare p r))
    {p q r : ℚ} (ha : a.rational? = some p) (hb : b.rational? = some q) (hc : c.rational? = some r)
    (hab : a.ToldApart b) (hbc : b.ToldApart c) (hac : a.ToldApart c)
    (h : Policy.Standard.relation test a b = .ok (.bool true))
    (h' : Policy.Standard.relation test b c = .ok (.bool true)) :
    Policy.Standard.relation test a c = .ok (.bool true) := by
  rw [relation_exact ha hb hab, Except.ok.injEq, bool.injEq] at h
  rw [relation_exact hb hc hbc, Except.ok.injEq, bool.injEq] at h'
  rw [relation_exact ha hc hac, htest p q r h h']

theorem ToldApart.symm (h : a.ToldApart b) : b.ToldApart a := by
  cases a <;> cases b <;> exact h

theorem toldApart_of_order? {p q : ℚ} (ha : a.rational? = some p) (hb : b.rational? = some q)
    (h : a.order? b = .ok (some (compare p q)) ∧ b.order? a = .ok (some (compare q p))) :
    a.ToldApart b := by
  rcases rational?_eq_some ha with ⟨x, hx, rfl, rfl⟩ | ⟨m, rfl, rfl⟩ <;>
    rcases rational?_eq_some hb with ⟨y, hy, rfl, rfl⟩ | ⟨n, rfl, rfl⟩
  · trivial
  · exact (order?_eq_compare_iff hx n).1 h
  · exact (order?_eq_compare_iff hy m).1 h.symm
  · trivial

theorem order?_of_not_toldApart {p q : ℚ} (ha : a.rational? = some p) (hb : b.rational? = some q)
    (h : ¬ a.ToldApart b) : a.order? b = .ok (some .eq) ∧ b.order? a = .ok (some .eq) := by
  rcases rational?_eq_some ha with ⟨x, hx, rfl, rfl⟩ | ⟨m, rfl, rfl⟩ <;>
    rcases rational?_eq_some hb with ⟨y, hy, rfl, rfl⟩ | ⟨n, rfl, rfl⟩
  · exact absurd trivial h
  · exact order?_of_same hx (Classical.not_imp.1 h).1
  · exact (order?_of_same hy (Classical.not_imp.1 h).1).symm
  · exact absurd trivial h

theorem binary_trans {p q r : ℚ} (ha : a.rational? = some p) (hb : b.rational? = some q)
    (hc : c.rational? = some r) (hab : a.ToldApart b) (hbc : b.ToldApart c) (hac : a.ToldApart c)
    {op : BinaryOp} (hop : op ∈ [BinaryOp.less, .lessEq, .greater, .greaterEq])
    (h : Policy.Standard.binary op a b = .ok (.bool true))
    (h' : Policy.Standard.binary op b c = .ok (.bool true)) :
    Policy.Standard.binary op a c = .ok (.bool true) := by
  simp only [List.mem_cons, List.not_mem_nil, or_false] at hop
  rcases hop with rfl | rfl | rfl | rfl
  · refine relation_trans (fun p q r h h' => ?_) ha hb hc hab hbc hac h h'
    rw [Ordering.isLT_iff_eq_lt] at h h' ⊢
    exact Std.TransCmp.lt_trans h h'
  · refine relation_trans (fun p q r h h' => ?_) ha hb hc hab hbc hac h h'
    exact Std.TransCmp.isLE_trans h h'
  · refine relation_trans (fun p q r h h' => ?_) ha hb hc hab hbc hac h h'
    rw [Ordering.isGT_iff_eq_gt] at h h' ⊢
    exact Std.TransCmp.gt_trans h h'
  · refine relation_trans (fun p q r h h' => ?_) ha hb hc hab hbc hac h h'
    exact Std.TransCmp.isGE_trans h h'

/-- Numbers and big integers are compared by their values if, and only if, they are told apart; two
of them that are not are taken for equal. Those that are told apart from each other are ordered
transitively, as their values are. -/
theorem order?_exact_iff {p q r : ℚ} (ha : a.rational? = some p) (hb : b.rational? = some q)
    (hc : c.rational? = some r) :
    (a.order? b = .ok (some (compare p q)) ∧ b.order? a = .ok (some (compare q p)) ↔
      a.ToldApart b) ∧
    (¬ a.ToldApart b → a.order? b = .ok (some .eq) ∧ b.order? a = .ok (some .eq)) ∧
    (a.ToldApart b → b.ToldApart c → a.ToldApart c →
      ∀ op ∈ [BinaryOp.less, .lessEq, .greater, .greaterEq],
        Policy.Standard.binary op a b = .ok (.bool true) →
        Policy.Standard.binary op b c = .ok (.bool true) →
        Policy.Standard.binary op a c = .ok (.bool true)) :=
  ⟨⟨toldApart_of_order? ha hb, fun h => ⟨order?_exact ha hb h, order?_exact hb ha h.symm⟩⟩,
    order?_of_not_toldApart ha hb,
    fun hab hbc hac _ hop => binary_trans ha hb hc hab hbc hac hop⟩

/-- A number with a fraction against two big integers. -/
theorem order?_exact_iff_fraction :
    (number 2.5).rational? = some (5 / 2) ∧ (number 2.5).ToldApart (bigint 3) ∧
      (number 2.5).order? (bigint 3) = .ok (some .lt) ∧
      (bigint 3).order? (number 2.5) = .ok (some .gt) ∧
      Policy.Standard.binary .less (number 2.5) (bigint 7) = .ok (.bool true) := by
  have hexact : exact 2.5 = 5 / 2 := by
    have hparts : parts 2.5 = ⟨5629499534213120, -51⟩ := by decide +kernel
    have hsign : isNegative 2.5 = false := by decide +kernel
    rw [exact, hparts, hsign]
    norm_num
  have hrational : (number 2.5).rational? = some (5 / 2) := by
    rw [rational?, if_pos (by decide +kernel), hexact]
  have happart (n : Int) (h : same 2.5 (BigInteger.toDouble n) = false) :
      (number 2.5).ToldApart (bigint n) := fun hsame => absurd hsame (Bool.eq_false_iff.1 h)
  have hthree := happart 3 (by decide +kernel)
  have hseven := happart 7 (by decide +kernel)
  obtain ⟨hiff, -, htrans⟩ := order?_exact_iff (c := bigint 7) hrational (b := bigint 3) rfl rfl
  obtain ⟨hlt, hgt⟩ := hiff.2 hthree
  have hlt' : compare (5 / 2 : ℚ) ((3 : Int) : ℚ) = .lt := compare_lt_iff_lt.2 (by norm_num)
  have hgt' : compare ((3 : Int) : ℚ) (5 / 2) = .gt := compare_gt_iff_gt.2 (by norm_num)
  rw [hlt'] at hlt
  rw [hgt'] at hgt
  refine ⟨hrational, hthree, hlt, hgt, ?_⟩
  refine htrans hthree trivial hseven .less List.mem_cons_self ?_ rfl
  rw [Policy.Standard.binary, Policy.Standard.relation, hlt]
  rfl

/-- Past the integers that doubles hold exactly, a big integer is taken for the number below it, and
the order of three values is not transitive. -/
theorem neighbour_taken_for_equal :
    (number 9007199254740992).order? (bigint 9007199254740993) = .ok (some .eq) ∧
      exact 9007199254740992 < 9007199254740993 ∧
      Policy.Standard.binary .lessEq (bigint 9007199254740993) (number 9007199254740992) =
        .ok (.bool true) ∧
      Policy.Standard.binary .lessEq (number 9007199254740992) (bigint 9007199254740992) =
        .ok (.bool true) ∧
      Policy.Standard.binary .lessEq (bigint 9007199254740993) (bigint 9007199254740992) =
        .ok (.bool false) := by
  have hsame : same 9007199254740992 (BigInteger.toDouble 9007199254740993) = true := by
    decide +kernel
  have hexact : exact 9007199254740992 = 9007199254740992 := by
    have hparts : parts 9007199254740992 = ⟨4503599627370496, 1⟩ := by decide +kernel
    have hsign : isNegative 9007199254740992 = false := by decide +kernel
    rw [exact, hparts, hsign]
    norm_num
  have hequal := order?_of_same (by decide +kernel) hsame
  refine ⟨hequal.1, by rw [hexact]; norm_num, ?_, ?_, rfl⟩
  · rw [Policy.Standard.binary, Policy.Standard.relation, hequal.2]
    rfl
  · rw [Policy.Standard.binary, Policy.Standard.relation,
      (order?_of_same (n := 9007199254740992) (by decide +kernel) (by decide +kernel)).1]
    rfl

end Value

end ExprLang
