import ConsoleScript.Proofs.Number.DecimalTexts

/-!
Round trips of floats through their texts. The text of a float that is no integer of a word is the
decimal of seven digits that is nearest to it. It is read as the float again exactly if any decimal of
so few digits is: decimals on one side of the float that are nearer are read as it, too, and if the
nearest decimal lies on the other side, the decimals lie closer together than the floats. Only at powers
of two, where the floats change their distance, this does not follow; there are few enough to look at
each.
-/

namespace ConsoleScript

open Ieee

section Neighbours

variable {v : ℚ} {p q : Nat}

/-- A value that is a pattern is read as it. -/
theorem reads_valueOf (hp : p < Ieee.single.infinity) : Reads (Ieee.single.valueOf p) p := by
  have hinfinity : Ieee.single.infinity = 255 * 2 ^ 23 := by decide
  have hexp : Ieee.single.unitExp p ≤ 104 := by
    have hless : p / 2 ^ 23 < 255 := (Nat.div_lt_iff_lt_mul (by decide)).mpr (hinfinity ▸ hp)
    have hmin : Ieee.single.minExp = -149 := by decide
    change Ieee.single.minExp + (p / 2 ^ 23 - 1 : Nat) ≤ 104
    omega
  have hsig : Ieee.single.significand p < 2 ^ 24 := Ieee.single.significand_lt p
  obtain ⟨w, hw⟩ := Ieee.double.exists_valueOf (m := Ieee.single.significand p)
    (hsig.trans (by decide)) (e := Ieee.single.unitExp p)
    (le_trans (by decide) (Ieee.single.minExp_le_unitExp p))
  have hvalue : Ieee.single.valueOf p = Ieee.double.valueOf w := hw.symm
  rw [hvalue]
  refine ⟨w, Format.IsNearest.valueOf _ w, ?_, hvalue ▸ Format.IsNearest.valueOf _ p⟩
  refine lt_infinity_of_lt (Format.IsNearest.valueOf _ w) ?_
  rw [hw]
  calc (Ieee.single.significand p : ℚ) * 2 ^ Ieee.single.unitExp p
      ≤ 2 ^ 24 * 2 ^ (104 : ℤ) := by
        gcongr
        · exact_mod_cast hsig.le
        · exact one_le_two
    _ = 2 ^ 128 := by norm_num
    _ < 2 ^ 1023 := pow_lt_pow_right₀ one_lt_two (by decide)

/-- The values next to a pattern are equally far from it. -/
def IsAmid (p : Nat) : Prop := 0 < p ∧ Ieee.single.unitExp (p - 1) = Ieee.single.unitExp p

/-- A value close to a pattern, in parts of a unit, is a double. -/
theorem exists_double (hp : 0 < p) (n : Int) (hlo : -2 ^ 20 < n) (hhi : n < 2 ^ 20) :
    ∃ w, Ieee.double.valueOf w =
      Ieee.single.valueOf p + n * (2 ^ Ieee.single.unitExp p / 2 ^ 20) := by
  have hsig : Ieee.single.significand p < 2 ^ 24 := Ieee.single.significand_lt p
  have hpos : 0 < Ieee.single.significand p := by
    have hvalue := Ieee.single.strictMono_valueOf hp
    rw [Format.valueOf_zero, Format.valueOf] at hvalue
    exact Nat.cast_pos.mp (pos_of_mul_pos_left hvalue (zpow_pos two_pos _).le)
  have hmin : Ieee.single.minExp ≤ Ieee.single.unitExp p := Ieee.single.minExp_le_unitExp p
  have hsingle : Ieee.single.minExp = -149 := by decide
  have hdouble : Ieee.double.minExp = -1074 := by decide
  obtain ⟨k, hk⟩ : ∃ k : Nat, (k : Int) = Ieee.single.significand p * 2 ^ 20 + n :=
    ⟨(Ieee.single.significand p * 2 ^ 20 + n).toNat, Int.toNat_of_nonneg (by omega)⟩
  obtain ⟨w, hw⟩ := Ieee.double.exists_valueOf (m := k) (show k < 2 ^ 53 by omega)
    (e := Ieee.single.unitExp p - 20) (by omega)
  refine ⟨w, ?_⟩
  have hcast : (k : ℚ) = Ieee.single.significand p * 2 ^ 20 + n := by exact_mod_cast hk
  rw [hw, hcast, Format.valueOf, zpow_sub₀ two_ne_zero]
  have htwenty : (2 : ℚ) ^ (20 : ℤ) = 2 ^ 20 := zpow_natCast 2 20
  rw [htwenty]
  field_simp

/-- What is read as such a pattern is hardly farther from it than half a unit. -/
theorem IsAmid.dist_lt (hp : IsAmid p) (h : Reads v p) :
    |v - Ieee.single.valueOf p| < (2 ^ 19 + 1) * (2 ^ Ieee.single.unitExp p / 2 ^ 20) := by
  obtain ⟨w, hw, -, hnear⟩ := h
  obtain ⟨hpos, hbelow⟩ := hp
  have hnext := Ieee.single.valueOf_succ p
  have hprev := Ieee.single.valueOf_succ (p - 1)
  rw [Nat.sub_add_cancel hpos, hbelow] at hprev
  have hunit : (0 : ℚ) < 2 ^ Ieee.single.unitExp p := zpow_pos two_pos _
  by_contra hfar
  rw [not_lt, le_abs] at hfar
  rcases hfar with hfar | hfar
  · obtain ⟨w', hw'⟩ := exists_double hpos (2 ^ 19 + 1) (by decide) (by decide)
    have hle := hw'.symm.le.trans (Ieee.double.strictMono_valueOf.monotone
      ((Format.IsNearest.valueOf _ w').mono hw (by rw [hw']; push_cast; linarith)))
    have hdist := hnear.near (p + 1)
    push_cast at hle
    rw [hnext] at hdist
    rcases abs_cases (Ieee.double.valueOf w - Ieee.single.valueOf p) with h | h <;>
      rcases abs_cases (Ieee.double.valueOf w - (Ieee.single.valueOf p + 2 ^ Ieee.single.unitExp p))
        with h' | h' <;> linarith
  · obtain ⟨w', hw'⟩ := exists_double hpos (-(2 ^ 19 + 1)) (by decide) (by decide)
    have hle := (Ieee.double.strictMono_valueOf.monotone
      (hw.mono (Format.IsNearest.valueOf _ w') (by rw [hw']; push_cast; linarith))).trans hw'.le
    have hdist := hnear.near (p - 1)
    push_cast at hle
    rcases abs_cases (Ieee.double.valueOf w - Ieee.single.valueOf p) with h | h <;>
      rcases abs_cases (Ieee.double.valueOf w - Ieee.single.valueOf (p - 1)) with h' | h' <;> linarith

/-- What is read and is hardly farther than half a unit from such a pattern is read as it. -/
theorem IsAmid.eq_of_dist_le (hp : IsAmid p) (h : Reads v q)
    (hv : |v - Ieee.single.valueOf p| ≤ (2 ^ 19 - 1) * (2 ^ Ieee.single.unitExp p / 2 ^ 20)) :
    q = p := by
  obtain ⟨w, hw, -, hnear⟩ := h
  obtain ⟨hpos, hbelow⟩ := hp
  have hnext := Ieee.single.valueOf_succ p
  have hprev := Ieee.single.valueOf_succ (p - 1)
  rw [Nat.sub_add_cancel hpos, hbelow] at hprev
  have hunit : (0 : ℚ) < 2 ^ Ieee.single.unitExp p := zpow_pos two_pos _
  rw [abs_le] at hv
  obtain ⟨w₁, hw₁⟩ := exists_double hpos (-(2 ^ 19 - 1)) (by decide) (by decide)
  obtain ⟨w₂, hw₂⟩ := exists_double hpos (2 ^ 19 - 1) (by decide) (by decide)
  have hlo := hw₁.symm.le.trans (Ieee.double.strictMono_valueOf.monotone
    ((Format.IsNearest.valueOf _ w₁).mono hw (by rw [hw₁]; push_cast; linarith [hv.1])))
  have hhi := (Ieee.double.strictMono_valueOf.monotone
    (hw.mono (Format.IsNearest.valueOf _ w₂) (by rw [hw₂]; push_cast; linarith [hv.2]))).trans hw₂.le
  push_cast at hlo hhi
  refine hnear.unique (Format.IsNearest.of_dist_lt ?_ (by linarith))
  rintro r rfl
  rw [Nat.add_sub_cancel] at hprev
  linarith

end Neighbours

section Units

private theorem powers_apart : ∀ a < 60, 0 < a →
    2 ^ (10 ^ a).log2 * (2 ^ 18 + 1) ≤ 10 ^ a * 2 ^ 18 ∧
      10 ^ a * 2 ^ 18 + 2 ^ ((10 ^ a).log2 + 1) ≤ 2 ^ ((10 ^ a).log2 + 1) * 2 ^ 18 := by
  decide

/-- Neither are their reciprocals. -/
theorem exists_binade {p : Int} (hp : p ≠ 0) (hlo : -60 < p) (hhi : p < 60) :
    ∃ l : Int, (2 : ℚ) ^ l * (2 ^ 19 + 1) ≤ 10 ^ p * 2 ^ 19 ∧
      (10 : ℚ) ^ p * 2 ^ 19 ≤ 2 ^ (l + 1) * (2 ^ 19 - 1) := by
  obtain ⟨hlow, hhigh⟩ := powers_apart p.natAbs (by omega) (by omega)
  generalize (10 ^ p.natAbs).log2 = k at hlow hhigh
  have hlow : (2 : ℚ) ^ k * (2 ^ 18 + 1) ≤ 10 ^ p.natAbs * 2 ^ 18 := by exact_mod_cast hlow
  have hhigh : (10 : ℚ) ^ p.natAbs * 2 ^ 18 + 2 ^ (k + 1) ≤ 2 ^ (k + 1) * 2 ^ 18 := by
    exact_mod_cast hhigh
  rw [pow_succ (2 : ℚ) k] at hhigh
  have htwo : (0 : ℚ) < 2 ^ k := by positivity
  have hten : (0 : ℚ) < 10 ^ p.natAbs := by positivity
  rcases Int.lt_or_gt_of_ne hp with hneg | hpos
  · refine ⟨-(k + 1 : Nat), ?_⟩
    have hexp : p = -(p.natAbs : Int) := by omega
    have hexp' : -((k + 1 : Nat) : Int) + 1 = -(k : Int) := by push_cast; ring
    rw [hexp, hexp', zpow_neg, zpow_neg, zpow_neg, zpow_natCast,
      zpow_natCast, zpow_natCast, inv_mul_eq_div, inv_mul_eq_div, inv_mul_eq_div, pow_succ (2 : ℚ) k,
      div_le_div_iff₀ (by positivity) hten, div_le_div_iff₀ hten htwo]
    constructor <;> linarith
  · refine ⟨k, ?_⟩
    have hexp : p = (p.natAbs : Int) := by omega
    rw [hexp, zpow_add_one₀ two_ne_zero, zpow_natCast, zpow_natCast]
    constructor <;> linarith

/-- A power of ten that is at most hardly larger than a power of two is smaller; but for one. -/
theorem units_apart {p q : Int} (hlo : -60 < p) (hhi : p < 60)
    (h : (10 : ℚ) ^ p * 2 ^ 19 < 2 ^ q * (2 ^ 19 + 1)) :
    (10 : ℚ) ^ p * 2 ^ 19 ≤ 2 ^ q * (2 ^ 19 - 1) ∨ p = 0 ∧ q = 0 := by
  by_cases hp : p = 0
  · subst hp
    rw [zpow_zero] at h ⊢
    have hq : 0 ≤ q := by
      by_contra hq
      have hhalf : (2 : ℚ) ^ q ≤ 2 ^ (-1 : Int) := zpow_le_zpow_right₀ one_le_two (by omega)
      rw [zpow_neg_one] at hhalf
      linarith
    rcases eq_or_lt_of_le hq with rfl | hq
    · exact .inr ⟨rfl, rfl⟩
    · have htwo : (2 : ℚ) ^ (1 : Int) ≤ 2 ^ q := zpow_le_zpow_right₀ one_le_two hq
      rw [zpow_one] at htwo
      left
      linarith
  · obtain ⟨l, hlow, hhigh⟩ := exists_binade hp hlo hhi
    have hq : l + 1 ≤ q := by
      by_contra hq
      have hle : (2 : ℚ) ^ q ≤ 2 ^ l := zpow_le_zpow_right₀ one_le_two (by omega)
      linarith
    have hle : (2 : ℚ) ^ (l + 1) ≤ 2 ^ q := zpow_le_zpow_right₀ one_le_two hq
    left
    linarith

end Units

section Nearest

theorem Reads.eq_of_between {v v' x : ℚ} {p q : Nat} (h : Reads v p) (h' : Reads v' p) (hq : Reads x q)
    (hlo : v ≤ x) (hhi : x ≤ v') : q = p :=
  Nat.le_antisymm (hq.mono h' hhi) (h.mono hq hlo)

theorem Reads.of_between {v v' : ℚ} {p a b : Nat} (ha : 0 < a) (hb : 0 < b) (h : Reads v p)
    (h' : Reads v' p) (hlo : v ≤ (a : ℚ) / b) (hhi : (a : ℚ) / b ≤ v') : Reads ((a : ℚ) / b) p := by
  obtain ⟨w, hw, -⟩ := Ieee.double.roundQuotient_spec (by decide) false ha hb
  obtain ⟨q, hq, -⟩ := Ieee.single.round_spec (by decide) false (Ieee.double.significand w)
    (Ieee.double.unitExp w)
  have hfinite : w < Ieee.double.infinity := by
    obtain ⟨w', hw', hless, -⟩ := h'
    exact Nat.lt_of_le_of_lt (hw.mono hw' hhi) hless
  have hread : Reads ((a : ℚ) / b) q := ⟨w, hw, hfinite, hq⟩
  exact h.eq_of_between h' hread hlo hhi ▸ hread

/-- The values of patterns are neither very small nor very large. -/
theorem valueOf_bounds {p : Nat} (hp : 0 < p) (hfinite : p < Ieee.single.infinity) :
    (10 : ℚ) ^ (-45 : Int) < Ieee.single.valueOf p ∧ Ieee.single.valueOf p < 10 ^ (39 : Int) := by
  have hleast : Ieee.single.valueOf 1 = 2 ^ (-149 : Int) := by
    have hsig : Ieee.single.significand 1 = 1 := by decide
    have hexp : Ieee.single.unitExp 1 = -149 := by decide
    rw [Format.valueOf, hsig, hexp, Nat.cast_one, one_mul]
  have hinfinity : Ieee.single.valueOf Ieee.single.infinity = 2 ^ 23 * 2 ^ (105 : Int) := by
    have hsig : Ieee.single.significand Ieee.single.infinity = 2 ^ 23 := by decide
    have hexp : Ieee.single.unitExp Ieee.single.infinity = 105 := by decide
    rw [Format.valueOf, hsig, hexp, Nat.cast_pow, Nat.cast_two]
  have hlow : Ieee.single.valueOf 1 ≤ Ieee.single.valueOf p := Ieee.single.strictMono_valueOf.monotone hp
  have hhigh := Ieee.single.strictMono_valueOf hfinite
  rw [hleast] at hlow
  rw [hinfinity] at hhigh
  exact ⟨lt_of_lt_of_le (by norm_num) hlow, hhigh.trans (by norm_num)⟩

private theorem eq_zero_of_small {p : Nat} (hfinite : p < Ieee.single.infinity)
    (h : Ieee.single.valueOf p ≤ 10 ^ (-401 : Int)) : p = 0 := by
  by_contra hp
  have hless := (valueOf_bounds (Nat.pos_of_ne_zero hp) hfinite).1
  exact absurd (hless.trans_le h) (not_lt_of_ge (zpow_le_zpow_right₀ (by norm_num) (by decide)))

theorem small_lt_huge : (10 : ℚ) ^ (40 : Int) < 2 ^ 1023 := by
  calc (10 : ℚ) ^ (40 : Int) ≤ 16 ^ 40 := by norm_num
    _ = 2 ^ (4 * 40) := by rw [pow_mul]; norm_num
    _ < 2 ^ 1023 := pow_lt_pow_right₀ one_lt_two (by decide)

private theorem valueOf_lt {p : Nat} (hfinite : p < Ieee.single.infinity) :
    Ieee.single.valueOf p < 2 ^ 1023 := by
  refine lt_trans ?_ small_lt_huge
  rcases Nat.eq_zero_or_pos p with rfl | hp
  · rw [Format.valueOf_zero]
    positivity
  · exact (valueOf_bounds hp hfinite).2.trans (zpow_lt_zpow_right₀ (by norm_num) (by decide))

/-- The place of the seventh digit of a pattern. -/
def placeOf (p : Nat) : Int :=
  Decimal.pointAt (Ieee.single.significand p) (Ieee.single.unitExp p) - 7

/-- The first seven digits of a pattern. -/
def sevenDigits (p : Nat) : Nat := Decimal.leading 7 (Ieee.single.significand p) (Ieee.single.unitExp p)

theorem significand_pos {p : Nat} (hp : 0 < p) : 0 < Ieee.single.significand p := by
  have hpositive := Ieee.single.strictMono_valueOf hp
  rw [Format.valueOf_zero] at hpositive
  exact Nat.cast_pos.mp (pos_of_mul_pos_left hpositive (zpow_pos two_pos _).le)

/-- The value of a pattern in units of the seventh digit. -/
theorem sevenDigits_spec {p : Nat} (hp : 0 < p) (hfinite : p < Ieee.single.infinity) :
    (10 : ℚ) ^ 6 * 10 ^ placeOf p ≤ Ieee.single.valueOf p ∧
      Ieee.single.valueOf p < 10 ^ 7 * 10 ^ placeOf p ∧ -60 < placeOf p ∧ placeOf p < 39 ∧
      IsRounded (Ieee.single.valueOf p / 10 ^ placeOf p) (sevenDigits p) := by
  obtain ⟨-, hlow, hhigh, hrounded⟩ := Decimal.fixed_spec 7 (significand_pos hp) (Ieee.single.unitExp p)
  change (10 : ℚ) ^ _ ≤ Ieee.single.valueOf p at hlow
  change Ieee.single.valueOf p < (10 : ℚ) ^ _ at hhigh
  change IsRounded (Ieee.single.valueOf p / 10 ^ placeOf p) (sevenDigits p) at hrounded
  obtain ⟨t, ht⟩ : ∃ t, t = Decimal.pointAt (Ieee.single.significand p) (Ieee.single.unitExp p) :=
    ⟨_, rfl⟩
  have hplace : placeOf p = t - 7 := by rw [ht]; rfl
  rw [← ht] at hlow hhigh
  obtain ⟨hleast, hmost⟩ := valueOf_bounds hp hfinite
  have hten : (1 : ℚ) < 10 := by norm_num
  have hne : (10 : ℚ) ≠ 0 := by norm_num
  have hupper := (zpow_lt_zpow_iff_right₀ hten).mp (hlow.trans_lt hmost)
  have hlower := (zpow_lt_zpow_iff_right₀ hten).mp (hleast.trans hhigh)
  refine ⟨?_, ?_, by omega, by omega, hrounded⟩
  · rw [hplace, ← zpow_natCast, ← zpow_add₀ hne]
    exact le_trans (le_of_eq (congrArg _ (by push_cast; ring))) hlow
  · rw [hplace, ← zpow_natCast, ← zpow_add₀ hne]
    exact lt_of_lt_of_le hhigh (le_of_eq (congrArg _ (by push_cast; ring)))

/-- The seven digits are the nearest multiple of their unit. -/
theorem dist_sevenDigits {p : Nat} (hp : 0 < p) (hfinite : p < Ieee.single.infinity) :
    |(sevenDigits p : ℚ) * 10 ^ placeOf p - Ieee.single.valueOf p| ≤ 10 ^ placeOf p / 2 ∧
      ∀ z : Nat, |(sevenDigits p : ℚ) * 10 ^ placeOf p - Ieee.single.valueOf p| ≤
        |(z : ℚ) * 10 ^ placeOf p - Ieee.single.valueOf p| := by
  obtain ⟨-, -, -, -, hrounded⟩ := sevenDigits_spec hp hfinite
  have hpos : (0 : ℚ) < 10 ^ placeOf p := zpow_pos (by norm_num) _
  have hdist (c : Nat) : |(c : ℚ) * 10 ^ placeOf p - Ieee.single.valueOf p| =
      |Ieee.single.valueOf p / 10 ^ placeOf p - c| * 10 ^ placeOf p := by
    rw [abs_sub_comm, ← abs_of_pos hpos, ← abs_mul, abs_of_pos hpos, sub_mul, div_mul_cancel₀ _ hpos.ne']
  constructor
  · rw [hdist]
    have := mul_le_mul_of_nonneg_right hrounded.near hpos.le
    linarith
  · intro z
    rw [hdist, hdist]
    exact mul_le_mul_of_nonneg_right (hrounded.le_dist z) hpos.le

theorem sevenDigits_pos {p : Nat} (hp : 0 < p) (hfinite : p < Ieee.single.infinity) :
    1 < sevenDigits p := by
  obtain ⟨hlow, -, -, -, hrounded⟩ := sevenDigits_spec hp hfinite
  have hle := (le_div_iff₀ (zpow_pos (by norm_num) _)).mpr hlow
  have hnear := (abs_le.mp hrounded.near).2
  exact_mod_cast (by linarith : (1 : ℚ) < sevenDigits p)

end Nearest

section Powers

/-- The floats around a pattern are not equally far from it only where the exponent changes. -/
theorem eq_power_of_not_isAmid {p : Nat} (hp : 0 < p) (h : ¬IsAmid p) :
    ∃ e, 2 ≤ e ∧ p = e * 2 ^ 23 := by
  have hne : (p - 1) / 2 ^ 23 - 1 ≠ p / 2 ^ 23 - 1 := by
    intro heq
    refine h ⟨hp, ?_⟩
    change Ieee.single.minExp + ((p - 1) / 2 ^ 23 - 1 : Nat) = Ieee.single.minExp + (p / 2 ^ 23 - 1 : Nat)
    rw [heq]
  exact ⟨p / 2 ^ 23, by omega, by omega⟩

def readPattern (a b : Nat) : Nat :=
  let w := Ieee.double.roundQuotient false a b
  Ieee.single.round false (Ieee.double.significand w) (Ieee.double.unitExp w)

private theorem readPattern_eq {a b p : Nat} (ha : 0 < a) (hb : 0 < b) (h : Reads ((a : ℚ) / b) p) :
    readPattern a b = min Ieee.single.infinity p := by
  obtain ⟨w, hw, hfinite, hp⟩ := h
  obtain ⟨w', hw', hround⟩ := Ieee.double.roundQuotient_spec (by decide) false ha hb
  obtain rfl := hw.unique hw'
  obtain ⟨p', hp', hround'⟩ := Ieee.single.round_spec (by decide) false (Ieee.double.significand w)
    (Ieee.double.unitExp w)
  obtain rfl := hp.unique hp'
  have hsigned : Ieee.double.roundQuotient false a b = w := by
    rw [hround, Format.signed, if_neg Bool.false_ne_true, Nat.zero_add, Nat.min_eq_right hfinite.le]
  rw [readPattern, hsigned, hround', Format.signed, if_neg Bool.false_ne_true, Nat.zero_add]

/-- The seven digits of a pattern are read as it, or those before and behind them are not. -/
def decides (p : Nat) : Bool :=
  let (a, b) := Decimal.powerOfTen (placeOf p)
  readPattern (sevenDigits p * a) b == p ||
    readPattern ((sevenDigits p - 1) * a) b != p && readPattern ((sevenDigits p + 1) * a) b != p

private theorem decides_powers : ∀ e < 255, 2 ≤ e → decides (e * 2 ^ 23) = true := by
  decide +kernel

/-- Where this is decided, a multiple of the unit on the other side is not read as the pattern unless
the seven digits are. -/
theorem eq_of_decides {p q z : Nat} (hp : 0 < p) (hfinite : p < Ieee.single.infinity)
    (hcheck : decides p = true) (hz : Reads (z * 10 ^ placeOf p) p)
    (hq : Reads (sevenDigits p * 10 ^ placeOf p) q)
    (hsides : (sevenDigits p : ℚ) * 10 ^ placeOf p < Ieee.single.valueOf p ∧
        Ieee.single.valueOf p < z * 10 ^ placeOf p ∨
      (z : ℚ) * 10 ^ placeOf p < Ieee.single.valueOf p ∧
        Ieee.single.valueOf p < sevenDigits p * 10 ^ placeOf p) : q = p := by
  obtain ⟨ha, hb, hunit⟩ := Decimal.powerOfTen_spec (placeOf p)
  have hhalf := abs_le.mp (dist_sevenDigits hp hfinite).1
  have hmany := sevenDigits_pos hp hfinite
  have hself := reads_valueOf hfinite
  have hpos : (0 : ℚ) < 10 ^ placeOf p := zpow_pos (by norm_num) _
  unfold decides at hcheck
  generalize Decimal.powerOfTen (placeOf p) = ten at *
  generalize (10 : ℚ) ^ placeOf p = u at *
  generalize sevenDigits p = k at *
  obtain ⟨a, b⟩ := ten
  dsimp only at ha hb hunit hcheck
  have hcast (c : Nat) : ((c * a : Nat) : ℚ) / b = c * u := by
    rw [← hunit, Nat.cast_mul, mul_div_assoc]
  -- A multiple of the unit between two values that are read as the pattern is computed to be so.
  have hbetween {c : Nat} (hc : 0 < c) {v v' : ℚ} (hv : Reads v p) (hv' : Reads v' p)
      (hlo : v ≤ c * u) (hhi : (c : ℚ) * u ≤ v') : readPattern (c * a) b = p := by
    rw [← hcast] at hlo hhi
    have hread := Reads.of_between (Nat.mul_pos hc ha) hb hv hv' hlo hhi
    rw [readPattern_eq (Nat.mul_pos hc ha) hb hread, Nat.min_eq_right hfinite.le]
  have hdecided : readPattern (k * a) b = p := by
    simp only [Bool.or_eq_true, Bool.and_eq_true, beq_iff_eq, bne_iff_ne] at hcheck
    refine hcheck.resolve_right fun hneither => ?_
    rcases hsides with ⟨hless, hmore⟩ | ⟨hless, hmore⟩
    · have hle : k + 1 ≤ z := Nat.cast_lt.mp (lt_of_mul_lt_mul_right (hless.trans hmore) hpos.le)
      refine hneither.2 (hbetween (Nat.succ_pos k) hself hz ?_ (by gcongr))
      push_cast
      linarith
    · have hle : z ≤ k - 1 :=
        Nat.le_sub_one_of_lt (Nat.cast_lt.mp (lt_of_mul_lt_mul_right (hless.trans hmore) hpos.le))
      refine hneither.1 (hbetween (by omega) hz hself (by gcongr) ?_)
      rw [Nat.cast_sub hmany.le]
      push_cast
      linarith
  rw [← hcast] at hq
  rw [readPattern_eq (Nat.mul_pos (by omega) ha) hb hq] at hdecided
  omega

/-- Two values on both sides of a pattern, a unit of decimals apart: if the farther one is read as the
pattern, so is the nearer one. -/
theorem IsAmid.eq_of_opposite {p q : Nat} {s : Int} {x y : ℚ} (hp : IsAmid p) (hlo : -60 < s)
    (hhi : s < 60) (hone : ¬(s = 0 ∧ Ieee.single.unitExp p = 0)) (hx : Reads x p) (hy : Reads y q)
    (hnear : |y - Ieee.single.valueOf p| ≤ |x - Ieee.single.valueOf p|)
    (hhalf : |y - Ieee.single.valueOf p| ≤ 10 ^ s / 2)
    (hapart : (10 : ℚ) ^ s ≤ |y - Ieee.single.valueOf p| + |x - Ieee.single.valueOf p|) : q = p := by
  have hdist := hp.dist_lt hx
  have hclose : (10 : ℚ) ^ s * 2 ^ 19 ≤ 2 ^ Ieee.single.unitExp p * (2 ^ 19 - 1) :=
    (units_apart hlo hhi (by linarith)).resolve_right hone
  exact hp.eq_of_dist_le hy (by linarith)

/-- If a multiple of the unit of the seventh digit is read as a pattern, so are the nearest seven
digits. -/
theorem eq_of_sevenDigits {p q z : Nat} (hp : 0 < p) (hfinite : p < Ieee.single.infinity)
    (hword : ∀ n : Nat, n < 10 ^ 7 → Ieee.single.valueOf p ≠ n) (hz : Reads (z * 10 ^ placeOf p) p)
    (hq : Reads (sevenDigits p * 10 ^ placeOf p) q) : q = p := by
  have hself := reads_valueOf hfinite
  have hpos : (0 : ℚ) < 10 ^ placeOf p := zpow_pos (by norm_num) _
  obtain ⟨hhalf, hnear⟩ := dist_sevenDigits hp hfinite
  have hnear := hnear z
  have hapart {c c' : Nat} (h : (c : ℚ) * 10 ^ placeOf p < c' * 10 ^ placeOf p) :
      (10 : ℚ) ^ placeOf p ≤ c' * 10 ^ placeOf p - c * 10 ^ placeOf p := by
    have hless : c + 1 ≤ c' := Nat.cast_lt.mp (lt_of_mul_lt_mul_right h hpos.le)
    have hle : (c : ℚ) + 1 ≤ c' := by exact_mod_cast hless
    have := mul_le_mul_of_nonneg_right hle hpos.le
    linarith
  -- On the side of the other multiple, the nearest one lies between it and the pattern.
  have hopposite (hsides : (sevenDigits p : ℚ) * 10 ^ placeOf p < Ieee.single.valueOf p ∧
        Ieee.single.valueOf p < z * 10 ^ placeOf p ∨
      (z : ℚ) * 10 ^ placeOf p < Ieee.single.valueOf p ∧
        Ieee.single.valueOf p < sevenDigits p * 10 ^ placeOf p) : q = p := by
    by_cases hamid : IsAmid p
    · obtain ⟨-, hhigh, hlo, hhi, -⟩ := sevenDigits_spec hp hfinite
      refine hamid.eq_of_opposite hlo (by omega) ?_ hz hq hnear hhalf ?_
      · rintro ⟨hzero, hexp⟩
        have hvalue : Ieee.single.valueOf p = Ieee.single.significand p := by
          rw [Format.valueOf, hexp, zpow_zero, mul_one]
        rw [hzero, zpow_zero, mul_one, hvalue] at hhigh
        exact hword _ (by exact_mod_cast hhigh) hvalue
      · rcases hsides with ⟨hless, hmore⟩ | ⟨hless, hmore⟩
        · rw [abs_of_neg (by linarith), abs_of_pos (by linarith)]
          linarith [hapart (hless.trans hmore)]
        · rw [abs_of_pos (by linarith), abs_of_neg (by linarith)]
          linarith [hapart (hless.trans hmore)]
    · obtain ⟨e, he, rfl⟩ := eq_power_of_not_isAmid hp hamid
      have hinfinity : Ieee.single.infinity = 255 * 2 ^ 23 := by decide
      exact eq_of_decides hp hfinite (decides_powers e (by omega) he) hz hq hsides
  rcases lt_trichotomy ((sevenDigits p : ℚ) * 10 ^ placeOf p) (Ieee.single.valueOf p) with
    hless | heq | hmore
  · rcases lt_or_ge (Ieee.single.valueOf p) ((z : ℚ) * 10 ^ placeOf p) with habove | hbelow
    · exact hopposite (.inl ⟨hless, habove⟩)
    · rw [abs_of_neg (by linarith), abs_of_nonpos (by linarith)] at hnear
      exact hz.eq_of_between hself hq (by linarith) hless.le
  · exact (heq ▸ hq).unique hself
  · rcases lt_or_ge ((z : ℚ) * 10 ^ placeOf p) (Ieee.single.valueOf p) with hbelow | habove
    · exact hopposite (.inr ⟨hbelow, hmore⟩)
    · rw [abs_of_pos (by linarith), abs_of_nonneg (by linarith)] at hnear
      exact hself.eq_of_between hz hq hmore.le (by linarith)

end Powers

section Texts

namespace Single

/-- The number is neither infinite nor not-a-number. -/
def IsFinite (x : Single) : Prop := ∃ neg m e, x.datum = .finite neg m e

/-- The value of a finite number. -/
def value (x : Single) : ℚ :=
  match x.datum with
  | .finite neg m e => (if neg then -1 else 1) * (m * 2 ^ e)
  | _ => 0

theorem toNat_ofPattern (neg : Bool) (p : Nat) :
    (ofPattern neg p).bits.toNat = Ieee.single.signed neg p :=
  UInt32.toNat_ofNat_of_lt' (signed_lt Ieee.single neg p)

/-- A finite number is that of a pattern with its sign. -/
theorem exists_pattern {x : Single} {neg : Bool} {m : Nat} {e : Int} (h : x.datum = .finite neg m e) :
    ∃ p < Ieee.single.infinity, x = ofPattern neg p ∧ m = Ieee.single.significand p ∧
      e = Ieee.single.unitExp p := by
  obtain ⟨sign, p, hp, hbits⟩ : ∃ (sign : Bool) (p : Nat), p < 2 ^ 31 ∧
      x.bits.toNat = (if sign then Ieee.single.signBit else 0) + p := by
    have hsign : Ieee.single.signBit = 2 ^ 31 := by decide
    have hless : x.bits.toNat < 2 ^ 32 := x.bits.toNat_lt
    refine ⟨decide (2 ^ 31 ≤ x.bits.toNat), x.bits.toNat % 2 ^ 31, Nat.mod_lt _ (by decide), ?_⟩
    rw [hsign]
    split
    next hle => have := of_decide_eq_true hle; omega
    next hlt => have := of_decide_eq_false (Bool.eq_false_iff.mpr hlt); omega
  have hdecode := Ieee.single.decode_fields sign (p := p) (show p < 2 ^ 8 * 2 ^ 23 by omega)
  rw [datum, hbits, hdecode] at h
  split at h
  · split at h <;> cases h
  next hne =>
    cases h
    have hinfinity : Ieee.single.infinity = 255 * 2 ^ 23 := by decide
    have hne : p / 2 ^ 23 ≠ 255 := hne
    have hfinite : p < Ieee.single.infinity := by omega
    refine ⟨p, hfinite, ?_, rfl, rfl⟩
    obtain ⟨bits⟩ := x
    refine congrArg Single.mk (UInt32.toNat_inj.mp (hbits.trans (Eq.trans ?_
      (toNat_ofPattern neg p).symm)))
    rw [Format.signed, Nat.min_eq_right hfinite.le]

/-- Two patterns compare as equal if they are the same, or zeros. -/
theorem eq_ofPattern (neg neg' : Bool) (p p' : Nat) :
    (ofPattern neg p).eq (ofPattern neg' p') = true ↔
      min Ieee.single.infinity p = min Ieee.single.infinity p' ∧
        (neg = neg' ∨ min Ieee.single.infinity p = 0) := by
  have hsign : Ieee.single.signBit = 2 ^ 31 := by decide
  have hinfinity : Ieee.single.infinity = 255 * 2 ^ 23 := by decide
  have hmagnitude (neg : Bool) (p : Nat) :
      ((ofPattern neg p).bits &&& 0x7FFFFFFF).toNat = min Ieee.single.infinity p := by
    rw [UInt32.toNat_and, toNat_ofPattern]
    refine (Nat.and_two_pow_sub_one_eq_mod _ 31).trans ?_
    rw [Format.signed, hsign]
    split <;> omega
  have hnan (neg : Bool) (p : Nat) : (ofPattern neg p).isNaN = false := by
    refine decide_eq_false ?_
    rw [gt_iff_lt, UInt32.lt_iff_toNat_lt, hmagnitude, Nat.not_lt]
    exact Nat.min_le_left _ _
  have hkey (neg : Bool) (p : Nat) : (ofPattern neg p).key =
      if neg then -((min Ieee.single.infinity p : Nat) : Int)
      else ((min Ieee.single.infinity p : Nat) : Int) := by
    have hpositive : (ofPattern neg p).bits < 0x80000000 ↔ neg = false := by
      rw [UInt32.lt_iff_toNat_lt, toNat_ofPattern, Format.signed, hsign]
      change (if neg then 2 ^ 31 else 0) + min Ieee.single.infinity p < 2 ^ 31 ↔ _
      cases neg
      · simp
        omega
      · simp
    unfold key
    dsimp only
    rw [hmagnitude]
    cases neg
    · rw [if_pos (hpositive.mpr rfl), if_neg Bool.false_ne_true]
    · rw [if_neg fun h => Bool.noConfusion (hpositive.mp h), if_pos rfl]
  rw [Single.eq, hnan, hnan, hkey, hkey]
  generalize min Ieee.single.infinity p = a
  generalize min Ieee.single.infinity p' = b
  simp only [Bool.not_false, Bool.true_and, beq_iff_eq]
  cases neg <;> cases neg' <;> simp <;> omega

end Single

def DecimalText.value (n : DecimalText) : ℚ := (if n.neg then -1 else 1) * n.magnitude

theorem single_text {n : DecimalText} (hn : n.IsPlain) :
    ∃ p, Reading.single n.text = .ofPattern n.neg p ∧
      (Reads n.magnitude p ∨ n.magnitude ≤ 10 ^ (-401 : Int) ∧ p = 0 ∨
        2 ^ 1023 ≤ n.magnitude ∧ p = Ieee.single.infinity) := by
  rw [Reading.single, number_text hn]
  exact ofDecimal_spec n.neg (Numeral.digits_iff.mpr hn.digits) n.scale

theorem whole?_eq_some_iff {m : Nat} {e : Int} {n : Nat} :
    Printing.whole? m e = some n ↔ (m : ℚ) * 2 ^ e = n := by
  unfold Printing.whole?
  split
  next he =>
    obtain ⟨k, rfl⟩ := Int.eq_ofNat_of_zero_le he
    rw [Option.some.injEq, zpow_natCast]
    exact_mod_cast Iff.rfl
  next he =>
    obtain ⟨k, rfl⟩ : ∃ k : Nat, e = -k := ⟨(-e).toNat, by omega⟩
    rw [neg_neg, Int.toNat_natCast, zpow_neg, zpow_natCast, ← div_eq_mul_inv,
      div_eq_iff (by positivity)]
    have hpos : 0 < 2 ^ k := Nat.two_pow_pos k
    have hcast : (m : ℚ) = n * 2 ^ k ↔ m = n * 2 ^ k := by exact_mod_cast Iff.rfl
    rw [hcast]
    change (if m % 2 ^ k == 0 then some (m / 2 ^ k) else none) = some n ↔ _
    split
    next hzero =>
      rw [Option.some.injEq]
      have hmul := Nat.div_mul_cancel (Nat.dvd_of_mod_eq_zero (beq_iff_eq.mp hzero))
      constructor
      · rintro rfl
        exact hmul.symm
      · rintro rfl
        exact Nat.mul_div_cancel _ hpos
    next hrest =>
      refine ⟨nofun, ?_⟩
      rintro rfl
      exact absurd (beq_iff_eq.mpr (Nat.mul_mod_left n (2 ^ k))) hrest

variable {x : Single} {neg : Bool} {m : Nat} {e : Int}

theorem Single.value_eq (hx : x.datum = .finite neg m e) :
    x.value = (if neg then -1 else 1) * (m * 2 ^ e) := by
  rw [value, hx]

/-- An integer of a word is printed as such. -/
theorem float_of_word (hx : x.datum = .finite neg m e) {i : Int32} (hi : x.value = i.toInt) :
    Printing.float x = Printing.int i := by
  rw [Single.value_eq hx] at hi
  have hpos : (0 : ℚ) ≤ m * 2 ^ e := by positivity
  have hsigned : (if neg then -(i.toInt.natAbs : Int) else i.toInt.natAbs) = i.toInt ∧
      (m : ℚ) * 2 ^ e = i.toInt.natAbs := by
    cases neg
    · have hnonneg : 0 ≤ i.toInt := by
        rw [if_neg Bool.false_ne_true, one_mul] at hi
        exact_mod_cast hi ▸ hpos
      rw [if_neg Bool.false_ne_true, one_mul] at hi
      rw [if_neg Bool.false_ne_true, Int.natAbs_of_nonneg hnonneg, hi]
      exact ⟨rfl, by rw [← Int.cast_natCast, Int.natAbs_of_nonneg hnonneg]⟩
    · rw [if_pos rfl, neg_one_mul] at hi
      have hnonpos : i.toInt ≤ 0 := by
        have : (i.toInt : ℚ) ≤ 0 := by linarith
        exact_mod_cast this
      have habs : (i.toInt.natAbs : Int) = -i.toInt := by omega
      rw [if_pos rfl, habs]
      refine ⟨neg_neg _, ?_⟩
      have hcast : ((i.toInt.natAbs : Int) : ℚ) = -(i.toInt : ℚ) := by exact_mod_cast habs
      rw [Int.cast_natCast] at hcast
      linarith
  unfold Printing.float
  rw [hx]
  dsimp only
  rw [whole?_eq_some_iff.mpr hsigned.2]
  dsimp only
  rw [hsigned.1, if_pos]
  · rfl
  · simp only [Bool.and_eq_true, decide_eq_true_eq]
    exact ⟨i.minValue_le_toInt, i.toInt_le⟩

/-- Any other number is printed with its first digits. -/
theorem float_of_not_word (hx : x.datum = .finite neg m e) (h : ∀ i : Int32, x.value ≠ i.toInt) :
    ∃ limit, Printing.float x =
      Printing.signed neg ((Decimal.fixed Printing.floatDigits m e).general limit) := by
  unfold Printing.float
  rw [hx]
  dsimp only
  cases hwhole : Printing.whole? m e with
  | none => exact ⟨_, rfl⟩
  | some n =>
      have hint : (n : ℚ) = m * 2 ^ e := (whole?_eq_some_iff.mp hwhole).symm
      obtain ⟨k, hk⟩ : ∃ k : Int, k = if neg then -(n : Int) else n := ⟨_, rfl⟩
      have hvalue : x.value = k := by
        rw [Single.value_eq hx, ← hint, hk]
        cases neg <;> simp
      dsimp only
      rw [← hk]
      have hrange : ¬(Int32.minValue.toInt ≤ k && k ≤ Int32.maxValue.toInt) = true := by
        simp only [Bool.and_eq_true, decide_eq_true_eq]
        intro hrange
        have hword : (Int32.ofInt k).toInt = k :=
          Int32.toInt_ofInt_of_le hrange.1 (Int.lt_add_one_of_le hrange.2)
        exact h (Int32.ofInt k) (by rw [hword, hvalue])
      rw [if_neg hrange]
      exact ⟨_, rfl⟩

/-- The digits that are printed are few, and those nearest to the value. -/
theorem exists_printed {p : Nat} (hp : 0 < p) (hfinite : p < Ieee.single.infinity)
    (hx : x.datum = .finite neg (Ieee.single.significand p) (Ieee.single.unitExp p))
    (h : ∀ i : Int32, x.value ≠ i.toInt) : ∃ n : DecimalText, n.neg = neg ∧ n.IsPlain ∧ n.HasDigits 7 ∧
      Printing.float x = n.text ∧ n.magnitude = sevenDigits p * 10 ^ placeOf p := by
  obtain ⟨limit, hprint⟩ := float_of_not_word hx h
  obtain ⟨hfixed, -⟩ := Decimal.fixed_spec 7 (significand_pos hp) (Ieee.single.unitExp p)
  obtain ⟨-, hhigh, -, -, hrounded⟩ := sevenDigits_spec hp hfinite
  rw [show Printing.floatDigits = 7 from rfl, hfixed] at hprint
  change _ = Printing.signed neg ((Decimal.ofNat (sevenDigits p) 7 _).general limit) at hprint
  have hmany : 0 < sevenDigits p := Nat.lt_of_succ_lt (sevenDigits_pos hp hfinite)
  have hfew : sevenDigits p ≤ 10 ^ 7 := by
    have hless := (div_lt_iff₀ (zpow_pos (by norm_num) _)).mpr hhigh
    have : (sevenDigits p : ℚ) < (10 ^ 7 + 1 : Nat) := by
      push_cast
      linarith [(abs_le.mp hrounded.near).1]
    exact Nat.le_of_lt_succ (Nat.cast_lt.mp this)
  obtain ⟨hne, hdigits, hmagnitude, trail, htrail⟩ := Decimal.ofNat_spec hmany 7
    (Decimal.pointAt (Ieee.single.significand p) (Ieee.single.unitExp p))
  obtain ⟨n, hneg, htext, hplain, hvalue, lead, core, zeros, hcore, hshort⟩ :=
    exists_general neg limit hne hdigits
  refine ⟨n, hneg, hplain, ⟨lead, core, zeros, hcore, hshort.trans ?_⟩, by rw [hprint, htext],
    hvalue.trans hmagnitude⟩
  rcases Nat.lt_or_eq_of_le hfew with hlt | heq
  · have hle := (Bytes.length_ofNat hmany).1
    have hall : (Bytes.ofNat (sevenDigits p)).length - 1 < 7 :=
      (Nat.pow_lt_pow_iff_right (by decide)).mp (Nat.lt_of_le_of_lt hle hlt)
    rw [htrail, List.length_append] at hall
    omega
  · rw [heq]
    change ((Bytes.ofNat (10 ^ 7)).reverse.dropWhile (· == 0x30)).reverse.length ≤ 7
    decide

/-- A numeral of few digits is a multiple of a power of ten. -/
theorem DecimalText.HasDigits.magnitude {n : DecimalText} {k : Nat} (hn : n.IsPlain)
    (h : n.HasDigits k) : ∃ (j : Nat) (r : Int), j < 10 ^ k ∧ n.magnitude = j * 10 ^ r := by
  obtain ⟨lead, core, trail, hdigits, hlength⟩ := h
  have hcore : Numeral.Digits 10 core := by
    refine Numeral.digits_iff.mpr fun c hc => hn.digits c ?_
    rw [hdigits]
    exact List.mem_append_right _ (List.mem_append_left _ hc)
  have hless : Numeral.natOf 10 core < 10 ^ k :=
    lt_of_lt_of_le (Numeral.natOf_lt hcore) (Nat.pow_le_pow_right (by decide) hlength)
  refine ⟨Numeral.natOf 10 core, trail + n.scale, hless, ?_⟩
  rw [DecimalText.magnitude, hdigits, Numeral.natOf_padded, zpow_add₀ (by norm_num), zpow_natCast]
  push_cast
  ring

/-- A multiple of a power of ten by a number of seven digits is a multiple of the unit of the seventh
digit of a value, or one that is not less than it lies below the value. -/
theorem exists_multiple {f : ℚ} {s r : Int} {j : Nat} (hj : j < 10 ^ 7) (hlow : 10 ^ 6 * 10 ^ s ≤ f) :
    (∃ z : Nat, (j : ℚ) * 10 ^ r = z * 10 ^ s) ∨
      (j : ℚ) * 10 ^ r ≤ (10 ^ 6 : Nat) * 10 ^ s ∧ ((10 ^ 6 : Nat) : ℚ) * 10 ^ s ≤ f := by
  have hten : (10 : ℚ) ≠ 0 := by norm_num
  rcases le_or_gt s r with hle | hlt
  · obtain ⟨k, rfl⟩ : ∃ k : Nat, r = k + s := ⟨(r - s).toNat, by omega⟩
    left
    refine ⟨j * 10 ^ k, ?_⟩
    rw [zpow_add₀ hten, zpow_natCast]
    push_cast
    ring
  · right
    refine ⟨?_, by push_cast; exact hlow⟩
    have hj' : (j : ℚ) ≤ 10 ^ 7 := by exact_mod_cast hj.le
    calc (j : ℚ) * 10 ^ r ≤ 10 ^ 7 * 10 ^ (s - 1) := by
          gcongr
          · norm_num
          · omega
      _ = (10 ^ 6 : Nat) * 10 ^ s := by
          rw [zpow_sub_one₀ hten]
          push_cast
          ring

/-- An integer of a word is read back. -/
theorem eq_of_word (hx : x.datum = .finite neg m e) {i : Int32} (hi : x.value = i.toInt) :
    (Reading.single (Printing.float x)).eq x = true := by
  obtain ⟨p, hp, hpattern, rfl, rfl⟩ := Single.exists_pattern hx
  have hvalue : x.value = (if neg then -1 else 1) * Ieee.single.valueOf p := Single.value_eq hx
  have hnonneg := Ieee.single.valueOf_nonneg p
  have hmagnitude : Ieee.single.valueOf p = i.toInt.natAbs := by
    rw [← abs_of_nonneg hnonneg, Nat.cast_natAbs, Int.cast_abs, ← hi, hvalue]
    cases neg <;> simp
  let n : DecimalText := { neg := decide (i.toInt < 0), whole := Bytes.ofNat i.toInt.natAbs }
  have hplain : n.IsPlain := by
    have hdigits : n.digits = Bytes.ofNat i.toInt.natAbs := List.append_nil _
    exact ⟨hdigits ▸ Bytes.ofNat_ne_nil _, hdigits ▸ Numeral.digits_iff.mp (Bytes.digits_ofNat _)⟩
  have htext : Printing.int i = n.text := by
    change Bytes.ofInt i.toInt = Printing.signed (decide (i.toInt < 0)) (Bytes.ofNat i.toInt.natAbs ++ [])
    rw [List.append_nil]
    cases i.toInt with
    | ofNat k => rfl
    | negSucc k =>
        rw [decide_eq_true (Int.negSucc_lt_zero k)]
        rfl
  have hn : n.magnitude = Ieee.single.valueOf p := by
    have hdigits : n.digits = Bytes.ofNat i.toInt.natAbs := List.append_nil _
    rw [DecimalText.magnitude, hdigits, Bytes.natOf_ofNat, hmagnitude]
    exact mul_one _
  obtain ⟨q, hread, hq⟩ := single_text hplain
  rw [hn] at hq
  obtain rfl : q = p := by
    rcases hq with hq | ⟨hsmall, rfl⟩ | ⟨hlarge, -⟩
    · exact hq.unique (reads_valueOf hp)
    · exact (eq_zero_of_small hp hsmall).symm
    · exact absurd hlarge (not_le_of_gt (valueOf_lt hp))
  rw [float_of_word hx hi, htext, hread, hpattern, Single.eq_ofPattern]
  refine ⟨rfl, ?_⟩
  rcases Nat.eq_zero_or_pos q with rfl | hpos
  · exact .inr (Nat.min_zero _)
  · have hvalue' := Ieee.single.strictMono_valueOf hpos
    rw [Format.valueOf_zero] at hvalue'
    left
    change decide (i.toInt < 0) = neg
    rw [hvalue] at hi
    cases neg
    · have : (0 : ℚ) ≤ i.toInt := by rw [← hi, if_neg Bool.false_ne_true, one_mul]; exact hvalue'.le
      exact decide_eq_false (Int.not_lt.mpr (by exact_mod_cast this))
    · have : (i.toInt : ℚ) < 0 := by rw [← hi, if_pos rfl]; linarith
      exact decide_eq_true (by exact_mod_cast this)

/-- A pattern that is no integer of a word is not zero, and no small integer at all. -/
theorem ne_natCast_of_not_word {p : Nat} (hx : x.value = (if neg then -1 else 1) * Ieee.single.valueOf p)
    (h : ∀ i : Int32, x.value ≠ i.toInt) :
    0 < p ∧ ∀ n : Nat, n < 10 ^ 7 → Ieee.single.valueOf p ≠ n := by
  have hword (n : Nat) (hn : n < 10 ^ 7) : Ieee.single.valueOf p ≠ n := by
    intro heq
    obtain ⟨k, hk⟩ : ∃ k : Int, k = if neg then -(n : Int) else n := ⟨_, rfl⟩
    have hrange : (Int32.ofInt k).toInt = k := by
      have hmin : Int32.minValue.toInt = -2147483648 := by decide
      refine Int32.toInt_ofInt_of_le ?_ ?_ <;> split at hk <;> omega
    refine h (Int32.ofInt k) ?_
    rw [hrange, hx, heq, hk]
    cases neg <;> simp
  refine ⟨Nat.pos_of_ne_zero ?_, hword⟩
  rintro rfl
  exact hword 0 (by decide) (by rw [Format.valueOf_zero, Nat.cast_zero])

/-- The seven digits of a pattern are as near to it as any numeral of seven digits. -/
theorem dist_le_of_hasDigits {p : Nat} (hp : 0 < p) (hfinite : p < Ieee.single.infinity)
    {n : DecimalText} (hn : n.IsPlain) (h : n.HasDigits 7) :
    |(sevenDigits p : ℚ) * 10 ^ placeOf p - Ieee.single.valueOf p| ≤
      |n.magnitude - Ieee.single.valueOf p| := by
  obtain ⟨j, r, hj, hmagnitude⟩ := h.magnitude hn
  obtain ⟨-, hnear⟩ := dist_sevenDigits hp hfinite
  rw [hmagnitude]
  rcases exists_multiple (r := r) hj (sevenDigits_spec hp hfinite).1 with ⟨z, hz⟩ | ⟨hlo, hhi⟩
  · rw [hz]
    exact hnear z
  · refine (hnear (10 ^ 6)).trans ?_
    rw [abs_of_nonpos (by linarith), abs_of_nonpos (by linarith)]
    linarith

/-- If a numeral of seven digits is read as a pattern, so are the seven digits of the pattern. -/
theorem eq_of_hasDigits {p q : Nat} (hp : 0 < p) (hfinite : p < Ieee.single.infinity)
    (hword : ∀ n : Nat, n < 10 ^ 7 → Ieee.single.valueOf p ≠ n) {n : DecimalText} (hn : n.IsPlain)
    (h : n.HasDigits 7) (hread : Reads n.magnitude p) (hq : Reads (sevenDigits p * 10 ^ placeOf p) q) :
    q = p := by
  obtain ⟨j, r, hj, hmagnitude⟩ := h.magnitude hn
  rw [hmagnitude] at hread
  rcases exists_multiple (r := r) hj (sevenDigits_spec hp hfinite).1 with ⟨z, hz⟩ | ⟨hlo, hhi⟩
  · exact eq_of_sevenDigits hp hfinite hword (hz ▸ hread) hq
  · obtain ⟨ha, hb, hunit⟩ := Decimal.powerOfTen_spec (placeOf p)
    have hcast : ((10 ^ 6 * (Decimal.powerOfTen (placeOf p)).1 : Nat) : ℚ) /
        (Decimal.powerOfTen (placeOf p)).2 = (10 ^ 6 : Nat) * 10 ^ placeOf p := by
      rw [← hunit, Nat.cast_mul, mul_div_assoc]
    have hmillion := Reads.of_between (Nat.mul_pos (by decide) ha) hb hread (reads_valueOf hfinite)
      (hcast ▸ hlo) (hcast ▸ hhi)
    rw [hcast] at hmillion
    exact eq_of_sevenDigits hp hfinite hword hmillion hq

/-- The seven digits of a pattern are neither too small nor too large to be read. -/
theorem sevenDigits_bounds {p : Nat} (hp : 0 < p) (hfinite : p < Ieee.single.infinity) :
    (10 : ℚ) ^ (-401 : Int) < sevenDigits p * 10 ^ placeOf p ∧
      (sevenDigits p : ℚ) * 10 ^ placeOf p < 2 ^ 1023 := by
  obtain ⟨hlow, -, hlo, -, -⟩ := sevenDigits_spec hp hfinite
  have hhalf := abs_le.mp (dist_sevenDigits hp hfinite).1
  have hpos : (0 : ℚ) < 10 ^ placeOf p := zpow_pos (by norm_num) _
  constructor
  · have hunit : (10 : ℚ) ^ (-401 : Int) < 10 ^ placeOf p :=
      zpow_lt_zpow_right₀ (by norm_num) (by omega)
    linarith
  · have hmost := (valueOf_bounds hp hfinite).2
    refine lt_trans ?_ small_lt_huge
    have hten : (10 : ℚ) ^ (40 : Int) = 10 * 10 ^ (39 : Int) := by norm_num
    rw [hten]
    linarith

/-- Round trips of floats. A finite float is read back from its text exactly if it is an integer of a
word, or if any decimal of seven digits or less is read as it; the two zeros are taken for one. The text
of a float that is no integer of a word is a decimal of at most seven digits, and none is nearer to it. -/
theorem float_text_round_trip (x : Single) (hx : x.IsFinite) :
    ((Reading.single (Printing.float x)).eq x = true ↔
      (∃ i : Int32, x.value = i.toInt) ∨
        ∃ n : DecimalText, n.IsPlain ∧ n.HasDigits 7 ∧ (Reading.single n.text).eq x = true) ∧
    ((∀ i : Int32, x.value ≠ i.toInt) → ∃ n : DecimalText, n.IsPlain ∧ n.HasDigits 7 ∧
      Printing.float x = n.text ∧ ∀ n' : DecimalText, n'.IsPlain → n'.HasDigits 7 →
        |x.value - n.value| ≤ |x.value - n'.value|) := by
  obtain ⟨neg, m, e, hdatum⟩ := hx
  obtain ⟨p, hfinite, hpattern, rfl, rfl⟩ := Single.exists_pattern hdatum
  by_cases hword : ∃ i : Int32, x.value = i.toInt
  · obtain ⟨i, hi⟩ := hword
    exact ⟨iff_of_true (eq_of_word hdatum hi) (.inl ⟨i, hi⟩), fun h => absurd hi (h i)⟩
  have hnot : ∀ i : Int32, x.value ≠ i.toInt := fun i hi => hword ⟨i, hi⟩
  have hvalue : x.value = (if neg then -1 else 1) * Ieee.single.valueOf p := Single.value_eq hdatum
  obtain ⟨hp, hsmall⟩ := ne_natCast_of_not_word hvalue hnot
  obtain ⟨n, hneg, hplain, hdigits, hprint, hmagnitude⟩ := exists_printed hp hfinite hdatum hnot
  have hmin : min Ieee.single.infinity p = p := Nat.min_eq_right hfinite.le
  refine ⟨⟨fun h => .inr ⟨n, hplain, hdigits, hprint ▸ h⟩, fun h => ?_⟩, fun _ =>
    ⟨n, hplain, hdigits, hprint, fun n' hplain' hdigits' => ?_⟩⟩
  · obtain ⟨n', hplain', hdigits', heq⟩ := h.resolve_left hword
    obtain ⟨p', hread', hp'⟩ := single_text hplain'
    rw [hread', hpattern, Single.eq_ofPattern, hmin] at heq
    have hreads : Reads n'.magnitude p := by
      rcases hp' with hp' | ⟨-, rfl⟩ | ⟨-, rfl⟩
      · obtain rfl : p' = p := by omega
        exact hp'
      · omega
      · omega
    obtain ⟨q, hread, hq⟩ := single_text hplain
    obtain ⟨hlarge, hless⟩ := sevenDigits_bounds hp hfinite
    rw [hmagnitude] at hq
    have hq : Reads (sevenDigits p * 10 ^ placeOf p) q :=
      hq.resolve_right fun h => h.elim (fun h => absurd h.1 (not_le_of_gt hlarge))
        fun h => absurd h.1 (not_le_of_gt hless)
    rw [hprint, hread, hpattern, Single.eq_ofPattern, hneg,
      eq_of_hasDigits hp hfinite hsmall hplain' hdigits' hreads hq]
    exact ⟨rfl, .inl rfl⟩
  · have hnear := dist_le_of_hasDigits hp hfinite hplain' hdigits'
    have hpos := Ieee.single.valueOf_nonneg p
    have hpos' : 0 ≤ n'.magnitude := mul_nonneg (Nat.cast_nonneg _) (zpow_nonneg (by norm_num) _)
    have hleft : |x.value - n.value| = |(sevenDigits p : ℚ) * 10 ^ placeOf p - Ieee.single.valueOf p| := by
      rw [hvalue, DecimalText.value, hneg, hmagnitude, ← mul_sub, abs_mul, abs_sub_comm]
      cases neg <;> simp
    have hsigned (b : Bool) {u : ℚ} (hu : 0 ≤ u) : |(if b then -1 else 1) * u| = u := by
      cases b <;> simp [abs_of_nonneg hu]
    have hright : |n'.magnitude - Ieee.single.valueOf p| ≤ |x.value - n'.value| := by
      have htriangle := abs_abs_sub_abs_le x.value n'.value
      rw [hvalue, DecimalText.value, hsigned neg hpos, hsigned n'.neg hpos'] at htriangle
      rw [hvalue, DecimalText.value, abs_sub_comm]
      exact htriangle
    rw [hleft]
    exact hnear.trans hright

/-- The float next to one tenth is read back, and no decimal of seven digits is read as the float behind
one. -/
theorem float_text_round_trip_tenth :
    (Reading.single (Printing.float ⟨0x3DCCCCCD⟩)).eq ⟨0x3DCCCCCD⟩ = true ∧
      ¬∃ n : DecimalText, n.IsPlain ∧ n.HasDigits 7 ∧ (Reading.single n.text).eq ⟨0x3F800001⟩ = true := by
  constructor
  · refine (float_text_round_trip ⟨0x3DCCCCCD⟩ ⟨_, _, _, rfl⟩).1.mpr (.inr ?_)
    exact ⟨{ whole := utf8 "0", fraction := some (utf8 "1") },
      ⟨by decide, List.all_eq_true.mp (by decide)⟩,
      ⟨1, utf8 "1", 0, by decide, by decide⟩, by decide⟩
  · intro h
    have hback := (float_text_round_trip ⟨0x3F800001⟩ ⟨_, _, _, rfl⟩).1.mpr (.inr h)
    exact absurd hback (by decide)

/-- The float behind one is printed as one. -/
theorem float_text_not_exact :
    ¬∀ x : Single, x.IsFinite → (Reading.single (Printing.float x)).eq x = true :=
  fun h => absurd (h ⟨0x3F800001⟩ ⟨_, _, _, rfl⟩) (by decide)

end Texts

end ConsoleScript
