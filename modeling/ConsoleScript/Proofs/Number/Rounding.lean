import ConsoleScript.Number.Ieee
import Mathlib.Algebra.Order.Field.Power
import Mathlib.Data.Nat.Log
import Mathlib.Data.Rat.Cast.Order
import Mathlib.Tactic.FieldSimp
import Mathlib.Tactic.Linarith
import Mathlib.Tactic.Positivity
import Mathlib.Tactic.Ring

/-!
Correct rounding. The patterns of a format without their signs stand for values that grow with them,
by one unit in the last place from each to the next. An exact dyadic value and a quotient are rounded
to the pattern of the nearest value, of two that are equally near to the even one; past the largest
finite pattern this is infinity.
-/

namespace ConsoleScript.Ieee

/-- A whole number nearest to a value, and even if there are two. -/
structure IsRounded (x : ℚ) (k : Nat) : Prop where
  near : |x - k| ≤ 1 / 2
  even : |x - k| = 1 / 2 → Even k

namespace IsRounded

variable {x : ℚ} {k : Nat}

theorem natCast (k : Nat) : IsRounded k k := by
  constructor
  · rw [sub_self, abs_zero]
    norm_num
  · rw [sub_self, abs_zero]
    norm_num

/-- No whole number is nearer, and none as near unless the number is even. -/
theorem le_dist (h : IsRounded x k) (z : Nat) : |x - k| ≤ |x - z| := by
  rcases eq_or_ne z k with rfl | hne
  · exact le_rfl
  · have hone : (1 : ℚ) ≤ |(k : ℚ) - z| := by
      exact_mod_cast Int.one_le_abs (sub_ne_zero.mpr (Nat.cast_injective.ne hne.symm))
    have htriangle : |(k : ℚ) - z| ≤ |x - k| + |x - z| := by
      rw [abs_sub_comm x k]
      exact abs_sub_le (k : ℚ) x z
    linarith [h.near]

private theorem even_of_dist_eq (h : IsRounded x k) {z : Nat} (hne : z ≠ k)
    (hz : |x - k| = |x - z|) :
    Even k := by
  have hone : (1 : ℚ) ≤ |(k : ℚ) - z| := by
    exact_mod_cast Int.one_le_abs (sub_ne_zero.mpr (Nat.cast_injective.ne hne.symm))
  have htriangle : |(k : ℚ) - z| ≤ |x - k| + |x - z| := by
    rw [abs_sub_comm x k]
    exact abs_sub_le (k : ℚ) x z
  exact h.even (by linarith [h.near])

end IsRounded

/-- A quotient is rounded to a nearest whole number, and to the even one of two. -/
theorem isRounded_roundDiv (n : Nat) {d : Nat} (hd : 0 < d) :
    IsRounded ((n : ℚ) / d) (roundDiv n d) := by
  have hpos : (0 : ℚ) < d := Nat.cast_pos.mpr hd
  have hsplit : (n : ℚ) / d = (n / d : Nat) + (n % d : Nat) / d := by
    have hn : ((n / d * d + n % d : Nat) : ℚ) = n := congrArg _ (Nat.div_add_mod' n d)
    rw [← mul_div_cancel_right₀ ((n / d : Nat) : ℚ) hpos.ne', ← add_div, ← hn]
    push_cast
    rfl
  have hless : (n % d : Nat) < d := Nat.mod_lt n hd
  unfold roundDiv
  dsimp only
  generalize n / d = q at *
  generalize n % d = r at *
  have hr : (0 : ℚ) ≤ r / d := by positivity
  have hr' : (r : ℚ) / d < 1 := (div_lt_one hpos).mpr (Nat.cast_lt.mpr hless)
  have hhalf : (r : ℚ) / d ≤ 1 / 2 ↔ 2 * r ≤ d := by
    rw [div_le_div_iff₀ hpos two_pos, one_mul, mul_comm]
    exact_mod_cast Iff.rfl
  have htie : (r : ℚ) / d = 1 / 2 ↔ 2 * r = d := by
    rw [div_eq_div_iff hpos.ne' two_ne_zero, one_mul, mul_comm]
    exact_mod_cast Iff.rfl
  rw [hsplit]
  split
  next hup =>
    have hdist : |(q : ℚ) + r / d - (q + 1 : Nat)| = 1 - r / d := by
      rw [Nat.cast_add, Nat.cast_one, abs_sub_comm, abs_of_nonneg (by linarith)]
      ring
    simp only [Bool.or_eq_true, decide_eq_true_eq, Bool.and_eq_true, beq_iff_eq] at hup
    constructor
    · rw [hdist]
      rcases hup with hup | ⟨hup, -⟩
      · have := mt hhalf.mp (Nat.not_le_of_lt hup)
        linarith
      · have := htie.mpr hup
        linarith
    · rw [hdist]
      intro h
      have htie : 2 * r = d := htie.mp (by linarith)
      rcases hup with hup | ⟨-, hodd⟩
      · omega
      · exact (Nat.odd_iff.mpr hodd).add_one
  next hdown =>
    have hdist : |(q : ℚ) + r / d - q| = r / d := by
      rw [add_sub_cancel_left, abs_of_nonneg hr]
    simp only [Bool.or_eq_true, decide_eq_true_eq, Bool.and_eq_true, beq_iff_eq, not_or,
      not_and] at hdown
    constructor
    · rw [hdist, hhalf]
      omega
    · rw [hdist, htie]
      intro h
      exact Nat.even_iff.mpr (by have := hdown.2 h; omega)

/-- A value that lies between two whole numbers is rounded, in halves of a multiple of the unit, like
the middle between them. -/
theorem IsRounded.of_middle {q t k : Nat} {y : ℚ} (ht : 0 < t) (hlo : q < y) (hhi : y < q + 1)
    (h : IsRounded ((2 * q + 1 : Nat) / (4 * t : Nat)) k) : IsRounded (y / (2 * t : Nat)) k := by
  have hpos : (0 : ℚ) < t := Nat.cast_pos.mpr ht
  have hnear := abs_le.mp h.near
  have hlow : 2 * t * k ≤ q + t := by
    have hle : 4 * t * k ≤ 2 * q + 1 + 2 * t := by
      have : (k : ℚ) - 1 / 2 ≤ (2 * q + 1 : Nat) / (4 * t : Nat) := by linarith [hnear.1]
      rw [le_div_iff₀ (by positivity)] at this
      push_cast at this
      have : (4 * t * k : ℚ) ≤ 2 * q + 1 + 2 * t := by linarith
      exact_mod_cast this
    have hassoc : 4 * t * k = 2 * (2 * t * k) := by ring
    omega
  have hhigh : q + 1 ≤ 2 * t * k + t := by
    have hle : 2 * q + 1 ≤ 4 * t * k + 2 * t := by
      have : ((2 * q + 1 : Nat) : ℚ) / (4 * t : Nat) ≤ k + 1 / 2 := by linarith [hnear.2]
      rw [div_le_iff₀ (by positivity)] at this
      push_cast at this
      have : (2 * q + 1 : ℚ) ≤ 4 * t * k + 2 * t := by linarith
      exact_mod_cast this
    have hassoc : 4 * t * k = 2 * (2 * t * k) := by ring
    omega
  have hlow' : (2 * t * k : ℚ) ≤ q + t := by exact_mod_cast hlow
  have hhigh' : (q + 1 : ℚ) ≤ 2 * t * k + t := by exact_mod_cast hhigh
  have hdist : |y / (2 * t : Nat) - k| < 1 / 2 := by
    rw [abs_lt]
    push_cast
    constructor
    · rw [neg_lt_sub_iff_lt_add, ← sub_lt_iff_lt_add', lt_div_iff₀ (by positivity)]
      linarith
    · rw [sub_lt_iff_lt_add', div_lt_iff₀ (by positivity)]
      linarith
  exact ⟨hdist.le, fun heq => absurd heq hdist.ne⟩

namespace Format

variable {f : Format} {v w : ℚ} {p q : Nat}

/-- The significand of a pattern without its sign. -/
def significand (f : Format) (p : Nat) : Nat :=
  if p / 2 ^ f.fracBits = 0 then p else 2 ^ f.fracBits + p % 2 ^ f.fracBits

/-- The exponent of the unit in the last place of a pattern. -/
def unitExp (f : Format) (p : Nat) : ℤ := f.minExp + (p / 2 ^ f.fracBits - 1 : Nat)

/-- The value of a pattern without its sign, if exponents were not bounded above. -/
def valueOf (f : Format) (p : Nat) : ℚ := f.significand p * 2 ^ f.unitExp p

theorem significand_lt (f : Format) (p : Nat) : f.significand p < 2 ^ (f.fracBits + 1) := by
  have hpos : 0 < 2 ^ f.fracBits := Nat.two_pow_pos _
  have hmod : p % 2 ^ f.fracBits < 2 ^ f.fracBits := Nat.mod_lt p hpos
  rw [Nat.pow_succ, significand]
  split
  next h =>
    have := (Nat.div_eq_zero_iff_lt hpos).mp h
    omega
  next => omega

theorem minExp_le_unitExp (f : Format) (p : Nat) : f.minExp ≤ f.unitExp p := by
  unfold unitExp
  omega

theorem valueOf_nonneg (f : Format) (p : Nat) : 0 ≤ f.valueOf p :=
  mul_nonneg (Nat.cast_nonneg _) (zpow_nonneg zero_le_two _)

/-- A significand with its unit belongs to the pattern that has the exponent above it, also if it
carries into the exponent. -/
theorem valueOf_add {last : ℤ} {n : Nat} (hlast : f.minExp ≤ last)
    (hlo : last = f.minExp ∨ 2 ^ f.fracBits ≤ n) (hhi : n ≤ 2 ^ (f.fracBits + 1)) :
    f.valueOf ((last - f.minExp).toNat * 2 ^ f.fracBits + n) = n * 2 ^ last := by
  obtain ⟨k, rfl⟩ : ∃ k : Nat, last = f.minExp + k := ⟨(last - f.minExp).toNat, by omega⟩
  have hpos : 0 < 2 ^ f.fracBits := Nat.two_pow_pos _
  rw [add_sub_cancel_left, Int.toNat_natCast, valueOf, significand, unitExp]
  rw [Nat.pow_succ] at hhi
  have hdiv : (k * 2 ^ f.fracBits + n) / 2 ^ f.fracBits = k + n / 2 ^ f.fracBits := by
    rw [Nat.add_comm, Nat.add_mul_div_right _ _ hpos, Nat.add_comm]
  have hmod : (k * 2 ^ f.fracBits + n) % 2 ^ f.fracBits = n % 2 ^ f.fracBits := Nat.mul_add_mod_self_right ..
  rw [hdiv, hmod]
  generalize 2 ^ f.fracBits = b at *
  rcases Nat.lt_or_ge n b with hlt | hge
  · have hk : k = 0 := by omega
    subst hk
    rw [Nat.div_eq_of_lt hlt, if_pos rfl, Nat.zero_mul, Nat.zero_add]
  rw [if_neg (by have := Nat.div_pos hge hpos; omega)]
  rcases Nat.lt_or_ge n (2 * b) with hlt | hge'
  · have hone : n / b = 1 := Nat.div_eq_of_lt_le (by omega) (by omega)
    have hrest : n % b = n - b := by
      rw [Nat.mod_eq_sub_mod hge, Nat.mod_eq_of_lt (by omega)]
    rw [hone, hrest, Nat.add_sub_cancel, Nat.add_sub_cancel' hge]
  · obtain rfl : n = b * 2 := by omega
    rw [Nat.mul_div_cancel_left _ hpos, Nat.mul_mod_right, Nat.add_zero,
      show k + 2 - 1 = k + 1 by omega, Nat.cast_succ, ← add_assoc, zpow_add_one₀ two_ne_zero]
    push_cast
    ring

/-- A short enough significand with an exponent that is not too small has a pattern. -/
theorem exists_valueOf {m : Nat} (hm : m < 2 ^ (f.fracBits + 1)) {e : ℤ} (he : f.minExp ≤ e) :
    ∃ p, f.valueOf p = m * 2 ^ e := by
  obtain ⟨k, rfl⟩ : ∃ k : Nat, e = f.minExp + k := ⟨(e - f.minExp).toNat, by omega⟩
  induction k generalizing m with
  | zero => exact ⟨_, valueOf_add he (.inl (Int.add_zero _)) hm.le⟩
  | succ k ih =>
      rcases Nat.lt_or_ge m (2 ^ f.fracBits) with hlt | hge
      · -- There is room for a digit more behind the significand.
        obtain ⟨p, hp⟩ := ih (m := 2 * m) (by rw [Nat.pow_succ]; omega) (by omega)
        refine ⟨p, hp.trans ?_⟩
        rw [Nat.cast_succ, ← add_assoc, zpow_add_one₀ two_ne_zero]
        push_cast
        ring
      · exact ⟨_, valueOf_add he (.inr hge) hm.le⟩

/-- From each pattern to the next, the value grows by a unit in the last place. -/
theorem valueOf_succ (f : Format) (p : Nat) :
    f.valueOf (p + 1) = f.valueOf p + 2 ^ f.unitExp p := by
  have hpos : 0 < 2 ^ f.fracBits := Nat.two_pow_pos _
  have hlt := f.significand_lt p
  have hsplit : p = (f.unitExp p - f.minExp).toNat * 2 ^ f.fracBits + f.significand p := by
    rw [unitExp, add_sub_cancel_left, Int.toNat_natCast, significand]
    have := Nat.div_add_mod' p (2 ^ f.fracBits)
    split
    next h => rw [h, Nat.zero_sub, Nat.zero_mul, Nat.zero_add]
    next h =>
      obtain ⟨e, he⟩ := Nat.exists_eq_succ_of_ne_zero h
      rw [he, Nat.succ_mul] at this
      rw [he, Nat.succ_sub_one]
      omega
  have hlo : f.unitExp p = f.minExp ∨ 2 ^ f.fracBits ≤ f.significand p := by
    unfold unitExp significand
    split
    next h => exact .inl (by rw [h]; exact Int.add_zero _)
    next => exact .inr (Nat.le_add_right _ _)
  have hnext := valueOf_add (f := f) (n := f.significand p + 1) (f.minExp_le_unitExp p)
    (hlo.imp_right fun h => Nat.le_succ_of_le h) hlt
  rw [← Nat.add_assoc, ← hsplit] at hnext
  rw [hnext, valueOf]
  push_cast
  ring

theorem strictMono_valueOf (f : Format) : StrictMono f.valueOf :=
  strictMono_nat_of_lt_succ fun p => by
    rw [f.valueOf_succ p]
    exact lt_add_of_pos_right _ (zpow_pos two_pos _)

@[simp]
theorem valueOf_zero (f : Format) : f.valueOf 0 = 0 := by
  simp [valueOf, significand]

/-- The pattern has the nearest value; of two that are equally near, it is even. -/
structure IsNearest (f : Format) (v : ℚ) (p : Nat) : Prop where
  near : ∀ q, |v - f.valueOf p| ≤ |v - f.valueOf q|
  even : ∀ q, q ≠ p → |v - f.valueOf p| = |v - f.valueOf q| → Even p

namespace IsNearest

/-- Between two patterns that are equally near lies a nearer one, unless one of them is odd. -/
theorem unique (hp : f.IsNearest v p) (hq : f.IsNearest v q) : p = q := by
  by_contra hne
  wlog hlt : p < q generalizing p q
  · exact this hq hp (Ne.symm hne) (by omega)
  have hdist := le_antisymm (hp.near q) (hq.near p)
  have hp' := hp.even q (Ne.symm hne) hdist
  have hq' := hq.even p hne hdist.symm
  have hbetween : p + 1 < q := by
    obtain ⟨i, rfl⟩ := hp'
    obtain ⟨j, rfl⟩ := hq'
    omega
  have h₁ := f.strictMono_valueOf (Nat.lt_succ_self p)
  have h₂ := f.strictMono_valueOf hbetween
  have hmiddle := hp.near (p + 1)
  rcases abs_cases (v - f.valueOf p) with h | h <;> rcases abs_cases (v - f.valueOf q) with h' | h' <;>
    rcases abs_cases (v - f.valueOf (p + 1)) with h'' | h'' <;> linarith

theorem valueOf (f : Format) (p : Nat) : f.IsNearest (f.valueOf p) p := by
  constructor
  · intro q
    rw [sub_self, abs_zero]
    exact abs_nonneg _
  · intro q hne h
    rw [sub_self, abs_zero, eq_comm, abs_eq_zero, sub_eq_zero] at h
    exact absurd (f.strictMono_valueOf.injective h).symm hne

/-- The nearest patterns grow with the values. -/
theorem mono (hp : f.IsNearest v p) (hq : f.IsNearest w q) (hle : v ≤ w) : p ≤ q := by
  by_contra hlt
  have hlt := Nat.lt_of_not_le hlt
  have hvalue := f.strictMono_valueOf hlt
  have h₁ := hp.near q
  have h₂ := hq.near p
  -- Both values are in the middle.
  have heq : v = w := by
    rcases abs_cases (v - f.valueOf p) with h | h <;> rcases abs_cases (v - f.valueOf q) with h' | h' <;>
      rcases abs_cases (w - f.valueOf p) with h'' | h'' <;>
      rcases abs_cases (w - f.valueOf q) with h''' | h''' <;> linarith
  subst heq
  exact Nat.ne_of_gt hlt (hp.unique hq)

/-- A value that is nearer to a pattern than half the way to its neighbours. -/
theorem of_dist_lt (hlo : ∀ q, q + 1 = p → f.valueOf p - v < v - f.valueOf q)
    (hhi : v - f.valueOf p < f.valueOf (p + 1) - v) : f.IsNearest v p := by
  have hless (q : Nat) (hne : q ≠ p) : |v - f.valueOf p| < |v - f.valueOf q| := by
    rcases Nat.lt_or_gt_of_ne hne with hlt | hgt
    · obtain ⟨r, rfl⟩ : ∃ r, p = r + 1 := ⟨p - 1, by omega⟩
      have hq : f.valueOf q ≤ f.valueOf r := f.strictMono_valueOf.monotone (Nat.le_of_lt_succ hlt)
      have hr := f.strictMono_valueOf (Nat.lt_succ_self r)
      have hlo := hlo r rfl
      rw [abs_of_nonneg (a := v - f.valueOf q) (by linarith), abs_lt]
      constructor <;> linarith
    · have hq : f.valueOf (p + 1) ≤ f.valueOf q := f.strictMono_valueOf.monotone hgt
      have hp := f.strictMono_valueOf (Nat.lt_succ_self p)
      rw [abs_of_nonpos (a := v - f.valueOf q) (by linarith), abs_lt]
      constructor <;> linarith
  refine ⟨fun q => ?_, fun q hne heq => absurd heq (hless q hne).ne⟩
  rcases eq_or_ne q p with rfl | hne
  · exact le_rfl
  · exact (hless q hne).le

end IsNearest

/-- Where the unit is that of the binade of a value, or the least one, a nearest multiple of the unit
gives the nearest pattern. -/
theorem isNearest_of_isRounded {last : ℤ} {k : Nat} (hfrac : 0 < f.fracBits) (hlast : f.minExp ≤ last)
    (hlo : last = f.minExp ∨ 2 ^ f.fracBits * 2 ^ last ≤ v)
    (hhi : v < 2 ^ (f.fracBits + 1) * 2 ^ last) (hk : IsRounded (v / 2 ^ last) k) :
    f.IsNearest v ((last - f.minExp).toNat * 2 ^ f.fracBits + k) := by
  have hunit : (0 : ℚ) < 2 ^ last := zpow_pos two_pos _
  have hnear := abs_le.mp hk.near
  have hklo : last = f.minExp ∨ 2 ^ f.fracBits ≤ k := by
    refine hlo.imp_right fun h => ?_
    have hle : (2 : ℚ) ^ f.fracBits ≤ v / 2 ^ last := (le_div_iff₀ hunit).mpr h
    have hless : ((2 ^ f.fracBits : Nat) : ℚ) < (k + 1 : Nat) := by
      push_cast
      linarith [hnear.2]
    exact Nat.le_of_lt_succ (Nat.cast_lt.mp hless)
  have hkhi : k ≤ 2 ^ (f.fracBits + 1) := by
    have hlt : v / 2 ^ last < 2 ^ (f.fracBits + 1) := (div_lt_iff₀ hunit).mpr hhi
    have hless : (k : ℚ) < (2 ^ (f.fracBits + 1) + 1 : Nat) := by
      push_cast
      linarith [hnear.1]
    exact Nat.le_of_lt_succ (Nat.cast_lt.mp hless)
  have hvalue := valueOf_add hlast hklo hkhi
  have hdist (z : Nat) : |v - z * 2 ^ last| = |v / 2 ^ last - z| * 2 ^ last := by
    rw [← abs_of_pos hunit, ← abs_mul, abs_of_pos hunit, sub_mul, div_mul_cancel₀ _ hunit.ne']
  have heven : Even k → Even ((last - f.minExp).toNat * 2 ^ f.fracBits + k) := by
    intro h
    have htwo : Even (2 ^ f.fracBits) := Even.pow_of_ne_zero even_two hfrac.ne'
    exact (htwo.mul_left _).add h
  -- Every pattern has a multiple of the unit, or lies below the binade.
  have hpattern (q : Nat) : (∃ z : Nat, f.valueOf q = z * 2 ^ last) ∨
      |v - (2 ^ f.fracBits : Nat) * 2 ^ last| < |v - f.valueOf q| := by
    by_cases hq : last ≤ f.unitExp q
    · left
      obtain ⟨i, hi⟩ : ∃ i : Nat, f.unitExp q = i + last := ⟨(f.unitExp q - last).toNat, by omega⟩
      refine ⟨f.significand q * 2 ^ i, ?_⟩
      rw [Format.valueOf, hi, zpow_add₀ two_ne_zero, zpow_natCast]
      push_cast
      ring
    · right
      have hne : last ≠ f.minExp := by
        have := f.minExp_le_unitExp q
        omega
      have hv := hlo.resolve_left hne
      have hsig : (f.significand q : ℚ) < 2 ^ (f.fracBits + 1) := by
        exact_mod_cast f.significand_lt q
      have hexp : (2 : ℚ) ^ f.unitExp q ≤ 2 ^ (last - 1) :=
        zpow_le_zpow_right₀ one_le_two (by omega)
      have hless : f.valueOf q < 2 ^ f.fracBits * 2 ^ last := by
        calc f.valueOf q < 2 ^ (f.fracBits + 1) * 2 ^ f.unitExp q :=
              mul_lt_mul_of_pos_right hsig (zpow_pos two_pos _)
          _ ≤ 2 ^ (f.fracBits + 1) * 2 ^ (last - 1) := by gcongr
          _ = 2 ^ f.fracBits * 2 ^ last := by
              rw [pow_succ, zpow_sub_one₀ two_ne_zero]
              ring
      push_cast
      rw [abs_of_nonneg (by linarith), abs_of_nonneg (by linarith)]
      linarith
  constructor
  · intro q
    rw [hvalue, hdist]
    rcases hpattern q with ⟨z, hz⟩ | hbelow
    · rw [hz, hdist]
      exact mul_le_mul_of_nonneg_right (hk.le_dist z) hunit.le
    · refine le_trans ?_ hbelow.le
      rw [hdist]
      exact mul_le_mul_of_nonneg_right (hk.le_dist _) hunit.le
  · intro q hne heq
    rw [hvalue, hdist] at heq
    rcases hpattern q with ⟨z, hz⟩ | hbelow
    · rw [hz, hdist] at heq
      refine heven (hk.even_of_dist_eq (z := z) ?_ (mul_right_cancel₀ hunit.ne' heq))
      rintro rfl
      exact hne (f.strictMono_valueOf.injective (hz.trans hvalue.symm))
    · rw [← heq, hdist] at hbelow
      exact absurd (mul_le_mul_of_nonneg_right (hk.le_dist _) hunit.le) (not_le_of_gt hbelow)

/-- The pattern with a sign that stands for a pattern without it, or for infinity. -/
def signed (f : Format) (neg : Bool) (p : Nat) : Nat :=
  (if neg then f.signBit else 0) + min f.infinity p

/-- The place of the last bit of a dyadic value, and its significand there. -/
theorem exists_last (f : Format) (neg : Bool) {m : Nat} (hm : m ≠ 0) (e : ℤ) :
    ∃ (last : ℤ) (k : Nat), f.minExp ≤ last ∧
      (last = f.minExp ∨ (2 : ℚ) ^ f.fracBits * 2 ^ last ≤ m * 2 ^ e) ∧
      (m : ℚ) * 2 ^ e < 2 ^ (f.fracBits + 1) * 2 ^ last ∧ IsRounded (m * 2 ^ e / 2 ^ last) k ∧
      e + m.log2 - f.fracBits ≤ last ∧
      f.round neg m e = f.signed neg ((last - f.minExp).toNat * 2 ^ f.fracBits + k) := by
  let last : ℤ := max f.minExp (e + (m.log2 + 1 : Nat) - (f.fracBits + 1 : Nat))
  have hlast : last = max f.minExp (e + (m.log2 + 1 : Nat) - (f.fracBits + 1 : Nat)) := rfl
  let k := if last ≤ e then m * Nat.pow 2 (e - last).toNat else roundDiv m (Nat.pow 2 (last - e).toNat)
  have hround : f.round neg m e = f.signed neg ((last - f.minExp).toNat * 2 ^ f.fracBits + k) := by
    unfold Format.round
    rw [if_neg (by simpa using hm)]
    rfl
  have hsplit (i j : ℤ) : (2 : ℚ) ^ (i + j) = 2 ^ i * 2 ^ j := zpow_add₀ two_ne_zero i j
  have hlog : (2 : ℚ) ^ m.log2 ≤ m := by exact_mod_cast Nat.log2_self_le hm
  have hlog' : (m : ℚ) < 2 ^ (m.log2 + 1) := by exact_mod_cast Nat.lt_log2_self
  have hunit : (0 : ℚ) < 2 ^ e := zpow_pos two_pos e
  refine ⟨last, k, le_max_left _ _, ?_, ?_, ?_, by omega, hround⟩
  · by_cases hmin : last = f.minExp
    · exact .inl hmin
    · have hexp : (f.fracBits : ℤ) + last = m.log2 + e := by omega
      right
      rw [← zpow_natCast, ← hsplit, hexp, hsplit, zpow_natCast]
      exact mul_le_mul_of_nonneg_right hlog hunit.le
  · have hexp : (m.log2 + 1 : Nat) + e ≤ (f.fracBits + 1 : Nat) + last := by omega
    rw [← zpow_natCast, ← hsplit]
    refine lt_of_lt_of_le ?_ (zpow_le_zpow_right₀ one_le_two hexp)
    rw [hsplit, zpow_natCast]
    exact mul_lt_mul_of_pos_right hlog' hunit
  · have hk : k = if last ≤ e then m * Nat.pow 2 (e - last).toNat
      else roundDiv m (Nat.pow 2 (last - e).toNat) := rfl
    by_cases hle : last ≤ e
    · obtain ⟨i, hi⟩ : ∃ i : Nat, e = i + last := ⟨(e - last).toNat, by omega⟩
      rw [hk, if_pos hle, hi, hsplit, zpow_natCast, ← mul_assoc,
        mul_div_cancel_right₀ _ (zpow_pos two_pos last).ne', add_sub_cancel_right, Int.toNat_natCast]
      exact_mod_cast IsRounded.natCast (m * 2 ^ i)
    · obtain ⟨i, hi⟩ : ∃ i : Nat, last = i + e := ⟨(last - e).toNat, by omega⟩
      have hdiv : (m : ℚ) * 2 ^ e / 2 ^ last = m / (2 ^ i : Nat) := by
        rw [hi, hsplit, zpow_natCast, mul_div_mul_right _ _ hunit.ne']
        push_cast
        rfl
      have hi' : (last - e).toNat = i := by omega
      rw [hk, if_neg hle, hi', hdiv]
      exact isRounded_roundDiv m (Nat.two_pow_pos i)

theorem round_spec (hfrac : 0 < f.fracBits) (neg : Bool) (m : Nat) (e : ℤ) :
    ∃ p, f.IsNearest (m * 2 ^ e) p ∧ f.round neg m e = f.signed neg p := by
  by_cases hm : m = 0
  · subst hm
    refine ⟨0, ?_, ?_⟩
    · have h := IsNearest.valueOf f 0
      rw [valueOf_zero] at h
      simpa using h
    · rw [Format.signed, Nat.min_zero]
      rfl
  · obtain ⟨last, k, hlast, hlo, hhi, hk, -, hround⟩ := exists_last f neg hm e
    exact ⟨_, isNearest_of_isRounded hfrac hlast hlo hhi hk, hround⟩

/-- A quotient is rounded to the nearest pattern. -/
theorem roundQuotient_spec (hfrac : 0 < f.fracBits) (neg : Bool) {n d : Nat} (hn : 0 < n)
    (hd : 0 < d) : ∃ p, f.IsNearest ((n : ℚ) / d) p ∧ f.roundQuotient neg n d = f.signed neg p := by
  obtain ⟨shift, hshift⟩ : ∃ s, s = f.fracBits + 3 + d.log2 := ⟨_, rfl⟩
  obtain ⟨q, hq⟩ : ∃ q, q = n * 2 ^ shift / d := ⟨_, rfl⟩
  have hquotient : f.roundQuotient neg n d =
      f.round neg (2 * q + if n * 2 ^ shift % d == 0 then 0 else 1) (-(shift + 1 : Nat)) := by
    rw [hq, hshift]
    rfl
  have hpos : (0 : ℚ) < d := Nat.cast_pos.mpr hd
  have hscale : (0 : ℚ) < 2 ^ shift := by positivity
  -- The quotient keeps enough bits.
  have hbits : 2 ^ (f.fracBits + 2) ≤ q := by
    rw [hq, Nat.le_div_iff_mul_le hd]
    calc 2 ^ (f.fracBits + 2) * d ≤ 2 ^ (f.fracBits + 2) * 2 ^ (d.log2 + 1) :=
          Nat.mul_le_mul_left _ Nat.lt_log2_self.le
      _ = 2 ^ shift := by rw [← Nat.pow_add, hshift]; congr 1; omega
      _ ≤ n * 2 ^ shift := Nat.le_mul_of_pos_left _ hn
  have hunit : (2 : ℚ) ^ (-(shift + 1 : Nat) : ℤ) = (2 * 2 ^ shift)⁻¹ := by
    rw [zpow_neg, zpow_natCast, pow_succ']
  have hmod : n * 2 ^ shift % d < d := Nat.mod_lt _ hd
  have hdivmod : n * 2 ^ shift = q * d + n * 2 ^ shift % d := by
    rw [hq, Nat.div_add_mod']
  rw [hquotient]
  split
  next hzero =>
    -- Without a remainder the quotient is exact.
    rw [beq_iff_eq] at hzero
    rw [hzero, Nat.add_zero] at hdivmod
    have hvalue : ((2 * q + 0 : Nat) : ℚ) * 2 ^ (-(shift + 1 : Nat) : ℤ) = n / d := by
      have hcast : (n : ℚ) * 2 ^ shift = q * d := by exact_mod_cast hdivmod
      rw [hunit, ← div_eq_mul_inv, div_eq_div_iff (by positivity) hpos.ne']
      push_cast
      linarith
    rw [← hvalue]
    exact round_spec hfrac neg _ _
  next hrest =>
    obtain ⟨last, k, hlast, hlo, hhi, hk, hwide, hround⟩ :=
      exists_last f neg (show 2 * q + 1 ≠ 0 by omega) (-(shift + 1 : Nat) : ℤ)
    have hlog : f.fracBits + 3 ≤ (2 * q + 1).log2 := by
      have hpow : 2 ^ (f.fracBits + 3) = 2 * 2 ^ (f.fracBits + 2) := Nat.pow_succ'
      rw [Nat.le_log2 (Nat.succ_ne_zero _)]
      omega
    -- The unit is a multiple of four of the places kept.
    obtain ⟨i, hi⟩ : ∃ i : Nat, last = i + 1 - shift := ⟨(last + shift - 1).toNat, by omega⟩
    have hlastUnit : (2 : ℚ) ^ last = (2 * 2 ^ i : Nat) * (2 ^ shift)⁻¹ := by
      rw [hi, zpow_sub₀ two_ne_zero, zpow_add_one₀ two_ne_zero, zpow_natCast, zpow_natCast,
        div_eq_mul_inv]
      push_cast
      ring
    have hrest : 0 < n * 2 ^ shift % d := Nat.pos_of_ne_zero (by simpa using hrest)
    have hval : (n : ℚ) / d = (n * 2 ^ shift / d : ℚ) * (2 ^ shift)⁻¹ := by
      field_simp
    have hless : (q : ℚ) < n * 2 ^ shift / d := by
      rw [lt_div_iff₀ hpos]
      exact_mod_cast (show q * d < n * 2 ^ shift by omega)
    have hmore : (n * 2 ^ shift : ℚ) / d < q + 1 := by
      rw [div_lt_iff₀ hpos]
      exact_mod_cast (show n * 2 ^ shift < (q + 1) * d by rw [Nat.succ_mul]; omega)
    have hwval : ((2 * q + 1 : Nat) : ℚ) * 2 ^ (-(shift + 1 : Nat) : ℤ) =
        (2 * q + 1 : Nat) / 2 * (2 ^ shift)⁻¹ := by
      rw [hunit]
      field_simp
    refine ⟨_, isNearest_of_isRounded hfrac hlast ?_ ?_ ?_, hround⟩
    · refine hlo.imp_right fun h => ?_
      rw [hwval, hlastUnit, ← mul_assoc, mul_le_mul_iff_left₀ (inv_pos.mpr hscale)] at h
      rw [hval, hlastUnit, ← mul_assoc, mul_le_mul_iff_left₀ (inv_pos.mpr hscale)]
      have hle : 2 * (2 ^ f.fracBits * (2 * 2 ^ i)) ≤ 2 * q + 1 := by
        have : (2 : ℚ) * (2 ^ f.fracBits * (2 * 2 ^ i : Nat)) ≤ (2 * q + 1 : Nat) := by linarith
        exact_mod_cast this
      have hle : 2 ^ f.fracBits * (2 * 2 ^ i) ≤ q := by omega
      refine le_trans ?_ hless.le
      exact_mod_cast hle
    · rw [hwval, hlastUnit, ← mul_assoc, mul_lt_mul_iff_left₀ (inv_pos.mpr hscale)] at hhi
      rw [hval, hlastUnit, ← mul_assoc, mul_lt_mul_iff_left₀ (inv_pos.mpr hscale)]
      have hle : 2 * q + 1 < 2 * (2 ^ (f.fracBits + 1) * (2 * 2 ^ i)) := by
        have : ((2 * q + 1 : Nat) : ℚ) < 2 * (2 ^ (f.fracBits + 1) * (2 * 2 ^ i : Nat)) := by linarith
        exact_mod_cast this
      have hle : q + 1 ≤ 2 ^ (f.fracBits + 1) * (2 * 2 ^ i) := by omega
      refine lt_of_lt_of_le hmore ?_
      exact_mod_cast hle
    · have hmiddle : ((2 * q + 1 : Nat) : ℚ) * 2 ^ (-(shift + 1 : Nat) : ℤ) / 2 ^ last =
          (2 * q + 1 : Nat) / (4 * 2 ^ i : Nat) := by
        rw [hwval, hlastUnit, mul_div_mul_right _ _ (inv_pos.mpr hscale).ne']
        push_cast
        rw [div_div]
        ring_nf
      rw [hmiddle] at hk
      rw [hval, hlastUnit, mul_div_mul_right _ _ (inv_pos.mpr hscale).ne']
      exact hk.of_middle (Nat.two_pow_pos i) hless hmore

/-- What the fields of a pattern with a sign say. -/
theorem decode_fields (f : Format) (neg : Bool) {p : Nat} (hp : p < 2 ^ f.expBits * 2 ^ f.fracBits) :
    f.decode ((if neg then f.signBit else 0) + p) =
      if p / 2 ^ f.fracBits = 2 ^ f.expBits - 1 then
        if p % 2 ^ f.fracBits = 0 then .inf neg else .nan
      else .finite neg (f.significand p) (f.unitExp p) := by
  have hfrac : 0 < 2 ^ f.fracBits := Nat.two_pow_pos _
  have hsignBit : f.signBit = 2 ^ f.expBits * 2 ^ f.fracBits := by
    rw [← Nat.pow_add, Nat.add_comm]
    rfl
  have hsign : (((if neg then f.signBit else 0) + p) / f.signBit % 2 == 1) = neg := by
    rw [← hsignBit] at hp
    have hpos : 0 < f.signBit := by omega
    cases neg
    · rw [if_neg Bool.false_ne_true, Nat.zero_add, Nat.div_eq_of_lt hp]
      rfl
    · rw [if_pos rfl, Nat.add_div_left _ hpos, Nat.div_eq_of_lt hp]
      rfl
  have hexponent : ((if neg then f.signBit else 0) + p) / 2 ^ f.fracBits % 2 ^ f.expBits =
      p / 2 ^ f.fracBits := by
    have hless : p / 2 ^ f.fracBits < 2 ^ f.expBits := (Nat.div_lt_iff_lt_mul hfrac).mpr hp
    cases neg
    · rw [if_neg Bool.false_ne_true, Nat.zero_add, Nat.mod_eq_of_lt hless]
    · rw [if_pos rfl, hsignBit, Nat.add_comm, Nat.add_mul_div_right _ _ hfrac, Nat.add_mod_right,
        Nat.mod_eq_of_lt hless]
  have hfraction : ((if neg then f.signBit else 0) + p) % 2 ^ f.fracBits = p % 2 ^ f.fracBits := by
    cases neg
    · rw [if_neg Bool.false_ne_true, Nat.zero_add]
    · rw [if_pos rfl, hsignBit, Nat.add_comm, Nat.add_mul_mod_self_right]
  have hdecode (bits : Nat) : f.decode bits =
      if bits / 2 ^ f.fracBits % 2 ^ f.expBits == 2 ^ f.expBits - 1 then
        if bits % 2 ^ f.fracBits == 0 then .inf (bits / f.signBit % 2 == 1) else .nan
      else if bits / 2 ^ f.fracBits % 2 ^ f.expBits == 0 then
        .finite (bits / f.signBit % 2 == 1) (bits % 2 ^ f.fracBits) f.minExp
      else .finite (bits / f.signBit % 2 == 1) (2 ^ f.fracBits + bits % 2 ^ f.fracBits)
        (f.minExp + (bits / 2 ^ f.fracBits % 2 ^ f.expBits - 1 : Nat)) := rfl
  rw [hdecode, hsign, hexponent, hfraction]
  simp only [beq_iff_eq]
  by_cases hzero : p / 2 ^ f.fracBits = 0
  · have hsmall : p % 2 ^ f.fracBits = p := Nat.mod_eq_of_lt ((Nat.div_eq_zero_iff_lt hfrac).mp hzero)
    rw [if_pos hzero, significand, if_pos hzero, unitExp, hzero, hsmall]
    simp
  · rw [if_neg hzero, significand, if_neg hzero, unitExp]

theorem decode_signed (f : Format) (neg : Bool) {p : Nat} (hp : p < f.infinity) :
    f.decode (f.signed neg p) = .finite neg (f.significand p) (f.unitExp p) := by
  have hinfinity : f.infinity = (2 ^ f.expBits - 1) * 2 ^ f.fracBits := rfl
  have hless : p / 2 ^ f.fracBits < 2 ^ f.expBits - 1 :=
    (Nat.div_lt_iff_lt_mul (Nat.two_pow_pos _)).mpr (hinfinity ▸ hp)
  have hbound : p < 2 ^ f.expBits * 2 ^ f.fracBits :=
    lt_of_lt_of_le (hinfinity ▸ hp) (Nat.mul_le_mul_right _ (Nat.sub_le _ _))
  rw [signed, Nat.min_eq_right hp.le, decode_fields f neg hbound, if_neg hless.ne]

theorem decode_infinity (f : Format) (neg : Bool) {p : Nat} (hp : f.infinity ≤ p) :
    f.decode (f.signed neg p) = .inf neg := by
  have hinfinity : f.infinity = (2 ^ f.expBits - 1) * 2 ^ f.fracBits := rfl
  have hfrac : 0 < 2 ^ f.fracBits := Nat.two_pow_pos _
  have hexp : 0 < 2 ^ f.expBits := Nat.two_pow_pos _
  have hbound : f.infinity < 2 ^ f.expBits * 2 ^ f.fracBits :=
    Nat.mul_lt_mul_of_pos_right (Nat.sub_lt hexp Nat.one_pos) hfrac
  rw [signed, Nat.min_eq_left hp, decode_fields f neg hbound, hinfinity, Nat.mul_div_cancel _ hfrac,
    if_pos rfl, Nat.mul_mod_left, if_pos rfl]

end Format

end ConsoleScript.Ieee
