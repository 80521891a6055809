import ConsoleScript.Interp

/-!
Sets of argument slots as bits of a word.
-/

namespace ConsoleScript.SlotSet

variable {a b : SlotSet} {i n : Nat}

private theorem toNat_single (hi : i < 32) : (single i).toNat = 1 <<< i := by
  have hpow : 1 <<< i < UInt32.size := by
    rw [Nat.shiftLeft_eq, Nat.one_mul]
    exact Nat.pow_lt_pow_right (by decide) hi
  have hshift : (UInt32.ofNat i).toNat = i := by
    rw [UInt32.toNat_ofNat']
    omega
  rw [single, if_pos hi, UInt32.toNat_shiftLeft, hshift, Nat.mod_eq_of_lt hi]
  exact Nat.mod_eq_of_lt hpow

private theorem testBit_single (hi : i < 32) (j : Nat) :
    (single i).toNat.testBit j = decide (i = j) := by
  rw [toNat_single hi, Nat.shiftLeft_eq, Nat.one_mul, Nat.testBit_two_pow]

theorem has_eq_testBit (a : SlotSet) (i : Nat) : a.has i = a.toNat.testBit i := by
  unfold has
  by_cases hi : i < 32
  · have hbit (j : Nat) :
        (a &&& single i).toNat.testBit j = (a.toNat.testBit j && decide (i = j)) := by
      rw [UInt32.toNat_and, Nat.testBit_and, testBit_single hi]
    cases h : a.toNat.testBit i
    · have hzero : a &&& single i = 0 := by
        refine UInt32.toNat_inj.mp (Nat.eq_of_testBit_eq fun j => ?_)
        rw [hbit, UInt32.toNat_zero, Nat.zero_testBit]
        by_cases hj : i = j
        · rw [← hj, h, Bool.false_and]
        · rw [decide_eq_false hj, Bool.and_false]
      simp [hzero]
    · have hne : a &&& single i ≠ 0 := by
        intro h0
        have := hbit i
        rw [h0, h] at this
        simp at this
      simp [hne]
  · have hbig : a.toNat < 2 ^ i :=
      Nat.lt_of_lt_of_le a.toNat_lt (Nat.pow_le_pow_right (by decide) (Nat.le_of_not_lt hi))
    rw [Nat.testBit_lt_two_pow hbig]
    simp [single, hi]

theorem has_or (a b : SlotSet) (i : Nat) : has (a ||| b) i = (has a i || has b i) := by
  simp only [has_eq_testBit, UInt32.toNat_or, Nat.testBit_or]

theorem has_single (hn : n < 32) (i : Nat) : (single n).has i = decide (i = n) := by
  rw [has_eq_testBit, testBit_single hn]
  exact decide_eq_decide.mpr eq_comm

theorem has_below (hn : n < 32) (i : Nat) : (below n).has i = decide (i < n) := by
  have hle : (1 : UInt32) ≤ single n := by
    rw [UInt32.le_iff_toNat_le, toNat_single hn, Nat.shiftLeft_eq, Nat.one_mul]
    exact Nat.two_pow_pos n
  rw [has_eq_testBit, below, UInt32.toNat_sub_of_le _ _ hle, toNat_single hn, Nat.shiftLeft_eq,
    Nat.one_mul]
  exact Nat.testBit_two_pow_sub_one n i

theorem has_of_le (a : SlotSet) (hi : 32 ≤ i) : a.has i = false := by
  have hbig : a.toNat < 2 ^ i :=
    Nat.lt_of_lt_of_le a.toNat_lt (Nat.pow_le_pow_right (by decide) hi)
  rw [has_eq_testBit, Nat.testBit_lt_two_pow hbig]

theorem has_below_of_lt (n : Nat) (hi : i < 32) : (below n).has i = decide (i < n) := by
  by_cases hn : n < 32
  · exact has_below hn i
  · have hall : (below n).toNat = 2 ^ 32 - 1 := by
      unfold below single
      rw [if_neg hn]
      rfl
    rw [has_eq_testBit, hall, Nat.testBit_two_pow_sub_one]
    exact decide_eq_decide.mpr ⟨fun _ => by omega, fun _ => hi⟩

theorem has_single_iff (n i : Nat) : (single n).has i = decide (n < 32 ∧ i = n) := by
  by_cases hn : n < 32
  · rw [has_single hn]
    simp [hn]
  · unfold single
    rw [if_neg hn, decide_eq_false fun h => hn h.1]
    simp [has]

theorem has_diff (a b : SlotSet) (i : Nat) : has (a &&& ~~~b) i = (has a i && !has b i) := by
  simp only [has_eq_testBit]
  rw [← UInt32.toNat_toBitVec, ← UInt32.toNat_toBitVec, ← UInt32.toNat_toBitVec,
    BitVec.testBit_toNat, BitVec.testBit_toNat, BitVec.testBit_toNat, UInt32.toBitVec_and,
    UInt32.toBitVec_not, BitVec.getLsbD_and, BitVec.getLsbD_not]
  by_cases hi : i < 32
  · simp [hi]
  · have hnone : a.toBitVec.getLsbD i = false := BitVec.getLsbD_of_ge _ _ (Nat.le_of_not_lt hi)
    simp [hnone]

theorem ext (h : ∀ i, a.has i = b.has i) : a = b := by
  apply UInt32.toNat_inj.mp
  apply Nat.eq_of_testBit_eq
  intro i
  rw [← has_eq_testBit, ← has_eq_testBit]
  exact h i

theorem mem_toList : i ∈ a.toList ↔ i < maxArgs ∧ a.has i = true := by
  simp [toList]

theorem nodup_toList (a : SlotSet) : a.toList.Nodup :=
  List.Pairwise.filter _ List.nodup_range

theorem has_outerMark (i : Nat) : outerMark.has i = decide (i = maxArgs) :=
  has_single (by decide) i

theorem has_all (i : Nat) : all.has i = decide (i < maxArgs) := has_below (by decide) i

end ConsoleScript.SlotSet
