import Mathlib.Data.Int.Bitwise
import Mathlib.Tactic.Ring
import ConsoleScript.Library.Arithmetic

/-!
The operators of the library on integers without bounds. An operator on words is the one on the
integers that they stand for, wrapped to a word: sums, differences and products as such, quotients
cut off towards zero, bits in two's complement, and shifts as multiplications and divisions by powers
of two. A fold wraps after each step, and a chain of comparisons compares the integers.
-/

namespace ConsoleScript

/-- An integer wrapped to a word, as the integer that the word stands for. -/
def wrapped (z : Int) : Int := z.bmod (2 ^ 32)

theorem toInt_ofInt (z : Int) : (Int32.ofInt z).toInt = wrapped z := Int32.toInt_ofInt

namespace IntOp

/-- The operator on two integers. What is shifted by less than nothing stays; a shift to the left
by a whole word or more leaves nothing, one to the right at most the sign. -/
def onInts : IntOp → Int → Int → Int
  | .add, a, b => a + b
  | .mul, a, b => a * b
  | .sub, a, b => a - b
  | .xor, a, b => a.xor b
  | .and, a, b => a.land b
  | .or, a, b => a.lor b
  | .xorNot, a, b => a.xor b.lnot
  | .andNot, a, b => a.land b.lnot
  | .orNot, a, b => a.lor b.lnot
  | .shiftLeft, a, b => if 32 ≤ b then 0 else a * 2 ^ b.toNat
  | .shiftRight, a, b => a / 2 ^ min b.toNat 31
  | .div, a, b => if b = 0 then 0 else a.tdiv b
  | .mod, a, b => if b = 0 then 0 else a.tmod b

/-- The operator on one integer: the negative for a difference, and the complement for an exclusive
disjunction. -/
def unaryOnInts : IntOp → Int → Int
  | .sub, a => -a
  | .xor, a => a.lnot
  | _, a => a

/-- The operator on any number of integers, where something stands for none. Each step is wrapped. -/
def foldOnInts (op : IntOp) (none : Int) : List Int → Int
  | [] => none
  | [a] => wrapped (op.unaryOnInts a)
  | a :: rest => rest.foldl (fun z b => wrapped (op.onInts z b)) a

end IntOp

section Words

theorem getLsbD_ofInt (z : Int) {i : Nat} (hi : i < 32) :
    (BitVec.ofInt 32 z).getLsbD i = z.testBit i := by
  cases z with
  | ofNat n =>
      rw [Int.ofNat_eq_natCast, BitVec.ofInt_natCast, BitVec.getLsbD_ofNat]
      simp [hi, Int.testBit]
  | negSucc n =>
      rw [BitVec.ofInt_negSucc_eq_not_ofNat, BitVec.getLsbD_not, BitVec.getLsbD_ofNat]
      simp [hi, Int.testBit]

theorem eq_ofInt_of_testBit {v : Int32} {z : Int}
    (h : ∀ i < 32, v.toBitVec.getLsbD i = z.testBit i) : v = Int32.ofInt z := by
  refine Int32.toBitVec.inj (BitVec.eq_of_getLsbD_eq fun i hi => ?_)
  exact (h i hi).trans (getLsbD_ofInt z hi).symm

theorem testBit_toInt (v : Int32) {i : Nat} (hi : i < 32) :
    v.toInt.testBit i = v.toBitVec.getLsbD i := by
  have hword : BitVec.ofInt 32 v.toInt = v.toBitVec := BitVec.ofInt_toInt
  rw [← hword, getLsbD_ofInt _ hi]

variable (a b : Int32)

private theorem xor_eq_ofInt : a ^^^ b = Int32.ofInt (a.toInt.xor b.toInt) := by
  refine eq_ofInt_of_testBit fun i hi => ?_
  rw [Int.testBit_lxor, testBit_toInt a hi, testBit_toInt b hi, Int32.toBitVec_xor,
    BitVec.getLsbD_xor]

private theorem and_eq_ofInt : a &&& b = Int32.ofInt (a.toInt.land b.toInt) := by
  refine eq_ofInt_of_testBit fun i hi => ?_
  rw [Int.testBit_land, testBit_toInt a hi, testBit_toInt b hi, Int32.toBitVec_and,
    BitVec.getLsbD_and]

private theorem or_eq_ofInt : a ||| b = Int32.ofInt (a.toInt.lor b.toInt) := by
  refine eq_ofInt_of_testBit fun i hi => ?_
  rw [Int.testBit_lor, testBit_toInt a hi, testBit_toInt b hi, Int32.toBitVec_or,
    BitVec.getLsbD_or]

/-- The complement of a word stands for the complement of its integer. -/
theorem toInt_complement : (~~~a).toInt = a.toInt.lnot := by
  have hlnot : a.toInt.lnot = -a.toInt - 1 := by
    cases a.toInt with
    | ofNat n =>
        rw [Int.lnot, Int.negSucc_eq, Int.ofNat_eq_natCast]
        ring
    | negSucc n =>
        rw [Int.lnot, Int.negSucc_eq]
        ring
  rw [hlnot, Int32.toInt_not, Int.bmod_eq_of_le]
  all_goals
    have := Int32.le_toInt a
    have := Int32.toInt_lt a
    omega

theorem toNat_smod_bits {b : Int32} (hlo : 0 ≤ b.toInt) (hhi : b.toInt < 32) :
    (b.toBitVec.smod 32#32).toNat = b.toInt.toNat := by
  have hb : (b.toBitVec.smod 32#32).toInt = b.toInt := by
    rw [BitVec.toInt_smod]
    change b.toInt.fmod 32 = b.toInt
    rw [Int.fmod_eq_emod_of_nonneg _ (by decide), Int.emod_eq_of_lt hlo hhi]
  have hpos : 2 * (b.toBitVec.smod 32#32).toNat < 2 ^ 32 := by
    by_contra hneg
    rw [BitVec.toInt_eq_toNat_cond, if_neg hneg] at hb
    have := (b.toBitVec.smod 32#32).isLt
    omega
  rw [← hb, BitVec.toInt_eq_toNat_of_lt hpos, Int.toNat_natCast]

private theorem toInt_max (a b : Int32) : (max a b).toInt = max a.toInt b.toInt := by
  have hmax : max a b = if a ≤ b then b else a := rfl
  rw [hmax, max_def, apply_ite Int32.toInt]
  simp only [Int32.le_iff_toInt_le]

private theorem toInt_min (a b : Int32) : (min a b).toInt = min a.toInt b.toInt := by
  have hmin : min a b = if a ≤ b then a else b := rfl
  rw [hmin, min_def, apply_ite Int32.toInt]
  simp only [Int32.le_iff_toInt_le]

private theorem shiftLeft_eq_ofInt {b : Int32} (hlo : 0 ≤ b.toInt) (hhi : b.toInt < 32) :
    a <<< b = Int32.ofInt (a.toInt * 2 ^ b.toInt.toNat) := by
  have hbits : a.toInt = (a.toBitVec.toNat : Int).bmod (2 ^ 32) := BitVec.toInt_eq_toNat_bmod _
  have hshift : (a <<< b).toInt = ((a.toBitVec.toNat <<< b.toInt.toNat : Nat) : Int).bmod (2 ^ 32) := by
    rw [← Int32.toInt_toBitVec, Int32.toBitVec_shiftLeft]
    change (a.toBitVec <<< (b.toBitVec.smod 32#32)).toInt = _
    rw [BitVec.shiftLeft_eq', toNat_smod_bits hlo hhi]
    exact BitVec.toInt_shiftLeft
  refine Int32.toInt_inj.mp ?_
  rw [hshift, toInt_ofInt, wrapped, hbits, Int.bmod_mul_bmod, Nat.shiftLeft_eq]
  push_cast
  rfl

private theorem shiftRight_eq_ofInt {b : Int32} (hlo : 0 ≤ b.toInt) (hhi : b.toInt < 32) :
    a >>> b = Int32.ofInt (a.toInt / 2 ^ b.toInt.toNat) := by
  refine Int32.toInt_inj.mp ?_
  have hshift : (a >>> b).toInt = a.toInt / 2 ^ b.toInt.toNat := by
    rw [← Int32.toInt_toBitVec, Int32.toBitVec_shiftRight]
    change (a.toBitVec.sshiftRight' (b.toBitVec.smod 32#32)).toInt = _
    rw [BitVec.toInt_sshiftRight', toNat_smod_bits hlo hhi, Int.shiftRight_eq_div_pow]
    norm_cast
  rw [← hshift, Int32.ofInt_toInt]

end Words

/-- An operator on words is the one on integers, wrapped. -/
theorem IntOp.apply_eq_ofInt (op : IntOp) (a b : Int32) :
    op.apply a b = Int32.ofInt (op.onInts a.toInt b.toInt) := by
  have hzero : (0 : Int32) = Int32.ofInt 0 := rfl
  cases op with
  | add => exact (by simp [apply, onInts])
  | mul => exact (by simp [apply, onInts])
  | sub => exact (by simp [apply, onInts])
  | xor => exact xor_eq_ofInt a b
  | and => exact and_eq_ofInt a b
  | or => exact or_eq_ofInt a b
  | xorNot => exact (xor_eq_ofInt a (~~~b)).trans (by rw [toInt_complement, onInts])
  | andNot => exact (and_eq_ofInt a (~~~b)).trans (by rw [toInt_complement, onInts])
  | orNot => exact (or_eq_ofInt a (~~~b)).trans (by rw [toInt_complement, onInts])
  | shiftLeft =>
      have hcount : (max b 0).toInt = max b.toInt 0 := toInt_max b 0
      have hle : (32 : Int32) ≤ b ↔ 32 ≤ b.toInt := Int32.le_iff_toInt_le
      rw [apply, onInts]
      by_cases h : 32 ≤ b.toInt
      · rw [if_pos h, if_pos (hle.mpr h), hzero]
      · rw [if_neg h, if_neg (mt hle.mp h), shiftLeft_eq_ofInt a (by omega) (by omega), hcount]
        congr 3
        omega
  | shiftRight =>
      have hcount : (min (max b 0) 31).toInt = min (max b.toInt 0) 31 :=
        (toInt_min ..).trans (congrArg (min · 31) (toInt_max b 0))
      rw [apply, onInts, shiftRight_eq_ofInt a (by omega) (by omega), hcount]
      congr 3
      omega
  | div =>
      have hb : (b == 0) = true ↔ b.toInt = 0 := by rw [beq_iff_eq, ← Int32.toInt_inj]; rfl
      rw [apply, onInts]
      by_cases h : b.toInt = 0
      · rw [if_pos h, if_pos (hb.mpr h), hzero]
      · rw [if_neg h, if_neg (mt hb.mp h), ← Int32.toInt_inj, Int32.toInt_div, toInt_ofInt, wrapped]
  | mod =>
      have hb : (b == 0) = true ↔ b.toInt = 0 := by rw [beq_iff_eq, ← Int32.toInt_inj]; rfl
      rw [apply, onInts]
      by_cases h : b.toInt = 0
      · rw [if_pos h, if_pos (hb.mpr h), hzero]
      · rw [if_neg h, if_neg (mt hb.mp h), ← Int32.toInt_mod, Int32.ofInt_toInt]

theorem IntOp.unary_eq_ofInt (op : IntOp) (a : Int32) :
    op.unary a = Int32.ofInt (op.unaryOnInts a.toInt) := by
  cases op with
  | sub => exact (by simp [unary, unaryOnInts])
  | xor => exact (by rw [unary, unaryOnInts, ← toInt_complement, Int32.ofInt_toInt])
  | _ => exact (Int32.ofInt_toInt a).symm

/-- A fold of words is the fold of their integers that wraps at each step; where there are none, it
is the operator on its unit. -/
theorem IntOp.toInt_fold (op : IntOp) (vs : List Int32) :
    (op.fold vs).toInt = op.foldOnInts (op.unary op.unit).toInt (vs.map Int32.toInt) := by
  match vs with
  | [] => rfl
  | [a] => exact (congrArg Int32.toInt (op.unary_eq_ofInt a)).trans (toInt_ofInt _)
  | a :: b :: rest =>
      have hsteps (vs : List Int32) : (vs.foldl op.apply a).toInt =
          (vs.map Int32.toInt).foldl (fun z b => wrapped (op.onInts z b)) a.toInt := by
        induction vs generalizing a with
        | nil => rfl
        | cons b vs ih =>
            rw [List.foldl_cons, ih, List.map_cons, List.foldl_cons, op.apply_eq_ofInt, toInt_ofInt]
      exact hsteps (b :: rest)

namespace Relation

/-- The relation between integers. -/
def Holds : Relation → Int → Int → Prop
  | .eq, a, b => a = b
  | .ne, a, b => a ≠ b
  | .lt, a, b => a < b
  | .gt, a, b => a > b
  | .le, a, b => a ≤ b
  | .ge, a, b => a ≥ b

private theorem onInts_iff (r : Relation) (a b : Int32) :
    r.onInts a b = true ↔ r.Holds a.toInt b.toInt := by
  cases r with
  | eq => exact beq_iff_eq.trans Int32.toInt_inj.symm
  | ne => exact bne_iff_ne.trans (not_congr Int32.toInt_inj.symm)
  | lt | gt => exact decide_eq_true_iff.trans Int32.lt_iff_toInt_lt
  | le | ge => exact decide_eq_true_iff.trans Int32.le_iff_toInt_le

theorem chain_iff (r : Relation) (a b : Int32) (rest : List Int32) :
    chain r.onInts 0 (a :: b :: rest) = true ↔
      ((a :: b :: rest).map Int32.toInt).IsChain r.Holds := by
  have hzip (vs : List Int32) (a : Int32) :
      (List.zip (a :: vs) vs).all (fun (a, b) => r.onInts a b) = true ↔
        ((a :: vs).map Int32.toInt).IsChain r.Holds := by
    induction vs generalizing a with
    | nil => simp
    | cons b vs ih =>
        rw [List.zip_cons_cons, List.all_cons, Bool.and_eq_true, ih, onInts_iff]
        simp only [List.map_cons, List.isChain_cons_cons]
  exact hzip (b :: rest) a

end Relation

end ConsoleScript
