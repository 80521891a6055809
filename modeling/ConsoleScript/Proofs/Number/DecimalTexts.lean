import ConsoleScript.Proofs.Number.Numerals
import ConsoleScript.Proofs.Number.Rounding
import Mathlib

/-!
Floats in decimal. A numeral of digits, with or without a point and an exponent, is read as the float
that is nearest to what the nearest double is. What is printed for a float that is no integer of a word
is such a numeral, of the nearest value with seven digits.
-/

namespace ConsoleScript

open Ieee

/-- A numeral in decimal: digits with or without a point among them, and an exponent or none. -/
structure DecimalText where
  neg : Bool := false
  whole : Bytes
  fraction : Option Bytes := none
  exponent : Option Int := none

namespace DecimalText

def digits (n : DecimalText) : Bytes := n.whole ++ n.fraction.getD []

/-- The power of ten that the digits as a whole number are scaled by. -/
def scale (n : DecimalText) : Int := n.exponent.getD 0 - (n.fraction.getD []).length

/-- The numeral without its sign. -/
def body (n : DecimalText) : Bytes :=
  n.whole ++ (n.fraction.elim [] (code '.' :: ·) ++ n.exponent.elim [] Decimal.exponentText)

def text (n : DecimalText) : Bytes := Printing.signed n.neg n.body

/-- There are digits, and nothing else is a digit. -/
structure IsPlain (n : DecimalText) : Prop where
  nonempty : n.digits ≠ []
  digits : ∀ c ∈ n.digits, Byte.isDigit c = true

/-- The value of the numeral without its sign. -/
def magnitude (n : DecimalText) : ℚ := Numeral.natOf 10 n.digits * 10 ^ n.scale

end DecimalText

section Reading

open Reading

variable {s t : Bytes} {c : UInt8}

theorem Byte.ne_of_isDigit {d : UInt8} (hc : Byte.isDigit c = true) (hd : Byte.isDigit d = false) :
    (c == d) = false := by
  refine beq_eq_false_iff_ne.mpr ?_
  rintro rfl
  rw [hc] at hd
  cases hd

/-- Digits in front are what is taken of a text that goes on otherwise. -/
theorem takeWhile_isDigit (hs : ∀ c ∈ s, Byte.isDigit c = true)
    (ht : ∀ c ∈ t.head?, Byte.isDigit c = false) : (s ++ t).takeWhile Byte.isDigit = s := by
  rw [List.takeWhile_append_of_pos hs]
  cases t with
  | nil => exact List.append_nil s
  | cons d t =>
      rw [List.takeWhile_cons_of_neg (Bool.eq_false_iff.mp (ht d rfl)), List.append_nil]

theorem Byte.isDigit_iff : Byte.isDigit c = true ↔ ∃ d < 10, Byte.digitValue? c = some d := by
  have hless : c.toNat < 256 := c.toNat_lt
  simp only [Byte.isDigit, Byte.digitValue?, Bool.and_eq_true, decide_eq_true_eq,
    UInt8.le_iff_toNat_le]
  constructor
  · intro h
    rw [if_pos h]
    exact ⟨_, by simp at h; omega, rfl⟩
  · rintro ⟨d, hd, hv⟩
    split at hv
    next h => exact h
    next =>
      split at hv
      next => cases hv; omega
      next =>
        split at hv
        next => cases hv; omega
        next => cases hv

theorem Numeral.digits_iff : Numeral.Digits 10 s ↔ ∀ c ∈ s, Byte.isDigit c = true :=
  forall₂_congr fun _ _ => Byte.isDigit_iff.symm

theorem Bytes.digits_ofNat (n : Nat) : Numeral.Digits 10 (Bytes.ofNat n) :=
  Bytes.digits_digitsAux (by decide) (by decide) _ _ nofun

theorem Bytes.natOf_ofNat (n : Nat) : Numeral.natOf 10 (Bytes.ofNat n) = n :=
  Bytes.valueFrom_digitsAux (by decide) (by decide) _ _ _ (Nat.lt_succ_self n)

theorem Bytes.ofNat_ne_nil (n : Nat) : Bytes.ofNat n ≠ [] := by
  rcases Nat.eq_zero_or_pos n with rfl | hn
  · decide
  · obtain ⟨d, rest, -, -, heq, -⟩ := Bytes.ofNat_spec hn
    rw [heq]
    exact List.cons_ne_nil _ _

/-- The exponent is read. -/
theorem exponentOf_exponentText (e : Int) :
    exponentOf (code 'e') (Decimal.exponentText e) = (e, (Decimal.exponentText e).length) := by
  obtain ⟨ds, hds⟩ : ∃ ds, ds = Bytes.padLeft 0x30 2 (Bytes.ofNat e.natAbs) := ⟨_, rfl⟩
  obtain ⟨sign, hsign⟩ : ∃ c, c = if e < 0 then code '-' else code '+' := ⟨_, rfl⟩
  have htext : Decimal.exponentText e = code 'e' :: sign :: ds := by
    rw [Decimal.exponentText, hds, hsign]
    rfl
  have hdigits : ds.takeWhile Byte.isDigit = ds :=
    List.takeWhile_eq_self_iff.mpr
      (hds ▸ Numeral.digits_iff.mp ((Bytes.digits_ofNat _).padLeft (by decide) 2))
  have hne : ds.isEmpty = false := by
    rw [hds, List.isEmpty_eq_false_iff]
    exact List.append_ne_nil_of_right_ne_nil _ (Bytes.ofNat_ne_nil _)
  have hvalue : Numeral.natOf 10 ds = e.natAbs := by
    rw [hds]
    exact (Numeral.valueFrom_padLeft 10 2 _).trans (Bytes.natOf_ofNat _)
  have hsigned : signOf (sign :: ds) = (decide (e < 0), 1) := by
    rw [hsign]
    by_cases h : e < 0
    · rw [if_pos h, decide_eq_true h]
      rfl
    · rw [if_neg h, decide_eq_false h]
      rfl
  rw [htext]
  unfold exponentOf
  dsimp only
  rw [if_pos (by decide), hsigned]
  dsimp only
  rw [List.drop_one, List.tail_cons, hdigits, hne, if_neg Bool.false_ne_true, hvalue]
  refine Prod.ext ?_ (by simp only [List.length_cons]; omega)
  dsimp only
  split
  next h => have := of_decide_eq_true h; omega
  next h => have := of_decide_eq_false (Bool.eq_false_iff.mpr h); omega

private theorem head_exponentText {e : Option Int} :
    ∀ c ∈ (e.elim [] Decimal.exponentText).head?, c = code 'e' := by
  cases e with
  | none => exact nofun
  | some e =>
      intro c hc
      exact (Option.some.inj hc).symm

private theorem mantissaOf_body {n : DecimalText} (hn : n.IsPlain) :
    ∃ taken, mantissaOf Byte.isDigit n.body = (n.whole, n.fraction.getD [], taken) ∧
      n.body.drop taken = n.exponent.elim [] Decimal.exponentText ∧
      n.body.length = taken + (n.exponent.elim [] Decimal.exponentText).length := by
  obtain ⟨neg, whole, fraction, exponent⟩ := n
  obtain ⟨-, hdigits⟩ := hn
  obtain ⟨hwhole, hfraction⟩ : (∀ c ∈ whole, Byte.isDigit c = true) ∧
      ∀ c ∈ fraction.getD [], Byte.isDigit c = true := List.forall_mem_append.mp hdigits
  have hletter : ∀ c ∈ (exponent.elim [] Decimal.exponentText).head?, Byte.isDigit c = false :=
    fun c hc => head_exponentText c hc ▸ rfl
  cases fraction with
  | none =>
      obtain ⟨e, he⟩ : ∃ e, e = exponent.elim [] Decimal.exponentText := ⟨_, rfl⟩
      have hbody : DecimalText.body ⟨neg, whole, none, exponent⟩ = whole ++ e := by
        rw [he]
        rfl
      have hpoint : ∀ c ∈ e.head?, (c == code '.') = false :=
        fun c hc => head_exponentText c (he ▸ hc) ▸ rfl
      refine ⟨whole.length, ?_, by rw [hbody, List.drop_left, he], by
        rw [hbody, List.length_append, he]⟩
      rw [hbody, mantissaOf, takeWhile_isDigit hwhole (he ▸ hletter)]
      dsimp only
      rw [List.drop_left]
      cases e with
      | nil => rfl
      | cons c e =>
          dsimp only
          rw [hpoint c rfl, if_neg Bool.false_ne_true]
          rfl
  | some fraction =>
      obtain ⟨e, he⟩ : ∃ e, e = exponent.elim [] Decimal.exponentText := ⟨_, rfl⟩
      have hbody : DecimalText.body ⟨neg, whole, some fraction, exponent⟩ =
          whole ++ code '.' :: (fraction ++ e) := by
        rw [he]
        rfl
      have htake : (fraction ++ e).takeWhile Byte.isDigit = fraction :=
        takeWhile_isDigit hfraction (he ▸ hletter)
      refine ⟨whole.length + 1 + fraction.length, ?_, ?_, ?_⟩
      · rw [hbody, mantissaOf, takeWhile_isDigit hwhole (by simp [Byte.isDigit, code])]
        dsimp only
        rw [List.drop_left]
        dsimp only
        rw [if_pos (by decide), htake]
        rfl
      · have hsplit : whole ++ code '.' :: (fraction ++ e) = (whole ++ code '.' :: fraction) ++ e := by
          simp
        rw [hbody, hsplit, ← he]
        exact List.drop_left' (by rw [List.length_append, List.length_cons]; omega)
      · rw [hbody, ← he]
        simp only [List.length_append, List.length_cons]
        omega

/-- What there is in a numeral without its sign. -/
theorem DecimalText.IsPlain.body {n : DecimalText} (hn : n.IsPlain) :
    ∃ c rest, n.body = c :: rest ∧ (Byte.isDigit c = true ∨ c = code '.') ∧
      ∀ d ∈ rest, Byte.isDigit d = true ∨ d ∈ utf8 ".e+-" := by
  obtain ⟨neg, whole, fraction, exponent⟩ := n
  obtain ⟨hne, hdigits⟩ := hn
  obtain ⟨hwhole, hfraction⟩ : (∀ c ∈ whole, Byte.isDigit c = true) ∧
      ∀ c ∈ fraction.getD [], Byte.isDigit c = true := List.forall_mem_append.mp hdigits
  have hexponent : ∀ d ∈ exponent.elim [] Decimal.exponentText,
      Byte.isDigit d = true ∨ d ∈ utf8 ".e+-" := by
    cases exponent with
    | none => exact nofun
    | some e =>
        intro d hd
        rcases List.mem_append.mp hd with hd | hd
        · right
          simp only [List.mem_cons, List.not_mem_nil, or_false] at hd
          rcases hd with rfl | rfl
          · decide
          · split <;> decide
        · exact .inl (Numeral.digits_iff.mp ((Bytes.digits_ofNat _).padLeft (by decide) 2) d hd)
  have hpoint : ∀ d ∈ fraction.elim [] (code '.' :: ·), Byte.isDigit d = true ∨ d ∈ utf8 ".e+-" := by
    cases fraction with
    | none => exact nofun
    | some fraction =>
        refine List.forall_mem_cons.mpr ⟨.inr (by decide), fun d hd => .inl (hfraction d hd)⟩
  have hall : ∀ d ∈ DecimalText.body ⟨neg, whole, fraction, exponent⟩,
      Byte.isDigit d = true ∨ d ∈ utf8 ".e+-" := by
    intro d hd
    rcases List.mem_append.mp hd with hd | hd
    · exact .inl (hwhole d hd)
    · exact (List.mem_append.mp hd).elim (hpoint d) (hexponent d)
  cases whole with
  | cons c whole =>
      exact ⟨c, _, rfl, .inl (hwhole c List.mem_cons_self),
        fun d hd => hall d (List.mem_cons_of_mem c hd)⟩
  | nil =>
      cases fraction with
      | none => exact absurd rfl hne
      | some fraction =>
          exact ⟨code '.', _, rfl, .inr rfl, fun d hd => hall d (List.mem_cons_of_mem _ hd)⟩

/-- A numeral without its sign is read. -/
theorem unsignedDouble_body {n : DecimalText} (hn : n.IsPlain) (neg : Bool) :
    unsignedDouble neg n.body = some (ofDecimal neg n.digits n.scale, n.body.length) := by
  obtain ⟨taken, hmantissa, hrest, hlength⟩ := mantissaOf_body hn
  obtain ⟨c, rest, hbody, hc, hrest'⟩ := hn.body
  -- The words and the mark of hexadecimal numerals begin otherwise.
  have hword {w : UInt8} {word : Bytes} (hw : Byte.isDigit w = false ∧ Byte.toLower (code '.') ≠ w) :
      matchWord (w :: word) n.body = 0 := by
    have hlower : (Byte.toLower c == w) = false := by
      rcases hc with hc | rfl
      · have hsame : Byte.toLower c = c := by
          unfold Byte.toLower
          rw [if_neg]
          simp only [Byte.isDigit, Byte.isUpper, Bool.and_eq_true, decide_eq_true_eq,
            UInt8.le_iff_toNat_le] at hc ⊢
          intro h
          simp at hc h
          omega
        rw [hsame]
        exact Byte.ne_of_isDigit hc hw.1
      · exact beq_eq_false_iff_ne.mpr hw.2
    rw [hbody, matchWord, hlower, if_neg Bool.false_ne_true]
  have hinfinity : matchWord (utf8 "infinity") n.body = 0 := hword (by decide)
  have hnan : matchWord (utf8 "nan") n.body = 0 := hword (by decide)
  have hexponent : exponentOf (code 'e') (n.exponent.elim [] Decimal.exponentText) =
      (n.exponent.getD 0, (n.exponent.elim [] Decimal.exponentText).length) := by
    cases n.exponent with
    | none => rfl
    | some e => exact exponentOf_exponentText e
  have hsome : (n.whole.isEmpty && (n.fraction.getD []).isEmpty) = false := by
    have hne := hn.nonempty
    rw [DecimalText.digits, ne_eq, List.append_eq_nil_iff] at hne
    simpa [← Bool.not_eq_true] using hne
  unfold unsignedDouble
  dsimp only
  rw [hinfinity, hnan, if_neg (by decide), if_neg (by decide), if_neg (by decide), hmantissa]
  dsimp only
  rw [hsome, if_neg Bool.false_ne_true, hrest, hexponent, hlength, hbody]
  split
  next x t heq =>
    obtain ⟨-, rfl⟩ := List.cons.inj heq
    have hx : ¬(x == code 'x' || x == code 'X') = true := by
      intro h
      have hx : x = code 'x' ∨ x = code 'X' := by simpa using h
      rcases hrest' x List.mem_cons_self with hdigit | hmem
      · rcases hx with rfl | rfl <;> cases hdigit
      · rcases hx with rfl | rfl <;> revert hmem <;> decide
    rw [if_neg hx]
    rfl
  next => rfl

/-- A numeral is read as the double that is nearest to its digits, scaled. -/
theorem number_text {n : DecimalText} (hn : n.IsPlain) :
    number n.text = ofDecimal n.neg n.digits n.scale := by
  obtain ⟨c, rest, hbody, hc, -⟩ := hn.body
  have hunsigned := unsignedDouble_body hn n.neg
  obtain ⟨hspace, hminus, hplus⟩ : Byte.isSpace c = false ∧ (c == code '-') = false ∧
      (c == code '+') = false := by
    rcases hc with hc | rfl
    · refine ⟨?_, Byte.ne_of_isDigit hc rfl, Byte.ne_of_isDigit hc rfl⟩
      simp only [Byte.isDigit, Byte.isSpace, Bool.and_eq_true, decide_eq_true_eq, Bool.or_eq_false_iff,
        UInt8.le_iff_toNat_le, beq_eq_false_iff_ne, Bool.and_eq_false_iff, decide_eq_false_iff_not] at hc ⊢
      refine ⟨?_, ?_⟩
      · rintro rfl
        simp at hc
      · simp at hc ⊢
        omega
    · decide
  have hdouble : Reading.double n.text = (ofDecimal n.neg n.digits n.scale, n.text.length) := by
    unfold Reading.double DecimalText.text
    dsimp only
    cases hneg : n.neg with
    | false =>
        rw [hneg] at hunsigned
        rw [Printing.signed, if_neg Bool.false_ne_true]
        have hblanks : n.body.dropWhile Byte.isSpace = n.body := by
          rw [hbody, List.dropWhile_cons_of_neg (Bool.eq_false_iff.mp hspace)]
        have hsign : signOf n.body = (false, 0) := by
          rw [hbody, signOf, hminus, hplus]
          rfl
        rw [hblanks, hsign]
        dsimp only
        rw [List.drop_zero, hunsigned, Nat.sub_self]
        simp
    | true =>
        rw [hneg] at hunsigned
        rw [Printing.signed, if_pos rfl]
        have hsign : signOf (code '-' :: n.body) = (true, 1) := rfl
        rw [List.dropWhile_cons_of_neg (by decide), hsign]
        dsimp only
        rw [List.drop_one, List.tail_cons, hunsigned, Nat.sub_self]
        simp [Nat.add_comm]
  have hend : Bytes.byteAt n.text n.text.length = 0 := by
    rw [Bytes.byteAt, List.getD_eq_getElem?_getD, List.getElem?_eq_none le_rfl]
    rfl
  unfold number
  rw [hdouble]
  dsimp only
  rw [hend, if_pos (by simp [code])]

end Reading

section Patterns

open Float.Model.UnpackedFloat

/-- The pattern that a float is made of is its own, but for the patterns of not-a-number. -/
theorem toBits_ofBits {b : UInt64} (h : b.toNat / 2 ^ 52 % 2 ^ 11 = 2047 → b.toNat % 2 ^ 52 = 0) :
    (Float.ofBits b).toBits = b := by
  have hexponent : (@unpackExponent .binary64 b.toBitVec).toNat = b.toNat / 2 ^ 52 % 2 ^ 11 := by
    rw [unpackExponent_def, BitVec.extractLsb'_toNat, Nat.shiftRight_eq_div_pow]
    rfl
  have hmantissa : (@unpackMantissa .binary64 b.toBitVec).toNat = b.toNat % 2 ^ 52 := by
    rw [unpackMantissa_def, BitVec.extractLsb'_toNat]
    rfl
  have hnumber : ¬@isNaNBits .binary64 b.toBitVec = true := by
    rw [isNaNBits, decide_eq_true_iff]
    rintro ⟨hall, hnone⟩
    refine hnone (BitVec.eq_of_toNat_eq ?_)
    rw [hmantissa, h (hexponent.symm.trans (congrArg BitVec.toNat hall))]
    rfl
  exact congrArg UInt64.ofBitVec ((@pack_unpack .binary64 b.toBitVec (by decide)).trans (if_neg hnumber))

end Patterns

/-- The single-precision number of a pattern with a sign; from infinity on, infinity. -/
def Single.ofPattern (neg : Bool) (p : Nat) : Single := ⟨UInt32.ofNat (Ieee.single.signed neg p)⟩

/-- The pattern is read for a positive value: it is nearest to the double that is nearest. -/
def Reads (v : ℚ) (p : Nat) : Prop :=
  ∃ w, Ieee.double.IsNearest v w ∧ w < Ieee.double.infinity ∧
    Ieee.single.IsNearest (Ieee.double.valueOf w) p

namespace Reads

variable {v v' : ℚ} {p q : Nat}

theorem unique (h : Reads v p) (h' : Reads v q) : p = q := by
  obtain ⟨w, hw, -, hp⟩ := h
  obtain ⟨w', hw', -, hq⟩ := h'
  obtain rfl := hw.unique hw'
  exact hp.unique hq

theorem mono (h : Reads v p) (h' : Reads v' q) (hle : v ≤ v') : p ≤ q := by
  obtain ⟨w, hw, -, hp⟩ := h
  obtain ⟨w', hw', -, hq⟩ := h'
  exact hp.mono hq (Ieee.double.strictMono_valueOf.monotone (hw.mono hw' hle))

end Reads

theorem signed_lt (f : Format) (neg : Bool) (p : Nat) : f.signed neg p < 2 * f.signBit := by
  have hbound : f.infinity < f.signBit := by
    have hsign : f.signBit = 2 ^ f.expBits * 2 ^ f.fracBits := by
      rw [← Nat.pow_add, Nat.add_comm]
      rfl
    rw [hsign]
    exact Nat.mul_lt_mul_of_pos_right (Nat.sub_lt (Nat.two_pow_pos _) Nat.one_pos) (Nat.two_pow_pos _)
  unfold Format.signed
  split <;> omega

/-- A double of a pattern with a sign is rounded to the nearest single-precision number. -/
theorem ofFloat_signed (neg : Bool) (w : Nat) :
    ∃ p, Single.ofFloat (Reading.floatOfNat (Ieee.double.signed neg w)) = Single.ofPattern neg p ∧
      (w < Ieee.double.infinity → Ieee.single.IsNearest (Ieee.double.valueOf w) p) ∧
      (Ieee.double.infinity ≤ w → p = Ieee.single.infinity) := by
  have hless : Ieee.double.signed neg w < 2 ^ 64 := signed_lt Ieee.double neg w
  have hnat : (UInt64.ofNat (Ieee.double.signed neg w)).toNat = Ieee.double.signed neg w :=
    UInt64.toNat_ofNat_of_lt' hless
  have hbits : (Reading.floatOfNat (Ieee.double.signed neg w)).toBits =
      UInt64.ofNat (Ieee.double.signed neg w) := by
    refine toBits_ofBits ?_
    rw [hnat]
    have hsign : Ieee.double.signBit = 2 ^ 63 := by decide
    have hinfinity : Ieee.double.infinity = 2047 * 2 ^ 52 := by decide
    unfold Format.signed
    rw [hsign, hinfinity]
    split <;> omega
  unfold Single.ofFloat
  rw [hbits, hnat]
  rcases Nat.lt_or_ge w Ieee.double.infinity with hfinite | hinfinite
  · obtain ⟨p, hp, hround⟩ := Ieee.single.round_spec (by decide) neg (Ieee.double.significand w)
      (Ieee.double.unitExp w)
    refine ⟨p, ?_, fun _ => hp, fun h => absurd h (Nat.not_le_of_lt hfinite)⟩
    rw [Ieee.double.decode_signed neg hfinite]
    exact congrArg (fun n => (⟨UInt32.ofNat n⟩ : Single)) hround
  · refine ⟨_, ?_, fun h => absurd hinfinite (Nat.not_le_of_lt h), fun _ => rfl⟩
    rw [Ieee.double.decode_infinity neg hinfinite, Single.ofDatum, Single.ofPattern, Format.signed,
      Nat.min_self, Nat.add_comm]

section Values

variable {s t : Bytes}

theorem Numeral.natOf_append (s t : Bytes) :
    Numeral.natOf 10 (s ++ t) = Numeral.natOf 10 s * 10 ^ t.length + Numeral.natOf 10 t := by
  have hfrom (t : Bytes) (n : Nat) :
      Numeral.valueFrom 10 n t = n * 10 ^ t.length + Numeral.natOf 10 t := by
    induction t generalizing n with
    | nil => exact (Nat.mul_one n).symm
    | cons c t ih =>
        have hcons (n : Nat) : Numeral.valueFrom 10 n (c :: t) =
            Numeral.valueFrom 10 (n * 10 + (Byte.digitValue? c).getD 0) t := rfl
        have hzero : Numeral.natOf 10 (c :: t) = Numeral.valueFrom 10 0 (c :: t) := rfl
        rw [hcons, ih, hzero, hcons, ih, List.length_cons, Nat.pow_succ']
        ring
  exact (List.foldl_append ..).trans (hfrom t _)

theorem Numeral.natOf_zeros (n : Nat) : Numeral.natOf 10 (List.replicate n 0x30) = 0 := by
  induction n with
  | zero => rfl
  | succ n ih =>
      rw [List.replicate_succ', Numeral.natOf_append, ih]
      rfl

theorem Numeral.natOf_lt (hs : Numeral.Digits 10 s) : Numeral.natOf 10 s < 10 ^ s.length := by
  induction s using List.reverseRecOn with
  | nil => exact Nat.one_pos
  | append_singleton s c ih =>
      obtain ⟨d, hd, hc⟩ := hs c (List.mem_append_right _ List.mem_cons_self)
      have hlast : Numeral.natOf 10 [c] = d := by
        change 0 * 10 + (Byte.digitValue? c).getD 0 = d
        rw [hc, Nat.zero_mul, Nat.zero_add]
        rfl
      have hs := ih fun c hc => hs c (List.mem_append_left _ hc)
      rw [Numeral.natOf_append, hlast, List.length_append, List.length_singleton, Nat.pow_succ]
      omega

/-- Digits that do not begin with zero. -/
theorem Numeral.le_natOf {c : UInt8} (hs : Numeral.Digits 10 (c :: s)) (hc : c ≠ 0x30) :
    10 ^ s.length ≤ Numeral.natOf 10 (c :: s) := by
  obtain ⟨d, hd, hv⟩ := hs c List.mem_cons_self
  have hfirst : Numeral.natOf 10 [c] = d := by
    change 0 * 10 + (Byte.digitValue? c).getD 0 = d
    rw [hv, Nat.zero_mul, Nat.zero_add]
    rfl
  have hpos : 1 ≤ d := by
    refine Nat.one_le_iff_ne_zero.mpr ?_
    rintro rfl
    have hdigit := Byte.isDigit_iff.mpr ⟨0, hd, hv⟩
    rw [Byte.digitValue?, if_pos hdigit] at hv
    simp only [Byte.isDigit, Bool.and_eq_true, decide_eq_true_eq, UInt8.le_iff_toNat_le] at hdigit
    have hle : c.toNat ≤ 0x30 := Nat.sub_eq_zero_iff_le.mp (Option.some.inj hv)
    exact hc (UInt8.toNat_inj.mp (Nat.le_antisymm hle hdigit.1))
  rw [show c :: s = [c] ++ s from rfl, Numeral.natOf_append, hfirst]
  calc 10 ^ s.length = 1 * 10 ^ s.length := (Nat.one_mul _).symm
    _ ≤ d * 10 ^ s.length := Nat.mul_le_mul_right _ hpos
    _ ≤ _ := Nat.le_add_right _ _

theorem Numeral.natOf_dropWhile (s : Bytes) :
    Numeral.natOf 10 (s.dropWhile (· == 0x30)) = Numeral.natOf 10 s := by
  induction s with
  | nil => rfl
  | cons c s ih =>
      rw [List.dropWhile_cons]
      split
      next h =>
        rw [ih, beq_iff_eq.mp h]
        rfl
      next => rfl

theorem lt_infinity_of_lt {v : ℚ} {w : Nat} (hw : Ieee.double.IsNearest v w) (hv : v < 2 ^ 1023) :
    w < Ieee.double.infinity := by
  have hvalue : Ieee.double.valueOf (2046 * 2 ^ 52) = 2 ^ 1023 := by
    have hadd := @Format.valueOf_add Ieee.double 971 (2 ^ 52) (by decide)
      (.inr (by decide)) (by decide)
    have hpattern : ((971 - Ieee.double.minExp).toNat * 2 ^ Ieee.double.fracBits + 2 ^ 52) =
        2046 * 2 ^ 52 := by decide
    rw [hpattern] at hadd
    rw [hadd, show (971 : ℤ) = (971 : Nat) from rfl, zpow_natCast, Nat.cast_pow, Nat.cast_two, ← pow_add]
  have hle := hw.mono (Format.IsNearest.valueOf _ (2046 * 2 ^ 52)) (hvalue ▸ hv.le)
  exact Nat.lt_of_le_of_lt hle (by decide)

/-- Scaled digits are read as the nearest single-precision number of the nearest double, or they are
too small or too large for any but zero and infinity. -/
theorem ofDecimal_spec (neg : Bool) (hs : Numeral.Digits 10 s) (e : Int) :
    ∃ p, Single.ofFloat (Reading.ofDecimal neg s e) = Single.ofPattern neg p ∧
      (Reads (Numeral.natOf 10 s * 10 ^ e) p ∨
        (Numeral.natOf 10 s * 10 ^ e : ℚ) ≤ (10 : ℚ) ^ (-401 : ℤ) ∧ p = 0 ∨
        (2 : ℚ) ^ 1023 ≤ Numeral.natOf 10 s * 10 ^ e ∧ p = Ieee.single.infinity) := by
  obtain ⟨ds, hds⟩ : ∃ ds, ds = s.dropWhile (· == 0x30) := ⟨_, rfl⟩
  have hvalue : Numeral.natOf 10 s = Numeral.natOf 10 ds := by rw [hds, Numeral.natOf_dropWhile]
  have hdigits : Numeral.Digits 10 ds := fun c hc =>
    hs c ((List.dropWhile_suffix _).mem (hds ▸ hc))
  have hzero : ∃ p, Single.ofFloat (Reading.floatOfNat (if neg then Ieee.double.signBit else 0)) =
      Single.ofPattern neg p ∧ p = 0 := by
    obtain ⟨p, hp, hnear, -⟩ := ofFloat_signed neg 0
    refine ⟨p, hp, ?_⟩
    have hnear := hnear (by decide)
    rw [Format.valueOf_zero, ← Ieee.single.valueOf_zero] at hnear
    exact hnear.unique (Format.IsNearest.valueOf _ 0)
  unfold Reading.ofDecimal
  dsimp only
  rw [← hds, hvalue]
  rcases ds with - | ⟨c, rest⟩
  · obtain ⟨p, hp, rfl⟩ := hzero
    refine ⟨0, ?_, .inr (.inl ⟨?_, rfl⟩)⟩
    · rw [if_pos (by rfl)]
      exact hp
    · rw [show Numeral.natOf 10 [] = 0 from rfl, Nat.cast_zero, zero_mul]
      positivity
  have hc : c ≠ 0x30 := by
    have hhead := List.head_dropWhile_not (p := (· == 0x30)) (l := s) (hds ▸ List.cons_ne_nil c rest)
    simp only [← hds, List.head_cons] at hhead
    exact beq_eq_false_iff_ne.mp hhead
  have hlow := Numeral.le_natOf hdigits hc
  have hhigh := Numeral.natOf_lt hdigits
  have hten : (0 : ℚ) < 10 ^ e := by positivity
  have hlow' : (10 : ℚ) ^ (e + rest.length) ≤ Numeral.natOf 10 (c :: rest) * 10 ^ e := by
    rw [zpow_add₀ (by norm_num), zpow_natCast, mul_comm]
    exact mul_le_mul_of_nonneg_right (by exact_mod_cast hlow) hten.le
  have hhigh' : (Numeral.natOf 10 (c :: rest) * 10 ^ e : ℚ) < 10 ^ (e + (c :: rest).length) := by
    rw [zpow_add₀ (by norm_num), zpow_natCast, mul_comm]
    exact mul_lt_mul_of_pos_left (by exact_mod_cast hhigh) hten
  split
  next hsmall =>
    obtain ⟨p, hp, rfl⟩ := hzero
    refine ⟨0, hp, .inr (.inl ⟨?_, rfl⟩)⟩
    have hexp : e + (c :: rest).length < -400 := by simpa [Reading.decimalRange] using hsmall
    exact hhigh'.le.trans (zpow_le_zpow_right₀ (by norm_num) (by omega))
  next =>
    split
    next hlarge =>
      have hexp : 400 < e + (c :: rest).length := by simpa [Reading.decimalRange] using hlarge
      have hinfinity : Reading.infinity neg =
          Reading.floatOfNat (Ieee.double.signed neg Ieee.double.infinity) := by
        rw [Reading.infinity, Format.signed, Nat.min_self, Nat.add_comm]
      obtain ⟨p, hp, -, hinf⟩ := ofFloat_signed neg Ieee.double.infinity
      refine ⟨p, hinfinity ▸ hp, .inr (.inr ⟨?_, hinf le_rfl⟩)⟩
      have hpow : (2 : ℚ) ^ 1023 ≤ 10 ^ (400 : ℤ) := by
        calc (2 : ℚ) ^ 1023 ≤ 2 ^ (3 * 400) := pow_le_pow_right₀ one_le_two (by decide)
          _ = 8 ^ 400 := by rw [pow_mul]; norm_num
          _ ≤ 10 ^ 400 := pow_le_pow_left₀ (by norm_num) (by norm_num) _
          _ = 10 ^ (400 : ℤ) := (zpow_natCast 10 400).symm
      refine hpow.trans (le_trans (zpow_le_zpow_right₀ (by norm_num) ?_) hlow')
      simp only [List.length_cons, Nat.cast_add, Nat.cast_one] at hexp
      omega
    next =>
      have hpos : 0 < Numeral.natOf 10 (c :: rest) := Nat.lt_of_lt_of_le (by positivity) hlow
      have hquotient : ∃ a b : Nat, 0 < a ∧ 0 < b ∧
          (a : ℚ) / b = Numeral.natOf 10 (c :: rest) * 10 ^ e ∧
          (if 0 ≤ e then Ieee.double.roundQuotient neg (Numeral.natOf 10 (c :: rest) * Nat.pow 10 e.toNat) 1
            else Ieee.double.roundQuotient neg (Numeral.natOf 10 (c :: rest)) (Nat.pow 10 (-e).toNat)) =
            Ieee.double.roundQuotient neg a b := by
        by_cases he : 0 ≤ e
        · obtain ⟨k, rfl⟩ := Int.eq_ofNat_of_zero_le he
          refine ⟨_, 1, Nat.mul_pos hpos (Nat.pow_pos (n := k) (a := 10) (by decide)), Nat.one_pos, ?_,
            if_pos he⟩
          rw [zpow_natCast]
          push_cast
          exact div_one _
        · obtain ⟨k, rfl⟩ : ∃ k : Nat, e = -k := ⟨(-e).toNat, by omega⟩
          refine ⟨_, _, hpos, Nat.pow_pos (n := k) (a := 10) (by decide), ?_, ?_⟩
          · rw [zpow_neg, zpow_natCast, ← div_eq_mul_inv]
            push_cast
            rfl
          · rw [if_neg he, Int.neg_neg, Int.toNat_natCast]
            rfl
      obtain ⟨a, b, ha, hb, hab, hquotient⟩ := hquotient
      obtain ⟨w, hw, hround⟩ := Ieee.double.roundQuotient_spec (by decide) neg ha hb
      rw [hquotient, hround]
      obtain ⟨p, hp, hnear, hinf⟩ := ofFloat_signed neg w
      rw [hab] at hw
      refine ⟨p, hp, ?_⟩
      rcases Nat.lt_or_ge w Ieee.double.infinity with hfinite | hinfinite
      · exact .inl ⟨w, hw, hfinite, hnear hfinite⟩
      · refine .inr (.inr ⟨?_, hinf hinfinite⟩)
        by_contra hless
        exact absurd (lt_infinity_of_lt hw (not_le.mp hless)) (Nat.not_lt_of_le hinfinite)

end Values

section Layout

/-- But for zeros in front and at the end, the numeral has at most so many digits. -/
def DecimalText.HasDigits (n : DecimalText) (k : Nat) : Prop :=
  ∃ lead core trail, n.digits = List.replicate lead 0x30 ++ (core ++ List.replicate trail 0x30) ∧
    core.length ≤ k

theorem Numeral.natOf_padded (lead : Nat) (core : Bytes) (trail : Nat) :
    Numeral.natOf 10 (List.replicate lead 0x30 ++ (core ++ List.replicate trail 0x30)) =
      Numeral.natOf 10 core * 10 ^ trail := by
  rw [natOf_append, natOf_zeros, Nat.zero_mul, Nat.zero_add, natOf_append, natOf_zeros,
    List.length_replicate, Nat.add_zero]

/-- The value of the digits of a decimal. -/
def Decimal.magnitude (x : Decimal) : ℚ :=
  Numeral.natOf 10 x.digits * 10 ^ (x.point - x.digits.length)

/-- The numeral shows a decimal: it has its digits, and zeros that the scale makes up for. -/
structure Decimal.ShownBy (x : Decimal) (n : DecimalText) : Prop where
  plain : n.IsPlain
  magnitude : n.magnitude = x.magnitude
  digits : n.HasDigits x.digits.length

theorem Decimal.ShownBy.of_digits {x : Decimal} {n : DecimalText} (lead trail : Nat)
    (hne : x.digits ≠ []) (hx : Numeral.Digits 10 x.digits)
    (hdigits : n.digits = List.replicate lead 0x30 ++ (x.digits ++ List.replicate trail 0x30))
    (hscale : n.scale = x.point - x.digits.length - trail) : x.ShownBy n := by
  have hzero (k : Nat) : ∀ c ∈ List.replicate k (0x30 : UInt8), Byte.isDigit c = true :=
    fun c hc => List.eq_of_mem_replicate hc ▸ rfl
  refine ⟨⟨?_, ?_⟩, ?_, lead, x.digits, trail, hdigits, Nat.le_refl _⟩
  · rw [hdigits]
    simp [hne]
  · rw [hdigits]
    exact List.forall_mem_append.mpr
      ⟨hzero lead, List.forall_mem_append.mpr ⟨Numeral.digits_iff.mp hx, hzero trail⟩⟩
  · rw [DecimalText.magnitude, Decimal.magnitude, hdigits, Numeral.natOf_padded, hscale,
      zpow_sub₀ (by norm_num) _ (trail : Int), zpow_natCast]
    push_cast
    field_simp

/-- What is printed for a decimal shows it. -/
theorem exists_general (neg : Bool) (limit : Int) {x : Decimal} (hne : x.digits ≠ [])
    (hx : Numeral.Digits 10 x.digits) :
    ∃ n : DecimalText, n.neg = neg ∧ n.text = Printing.signed neg (x.general limit) ∧ x.ShownBy n := by
  have hempty : x.digits.isEmpty = false := List.isEmpty_eq_false_iff.mpr hne
  have hpos : 0 < x.digits.length := List.length_pos_of_ne_nil hne
  unfold Decimal.general
  rw [hempty, if_neg Bool.false_ne_true]
  split
  · -- In scientific notation the digits behind the first one follow the point.
    obtain ⟨c, rest, hcons⟩ := List.exists_cons_of_ne_nil hne
    cases rest with
    | nil =>
        refine ⟨{ neg, whole := [c], exponent := some (x.point - 1) }, rfl, ?_,
          .of_digits 0 0 hne hx ?_ ?_⟩
        · rw [Decimal.scientific, hcons]
          rfl
        · rw [hcons]
          rfl
        · rw [hcons]
          simp [DecimalText.scale]
    | cons d rest =>
        refine ⟨{ neg, whole := [c], fraction := some (d :: rest), exponent := some (x.point - 1) },
          rfl, ?_, .of_digits 0 0 hne hx ?_ ?_⟩
        · rw [Decimal.scientific, hcons]
          rfl
        · rw [hcons]
          simp [DecimalText.digits]
        · rw [hcons]
          simp [DecimalText.scale]
          omega
  · unfold Decimal.positional
    dsimp only
    split
    next hwhole =>
      -- Zeros fill the places up to the point.
      simp only [Bool.or_eq_true, Bool.and_eq_true, decide_eq_true_eq, beq_iff_eq] at hwhole
      obtain ⟨hle, hpoint⟩ := hwhole.resolve_right (by omega)
      refine ⟨{ neg, whole := x.digits ++ List.replicate (x.point.toNat - x.digits.length) 0x30 }, rfl,
        ?_, .of_digits 0 (x.point.toNat - x.digits.length) hne hx ?_ ?_⟩
      · rw [if_neg (by omega), List.take_of_length_le hle]
        simp [DecimalText.text, DecimalText.body]
      · simp [DecimalText.digits]
      · simp [DecimalText.scale]
        omega
    next hwhole =>
      by_cases hpoint : x.point ≤ 0
      · refine ⟨{ neg, whole := [0x30],
                  fraction := some (List.replicate (-x.point).toNat 0x30 ++ x.digits) }, rfl, ?_,
          .of_digits ((-x.point).toNat + 1) 0 hne hx ?_ ?_⟩
        · rw [if_pos hpoint, Int.toNat_of_nonpos hpoint]
          simp [DecimalText.text, DecimalText.body]
        · simp [DecimalText.digits, List.replicate_succ]
        · simp [DecimalText.scale]
          omega
      · simp only [Bool.or_eq_true, Bool.and_eq_true, decide_eq_true_eq, beq_iff_eq] at hwhole
        have hlt : x.point.toNat < x.digits.length := by
          by_contra hge
          exact hwhole (.inl ⟨Nat.le_of_not_lt hge, by omega⟩)
        refine ⟨{ neg, whole := x.digits.take x.point.toNat,
                  fraction := some (x.digits.drop x.point.toNat) }, rfl, ?_,
          .of_digits 0 0 hne hx ?_ ?_⟩
        · have hnone : (-x.point).toNat = 0 := Int.toNat_of_nonpos (by omega)
          rw [if_neg hpoint, Nat.sub_eq_zero_of_le hlt.le, hnone]
          simp [DecimalText.text, DecimalText.body]
        · simp [DecimalText.digits]
        · simp [DecimalText.scale]
          omega

/-- The digits of a whole number without the zeros at the end, which the point makes up for. -/
theorem Decimal.ofNat_spec {k : Nat} (hk : 0 < k) (places : Nat) (point : Int) :
    (ofNat k places point).digits ≠ [] ∧ Numeral.Digits 10 (ofNat k places point).digits ∧
      (ofNat k places point).magnitude = k * 10 ^ (point - places) ∧
      ∃ trail, Bytes.ofNat k = (ofNat k places point).digits ++ List.replicate trail 0x30 := by
  obtain ⟨ds, hds⟩ : ∃ ds, ds = (ofNat k places point).digits := ⟨_, rfl⟩
  have hpoint : (ofNat k places point).point = point + (Bytes.ofNat k).length - places := rfl
  have hsplit : ∃ trail, Bytes.ofNat k = ds ++ List.replicate trail 0x30 := by
    refine ⟨((Bytes.ofNat k).reverse.takeWhile (· == 0x30)).length, ?_⟩
    have hzeros : (Bytes.ofNat k).reverse.takeWhile (· == 0x30) =
        List.replicate ((Bytes.ofNat k).reverse.takeWhile (· == 0x30)).length 0x30 :=
      List.eq_replicate_iff.mpr ⟨rfl, fun c hc => beq_iff_eq.mp (List.mem_takeWhile_imp (p := (· == 0x30)) hc)⟩
    rw [← List.reverse_replicate, ← hzeros, hds]
    exact (List.reverse_reverse _).symm.trans ((congrArg List.reverse
      (List.takeWhile_append_dropWhile (p := (· == 0x30)) (l := (Bytes.ofNat k).reverse)).symm).trans
        (List.reverse_append ..))
  obtain ⟨trail, hsplit⟩ := hsplit
  have hdigits : Numeral.Digits 10 ds := fun c hc =>
    Bytes.digits_ofNat k c (hsplit ▸ List.mem_append_left _ hc)
  have hvalue : Numeral.natOf 10 ds * 10 ^ trail = k := by
    have hpadded := Numeral.natOf_padded 0 ds trail
    rw [List.replicate_zero, List.nil_append, ← hsplit, Bytes.natOf_ofNat] at hpadded
    exact hpadded.symm
  rw [← hds]
  refine ⟨?_, hdigits, ?_, trail, hsplit⟩
  · rintro rfl
    rw [show Numeral.natOf 10 [] = 0 from rfl, Nat.zero_mul] at hvalue
    omega
  · have hscale : point + (Bytes.ofNat k).length - places - ds.length = (point - places) + trail := by
      rw [hsplit, List.length_append, List.length_replicate]
      push_cast
      ring
    rw [magnitude, ← hds, hpoint, hscale, zpow_add₀ (by norm_num), zpow_natCast, ← hvalue]
    push_cast
    ring

theorem Bytes.length_ofNat {n : Nat} (hn : 0 < n) :
    10 ^ ((Bytes.ofNat n).length - 1) ≤ n ∧ n < 10 ^ (Bytes.ofNat n).length := by
  have hlt := Numeral.natOf_lt (Bytes.digits_ofNat n)
  rw [Bytes.natOf_ofNat] at hlt
  refine ⟨?_, hlt⟩
  obtain ⟨d, rest, hd, hd', heq, hdigits, -⟩ := Bytes.ofNat_spec hn
  have hle := Numeral.le_natOf (heq ▸ hdigits) (Byte.digit_facts d hd' hd).2.2.2
  rw [← heq, Bytes.natOf_ofNat] at hle
  rw [heq, List.length_cons, Nat.add_sub_cancel]
  exact hle

namespace Decimal

/-- How many factors of ten are missing. -/
theorem leadingZeros_spec {n d : Nat} (hlt : n < d) (fuel : Nat) (hfuel : d ≤ 10 ^ fuel * n) :
    ∃ l, leadingZeros d fuel n = l + 1 ∧ 10 ^ l * n < d ∧ d ≤ 10 ^ (l + 1) * n := by
  induction fuel generalizing n with
  | zero => omega
  | succ fuel ih =>
      have hstep : leadingZeros d (fuel + 1) n = leadingZeros d fuel (10 * n) + 1 := by
        rw [leadingZeros, if_neg (by omega)]
      rw [hstep]
      rw [Nat.pow_succ, Nat.mul_assoc] at hfuel
      by_cases hle : d ≤ 10 * n
      · refine ⟨0, ?_, by omega, by omega⟩
        cases fuel with
        | zero => rfl
        | succ fuel => rw [leadingZeros, if_pos hle]
      · obtain ⟨l, hl, hlow, hhigh⟩ := ih (Nat.lt_of_not_le hle) hfuel
        refine ⟨l + 1, by rw [hl], ?_, ?_⟩
        · rw [Nat.pow_succ, Nat.mul_assoc]
          exact hlow
        · rw [Nat.pow_succ, Nat.mul_assoc]
          exact hhigh

/-- The point stands where the value begins. -/
theorem pointOf_spec {n d : Nat} (hn : 0 < n) (hd : 0 < d) :
    (10 : ℚ) ^ (pointOf n d - 1) ≤ n / d ∧ (n : ℚ) / d < 10 ^ pointOf n d := by
  have hpos : (0 : ℚ) < d := Nat.cast_pos.mpr hd
  unfold pointOf
  split
  next hle =>
    have hq : 0 < n / d := Nat.div_pos hle hd
    obtain ⟨hlow, hhigh⟩ := Bytes.length_ofNat hq
    have hlength : 0 < (Bytes.ofNat (n / d)).length := List.length_pos_of_ne_nil (Bytes.ofNat_ne_nil _)
    have hexp : ((Bytes.ofNat (n / d)).length : Int) - 1 = ((Bytes.ofNat (n / d)).length - 1 : Nat) := by
      omega
    constructor
    · rw [hexp, zpow_natCast, le_div_iff₀ hpos]
      exact_mod_cast (Nat.le_div_iff_mul_le hd).mp hlow
    · rw [zpow_natCast, div_lt_iff₀ hpos]
      exact_mod_cast (Nat.div_lt_iff_lt_mul hd).mp hhigh
  next hlt =>
    have hfuel : d ≤ 10 ^ (d.log2 + 1) * n := by
      calc d ≤ 2 ^ (d.log2 + 1) := Nat.lt_log2_self.le
        _ ≤ 10 ^ (d.log2 + 1) := Nat.pow_le_pow_left (by decide) _
        _ ≤ 10 ^ (d.log2 + 1) * n := Nat.le_mul_of_pos_right _ hn
    obtain ⟨l, hl, hlow, hhigh⟩ := leadingZeros_spec (Nat.lt_of_not_le hlt) _ hfuel
    have hexp : (1 : Int) - ((l + 1 : Nat) : Int) - 1 = -((l + 1 : Nat) : Int) := by ring
    have hexp' : (1 : Int) - ((l + 1 : Nat) : Int) = -(l : Int) := by push_cast; ring
    rw [hl]
    constructor
    · rw [hexp, zpow_neg, zpow_natCast, inv_le_iff_one_le_mul₀ (by positivity), div_mul_eq_mul_div,
        le_div_iff₀ hpos, one_mul]
      exact_mod_cast (by rw [Nat.mul_comm]; exact hhigh : d ≤ n * 10 ^ (l + 1))
    · rw [hexp', zpow_neg, zpow_natCast, div_lt_iff₀ hpos, inv_mul_eq_div, lt_div_iff₀ (by positivity)]
      exact_mod_cast (by rw [Nat.mul_comm]; exact hlow : n * 10 ^ l < d)

private theorem ratio_spec (m : Nat) (e : Int) : 0 < (ratio m e).2 ∧ (0 < m → 0 < (ratio m e).1) ∧
    ((ratio m e).1 : ℚ) / (ratio m e).2 = m * 2 ^ e := by
  unfold ratio
  split
  next he =>
    obtain ⟨k, rfl⟩ := Int.eq_ofNat_of_zero_le he
    refine ⟨Nat.one_pos, fun hm => Nat.mul_pos hm (Nat.two_pow_pos k), ?_⟩
    have hcast : ((m * 2 ^ k : Nat) : ℚ) = m * 2 ^ k := by push_cast; rfl
    rw [zpow_natCast, ← hcast]
    exact div_one _
  next he =>
    obtain ⟨k, rfl⟩ : ∃ k : Nat, e = -k := ⟨(-e).toNat, by omega⟩
    rw [neg_neg, Int.toNat_natCast]
    refine ⟨Nat.two_pow_pos k, id, ?_⟩
    rw [zpow_neg, zpow_natCast, ← div_eq_mul_inv]
    exact congrArg _ (Nat.cast_pow 2 k)

theorem powerOfTen_spec (p : Int) : 0 < (powerOfTen p).1 ∧ 0 < (powerOfTen p).2 ∧
    ((powerOfTen p).1 : ℚ) / (powerOfTen p).2 = 10 ^ p := by
  unfold powerOfTen
  split
  next hp =>
    obtain ⟨k, rfl⟩ := Int.eq_ofNat_of_zero_le hp
    refine ⟨Nat.pow_pos (a := 10) (by decide), Nat.one_pos, ?_⟩
    rw [zpow_natCast]
    exact (div_one _).trans (Nat.cast_pow 10 k)
  next hp =>
    obtain ⟨k, rfl⟩ : ∃ k : Nat, p = -k := ⟨(-p).toNat, by omega⟩
    rw [neg_neg, Int.toNat_natCast]
    refine ⟨Nat.one_pos, Nat.pow_pos (a := 10) (by decide), ?_⟩
    rw [zpow_neg, zpow_natCast, Nat.cast_one, one_div]
    exact congrArg _ (Nat.cast_pow 10 k)

/-- Where the point of a value stands. -/
def pointAt (m : Nat) (e : Int) : Int := pointOf (ratio m e).1 (ratio m e).2

/-- The first digits of a value, as a whole number. -/
def leading (places m : Nat) (e : Int) : Nat :=
  roundDiv ((ratio m e).1 * (powerOfTen (places - pointAt m e)).1)
    ((ratio m e).2 * (powerOfTen (places - pointAt m e)).2)

/-- A positive value is given with its first digits, as the nearest multiple of its unit. -/
theorem fixed_spec (places : Nat) {m : Nat} (hm : 0 < m) (e : Int) :
    fixed places m e = ofNat (leading places m e) places (pointAt m e) ∧
      (10 : ℚ) ^ (pointAt m e - 1) ≤ m * 2 ^ e ∧ (m : ℚ) * 2 ^ e < 10 ^ pointAt m e ∧
      IsRounded (m * 2 ^ e / 10 ^ (pointAt m e - places)) (leading places m e) := by
  obtain ⟨hd, hn, hvalue⟩ := ratio_spec m e
  obtain ⟨hlow, hhigh⟩ := pointOf_spec (hn hm) hd
  rw [hvalue] at hlow hhigh
  refine ⟨?_, hlow, hhigh, ?_⟩
  · unfold fixed
    rw [if_neg (by simpa using hm.ne')]
    rfl
  · obtain ⟨-, hb, hten⟩ := powerOfTen_spec (places - pointAt m e)
    have hrounded := isRounded_roundDiv ((ratio m e).1 * (powerOfTen (places - pointAt m e)).1)
      (Nat.mul_pos hd hb)
    have hunit : (10 : ℚ) ^ ((places : Int) - pointAt m e) = (10 ^ (pointAt m e - places))⁻¹ := by
      rw [← zpow_neg, neg_sub]
    rw [Nat.cast_mul, Nat.cast_mul, mul_div_mul_comm, hvalue, hten, hunit, ← div_eq_mul_inv] at hrounded
    exact hrounded

end Decimal

end Layout

end ConsoleScript
