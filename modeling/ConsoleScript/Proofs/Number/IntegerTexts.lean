import ConsoleScript.Number.Reading
import Mathlib.Algebra.Group.Nat.Defs
import Mathlib.Data.List.TakeWhile

/-!
Integers at the beginning of a text: blanks, a sign, the mark of a base, and the longest run of digits.
The reader computes in words of 64 bits and notices with one division for each digit that the value
leaves them; digits of any number are read as their value in ℕ, or as the largest word.
-/

namespace ConsoleScript

open Reading

/-- The value of digits of a base that stand behind a number. -/
def Numeral.valueFrom (base n : Nat) (digits : Bytes) : Nat :=
  digits.foldl (fun n c => n * base + (Byte.digitValue? c).getD 0) n

def Numeral.Digits (base : Nat) (s : Bytes) : Prop :=
  ∀ c ∈ s, ∃ d < base, Byte.digitValue? c = some d

theorem Byte.digitValue?_bounds {c : UInt8} {d : Nat} (h : digitValue? c = some d) :
    d < 16 ∧ 0x30 ≤ c.toNat := by
  unfold digitValue? isDigit at h
  simp only [Bool.and_eq_true, decide_eq_true_eq, UInt8.le_iff_toNat_le] at h
  split at h
  next hc => have hle : 0x30 ≤ c.toNat ∧ c.toNat ≤ 0x39 := hc; cases h; omega
  next =>
    split at h
    next hc => have hle : 0x61 ≤ c.toNat ∧ c.toNat ≤ 0x66 := hc; cases h; omega
    next =>
      split at h
      next hc => have hle : 0x41 ≤ c.toNat ∧ c.toNat ≤ 0x46 := hc; cases h; omega
      next => exact nomatch h

theorem Byte.isSpace_digit {c : UInt8} {d : Nat} (h : digitValue? c = some d) : isSpace c = false := by
  have hlow : 0x30 ≤ c.toNat := (digitValue?_bounds h).2
  simp only [isSpace, Bool.or_eq_false_iff, beq_eq_false_iff_ne, Bool.and_eq_false_iff,
    decide_eq_false_iff_not, UInt8.le_iff_toNat_le]
  refine ⟨fun hc => ?_, .inr fun hc => ?_⟩
  · rw [hc] at hlow
    exact absurd hlow (by decide)
  · replace hc : c.toNat ≤ 0x0D := hc
    omega

theorem Numeral.isDigitOf_iff {base : Nat} {c : UInt8} :
    isDigitOf base c = true ↔ ∃ d < base, Byte.digitValue? c = some d := by
  rw [isDigitOf, Option.any_eq_true]
  constructor
  · rintro ⟨d, hc, hd⟩
    exact ⟨d, of_decide_eq_true hd, hc⟩
  · rintro ⟨d, hd, hc⟩
    exact ⟨d, hc, decide_eq_true hd⟩

theorem Numeral.digits_iff_all {base : Nat} {s : Bytes} :
    Digits base s ↔ s.all (isDigitOf base) = true :=
  (forall₂_congr fun _ _ => isDigitOf_iff.symm).trans List.all_eq_true.symm

section Accumulating

variable {base : Nat}

/-- The accumulator holds a number: its word wraps around, and the flag tells that it did. -/
structure Reading.Accumulated.Holds (acc : Accumulated) (n : Nat) : Prop where
  value : acc.value = UInt64.ofNat n
  overflow : acc.overflow = decide (2 ^ 64 ≤ n)

/-- The test by division finds out whether one more digit fits into a word. -/
theorem UInt64.gt_div_iff {base n d : Nat} (hpos : 0 < base) (hb : base ≤ 16) (hd : d < base)
    (hn : n < 2 ^ 64) :
    UInt64.ofNat n > (0xFFFFFFFFFFFFFFFF - UInt64.ofNat d) / UInt64.ofNat base ↔
      2 ^ 64 ≤ n * base + d := by
  have htoNat (m : Nat) (hm : m < 2 ^ 64) : (UInt64.ofNat m).toNat = m := UInt64.toNat_ofNat_of_lt' hm
  have hle : UInt64.ofNat d ≤ 0xFFFFFFFFFFFFFFFF := by
    rw [UInt64.le_iff_toNat_le, htoNat d (by omega)]
    change d ≤ 2 ^ 64 - 1
    omega
  rw [gt_iff_lt, UInt64.lt_iff_toNat_lt, UInt64.toNat_div, UInt64.toNat_sub_of_le _ _ hle,
    htoNat n hn, htoNat d (by omega), htoNat base (by omega), Nat.div_lt_iff_lt_mul hpos]
  change 2 ^ 64 - 1 - d < n * base ↔ _
  omega

/-- One more digit. -/
theorem Reading.Accumulated.Holds.digit {acc : Accumulated} {n : Nat} (h : acc.Holds n)
    (hpos : 0 < base) (hb : base ≤ 16) {d : Nat} (hd : d < base) (count : Nat) :
    Accumulated.Holds
      ⟨acc.value * UInt64.ofNat base + UInt64.ofNat d,
        acc.overflow || acc.value > (0xFFFFFFFFFFFFFFFF - UInt64.ofNat d) / UInt64.ofNat base, count⟩
      (n * base + d) where
  value := by rw [h.value, UInt64.ofNat_add, UInt64.ofNat_mul]
  overflow := by
    have hgrow : n ≤ n * base := Nat.le_mul_of_pos_right n hpos
    rcases Nat.lt_or_ge n (2 ^ 64) with hfits | hwide
    · rw [h.overflow, decide_eq_false (Nat.not_le.mpr hfits), Bool.false_or, h.value,
        decide_eq_decide]
      exact UInt64.gt_div_iff hpos hb hd hfits
    · rw [h.overflow, decide_eq_true hwide, Bool.true_or, decide_eq_true (by omega)]

/-- Digits are taken up to the first byte that is none, however many there are. -/
theorem Reading.takeDigits_holds (hpos : 0 < base) (hb : base ≤ 16) {digits rest : Bytes}
    (hdigits : Numeral.Digits base digits) (hrest : rest.head?.any (Numeral.isDigitOf base) = false)
    {acc : Accumulated} {n : Nat} (h : acc.Holds n) :
    (takeDigits (UInt64.ofNat base) acc (digits ++ rest)).Holds (Numeral.valueFrom base n digits) ∧
      (takeDigits (UInt64.ofNat base) acc (digits ++ rest)).count = acc.count + digits.length := by
  have hword (m : Nat) (hm : m < 2 ^ 64) : (UInt64.ofNat m).toNat = m := UInt64.toNat_ofNat_of_lt' hm
  induction digits generalizing acc n with
  | nil =>
      suffices hstop : takeDigits (UInt64.ofNat base) acc rest = acc by
        rw [List.nil_append, hstop]
        exact ⟨h, rfl⟩
      cases rest with
      | nil => rfl
      | cons c rest =>
          have hnone : ¬∃ d < base, Byte.digitValue? c = some d := by
            rw [← Numeral.isDigitOf_iff, show Numeral.isDigitOf base c = false from hrest]
            exact Bool.false_ne_true
          unfold takeDigits
          split
          next => rfl
          next d hc =>
            have hsmall : d < 16 := (Byte.digitValue?_bounds hc).1
            refine if_pos ?_
            rw [UInt64.le_iff_toNat_le, hword base (by omega), hword d (by omega)]
            exact Nat.le_of_not_lt fun hd => hnone ⟨d, hd, hc⟩
  | cons c digits ih =>
      obtain ⟨d, hd, hc⟩ := hdigits c List.mem_cons_self
      have hdigit : ¬UInt64.ofNat base ≤ UInt64.ofNat d := by
        rw [UInt64.le_iff_toNat_le, hword base (by omega), hword d (by omega)]
        omega
      have hvalue : Numeral.valueFrom base n (c :: digits) =
          Numeral.valueFrom base (n * base + d) digits := by
        rw [Numeral.valueFrom, List.foldl_cons, hc]
        rfl
      rw [List.cons_append, takeDigits, hc, hvalue, List.length_cons]
      dsimp only
      rw [if_neg hdigit]
      obtain ⟨hholds, hcount⟩ := ih (fun c' hc' => hdigits c' (List.mem_cons_of_mem c hc'))
        (h.digit hpos hb hd (acc.count + 1))
      exact ⟨hholds, by rw [hcount]; dsimp only; omega⟩

end Accumulating

/-- A sign in front of a text; no sign is read where the text begins with none. -/
inductive Signed : (sign rest : Bytes) → Prop
  | minus (rest : Bytes) : Signed [code '-'] rest
  | plus (rest : Bytes) : Signed [code '+'] rest
  | none {rest : Bytes} (hminus : rest.head? ≠ some (code '-')) (hplus : rest.head? ≠ some (code '+')) :
      Signed [] rest

/-- The base that a text asks for: sixteen with a mark in front of a hexadecimal digit, else eight if
it begins with a zero, and ten if it does not. -/
inductive Marked : (mark : Bytes) → (base : Nat) → (rest : Bytes) → Prop
  | hexadecimal {x c : UInt8} (hx : x = code 'x' ∨ x = code 'X') (hc : Byte.isHexDigit c = true)
      (rest : Bytes) : Marked [code '0', x] 16 (c :: rest)
  | octal {rest : Bytes} (hrest : ∀ x c s, rest = x :: c :: s → x = code 'x' ∨ x = code 'X' →
      Byte.isHexDigit c = false) : Marked [] 8 (code '0' :: rest)
  | decimal {rest : Bytes} (hrest : rest.head? ≠ some (code '0')) : Marked [] 10 rest

/-- The parts of a text that may begin with an integer. -/
structure IntegerText (s : Bytes) where
  blanks : Bytes
  sign : Bytes
  mark : Bytes
  base : Nat
  digits : Bytes
  rest : Bytes
  text : blanks ++ (sign ++ (mark ++ (digits ++ rest))) = s
  blank : blanks.all Byte.isSpace = true
  noBlank : (sign ++ (mark ++ (digits ++ rest))).head?.any Byte.isSpace = false
  signed : Signed sign (mark ++ (digits ++ rest))
  marked : Marked mark base (digits ++ rest)
  digit : digits.all (Numeral.isDigitOf base) = true
  noDigit : rest.head?.any (Numeral.isDigitOf base) = false

namespace IntegerText

variable {s : Bytes}

/-- The word that the integer is read as: the largest one if the digits do not fit, and what has to be
added to them for `2 ^ 64` if a minus sign stands in front of them. -/
def word (t : IntegerText s) : Nat :=
  let n := Numeral.natOf t.base t.digits
  if 2 ^ 64 ≤ n then 2 ^ 64 - 1
  else if t.sign = [code '-'] then (2 ^ 64 - n) % 2 ^ 64
  else n

/-- The index behind the digits. -/
def behind (t : IntegerText s) : Nat :=
  t.blanks.length + t.sign.length + t.mark.length + t.digits.length

end IntegerText

theorem Signed.signOf_eq {sign rest : Bytes} (h : Signed sign rest) :
    signOf (sign ++ rest) = (decide (sign = [code '-']), sign.length) := by
  cases h with
  | minus => rfl
  | plus => rfl
  | none hminus hplus =>
      cases rest with
      | nil => rfl
      | cons c rest =>
          have hc : c ≠ code '-' := fun h => hminus (congrArg some h)
          have hc' : c ≠ code '+' := fun h => hplus (congrArg some h)
          change signOf (c :: rest) = _
          rw [signOf, if_neg (by simpa using hc), if_neg (by simpa using hc')]
          rfl

theorem Marked.baseOf_eq {mark rest : Bytes} {base : Nat} (h : Marked mark base rest) :
    baseOf (mark ++ rest) = (UInt64.ofNat base, mark.length) := by
  cases h with
  | @hexadecimal x c hx hc rest =>
      change baseOf (0x30 :: x :: c :: rest) = _
      rw [baseOf, if_pos (by rw [hc]; simpa using hx)]
      rfl
  | @octal rest hrest =>
      change baseOf (0x30 :: rest) = _
      unfold baseOf
      split
      next x c s heq =>
        refine if_neg fun h => ?_
        obtain ⟨hx, hc⟩ := Bool.and_eq_true_iff.mp h
        rw [hrest x c s (List.cons.inj heq).2 (by simpa using hx)] at hc
        exact Bool.false_ne_true hc
      next => rfl
      next hne => exact absurd rfl (hne rest)
  | decimal hrest =>
      change baseOf rest = _
      unfold baseOf
      split
      next => exact absurd rfl hrest
      next => exact absurd rfl hrest
      next => rfl

theorem Marked.base_le {mark rest : Bytes} {base : Nat} (h : Marked mark base rest) :
    0 < base ∧ base ≤ 16 := by
  cases h <;> decide

theorem Signed.exists_split (s : Bytes) : ∃ sign rest, sign ++ rest = s ∧ Signed sign rest := by
  cases s with
  | nil => exact ⟨[], [], rfl, .none nofun nofun⟩
  | cons c s =>
      by_cases hminus : c = code '-'
      · exact ⟨[code '-'], s, by rw [hminus]; rfl, .minus s⟩
      by_cases hplus : c = code '+'
      · exact ⟨[code '+'], s, by rw [hplus]; rfl, .plus s⟩
      exact ⟨[], c :: s, rfl, .none (fun h => hminus (Option.some.inj h))
        fun h => hplus (Option.some.inj h)⟩

theorem Marked.exists_split (s : Bytes) : ∃ mark base rest, mark ++ rest = s ∧ Marked mark base rest := by
  by_cases hzero : s.head? = some (code '0')
  · obtain ⟨s, rfl⟩ : ∃ t, s = code '0' :: t := by
      cases s with
      | nil => cases hzero
      | cons c s => exact ⟨s, congrArg (· :: s) (Option.some.inj hzero)⟩
    by_cases hhex : ∃ x c t, s = x :: c :: t ∧ (x = code 'x' ∨ x = code 'X') ∧ Byte.isHexDigit c = true
    · obtain ⟨x, c, t, rfl, hx, hc⟩ := hhex
      exact ⟨[code '0', x], 16, c :: t, rfl, .hexadecimal hx hc t⟩
    · refine ⟨[], 8, code '0' :: s, rfl, .octal fun x c t hs hx => ?_⟩
      exact Bool.eq_false_iff.mpr fun hc => hhex ⟨x, c, t, hs, hx, hc⟩
  · exact ⟨[], 10, s, rfl, .decimal hzero⟩

theorem List.exists_run {α : Type} (p : α → Bool) (l : List α) : ∃ run rest, run ++ rest = l ∧
    run.all p = true ∧ rest.head?.any p = false := by
  refine ⟨l.takeWhile p, l.dropWhile p, List.takeWhile_append_dropWhile, List.all_takeWhile, ?_⟩
  have hstop := List.head?_dropWhile_not p l
  cases hrest : (l.dropWhile p).head? with
  | none => rfl
  | some c =>
      rw [hrest] at hstop
      exact Bool.eq_false_iff.mpr (by simpa using hstop)

theorem List.dropWhile_run {α : Type} {p : α → Bool} {run rest : List α} (hrun : run.all p = true)
    (hrest : rest.head?.any p = false) : (run ++ rest).dropWhile p = rest := by
  rw [List.dropWhile_append_of_pos (List.all_eq_true.mp hrun)]
  cases rest with
  | nil => rfl
  | cons c rest => exact List.dropWhile_cons_of_neg (Bool.eq_false_iff.mp hrest)

theorem IntegerText.nonempty (s : Bytes) : Nonempty (IntegerText s) := by
  obtain ⟨blanks, t, rfl, hblank, hnoBlank⟩ := List.exists_run Byte.isSpace s
  obtain ⟨sign, t, rfl, hsigned⟩ := Signed.exists_split t
  obtain ⟨mark, base, t, rfl, hmarked⟩ := Marked.exists_split t
  obtain ⟨digits, rest, rfl, hdigit, hnoDigit⟩ := List.exists_run (Numeral.isDigitOf base) t
  exact ⟨⟨blanks, sign, mark, base, digits, rest, rfl, hblank, hnoBlank, hsigned, hmarked, hdigit,
    hnoDigit⟩⟩

theorem IntegerText.word_lt {s : Bytes} (t : IntegerText s) : t.word < 2 ^ 64 := by
  unfold word
  dsimp only
  split
  · decide
  · split
    · exact Nat.mod_lt _ (by decide)
    · omega

/-- A word is negated by the subtraction from zero. -/
theorem IntegerText.ofNat_word {s : Bytes} (t : IntegerText s) : UInt64.ofNat t.word =
    if 2 ^ 64 ≤ Numeral.natOf t.base t.digits then 0xFFFFFFFFFFFFFFFF
    else if t.sign = [code '-'] then 0 - UInt64.ofNat (Numeral.natOf t.base t.digits)
    else UInt64.ofNat (Numeral.natOf t.base t.digits) := by
  unfold word
  dsimp only
  split
  · rfl
  next hfits =>
    split
    next =>
      have hword : (UInt64.ofNat (Numeral.natOf t.base t.digits)).toNat = Numeral.natOf t.base t.digits :=
        UInt64.toNat_ofNat_of_lt' (Nat.lt_of_not_le hfits)
      have hneg : (2 ^ 64 - Numeral.natOf t.base t.digits) % 2 ^ 64 < UInt64.size :=
        Nat.mod_lt _ (by decide)
      apply UInt64.toNat_inj.mp
      rw [UInt64.toNat_sub, UInt64.toNat_ofNat_of_lt' hneg, hword]
      rfl
    next => rfl

/-- The reader finds the parts of a text, and reads its digits as their word. -/
theorem IntegerText.uint64_eq {s : Bytes} (t : IntegerText s) : uint64 s =
    if t.digits = [] then (0, 0) else (UInt64.ofNat t.word, t.behind) := by
  obtain ⟨hpos, hbase⟩ := t.marked.base_le
  have hzero : Accumulated.Holds ⟨0, false, 0⟩ 0 := ⟨rfl, rfl⟩
  obtain ⟨hholds, hcount⟩ := takeDigits_holds hpos hbase (Numeral.digits_iff_all.mpr t.digit)
    t.noDigit hzero
  have hstart : s.dropWhile Byte.isSpace = t.sign ++ (t.mark ++ (t.digits ++ t.rest)) :=
    (congrArg (List.dropWhile Byte.isSpace) t.text).symm.trans (List.dropWhile_run t.blank t.noBlank)
  have hblanks : s.length - (t.sign ++ (t.mark ++ (t.digits ++ t.rest))).length = t.blanks.length := by
    rw [← congrArg List.length t.text, List.length_append, Nat.add_sub_cancel]
  unfold uint64
  dsimp only
  rw [hstart, hblanks, t.signed.signOf_eq]
  dsimp only
  rw [List.drop_left, t.marked.baseOf_eq]
  dsimp only
  rw [List.drop_left, hcount, hholds.overflow, hholds.value]
  have hempty : (0 + t.digits.length == 0) = decide (t.digits = []) := by
    rw [Nat.zero_add, beq_eq_decide]
    exact decide_eq_decide.mpr List.length_eq_zero_iff
  dsimp only
  rw [hempty, Nat.zero_add]
  by_cases hnone : t.digits = []
  · rw [if_pos hnone, if_pos (decide_eq_true hnone)]
  · rw [if_neg hnone, if_neg (by simpa using hnone)]
    refine Prod.ext ?_ rfl
    rw [t.ofNat_word]
    dsimp only
    simp only [decide_eq_true_eq]
    rfl

end ConsoleScript
