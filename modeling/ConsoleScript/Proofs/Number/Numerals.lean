import ConsoleScript.Interp
import ConsoleScript.Proofs.Number.IntegerTexts

/-!
Numerals read back. The decimal text of an integer, and the hexadecimal one of an integer that is not
negative, are read as the integer that they were made from.
-/

namespace ConsoleScript

open Reading

section Digits

variable {base : Nat} {upper : Bool}

theorem Byte.digitValue?_digit (upper : Bool) {d : Nat} (hd : d < 16) :
    Byte.digitValue? (Bytes.digit upper d) = some d := by
  revert upper d
  decide

theorem Bytes.digits_digitsAux (hb : base ≤ 16) (hpos : 0 < base) (fuel n : Nat) {s : Bytes}
    (hs : Numeral.Digits base s) : Numeral.Digits base (digitsAux base upper fuel n s) := by
  induction fuel generalizing n s with
  | zero => exact hs
  | succ fuel ih =>
      have hlast : n % base < base := Nat.mod_lt n hpos
      have hcons : Numeral.Digits base (digit upper (n % base) :: s) := by
        intro c hc
        rcases List.mem_cons.mp hc with rfl | hc
        · exact ⟨_, hlast, Byte.digitValue?_digit upper (Nat.lt_of_lt_of_le hlast hb)⟩
        · exact hs c hc
      unfold digitsAux
      dsimp only
      split
      · exact hcons
      · exact ih _ hcons

/-- The digits of a number have its value. -/
theorem Bytes.valueFrom_digitsAux (hb : base ≤ 16) (hbase : 1 < base) (fuel n : Nat) (s : Bytes)
    (hn : n < fuel) : Numeral.valueFrom base 0 (digitsAux base upper fuel n s) =
      Numeral.valueFrom base n s := by
  induction fuel generalizing n s with
  | zero => exact absurd hn (Nat.not_lt_zero n)
  | succ fuel ih =>
      have hlast : n % base < 16 := Nat.lt_of_lt_of_le (Nat.mod_lt n (by omega)) hb
      have hdivmod : n / base * base + n % base = n := Nat.div_add_mod' n base
      have hstep (m : Nat) : Numeral.valueFrom base m (digit upper (n % base) :: s) =
          Numeral.valueFrom base (m * base + n % base) s := by
        rw [Numeral.valueFrom, List.foldl_cons, Byte.digitValue?_digit upper hlast]
        rfl
      unfold digitsAux
      dsimp only
      split
      next hzero =>
        rw [eq_of_beq hzero] at hdivmod
        rw [hstep, hdivmod]
      next hmore =>
        have hpos : 0 < n / base := Nat.pos_of_ne_zero (by simpa using hmore)
        have hless : n / base < n := Nat.div_lt_self (Nat.pos_of_div_pos hpos) hbase
        rw [ih _ _ (by omega), hstep, hdivmod]

/-- The first digit of a number that is not zero is not zero. -/
theorem Bytes.head_digitsAux (hbase : 1 < base) (fuel n : Nat) (s : Bytes) (hn : n < fuel)
    (hpos : 0 < n) : ∃ d rest, 0 < d ∧ d < base ∧
      digitsAux base upper fuel n s = digit upper d :: rest := by
  induction fuel generalizing n s with
  | zero => exact absurd hn (Nat.not_lt_zero n)
  | succ fuel ih =>
      unfold digitsAux
      dsimp only
      split
      next hzero =>
        have hless : n < base := by
          have := (Nat.div_eq_zero_iff (a := n) (b := base)).mp (eq_of_beq hzero)
          omega
        exact ⟨n % base, s, by rwa [Nat.mod_eq_of_lt hless], Nat.mod_lt n (by omega), rfl⟩
      next hmore =>
        have hdiv : 0 < n / base := Nat.pos_of_ne_zero (by simpa using hmore)
        have hless : n / base < n := Nat.div_lt_self hpos hbase
        exact ih _ _ (by omega) hdiv

end Digits

section Integers

theorem Byte.digit_facts : ∀ d < 10, 0 < d →
    isSpace (Bytes.digit false d) = false ∧ (Bytes.digit false d == code '-') = false ∧
      (Bytes.digit false d == code '+') = false ∧ Bytes.digit false d ≠ 0x30 := by
  decide

/-- A text that consists of an optional sign, the mark of a base and digits that fit into a word. -/
theorem uint64_digits {sign mark digits : Bytes} {base : Nat} (hsigned : Signed sign (mark ++ digits))
    (hmarked : Marked mark base digits) (hdigits : Numeral.Digits base digits) (hne : digits ≠ [])
    (hlt : Numeral.valueFrom base 0 digits < 2 ^ 64) :
    (uint64 (sign ++ (mark ++ digits))).1 =
      if sign = [code '-'] then 0 - UInt64.ofNat (Numeral.valueFrom base 0 digits)
      else UInt64.ofNat (Numeral.valueFrom base 0 digits) := by
  have hnoBlank : (sign ++ (mark ++ (digits ++ []))).head?.any Byte.isSpace = false := by
    cases hsigned with
    | minus => rfl
    | plus => rfl
    | none =>
        cases hmarked with
        | hexadecimal => rfl
        | octal => rfl
        | decimal =>
            obtain ⟨c, rest, rfl⟩ := List.exists_cons_of_ne_nil hne
            obtain ⟨d, -, hd⟩ := hdigits c List.mem_cons_self
            exact Byte.isSpace_digit hd
  let t : IntegerText (sign ++ (mark ++ digits)) :=
    ⟨[], sign, mark, base, digits, [], by simp, rfl, hnoBlank, by simpa using hsigned,
      by simpa using hmarked, Numeral.digits_iff_all.mp hdigits, rfl⟩
  have hword : UInt64.ofNat t.word = if sign = [code '-'] then
      0 - UInt64.ofNat (Numeral.valueFrom base 0 digits)
      else UInt64.ofNat (Numeral.valueFrom base 0 digits) :=
    t.ofNat_word.trans (if_neg (Nat.not_le.mpr hlt))
  rw [t.uint64_eq, if_neg hne, hword]

theorem Bytes.ofNat_spec {n : Nat} (hpos : 0 < n) : ∃ d rest, 0 < d ∧ d < 10 ∧
    ofNat n = digit false d :: rest ∧ Numeral.Digits 10 (ofNat n) ∧
      Numeral.valueFrom 10 0 (ofNat n) = n := by
  obtain ⟨d, rest, hd, hlt, heq⟩ : ∃ d rest, 0 < d ∧ d < 10 ∧ ofNat n = digit false d :: rest :=
    head_digitsAux (by decide) (n + 1) n [] (Nat.lt_succ_self n) hpos
  exact ⟨d, rest, hd, hlt, heq, digits_digitsAux (by decide) (by decide) _ _ nofun,
    valueFrom_digitsAux (by decide) (by decide) _ _ _ (Nat.lt_succ_self n)⟩

theorem Marked.ofNat {n : Nat} (hpos : 0 < n) :
    Marked [] 10 (Bytes.ofNat n) ∧ Signed [] (Bytes.ofNat n) := by
  obtain ⟨d, rest, hd, hlt, heq, -, -⟩ := Bytes.ofNat_spec hpos
  obtain ⟨-, hminus, hplus, hzero⟩ := Byte.digit_facts d hlt hd
  rw [heq]
  exact ⟨.decimal fun h => hzero (Option.some.inj h),
    .none (fun h => beq_eq_false_iff_ne.mp hminus (Option.some.inj h))
      fun h => beq_eq_false_iff_ne.mp hplus (Option.some.inj h)⟩

private theorem uint64_ofNat {n : Nat} (hn : n < 0x10000000000000000) :
    (uint64 (Bytes.ofNat n)).1 = UInt64.ofNat n := by
  rcases Nat.eq_zero_or_pos n with rfl | hpos
  · decide
  · obtain ⟨d, rest, -, -, heq, hdigits, hvalue⟩ := Bytes.ofNat_spec hpos
    obtain ⟨hmarked, hsigned⟩ := Marked.ofNat hpos
    have hread := uint64_digits hsigned hmarked hdigits (heq ▸ List.cons_ne_nil _ _)
      (by rwa [hvalue])
    rwa [hvalue] at hread

private theorem uint64_minus_ofNat {n : Nat} (hpos : 0 < n) (hn : n < 0x10000000000000000) :
    (uint64 (code '-' :: Bytes.ofNat n)).1 = 0 - UInt64.ofNat n := by
  obtain ⟨d, rest, -, -, heq, hdigits, hvalue⟩ := Bytes.ofNat_spec hpos
  have hread := uint64_digits (.minus _) (Marked.ofNat hpos).1 hdigits (heq ▸ List.cons_ne_nil _ _)
    (by rwa [hvalue])
  rwa [hvalue] at hread

theorem toInt32_ofNat (n : Nat) : (UInt64.ofNat n).toUInt32.toInt32 = Int32.ofInt n := by
  apply Int32.toBitVec_inj.mp
  rw [Int32.toBitVec_ofInt, BitVec.ofInt_natCast]
  change (BitVec.ofNat 64 n).setWidth 32 = _
  simp [BitVec.setWidth_ofNat_of_le]

private theorem toInt32_minus_ofNat (n : Nat) :
    (0 - UInt64.ofNat (n + 1)).toUInt32.toInt32 = Int32.ofInt (Int.negSucc n) := by
  apply Int32.toBitVec_inj.mp
  rw [Int32.toBitVec_ofInt]
  change (0#64 - BitVec.ofNat 64 (n + 1)).setWidth 32 = _
  rw [Int.negSucc_eq, BitVec.ofInt_neg]
  apply BitVec.eq_of_toNat_eq
  simp
  omega

/-- The decimal text of an integer is read as the integer. -/
theorem int_printInt (v : Int32) : Reading.int (Printing.int v) = v := by
  have hlo : -2 ^ 31 ≤ v.toInt := v.minValue_le_toInt
  have hhi : v.toInt < 2 ^ 31 := v.toInt_lt
  have hback : Int32.ofInt v.toInt = v := Int32.ofInt_toInt v
  unfold Reading.int Printing.int
  cases hv : v.toInt with
  | ofNat n =>
      rw [hv] at hhi hback
      have hn : n < 2 ^ 31 := Int.ofNat_lt.mp hhi
      rw [Bytes.ofInt, uint64_ofNat (by omega), toInt32_ofNat]
      exact hback
  | negSucc n =>
      rw [hv] at hlo hback
      have hn : n < 2 ^ 31 := by omega
      rw [Bytes.ofInt, uint64_minus_ofNat (Nat.succ_pos n) (by omega), toInt32_minus_ofNat]
      exact hback

private theorem uint64_hex {digits : Bytes} (hdigits : Numeral.Digits 16 digits) (hne : digits ≠ [])
    (hlt : Numeral.valueFrom 16 0 digits < 0x10000000000000000) :
    (uint64 (utf8 "0x" ++ digits)).1 = UInt64.ofNat (Numeral.valueFrom 16 0 digits) := by
  have hmarked : Marked (utf8 "0x") 16 digits := by
    obtain ⟨c, rest, rfl⟩ := List.exists_cons_of_ne_nil hne
    obtain ⟨d, -, hc⟩ := hdigits c List.mem_cons_self
    exact .hexadecimal (.inl rfl) (Option.isSome_iff_exists.mpr ⟨d, hc⟩) rest
  have hsigned : Signed [] (utf8 "0x" ++ digits) :=
    .none (fun h => absurd (Option.some.inj h) (by decide)) fun h =>
      absurd (Option.some.inj h) (by decide)
  exact uint64_digits hsigned hmarked hdigits hne hlt

theorem Numeral.valueFrom_padLeft (base width : Nat) (s : Bytes) :
    valueFrom base 0 (Bytes.padLeft 0x30 width s) = valueFrom base 0 s := by
  unfold Bytes.padLeft
  induction width - s.length with
  | zero => rfl
  | succ k ih =>
      rw [List.replicate_succ, List.cons_append, valueFrom, List.foldl_cons]
      exact (congrArg (fun n => valueFrom base n _) (Nat.zero_mul base)).trans ih

theorem Numeral.Digits.padLeft {base : Nat} {s : Bytes} (hs : Digits base s) (hpos : 0 < base)
    (width : Nat) : Digits base (Bytes.padLeft 0x30 width s) := by
  intro c hc
  rcases List.mem_append.mp hc with hzero | hin
  · exact ⟨0, hpos, by rw [List.eq_of_mem_replicate hzero]; decide⟩
  · exact hs c hin

/-- The text of an integer variable is read as the integer, in the decimal form and in the
hexadecimal one. -/
theorem int_intText (hex : Bool) (greatest v : Int32) :
    Reading.int (Interp.intText hex greatest v) = v := by
  unfold Interp.intText
  split
  next hshown =>
    have hpos : 0 ≤ v.toInt := by
      have := of_decide_eq_true (Bool.and_eq_true_iff.mp hshown).2
      exact Int32.le_iff_toInt_le.mp this
    have hhi : v.toInt < 2 ^ 31 := v.toInt_lt
    obtain ⟨n, hn⟩ := Int.eq_ofNat_of_zero_le hpos
    have hdigits : Numeral.Digits 16 (Bytes.ofNatHex n) :=
      Bytes.digits_digitsAux (by decide) (by decide) _ _ nofun
    have hvalue : Numeral.valueFrom 16 0 (Bytes.ofNatHex n) = n :=
      Bytes.valueFrom_digitsAux (by decide) (by decide) _ _ _ (Nat.lt_succ_self n)
    have hne : Bytes.ofNatHex n ≠ [] := by
      rcases Nat.eq_zero_or_pos n with rfl | hn
      · decide
      · obtain ⟨d, rest, -, -, heq⟩ : ∃ d rest, 0 < d ∧ d < 16 ∧
            Bytes.ofNatHex n = Bytes.digit true d :: rest :=
          Bytes.head_digitsAux (by decide) (n + 1) n [] (Nat.lt_succ_self n) hn
        exact heq ▸ List.cons_ne_nil _ _
    have hpadded : Numeral.valueFrom 16 0 (Bytes.padLeft 0x30 6 (Bytes.ofNatHex n)) = n :=
      (Numeral.valueFrom_padLeft 16 6 _).trans hvalue
    have hback : Int32.ofInt n = v := by rw [← hn, Int32.ofInt_toInt]
    rw [hn, Int.toNat_natCast]
    unfold Reading.int
    dsimp only
    split
    · rw [uint64_hex (hdigits.padLeft (by decide) 6) (by simp [Bytes.padLeft, hne]) (by omega), hpadded,
        toInt32_ofNat, hback]
    · rw [uint64_hex hdigits hne (by omega), hvalue, toInt32_ofNat, hback]
  next => exact int_printInt v

/-- Integers are read as `strtoul` reads them, and print back. Every text has the parts of one that may
begin with an integer: the digits behind its blanks, sign and mark are read as their word, with the index
behind them, or nothing is read if there are none. The decimal text of an integer is read as the integer,
and so is the hexadecimal text of an integer variable. -/
theorem integers_read_back :
    (∀ s : Bytes, Nonempty (IntegerText s) ∧ ∀ t : IntegerText s,
      (t.digits = [] → uint64 s = (0, 0)) ∧
      (t.digits ≠ [] → (uint64 s).1.toNat = t.word ∧ (uint64 s).2 = t.behind)) ∧
    (∀ i : Int32, Reading.int (Printing.int i) = i) ∧
    (∀ (s : Interp) (id : Ident) (least greatest : Int32) (store : IntStore) (watch : Watch),
      id.role = .intVar least greatest store watch → id.flags.hex = true → 0 ≤ s.intOf store →
      utf8 "0x" <+: s.textOf id ∧ Reading.int (s.textOf id) = s.intOf store) := by
  refine ⟨fun s => ⟨IntegerText.nonempty s, fun t => ⟨fun hnone => ?_, fun hsome => ?_⟩⟩, int_printInt,
    fun s id least greatest store watch hrole hhex hpos => ?_⟩
  · rw [t.uint64_eq, if_pos hnone]
  · rw [t.uint64_eq, if_neg hsome]
    exact ⟨UInt64.toNat_ofNat_of_lt' t.word_lt, rfl⟩
  · have htext : s.textOf id = Interp.intText true greatest (s.intOf store) := by
      rw [Interp.textOf, hrole, hhex]
    rw [htext]
    refine ⟨?_, int_intText true greatest _⟩
    rw [Interp.intText, if_pos (by simpa using hpos)]
    exact List.prefix_append _ _

/-- A negative hexadecimal integer in front of other text. -/
def IntegerText.negative : IntegerText (utf8 " -0x1F;") :=
  ⟨utf8 " ", utf8 "-", utf8 "0x", 16, utf8 "1F", utf8 ";", rfl, rfl, rfl, .minus _,
    .hexadecimal (.inl rfl) rfl _, rfl, rfl⟩

/-- Digits that do not fit into a word. -/
def IntegerText.wide : IntegerText (utf8 "-99999999999999999999") :=
  ⟨[], utf8 "-", [], 10, utf8 "99999999999999999999", [], rfl, rfl, rfl, .minus _,
    .decimal (by decide), rfl, rfl⟩

/-- A sign without digits. -/
def IntegerText.signOnly : IntegerText (utf8 "+") :=
  ⟨[], utf8 "+", [], 10, [], [], rfl, rfl, rfl, .plus _, .decimal (by decide), rfl, rfl⟩

/-- A hexadecimal variable that is printed with six digits. -/
def Ident.colour : Ident where
  name := utf8 "colour"
  role := .intVar 0 0xFFFFFF (.own 0xFF00) .none
  flags := { hex := true }

theorem integers_read_back_examples :
    ((uint64 (utf8 " -0x1F;")).1.toNat = 2 ^ 64 - 31 ∧ (uint64 (utf8 " -0x1F;")).2 = 6) ∧
    ((uint64 (utf8 "-99999999999999999999")).1.toNat = 2 ^ 64 - 1 ∧
      (uint64 (utf8 "-99999999999999999999")).2 = 21) ∧
    uint64 (utf8 "+") = (0, 0) ∧
    (utf8 "0x" <+: Interp.textOf {} .colour ∧ Reading.int (Interp.textOf {} .colour) = 0xFF00) := by
  obtain ⟨hreads, -, hvariables⟩ := integers_read_back
  exact ⟨((hreads _).2 .negative).2 (by decide), ((hreads _).2 .wide).2 (by decide),
    ((hreads _).2 .signOnly).1 rfl, hvariables {} .colour 0 0xFFFFFF (.own 0xFF00) .none rfl rfl (by decide)⟩

end Integers

end ConsoleScript
