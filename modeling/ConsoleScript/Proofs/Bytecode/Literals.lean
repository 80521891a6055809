import Mathlib.Algebra.Group.Nat.Defs
import ConsoleScript.Proofs.Bytecode.Words

/-!
The values of literals. A literal that is laid out in words is decoded to itself: whether it fits the
operand or follows in words of its own, numbers keep their value and texts their bytes. Only the sign
of a float that is zero is lost, since the operand has no place for it.
-/

namespace ConsoleScript.Bytecode

namespace Word

theorem arg_make (op : Op) (r : RetTag) {x : UInt32} (hx : x.toNat < operandLimit) :
    arg (make op r x) = x := by
  have h := toNat_arg_make op r hx
  rw [UInt32.ofNat_toNat] at h
  exact UInt32.toNat_inj.mp h

end Word

section Bytes

theorem toNat_packBytes_lt {s : Bytes} (hs : s.length ≤ 4) :
    (packBytes s).toNat < 256 ^ s.length := by
  induction s with
  | nil => exact Nat.one_pos
  | cons b s ih =>
      have hlen : s.length ≤ 3 := Nat.le_of_succ_le_succ hs
      have hb := b.toNat_lt
      have ih := ih (by omega)
      have hmod : (packBytes s).toNat * 256 % 4294967296 ≤ (packBytes s).toNat * 256 := Nat.mod_le _ _
      rw [packBytes, Word.toNat_or_shiftLeft 8 (d := 256) rfl rfl
        (by rwa [UInt8.toNat_toUInt32]), UInt8.toNat_toUInt32, List.length_cons, Nat.pow_succ]
      omega

/-- The lowest byte of a packed text, and the rest of the text above it. -/
theorem unpackBytes_cons {b : UInt8} {s : Bytes} (hs : s.length ≤ 3) (n : Nat) :
    unpackBytes (n + 1) (packBytes (b :: s)) = b :: unpackBytes n (packBytes s) := by
  have hb := b.toNat_lt
  have hlt := toNat_packBytes_lt (Nat.le_succ_of_le hs)
  have hpow : 256 ^ s.length ≤ 256 ^ 3 := Nat.pow_le_pow_right (by decide) hs
  have hpack : (packBytes (b :: s)).toNat = (packBytes s).toNat * 256 + b.toNat := by
    rw [packBytes, Word.toNat_or_shiftLeft 8 (d := 256) rfl rfl
      (by rwa [UInt8.toNat_toUInt32]), UInt8.toNat_toUInt32]
    omega
  rw [unpackBytes]
  congr 1
  · apply UInt8.toNat_inj.mp
    rw [UInt32.toNat_toUInt8, hpack]
    omega
  · congr 1
    apply UInt32.toNat_inj.mp
    rw [UInt32.toNat_shiftRight, hpack]
    change _ >>> 8 = _
    rw [Nat.shiftRight_eq_div_pow]
    omega

theorem unpackBytes_packBytes {s : Bytes} (hs : s.length ≤ 4) :
    unpackBytes s.length (packBytes s) = s := by
  induction s with
  | nil => rfl
  | cons b s ih =>
      rw [List.length_cons, unpackBytes_cons (Nat.le_of_succ_le_succ hs),
        ih (Nat.le_of_succ_le hs)]

/-- Beyond its bytes a packed text has zeros. -/
theorem takeWhile_unpackBytes {s : Bytes} (hs : s.all (· != 0) = true) {n : Nat}
    (hlen : s.length ≤ n) (hn : n ≤ 3) :
    (unpackBytes n (packBytes s)).takeWhile (· != 0) = s := by
  induction s generalizing n with
  | nil =>
      cases n with
      | zero => rfl
      | succ n => rfl
  | cons b s ih =>
      obtain ⟨n, rfl⟩ : ∃ k, n = k + 1 := ⟨n - 1, by simp at hlen; omega⟩
      simp only [List.all_cons, Bool.and_eq_true] at hs
      have hlen : s.length ≤ n := Nat.le_of_succ_le_succ hlen
      rw [unpackBytes_cons (by omega), List.takeWhile_cons, if_pos hs.1, ih hs.2 hlen (by omega)]

theorem unpackInline_packBytes {s : Bytes} (hs : canInlineText s = true) :
    unpackInline (packBytes (s.take 3)) = s := by
  unfold canInlineText at hs
  simp only [Bool.and_eq_true, decide_eq_true_eq] at hs
  rw [List.take_of_length_le hs.1]
  exact takeWhile_unpackBytes hs.2 hs.1 (Nat.le_refl 3)

private theorem unpackText_packText (s : Bytes) : unpackText s.length (packText s) = s := by
  fun_induction packText s with
  | case1 a b c d s ih =>
      have hfour : unpackBytes 4 (packBytes [a, b, c, d]) = [a, b, c, d] :=
        unpackBytes_packBytes (s := [a, b, c, d]) (Nat.le_refl 4)
      simp only [List.length_cons, unpackText, hfour, ih, List.cons_append, List.nil_append]
  | case2 s hs =>
      have hl : s.length < 4 := by
        rcases s with _ | ⟨a, _ | ⟨b, _ | ⟨c, _ | ⟨d, s⟩⟩⟩⟩ <;>
          first | exact absurd rfl (hs _ _ _ _ _) | simp
      have hone : unpackText s.length [packBytes s] = unpackBytes s.length (packBytes s) := by
        generalize s.length = n at hl
        rcases n with _ | _ | _ | _ | n
        · rfl
        · rfl
        · rfl
        · rfl
        · omega
      rw [hone, unpackBytes_packBytes (by omega)]

end Bytes

/-- An integer that fits the operand is read back with its sign. -/
theorem signedArg_make {i : Int32} (hi : canInlineInt i = true) (r : RetTag) :
    signedArg (Word.make .valInline r (i.toUInt32 &&& 0xFFFFFF)) = i := by
  unfold canInlineInt at hi
  simp only [Bool.and_eq_true, decide_eq_true_eq, Int32.le_iff_toInt_le] at hi
  have hlow : (-0x800000 : Int32).toInt = -8388608 := rfl
  have hhigh : (0x7FFFFF : Int32).toInt = 8388607 := rfl
  rw [hlow, hhigh] at hi
  have hx : (i.toUInt32 &&& 0xFFFFFF).toNat = i.toUInt32.toNat % 16777216 := by
    rw [UInt32.toNat_and]
    exact Nat.and_two_pow_sub_one_eq_mod _ 24
  have ho := Word.toNat_code_lt .valInline
  have hr := Word.toNat_retCode_lt r
  have hw := Word.toNat_make .valInline r (i.toUInt32 &&& 0xFFFFFF)
  rw [hx] at hw
  generalize hword : Word.make .valInline r (i.toUInt32 &&& 0xFFFFFF) = w at hw
  have hshift : (signedArg w).toInt = w.toInt32.toInt >>> (8 : Nat) := by
    unfold signedArg
    rw [← Int32.toInt_toBitVec, Int32.toBitVec_shiftRight]
    exact BitVec.toInt_sshiftRight
  -- A signed number differs from the unsigned one of its bits by a multiple of the modulus.
  have hsigned (j : Int32) : j.toInt % 4294967296 = j.toUInt32.toNat ∧ j.toInt < 2147483648 := by
    have hj := j.toUInt32.toNat_lt
    have hj' : j.toInt = (j.toUInt32.toNat : Int).bmod 4294967296 := by
      rw [← Int32.toInt_toBitVec, BitVec.toInt_eq_toNat_bmod]
      rfl
    rw [hj', Int.bmod_def]
    split <;> omega
  have hlow := hsigned i
  have hhigh := hsigned w.toInt32
  have hlt := i.toUInt32.toNat_lt
  have hbits : w.toInt32.toUInt32 = w := rfl
  have hrange := Int32.le_toInt w.toInt32
  rw [hbits, hw] at hhigh
  apply Int32.toInt_inj.mp
  rw [hshift, Int.shiftRight_eq_div_pow]
  generalize i.toUInt32.toNat = n at *
  omega

/-- Floats that are equal have the same bits, unless they are the two zeros. -/
theorem eq_or_zeros_of_eq {x y : Single} (h : x.eq y = true) :
    x = y ∨ x = .zero ∧ y = Single.zero.neg ∨ x = Single.zero.neg ∧ y = .zero := by
  have hmagnitude (z : Single) : (z.bits &&& 0x7FFFFFFF).toNat = z.bits.toNat % 2147483648 := by
    rw [UInt32.toNat_and]
    exact Nat.and_two_pow_sub_one_eq_mod _ 31
  have hbits {z : Single} {n : UInt32} (hz : z.bits.toNat = n.toNat) : z = ⟨n⟩ :=
    congrArg Single.mk (UInt32.toNat_inj.mp hz)
  have hsign (z : Single) : (z.bits < 0x80000000) = (z.bits.toNat < 2147483648) := rfl
  unfold Single.eq at h
  rw [Bool.and_eq_true, beq_iff_eq] at h
  have hkey := h.2
  unfold Single.key at hkey
  simp only [hmagnitude, hsign] at hkey
  have hx := x.bits.toNat_lt
  have hy := y.bits.toNat_lt
  by_cases hxy : x.bits.toNat = y.bits.toNat
  · exact .inl (hbits hxy)
  by_cases hneg : x.bits.toNat < 2147483648
  · have hzero : x.bits.toNat = 0 ∧ y.bits.toNat = 2147483648 := by
      rw [if_pos hneg] at hkey
      split at hkey <;> omega
    exact .inr (.inl ⟨hbits hzero.1, hbits hzero.2⟩)
  · have hzero : x.bits.toNat = 2147483648 ∧ y.bits.toNat = 0 := by
      rw [if_neg hneg] at hkey
      split at hkey <;> omega
    exact .inr (.inr ⟨hbits hzero.1, hbits hzero.2⟩)

/-- A literal as it is read back: it is the same, but that a float which is zero has no sign. -/
def Literal.Alike : Literal → Literal → Prop
  | .float x, .float y => x = y ∨ x = Single.zero.neg ∧ y = .zero
  | l, l' => l = l'

theorem Literal.Alike.refl (l : Literal) : l.Alike l := by
  cases l <;> first | rfl | exact .inl rfl

namespace Block

variable {b : Block} {pc : Nat}

/-- At a position stands the literal of an instruction: it is decoded there. -/
structure Reads (b : Block) (pc : Nat) (i j : Instr) : Prop where
  word : ∃ w, b.words[pc]? = some w ∧ Word.op? w = some i.op
  decodes : decode b.words pc = .ok j
  size : j.size = i.encode.length
  lit : i.lit.Alike j.lit

private theorem textAt_holds {s : Bytes} (h : b.Holds pc (packText s)) :
    textAt b.words pc s.length = .ok s := by
  have hne : packText s ≠ [] := by
    intro h0
    have := length_packText s
    rw [h0] at this
    cases this
  have hs := h.size hne
  rw [length_packText] at hs
  have hwords : (b.words.extract pc (pc + textWords s.length)).toList = packText s := by
    obtain ⟨rest, hrest⟩ := h
    rw [Array.toList_extract, List.extract_eq_take_drop, Nat.add_sub_cancel_left, ← hrest,
      ← length_packText, List.take_left]
  rw [textAt, hwords, unpackText_packText]
  exact if_pos hs

/-- The text of an instruction that has it in words of its own. -/
theorem reads_text {op : Op} {r : RetTag} {s : Bytes} (hs : s.length < operandLimit)
    (hop : op = .val ∧ r = .text ∨ op = .view)
    (h : b.Holds pc (Word.make op r (UInt32.ofNat s.length) :: packText s)) :
    (∃ w, b.words[pc]? = some w ∧ Word.op? w = some op) ∧
      decode b.words pc = .ok ⟨op, r, Word.arg (Word.make op r (UInt32.ofNat s.length)), .text s,
        1 + textWords s.length⟩ := by
  obtain ⟨hw, ht⟩ := holds_cons.mp h
  refine ⟨⟨_, hw, Word.op?_make ..⟩, ?_⟩
  unfold decode
  rw [hw]
  simp only [Word.op?_make, Word.ret_make]
  rcases hop with ⟨rfl, rfl⟩ | rfl <;>
  · simp only [Word.toNat_arg_make _ _ hs, textAt_holds ht]
    rfl

/-- The literal in an operand. -/
def inlineLiteral (r : RetTag) (w : UInt32) : Literal :=
  match r with
  | .null => .null
  | .int => .int (signedArg w)
  | .float => .float (Single.ofInt32 (signedArg w))
  | .text => .text (unpackInline (Word.arg w))

theorem reads_inline {r : RetTag} {x : UInt32} (h : b.Holds pc [Word.make .valInline r x]) :
    (∃ w, b.words[pc]? = some w ∧ Word.op? w = some .valInline) ∧
      decode b.words pc = .ok ⟨.valInline, r, Word.arg (Word.make .valInline r x),
        inlineLiteral r (Word.make .valInline r x), 1⟩ := by
  have hw := (holds_cons.mp h).1
  refine ⟨⟨_, hw, Word.op?_make ..⟩, ?_⟩
  unfold decode
  rw [hw]
  simp only [Word.op?_make, Word.ret_make]
  rfl

/-- The literal of an instruction that has a number in a word of its own. -/
theorem reads_number {r : RetTag} {v : UInt32} (h : b.Holds pc [Word.make .val r 0, v]) :
    (∃ w, b.words[pc]? = some w ∧ Word.op? w = some .val) ∧
      (r = .int → decode b.words pc =
        .ok ⟨.val, r, Word.arg (Word.make .val r 0), .int v.toInt32, 2⟩) ∧
      (r = .float → decode b.words pc =
        .ok ⟨.val, r, Word.arg (Word.make .val r 0), .float ⟨v⟩, 2⟩) := by
  obtain ⟨hw, hv⟩ := holds_cons.mp h
  obtain ⟨hv, -⟩ := holds_cons.mp hv
  refine ⟨⟨_, hw, Word.op?_make ..⟩, ?_, ?_⟩ <;>
  · rintro rfl
    unfold decode
    rw [hw]
    simp only [Word.op?_make, Word.ret_make, hv]

/-- A literal that is laid out is read back. -/
theorem Holds.reads {i : Instr} (hi : i.IsLiteral) (h : b.Holds pc i.encode) :
    ∃ j, b.Reads pc i j ∧ j.op = i.op := by
  cases hi with
  | null =>
      obtain ⟨hw, hd⟩ := reads_inline h
      exact ⟨_, ⟨hw, hd, rfl, .refl _⟩, rfl⟩
  | int n =>
      unfold Instr.ofInt at h ⊢
      split at h <;> rename_i hn
      · obtain ⟨hw, hd⟩ := reads_inline h
        rw [if_pos hn]
        refine ⟨_, ⟨hw, hd, rfl, ?_⟩, rfl⟩
        exact congrArg Literal.int (signedArg_make hn .int).symm
      · obtain ⟨hw, hd, -⟩ := reads_number h
        rw [if_neg hn]
        refine ⟨_, ⟨hw, hd rfl, rfl, ?_⟩, rfl⟩
        exact congrArg Literal.int (Int32.toInt32_toUInt32 n).symm
  | float x =>
      unfold Instr.ofFloat at h ⊢
      split at h <;> rename_i hx
      · obtain ⟨hw, hd⟩ := reads_inline h
        rw [if_pos hx]
        unfold canInlineFloat at hx
        rw [Bool.and_eq_true] at hx
        refine ⟨_, ⟨hw, hd, rfl, ?_⟩, rfl⟩
        have hback := signedArg_make hx.2 .float
        have hsame : x.eq (Single.ofInt32 x.toInt32) = true := hx.1
        rcases eq_or_zeros_of_eq hsame with h | ⟨rfl, h⟩ | h
        · exact .inl (h.trans (congrArg Single.ofInt32 hback.symm))
        · exact absurd h (by decide)
        · exact .inr ⟨h.1, (congrArg Single.ofInt32 hback).trans h.2⟩
      · obtain ⟨hw, -, hd⟩ := reads_number h
        rw [if_neg hx]
        exact ⟨_, ⟨hw, hd rfl, rfl, .inl rfl⟩, rfl⟩
  | text s hs =>
      unfold Instr.ofText at h ⊢
      split at h <;> rename_i hc
      · obtain ⟨hw, hd⟩ := reads_inline h
        rw [if_pos hc]
        refine ⟨_, ⟨hw, hd, rfl, ?_⟩, rfl⟩
        have hlen : (s.take 3).length ≤ 3 := List.length_take_le 3 s
        have hlt := toNat_packBytes_lt (Nat.le_succ_of_le hlen)
        have hpow : 256 ^ (s.take 3).length ≤ 256 ^ 3 := Nat.pow_le_pow_right (by decide) hlen
        have harg : Word.arg (Word.make .valInline .text (packBytes (s.take 3))) =
            packBytes (s.take 3) := Word.arg_make _ _ (Nat.lt_of_lt_of_le hlt hpow)
        have hback := unpackInline_packBytes hc
        rw [← harg] at hback
        exact congrArg Literal.text hback.symm
      · obtain ⟨hw, hd⟩ := reads_text hs (.inl ⟨rfl, rfl⟩) h
        rw [if_neg hc]
        refine ⟨_, ⟨hw, hd, ?_, .refl _⟩, rfl⟩
        simp only [Instr.encode, List.length_cons, length_packText]
        omega
  | view s hs =>
      obtain ⟨hw, hd⟩ := reads_text hs (.inr rfl) h
      refine ⟨_, ⟨hw, hd, ?_, .refl _⟩, rfl⟩
      simp only [Instr.ofView, Instr.encode, List.length_cons, length_packText]
      omega

end Block

/-- Literals are read from the words behind their operation. -/
theorem Instr.IsLiteral.op {i : Instr} (hi : i.IsLiteral) :
    i.op = .valInline ∨ i.op = .val ∨ i.op = .view := by
  cases hi with
  | null => exact .inl rfl
  | int n =>
      unfold Instr.ofInt
      split
      · exact .inl rfl
      · exact .inr (.inl rfl)
  | float x =>
      unfold Instr.ofFloat
      split
      · exact .inl rfl
      · exact .inr (.inl rfl)
  | text s h =>
      unfold Instr.ofText
      split
      · exact .inl rfl
      · exact .inr (.inl rfl)
  | view s h => exact .inr (.inr rfl)

end ConsoleScript.Bytecode
