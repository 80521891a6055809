import Mathlib.Algebra.Order.Ring.Nat
import ConsoleScript.Proofs.Bytecode.Literals

/-!
Streams of instructions. An instruction whose literal its words can hold is decoded from them to
itself, with the number of words it takes, and so is a whole list of instructions laid out one after
another: no instruction reads a word of the next one. A float in an operand is a whole number of at
most 24 bits, and single precision holds such a number exactly.
-/

namespace ConsoleScript

namespace Single

open Ieee

/-- Whole numbers of at most 24 bits are single-precision numbers: the pattern of one is decoded to
its significand, shifted up to the highest place, and the exponent that shifts it back. -/
theorem decode_round_whole {m : Nat} (hm : 0 < m) (hlt : m < 2 ^ 24) (neg : Bool) :
    single.decode (single.round neg m 0) =
        .finite neg (m * 2 ^ (23 - m.log2)) ((m.log2 : Int) - 23) ∧
      single.round neg m 0 < 2 ^ 32 := by
  have hlog : m.log2 < 24 := (Nat.log2_lt hm.ne').mpr hlt
  have hlow : 2 ^ 23 ≤ m * 2 ^ (23 - m.log2) := by
    have h := Nat.mul_le_mul_right (2 ^ (23 - m.log2)) (Nat.log2_self_le hm.ne')
    rwa [← Nat.pow_add, Nat.add_sub_of_le (by omega)] at h
  have hhigh : m * 2 ^ (23 - m.log2) < 2 ^ 24 := by
    have h := Nat.mul_lt_mul_of_pos_right (Nat.lt_log2_self (n := m))
      (Nat.two_pow_pos (23 - m.log2))
    rwa [← Nat.pow_add, show m.log2 + 1 + (23 - m.log2) = 24 by omega] at h
  have hbits : single.round neg m 0 =
      neg.toNat * 2147483648 + ((m.log2 + 126) * 8388608 + m * 2 ^ (23 - m.log2)) := by
    have hmin : single.minExp = -149 := rfl
    have hinf : single.infinity = 2139095040 := rfl
    have hlast : max single.minExp (0 + ((m.log2 + 1 : Nat) : Int) - (23 + 1 : Nat)) =
        (m.log2 : Int) - 23 := by omega
    have hshift : (0 - ((m.log2 : Int) - 23)).toNat = 23 - m.log2 := by omega
    have hplace : ((m.log2 : Int) - 23 - single.minExp).toNat = m.log2 + 126 := by omega
    have hle : (m.log2 : Int) - 23 ≤ 0 := by omega
    have hsign : (if neg then single.signBit else 0) = neg.toNat * 2147483648 := by
      cases neg <;> rfl
    have hfinite : (m.log2 + 126) * 8388608 + m * 2 ^ (23 - m.log2) ≤ single.infinity := by
      omega
    have hzero : (m == 0) = false := by simpa using hm.ne'
    unfold Format.round
    simp only [show single.fracBits = 23 from rfl, hlast, hshift, hplace, hle, hsign, hzero,
      if_true]
    exact congrArg (neg.toNat * 2147483648 + ·) (Nat.min_eq_right hfinite)
  rw [hbits]
  generalize m * 2 ^ (23 - m.log2) = n at *
  generalize m.log2 = k at *
  have hs : neg.toNat < 2 := by cases neg <;> decide
  generalize hw : neg.toNat * 2147483648 + ((k + 126) * 8388608 + n) = w
  refine ⟨?_, by omega⟩
  have hneg : (w / single.signBit % 2 == 1) = neg := by
    have : w / 2147483648 % 2 = neg.toNat := by omega
    have h : w / single.signBit % 2 = neg.toNat := this
    rw [h]
    cases neg <;> rfl
  have hexp : w / Nat.pow 2 23 % Nat.pow 2 8 = k + 127 := by
    change w / 8388608 % 256 = _
    omega
  have hfrac : Nat.pow 2 23 + w % Nat.pow 2 23 = n := by
    change 8388608 + w % 8388608 = _
    omega
  have hmin : single.minExp + ((k + 127 - 1 : Nat) : Int) = (k : Int) - 23 := by
    have hmin : single.minExp = -149 := rfl
    omega
  have hlast : (k + 127 == Nat.pow 2 8 - 1) = false := by
    change (k + 127 == 255) = false
    exact beq_false_of_ne (by omega)
  unfold Format.decode
  simp only [show single.fracBits = 23 from rfl, show single.expBits = 8 from rfl, hneg, hexp,
    hfrac, hlast, hmin]
  rfl


/-- A whole number of at most 24 bits is read back from the single-precision number. -/
theorem toInt32_ofInt32 {i : Int32} (hi : i.toInt.natAbs < 2 ^ 24) : (ofInt32 i).toInt32 = i := by
  by_cases h0 : i = 0
  · subst h0
    decide
  have hpos : 0 < i.toInt.natAbs := Int.natAbs_pos.mpr fun h => h0 (Int32.toInt_inj.mp h)
  obtain ⟨hdecode, hlt⟩ := decode_round_whole hpos hi (decide (i < 0))
  have hdatum : (ofInt32 i).datum = .finite (decide (i < 0))
      (i.toInt.natAbs * 2 ^ (23 - i.toInt.natAbs.log2)) ((i.toInt.natAbs.log2 : Int) - 23) := by
    unfold datum ofInt32 round
    rw [UInt32.toNat_ofNat', Nat.mod_eq_of_lt hlt, hdecode]
  have hlog : i.toInt.natAbs.log2 < 24 := (Nat.log2_lt hpos.ne').mpr hi
  generalize i.toInt.natAbs.log2 = k at *
  have hwhole : (if 0 ≤ (k : Int) - 23 then
        i.toInt.natAbs * 2 ^ (23 - k) * Nat.pow 2 ((k : Int) - 23).toNat
      else i.toInt.natAbs * 2 ^ (23 - k) / Nat.pow 2 (-((k : Int) - 23)).toNat) =
      i.toInt.natAbs := by
    split
    · rw [show 23 - k = 0 by omega, show ((k : Int) - 23).toNat = 0 by omega]
      simp
    · rw [show (-((k : Int) - 23)).toNat = 23 - k by omega]
      exact Nat.mul_div_cancel _ (Nat.two_pow_pos _)
  have hsign : (if decide (i < 0) = true then -(i.toInt.natAbs : Int) else i.toInt.natAbs) =
      i.toInt := by
    have hneg : i < 0 ↔ i.toInt < 0 := Int32.lt_iff_toInt_lt
    by_cases h : i < 0
    · rw [if_pos (decide_eq_true h)]
      have := hneg.mp h
      omega
    · rw [if_neg (by simpa using h)]
      have := mt hneg.mpr h
      omega
  unfold toInt32
  rw [hdatum]
  simp only [hwhole, hsign]
  have hlow := Int32.le_toInt i
  have hhigh := Int32.toInt_le i
  unfold clipInt32
  rw [if_pos (by simpa using ⟨hlow, hhigh⟩)]
  exact Int32.ofInt_toInt i

end Single

namespace Bytecode

/-- An instruction that its words determine: its literal fits the place it has, and its operand is
the one that belongs to the literal. An instruction without a literal has any operand of 24 bits.
The size is left open, since the words do not depend on it. -/
inductive Instr.IsCanonical : Instr → Prop
  | inlineNull (n : Nat) : IsCanonical ⟨.valInline, .null, inlineArg .null, .null, n⟩
  | inlineInt (i : Int32) (hi : canInlineInt i = true) (n : Nat) :
      IsCanonical ⟨.valInline, .int, inlineArg (.int i), .int i, n⟩
  | inlineFloat (i : Int32) (hi : canInlineInt i = true) (n : Nat) :
      IsCanonical ⟨.valInline, .float, inlineArg (.float (.ofInt32 i)), .float (.ofInt32 i), n⟩
  | inlineText (s : Bytes) (hs : canInlineText s = true) (n : Nat) :
      IsCanonical ⟨.valInline, .text, inlineArg (.text s), .text s, n⟩
  | null (n : Nat) : IsCanonical ⟨.val, .null, 0, .null, n⟩
  | int (i : Int32) (n : Nat) : IsCanonical ⟨.val, .int, 0, .int i, n⟩
  | float (x : Single) (n : Nat) : IsCanonical ⟨.val, .float, 0, .float x, n⟩
  | text (s : Bytes) (hs : s.length < operandLimit) (n : Nat) :
      IsCanonical ⟨.val, .text, UInt32.ofNat s.length, .text s, n⟩
  | view (r : RetTag) (s : Bytes) (hs : s.length < operandLimit) (n : Nat) :
      IsCanonical ⟨.view, r, UInt32.ofNat s.length, .text s, n⟩
  | plain (op : Op) (hop : op.isLiteral = false) (r : RetTag) (arg : UInt32)
      (harg : arg.toNat < operandLimit) (n : Nat) : IsCanonical ⟨op, r, arg, .null, n⟩

/-- An instruction with the number of words it is encoded in as its size. -/
def Instr.sized (i : Instr) : Instr := { i with size := i.encode.length }

theorem Instr.encode_of_not_isLiteral {i : Instr} (h : i.op.isLiteral = false) :
    i.encode = [Word.make i.op i.ret i.arg] := by
  unfold encode
  split <;> first | rfl | simp_all [Op.isLiteral]

private theorem toNat_inlineArg_int (i : Int32) :
    (Instr.inlineArg (.int i)).toNat < operandLimit := by
  unfold Instr.inlineArg operandLimit
  rw [UInt32.toNat_and]
  exact Nat.lt_of_le_of_lt Nat.and_le_right (by decide)

private theorem toNat_inlineArg_text (s : Bytes) :
    (Instr.inlineArg (.text s)).toNat < operandLimit := by
  have hlen : (s.take 3).length ≤ 3 := by simp
  have hlt := toNat_packBytes_lt (Nat.le_succ_of_le hlen)
  exact Nat.lt_of_lt_of_le hlt (Nat.pow_le_pow_right (by decide) hlen)

private theorem inlineArg_ofInt32 {i : Int32} (hi : canInlineInt i = true) :
    Instr.inlineArg (.float (.ofInt32 i)) = Instr.inlineArg (.int i) := by
  have hbound : i.toInt.natAbs < 2 ^ 24 := by
    unfold canInlineInt at hi
    simp only [Bool.and_eq_true, decide_eq_true_eq, Int32.le_iff_toInt_le] at hi
    have hlow : (-0x800000 : Int32).toInt = -8388608 := rfl
    have hhigh : (0x7FFFFF : Int32).toInt = 8388607 := rfl
    omega
  exact congrArg (fun j : Int32 => j.toUInt32 &&& 0xFFFFFF) (Single.toInt32_ofInt32 hbound)

namespace Block

variable {b : Block} {pc : Nat}

/-- An instruction is decoded from its words, whatever stands behind them. -/
theorem Holds.decodes {i : Instr} (hi : i.IsCanonical) (h : b.Holds pc i.encode) :
    decode b.words pc = .ok i.sized := by
  have hinline {r : RetTag} {l : Literal} {n : Nat}
      (hl : (Instr.inlineArg l).toNat < operandLimit)
      (hback : inlineLiteral r (Word.make .valInline r (Instr.inlineArg l)) = l)
      (h : b.Holds pc (Instr.mk .valInline r (Instr.inlineArg l) l n).encode) :
      decode b.words pc = .ok ⟨.valInline, r, Instr.inlineArg l, l, 1⟩ := by
    rw [(reads_inline h).2, hback, Word.arg_make _ _ hl]
  have htext {op : Op} {r : RetTag} {s : Bytes} (hs : s.length < operandLimit)
      (hop : op = .val ∧ r = .text ∨ op = .view)
      (h : b.Holds pc (Word.make op r (UInt32.ofNat s.length) :: packText s)) :
      decode b.words pc =
        .ok ⟨op, r, UInt32.ofNat s.length, .text s,
          (Word.make op r (UInt32.ofNat s.length) :: packText s).length⟩ := by
    have harg : (UInt32.ofNat s.length).toNat < operandLimit :=
      Nat.lt_of_le_of_lt (Nat.mod_le _ _) hs
    rw [(reads_text hs hop h).2, Word.arg_make _ _ harg, List.length_cons, length_packText,
      Nat.add_comm]
  have hzero (op : Op) (r : RetTag) : Word.arg (Word.make op r 0) = 0 :=
    Word.arg_make op r (by decide)
  cases hi with
  | inlineNull n => exact hinline (by decide) rfl h
  | inlineInt i hi n =>
      exact hinline (toNat_inlineArg_int i) (congrArg Literal.int (signedArg_make hi .int)) h
  | inlineFloat i hi n =>
      have harg := inlineArg_ofInt32 hi
      refine hinline (harg ▸ toNat_inlineArg_int i) ?_ h
      rw [harg]
      exact congrArg (Literal.float ∘ Single.ofInt32) (signedArg_make hi .float)
  | inlineText s hs n =>
      refine hinline (toNat_inlineArg_text s) ?_ h
      unfold inlineLiteral
      rw [Word.arg_make _ _ (toNat_inlineArg_text s)]
      exact congrArg Literal.text (unpackInline_packBytes hs)
  | null n =>
      unfold decode
      rw [(holds_cons.mp h).1]
      simp only [Word.op?_make, Word.ret_make, hzero]
      rfl
  | int i n =>
      rw [(reads_number h).2.1 rfl, hzero, Int32.toInt32_toUInt32]
      rfl
  | float x n =>
      rw [(reads_number h).2.2 rfl, hzero]
      rfl
  | text s hs n => exact htext hs (.inl ⟨rfl, rfl⟩) h
  | view r s hs n => exact htext hs (.inr rfl) h
  | plain op hop r arg harg n =>
      unfold Instr.sized
      rw [Instr.encode_of_not_isLiteral hop] at h ⊢
      rw [decode_plain (holds_cons.mp h).1 (Word.op?_make ..) hop, Word.ret_make,
        Word.arg_make _ _ harg]
      rfl

end Block

/-- The next `n` instructions from a position on, and the position behind them. -/
def decodeMany (words : Array UInt32) : (n pc : Nat) → Except DecodeError (List Instr × Nat)
  | 0, pc => .ok ([], pc)
  | n + 1, pc => do
      let i ← decode words pc
      let (more, stop) ← decodeMany words n (pc + i.size)
      return (i :: more, stop)

def encodeMany (is : List Instr) : List UInt32 := is.flatMap Instr.encode

theorem Block.Holds.decodesMany {b : Block} {is : List Instr} (his : ∀ i ∈ is, i.IsCanonical)
    {pc : Nat} (h : b.Holds pc (encodeMany is)) :
    decodeMany b.words is.length pc =
      .ok (is.map Instr.sized, pc + (encodeMany is).length) := by
  induction is generalizing pc with
  | nil => rfl
  | cons i is ih =>
      have hcons : encodeMany (i :: is) = i.encode ++ encodeMany is := List.flatMap_cons
      rw [hcons] at h ⊢
      obtain ⟨hi, his'⟩ := holds_append.mp h
      have hd := hi.decodes (his i (.head _))
      have hmany := ih (fun j hj => his j (.tail _ hj)) his'
      rw [List.length_cons, decodeMany, hd]
      change (do
        let (more, stop) ← decodeMany b.words is.length (pc + i.encode.length)
        return (i.sized :: more, stop)) = _
      rw [hmany, List.length_append, ← Nat.add_assoc]
      rfl

/-- The operand of a decoded instruction is that of its word. -/
theorem arg_of_decode {words : Array UInt32} {pc : Nat} {w : UInt32} {i : Instr}
    (hw : words[pc]? = some w) (hi : decode words pc = .ok i) : i.arg = Word.arg w := by
  have htext {op : Op} (h : (do
      let s ← textAt words (pc + 1) (Word.arg w).toNat
      return Instr.mk op (Word.ret w) (Word.arg w) (.text s) (1 + textWords (Word.arg w).toNat)) =
        Except.ok i) : i.arg = Word.arg w := by
    cases ht : textAt words (pc + 1) (Word.arg w).toNat with
    | error e =>
        rw [ht] at h
        cases h
    | ok s =>
        rw [ht] at h
        cases h
        rfl
  unfold decode at hi
  rw [hw] at hi
  dsimp only at hi
  split at hi
  · cases hi
  · cases hi
    rfl
  · split at hi
    all_goals first | exact htext hi | (cases hi; try rfl)
  · exact htext hi
  · cases hi
    rfl

/-- What the engine reads from a word of a call is what the decoded instruction says. -/
theorem call_of_decode {words : Array UInt32} {pc : Nat} {w : UInt32} {i : Instr}
    (hw : words[pc]? = some w) (hi : decode words pc = .ok i) (hcall : i.op.info.operand = .call) :
    Word.callArgc w = i.argc ∧ Word.callIndex w = i.index := by
  have harg := arg_of_decode hw hi
  unfold Instr.argc Instr.index
  rw [if_pos hcall, harg]
  refine ⟨rfl, ?_⟩
  have h13 : (w >>> 13).toNat = w.toNat / 2 ^ 13 := by
    rw [UInt32.toNat_shiftRight]
    exact Nat.shiftRight_eq_div_pow w.toNat 13
  have h5 : (Word.arg w >>> 5).toNat = (Word.arg w).toNat / 2 ^ 5 := by
    rw [UInt32.toNat_shiftRight]
    exact Nat.shiftRight_eq_div_pow (Word.arg w).toNat 5
  unfold Word.callIndex
  rw [h13, h5, Word.toNat_arg]
  omega

/-- Decoding undoes encoding over whole streams: canonical instructions that are laid out one after
another, behind any words and before any words, are decoded to themselves, with sizes that tile the
words; encoded again, each gives its own words; and of every word of a call, wherever it stands, the
engine reads the same number of arguments and the same index as the decoder. -/
theorem decodeMany_encodeMany {is : List Instr} (his : ∀ i ∈ is, i.IsCanonical)
    (front rest : List UInt32) :
    let words := (front ++ encodeMany is ++ rest).toArray
    ∃ ds, decodeMany words is.length front.length =
        .ok (ds, front.length + (encodeMany is).length) ∧
      ds = is.map Instr.sized ∧ ds.map Instr.encode = is.map Instr.encode ∧
      ∀ (pc : Nat) (w : UInt32) (i : Instr), words[pc]? = some w → decode words pc = .ok i →
        i.op.info.operand = .call → Word.callArgc w = i.argc ∧ Word.callIndex w = i.index := by
  have hholds : (Block.mk [] (front ++ encodeMany is ++ rest).toArray []).Holds front.length
      (encodeMany is) := by
    unfold Block.Holds
    rw [List.append_assoc, List.drop_left]
    exact List.prefix_append ..
  refine ⟨_, hholds.decodesMany his, rfl, ?_, fun pc w i => call_of_decode⟩
  rw [List.map_map]
  rfl

/-- A text in words of its own between a negative number and a call, before a word without an
operation. -/
theorem decodeMany_encodeMany_call :
    let is : List Instr :=
      [.ofInt (-5), ⟨.val, .text, 4, .text (utf8 "quit"), 3⟩, .call .call .int 2 30]
    let words := ([7] ++ encodeMany is ++ [0xFFFFFFFF]).toArray
    (∀ i ∈ is, i.IsCanonical) ∧
      ∃ ds, decodeMany words 3 1 = .ok (ds, 1 + (encodeMany is).length) ∧
        ds = is.map Instr.sized ∧ ds.map Instr.encode = is.map Instr.encode ∧
        ∀ (pc : Nat) (w : UInt32) (i : Instr), words[pc]? = some w → decode words pc = .ok i →
          i.op.info.operand = .call → Word.callArgc w = i.argc ∧ Word.callIndex w = i.index := by
  have his : ∀ i ∈ [Instr.ofInt (-5), ⟨.val, .text, 4, .text (utf8 "quit"), 3⟩,
      .call .call .int 2 30], i.IsCanonical := by
    refine List.forall_mem_cons.mpr ⟨.inlineInt (-5) (by decide) 1, List.forall_mem_cons.mpr
      ⟨.text (utf8 "quit") (by decide) 3, List.forall_mem_cons.mpr
        ⟨.plain .call rfl .int _ (by decide) 1, List.forall_mem_nil _⟩⟩⟩
  exact ⟨his, decodeMany_encodeMany his [7] [0xFFFFFFFF]⟩

end Bytecode

end ConsoleScript
