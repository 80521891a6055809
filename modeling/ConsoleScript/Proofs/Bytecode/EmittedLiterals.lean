import ConsoleScript.Proofs.Bytecode.Literals

/-!
What is read back of an emitted literal. The operand of a header has 24 bits, and two literals do not
survive it: the float zero with a sign, which is taken for a whole number that fits the operand, and
a text whose length does not fit, of which only so many bytes are read as the lowest 24 bits of its
length say. The rest of such a text is left to be read as instructions. Every other literal is read
back as it was emitted, up to the end of the block, in the short form as well as in the long one.
-/

namespace ConsoleScript.Bytecode

section Prefixes

private theorem unpackBytes_take {s : Bytes} (hs : s.length ≤ 4) {n : Nat} (hn : n ≤ s.length) :
    unpackBytes n (packBytes s) = s.take n := by
  induction s generalizing n with
  | nil =>
      obtain rfl : n = 0 := Nat.le_zero.mp hn
      rfl
  | cons c s ih =>
      cases n with
      | zero => rfl
      | succ n =>
          rw [unpackBytes_cons (Nat.le_of_succ_le_succ hs), ih (Nat.le_of_succ_le hs)
            (Nat.le_of_succ_le_succ hn), List.take_succ_cons]

private theorem unpackText_of_lt {n : Nat} (hn : n < 4) (w : UInt32) (ws : List UInt32) :
    unpackText n (w :: ws) = unpackBytes n w := by
  rcases n with _ | _ | _ | _ | n
  · rfl
  · rfl
  · rfl
  · rfl
  · omega

/-- The first bytes of a packed text are in as many of its first words as they take themselves. -/
theorem unpackText_take (s : Bytes) {n : Nat} (hn : n ≤ s.length) :
    unpackText n ((packText s).take (textWords n)) = s.take n := by
  have hone {m : Nat} (hm : m < 4) : textWords m = 1 := by
    unfold textWords
    omega
  fun_induction packText s generalizing n with
  | case1 a b c d s ih =>
      by_cases hfour : n < 4
      · rw [hone hfour, List.take_succ_cons, unpackText_of_lt hfour,
          unpackBytes_take (s := [a, b, c, d]) (Nat.le_refl 4) (Nat.le_of_lt hfour)]
        exact (List.take_append_of_le_length
          (show n ≤ [a, b, c, d].length from Nat.le_of_lt hfour)).symm
      · obtain ⟨m, rfl⟩ := Nat.exists_eq_add_of_le' (Nat.le_of_not_lt hfour)
        have hwords : textWords (m + 4) = textWords m + 1 := by
          unfold textWords
          omega
        have hword : unpackBytes 4 (packBytes [a, b, c, d]) = [a, b, c, d] :=
          unpackBytes_packBytes (s := [a, b, c, d]) (Nat.le_refl 4)
        rw [hwords, List.take_succ_cons, unpackText, hword, ih (by simpa using hn)]
        rfl
  | case2 s hs =>
      have hshort : s.length < 4 := by
        rcases s with _ | ⟨a, _ | ⟨b, _ | ⟨c, _ | ⟨d, s⟩⟩⟩⟩ <;>
          first | exact absurd rfl (hs _ _ _ _ _) | simp
      have hlt : n < 4 := Nat.lt_of_le_of_lt hn hshort
      rw [hone hlt, List.take_succ_cons, unpackText_of_lt hlt,
        unpackBytes_take (Nat.le_of_lt hshort) hn]

end Prefixes

theorem Word.toNat_arg_make_mod (op : Op) (r : RetTag) (n : Nat) :
    (arg (make op r (UInt32.ofNat n))).toNat = n % operandLimit := by
  have ho := toNat_code_lt op
  have hr := toNat_retCode_lt r
  unfold operandLimit
  rw [toNat_arg, toNat_make, UInt32.toNat_ofNat']
  omega

namespace Block

/-- The part of a text that is read back: as many bytes as fit the operand of its header say. -/
def readPart (s : Bytes) : Bytes := s.take (s.length % operandLimit)

private theorem readPart_eq_iff {s : Bytes} : readPart s = s ↔ s.length < operandLimit := by
  have hpos : 0 < operandLimit := by decide
  constructor
  · intro h
    have hlen := congrArg List.length h
    rw [readPart, List.length_take] at hlen
    have hmod := Nat.mod_lt s.length hpos
    omega
  · intro h
    rw [readPart, Nat.mod_eq_of_lt h]
    exact List.take_length

variable {b : Block} {pc : Nat}

private theorem textAt_take {s : Bytes} (h : b.Holds pc (packText s)) {n : Nat}
    (hn : n ≤ s.length) :
    textAt b.words pc n = .ok (s.take n) := by
  have hne : packText s ≠ [] := by
    intro h0
    have := length_packText s
    rw [h0] at this
    cases this
  have hwords : textWords n ≤ textWords s.length :=
    Nat.succ_le_succ (Nat.div_le_div_right hn)
  have hsize := h.size hne
  rw [length_packText] at hsize
  have hextract : (b.words.extract pc (pc + textWords n)).toList =
      (packText s).take (textWords n) := by
    obtain ⟨rest, hrest⟩ := h
    rw [Array.toList_extract, List.extract_eq_take_drop, Nat.add_sub_cancel_left, ← hrest,
      List.take_append_of_le_length (length_packText s ▸ hwords)]
  rw [textAt, hextract, unpackText_take s hn]
  exact if_pos (Nat.le_trans (Nat.add_le_add_left hwords pc) hsize)

/-- What is read of a text of any length that stands in words of its own. -/
theorem decode_text {op : Op} {r : RetTag} {s : Bytes} (hop : op = .val ∧ r = .text ∨ op = .view)
    (h : b.Holds pc (Word.make op r (UInt32.ofNat s.length) :: packText s)) :
    decode b.words pc = .ok ⟨op, r, Word.arg (Word.make op r (UInt32.ofNat s.length)),
      .text (readPart s), 1 + textWords (readPart s).length⟩ := by
  obtain ⟨hw, ht⟩ := holds_cons.mp h
  have hn : s.length % operandLimit ≤ s.length := Nat.mod_le _ _
  have hlen : (readPart s).length = s.length % operandLimit :=
    List.length_take.trans (Nat.min_eq_left hn)
  have hread := textAt_take ht hn
  unfold decode
  rw [hw]
  simp only [Word.op?_make, Word.ret_make, hlen]
  rcases hop with ⟨rfl, rfl⟩ | rfl <;>
  · simp only [Word.toNat_arg_make_mod, hread]
    rfl

theorem holds_emitInstr (b : Block) (i : Instr) : (b.emitInstr i).Holds b.size i.encode := by
  have hlist : (b.emitInstr i).words.toList = b.words.toList ++ i.encode := by simp [emitInstr]
  have hsize : b.size = b.words.toList.length := rfl
  have hdrop : (b.emitInstr i).words.toList.drop b.size = i.encode := by
    rw [hlist, hsize, List.drop_left]
  exact ⟨[], (List.append_nil _).trans hdrop.symm⟩

theorem size_emitInstr (b : Block) (i : Instr) :
    (b.emitInstr i).size = b.size + i.encode.length := by
  simp [size, emitInstr]

/-- What an instruction has appended is read as a literal, with the operation of the instruction and
up to the end of the block. -/
def Emits (b : Block) (i : Instr) (l : Literal) : Prop :=
  ∃ j, decode (b.emitInstr i).words b.size = .ok j ∧ j.op = i.op ∧ j.lit = l ∧
    b.size + j.size = (b.emitInstr i).size

theorem emits_alike (b : Block) {i : Instr} (hi : i.IsLiteral) :
    ∃ l, b.Emits i l ∧ i.lit.Alike l := by
  obtain ⟨j, hj, hop⟩ := (b.holds_emitInstr i).reads hi
  refine ⟨j.lit, ⟨j, hj.decodes, hop, rfl, ?_⟩, hj.lit⟩
  rw [hj.size, size_emitInstr]

theorem Emits.unique {i : Instr} {l l' : Literal} (h : b.Emits i l) (h' : b.Emits i l') :
    l = l' := by
  obtain ⟨j, hj, -, rfl, -⟩ := h
  obtain ⟨j', hj', -, rfl, -⟩ := h'
  rw [hj] at hj'
  cases hj'
  rfl

private theorem emits_int (b : Block) (n : Int32) : b.Emits (.ofInt n) (.int n) := by
  obtain ⟨l, hl, halike⟩ := b.emits_alike (.int n)
  have hlit : (Instr.ofInt n).lit = .int n := by
    unfold Instr.ofInt
    split <;> rfl
  rw [hlit] at halike
  exact (show Literal.int n = l from halike) ▸ hl

/-- The zero with a sign is emitted as the whole number zero. -/
theorem emits_negativeZero (b : Block) :
    b.Emits (.ofFloat Single.zero.neg) (.float .zero) := by
  have hinline : Instr.ofFloat Single.zero.neg =
      ⟨.valInline, .float, 0, .float Single.zero.neg, 1⟩ := by decide
  have hword : (Instr.ofFloat Single.zero.neg).encode = [Word.make .valInline .float 0] := by
    decide
  have hzero : inlineLiteral .float (Word.make .valInline .float 0) = .float .zero := by decide
  have hholds := b.holds_emitInstr (.ofFloat Single.zero.neg)
  rw [hword] at hholds
  refine ⟨_, (reads_inline hholds).2, ?_, hzero, ?_⟩
  · rw [hinline]
  · rw [size_emitInstr, hword]
    rfl

private theorem emits_float (b : Block) {x : Single} (hx : x ≠ Single.zero.neg) :
    b.Emits (.ofFloat x) (.float x) := by
  obtain ⟨l, hl, halike⟩ := b.emits_alike (.float x)
  have hlit : (Instr.ofFloat x).lit = .float x := by
    unfold Instr.ofFloat
    split <;> rfl
  rw [hlit] at halike
  cases l with
  | float y =>
      obtain rfl | ⟨h, -⟩ := (show x = y ∨ x = Single.zero.neg ∧ y = .zero from halike)
      · exact hl
      · exact absurd h hx
  | null => cases halike
  | int n => cases halike
  | text s => cases halike

/-- A text that stands in words of its own is read back exactly if its length fits the operand. Of a
longer one only the part that its header accounts for is read. -/
theorem emits_words {i : Instr} {op : Op} {r : RetTag} {s : Bytes}
    (hop : op = .val ∧ r = .text ∨ op = .view) (hi : i.op = op)
    (hwords : i.encode = Word.make op r (UInt32.ofNat s.length) :: packText s) :
    b.Emits i (.text s) ↔ s.length < operandLimit := by
  have hholds := b.holds_emitInstr i
  rw [hwords] at hholds
  have hdecode := decode_text hop hholds
  constructor
  · rintro ⟨j, hj, -, hlit, -⟩
    rw [hdecode] at hj
    cases hj
    exact readPart_eq_iff.mp (Literal.text.inj hlit)
  · intro hs
    have hpart := readPart_eq_iff.mpr hs
    rw [hpart] at hdecode
    refine ⟨_, hdecode, hi.symm, rfl, ?_⟩
    rw [size_emitInstr, hwords, List.length_cons, length_packText, Nat.add_comm 1]

private theorem emits_text (b : Block) (s : Bytes) :
    b.Emits (.ofText s) (.text s) ↔ s.length < operandLimit := by
  by_cases hs : s.length < operandLimit
  · obtain ⟨l, hl, halike⟩ := b.emits_alike (.text s hs)
    have hlit : (Instr.ofText s).lit = .text s := by
      unfold Instr.ofText
      split <;> rfl
    rw [hlit] at halike
    exact iff_of_true ((show Literal.text s = l from halike) ▸ hl) hs
  · have hlong : canInlineText s = false := by
      have : operandLimit ≤ s.length := Nat.le_of_not_lt hs
      unfold operandLimit at this
      unfold canInlineText
      rw [decide_eq_false (by omega), Bool.false_and]
    refine emits_words (.inl ⟨rfl, rfl⟩) ?_ ?_ <;>
    · unfold Instr.ofText
      rw [hlong]
      rfl

private theorem emits_view (b : Block) (s : Bytes) :
    b.Emits (.ofView s) (.text s) ↔ s.length < operandLimit :=
  emits_words (.inr rfl) rfl rfl

/-- Emitted literals are read back. Whatever the block, what an integer has appended is decoded to
that integer and ends with the block; so is a float, exactly if it is not the zero with a sign, of
which the other zero is read; and so is a text, as a literal or as a view, exactly if it is shorter
than the limit of the operand. -/
theorem emitted_literals_decode (b : Block) :
    (∀ n : Int32, b.Emits (.ofInt n) (.int n)) ∧
      (∀ x : Single, b.Emits (.ofFloat x) (.float x) ↔ x ≠ Single.zero.neg) ∧
      b.Emits (.ofFloat Single.zero.neg) (.float .zero) ∧
      (∀ s : Bytes, b.Emits (.ofText s) (.text s) ↔ s.length < operandLimit) ∧
      ∀ s : Bytes, b.Emits (.ofView s) (.text s) ↔ s.length < operandLimit := by
  refine ⟨b.emits_int, fun x => ⟨?_, b.emits_float⟩, b.emits_negativeZero, b.emits_text,
    b.emits_view⟩
  rintro h rfl
  have hzero := h.unique b.emits_negativeZero
  revert hzero
  decide

end Block

end ConsoleScript.Bytecode
