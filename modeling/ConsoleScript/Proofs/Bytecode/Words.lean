import ConsoleScript.Bytecode.Block

/-!
Reading back what was laid out in words. The fields of a word are those it was made of, as long as
its operand has at most 24 bits; a literal instruction is decoded with the number of words that it
was encoded in.
-/

namespace ConsoleScript.Bytecode

/-- Operands of a word are below this number. -/
def operandLimit : Nat := 16777216

/-- Identifier indices of a call are below this number. -/
def callIndexLimit : Nat := 524288

/-- The operations that push what is laid out behind them or in their operand. -/
def Op.isLiteral : Op → Bool
  | .val | .valInline | .view => true
  | _ => false

/-- The literals that code is made of. -/
inductive Instr.IsLiteral : Instr → Prop
  | null : IsLiteral (.plain .valInline)
  | int (n : Int32) : IsLiteral (.ofInt n)
  | float (x : Single) : IsLiteral (.ofFloat x)
  | text (s : Bytes) (h : s.length < operandLimit) : IsLiteral (.ofText s)
  | view (s : Bytes) (h : s.length < operandLimit) : IsLiteral (.ofView s)

namespace Word

theorem toNat_or_shiftLeft {a b : UInt32} (k : UInt32) {n d : Nat} (hk : k.toNat % 32 = n)
    (hd : Nat.pow 2 n = d) (hb : b.toNat < d) :
    (b ||| (a <<< k)).toNat = a.toNat * d % 4294967296 + b.toNat := by
  have hn : n ≤ 32 := by omega
  have hp : 2 ^ n = d := hd
  have hs : 4294967296 = d * 2 ^ (32 - n) := by rw [← hp, ← Nat.pow_add, Nat.add_sub_of_le hn]
  have hm : a.toNat * d % 4294967296 = (a.toNat % 2 ^ (32 - n)) <<< n := by
    rw [hs, Nat.mul_comm a.toNat, Nat.mul_mod_mul_left, Nat.shiftLeft_eq, hp, Nat.mul_comm]
  rw [UInt32.toNat_or, UInt32.toNat_shiftLeft, hk, Nat.shiftLeft_eq, hp, hm]
  rw [Nat.shiftLeft_add_eq_or_of_lt (hp ▸ hb), Nat.or_comm, ← hm]

private theorem toNat_pack {op ret arg : UInt32} (ho : op.toNat < 64) (hr : ret.toNat < 4) :
    (pack op ret arg).toNat = arg.toNat * 256 % 4294967296 + (ret.toNat * 64 + op.toNat) := by
  have hlow : (op ||| (ret <<< 6)).toNat = ret.toNat * 64 + op.toNat := by
    rw [toNat_or_shiftLeft 6 (d := 64) rfl rfl (by omega)]
    omega
  rw [pack, toNat_or_shiftLeft 8 (d := 256) rfl rfl (by omega), hlow]

private theorem toNat_opCode (w : UInt32) : (opCode w).toNat = w.toNat % 64 := by
  rw [opCode, UInt32.toNat_and]
  exact Nat.and_two_pow_sub_one_eq_mod w.toNat 6

theorem toNat_arg (w : UInt32) : (arg w).toNat = w.toNat / 256 := by
  rw [arg, UInt32.toNat_shiftRight]
  exact Nat.shiftRight_eq_div_pow w.toNat 8

theorem toNat_code_lt (op : Op) : op.code.toNat < 63 := by
  cases op <;> decide

theorem toNat_retCode_lt (r : RetTag) : r.code.toNat < 4 := by
  cases r <;> decide

private theorem ofCode?_code (op : Op) : Op.ofCode? op.code = some op := by
  cases op <;> rfl

theorem toNat_make (op : Op) (r : RetTag) (x : UInt32) :
    (make op r x).toNat = x.toNat * 256 % 4294967296 + (r.code.toNat * 64 + op.code.toNat) :=
  toNat_pack (Nat.lt_succ_of_lt (toNat_code_lt op)) (toNat_retCode_lt r)

@[simp] theorem op?_make (op : Op) (r : RetTag) (x : UInt32) : op? (make op r x) = some op := by
  have hc : opCode (make op r x) = op.code := by
    have ho := toNat_code_lt op
    apply UInt32.toNat_inj.mp
    rw [toNat_opCode, toNat_make]
    omega
  rw [op?, hc, ofCode?_code]

@[simp] theorem ret_make (op : Op) (r : RetTag) (x : UInt32) : ret (make op r x) = r := by
  have ho := toNat_code_lt op
  have hr := toNat_retCode_lt r
  have hs : (make op r x >>> 6).toNat = x.toNat * 256 % 4294967296 / 64 + r.code.toNat := by
    rw [UInt32.toNat_shiftRight, toNat_make]
    change (_ >>> 6) = _
    rw [Nat.shiftRight_eq_div_pow]
    omega
  have hl : (make op r x >>> 6) &&& 3 = r.code := by
    apply UInt32.toNat_inj.mp
    rw [UInt32.toNat_and, hs]
    refine (Nat.and_two_pow_sub_one_eq_mod _ 2).trans ?_
    omega
  rw [ret, RetTag.ofCode, hl]
  cases r <;> rfl

theorem toNat_arg_make (op : Op) (r : RetTag) {n : Nat} (hn : n < operandLimit) :
    (arg (make op r (UInt32.ofNat n))).toNat = n := by
  have ho := toNat_code_lt op
  have hr := toNat_retCode_lt r
  unfold operandLimit at hn
  rw [toNat_arg, toNat_make, UInt32.toNat_ofNat']
  omega

private theorem toNat_callOperand (argc : Nat) {index : Nat} (hi : index < 134217728) :
    (callOperand (UInt32.ofNat argc) (UInt32.ofNat index)).toNat = index * 32 + argc % 32 := by
  have hm : (UInt32.ofNat argc &&& (0x1F : UInt32)).toNat = argc % 32 := by
    rw [UInt32.toNat_and, UInt32.toNat_ofNat']
    refine (Nat.and_two_pow_sub_one_eq_mod _ 5).trans ?_
    omega
  rw [callOperand, toNat_or_shiftLeft 5 (d := 32) rfl rfl (by omega), hm, UInt32.toNat_ofNat']
  omega

/-- The number of arguments of a call is read back, whatever its index. -/
theorem callArgc_make (op : Op) (r : RetTag) {n i : Nat} (ha : n < 32) :
    callArgc (make op r (callOperand (UInt32.ofNat n) (UInt32.ofNat i))) = n := by
  have ho := toNat_code_lt op
  have hr := toNat_retCode_lt r
  have hm : (UInt32.ofNat n &&& (0x1F : UInt32)).toNat = n := by
    rw [UInt32.toNat_and, UInt32.toNat_ofNat']
    refine (Nat.and_two_pow_sub_one_eq_mod _ 5).trans ?_
    omega
  rw [callArgc, UInt32.toNat_and, UInt32.toNat_shiftRight, toNat_make, callOperand,
    toNat_or_shiftLeft 5 (d := 32) rfl rfl (by omega), hm]
  refine (Nat.and_two_pow_sub_one_eq_mod _ 5).trans ?_
  change (_ >>> 8) % 32 = _
  rw [Nat.shiftRight_eq_div_pow]
  omega

theorem callIndex_make (op : Op) (r : RetTag) (n : Nat) {i : Nat} (hi : i < callIndexLimit) :
    callIndex (make op r (callOperand (UInt32.ofNat n) (UInt32.ofNat i))) = i := by
  have ho := toNat_code_lt op
  have hr := toNat_retCode_lt r
  unfold callIndexLimit at hi
  rw [callIndex, UInt32.toNat_shiftRight, toNat_make, toNat_callOperand n (by omega)]
  change (_ >>> 13) = _
  rw [Nat.shiftRight_eq_div_pow]
  omega

end Word

namespace Block

/-- A block has given words from a position on. -/
def Holds (b : Block) (pc : Nat) (ws : List UInt32) : Prop := ws <+: b.words.toList.drop pc

instance (b : Block) (pc : Nat) (ws : List UInt32) : Decidable (b.Holds pc ws) :=
  inferInstanceAs (Decidable (ws <+: b.words.toList.drop pc))

variable {b : Block} {pc : Nat} {w : UInt32} {ws ws' : List UInt32}

theorem holds_append :
    b.Holds pc (ws ++ ws') ↔ b.Holds pc ws ∧ b.Holds (pc + ws.length) ws' := by
  unfold Holds
  constructor
  · rintro ⟨rest, h⟩
    refine ⟨⟨ws' ++ rest, by rw [← h, List.append_assoc]⟩, rest, ?_⟩
    rw [← List.drop_drop, ← h, List.append_assoc, List.drop_left]
  · rintro ⟨⟨rest, h⟩, ⟨rest', h'⟩⟩
    rw [← List.drop_drop, ← h, List.drop_left] at h'
    exact ⟨rest', by rw [List.append_assoc, h', h]⟩

theorem holds_cons : b.Holds pc (w :: ws) ↔ b.words[pc]? = some w ∧ b.Holds (pc + 1) ws := by
  rw [← List.singleton_append, holds_append]
  refine and_congr_left fun _ => ?_
  unfold Holds
  rw [List.singleton_prefix_iff_head?_eq_some, List.head?_drop, Array.getElem?_toList]

theorem Holds.size (h : b.Holds pc ws) (hne : ws ≠ []) : pc + ws.length ≤ b.size := by
  have hl := h.length_le
  have hp := List.length_pos_iff.mpr hne
  have hs : b.size = b.words.toList.length := rfl
  rw [List.length_drop] at hl
  omega

end Block

theorem decode_plain {words : Array UInt32} {pc : Nat} {w : UInt32} {op : Op}
    (h : words[pc]? = some w) (ho : Word.op? w = some op) (hop : op.isLiteral = false) :
    decode words pc = .ok ⟨op, Word.ret w, Word.arg w, .null, 1⟩ := by
  unfold decode
  rw [h]
  dsimp only
  rw [ho]
  cases op <;> first | rfl | cases hop

theorem length_packText (s : Bytes) : (packText s).length = textWords s.length := by
  fun_induction packText s with
  | case1 a b c d s ih =>
      simp only [List.length_cons, ih, textWords]
      omega
  | case2 s hs =>
      have hl : s.length < 4 := by
        rcases s with _ | ⟨a, _ | ⟨b, _ | ⟨c, _ | ⟨d, s⟩⟩⟩⟩ <;>
          first | exact absurd rfl (hs _ _ _ _ _) | simp
      simp only [List.length_singleton, textWords]
      omega

namespace Block

/-- The positions at which the instructions of a block begin, read one after another from its first
word on. -/
inductive Begins (b : Block) : Nat → Prop
  | first : Begins b 0
  | next {pc : Nat} {i : Instr} (h : Begins b pc) (hd : decode b.words pc = .ok i) :
      Begins b (pc + i.size)

/-- At a position stands a literal of `n` words, which can be decoded. -/
def LiteralAt (b : Block) (pc n : Nat) : Prop :=
  ∃ w i, b.words[pc]? = some w ∧ Word.op? w = some i.op ∧ i.op.isLiteral = true ∧
    decode b.words pc = .ok i ∧ i.size = n

variable {b : Block} {pc : Nat}

private theorem literalAt_inline (r : RetTag) (x : UInt32)
    (h : b.words[pc]? = some (Word.make .valInline r x)) : b.LiteralAt pc 1 := by
  have hd : ∃ lit, decode b.words pc =
      .ok ⟨.valInline, r, Word.arg (Word.make .valInline r x), lit, 1⟩ := by
    unfold decode
    rw [h]
    simp only [Word.op?_make, Word.ret_make]
    exact ⟨_, rfl⟩
  obtain ⟨lit, hd⟩ := hd
  exact ⟨_, _, h, Word.op?_make .valInline r x, rfl, hd, rfl⟩

private theorem textAt_packText {s : Bytes} (h : b.Holds pc (packText s)) :
    ∃ t, textAt b.words pc s.length = .ok t := by
  have hs := h.size (by intro h0; have := length_packText s; rw [h0] at this; cases this)
  rw [length_packText] at hs
  exact ⟨_, if_pos hs⟩

private theorem literalAt_text {op : Op} (r : RetTag) {s : Bytes} (hs : s.length < operandLimit)
    (hop : op = .val ∧ r = .text ∨ op = .view)
    (h : b.Holds pc (Word.make op r (UInt32.ofNat s.length) :: packText s)) :
    b.LiteralAt pc (1 + textWords s.length) := by
  obtain ⟨hw, ht⟩ := holds_cons.mp h
  obtain ⟨t, ht⟩ := textAt_packText ht
  have hlit : op.isLiteral = true := by
    rcases hop with ⟨rfl, -⟩ | rfl <;> rfl
  refine ⟨_, ⟨op, r, Word.arg (Word.make op r (UInt32.ofNat s.length)), .text t,
    1 + textWords s.length⟩, hw, Word.op?_make op r _, hlit, ?_, rfl⟩
  unfold decode
  rw [hw]
  simp only [Word.op?_make, Word.ret_make]
  rcases hop with ⟨rfl, rfl⟩ | rfl <;>
  · simp only [Word.toNat_arg_make _ _ hs, ht]
    rfl

/-- A literal that is laid out is read back with its length. -/
theorem Holds.literalAt {i : Instr} (hi : i.IsLiteral) (h : b.Holds pc i.encode) :
    b.LiteralAt pc i.encode.length := by
  have hnumber (r : RetTag) (v : UInt32) (hr : r = .int ∨ r = .float)
      (h : b.Holds pc [Word.make .val r 0, v]) : b.LiteralAt pc 2 := by
    obtain ⟨hw, hv⟩ := holds_cons.mp h
    obtain ⟨hv, -⟩ := holds_cons.mp hv
    have hd : ∃ lit, decode b.words pc = .ok ⟨.val, r, Word.arg (Word.make .val r 0), lit, 2⟩ := by
      unfold decode
      rw [hw]
      rcases hr with rfl | rfl <;>
      · simp only [Word.op?_make, Word.ret_make, hv]
        exact ⟨_, rfl⟩
    obtain ⟨lit, hd⟩ := hd
    exact ⟨_, _, hw, Word.op?_make .val r 0, rfl, hd, rfl⟩
  cases hi with
  | null => exact literalAt_inline _ _ (holds_cons.mp h).1
  | int n =>
      unfold Instr.ofInt at h ⊢
      split at h <;> rename_i hn
      · rw [if_pos hn]
        exact literalAt_inline _ _ (holds_cons.mp h).1
      · rw [if_neg hn]
        exact hnumber _ _ (.inl rfl) h
  | float x =>
      unfold Instr.ofFloat at h ⊢
      split at h <;> rename_i hx
      · rw [if_pos hx]
        exact literalAt_inline _ _ (holds_cons.mp h).1
      · rw [if_neg hx]
        exact hnumber _ _ (.inr rfl) h
  | text s hs =>
      unfold Instr.ofText at h ⊢
      split at h <;> rename_i hc
      · rw [if_pos hc]
        exact literalAt_inline _ _ (holds_cons.mp h).1
      · rw [if_neg hc]
        have hl : (Word.make .val .text (UInt32.ofNat s.length) :: packText s).length =
            1 + textWords s.length := by rw [List.length_cons, length_packText, Nat.add_comm]
        exact hl ▸ literalAt_text .text hs (.inl ⟨rfl, rfl⟩) h
  | view s hs =>
      have hl : (Word.make .view .null (UInt32.ofNat s.length) :: packText s).length =
          1 + textWords s.length := by rw [List.length_cons, length_packText, Nat.add_comm]
      exact hl ▸ literalAt_text .null hs (.inr rfl) h

end Block

end ConsoleScript.Bytecode
