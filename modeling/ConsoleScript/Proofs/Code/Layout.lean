import ConsoleScript.Proofs.Code.Typing

/-!
Code in words. From a position of a block, code can be run up to an exit if every word on the way is
the beginning of an admitted instruction, whichever way conditional jumps go. Typed code that is laid
out in a block can be run, as long as the lengths, counts and indices in it fit their fields.
-/

namespace ConsoleScript

open Bytecode

/-- The jumps on a condition. -/
def Bytecode.Op.isBranch : Op → Bool
  | .jumpTrue | .jumpFalse | .jumpResultTrue | .jumpResultFalse => true
  | _ => false

/-- The code of a block at position `pc` can be run with `h` operands, and ends with the exit before
position `e`. -/
inductive Runnable (r : Rigour) (t : Table) (b : Block) : (pc h e : Nat) → Prop
  | exit {w : UInt32} {pc h : Nat} (hw : b.words[pc]? = some w) (ho : Word.op? w = some .exit) :
      Runnable r t b pc h (pc + 1)
  | plain {w : UInt32} {op : Op} {pc k l h m e : Nat} (hw : b.words[pc]? = some w)
      (ho : Word.op? w = some op) (hi : Plain r t op (Word.arg w).toNat k l)
      (hm : r.Moves k l h m) (hr : Runnable r t b (pc + 1) m e) : Runnable r t b pc h e
  | call {w : UInt32} {op : Op} {pc h m e : Nat} (hw : b.words[pc]? = some w)
      (ho : Word.op? w = some op) (hi : Call r t op (Word.callArgc w) (Word.callIndex w))
      (hm : r.Moves (Word.callArgc w) 0 h m) (hr : Runnable r t b (pc + 1) m e) :
      Runnable r t b pc h e
  | shadow {w : UInt32} {pc h m e : Nat} (hw : b.words[pc]? = some w)
      (ho : Word.op? w = some .local) (hm : r.Moves (Word.arg w).toNat 0 h m)
      (hr : Runnable r t b (pc + 1) m e) : Runnable r t b pc h e
  | literal {pc n h m e : Nat} (hl : b.LiteralAt pc (n + 1)) (hm : r.Moves 0 1 h m)
      (hr : Runnable r t b (pc + (n + 1)) m e) : Runnable r t b pc h e
  | block {w : UInt32} {pc h m e : Nat} (hw : b.words[pc]? = some w)
      (ho : Word.op? w = some .block)
      (hb : Runnable r t b (pc + 2) 0 (pc + 1 + (Word.arg w).toNat)) (hm : r.Moves 0 1 h m)
      (hr : Runnable r t b (pc + 1 + (Word.arg w).toNat) m e) : Runnable r t b pc h e
  | enter {w : UInt32} {pc q h m e : Nat} (hw : b.words[pc]? = some w)
      (ho : Word.op? w = some .enter) (hb : Runnable r t b (pc + 1) 0 q) (hm : r.Moves 0 1 h m)
      (hr : Runnable r t b q m e) : Runnable r t b pc h e
  | enterResult {w : UInt32} {pc q h e : Nat} (hw : b.words[pc]? = some w)
      (ho : Word.op? w = some .enterResult) (hb : Runnable r t b (pc + 1) 0 q)
      (hr : Runnable r t b q h e) : Runnable r t b pc h e
  | jump {w : UInt32} {pc h e : Nat} (hw : b.words[pc]? = some w) (ho : Word.op? w = some .jump)
      (hr : Runnable r t b (pc + 1 + (Word.arg w).toNat) h e) : Runnable r t b pc h e
  | branch {w : UInt32} {op : Op} {pc h m e : Nat} (hw : b.words[pc]? = some w)
      (ho : Word.op? w = some op) (hc : op.isBranch = true) (hm : r.Moves 1 0 h m)
      (hr : Runnable r t b (pc + 1) m e)
      (hj : Runnable r t b (pc + 1 + (Word.arg w).toNat) m e) : Runnable r t b pc h e

variable {r : Rigour} {t t' : Table} {b : Block}

theorem Runnable.mono {pc h e : Nat} (h0 : Runnable r t b pc h e) (ht : t.Extends r t') :
    Runnable r t' b pc h e := by
  induction h0 with
  | exit hw ho => exact .exit hw ho
  | plain hw ho hi hm _ ih => exact .plain hw ho (hi.mono ht) hm ih
  | call hw ho hi hm _ ih => exact .call hw ho (hi.mono ht) hm ih
  | shadow hw ho hm _ ih => exact .shadow hw ho hm ih
  | literal hl hm _ ih => exact .literal hl hm ih
  | block hw ho _ hm _ ihb ih => exact .block hw ho ihb hm ih
  | enter hw ho _ hm _ ihb ih => exact .enter hw ho ihb hm ih
  | enterResult hw ho _ _ ihb ih => exact .enterResult hw ho ihb ih
  | jump hw ho _ ih => exact .jump hw ho ih
  | branch hw ho hc hm _ _ ihr ihj => exact .branch hw ho hc hm ihr ihj

/-- Where only the layout counts, code can be run with any number of operands. -/
theorem Runnable.heights (hl : r = .layout) {pc h e : Nat} (h0 : Runnable r t b pc h e) (k : Nat) :
    Runnable r t b pc k e := by
  have hm {a b c d : Nat} : r.Moves a b c d := .inl hl
  induction h0 generalizing k with
  | exit hw ho => exact .exit hw ho
  | plain hw ho hi _ _ ih => exact .plain hw ho hi hm (ih 0)
  | call hw ho hi _ _ ih => exact .call hw ho hi hm (ih 0)
  | shadow hw ho _ _ ih => exact .shadow hw ho hm (ih 0)
  | literal hl _ _ ih => exact .literal hl hm (ih 0)
  | block hw ho hb _ _ _ ih => exact .block hw ho hb hm (ih 0)
  | enter hw ho hb _ _ _ ih => exact .enter hw ho hb hm (ih 0)
  | enterResult hw ho hb _ _ ih => exact .enterResult hw ho hb (ih k)
  | jump hw ho _ ih => exact .jump hw ho (ih k)
  | branch hw ho hc _ _ _ ihr ihj => exact .branch hw ho hc hm (ihr 0) (ihj 0)

theorem Block.lt_size {pc : Nat} {w : UInt32} (h : b.words[pc]? = some w) : pc < b.size :=
  (Array.getElem?_eq_some_iff.mp h).1

theorem Runnable.bounds {pc h e : Nat} (h0 : Runnable r t b pc h e) : pc < e ∧ e ≤ b.size := by
  induction h0 with
  | exit hw _ => exact ⟨Nat.lt_succ_self _, Block.lt_size hw⟩
  | plain _ _ _ _ _ ih | call _ _ _ _ _ ih | shadow _ _ _ _ ih | literal _ _ _ ih
  | block _ _ _ _ _ _ ih | jump _ _ _ ih | branch _ _ _ _ _ _ ih _ => omega
  | enter _ _ _ _ _ ihb ih | enterResult _ _ _ _ ihb ih => omega

namespace Compile

mutual

/-- No piece inside shadows names with code between them and the shadowing. -/
def Piece.uncrowded : Piece → Bool
  | .instr _ => true
  | .block body | .spill body _ | .whenTrue body | .whenFalse body => Code.uncrowded body
  | .shadow names surplus _ => Code.uncrowded names && surplus.isEmpty
  | .choice yes no => Code.uncrowded yes && Code.uncrowded no
  | .link _ body next => Code.uncrowded body && next.uncrowded

/-- No piece of the code shadows names with code between them and the shadowing. -/
def Code.uncrowded : List Piece → Bool
  | [] => true
  | p :: rest => p.uncrowded && Code.uncrowded rest

end

end Compile

/-- What has to fit the fields of words does. -/
structure Fits (r : Rigour) (t : Table) (b : Block) : Prop where
  block : b.size < operandLimit
  table : t.size ≤ operandLimit
  calls : r ≠ .layout → t.size ≤ callIndexLimit

theorem encode_plain {op : Op} {n k l : Nat} (h : Plain r t op n k l) (ret : RetTag) :
    (Instr.plain op ret n).encode = [Word.make op ret (UInt32.ofNat n)] := by
  cases h <;> rfl

theorem encode_length_ne_zero (i : Instr) : i.encode.length ≠ 0 := by
  unfold Instr.encode
  split <;> (try split) <;> simp

theorem encode_call {op : Op} {n i : Nat} (h : Call r t op n i) (ret : RetTag) :
    (Instr.call op ret n i).encode =
      [Word.make op ret (Word.callOperand (UInt32.ofNat n) (UInt32.ofNat i))] := by
  cases h <;> rfl

/-- A call is admitted with what is read back of it: where number and index matter, they fit their
fields. -/
theorem Call.readBack {op : Op} {n i : Nat} (h : Call r t op n i) (hf : Fits r t b) (ret : RetTag) :
    let w := Word.make op ret (Word.callOperand (UInt32.ofNat n) (UInt32.ofNat i))
    Call r t op (Word.callArgc w) (Word.callIndex w) ∧ (r ≠ .layout → Word.callArgc w = n) := by
  have hargc (hn : n ≤ maxArgs) := Word.callArgc_make op ret (i := i)
    (Nat.lt_of_le_of_lt hn (by decide : maxArgs < 32))
  by_cases hl : r = .layout
  · refine ⟨?_, absurd hl⟩
    cases h with
    | comAll _ _ => exact .comAll (absurd hl) (absurd hl)
    | comJoined _ _ => exact .comJoined (absurd hl) (absurd hl)
    | call hn _ => exact .call ((hargc hn).symm ▸ hn) (absurd hl)
    | callArg hn _ => exact .callArg ((hargc hn).symm ▸ hn) (absurd hl)
  · have hform {f : Form} (hf' : t.form? r i = some f) : i < callIndexLimit :=
      Nat.lt_of_lt_of_le (Table.lt_size_of_form? hf') (hf.calls hl)
    have hfields : n ≤ maxArgs ∧ i < callIndexLimit := by
      cases h with
      | comAll hn h | comJoined hn h =>
          obtain ⟨f, hf', -⟩ := h hl
          exact ⟨hn hl, hform hf'⟩
      | call hn h => exact ⟨hn, hform (h hl)⟩
      | callArg hn h => exact ⟨hn, Nat.lt_of_lt_of_le (h hl) (by decide)⟩
    have hindex := Word.callIndex_make op ret n hfields.2
    dsimp only
    rw [hargc hfields.1, hindex]
    exact ⟨h, fun _ => rfl⟩

namespace Compile

theorem words_ne_nil (p : Piece) (pc : Nat) : p.words pc ≠ [] := by
  cases p with
  | instr i =>
      simp only [Piece.words]
      exact fun h => encode_length_ne_zero i (by rw [h, List.length_nil])
  | _ => simp [Piece.words]

/-- Taking a piece off laid-out code: the block holds the piece, and what follows it can be run. -/
private theorem takePiece {p : Piece} {rest : Code} {m h' pc e : Nat}
    (ih : (r = .room → Code.uncrowded rest = true) → ∀ {pc e : Nat},
      b.Holds pc (Code.words pc rest) →
      Runnable r t b (pc + (Code.words pc rest).length) h' e → Runnable r t b pc m e)
    (hu : r = .room → Code.uncrowded (p :: rest) = true)
    (hw : b.Holds pc (Code.words pc (p :: rest)))
    (hr : Runnable r t b (pc + (Code.words pc (p :: rest)).length) h' e) :
    (r = .room → p.uncrowded = true) ∧ b.Holds pc (p.words pc) ∧
      Runnable r t b (pc + (p.words pc).length) m e := by
  simp only [Code.words, Block.holds_append, List.length_append, ← Nat.add_assoc] at hw hr
  obtain ⟨hp, hw⟩ := hw
  exact ⟨fun hroom => (Bool.and_eq_true_iff.mp (hu hroom)).1, hp,
    ih (fun hroom => (Bool.and_eq_true_iff.mp (hu hroom)).2) hw hr⟩

/-- Typed code that a block holds can be run, if what follows it can. -/
theorem Typed.runnable {code : Code} {h h' : Nat} (ht : Typed r t code h h') (hf : Fits r t b)
    (hu : r = .room → Code.uncrowded code = true) {pc e : Nat}
    (hw : b.Holds pc (Code.words pc code))
    (hr : Runnable r t b (pc + (Code.words pc code).length) h' e) : Runnable r t b pc h e := by
  have hfits {pc n : Nat} {w : UInt32} (hx : b.words[pc]? = some w) (hn : n ≤ pc + 1) :
      n < operandLimit := by
    have := Block.lt_size hx
    have := hf.block
    omega
  induction ht generalizing pc e with
  | nil hh =>
      rcases hh with hl | rfl
      · exact hr.heights hl _
      · exact hr
  | plain hi hm _ ih =>
      obtain ⟨-, hp, hk⟩ := takePiece ih hu hw hr
      simp only [Piece.words, encode_plain hi, List.length_singleton] at hp hk
      refine .plain (Block.holds_cons.mp hp).1 (Word.op?_make _ _ _) ?_ hm hk
      rw [Word.toNat_arg_make _ _ (hi.operand_lt hf.table)]
      exact hi
  | call hi hm _ ih =>
      obtain ⟨-, hp, hk⟩ := takePiece ih hu hw hr
      simp only [Piece.words, encode_call hi, List.length_singleton] at hp hk
      obtain ⟨hi, ha⟩ := hi.readBack hf _
      refine .call (Block.holds_cons.mp hp).1 (Word.op?_make _ _ _) hi ?_ hk
      by_cases hl : r = .layout
      · exact .inl hl
      · rw [ha hl]
        exact hm
  | literal hi hm _ ih =>
      obtain ⟨-, hp, hk⟩ := takePiece ih hu hw hr
      simp only [Piece.words] at hp hk
      have hl := hp.literalAt hi
      obtain ⟨n, hn⟩ := Nat.exists_eq_succ_of_ne_zero (encode_length_ne_zero _)
      rw [hn] at hl hk
      exact .literal hl hm hk
  | @block body rest h m h' _ hm _ ihb ih =>
      obtain ⟨hu, hp, hk⟩ := takePiece ih hu hw hr
      simp only [Piece.words, Block.holds_cons, Block.holds_append, List.length_cons,
        List.length_append, List.length_nil, List.cons_append] at hp hk
      obtain ⟨hp, -, hb, hx, -⟩ := hp
      have hbody := ihb hu hb (.exit hx (Word.op?_make _ _ _))
      generalize (Code.words (pc + 2) body).length = n at *
      have hn := Word.toNat_arg_make .block .null (hfits hx (n := n + 2) (by omega))
      refine .block hp (Word.op?_make _ _ _) ?_ hm ?_ <;> rw [hn]
      · exact (by omega : pc + 1 + 1 + n + 1 = pc + 1 + (n + 2)) ▸ hbody
      · exact (by omega : pc + (n + (0 + 1) + 1 + 1) = pc + 1 + (n + 2)) ▸ hk
  | @spill body rest ret h m h' _ hm _ ihb ih =>
      obtain ⟨hu, hp, hk⟩ := takePiece ih hu hw hr
      simp only [Piece.words, List.cons_append, Block.holds_cons, Block.holds_append,
        List.length_cons, List.length_append, List.length_nil] at hp hk
      obtain ⟨hp, hb, hx, -⟩ := hp
      have hbody := ihb hu hb (.exit hx (Word.op?_make _ _ _))
      generalize (Code.words (pc + 1) body).length = n at *
      refine .enter hp (Word.op?_make _ _ _) hbody hm ?_
      exact (by omega : pc + (n + (0 + 1) + 1) = pc + 1 + n + 1) ▸ hk
  | @shadow names surplus rest n h m m' h' hk _ hs hm _ ihn ihs ih =>
      obtain ⟨hu, hp, hq⟩ := takePiece ih hu hw hr
      simp only [Piece.words, Block.holds_cons, Block.holds_append, List.length_cons,
        List.length_append, List.length_nil] at hp hq
      obtain ⟨⟨hnames, hsurplus⟩, hl, -⟩ := hp
      have hn := Word.toNat_arg_make .local .null
        (Nat.lt_of_le_of_lt hk (by decide : maxArgs < operandLimit))
      rw [← Nat.add_assoc] at hl
      have hlocal : Runnable r t b (pc + (Code.words pc names).length +
          (Code.words (pc + (Code.words pc names).length) surplus).length) m e :=
        .shadow hl (Word.op?_make _ _ _) (hn.symm ▸ hm) (by simpa only [Nat.add_assoc] using hq)
      have hbehind : Runnable r t b (pc + (Code.words pc names).length) m e := by
        by_cases hroom : r = .room
        · have hnone : surplus = [] := List.isEmpty_iff.mp (Bool.and_eq_true_iff.mp (hu hroom)).2
          subst hnone
          exact hlocal
        · exact ihs hroom (fun h => absurd h hroom) hsurplus hlocal
      exact ihn (fun h => (Bool.and_eq_true_iff.mp (hu h)).1) hnames hbehind
  | @whenTrue body rest h m h' _ hm _ ihb ih =>
      obtain ⟨hu, hp, hk⟩ := takePiece ih hu hw hr
      simp only [Piece.words, Block.holds_cons, Block.holds_append, List.length_cons,
        List.length_append, List.length_nil, List.cons_append] at hp hk
      obtain ⟨hp, he, hb, hx, -⟩ := hp
      have hbody := ihb hu hb (.exit hx (Word.op?_make _ _ _))
      generalize (Code.words (pc + 2) body).length = n at *
      have hn := Word.toNat_arg_make .jumpFalse .null (hfits hx (n := n + 2) (by omega))
      have hk := (by omega : pc + (n + (0 + 1) + 1 + 1) = pc + 1 + 1 + n + 1) ▸ hk
      refine .branch hp (Word.op?_make _ _ _) rfl hm
        (.enterResult he (Word.op?_make _ _ _) hbody hk) ?_
      rw [hn]
      exact (by omega : pc + 1 + 1 + n + 1 = pc + 1 + (n + 2)) ▸ hk
  | @whenFalse body rest h m h' _ h0 hm _ ihb ih =>
      obtain ⟨hu, hp, hk⟩ := takePiece ih hu hw hr
      simp only [Piece.words, Block.holds_cons, Block.holds_append, List.length_cons,
        List.length_append, List.length_nil, List.cons_append] at hp hk
      obtain ⟨hnull, hp, he, hb, hx, -⟩ := hp
      have hbody := ihb hu hb (.exit hx (Word.op?_make _ _ _))
      generalize (Code.words (pc + 3) body).length = n at *
      have hn := Word.toNat_arg_make .jumpTrue .null (hfits hx (n := n + 2) (by omega))
      have hk := (by omega : pc + (n + (0 + 1) + 1 + 1 + 1) = pc + 1 + 1 + 1 + n + 1) ▸ hk
      refine .plain hnull (Word.op?_make _ _ _) .null h0
        (.branch hp (Word.op?_make _ _ _) rfl hm
          (.enterResult he (Word.op?_make _ _ _) hbody hk) ?_)
      rw [hn]
      exact (by omega : pc + 1 + 1 + 1 + n + 1 = pc + 1 + 1 + (n + 2)) ▸ hk
  | @choice yes no rest h m h' _ _ hm _ ihy ihn ih =>
      obtain ⟨hu, hp, hk⟩ := takePiece ih hu hw hr
      simp only [Piece.words, Block.holds_cons, Block.holds_append, List.length_cons,
        List.length_append, List.length_nil, List.cons_append, List.append_assoc] at hp hk
      obtain ⟨hp, he, hb, hx, hj, he', hb', hx', -⟩ := hp
      have hyes := ihy (fun h => (Bool.and_eq_true_iff.mp (hu h)).1) hb
        (.exit hx (Word.op?_make _ _ _))
      have hat : pc + 1 + 1 + (Code.words (pc + 2) yes).length + 1 + 1 + 1 =
          pc + (Code.words (pc + 2) yes).length + 5 := by omega
      rw [hat] at hb' hx'
      have hno := ihn (fun h => (Bool.and_eq_true_iff.mp (hu h)).2) hb'
        (.exit hx' (Word.op?_make _ _ _))
      generalize (Code.words (pc + (Code.words (pc + 2) yes).length + 5) no).length = n' at *
      generalize (Code.words (pc + 2) yes).length = n at *
      have hn := Word.toNat_arg_make .jumpFalse .null (hfits hj (n := n + 3) (by omega))
      have hn' := Word.toNat_arg_make .jump .null (hfits hx' (n := n' + 2) (by omega))
      have hk := (by omega : pc + (n + (n' + (0 + 1) + 1 + 1 + 1) + 1 + 1) = pc + n + 5 + n' + 1) ▸ hk
      have hsecond : Runnable r t b (pc + 1 + (n + 3)) m e :=
        (by omega : pc + 1 + 1 + n + 1 + 1 = pc + 1 + (n + 3)) ▸
          .enterResult he' (Word.op?_make _ _ _) (hat.symm ▸ hno) hk
      refine .branch hp (Word.op?_make _ _ _) rfl hm
        (.enterResult he (Word.op?_make _ _ _) hyes (.jump hj (Word.op?_make _ _ _) ?_)) ?_
      · rw [hn']
        exact (by omega : pc + n + 5 + n' + 1 = pc + 1 + 1 + n + 1 + 1 + (n' + 2)) ▸ hk
      · rw [hn]
        exact hsecond
  | @link op body rest next h m h' ho _ hm hpush _ _ ihb ihn ih =>
      obtain ⟨hu, hp, hk⟩ := takePiece ih hu hw hr
      simp only [Piece.words, Block.holds_cons, Block.holds_append, List.length_cons,
        List.length_append, List.cons_append] at hp hk
      obtain ⟨hp, he, hb, hx, hnext⟩ := hp
      have hbody := ihb (fun h => (Bool.and_eq_true_iff.mp (hu h)).1) hb
        (.exit hx (Word.op?_make _ _ _))
      have hat : pc + 1 + 1 + (Code.words (pc + 2) body).length + 1 =
          pc + (Code.words (pc + 2) body).length + 3 := by omega
      rw [hat] at hnext
      have hlast := hnext.size (words_ne_nil next _)
      have hw' : Code.words (pc + (Code.words (pc + 2) body).length + 3) [next] =
          next.words (pc + (Code.words (pc + 2) body).length + 3) := List.append_nil _
      have hrun := @ihn
        (fun h => Bool.and_eq_true_iff.mpr ⟨(Bool.and_eq_true_iff.mp (hu h)).2, rfl⟩) _ e
        (hw' ▸ hnext)
      rw [hw'] at hrun
      generalize (next.words (pc + (Code.words (pc + 2) body).length + 3)).length = n' at *
      generalize (Code.words (pc + 2) body).length = n at *
      have hn := Word.toNat_arg_make op .null (n := n + 2 + n')
        (Nat.lt_of_le_of_lt (by omega) hf.block)
      have hk := (by omega : pc + (n + (n' + 1) + 1 + 1) = pc + n + 3 + n') ▸ hk
      refine .branch hp (Word.op?_make _ _ _) (by rcases ho with rfl | rfl <;> rfl) hm
        (.enter he (Word.op?_make _ _ _) hbody hpush (hat.symm ▸ hrun hk)) ?_
      rw [hn]
      exact (by omega : pc + n + 3 + n' = pc + 1 + (n + 2 + n')) ▸ hk

theorem holds_toBlock (name : Bytes) (code : Code) :
    (toBlock name code).Holds 1 (Code.words 1 code ++ [Word.make .exit .null 0]) := by
  unfold Block.Holds toBlock
  simp

theorem Typed.runnable_toBlock {code : Code} (ht : Typed r t code 0 0) {name : Bytes}
    (hf : Fits r t (toBlock name code)) (hu : r = .room → Code.uncrowded code = true) :
    ∃ e, Runnable r t (toBlock name code) 1 0 e := by
  obtain ⟨hcode, hx⟩ := Block.holds_append.mp (holds_toBlock name code)
  exact ⟨_, ht.runnable hf hu hcode (.exit (Block.holds_cons.mp hx).1 (Word.op?_make _ _ _))⟩

end Compile

end ConsoleScript
