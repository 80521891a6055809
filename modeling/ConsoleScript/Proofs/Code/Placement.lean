import ConsoleScript.Proofs.Code.Layout

/-!
Where code stands in a block. Code that is laid out stands between two positions, and so does every
body in it; the words around a body, its header and its exit, are at the positions next to it, and
jumps lead to the positions behind what they pass over.
-/

namespace ConsoleScript

open Bytecode Compile

namespace Compile

mutual

/-- The operations that a run of a piece may come to. Those of bodies, which are run by themselves,
are not among them. -/
def Piece.ops : Piece → List Op
  | .instr i => [i.op]
  | .block _ => [.block]
  | .spill _ _ => [.enter]
  | .shadow names surplus _ => Code.ops names ++ Code.ops surplus ++ [.local]
  | .whenTrue _ => [.jumpFalse, .enterResult]
  | .whenFalse _ => [.null, .jumpTrue, .enterResult]
  | .choice _ _ => [.jumpFalse, .enterResult, .jump]
  | .link op _ next => op :: .enter :: next.ops

/-- The operations that a run of code may come to. -/
def Code.ops : List Piece → List Op
  | [] => []
  | p :: rest => p.ops ++ Code.ops rest

end

mutual

/-- The bodies inside a piece, which are run by themselves. -/
def Piece.bodies : Piece → List (List Piece)
  | .instr _ => []
  | .block body | .spill body _ | .whenTrue body | .whenFalse body => body :: Code.bodies body
  | .shadow names surplus _ => Code.bodies names ++ Code.bodies surplus
  | .choice yes no => yes :: no :: (Code.bodies yes ++ Code.bodies no)
  | .link _ body next => body :: (Code.bodies body ++ next.bodies)

def Code.bodies : List Piece → List (List Piece)
  | [] => []
  | p :: rest => p.bodies ++ Code.bodies rest

end

end Compile

/-- Code stands in a block from one position up to another. -/
inductive Placed (b : Block) : Code → (pc e : Nat) → Prop
  | nil {pc : Nat} : Placed b [] pc pc
  | instr {i : Instr} {rest : Code} {pc e : Nat} (hw : b.Holds pc i.encode)
      (hr : Placed b rest (pc + i.encode.length) e) : Placed b (.instr i :: rest) pc e
  | block {body rest : Code} {n offset : UInt32} {pc q e : Nat}
      (hw : b.words[pc]? = some (Word.make .block .null n))
      (hn : pc + 1 + (Word.arg (Word.make .block .null n)).toNat = q + 1)
      (ho : b.words[pc + 1]? = some (Word.make .offset .null offset)) (hb : Placed b body (pc + 2) q)
      (hx : b.words[q]? = some (Word.make .exit .null 0)) (hr : Placed b rest (q + 1) e) :
      Placed b (.block body :: rest) pc e
  | spill {body rest : Code} {ret : RetTag} {pc q e : Nat}
      (hw : b.words[pc]? = some (Word.make .enter .null 0)) (hb : Placed b body (pc + 1) q)
      (hx : b.words[q]? = some (Word.make .exit ret 0)) (hr : Placed b rest (q + 1) e) :
      Placed b (.spill body ret :: rest) pc e
  | shadow {names surplus rest : Code} {n pc p q e : Nat} (hn : Placed b names pc p)
      (hs : Placed b surplus p q)
      (hw : b.words[q]? = some (Word.make .local .null (UInt32.ofNat n)))
      (hr : Placed b rest (q + 1) e) : Placed b (.shadow names surplus n :: rest) pc e
  | whenTrue {body rest : Code} {n : UInt32} {pc q e : Nat}
      (hw : b.words[pc]? = some (Word.make .jumpFalse .null n))
      (hn : pc + 1 + (Word.arg (Word.make .jumpFalse .null n)).toNat = q + 1)
      (he : b.words[pc + 1]? = some (Word.make .enterResult .null 0)) (hb : Placed b body (pc + 2) q)
      (hx : b.words[q]? = some (Word.make .exit .null 0)) (hr : Placed b rest (q + 1) e) :
      Placed b (.whenTrue body :: rest) pc e
  | whenFalse {body rest : Code} {n : UInt32} {pc q e : Nat}
      (h0 : b.words[pc]? = some (Word.make .null .null 0))
      (hw : b.words[pc + 1]? = some (Word.make .jumpTrue .null n))
      (hn : pc + 2 + (Word.arg (Word.make .jumpTrue .null n)).toNat = q + 1)
      (he : b.words[pc + 2]? = some (Word.make .enterResult .null 0)) (hb : Placed b body (pc + 3) q)
      (hx : b.words[q]? = some (Word.make .exit .null 0)) (hr : Placed b rest (q + 1) e) :
      Placed b (.whenFalse body :: rest) pc e
  | choice {yes no rest : Code} {n n' : UInt32} {pc q q' e : Nat}
      (hw : b.words[pc]? = some (Word.make .jumpFalse .null n))
      (hn : pc + 1 + (Word.arg (Word.make .jumpFalse .null n)).toNat = q + 2)
      (he : b.words[pc + 1]? = some (Word.make .enterResult .null 0)) (hy : Placed b yes (pc + 2) q)
      (hx : b.words[q]? = some (Word.make .exit .null 0))
      (hj : b.words[q + 1]? = some (Word.make .jump .null n'))
      (hn' : q + 2 + (Word.arg (Word.make .jump .null n')).toNat = q' + 1)
      (he' : b.words[q + 2]? = some (Word.make .enterResult .null 0)) (hb : Placed b no (q + 3) q')
      (hx' : b.words[q']? = some (Word.make .exit .null 0)) (hr : Placed b rest (q' + 1) e) :
      Placed b (.choice yes no :: rest) pc e
  | link {op : Op} {body rest : Code} {next : Piece} {n : UInt32} {pc q p e : Nat}
      (hw : b.words[pc]? = some (Word.make op .null n))
      (hn : pc + 1 + (Word.arg (Word.make op .null n)).toNat = p)
      (he : b.words[pc + 1]? = some (Word.make .enter .null 0)) (hb : Placed b body (pc + 2) q)
      (hx : b.words[q]? = some (Word.make .exit .null 0)) (hl : Placed b [next] (q + 1) p)
      (hr : Placed b rest p e) : Placed b (.link op body next :: rest) pc e

variable {b : Block}

theorem Placed.le {code : Code} {pc e : Nat} (hp : Placed b code pc e) : pc ≤ e := by
  induction hp <;> omega

mutual

/-- A piece that a block holds stands there, in front of code that stands behind it. -/
theorem Piece.placed (hb : b.size < operandLimit) (p : Piece) {rest : Code} {pc e : Nat}
    (hp : b.Holds pc (p.words pc)) (hr : Placed b rest (pc + (p.words pc).length) e) :
    Placed b (p :: rest) pc e := by
  have harg {op : Op} {q n : Nat} {w : UInt32} (hx : b.words[q]? = some w) (h : n ≤ q + 1) :
      (Word.arg (Word.make op .null (UInt32.ofNat n))).toNat = n := by
    have := Block.lt_size hx
    exact Word.toNat_arg_make op .null (Nat.lt_of_le_of_lt (by omega) hb)
  cases p with
  | instr i => exact .instr hp hr
  | block body =>
      simp only [Piece.words, Block.holds_cons, Block.holds_append, List.length_cons,
        List.length_append, List.length_nil, List.cons_append] at hp hr
      obtain ⟨hw, ho, hbody, hx, -⟩ := hp
      have hbody := Code.placed hb body hbody
      generalize (Code.words (pc + 2) body).length = n at *
      refine .block hw ?_ ho hbody hx ((by omega : pc + (n + (0 + 1) + 1 + 1) = pc + 2 + n + 1) ▸ hr)
      rw [harg hx (by omega)]
      omega
  | spill body ret =>
      simp only [Piece.words, Block.holds_cons, Block.holds_append, List.length_cons,
        List.length_append, List.length_nil, List.cons_append] at hp hr
      obtain ⟨hw, hbody, hx, -⟩ := hp
      have hbody := Code.placed hb body hbody
      generalize (Code.words (pc + 1) body).length = n at *
      exact .spill hw hbody hx ((by omega : pc + (n + (0 + 1) + 1) = pc + 1 + n + 1) ▸ hr)
  | shadow names surplus n =>
      simp only [Piece.words, Block.holds_cons, Block.holds_append, List.length_cons,
        List.length_append, List.length_nil, ← Nat.add_assoc] at hp hr
      obtain ⟨⟨hnames, hsurplus⟩, hw, -⟩ := hp
      exact .shadow (Code.placed hb names hnames) (Code.placed hb surplus hsurplus) hw hr
  | whenTrue body =>
      simp only [Piece.words, Block.holds_cons, Block.holds_append, List.length_cons,
        List.length_append, List.length_nil, List.cons_append] at hp hr
      obtain ⟨hw, he, hbody, hx, -⟩ := hp
      have hbody := Code.placed hb body hbody
      generalize (Code.words (pc + 2) body).length = n at *
      refine .whenTrue hw ?_ he hbody hx
        ((by omega : pc + (n + (0 + 1) + 1 + 1) = pc + 2 + n + 1) ▸ hr)
      rw [harg hx (by omega)]
      omega
  | whenFalse body =>
      simp only [Piece.words, Block.holds_cons, Block.holds_append, List.length_cons,
        List.length_append, List.length_nil, List.cons_append] at hp hr
      obtain ⟨h0, hw, he, hbody, hx, -⟩ := hp
      have hbody := Code.placed hb body hbody
      generalize (Code.words (pc + 3) body).length = n at *
      refine .whenFalse h0 hw ?_ he hbody hx
        ((by omega : pc + (n + (0 + 1) + 1 + 1 + 1) = pc + 3 + n + 1) ▸ hr)
      rw [harg hx (by omega)]
      omega
  | choice yes no =>
      simp only [Piece.words, Block.holds_cons, Block.holds_append, List.length_cons,
        List.length_append, List.length_nil, List.cons_append, List.append_assoc] at hp hr
      obtain ⟨hw, he, hyes, hx, hj, he', hno, hx', -⟩ := hp
      have hat : pc + 1 + 1 + (Code.words (pc + 2) yes).length + 1 + 1 + 1 =
          pc + (Code.words (pc + 2) yes).length + 5 := by omega
      rw [hat] at hno hx'
      have hyes := Code.placed hb yes hyes
      have hno := Code.placed hb no hno
      generalize (Code.words (pc + (Code.words (pc + 2) yes).length + 5) no).length = n' at *
      generalize (Code.words (pc + 2) yes).length = n at *
      refine .choice hw ?_ he hyes hx hj ?_ he' (hat ▸ hno) hx' ?_
      · rw [harg hj (by omega)]
        omega
      · rw [harg hx' (by omega)]
        omega
      · exact (by omega : pc + (n + (n' + (0 + 1) + 1 + 1 + 1) + 1 + 1) = pc + n + 5 + n' + 1) ▸ hr
  | link op body next =>
      simp only [Piece.words, Block.holds_cons, Block.holds_append, List.length_cons,
        List.length_append, List.cons_append] at hp hr
      obtain ⟨hw, he, hbody, hx, hnext⟩ := hp
      have hat : pc + 1 + 1 + (Code.words (pc + 2) body).length + 1 =
          pc + (Code.words (pc + 2) body).length + 3 := by omega
      rw [hat] at hnext
      have hlast := hnext.size (words_ne_nil next _)
      have hbody := Code.placed hb body hbody
      have hnext := Piece.placed hb next hnext .nil
      generalize (next.words (pc + (Code.words (pc + 2) body).length + 3)).length = n' at *
      generalize (Code.words (pc + 2) body).length = n at *
      have hp : pc + (n + (n' + 1) + 1 + 1) = pc + 1 + 1 + n + 1 + n' := by omega
      refine .link hw ?_ he hbody hx (hat.symm ▸ hnext) (hp ▸ hr)
      rw [Word.toNat_arg_make op .null (Nat.lt_of_le_of_lt (by omega) hb)]
      omega

theorem Code.placed (hb : b.size < operandLimit) : (code : Code) → {pc : Nat} →
    (hw : b.Holds pc (Code.words pc code)) →
    Placed b code pc (pc + (Code.words pc code).length)
  | [], _, _ => .nil
  | p :: rest, pc, hw => by
      simp only [Code.words, Block.holds_append] at hw
      have hrest := Code.placed hb rest hw.2
      simp only [Code.words, List.length_append, ← Nat.add_assoc]
      exact Piece.placed hb p hw.1 hrest

end

end ConsoleScript
