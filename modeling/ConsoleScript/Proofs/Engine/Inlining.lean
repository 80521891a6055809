import ConsoleScript.Engine.Registry
import ConsoleScript.Proofs.Engine.Positions

/-!
Control words that are compiled to jumps. A branch, and a conjunction or disjunction, can be compiled
as a call: the operands are pushed, block literals among them as code, and the command is called.
Where the operands are block literals the compiler writes jumps in the place of their headers
instead, and the bodies stay where they are. A run goes through the jumps as if the instructions of
the call had been performed.

The exception is a branch with one body whose condition is false: the call makes null the result,
and the jumps leave it as it was.
-/

namespace ConsoleScript

open Bytecode Engine

namespace Compile

/-- The branches of a call; without a second one, empty code stands in for it. -/
def calledBranch (self : Nat) (yes : Code) (no : Option Code) : Code :=
  yes ++ no.getD (literal []) ++ plain .com .null self

/-- The jumps that stand for a call with branches that are block literals. -/
inductive Inlines : (yes : Code) → (no : Option Code) → Piece → Prop
  | whenTrue (body : Code) : Inlines [.block body] none (.whenTrue body)
  | whenFalse (body : Code) : Inlines (literal []) (some [.block body]) (.whenFalse body)
  | choice (yes no : Code) : Inlines [.block yes] (some [.block no]) (.choice yes no)

/-- A branch with such literals is compiled to jumps behind its condition. -/
theorem branch_inlines {k : Nested} {self prev : Nat} {st st₁ st₂ st₃ : State} {cond yes : Code}
    {no : Option Code} {piece : Piece} (hcond : (k.arg .anyView prev).run st = (some cond, st₁))
    (hyes : (k.arg .code (prev + 1)).run st₁ = (some yes, st₂))
    (hno : (k.arg .code (prev + 2)).run st₂ = (no, st₃)) (h : Inlines yes no piece) :
    (branch k self prev).run st = ((cond ++ [piece], no.isSome), st₃) := by
  unfold branch
  rw [StateT.run_bind, hcond]
  dsimp only [pure_bind]
  change StateT.run (k.arg .code (prev + 1) >>= _) st₁ = _
  rw [StateT.run_bind, hyes]
  change StateT.run (k.arg .code (prev + 2) >>= _) st₂ = _
  rw [StateT.run_bind, hno]
  cases h <;> rfl

def calledConnective (self : Nat) (bodies : List Code) : Code :=
  bodies.map .block ++ [.instr (.call .comAll .null (bodies.length + 1) self)]

/-- The jump that stops a conjunction or disjunction. -/
def stopOp (isAnd : Bool) : Op := if isAnd then .jumpResultFalse else .jumpResultTrue

/-- A conjunction or disjunction with block literals behind its first operand is compiled to a chain
of jumps. -/
theorem connective_inlines {k : Nested} {self prev n : Nat} {st st₁ st₂ : State} {first : Code}
    {bodies : List Code} {other : Option Code} (isAnd : Bool)
    (hfirst : (k.arg .condition prev).run st = (some first, st₁))
    (hbodies : (takeLiterals k prev (maxArgs - 1) 1).run st₁ = ((bodies, other, n, false), st₂)) :
    (connective k isAnd self prev).run st =
      ((first ++ [chain (stopOp isAnd) bodies], false), st₂) := by
  unfold connective
  rw [StateT.run_bind, hfirst]
  change StateT.run (takeLiterals k prev (maxArgs - 1) 1 >>= _) st₁ = _
  rw [StateT.run_bind, hbodies]
  rfl

/-- Where the bodies of block literals that follow each other from a position on begin. -/
def bodyStarts : Nat → List Code → List Nat
  | _, [] => []
  | p, body :: rest => (p + 2) :: bodyStarts (p + (Code.words (p + 2) body).length + 3) rest

end Compile

/-- A block literal, or empty code. -/
inductive Compile.IsLiteral : Compile.Code → Prop
  | block (body : Compile.Code) : IsLiteral [.block body]
  | empty : IsLiteral (literal [])

def Compile.literalAt (b : Block) (p : Nat) (code : Compile.Code) : Value :=
  if (literalBody? code).isSome then .code b (p + 2) else emptyCode .null

theorem Compile.words_append (p : Nat) (code code' : Compile.Code) :
    Code.words p (code ++ code') =
      Code.words p code ++ Code.words (p + (Code.words p code).length) code' := by
  induction code generalizing p with
  | nil => rfl
  | cons piece code ih =>
      simp only [List.cons_append, Code.words, ih, List.append_assoc, List.length_append,
        Nat.add_assoc]

theorem Compile.words_plain {op : Op} (hop : op.isLiteral = false) (ret : RetTag) (n pc : Nat) :
    Code.words pc (plain op ret n) = [Word.make op ret (UInt32.ofNat n)] := by
  cases op <;> first | rfl | cases hop

theorem Compile.length_words_empty (p : Nat) : (Code.words p (literal [])).length = 1 := rfl

theorem Compile.length_words_block (p : Nat) (body : Compile.Code) :
    (Code.words p [.block body]).length = (Code.words (p + 2) body).length + 3 := by
  simp [Code.words, Piece.words]

/-- Performs words as if they stood at the position of the run, up to their end. Code that they push
is code of the block itself. -/
def Engine.performWords (k : Runner) (b : Block) : List UInt32 → Activation → Engine Activation
  | [], a => return a
  | w :: ws, a => do
      match Word.op? w with
      | none => failAt b.name a.pc (.invalidInstruction (Word.opName (Word.opCode w)))
      | some op =>
          let a' ← perform k b op w { a with pc := a.pc + 1 }
          performWords k b (ws.drop (a'.pc - (a.pc + 1))) a'
termination_by ws => ws.length

/-- Performs code as if it were laid out at the position of the run. -/
def Engine.performCode (k : Runner) (b : Block) (code : Compile.Code) (a : Activation) :
    Engine Activation :=
  performWords k b (Compile.Code.words a.pc code) a

variable {k : Runner} {b : Block} {a : Activation} {s : Interp}

section Performing

theorem performWords_cons {w : UInt32} {op : Op} (ho : Word.op? w = some op) (ws : List UInt32) :
    performWords k b (w :: ws) a = (do
      let a' ← perform k b op w { a with pc := a.pc + 1 }
      performWords k b (ws.drop (a'.pc - (a.pc + 1))) a') := by
  rw [performWords]
  simp only [ho]

/-- A block literal is pushed, and the words of its body are passed over. -/
theorem performWords_block {body : Compile.Code} {n : Nat} {ws : List UInt32}
    (hn : (Compile.Code.words (a.pc + 2) body).length = n) (hfits : n + 2 < operandLimit)
    (hroom : a.stack.length < maxOperands) :
    performWords k b ((Compile.Piece.block body).words a.pc ++ ws) a =
      performWords k b ws
        { a with pc := a.pc + n + 3, stack := .code b (a.pc + 2) :: a.stack } := by
  simp only [Compile.Piece.words, List.cons_append, List.append_assoc, List.nil_append, hn]
  rw [performWords_cons (Word.op?_make _ _ _)]
  have harg : (Word.arg (Word.make .block .null (UInt32.ofNat (n + 2)))).toNat = n + 2 :=
    Word.toNat_arg_make _ _ hfits
  have hpush : perform k b .block (Word.make .block .null (UInt32.ofNat (n + 2)))
      { a with pc := a.pc + 1 } = pure
        { a with pc := a.pc + n + 3, stack := .code b (a.pc + 2) :: a.stack } := by
    have hpc : a.pc + 1 + (n + 2) = a.pc + n + 3 := by omega
    simp only [perform, Activation.push, Activation.jump, harg, hpc]
    exact if_pos hroom
  have hdrop : a.pc + n + 3 - (a.pc + 1) = n + 2 := by omega
  rw [hpush, pure_bind]
  simp only [hdrop, List.drop_succ_cons]
  congr 1
  rw [← hn, List.drop_length_add_append]
  rfl

theorem performWords_singleton {w : UInt32} {op : Op} (ho : Word.op? w = some op) :
    performWords k b [w] a = perform k b op w { a with pc := a.pc + 1 } := by
  rw [performWords_cons ho]
  simp only [List.drop_nil, performWords, bind_pure]

private theorem performWords_empty {ws : List UInt32} (hroom : a.stack.length < maxOperands) :
    performWords k b (Word.make .empty .null 0 :: ws) a =
      performWords k b ws
        { a with pc := a.pc + 1, stack := emptyCode .null :: a.stack } := by
  have hpush : perform k b .empty (Word.make .empty .null 0) { a with pc := a.pc + 1 } = pure
      { a with pc := a.pc + 1, stack := emptyCode .null :: a.stack } := if_pos hroom
  rw [performWords_cons (Word.op?_make _ _ _), hpush, pure_bind]
  simp only [Nat.sub_self, List.drop_zero]

/-- A literal is pushed, and the words of its body are passed over. -/
theorem performWords_literal {code : Compile.Code} {ws : List UInt32} (hl : Compile.IsLiteral code)
    (hfits : (Compile.Code.words a.pc code).length < operandLimit)
    (hroom : a.stack.length < maxOperands) :
    performWords k b (Compile.Code.words a.pc code ++ ws) a =
      performWords k b ws { a with
        pc := a.pc + (Compile.Code.words a.pc code).length
        stack := Compile.literalAt b a.pc code :: a.stack } := by
  cases hl with
  | block body =>
      have hwords : Compile.Code.words a.pc [.block body] = (Compile.Piece.block body).words a.pc :=
        List.append_nil _
      have hlength : ((Compile.Piece.block body).words a.pc).length =
          (Compile.Code.words (a.pc + 2) body).length + 3 := by
        simp [Compile.Piece.words]
      rw [hwords, hlength] at hfits ⊢
      exact performWords_block rfl (by omega) hroom
  | empty => exact performWords_empty hroom

theorem window_reverse {vs rest : List Value} {n : Nat} (hstack : a.stack = vs.reverse ++ rest)
    (hn : vs.length = n) : a.window n = pure vs ∧ a.drop n = { a with stack := rest } := by
  subst hn
  have hle : vs.length ≤ a.stack.length := by simp [hstack]
  refine ⟨?_, ?_⟩
  · rw [Activation.window, if_pos hle, hstack, ← List.length_reverse, List.take_left,
      List.reverse_reverse]
  · rw [Activation.drop, hstack, ← List.length_reverse, List.drop_left]

private theorem applyControl_branch (k : Runner) (cond yes no : Value) :
    Library.applyControl k .branch [cond, yes, no] =
      runValue k (if cond.toBool then yes else no) := by
  have harg (v : Value) (f : Value → Engine Value) : (Pure.pure v >>= f) = f v := pure_bind v f
  simp only [Library.applyControl, Library.arg, List.getElem?_cons_zero, List.getElem?_cons_succ,
    harg]
  split <;> rfl

/-- A command that is called with the operands on top of the stack leaves its answer as the
result. -/
theorem callCommand_reverse {id : Ident} {vs rest : List Value} {n : Nat}
    (hstack : a.stack = vs.reverse ++ rest) (hn : vs.length = n) :
    callCommand k id n .null a = (do
      let v ← invoke k id vs
      return { a with stack := rest, result := v }) := by
  obtain ⟨hwindow, hdrop⟩ := window_reverse hstack hn
  rw [callCommand, hwindow, pure_bind, hdrop]
  rfl

/-- The call of the branch runs one of its bodies. -/
theorem outcome_callBranch {self : Nat} {id : Ident} {cond x y : Value} {rest : List Value}
    (hself : s.table.get? self = some id) (hrole : id.role = .control .branch)
    (hfits : self < operandLimit) (hstack : a.stack = y :: x :: cond :: rest) :
    outcome (performWords k b [Word.make .com .null (UInt32.ofNat self)] a) s =
      outcome (do
        let v ← runValue k (if cond.toBool then x else y)
        return { a with pc := a.pc + 1, stack := rest, result := v }) s := by
  rw [performWords_singleton (Word.op?_make _ _ _)]
  have hident : outcome (Activation.identIn b { a with pc := a.pc + 1 } self) s = (.ok id, s) := by
    rw [World.outcome_identIn, hself]
  have hslots : id.role.signature.slots = 3 := by
    rw [hrole]
    rfl
  simp only [perform, stepCall, Word.toNat_arg_make .com .null hfits, Word.ret_make]
  have hoperands : ({ a with pc := a.pc + 1 } : Activation).stack = [cond, x, y].reverse ++ rest :=
    hstack
  have hthree : [cond, x, y].length = 3 := rfl
  rw [outcome_bind_ok hident, hslots, callCommand_reverse hoperands hthree]
  simp only [invoke, hrole, applyControl_branch]

/-- The call with two literals as its branches. -/
theorem outcome_calledBranch {self : Nat} {id : Ident} {cond : Value} {rest : List Value}
    {yes no : Compile.Code} (hyes : Compile.IsLiteral yes) (hno : Compile.IsLiteral no)
    (hself : s.table.get? self = some id) (hrole : id.role = .control .branch)
    (hfits : self < operandLimit)
    (hlong : (Compile.Code.words a.pc yes).length < operandLimit)
    (hlong' : (Compile.Code.words (a.pc + (Compile.Code.words a.pc yes).length) no).length <
      operandLimit)
    (hstack : a.stack = cond :: rest) (hroom : a.stack.length + 2 ≤ maxOperands) (stop : Nat) :
    outcome (do
      let a' ← performCode k b (yes ++ no ++ Compile.plain .com .null self) a
      return { a' with pc := stop }) s =
    outcome (do
      let v ← runValue k (if cond.toBool then Compile.literalAt b a.pc yes
        else Compile.literalAt b (a.pc + (Compile.Code.words a.pc yes).length) no)
      return { a with pc := stop, stack := rest, result := v }) s := by
  let a₁ : Activation := { a with
    pc := a.pc + (Compile.Code.words a.pc yes).length
    stack := Compile.literalAt b a.pc yes :: a.stack }
  let a₂ : Activation := { a with
    pc := a₁.pc + (Compile.Code.words a₁.pc no).length
    stack := Compile.literalAt b a₁.pc no :: a₁.stack }
  have hstack₂ : a₂.stack = Compile.literalAt b a₁.pc no :: Compile.literalAt b a.pc yes ::
      cond :: rest := by simp only [a₂, a₁, hstack]
  have hperform : performCode k b (yes ++ no ++ Compile.plain .com .null self) a =
      performWords k b [Word.make .com .null (UInt32.ofNat self)] a₂ := by
    rw [performCode, Compile.words_append, Compile.words_append, List.append_assoc,
      performWords_literal hyes hlong (by omega)]
    exact performWords_literal (a := a₁) hno hlong' (by simp only [a₁, List.length_cons]; omega)
  rw [hperform, outcome_bind, outcome_callBranch hself hrole hfits hstack₂, outcome_bind,
    outcome_bind]
  rcases outcome (runValue k (if cond.toBool then _ else _)) s with ⟨e | v, s'⟩ <;> rfl

end Performing

section Jumping

variable {left : Nat}

theorem outcome_goOn {m m' : Engine Activation} {s' : Interp} (h : outcome m s = outcome m' s')
    (locals : List Nat) :
    outcome (goOn k b left locals m) s = outcome (goOn k b left locals m') s' := by
  rw [goOn, goOn, outcome_bind_ok (outcome_attempt _ _), outcome_bind_ok (outcome_attempt _ _), h]

/-- An instruction that only moves the run. -/
theorem runFrom_moved (hk : Forward k) {w : UInt32} {op : Op} {a' : Activation}
    (hw : b.words[a.pc]? = some w) (ho : Word.op? w = some op) (hx : op ≠ .exit)
    (h : b.size < a.pc + left)
    (hp : perform k b op w { a with pc := a.pc + 1 } = pure a') :
    runFrom k b left a = runFrom k b left a' := by
  rw [runFrom_perform hk hw ho hx h, hp, goOn_pure]

theorem runFrom_exit {ret : RetTag} (hw : b.words[a.pc]? = some (Word.make .exit ret 0))
    (hl : a.locals = []) (left : Nat) :
    runFrom k b (left + 1) a = pure (a.result.force ret, a.pc + 1) := by
  refine Engine.ext fun s => ?_
  rw [runFrom, World.step_exit hw (Word.op?_make ..), hl, Word.ret_make]
  rfl

theorem goOn_exit {e : Nat} (hw : b.words[e]? = some (Word.make .exit .null 0))
    (hl : a.locals = []) (m : Engine Value) (left : Nat) :
    goOn k b (left + 1) [] (do return { a with pc := e, result := ← m }) = (do
      let v ← m
      return (v, e + 1)) := by
  refine Engine.ext fun s => ?_
  rw [goOn, outcome_bind_ok (outcome_attempt _ _), outcome_bind, outcome_bind]
  rcases outcome m s with ⟨stop | v, s'⟩
  · rfl
  · exact congrArg (outcome · s')
      (runFrom_exit (a := { a with pc := e, result := v }) hw hl left)

/-- Code that is entered for the result is run like a code value, and the run goes on behind it. -/
theorem runFrom_enterResult (hk : Forward k)
    (hw : b.words[a.pc]? = some (Word.make .enterResult .null 0)) (h : b.size < a.pc + left)
    {e stop : Nat} (hend : Yields (k b (a.pc + 1)) fun p => p.2 = e)
    (hstop : ∀ v, runFrom k b left { a with pc := e, result := v } =
      runFrom k b left { a with pc := stop, result := v }) :
    runFrom k b left a = goOn k b left a.locals (do
      let v ← runValue k (.code b (a.pc + 1))
      return { a with pc := stop, result := v }) := by
  rw [runFrom_perform hk hw (Word.op?_make _ _ _) (by decide) h]
  simp only [perform, runValue, bind_assoc, pure_bind]
  refine goOn_bind_congr (hend.mono fun p hp => ?_)
  rw [goOn_pure, goOn_pure, hp]
  exact hstop p.1

private theorem run_emptyCode (room : Nat) :
    runValue (run (room + 1)) (emptyCode .null) = pure .null := rfl

theorem yields_run_typed {t : Table} {code : Compile.Code} {p n : Nat}
    (ht : Compile.Typed .layout t code 0 0) (hf : Fits .layout t b)
    (hb : b.Holds p (Compile.Code.words p code)) (hn : (Compile.Code.words p code).length = n)
    (hx : b.words[p + n]? = some (Word.make .exit .null 0)) (room : Nat) :
    Yields (run room b p) fun q => q.2 = p + n + 1 := by
  subst hn
  exact (ht.runnable hf nofun hb (.exit hx (Word.op?_make _ _ _))).ends room

private theorem perform_jumpTrue {cond : Value} {rest : List Value} {n : Nat}
    (hn : n < operandLimit)
    (hstack : a.stack = cond :: rest) :
    perform k b .jumpTrue (Word.make .jumpTrue .null (UInt32.ofNat n)) a = pure
      { a with pc := if cond.toBool then a.pc + n else a.pc, stack := rest } := by
  simp only [perform, stepJump, Activation.pop, hstack, Activation.jump,
    Word.toNat_arg_make .jumpTrue .null hn, pure_bind]
  cases cond.toBool <;> rfl

theorem perform_jumpFalse {cond : Value} {rest : List Value} {n : Nat} (hn : n < operandLimit)
    (hstack : a.stack = cond :: rest) :
    perform k b .jumpFalse (Word.make .jumpFalse .null (UInt32.ofNat n)) a = pure
      { a with pc := if cond.toBool then a.pc else a.pc + n, stack := rest } := by
  simp only [perform, stepJump, Activation.pop, hstack, Activation.jump,
    Word.toNat_arg_make .jumpFalse .null hn, pure_bind]
  cases cond.toBool <;> rfl

section Branches

variable {t : Table} {cond : Value} {rest : List Value} {body yes no : Compile.Code} {room : Nat}

/-- A body behind a jump on the condition is run if the condition is true. -/
theorem runFrom_whenTrue (hb : b.Holds a.pc ((Compile.Piece.whenTrue body).words a.pc))
    (ht : Compile.Typed .layout t body 0 0) (hf : Fits .layout t b)
    (hstack : a.stack = cond :: rest) (hleft : b.size < a.pc + left)
    (hcond : cond.toBool = true) :
    runFrom (run room) b left a = goOn (run room) b left a.locals (do
      let v ← runValue (run room) (.code b (a.pc + 2))
      return { a with
        pc := a.pc + ((Compile.Piece.whenTrue body).words a.pc).length
        stack := rest
        result := v }) := by
  simp only [Compile.Piece.words, Block.holds_cons, Block.holds_append, List.length_cons,
    List.length_append, List.length_nil, List.cons_append] at hb ⊢
  obtain ⟨hj, he, hbody, hx, -⟩ := hb
  have hend := yields_run_typed ht hf hbody rfl hx room
  have hsize := Block.lt_size hx
  have hlimit := hf.block
  generalize (Compile.Code.words (a.pc + 2) body).length = n at *
  have hk := forward_run room
  have hmoved := perform_jumpFalse (k := run room) (b := b) (n := n + 2) (by omega)
    (a := { a with pc := a.pc + 1 }) hstack
  rw [if_pos hcond] at hmoved
  rw [runFrom_moved hk hj (Word.op?_make _ _ _) (by decide) hleft hmoved]
  refine runFrom_enterResult (a := { a with pc := a.pc + 1, stack := rest }) hk he
    (by dsimp only; omega) hend fun v => ?_
  congr 2
  omega

/-- A body behind an empty one is run if the condition is false; otherwise null is the result. -/
theorem runFrom_whenFalse (hb : b.Holds a.pc ((Compile.Piece.whenFalse body).words a.pc))
    (ht : Compile.Typed .layout t body 0 0) (hf : Fits .layout t b)
    (hstack : a.stack = cond :: rest) (hleft : b.size < a.pc + left)
    (hcond : cond.toBool = true → 0 < room) :
    runFrom (run room) b left a = goOn (run room) b left a.locals (do
      let v ← runValue (run room) (if cond.toBool then emptyCode .null else .code b (a.pc + 3))
      return { a with
        pc := a.pc + ((Compile.Piece.whenFalse body).words a.pc).length
        stack := rest
        result := v }) := by
  simp only [Compile.Piece.words, Block.holds_cons, Block.holds_append, List.length_cons,
    List.length_append, List.length_nil, List.cons_append] at hb ⊢
  obtain ⟨hnull, hj, he, hbody, hx, -⟩ := hb
  have hend := yields_run_typed ht hf hbody rfl hx room
  have hsize := Block.lt_size hx
  have hlimit := hf.block
  generalize (Compile.Code.words (a.pc + 3) body).length = n at *
  have hk := forward_run room
  have hmoved := perform_jumpTrue (k := run room) (b := b) (n := n + 2) (by omega)
    (a := { a with pc := a.pc + 1 + 1, result := .null }) hstack
  have hclear : perform (run room) b .null (Word.make .null .null 0) { a with pc := a.pc + 1 } =
      pure { a with pc := a.pc + 1, result := .null } := rfl
  rw [runFrom_moved hk hnull (Word.op?_make _ _ _) (by decide) hleft hclear,
    runFrom_moved (a := { a with pc := a.pc + 1, result := .null }) hk hj (Word.op?_make _ _ _)
      (by decide) (by dsimp only; omega) hmoved]
  cases hc : cond.toBool with
  | true =>
      obtain ⟨room, rfl⟩ : ∃ n, room = n + 1 := ⟨room - 1, by have := hcond hc; omega⟩
      rw [if_pos rfl, if_pos rfl, run_emptyCode, pure_bind, goOn_pure]
      congr 2
      dsimp only
      omega
  | false =>
      rw [if_neg Bool.false_ne_true, if_neg Bool.false_ne_true]
      refine runFrom_enterResult (a := { a with pc := a.pc + 1 + 1, stack := rest, result := .null })
        hk he (by dsimp only; omega) hend fun v => ?_
      congr 2
      omega

/-- Of two bodies the one that the condition chooses is run. -/
theorem runFrom_choice (hb : b.Holds a.pc ((Compile.Piece.choice yes no).words a.pc))
    (hyes : Compile.Typed .layout t yes 0 0) (hno : Compile.Typed .layout t no 0 0)
    (hf : Fits .layout t b) (hstack : a.stack = cond :: rest) (hleft : b.size < a.pc + left) :
    runFrom (run room) b left a = goOn (run room) b left a.locals (do
      let v ← runValue (run room) (if cond.toBool then .code b (a.pc + 2)
        else .code b (a.pc + (Compile.Code.words (a.pc + 2) yes).length + 5))
      return { a with
        pc := a.pc + ((Compile.Piece.choice yes no).words a.pc).length
        stack := rest
        result := v }) := by
  simp only [Compile.Piece.words, Block.holds_cons, Block.holds_append, List.length_cons,
    List.length_append, List.length_nil, List.cons_append, List.append_assoc] at hb ⊢
  obtain ⟨hj, he, hbody, hx, hj', he', hbody', hx', -⟩ := hb
  have hat : a.pc + 1 + 1 + (Compile.Code.words (a.pc + 2) yes).length + 1 + 1 + 1 =
      a.pc + (Compile.Code.words (a.pc + 2) yes).length + 5 := by omega
  rw [hat] at hbody' hx'
  have hend := yields_run_typed hyes hf hbody rfl hx room
  have hend' := yields_run_typed hno hf hbody' rfl hx' room
  have hsize := Block.lt_size hx'
  have hlimit := hf.block
  generalize (Compile.Code.words (a.pc + (Compile.Code.words (a.pc + 2) yes).length + 5) no).length =
    n' at *
  generalize (Compile.Code.words (a.pc + 2) yes).length = n at *
  have hk := forward_run room
  have hmoved := perform_jumpFalse (k := run room) (b := b) (n := n + 3) (by omega)
    (a := { a with pc := a.pc + 1 }) hstack
  rw [runFrom_moved hk hj (Word.op?_make _ _ _) (by decide) hleft hmoved]
  cases hc : cond.toBool with
  | true =>
      rw [if_pos rfl, if_pos rfl]
      refine runFrom_enterResult (a := { a with pc := a.pc + 1, stack := rest }) hk he
        (by dsimp only; omega) hend fun v => ?_
      -- Behind the first body a jump leads over the second one.
      refine runFrom_moved hk hj' (Word.op?_make _ _ _) (by decide) (by dsimp only; omega) ?_
      have hjump : (Word.arg (Word.make .jump .null (UInt32.ofNat (n' + 2)))).toNat = n' + 2 :=
        Word.toNat_arg_make _ _ (by omega)
      simp only [perform, stepJump, Activation.jump, hjump]
      congr 2
      omega
  | false =>
      rw [if_neg Bool.false_ne_true, if_neg Bool.false_ne_true]
      have hpc : a.pc + 1 + (n + 3) = a.pc + 1 + 1 + n + 1 + 1 := by omega
      rw [hpc]
      refine (runFrom_enterResult (a := { a with pc := a.pc + 1 + 1 + n + 1 + 1, stack := rest }) hk
        he' (by dsimp only; omega) (hat.symm ▸ hend') fun v => rfl).trans ?_
      have hstop : a.pc + n + 5 + n' + 1 = a.pc + (n + (n' + (0 + 1) + 1 + 1 + 1) + 1 + 1) := by omega
      rw [hat, hstop]

end Branches

end Jumping

section BranchJumps

variable {left : Nat} {cond : Value} {rest : List Value} {yes : Compile.Code}
  {no : Option Compile.Code} {piece : Compile.Piece}

/-- The code value of the branch that the condition chooses, with the literals laid out from the
position of the run. -/
def Compile.chosenLiteral (b : Block) (p : Nat) (cond : Value) (yes : Compile.Code)
    (no : Option Compile.Code) : Value :=
  if cond.toBool then literalAt b p yes
  else literalAt b (p + (Code.words p yes).length) (no.getD (literal []))

/-- The jumps run the code value that the condition chooses, and make its value the result. -/
theorem runFrom_branchJumps {room : Nat} {t : Table} (hin : Compile.Inlines yes no piece)
    (hb : b.Holds a.pc (piece.words a.pc)) (hyes : Compile.Typed .layout t yes 0 0)
    (hno : ∀ code ∈ no, Compile.Typed .layout t code 0 0) (hf : Fits .layout t b)
    (hstack : a.stack = cond :: rest) (hleft : b.size < a.pc + left)
    (hone : no = none → cond.toBool = true)
    (hempty : yes = Compile.literal [] → cond.toBool = true → 0 < room) :
    runFrom (run room) b left a = goOn (run room) b left a.locals (do
      let v ← runValue (run room) (Compile.chosenLiteral b a.pc cond yes no)
      return { a with pc := a.pc + (piece.words a.pc).length, stack := rest, result := v }) := by
  cases hin with
  | whenTrue body =>
      rw [runFrom_whenTrue hb hyes.body hf hstack hleft (hone rfl), Compile.chosenLiteral,
        if_pos (hone rfl)]
      rfl
  | whenFalse body => exact runFrom_whenFalse hb (hno _ rfl).body hf hstack hleft (hempty rfl)
  | choice yes no =>
      rw [runFrom_choice hb hyes.body (hno _ rfl).body hf hstack hleft, Compile.chosenLiteral,
        Compile.length_words_block]
      rfl

/-- So does the call with the literals pushed. -/
theorem outcome_calledLiterals {self : Nat} {id : Ident} (hin : Compile.Inlines yes no piece)
    (hself : s.table.get? self = some id) (hrole : id.role = .control .branch)
    (hfits : self < operandLimit) (hlong : (piece.words a.pc).length < operandLimit)
    (hstack : a.stack = cond :: rest) (hroom : a.stack.length + 2 ≤ maxOperands) (stop : Nat) :
    outcome (do
      let a' ← performCode k b (Compile.calledBranch self yes no) a
      return { a' with pc := stop }) s =
    outcome (do
      let v ← runValue k (Compile.chosenLiteral b a.pc cond yes no)
      return { a with pc := stop, stack := rest, result := v }) s := by
  have hone : 1 < operandLimit := by decide
  cases hin with
  | whenTrue body =>
      have hwords : ((Compile.Piece.whenTrue body).words a.pc).length =
          (Compile.Code.words (a.pc + 2) body).length + 3 := by simp [Compile.Piece.words]
      refine outcome_calledBranch (.block body) .empty hself hrole hfits ?_ hone hstack hroom stop
      rw [Compile.length_words_block]
      omega
  | whenFalse body =>
      have hwords : ((Compile.Piece.whenFalse body).words a.pc).length =
          (Compile.Code.words (a.pc + 3) body).length + 4 := by simp [Compile.Piece.words]
      refine outcome_calledBranch .empty (.block body) hself hrole hfits hone ?_ hstack hroom stop
      rw [Compile.length_words_empty, Compile.length_words_block]
      change (Compile.Code.words (a.pc + 3) body).length + 3 < operandLimit
      omega
  | choice yes no =>
      have hwords : ((Compile.Piece.choice yes no).words a.pc).length =
          (Compile.Code.words (a.pc + 2) yes).length +
            (Compile.Code.words (a.pc + (Compile.Code.words (a.pc + 2) yes).length + 5) no).length +
            6 := by
        simp only [Compile.Piece.words, List.length_cons, List.length_append, List.length_nil,
          List.cons_append]
        omega
      refine outcome_calledBranch (.block yes) (.block no) hself hrole hfits ?_ ?_ hstack hroom stop
      · rw [Compile.length_words_block]
        omega
      · rw [Compile.length_words_block, Compile.length_words_block]
        have hat : a.pc + ((Compile.Code.words (a.pc + 2) yes).length + 3) + 2 =
            a.pc + (Compile.Code.words (a.pc + 2) yes).length + 5 := by omega
        rw [hat]
        omega

end BranchJumps

/-- Inlining a branch keeps its meaning. Wherever a run comes to the jumps that the compiler has
written for a branch with literals, with the condition on the stack, it goes on as if the literals
had been pushed and the command called: with the same result, interpreter and reports, or the same
fault. Two paths on which no body is run are left out: a branch with one body whose condition is
false, and the empty first body at the limit of nesting, which only the call reports. -/
theorem runFrom_inlinedBranch {room left self : Nat} {t : Table} {id : Ident} {cond : Value}
    {rest : List Value} {yes : Compile.Code} {no : Option Compile.Code} {piece : Compile.Piece}
    (hin : Compile.Inlines yes no piece) (hb : b.Holds a.pc (piece.words a.pc))
    (hyes : Compile.Typed .layout t yes 0 0) (hno : ∀ code ∈ no, Compile.Typed .layout t code 0 0)
    (hf : Fits .layout t b) (hself : s.table.get? self = some id)
    (hrole : id.role = .control .branch) (hfits : self < operandLimit)
    (hstack : a.stack = cond :: rest) (hroom : a.stack.length + 2 ≤ maxOperands)
    (hleft : b.size < a.pc + left) (hone : no = none → cond.toBool = true)
    (hempty : yes = Compile.literal [] → cond.toBool = true → 0 < room) :
    outcome (runFrom (run room) b left a) s =
      outcome (goOn (run room) b left a.locals (do
        let a' ← performCode (run room) b (Compile.calledBranch self yes no) a
        return { a' with pc := a.pc + (piece.words a.pc).length })) s := by
  have hlast := hb.size (Compile.words_ne_nil piece a.pc)
  have hlimit := hf.block
  rw [runFrom_branchJumps hin hb hyes hno hf hstack hleft hone hempty]
  exact outcome_goOn
    (outcome_calledLiterals hin hself hrole hfits (by omega) hstack hroom _).symm _

def Compile.giving (text : Bytes) : Compile.Code := textCode text ++ plain .result

theorem Compile.typed_giving {t : Table} {text : Bytes} (h : text.length < operandLimit) :
    Typed .layout t (giving text) 0 0 :=
  .literal (m := 0) (.text text h) (.inl rfl) (typed_plain .result (.inl rfl))

/-- The code of a branch with two bodies. -/
def branchBlock : Block := (compile Interp.new.table (utf8 "if 0 [result 6] [result 7]") []).block

set_option maxRecDepth 4096 in
/-- The condition is false, and the second body is run. -/
theorem runFrom_inlinedBranch_second :
    let a : Activation := { pc := 3, stack := [.text .literal (utf8 "0")], result := .int 5 }
    outcome (runFrom (run 9) branchBlock 20 a) .new =
      outcome (goOn (run 9) branchBlock 20 [] (do
        let a' ← performCode (run 9) branchBlock (Compile.calledBranch 32
          [.block (Compile.giving (utf8 "6"))] (some [.block (Compile.giving (utf8 "7"))])) a
        return { a' with pc := 13 })) .new := by
  obtain ⟨hsize, htable, hleft, hholds⟩ : branchBlock.size < operandLimit ∧
      Interp.new.table.size ≤ operandLimit ∧ branchBlock.size < 3 + 20 ∧
      branchBlock.Holds 3 ((Compile.Piece.choice (Compile.giving (utf8 "6"))
        (Compile.giving (utf8 "7"))).words 3) := by decide +kernel
  have hfits : Fits .layout Interp.new.table branchBlock := ⟨hsize, htable, fun h => absurd rfl h⟩
  have hgiving {text : Bytes} (h : text.length < operandLimit) :
      Compile.Typed .layout Interp.new.table [.block (Compile.giving text)] 0 0 :=
    .block (m := 0) (Compile.typed_giving h) (.inl rfl) (.nil (.inl rfl))
  obtain ⟨id, hself, hrole⟩ :
      ∃ id, Interp.new.table.get? 32 = some id ∧ id.role = .control .branch := ⟨_, rfl, rfl⟩
  intro a
  have hno : ∀ code ∈ some [.block (Compile.giving (utf8 "7"))],
      Compile.Typed .layout Interp.new.table code 0 0 := by
    rintro code ⟨⟩
    exact hgiving (by decide)
  have hrun := runFrom_inlinedBranch (a := a) (.choice _ _) hholds (hgiving (by decide)) hno hfits
    hself hrole (by decide) rfl (by decide) hleft nofun fun _ _ => show 0 < 9 by decide
  exact hrun

section Connectives

variable {self left : Nat} {first : Value} {rest : List Value} {bodies : List Compile.Code}

/-- The code values of block literals that follow each other from a position on. -/
def Compile.bodyValues (b : Block) (p : Nat) (bodies : List Compile.Code) : List Value :=
  (bodyStarts p bodies).map fun q => .code b q

theorem Compile.length_bodyValues (p : Nat) (bodies : List Compile.Code) :
    (bodyValues b p bodies).length = bodies.length := by
  induction bodies generalizing p with
  | nil => rfl
  | cons body bodies ih => exact congrArg (· + 1) (ih _)

/-- Block literals are pushed one after the other. -/
theorem performWords_blocks {ws : List UInt32}
    (hfits : (Compile.Code.words a.pc (bodies.map .block)).length < operandLimit)
    (hroom : a.stack.length + bodies.length ≤ maxOperands) :
    performWords k b (Compile.Code.words a.pc (bodies.map .block) ++ ws) a =
      performWords k b ws { a with
        pc := a.pc + (Compile.Code.words a.pc (bodies.map .block)).length
        stack := (Compile.bodyValues b a.pc bodies).reverse ++ a.stack } := by
  induction bodies generalizing a with
  | nil => rfl
  | cons body bodies ih =>
      have hlength : ((Compile.Piece.block body).words a.pc).length =
          (Compile.Code.words (a.pc + 2) body).length + 3 := by
        simp [Compile.Piece.words]
      simp only [List.map_cons, Compile.Code.words, List.length_append, List.length_cons,
        List.append_assoc, hlength] at hfits hroom ⊢
      rw [performWords_block rfl (by omega) (by omega)]
      have hrest := ih (a := { a with
        pc := a.pc + (Compile.Code.words (a.pc + 2) body).length + 3
        stack := .code b (a.pc + 2) :: a.stack }) (Nat.lt_of_le_of_lt (Nat.le_add_left _ _) hfits)
        (by simp only [List.length_cons]; omega)
      simp only [Nat.add_assoc] at hrest ⊢
      rw [hrest]
      simp only [Compile.bodyValues, Compile.bodyStarts, List.map_cons, List.reverse_cons,
        List.append_assoc, List.singleton_append, Nat.add_assoc]

/-- The call of the conjunction or disjunction looks at the operands from the left. -/
theorem outcome_calledConnective {id : Ident} {isAnd : Bool}
    (hself : s.table.get? self = some id) (hfits : self < callIndexLimit)
    (hrole : id.role = .control (if isAnd then .and else .or)) (hargs : bodies.length < maxArgs)
    (hlong : (Compile.Code.words a.pc (bodies.map .block)).length < operandLimit)
    (hstack : a.stack = first :: rest) (hroom : a.stack.length + bodies.length ≤ maxOperands) :
    outcome (performCode k b (Compile.calledConnective self bodies) a) s =
      outcome (do
        let v ← Library.firstBeing k (!isAnd) .null (first :: Compile.bodyValues b a.pc bodies)
        return { a with
          pc := a.pc + (Compile.Code.words a.pc (bodies.map .block)).length + 1
          stack := rest
          result := v }) s := by
  let word := Word.make .comAll .null
    (Word.callOperand (UInt32.ofNat (bodies.length + 1)) (UInt32.ofNat self))
  let a₁ : Activation := { a with
    pc := a.pc + (Compile.Code.words a.pc (bodies.map .block)).length
    stack := (Compile.bodyValues b a.pc bodies).reverse ++ a.stack }
  have hperform : performCode k b (Compile.calledConnective self bodies) a =
      perform k b .comAll word { a₁ with pc := a₁.pc + 1 } := by
    rw [performCode, Compile.calledConnective, Compile.words_append,
      performWords_blocks hlong hroom]
    exact performWords_singleton (Word.op?_make _ _ _)
  have hident : outcome (Activation.identIn b { a₁ with pc := a₁.pc + 1 } self) s = (.ok id, s) := by
    rw [World.outcome_identIn, hself]
  have hcount : bodies.length + 1 < 32 := Nat.lt_of_le_of_lt hargs (by decide)
  have hoperands : ({ a₁ with pc := a₁.pc + 1 } : Activation).stack =
      (first :: Compile.bodyValues b a.pc bodies).reverse ++ rest := by
    simp only [a₁, hstack, List.reverse_cons, List.append_assoc, List.singleton_append]
  have hlength : (first :: Compile.bodyValues b a.pc bodies).length = bodies.length + 1 :=
    congrArg (· + 1) (Compile.length_bodyValues _ _)
  rw [hperform]
  simp only [perform, stepCall, word, Word.callArgc_make _ _ hcount,
    Word.callIndex_make _ _ _ hfits, Word.ret_make]
  rw [outcome_bind_ok hident, callCommand_reverse hoperands hlength]
  cases isAnd <;> simp only [invoke, hrole] <;> rfl

private theorem perform_stopOp (isAnd : Bool) {n : Nat} (hn : n < operandLimit)
    (hstack : a.stack = first :: rest) :
    perform k b (Compile.stopOp isAnd) (Word.make (Compile.stopOp isAnd) .null (UInt32.ofNat n)) a =
      (do
        let v ← Library.codeResult k first
        return { a with
          pc := if v.toBool == !isAnd then a.pc + n else a.pc, stack := rest, result := v }) := by
  cases isAnd <;>
    simp only [Compile.stopOp, Bool.false_eq_true, if_true, if_false, perform, stepJump,
      Activation.pop, hstack, Activation.jump, Activation.setResult, Word.toNat_arg_make _ _ hn,
      pure_bind] <;>
    congr 1 <;> funext v <;> cases v.toBool <;> rfl

/-- Bodies in front of each other's exits that a runner runs to their ends. -/
def EndInPlace (k : Runner) (b : Block) : Nat → List Compile.Code → Prop
  | _, [] => True
  | p, body :: bodies =>
      (Yields (k b (p + 2)) fun q =>
        q.2 = p + (Compile.Code.words (p + 2) body).length + 3) ∧
      EndInPlace k b (p + (Compile.Code.words (p + 2) body).length + 3) bodies

/-- Bodies are run one after the other, beginning where a first operand ended, until a value stops a
conjunction or disjunction or a fault ends it; and none of these runs gives code. -/
def givesNoCode (k : Runner) (b : Block) (stop : Bool) :
    List Nat → Except Stop Value × Interp → Bool
  | [], _ | _, (.error _, _) => true
  | q :: starts, (.ok before, s) =>
      before.toBool == stop || match outcome (k b q) s with
        | (.error _, _) => true
        | (.ok (v, _), s') => !v.isCode && givesNoCode k b stop starts (.ok v, s')

private theorem codeResult_of_not_isCode {v : Value} (h : v.isCode = false) :
    Library.codeResult k v = pure v := by
  cases v with
  | code => cases h
  | _ => rfl

private theorem firstBeing_cons (stop : Bool) (before v : Value) (vs : List Value) :
    Library.firstBeing k stop before (v :: vs) = (do
      let v' ← Library.codeResult k v
      if v'.toBool == stop then return v' else Library.firstBeing k stop v' vs) := rfl

theorem Compile.length_words_blocks (p : Nat) (body : Compile.Code) (bodies : List Compile.Code) :
    (Code.words p ((body :: bodies).map .block)).length = (Code.words (p + 2) body).length + 3 +
      (Code.words (p + (Code.words (p + 2) body).length + 3) (bodies.map .block)).length := by
  have hlength : ((Piece.block body).words p).length = (Code.words (p + 2) body).length + 3 := by
    simp [Piece.words]
  rw [List.map_cons, Code.words, List.length_append, hlength, Nat.add_assoc p]

theorem Compile.length_chain (isAnd : Bool) (p : Nat) (bodies : List Compile.Code) :
    ((chain (stopOp isAnd) bodies).words p).length =
      (Code.words p (bodies.map .block)).length + 1 := by
  induction bodies generalizing p with
  | nil => cases isAnd <;> rfl
  | cons body bodies ih =>
      have hchain : chain (stopOp isAnd) (body :: bodies) =
          .link (stopOp isAnd) body (chain (stopOp isAnd) bodies) := rfl
      simp only [hchain, Piece.words, List.cons_append, List.length_cons, List.length_append, ih,
        length_words_blocks]
      omega

/-- A chain of jumps looks at the operands from the left, as the command does. The induction is on
the bodies: a link leaves the value of its body on the stack for the chain behind it. -/
theorem outcome_chain (hk : Forward k) (isAnd : Bool) (before : Value)
    (hb : b.Holds a.pc ((Compile.chain (Compile.stopOp isAnd) bodies).words a.pc))
    (hends : EndInPlace k b a.pc bodies)
    (hcode : givesNoCode k b (!isAnd) (Compile.bodyStarts a.pc bodies)
      (outcome (Library.codeResult k first) s) = true) (hlimit : b.size < operandLimit)
    (hstack : a.stack = first :: rest) (hroom : a.stack.length ≤ maxOperands)
    (hleft : b.size < a.pc + left) :
    outcome (runFrom k b left a) s = outcome (goOn k b left a.locals (do
      let v ← Library.firstBeing k (!isAnd) before (first :: Compile.bodyValues b a.pc bodies)
      return { a with
        pc := a.pc + (Compile.Code.words a.pc (bodies.map .block)).length + 1
        stack := rest
        result := v })) s := by
  have hx : Compile.stopOp isAnd ≠ .exit := by cases isAnd <;> decide
  induction bodies generalizing a first before s with
  | nil =>
      have hword : (Compile.chain (Compile.stopOp isAnd) []).words a.pc =
          [Word.make (Compile.stopOp isAnd) .null (UInt32.ofNat 0)] := by cases isAnd <;> rfl
      rw [hword] at hb
      have hw := (Block.holds_cons.mp hb).1
      rw [runFrom_perform hk hw (Word.op?_make _ _ _) hx hleft,
        perform_stopOp (a := { a with pc := a.pc + 1 }) isAnd (by decide) hstack]
      simp only [Compile.bodyValues, Compile.bodyStarts, List.map_nil, Library.firstBeing, ite_self,
        Nat.add_zero, Compile.Code.words, List.length_nil, bind_assoc, pure_bind]
  | cons body bodies ih =>
      obtain ⟨hbody, hends⟩ := hends
      have hchain : Compile.chain (Compile.stopOp isAnd) (body :: bodies) =
          .link (Compile.stopOp isAnd) body (Compile.chain (Compile.stopOp isAnd) bodies) := rfl
      simp only [hchain, Compile.Piece.words, Block.holds_cons, Block.holds_append,
        List.cons_append] at hb
      obtain ⟨hj, he, -, -, hrest⟩ := hb
      have hat : a.pc + 1 + 1 + (Compile.Code.words (a.pc + 2) body).length + 1 =
          a.pc + (Compile.Code.words (a.pc + 2) body).length + 3 := by omega
      rw [hat] at hrest
      have hlast := hrest.size (Compile.words_ne_nil _ _)
      have hfull : rest.length + 1 ≤ maxOperands := by
        rw [hstack] at hroom
        exact hroom
      have hnext (u v : Value) (s' : Interp) (h : givesNoCode k b (!isAnd)
          (Compile.bodyStarts (a.pc + (Compile.Code.words (a.pc + 2) body).length + 3) bodies)
          (outcome (Library.codeResult k u) s') = true) := ih (a := { a with
        pc := a.pc + (Compile.Code.words (a.pc + 2) body).length + 3
        stack := u :: rest
        result := v }) v hrest hends h rfl hfull (by dsimp only; omega)
      rw [Compile.length_chain] at hj hlast
      rw [Compile.length_words_blocks]
      dsimp only at hnext
      simp only [Compile.bodyValues, Compile.bodyStarts, List.map_cons] at hcode hnext ⊢
      generalize (Compile.Code.words (a.pc + (Compile.Code.words (a.pc + 2) body).length + 3)
        (bodies.map .block)).length = n' at *
      generalize (Compile.Code.words (a.pc + 2) body).length = n at *
      rw [runFrom_perform hk hj (Word.op?_make _ _ _) hx hleft,
        perform_stopOp (a := { a with pc := a.pc + 1 }) isAnd (by omega) hstack, firstBeing_cons,
        bind_assoc]
      have hpc : a.pc + 1 + (n + 2 + (n' + 1)) = a.pc + (n + 3 + n') + 1 := by omega
      refine outcome_goOn_bind_congr fun v s₁ hv₁ => ?_
      rw [hv₁] at hcode
      cases hv : v.toBool == !isAnd with
      | true => simp only [if_true, hpc, pure_bind]
      | false =>
          simp only [givesNoCode, hv, Bool.false_or] at hcode
          simp only [Bool.false_eq_true, if_false]
          rw [goOn_pure, runFrom_perform (a := { a with pc := a.pc + 1, stack := rest, result := v })
            hk he (Word.op?_make _ _ _) (by decide) (by dsimp only; omega)]
          simp only [perform, firstBeing_cons, Library.codeResult, bind_assoc, pure_bind]
          -- The run of the body begins where the value before it was found, and gives no code.
          refine outcome_goOn_bind_congr fun q s₂ hq => ?_
          have hrun : outcome (k b (a.pc + 2)) s₁ = (.ok q, s₂) := hq
          rw [hrun] at hcode
          obtain ⟨hplain, hcode⟩ := Bool.and_eq_true_iff.mp hcode
          have hvalue := codeResult_of_not_isCode (k := k) ((Bool.not_eq_true' _).mp hplain)
          have hpush : Activation.push q.1
              { a with pc := q.2, stack := rest, result := v } = pure
                { a with pc := q.2, stack := q.1 :: rest, result := v } := if_pos hfull
          rw [hpush, goOn_pure, hbody s₁ q s₂ hq, hnext q.1 v s₂ (by rw [hvalue]; exact hcode),
            firstBeing_cons, hvalue, pure_bind]
          have hpc' : a.pc + n + 3 + n' + 1 = a.pc + (n + 3 + n') + 1 := by omega
          rw [hpc']

/-- The bodies of a chain of typed code end in place. -/
theorem endInPlace_chain {t : Table} {isAnd : Bool} {p : Nat} (room : Nat) (hf : Fits .layout t b)
    (hb : b.Holds p ((Compile.chain (Compile.stopOp isAnd) bodies).words p))
    (hbodies : ∀ body ∈ bodies, Compile.Typed .layout t body 0 0) :
    EndInPlace (run room) b p bodies := by
  induction bodies generalizing p with
  | nil => trivial
  | cons body bodies ih =>
      have hchain : Compile.chain (Compile.stopOp isAnd) (body :: bodies) =
          .link (Compile.stopOp isAnd) body (Compile.chain (Compile.stopOp isAnd) bodies) := rfl
      simp only [hchain, Compile.Piece.words, Block.holds_cons, Block.holds_append,
        List.cons_append] at hb
      obtain ⟨-, -, hbody, hx, hrest⟩ := hb
      have hat : p + 1 + 1 + (Compile.Code.words (p + 2) body).length + 1 =
          p + (Compile.Code.words (p + 2) body).length + 3 := by omega
      rw [hat] at hrest
      have hend := yields_run_typed (hbodies body List.mem_cons_self) hf hbody rfl hx room
      exact ⟨fun s v s' hv => (hend s v s' hv).trans hat,
        ih hrest fun body' h => hbodies body' (List.mem_cons_of_mem body h)⟩

end Connectives

/-- Inlining a conjunction or disjunction keeps its meaning. Wherever a run comes to the chain of
jumps for operands that are block literals, with the first operand on the stack, it goes on as if
the literals had been pushed and the command called with all operands: the same operands are run in
the same order up to the same one, with the same result, interpreter and reports, or the same
fault. The literals may do anything, but none that is run here may give code, which the chain would
run in turn. -/
theorem runFrom_inlinedConnective (isAnd : Bool) {room left self : Nat} {t : Table} {id : Ident}
    {first : Value} {rest : List Value} {bodies : List Compile.Code}
    (hb : b.Holds a.pc ((Compile.chain (Compile.stopOp isAnd) bodies).words a.pc))
    (hbodies : ∀ body ∈ bodies, Compile.Typed .layout t body 0 0) (hf : Fits .layout t b)
    (hcode : givesNoCode (run room) b (!isAnd) (Compile.bodyStarts a.pc bodies)
      (outcome (Library.codeResult (run room) first) s) = true)
    (hself : s.table.get? self = some id)
    (hrole : id.role = .control (if isAnd then .and else .or)) (hfits : self < callIndexLimit)
    (hargs : bodies.length < maxArgs) (hstack : a.stack = first :: rest)
    (hroom : a.stack.length + bodies.length ≤ maxOperands) (hleft : b.size < a.pc + left) :
    outcome (runFrom (run room) b left a) s =
      outcome (goOn (run room) b left a.locals
        (performCode (run room) b (Compile.calledConnective self bodies) a)) s := by
  have hlast := hb.size (Compile.words_ne_nil _ _)
  rw [Compile.length_chain] at hlast
  have hlimit := hf.block
  have hends := endInPlace_chain room hf hb hbodies
  rw [outcome_chain (forward_run room) isAnd .null hb hends hcode hlimit hstack (by omega) hleft]
  exact outcome_goOn (outcome_calledConnective hself hfits hrole hargs (by omega) hstack hroom).symm _

/-- A conjunction whose operands assign, call and report. -/
def conjunctionScript : Bytes := utf8 "&& 1 [x = 2; = $x 2] [echo hi] [echo no]"

def conjunctionBlock : Block := (compile Interp.new.table conjunctionScript []).block

/-- The operands behind the first one. -/
def conjunctionBodies : List Compile.Code :=
  [Compile.textCode (utf8 "2") ++ (Compile.plain .alias .null 121 ++
      (Compile.plain .lookup .int 121 ++
        (Compile.intCode 2 ++ [.instr (.call .comAll .null 2 83)]))),
    Compile.viewCode (utf8 "hi") ++ [.instr (.call .comJoined .null 1 118)],
    Compile.viewCode (utf8 "no") ++ [.instr (.call .comJoined .null 1 118)]]

/-- The comparison answers yes and the report null, so that the last operand is not run. -/
theorem runFrom_inlinedConnective_third :
    let s := (outcome (compileText conjunctionScript []) .new).2
    let a : Activation := { pc := 6, stack := [.code conjunctionBlock 3] }
    outcome (runFrom (run 9) conjunctionBlock 30 a) s =
      outcome (goOn (run 9) conjunctionBlock 30 [] (performCode (run 9) conjunctionBlock
        (Compile.calledConnective 35 conjunctionBodies) a)) s := by
  intro s a
  obtain ⟨hsize, htable, hx, hself⟩ : conjunctionBlock.size < 36 ∧
      s.table.size ≤ operandLimit ∧ s.table.form? .layout 121 = some .alias ∧
      (s.table.get? 35).any (·.role matches .control .and) = true := by decide +kernel
  obtain ⟨id, hself, hand⟩ := (Option.any_eq_true _ _).mp hself
  have hrole : id.role = .control .and := by
    split at hand
    · assumption
    · cases hand
  obtain ⟨hholds, hcode⟩ : conjunctionBlock.Holds a.pc
        ((Compile.chain (Compile.stopOp true) conjunctionBodies).words a.pc) ∧
      givesNoCode (run 9) conjunctionBlock false (Compile.bodyStarts a.pc conjunctionBodies)
        (outcome (Library.codeResult (run 9) (.code conjunctionBlock 3)) s) = true := by
    decide +kernel
  have hfits : Fits .layout s.table conjunctionBlock :=
    ⟨Nat.lt_trans hsize (by decide), htable, fun h => absurd rfl h⟩
  have hm {n m k l : Nat} : Rigour.layout.Moves n m k l := .inl rfl
  have hcall {op : Op} {n i : Nat} (h : Call .layout s.table op n i) :
      Compile.Typed .layout s.table [.instr (.call op .null n i)] 0 0 :=
    .call (m := 0) h hm (.nil (.inl rfl))
  have hreport {text : Bytes} (h : text.length < operandLimit) : Compile.Typed .layout s.table
      (Compile.viewCode text ++ [.instr (.call .comJoined .null 1 118)]) 0 0 :=
    .literal (m := 0) (.view text h) hm (hcall (.comJoined (absurd rfl) (absurd rfl)))
  have hfirst : Compile.Typed .layout s.table conjunctionBodies[0] 0 0 :=
    .literal (m := 0) (.text _ (by decide)) hm <|
      .plain (m := 0) (.alias hx (by decide)) hm <| .plain (m := 0) (.lookup hx) hm <|
        .literal (m := 0) (.int 2) hm (hcall (.comAll (absurd rfl) (absurd rfl)))
  have hbodies : ∀ body ∈ conjunctionBodies, Compile.Typed .layout s.table body 0 0 := by
    simp only [conjunctionBodies, List.forall_mem_cons]
    exact ⟨hfirst, hreport (by decide), hreport (by decide), nofun⟩
  exact runFrom_inlinedConnective true hholds hbodies hfits hcode hself hrole (by decide)
    (by decide) rfl (by decide) hsize

end ConsoleScript
