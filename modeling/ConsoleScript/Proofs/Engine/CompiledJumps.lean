import ConsoleScript.Proofs.Compile.Arguments
import ConsoleScript.Proofs.Engine.Inlining

/-!
Control words of which the compiler has written jumps. The bodies that it takes from the source are
typed, so that the jumps at the end of the code of such a statement can be performed as the call for
which they stand.
-/

namespace ConsoleScript

open Bytecode Engine Compile

theorem Compile.Gives.run {α : Type} {r : Rigour} {m : CompileM α} {P : Table → α → Prop}
    {st st' : State} {x : α} (hm : Gives r st.table m P) (ht : st.table.Sound r)
    (hshort : st.cursor.rest.length < operandLimit) (hrun : m.run st = (x, st')) :
    st'.cursor.rest.length < operandLimit ∧ st.table.Names st'.table ∧ P st'.table x := by
  have h := hm ht st rfl hshort
  rwa [hrun] at h

theorem Compile.ArgTyped.literal {t : Table} {want : Want} {prev : Nat} {code : Code}
    (hc : ArgTyped .layout t want prev code) : Typed .layout t code 0 0 :=
  (hc.typed nofun 0).heights rfl 0 0

variable {levels self prev left : Nat} {st st₁ st₂ st₃ : State}

theorem Compile.typed_branches {yes : Code} {no : Option Code} (ht : st.table.Sound .layout)
    (hshort : st.cursor.rest.length < operandLimit)
    (hyes : ((nested levels).arg .code (prev + 1)).run st = (some yes, st₁))
    (hno : ((nested levels).arg .code (prev + 2)).run st₁ = (no, st₂)) :
    Typed .layout st₂.table yes 0 0 ∧ ∀ code ∈ no, Typed .layout st₂.table code 0 0 := by
  have hk := nested_serves .layout levels
  obtain ⟨hshort₁, hnames, htyped⟩ := (hk.arg _ _ _).run ht hshort hyes
  obtain ⟨-, hnames', htyped'⟩ := (hk.arg _ _ _).run (hnames.sound ht) hshort₁ hno
  exact ⟨(htyped yes rfl).literal.mono (hnames'.extends .layout),
    fun code h => (htyped' code h).literal⟩

/-- A branch whose literals the compiler has found in the source, behind a condition. -/
theorem runFrom_compiledBranch {cond yes : Code} {no : Option Code} {piece : Piece}
    (ht : st.table.Sound .layout) (hshort : st.cursor.rest.length < operandLimit)
    (hcond : ((nested levels).arg .anyView prev).run st = (some cond, st₁))
    (hyes : ((nested levels).arg .code (prev + 1)).run st₁ = (some yes, st₂))
    (hno : ((nested levels).arg .code (prev + 2)).run st₂ = (no, st₃))
    (hin : Inlines yes no piece) :
    (branch (nested levels) self prev).run st = ((cond ++ [piece], no.isSome), st₃) ∧
    ∀ {b : Block} {a : Activation} {s : Interp} {id : Ident} {v : Value} {rest : List Value}
      (room p : Nat), Fits .layout st₃.table b → b.Holds p (Code.words p (cond ++ [piece])) →
      a.pc = p + (Code.words p cond).length → a.stack = v :: rest →
      a.stack.length + 2 ≤ maxOperands → b.size < a.pc + left → s.table.get? self = some id →
      id.role = .control .branch → self < operandLimit → (no = none → v.toBool = true) →
      (yes = literal [] → v.toBool = true → 0 < room) →
      outcome (runFrom (run room) b left a) s = outcome (goOn (run room) b left a.locals (do
        let a' ← performCode (run room) b (calledBranch self yes no) a
        return { a' with pc := a.pc + (piece.words a.pc).length })) s := by
  obtain ⟨hshort₁, hnames, -⟩ := ((nested_serves .layout levels).arg _ _ _).run ht hshort hcond
  obtain ⟨htyped, htyped'⟩ := typed_branches (hnames.sound ht) hshort₁ hyes hno
  refine ⟨branch_inlines hcond hyes hno hin, ?_⟩
  intro b a s id v rest room p hf hb hpc hstack hroom hleft hself hrole hfits hone hempty
  rw [words_append, Block.holds_append, ← hpc] at hb
  have hpiece : b.Holds a.pc (piece.words a.pc) := by
    simpa only [Code.words, List.append_nil] using hb.2
  have hlast := hpiece.size (words_ne_nil piece a.pc)
  have hlimit := hf.block
  rw [runFrom_branchJumps hin hpiece htyped htyped' hf hstack hleft hone hempty]
  exact outcome_goOn
    (outcome_calledLiterals hin hself hrole hfits (by omega) hstack hroom _).symm _

/-- A conjunction or disjunction behind whose first operand the compiler has found only block
literals. -/
theorem runFrom_compiledConnective (isAnd : Bool) {first : Code} {bodies : List Code}
    {other : Option Code} {n : Nat} (ht : st.table.Sound .layout)
    (hshort : st.cursor.rest.length < operandLimit)
    (hfirst : ((nested levels).arg .condition prev).run st = (some first, st₁))
    (hbodies : (takeLiterals (nested levels) prev (maxArgs - 1) 1).run st₁ =
      ((bodies, other, n, false), st₂)) :
    (connective (nested levels) isAnd self prev).run st =
      ((first ++ [chain (stopOp isAnd) bodies], false), st₂) ∧
    ∀ {b : Block} {a : Activation} {s : Interp} {id : Ident} {v : Value} {rest : List Value}
      (room p : Nat), Fits .layout st₂.table b →
      b.Holds p (Code.words p (first ++ [chain (stopOp isAnd) bodies])) →
      a.pc = p + (Code.words p first).length → a.stack = v :: rest →
      a.stack.length + bodies.length ≤ maxOperands → b.size < a.pc + left →
      s.table.get? self = some id → id.role = .control (if isAnd then .and else .or) →
      self < callIndexLimit →
      givesNoCode (run room) b (!isAnd) (bodyStarts a.pc bodies)
        (outcome (Library.codeResult (run room) v) s) = true →
      outcome (runFrom (run room) b left a) s = outcome (goOn (run room) b left a.locals
        (performCode (run room) b (calledConnective self bodies) a)) s := by
  have hk := nested_serves .layout levels
  obtain ⟨hshort₁, hnames, -⟩ := (hk.arg _ _ _).run ht hshort hfirst
  obtain ⟨-, -, htyped, hmany, -⟩ :=
    (gives_takeLiterals hk _ _ _).run (hnames.sound ht) hshort₁ hbodies
  have hargs : bodies.length < maxArgs := Nat.lt_of_le_of_lt hmany (by decide)
  refine ⟨connective_inlines isAnd hfirst hbodies, ?_⟩
  intro b a s id v rest room p hf hb hpc hstack hroom hleft hself hrole hfits hcode
  rw [words_append, Block.holds_append, ← hpc] at hb
  have hchain : b.Holds a.pc ((chain (stopOp isAnd) bodies).words a.pc) := by
    simpa only [Code.words, List.append_nil] using hb.2
  have hlast := hchain.size (words_ne_nil _ _)
  rw [length_chain] at hlast
  have hlimit := hf.block
  rw [outcome_chain (forward_run room) isAnd .null hchain (endInPlace_chain room hf hchain htyped)
    hcode hlimit hstack (by omega) hleft]
  exact outcome_goOn (outcome_calledConnective hself hfits hrole hargs (by omega) hstack hroom).symm _

end ConsoleScript
