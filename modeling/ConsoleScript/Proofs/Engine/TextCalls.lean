import ConsoleScript.Proofs.Engine.CommandCalls
import ConsoleScript.Proofs.Persist.AliasConfigs

/-!
Texts that are one call of a command of the library. If such a text is compiled to the code of the
arguments and the call, and a run through this code pushes values, then executing the text gives what
the command gives for the values, and does nothing else.
-/

namespace ConsoleScript

open Bytecode Engine Compile

/-- A name stands for a command of the library. -/
structure Table.HasBuiltin (t : Table) (name : Bytes) (index : Nat) (sig : Signature)
    (builtin : Builtin) : Prop where
  found : ∃ id, t.lookup? name = some (index, id) ∧ id.role = .command sig (.builtin builtin)
  fits : index < callIndexLimit

variable {s : Interp} {self n room : Nat} {name src : Bytes} {sig : Signature} {builtin : Builtin}

/-- A text that is one call of a command with any number of arguments gives what the command gives for
the values that its arguments push. -/
theorem outcome_execute_comAll (hname : s.table.HasBuiltin name self sig builtin)
    (hsig : .joined ∉ sig) {args : Code} {st : State}
    (hprogram : program s.table src [] = (args ++ [.instr (.call .comAll .null n self)], st))
    (htable : st.table = s.table) (hwarnings : st.warnings = []) (hn : n ≤ maxArgs)
    (hroom : s.maxDepth.toNat = room + 1) {v : Value}
    (hargs : ∀ b : Block, b.Holds 1 (Code.words 1 args) → ∃ vs : List Value, vs.length = n ∧
      Leads (run room) b { pc := 1 } ((s.addCompiled src [] s.table).setLevel s.level.inner)
        { pc := 1 + (Code.words 1 args).length, stack := vs.reverse ++ [] }
        ((s.addCompiled src [] s.table).setLevel s.level.inner) ∧
      Library.apply (run room) builtin vs = pure v) :
    outcome (execute src) s =
      (.ok (.ok v), { s.addCompiled src [] s.table with result := v }) := by
  obtain ⟨id, hfound, hrole⟩ := hname.found
  have hsilent : (compile s.table src []).warnings = [] := by
    rw [compile_warnings, hprogram, hwarnings]
    rfl
  have hcompile := outcome_compileText_silent [] hsilent
  rw [compile_table, compile_block, hprogram, htable] at hcompile
  obtain ⟨hcode, hexit⟩ := Block.holds_append.mp
    (holds_toBlock [] (args ++ [.instr (.call .comAll .null n self)]))
  generalize toBlock [] (args ++ [.instr (.call .comAll .null n self)]) = b at hcompile hcode hexit
  rw [words_append, Block.holds_append] at hcode
  rw [words_append, List.length_append, ← Nat.add_assoc] at hexit
  let s₁ := (s.addCompiled src [] s.table).setLevel s.level.inner
  let pc := 1 + (Code.words 1 args).length
  obtain ⟨vs, rfl, hleads, happly⟩ := hargs b hcode.1
  have hword : b.Holds pc (callInstr .comAll vs.length self).encode := by
    simpa [Code.words, Piece.words, callInstr] using hcode.2
  have hcalled := runFrom_callInstr (a := { pc, stack := vs.reverse ++ [] })
    (s := s₁) (forward_run room) (.comAll hn hsig) (Table.get?_of_lookup? hfound) hrole
    hname.fits rfl
    (show (vs.reverse ++ []).length < 32 by
      rw [List.append_nil, List.length_reverse]
      unfold maxArgs at hn
      omega)
    hword (show b.size < pc + (b.size + 1) by omega)
  have hlevel : s₁.level = s.level.inner := rfl
  have htext := outcome_runText hcompile hlevel
    ((hleads.runs _ (show b.size < 1 + (b.size + 1) by omega)).trans hcalled)
    (Block.holds_cons.mp hexit).1
  have hinvoke : invoke (run room) id (received .comAll vs) = pure v := by
    rw [invoke, hrole]
    exact happly
  rw [hinvoke] at htext
  rw [execute, outcome_runner, hroom, executeText, outcome_protect, htext]
  rfl

end ConsoleScript
