import ConsoleScript.Proofs.Compile.IntegerCalls
import ConsoleScript.Proofs.Engine.TextCalls
import ConsoleScript.Proofs.Library.Arithmetic

/-!
The commands for integers, from their source texts to their results. A text of the name of an
operator and integers in decimal is compiled to their literals and one call, run to the values of the
literals, and gives the fold of the integers that wraps to a word after each step. A text of the name
of a comparison and two or more integers tells whether all neighbours compare.
-/

namespace ConsoleScript

open Bytecode Engine Compile

/-- The name of an operator in the library. -/
def IntOp.name : IntOp → String
  | .add => "+"
  | .mul => "*"
  | .sub => "-"
  | .xor => "^"
  | .and => "&"
  | .or => "|"
  | .xorNot => "^~"
  | .andNot => "&~"
  | .orNot => "|~"
  | .shiftLeft => "<<"
  | .shiftRight => ">>"
  | .div => "div"
  | .mod => "mod"

/-- The name of a comparison of integers in the library. -/
def Relation.name : Relation → String
  | .eq => "="
  | .ne => "!="
  | .lt => "<"
  | .gt => ">"
  | .le => "<="
  | .ge => ">="

section Runs

variable {k : Runner} {b : Block} {a : Activation} {s : Interp} {self : Nat} {name src : Bytes}
  {builtin : Builtin}

/-- The literals of integers are pushed one after another. -/
theorem leads_ints (hk : Forward k) {vs : List Int32}
    (hw : b.Holds a.pc (Code.words a.pc (intCodes vs)))
    (hroom : a.stack.length + vs.length ≤ maxOperands) (s : Interp) :
    Leads k b a s { a with
      pc := a.pc + (Code.words a.pc (intCodes vs)).length
      stack := (vs.map Value.int).reverse ++ a.stack } s := by
  induction vs generalizing a with
  | nil => exact .refl k b a s
  | cons v vs ih =>
      have hsplit : intCodes (v :: vs) = intCode v ++ intCodes vs := List.flatMap_cons ..
      rw [List.length_cons] at hroom
      rw [hsplit, words_append, Block.holds_append] at hw
      have hcode : Code.words a.pc (intCode v) = (Instr.ofInt v).encode := by
        simp [intCode, Code.words, Piece.words]
      rw [hcode] at hw
      obtain ⟨l, hl, hleads⟩ := leads_literal hk (.int v) hw.1 (by omega) s
      rw [lit_ofInt] at hl
      cases hl
      have hvalue : literalValue (Instr.ofInt v).op (.int v) = .int v := rfl
      rw [hvalue] at hleads
      have hrest := ih (a := { a with
        pc := a.pc + (Instr.ofInt v).encode.length, stack := .int v :: a.stack }) hw.2
        (by rw [List.length_cons]; omega)
      have hall := hleads.trans hrest
      rw [hsplit, words_append, hcode, List.length_append, ← Nat.add_assoc, List.map_cons,
        List.reverse_cons, List.append_assoc]
      exact hall

/-- A text of the name of a command that takes any number of integers and integers calls the command
with the integers; there is at least one, which is zero if none is given. -/
theorem outcome_execute_integers (hname : s.table.HasBuiltin name self integers builtin)
    {vs : List Int32} (hlength : vs.length ≤ maxArgs)
    (hws : Spells (name :: vs.map Printing.int) src []) {v : Value} {room : Nat}
    (hroom : s.maxDepth.toNat = room + 1)
    (happly : Library.apply (run room) builtin ((givenInts vs).map Value.int) = pure v) :
    outcome (execute src) s =
      (.ok (.ok v), { s.addCompiled src [] s.table with result := v }) := by
  obtain ⟨id, hfound, hrole⟩ := hname.found
  have hsign : ∀ w ∈ (vs.map Printing.int).head?, isSign w = false := by
    intro w hw
    obtain ⟨v, -, rfl⟩ := List.mem_map.mp (List.mem_of_mem_head? hw)
    exact isSign_printInt v
  obtain ⟨st, hprogram, htable, hwarnings⟩ :=
    program_integers hws hfound hrole hsign (by simpa using hlength) []
  have hread : (vs.map Printing.int).map Reading.int = vs := by
    rw [List.map_map]
    exact (List.map_congr_left fun v _ => int_printInt v).trans (List.map_id vs)
  rw [hread, integersCode] at hprogram
  have hcount : (givenInts vs).length ≤ maxArgs := by
    unfold givenInts
    split
    · decide
    · exact hlength
  refine outcome_execute_comAll hname (by decide) hprogram htable hwarnings hcount hroom
    fun b hw => ⟨_, List.length_map .., ?_, happly⟩
  exact leads_ints (a := { pc := 1 }) (forward_run room) hw
    (show 0 + (givenInts vs).length ≤ 32 by unfold maxArgs at hcount; omega) _

end Runs

/-- A text of a name and integers in decimal, with blanks between them. -/
def integersText (name : String) (vs : List Int32) : Bytes :=
  Bytes.joinWith [0x20] (utf8 name :: vs.map Printing.int)

private theorem spells_integersText {name : String} (hname : Entry.IsBareWord (utf8 name))
    (vs : List Int32) : Spells (utf8 name :: vs.map Printing.int) (integersText name vs) [] := by
  refine spells_joinWith (List.forall_mem_cons.mpr ⟨hname, fun w hw => ?_⟩)
  obtain ⟨v, -, rfl⟩ := List.mem_map.mp hw
  exact isBareWord_printInt v

theorem IntOp.isBareWord_name (op : IntOp) : Entry.IsBareWord (utf8 op.name) := by
  cases op <;> exact ⟨by decide, by decide, by decide⟩

theorem Relation.isBareWord_name (r : Relation) : Entry.IsBareWord (utf8 r.name) := by
  cases r <;> exact ⟨by decide, by decide, by decide⟩

private theorem toInt_givenInts (vs : List Int32) :
    ((givenInts vs).map Value.int).map Value.toInt = givenInts vs := by
  rw [List.map_map]
  exact List.map_id _

theorem IntOp.toInt_fold_givenInts (op : IntOp) (vs : List Int32) :
    (op.fold (givenInts vs)).toInt =
      op.foldOnInts (op.unaryOnInts 0) (vs.map Int32.toInt) := by
  cases vs with
  | nil => cases op <;> rfl
  | cons v vs =>
      have hgiven : givenInts (v :: vs) = v :: vs := rfl
      have hnone (z z' : Int) : op.foldOnInts z ((v :: vs).map Int32.toInt) =
          op.foldOnInts z' ((v :: vs).map Int32.toInt) := by cases vs <;> rfl
      rw [hgiven, op.toInt_fold, hnone]

/-- The commands for integers compute. For every interpreter that has the command of an operator,
and at most as many integers as a command can be called with, the text of its name and the integers
in decimal gives an integer and changes nothing else: the fold of the integers from the left that
wraps to a word after each step, the unary form of the operator for one integer, and its unary form of
zero for none. The text of a comparison and two or more integers gives one or zero: one exactly if all
neighbours compare. -/
theorem integer_commands_compute {s : Interp} (hdepth : 0 < s.maxDepth) {vs : List Int32}
    (hlength : vs.length ≤ maxArgs) :
    (∀ op index, s.table.HasBuiltin (utf8 (IntOp.name op)) index integers (.intFold op) →
      ∃ v, outcome (execute (integersText op.name vs)) s = (.ok (.ok (.int v)),
          { s.addCompiled (integersText op.name vs) [] s.table with result := .int v }) ∧
        v.toInt = op.foldOnInts (op.unaryOnInts 0) (vs.map Int32.toInt)) ∧
    (2 ≤ vs.length →
      ∀ r index, s.table.HasBuiltin (utf8 (Relation.name r)) index integers (.intCompare r) →
        ∃ v, outcome (execute (integersText r.name vs)) s = (.ok (.ok (.int v)),
            { s.addCompiled (integersText r.name vs) [] s.table with result := .int v }) ∧
          (v = 0 ∨ v = 1) ∧ (v = 1 ↔ (vs.map Int32.toInt).IsChain r.Holds)) := by
  obtain ⟨room, hroom⟩ : ∃ room, s.maxDepth.toNat = room + 1 := ⟨s.maxDepth.toNat - 1, by omega⟩
  refine ⟨fun op index hop => ?_, fun htwo r index hr => ?_⟩
  · refine ⟨op.fold (givenInts vs), ?_, op.toInt_fold_givenInts vs⟩
    refine outcome_execute_integers hop hlength (spells_integersText op.isBareWord_name vs) hroom ?_
    rw [Library.apply, toInt_givenInts]
  · obtain ⟨a, b, rest, rfl⟩ : ∃ a b rest, vs = a :: b :: rest := by
      match vs with
      | a :: b :: rest => exact ⟨a, b, rest, rfl⟩
    have hgiven : givenInts (a :: b :: rest) = a :: b :: rest := rfl
    refine ⟨if Relation.chain r.onInts 0 (a :: b :: rest) then 1 else 0, ?_, ?_, ?_⟩
    · refine outcome_execute_integers hr hlength (spells_integersText r.isBareWord_name _) hroom ?_
      rw [Library.apply, toInt_givenInts, hgiven]
      rfl
    · split
      · exact .inr rfl
      · exact .inl rfl
    · rw [← r.chain_iff]
      split
      next h => exact iff_of_true rfl h
      next h => exact iff_of_false (by decide) h

set_option maxRecDepth 100000 in
private theorem hasBuiltin_new :
    (∀ op, ∃ index,
      Interp.new.table.HasBuiltin (utf8 (IntOp.name op)) index integers (.intFold op)) ∧
    ∀ r, ∃ index,
      Interp.new.table.HasBuiltin (utf8 (Relation.name r)) index integers (.intCompare r) := by
  constructor
  · intro op
    cases op <;>
      exact ⟨_, ⟨_, by with_unfolding_all rfl, by with_unfolding_all rfl⟩, by decide⟩
  · intro r
    cases r <;>
      exact ⟨_, ⟨_, by with_unfolding_all rfl, by with_unfolding_all rfl⟩, by decide⟩

/-- The least integer divided by minus one wraps, and no integers at all are a zero. -/
theorem integer_commands_compute_extremes :
    (∃ s v, outcome (execute (utf8 "div -2147483648 -1")) .new = (.ok (.ok (.int v)), s) ∧
      v.toInt = -2147483648) ∧
    (∃ s v, outcome (execute (utf8 "*")) .new = (.ok (.ok (.int v)), s) ∧ v.toInt = 0) ∧
    ∃ s, outcome (execute (utf8 "<= -1 0 0 31")) .new = (.ok (.ok (.int 1)), s) := by
  obtain ⟨hop, hr⟩ := hasBuiltin_new
  obtain ⟨_, hdiv⟩ := hop .div
  obtain ⟨_, hmul⟩ := hop .mul
  obtain ⟨_, hle⟩ := hr .le
  obtain ⟨v, hv, hvalue⟩ := (@integer_commands_compute .new (by decide)
    [-2147483648, -1] (by decide)).1 .div _ hdiv
  obtain ⟨z, hz, hzero⟩ := (@integer_commands_compute .new (by decide)
    [] (by decide)).1 .mul _ hmul
  obtain ⟨o, ho, -, hone⟩ := (@integer_commands_compute .new (by decide)
    [-1, 0, 0, 31] (by decide)).2 (by decide) .le _ hle
  have hone : o = 1 := hone.mpr (by simp [Relation.Holds])
  subst hone
  have hdivText : integersText (IntOp.name .div) [-2147483648, -1] = utf8 "div -2147483648 -1" := by
    decide
  have hmulText : integersText (IntOp.name .mul) [] = utf8 "*" := by decide
  have hleText : integersText (Relation.name .le) [-1, 0, 0, 31] = utf8 "<= -1 0 0 31" := by
    decide
  rw [hdivText] at hv
  rw [hmulText] at hz
  rw [hleText] at ho
  exact ⟨⟨_, v, hv, hvalue.trans (by decide)⟩, ⟨_, z, hz, hzero⟩, _, ho⟩

end ConsoleScript
