import ConsoleScript.Proofs.Engine.Compiling
import ConsoleScript.Proofs.Engine.Executions
import ConsoleScript.Proofs.Interp.Naming

/-!
Blocks that were compiled in one interpreter and are executed in another one, where the names of the
first have been bound to the same indices. Binding looks at names only. If every index also has the
kind there that it had, and commands their parameters, the block finds its operands and identifiers as
it does at home. As everywhere, rounds of a loop without a count beyond `Interp.patience` are left out.
-/

namespace ConsoleScript

open Bytecode Engine

variable {r : Rigour} {s a b : Interp} {src name : Bytes}

namespace Interp

/-- The interpreter after a text was compiled as a block. -/
def compiling (src name : Bytes) (s : Interp) : Interp := (Request.compile src name).perform s

/-- The interpreter after names were bound. -/
def binding (names : List Bytes) (s : Interp) : Interp := (Request.bindIdents names).perform s

theorem compiling_eq (src name : Bytes) (s : Interp) : ∃ texts, s.compiling src name =
    warned texts (s.addCompiled src name (compile s.table src name).table) := by
  obtain ⟨texts, hok⟩ := outcome_compileText src name s
  refine ⟨texts, ?_⟩
  change (outcome (compileText src name) s).2 = _
  rw [hok]

private theorem binding_eq (names : List Bytes) (s : Interp) :
    s.binding names = { s with table := (s.table.bind names).2 } := by
  change (outcome (bindIdents names) s).2 = _
  rw [outcome_bindIdents]

/-- Identifiers with an index in both interpreters have the same kind, and commands the same
parameters. -/
def SameForms (r : Rigour) (a b : Interp) : Prop :=
  ∀ i id id', a.table.get? i = some id → b.table.get? i = some id' → id'.role.form r = id.role.form r

/-- Where the names of an interpreter were bound, each of its identifiers has its form. -/
theorem SameForms.extends (h : SameForms r a (b.binding a.table.names))
    (hbound : (outcome (bindIdents a.table.names) b).1 = .ok true) :
    a.table.Extends r (b.binding a.table.names).table := by
  rw [binding_eq] at h ⊢
  rw [outcome_bindIdents] at hbound
  have hnames := Table.names_of_bind (Except.ok.inj hbound)
  intro i f hf
  obtain ⟨id, hid, rfl⟩ := Option.map_eq_some_iff.mp hf
  obtain ⟨id', hid'⟩ : ∃ id', (b.table.bind a.table.names).2.get? i = some id' := by
    refine Table.exists_get? ?_
    have hlength := congrArg List.length hnames
    rw [List.length_take, Table.length_names, Table.length_names] at hlength
    exact Nat.lt_of_lt_of_le (Table.lt_size_of_get? hid) (hlength ▸ Nat.min_le_right _ _)
  rw [Table.form?_of_get? hid', h i id id' hid hid']

end Interp

theorem Reachable.code_ok (ha : Reachable r a) (hw : Within r (a.compiling src name))
    {t : Table} (ht : (a.compiling src name).table.Extends r t) :
    (Value.code (compile a.table src name).block 1).Ok r t := by
  obtain ⟨texts, hcompiling⟩ := a.compiling_eq src name
  rw [hcompiling] at hw ht
  have hgrows : Grows a (warned texts (a.addCompiled src name (compile a.table src name).table)) :=
    fun _ _ _ hc => .inl hc
  obtain ⟨-, e, he⟩ := compile_runnable (ha.atRest (hw.of_grows hgrows)).inv.table.toSound hw
    (.inr ⟨rfl, rfl, rfl⟩)
  exact ⟨e, he.mono ht⟩

private theorem within_compiling (hnone : ∀ t src name, ¬s.compiled t src name)
    (h : fitsWords s.table src name = true) : Within r (s.compiling src name) := by
  obtain ⟨texts, hcompiling⟩ := s.compiling_eq src name
  rw [hcompiling]
  refine .of_fitsWords fun t src' name' hc => ?_
  obtain ⟨rfl, rfl, rfl⟩ := hc.resolve_left (hnone t src' name')
  exact h

/-- Code that can be run ends with a fault only as is permitted. -/
theorem Reachable.permits_code (hs : Reachable r s) {block : Block}
    (hb : (Value.code block 1).Ok r s.table) (hw : Within r (outcome (executeBlock block) s).2)
    {c : Fault.Cause} (hc : faultCause? (outcome (executeBlock block) s).1 = some c) :
    ∃ f : Fault, f.cause = c ∧ r.Permits (.fault f) := by
  have hsafe := @World.safe_executeCode r ⟨s, AtRest r s, AtRest.inv⟩ block 1 fun _ => hb
  obtain ⟨hsteady, hkeeps⟩ := hsafe
  exact permits_of_ends (hkeeps (hs.atRest (hw.of_grows hsteady.grows)) hw).2 hc

/-- A block that was compiled in one interpreter finds its operands and identifiers in another one, in
which the names of the first were bound and every identifier has the kind, and every command the
parameters, that it has in the first: its execution can end with a fault only because an operand does
not fit the stack. -/
theorem bound_blocks_fault_only_by_overflow (ha : Reachable .operands a) (hb : Reachable .operands b)
    (hwa : Within .operands (a.compiling src name))
    (hbound : (outcome (bindIdents (a.compiling src name).table.names) b).1 = .ok true)
    (hforms : Interp.SameForms .operands (a.compiling src name)
      (b.binding (a.compiling src name).table.names))
    (hwb : Within .operands (outcome (executeBlock (compile a.table src name).block)
      (b.binding (a.compiling src name).table.names)).2) :
    faultCause? (outcome (executeBlock (compile a.table src name).block)
      (b.binding (a.compiling src name).table.names)).1 = none ∨
    faultCause? (outcome (executeBlock (compile a.table src name).block)
      (b.binding (a.compiling src name).table.names)).1 = some .stackOverflow := by
  have hbinding : Reachable .operands (b.binding (a.compiling src name).table.names) :=
    hb.request (.bindIdents _) trivial
  have hok := ha.code_ok hwa (hforms.extends hbound)
  cases hc : faultCause? (outcome (executeBlock (compile a.table src name).block)
      (b.binding (a.compiling src name).table.names)).1 with
  | none => exact .inl rfl
  | some c =>
      obtain ⟨f, rfl, hf⟩ := hbinding.permits_code hok hwb hc
      exact .inr (congrArg some hf)

def numberHost : Interp := (Request.registerInt (utf8 "x") 0 0 9 {} .none).perform .new

private theorem reachable_numberHost : Reachable .operands numberHost :=
  .request .new (.registerInt (utf8 "x") 0 0 9 {} .none) trivial

set_option maxRecDepth 100000 in
private theorem checked_numberHost :
    let names := (numberHost.compiling (utf8 "x 5") (utf8 "c")).table.names
    ((outcome (executeBlock (compile numberHost.table (utf8 "x 5") (utf8 "c")).block)
        (numberHost.binding names)).2.compiled,
      fitsWords numberHost.table (utf8 "x 5") (utf8 "c"), (numberHost.table.bind names).1,
      decide ((numberHost.compiling (utf8 "x 5") (utf8 "c")).table.idents.toList.map
        (·.role.form .operands) =
          (numberHost.binding names).table.idents.toList.map (·.role.form .operands))) =
    (fun _ _ _ => False, true, true, true) := by
  with_unfolding_all rfl

/-- The variable is written by a block from another host. -/
theorem bound_blocks_fault_number :
    faultCause? (outcome (executeBlock (compile numberHost.table (utf8 "x 5") (utf8 "c")).block)
      (numberHost.binding (numberHost.compiling (utf8 "x 5") (utf8 "c")).table.names)).1 = none ∨
    faultCause? (outcome (executeBlock (compile numberHost.table (utf8 "x 5") (utf8 "c")).block)
      (numberHost.binding (numberHost.compiling (utf8 "x 5") (utf8 "c")).table.names)).1 =
        some .stackOverflow := by
  obtain ⟨hcompiled, hfits, hbound, hforms⟩ := by
    simpa only [Prod.mk.injEq, decide_eq_true_eq] using checked_numberHost
  refine bound_blocks_fault_only_by_overflow reachable_numberHost reachable_numberHost
    (within_compiling (fun t src name hc => ?_) hfits) (by rw [outcome_bindIdents, hbound])
    (fun i id id' hid hid' => ?_) (.of_fitsWords fun t src name hc => ?_)
  · change (Request.registered .new (Interp.new.register _)).compiled t src name at hc
    rw [compiled_registered] at hc
    exact hc
  · have hget := congrArg (·[i]?) hforms
    simp only [List.getElem?_map, Array.getElem?_toList] at hget
    change (numberHost.compiling _ _).table.idents[i]? = some id at hid
    change (numberHost.binding _).table.idents[i]? = some id' at hid'
    rw [hid, hid', Option.map_some, Option.map_some, Option.some.injEq] at hget
    exact hget.symm
  · rw [hcompiled] at hc
    exact hc.elim

/-- A host whose variable of the same name holds a text. -/
def textHost : Interp := (Request.registerText (utf8 "x") [] {} .none).perform .new

/-- Names alone do not tell kinds apart: the block that writes the number is bound where the variable
holds a text, and fails there, though the text itself can be executed. -/
theorem bound_block_breaks_in_another_kind :
    (outcome (bindIdents (numberHost.compiling (utf8 "x 5") (utf8 "c")).table.names) textHost).1.toOption =
      some true ∧
    (faultCause? (outcome (executeBlock (compile numberHost.table (utf8 "x 5") (utf8 "c")).block)
      (textHost.binding (numberHost.compiling (utf8 "x 5") (utf8 "c")).table.names)).1).isSome ∧
    (faultCause? (outcome (execute (utf8 "x 5")) textHost).1).isNone := by
  decide +kernel

end ConsoleScript
