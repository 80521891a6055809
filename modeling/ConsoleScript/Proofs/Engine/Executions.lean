import ConsoleScript.Proofs.Engine.Sessions

/-!
What an execution does to an interpreter, and how it can end. However a text ends, no call is running
afterwards and every identifier has as many saved values as before. Code that was compiled finds its
operands and identifiers, and, unless surplus arguments crowd the stack, has room for its operands.

An execution may also stop as exhausted, when a loop without a count has taken more rounds than
`Interp.patience`. It is balanced then, too; nothing is said of the rounds that the loop would still have
taken.
-/

namespace ConsoleScript

open Bytecode Engine

/-- An execution that restored what it had changed for its calls. -/
structure Balanced (s s' : Interp) : Prop where
  scopes : s'.scopes = []
  outermost : s'.outermost = SlotSet.all
  level : s'.level = s.level
  callArgs : s'.callArgs = s.callArgs
  muted : s'.muted = s.muted
  depth : ∀ i, s'.table.depth i = s.table.depth i

/-- The cause of the fault with which an execution ended, be it as its answer or without one. -/
def faultCause? : Except Stop (Except Fault Value) → Option Fault.Cause
  | .ok (.error f) | .error (.fault f) => some f.cause
  | _ => none

variable {r : Rigour} {s : Interp}

/-- A text and its code fit the fields of words, with the identifiers that there are by then, and
nothing in it crowds the stack. -/
def fitsWords (t : Table) (src name : Bytes) : Bool :=
  src.length < operandLimit && (compile t src name).block.size < operandLimit &&
    (compile t src name).table.size ≤ callIndexLimit &&
    Compile.Code.uncrowded (Compile.program t src name).1

theorem Within.of_fitsWords (h : ∀ t src name, s.compiled t src name → fitsWords t src name = true) :
    Within r s := by
  simp only [fitsWords, Bool.and_eq_true, decide_eq_true_eq] at h
  refine ⟨fun t src name hc => (h t src name hc).1.1.1, fun t src name hc => (h t src name hc).1.1.2,
    fun t src name hc => ?_, fun _ t src name hc => (h t src name hc).1.2,
    fun _ t src name hc => (h t src name hc).2⟩
  exact Nat.le_trans (h t src name hc).1.2 (by decide)

theorem Within.of_compiled {t : Table} {src name : Bytes}
    (hc : s.compiled = fun t' src' name' => False ∨ (t' = t ∧ src' = src ∧ name' = name))
    (h : fitsWords t src name = true) : Within r s := by
  refine .of_fitsWords fun t' src' name' hc' => ?_
  rw [hc] at hc'
  obtain ⟨rfl, rfl, rfl⟩ := hc'.resolve_left id
  exact h

theorem Within.of_run {α : Type} {t : Table} {src name : Bytes} {found expected : α}
    (h : (s.compiled, fitsWords t src name, found) =
      (fun t' src' name' => False ∨ (t' = t ∧ src' = src ∧ name' = name), true, expected)) :
    Within r s ∧ found = expected := by
  obtain ⟨hc, hrest⟩ := Prod.mk.inj h
  obtain ⟨hfits, hfound⟩ := Prod.mk.inj hrest
  exact ⟨.of_compiled hc hfits, hfound⟩

theorem Reachable.settles_execute (hs : Reachable r s) (src : Bytes)
    (hw : Within r (outcome (execute src) s).2) :
    AtRest r s ∧ Settles r s (outcome (execute src) s).2 ∧
      Ends r (World.Answers r) (outcome (execute src) s) := by
  have hsafe := World.safe_execute (w := ⟨s, AtRest r s, AtRest.inv⟩) src
  unfold World.Safe World.Sees at hsafe
  dsimp only at hsafe
  generalize outcome (execute src) s = p at *
  obtain ⟨hg, hk⟩ := hsafe
  have hrest := hs.atRest (hw.of_grows hg.grows)
  exact ⟨hrest, hk hrest hw⟩

/-- However a text ends, the level is the one from before. The runs that a fault ends do not come back
from their levels; the execution does. -/
theorem level_execute (s : Interp) (src : Bytes) :
    (outcome (execute src) s).2.level = s.level := by
  have hsteady : Steadies s (outcome (runText (run s.maxDepth.toNat) src []) s) :=
    (World.safe_runText (w := ⟨s, False, nofun⟩) (runsSafely_run .layout _) src []).1
  rw [execute, outcome_runner, executeText]
  exact hsteady.level_protect

/-- Whatever a text does and however it ends, the bindings are restored: no call is running, code is
nested as deeply as before and results go where they went, and the numbers of arguments, of silencing
commands and of saved values are those from before. The host may
register commands with any parameters, again and again, which may fail and execute further texts; what
it hands in as code must be code that can be run, and what is compiled must fit its words. -/
theorem execute_balanced (hs : Reachable .layout s) (src : Bytes)
    (hw : Within .layout (outcome (execute src) s).2) :
    Balanced s (outcome (execute src) s).2 := by
  obtain ⟨hrest, hk, -⟩ := hs.settles_execute src hw
  have hrest' := hrest.settled hk
  refine ⟨hrest'.scopes, hrest'.inv.outermost, level_execute s src, hk.callArgs, hk.muted, fun i => ?_⟩
  rw [hrest.depth, hrest'.depth]

def failingHost : Interp :=
  (Request.registerCommand (utf8 "boom") [] (some fun _ => .fail []) {}).perform .new

private theorem reachable_failingHost : Reachable .layout failingHost := by
  unfold failingHost
  refine .request .new _ fun g sig hg _ => ⟨⟨nofun, fun t args _ _ => ?_⟩, fun hr => absurd rfl hr⟩
  cases hg
  exact (nofun : Rigour.layout ≠ .operands)

set_option maxRecDepth 100000 in
private theorem run_failingHost :
    ((outcome (execute (utf8 "loop i 2 [boom]")) failingHost).2.compiled,
      fitsWords failingHost.table (utf8 "loop i 2 [boom]") [],
      faultCause? (outcome (execute (utf8 "loop i 2 [boom]")) failingHost).1) =
    (fun t src name => False ∨ (t = failingHost.table ∧ src = utf8 "loop i 2 [boom]" ∧ name = []),
      true, some (.host [])) := by
  with_unfolding_all rfl

/-- The command fails while the loop has a value of its variable saved. -/
theorem execute_balanced_failing :
    faultCause? (outcome (execute (utf8 "loop i 2 [boom]")) failingHost).1 = some (.host []) ∧
      Balanced failingHost (outcome (execute (utf8 "loop i 2 [boom]")) failingHost).2 := by
  obtain ⟨hw, hfault⟩ := Within.of_run (r := .layout) run_failingHost
  exact ⟨hfault, execute_balanced reachable_failingHost _ hw⟩

/-- A block that no text has, which makes the variable for the number of arguments writable. -/
def foreignBlock : Block := { name := utf8 "b", words := #[0, 1356, 6704, 9] }

/-- Code of the host that can not come from a text breaks the balance of later executions. -/
theorem execute_unbalanced_by_foreign_code :
    ¬Balanced ((Request.executeCode foreignBlock 1).perform .new)
      (outcome (execute (utf8 "numargs = 3"))
        ((Request.executeCode foreignBlock 1).perform .new)).2 := by
  intro h
  have hargs := h.callArgs
  revert hargs
  decide +kernel

theorem permits_of_ends {p : Except Stop (Except Fault Value) × Interp}
    (h : Ends r (World.Answers r) p) {c : Fault.Cause} (hc : faultCause? p.1 = some c) :
    ∃ f : Fault, f.cause = c ∧ r.Permits (.fault f) := by
  obtain ⟨(f | _) | (f | v), s'⟩ := p
  · cases hc
    exact ⟨f, rfl, h⟩
  · cases hc
  · cases hc
    exact ⟨f, rfl, h.2 f rfl⟩
  · cases hc

theorem Reachable.permits (hs : Reachable r s) (src : Bytes)
    (hw : Within r (outcome (execute src) s).2) {c : Fault.Cause}
    (hc : faultCause? (outcome (execute src) s).1 = some c) :
    ∃ f : Fault, f.cause = c ∧ r.Permits (.fault f) := by
  obtain ⟨-, -, hends⟩ := hs.settles_execute src hw
  generalize outcome (execute src) s = p at hends hc
  exact permits_of_ends hends hc

/-- Code that was compiled is sound for the engine: with commands of the library and of a host that
have fixed parameters, keep them, and do not fail, an execution can end with a fault only because an
operand does not fit the stack. -/
theorem execute_faults_only_by_overflow (hs : Reachable .operands s) (src : Bytes)
    (hw : Within .operands (outcome (execute src) s).2) :
    faultCause? (outcome (execute src) s).1 = none ∨
      faultCause? (outcome (execute src) s).1 = some .stackOverflow := by
  cases hc : faultCause? (outcome (execute src) s).1 with
  | none => exact .inl rfl
  | some c =>
      obtain ⟨f, rfl, hf⟩ := hs.permits src hw hc
      exact .inr (congrArg some hf)

/-- A host whose command gives its first argument back. -/
def echoingHost : Interp :=
  (Request.registerCommand (utf8 "foo") (utf8 "i") (some fun args => .done (args.headD .null))
    {}).perform .new

private theorem reachable_echoingHost : Reachable .operands echoingHost := by
  unfold echoingHost
  refine .request .new _ fun g sig hg hsig => ?_
  cases hg
  have hint : sig = [.int] := by
    cases hsig
    decide +kernel
  subst hint
  refine ⟨⟨nofun, fun t args _ hargs => ?_⟩, fun _ => ⟨?_, fun i id sig action hid => ?_⟩⟩
  · cases args with
    | nil => trivial
    | cons v args => exact hargs v List.mem_cons_self
  · exact fun l hl => List.mem_singleton.mp hl ▸ rfl
  · have hfree : (Interp.new.table.lookup? (utf8 "foo")).isNone = true := by decide +kernel
    rw [hid] at hfree
    cases hfree

set_option maxRecDepth 100000 in
private theorem run_echoingHost :
    ((outcome (execute (utf8 "loop i 2 [foo $i]")) echoingHost).2.compiled,
      fitsWords echoingHost.table (utf8 "loop i 2 [foo $i]") [], ()) =
    (fun t src name => False ∨ (t = echoingHost.table ∧ src = utf8 "loop i 2 [foo $i]" ∧ name = []),
      true, ()) := by
  with_unfolding_all rfl

/-- A loop that calls a command of the host. -/
theorem execute_faults_echoing :
    faultCause? (outcome (execute (utf8 "loop i 2 [foo $i]")) echoingHost).1 = none ∨
      faultCause? (outcome (execute (utf8 "loop i 2 [foo $i]")) echoingHost).1 =
        some .stackOverflow := by
  exact execute_faults_only_by_overflow reachable_echoingHost _ (Within.of_run run_echoingHost).1

/-- An alias that was compiled for a command which then got further parameters. -/
def outdatedHost : Interp :=
  let foo (sig : String) :=
    Request.registerCommand (utf8 "foo") (utf8 sig) (some fun _ => .done .null) {}
  (foo "iii").perform ((Request.execute (utf8 "a = [foo 1]; a")).perform ((foo "i").perform .new))

/-- The code of the alias does not push the operands that its command takes now. -/
theorem execute_underflows_after_registration :
    faultCause? (outcome (execute (utf8 "a")) outdatedHost).1 = some (.stackShort 3 1) := by
  decide +kernel

/-- With the commands of the library, an execution never ends because an operand does not fit the
stack, as long as no text shadows names with code for surplus arguments on top of them. -/
theorem execute_never_overflows (hs : Reachable .room s) (src : Bytes)
    (hw : Within .room (outcome (execute src) s).2) :
    faultCause? (outcome (execute src) s).1 ≠ some .stackOverflow := by
  intro hc
  obtain ⟨f, hf, hp⟩ := hs.permits src hw hc
  exact hp hf

set_option maxRecDepth 100000 in
private theorem run_locals :
    ((outcome (execute (utf8 "local arg1; arg1 = 3")) .new).2.compiled,
      fitsWords Interp.new.table (utf8 "local arg1; arg1 = 3") [], ()) =
    (fun t src name => False ∨ (t = Interp.new.table ∧ src = utf8 "local arg1; arg1 = 3" ∧ name = []),
      true, ()) := by
  with_unfolding_all rfl

/-- A name that may be shadowed, and then gets a value. -/
theorem execute_never_overflows_locals :
    faultCause? (outcome (execute (utf8 "local arg1; arg1 = 3")) .new).1 ≠ some .stackOverflow := by
  exact execute_never_overflows .new _ (Within.of_run run_locals).1

/-- Surplus arguments are compiled for an empty stack, though the names are below them. -/
theorem execute_overflows_by_surplus_arguments :
    let names := utf8 "arg1 arg1 arg1 arg1 arg1 "
    faultCause? (outcome (execute (utf8 "local " ++ names ++ names ++ names ++ names ++ names ++
      utf8 "(arg1 1 2 3 4 5 6 7 8)")) .new).1 = some .stackOverflow := by
  decide +kernel

end ConsoleScript
