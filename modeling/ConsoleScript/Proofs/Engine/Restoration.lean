import Mathlib
import ConsoleScript.Proofs.Engine.Executions

/-!
Calls of aliases restore the arguments of their callers exactly. The slots that a call binds lie on
top of those of its callers, whether they were bound as arguments, by the first write or by a loop,
and a scope knows which of them it has bound. So the bindings below those of the innermost scope stay
as they are, and the end of the call takes off just what the call has put on.

Code that is run with the arguments of a caller is the exception, since it writes to the caller's own
bindings.
-/

namespace ConsoleScript

open Bytecode Engine

variable {s s' : Interp}

/-- However a call of an alias ends, with a value or without one, it restores what it has bound. The
interpreter may be inside other calls and loops: only the invariant is asked of it, which it satisfies
at rest and wherever code is run. -/
theorem restored_callAlias (hs : Inv .layout s) {i : Nat} (hi : i < s.table.size)
    {args : List Value} (hargs : ∀ v ∈ args, v.Ok .layout s.table) (hn : args.length ≤ maxArgs)
    {room : Nat} {ret : RetTag} {answer : Except Stop Value}
    (hrun : outcome (callAlias (run room) i args ret) s = (answer, s')) (hw : Within .layout s') :
    Restored s s' := by
  obtain ⟨id, hid⟩ := Table.exists_get? hi
  let body : Engine Value := do
    let block ← bodyOf i
    return (← run room block 1).1.force ret
  obtain ⟨s₁, henter, hentered⟩ := outcome_withArgs hs hargs hn i id.flags.overridden body
  have hcall : outcome (callAlias (run room) i args ret) s =
      outcome (ensuring body (leaveCall args.length s.callArgs s.writeFlags)) s₁ := by
    rw [callAlias, outcome_bind_ok (outcome_identAt hid)]
    exact henter
  rw [hcall, outcome_ensuring] at hrun
  -- The body keeps the invariant, so that there is a scope to leave where it ends.
  have hbody := (World.safe_runBody (w := ⟨s₁, True, fun _ => hentered.inv⟩)
    (runsSafely_run .layout room) (fun _ => hentered.forms.lt_size hi) ret).2 trivial
  have hgrow := (steady_leaveCall args.length s.callArgs s.writeFlags (outcome body s₁).2).grows
  have hend : (outcome (leaveCall args.length s.callArgs s.writeFlags) (outcome body s₁).2).2 = s' := by
    generalize outcome (leaveCall args.length s.callArgs s.writeFlags) (outcome body s₁).2 = p at hrun
    obtain ⟨e | _, s₃⟩ := p <;> cases hrun <;> rfl
  rw [hend] at hgrow
  obtain ⟨hk, -⟩ := hbody (hw.of_grows hgrow)
  obtain ⟨s₃, hleave, -, -, -, hrestored, -, -⟩ := hentered.leave hn hk s.writeFlags
  rw [hleave] at hend
  exact hend ▸ hrestored

/-- Calls of aliases restore arguments exactly. However the call ends, if no code was run with the
arguments of a caller meanwhile, each slot has the value and the saved values that it had before,
whatever the body and the calls in it have bound; the number of arguments and the slots that the
caller has bound are the same, too. -/
theorem callAlias_restores_slots (hs : Inv .layout s) {i : Nat} (hi : i < s.table.size)
    {args : List Value} (hargs : ∀ v ∈ args, v.Ok .layout s.table) (hn : args.length ≤ maxArgs)
    {room : Nat} {ret : RetTag} {answer : Except Stop Value}
    (hrun : outcome (callAlias (run room) i args ret) s = (answer, s')) (hw : Within .layout s')
    (houter : s'.outerRuns = s.outerRuns) :
    (∀ j < maxArgs, s'.table.bindings j = s.table.bindings j) ∧ s'.callArgs = s.callArgs ∧
      s'.scopes = s.scopes ∧ s'.used = s.used := by
  have h := restored_callAlias hs hi hargs hn hrun hw
  exact ⟨h.bindings houter, h.callArgs, h.scopes, Interp.used_congr h.scopes h.outermost⟩

/-- A call of the first slot with a text, which is its value and so its body inside the call. The text
writes to a slot and loops over another one. -/
def callOfText : Engine Value :=
  callAlias (run 9) 0 [.ofBytes (utf8 "arg2 = 8; loop arg3 2 [arg3 = 9]")] .null

set_option maxRecDepth 100000 in
private theorem compiled_callOfText : (outcome callOfText .new).2.compiled = fun t src name =>
    False ∨ (t = (Interp.new.modifyIdent 0 (·.pushValue
        (.ofBytes (utf8 "arg2 = 8; loop arg3 2 [arg3 = 9]")))).table ∧
      src = utf8 "arg2 = 8; loop arg3 2 [arg3 = 9]" ∧ name = utf8 "arg1") := by
  cbv

/-- The call binds the first slot as an argument, the second by a write and the third by a loop. -/
theorem callAlias_restores_text :
    (∀ j < maxArgs, (outcome callOfText .new).2.table.bindings j = Interp.new.table.bindings j) ∧
      (outcome callOfText .new).2.callArgs = Interp.new.callArgs ∧
      (outcome callOfText .new).2.scopes = Interp.new.scopes ∧
      (outcome callOfText .new).2.used = Interp.new.used := by
  have hrun : outcome callOfText .new = ((outcome callOfText .new).1, (outcome callOfText .new).2) :=
    (Prod.eta _).symm
  obtain ⟨hsize, hfits, houter⟩ : 0 < Interp.new.table.size ∧
      fitsWords (Interp.new.modifyIdent 0 (·.pushValue
        (.ofBytes (utf8 "arg2 = 8; loop arg3 2 [arg3 = 9]")))).table
        (utf8 "arg2 = 8; loop arg3 2 [arg3 = 9]") (utf8 "arg1") = true ∧
      (outcome callOfText .new).2.outerRuns = Interp.new.outerRuns := by decide +kernel
  refine callAlias_restores_slots (Interp.inv_new .layout) hsize (fun v hv => ?_) (by decide) hrun
    (.of_compiled compiled_callOfText hfits) houter
  rw [List.mem_singleton.mp hv]
  exact Value.ok_ofBytes _ _ _

/-- A block that no text has, which writes an argument slot as an alias by name is written. -/
def slotBlock : Block := { name := utf8 "b", words := #[0, 76, 48, 9] }

/-- An interpreter in which such code has left an argument slot overridden. -/
def overriddenSlot : Interp :=
  let requests := [Request.setOverrideMode true, .executeCode slotBlock 1, .setOverrideMode false,
    .execute (utf8 "arg1 = 5; f = [resetvar arg1]")]
  requests.foldl (fun s q => q.perform s) .new

/-- Code of the host that can not come from a text makes a later call lose an argument. -/
theorem callAlias_clears_overridden_slot :
    let s' := (outcome (callAlias (run 9) 121 [] .null) overriddenSlot).2
    s'.outerRuns = overriddenSlot.outerRuns ∧
      s'.table.bindings 0 ≠ overriddenSlot.table.bindings 0 := by
  intro s'
  obtain ⟨houter, htexts⟩ : s'.outerRuns = overriddenSlot.outerRuns ∧
      (s'.table.bindings 0).map Value.toBytes ≠
        (overriddenSlot.table.bindings 0).map Value.toBytes := by decide +kernel
  exact ⟨houter, fun h => htexts (congrArg (List.map Value.toBytes) h)⟩

end ConsoleScript
