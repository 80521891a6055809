import ConsoleScript.Proofs.Engine.Beginning
import ConsoleScript.Proofs.Engine.ContainedRuns
import ConsoleScript.Proofs.Engine.Identifiers

/-!
What is left of a block that no compiler has made. In every interpreter that a host can have, whatever
it has run before, the interpreter is guarded and outside of calls, so any block comes back with the
bindings of the argument slots and with the stack of calls that it found. It comes back at the latest
when a loop without a count has taken more rounds than `Interp.patience`; what a longer loop would do is
left out.
-/

namespace ConsoleScript

open Bytecode Engine

/-- What a host finds of the bindings after it has run any code outside of calls. -/
structure Interp.Withstands (s s' : Interp) : Prop where
  /-- The stack of calls is what it was. -/
  scopes : s'.scopes = s.scopes
  /-- Of the argument slots, as many values are saved as before. -/
  slots : ∀ i < maxArgs, s'.table.depth i = s.table.depth i
  /-- No identifier loses a value that is saved. -/
  saved : ∀ i, s.table.depth i ≤ s'.table.depth i
  /-- The slots that are bound outside of calls stay so, and what else is bound has a value more
  saved. -/
  outermost : ∀ i, s'.outermost.has i = true → s.outermost.has i = true ∨
    maxArgs ≤ i ∧ s.table.depth i < s'.table.depth i
  bound : ∀ i, s.outermost.has i = true → s'.outermost.has i = true
  /-- The number of arguments changes only where code has made the variable that shows it
  writable. -/
  callArgs : s'.callArgs = s.callArgs ∨ s'.Exposed

/-- Outside of calls, what is contained is withstood. -/
theorem Contained.withstands {s s' : Interp} (h : Contained (fun _ => 0) s s') (hs : s.Guarded)
    (htop : s.scopes = []) : s.Withstands s' := by
  have htop' : s'.scopes = [] := by
    rw [h.scopes, Interp.setUsed, htop]
  have hbound (i : Nat) : s.isBound i = s.outermost.has i := by
    rw [Interp.isBound, Interp.used, htop]
  have hbound' (i : Nat) : s'.isBound i = s'.outermost.has i := by
    rw [Interp.isBound, Interp.used, htop']
  have hkeeps (i : Nat) (hi : s.outermost.has i = true) : s'.outermost.has i = true :=
    (hbound' i).symm.trans (h.keeps i ((hbound i).trans hi))
  have hnew (i : Nat) : newly s s' i = if s'.outermost.has i && !s.outermost.has i then 1 else 0 := by
    rw [newly, hbound, hbound']
  have hslots (i : Nat) (hi : i < maxArgs) : s'.table.depth i = s.table.depth i := by
    rw [h.slots i hi, hnew, hs.outermost i hi]
    simp
  refine ⟨htop'.trans htop.symm, hslots, fun i => ?_, fun i hi => ?_, hkeeps, h.callArgs⟩
  · by_cases hi : i < maxArgs
    · exact Nat.le_of_eq (hslots i hi).symm
    · have := h.others i (Nat.le_of_not_lt hi)
      omega
  · cases hold : s.outermost.has i with
    | true => exact .inl rfl
    | false =>
        have hge : maxArgs ≤ i := Nat.le_of_not_lt fun hlt => by
          rw [hs.outermost i hlt] at hold
          cases hold
        have hone : newly s s' i = 1 := by rw [hnew, hi, hold]; rfl
        have := h.others i hge
        exact .inr ⟨hge, by omega⟩

section Arising

theorem Interp.guarded_new : Interp.new.Guarded where
  size := by decide
  backed _ _ := Nat.zero_le _
  outermost i hi := by
    change SlotSet.all.has i = true
    rw [SlotSet.has_all, decide_eq_true hi]
  locked i id hid hshows _ := ((Interp.inv_new .room).table.idents i id hid).locked hshows |>.2
  writes := rfl

/-- Registering identifiers leaves an interpreter guarded outside of calls. -/
theorem Interp.Guarded.registered {s : Interp} (hs : s.Guarded) (htop : s.scopes = []) {id : Ident}
    (hid : id.Registered) : (Request.registered s (s.register id)).Guarded ∧
      (Request.registered s (s.register id)).scopes = [] := by
  have hown := Role.showsCallArgs_of_cell? hid.role.cell?
  have hsame := s.registered_eq id
  have hscopes : (Request.registered s (s.register id)).scopes = [] := by rw [hsame, htop]
  refine ⟨⟨Nat.le_trans hs.size (s.size_registered id), fun i _ => ?_, fun i hi => ?_,
    fun i id' hid' hshows hr => ?_, ?_⟩, hscopes⟩
  · rw [hscopes]
    exact Nat.zero_le _
  · rw [hsame]
    exact hs.outermost i hi
  · rcases Interp.get?_registered hid' with hold | ⟨rfl, -⟩
    · exact hs.locked i id' hold hshows hr
    · rw [hown] at hshows
      cases hshows
  · rw [hsame]
    exact hs.writes

theorem Interp.Arises.guarded {s : Interp} (h : s.Arises) : s.Guarded ∧ s.scopes = [] := by
  induction h with
  | new => exact ⟨guarded_new, rfl⟩
  | @move s _ m ih =>
      obtain ⟨hs, htop⟩ := ih
      rcases m.meets (G := .contained) hs with hc | ⟨-, id, hid, heq⟩
      · exact ⟨hc.guarded hs, (hc.withstands hs htop).scopes.trans htop⟩
      · rw [heq]
        exact hs.registered htop hid

end Arising

/-- Whatever the words of a block are, and however it ends, the host finds the stack of calls and the
bindings of the argument slots as they were. -/
theorem any_block_withstood {s : Interp} (h : s.Arises) (b : Block) :
    s.Withstands (outcome (executeBlock b) s).2 := by
  obtain ⟨hs, htop⟩ := h.guarded
  exact Contained.withstands (meets_executeCode (G := .contained) b 1 s hs).1 hs htop

/-- A block that binds the index of the command `+` as if it were an argument slot. -/
def strayBinding : Block := { name := utf8 "stray", words := #[0x0, 0x4c, 0x3932, 0x9] }

/-- After a block that has left a value saved, which the next one does not restore. -/
theorem any_block_withstood_twice :
    let s := (Move.request (.executeCode strayBinding 1)).perform .new
    s.Arises ∧ s.table.depth 57 = 1 ∧
      s.Withstands (outcome (executeBlock strayBinding) s).2 := by
  have harises : Interp.Arises ((Move.request (.executeCode strayBinding 1)).perform .new) :=
    .move .new _
  exact ⟨harises, by decide +kernel, any_block_withstood harises strayBinding⟩

end ConsoleScript
