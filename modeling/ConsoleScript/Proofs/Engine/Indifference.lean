import ConsoleScript.Proofs.Engine.GuaranteedRuns

/-!
Guarantees that do not depend on what identifiers are bound to. Values are saved and restored in many
places: by calls, by loops, by runs that shadow aliases, and by code that is run with the arguments of
a caller. For a guarantee that only looks at the rest of an identifier and of the interpreter it does
not matter whether they match.

A call has one more effect: while it runs, writes may override that did not before. For the guarantee
it must not matter either that this is taken back at its end.
-/

namespace ConsoleScript

open Bytecode Engine

/-- An identifier is bound to other values, and has no body for them yet; if it was unknown, it may be
known then. -/
structure Ident.Rebound (id id' : Ident) : Prop where
  same : id' = { id with
    value := id'.value
    body := id'.body
    saved := id'.saved
    flags := { id.flags with unknown := id'.flags.unknown } }
  unknown : id'.flags.unknown = true → id.flags.unknown = true
  body : id'.body = none ∨ id'.body = id.body ∧ id'.value = id.value

/-- Identifiers are bound to other values. -/
structure Table.Rebound (t t' : Table) : Prop where
  size : t'.size = t.size
  idents : ∀ i id, t.get? i = some id → ∃ id', t'.get? i = some id' ∧ id.Rebound id'

/-- Only bindings change. -/
structure Interp.Rebound (s s' : Interp) : Prop where
  same : s' = { s with
    table := s'.table
    scopes := s'.scopes
    outermost := s'.outermost
    callArgs := s'.callArgs
    outerRuns := s'.outerRuns }
  table : s.table.Rebound s'.table

/-- While an alias runs, writes override if they did before or if the alias is overridden itself. -/
def Interp.enterFlags (overridden : Bool) (s : Interp) : Interp :=
  { s with writeFlags := { s.writeFlags with overridden := s.writeFlags.overridden || overridden } }

namespace Ident.Rebound

theorem refl (id : Ident) : id.Rebound id := ⟨rfl, fun h => h, .inr ⟨rfl, rfl⟩⟩

theorem like {id id' : Ident} (h : id.Rebound id') : id.Like id' := by
  rw [h.same]
  exact ⟨rfl, rfl⟩

end Ident.Rebound

namespace Table.Rebound

variable {t t' : Table}

theorem refl (t : Table) : t.Rebound t := ⟨rfl, fun _ id hid => ⟨id, hid, .refl id⟩⟩

private theorem modify (t : Table) (i : Nat) {f : Ident → Ident}
    (h : ∀ id : Ident, id.Rebound (f id)) :
    t.Rebound (t.modify i f) := by
  refine ⟨size_modify _ _ _, fun j id hid => ?_⟩
  rw [get?_modify, hid]
  split
  · exact ⟨f id, rfl, h id⟩
  · exact ⟨id, rfl, .refl id⟩

theorem get?_eq_none (h : t.Rebound t') {i : Nat} (hi : t.get? i = none) : t'.get? i = none :=
  Array.getElem?_eq_none (Nat.le_trans (Nat.le_of_eq h.size) (Array.getElem?_eq_none_iff.mp hi))

theorem lasts (h : t.Rebound t') : t.Lasts t' := by
  refine ⟨fun i id hid => ?_, fun i id' hnone hid' => ?_⟩
  · obtain ⟨id', hid', hof⟩ := h.idents i id hid
    exact ⟨id', hid', hof.like⟩
  · rw [h.get?_eq_none hnone] at hid'
    cases hid'

end Table.Rebound

namespace Engine

/-- A guarantee that is given for every change of bindings, and that an override which ends with a call
does not affect. -/
class Guarantee.Indifferent (G : Guarantee) : Prop extends G.Composes where
  rebound {s s' : Interp} : s.Rebound s' → G.To s s'
  entered {s : Interp} (overridden : Bool) : G.From s → G.From (s.enterFlags overridden)
  left {s s' : Interp} (overridden : Bool) : G.From s → G.To (s.enterFlags overridden) s' →
    G.To s (s'.restoreFlags s.writeFlags)

theorem Meets.bracketAt {G : Guarantee} {α : Type} {m : Engine α} {cleanup : Engine Unit}
    {s s₁ : Interp} (hs : G.From s₁) (hm : Meets G m) (hc : ∀ s₂, G.To s₁ s₂ →
      G.To s (outcome cleanup s₂).2 ∧ (G.ends → (outcome cleanup s₂).1 ≠ .error .exhausted)) :
    G.To s (outcome (Engine.ensuring m cleanup) s₁).2 ∧
      (G.ends → (outcome (Engine.ensuring m cleanup) s₁).1 ≠ .error .exhausted) := by
  obtain ⟨ht, he⟩ := hm s₁ hs
  obtain ⟨ht', he'⟩ := hc _ ht
  rw [outcome_ensuring]
  generalize outcome cleanup (outcome m s₁).2 = o at ht' he'
  obtain ⟨e | _, s'⟩ := o
  · exact ⟨ht', fun hp h => he' hp (by injection h with h; rw [h])⟩
  · exact ⟨ht', he⟩

end Engine

variable {G : Guarantee} [G.Indifferent] {k : Runner}

section Bindings

theorem meets_rebind (i : Nat) {f : Ident → Ident} (h : ∀ id : Ident, id.Rebound (f id)) :
    Meets G (modifyIdent i f) :=
  fun s => Meets.changeAt fun _ => Guarantee.Indifferent.rebound ⟨rfl, .modify s.table i h⟩

theorem meets_pushArg (i : Nat) (v : Value) : Meets G (pushArg i v) :=
  meets_rebind i fun _ => ⟨rfl, fun h => h, .inl rfl⟩

theorem meets_popArg (i : Nat) : Meets G (popArg i) := by
  refine Meets.identAt fun id _ => ?_
  split
  · exact Meets.fault _
  · exact meets_rebind i fun _ => ⟨rfl, fun h => h, .inl rfl⟩

theorem meets_clearUnknown (i : Nat) : Meets G (modifyIdent i clearUnknown) :=
  meets_rebind i fun _ => ⟨rfl, nofun, .inr ⟨rfl, rfl⟩⟩

theorem meets_pushAlias (i : Nat) : Meets G (pushAlias i) := by
  refine Meets.identAt fun id _ => ?_
  split
  · exact (meets_pushArg i _).bind fun _ => meets_clearUnknown i
  · exact Meets.pure _

theorem meets_popAlias (i : Nat) : Meets G (popAlias i) := by
  refine Meets.identAt fun id _ => ?_
  split
  · exact meets_popArg i
  · exact Meets.pure _

theorem meets_rescope {f : Interp → Interp} (h : ∀ s : Interp, f s = { s with
    scopes := (f s).scopes
    outermost := (f s).outermost
    callArgs := (f s).callArgs
    outerRuns := (f s).outerRuns }) : Meets G (modify f) := by
  refine fun s => Meets.changeAt fun _ => Guarantee.Indifferent.rebound ⟨?_, ?_⟩
  · rw [h s]
  · rw [h s]
    exact .refl _

theorem meets_markUsed (i : Nat) : Meets G (markUsed i) := by
  refine meets_rescope fun s => ?_
  rw [Interp.setUsed_eq]

theorem meets_indifferent_setArg (i : Nat) (v : Value) : Meets G (setArg i v) := by
  refine Meets.read fun s => ?_
  split
  · exact meets_rebind i fun _ => ⟨rfl, fun h => h, .inl rfl⟩
  · exact (meets_pushArg i v).bind fun _ => meets_markUsed i

theorem meets_indifferent_bindArg (i : Nat) : Meets G (bindArg i) := by
  refine Meets.read fun s => ?_
  split
  · exact Meets.pure _
  · exact (meets_pushArg i _).bind fun _ => meets_markUsed i

private theorem meets_pushScope (c : Scope) : Meets G (pushScope c) := meets_rescope fun _ => rfl

private theorem meets_popScope : Meets G popScope :=
  fun s => (Meets.pure s.used).moved ({ s with scopes := s.scopes.tail })
    (Guarantee.Indifferent.rebound ⟨rfl, .refl _⟩) rfl

theorem meets_takeArg (i : Nat) : Meets G (takeArg i) :=
  Meets.identAt fun _ _ => (meets_popArg i).bind fun _ => .pure _

theorem meets_leaveOuter (caller : SlotSet) (taken : List (Nat × Value)) :
    Meets G (leaveOuter caller taken) := by
  refine meets_popScope.bind fun used => (Meets.forM meets_popArg _).bind fun _ => ?_
  exact .forM (fun _ => meets_pushArg _ _) _

theorem meets_indifferent_covered {α : Type} {m : Engine α} (i : Nat) (v : Value) (h : Meets G m) :
    Meets G (do pushArg i v; modifyIdent i clearUnknown; ensuring m (popArg i)) :=
  (meets_pushArg i v).bind fun _ => (meets_clearUnknown i).bind fun _ => h.ensuring (meets_popArg i)

theorem meets_indifferent_withOuterArgs {α : Type} {m : Engine α} (h : Meets G m) :
    Meets G (withOuterArgs m) := by
  refine Meets.bind (meets_rescope fun _ => rfl) fun _ => .read fun s => ?_
  split
  · exact h
  · refine (Meets.mapM meets_takeArg _).bind fun taken => (meets_pushScope _).bind fun _ => ?_
    exact h.ensuring (meets_leaveOuter _ _)

/-- The end of a call: the scope goes first, then the flags of writes are those from before. -/
theorem meets_leaveCall (argc : Nat) (callArgs : Int32) {overridden : Bool} {s s₂ : Interp}
    (hs : G.From s) (ht : G.To (s.enterFlags overridden) s₂) :
    G.To s (outcome (leaveCall argc callArgs s.writeFlags) s₂).2 ∧
      (G.ends → (outcome (leaveCall argc callArgs s.writeFlags) s₂).1 ≠ .error .exhausted) := by
  let s₃ : Interp := { s₂ with scopes := s₂.scopes.tail }
  have hscope : G.To s₂ s₃ := Guarantee.Indifferent.rebound ⟨rfl, .refl _⟩
  have hleft : G.To s (s₃.restoreFlags s.writeFlags) :=
    Guarantee.Indifferent.left overridden hs (Guarantee.Composes.trans ht hscope)
  have hpops : Meets G (do
      (List.range argc).forM popArg
      (s₂.used.toList.filter (argc ≤ ·)).forM popArg
      modify fun s => { s with callArgs }) :=
    (Meets.forM meets_popArg _).bind fun _ => (Meets.forM meets_popArg _).bind fun _ =>
      meets_rescope fun _ => rfl
  have hleave : outcome (leaveCall argc callArgs s.writeFlags) s₂ = outcome (do
      (List.range argc).forM popArg
      (s₂.used.toList.filter (argc ≤ ·)).forM popArg
      modify fun s => { s with callArgs }) (s₃.restoreFlags s.writeFlags) := rfl
  rw [hleave]
  obtain ⟨ht', he⟩ := hpops _ (Guarantee.Composes.later hs hleft)
  exact ⟨Guarantee.Composes.trans hleft ht', he⟩

theorem meets_indifferent_withArgs {α : Type} (ident : Nat) (overridden : Bool) (args : List Value)
    {m : Engine α} (h : Meets G m) : Meets G (withArgs ident overridden args m) := by
  refine (Meets.forM (fun _ => meets_pushArg _ _) _).bind fun _ => fun s => ?_
  refine Meets.readAt (Meets.readAt fun hs => ?_)
  let inside : Interp := { s.enterFlags overridden with
    callArgs := Int32.ofNat args.length
    scopes := ⟨ident, SlotSet.below args.length⟩ :: s.scopes }
  have hentered : G.From (s.enterFlags overridden) := Guarantee.Indifferent.entered overridden hs
  have hscope : G.To (s.enterFlags overridden) inside :=
    Guarantee.Indifferent.rebound ⟨rfl, .refl _⟩
  change G.To s (outcome (ensuring m (leaveCall args.length s.callArgs s.writeFlags)) inside).2 ∧
    (G.ends → (outcome (ensuring m (leaveCall args.length s.callArgs s.writeFlags)) inside).1 ≠
      .error .exhausted)
  exact Meets.bracketAt (Guarantee.Composes.later hentered hscope) h fun s₂ ht =>
    meets_leaveCall _ _ hs (Guarantee.Composes.trans hscope ht)

end Bindings

section Runs

variable {b : Block}

private theorem meets_shadow (n : Nat) (a : Activation) : Meets G (shadow n a) := by
  unfold shadow Activation.window
  split
  · exact Meets.bind (.pure _) fun _ => .bind (.forM meets_pushAlias _) fun _ => .pure _
  · exact Meets.bind (.fault _) fun _ => .bind (.forM meets_pushAlias _) fun _ => .pure _

private theorem meets_endLocals (locals : List Nat) : Meets G (endLocals locals) :=
  .forM meets_popAlias locals

/-- A step of a run, if all instructions but the one that shadows aliases meet the guarantee. -/
theorem meets_step_of (h : ∀ op w a, op ≠ .local → a.stack.length ≤ maxOperands →
    Meets G (perform k b op w a)) {a : Activation} (ha : a.stack.length ≤ maxOperands) :
    Meets G (step k b a) := by
  unfold step
  split
  · exact Meets.fault _
  · split
    · exact Meets.fault _
    · exact Meets.pure _
    next _ op _ _ =>
      refine Meets.bind ?_ fun _ => .pure _
      by_cases hop : op = .local
      · rw [hop]
        exact meets_shadow _ _
      · exact h op _ _ hop ha

theorem meets_indifferent_runFrom (h : ∀ op w a, op ≠ .local → a.stack.length ≤ maxOperands →
    Meets G (perform k b op w a)) (left : Nat) {a : Activation}
    (ha : a.stack.length ≤ maxOperands) : Meets G (runFrom k b left a) := by
  induction left generalizing a with
  | zero => exact Meets.bind (meets_endLocals _) fun _ => .fault _
  | succ left ih =>
      refine fun s => Meets.attempted (meets_step_of h ha s) fun o s' ho he => ?_
      cases o with
      | error e =>
          refine Meets.bind (meets_endLocals _) (fun _ => ?_) s'
          cases e with
          | fault f => exact .fault f
          | exhausted => exact fun _ _ => ⟨Guarantee.Composes.refl _, fun hp => absurd rfl (he hp)⟩
      | ok next =>
          cases next with
          | go a' => exact ih (yields_step_room ha s _ s' ho a' rfl) s'
          | done v pc => exact Meets.bind (meets_endLocals _) (fun _ => .pure _) s'

end Runs

instance : G.Binds where
  setArg := meets_indifferent_setArg
  bindArg := meets_indifferent_bindArg
  covered := meets_indifferent_covered
  withOuterArgs := meets_indifferent_withOuterArgs
  withArgs ident overridden args _ h := meets_indifferent_withArgs ident overridden args h
  runFrom h left _ _ ha := meets_indifferent_runFrom h left ha

end ConsoleScript
