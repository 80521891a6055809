import ConsoleScript.Proofs.Code.Kinds
import ConsoleScript.Proofs.Engine.Positions

/-!
What instructions do to operands. Every instruction takes the operands on top of the stack, and what
it leaves in their place is of the type of its tag, or what it was made for. Of the operands below
nothing changes.
-/

namespace ConsoleScript

open Bytecode Engine

/-- The operands on top of a stack are as it is known. -/
structure Kinds.Top (ks : Kinds) (stack : List Value) : Prop where
  fits : ∃ vs rest, stack = vs ++ rest ∧ ks.Fit vs
  room : stack.length ≤ maxOperands

namespace Kinds.Top

variable {ps ks : Kinds} {p q : Value → Prop} {stack : List Value} {v : Value}

theorem taken (h : Top (ps ++ ks) stack) :
    ps.Fit (stack.take ps.length) ∧ ks.Top (stack.drop ps.length) := by
  obtain ⟨⟨vs, rest, rfl, hvs⟩, hroom⟩ := h
  obtain ⟨us, ws, rfl, hus, hws⟩ : ∃ us ws, vs = us ++ ws ∧ ps.Fit us ∧ ks.Fit ws := by
    refine ⟨vs.take ps.length, vs.drop ps.length, (List.take_append_drop _ _).symm, ?_, ?_⟩
    · exact List.forall₂_take_append _ _ _ hvs.flip |>.flip
    · exact List.forall₂_drop_append _ _ _ hvs.flip |>.flip
  rw [List.append_assoc, hus.length_eq, List.take_left, List.drop_left]
  refine ⟨hus, ⟨ws, rest, rfl, hws⟩, ?_⟩
  simp only [List.length_append] at hroom ⊢
  omega

theorem drop (h : Top (ps ++ ks) stack) : ks.Top (stack.drop ps.length) := h.taken.2

theorem push (h : ks.Top stack) (hv : q v) (hroom : stack.length < maxOperands) :
    Top (q :: ks) (v :: stack) := by
  obtain ⟨⟨vs, rest, rfl, hvs⟩, -⟩ := h
  exact ⟨⟨v :: vs, rest, rfl, .cons hv hvs⟩, hroom⟩

private theorem replace {rest : List Value} (h : Top (p :: ks) (v :: rest)) {v' : Value}
    (hv : q v') :
    Top (q :: ks) (v' :: rest) := by
  have happ : Top ([p] ++ ks) (v :: rest) := h
  have hks : ks.Top rest := happ.drop
  exact ⟨(push hks hv h.room).fits, h.room⟩

private theorem head {rest : List Value} (h : Top (p :: ks) (v :: rest)) : p v := by
  have happ : Top ([p] ++ ks) (v :: rest) := h
  have hp : Kinds.Fit [p] [v] := happ.taken.1
  exact (List.forall₂_cons.mp hp).1

end Kinds.Top

variable {k : Runner} {b : Block} {a : Activation}

section Stack

theorem yields_popped (a : Activation) : Yields a.pop fun p => p.2.stack = a.stack.drop 1 := by
  unfold Activation.pop
  split
  next => exact .stop _
  next v rest hstack => exact .pure (by rw [hstack]; rfl)

theorem Yields.popped {α : Type} {f : Value × Activation → Engine α} {P : α → Prop}
    (h : ∀ v a', a'.stack = a.stack.drop 1 → Yields (f (v, a')) P) : Yields (a.pop >>= f) P :=
  (yields_popped a).bind fun p hp => h p.1 p.2 hp

theorem yields_pushed (v : Value) (a : Activation) :
    Yields (a.push v) fun a' => a'.stack = v :: a.stack ∧ a.stack.length < maxOperands := by
  unfold Activation.push
  split
  next h => exact .pure ⟨rfl, h⟩
  next => exact .stop _

theorem Yields.pushed {P : Value → Prop} {m : Engine Value} (h : Yields m P) :
    Yields (m >>= a.push) fun a' =>
      ∃ v, P v ∧ a'.stack = v :: a.stack ∧ a.stack.length < maxOperands :=
  h.bind fun v hv => (yields_pushed v a).mono fun _ h => ⟨v, hv, h⟩

theorem yields_replaced {f : Value → Engine Value} {P : Value → Value → Prop}
    (hf : ∀ v, Yields (f v) (P v)) (a : Activation) :
    Yields (a.replaceTop f) fun a' =>
      ∃ v rest v', a.stack = v :: rest ∧ P v v' ∧ a'.stack = v' :: rest := by
  unfold Activation.replaceTop Activation.top
  split
  next => exact .stop _
  next v rest hstack =>
    exact (hf v).bind fun v' hv => .pure ⟨v, rest, v', hstack, hv, rfl⟩

end Stack

section Calls

variable {n : Nat} {ret : RetTag} {id : Ident}

theorem yields_callCommand_stack :
    Yields (callCommand k id n ret a) fun a' => a'.stack = a.stack.drop n :=
  (Yields.any _).bind fun _ _ => (Yields.any _).bind fun _ _ => .pure rfl

private theorem yields_callJoined_stack :
    Yields (callJoined k id n ret a) fun a' => a'.stack = a.stack.drop n :=
  (Yields.any _).bind fun _ _ => (Yields.any _).bind fun _ _ => .pure rfl

private theorem yields_callIdent_stack (i : Nat) (isArg : Bool) :
    Yields (callIdent k i id isArg n ret a) fun a' => a'.stack = a.stack.drop n := by
  refine (Yields.any _).bind fun _ _ => .ite (.ite (.stop _) (.pure rfl)) ?_
  exact (Yields.any _).bind fun _ _ => (Yields.any _).bind fun _ _ => .pure rfl

theorem yields_call_stack {op : Op} (hop : op = .comAll ∨ op = .comJoined ∨ op = .call ∨ op = .callArg)
    (w : UInt32) :
    Yields (perform k b op w a) fun a' => a'.stack = a.stack.drop (Word.callArgc w) := by
  rcases hop with rfl | rfl | rfl | rfl
  · exact (Yields.any _).bind fun _ _ => yields_callCommand_stack
  · exact (Yields.any _).bind fun _ _ => yields_callJoined_stack
  · exact (Yields.any _).bind fun _ _ => yields_callIdent_stack _ _
  · exact (Yields.any _).bind fun _ _ => yields_callIdent_stack _ _

private theorem yields_callNamed_stack (w : UInt32) :
    Yields (perform k b .callNamed w a) fun a' => a'.stack = a.stack.drop ((Word.arg w).toNat + 1) := by
  unfold perform stepCall
  refine (Yields.any _).bind fun args _ => ?_
  split
  · exact .stop _
  · exact (Yields.any _).bind fun _ _ => .pure rfl

end Calls

section Instructions

/-- An instruction that takes operands and leaves none. -/
theorem yields_drops {op : Op} {n : Nat} (hop : op.drops? = some n) (w : UInt32) :
    Yields (perform k b op w a) fun a' => a'.stack = a.stack.drop n := by
  unfold perform
  cases op with
  | null | yes | no => cases hop; exact .pure rfl
  | print =>
      cases hop
      exact (Yields.any _).bind fun _ _ => (Yields.any _).bind fun _ _ => .pure rfl
  | pop => cases hop; exact .popped fun _ _ h => .pure h
  | result => cases hop; exact .popped fun _ _ h => .pure h
  | not | run | runOuter =>
      cases hop
      exact .popped fun _ _ h => (Yields.any _).bind fun _ _ => .pure h
  | setTextVar | setIntVar | setFloatVar | «alias» | aliasArg =>
      cases hop
      exact (Yields.any _).bind fun _ _ => .popped fun _ _ h => (Yields.any _).bind fun _ _ => .pure h
  | setIntVar2 =>
      cases hop
      refine .popped fun _ _ h => .popped fun _ _ h' => (Yields.any _).bind fun _ _ =>
        (Yields.any _).bind fun _ _ => .pure ?_
      rw [h', h, List.drop_drop]
  | setIntVar3 =>
      cases hop
      refine .popped fun _ _ h => .popped fun _ _ h' => .popped fun _ _ h'' =>
        (Yields.any _).bind fun _ _ => (Yields.any _).bind fun _ _ => .pure ?_
      rw [h'', h', h, List.drop_drop, List.drop_drop]
  | aliasNamed =>
      cases hop
      refine .popped fun _ _ h => .popped fun _ _ h' => (Yields.any _).bind fun _ _ => .pure ?_
      rw [h', h, List.drop_drop]
  | jumpResultTrue | jumpResultFalse =>
      cases hop
      refine .popped fun _ _ h => (Yields.any _).bind fun _ _ => .pure ?_
      split <;> exact h
  | _ => cases hop

private theorem yields_variableValue {op : Op} (hop : op ≠ .textVarView) (ret : RetTag)
    (id : Ident) :
    Yields (variableValue op ret id) (Value.Tagged ret) := by
  unfold variableValue
  split
  · exact .pure (Value.tagged_lookedUp ..)
  · exact absurd rfl hop
  · exact (Yields.any _).bind fun _ _ => .pure (Value.tagged_lookedUp ..)
  · exact .pure (Value.tagged_lookedUp ..)
  · exact .stop _

private theorem yields_variableView (ret : RetTag) (id : Ident) :
    Yields (variableValue .textVarView ret id) (Value.Tagged .text) := by
  unfold variableValue
  split
  · rename_i h _
    cases h
  · exact .pure ⟨_, _, rfl⟩
  · rename_i h _
    cases h
  · rename_i h _
    cases h
  · exact .stop _

private theorem yields_aliasValue (id : Ident) (ret : RetTag) (asView : Bool) :
    Yields (aliasValue id ret asView) (Value.Tagged ret) :=
  .ite ((Yields.any _).bind fun _ _ => .pure (Value.tagged_lookedUp ..))
    (.pure (Value.tagged_lookedUp ..))

private theorem yields_argValue (i : Nat) (id : Ident) (ret : RetTag) (asView : Bool) :
    Yields (argValue i id ret asView) (Value.Tagged ret) :=
  (Yields.any _).bind fun _ _ =>
    .ite (.pure (Value.tagged_lookedUp ..)) (.pure (Value.tagged_absent ..))

private theorem yields_pushes {op : Op} (hop : op.pushesTagged = true) (w : UInt32) :
    Yields (perform k b op w a) fun a' =>
      ∃ v, v.Tagged (Word.ret w) ∧ a'.stack = v :: a.stack ∧ a.stack.length < maxOperands := by
  unfold perform
  cases op with
  | resultArg =>
      exact (yields_pushed _ _).mono fun _ h => ⟨_, Value.tagged_force _ _, h⟩
  | textVar | intVar | floatVar =>
      exact (Yields.any _).bind fun _ _ => (yields_variableValue (by decide) _ _).pushed
  | lookup | lookupView => exact (Yields.any _).bind fun _ _ => (yields_aliasValue _ _ _).pushed
  | lookupArg | lookupViewArg => exact (Yields.any _).bind fun _ _ => (yields_argValue _ _ _ _).pushed
  | _ => cases hop

private theorem yields_compileValue (v : Value) :
    Yields (compileValue v) fun v' => ∃ b pc, v' = .code b pc := by
  unfold compileValue
  split
  · exact .pure ⟨_, _, rfl⟩
  · exact .pure ⟨_, _, rfl⟩
  · exact (Yields.any _).bind fun _ _ => .pure ⟨_, _, rfl⟩
  · exact .pure ⟨_, _, rfl⟩

private theorem yields_compileCondition (v : Value) :
    Yields (compileCondition v) fun v' => v'.text? = none := by
  unfold compileCondition
  split
  next => exact .pure rfl
  next => exact (Yields.any _).bind fun _ _ => .pure rfl
  next h => exact .pure h

theorem yields_identOf (v : Value) : Yields (identOf v) fun v' => ∃ i, v' = .ident i :=
  (Yields.any _).bind fun _ _ => (Yields.any _).bind fun _ _ =>
    .ite ((Yields.any _).bind fun _ _ => .pure ⟨_, rfl⟩) (.pure ⟨_, rfl⟩)

private theorem yields_lookupNamed (name : Bytes) (ret : RetTag) (asView : Bool) :
    Yields (Engine.lookupNamed k name ret asView) (Value.Tagged ret) := by
  have habsent : Yields (pure (Value.absent ret asView)) (Value.Tagged ret) :=
    .pure (Value.tagged_absent ..)
  refine (Yields.any _).bind fun s _ => ?_
  split
  next => exact (Yields.any _).bind fun _ _ => habsent
  next i id _ =>
    split
    · refine .ite ((Yields.any _).bind fun _ _ => habsent) (.ite habsent ?_)
      exact .pure (Value.tagged_lookedUp ..)
    · exact .pure (Value.tagged_lookedUp ..)
    · exact .pure (Value.tagged_lookedUp ..)
    · exact .pure (Value.tagged_lookedUp ..)
    · exact (Yields.any _).bind fun _ _ => .pure (Value.tagged_force ..)
    · exact habsent

/-- A name on the stack is replaced by its value. -/
theorem yields_lookupByName {op : Op} (hop : op = .lookupNamed ∨ op = .lookupViewNamed) (w : UInt32) :
    Yields (perform k b op w a) fun a' => ∃ v rest v', a.stack = v :: rest ∧
      (v.Tagged .text → v'.Tagged (Word.ret w)) ∧ a'.stack = v' :: rest := by
  have hnamed (v : Value) (name : Bytes) (asView : Bool) :
      Yields (Engine.lookupNamed k name (Word.ret w) asView) fun v' =>
        v.Tagged .text → v'.Tagged (Word.ret w) :=
    (yields_lookupNamed _ _ _).mono fun _ h _ => h
  have hnone (v : Value) (h : v.text? = none) :
      Yields (pure v) fun v' => v.Tagged .text → v'.Tagged (Word.ret w) := by
    refine .pure fun hv => ?_
    obtain ⟨kind, s, rfl⟩ := hv
    cases h
  rcases hop with rfl | rfl
  · simp only [perform, stepAlias]
    refine yields_replaced (fun v => ?_) a
    split
    · exact hnamed v _ _
    · exact hnone v ‹_›
  · simp only [perform, stepAlias]
    refine yields_replaced (fun v => ?_) a
    split
    · exact hnamed v _ _
    · exact hnone v ‹_›

private theorem yields_joinOperands_stack (spaced : Bool) (n : Nat) (ret : RetTag) :
    Yields (joinOperands spaced n ret a) fun p => p.1.Tagged ret ∧ p.2.stack = a.stack.drop n :=
  (Yields.any _).bind fun _ _ => .pure ⟨Value.tagged_force .., rfl⟩

end Instructions

section Shifts

variable {t : Table} {ps qs ks : Kinds} {op : Op} {ret : RetTag} {n : Nat}

/-- What an instruction makes of the operands is known by what it makes of what is known of them. -/
theorem Shift.yields {w : UInt32} (h : Shift t op (Word.ret w) (Word.arg w).toNat ps qs)
    (ha : Kinds.Top (ps ++ ks) a.stack) (hop : op ≠ .com ∧ op ≠ .comPressed) :
    Yields (perform k b op w a) fun a' => Kinds.Top (qs ++ ks) a'.stack := by
  have hleave {ps : Kinds} {a' : Activation} (ha : Kinds.Top (ps ++ ks) a.stack)
      (h : a'.stack = a.stack.drop ps.length) : ks.Top a'.stack := h ▸ ha.drop
  have hpush {q : Value → Prop} {ret' : RetTag} {a' : Activation} (ha : ks.Top a.stack)
      (hq : ∀ v : Value, v.Tagged ret' → q v) (h : ∃ v : Value, v.Tagged ret' ∧
        a'.stack = v :: a.stack ∧ a.stack.length < maxOperands) : Kinds.Top (q :: ks) a'.stack := by
    obtain ⟨v, hv, hstack, hroom⟩ := h
    exact hstack ▸ ha.push (hq v hv) hroom
  have hreplace {p q : Value → Prop} {P : Value → Value → Prop} {a' : Activation}
      (ha : Kinds.Top (p :: ks) a.stack) (hq : ∀ v v', p v → P v v' → q v')
      (h : ∃ v rest v', a.stack = v :: rest ∧ P v v' ∧ a'.stack = v' :: rest) :
      Kinds.Top (q :: ks) a'.stack := by
    obtain ⟨v, rest, v', hstack, hv, hstack'⟩ := h
    rw [hstack] at ha
    exact hstack' ▸ ha.replace (hq v v' ha.head hv)
  cases h with
  | drops hd => exact (yields_drops hd _).mono fun _ h => hleave ha h
  | pushes hp hq => exact (yields_pushes hp _).mono fun _ h => hpush ha hq h
  | view hq =>
      exact ((Yields.any _).bind fun _ _ => (yields_variableView _ _).pushed).mono fun _ h => hpush ha hq h
  | empty hq => exact (yields_pushed _ _).mono fun _ h => h.1 ▸ ha.push (hq _ _) h.2
  | ident ho hq =>
      rcases ho with rfl | rfl
      · exact (Yields.any _).bind fun _ _ => (yields_pushed _ _).mono fun _ h => h.1 ▸ ha.push (hq _ fun _ => rfl) h.2
      · exact (Yields.any _).bind fun _ _ => (Yields.any _).bind fun _ _ =>
          (yields_pushed _ _).mono fun _ h => h.1 ▸ ha.push (hq _ fun _ => rfl) h.2
  | @dup _ _ p q hq =>
      refine (Yields.any _).bind fun v _ => (yields_pushed _ _).mono fun _ h => ?_
      rw [h.1]
      have hkept : Kinds.Top (p :: ks) a.stack := ha
      exact hkept.push (hq _ (Value.tagged_lookedUp ..)) h.2
  | compile hq =>
      refine (yields_replaced yields_compileValue a).mono fun _ h => hreplace ha ?_ h
      rintro _ _ - ⟨b, pc, rfl⟩
      exact hq b pc
  | cond hq =>
      exact (yields_replaced yields_compileCondition a).mono fun _ h =>
        hreplace ha (fun _ v' _ hv' => hq v' hv') h
  | identNamed hq =>
      refine (yields_replaced yields_identOf a).mono fun _ h => hreplace ha ?_ h
      rintro _ _ - ⟨i, rfl⟩
      exact hq i
  | force hq =>
      have hforce (v : Value) : Yields (pure (v.force (Word.ret w))) (Value.Tagged (Word.ret w)) :=
        .pure (Value.tagged_force ..)
      exact (yields_replaced hforce a).mono fun _ h => hreplace ha (fun _ v' _ hv' => hq v' hv') h
  | lookupNamed ho hp hq =>
      exact (yields_lookupByName ho _).mono fun _ h =>
        hreplace ha (fun v v' hv hv' => hq v' (hv' (hp v hv))) h
  | @joins _ _ _ _ q ho hlen hq =>
      have hjoin (spaced : Bool) : Yields (joinOperands spaced (Word.arg w).toNat (Word.ret w) a >>=
          fun p => p.2.push p.1) fun a' => Kinds.Top (q :: ks) a'.stack := by
        refine (yields_joinOperands_stack _ _ _).bind fun p hp => ?_
        refine (yields_pushed _ _).mono fun _ h => h.1 ▸ Kinds.Top.push ?_ (hq _ hp.1) h.2
        exact hleave ha (hlen ▸ hp.2)
      rcases ho with rfl | rfl
      · exact hjoin true
      · exact hjoin false
  | joinsResult hlen =>
      exact (yields_joinOperands_stack _ _ _).bind fun p hp => .pure (hleave ha (hlen ▸ hp.2))
  | callNamed hlen => exact (yields_callNamed_stack w).mono fun _ h => hleave ha (hlen ▸ h)
  | com => exact absurd rfl hop.1
  | comPressed => exact absurd rfl hop.2

end Shifts

end ConsoleScript
