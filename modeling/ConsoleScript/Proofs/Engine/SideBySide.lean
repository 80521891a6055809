import ConsoleScript.Proofs.Engine.Inlining
import ConsoleScript.Proofs.Engine.Skipping

/-!
Runs side by side. Two runs of the same code go on alike although one of them has more operands below
those that the code pushes, as long as neither finds too few operands or no room. What the runs have
in the result makes a difference only until an instruction sets it.
-/

namespace ConsoleScript

open Bytecode Engine

/-- The operands of a run were too few or too many for an instruction. -/
def Fault.Cause.isStack : Fault.Cause → Bool
  | .stackOverflow | .stackUnderflow | .stackShort .. | .badAccess => true
  | _ => false

/-- A computation ends for want of operands, or of room for them. -/
def Stop.IsMiss : Stop → Prop
  | .fault f => f.cause.isStack = true
  | .exhausted => False

/-- Two computations have ended alike, with answers that are related. If one of them has operands
below those of the other one, either may also have missed operands or room. -/
inductive Engine.Alike {α β : Type} (below : List Value) (R : α → β → Prop) :
    Except Stop α × Interp → Except Stop β × Interp → Prop
  | ok {x : α} {y : β} (h : R x y) (s : Interp) : Alike below R (.ok x, s) (.ok y, s)
  | error (e : Stop) (s : Interp) : Alike below R (.error e, s) (.error e, s)
  | missed (hb : below ≠ []) {e : Stop} (h : e.IsMiss) (s : Interp) (p : Except Stop β × Interp) :
      Alike below R (.error e, s) p
  | missed' (hb : below ≠ []) {e : Stop} (h : e.IsMiss) (p : Except Stop α × Interp) (s : Interp) :
      Alike below R p (.error e, s)

/-- Two computations end alike from every interpreter. -/
def Engine.Agree {α β : Type} (below : List Value) (R : α → β → Prop) (m : Engine α)
    (m' : Engine β) : Prop :=
  ∀ s, Alike below R (outcome m s) (outcome m' s)

namespace Engine.Agree

variable {α β γ δ : Type} {below : List Value} {R : α → β → Prop} {m : Engine α} {m' : Engine β}

theorem pure {x : α} {y : β} (h : R x y) : Agree below R (Pure.pure x) (Pure.pure y) :=
  fun s => .ok h s

theorem stop (e : Stop) : Agree below R (throw e) (throw e) := fun s => .error e s

theorem same (m : Engine α) : Agree below (· = ·) m m := by
  intro s
  rcases outcome m s with ⟨e | x, s'⟩
  · exact .error e s'
  · exact .ok rfl s'

theorem missing (hb : below ≠ []) {c : Fault.Cause} (h : c.isStack = true) :
    Agree below R (fail c) m' :=
  fun s => .missed (e := .fault { cause := c }) hb h s _

private theorem missing' (hb : below ≠ []) {c : Fault.Cause} (h : c.isStack = true) :
    Agree below R m (fail c) :=
  fun s => .missed' (e := .fault { cause := c }) hb h _ s

theorem bind {S : γ → δ → Prop} {f : α → Engine γ} {f' : β → Engine δ} (h : Agree below R m m')
    (hf : ∀ x y, R x y → Agree below S (f x) (f' y)) :
    Agree below S (m >>= f) (m' >>= f') := by
  intro s
  have hs := h s
  rw [outcome_bind, outcome_bind]
  generalize outcome m s = p at hs
  generalize outcome m' s = p' at hs
  cases hs with
  | ok hR s' => exact hf _ _ hR s'
  | error e s' => exact .error e s'
  | missed hb he s' => exact .missed hb he s' _
  | missed' hb he _ s' => exact .missed' hb he _ s'

theorem after {S : γ → δ → Prop} {f : α → Engine γ} {f' : α → Engine δ} (m : Engine α)
    (hf : ∀ x, Agree below S (f x) (f' x)) : Agree below S (m >>= f) (m >>= f') :=
  (same m).bind fun x _ h => h ▸ hf x

theorem mono {S : α → β → Prop} (h : Agree below R m m') (hRS : ∀ x y, R x y → S x y) :
    Agree below S m m' := by
  intro s
  have hs := h s
  generalize outcome m s = p at hs
  generalize outcome m' s = p' at hs
  cases hs with
  | ok hR s' => exact .ok (hRS _ _ hR) s'
  | error e s' => exact .error e s'
  | missed hb he s' => exact .missed hb he s' _
  | missed' hb he _ s' => exact .missed' hb he _ s'

private theorem and_yields {P : α → Prop} (h : Agree below R m m') (hP : Yields m P) :
    Agree below (fun x y => P x ∧ R x y) m m' := by
  intro s
  have hs := h s
  have hp := hP s
  generalize outcome m s = p at hs hp
  generalize outcome m' s = p' at hs
  cases hs with
  | ok hR s' => exact .ok ⟨hp _ _ rfl, hR⟩ s'
  | error e s' => exact .error e s'
  | missed hb he s' => exact .missed hb he s' _
  | missed' hb he _ s' => exact .missed' hb he _ s'

theorem yields {P : α → Prop} {m : Engine α} (h : Agree [] (fun x _ => P x) m m) : Yields m P := by
  intro s x s' hx
  have hs := h s
  rw [hx] at hs
  cases hs with
  | ok hP => exact hP

theorem eq {m m' : Engine α} (h : Agree [] (· = ·) m m') : m = m' := by
  refine Engine.ext fun s => ?_
  have hs := h s
  generalize outcome m s = p at hs
  generalize outcome m' s = p' at hs
  cases hs with
  | ok h s' => rw [h]
  | error e s' => rfl
  | missed hb | missed' hb => exact absurd rfl hb

end Engine.Agree

/-- A run that stands where another one does, with more operands below those of the other one. Its
result may differ, unless they are in step. -/
structure Activation.Beside (below : List Value) (locals locals' : List Nat) (inStep : Prop)
    (a a' : Activation) : Prop where
  pc : a'.pc = a.pc
  stack : a'.stack = a.stack ++ below
  shadowed : a.locals = locals
  shadowed' : a'.locals = locals'
  result : inStep → a'.result = a.result

variable {k : Runner} {b : Block} {a a' : Activation} {below : List Value} {locals locals' : List Nat}
  {inStep : Prop}

/-- The operations that set the result. -/
def Bytecode.Op.setsResult : Op → Bool
  | .null | .yes | .no | .not | .enterResult | .resultArg | .result | .concResult | .com
  | .comPressed | .comJoined | .comAll | .call | .callNamed | .callArg | .run | .runOuter
  | .jumpResultTrue | .jumpResultFalse => true
  | _ => false

namespace Activation.Beside

theorem mono {inStep' : Prop} (h : a.Beside below locals locals' inStep a')
    (hs : inStep' → inStep) : a.Beside below locals locals' inStep' a' :=
  { h with result := fun hi => h.result (hs hi) }

theorem moved (h : a.Beside below locals locals' inStep a') (p : Nat) :
    Beside below locals locals' inStep { a with pc := p } { a' with pc := p } :=
  { h with pc := rfl }

theorem jump (h : a.Beside below locals locals' inStep a') (n : UInt32) :
    (a.jump n).Beside below locals locals' inStep (a'.jump n) :=
  { h with pc := congrArg (· + n.toNat) h.pc }

theorem setResult {inStep' : Prop} (h : a.Beside below locals locals' inStep a') (v : Value) :
    (a.setResult v).Beside below locals locals' inStep' (a'.setResult v) :=
  { h with result := fun _ => rfl }

theorem drop (h : a.Beside below locals locals' inStep a') {n : Nat} (hn : n ≤ a.stack.length) :
    (a.drop n).Beside below locals locals' inStep (a'.drop n) :=
  have hstack : a'.stack.drop n = a.stack.drop n ++ below := by
    rw [h.stack, List.drop_append_of_le_length hn]
  { h with stack := hstack }

theorem push (h : a.Beside below locals locals' inStep a') (v : Value) :
    Agree below (Beside below locals locals' inStep) (a.push v) (a'.push v) := by
  unfold Activation.push
  have hpush : Beside below locals locals' inStep { a with stack := v :: a.stack }
      { a' with stack := v :: a'.stack } :=
    { h with stack := congrArg (v :: ·) h.stack }
  by_cases hb : below = []
  · have hlen : a'.stack.length = a.stack.length := by rw [h.stack, hb, List.append_nil]
    rw [hlen]
    split
    · exact .pure hpush
    · exact .stop _
  · split
    · split
      · exact .pure hpush
      · exact .missing' hb rfl
    · exact .missing hb rfl

theorem onEmpty {α β : Type} {R : α → β → Prop} (h : a.Beside below locals locals' inStep a')
    (hs : a.stack = []) {c : Fault.Cause} (hc : c.isStack = true)
    {f : Value → List Value → Engine β} :
    Agree below R (fail c) (match a'.stack with
      | [] => fail c
      | v :: rest => f v rest) := by
  by_cases hb : below = []
  · rw [h.stack, hs, hb]
    exact .stop _
  · exact .missing hb hc

private theorem pop (h : a.Beside below locals locals' inStep a') :
    Agree below (fun p p' => p'.1 = p.1 ∧ p.2.Beside below locals locals' inStep p'.2) a.pop a'.pop := by
  unfold Activation.pop
  cases hs : a.stack with
  | nil => exact h.onEmpty hs rfl
  | cons v rest =>
      rw [h.stack, hs]
      exact .pure ⟨rfl, { h with stack := rfl }⟩

theorem afterPop {α β : Type} {S : α → β → Prop} {f : Value × Activation → Engine α}
    {f' : Value × Activation → Engine β} (h : a.Beside below locals locals' inStep a')
    (hf : ∀ v c c', Beside below locals locals' inStep c c' → Agree below S (f (v, c)) (f' (v, c'))) :
    Agree below S (a.pop >>= f) (a'.pop >>= f') := by
  refine h.pop.bind ?_
  rintro ⟨v, c⟩ ⟨v', c'⟩ ⟨hv, hc⟩
  obtain rfl : v' = v := hv
  exact hf v' c c' hc

theorem top (h : a.Beside below locals locals' inStep a') :
    Agree below (fun p p' => p'.1 = p.1 ∧ p'.2 = p.2 ++ below) a.top a'.top := by
  unfold Activation.top
  cases hs : a.stack with
  | nil => exact h.onEmpty hs rfl
  | cons v rest =>
      rw [h.stack, hs]
      exact .pure ⟨rfl, rfl⟩

theorem replaceTop (h : a.Beside below locals locals' inStep a') (f : Value → Engine Value) :
    Agree below (Beside below locals locals' inStep) (a.replaceTop f) (a'.replaceTop f) := by
  unfold Activation.replaceTop
  refine h.top.bind ?_
  rintro ⟨v, rest⟩ ⟨v', rest'⟩ ⟨hv, hrest⟩
  obtain rfl : v' = v := hv
  refine .after (f v') fun u => .pure { h with stack := ?_ }
  exact congrArg (u :: ·) hrest

private theorem window (h : a.Beside below locals locals' inStep a') (n : Nat) :
    Agree below (fun vs vs' => vs' = vs ∧ n ≤ a.stack.length) (a.window n) (a'.window n) := by
  unfold Activation.window
  split
  · rename_i hn
    have hn' : n ≤ a'.stack.length := by
      rw [h.stack, List.length_append]
      omega
    rw [if_pos hn', h.stack, List.take_append_of_le_length hn]
    exact .pure ⟨rfl, hn⟩
  · rename_i hn
    by_cases hb : below = []
    · rw [h.stack, hb, List.append_nil, if_neg hn]
      exact .stop _
    · exact .missing hb rfl

theorem afterWindow {α β : Type} {S : α → β → Prop} {f : List Value → Engine α}
    {f' : List Value → Engine β} (h : a.Beside below locals locals' inStep a') (n : Nat)
    (hf : ∀ vs, (a.drop n).Beside below locals locals' inStep (a'.drop n) →
      Agree below S (f vs) (f' vs)) : Agree below S (a.window n >>= f) (a'.window n >>= f') := by
  refine (h.window n).bind ?_
  rintro vs vs' ⟨rfl, hn⟩
  exact hf vs' (h.drop hn)

theorem identIn (h : a.Beside below locals locals' inStep a') (i : Nat) :
    a'.identIn b i = a.identIn b i := by
  unfold Activation.identIn
  rw [h.pc]

private theorem pushLiteral (h : a.Beside below locals locals' inStep a') (op : Op) :
    Agree below (Beside below locals locals' inStep) (pushLiteral b op a) (pushLiteral b op a') := by
  unfold Engine.pushLiteral
  dsimp only
  rw [h.pc]
  split
  · exact .stop _
  · exact (h.moved _).push _

private theorem callCommand (h : a.Beside below locals locals' inStep a') {inStep' : Prop}
    (id : Ident)
    (n : Nat) (ret : RetTag) :
    Agree below (Beside below locals locals' inStep') (callCommand k id n ret a)
      (callCommand k id n ret a') :=
  h.afterWindow n fun _ hd => .after _ fun _ => .pure (hd.setResult _)

private theorem callJoined (h : a.Beside below locals locals' inStep a') {inStep' : Prop}
    (id : Ident)
    (n : Nat) (ret : RetTag) :
    Agree below (Beside below locals locals' inStep') (callJoined k id n ret a)
      (callJoined k id n ret a') :=
  h.afterWindow n fun _ hd => .after _ fun _ => .pure (hd.setResult _)

private theorem callIdent (h : a.Beside below locals locals' inStep a') {inStep' : Prop} (i : Nat)
    (id : Ident) (isArg : Bool) (n : Nat) (ret : RetTag) :
    Agree below (Beside below locals locals' inStep') (callIdent k i id isArg n ret a)
      (callIdent k i id isArg n ret a') := by
  refine .after _ fun undefined => ?_
  split
  · split
    · rename_i hn
      by_cases hb : below = []
      · rw [h.stack, hb, List.append_nil, if_pos hn]
        exact .stop _
      · exact .missing hb rfl
    · rename_i hn
      have hn' : ¬a'.stack.length < n := by
        rw [h.stack, List.length_append]
        omega
      rw [if_neg hn']
      exact .pure ((h.drop (Nat.le_of_not_lt hn)).setResult _)
  · exact h.afterWindow n fun _ hd => .after _ fun _ => .pure (hd.setResult _)

private theorem joinOperands (h : a.Beside below locals locals' inStep a') (spaced : Bool) (n : Nat)
    (ret : RetTag) :
    Agree below (fun p p' => p'.1 = p.1 ∧ p.2.Beside below locals locals' inStep p'.2)
      (joinOperands spaced n ret a) (joinOperands spaced n ret a') :=
  h.afterWindow n fun _ hd => .pure ⟨rfl, hd⟩

private theorem stepVariable (h : a.Beside below locals locals' inStep a') (op : Op) (ret : RetTag)
    (i : Nat) :
    Agree below (Beside below locals locals' inStep) (stepVariable k b op ret i a)
      (stepVariable k b op ret i a') := by
  have hident {a a' : Activation} (h : a.Beside below locals locals' inStep a') {α β : Type}
      {S : α → β → Prop} {f : Ident → Engine α} {f' : Ident → Engine β}
      (hf : ∀ id, Agree below S (f id) (f' id)) :
      Agree below S (a.identIn b i >>= f) (a'.identIn b i >>= f') := by
    rw [h.identIn]
    exact .after _ hf
  unfold Engine.stepVariable
  split
  · exact hident h fun _ => h.afterPop fun v _ _ h => .after _ fun _ => .pure h
  · exact hident h fun _ => h.afterPop fun v _ _ h => .after _ fun _ => .pure h
  · exact h.afterPop fun _ _ _ h => h.afterPop fun _ _ _ h => hident h fun _ =>
      .after _ fun _ => .pure h
  · exact h.afterPop fun _ _ _ h => h.afterPop fun _ _ _ h => h.afterPop fun _ _ _ h =>
      hident h fun _ => .after _ fun _ => .pure h
  · exact hident h fun _ => h.afterPop fun v _ _ h => .after _ fun _ => .pure h
  · exact hident h fun _ => .after _ fun _ => .pure h
  · exact hident h fun _ => .after _ fun v => h.push v

private theorem stepAlias (h : a.Beside below locals locals' inStep a') (op : Op) (ret : RetTag)
    (i : Nat) :
    Agree below (Beside below locals locals' inStep) (stepAlias k b op ret i a)
      (stepAlias k b op ret i a') := by
  have hident {α β : Type} {S : α → β → Prop} {f : Ident → Engine α} {f' : Ident → Engine β}
      (hf : ∀ id, Agree below S (f id) (f' id)) :
      Agree below S (a.identIn b i >>= f) (a'.identIn b i >>= f') := by
    rw [h.identIn]
    exact .after _ hf
  unfold Engine.stepAlias
  split
  · exact hident fun _ => h.push _
  · exact hident fun _ => .after _ fun _ => h.push _
  · exact h.replaceTop _
  · exact hident fun _ => .after _ fun v => h.push v
  · exact hident fun _ => .after _ fun v => h.push v
  · exact hident fun _ => .after _ fun v => h.push v
  · exact hident fun _ => .after _ fun v => h.push v
  · exact h.replaceTop _
  · exact h.replaceTop _
  · exact hident fun _ => h.afterPop fun _ _ _ h => .after _ fun _ => .pure h
  · exact hident fun _ => h.afterPop fun _ _ _ h => .after _ fun _ => .pure h
  · exact h.afterPop fun _ _ _ h => h.afterPop fun _ _ _ h => .after _ fun _ => .pure h

/-- Calls leave their answer in the result on both sides. -/
theorem stepCall (h : a.Beside below locals locals' inStep a') {inStep' : Prop} (op : Op)
    (w : UInt32) :
    Agree below (Beside below locals locals' inStep') (stepCall k b op w a) (stepCall k b op w a') := by
  have hident {i : Nat} {α β : Type} {S : α → β → Prop} {f : Ident → Engine α}
      {f' : Ident → Engine β} (hf : ∀ id, Agree below S (f id) (f' id)) :
      Agree below S (a.identIn b i >>= f) (a'.identIn b i >>= f') := by
    rw [h.identIn]
    exact .after _ hf
  unfold Engine.stepCall
  split
  · exact hident fun id => h.callCommand id _ _
  · exact hident fun id => (h.push _).bind fun _ _ h => h.callCommand id _ _
  · exact hident fun id => h.callCommand id _ _
  · exact hident fun id => h.callJoined id _ _
  · exact hident fun id => h.callIdent _ id _ _ _
  · exact hident fun id => h.callIdent _ id _ _ _
  · refine h.afterWindow _ fun vs hd => ?_
    cases vs with
    | nil => exact .stop _
    | cons head args => exact .after _ fun v => .pure (hd.setResult v)

/-- Both take the same way, since they pop the same condition. -/
theorem stepJump (h : a.Beside below locals locals' inStep a') {op : Op} (hop : op.isJump = true)
    (n : UInt32) :
    Agree below (Beside below locals locals' (inStep ∨ op.setsResult = true)) (stepJump k op n a)
      (stepJump k op n a') := by
  have hkeep {a a' : Activation} (h : a.Beside below locals locals' inStep a') :
      a.Beside below locals locals' (inStep ∨ false = true) a' :=
    h.mono fun hi => hi.resolve_right nofun
  cases op with
  | jumpTrue =>
      refine h.afterPop fun v c c' h => .pure ?_
      split
      · exact (hkeep h).jump n
      · exact hkeep h
  | jumpFalse =>
      refine h.afterPop fun v c c' h => .pure ?_
      split
      · exact hkeep h
      · exact (hkeep h).jump n
  | jumpResultTrue | jumpResultFalse =>
      refine h.afterPop fun v c c' h => .after _ fun u => .pure ?_
      change Beside below locals locals' _ (if u.toBool == _ then _ else _)
        (if u.toBool == _ then _ else _)
      split
      · exact (h.setResult u).jump n
      · exact h.setResult u
  | jump => exact .pure ((hkeep h).jump n)
  | _ => cases hop

/-- An instruction does the same beside another run. One that reads the result asks for runs in step,
and behind one that sets it the runs are in step. -/
theorem perform (h : a.Beside below locals locals' inStep a') {op : Op} (hop : op ≠ .local)
    (hread : op = .resultArg → inStep) (w : UInt32) :
    Agree below (Beside below locals locals' (inStep ∨ op.setsResult = true)) (perform k b op w a)
      (perform k b op w a') := by
  have hkeep : a.Beside below locals locals' (inStep ∨ false = true) a' :=
    h.mono fun hi => hi.resolve_right nofun
  unfold Engine.perform
  cases op with
  | start | offset => exact .pure hkeep
  | null | yes | no => exact .pure (h.setResult _)
  | not | run | runOuter => exact h.afterPop fun v _ _ h => .after _ fun u => .pure (h.setResult _)
  | pop => exact hkeep.afterPop fun _ _ _ h => .pure h
  | enter =>
      dsimp only
      rw [h.pc]
      exact .after _ fun p => (hkeep.moved p.2).push p.1
  | enterResult =>
      dsimp only
      rw [h.pc]
      exact .after _ fun p => .pure ((h.moved p.2).setResult p.1)
  | resultArg =>
      dsimp only
      rw [h.result (hread rfl)]
      exact (h.setResult .null).push _
  | val | valInline | view => exact hkeep.pushLiteral _
  | dup =>
      refine hkeep.top.bind fun p p' hp => ?_
      rw [hp.1]
      exact hkeep.push _
  | block =>
      dsimp only
      rw [h.pc]
      exact (hkeep.jump _).push _
  | empty => exact hkeep.push _
  | compile | cond | force => exact hkeep.replaceTop _
  | result => exact h.afterPop fun v _ _ h => .pure (h.setResult _)
  | conc | concWord =>
      refine (hkeep.joinOperands _ _ _).bind ?_
      rintro ⟨v, c⟩ ⟨v', c'⟩ ⟨hv, hc⟩
      obtain rfl : v' = v := hv
      exact hc.push v'
  | concResult =>
      refine (h.joinOperands _ _ _).bind fun p p' hp => .pure ?_
      rw [hp.1]
      exact hp.2.setResult p.1
  | textVar | textVarView | setTextVar | intVar | setIntVar | setIntVar2 | setIntVar3 | floatVar
  | setFloatVar | print => exact hkeep.stepVariable _ _ _
  | ident | identNamed | identArg | lookup | lookupNamed | lookupArg | lookupView
  | lookupViewNamed | lookupViewArg | «alias» | aliasNamed | aliasArg => exact hkeep.stepAlias _ _ _
  | com | comPressed | comJoined | comAll | call | callNamed | callArg => exact h.stepCall _ w
  | «local» => exact absurd rfl hop
  | jump | jumpTrue | jumpFalse | jumpResultTrue | jumpResultFalse => exact h.stepJump rfl _
  | exit | bool | down =>
      dsimp only
      rw [h.pc]
      exact .stop _

end Activation.Beside

section Walking

/-- Performs the words of a block from the position of the run up to another position. -/
def Engine.walk (k : Runner) (b : Block) (e : Nat) (a : Activation) : Engine Activation :=
  performWords k b ((b.words.toList.drop a.pc).take (e - a.pc)) a

variable {n pc e : Nat} {inStep' : Prop}

theorem walk_end (k : Runner) (b : Block) {a : Activation} (he : e ≤ a.pc) :
    walk k b e a = pure a := by
  rw [walk, Nat.sub_eq_zero_of_le he, List.take_zero, performWords]

/-- An instruction and then the words behind it. -/
theorem walk_step (hk : Forward k) {w : UInt32} {op : Op} (he : a.pc < e)
    (hw : b.words[a.pc]? = some w) (ho : Word.op? w = some op) :
    walk k b e a = perform k b op w { a with pc := a.pc + 1 } >>= walk k b e := by
  have hcons : (b.words.toList.drop a.pc).take (e - a.pc) =
      w :: (b.words.toList.drop (a.pc + 1)).take (e - (a.pc + 1)) := by
    have hw : b.words.toList[a.pc]? = some w := by simpa using hw
    obtain ⟨hlt, hget⟩ := List.getElem?_eq_some_iff.mp hw
    obtain ⟨m, hm⟩ : ∃ m, e - a.pc = m + 1 := ⟨e - a.pc - 1, by omega⟩
    rw [List.drop_eq_getElem_cons hlt, hget, hm, List.take_succ_cons]
    congr 2
    omega
  rw [walk, hcons, performWords_cons ho]
  refine Engine.ext fun s => ?_
  rw [outcome_bind, outcome_bind]
  rcases hp : outcome (perform k b op w { a with pc := a.pc + 1 }) s with ⟨stop | a', s'⟩
  · rfl
  · have hle : a.pc + 1 ≤ a'.pc := yields_perform hk op w _ s a' s' hp
    have hdrop : ((b.words.toList.drop (a.pc + 1)).take (e - (a.pc + 1))).drop (a'.pc - (a.pc + 1)) =
        (b.words.toList.drop a'.pc).take (e - a'.pc) := by
      rw [List.drop_take, List.drop_drop, Nat.add_sub_cancel' hle, Nat.sub_sub_sub_cancel_right hle]
    dsimp only
    rw [hdrop]
    rfl

theorem walk_code {code : Compile.Code} (hw : b.Holds a.pc (Compile.Code.words a.pc code)) :
    walk k b (a.pc + (Compile.Code.words a.pc code).length) a = performCode k b code a := by
  obtain ⟨rest, hrest⟩ := hw
  rw [walk, performCode, ← hrest, Nat.add_sub_cancel_left, List.take_left]

/-- Walks from a position to another one, side by side, end there, and side by side. -/
structure Engine.Matches (k : Runner) (b : Block) (e : Nat) (inStep inStep' : Prop) (pc : Nat) :
    Prop where
  agree : ∀ {a a' : Activation} {below : List Value} {locals locals' : List Nat}, a.pc = pc →
    a.Beside below locals locals' inStep a' →
      Agree below (fun c c' => c.pc = e ∧ c.Beside below locals locals' inStep' c')
        (walk k b e a) (walk k b e a')

theorem Engine.Matches.refl (k : Runner) (b : Block) (e : Nat) (inStep : Prop) :
    Matches k b e inStep inStep e where
  agree ha h := by
    rw [walk_end k b (Nat.le_of_eq ha.symm), walk_end k b (Nat.le_of_eq (h.pc.trans ha).symm)]
    exact .pure ⟨ha, h⟩

theorem Engine.Matches.step (hk : Forward k) {w : UInt32} {op : Op} {inStep₁ : Prop}
    (hpc : pc < e) (hw : b.words[pc]? = some w) (ho : Word.op? w = some op) (hop : op ≠ .local)
    (hread : op = .resultArg → inStep) (hset : inStep₁ → inStep ∨ op.setsResult = true)
    (h : ∀ a : Activation, a.pc = pc + 1 →
      Yields (perform k b op w a) fun a' => Matches k b e inStep₁ inStep' a'.pc) :
    Matches k b e inStep inStep' pc where
  agree {a a' below locals locals'} ha hbeside := by
    have ha' : a'.pc = pc := hbeside.pc.trans ha
    rw [walk_step hk (ha ▸ hpc) (ha ▸ hw) ho, walk_step hk (ha' ▸ hpc) (ha' ▸ hw) ho, ha, ha']
    have hp := (hbeside.moved (pc + 1)).perform (k := k) (b := b) hop hread w
    refine (hp.and_yields (h _ rfl)).bind fun c c' hc => ?_
    exact hc.1.agree rfl (hc.2.mono hset)

theorem carried_matches (hk : Forward k) (b : Block) (hn : n ≤ e) (inStep inStep' : Prop) :
    Carried k b n (fun op => op ≠ .local ∧ (op = .resultArg → inStep))
      (Matches k b e inStep inStep') :=
  fun _ _ _ hpc hw ho _ hop h =>
    .step hk (Nat.lt_of_lt_of_le hpc hn) hw ho hop.1 hop.2 .inl h

/-- Aliases are shadowed by one instruction only. -/
theorem yields_perform_locals {op : Op} (hop : op ≠ .local) (w : UInt32) (a : Activation) :
    Yields (perform k b op w a) fun a' => a'.locals = a.locals := by
  have hself : a.Beside [] a.locals a.locals True a :=
    ⟨rfl, (List.append_nil _).symm, rfl, rfl, fun _ => rfl⟩
  exact ((hself.perform hop (fun _ => trivial) w).mono fun _ _ h => h.shadowed).yields

/-- A run walks up to the end of code that shadows no aliases, and goes on from there. -/
theorem carried_runs (hk : Forward k) (b : Block) (hn : n ≤ e) :
    Carried k b n (· ≠ .local) fun pc => ∀ a : Activation, a.pc = pc → ∀ left,
      b.size < pc + left → runFrom k b left a = goOn k b left a.locals (walk k b e a) := by
  rintro pc w op hpc hw ho hx hop h a rfl left hleft
  rw [runFrom_perform hk hw ho hx hleft, walk_step hk (Nat.lt_of_lt_of_le hpc hn) hw ho]
  have hperform (m : Engine Activation) : m = m >>= pure := (bind_pure m).symm
  rw [hperform (perform k b op w _), bind_assoc]
  refine goOn_bind_congr fun s c s' hc => ?_
  have hlocals : c.locals = ({ a with pc := a.pc + 1 } : Activation).locals :=
    yields_perform_locals hop w _ s c s' hc
  have hle : a.pc + 1 ≤ c.pc := yields_perform hk op w _ s c s' hc
  change goOn k b left a.locals (pure c) = goOn k b left a.locals (walk k b e c)
  rw [goOn_pure, h _ rfl s c s' hc c rfl left (by omega), hlocals]

end Walking

end ConsoleScript
