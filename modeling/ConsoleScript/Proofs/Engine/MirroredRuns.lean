import ConsoleScript.Proofs.Engine.MirroredParts

/-!
Calls, instructions and runs. Blocks with the same words run alike from interpreters that differ in
labels only: what an instruction does is decided by words, and code that is passed on goes by its words
as well, wherever it is run.
-/

namespace ConsoleScript

open Bytecode Engine

variable {past past' : List Event} {k : Runner}

section Calls

private theorem mirrors_bodyOf (i : Nat) :
    Mirrors past past' Block.Relabels (bodyOf i) (bodyOf i) := by
  apply Mirrors.identAt
  intro id id' h
  have hbody := h.body
  rw [h.value.toBytes, h.name]
  generalize id.body = body at hbody
  generalize id'.body = body' at hbody
  cases hbody with
  | some hb => exact .pure hb
  | none =>
      refine (mirrors_compileText _ _).bind fun block block' hb => ?_
      refine (Mirrors.modifyIdent i fun id id' h => ?_).next fun _ => .pure hb
      exact { h with body := .some hb }

variable {args args' : List Value} (hk : RunsBlindly past past' k)
include hk

theorem mirrors_invoke {id id' : Ident} (h : id.Relabels id')
    (hargs : List.Forall₂ Value.Relabels args args') :
    Mirrors past past' Value.Relabels (invoke k id args) (invoke k id' args') := by
  unfold invoke
  rw [h.role]
  cases hrole : id.role with
  | command sig action =>
      have hblind : (Role.command sig action).Blind := hrole ▸ h.blind
      cases action with
      | builtin b => exact mirrors_apply hk b hargs
      | host f => exact mirrors_runHost hk (hblind args args' hargs)
  | control c => exact mirrors_applyControl hk c hargs
  | intVar | floatVar | textVar | «alias» => exact .pure (.refl _)

theorem mirrors_callShaped (i : Nat) {id id' : Ident} (h : id.Relabels id') (isLookup : Bool)
    (hargs : List.Forall₂ Value.Relabels args args') :
    Mirrors past past' Value.Relabels (callShaped k i id isLookup args)
      (callShaped k i id' isLookup args') := by
  unfold callShaped
  rw [h.role]
  exact (mirrors_shape _ i isLookup hargs).bind fun _ _ hshaped => mirrors_invoke hk h hshaped

theorem mirrors_callAlias (i : Nat) (hargs : List.Forall₂ Value.Relabels args args')
    (ret : RetTag) :
    Mirrors past past' Value.Relabels (callAlias k i args ret) (callAlias k i args' ret) := by
  apply Mirrors.identAt
  intro id id' h
  dsimp only
  rw [h.flags]
  refine mirrors_withArgs i _ hargs ((mirrors_bodyOf i).bind fun block block' hb => ?_)
  exact (hk _ _ _ hb).bind fun _ _ hp => .pure (hp.1.force ret)

private theorem mirrors_lookupNamed (name : Bytes) (ret : RetTag) (asView : Bool) :
    Mirrors past past' Value.Relabels (lookupNamed k name ret asView)
      (lookupNamed k name ret asView) := by
  apply Mirrors.read
  intro s s' hs
  rcases hs.table.lookup? name with ⟨hid, hid'⟩ | ⟨i, id, id', hid, hid', h⟩
  · rw [hid, hid']
    exact (mirrors_debug _).next fun _ => .pure (.refl _)
  · rw [hid, hid']
    dsimp only
    have hbound : s'.isBound i = s.isBound i := by
      cases hs
      rfl
    have hint (store : IntStore) : s'.intOf store = s.intOf store := by
      cases hs
      rfl
    rw [h.role, h.flags, h.value.lookedUp, hbound]
    cases id.role with
    | «alias» =>
        exact .ite ((mirrors_debug _).next fun _ => .pure (.refl _))
          (.ite (.pure (.refl _)) (.pure (.refl _)))
    | intVar =>
        dsimp only
        rw [hint]
        exact .pure (.refl _)
    | textVar | floatVar | control => exact .pure (.refl _)
    | command =>
        exact ((mirrors_callShaped hk i h true .nil).atLevel _ _).bind fun _ _ hv =>
          .pure (hv.force ret)

private theorem mirrors_callFound (name : Bytes) (i : Nat) {id id' : Ident} (h : id.Relabels id')
    (hargs : List.Forall₂ Value.Relabels args args') (ret : RetTag) :
    Mirrors past past' Value.Relabels (callFound k name i id args ret)
      (callFound k name i id' args' ret) := by
  have hcallable : isCallable id' = isCallable id := by simp [isCallable, h.role]
  unfold callFound
  rw [h.role, h.flags, hcallable]
  cases id.role with
  | «alias» =>
      refine .ite ((mirrors_debug _).next fun _ => .pure (.refl _)) ?_
      apply Mirrors.read
      intro s s' hs
      have hbound : s'.isBound i = s.isBound i := by
        cases hs
        rfl
      rw [hbound]
      exact .ite (.pure (.refl _)) (mirrors_callAlias hk i hargs ret)
  | intVar | floatVar | textVar =>
      cases hargs with
      | nil => exact (mirrors_printVar i).next fun _ => .pure (.refl _)
      | cons hv _ => exact (mirrors_assign hk i hv).next fun _ => .pure (.refl _)
  | command | control => exact .ite (mirrors_callShaped hk i h false hargs) (.pure (.refl _))

private theorem mirrors_callNamed {head head' : Value} (hhead : head.Relabels head')
    (hargs : List.Forall₂ Value.Relabels args args') (ret : RetTag) :
    Mirrors past past' Value.Relabels (callNamed k head args ret)
      (callNamed k head' args' ret) := by
  unfold callNamed
  rw [hhead.text?, hhead.settle]
  cases head.text? with
  | none => exact .pure (.refl _)
  | some name =>
      apply Mirrors.read
      intro s s' hs
      rcases hs.table.lookup? name with ⟨hid, hid'⟩ | ⟨i, id, id', hid, hid', h⟩
      · rw [hid, hid']
        exact .ite (.pure (.refl _)) ((mirrors_debug _).next fun _ => .pure (.refl _))
      · rw [hid, hid']
        exact (mirrors_callFound hk name i h hargs ret).bind fun _ _ hv => .pure (hv.force ret)

end Calls

/-- A run of a relabelled block, with operands that differ in labels only. -/
structure Activation.Relabels (a a' : Activation) : Prop where
  pc : a'.pc = a.pc
  stack : List.Forall₂ Value.Relabels a.stack a'.stack
  result : a.result.Relabels a'.result
  locals : a'.locals = a.locals

section Operands

variable {a a' : Activation} {v v' : Value}

namespace Activation.Relabels

theorem moved (h : a.Relabels a') {pc pc' : Nat} (hpc : pc' = pc) :
    Activation.Relabels { a with pc } { a' with pc := pc' } :=
  { h with pc := hpc }

theorem jump (h : a.Relabels a') (n : UInt32) : (a.jump n).Relabels (a'.jump n) :=
  { h with pc := congrArg (· + n.toNat) h.pc }

theorem setResult (h : a.Relabels a') (hv : v.Relabels v') :
    (a.setResult v).Relabels (a'.setResult v') :=
  { h with result := hv }

theorem drop (h : a.Relabels a') (n : Nat) : (a.drop n).Relabels (a'.drop n) :=
  { h with stack := List.forall₂_drop n h.stack }

theorem push (h : a.Relabels a') (hv : v.Relabels v') :
    Mirrors past past' Activation.Relabels (a.push v) (a'.push v') := by
  unfold Activation.push
  rw [h.stack.length_eq]
  exact .ite (.pure { h with stack := .cons hv h.stack }) (.fail _)

private theorem pop (h : a.Relabels a') :
    Mirrors past past' (fun p p' => p.1.Relabels p'.1 ∧ p.2.Relabels p'.2) a.pop a'.pop := by
  have hstack := h.stack
  unfold Activation.pop
  generalize a.stack = stack at hstack
  generalize a'.stack = stack' at hstack
  cases hstack with
  | nil => exact .fail _
  | cons hv hrest => exact .pure ⟨hv, { h with stack := hrest }⟩

theorem top (h : a.Relabels a') :
    Mirrors past past' (fun p p' => p.1.Relabels p'.1 ∧ List.Forall₂ Value.Relabels p.2 p'.2) a.top
      a'.top := by
  have hstack := h.stack
  unfold Activation.top
  generalize a.stack = stack at hstack
  generalize a'.stack = stack' at hstack
  cases hstack with
  | nil => exact .fail _
  | cons hv hrest => exact .pure ⟨hv, hrest⟩

theorem replaceTop (h : a.Relabels a') {f f' : Value → Engine Value}
    (hf : ∀ v v', v.Relabels v' → Mirrors past past' Value.Relabels (f v) (f' v')) :
    Mirrors past past' Activation.Relabels (a.replaceTop f) (a'.replaceTop f') := by
  refine h.top.bind ?_
  rintro ⟨v, rest⟩ ⟨v', rest'⟩ ⟨hv, hrest⟩
  exact (hf v v' hv).bind fun _ _ hw => .pure { h with stack := .cons hw hrest }

theorem window (h : a.Relabels a') (n : Nat) :
    Mirrors past past' (List.Forall₂ Value.Relabels) (a.window n) (a'.window n) := by
  unfold Activation.window
  rw [h.stack.length_eq]
  refine .ite (.pure ?_) (.fail _)
  exact List.forall₂_reverse_iff.mpr (List.forall₂_take n h.stack)

/-- The identifier that an instruction names; if there is none, the fault has a place of any label. -/
theorem identIn {α β : Type} {S : α → β → Prop} (h : a.Relabels a') (b b' : Block) (i : Nat)
    {f : Ident → Engine α} {f' : Ident → Engine β}
    (hf : ∀ id id', id.Relabels id' → Mirrors past past' S (f id) (f' id')) :
    Mirrors past past' S (a.identIn b i >>= f) (a'.identIn b' i >>= f') := by
  have hread : Mirrors past past' Ident.Relabels (a.identIn b i) (a'.identIn b' i) := by
    intro s s' hs
    unfold Activation.identIn
    rw [outcome_bind_ok (outcome_identAt? s i), outcome_bind_ok (outcome_identAt? s' i), h.pc]
    rcases hs.table.get? i with ⟨hid, hid'⟩ | ⟨id, id', hid, hid', hi⟩
    · rw [hid, hid']
      exact Mirrors.failAt _ _ _ _ s s' hs
    · rw [hid, hid']
      exact Mirrors.pure hi s s' hs
  exact hread.bind hf

theorem afterPop {α β : Type} {S : α → β → Prop} (h : a.Relabels a')
    {f : Value × Activation → Engine α} {f' : Value × Activation → Engine β}
    (hf : ∀ v v' c c', v.Relabels v' → c.Relabels c' → Mirrors past past' S (f (v, c)) (f' (v', c'))) :
    Mirrors past past' S (a.pop >>= f) (a'.pop >>= f') :=
  h.pop.bind fun p p' hp => hf p.1 p'.1 p.2 p'.2 hp.1 hp.2

private theorem pushLiteral (h : a.Relabels a') {b b' : Block} (hb : b.Relabels b') (op : Op) :
    Mirrors past past' Activation.Relabels (pushLiteral b op a) (pushLiteral b' op a') := by
  have hwords : b'.words = b.words := hb
  unfold Engine.pushLiteral
  dsimp only
  rw [h.pc, hwords]
  cases decode b.words (a.pc - 1) with
  | error e => exact .failAt _ _ _ _
  | ok i => exact (h.moved rfl).push (.refl _)

private theorem joinOperands (h : a.Relabels a') (spaced : Bool) (n : Nat) (ret : RetTag) :
    Mirrors past past' (fun p p' => p.1.Relabels p'.1 ∧ p.2.Relabels p'.2)
      (joinOperands spaced n ret a) (joinOperands spaced n ret a') := by
  refine (h.window n).bind fun vs vs' hvs => ?_
  dsimp only
  rw [join_relabels spaced hvs]
  exact .pure ⟨.refl _, h.drop n⟩

end Activation.Relabels

private theorem mirrors_compileValue (hv : v.Relabels v') :
    Mirrors past past' Value.Relabels (compileValue v) (compileValue v') := by
  cases hv with
  | code => exact .pure (.refl _)
  | refl =>
      cases v with
      | text kind s => exact mirrors_codeOf s
      | null | int | float | code | ident => exact .pure (.refl _)

private theorem mirrors_variableValue (op : Op) (ret : RetTag) {id id' : Ident}
    (h : id.Relabels id') :
    Mirrors past past' Value.Relabels (variableValue op ret id) (variableValue op ret id') := by
  unfold variableValue
  rw [h.role]
  split
  · exact .pure (.refl _)
  · exact .pure (.refl _)
  · apply Mirrors.read
    intro s s' hs
    cases hs
    exact .pure (.refl _)
  · exact .pure (.refl _)
  · exact .fail _

private theorem mirrors_aliasValue {id id' : Ident} (h : id.Relabels id') (ret : RetTag)
    (asView : Bool) :
    Mirrors past past' Value.Relabels (aliasValue id ret asView) (aliasValue id' ret asView) := by
  unfold aliasValue
  rw [h.flags, h.name, h.value.lookedUp]
  exact .ite ((mirrors_debug _).next fun _ => .pure (.refl _)) (.pure (.refl _))

private theorem mirrors_argValue (i : Nat) {id id' : Ident} (h : id.Relabels id') (ret : RetTag)
    (asView : Bool) :
    Mirrors past past' Value.Relabels (argValue i id ret asView) (argValue i id' ret asView) := by
  unfold argValue
  rw [h.value.lookedUp]
  exact .ifBound i (.pure (.refl _)) (.pure (.refl _))

private theorem mirrors_isUndefined (i : Nat) {id id' : Ident} (h : id.Relabels id')
    (isArg : Bool) :
    Mirrors past past' Eq (isUndefined i id isArg) (isUndefined i id' isArg) := by
  unfold isUndefined
  rw [h.flags, h.name]
  refine .ite ?_ (.ite ((mirrors_debug _).next fun _ => .pure rfl) (.pure rfl))
  apply Mirrors.read
  intro s s' hs
  cases hs
  exact .pure rfl

end Operands

section Instructions

variable {b b' : Block} {a a' : Activation} (hk : RunsBlindly past past' k)
include hk

namespace Activation.Relabels

private theorem callCommand (h : a.Relabels a') {id id' : Ident} (hid : id.Relabels id') (n : Nat)
    (ret : RetTag) :
    Mirrors past past' Activation.Relabels (callCommand k id n ret a) (callCommand k id' n ret a') :=
  (h.window n).bind fun _ _ hargs => (mirrors_invoke hk hid hargs).bind fun _ _ hv =>
    .pure ((h.drop n).setResult (hv.force ret))

private theorem callJoined (h : a.Relabels a') {id id' : Ident} (hid : id.Relabels id') (n : Nat)
    (ret : RetTag) :
    Mirrors past past' Activation.Relabels (callJoined k id n ret a) (callJoined k id' n ret a') := by
  refine (h.window n).bind fun args args' hargs => ?_
  dsimp only
  rw [join_relabels true hargs]
  exact (mirrors_invoke hk hid (relabels_refl _)).bind fun _ _ hv =>
    .pure ((h.drop n).setResult (hv.force ret))

private theorem callIdent (h : a.Relabels a') (i : Nat) {id id' : Ident} (hid : id.Relabels id')
    (isArg : Bool) (n : Nat) (ret : RetTag) :
    Mirrors past past' Activation.Relabels (callIdent k i id isArg n ret a)
      (callIdent k i id' isArg n ret a') := by
  refine (mirrors_isUndefined i hid isArg).next fun undefined => ?_
  rw [h.stack.length_eq]
  refine .ite (.ite (.fail _) (.pure ((h.drop n).setResult (.refl _)))) ?_
  exact (h.window n).bind fun _ _ hargs => (mirrors_callAlias hk i hargs ret).bind fun _ _ hv =>
    .pure ((h.drop n).setResult (hv.force ret))

omit hk in
private theorem shadow (h : a.Relabels a') (n : Nat) :
    Mirrors past past' Activation.Relabels (shadow n a) (shadow n a') := by
  refine (h.window n).bind fun vs vs' hvs => ?_
  dsimp only
  rw [map_relabels (fun _ _ hv => by rw [hv.ident?]) hvs, h.locals]
  exact (Mirrors.forM mirrors_pushAlias _).next fun _ => .pure { h.drop n with locals := rfl }

private theorem stepVariable (h : a.Relabels a') (op : Op) (ret : RetTag) (i : Nat) :
    Mirrors past past' Activation.Relabels (stepVariable k b op ret i a)
      (stepVariable k b' op ret i a') := by
  unfold Engine.stepVariable
  split
  · exact h.identIn b b' i fun _ _ _ => h.afterPop fun _ _ _ _ hv hc =>
      (mirrors_setTextVar hk i hv.toBytes).next fun _ => .pure hc
  · exact h.identIn b b' i fun _ _ _ => h.afterPop fun _ _ _ _ hv hc =>
      (mirrors_setIntVar hk i hv.toInt).next fun _ => .pure hc
  · refine h.afterPop fun _ _ _ _ hy hc => hc.afterPop fun _ _ _ _ hx hc => ?_
    refine hc.identIn b b' i fun _ _ _ => (mirrors_setIntVar hk i ?_).next fun _ => .pure hc
    rw [hx.toInt, hy.toInt]
  · refine h.afterPop fun _ _ _ _ hz hc => hc.afterPop fun _ _ _ _ hy hc => ?_
    refine hc.afterPop fun _ _ _ _ hx hc => hc.identIn b b' i fun _ _ _ => ?_
    refine (mirrors_setIntVar hk i ?_).next fun _ => .pure hc
    rw [hx.toInt, hy.toInt, hz.toInt]
  · exact h.identIn b b' i fun _ _ _ => h.afterPop fun _ _ _ _ hv hc =>
      (mirrors_setFloatVar hk i hv.toSingle).next fun _ => .pure hc
  · exact h.identIn b b' i fun _ _ _ => (mirrors_printVar i).next fun _ => .pure h
  · exact h.identIn b b' i fun _ _ hid =>
      (mirrors_variableValue _ ret hid).bind fun _ _ hv => h.push hv

private theorem stepAlias (h : a.Relabels a') (op : Op) (ret : RetTag) (i : Nat) :
    Mirrors past past' Activation.Relabels (stepAlias k b op ret i a)
      (stepAlias k b' op ret i a') := by
  unfold Engine.stepAlias
  split
  case h_8 | h_9 =>
    refine h.replaceTop fun v v' hv => ?_
    rw [hv.text?]
    cases v.text? with
    | some name => exact mirrors_lookupNamed hk name ret _
    | none => exact .pure hv
  · exact h.identIn b b' i fun _ _ _ => h.push (.refl _)
  · exact h.identIn b b' i fun _ _ _ => (mirrors_bindArg i).next fun _ => h.push (.refl _)
  · exact h.replaceTop fun _ _ hv => mirrors_identOf hv
  · exact h.identIn b b' i fun _ _ hid =>
      (mirrors_aliasValue hid ret false).bind fun _ _ hv => h.push hv
  · exact h.identIn b b' i fun _ _ hid =>
      (mirrors_aliasValue hid ret true).bind fun _ _ hv => h.push hv
  · exact h.identIn b b' i fun _ _ hid =>
      (mirrors_argValue i hid ret false).bind fun _ _ hv => h.push hv
  · exact h.identIn b b' i fun _ _ hid =>
      (mirrors_argValue i hid ret true).bind fun _ _ hv => h.push hv
  · exact h.identIn b b' i fun _ _ _ => h.afterPop fun _ _ _ _ hv hc =>
      (mirrors_setAlias i hv).next fun _ => .pure hc
  · exact h.identIn b b' i fun _ _ _ => h.afterPop fun _ _ _ _ hv hc =>
      (mirrors_setArg i hv).next fun _ => .pure hc
  · refine h.afterPop fun v v' _ _ hv hc => hc.afterPop fun name name' _ _ hname hc => ?_
    dsimp only
    rw [hname.toBytes]
    exact (mirrors_assignNamed hk _ hv).next fun _ => .pure hc

private theorem stepCall (h : a.Relabels a') (op : Op) (w : UInt32) :
    Mirrors past past' Activation.Relabels (stepCall k b op w a) (stepCall k b' op w a') := by
  unfold Engine.stepCall
  dsimp only
  split
  · refine h.identIn b b' _ fun id id' hid => ?_
    rw [hid.role]
    exact h.callCommand hk hid _ _
  · refine h.identIn b b' _ fun id id' hid => ?_
    rw [hid.role]
    exact (h.push (.refl _)).bind fun _ _ hc => hc.callCommand hk hid _ _
  · exact h.identIn b b' _ fun _ _ hid => h.callCommand hk hid _ _
  · exact h.identIn b b' _ fun _ _ hid => h.callJoined hk hid _ _
  · exact h.identIn b b' _ fun _ _ hid => h.callIdent hk _ hid _ _ _
  · exact h.identIn b b' _ fun _ _ hid => h.callIdent hk _ hid _ _ _
  · refine (h.window _).bind fun args args' hargs => ?_
    cases hargs with
    | nil => exact .fail _
    | cons hhead hargs =>
        exact (mirrors_callNamed hk hhead hargs _).bind fun _ _ hv =>
          .pure ((h.drop _).setResult hv)

/-- Both go the same way, since they pop conditions that differ in labels only. -/
theorem stepJump (h : a.Relabels a') (op : Op) (n : UInt32) :
    Mirrors past past' Activation.Relabels (stepJump k op n a) (stepJump k op n a') := by
  have hway {c c' : Activation} (hc : c.Relabels c') {d d' : Activation} (hd : d.Relabels d')
      {v v' : Bool} (hv : v' = v) : Mirrors past past' Activation.Relabels
        (return if v then c else d) (return if v' then c' else d') := by
    subst hv
    cases v' with
    | true => exact .pure hc
    | false => exact .pure hd
  unfold Engine.stepJump
  split
  · exact h.afterPop fun _ _ _ _ hv hc => hway (hc.jump n) hc hv.toBool
  · exact h.afterPop fun _ _ _ _ hv hc => hway hc (hc.jump n) hv.toBool
  · refine h.afterPop fun _ _ _ _ hv hc => (mirrors_codeResult hk hv).bind fun _ _ hw => ?_
    exact hway ((hc.setResult hw).jump n) (hc.setResult hw) (congrArg (· == _) hw.toBool)
  · refine h.afterPop fun _ _ _ _ hv hc => (mirrors_codeResult hk hv).bind fun _ _ hw => ?_
    exact hway ((hc.setResult hw).jump n) (hc.setResult hw) (congrArg (· == _) hw.toBool)
  · exact .pure (h.jump n)

private theorem perform (h : a.Relabels a') (hb : b.Relabels b') (op : Op) (w : UInt32) :
    Mirrors past past' Activation.Relabels (perform k b op w a) (perform k b' op w a') := by
  have hnot (v v' : Value) (hv : v.Relabels v') (c c' : Activation) (hc : c.Relabels c')
      (ret : RetTag) : Mirrors past past' Activation.Relabels (do
        let u ← Library.codeResult k v
        return c.setResult ((Value.ofBool !u.toBool).force ret)) (do
        let u ← Library.codeResult k v'
        return c'.setResult ((Value.ofBool !u.toBool).force ret)) := by
    refine (mirrors_codeResult hk hv).bind fun u u' hu => ?_
    rw [hu.toBool]
    exact .pure (hc.setResult (.refl _))
  unfold Engine.perform
  cases op with
  | start | offset => exact .pure h
  | null | yes | no => exact .pure (h.setResult (.refl _))
  | not => exact h.afterPop fun _ _ _ _ hv hc => hnot _ _ hv _ _ hc _
  | pop => exact h.afterPop fun _ _ _ _ _ hc => .pure hc
  | enter =>
      dsimp only
      rw [h.pc]
      exact (hk b b' a.pc hb).bind fun _ _ hp => (h.moved hp.2).push hp.1
  | enterResult =>
      dsimp only
      rw [h.pc]
      exact (hk b b' a.pc hb).bind fun _ _ hp => .pure ((h.moved hp.2).setResult hp.1)
  | resultArg => exact (h.setResult (.refl _)).push (h.result.force _)
  | val | valInline | view => exact h.pushLiteral hb _
  | dup =>
      refine h.top.bind fun p p' hp => ?_
      rw [hp.1.lookedUp]
      exact h.push (.refl _)
  | block =>
      dsimp only
      rw [h.pc]
      exact (h.jump _).push (.code hb _)
  | empty => exact h.push (.refl _)
  | compile => exact h.replaceTop fun _ _ hv => mirrors_compileValue hv
  | cond => exact h.replaceTop fun _ _ hv => mirrors_compileCondition hv
  | force => exact h.replaceTop fun _ _ hv => .pure (hv.force _)
  | result => exact h.afterPop fun _ _ _ _ hv hc => .pure (hc.setResult (hv.force _))
  | conc | concWord => exact (h.joinOperands _ _ _).bind fun _ _ hp => hp.2.push hp.1
  | concResult => exact (h.joinOperands _ _ _).bind fun _ _ hp => .pure (hp.2.setResult hp.1)
  | textVar | textVarView | setTextVar | intVar | setIntVar | setIntVar2 | setIntVar3 | floatVar
  | setFloatVar | print => exact h.stepVariable hk _ _ _
  | ident | identNamed | identArg | lookup | lookupNamed | lookupArg | lookupView
  | lookupViewNamed | lookupViewArg | «alias» | aliasNamed | aliasArg => exact h.stepAlias hk _ _ _
  | com | comPressed | comJoined | comAll | call | callNamed | callArg => exact h.stepCall hk _ w
  | «local» => exact h.shadow _
  | run =>
      exact h.afterPop fun _ _ _ _ hv hc => (mirrors_runValue hk hv).bind fun _ _ hu =>
        .pure (hc.setResult (hu.force _))
  | runOuter =>
      exact h.afterPop fun _ _ _ _ hv hc =>
        (mirrors_withOuterArgs (mirrors_runValue hk hv)).bind fun _ _ hu =>
          .pure (hc.setResult (hu.force _))
  | jump | jumpTrue | jumpFalse | jumpResultTrue | jumpResultFalse => exact h.stepJump hk _ _
  | exit | bool | down =>
      dsimp only
      rw [h.pc]
      exact .failAt _ _ _ _

end Activation.Relabels

end Instructions

section Runs

variable {b b' : Block}

/-- Steps that lead on with runs that differ in labels only, or end alike. -/
inductive Engine.Next.Relabels : Next → Next → Prop
  | go {a a' : Activation} (h : a.Relabels a') : Relabels (.go a) (.go a')
  | done {v v' : Value} (h : v.Relabels v') (pc : Nat) : Relabels (.done v pc) (.done v' pc)

private theorem mirrors_step (hk : RunsBlindly past past' k) (hb : b.Relabels b')
    {a a' : Activation}
    (h : a.Relabels a') : Mirrors past past' Next.Relabels (step k b a) (step k b' a') := by
  have hwords : b'.words = b.words := hb
  unfold step
  rw [h.pc, hwords]
  cases b.words[a.pc]? with
  | none => exact .failAt _ _ _ _
  | some w =>
      dsimp only
      cases Word.op? w with
      | none => exact .failAt _ _ _ _
      | some op =>
          cases op with
          | exit => exact .pure (.done (h.result.force _) _)
          | _ => exact ((h.moved rfl).perform hk hb _ w).bind fun _ _ hc => .pure (.go hc)

private theorem mirrors_runFrom (hk : RunsBlindly past past' k) (hb : b.Relabels b') (left : Nat)
    {a a' : Activation} (h : a.Relabels a') :
    Mirrors past past' (fun p p' => p.1.Relabels p'.1 ∧ p'.2 = p.2) (runFrom k b left a)
      (runFrom k b' left a') := by
  have hend : Mirrors past past' Eq (endLocals a.locals) (endLocals a'.locals) := by
    rw [h.locals]
    exact .forM mirrors_popAlias _
  induction left generalizing a a' with
  | zero =>
      refine hend.next fun _ => ?_
      rw [h.pc]
      exact .failAt _ _ _ _
  | succ left ih =>
      refine (mirrors_step hk hb h).attempt.bind fun o o' ho => ?_
      cases ho with
      | error he => exact hend.next fun _ => .stop he
      | ok hnext =>
          cases hnext with
          | go h => exact ih h (by rw [h.locals]; exact .forM mirrors_popAlias _)
          | done hv pc => exact hend.next fun _ => .pure ⟨hv, rfl⟩

private theorem mirrors_skipFrom (hb : b.Relabels b') (start left depth pc : Nat) :
    Mirrors past past' (fun p p' => p.1.Relabels p'.1 ∧ p'.2 = p.2) (skipFrom b start left depth pc)
      (skipFrom b' start left depth pc) := by
  have hwords : b'.words = b.words := hb
  have hsize : b'.size = b.size := congrArg Array.size hb
  induction left generalizing depth pc with
  | zero => exact .failAt _ _ _ _
  | succ left ih =>
      unfold skipFrom
      rw [hwords, hsize]
      refine .ite (.failAt _ _ _ _) ?_
      cases decode b.words pc with
      | error e => exact .failAt _ _ _ _
      | ok i =>
          refine .ite (ih _ _) (.ite (ih _ _) (.ite ?_ (ih _ _)))
          cases depth with
          | zero => exact .pure ⟨.refl _, rfl⟩
          | succ depth => exact ih _ _

/-- Code runs blindly to any depth. -/
theorem runsBlindly_run (room : Nat) : RunsBlindly past past' (run room) := by
  induction room with
  | zero =>
      intro b b' pc hb
      have hsize : b'.size = b.size := congrArg Array.size hb
      refine (mirrors_debug _).next fun _ => ?_
      unfold skip
      rw [hsize]
      exact mirrors_skipFrom hb _ _ _ _
  | succ room ih =>
      intro b b' pc hb
      have hsize : b'.size = b.size := congrArg Array.size hb
      unfold run
      rw [hsize]
      exact (mirrors_runFrom ih hb _ ⟨rfl, .nil, .refl _, rfl⟩).atLevel _ _

end Runs

end ConsoleScript
