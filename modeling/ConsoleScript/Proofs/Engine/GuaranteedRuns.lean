import ConsoleScript.Proofs.Engine.GuaranteedWrites

/-!
The parts of the engine, one after the other: each meets a guarantee that the few parts meet on which
it rests, if nested code does. A run is put together from them, whatever words its block is made of.
-/

namespace ConsoleScript

open Bytecode Engine

variable {G : Guarantee} [G.Based] {k : Runner}

section Variables

variable (hk : ∀ b pc, Meets G (k b pc))
include hk

theorem meets_assign (i : Nat) (v : Value) : Meets G (assign k i v) := by
  refine .identAt fun id _ => ?_
  split
  · split
    · exact Guarantee.Binds.setArg i v
    · exact Guarantee.Based.setAlias i v
  · exact Guarantee.Based.setIntVar hk i _
  · exact Guarantee.Based.setFloatVar hk i _
  · exact Guarantee.Based.setTextVar hk i _
  · exact meets_debug _

theorem meets_assignNamed (name : Bytes) (v : Value) : Meets G (assignNamed k name v) := by
  refine fun s => Meets.readAt ?_
  dsimp only
  split
  · exact meets_assign hk _ v s
  next hn =>
    split
    · exact meets_debug _ s
    next hx =>
      exact (Guarantee.Based.setAlias s.table.size v).moved
        ({ s with table := s.table.push { name, role := .alias } })
        (Guarantee.Composes.push false hn (Bool.eq_false_iff.mpr hx)) rfl

private theorem meets_resetNamed (name : Bytes) : Meets G (resetNamed k name) := by
  refine .read fun s => ?_
  split
  · exact .pure _
  · split
    · exact meets_debug _
    · exact Guarantee.Based.clearOverride hk _

omit hk in
theorem meets_printVar (i : Nat) : Meets G (printVar i) := by
  refine .identAt fun id _ => .read fun s => ?_
  cases s.printed? id with
  | none => exact .pure _
  | some line => exact meets_echo line

end Variables

section Shaping

theorem meets_codeOf (src : Bytes) : Meets G (codeOf src) :=
  .bind (meets_compileText src []) fun _ => .pure _

private theorem meets_indexOf (v : Value) : Meets G (indexOf v) := by
  unfold indexOf
  split
  · exact meets_intern _
  · exact .pure _

theorem meets_identOf (v : Value) : Meets G (identOf v) := by
  refine (meets_indexOf v).bind fun i => ?_
  refine .identAt fun id _ => ?_
  dsimp only
  split
  · exact .bind (Guarantee.Binds.bindArg i) fun _ => .pure _
  · exact .pure _

private theorem meets_convertArg (v : Value) (l : Letter) : Meets G (convertArg v l) := by
  cases l with
  | condition =>
      change Meets G (compileCondition v)
      unfold compileCondition
      split
      · exact .pure _
      · exact meets_codeOf _
      · exact .pure _
  | code =>
      change Meets G (if v.isCode then return v else codeOf v.toBytes)
      split
      · exact .pure v
      · exact meets_codeOf _
  | ident =>
      simp only [convertArg]
      split
      · exact .pure v
      · exact meets_identOf v
  | _ => exact .pure _

private theorem meets_addGiven (l : Letter) (st : Shaping) : Meets G (st.addGiven l) := by
  unfold Shaping.addGiven
  split
  · exact .bind (meets_convertArg _ l) fun _ => .pure _
  · split
    · exact .pure _
    · exact .pure _

private theorem meets_shapeFrom (sig : Array Letter) (self : Nat) (isLookup : Bool) (fuel at' : Nat)
    (st : Shaping) : Meets G (shapeFrom sig self isLookup fuel at' st) := by
  induction fuel generalizing at' st with
  | zero => exact .pure _
  | succ fuel ih =>
      unfold shapeFrom
      split
      · exact .pure _
      · split
        · exact ih _ _
        · exact ih _ _
        · exact ih _ _
        · exact .pure _
        · exact .pure _
        · split
          · exact ih _ _
          · exact ih _ _
        · exact .bind (meets_addGiven _ st) fun _ => ih _ _

end Shaping

section Library

open Library

theorem meets_loopVariable (v : Value) : Meets G (loopVariable? v) := by
  unfold loopVariable?
  split
  · exact .pure _
  · exact .identAt fun id _ => .pure _

theorem meets_arg (args : List Value) (i : Nat) : Meets G (arg args i) := by
  unfold arg
  split
  · exact .pure _
  · exact .fault _

theorem meets_argIf (there : Bool) (args : List Value) (i : Nat) :
    Meets G (argIf there args i) := by
  unfold argIf
  split
  · exact .bind (meets_arg args i) fun _ => .pure _
  · exact .pure _

/-- A loop over the values of its variable counts its rounds. -/
theorem meets_rounds (i : Nat) (value : Nat → Value) {body : Nat → Engine Bool}
    (hbody : ∀ r, Meets G (body r)) (left round : Nat) :
    Meets G (rounds i value body left round) := by
  induction left generalizing round with
  | zero => exact .pure _
  | succ left ih =>
      have hround : Meets G (do
          if ← body round then return some round
          rounds i value body left (round + 1)) := by
        refine .bind (hbody round) fun enough => ?_
        split
        · exact .pure _
        · exact ih _
      unfold rounds
      split
      · exact .bind (Guarantee.Based.setValue i _) fun _ => hround
      · exact hround

theorem meets_iterate (i n : Nat) (value : Nat → Value) {body : Nat → Engine Bool}
    (hbody : ∀ r, Meets G (body r)) : Meets G (iterate i n value body) := by
  unfold iterate
  split
  · exact .pure _
  · exact Guarantee.Binds.covered i _ (meets_rounds i value hbody n 0)

private theorem meets_repeatWhile (hp : ¬G.ends) {condition : Engine Bool} {body : Engine Unit}
    (hc : Meets G condition) (hb : Meets G body) (left : Nat) :
    Meets G (repeatWhile condition body left) := by
  induction left with
  | zero => exact fun s _ => ⟨Guarantee.Composes.refl s, fun h => absurd h hp⟩
  | succ left ih =>
      refine .bind hc fun held => ?_
      split
      · exact .bind hb fun _ => ih
      · exact .pure _

variable (hk : ∀ b pc, Meets G (k b pc))
include hk

theorem meets_holds (v : Value) : Meets G (holds k v) :=
  .bind (meets_runValue hk v) fun _ => .pure _

private theorem meets_countedLoop (form : LoopForm) (args : List Value) :
    Meets G (countedLoop k form args) := by
  refine .bind (meets_arg _ _) fun named => .bind (meets_argIf _ _ _) fun offset => ?_
  refine .bind (meets_argIf _ _ _) fun step => .bind (meets_arg _ _) fun n => ?_
  refine .bind (meets_argIf _ _ _) fun condition => .bind (meets_arg _ _) fun body => ?_
  refine .bind (meets_loopVariable named) fun i => ?_
  have hrun : Meets G (do
      let _ ← runValue k body
      return false) := .bind (meets_runValue hk body) fun _ => .pure _
  split
  · exact .pure _
  · refine .bind (meets_iterate _ _ _ fun r => ?_) fun _ => .pure _
    split
    · refine .bind (meets_holds hk _) fun held => ?_
      split
      · exact .pure _
      · exact hrun
    · exact hrun

omit hk in
theorem meets_listLoop (i : Nat) (list : Bytes) {body : Engine Bool} (h : Meets G body) :
    Meets G (listLoop i list body) :=
  meets_iterate i _ _ fun _ => h

private theorem meets_firstHolding (bodies : List Value) : Meets G (firstHolding k bodies) := by
  fun_induction firstHolding k bodies with
  | case1 => exact .pure _
  | case2 body => exact meets_runValue hk body
  | case3 condition body rest ih =>
      refine .bind (meets_holds hk condition) fun held => ?_
      split
      · exact meets_runValue hk body
      · exact ih

private theorem meets_firstMatching (isMatch : Value → Bool) (bodies : List Value) :
    Meets G (firstMatching k isMatch bodies) := by
  fun_induction firstMatching k isMatch bodies with
  | case1 label body => exact meets_runValue hk body
  | case2 label body rest _ ih => exact ih
  | case3 => exact .pure _

theorem meets_codeResult (v : Value) : Meets G (codeResult k v) := by
  unfold codeResult
  split
  · exact .bind (hk _ _) fun _ => .pure _
  · exact .pure _

private theorem meets_firstBeing (stop : Bool) (before : Value) (vs : List Value) :
    Meets G (firstBeing k stop before vs) := by
  induction vs generalizing before with
  | nil => exact .pure _
  | cons v vs ih =>
      refine .bind (meets_codeResult hk v) fun v => ?_
      split
      · exact .pure _
      · exact ih v

private theorem meets_shadowed (args : List Value) : Meets G (shadowed k args) := by
  refine .bind (meets_arg _ _) fun v => .bind (meets_loopVariable v) fun i => ?_
  split
  · exact .pure _
  · split
    · exact .pure _
    · refine .bind (meets_arg _ _) fun v => Guarantee.Binds.covered _ v ?_
      exact .bind (meets_arg _ _) fun body => meets_runValue hk body

omit hk in
private theorem meets_silenced {α : Type} {m : Engine α} (h : Meets G m) : Meets G (silenced m) :=
  .bind (.update fun _ => ⟨rfl, fun _ _ _ h => h⟩) fun _ =>
    h.ensuring (.update fun _ => ⟨rfl, fun _ _ _ h => h⟩)

omit hk in
private theorem meets_aliasText (name : Bytes) : Meets G (aliasText name) := by
  refine .read fun s => ?_
  split
  · exact .pure _
  · exact .pure _

omit hk in
theorem meets_readScript (path : Bytes) : Meets G (readScript path) := by
  refine fun s => Meets.readAt ?_
  dsimp only
  cases s.disk.read (scriptPath s path) with
  | error e =>
      exact (Meets.pure (.error e)).moved ({ s with missed := scriptPath s path :: s.missed })
        (Guarantee.Composes.aside ⟨rfl, fun _ _ _ h => h⟩) rfl
  | ok src => exact Meets.pure _ s

private theorem meets_runScript (path : Bytes) : Meets G (runScript k path) := by
  refine .bind (meets_readScript path) fun found => ?_
  cases found with
  | error e => exact .pure _
  | ok file => exact .bind (meets_runText hk _ _) fun _ => .pure _

private theorem meets_execScript (args : List Value) : Meets G (execScript k args) := by
  refine .bind (meets_arg _ _) fun path => .bind (meets_runScript hk _) fun found => ?_
  cases found with
  | ok v => exact .pure _
  | error e =>
      refine .bind (meets_arg _ _) fun loud => ?_
      dsimp only
      split
      · exact .bind (meets_warn _) fun _ => .pure _
      · exact .pure _

private theorem meets_findElement (args : List Value) : Meets G (findElement k args) := by
  refine .bind (meets_arg _ _) fun v => .bind (meets_loopVariable v) fun i => ?_
  cases i with
  | none => exact .pure _
  | some i =>
      refine .bind (meets_arg _ _) fun list => .bind (meets_listLoop _ _ ?_) fun n => ?_
      · exact .bind (meets_arg _ _) fun condition => meets_holds hk condition
      · cases n with
        | none => exact .pure _
        | some n => exact .pure _

private theorem meets_eachElement (args : List Value) : Meets G (eachElement k args) := by
  refine .bind (meets_arg _ _) fun v => .bind (meets_loopVariable v) fun i => ?_
  cases i with
  | none => exact .pure _
  | some i =>
      refine .bind (meets_arg _ _) fun list => .bind (meets_listLoop _ _ ?_) fun n => .pure _
      exact .bind (meets_arg _ _) fun body => .bind (meets_runValue hk body) fun _ => .pure _

omit hk in
private theorem meets_partOf {α : Type} (args : List Value)
    (part : Bytes → Int32 → Option Int32 → α) :
    Meets G (partOf args part) :=
  .bind (meets_arg _ _) fun _ => .bind (meets_arg _ _) fun _ => .bind (meets_arg _ _) fun _ =>
    .bind (meets_argIf _ _ _) fun _ => .pure _

omit hk in
theorem meets_onArg (args : List Value) (f : Value → Value) :
    Meets G (do return f (← arg args 0)) :=
  .bind (meets_arg _ _) fun _ => .pure _

/-- Of the library, only `while` may repeat code without counting. -/
theorem meets_apply {b : Builtin} (hb : G.ends → b ≠ .while) (args : List Value) :
    Meets G (apply k b args) := by
  cases b with
  | loop form => exact .bind (meets_countedLoop hk form args) fun _ => .pure _
  | «while» =>
      have hp : ¬G.ends := fun hp => hb hp rfl
      refine .bind (meets_arg _ _) fun condition => .read fun s => ?_
      refine .bind (meets_repeatWhile hp (meets_holds hk _) ?_ _) fun _ => .pure _
      exact .bind (meets_arg _ _) fun body => .bind (meets_runValue hk body) fun _ => .pure _
  | choose =>
      refine .bind (meets_arg _ _) fun v => ?_
      split
      · exact meets_arg _ _
      · exact meets_arg _ _
  | cond => exact meets_firstHolding hk args
  | cases kind => exact .bind (meets_arg _ _) fun v => meets_firstMatching hk _ _
  | push => exact meets_shadowed hk args
  | nodebug =>
      exact meets_silenced (.bind (meets_arg _ _) fun body => meets_runValue hk body)
  | «alias» =>
      exact .bind (meets_arg _ _) fun _ => .bind (meets_arg _ _) fun _ =>
        .bind (meets_assignNamed hk _ _) fun _ => .pure _
  | getAlias => exact .bind (meets_arg _ _) fun _ => .bind (meets_aliasText _) fun _ => .pure _
  | identExists => exact .bind (meets_arg _ _) fun _ => .read fun _ => .pure _
  | resetVar => exact .bind (meets_arg _ _) fun _ => .bind (meets_resetNamed hk _) fun _ => .pure _
  | intFold | floatFold | intExtreme | floatExtreme | intCompare | floatCompare | textCompare | concat
  | format => exact .pure _
  | complement | intAbs | floatAbs | textLength | small | capital | escape | unescape | listLength =>
      exact meets_onArg args _
  | substring => exact .bind (meets_partOf args _) fun _ => .pure _
  | sublist => exact .bind (meets_partOf args _) fun _ => .pure _
  | textFind | toHex =>
      exact .bind (meets_arg _ _) fun _ => .bind (meets_arg _ _) fun _ => .pure _
  | textReplace =>
      refine .bind (meets_arg _ _) fun v => ?_
      dsimp only
      split
      · exact meets_onArg args _
      · exact .bind (meets_arg _ _) fun _ => meets_onArg args _
  | listAt =>
      cases args with
      | nil => exact .pure _
      | cons v places => exact .pure _
  | listFind => exact meets_findElement hk args
  | loopList => exact meets_eachElement hk args
  | echo => exact .bind (meets_arg _ _) fun _ => .bind (meets_echo _) fun _ => .pure _
  | error => exact .bind (meets_arg _ _) fun _ => .bind (meets_warn _) fun _ => .pure _
  | exec => exact meets_execScript hk args

private theorem meets_applyControl (c : Control) (args : List Value) :
    Meets G (applyControl k c args) := by
  cases c with
  | «local» => exact .pure _
  | run => exact .bind (meets_arg _ _) fun v => meets_runValue hk v
  | runOuter => exact .bind (meets_arg _ _) fun v => Guarantee.Binds.withOuterArgs (meets_runValue hk v)
  | branch =>
      refine .bind (meets_arg _ _) fun v => ?_
      split
      · exact .bind (meets_arg _ _) fun body => meets_runValue hk body
      · exact .bind (meets_arg _ _) fun body => meets_runValue hk body
  | result => exact meets_arg _ _
  | not => exact meets_onArg args _
  | and =>
      cases args with
      | nil => exact .pure _
      | cons v vs => exact meets_firstBeing hk false _ _
  | or =>
      cases args with
      | nil => exact .pure _
      | cons v vs => exact meets_firstBeing hk true _ _

end Library

section Calls

variable (hk : ∀ b pc, Meets G (k b pc))
include hk

theorem meets_invoke {id : Ident} (hid : G.ends → id.role.isWhile = false) (args : List Value) :
    Meets G (invoke k id args) := by
  unfold invoke
  split
  next sig b hrole =>
    refine meets_apply hk (fun hp hb => ?_) args
    have h := hid hp
    rw [hrole, hb] at h
    cases h
  · exact meets_runHost hk _
  · exact meets_applyControl hk _ args
  · exact .pure _

theorem meets_callShaped (i : Nat) {id : Ident} (hid : G.ends → id.role.isWhile = false)
    (isLookup : Bool) (args : List Value) : Meets G (callShaped k i id isLookup args) :=
  .bind (meets_shapeFrom _ _ _ _ _ _) fun args => meets_invoke hk hid args

theorem meets_callAlias (i : Nat) {args : List Value} (hn : args.length ≤ maxOperands)
    (ret : RetTag) : Meets G (callAlias k i args ret) := by
  refine .identAt fun id _ => Guarantee.Binds.withArgs _ _ hn ?_
  exact .bind (Guarantee.Based.bodyOf i) fun _ => .bind (hk _ _) fun _ => .pure _

private theorem meets_lookupNamed (name : Bytes) (ret : RetTag) (asView : Bool) :
    Meets G (lookupNamed k name ret asView) := by
  intro s hs
  unfold lookupNamed
  rw [outcome_bind_ok (outcome_get s)]
  cases hfound : s.table.lookup? name with
  | none => exact Meets.bind (meets_debug _) (fun _ => .pure _) s hs
  | some found =>
      obtain ⟨i, id⟩ := found
      have hid (hp : G.ends) : id.role.isWhile = false :=
        (Guarantee.Composes.withoutWhile hp hs).lookup hfound
      refine (?_ : Meets G _) s hs
      dsimp only
      split
      · split
        · exact .bind (meets_debug _) fun _ => .pure _
        · split
          · exact .pure _
          · exact .pure _
      · exact .pure _
      · exact .pure _
      · exact .pure _
      · exact .bind (.atLevel (meets_callShaped hk i hid true [])) fun _ => .pure _
      · exact .pure _

private theorem meets_callFound (name : Bytes) (i : Nat) {id : Ident}
    (hid : G.ends → id.role.isWhile = false) {args : List Value} (hn : args.length ≤ maxOperands)
    (ret : RetTag) : Meets G (callFound k name i id args ret) := by
  unfold callFound
  cases id.role with
  | «alias» =>
      dsimp only
      split
      · exact .bind (meets_debug _) fun _ => .pure _
      · refine .read fun s => ?_
        split
        · exact .pure _
        · exact meets_callAlias hk i hn ret
  | intVar | floatVar | textVar =>
      cases args with
      | nil => exact .bind (meets_printVar i) fun _ => .pure _
      | cons v _ => exact .bind (meets_assign hk i v) fun _ => .pure _
  | command | control =>
      dsimp only
      split
      · exact meets_callShaped hk i hid false args
      · exact .pure _

private theorem meets_callNamed (head : Value) {args : List Value} (hn : args.length ≤ maxOperands)
    (ret : RetTag) : Meets G (callNamed k head args ret) := by
  unfold callNamed
  split
  · exact .pure _
  next name _ =>
    intro s hs
    rw [outcome_bind_ok (outcome_get s)]
    cases hfound : s.table.lookup? name with
    | none =>
        refine (?_ : Meets G _) s hs
        dsimp only
        split
        · exact .pure _
        · exact .bind (meets_debug _) fun _ => .pure _
    | some found =>
        obtain ⟨i, id⟩ := found
        have hid (hp : G.ends) : id.role.isWhile = false :=
          (Guarantee.Composes.withoutWhile hp hs).lookup hfound
        exact Meets.bind (meets_callFound hk name i hid hn ret) (fun _ => .pure _) s hs

end Calls

section Operands

theorem meets_push (v : Value) (a : Activation) : Meets G (a.push v) := by
  unfold Activation.push
  split
  · exact .pure _
  · exact .fault _

theorem meets_pop (a : Activation) : Meets G a.pop := by
  unfold Activation.pop
  split
  · exact .fault _
  · exact .pure _

theorem meets_top (a : Activation) : Meets G a.top := by
  unfold Activation.top
  split
  · exact .fault _
  · exact .pure _

theorem meets_replaceTop (a : Activation) {f : Value → Engine Value}
    (h : ∀ v, Meets G (f v)) : Meets G (a.replaceTop f) :=
  .bind (meets_top a) fun _ => .bind (h _) fun _ => .pure _

theorem meets_window {α : Type} {f : List Value → Engine α} (n : Nat) (a : Activation)
    (h : ∀ vs, vs.length ≤ a.stack.length → Meets G (f vs)) : Meets G (a.window n >>= f) := by
  unfold Activation.window
  split
  · rw [pure_bind]
    refine h _ ?_
    rw [List.length_reverse, List.length_take]
    exact Nat.min_le_right _ _
  · exact fun s => Meets.bindAt (Meets.fault _ s) fun vs s' h => by cases h

private theorem meets_compileValue (v : Value) : Meets G (compileValue v) := by
  unfold compileValue
  split
  · exact .pure _
  · exact .pure _
  · exact meets_codeOf _
  · exact .pure _

private theorem meets_compileCondition (v : Value) : Meets G (compileCondition v) := by
  unfold compileCondition
  split
  · exact .pure _
  · exact meets_codeOf _
  · exact .pure _

private theorem meets_pushLiteral (b : Block) (op : Op) (a : Activation) :
    Meets G (pushLiteral b op a) := by
  unfold pushLiteral
  dsimp only
  split
  · exact .fault _
  · exact meets_push _ _

private theorem meets_joinOperands (spaced : Bool) (n : Nat) (ret : RetTag) (a : Activation) :
    Meets G (joinOperands spaced n ret a) :=
  meets_window n a fun _ _ => .pure _

private theorem meets_variableValue (op : Op) (ret : RetTag) (id : Ident) :
    Meets G (variableValue op ret id) := by
  unfold variableValue
  split
  · exact .pure _
  · exact .pure _
  · exact .read fun s => .pure _
  · exact .pure _
  · exact .fault _

private theorem meets_aliasValue (id : Ident) (ret : RetTag) (asView : Bool) :
    Meets G (aliasValue id ret asView) := by
  unfold aliasValue
  split
  · exact .bind (meets_debug _) fun _ => .pure _
  · exact .pure _

private theorem meets_argValue (i : Nat) (id : Ident) (ret : RetTag) (asView : Bool) :
    Meets G (argValue i id ret asView) := by
  refine .read fun s => ?_
  split
  · exact .pure _
  · exact .pure _

private theorem meets_isUndefined (i : Nat) (id : Ident) (isArg : Bool) :
    Meets G (isUndefined i id isArg) := by
  unfold isUndefined
  split
  · exact .read fun s => .pure _
  · split
    · exact .bind (meets_debug _) fun _ => .pure _
    · exact .pure _

end Operands

section Instructions

variable (hk : ∀ b pc, Meets G (k b pc)) (b : Block) (a : Activation)
include hk

omit b in
private theorem meets_callCommand {id : Ident} (hid : G.ends → id.role.isWhile = false) (n : Nat)
    (ret : RetTag) : Meets G (callCommand k id n ret a) :=
  meets_window n a fun args _ => .bind (meets_invoke hk hid args) fun _ => .pure _

omit b in
private theorem meets_callJoined {id : Ident} (hid : G.ends → id.role.isWhile = false) (n : Nat)
    (ret : RetTag) : Meets G (callJoined k id n ret a) :=
  meets_window n a fun _ _ => .bind (meets_invoke hk hid _) fun _ => .pure _

omit b in
private theorem meets_callIdent (ha : a.stack.length ≤ maxOperands) (i : Nat) (id : Ident)
    (isArg : Bool)
    (n : Nat) (ret : RetTag) :
    Meets G (callIdent k i id isArg n ret a) := by
  refine .bind (meets_isUndefined i id isArg) fun undefined => ?_
  split
  · split
    · exact .fault _
    · exact .pure _
  · exact meets_window n a fun args hn =>
      .bind (meets_callAlias hk i (Nat.le_trans hn ha) ret) fun _ => .pure _

private theorem meets_stepVariable (op : Op) (ret : RetTag) (i : Nat) :
    Meets G (stepVariable k b op ret i a) := by
  unfold stepVariable
  split
  · exact .identIn fun _ _ => .bind (meets_pop a) fun _ =>
      .bind (Guarantee.Based.setTextVar hk i _) fun _ => .pure _
  · exact .identIn fun _ _ => .bind (meets_pop a) fun _ =>
      .bind (Guarantee.Based.setIntVar hk i _) fun _ => .pure _
  · exact .bind (meets_pop a) fun _ => .bind (meets_pop _) fun _ => .identIn fun _ _ =>
      .bind (Guarantee.Based.setIntVar hk i _) fun _ => .pure _
  · exact .bind (meets_pop a) fun _ => .bind (meets_pop _) fun _ => .bind (meets_pop _) fun _ =>
      .identIn fun _ _ => .bind (Guarantee.Based.setIntVar hk i _) fun _ => .pure _
  · exact .identIn fun _ _ => .bind (meets_pop a) fun _ =>
      .bind (Guarantee.Based.setFloatVar hk i _) fun _ => .pure _
  · exact .identIn fun _ _ => .bind (meets_printVar i) fun _ => .pure _
  · exact .identIn fun id _ => .bind (meets_variableValue _ ret id) fun v => meets_push v a

private theorem meets_stepAlias (op : Op) (ret : RetTag) (i : Nat) :
    Meets G (stepAlias k b op ret i a) := by
  unfold stepAlias
  split
  · exact .identIn fun _ _ => meets_push _ a
  · exact .identIn fun _ _ => .bind (Guarantee.Binds.bindArg i) fun _ => meets_push _ a
  · exact meets_replaceTop a meets_identOf
  · exact .identIn fun id _ => .bind (meets_aliasValue id ret false) fun v => meets_push v a
  · exact .identIn fun id _ => .bind (meets_aliasValue id ret true) fun v => meets_push v a
  · exact .identIn fun id _ => .bind (meets_argValue i id ret false) fun v => meets_push v a
  · exact .identIn fun id _ => .bind (meets_argValue i id ret true) fun v => meets_push v a
  · refine meets_replaceTop a fun v => ?_
    split
    · exact meets_lookupNamed hk _ ret _
    · exact .pure v
  · refine meets_replaceTop a fun v => ?_
    split
    · exact meets_lookupNamed hk _ ret _
    · exact .pure v
  · exact .identIn fun _ _ => .bind (meets_pop a) fun _ => .bind (Guarantee.Based.setAlias i _) fun _ => .pure _
  · exact .identIn fun _ _ => .bind (meets_pop a) fun _ => .bind (Guarantee.Binds.setArg i _) fun _ => .pure _
  · exact .bind (meets_pop a) fun _ => .bind (meets_pop _) fun _ =>
      .bind (meets_assignNamed hk _ _) fun _ => .pure _

private theorem meets_stepCall (ha : a.stack.length ≤ maxOperands) (op : Op) (w : UInt32) :
    Meets G (stepCall k b op w a) := by
  unfold stepCall
  dsimp only
  split
  · exact .identIn fun id hid => meets_callCommand hk a hid _ _
  · exact .identIn fun id hid => .bind (meets_push _ a) fun a => meets_callCommand hk a hid _ _
  · exact .identIn fun id hid => meets_callCommand hk a hid _ _
  · exact .identIn fun id hid => meets_callJoined hk a hid _ _
  · exact .identIn fun id _ => meets_callIdent hk a ha _ id false _ _
  · exact .identIn fun id _ => meets_callIdent hk a ha _ id true _ _
  · refine meets_window _ a fun args hn => ?_
    cases args with
    | nil => exact .fault _
    | cons head args =>
        have hargs : args.length ≤ maxOperands :=
          Nat.le_trans (Nat.le_of_succ_le hn) ha
        exact .bind (meets_callNamed hk head hargs _) fun _ => .pure _

omit b in
private theorem meets_stepJump (op : Op) (n : UInt32) : Meets G (stepJump k op n a) := by
  unfold stepJump
  split
  · exact .bind (meets_pop a) fun _ => .pure _
  · exact .bind (meets_pop a) fun _ => .pure _
  · exact .bind (meets_pop a) fun _ => .bind (meets_codeResult hk _) fun _ => .pure _
  · exact .bind (meets_pop a) fun _ => .bind (meets_codeResult hk _) fun _ => .pure _
  · exact .pure _

/-- All instructions but the one that shadows aliases for the rest of a run. -/
theorem meets_perform {op : Op} (hop : op ≠ .local) (ha : a.stack.length ≤ maxOperands)
    (w : UInt32) : Meets G (perform k b op w a) := by
  cases op with
  | start | offset | null | yes | no => exact .pure _
  | not =>
      exact .bind (meets_pop a) fun _ => .bind (meets_codeResult hk _) fun _ => .pure _
  | pop => exact .bind (meets_pop a) fun _ => .pure _
  | enter => exact .bind (hk _ _) fun _ => meets_push _ _
  | enterResult => exact .bind (hk _ _) fun _ => .pure _
  | resultArg => exact meets_push _ _
  | val | valInline | view => exact meets_pushLiteral b _ a
  | dup => exact .bind (meets_top a) fun _ => meets_push _ a
  | block => exact meets_push _ _
  | empty => exact meets_push _ _
  | compile => exact meets_replaceTop a meets_compileValue
  | cond => exact meets_replaceTop a meets_compileCondition
  | force => exact meets_replaceTop a fun _ => .pure _
  | result => exact .bind (meets_pop a) fun _ => .pure _
  | conc | concWord =>
      exact .bind (meets_joinOperands _ _ _ a) fun _ => meets_push _ _
  | concResult => exact .bind (meets_joinOperands _ _ _ a) fun _ => .pure _
  | textVar | textVarView | setTextVar | intVar | setIntVar | setIntVar2 | setIntVar3 | floatVar
  | setFloatVar | print => exact meets_stepVariable hk b a _ _ _
  | ident | identNamed | identArg | lookup | lookupNamed | lookupArg | lookupView | lookupViewNamed
  | lookupViewArg | «alias» | aliasNamed | aliasArg => exact meets_stepAlias hk b a _ _ _
  | com | comPressed | comJoined | comAll | call | callNamed | callArg =>
      exact meets_stepCall hk b a ha _ w
  | «local» => exact absurd rfl hop
  | run => exact .bind (meets_pop a) fun _ => .bind (meets_runValue hk _) fun _ => .pure _
  | runOuter =>
      exact .bind (meets_pop a) fun _ =>
        .bind (Guarantee.Binds.withOuterArgs (meets_runValue hk _)) fun _ => .pure _
  | jump | jumpTrue | jumpFalse | jumpResultTrue | jumpResultFalse => exact meets_stepJump hk a _ _
  | exit | bool | down => exact .fault _

end Instructions

section Runs

private theorem meets_skipFrom (b : Block) (start left depth pc : Nat) :
    Meets G (skipFrom b start left depth pc) := by
  fun_induction skipFrom b start left depth pc with
  | case1 => exact .fault _
  | case2 => exact .fault _
  | case3 => exact .fault _
  | case4 => assumption
  | case5 => assumption
  | case6 => exact .pure _
  | case7 => assumption
  | case8 => assumption

theorem meets_run (room : Nat) (b : Block) (pc : Nat) : Meets G (run room b pc) := by
  induction room generalizing b pc with
  | zero => exact .bind (meets_debug _) fun _ => meets_skipFrom b _ _ _ _
  | succ room ih =>
      refine .atLevel (Guarantee.Binds.runFrom
        (fun op w a hop ha => meets_perform ih b a hop ha w) _ _ rfl ?_)
      exact Nat.zero_le _

end Runs

end ConsoleScript
