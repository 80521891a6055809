import ConsoleScript.Proofs.Code.WellFormed
import ConsoleScript.Proofs.Compile.Judgement

/-!
What the compiler makes. Whatever the table and the source a step of the compiler begins with, all
that it does to the table is to add unknown aliases under new names that are no numbers, and the
code that it gives is built of the shapes that well-formed blocks are made of. Nothing is asked of
the table, so that this holds of every text that is compiled anywhere.
-/

namespace ConsoleScript

open Bytecode

/-- A table with further aliases that are not defined yet, each under a name that was not there and
is no number. -/
inductive Table.Gains : Table → Table → Prop
  | refl (t : Table) : Gains t t
  | push {t t' : Table} {name : Bytes} (h : Gains t t') (hn : t'.find? name = none)
      (hx : Reading.isNumeral name = false) : Gains t (t'.push (unknownAlias name))

theorem Table.Gains.trans {t t' t'' : Table} (h : t.Gains t') (h' : t'.Gains t'') :
    t.Gains t'' := by
  induction h' with
  | refl => exact h
  | push _ hn hx ih => exact .push ih hn hx

theorem Table.Gains.names {t t' : Table} (h : t.Gains t') : t.Names t' := by
  induction h with
  | refl => exact .refl _
  | push _ _ _ ih => exact .push ih _

theorem Table.gains_intern (t : Table) (name : Bytes) : t.Gains (t.intern name).2.2 := by
  unfold Table.intern
  split
  · exact .refl t
  next hn =>
    split
    · exact .refl t
    next hx => exact .push (.refl t) hn (Bool.eq_false_iff.mpr hx)

theorem Table.gains_bindFrom (n : Nat) (t : Table) (names : List Bytes) :
    t.Gains (t.bindFrom n names).2 := by
  induction names generalizing n t with
  | nil => exact .refl t
  | cons name names ih =>
      unfold Table.bindFrom
      split
      · split
        · exact ih _ _
        · exact .refl t
      · split
        · exact .refl t
        next hfree =>
          rw [Bool.or_eq_true, not_or, Bool.not_eq_true, Bool.not_eq_true,
            Option.isSome_eq_false_iff, Option.isNone_iff_eq_none] at hfree
          exact (Table.Gains.push (.refl t) hfree.1 hfree.2).trans (ih _ _)

namespace Compile

/-- A state of the compiler with further names, and further block literals that stood for one, and
with the cursor further on in the same text. -/
structure State.Gains (s s' : State) : Prop where
  table : s.table.Gains s'.table
  literalNames : s.literalNames <:+ s'.literalNames
  rest : s'.cursor.rest <:+ s.cursor.rest

theorem State.Gains.refl (s : State) : s.Gains s :=
  ⟨.refl s.table, List.suffix_rfl, List.suffix_rfl⟩

theorem State.Gains.trans {s s' s'' : State} (h : s.Gains s') (h' : s'.Gains s'') : s.Gains s'' :=
  ⟨h.table.trans h'.table, h.literalNames.trans h'.literalNames, h'.rest.trans h.rest⟩

/-- In whatever state a step of the compiler begins, the state only gains names, and what the step
gives satisfies a condition. -/
def Makes {α : Type} (m : CompileM α) (P : α → Prop) : Prop :=
  ∀ s : State, s.Gains (m.run s).2 ∧ P (m.run s).1

variable {α β : Type} {m m' : CompileM α} {P Q : α → Prop}

theorem Makes.pure {a : α} (h : P a) : Makes (Pure.pure a) P := fun s => ⟨.refl s, h⟩

theorem Makes.bind {f : α → CompileM β} {R : β → Prop} (hm : Makes m P)
    (hf : ∀ a, P a → Makes (f a) R) : Makes (m >>= f) R := by
  intro s
  obtain ⟨ht, ha⟩ := hm s
  obtain ⟨ht', hb⟩ := hf _ ha (m.run s).2
  exact ⟨ht.trans ht', hb⟩

theorem Makes.ite {c : Prop} [Decidable c] (h : Makes m P) (h' : Makes m' P) :
    Makes (if c then m else m') P := by
  split
  · exact h
  · exact h'

theorem Makes.after {f : α → CompileM β} {R : β → Prop} (hm : Makes m fun _ => True)
    (hf : ∀ a, Makes (f a) R) : Makes (m >>= f) R :=
  hm.bind fun a _ => hf a

section Steps

theorem makes_get : Makes get fun _ => True := fun s => ⟨.refl s, trivial⟩

theorem makes_modify {f : State → State} (hf : ∀ s : State, s.Gains (f s)) :
    Makes (modify f) fun _ => True :=
  fun s => ⟨hf s, trivial⟩

theorem makes_cursor : Makes cursor fun _ => True := makes_get.after fun _ => .pure trivial

theorem makes_peek (k : Nat) : Makes (peek k) fun _ => True :=
  makes_cursor.after fun _ => .pure trivial

theorem makes_modifyCursor (f : Cursor → Cursor) (hf : ∀ c, (f c).rest <:+ c.rest) :
    Makes (modify fun s => { s with cursor := f s.cursor }) fun _ => True :=
  makes_modify fun s => ⟨.refl _, List.suffix_rfl, hf s.cursor⟩

theorem makes_advance (n : Nat) : Makes (advance n) fun _ => True :=
  makes_modifyCursor (·.advance n) fun _ => List.drop_suffix n _

theorem makes_skipTo (p : UInt8 → Bool) : Makes (skipTo p) fun _ => True :=
  makes_modifyCursor (·.skipTo p) fun _ => List.drop_suffix _ _

theorem makes_skipComments : Makes skipComments fun _ => True :=
  makes_modifyCursor (fun c => { c with rest := skipBlanks false c.rest })
    fun c => skipBlanks_isSuffix false c.rest

theorem makes_next : Makes next fun _ => True :=
  (makes_peek 0).after fun _ => (makes_advance 1).after fun _ => .pure trivial

private theorem makes_note (text : Bytes) : Makes (note text) fun _ => True :=
  makes_modify fun _ => ⟨.refl _, List.suffix_rfl, List.suffix_rfl⟩

theorem makes_warn (text : Bytes) : Makes (warn text) fun _ => True :=
  makes_cursor.after fun _ => .ite (makes_note _) (makes_note _)

theorem makes_noteLiteralName (name : Bytes) : Makes (noteLiteralName name) fun _ => True :=
  makes_modify fun _ => ⟨.refl _, List.suffix_cons _ _, List.suffix_rfl⟩

theorem makes_intern (name : Bytes) : Makes (intern name) fun _ => True := by
  intro s
  obtain ⟨-, ws, hs⟩ := run_intern_eq name s
  rw [hs]
  exact ⟨⟨s.table.gains_intern name, List.suffix_rfl, List.suffix_rfl⟩, trivial⟩

theorem makes_roleOf (i : Nat) : Makes (roleOf i) fun _ => True :=
  makes_get.after fun _ => .pure trivial

theorem makes_cutStringBody : Makes cutStringBody fun _ => True :=
  makes_cursor.after fun _ => (makes_advance _).after fun _ => (makes_peek 0).after fun _ =>
    .ite ((makes_advance 1).after fun _ => .pure trivial) (.pure trivial)

theorem makes_cutRaw : Makes cutRaw fun _ => True :=
  (makes_advance 1).after fun _ => makes_cutStringBody

theorem makes_cutString : Makes cutString fun _ => True := makes_cutRaw.after fun _ => .pure trivial

theorem makes_cutWord : Makes cutWord fun _ => True :=
  makes_cursor.after fun _ => (makes_advance _).after fun _ => .pure trivial

theorem Makes.withText (text name : Bytes) (line : Nat) (hm : Makes m P) :
    Makes (withText text name line m) P := by
  intro s
  obtain ⟨hg, ha⟩ := hm { s with cursor := { rest := text, line, name } }
  exact ⟨⟨hg.table, hg.literalNames, List.suffix_rfl⟩, ha⟩

end Steps

section Pieces

theorem built_plain {op : Op} {ret : RetTag} {n : Nat} (ho : op.isStraight = true)
    (hl : op.isLiteral = false) : Built (plain op ret n) :=
  .plain ho hl .nil

theorem built_call {op : Op} {ret : RetTag} {n i : Nat} (ho : op.isCall = true) :
    Built [.instr (.call op ret n i)] :=
  .call ho .nil

theorem built_null : Built nullCode := .literal .null .nil

theorem built_text (s : Bytes) : Built (textCode s) := .literal (.text s) .nil

theorem built_view (s : Bytes) : Built (viewCode s) := .literal (.view s) .nil

theorem built_int (n : Int32) : Built (intCode n) := .literal (.int n) .nil

theorem built_float (x : Single) : Built (floatCode x) := .literal (.float x) .nil

theorem built_identCode (i : Nat) : Built (identCode i) := by
  unfold identCode
  split <;> exact built_plain rfl rfl

theorem built_literal {body : Code} (h : Built body) : Built (literal body) := by
  unfold literal
  split
  · exact .plain rfl rfl .nil
  · exact .block h .nil

theorem built_spill {body : Code} {ret : RetTag} (h : Built body) : Built [.spill body ret] :=
  .spill h .nil

theorem built_replicate {code : Code} (h : Built code) (n : Nat) :
    Built (List.replicate n code).flatten := by
  induction n with
  | zero => exact .nil
  | succ n ih =>
      rw [List.replicate_succ, List.flatten_cons]
      exact h.append ih

theorem built_lookupTail (want : Want) : Built (lookupTail want) := by
  cases want <;> first | exact .nil | exact built_plain rfl rfl

theorem built_lookupComputed (want : Want) : Built (lookupComputed want) := by
  refine Built.append ?_ (built_lookupTail want)
  cases want <;> exact built_plain rfl rfl

theorem built_missingArg (l : Letter) (given : Nat) : Built (missingArg l given) := by
  cases l with
  | int | intOrLeast => exact built_int _
  | float => exact built_float _
  | floatOrPrevious =>
      change Built (floatAgain given)
      unfold floatAgain
      split
      · exact built_float _
      · exact built_plain rfl rfl
  | text => exact built_view []
  | ownText => exact built_text []
  | any | anyOrNull | condition => exact built_null
  | code => exact built_literal .nil
  | ident => exact built_identCode _
  | self | count | pressed | joined | all | again _ => exact .nil

private theorem built_lookupArg (l : Letter) (self given : Nat) :
    Built (lookupArg l self given) := by
  have hmissing := built_missingArg l given
  cases l with
  | self => exact built_identCode self
  | count => exact built_int _
  | pressed => exact .nil
  | _ => exact hmissing

private theorem built_lookupArgs (sig : Signature) (self : Nat) :
    Built (lookupArgs sig self).1 := by
  have hstep (args : Code × Nat) (h : Built args.1) :
      Built (sig.foldl (addLookupArg self) args).1 := by
    induction sig generalizing args with
    | nil => exact h
    | cons l rest ih => exact ih _ (h.append (built_lookupArg l self args.2))
  exact hstep ([], 0) .nil

private theorem built_lookupCall (sig : Signature) (self : Nat) (ret : RetTag) :
    Built (lookupCall sig self ret) := by
  refine (built_lookupArgs sig self).append ?_
  split
  · exact built_call rfl
  split
  · exact built_call rfl
  split <;> exact built_plain rfl rfl

private theorem built_lookupCommand (sig : Signature) (self : Nat) (want : Want) (prev : Nat) :
    Built (lookupCommand sig self want prev) := by
  refine Built.append ?_ (built_lookupTail want)
  split
  · exact built_spill (built_lookupCall sig self _)
  · exact (built_lookupCall sig self _).append (built_plain rfl rfl)

theorem built_blockTextCode (view : Bool) (s : Bytes) : Built (blockTextCode view s) := by
  unfold blockTextCode
  split
  · exact built_view _
  · exact built_text _

private theorem built_chain {op : Op} (ho : op = .jumpResultTrue ∨ op = .jumpResultFalse)
    {bodies : List Code} (hb : ∀ body ∈ bodies, Built body) : Built [chain op bodies] := by
  induction bodies with
  | nil => exact .settle ho .nil
  | cons body rest ih =>
      exact .link ho (hb body List.mem_cons_self)
        (ih fun b hm => hb b (List.mem_cons_of_mem body hm)) .nil

private theorem built_blocks {bodies : List Code} (hb : ∀ body ∈ bodies, Built body) :
    Built (bodies.map .block) := by
  induction bodies with
  | nil => exact .nil
  | cons body rest ih =>
      exact .block (hb body List.mem_cons_self) (ih fun b hm => hb b (List.mem_cons_of_mem body hm))

theorem Built.body {body : Code} (h : Built [.block body]) : Built body := by
  cases h with
  | block hb _ => exact hb

theorem Built.literalBody {code body : Code} (h : Built code) (hb : literalBody? code = some body) :
    Built body := by
  unfold literalBody? at hb
  split at hb
  · cases hb
    exact h.body
  · cases hb

end Pieces

/-- A first word that is code is built well. -/
def Head.IsBuilt : Head → Prop
  | .bare _ => True
  | .computed code => Built code

/-- What the compiler for nested arguments and first words gives is built well. -/
structure Nested.Builds (k : Nested) : Prop where
  arg : ∀ want prev, Makes (k.arg want prev) fun answer => ∀ code, answer = some code → Built code
  head : ∀ prev, Makes (k.head prev) fun answer => ∀ head, answer = some head → head.IsBuilt

section Calls

variable {k : Nested}

theorem Nested.Builds.take (hk : k.Builds) {want : Want} {prev : Nat}
    {f : Option Code → CompileM α} (hnone : Makes (f none) P)
    (hsome : ∀ code, Built code → Makes (f (some code)) P) : Makes (k.arg want prev >>= f) P := by
  refine (hk.arg want prev).bind fun answer ha => ?_
  cases answer with
  | none => exact hnone
  | some code => exact hsome code (ha code rfl)

theorem makes_takeArgs (hk : k.Builds) (want : Want) (prev left given : Nat) :
    Makes (takeArgs k want prev left given) fun a => Built a.1 := by
  induction left generalizing given with
  | zero => exact .pure .nil
  | succ left ih =>
      refine hk.take (.pure .nil) fun code hc => ?_
      exact (ih (given + 1)).bind fun a ha => .pure (hc.append ha)

private theorem makes_argOr (hk : k.Builds) (want : Want) (prev : Nat) {missing : Code}
    (hm : Built missing) : Makes (argOr k want prev missing) fun a => Built a.1 :=
  hk.take (.pure hm) fun _ hc => .pure hc

theorem makes_dropArgs (hk : k.Builds) (prev fuel : Nat) : Makes (dropArgs k prev fuel) Built := by
  induction fuel with
  | zero => exact .pure .nil
  | succ fuel ih =>
      refine hk.take (.pure .nil) fun code hc => ?_
      exact ih.bind fun rest hr => .pure (hc.append hr)

theorem makes_surplusArgs (hk : k.Builds) (more : Bool) (prev : Nat) :
    Makes (surplusArgs k more prev) Built :=
  .ite (makes_cursor.after fun _ => makes_dropArgs hk prev _) (.pure .nil)

theorem makes_callComputed (hk : k.Builds) {push : Code} (hp : Built push) (prev : Nat) :
    Makes (callComputed k push prev) fun a => Built a.1 :=
  (makes_takeArgs hk .anyView (prev + 1) maxArgs 0).bind fun _ ha =>
    .pure ((hp.append ha).append (built_plain rfl rfl))

theorem makes_argIfMore (hk : k.Builds) (want : Want) (prev : Nat) (more : Bool) :
    Makes (argIfMore k want prev more) fun answer => ∀ code, answer = some code → Built code :=
  .ite (hk.arg want prev) (.pure nofun)

private theorem makes_restOfArgs (hk : k.Builds) (prev given : Nat) (more : Bool) :
    Makes (restOfArgs k prev given more) fun a => Built a.1 :=
  .ite (makes_takeArgs hk .anyView prev _ given) (.pure .nil)

theorem makes_letterArg (hk : k.Builds) (l : Letter) (isLast : Bool) (prev : Nat) {st : CallState}
    (hst : Built st.code) :
    Makes (letterArg k l isLast prev st) fun st' => Built st'.code ∧ st'.op = st.op := by
  refine (makes_argIfMore hk (wantOf l) (prev + st.given) st.more).bind fun answer ha => ?_
  cases answer with
  | none =>
      refine .ite (.pure ⟨hst, rfl⟩) (.pure ⟨?_, rfl⟩)
      exact hst.append (built_missingArg l st.given)
  | some code =>
      have hcode := hst.append (ha code rfl)
      refine .ite ?_ (.pure ⟨hcode, rfl⟩)
      refine (makes_takeArgs hk .textView (prev + st.given) _ 1).bind fun a hrest => .pure ⟨?_, rfl⟩
      refine (hcode.append hrest).append ?_
      split
      · exact built_plain rfl rfl
      · exact .nil

private theorem makes_commandArgs (hk : k.Builds) (sig : Array Letter) (self prev fuel at' : Nat)
    {st : CallState} (hst : Built st.code) (hop : st.op = .com ∨ st.op = .comPressed) :
    Makes (commandArgs k sig self prev fuel at' st) fun a => Built a.1 := by
  induction fuel generalizing at' st with
  | zero => exact .pure hst
  | succ fuel ih =>
      rw [commandArgs]
      cases sig[at']? with
      | none =>
          refine .pure (hst.append ?_)
          rcases hop with hop | hop <;> rw [hop] <;> exact built_plain rfl rfl
      | some l =>
          have hletter := (makes_letterArg hk l (at' + 1 == sig.size) prev hst).bind
            fun st' ⟨hst', hop'⟩ => ih (at' + 1) hst' (hop' ▸ hop)
          have hrest := (makes_restOfArgs hk prev st.given st.more).bind
            (f := fun a => Pure.pure (st.code ++ a.1 ++
              [.instr (.call (if l = .joined then .comJoined else .comAll) .null a.2.1 self)],
              a.2.2))
            (R := fun a => Built a.1) fun a ha => by
              refine .pure ((hst.append ha).append (built_call ?_))
              split <;> rfl
          cases l with
          | self => exact ih _ (hst.append (built_identCode self)) hop
          | count => exact ih _ (hst.append (built_int _)) hop
          | pressed => exact ih _ hst (.inr rfl)
          | joined | all => exact hrest
          | again n =>
              refine .ite (ih _ hst hop) (ih _ (hst.append ?_) hop)
              exact built_replicate (built_plain rfl rfl) _
          | _ => exact hletter

end Calls

section Statements

variable {k : Nested}

private theorem makes_assignment (hk : k.Builds) {head : Head} (hh : head.IsBuilt) (prev : Nat) :
    Makes (assignment k head prev) fun a => Built a.1 := by
  have htake {want : Want} {prev : Nat} {missing : Code} {f : Statement → CompileM Statement}
      (hm : Built missing) (hf : ∀ a : Statement, Built a.1 → Makes (f a) fun a => Built a.1) :
      Makes (argOr k want prev missing >>= f) fun a => Built a.1 :=
    (makes_argOr hk want prev hm).bind hf
  have hbyName {push : Code} (hp : Built push) :
      Makes (argOr k .any (prev + 1) (textCode []) >>= fun a =>
        Pure.pure (push ++ a.1 ++ plain .aliasNamed, a.2)) fun a => Built a.1 :=
    htake (built_text []) fun a ha => .pure ((hp.append ha).append (built_plain rfl rfl))
  cases head with
  | computed push => exact hbyName hh
  | bare name =>
      refine (makes_intern name).after fun i => (makes_roleOf i).after fun role => ?_
      cases role with
      | «alias» =>
          refine htake (built_text []) fun a ha => .pure (ha.append ?_)
          split <;> exact built_plain rfl rfl
      | intVar => exact htake (built_int 0) fun a ha => .pure (ha.append (built_plain rfl rfl))
      | floatVar => exact htake (built_float _) fun a ha => .pure (ha.append (built_plain rfl rfl))
      | textVar => exact htake (built_text []) fun a ha => .pure (ha.append (built_plain rfl rfl))
      | command | control => exact hbyName (built_view name)

theorem makes_takeOne (hk : k.Builds) {want : Want} {prev : Nat} {missing tail : Code}
    (hm : Built missing) (ht : Built tail) :
    Makes (do
      match ← k.arg want prev with
      | none => return (missing, false)
      | some code => return (code ++ tail, true)) fun a : Statement => Built a.1 :=
  hk.take (.pure hm) fun _ hc => .pure (hc.append ht)

private theorem makes_branch (hk : k.Builds) (self prev : Nat) :
    Makes (branch k self prev) fun a => Built a.1 := by
  have hplain {op : Op} {n : Nat} (ho : op.isStraight = true) (hl : op.isLiteral = false) :
      Built (plain op .null n) := built_plain ho hl
  refine hk.take (.pure (hplain rfl rfl)) fun cond hcond => ?_
  have hdropped : Built (cond ++ plain .pop ++ plain .null) :=
    (hcond.append (hplain rfl rfl)).append (hplain rfl rfl)
  refine hk.take (.pure hdropped) fun yes hyes => ?_
  refine hk.take ?_ fun no hno => ?_
  · cases hb : literalBody? yes with
    | some body => exact .pure (hcond.append (.whenTrue (hyes.literalBody hb) .nil))
    | none =>
        exact .pure (((hcond.append hyes).append (built_literal .nil)).append (hplain rfl rfl))
  · have hcalled : Built (cond ++ yes ++ no ++ plain .com .null self) :=
      ((hcond.append hyes).append hno).append (hplain rfl rfl)
    dsimp only
    cases hy : literalBody? yes with
    | some bodyYes =>
        cases hn : literalBody? no with
        | some bodyNo =>
            exact .pure (hcond.append (.choice (hyes.literalBody hy) (hno.literalBody hn) .nil))
        | none => exact .pure hcalled
    | none =>
        cases hn : literalBody? no with
        | none => exact .pure hcalled
        | some bodyNo =>
            refine .pure ?_
            split
            · exact hcond.append (.whenFalse (hno.literalBody hn) .nil)
            · exact hcalled

theorem makes_takeLiterals (hk : k.Builds) (prev left given : Nat) :
    Makes (takeLiterals k prev left given) fun a =>
      (∀ body ∈ a.1, Built body) ∧ Built (a.2.1.getD []) := by
  induction left generalizing given with
  | zero => exact .pure ⟨nofun, .nil⟩
  | succ left ih =>
      refine hk.take (.pure ⟨nofun, .nil⟩) fun code hc => ?_
      dsimp only
      cases hb : literalBody? code with
      | none => exact .pure ⟨nofun, hc⟩
      | some body =>
          refine (ih (given + 1)).bind fun a ha => .pure ⟨fun b hm => ?_, ha.2⟩
          rcases List.mem_cons.mp hm with rfl | hm
          · exact hc.literalBody hb
          · exact ha.1 b hm

private theorem makes_connective (hk : k.Builds) (isAnd : Bool) (self prev : Nat) :
    Makes (connective k isAnd self prev) fun a => Built a.1 := by
  refine hk.take (.pure ?_) fun first hfirst => ?_
  · split <;> exact built_plain rfl rfl
  · refine (makes_takeLiterals hk prev (maxArgs - 1) 1).bind fun a ha => ?_
    obtain ⟨bodies, other, n, more⟩ := a
    obtain ⟨hbodies, hother⟩ := ha
    refine .ite ?_ (.pure (hfirst.append (built_chain ?_ hbodies)))
    · refine (makes_takeArgs hk .condition prev (maxArgs - n) n).bind fun a hrest => .pure ?_
      have hpushed := (built_blocks hbodies).append hother
      exact ((hfirst.append hpushed).append hrest).append (built_call rfl)
    · split
      · exact .inr rfl
      · exact .inl rfl

private theorem makes_control (hk : k.Builds) (c : Control) (self prev : Nat) :
    Makes (control k c self prev) fun a => Built a.1 := by
  cases c with
  | «local» =>
      refine (makes_takeArgs hk .ident prev maxArgs 0).bind fun a ha => ?_
      refine (makes_surplusArgs hk a.2.2 prev).bind fun surplus hs => ?_
      exact .pure (.shadow ha hs .nil)
  | run | runOuter | result | not =>
      exact makes_takeOne hk (built_plain rfl rfl) (built_plain rfl rfl)
  | branch => exact makes_branch hk self prev
  | and => exact makes_connective hk true self prev
  | or => exact makes_connective hk false self prev

private theorem makes_intVarStatement (hk : k.Builds) (hex : Bool) (self prev : Nat) :
    Makes (intVarStatement k hex self prev) fun a => Built a.1 := by
  refine hk.take (.pure (built_plain rfl rfl)) fun a ha => ?_
  refine .ite (.pure (ha.append (built_plain rfl rfl))) ?_
  refine hk.take (.pure (ha.append (built_plain rfl rfl))) fun b hb => ?_
  refine hk.take (.pure ((ha.append hb).append (built_plain rfl rfl))) fun c hc => ?_
  exact .pure (((ha.append hb).append hc).append (built_plain rfl rfl))

private theorem makes_floatVarStatement (hk : k.Builds) (self prev : Nat) :
    Makes (floatVarStatement k self prev) fun a => Built a.1 :=
  makes_takeOne hk (built_plain rfl rfl) (built_plain rfl rfl)

private theorem makes_textVarStatement (hk : k.Builds) (self prev : Nat) :
    Makes (textVarStatement k self prev) fun a => Built a.1 := by
  refine hk.take (.pure (built_plain rfl rfl)) fun a ha => ?_
  refine (makes_takeArgs hk .anyView prev (maxArgs - 1) 1).bind fun rest hrest => .pure ?_
  refine ((ha.append hrest).append ?_).append (built_plain rfl rfl)
  split
  · exact built_plain rfl rfl
  · exact .nil

private theorem built_number (view : Bool) (name : Bytes) : Built (numberStatement view name) := by
  unfold numberStatement
  generalize Reading.uint64 name = x
  refine Built.append ?_ (built_plain rfl rfl)
  split
  · exact built_int _
  · split
    · exact built_view name
    · exact built_text name

private theorem makes_callBare (hk : k.Builds) (view : Bool) (name : Bytes) (prev : Nat) :
    Makes (callBare k view name prev) fun a => Built a.1 := by
  refine makes_get.after fun s => ?_
  dsimp only
  cases s.table.lookup? name with
  | none =>
      exact .ite (.pure (built_number view name)) (makes_callComputed hk (built_view name) prev)
  | some found =>
      obtain ⟨i, id⟩ := found
      dsimp only
      cases id.role with
      | «alias» =>
          refine (makes_takeArgs hk .any prev maxArgs 0).bind fun a ha => .pure (ha.append ?_)
          split <;> exact built_call rfl
      | command sig action => exact makes_commandArgs hk _ i prev _ 0 .nil (.inl rfl)
      | control c => exact makes_control hk c i prev
      | intVar => exact makes_intVarStatement hk _ i prev
      | floatVar => exact makes_floatVarStatement hk i prev
      | textVar => exact makes_textVarStatement hk i prev

theorem makes_statement (hk : k.Builds) (view : Bool) (prev : Nat) :
    Makes (statement k view prev) fun a => Built a.1 := by
  refine (hk.head prev).bind fun answer ha => ?_
  cases answer with
  | none => exact .pure .nil
  | some head =>
      have hhead := ha head rfl
      refine makes_skipComments.after fun _ => makes_cursor.after fun c => .ite ?_ ?_
      · exact (makes_advance 1).after fun _ => makes_assignment hk hhead prev
      · cases head with
        | computed push => exact makes_callComputed hk hhead prev
        | bare name => exact makes_callBare hk view name prev

theorem makes_endOfStatement (closing : UInt8) (fuel : Nat) :
    Makes (endOfStatement closing fuel) fun _ => True := by
  induction fuel with
  | zero => exact .pure trivial
  | succ fuel ih =>
      refine (makes_skipTo _).after fun _ => makes_cursor.after fun c => .ite ?_ ?_
      · exact .ite ((makes_warn _).after fun _ => .pure trivial) (.pure trivial)
      · refine makes_next.after fun c => .ite (.ite (.pure trivial) ?_) (.ite ?_ (.pure trivial))
        · exact (makes_warn _).after fun _ => .pure trivial
        · refine (makes_peek 0).after fun _ => .ite ?_ ih
          exact (makes_skipTo _).after fun _ => ih

theorem makes_statementsFrom (hk : k.Builds) (view : Bool) (closing : UInt8) (prev fuel : Nat) :
    Makes (statementsFrom k view closing prev fuel) Built := by
  induction fuel with
  | zero => exact .pure .nil
  | succ fuel ih =>
      refine (makes_statement hk view prev).bind fun a ha => makes_cursor.after fun c => ?_
      refine (makes_surplusArgs hk a.2 prev).bind fun surplus hs => ?_
      refine (makes_endOfStatement closing _).after fun ended => ?_
      refine .ite (.pure (ha.append hs)) ?_
      exact ih.bind fun rest hrest => .pure ((ha.append hs).append hrest)

theorem makes_statements (hk : k.Builds) (view : Bool) (closing : UInt8) (prev : Nat) :
    Makes (statements k view closing prev) Built :=
  makes_cursor.after fun _ => makes_statementsFrom hk view closing prev _

theorem makes_textLiteral (hk : k.Builds) (text name : Bytes) (line : Nat) :
    Makes (textLiteral k text name line) Built :=
  (Makes.withText text name line (makes_statements hk false 0 0)).bind fun _ hb =>
    .pure (built_literal hb)

end Statements

section Arguments

variable {k : Nested}

theorem makes_wordCode (hk : k.Builds) (want : Want) (word name : Bytes) :
    Makes (wordCode k want word name) Built := by
  cases want with
  | any =>
      refine .pure ?_
      split
      · exact built_null
      · exact built_text word
  | anyView =>
      refine .pure ?_
      split
      · exact built_null
      · exact built_view word
  | int => exact .pure (built_int _)
  | float => exact .pure (built_float _)
  | text | head => exact .pure (built_text word)
  | textView => exact .pure (built_view word)
  | code => exact makes_textLiteral hk word name 1
  | condition => exact .ite (.pure built_null) (makes_textLiteral hk word name 1)
  | ident => exact (makes_intern word).after fun i => .pure (built_identCode i)
  | nothing => exact .pure .nil

theorem makes_invalidLookup (hk : k.Builds) (want : Want) : Makes (invalidLookup k want) Built := by
  cases want with
  | nothing => exact .pure .nil
  | any | anyView | head | condition => exact .pure built_null
  | int | float | text | textView | code | ident => exact makes_wordCode hk _ [] []

private theorem makes_lookupNamed (hk : k.Builds) (name : Bytes) (want : Want) (prev : Nat) :
    Makes (lookupNamed k name want prev) Built := by
  refine (makes_intern name).after fun i => (makes_roleOf i).after fun role => ?_
  refine .ite (.pure .nil) ?_
  have htail {push : Code} (hp : Built push) : Built (push ++ lookupTail want) :=
    hp.append (built_lookupTail want)
  have hnumber {push : Code} (hp : Built push) :
      Built (push ++ if want = .condition then [] else lookupTail want) := by
    split
    · rw [List.append_nil]
      exact hp
    · exact htail hp
  cases role with
  | intVar => exact .pure (hnumber (built_plain rfl rfl))
  | floatVar => exact .pure (hnumber (built_plain rfl rfl))
  | textVar =>
      refine .pure (htail ?_)
      cases want <;> exact built_plain rfl rfl
  | «alias» =>
      refine .pure (htail ?_)
      cases want <;> (dsimp only; split <;> exact built_plain rfl rfl)
  | command sig action => exact .pure (built_lookupCommand sig i want prev)
  | control c => exact makes_invalidLookup hk want

theorem makes_lookupOne (hk : k.Builds) (want : Want) (prev : Nat) :
    Makes (lookupOne k want prev) Built := by
  refine (makes_peek 0).after fun c => .ite ?_ (.ite ?_ ?_)
  · exact hk.take (makes_invalidLookup hk want) fun name hn =>
      .pure (hn.append (built_lookupComputed want))
  · exact makes_cutRaw.after fun name => makes_lookupNamed hk name want prev
  · exact makes_cutWord.after fun name =>
      .ite (makes_invalidLookup hk want) (makes_lookupNamed hk name want prev)

private theorem makes_lookup (hk : k.Builds) (want : Want) (prev : Nat) :
    Makes (lookup k want prev) Built := by
  refine makes_cursor.after fun c => (makes_advance _).after fun _ => ?_
  refine .ite (makes_lookupOne hk want prev) ?_
  refine (makes_lookupOne hk .textView prev).bind fun name hn => .pure ?_
  exact (hn.append (built_replicate (built_lookupComputed .textView) _)).append
    (built_lookupComputed want)

private theorem makes_spliceNamed (name : Bytes) :
    Makes (intern name >>= fun i => roleOf i >>= fun role => match role with
      | .intVar .. => return some (plain .intVar .null i)
      | .floatVar .. => return some (plain .floatVar .null i)
      | .textVar .. => return some (plain .textVarView .null i)
      | .alias => return some (plain (if i < maxArgs then .lookupViewArg else .lookupView) .null i)
      | _ => return some (viewCode name ++ plain .lookupViewNamed)) fun answer =>
      ∀ code, answer = some code → Built code := by
  have hsome {code : Code} (hc : Built code) : Makes (Pure.pure (some code))
      fun answer => ∀ code, answer = some code → Built code := .pure fun _ h => by cases h; exact hc
  refine (makes_intern name).after fun i => (makes_roleOf i).after fun role => ?_
  cases role with
  | intVar | floatVar | textVar => exact hsome (built_plain rfl rfl)
  | «alias» =>
      refine hsome ?_
      split <;> exact built_plain rfl rfl
  | command | control => exact hsome ((built_view name).append (built_plain rfl rfl))

theorem makes_splice (hk : k.Builds) (prev : Nat) :
    Makes (splice k prev) fun answer => ∀ code, answer = some code → Built code := by
  refine (makes_peek 0).after fun c => .ite (hk.arg .anyView prev) (.ite ?_ (.ite ?_ ?_))
  · refine (hk.arg .textView prev).bind fun answer ha => .pure fun code hc => ?_
    obtain ⟨name, rfl, rfl⟩ := Option.map_eq_some_iff.mp hc
    exact (ha name rfl).append (built_plain rfl rfl)
  · exact makes_cutRaw.after makes_spliceNamed
  · refine makes_cursor.after fun c => .ite (.pure ?_) ?_
    · intro code h
      cases h
    · exact (makes_advance _).after fun _ => makes_spliceNamed _

theorem makes_addSplice (hk : k.Builds) (prev : Nat) (segment : Bytes) {st : Splicing}
    (hst : Built st.code) : Makes (addSplice k prev segment st) fun st' => Built st'.code := by
  obtain ⟨merge, parts, heq, hmerge⟩ : ∃ merge parts,
      (if maxArgs < st.parts + 2 then (plain .concWord .text st.parts, 1) else ([], st.parts)) =
        (merge, parts) ∧ Built merge := by
    split
    · exact ⟨_, _, rfl, built_plain rfl rfl⟩
    · exact ⟨_, _, rfl, .nil⟩
  unfold addSplice
  rw [heq]
  refine (makes_splice hk _).bind fun spliced hs => makes_cursor.after fun c => .pure ?_
  refine ((hst.append hmerge).append (built_blockTextCode true segment)).append ?_
  cases spliced with
  | none => exact .nil
  | some code => exact hs code rfl

private theorem makes_readLiteral (hk : k.Builds) (prev fuel depth : Nat) {st : Splicing}
    (hst : Built st.code) :
    Makes (readLiteral k prev fuel depth st) fun a => Built a.1.code := by
  induction fuel generalizing depth st with
  | zero => exact .pure hst
  | succ fuel ih =>
      refine (makes_skipTo _).after fun _ => makes_cursor.after fun here => .ite ?_ ?_
      · exact (makes_warn _).after fun _ => .pure hst
      refine makes_next.after fun c => .ite ?_ (.ite ?_ (.ite (ih _ hst) (.ite ?_ ?_)))
      · exact makes_cutStringBody.after fun _ => ih depth hst
      · refine (makes_peek 0).after fun _ => .ite ?_ (ih depth hst)
        exact (makes_skipTo _).after fun _ => ih depth hst
      · exact .ite (.pure hst) (ih _ hst)
      · refine makes_cursor.after fun _ => (makes_advance _).after fun _ => .ite (ih depth hst) ?_
        have hsplice := (makes_addSplice hk prev (st.segment here.rest) hst).bind
          fun st' hst' => ih depth hst'
        exact .ite ((makes_warn _).after fun _ => hsplice) hsplice

private theorem makes_plainLiteral (hk : k.Builds) (want : Want) (segment name : Bytes)
    (line : Nat) :
    Makes (plainLiteral k want segment name line) Built := by
  cases want with
  | nothing => exact .pure .nil
  | code | condition => exact makes_textLiteral hk segment name line
  | ident =>
      refine (makes_noteLiteralName segment).after fun _ => ?_
      exact (makes_intern segment).after fun i => .pure (built_identCode i)
  | textView | anyView => exact .pure (built_blockTextCode true segment)
  | int | float => exact .pure ((built_blockTextCode false segment).append (built_plain rfl rfl))
  | any | text | head => exact .pure (built_blockTextCode false segment)

private theorem makes_emptyLiteral (hk : k.Builds) (want : Want) (name : Bytes) :
    Makes (emptyLiteral k want name) Built := by
  cases want with
  | nothing => exact .pure .nil
  | condition => exact .pure built_null
  | code => exact .pure (built_literal .nil)
  | ident => exact .pure (built_identCode _)
  | textView | anyView => exact .pure (built_view [])
  | any | text | head => exact .pure (built_text [])
  | int | float => exact makes_wordCode hk _ [] name

theorem makes_blockLiteral (hk : k.Builds) (want : Want) (prev : Nat) :
    Makes (blockLiteral k want prev) Built := by
  refine makes_cursor.after fun c₁ => makes_cursor.after fun c₂ => makes_cursor.after fun c₃ => ?_
  have hread : Makes (readLiteral k prev (c₃.rest.length + 1) 1 { source := c₃.rest }) fun a =>
      Built a.1.code := makes_readLiteral hk prev _ 1 .nil
  refine hread.bind fun a ha => ?_
  obtain ⟨st, segment⟩ := a
  refine .ite (.ite (makes_emptyLiteral hk want _) (makes_plainLiteral hk want segment _ _)) ?_
  obtain ⟨last, parts, heq, hlast⟩ : ∃ last parts,
      (if segment.isEmpty then ([], st.parts) else (blockTextCode true segment, st.parts + 1)) =
        (last, parts) ∧ Built last := by
    split
    · exact ⟨_, _, rfl, .nil⟩
    · exact ⟨_, _, rfl, built_blockTextCode true segment⟩
  rw [heq]
  refine .pure (Built.append ?_ (built_lookupTail want))
  split
  · exact built_spill ((Built.append ha hlast).append (built_plain rfl rfl))
  · exact (Built.append ha hlast).append (built_plain rfl rfl)

theorem makes_group (hk : k.Builds) (want : Want) (prev : Nat) :
    Makes (group k want prev) Built := by
  refine makes_cursor.after fun c => .ite ?_ ?_
  · refine (makes_statements hk _ _ 0).bind fun inner hi => .pure ?_
    exact (built_spill hi).append (built_lookupTail want)
  · refine (makes_statements hk _ _ prev).bind fun inner hi => ?_
    refine .ite (makes_wordCode hk want [] _) (.pure ?_)
    exact (hi.append (built_plain rfl rfl)).append (built_lookupTail want)

private theorem makes_stringArg (hk : k.Builds) (want : Want) : Makes (stringArg k want) Built := by
  refine makes_cursor.after fun c => makes_cutString.after fun s => ?_
  cases want with
  | any | text => exact .pure (built_text s)
  | anyView | textView => exact .pure (built_view s)
  | int | float | code | condition | ident | head | nothing => exact makes_wordCode hk _ s _

/-- One argument. -/
theorem makes_argument (hk : k.Builds) (want : Want) (prev : Nat) :
    Makes (argument k want prev) fun answer => ∀ code, answer = some code → Built code := by
  have hsome {m : CompileM Code} (hm : Makes m Built) :
      Makes (m >>= fun code => Pure.pure (some code)) fun answer =>
        ∀ code, answer = some code → Built code :=
    hm.bind fun _ hc => .pure fun _ h => by cases h; exact hc
  refine makes_skipComments.after fun _ => (makes_peek 0).after fun c => ?_
  refine .ite (hsome (makes_stringArg hk want)) (.ite (hsome (makes_lookup hk want prev)) ?_)
  refine .ite ?_ (.ite ?_ ?_)
  · exact (makes_advance 1).after fun _ => hsome (makes_group hk want prev)
  · exact (makes_advance 1).after fun _ => hsome (makes_blockLiteral hk want prev)
  · refine makes_cursor.after fun c => makes_cutWord.after fun word => ?_
    exact .ite (.pure nofun) (hsome (makes_wordCode hk want word _))

theorem makes_firstWord (hk : k.Builds) (prev : Nat) :
    Makes (firstWord k prev) fun answer => ∀ head, answer = some head → head.IsBuilt := by
  refine makes_skipComments.after fun _ => (makes_peek 0).after fun c => .ite ?_ (.ite ?_ ?_)
  · refine makes_cutString.after fun s => .pure fun head hh => ?_
    cases hh
    split
    · exact built_view []
    · trivial
  · refine (makes_argument hk .head prev).bind fun answer ha => .pure fun head hh => ?_
    obtain ⟨code, rfl, rfl⟩ := Option.map_eq_some_iff.mp hh
    exact ha code rfl
  · refine makes_cutWord.after fun word => .ite (.pure nofun) (.pure fun head hh => ?_)
    cases hh
    trivial

theorem nested_builds (levels : Nat) : (nested levels).Builds := by
  induction levels with
  | zero => exact ⟨fun _ _ => .pure nofun, fun _ => .pure nofun⟩
  | succ levels ih => exact ⟨makes_argument ih, makes_firstWord ih⟩

theorem program_makes (t : Table) (src name : Bytes) :
    t.Gains (program t src name).2.table ∧ Built (program t src name).1 := by
  obtain ⟨hg, hb⟩ := makes_statements (nested_builds (src.length + 4)) false 0 0
    { cursor := { rest := src, name }, table := t }
  exact ⟨hg.table, hb⟩

end Arguments

end Compile

open Compile

/-- Compiled blocks are well-formed. Whatever the table and the source, a compiled block that is
short enough for its operands and whose texts are short enough for theirs begins with its start
marker and ends with an exit, passes the check, and can be read to its end; every jump and every
block literal ends where an instruction begins, they are nested in each other, and the bodies in each
of them are opened and closed in turn. -/
theorem compile_wellFormed (t : Table) (src name : Bytes)
    (hsize : (compile t src name).block.size < operandLimit)
    (htexts : ∀ s ∈ Code.texts (program t src name).1, s.length < operandLimit) :
    (compile t src name).block.WellFormed := by
  rw [compile_block] at hsize ⊢
  exact wellFormed_toBlock (program_makes t src name).2 hsize htexts

/-- The control words by themselves. -/
def controlTable : Table :=
  ⟨(Control.all.map fun c => { name := utf8 c.word, role := .control c }).toArray⟩

/-- A text whose brackets do not close, with branches, a chain and statements in parentheses. -/
def unevenText : Bytes := utf8 "if (&& $a [b]) [x = 1] [z (+ 1 @@w)] \"u\ndo [y $i"

theorem compile_wellFormed_uneven :
    (compile controlTable unevenText []).block.size < operandLimit ∧
      (∀ s ∈ Code.texts (program controlTable unevenText []).1, s.length < operandLimit) ∧
      (compile controlTable unevenText []).block.WellFormed := by
  have hsize : (compile controlTable unevenText []).block.size < operandLimit := by
    decide +kernel
  have htexts : ∀ s ∈ Code.texts (program controlTable unevenText []).1,
      s.length < operandLimit := by decide +kernel
  exact ⟨hsize, htexts, compile_wellFormed _ _ _ hsize htexts⟩

end ConsoleScript
