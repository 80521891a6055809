import ConsoleScript.Proofs.Compile.Consuming
import ConsoleScript.Proofs.Compile.InPlace
import ConsoleScript.Proofs.Compile.KindedCalls

/-!
Compiling comes to an end. What is compiled within a statement is shorter than what is left where
the statement begins: two compilers for nested texts that do the same on shorter texts compile the
statement alike. So a text has fewer levels than bytes, and what would be done below the last level
does not matter.
-/

namespace ConsoleScript.Compile

open Bytecode Syntax

/-- Two steps do the same from each state with a property. -/
def Same {α : Type} (pre : State → Prop) (m m' : CompileM α) : Prop :=
  ∀ s, pre s → m'.run s = m.run s

section Rules

variable {α β : Type} {pre pre' : State → Prop} {m m' : CompileM α} {f f' : α → CompileM β}
  {mid : α → State → Prop} {n : Nat}

theorem Same.refl : Same pre m m := fun _ _ => rfl

theorem Same.bind (hm : Same pre m m') (hl : Ensures pre m mid)
    (hf : ∀ a, Same (mid a) (f a) (f' a)) : Same pre (m >>= f) (m' >>= f') := by
  intro s hs
  rw [StateT.run_bind, StateT.run_bind, hm s hs]
  exact hf _ _ (hl s hs)

theorem Same.after (hl : Ensures pre m mid) (hf : ∀ a, Same (mid a) (f a) (f' a)) :
    Same pre (m >>= f) (m >>= f') :=
  Same.refl.bind hl hf

theorem Same.before (hm : Same pre m m') : Same pre (m >>= f) (m' >>= f) :=
  hm.bind (show Ensures pre m fun _ _ => True from fun _ _ => trivial) fun _ => .refl

theorem Same.making {P : α → Prop} (hm : Same (Below n) m m') (hp : Makes m P)
    (hf : ∀ a, P a → Same (Below n) (f a) (f' a)) : Same (Below n) (m >>= f) (m' >>= f') := by
  intro s hs
  rw [StateT.run_bind, StateT.run_bind, hm s hs]
  exact hf _ (hp s).2 _ (hp.ensures s hs)

theorem Same.restrict (hm : Same pre m m') (h : ∀ s, pre' s → pre s) : Same pre' m m' :=
  fun s hs => hm s (h s hs)

theorem Same.ite {c : Prop} [Decidable c] {n n' : CompileM α} (h : c → Same pre m m')
    (h' : ¬c → Same pre n n') : Same pre (if c then m else n) (if c then m' else n') := by
  split
  · exact h ‹_›
  · exact h' ‹_›

theorem Same.zero : Same (Below 0) m m' := fun _ hs => absurd hs (Nat.not_lt_zero _)

theorem Same.onCursor {f f' : Cursor → CompileM β}
    (h : ∀ c, Same (fun s => pre s ∧ s.cursor = c) (f c) (f' c)) :
    Same pre (cursor >>= f) (cursor >>= f') :=
  fun s hs => h s.cursor s ⟨hs, rfl⟩

theorem Same.given {p : Prop} (hp : ∀ s, pre s → p) (h : p → Same pre m m') : Same pre m m' :=
  fun s hs => h (hp s hs) s hs

theorem Same.withText {text : Bytes} (name : Bytes) (line : Nat) (hm : Same (Below n) m m')
    (hn : text.length < n) : Same pre (withText text name line m) (withText text name line m') := by
  intro s _
  have hrun (m : CompileM α) : (Compile.withText text name line m).run s =
      (m >>= fun a => modify (fun s' => { s' with cursor := s.cursor }) >>= fun _ =>
        Pure.pure a).run { s with cursor := { rest := text, line, name } } := rfl
  rw [hrun, hrun]
  exact hm.before _ hn

end Rules

/-- Two compilers for nested arguments and first words do the same on texts shorter than a bound;
for a word that is wanted as code, shorter by one. -/
structure Nested.Alike (l : Nat) (k k' : Nested) : Prop where
  builds : k.Builds
  advances : k.Advances
  arg : ∀ (want : Want) (prev : Nat) {n : Nat}, n ≤ l - want.cost →
    Same (Below n) (k.arg want prev) (k'.arg want prev)
  head : ∀ (prev : Nat) {n : Nat}, n ≤ l → Same (Below n) (k.head prev) (k'.head prev)

theorem Nested.Alike.refl {k : Nested} (hk : k.Builds) (ha : k.Advances) (l : Nat) :
    k.Alike l k :=
  ⟨hk, ha, fun _ _ _ _ => .refl, fun _ _ _ => .refl⟩

section Calls

variable {k k' : Nested} {l n : Nat} {α : Type}

/-- Reading and dropping arguments ends where there is none, as there are no more than bytes. -/
theorem same_dropArgs (hk : k.Alike l k') (hl : n ≤ l) (prev : Nat) {fuel fuel' : Nat}
    (hf : n ≤ fuel) (hf' : n ≤ fuel') :
    Same (Below n) (dropArgs k prev fuel) (dropArgs k' prev fuel') := by
  induction fuel generalizing n fuel' with
  | zero =>
      obtain rfl : n = 0 := by omega
      exact .zero
  | succ fuel ih =>
      cases fuel' with
      | zero =>
          obtain rfl : n = 0 := by omega
          exact .zero
      | succ fuel' =>
          have harg := hk.arg .nothing prev (n := n) (by simp only [Want.cost]; omega)
          refine harg.bind (hk.advances.arg .nothing prev n) fun answer => ?_
          cases answer with
          | none => exact .refl
          | some code => exact (ih (n := n - 1) (by omega) (by omega) (by omega)).before

theorem same_surplusArgs (hk : k.Alike l k') (hl : n ≤ l) (more : Bool) (prev : Nat) :
    Same (Below n) (surplusArgs k more prev) (surplusArgs k' more prev) := by
  refine .ite (fun _ => .onCursor fun c => ?_) fun _ => .refl
  refine .given (fun s h => h.2 ▸ h.1) fun (hc : c.rest.length < n) => ?_
  refine (same_dropArgs hk (n := c.rest.length + 1) (by omega) prev (Nat.le_refl _)
    (Nat.le_refl _)).restrict fun s h => ?_
  exact h.2 ▸ Nat.lt_succ_self _

variable (hk : k.Alike l k') (hl : n ≤ l - 1)
include hk hl

theorem Nested.Alike.take {want : Want} {prev : Nat} {f f' : Option Code → CompileM α}
    (hnone : Same (Below n) (f none) (f' none))
    (hsome : ∀ code, Same (Below n) (f (some code)) (f' (some code))) :
    Same (Below n) (k.arg want prev >>= f) (k'.arg want prev >>= f') := by
  have hcost := want.cost_le
  refine (hk.arg want prev (by omega)).bind (hk.advances.arg want prev n) fun answer => ?_
  cases answer with
  | none => exact hnone
  | some code => exact (hsome code).restrict fun _ h => h.of_sub

theorem same_takeArgs (want : Want) (prev left given : Nat) :
    Same (Below n) (takeArgs k want prev left given) (takeArgs k' want prev left given) := by
  induction left generalizing given with
  | zero => exact .refl
  | succ left ih => exact hk.take hl .refl fun code => (ih (given + 1)).before

private theorem same_argOr (want : Want) (prev : Nat) (missing : Code) :
    Same (Below n) (argOr k want prev missing) (argOr k' want prev missing) :=
  hk.take hl .refl fun _ => .refl

theorem same_callComputed (push : Code) (prev : Nat) :
    Same (Below n) (callComputed k push prev) (callComputed k' push prev) :=
  (same_takeArgs hk hl .anyView (prev + 1) maxArgs 0).before

private theorem same_argIfMore (want : Want) (prev : Nat) (more : Bool) :
    Same (Below n) (argIfMore k want prev more) (argIfMore k' want prev more) := by
  have hcost := want.cost_le
  exact .ite (fun _ => hk.arg want prev (by omega)) fun _ => .refl

private theorem same_restOfArgs (prev given : Nat) (more : Bool) :
    Same (Below n) (restOfArgs k prev given more) (restOfArgs k' prev given more) :=
  .ite (fun _ => same_takeArgs hk hl .anyView prev _ given) fun _ => .refl

private theorem same_letterArg (letter : Letter) (isLast : Bool) (prev : Nat) (st : CallState) :
    Same (Below n) (letterArg k letter isLast prev st) (letterArg k' letter isLast prev st) := by
  refine (same_argIfMore hk hl _ _ _).making
    (makes_argIfMore hk.builds (wantOf letter) (prev + st.given) st.more) fun answer _ => ?_
  cases answer with
  | none => exact .refl
  | some code =>
      have hrest := same_takeArgs hk hl .textView (prev + st.given) (maxArgs - (st.given + 1)) 1
      exact .ite (fun _ => hrest.before) fun _ => .refl

private theorem same_commandArgs (sig : Array Letter) (self prev fuel at' : Nat) {st : CallState}
    (hst : Built st.code) (hop : st.op = .com ∨ st.op = .comPressed) :
    Same (Below n) (commandArgs k sig self prev fuel at' st)
      (commandArgs k' sig self prev fuel at' st) := by
  induction fuel generalizing at' st with
  | zero => exact .refl
  | succ fuel ih =>
      rw [commandArgs, commandArgs]
      cases sig[at']? with
      | none => exact .refl
      | some letter =>
          have hletter := (same_letterArg hk hl letter (at' + 1 == sig.size) prev st).making
            (makes_letterArg hk.builds letter _ prev hst)
            fun st' h => ih (at' + 1) h.1 (h.2 ▸ hop)
          cases letter with
          | self => exact ih (at' + 1) (hst.append (built_identCode self)) hop
          | count => exact ih (at' + 1) (hst.append (built_int _)) hop
          | pressed => exact ih (at' + 1) hst (.inr rfl)
          | joined | all => exact (same_restOfArgs hk hl prev st.given st.more).before
          | again n =>
              refine .ite (fun _ => ih _ hst hop) fun _ => ih _ (hst.append ?_) hop
              exact built_replicate (built_plain rfl rfl) _
          | _ => exact hletter

theorem same_takeOne (want : Want) (prev : Nat) (missing tail : Code) :
    Same (Below n)
      (do
        match ← k.arg want prev with
        | none => return (missing, false)
        | some code => return (code ++ tail, true))
      (do
        match ← k'.arg want prev with
        | none => return (missing, false)
        | some code => return (code ++ tail, true) : CompileM Statement) :=
  hk.take hl .refl fun _ => .refl

private theorem same_branch (self prev : Nat) :
    Same (Below n) (branch k self prev) (branch k' self prev) :=
  hk.take hl .refl fun _ => hk.take hl .refl fun _ => hk.take hl .refl fun _ => .refl

private theorem same_takeLiterals (prev left given : Nat) :
    Same (Below n) (takeLiterals k prev left given) (takeLiterals k' prev left given) := by
  induction left generalizing given with
  | zero => exact .refl
  | succ left ih =>
      refine hk.take hl .refl fun code => ?_
      dsimp only
      cases literalBody? code with
      | none => exact .refl
      | some body => exact (ih (given + 1)).before

private theorem same_connective (isAnd : Bool) (self prev : Nat) :
    Same (Below n) (connective k isAnd self prev) (connective k' isAnd self prev) := by
  refine hk.take hl .refl fun first => ?_
  refine (same_takeLiterals hk hl prev (maxArgs - 1) 1).making
    (makes_takeLiterals hk.builds prev (maxArgs - 1) 1) fun a _ => ?_
  obtain ⟨bodies, other, given, more⟩ := a
  exact .ite (fun _ => (same_takeArgs hk hl .condition prev (maxArgs - given) given).before)
    fun _ => .refl

private theorem same_control (c : Control) (self prev : Nat) :
    Same (Below n) (control k c self prev) (control k' c self prev) := by
  cases c with
  | «local» =>
      refine (same_takeArgs hk hl .ident prev maxArgs 0).making
        (makes_takeArgs hk.builds .ident prev maxArgs 0) fun a _ => ?_
      exact (same_surplusArgs hk (by omega) a.2.2 prev).before
  | run | runOuter | result | not => exact same_takeOne hk hl _ prev _ _
  | branch => exact same_branch hk hl self prev
  | and => exact same_connective hk hl true self prev
  | or => exact same_connective hk hl false self prev

private theorem same_intVarStatement (hex : Bool) (self prev : Nat) :
    Same (Below n) (intVarStatement k hex self prev) (intVarStatement k' hex self prev) :=
  hk.take hl .refl fun _ => .ite (fun _ => .refl) fun _ =>
    hk.take hl .refl fun _ => hk.take hl .refl fun _ => .refl

private theorem same_textVarStatement (self prev : Nat) :
    Same (Below n) (textVarStatement k self prev) (textVarStatement k' self prev) :=
  hk.take hl .refl fun _ => (same_takeArgs hk hl .anyView prev (maxArgs - 1) 1).before

private theorem same_assignment (head : Head) (prev : Nat) :
    Same (Below n) (assignment k head prev) (assignment k' head prev) := by
  have hbyName (push : Code) :
      Same (Below n)
        (argOr k .any (prev + 1) (textCode []) >>= fun a =>
          Pure.pure (push ++ a.1 ++ plain .aliasNamed, a.2))
        (argOr k' .any (prev + 1) (textCode []) >>= fun a =>
          Pure.pure (push ++ a.1 ++ plain .aliasNamed, a.2)) :=
    (same_argOr hk hl .any (prev + 1) _).before
  cases head with
  | computed push => exact hbyName push
  | bare name =>
      refine (makes_intern name).ensures |> Same.after <| fun i => ?_
      refine (makes_roleOf i).ensures |> Same.after <| fun role => ?_
      cases role with
      | «alias» | intVar | floatVar | textVar => exact (same_argOr hk hl _ prev _).before
      | command | control => exact hbyName (viewCode name)

private theorem same_callBare (view : Bool) (name : Bytes) (prev : Nat) :
    Same (Below n) (callBare k view name prev) (callBare k' view name prev) := by
  refine Same.after makes_get.ensures fun s => ?_
  dsimp only
  cases s.table.lookup? name with
  | none => exact .ite (fun _ => .refl) fun _ => same_callComputed hk hl _ prev
  | some found =>
      obtain ⟨i, id⟩ := found
      dsimp only
      cases id.role with
      | «alias» => exact (same_takeArgs hk hl .any prev maxArgs 0).before
      | command sig action => exact same_commandArgs hk hl _ i prev _ 0 .nil (.inl rfl)
      | control c => exact same_control hk hl c i prev
      | intVar => exact same_intVarStatement hk hl _ i prev
      | floatVar => exact same_takeOne hk hl .float prev _ _
      | textVar => exact same_textVarStatement hk hl i prev

end Calls

section Statements

variable {k k' : Nested} {l n : Nat}

/-- What is nested in the arguments of a statement is behind its first word. -/
theorem same_statement (hk : k.Alike l k') (hl : n ≤ l) (view : Bool) (prev : Nat) :
    Same (Below n) (statement k view prev) (statement k' view prev) := by
  refine (hk.head prev hl).bind (hk.advances.head prev n) fun answer => ?_
  cases answer with
  | none => exact .refl
  | some head =>
      have hargs : n - 1 ≤ l - 1 := Nat.sub_le_sub_right hl 1
      refine Same.after makes_skipComments.ensures fun _ =>
        Same.after makes_cursor.ensures fun c => ?_
      refine .ite (fun _ => ?_) fun _ => ?_
      · exact Same.after (makes_advance 1).ensures fun _ => same_assignment hk hargs head prev
      · cases head with
        | computed push => exact same_callComputed hk hargs push prev
        | bare name => exact same_callBare hk hargs view name prev

/-- The end of a statement is found with fuel for each byte. -/
theorem same_endOfStatement (closing : UInt8) {fuel fuel' : Nat} (hf : n ≤ fuel) (hf' : n ≤ fuel') :
    Same (Below n) (endOfStatement closing fuel) (endOfStatement closing fuel') := by
  induction fuel generalizing n fuel' with
  | zero =>
      obtain rfl : n = 0 := by omega
      exact .zero
  | succ fuel ih =>
      cases fuel' with
      | zero =>
          obtain rfl : n = 0 := by omega
          exact .zero
      | succ fuel' =>
          have hrest : Same (Below (n - 1)) (endOfStatement closing fuel)
              (endOfStatement closing fuel') := ih (by omega) (by omega)
          refine Same.after (makes_skipTo _).ensures fun _ => .onCursor fun c => ?_
          refine .ite (fun _ => .refl) fun hc => Same.after (ensures_next c hc) fun b => ?_
          refine .ite (fun _ => .refl) fun _ => .ite (fun _ => ?_) fun _ => .refl
          refine Same.after (makes_peek 0).ensures fun d => .ite (fun _ => ?_) fun _ => hrest
          exact Same.after (makes_skipTo _).ensures fun _ => hrest

private theorem same_round (hk : k.Alike l k') (hl : n ≤ l) (view : Bool) (closing : UInt8)
    (prev : Nat) :
    Same (Below n) (round k view closing prev) (round k' view closing prev) := by
  refine (same_statement hk hl view prev).making (makes_statement hk.builds view prev) fun a _ => ?_
  exact Same.after makes_cursor.ensures fun c => (same_surplusArgs hk hl a.2 prev).before

/-- Statements go on to the closing bracket, as there are no more than bytes. -/
theorem same_statementsFrom (hk : k.Alike l k') (hl : n ≤ l) (view : Bool) (closing : UInt8)
    (prev : Nat) {fuel fuel' : Nat} (hf : n ≤ fuel) (hf' : n ≤ fuel') :
    Same (Below n) (statementsFrom k view closing prev fuel)
      (statementsFrom k' view closing prev fuel') := by
  induction fuel generalizing n fuel' with
  | zero =>
      obtain rfl : n = 0 := by omega
      exact .zero
  | succ fuel ih =>
      cases fuel' with
      | zero =>
          obtain rfl : n = 0 := by omega
          exact .zero
      | succ fuel' =>
          rw [statementsFrom_succ, statementsFrom_succ]
          refine (same_round hk hl view closing prev).bind
            (ensures_round hk.builds view closing prev) fun a => ?_
          cases a.2 with
          | true => exact .ite (fun _ => .refl) fun h => absurd rfl h
          | false =>
              refine .ite nofun fun _ => Same.before ?_
              exact ih (n := n - 1) (by omega) (by omega) (by omega)

theorem same_statements (hk : k.Alike l k') (hl : n ≤ l) (view : Bool) (closing : UInt8)
    (prev : Nat) :
    Same (Below n) (statements k view closing prev) (statements k' view closing prev) := by
  refine .onCursor fun c => .given (fun s h => h.2 ▸ h.1) fun (hc : c.rest.length < n) => ?_
  refine (same_statementsFrom hk (n := c.rest.length + 1) (by omega) view closing prev
    (Nat.le_refl _) (Nat.le_refl _)).restrict fun s h => ?_
  exact h.2 ▸ Nat.lt_succ_self _

theorem same_textLiteral (hk : k.Alike l k') {text : Bytes} (htext : text.length < l)
    (name : Bytes) (line : Nat) {pre : State → Prop} :
    Same pre (textLiteral k text name line) (textLiteral k' text name line) :=
  (Same.withText name line (same_statements hk (Nat.le_refl l) false 0 0) htext).before

end Statements

section Arguments

variable {k k' : Nested} {l n : Nat}

theorem same_wordCode (hk : k.Alike l k') {want : Want} {word : Bytes}
    (hword : word.length < l + 1 - want.cost) (name : Bytes) {pre : State → Prop} :
    Same pre (wordCode k want word name) (wordCode k' want word name) := by
  cases want with
  | code => exact same_textLiteral hk hword name 1
  | condition => exact .ite (fun _ => .refl) fun _ => same_textLiteral hk hword name 1
  | any | anyView | int | float | text | textView | head | ident | nothing => exact .refl

section Lookups

variable (hk : k.Alike l k') {want : Want} (hl : n ≤ l - want.cost)
include hk hl

theorem same_wordCode_nil (name : Bytes) :
    Same (Below n) (wordCode k want [] name) (wordCode k' want [] name) :=
  .given (fun _ h => Nat.zero_lt_of_lt h) fun hn =>
    same_wordCode hk (by simp only [List.length_nil]; omega) name

theorem same_invalidLookup : Same (Below n) (invalidLookup k want) (invalidLookup k' want) := by
  cases want with
  | nothing | any | anyView | head | condition => exact .refl
  | int | float | text | textView | code | ident => exact same_wordCode_nil hk hl []

private theorem same_lookupNamed (name : Bytes) (prev : Nat) :
    Same (Below n) (lookupNamed k name want prev) (lookupNamed k' name want prev) := by
  refine Same.after (makes_intern name).ensures fun i => ?_
  refine Same.after (makes_roleOf i).ensures fun role => ?_
  refine .ite (fun _ => .refl) fun _ => ?_
  cases role with
  | intVar | floatVar | textVar | «alias» | command => exact .refl
  | control => exact same_invalidLookup hk hl

private theorem same_lookupOne (prev : Nat) :
    Same (Below n) (lookupOne k want prev) (lookupOne k' want prev) := by
  refine Same.after (makes_peek 0).ensures fun c => .ite (fun _ => ?_) fun _ =>
    .ite (fun _ => ?_) fun _ => ?_
  · refine (hk.arg .textView prev (by simp only [Want.cost]; omega)).making
      (hk.builds.arg .textView prev) fun answer _ => ?_
    cases answer with
    | none => exact same_invalidLookup hk hl
    | some name => exact .refl
  · exact Same.after makes_cutRaw.ensures fun name => same_lookupNamed hk hl name prev
  · exact Same.after makes_cutWord.ensures fun name =>
      .ite (fun _ => same_invalidLookup hk hl) fun _ => same_lookupNamed hk hl name prev

private theorem same_group (prev : Nat) :
    Same (Below n) (group k want prev) (group k' want prev) := by
  refine Same.after makes_cursor.ensures fun c => .ite (fun _ => ?_) fun _ => ?_
  · exact (same_statements hk (by omega) _ _ 0).before
  · refine (same_statements hk (by omega) _ _ prev).making (makes_statements hk.builds _ _ prev)
      fun inner _ => ?_
    exact .ite (fun _ => same_wordCode_nil hk hl _) fun _ => .refl

end Lookups

private theorem same_lookup (hk : k.Alike l k') {want : Want} (hl : n ≤ l + 1 - want.cost)
    (prev : Nat) :
    Same (BelowAt n (code '$')) (lookup k want prev) (lookup k' want prev) := by
  refine .onCursor fun c => Same.after (ensures_signs c) fun _ => .ite (fun _ => ?_) fun _ => ?_
  · exact same_lookupOne hk (by omega) prev
  · have hname : n - 1 ≤ l - Want.cost .textView := by
      simp only [Want.cost]
      omega
    exact (same_lookupOne hk hname prev).before

section Literals

variable (hk : k.Alike l k')
include hk

private theorem same_splice (hl : n ≤ l) (prev : Nat) :
    Same (Below n) (splice k prev) (splice k' prev) :=
  Same.after (makes_peek 0).ensures fun _ => .ite (fun _ => hk.arg .anyView prev hl) fun _ =>
    .ite (fun _ => (hk.arg .textView prev hl).before) fun _ => .refl

private theorem same_addSplice (hl : n ≤ l) (prev : Nat) (segment : Bytes) (st : Splicing) :
    Same (Below n) (addSplice k prev segment st) (addSplice k' prev segment st) :=
  (same_splice hk hl _).before

/-- A block literal is read up to its closing bracket with fuel for each byte. -/
theorem same_readLiteral (hl : n ≤ l) (prev : Nat) {fuel fuel' : Nat} (hf : n ≤ fuel)
    (hf' : n ≤ fuel') (depth : Nat) {st : Splicing} (hst : Built st.code) :
    Same (Below n) (readLiteral k prev fuel depth st) (readLiteral k' prev fuel' depth st) := by
  induction fuel generalizing n fuel' depth st with
  | zero =>
      obtain rfl : n = 0 := by omega
      exact .zero
  | succ fuel ih =>
      cases fuel' with
      | zero =>
          obtain rfl : n = 0 := by omega
          exact .zero
      | succ fuel' =>
          have hrest (depth : Nat) {st : Splicing} (hst : Built st.code) :
              Same (Below (n - 1)) (readLiteral k prev fuel depth st)
                (readLiteral k' prev fuel' depth st) :=
            ih (by omega) (by omega) (by omega) depth hst
          refine Same.after (makes_skipTo _).ensures fun _ => .onCursor fun here => ?_
          refine .ite (fun _ => .refl) fun hc => Same.after (ensures_next here hc) fun c => ?_
          refine .ite (fun _ => ?_) fun _ => .ite (fun _ => ?_) fun _ =>
            .ite (fun _ => hrest (depth + 1) hst) fun _ =>
            .ite (fun _ => .ite (fun _ => .refl) fun _ => hrest (depth - 1) hst) fun _ => ?_
          · exact Same.after makes_cutStringBody.ensures fun _ => hrest depth hst
          · refine Same.after (makes_peek 0).ensures fun d =>
              .ite (fun _ => ?_) fun _ => hrest depth hst
            exact Same.after (makes_skipTo _).ensures fun _ => hrest depth hst
          · refine Same.after makes_cursor.ensures fun c' => ?_
            refine Same.after (makes_advance _).ensures fun _ => ?_
            refine .ite (fun _ => hrest depth hst) fun _ => ?_
            have hsplice := (same_addSplice hk (n := n - 1) (by omega) prev
              (st.segment here.rest) st).making (makes_addSplice hk.builds prev _ hst)
              fun st' hst' => hrest depth hst'
            exact .ite (fun _ => Same.after (makes_warn _).ensures fun _ => hsplice)
              fun _ => hsplice

end Literals

private theorem ensures_addSplice (hk : k.Builds) (prev : Nat) (segment : Bytes) (st : Splicing) :
    Ensures (Below n) (addSplice k prev segment st)
      fun st' s => st'.source.length < n ∧ Below n s :=
  (makes_splice hk _).ensures.bind fun _ => .onCursor fun _ => .pure fun _ h => ⟨h.2 ▸ h.1, h.1⟩

theorem Splicing.length_segment (st : Splicing) (rest : Bytes) :
    (st.segment rest).length ≤ st.source.length :=
  (List.take_prefix _ _).length_le

/-- The text behind the last splice is no longer than what was left. -/
theorem ensures_readLiteral (hk : k.Builds) (prev fuel depth : Nat) {st : Splicing}
    (hst : st.source.length < n) :
    Ensures (Below n) (readLiteral k prev fuel depth st) fun a _ => a.2.length < n := by
  induction fuel generalizing depth st with
  | zero => exact .pure fun _ _ => Nat.zero_lt_of_lt hst
  | succ fuel ih =>
      refine (makes_skipTo _).ensures.bind fun _ => .onCursor fun here =>
        .ite (fun _ => ?_) fun _ => ?_
      · exact ((makes_warn _).ensures.restrict fun _ h => h.1).bind fun _ => .pure fun _ _ => hst
      have hseg := Nat.lt_of_le_of_lt (st.length_segment here.rest) hst
      refine (makes_next.ensures.restrict fun _ h => h.1).bind fun c => .ite (fun _ => ?_) fun _ =>
        .ite (fun _ => ?_) fun _ => .ite (fun _ => ih _ hst) fun _ =>
        .ite (fun _ => .ite (fun _ => .pure fun _ _ => hseg) fun _ => ih _ hst) fun _ => ?_
      · exact makes_cutStringBody.ensures.bind fun _ => ih depth hst
      · refine (makes_peek 0).ensures.bind fun _ => .ite (fun _ => ?_) fun _ => ih depth hst
        exact (makes_skipTo _).ensures.bind fun _ => ih depth hst
      · refine makes_cursor.ensures.bind fun _ => (makes_advance _).ensures.bind fun _ => ?_
        refine .ite (fun _ => ih depth hst) fun _ => ?_
        have hsplice := (ensures_addSplice (n := n) hk prev (st.segment here.rest) st).bind
          fun st' => .given (fun _ h => h.1) fun hst' => (ih depth hst').restrict fun _ h => h.2
        exact .ite (fun _ => (makes_warn _).ensures.bind fun _ => hsplice) fun _ => hsplice

private theorem same_plainLiteral (hk : k.Alike l k') {want : Want} {segment : Bytes}
    (hl : segment.length < l - want.cost) (name : Bytes) (line : Nat) {pre : State → Prop} :
    Same pre (plainLiteral k want segment name line) (plainLiteral k' want segment name line) := by
  cases want with
  | code | condition => exact same_textLiteral hk (by omega) name line
  | nothing | ident | any | anyView | int | float | text | textView | head => exact .refl

private theorem same_emptyLiteral (want : Want) (name : Bytes) :
    emptyLiteral k' want name = emptyLiteral k want name := by
  cases want <;> rfl

private theorem same_blockLiteral (hk : k.Alike l k') {want : Want} (hl : n ≤ l - want.cost)
    (prev : Nat) :
    Same (Below n) (blockLiteral k want prev) (blockLiteral k' want prev) := by
  refine Same.after makes_cursor.ensures fun c₁ => Same.after makes_cursor.ensures fun c₂ => ?_
  refine .onCursor fun c => .given (fun s h => h.2 ▸ h.1) fun (hc : c.rest.length < n) => ?_
  have hread := same_readLiteral hk (n := c.rest.length + 1) (by omega) prev (Nat.le_refl _)
    (Nat.le_refl _) 1 (show Built (Splicing.code { source := c.rest }) from .nil)
  have hsegment := ensures_readLiteral hk.builds (n := n) prev (c.rest.length + 1) 1
    (show (Splicing.source { source := c.rest }).length < n from hc)
  have hstart (s : State) (h : Below n s ∧ s.cursor = c) : Below (c.rest.length + 1) s :=
    h.2 ▸ Nat.lt_succ_self _
  refine (hread.restrict hstart).bind (hsegment.restrict fun _ h => h.1) fun a =>
    .given (fun _ h => h) fun ha => ?_
  refine .ite (fun _ => .ite (fun _ => ?_) fun _ => ?_) fun _ => .refl
  · rw [same_emptyLiteral]
    exact .refl
  · exact same_plainLiteral hk (by omega) _ _

private theorem same_stringArg (hk : k.Alike l k') {want : Want} (hl : n ≤ l + 1 - want.cost) :
    Same (BelowAt n quote) (stringArg k want) (stringArg k' want) := by
  refine .onCursor fun c => Same.after (ensures_cutString.restrict fun _ h => h.1) fun text => ?_
  refine .given (fun _ h => h.1) fun htext => ?_
  have hword : Same (fun s => text.length < n - 1 ∧ Below (n - 1) s) (wordCode k want text c.name)
      (wordCode k' want text c.name) := same_wordCode hk (by omega) c.name
  cases want with
  | any | text | anyView | textView => exact .refl
  | int | float | code | condition | ident | head | nothing => exact hword

private theorem same_wordArg (hk : k.Alike l k') {want : Want} (hl : n ≤ l + 1 - want.cost) :
    Same (Below n) (wordArg k want) (wordArg k' want) := by
  refine Same.after makes_cursor.ensures fun c => Same.after ensures_cutWord fun word => ?_
  refine .given (fun _ h => h.1) fun hword => .ite (fun _ => .refl) fun _ => ?_
  exact (same_wordCode hk (by omega) c.name).before

theorem same_argument (hk : k.Alike l k') {want : Want} (hl : n ≤ l + 1 - want.cost) (prev : Nat) :
    Same (Below n) (argument k want prev) (argument k' want prev) := by
  refine Same.after makes_skipComments.ensures fun _ => Same.after ensures_peek fun c => ?_
  refine .ite (fun hc => ?_) fun _ => .ite (fun hc => ?_) fun _ => .ite (fun hc => ?_) fun _ =>
    .ite (fun hc => ?_) fun _ => ?_
  · obtain rfl := beq_iff_eq.mp hc
    exact (same_stringArg hk hl).before
  · obtain rfl := beq_iff_eq.mp hc
    exact (same_lookup hk hl prev).before
  · obtain rfl := beq_iff_eq.mp hc
    exact Same.after (ensures_advance (by decide)) fun _ => (same_group hk (by omega) prev).before
  · obtain rfl := beq_iff_eq.mp hc
    exact Same.after (ensures_advance (by decide)) fun _ =>
      (same_blockLiteral hk (by omega) prev).before
  · exact (same_wordArg hk hl).restrict fun _ h => h.1

private theorem same_firstWord (hk : k.Alike l k') (hl : n ≤ l + 1) (prev : Nat) :
    Same (Below n) (firstWord k prev) (firstWord k' prev) := by
  refine Same.after makes_skipComments.ensures fun _ => Same.after ensures_peek fun c => ?_
  refine .ite (fun _ => .refl) fun _ => .ite (fun _ => Same.before ?_) fun _ => .refl
  exact (same_argument hk (show n ≤ l + 1 - Want.cost .head from hl) prev).restrict fun _ h => h.1

end Arguments

section Levels

theorem Nested.Alike.up {k k' : Nested} {l : Nat} (hk : k.Alike l k') :
    Nested.Alike (l + 1) ⟨argument k, firstWord k⟩ ⟨argument k', firstWord k'⟩ where
  builds := ⟨makes_argument hk.builds, makes_firstWord hk.builds⟩
  advances := ⟨fun want prev _ => ensures_argument hk.builds prev want,
    fun prev _ => ensures_firstWord hk.builds prev⟩
  arg _ prev _ hl := same_argument hk hl prev
  head prev _ hl := same_firstWord hk hl prev

/-- The compiler for texts nested up to a number of levels, with another one below the last. -/
def nestedFrom (bottom : Nested) : (levels : Nat) → Nested
  | 0 => bottom
  | levels + 1 => ⟨argument (nestedFrom bottom levels), firstWord (nestedFrom bottom levels)⟩

private theorem nested_alike (bottom : Nested) (levels : Nat) :
    (nested levels).Alike levels (nestedFrom bottom levels) := by
  induction levels with
  | zero =>
      refine ⟨nested_builds 0, nested_advances 0, fun want prev n hn => ?_, fun prev n hn => ?_⟩
      · obtain rfl : n = 0 := by omega
        exact .zero
      · obtain rfl : n = 0 := by omega
        exact .zero
  | succ levels ih => exact ih.up

end Levels

section Letters

open Signature

variable {k : Nested} {sig : Signature} {self prev : Nat}

/-- A letter takes an argument, or there are no more. -/
theorem ensures_letterArg (letter : Letter) (isLast : Bool) (st : CallState) :
    Ensures (fun _ => True) (letterArg k letter isLast prev st) fun st' _ =>
      st'.argsLeft ≤ st.argsLeft - 1 := by
  have hanswer : Ensures (fun _ => True) (argIfMore k (wantOf letter) (prev + st.given) st.more)
      fun answer _ => answer = none ∨ st.more = true :=
    .ite (fun hm _ _ => .inr hm) fun _ => .pure fun _ _ => .inl rfl
  refine hanswer.bind fun answer => .given (fun _ h => h) fun h => ?_
  cases answer with
  | none =>
      have hnone {st' : CallState} (h : st'.more = false) : st'.argsLeft ≤ st.argsLeft - 1 := by
        rw [CallState.argsLeft, h]
        exact Nat.zero_le _
      exact .ite (fun _ => .pure fun _ _ => hnone rfl) fun _ => .pure fun _ _ => hnone rfl
  | some code =>
      have hleft : st.argsLeft = maxArgs - st.given := if_pos (h.resolve_left (Option.some_ne_none code))
      have hnext {st' : CallState} (hgiven : st'.given = st.given + 1) :
          st'.argsLeft ≤ st.argsLeft - 1 := by
        rw [hleft, CallState.argsLeft, hgiven]
        split <;> omega
      refine .ite (fun _ => ?_) fun _ => .pure fun _ _ => hnext rfl
      exact Ensures.bind (show Ensures _ _ fun _ _ => True from fun _ _ => trivial) fun _ =>
        .pure fun _ _ => hnext rfl

/-- The letters of an accepted signature are never cut off. -/
theorem commandArgs_enough (hsig : Accepted 0 sig) {fuel fuel' at' : Nat} {st : CallState}
    (hf : lettersLeft sig.length at' st.argsLeft < fuel)
    (hf' : lettersLeft sig.length at' st.argsLeft < fuel') :
    commandArgs k sig.toArray self prev fuel' at' st =
      commandArgs k sig.toArray self prev fuel at' st := by
  induction fuel generalizing fuel' at' st with
  | zero => omega
  | succ fuel ih =>
      cases fuel' with
      | zero => omega
      | succ fuel' =>
          rw [commandArgs, commandArgs, List.getElem?_toArray]
          cases hl : sig[at']? with
          | none => rfl
          | some letter =>
              obtain ⟨hat, -⟩ := List.getElem?_eq_some_iff.mp hl
              have hnext := lettersLeft_next st.argsLeft hat
              have hgo {st' : CallState} (h : st'.argsLeft ≤ st.argsLeft - 1) :
                  commandArgs k sig.toArray self prev fuel' (at' + 1) st' =
                    commandArgs k sig.toArray self prev fuel (at' + 1) st' := by
                have hless : lettersLeft sig.length (at' + 1) st'.argsLeft ≤
                    lettersLeft sig.length (at' + 1) (st.argsLeft - 1) := lettersLeft_mono h
                exact ih (by omega) (by omega)
              have hgiven {st' : CallState} (hmore : st'.more = st.more)
                  (hg : st'.given = st.given + 1) : st'.argsLeft ≤ st.argsLeft - 1 := by
                unfold CallState.argsLeft
                rw [hmore, hg]
                split <;> omega
              have hletter : Same (fun _ => True)
                  (letterArg k letter (at' + 1 == sig.toArray.size) prev st >>=
                    commandArgs k sig.toArray self prev fuel (at' + 1))
                  (letterArg k letter (at' + 1 == sig.toArray.size) prev st >>=
                    commandArgs k sig.toArray self prev fuel' (at' + 1)) :=
                Same.after (ensures_letterArg letter _ st) fun st' => .given (fun _ h => h) fun h =>
                  fun s _ => congrArg (StateT.run · s) (hgo h)
              cases letter with
              | self | count | pressed => exact hgo (hgiven rfl rfl)
              | joined | all => rfl
              | again n =>
                  obtain ⟨hn, hle⟩ := hsig.again_le hl
                  dsimp only
                  split
                  next hmore =>
                    simp only [Bool.and_eq_true, decide_eq_true_eq] at hmore
                    have hleft : st.argsLeft = maxArgs - st.given := if_pos hmore.1
                    have hback : lettersLeft sig.length (at' - n) st.argsLeft <
                        lettersLeft sig.length at' st.argsLeft :=
                      lettersLeft_back _ (by omega) hn (by omega)
                    have hround {m : Nat} (hf : lettersLeft sig.length at' st.argsLeft < m + 1) :
                        lettersLeft sig.length (at' - n)
                          { st with again := true : CallState }.argsLeft < m := by
                      change lettersLeft sig.length (at' - n) st.argsLeft < m
                      omega
                    exact ih (hround hf) (hround hf')
                  next hmore =>
                    refine hgo ?_
                    unfold CallState.argsLeft
                    dsimp only
                    split
                    next hm =>
                      simp only [hm, Bool.true_and, decide_eq_true_eq] at hmore
                      omega
                    next => exact Nat.zero_le _
              | _ => exact funext fun s => hletter s trivial

private theorem lettersLeft_start (sig : Signature) :
    lettersLeft sig.length 0 maxArgs < (sig.length + 2) * (maxArgs + 2) := by
  have hexpand : (sig.length + 2) * (maxArgs + 2) =
      maxArgs * (sig.length + 2) + 2 * (sig.length + 2) := by
    rw [Nat.mul_comm, Nat.add_mul]
  unfold lettersLeft
  split <;> omega

end Letters

section Termination

/-- What makes a compiler for nested texts come to an end. -/
structure Nested.Terminates (k : Nested) : Prop where
  /-- Behind an argument less is left. -/
  arg : ∀ want prev s code, ((k.arg want prev).run s).1 = some code →
    ((k.arg want prev).run s).2.left < s.left
  /-- Behind the first word of a statement less is left. -/
  head : ∀ prev s h, ((k.head prev).run s).1 = some h → ((k.head prev).run s).2.left < s.left
  /-- What is left behind an argument is an end of what was left. -/
  argInside : ∀ want prev s, ((k.arg want prev).run s).2.cursor.rest <:+ s.cursor.rest
  /-- What is left behind the first word of a statement is an end of what was left. -/
  headInside : ∀ prev s, ((k.head prev).run s).2.cursor.rest <:+ s.cursor.rest
  /-- What is left behind a round is an end of what was left, and shorter if another round
  follows. -/
  round : ∀ view closing prev s,
    ((round k view closing prev).run s).2.cursor.rest <:+ s.cursor.rest ∧
      (((round k view closing prev).run s).1.2 = false →
        ((round k view closing prev).run s).2.left < s.left)
  /-- Within a statement nothing else is compiled than what is shorter than what is left where the
  statement begins. -/
  within : ∀ (k' : Nested) (s : State),
    (∀ want prev, Same (Below s.left) (k.arg want prev) (k'.arg want prev)) →
    (∀ prev, Same (Below s.left) (k.head prev) (k'.head prev)) → ∀ view prev,
      (statement ⟨argument k', firstWord k'⟩ view prev).run s =
        (statement ⟨argument k, firstWord k⟩ view prev).run s
  /-- Statements are not cut off. -/
  statements : ∀ view closing prev s fuel, s.left < fuel →
    (statementsFrom k view closing prev fuel).run s = (statements k view closing prev).run s
  /-- The way to the end of a statement is not cut off. -/
  ends : ∀ closing s fuel, s.left < fuel →
    (endOfStatement closing fuel).run s = (endOfStatement closing (s.left + 1)).run s
  /-- Surplus arguments are not cut off. -/
  surplus : ∀ prev s fuel, s.left < fuel →
    (dropArgs k prev fuel).run s = (surplusArgs k true prev).run s
  /-- The marks of a block literal are not cut off. -/
  marks : ∀ prev s fuel, s.left < fuel →
    (readLiteral k prev fuel 1 { source := s.cursor.rest }).run s =
      (readLiteral k prev (s.left + 1) 1 { source := s.cursor.rest }).run s
  /-- The letters of a command are not cut off. -/
  letters : ∀ sig : Signature, sig.Accepted 0 → ∀ self prev fuel,
    (sig.length + 2) * (maxArgs + 2) ≤ fuel → commandArgs k sig.toArray self prev fuel 0 {} =
      commandArgs k sig.toArray self prev ((sig.length + 2) * (maxArgs + 2)) 0 {}

theorem Past.left_lt {α : Type} {s s' : State} {a : α} (h : Past (s.left + 1) (some a) s') :
    s'.left < s.left := h

private theorem nested_terminates (levels : Nat) : (nested levels).Terminates := by
  have hk := nested_builds levels
  have ha := nested_advances levels
  have hself (s : State) : Below (s.left + 1) s := Nat.lt_succ_self _
  have hsame (l : Nat) := Nested.Alike.refl hk ha l
  refine ⟨fun want prev s code h => ?_, fun prev s w h => ?_, fun want prev s => ?_,
    fun prev s => ?_, fun view closing prev s => ⟨?_, fun h => ?_⟩,
    fun k' s harg hhead view prev => ?_, fun view closing prev s fuel hf => ?_,
    fun closing s fuel hf => ?_, fun prev s fuel hf => ?_, fun prev s fuel hf => ?_,
    fun sig hsig self prev fuel hf => ?_⟩
  · have := ha.arg want prev (s.left + 1) s (hself s)
    rw [h] at this
    exact this.left_lt
  · have := ha.head prev (s.left + 1) s (hself s)
    rw [h] at this
    exact this.left_lt
  · exact (hk.arg want prev s).1.rest
  · exact (hk.head prev s).1.rest
  · exact (makes_round hk view closing prev s).1.rest
  · have hround : Ended closing (s.left + 1) _ _ := ensures_round hk view closing prev s (hself s)
    rw [h] at hround
    exact hround
  · have hup : Nested.Alike (s.left + 1) ⟨argument (nested levels), firstWord (nested levels)⟩
        ⟨argument k', firstWord k'⟩ :=
      Nested.Alike.up ⟨hk, ha,
        fun want prev n hn => (harg want prev).restrict fun _ h => h.mono (by omega),
        fun prev n hn => (hhead prev).restrict fun _ h => h.mono hn⟩
    exact same_statement hup (Nat.le_refl _) view prev s (hself s)
  · exact same_statementsFrom (hsame _) (Nat.le_refl _) view closing prev (Nat.le_refl _) hf s
      (hself s)
  · exact same_endOfStatement closing (Nat.le_refl _) hf s (hself s)
  · exact same_dropArgs (hsame _) (Nat.le_refl _) prev (Nat.le_refl _) hf s (hself s)
  · exact same_readLiteral (hsame _) (Nat.le_refl _) prev (Nat.le_refl _) hf 1 .nil s (hself s)
  · have hstart := lettersLeft_start sig
    exact commandArgs_enough hsig hstart (Nat.lt_of_lt_of_le hstart hf)

private theorem nestedFrom_add (bottom : Nested) (levels more : Nat) :
    nestedFrom bottom (levels + more) = nestedFrom (nestedFrom bottom more) levels := by
  induction levels with
  | zero => rw [Nat.zero_add, nestedFrom]
  | succ levels ih => rw [Nat.succ_add, nestedFrom, ih, nestedFrom]

private theorem nestedFrom_nested (levels : Nat) :
    nestedFrom (nested 0) levels = nested levels := by
  induction levels with
  | zero => rfl
  | succ levels ih => rw [nestedFrom, ih, nested]

private theorem statements_levels (bottom : Nested) {levels : Nat} {s : State}
    (hl : s.left < levels)
    (view : Bool) (closing : UInt8) (prev : Nat) :
    (statements (nestedFrom bottom levels) view closing prev).run s =
      (statements (nested (s.left + 1)) view closing prev).run s := by
  obtain ⟨more, rfl⟩ : ∃ more, levels = s.left + 1 + more := ⟨levels - (s.left + 1), by omega⟩
  rw [nestedFrom_add]
  exact same_statements (nested_alike _ _) (Nat.le_refl _) view closing prev s (Nat.lt_succ_self _)

/-- Compiling comes to an end, whatever the text and the table, and then the whole text is consumed.
Behind an argument, and behind a round of statements that is not the last, less is left; what is
compiled within a statement is shorter than what was left where it began. So nothing is cut off: the
compiler gives the same with more fuel in each of its loops, and with more levels, and whatever
stands below as many levels as there are bytes, and one. -/
theorem program_terminates (t : Table) (src name : Bytes) :
    (program t src name).2.cursor.rest = [] ∧
      (∀ (bottom : Nested) (levels : Nat), src.length < levels →
        (statements (nestedFrom bottom levels) false 0 0).run
          { cursor := { rest := src, name }, table := t } = program t src name) ∧
      ∀ levels, (nested levels).Terminates := by
  refine ⟨statements_toEnd (nested_builds _) false 0 _, fun bottom levels hl => ?_,
    nested_terminates⟩
  have hprogram : program t src name = (statements (nestedFrom (nested 0) (src.length + 4)) false 0
      0).run { cursor := { rest := src, name }, table := t } := by
    rw [nestedFrom_nested, program]
  rw [hprogram, statements_levels bottom hl, statements_levels]
  exact Nat.lt_add_of_pos_right (by decide)

/-- A compiler that takes no byte of an argument. -/
def stuck : Nested := ⟨fun _ _ => return some [], fun _ => return none⟩

theorem program_terminates_uneven :
    (program controlTable unevenText []).2.cursor.rest = [] ∧
      (statements (nestedFrom stuck (unevenText.length + 1)) false 0 0).run
        { cursor := { rest := unevenText, name := [] }, table := controlTable } =
          program controlTable unevenText [] := by
  obtain ⟨hend, hlevels, -⟩ := program_terminates controlTable unevenText []
  exact ⟨hend, hlevels stuck (unevenText.length + 1) (Nat.lt_succ_self _)⟩

end Termination

end ConsoleScript.Compile
