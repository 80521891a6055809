import ConsoleScript.Proofs.Compile.KindedStatements

/-!
The code of an argument leaves an operand of the kind that it is compiled for, whether the argument
is a word, a string, a look-up of any kind, statements in parentheses or a block literal, with splices
or without. So the code of a whole text calls commands with what their letters declare.
-/

namespace ConsoleScript.Compile

open Bytecode

variable {k : Nested} {t : Table} {prev : Nat}

/-! What is known of the operands that looking up and joining leave, before they are converted to what
the place wants. -/

theorem Want.tagged_of_tagOr {want : Want} {other : RetTag} {v : Value}
    (h : v.Tagged (want.tagOr other)) : v.Tagged want.tag := by
  cases want <;> first | exact h | trivial

theorem kinded_lookupTail (want : Want) (ks : Kinds) :
    Kinded t (lookupTail want) ((fun v => v.Tagged want.tag) :: ks) (want.onto ks) := by
  cases want with
  | nothing => exact kinded_drop rfl ks
  | code => exact kinded_turn (.compile fun b pc => ⟨b, pc, rfl⟩) ks
  | condition => exact kinded_turn (.cond fun v hv => hv) ks
  | ident => exact kinded_turn (.identNamed fun i => ⟨i, rfl⟩) ks
  | any | anyView | int | float | text | textView | head => exact .nil

theorem argKinded_tagged {want : Want} {code : Code}
    (h : ∀ ks, Kinded t code ks ((fun v => v.Tagged want.tag) :: ks)) :
    ArgKinded t want (code ++ lookupTail want) :=
  fun ks => (h ks).append (kinded_lookupTail want ks)

/-- A name on the stack is replaced by its value. -/
theorem kinded_lookupComputed (want : Want) {p : Value → Prop}
    (hp : ∀ v : Value, p v → v.Tagged .text) (ks : Kinds) :
    Kinded t (lookupComputed want) (p :: ks) (want.onto ks) := by
  refine Kinded.append ?_ (kinded_lookupTail want ks)
  have hview {ret : RetTag} (hq : ∀ v : Value, v.Tagged ret → v.Tagged want.tag) :
      Kinded t (plain .lookupViewNamed ret) (p :: ks) ((fun v => v.Tagged want.tag) :: ks) :=
    kinded_turn (.lookupNamed (.inr rfl) hp hq) ks
  have hplain : Kinded t (plain .lookupNamed want.tag) (p :: ks)
      ((fun v => v.Tagged want.tag) :: ks) :=
    kinded_turn (.lookupNamed (.inl rfl) hp fun _ hv => hv) ks
  cases want with
  | anyView | condition => exact hview fun _ hv => hv
  | textView => exact hview fun _ hv => hv
  | code | ident => exact hview fun _ _ => trivial
  | any | int | float | text | head | nothing => exact hplain

theorem kinds_wordCode (hk : k.Sorts) (t : Table) (want : Want) {word : Bytes}
    (hword : word.length < operandLimit) (name : Bytes) :
    Declaring t (wordCode k want word name) fun t' code => ArgKinded t' want code := by
  have hliteral {want : Want} (hw : ∀ ks, want.onto ks = (fun v => ∃ b pc, v = .code b pc) :: ks ∨
      want.onto ks = (fun v : Value => v.text? = none) :: ks) :
      Declaring t (textLiteral k word name) fun t' code => ArgKinded t' want code := by
    refine (kinds_textLiteral hk t hword name 1).mono fun t' code _ hc ks => ?_
    rcases hw ks with hw | hw <;> rw [hw]
    · exact hc _ ks fun b pc => ⟨b, pc, rfl⟩
    · exact hc (fun v => v.text? = none) ks fun _ _ => rfl
  cases want with
  | any =>
      refine .pure ?_
      split
      · exact kinded_null trivial
      · exact kinded_text (fun _ _ => trivial) hword
  | anyView =>
      refine .pure ?_
      split
      · exact kinded_null trivial
      · exact kinded_view (fun _ _ => trivial) hword
  | int => exact .pure (kinded_int (fun n => ⟨n, rfl⟩) _)
  | float => exact .pure (kinded_float (fun x => ⟨x, rfl⟩) _)
  | text => exact .pure (kinded_text (fun kind s => ⟨kind, s, rfl⟩) hword)
  | head => exact .pure (kinded_text (fun _ _ => trivial) hword)
  | textView => exact .pure (kinded_view (fun kind s => ⟨kind, s, rfl⟩) hword)
  | code => exact hliteral fun _ => .inl rfl
  | condition =>
      refine .ite (fun _ => .pure fun ks => ?_) fun _ => hliteral fun _ => .inr rfl
      exact kinded_null (q := Want.Gives .condition) rfl ks
  | ident =>
      refine .after (gives_intern .layout t word) fun t' i _ _ => .pure ?_
      exact kinded_identCode fun i _ => ⟨i, rfl⟩
  | nothing => exact .pure fun _ => .nil

theorem kinds_invalidLookup (hk : k.Sorts) (t : Table) (want : Want) :
    Declaring t (invalidLookup k want) fun t' code => ArgKinded t' want code := by
  have hword : Declaring t (wordCode k want [] []) fun t' code => ArgKinded t' want code :=
    kinds_wordCode hk t want (by decide) []
  cases want with
  | nothing => exact .pure fun _ => .nil
  | any | anyView | head => exact .pure (kinded_null trivial)
  | condition => exact .pure fun ks => kinded_null (q := Want.Gives .condition) rfl ks
  | int | float | text | textView | code | ident => exact hword

private theorem lookupCall_eq (sig : Signature) (self : Nat) (ret : RetTag) :
    lookupCall sig self ret = (lookupArgs sig self).1 ++ [
      if sig.any (· = .all) then .instr (.call .comAll ret (lookupArgs sig self).2 self)
      else if sig.any (· = .joined) then .instr (.call .comJoined ret (lookupArgs sig self).2 self)
      else if sig.any (· = .pressed) then .instr (.plain .comPressed ret self)
      else .instr (.plain .com ret self)] := rfl

/-- The call of a command that is looked up leaves the operands as they are. -/
theorem statementKinded_lookupCall (hd : t.Declares) {sig : Signature} {self : Nat}
    (hf : t.form? .operands self = some (.command sig)) (ret : RetTag) :
    StatementKinded t (lookupCall sig self ret) := by
  obtain ⟨text, htext⟩ := hd self sig hf
  rw [lookupCall_eq]
  rcases (Signature.accepted_of_parse htext).ends with ⟨pre, hp, hsig⟩ | ⟨pre, l, rfl, hl, hp⟩
  · obtain ⟨-, hargs⟩ := declared_lookupArgs (Table.lt_size_of_form? hf) hp
    have hnone {l : Letter} (hl : l.isPlain = false) : pre.any (· = l) = false := by
      rw [List.any_eq_false]
      intro l' hl'
      have := hp l' hl'
      simp only [decide_eq_true_eq]
      rintro rfl
      rw [hl] at this
      cases this
    rcases hsig with rfl | rfl
    · rw [hnone rfl, hnone rfl, hnone rfl]
      exact hargs.called hf hp
    · have hcode : (lookupArgs (pre ++ [.pressed]) self).1 = (lookupArgs pre self).1 := by
        rw [lookupArgs_concat]
        exact List.append_nil _
      have hall : (pre ++ [Letter.pressed]).any (· = .all) = false := by
        rw [List.any_append, hnone rfl]
        rfl
      have hjoined : (pre ++ [Letter.pressed]).any (· = .joined) = false := by
        rw [List.any_append, hnone rfl]
        rfl
      have hpressed : (pre ++ [Letter.pressed]).any (· = .pressed) = true := by simp
      rw [hall, hjoined, hpressed, hcode]
      exact hargs.called_pressed hp hf
  · have hargs : Leaves t (lookupArgs (pre ++ [l]) self).1 (lookupArgs (pre ++ [l]) self).2 := by
      refine leaves_lookupArgs (Table.lt_size_of_form? hf) fun l' hl' => ?_
      rcases List.mem_append.mp hl' with hl' | hl'
      · rcases hp l' hl' with h | ⟨n, rfl⟩
        · exact .inl h
        · exact .inr rfl
      · rw [List.mem_singleton.mp hl']
        cases l with
        | joined | all => exact .inr rfl
        | _ => cases hl
    have hvariadic (sig : Signature) (heq : Form.command (pre ++ [l]) = .command sig) :
        ¬sig.IsFixed := by
      cases heq
      exact not_isFixed_of_takesAll hl
    split
    · exact hargs.called (.inl rfl) hf hvariadic
    · split
      · exact hargs.called (.inr rfl) hf hvariadic
      · rename_i hall hjoined
        cases l with
        | joined => simp at hjoined
        | all => simp at hall
        | _ => cases hl

private theorem argKinded_lookupCommand (hd : t.Declares) {sig : Signature} {self : Nat}
    (hf : t.form? .operands self = some (.command sig)) (want : Want) (prev : Nat) :
    ArgKinded t want (lookupCommand sig self want prev) := by
  have hcall := statementKinded_lookupCall hd hf want.tag
  refine argKinded_tagged fun ks => ?_
  split
  · exact kinded_spill hcall (fun _ hv => hv) ks
  · exact (hcall ks).append (kinded_push (.pushes rfl fun _ hv => hv) ks)

private theorem kinds_lookupNamed (hk : k.Sorts) (t : Table) (name : Bytes) (want : Want)
    (prev : Nat) :
    Declaring t (lookupNamed k name want prev) fun t' code => ArgKinded t' want code := by
  refine .after (gives_intern .layout t name) fun t₁ i _ hi => ?_
  refine (kinds_roleOf hi).bind fun t₂ role _ hf => ?_
  have hpush {op : Op} {ret : RetTag} (hop : op.pushesTagged = true)
      (hq : ∀ v : Value, v.Tagged ret → v.Tagged want.tag) :
      ∀ ks, Kinded t₂ (plain op ret i) ks ((fun v => v.Tagged want.tag) :: ks) :=
    fun ks => kinded_push (.pushes hop hq) ks
  have hview (hq : ∀ v : Value, v.Tagged .text → v.Tagged want.tag) :
      ∀ ks, Kinded t₂ (plain .textVarView .null i) ks ((fun v => v.Tagged want.tag) :: ks) :=
    fun ks => kinded_push (.view hq) ks
  -- Numbers are no texts, so that a condition takes them as they are.
  have hnumber {op : Op} {ret : RetTag} (hop : op.pushesTagged = true) (hret : ret = .int ∨ ret = .float) :
      ArgKinded t₂ want (plain op (want.tagOr ret) i ++
        if want = .condition then [] else lookupTail want) := by
    split
    next hc =>
      subst hc
      rw [List.append_nil]
      intro ks
      refine kinded_push (.pushes hop fun v hv => ?_) ks
      rcases hret with rfl | rfl
      · obtain ⟨n, rfl⟩ := hv
        exact rfl
      · obtain ⟨x, rfl⟩ := hv
        exact rfl
    next => exact argKinded_tagged (hpush hop fun _ => Want.tagged_of_tagOr)
  by_cases hnone : (want = .nothing && (role.isVar || role.isAlias)) = true
  · rw [if_pos hnone]
    simp only [Bool.and_eq_true, decide_eq_true_eq] at hnone
    rw [hnone.1]
    exact .pure fun _ => .nil
  rw [if_neg hnone]
  cases role with
  | intVar => exact .pure (hnumber rfl (.inl rfl))
  | floatVar => exact .pure (hnumber rfl (.inr rfl))
  | textVar =>
      refine .pure (argKinded_tagged ?_)
      cases want with
      | textView => exact hview fun _ hv => hv
      | anyView | code | ident | condition => exact hview fun _ _ => trivial
      | any | int | float | text | head | nothing => exact hpush rfl fun _ => Want.tagged_of_tagOr
  | «alias» =>
      have hslot {op op' : Op} {ret : RetTag} (hop : op.pushesTagged = true)
          (hop' : op'.pushesTagged = true) (hq : ∀ v : Value, v.Tagged ret → v.Tagged want.tag)
          (ks : Kinds) : Kinded t₂ (plain (if i < maxArgs then op else op') ret i) ks
            ((fun v => v.Tagged want.tag) :: ks) := by
        split
        · exact hpush hop hq ks
        · exact hpush hop' hq ks
      refine .pure (argKinded_tagged fun ks => ?_)
      cases want with
      | textView => exact hslot rfl rfl (fun _ hv => hv) ks
      | anyView | condition | code | ident => exact hslot rfl rfl (fun _ _ => trivial) ks
      | any | int | float | text | head | nothing =>
          exact hslot rfl rfl (fun _ => Want.tagged_of_tagOr) ks
  | command sig action =>
      exact .withDeclared fun hd => .pure (argKinded_lookupCommand hd hf want prev)
  | control c => exact kinds_invalidLookup hk t₂ want

private theorem kinds_lookupOne (hk : k.Sorts) (t : Table) (want : Want) (prev : Nat) :
    Declaring t (lookupOne k want prev) fun t' code => ArgKinded t' want code := by
  refine .after (gives_peek .layout t 0) fun t₁ c _ _ => ?_
  refine .ite (fun _ => ?_) fun _ => .ite (fun _ => ?_) fun _ => ?_
  · refine (hk.arg t₁ .textView prev).bind fun t₂ answer _ hname => ?_
    cases answer with
    | none => exact kinds_invalidLookup hk t₂ want
    | some name =>
        exact .pure fun ks => (hname name rfl ks).append
          (kinded_lookupComputed want (fun _ hv => hv) ks)
  · exact .after (gives_cutRaw .layout t₁) fun t₂ name _ _ => kinds_lookupNamed hk t₂ name want prev
  · refine .after (gives_cutWord .layout t₁) fun t₂ name _ _ => ?_
    exact .ite (fun _ => kinds_invalidLookup hk t₂ want) fun _ =>
      kinds_lookupNamed hk t₂ name want prev

private theorem kinds_lookup (hk : k.Sorts) (t : Table) (want : Want) (prev : Nat) :
    Declaring t (lookup k want prev) fun t' code => ArgKinded t' want code := by
  refine .after (gives_cursor .layout t) fun t₁ c _ _ => ?_
  refine .after (gives_advance .layout t₁ _) fun t₂ _ _ _ => ?_
  refine .ite (fun _ => kinds_lookupOne hk t₂ want prev) fun _ => ?_
  refine (kinds_lookupOne hk t₂ .textView prev).bind fun t₃ name _ hname => .pure fun ks => ?_
  have hbetween (n : Nat) : Kinded t₃ (List.replicate n (lookupComputed .textView)).flatten
      (Want.Gives .textView :: ks) (Want.Gives .textView :: ks) := by
    induction n with
    | zero => exact .nil
    | succ n ih => exact (kinded_lookupComputed .textView (fun _ hv => hv) ks).append ih
  exact ((hname ks).append (hbetween _)).append (kinded_lookupComputed want (fun _ hv => hv) ks)

/-- Code that leaves one operand, whatever it is. -/
abbrev OneOperand (t : Table) (code : Code) : Prop := ArgKinded t .anyView code

private theorem kinds_spliceNamed (t : Table) {name : Bytes} (hname : name.length < operandLimit) :
    Declaring t (intern name >>= fun i => roleOf i >>= fun role => match role with
      | .intVar .. => return some (plain .intVar .null i)
      | .floatVar .. => return some (plain .floatVar .null i)
      | .textVar .. => return some (plain .textVarView .null i)
      | .alias => return some (plain (if i < maxArgs then .lookupViewArg else .lookupView) .null i)
      | _ => return some (viewCode name ++ plain .lookupViewNamed)) fun t' answer =>
      ∀ code, answer = some code → OneOperand t' code := by
  have hsome {t : Table} {code : Code} (hc : OneOperand t code) :
      Declaring t (Pure.pure (some code)) fun t' answer =>
        ∀ code, answer = some code → OneOperand t' code :=
    .pure fun _ h => by cases h; exact hc
  have hpush {t : Table} {op : Op} {i : Nat} (hop : op.pushesTagged = true) :
      OneOperand t (plain op .null i) :=
    fun ks => kinded_push (.pushes hop fun _ _ => trivial) ks
  have hcomputed {t : Table} : OneOperand t (viewCode name ++ plain .lookupViewNamed) := by
    intro ks
    refine (kinded_view (q := Value.Tagged .text) (fun kind s => ⟨kind, s, rfl⟩) hname ks).append ?_
    exact kinded_turn (.lookupNamed (.inr rfl) (fun _ hv => hv) fun _ _ => trivial) ks
  refine .after (gives_intern .layout t name) fun t₁ i _ hi => ?_
  refine (kinds_roleOf hi).bind fun t₂ role _ _ => ?_
  cases role with
  | intVar | floatVar => exact hsome (hpush rfl)
  | textVar => exact hsome fun ks => kinded_push (.view fun _ _ => trivial) ks
  | «alias» =>
      refine hsome ?_
      split
      · exact hpush rfl
      · exact hpush rfl
  | command | control => exact hsome hcomputed

private theorem kinds_splice (hk : k.Sorts) (t : Table) (prev : Nat) :
    Declaring t (splice k prev) fun t' answer =>
      ∀ code, answer = some code → OneOperand t' code := by
  refine .after (gives_peek .layout t 0) fun t₁ c _ _ => ?_
  refine .ite (fun _ => hk.arg t₁ .anyView prev) fun _ => .ite (fun _ => ?_) fun _ => ?_
  · refine (hk.arg t₁ .textView prev).bind fun t₂ answer _ hname => .pure fun code hc => ?_
    obtain ⟨name, rfl, rfl⟩ := Option.map_eq_some_iff.mp hc
    exact fun ks => (hname name rfl ks).append (kinded_turn
      (.lookupNamed (.inr rfl) (fun _ hv => hv) fun _ _ => trivial) ks)
  · refine .ite (fun _ => ?_) fun _ => ?_
    · exact .after (gives_cutRaw .layout t₁) fun t₂ name _ hname => kinds_spliceNamed t₂ hname
    · refine .after (gives_cursor .layout t₁) fun t₂ c _ hc => .ite (fun _ => .pure ?_) fun _ => ?_
      · intro code h
        cases h
      · refine .after (gives_advance .layout t₂ _) fun t₃ _ _ _ => kinds_spliceNamed t₃ ?_
        exact Nat.lt_of_le_of_lt (List.takeWhile_sublist _).length_le hc

/-- A block literal in progress leaves an operand for each of its parts. -/
structure Splicing.Kinded (t : Table) (st : Splicing) : Prop where
  source : st.source.length < operandLimit
  leaves : Leaves t st.code st.parts

theorem Splicing.Kinded.mono {t' : Table} {st : Splicing} (hst : st.Kinded t) (ht : t.Names t') :
    st.Kinded t' :=
  ⟨hst.source, hst.leaves.mono ht⟩

theorem Splicing.Kinded.segment {st : Splicing} (hst : st.Kinded t) (rest : Bytes) :
    (st.segment rest).length < operandLimit := by
  have hs := hst.source
  unfold Splicing.segment
  rw [List.length_take]
  omega

theorem Leaves.joined {code : Code} {n : Nat} {ret : RetTag} {q : Value → Prop}
    (h : Leaves t code n) (hq : ∀ v : Value, v.Tagged ret → q v) (ks : Kinds) :
    Compile.Kinded t (code ++ plain .concWord ret n) ks (q :: ks) := by
  obtain ⟨ps, hps, hc⟩ := h
  exact (hc ks).append (kinded_plain (.joins (.inr rfl) hps hq) ks)

theorem leaves_blockTextCode (view : Bool) {s : Bytes} (hs : s.length < operandLimit) :
    Leaves t (blockTextCode view s) 1 :=
  .one (kinded_blockTextCode (q := fun _ => True) view (fun _ _ => trivial) hs)

private theorem kinds_addSplice (hk : k.Sorts) (t : Table) (prev : Nat) {segment : Bytes}
    (hseg : segment.length < operandLimit) {st : Splicing} (hst : st.Kinded t) :
    Declaring t (addSplice k prev segment st) fun t' st' => st'.Kinded t' := by
  obtain ⟨merge, parts, heq, hmerge⟩ : ∃ merge parts,
      (if maxArgs < st.parts + 2 then (plain .concWord .text st.parts, 1) else ([], st.parts)) =
        (merge, parts) ∧ Leaves t (st.code ++ merge) parts := by
    split
    · exact ⟨_, _, rfl, .one (hst.leaves.joined (q := fun _ => True) fun _ _ => trivial)⟩
    · exact ⟨_, _, rfl, (List.append_nil st.code).symm ▸ hst.leaves⟩
  unfold addSplice
  rw [heq]
  refine (kinds_splice hk t _).bind fun t₁ spliced he₁ hs => ?_
  refine .after (gives_cursor .layout t₁) fun t₂ c he₂ hc => .pure ⟨hc, ?_⟩
  have hfront := (hmerge.mono (he₁.trans he₂)).append (leaves_blockTextCode true hseg)
  dsimp only
  cases spliced with
  | none =>
      rw [Option.getD_none, List.append_nil]
      exact hfront
  | some code => exact hfront.append (((hs code rfl).mono he₂).leaves (by decide))

private theorem kinds_readLiteral (hk : k.Sorts) (t : Table) (prev fuel depth : Nat) {st : Splicing}
    (hst : st.Kinded t) :
    Declaring t (readLiteral k prev fuel depth st) fun t' a =>
      a.1.Kinded t' ∧ a.2.length < operandLimit := by
  induction fuel generalizing t depth st with
  | zero => exact .pure ⟨hst, Nat.zero_lt_of_lt hst.source⟩
  | succ fuel ih =>
      refine .after (gives_skipTo .layout t _) fun t₁ _ he₁ _ => ?_
      refine .after (gives_cursor .layout t₁) fun t₂ c he₂ _ => ?_
      replace hst := hst.mono (he₁.trans he₂)
      refine .ite (fun _ => ?_) fun _ => ?_
      · exact .after (gives_warn .layout t₂ _) fun t₃ _ he₃ _ => .pure ⟨hst.mono he₃, hst.source⟩
      refine .after (gives_next .layout t₂) fun t₃ _ he₃ _ => ?_
      replace hst := hst.mono he₃
      refine .ite (fun _ => ?_) fun _ => .ite (fun _ => ?_) fun _ => ?_
      · exact .after (gives_cutStringBody .layout t₃) fun t₄ _ he₄ _ => ih t₄ depth (hst.mono he₄)
      · refine .after (gives_peek .layout t₃ 0) fun t₄ _ he₄ _ => ?_
        replace hst := hst.mono he₄
        refine .ite (fun _ => ?_) fun _ => ih t₄ depth hst
        exact .after (gives_skipTo .layout t₄ _) fun t₅ _ he₅ _ => ih t₅ depth (hst.mono he₅)
      refine .ite (fun _ => ih t₃ _ hst) fun _ => .ite (fun _ => ?_) fun _ => ?_
      · exact .ite (fun _ => .pure ⟨hst, hst.segment _⟩) fun _ => ih t₃ _ hst
      refine .after (gives_cursor .layout t₃) fun t₄ _ he₄ _ => ?_
      refine .after (gives_advance .layout t₄ _) fun t₅ _ he₅ _ => ?_
      replace hst := hst.mono (he₄.trans he₅)
      refine .ite (fun _ => ih t₅ depth hst) fun _ => ?_
      have hsplice {t : Table} (he : t₅.Names t) :
          Declaring t (addSplice k prev (st.segment c.rest) st >>= readLiteral k prev fuel depth)
            fun t' a => a.1.Kinded t' ∧ a.2.length < operandLimit :=
        (kinds_addSplice hk t prev (hst.segment _) (hst.mono he)).bind fun t' st' _ hst' =>
          ih t' depth hst'
      refine .ite (fun _ => ?_) fun _ => hsplice (.refl t₅)
      exact .after (gives_warn .layout t₅ _) fun t₆ _ he₆ _ => hsplice he₆

/-- A block literal without splices. -/
theorem kinds_plainLiteral (hk : k.Sorts) (t : Table) (want : Want) {segment : Bytes}
    (hs : segment.length < operandLimit) (name : Bytes) (line : Nat) :
    Declaring t (plainLiteral k want segment name line) fun t' code => ArgKinded t' want code := by
  have hforce {ret : RetTag} (ks : Kinds) : Kinded t (blockTextCode false segment ++ plain .force ret)
      ks ((fun v => v.Tagged ret) :: ks) :=
    (kinded_blockTextCode (q := fun _ => True) false (fun _ _ => trivial) hs ks).append
      (kinded_turn (.force fun _ hv => hv) ks)
  have hliteral := kinds_textLiteral hk t hs name line
  cases want with
  | nothing => exact .pure fun _ => .nil
  | code => exact hliteral.mono fun _ _ _ hc ks => hc _ ks fun b pc => ⟨b, pc, rfl⟩
  | condition =>
      exact hliteral.mono fun _ _ _ hc ks => hc (Want.Gives .condition) ks fun _ _ => rfl
  | ident =>
      refine .after (gives_noteLiteralName .layout t segment) fun t₁ _ _ _ => ?_
      refine .after (gives_intern .layout t₁ segment) fun t₂ i _ _ => .pure ?_
      exact kinded_identCode fun i _ => ⟨i, rfl⟩
  | textView => exact .pure (kinded_blockTextCode true (fun kind s => ⟨kind, s, rfl⟩) hs)
  | anyView => exact .pure (kinded_blockTextCode true (fun _ _ => trivial) hs)
  | int | float => exact .pure hforce
  | text => exact .pure (kinded_blockTextCode false (fun kind s => ⟨kind, s, rfl⟩) hs)
  | any | head => exact .pure (kinded_blockTextCode false (fun _ _ => trivial) hs)

private theorem kinds_emptyLiteral (hk : k.Sorts) (t : Table) (want : Want) (name : Bytes) :
    Declaring t (emptyLiteral k want name) fun t' code => ArgKinded t' want code := by
  have hword : Declaring t (wordCode k want [] name) fun t' code => ArgKinded t' want code :=
    kinds_wordCode hk t want (by decide) name
  cases want with
  | nothing => exact .pure fun _ => .nil
  | condition => exact .pure fun ks => kinded_null (q := Want.Gives .condition) rfl ks
  | code => exact .pure fun ks => kinded_blockLiteral .nil (fun b pc => ⟨b, pc, rfl⟩) ks
  | ident => exact .pure (kinded_identCode fun i _ => ⟨i, rfl⟩)
  | textView => exact .pure (kinded_view (fun kind s => ⟨kind, s, rfl⟩) (by decide))
  | anyView => exact .pure (kinded_view (fun _ _ => trivial) (by decide))
  | text => exact .pure (kinded_text (fun kind s => ⟨kind, s, rfl⟩) (by decide))
  | any | head => exact .pure (kinded_text (fun _ _ => trivial) (by decide))
  | int | float => exact hword

/-- A block literal: its parts are joined, in place or by themselves. -/
theorem kinds_blockLiteral (hk : k.Sorts) (t : Table) (want : Want) (prev : Nat) :
    Declaring t (blockLiteral k want prev) fun t' code => ArgKinded t' want code := by
  refine .after (gives_cursor .layout t) fun t₁ c₁ _ _ => ?_
  refine .after (gives_cursor .layout t₁) fun t₂ c₂ _ _ => ?_
  refine .after (gives_cursor .layout t₂) fun t₃ c₃ _ hc => ?_
  have hstart : Splicing.Kinded t₃ { source := c₃.rest } := ⟨hc, .nil⟩
  refine (kinds_readLiteral hk t₃ prev _ 1 hstart).bind fun t₄ a _ ha => ?_
  obtain ⟨st, segment⟩ := a
  obtain ⟨hst, hseg⟩ := ha
  refine .ite (fun _ => ?_) fun _ => ?_
  · exact .ite (fun _ => kinds_emptyLiteral hk t₄ want _) fun _ =>
      kinds_plainLiteral hk t₄ want hseg _ _
  obtain ⟨last, parts, heq, hall⟩ : ∃ last parts,
      (if segment.isEmpty then ([], st.parts) else (blockTextCode true segment, st.parts + 1)) =
        (last, parts) ∧ Leaves t₄ (st.code ++ last) parts := by
    split
    · exact ⟨_, _, rfl, (List.append_nil st.code).symm ▸ hst.leaves⟩
    · exact ⟨_, _, rfl, hst.leaves.append (leaves_blockTextCode true hseg)⟩
  rw [heq]
  refine .pure (argKinded_tagged fun ks => ?_)
  split
  · refine kinded_spill ?_ (fun _ hv => hv) ks
    exact hall.taken fun ps hps ks => kinded_plain (.joinsResult hps) ks
  · exact hall.joined (fun _ hv => hv) ks

private theorem kinds_group (hk : k.Sorts) (t : Table) (want : Want) (prev : Nat) :
    Declaring t (group k want prev) fun t' code => ArgKinded t' want code := by
  refine .after (gives_cursor .layout t) fun t₁ c _ _ => .ite (fun _ => ?_) fun _ => ?_
  · refine (kinds_statements hk t₁ _ _ 0).bind fun t₂ inner _ hinner => .pure ?_
    exact argKinded_tagged (kinded_spill hinner fun _ hv => hv)
  · refine (kinds_statements hk t₁ _ _ prev).bind fun t₂ inner _ hinner => ?_
    refine .ite (fun _ => kinds_wordCode hk t₂ want (by decide) _) fun _ => .pure ?_
    exact argKinded_tagged fun ks =>
      (hinner ks).append (kinded_push (.pushes rfl fun _ hv => hv) ks)

private theorem kinds_stringArg (hk : k.Sorts) (t : Table) (want : Want) :
    Declaring t (stringArg k want) fun t' code => ArgKinded t' want code := by
  refine .after (gives_cursor .layout t) fun t₁ c _ _ => ?_
  refine .after (gives_cutString .layout t₁) fun t₂ s _ hs => ?_
  have hword : Declaring t₂ (wordCode k want s c.name) fun t' code => ArgKinded t' want code :=
    kinds_wordCode hk t₂ want hs _
  cases want with
  | any => exact .pure (kinded_text (fun _ _ => trivial) hs)
  | text => exact .pure (kinded_text (fun kind s => ⟨kind, s, rfl⟩) hs)
  | anyView => exact .pure (kinded_view (fun _ _ => trivial) hs)
  | textView => exact .pure (kinded_view (fun kind s => ⟨kind, s, rfl⟩) hs)
  | int | float | code | condition | ident | head | nothing => exact hword

/-- One argument. -/
theorem kinds_argument (hk : k.Sorts) (t : Table) (want : Want) (prev : Nat) :
    Declaring t (argument k want prev) fun t' answer =>
      ∀ code, answer = some code → ArgKinded t' want code := by
  have hsome {t : Table} {m : CompileM Code}
      (hm : Declaring t m fun t' code => ArgKinded t' want code) :
      Declaring t (m >>= fun code => Pure.pure (some code)) fun t' answer =>
        ∀ code, answer = some code → ArgKinded t' want code :=
    hm.bind fun _ _ _ hc => .pure fun _ h => by cases h; exact hc
  refine .after (gives_skipComments .layout t) fun t₁ _ _ _ => ?_
  refine .after (gives_peek .layout t₁ 0) fun t₂ _ _ _ => ?_
  refine .ite (fun _ => hsome (kinds_stringArg hk t₂ want)) fun _ => ?_
  refine .ite (fun _ => hsome (kinds_lookup hk t₂ want prev)) fun _ => ?_
  refine .ite (fun _ => ?_) fun _ => .ite (fun _ => ?_) fun _ => ?_
  · exact .after (gives_advance .layout t₂ 1) fun t₃ _ _ _ => hsome (kinds_group hk t₃ want prev)
  · exact .after (gives_advance .layout t₂ 1) fun t₃ _ _ _ =>
      hsome (kinds_blockLiteral hk t₃ want prev)
  · refine .after (gives_cursor .layout t₂) fun t₃ c _ _ => ?_
    refine .after (gives_cutWord .layout t₃) fun t₄ word _ hword => ?_
    refine .ite (fun _ => .pure ?_) fun _ => hsome (kinds_wordCode hk t₄ want hword _)
    intro code h
    cases h

private theorem kinds_firstWord (hk : k.Sorts) (t : Table) (prev : Nat) :
    Declaring t (firstWord k prev) fun t' answer =>
      ∀ head, answer = some head → HeadKinded t' head := by
  refine .after (gives_skipComments .layout t) fun t₁ _ _ _ => ?_
  refine .after (gives_peek .layout t₁ 0) fun t₂ _ _ _ => ?_
  refine .ite (fun _ => ?_) fun _ => .ite (fun _ => ?_) fun _ => ?_
  · refine .after (gives_cutString .layout t₂) fun t₃ s _ hs => .pure fun head hh => ?_
    cases hh
    split
    · exact kinded_view (fun _ _ => trivial) (by decide)
    · exact hs
  · refine (kinds_argument hk t₂ .head prev).bind fun t₃ answer _ ha => .pure fun head hh => ?_
    obtain ⟨code, rfl, rfl⟩ := Option.map_eq_some_iff.mp hh
    exact ha code rfl
  · refine .after (gives_cutWord .layout t₂) fun t₃ word _ hword => ?_
    refine .ite (fun _ => .pure ?_) fun _ => .pure fun head hh => ?_
    · intro head h
      cases h
    · cases hh
      exact hword

private theorem nested_sorts (levels : Nat) : (nested levels).Sorts := by
  induction levels with
  | zero => exact ⟨fun _ _ _ => .pure (by simp), fun _ _ => .pure (by simp)⟩
  | succ levels ih => exact ⟨kinds_argument ih, kinds_firstWord ih⟩

theorem program_kinded {t : Table} (hf : t.Founded .layout) (hd : t.Declares) {src : Bytes}
    (hs : src.length < operandLimit) (name : Bytes) :
    StatementKinded (program t src name).2.table (program t src name).1 := by
  obtain ⟨-, -, hcode⟩ := kinds_statements (nested_sorts (src.length + 4)) t false 0 0 hf hd
    { cursor := { rest := src, name }, table := t } rfl hs
  exact hcode

end ConsoleScript.Compile
