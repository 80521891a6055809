import ConsoleScript.Proofs.Compile.KindedCalls

/-!
What the code of statements makes of what is known of the operands: nothing. Whatever its operands
are, a statement takes those that it pushes and leaves the ones below them.
-/

namespace ConsoleScript.Compile

open Bytecode

variable {k : Nested} {t : Table} {self prev : Nat}

theorem Leaves.dropped {code : Code} {n m : Nat} {op : Op} {ret : RetTag} (h : Leaves t code n)
    (hop : op.drops? = some n) : StatementKinded t (code ++ plain op ret m) :=
  h.taken fun _ hps ks => kinded_drops hop hps ks

theorem statementKinded_plain {op : Op} {ret : RetTag} {m : Nat} (hop : op.drops? = some 0) :
    StatementKinded t (plain op ret m) :=
  by
  have hdrops : Shift t op ret m [] [] := .drops hop
  exact fun ks => kinded_plain hdrops ks

theorem ArgKinded.body {want : Want} {body : Code} (h : ArgKinded t want [.block body]) :
    Kinded t body [] [] := by
  cases h [] with
  | block hb _ _ => exact hb

theorem ArgKinded.literalBody {want : Want} {code body : Code} (h : ArgKinded t want code)
    (hb : literalBody? code = some body) : Kinded t body [] [] := by
  rw [literalBody?_eq hb] at h
  exact h.body

theorem kinds_takeOne (hk : k.Sorts) (t : Table) {want : Want} (hw : want ≠ .nothing) {op : Op}
    (hop : op.drops? = some 1) {n : Nat} {missing : Code} (hm : ∀ t, StatementKinded t missing) :
    Declaring t (do
      match ← k.arg want prev with
      | none => return (missing, false)
      | some code => return (code ++ plain op .null n, true)) fun t' a =>
        StatementKinded t' a.1 := by
  refine (hk.arg t want prev).bind fun t' answer _ ha => ?_
  cases answer with
  | none => exact .pure (hm t')
  | some code => exact .pure (((ha code rfl).leaves hw).dropped hop)

private theorem kinds_assignment (hk : k.Sorts) (t : Table) {head : Head}
    (hhead : HeadKinded t head)
    (prev : Nat) : Declaring t (assignment k head prev) fun t' a => StatementKinded t' a.1 := by
  have htext {want : Want} (hw : want.Gives = Value.Tagged .text ∨ want.Gives = Value.Tagged .null)
      (h : want ≠ .nothing) (t : Table) : ArgKinded t want (textCode []) := by
    intro ks
    rw [Want.onto_eq h]
    refine kinded_text (fun kind s => ?_) (by decide) ks
    rcases hw with hw | hw <;> rw [hw]
    · exact ⟨kind, s, rfl⟩
    · trivial
  have hbyName {t : Table} {push : Code} (hpush : Leaves t push 1) :
      Declaring t (argOr k .any (prev + 1) (textCode []) >>= fun a =>
        Pure.pure (push ++ a.1 ++ plain .aliasNamed, a.2)) fun t' (a : Statement) =>
          StatementKinded t' a.1 := by
    refine (kinds_argOr hk t .any _ (htext (.inr rfl) (by decide))).bind fun t' a he ha => .pure ?_
    exact ((hpush.mono he).append (ha.leaves (by decide))).dropped rfl
  have hwrite {t : Table} {want : Want} {missing : Code} {op : Op} {i : Nat}
      (hw : want ≠ .nothing) (hm : ∀ t, ArgKinded t want missing) (hop : op.drops? = some 1) :
      Declaring t (argOr k want prev missing >>= fun a =>
        Pure.pure (a.1 ++ plain op .null i, a.2)) fun t' (a : Statement) =>
          StatementKinded t' a.1 :=
    (kinds_argOr hk t want prev hm).bind fun t' a _ ha => .pure ((ha.leaves hw).dropped hop)
  cases head with
  | computed push => exact hbyName (ArgKinded.leaves hhead (by decide))
  | bare name =>
      refine .after (gives_intern .layout t name) fun t₁ i _ hi => ?_
      refine (kinds_roleOf hi).bind fun t₂ role _ _ => ?_
      cases role with
      | «alias» =>
          dsimp only
          split
          · exact hwrite (by decide) (htext (.inr rfl) (by decide)) rfl
          · exact hwrite (by decide) (htext (.inr rfl) (by decide)) rfl
      | intVar =>
          exact hwrite (by decide) (fun _ ks => kinded_int (fun n => ⟨n, rfl⟩) 0 ks) rfl
      | floatVar =>
          exact hwrite (by decide) (fun _ ks => kinded_float (fun x => ⟨x, rfl⟩) _ ks) rfl
      | textVar => exact hwrite (by decide) (htext (.inl rfl) (by decide)) rfl
      | command | control =>
          exact hbyName (.one fun ks => kinded_view (q := fun _ => True) (fun _ _ => trivial) hhead ks)

private theorem kinds_branch (hk : k.Sorts) (t : Table)
    (hf : t.form? .operands self = some (.control .branch))
    (prev : Nat) : Declaring t (branch k self prev) fun t' a => StatementKinded t' a.1 := by
  refine (hk.arg t .anyView prev).bind fun t₁ answer he₁ hcond => ?_
  cases answer with
  | none => exact .pure (statementKinded_plain rfl)
  | some cond =>
  have hcond := (hcond cond rfl)
  refine (hk.arg t₁ .code (prev + 1)).bind fun t₂ answer he₂ hyes => ?_
  replace hcond := hcond.mono he₂
  cases answer with
  | none =>
      exact .pure (((hcond.leaves (by decide)).dropped rfl).append (statementKinded_plain rfl))
  | some yes =>
  replace hyes := hyes yes rfl
  have hcalled {t : Table} {cond yes no : Code} (hcond : ArgKinded t .anyView cond)
      (hyes : ArgKinded t .code yes) (hno : ArgKinded t .code no)
      (hf : t.form? .operands self = some (.control .branch)) :
      StatementKinded t (cond ++ yes ++ no ++ plain .com .null self) := by
    have hthree := ((hcond.leaves (by decide)).append (hyes.leaves (by decide))).append
      (hno.leaves (by decide))
    refine hthree.taken fun ps hps ks => kinded_plain (.com hf hps ?_) ks
    intro sig heq
    cases heq
  refine (hk.arg t₂ .code (prev + 2)).bind fun t₃ answer he₃ hno => ?_
  have hself := (he₁.trans (he₂.trans he₃)).extends .operands _ _ hf
  replace hcond := hcond.mono he₃
  replace hyes := hyes.mono he₃
  cases answer with
  | none =>
      dsimp only
      cases hb : literalBody? yes with
      | some body =>
          refine .pure fun ks => (hcond ks).append (.whenTrue (hyes.literalBody hb) .nil)
      | none =>
          refine .pure (hcalled hcond hyes ?_ hself)
          exact fun ks => kinded_blockLiteral .nil (fun b pc => ⟨b, pc, rfl⟩) ks
  | some no =>
      replace hno := hno no rfl
      dsimp only
      cases hy : literalBody? yes with
      | some bodyYes =>
          cases hn : literalBody? no with
          | some bodyNo =>
              exact .pure fun ks => (hcond ks).append
                (.choice (hyes.literalBody hy) (hno.literalBody hn) .nil)
          | none => exact .pure (hcalled hcond hyes hno hself)
      | none =>
          cases hn : literalBody? no with
          | none => exact .pure (hcalled hcond hyes hno hself)
          | some bodyNo =>
              refine .pure ?_
              split
              · exact fun ks => (hcond ks).append (.whenFalse (hno.literalBody hn) .nil)
              · exact hcalled hcond hyes hno hself

private theorem kinds_takeLiterals (hk : k.Sorts) (t : Table) (prev left given : Nat) :
    Declaring t (takeLiterals k prev left given) fun t' a =>
      (∀ body ∈ a.1, Kinded t' body [] []) ∧
        ∃ m, a.2.2.1 = given + m ∧ Leaves t' (a.1.map .block ++ a.2.1.getD []) m := by
  induction left generalizing t given with
  | zero => exact .pure ⟨by simp, 0, rfl, .nil⟩
  | succ left ih =>
      refine (hk.arg t .condition (prev + given)).bind fun t' answer _ harg => ?_
      cases answer with
      | none => exact .pure ⟨by simp, 0, rfl, .nil⟩
      | some code =>
          replace harg := harg code rfl
          dsimp only
          cases hb : literalBody? code with
          | none => exact .pure ⟨by simp, 1, rfl, harg.leaves (by decide)⟩
          | some body =>
              have hbody := harg.literalBody hb
              rw [literalBody?_eq hb] at harg
              refine (ih t' (given + 1)).bind fun t'' a he ha => ?_
              obtain ⟨hbodies, m, hn, hrest⟩ := ha
              refine .pure ⟨List.forall_mem_cons.mpr ⟨hbody.mono (he.extends _), hbodies⟩, 1 + m, ?_, ?_⟩
              · exact hn.trans (Nat.add_assoc ..)
              · exact ((harg.mono he).leaves (by decide)).append hrest

private theorem kinded_chain (op : Op) (hop : op.drops? = some 1) {bodies : List Code}
    (hb : ∀ body ∈ bodies, Kinded t body [] []) (p : Value → Prop) (ks : Kinds) :
    Kinded t [chain op bodies] (p :: ks) ks := by
  induction bodies generalizing p with
  | nil => exact kinded_drop hop ks
  | cons body rest ih =>
      obtain ⟨hbody, hrest⟩ := List.forall_mem_cons.mp hb
      exact .link hbody (ih hrest _) .nil

private theorem kinds_connective (hk : k.Sorts) (t : Table) (isAnd : Bool) {c : Control}
    (hf : t.form? .operands self = some (.control c)) (prev : Nat) :
    Declaring t (connective k isAnd self prev) fun t' a => StatementKinded t' a.1 := by
  refine (hk.arg t .condition prev).bind fun t₁ answer he₁ hfirst => ?_
  cases answer with
  | none =>
      refine .pure (statementKinded_plain ?_)
      split <;> rfl
  | some first =>
      replace hfirst := hfirst first rfl
      refine (kinds_takeLiterals hk t₁ prev (maxArgs - 1) 1).bind fun t₂ a he₂ ha => ?_
      obtain ⟨bodies, other, n, more⟩ := a
      obtain ⟨hbodies, m, hn, hpushed⟩ := ha
      have hfirst₂ := hfirst.mono he₂
      refine .ite (fun _ => ?_) fun _ => ?_
      · refine (kinds_takeArgs hk t₂ (by decide) prev (maxArgs - n) n).bind fun t₃ a he₃ ha => .pure ?_
        obtain ⟨m', hn', hrest⟩ := ha
        have hall := (((hfirst₂.leaves (by decide)).append hpushed).mono he₃).append hrest
        have hcount : 1 + m + m' = a.2.1 := by
          dsimp only at hn
          omega
        rw [hcount] at hall
        refine hall.called (.inl rfl) ((he₁.trans (he₂.trans he₃)).extends .operands _ _ hf) ?_
        intro sig heq
        cases heq
      · refine .pure fun ks => (hfirst₂ ks).append (kinded_chain _ ?_ hbodies _ ks)
        split <;> rfl

private theorem kinds_control (hk : k.Sorts) (t : Table) {c : Control}
    (hf : t.form? .operands self = some (.control c)) (prev : Nat) :
    Declaring t (control k c self prev) fun t' a => StatementKinded t' a.1 := by
  have hnull (t : Table) : StatementKinded t (plain .null) := statementKinded_plain rfl
  cases c with
  | «local» =>
      refine (kinds_takeArgs hk t (by decide) prev maxArgs 0).bind fun t' a _ ha => ?_
      obtain ⟨m, hn, ps, hps, hnames⟩ := ha
      refine (kinds_surplusArgs hk t' a.2.2 prev).bind fun t'' surplus he hsurplus => ?_
      have hlength : ps.length = a.2.1 := by omega
      exact .pure fun ks =>
        .shadow ((hnames ks).mono (he.extends _)) (hsurplus (ps ++ ks)) hlength .nil
  | run | runOuter | result => exact kinds_takeOne hk t (by decide) rfl hnull
  | branch => exact kinds_branch hk t hf prev
  | not => exact kinds_takeOne hk t (by decide) rfl fun _ => statementKinded_plain rfl
  | and => exact kinds_connective hk t true hf prev
  | or => exact kinds_connective hk t false hf prev

private theorem kinds_intVarStatement (hk : k.Sorts) (t : Table) (hex : Bool) (self prev : Nat) :
    Declaring t (intVarStatement k hex self prev) fun t' a => StatementKinded t' a.1 := by
  refine (hk.arg t .int prev).bind fun t₁ answer _ ha => ?_
  cases answer with
  | none => exact .pure (statementKinded_plain rfl)
  | some a =>
  replace ha := (ha a rfl).leaves (by decide)
  refine .ite (fun _ => .pure (ha.dropped rfl)) fun _ => ?_
  refine (hk.arg t₁ .int (prev + 1)).bind fun t₂ answer he₂ hb => ?_
  replace ha := ha.mono he₂
  cases answer with
  | none => exact .pure (ha.dropped rfl)
  | some b =>
  replace hb := ha.append ((hb b rfl).leaves (by decide))
  refine (hk.arg t₂ .int (prev + 2)).bind fun t₃ answer he₃ hc => ?_
  replace hb := hb.mono he₃
  cases answer with
  | none => exact .pure (hb.dropped rfl)
  | some c => exact .pure ((hb.append ((hc c rfl).leaves (by decide))).dropped rfl)

private theorem kinds_textVarStatement (hk : k.Sorts) (t : Table) (self prev : Nat) :
    Declaring t (textVarStatement k self prev) fun t' a => StatementKinded t' a.1 := by
  refine (hk.arg t .textView prev).bind fun t₁ answer _ ha => ?_
  cases answer with
  | none => exact .pure (statementKinded_plain rfl)
  | some a =>
      refine (kinds_takeArgs hk t₁ (by decide) prev (maxArgs - 1) 1).bind fun t₂ b he hb => .pure ?_
      obtain ⟨rest, n, more⟩ := b
      obtain ⟨m, hn, hrest⟩ := hb
      dsimp only at hn hrest
      have hargs := (((ha a rfl).mono he).leaves (by decide)).append hrest
      refine Leaves.dropped ?_ (n := 1) rfl
      split
      next =>
        refine ⟨[fun v => v.Tagged .text], rfl, fun ks => ?_⟩
        obtain ⟨ps, hps, hc⟩ := hargs
        exact (hc ks).append (kinded_plain (.joins (.inl rfl) (by omega) fun _ hv => hv) ks)
      next hone =>
        have hm : m = 0 := by
          dsimp only at hone
          omega
        subst hm
        rw [List.append_nil]
        exact hargs

private theorem statementKinded_number (view : Bool) {name : Bytes}
    (hname : name.length < operandLimit) :
    StatementKinded t (numberStatement view name) := by
  unfold numberStatement
  generalize Reading.uint64 name = x
  refine Leaves.dropped (n := 1) ?_ rfl
  split
  · exact .one (kinded_int (q := fun _ => True) (fun _ => trivial) _)
  · split
    · exact .one (kinded_view (q := fun _ => True) (fun _ _ => trivial) hname)
    · exact .one (kinded_text (q := fun _ => True) (fun _ _ => trivial) hname)

/-- A call of a bare word. -/
theorem kinds_callBare (hk : k.Sorts) (t : Table) (view : Bool) {name : Bytes}
    (hname : name.length < operandLimit) (prev : Nat) :
    Declaring t (callBare k view name prev) fun t' a => StatementKinded t' a.1 := by
  refine .after (gives_get .layout t (P := fun t' s => s.table = t') fun _ hs _ => hs)
    fun t' s _ hs => ?_
  rw [hs]
  cases hl : t'.lookup? name with
  | none =>
      refine .ite (fun _ => .pure (statementKinded_number view hname)) fun _ => ?_
      refine kinds_callComputed hk t' (.one (q := fun _ => True) ?_) prev
      exact kinded_view (fun _ _ => trivial) hname
  | some found =>
      obtain ⟨i, id⟩ := found
      have hf : t'.form? .operands i = some (id.role.form .operands) :=
        Table.form?_of_get? (Table.get?_of_lookup? hl)
      dsimp only
      cases hrole : id.role with
      | «alias» =>
          refine (kinds_takeArgs hk t' (by decide) prev maxArgs 0).bind fun t'' a he ha => .pure ?_
          obtain ⟨args, n, more⟩ := a
          obtain ⟨m, hn, hargs⟩ := ha
          dsimp only at hn hargs
          rw [Nat.zero_add] at hn
          refine hargs.taken fun ps hps ks => .call ?_ (hps.trans hn.symm) .nil
          split
          · exact .inr (.inl rfl)
          · exact .inl rfl
      | command sig action =>
          rw [hrole] at hf
          have hself : t'.form? .operands i = some (.command sig) := hf
          refine .withDeclared fun hd => ?_
          obtain ⟨text, htext⟩ := hd i sig hself
          have haccepted := Signature.accepted_of_parse htext
          rcases haccepted.ends with ⟨pre, hp, hsig⟩ | ⟨pre, l, rfl, hl, hp⟩
          · refine kinds_commandArgs_fixed hk hp hsig hself (Nat.zero_le _) ?_ rfl rfl rfl ?_
            · have := Nat.le_mul_of_pos_right (sig.length + 2) (show 0 < maxArgs + 2 by decide)
              omega
            · exact ⟨[], by simp, fun _ => .nil, fun vs hvs => by cases hvs; exact .nil⟩
          · refine kinds_commandArgs_variadic hk hp hl haccepted hself (Nat.zero_le _) ?_ .nil
            have hexpand : ((pre ++ [l]).length + 2) * (maxArgs + 2) =
                maxArgs * ((pre ++ [l]).length + 2) + 2 * ((pre ++ [l]).length + 2) := by
              rw [Nat.mul_comm, Nat.add_mul]
            have hleft : Signature.lettersLeft (pre ++ [l]).length 0 maxArgs ≤
                ((pre ++ [l]).length + 2) * (maxArgs + 2) := by
              unfold Signature.lettersLeft
              split <;> omega
            exact hleft
      | control c =>
          rw [hrole] at hf
          exact kinds_control hk t' hf prev
      | intVar => exact kinds_intVarStatement hk t' _ i prev
      | floatVar => exact kinds_takeOne hk t' (by decide) rfl fun _ => statementKinded_plain rfl
      | textVar => exact kinds_textVarStatement hk t' i prev

/-- A statement leaves the operands below it as they are. -/
theorem kinds_statement (hk : k.Sorts) (t : Table) (view : Bool) (prev : Nat) :
    Declaring t (statement k view prev) fun t' a => StatementKinded t' a.1 := by
  refine (hk.head t prev).bind fun t₁ answer _ hhead => ?_
  cases answer with
  | none => exact .pure .nil
  | some head =>
      replace hhead := hhead head rfl
      refine .after (gives_skipComments .layout t₁) fun t₂ _ he₂ _ => ?_
      refine .after (gives_cursor .layout t₂) fun t₃ c he₃ _ => ?_
      have hhead : HeadKinded t₃ head := hhead.mono (he₂.trans he₃)
      refine .ite (fun _ => ?_) fun _ => ?_
      · refine .after (gives_advance .layout t₃ 1) fun t₄ _ he₄ _ => ?_
        exact kinds_assignment hk t₄ (hhead.mono he₄) prev
      · cases head with
        | computed push =>
            exact kinds_callComputed hk t₃ (ArgKinded.leaves hhead (by decide)) prev
        | bare name => exact kinds_callBare hk t₃ view hhead prev

private theorem kinds_statementsFrom (hk : k.Sorts) (t : Table) (view : Bool) (closing : UInt8)
    (prev fuel : Nat) :
    Declaring t (statementsFrom k view closing prev fuel) StatementKinded := by
  induction fuel generalizing t with
  | zero => exact .pure .nil
  | succ fuel ih =>
      refine (kinds_statement hk t view prev).bind fun t₁ a _ ha => ?_
      refine .after (gives_cursor .layout t₁) fun t₂ c he₂ _ => ?_
      refine (kinds_surplusArgs hk t₂ a.2 prev).bind fun t₃ surplus he₃ hsurplus => ?_
      refine .after (gives_endOfStatement .layout t₃ closing _) fun t₄ ended he₄ _ => ?_
      have hboth : StatementKinded t₄ (a.1 ++ surplus) :=
        (ha.mono (he₂.trans (he₃.trans he₄))).append (hsurplus.mono he₄)
      refine .ite (fun _ => .pure hboth) fun _ => ?_
      exact (ih t₄).bind fun t₅ rest he₅ hrest => .pure ((hboth.mono he₅).append hrest)

theorem kinds_statements (hk : k.Sorts) (t : Table) (view : Bool) (closing : UInt8) (prev : Nat) :
    Declaring t (statements k view closing prev) StatementKinded :=
  .after (gives_cursor .layout t) fun t' _ _ _ => kinds_statementsFrom hk t' view closing prev _

theorem kinds_textLiteral (hk : k.Sorts) (t : Table) {text : Bytes}
    (htext : text.length < operandLimit) (name : Bytes) (line : Nat) :
    Declaring t (textLiteral k text name line) fun t' code =>
      ∀ (q : Value → Prop) (ks : Kinds), (∀ b pc, q (.code b pc)) → Kinded t' code ks (q :: ks) := by
  refine (Declaring.withText htext name line (kinds_statements hk t false 0 0)).bind
    fun t' body _ hbody => .pure fun q ks hq => ?_
  exact kinded_blockLiteral (hbody []) hq ks

end ConsoleScript.Compile
