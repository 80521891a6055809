import ConsoleScript.Proofs.Compile.Calls

/-!
The code of statements. Every form of a statement leaves the operands below it as they are: what it
pushes it also takes, the branches of control words are run by themselves, and arguments that are
left on the line are dropped.
-/

namespace ConsoleScript.Compile

open Bytecode

variable {r : Rigour} {k : Nested} {prev : Nat}

theorem ArgTyped.take {t : Table} {want : Want} {code : Code} {op : Op} {ret : RetTag} {n : Nat}
    (hp : prev < maxResults) (hc : ArgTyped r t want prev code) (hw : want.leaves = 1)
    (hi : Plain r t op n 1 0) : StatementTyped r t prev (code ++ plain op ret n) := by
  intro h hu
  have hroom : r.Roomy h 1 := (hu.roomy hp).le (Nat.le_add_left 1 maxArgs)
  have hone := hc h hu hroom
  rw [hw] at hone
  exact hone.append (typed_plain hi (.drop 1 hroom))

theorem statementTyped_plain {t : Table} {op : Op} {ret : RetTag} {n : Nat} (hp : prev < maxResults)
    (hi : Plain r t op n 0 0) : StatementTyped r t prev (plain op ret n) :=
  fun _ hu => typed_plain hi (.stay ((hu.roomy hp).le (Nat.zero_le _)))

private theorem gives_takeOne (hk : k.Serves r) (t : Table) (hp : prev < maxResults) {want : Want}
    (hw : want.leaves = 1) {op : Op} (hi : ∀ t, Plain r t op 0 1 0) {missing : Code}
    (hm : ∀ t, StatementTyped r t prev missing) :
    Gives r t (do
      match ← k.arg want prev with
      | none => return (missing, false)
      | some code => return (code ++ plain op, true)) fun t' a => StatementTyped r t' prev a.1 := by
  refine (hk.arg t want prev).bind fun t' answer _ harg => ?_
  cases answer with
  | none => exact .pure (hm t')
  | some code => exact .pure ((harg code rfl).take hp hw (hi t'))

private theorem gives_assignment (hk : k.Serves r) (t : Table) (hp : prev < maxResults)
    {head : Head}
    (hhead : HeadTyped r t prev head) :
    Gives r t (assignment k head prev) fun t' a => StatementTyped r t' prev a.1 := by
  have htext {want : Want} (hw : want.leaves = 1) :
      ∀ t h, r.Roomy h 1 → Typed r t (textCode []) h (h + want.leaves) :=
    fun _ _ hh => hw ▸ typed_text (by decide) hh
  have hbyName {t : Table} {push : Code} (hpush : ArgTyped r t .any prev push) :
      Gives r t (argOr k .any (prev + 1) (textCode []) >>= fun a =>
          Pure.pure (push ++ a.1 ++ plain .aliasNamed, a.2)) fun t' a =>
        StatementTyped r t' prev a.1 := by
    refine (gives_argOr hk t .any (prev + 1) (htext rfl)).bind fun t' a he ha => ?_
    refine .pure fun h hu => ?_
    have hroom : r.Roomy h 2 := (hu.roomy hp).le (by decide)
    have hfirst := (hpush h hu (hroom.le (by decide))).mono he
    have hsecond := ha (h + 1) (hu.add 1) (Rigour.Roomy.above hroom)
    exact (hfirst.append hsecond).append (typed_plain .aliasNamed (.drop 2 hroom))
  cases head with
  | computed push => exact hbyName hhead
  | bare name =>
      refine (gives_intern r t name).bind fun t' i _ hi => ?_
      refine (gives_roleOf r t' hi).bind fun t' role _ hf => ?_
      cases role with
      | «alias» =>
          refine (gives_argOr hk t' .any prev (htext rfl)).bind fun t'' a he ha => .pure ?_
          refine ArgTyped.take hp ha rfl ?_
          split
          · exact .aliasArg ‹_›
          · exact .alias (he _ _ hf) (Nat.le_of_not_lt ‹_›)
      | intVar =>
          refine (gives_argOr hk t' .int prev fun _ _ hh => typed_int 0 hh).bind
            fun t'' a he ha => .pure ?_
          exact ha.take hp rfl (.setIntVar (he _ _ hf))
      | floatVar =>
          refine (gives_argOr hk t' .float prev fun _ _ hh => typed_float _ hh).bind
            fun t'' a he ha => .pure ?_
          exact ha.take hp rfl (.setFloatVar (he _ _ hf))
      | textVar =>
          refine (gives_argOr hk t' .textView prev (htext rfl)).bind fun t'' a he ha => .pure ?_
          exact ArgTyped.take hp ha rfl (.setTextVar (he _ _ hf))
      | command | control => exact hbyName fun h _ hh => typed_view hhead hh

theorem literalBody?_eq {code body : Code} (h : literalBody? code = some body) :
    code = [.block body] := by
  unfold literalBody? at h
  split at h
  · cases h
    rfl
  · cases h

theorem ArgTyped.body {t : Table} {want : Want} {code body : Code} (hc : ArgTyped r t want prev code)
    (hb : literalBody? code = some body) : Typed r t body 0 0 := by
  have h0 := hc 0 Rigour.under_zero (Rigour.roomy_zero (by decide))
  rw [literalBody?_eq hb] at h0
  exact h0.body

/-- A branch takes its condition; its bodies are run by themselves or passed to the control word. -/
theorem gives_branch (hk : k.Serves r) (t : Table) (hp : prev < maxResults) {self : Nat}
    (hf : t.form? r self = some (.control .branch)) :
    Gives r t (branch k self prev) fun t' a => StatementTyped r t' prev a.1 := by
  have hroom {h : Nat} (hu : r.Under h prev) : r.Roomy h 3 := (hu.roomy hp).le (by decide)
  have hcom {t' : Table} {h : Nat} (he : t.Extends r t') (hu : r.Under h prev) :
      Typed r t' (plain .com .null self) (h + 3) h :=
    typed_plain (.com (he _ _ hf) fun _ => by decide) (.drop 3 (hroom hu))
  refine (hk.arg t .anyView prev).bind fun t₁ answer he₁ hcond => ?_
  cases answer with
  | none => exact .pure (statementTyped_plain hp .null)
  | some cond =>
  replace hcond {h : Nat} (hu : r.Under h prev) : Typed r t₁ cond h (h + 1) :=
    hcond cond rfl h hu ((hroom hu).le (by decide))
  refine (hk.arg t₁ .code (prev + 1)).bind fun t₂ answer he₂ hyes => ?_
  cases answer with
  | none =>
      refine .pure fun h hu => ?_
      have hpop : Typed r t₂ (plain .pop) (h + 1) h :=
        typed_plain .pop (.drop 1 ((hroom hu).le (by decide)))
      exact (((hcond hu).mono he₂).append hpop).append
        (typed_plain .null (.stay ((hroom hu).le (by decide))))
  | some yes =>
  have hyesBody {body : Code} (hb : literalBody? yes = some body) := (hyes yes rfl).body hb
  replace hyes {h : Nat} (hu : r.Under h prev) : Typed r t₂ yes (h + 1) (h + 1 + 1) :=
    hyes yes rfl (h + 1) (hu.add 1) (Rigour.Roomy.above ((hroom hu).le (by decide)))
  refine (hk.arg t₂ .code (prev + 2)).bind fun t₃ answer he₃ hno => ?_
  have hdrop {h : Nat} (hu : r.Under h prev) : r.Moves 1 0 (h + 1) h :=
    .drop 1 ((hroom hu).le (by decide))
  have hcond' {h : Nat} (hu : r.Under h prev) := ((hcond hu).mono he₂).mono he₃
  have hyes' {h : Nat} (hu : r.Under h prev) := (hyes hu).mono he₃
  cases answer with
  | none =>
      cases hb : literalBody? yes with
      | some body =>
          refine .pure fun h hu => (hcond' hu).append ?_
          exact .whenTrue ((hyesBody hb).mono he₃) (hdrop hu) (.nil (.inr rfl))
      | none =>
          refine .pure fun h hu => ?_
          have hempty : Typed r t₃ (literal []) (h + 1 + 1) (h + 1 + 1 + 1) :=
            typed_blockLiteral (.nil (.inr rfl)) (Rigour.Roomy.above (hroom hu))
          exact (((hcond' hu).append (hyes' hu)).append hempty).append
            (hcom ((he₁.trans he₂).trans he₃) hu)
  | some no =>
      have hnoBody {body : Code} (hb : literalBody? no = some body) := (hno no rfl).body hb
      replace hno {h : Nat} (hu : r.Under h prev) : Typed r t₃ no (h + 1 + 1) (h + 1 + 1 + 1) :=
        hno no rfl (h + 1 + 1) (hu.add 2) (Rigour.Roomy.above (hroom hu))
      have hcalled : StatementTyped r t₃ prev (cond ++ yes ++ no ++ plain .com .null self) :=
        fun h hu => (((hcond' hu).append (hyes' hu)).append (hno hu)).append
          (hcom ((he₁.trans he₂).trans he₃) hu)
      dsimp only
      cases hy : literalBody? yes with
      | some bodyYes =>
          cases hn : literalBody? no with
          | some bodyNo =>
              refine .pure fun h hu => (hcond' hu).append ?_
              exact .choice ((hyesBody hy).mono he₃) (hnoBody hn) (hdrop hu) (.nil (.inr rfl))
          | none => exact .pure hcalled
      | none =>
          cases hn : literalBody? no with
          | none => exact .pure hcalled
          | some bodyNo =>
              refine .pure ?_
              split
              · intro h hu
                exact (hcond' hu).append (.whenFalse (hnoBody hn)
                  (.stay (Rigour.Roomy.above ((hroom hu).le (by decide)))) (hdrop hu)
                  (.nil (.inr rfl)))
              · exact hcalled

/-- Operands that are block literals, and at most one that is none. -/
theorem gives_takeLiterals (hk : k.Serves r) (t : Table) (left given : Nat) :
    Gives r t (takeLiterals k prev left given) fun t' a =>
      (∀ body ∈ a.1, Typed r t' body 0 0) ∧ a.1.length ≤ left ∧ given ≤ a.2.2.1 ∧
        a.2.2.1 ≤ given + left ∧ ∀ h, r.Under h prev → r.Roomy h (given + left) →
          Typed r t' (a.1.map .block ++ a.2.1.getD []) (h + given) (h + a.2.2.1) := by
  induction left generalizing t given with
  | zero =>
      exact .pure ⟨nofun, Nat.le_refl _, Nat.le_refl _, Nat.le_refl _,
        fun h _ _ => .nil (.inr rfl)⟩
  | succ left ih =>
      refine (hk.arg t .condition (prev + given)).bind fun t' answer _ harg => ?_
      cases answer with
      | none =>
          exact .pure ⟨nofun, Nat.zero_le _, Nat.le_refl _, Nat.le_add_right _ _,
            fun h _ _ => .nil (.inr rfl)⟩
      | some code =>
          have hbody {body : Code} (hb : literalBody? code = some body) := (harg code rfl).body hb
          replace harg {h : Nat} (hu : r.Under h prev) (hr : r.Roomy h (given + (left + 1))) :
              Typed r t' code (h + given) (h + given + 1) :=
            harg code rfl (h + given) (hu.add given) (Rigour.Roomy.above (hr.le (by omega)))
          dsimp only
          cases hb : literalBody? code with
          | none =>
              exact .pure ⟨nofun, Nat.zero_le _, Nat.le_succ _, by dsimp only; omega,
                fun h hu hr => harg hu hr⟩
          | some body =>
              replace hbody := hbody hb
              rw [literalBody?_eq hb] at harg
              refine (ih t' (given + 1)).bind fun t'' a he ha => ?_
              obtain ⟨bodies, other, n, more⟩ := a
              obtain ⟨hbodies, hmany, hlow, hhigh, hrest⟩ := ha
              dsimp only at hbodies hmany hlow hhigh hrest
              refine .pure ⟨?_, Nat.succ_le_succ hmany, by dsimp only; omega, by dsimp only; omega,
                fun h hu hr => ?_⟩
              · intro b hb
                rcases List.mem_cons.mp hb with rfl | hb
                · exact hbody.mono he
                · exact hbodies b hb
              · exact ((harg hu hr).mono he).append (hrest h hu (hr.le (by omega)))

private theorem typed_chain {t : Table} {op : Op}
    (ho : op = .jumpResultTrue ∨ op = .jumpResultFalse)
    {bodies : List Code} (hb : ∀ body ∈ bodies, Typed r t body 0 0) {h : Nat} (hh : r.Roomy h 1) :
    Typed r t [chain op bodies] (h + 1) h := by
  induction bodies with
  | nil => exact typed_plain (.settle ho) (.drop 1 hh)
  | cons body rest ih =>
      have hrest := ih fun b hm => hb b (List.mem_cons_of_mem body hm)
      exact .link ho (hb body List.mem_cons_self) (.drop 1 hh) (.push hh) hrest (.nil (.inr rfl))

private theorem gives_connective (hk : k.Serves r) (t : Table) (hp : prev < maxResults)
    (isAnd : Bool)
    {self : Nat} {c : Control} (hc : c = .and ∨ c = .or) (hf : t.form? r self = some (.control c)) :
    Gives r t (connective k isAnd self prev) fun t' a => StatementTyped r t' prev a.1 := by
  refine (hk.arg t .condition prev).bind fun t₁ answer he₁ hfirst => ?_
  cases answer with
  | none =>
      refine .pure (statementTyped_plain hp ?_)
      split
      · exact .yes
      · exact .no
  | some first =>
      replace hfirst {h : Nat} (hu : r.Under h prev) : Typed r t₁ first h (h + 1) :=
        hfirst first rfl h hu ((hu.roomy hp).le (Nat.le_add_left 1 maxArgs))
      refine (gives_takeLiterals hk t₁ (maxArgs - 1) 1).bind fun t₂ a he₂ ha => ?_
      obtain ⟨bodies, other, n, more⟩ := a
      obtain ⟨hbodies, -, hlow, hhigh, hpushed⟩ := ha
      dsimp only at hbodies hlow hhigh hpushed
      have hmax : 1 ≤ maxArgs := by decide
      refine .ite (fun _ => ?_) fun _ => ?_
      · refine (gives_takeArgs hk t₂ .condition rfl prev (maxArgs - n) n).bind fun t₃ a he₃ ha => ?_
        obtain ⟨rest, m, more⟩ := a
        obtain ⟨hlow', hhigh', hrest⟩ := ha
        dsimp only at hlow' hhigh' hrest
        refine .pure fun h hu => ?_
        have hroom := hu.roomy hp
        have hcall : Call r t₃ .comAll m self := by
          refine .comAll (fun _ => by omega) fun _ => ⟨_, he₃ _ _ (he₂ _ _ (he₁ _ _ hf)), ?_, ?_⟩
          · rcases hc with rfl | rfl <;> decide
          · have hslots : (Form.control c).signature.slots = 1 := by rcases hc with rfl | rfl <;> rfl
            omega
        have hall := ((((hfirst hu).mono he₂).append (hpushed h hu (hroom.le (by omega)))).mono
          he₃).append (hrest h hu (hroom.le (by omega)))
        exact hall.append (typed_call hcall (hroom.le (by omega)))
      · refine .pure fun h hu => ((hfirst hu).mono he₂).append ?_
        refine typed_chain ?_ hbodies ((hu.roomy hp).le (Nat.le_add_left 1 maxArgs))
        split
        · exact .inr rfl
        · exact .inl rfl

private theorem gives_control (hk : k.Serves r) (t : Table) (hp : prev < maxResults) {c : Control}
    {self : Nat} (hf : t.form? r self = some (.control c)) :
    Gives r t (control k c self prev) fun t' a => StatementTyped r t' prev a.1 := by
  have hnull (t : Table) : StatementTyped r t prev (plain .null) := statementTyped_plain hp .null
  cases c with
  | «local» =>
      refine (gives_takeArgs hk t .ident rfl prev maxArgs 0).bind fun t' a _ ha => ?_
      obtain ⟨names, n, more⟩ := a
      obtain ⟨-, hn, hnames⟩ := ha
      dsimp only at hn hnames
      refine (gives_surplusArgs hk t' more prev).bind fun t'' surplus he hsurplus => ?_
      refine .pure fun h hu => ?_
      have hroom := hu.roomy hp
      have hfit : r.Roomy h n := hroom.le (by omega)
      refine .shadow (by omega) ((hnames h hu (hroom.le (by omega))).mono he) (fun hr => ?_)
        (.drop n hfit) (.nil (.inr rfl))
      exact hsurplus _ (fun h => absurd h hr) (fun h => absurd h hr)
  | run => exact gives_takeOne hk t hp rfl (fun _ => .run) hnull
  | runOuter => exact gives_takeOne hk t hp rfl (fun _ => .runOuter) hnull
  | branch => exact gives_branch hk t hp hf
  | result => exact gives_takeOne hk t hp rfl (fun _ => .result) hnull
  | not => exact gives_takeOne hk t hp rfl (fun _ => .not) fun _ => statementTyped_plain hp .yes
  | and => exact gives_connective hk t hp true (.inl rfl) hf
  | or => exact gives_connective hk t hp false (.inr rfl) hf

private theorem gives_intVarStatement (hk : k.Serves r) (t : Table) (hp : prev < maxResults)
    (hex : Bool)
    {self : Nat} (hf : t.form? r self = some .intVar) :
    Gives r t (intVarStatement k hex self prev) fun t' a => StatementTyped r t' prev a.1 := by
  have hroom {h : Nat} (hu : r.Under h prev) : r.Roomy h 3 := (hu.roomy hp).le (by decide)
  refine (hk.arg t .int prev).bind fun t₁ answer he₁ ha => ?_
  cases answer with
  | none => exact .pure (statementTyped_plain hp (.print (he₁ _ _ hf)))
  | some a =>
  replace ha := ha a rfl
  refine .ite (fun _ => .pure (ha.take hp rfl (.setIntVar (he₁ _ _ hf)))) fun _ => ?_
  refine (hk.arg t₁ .int (prev + 1)).bind fun t₂ answer he₂ hb => ?_
  have he := he₁.trans he₂
  cases answer with
  | none => exact .pure ((ha.mono he₂).take hp rfl (.setIntVar (he _ _ hf)))
  | some b =>
  replace hb := hb b rfl
  have hab {h : Nat} (hu : r.Under h prev) : Typed r t₂ (a ++ b) h (h + 1 + 1) :=
    ((ha h hu ((hroom hu).le (by decide))).mono he₂).append
      (hb (h + 1) (hu.add 1) (Rigour.Roomy.above ((hroom hu).le (by decide))))
  refine (hk.arg t₂ .int (prev + 2)).bind fun t₃ answer he₃ hc => ?_
  replace he := he.trans he₃
  cases answer with
  | none =>
      refine .pure fun h hu => ((hab hu).mono he₃).append ?_
      exact typed_plain (.setIntVar2 (he _ _ hf)) (.drop 2 ((hroom hu).le (by decide)))
  | some c =>
      refine .pure fun h hu => ?_
      have hc := hc c rfl (h + 2) (hu.add 2) (Rigour.Roomy.above (hroom hu))
      exact (((hab hu).mono he₃).append hc).append
        (typed_plain (.setIntVar3 (he _ _ hf)) (.drop 3 (hroom hu)))

private theorem gives_floatVarStatement (hk : k.Serves r) (t : Table) (hp : prev < maxResults)
    {self : Nat}
    (hf : t.form? r self = some .floatVar) :
    Gives r t (floatVarStatement k self prev) fun t' a => StatementTyped r t' prev a.1 := by
  refine (hk.arg t .float prev).bind fun t' answer he ha => ?_
  cases answer with
  | none => exact .pure (statementTyped_plain hp (.print (he _ _ hf)))
  | some a => exact .pure ((ha a rfl).take hp rfl (.setFloatVar (he _ _ hf)))

private theorem gives_textVarStatement (hk : k.Serves r) (t : Table) (hp : prev < maxResults)
    {self : Nat}
    (hf : t.form? r self = some .textVar) :
    Gives r t (textVarStatement k self prev) fun t' a => StatementTyped r t' prev a.1 := by
  refine (hk.arg t .textView prev).bind fun t₁ answer he₁ ha => ?_
  cases answer with
  | none => exact .pure (statementTyped_plain hp (.print (he₁ _ _ hf)))
  | some a =>
      refine (gives_takeArgs hk t₁ .anyView rfl prev (maxArgs - 1) 1).bind fun t₂ b he₂ hb => ?_
      obtain ⟨rest, n, more⟩ := b
      obtain ⟨hlow, hhigh, hrest⟩ := hb
      dsimp only at hlow hhigh hrest
      refine .pure fun h hu => ?_
      have hroom := hu.roomy hp
      have hone : r.Roomy h 1 := hroom.le (Nat.le_add_left 1 maxArgs)
      have hargs := ((ha a rfl h hu hone).mono he₂).append (hrest h hu (hroom.le (by omega)))
      have hjoin : Typed r t₂ (if 1 < n then plain .conc .text n else []) (h + n) (h + 1) := by
        split
        · exact typed_plain (.conc (by unfold maxOperands; omega)) (.join n hone)
        · have hn : n = 1 := by omega
          rw [hn]
          exact .nil (.inr rfl)
      exact (hargs.append hjoin).append
        (typed_plain (.setTextVar (he₂ _ _ (he₁ _ _ hf))) (.drop 1 hone))

private theorem statementTyped_number {t : Table} (hp : prev < maxResults) (view : Bool)
    {name : Bytes}
    (hname : name.length < operandLimit) : StatementTyped r t prev (numberStatement view name) := by
  intro h hu
  have hroom : r.Roomy h 1 := (hu.roomy hp).le (Nat.le_add_left 1 maxArgs)
  unfold numberStatement
  generalize Reading.uint64 name = x
  refine Typed.append ?_ (typed_plain .result (.drop 1 hroom))
  split
  · exact typed_int _ hroom
  · split
    · exact typed_view hname hroom
    · exact typed_text hname hroom

/-- A call of a bare word. -/
theorem gives_callBare (hk : k.Serves r) (t : Table) (hp : prev < maxResults) (view : Bool)
    {name : Bytes} (hname : name.length < operandLimit) :
    Gives r t (callBare k view name prev) fun t' a => StatementTyped r t' prev a.1 := by
  refine (gives_get r t (P := fun t' s => s.table = t') fun _ hs _ => hs).bind fun t' s _ hs => ?_
  rw [hs]
  cases hl : t'.lookup? name with
  | none =>
      refine .ite (fun _ => .pure (statementTyped_number hp view hname)) fun _ => ?_
      exact gives_callComputed hk t' hp fun h _ hh => typed_view hname hh
  | some found =>
      obtain ⟨i, id⟩ := found
      have hf : t'.form? r i = some (id.role.form r) :=
        Table.form?_of_get? (Table.get?_of_lookup? hl)
      dsimp only
      cases hrole : id.role with
      | «alias» =>
          rw [hrole] at hf
          refine (gives_takeArgs hk t' .any rfl prev maxArgs 0).bind fun t'' a he ha => ?_
          obtain ⟨args, n, more⟩ := a
          obtain ⟨-, hn, hargs⟩ := ha
          dsimp only at hn hargs
          refine .pure fun h hu => ?_
          have hroom := hu.roomy hp
          have hfit : r.Roomy h n := hroom.le (by omega)
          refine (hargs h hu (hroom.le (by omega))).append (typed_call ?_ hfit)
          split
          · exact .callArg (by omega) fun _ => ‹_›
          · exact .call (by omega) fun _ => he _ _ hf
      | command sig action =>
          rw [hrole] at hf
          exact gives_command hk hp hf
      | control c =>
          rw [hrole] at hf
          exact gives_control hk t' hp hf
      | intVar =>
          rw [hrole] at hf
          exact gives_intVarStatement hk t' hp _ hf
      | floatVar =>
          rw [hrole] at hf
          exact gives_floatVarStatement hk t' hp hf
      | textVar =>
          rw [hrole] at hf
          exact gives_textVarStatement hk t' hp hf

/-- A statement leaves the operands below it as they are. -/
theorem gives_statement (hk : k.Serves r) (t : Table) (hp : prev < maxResults) (view : Bool) :
    Gives r t (statement k view prev) fun t' a => StatementTyped r t' prev a.1 := by
  refine (hk.head t prev).bind fun t₁ answer _ hhead => ?_
  cases answer with
  | none => exact .pure fun h _ => .nil (.inr rfl)
  | some head =>
      replace hhead := hhead head rfl
      refine (gives_skipComments r t₁).bind fun t₂ _ he₂ _ => ?_
      refine (gives_cursor r t₂).bind fun t₃ c he₃ _ => ?_
      have hhead : HeadTyped r t₃ prev head := hhead.mono (he₂.trans he₃)
      refine .ite (fun _ => ?_) fun _ => ?_
      · refine (gives_advance r t₃ 1).bind fun t₄ _ he₄ _ => ?_
        exact gives_assignment hk t₄ hp (hhead.mono he₄)
      · cases head with
        | computed push => exact gives_callComputed hk t₃ hp hhead
        | bare name => exact gives_callBare hk t₃ hp view hhead

theorem gives_endOfStatement (r : Rigour) (t : Table) (closing : UInt8) (fuel : Nat) :
    Gives r t (endOfStatement closing fuel) fun _ _ => True := by
  induction fuel generalizing t with
  | zero => exact .pure trivial
  | succ fuel ih =>
      refine (gives_skipTo r t _).bind fun t _ _ _ => ?_
      refine (gives_cursor r t).bind fun t c _ _ => ?_
      refine .ite (fun _ => ?_) fun _ => ?_
      · exact .ite (fun _ => (gives_warn r t _).bind fun _ _ _ _ => .pure trivial) fun _ =>
          .pure trivial
      · refine (gives_next r t).bind fun t c _ _ => ?_
        refine .ite (fun _ => ?_) fun _ => ?_
        · refine .ite (fun _ => .pure trivial) fun _ => ?_
          exact (gives_warn r t _).bind fun _ _ _ _ => .pure trivial
        · refine .ite (fun _ => ?_) fun _ => .pure trivial
          refine (gives_peek r t 0).bind fun t _ _ _ => ?_
          exact .ite (fun _ => (gives_skipTo r t _).bind fun t _ _ _ => ih t) fun _ => ih t

private theorem gives_statementsFrom (hk : k.Serves r) (t : Table) (hp : prev < maxResults)
    (view : Bool)
    (closing : UInt8) (fuel : Nat) :
    Gives r t (statementsFrom k view closing prev fuel) fun t' code =>
      StatementTyped r t' prev code := by
  induction fuel generalizing t with
  | zero => exact .pure fun h _ => .nil (.inr rfl)
  | succ fuel ih =>
      refine (gives_statement hk t hp view).bind fun t₁ a _ ha => ?_
      obtain ⟨code, more⟩ := a
      refine (gives_cursor r t₁).bind fun t₂ c he₂ _ => ?_
      refine (gives_surplusArgs hk t₂ more prev).bind fun t₃ surplus he₃ hsurplus => ?_
      refine (gives_endOfStatement r t₃ closing _).bind fun t₄ ended he₄ _ => ?_
      have hboth : StatementTyped r t₄ prev (code ++ surplus) := fun h hu =>
        ((ha h hu).mono ((he₂.trans he₃).trans he₄)).append
          ((hsurplus h hu ((hu.roomy hp).le (Nat.le_add_left 1 maxArgs))).mono he₄)
      refine .ite (fun _ => .pure hboth) fun _ => ?_
      refine (ih t₄).bind fun t₅ rest he₅ hrest => ?_
      exact .pure fun h hu => ((hboth h hu).mono he₅).append (hrest h hu)

theorem gives_statements (hk : k.Serves r) (t : Table) (hp : prev < maxResults) (view : Bool)
    (closing : UInt8) :
    Gives r t (statements k view closing prev) fun t' code => StatementTyped r t' prev code :=
  (gives_cursor r t).bind fun t' _ _ _ => gives_statementsFrom hk t' hp view closing _

theorem gives_textLiteral (hk : k.Serves r) (t : Table) {text : Bytes}
    (htext : text.length < operandLimit) (name : Bytes) (line : Nat) :
    Gives r t (textLiteral k text name line) fun t' code =>
      ∀ h, r.Roomy h 1 → Typed r t' code h (h + 1) := by
  refine (Gives.withText htext name line (gives_statements hk t (by decide) false 0)).bind
    fun t' body _ hbody => ?_
  exact .pure fun h hh => typed_blockLiteral (hbody 0 Rigour.under_zero) hh

end ConsoleScript.Compile
