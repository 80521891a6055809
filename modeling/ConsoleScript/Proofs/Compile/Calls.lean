import ConsoleScript.Proofs.Compile.Pieces

/-!
The code of arguments one after another, and of calls of commands. The arguments of a command are
taken by the letters of its signature. Where operands count, the signature is regular: its letters
then leave exactly the operands that the command takes, and the fuel for the repeated ones never
runs out, since every round leaves one more operand or is the last.
-/

namespace ConsoleScript.Compile

open Bytecode

variable {r : Rigour} {k : Nested}

/-- Arguments one after another leave one operand each. -/
theorem gives_takeArgs (hk : k.Serves r) (t : Table) (want : Want) (hwant : want.leaves = 1)
    (prev left given : Nat) :
    Gives r t (takeArgs k want prev left given) fun t' a =>
      given ≤ a.2.1 ∧ a.2.1 ≤ given + left ∧ ∀ h, r.Under h prev → r.Roomy h (given + left) →
        Typed r t' a.1 (h + given) (h + a.2.1) := by
  induction left generalizing t given with
  | zero => exact .pure ⟨Nat.le_refl _, Nat.le_refl _, fun h _ _ => .nil (.inr rfl)⟩
  | succ left ih =>
      refine (hk.arg t want (prev + given)).bind fun t' answer _ harg => ?_
      cases answer with
      | none => exact .pure ⟨Nat.le_refl _, Nat.le_add_right _ _, fun h _ _ => .nil (.inr rfl)⟩
      | some code =>
          refine (ih t' (given + 1)).bind fun t'' a he ha => ?_
          obtain ⟨more, n, isOpen⟩ := a
          obtain ⟨hlow, hhigh, hmore⟩ := ha
          dsimp only at hlow hhigh hmore
          refine .pure ⟨Nat.le_of_succ_le hlow, by dsimp only; omega, fun h hu hr => ?_⟩
          have hone := harg code rfl (h + given) (hu.add given)
            (Rigour.Roomy.above (hr.le (by omega)))
          rw [hwant] at hone
          have hrest := hmore h hu (hr.le (by omega))
          exact (hone.mono he).append hrest

theorem gives_argOr (hk : k.Serves r) (t : Table) (want : Want) (prev : Nat) {missing : Code}
    (hm : ∀ t h, r.Roomy h 1 → Typed r t missing h (h + want.leaves)) :
    Gives r t (argOr k want prev missing) fun t' a => ArgTyped r t' want prev a.1 := by
  refine (hk.arg t want prev).bind fun t' answer _ harg => ?_
  cases answer with
  | none => exact .pure fun h _ hr => hm t' h hr
  | some code => exact .pure (harg code rfl)

private theorem gives_dropArgs (hk : k.Serves r) (t : Table) (prev fuel : Nat) :
    Gives r t (dropArgs k prev fuel) fun t' code =>
      ∀ h, r.Under h prev → r.Roomy h 1 → Typed r t' code h h := by
  induction fuel generalizing t with
  | zero => exact .pure fun h _ _ => .nil (.inr rfl)
  | succ fuel ih =>
      refine (hk.arg t .nothing prev).bind fun t' answer _ harg => ?_
      cases answer with
      | none => exact .pure fun h _ _ => .nil (.inr rfl)
      | some code =>
          refine (ih t').bind fun t'' rest he hrest => ?_
          exact .pure fun h hu hr => ((harg code rfl h hu hr).mono he).append (hrest h hu hr)

theorem gives_surplusArgs (hk : k.Serves r) (t : Table) (more : Bool) (prev : Nat) :
    Gives r t (surplusArgs k more prev) fun t' code =>
      ∀ h, r.Under h prev → r.Roomy h 1 → Typed r t' code h h := by
  refine .ite (fun _ => ?_) fun _ => .pure fun h _ _ => .nil (.inr rfl)
  exact (gives_cursor r t).bind fun t' c _ _ => gives_dropArgs hk t' prev _

private theorem gives_argIfMore (hk : k.Serves r) (t : Table) (want : Want) (prev : Nat)
    (more : Bool) :
    Gives r t (argIfMore k want prev more) fun t' answer =>
      ∀ code, answer = some code → more = true ∧ ArgTyped r t' want prev code :=
  .ite (fun hm => (hk.arg t want prev).mono fun _ _ _ h code hc => ⟨hm, h code hc⟩) fun _ =>
    .pure fun _ h => nomatch h

/-- A call of what the code pushes. -/
theorem gives_callComputed (hk : k.Serves r) (t : Table) {push : Code} {prev : Nat}
    (hp : prev < maxResults) (hpush : ArgTyped r t .any prev push) :
    Gives r t (callComputed k push prev) fun t' a => StatementTyped r t' prev a.1 := by
  refine (gives_takeArgs hk t .anyView rfl (prev + 1) maxArgs 0).bind fun t' a he ha => ?_
  obtain ⟨args, n, more⟩ := a
  obtain ⟨-, hn, hargs⟩ := ha
  dsimp only at hn hargs
  refine .pure fun h hu => ?_
  have hroom := hu.roomy hp
  have hfirst := (hpush h hu (hroom.le (Nat.le_add_left 1 maxArgs))).mono he
  have hrest := hargs (h + 1) (hu.add 1)
    (Rigour.Roomy.above (hroom.le (by omega)))
  have hcall : Typed r t' (plain .callNamed .null n) (h + 1 + n) h := by
    rw [Nat.add_assoc, Nat.add_comm 1 n]
    exact typed_plain (.callNamed (by omega)) (.drop (n + 1) (hroom.le (by omega)))
  exact (hfirst.append hrest).append hcall

/-- What stands in for a missing argument is one operand. -/
theorem typed_missingArg {t : Table} (ht : t.Sound r) {l : Letter}
    (hl : l.isPlain = true) (hself : l ≠ .self) (hcount : l ≠ .count) (given : Nat) {h : Nat}
    (hh : r.Roomy (h + given) 1) :
    Typed r t (missingArg l given) (h + given) (h + given + 1) := by
  cases l with
  | int | intOrLeast => exact typed_int _ hh
  | float => exact typed_float _ hh
  | floatOrPrevious =>
      change Typed r t (floatAgain given) _ _
      unfold floatAgain
      split <;> rename_i hg
      · exact typed_float _ hh
      · rw [beq_iff_eq] at hg
        have hdup : r.Moves 1 2 (h + given) (h + given + 1) := .inr ⟨by omega, by omega, hh⟩
        exact typed_plain .dup hdup
  | text => exact typed_view (by decide) hh
  | ownText => exact typed_text (by decide) hh
  | any | anyOrNull | condition => exact typed_null hh
  | code => exact typed_blockLiteral (.nil (.inr rfl)) hh
  | ident => exact typed_dummyCode ht hh
  | self => exact absurd rfl hself
  | count => exact absurd rfl hcount
  | pressed | joined | all | again _ => cases hl

/-- The code of a call in progress leaves an operand for each argument. -/
def CallState.Typed (r : Rigour) (t : Table) (prev : Nat) (st : CallState) : Prop :=
  ∀ h, r.Under h prev → Compile.Typed r t st.code h (h + st.given)

theorem CallState.Typed.mono {t t' : Table} {prev : Nat} {st : CallState}
    (hst : st.Typed r t prev) (ht : t.Extends r t') : st.Typed r t' prev :=
  fun h hu => (hst h hu).mono ht

/-- A letter that takes a value leaves one operand, unless the letters are being repeated and there
are no arguments any more. -/
theorem gives_letterArg (hk : k.Serves r) (t : Table) {l : Letter} (hl : l.isPlain = true)
    (hself : l ≠ .self) (hcount : l ≠ .count) (isLast : Bool) {prev : Nat} (hp : prev < maxResults)
    {st : CallState} (hst : st.Typed r t prev) (hg : r.Under st.given maxArgs) :
    Gives r t (letterArg k l isLast prev st) fun t' st' =>
      st'.Typed r t' prev ∧ st'.again = st.again ∧ st'.op = st.op ∧
        (st'.more = true → st.more = true) ∧
        (st'.given = st.given + 1 ∨ st'.given = st.given ∧ st.again = true ∧ st'.more = false) := by
  have hwant : (wantOf l).leaves = 1 := by cases l <;> rfl
  refine (gives_argIfMore hk t _ _ _).bind fun t' answer he harg => .ofSound fun ht => ?_
  have hst := hst.mono he
  have hroom {h : Nat} (hu : r.Under h prev) : r.Roomy (h + st.given) 1 := fun hr =>
    Rigour.Roomy.above ((hu.roomy hp).le (Nat.add_le_add_right (hg hr) 1)) hr
  cases answer with
  | none =>
      refine .ite (fun hagain => ?_) fun _ => ?_
      · exact .pure ⟨hst, rfl, rfl, nofun, .inr ⟨rfl, hagain, rfl⟩⟩
      · refine .pure ⟨fun h hu => ?_, rfl, rfl, nofun, .inl rfl⟩
        exact (hst h hu).append (typed_missingArg ht hl hself hcount st.given (hroom hu))
  | some code =>
      obtain ⟨hmore, harg⟩ := harg code rfl
      have hone {h : Nat} (hu : r.Under h prev) :
          Compile.Typed r t' (st.code ++ code) h (h + st.given + 1) := by
        have := harg (h + st.given) (hu.add st.given) (hroom hu)
        rw [hwant] at this
        exact (hst h hu).append this
      refine .ite (fun _ => ?_) fun _ =>
        .pure ⟨fun h hu => hone hu, rfl, rfl, fun _ => hmore, .inl rfl⟩
      refine (gives_takeArgs hk t' .textView rfl (prev + st.given) _ 1).bind fun t'' a he' ha => ?_
      obtain ⟨rest, n, more⟩ := a
      obtain ⟨hlow, hhigh, hrest⟩ := ha
      dsimp only at hlow hhigh hrest
      refine .pure ⟨fun h hu => ?_, rfl, rfl, fun _ => hmore, .inl rfl⟩
      have hfit : r.Roomy (h + st.given) (1 + (maxArgs - (st.given + 1))) := fun hr =>
        Rigour.Roomy.above ((hu.roomy hp).le (by have := hg hr; omega)) hr
      have hall := ((hone hu).mono he').append (hrest _ (hu.add st.given) hfit)
      refine hall.append ?_
      split
      · exact typed_plain (.conc (by unfold maxOperands; omega)) (.join n (hroom hu))
      · have hn : n = 1 := by omega
        rw [hn]
        exact .nil (.inr rfl)

theorem gives_restOfArgs (hk : k.Serves r) (t : Table) (prev given : Nat) (more : Bool) :
    Gives r t (restOfArgs k prev given more) fun t' a =>
      given ≤ a.2.1 ∧ a.2.1 ≤ given + (maxArgs - given) ∧
        ∀ h, r.Under h prev → r.Roomy h (given + (maxArgs - given)) →
          Typed r t' a.1 (h + given) (h + a.2.1) :=
  .ite (fun _ => gives_takeArgs hk t .anyView rfl prev _ given) fun _ =>
    .pure ⟨Nat.le_refl _, Nat.le_add_right _ _, fun _ _ _ => .nil (.inr rfl)⟩

section Regular

variable {sig pre : Signature} {self prev : Nat}

/-- What is known of a call in progress behind the letters that take a value, with what was known
where the letters began. -/
structure CallState.Behind (r : Rigour) (t : Table) (prev letters : Nat) (st st' : CallState) :
    Prop where
  typed : st'.Typed r t prev
  op : st'.op = st.op
  again : st'.again = st.again
  more : st'.more = true → st.more = true
  least : st.given ≤ st'.given
  greatest : st'.given ≤ st.given + letters
  /-- A letter leaves no operand only in the last round of repeated letters. -/
  exact : st.again = false ∨ st'.more = true → st'.given = st.given + letters

/-- The letters from a position up to the end of those that take a value. -/
theorem gives_commandArgs_letters (hk : k.Serves r) (hp : prev < maxResults)
    (hsig : pre <+: sig) (hpre : ∀ l ∈ pre, l.isPlain = true) {Q : Table → Statement → Prop}
    (left : Nat) {t : Table} (hself : self < t.size) {at' fuel : Nat} {st : CallState}
    (hat : at' + left = pre.length) (hst : st.Typed r t prev) (hg : st.given + left ≤ maxArgs + 1)
    (hnext : ∀ t' st', t.Extends r t' → st.Behind r t' prev left st' →
      Gives r t' (commandArgs k sig.toArray self prev fuel pre.length st') Q) :
    Gives r t (commandArgs k sig.toArray self prev (fuel + left) at' st) Q := by
  induction left generalizing t at' st with
  | zero =>
      cases hat
      exact hnext t st (.refl r t)
        ⟨hst, rfl, rfl, id, Nat.le_refl _, Nat.le_refl _, fun _ => rfl⟩
  | succ left ih =>
      obtain ⟨l, hl⟩ : ∃ l, pre[at']? = some l := ⟨_, List.getElem?_eq_getElem (by omega)⟩
      have hplain := hpre l (List.mem_of_getElem? hl)
      have hl : sig.toArray[at']? = some l := by
        rw [List.getElem?_toArray]
        obtain ⟨tail, rfl⟩ := hsig
        rw [List.getElem?_append_left (by omega)]
        exact hl
      rw [← Nat.add_assoc, commandArgs, hl]
      have hroom {h : Nat} (hu : r.Under h prev) : r.Roomy (h + st.given) 1 :=
        Rigour.Roomy.above ((hu.roomy hp).le (by omega))
      -- the letters that are left, behind one that left an operand or ended the last round
      have hgo {t' : Table} {st' : CallState} (he : t.Extends r t') (hst' : st'.Typed r t' prev)
          (hagain : st'.again = st.again) (hop : st'.op = st.op)
          (hmore : st'.more = true → st.more = true)
          (hgiven : st'.given = st.given + 1 ∨
            st'.given = st.given ∧ st.again = true ∧ st'.more = false) :
          Gives r t' (commandArgs k sig.toArray self prev (fuel + left) (at' + 1) st') Q := by
        refine ih (he.lt_size hself) (by omega) hst' (by omega) fun t'' st'' he' hb => ?_
        have hleast := hb.least
        have hgreatest := hb.greatest
        refine hnext t'' st'' (he.trans he') ⟨hb.typed, hb.op.trans hop, hb.again.trans hagain,
          hmore ∘ hb.more, by omega, by omega, fun hx => ?_⟩
        rcases hgiven with hgiven | ⟨-, hyes, hno⟩
        · have := hb.exact (hagain ▸ hx)
          omega
        · rcases hx with hx | hx
          · rw [hyes] at hx
            cases hx
          · have := hb.more hx
            rw [hno] at this
            cases this
      by_cases hs : l = .self
      · subst hs
        refine hgo (.refl r t) (fun h hu => ?_) rfl rfl id (.inl rfl)
        exact (hst h hu).append (typed_identCode hself (hroom hu))
      by_cases hc : l = .count
      · subst hc
        refine hgo (.refl r t) (fun h hu => ?_) rfl rfl id (.inl rfl)
        exact (hst h hu).append (typed_int _ (hroom hu))
      have hletter := (gives_letterArg hk t hplain hs hc (at' + 1 == sig.toArray.size) hp hst
        (fun _ => by omega)).bind fun t' st' he ⟨hst', hagain, hop, hmore, hgiven⟩ =>
          hgo he hst' hagain hop hmore hgiven
      cases l <;> first
        | exact hletter
        | exact absurd rfl hs
        | exact absurd rfl hc
        | cases hplain

/-- The letter behind which all arguments are taken. -/
private theorem gives_commandArgs_rest (hk : k.Serves r) (hp : prev < maxResults) {t : Table}
    {l : Letter} (hl : l = .all ∨ l = .joined) {fuel at' : Nat} (hat : sig.toArray[at']? = some l)
    {st : CallState} (hst : st.Typed r t prev) (hg : st.given ≤ maxArgs)
    (hcall : ∀ t' n, t.Extends r t' → st.given ≤ n → n ≤ maxArgs →
      Call r t' (if l = .joined then .comJoined else .comAll) n self) :
    Gives r t (commandArgs k sig.toArray self prev (fuel + 1) at' st) fun t' a =>
      StatementTyped r t' prev a.1 := by
  have hrest := (gives_restOfArgs hk t prev st.given st.more).bind
    (f := fun a => Pure.pure (st.code ++ a.1 ++
      [.instr (.call (if l = .joined then .comJoined else .comAll) .null a.2.1 self)], a.2.2))
    (Q := fun t' a => StatementTyped r t' prev a.1) fun t' a he ha => by
      obtain ⟨hlow, hhigh, hargs⟩ := ha
      refine .pure fun h hu => ?_
      have hroom := hu.roomy hp
      have hn : a.2.1 ≤ maxArgs := by omega
      have hone := ((hst h hu).mono he).append (hargs h hu (hroom.le (by omega)))
      exact hone.append (typed_call (hcall t' _ he hlow hn) (hroom.le (by omega)))
  rw [commandArgs, hat]
  rcases hl with rfl | rfl <;> exact hrest

theorem slots_of_plain (hpre : ∀ l ∈ pre, l.isPlain = true) : Signature.slots pre = pre.length := by
  refine List.countP_eq_length.mpr fun l hl => ?_
  have := hpre l hl
  unfold Letter.isPlain at this
  exact (Bool.and_eq_true_iff.mp this).1

theorem not_mem_of_plain (hpre : ∀ l ∈ pre, l.isPlain = true) : Letter.joined ∉ pre :=
  fun h => nomatch hpre _ h

theorem typed_pops {t : Table} {h : Nat} (n : Nat) (hh : r.Roomy h n) :
    Typed r t (List.replicate n (plain .pop)).flatten (h + n) h := by
  induction n with
  | zero => exact .nil (.inr rfl)
  | succ n ih =>
      rw [List.replicate_succ, List.flatten_cons]
      have hpop : Typed r t (plain .pop) (h + n + 1) (h + n) := typed_plain .pop (.drop 1 hh.above)
      exact hpop.append (ih (hh.le (Nat.le_succ n)))

/-- The digit behind repeated letters: there is another round, or all arguments are taken. -/
private theorem gives_commandArgs_digit (hk : k.Serves r) (hp : prev < maxResults) {n : Nat}
    (hsig : sig = pre ++ [.again n, .all]) (hl : pre.length ≤ maxDeclared)
    (hpre : ∀ l ∈ pre, l.isPlain = true) {t : Table} (hf : t.form? r self = some (.command sig))
    {fuel : Nat} {st : CallState} (hst : st.Typed r t prev) (hleast : pre.length ≤ st.given)
    (hg : st.given ≤ maxArgs + 1)
    (hback : st.more = true → st.given < maxArgs → Gives r t
      (commandArgs k sig.toArray self prev (fuel + 1) (pre.length - n) { st with again := true })
      fun t' a => StatementTyped r t' prev a.1) :
    Gives r t (commandArgs k sig.toArray self prev (fuel + 2) pre.length st) fun t' a =>
      StatementTyped r t' prev a.1 := by
  have hdigit : sig.toArray[pre.length]? = some (.again n) := by simp [hsig]
  have hall : sig.toArray[pre.length + 1]? = some .all := by simp [hsig]
  rw [commandArgs, hdigit]
  refine .ite (fun h => ?_) fun _ => ?_
  · obtain ⟨hmore, hlt⟩ := Bool.and_eq_true_iff.mp h
    exact hback hmore (of_decide_eq_true hlt)
  · have hdeclared : maxDeclared ≤ maxArgs := by decide
    refine gives_commandArgs_rest hk hp (.inl rfl) hall (fun h hu => ?_) (by dsimp only; omega)
      fun t' m he hm hm' => .comAll (fun _ => hm') fun _ => ⟨_, he _ _ hf, ?_, ?_⟩
    · -- what is too much is taken off again
      have hgiven : h + st.given = h + (st.given - (st.given - maxArgs)) + (st.given - maxArgs) := by
        omega
      have hone := hst h hu
      rw [hgiven] at hone
      exact hone.append (typed_pops _
        (Rigour.Roomy.above ((hu.roomy hp).le (by omega))))
    · simp [Form.signature, hsig, not_mem_of_plain hpre]
    · have hslots : Signature.slots sig = pre.length := by
        rw [hsig, Signature.slots, List.countP_append, ← Signature.slots, slots_of_plain hpre]
        rfl
      change Signature.slots sig ≤ m
      dsimp only at hm
      omega

/-- Rounds of repeated letters. Each round but the last leaves an operand more. -/
private theorem gives_commandArgs_again (hk : k.Serves r) (hp : prev < maxResults) {n : Nat}
    (hsig : sig = pre ++ [.again n, .all]) (hl : pre.length ≤ maxDeclared)
    (hpre : ∀ l ∈ pre, l.isPlain = true) (hn : 1 ≤ n) (hn' : n ≤ 2) (hs : n ≤ pre.length)
    (rounds : Nat) {t : Table}
    (hf : t.form? r self = some (.command sig)) {fuel : Nat} {st : CallState}
    (hrounds : st.more = true → maxArgs - st.given ≤ rounds)
    (hfuel : (n + 1) * rounds + 2 ≤ fuel) (hst : st.Typed r t prev)
    (hleast : pre.length ≤ st.given) (hg : st.given ≤ maxArgs + 1) :
    Gives r t (commandArgs k sig.toArray self prev fuel pre.length st)
      fun t' a => StatementTyped r t' prev a.1 := by
  induction rounds generalizing t fuel st with
  | zero =>
      obtain ⟨fuel, rfl⟩ : ∃ f, fuel = f + 2 := ⟨fuel - 2, by omega⟩
      refine gives_commandArgs_digit hk hp hsig hl hpre hf hst hleast hg fun hmore hlt => ?_
      have := hrounds hmore
      omega
  | succ rounds ih =>
      rw [Nat.mul_succ] at hfuel
      obtain ⟨fuel, rfl⟩ : ∃ f, fuel = f + n + 1 := ⟨fuel - (n + 1), by omega⟩
      obtain ⟨m, rfl⟩ : ∃ m, n = m + 1 := ⟨n - 1, by omega⟩
      refine gives_commandArgs_digit hk hp hsig hl hpre hf hst hleast hg fun hmore hlt => ?_
      refine gives_commandArgs_letters hk hp ⟨_, hsig.symm⟩ hpre (m + 1)
        (Table.lt_size_of_form? hf) (by omega) hst (by dsimp only; omega) fun t' st' he hb => ?_
      have hleast' := hb.least
      have hgreatest := hb.greatest
      have hexact := hb.exact
      dsimp only at hleast' hgreatest hexact
      refine ih (he _ _ hf) (fun hmore' => ?_) (by omega) hb.typed (by omega) (by omega)
      have := hexact (.inr hmore')
      have := hrounds hmore
      omega

/-- A call of a command with a regular signature takes the operands that its arguments leave. -/
theorem gives_commandArgs_regular (hk : k.Serves r) (hp : prev < maxResults)
    (hsig : Signature.Regular r sig) {t : Table} (hf : t.form? r self = some (.command sig)) :
    Gives r t (commandArgs k sig.toArray self prev ((sig.length + 2) * (maxArgs + 2)) 0 {})
      fun t' a => StatementTyped r t' prev a.1 := by
  -- the letters in front, then what is behind them
  have hletters {pre tail : Signature} (hs : sig = pre ++ tail) (hl : pre.length ≤ maxDeclared)
      (hpre : ∀ l ∈ pre, l.isPlain = true)
      (htail : ∀ t' st fuel, t.Extends r t' → ({} : CallState).Behind r t' prev pre.length st →
        (sig.length + 2) * (maxArgs + 1) ≤ fuel →
        Gives r t' (commandArgs k sig.toArray self prev fuel pre.length st) fun t' a =>
          StatementTyped r t' prev a.1) :
      Gives r t (commandArgs k sig.toArray self prev ((sig.length + 2) * (maxArgs + 2)) 0 {})
        fun t' a => StatementTyped r t' prev a.1 := by
    have hlen : sig.length = pre.length + tail.length := by rw [hs, List.length_append]
    obtain ⟨fuel, hfuel, hle⟩ : ∃ fuel, (sig.length + 2) * (maxArgs + 2) = fuel + pre.length ∧
        (sig.length + 2) * (maxArgs + 1) ≤ fuel :=
      ⟨(sig.length + 2) * (maxArgs + 2) - pre.length, by rw [Nat.mul_succ]; omega,
        by rw [Nat.mul_succ (sig.length + 2) (maxArgs + 1)]; omega⟩
    rw [hfuel]
    have hdeclared : maxDeclared ≤ maxArgs := by decide
    refine gives_commandArgs_letters hk hp ⟨tail, hs.symm⟩ hpre pre.length
      (Table.lt_size_of_form? hf) (Nat.zero_add _) (fun h _ => .nil (.inr rfl))
      (by dsimp only; omega) fun t' st he hb => htail t' st fuel he hb hle
  have hfuel : 2 ≤ (sig.length + 2) * (maxArgs + 1) := by unfold maxArgs; omega
  have hdeclared : maxDeclared ≤ maxArgs := by decide
  cases hsig with
  | fixed hl hpre =>
      refine @hletters sig [] (List.append_nil _).symm hl hpre fun t' st fuel he hb hle => ?_
      obtain ⟨fuel, rfl⟩ : ∃ f, fuel = f + 1 := ⟨fuel - 1, by omega⟩
      have hgiven : st.given = Signature.slots sig := by
        rw [hb.exact (.inl rfl), slots_of_plain hpre]
        exact Nat.zero_add _
      rw [commandArgs, List.getElem?_toArray, List.getElem?_eq_none (Nat.le_refl _), hb.op]
      refine .pure fun h hu => (hb.typed h hu).append ?_
      rw [hgiven]
      refine typed_plain (.com (he _ _ hf) fun _ => not_mem_of_plain hpre)
        (.drop _ ((hu.roomy hp).le ?_))
      change Signature.slots sig ≤ _
      rw [slots_of_plain hpre]
      omega
  | @pressed pre hroom hl hpre =>
      refine hletters rfl (Nat.le_of_lt hl) hpre fun t' st fuel he hb hle => ?_
      obtain ⟨fuel, rfl⟩ : ∃ f, fuel = f + 2 := ⟨fuel - 2, by omega⟩
      have hslots : Signature.slots (pre ++ [.pressed]) = pre.length + 1 := by
        rw [Signature.slots, List.countP_append, ← Signature.slots, slots_of_plain hpre]
        rfl
      have hgiven : st.given = pre.length := by
        rw [hb.exact (.inl rfl)]
        exact Nat.zero_add _
      have hend : (pre ++ [Letter.pressed]).toArray[pre.length + 1]? = none := by simp
      have hlast : (pre ++ [Letter.pressed]).toArray[pre.length]? = some .pressed := by simp
      rw [commandArgs, hlast]
      change Gives r t' (commandArgs k _ self prev (fuel + 1) (pre.length + 1) _) _
      rw [commandArgs, hend]
      refine .pure fun h hu => (hb.typed h hu).append ?_
      have hform := he _ _ hf
      have hplain : Plain r t' .comPressed self (Signature.slots (pre ++ [.pressed]) - 1) 0 :=
        .comPressed hform hroom fun _ => by
          refine ⟨?_, ?_⟩
          · simp [Form.signature, not_mem_of_plain hpre]
          · change 1 ≤ Signature.slots (pre ++ [.pressed])
            omega
      rw [hslots] at hplain
      rw [hgiven]
      exact typed_plain hplain (.drop _ ((hu.roomy hp).le (by omega)))
  | @all pre hl hpre =>
      refine hletters rfl hl hpre fun t' st fuel he hb hle => ?_
      obtain ⟨fuel, rfl⟩ : ∃ f, fuel = f + 1 := ⟨fuel - 1, by omega⟩
      have hgiven := hb.exact (.inl rfl)
      dsimp only at hgiven
      refine gives_commandArgs_rest hk hp (.inl rfl) (by simp) hb.typed (by omega)
        fun t'' n he' hn hn' => .comAll (fun _ => hn') fun _ =>
          ⟨_, he' _ _ (he _ _ hf), ?_, ?_⟩
      · simp [Form.signature, not_mem_of_plain hpre]
      · change Signature.slots (pre ++ [.all]) ≤ n
        rw [Signature.slots, List.countP_append, ← Signature.slots, slots_of_plain hpre]
        change pre.length + 0 ≤ n
        omega
  | @joined pre hl hpre =>
      refine hletters rfl hl hpre fun t' st fuel he hb hle => ?_
      obtain ⟨fuel, rfl⟩ : ∃ f, fuel = f + 1 := ⟨fuel - 1, by omega⟩
      have hgiven := hb.exact (.inl rfl)
      dsimp only at hgiven
      refine gives_commandArgs_rest hk hp (.inr rfl) (by simp) hb.typed (by omega)
        fun t'' n he' hn hn' => .comJoined (fun _ => hn') fun _ => ⟨_, he' _ _ (he _ _ hf), ?_⟩
      simp [Form.signature]
  | @again pre n hl hpre hn hn' hs =>
      refine hletters rfl hl hpre fun t' st fuel he hb hle => ?_
      have hgiven := hb.exact (.inl rfl)
      dsimp only at hgiven
      refine gives_commandArgs_again hk hp rfl hl hpre hn hn' hs maxArgs (he _ _ hf)
        (fun _ => Nat.sub_le _ _) ?_ hb.typed (by omega) (by omega)
      have hlen : (pre ++ [Letter.again n, .all]).length = pre.length + 2 := by simp
      rw [hlen] at hle
      refine Nat.le_trans ?_ hle
      calc (n + 1) * maxArgs + 2 ≤ (pre.length + 2 + 2) * maxArgs + (pre.length + 2 + 2) :=
            Nat.add_le_add (Nat.mul_le_mul_right _ (by omega)) (by omega)
        _ = (pre.length + 2 + 2) * (maxArgs + 1) := rfl

end Regular

/-- Where only the layout counts, any signature will do. -/
theorem gives_commandArgs_layout (hl : r = .layout) (hk : k.Serves r) {prev : Nat}
    (hp : prev < maxResults) (sig : Array Letter) (self fuel at' : Nat) {t : Table}
    (hself : self < t.size) {st : CallState} (hst : Typed r t st.code 0 0)
    (hop : st.op = .com ∨ st.op = .comPressed) :
    Gives r t (commandArgs k sig self prev fuel at' st) fun t' a => Typed r t' a.1 0 0 := by
  have hroom {h n : Nat} : r.Roomy h n := fun h => nomatch hl.symm.trans h
  induction fuel generalizing t at' st with
  | zero => exact .pure hst
  | succ fuel ih =>
      have hself' {t' : Table} (he : t.Extends r t') : ∃ f, t'.form? r self = some f :=
        Table.exists_form? r (he.lt_size hself)
      rw [commandArgs]
      cases sig[at']? with
      | none =>
          obtain ⟨f, hf⟩ := hself' (.refl r t)
          refine .pure (hst.append ?_)
          rcases hop with hop | hop
          · rw [hop]
            exact (typed_plain (.com hf (absurd hl)) (.inl hl) : Typed r t _ 0 0)
          · rw [hop]
            exact typed_plain (.comPressed hf (fun h => nomatch hl.symm.trans h) (absurd hl))
              (.inl hl)
      | some l =>
          have hrest := (gives_restOfArgs hk t prev st.given st.more).bind
            (f := fun a => Pure.pure (st.code ++ a.1 ++
              [.instr (.call (if l = .joined then .comJoined else .comAll) .null a.2.1 self)],
              a.2.2))
            (Q := fun t' a => Typed r t' a.1 0 0) fun t' a he ha => by
              refine .pure (((hst.mono he).append
                ((ha.2.2 0 Rigour.under_zero hroom).heights hl 0 0)).append ?_)
              refine Typed.call ?_ (.inl hl) (.nil (.inr rfl))
              split
              · exact .comJoined (absurd hl) (absurd hl)
              · exact .comAll (absurd hl) (absurd hl)
          have hletter (hplain : l.isPlain = true) (hs : l ≠ .self) (hc : l ≠ .count) :=
            (gives_letterArg hk t hplain hs hc (at' + 1 == sig.size) hp
              (fun h _ => hst.heights hl _ _) (fun h => nomatch hl.symm.trans h)).bind
              fun t' st' he ⟨hst', _, hop', _⟩ =>
                ih (at' + 1) (he.lt_size hself) ((hst' 0 Rigour.under_zero).heights hl 0 0)
                  (hop'.symm ▸ hop)
          cases l with
          | self =>
              exact ih _ hself (hst.append ((typed_identCode (h := 0) hself hroom).heights hl 0 0)) hop
          | count => exact ih _ hself (hst.append ((typed_int (h := 0) _ hroom).heights hl 0 0)) hop
          | pressed => exact ih _ hself hst (.inr rfl)
          | joined | all => exact hrest
          | again n =>
              refine .ite (fun _ => ih _ hself hst hop) fun _ => ?_
              refine ih _ hself (hst.append ?_) hop
              exact (typed_pops (h := 0) _ hroom).heights hl 0 0
          | _ => exact hletter rfl nofun nofun

theorem gives_command (hk : k.Serves r) {prev : Nat} (hp : prev < maxResults) {t : Table}
    {self : Nat} {sig : Signature}
    (hf : t.form? r self = some (.command (if r = .layout then [] else sig))) :
    Gives r t (commandArgs k sig.toArray self prev ((sig.length + 2) * (maxArgs + 2)) 0 {})
      fun t' a => StatementTyped r t' prev a.1 := by
  refine .ofSound fun ht => ?_
  by_cases hl : r = .layout
  · refine (gives_commandArgs_layout hl hk hp _ self _ 0 (Table.lt_size_of_form? hf)
      (.nil (.inl hl)) (.inl rfl)).mono fun t' a _ ha h _ => ha.heights hl h h
  · rw [if_neg hl] at hf
    exact gives_commandArgs_regular hk hp (ht.regular hl self sig hf) hf

end ConsoleScript.Compile
