import ConsoleScript.Proofs.Compile.Statements

/-!
The code of arguments, and with it of whole texts. Every form of an argument leaves one operand, or
none if nothing is wanted. When the compiler is told of too many operands, it computes statements,
look-ups of commands and spliced blocks by themselves, so that they begin with an empty stack; this
is what keeps the number of operands bounded. The compiler for nested texts is correct by induction
on the number of levels.
-/

namespace ConsoleScript.Compile

open Bytecode

variable {r : Rigour} {k : Nested} {prev : Nat}

/-- The code of a word. -/
theorem gives_wordCode (hk : k.Serves r) (t : Table) (want : Want) {word : Bytes}
    (hword : word.length < operandLimit) (name : Bytes) :
    Gives r t (wordCode k want word name) fun t' code => ArgTyped r t' want prev code := by
  have hnull {t : Table} {want : Want} {code : Code} (hw : want.leaves = 1)
      (hc : ∀ h, r.Roomy h 1 → Typed r t code h (h + 1)) :
      ArgTyped r t want prev (if word.isEmpty then nullCode else code) := by
    intro h _ hh
    rw [hw]
    split
    · exact typed_null hh
    · exact hc h hh
  cases want with
  | any => exact .pure (hnull rfl fun _ hh => typed_text hword hh)
  | anyView => exact .pure (hnull rfl fun _ hh => typed_view hword hh)
  | int => exact .pure fun _ _ hh => typed_int _ hh
  | float => exact .pure fun _ _ hh => typed_float _ hh
  | text | head => exact .pure fun _ _ hh => typed_text hword hh
  | textView => exact .pure fun _ _ hh => typed_view hword hh
  | code => exact (gives_textLiteral hk t hword name 1).mono fun _ _ _ hc h _ hh => hc h hh
  | condition =>
      refine .ite (fun _ => .pure fun _ _ hh => typed_null hh) fun _ => ?_
      exact (gives_textLiteral hk t hword name 1).mono fun _ _ _ hc h _ hh => hc h hh
  | ident =>
      refine (gives_intern r t word).bind fun t' i _ hi => .pure fun _ _ hh => ?_
      exact typed_identCode hi hh
  | nothing => exact .pure fun _ _ _ => .nil (.inr rfl)

theorem gives_invalidLookup (hk : k.Serves r) (t : Table) (want : Want) :
    Gives r t (invalidLookup k want) fun t' code => ArgTyped r t' want prev code := by
  have hword : Gives r t (wordCode k want [] []) fun t' code => ArgTyped r t' want prev code :=
    gives_wordCode hk t want (by decide) []
  cases want with
  | nothing => exact .pure fun _ _ _ => .nil (.inr rfl)
  | any | anyView | head | condition => exact .pure fun _ _ hh => typed_null hh
  | _ => exact hword

theorem typed_lookupComputed (t : Table) (want : Want) {h : Nat} (hh : r.Roomy h 1) :
    Typed r t (lookupComputed want) (h + 1) (h + want.leaves) := by
  refine Typed.append (m := h + 1) ?_ (typed_lookupTail want hh)
  have hview {ret : RetTag} : Typed r t (plain .lookupViewNamed ret) (h + 1) (h + 1) :=
    typed_plain .lookupViewNamed (.join 1 hh)
  have hown {ret : RetTag} : Typed r t (plain .lookupNamed ret) (h + 1) (h + 1) :=
    typed_plain .lookupNamed (.join 1 hh)
  cases want <;> first | exact hview | exact hown

theorem typed_lookupArg {t : Table} (ht : t.Sound r) {l : Letter} (hl : l.isPlain = true)
    {self : Nat} (hself : self < t.size) (given : Nat) {h : Nat} (hh : r.Roomy (h + given) 1) :
    Typed r t (lookupArg l self given) (h + given) (h + given + 1) := by
  have hmissing := typed_missingArg ht hl (h := h)
  cases l with
  | self => exact typed_identCode hself hh
  | count => exact typed_int _ hh
  | pressed | joined | all | again _ => cases hl
  | _ => exact hmissing nofun nofun given hh

private theorem typed_lookupArgs_plain {t : Table} (ht : t.Sound r) {pre : Signature}
    (hpre : ∀ l ∈ pre, l.isPlain = true) {self : Nat} (hself : self < t.size) {code : Code}
    {given h : Nat} (hcode : Typed r t code h (h + given)) (hh : r.Roomy h (given + pre.length)) :
    ∃ code', pre.foldl (addLookupArg self) (code, given) = (code', given + pre.length) ∧
      Typed r t code' h (h + (given + pre.length)) := by
  induction pre generalizing code given with
  | nil => exact ⟨code, rfl, hcode⟩
  | cons l rest ih =>
      have hl := hpre l List.mem_cons_self
      have hslot : l.isSlot = true := (Bool.and_eq_true_iff.mp hl).1
      rw [List.length_cons] at hh ⊢
      have hone : Typed r t (code ++ lookupArg l self given) h (h + (given + 1)) :=
        hcode.append (typed_lookupArg ht hl hself given (Rigour.Roomy.above (hh.le (by omega))))
      obtain ⟨code', hfold, htyped⟩ := ih (fun l hm => hpre l (List.mem_cons_of_mem _ hm)) hone
        (hh.le (by omega))
      refine ⟨code', ?_, ?_⟩
      · rw [List.foldl_cons, addLookupArg, hslot, if_pos rfl, hfold, Nat.add_assoc, Nat.add_comm 1]
      · rw [Nat.add_assoc given, Nat.add_comm 1] at htyped
        exact htyped

private theorem any_plain {pre : Signature} (hpre : ∀ l ∈ pre, l.isPlain = true) {l : Letter}
    (hl : l.isPlain = false) : pre.any (fun x => decide (x = l)) = false := by
  refine List.any_eq_false.mpr fun x hx hxl => ?_
  have hx := hpre x hx
  rw [of_decide_eq_true hxl, hl] at hx
  cases hx

private theorem typed_lookupArgs_layout (hl : r = .layout) {t : Table} (ht : t.Sound r) {self : Nat}
    (hself : self < t.size) (sig : Signature) : Typed r t (lookupArgs sig self).1 0 0 := by
  have hstep (sig : Signature) (code : Code) (given : Nat) (hcode : Typed r t code 0 0) :
      Typed r t (sig.foldl (addLookupArg self) (code, given)).1 0 0 := by
    induction sig generalizing code given with
    | nil => exact hcode
    | cons l rest ih =>
        refine ih _ _ (hcode.append ?_)
        have hplain (hp : l.isPlain = true) := (typed_lookupArg ht hp hself given (h := 0)
          fun h => nomatch hl.symm.trans h).heights hl 0 0
        cases l with
        | pressed | joined | all | again _ => exact .nil (.inr rfl)
        | _ => exact hplain rfl
  exact hstep sig [] 0 (.nil (.inr rfl))

/-- A command that is looked up takes what stands in for its arguments. -/
theorem typed_lookupCall {t : Table} (ht : t.Sound r) {self : Nat} {sig : Signature}
    (hf : t.form? r self = some (.command (if r = .layout then [] else sig))) (ret : RetTag)
    {h : Nat} (hh : r.Roomy h maxDeclared) : Typed r t (lookupCall sig self ret) h h := by
  have hself := Table.lt_size_of_form? hf
  by_cases hl : r = .layout
  · have hcall : Typed r t (lookupCall sig self ret) 0 0 := by
      refine (typed_lookupArgs_layout hl ht hself sig).append ?_
      split
      · exact .call (.comAll (absurd hl) (absurd hl)) (.inl hl) (.nil (.inr rfl))
      split
      · exact .call (.comJoined (absurd hl) (absurd hl)) (.inl hl) (.nil (.inr rfl))
      split
      · exact typed_plain (.comPressed hf (fun h => nomatch hl.symm.trans h) (absurd hl)) (.inl hl)
      · exact typed_plain (.com hf (absurd hl)) (.inl hl)
    exact hcall.heights hl h h
  · rw [if_neg hl] at hf
    have hstart : Typed r t [] h (h + 0) := .nil (.inr rfl)
    have hdeclared : maxDeclared ≤ maxArgs := by decide
    -- the letters that take a value, and then the others, which leave nothing
    have hargs {pre tail : Signature} (hs : sig = pre ++ tail) (hlen : pre.length ≤ maxDeclared)
        (hpre : ∀ l ∈ pre, l.isPlain = true) : ∃ code, Typed r t code h (h + pre.length) ∧
          lookupArgs sig self = tail.foldl (addLookupArg self) (code, pre.length) := by
      obtain ⟨code, hfold, hcode⟩ := typed_lookupArgs_plain ht hpre hself hstart
        (hh.le (by omega))
      rw [Nat.zero_add] at hfold hcode
      refine ⟨code, hcode, ?_⟩
      rw [hs, lookupArgs, List.foldl_append, hfold]
    cases ht.regular hl self sig hf with
    | fixed hlen hpre =>
        obtain ⟨code, hcode, hfold⟩ := @hargs sig [] (List.append_nil _).symm hlen hpre
        rw [lookupCall, hfold]
        simp only [List.foldl_nil, any_plain hpre (l := .all) rfl, any_plain hpre (l := .joined) rfl,
          any_plain hpre (l := .pressed) rfl, Bool.false_eq_true, if_false]
        refine hcode.append (typed_plain (.com hf fun _ => not_mem_of_plain hpre) ?_)
        have hslots : (Form.command sig).signature.slots = sig.length := slots_of_plain hpre
        rw [hslots]
        exact .drop _ (hh.le (by omega))
    | @pressed pre hroom hlen hpre =>
        obtain ⟨code, hcode, hfold⟩ := hargs rfl (Nat.le_of_lt hlen) hpre
        rw [lookupCall, hfold]
        have hslots : Signature.slots (pre ++ [.pressed]) = pre.length + 1 := by
          rw [Signature.slots, List.countP_append, ← Signature.slots, slots_of_plain hpre]
          rfl
        have hplain : Plain r t .comPressed self (Signature.slots (pre ++ [.pressed]) - 1) 0 :=
          .comPressed hf hroom fun _ => by
            refine ⟨?_, ?_⟩
            · simp [Form.signature, not_mem_of_plain hpre]
            · change 1 ≤ Signature.slots (pre ++ [.pressed])
              omega
        rw [hslots] at hplain
        simp only [List.foldl_cons, List.foldl_nil, addLookupArg, lookupArg, List.append_nil, List.any_append,
          any_plain hpre (l := .all) rfl, any_plain hpre (l := .joined) rfl,
          any_plain hpre (l := .pressed) rfl, List.any_cons, List.any_nil, Bool.false_or]
        exact hcode.append (typed_plain hplain (.drop _ (hh.le (by omega))))
    | @all pre hlen hpre =>
        obtain ⟨code, hcode, hfold⟩ := hargs rfl hlen hpre
        rw [lookupCall, hfold]
        have hslots : (Form.command (pre ++ [.all])).signature.slots = pre.length := by
          change Signature.slots (pre ++ [.all]) = _
          rw [Signature.slots, List.countP_append, ← Signature.slots, slots_of_plain hpre]
          rfl
        have hcall : Call r t .comAll pre.length self :=
          .comAll (fun _ => by omega) fun _ => ⟨_, hf, by
            simp [Form.signature, not_mem_of_plain hpre], Nat.le_of_eq hslots⟩
        simp only [List.foldl_cons, List.foldl_nil, addLookupArg, lookupArg, missingArg, List.append_nil,
          List.any_append, any_plain hpre (l := .all) rfl, List.any_cons, List.any_nil]
        have hfit : r.Roomy h pre.length := hh.le hlen
        exact hcode.append (typed_call hcall hfit)
    | @joined pre hlen hpre =>
        obtain ⟨code, hcode, hfold⟩ := hargs rfl hlen hpre
        rw [lookupCall, hfold]
        have hcall : Call r t .comJoined pre.length self :=
          .comJoined (fun _ => by omega) fun _ => ⟨_, hf, by simp [Form.signature]⟩
        simp only [List.foldl_cons, List.foldl_nil, addLookupArg, lookupArg, missingArg, List.append_nil,
          List.any_append, any_plain hpre (l := .all) rfl, any_plain hpre (l := .joined) rfl,
          List.any_cons, List.any_nil]
        have hfit : r.Roomy h pre.length := hh.le hlen
        exact hcode.append (typed_call hcall hfit)
    | @again pre n hlen hpre hn hn' hs =>
        obtain ⟨code, hcode, hfold⟩ := hargs rfl hlen hpre
        rw [lookupCall, hfold]
        have hslots : (Form.command (pre ++ [.again n, .all])).signature.slots = pre.length := by
          change Signature.slots (pre ++ [.again n, .all]) = _
          rw [Signature.slots, List.countP_append, ← Signature.slots, slots_of_plain hpre]
          rfl
        have hcall : Call r t .comAll pre.length self :=
          .comAll (fun _ => by omega) fun _ => ⟨_, hf, by
            simp [Form.signature, not_mem_of_plain hpre], Nat.le_of_eq hslots⟩
        simp only [List.foldl_cons, List.foldl_nil, addLookupArg, lookupArg, missingArg, List.append_nil,
          List.any_append, any_plain hpre (l := .all) rfl, List.any_cons, List.any_nil]
        have hfit : r.Roomy h pre.length := hh.le hlen
        exact hcode.append (typed_call hcall hfit)

private theorem argTyped_result {t : Table} {want : Want} {ret : RetTag} {code : Code}
    (hs : maxResults ≤ prev → Typed r t code 0 0)
    (hc : prev < maxResults → StatementTyped r t prev code) :
    ArgTyped r t want prev ((if maxResults ≤ prev then [.spill code ret]
      else code ++ plain .resultArg want.tag) ++ lookupTail want) := by
  intro h hu hh
  refine Typed.append (m := h + 1) ?_ (typed_lookupTail want hh)
  split <;> rename_i hp
  · exact typed_spill (hs hp) ret hh
  · exact (hc (Nat.lt_of_not_le hp) h hu).append (typed_plain .resultArg (.push hh))

private theorem argTyped_lookupCommand {t : Table} (ht : t.Sound r) {self : Nat} {sig : Signature}
    (hf : t.form? r self = some (.command (if r = .layout then [] else sig))) (want : Want) :
    ArgTyped r t want prev (lookupCommand sig self want prev) := by
  refine argTyped_result (fun _ => typed_lookupCall ht hf _ (Rigour.roomy_zero (by decide)))
    fun hp h hu => typed_lookupCall ht hf _ ((hu.roomy hp).le (by decide))

/-- The value of a named identifier. -/
theorem gives_lookupNamed (hk : k.Serves r) (t : Table) (name : Bytes) (want : Want) :
    Gives r t (lookupNamed k name want prev) fun t' code => ArgTyped r t' want prev code := by
  refine (gives_intern r t name).bind fun t₁ i _ hi => ?_
  refine (gives_roleOf r t₁ hi).bind fun t₂ role _ hf => .ofSound fun ht => ?_
  refine .ite (fun hn => ?_) fun hn => ?_
  · have hw : want = .nothing := of_decide_eq_true (Bool.and_eq_true_iff.mp hn).1
    subst hw
    exact .pure fun _ _ _ => .nil (.inr rfl)
  -- a variable or an alias is pushed, and then converted to what is wanted
  have hpushed {push : Code} (hc : ∀ h, r.Roomy h 1 → Typed r t₂ push h (h + 1)) :
      ArgTyped r t₂ want prev (push ++ lookupTail want) :=
    fun h _ hh => (hc h hh).append (typed_lookupTail want hh)
  have hnumber {push : Code} (hc : ∀ h, r.Roomy h 1 → Typed r t₂ push h (h + 1)) :
      ArgTyped r t₂ want prev (push ++ if want = .condition then [] else lookupTail want) := by
    split <;> rename_i hw
    · intro h _ hh
      rw [List.append_nil, hw]
      exact hc h hh
    · exact hpushed hc
  cases role with
  | intVar => exact .pure (hnumber fun _ hh => typed_plain (.intVar hf) (.push hh))
  | floatVar => exact .pure (hnumber fun _ hh => typed_plain (.floatVar hf) (.push hh))
  | textVar =>
      refine .pure (hpushed fun h hh => ?_)
      cases want <;> first
        | exact typed_plain (.textVarView hf) (.push hh)
        | exact typed_plain (.textVar hf) (.push hh)
  | «alias» =>
      refine .pure (hpushed fun h hh => ?_)
      by_cases hi : i < maxArgs
      · simp only [hi, if_true]
        cases want <;> first
          | exact typed_plain (.lookupViewArg hi) (.push hh)
          | exact typed_plain (.lookupArg hi) (.push hh)
      · simp only [hi, if_false]
        cases want <;> first
          | exact typed_plain (.lookupView hf) (.push hh)
          | exact typed_plain (.lookup hf) (.push hh)
  | command sig action => exact .pure (argTyped_lookupCommand ht hf want)
  | control c => exact gives_invalidLookup hk t₂ want

private theorem gives_lookupOne (hk : k.Serves r) (t : Table) (want : Want) :
    Gives r t (lookupOne k want prev) fun t' code => ArgTyped r t' want prev code := by
  refine (gives_peek r t 0).bind fun t _ _ _ => ?_
  refine .ite (fun _ => ?_) fun _ => .ite (fun _ => ?_) fun _ => ?_
  · refine (hk.arg t .textView prev).bind fun t answer _ hname => ?_
    cases answer with
    | none => exact gives_invalidLookup hk t want
    | some name =>
        exact .pure fun h hu hh => (hname name rfl h hu hh).append (typed_lookupComputed t want hh)
  · exact (gives_cutRaw r t).bind fun t name _ _ => gives_lookupNamed hk t name want
  · refine (gives_cutWord r t).bind fun t name _ _ => ?_
    exact .ite (fun _ => gives_invalidLookup hk t want) fun _ => gives_lookupNamed hk t name want

/-- A look-up with its signs. -/
theorem gives_lookup (hk : k.Serves r) (t : Table) (want : Want) :
    Gives r t (lookup k want prev) fun t' code => ArgTyped r t' want prev code := by
  refine (gives_cursor r t).bind fun t c _ _ => ?_
  refine (gives_advance r t _).bind fun t _ _ _ => ?_
  refine .ite (fun _ => gives_lookupOne hk t want) fun _ => ?_
  refine (gives_lookupOne hk t .textView).bind fun t name _ hname => .pure fun h hu hh => ?_
  have hbetween (n : Nat) : Typed r t (List.replicate n (lookupComputed .textView)).flatten
      (h + 1) (h + 1) := by
    induction n with
    | zero => exact .nil (.inr rfl)
    | succ n ih =>
        rw [List.replicate_succ, List.flatten_cons]
        exact (typed_lookupComputed t .textView hh).append ih
  exact ((hname h hu hh).append (hbetween _)).append (typed_lookupComputed t want hh)

theorem length_blockText (mode : TextMode) (s : Bytes) : (blockText mode s).length ≤ s.length := by
  fun_induction blockText mode s <;> simp only [List.length_cons, List.length_nil] at * <;> omega

theorem typed_blockTextCode {t : Table} (view : Bool) {s : Bytes} (hs : s.length < operandLimit)
    {h : Nat} (hh : r.Roomy h 1) : Typed r t (blockTextCode view s) h (h + 1) := by
  have hlen := Nat.lt_of_le_of_lt (length_blockText .plain s) hs
  unfold blockTextCode
  split
  · exact typed_view hlen hh
  · exact typed_text hlen hh

/-- A name behind a splice sign is one operand, whatever it stands for. -/
theorem gives_spliceNamed (t : Table) {name : Bytes} (hname : name.length < operandLimit) :
    Gives r t (intern name >>= fun i => roleOf i >>= fun role => match role with
      | .intVar .. => return some (plain .intVar .null i)
      | .floatVar .. => return some (plain .floatVar .null i)
      | .textVar .. => return some (plain .textVarView .null i)
      | .alias => return some (plain (if i < maxArgs then .lookupViewArg else .lookupView) .null i)
      | _ => return some (viewCode name ++ plain .lookupViewNamed)) fun t' answer =>
      ∀ code, answer = some code → ArgTyped r t' .any prev code := by
  refine (gives_intern r t name).bind fun t i _ hi => ?_
  refine (gives_roleOf r t hi).bind fun t role _ hf => ?_
  have hsome {code : Code} (hc : ArgTyped r t .any prev code) :
      Gives r t (Pure.pure (some code)) fun t' answer =>
        ∀ code, answer = some code → ArgTyped r t' .any prev code :=
    .pure fun _ h => by cases h; exact hc
  cases role with
  | intVar => exact hsome fun _ _ hh => typed_plain (.intVar hf) (.push hh)
  | floatVar => exact hsome fun _ _ hh => typed_plain (.floatVar hf) (.push hh)
  | textVar => exact hsome fun _ _ hh => typed_plain (.textVarView hf) (.push hh)
  | «alias» =>
      refine hsome fun _ _ hh => ?_
      split
      · exact typed_plain (.lookupViewArg ‹_›) (.push hh)
      · exact typed_plain (.lookupView hf) (.push hh)
  | command | control =>
      exact hsome fun _ _ hh => (typed_view hname hh).append
        (typed_plain .lookupViewNamed (.join 1 hh))

/-- What a splice sign stands before is one operand. -/
theorem gives_splice (hk : k.Serves r) (t : Table) :
    Gives r t (splice k prev) fun t' answer =>
      ∀ code, answer = some code → ArgTyped r t' .any prev code := by
  refine (gives_peek r t 0).bind fun t _ _ _ => ?_
  refine .ite (fun _ => ?_) fun _ => .ite (fun _ => ?_) fun _ => .ite (fun _ => ?_) fun _ => ?_
  · exact hk.arg t .anyView prev
  · refine (hk.arg t .textView prev).bind fun t answer _ hname => .pure fun code hcode => ?_
    obtain ⟨name, rfl, rfl⟩ := Option.map_eq_some_iff.mp hcode
    exact fun h hu hh => (hname name rfl h hu hh).append
      (typed_plain .lookupViewNamed (.join 1 hh))
  · exact (gives_cutRaw r t).bind fun t name _ hname => gives_spliceNamed t hname
  · refine (gives_cursor r t).bind fun t c _ hc => ?_
    refine .ite (fun _ => .pure nofun) fun _ => ?_
    refine (gives_advance r t _).bind fun t _ _ _ => gives_spliceNamed t ?_
    exact Nat.lt_of_le_of_lt (List.takeWhile_sublist _).length_le hc

/-- A block literal in progress leaves an operand for each of its parts. -/
structure Splicing.Good (r : Rigour) (t : Table) (prev : Nat) (st : Splicing) : Prop where
  parts : st.parts ≤ maxArgs
  source : st.source.length < operandLimit
  typed : ∀ h, r.Under h prev → r.Roomy h (maxArgs + 1) → Typed r t st.code h (h + st.parts)

theorem Splicing.Good.mono {t t' : Table} {st : Splicing} (hst : st.Good r t prev)
    (ht : t.Extends r t') : st.Good r t' prev :=
  ⟨hst.parts, hst.source, fun h hu hr => (hst.typed h hu hr).mono ht⟩

theorem Splicing.Good.segment {t : Table} {st : Splicing} (hst : st.Good r t prev) (rest : Bytes) :
    (st.segment rest).length < operandLimit := by
  have hs := hst.source
  unfold Splicing.segment
  rw [List.length_take]
  omega

private theorem gives_addSplice (hk : k.Serves r) (t : Table) {segment : Bytes}
    (hseg : segment.length < operandLimit) {st : Splicing} (hst : st.Good r t prev) :
    Gives r t (addSplice k prev segment st) fun t' st' => st'.Good r t' prev := by
  have hparts := hst.parts
  -- operands that would get too many are joined first
  obtain ⟨merge, parts, heq, hle, hmerge⟩ : ∃ merge parts,
      (if maxArgs < st.parts + 2 then (plain .concWord .text st.parts, 1) else ([], st.parts)) =
        (merge, parts) ∧ parts + 2 ≤ maxArgs ∧ ∀ t h, r.Roomy h (maxArgs + 1) →
          Typed r t merge (h + st.parts) (h + parts) := by
    split
    · refine ⟨_, _, rfl, by decide, fun t h hh => ?_⟩
      exact typed_plain (.concWord (by unfold maxOperands; omega))
        (.join _ (hh.le (Nat.le_add_left 1 maxArgs)))
    · exact ⟨_, _, rfl, by omega, fun t h _ => .nil (.inr rfl)⟩
  unfold addSplice
  rw [heq]
  refine (gives_splice hk t).bind fun t₁ spliced he₁ hs => ?_
  refine (gives_cursor r t₁).bind fun t₂ c he₂ hc => .pure ⟨?_, hc, fun h hu hr => ?_⟩
  · dsimp only
    split <;> omega
  · have htext : Typed r t₂ (blockTextCode true segment) (h + parts) (h + parts + 1) :=
      typed_blockTextCode true hseg (Rigour.Roomy.above (hr.le (by omega)))
    have hfront := (((hst.typed h hu hr).mono (he₁.trans he₂)).append (hmerge t₂ h hr)).append htext
    refine hfront.append ?_
    cases spliced with
    | none => exact .nil (.inr rfl)
    | some code =>
        refine (hs code rfl (h + parts + 1) ?_ ?_).mono he₂
        · intro hroom
          have := hu hroom
          omega
        · exact Rigour.Roomy.above (n := parts + 1) (hr.le (by omega))

private theorem gives_readLiteral (hk : k.Serves r) (t : Table) (fuel depth : Nat) {st : Splicing}
    (hst : st.Good r t prev) :
    Gives r t (readLiteral k prev fuel depth st) fun t' a =>
      a.1.Good r t' prev ∧ a.2.length < operandLimit := by
  induction fuel generalizing t depth st with
  | zero => exact .pure ⟨hst, Nat.zero_lt_of_lt hst.source⟩
  | succ fuel ih =>
      refine (gives_skipTo r t _).bind fun t₁ _ he₁ _ => ?_
      refine (gives_cursor r t₁).bind fun t₂ c he₂ _ => ?_
      replace hst := hst.mono (he₁.trans he₂)
      refine .ite (fun _ => ?_) fun _ => ?_
      · exact (gives_warn r t₂ _).bind fun t₃ _ he₃ _ => .pure ⟨hst.mono he₃, hst.source⟩
      refine (gives_next r t₂).bind fun t₃ _ he₃ _ => ?_
      replace hst := hst.mono he₃
      refine .ite (fun _ => ?_) fun _ => .ite (fun _ => ?_) fun _ => ?_
      · exact (gives_cutStringBody r t₃).bind fun t₄ _ he₄ _ => ih t₄ depth (hst.mono he₄)
      · refine (gives_peek r t₃ 0).bind fun t₄ _ he₄ _ => ?_
        replace hst := hst.mono he₄
        refine .ite (fun _ => ?_) fun _ => ih t₄ depth hst
        exact (gives_skipTo r t₄ _).bind fun t₅ _ he₅ _ => ih t₅ depth (hst.mono he₅)
      refine .ite (fun _ => ih t₃ _ hst) fun _ => .ite (fun _ => ?_) fun _ => ?_
      · exact .ite (fun _ => .pure ⟨hst, hst.segment _⟩) fun _ => ih t₃ _ hst
      refine (gives_cursor r t₃).bind fun t₄ _ he₄ _ => ?_
      refine (gives_advance r t₄ _).bind fun t₅ _ he₅ _ => ?_
      replace hst := hst.mono (he₄.trans he₅)
      refine .ite (fun _ => ih t₅ depth hst) fun _ => ?_
      have hsplice {t : Table} (he : t₅.Extends r t) :
          Gives r t (addSplice k prev (st.segment c.rest) st >>= readLiteral k prev fuel depth)
            fun t' a => a.1.Good r t' prev ∧ a.2.length < operandLimit :=
        (gives_addSplice hk t (hst.segment _) (hst.mono he)).bind fun t' st' _ hst' =>
          ih t' depth hst'
      refine .ite (fun _ => ?_) fun _ => hsplice (.refl r t₅)
      exact (gives_warn r t₅ _).bind fun t₆ _ he₆ _ => hsplice he₆

/-- A block literal without splices. -/
theorem gives_plainLiteral (hk : k.Serves r) (t : Table) (want : Want) {segment : Bytes}
    (hs : segment.length < operandLimit) (name : Bytes) (line : Nat) :
    Gives r t (plainLiteral k want segment name line) fun t' code => ArgTyped r t' want prev code := by
  have hforce {t : Table} {h : Nat} {ret : RetTag} (hh : r.Roomy h 1) :
      Typed r t (blockTextCode false segment ++ plain .force ret) h (h + 1) :=
    (typed_blockTextCode false hs hh).append (typed_plain .force (.join 1 hh))
  cases want with
  | nothing => exact .pure fun _ _ _ => .nil (.inr rfl)
  | code | condition =>
      exact (gives_textLiteral hk t hs name line).mono fun _ _ _ hc h _ hh => hc h hh
  | ident =>
      refine (gives_noteLiteralName r t segment).bind fun t _ _ _ => ?_
      refine (gives_intern r t segment).bind fun t i _ hi => .pure fun _ _ hh => ?_
      exact typed_identCode hi hh
  | textView | anyView => exact .pure fun _ _ hh => typed_blockTextCode true hs hh
  | int | float => exact .pure fun _ _ hh => hforce hh
  | any | text | head => exact .pure fun _ _ hh => typed_blockTextCode false hs hh

private theorem gives_emptyLiteral (hk : k.Serves r) (t : Table) (want : Want) (name : Bytes) :
    Gives r t (emptyLiteral k want name) fun t' code => ArgTyped r t' want prev code := by
  have hword : Gives r t (wordCode k want [] name) fun t' code => ArgTyped r t' want prev code :=
    gives_wordCode hk t want (by decide) name
  refine .ofSound fun ht => ?_
  cases want with
  | nothing => exact .pure fun _ _ _ => .nil (.inr rfl)
  | condition => exact .pure fun _ _ hh => typed_null hh
  | code => exact .pure fun _ _ hh => typed_blockLiteral (.nil (.inr rfl)) hh
  | ident => exact .pure fun _ _ hh => typed_dummyCode ht hh
  | textView | anyView => exact .pure fun _ _ hh => typed_view (by decide) hh
  | any | text | head => exact .pure fun _ _ hh => typed_text (by decide) hh
  | int | float => exact hword

/-- A block literal: its parts are joined, in place or by themselves. -/
theorem gives_blockLiteral (hk : k.Serves r) (t : Table) (want : Want) :
    Gives r t (blockLiteral k want prev) fun t' code => ArgTyped r t' want prev code := by
  refine (gives_cursor r t).bind fun t c₁ _ _ => ?_
  refine (gives_cursor r t).bind fun t c₂ _ _ => ?_
  refine (gives_cursor r t).bind fun t c₃ _ hc => ?_
  have hstart : Splicing.Good r t prev { source := c₃.rest } :=
    ⟨Nat.zero_le _, hc, fun h _ _ => .nil (.inr rfl)⟩
  refine (gives_readLiteral hk t _ 1 hstart).bind fun t a _ ha => ?_
  obtain ⟨st, segment⟩ := a
  obtain ⟨hst, hseg⟩ := ha
  dsimp only at hst hseg
  refine .ite (fun _ => ?_) fun _ => ?_
  · exact .ite (fun _ => gives_emptyLiteral hk t want _) fun _ =>
      gives_plainLiteral hk t want hseg _ _
  obtain ⟨last, parts, heq, hle, hlast⟩ : ∃ last parts,
      (if segment.isEmpty then ([], st.parts) else (blockTextCode true segment, st.parts + 1)) =
        (last, parts) ∧ parts ≤ maxArgs + 1 ∧ ∀ h, r.Roomy h (maxArgs + 1) →
          Typed r t last (h + st.parts) (h + parts) := by
    have hparts := hst.parts
    split
    · exact ⟨_, _, rfl, by omega, fun _ _ => .nil (.inr rfl)⟩
    · refine ⟨_, _, rfl, by omega, fun h hh => ?_⟩
      exact typed_blockTextCode true hseg (Rigour.Roomy.above (hh.le (by omega)))
  have hcode (h : Nat) (hu : r.Under h prev) (hh : r.Roomy h (maxArgs + 1)) :
      Typed r t (st.code ++ last) h (h + parts) :=
    (hst.typed h hu hh).append (hlast h hh)
  have hmax : parts ≤ maxOperands := Nat.le_trans hle (by decide)
  rw [heq]
  refine .pure fun h hu hh => Typed.append (m := h + 1) ?_ (typed_lookupTail want hh)
  split <;> rename_i hp
  · refine typed_spill ?_ _ hh
    have hroom : r.Roomy 0 (maxArgs + 1) := Rigour.roomy_zero (by decide)
    exact (hcode 0 Rigour.under_zero hroom).append
      (typed_plain (.concResult hmax) (.drop parts (hroom.le hle)))
  · have hroom := hu.roomy (Nat.lt_of_not_le hp)
    exact (hcode h hu hroom).append (typed_plain (.concWord hmax) (.join parts hh))

private theorem gives_group (hk : k.Serves r) (t : Table) (want : Want) :
    Gives r t (group k want prev) fun t' code => ArgTyped r t' want prev code := by
  refine (gives_cursor r t).bind fun t c _ _ => ?_
  refine .ite (fun _ => ?_) fun hp => ?_
  · refine (gives_statements hk t (by decide) _ _).bind fun t inner _ hinner => ?_
    exact .pure fun h _ hh =>
      (typed_spill (hinner 0 Rigour.under_zero) _ hh).append (typed_lookupTail want hh)
  · refine (gives_statements hk t (Nat.lt_of_not_le hp) _ _).bind fun t inner _ hinner => ?_
    refine .ite (fun _ => gives_wordCode hk t want (by decide) _) fun _ => ?_
    exact .pure fun h hu hh => ((hinner h hu).append (typed_plain .resultArg (.push hh))).append
      (typed_lookupTail want hh)

/-- Statements up to a closing parenthesis, in front of which some operands are pending. -/
def enclosed (k : Nested) (want : Want) (prev : Nat) : CompileM Code :=
  statements k want.takesView (code ')') prev

/-- Statements in front of few operands are compiled to be run in place. -/
theorem group_inPlace {want : Want} {st st' : State} {inner : Code} (hprev : prev < maxResults)
    (hinner : (enclosed k want prev).run st = (inner, st'))
    (hne : inner ≠ []) :
    (group k want prev).run st = (inner ++ plain .resultArg want.tag ++ lookupTail want, st') := by
  have hgroup : (group k want prev).run st = StateT.run (m := Id) (do
      let inner ← enclosed k want prev
      if inner.isEmpty then wordCode k want [] st.cursor.name
      else return inner ++ plain .resultArg want.tag ++ lookupTail want) st := by
    simp only [group, if_neg (Nat.not_le_of_lt hprev)]
    rfl
  have hempty : inner.isEmpty = false := by simpa using hne
  rw [hgroup, StateT.run_bind, hinner]
  change StateT.run (m := Id) (if inner.isEmpty then _ else _) st' = _
  rw [hempty]
  rfl

theorem group_byItself {want : Want} {st st' : State} {inner : Code} (hprev : maxResults ≤ prev)
    (hinner : (enclosed k want 0).run st = (inner, st')) :
    (group k want prev).run st = ([.spill inner want.tag] ++ lookupTail want, st') := by
  have hgroup : (group k want prev).run st = StateT.run (m := Id) (do
      let inner ← enclosed k want 0
      return [.spill inner want.tag] ++ lookupTail want) st := by
    simp only [group, if_pos hprev]
    rfl
  rw [hgroup, StateT.run_bind, hinner]
  rfl

private theorem gives_stringArg (hk : k.Serves r) (t : Table) (want : Want) :
    Gives r t (stringArg k want) fun t' code => ArgTyped r t' want prev code := by
  refine (gives_cursor r t).bind fun t c _ _ => ?_
  refine (gives_cutString r t).bind fun t s _ hs => ?_
  have hword : Gives r t (wordCode k want s c.name) fun t' code => ArgTyped r t' want prev code :=
    gives_wordCode hk t want hs _
  cases want with
  | any | text => exact .pure fun _ _ hh => typed_text hs hh
  | anyView | textView => exact .pure fun _ _ hh => typed_view hs hh
  | _ => exact hword

/-- One argument. -/
theorem gives_argument (hk : k.Serves r) (t : Table) (want : Want) :
    Gives r t (argument k want prev) fun t' answer =>
      ∀ code, answer = some code → ArgTyped r t' want prev code := by
  have hsome {t : Table} {m : CompileM Code}
      (hm : Gives r t m fun t' code => ArgTyped r t' want prev code) :
      Gives r t (m >>= fun code => Pure.pure (some code)) fun t' answer =>
        ∀ code, answer = some code → ArgTyped r t' want prev code :=
    hm.bind fun _ _ _ hc => .pure fun _ h => by cases h; exact hc
  refine (gives_skipComments r t).bind fun t _ _ _ => ?_
  refine (gives_peek r t 0).bind fun t _ _ _ => ?_
  refine .ite (fun _ => hsome (gives_stringArg hk t want)) fun _ => ?_
  refine .ite (fun _ => hsome (gives_lookup hk t want)) fun _ => ?_
  refine .ite (fun _ => ?_) fun _ => .ite (fun _ => ?_) fun _ => ?_
  · exact (gives_advance r t 1).bind fun t _ _ _ => hsome (gives_group hk t want)
  · exact (gives_advance r t 1).bind fun t _ _ _ => hsome (gives_blockLiteral hk t want)
  · refine (gives_cursor r t).bind fun t c _ _ => ?_
    refine (gives_cutWord r t).bind fun t word _ hword => ?_
    exact .ite (fun _ => .pure nofun) fun _ => hsome (gives_wordCode hk t want hword _)

private theorem gives_firstWord (hk : k.Serves r) (t : Table) :
    Gives r t (firstWord k prev) fun t' answer =>
      ∀ head, answer = some head → HeadTyped r t' prev head := by
  refine (gives_skipComments r t).bind fun t _ _ _ => ?_
  refine (gives_peek r t 0).bind fun t _ _ _ => ?_
  refine .ite (fun _ => ?_) fun _ => .ite (fun _ => ?_) fun _ => ?_
  · refine (gives_cutString r t).bind fun t s _ hs => .pure fun head hh => ?_
    cases hh
    split
    · exact fun _ _ hh => typed_view (by decide) hh
    · exact hs
  · refine (gives_argument hk t .head).bind fun t answer _ ha => .pure fun head hh => ?_
    obtain ⟨code, rfl, rfl⟩ := Option.map_eq_some_iff.mp hh
    exact ha code rfl
  · refine (gives_cutWord r t).bind fun t word _ hword => ?_
    refine .ite (fun _ => .pure nofun) fun _ => .pure fun head hh => ?_
    cases hh
    exact hword

theorem nested_serves (r : Rigour) (levels : Nat) : (nested levels).Serves r := by
  induction levels with
  | zero => exact ⟨fun _ _ _ => .pure nofun, fun _ _ => .pure nofun⟩
  | succ levels ih =>
      exact ⟨fun t want _ => gives_argument ih t want, fun t _ => gives_firstWord ih t⟩

theorem program_typed {t : Table} (ht : t.Sound r) {src : Bytes} (hs : src.length < operandLimit)
    (name : Bytes) :
    t.Names (program t src name).2.table ∧
      Typed r (program t src name).2.table (program t src name).1 0 0 := by
  have hcode : Gives r t (statements (nested (src.length + 4)) false 0 0) fun t' code =>
      StatementTyped r t' 0 code :=
    gives_statements (nested_serves r _) t (by decide) false 0
  obtain ⟨-, he, hc⟩ := hcode ht { cursor := { rest := src, name }, table := t } rfl hs
  exact ⟨he, hc 0 Rigour.under_zero⟩

end ConsoleScript.Compile
