import ConsoleScript.Proofs.Code.Layout

/-!
What a step of the compiler gives. A judgement is about a step that begins with a sound table and a
source that is short enough for its texts to fit their fields: the step then ends so as well, it
only adds names to the table, and what it gives satisfies a condition on the table there is now. Judgements of steps one after another are put together by `Gives.bind`.
-/

namespace ConsoleScript.Compile

open Bytecode

/-- A step that begins with a given table ends with what satisfies a condition. -/
def Gives {α : Type} (r : Rigour) (t : Table) (m : CompileM α) (P : Table → α → Prop) : Prop :=
  t.Sound r → ∀ s : State, s.table = t → s.cursor.rest.length < operandLimit →
    (m.run s).2.cursor.rest.length < operandLimit ∧ t.Names (m.run s).2.table ∧
      P (m.run s).2.table (m.run s).1

variable {α β : Type} {r : Rigour} {t : Table} {m : CompileM α} {P : Table → α → Prop}

theorem Gives.pure {a : α} (h : P t a) : Gives r t (Pure.pure a) P := by
  intro ht s hs hc
  subst hs
  exact ⟨hc, .refl _, h⟩

theorem Gives.bind {f : α → CompileM β} {Q : Table → β → Prop} (hm : Gives r t m P)
    (hf : ∀ t' a, t.Extends r t' → P t' a → Gives r t' (f a) Q) : Gives r t (m >>= f) Q := by
  intro ht s hs hc
  obtain ⟨hc', he, ha⟩ := hm ht s hs hc
  obtain ⟨hc'', he', hb⟩ := hf _ _ (he.extends r) ha (he.sound ht) _ rfl hc'
  exact ⟨hc'', he.trans he', hb⟩

theorem Gives.mono {Q : Table → α → Prop} (hm : Gives r t m P)
    (h : ∀ t' a, t.Extends r t' → P t' a → Q t' a) : Gives r t m Q := by
  intro ht s hs hc
  obtain ⟨hc', he, ha⟩ := hm ht s hs hc
  exact ⟨hc', he, h _ _ (he.extends r) ha⟩

theorem Gives.ofSound (h : t.Sound r → Gives r t m P) : Gives r t m P :=
  fun ht => h ht ht

theorem Gives.ite {c : Prop} [Decidable c] {m' : CompileM α} (h : c → Gives r t m P)
    (h' : ¬c → Gives r t m' P) : Gives r t (if c then m else m') P := by
  split
  · exact h ‹_›
  · exact h' ‹_›

section Steps

variable (r t)

/-- A step that only reads gives something about the state. -/
theorem gives_get {P : Table → State → Prop}
    (h : ∀ s : State, s.table = t → s.cursor.rest.length < operandLimit → P t s) :
    Gives r t get P := by
  intro ht s hs hc
  subst hs
  exact ⟨hc, .refl _, h s rfl hc⟩

/-- A step that only changes the cursor, and takes over no longer source. -/
theorem gives_modify {f : State → State} (hf : ∀ s, (f s).table = s.table)
    (hc : ∀ s, s.cursor.rest.length < operandLimit →
      (f s).cursor.rest.length < operandLimit) :
    Gives r t (modify f) fun _ _ => True := by
  intro ht s hs hs'
  subst hs
  have htable : ((modify f : CompileM PUnit).run s).2.table = s.table := hf s
  refine ⟨hc s hs', ?_, trivial⟩
  rw [htable]
  exact .refl _

theorem gives_cursor : Gives r t cursor fun _ c => c.rest.length < operandLimit :=
  (gives_get r t fun _ _ hc => hc).bind fun _ _ _ hc => .pure hc

theorem gives_peek (k : Nat) : Gives r t (peek k) fun _ _ => True :=
  (gives_cursor r t).bind fun _ _ _ _ => .pure trivial

theorem gives_advance (n : Nat) : Gives r t (advance n) fun _ _ => True := by
  refine gives_modify r t (fun _ => rfl) fun s hs => ?_
  simp only [Cursor.advance, List.length_drop]
  omega

theorem gives_skipTo (p : UInt8 → Bool) : Gives r t (skipTo p) fun _ _ => True := by
  refine gives_modify r t (fun _ => rfl) fun s hs => ?_
  simp only [Cursor.skipTo, Cursor.advance, List.length_drop]
  omega

theorem skipBlanks_isSuffix (comment : Bool) (s : Bytes) : skipBlanks comment s <:+ s := by
  fun_induction skipBlanks comment s with
  | case1 | case2 | case6 => exact List.suffix_rfl
  | case3 _ _ _ ih | case4 _ _ _ ih | case5 _ _ _ _ ih => exact ih.trans (List.suffix_cons _ _)

theorem length_skipBlanks (comment : Bool) (s : Bytes) :
    (skipBlanks comment s).length ≤ s.length :=
  (skipBlanks_isSuffix comment s).length_le

theorem gives_skipComments : Gives r t skipComments fun _ _ => True := by
  refine gives_modify r t (fun _ => rfl) fun s hs => ?_
  exact Nat.lt_of_le_of_lt (length_skipBlanks false _) hs

theorem gives_next : Gives r t next fun _ _ => True :=
  (gives_peek r t 0).bind fun t' _ _ _ => (gives_advance r t' 1).bind fun _ _ _ _ => .pure trivial

private theorem gives_note (text : Bytes) : Gives r t (note text) fun _ _ => True :=
  gives_modify r t (fun _ => rfl) fun _ hs => hs

theorem gives_noteLiteralName (name : Bytes) : Gives r t (noteLiteralName name) fun _ _ => True :=
  gives_modify r t (fun _ => rfl) fun _ hs => hs

theorem gives_warn (text : Bytes) : Gives r t (warn text) fun _ _ => True := by
  refine (gives_cursor r t).bind fun t' c _ _ => ?_
  exact .ite (fun _ => gives_note r t' _) fun _ => gives_note r t' _

omit r t in
/-- A name that is looked up changes the table and the warnings only. -/
theorem run_intern_eq (name : Bytes) (s : State) : ((intern name).run s).1 = (s.table.intern name).1 ∧
    ∃ ws, ((intern name).run s).2 =
      { s with table := (s.table.intern name).2.2, warnings := ws } := by
  have hrun : (intern name).run s = StateT.run (m := Id) (do
      if !(s.table.intern name).2.1 then
        note (utf8 "number " ++ name ++ utf8 " is not a valid identifier name")
      return (s.table.intern name).1) { s with table := (s.table.intern name).2.2 } := rfl
  rw [hrun]
  split <;> exact ⟨rfl, _, rfl⟩

theorem gives_intern (name : Bytes) : Gives r t (intern name) fun t' i => i < t'.size := by
  intro ht s hs hc
  have hd : dummyIndex < s.table.size := by
    rw [hs]
    exact Table.lt_size_of_form? (ht.founded dummyIndex (Nat.le_refl _))
  obtain ⟨hi, htable⟩ := Table.intern_spec hd name
  obtain ⟨hindex, ws, hstate⟩ := run_intern_eq name s
  rw [hindex, hstate]
  subst hs
  exact ⟨hc, htable, hi⟩

theorem gives_roleOf {i : Nat} (hi : i < t.size) :
    Gives r t (roleOf i) fun t' role => t'.form? r i = some (role.form r) := by
  refine (gives_get r t (P := fun t' s => s.table = t') fun _ hs _ => hs).bind fun t' s he hs => ?_
  refine .pure ?_
  obtain ⟨f, hf⟩ := Table.exists_form? r (he.lt_size hi)
  rw [hs]
  unfold Table.form? at hf ⊢
  cases hid : t'.get? i with
  | none => rw [hid] at hf; cases hf
  | some id => rfl

theorem gives_cutStringBody : Gives r t cutStringBody fun _ s => s.length < operandLimit := by
  refine (gives_cursor r t).bind fun t' c _ hc => ?_
  refine (gives_advance r t' _).bind fun t' _ _ _ => ?_
  refine (gives_peek r t' 0).bind fun t' _ _ _ => ?_
  have hlen : (c.rest.take (Syntax.bodyLength c.rest)).length < operandLimit := by
    rw [List.length_take]
    omega
  refine .ite (fun _ => ?_) fun _ => .pure hlen
  exact (gives_advance r t' 1).bind fun _ _ _ _ => .pure hlen

theorem gives_cutRaw : Gives r t cutRaw fun _ s => s.length < operandLimit :=
  (gives_advance r t 1).bind fun t' _ _ _ => gives_cutStringBody r t'

theorem length_unescape (s : Bytes) : (Syntax.unescape s).length ≤ s.length := by
  fun_induction Syntax.unescape s <;> simp only [List.length_cons, List.length_nil] at * <;> omega

theorem gives_cutString : Gives r t cutString fun _ s => s.length < operandLimit :=
  (gives_cutRaw r t).bind fun _ s _ hs => .pure (Nat.lt_of_le_of_lt (length_unescape s) hs)

theorem gives_cutWord : Gives r t cutWord fun _ s => s.length < operandLimit := by
  refine (gives_cursor r t).bind fun t' c _ hc => ?_
  refine (gives_advance r t' _).bind fun _ _ _ _ => .pure ?_
  rw [List.length_take]
  omega

variable {r t}

theorem Gives.withText {text : Bytes} (htext : text.length < operandLimit) (name : Bytes)
    (line : Nat) (hm : Gives r t m P) : Gives r t (withText text name line m) P := by
  intro ht s hs hc
  obtain ⟨-, he, ha⟩ := hm ht { s with cursor := { rest := text, line, name } } hs htext
  exact ⟨hc, he, ha⟩

end Steps

section Output

/-! What compiling a text gives is read off its code and the state it ends in. -/

variable (t : Table) (src name : Bytes)

theorem compile_block :
    (compile t src name).block = toBlock name (program t src name).1 := by
  rw [compile]

theorem compile_table : (compile t src name).table = (program t src name).2.table := by
  rw [compile]

theorem compile_warnings :
    (compile t src name).warnings = (program t src name).2.warnings.reverse := by
  rw [compile]

end Output

end ConsoleScript.Compile
