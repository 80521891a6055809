import ConsoleScript.Proofs.Code.Operands
import ConsoleScript.Proofs.Compile.Commands
import ConsoleScript.Proofs.Engine.Outcome

/-!
What goes before a call. Making the arguments of a call ready names identifiers, binds argument slots
and compiles texts, about which problems may be reported; no identifier changes its name or its role,
and nothing is run. Such computations always give a value.
-/

namespace ConsoleScript

open Bytecode Engine Compile

section Tables

variable {t t' t'' : Table}

/-- Every identifier of a table has its name and its role in another one. -/
def Table.Retains (t t' : Table) : Prop :=
  ∀ i id, t.get? i = some id → ∃ id', t'.get? i = some id' ∧ id'.name = id.name ∧ id'.role = id.role

namespace Table

theorem Retains.refl (t : Table) : t.Retains t := fun _ id h => ⟨id, h, rfl, rfl⟩

theorem Retains.trans (h : t.Retains t') (h' : t'.Retains t'') : t.Retains t'' := by
  intro i id hid
  obtain ⟨id', hid', hname, hrole⟩ := h i id hid
  obtain ⟨id'', hid'', hname', hrole'⟩ := h' i id' hid'
  exact ⟨id'', hid'', hname'.trans hname, hrole'.trans hrole⟩

theorem Names.retains (h : t.Names t') : t.Retains t' := by
  induction h with
  | refl => exact .refl t
  | push _ name ih =>
      refine ih.trans fun i id hid => ⟨id, ?_, rfl, rfl⟩
      rw [get?_push, if_neg (Nat.ne_of_lt (lt_size_of_get? hid)), hid]

private theorem retains_modify (t : Table) (j : Nat) {f : Ident → Ident}
    (hf : ∀ id, (f id).name = id.name ∧ (f id).role = id.role) : t.Retains (t.modify j f) := by
  intro i id hid
  rw [get?_modify, hid]
  split
  · exact ⟨f id, rfl, hf id⟩
  · exact ⟨id, rfl, rfl, rfl⟩

theorem Retains.extends (h : t.Retains t') (r : Rigour) : t.Extends r t' := by
  intro i f hf
  obtain ⟨id, hid, rfl⟩ := Option.map_eq_some_iff.mp hf
  obtain ⟨id', hid', -, hrole⟩ := h i id hid
  rw [form?_of_get? hid', hrole]

theorem Retains.find? (h : t.Retains t') {name : Bytes} {i : Nat} (hi : t.find? name = some i) :
    t'.find? name = some i := by
  have hget (j : Nat) (hj : j < t.idents.size) :
      ∃ hj' : j < t'.idents.size, t'.idents[j].name = t.idents[j].name := by
    obtain ⟨id', hid', hname, -⟩ := h j t.idents[j] (Array.getElem?_eq_getElem hj)
    obtain ⟨hj', rfl⟩ := Array.getElem?_eq_some_iff.mp hid'
    exact ⟨hj', hname⟩
  rw [Table.find?, Array.findIdx?_eq_some_iff_getElem] at hi ⊢
  obtain ⟨hlt, hname, hbefore⟩ := hi
  obtain ⟨hlt', hsame⟩ := hget i hlt
  refine ⟨hlt', by rwa [hsame], fun j hj => ?_⟩
  obtain ⟨_, hsame'⟩ := hget j (Nat.lt_trans hj hlt)
  rw [hsame']
  exact hbefore j hj

end Table

end Tables

section Values

/-- Code that was compiled from a text. -/
inductive IsCode (src : Bytes) : Value → Prop
  | empty (h : IsBody src []) : IsCode src (emptyCode .null)
  | block {b : Block} {body : Code} {pc : Nat} (h : IsBody src body)
      (hw : b.Holds pc (Code.words pc body))
      (hx : b.words[pc + (Code.words pc body).length]? = some (Word.make .exit .null 0)) :
      IsCode src (.code b pc)

/-- A value is what an operand stands for, whoever holds the bytes of a text. A float that is zero
may have lost its sign. -/
def Compile.Operand.Is (t : Table) : Operand → Value → Prop
  | .null, v => v = .null
  | .int i, v => v = .int i
  | .float x, v => ∃ y, v = .float y ∧ (x = y ∨ x = Single.zero.neg ∧ y = .zero)
  | .text s, v => ∃ kind, v = .text kind s
  | .code src, v => IsCode src v
  | .named name, v => ∃ i, v = .ident i ∧ Stands t name i
  | .ident i, v => v = .ident i

variable {t t' : Table}

theorem Compile.Stands.retained {name : Bytes} {i : Nat} (h : Stands t name i)
    (ht : t.Retains t') : Stands t' name i :=
  h.imp_left ht.find?

theorem Compile.Operand.Is.retained {o : Operand} {v : Value} (h : o.Is t v)
    (ht : t.Retains t') : o.Is t' v := by
  cases o with
  | named name =>
      obtain ⟨i, hv, hi⟩ := h
      exact ⟨i, hv, hi.retained ht⟩
  | _ => exact h

end Values

/-- An interpreter has named identifiers, bound argument slots and reported problems, and nothing
else has happened to it that a program could see. -/
structure Engine.Prepares (s s' : Interp) : Prop where
  idents : s.table.Retains s'.table
  level : s'.level = s.level
  events : ∃ texts : List Bytes, s'.events = texts.map .warn ++ s.events

namespace Engine.Prepares

variable {s s' s'' : Interp}

theorem refl (s : Interp) : Prepares s s := ⟨.refl _, rfl, [], rfl⟩

theorem trans (h : Prepares s s') (h' : Prepares s' s'') : Prepares s s'' := by
  obtain ⟨texts, htexts⟩ := h.events
  obtain ⟨texts', htexts'⟩ := h'.events
  refine ⟨h.idents.trans h'.idents, h'.level.trans h.level, texts' ++ texts, ?_⟩
  rw [htexts', htexts, List.map_append, List.append_assoc]

theorem leave {l : Level} (h : Prepares s s') (h' : Prepares (s'.setLevel l) s'') :
    Prepares s (s''.setLevel s'.level) := by
  obtain ⟨texts, htexts⟩ := h.events
  obtain ⟨texts', htexts'⟩ := h'.events
  refine ⟨h.idents.trans h'.idents, h.level, texts' ++ texts, ?_⟩
  change s''.events = _
  rw [htexts', List.map_append, List.append_assoc]
  exact congrArg _ htexts

end Engine.Prepares

/-- A computation gives a value, and prepares the interpreter for it. -/
def Engine.Quiet {α : Type} (m : Engine α) (s : Interp) (P : α → Interp → Prop) : Prop :=
  ∃ a s', outcome m s = (.ok a, s') ∧ Prepares s s' ∧ P a s'

section Quiet

variable {α β : Type} {m : Engine α} {s : Interp} {P Q : α → Interp → Prop}

theorem Engine.Quiet.pure {a : α} (h : P a s) : Quiet (pure a) s P := ⟨a, s, rfl, .refl s, h⟩

theorem Engine.Quiet.bind {f : α → Engine β} {R : β → Interp → Prop} (h : Quiet m s P)
    (hf : ∀ a s', Prepares s s' → P a s' → Quiet (f a) s' R) : Quiet (m >>= f) s R := by
  obtain ⟨a, s', hm, hs, ha⟩ := h
  obtain ⟨b, s'', hb, hs', hr⟩ := hf a s' hs ha
  exact ⟨b, s'', (outcome_bind_ok hm f).trans hb, hs.trans hs', hr⟩

theorem Engine.Quiet.mono (h : Quiet m s P) (hpq : ∀ a s', Prepares s s' → P a s' → Q a s') :
    Quiet m s Q := by
  obtain ⟨a, s', hm, hs, ha⟩ := h
  exact ⟨a, s', hm, hs, hpq a s' hs ha⟩

/-- A computation gives one value only. -/
theorem Engine.Quiet.and (hp : Quiet m s P) (hq : Quiet m s Q) :
    Quiet m s fun a s' => P a s' ∧ Q a s' := by
  obtain ⟨a, s', hm, hs, ha⟩ := hp
  obtain ⟨b, s'', hm', -, hb⟩ := hq
  cases hm.symm.trans hm'
  exact ⟨a, s', hm, hs, ha, hb⟩

theorem Engine.Quiet.read {f : Interp → Engine β} {R : β → Interp → Prop} (h : Quiet (f s) s R) :
    Quiet (get >>= f) s R := by
  obtain ⟨b, s', hb, hs, hr⟩ := h
  exact ⟨b, s', (outcome_bind_ok (outcome_get s) f).trans hb, hs, hr⟩

theorem Engine.Quiet.identAt {i : Nat} {id : Ident} {f : Ident → Engine β}
    {R : β → Interp → Prop} (hid : s.table.get? i = some id) (h : Quiet (f id) s R) :
    Quiet (identAt i >>= f) s R := by
  obtain ⟨b, s', hb, hs, hr⟩ := h
  exact ⟨b, s', (outcome_bind_ok (outcome_identAt hid) f).trans hb, hs, hr⟩

private theorem quiet_warn (text : Bytes) (s : Interp) :
    Quiet (warn text) s fun _ s' => s'.table = s.table :=
  ⟨⟨⟩, _, rfl, ⟨.refl _, rfl, [text], rfl⟩, rfl⟩

theorem quiet_forM {γ : Type} {f : γ → Engine Unit}
    (hf : ∀ x s, Quiet (f x) s fun _ s' => s'.table = s.table) (xs : List γ) (s : Interp) :
    Quiet (xs.forM f) s fun _ s' => s'.table = s.table := by
  induction xs generalizing s with
  | nil => exact .pure rfl
  | cons x xs ih =>
      exact (hf x s).bind fun _ s' _ h => (ih s').mono fun _ _ _ h' => h'.trans h

theorem quiet_debug (text : Bytes) (s : Interp) :
    Quiet (debug text) s fun _ s' => s'.table = s.table := by
  refine .read ?_
  split
  · refine (quiet_warn text s).bind fun _ s' _ h => ?_
    split
    · exact (quiet_forM quiet_warn _ s').mono fun _ _ _ h' => h'.trans h
    · exact .pure h
  · exact .pure rfl

theorem Engine.Quiet.change {f : Interp → Interp} (h : Prepares s (f s)) :
    Quiet (modify f) s fun _ s' => s' = f s :=
  ⟨⟨⟩, f s, rfl, h, rfl⟩

end Quiet

section Arguments

variable {s : Interp}

theorem quiet_compileText (hs : s.table.Founded .layout) {src : Bytes}
    (hsrc : src.length < operandLimit) (name : Bytes) :
    Quiet (compileText src name) s fun b s' =>
      b = (compile s.table src name).block ∧ s'.table = (compile s.table src name).table := by
  obtain ⟨hnames, -⟩ := program_typed (r := .layout) ⟨hs, nofun⟩ hsrc name
  rw [← compile_table] at hnames
  have hadd : Prepares s (s.addCompiled src name (compile s.table src name).table) :=
    ⟨hnames.retains, rfl, [], rfl⟩
  refine .read ((Quiet.change hadd).bind ?_)
  rintro - s' - rfl
  exact (quiet_forM quiet_debug _ _).bind fun _ _ _ htable => .pure ⟨rfl, htable⟩

private theorem quiet_codeOf (hs : s.table.Founded .layout) {src : Bytes}
    (hsrc : src.length < operandLimit) : Quiet (codeOf src) s fun v _ => IsCode src v := by
  refine (quiet_compileText hs hsrc []).bind ?_
  rintro _ _ - ⟨rfl, -⟩
  rw [compile_block]
  obtain ⟨hw, hx⟩ := Block.holds_append.mp (holds_toBlock [] (program s.table src []).1)
  exact .pure (.block ⟨_, { cursor := { rest := src }, table := s.table }, Nat.le_refl _, rfl, rfl⟩
    hw (Block.holds_cons.mp hx).1)

private theorem quiet_intern (hs : s.table.Founded .layout) (name : Bytes) :
    Quiet (intern name) s fun i s' => i < s'.table.size ∧ Stands s'.table name i := by
  obtain ⟨hi, hnames⟩ :=
    Table.intern_spec (Table.lt_size_of_form? (hs dummyIndex (Nat.le_refl _))) name
  have hstands := stands_intern s.table name
  refine .read ?_
  generalize s.table.intern name = p at *
  obtain ⟨i, isName, t⟩ := p
  have hadd : Prepares s { s with table := t } := ⟨hnames.retains, rfl, [], rfl⟩
  refine (Quiet.change hadd).bind ?_
  rintro - s' - rfl
  cases isName with
  | true => exact .pure ⟨hi, hstands⟩
  | false =>
      refine (quiet_debug _ _).bind fun _ s'' _ htable => .pure ?_
      rw [htable]
      exact ⟨hi, hstands⟩

private theorem quiet_modifyIdent (i : Nat) {f : Ident → Ident}
    (hf : ∀ id, (f id).name = id.name ∧ (f id).role = id.role) (s : Interp) :
    Quiet (modifyIdent i f) s fun _ s' => s' = s.modifyIdent i f :=
  .change ⟨Table.retains_modify s.table i hf, rfl, [], rfl⟩

theorem quiet_bindArg (i : Nat) (s : Interp) : Quiet (bindArg i) s fun _ _ => True := by
  refine .read ?_
  split
  · exact .pure trivial
  · refine (quiet_modifyIdent i (f := (·.pushValue .null)) (fun _ => ⟨rfl, rfl⟩) s).bind fun _ s' _ _ => ?_
    have hmark (s : Interp) (u : SlotSet) : Prepares s (s.setUsed u) := by
      unfold Interp.setUsed
      split <;> exact ⟨.refl _, rfl, [], rfl⟩
    exact (Quiet.change (hmark s' _)).mono fun _ _ _ _ => trivial

theorem quiet_identOf (hs : s.table.Founded .layout) (v : Value) :
    Quiet (identOf v) s fun v' s' => ∃ i, v' = .ident i ∧
      ∀ name, v.text? = some name → Stands s'.table name i := by
  have hindex : Quiet (indexOf v) s fun i s' => i < s'.table.size ∧
      ∀ name, v.text? = some name → Stands s'.table name i := by
    unfold indexOf
    split
    next name hname =>
      refine (quiet_intern hs name).mono ?_
      rintro i s' - ⟨hi, hstands⟩
      refine ⟨hi, fun name' hname' => ?_⟩
      rw [hname] at hname'
      cases hname'
      exact hstands
    next hnone =>
      refine .pure ⟨Table.lt_size_of_form? (hs dummyIndex (Nat.le_refl _)), fun name hname => ?_⟩
      rw [hnone] at hname
      cases hname
  refine hindex.bind ?_
  rintro i s₁ - ⟨hi, hstands⟩
  obtain ⟨id, hid⟩ : ∃ id, s₁.table.get? i = some id := ⟨_, Array.getElem?_eq_getElem hi⟩
  refine .identAt hid ?_
  split
  · refine (quiet_bindArg i s₁).bind fun _ s₂ h _ => .pure ⟨i, rfl, fun name hname => ?_⟩
    exact (hstands name hname).retained h.idents
  · exact .pure ⟨i, rfl, hstands⟩

/-- The text of a value is not too long to be compiled. -/
def Value.Short (v : Value) : Prop := v.toBytes.length < operandLimit

/-- An argument is converted, and a word to the operand that it stands for. -/
theorem quiet_convertArg (hs : s.table.Founded .layout) {v : Value} (hv : v.Short) (l : Letter) :
    Quiet (convertArg v l) s fun v' s' => l.isPlain = true → l ≠ .self → l ≠ .count →
      ∀ kind w, v = .text kind w → w ≠ [] → (wordOperand (wantOf l) w).Is s'.table v' := by
  cases l with
  | int | intOrLeast =>
      refine .pure fun _ _ _ kind w hw _ => ?_
      subst hw
      exact rfl
  | float | floatOrPrevious =>
      refine .pure fun _ _ _ kind w hw _ => ?_
      subst hw
      exact ⟨_, rfl, .inl rfl⟩
  | text | ownText =>
      refine .pure fun _ _ _ kind w hw _ => ?_
      subst hw
      exact ⟨_, rfl⟩
  | any | anyOrNull =>
      refine .pure fun _ _ _ kind w hw _ => ?_
      subst hw
      exact ⟨kind, rfl⟩
  | self => exact .pure fun _ h => absurd rfl h
  | count => exact .pure fun _ _ h => absurd rfl h
  | pressed | joined | all | again => exact .pure nofun
  | condition =>
      simp only [convertArg]
      split
      next hv =>
        refine .pure fun _ _ _ kind w hw hne => ?_
        subst hw
        exact absurd (Option.some.inj hv) hne
      next src _ hsrc =>
        have hshort : src.length < operandLimit := by
          cases v <;> cases hsrc
          exact hv
        refine (quiet_codeOf hs hshort).mono fun v' s' _ hcode _ _ _ kind w hw _ => ?_
        subst hw
        cases hsrc
        exact hcode
      next hnone =>
        refine .pure fun _ _ _ kind w hw _ => ?_
        subst hw
        cases hnone
  | code =>
      simp only [convertArg]
      split
      next hcode =>
        refine .pure fun _ _ _ kind w hw _ => ?_
        subst hw
        cases hcode
      next =>
        refine (quiet_codeOf hs hv).mono fun v' s' _ hcode _ _ _ kind w hw _ => ?_
        subst hw
        exact hcode
  | ident =>
      simp only [convertArg]
      split
      next hid =>
        refine .pure fun _ _ _ kind w hw _ => ?_
        subst hw
        cases hid
      next =>
        refine (quiet_identOf hs v).mono ?_
        rintro _ s' - ⟨i, rfl, hstands⟩ - - - kind w rfl -
        exact ⟨i, rfl, hstands w rfl⟩

end Arguments

end ConsoleScript
