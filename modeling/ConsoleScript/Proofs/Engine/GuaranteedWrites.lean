import ConsoleScript.Proofs.Engine.Guarantees

/-!
Reports, texts that are compiled and programs of the host meet every guarantee that computations meet
one after the other. Writes to variables meet one that each of the changes meets of which they are made.
-/

namespace ConsoleScript

open Bytecode Engine

variable {G : Guarantee} {k : Runner}

section Reports

variable [G.Composes]

theorem meets_emit (e : Event) : Meets G (emit e) := .update fun _ => ⟨rfl, fun _ _ _ h => h⟩

theorem meets_warn (text : Bytes) : Meets G (warn text) := meets_emit _

theorem meets_echo (line : Bytes) : Meets G (echo line) := meets_emit _

theorem meets_debug (text : Bytes) : Meets G (debug text) := by
  refine .read fun s => ?_
  split
  · refine (meets_warn text).bind fun _ => ?_
    split
    · exact .forM meets_warn _
    · exact .pure _
  · exact .pure _

theorem meets_compileText (src name : Bytes) : Meets G (compileText src name) := by
  intro s
  have hgains : s.table.Gains (compile s.table src name).table := by
    rw [Compile.compile_table]
    exact (Compile.program_makes s.table src name).1
  refine Meets.readAt ?_
  dsimp only
  generalize compile s.table src name = out at hgains ⊢
  have hreports : Meets G (do
      out.warnings.forM debug
      return out.block) :=
    .bind (.forM meets_debug _) fun _ => .pure _
  refine hreports.moved (s.addCompiled src name out.table) ?_ rfl
  exact Guarantee.Composes.trans (Guarantee.Composes.gains hgains)
    (Guarantee.Composes.aside ⟨rfl, fun _ _ _ => .inl⟩)

theorem meets_intern (name : Bytes) : Meets G (intern name) := by
  intro s
  have ht := Table.gains_intern s.table name
  refine Meets.readAt ?_
  generalize s.table.intern name = q at ht ⊢
  obtain ⟨i, isName, t⟩ := q
  have hreport : Meets G (do
      unless isName do debug (utf8 "number " ++ name ++ utf8 " is not a valid identifier name")
      return i) := by
    cases isName with
    | true => exact .pure i
    | false => exact .bind (meets_debug _) fun _ => .pure i
  exact hreport.moved ({ s with table := t }) (Guarantee.Composes.gains ht) rfl

theorem meets_bodyOf_of {i : Nat}
    (h : ∀ b, Meets G (modifyIdent i fun id => { id with body := some b })) :
    Meets G (bodyOf i) := by
  refine .identAt fun id _ => ?_
  split
  · exact .pure _
  · exact .bind (meets_compileText _ _) fun block => .bind (h block) fun _ => .pure _

end Reports

section Nested

variable [G.Composes] (hk : ∀ b pc, Meets G (k b pc))
include hk

theorem meets_runText (src name : Bytes) : Meets G (runText k src name) :=
  (meets_compileText src name).bind fun _ => (hk _ _).bind fun _ => .pure _

theorem meets_runValue (v : Value) : Meets G (runValue k v) := by
  unfold runValue
  split
  · exact (hk _ _).bind fun _ => .pure _
  · exact meets_runText hk _ _
  · exact .pure _

theorem meets_runHost (program : HostProgram) : Meets G (runHost k program) := by
  induction program with
  | done v => exact .pure v
  | fail message => exact .fault _
  | emit e next ih => exact (meets_emit e).bind fun _ => ih
  | execute src next ih => exact (Meets.protect (meets_runText hk src [])).bind ih
  | runValue v next ih => exact (meets_runValue hk v).bind ih

theorem meets_notify (i : Nat) : Meets G (notify k i) := by
  refine .identAt fun id _ => ?_
  split
  · exact .pure _
  · exact fun s => Meets.changeAt fun _ => Guarantee.Composes.stamp s
  · exact .read fun s => (meets_runHost hk _).bind fun _ => .pure _

end Nested

section Writes

variable [G.Lawful]

theorem meets_setValue (i : Nat) (v : Value) : Meets G (modifyIdent i (·.setValue v)) :=
  fun _ => Meets.changeAt fun _ => Guarantee.Lawful.rewrite fun _ _ =>
    ⟨⟨⟨rfl, rfl⟩, rfl, fun h => ⟨h, id⟩⟩, .inl rfl⟩

/-- Of a variable that is not read-only it may be noted that it is overridden. -/
theorem meetsAt_override {s : Interp} {i : Nat} {id : Ident} (hid : s.table.get? i = some id)
    (hr : id.flags.readOnly = false) : MeetsAt G (override i id) s := by
  have hwrite {f : Ident → Ident} (h : ∀ id' : Ident, f id' = { id' with
      before := (f id').before
      flags := (f id').flags } ∧ (f id').flags.readOnly = id'.flags.readOnly) :
      MeetsAt G (modifyIdent i f) s := by
    refine Meets.changeAt fun _ => Guarantee.Lawful.rewrite fun id' hid' => ?_
    cases hid.symm.trans hid'
    obtain ⟨hsame, hflag⟩ := h id
    refine ⟨⟨?_, ?_, fun h => ?_⟩, .inr ?_⟩
    · rw [hsame]
      exact ⟨rfl, rfl⟩
    · rw [hsame]
    · rw [hflag, hr] at h
      cases h
    · rw [hsame]
      exact ⟨rfl, rfl⟩
  have hnoted (f : Ident → Ident) (h : ∀ id' : Ident, f id' = { id' with
      before := (f id').before
      flags := (f id').flags } ∧ (f id').flags.readOnly = id'.flags.readOnly) :
      MeetsAt G (modifyIdent i f >>= fun _ => return true) s :=
    Meets.bindAt (hwrite h) fun _ s' _ => Meets.pure true s'
  refine Meets.readAt ?_
  split
  · split
    · exact Meets.bind (meets_debug _) (fun _ => .pure _) s
    · split
      · exact hnoted _ fun _ => ⟨rfl, rfl⟩
      · exact Meets.pure _ s
  · split
    · exact hnoted _ fun _ => ⟨rfl, rfl⟩
    · exact Meets.pure _ s

theorem meets_admits (i : Nat) : Meets G (admits i) := by
  refine fun s => Meets.identAtAt fun id hid => ?_
  split
  · exact Meets.bind (meets_debug _) (fun _ => .pure _) s
  next hr => exact meetsAt_override hid (Bool.eq_false_iff.mpr hr)

omit [G.Lawful] in
/-- A variable that takes a write admits it. -/
theorem admitted_of_admits {s s' : Interp} {i : Nat} (h : outcome (admits i) s = (.ok true, s')) :
    s'.Admitted i := by
  have hrefused {m : Engine Unit} {s₁ : Interp}
      (h : outcome (m >>= fun _ => return false) s₁ = (.ok true, s')) : False := by
    rw [outcome_bind] at h
    generalize outcome m s₁ = o at h
    obtain ⟨e | _, s₂⟩ := o <;> cases h
  unfold admits at h
  cases hid : s.table.get? i with
  | none =>
      rw [outcome_bind_error (outcome_identAt_none hid)] at h
      cases h
  | some id =>
      rw [outcome_bind_ok (outcome_identAt hid)] at h
      split at h
      · exact (hrefused h).elim
      next hr =>
        have hsame (hp : id.flags.override = true → id.flags.persist = false)
            (hover : s.writeFlags.overridden = true → id.flags.overridden = true) :
            s.Admitted i := fun id' hid' => by
          cases hid.symm.trans hid'
          exact ⟨Bool.eq_false_iff.mpr hr, hp, hover⟩
        have hnoted {f : Ident → Ident} {overridden : Bool}
            (hf : (f id).flags = { id.flags with overridden })
            (hp : id.flags.override = true → id.flags.persist = false)
            (hover : s.writeFlags.overridden = true → overridden = true) :
            (s.modifyIdent i f).Admitted i := by
          intro id' hid'
          rw [Interp.modifyIdent, Table.get?_modify, if_pos rfl, hid] at hid'
          cases hid'
          rw [hf]
          exact ⟨Bool.eq_false_iff.mpr hr, hp, hover⟩
        unfold override at h
        rw [outcome_bind_ok (outcome_get s)] at h
        dsimp only at h
        split at h
        · split at h
          · exact (hrefused h).elim
          next hp =>
            have hp := Bool.eq_false_iff.mpr hp
            split at h
            · cases h
              exact hnoted rfl (fun _ => hp) fun _ => rfl
            next hover =>
              cases h
              exact hsame (fun _ => hp) fun _ => by simpa using hover
        next hplain =>
          have hmode : ¬s.writeFlags.overridden = true := fun hm => hplain (by rw [hm, Bool.true_or])
          have hp (ho : id.flags.override = true) : id.flags.persist = false :=
            absurd (by rw [ho, Bool.or_true]) hplain
          split at h
          · cases h
            exact hnoted rfl hp fun hm => absurd hm hmode
          · cases h
            exact hsame hp fun hm => absurd hm hmode

theorem meetsAt_stored {s : Interp} {i : Nat} {id : Ident} {role : Role}
    (hid : s.table.get? i = some id) (hrole : role.emptied = id.role.emptied) :
    MeetsAt G (modifyIdent i fun id => { id with role }) s := by
  refine Meets.changeAt fun _ => Guarantee.Lawful.rewrite fun id' hid' => ?_
  cases hid.symm.trans hid'
  exact ⟨⟨⟨rfl, hrole⟩, rfl, fun h => ⟨h, fun h => h⟩⟩, .inr ⟨rfl, rfl⟩⟩

theorem meets_storeFloat (i : Nat) (choose : Single → Single → Single) :
    Meets G (storeFloat i choose) := by
  refine fun s => Meets.identAtAt fun id hid => ?_
  split
  next hrole => exact meetsAt_stored hid (by rw [hrole]; rfl)
  · exact Meets.fault _ s

theorem meets_storeText (i : Nat) (t : Bytes) : Meets G (storeText i t) := by
  refine fun s => Meets.identAtAt fun id hid => ?_
  split
  next hrole => exact meetsAt_stored hid (by rw [hrole]; rfl)
  · exact Meets.fault _ s

variable (hk : ∀ b pc, Meets G (k b pc))
include hk

theorem meetsAt_announceInt {s : Interp} {i : Nat} (hopen : s.OpenAt i)
    (choose : Int32 → Int32 → Int32) : MeetsAt G (do storeInt i choose; notify k i) s := by
  unfold storeInt
  rw [bind_assoc]
  refine Meets.identAtAt fun id hid => ?_
  split
  next least greatest store watch hrole =>
    split
    · exact Meets.bindAt (meetsAt_stored hid (by rw [hrole]; rfl)) fun _ s' _ =>
        meets_notify hk i s'
    · exact Guarantee.Lawful.cell hk _ hid hrole hopen
  · exact Meets.bind (Meets.fault _) (fun _ => meets_notify hk i) s

theorem meets_setIntVar (i : Nat) (v : Int32) : Meets G (setIntVar k i v) := by
  refine fun s => Meets.bindAt (meets_admits i s) fun admitted s' h => ?_
  cases admitted with
  | true => exact meetsAt_announceInt hk (admitted_of_admits h).openAt _
  | false => exact Meets.pure _ s'

theorem meets_setFloatVar (i : Nat) (v : Single) : Meets G (setFloatVar k i v) := by
  refine (meets_admits i).bind fun admitted => ?_
  split
  · exact (meets_storeFloat i _).bind fun _ => meets_notify hk i
  · exact .pure _

theorem meets_setTextVar (i : Nat) (t : Bytes) : Meets G (setTextVar k i t) := by
  refine (meets_admits i).bind fun admitted => ?_
  split
  · exact (meets_storeText i t).bind fun _ => meets_notify hk i
  · exact .pure _

theorem meets_clearOverride (i : Nat) : Meets G (clearOverride k i) := by
  have hclear : Meets G (modifyIdent i fun id => { id with
      before := .null
      flags := { id.flags with overridden := false } }) := fun s =>
    Meets.changeAt fun _ => Guarantee.Lawful.rewrite fun _ _ =>
      ⟨⟨⟨rfl, rfl⟩, rfl, fun h => ⟨h, nofun⟩⟩, .inr ⟨rfl, rfl⟩⟩
  refine fun s => Meets.identAtAt fun id hid => ?_
  split
  next hover =>
    have hopen : s.OpenAt i := fun id' hid' => by
      cases hid.symm.trans hid'
      exact .inr hover
    split
    · split
      · exact Meets.bind (meets_setValue i _) (fun _ => hclear) s
      · exact hclear s
    · rw [← bind_assoc]
      exact Meets.bindAt (meetsAt_announceInt hk hopen _) fun _ s' _ => hclear s'
    · exact Meets.bind (meets_storeFloat i _)
        (fun _ => .bind (meets_notify hk i) fun _ => hclear) s
    · exact Meets.bind (meets_storeText i _)
        (fun _ => .bind (meets_notify hk i) fun _ => hclear) s
    · exact hclear s
  · exact Meets.pure _ s

end Writes

instance [G.Lawful] : G.Based where
  setValue := meets_setValue
  bodyOf := Guarantee.Lawful.bodyOf
  setAlias := Guarantee.Lawful.setAlias
  setIntVar := meets_setIntVar
  setFloatVar := meets_setFloatVar
  setTextVar := meets_setTextVar
  clearOverride := meets_clearOverride

end ConsoleScript
