import ConsoleScript.Proofs.Persist.Rewriting

/-!
Config scripts reproduce what was collected for them. An interpreter in which the same variables are
registered, and nothing else has been done, has the same config script once it has executed one, if the
names in it can be read as words and its texts are plain enough.
-/

namespace ConsoleScript

open Bytecode Engine Compile

section Registrations

variable {s A : Interp} {ledger : Ledger} {i : Nat} {id id' : Ident}

/-- Nothing has been done but to register integer and text variables, which are not watched and begin in
their ranges. -/
inductive Interp.Registers : Interp → Prop
  | new : Registers .new
  | int {s : Interp} (h : Registers s) (name : Bytes) {least default greatest : Int32}
      (hdefault : least ≤ default ∧ default ≤ greatest) (flags : Flags) :
      Registers ((Move.request (.registerInt name least default greatest flags .none)).perform s)
  | text {s : Interp} (h : Registers s) (name default : Bytes) (flags : Flags) :
      Registers ((Move.request (.registerText name default flags .none)).perform s)

/-- A variable of a kind that a config script can write, in its range. -/
def Ident.Writable (id : Ident) (v : Value) : Prop :=
  id.flags.persist = true → id.role.Contains v.toInt ∧
    (id.role.kindName = "var" ∨ id.role.kindName = "svar")

/-- What is known of an interpreter in which variables were registered, and of its ledger. -/
structure Interp.Equipped (ledger : Ledger) (s : Interp) : Prop where
  hosted : Hosted .layout ledger s
  unwatched : s.Unwatched
  writable : ∀ i b v, ledger i = some (b, v) → b.Writable v
  aliases : ∀ i id, s.table.get? i = some id → id.role = .alias →
    i < maxArgs ∨ Bytes.startsWith id.name (utf8 "//") = true
  blank : s = { Interp.new with table := s.table }

namespace Interp

private theorem equipped_new : Interp.new.Equipped Interp.new.entries := by
  have haliases (i : Nat) (id : Ident) (hid : new.table.get? i = some id) :
      (!id.role.isAlias || decide (i < maxArgs) || Bytes.startsWith id.name (utf8 "//")) = true := by
    have hall : ((argIdents ++ [dummyIdent]) ++ furtherIdents).zipIdx.all (fun p =>
        !p.1.role.isAlias || decide (p.2 < maxArgs) || Bytes.startsWith p.1.name (utf8 "//")) = true := by
      decide
    rw [get?_new] at hid
    exact List.all_eq_true.mp hall (id, i) (List.mk_mem_zipIdx_iff_getElem?.mpr hid)
  refine ⟨.new, fun i id hid f hf => ?_, fun i b v hb hp => ?_, fun i id hid hrole => ?_, rfl⟩
  · have hwatch := of_get?_new (p := fun id => !id.role.watch.isHost) (by decide) hid
    rw [hf] at hwatch
    cases hwatch
  · exact absurd ((persist_entries_new hb).symm.trans hp) Bool.false_ne_true
  · have hplace := haliases i id hid
    rw [hrole] at hplace
    simpa [Role.isAlias] using hplace

/-- One more variable is registered. -/
theorem Equipped.registered {m : Move} (h : s.Equipped ledger) (hm : m.Allowed .layout s)
    (hr : m.registration? s = some (s.register id))
    (hp : m.perform s = Request.registered s (s.register id)) (hwatch : id.role.watch = .none)
    (hvar : id.role.isVar = true) (hwritable : ∀ s' : Interp, id.Writable (s'.valueOf id)) :
    ∃ ledger, (m.perform s).Equipped ledger := by
  cases hok : s.register id with
  | error e =>
      have hsame : m.perform s = s := by rw [hp, hok]; rfl
      exact ⟨ledger, hsame.symm ▸ h⟩
  | ok found =>
      obtain ⟨i, s'⟩ := found
      have hnext : m.perform s = s' := by rw [hp, hok]; rfl
      obtain ⟨hsame, hget, -⟩ := register_ok hok
      have hback {j : Nat} {id' : Ident} (hid' : s'.table.get? j = some id') :
          id' = id ∨ s.table.get? j = some id' := by
        rw [hget] at hid'
        split at hid'
        · exact .inl (Option.some.inj hid').symm
        · exact .inr hid'
      refine ⟨m.enter s ledger, h.hosted.move m hm, ?_, fun j b v hb => ?_, ?_, ?_⟩
      · rw [hnext]
        intro j id' hid' f hf
        rcases hback hid' with rfl | hold
        · rw [hwatch] at hf
          cases hf
        · exact h.unwatched j id' hold f hf
      · exact Move.of_enter (P := Ident.Writable) hr h.writable (fun _ s' _ => hwritable s') hb
      · rw [hnext]
        intro j id' hid' hrole
        rcases hback hid' with rfl | hold
        · rw [hrole] at hvar
          cases hvar
        · exact h.aliases j id' hold hrole
      · rw [hnext, hsame, h.blank]

theorem Registers.equipped (h : s.Registers) : ∃ ledger, s.Equipped ledger := by
  induction h with
  | new => exact ⟨_, equipped_new⟩
  | int _ name hdefault flags ih =>
      obtain ⟨ledger, h⟩ := ih
      exact h.registered trivial rfl rfl rfl rfl fun _ _ => ⟨hdefault, .inl rfl⟩
  | text _ name default flags ih =>
      obtain ⟨ledger, h⟩ := ih
      exact h.registered trivial rfl rfl rfl rfl fun _ _ => ⟨trivial, .inr rfl⟩

end Interp

end Registrations

section Variables

variable {s s' A : Interp} {ledger : Ledger} {i : Nat} {b id id' : Ident} {v : Value} {e : Entry}

theorem Ident.Like.kindName (h : id.Like id') : id'.role.kindName = id.role.kindName := by
  rw [← Role.kindName_emptied, h.2, Role.kindName_emptied]

theorem Role.cases_of_kindName {role : Role} (hvar : role.isVar = true)
    (h : role.kindName = "var" ∨ role.kindName = "svar") :
    (∃ least greatest store watch, role = .intVar least greatest store watch) ∨
      ∃ old watch, role = .textVar old watch := by
  cases role with
  | intVar => exact .inl ⟨_, _, _, _, rfl⟩
  | textVar => exact .inr ⟨_, _, rfl⟩
  | floatVar =>
      have hne : ¬("fvar" = "var" ∨ "fvar" = "svar") := by decide
      exact absurd h hne
  | command | control | «alias» => cases hvar

namespace Interp

/-- A variable with the same value as another of its shape has the same text. -/
theorem textOf_eq_of_valueOf (hlike : id.Like id') (hvar : id.role.isVar = true)
    (hhex : id'.flags.hex = id.flags.hex) (hv : s'.valueOf id' = s.valueOf id) :
    s'.textOf id' = s.textOf id := by
  have hrole := hlike.2
  unfold textOf valueOf at *
  rw [hhex]
  generalize id.role = role at hrole hv hvar
  generalize id'.role = role' at hrole hv
  cases role with
  | intVar least greatest store watch =>
      cases role' with
      | intVar least' greatest' store' watch' =>
          have hgreatest : greatest' = greatest := by
            cases store <;> cases store' <;> cases hrole <;> rfl
          rw [hgreatest]
          exact congrArg (intText id.flags.hex greatest) (Value.int.inj hv)
      | _ => cases store <;> cases hrole
  | floatVar =>
      cases role' with
      | floatVar => exact congrArg Printing.float (Value.float.inj hv)
      | intVar least' greatest' store' watch' => cases store' <;> cases hrole
      | _ => cases hrole
  | textVar =>
      cases role' with
      | textVar => exact (Value.text.inj hv).2
      | intVar least' greatest' store' watch' => cases store' <;> cases hrole
      | _ => cases hrole
  | command | control | «alias» => cases hvar

theorem Saves.of_holds (hsaved : s.Saves id) (h : s.Holds b v id) (h' : s'.Holds b v id')
    (hvar : id.role.isVar = true) : s'.Saves id' := by
  have hpersist : id'.flags.persist = true :=
    h'.flags.persist.trans (h.flags.persist.symm.trans hsaved.persist)
  refine ⟨hpersist, Bool.eq_false_iff.mpr fun ho => ?_,
    h'.flags.readOnly.trans (h.flags.readOnly.symm.trans hsaved.readOnly),
    h'.flags.arg.trans (h.flags.arg.symm.trans hsaved.arg), h'.sound.known, ?_, .inl ?_⟩
  · exact absurd ((h'.sound.persist ho).symm.trans hpersist) Bool.false_ne_true
  · rw [h'.like.1, ← h.like.1]
    exact hsaved.name
  · exact h'.like.isVar.trans (h.like.isVar.symm.trans hvar)

namespace Equipped

/-- A variable that is saved was registered, and it was saved from the beginning. -/
theorem saved (h : s.Equipped ledger) (hp : Proceeds .layout s A) (hw : Within .layout A)
    (hid : A.table.get? i = some id) (hsaved : A.Saves id) (hvar : id.role.isVar = true) :
    ∃ b v id₀, ledger i = some (b, v) ∧ b.role.Contains v.toInt ∧
      (b.role.kindName = "var" ∨ b.role.kindName = "svar") ∧ s.table.get? i = some id₀ ∧
      s.Holds b v id₀ ∧ A.Holds b v id := by
  have hA := hp.hosted h.hosted
  obtain ⟨b, v, hb⟩ := hA.orderly.listed i id hid hvar
  obtain ⟨id₁, hid₁, hlike⟩ := hA.orderly.entered i b v hb
  cases hid.symm.trans hid₁
  have hkept := hlike.isKept.symm.trans (hA.isKept_of_saves hw hid hsaved hvar)
  obtain ⟨id₁, hid₁, hheld⟩ := hA.holds hw hb hkept
  cases hid.symm.trans hid₁
  obtain ⟨id₀, hid₀, hheld₀⟩ := h.hosted.holds (hp.within hw) hb hkept
  obtain ⟨hin, hkind⟩ := h.writable i b v hb (hheld.flags.persist.symm.trans hsaved.persist)
  exact ⟨b, v, id₀, hb, hin, hkind, hid₀, hheld₀, hheld⟩

theorem free (h : s.Equipped ledger) (hp : Proceeds .layout s A) (hw : Within .layout A)
    (hid : A.table.get? i = some id) (hsaved : A.Saves id) (hrole : id.role = .alias) :
    ∀ j id₀, s.table.get? j = some id₀ → id₀.name ≠ id.name := by
  intro j id₀ hid₀ hname
  have hA := hp.hosted h.hosted
  obtain ⟨id₁, hid₁, hlike⟩ := hp.lasts.kept j id₀ hid₀
  cases hA.arises.intact.distinct i j id id₁ hid hid₁ (hname.symm.trans hlike.1.symm)
  cases hid.symm.trans hid₁
  rcases h.aliases i id₀ hid₀ (hlike.alias_iff.mp hrole) with hslot | hslashes
  · exact absurd hslot (Nat.not_lt.mpr (hA.le_of_unmarked hw hid hrole hsaved.arg))
  · rw [← hlike.1, hsaved.name] at hslashes
    cases hslashes

/-- The statement of what is saved can be read at the beginning. -/
theorem readable (h : s.Equipped ledger) (hp : Proceeds .layout s A) (hw : Within .layout A)
    (he : e ∈ A.collect) (hclean : e.kind ≠ utf8 "var" → Entry.IsClean e.value) :
    e.Readable s.table := by
  obtain ⟨i, id, hid, hsaved, rfl⟩ := mem_collect.mp he
  have hd := h.hosted.arises.intact.distinct
  rcases hsaved.holds with hvar | ⟨hrole, -⟩
  · obtain ⟨b, v, id₀, -, -, hkind, hid₀, hheld₀, hheld⟩ := h.saved hp hw hid hsaved hvar
    have hfound : s.table.lookup? id.name = some (i, id₀) :=
      (hd.lookup _ _ _).mpr ⟨hid₀, hheld₀.like.1.trans hheld.like.1.symm⟩
    have hkind₀ := hheld₀.like.kindName.symm ▸ hkind
    have hkindA := hheld.like.kindName.symm ▸ hkind
    have hsame : utf8 id₀.role.kindName = utf8 id.role.kindName :=
      congrArg utf8 (hheld₀.like.kindName.trans hheld.like.kindName.symm)
    have hvar₀ := hheld₀.like.isVar.trans (hheld.like.isVar.symm.trans hvar)
    rcases Role.cases_of_kindName hvar₀ hkind₀ with ⟨_, _, _, _, hrole₀⟩ | ⟨_, _, hrole₀⟩
    · have hk : (A.entryOf id).kind = utf8 "var" := hsame.symm.trans (by rw [hrole₀]; rfl)
      rcases Role.cases_of_kindName hvar hkindA with ⟨least, greatest, store, watch, hrole⟩ | ⟨_, _, hrole⟩
      · have htext : (A.entryOf id).value = intText id.flags.hex greatest (A.intOf store) := by
          change A.textOf id = _
          rw [textOf, hrole]
        obtain ⟨hbytes, hne⟩ := wordBytes_intText id.flags.hex greatest (A.intOf store)
        exact .int hk hfound hrole₀ (htext ▸ hbytes) (htext ▸ hne)
      · have hk' : (A.entryOf id).kind = utf8 "svar" := by
          change utf8 id.role.kindName = _
          rw [hrole]
          rfl
        exact absurd (hk.symm.trans hk') (by decide)
    · have hk : (A.entryOf id).kind = utf8 "svar" := hsame.symm.trans (by rw [hrole₀]; rfl)
      refine .text hk hfound hrole₀ (hclean ?_).1
      rw [hk]
      decide
  · have hk : (A.entryOf id).kind = utf8 "alias" := by
      change utf8 id.role.kindName = _
      rw [hrole]
      rfl
    refine .alias hk ?_ (hclean (by rw [hk]; decide))
    refine Table.find?_of_lookup?_none (Option.eq_none_iff_forall_ne_some.mpr fun found hl => ?_)
    exact h.free hp hw hid hsaved hrole found.1 found.2 (Table.get?_of_lookup? hl)
      (Table.name_of_lookup? hl)

/-- What is saved can be written at the beginning, or cannot be written and is as it was. -/
theorem takes (h : s.Equipped ledger) (hp : Proceeds .layout s A) (hw : Within .layout A)
    (he : e ∈ A.collect) (hid : s.table.get? i = some id) (hname : id.name = e.name) :
    s.Takes e i id := by
  obtain ⟨j, id', hid', hsaved, rfl⟩ := mem_collect.mp he
  have hA := hp.hosted h.hosted
  rcases hsaved.holds with hvar | ⟨hrole, -⟩
  · obtain ⟨b, v, id₀, hb, -, -, hid₀, hheld₀, hheld⟩ := h.saved hp hw hid' hsaved hvar
    have hname₀ : id.name = id₀.name := hname.trans (hheld.like.1.trans hheld₀.like.1.symm)
    cases h.hosted.arises.intact.distinct i j id id₀ hid hid₀ hname₀
    cases hid.symm.trans hid₀
    have hlike : id'.Like id := ⟨hname, hheld₀.like.2.trans hheld.like.2.symm⟩
    have hkind : (A.entryOf id').kind = utf8 id.role.kindName := congrArg utf8 hlike.kindName.symm
    have hhex : id.flags.hex = id'.flags.hex := hheld₀.flags.hex.trans hheld.flags.hex.symm
    have hoverride : id.flags.override = id'.flags.override :=
      hheld₀.flags.override.trans hheld.flags.override.symm
    have hvar₀ := hlike.isVar.trans hvar
    have hsaved₀ : s.Saves id := hsaved.of_holds hheld hheld₀ hvar
    cases ho : id.flags.override with
    | false =>
        refine .receives ⟨hid, hname, hkind, hsaved₀.readOnly, ?_⟩
        have hsuits := hA.suits hw (fun i b v hb hp => (h.writable i b v hb hp).1) hid' hsaved
          fun _ => hoverride.symm.trans ho
        exact hsuits.like hlike hhex fun _ => ⟨ho, hsaved₀.overridden⟩
    | true =>
        -- Both have the value that the variable was registered with.
        have hrefuses : b.flags.Refuses :=
          hheld₀.flags.refuses.mp (.inr ⟨ho, hsaved₀.persist⟩)
        have hvalue : s.valueOf id = A.valueOf id' :=
          (hheld₀.locked hrefuses).1.trans (hheld.locked hrefuses).1.symm
        exact .refuses hid hname hkind hvar₀ hsaved₀.readOnly ho hsaved₀.persist
          (textOf_eq_of_valueOf hlike hvar hhex hvalue)
  · exact absurd hname (h.free hp hw hid' hsaved hrole i id hid)

end Equipped

end Interp

end Variables

section Scripts

variable {s s₁ A B : Interp} {ledger : Ledger} {i : Nat} {id : Ident} {e : Entry} {es : List Entry}

theorem Entry.length_value_le (e : Entry) : e.value.length ≤ e.statement.length := by
  have hbody (t : Bytes) : t.length ≤ (t.flatMap Syntax.escapeByte).length := by
    induction t with
    | nil => exact Nat.le_refl _
    | cons c t ih =>
        have hbyte : 1 ≤ (Syntax.escapeByte c).length := by
          rcases escapeByte_cases c with ⟨hc, -⟩ | ⟨x, hc, -⟩ <;> rw [hc] <;> simp
        rw [List.flatMap_cons, List.length_append, List.length_cons]
        omega
  have hescape : e.value.length ≤ (Syntax.escape e.value).length := by
    rw [Syntax.escape]
    simp only [List.length_append, List.length_cons, List.length_nil]
    have := hbody e.value
    omega
  unfold Entry.statement
  split
  · simp only [List.length_append]
    omega
  · split
    · split <;> simp only [List.length_append] <;> omega
    · simp only [List.length_append]
      omega

private theorem length_statement_le {aliases : Bool} (he : e ∈ es) :
    e.statement.length ≤ (Interp.statementLines aliases es).length := by
  induction es generalizing aliases with
  | nil => cases he
  | cons e' es ih =>
      rw [Interp.statementLines]
      simp only [List.length_append]
      rcases List.mem_cons.mp he with rfl | he
      · omega
      · have hrest : e.statement.length ≤
            (Interp.statementLines (aliases || e'.kind == utf8 "alias") es).length := ih he
        omega

/-- The only identifiers of the kind of aliases are aliases. -/
theorem Role.eq_alias_of_kind {role : Role} (h : utf8 role.kindName = utf8 "alias") :
    role = .alias := by
  cases role with
  | «alias» => rfl
  | intVar => exact absurd h (show utf8 "var" ≠ utf8 "alias" by decide)
  | floatVar => exact absurd h (show utf8 "fvar" ≠ utf8 "alias" by decide)
  | textVar => exact absurd h (show utf8 "svar" ≠ utf8 "alias" by decide)
  | command => exact absurd h (show utf8 "command" ≠ utf8 "alias" by decide)
  | control c => exact absurd h (by cases c <;> decide)

namespace Interp.Equipped

/-- What was brought back is saved with the text of its entry. -/
theorem collects (h : s.Equipped ledger) (hp : Proceeds .layout s A) (hw : Within .layout A)
    (htable : s₁.table = s.table.naming (Entry.aliasNames A.collect))
    (hflags : s₁.writeFlags = s.writeFlags) (hback : s₁.BringsBack A.collect B)
    (hd : B.table.Distinct) (he : e ∈ A.collect) : e ∈ B.collect := by
  obtain ⟨j, idB, hbrought⟩ := hback.brought e he
  obtain ⟨i, idA, hidA, hsaved, rfl⟩ := mem_collect.mp he
  have hname : idB.name = idA.name := hbrought.name
  have hkind : utf8 idA.role.kindName = utf8 idB.role.kindName := hbrought.kind
  suffices hsavedB : B.Saves idB by
    refine mem_collect.mpr ⟨j, idB, hbrought.found, hsavedB, ?_⟩
    have htext : B.textOf idB = A.textOf idA := by
      refine hbrought.text fun hfloat => ?_
      rcases hsaved.holds with hvar | ⟨hrole, -⟩
      · obtain ⟨b, v, -, -, -, hkind, -, -, hheld⟩ := h.saved hp hw hidA hsaved hvar
        rw [← hheld.like.kindName, hsaved.isFloat hfloat] at hkind
        exact absurd hkind (by decide)
      · have hnone := hsaved.isFloat hfloat
        rw [hrole] at hnone
        exact absurd hnone (by decide)
    rw [entryOf, entryOf, hname, ← hkind, htext]
  have hslashes : Bytes.startsWith idB.name (utf8 "//") = false := hname.symm ▸ hsaved.name
  rcases hsaved.holds with hvar | ⟨hrole, -⟩
  · -- The variable has the flags that it had at the beginning.
    obtain ⟨b, v, id₀, -, -, -, hid₀, hheld₀, hheld⟩ := h.saved hp hw hidA hsaved hvar
    have hid₁ : s₁.table.get? i = some id₀ := by
      rw [htable, Table.get?_naming _ (Table.lt_size_of_get? hid₀), hid₀]
    obtain ⟨id₂, hid₂, hlike⟩ := hback.lasts.kept i id₀ hid₁
    have hvar₀ := hheld₀.like.isVar.trans (hheld.like.isVar.symm.trans hvar)
    have hname₂ : idB.name = id₂.name :=
      hname.trans (hheld.like.1.trans (hheld₀.like.1.symm.trans hlike.1.symm))
    cases hd j i idB id₂ hbrought.found hid₂ hname₂
    cases hid₂.symm.trans hbrought.found
    have hsaved₀ : s.Saves id₀ := hsaved.of_holds hheld hheld₀ hvar
    have hsame := hback.flags _ id₀ idB hid₁ hid₂ hvar₀
    exact ⟨hsame ▸ hsaved₀.persist, hsame ▸ hsaved₀.overridden, hsame ▸ hsaved₀.readOnly,
      hsame ▸ hsaved₀.arg, hsame ▸ hsaved₀.unknown, hslashes, .inl (hlike.isVar.trans hvar₀)⟩
  · have hroleB : idB.role = .alias := by
      refine Role.eq_alias_of_kind (hkind.symm.trans ?_)
      rw [hrole]
      rfl
    obtain ⟨hnull, hwritten⟩ := hbrought.alias hroleB
    have hplain : idB.flags = { persist := true } := by
      rw [hwritten, hback.writeFlags, hflags, h.blank]
      rfl
    have hvalue : B.valueOf idB = idB.value.settle := by rw [valueOf, hroleB]
    refine ⟨?_, ?_, ?_, ?_, ?_, hslashes, .inr ⟨hroleB, hvalue ▸ hnull⟩⟩ <;> rw [hplain]

/-- What is saved afterwards has the name of an entry. -/
theorem exists_entry (h : s.Equipped ledger) (hp : Proceeds .layout s A) (hw : Within .layout A)
    (htable : s₁.table = s.table.naming (Entry.aliasNames A.collect))
    (hback : s₁.BringsBack A.collect B) (hid : B.table.get? i = some id) (hsaved : B.Saves id) :
    ∃ e ∈ A.collect, e.name = id.name := by
  obtain ⟨id₁, hid₁⟩ : ∃ id₁, s₁.table.get? i = some id₁ := by
    refine Option.ne_none_iff_exists'.mp fun hnone => ?_
    rw [hback.absent i hnone] at hid
    cases hid
  obtain ⟨id₂, hid₂, hlike⟩ := hback.lasts.kept i id₁ hid₁
  cases hid.symm.trans hid₂
  rcases Nat.lt_or_ge i s.table.size with hlt | hge
  · have hid₀ : s.table.get? i = some id₁ := by rwa [htable, Table.get?_naming _ hlt] at hid₁
    rcases hsaved.holds with hvar | ⟨hrole, -⟩
    · -- The variable has been saved from the beginning, and so it was saved for the script.
      have hvar₀ := hlike.isVar.symm.trans hvar
      have hsame := hback.flags i id₁ id hid₁ hid hvar₀
      have hsaved₀ : s.Saves id₁ := ⟨hsame ▸ hsaved.persist, hsame ▸ hsaved.overridden,
        hsame ▸ hsaved.readOnly, hsame ▸ hsaved.arg, hsame ▸ hsaved.unknown, hlike.1 ▸ hsaved.name,
        .inl hvar₀⟩
      have hws := hp.within hw
      obtain ⟨b, v, hb⟩ := h.hosted.orderly.listed i id₁ hid₀ hvar₀
      obtain ⟨id₃, hid₃, hlike₀⟩ := h.hosted.orderly.entered i b v hb
      cases hid₀.symm.trans hid₃
      have hkept := hlike₀.isKept.symm.trans (h.hosted.isKept_of_saves hws hid₀ hsaved₀ hvar₀)
      obtain ⟨id₃, hid₃, hheld₀⟩ := h.hosted.holds hws hb hkept
      cases hid₀.symm.trans hid₃
      obtain ⟨idA, hidA, hheld⟩ := (hp.hosted h.hosted).holds hw hb hkept
      refine ⟨A.entryOf idA, entryOf_mem_collect hidA (hsaved₀.of_holds hheld₀ hheld hvar₀), ?_⟩
      exact hheld.like.1.trans (hheld₀.like.1.symm.trans hlike.1.symm)
    · by_contra hnone
      -- Nothing was written to an argument slot, which is marked as such.
      have hkept : B.table.get? i = some id₁ :=
        hback.others i id₁ hid₁ fun e he heq => hnone ⟨e, he, heq.trans hlike.1.symm⟩
      cases hid.symm.trans hkept
      rcases h.aliases i id hid₀ hrole with hslot | hslashes
      · rcases h.hosted.orderly.slots i hslot id hid₀ hrole with harg | ⟨n, f, hf⟩
        · exact absurd (harg.symm.trans hsaved.arg) (by decide)
        · rw [h.blank] at hf
          exact hf
      · exact absurd (hslashes.symm.trans hsaved.name) (by decide)
  · rw [htable] at hid₁
    obtain ⟨name, hname, rfl⟩ := Table.of_get?_naming _ hid₁ hge
    obtain ⟨e, he, rfl⟩ := List.mem_map.mp hname
    exact ⟨e, (List.mem_filter.mp he).1, hlike.1.symm⟩

end Interp.Equipped

/-- Executing a config script where the same variables are registered, and nothing else has been done,
raises no error, and afterwards the same is collected as before, so that the config script is the same
again. That is so for every interpreter that a well-behaved host can make of one with these variables,
provided that the names in the script are made of letters, digits and underscores and do not begin with
a digit, that its texts are clean, and that it is within the limits of the format. -/
theorem config_scripts_reproduce {s A : Interp} (h : s.Registers)
    (hp : Interp.Proceeds .layout s A) (hw : Within .layout A)
    (hshort : A.configScript.length < operandLimit)
    (hsize : (compile s.table A.configScript []).table.size ≤ operandLimit)
    (hnames : ∀ e ∈ A.collect, Entry.IsName e.name)
    (hclean : ∀ e ∈ A.collect, e.kind ≠ utf8 "var" → Entry.IsClean e.value) :
    ∃ v B, outcome (execute A.configScript) s = (.ok (.ok v), B) ∧ B.collect = A.collect ∧
      B.configScript = A.configScript := by
  obtain ⟨ledger, h⟩ := h.equipped
  have hd := h.hosted.arises.intact.distinct
  have hdA := (hp.hosted h.hosted).arises.intact.distinct
  have hvalues (e : Entry) (he : e ∈ A.collect) : e.value.length < operandLimit := by
    have hlines : e.statement.length ≤ (Interp.statementLines false A.collect).length :=
      length_statement_le he
    have hscript : A.configScript.length =
        Interp.configHeader.length + (Interp.statementLines false A.collect).length :=
      List.length_append
    have := e.length_value_le
    omega
  have hroom : 0 < s.maxDepth.toNat := by
    have hdepth : 0 < Interp.new.maxDepth.toNat := by decide
    rw [h.blank]
    exact hdepth
  have hmode : s.WritesPlain := by
    rw [h.blank]
    rfl
  have hstep : s.writeFlags.persist = (s.persistence != 0) := by
    rw [h.blank]
    rfl
  obtain ⟨v, s₁, B, hok, htable, hflags, hback⟩ := outcome_execute_entries
    (show A.configScript = _ from rfl) hnames (fun e he => h.readable hp hw he (hclean e he)) (Interp.nodup_names_collect hdA)
    h.hosted.orderly.size hsize hvalues hroom h.unwatched hmode hstep hd
    fun e he i id hid hname => h.takes hp hw he hid hname
  have hafter : (Move.request (.execute A.configScript)).perform s = B := by
    change (outcome (execute A.configScript) s).2 = B
    rw [hok]
  have hdB : B.table.Distinct := hafter ▸ (h.hosted.arises.move _).intact.distinct
  have hcollects {e : Entry} (he : e ∈ A.collect) : e ∈ B.collect :=
    h.collects hp hw htable hflags hback hdB he
  have hsame : B.collect = A.collect := by
    refine Interp.collect_congr hdB hdA fun e => ⟨fun he => ?_, hcollects⟩
    obtain ⟨i, id, hid, hsaved, rfl⟩ := Interp.mem_collect.mp he
    obtain ⟨e, he', hname⟩ := h.exists_entry hp hw htable hback hid hsaved
    rwa [Interp.eq_of_mem_collect hdB he (hcollects he') hname.symm]
  refine ⟨v, B, hok, hsame, ?_⟩
  rw [Interp.configScript, Interp.configScript, hsame]

/-- A host with an integer variable that persists. -/
def settingHost (name : Bytes) : Interp :=
  (Move.request (.registerInt name 0 5 9 { persist := true } .none)).perform .new

theorem registers_settingHost (name : Bytes) : (settingHost name).Registers :=
  .int .new name (by decide) _

/-- The host after a script. -/
def changedHost (name src : Bytes) : Interp := (Move.request (.execute src)).perform (settingHost name)

theorem proceeds_changedHost (name src : Bytes) :
    Interp.Proceeds .layout (settingHost name) (changedHost name src) :=
  .move .refl (.request (.execute src)) trivial rfl

set_option maxRecDepth 100000 in
private theorem run_changedHost :
    ((changedHost (utf8 "v") (utf8 "a = x")).compiled,
      fitsWords (settingHost (utf8 "v")).table (utf8 "a = x") [],
      (changedHost (utf8 "v") (utf8 "a = x")).collect,
      decide ((changedHost (utf8 "v") (utf8 "a = x")).configScript.length < operandLimit),
      decide ((compile (settingHost (utf8 "v")).table
        (changedHost (utf8 "v") (utf8 "a = x")).configScript []).table.size ≤ operandLimit)) =
    (fun t src name => False ∨
      (t = (settingHost (utf8 "v")).table ∧ src = utf8 "a = x" ∧ name = []),
      true, [⟨utf8 "v", utf8 "var", utf8 "5"⟩, ⟨utf8 "a", utf8 "alias", utf8 "x"⟩], true, true) := by
  with_unfolding_all rfl

/-- The variable and an alias are written back. -/
theorem config_scripts_reproduce_alias : ∃ v B,
    outcome (execute (changedHost (utf8 "v") (utf8 "a = x")).configScript) (settingHost (utf8 "v")) =
      (.ok (.ok v), B) ∧
    B.collect = [⟨utf8 "v", utf8 "var", utf8 "5"⟩, ⟨utf8 "a", utf8 "alias", utf8 "x"⟩] := by
  obtain ⟨hw, hchecked⟩ := Within.of_run (r := .layout) run_changedHost
  obtain ⟨hcollect, hshort, hsize⟩ := by
    simpa only [Prod.mk.injEq, decide_eq_true_eq] using hchecked
  have hentry (e : Entry) (he : e ∈ (changedHost (utf8 "v") (utf8 "a = x")).collect) :
      Entry.IsName e.name ∧ Entry.IsClean e.value := by
    rcases List.mem_pair.mp (hcollect ▸ he) with rfl | rfl <;>
      exact ⟨⟨by decide, List.all_eq_true.mp (by decide), by decide⟩, by decide, by decide⟩
  obtain ⟨v, B, hok, hsame, -⟩ := config_scripts_reproduce (registers_settingHost (utf8 "v"))
    (proceeds_changedHost _ _) hw hshort hsize
    (fun e he => (hentry e he).1) fun e he _ => (hentry e he).2
  exact ⟨v, B, hok, hsame.trans hcollect⟩

/-- The statement of a variable whose name is no word does not write it: the names of variables, too,
have to be words. -/
theorem config_scripts_miss_spaced_names : ∃ s A : Interp, s.Registers ∧
    Interp.Proceeds .layout s A ∧ (∀ e ∈ A.collect, e.kind = utf8 "alias" → Entry.IsName e.name) ∧
    (∀ e ∈ A.collect, e.kind ≠ utf8 "var" → Entry.IsClean e.value) ∧
    (outcome (execute A.configScript) s).2.collect ≠ A.collect := by
  obtain ⟨hcollect, hagain⟩ :
      (changedHost (utf8 "a b") (utf8 "alias \"a b\" 7")).collect =
        [⟨utf8 "a b", utf8 "var", utf8 "7"⟩] ∧
      (outcome (execute (changedHost (utf8 "a b") (utf8 "alias \"a b\" 7")).configScript)
        (settingHost (utf8 "a b"))).2.collect = [⟨utf8 "a b", utf8 "var", utf8 "5"⟩] := by
    decide +kernel
  refine ⟨settingHost (utf8 "a b"), changedHost (utf8 "a b") (utf8 "alias \"a b\" 7"),
    registers_settingHost _, proceeds_changedHost _ _, fun e he hkind => ?_, fun e he hkind => ?_,
    fun heq => ?_⟩
  · obtain rfl := List.mem_singleton.mp (hcollect ▸ he)
    exact absurd hkind (by decide)
  · obtain rfl := List.mem_singleton.mp (hcollect ▸ he)
    exact absurd rfl hkind
  · rw [hagain, hcollect] at heq
    exact absurd heq (by decide)

end Scripts

end ConsoleScript
