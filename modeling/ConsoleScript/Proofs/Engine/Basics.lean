import ConsoleScript.Proofs.Engine.Safety

/-!
The elementary computations are safe: reports, reading and changing identifiers, compiling, running
values, and the programs of the host.
-/

namespace ConsoleScript

open Bytecode Engine

variable {α : Type} {r : Rigour} {w : World r} {s : Interp} {t t' : Table} {i : Nat}

/-- A runner that runs code safely, from where it can be run up to the end of that code. -/
def RunsSafely (r : Rigour) (k : Runner) : Prop :=
  ∀ (w : World r) b pc e, (w.live → Runnable r w.state.table b pc 0 e) →
    w.Safe (k b pc) fun s a => a.1.Ok r s.table ∧ a.2 = e

/-- A change of the identifier with an index that keeps its form and its saved values. The value of
a slot changes only if the innermost scope has bound it. -/
structure Ident.Alters (r : Rigour) (s : Interp) (i : Nat) (id id' : Ident) : Prop where
  form : id'.role.form r = id.role.form r
  ok : id'.Ok r s.table
  saved : id'.saved = id.saved
  value : i < maxArgs → s.isBound i = false → id'.value = id.value
  plain : i < maxArgs → id.flags.overridden = false → id'.flags.overridden = false

/-- A change that leaves the value of an alias alone, unless the alias is overridden. -/
def Ident.LeavesPlain (i : Nat) (id id' : Ident) : Prop :=
  maxArgs ≤ i → id.role = .alias → id.flags.overridden = false →
    id'.flags.overridden = false ∧ id'.value = id.value

/-- A change of the table that keeps forms and saved values keeps everything, if writes of aliases are
on record. -/
theorem Inv.settles_noted (h : Inv r s) (ht : t.Ready r) (hf : s.table.Extends r t)
    (hd : ∀ i, t.depth i = s.table.depth i)
    (hb : ∀ i < maxArgs, ({ s with table := t } : Interp).callerBindings i = s.callerBindings i)
    (hs : ∀ i, (t.bindings i).drop 1 = (s.table.bindings i).drop 1) {writes : Nat}
    {written : Nat → Nat → Flags → Prop}
    (hh : Heeds (fun _ => 0) s { s with table := t, writes, written })
    (hw : ∀ n i f, written n i f → s.written n i f ∨ t.IsNamed r i) :
    Settles r s { s with table := t, writes, written } := by
  have hsp : Spares s { s with table := t, writes, written } := ⟨Nat.le_refl _, fun _ => hb⟩
  refine ⟨.of_same rfl rfl hd rfl rfl hsp (fun i _ => .of_saved (hs i)) hh,
    ⟨ht, fun i hi => ?_, h.outermost⟩, hf, hw⟩
  rw [hd]
  exact h.backed i hi

theorem Inv.settles (h : Inv r s) (ht : t.Ready r) (hf : s.table.Extends r t)
    (hd : ∀ i, t.depth i = s.table.depth i)
    (hb : ∀ i < maxArgs, ({ s with table := t } : Interp).callerBindings i = s.callerBindings i)
    (hs : ∀ i, (t.bindings i).drop 1 = (s.table.bindings i).drop 1)
    (hp : ∀ i, maxArgs ≤ i → s.table.Plain i → t.Plain i ∧ t.bindings i = s.table.bindings i) :
    Settles r s { s with table := t } :=
  h.settles_noted ht hf hd hb hs (.of_same rfl rfl hp) fun _ _ _ hn => .inl hn

/-- A change of one identifier keeps everything, if a write of an alias is on record. -/
theorem Inv.settles_altered (h : Inv r s) {g : Ident → Ident}
    (hg : ∀ id, s.table.get? i = some id → id.Alters r s i (g id)) {writes : Nat}
    {written : Nat → Nat → Flags → Prop}
    (hh : Heeds (fun _ => 0) s { s with table := s.table.modify i g, writes, written })
    (hw : ∀ n j f, written n j f → s.written n j f ∨ s.table.IsNamed r j) :
    Settles r s { s with table := s.table.modify i g, writes, written } := by
  have hforms : s.table.Extends r (s.table.modify i g) :=
    Table.extends_modify i g fun id hid => (hg id hid).form
  refine h.settles_noted (h.table.modify fun id hid =>
    ⟨(hg id hid).form, (hg id hid).ok, (hg id hid).plain⟩) hforms (fun j => ?_) (fun j hj => ?_)
    (fun j => ?_) hh fun n j f hn => (hw n j f hn).imp_right (·.mono hforms)
  · rw [Table.depth_modify]
    split
    next hj =>
      subst hj
      cases hid : s.table.get? i with
      | none => rw [Table.depth, hid]; rfl
      | some id => rw [Table.depth_of_get? hid]; exact congrArg List.length (hg id hid).saved
    next => rfl
  · -- The value of a slot that is bound is not one of the callers' bindings.
    change List.drop (if s.isBound j then 1 else 0) ((s.table.modify i g).bindings j) =
      List.drop (if s.isBound j then 1 else 0) (s.table.bindings j)
    by_cases hij : i = j
    · subst hij
      obtain ⟨id, hid⟩ := Table.exists_get? (h.table.slot_lt hj)
      rw [Table.bindings_modify_self hid, Table.bindings_of_get? hid, (hg id hid).saved]
      cases hb : s.isBound i with
      | true => rfl
      | false => rw [(hg id hid).value hj hb]
    · rw [Table.bindings_modify_ne hij]
  · by_cases hij : i = j
    · subst hij
      cases hid : s.table.get? i with
      | none => rw [Table.bindings, Table.bindings, Table.get?_modify, if_pos rfl, hid]; rfl
      | some id =>
          rw [Table.bindings_modify_self hid, Table.bindings_of_get? hid]
          exact (hg id hid).saved
    · rw [Table.bindings_modify_ne hij]

theorem Inv.settles_modifyIdent (h : Inv r s) {g : Ident → Ident}
    (hg : ∀ id, s.table.get? i = some id → id.Alters r s i (g id) ∧ id.LeavesPlain i (g id)) :
    Settles r s (s.modifyIdent i g) := by
  refine h.settles_altered (fun id hid => (hg id hid).1) (.of_same rfl rfl fun j hj hp => ?_)
    fun _ _ _ hn => .inl hn
  by_cases hij : i = j
  · subst hij
    obtain ⟨id, hid, halias, hplain⟩ := hp
    obtain ⟨hof, hplain'⟩ := hg id hid
    obtain ⟨hflag, hvalue⟩ := hplain' hj halias hplain
    refine ⟨⟨g id, ?_, Role.eq_alias_of_form (r := r) ?_, hflag⟩, ?_⟩
    · rw [Table.get?_modify, if_pos rfl, hid]
      rfl
    · rw [hof.form, halias]
      rfl
    · rw [Table.bindings_modify_self hid, Table.bindings_of_get? hid, hvalue, hof.saved]
      rfl
  · obtain ⟨id, hid, hplain⟩ := hp
    refine ⟨⟨id, ?_, hplain⟩, Table.bindings_modify_ne hij⟩
    rw [Table.get?_modify, if_neg hij]
    exact hid

theorem Table.Names.ready (h : t.Names t') (ht : t.Ready r) : t'.Ready r := by
  induction h with
  | refl => exact ht
  | push _ name ih => exact ih.push_alias rfl (Ident.ok_alias r _ name _)

theorem Table.Names.depth (h : t.Names t') (i : Nat) : t'.depth i = t.depth i := by
  induction h with
  | refl => rfl
  | push _ name ih =>
      rw [Table.depth_push _ (by rfl)]
      exact ih

theorem Table.Names.bindings (h : t.Names t') (hi : i < t.size) : t'.bindings i = t.bindings i := by
  induction h with
  | refl => rfl
  | push h name ih =>
      rw [Table.bindings_push _ _ ((h.extends .layout).lt_size hi)]
      exact ih

theorem Table.Names.plain (h : t.Names t') (hi : t.Plain i) : t'.Plain i := by
  induction h with
  | refl => exact hi
  | push _ name ih => exact ih.push _

theorem Table.Plain.lt_size (h : t.Plain i) : i < t.size := by
  obtain ⟨id, hid, -⟩ := h
  exact lt_size_of_get? hid

theorem Table.Names.saved (h : t.Names t') (i : Nat) :
    (t'.bindings i).drop 1 = (t.bindings i).drop 1 := by
  induction h with
  | refl => rfl
  | push _ name ih => exact (Table.saved_push _ rfl i).trans ih

theorem Inv.settles_names (h : Inv r s) (ht : s.table.Names t) :
    Settles r s { s with table := t } := by
  refine h.settles (ht.ready h.table) (ht.extends r) ht.depth (fun i hi => ?_) ht.saved
    fun i _ hp => ⟨ht.plain hp, ht.bindings hp.lt_size⟩
  exact Interp.callerBindings_drop (n := 0) rfl (ht.bindings (h.table.slot_lt hi))

theorem Inv.settles_addCompiled (h : Inv r s) (ht : s.table.Names t) (src name : Bytes) :
    Settles r s (s.addCompiled src name t) := by
  have hk := h.settles_names ht
  exact ⟨⟨hk.scopes, hk.outermost, hk.keeps, hk.slots, hk.depth, hk.callArgs, hk.muted,
    ⟨hk.spares.outerRuns, hk.spares.callers⟩, hk.aliases,
    ⟨hk.heeds.writes, hk.heeds.written, hk.heeds.others⟩⟩,
    ⟨hk.inv.table, hk.inv.backed, hk.inv.outermost⟩, hk.forms, hk.targets⟩

theorem compile_runnable (ht : t.Sound r) {src name : Bytes} (hw : Within r s)
    (hc : s.compiled t src name) : t.Names (compile t src name).table ∧
      ∃ e, Runnable r (compile t src name).table (compile t src name).block 1 0 e := by
  obtain ⟨hnames, htyped⟩ := Compile.program_typed ht (hw.texts _ _ _ hc) name
  have hfits : Fits r (compile t src name).table (compile t src name).block :=
    ⟨hw.blocks _ _ _ hc, hw.tables _ _ _ hc, fun hr => hw.calls hr _ _ _ hc⟩
  rw [Compile.compile_table, Compile.compile_block] at *
  exact ⟨hnames, htyped.runnable_toBlock hfits fun hr => hw.uncrowded hr _ _ _ hc⟩

theorem steady_modifyIdent (i : Nat) (g : Ident → Ident) : Steady (modifyIdent i g) :=
  .change fun s => .refl s

theorem steady_identAt (i : Nat) : Steady (identAt i) := by
  refine .read fun s => ?_
  split
  · exact .pure _
  · exact .stop _

namespace World

theorem Safe.fail {c : Fault.Cause} {Q : Interp → α → Prop}
    (h : w.live → r.Permits (.fault { cause := c })) : w.Safe (fail c) Q :=
  .stop h

theorem Safe.failAt {b : Bytes} {pc : Int} {c : Fault.Cause} {Q : Interp → α → Prop}
    (h : w.live → r.Permits (.fault { cause := c, block := b, pc })) : w.Safe (failAt b pc c) Q :=
  .stop h

theorem exists_of_live {P : Nat → Prop} (h : w.live → ∃ e, P e) : ∃ e, w.live → P e := by
  by_cases hl : w.live
  · obtain ⟨e, he⟩ := h hl
    exact ⟨e, fun _ => he⟩
  · exact ⟨0, fun h => absurd h hl⟩

variable (w)

theorem safe_emit (e : Event) : w.Safe (emit e) fun _ _ => True :=
  (Safe.calm fun _ => {}).drop

theorem safe_echo (line : Bytes) : w.Safe (echo line) fun _ _ => True := w.safe_emit _

theorem safe_warn (text : Bytes) : w.Safe (warn text) fun _ _ => True := w.safe_emit _

theorem safe_debug (text : Bytes) : w.Safe (debug text) fun _ _ => True := by
  refine .read (.ite (fun _ => ?_) fun _ => .pure fun _ => trivial)
  refine (w.safe_warn text).bind fun w' _ _ _ => ?_
  refine .ite (fun _ => ?_) fun _ => .pure fun _ => trivial
  exact .each _ fun w'' _ line _ => w''.safe_warn line

variable {w}

/-- Reading an identifier changes nothing. -/
theorem Safe.identAt {f : Ident → Engine α} {Q : Interp → α → Prop}
    (hi : w.live → i < w.state.table.size)
    (h : ∀ id, w.state.table.get? i = some id → w.Safe (f id) Q) :
    w.Safe (identAt i >>= f) Q := by
  cases hid : w.state.table.get? i with
  | some id =>
      unfold Safe
      rw [outcome_bind_ok (outcome_identAt hid)]
      exact h id hid
  | none =>
      unfold Safe
      rw [outcome_bind_error (outcome_identAt_none hid)]
      refine ⟨.error (.refl _), fun hl => ?_⟩
      obtain ⟨id, hid'⟩ := Table.exists_get? (hi hl)
      rw [hid] at hid'
      cases hid'

theorem safe_modifyIdent {g : Ident → Ident}
    (hg : w.live → ∀ id, w.state.table.get? i = some id →
      id.Alters r w.state i (g id) ∧ id.LeavesPlain i (g id)) :
    w.Safe (modifyIdent i g) fun s _ => s = w.state.modifyIdent i g :=
  .change (.refl _) fun hl _ => ⟨(w.inv hl).settles_modifyIdent (hg hl), rfl⟩

theorem safe_intern (name : Bytes) : w.Safe (intern name) fun s i => i < s.table.size := by
  have hnames (hl : w.live) := Table.intern_spec (w.inv hl).table.dummy_lt name
  refine .read ?_
  rcases h : w.state.table.intern name with ⟨i, isName, t⟩
  rw [h] at hnames
  have hset : w.Safe (modify fun s => { s with table := t }) fun s _ => i < s.table.size :=
    .change (.refl _) fun hl _ => ⟨(w.inv hl).settles_names (hnames hl).2, (hnames hl).1⟩
  refine hset.bind fun w' _ _ hi => ?_
  refine .ite (fun _ => .pure hi) fun _ => ?_
  exact (w'.safe_debug _).bind fun w'' _ hw _ => .pure fun hl => (hw.forms hl).lt_size (hi (hw hl).1)

/-- A block that was compiled can be run from its first instruction. -/
theorem safe_compileText (src name : Bytes) :
    w.Safe (compileText src name) fun s b => ∃ e, Runnable r s.table b 1 0 e := by
  have hrecord : w.Safe
      (modify (·.addCompiled src name (compile w.state.table src name).table)) fun s _ =>
        ∃ e, Runnable r s.table (compile w.state.table src name).block 1 0 e := by
    refine .change (fun _ _ _ h => .inl h) fun hl hw => ?_
    obtain ⟨hnames, hrun⟩ := compile_runnable (w.inv hl).table.toSound hw (.inr ⟨rfl, rfl, rfl⟩)
    exact ⟨(w.inv hl).settles_addCompiled hnames src name, hrun⟩
  refine .read (hrecord.bind fun w' _ _ hb => ?_)
  refine (Safe.each _ fun w'' _ text _ => w''.safe_debug text).bind fun w'' _ hw _ => ?_
  refine .pure fun hl => ?_
  obtain ⟨e, he⟩ := hb (hw hl).1
  exact ⟨e, he.mono (hw.forms hl)⟩

variable {k : Runner}

theorem safe_runCode (hk : RunsSafely r k) {b : Block} {pc : Nat}
    (h : w.live → ∃ e, Runnable r w.state.table b pc 0 e) :
    w.Safe (k b pc) fun s a => a.1.Ok r s.table := by
  obtain ⟨e, he⟩ := exists_of_live h
  exact (hk w b pc e he).mono fun _ _ _ _ _ ha => ha.1

theorem safe_runText (hk : RunsSafely r k) (src name : Bytes) :
    w.Safe (runText k src name) fun s v => v.Ok r s.table :=
  (safe_compileText src name).bind fun _ _ _ hb => (safe_runCode hk hb).bind fun _ _ _ ha => .pure ha

theorem safe_runValue (hk : RunsSafely r k) {v : Value} (hv : w.Good v) :
    w.Safe (runValue k v) fun s v => v.Ok r s.table := by
  unfold runValue
  split
  · exact (safe_runCode hk hv).bind fun _ _ _ ha => .pure ha
  · exact safe_runText hk _ _
  · exact .pure fun _ => Value.ok_settle _ _ _

theorem safe_executeText (hk : RunsSafely r k) (src : Bytes) :
    w.Safe (executeText k src) fun s o => (∀ v, o = .ok v → v.Ok r s.table) ∧
      ∀ f, o = .error f → r.Permits (.fault f) :=
  .shielded (safe_runText hk src [])

/-- Programs of the host are run safely, whatever they execute on the way. -/
theorem safe_runHost (hk : RunsSafely r k) {p : HostProgram}
    (hp : w.live → p.Honest r w.state.table) :
    w.Safe (runHost k p) fun s v => v.Ok r s.table := by
  induction p generalizing w with
  | done v => exact .pure hp
  | fail message =>
      refine .fail fun hl => ?_
      have hr : r ≠ .operands := hp hl
      cases r with
      | operands => exact absurd rfl hr
      | layout => trivial
      | room => nofun
  | emit e next ih =>
      exact (w.safe_emit e).bind fun w' _ hw _ =>
        ih fun hl => HostProgram.Honest.mono (hp (hw hl).1) (hw.forms hl)
  | execute src next ih =>
      exact (safe_executeText hk src).bind fun w' o hw ho =>
        ih o fun hl => hp (hw hl).1 _ o (hw.forms hl) (ho hl).1 (ho hl).2
  | runValue v next ih =>
      exact (safe_runValue hk fun hl => (hp hl).1).bind fun w' v' hw hv =>
        ih v' fun hl => (hp (hw hl).1).2 _ v' (hw.forms hl) (hv hl)

end World

end ConsoleScript
