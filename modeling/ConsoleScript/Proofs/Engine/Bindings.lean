import ConsoleScript.Proofs.Engine.Basics

/-!
Bindings are restored. Values of identifiers are saved and restored in steps that do nothing else;
the computations that save values for a while restore them at their end, however they end, from
whatever a safe computation inside has left.
-/

namespace ConsoleScript

open Bytecode Engine

variable {α : Type} {r : Rigour} {s s' s'' : Interp} {t : Table} {i j : Nat}

/-- A change of the table alone that keeps all forms, and overrides no alias. -/
structure Rebinds (r : Rigour) (s s' : Interp) : Prop where
  same : s' = { s with table := s'.table }
  ready : s'.table.Ready r
  forms : s.table.Extends r s'.table
  plain : ∀ i, s'.table.Plain i ↔ s.table.Plain i

namespace Rebinds

theorem refl (h : s.table.Ready r) : Rebinds r s s := ⟨rfl, h, .refl r _, fun _ => .rfl⟩

theorem trans (h : Rebinds r s s') (h' : Rebinds r s' s'') : Rebinds r s s'' := by
  refine ⟨?_, h'.ready, h.forms.trans h'.forms, fun i => (h'.plain i).trans (h.plain i)⟩
  rw [h'.same, h.same]

private theorem grows (h : Rebinds r s s') : Grows s s' := by
  rw [h.same]
  exact .refl s

theorem scopes (h : Rebinds r s s') : s'.scopes = s.scopes := by rw [h.same]

theorem outermost (h : Rebinds r s s') : s'.outermost = s.outermost := by rw [h.same]

theorem callArgs (h : Rebinds r s s') : s'.callArgs = s.callArgs := by rw [h.same]

theorem muted (h : Rebinds r s s') : s'.muted = s.muted := by rw [h.same]

theorem outerRuns (h : Rebinds r s s') : s'.outerRuns = s.outerRuns := by rw [h.same]

theorem writes (h : Rebinds r s s') : s'.writes = s.writes := by rw [h.same]

theorem written (h : Rebinds r s s') : s'.written = s.written := by rw [h.same]

end Rebinds

/-- A table that has further values of identifiers on top of those of another one. -/
structure Table.Adds (n : Nat → Nat) (t t' : Table) : Prop where
  depth : ∀ j, t'.depth j = t.depth j + n j
  bindings : ∀ j, t.bindings j = (t'.bindings j).drop (n j)

namespace Table.Adds

variable {n n' : Nat → Nat} {t t' t'' : Table}

theorem refl (t : Table) : t.Adds (fun _ => 0) t := ⟨fun _ => rfl, fun _ => rfl⟩

theorem trans (h : t.Adds n t') (h' : t'.Adds n' t'') : t.Adds (fun j => n' j + n j) t'' := by
  refine ⟨fun j => ?_, fun j => ?_⟩
  · have := h.depth j
    have := h'.depth j
    omega
  · rw [h.bindings, h'.bindings, List.drop_drop]

theorem of_eq (h : t.Adds n t') (hn : ∀ j, n j = n' j) : t.Adds n' t' := by
  rw [← funext hn]
  exact h

end Table.Adds

theorem Ident.Ok.pushValue {id : Ident} (h : id.Ok r t) {v : Value} (hv : v.Ok r t) :
    (id.pushValue v).Ok r t where
  value := hv
  saved u hu := by
    rcases List.mem_cons.mp hu with rfl | hu
    · exact h.value
    · exact h.saved u hu
  body := nofun
  role := h.role
  locked := h.locked

/-- Saving a value. -/
theorem rebinds_push (hr : s.table.Ready r) (hi : i < s.table.size) {v : Value}
    (hv : v.Ok r s.table) : Rebinds r s (s.modifyIdent i (·.pushValue v)) ∧
      s.table.Adds (fun j => if i = j then 1 else 0) (s.modifyIdent i (·.pushValue v)).table := by
  obtain ⟨id, hid⟩ := Table.exists_get? hi
  refine ⟨⟨rfl, hr.modify fun id hid => ⟨rfl, (hr.idents i id hid).pushValue hv, fun _ h => h⟩,
    Table.extends_modify i _ fun _ _ => rfl, Table.plain_modify fun _ _ => ⟨rfl, rfl⟩⟩, fun j => ?_,
    fun j => ?_⟩
  · rw [Interp.modifyIdent, Table.depth_modify]
    split
    next hj =>
      subst hj
      rw [Table.depth, hid]
      rfl
    next => rfl
  · rw [Interp.modifyIdent]
    split
    next hj =>
      subst hj
      rw [Table.bindings_modify_self hid, Table.bindings_of_get? hid]
      rfl
    next hj => exact (Table.bindings_modify_ne hj).symm

theorem rebinds_clearUnknown (hr : s.table.Ready r) (i : Nat) :
    Rebinds r s (s.modifyIdent i clearUnknown) ∧
      s.table.Adds (fun _ => 0) (s.modifyIdent i clearUnknown).table := by
  refine ⟨⟨rfl, hr.modify fun id hid => ?_, Table.extends_modify i _ fun _ _ => rfl,
    Table.plain_modify fun _ _ => ⟨rfl, rfl⟩⟩, fun j => ?_, fun j => ?_⟩
  · obtain ⟨hv, hs, hb, hrole, hlocked⟩ := hr.idents i id hid
    exact ⟨rfl, ⟨hv, hs, hb, hrole, hlocked⟩, fun _ h => h⟩
  · rw [Interp.modifyIdent, Table.depth_modify]
    split
    · rfl
    · rfl
  · exact (Table.bindings_modify (g := clearUnknown) fun _ _ _ => ⟨rfl, rfl⟩).symm

theorem Ident.Ok.restore {id : Ident} (h : id.Ok r t) {v : Value} {rest : List Value}
    (hs : id.saved = v :: rest) : { id with value := v, saved := rest, body := none }.Ok r t where
  value := h.saved v (hs ▸ List.mem_cons_self)
  saved u hu := h.saved u (hs ▸ List.mem_cons_of_mem v hu)
  body := nofun
  role := h.role
  locked := h.locked

/-- Restoring a value, where one is saved. -/
theorem outcome_popArg (hr : s.table.Ready r) (hd : 0 < s.table.depth i) :
    ∃ s', outcome (popArg i) s = (.ok ⟨⟩, s') ∧ Rebinds r s s' ∧
      s'.table.Adds (fun j => if i = j then 1 else 0) s.table := by
  cases hid : s.table.get? i with
  | none => simp [Table.depth, hid] at hd
  | some id =>
      rw [Table.depth_of_get? hid] at hd
      obtain ⟨v, rest, hs⟩ := List.exists_cons_of_length_pos hd
      let restore (id : Ident) : Ident := { id with value := v, saved := rest, body := none }
      refine ⟨s.modifyIdent i restore, ?_, ⟨rfl, ?_, ?_,
        Table.plain_modify fun _ _ => ⟨rfl, rfl⟩⟩, fun j => ?_, fun j => ?_⟩
      · rw [popArg, outcome_bind_ok (outcome_identAt hid), hs]
        rfl
      · refine hr.modify fun id' hid' => ?_
        cases hid.symm.trans hid'
        exact ⟨rfl, (hr.idents i id hid).restore hs, fun _ h => h⟩
      · exact Table.extends_modify i restore fun _ _ => rfl
      · rw [Interp.modifyIdent, Table.depth_modify]
        split
        next hj =>
          subst hj
          rw [Table.depth_of_get? hid, hid, Ident.depth, hs]
          rfl
        next => rfl
      · rw [Interp.modifyIdent]
        split
        next hj =>
          subst hj
          rw [Table.bindings_modify_self hid, Table.bindings_of_get? hid, hs]
          rfl
        next hj => exact Table.bindings_modify_ne hj

theorem count_cons_eq (i j : Nat) (l : List Nat) :
    (i :: l).count j = l.count j + if i = j then 1 else 0 := by
  rw [List.count_cons]
  simp only [beq_iff_eq]

/-- Restoring a value of each identifier of a list. -/
theorem outcome_popArgs (hr : s.table.Ready r) (l : List Nat)
    (hd : ∀ j, l.count j ≤ s.table.depth j) :
    ∃ s', outcome (l.forM popArg) s = (.ok ⟨⟩, s') ∧ Rebinds r s s' ∧
      s'.table.Adds (fun j => l.count j) s.table := by
  induction l generalizing s with
  | nil => exact ⟨s, rfl, .refl hr, .refl _⟩
  | cons i l ih =>
      have hpos : 0 < s.table.depth i := by
        have := hd i
        rw [List.count_cons_self] at this
        omega
      obtain ⟨s₁, h₁, hb₁, hd₁⟩ := outcome_popArg hr hpos
      have hle (j : Nat) : l.count j ≤ s₁.table.depth j := by
        have := hd j
        have := hd₁.depth j
        rw [count_cons_eq] at *
        omega
      obtain ⟨s₂, h₂, hb₂, hd₂⟩ := ih hb₁.ready hle
      refine ⟨s₂, (outcome_bind_ok h₁ _).trans h₂, hb₁.trans hb₂, (hd₂.trans hd₁).of_eq fun j => ?_⟩
      rw [count_cons_eq, Nat.add_comm]

/-- Saving values of identifiers. -/
theorem outcome_pushArgs {γ : Type} (index : γ → Nat) (value : γ → Value)
    (hr : s.table.Ready r) (l : List γ)
    (hl : ∀ a ∈ l, index a < s.table.size ∧ (value a).Ok r s.table) :
    ∃ s', outcome (l.forM fun a => pushArg (index a) (value a)) s = (.ok ⟨⟩, s') ∧
      Rebinds r s s' ∧ s.table.Adds (fun j => (l.map index).count j) s'.table := by
  induction l generalizing s with
  | nil => exact ⟨s, rfl, .refl hr, .refl _⟩
  | cons a l ih =>
      obtain ⟨hi, hv⟩ := hl a List.mem_cons_self
      obtain ⟨hb₁, hd₁⟩ := rebinds_push hr hi hv
      obtain ⟨s₂, h₂, hb₂, hd₂⟩ := ih hb₁.ready fun b hb =>
        have hb := hl b (List.mem_cons_of_mem a hb)
        ⟨hb₁.forms.lt_size hb.1, hb.2.mono hb₁.forms⟩
      refine ⟨s₂, ?_, hb₁.trans hb₂, (hd₁.trans hd₂).of_eq fun j => ?_⟩
      · exact (outcome_bind_ok (outcome_modifyIdent s _ _) _).trans h₂
      · rw [List.map_cons, count_cons_eq]

/-- Taking the bindings of slots off. -/
theorem outcome_takeArgs (hr : s.table.Ready r) (l : List Nat)
    (hd : ∀ j, l.count j ≤ s.table.depth j) :
    ∃ taken s', outcome (l.mapM takeArg) s = (.ok taken, s') ∧ Rebinds r s s' ∧
      s'.table.Adds (fun j => l.count j) s.table ∧ taken.map Prod.fst = l ∧
      ∀ p ∈ taken, p.1 < s'.table.size ∧ p.2.Ok r s'.table := by
  induction l generalizing s with
  | nil => exact ⟨[], s, rfl, .refl hr, .refl _, rfl, nofun⟩
  | cons i l ih =>
      have hpos : 0 < s.table.depth i := by
        have := hd i
        rw [List.count_cons_self] at this
        omega
      have hi : i < s.table.size := Table.lt_size_of_depth hpos
      obtain ⟨id, hid⟩ := Table.exists_get? hi
      obtain ⟨s₁, h₁, hb₁, hd₁⟩ := outcome_popArg hr hpos
      have htake : outcome (takeArg i) s = (.ok (i, id.value), s₁) := by
        rw [takeArg, outcome_bind_ok (outcome_identAt hid), outcome_bind_ok h₁]
        rfl
      have hle (j : Nat) : l.count j ≤ s₁.table.depth j := by
        have := hd j
        have := hd₁.depth j
        rw [count_cons_eq] at *
        omega
      obtain ⟨taken, s₂, h₂, hb₂, hd₂, hmap, htaken⟩ := ih hb₁.ready hle
      refine ⟨(i, id.value) :: taken, s₂, ?_, hb₁.trans hb₂, (hd₂.trans hd₁).of_eq fun j => ?_, ?_,
        fun p hp => ?_⟩
      · rw [List.mapM_cons, outcome_bind_ok htake, outcome_bind_ok h₂]
        rfl
      · rw [count_cons_eq, Nat.add_comm]
      · rw [List.map_cons, hmap]
      · rcases List.mem_cons.mp hp with rfl | hp
        · have hx := hb₁.forms.trans hb₂.forms
          exact ⟨hx.lt_size hi, (hr.idents i id hid).value.mono hx⟩
        · exact htaken p hp

/-- Binding a slot that the innermost scope has not bound. -/
theorem Inv.settles_bind (h : Inv r s) (hi : i < maxArgs) (hb : s.isBound i = false) {v : Value}
    (hv : v.Ok r s.table) : Settles r s
      ((s.modifyIdent i (·.pushValue v)).setUsed (s.used ||| SlotSet.single i)) := by
  obtain ⟨hpush, hadds⟩ := rebinds_push h.table (h.table.slot_lt hi) hv
  have hhas (j : Nat) : (s.used ||| SlotSet.single i).has j = (s.isBound j || decide (j = i)) := by
    rw [SlotSet.has_or, SlotSet.has_single (Nat.lt_trans hi (by decide))]
    rfl
  have hcount (j : Nat) : (if i = j then 1 else 0) =
      if (s.used ||| SlotSet.single i).has j && !s.isBound j then 1 else 0 := by
    rw [hhas]
    by_cases hj : i = j
    · subst hj
      simp [hb]
    · have hj' : ¬j = i := fun h => hj h.symm
      simp [hj, hj']
  refine .of_frame h (.of_setUsed hpush.scopes hpush.outermost (fun j hj => ?_) (fun j hj => ?_)
    (fun j => ?_) hpush.callArgs hpush.muted ⟨?_, fun _ j hj => ?_⟩
    (fun j hj => ?_) (.of_same rfl rfl fun j hj hp => ⟨(hpush.plain j).mpr hp, ?_⟩)) ?_ ?_
    fun n j f hn => .inl ?_
  · rw [hhas, hj, Bool.true_or]
  · rw [hhas, Bool.or_eq_true, decide_eq_true_eq] at hj
    exact hj.imp_right fun (hj : j = i) => hj ▸ hi
  · rw [hadds.depth, hcount]
  · rw [Interp.setUsed_eq]
    exact Nat.le_refl _
  · -- What a slot was bound to before is a binding of the callers now.
    rw [Interp.callerBindings, Interp.callerBindings, Interp.table_setUsed, hadds.bindings j,
      hcount, List.drop_drop, Interp.isBound, Interp.used_setUsed, hhas]
    cases s.isBound j <;> simp
  · rw [hadds.bindings, if_neg (by omega)]
    exact .refl _
  · rw [hadds.bindings j, if_neg (by omega)]
    rfl
  · rw [Interp.table_setUsed]
    exact hpush.ready
  · rw [Interp.table_setUsed]
    exact hpush.forms
  · rw [Interp.setUsed_eq] at hn
    exact hn

theorem Ident.Ok.alters_setValue {id : Ident} (h : id.Ok r s.table) {v : Value}
    (hv : v.Ok r s.table) (hi : i < maxArgs → s.isBound i = true) :
    id.Alters r s i (id.setValue v) where
  form := rfl
  ok := ⟨hv, h.saved, nofun, h.role, h.locked⟩
  saved := rfl
  value hslot hb := absurd ((hi hslot).symm.trans hb).symm Bool.false_ne_true
  plain _ h := h

/-- Writing an alias, which is put on record. -/
theorem Inv.settles_setAlias (h : Inv r s) (hi : s.table.form? r i = some .alias)
    (hnamed : maxArgs ≤ i) {v : Value} (hv : v.Ok r s.table) (flags : Flags) : Settles r s
      ((s.addWrite i flags).modifyIdent i fun id => { id.setValue v with flags }) := by
  have hslot : ¬i < maxArgs := Nat.not_lt.mpr hnamed
  refine h.settles_altered (fun id hid => ?_) ⟨Nat.le_succ _, fun _ _ _ => .inl, fun j hj hp hu => ?_⟩
    fun n j f hn => hn.imp_right fun ⟨_, hj, _⟩ => hj ▸ ⟨hi, hnamed⟩
  · have halias : id.role = .alias := by
      rw [Table.form?_of_get? hid, Option.some.injEq] at hi
      exact Role.eq_alias_of_form hi
    obtain ⟨hform, hok, hsaved, -, -⟩ := (h.table.idents i id hid).alters_setValue (i := i) hv
      fun h => absurd h hslot
    refine ⟨hform, ⟨hok.value, hok.saved, hok.body, hok.role, fun hshow => ?_⟩, hsaved,
      fun h => absurd h hslot, fun h => absurd h hslot⟩
    have hshow : id.role.showsCallArgs = true := hshow
    rw [halias] at hshow
    cases hshow
  · have hij : i ≠ j := by
      rintro rfl
      exact hu ⟨s.writes, flags, Nat.le_refl _, .inr ⟨rfl, rfl, rfl⟩⟩
    obtain ⟨id, hid, hplain⟩ := hp
    refine ⟨⟨id, ?_, hplain⟩, Table.bindings_modify_ne hij⟩
    rw [Table.get?_modify, if_neg hij]
    exact hid

namespace World

variable {w : World r} {v : Value}

theorem safe_bindTo (hi : w.live → i < maxArgs) (hb : w.state.isBound i = false)
    (hv : w.Good v) : w.Safe (do pushArg i v; markUsed i) fun _ _ => True := by
  refine ⟨?_, fun hl _ => ⟨(w.inv hl).settles_bind (hi hl) hb (hv hl), trivial⟩⟩
  have hgrow : Steady (do pushArg i v; markUsed i) := by
    refine (steady_modifyIdent i _).bind fun _ => .change (fun s => ?_) fun s => ?_
    · rw [Interp.setUsed_eq]
      exact .refl s
    · rw [Interp.setUsed_eq]
  exact hgrow w.state

theorem safe_setArg (hi : w.live → i < maxArgs) (hv : w.Good v) :
    w.Safe (setArg i v) fun _ _ => True := by
  refine .read (.ite (fun hb => ?_) fun hb => ?_)
  · refine (safe_modifyIdent fun hl id hid => ⟨?_, fun hnamed => ?_⟩).drop
    · exact ((w.inv hl).table.idents i id hid).alters_setValue (hv hl) fun _ => hb
    · exact absurd (hi hl) (Nat.not_lt.mpr hnamed)
  · exact safe_bindTo hi (Bool.eq_false_iff.mpr hb) hv

theorem safe_bindArg (hi : w.live → i < maxArgs) : w.Safe (bindArg i) fun _ _ => True := by
  refine .read (.ite (fun _ => .pure fun _ => trivial) fun hb => ?_)
  exact safe_bindTo hi (Bool.eq_false_iff.mpr hb) fun _ => trivial

theorem safe_setAlias (hi : w.live → w.state.table.form? r i = some .alias)
    (hnamed : w.live → maxArgs ≤ i) (hv : w.Good v) : w.Safe (setAlias i v) fun _ _ => True :=
  .read ⟨.ok (.refl _) rfl, fun hl _ => ⟨(w.inv hl).settles_setAlias (hi hl) (hnamed hl) (hv hl) _, trivial⟩⟩

end World

section Growth

variable {m : Engine α}

theorem steady_popArg (i : Nat) : Steady (popArg i) := by
  refine (steady_identAt i).bind fun id => ?_
  split
  · exact .stop _
  · exact steady_modifyIdent i _

theorem steady_popScope : Steady popScope := fun s => .ok (.refl s) rfl

theorem steady_pushScope (c : Scope) : Steady (pushScope c) := .change fun s => .refl s

theorem steady_leaveCall (argc : Nat) (callArgs : Int32) (writeFlags : Flags) :
    Steady (leaveCall argc callArgs writeFlags) := by
  refine steady_popScope.bind fun used => .bind (.change fun _ => .refl _) fun _ => ?_
  refine (Steady.each _ steady_popArg).bind fun _ => ?_
  exact (Steady.each _ steady_popArg).bind fun _ => .change fun _ => .refl _

private theorem steady_withArgs (hm : Steady m) (ident : Nat) (overridden : Bool)
    (args : List Value) :
    Steady (withArgs ident overridden args m) := by
  refine (Steady.each _ fun _ => steady_modifyIdent _ _).bind fun _ => ?_
  refine .read fun _ => .read fun _ => .bind (.change fun _ => .refl _) fun _ => ?_
  exact (steady_pushScope _).bind fun _ => hm.ensuring (steady_leaveCall _ _ _)

private theorem steady_takeArg (i : Nat) : Steady (takeArg i) :=
  (steady_identAt i).bind fun _ => (steady_popArg i).bind fun _ => .pure _

private theorem steady_takeArgs (l : List Nat) : Steady (l.mapM takeArg) := by
  induction l with
  | nil => exact .pure _
  | cons i l ih =>
      rw [List.mapM_cons]
      exact (steady_takeArg i).bind fun _ => ih.bind fun _ => .pure _

theorem steady_leaveOuter (caller : SlotSet) (taken : List (Nat × Value)) :
    Steady (leaveOuter caller taken) := by
  refine steady_popScope.bind fun used => (Steady.each _ steady_popArg).bind fun _ => ?_
  exact Steady.each _ fun _ => steady_modifyIdent _ _

private theorem steady_withOuterArgs (hm : Steady m) : Steady (withOuterArgs m) := by
  refine .bind (.change fun s => .refl s) fun _ => .read fun s => ?_
  split
  · exact hm
  · refine (steady_takeArgs _).bind fun taken => (steady_pushScope _).bind fun _ => ?_
    exact hm.ensuring (steady_leaveOuter _ _)

end Growth

/-- The end of a call restores a value of each slot that the call has bound. -/
theorem outcome_leaveCall (hr : s.table.Ready r) {argc : Nat}
    (hd : ∀ j, ((if j < argc then 1 else 0) +
      if j < maxArgs ∧ s.isBound j = true ∧ argc ≤ j then 1 else 0) ≤ s.table.depth j)
    (callArgs : Int32) (writeFlags : Flags) :
    ∃ t, outcome (leaveCall argc callArgs writeFlags) s = (.ok ⟨⟩,
        { s.restoreFlags writeFlags with table := t, scopes := s.scopes.tail, callArgs }) ∧
      t.Ready r ∧ s.table.Extends r t ∧ (∀ j, t.Plain j ↔ s.table.Plain j) ∧
      t.Adds (fun j => (if j < argc then 1 else 0) +
        if j < maxArgs ∧ s.isBound j = true ∧ argc ≤ j then 1 else 0) s.table := by
  have hargs (j : Nat) : (List.range argc).count j = if j < argc then 1 else 0 := List.count_range
  have hrest (j : Nat) : (s.used.toList.filter (argc ≤ ·)).count j =
      if j < maxArgs ∧ s.isBound j = true ∧ argc ≤ j then 1 else 0 := by
    rw [List.Nodup.count (List.Pairwise.filter _ (SlotSet.nodup_toList s.used))]
    simp only [List.mem_filter, SlotSet.mem_toList, decide_eq_true_eq, and_assoc, Interp.isBound]
    congr
  simp only [← hargs, ← hrest] at hd ⊢
  let s₁ : Interp := { s.restoreFlags writeFlags with scopes := s.scopes.tail }
  obtain ⟨s₂, h₂, hb₂, hd₂⟩ := outcome_popArgs (s := s₁) hr (List.range argc)
    fun j => Nat.le_trans (Nat.le_add_right _ _) (hd j)
  obtain ⟨s₃, h₃, hb₃, hd₃⟩ := outcome_popArgs hb₂.ready (s.used.toList.filter (argc ≤ ·))
    fun j => by
      have hle := hd j
      have hdepth : s.table.depth j = _ := hd₂.depth j
      omega
  refine ⟨s₃.table, ?_, hb₃.ready, hb₂.forms.trans hb₃.forms, (hb₂.trans hb₃).plain, hd₃.trans hd₂⟩
  have hleave : outcome (leaveCall argc callArgs writeFlags) s =
      outcome (do (List.range argc).forM popArg
                  (s.used.toList.filter (argc ≤ ·)).forM popArg
                  modify fun s => { s with callArgs }) s₁ := rfl
  rw [hleave, outcome_bind_ok h₂, outcome_bind_ok h₃, outcome_modify, hb₃.same, hb₂.same]

/-- Taking the arguments of the caller out of effect restores a value of each slot that was bound
meanwhile, and saves one for each binding that is put back. -/
theorem outcome_leaveOuter (hr : s.table.Ready r) {caller : SlotSet} {taken : List (Nat × Value)}
    (hd : ∀ j, (if j < maxArgs ∧ s.isBound j = true ∧ caller.has j = false then 1 else 0) ≤
      s.table.depth j)
    (htaken : ∀ p ∈ taken, p.1 < s.table.size ∧ p.2.Ok r s.table) :
    ∃ t, outcome (leaveOuter caller taken) s =
        (.ok ⟨⟩, { s with table := t, scopes := s.scopes.tail }) ∧
      t.Ready r ∧ s.table.Extends r t ∧ (∀ j, t.Plain j ↔ s.table.Plain j) ∧
      (∀ j, t.depth j + (if j < maxArgs ∧ s.isBound j = true ∧ caller.has j = false then 1 else 0) =
        s.table.depth j + (taken.map Prod.fst).count j) ∧
      ∀ j, maxArgs ≤ j → (taken.map Prod.fst).count j = 0 → t.bindings j = s.table.bindings j := by
  have hnew (j : Nat) : (SlotSet.toList (s.used &&& ~~~caller)).reverse.count j =
      if j < maxArgs ∧ s.isBound j = true ∧ caller.has j = false then 1 else 0 := by
    rw [List.count_reverse, List.Nodup.count (SlotSet.nodup_toList _)]
    simp only [SlotSet.mem_toList, SlotSet.has_diff, Bool.and_eq_true, Bool.not_eq_true',
      Interp.isBound]
    congr
  simp only [← hnew] at hd ⊢
  let s₁ : Interp := { s with scopes := s.scopes.tail }
  obtain ⟨s₂, h₂, hb₂, hd₂⟩ := outcome_popArgs (s := s₁) hr _ hd
  obtain ⟨s₃, h₃, hb₃, hd₃⟩ := outcome_pushArgs Prod.fst Prod.snd hb₂.ready taken fun p hp =>
    ⟨hb₂.forms.lt_size (htaken p hp).1, (htaken p hp).2.mono hb₂.forms⟩
  refine ⟨s₃.table, ?_, hb₃.ready, hb₂.forms.trans hb₃.forms, (hb₂.trans hb₃).plain, fun j => ?_,
    fun j hj htaken => ?_⟩
  · have hleave : outcome (leaveOuter caller taken) s =
        outcome (do (SlotSet.toList (s.used &&& ~~~caller)).reverse.forM popArg
                    taken.forM fun p => pushArg p.1 p.2) s₁ := rfl
    rw [hleave, outcome_bind_ok h₂, h₃, hb₃.same, hb₂.same]
  · have h2 : s.table.depth j = s₂.table.depth j + _ := hd₂.depth j
    have h3 := hd₃.depth j
    omega
  · have h2 : s₂.table.bindings j = s.table.bindings j := by
      rw [hd₂.bindings, hnew, if_neg fun h => absurd h.1 (Nat.not_lt.mpr hj)]
      rfl
    rw [← h2, hd₃.bindings, htaken]
    rfl

section Outer

variable {m : Engine α}

theorem outcome_withOuterArgs_none (h : scopeInEffect? 0 s.scopes = none) :
    outcome (withOuterArgs m) s = outcome m s.addOuterRun := by
  unfold withOuterArgs
  rw [outcome_bind_ok (outcome_modify s _), outcome_bind_ok (outcome_get _)]
  dsimp only [Interp.addOuterRun]
  rw [h]

/-- The computation begins with the caller's slots on top of the scopes. -/
theorem outcome_withOuterArgs_some {c : Scope} {rest : List Scope} {taken : List (Nat × Value)}
    (h : scopeInEffect? 0 s.scopes = some (c, rest))
    (ht : outcome (c.used.toList.mapM takeArg) s.addOuterRun = (.ok taken, s')) :
    outcome (withOuterArgs m) s =
      outcome (ensuring m (leaveOuter ({ s with scopes := rest } : Interp).used taken))
        { s' with scopes := ⟨c.ident, SlotSet.outerMark ||| ({ s with scopes := rest } : Interp).used⟩
            :: s'.scopes } := by
  unfold withOuterArgs
  rw [outcome_bind_ok (outcome_modify s _), outcome_bind_ok (outcome_get _)]
  have hscopes : scopeInEffect? 0 s.addOuterRun.scopes = some (c, rest) := h
  rw [hscopes]
  dsimp only
  rw [outcome_bind_ok ht]
  rfl

end Outer

/-- What a call leaves as it was: the scopes, the number of arguments, what is saved of aliases and, if
no code was run with the arguments of a caller, the bindings of all slots. -/
structure Restored (s s' : Interp) : Prop where
  scopes : s'.scopes = s.scopes
  outermost : s'.outermost = s.outermost
  callArgs : s'.callArgs = s.callArgs
  outerRuns : s.outerRuns ≤ s'.outerRuns
  bindings : s'.outerRuns = s.outerRuns →
    ∀ i < maxArgs, s'.table.bindings i = s.table.bindings i
  aliases : ∀ i, maxArgs ≤ i → Uncovers 0 (s.table.bindings i) (s'.table.bindings i)
  heeds : Heeds (fun _ => 0) s s'

theorem Restored.spares (h : Restored s s') : Spares s s' :=
  ⟨h.outerRuns, fun hr i hi => Interp.callerBindings_drop (n := 0)
    (Interp.isBound_congr h.scopes h.outermost i) (h.bindings hr i hi)⟩

/-- The interpreter inside a call with some arguments. -/
structure Entered (r : Rigour) (argc : Nat) (s s₁ : Interp) : Prop where
  inv : Inv r s₁
  forms : s.table.Extends r s₁.table
  adds : s.table.Adds (fun j => if j < argc then 1 else 0) s₁.table
  scopes : ∃ ident, s₁.scopes = ⟨ident, SlotSet.below argc⟩ :: s.scopes
  grows : Grows s s₁
  outermost : s₁.outermost = s.outermost
  muted : s₁.muted = s.muted
  outerRuns : s₁.outerRuns = s.outerRuns
  writes : s₁.writes = s.writes
  written : s₁.written = s.written
  plain : ∀ i, s₁.table.Plain i ↔ s.table.Plain i

/-- Entering a call binds its arguments in a scope of its own. -/
theorem outcome_withArgs (h : Inv r s) {args : List Value} (hargs : ∀ v ∈ args, v.Ok r s.table)
    (hn : args.length ≤ maxArgs) (ident : Nat) (overridden : Bool) (m : Engine α) :
    ∃ s₁, outcome (withArgs ident overridden args m) s =
        outcome (ensuring m (leaveCall args.length s.callArgs s.writeFlags)) s₁ ∧
      Entered r args.length s s₁ := by
  obtain ⟨s₁, h₁, hb₁, hd₁⟩ := outcome_pushArgs Prod.snd Prod.fst h.table args.zipIdx
    fun p hp => ⟨h.table.slot_lt (Nat.lt_of_lt_of_le (List.snd_lt_of_mem_zipIdx hp) (by omega)),
      hargs p.1 (List.fst_mem_of_mem_zipIdx hp)⟩
  have hadds : s.table.Adds (fun j => if j < args.length then 1 else 0) s₁.table :=
    hd₁.of_eq fun j => by
      rw [List.zipIdx_map_snd, ← List.range_eq_range', List.count_range]
  let flags := { s₁.writeFlags with overridden := s₁.writeFlags.overridden || overridden }
  refine ⟨{ s₁ with
    callArgs := Int32.ofNat args.length
    writeFlags := flags
    scopes := ⟨ident, SlotSet.below args.length⟩ :: s₁.scopes }, ?_, ⟨hb₁.ready, fun j hj => ?_, ?_⟩,
    hb₁.forms, hadds, ⟨ident, ?_⟩, hb₁.grows, hb₁.outermost, hb₁.muted, hb₁.outerRuns,
    hb₁.writes, hb₁.written, hb₁.plain⟩
  · have hflags : s₁.writeFlags = s.writeFlags := by rw [hb₁.same]
    rw [withArgs, outcome_bind_ok h₁, ← hb₁.callArgs, ← hflags]
    rfl
  · have hbelow (j : Nat) : (SlotSet.below args.length).has j = decide (j < args.length) :=
      SlotSet.has_below (Nat.lt_of_le_of_lt hn (by decide)) j
    have hunmarked : ¬(SlotSet.below args.length).has maxArgs = true := by
      rw [hbelow, decide_eq_true_eq]
      omega
    have hback := h.backed j hj
    rw [← hb₁.scopes] at hback
    have hd := hadds.depth j
    change pending 0 (⟨ident, SlotSet.below args.length⟩ :: s₁.scopes) j ≤ s₁.table.depth j
    rw [pending_zero (c := ⟨ident, SlotSet.below args.length⟩) j hunmarked, hbelow, hd]
    simp only [decide_eq_true_eq]
    omega
  · exact hb₁.outermost.trans h.outermost
  · rw [hb₁.scopes]

/-- Leaving a call restores everything, wherever the code inside ended. Of the slots bound inside,
the arguments count for the call, the others as bound meanwhile. -/
theorem Entered.leave {argc : Nat} {s₁ s₂ : Interp} (h : Entered r argc s s₁) (hn : argc ≤ maxArgs)
    (hk : Settles r s₁ s₂) (writeFlags : Flags) :
    ∃ s₃, outcome (leaveCall argc s.callArgs writeFlags) s₂ = (.ok ⟨⟩, s₃) ∧
      s₂.table.Extends r s₃.table ∧ s₃.table.Ready r ∧ (∀ j, s₃.table.depth j = s.table.depth j) ∧
      Restored s s₃ ∧ s₃.muted = s.muted ∧ s₃.written = s₂.written := by
  obtain ⟨ident, hscopes⟩ := h.scopes
  have hbelow (j : Nat) : s₁.isBound j = decide (j < argc) := by
    rw [Interp.isBound, Interp.used, hscopes]
    exact SlotSet.has_below (Nat.lt_of_le_of_lt hn (by decide)) j
  -- What is taken back of a slot is what the scope inside has bound.
  have hcount (j : Nat) : ((if j < argc then 1 else 0) +
      if j < maxArgs ∧ s₂.isBound j = true ∧ argc ≤ j then 1 else 0) =
      if s₂.isBound j then 1 else 0 := by
    have hkeep := hk.keeps j
    have hslot := hk.slots j
    rw [hbelow, decide_eq_true_eq] at hkeep hslot
    by_cases hj : j < argc
    · simp [hj, Nat.not_le.mpr hj, hkeep hj]
    · cases hb : s₂.isBound j with
      | false => simp [hj]
      | true => simp [hj, Nat.le_of_not_lt hj, (hslot hb).resolve_left hj]
  have hdepth (j : Nat) : s₂.table.depth j = s.table.depth j + if s₂.isBound j then 1 else 0 := by
    have hd : s₂.table.depth j = s₁.table.depth j + _ := hk.depth j
    have hkeep := hk.keeps j
    rw [hbelow] at hkeep
    rw [hd, h.adds.depth, hbelow, Nat.add_assoc]
    by_cases hj : j < argc
    · simp [hj, hkeep]
    · simp [hj]
  obtain ⟨t, hleave, hready, hforms, hplain, hadds⟩ := outcome_leaveCall hk.inv.table
    (fun j => by rw [hcount, hdepth]; omega) s.callArgs writeFlags
  have hback := hadds.of_eq hcount
  have hcaller (j : Nat) : s₁.callerBindings j = s.table.bindings j := by
    rw [Interp.callerBindings, hbelow, h.adds.bindings]
    by_cases hj : j < argc <;> simp [hj]
  -- Of an alias by name, nothing is saved for the call.
  have hnamed (j : Nat) (hj : maxArgs ≤ j) : s.table.bindings j = s₁.table.bindings j ∧
      t.bindings j = s₂.table.bindings j := by
    have hslot : s₂.isBound j = false := by
      refine Bool.eq_false_iff.mpr fun hb => ?_
      have := hbelow j ▸ hk.slots j hb
      rw [decide_eq_true_eq] at this
      omega
    constructor
    · rw [h.adds.bindings, if_neg (by omega)]
      rfl
    · rw [hback.bindings j, hslot]
      rfl
  refine ⟨_, hleave, hforms, hready, fun j => ?_, ⟨?_, hk.outermost.trans ?_, rfl, ?_,
    fun hr j hj => ?_, fun j hj => ?_, ?_⟩, hk.muted.trans h.muted, rfl⟩
  · have hd := hback.depth j
    have hd' := hdepth j
    dsimp only
    omega
  · dsimp only
    rw [hk.scopes, Interp.setUsed, hscopes]
    rfl
  · rw [Interp.setUsed, hscopes]
    exact h.outermost
  · exact h.outerRuns ▸ hk.spares.outerRuns
  · change t.bindings j = _
    rw [hback.bindings j, ← hcaller]
    exact hk.spares.callers (hr.trans h.outerRuns.symm) j hj
  · obtain ⟨hbefore, hafter⟩ := hnamed j hj
    change Uncovers 0 _ (t.bindings j)
    rw [hbefore, hafter]
    exact hk.aliases j hj
  · exact hk.heeds.around h.writes h.written rfl rfl (fun j => (h.plain j).mpr)
      (fun j => (hplain j).mpr) (fun _ => 0) (fun j hj => (hnamed j hj).1) fun j hj => (hnamed j hj).2

namespace World

variable {w : World r} {m : Engine α} {Q : Interp → α → Prop}

/-- A call gives the caller its bindings back. -/
theorem safe_withArgs {args : List Value} (hargs : w.AllGood args)
    (hn : w.live → args.length ≤ maxArgs) (hm : ∀ w' : World r, w.Knows w' → w'.Safe m Q)
    (hQ : ∀ s s' a, s.table.Extends r s'.table → Q s a → Q s' a) (ident : Nat)
    (overridden : Bool) : w.Safe (withArgs ident overridden args m) Q := by
  refine ⟨steady_withArgs (Safe.steady hm) ident overridden args w.state, fun hl hw => ?_⟩
  have hinv := w.inv hl
  obtain ⟨s₂, henter, hentered⟩ := outcome_withArgs hinv (hargs hl) (hn hl) ident overridden m
  rw [henter] at hw ⊢
  refine bracket (fun _ => hentered.inv) (hm _ fun _ => ⟨hl, hentered.forms⟩)
    (steady_leaveCall _ _ _) (fun _ s₃ hk => ?_) hQ hl hw
  obtain ⟨s₄, hleave, hforms, hready, hdepth, hrestored, hmuted, hwritten⟩ :=
    hentered.leave (hn hl) hk w.state.writeFlags
  refine ⟨s₄, hleave, .of_frame hinv (.of_same hrestored.scopes hrestored.outermost hdepth
    hrestored.callArgs hmuted hrestored.spares hrestored.aliases hrestored.heeds) hready
    ((hentered.forms.trans hk.forms).trans hforms) fun n i f hn => ?_, hforms⟩
  rw [hwritten] at hn
  exact (hk.targets n i f hn).imp (hentered.written ▸ ·) (·.mono hforms)

/-- Code that is run with the arguments of the caller leaves the bindings as they were. -/
theorem safe_withOuterArgs (hm : ∀ w' : World r, w.Knows w' → w'.Safe m Q)
    (hQ : ∀ s s' a, s.table.Extends r s'.table → Q s a → Q s' a) :
    w.Safe (withOuterArgs m) Q := by
  refine ⟨steady_withOuterArgs (Safe.steady hm) w.state, fun hl hw => ?_⟩
  have hinv := w.inv hl
  have hcounted : Inv r w.state.addOuterRun := ⟨hinv.table, hinv.backed, hinv.outermost⟩
  cases hc : scopeInEffect? 0 w.state.scopes with
  | none =>
      rw [outcome_withOuterArgs_none hc] at hw ⊢
      obtain ⟨hk, he⟩ := (hm ⟨w.state.addOuterRun, w.live, fun _ => hcounted⟩ fun h =>
        ⟨h, .refl r _⟩).2 hl hw
      have hstart : Settles r w.state w.state.addOuterRun := by
        refine .of_frame hinv ?_ hinv.table (.refl r _) fun _ _ _ => .inl
        exact .of_same rfl rfl (fun _ => rfl) rfl rfl (.of_lt (Nat.lt_succ_self _))
          (fun _ _ => .refl _) (.of_same rfl rfl fun _ _ hp => ⟨hp, rfl⟩)
      exact ⟨hstart.trans hk, he⟩
  | some p =>
      obtain ⟨c, rest⟩ := p
      have hpend := pending_of_scopeInEffect (h := hc)
      have hcount (j : Nat) : c.used.toList.count j =
          if j < maxArgs ∧ c.used.has j = true then 1 else 0 := by
        rw [List.Nodup.count (SlotSet.nodup_toList _)]
        simp only [SlotSet.mem_toList]
      obtain ⟨taken, s₁, h₁, hb₁, hadds₁, hmap, htaken⟩ :=
        outcome_takeArgs hcounted.table c.used.toList fun j => by
          rw [hcount]
          have := hcounted.backed j
          have hp : pending 0 w.state.addOuterRun.scopes j = _ := (hpend j).1
          split <;> simp_all
          omega
      have hd₁ (j : Nat) : s₁.table.depth j + c.used.toList.count j = w.state.table.depth j :=
        (hadds₁.depth j).symm
      rw [outcome_withOuterArgs_some hc h₁] at hw ⊢
      generalize hcaller : ({ w.state with scopes := rest } : Interp).used = caller at *
      have hmark (j : Nat) : (SlotSet.outerMark ||| caller).has j =
          (decide (j = maxArgs) || caller.has j) := by
        rw [SlotSet.has_or, SlotSet.has_outerMark]
      let s₂ : Interp :=
        { s₁ with scopes := ⟨c.ident, SlotSet.outerMark ||| caller⟩ :: s₁.scopes }
      have hinside : Inv r s₂ := by
        refine ⟨hb₁.ready, fun j hj => ?_, hb₁.outermost.trans hinv.outermost⟩
        have hmarked : (SlotSet.outerMark ||| caller).has maxArgs = true := by simp [hmark]
        have hback := hinv.backed j hj
        have hd := hd₁ j
        rw [hcount] at hd
        change pending 0 (⟨c.ident, SlotSet.outerMark ||| caller⟩ :: s₁.scopes) j ≤ s₁.table.depth j
        have hscopes : s₁.scopes = w.state.scopes := hb₁.scopes
        rw [pending_marked (c := ⟨c.ident, SlotSet.outerMark ||| caller⟩) j hmarked, hscopes, (hpend j).2]
        rw [(hpend j).1] at hback
        simp only [hj, true_and] at hd
        omega
      refine bracket (fun _ => hinside) (hm _ fun _ => ⟨hl, hb₁.forms⟩)
        (steady_leaveOuter _ _) (fun _ s₃ hk => ?_) hQ hl hw
      -- The slots bound meanwhile are those that the caller has not bound.
      have hdepth (j : Nat) : s₃.table.depth j = s₁.table.depth j +
          if j < maxArgs ∧ s₃.isBound j = true ∧ caller.has j = false then 1 else 0 := by
        have h₂ : s₃.table.depth j = s₁.table.depth j +
          if s₃.isBound j && !(SlotSet.outerMark ||| caller).has j then 1 else 0 := hk.depth j
        have hslot : s₃.isBound j = true →
            (SlotSet.outerMark ||| caller).has j = true ∨ j < maxArgs := hk.slots j
        rw [h₂]
        rw [hmark] at hslot ⊢
        by_cases hj : j < maxArgs
        · cases s₃.isBound j <;> cases caller.has j <;> simp [hj, Nat.ne_of_lt hj]
        · cases hb : s₃.isBound j with
          | false => simp
          | true => simp only [(hslot hb).resolve_right hj, hj, false_and, Bool.not_true,
              Bool.and_false, Bool.false_eq_true, if_false]
      obtain ⟨t, hleave, hready, hforms, hplain, hd, hkept⟩ := outcome_leaveOuter hk.inv.table
        (fun j => Nat.le.intro ((Nat.add_comm _ _).trans (hdepth j).symm))
        fun p hp => ⟨hk.forms.lt_size (htaken p hp).1, (htaken p hp).2.mono hk.forms⟩
      -- Of an alias by name, no binding is taken off.
      have hnamed (j : Nat) (hj : maxArgs ≤ j) : w.state.table.bindings j = s₁.table.bindings j ∧
          t.bindings j = s₃.table.bindings j := by
        have hnone : c.used.toList.count j = 0 := by
          rw [hcount, if_neg fun h => absurd h.1 (Nat.not_lt.mpr hj)]
        refine ⟨?_, hkept j hj (hmap ▸ hnone)⟩
        rw [hadds₁.bindings, hnone]
        rfl
      refine ⟨_, hleave, .of_frame hinv (.of_same ?_ ?_ (fun j => ?_) ?_ ?_ (.of_lt ?_)
        (fun j hj => ?_) ?_) hready ((hb₁.forms.trans hk.forms).trans hforms) (fun n j f hn => ?_),
        hforms⟩
      · rw [hk.scopes]
        exact hb₁.scopes
      · exact hk.outermost.trans hb₁.outermost
      · have h₃ := hd j
        have h₂ := hdepth j
        have h₁ := hd₁ j
        rw [hmap] at h₃
        dsimp only
        omega
      · exact hk.callArgs.trans hb₁.callArgs
      · exact hk.muted.trans hb₁.muted
      · have hruns : s₁.outerRuns = w.state.outerRuns + 1 := hb₁.outerRuns
        have hle : s₁.outerRuns ≤ s₃.outerRuns := hk.spares.outerRuns
        exact Nat.lt_of_lt_of_le (by omega) hle
      · obtain ⟨hbefore, hafter⟩ := hnamed j hj
        dsimp only
        rw [hbefore, hafter]
        exact hk.aliases j hj
      · exact hk.heeds.around hb₁.writes hb₁.written rfl rfl (fun j => (hb₁.plain j).mpr)
          (fun j => (hplain j).mpr) (fun _ => 0) (fun j hj => (hnamed j hj).1)
          fun j hj => (hnamed j hj).2
      · have hbefore : s₁.written = w.state.written := hb₁.written
        exact (hk.targets n j f hn).imp (hbefore ▸ ·) (·.mono hforms)

end World

/-- An interpreter in which an identifier has another value for a while. When it is taken back, all
bindings are as they were. -/
structure Covers (r : Rigour) (i : Nat) (s s₁ : Interp) : Prop where
  inv : Inv r s₁
  forms : s.table.Extends r s₁.table
  saved : 0 < s₁.table.depth i
  targets : ∀ n j f, s₁.written n j f → s.written n j f ∨ s₁.table.IsNamed r j
  /-- Of an alias, all of its former bindings are saved. -/
  beneath : maxArgs ≤ i → (s₁.table.bindings i).drop 1 = s.table.bindings i
  back : ∀ s', outcome (popArg i) s₁ = (.ok ⟨⟩, s') → Settles r s s'

theorem Table.modify_modify (t : Table) (i : Nat) (f g : Ident → Ident) :
    (t.modify i f).modify i g = t.modify i fun id => g (f id) := by
  have hget (j : Nat) : ((t.modify i f).modify i g).get? j =
      (t.modify i fun id => g (f id)).get? j := by
    rw [get?_modify, get?_modify, get?_modify]
    split
    · rw [Option.map_map]
      rfl
    · rfl
  exact congrArg Table.mk (Array.ext_getElem? hget)

/-- The value on top makes no difference to taking it back. -/
theorem outcome_popArg_setValue (s : Interp) (i : Nat) (v : Value) :
    outcome (popArg i) (s.modifyIdent i (·.setValue v)) =
      match outcome (popArg i) s with
      | (.ok _, s') => (.ok ⟨⟩, s')
      | (.error e, _) => (.error e, s.modifyIdent i (·.setValue v)) := by
  unfold popArg
  have hget : (s.modifyIdent i (·.setValue v)).table.get? i =
      (s.table.get? i).map (·.setValue v) := by
    rw [Interp.modifyIdent, Table.get?_modify, if_pos rfl]
  cases hid : s.table.get? i with
  | none =>
      rw [hid] at hget
      rw [outcome_bind_error (outcome_identAt_none hget), outcome_bind_error (outcome_identAt_none hid)]
  | some id =>
      rw [hid] at hget
      rw [outcome_bind_ok (outcome_identAt hget), outcome_bind_ok (outcome_identAt hid)]
      have hsaved : (id.setValue v).saved = id.saved := rfl
      rw [hsaved]
      cases id.saved with
      | nil => rfl
      | cons u rest =>
          simp only [outcome_modifyIdent, Interp.modifyIdent, Table.modify_modify]
          rfl

namespace Covers

variable {s₁ s₂ : Interp} {v : Value}

theorem push (h : Inv r s) (hi : i < s.table.size) (hv : v.Ok r s.table) :
    Covers r i s ((s.modifyIdent i (·.pushValue v)).modifyIdent i clearUnknown) := by
  obtain ⟨hb₁, hd₁⟩ := rebinds_push h.table hi hv
  obtain ⟨hb₂, hd₂⟩ := rebinds_clearUnknown hb₁.ready i
  have hb := hb₁.trans hb₂
  have hadds : s.table.Adds (fun j => if i = j then 1 else 0)
      ((s.modifyIdent i (·.pushValue v)).modifyIdent i clearUnknown).table :=
    (hd₁.trans hd₂).of_eq fun _ => Nat.zero_add _
  generalize (s.modifyIdent i (·.pushValue v)).modifyIdent i clearUnknown = s₁ at *
  have hpos : 0 < s₁.table.depth i := by
    rw [hadds.depth, if_pos rfl]
    omega
  refine ⟨⟨hb₂.ready, fun j hj => ?_, hb.outermost.trans h.outermost⟩, hb.forms, hpos,
    fun _ _ _ hn => .inl (hb.written ▸ hn), fun _ => ?_, fun s' hs' => ?_⟩
  · have := h.backed j hj
    rw [hb.scopes, hadds.depth]
    omega
  · rw [hadds.bindings, if_pos rfl]
  · obtain ⟨s₂, hpop, hb', hadds'⟩ := outcome_popArg hb₂.ready hpos
    cases hpop.symm.trans hs'
    have hback := hb.trans hb'
    have hsame (j : Nat) : s'.table.bindings j = s.table.bindings j := by
      rw [hadds.bindings, hadds'.bindings]
    refine .of_frame h (.of_same hback.scopes hback.outermost (fun j => ?_) hback.callArgs
      hback.muted (.of_same hback.scopes hback.outermost hback.outerRuns
        fun j _ => hsame j) (fun j _ => hsame j ▸ .refl _) (.of_same hback.writes hback.written
        fun j _ hp => ⟨(hback.plain j).mpr hp, hsame j⟩)) hb'.ready hback.forms
      fun _ _ _ hn => .inl (hback.written ▸ hn)
    have := hadds.depth j
    have := hadds'.depth j
    omega

/-- What happens meanwhile does not matter. -/
theorem later (h : Covers r i s s₁) (hk : Settles r s₁ s₂) : Covers r i s s₂ := by
  have hpos : 0 < s₂.table.depth i := by
    have hd : s₂.table.depth i = s₁.table.depth i + _ := hk.depth i
    have := h.saved
    omega
  have htargets (n : Nat) (j : Nat) (f : Flags) (hn : s₂.written n j f) :
      s.written n j f ∨ s₂.table.IsNamed r j :=
    (hk.targets n j f hn).elim
      (fun hn => (h.targets n j f hn).imp_right (·.mono hk.forms)) .inr
  refine ⟨hk.inv, h.forms.trans hk.forms, hpos, htargets,
    fun hi => (hk.aliases i hi).saved.trans (h.beneath hi), fun s₄ hs₄ => ?_⟩
  obtain ⟨s₃, h₃, hb₃, hadds₃⟩ := outcome_popArg h.inv.table h.saved
  obtain ⟨s', h₄, hb₄, hadds₄⟩ := outcome_popArg hk.inv.table hpos
  cases h₄.symm.trans hs₄
  have hsettles := h.back s₃ h₃
  have haround : Framed.Settled s₃ s₄ := by
    refine hk.toFramed.around hb₃.scopes.symm hb₃.outermost.symm hb₄.scopes hb₄.outermost
      (fun j => ?_) ?_ ?_ (hk.spares.around hb₃.scopes.symm hb₃.outermost.symm
        hb₃.outerRuns.symm hb₄.scopes hb₄.outermost hb₄.outerRuns _ (fun j _ => hadds₃.bindings j)
        fun j _ => hadds₄.bindings j) (hk.heeds.around hb₃.writes.symm hb₃.written.symm hb₄.writes
        hb₄.written (fun j => (hb₃.plain j).mp) (fun j => (hb₄.plain j).mpr) _
        (fun j _ => hadds₃.bindings j) fun j _ => hadds₄.bindings j) _ hadds₃.bindings hadds₄.bindings
    · have := hadds₃.depth j
      have := hadds₄.depth j
      omega
    · rw [hb₄.callArgs, hk.callArgs, hb₃.callArgs]
    · rw [hb₄.muted, hk.muted, hb₃.muted]
  exact ⟨hsettles.toFramed.trans haround,
    ⟨hb₄.ready, haround.backed hsettles.inv.backed, haround.outermost_all hsettles.inv.outermost⟩,
    (h.forms.trans hk.forms).trans hb₄.forms, fun n j f hn =>
      (htargets n j f (hb₄.written ▸ hn)).imp_right (·.mono hb₄.forms)⟩

theorem setValue (h : Covers r i s s₁) (hv : v.Ok r s₁.table) :
    Covers r i s (s₁.modifyIdent i (·.setValue v)) := by
  have hok (id : Ident) (hid : s₁.table.get? i = some id) : (id.setValue v).Ok r s₁.table :=
    have hid := h.inv.table.idents i id hid
    ⟨hv, hid.saved, nofun, hid.role, hid.locked⟩
  have hdepth (j : Nat) : (s₁.modifyIdent i (·.setValue v)).table.depth j = s₁.table.depth j := by
    rw [Interp.modifyIdent, Table.depth_modify]
    split
    · rfl
    · rfl
  refine ⟨⟨h.inv.table.modify fun id hid => ⟨rfl, hok id hid, fun _ h => h⟩, fun j hj => ?_,
    h.inv.outermost⟩, h.forms.trans (Table.extends_modify i _ fun _ _ => rfl), ?_,
    fun n j f hn => (h.targets n j f hn).imp_right fun hnamed => ?_, fun hi => ?_, fun s' hs' => ?_⟩
  · rw [hdepth]
    exact h.inv.backed j hj
  · rw [hdepth]
    exact h.saved
  · exact hnamed.mono (Table.extends_modify i (·.setValue v) fun _ _ => rfl)
  · obtain ⟨id, hid⟩ := Table.exists_get? (Table.lt_size_of_depth h.saved)
    rw [← h.beneath hi, Interp.modifyIdent, Table.bindings_modify_self hid,
      Table.bindings_of_get? hid]
    rfl
  · rw [outcome_popArg_setValue] at hs'
    obtain ⟨s₂, hpop, -, -⟩ := outcome_popArg h.inv.table h.saved
    rw [hpop] at hs'
    cases hs'
    exact h.back s' hpop

end Covers

namespace World

variable {w : World r} {m : Engine α} {Q : Interp → α → Prop}

/-- A computation for which an identifier has another value. -/
theorem safe_covered {v : Value} (hi : w.live → i < w.state.table.size) (hv : w.Good v)
    (hg : Steady m) (hm : w.live → ∀ s₁, Covers r i w.state s₁ → Within r (outcome m s₁).2 →
      Covers r i w.state (outcome m s₁).2 ∧ Ends r Q (outcome m s₁))
    (hQ : ∀ s s' a, s.table.Extends r s'.table → Q s a → Q s' a) :
    w.Safe (do pushArg i v; modifyIdent i clearUnknown; ensuring m (popArg i)) Q := by
  have hgrow : Steady (do pushArg i v; modifyIdent i clearUnknown; ensuring m (popArg i)) :=
    (steady_modifyIdent i _).bind fun _ => (steady_modifyIdent i _).bind fun _ =>
      hg.ensuring (steady_popArg i)
  refine ⟨hgrow w.state, fun hl hw => ?_⟩
  have hcovers := Covers.push (w.inv hl) (hi hl) (hv hl)
  have hbefore : outcome (do pushArg i v; modifyIdent i clearUnknown; ensuring m (popArg i)) w.state =
      outcome (ensuring m (popArg i))
        ((w.state.modifyIdent i (·.pushValue v)).modifyIdent i clearUnknown) := rfl
  rw [hbefore] at hw ⊢
  generalize (w.state.modifyIdent i (·.pushValue v)).modifyIdent i clearUnknown = s₁ at *
  rw [outcome_ensuring] at hw ⊢
  have hwithin : Within r (outcome m s₁).2 := by
    refine Within.of_grows ?_ (steady_popArg i (outcome m s₁).2).grows
    generalize outcome (popArg i) (outcome m s₁).2 = p at hw
    obtain ⟨e | _, s'⟩ := p <;> exact hw
  obtain ⟨hcovers', he⟩ := hm hl s₁ hcovers hwithin
  obtain ⟨s₃, hpop, hb, -⟩ := outcome_popArg hcovers'.inv.table hcovers'.saved
  rw [hpop]
  refine ⟨hcovers'.back s₃ hpop, ?_⟩
  generalize outcome m s₁ = p at he hb
  obtain ⟨e | a, s₂⟩ := p
  · exact he
  · exact hQ s₂ s₃ a hb.forms he

theorem safe_shadowing {v : Value} (hi : w.live → i < w.state.table.size) (hv : w.Good v)
    (hm : ∀ w' : World r, w.Knows w' → w'.Safe m Q)
    (hQ : ∀ s s' a, s.table.Extends r s'.table → Q s a → Q s' a) :
    w.Safe (do pushArg i v; modifyIdent i clearUnknown; ensuring m (popArg i)) Q := by
  refine safe_covered hi hv (Safe.steady hm) (fun hl s₁ hc hw => ?_) hQ
  obtain ⟨hk, he⟩ := (hm ⟨s₁, True, fun _ => hc.inv⟩ fun _ => ⟨hl, hc.forms⟩).2 trivial hw
  exact ⟨hc.later hk, he⟩

end World

end ConsoleScript
