import ConsoleScript.Proofs.Writes.Protection

/-!
All parts of the engine protect variables. Most of them do not touch any: they bind identifiers to other
values, add names, or report something. Those that write a variable change it and nothing else, and so
it is enough to look at the one variable before and after each of their steps.
-/

namespace ConsoleScript

open Bytecode Engine

section Changes

variable {s s' s'' : Interp} {i : Nat} {id id' id'' : Ident}

/-- An identifier that is no variable, or stays as it is but for its bindings. -/
structure Ident.Undisturbed (id id' : Ident) : Prop where
  like : id.Like id'
  flags : id.flags.Descend id'.flags
  kept : id.role.isKept = true → id'.role = id.role ∧ id'.before = id.before ∧
    id'.flags.overridden = id.flags.overridden

/-- One identifier changes and nothing else, but for the number that it shows and whether new aliases
persist. -/
structure Interp.Varies (i : Nat) (id id' : Ident) (s s' : Interp) : Prop where
  found : s.table.get? i = some id
  table : ∀ j, s'.table.get? j = if i = j then some id' else s.table.get? j
  like : id.Like id'
  flags : id.flags.Descend id'.flags
  cells : ∀ c, c ≠ .callArgs → id.role.cell? ≠ some c → s'.cell c = s.cell c
  mode : { s'.writeFlags with persist := s.writeFlags.persist } = s.writeFlags
  writes : s'.writes = s.writes
  written : s'.written = s.written

namespace Ident

theorem Undisturbed.refl (id : Ident) : id.Undisturbed id :=
  ⟨.refl id, .refl _, fun _ => ⟨rfl, rfl, rfl⟩⟩

theorem Rebound.undisturbed (h : id.Rebound id') : id.Undisturbed id' := by
  refine ⟨h.like, ⟨?_, h.unknown⟩, fun _ => ⟨?_, ?_, ?_⟩⟩ <;> rw [h.same]

end Ident

namespace Interp

/-- Variables are protected if each of them is, and nothing is written as an alias. -/
theorem Protects.of_idents (hw : s'.writes = s.writes) (hr : s'.written = s.written)
    (hm : { s'.writeFlags with persist := s.writeFlags.persist } = s.writeFlags)
    (hids : ∀ i id, s.table.get? i = some id → ∃ id', s'.table.get? i = some id' ∧ id.Like id' ∧
      id.flags.Descend id'.flags ∧ (id.role.isKept = true → s.Tends s' id id'))
    (hnew : ∀ i id', s.table.get? i = none → s'.table.get? i = some id' →
      s'.table.IsFresh i id' ∧ Flags.Descend { unknown := true } id'.flags) : s.Protects s' := by
  refine ⟨⟨fun i id hid => ?_, fun i id' hnone hid' => (hnew i id' hnone hid').1⟩, hm,
    Nat.le_of_eq hw.symm, fun n i f hn => hr ▸ hn, fun n i f hn => .inl (hr ▸ hn),
    fun i id' hid' _ => ?_, fun _ i id hid hkept => ?_⟩
  · obtain ⟨id', hid', hlike, -⟩ := hids i id hid
    exact ⟨id', hid', hlike⟩
  · cases hid : s.table.get? i with
    | none => exact .added hid (hnew i id' hid hid').2
    | some id =>
        obtain ⟨id₂, hid₂, -, hflags, -⟩ := hids i id hid
        cases hid₂.symm.trans hid'
        exact .kept hid hflags fun _ _ hn => hr ▸ hn
  · obtain ⟨id', hid', -, -, ht⟩ := hids i id hid
    exact ⟨id', hid', ht hkept⟩

theorem Tends.undisturbed (h : id.Undisturbed id') (hkept : id.role.isKept = true)
    (hc : ∀ c, c ≠ .callArgs → s'.cell c = s.cell c) : s.Tends s' id id' := by
  obtain ⟨hrole, hbefore, hover⟩ := h.kept hkept
  refine .of_same (Role.isVar_of_isKept hkept) hrole hbefore hover h.flags fun c hcell => hc c ?_
  rintro rfl
  exact Role.cell?_of_isKept hkept hcell

theorem Protects.undisturbed (hw : s'.writes = s.writes) (hr : s'.written = s.written)
    (hm : { s'.writeFlags with persist := s.writeFlags.persist } = s.writeFlags)
    (hc : ∀ c, c ≠ .callArgs → s'.cell c = s.cell c)
    (hids : ∀ i id, s.table.get? i = some id →
      ∃ id', s'.table.get? i = some id' ∧ id.Undisturbed id')
    (hnew : ∀ i id', s.table.get? i = none → s'.table.get? i = some id' →
      s'.table.IsFresh i id' ∧ Flags.Descend { unknown := true } id'.flags) : s.Protects s' := by
  refine .of_idents hw hr hm (fun i id hid => ?_) hnew
  obtain ⟨id', hid', h⟩ := hids i id hid
  exact ⟨id', hid', h.like, h.flags, fun hkept => .undisturbed h hkept hc⟩

theorem Protects.of_table (ht : s'.table = s.table) (hw : s'.writes = s.writes)
    (hr : s'.written = s.written)
    (hm : { s'.writeFlags with persist := s.writeFlags.persist } = s.writeFlags)
    (hc : ∀ c, c ≠ .callArgs → s'.cell c = s.cell c) : s.Protects s' := by
  refine .undisturbed hw hr hm hc (fun i id hid => ⟨id, ht ▸ hid, .refl id⟩) fun i id' hnone hid' => ?_
  rw [ht, hnone] at hid'
  cases hid'

theorem Protects.rebound (h : s.Rebound s') : s.Protects s' := by
  refine .undisturbed ?_ ?_ ?_ (fun c hc => ?_) (fun i id hid => ?_) fun i id' hnone hid' => ?_
  · rw [h.same]
  · rw [h.same]
  · rw [h.same]
  · rw [h.same]
    cases c with
    | callArgs => exact absurd rfl hc
    | traceLimit | persistence => rfl
  · obtain ⟨id', hid', hr⟩ := h.table.idents i id hid
    exact ⟨id', hid', hr.undisturbed⟩
  · rw [h.table.get?_eq_none hnone] at hid'
    cases hid'

theorem Protects.keepBody (i : Nat) (b : Block) :
    s.Protects (s.modifyIdent i fun id => { id with body := some b }) := by
  refine .undisturbed rfl rfl rfl (fun c _ => by cases c <;> rfl) (fun j id hid => ?_)
    fun j id' hnone hid' => ?_
  · rw [modifyIdent, Table.get?_modify, hid]
    split
    · exact ⟨_, rfl, ⟨rfl, rfl⟩, .refl _, fun _ => ⟨rfl, rfl, rfl⟩⟩
    · exact ⟨id, rfl, .refl id⟩
  · rw [modifyIdent, Table.get?_modify, hnone] at hid'
    split at hid' <;> cases hid'

theorem Protects.push {name : Bytes} (unknown : Bool) (hn : s.table.find? name = none)
    (hx : Reading.isNumeral name = false) :
    s.Protects { s with table := s.table.push { name, role := .alias, flags := { unknown } } } := by
  have hlasts : s.table.Lasts (s.table.push { name, role := .alias, flags := { unknown } }) :=
    .push rfl hx hn
  refine .undisturbed rfl rfl rfl (fun _ _ => rfl) (fun i id hid => ⟨id, ?_, .refl id⟩)
    fun i id' hnone hid' => ⟨hlasts.added i id' hnone hid', ?_⟩
  · rw [Table.get?_push, if_neg (Nat.ne_of_lt (Table.lt_size_of_get? hid))]
    exact hid
  · rw [Table.get?_push, hnone] at hid'
    split at hid'
    · cases hid'
      exact ⟨rfl, fun _ => rfl⟩
    · cases hid'

/-- What a variable may do does not depend on what else changes with the interpreter. -/
theorem Tends.between {s₁ s₁' : Interp} (h : s₁.Tends s₁' id id') (ht : s₁.table = s.table)
    (hc : ∀ c, s₁.cell c = s.cell c) (hc' : ∀ c, s'.cell c = s₁'.cell c)
    (hm : s.writeFlags.overridden = true → s₁.writeFlags.overridden = true) :
    s.Tends s' id id' := by
  have hid := valueOf_of_cells hc id
  have hid' := valueOf_of_cells hc' id'
  refine ⟨h.flags, h.sound, fun hr => ?_, fun hr ho => ?_, fun hu hw hs v hv => ?_⟩
  · obtain ⟨hin, hbefore⟩ := h.inRange ⟨hid ▸ hr.value, hr.before⟩
    exact ⟨hid' ▸ hin, hbefore⟩
  · obtain ⟨hsame, ho'⟩ := h.locked hr ho
    exact ⟨hid'.trans (hsame.trans hid), ho'⟩
  · have hu₁ : s₁.Unwatched := fun i => ht ▸ hu i
    have hback := h.reverts hu₁ (hm hw) hs v
    unfold Reverts at *
    rw [hid']
    rw [hid] at hback
    exact hback hv

end Interp

instance : Guarantee.protecting.Indifferent where
  refl s := .of_table rfl rfl rfl rfl fun _ _ => rfl
  trans h h' := h.trans h'
  later hs h := hs.lasts h.lasts
  aside h := by
    rw [h.same]
    exact .of_table rfl rfl rfl rfl fun c _ => by cases c <;> rfl
  stamp s := .of_table rfl rfl rfl rfl fun c _ => by cases c <;> rfl
  push unknown hn hx := .push unknown hn hx
  withoutWhile h _ := h.elim
  rebound := .rebound
  entered _ h := h
  left {s s'} overridden _ h := by
    refine ⟨h.lasts, rfl, h.writes, h.written, fun n i f hn => ?_, fun i id' hid' hrole => ?_,
      fun hw i id hid hkept => ?_⟩
    · refine (h.recorded n i f hn).imp_right fun ⟨hle, hlt, hf⟩ => ⟨hle, hlt, ?_⟩
      exact (congrArg (fun g : Flags => { g with overridden := s.writeFlags.overridden }) hf :)
    · cases h.aliases i id' hid' hrole with
      | written hn hf hd => exact .written hn hf hd
      | kept hid hd hsame => exact .kept hid hd hsame
      | added hnone hd => exact .added hnone hd
    · obtain ⟨id', hid', ht⟩ := h.kept hw i id hid hkept
      refine ⟨id', hid', ht.between rfl (fun c => by cases c <;> rfl) (fun c => by cases c <;> rfl) ?_⟩
      intro hover
      change (s.writeFlags.overridden || overridden) = true
      rw [hover, Bool.true_or]

end Changes

section Stores

variable {s s' s'' : Interp} {i : Nat} {id id' id'' : Ident} {v : Value}

/-- A value is stored in a variable. -/
structure Interp.Stores (i : Nat) (id id' : Ident) (v : Value) (s s' : Interp) : Prop
    extends Interp.Varies i id id' s s' where
  rest : id' = { id with role := id'.role }
  value : s'.valueOf id' = v

namespace Interp

theorem Varies.get? (h : Varies i id id' s s') : s'.table.get? i = some id' := by
  rw [h.table, if_pos rfl]

theorem Varies.get?_eq_none (h : Varies i id id' s s') (hnone : s.table.get? j = none) :
    s'.table.get? j = none := by
  have hj : i ≠ j := by
    rintro rfl
    cases h.found.symm.trans hnone
  rw [h.table, if_neg hj, hnone]

theorem Varies.trans (h : Varies i id id' s s') (h' : Varies i id' id'' s' s'') :
    Varies i id id'' s s'' := by
  refine ⟨h.found, fun j => ?_, ⟨h'.like.1.trans h.like.1, h'.like.2.trans h.like.2⟩,
    h.flags.trans h'.flags, fun c hc hcell => ?_, ?_, h'.writes.trans h.writes,
    h'.written.trans h.written⟩
  · rw [h'.table, h.table]
    split <;> rfl
  · exact (h'.cells c hc (h.like.cell? ▸ hcell)).trans (h.cells c hc hcell)
  · have hm := h.mode
    rw [← h'.mode] at hm
    exact hm

theorem Varies.lasts (h : Varies i id id' s s') : s.table.Lasts s'.table := by
  refine ⟨fun j old hold => ?_, fun j id₂ hnone hid₂ => ?_⟩
  · rw [h.table]
    split
    next hj =>
      subst hj
      cases h.found.symm.trans hold
      exact ⟨id', rfl, h.like⟩
    · exact ⟨old, hold, .refl old⟩
  · rw [h.get?_eq_none hnone] at hid₂
    cases hid₂

theorem Varies.of_table (hid : s.table.get? i = some id) (ht : s'.table = s.table)
    (hc : ∀ c, c ≠ .callArgs → id.role.cell? ≠ some c → s'.cell c = s.cell c)
    (hm : { s'.writeFlags with persist := s.writeFlags.persist } = s.writeFlags)
    (hw : s'.writes = s.writes) (hr : s'.written = s.written) : Varies i id id s s' := by
  refine ⟨hid, fun j => ?_, .refl id, .refl _, hc, hm, hw, hr⟩
  rw [ht]
  split
  next hj => rw [← hj, hid]
  · rfl

theorem Varies.modify (hid : s.table.get? i = some id) {f : Ident → Ident} (hlike : id.Like (f id))
    (hflags : id.flags.Descend (f id).flags) : Varies i id (f id) s (s.modifyIdent i f) := by
  refine ⟨hid, fun j => ?_, hlike, hflags, fun _ _ _ => rfl, rfl, rfl, rfl⟩
  rw [modifyIdent, Table.get?_modify]
  split
  next hj =>
    rw [← hj, hid]
    rfl
  · rfl

/-- Variables that are apart from the one that changes stay as they are. -/
theorem Varies.protects (h : Varies i id id' s s') (hs : s.Apart)
    (ht : id.role.isKept = true → s.Tends s' id id') : s.Protects s' := by
  refine .of_idents h.writes h.written h.mode (fun j old hold => ?_) fun j id₂ hnone hid₂ => ?_
  · rw [h.table]
    split
    next hj =>
      subst hj
      cases h.found.symm.trans hold
      exact ⟨id', rfl, h.like, h.flags, ht⟩
    next hj =>
      refine ⟨old, hold, .refl old, .refl _, fun hkept => ?_⟩
      refine .of_same (Role.isVar_of_isKept hkept) rfl rfl rfl (.refl _) fun c hc => h.cells c ?_ ?_
      · rintro rfl
        exact Role.cell?_of_isKept hkept hc
      · exact fun hcell => hj (hs i j id old c h.found hold hcell hc)
  · rw [h.get?_eq_none hnone] at hid₂
    cases hid₂

theorem Stores.of_role (hid : s.table.get? i = some id) {role : Role}
    (hrole : role.emptied = id.role.emptied)
    (hv : (s.modifyIdent i fun id => { id with role }).valueOf { id with role } = v) :
    Stores i id { id with role } v s (s.modifyIdent i fun id => { id with role }) :=
  ⟨.modify (f := fun id => { id with role }) hid ⟨rfl, hrole⟩ (.refl _), rfl, hv⟩

/-- A value is stored in the number that a variable shows. -/
theorem Stores.of_cell (hid : s.table.get? i = some id) {least greatest : Int32} {c : Cell}
    {watch : Watch} (hrole : id.role = .intVar least greatest (.shared c) watch) (n : Int32) :
    Stores i id id (.int n) s (s.setCell c n) := by
  have hother (c' : Cell) (hc : c' ≠ c) : (s.setCell c n).cell c' = s.cell c' := by
    cases c <;> cases c' <;> first | rfl | exact absurd rfl hc
  have hshown : (s.setCell c n).cell c = n := by
    cases c <;> rfl
  have hvaries : Varies i id id s (s.setCell c n) := by
    refine .of_table hid ?_ (fun c' _ hcell => hother c' ?_) ?_ ?_ ?_
    · cases c <;> rfl
    · rintro rfl
      exact hcell (by rw [hrole]; rfl)
    · cases c <;> rfl
    · cases c <;> rfl
    · cases c <;> rfl
  refine ⟨hvaries, rfl, ?_⟩
  rw [valueOf, hrole]
  exact congrArg Value.int hshown

/-- A variable takes a value of its range, if it does not refuse writes and, where writes override, its
value from before is kept. -/
theorem Stores.tends (h : Stores i id id' v s s')
    (hopen : id.flags.Refuses → id.flags.overridden = true)
    (hover : s.writeFlags.overridden = true → id.flags.overridden = true)
    (hrange : s.InRange id → id.role.Contains v.toInt) : s.Tends s' id id' := by
  have hflags : id'.flags = id.flags := by rw [h.rest]
  have hbefore : id'.before = id.before := by rw [h.rest]
  refine ⟨h.flags, fun hs => ⟨?_, ?_, ?_, ?_⟩, fun hr => ⟨?_, fun ho => ?_⟩, fun hr ho => ?_,
    fun _ hm _ w hw => ?_⟩
  · rw [hflags]
    exact hs.known
  · rw [hflags]
    exact hs.persist
  · rw [hflags]
    exact hs.readOnly
  · rw [hflags, hbefore, h.like.fits]
    exact hs.before
  · rw [h.like.contains, h.value]
    exact hrange hr
  · rw [h.like.contains, hbefore]
    exact hr.before (hflags ▸ ho)
  · exact absurd ((hopen hr).symm.trans ho) (by decide)
  · unfold Reverts at *
    rw [hflags, hbefore, if_pos (hover hm)]
    rwa [if_pos (hover hm)] at hw

end Interp

/-- What is stored in an integer variable. -/
def Role.chosenInt (choose : Int32 → Int32 → Int32) : Role → Option Value
  | .intVar least greatest _ _ => some (.int (choose least greatest))
  | _ => none

/-- What is stored in a float variable. -/
def Role.chosenFloat (choose : Single → Single → Single) : Role → Option Value
  | .floatVar least greatest _ _ => some (.float (choose least greatest))
  | _ => none

/-- What is stored in a text variable. -/
def Role.chosenText (t : Bytes) : Role → Option Value
  | .textVar .. => some (.ofBytes t)
  | _ => none

/-- A computation stores a value in variables of one kind, and fails on other identifiers. -/
def Engine.StoresAt (m : Engine Unit) (i : Nat) (chosen : Role → Option Value) (s : Interp) : Prop :=
  ((∀ id, s.table.get? i = some id → chosen id.role = none) ∧
      ∃ e, outcome m s = (.error (.fault e), s)) ∨
    ∃ id id' v s', chosen id.role = some v ∧ outcome m s = (.ok ⟨⟩, s') ∧ s.Stores i id id' v s'

theorem storesAt_storeInt (s : Interp) (i : Nat) (choose : Int32 → Int32 → Int32) :
    StoresAt (storeInt i choose) i (Role.chosenInt choose) s := by
  unfold storeInt StoresAt
  rcases Option.eq_none_or_eq_some (s.table.get? i) with hid | ⟨id, hid⟩
  · refine .inl ⟨fun id' hid' => ?_, _, outcome_bind_error (outcome_identAt_none hid) _⟩
    cases hid.symm.trans hid'
  · rw [outcome_bind_ok (outcome_identAt hid)]
    split
    next least greatest store watch hrole =>
      have hv : id.role.chosenInt choose = some (.int (choose least greatest)) := by
        rw [hrole]
        rfl
      cases store with
      | own n => exact .inr ⟨id, _, _, _, hv, rfl, .of_role hid (by rw [hrole]; rfl) rfl⟩
      | shared c => exact .inr ⟨id, id, _, _, hv, rfl, .of_cell hid hrole _⟩
    next hrole =>
      refine .inl ⟨fun id' hid' => ?_, _, rfl⟩
      cases hid.symm.trans hid'
      generalize id.role = role at hrole
      cases role <;> first | rfl | exact absurd rfl (hrole _ _ _ _)

theorem storesAt_storeFloat (s : Interp) (i : Nat) (choose : Single → Single → Single) :
    StoresAt (storeFloat i choose) i (Role.chosenFloat choose) s := by
  unfold storeFloat StoresAt
  rcases Option.eq_none_or_eq_some (s.table.get? i) with hid | ⟨id, hid⟩
  · refine .inl ⟨fun id' hid' => ?_, _, outcome_bind_error (outcome_identAt_none hid) _⟩
    cases hid.symm.trans hid'
  · rw [outcome_bind_ok (outcome_identAt hid)]
    split
    next least greatest old watch hrole =>
      have hv : id.role.chosenFloat choose = some (.float (choose least greatest)) := by
        rw [hrole]
        rfl
      exact .inr ⟨id, _, _, _, hv, rfl, .of_role hid (by rw [hrole]; rfl) rfl⟩
    next hrole =>
      refine .inl ⟨fun id' hid' => ?_, _, rfl⟩
      cases hid.symm.trans hid'
      generalize id.role = role at hrole
      cases role <;> first | rfl | exact absurd rfl (hrole _ _ _ _)

theorem storesAt_storeText (s : Interp) (i : Nat) (t : Bytes) :
    StoresAt (storeText i t) i (Role.chosenText t) s := by
  unfold storeText StoresAt
  rcases Option.eq_none_or_eq_some (s.table.get? i) with hid | ⟨id, hid⟩
  · refine .inl ⟨fun id' hid' => ?_, _, outcome_bind_error (outcome_identAt_none hid) _⟩
    cases hid.symm.trans hid'
  · rw [outcome_bind_ok (outcome_identAt hid)]
    split
    next old watch hrole =>
      have hv : id.role.chosenText t = some (.ofBytes t) := by
        rw [hrole]
        rfl
      exact .inr ⟨id, _, _, _, hv, rfl, .of_role hid (by rw [hrole]; rfl) rfl⟩
    next hrole =>
      refine .inl ⟨fun id' hid' => ?_, _, rfl⟩
      cases hid.symm.trans hid'
      generalize id.role = role at hrole
      cases role <;> first | rfl | exact absurd rfl (hrole _ _)

/-- What is stored in a variable that takes a write is in its range. -/
theorem meetsAt_stores {m : Engine Unit} {chosen : Role → Option Value} (h : StoresAt m i chosen s)
    (hopen : ∀ id, s.table.get? i = some id →
      (id.flags.Refuses → id.flags.overridden = true) ∧
      (s.writeFlags.overridden = true → id.flags.overridden = true))
    (hrange : ∀ id v, s.table.get? i = some id → chosen id.role = some v → s.InRange id →
      id.role.Contains v.toInt) : MeetsAt .protecting m s := by
  intro hs
  rcases h with ⟨-, e, ho⟩ | ⟨id, id', v, s', hv, ho, hst⟩
  · rw [ho]
    exact ⟨Guarantee.Composes.refl s, False.elim⟩
  · rw [ho]
    obtain ⟨hlocked, hover⟩ := hopen id hst.found
    exact ⟨hst.protects hs fun _ => hst.tends hlocked hover (hrange id v hst.found hv), False.elim⟩

end Stores

section Writes

variable {k : Runner}

private theorem clampInt_mem {least greatest : Int32} (h : least ≤ greatest) (v : Int32) :
    least ≤ clampInt least greatest v ∧ clampInt least greatest v ≤ greatest := by
  unfold clampInt
  split
  · exact ⟨Int32.le_refl _, h⟩
  next hl =>
    split
    · exact ⟨h, Int32.le_refl _⟩
    next hg => exact ⟨Int32.not_lt.mp hl, Int32.not_lt.mp hg⟩

/-- A change of one identifier that does nothing to a variable but what variables may do. -/
theorem meetsAt_modify {s : Interp} {i : Nat} {f : Ident → Ident}
    (h : ∀ id, s.table.get? i = some id → id.Like (f id) ∧ id.flags.Descend (f id).flags ∧
      (id.role.isKept = true → s.Tends (s.modifyIdent i f) id (f id))) :
    MeetsAt .protecting (modifyIdent i f) s := by
  refine Meets.changeAt fun hs => ?_
  cases hid : s.table.get? i with
  | none =>
      refine Interp.Protects.undisturbed rfl rfl rfl (fun _ _ => rfl) (fun j id hj => ?_)
        fun j id' hnone hid' => ?_
      · refine ⟨id, ?_, .refl id⟩
        rw [Interp.modifyIdent, Table.get?_modify, if_neg ?_]
        · exact hj
        · rintro rfl
          rw [hid] at hj
          cases hj
      · rw [Interp.modifyIdent, Table.get?_modify, hnone] at hid'
        split at hid' <;> cases hid'
  | some id =>
      obtain ⟨hlike, hflags, ht⟩ := h id hid
      exact (Interp.Varies.modify hid hlike hflags).protects hs ht

/-- Of a variable that takes a write it may be noted that it is overridden. -/
theorem protecting_admits (i : Nat) : Meets .protecting (admits i) := by
  refine fun s => Meets.identAtAt fun id hid => ?_
  have hrefused (text : Bytes) :
      MeetsAt .protecting (debug text >>= fun _ => return false) s :=
    Meets.bind (meets_debug _) (fun _ => .pure _) s
  split
  · exact hrefused _
  next hr =>
    have hr := Bool.eq_false_iff.mpr hr
    have hvalue (f : Ident → Ident) (hf : (f id).role = id.role) (hvar : id.role.isVar = true) :
        (s.modifyIdent i f).valueOf (f id) = s.valueOf id :=
      Interp.valueOf_eq hvar hf fun _ _ => rfl
    -- What is not read-only refuses a write only if it persists and the write would be an override.
    have hopen (h : id.flags.override = true → ¬id.flags.persist = true) : ¬id.flags.Refuses :=
      Or.rec (fun hro => Bool.false_ne_true (hr.symm.trans hro)) fun ⟨ho, hp⟩ => h ho hp
    refine Meets.readAt ?_
    split
    · split
      · exact hrefused _
      next hp =>
        split
        next hplain =>
          -- The value is kept, and with it what is known of it.
          have hplain : id.flags.overridden = false := by simpa using hplain
          refine Meets.bindAt (meetsAt_modify fun id' hid' => ?_) fun _ s' _ => Meets.pure true s'
          cases hid.symm.trans hid'
          refine ⟨⟨rfl, rfl⟩, .setOverridden _ _, fun hkept => ?_⟩
          have hvar := Role.isVar_of_isKept hkept
          refine ⟨.setOverridden _ _, fun hs => ⟨hs.known, fun _ => Bool.eq_false_iff.mpr hp, fun _ => hr,
            fun _ => Interp.fits_valueOf hvar⟩, fun hin => ⟨?_, fun _ => hin.value⟩,
            fun h => absurd h (hopen fun _ => hp), fun _ _ _ v hv => ?_⟩
          · rw [hvalue _ rfl hvar]
            exact hin.value
          · unfold Interp.Reverts at *
            rw [if_pos rfl]
            rwa [hplain, if_neg Bool.false_ne_true] at hv
        · exact Meets.pure _ s
    next hmode =>
      split
      · refine Meets.bindAt (meetsAt_modify fun id' hid' => ?_) fun _ s' _ => Meets.pure true s'
        cases hid.symm.trans hid'
        refine ⟨⟨rfl, rfl⟩, .setOverridden _ _, fun hkept => ?_⟩
        have hvar := Role.isVar_of_isKept hkept
        refine ⟨.setOverridden _ _, fun hs => ⟨hs.known, nofun, nofun, nofun⟩,
          fun hin => ⟨?_, nofun⟩, fun h => absurd h (hopen fun ho => ?_), fun _ hm => ?_⟩
        · rw [hvalue _ rfl hvar]
          exact hin.value
        · rw [ho] at hmode
          exact absurd (Bool.or_true _) hmode
        · rw [hm] at hmode
          exact absurd (Bool.true_or _) hmode
      · exact Meets.pure _ s

/-- A variable that takes a write is written and announced. -/
theorem protecting_write (hk : ∀ b pc, Meets .protecting (k b pc)) (i : Nat) {m : Engine Unit}
    {chosen : Role → Option Value} (h : ∀ s, StoresAt m i chosen s)
    (hrange : ∀ s id v, chosen id.role = some v → Interp.InRange s id → id.role.Contains v.toInt) :
    Meets .protecting (do if ← admits i then do m; notify k i) := by
  refine fun s => Meets.bindAt (protecting_admits i s) fun admitted s' ha => ?_
  cases admitted with
  | false => exact Meets.pure _ s'
  | true =>
      have hadm := admitted_of_admits ha
      refine Meets.bindAt (meetsAt_stores (h s') (fun id hid => ?_) fun id v _ => hrange s' id v)
        fun _ s'' _ => meets_notify hk i s''
      obtain ⟨hr, hp, hover⟩ := hadm id hid
      refine ⟨Or.rec (fun hro => absurd (hr.symm.trans hro) Bool.false_ne_true) fun ⟨ho, hpersist⟩ => ?_,
        hover⟩
      exact absurd ((hp ho).symm.trans hpersist) Bool.false_ne_true

theorem protecting_setIntVar (hk : ∀ b pc, Meets .protecting (k b pc)) (i : Nat) (v : Int32) :
    Meets .protecting (setIntVar k i v) := by
  refine protecting_write hk i (fun s => storesAt_storeInt s i _) fun s id w hw hin => ?_
  have hvalue := hin.value
  generalize id.role = role at hw hvalue
  cases role with
  | intVar least greatest store watch =>
      cases hw
      exact clampInt_mem (Int32.le_trans hvalue.1 hvalue.2) v
  | _ => cases hw

theorem protecting_setFloatVar (hk : ∀ b pc, Meets .protecting (k b pc)) (i : Nat) (v : Single) :
    Meets .protecting (setFloatVar k i v) := by
  refine protecting_write hk i (fun s => storesAt_storeFloat s i _) fun s id w hw _ => ?_
  generalize id.role = role at hw
  cases role with
  | floatVar => trivial
  | _ => cases hw

theorem protecting_setTextVar (hk : ∀ b pc, Meets .protecting (k b pc)) (i : Nat) (t : Bytes) :
    Meets .protecting (setTextVar k i t) := by
  refine protecting_write hk i (fun s => storesAt_storeText s i t) fun s id w hw _ => ?_
  generalize id.role = role at hw
  cases role with
  | textVar => trivial
  | _ => cases hw

/-- A write of an alias is on record, so that what is written is no variable. -/
theorem protecting_setAlias (i : Nat) (v : Value) : Meets .protecting (setAlias i v) := by
  refine fun s _ => ?_
  let s' := (s.addWrite i s.writeFlags).modifyIdent i fun id => { id.setValue v with
    flags := s.writeFlags }
  have hlasts : s.table.Lasts s'.table := .modify _ fun _ _ => ⟨rfl, rfl⟩
  have hget (j : Nat) (hj : i ≠ j) : s'.table.get? j = s.table.get? j := by
    have h : s'.table = s.table.modify i fun id => { id.setValue v with flags := s.writeFlags } := rfl
    rw [h, Table.get?_modify, if_neg hj]
  have hprotects : s.Protects s' := by
    refine ⟨hlasts, rfl, Nat.le_succ _, fun _ _ _ => .inl, fun n j f hn => ?_, fun j id' hid' _ => ?_,
      fun hw j id hid hkept => ?_⟩
    · refine hn.imp_right fun ⟨hn, _, hf⟩ => ⟨Nat.le_of_eq hn.symm, ?_, ?_⟩
      · rw [hn]
        exact Nat.lt_succ_self s.writes
      · rw [hf]
    · by_cases hj : i = j
      · subst hj
        refine .written (Nat.le_refl s.writes) (.inr ⟨rfl, rfl, rfl⟩) ?_
        have h : s'.table = s.table.modify i fun id => { id.setValue v with flags := s.writeFlags } := rfl
        rw [h, Table.get?_modify, if_pos rfl] at hid'
        obtain ⟨id, -, rfl⟩ := Option.map_eq_some_iff.mp hid'
        exact .refl _
      · rw [hget j hj] at hid'
        exact .kept hid' (.refl _) fun n f hn => hn.resolve_right fun ⟨_, hi, _⟩ => hj hi.symm
    · by_cases hj : i = j
      · subst hj
        obtain ⟨id', hid', hlike⟩ := hlasts.kept i id hid
        have halias := hw s.writes i s.writeFlags id' (.inr ⟨rfl, rfl, rfl⟩) hid'
        rw [hlike.alias_iff.mp halias] at hkept
        cases hkept
      · exact ⟨id, (hget j hj).trans hid, .of_same (Role.isVar_of_isKept hkept) rfl rfl rfl (.refl _)
          fun c _ => by cases c <;> rfl⟩
  exact ⟨hprotects, False.elim⟩

/-- Ends the override of an identifier. -/
def Ident.ended (id : Ident) : Ident :=
  { id with before := .null, flags := { id.flags with overridden := false } }

section Clearing

variable {s : Interp} {i : Nat} {id : Ident}

theorem outcome_notify_unwatched (hu : s.Unwatched) (hid : s.table.get? i = some id) :
    ∃ s', outcome (notify k i) s = (.ok ⟨⟩, s') ∧ (s' = s ∨ s' = s.stampPersistence) := by
  rw [notify, outcome_bind_ok (outcome_identAt hid)]
  have hwatch := hu i id hid
  generalize id.role.watch = watch at hwatch
  cases watch with
  | none => exact ⟨s, rfl, .inl rfl⟩
  | persistence => exact ⟨_, rfl, .inr rfl⟩
  | host f => exact absurd rfl (hwatch f)

theorem outcome_clearOverride_plain (hid : s.table.get? i = some id)
    (ho : id.flags.overridden = false) : outcome (clearOverride k i) s = (.ok ⟨⟩, s) := by
  rw [clearOverride, outcome_bind_ok (outcome_identAt hid), ho]
  rfl

/-- An overridden variable gets its value from before; it is announced, and then the override ends. -/
theorem outcome_clearOverride_var (hid : s.table.get? i = some id)
    (ho : id.flags.overridden = true) (hvar : id.role.isVar = true) :
    ∃ id' s', s.Stores i id id' (id.role.stored id.before) s' ∧ outcome (clearOverride k i) s =
      outcome (do notify k i; modifyIdent i Ident.ended) s' := by
  have hstored {m : Engine Unit} {chosen : Role → Option Value} (h : StoresAt m i chosen s)
      (hv : chosen id.role = some (id.role.stored id.before)) :
      ∃ id' s', s.Stores i id id' (id.role.stored id.before) s' ∧
        outcome (do m; notify k i; modifyIdent i Ident.ended) s =
          outcome (do notify k i; modifyIdent i Ident.ended) s' := by
    rcases h with ⟨hnone, -⟩ | ⟨id₂, id', v, s', hv', hok, hst⟩
    · cases hv.symm.trans (hnone id hid)
    · cases hst.found.symm.trans hid
      cases hv.symm.trans hv'
      exact ⟨id', s', hst, outcome_bind_ok hok _⟩
  rw [clearOverride, outcome_bind_ok (outcome_identAt hid), if_pos ho]
  split
  next hrole =>
    rw [hrole] at hvar
    cases hvar
  next hrole => exact hstored (storesAt_storeInt s i _) (by rw [hrole]; rfl)
  next hrole => exact hstored (storesAt_storeFloat s i _) (by rw [hrole]; rfl)
  next hrole => exact hstored (storesAt_storeText s i _) (by rw [hrole]; rfl)
  next hint hfloat htext =>
    generalize id.role = role at hvar hint hfloat htext
    cases role with
    | intVar => exact absurd rfl (hint _ _ _ _)
    | floatVar => exact absurd rfl (hfloat _ _ _ _)
    | textVar => exact absurd rfl (htext _ _)
    | command | control | «alias» => cases hvar

/-- The override of anything else just ends; an alias gets the empty text. -/
theorem outcome_clearOverride_other (hid : s.table.get? i = some id)
    (ho : id.flags.overridden = true) (hvar : id.role.isVar = false) :
    ∃ id' s', outcome (clearOverride k i) s = (.ok ⟨⟩, s') ∧ s.Varies i id id' s' := by
  have hend {id₁ : Ident} {s₁ : Interp} (h : s.Varies i id id₁ s₁) :
      s.Varies i id id₁.ended (s₁.modifyIdent i Ident.ended) :=
    h.trans (.modify h.get? ⟨rfl, rfl⟩ (.setOverridden _ _))
  have hsame : s.Varies i id id s := .of_table hid rfl (fun _ _ _ => rfl) rfl rfl rfl
  rw [clearOverride, outcome_bind_ok (outcome_identAt hid), if_pos ho]
  split
  · split
    · exact ⟨_, _, rfl, hend (.modify (f := (·.setValue (.ofBytes []))) hid ⟨rfl, rfl⟩ (.refl _))⟩
    · exact ⟨_, _, rfl, hend hsame⟩
  next hrole =>
    rw [hrole] at hvar
    cases hvar
  next hrole =>
    rw [hrole] at hvar
    cases hvar
  next hrole =>
    rw [hrole] at hvar
    cases hvar
  · exact ⟨_, _, rfl, hend hsame⟩

/-- Where no program of the host watches, an overridden variable has its value from before when the
override has ended. -/
theorem outcome_clearOverride_unwatched (hu : s.Unwatched) (hid : s.table.get? i = some id)
    (ho : id.flags.overridden = true) (hvar : id.role.isVar = true) :
    ∃ id' s', outcome (clearOverride k i) s = (.ok ⟨⟩, s') ∧ s.Varies i id id' s' ∧
      id'.flags.overridden = false ∧ s'.valueOf id' = id.role.stored id.before := by
  obtain ⟨id₁, s₁, hst, hclear⟩ := outcome_clearOverride_var (k := k) hid ho hvar
  obtain ⟨s₂, hnotify, hs₂⟩ := outcome_notify_unwatched (k := k) (hu.lasts hst.lasts) hst.get?
  have hvaries : s₁.Varies i id₁ id₁ s₂ ∧ s₂.valueOf id₁ = s₁.valueOf id₁ := by
    rcases hs₂ with rfl | rfl
    · exact ⟨.of_table hst.get? rfl (fun _ _ _ => rfl) rfl rfl rfl, rfl⟩
    · exact ⟨.of_table hst.get? rfl (fun c _ _ => by cases c <;> rfl) rfl rfl rfl, rfl⟩
  refine ⟨id₁.ended, s₂.modifyIdent i Ident.ended, hclear.trans (outcome_bind_ok hnotify _),
    hst.toVaries.trans (hvaries.1.trans (.modify hvaries.1.get? ⟨rfl, rfl⟩ (.setOverridden _ _))),
    rfl, ?_⟩
  have hended : (s₂.modifyIdent i Ident.ended).valueOf id₁.ended = s₂.valueOf id₁ := rfl
  rw [hended, hvaries.2, hst.value]

end Clearing

private theorem protecting_ended {s : Interp} (i : Nat) (hu : ¬s.Unwatched) :
    MeetsAt .protecting (modifyIdent i Ident.ended) s := by
  refine meetsAt_modify fun id _ => ⟨⟨rfl, rfl⟩, .setOverridden _ _, fun _ => ?_⟩
  have hvalue : (s.modifyIdent i Ident.ended).valueOf id.ended = s.valueOf id := rfl
  refine ⟨.setOverridden _ _, fun hs => ⟨hs.known, nofun, nofun, nofun⟩,
    fun hr => ⟨?_, nofun⟩, fun _ _ => ⟨hvalue, rfl⟩, fun h => absurd h hu⟩
  rw [hvalue]
  exact hr.value

/-- What is stored when an override ends is in the range of the variable, if the value from before
is. -/
theorem Role.contains_stored {role : Role} {v : Value} (h : role.Contains v.toInt) :
    role.Contains (role.stored v).toInt := by
  cases role with
  | intVar => exact h
  | _ => trivial

theorem protecting_clearOverride (hk : ∀ b pc, Meets .protecting (k b pc)) (i : Nat) :
    Meets .protecting (clearOverride k i) := by
  intro s hs
  have hdone {s' : Interp} (ho : outcome (clearOverride k i) s = (.ok ⟨⟩, s')) (h : s.Protects s') :
      s.Protects (outcome (clearOverride k i) s).2 ∧ (False →
        (outcome (clearOverride k i) s).1 ≠ .error .exhausted) := by
    rw [ho]
    exact ⟨h, False.elim⟩
  rcases Option.eq_none_or_eq_some (s.table.get? i) with hid | ⟨id, hid⟩
  · rw [clearOverride, outcome_bind_error (outcome_identAt_none hid)]
    exact ⟨Guarantee.Composes.refl s, False.elim⟩
  cases ho : id.flags.overridden with
  | false => exact hdone (outcome_clearOverride_plain hid ho) (Guarantee.Composes.refl (G := .protecting) s)
  | true =>
  cases hvar : id.role.isVar with
  | false =>
      obtain ⟨id', s', hok, hvaries⟩ := outcome_clearOverride_other (k := k) hid ho hvar
      refine hdone hok (hvaries.protects hs fun hkept => ?_)
      rw [Role.isVar_of_isKept hkept] at hvar
      cases hvar
  | true =>
  by_cases hu : s.Unwatched
  · obtain ⟨id', s', hok, hvaries, hplain, hvalue⟩ :=
      outcome_clearOverride_unwatched (k := k) hu hid ho hvar
    refine hdone hok (hvaries.protects hs fun _ => ⟨hvaries.flags, fun h => ⟨?_, ?_, ?_, ?_⟩,
      fun hr => ⟨?_, ?_⟩, fun hr hplain => ?_, fun _ _ h v hv => ?_⟩)
    · exact Bool.eq_false_iff.mpr fun hk => Bool.false_ne_true
        (h.known.symm.trans (hvaries.flags.unknown hk))
    · exact fun h => absurd (hplain.symm.trans h) Bool.false_ne_true
    · exact fun h => absurd (hplain.symm.trans h) Bool.false_ne_true
    · exact fun h => absurd (hplain.symm.trans h) Bool.false_ne_true
    · rw [hvaries.like.contains, hvalue]
      exact Role.contains_stored (hr.before ho)
    · exact fun h => absurd (hplain.symm.trans h) Bool.false_ne_true
    · exact absurd (ho.symm.trans hplain) (by decide)
    · unfold Interp.Reverts at *
      rw [hplain, if_neg Bool.false_ne_true, hvalue, Role.stored_of_fits (h.before ho)]
      rwa [if_pos ho] at hv
  · obtain ⟨id₁, s₁, hst, hclear⟩ := outcome_clearOverride_var (k := k) hid ho hvar
    have hstored : s.Protects s₁ := hst.protects hs fun _ =>
      hst.tends (fun _ => ho) (fun _ => ho) fun hr => Role.contains_stored (hr.before ho)
    rw [hclear]
    have hrest : MeetsAt .protecting (do notify k i; modifyIdent i Ident.ended) s₁ := by
      intro hs₁
      obtain ⟨hn, -⟩ := meets_notify hk i s₁ hs₁
      refine Meets.bindAt (meets_notify hk i s₁) (fun _ s₂ hok => protecting_ended i fun hu₂ => hu ?_) hs₁
      rw [hok] at hn
      exact (hu₂.of_lasts hn.lasts).of_lasts hst.lasts
    obtain ⟨hto, -⟩ := hrest (hs.lasts hst.lasts)
    exact ⟨hstored.trans hto, False.elim⟩

end Writes

instance : Guarantee.protecting.Based where
  setValue i _ := meets_rebind i fun _ => ⟨rfl, fun h => h, .inl rfl⟩
  bodyOf i := meets_bodyOf_of fun _ _ => Meets.changeAt fun _ => .keepBody i _
  setAlias := protecting_setAlias
  setIntVar := protecting_setIntVar
  setFloatVar := protecting_setFloatVar
  setTextVar := protecting_setTextVar
  clearOverride := protecting_clearOverride

end ConsoleScript
