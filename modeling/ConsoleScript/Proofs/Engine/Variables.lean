import ConsoleScript.Proofs.Engine.Bindings

/-!
Writes to variables and aliases are safe. The variable that shows the number of arguments of the
running alias refuses writes and is never overridden, so that no write changes the number.
-/

namespace ConsoleScript

open Bytecode Engine

theorem Interp.ok_valueOf (r : Rigour) (t : Table) (s : Interp) (id : Ident) :
    (s.valueOf id).Ok r t := by
  unfold Interp.valueOf
  split <;> first | trivial | exact Value.ok_settle r t _

namespace World

variable {r : Rigour} {w w' : World r} {k : Runner} {i : Nat} {v : Value}

theorem ok_of_get? (hl : w.live) {id : Ident} (h : w.state.table.get? i = some id) :
    id.Ok r w.state.table :=
  (w.inv hl).table.idents i id h

theorem safe_notify (hk : RunsSafely r k) (hi : w.live → i < w.state.table.size) :
    w.Safe (notify k i) fun _ _ => True := by
  refine .identAt hi fun id hid => ?_
  split
  next => exact .pure fun _ => trivial
  next => exact (Safe.calm fun _ => {}).drop
  next f hf =>
    refine .read ((safe_runHost hk fun hl => ?_).bind fun _ _ _ _ => .pure fun _ => trivial)
    have hwatch := (ok_of_get? hl hid).role.watch
    rw [hf] at hwatch
    exact hwatch _ _ (.refl r _) (Interp.ok_valueOf r _ _ id)

/-- The identifier with an index takes writes. -/
def Writable (i : Nat) (s : Interp) : Prop :=
  ∀ id, s.table.get? i = some id → id.flags.readOnly = false

theorem Writable.not_locked (h : Writable i w.state) (hl : w.live) {id : Ident}
    (hid : w.state.table.get? i = some id) : id.role.showsCallArgs = false := by
  cases hshow : id.role.showsCallArgs with
  | false => rfl
  | true =>
      have hlocked := ((ok_of_get? hl hid).locked hshow).1
      rw [h id hid] at hlocked
      cases hlocked

/-- Changing the mark of being overridden, and what was before. -/
theorem safe_setOverridden (hi : w.live → w.state.table.form? r i ≠ some .alias)
    (h : w.live → Writable i w.state) (before : Ident → Value) (b : Bool) : w.Safe (modifyIdent i fun id => { id with
      before := before id
      flags := { id.flags with overridden := b } }) fun s _ => Writable i s := by
  refine (safe_modifyIdent fun hl id hid => ?_).mono fun hl s _ _ _ hs id hid => ?_
  · have hok := ok_of_get? hl hid
    refine ⟨⟨rfl, ⟨hok.value, hok.saved, hok.body, hok.role, fun hshow => ?_⟩, rfl, fun _ _ => rfl,
      fun hslot => ?_⟩, fun _ halias => ?_⟩
    · exact absurd (((h hl).not_locked hl hid).symm.trans hshow) Bool.false_ne_true
    · exact absurd ((w.inv hl).table.founded i (Nat.le_of_lt hslot)) (hi hl)
    · refine absurd ?_ (hi hl)
      rw [Table.form?_of_get? hid, halias]
      rfl
  · rw [hs, Interp.modifyIdent, Table.get?_modify, if_pos rfl] at hid
    obtain ⟨id', hid', rfl⟩ := Option.map_eq_some_iff.mp hid
    exact h hl id' hid'

private theorem safe_override {id : Ident} (hi : w.live → w.state.table.form? r i ≠ some .alias)
    (h : w.live → Writable i w.state) : w.Safe (override i id) fun s b => b = true → Writable i s := by
  have hdone {w' : World r} (h : w'.live → Writable i w'.state) :
      w'.Safe (pure true) fun s b => b = true → Writable i s := .pure fun hl _ => h hl
  refine .read (.ite (fun _ => .ite (fun _ => ?_) fun _ => .ite (fun _ => ?_) fun _ => ?_) fun _ =>
    .ite (fun _ => ?_) fun _ => ?_)
  · exact (w.safe_debug _).bind fun _ _ _ _ => .pure nofun
  · exact (safe_setOverridden hi h _ true).bind fun _ _ _ h' => hdone h'
  · exact hdone h
  · exact (safe_setOverridden hi h _ false).bind fun _ _ _ h' => hdone h'
  · exact hdone h

private theorem safe_admits (hi : w.live → i < w.state.table.size)
    (hnamed : w.live → w.state.table.form? r i ≠ some .alias) : w.Safe (admits i) fun s b => b = true → Writable i s := by
  refine .identAt hi fun id hid => .ite (fun _ => ?_) fun hr => ?_
  · exact (w.safe_debug _).bind fun _ _ _ _ => .pure nofun
  · refine safe_override hnamed fun hl id' hid' => ?_
    cases hid.symm.trans hid'
    exact Bool.eq_false_iff.mpr hr

theorem form_of_get? {f : Form} (h : w.state.table.form? r i = some f) {id : Ident}
    (hid : w.state.table.get? i = some id) : id.role.form r = f := by
  rw [Table.form?_of_get? hid, Option.some.injEq] at h
  exact h

theorem form_later {f : Form} (h : w.live → w.state.table.form? r i = some f) (hw : w.Leads w')
    (hl : w'.live) : w'.state.table.form? r i = some f :=
  hw.forms hl i f (h (hw hl).1)

theorem lt_later {i : Nat} (h : w.live → i < w.state.table.size) (hw : w.Leads w') (hl : w'.live) :
    i < w'.state.table.size :=
  (hw.forms hl).lt_size (h (hw hl).1)

theorem safe_setRole {old role : Role} {id : Ident} (hid : w.state.table.get? i = some id)
    (hold : id.role = old) (hvar : old ≠ .alias) (hf : role.form r = old.form r)
    (hok : ∀ t, old.Ok r t → role.Ok r t) (hs : role.showsCallArgs = false) :
    w.Safe (modifyIdent i fun id => { id with role }) fun _ _ => True := by
  subst hold
  refine (safe_modifyIdent fun hl id' hid' => ?_).drop
  cases hid.symm.trans hid'
  have h := ok_of_get? hl hid'
  exact ⟨⟨hf, ⟨h.value, h.saved, h.body, hok _ h.role,
    fun hshow => absurd (hs.symm.trans hshow) Bool.false_ne_true⟩, rfl, fun _ _ => rfl, fun _ h => h⟩,
    fun _ halias => absurd halias hvar⟩

theorem safe_storeInt {choose : Int32 → Int32 → Int32}
    (hi : w.live → w.state.table.form? r i = some .intVar)
    (hs : w.live → ∀ id, w.state.table.get? i = some id → id.role.showsCallArgs = false) :
    w.Safe (storeInt i choose) fun _ _ => True := by
  refine .identAt (fun hl => Table.lt_size_of_form? (hi hl)) fun id hid => ?_
  split
  next least greatest store watch hrole =>
    split
    next => exact safe_setRole hid hrole nofun rfl (fun _ h => h) rfl
    next c =>
      cases c with
      | callArgs =>
          refine .change (.refl _) fun hl _ => ?_
          have hshow := hs hl id hid
          rw [hrole] at hshow
          cases hshow
      | _ => exact (Safe.calm fun _ => {}).drop
  next hrole =>
    refine .fail fun hl => ?_
    have hform := form_of_get? (hi hl) hid
    cases h : id.role with
    | intVar least greatest store watch => exact absurd h (hrole _ _ _ _)
    | _ => rw [h] at hform; cases hform

theorem safe_storeFloat {choose : Single → Single → Single}
    (hi : w.live → w.state.table.form? r i = some .floatVar) :
    w.Safe (storeFloat i choose) fun _ _ => True := by
  refine .identAt (fun hl => Table.lt_size_of_form? (hi hl)) fun id hid => ?_
  split
  next hrole =>
    exact safe_setRole hid hrole nofun rfl (fun _ h => h) rfl
  next hrole =>
    refine .fail fun hl => ?_
    have hform := form_of_get? (hi hl) hid
    cases h : id.role with
    | floatVar least greatest value watch => exact absurd h (hrole _ _ _ _)
    | _ => rw [h] at hform; cases hform

theorem safe_storeText {text : Bytes} (hi : w.live → w.state.table.form? r i = some .textVar) :
    w.Safe (storeText i text) fun _ _ => True := by
  refine .identAt (fun hl => Table.lt_size_of_form? (hi hl)) fun id hid => ?_
  split
  next hrole =>
    exact safe_setRole hid hrole nofun rfl (fun _ h => h) rfl
  next hrole =>
    refine .fail fun hl => ?_
    have hform := form_of_get? (hi hl) hid
    cases h : id.role with
    | textVar value watch => exact absurd h (hrole _ _)
    | _ => rw [h] at hform; cases hform

/-- A write that a variable admits, with what follows it. -/
theorem safe_write (hk : RunsSafely r k) {f : Form}
    (hf : w.live → w.state.table.form? r i = some f) (hvar : f ≠ .alias) {store : Engine Unit}
    (h : ∀ w' : World r, w.Leads w' → (w'.live → Writable i w'.state) →
      w'.Safe store fun _ _ => True) :
    w.Safe (do if ← admits i then store; notify k i) fun _ _ => True := by
  have hi (hl : w.live) : i < w.state.table.size := Table.lt_size_of_form? (hf hl)
  have hnamed (hl : w.live) : w.state.table.form? r i ≠ some .alias := by
    rw [hf hl]
    exact fun h => hvar (Option.some.inj h)
  refine (safe_admits hi hnamed).bind fun w' b hw hb => .ite (fun hadmits => ?_) fun _ => ?_
  · refine (h w' hw fun hl => hb hl hadmits).bind fun w'' _ hw' _ => ?_
    exact safe_notify hk (lt_later hi (hw.trans hw'))
  · exact .pure fun _ => trivial

theorem safe_setIntVar (hk : RunsSafely r k) (n : Int32)
    (hi : w.live → w.state.table.form? r i = some .intVar) :
    w.Safe (setIntVar k i n) fun _ _ => True :=
  safe_write hk hi nofun fun _ hw hwritable =>
    safe_storeInt (form_later hi hw) fun hl _ hid => (hwritable hl).not_locked hl hid

theorem safe_setFloatVar (hk : RunsSafely r k) (x : Single)
    (hi : w.live → w.state.table.form? r i = some .floatVar) :
    w.Safe (setFloatVar k i x) fun _ _ => True :=
  safe_write hk hi nofun fun _ hw _ =>
    safe_storeFloat (form_later hi hw)

theorem safe_setTextVar (hk : RunsSafely r k) (text : Bytes)
    (hi : w.live → w.state.table.form? r i = some .textVar) :
    w.Safe (setTextVar k i text) fun _ _ => True :=
  safe_write hk hi nofun fun _ hw _ =>
    safe_storeText (form_later hi hw)

theorem safe_assign (hk : RunsSafely r k) (hi : w.live → i < w.state.table.size)
    (hv : w.Good v) : w.Safe (assign k i v) fun _ _ => True := by
  refine .identAt hi fun id hid => ?_
  have hform {f : Form} (h : id.role.form r = f) : w.state.table.form? r i = some f := by
    rw [Table.form?_of_get? hid, h]
  split
  next h =>
    exact .ite (fun hslot => safe_setArg (fun _ => hslot) hv) fun hnamed =>
      safe_setAlias (fun _ => hform (by rw [h]; rfl)) (fun _ => Nat.le_of_not_lt hnamed) hv
  next h => exact safe_setIntVar hk _ fun _ => hform (by rw [h]; rfl)
  next h => exact safe_setFloatVar hk _ fun _ => hform (by rw [h]; rfl)
  next h => exact safe_setTextVar hk _ fun _ => hform (by rw [h]; rfl)
  next => exact w.safe_debug _

theorem safe_assignNamed (hk : RunsSafely r k) (name : Bytes) (hv : w.Good v) :
    w.Safe (assignNamed k name v) fun _ _ => True := by
  refine .read ?_
  dsimp only
  split
  next i hi => exact safe_assign hk (fun _ => Table.find?_lt hi) hv
  next =>
    refine .ite (fun _ => w.safe_debug _) fun _ => ?_
    have hpush : w.Safe (modify fun s => { s with table := s.table.push { name, role := .alias } })
        fun s _ => s.table.form? r w.state.table.size = some .alias := by
      refine .change (.refl _) fun hl _ => ?_
      have hinv := w.inv hl
      refine ⟨hinv.settles (hinv.table.push_alias rfl (Ident.ok_alias r _ name {}))
        (Table.extends_push r _ _) (Table.depth_push _ rfl) (fun j hj => ?_)
        (Table.saved_push _ rfl) (fun j _ hp => ⟨hp.push _, Table.bindings_push _ _ hp.lt_size⟩), ?_⟩
      · exact Interp.callerBindings_drop (n := 0) rfl
          (Table.bindings_push _ _ (hinv.table.slot_lt hj))
      rw [Table.form?, Table.get?_push, if_pos rfl]
      rfl
    exact hpush.bind fun w' _ hw hform => safe_setAlias hform
      (fun hl => Nat.le_of_lt (w.inv (hw hl).1).table.dummy_lt) (hv.later hw)

private theorem safe_setPlain (i : Nat) : w.Safe (modifyIdent i fun id => { id with
    before := .null
    flags := { id.flags with overridden := false } }) fun _ _ => True := by
  refine (safe_modifyIdent fun hl id hid => ?_).drop
  have hok := ok_of_get? hl hid
  exact ⟨⟨rfl, ⟨hok.value, hok.saved, hok.body, hok.role,
    fun hshow => ⟨(hok.locked hshow).1, rfl⟩⟩, rfl, fun _ _ => rfl, fun _ _ => rfl⟩,
    fun _ _ _ => ⟨rfl, rfl⟩⟩

theorem safe_clearOverride (hk : RunsSafely r k) (hi : w.live → i < w.state.table.size) :
    w.Safe (clearOverride k i) fun _ _ => True := by
  refine .identAt hi fun id hid => .ite (fun hover => ?_) fun _ => .pure fun _ => trivial
  have hform {f : Form} (h : id.role.form r = f) (_ : w.live) :
      w.state.table.form? r i = some f := by
    rw [Table.form?_of_get? hid, h]
  have hafter {store : Engine Unit} (h : w.Safe store fun _ _ => True) :
      w.Safe (do store; notify k i; modifyIdent i fun id => { id with
        before := .null
        flags := { id.flags with overridden := false } }) fun _ _ => True :=
    h.bind fun w' _ hw _ => (safe_notify hk (lt_later hi hw)).bind fun _ _ _ _ => safe_setPlain i
  dsimp only
  split
  next h =>
    refine .ite (fun _ => ?_) fun _ => safe_setPlain i
    refine (safe_modifyIdent fun hl id' hid' => ?_).bind fun _ _ _ _ => safe_setPlain i
    cases hid.symm.trans hid'
    refine ⟨(ok_of_get? hl hid).alters_setValue trivial fun hslot => ?_, fun _ _ hplain => ?_⟩
    · exact absurd (((w.inv hl).table.plain i hslot id hid).symm.trans hover) Bool.false_ne_true
    · exact absurd (hplain.symm.trans hover) Bool.false_ne_true
  next h =>
    refine hafter (safe_storeInt (hform (by rw [h]; rfl)) fun hl id' hid' => ?_)
    cases hid.symm.trans hid'
    refine Bool.eq_false_iff.mpr fun hshow => ?_
    exact absurd (((ok_of_get? hl hid).locked hshow).2.symm.trans hover) Bool.false_ne_true
  next h => exact hafter (safe_storeFloat (hform (by rw [h]; rfl)))
  next h => exact hafter (safe_storeText (hform (by rw [h]; rfl)))
  next => exact safe_setPlain i

theorem safe_resetNamed (hk : RunsSafely r k) (name : Bytes) :
    w.Safe (resetNamed k name) fun _ _ => True := by
  refine .read ?_
  split
  next => exact .pure fun _ => trivial
  next i id h =>
    refine .ite (fun _ => w.safe_debug _) fun _ => ?_
    exact safe_clearOverride hk fun _ => Table.lt_size_of_get? (Table.get?_of_lookup? h)

theorem safe_printVar (hi : w.live → i < w.state.table.size) :
    w.Safe (printVar i) fun _ _ => True := by
  refine .identAt hi fun id hid => .read ?_
  cases w.state.printed? id with
  | none => exact .pure fun _ => trivial
  | some line => exact w.safe_echo line

end World

end ConsoleScript
