import ConsoleScript.Proofs.Engine.Bodies
import ConsoleScript.Proofs.Writes.Variables

/-!
The ranges of float variables. A write brings a number into the range of the variable by two
comparisons, which are both false for not-a-number, and so not-a-number is stored as it is. Apart from
it a variable that began in its range stays there, whatever scripts, hosts and watchers write; and so
does the number that is kept while the variable is overridden, which comes back unclamped.
-/

namespace ConsoleScript

open Bytecode Engine

section Numbers

variable {x y z least greatest : Single}

/-- A number is in a range, if it is one. -/
def Single.IsBounded (least greatest x : Single) : Prop :=
  x.isNaN = false → least.le x = true ∧ x.le greatest = true

namespace Single

theorem le_iff : x.le y = true ↔ x.isNaN = false ∧ y.isNaN = false ∧ x.key ≤ y.key := by
  simp [le, and_assoc]

theorem lt_iff : x.lt y = true ↔ x.isNaN = false ∧ y.isNaN = false ∧ x.key < y.key := by
  simp [lt, and_assoc]

private theorem le_refl (h : x.isNaN = false) : x.le x = true :=
  le_iff.mpr ⟨h, h, Int.le_refl _⟩

private theorem le_trans (h : x.le y = true) (h' : y.le z = true) : x.le z = true := by
  obtain ⟨hx, -, hxy⟩ := le_iff.mp h
  obtain ⟨-, hz, hyz⟩ := le_iff.mp h'
  exact le_iff.mpr ⟨hx, hz, Int.le_trans hxy hyz⟩

private theorem le_of_not_lt (hx : x.isNaN = false) (hy : y.isNaN = false) (h : ¬x.lt y = true) :
    y.le x = true :=
  le_iff.mpr ⟨hy, hx, Int.not_lt.mp fun hlt => h (lt_iff.mpr ⟨hx, hy, hlt⟩)⟩

end Single

theorem isNaN_clampFloat (h : least.le greatest = true) (x : Single) :
    (clampFloat least greatest x).isNaN = x.isNaN := by
  obtain ⟨hleast, hgreatest, -⟩ := Single.le_iff.mp h
  unfold clampFloat
  split
  next hlt => rw [hleast, (Single.lt_iff.mp hlt).1]
  · split
    next hlt => rw [hgreatest, (Single.lt_iff.mp hlt).2.1]
    · rfl

/-- What is clamped is in the range, unless it is no number. -/
theorem isBounded_clampFloat (h : least.le greatest = true) (x : Single) :
    Single.IsBounded least greatest (clampFloat least greatest x) := by
  obtain ⟨hleast, hgreatest, -⟩ := Single.le_iff.mp h
  intro hnumber
  rw [isNaN_clampFloat h] at hnumber
  unfold clampFloat
  split
  · exact ⟨Single.le_refl hleast, h⟩
  next hl =>
    split
    · exact ⟨h, Single.le_refl hgreatest⟩
    next hg => exact ⟨Single.le_of_not_lt hnumber hleast hl, Single.le_of_not_lt hgreatest hnumber hg⟩

end Numbers

section Ranges

variable {s s' s'' : Interp} {i : Nat} {id id' : Ident} {least greatest : Single}

/-- A float variable is in its range, and while it is overridden its number from before is, too. -/
structure Ident.Ranged (least greatest : Single) (id : Ident) : Prop where
  ordered : least.le greatest = true
  value : ∃ x watch, id.role = .floatVar least greatest x watch ∧ Single.IsBounded least greatest x
  before : id.flags.overridden = true → Single.IsBounded least greatest id.before.toSingle

namespace Interp

/-- A float variable of an index is in its range. -/
def RangedAt (s : Interp) (i : Nat) (least greatest : Single) : Prop :=
  ∃ id, s.table.get? i = some id ∧ id.Ranged least greatest

/-- Identifiers stay what they are, writes of aliases are kept on record, and float variables stay in
their ranges, if only aliases are written as aliases are. -/
structure KeepsRanges (s s' : Interp) : Prop where
  lasts : s.table.Lasts s'.table
  written : ∀ n i f, s.written n i f → s'.written n i f
  kept : s'.WellWritten → ∀ i id id', s.table.get? i = some id → s'.table.get? i = some id' →
    ∀ least greatest, id.Ranged least greatest → id'.Ranged least greatest

end Interp

/-- Float variables stay in their ranges. -/
def Engine.Guarantee.ranging : Guarantee where
  From _ := True
  To := Interp.KeepsRanges
  ends := False

theorem Ident.Ranged.isKept (h : id.Ranged least greatest) : id.role.isKept = true := by
  obtain ⟨x, watch, hrole, -⟩ := h.value
  rw [hrole]
  rfl

theorem Ident.Ranged.undisturbed (h : id.Ranged least greatest) (hu : id.Undisturbed id') :
    id'.Ranged least greatest := by
  obtain ⟨hrole, hbefore, hover⟩ := hu.kept h.isKept
  refine ⟨h.ordered, ?_, ?_⟩
  · rw [hrole]
    exact h.value
  · rw [hbefore, hover]
    exact h.before

theorem Role.eq_floatVar_of_emptied {role : Role} {x : Single} {watch : Watch}
    (h : role.emptied = (Role.floatVar least greatest x watch).emptied) :
    ∃ y, role = .floatVar least greatest y watch := by
  cases role with
  | intVar _ _ store => cases store <;> cases h
  | floatVar _ _ y =>
      cases h
      exact ⟨y, rfl⟩
  | textVar | command | control | «alias» => cases h

namespace Interp

namespace KeepsRanges

theorem trans (h : s.KeepsRanges s') (h' : s'.KeepsRanges s'') : s.KeepsRanges s'' := by
  refine ⟨h.lasts.trans h'.lasts, fun n i f hn => h'.written n i f (h.written n i f hn),
    fun hw i id id'' hid hid'' least greatest hr => ?_⟩
  obtain ⟨id', hid', -⟩ := h.lasts.kept i id hid
  exact h'.kept hw i id' id'' hid' hid'' least greatest
    (h.kept (hw.of_lasts h'.lasts h'.written) i id id' hid hid' least greatest hr)

theorem undisturbed (ht : s.table.Lasts s'.table) (hw : s'.written = s.written)
    (hids : ∀ i id id', s.table.get? i = some id → s'.table.get? i = some id' →
      id.Undisturbed id') : s.KeepsRanges s' :=
  ⟨ht, fun _ _ _ hn => hw ▸ hn, fun _ i id id' hid hid' _ _ hr =>
    hr.undisturbed (hids i id id' hid hid')⟩

theorem of_table (ht : s'.table = s.table) (hw : s'.written = s.written) : s.KeepsRanges s' := by
  refine .undisturbed (ht ▸ .refl _) hw fun i id id' hid hid' => ?_
  rw [ht] at hid'
  cases hid.symm.trans hid'
  exact .refl id

theorem rebound (h : s.Rebound s') : s.KeepsRanges s' := by
  refine .undisturbed h.table.lasts (by rw [h.same]) fun i id id' hid hid' => ?_
  obtain ⟨id₂, hid₂, hr⟩ := h.table.idents i id hid
  cases hid'.symm.trans hid₂
  exact hr.undisturbed

theorem push {name : Bytes} (unknown : Bool) (hn : s.table.find? name = none)
    (hx : Reading.isNumeral name = false) :
    s.KeepsRanges { s with table := s.table.push { name, role := .alias, flags := { unknown } } } := by
  refine .undisturbed (.push rfl hx hn) rfl fun i id id' hid hid' => ?_
  rw [Table.get?_push, if_neg (Nat.ne_of_lt (Table.lt_size_of_get? hid)), hid] at hid'
  cases hid'
  exact .refl id

/-- One identifier changes, and stays in its range if it was there. -/
theorem modify {f : Ident → Ident} (hf : ∀ id, s.table.get? i = some id → id.Like (f id) ∧
    ∀ least greatest, id.Ranged least greatest → (f id).Ranged least greatest) :
    s.KeepsRanges (s.modifyIdent i f) := by
  refine ⟨.modify _ fun id hid => (hf id hid).1, fun _ _ _ hn => hn,
    fun _ j id id' hid hid' least greatest hr => ?_⟩
  rw [modifyIdent, Table.get?_modify, hid] at hid'
  split at hid'
  next hj =>
    cases hid'
    exact (hf id (hj ▸ hid)).2 least greatest hr
  next =>
    cases hid'
    exact hr

end KeepsRanges

end Interp

instance : Guarantee.ranging.Indifferent where
  refl _ := .of_table rfl rfl
  trans h h' := h.trans h'
  later _ _ := trivial
  aside h := by
    rw [h.same]
    exact .of_table rfl rfl
  stamp _ := .of_table rfl rfl
  push unknown hn hx := .push unknown hn hx
  withoutWhile h _ := h.elim
  rebound := .rebound
  entered _ h := h
  left _ _ h := ⟨h.lasts, h.written, h.kept⟩

end Ranges

section Writes

variable {k : Runner} {s s' : Interp} {i : Nat} {id id' : Ident} {v : Value}
  {least greatest : Single}

theorem Interp.Stores.ranged (h : s.Stores i id id' v s') (hr : id.Ranged least greatest)
    (hv : Single.IsBounded least greatest v.toSingle) : id'.Ranged least greatest := by
  obtain ⟨x, watch, hrole, -⟩ := hr.value
  have hlike := h.like.2
  rw [hrole] at hlike
  obtain ⟨y, hrole'⟩ := Role.eq_floatVar_of_emptied hlike
  have hvalue := h.value
  rw [valueOf, hrole'] at hvalue
  refine ⟨hr.ordered, ⟨y, watch, hrole', ?_⟩, fun ho => ?_⟩
  · rwa [← hvalue] at hv
  · rw [h.rest] at ho ⊢
    exact hr.before ho

theorem ranging_modify {f : Ident → Ident} (hf : ∀ id, s.table.get? i = some id → id.Like (f id) ∧
    ∀ least greatest, id.Ranged least greatest → (f id).Ranged least greatest) :
    MeetsAt .ranging (modifyIdent i f) s :=
  Meets.changeAt fun _ => .modify hf

/-- What is stored in a float variable is in its range. -/
theorem ranging_stores {m : Engine Unit} {chosen : Role → Option Value} (h : StoresAt m i chosen s)
    (hrange : ∀ id least greatest x watch v, s.table.get? i = some id → id.Ranged least greatest →
      chosen (.floatVar least greatest x watch) = some v →
        Single.IsBounded least greatest v.toSingle) : MeetsAt .ranging m s := by
  intro _
  rcases h with ⟨-, e, ho⟩ | ⟨id, id', v, s', hv, ho, hst⟩
  · rw [ho]
    exact ⟨Guarantee.Composes.refl s, False.elim⟩
  · rw [ho]
    refine ⟨⟨hst.lasts, fun n i f hn => hst.written ▸ hn,
      fun _ j old old' hold hold' least greatest hr => ?_⟩, False.elim⟩
    rw [hst.table] at hold'
    split at hold'
    next hj =>
      subst hj
      cases hold'
      cases hst.found.symm.trans hold
      obtain ⟨x, watch, hrole, -⟩ := hr.value
      exact hst.ranged hr (hrange id least greatest x watch v hold hr (hrole ▸ hv))
    next =>
      cases hold.symm.trans hold'
      exact hr

/-- The number that is kept when an override begins is the one that the variable had. -/
theorem ranging_admits (i : Nat) : Meets .ranging (admits i) := by
  refine fun s => Meets.identAtAt fun id hid => ?_
  have hrefused (text : Bytes) : MeetsAt .ranging (debug text >>= fun _ => return false) s :=
    Meets.bind (meets_debug _) (fun _ => .pure _) s
  -- Only what concerns the override changes.
  have hnoted {f : Ident → Ident} (hlike : id.Like (f id)) (hrole : (f id).role = id.role)
      (hbefore : ∀ least greatest, id.Ranged least greatest → (f id).flags.overridden = true →
        Single.IsBounded least greatest (f id).before.toSingle) :
      MeetsAt .ranging (modifyIdent i f >>= fun _ => return true) s := by
    refine Meets.bindAt (ranging_modify fun id' hid' => ?_) fun _ s' _ => Meets.pure true s'
    cases hid.symm.trans hid'
    exact ⟨hlike, fun least greatest hr =>
      ⟨hr.ordered, hrole ▸ hr.value, hbefore least greatest hr⟩⟩
  split
  · exact hrefused _
  · refine Meets.readAt ?_
    split
    · split
      · exact hrefused _
      · split
        · refine hnoted ⟨rfl, rfl⟩ rfl fun least greatest hr _ => ?_
          obtain ⟨x, watch, hrole, hx⟩ := hr.value
          have hvalue : s.valueOf id = .float x := by rw [Interp.valueOf, hrole]
          change Single.IsBounded least greatest (s.valueOf id).toSingle
          rw [hvalue]
          exact hx
        · exact Meets.pure _ s
    · split
      · exact hnoted ⟨rfl, rfl⟩ rfl fun _ _ _ ho => absurd ho Bool.false_ne_true
      · exact Meets.pure _ s

/-- A variable that takes a write is written and announced. -/
theorem ranging_write (hk : ∀ b pc, Meets .ranging (k b pc)) (i : Nat) {m : Engine Unit}
    {chosen : Role → Option Value} (h : ∀ s, StoresAt m i chosen s)
    (hrange : ∀ least greatest x watch v, least.le greatest = true →
      chosen (.floatVar least greatest x watch) = some v →
        Single.IsBounded least greatest v.toSingle) :
    Meets .ranging (do if ← admits i then do m; notify k i) := by
  refine (ranging_admits i).bind fun admitted => ?_
  cases admitted with
  | false => exact .pure _
  | true =>
      refine .bind (fun s => ?_) fun _ => meets_notify hk i
      exact ranging_stores (h s) fun _ least greatest x watch v _ hr =>
        hrange least greatest x watch v hr.ordered

/-- What is written as an alias is one, and no float variable. -/
theorem ranging_setAlias (i : Nat) (v : Value) : Meets .ranging (setAlias i v) := by
  refine fun s _ => ?_
  let s' := (s.addWrite i s.writeFlags).modifyIdent i fun id => { id.setValue v with
    flags := s.writeFlags }
  have hlasts : s.table.Lasts s'.table := .modify _ fun _ _ => ⟨rfl, rfl⟩
  refine ⟨⟨hlasts, fun _ _ _ => .inl, fun hw j id id' hid hid' least greatest hr => ?_⟩, False.elim⟩
  by_cases hj : i = j
  · subst hj
    obtain ⟨id₂, hid₂, hlike⟩ := hlasts.kept i id hid
    have halias := hw s.writes i s.writeFlags id₂ (.inr ⟨rfl, rfl, rfl⟩) hid₂
    have hkept := hr.isKept
    rw [hlike.alias_iff.mp halias] at hkept
    cases hkept
  · change (s.table.modify i _).get? j = some id' at hid'
    rw [Table.get?_modify, if_neg hj, hid] at hid'
    cases hid'
    exact hr

/-- The number from before an override is stored as it is. -/
theorem ranging_clearOverride (hk : ∀ b pc, Meets .ranging (k b pc)) (i : Nat) :
    Meets .ranging (clearOverride k i) := by
  have hended : Meets .ranging (modifyIdent i Ident.ended) := fun s =>
    ranging_modify fun id _ => ⟨⟨rfl, rfl⟩, fun _ _ hr => ⟨hr.ordered, hr.value, nofun⟩⟩
  have hset : Meets .ranging (modifyIdent i (·.setValue (.ofBytes []))) :=
    meets_rebind i fun _ => ⟨rfl, fun h => h, .inl rfl⟩
  have hannounced {m : Engine Unit} {s : Interp} (h : MeetsAt .ranging m s) :
      MeetsAt .ranging (do m; notify k i; modifyIdent i Ident.ended) s :=
    Meets.bindAt h fun _ s' _ => Meets.bind (meets_notify hk i) (fun _ => hended) s'
  refine fun s => Meets.identAtAt fun id hid => ?_
  split
  next ho =>
    split
    · split
      · exact hset.bind (fun _ => hended) s
      · exact hended s
    · exact hannounced (ranging_stores (storesAt_storeInt s i _) fun _ _ _ _ _ _ _ _ => nofun)
    · refine hannounced (ranging_stores (storesAt_storeFloat s i _) fun id' _ _ _ _ v hid' hr hv => ?_)
      cases hid.symm.trans hid'
      cases hv
      exact hr.before ho
    · exact hannounced (ranging_stores (storesAt_storeText s i _) fun _ _ _ _ _ _ _ _ => nofun)
    · exact hended s
  · exact Meets.pure _ s

end Writes

instance : Guarantee.ranging.Based where
  setValue i _ := meets_rebind i fun _ => ⟨rfl, fun h => h, .inl rfl⟩
  bodyOf i := meets_bodyOf_of fun _ _ => ranging_modify fun _ _ =>
    ⟨⟨rfl, rfl⟩, fun _ _ hr => ⟨hr.ordered, hr.value, hr.before⟩⟩
  setAlias := ranging_setAlias
  setIntVar hk i _ := ranging_write hk i (fun s => storesAt_storeInt s i _) fun _ _ _ _ _ _ => nofun
  setFloatVar hk i x := by
    refine ranging_write hk i (fun s => storesAt_storeFloat s i _) fun _ _ _ _ v hordered hv => ?_
    cases hv
    exact isBounded_clampFloat hordered x
  setTextVar hk i t := ranging_write hk i (fun s => storesAt_storeText s i t) fun _ _ _ _ _ _ => nofun
  clearOverride := ranging_clearOverride

section Hosts

variable {s s' : Interp} {ledger : Ledger} {i : Nat} {b id : Ident} {v : Value}
  {least greatest default : Single} {watch : Watch}

namespace Interp

/-- The interpreters in the course of executions that begin in one. -/
inductive During (s : Interp) : Interp → Prop
  | start : During s s
  | part {α : Type} {m : Engine α} {s' : Interp} (h : During s s') (hm : IsPart m) :
      During s (outcome m s').2
  /-- A call begins, and lets writes override if the alias is overridden. -/
  | enter {s' : Interp} (h : During s s') (overridden : Bool) : During s (s'.enterFlags overridden)

theorem During.keepsRanges (h : s.During s') : s.KeepsRanges s' := by
  induction h with
  | start => exact .of_table rfl rfl
  | part _ hm ih => exact ih.trans (hm .ranging inferInstance inferInstance _ trivial).1
  | enter _ overridden ih => exact ih.trans (.of_table rfl rfl)

theorem RangedAt.keeps (h : s.RangedAt i least greatest) (hk : s.KeepsRanges s')
    (hw : s'.WellWritten) : s'.RangedAt i least greatest := by
  obtain ⟨id, hid, hr⟩ := h
  obtain ⟨id', hid', -⟩ := hk.lasts.kept i id hid
  exact ⟨id', hid', hk.kept hw i id id' hid hid' least greatest hr⟩

end Interp

theorem Ident.Ranged.of_plain (hplain : id.flags.overridden = false)
    (hrole : id.role = .floatVar least greatest default watch) (hleast : least.le default = true)
    (hgreatest : default.le greatest = true) : id.Ranged least greatest := by
  refine ⟨Single.le_trans hleast hgreatest, ⟨default, watch, hrole, fun _ => ⟨hleast, hgreatest⟩⟩,
    fun ho => ?_⟩
  rw [hplain] at ho
  cases ho

/-- Whatever a well-behaved host asks for, a float variable that began in its range is there. -/
theorem Interp.Hosted.rangedAt (h : Hosted .layout ledger s) (hw : Within .layout s)
    (hb : ledger i = some (b, v)) (hrole : b.role = .floatVar least greatest default watch)
    (hleast : least.le default = true) (hgreatest : default.le greatest = true) :
    s.RangedAt i least greatest := by
  induction h generalizing i b v with
  | new =>
      obtain ⟨id, hid, heq⟩ := Option.map_eq_some_iff.mp hb
      cases heq
      have hplain := of_get?_new (p := fun id => !id.flags.overridden) (by decide) hid
      exact ⟨b, hid, .of_plain ((Bool.not_eq_true' _).mp hplain) hrole hleast hgreatest⟩
  | @move ledger s hs m hm ih =>
      have hwell := (hs.move m hm).wellWritten hw
      have hbefore := hw.of_grows (m.rests (r := .layout) s).1
      rcases m.progresses (G := .ranging) (s := s) trivial fun _ _ => .of_table rfl rfl with
        ⟨hk, henter⟩ | ⟨id₀, i₀, hid₀, hok, henter⟩
      · rw [henter] at hb
        exact (ih hbefore hb hrole).keeps hk hwell
      · obtain ⟨-, hget, -⟩ := Interp.register_ok hok
        rw [henter] at hb
        dsimp only at hb
        split at hb
        next hi =>
          subst hi
          obtain ⟨id, hid, heq⟩ := Option.map_eq_some_iff.mp hb
          cases heq
          rw [hget, if_pos rfl] at hid
          cases hid
          refine ⟨_, by rw [hget, if_pos rfl], .of_plain ?_ hrole hleast hgreatest⟩
          exact (congrArg Flags.overridden hid₀.flags).symm
        next hi =>
          obtain ⟨id, hid, hr⟩ := ih hbefore hb hrole
          exact ⟨id, by rw [hget, if_neg hi, hid], hr⟩

/-- Float variables stay in their ranges, but for not-a-number. In every interpreter that a
well-behaved host can have, and wherever its executions are if only aliases were written as aliases
are, a float variable that was registered in its range is in it or is not-a-number, and so is the number
that comes back when its override ends. A write of any number stores one of the range, and not-a-number
exactly if that was written. -/
theorem float_variables_stay_in_range (h : Interp.Hosted .layout ledger s) (hw : Within .layout s)
    (hb : ledger i = some (b, v)) (hrole : b.role = .floatVar least greatest default watch)
    (hleast : least.le default = true) (hgreatest : default.le greatest = true) :
    s.RangedAt i least greatest ∧ ∀ s', s.During s' → s'.WellWritten →
      s'.RangedAt i least greatest ∧ ∀ x : Single, ∃ id id' y s'',
        outcome (storeFloat i fun least greatest => clampFloat least greatest x) s' = (.ok ⟨⟩, s'') ∧
        s'.Stores i id id' (.float y) s'' ∧ y.isNaN = x.isNaN ∧
        (x.isNaN = false → least.le y = true ∧ y.le greatest = true) := by
  have hat := h.rangedAt hw hb hrole hleast hgreatest
  refine ⟨hat, fun s' hd hwell => ?_⟩
  have hat' := hat.keeps hd.keepsRanges hwell
  refine ⟨hat', fun x => ?_⟩
  obtain ⟨id, hid, hr⟩ := hat'
  obtain ⟨_, _, hrole', -⟩ := hr.value
  rcases storesAt_storeFloat s' i fun least greatest => clampFloat least greatest x with
    ⟨hnone, -⟩ | ⟨id₁, id', w, s'', hw, hok, hst⟩
  · have hchosen := hnone id hid
    rw [hrole'] at hchosen
    cases hchosen
  · cases hid.symm.trans hst.found
    rw [hrole'] at hw
    cases hw
    have hnan := isNaN_clampFloat hr.ordered x
    refine ⟨id, id', _, s'', hok, hst, hnan, fun hx => ?_⟩
    exact isBounded_clampFloat hr.ordered x (hnan.trans hx)

/-- One. -/
def Single.one : Single := ⟨0x3F800000⟩

/-- A host that lets writes override, and a script that writes not-a-number. -/
def floatHost : Interp :=
  (Move.request (.execute (utf8 "v nan"))).perform
    ((Move.request (.setOverrideMode true)).perform
      ((Move.request (.registerFloat (utf8 "v") .one .one .one {} .none)).perform .new))

set_option maxRecDepth 100000 in
private theorem run_floatHost :
    (floatHost.compiled, fitsWords ((Move.request (.setOverrideMode true)).perform
        ((Move.request (.registerFloat (utf8 "v") .one .one .one {} .none)).perform .new)).table
        (utf8 "v nan") [],
      (Move.request (.registerFloat (utf8 "v") .one .one .one {} .none)).enter .new
        Interp.new.entries 121,
      (floatHost.table.get? 121).any fun id =>
        id.flags.overridden && (floatHost.valueOf id).toSingle.isNaN) =
    (fun t src name => False ∨
      (t = ((Move.request (.setOverrideMode true)).perform
        ((Move.request (.registerFloat (utf8 "v") .one .one .one {} .none)).perform .new)).table ∧
        src = utf8 "v nan" ∧ name = []),
      true, some ({
        name := utf8 "v"
        role := .floatVar .one .one .one .none
        flags := ({} : Flags).forRegistration }, .float .one), true) := by
  with_unfolding_all rfl

/-- The variable is overridden and not-a-number; a number that is written next is stored in the range. -/
theorem float_variables_stay_in_range_overriding : ∃ ledger b v,
    Interp.Hosted .layout ledger floatHost ∧ Within .layout floatHost ∧ floatHost.WellWritten ∧
    ledger 121 = some (b, v) ∧ b.role = .floatVar .one .one .one .none ∧
    Single.one.le .one = true ∧
    (∃ id, floatHost.table.get? 121 = some id ∧ id.flags.overridden = true ∧
      (floatHost.valueOf id).toSingle.isNaN = true ∧ id.Ranged .one .one) ∧
    ∃ id id' y s', floatHost.Stores 121 id id' (.float y) s' ∧ Single.one.le y = true ∧
      y.le .one = true := by
  obtain ⟨hw, hchecked⟩ := Within.of_run (r := .layout) run_floatHost
  obtain ⟨hb, hsome⟩ := Prod.mk.inj hchecked
  have h := ((Interp.Hosted.new.move (r := .layout)
    (.request (.registerFloat (utf8 "v") .one .one .one {} .none)) trivial).move
      (.request (.setOverrideMode true)) trivial).move (.request (.execute (utf8 "v nan"))) trivial
  have hone : Single.one.le .one = true := by decide
  have hwell := h.wellWritten hw
  obtain ⟨⟨id, hid, hr⟩, hduring⟩ := float_variables_stay_in_range h hw hb rfl hone hone
  obtain ⟨id₂, hid₂, hboth⟩ := (Option.any_eq_true _ _).mp hsome
  cases hid.symm.trans hid₂
  obtain ⟨ho, hnan⟩ := Bool.and_eq_true_iff.mp hboth
  obtain ⟨id₁, id', y, s', -, hst, -, hin⟩ := (hduring _ .start hwell).2 Single.zero
  exact ⟨_, _, _, h, hw, hwell, hb, rfl, hone, ⟨id, hid, ho, hnan, hr⟩, id₁, id', y, s', hst,
    hin (by decide)⟩

end Hosts

end ConsoleScript
