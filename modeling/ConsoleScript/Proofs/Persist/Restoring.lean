import ConsoleScript.Proofs.Number.Numerals
import ConsoleScript.Proofs.Persist.Archives
import ConsoleScript.Proofs.Persist.Collecting
import ConsoleScript.Proofs.Writes.Overrides

/-!
Snapshots that are loaded. Where writes do not override and no program of the host watches, loading a
snapshot gives every identifier in it the text back that it was saved with, whatever has been executed,
called and written in between, and leaves all other identifiers as they are.
-/

namespace ConsoleScript

open Bytecode Engine

section Entries

variable {k : Runner} {s s' s'' : Interp} {i : Nat} {id id' id'' : Ident} {e : Entry}

/-- One identifier takes another form, and nothing else changes that identifiers depend on. -/
structure Interp.Puts (i : Nat) (id' : Ident) (s s' : Interp) : Prop where
  table : ∀ j, s'.table.get? j = if i = j then some id' else s.table.get? j
  cells : ∀ c, s'.cell c = s.cell c
  mode : { s'.writeFlags with persist := s.writeFlags.persist } = s.writeFlags
  inStep : s.writeFlags.persist = (s.persistence != 0) →
    s'.writeFlags.persist = (s'.persistence != 0)

/-- Aliases are written without flags, but for whether they persist. -/
def Interp.WritesPlain (s : Interp) : Prop := { s.writeFlags with persist := false } = {}

/-- Writes to a variable neither are overrides nor end one. -/
def Flags.IsPlain (f : Flags) : Prop := f.override = false ∧ f.overridden = false

/-- Writing the value of an entry to an identifier gives the identifier the text of the entry. Floats
are only as near to it as their texts tell. -/
inductive Entry.Suits (e : Entry) (i : Nat) (id : Ident) : Prop
  | alias (hrole : id.role = .alias) (hi : maxArgs ≤ i)
  | int {least greatest w v : Int32} {watch : Watch}
      (hrole : id.role = .intVar least greatest (.own w) watch) (hplain : id.flags.IsPlain)
      (hv : least ≤ v ∧ v ≤ greatest) (htext : e.value = Interp.intText id.flags.hex greatest v)
  | float {least greatest x : Single} {watch : Watch}
      (hrole : id.role = .floatVar least greatest x watch) (hplain : id.flags.IsPlain)
  | text {t : Bytes} {watch : Watch} (hrole : id.role = .textVar t watch)
      (hplain : id.flags.IsPlain)

/-- Writing a value to an identifier of a role is writing a text to it: the value is the text or, for an
integer variable, the number that is read from it. -/
def Value.Spells (v : Value) (s : Bytes) : Role → Prop
  | .intVar .. => v.toInt = Reading.int s
  | .textVar .. | .alias => v.toBytes = s
  | _ => True

theorem Value.spells_ofBytes (s : Bytes) (role : Role) : (Value.ofBytes s).Spells s role := by
  cases role <;> first | rfl | trivial

/-- A variable keeps taking the text of an entry while it keeps its flags. -/
theorem Entry.Suits.like (h : e.Suits i id) (hlike : id.Like id') (hhex : id'.flags.hex = id.flags.hex)
    (hplain : id.role.isVar = true → id'.flags.IsPlain) : e.Suits i id' := by
  have hrole' := hlike.2
  cases h with
  | «alias» hrole hi => exact .alias (hlike.alias_iff.mpr hrole) hi
  | int hrole _ hv htext =>
      rw [hrole] at hrole' hplain
      have hplain := hplain rfl
      cases hrole₂ : id'.role with
      | intVar least greatest store watch =>
          rw [hrole₂] at hrole'
          cases store with
          | own w =>
              cases hrole'
              exact .int hrole₂ hplain hv (hhex ▸ htext)
          | shared => cases hrole'
      | _ =>
          rw [hrole₂] at hrole'
          cases hrole'
  | float hrole =>
      rw [hrole] at hrole' hplain
      have hplain := hplain rfl
      cases hrole₂ : id'.role with
      | floatVar => exact .float hrole₂ hplain
      | intVar least greatest store watch =>
          rw [hrole₂] at hrole'
          cases store <;> cases hrole'
      | _ =>
          rw [hrole₂] at hrole'
          cases hrole'
  | text hrole =>
      rw [hrole] at hrole' hplain
      have hplain := hplain rfl
      cases hrole₂ : id'.role with
      | textVar => exact .text hrole₂ hplain
      | intVar least greatest store watch =>
          rw [hrole₂] at hrole'
          cases store <;> cases hrole'
      | _ =>
          rw [hrole₂] at hrole'
          cases hrole'

/-- An entry can be written back to an identifier. -/
structure Interp.Receives (s : Interp) (e : Entry) (i : Nat) (id : Ident) : Prop where
  found : s.table.get? i = some id
  name : id.name = e.name
  kind : e.kind = utf8 id.role.kindName
  readOnly : id.flags.readOnly = false
  suits : e.Suits i id

/-- An identifier has the text of an entry. -/
structure Interp.Restored (s : Interp) (e : Entry) (i : Nat) (id : Ident) : Prop where
  found : s.table.get? i = some id
  name : id.name = e.name
  text : e.kind ≠ utf8 "fvar" → s.textOf id = e.value

namespace Interp

theorem Puts.get? (h : Puts i id' s s') : s'.table.get? i = some id' := by
  rw [h.table, if_pos rfl]

theorem Puts.lasts (h : Puts i id' s s') (hid : s.table.get? i = some id) (hlike : id.Like id') :
    s.table.Lasts s'.table := by
  refine ⟨fun j old hold => ?_, fun j id₂ hnone hid₂ => ?_⟩
  · rw [h.table]
    split
    next hj =>
      subst hj
      cases hid.symm.trans hold
      exact ⟨id', rfl, hlike⟩
    · exact ⟨old, hold, .refl old⟩
  · rw [h.table] at hid₂
    split at hid₂
    next hj =>
      rw [← hj, hid] at hnone
      cases hnone
    next =>
      rw [hnone] at hid₂
      cases hid₂

theorem textOf_of_cells (hc : ∀ c, s'.cell c = s.cell c) (id : Ident) : s'.textOf id = s.textOf id := by
  unfold textOf
  split
  next store _ _ =>
    cases store with
    | own => rfl
    | shared c => exact congrArg _ (hc c)
  all_goals rfl

theorem WritesPlain.puts (h : s.WritesPlain) (hp : s.Puts i id' s') : s'.WritesPlain :=
  (congrArg (fun f : Flags => { f with persist := false }) hp.mode :).trans h

theorem WritesPlain.readOnly (h : s.WritesPlain) : s.writeFlags.readOnly = false :=
  (congrArg Flags.readOnly h :)

end Interp

private theorem outcome_admits (hid : s.table.get? i = some id) (hopen : id.flags.readOnly = false)
    (hplain : id.flags.IsPlain) (hmode : s.WritesPlain) :
    outcome (admits i) s = (.ok true, s) := by
  have hmode : s.writeFlags.overridden = false := (congrArg Flags.overridden hmode :)
  rw [admits, outcome_bind_ok (outcome_identAt hid), hopen, if_neg Bool.false_ne_true, override,
    outcome_bind_ok (outcome_get s), hmode, hplain.1, hplain.2]
  rfl

/-- A value is stored in a variable that takes it, and no program of the host hears of it. -/
theorem outcome_written {m : Engine Unit} {role : Role} (hu : s.Unwatched) (hmode : s.WritesPlain)
    (hid : s.table.get? i = some id) (hopen : id.flags.readOnly = false)
    (hplain : id.flags.IsPlain) (hrole : role.emptied = id.role.emptied)
    (hm : outcome m s = (.ok ⟨⟩, s.modifyIdent i fun id => { id with role })) :
    ∃ s', outcome (do if ← admits i then m; notify k i) s = (.ok ⟨⟩, s') ∧
      s.Puts i { id with role } s' := by
  have hput : s.Puts i { id with role } (s.modifyIdent i fun id => { id with role }) := by
    refine ⟨fun j => ?_, fun c => by cases c <;> rfl, rfl, fun h => h⟩
    rw [Interp.modifyIdent, Table.get?_modify]
    split
    next hj =>
      rw [← hj, hid]
      rfl
    · rfl
  have hlasts := hput.lasts hid ⟨rfl, hrole⟩
  obtain ⟨s', hok, hs'⟩ := outcome_notify_unwatched (k := k) (hu.lasts hlasts) hput.get?
  refine ⟨s', ?_, ?_⟩
  · rw [outcome_bind_ok (outcome_admits hid hopen hplain hmode)]
    exact (outcome_bind_ok hm _).trans hok
  · rcases hs' with rfl | rfl
    · exact hput
    · exact ⟨hput.table, fun c => (by cases c <;> rfl : _ = _).trans (hput.cells c), rfl, fun _ => rfl⟩

private theorem clampInt_of_mem {least greatest v : Int32} (h : least ≤ v ∧ v ≤ greatest) :
    clampInt least greatest v = v := by
  unfold clampInt
  rw [if_neg (Int32.not_lt.mpr h.1), if_neg (Int32.not_lt.mpr h.2)]

/-- The text of an entry is written to its identifier. A variable keeps its flags; an alias then has the
flags of writes. -/
theorem outcome_assign_entry {v : Value} (hu : s.Unwatched) (hmode : s.WritesPlain)
    (h : s.Receives e i id) (hv : v.Spells e.value id.role) :
    ∃ id' s', outcome (assign k i v) s = (.ok ⟨⟩, s') ∧ s.Puts i id' s' ∧ id.Like id' ∧
      s'.Receives e i id' ∧ s'.Restored e i id' ∧ (id.role.isVar = true → id'.flags = id.flags) ∧
      (id.role = .alias → id'.value = v ∧ id'.flags = s.writeFlags) := by
  rw [assign, outcome_bind_ok (outcome_identAt h.found)]
  cases h.suits with
  | «alias» hrole hi =>
      rw [hrole] at hv ⊢
      dsimp only
      rw [if_neg (Nat.not_lt.mpr hi), setAlias, outcome_bind_ok (outcome_get s)]
      have hput : s.Puts i { id.setValue v with flags := s.writeFlags }
          ((s.addWrite i s.writeFlags).modifyIdent i fun id =>
            { id.setValue v with flags := s.writeFlags }) := by
        refine ⟨fun j => ?_, fun c => by cases c <;> rfl, rfl, fun h => h⟩
        rw [Interp.modifyIdent, Table.get?_modify]
        split
        next hj =>
          rw [← hj]
          exact congrArg (Option.map _) h.found
        · rfl
      refine ⟨_, _, rfl, hput, ⟨rfl, rfl⟩, ⟨hput.get?, h.name, h.kind, hmode.readOnly, .alias hrole hi⟩,
        ⟨hput.get?, h.name, fun _ => ?_⟩, fun hvar => absurd hvar Bool.false_ne_true,
        fun _ => ⟨rfl, rfl⟩⟩
      rw [Interp.textOf]
      dsimp only [Ident.setValue]
      rw [hrole]
      exact hv
  | @int least greatest w n watch hrole hplain hn htext =>
      have hread : v.toInt = n := by
        rw [hrole] at hv
        rw [show v.toInt = Reading.int e.value from hv, htext]
        exact int_intText _ _ _
      have hstore : outcome (storeInt i fun least greatest => clampInt least greatest n) s =
          (.ok ⟨⟩, s.modifyIdent i fun id =>
            { id with role := .intVar least greatest (.own n) watch }) := by
        rw [storeInt, outcome_bind_ok (outcome_identAt h.found), hrole]
        dsimp only
        rw [clampInt_of_mem hn]
        rfl
      obtain ⟨s', hok, hput⟩ := outcome_written (k := k) hu hmode h.found h.readOnly hplain
        (by rw [hrole]; rfl) hstore
      rw [hrole]
      dsimp only
      rw [hread]
      refine ⟨_, s', hok, hput, ⟨rfl, by rw [hrole]; rfl⟩, ⟨hput.get?, h.name, ?_, h.readOnly,
        .int rfl hplain hn htext⟩, ⟨hput.get?, h.name, fun _ => htext.symm⟩, fun _ => rfl, Role.noConfusion⟩
      rw [h.kind, hrole]
      rfl
  | @float least greatest x watch hrole hplain =>
      let x' := clampFloat least greatest v.toSingle
      have hstore : outcome (storeFloat i fun least greatest =>
          clampFloat least greatest v.toSingle) s =
          (.ok ⟨⟩, s.modifyIdent i fun id =>
            { id with role := .floatVar least greatest x' watch }) := by
        rw [storeFloat, outcome_bind_ok (outcome_identAt h.found), hrole]
        rfl
      obtain ⟨s', hok, hput⟩ := outcome_written (k := k) hu hmode h.found h.readOnly hplain
        (by rw [hrole]; rfl) hstore
      have hkind : e.kind = utf8 "fvar" := by
        rw [h.kind, hrole]
        rfl
      rw [hrole]
      exact ⟨_, s', hok, hput, ⟨rfl, by rw [hrole]; rfl⟩,
        ⟨hput.get?, h.name, hkind, h.readOnly, .float rfl hplain⟩,
        ⟨hput.get?, h.name, fun hno => absurd hkind hno⟩, fun _ => rfl, Role.noConfusion⟩
  | @text t watch hrole hplain =>
      have hbytes : v.toBytes = e.value := by
        rw [hrole] at hv
        exact hv
      have hstore : outcome (storeText i v.toBytes) s =
          (.ok ⟨⟩, s.modifyIdent i fun id => { id with role := .textVar e.value watch }) := by
        rw [storeText, outcome_bind_ok (outcome_identAt h.found), hrole, hbytes]
        rfl
      obtain ⟨s', hok, hput⟩ := outcome_written (k := k) hu hmode h.found h.readOnly hplain
        (by rw [hrole]; rfl) hstore
      rw [hrole]
      refine ⟨_, s', hok, hput, ⟨rfl, by rw [hrole]; rfl⟩, ⟨hput.get?, h.name, ?_, h.readOnly,
        .text rfl hplain⟩, ⟨hput.get?, h.name, fun _ => rfl⟩, fun _ => rfl, Role.noConfusion⟩
      rw [h.kind, hrole]
      rfl

/-- An entry is written back. -/
theorem outcome_restore (hu : s.Unwatched) (hmode : s.WritesPlain) (hd : s.table.Distinct)
    (h : s.Receives e i id) :
    ∃ id' s', outcome (Entry.restore e) s = (.ok ⟨⟩, s') ∧ s.Puts i id' s' ∧ id.Like id' ∧
      s'.Receives e i id' ∧ s'.Restored e i id' := by
  have hlookup : s.table.lookup? e.name = some (i, id) := (hd.lookup e.name i id).mpr ⟨h.found, h.name⟩
  obtain ⟨id', s', hok, hput, hlike, hagain, hrestored, -, -⟩ :=
    outcome_assign_entry (k := run s.maxDepth.toNat) hu hmode h (Value.spells_ofBytes _ _)
  refine ⟨id', s', ?_, hput, hlike, hagain, hrestored⟩
  have hkind : id.role.isVar = true ∨ id.role = .alias := by
    cases h.suits with
    | «alias» hrole => exact .inr hrole
    | int hrole | float hrole | text hrole => exact .inl (by rw [hrole]; rfl)
  have hset : outcome (setValue e.name (.ofBytes e.value)) s = (.ok (.ok ⟨⟩), s') := by
    rw [setValue, outcome_runner, outcome_bind_ok (outcome_get s), hlookup]
    dsimp only
    have hwritten : (id.role.isVar || id.role.isAlias) = true := by
      rcases hkind with hvar | hrole
      · rw [hvar, Bool.true_or]
      · rw [hrole]
        rfl
    rw [h.readOnly, if_neg Bool.false_ne_true, if_pos hwritten]
    exact outcome_bind_ok hok _
  have hthere : (e.kind == utf8 "alias" || id.role.isVar) = true := by
    rcases hkind with hvar | hrole
    · rw [hvar, Bool.or_true]
    · rw [h.kind, hrole]
      rfl
  rw [Entry.restore, outcome_bind_ok (outcome_get s), hlookup]
  dsimp only
  rw [if_pos hthere]
  exact outcome_bind_ok hset _

/-- Entries are written back, each to its identifier. -/
theorem outcome_restore_forM (entries : List Entry) (hu : s.Unwatched) (hmode : s.WritesPlain)
    (hd : s.table.Distinct) (h : ∀ e ∈ entries, ∃ i id, s.Receives e i id)
    (hnames : ∀ e ∈ entries, ∀ e' ∈ entries, e.name = e'.name → e = e') :
    ∃ s', outcome (entries.forM Entry.restore) s = (.ok ⟨⟩, s') ∧
      (∀ c, s'.cell c = s.cell c) ∧
      (∀ e ∈ entries, ∃ i id, s'.Restored e i id) ∧
      ∀ i, (∀ e ∈ entries, ∀ id, s.table.get? i = some id → e.name ≠ id.name) →
        s'.table.get? i = s.table.get? i := by
  induction entries generalizing s with
  | nil => exact ⟨s, rfl, fun _ => rfl, nofun, fun _ _ => rfl⟩
  | cons e entries ih =>
      obtain ⟨i, id, hat⟩ := h e List.mem_cons_self
      obtain ⟨id', s₁, hok, hput, hlike, hagain, hrestored⟩ := outcome_restore hu hmode hd hat
      have hlasts := hput.lasts hat.found hlike
      -- An identifier that is not the one of this entry is as before.
      have hback {j : Nat} {e' : Entry} {id₂ : Ident} (hj : i ≠ j) (h : s.Receives e' j id₂) :
          s₁.Receives e' j id₂ :=
        ⟨by rw [hput.table, if_neg hj, h.found], h.name, h.kind, h.readOnly, h.suits⟩
      have hreceives (e' : Entry) (he' : e' ∈ entries) : ∃ j id₂, s₁.Receives e' j id₂ := by
        obtain ⟨j, id₂, hj⟩ := h e' (List.mem_cons_of_mem e he')
        by_cases hij : i = j
        · subst hij
          cases hat.found.symm.trans hj.found
          cases hnames e List.mem_cons_self e' (List.mem_cons_of_mem e he')
            (hat.name.symm.trans hj.name)
          exact ⟨i, id', hagain⟩
        · exact ⟨j, id₂, hback hij hj⟩
      obtain ⟨s', hok', hcells, hall, hothers⟩ := ih (hu.lasts hlasts) (hmode.puts hput)
        (hlasts.distinct hd) hreceives fun e₁ h₁ e₂ h₂ =>
          hnames e₁ (List.mem_cons_of_mem e h₁) e₂ (List.mem_cons_of_mem e h₂)
      refine ⟨s', ?_, fun c => (hcells c).trans (hput.cells c), fun e' he' => ?_, fun j hj => ?_⟩
      · exact (outcome_bind_ok hok _).trans hok'
      · rcases List.mem_cons.mp he' with rfl | he'
        · by_cases hin : e' ∈ entries
          · exact hall e' hin
          · refine ⟨i, id', ?_, hrestored.name, fun hkind => ?_⟩
            · rw [hothers i fun e₂ h₂ id₂ hid₂ hname => ?_]
              · exact hput.get?
              · cases hput.get?.symm.trans hid₂
                rw [hrestored.name] at hname
                exact hin (hnames e₂ (List.mem_cons_of_mem e' h₂) e' List.mem_cons_self hname ▸ h₂)
            · rw [Interp.textOf_of_cells hcells]
              exact hrestored.text hkind
        · exact hall e' he'
      · have hij : i ≠ j := by
          rintro rfl
          exact hj e List.mem_cons_self id hat.found hat.name.symm
        rw [hothers j fun e₂ h₂ id₂ hid₂ => ?_, hput.table, if_neg hij]
        rw [hput.table, if_neg hij] at hid₂
        exact hj e₂ (List.mem_cons_of_mem e h₂) id₂ hid₂

end Entries

section Histories

variable {r : Rigour} {s s₁ s₂ : Interp} {ledger : Ledger} {i : Nat} {id : Ident}
  {store : SnapshotStore} {label key key' : Bytes} {now : Nat}

namespace Interp

/-- What a well-behaved host makes of an interpreter without registering anything. -/
inductive Proceeds (r : Rigour) (s : Interp) : Interp → Prop
  | refl : Proceeds r s s
  | move {s' : Interp} (h : Proceeds r s s') (m : Move) (hm : m.Allowed r s')
      (hr : m.registers = false) : Proceeds r s (m.perform s')

/-- Variables are not watched by the host and not always overridden, and those that persist began in
their ranges. -/
structure Ordinary (ledger : Ledger) (s : Interp) : Prop where
  unwatched : s.Unwatched
  inRange : ∀ i b v, ledger i = some (b, v) → b.flags.persist = true → b.role.Contains v.toInt
  plain : ∀ i id, s.table.get? i = some id → id.role.isVar = true → id.flags.override = false

theorem Proceeds.hosted (h : Proceeds r s s₁) (hs : Hosted r ledger s) : Hosted r ledger s₁ := by
  induction h with
  | refl => exact hs
  | move _ m hm hr ih =>
      refine ih.ran m hm ?_
      cases m with
      | request q => cases q <;> first | rfl | cases hr
      | _ => rfl

theorem Proceeds.lasts (h : Proceeds r s s₁) : s.table.Lasts s₁.table := by
  induction h with
  | refl => exact .refl _
  | @move s' _ m _ hr ih =>
      rcases m.effect s' with hlasts | ⟨htrue, -⟩
      · exact ih.trans hlasts
      · exact absurd (hr.symm.trans htrue) Bool.false_ne_true

theorem Proceeds.within (h : Proceeds r s s₁) (hw : Within r s₁) : Within r s := by
  induction h with
  | refl => exact hw
  | @move s' _ m _ _ ih => exact ih (hw.of_grows (m.rests (r := r) s').1)

private theorem exists_of_intVar {least greatest : Int32} {store : IntStore} {watch : Watch}
    (hrole : id.role = .intVar least greatest store watch) (hc : id.role.cell? = none) :
    ∃ w, store = .own w ∧ s.valueOf id = .int w ∧
      s.textOf id = intText id.flags.hex greatest w := by
  cases store with
  | own w => exact ⟨w, rfl, by rw [valueOf, hrole]; rfl, by rw [textOf, hrole]; rfl⟩
  | shared c =>
      rw [hrole] at hc
      cases hc

theorem Hosted.isKept_of_saves (h : Hosted .layout ledger s) (hw : Within .layout s)
    (hid : s.table.get? i = some id) (hsaved : s.Saves id) (hvar : id.role.isVar = true) :
    id.role.isKept = true := by
  cases hshows : id.role.showsCallArgs with
  | true => exact absurd ((h.holds_callArgs hw hid hshows).1.symm.trans hsaved.readOnly) (by decide)
  | false =>
      rw [Role.isKept, hvar, hshows]
      rfl

/-- Writing its text to an identifier that is saved gives it the text, if it is a variable that began in
its range and takes writes that are no overrides. -/
theorem Hosted.suits (h : Hosted .layout ledger s) (hw : Within .layout s)
    (hin : ∀ i b v, ledger i = some (b, v) → b.flags.persist = true → b.role.Contains v.toInt)
    (hid : s.table.get? i = some id) (hsaved : s.Saves id)
    (hplain : id.role.isVar = true → id.flags.override = false) : (s.entryOf id).Suits i id := by
  rcases hsaved.holds with hvar | ⟨hrole, -⟩
  · have hplain : id.flags.IsPlain := ⟨hplain hvar, hsaved.overridden⟩
    obtain ⟨b, v, hb⟩ := h.orderly.listed i id hid hvar
    obtain ⟨id₁, hid₁, hlike⟩ := h.orderly.entered i b v hb
    cases hid.symm.trans hid₁
    obtain ⟨id₁, hid₁, hheld⟩ :=
      h.holds hw hb (hlike.isKept.symm.trans (h.isKept_of_saves hw hid hsaved hvar))
    cases hid.symm.trans hid₁
    have hcell : id.role.cell? = none := by
      rw [hlike.cell?]
      refine Option.not_isSome_iff_eq_none.mp fun hc => ?_
      have hpersist := h.orderly.cells i b v hb hc
      rw [← hheld.flags.persist, hsaved.persist] at hpersist
      cases hpersist
    have hin := (hheld.inRange
      (hin i b v hb (hheld.flags.persist.symm.trans hsaved.persist))).value
    cases hrole : id.role with
    | intVar least greatest store watch =>
        obtain ⟨w, rfl, hvalue, htext⟩ := exists_of_intVar (s := s) hrole hcell
        rw [hrole, hvalue] at hin
        exact .int hrole hplain hin htext
    | floatVar => exact .float hrole hplain
    | textVar => exact .text hrole hplain
    | command | control | «alias» =>
        rw [hrole] at hvar
        cases hvar
  · exact .alias hrole (h.le_of_unmarked hw hid hrole hsaved.arg)

theorem Hosted.receives (h : Hosted .layout ledger s) (hord : s.Ordinary ledger)
    (hw : Within .layout s) (hid : s.table.get? i = some id) (hsaved : s.Saves id) :
    s.Receives (s.entryOf id) i id :=
  ⟨hid, rfl, rfl, hsaved.readOnly, h.suits hw hord.inRange hid hsaved (hord.plain i id hid)⟩

/-- It can be written back later, as long as nothing is registered. -/
theorem Hosted.receives_later (h : Hosted .layout ledger s) (hord : s.Ordinary ledger)
    (hp : Proceeds .layout s s₂) (hw : Within .layout s₂) (hid : s.table.get? i = some id)
    (hsaved : s.Saves id) : ∃ id₂, id.Like id₂ ∧ s₂.Receives (s.entryOf id) i id₂ := by
  obtain ⟨id₂, hid₂, hlike⟩ := hp.lasts.kept i id hid
  have h₂ := hp.hosted h
  have hws := hp.within hw
  have hat := h.receives hord hws hid hsaved
  have hkind : id₂.role.kindName = id.role.kindName := by
    rw [← Role.kindName_emptied, hlike.2, Role.kindName_emptied]
  suffices hopen : id₂.flags.readOnly = false ∧ (s.entryOf id).Suits i id₂ from
    ⟨id₂, hlike, hid₂, hlike.1, by rw [hat.kind, hkind], hopen.1, hopen.2⟩
  rcases hsaved.holds with hvar | ⟨hrole, -⟩
  · -- The variable has the flags that it was registered with, now as then.
    have hkept := h.isKept_of_saves hws hid hsaved hvar
    obtain ⟨b, v, hb⟩ := h.orderly.listed i id hid hvar
    obtain ⟨id₁, hid₁, hlike₁⟩ := h.orderly.entered i b v hb
    cases hid.symm.trans hid₁
    have hkept' := hlike₁.isKept.symm.trans hkept
    obtain ⟨id₁, hid₁, hheld⟩ := h.holds hws hb hkept'
    cases hid.symm.trans hid₁
    obtain ⟨id₃, hid₃, hheld₂⟩ := h₂.holds hw hb hkept'
    cases hid₂.symm.trans hid₃
    have hpersist : id₂.flags.persist = true :=
      hheld₂.flags.persist.trans (hheld.flags.persist.symm.trans hsaved.persist)
    have hplain : id₂.flags.IsPlain := by
      refine ⟨hheld₂.flags.override.trans (hheld.flags.override.symm.trans (hord.plain i id hid hvar)), ?_⟩
      refine Bool.eq_false_iff.mpr fun ho => ?_
      rw [hheld₂.sound.persist ho] at hpersist
      cases hpersist
    exact ⟨hheld₂.flags.readOnly.trans (hheld.flags.readOnly.symm.trans hsaved.readOnly),
      hat.suits.like hlike (hheld₂.flags.hex.trans hheld.flags.hex.symm) fun _ => hplain⟩
  · have hrole₂ := hlike.alias_iff.mpr hrole
    exact ⟨h₂.orderly.writable i id₂ hid₂ hrole₂,
      .alias hrole₂ (h.le_of_unmarked hws hid hrole hsaved.arg)⟩

theorem Proceeds.trans (h : Proceeds r s s₁) (h' : Proceeds r s₁ s₂) : Proceeds r s s₂ := by
  induction h' with
  | refl => exact h
  | move _ m hm hr ih => exact .move ih m hm hr

theorem Hosted.arises (h : Hosted r ledger s) : Arises s := by
  induction h with
  | new => exact .new
  | move _ m _ ih => exact ih.move m

theorem Orderly.writesPlain (h : s.Orderly ledger) (hmode : s.writeFlags.overridden = false) :
    s.WritesPlain := by
  have hsame : { s.writeFlags with persist := false } =
      { s.writeFlags with persist := false, overridden := false } := by
    dsimp only
    rw [hmode]
  exact hsame.trans h.mode

theorem Saves.isFloat (h : s.Saves id) (hkind : (s.entryOf id).kind = utf8 "fvar") :
    id.role.kindName = "fvar" := by
  have hkind : utf8 id.role.kindName = utf8 "fvar" := hkind
  have hholds := h.holds.imp_right And.left
  generalize id.role = role at hholds hkind ⊢
  cases role with
  | floatVar => rfl
  | intVar => exact absurd hkind (show utf8 "var" ≠ utf8 "fvar" by decide)
  | textVar => exact absurd hkind (show utf8 "svar" ≠ utf8 "fvar" by decide)
  | «alias» => exact absurd hkind (show utf8 "alias" ≠ utf8 "fvar" by decide)
  | command | control => rcases hholds with h | h <;> cases h

end Interp

/-- Loading a snapshot where writes do not override succeeds. It gives every integer variable, text
variable and alias in it the text that it had when the snapshot was saved, whatever was done in between
without registering anything, and leaves every identifier that is not in it as it is. The store has to
keep what is saved in it, and the id of the snapshot to be a new one. -/
theorem snapshots_restore (hlawful : store.Lawful) (h : Interp.Hosted .layout ledger s)
    (hord : s.Ordinary ledger) (hfresh : store.Fresh s.disk key)
    (hsave : outcome (store.save key label now) s = (.ok (.ok key'), s₁))
    (hp : Interp.Proceeds .layout s₁ s₂) (hw : Within .layout s₂)
    (hmode : s₂.writeFlags.overridden = false)
    (hstore : ∀ entries, store.Has s₁.disk key entries → store.Has s₂.disk key entries) :
    ∃ s₃, outcome (store.load key') s₂ = (.ok (.ok ⟨⟩), s₃) ∧
      (∀ i id, s.table.get? i = some id → s.isSaved id = true → id.role.kindName ≠ "fvar" →
        ∃ id', s₃.table.get? i = some id' ∧ id'.name = id.name ∧ s₃.textOf id' = s.textOf id) ∧
      ∀ i id, s₂.table.get? i = some id → (∀ e ∈ s.collect, e.name ≠ id.name) →
        s₃.table.get? i = some id ∧ s₃.valueOf id = s₂.valueOf id := by
  have hd : s.table.Distinct := h.arises.intact.distinct
  obtain ⟨rfl, hhas⟩ := hlawful.has_save hfresh (Interp.nodup_names_collect hd) hsave
  have hsaved : (Move.save store key' label now).perform s = s₁ := by
    change (outcome (store.save key' label now) s).2 = s₁
    rw [hsave]
  have hproceeds : Interp.Proceeds .layout s s₂ :=
    .trans (hsaved ▸ .move .refl (.save store key' label now) trivial rfl) hp
  have hd₂ : s₂.table.Distinct := hproceeds.lasts.distinct hd
  obtain ⟨disk, hload⟩ := SnapshotStore.outcome_load (hstore _ hhas)
  have hreceives {i : Nat} {id : Ident} (hid : s.table.get? i = some id) (hsaves : s.Saves id) :=
    h.receives_later hord hproceeds hw hid hsaves
  have hall (e : Entry) (he : e ∈ s.collect) : ∃ i id, ({ s₂ with disk } : Interp).Receives e i id := by
    obtain ⟨i, id, hid, hsaves, rfl⟩ := Interp.mem_collect.mp he
    obtain ⟨id₂, -, hat⟩ := h.receives_later hord hproceeds hw hid hsaves
    exact ⟨i, id₂, hat.found, hat.name, hat.kind, hat.readOnly, hat.suits⟩
  obtain ⟨s₃, hok, hcells, hrestored, hothers⟩ := outcome_restore_forM
    (s := { s₂ with disk }) (s.collect.mergeSort Entry.before)
    (hord.unwatched.lasts hproceeds.lasts) ((hproceeds.hosted h).orderly.writesPlain hmode) hd₂
    (fun e he => hall e (List.mem_mergeSort.mp he))
    fun e he e' he' => Interp.eq_of_mem_collect hd (List.mem_mergeSort.mp he) (List.mem_mergeSort.mp he')
  have hloaded := hload.trans (outcome_bind_ok hok _)
  refine ⟨s₃, hloaded, fun i id hid hsaved hkind => ?_, fun i id hid hnone => ?_⟩
  · have hsaves := Interp.isSaved_iff.mp hsaved
    obtain ⟨j, id', hid', hname, htext⟩ := hrestored _
      (List.mem_mergeSort.mpr (Interp.entryOf_mem_collect hid hsaves))
    -- The identifier of the name stands where it stood.
    have hlasts : s.table.Lasts s₃.table := by
      have hafter : (Move.load store key').perform s₂ = s₃ := by
        change (outcome (store.load key') s₂).2 = s₃
        rw [hloaded]
        rfl
      rcases (Move.load store key').effect s₂ with hlasts | ⟨hno, -⟩
      · exact hafter ▸ hproceeds.lasts.trans hlasts
      · cases hno
    obtain ⟨id₃, hid₃, hlike⟩ := hlasts.kept i id hid
    cases hlasts.distinct hd i j id₃ id' hid₃ hid' (hlike.1.trans hname.symm)
    refine ⟨id', hid', hname, htext fun hfloat => hkind ?_⟩
    exact hsaves.isFloat hfloat
  · refine ⟨(hothers i fun e he id' hid' hname => ?_).trans hid, Interp.valueOf_of_cells hcells id⟩
    cases hid.symm.trans hid'
    exact hnone e (List.mem_mergeSort.mp he) hname

/-- A host with an integer variable that persists in hexadecimal. -/
def savingHost : Interp :=
  (Move.request (.registerInt (utf8 "v") 0 12 255 { persist := true, hex := true } .none)).perform .new

/-- What a registration enters is what is registered, with its value. -/
theorem Move.of_enter {P : Ident → Value → Prop} {m : Move} {b : Ident} {v : Value}
    (hr : m.registration? s = some (s.register id))
    (hold : ∀ i b v, ledger i = some (b, v) → P b v)
    (hnew : ∀ i s', s.register id = .ok (i, s') → P id (s'.valueOf id))
    (hb : m.enter s ledger i = some (b, v)) : P b v := by
  cases hok : s.register id with
  | error e =>
      have henter : m.enter s ledger = ledger := by rw [Move.enter, hr, hok]
      exact hold i b v (henter ▸ hb)
  | ok found =>
      obtain ⟨j, s'⟩ := found
      have henter : m.enter s ledger = fun i => if j = i then s'.entries i else ledger i := by
        rw [Move.enter, hr, hok]
      rw [henter] at hb
      dsimp only at hb
      split at hb
      next hj =>
        subst hj
        obtain ⟨-, hget, -⟩ := Interp.register_ok hok
        rw [Interp.entries, hget, if_pos rfl] at hb
        cases hb
        exact hnew j s' hok
      next => exact hold i b v hb

theorem Interp.persist_entries_new {b : Ident} {v : Value}
    (hb : Interp.new.entries i = some (b, v)) : b.flags.persist = false := by
  obtain ⟨id, hid, heq⟩ := Option.map_eq_some_iff.mp hb
  cases heq
  exact (Bool.not_eq_true' _).mp (of_get?_new (p := fun id => !id.flags.persist) (by decide) hid)

theorem checked_savingHost : (savingHost.table.idents.all fun id =>
      !id.role.watch.isHost && !id.flags.override) = true ∧
    (savingHost.table.get? 121).any (fun id => savingHost.isSaved id &&
      id.role.kindName != "fvar" && savingHost.textOf id == utf8 "0xC") = true := by
  decide +kernel

private theorem ordinary_savingHost : ∃ ledger, Interp.Hosted .layout ledger savingHost ∧
    savingHost.Ordinary ledger := by
  have hosted := Interp.Hosted.new.move (r := .layout) (.request (.registerInt (utf8 "v") 0 12 255
    { persist := true, hex := true } .none)) trivial
  have hall {i : Nat} {id : Ident} (hid : savingHost.table.get? i = some id) :=
    Bool.and_eq_true_iff.mp (Array.all_eq_true_iff_forall_mem.mp checked_savingHost.1 id
      (Array.mem_of_getElem? hid))
  refine ⟨_, hosted, fun i id hid f hf => ?_, fun i b v hb => ?_, fun i id hid _ => ?_⟩
  · have hwatch := (hall hid).1
    rw [hf] at hwatch
    cases hwatch
  · refine Move.of_enter (P := fun b v => b.flags.persist = true → b.role.Contains v.toInt) rfl
      (fun i b v hb hp => ?_) (fun _ _ _ _ => ?_) hb
    · exact absurd ((Interp.persist_entries_new hb).symm.trans hp) Bool.false_ne_true
    · exact show (0 : Int32) ≤ 12 ∧ (12 : Int32) ≤ 255 by decide
  · exact (Bool.not_eq_true' _).mp (hall hid).2

/-- An archive and the id of its first snapshot. -/
def savedStore : SnapshotStore := Archive.store (utf8 "saved")

def savedKey : Bytes := Archive.idOf 0

def savedHost : Interp := (Move.save savedStore savedKey [] 0).perform savingHost

/-- The variable is written since. -/
def rewrittenHost : Interp := (Move.request (.setValue (utf8 "v") (.int 7))).perform savedHost

private theorem fresh_savedKey : savedStore.Fresh savingHost.disk savedKey := by
  have hrows : (savedStore.rows savedKey savingHost.disk).toOption.bind Prod.fst = none := by
    decide +kernel
  rintro entries ⟨disk, hhas⟩
  rw [hhas] at hrows
  cases hrows

set_option maxRecDepth 100000 in
private theorem kept_rewrittenHost :
    (rewrittenHost.disk, rewrittenHost.compiled, rewrittenHost.writeFlags.overridden,
      (rewrittenHost.table.get? 121).map rewrittenHost.textOf,
      (outcome (savedStore.save savedKey [] 0) savingHost).1.toOption.bind Except.toOption) =
    (savedHost.disk, fun _ _ _ => False, false, some (utf8 "0x7"), some savedKey) := by
  with_unfolding_all rfl

/-- The snapshot gives the variable its number back. -/
theorem snapshots_restore_hex : ∃ s₃ id,
    outcome (savedStore.load savedKey) rewrittenHost = (.ok (.ok ⟨⟩), s₃) ∧
    (rewrittenHost.table.get? 121).map rewrittenHost.textOf = some (utf8 "0x7") ∧
    s₃.table.get? 121 = some id ∧ s₃.textOf id = utf8 "0xC" := by
  obtain ⟨ledger, h, hord⟩ := ordinary_savingHost
  obtain ⟨hdisk, hcompiled, hmode, htext, hanswer⟩ := by simpa only [Prod.mk.injEq] using kept_rewrittenHost
  have hsave : outcome (savedStore.save savedKey [] 0) savingHost =
      (.ok (.ok savedKey), savedHost) := by
    refine Prod.ext ?_ rfl
    generalize (outcome (savedStore.save savedKey [] 0) savingHost).1 = answer at hanswer
    rcases answer with e | e | key
    · cases hanswer
    · cases hanswer
    · exact congrArg (fun key => Except.ok (Except.ok key)) (Option.some.inj hanswer)
  have hp : Interp.Proceeds .layout savedHost rewrittenHost :=
    .move .refl (.request (.setValue (utf8 "v") (.int 7))) trivial rfl
  have hnone {t : Table} {src name : Bytes} (hc : rewrittenHost.compiled t src name) : False := by
    rwa [hcompiled] at hc
  have hw : Within .layout rewrittenHost :=
    ⟨fun _ _ _ hc => (hnone hc).elim, fun _ _ _ hc => (hnone hc).elim, fun _ _ _ hc => (hnone hc).elim,
      fun _ _ _ _ hc => (hnone hc).elim, fun _ _ _ _ hc => (hnone hc).elim⟩
  obtain ⟨id, hid, hall⟩ := (Option.any_eq_true _ _).mp checked_savingHost.2
  simp only [Bool.and_eq_true, bne_iff_ne, beq_iff_eq] at hall
  obtain ⟨s₃, hload, hrestored, -⟩ := snapshots_restore (Archive.lawful_store _) h hord
    fresh_savedKey hsave hp hw hmode fun _ hhas => hdisk ▸ hhas
  obtain ⟨id', hid', -, htext'⟩ := hrestored 121 id hid hall.1.1 hall.1.2
  exact ⟨s₃, id', hload, htext, hid', htext'.trans hall.2⟩

/-- A block that no text has, which writes a variable as aliases are written. -/
def foreignWrite : Block := { name := utf8 "b", words := #[0, 1356, 31024, 9] }

/-- Code of the host that can not come from a text takes from the variable that it is written in
hexadecimal, and the snapshot does not give that back. -/
theorem snapshots_miss_foreign_code :
    let s₂ := (Move.request (.call (utf8 "do") [.code foreignWrite 1])).perform savedHost
    let p := outcome (savedStore.load savedKey) s₂
    s₂.writeFlags.overridden = false ∧ p.1.toOption.bind Except.toOption = some () ∧
      (savingHost.table.get? 121).map savingHost.textOf = some (utf8 "0xC") ∧
      (p.2.table.get? 121).map p.2.textOf = some (utf8 "12") := by
  decide +kernel

end Histories

end ConsoleScript
