import ConsoleScript.Proofs.Engine.Executions
import ConsoleScript.Proofs.Writes.Hosting

/-!
Variables in the interpreters that a well-behaved host can have. Since it was registered, a variable has
kept its flags but for the one of an override; what is read-only has kept its value; an integer that
began in its range has stayed there; and while a variable is overridden it can be written, does not
persist, and its value from before is one that it could have.
-/

namespace ConsoleScript

open Bytecode Engine

section Accounts

variable {s s' : Interp} {ledger : Ledger} {i : Nat} {id id' : Ident}

/-- Flags that a write of an alias leaves: whether it persists and whether it overrides. -/
def Flags.IsStamp (f : Flags) : Prop := { f with persist := false, overridden := false } = {}

/-- What is known of every interpreter that a host can have, and of its ledger. -/
structure Interp.Orderly (ledger : Ledger) (s : Interp) : Prop where
  apart : s.Apart
  entered : ∀ i b v, ledger i = some (b, v) → ∃ id, s.table.get? i = some id ∧ b.Like id
  listed : ∀ i id, s.table.get? i = some id → id.role.isVar = true →
    ∃ b v, ledger i = some (b, v)
  size : maxArgs ≤ s.table.size
  mode : s.writeFlags.IsStamp
  numbered : ∀ n i f, s.written n i f → n < s.writes
  written : ∀ n i f, s.written n i f → f.IsStamp
  /-- Names that are not known do not persist. -/
  unknown : ∀ i id, s.table.get? i = some id → id.role = .alias → id.flags.unknown = true →
    id.flags.persist = false
  /-- Argument slots are marked, unless they were written as aliases are. -/
  slots : ∀ i < maxArgs, ∀ id, s.table.get? i = some id → id.role = .alias →
    id.flags.arg = true ∨ ∃ n f, s.written n i f
  writable : ∀ i id, s.table.get? i = some id → id.role = .alias → id.flags.readOnly = false
  /-- Variables that show a number of the interpreter itself do not persist. -/
  cells : ∀ i b v, ledger i = some (b, v) → b.role.cell?.isSome → b.flags.persist = false

theorem Role.isVar_emptied (role : Role) : role.emptied.isVar = role.isVar := by
  cases role with
  | intVar least greatest store watch => cases store <;> rfl
  | _ => rfl

theorem Ident.Like.isVar (h : id.Like id') : id'.role.isVar = id.role.isVar := by
  rw [← Role.isVar_emptied, h.2, Role.isVar_emptied]

theorem Ident.Like.trans {id'' : Ident} (h : id.Like id') (h' : id'.Like id'') : id.Like id'' :=
  ⟨h'.1.trans h.1, h'.2.trans h.2⟩

theorem Flags.IsStamp.known {f : Flags} (h : f.IsStamp) : f.unknown = false :=
  (congrArg Flags.unknown h :)

theorem Flags.IsStamp.readOnly {f : Flags} (h : f.IsStamp) : f.readOnly = false :=
  (congrArg Flags.readOnly h :)

theorem Move.steps (m : Move) (hs : s.Apart) :
    ((s.Protects (m.perform s) ∨ ∃ on, m.perform s = s.setMode on) ∧ ∀ l, m.enter s l = l) ∨
    ∃ id i, id.Registered ∧ s.register id = .ok (i, m.perform s) ∧
      ∀ l, m.enter s l = fun j => if i = j then (m.perform s).entries j else l j := by
  by_cases hmode : ∃ on, m = .request (.setOverrideMode on)
  · obtain ⟨on, rfl⟩ := hmode
    exact .inl ⟨.inr ⟨on, rfl⟩, fun _ => rfl⟩
  · refine (m.progresses (G := .protecting) hs fun on h => absurd ⟨on, h⟩ hmode).imp_left fun h => ?_
    exact ⟨.inl h.1, h.2⟩

namespace Interp.Orderly

private theorem protects (h : s.Orderly ledger) (hp : s.Protects s') : s'.Orderly ledger := by
  have hback {i : Nat} {id' : Ident} (hid' : s'.table.get? i = some id') (hrole : id'.role ≠ .alias) :
      ∃ id, s.table.get? i = some id ∧ id.Like id' := by
    rcases Option.eq_none_or_eq_some (s.table.get? i) with hnone | ⟨id, hid⟩
    · exact absurd (hp.lasts.added i id' hnone hid').role hrole
    · obtain ⟨id₂, hid₂, hlike⟩ := hp.lasts.kept i id hid
      cases hid₂.symm.trans hid'
      exact ⟨id, hid, hlike⟩
  have hkept {i : Nat} {id id' : Ident} (hid : s.table.get? i = some id)
      (hid' : s'.table.get? i = some id') (hrole : id'.role = .alias) : id.role = .alias := by
    obtain ⟨id₂, hid₂, hlike⟩ := hp.lasts.kept i id hid
    cases hid₂.symm.trans hid'
    exact hlike.alias_iff.mp hrole
  have hstamp : s'.writeFlags.IsStamp :=
    (congrArg (fun f : Flags => { f with persist := false, overridden := false }) hp.mode :).trans h.mode
  have hwritten (n : Nat) (i : Nat) (f : Flags) (hn : s'.written n i f) : f.IsStamp := by
    rcases hp.recorded n i f hn with hold | ⟨-, -, hf⟩
    · exact h.written n i f hold
    · exact (congrArg (fun f : Flags => { f with persist := false, overridden := false }) hf :).trans
        h.mode
  refine ⟨h.apart.lasts hp.lasts, fun i b v hb => ?_, fun i id' hid' hvar => ?_,
    Nat.le_trans h.size hp.lasts.keeps.size, hstamp, fun n i f hn => ?_, hwritten,
    fun i id' hid' hrole hu => ?_, fun i hi id' hid' hrole => ?_, fun i id' hid' hrole => ?_, h.cells⟩
  · obtain ⟨id, hid, hlike⟩ := h.entered i b v hb
    obtain ⟨id', hid', hlike'⟩ := hp.lasts.kept i id hid
    exact ⟨id', hid', hlike.trans hlike'⟩
  · obtain ⟨id, hid, hlike⟩ := hback hid' fun hrole => by rw [hrole] at hvar; cases hvar
    exact h.listed i id hid (hlike.isVar.symm.trans hvar)
  · rcases hp.recorded n i f hn with hold | ⟨-, hlt, -⟩
    · exact Nat.lt_of_lt_of_le (h.numbered n i f hold) hp.writes
    · exact hlt
  · cases hp.aliases i id' hid' hrole with
    | written _ hf hd =>
        exact absurd ((hwritten _ _ _ hf).known.symm.trans (hd.unknown hu)) Bool.false_ne_true
    | kept hid hd =>
        exact hd.persist.trans (h.unknown i _ hid (hkept hid hid' hrole) (hd.unknown hu))
    | added _ hd => exact hd.persist
  · cases hp.aliases i id' hid' hrole with
    | written _ hf _ => exact .inr ⟨_, _, hf⟩
    | kept hid hd =>
        refine (h.slots i hi _ hid (hkept hid hid' hrole)).imp (fun ha => ?_) fun ⟨n, f, hf⟩ =>
          ⟨n, f, hp.written n i f hf⟩
        exact hd.arg.trans ha
    | added hnone _ =>
        obtain ⟨id, hid⟩ := Table.exists_get? (Nat.lt_of_lt_of_le hi h.size)
        rw [hnone] at hid
        cases hid
  · cases hp.aliases i id' hid' hrole with
    | written _ hf hd => exact hd.readOnly.trans (hwritten _ _ _ hf).readOnly
    | kept hid hd => exact hd.readOnly.trans (h.writable i _ hid (hkept hid hid' hrole))
    | added _ hd => exact hd.readOnly

private theorem setMode (h : s.Orderly ledger) (on : Bool) : (s.setMode on).Orderly ledger :=
  { h with mode := h.mode }

/-- What is registered is entered. -/
theorem registered (h : s.Orderly ledger) (hid : id.Registered)
    (hok : s.register id = .ok (i, s')) :
    s'.Orderly fun j => if i = j then s'.entries j else ledger j := by
  obtain ⟨hsame, hget, -⟩ := Interp.register_ok hok
  have hself : s'.table.get? i = some id := by rw [hget, if_pos rfl]
  have hrole : id.role ≠ .alias := fun h => hid.role.kindName (by rw [h]; rfl)
  have hcell := hid.role.cell?
  -- An identifier of the table is the new one, or stands where it stood.
  have hback {j : Nat} {old : Ident} (hold : s'.table.get? j = some old) :
      i = j ∧ old = id ∨ i ≠ j ∧ s.table.get? j = some old := by
    rw [hget] at hold
    split at hold
    next hj =>
      cases hold
      exact .inl ⟨hj, rfl⟩
    next hj => exact .inr ⟨hj, hold⟩
  have hsize : s.table.size ≤ s'.table.size := by
    have := s.size_registered id
    rwa [hok] at this
  have hwrites : s'.writes = s.writes := by rw [hsame]
  have hwritten : s'.written = s.written := by rw [hsame]
  refine ⟨fun j j' id₁ id₂ c h₁ h₂ hc₁ hc₂ => ?_, fun j b v hb => ?_, fun j old hold hvar => ?_,
    Nat.le_trans h.size hsize, by rw [hsame]; exact h.mode, fun n j f hn => ?_, fun n j f hn => ?_,
    fun j old hold halias hu => ?_, fun j hj old hold halias => ?_, fun j old hold halias => ?_,
    fun j b v hb hcell' => ?_⟩
  · rcases hback h₁ with ⟨-, rfl⟩ | ⟨-, h₁⟩
    · rw [hcell] at hc₁
      cases hc₁
    · rcases hback h₂ with ⟨-, rfl⟩ | ⟨-, h₂⟩
      · rw [hcell] at hc₂
        cases hc₂
      · exact h.apart j j' id₁ id₂ c h₁ h₂ hc₁ hc₂
  · split at hb
    next hj =>
      subst hj
      obtain ⟨id₂, hid₂, heq⟩ := Option.map_eq_some_iff.mp hb
      cases heq
      exact ⟨b, hid₂, .refl b⟩
    next hj =>
      obtain ⟨old, hold, hlike⟩ := h.entered j b v hb
      exact ⟨old, by rw [hget, if_neg hj, hold], hlike⟩
  · rcases hback hold with ⟨rfl, rfl⟩ | ⟨hj, hold⟩
    · exact ⟨old, s'.valueOf old, by rw [if_pos rfl, Interp.entries, hself]; rfl⟩
    · rw [if_neg hj]
      exact h.listed j old hold hvar
  · rw [hwrites]
    exact h.numbered n j f (hwritten ▸ hn)
  · exact h.written n j f (hwritten ▸ hn)
  · rcases hback hold with ⟨-, rfl⟩ | ⟨-, hold⟩
    · exact absurd halias hrole
    · exact h.unknown j old hold halias hu
  · rcases hback hold with ⟨-, rfl⟩ | ⟨-, hold⟩
    · exact absurd halias hrole
    · rw [hwritten]
      exact h.slots j hj old hold halias
  · rcases hback hold with ⟨-, rfl⟩ | ⟨-, hold⟩
    · exact absurd halias hrole
    · exact h.writable j old hold halias
  · split at hb
    next hj =>
      subst hj
      obtain ⟨id₂, hid₂, heq⟩ := Option.map_eq_some_iff.mp hb
      cases heq
      cases hself.symm.trans hid₂
      rw [hcell] at hcell'
      cases hcell'
    next => exact h.cells j b v hb hcell'

end Interp.Orderly

/-- Which number of the interpreter itself an index shows at the beginning. -/
def Interp.cellAt? (i : Nat) : Option Cell :=
  if i = maxArgs + 1 then some .callArgs
  else if i = maxArgs + 2 then some .traceLimit
  else if i = maxArgs + 3 then some .persistence
  else none

theorem Interp.orderly_new : Interp.new.Orderly Interp.new.entries := by
  have hcells (i : Nat) (id : Ident) (hid : new.table.get? i = some id) :
      id.role.cell? = cellAt? i := by
    have hall : ((argIdents ++ [dummyIdent]) ++ furtherIdents).zipIdx.all (fun p =>
        p.1.role.cell? == cellAt? p.2) = true := by decide
    rw [get?_new] at hid
    exact eq_of_beq (List.all_eq_true.mp hall (id, i) (List.mk_mem_zipIdx_iff_getElem?.mpr hid))
  have hslots (i : Nat) (id : Ident) (hid : new.table.get? i = some id) :
      (decide (maxArgs ≤ i) || id.flags.arg) = true := by
    have hall : ((argIdents ++ [dummyIdent]) ++ furtherIdents).zipIdx.all (fun p =>
        decide (maxArgs ≤ p.2) || p.1.flags.arg) = true := by decide
    rw [get?_new] at hid
    exact List.all_eq_true.mp hall (id, i) (List.mk_mem_zipIdx_iff_getElem?.mpr hid)
  refine ⟨fun i j id id' c hi hj hc hc' => ?_, fun i b v hb => ?_, fun i id hid _ => ?_,
    by decide, rfl, fun _ _ _ h => h.elim, fun _ _ _ h => h.elim, fun i id hid _ hu => ?_,
    fun i hi id hid _ => .inl ?_, fun i id hid halias => ?_, fun i b v hb hcell => ?_⟩
  · rw [hcells i id hi] at hc
    rw [hcells j id' hj, ← hc] at hc'
    unfold cellAt? at hc hc'
    grind
  · obtain ⟨id, hid, heq⟩ := Option.map_eq_some_iff.mp hb
    cases heq
    exact ⟨b, hid, .refl b⟩
  · exact ⟨id, new.valueOf id, by rw [entries, hid]; rfl⟩
  · have hknown := of_get?_new (p := (!·.flags.unknown)) (by decide) hid
    simp [hu] at hknown
  · simpa [Nat.not_le.mpr hi] using hslots i id hid
  · have hopen := of_get?_new (p := fun id => !(id.role.isAlias && id.flags.readOnly)) (by decide) hid
    rw [halias] at hopen
    exact (Bool.not_eq_true' _).mp hopen
  · obtain ⟨id, hid, heq⟩ := Option.map_eq_some_iff.mp hb
    cases heq
    have hplain := of_get?_new (p := fun id => !(id.role.cell?.isSome && id.flags.persist)) (by decide) hid
    rw [hcell] at hplain
    exact (Bool.not_eq_true' _).mp hplain

theorem Interp.Hosted.orderly {r : Rigour} (h : Hosted r ledger s) : s.Orderly ledger := by
  induction h with
  | new => exact orderly_new
  | @move ledger s _ m _ ih =>
      rcases m.steps ih.apart with ⟨hp | ⟨on, hon⟩, henter⟩ | ⟨id, i, hid, hok, henter⟩
      · rw [henter]
        exact ih.protects hp
      · rw [henter, hon]
        exact ih.setMode on
      · rw [henter]
        exact ih.registered hid hok

end Accounts

section Protection

variable {s s' : Interp} {ledger : Ledger} {b id id' : Ident} {v : Value}

/-- What has become of a variable since it was registered with a value. -/
structure Interp.Holds (s : Interp) (b : Ident) (v : Value) (id : Ident) : Prop where
  like : b.Like id
  flags : b.flags.Descend id.flags
  sound : id.Sound
  inRange : b.role.Contains v.toInt → s.InRange id
  locked : b.flags.Refuses → s.valueOf id = v ∧ id.flags.overridden = false

namespace Interp.Holds

private theorem tends (h : s.Holds b v id) (hlike : id.Like id') (ht : s.Tends s' id id') :
    s'.Holds b v id' := by
  refine ⟨h.like.trans hlike, h.flags.trans ht.flags, ht.sound h.sound,
    fun hv => ht.inRange (h.inRange hv), fun hr => ?_⟩
  obtain ⟨hvalue, hplain⟩ := h.locked hr
  obtain ⟨hvalue', hplain'⟩ := ht.locked (h.flags.refuses.mpr hr) hplain
  exact ⟨hvalue'.trans hvalue, hplain'⟩

theorem entered (hplain : id.flags.overridden = false) (hknown : id.flags.unknown = false) :
    s.Holds id (s.valueOf id) id :=
  have hno {p : Prop} (h : id.flags.overridden = true) : p :=
    absurd (hplain.symm.trans h) Bool.false_ne_true
  ⟨.refl id, .refl _, ⟨hknown, hno, hno, hno⟩, fun hv => ⟨hv, hno⟩, fun _ => ⟨rfl, hplain⟩⟩

private theorem of_cells (h : s.Holds b v id) (hc : ∀ c, s'.cell c = s.cell c) :
    s'.Holds b v id := by
  have hvalue : s'.valueOf id = s.valueOf id := valueOf_of_cells hc id
  refine ⟨h.like, h.flags, h.sound, fun hv => ⟨?_, (h.inRange hv).before⟩, fun hr => ?_⟩
  · rw [hvalue]
    exact (h.inRange hv).value
  · rw [hvalue]
    exact h.locked hr

end Interp.Holds

theorem Interp.holds_new {i : Nat} (hid : Interp.new.table.get? i = some id) :
    Interp.new.Holds id (Interp.new.valueOf id) id := by
  have hplain := of_get?_new (p := fun id => !id.flags.overridden && !id.flags.unknown)
    (by decide) hid
  simp only [Bool.and_eq_true, Bool.not_eq_true'] at hplain
  exact .entered hplain.1 hplain.2

theorem Interp.Hosted.wellWritten (h : Hosted .layout ledger s) (hw : Within .layout s) :
    s.WellWritten := by
  intro n i f id hn hid
  obtain ⟨hform, -⟩ := (h.rests hw).2.2 n i f hn
  rw [Table.form?_of_get? hid, Option.some.injEq] at hform
  exact Role.eq_alias_of_form hform

theorem Interp.Hosted.le_of_unmarked (h : Hosted .layout ledger s) (hw : Within .layout s) {i : Nat}
    (hid : s.table.get? i = some id) (hrole : id.role = .alias) (harg : id.flags.arg = false) :
    maxArgs ≤ i := by
  refine Nat.not_lt.mp fun hi => ?_
  rcases h.orderly.slots i hi id hid hrole with hmarked | ⟨n, f, hn⟩
  · rw [harg] at hmarked
    cases hmarked
  · exact absurd ((h.rests hw).2.2 n i f hn).2 (Nat.not_le.mpr hi)

/-- Whatever a well-behaved host asks for, the variables hold what they were registered with. -/
theorem Interp.Hosted.holds (h : Hosted .layout ledger s) (hw : Within .layout s) {i : Nat}
    (hb : ledger i = some (b, v)) (hkept : b.role.isKept = true) :
    ∃ id, s.table.get? i = some id ∧ s.Holds b v id := by
  induction h generalizing i b v with
  | new =>
      obtain ⟨id, hid, heq⟩ := Option.map_eq_some_iff.mp hb
      cases heq
      exact ⟨b, hid, holds_new hid⟩
  | @move ledger s hs m hm ih =>
      have hwell := (hs.move m hm).wellWritten hw
      have hbefore := hw.of_grows (m.rests (r := .layout) s).1
      rcases m.steps hs.orderly.apart with ⟨hp | ⟨on, hon⟩, henter⟩ | ⟨id₀, i₀, hid₀, hok, henter⟩
      · rw [henter] at hb
        obtain ⟨id, hid, hheld⟩ := ih hbefore hb hkept
        obtain ⟨id', hid', ht⟩ := hp.kept hwell i id hid (hheld.like.isKept.trans hkept)
        obtain ⟨id₂, hid₂, hlike⟩ := hp.lasts.kept i id hid
        cases hid₂.symm.trans hid'
        exact ⟨id', hid', hheld.tends hlike ht⟩
      · rw [henter] at hb
        obtain ⟨id, hid, hheld⟩ := ih hbefore hb hkept
        rw [hon]
        exact ⟨id, hid, hheld.of_cells fun c => by cases c <;> rfl⟩
      · obtain ⟨hsame, hget, -⟩ := Interp.register_ok hok
        rw [henter] at hb
        dsimp only at hb
        split at hb
        next hi =>
          subst hi
          obtain ⟨id, hid, heq⟩ := Option.map_eq_some_iff.mp hb
          cases heq
          rw [hget, if_pos rfl] at hid
          cases hid
          refine ⟨_, by rw [hget, if_pos rfl], .entered ?_ ?_⟩
          · exact (congrArg Flags.overridden hid₀.flags).symm
          · exact (congrArg Flags.unknown hid₀.flags).symm
        next hi =>
          obtain ⟨id, hid, hheld⟩ := ih hbefore hb hkept
          refine ⟨id, by rw [hget, if_neg hi, hid], hheld.of_cells fun c => ?_⟩
          rw [hsame]
          cases c <;> rfl

theorem Interp.Hosted.sound (h : Hosted .layout ledger s) (hw : Within .layout s) {i : Nat}
    (hid : s.table.get? i = some id) (hkept : id.role.isKept = true) : id.Sound := by
  obtain ⟨b, v, hb⟩ := h.orderly.listed i id hid (Role.isVar_of_isKept hkept)
  obtain ⟨id₁, hid₁, hlike⟩ := h.orderly.entered i b v hb
  cases hid.symm.trans hid₁
  obtain ⟨id₂, hid₂, hheld⟩ := h.holds hw hb (hlike.isKept.symm.trans hkept)
  cases hid.symm.trans hid₂
  exact hheld.sound

theorem Interp.Hosted.holds_callArgs (h : Hosted .layout ledger s) (hw : Within .layout s) {i : Nat}
    (hid : s.table.get? i = some id) (hshows : id.role.showsCallArgs = true) :
    id.flags.readOnly = true ∧ id.flags.overridden = false ∧ s.valueOf id = .int 0 := by
  obtain ⟨hat, hargs, -⟩ := h.rests hw
  obtain ⟨hr, ho⟩ := (hat.inv.table.idents i id hid).locked hshows
  refine ⟨hr, ho, ?_⟩
  unfold Interp.valueOf
  generalize id.role = role at hshows
  unfold Role.showsCallArgs at hshows
  split at hshows
  · exact congrArg Value.int hargs
  · cases hshows

/-- Variables are protected in every interpreter that a well-behaved host can have, whatever scripts
and watchers have written or tried to write. An integer that began in its range is in it, if it can be
written. What is overridden does not persist and can be written, and its value from before is of its
kind, and in its range if the variable began there. What is read-only has the value it was registered
with, except for the number of arguments. -/
theorem variables_stay_protected (h : Interp.Hosted .layout ledger s) (hw : Within .layout s)
    {i : Nat} (hid : s.table.get? i = some id) (hvar : id.role.isVar = true) :
    ∃ b v, ledger i = some (b, v) ∧ b.Like id ∧
      (id.flags.readOnly = false → b.role.Contains v.toInt →
        id.role.Contains (s.valueOf id).toInt) ∧
      (id.flags.overridden = true → id.flags.persist = false ∧ id.flags.readOnly = false ∧
        id.role.Fits id.before ∧ (b.role.Contains v.toInt → id.role.Contains id.before.toInt)) ∧
      (id.flags.readOnly = true → id.role.showsCallArgs = false → s.valueOf id = v) := by
  obtain ⟨b, v, hb⟩ := h.orderly.listed i id hid hvar
  obtain ⟨id₂, hid₂, hlike⟩ := h.orderly.entered i b v hb
  cases hid.symm.trans hid₂
  refine ⟨b, v, hb, hlike, ?_⟩
  cases hshows : id.role.showsCallArgs with
  | true =>
      obtain ⟨hr, ho, -⟩ := h.holds_callArgs hw hid hshows
      exact ⟨fun hw => absurd (hr.symm.trans hw) (by decide), fun h => absurd (ho.symm.trans h) (by decide),
        fun _ h => nomatch h⟩
  | false =>
      have hkept : id.role.isKept = true := by
        rw [Role.isKept, hvar, hshows]
        rfl
      obtain ⟨id₃, hid₃, hheld⟩ := h.holds hw hb (hlike.isKept.symm.trans hkept)
      cases hid.symm.trans hid₃
      refine ⟨fun _ hv => (hheld.inRange hv).value, fun ho => ⟨hheld.sound.persist ho,
        hheld.sound.readOnly ho, hheld.sound.before ho, fun hv => (hheld.inRange hv).before ho⟩,
        fun hr _ => (hheld.locked (.inl (hheld.flags.readOnly.symm.trans hr))).1⟩

/-- A host that registers an integer variable, lets writes override and writes it. -/
def overridingHost (default : Int32) : Interp :=
  (Move.request (.execute (utf8 "v 7"))).perform
    ((Move.request (.setOverrideMode true)).perform
      ((Move.request (.registerInt (utf8 "v") 0 default 10 {} .none)).perform .new))

theorem hosted_overridingHost (default : Int32) :
    ∃ ledger, Interp.Hosted .layout ledger (overridingHost default) :=
  ⟨_, ((Interp.Hosted.new.move (.request (.registerInt (utf8 "v") 0 default 10 {} .none)) trivial).move
    (.request (.setOverrideMode true)) trivial).move (.request (.execute (utf8 "v 7"))) trivial⟩

set_option maxRecDepth 100000 in
private theorem run_overridingHost :
    ((overridingHost 5).compiled, fitsWords ((Move.request (.setOverrideMode true)).perform
        ((Move.request (.registerInt (utf8 "v") 0 5 10 {} .none)).perform .new)).table (utf8 "v 7") [],
      ((overridingHost 5).table.get? 121).any fun id => id.role.isVar && id.flags.overridden) =
    (fun t src name => False ∨
      (t = ((Move.request (.setOverrideMode true)).perform
        ((Move.request (.registerInt (utf8 "v") 0 5 10 {} .none)).perform .new)).table ∧
        src = utf8 "v 7" ∧ name = []), true, true) := by
  with_unfolding_all rfl

/-- The variable is overridden, within its range. -/
theorem variables_stay_protected_overriding : ∃ ledger id b v,
    Interp.Hosted .layout ledger (overridingHost 5) ∧
    (overridingHost 5).table.get? 121 = some id ∧ id.flags.overridden = true ∧
    ledger 121 = some (b, v) ∧ id.flags.persist = false ∧ id.flags.readOnly = false ∧
    (b.role.Contains v.toInt → id.role.Contains id.before.toInt) := by
  obtain ⟨ledger, h⟩ := hosted_overridingHost 5
  obtain ⟨hw, hsome⟩ := Within.of_run (r := .layout) run_overridingHost
  obtain ⟨id, hid, hboth⟩ := (Option.any_eq_true _ _).mp hsome
  obtain ⟨hvar, ho⟩ := Bool.and_eq_true_iff.mp hboth
  obtain ⟨b, v, hb, -, -, hover, -⟩ := variables_stay_protected h hw hid hvar
  obtain ⟨hp, hr, -, hbefore⟩ := hover ho
  exact ⟨ledger, id, b, v, h, hid, ho, hb, hp, hr, hbefore⟩

/-- A variable that did not begin in its range keeps a value from before that is not in it either. -/
theorem variable_keeps_value_out_of_range : ∃ ledger id,
    Interp.Hosted .layout ledger (overridingHost 50) ∧
    (overridingHost 50).table.get? 121 = some id ∧ id.flags.overridden = true ∧
    ¬id.role.Contains id.before.toInt := by
  obtain ⟨ledger, h⟩ := hosted_overridingHost 50
  have hsome : ((overridingHost 50).table.get? 121).any (fun id =>
      id.flags.overridden && !decide (id.role.Contains id.before.toInt)) = true := by decide +kernel
  obtain ⟨id, hid, hboth⟩ := (Option.any_eq_true _ _).mp hsome
  obtain ⟨ho, hout⟩ := Bool.and_eq_true_iff.mp hboth
  exact ⟨ledger, id, h, hid, ho, by simpa using hout⟩

end Protection

end ConsoleScript
