import ConsoleScript.Proofs.Persist.Collecting
import ConsoleScript.Proofs.Writes.Overrides

/-!
What a session in which writes override leaves to be saved. Nothing is saved afterwards that was not
saved before, except for aliases: one that the text wrote while new aliases persist is emptied when its
override ends, but it stays there, and it persists.
-/

namespace ConsoleScript

open Bytecode Engine

section Sessions

variable {r : Rigour} {s s' : Interp} {ledger : Ledger} {src : Bytes} {i : Nat} {id id' : Ident}
  {e : Entry}

theorem World.Safe.settles {α : Type} {m : Engine α} {Q : Interp → α → Prop} (hi : Inv r s)
    (hm : World.Safe ⟨s, True, fun _ => hi⟩ m Q) (hw : Within r (Request.after m s)) :
    Settles r s (Request.after m s) :=
  (hm.2 trivial hw).1

namespace Interp

private theorem settles_setMode (hi : Inv r s) (on : Bool) : Settles r s (s.setMode on) :=
  Calm.keeps {} hi

theorem Hosted.settles_session (h : Hosted r ledger s) (hw : Within r (s.session src)) :
    Settles r s (s.session src) := by
  obtain ⟨hwran, hws⟩ := within_session hw
  have hon := settles_setMode (h.rests hws).1.inv true
  rw [overriding_eq] at hwran
  have hran := (World.safe_execute src).settles hon.inv hwran
  have hoff := settles_setMode hran.inv false
  rw [session_eq, overriding_eq] at hw ⊢
  exact ((hon.trans hran).trans hoff).trans (World.safe_clearOverrides.settles hoff.inv hw)

theorem Descends.of_setMode {on : Bool} (h : (s.setMode on).Descends s' i id') :
    s.Descends s' i id' := by
  cases h with
  | written hn hf hflags => exact .written hn hf hflags
  | kept hid hflags hn => exact .kept hid hflags hn
  | added hnone hflags => exact .added hnone hflags

private theorem descends_session (hs : s.Apart) (hid : (s.session src).table.get? i = some id')
    (hrole : id'.role = .alias) : s.Descends (s.session src) i id' := by
  have hp := protects_overriding hs src
  have hp' := protects_session hs src
  refine .of_setMode (.trans hp.writes hp'.written hp.lasts (fun id hid' => ?_)
    (.of_setMode (hp'.aliases i id' hid hrole)))
  obtain ⟨id₂, hid₂, hlike⟩ := hp'.lasts.kept i id hid'
  cases hid₂.symm.trans hid
  exact hp.aliases i id hid' (hlike.alias_iff.mp hrole)

theorem Hosted.descend_session (h : Hosted .layout ledger s) (hw : Within .layout (s.session src))
    (hid : s.table.get? i = some id) (hkept : id.role.isKept = true) :
    ∃ id', (s.session src).table.get? i = some id' ∧ id.flags.Descend id'.flags := by
  have hs := h.orderly.apart
  have hp := protects_overriding hs src
  obtain ⟨id₁, hid₁, ht⟩ :=
    hp.kept ((h.overriding src).wellWritten (within_session hw).1) i id hid hkept
  obtain ⟨id₂, hid₂, hlike⟩ := hp.lasts.kept i id hid
  cases hid₁.symm.trans hid₂
  obtain ⟨id', hid', ht'⟩ := (protects_session hs src).kept ((h.session src).wellWritten hw) i id₁
    hid₁ (hlike.isKept.trans hkept)
  exact ⟨id', hid', ht.flags.trans ht'.flags⟩

/-- Flags that only an override can set apart let an identifier be saved, if nothing is overridden. -/
theorem Saves.of_descend (h : s'.Saves id') (hname : id'.name = id.name)
    (hflags : id.flags.Descend id'.flags) (hplain : id.flags.overridden = false)
    (hknown : id.flags.unknown = false)
    (hholds : id.role.isVar = true ∨ id.role = .alias ∧ (s.valueOf id).isNull = false) :
    s.Saves id :=
  ⟨hflags.persist.symm.trans h.persist, hplain, hflags.readOnly.symm.trans h.readOnly,
    hflags.arg.symm.trans h.arg, hknown, hname ▸ h.name, hholds⟩

/-- A variable that is saved after a session was saved before. -/
theorem Hosted.saves_variable (h : Hosted .layout ledger s) (hw : Within .layout (s.session src))
    (hid : s.table.get? i = some id) (hvar : id.role.isVar = true)
    (hplain : id.flags.overridden = false) (hid' : (s.session src).table.get? i = some id')
    (hsaved : (s.session src).Saves id') : s.Saves id := by
  obtain ⟨id₂, hid₂, hlike⟩ := (lasts_session h.orderly.apart src).kept i id hid
  cases hid'.symm.trans hid₂
  cases hshows : id.role.showsCallArgs with
  | true =>
      have hlocked := (h.session src).holds_callArgs hw hid' (hlike.showsCallArgs.trans hshows)
      exact absurd (hlocked.1.symm.trans hsaved.readOnly) (by decide)
  | false =>
      have hkept : id.role.isKept = true := by
        rw [Role.isKept, hvar, hshows]
        rfl
      obtain ⟨id₃, hid₃, hflags⟩ := h.descend_session hw hid hkept
      cases hid'.symm.trans hid₃
      exact hsaved.of_descend hlike.1 hflags hplain (h.sound (within_session hw).2 hid hkept).known
        (.inl hvar)

/-- An alias that is saved after a session that did not write it was saved before. -/
theorem Hosted.saves_alias (h : Hosted .layout ledger s) (hw : Within .layout (s.session src))
    (hid : s.table.get? i = some id) (hrole : id.role = .alias)
    (hplain : id.flags.overridden = false) (hid' : (s.session src).table.get? i = some id')
    (hflags : id.flags.Descend id'.flags)
    (hsame : ∀ n f, (s.session src).written n i f → s.written n i f)
    (hsaved : (s.session src).Saves id') : s.Saves id := by
  obtain ⟨id₂, hid₂, hlike⟩ := (lasts_session h.orderly.apart src).kept i id hid
  cases hid'.symm.trans hid₂
  have hrole' := hlike.alias_iff.mpr hrole
  have hnamed : maxArgs ≤ i :=
    h.le_of_unmarked (within_session hw).2 hid hrole (hflags.arg.symm.trans hsaved.arg)
  have hunwritten : ¬(s.session src).WrittenSince s.writes i := fun ⟨n, f, hle, hn⟩ =>
    absurd (h.orderly.numbered n i f (hsame n f hn)) (Nat.not_lt.mpr hle)
  have hvalue : id'.value = id.value := by
    obtain ⟨-, hb⟩ := (h.settles_session hw).heeds.others i hnamed ⟨id, hid, hrole, hplain⟩ hunwritten
    rw [Table.bindings_of_get? hid', Table.bindings_of_get? hid] at hb
    exact (List.cons.inj hb).1
  have hknown : id.flags.unknown = false := by
    refine Bool.eq_false_iff.mpr fun hu => ?_
    have hp := h.orderly.unknown i id hid hrole hu
    rw [← hflags.persist, hsaved.persist] at hp
    cases hp
  have hread (s : Interp) {id : Ident} (hrole : id.role = .alias) : s.valueOf id = id.value.settle := by
    unfold valueOf
    rw [hrole]
  refine hsaved.of_descend hlike.1 hflags hplain hknown (.inr ⟨hrole, ?_⟩)
  rcases hsaved.holds with hvar | ⟨-, hnull⟩
  · rw [hrole'] at hvar
    cases hvar
  · rwa [hread _ hrole', hvalue, ← hread s hrole] at hnull

end Interp

/-- After a session in which writes override, nothing is saved under a name under which nothing was
saved before, if nothing was overridden then; except for aliases that were written in the session with
flags that persist. -/
theorem session_adds_written_aliases (h : Interp.Hosted .layout ledger s)
    (hw : Within .layout (s.session src))
    (hplain : ∀ i id, s.table.get? i = some id → id.flags.overridden = false)
    (he : e ∈ (s.session src).collect) :
    (∃ e' ∈ s.collect, e'.name = e.name) ∨
    ∃ i id' n f, (s.session src).table.get? i = some id' ∧ id'.role = .alias ∧
      e = (s.session src).entryOf id' ∧ s.writes ≤ n ∧ (s.session src).written n i f ∧
      f.persist = true := by
  obtain ⟨i, id', hid', hsaved, rfl⟩ := Interp.mem_collect.mp he
  have hs := h.orderly.apart
  have hlasts := Interp.lasts_session hs src
  have hbefore {id : Ident} (hid : s.table.get? i = some id) (hsaves : s.Saves id) :
      ∃ e' ∈ s.collect, e'.name = ((s.session src).entryOf id').name := by
    obtain ⟨id₂, hid₂, hlike⟩ := hlasts.kept i id hid
    cases hid'.symm.trans hid₂
    exact ⟨s.entryOf id, Interp.entryOf_mem_collect hid hsaves, hlike.1.symm⟩
  rcases hsaved.holds with hvar | ⟨hrole, -⟩
  · cases hid : s.table.get? i with
    | none =>
        rw [(hlasts.added i id' hid hid').role] at hvar
        cases hvar
    | some id =>
        obtain ⟨id₂, hid₂, hlike⟩ := hlasts.kept i id hid
        cases hid'.symm.trans hid₂
        exact .inl (hbefore hid (h.saves_variable hw hid (hlike.isVar.symm.trans hvar)
          (hplain i id hid) hid' hsaved))
  · cases Interp.descends_session hs hid' hrole with
    | @written n f hn hf hflags =>
        exact .inr ⟨i, id', n, f, hid', hrole, rfl, hn, hf, hflags.persist.symm.trans hsaved.persist⟩
    | @kept id hid hflags hsame =>
        obtain ⟨id₂, hid₂, hlike⟩ := hlasts.kept i id hid
        cases hid'.symm.trans hid₂
        exact .inl (hbefore hid (h.saves_alias hw hid (hlike.alias_iff.mp hrole) (hplain i id hid) hid'
          hflags hsame hsaved))
    | added _ hflags => exact absurd (hflags.persist.symm.trans hsaved.persist) (by decide)

/-- A text that writes an alias. -/
def mapScript : Bytes := utf8 "w = 1"

set_option maxRecDepth 100000 in
private theorem run_session_mapScript :
    ((variableHost.session mapScript).compiled,
      fitsWords (variableHost.setMode true).table mapScript [],
      variableHost.table.idents.all (!·.flags.overridden),
      variableHost.table.idents.all (!variableHost.isSaved ·),
      ((variableHost.session mapScript).table.get? 122).any fun id =>
        (variableHost.session mapScript).isSaved id &&
          decide ((variableHost.session mapScript).entryOf id = ⟨utf8 "w", utf8 "alias", []⟩)) =
    (fun t src name => False ∨ (t = (variableHost.setMode true).table ∧ src = mapScript ∧ name = []),
      true, true, true, true) := by
  with_unfolding_all rfl

/-- The alias is saved after the session, without a value. -/
theorem session_adds_written_aliases_map : ∃ e ∈ (variableHost.session mapScript).collect,
    e.name = utf8 "w" ∧ e.value = [] ∧ (∀ e' ∈ variableHost.collect, e'.name ≠ e.name) ∧
    ∃ i n f, variableHost.writes ≤ n ∧ (variableHost.session mapScript).written n i f ∧
      f.persist = true := by
  obtain ⟨ledger, h⟩ := hosted_variableHost
  obtain ⟨hw, hchecked⟩ := Within.of_run (r := .layout) run_session_mapScript
  obtain ⟨hplain, hnone, hsome⟩ := by simpa only [Prod.mk.injEq] using hchecked
  obtain ⟨id, hid, hboth⟩ := (Option.any_eq_true _ _).mp hsome
  obtain ⟨hsaved, hentry⟩ := Bool.and_eq_true_iff.mp hboth
  have hentry := of_decide_eq_true hentry
  have he := Interp.entryOf_mem_collect hid (Interp.isSaved_iff.mp hsaved)
  have hempty (e' : Entry) (he' : e' ∈ variableHost.collect) : False := by
    obtain ⟨i, id, hid, hsaves, -⟩ := Interp.mem_collect.mp he'
    have hno := Array.all_eq_true_iff_forall_mem.mp hnone id (Array.mem_of_getElem? hid)
    rw [Interp.isSaved_iff.mpr hsaves] at hno
    cases hno
  rcases session_adds_written_aliases h hw (fun i id hid => by
    simpa using Array.all_eq_true_iff_forall_mem.mp hplain id (Array.mem_of_getElem? hid)) he with
    ⟨e', he', -⟩ | ⟨i, id', n, f, -, -, -, hn, hf, hp⟩
  · exact (hempty e' he').elim
  · exact ⟨_, he, by rw [hentry], by rw [hentry], fun e' he' => (hempty e' he').elim, i, n, f, hn, hf, hp⟩

end Sessions

end ConsoleScript
