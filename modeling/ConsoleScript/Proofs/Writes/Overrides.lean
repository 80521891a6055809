import ConsoleScript.Proofs.Writes.Variables

/-!
Sessions in which writes override. A host lets writes override, executes a text, and then ends all
overrides. Where none of its own programs watches, every variable that was not overridden before has the
value that it had, whatever the text did and however it ended.
-/

namespace ConsoleScript

open Bytecode Engine

namespace Interp

/-- The interpreter after a text was executed with writes that override. -/
@[irreducible]
def overriding (src : Bytes) (s : Interp) : Interp :=
  (Move.request (.execute src)).perform ((Move.request (.setOverrideMode true)).perform s)

/-- The interpreter after a text was executed with writes that override, and all overrides have
ended. -/
@[irreducible]
def session (src : Bytes) (s : Interp) : Interp :=
  (Move.request .clearOverrides).perform
    ((Move.request (.setOverrideMode false)).perform (s.overriding src))

end Interp

section Clearing

variable {k : Runner} {s s' : Interp} {i : Nat} {id id' : Ident} {v : Value}

namespace Interp

theorem Varies.valueOf {j : Nat} {other other' : Ident} (h : Varies j other other' s s')
    (hs : s.Apart) (hj : j ≠ i) (hid : s.table.get? i = some id) (hkept : id.role.isKept = true) :
    s'.valueOf id = s.valueOf id := by
  refine valueOf_eq (Role.isVar_of_isKept hkept) rfl fun c hc => h.cells c ?_ fun hcell => ?_
  · rintro rfl
    exact Role.cell?_of_isKept hkept hc
  · exact hj (hs j i other id c h.found hid hcell hc)

end Interp

/-- When the override of an identifier has ended, a variable there has its value back. -/
theorem outcome_clearOverride (hu : s.Unwatched) (hid : s.table.get? i = some id) :
    ∃ id' s', outcome (clearOverride k i) s = (.ok ⟨⟩, s') ∧ s.Varies i id id' s' ∧
      (id.role.isVar = true → id.Sound → s.Reverts v id →
        id'.flags.overridden = false ∧ s'.valueOf id' = v) := by
  cases ho : id.flags.overridden with
  | false =>
      refine ⟨id, s, outcome_clearOverride_plain hid ho,
        .of_table hid rfl (fun _ _ _ => rfl) rfl rfl rfl, fun _ _ hv => ⟨ho, ?_⟩⟩
      unfold Interp.Reverts at hv
      rwa [ho, if_neg Bool.false_ne_true] at hv
  | true =>
      cases hvar : id.role.isVar with
      | false =>
          obtain ⟨id', s', hok, hvaries⟩ := outcome_clearOverride_other (k := k) hid ho hvar
          exact ⟨id', s', hok, hvaries, nofun⟩
      | true =>
          obtain ⟨id', s', hok, hvaries, hplain, hvalue⟩ :=
            outcome_clearOverride_unwatched (k := k) hu hid ho hvar
          refine ⟨id', s', hok, hvaries, fun _ hs hv => ⟨hplain, ?_⟩⟩
          unfold Interp.Reverts at hv
          rw [if_pos ho] at hv
          rw [hvalue, Role.stored_of_fits (hs.before ho), hv]

/-- When the overrides of a list of identifiers have ended, a variable among them has its value back,
and so has one that was not overridden. -/
theorem outcome_clearOverride_forM (hu : s.Unwatched) (hs : s.Apart) (l : List Nat)
    (hl : ∀ j ∈ l, j < s.table.size) (hid : s.table.get? i = some id)
    (hkept : id.role.isKept = true) (hsound : id.Sound) (hv : s.Reverts v id)
    (hi : i ∈ l ∨ id.flags.overridden = false) :
    ∃ id' s', outcome (l.forM (clearOverride k)) s = (.ok ⟨⟩, s') ∧ s'.table.get? i = some id' ∧
      id'.flags.overridden = false ∧ s'.valueOf id' = v := by
  induction l generalizing s id with
  | nil =>
      have hplain := hi.resolve_left List.not_mem_nil
      refine ⟨id, s, rfl, hid, hplain, ?_⟩
      unfold Interp.Reverts at hv
      rwa [hplain, if_neg Bool.false_ne_true] at hv
  | cons j l ih =>
      obtain ⟨other, hother⟩ := Table.exists_get? (hl j List.mem_cons_self)
      obtain ⟨other', s', hok, hvaries, hback⟩ := outcome_clearOverride (k := k) (v := v) hu hother
      have hlasts := hvaries.lasts
      have hl' (j' : Nat) (hj' : j' ∈ l) : j' < s'.table.size :=
        Nat.lt_of_lt_of_le (hl j' (List.mem_cons_of_mem j hj')) hlasts.keeps.size
      have hnext := outcome_bind_ok hok fun _ => l.forM (clearOverride k)
      rw [show outcome ((j :: l).forM (clearOverride k)) s = _ from hnext]
      by_cases hj : j = i
      · subst hj
        cases hid.symm.trans hother
        obtain ⟨hplain, hvalue⟩ := hback (Role.isVar_of_isKept hkept) hsound hv
        have hno {p : Prop} (h : other'.flags.overridden = true) : p :=
          absurd (hplain.symm.trans h) Bool.false_ne_true
        refine ih (hu.lasts hlasts) (hs.lasts hlasts) hl' hvaries.get?
          (hvaries.like.isKept.trans hkept) ⟨?_, hno, hno, hno⟩ ?_ (.inr hplain)
        · exact Bool.eq_false_iff.mpr fun h => Bool.false_ne_true
            (hsound.known.symm.trans (hvaries.flags.unknown h))
        · unfold Interp.Reverts
          rwa [hplain, if_neg Bool.false_ne_true]
      · have hid' : s'.table.get? i = some id := by rw [hvaries.table, if_neg hj, hid]
        refine ih (hu.lasts hlasts) (hs.lasts hlasts) hl' hid' hkept hsound ?_
          (hi.imp_left fun h => (List.mem_cons.mp h).resolve_left (Ne.symm hj))
        unfold Interp.Reverts at *
        rwa [hvaries.valueOf hs hj hid hkept]

namespace Interp

theorem Apart.setMode (h : s.Apart) (on : Bool) : (s.setMode on).Apart := h

theorem Unwatched.setMode (h : s.Unwatched) (on : Bool) : (s.setMode on).Unwatched := h

theorem Reverts.setMode (h : s.Reverts v id) (on : Bool) : (s.setMode on).Reverts v id := by
  unfold Reverts at *
  rwa [valueOf_of_cells (s := s) fun c => by cases c <;> rfl]

theorem Protects.lasts_setMode {on : Bool} (h : (s.setMode on).Protects s') :
    s.table.Lasts s'.table :=
  h.lasts

end Interp

private theorem outcome_clearOverrides (s : Interp) : outcome clearOverrides s =
    outcome ((List.range s.table.size).forM (clearOverride (run s.maxDepth.toNat))) s := by
  rw [clearOverrides, outcome_runner]
  exact outcome_bind_ok (outcome_get s) _

private theorem clearOverrides_reverts (hu : s.Unwatched) (hs : s.Apart)
    (hid : s.table.get? i = some id)
    (hkept : id.role.isKept = true) (hsound : id.Sound) (hv : s.Reverts v id) :
    ∃ id', (Request.after clearOverrides s).table.get? i = some id' ∧
      id'.flags.overridden = false ∧ (Request.after clearOverrides s).valueOf id' = v := by
  obtain ⟨id', s', hok, hid', hplain, hvalue⟩ := outcome_clearOverride_forM
    (k := run s.maxDepth.toNat) hu hs (List.range s.table.size) (fun j hj => List.mem_range.mp hj) hid
    hkept hsound hv (.inl (List.mem_range.mpr (Table.lt_size_of_get? hid)))
  have hafter : Request.after clearOverrides s = s' := by
    rw [Request.after, outcome_clearOverrides, hok]
  rw [hafter]
  exact ⟨id', hid', hplain, hvalue⟩

private theorem clearOverrides_setMode_reverts (on : Bool) (hu : s.Unwatched) (hs : s.Apart)
    (hid : s.table.get? i = some id) (hkept : id.role.isKept = true) (hsound : id.Sound)
    (hv : s.Reverts v id) :
    ∃ id', (Request.after clearOverrides (s.setMode on)).table.get? i = some id' ∧
      id'.flags.overridden = false ∧
      (Request.after clearOverrides (s.setMode on)).valueOf id' = v :=
  clearOverrides_reverts (hu.setMode on) (hs.setMode on) hid hkept hsound (hv.setMode on)

private theorem protects_execute (hs : s.Apart) (src : Bytes) :
    s.Protects (Request.after (execute src) s) :=
  (meets_execute (G := .protecting) src s hs).1

private theorem protects_clearOverrides (hs : s.Apart) :
    s.Protects (Request.after clearOverrides s) :=
  (meets_clearOverrides (G := .protecting) s hs).1

private theorem within_setMode {r : Rigour} {on : Bool} (h : Within r (s.setMode on)) :
    Within r s :=
  ⟨h.texts, h.blocks, h.tables, h.calls, h.uncrowded⟩

private theorem within_perform {r : Rigour} {q : Request} (h : Within r (q.perform s)) :
    Within r s :=
  h.of_grows (q.rests (r := r) s).1

end Clearing

section Sessions

variable {r : Rigour} {s : Interp} {ledger : Ledger} {src : Bytes} {i : Nat} {id : Ident}

namespace Interp

theorem Hosted.ran (h : Hosted r ledger s) (m : Move) (hm : m.Allowed r s)
    (hr : m.registration? s = none) : Hosted r ledger (m.perform s) := by
  have hmove := h.move m hm
  have henter : m.enter s ledger = ledger := by
    unfold Move.enter
    rw [hr]
  rwa [henter] at hmove

theorem Hosted.overriding (h : Hosted r ledger s) (src : Bytes) :
    Hosted r ledger (s.overriding src) := by
  unfold Interp.overriding
  exact (h.ran (.request (.setOverrideMode true)) trivial rfl).ran (.request (.execute src)) trivial rfl

theorem Hosted.session (h : Hosted r ledger s) (src : Bytes) :
    Hosted r ledger (s.session src) := by
  unfold Interp.session
  exact ((h.overriding src).ran (.request (.setOverrideMode false)) trivial rfl).ran
    (.request .clearOverrides) trivial rfl

theorem overriding_eq (src : Bytes) (s : Interp) :
    s.overriding src = Request.after (execute src) (s.setMode true) := by
  unfold overriding
  rfl

theorem session_eq (src : Bytes) (s : Interp) :
    s.session src = Request.after clearOverrides ((s.overriding src).setMode false) := by
  unfold session
  rfl

theorem protects_overriding (hs : s.Apart) (src : Bytes) :
    (s.setMode true).Protects (s.overriding src) := by
  rw [overriding_eq]
  exact protects_execute (hs.setMode true) src

theorem protects_session (hs : s.Apart) (src : Bytes) :
    ((s.overriding src).setMode false).Protects (s.session src) := by
  have h := hs.lasts (protects_overriding hs src).lasts_setMode
  rw [session_eq]
  exact protects_clearOverrides (h.setMode false)

theorem lasts_session (hs : s.Apart) (src : Bytes) : s.table.Lasts (s.session src).table :=
  (protects_overriding hs src).lasts_setMode.trans (protects_session hs src).lasts_setMode

theorem within_session {r : Rigour} (hw : Within r (s.session src)) :
    Within r (s.overriding src) ∧ Within r s := by
  rw [session_eq] at hw
  have hran : Within r (s.overriding src) :=
    within_setMode (within_perform (q := .clearOverrides) hw)
  refine ⟨hran, ?_⟩
  rw [overriding_eq] at hran
  exact within_setMode (within_perform (q := .execute src) hran)

end Interp

/-- A variable that was not overridden before a session has its value from before when the session is
over, and is not overridden, whatever the text did with it. -/
theorem overrides_of_variables_end (h : Interp.Hosted .layout ledger s)
    (hw : Within .layout (s.session src)) (hu : s.Unwatched) (hid : s.table.get? i = some id)
    (hvar : id.role.isVar = true) (hplain : id.flags.overridden = false) :
    ∃ id', (s.session src).table.get? i = some id' ∧ id.Like id' ∧ id'.flags.overridden = false ∧
      (s.session src).valueOf id' = s.valueOf id := by
  have hs := h.orderly.apart
  obtain ⟨id', hid', hlike⟩ := (Interp.lasts_session hs src).kept i id hid
  refine ⟨id', hid', hlike, ?_⟩
  obtain ⟨hwran, hws⟩ := Interp.within_session hw
  cases hshows : id.role.showsCallArgs with
  | true =>
      obtain ⟨-, hplain', hvalue'⟩ := (h.session src).holds_callArgs hw hid'
        (hlike.showsCallArgs.trans hshows)
      obtain ⟨-, -, hvalue⟩ := h.holds_callArgs hws hid hshows
      exact ⟨hplain', hvalue'.trans hvalue.symm⟩
  | false =>
      have hkept : id.role.isKept = true := by
        rw [Role.isKept, hvar, hshows]
        rfl
      have hsound := h.sound hws hid hkept
      -- While the text runs the value is in the variable, or kept for it.
      have hp := Interp.protects_overriding hs src
      obtain ⟨id₁, hid₁, ht⟩ := hp.kept ((h.overriding src).wellWritten hwran) i id hid hkept
      obtain ⟨id₂, hid₂, hlike₁⟩ := hp.lasts_setMode.kept i id hid
      cases hid₁.symm.trans hid₂
      have hbefore : s.Reverts (s.valueOf id) id := by
        unfold Interp.Reverts
        rw [hplain, if_neg Bool.false_ne_true]
      have hafter := ht.reverts (hu.setMode true) rfl hsound _ (hbefore.setMode true)
      -- The override of every identifier is ended, and so that of the variable is.
      have hlasts := hp.lasts_setMode
      obtain ⟨id₂, hid₂, hback⟩ := clearOverrides_setMode_reverts false (hu.lasts hlasts)
        (hs.lasts hlasts) hid₁ (hlike₁.isKept.trans hkept) (ht.sound hsound) hafter
      rw [Interp.session_eq] at hid' ⊢
      cases hid'.symm.trans hid₂
      exact hback

/-- Whether a watcher is a program of the host. -/
def Watch.isHost : Watch → Bool
  | .host _ => true
  | .none | .persistence => false

theorem Interp.Unwatched.of_all (h : s.table.idents.all (!·.role.watch.isHost) = true) :
    s.Unwatched := by
  intro i id hid f hf
  have hall := Array.all_eq_true_iff_forall_mem.mp h id (Array.mem_of_getElem? hid)
  rw [hf] at hall
  cases hall

def variableHost : Interp :=
  (Move.request (.registerInt (utf8 "v") 0 5 10 {} .none)).perform .new

theorem hosted_variableHost : ∃ ledger, Interp.Hosted .layout ledger variableHost :=
  ⟨_, Interp.Hosted.new.move (.request (.registerInt (utf8 "v") 0 5 10 {} .none)) trivial⟩

set_option maxRecDepth 100000 in
private theorem run_session_variableHost :
    ((variableHost.session (utf8 "v 7")).compiled,
      fitsWords (variableHost.setMode true).table (utf8 "v 7") [],
      variableHost.table.idents.all (!·.role.watch.isHost),
      (variableHost.table.get? 121).any (fun id => id.role.isVar && !id.flags.overridden),
      ((variableHost.overriding (utf8 "v 7")).table.get? 121).map
        (variableHost.overriding (utf8 "v 7")).valueOf) =
    (fun t src name => False ∨
      (t = (variableHost.setMode true).table ∧ src = utf8 "v 7" ∧ name = []),
      true, true, true, some (.int 7)) := by
  with_unfolding_all rfl

/-- The variable is written in the session. -/
theorem overrides_of_variables_end_written : ∃ id id',
    variableHost.table.get? 121 = some id ∧
    ((variableHost.overriding (utf8 "v 7")).table.get? 121).map
      (variableHost.overriding (utf8 "v 7")).valueOf = some (.int 7) ∧
    (variableHost.session (utf8 "v 7")).table.get? 121 = some id' ∧
    (variableHost.session (utf8 "v 7")).valueOf id' = variableHost.valueOf id := by
  obtain ⟨ledger, h⟩ := hosted_variableHost
  obtain ⟨hw, hchecked⟩ := Within.of_run (r := .layout) run_session_variableHost
  obtain ⟨hunwatched, hsome, hwritten⟩ := by simpa only [Prod.mk.injEq] using hchecked
  obtain ⟨id, hid, hboth⟩ := (Option.any_eq_true _ _).mp hsome
  obtain ⟨hvar, hplain⟩ := Bool.and_eq_true_iff.mp hboth
  obtain ⟨id', hid', -, -, hvalue⟩ := overrides_of_variables_end h hw (.of_all hunwatched) hid hvar
    (by simpa using hplain)
  exact ⟨id, id', hid, hwritten, hid', hvalue⟩

/-- Code that no compiler has made, which makes the variable for the number of arguments writable where
new aliases do not persist. -/
def exposedHost : Interp :=
  (Move.request (.executeCode foreignBlock 1)).perform
    ((Move.request (.execute (utf8 "persistidents 0"))).perform .new)

/-- After a session the number of arguments is that of a call which has ended. -/
theorem override_of_argument_count_lasts : ∃ s src i id id',
    Interp.Arises s ∧ s.writeFlags.overridden = false ∧ s.Unwatched ∧
    s.table.get? i = some id ∧ id.role.isVar = true ∧ id.flags.overridden = false ∧
    (s.session src).table.get? i = some id' ∧ (s.session src).valueOf id' ≠ s.valueOf id := by
  obtain ⟨hsome, hsome', hmode, hunwatched⟩ :
      (exposedHost.table.get? 26).any (fun id => id.role.isVar && !id.flags.overridden &&
        exposedHost.valueOf id == .int 0) = true ∧
      ((exposedHost.session (utf8 "f = [numargs = 3]; f 1 2")).table.get? 26).any
        (fun id => (exposedHost.session (utf8 "f = [numargs = 3]; f 1 2")).valueOf id == .int 2) =
          true ∧
      exposedHost.writeFlags.overridden = false ∧
      exposedHost.table.idents.all (!·.role.watch.isHost) = true := by decide +kernel
  obtain ⟨id, hid, hall⟩ := (Option.any_eq_true _ _).mp hsome
  obtain ⟨id', hid', hvalue'⟩ := (Option.any_eq_true _ _).mp hsome'
  obtain ⟨hboth, hvalue⟩ := Bool.and_eq_true_iff.mp hall
  obtain ⟨hvar, hplain⟩ := Bool.and_eq_true_iff.mp hboth
  refine ⟨exposedHost, _, 26, id, id', ((Interp.Arises.new.move (.request (.execute _))).move
    (.request (.executeCode foreignBlock 1))), hmode, .of_all hunwatched, hid, hvar,
    by simpa using hplain, hid', ?_⟩
  rw [eq_of_beq hvalue, eq_of_beq hvalue']
  decide

end Sessions

end ConsoleScript
