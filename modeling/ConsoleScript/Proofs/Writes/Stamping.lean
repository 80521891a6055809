import ConsoleScript.Proofs.Engine.Identifiers

/-!
Whether new aliases persist is kept in two places: as a number of the interpreter, which the variable
`persistidents` shows, and among the flags that writes leave. The watcher of the variable stamps the
flags after each write. A call puts the flags back that there were before it, and so it can bring back
an answer that was given up meanwhile. As long as no call has done that since the variable was written,
the two places agree.
-/

namespace ConsoleScript

open Bytecode Engine

/-- The flags that writes leave agree with the number that says whether new aliases persist, unless a
call has ended with another answer than it had begun with since the number was written. -/
def Interp.InStep (s : Interp) : Prop :=
  s.lapsed = false → s.writeFlags.persist = (s.persistence != 0)

/-- Lets the flags of writes follow the number. -/
def Watch.isPersistence : Watch → Bool
  | .persistence => true
  | _ => false

/-- Does not show whether new aliases persist, or tells when it is written. -/
def Role.announces (role : Role) : Bool :=
  role.cell? != some .persistence || role.watch.isPersistence

theorem Role.watch_of_announces {role : Role} (h : role.announces = true)
    (hc : role.cell? = some .persistence) : role.watch = .persistence := by
  unfold announces at h
  rw [hc] at h
  generalize role.watch = watch at h ⊢
  cases watch with
  | persistence => rfl
  | _ => cases h

theorem Role.lasting_announces : Role.Lasting fun role => role.announces = true where
  emptied role := by rw [announces, announces, cell?_emptied, watch_emptied]
  aliases := rfl

/-- What shows whether new aliases persist tells when it is written. -/
def Interp.Announcing (s : Interp) : Prop :=
  ∀ i id, s.table.get? i = some id → id.role.announces = true

/-- Identifiers stay what they are, and the flags of writes stay in step. -/
structure Interp.Stamps (s s' : Interp) : Prop where
  lasts : s.table.Lasts s'.table
  inStep : s.InStep → s'.InStep

/-- From interpreters in which every write of the number is announced, the flags stay in step. -/
def Engine.Guarantee.stamping : Guarantee where
  From := Interp.Announcing
  To := Interp.Stamps
  ends := False

namespace Interp

variable {s s' : Interp}

theorem InStep.of_eq (h : s.InStep) (hl : s'.lapsed = s.lapsed) (hp : s'.persistence = s.persistence)
    (hw : s'.writeFlags.persist = s.writeFlags.persist) : s'.InStep := by
  unfold InStep
  rw [hl, hp, hw]
  exact h

theorem inStep_stampPersistence (s : Interp) : s.stampPersistence.InStep := fun _ => rfl

namespace Stamps

theorem of_table (ht : s.table.Lasts s'.table) (hl : s'.lapsed = s.lapsed)
    (hp : s'.persistence = s.persistence) (hw : s'.writeFlags.persist = s.writeFlags.persist) :
    s.Stamps s' :=
  ⟨ht, fun h => h.of_eq hl hp hw⟩

theorem refl (s : Interp) : s.Stamps s := ⟨.refl _, id⟩

end Stamps

end Interp

instance : Guarantee.stamping.Indifferent where
  refl := .refl
  trans h h' := ⟨h.lasts.trans h'.lasts, fun hs => h'.inStep (h.inStep hs)⟩
  later hs h := h.lasts.roles Role.lasting_announces hs
  aside h := by
    rw [h.same]
    exact .of_table (.refl _) rfl rfl rfl
  stamp s := ⟨.refl _, fun _ => s.inStep_stampPersistence⟩
  push _ hn hx := .of_table (.push rfl hx hn) rfl rfl rfl
  withoutWhile h _ := h.elim
  rebound h := by
    refine .of_table h.table.lasts ?_ ?_ ?_ <;> rw [h.same]
  entered _ h := h
  left {s s'} _ _ h := by
    refine ⟨h.lasts, fun hs hl => ?_⟩
    -- The flags from before are put back; they agree with those that there are at the end.
    obtain ⟨hl, hsame⟩ := Bool.or_eq_false_iff.mp hl
    exact (bne_eq_false_iff_eq.mp hsame).symm.trans (h.inStep hs hl)

/-- A number of the interpreter is written; if it says whether new aliases persist, the flags are
stamped at once. -/
theorem stamps_cell {k : Runner} (hk : ∀ b pc, Meets .stamping (k b pc)) {s : Interp} {i : Nat}
    {id : Ident} {c : Cell} (hid : s.table.get? i = some id) (hc : id.role.cell? = some c)
    (v : Int32) : MeetsAt .stamping (do modify (·.setCell c v); notify k i) s := by
  cases c with
  | persistence =>
      intro hs
      have hwatch := Role.watch_of_announces (hs i id hid) hc
      have hnotify : outcome (notify k i) (s.setCell .persistence v) =
          (.ok ⟨⟩, (s.setCell .persistence v).stampPersistence) := by
        have hid' : (s.setCell .persistence v).table.get? i = some id := hid
        rw [notify, outcome_bind_ok (outcome_identAt hid'), hwatch]
        rfl
      rw [outcome_bind_ok (outcome_modify _ _), hnotify]
      exact ⟨⟨.refl _, fun _ => Interp.inStep_stampPersistence _⟩, False.elim⟩
  | callArgs | traceLimit =>
      exact Meets.bindAt (Meets.changeAt fun _ => .of_table (.refl _) rfl rfl rfl) fun _ s' _ =>
        meets_notify hk i s'

instance : Guarantee.stamping.Lawful where
  rewrite h := .of_table (.modify _ fun id hid => (h id hid).like) rfl rfl rfl
  bodyOf _ := meets_bodyOf_of fun _ s => Meets.changeAt fun _ =>
    .of_table (.modify s.table fun _ _ => ⟨rfl, rfl⟩) rfl rfl rfl
  cell {_} hk {_ i _ _ _ _ _} v hid hrole _ := stamps_cell hk hid (by rw [hrole]; rfl) v
  mode s _ := .of_table (.refl _) rfl rfl rfl
  setAlias i v := Meets.read fun _ =>
    .bind (fun _ => Meets.changeAt fun _ => .of_table (.refl _) rfl rfl rfl) fun _ s =>
      Meets.changeAt fun _ => .of_table (.modify s.table fun _ _ => ⟨rfl, rfl⟩) rfl rfl rfl

theorem Interp.announcing_new : Interp.new.Announcing :=
  fun _ _ hid => of_get?_new (p := (·.role.announces)) (by decide) hid

theorem Interp.Announcing.registered {s : Interp} (hs : s.Announcing) {id : Ident}
    (hid : id.Registered) : (Request.registered s (s.register id)).Announcing := by
  intro i id' hid'
  rcases Interp.get?_registered hid' with hold | ⟨rfl, -⟩
  · exact hs i id' hold
  · rw [Role.announces, hid.role.cell?]
    rfl

theorem Interp.Arises.inStep {s : Interp} (h : s.Arises) : s.Announcing ∧ s.InStep := by
  induction h with
  | new => exact ⟨announcing_new, fun _ => rfl⟩
  | @move s _ m ih =>
      rcases m.meets (G := .stamping) ih.1 with ht | ⟨-, id, hid, heq⟩
      · exact ⟨Guarantee.Composes.later (G := .stamping) ih.1 ht, ht.inStep ih.2⟩
      · rw [heq]
        refine ⟨ih.1.registered hid, ?_⟩
        rw [registered_eq]
        exact ih.2.of_eq rfl rfl rfl

/-- Whether new aliases persist is what the number says, and what every variable that shows it says: in
every interpreter that a host can have, unless a call has ended with another answer than it had begun
with since the number was written. An alias that is written then persists exactly if the number is not
zero. -/
theorem new_aliases_persist_as_shown {s : Interp} (h : s.Arises) (hl : s.lapsed = false) :
    s.writeFlags.persist = (s.persistence != 0) ∧
    (∀ i id n, s.table.get? i = some id → id.role.cell? = some .persistence →
      s.valueOf id = .int n → (s.writeFlags.persist = true ↔ n ≠ 0)) ∧
    ∀ i v id, (outcome (setAlias i v) s).2.table.get? i = some id →
      id.flags.persist = (s.persistence != 0) := by
  have hstep := h.inStep.2 hl
  refine ⟨hstep, fun i id n _ hcell hvalue => ?_, fun i v id hid => ?_⟩
  · have hshown : s.valueOf id = .int s.persistence := by
      unfold Interp.valueOf
      generalize id.role = role at hcell
      unfold Role.cell? at hcell
      split at hcell
      · cases hcell
        rfl
      · cases hcell
    cases hshown.symm.trans hvalue
    rw [hstep, bne_iff_ne]
  · have hwritten : (outcome (setAlias i v) s).2.table =
        s.table.modify i fun id => { id.setValue v with flags := s.writeFlags } := rfl
    rw [hwritten, Table.get?_modify, if_pos rfl] at hid
    obtain ⟨old, -, rfl⟩ := Option.map_eq_some_iff.mp hid
    exact hstep

/-- After a call that gives the number and takes it back. -/
def shownHost : Interp :=
  (Move.request (.execute (utf8 "f = [persistidents 0; persistidents 1]; f"))).perform .new

/-- The call ends with the answer that it had begun with. -/
theorem new_aliases_persist_as_shown_call :
    shownHost.Arises ∧ shownHost.lapsed = false ∧
      shownHost.writeFlags.persist = (shownHost.persistence != 0) := by
  have harises : shownHost.Arises := .move .new _
  have hlapsed : shownHost.lapsed = false := by decide +kernel
  exact ⟨harises, hlapsed, (new_aliases_persist_as_shown harises hlapsed).1⟩

/-- After a call that only gives the number. -/
def staleHost : Interp :=
  (Move.request (.execute (utf8 "f = [persistidents 0]; f"))).perform .new

theorem new_aliases_persist_against_number : staleHost.Arises ∧ staleHost.scopes.length = 0 ∧
    staleHost.persistence = 0 ∧ staleHost.writeFlags.persist = true := by
  have harises : staleHost.Arises := .move .new _
  exact ⟨harises, by decide +kernel⟩

end ConsoleScript
