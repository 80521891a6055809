import ConsoleScript.Proofs.Writes.ProtectedWrites

/-!
The interpreters that a well-behaved host can have, with a ledger of what it has registered. A host hands
in only code that can be run. It may save and load snapshots, whatever is in its archives. The ledger
tells for each index what was registered there last and the value that it had then; an interpreter
begins with its own variables and commands on the ledger.
-/

namespace ConsoleScript

open Bytecode Engine

/-- What each index was registered as, and the value that it had then. -/
abbrev Ledger := Nat → Option (Ident × Value)

/-- What stands at each index. -/
def Interp.entries (s : Interp) : Ledger := fun i => (s.table.get? i).map fun id => (id, s.valueOf id)

/-- What comes of a registration; nothing for other requests. -/
def Request.registration? : Request → Interp → Option (Except RegisterError (Nat × Interp))
  | .registerInt name least default greatest flags watch, s =>
      some (s.registerInt name least default greatest flags watch)
  | .registerFloat name least default greatest flags watch, s =>
      some (s.registerFloat name least default greatest flags watch)
  | .registerText name default flags watch, s => some (s.registerText name default flags watch)
  | .registerCommand name sig f flags, s => some (s.registerCommand name sig f flags)
  | _, _ => none

namespace Move

def registration? : Move → Interp → Option (Except RegisterError (Nat × Interp))
  | .request q, s => q.registration? s
  | _, _ => none

/-- The ledger after a move: what is registered is entered at its index. -/
def enter (m : Move) (s : Interp) (ledger : Ledger) : Ledger := match m.registration? s with
  | some (.ok (i, s')) => fun j => if i = j then s'.entries j else ledger j
  | _ => ledger

/-- What is expected of a host. -/
def Allowed (r : Rigour) (s : Interp) : Move → Prop
  | .request q => q.Allowed r s
  | .executeAt b pc => 0 ≤ pc ∧ (Value.code b pc.toNat).Ok r s.table
  | .save .. | .load .. => True

end Move

/-- The interpreters that a well-behaved host can have, and their ledgers. -/
inductive Interp.Hosted (r : Rigour) : Ledger → Interp → Prop
  | new : Hosted r Interp.new.entries .new
  | move {ledger : Ledger} {s : Interp} (h : Hosted r ledger s) (m : Move) (hm : m.Allowed r s) :
      Hosted r (m.enter s ledger) (m.perform s)

section Rest

namespace World

variable {r : Rigour} {w : World r}

theorem safe_set {s' : Interp} (h : Calm w.state s') (hl : s'.level = w.state.level := by rfl) :
    w.Safe (set s') fun _ _ => True :=
  ⟨.ok h.grows hl, fun hl _ => ⟨h.keeps (w.inv hl), trivial⟩⟩

private theorem safe_save (store : SnapshotStore) (id label : Bytes) (now : Nat) :
    w.Safe (store.save id label now) fun _ _ => True := by
  refine .read ?_
  split
  · exact .pure fun _ => trivial
  · exact (safe_set {}).bind fun _ _ _ _ => .pure fun _ => trivial

private theorem safe_restore (e : Entry) : w.Safe e.restore fun _ _ => True := by
  have htext : w.Good (.ofBytes e.value) := fun _ => trivial
  refine .read ?_
  dsimp only
  generalize (e.kind == utf8 "alias" || _) = writes
  cases writes with
  | true => exact (safe_setValue _ htext).bind fun _ _ _ _ => .pure fun _ => trivial
  | false => exact .pure fun _ => trivial

private theorem safe_loadSnapshot (store : SnapshotStore) (id : Bytes) :
    w.Safe (store.load id) fun _ _ => True := by
  refine .read ?_
  split
  · exact .pure fun _ => trivial
  next found disk _ =>
    refine (safe_set {}).bind fun w' _ _ _ => ?_
    cases found with
    | none => exact .pure fun _ => trivial
    | some entries =>
        exact (Safe.each _ fun _ _ e _ => safe_restore e).bind fun _ _ _ _ => .pure fun _ => trivial

private theorem safe_executeCode_neg {b : Block} {pc : Int} (hneg : pc < 0) (h : ¬w.live) :
    w.Safe (executeCode b pc) fun _ _ => True := by
  refine .runner fun k _ => (Safe.shielded ?_).drop
  refine .ite (fun _ => .read (.ite (fun _ => ?_) fun _ => .failAt fun hl => absurd hl h))
    fun hpos => absurd hneg hpos
  exact (w.safe_debug _).bind fun w' _ hw _ => .failAt fun hl => absurd (hw hl).1 h

end World

variable {r : Rigour} {s : Interp}

theorem Move.rests (m : Move) (s : Interp) : Grows s (m.perform s) ∧
    (AtRest r s → m.Allowed r s → Within r (m.perform s) → s.Rests r (m.perform s)) := by
  cases m with
  | request q => exact q.rests s
  | save store id label now => exact AtRest.after fun _ => World.safe_save store id label now
  | load store id => exact AtRest.after fun _ => World.safe_loadSnapshot store id
  | executeAt b pc =>
      by_cases hpos : 0 ≤ pc
      · obtain ⟨n, rfl⟩ := Int.eq_ofNat_of_zero_le hpos
        exact AtRest.after fun _ => World.safe_executeCode fun hl => hl.2.2
      · exact AtRest.after fun _ => World.safe_executeCode_neg (Int.not_le.mp hpos) fun hl =>
          hpos hl.2.1

/-- A hosted interpreter is at rest, without arguments, and only named aliases were written as aliases
are, if what was compiled fits. -/
theorem Interp.Hosted.rests {ledger : Ledger} (h : Hosted r ledger s) (hw : Within r s) :
    AtRest r s ∧ s.callArgs = 0 ∧ ∀ n i f, s.written n i f → s.table.IsNamed r i := by
  induction h with
  | new => exact ⟨⟨inv_new r, rfl, depth_new⟩, rfl, fun _ _ _ h => h.elim⟩
  | @move ledger s _ m hm ih =>
      obtain ⟨hg, hrest⟩ := m.rests (r := r) s
      obtain ⟨hat, hargs, hnamed⟩ := ih (hw.of_grows hg)
      have hafter := hrest hat hm hw
      refine ⟨hafter.atRest, hafter.callArgs.trans hargs, fun n i f hn => ?_⟩
      exact (hafter.named n i f hn).elim (fun hn => (hnamed n i f hn).mono hafter.forms) id

end Rest

section Registrations

variable {G : Guarantee} [G.Based] {s s' : Interp} {id : Ident} {i : Nat}

/-- What is registered stands at its index, and nothing else changes. It is new there, or in place of an
identifier of its kind. -/
theorem Interp.register_ok (h : s.register id = .ok (i, s')) : s' = { s with table := s'.table } ∧
    (∀ j, s'.table.get? j = if i = j then some id else s.table.get? j) ∧
    (s.table.get? i = none ∨
      ∃ old, s.table.get? i = some old ∧ old.role.kindName = id.role.kindName) := by
  unfold Interp.register Table.add at h
  cases hold : s.table.lookup? id.name with
  | none =>
      rw [hold] at h
      cases h
      refine ⟨rfl, fun j => ?_, .inl (Table.get?_eq_none (Nat.le_refl _))⟩
      rw [Table.get?_push]
      simp only [eq_comm]
  | some found =>
      obtain ⟨j, old⟩ := found
      rw [hold] at h
      dsimp only at h
      by_cases hkind : (old.role.kindName == id.role.kindName) = true
      · rw [if_pos hkind] at h
        cases h
        have hget := Table.get?_of_lookup? hold
        refine ⟨rfl, fun j => ?_, .inr ⟨old, hget, eq_of_beq hkind⟩⟩
        rw [Table.get?_modify]
        split
        next hj =>
          rw [← hj, hget]
          rfl
        · rfl
      · rw [if_neg hkind] at h
        cases h

/-- How a move leaves an interpreter and its ledger: it runs code, which meets a guarantee, or it
registers an identifier, which is entered. -/
def Move.Progresses (G : Guarantee) (m : Move) (s : Interp) : Prop :=
  (G.To s (m.perform s) ∧ ∀ l, m.enter s l = l) ∨
  ∃ id i, id.Registered ∧ s.register id = .ok (i, m.perform s) ∧
    ∀ l, m.enter s l = fun j => if i = j then (m.perform s).entries j else l j

/-- The guarantee may not be given for letting writes override. -/
theorem Move.progresses (m : Move) (hs : G.From s)
    (hmode : ∀ on, m = .request (.setOverrideMode on) → G.To s (s.setMode on)) :
    m.Progresses G s := by
  have hrefused {e : RegisterError} (hr : m.registration? s = some (.error e))
      (hp : m.perform s = s) : m.Progresses G s := by
    refine .inl ⟨hp.symm ▸ Guarantee.Composes.refl s, fun _ => ?_⟩
    unfold Move.enter
    rw [hr]
  have hregistered {id : Ident} (hid : id.Registered)
      (hr : m.registration? s = some (s.register id))
      (hp : m.perform s = Request.registered s (s.register id)) : m.Progresses G s := by
    cases h : s.register id with
    | error e => exact hrefused (hr.trans (congrArg some h)) (hp.trans (by rw [h]; rfl))
    | ok found =>
        rw [h] at hr hp
        refine .inr ⟨id, found.1, hid, h.trans (by rw [hp]; rfl), fun _ => ?_⟩
        unfold Move.enter
        rw [hr, hp]
        rfl
  have hran (hr : m.registers = false) (hnone : m.registration? s = none) :
      m.Progresses G s := by
    refine .inl ⟨?_, fun _ => ?_⟩
    · rcases m.meets_of hs hmode with ht | ⟨htrue, -⟩
      · exact ht
      · exact absurd (hr.symm.trans htrue) Bool.false_ne_true
    · unfold Move.enter
      rw [hnone]
  cases m with
  | executeAt | save | load => exact hran rfl rfl
  | request q =>
      cases q with
      | registerInt => exact hregistered ⟨.variable rfl rfl, rfl, rfl⟩ rfl rfl
      | registerFloat => exact hregistered ⟨.variable rfl rfl, rfl, rfl⟩ rfl rfl
      | registerText => exact hregistered ⟨.variable rfl rfl, rfl, rfl⟩ rfl rfl
      | registerCommand name sig f flags =>
          cases f with
          | none => exact hrefused rfl rfl
          | some f =>
              cases hparse : Signature.parse sig with
              | error e =>
                  have hr : s.registerCommand name sig (some f) flags =
                      .error (.badSignature name sig e) := by
                    rw [Interp.registerCommand, hparse]
                  exact hrefused (congrArg some hr) (congrArg (Request.registered s) hr)
              | ok letters =>
                  have hr : s.registerCommand name sig (some f) flags = s.register {
                      name, role := .command letters (.host f), flags := flags.forRegistration } := by
                    rw [Interp.registerCommand, hparse]
                  exact hregistered ⟨.command f hparse, rfl, rfl⟩ (congrArg some hr)
                    (congrArg (Request.registered s) hr)
      | _ => exact hran rfl rfl

end Registrations

end ConsoleScript
