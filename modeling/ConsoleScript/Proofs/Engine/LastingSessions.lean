import ConsoleScript.Proofs.Engine.LastingRuns
import ConsoleScript.Proofs.Engine.Sessions

/-!
What a host cannot change. Besides running code, a host registers variables and commands; in place of
an identifier that is there already it can register only one of the same kind.
-/

namespace ConsoleScript

open Bytecode Engine

variable {G : Guarantee} [G.Based]

section Requests

theorem meets_runner {α : Type} {f : Runner → Engine α}
    (h : ∀ k, (∀ b pc, Meets G (k b pc)) → Meets G (f k)) : Meets G (runner >>= f) :=
  .read fun _ => h _ fun b pc => meets_run _ b pc

theorem meets_execute (src : Bytes) : Meets G (execute src) :=
  meets_runner fun _ hk => .protect (meets_runText hk src [])

theorem meets_executeCode (b : Block) (pc : Int) : Meets G (executeCode b pc) := by
  refine meets_runner fun k hk => .protect ?_
  split
  · refine .read fun s => ?_
    split
    · exact .bind (meets_debug _) fun _ => .fault _
    · exact .fault _
  · exact .bind (hk _ _) fun _ => .pure _

theorem meets_executeIdent (i : Nat) (args : List Value) : Meets G (executeIdent i args) := by
  refine meets_runner fun k hk => .protect (.identAt fun id hid => ?_)
  split
  · split
    · exact .bind (meets_debug _) fun _ => .pure _
    · exact meets_callAlias hk i (Nat.le_trans (List.length_take_le _ _) (by decide)) _
  · split
    · exact .ensuringLevel (meets_callShaped hk i hid false _)
    · exact .pure _

private theorem meets_call (name : Bytes) (args : List Value) : Meets G (call name args) := by
  refine .read fun s => ?_
  split
  · exact .pure _
  · exact .bind (meets_executeIdent _ args) fun _ => .pure _

private theorem meets_execFile (path : Bytes) : Meets G (execFile path) := by
  refine meets_runner fun k hk => .bind (meets_readScript path) fun found => ?_
  cases found with
  | error e => exact .bind (.update fun _ => ⟨rfl, fun _ _ _ h => h⟩) fun _ => .pure _
  | ok file => exact .bind (.protect (meets_runText hk _ _)) fun _ => .pure _

theorem meets_setValueNamed (name : Bytes) (v : Value) : Meets G (setValue name v) := by
  refine meets_runner fun k hk => .read fun s => ?_
  split
  · exact .bind (meets_assignNamed hk name v) fun _ => .pure _
  · split
    · exact .pure _
    · split
      · exact .bind (meets_assign hk _ v) fun _ => .pure _
      · exact .pure _

theorem meets_clearOverrides : Meets G clearOverrides :=
  meets_runner fun _ hk => .read fun _ => .forM (Guarantee.Based.clearOverride hk) _

private theorem meets_bindIdents (names : List Bytes) : Meets G (bindIdents names) := by
  refine fun s => Meets.readAt ?_
  exact (Meets.pure (s.table.bind names).1).moved ({ s with table := (s.table.bind names).2 })
    (Guarantee.Composes.gains (Table.gains_bindFrom 0 _ names)) rfl

/-- The roles of what a host registers. -/
inductive Role.Registered : Role → Prop
  | variable {role : Role} (h : role.isVar = true) (hown : role.cell? = none) :
      Registered role
  | command {text : Bytes} {letters : Signature} (f : List Value → HostProgram)
      (h : Signature.parse text = .ok letters) : Registered (.command letters (.host f))

/-- What a host registers: it chooses the name, the role and some flags. -/
structure Ident.Registered (id : Ident) : Prop where
  role : id.role.Registered
  flags : id.flags.forRegistration = id.flags
  blank : id = { name := id.name, role := id.role, flags := id.flags }

theorem Role.Registered.cell? {role : Role} (h : role.Registered) : role.cell? = none := by
  cases h with
  | «variable» _ hown => exact hown
  | command => rfl

theorem Role.showsCallArgs_of_cell? {role : Role} (h : role.cell? = none) :
    role.showsCallArgs = false := by
  cases role with
  | intVar least greatest store watch =>
      cases store with
      | own => rfl
      | shared => cases h
  | _ => rfl

/-- Adds an identifier under a name that the host chooses. -/
def Request.registers : Request → Bool
  | .registerInt .. | .registerFloat .. | .registerText .. | .registerCommand .. => true
  | _ => false

/-- A request runs code, which meets a guarantee, or registers an identifier. The guarantee may not be
given for letting writes override. -/
theorem Request.effect_of (q : Request) {s : Interp} (hs : G.From s)
    (hmode : ∀ on, q = .setOverrideMode on → G.To s (s.setMode on)) : G.To s (q.perform s) ∨
    q.registers = true ∧ ∃ id : Ident, id.Registered ∧
      q.perform s = registered s (s.register id) := by
  have hafter {α : Type} {m : Engine α} (hm : Meets G m) : G.To s (after m s) := (hm s hs).1
  have haside {s' : Interp} (h : s.Aside s') : G.To s s' := Guarantee.Composes.aside h
  cases q with
  | execute src => exact .inl (hafter (meets_execute src))
  | executeCode b pc => exact .inl (hafter (meets_executeCode b pc))
  | executeIdent i args => exact .inl (hafter (meets_executeIdent i args))
  | call name args => exact .inl (hafter (meets_call name args))
  | runValue v => exact .inl (hafter (meets_runner fun k hk => meets_runValue hk v))
  | execFile path => exact .inl (hafter (meets_execFile path))
  | compile src name => exact .inl (hafter (meets_compileText src name))
  | setValue name v => exact .inl (hafter (meets_setValueNamed name v))
  | newAlias name => exact .inl (hafter (meets_intern name))
  | bindIdents names => exact .inl (hafter (meets_bindIdents names))
  | setOverrideMode on => exact .inl (hmode on rfl)
  | clearOverrides => exact .inl (hafter meets_clearOverrides)
  | registerInt => exact .inr ⟨rfl, _, ⟨.variable rfl rfl, rfl, rfl⟩, rfl⟩
  | registerFloat => exact .inr ⟨rfl, _, ⟨.variable rfl rfl, rfl, rfl⟩, rfl⟩
  | registerText => exact .inr ⟨rfl, _, ⟨.variable rfl rfl, rfl, rfl⟩, rfl⟩
  | registerCommand name sig f flags =>
      cases f with
      | none => exact .inl (Guarantee.Composes.refl s)
      | some f =>
          change G.To s (registered s (s.registerCommand name sig (some f) flags)) ∨
            true = true ∧ ∃ id : Ident, id.Registered ∧
              registered s (s.registerCommand name sig (some f) flags) = registered s (s.register id)
          unfold Interp.registerCommand
          cases hparse : Signature.parse sig with
          | error e => exact .inl (Guarantee.Composes.refl s)
          | ok letters => exact .inr ⟨rfl, _, ⟨.command f hparse, rfl, rfl⟩, rfl⟩
  | configure => exact .inl (haside ⟨rfl, fun _ _ _ h => h⟩)

theorem Request.effect {G : Guarantee} [G.Lawful] (q : Request) {s : Interp} (hs : G.From s) :
    G.To s (q.perform s) ∨ q.registers = true ∧ ∃ id : Ident, id.Registered ∧
      q.perform s = registered s (s.register id) :=
  q.effect_of hs fun on _ => Guarantee.Lawful.mode s on

/-- An identifier that is registered is new, or takes the place of one of its kind. -/
theorem Interp.get?_registered {s : Interp} {id id' : Ident} {i : Nat}
    (h : (Request.registered s (s.register id)).table.get? i = some id') :
    s.table.get? i = some id' ∨ id' = id ∧
      (s.table.size ≤ i ∨ ∃ old, s.table.get? i = some old ∧ old.role.kindName = id.role.kindName) := by
  unfold Interp.register Table.add at h
  cases hold : s.table.lookup? id.name with
  | none =>
      rw [hold] at h
      replace h : (s.table.push id).get? i = some id' := h
      rw [Table.get?_push] at h
      split at h
      next hi =>
        cases h
        exact .inr ⟨rfl, .inl (Nat.le_of_eq hi.symm)⟩
      next => exact .inl h
  | some found =>
      obtain ⟨j, old⟩ := found
      rw [hold] at h
      dsimp only at h
      by_cases hkind : (old.role.kindName == id.role.kindName) = true
      · rw [if_pos hkind] at h
        replace h : (s.table.modify j fun _ => id).get? i = some id' := h
        rw [Table.get?_modify] at h
        split at h
        next hj =>
          subst hj
          obtain ⟨old', -, rfl⟩ := Option.map_eq_some_iff.mp h
          exact .inr ⟨rfl, .inr ⟨old, Table.get?_of_lookup? hold, eq_of_beq hkind⟩⟩
        next => exact .inl h
      · rw [if_neg hkind] at h
        exact .inl h

theorem Request.keeps_roles {P : Role → Prop} {s : Interp} (q : Request) (hP : Role.Lasting P)
    (hvar : ∀ role : Role, role.isVar = true → P role)
    (hcommand : ∀ text letters f, Signature.parse text = .ok letters → P (.command letters (.host f)))
    (h : ∀ i id, s.table.get? i = some id → P id.role) :
    ∀ i id, (q.perform s).table.get? i = some id → P id.role := by
  rcases q.effect (G := .lasting False) (s := s) False.elim with ht | ⟨-, id, hid, heq⟩
  · exact ht.roles hP h
  · intro i id' hid'
    rw [heq] at hid'
    rcases Interp.get?_registered hid' with hid' | ⟨rfl, -⟩
    · exact h i id' hid'
    · have hrole := hid.role
      generalize id'.role = role at hrole
      cases hrole with
      | «variable» hv => exact hvar _ hv
      | command f hparse => exact hcommand _ _ f hparse

theorem Interp.registered_eq (s : Interp) (id : Ident) : Request.registered s (s.register id) =
    { s with table := (Request.registered s (s.register id)).table } := by
  unfold Interp.register
  cases s.table.add id <;> rfl

theorem Interp.size_registered (s : Interp) (id : Ident) :
    s.table.size ≤ (Request.registered s (s.register id)).table.size := by
  unfold Interp.register Table.add
  cases s.table.lookup? id.name with
  | none => exact Nat.le_of_lt (by simp [Request.registered])
  | some found =>
      dsimp only
      by_cases hkind : (found.2.role.kindName == id.role.kindName) = true
      · rw [if_pos hkind]
        exact Nat.le_of_eq (Table.size_modify _ _ _).symm
      · rw [if_neg hkind]
        exact Nat.le_refl _

theorem Role.Registered.kindName {role : Role} (h : role.Registered) : role.kindName ≠ "alias" := by
  cases h with
  | «variable» h =>
      cases role with
      | intVar | floatVar | textVar => exact ne_of_beq_false rfl
      | _ => cases h
  | command => exact ne_of_beq_false rfl

/-- Argument slots stay aliases, whatever is registered. -/
theorem Request.keeps_slots {s : Interp} (q : Request) (h : s.table.Founded .layout) :
    (q.perform s).table.Founded .layout := by
  rcases q.effect (G := .lasting False) (s := s) False.elim with ht | ⟨-, id, hid, heq⟩
  · exact h.mono (ht.extends .layout)
  · intro i hi
    obtain ⟨old, hold, hform⟩ := Option.map_eq_some_iff.mp (h i hi)
    obtain ⟨f, hf⟩ := Table.exists_form? .layout
      (Nat.lt_of_lt_of_le (Table.lt_size_of_get? hold) (s.size_registered id))
    rw [heq]
    obtain ⟨id', hid', -⟩ := Option.map_eq_some_iff.mp hf
    rcases Interp.get?_registered hid' with hsame | ⟨rfl, hnew | ⟨old', hold', hkind⟩⟩
    · rw [hold] at hsame
      cases hsame
      rw [Table.form?_of_get? hid', hform]
    · exact absurd (Table.lt_size_of_get? hold) (Nat.not_lt_of_le hnew)
    · rw [hold] at hold'
      cases hold'
      rw [Role.eq_alias_of_form hform] at hkind
      exact absurd hkind.symm hid.role.kindName

end Requests

end ConsoleScript
