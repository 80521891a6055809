import ConsoleScript.Engine.Interface
import ConsoleScript.Proofs.Compile.Making
import ConsoleScript.Proofs.Engine.Outcome

/-!
What running code cannot change. An identifier stays what it is: its name and its kind, the range and
the watcher of a variable, the parameters and the action of a command are those it was registered
with, and an identifier that is new is an alias. So an interpreter that was made without the command
`while` stays without it.
-/

namespace ConsoleScript

open Bytecode Engine

/-- A role without the value that is stored in it. -/
def Role.emptied : Role → Role
  | .intVar least greatest (.own _) watch => .intVar least greatest (.own 0) watch
  | .floatVar least greatest _ watch => .floatVar least greatest Single.zero watch
  | .textVar _ watch => .textVar [] watch
  | role => role

/-- The command that repeats code for as long as a condition holds. -/
def Role.isWhile : Role → Bool
  | .command _ (.builtin .while) => true
  | _ => false

/-- The number of the interpreter itself that a variable shows. -/
def Role.cell? : Role → Option Cell
  | .intVar _ _ (.shared c) _ => some c
  | _ => none

theorem Role.emptied_eq_alias {role : Role} (h : role.emptied = .alias) : role = .alias := by
  cases role with
  | intVar least greatest store watch => cases store <;> cases h
  | floatVar => cases h
  | textVar => cases h
  | command => exact h
  | «alias» => rfl
  | control => exact h

theorem Role.isWhile_emptied (role : Role) : role.emptied.isWhile = role.isWhile := by
  cases role with
  | intVar least greatest store watch => cases store <;> rfl
  | _ => rfl

theorem Role.cell?_emptied (role : Role) : role.emptied.cell? = role.cell? := by
  cases role with
  | intVar least greatest store watch => cases store <;> rfl
  | _ => rfl

theorem Role.watch_emptied (role : Role) : role.emptied.watch = role.watch := by
  cases role with
  | intVar least greatest store watch => cases store <;> rfl
  | _ => rfl

/-- Two identifiers that differ at most in their values. -/
def Ident.Like (id id' : Ident) : Prop :=
  id'.name = id.name ∧ id'.role.emptied = id.role.emptied

theorem Ident.Like.refl (id : Ident) : id.Like id := ⟨rfl, rfl⟩

/-- An alias of a table has a name of its own, which is no number. -/
structure Table.IsFresh (t : Table) (i : Nat) (id : Ident) : Prop where
  role : id.role = .alias
  name : Reading.isNumeral id.name = false
  own : ∀ j id', t.get? j = some id' → id'.name = id.name → j = i

/-- A table in which every identifier of another one is what it was, and the new ones are aliases
with names of their own. -/
structure Table.Lasts (t t' : Table) : Prop where
  kept : ∀ i id, t.get? i = some id → ∃ id', t'.get? i = some id' ∧ id.Like id'
  added : ∀ i id', t.get? i = none → t'.get? i = some id' → t'.IsFresh i id'

theorem Table.name_ne_of_find? {t : Table} {name : Bytes} (h : t.find? name = none) {i : Nat}
    {id : Ident} (hid : t.get? i = some id) : id.name ≠ name := by
  unfold Table.find? at h
  rw [Array.findIdx?_eq_none_iff] at h
  have := h id (Array.mem_of_getElem? hid)
  exact ne_of_beq_false this

namespace Table.Lasts

variable {t t' t'' : Table}

theorem refl (t : Table) : t.Lasts t := by
  constructor
  · exact fun i id h => ⟨id, h, .refl id⟩
  · intro i id' h h'
    rw [h] at h'
    cases h'

theorem trans (h : t.Lasts t') (h' : t'.Lasts t'') : t.Lasts t'' := by
  constructor
  · intro i id hid
    obtain ⟨id', hid', hname, hrole⟩ := h.kept i id hid
    obtain ⟨id'', hid'', hname', hrole'⟩ := h'.kept i id' hid'
    exact ⟨id'', hid'', hname'.trans hname, hrole'.trans hrole⟩
  · intro i id'' hnone hid''
    cases hmid : t'.get? i with
    | none => exact h'.added i id'' hmid hid''
    | some id' =>
        obtain ⟨id₂, hid₂, hname, hrole⟩ := h'.kept i id' hmid
        rw [hid''] at hid₂
        cases hid₂
        have hfresh := h.added i id' hnone hmid
        rw [hfresh.role] at hrole
        refine ⟨Role.emptied_eq_alias hrole, hname ▸ hfresh.name, fun j id₂ hj hsame => ?_⟩
        cases hold : t'.get? j with
        | none => exact ((h'.added j id₂ hold hj).own i id'' hid'' hsame.symm).symm
        | some old =>
            obtain ⟨id₃, hid₃, hold', -⟩ := h'.kept j old hold
            rw [hj] at hid₃
            cases hid₃
            exact hfresh.own j old hold (hold'.symm.trans (hsame.trans hname))

theorem push {t : Table} {id : Ident} (h : id.role = .alias) (hx : Reading.isNumeral id.name = false)
    (hn : t.find? id.name = none) : t.Lasts (t.push id) := by
  constructor
  · intro i old hold
    refine ⟨old, ?_, .refl old⟩
    rw [get?_push, if_neg (Nat.ne_of_lt (lt_size_of_get? hold))]
    exact hold
  · intro i id' hnone hid'
    rw [get?_push] at hid'
    split at hid'
    next hi =>
      cases hid'
      refine ⟨h, hx, fun j old hj hsame => ?_⟩
      rw [get?_push] at hj
      split at hj
      next hj' => exact hj'.trans hi.symm
      next => exact absurd hsame (Table.name_ne_of_find? hn hj)
    next =>
      rw [hnone] at hid'
      cases hid'

theorem modify (t : Table) {i : Nat} {f : Ident → Ident}
    (h : ∀ id, t.get? i = some id → id.Like (f id)) : t.Lasts (t.modify i f) := by
  constructor
  · intro j id hid
    rw [get?_modify, hid]
    by_cases hij : i = j
    · subst hij
      exact ⟨f id, by simp, h id hid⟩
    · exact ⟨id, by simp [hij], .refl id⟩
  · intro j id' hnone hid'
    rw [get?_modify, hnone] at hid'
    split at hid' <;> cases hid'

end Table.Lasts

/-- A property of roles that does not depend on stored values, and that aliases have. -/
structure Role.Lasting (P : Role → Prop) : Prop where
  emptied : ∀ role : Role, P role.emptied ↔ P role
  aliases : P .alias

/-- What all identifiers have in their roles they keep. -/
theorem Table.Lasts.roles {t t' : Table} {P : Role → Prop} (ht : t.Lasts t') (hP : Role.Lasting P)
    (h : ∀ i id, t.get? i = some id → P id.role) : ∀ i id, t'.get? i = some id → P id.role := by
  intro i id' hid'
  cases hid : t.get? i with
  | none =>
      rw [(ht.added i id' hid hid').role]
      exact hP.aliases
  | some id =>
      obtain ⟨id₂, hid₂, -, hrole⟩ := ht.kept i id hid
      rw [hid'] at hid₂
      cases hid₂
      rw [← hP.emptied, hrole, hP.emptied]
      exact h i id hid

theorem Role.form_emptied (r : Rigour) (role : Role) : role.emptied.form r = role.form r := by
  cases role with
  | intVar least greatest store watch => cases store <;> rfl
  | _ => rfl

theorem Table.Lasts.extends {t t' : Table} (h : t.Lasts t') (r : Rigour) : t.Extends r t' := by
  intro i f hf
  obtain ⟨id, hid, rfl⟩ := Option.map_eq_some_iff.mp hf
  obtain ⟨id', hid', -, hrole⟩ := h.kept i id hid
  rw [form?_of_get? hid', ← Role.form_emptied, hrole, Role.form_emptied]

/-- Has no command that repeats code for as long as a condition holds. -/
def Interp.WithoutWhile (s : Interp) : Prop :=
  ∀ i id, s.table.get? i = some id → id.role.isWhile = false

theorem Interp.WithoutWhile.lasts {s s' : Interp} (h : s.WithoutWhile)
    (ht : s.table.Lasts s'.table) : s'.WithoutWhile :=
  ht.roles (P := fun role => role.isWhile = false)
    ⟨fun role => by rw [Role.isWhile_emptied], rfl⟩ h

theorem Interp.WithoutWhile.lookup {s : Interp} (h : s.WithoutWhile) {name : Bytes} {i : Nat}
    {id : Ident} (hid : s.table.lookup? name = some (i, id)) : id.role.isWhile = false :=
  h i id (Table.get?_of_lookup? hid)

end ConsoleScript
