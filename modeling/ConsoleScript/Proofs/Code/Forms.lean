import ConsoleScript.Engine.Activation

/-!
What code relies on of the identifiers that it names. The form of an identifier is its kind and, for
a command, its parameters; code that was compiled for one table can be run with another one in which
every identifier still has its form. How much of a form counts depends on what is to be shown of the
code: where the number of operands does not matter, neither do the parameters of commands.
-/

namespace ConsoleScript

/-- What is asked of code: only that it consists of whole instructions that change nothing but what
they may, or that its instructions also find the operands they take, or that in addition no run has
more operands than its stack has room for. -/
inductive Rigour where
  | layout
  | operands
  | room
deriving DecidableEq

/-- What code relies on of an identifier. -/
inductive Form where
  | intVar
  | floatVar
  | textVar
  | command (sig : Signature)
  | alias
  | control (c : Control)
deriving DecidableEq

/-- The parameters with which an identifier of a form is called. -/
def Form.signature : Form → Signature
  | .command sig => sig
  | .control c => c.signature
  | _ => []

def Role.form (r : Rigour) : Role → Form
  | .intVar .. => .intVar
  | .floatVar .. => .floatVar
  | .textVar .. => .textVar
  | .command sig _ => .command (if r = .layout then [] else sig)
  | .alias => .alias
  | .control c => .control c

theorem Role.signature_form {r : Rigour} (hr : r ≠ .layout) (role : Role) :
    (role.form r).signature = role.signature := by
  cases role <;> simp [Role.form, Form.signature, Role.signature, hr]

theorem Role.isAlias_iff (r : Rigour) (role : Role) : role.isAlias = true ↔ role.form r = .alias := by
  cases role <;> simp [Role.form, Role.isAlias]

theorem Role.eq_alias_of_form {r : Rigour} {role : Role} (h : role.form r = .alias) :
    role = .alias := by
  cases role <;> first | rfl | cases h

namespace Letter

/-- Has an operand of its own in a call. -/
def isPlain (l : Letter) : Bool := l.isSlot && l != .pressed

end Letter

/-- Parameters with an argument each. -/
def Signature.IsFixed (sig : Signature) : Prop := ∀ l ∈ sig, l.isSlot = true

/-- The signatures for which calls are compiled with an operand for every parameter: parameters with
an operand each, and behind them those that are left, if any, taken as they are, joined, or in
groups that are repeated. -/
inductive Signature.Regular (r : Rigour) : Signature → Prop
  | fixed {pre : Signature} (hl : pre.length ≤ maxDeclared) (hp : ∀ l ∈ pre, l.isPlain = true) :
      Regular r pre
  | pressed {pre : Signature} (hr : r ≠ .room) (hl : pre.length < maxDeclared)
      (hp : ∀ l ∈ pre, l.isPlain = true) : Regular r (pre ++ [.pressed])
  | all {pre : Signature} (hl : pre.length ≤ maxDeclared) (hp : ∀ l ∈ pre, l.isPlain = true) :
      Regular r (pre ++ [.all])
  | joined {pre : Signature} (hl : pre.length ≤ maxDeclared) (hp : ∀ l ∈ pre, l.isPlain = true) :
      Regular r (pre ++ [.joined])
  | again {pre : Signature} {n : Nat} (hl : pre.length ≤ maxDeclared)
      (hp : ∀ l ∈ pre, l.isPlain = true) (hn : 1 ≤ n) (hn' : n ≤ 2) (hs : n ≤ pre.length) :
      Regular r (pre ++ [.again n, .all])

namespace Table

/-- The form of the identifier with an index. -/
def form? (r : Rigour) (t : Table) (i : Nat) : Option Form := (t.get? i).map (·.role.form r)

/-- Every identifier of a table has its form in another one. -/
def Extends (r : Rigour) (t t' : Table) : Prop := ∀ i f, t.form? r i = some f → t'.form? r i = some f

variable {r : Rigour} {t t' t'' : Table} {i : Nat} {f : Form}

theorem Extends.refl (r : Rigour) (t : Table) : t.Extends r t := fun _ _ h => h

theorem Extends.trans (h : t.Extends r t') (h' : t'.Extends r t'') : t.Extends r t'' :=
  fun i f hf => h' i f (h i f hf)

theorem form?_isSome : (t.form? r i).isSome = true ↔ i < t.size := by
  simp [form?, get?, size]

theorem form?_of_get? {id : Ident} (h : t.get? i = some id) :
    t.form? r i = some (id.role.form r) := by
  rw [form?, h, Option.map_some]

theorem lt_size_of_form? (h : t.form? r i = some f) : i < t.size :=
  form?_isSome.mp (Option.isSome_of_eq_some h)

theorem lt_size_of_get? {id : Ident} (h : t.get? i = some id) : i < t.size := by
  obtain ⟨hi, -⟩ := Array.getElem?_eq_some_iff.mp h
  exact hi

theorem exists_form? (r : Rigour) (h : i < t.size) : ∃ f, t.form? r i = some f :=
  Option.isSome_iff_exists.mp (form?_isSome.mpr h)

theorem Extends.lt_size (h : t.Extends r t') (hi : i < t.size) : i < t'.size := by
  obtain ⟨f, hf⟩ := exists_form? r hi
  exact lt_size_of_form? (h i f hf)

theorem get?_push (t : Table) (id : Ident) (i : Nat) :
    (t.push id).get? i = if i = t.size then some id else t.get? i := by
  unfold get? push
  rw [Array.getElem?_push]
  rfl

theorem get?_modify (t : Table) (j : Nat) (g : Ident → Ident) (i : Nat) :
    (t.modify j g).get? i = if j = i then (t.get? i).map g else t.get? i :=
  Array.getElem?_modify

@[simp] theorem size_modify (t : Table) (j : Nat) (g : Ident → Ident) :
    (t.modify j g).size = t.size :=
  Array.size_modify

@[simp] theorem size_push (t : Table) (id : Ident) : (t.push id).size = t.size + 1 :=
  Array.size_push id

theorem extends_push (r : Rigour) (t : Table) (id : Ident) : t.Extends r (t.push id) := by
  intro i f hf
  have hi : i ≠ t.size := Nat.ne_of_lt (lt_size_of_form? hf)
  rw [form?, get?_push, if_neg hi]
  exact hf

/-- Changing an identifier keeps all forms if it keeps its own. -/
theorem extends_modify (j : Nat) (g : Ident → Ident)
    (hg : ∀ id, t.get? j = some id → (g id).role.form r = id.role.form r) :
    t.Extends r (t.modify j g) := by
  intro i f hf
  rw [form?, get?_modify]
  split <;> rename_i hj
  · subst hj
    unfold form? at hf
    cases hid : t.get? j with
    | none => rw [hid] at hf; cases hf
    | some id =>
        rw [hid] at hf
        simp only [Option.map_some, Option.some.injEq] at hf ⊢
        rw [hg id hid, hf]
  · exact hf

/-- The argument slots and the dummy alias are at their places. -/
def Founded (r : Rigour) (t : Table) : Prop := ∀ i ≤ dummyIndex, t.form? r i = some .alias

theorem Founded.mono (h : t.Founded r) (ht : t.Extends r t') : t'.Founded r :=
  fun i hi => ht i _ (h i hi)

/-- A table that code can be compiled for. -/
structure Sound (r : Rigour) (t : Table) : Prop where
  founded : t.Founded r
  /-- Where operands count, commands have signatures that the compiler serves. -/
  regular : r ≠ .layout → ∀ i sig, t.form? r i = some (.command sig) → sig.Regular r

theorem Sound.push_alias (h : t.Sound r) {id : Ident} (hid : id.role = .alias) :
    (t.push id).Sound r := by
  refine ⟨h.founded.mono (extends_push r t id), fun hr i sig hf => ?_⟩
  rw [form?, get?_push] at hf
  split at hf
  · rw [Option.map_some, hid] at hf
    cases hf
  · exact h.regular hr i sig hf

theorem find?_lt {name : Bytes} (h : t.find? name = some i) : i < t.size := by
  unfold find? at h
  exact (Array.findIdx?_eq_some_iff_getElem.mp h).1

theorem get?_of_lookup? {name : Bytes} {id : Ident} (h : t.lookup? name = some (i, id)) :
    t.get? i = some id := by
  unfold lookup? at h
  cases hj : t.find? name with
  | none => rw [hj] at h; cases h
  | some j =>
      cases hid : t.get? j with
      | none => simp [hj, hid] at h
      | some id' =>
          simp only [hj, hid, Option.bind_eq_bind, Option.bind_some, Option.pure_def,
            Option.some.injEq, Prod.mk.injEq] at h
          rw [← h.1, ← h.2]
          exact hid

theorem find?_of_lookup? {name : Bytes} {id : Ident}
    (h : t.lookup? name = some (i, id)) : t.find? name = some i := by
  unfold lookup? at h
  cases hj : t.find? name with
  | none =>
      rw [hj] at h
      cases h
  | some j =>
      rw [hj] at h
      simp only [Option.bind_eq_bind, Option.bind_some, Option.pure_def] at h
      obtain ⟨id', -, h⟩ := Option.bind_eq_some_iff.mp h
      cases h
      rfl

theorem name_of_lookup? {name : Bytes} {id : Ident}
    (h : t.lookup? name = some (i, id)) : id.name = name := by
  have hfind := find?_of_lookup? h
  have hget := get?_of_lookup? h
  obtain ⟨hi, hname, -⟩ := Array.findIdx?_eq_some_iff_getElem.mp hfind
  have hid := (Array.getElem?_eq_getElem hi).symm.trans hget
  cases hid
  exact eq_of_beq hname

/-- A table with further names, none of them defined yet. -/
inductive Names : Table → Table → Prop
  | refl (t : Table) : Names t t
  | push {t t' : Table} (h : Names t t') (name : Bytes) : Names t (t'.push (unknownAlias name))

theorem Names.trans (h : t.Names t') (h' : t'.Names t'') : t.Names t'' := by
  induction h' with
  | refl => exact h
  | push _ name ih => exact .push ih name

theorem Names.extends (h : t.Names t') (r : Rigour) : t.Extends r t' := by
  induction h with
  | refl => exact .refl r t
  | push _ name ih => exact ih.trans (extends_push r _ _)

theorem intern_spec (hd : dummyIndex < t.size) (name : Bytes) :
    (t.intern name).1 < (t.intern name).2.2.size ∧ t.Names (t.intern name).2.2 := by
  unfold intern
  split
  next i hi => exact ⟨find?_lt hi, .refl t⟩
  next =>
    split
    · exact ⟨hd, .refl t⟩
    · exact ⟨by simp, .push (.refl t) name⟩

theorem Names.sound (h : t.Names t') (ht : t.Sound r) : t'.Sound r := by
  induction h with
  | refl => exact ht
  | push _ name ih => exact ih.push_alias rfl

end Table

end ConsoleScript
