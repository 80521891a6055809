import ConsoleScript.Persist.Archive
import ConsoleScript.Proofs.Engine.LastingSessions

/-!
The identifier table is intact in every interpreter that a host can have, whatever it asks for: with
any code, also with code that no compiler has made, and with archives. Every name is found at its one
index, and the slots and the dummy are where they belong. No step takes a name or a kind from an
index, and only a registration makes a number a name.

A move that runs code ends at the latest when a loop without a count has taken more rounds than
`Interp.patience`; interpreters in which such a loop still goes on are left out.
-/

namespace ConsoleScript

open Bytecode Engine

/-- The name and the kind of an index. -/
def Table.label? (t : Table) (i : Nat) : Option (Bytes × String) :=
  (t.get? i).map fun id => (id.name, id.role.kindName)

/-- The table finds every identifier by its name and nothing else, and begins with the argument slots
and the dummy. -/
structure Table.Intact (t : Table) : Prop where
  lookup : ∀ name i id, t.lookup? name = some (i, id) ↔ t.get? i = some id ∧ id.name = name
  slots : ∀ i < maxArgs, t.label? i = some (utf8 "arg" ++ Bytes.ofNat (i + 1), "alias")
  dummy : t.label? dummyIndex = some (utf8 "//dummy", "alias")

/-- Every index keeps its name and its kind. -/
structure Table.Keeps (t t' : Table) : Prop where
  label : ∀ i name kind, t.label? i = some (name, kind) → t'.label? i = some (name, kind)
  size : t.size ≤ t'.size

/-- What a host does with an interpreter. -/
inductive Move where
  | request (q : Request)
  /-- Code from any position, which need not be one of its block. -/
  | executeAt (b : Block) (pc : Int)
  | save (store : SnapshotStore) (id label : Bytes) (now : Nat)
  | load (store : SnapshotStore) (id : Bytes)

namespace Move

def perform : Move → Interp → Interp
  | .request q, s => q.perform s
  | .executeAt b pc, s => Request.after (executeCode b pc) s
  | .save store id label now, s => Request.after (store.save id label now) s
  | .load store id, s => Request.after (store.load id) s

/-- Adds an identifier under a name that the host chooses. -/
def registers : Move → Bool
  | .request q => q.registers
  | _ => false

end Move

/-- The interpreters that a host can have, whatever it does. -/
inductive Interp.Arises : Interp → Prop
  | new : Arises .new
  | move {s : Interp} (h : Arises s) (m : Move) : Arises (m.perform s)

section Names

variable {t t' : Table}

/-- No two identifiers have one name. -/
def Table.Distinct (t : Table) : Prop :=
  ∀ i j id id', t.get? i = some id → t.get? j = some id' → id.name = id'.name → i = j

theorem Table.find?_of_lookup?_none {name : Bytes} (h : t.lookup? name = none) :
    t.find? name = none := by
  cases hj : t.find? name with
  | none => rfl
  | some j =>
      obtain ⟨id, hid⟩ : ∃ id, t.get? j = some id :=
        ⟨_, Array.getElem?_eq_getElem (find?_lt hj)⟩
      unfold lookup? at h
      rw [hj] at h
      simp only [Option.bind_eq_bind, Option.bind_some, hid, Option.pure_def] at h
      cases h

theorem Table.Distinct.lookup (h : t.Distinct) (name : Bytes) (i : Nat) (id : Ident) :
    t.lookup? name = some (i, id) ↔ t.get? i = some id ∧ id.name = name := by
  refine ⟨fun hl => ⟨get?_of_lookup? hl, name_of_lookup? hl⟩, fun ⟨hi, hname⟩ => ?_⟩
  cases hl : t.lookup? name with
  | none => exact absurd hname (name_ne_of_find? (find?_of_lookup?_none hl) hi)
  | some found =>
      obtain ⟨j, id'⟩ := found
      have hj := get?_of_lookup? hl
      cases h i j id id' hi hj (hname.trans (name_of_lookup? hl).symm)
      rw [hi] at hj
      cases hj
      rfl

theorem Table.Intact.distinct (h : t.Intact) : t.Distinct := by
  intro i j id id' hi hj hname
  have hi' := (h.lookup id.name i id).mpr ⟨hi, rfl⟩
  have hj' := (h.lookup id.name j id').mpr ⟨hj, hname.symm⟩
  rw [hi'] at hj'
  cases hj'
  rfl

theorem Role.kindName_emptied (role : Role) : role.emptied.kindName = role.kindName := by
  cases role with
  | intVar least greatest store watch => cases store <;> rfl
  | _ => rfl

theorem Table.label?_of_get? {i : Nat} {id : Ident} (h : t.get? i = some id) :
    t.label? i = some (id.name, id.role.kindName) := by
  rw [label?, h]
  rfl

/-- A table keeps names and kinds if it has an identifier of the same name and kind at each index. -/
theorem Table.Keeps.of_get? (h : ∀ i id, t.get? i = some id →
    ∃ id', t'.get? i = some id' ∧ id'.name = id.name ∧ id'.role.kindName = id.role.kindName) :
    t.Keeps t' := by
  constructor
  · intro i name kind hl
    obtain ⟨id, hid, heq⟩ := Option.map_eq_some_iff.mp hl
    obtain ⟨id', hid', hname, hkind⟩ := h i id hid
    rw [label?_of_get? hid', hname, hkind]
    exact congrArg some heq
  · rcases Nat.eq_zero_or_pos t.size with hzero | hpos
    · rw [hzero]
      exact Nat.zero_le _
    · obtain ⟨id, hlast⟩ : ∃ id, t.get? (t.size - 1) = some id :=
        ⟨_, Array.getElem?_eq_getElem (Nat.sub_lt hpos Nat.one_pos)⟩
      obtain ⟨id', hid', -⟩ := h _ _ hlast
      have := lt_size_of_get? hid'
      omega

theorem Table.Lasts.keeps (h : t.Lasts t') : t.Keeps t' := by
  refine .of_get? fun i id hid => ?_
  obtain ⟨id', hid', hname, hrole⟩ := h.kept i id hid
  refine ⟨id', hid', hname, ?_⟩
  rw [← Role.kindName_emptied, hrole, Role.kindName_emptied]

/-- Running code makes no name ambiguous. -/
theorem Table.Lasts.distinct (h : t.Lasts t') (hd : t.Distinct) : t'.Distinct := by
  intro i j id id' hi hj hname
  cases hold : t.get? i with
  | none => exact ((h.added i id hold hi).own j id' hj hname.symm).symm
  | some old =>
      cases hold' : t.get? j with
      | none => exact (h.added j id' hold' hj).own i id hi hname
      | some old' =>
          obtain ⟨id₁, hid₁, hsame, -⟩ := h.kept i old hold
          obtain ⟨id₂, hid₂, hsame', -⟩ := h.kept j old' hold'
          rw [hi] at hid₁
          rw [hj] at hid₂
          cases hid₁
          cases hid₂
          exact hd i j old old' hold hold' (hsame.symm.trans (hname.trans hsame'))

theorem Table.Keeps.intact (h : t.Keeps t') (ht : t.Intact) (hd : t'.Distinct) : t'.Intact :=
  ⟨hd.lookup, fun i hi => h.label i _ _ (ht.slots i hi), h.label _ _ _ ht.dummy⟩

/-- An identifier under a new name. -/
theorem Table.Distinct.push (hd : t.Distinct) {id : Ident} (hn : t.find? id.name = none) :
    t.Keeps (t.push id) ∧ (t.push id).Distinct := by
  constructor
  · refine .of_get? fun i old hold => ⟨old, ?_, rfl, rfl⟩
    rw [get?_push, if_neg (Nat.ne_of_lt (lt_size_of_get? hold))]
    exact hold
  · intro i j id₁ id₂ hi hj hname
    rw [get?_push] at hi hj
    split at hi <;> split at hj
    next h₁ h₂ => exact h₁.trans h₂.symm
    next =>
      cases hi
      exact absurd hname.symm (name_ne_of_find? hn hj)
    next =>
      cases hj
      exact absurd hname (name_ne_of_find? hn hi)
    next => exact hd i j id₁ id₂ hi hj hname

/-- An identifier in place of one with its name and kind. -/
theorem Table.Distinct.replace (hd : t.Distinct) {i : Nat} {old id : Ident}
    (hold : t.get? i = some old) (hname : id.name = old.name)
    (hkind : id.role.kindName = old.role.kindName) :
    t.Keeps (t.modify i fun _ => id) ∧ (t.modify i fun _ => id).Distinct := by
  have hback (j : Nat) (id' : Ident) (h : (t.modify i fun _ => id).get? j = some id') :
      ∃ id₀, t.get? j = some id₀ ∧ id'.name = id₀.name := by
    rw [get?_modify] at h
    split at h
    next hij =>
      subst hij
      rw [hold] at h
      cases h
      exact ⟨old, hold, hname⟩
    next => exact ⟨id', h, rfl⟩
  constructor
  · refine .of_get? fun j id₀ hj => ?_
    rw [get?_modify]
    split
    next hij =>
      subst hij
      rw [hold] at hj
      cases hj
      exact ⟨id, by rw [hold]; rfl, hname, hkind⟩
    next => exact ⟨id₀, hj, rfl, rfl⟩
  · intro j j' id₁ id₂ h₁ h₂ hsame
    obtain ⟨old₁, hold₁, hn₁⟩ := hback j id₁ h₁
    obtain ⟨old₂, hold₂, hn₂⟩ := hback j' id₂ h₂
    exact hd j j' old₁ old₂ hold₁ hold₂ (hn₁.symm.trans (hsame.trans hn₂))

/-- A registration keeps names and kinds, and makes no name ambiguous. -/
theorem Interp.keeps_registered {s : Interp} (hd : s.table.Distinct) (id : Ident) :
    s.table.Keeps (Request.registered s (s.register id)).table ∧
      (Request.registered s (s.register id)).table.Distinct := by
  unfold Interp.register Table.add
  cases hold : s.table.lookup? id.name with
  | none => exact hd.push (Table.find?_of_lookup?_none hold)
  | some found =>
      obtain ⟨i, old⟩ := found
      dsimp only
      by_cases hkind : (old.role.kindName == id.role.kindName) = true
      · rw [if_pos hkind]
        exact hd.replace (Table.get?_of_lookup? hold) (Table.name_of_lookup? hold).symm
          (eq_of_beq hkind).symm
      · rw [if_neg hkind]
        exact ⟨.of_get? fun i id hid => ⟨id, hid, rfl, rfl⟩, hd⟩

end Names

section Moves

variable {G : Guarantee} [G.Based]

private theorem meets_save (store : SnapshotStore) (id label : Bytes) (now : Nat) :
    Meets G (store.save id label now) := by
  refine fun s => Meets.readAt ?_
  split
  · exact Meets.pure _ s
  next disk _ =>
    exact (Meets.pure (Except.ok (ε := ArchiveError) id)).moved
      ({ s with disk }) (Guarantee.Composes.aside ⟨rfl, fun _ _ _ h => h⟩) rfl

private theorem meets_restore (e : Entry) : Meets G e.restore := by
  refine .read fun s => ?_
  dsimp only
  generalize (e.kind == utf8 "alias" || _) = writes
  cases writes with
  | true => exact .bind (meets_setValueNamed _ _) fun _ => .pure _
  | false => exact .pure _

private theorem meets_load (store : SnapshotStore) (id : Bytes) : Meets G (store.load id) := by
  refine fun s => Meets.readAt ?_
  split
  · exact Meets.pure _ s
  next found disk _ =>
    have hset : G.To s { s with disk } := Guarantee.Composes.aside ⟨rfl, fun _ _ _ h => h⟩
    cases found with
    | none => exact (Meets.pure _).moved _ hset rfl
    | some entries =>
        exact (Meets.bind (.forM meets_restore entries) fun _ => .pure _).moved _ hset rfl

/-- A move runs code, which meets a guarantee, or it registers an identifier. The guarantee may not be
given for letting writes override. -/
theorem Move.meets_of (m : Move) {s : Interp} (hs : G.From s)
    (hmode : ∀ on, m = .request (.setOverrideMode on) → G.To s (s.setMode on)) :
    G.To s (m.perform s) ∨ m.registers = true ∧ ∃ id : Ident, id.Registered ∧
      m.perform s = Request.registered s (s.register id) := by
  have hafter {α : Type} {c : Engine α} (hc : Meets G c) : G.To s (Request.after c s) :=
    (hc s hs).1
  cases m with
  | executeAt b pc => exact .inl (hafter (meets_executeCode b pc))
  | save store id label now => exact .inl (hafter (meets_save store id label now))
  | load store id => exact .inl (hafter (meets_load store id))
  | request q => exact q.effect_of hs fun on h => hmode on (congrArg request h)

theorem Move.meets {G : Guarantee} [G.Lawful] (m : Move) {s : Interp} (hs : G.From s) :
    G.To s (m.perform s) ∨ m.registers = true ∧ ∃ id : Ident, id.Registered ∧
      m.perform s = Request.registered s (s.register id) :=
  m.meets_of hs fun on _ => Guarantee.Lawful.mode s on

theorem Move.effect (m : Move) (s : Interp) : s.table.Lasts (m.perform s).table ∨
    m.registers = true ∧ ∃ id, m.perform s = Request.registered s (s.register id) := by
  rcases m.meets (G := .lasting False) (s := s) False.elim with h | ⟨hm, id, -, h⟩
  · exact .inl h
  · exact .inr ⟨hm, id, h⟩

end Moves

theorem Interp.nodup_names_new : Interp.new.table.names.Nodup := by
  decide +kernel

theorem Interp.intact_new : Interp.new.table.Intact := by
  have hdistinct : Interp.new.table.Distinct := by
    intro i j id id' hi hj hname
    have hat {k : Nat} {id : Ident} (h : Interp.new.table.get? k = some id) :
        Interp.new.table.names[k]? = some id.name := by
      unfold Table.names
      rw [List.getElem?_map, Array.getElem?_toList]
      exact congrArg (Option.map Ident.name) h
    have hlt := (List.getElem?_eq_some_iff.mp (hat hi)).1
    exact (List.getElem?_inj hlt nodup_names_new).mp (by rw [hat hi, hat hj, hname])
  exact ⟨hdistinct.lookup, by decide +kernel, by decide +kernel⟩

theorem Interp.Arises.intact {s : Interp} (h : s.Arises) : s.table.Intact := by
  induction h with
  | new => exact intact_new
  | @move s _ m ih =>
      rcases m.effect s with ht | ⟨-, id, heq⟩
      · exact ht.keeps.intact ih (ht.distinct ih.distinct)
      · obtain ⟨hkeeps, hdistinct⟩ := Interp.keeps_registered ih.distinct id
        rw [heq]
        exact hkeeps.intact ih hdistinct

/-- The identifier table is intact in every interpreter that a host can have, and whatever the host
does next, every index keeps its name and its kind, and only a registration makes a number a name. -/
theorem identifiers_stay_intact {s : Interp} (h : s.Arises) : s.table.Intact ∧
    ∀ m : Move, s.table.Keeps (m.perform s).table ∧
      (m.registers = false → ∀ i id, s.table.get? i = none →
        (m.perform s).table.get? i = some id → Reading.isNumeral id.name = false) := by
  refine ⟨h.intact, fun m => ?_⟩
  rcases m.effect s with ht | ⟨hm, id, heq⟩
  · exact ⟨ht.keeps, fun _ i id hnone hid => (ht.added i id hnone hid).name⟩
  · refine ⟨heq ▸ (Interp.keeps_registered h.intact.distinct id).1, fun hfalse => ?_⟩
    rw [hm] at hfalse
    cases hfalse

/-- After a script that names an identifier, and one that assigns to a computed name. -/
theorem identifiers_stay_intact_script :
    let s := (Move.request (.execute (utf8 "(concatword a b) = 1"))).perform
      ((Move.request (.execute (utf8 "echo $x"))).perform .new)
    s.Arises ∧ s.table.Intact ∧
      ∀ m : Move, s.table.Keeps (m.perform s).table ∧
        (m.registers = false → ∀ i id, s.table.get? i = none →
          (m.perform s).table.get? i = some id → Reading.isNumeral id.name = false) := by
  have harises : Interp.Arises ((Move.request (.execute (utf8 "(concatword a b) = 1"))).perform
      ((Move.request (.execute (utf8 "echo $x"))).perform .new)) := .move (.move .new _) _
  exact ⟨harises, identifiers_stay_intact harises⟩

end ConsoleScript
