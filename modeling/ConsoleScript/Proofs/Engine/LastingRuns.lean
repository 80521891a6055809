import ConsoleScript.Proofs.Engine.Indifference

/-!
Running code leaves identifiers what they are, and it ends by itself if `while` is not there. Writing
an identifier and saving its values change nothing but values, so whatever else is done meanwhile, the
guarantee is met.
-/

namespace ConsoleScript

open Bytecode Engine

/-- Identifiers stay what they are; and a computation ends by itself, given a condition under which
there is no `while`. -/
def Engine.Guarantee.lasting (p : Prop) : Guarantee where
  From s := p → s.WithoutWhile
  To s s' := s.table.Lasts s'.table
  ends := p

/-- However a computation ends, identifiers are what they were; and it ends by itself, given a
condition under which there is no `while`. -/
abbrev Engine.Lasting (p : Prop) {α : Type} (m : Engine α) : Prop := Meets (.lasting p) m

theorem Role.showsCallArgs_emptied (role : Role) :
    role.emptied.showsCallArgs = role.showsCallArgs := by
  cases role with
  | intVar least greatest store watch => cases store <;> rfl
  | _ => rfl

theorem Ident.Like.showsCallArgs {id id' : Ident} (h : id.Like id') :
    id'.role.showsCallArgs = id.role.showsCallArgs := by
  rw [← Role.showsCallArgs_emptied, h.2, Role.showsCallArgs_emptied]

variable {p : Prop} {k : Runner}

instance : (Guarantee.lasting p).Indifferent where
  refl s := .refl s.table
  trans h h' := h.trans h'
  later h ht hp := (h hp).lasts ht
  aside h := by
    unfold Guarantee.lasting
    dsimp only
    rw [h.same]
    exact .refl _
  stamp s := .refl s.table
  push _ hn hx := .push rfl hx hn
  withoutWhile hp h := h hp
  rebound h := h.table.lasts
  entered _ h := h
  left _ _ h := h

instance : (Guarantee.lasting p).Lawful where
  rewrite h := .modify _ fun id hid => (h id hid).like
  bodyOf _ := meets_bodyOf_of fun _ s => Meets.changeAt fun _ => .modify s.table fun _ _ => ⟨rfl, rfl⟩
  cell {_} hk {_ i _ _ _ c _} _ _ _ _ :=
    Meets.bindAt (Meets.changeAt fun _ => by cases c <;> exact Table.Lasts.refl _) fun _ s' _ =>
      meets_notify hk i s'
  mode s _ := .refl s.table
  setAlias i v := Meets.read fun _ => .bind (fun s => Meets.changeAt fun _ => .refl s.table) fun _ s =>
    Meets.changeAt fun _ => .modify s.table fun _ _ => ⟨rfl, rfl⟩

theorem lasting_step (hk : ∀ b pc, Lasting p (k b pc)) (b : Block) {a : Activation}
    (ha : a.stack.length ≤ maxOperands) : Lasting p (step k b a) :=
  meets_step_of (fun _ w a hop ha => meets_perform hk b a hop ha w) ha

end ConsoleScript
