import ConsoleScript.Engine.Registry
import ConsoleScript.Proofs.Compile.Signatures
import ConsoleScript.Proofs.Engine.Safety

/-!
A new interpreter satisfies the invariant. The slots and the dummy alias have the first indices, and
the commands of the library have signatures that the compiler serves and parameters for all the
arguments that they read.
-/

namespace ConsoleScript

open Bytecode

variable {r : Rigour} {t : Table}

/-- Whether a signature is one of the regular ones, without a pressed key. -/
def Signature.isRegular (sig : Signature) : Bool :=
  let pre := sig.takeWhile Letter.isPlain
  pre.length ≤ maxDeclared && match sig.dropWhile Letter.isPlain with
    | [] | [.all] | [.joined] => true
    | [.again n, .all] => 1 ≤ n && n ≤ 2 && n ≤ pre.length
    | _ => false

theorem Signature.regular_of_isRegular {sig : Signature} (h : sig.isRegular = true) :
    sig.Regular r := by
  have hp : ∀ l ∈ sig.takeWhile Letter.isPlain, l.isPlain = true := fun l hl =>
    List.all_eq_true.mp List.all_takeWhile l hl
  have hsig := List.takeWhile_append_dropWhile (p := Letter.isPlain) (l := sig)
  unfold isRegular at h
  rw [Bool.and_eq_true, decide_eq_true_eq] at h
  obtain ⟨hl, hrest⟩ := h
  generalize sig.takeWhile Letter.isPlain = pre at *
  generalize sig.dropWhile Letter.isPlain = rest at *
  subst hsig
  split at hrest
  · rw [List.append_nil]
    exact .fixed hl hp
  · exact .all hl hp
  · exact .joined hl hp
  · simp only [Bool.and_eq_true, decide_eq_true_eq] at hrest
    exact .again hl hp hrest.1.1 hrest.1.2 hrest.2
  · cases hrest

/-- The key is pressed only in the last place. -/
theorem Signature.pressed_last {seen : Nat} {s : Bytes} {sig : Signature}
    (h : parseFrom seen s = .ok sig) (hf : sig.IsFixed) : (∀ l ∈ sig, l.isPlain = true) ∨
      ∃ pre, sig = pre ++ [.pressed] ∧ ∀ l ∈ pre, l.isPlain = true := by
  induction s generalizing seen sig with
  | nil =>
      cases h
      exact .inl nofun
  | cons c s ih =>
      obtain ⟨l, rest, -, rfl, hrest, hlast, -⟩ := parseFrom_letter h
      have hslot : l.isSlot = true := hf l List.mem_cons_self
      by_cases hl : l = .pressed
      · subst hl
        rw [hlast (.inl rfl)] at hrest
        cases hrest
        exact .inr ⟨[], rfl, nofun⟩
      · have hplain : l.isPlain = true := by simp [Letter.isPlain, hslot, hl]
        rcases ih hrest fun l' hl' => hf l' (List.mem_cons_of_mem l hl') with hr | ⟨pre, rfl, hp⟩
        · exact .inl (List.forall_mem_cons.mpr ⟨hplain, hr⟩)
        · exact .inr ⟨l :: pre, rfl, List.forall_mem_cons.mpr ⟨hplain, hp⟩⟩

/-- Fixed signatures that are accepted are regular. -/
theorem Signature.regular_of_parse {s : Bytes} {sig : Signature} (h : parse s = .ok sig)
    (hf : sig.IsFixed) (hr : r ≠ .room) : sig.Regular r := by
  obtain ⟨hparse, hslots⟩ := parseFrom_of_parse h
  have hall : sig.any Letter.takesAll = false := by
    rw [List.any_eq_false]
    intro l hl
    have hslot := hf l hl
    cases l <;> simp_all [Letter.isSlot, Letter.takesAll]
  have hlen : sig.length ≤ maxDeclared :=
    Nat.le_trans (Nat.le_of_eq (List.countP_eq_length.mpr hf).symm) (hslots hall)
  rcases pressed_last hparse hf with hp | ⟨pre, rfl, hp⟩
  · exact .fixed hlen hp
  · rw [List.length_append] at hlen
    exact .pressed hr hlen hp

/-- Whether every argument that a command of the library reads has a parameter. -/
def Library.Item.isServed (item : Library.Item) : Bool :=
  item.builtin.arity ≤ if .joined ∈ item.signature then 1 else item.signature.slots

theorem Library.items_regular : Library.items.all (·.signature.isRegular) = true := by decide

theorem Library.items_served : Library.items.all Library.Item.isServed = true := by decide

theorem Library.Item.ok_toIdent {item : Library.Item} (h : item ∈ Library.items) :
    item.toIdent.Ok r t where
  value := trivial
  saved := nofun
  body := nofun
  role := by
    intro _ n hn
    have hserved := List.all_eq_true.mp Library.items_served item h
    rw [isServed, decide_eq_true_eq] at hserved
    rcases hn with ⟨hj, rfl⟩ | ⟨hj, hn⟩
    · rwa [if_pos hj] at hserved
    · rw [if_neg hj] at hserved
      exact Nat.le_trans hserved hn
  locked := nofun

namespace Interp

/-- The identifiers of a new interpreter behind the slots and the dummy alias. -/
def furtherIdents : List Ident :=
  cellIdents ++ controlIdents ++ Library.items.map Library.Item.toIdent

theorem get?_new (i : Nat) : new.table.get? i =
    ((argIdents ++ [dummyIdent]) ++ furtherIdents)[i]? := by
  unfold Table.get? new furtherIdents
  rw [List.getElem?_toArray]
  simp only [List.append_assoc]

private theorem length_slots : (argIdents ++ [dummyIdent]).length = dummyIndex + 1 := by
  simp [argIdents, maxArgs, dummyIndex]

theorem eq_alias_of_mem_slots {id : Ident} (h : id ∈ argIdents ++ [dummyIdent]) :
    ∃ name flags, id = { name, role := .alias, flags } := by
  rcases List.mem_append.mp h with h | h
  · obtain ⟨i, -, rfl⟩ := List.mem_map.mp h
    exact ⟨_, _, rfl⟩
  · cases List.mem_singleton.mp h
    exact ⟨_, _, rfl⟩

private theorem ok_of_mem_furtherIdents {id : Ident} (h : id ∈ furtherIdents) : id.Ok r t := by
  rcases List.mem_append.mp h with h | h
  · rcases List.mem_append.mp h with h | h
    · simp only [cellIdents, List.mem_cons, List.not_mem_nil, or_false] at h
      rcases h with rfl | rfl | rfl
      · exact ⟨trivial, nofun, nofun, trivial, fun _ => ⟨rfl, rfl⟩⟩
      · exact ⟨trivial, nofun, nofun, trivial, nofun⟩
      · exact ⟨trivial, nofun, nofun, trivial, nofun⟩
    · obtain ⟨c, -, rfl⟩ := List.mem_map.mp h
      exact ⟨trivial, nofun, nofun, trivial, nofun⟩
  · obtain ⟨item, hitem, rfl⟩ := List.mem_map.mp h
    exact Library.Item.ok_toIdent hitem

/-- The commands of a new interpreter are those of the library. -/
theorem regular_of_mem_furtherIdents (hr : r ≠ .layout) {id : Ident} (h : id ∈ furtherIdents)
    {sig : Signature} (hf : id.role.form r = .command sig) : sig.Regular r := by
  rcases List.mem_append.mp h with h | h
  · rcases List.mem_append.mp h with h | h
    · simp only [cellIdents, List.mem_cons, List.not_mem_nil, or_false] at h
      rcases h with rfl | rfl | rfl <;> cases hf
    · obtain ⟨c, -, rfl⟩ := List.mem_map.mp h
      cases hf
  · obtain ⟨item, hitem, rfl⟩ := List.mem_map.mp h
    have hsig : item.signature = sig := by
      simpa [Library.Item.toIdent, Role.form, hr] using hf
    subst hsig
    exact Signature.regular_of_isRegular (List.all_eq_true.mp Library.items_regular item hitem)

private theorem ready_new (r : Rigour) : new.table.Ready r := by
  have hslot {i : Nat} (hi : i ≤ dummyIndex) :
      ∃ name flags, new.table.get? i = some { name, role := .alias, flags } := by
    have hlt : i < (argIdents ++ [dummyIdent]).length := length_slots ▸ Nat.lt_succ_of_le hi
    obtain ⟨name, flags, hid⟩ := eq_alias_of_mem_slots (List.getElem_mem hlt)
    refine ⟨name, flags, ?_⟩
    rw [get?_new, List.getElem?_append_left hlt, List.getElem?_eq_getElem hlt, hid]
  have hmem {i : Nat} {id : Ident} (h : new.table.get? i = some id) :
      id ∈ argIdents ++ [dummyIdent] ∨ id ∈ furtherIdents := by
    rw [get?_new] at h
    exact List.mem_append.mp (List.mem_of_getElem? h)
  refine ⟨⟨fun i hi => ?_, fun hr i sig hf => ?_⟩, fun i id hid => ?_, fun i hi id hid => ?_⟩
  · obtain ⟨name, flags, hid⟩ := hslot hi
    exact Table.form?_of_get? hid
  · obtain ⟨id, hid, hform⟩ := Option.map_eq_some_iff.mp hf
    rcases hmem hid with h | h
    · obtain ⟨name, flags, rfl⟩ := eq_alias_of_mem_slots h
      cases hform
    · exact regular_of_mem_furtherIdents hr h hform
  · rcases hmem hid with h | h
    · obtain ⟨name, flags, rfl⟩ := eq_alias_of_mem_slots h
      exact Ident.ok_alias r _ name flags
    · exact ok_of_mem_furtherIdents h
  · have hplain : ∀ id ∈ argIdents ++ [dummyIdent], id.flags.overridden = false := by decide
    have hlt : i < (argIdents ++ [dummyIdent]).length := length_slots ▸ Nat.lt_succ_of_lt hi
    rw [get?_new, List.getElem?_append_left hlt] at hid
    exact hplain id (List.mem_of_getElem? hid)

theorem of_get?_new {p : Ident → Bool}
    (h : ((argIdents ++ [dummyIdent]) ++ furtherIdents).all p = true) {i : Nat} {id : Ident}
    (hid : new.table.get? i = some id) : p id = true := by
  rw [get?_new] at hid
  exact List.all_eq_true.mp h id (List.mem_of_getElem? hid)

theorem depth_new (i : Nat) : new.table.depth i = 0 := by
  cases hid : new.table.get? i with
  | none => rw [Table.depth, hid]; rfl
  | some id =>
      have hsaved := of_get?_new (p := (·.saved.isEmpty)) (by decide) hid
      rw [Table.depth_of_get? hid, Ident.depth, List.isEmpty_iff.mp hsaved]
      rfl

theorem inv_new (r : Rigour) : Inv r new where
  table := ready_new r
  backed _ _ := Nat.zero_le _
  outermost := rfl

end Interp

end ConsoleScript
