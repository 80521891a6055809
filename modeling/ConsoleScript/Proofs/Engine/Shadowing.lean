import ConsoleScript.Proofs.Engine.Bindings

/-!
Aliases that a run shadows. Only aliases by name are shadowed, each as often as it is listed; ending
the shadowing restores a value for each.
-/

namespace ConsoleScript

open Bytecode Engine

variable {r : Rigour} {t t' : Table} {s : Interp} {l : List Nat}

/-- How often the aliases of a list shadow an identifier. Only aliases by name are shadowed by
themselves. -/
def Table.shadows (r : Rigour) (t : Table) (l : List Nat) (j : Nat) : Nat :=
  if t.form? r j = some .alias ∧ maxArgs ≤ j then l.count j else 0

theorem Table.shadows_nil (j : Nat) : t.shadows r [] j = 0 := by
  unfold Table.shadows
  split <;> rfl

theorem Table.shadows_append (l l' : List Nat) (j : Nat) :
    t.shadows r (l ++ l') j = t.shadows r l j + t.shadows r l' j := by
  unfold Table.shadows
  split
  · exact List.count_append
  · rfl

theorem Table.shadows_reverse (l : List Nat) (j : Nat) :
    t.shadows r l.reverse j = t.shadows r l j := by
  unfold Table.shadows
  rw [List.count_reverse]

theorem Table.Extends.shadows_eq (h : t.Extends r t') (hl : ∀ i ∈ l, i < t.size) (j : Nat) :
    t'.shadows r l j = t.shadows r l j := by
  unfold Table.shadows
  by_cases hj : j ∈ l
  · obtain ⟨f, hf⟩ := Table.exists_form? r (hl j hj)
    rw [hf, h j f hf]
  · rw [List.count_eq_zero_of_not_mem hj, ite_self, ite_self]

theorem isNamedAlias_iff {i : Nat} {id : Ident} (hid : t.get? i = some id) :
    isNamedAlias i id = true ↔ t.form? r i = some .alias ∧ maxArgs ≤ i := by
  rw [isNamedAlias, Bool.and_eq_true, Role.isAlias_iff r, decide_eq_true_eq,
    Table.form?_of_get? hid, Option.some.injEq]

theorem Table.shadows_singleton (i j : Nat) : t.shadows r [i] j =
    if t.form? r i = some .alias ∧ maxArgs ≤ i then if i = j then 1 else 0 else 0 := by
  unfold Table.shadows
  rw [List.count_singleton]
  by_cases hij : i = j
  · subst hij
    simp
  · simp [hij]

theorem Table.shadows_slot {j : Nat} (hj : j < maxArgs) : t.shadows r l j = 0 :=
  if_neg fun h => absurd hj (Nat.not_lt.mpr h.2)

private theorem outcome_pushAlias (hr : s.table.Ready r) {i : Nat} (hi : i < s.table.size) :
    ∃ s', outcome (pushAlias i) s = (.ok ⟨⟩, s') ∧ Rebinds r s s' ∧
      s.table.Adds (s.table.shadows r [i]) s'.table := by
  obtain ⟨id, hid⟩ := Table.exists_get? hi
  unfold pushAlias
  rw [outcome_bind_ok (outcome_identAt hid)]
  split
  next hn =>
    rw [isNamedAlias_iff (r := r) hid] at hn
    obtain ⟨hb₁, hd₁⟩ := rebinds_push hr hi (v := .null) trivial
    obtain ⟨hb₂, hd₂⟩ := rebinds_clearUnknown hb₁.ready i
    refine ⟨_, rfl, hb₁.trans hb₂, (hd₁.trans hd₂).of_eq fun j => ?_⟩
    rw [Table.shadows_singleton, if_pos hn, Nat.zero_add]
  next hn =>
    rw [isNamedAlias_iff (r := r) hid] at hn
    refine ⟨s, rfl, .refl hr, (Table.Adds.refl _).of_eq fun j => ?_⟩
    rw [Table.shadows_singleton, if_neg hn]

private theorem outcome_popAlias (hr : s.table.Ready r) {i : Nat} (hi : i < s.table.size)
    (hd : ∀ j, s.table.shadows r [i] j ≤ s.table.depth j) :
    ∃ s', outcome (popAlias i) s = (.ok ⟨⟩, s') ∧ Rebinds r s s' ∧
      s'.table.Adds (s.table.shadows r [i]) s.table := by
  obtain ⟨id, hid⟩ := Table.exists_get? hi
  unfold popAlias
  rw [outcome_bind_ok (outcome_identAt hid)]
  split
  next hn =>
    rw [isNamedAlias_iff (r := r) hid] at hn
    have hpos := hd i
    rw [Table.shadows_singleton, if_pos hn, if_pos rfl] at hpos
    obtain ⟨s', hs', hb, hd'⟩ := outcome_popArg hr hpos
    refine ⟨s', hs', hb, hd'.of_eq fun j => ?_⟩
    rw [Table.shadows_singleton, if_pos hn]
  next hn =>
    rw [isNamedAlias_iff (r := r) hid] at hn
    refine ⟨s, rfl, .refl hr, (Table.Adds.refl _).of_eq fun j => ?_⟩
    rw [Table.shadows_singleton, if_neg hn]

theorem outcome_pushAliases (hr : s.table.Ready r) (hl : ∀ i ∈ l, i < s.table.size) :
    ∃ s', outcome (l.forM pushAlias) s = (.ok ⟨⟩, s') ∧ Rebinds r s s' ∧
      s.table.Adds (s.table.shadows r l) s'.table := by
  induction l generalizing s with
  | nil => exact ⟨s, rfl, .refl hr, (Table.Adds.refl _).of_eq fun j => (Table.shadows_nil j).symm⟩
  | cons i l ih =>
      obtain ⟨s₁, h₁, hb₁, hd₁⟩ := outcome_pushAlias hr (hl i List.mem_cons_self)
      have hrest (j : Nat) (hj : j ∈ l) := hl j (List.mem_cons_of_mem i hj)
      obtain ⟨s₂, h₂, hb₂, hd₂⟩ := ih hb₁.ready fun j hj => hb₁.forms.lt_size (hrest j hj)
      refine ⟨s₂, (outcome_bind_ok h₁ _).trans h₂, hb₁.trans hb₂, (hd₁.trans hd₂).of_eq fun j => ?_⟩
      rw [hb₁.forms.shadows_eq hrest, Nat.add_comm, ← Table.shadows_append]
      rfl

/-- Ending the shadowing by the aliases of a list. -/
theorem outcome_endLocals (hr : s.table.Ready r) (hl : ∀ i ∈ l, i < s.table.size)
    (hd : ∀ j, s.table.shadows r l j ≤ s.table.depth j) :
    ∃ s', outcome (endLocals l) s = (.ok ⟨⟩, s') ∧ Rebinds r s s' ∧
      s'.table.Adds (s.table.shadows r l) s.table := by
  induction l generalizing s with
  | nil => exact ⟨s, rfl, .refl hr, (Table.Adds.refl _).of_eq fun j => (Table.shadows_nil j).symm⟩
  | cons i l ih =>
      have hrest (j : Nat) (hj : j ∈ l) := hl j (List.mem_cons_of_mem i hj)
      have hsplit (j : Nat) : s.table.shadows r (i :: l) j =
          s.table.shadows r [i] j + s.table.shadows r l j := Table.shadows_append [i] l j
      simp only [hsplit] at hd
      obtain ⟨s₁, h₁, hb₁, hd₁⟩ := outcome_popAlias hr (hl i List.mem_cons_self)
        fun j => Nat.le_trans (Nat.le_add_right _ _) (hd j)
      have hsame := hb₁.forms.shadows_eq hrest
      obtain ⟨s₂, h₂, hb₂, hd₂⟩ := ih hb₁.ready (fun j hj => hb₁.forms.lt_size (hrest j hj))
        fun j => by
          have := hd j
          have := hd₁.depth j
          rw [hsame]
          omega
      refine ⟨s₂, (outcome_bind_ok h₁ _).trans h₂, hb₁.trans hb₂, (hd₂.trans hd₁).of_eq fun j => ?_⟩
      rw [hsame, hsplit]

end ConsoleScript
