import ConsoleScript.Engine.Interface
import ConsoleScript.Proofs.Code.Forms
import ConsoleScript.Proofs.Engine.Outcome

/-!
Binding a list of names to the indices from zero on. The names of the table are compared first; then
each further name of the list is given to a new alias, as long as it is free and no number. An attempt
that fails half-way keeps the aliases that it has made; it changes nothing else.
-/

namespace ConsoleScript

open Bytecode Engine

namespace Table

/-- The table with further names, in the order of a list. -/
def naming (t : Table) (added : List Bytes) : Table :=
  added.foldl (fun t name => t.push (unknownAlias name)) t

/-- A name that a new alias can have. -/
def IsFree (t : Table) (name : Bytes) : Prop :=
  t.find? name = none ∧ Reading.isNumeral name = false

variable {t : Table} {name : Bytes} {names added : List Bytes} {i : Nat}

theorem find?_push (t : Table) (id : Ident) (name : Bytes) :
    (t.push id).find? name = (t.find? name).or (if id.name == name then some t.size else none) := by
  unfold find? push
  rw [Array.findIdx?_push]
  cases t.idents.findIdx? (·.name == name) <;> rfl

theorem naming_cons (t : Table) (name : Bytes) (rest : List Bytes) :
    t.naming (name :: rest) = (t.push (unknownAlias name)).naming rest := rfl

theorem size_naming (t : Table) (added : List Bytes) :
    (t.naming added).size = t.size + added.length := by
  induction added generalizing t with
  | nil => rfl
  | cons name rest ih =>
      rw [naming_cons, ih, size_push, List.length_cons]
      omega

theorem names_push (t : Table) (id : Ident) : (t.push id).names = t.names ++ [id.name] := by
  simp [names, push]

theorem names_naming (t : Table) (added : List Bytes) :
    (t.naming added).names = t.names ++ added := by
  induction added generalizing t with
  | nil => exact (List.append_nil _).symm
  | cons name rest ih =>
      rw [naming_cons, ih, names_push, List.append_assoc]
      rfl

theorem length_names (t : Table) : t.names.length = t.size := by
  simp [names, size]

private theorem getElem?_names (t : Table) (i : Nat) : t.names[i]? = (t.get? i).map Ident.name := by
  simp [names, get?]

theorem get?_naming (added : List Bytes) (hi : i < t.size) :
    (t.naming added).get? i = t.get? i := by
  induction added generalizing t with
  | nil => rfl
  | cons name rest ih =>
      rw [naming_cons, ih (by rw [size_push]; omega), get?_push, if_neg (Nat.ne_of_lt hi)]

theorem of_get?_naming {id : Ident} (added : List Bytes) (h : (t.naming added).get? i = some id)
    (hi : t.size ≤ i) : ∃ name ∈ added, id = unknownAlias name := by
  induction added generalizing t with
  | nil => exact absurd (lt_size_of_get? h) (Nat.not_lt.mpr hi)
  | cons name rest ih =>
      rw [naming_cons] at h
      rcases Nat.eq_or_lt_of_le hi with rfl | hlt
      · rw [get?_naming rest (by rw [size_push]; exact Nat.lt_succ_self _), get?_push, if_pos rfl] at h
        cases h
        exact ⟨name, List.mem_cons_self, rfl⟩
      · obtain ⟨name', hname', hid⟩ := ih h (by rw [size_push]; exact hlt)
        exact ⟨name', List.mem_cons_of_mem name hname', hid⟩

private theorem find?_naming (added : List Bytes) (h : t.find? name = some i) :
    (t.naming added).find? name = some i := by
  induction added generalizing t with
  | nil => exact h
  | cons other rest ih => exact ih (by rw [find?_push, h]; rfl)

/-- Past the end of the table, names are given to new aliases as long as they are free. -/
theorem bindFrom_size (t : Table) (names : List Bytes) : ∃ isBound added,
    t.bindFrom t.size names = (isBound, t.naming added) ∧ added <+: names ∧ added.Nodup ∧
      (∀ name ∈ added, t.IsFree name) ∧ (isBound = true → added = names) ∧
      (isBound = false → ∃ name rest, names = added ++ name :: rest ∧
        ¬(t.naming added).IsFree name) := by
  induction names generalizing t with
  | nil =>
      exact ⟨true, [], rfl, List.nil_prefix, .nil, fun _ h => absurd h List.not_mem_nil, fun _ => rfl,
        fun h => absurd h (by decide)⟩
  | cons name rest ih =>
      have hnone : t.get? t.size = none := by simp [get?, size]
      have hbind : t.bindFrom t.size (name :: rest) =
          if (t.find? name).isSome || Reading.isNumeral name then (false, t)
          else (t.push (unknownAlias name)).bindFrom (t.size + 1) rest := by
        rw [bindFrom, hnone]
      rw [hbind]
      split
      next htaken =>
        refine ⟨false, [], rfl, List.nil_prefix, .nil, fun _ h => absurd h List.not_mem_nil,
          fun h => absurd h (by decide), fun _ => ⟨name, rest, rfl, ?_⟩⟩
        rintro ⟨hfree, hword⟩
        have hfree : t.find? name = none := hfree
        rw [hfree, hword] at htaken
        cases htaken
      next hfree =>
        rw [Bool.or_eq_true, not_or, Bool.not_eq_true, Bool.not_eq_true, Option.isSome_eq_false_iff,
          Option.isNone_iff_eq_none] at hfree
        obtain ⟨isBound, added, hadded, hprefix, hnodup, hall, hbound, hunbound⟩ :=
          ih (t.push (unknownAlias name))
        rw [size_push] at hadded
        -- What is free later was free before, and is not the name that was given just now.
        have hlater (other : Bytes) (h : other ∈ added) : t.IsFree other ∧ name ≠ other := by
          obtain ⟨hfind, hword⟩ := hall other h
          rw [find?_push, Option.or_eq_none_iff] at hfind
          refine ⟨⟨hfind.1, hword⟩, ?_⟩
          rintro rfl
          have hgiven := hfind.2
          simp [unknownAlias] at hgiven
        refine ⟨isBound, name :: added, hadded, (List.prefix_cons_inj name).mpr hprefix,
          List.nodup_cons.mpr ⟨fun h => (hlater name h).2 rfl, hnodup⟩, fun other h => ?_,
          fun h => by rw [hbound h], fun h => ?_⟩
        · rcases List.mem_cons.mp h with rfl | h
          · exact hfree
          · exact (hlater other h).1
        · obtain ⟨next, behind, rfl, hnext⟩ := hunbound h
          exact ⟨next, behind, rfl, hnext⟩

/-- The names of the table come first; if they disagree, nothing is done. -/
theorem bindFrom_old (hi : i ≤ t.size) (names : List Bytes) : t.bindFrom i names =
    if names.take (t.size - i) <+: t.names.drop i then t.bindFrom t.size (names.drop (t.size - i))
    else (false, t) := by
  induction names generalizing i with
  | nil => simp [bindFrom]
  | cons name rest ih =>
      rcases Nat.lt_or_eq_of_le hi with hlt | rfl
      · obtain ⟨id, hid⟩ : ∃ id, t.get? i = some id := ⟨_, Array.getElem?_eq_getElem hlt⟩
        have hdrop : t.names.drop i = id.name :: t.names.drop (i + 1) := by
          have hget : t.names[i]? = some id.name := by rw [getElem?_names, hid]; rfl
          obtain ⟨h, hname⟩ := List.getElem?_eq_some_iff.mp hget
          rw [List.drop_eq_getElem_cons h, hname]
        have hsub : t.size - i = (t.size - (i + 1)) + 1 := by omega
        rw [bindFrom, hid, hdrop, hsub, List.take_succ_cons, List.drop_succ_cons]
        dsimp only
        by_cases hname : id.name = name
        · subst hname
          rw [if_pos (beq_self_eq_true _), ih hlt]
          simp only [List.prefix_cons_inj]
        · rw [if_neg (by simpa using hname), if_neg]
          exact fun h => hname (List.cons_prefix_cons.mp h).1.symm
      · simp

theorem names_naming_of_bound {names added : List Bytes} (hagree : names.take t.size <+: t.names)
    (hadded : added = names.drop t.size) : (t.naming added).names.take names.length = names := by
  rw [names_naming, hadded]
  obtain ⟨behind, hbehind⟩ := hagree
  rcases Nat.le_total names.length t.size with hle | hle
  · rw [List.drop_eq_nil_of_le hle, List.append_nil, ← hbehind, List.take_of_length_le hle,
      List.take_left]
  · have hlength := congrArg List.length hbehind
    rw [List.length_append, List.length_take, length_names, Nat.min_eq_left hle] at hlength
    have hnil : behind = [] := List.eq_nil_of_length_eq_zero (by omega)
    rw [← hbehind, hnil, List.append_nil, List.take_append_drop, List.take_length]

theorem bind_eq (names : List Bytes) : t.bind names =
    if names.take t.size <+: t.names then t.bindFrom t.size (names.drop t.size) else (false, t) := by
  have hold := bindFrom_old (Nat.zero_le t.size) names
  rwa [Nat.sub_zero, List.drop_zero] at hold

theorem names_of_bind {names : List Bytes} (h : (t.bind names).1 = true) :
    (t.bind names).2.names.take names.length = names := by
  rw [bind_eq] at h ⊢
  by_cases hagree : names.take t.size <+: t.names
  · obtain ⟨isBound, added, hadded, -, -, -, hbound, -⟩ := bindFrom_size t (names.drop t.size)
    rw [if_pos hagree, hadded] at h ⊢
    exact names_naming_of_bound hagree (hbound h)
  · rw [if_neg hagree] at h
    cases h

end Table

theorem outcome_bindIdents (names : List Bytes) (s : Interp) : outcome (bindIdents names) s =
    (.ok (s.table.bind names).1, { s with table := (s.table.bind names).2 }) := by
  unfold bindIdents
  exact outcome_bind_ok (outcome_get s) _

/-- Binding names either takes place or not; in either case only further names of the list are given to
new aliases, in their order, each of them free. It takes place exactly if the names of the table are
those of the list and all further ones are free, and then the list names the table from the beginning.
If it does not take place, the names of the table are others and nothing is changed, or the name after
those that were given is not free. -/
theorem bindIdents_adds_free_names (s : Interp) (names : List Bytes) : ∃ isBound added,
    outcome (bindIdents names) s = (.ok isBound, { s with table := s.table.naming added }) ∧
    (∀ i < s.table.size, (s.table.naming added).get? i = s.table.get? i) ∧
    (∀ name i, s.table.find? name = some i → (s.table.naming added).find? name = some i) ∧
    added <+: names.drop s.table.size ∧ added.Nodup ∧ (∀ name ∈ added, s.table.IsFree name) ∧
    (isBound = true → (s.table.naming added).names.take names.length = names) ∧
    (isBound = false →
      ¬names.take s.table.size <+: s.table.names ∧ added = [] ∨
      ∃ name rest, names.drop s.table.size = added ++ name :: rest ∧
        ¬(s.table.naming added).IsFree name) := by
  have hdone {isBound : Bool} {t : Table} (h : s.table.bind names = (isBound, t)) :
      outcome (bindIdents names) s = (.ok isBound, { s with table := t }) := by
    rw [outcome_bindIdents, h]
  have hkept (added : List Bytes) :
      (∀ i < s.table.size, (s.table.naming added).get? i = s.table.get? i) ∧
      ∀ name i, s.table.find? name = some i → (s.table.naming added).find? name = some i :=
    ⟨fun _ hi => Table.get?_naming added hi, fun _ _ h => Table.find?_naming added h⟩
  have hold := Table.bind_eq (t := s.table) names
  by_cases hagree : names.take s.table.size <+: s.table.names
  · rw [if_pos hagree] at hold
    obtain ⟨isBound, added, hadded, hprefix, hnodup, hfree, hbound, hunbound⟩ :=
      Table.bindFrom_size s.table (names.drop s.table.size)
    exact ⟨isBound, added, hdone (hold.trans hadded), (hkept added).1, (hkept added).2, hprefix, hnodup,
      hfree, fun h => Table.names_naming_of_bound hagree (hbound h), fun h => .inr (hunbound h)⟩
  · rw [if_neg hagree] at hold
    exact ⟨false, [], hdone hold, (hkept []).1, (hkept []).2, List.nil_prefix, .nil, nofun, nofun,
      fun _ => .inl ⟨hagree, rfl⟩⟩

/-- Behind the names of a new interpreter, a name that is free is given even if the next one is a
number, which no alias can have. -/
theorem bindIdents_keeps_first_names : ∃ s',
    outcome (bindIdents (Interp.new.table.names ++ [utf8 "x", utf8 "1"])) .new = (.ok false, s') ∧
      s'.table.size = Interp.new.table.size + 1 ∧ Interp.new.table.find? (utf8 "x") = none ∧
      s'.table.find? (utf8 "x") = some Interp.new.table.size := by
  have hbind : (Interp.new.table.bind (Interp.new.table.names ++ [utf8 "x", utf8 "1"])).1 = false := by
    decide +kernel
  refine ⟨_, (outcome_bindIdents _ _).trans (by rw [hbind]), ?_⟩
  decide +kernel

end ConsoleScript
