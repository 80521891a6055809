import Mathlib.Data.List.Nodup
import ConsoleScript.Persist.Config
import ConsoleScript.Proofs.Writes.Protection

/-!
What is collected for a config script or a snapshot: which identifiers are saved, what an entry says of
its identifier, and in which order the entries stand. What is collected is determined by which entries
are in it.
-/

namespace ConsoleScript

theorem Bytes.compare_eq_gt (s t : Bytes) : compare s t = .gt ↔ t < s := by
  fun_induction compare s t with
  | case1 | case2 | case3 => simp
  | case4 a s b t hlt => simp [List.cons_lt_cons_iff, UInt8.lt_asymm hlt, (UInt8.ne_of_lt hlt).symm]
  | case5 a s b t _ hlt => simp [List.cons_lt_cons_iff, hlt]
  | case6 a s b t hle hge ih =>
      obtain rfl := UInt8.le_antisymm (UInt8.not_lt.mp hge) (UInt8.not_lt.mp hle)
      simp [ih]

theorem Bytes.le_iff (s t : Bytes) : le s t = true ↔ s ≤ t := by
  rw [le, bne_iff_ne, ne_eq, compare_eq_gt, List.not_lt]

/-- How entries are ordered: variables come before aliases, and either by their names. -/
structure Entry.Precedes (e e' : Entry) : Prop where
  kind : e.kind = utf8 "alias" → e'.kind = utf8 "alias"
  name : (e'.kind = utf8 "alias" → e.kind = utf8 "alias") → e.name ≤ e'.name

theorem Role.isAlias_eq_true {role : Role} : role.isAlias = true ↔ role = .alias := by
  cases role <;> simp [Role.isAlias]

namespace Interp

variable {s s' : Interp} {id id' : Ident} {e : Entry}

/-- What is asked of an identifier that is saved. -/
structure Saves (s : Interp) (id : Ident) : Prop where
  persist : id.flags.persist = true
  overridden : id.flags.overridden = false
  readOnly : id.flags.readOnly = false
  arg : id.flags.arg = false
  unknown : id.flags.unknown = false
  name : Bytes.startsWith id.name (utf8 "//") = false
  holds : id.role.isVar = true ∨ id.role = .alias ∧ (s.valueOf id).isNull = false

theorem isSaved_iff : s.isSaved id = true ↔ s.Saves id := by
  unfold isSaved
  simp only [Bool.and_eq_true, Bool.or_eq_true, Bool.not_eq_true', Role.isAlias_eq_true]
  exact ⟨fun ⟨⟨⟨⟨⟨⟨hp, ho⟩, hr⟩, ha⟩, hu⟩, hn⟩, hv⟩ => ⟨hp, ho, hr, ha, hu, hn, hv⟩,
    fun h => ⟨⟨⟨⟨⟨⟨h.persist, h.overridden⟩, h.readOnly⟩, h.arg⟩, h.unknown⟩, h.name⟩, h.holds⟩⟩

/-- What is sorted for collecting. -/
def savedOf (s : Interp) (p : Role → Bool) : List Ident :=
  ((s.table.idents.toList.filter s.isSaved).filter fun id => p id.role).mergeSort
    fun a b => Bytes.le a.name b.name

theorem mem_savedOf {p : Role → Bool} : id ∈ s.savedOf p ↔
    (∃ i, s.table.get? i = some id) ∧ s.isSaved id = true ∧ p id.role = true := by
  rw [savedOf, List.mem_mergeSort, List.mem_filter, List.mem_filter, List.mem_iff_getElem?, and_assoc]
  simp [Table.get?]

theorem collect_eq (s : Interp) :
    s.collect = (s.savedOf Role.isVar ++ s.savedOf Role.isAlias).map s.entryOf := rfl

theorem mem_collect : e ∈ s.collect ↔
    ∃ i id, s.table.get? i = some id ∧ s.Saves id ∧ e = s.entryOf id := by
  rw [collect_eq, List.mem_map]
  simp only [List.mem_append, mem_savedOf, isSaved_iff]
  constructor
  · rintro ⟨id, ⟨⟨i, hid⟩, hsaved, -⟩ | ⟨⟨i, hid⟩, hsaved, -⟩, rfl⟩ <;> exact ⟨i, id, hid, hsaved, rfl⟩
  · rintro ⟨i, id, hid, hsaved, rfl⟩
    exact ⟨id, hsaved.holds.imp (fun h => ⟨⟨i, hid⟩, hsaved, h⟩) fun h =>
      ⟨⟨i, hid⟩, hsaved, Role.isAlias_eq_true.mpr h.1⟩, rfl⟩

theorem entryOf_mem_collect {i : Nat} (hid : s.table.get? i = some id) (h : s.Saves id) :
    s.entryOf id ∈ s.collect :=
  mem_collect.mpr ⟨i, id, hid, h, rfl⟩

theorem eq_of_mem_collect (hd : s.table.Distinct) {e e' : Entry} (he : e ∈ s.collect)
    (he' : e' ∈ s.collect) (hname : e.name = e'.name) : e = e' := by
  obtain ⟨i, id, hid, -, rfl⟩ := mem_collect.mp he
  obtain ⟨j, id', hid', -, rfl⟩ := mem_collect.mp he'
  cases hd i j id id' hid hid' hname
  cases hid.symm.trans hid'
  rfl

private theorem sorted_savedOf (s : Interp) (p : Role → Bool) :
    (s.savedOf p).Pairwise fun id id' => id.name ≤ id'.name := by
  refine (List.pairwise_mergeSort (fun a b c hab hbc => ?_) (fun a b => ?_) _).imp fun h =>
    (Bytes.le_iff _ _).mp h
  · rw [Bytes.le_iff] at *
    exact List.le_trans hab hbc
  · rw [Bool.or_eq_true, Bytes.le_iff, Bytes.le_iff]
    exact List.le_total a.name b.name

private theorem pairwise_collect (s : Interp) : s.collect.Pairwise Entry.Precedes := by
  have hkind {id : Ident} (hid : id ∈ s.savedOf Role.isVar) :
      (s.entryOf id).kind ≠ utf8 "alias" := by
    have hvar := (mem_savedOf.mp hid).2.2
    change utf8 id.role.kindName ≠ utf8 "alias"
    generalize id.role = role at hvar
    cases role with
    | intVar => exact show utf8 "var" ≠ utf8 "alias" by decide
    | floatVar => exact show utf8 "fvar" ≠ utf8 "alias" by decide
    | textVar => exact show utf8 "svar" ≠ utf8 "alias" by decide
    | command | control | «alias» => cases hvar
  have halias {id : Ident} (hid : id ∈ s.savedOf Role.isAlias) :
      (s.entryOf id).kind = utf8 "alias" := by
    change utf8 id.role.kindName = utf8 "alias"
    rw [Role.isAlias_eq_true.mp (mem_savedOf.mp hid).2.2]
    rfl
  rw [collect_eq, List.pairwise_map, List.pairwise_append]
  refine ⟨(s.sorted_savedOf _).imp_of_mem fun hid _ hle => ⟨fun h => absurd h (hkind hid), fun _ => hle⟩,
    (s.sorted_savedOf _).imp_of_mem fun _ hid' hle => ⟨fun _ => halias hid', fun _ => hle⟩,
    fun id hid id' hid' => ⟨fun _ => halias hid', fun h => absurd (h (halias hid')) (hkind hid)⟩⟩

/-- No two entries have one name. -/
theorem nodup_names_collect (hd : s.table.Distinct) : (s.collect.map Entry.name).Nodup := by
  have hname {i j : Nat} {id id' : Ident} (hid : s.table.get? i = some id)
      (hid' : s.table.get? j = some id') (h : id.name = id'.name) : i = j ∧ id = id' := by
    cases hd i j id id' hid hid' h
    exact ⟨rfl, Option.some.inj (hid.symm.trans hid')⟩
  have hget (i : Nat) (hi : i < s.table.idents.toList.length) :
      s.table.get? i = some s.table.idents.toList[i] := by
    rw [Table.get?, ← Array.getElem?_toList]
    exact List.getElem?_eq_getElem hi
  have hidents : s.table.idents.toList.Nodup := by
    refine List.nodup_iff_pairwise_ne.mpr (List.pairwise_iff_getElem.mpr fun i j hi hj hij heq => ?_)
    exact Nat.ne_of_lt hij (hname (hget i hi) (hget j hj) (congrArg Ident.name heq)).1
  have hsaved (p : Role → Bool) : (s.savedOf p).Nodup :=
    (List.mergeSort_perm _ _).nodup_iff.mpr ((hidents.filter _).filter _)
  have hids : (s.savedOf Role.isVar ++ s.savedOf Role.isAlias).Nodup := by
    refine List.nodup_append.mpr ⟨hsaved _, hsaved _, fun id hid id' hid' heq => ?_⟩
    subst heq
    have hvar := (mem_savedOf.mp hid).2.2
    rw [Role.isAlias_eq_true.mp (mem_savedOf.mp hid').2.2] at hvar
    cases hvar
  rw [collect_eq, List.map_map]
  refine hids.map_on fun id hid id' hid' h => ?_
  have hfound {id : Ident} (hid : id ∈ s.savedOf Role.isVar ++ s.savedOf Role.isAlias) :
      ∃ i, s.table.get? i = some id :=
    (List.mem_append.mp hid).elim (fun h => (mem_savedOf.mp h).1) fun h => (mem_savedOf.mp h).1
  obtain ⟨i, hi⟩ := hfound hid
  obtain ⟨j, hj⟩ := hfound hid'
  exact (hname hi hj h).2

theorem collect_congr (hd : s.table.Distinct) (hd' : s'.table.Distinct)
    (h : ∀ e, e ∈ s.collect ↔ e ∈ s'.collect) : s.collect = s'.collect := by
  have hnodup {s : Interp} (hd : s.table.Distinct) : s.collect.Nodup :=
    (nodup_names_collect hd).of_map _
  have hperm : s.collect.Perm s'.collect :=
    (List.perm_ext_iff_of_nodup (hnodup hd) (hnodup hd')).mpr h
  refine hperm.eq_of_pairwise (fun e e' he he' hle hge => ?_) (pairwise_collect s) (pairwise_collect s')
  exact eq_of_mem_collect hd he ((h e').mpr he')
    (List.le_antisymm (hle.name hge.kind) (hge.name hle.kind))

end Interp

end ConsoleScript
