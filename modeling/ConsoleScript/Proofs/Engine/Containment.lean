import ConsoleScript.Proofs.Engine.LastingRuns

/-!
What corrupt code cannot reach. Of any words that are run, the calls around them stay as they are, and
so do the bindings of argument slots: the steps that save values are matched by those that restore
them, whatever happens in between. Only an alias or a variable can be left with more values saved than
it had, by an instruction on argument slots that names it, and then the slot set of the scope may have
got its bit.

The number of arguments of the running alias is kept as long as the variable that shows it is
read-only. An instruction that writes an alias takes that from any identifier that it names.
-/

namespace ConsoleScript

open Bytecode Engine

section Pending

theorem pending_succ_le (marked : Nat) (scopes : List Scope) (i : Nat) :
    pending (marked + 1) scopes i ≤ pending marked scopes i := by
  induction scopes generalizing marked with
  | nil => exact Nat.le_refl 0
  | cons c rest ih =>
      by_cases hm : c.used.has maxArgs = true
      · rw [pending_marked i hm, pending_marked i hm]
        exact ih (marked + 1)
      · rw [pending_succ i hm]
        cases marked with
        | zero =>
            rw [pending_zero i hm]
            exact Nat.le_add_left _ _
        | succ marked =>
            rw [pending_succ i hm]
            exact ih marked

/-- Where the innermost scope gets further bits, and be it the mark, each slot counts once more at
most. -/
theorem Interp.pending_setUsed_le (s : Interp) {u : SlotSet}
    (hk : ∀ j, s.used.has j = true → u.has j = true) (i : Nat) :
    pending 0 (s.setUsed u).scopes i ≤
      pending 0 s.scopes i + if u.has i && !s.used.has i then 1 else 0 := by
  by_cases hm : u.has maxArgs = s.used.has maxArgs
  · exact s.pending_setUsed hm (hk i)
  · have hold : ¬s.used.has maxArgs = true := fun h => hm ((hk maxArgs h).trans h.symm)
    have hnew : u.has maxArgs = true := by
      cases hu : u.has maxArgs with
      | true => rfl
      | false => exact absurd (hu.trans (Bool.eq_false_iff.mpr hold).symm) hm
    unfold setUsed used at *
    cases hc : s.scopes with
    | nil => exact Nat.zero_le _
    | cons c rest =>
        rw [hc] at hold
        dsimp only at hold ⊢
        rw [pending_marked i hnew, pending_zero i hold]
        have := pending_succ_le 0 rest i
        omega

end Pending

/-- The number of arguments is shown by a variable that is not read-only. -/
def Interp.Exposed (s : Interp) : Prop :=
  ∃ i id, s.table.get? i = some id ∧ id.role.showsCallArgs = true ∧ id.flags.readOnly = false

/-- Identifiers last, and none becomes read-only; one that is, is not overridden either. -/
structure Table.Guards (t t' : Table) : Prop where
  lasts : t.Lasts t'
  locks : ∀ i id id', t.get? i = some id → t'.get? i = some id' → id'.flags.readOnly = true →
    id.flags.readOnly = true ∧ (id'.flags.overridden = true → id.flags.overridden = true)

namespace Table.Guards

variable {t t' t'' : Table}

theorem refl (t : Table) : t.Guards t := by
  refine ⟨.refl t, fun i id id' h h' hr => ?_⟩
  cases h.symm.trans h'
  exact ⟨hr, fun h => h⟩

theorem trans (h : t.Guards t') (h' : t'.Guards t'') : t.Guards t'' := by
  refine ⟨h.lasts.trans h'.lasts, fun i id id'' hid hid'' hr => ?_⟩
  obtain ⟨id', hid', -⟩ := h.lasts.kept i id hid
  obtain ⟨hr', ho'⟩ := h'.locks i id' id'' hid' hid'' hr
  obtain ⟨hr₀, ho⟩ := h.locks i id id' hid hid' hr'
  exact ⟨hr₀, fun h => ho (ho' h)⟩

theorem modify (t : Table) {i : Nat} {f : Ident → Ident} (h : ∀ id, t.get? i = some id →
    id.Like (f id) ∧ ((f id).flags.readOnly = true → id.flags.readOnly = true ∧
      ((f id).flags.overridden = true → id.flags.overridden = true))) : t.Guards (t.modify i f) := by
  refine ⟨.modify t fun id hid => (h id hid).1, fun j id id' hid hid' hr => ?_⟩
  rw [get?_modify] at hid'
  split at hid'
  next hj =>
    subst hj
    rw [hid] at hid'
    cases hid'
    exact (h id hid).2 hr
  next =>
    cases hid.symm.trans hid'
    exact ⟨hr, fun h => h⟩

private theorem push {id : Ident} (h : id.role = .alias) (hn : t.find? id.name = none)
    (hx : Reading.isNumeral id.name = false) : t.Guards (t.push id) := by
  refine ⟨.push h hx hn, fun i id₁ id₂ h₁ h₂ hr => ?_⟩
  rw [get?_push, if_neg (Nat.ne_of_lt (lt_size_of_get? h₁))] at h₂
  cases h₁.symm.trans h₂
  exact ⟨hr, fun h => h⟩

theorem le_size (h : t.Guards t') {n : Nat} (hn : n ≤ t.size) : n ≤ t'.size := by
  cases n with
  | zero => exact Nat.zero_le _
  | succ n => exact (h.lasts.extends .layout).lt_size hn

/-- A variable that shows the number of arguments stays without an override while it is read-only. -/
theorem locked (h : t.Guards t') (ht : ∀ i id, t.get? i = some id → id.role.showsCallArgs = true →
      id.flags.readOnly = true → id.flags.overridden = false) {i : Nat} {id' : Ident}
    (hid' : t'.get? i = some id') (hshows : id'.role.showsCallArgs = true)
    (hr : id'.flags.readOnly = true) : id'.flags.overridden = false := by
  cases hid : t.get? i with
  | none =>
      rw [(h.lasts.added i id' hid hid').role] at hshows
      cases hshows
  | some id =>
      obtain ⟨id₂, hid₂, hlike⟩ := h.lasts.kept i id hid
      cases hid₂.symm.trans hid'
      obtain ⟨hr₀, ho⟩ := h.locks i id id' hid hid' hr
      have hold := ht i id hid (hlike.showsCallArgs.symm.trans hshows) hr₀
      cases ho' : id'.flags.overridden with
      | false => rfl
      | true => exact absurd ((ho ho').symm.trans hold) (by decide)

end Table.Guards

/-- What is needed for corrupt code to be contained: argument slots are identifiers, what the scopes
in effect have bound can be restored, and nothing makes the number of arguments writable by way of an
override. -/
structure Interp.Guarded (s : Interp) : Prop where
  size : maxOperands ≤ s.table.size
  backed : ∀ i < maxArgs, pending 0 s.scopes i ≤ s.table.depth i
  outermost : ∀ i < maxArgs, s.outermost.has i = true
  locked : ∀ i id, s.table.get? i = some id → id.role.showsCallArgs = true →
    id.flags.readOnly = true → id.flags.overridden = false
  writes : s.writeFlags.readOnly = false

/-- An index that is bound anew has one more value saved. -/
def newly (s s' : Interp) (i : Nat) : Nat := if s'.isBound i && !s.isBound i then 1 else 0

/-- How any code leaves the bindings, if of each identifier `n` values are saved that it still has to
restore. -/
structure Contained (n : Nat → Nat) (s s' : Interp) : Prop where
  guards : s.table.Guards s'.table
  writes : s'.writeFlags.readOnly = s.writeFlags.readOnly
  scopes : s'.scopes = (s.setUsed s'.used).scopes
  outermost : s'.outermost = (s.setUsed s'.used).outermost
  keeps : ∀ i, s.isBound i = true → s'.isBound i = true
  slots : ∀ i < maxArgs, s'.table.depth i = s.table.depth i + n i + newly s s' i
  others : ∀ i, maxArgs ≤ i → s.table.depth i + n i + newly s s' i ≤ s'.table.depth i
  callArgs : s'.callArgs = s.callArgs ∨ s'.Exposed

/-- A variable that shows the number of arguments and is not read-only does not become so. -/
theorem Interp.Exposed.later {s s' : Interp} (h : s.Exposed) (hg : s.table.Guards s'.table) :
    s'.Exposed := by
  obtain ⟨i, id, hid, hshows, hr⟩ := h
  obtain ⟨id', hid', hlike⟩ := hg.lasts.kept i id hid
  refine ⟨i, id', hid', hlike.showsCallArgs.trans hshows, ?_⟩
  cases hr' : id'.flags.readOnly with
  | false => rfl
  | true => exact absurd ((hg.locks i id id' hid hid' hr').1.symm.trans hr) (by decide)

private theorem newly_self (s : Interp) (i : Nat) : newly s s i = 0 := by
  unfold newly
  cases s.isBound i <;> rfl

theorem newly_congr {s s' s₁ s₁' : Interp} {i : Nat} (h : s₁.isBound i = s.isBound i)
    (h' : s₁'.isBound i = s'.isBound i) : newly s₁ s₁' i = newly s s' i := by
  unfold newly
  rw [h, h']

namespace Contained

variable {n m : Nat → Nat} {s s' s'' : Interp}

/-- Nothing is bound anew. -/
theorem of_same (hs : s'.scopes = s.scopes) (ho : s'.outermost = s.outermost)
    (hg : s.table.Guards s'.table) (hw : s'.writeFlags.readOnly = s.writeFlags.readOnly)
    (hslots : ∀ i < maxArgs, s'.table.depth i = s.table.depth i + n i)
    (hothers : ∀ i, maxArgs ≤ i → s.table.depth i + n i ≤ s'.table.depth i)
    (hc : s'.callArgs = s.callArgs ∨ s'.Exposed) : Contained n s s' := by
  have hu : s'.used = s.used := Interp.used_congr hs ho
  have hnew (i : Nat) : newly s s' i = 0 :=
    (newly_congr rfl (Interp.isBound_congr hs ho i)).trans (newly_self s i)
  refine ⟨hg, hw, ?_, ?_, fun i hi => (Interp.isBound_congr hs ho i).trans hi, fun i hi => ?_,
    fun i hi => ?_, hc⟩
  · rw [hu, Interp.setUsed_used, hs]
  · rw [hu, Interp.setUsed_used, ho]
  · rw [hnew, hslots i hi, Nat.add_zero]
  · rw [hnew]
    exact hothers i hi

theorem refl (s : Interp) : Contained (fun _ => 0) s s :=
  .of_same rfl rfl (.refl _) rfl (fun _ _ => rfl) (fun _ _ => Nat.le_refl _) (.inl rfl)

private theorem newly_trans (h : Contained n s s') (h' : Contained m s' s'') (i : Nat) :
    newly s s'' i = newly s s' i + newly s' s'' i := by
  have hk := h.keeps i
  have hk' := h'.keeps i
  unfold newly
  cases hb : s.isBound i <;> cases hb' : s'.isBound i <;> cases hb'' : s''.isBound i <;> simp_all

theorem trans (h : Contained n s s') (h' : Contained m s' s'') :
    Contained (fun i => n i + m i) s s'' := by
  have hset : (s'.setUsed s''.used).scopes = (s.setUsed s''.used).scopes ∧
      (s'.setUsed s''.used).outermost = (s.setUsed s''.used).outermost := by
    have hc := Interp.setUsed_congr h.scopes h.outermost s''.used
    rwa [Interp.setUsed_setUsed] at hc
  refine ⟨h.guards.trans h'.guards, h'.writes.trans h.writes, h'.scopes.trans hset.1,
    h'.outermost.trans hset.2, fun i hi => h'.keeps i (h.keeps i hi), fun i hi => ?_,
    fun i hi => ?_, ?_⟩
  · rw [h.newly_trans h', h'.slots i hi, h.slots i hi]
    omega
  · have := h.others i hi
    have := h'.others i hi
    rw [h.newly_trans h']
    omega
  · rcases h'.callArgs with hc | hc
    · rcases h.callArgs with hc' | hc'
      · exact .inl (hc.trans hc')
      · exact .inr (hc'.later h'.guards)
    · exact .inr hc

theorem weaken (h : Contained n s s') (hslots : ∀ i < maxArgs, m i = n i)
    (hothers : ∀ i, m i ≤ n i) : Contained m s s' := by
  refine { h with slots := fun i hi => ?_, others := fun i hi => ?_ }
  · rw [hslots i hi]
    exact h.slots i hi
  · have := h.others i hi
    have := hothers i
    omega

theorem of_eq (h : Contained n s s') (hn : ∀ i, m i = n i) : Contained m s s' :=
  h.weaken (fun i _ => hn i) fun i => Nat.le_of_eq (hn i)

/-- What is needed for it lasts. -/
theorem guarded (h : Contained n s s') (hs : s.Guarded) : s'.Guarded where
  size := h.guards.le_size hs.size
  backed i hi := by
    have hp := s.pending_setUsed_le (u := s'.used) h.keeps i
    have hd := h.slots i hi
    have := hs.backed i hi
    rw [← h.scopes] at hp
    unfold newly Interp.isBound at hd
    omega
  outermost i hi := by
    have hk := h.keeps i
    have hall := hs.outermost i hi
    rw [h.outermost]
    unfold Interp.isBound Interp.setUsed Interp.used at *
    cases hc : s.scopes with
    | nil =>
        rw [hc] at hk
        exact hk hall
    | cons => exact hall
  locked _ _ hid' hshows hr := h.guards.locked hs.locked hid' hshows hr
  writes := h.writes.trans hs.writes

end Contained

/-- Saving a value, where there is an identifier. -/
theorem Table.depth_pushValue (t : Table) (i : Nat) (v : Value) (j : Nat) :
    (t.modify i (·.pushValue v)).depth j = t.depth j + if i = j ∧ i < t.size then 1 else 0 := by
  rw [depth_modify]
  split
  next hj =>
    subst hj
    by_cases hi : i < t.size
    · obtain ⟨id, hid⟩ := exists_get? hi
      rw [depth_of_get? hid, hid, if_pos ⟨rfl, hi⟩]
      rfl
    · rw [depth, get?_eq_none (Nat.le_of_not_lt hi), if_neg fun h => hi h.2]
      rfl
  next hj => rw [if_neg fun h => hj h.1, Nat.add_zero]

/-- Only the table changes: of each identifier `off` values are restored, and `on` values saved. -/
structure Shifted (off on : Nat → Nat) (s s' : Interp) : Prop where
  same : s' = { s with table := s'.table }
  guards : s.table.Guards s'.table
  depth : ∀ i, s'.table.depth i + off i = s.table.depth i + on i

namespace Shifted

variable {off on off' on' : Nat → Nat} {s s' s'' : Interp} {i : Nat}

theorem refl (s : Interp) : Shifted (fun _ => 0) (fun _ => 0) s s := ⟨rfl, .refl _, fun _ => rfl⟩

theorem trans (h : Shifted off on s s') (h' : Shifted off' on' s' s'') :
    Shifted (fun i => off i + off' i) (fun i => on i + on' i) s s'' := by
  refine ⟨?_, h.guards.trans h'.guards, fun i => ?_⟩
  · rw [h'.same, h.same]
  · have := h.depth i
    have := h'.depth i
    omega

theorem of_eq (h : Shifted off on s s') (hoff : ∀ i, off i = off' i) (hon : ∀ i, on i = on' i) :
    Shifted off' on' s s' := by
  rw [← funext hoff, ← funext hon]
  exact h

theorem scopes (h : Shifted off on s s') : s'.scopes = s.scopes := by rw [h.same]

theorem outermost (h : Shifted off on s s') : s'.outermost = s.outermost := by rw [h.same]

theorem callArgs (h : Shifted off on s s') : s'.callArgs = s.callArgs := by rw [h.same]

theorem writeFlags (h : Shifted off on s s') : s'.writeFlags = s.writeFlags := by rw [h.same]

theorem push (hi : i < s.table.size) (v : Value) : Shifted (fun _ => 0)
    (fun j => if i = j then 1 else 0) s (s.modifyIdent i (·.pushValue v)) := by
  refine ⟨rfl, .modify _ fun id _ => ⟨⟨rfl, rfl⟩, fun h => ⟨h, fun h => h⟩⟩, fun j => ?_⟩
  rw [Interp.modifyIdent, Table.depth_pushValue]
  simp only [hi, and_true, Nat.add_zero]

/-- Restoring a value, where one is saved. -/
theorem popArg (hd : 0 < s.table.depth i) : ∃ s', outcome (popArg i) s = (.ok ⟨⟩, s') ∧
    Shifted (fun j => if i = j then 1 else 0) (fun _ => 0) s s' := by
  obtain ⟨id, hid⟩ := Table.exists_get? (Table.lt_size_of_depth hd)
  rw [Table.depth_of_get? hid] at hd
  obtain ⟨v, rest, hs⟩ := List.exists_cons_of_length_pos hd
  let restore (id : Ident) : Ident := { id with value := v, saved := rest, body := none }
  refine ⟨s.modifyIdent i restore, ?_, rfl, .modify _ fun id _ => ⟨⟨rfl, rfl⟩, fun h => ⟨h, fun h => h⟩⟩,
    fun j => ?_⟩
  · rw [Engine.popArg, outcome_bind_ok (outcome_identAt hid), hs]
    rfl
  · rw [Interp.modifyIdent, Table.depth_modify]
    split
    next hj =>
      subst hj
      rw [Table.depth_of_get? hid, hid, Ident.depth, hs]
      rfl
    next => rfl

/-- Restoring a value of each identifier of a list. -/
theorem popArgs (l : List Nat) (hd : ∀ j, l.count j ≤ s.table.depth j) :
    ∃ s', outcome (l.forM Engine.popArg) s = (.ok ⟨⟩, s') ∧
      Shifted (fun j => l.count j) (fun _ => 0) s s' := by
  induction l generalizing s with
  | nil => exact ⟨s, rfl, .refl s⟩
  | cons i l ih =>
      have hpos : 0 < s.table.depth i := by
        have := hd i
        rw [List.count_cons_self] at this
        omega
      obtain ⟨s₁, h₁, hs₁⟩ := popArg hpos
      obtain ⟨s₂, h₂, hs₂⟩ := ih (s := s₁) fun j => by
        have := hd j
        have := hs₁.depth j
        rw [count_cons_eq] at *
        omega
      refine ⟨s₂, (outcome_bind_ok h₁ _).trans h₂, (hs₁.trans hs₂).of_eq (fun j => ?_) fun _ => rfl⟩
      rw [count_cons_eq, Nat.add_comm]

/-- Saving values of identifiers. -/
theorem pushArgs {γ : Type} (index : γ → Nat) (value : γ → Value) (l : List γ)
    (hl : ∀ a ∈ l, index a < s.table.size) :
    ∃ s', outcome (l.forM fun a => pushArg (index a) (value a)) s = (.ok ⟨⟩, s') ∧
      Shifted (fun _ => 0) (fun j => (l.map index).count j) s s' := by
  induction l generalizing s with
  | nil => exact ⟨s, rfl, .refl s⟩
  | cons a l ih =>
      have hs₁ := push (hl a List.mem_cons_self) (value a)
      obtain ⟨s₂, h₂, hs₂⟩ := ih (s := s.modifyIdent (index a) (·.pushValue (value a))) fun b hb => by
        rw [Interp.modifyIdent, Table.size_modify]
        exact hl b (List.mem_cons_of_mem a hb)
      refine ⟨s₂, ?_, (hs₁.trans hs₂).of_eq (fun _ => rfl) fun j => ?_⟩
      · exact (outcome_bind_ok (outcome_modifyIdent s _ _) _).trans h₂
      · rw [List.map_cons, count_cons_eq, Nat.add_comm]

/-- Taking the bindings of slots off. -/
theorem takeArgs (l : List Nat) (hd : ∀ j, l.count j ≤ s.table.depth j) :
    ∃ taken s', outcome (l.mapM takeArg) s = (.ok taken, s') ∧
      Shifted (fun j => l.count j) (fun _ => 0) s s' ∧ taken.map Prod.fst = l := by
  induction l generalizing s with
  | nil => exact ⟨[], s, rfl, .refl s, rfl⟩
  | cons i l ih =>
      have hpos : 0 < s.table.depth i := by
        have := hd i
        rw [List.count_cons_self] at this
        omega
      obtain ⟨id, hid⟩ := Table.exists_get? (Table.lt_size_of_depth hpos)
      obtain ⟨s₁, h₁, hs₁⟩ := popArg hpos
      have htake : outcome (takeArg i) s = (.ok (i, id.value), s₁) := by
        rw [takeArg, outcome_bind_ok (outcome_identAt hid), outcome_bind_ok h₁]
        rfl
      obtain ⟨taken, s₂, h₂, hs₂, hmap⟩ := ih (s := s₁) fun j => by
        have := hd j
        have := hs₁.depth j
        rw [count_cons_eq] at *
        omega
      refine ⟨(i, id.value) :: taken, s₂, ?_, (hs₁.trans hs₂).of_eq (fun j => ?_) fun _ => rfl, ?_⟩
      · rw [List.mapM_cons, outcome_bind_ok htake, outcome_bind_ok h₂]
        rfl
      · rw [count_cons_eq, Nat.add_comm]
      · rw [List.map_cons, hmap]

theorem contained {n : Nat → Nat} (h : Shifted off on s s') (hn : ∀ i, off i + n i = on i) :
    Contained n s s' := by
  have hd (i : Nat) : s'.table.depth i = s.table.depth i + n i := by
    have := h.depth i
    have := hn i
    omega
  exact .of_same h.scopes h.outermost h.guards (congrArg Flags.readOnly h.writeFlags)
    (fun i _ => hd i) (fun i _ => Nat.le_of_eq (hd i).symm) (.inl h.callArgs)

end Shifted

namespace Contained

variable {n m : Nat → Nat} {s s' s'' : Interp} {i : Nat}

theorem of_unmoved (ht : s'.table = s.table) (hs : s'.scopes = s.scopes)
    (ho : s'.outermost = s.outermost) (hc : s'.callArgs = s.callArgs)
    (hr : s'.writeFlags.readOnly = s.writeFlags.readOnly) : Contained (fun _ => 0) s s' :=
  .of_same hs ho (ht ▸ .refl _) hr (fun i _ => by rw [ht, Nat.add_zero])
    (fun i _ => Nat.le_of_eq (by rw [ht, Nat.add_zero])) (.inl hc)

theorem aside (h : s.Aside s') : Contained (fun _ => 0) s s' := by
  rw [h.same]
  exact .of_unmoved rfl rfl rfl rfl rfl

theorem rewrite {f : Ident → Ident} (h : ∀ id, s.table.get? i = some id → id.Rewrites (f id)) :
    Contained (fun _ => 0) s (s.modifyIdent i f) := by
  have hd (j : Nat) : (s.modifyIdent i f).table.depth j = s.table.depth j + 0 := by
    rw [Interp.modifyIdent, Table.depth_modify, Nat.add_zero]
    split
    next hj =>
      subst hj
      cases hid : s.table.get? i with
      | none => rw [Table.depth, hid]; rfl
      | some id =>
          rw [Table.depth_of_get? hid]
          exact congrArg List.length (h id hid).saved
    next => rfl
  exact .of_same rfl rfl (.modify _ fun id hid => ⟨(h id hid).like, (h id hid).readOnly⟩) rfl
    (fun j _ => hd j) (fun j _ => Nat.le_of_eq (hd j).symm) (.inl rfl)

theorem push {id : Ident} (hrole : id.role = .alias) (hsaved : id.saved = [])
    (hn : s.table.find? id.name = none) (hx : Reading.isNumeral id.name = false) :
    Contained (fun _ => 0) s { s with table := s.table.push id } :=
  .of_same rfl rfl (.push hrole hn hx) rfl (fun j _ => s.table.depth_push hsaved j)
    (fun j _ => Nat.le_of_eq (s.table.depth_push hsaved j).symm) (.inl rfl)

/-- The number of arguments is only written through a variable that shows it and can be written. -/
theorem cell {least greatest : Int32} {c : Cell} {watch : Watch} {id : Ident} (v : Int32)
    (hs : s.Guarded) (hid : s.table.get? i = some id)
    (hrole : id.role = .intVar least greatest (.shared c) watch) (hopen : s.OpenAt i) :
    Contained (fun _ => 0) s (s.setCell c v) := by
  cases c with
  | callArgs =>
      have hshows : id.role.showsCallArgs = true := by rw [hrole]; rfl
      have hr : id.flags.readOnly = false := by
        rcases hopen id hid with hr | ho
        · exact hr
        · cases hr : id.flags.readOnly with
          | false => rfl
          | true => exact absurd ((hs.locked i id hid hshows hr).symm.trans ho) (by decide)
      exact .of_same rfl rfl (.refl _) rfl (fun _ _ => rfl) (fun _ _ => Nat.le_refl _)
        (.inr ⟨i, id, hid, hshows, hr⟩)
  | traceLimit => exact .of_unmoved rfl rfl rfl rfl rfl
  | persistence => exact .of_unmoved rfl rfl rfl rfl rfl

theorem saved (hi : i < s.table.size) (v : Value) :
    Contained (fun j => if i = j then 1 else 0) s (s.modifyIdent i (·.pushValue v)) :=
  (Shifted.push hi v).contained fun _ => Nat.zero_add _

/-- A value that is to be restored is restored. -/
theorem restored (h : Contained n s s') (hi : 0 < n i) :
    ∃ s'', outcome (popArg i) s' = (.ok ⟨⟩, s'') ∧ s'.table.Guards s''.table ∧
      Contained (fun j => n j - if i = j then 1 else 0) s s'' := by
  have hpos : 0 < s'.table.depth i := by
    by_cases hslot : i < maxArgs
    · have := h.slots i hslot
      omega
    · have := h.others i (Nat.le_of_not_lt hslot)
      omega
  obtain ⟨s'', hpop, hs⟩ := Shifted.popArg hpos
  have hb := Interp.isBound_congr hs.scopes hs.outermost
  have hu := Interp.used_congr hs.scopes hs.outermost
  have hle (j : Nat) : (if i = j then 1 else 0) ≤ n j := by
    split
    next hj => exact hj ▸ hi
    next => exact Nat.zero_le _
  have hnew (j : Nat) : newly s s'' j = newly s s' j := newly_congr rfl (hb j)
  refine ⟨s'', hpop, hs.guards, h.guards.trans hs.guards, hs.writeFlags ▸ h.writes, ?_, ?_,
    fun j hj => (hb j).trans (h.keeps j hj), fun j hj => ?_, fun j hj => ?_, ?_⟩
  · rw [hs.scopes, hu, h.scopes]
  · rw [hs.outermost, hu, h.outermost]
  · have := hs.depth j
    have := h.slots j hj
    have := hle j
    have := hnew j
    omega
  · have := hs.depth j
    have := h.others j hj
    have := hle j
    have := hnew j
    omega
  · rcases h.callArgs with hc | hc
    · exact .inl (hs.callArgs.trans hc)
    · exact .inr (hc.later hs.guards)

end Contained

end ConsoleScript
