import ConsoleScript.Proofs.Engine.Containment

/-!
All code is contained. The parts of the engine that save values of identifiers for as long as something
else runs restore them from whatever a contained computation leaves, and a run ends what it shadows.
-/

namespace ConsoleScript

open Bytecode Engine

/-- However a computation ends, what it does is contained. -/
def Engine.Guarantee.contained : Guarantee where
  From := Interp.Guarded
  To := Contained fun _ => 0
  ends := False

abbrev Engine.Contains {α : Type} (m : Engine α) : Prop := Meets .contained m

instance : Guarantee.contained.Composes where
  refl := .refl
  trans h h' := (h.trans h').of_eq fun _ => rfl
  later hs h := h.guarded hs
  aside := .aside
  push _ hn hx := .push rfl rfl hn hx
  stamp _ := .of_unmoved rfl rfl rfl rfl rfl
  withoutWhile h _ := h.elim

variable {α : Type} {s s' : Interp} {i : Nat} {k : Runner} {b : Block}

theorem contains_of {m : Engine α}
    (h : ∀ s : Interp, s.Guarded → Contained (fun _ => 0) s (outcome m s).2) : Contains m :=
  fun s hs => ⟨h s hs, False.elim⟩

section Slots

/-- Binding an index that is not bound saves its value; an index without a bit is not bound by it. -/
theorem contained_bindTo (hs : s.Guarded) (hb : s.isBound i = false) (v : Value) :
    Contained (fun _ => 0) s
      ((s.modifyIdent i (·.pushValue v)).setUsed (s.used ||| SlotSet.single i)) := by
  have hhas (j : Nat) : (s.used ||| SlotSet.single i).has j =
      (s.isBound j || decide (i < 32 ∧ j = i)) := by
    rw [SlotSet.has_or, SlotSet.has_single_iff]
    rfl
  generalize hu : s.used ||| SlotSet.single i = u at hhas
  let s₁ := s.modifyIdent i (·.pushValue v)
  have hscopes : s₁.scopes = s.scopes := rfl
  have houtermost : s₁.outermost = s.outermost := rfl
  have hset := Interp.setUsed_congr hscopes houtermost u
  have hbound (j : Nat) : (s₁.setUsed u).isBound j = (s.isBound j || decide (i < 32 ∧ j = i)) := by
    rw [Interp.isBound, Interp.used_setUsed, hhas]
  have htable : (s₁.setUsed u).table = s₁.table := Interp.table_setUsed s₁ u
  have hdepth (j : Nat) : s₁.table.depth j =
      s.table.depth j + if i = j ∧ i < s.table.size then 1 else 0 := s.table.depth_pushValue i v j
  have hnew (j : Nat) : newly s (s₁.setUsed u) j = if i < 32 ∧ j = i then 1 else 0 := by
    unfold newly
    rw [hbound]
    by_cases hj : i < 32 ∧ j = i
    · obtain ⟨hi, rfl⟩ := hj
      simp [hb, hi]
    · simp [hj]
  refine ⟨?_, ?_, ?_, ?_, fun j hj => ?_, fun j hj => ?_, fun j hj => ?_, ?_⟩
  · rw [htable]
    exact .modify _ fun id _ => ⟨⟨rfl, rfl⟩, fun h => ⟨h, fun h => h⟩⟩
  · rw [Interp.setUsed_eq]
    rfl
  · rw [Interp.used_setUsed]
    exact hset.1
  · rw [Interp.used_setUsed]
    exact hset.2
  · rw [hbound, hj, Bool.true_or]
  · have hsize := hs.size
    have : maxArgs ≤ maxOperands := by decide
    rw [htable, hdepth, hnew, Nat.add_zero]
    congr 1
    by_cases hij : i = j
    · subst hij
      rw [if_pos ⟨rfl, by omega⟩, if_pos ⟨Nat.lt_trans hj (by decide), rfl⟩]
    · rw [if_neg fun h => hij h.1, if_neg fun h => hij h.2.symm]
  · have hsize := hs.size
    have : maxOperands = 32 := rfl
    rw [htable, hdepth, hnew, Nat.add_zero]
    refine Nat.add_le_add_left ?_ _
    split
    next hij => exact Nat.le_of_eq (if_pos ⟨hij.2.symm, by omega⟩).symm
    next => exact Nat.zero_le _
  · rw [Interp.setUsed_eq]
    exact .inl rfl

theorem contains_bindTo (hb : s.isBound i = false) (v : Value) :
    MeetsAt .contained (do pushArg i v; markUsed i) s :=
  fun hs => ⟨contained_bindTo hs hb v, False.elim⟩

theorem contains_setArg (i : Nat) (v : Value) : Contains (setArg i v) := by
  refine fun s => Meets.readAt ?_
  split
  · exact Meets.changeAt fun _ => .rewrite fun _ _ => ⟨⟨rfl, rfl⟩, rfl, fun h => ⟨h, fun h => h⟩⟩
  next hb => exact contains_bindTo (Bool.eq_false_iff.mpr hb) v

theorem contains_bindArg (i : Nat) : Contains (bindArg i) := by
  refine fun s => Meets.readAt ?_
  split
  · exact Meets.pure _ s
  next hb => exact contains_bindTo (Bool.eq_false_iff.mpr hb) .null

/-- Writing an alias leaves flags that make nothing read-only. -/
theorem contains_setAlias (i : Nat) (v : Value) : Contains (setAlias i v) := by
  refine fun s => Meets.readAt (Meets.bindAt (Meets.changeAt fun _ => .of_unmoved rfl rfl rfl rfl rfl)
    fun _ s' hs' => ?_)
  cases hs'
  refine Meets.changeAt fun hs => .rewrite fun id _ => ?_
  exact ⟨⟨rfl, rfl⟩, rfl, fun hr => absurd (hs.writes.symm.trans hr) (by decide)⟩

end Slots

section Brackets

private theorem snd_outcome_popArg (hd : s.table.depth i = 0) : (outcome (popArg i) s).2 = s := by
  unfold popArg
  cases hid : s.table.get? i with
  | none => rw [outcome_bind_error (outcome_identAt_none hid)]
  | some id =>
      rw [Table.depth_of_get? hid] at hd
      rw [outcome_bind_ok (outcome_identAt hid), List.eq_nil_of_length_eq_zero hd]
      rfl

variable {m : Engine α}

/-- An identifier has another value for as long as a computation runs. -/
theorem contains_covered (i : Nat) (v : Value) (hm : Contains m) :
    Contains (do pushArg i v; modifyIdent i clearUnknown; ensuring m (popArg i)) := by
  refine contains_of fun s hs => ?_
  have hclear (s : Interp) : Contained (fun _ => 0) s (s.modifyIdent i clearUnknown) :=
    .rewrite fun _ _ => ⟨⟨rfl, rfl⟩, rfl, fun h => ⟨h, fun h => h⟩⟩
  let s₁ := (s.modifyIdent i (·.pushValue v)).modifyIdent i clearUnknown
  change Contained _ s (outcome (ensuring m (popArg i)) s₁).2
  rw [snd_outcome_ensuring]
  by_cases hi : i < s.table.size
  · have h₁ : Contained (fun j => if i = j then 1 else 0) s s₁ := (Contained.saved hi v).trans (hclear _)
    have h₂ := h₁.trans (hm s₁ (h₁.guarded hs)).1
    obtain ⟨s₃, hpop, -, h₃⟩ := h₂.restored (i := i) (by simp)
    rw [hpop]
    exact h₃.of_eq fun j => by split <;> rfl
  · -- At an index that is not there nothing is saved; what is restored has been saved meanwhile.
    have hsize := hs.size
    have hroom : maxOperands = 32 := rfl
    have hslots : maxArgs < maxOperands := by decide
    have hzero : s.table.depth i = 0 := by
      rw [Table.depth, Table.get?_eq_none (Nat.le_of_not_lt hi)]
      rfl
    have hpush : Contained (fun _ => 0) s (s.modifyIdent i (·.pushValue v)) := by
      have hsame (j : Nat) : (s.modifyIdent i (·.pushValue v)).table.depth j = s.table.depth j + 0 :=
        (s.table.depth_pushValue i v j).trans (by rw [if_neg fun h => hi h.2])
      exact .of_same rfl rfl (.modify _ fun id _ => ⟨⟨rfl, rfl⟩, fun h => ⟨h, fun h => h⟩⟩) rfl
        (fun j _ => hsame j) (fun j _ => Nat.le_of_eq (hsame j).symm) (.inl rfl)
    have h₁ : Contained (fun _ => 0) s s₁ := hpush.trans (hclear _)
    have h₂ := h₁.trans (hm s₁ (h₁.guarded hs)).1
    generalize (outcome m s₁).2 = s₂ at h₂
    rcases Nat.eq_zero_or_pos (s₂.table.depth i) with hd | hd
    · rw [snd_outcome_popArg hd]
      exact h₂
    · have hsaved : Contained (fun j => if i = j then 1 else 0) s s₂ := by
        refine { h₂ with slots := fun j hj => ?_, others := fun j hj => ?_ }
        · rw [if_neg (by omega)]
          exact h₂.slots j hj
        · by_cases hij : i = j
          · subst hij
            have hnew : newly s s₂ i = 0 := by
              unfold newly Interp.isBound
              rw [SlotSet.has_of_le _ (by omega)]
              rfl
            rw [if_pos rfl, hnew]
            omega
          · rw [if_neg hij]
            exact h₂.others j hj
      obtain ⟨s₃, hpop, -, h₃⟩ := hsaved.restored (i := i) (by simp)
      rw [hpop]
      exact h₃.of_eq fun j => by split <;> rfl

/-- The interpreter inside a call is guarded. -/
theorem guarded_entered {s₁ : Interp} (hs : s.Guarded) {n : Nat}
    (h : Shifted (fun _ => 0) (fun j => if j < n then 1 else 0) s s₁) (ident : Nat)
    (callArgs : Int32) (writeFlags : Flags) (hw : writeFlags.readOnly = false) :
    Interp.Guarded { s₁ with
      scopes := ⟨ident, SlotSet.below n⟩ :: s₁.scopes
      callArgs
      writeFlags } := by
  have hmid : s₁.Guarded := Contained.guarded (n := fun j => if j < n then 1 else 0)
    (h.contained fun _ => Nat.zero_add _) hs
  refine ⟨hmid.size, fun j hj => ?_, hmid.outermost, hmid.locked, hw⟩
  have hback := hs.backed j hj
  have hd := h.depth j
  rw [← h.scopes] at hback
  change pending 0 (⟨ident, SlotSet.below n⟩ :: s₁.scopes) j ≤ s₁.table.depth j
  by_cases hmark : (SlotSet.below n).has maxArgs = true
  · rw [pending_marked (c := ⟨ident, SlotSet.below n⟩) j hmark]
    have := pending_succ_le 0 s₁.scopes j
    omega
  · rw [pending_zero (c := ⟨ident, SlotSet.below n⟩) j hmark,
      SlotSet.has_below_of_lt n (Nat.lt_trans hj (by decide))]
    simp only [decide_eq_true_eq]
    omega

/-- The end of a call restores what the call has bound, wherever the code inside ended. -/
theorem contained_leaveCall {s₁ s₂ s₃ : Interp} {n ident : Nat}
    (h₁ : Shifted (fun _ => 0) (fun j => if j < n then 1 else 0) s s₁) (htable : s₂.table = s₁.table)
    (hscopes : s₂.scopes = ⟨ident, SlotSet.below n⟩ :: s.scopes)
    (houtermost : s₂.outermost = s.outermost) (h : Contained (fun _ => 0) s₂ s₃) :
    Contained (fun _ => 0) s (outcome (leaveCall n s.callArgs s.writeFlags) s₃).2 := by
  have hbelow (j : Nat) (hj : j < maxArgs) : s₂.isBound j = decide (j < n) := by
    rw [Interp.isBound, Interp.used, hscopes]
    exact SlotSet.has_below_of_lt n (Nat.lt_trans hj (by decide))
  have hargs (j : Nat) : (List.range n).count j = if j < n then 1 else 0 := List.count_range
  have hrest (j : Nat) : (s₃.used.toList.filter (n ≤ ·)).count j =
      if j < maxArgs ∧ s₃.isBound j = true ∧ n ≤ j then 1 else 0 := by
    rw [List.Nodup.count (List.Pairwise.filter _ (SlotSet.nodup_toList s₃.used))]
    simp only [List.mem_filter, SlotSet.mem_toList, decide_eq_true_eq, and_assoc, Interp.isBound]
    congr
  have hdepth (j : Nat) : s₂.table.depth j = s.table.depth j + if j < n then 1 else 0 := by
    rw [htable]
    exact h₁.depth j
  -- Of the other slots, those are restored that were bound inside.
  have hnew (j : Nat) (hj : j < maxArgs) : newly s₂ s₃ j =
      if j < maxArgs ∧ s₃.isBound j = true ∧ n ≤ j then 1 else 0 := by
    unfold newly
    rw [hbelow j hj]
    by_cases hjn : j < n
    · simp [hjn, Nat.not_le.mpr hjn]
    · simp [hj, hjn, Nat.le_of_not_lt hjn]
  let s₄ : Interp := { s₃.restoreFlags s.writeFlags with scopes := s₃.scopes.tail }
  obtain ⟨s₅, h₅, hs₅⟩ := Shifted.popArgs (s := s₄) (List.range n) fun j => by
    rw [hargs]
    change _ ≤ s₃.table.depth j
    have := hdepth j
    by_cases hj : j < maxArgs
    · have := h.slots j hj
      omega
    · have := h.others j (Nat.le_of_not_lt hj)
      omega
  have hd₅ (j : Nat) : s₅.table.depth j + _ = s₃.table.depth j := hs₅.depth j
  obtain ⟨s₆, h₆, hs₆⟩ := Shifted.popArgs (s := s₅) (s₃.used.toList.filter (n ≤ ·)) fun j => by
    have := hdepth j
    have := hd₅ j
    rw [hargs] at this
    rw [hrest]
    by_cases hj : j < maxArgs
    · have := h.slots j hj
      rw [hnew j hj] at this
      omega
    · rw [if_neg fun h => hj h.1]
      exact Nat.zero_le _
  have hd₆ := hs₆.depth
  have hleave : outcome (leaveCall n s.callArgs s.writeFlags) s₃ =
      (.ok ⟨⟩, { s₆ with callArgs := s.callArgs }) := by
    have hbegin : outcome (leaveCall n s.callArgs s.writeFlags) s₃ =
        outcome (do (List.range n).forM popArg
                    (s₃.used.toList.filter (n ≤ ·)).forM popArg
                    modify fun s' => { s' with callArgs := s.callArgs }) s₄ := rfl
    rw [hbegin, outcome_bind_ok h₅, outcome_bind_ok h₆, outcome_modify]
  have hshift := hs₅.trans hs₆
  have hguards : s.table.Guards s₆.table :=
    (h₁.guards.trans (htable ▸ h.guards)).trans hshift.guards
  have hback (j : Nat) : s₆.table.depth j + ((if j < n then 1 else 0) +
      if j < maxArgs ∧ s₃.isBound j = true ∧ n ≤ j then 1 else 0) = s₃.table.depth j := by
    have := hd₅ j
    have := hd₆ j
    rw [hargs] at *
    rw [hrest] at *
    omega
  rw [hleave]
  refine .of_same ?_ ?_ hguards ?_ (fun j hj => ?_) (fun j hj => ?_) (.inl rfl)
  · rw [hshift.scopes]
    change s₃.scopes.tail = s.scopes
    rw [h.scopes, Interp.setUsed, hscopes]
    rfl
  · rw [hshift.outermost]
    change s₃.outermost = s.outermost
    rw [h.outermost, Interp.setUsed, hscopes]
    exact houtermost
  · rw [hshift.writeFlags]
    rfl
  · have := hback j
    have := h.slots j hj
    have := hdepth j
    have := hnew j hj
    dsimp only
    omega
  · have := hback j
    have := h.others j hj
    have := hdepth j
    have hnone : (if j < maxArgs ∧ s₃.isBound j = true ∧ n ≤ j then 1 else 0) = 0 :=
      if_neg fun h => absurd h.1 (Nat.not_lt.mpr hj)
    dsimp only
    omega

/-- Aliases are called with arguments that are bound for as long as their bodies run. -/
theorem contains_withArgs (ident : Nat) (overridden : Bool) {args : List Value}
    (hn : args.length ≤ maxOperands) (hm : Contains m) :
    Contains (withArgs ident overridden args m) := by
  refine contains_of fun s hs => ?_
  have hsize := hs.size
  obtain ⟨s₁, h₁, hs₁⟩ := Shifted.pushArgs (s := s) Prod.snd Prod.fst args.zipIdx fun p hp =>
    Nat.lt_of_lt_of_le (List.snd_lt_of_mem_zipIdx hp) (by omega)
  replace hs₁ : Shifted (fun _ => 0) (fun j => if j < args.length then 1 else 0) s s₁ :=
    hs₁.of_eq (fun _ => rfl) fun j => by
      rw [List.zipIdx_map_snd, ← List.range_eq_range', List.count_range]
  let s₂ : Interp := { s₁ with
    callArgs := Int32.ofNat args.length
    writeFlags := { s₁.writeFlags with overridden := s₁.writeFlags.overridden || overridden }
    scopes := ⟨ident, SlotSet.below args.length⟩ :: s₁.scopes }
  have henter : outcome (withArgs ident overridden args m) s =
      outcome (ensuring m (leaveCall args.length s.callArgs s.writeFlags)) s₂ := by
    rw [withArgs, outcome_bind_ok h₁, ← hs₁.callArgs, ← hs₁.writeFlags]
    rfl
  rw [henter, snd_outcome_ensuring]
  have hguarded : s₂.Guarded :=
    guarded_entered hs hs₁ ident _ _ (by rw [hs₁.writeFlags]; exact hs.writes)
  have htable : s₂.table = s₁.table := rfl
  exact contained_leaveCall hs₁ htable (congrArg _ hs₁.scopes) hs₁.outermost (hm s₂ hguarded).1

/-- Taking the arguments of a caller out of effect binds what was bound before. -/
theorem contained_leaveOuter {s₁ s₂ s₃ : Interp} {ident : Nat} {taken : List (Nat × Value)}
    {caller : SlotSet} (h₁ : Shifted (fun j => (taken.map Prod.fst).count j) (fun _ => 0) s s₁)
    (hslots : ∀ j ∈ taken.map Prod.fst, j < maxArgs) (hsize : maxOperands ≤ s₃.table.size)
    (htable : s₂.table = s₁.table)
    (hscopes : s₂.scopes = ⟨ident, SlotSet.outerMark ||| caller⟩ :: s.scopes)
    (houtermost : s₂.outermost = s.outermost) (hcall : s₂.callArgs = s.callArgs)
    (hwrites : s₂.writeFlags = s.writeFlags) (h : Contained (fun _ => 0) s₂ s₃) :
    Contained (fun _ => 0) s (outcome (leaveOuter caller taken) s₃).2 := by
  have hcount (j : Nat) : (SlotSet.toList (s₃.used &&& ~~~caller)).reverse.count j =
      if j < maxArgs ∧ s₃.isBound j = true ∧ caller.has j = false then 1 else 0 := by
    rw [List.count_reverse, List.Nodup.count (SlotSet.nodup_toList _)]
    simp only [SlotSet.mem_toList, SlotSet.has_diff, Bool.and_eq_true, Bool.not_eq_true',
      Interp.isBound]
    congr
  have hdepth (j : Nat) : s₂.table.depth j + (taken.map Prod.fst).count j = s.table.depth j := by
    rw [htable]
    exact h₁.depth j
  -- The slots bound meanwhile are those that the caller has not bound.
  have hnew (j : Nat) (hj : j < maxArgs) : newly s₂ s₃ j =
      if j < maxArgs ∧ s₃.isBound j = true ∧ caller.has j = false then 1 else 0 := by
    have hbound : s₂.isBound j = caller.has j := by
      rw [Interp.isBound, Interp.used, hscopes]
      change (SlotSet.outerMark ||| caller).has j = caller.has j
      rw [SlotSet.has_or, SlotSet.has_outerMark, decide_eq_false (Nat.ne_of_lt hj), Bool.false_or]
    unfold newly
    rw [hbound]
    simp [hj]
  let s₄ : Interp := { s₃ with scopes := s₃.scopes.tail }
  obtain ⟨s₅, h₅, hs₅⟩ := Shifted.popArgs (s := s₄)
      (SlotSet.toList (s₃.used &&& ~~~caller)).reverse fun j => by
    rw [hcount]
    change _ ≤ s₃.table.depth j
    by_cases hj : j < maxArgs
    · have := h.slots j hj
      rw [hnew j hj] at this
      omega
    · rw [if_neg fun h => hj h.1]
      exact Nat.zero_le _
  have hsize₅ : maxOperands ≤ s₅.table.size := hs₅.guards.le_size (t := s₄.table) hsize
  obtain ⟨s₆, h₆, hs₆⟩ := Shifted.pushArgs (s := s₅) Prod.fst Prod.snd taken fun p hp =>
    Nat.lt_of_lt_of_le (Nat.lt_trans (hslots _ (List.mem_map_of_mem hp)) (by decide)) hsize₅
  have hleave : outcome (leaveOuter caller taken) s₃ = (.ok ⟨⟩, s₆) := by
    have hbegin : outcome (leaveOuter caller taken) s₃ =
        outcome (do (SlotSet.toList (s₃.used &&& ~~~caller)).reverse.forM popArg
                    taken.forM fun p => pushArg p.1 p.2) s₄ := rfl
    rw [hbegin, outcome_bind_ok h₅, h₆]
  have hshift := hs₅.trans hs₆
  have hback (j : Nat) : s₆.table.depth j +
      (if j < maxArgs ∧ s₃.isBound j = true ∧ caller.has j = false then 1 else 0) =
        s₃.table.depth j + (taken.map Prod.fst).count j := by
    have := hs₆.depth j
    have hd₅ : s₅.table.depth j + _ = s₃.table.depth j + 0 := hs₅.depth j
    rw [hcount] at hd₅
    omega
  rw [hleave]
  refine .of_same ?_ ?_ ((h₁.guards.trans (htable ▸ h.guards)).trans hshift.guards) ?_
    (fun j hj => ?_) (fun j hj => ?_) ?_
  · rw [hshift.scopes]
    change s₃.scopes.tail = s.scopes
    rw [h.scopes, Interp.setUsed, hscopes]
    rfl
  · rw [hshift.outermost]
    change s₃.outermost = s.outermost
    rw [h.outermost, Interp.setUsed, hscopes]
    exact houtermost
  · rw [hshift.writeFlags]
    change s₃.writeFlags.readOnly = _
    rw [h.writes, hwrites]
  · have := hback j
    have := h.slots j hj
    have := hdepth j
    have := hnew j hj
    dsimp only
    omega
  · have := hback j
    have := h.others j hj
    have := hdepth j
    have hnone : (if j < maxArgs ∧ s₃.isBound j = true ∧ caller.has j = false then 1 else 0) = 0 :=
      if_neg fun h => absurd h.1 (Nat.not_lt.mpr hj)
    dsimp only
    omega
  · rw [hshift.callArgs]
    rcases h.callArgs with hc | hc
    · exact .inl (hc.trans hcall)
    · have hlater : s₆.Exposed := hc.later hshift.guards
      exact .inr hlater

/-- Code is run with the arguments of a caller, which come back for as long. -/
theorem contains_withOuterArgs (hm : Contains m) : Contains (withOuterArgs m) := by
  refine contains_of fun s hs => ?_
  have hcounted : Contained (fun _ => 0) s s.addOuterRun :=
    .of_unmoved rfl rfl rfl rfl rfl
  cases hc : scopeInEffect? 0 s.scopes with
  | none =>
      rw [outcome_withOuterArgs_none hc]
      exact hcounted.trans (hm _ (hcounted.guarded hs)).1
  | some found =>
      obtain ⟨c, rest⟩ := found
      have hpend := pending_of_scopeInEffect (h := hc)
      have hcount (j : Nat) : c.used.toList.count j =
          if j < maxArgs ∧ c.used.has j = true then 1 else 0 := by
        rw [List.Nodup.count (SlotSet.nodup_toList _)]
        simp only [SlotSet.mem_toList]
      obtain ⟨taken, s₁, h₁, hs₁, hmap⟩ := Shifted.takeArgs (s := s.addOuterRun) c.used.toList
        fun j => by
          rw [hcount]
          by_cases hj : j < maxArgs
          · have := hs.backed j hj
            have := (hpend j).1
            change _ ≤ s.table.depth j
            simp only [hj, true_and]
            omega
          · rw [if_neg fun h => hj h.1]
            exact Nat.zero_le _
      rw [outcome_withOuterArgs_some hc h₁, snd_outcome_ensuring]
      generalize hcaller : ({ s with scopes := rest } : Interp).used = caller
      let s₂ : Interp :=
        { s₁ with scopes := ⟨c.ident, SlotSet.outerMark ||| caller⟩ :: s₁.scopes }
      have hguarded : s₂.Guarded := by
        refine ⟨hs₁.guards.le_size hs.size, fun j hj => ?_, hs₁.outermost ▸ hs.outermost,
          fun _ _ => hs₁.guards.locked hs.locked, hs₁.writeFlags ▸ hs.writes⟩
        have hmark : (SlotSet.outerMark ||| caller).has maxArgs = true := by
          rw [SlotSet.has_or, SlotSet.has_outerMark, decide_eq_true rfl, Bool.true_or]
        have hback := hs.backed j hj
        have hd : s₁.table.depth j + _ = s.table.depth j := hs₁.depth j
        change pending 0 (⟨c.ident, SlotSet.outerMark ||| caller⟩ :: s₁.scopes) j ≤ s₁.table.depth j
        have hscopes : s₁.scopes = s.scopes := hs₁.scopes
        rw [pending_marked (c := ⟨c.ident, SlotSet.outerMark ||| caller⟩) j hmark, hscopes,
          (hpend j).2]
        rw [(hpend j).1] at hback
        rw [hcount] at hd
        simp only [hj, true_and] at hd
        omega
      have h₃ := (hm s₂ hguarded).1
      rw [← hmap] at hs₁
      have htable : s₂.table = s₁.table := rfl
      have hscopes : s₂.scopes = ⟨c.ident, SlotSet.outerMark ||| caller⟩ :: s.scopes :=
        congrArg _ hs₁.scopes
      refine hcounted.trans (contained_leaveOuter hs₁ (fun j hj => ?_)
        (h₃.guarded hguarded).size htable hscopes hs₁.outermost hs₁.callArgs hs₁.writeFlags h₃)
      rw [hmap] at hj
      exact (SlotSet.mem_toList.mp hj).1

end Brackets

section Runs

/-- Whether an index is that of an alias with a name, which shadowing is for. -/
def Table.namesAlias (t : Table) (i : Nat) : Bool := (t.get? i).any (isNamedAlias i)

theorem Table.le_of_namesAlias {t : Table} (h : t.namesAlias i = true) : maxArgs ≤ i := by
  unfold Table.namesAlias at h
  cases hid : t.get? i with
  | none =>
      rw [hid] at h
      cases h
  | some id =>
      rw [hid, Option.any_some, isNamedAlias, Bool.and_eq_true, decide_eq_true_eq] at h
      exact h.2

theorem Table.Guards.namesAlias {t t' : Table} (h : t.Guards t') (hi : i < t.size) :
    t'.namesAlias i = t.namesAlias i := by
  obtain ⟨id, hid⟩ := Table.exists_get? hi
  obtain ⟨id', hid', -, hrole⟩ := h.lasts.kept i id hid
  have halias : id'.role.isAlias = id.role.isAlias := by
    have hemptied (role : Role) : role.emptied.isAlias = role.isAlias := by
      cases role with
      | intVar least greatest store watch => cases store <;> rfl
      | _ => rfl
    rw [← hemptied, hrole, hemptied]
  rw [Table.namesAlias, Table.namesAlias, hid, hid', Option.any_some, Option.any_some, isNamedAlias,
    isNamedAlias, halias]

/-- A run with aliases that it shadows: what it did is contained, up to a value of each of them that
is to be restored. -/
structure Shadowing (locals : List Nat) (s s' : Interp) : Prop where
  known : ∀ i ∈ locals, i < s'.table.size
  contained : Contained (fun j => (locals.filter s'.table.namesAlias).count j) s s'

namespace Shadowing

variable {locals : List Nat} {s₁ s₂ : Interp}

theorem nil (h : Contained (fun _ => 0) s s₁) : Shadowing [] s s₁ := ⟨nofun, h⟩

theorem filter_congr (h : Shadowing locals s s₁) (hg : s₁.table.Guards s₂.table) :
    locals.filter s₂.table.namesAlias = locals.filter s₁.table.namesAlias :=
  List.filter_congr fun i hi => hg.namesAlias (h.known i hi)

private theorem later (h : Shadowing locals s s₁) (hk : Contained (fun _ => 0) s₁ s₂) :
    Shadowing locals s s₂ := by
  refine ⟨fun i hi => hk.guards.le_size (h.known i hi), ?_⟩
  rw [h.filter_congr hk.guards]
  exact h.contained.trans hk

theorem owed_cons (t : Table) (i : Nat) (locals : List Nat) (j : Nat) :
    ((i :: locals).filter t.namesAlias).count j =
      (locals.filter t.namesAlias).count j + if i = j ∧ t.namesAlias i = true then 1 else 0 := by
  cases h : t.namesAlias i with
  | true => rw [List.filter_cons_of_pos h, count_cons_eq]; simp
  | false => rw [List.filter_cons_of_neg (by simp [h])]; simp

/-- What is saved of aliases need not be restored. -/
theorem forget (more : List Nat) (h : Shadowing (more ++ locals) s s₁) :
    Shadowing locals s s₁ := by
  induction more with
  | nil => exact h
  | cons i more ih =>
      refine ih ⟨fun j hj => h.known j (List.mem_cons_of_mem i hj), ?_⟩
      have hcount := owed_cons s₁.table i (more ++ locals)
      refine h.contained.weaken (fun j hj => ?_) fun j => ?_
      · rw [List.cons_append, hcount, if_neg, Nat.add_zero]
        rintro ⟨rfl, hnames⟩
        exact absurd hj (Nat.not_lt.mpr (Table.le_of_namesAlias hnames))
      · rw [List.cons_append, hcount]
        exact Nat.le_add_right _ _

private theorem pushAlias (h : Shadowing locals s s₁) (i : Nat) :
    (∃ s₂, outcome (pushAlias i) s₁ = (.ok ⟨⟩, s₂) ∧ Shadowing (i :: locals) s s₂) ∨
      ∃ e, outcome (pushAlias i) s₁ = (.error e, s₁) := by
  unfold Engine.pushAlias
  cases hid : s₁.table.get? i with
  | none => exact .inr ⟨_, outcome_bind_error (outcome_identAt_none hid) _⟩
  | some id =>
      refine .inl ?_
      have hi := Table.lt_size_of_get? hid
      rw [outcome_bind_ok (outcome_identAt hid)]
      have hnames : s₁.table.namesAlias i = isNamedAlias i id := by
        rw [Table.namesAlias, hid, Option.any_some]
      by_cases hn : isNamedAlias i id = true
      · rw [if_pos hn]
        refine ⟨_, rfl, ?_⟩
        have hpush := (Contained.saved hi .null).trans (Contained.rewrite (i := i) (f := clearUnknown)
          (s := s₁.modifyIdent i (·.pushValue .null)) fun _ _ =>
            ⟨⟨rfl, rfl⟩, rfl, fun h => ⟨h, fun h => h⟩⟩)
        refine ⟨fun j hj => hpush.guards.le_size ?_, ?_⟩
        · rcases List.mem_cons.mp hj with rfl | hj
          · exact hi
          · exact h.known j hj
        · refine (h.contained.trans hpush).of_eq fun j => ?_
          have hsame := hpush.guards.namesAlias hi
          rw [owed_cons, h.filter_congr hpush.guards, hsame, hnames, hn]
          simp
      · rw [if_neg hn]
        refine ⟨s₁, rfl, fun j hj => ?_, h.contained.of_eq fun j => ?_⟩
        · rcases List.mem_cons.mp hj with rfl | hj
          · exact hi
          · exact h.known j hj
        · rw [owed_cons, hnames, if_neg fun h => hn h.2, Nat.add_zero]

private theorem pushAliases (h : Shadowing locals s s₁) (ids : List Nat) :
    (∃ s₂, outcome (ids.forM Engine.pushAlias) s₁ = (.ok ⟨⟩, s₂) ∧
      Shadowing (ids.reverse ++ locals) s s₂) ∨
    ∃ e s₂, outcome (ids.forM Engine.pushAlias) s₁ = (.error e, s₂) ∧ Shadowing locals s s₂ := by
  induction ids generalizing locals s₁ with
  | nil => exact .inl ⟨s₁, rfl, h⟩
  | cons i ids ih =>
      rcases h.pushAlias i with ⟨s₂, h₂, hs₂⟩ | ⟨e, he⟩
      · rcases ih hs₂ with ⟨s₃, h₃, hs₃⟩ | ⟨e, s₃, h₃, hs₃⟩
        · refine .inl ⟨s₃, (outcome_bind_ok h₂ _).trans h₃, ?_⟩
          rw [List.reverse_cons, List.append_assoc]
          exact hs₃
        · exact .inr ⟨e, s₃, (outcome_bind_ok h₂ _).trans h₃, hs₃.forget [i]⟩
      · exact .inr ⟨e, s₁, outcome_bind_error he _, h⟩

/-- At its end a run restores what it shadows. -/
theorem endLocals (h : Shadowing locals s s₁) :
    ∃ s₂, outcome (endLocals locals) s₁ = (.ok ⟨⟩, s₂) ∧ Contained (fun _ => 0) s s₂ := by
  induction locals generalizing s₁ with
  | nil => exact ⟨s₁, rfl, h.contained⟩
  | cons i locals ih =>
      have hi := h.known i List.mem_cons_self
      obtain ⟨id, hid⟩ := Table.exists_get? hi
      have hnames : s₁.table.namesAlias i = isNamedAlias i id := by
        rw [Table.namesAlias, hid, Option.any_some]
      have hrest (s₂ : Interp) (hpop : outcome (popAlias i) s₁ = (.ok ⟨⟩, s₂))
          (hs₂ : Shadowing locals s s₂) : ∃ s₃, outcome (Engine.endLocals (i :: locals)) s₁ =
            (.ok ⟨⟩, s₃) ∧ Contained (fun _ => 0) s s₃ := by
        obtain ⟨s₃, h₃, hs₃⟩ := ih hs₂
        exact ⟨s₃, (outcome_bind_ok hpop _).trans h₃, hs₃⟩
      by_cases hn : isNamedAlias i id = true
      · obtain ⟨s₂, hpop, hg, hs₂⟩ := h.contained.restored (i := i) (by
          rw [owed_cons, if_pos ⟨rfl, hnames.trans hn⟩]
          exact Nat.succ_pos _)
        refine hrest s₂ ?_ ⟨fun j hj => hg.le_size (h.known j (List.mem_cons_of_mem i hj)), ?_⟩
        · rw [popAlias, outcome_bind_ok (outcome_identAt hid), if_pos hn]
          exact hpop
        · refine hs₂.of_eq fun j => ?_
          have htail : Shadowing locals s s₁ := h.forget [i]
          rw [htail.filter_congr hg, owed_cons, hnames, hn]
          simp
      · refine hrest s₁ ?_ (h.forget [i])
        rw [popAlias, outcome_bind_ok (outcome_identAt hid), if_neg hn]
        rfl

/-- Where a step leads: to a state of the run with the aliases that are shadowed then, or to the end of
the run. -/
def Leaves (locals : List Nat) (s : Interp) (o : Except Stop Next × Interp) : Prop :=
  match o.1 with
  | .ok (.go a) => Shadowing a.locals s o.2
  | _ => Shadowing locals s o.2

/-- A step of a run, if all instructions but the one that shadows aliases are contained. -/
theorem step {a : Activation} (hs : s.Guarded)
    (hp : ∀ op w a, op ≠ .local → a.stack.length ≤ maxOperands → Contains (perform k b op w a))
    (h : Shadowing a.locals s s₁) (ha : a.stack.length ≤ maxOperands) :
    Leaves a.locals s (outcome (step k b a) s₁) := by
  cases hw : b.words[a.pc]? with
  | none =>
      simp only [Engine.step, hw]
      exact h
  | some w =>
      cases hop : Word.op? w with
      | none =>
          simp only [Engine.step, hw, hop]
          exact h
      | some op =>
          by_cases hx : op = .exit
          · subst hx
            rw [World.step_exit hw hop]
            exact h
          rw [World.step_perform hw hop hx]
          by_cases hlocal : op = .local
          · subst hlocal
            have hshadow : perform k b .local w { a with pc := a.pc + 1 } =
                shadow (Word.arg w).toNat { a with pc := a.pc + 1 } := rfl
            rw [hshadow]
            by_cases hn : (Word.arg w).toNat ≤ a.stack.length
            · rw [World.shadow_enough (a := { a with pc := a.pc + 1 }) hn, bind_assoc]
              rcases h.pushAliases (World.shadowedBy (Word.arg w).toNat { a with pc := a.pc + 1 })
                with ⟨s₂, h₂, hs₂⟩ | ⟨e, s₂, h₂, hs₂⟩
              · rw [outcome_bind_ok h₂]
                exact hs₂
              · rw [outcome_bind_error h₂]
                exact hs₂
            · rw [World.shadow_short (a := { a with pc := a.pc + 1 }) (Nat.lt_of_not_le hn)]
              exact h
          · have hc := (hp op w { a with pc := a.pc + 1 } hlocal ha s₁ (h.contained.guarded hs)).1
            have hf := follows_perform (k := k) (b := b) hlocal w { a with pc := a.pc + 1 } s₁
            rw [outcome_bind]
            generalize outcome (perform k b op w { a with pc := a.pc + 1 }) s₁ = o at hc hf
            obtain ⟨e | a', s₂⟩ := o
            · exact h.later hc
            · have hlocals : a'.locals = a.locals := (hf a' s₂ rfl).locals
              change Shadowing a'.locals s s₂
              rw [hlocals]
              exact h.later hc

/-- A run is contained, whatever it shadows. -/
theorem runFrom (hs : s.Guarded)
    (hp : ∀ op w a, op ≠ .local → a.stack.length ≤ maxOperands → Contains (perform k b op w a))
    (left : Nat) {a : Activation} (h : Shadowing a.locals s s₁)
    (ha : a.stack.length ≤ maxOperands) :
    Contained (fun _ => 0) s (outcome (runFrom k b left a) s₁).2 := by
  have hend {locals : List Nat} {s₂ : Interp} (h : Shadowing locals s s₂) {β : Type}
      (f : Unit → Engine β) (hf : ∀ s₃, (outcome (f ⟨⟩) s₃).2 = s₃) :
      Contained (fun _ => 0) s (outcome (Engine.endLocals locals >>= f) s₂).2 := by
    obtain ⟨s₃, h₃, hs₃⟩ := h.endLocals
    rw [outcome_bind_ok h₃, hf]
    exact hs₃
  induction left generalizing a s₁ with
  | zero => exact hend h _ fun _ => rfl
  | succ left ih =>
      have hstep := h.step hs hp ha
      have hroom := yields_step_room (k := k) (b := b) ha s₁
      rw [Engine.runFrom, outcome_bind_ok (outcome_attempt _ _)]
      generalize outcome (Engine.step k b a) s₁ = o at hstep hroom
      obtain ⟨e | next, s₂⟩ := o
      · exact hend hstep _ fun _ => rfl
      · cases next with
        | go a' => exact ih hstep (hroom _ _ rfl a' rfl)
        | done v pc => exact hend hstep _ fun _ => rfl

end Shadowing

end Runs

instance : Guarantee.contained.Binds where
  setArg := contains_setArg
  bindArg := contains_bindArg
  covered := contains_covered
  withOuterArgs := contains_withOuterArgs
  withArgs ident overridden _ hn hm := contains_withArgs ident overridden hn hm
  runFrom hp left _ hlocals ha := contains_of fun s hs =>
    Shadowing.runFrom hs hp left (hlocals ▸ .nil (.refl s)) ha

/-- All parts of the engine are contained. -/
instance : Guarantee.contained.Lawful where
  rewrite h := .rewrite fun id hid => (h id hid).toRewrites
  bodyOf _ := meets_bodyOf_of fun _ _ => Meets.changeAt fun _ =>
    .rewrite fun _ _ => ⟨⟨rfl, rfl⟩, rfl, fun h => ⟨h, id⟩⟩
  cell {_} hk {_ i _ _ _ _ _} v hid hrole hopen :=
    Meets.bindAt (Meets.changeAt fun hs => .cell v hs hid hrole hopen) fun _ s' _ =>
      meets_notify hk i s'
  mode _ _ := .of_unmoved rfl rfl rfl rfl rfl
  setAlias := contains_setAlias

end ConsoleScript
