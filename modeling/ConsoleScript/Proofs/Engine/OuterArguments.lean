import ConsoleScript.Proofs.Engine.Environments
import ConsoleScript.Proofs.Engine.Sessions

/-!
The interpreter agrees with environments. The loops of the scripts here count their rounds.
-/

namespace ConsoleScript

open Bytecode (RetTag)
open Engine

/-- What the interpreter does for a script. -/
def Script.perform : Script → Engine Value
  | .done v => return v
  | .read i ret asView next => do
      let bound := (← get).isBound i
      let v ← argValue i (← identAt i) ret asView
      emit (.called [] [.ofBool bound, v])
      (next bound v).perform
  | .write i v next => do
      setArg i v
      next.perform
  | .loop i n value body next => do
      bindArg i
      let ended ← Library.iterate i n value fun r => return (← (body r).perform).toBool
      (next ended).perform
  | .call ident overridden args _ body next => do
      let v ← withArgs ident overridden args body.perform
      (next v).perform
  | .runOuter body next => do
      let v ← withOuterArgs body.perform
      (next v).perform

section Tables

variable {α β : Type} {m : Engine α} {s : Interp} {a : α} {b : Nat → List Value} {i : Nat}

/-- A computation that changes nothing but values of identifiers, which are then as given. -/
def Rebinding (m : Engine α) (s : Interp) (a : α) (b : Nat → List Value) : Prop :=
  ∃ t : Table, outcome m s = (.ok a, { s with table := t }) ∧ ∀ j, t.bindings j = b j

theorem Rebinding.congr (h : Rebinding m s a b) {l : Nat → List Value} (hl : ∀ j, b j = l j) :
    Rebinding m s a l := by
  rwa [← funext hl]

theorem Rebinding.bind (h : Rebinding m s a b) {f : α → Engine β} {a' : β} {b' : Nat → List Value}
    (hf : ∀ t : Table, (∀ j, t.bindings j = b j) → Rebinding (f a) { s with table := t } a' b') :
    Rebinding (m >>= f) s a' b' := by
  obtain ⟨t, ht, hb⟩ := h
  obtain ⟨t', ht', hb'⟩ := hf t hb
  exact ⟨t', (outcome_bind_ok ht f).trans ht', hb'⟩

theorem Table.exists_of_bindings {t : Table} {v : Value} {l : List Value}
    (h : t.bindings i = v :: l) : ∃ id, t.get? i = some id ∧ id.value = v ∧ id.saved = l := by
  cases hid : t.get? i with
  | none => simp [bindings, hid] at h
  | some id =>
      rw [bindings_of_get? hid, List.cons.injEq] at h
      exact ⟨id, rfl, h⟩

theorem Table.bindings_modify_apply {t : Table} {g : Ident → Ident} {id : Ident}
    (hid : t.get? i = some id) {vs : List Value} (hvs : (g id).value :: (g id).saved = vs) (j : Nat) :
    (t.modify i g).bindings j = if j = i then vs else t.bindings j := by
  by_cases hj : j = i
  · rw [hj, bindings_modify_self hid, hvs, if_pos rfl]
  · rw [bindings_modify_ne (Ne.symm hj), if_neg hj]

theorem rebinding_pushArg (h : s.table.bindings i ≠ []) (v : Value) :
    Rebinding (pushArg i v) s ⟨⟩ fun j =>
      if j = i then v :: s.table.bindings i else s.table.bindings j := by
  obtain ⟨u, l, hl⟩ := List.exists_cons_of_ne_nil h
  obtain ⟨id, hid, -, -⟩ := Table.exists_of_bindings hl
  refine ⟨_, rfl, Table.bindings_modify_apply hid ?_⟩
  rw [Table.bindings_of_get? hid]
  rfl

private theorem rebinding_setValue (h : s.table.bindings i ≠ []) (v : Value) :
    Rebinding (modifyIdent i (·.setValue v)) s ⟨⟩ fun j =>
      if j = i then v :: (s.table.bindings i).tail else s.table.bindings j := by
  obtain ⟨u, l, hl⟩ := List.exists_cons_of_ne_nil h
  obtain ⟨id, hid, -, -⟩ := Table.exists_of_bindings hl
  refine ⟨_, rfl, Table.bindings_modify_apply hid ?_⟩
  rw [Table.bindings_of_get? hid]
  rfl

theorem rebinding_popArg (h : 1 < (s.table.bindings i).length) :
    Rebinding (popArg i) s ⟨⟩ fun j =>
      if j = i then (s.table.bindings i).tail else s.table.bindings j := by
  obtain ⟨u, l, hl⟩ := List.exists_cons_of_length_pos (Nat.lt_of_succ_lt h)
  obtain ⟨id, hid, -, hsaved⟩ := Table.exists_of_bindings hl
  rw [hl, List.length_cons, Nat.succ_lt_succ_iff] at h
  obtain ⟨v, rest, rfl⟩ := List.exists_cons_of_length_pos h
  refine ⟨s.table.modify i fun id => { id with value := v, saved := rest, body := none }, ?_,
    Table.bindings_modify_apply hid ?_⟩
  · rw [popArg, outcome_bind_ok (outcome_identAt hid), hsaved]
    rfl
  · rw [hl]
    rfl

private theorem rebinding_takeArg (h : 1 < (s.table.bindings i).length) :
    Rebinding (takeArg i) s (i, (s.table.bindings i).headD .null) fun j =>
      if j = i then (s.table.bindings i).tail else s.table.bindings j := by
  obtain ⟨u, l, hl⟩ := List.exists_cons_of_length_pos (Nat.lt_of_succ_lt h)
  obtain ⟨id, hid, hu, -⟩ := Table.exists_of_bindings hl
  obtain ⟨t, hpop, ht⟩ := rebinding_popArg h
  refine ⟨t, ?_, ht⟩
  rw [takeArg, outcome_bind_ok (outcome_identAt hid), outcome_bind_ok hpop, hl, hu]
  rfl

/-- The bindings without the values of some identifiers. -/
def without (l : List Nat) (b : Nat → List Value) (j : Nat) : List Value :=
  if j ∈ l then (b j).tail else b j

theorem without_cons {i : Nat} {l : List Nat} (hi : i ∉ l) (b : Nat → List Value) (j : Nat) :
    without l (fun j => if j = i then (b i).tail else b j) j = without (i :: l) b j := by
  unfold without
  by_cases hj : j = i
  · subst hj
    simp [hi]
  · simp [hj]

theorem rebinding_popArgs {l : List Nat} (hl : l.Nodup)
    (h : ∀ j ∈ l, 1 < (s.table.bindings j).length) :
    Rebinding (l.forM popArg) s ⟨⟩ (without l s.table.bindings) := by
  induction l generalizing s with
  | nil => exact ⟨s.table, rfl, fun _ => rfl⟩
  | cons i l ih =>
      obtain ⟨hi, hl⟩ := List.nodup_cons.mp hl
      refine (rebinding_popArg (h i List.mem_cons_self)).bind fun t ht => ?_
      refine (ih (s := { s with table := t }) hl fun j hj => ?_).congr fun j => ?_
      · have hne : j ≠ i := fun h => hi (h ▸ hj)
        rw [ht, if_neg hne]
        exact h j (List.mem_cons_of_mem i hj)
      · rw [← without_cons hi, ← funext ht]

private theorem rebinding_takeArgs {l : List Nat} (hl : l.Nodup)
    (h : ∀ j ∈ l, 1 < (s.table.bindings j).length) :
    Rebinding (l.mapM takeArg) s (l.map fun j => (j, (s.table.bindings j).headD .null))
      (without l s.table.bindings) := by
  induction l generalizing s with
  | nil => exact ⟨s.table, rfl, fun _ => rfl⟩
  | cons i l ih =>
      obtain ⟨hi, hl⟩ := List.nodup_cons.mp hl
      have hne (j : Nat) (hj : j ∈ l) : j ≠ i := fun h => hi (h ▸ hj)
      rw [List.mapM_cons]
      refine (rebinding_takeArg (h i List.mem_cons_self)).bind fun t ht => ?_
      have hrest := ih (s := { s with table := t }) hl fun j hj => by
        rw [ht, if_neg (hne j hj)]
        exact h j (List.mem_cons_of_mem i hj)
      refine hrest.bind fun t' ht' => ⟨t', ?_, fun j => ?_⟩
      · rw [outcome_pure, List.map_cons]
        congr 3
        refine List.map_congr_left fun j hj => ?_
        rw [ht, if_neg (hne j hj)]
      · rw [ht', ← without_cons hi, ← funext ht]

theorem rebinding_pushArgs {γ : Type} (index : γ → Nat) (value : γ → Value) (l : List γ)
    (h : ∀ a ∈ l, s.table.bindings (index a) ≠ []) :
    Rebinding (l.forM fun a => pushArg (index a) (value a)) s ⟨⟩ fun j =>
      ((l.filter (index · == j)).map value).reverse ++ s.table.bindings j := by
  induction l generalizing s with
  | nil => exact ⟨s.table, rfl, fun _ => rfl⟩
  | cons a l ih =>
      refine (rebinding_pushArg (h a List.mem_cons_self) (value a)).bind fun t ht => ?_
      refine (ih (s := { s with table := t }) fun b hb => ?_).congr fun j => ?_
      · rw [ht]
        split
        · exact List.cons_ne_nil _ _
        · exact h b (List.mem_cons_of_mem a hb)
      · rw [ht, List.filter_cons]
        by_cases hj : j = index a
        · simp [hj]
        · simp [hj, Ne.symm hj]

end Tables

section Scopes

variable {o : SlotSet} {scopes rest : List Scope} {k : Scope} {e e' : Environment}
  {callers : List Environment} {i : Nat}

/-- The slots that the innermost of some scopes has bound. -/
def usedIn (outermost : SlotSet) (scopes : List Scope) : SlotSet :=
  ({ outermost, scopes } : Interp).used

theorem scopeInEffect?_marked (h : k.used.has maxArgs = true) (n : Nat) :
    scopeInEffect? n (k :: rest) = scopeInEffect? (n + 1) rest := by
  cases n <;> rw [scopeInEffect?, if_pos h]

theorem scopeInEffect?_unmarked (h : ¬k.used.has maxArgs = true) :
    scopeInEffect? 0 (k :: rest) = some (k, rest) := by
  rw [scopeInEffect?, if_neg h]

private theorem scopeInEffect?_passed (h : ¬k.used.has maxArgs = true) (n : Nat) :
    scopeInEffect? (n + 1) (k :: rest) = scopeInEffect? n rest := by
  rw [scopeInEffect?, if_neg h]

/-- With one more marked scope, the next scope is in effect. -/
theorem scopeInEffect?_succ {n : Nat} (h : scopeInEffect? n scopes = some (k, rest)) :
    scopeInEffect? (n + 1) scopes = scopeInEffect? 0 rest := by
  induction scopes generalizing n with
  | nil => cases h
  | cons c scopes ih =>
      by_cases hmark : c.used.has maxArgs = true
      · rw [scopeInEffect?_marked hmark] at h ⊢
        exact ih h
      · rw [scopeInEffect?_passed hmark]
        cases n with
        | zero =>
            rw [scopeInEffect?_unmarked hmark] at h
            cases h
            rfl
        | succ n =>
            rw [scopeInEffect?_passed hmark] at h
            exact ih h

/-- The scopes of the interpreter belong to a chain of environments: for each of them there is one
that says which slots are bound, and the one of its call, which says which of them are its own. -/
inductive Scoped (o : SlotSet) : List Scope → Environment → List Environment → Prop
  | outside {scopes : List Scope} {e : Environment} (hnone : scopeInEffect? 0 scopes = none)
      (hused : ∀ i < maxArgs, (usedIn o scopes).has i = e.isBound i)
      (hbound : ∀ i < maxArgs, e.isBound i = true) : Scoped o scopes e []
  | call {scopes rest : List Scope} {k : Scope} {e e' : Environment} {callers : List Environment}
      (hsome : scopeInEffect? 0 scopes = some (k, rest))
      (hused : ∀ i < maxArgs, (usedIn o scopes).has i = e.isBound i)
      (hown : ∀ i < maxArgs, k.used.has i = e.own i) (hrest : Scoped o rest e' callers) :
      Scoped o scopes e (e' :: callers)

namespace Scoped

theorem used (h : Scoped o scopes e callers) (hi : i < maxArgs) :
    (usedIn o scopes).has i = e.isBound i := by
  cases h with
  | outside hnone hused hbound => exact hused i hi
  | call hsome hused hown hrest => exact hused i hi

/-- Outside all calls every slot is bound, so that a slot always has a value. -/
theorem ne_nil (h : Scoped o scopes e callers) (hi : i < maxArgs) :
    e.slots i ++ callers.flatMap (·.slots i) ≠ [] := by
  induction h with
  | outside hnone hused hbound => simpa [Environment.isBound] using hbound i hi
  | call hsome hused hown hrest ih => simp [ih]

theorem congr (h : Scoped o scopes e callers) (hb : ∀ i, e'.isBound i = e.isBound i)
    (ho : ∀ i, e'.own i = e.own i) : Scoped o scopes e' callers := by
  cases h with
  | outside hnone hused hbound =>
      exact .outside hnone (fun i hi => by rw [hb, hused i hi]) fun i hi => by rw [hb, hbound i hi]
  | call hsome hused hown hrest =>
      exact .call hsome (fun i hi => by rw [hb, hused i hi]) (fun i hi => by rw [ho, hown i hi]) hrest

/-- Binding a slot in the innermost scope, which is lent if it is marked. -/
theorem add (h : Scoped o scopes e callers) (hi : i < maxArgs) (hb : e.isBound i = false)
    (v : Value) : ∃ k rest, scopes = k :: rest ∧
      Scoped o ({ k with used := k.used ||| SlotSet.single i } :: rest)
        (e.add (k.used.has maxArgs) i v) callers := by
  cases h with
  | outside hnone hused hbound => exact absurd ((hbound i hi).symm.trans hb) (by decide)
  | call hsome hused hown hrest =>
      cases scopes with
      | nil => cases hsome
      | cons k rest =>
          have hhas (j : Nat) : (k.used ||| SlotSet.single i).has j =
              (k.used.has j || decide (j = i)) := by
            rw [SlotSet.has_or, SlotSet.has_single (Nat.lt_trans hi (by decide))]
          have hmark : (k.used ||| SlotSet.single i).has maxArgs = k.used.has maxArgs := by
            simp [hhas, Nat.ne_of_gt hi]
          have hused' (j : Nat) (hj : j < maxArgs) : (k.used ||| SlotSet.single i).has j =
              (e.add (k.used.has maxArgs) i v).isBound j := by
            have hold : k.used.has j = e.isBound j := hused j hj
            rw [hhas, hold, Environment.isBound, Environment.isBound, Environment.slots_add]
            by_cases hji : j = i <;> simp [hji]
          let grown : Scope := { k with used := k.used ||| SlotSet.single i }
          refine ⟨k, rest, rfl, ?_⟩
          by_cases hm : k.used.has maxArgs = true
          · rw [scopeInEffect?_marked hm] at hsome
            have hgrown : scopeInEffect? 0 (grown :: rest) = scopeInEffect? 1 rest :=
              scopeInEffect?_marked (k := grown) (hmark.trans hm) 0
            refine .call (hgrown.trans hsome) hused'
              (fun j hj => ?_) hrest
            rw [hown j hj]
            simp [Environment.add, hm]
          · rw [scopeInEffect?_unmarked hm] at hsome
            cases hsome
            refine .call (scopeInEffect?_unmarked fun h => hm (hmark.symm.trans h)) hused'
              (fun j hj => ?_) hrest
            rw [hhas, hown j hj]
            by_cases hji : j = i <;> simp [Environment.add, hm, hji]

private theorem has_outerMark_or (u : SlotSet) (hi : i < maxArgs) :
    (SlotSet.outerMark ||| u).has i = u.has i := by
  rw [SlotSet.has_or, SlotSet.has_outerMark, decide_eq_false (Nat.ne_of_lt hi), Bool.false_or]

/-- The environment of the caller, while it is lent: the marked scope on top stands for the caller's. -/
theorem lend {ident : Nat} (hsome : scopeInEffect? 0 scopes = some (k, rest))
    (hrest : Scoped o rest e callers) :
    Scoped o (⟨ident, SlotSet.outerMark ||| usedIn o rest⟩ :: scopes) e callers := by
  have hmark : (SlotSet.outerMark ||| usedIn o rest).has maxArgs = true := by
    rw [SlotSet.has_or, SlotSet.has_outerMark, decide_eq_true rfl, Bool.true_or]
  have heffect : scopeInEffect? 0 (⟨ident, SlotSet.outerMark ||| usedIn o rest⟩ :: scopes) =
      scopeInEffect? 0 rest := by
    rw [scopeInEffect?_marked (k := ⟨ident, SlotSet.outerMark ||| usedIn o rest⟩) hmark,
      scopeInEffect?_succ hsome]
  have hused' (j : Nat) (hj : j < maxArgs) :
      (usedIn o (⟨ident, SlotSet.outerMark ||| usedIn o rest⟩ :: scopes)).has j = e.isBound j :=
    (has_outerMark_or _ hj).trans (hrest.used hj)
  cases hrest with
  | outside hnone hused hbound => exact .outside (heffect.trans hnone) hused' hbound
  | call hsome' hused hown hrest => exact .call (heffect.trans hsome') hused' hown hrest

/-- The environment of the caller after it was lent. -/
theorem restrict {k' : Scope} (hsome : scopeInEffect? 0 scopes = some (k, rest))
    (hrest : Scoped o rest e callers) (hmark : k'.used.has maxArgs = true)
    {callers' : List Environment} (h : Scoped o (k' :: scopes) e' callers')
    (hg : e.Grown true e') : Scoped o rest (e'.restrict e) callers' := by
  have heffect : scopeInEffect? 0 (k' :: scopes) = scopeInEffect? 0 rest := by
    rw [scopeInEffect?_marked hmark, scopeInEffect?_succ hsome]
  have hb := Environment.isBound_of_shape hg.shape_restrict
  have hused' (j : Nat) (hj : j < maxArgs) : (usedIn o rest).has j = (e'.restrict e).isBound j := by
    rw [hb, hrest.used hj]
  cases h with
  | outside hnone hused hbound =>
      refine .outside (heffect.symm.trans hnone) hused' fun j hj => ?_
      rw [hb]
      cases hrest with
      | outside hnone' hused' hbound' => exact hbound' j hj
      | call hsome' hused' hown hrest => cases (hnone.symm.trans heffect).trans hsome'
  | call hsome' hused hown hrest => exact .call (heffect.symm.trans hsome') hused' hown hrest

end Scoped

end Scopes

/-- The bindings that the slots of an interpreter should have. -/
def Environments.bindings (c : Environments) (i : Nat) : List Value :=
  c.current.slots i ++ c.callers.flatMap (·.slots i)

/-- An interpreter that is inside the calls of a chain of environments. -/
structure Shows (lent : Bool) (s : Interp) (c : Environments) : Prop where
  events : s.events = c.reads
  bindings : ∀ i < maxArgs, s.table.bindings i = c.bindings i
  chain : Scoped s.outermost s.scopes c.current c.callers
  lent : s.isBound maxArgs = lent

/-- The calls around the innermost scope are the same. -/
structure SameCallers (s s' : Interp) : Prop where
  tail : s'.scopes.tail = s.scopes.tail
  inside : s.scopes ≠ [] → s'.scopes ≠ []
  outermost : s'.outermost = s.outermost

/-- A computation that ends well, in an interpreter that is inside the same calls. -/
def Follows {α : Type} (lent : Bool) (m : Engine α) (s : Interp) (a : α) (c : Environments) : Prop :=
  ∃ s', outcome m s = (.ok a, s') ∧ Shows lent s' c ∧ SameCallers s s'

theorem SameCallers.refl (s : Interp) : SameCallers s s := ⟨rfl, id, rfl⟩

theorem SameCallers.trans {s s' s'' : Interp} (h : SameCallers s s') (h' : SameCallers s' s'') :
    SameCallers s s'' :=
  ⟨h'.tail.trans h.tail, fun hs => h'.inside (h.inside hs), h'.outermost.trans h.outermost⟩

section Steps

variable {α β : Type} {lent : Bool} {m : Engine α} {s s' : Interp} {a : α} {c c' : Environments}
  {i : Nat} {v : Value}

theorem Follows.bind (h : Follows lent m s a c) {f : α → Engine β} {b : β}
    (hf : ∀ s', Shows lent s' c → Follows lent (f a) s' b c') : Follows lent (m >>= f) s b c' := by
  obtain ⟨s₁, h₁, hs₁, hc₁⟩ := h
  obtain ⟨s₂, h₂, hs₂, hc₂⟩ := hf s₁ hs₁
  exact ⟨s₂, (outcome_bind_ok h₁ f).trans h₂, hs₂, hc₁.trans hc₂⟩

namespace Shows

theorem isBound_eq (h : Shows lent s c) (hi : i < maxArgs) : s.isBound i = c.current.isBound i :=
  h.chain.used hi

theorem ne_nil (h : Shows lent s c) (hi : i < maxArgs) : s.table.bindings i ≠ [] := by
  rw [h.bindings i hi]
  exact h.chain.ne_nil hi

theorem follows_pure (h : Shows lent s c) (a : α) : Follows lent (pure a) s a c :=
  ⟨s, rfl, h, .refl s⟩

/-- A slot that is bound gets other values. -/
theorem setSlot (h : Shows lent s c) (hb : c.current.isBound i = true)
    {vs : List Value} (hvs : vs ≠ []) {t : Table} (ht : ∀ j, t.bindings j =
      if j = i then vs ++ c.callers.flatMap (·.slots i) else s.table.bindings j) :
    Shows lent { s with table := t } (c.update (·.setSlot i vs)) := by
  refine ⟨h.events, fun j hj => ?_, h.chain.congr (fun j => ?_) fun _ => rfl, h.lent⟩
  · rw [Environments.bindings, Environments.update, Environment.slots_setSlot]
    refine (ht j).trans ?_
    split
    next hji => rw [hji]
    next => exact h.bindings j hj
  · change (c.current.setSlot i vs).isBound j = _
    rw [Environment.isBound_setSlot]
    split
    next hji =>
      rw [hji, hb]
      simp [hvs]
    next => rfl

theorem follows_replace (h : Shows lent s c) (hi : i < maxArgs) (hb : c.current.isBound i = true)
    (v : Value) :
    Follows lent (modifyIdent i (·.setValue v)) s ⟨⟩ (c.update (·.replace i v)) := by
  obtain ⟨t, hset, ht⟩ := rebinding_setValue (h.ne_nil hi) v
  have hne : c.current.slots i ≠ [] := by simpa [Environment.isBound] using hb
  refine ⟨_, hset, h.setSlot hb (List.cons_ne_nil _ _) fun j => ?_, ⟨rfl, id, rfl⟩⟩
  rw [ht, h.bindings i hi, Environments.bindings, List.tail_append_of_ne_nil hne, List.cons_append]

private theorem follows_push (h : Shows lent s c) (hi : i < maxArgs)
    (hb : c.current.isBound i = true)
    (v : Value) :
    Follows lent (do pushArg i v; modifyIdent i clearUnknown) s ⟨⟩ (c.update (·.push i v)) := by
  obtain ⟨t, hpush, ht⟩ := rebinding_pushArg (h.ne_nil hi) v
  refine ⟨_, outcome_bind_ok hpush _, h.setSlot (t := t.modify i clearUnknown) hb
    (List.cons_ne_nil _ _) fun j => ?_, ⟨rfl, id, rfl⟩⟩
  rw [Table.bindings_modify (g := clearUnknown) fun _ _ _ => ⟨rfl, rfl⟩, ht, h.bindings i hi,
    Environments.bindings, List.cons_append]

/-- The end of a loop, which has put a value aside. -/
theorem follows_pop (h : Shows lent s c) (hi : i < maxArgs) (hd : 1 < c.current.depth i) :
    Follows lent (popArg i) s ⟨⟩ (c.update (·.pop i)) := by
  have hlength : 1 < (s.table.bindings i).length := by
    rw [h.bindings i hi, Environments.bindings, List.length_append]
    exact Nat.lt_add_right _ hd
  obtain ⟨t, hpop, ht⟩ := rebinding_popArg hlength
  have hb : c.current.isBound i = true := Environment.isBound_iff.mpr (Nat.lt_of_succ_lt hd)
  have hne : c.current.slots i ≠ [] := by simpa [Environment.isBound] using hb
  refine ⟨_, hpop, h.setSlot hb (fun hnil => ?_) fun j => ?_, ⟨rfl, id, rfl⟩⟩
  · have := congrArg List.length hnil
    rw [List.length_tail, List.length_nil, ← Environment.depth] at this
    omega
  · rw [ht, h.bindings i hi, Environments.bindings, List.tail_append_of_ne_nil hne]

theorem follows_add (h : Shows lent s c) (hi : i < maxArgs) (hb : c.current.isBound i = false)
    (v : Value) :
    Follows lent (do pushArg i v; markUsed i) s ⟨⟩ (c.update (·.add lent i v)) := by
  obtain ⟨t, hpush, ht⟩ := rebinding_pushArg (h.ne_nil hi) v
  obtain ⟨k, rest, hk, hscoped⟩ := h.chain.add hi hb v
  have hused : s.used = k.used := by rw [Interp.used, hk]
  have hlent : k.used.has maxArgs = lent := by rw [← h.lent, Interp.isBound, hused]
  refine ⟨{ s with table := t, scopes := { k with used := k.used ||| SlotSet.single i } :: rest },
    ?_, ⟨h.events, fun j hj => ?_, ?_, ?_⟩, ⟨?_, fun _ => List.cons_ne_nil _ _, rfl⟩⟩
  · rw [outcome_bind_ok hpush, markUsed, outcome_modify]
    simp only [Interp.setUsed, Interp.used, hk]
  · rw [Environments.bindings, Environments.update, Environment.slots_add]
    refine (ht j).trans ?_
    dsimp only
    split
    next hj =>
      subst hj
      have hnil : c.current.slots j = [] := by simpa [Environment.isBound] using hb
      rw [h.bindings j hi, Environments.bindings, hnil]
      rfl
    next => exact h.bindings j hj
  · rw [hlent] at hscoped
    exact hscoped
  · change (k.used ||| SlotSet.single i).has maxArgs = lent
    rw [SlotSet.has_or, SlotSet.has_single (Nat.lt_trans hi (by decide)), hlent]
    simp [Nat.ne_of_gt hi]
  · rw [hk]
    rfl

private theorem follows_setArg (h : Shows lent s c) (hi : i < maxArgs) (v : Value) :
    Follows lent (setArg i v) s ⟨⟩ (c.update (·.write lent i v)) := by
  have hset : outcome (setArg i v) s = outcome (if s.isBound i then modifyIdent i (·.setValue v)
      else do pushArg i v; markUsed i) s := rfl
  rw [Follows, hset, h.isBound_eq hi]
  cases hb : c.current.isBound i with
  | true =>
      have hw : c.update (·.write lent i v) = c.update (·.replace i v) := by
        simp [Environments.update, Environment.write, hb]
      rw [hw]
      exact h.follows_replace hi hb v
  | false =>
      have hw : c.update (·.write lent i v) = c.update (·.add lent i v) := by
        simp [Environments.update, Environment.write, hb]
      rw [hw]
      exact h.follows_add hi hb v

private theorem follows_bindArg (h : Shows lent s c) (hi : i < maxArgs) :
    Follows lent (bindArg i) s ⟨⟩ (c.update (·.bind lent i)) := by
  have hbind : outcome (bindArg i) s = outcome (if s.isBound i then pure ⟨⟩
      else do pushArg i .null; markUsed i) s := rfl
  rw [Follows, hbind, h.isBound_eq hi]
  cases hb : c.current.isBound i with
  | true =>
      have hw : c.update (·.bind lent i) = c := by
        simp [Environments.update, Environment.bind, hb]
      rw [hw]
      exact h.follows_pure PUnit.unit
  | false =>
      have hw : c.update (·.bind lent i) = c.update (·.add lent i .null) := by
        simp [Environments.update, Environment.bind, hb]
      rw [hw]
      exact h.follows_add hi hb .null

/-- A look-up of a slot sees its value in the current environment. -/
theorem outcome_argValue (h : Shows lent s c) (hi : i < maxArgs) (ret : RetTag) (asView : Bool) :
    outcome (do argValue i (← identAt i) ret asView) s = (.ok (c.look i ret asView), s) := by
  obtain ⟨u, l, hl⟩ := List.exists_cons_of_ne_nil (h.ne_nil hi)
  obtain ⟨id, hid, hu, -⟩ := Table.exists_of_bindings hl
  rw [outcome_bind_ok (outcome_identAt hid), argValue, outcome_bind_ok (outcome_get s),
    h.isBound_eq hi]
  cases hslot : c.current.slots i with
  | nil =>
      simp [Environment.isBound, hslot, Environments.look, Environment.value?]
  | cons w rest =>
      have hvalue : u = w := by
        rw [h.bindings i hi, Environments.bindings, hslot, List.cons_append] at hl
        exact (List.cons.inj hl).1.symm
      simp [Environment.isBound, hslot, Environments.look, Environment.value?, hu, hvalue]

private theorem follows_emit (h : Shows lent s c) (bound : Bool) (v : Value) :
    Follows lent (emit (.called [] [.ofBool bound, v])) s ⟨⟩ (c.report bound v) :=
  ⟨_, rfl, ⟨congrArg (_ :: ·) h.events, h.bindings, h.chain, h.lent⟩, ⟨rfl, id, rfl⟩⟩

end Shows

theorem Environments.Kept.clash_eq_false {c c' : Environments} (h : c.Kept lent c')
    (hc : c'.clash = false) : c.clash = false :=
  Bool.eq_false_iff.mpr fun ht => Bool.eq_false_iff.mp hc (h.clash ht)

/-- A computation does to the slots what a function does to environments, unless that clashes. -/
structure Simulates (lent : Bool) (m : Engine α) (f : Environments → α × Environments) : Prop where
  kept : ∀ c, Environments.Kept lent c (f c).2
  follows : ∀ s c, Shows lent s c → (f c).2.clash = false → Follows lent m s (f c).1 (f c).2

section Loops

variable {body : Nat → Engine Bool} {body' : Nat → Environments → Bool × Environments}
  {value : Nat → Value}

/-- A round whose value is in the slot, and the rounds behind it. -/
theorem follows_round (hbody : ∀ r, Simulates lent (body r) (body' r)) (left round : Nat)
    (hrest : ∀ s c, Shows lent s c → c.current.isBound i = true →
      (Environments.rounds i value body' left (round + 1) c).2.clash = false →
      Follows lent (Library.rounds i value body left (round + 1)) s
        (Environments.rounds i value body' left (round + 1) c).1
        (Environments.rounds i value body' left (round + 1) c).2)
    (hb : c.current.isBound i = true) (h : Shows lent s (c.update (·.replace i (value round))))
    (hclash : (Environments.rounds i value body' (left + 1) round c).2.clash = false) :
    Follows lent (do
        if ← body round then return some round
        Library.rounds i value body left (round + 1)) s
      (Environments.rounds i value body' (left + 1) round c).1
      (Environments.rounds i value body' (left + 1) round c).2 := by
  have hset : c.Kept lent (c.update (·.replace i (value round))) :=
    Environments.kept_update (.of_shape (Environment.shape_replace hb _))
  have hkept := (hbody round).kept (c.update (·.replace i (value round)))
  have hfollows := (hbody round).follows s _ h
  unfold Environments.rounds at hclash ⊢
  dsimp only at hclash ⊢
  generalize body' round (c.update (·.replace i (value round))) = p at *
  obtain ⟨stop, c₁⟩ := p
  have hb₁ : c₁.current.isBound i = true := by
    rw [Environment.isBound_iff] at hb ⊢
    rwa [(hset.trans hkept).current.bound i hb]
  cases stop with
  | true => exact (hfollows hclash).bind fun s₁ h₁ => h₁.follows_pure _
  | false =>
      have hkept' := Environments.kept_rounds (fun r => (hbody r).kept) hb₁ value left (round + 1)
      exact (hfollows (hkept'.clash_eq_false hclash)).bind fun s₁ h₁ => hrest s₁ c₁ h₁ hb₁ hclash

/-- Rounds behind the first one begin with a write to the slot. -/
theorem follows_rounds (hbody : ∀ r, Simulates lent (body r) (body' r)) (hi : i < maxArgs)
    (left round : Nat) (h : Shows lent s c) (hb : c.current.isBound i = true)
    (hclash : (Environments.rounds i value body' left (round + 1) c).2.clash = false) :
    Follows lent (Library.rounds i value body left (round + 1)) s
      (Environments.rounds i value body' left (round + 1) c).1
      (Environments.rounds i value body' left (round + 1) c).2 := by
  induction left generalizing round s c with
  | zero => exact h.follows_pure none
  | succ left ih =>
      unfold Library.rounds
      rw [if_pos (Nat.succ_pos round)]
      exact (h.follows_replace hi hb (value (round + 1))).bind fun s₁ h₁ =>
        follows_round hbody left (round + 1) (fun s c h hb => ih (round + 1) h hb) hb h₁ hclash

/-- A loop whose slot is bound. -/
theorem follows_iterate (hbody : ∀ r, Simulates lent (body r) (body' r)) (hi : i < maxArgs) (n : Nat)
    (h : Shows lent s c) (hb : c.current.isBound i = true)
    (hclash : (Environments.iterate i n value body' c).2.clash = false) :
    Follows lent (Library.iterate i n value body) s (Environments.iterate i n value body' c).1
      (Environments.iterate i n value body' c).2 := by
  unfold Library.iterate
  cases n with
  | zero =>
      have hc : (Environments.iterate i 0 value body' c).2 = c :=
        congrArg (fun e => { c with current := e }) (Environment.pop_push c.current i .null)
      rw [hc]
      exact h.follows_pure none
  | succ n =>
      have hpush : (c.current.push i .null).isBound i = true := by
        simp [Environment.push, Environment.isBound_setSlot]
      have hreplace : (c.update (·.push i .null)).update (·.replace i (value 0)) =
          c.update (·.push i (value 0)) :=
        congrArg (fun e => { c with current := e }) (Environment.replace_push ..)
      obtain ⟨s₁, h₁, hs₁, hsame₁⟩ := h.follows_push hi hb (value 0)
      obtain ⟨s₂, h₂, hs₂, hsame₂⟩ := follows_round hbody n 0
        (fun s c h hb => follows_rounds hbody hi n 0 h hb) hpush (hreplace ▸ hs₁) hclash
      -- What was put aside is still below the value of the last round.
      have hkept := Environments.kept_rounds (c := c.update (·.push i .null))
        (fun r => (hbody r).kept) hpush value (n + 1) 0
      have hdepth : 1 < (Environments.rounds i value body' (n + 1) 0
          (c.update (·.push i .null))).2.current.depth i := by
        have hpushed : (c.current.push i .null).depth i = c.current.depth i + 1 := by
          rw [Environment.push, Environment.depth_setSlot, if_pos rfl]
          rfl
        have hlate := hkept.current.bound i (Environment.isBound_iff.mp hpush)
        rw [show (c.update (·.push i .null)).current.depth i = _ from hpushed] at hlate
        rw [hlate]
        exact Nat.lt_add_of_pos_left (Environment.isBound_iff.mp hb)
      obtain ⟨s₃, h₃, hs₃, hsame₃⟩ := hs₂.follows_pop hi hdepth
      refine ⟨s₃, ?_, hs₃, (hsame₁.trans hsame₂).trans hsame₃⟩
      have hiterate : outcome (Library.iterate i (n + 1) value body) s =
          outcome (ensuring (Library.rounds i value body (n + 1) 0) (popArg i)) s₁ := by
        cases h₁
        rfl
      have hrounds : outcome (Library.rounds i value body (n + 1) 0) s₁ = (.ok _, s₂) := h₂
      rw [Library.iterate] at hiterate
      rw [hiterate, outcome_ensuring, hrounds, h₃]
      rfl

end Loops

section Calls

variable {e : Environment} {rest : List Environment} {k : Scope} {scopes : List Scope}

private theorem filter_zipIdx (args : List Value) (n j : Nat) :
    ((args.zipIdx n).filter (·.2 == j)).map Prod.fst =
      if n ≤ j then args[j - n]?.toList else [] := by
  induction args generalizing n with
  | nil => simp
  | cons v args ih =>
      rw [List.zipIdx_cons, List.filter_cons]
      rcases Nat.lt_trichotomy n j with hj | rfl | hj
      · have hsub : j - n = j - (n + 1) + 1 := by omega
        simp [Nat.ne_of_lt hj, ih, Nat.le_of_lt hj, Nat.succ_le_of_lt hj, hsub]
      · rw [if_pos (beq_self_eq_true n), List.map_cons, ih, if_neg (Nat.not_succ_le_self n),
          if_pos (Nat.le_refl n), Nat.sub_self]
        rfl
      · simp [Nat.ne_of_gt hj, ih, Nat.not_le_of_lt hj, Nat.not_le_of_lt (Nat.lt_succ_of_lt hj)]

theorem Shows.enter (h : Shows lent s c) {args : List Value} (fits : args.length ≤ maxArgs)
    {t : Table} (ht : ∀ j, t.bindings j = args[j]?.toList ++ s.table.bindings j) (ident : Nat)
    (callArgs : Int32) (writeFlags : Flags) :
    Shows false { s with
      table := t, callArgs, writeFlags
      scopes := ⟨ident, SlotSet.below args.length⟩ :: s.scopes } (c.enter args) := by
  have hbelow (j : Nat) : (SlotSet.below args.length).has j = decide (j < args.length) :=
    SlotSet.has_below (Nat.lt_of_le_of_lt fits (by decide)) j
  have hunmarked : (SlotSet.below args.length).has maxArgs = false := by
    rw [hbelow]
    exact decide_eq_false (Nat.not_lt_of_le fits)
  refine ⟨h.events, fun j hj => ?_, .call (scopeInEffect?_unmarked ?_) (fun j _ => ?_)
    (fun j _ => hbelow j) h.chain, hunmarked⟩
  · refine (ht j).trans ?_
    rw [h.bindings j hj]
    rfl
  · exact Bool.eq_false_iff.mp hunmarked
  · refine (hbelow j).trans ?_
    by_cases hj : j < args.length <;> simp [Environment.isBound, Environments.enter,
      Environment.ofArgs, hj]

private theorem outcome_leaveCall_eq (s : Interp) (argc : Nat) (callArgs : Int32)
    (writeFlags : Flags) :
    outcome (leaveCall argc callArgs writeFlags) s =
      outcome (do (List.range argc ++ s.used.toList.filter (argc ≤ ·)).forM popArg
                  modify fun s => { s with callArgs })
        { s.restoreFlags writeFlags with scopes := s.scopes.tail } := by
  have happend : (List.range argc ++ s.used.toList.filter (argc ≤ ·)).forM popArg = (do
      (List.range argc).forM popArg
      (s.used.toList.filter (argc ≤ ·)).forM popArg) := List.forM_append
  rw [happend, bind_assoc]
  rfl

/-- The end of a call takes off what the call has bound. -/
theorem Shows.leave (h : Shows false s c) (hplain : c.current.IsPlain)
    (hcallers : c.callers = e :: rest) (hscopes : s.scopes = k :: scopes) {argc : Nat}
    (hargc : argc ≤ maxArgs) (hargs : ∀ j < argc, c.current.isBound j = true) (callArgs : Int32)
    (writeFlags : Flags) : ∃ s', outcome (leaveCall argc callArgs writeFlags) s = (.ok ⟨⟩, s') ∧
      s'.scopes = scopes ∧ s'.outermost = s.outermost ∧
      Shows ((usedIn s.outermost scopes).has maxArgs) s' c.leave := by
  have hunmarked : ¬k.used.has maxArgs = true := by
    have := h.lent
    rw [Interp.isBound, Interp.used, hscopes] at this
    exact Bool.eq_false_iff.mp this
  have hchain := h.chain
  rw [hcallers, hscopes] at hchain
  cases hchain with
  | call hsome hused hown hrest =>
    rw [scopeInEffect?_unmarked hunmarked] at hsome
    cases hsome
    let taken := List.range argc ++ s.used.toList.filter (argc ≤ ·)
    have hmem (j : Nat) (hj : j < maxArgs) : j ∈ taken ↔ c.current.isBound j = true := by
      have hb : s.used.has j = c.current.isBound j := h.isBound_eq hj
      simp only [taken, List.mem_append, List.mem_range, List.mem_filter, SlotSet.mem_toList, hb,
        decide_eq_true_eq]
      have := hargs j
      grind
    have hlt (j : Nat) (hj : j ∈ taken) : j < maxArgs := by
      simp only [taken, List.mem_append, List.mem_range, List.mem_filter, SlotSet.mem_toList] at hj
      omega
    have hnodup : taken.Nodup := by
      refine List.nodup_append.mpr ⟨List.nodup_range, .filter _ (SlotSet.nodup_toList _), ?_⟩
      intro j hj j' hj'
      simp only [List.mem_range, List.mem_filter, decide_eq_true_eq] at hj hj'
      omega
    have hone (j : Nat) (hj : j ∈ taken) : ∃ v, c.current.slots j = [v] :=
      hplain.exists_slots_eq (hlt j hj) ((hplain.own_eq (hlt j hj)).trans ((hmem j (hlt j hj)).mp hj))
    have hpops : Rebinding (taken.forM popArg)
        { s.restoreFlags writeFlags with scopes := s.scopes.tail } ⟨⟩ (without taken s.table.bindings) := by
      refine rebinding_popArgs hnodup fun j hj => ?_
      obtain ⟨v, hv⟩ := hone j hj
      have hne := List.length_pos_iff.mpr (hrest.ne_nil (hlt j hj))
      change 1 < (s.table.bindings j).length
      rw [h.bindings j (hlt j hj), Environments.bindings, hv, hcallers, List.flatMap_cons,
        List.length_append, List.length_singleton]
      omega
    obtain ⟨t, hpop, ht⟩ := hpops
    have hleave := outcome_leaveCall_eq s argc callArgs writeFlags
    refine ⟨_, hleave.trans (outcome_bind_ok hpop _), ?_, rfl, ?_⟩
    · rw [hscopes]
      rfl
    · rw [Environments.leave, hcallers]
      refine ⟨h.events, fun j hj => ?_, ?_, ?_⟩
      · refine (ht j).trans ?_
        rw [without, h.bindings j hj, Environments.bindings, hcallers, List.flatMap_cons]
        split
        next hj' =>
          obtain ⟨v, hv⟩ := hone j hj'
          rw [hv]
          rfl
        next hj' =>
          have hnil : c.current.slots j = [] := by
            simpa [Environment.isBound] using mt (hmem j hj).mpr hj'
          rw [hnil]
          rfl
      · change Scoped s.outermost s.scopes.tail e rest
        rw [hscopes]
        exact hrest
      · change (usedIn s.outermost s.scopes.tail).has maxArgs = _
        rw [hscopes]
        rfl

theorem SameCallers.exists_scopes {s s' : Interp} (h : SameCallers s s')
    (hs : s.scopes = k :: scopes) : ∃ k', s'.scopes = k' :: scopes := by
  obtain ⟨k', scopes', hk'⟩ := List.exists_cons_of_ne_nil (h.inside (by rw [hs]; exact List.cons_ne_nil _ _))
  have htail := h.tail
  rw [hs, hk', List.tail_cons, List.tail_cons] at htail
  exact ⟨k', htail ▸ hk'⟩

/-- A call is run in an environment of its own. -/
theorem simulates_withArgs {m : Engine Value} {f : Environments → Value × Environments}
    (hm : Simulates false m f) (ident : Nat) (overridden : Bool) {args : List Value}
    (fits : args.length ≤ maxArgs) :
    Simulates lent (withArgs ident overridden args m) (Environments.inCall args f) := by
  refine ⟨Environments.kept_inCall hm.kept args, fun s c h hclash => ?_⟩
  have hpush := rebinding_pushArgs (s := s) Prod.snd Prod.fst args.zipIdx fun p hp =>
    h.ne_nil (Nat.lt_of_lt_of_le (List.snd_lt_of_mem_zipIdx hp) (by omega))
  obtain ⟨t, hpush, ht⟩ := hpush.congr (l := fun j => args[j]?.toList ++ s.table.bindings j)
    fun j => by
      rw [filter_zipIdx, if_pos (Nat.zero_le j), Nat.sub_zero]
      cases args[j]? <;> rfl
  have henter := h.enter fits ht ident (Int32.ofNat args.length)
    { s.writeFlags with overridden := s.writeFlags.overridden || overridden }
  have hclash' : (f (c.enter args)).2.clash = false := by
    refine Eq.trans ?_ hclash
    change _ = (f (c.enter args)).2.leave.clash
    unfold Environments.leave
    split <;> rfl
  obtain ⟨s₂, h₂, hs₂, hsame₂⟩ := hm.follows _ _ henter hclash'
  obtain ⟨k, hscopes⟩ := hsame₂.exists_scopes rfl
  have hkept := hm.kept (c.enter args)
  obtain ⟨e, rest, hcallers, -, -⟩ := List.map_eq_cons_iff.mp hkept.callers
  have hplain := hkept.current.isPlain (Environment.isPlain_ofArgs args)
  have hargs (j : Nat) (hj : j < args.length) :
      (f (c.enter args)).2.current.isBound j = true := by
    have hone : (c.enter args).current.depth j = 1 := by
      simp [Environments.enter, Environment.ofArgs, Environment.depth, hj]
    rw [Environment.isBound_iff, hkept.current.bound j (by omega), hone]
    exact Nat.one_pos
  obtain ⟨s₃, hleave, hscopes₃, houtermost, hs₃⟩ :=
    hs₂.leave hplain hcallers hscopes fits hargs s.callArgs s.writeFlags
  have ho : s₂.outermost = s.outermost := hsame₂.outermost
  have hlent : (usedIn s₂.outermost s.scopes).has maxArgs = lent := by
    rw [ho]
    exact h.lent
  refine ⟨s₃, ?_, hlent ▸ hs₃, ⟨?_, ?_, houtermost.trans ho⟩⟩
  · have hcall : outcome (withArgs ident overridden args m) s =
        outcome (ensuring m (leaveCall args.length s.callArgs s.writeFlags)) { s with
          table := t
          callArgs := Int32.ofNat args.length
          writeFlags := { s.writeFlags with overridden := s.writeFlags.overridden || overridden }
          scopes := ⟨ident, SlotSet.below args.length⟩ :: s.scopes } := by
      rw [withArgs, outcome_bind_ok hpush]
      rfl
    rw [hcall, outcome_ensuring, h₂, hleave]
    rfl
  · rw [hscopes₃]
  · rw [hscopes₃]
    exact id

private theorem filter_map_pair {l : List Nat} (hl : l.Nodup) (g : Nat → Value) (j : Nat) :
    ((l.map fun i => (i, g i)).filter (·.1 == j)).map Prod.snd = if j ∈ l then [g j] else [] := by
  induction l with
  | nil => rfl
  | cons i l ih =>
      obtain ⟨hi, hl⟩ := List.nodup_cons.mp hl
      rw [List.map_cons, List.filter_cons]
      by_cases hj : i = j
      · subst hj
        simp [ih hl, hi]
      · simp [ih hl, hj, Ne.symm hj]

/-- The slots of a call are taken off, so that those of its caller are in effect. -/
theorem Shows.lend (h : Shows lent s c) (hplain : c.current.IsPlain)
    (hcallers : c.callers = e :: rest) (hsome : scopeInEffect? 0 s.scopes = some (k, scopes))
    (hown : ∀ i < maxArgs, k.used.has i = c.current.own i)
    (hrest : Scoped s.outermost scopes e rest) :
    ∃ t, outcome (k.used.toList.mapM takeArg) s.addOuterRun =
        (.ok (k.used.toList.map fun j => (j, (c.current.slots j).headD .null)),
          { s.addOuterRun with table := t }) ∧
      Shows true { s.addOuterRun with
        table := t
        scopes := ⟨k.ident, SlotSet.outerMark ||| usedIn s.outermost scopes⟩ :: s.scopes }
        (c.lend e rest) := by
  have hone (j : Nat) (hj : j ∈ k.used.toList) : j < maxArgs ∧ ∃ v, c.current.slots j = [v] := by
    obtain ⟨hlt, hj⟩ := SlotSet.mem_toList.mp hj
    exact ⟨hlt, hplain.exists_slots_eq hlt ((hown j hlt).symm.trans hj)⟩
  have hbindings (j : Nat) (hj : j < maxArgs) : s.table.bindings j =
      c.current.slots j ++ (e.slots j ++ rest.flatMap (·.slots j)) := by
    rw [h.bindings j hj, Environments.bindings, hcallers, List.flatMap_cons]
  have htakes := rebinding_takeArgs (s := s.addOuterRun) (SlotSet.nodup_toList k.used) fun j hj => by
    obtain ⟨hlt, v, hv⟩ := hone j hj
    have hne := List.length_pos_iff.mpr (hrest.ne_nil hlt)
    change 1 < (s.table.bindings j).length
    rw [hbindings j hlt, hv, List.length_append, List.length_singleton]
    omega
  obtain ⟨t, htake, ht⟩ := htakes
  refine ⟨t, htake.trans ?_, ⟨h.events, fun j hj => ?_, hrest.lend hsome, ?_⟩⟩
  · congr 2
    refine List.map_congr_left fun j hj => ?_
    obtain ⟨hlt, v, hv⟩ := hone j hj
    change (j, (s.table.bindings j).headD .null) = _
    rw [hbindings j hlt, hv]
    rfl
  · refine (ht j).trans ?_
    change without _ s.table.bindings j = e.slots j ++ rest.flatMap (·.slots j)
    rw [without, hbindings j hj]
    split
    next hj' =>
      obtain ⟨-, v, hv⟩ := hone j hj'
      rw [hv]
      rfl
    next hj' =>
      have hown' : c.current.own j = false := by
        rw [← hown j hj]
        exact Bool.eq_false_iff.mpr fun hk => hj' (SlotSet.mem_toList.mpr ⟨hj, hk⟩)
      rw [hplain.slots_eq hj hown']
      rfl
  · change (SlotSet.outerMark ||| usedIn s.outermost scopes).has maxArgs = true
    rw [SlotSet.has_or, SlotSet.has_outerMark, decide_eq_true rfl, Bool.true_or]

/-- The slots of a call are put back on top of those of its caller, less what was bound there. -/
theorem Shows.unlend {c₀ : Environments} {k' : Scope} {outer : List Scope} (h : Shows true s c)
    (hplain : c₀.current.IsPlain) (hgrown : e.Grown true c.current) (hs : s.scopes = k' :: scopes)
    (hsome : scopeInEffect? 0 scopes = some (k, outer))
    (hused : ∀ i < maxArgs, (usedIn s.outermost scopes).has i = c₀.current.isBound i)
    (hown : ∀ i < maxArgs, k.used.has i = c₀.current.own i)
    (hrest : Scoped s.outermost outer e rest) :
    ∃ s', outcome (leaveOuter (usedIn s.outermost outer)
        (k.used.toList.map fun j => (j, (c₀.current.slots j).headD .null))) s = (.ok ⟨⟩, s') ∧
      s'.scopes = scopes ∧ s'.outermost = s.outermost ∧
      Shows ((usedIn s.outermost scopes).has maxArgs) s' { c with
        current := c₀.current
        callers := c.current.restrict e :: c.callers } := by
  have hmark : k'.used.has maxArgs = true := by
    have := h.lent
    rwa [Interp.isBound, Interp.used, hs] at this
  have hchain := h.chain
  rw [hs] at hchain
  have hrestrict := hrest.restrict hsome hmark hchain hgrown
  let fresh := SlotSet.toList (s.used &&& ~~~usedIn s.outermost outer)
  have hmem (j : Nat) : j ∈ fresh.reverse ↔
      j < maxArgs ∧ c.current.isBound j = true ∧ e.isBound j = false := by
    rw [List.mem_reverse, SlotSet.mem_toList, SlotSet.has_diff]
    refine and_congr_right fun hj => ?_
    have hb : s.used.has j = c.current.isBound j := h.isBound_eq hj
    rw [hb, hrest.used hj]
    simp
  have hone (j : Nat) (hj : j ∈ fresh.reverse) :
      (∃ v, c.current.slots j = [v]) ∧ (c.current.restrict e).slots j = [] := by
    obtain ⟨-, hbound, hfree⟩ := (hmem j).mp hj
    have hle := hgrown.fresh j (Environment.isBound_eq_false.mp hfree)
    have hpos := Environment.isBound_iff.mp hbound
    exact ⟨List.length_eq_one_iff.mp (Nat.le_antisymm hle hpos),
      by simp [Environment.restrict, hfree]⟩
  have hnodup : fresh.reverse.Nodup := (List.reverse_perm _).nodup_iff.mpr (SlotSet.nodup_toList _)
  have hpops : Rebinding (fresh.reverse.forM popArg) { s with scopes := s.scopes.tail } ⟨⟩
      (without fresh.reverse s.table.bindings) := by
    refine rebinding_popArgs hnodup fun j hj => ?_
    obtain ⟨⟨v, hv⟩, hnil⟩ := hone j hj
    have hlt := ((hmem j).mp hj).1
    have hne := List.length_pos_iff.mpr (hrestrict.ne_nil hlt)
    rw [hnil, List.nil_append] at hne
    rw [h.bindings j hlt, Environments.bindings, hv, List.length_append, List.length_singleton]
    omega
  obtain ⟨t, hpop, ht⟩ := hpops
  have ht' (j : Nat) (hj : j < maxArgs) : t.bindings j =
      (c.current.restrict e).slots j ++ c.callers.flatMap (·.slots j) := by
    rw [ht, without, h.bindings j hj, Environments.bindings]
    split
    next hj' =>
      obtain ⟨⟨v, hv⟩, hnil⟩ := hone j hj'
      rw [hv, hnil]
      rfl
    next hj' =>
      rw [hmem] at hj'
      congr 1
      cases hfree : e.isBound j with
      | true => simp [Environment.restrict, hfree]
      | false =>
          have hb : c.current.isBound j = false :=
            Bool.eq_false_iff.mpr fun hb => hj' ⟨hj, hb, hfree⟩
          have hnil : c.current.slots j = [] := by simpa [Environment.isBound] using hb
          simp [Environment.restrict, hfree, hnil]
  have hpush := rebinding_pushArgs (s := { s with scopes := s.scopes.tail, table := t }) Prod.fst
    Prod.snd (k.used.toList.map fun j => (j, (c₀.current.slots j).headD .null)) fun p hp => by
      obtain ⟨j, hj, rfl⟩ := List.mem_map.mp hp
      have hlt := (SlotSet.mem_toList.mp hj).1
      change t.bindings j ≠ []
      rw [ht' j hlt]
      exact hrestrict.ne_nil hlt
  obtain ⟨t', hpush, ht''⟩ := hpush
  have hleave : outcome (leaveOuter (usedIn s.outermost outer)
      (k.used.toList.map fun j => (j, (c₀.current.slots j).headD .null))) s =
      outcome (do fresh.reverse.forM popArg
                  (k.used.toList.map fun j => (j, (c₀.current.slots j).headD .null)).forM
                    fun p => pushArg p.1 p.2) { s with scopes := s.scopes.tail } := rfl
  refine ⟨_, hleave.trans ((outcome_bind_ok hpop _).trans hpush), ?_, rfl,
    ⟨h.events, fun j hj => ?_, ?_, ?_⟩⟩
  · rw [hs]
    rfl
  · refine (ht'' j).trans ?_
    change _ ++ t.bindings j = c₀.current.slots j ++ (_ :: c.callers).flatMap _
    rw [filter_map_pair (SlotSet.nodup_toList _), ht' j hj, List.flatMap_cons]
    congr 1
    split
    next hj' =>
      have hown' := (hown j hj).symm.trans (SlotSet.mem_toList.mp hj').2
      obtain ⟨v, hv⟩ := hplain.exists_slots_eq hj hown'
      rw [hv]
      rfl
    next hj' =>
      have hown' : c₀.current.own j = false := by
        rw [← hown j hj]
        exact Bool.eq_false_iff.mpr fun hk => hj' (SlotSet.mem_toList.mpr ⟨hj, hk⟩)
      rw [hplain.slots_eq hj hown']
      rfl
  · change Scoped s.outermost s.scopes.tail _ _
    rw [hs]
    exact .call hsome hused hown hrestrict
  · change (usedIn s.outermost s.scopes.tail).has maxArgs = _
    rw [hs]
    rfl

/-- Code that is run with the arguments of the caller is run in the caller's environment. -/
theorem simulates_withOuterArgs {m : Engine Value} {f g : Environments → Value × Environments}
    (hf : Simulates true m f) (hg : Simulates lent m g) :
    Simulates lent (withOuterArgs m) (Environments.inCaller f g) := by
  refine ⟨Environments.kept_inCaller hf.kept hg.kept, fun s c h hclash => ?_⟩
  unfold Environments.inCaller at hclash ⊢
  cases hcallers : c.callers with
  | nil =>
      rw [hcallers] at hclash
      have hchain := h.chain
      rw [hcallers] at hchain
      cases hchain with
      | outside hnone hused hbound =>
        obtain ⟨s', h', hs', hsame⟩ := hg.follows s.addOuterRun c
          ⟨h.events, h.bindings, h.chain, h.lent⟩ hclash
        exact ⟨s', (outcome_withOuterArgs_none hnone).trans h', hs', hsame.1, hsame.2, hsame.3⟩
  | cons e rest =>
      rw [hcallers] at hclash
      have hchain := h.chain
      rw [hcallers] at hchain
      cases hchain with
      | @call _ outer k _ _ _ hsome hused hown hrest =>
        have hkept := hf.kept (c.lend e rest)
        have hplain : c.current.IsPlain := by
          have hlend := hkept.clash_eq_false hclash
          simp only [Environments.lend, Bool.or_eq_false_iff, Bool.not_eq_false',
            decide_eq_true_eq] at hlend
          exact hlend.2
        obtain ⟨t, htake, hlend⟩ := h.lend hplain hcallers hsome hown hrest
        obtain ⟨s₂, h₂, hs₂, hsame⟩ := hf.follows _ _ hlend hclash
        obtain ⟨k', hscopes⟩ := hsame.exists_scopes rfl
        have ho : s₂.outermost = s.outermost := hsame.outermost
        obtain ⟨s₃, hleave, hscopes₃, ho₃, hs₃⟩ := hs₂.unlend hplain hkept.current hscopes hsome
          (ho ▸ hused) hown (ho ▸ hrest)
        have hlent : (usedIn s₂.outermost s.scopes).has maxArgs = lent := by
          rw [ho]
          exact h.lent
        refine ⟨s₃, ?_, hlent ▸ hs₃, ⟨?_, ?_, ho₃.trans ho⟩⟩
        · have hrun : outcome (withOuterArgs m) s = outcome (ensuring m
              (leaveOuter (usedIn s.outermost outer)
                (k.used.toList.map fun j => (j, (c.current.slots j).headD .null)))) { s.addOuterRun with
              table := t
              scopes := ⟨k.ident, SlotSet.outerMark ||| usedIn s.outermost outer⟩ :: s.scopes } :=
            outcome_withOuterArgs_some hsome htake
          rw [hrun, outcome_ensuring, h₂, ← ho, hleave]
        · rw [hscopes₃]
        · rw [hscopes₃]
          exact id

end Calls

theorem Simulates.bind {m : Engine α} {f : Environments → α × Environments} {m' : α → Engine β}
    {f' : α → Environments → β × Environments} (h : Simulates lent m f)
    (h' : ∀ a, Simulates lent (m' a) (f' a)) :
    Simulates lent (m >>= m') fun c => f' (f c).1 (f c).2 := by
  refine ⟨fun c => (h.kept c).trans ((h' _).kept _), fun s c hs hclash => ?_⟩
  exact (h.follows s c hs (((h' _).kept _).clash_eq_false hclash)).bind fun s' hs' =>
    (h' _).follows s' _ hs' hclash

private theorem simulates_pure (lent : Bool) (a : α) : Simulates lent (pure a) fun c => (a, c) :=
  ⟨.refl lent, fun _ _ h _ => h.follows_pure a⟩

private theorem simulates_loop (hi : i < maxArgs) (n : Nat) (value : Nat → Value)
    {body : Nat → Engine Bool}
    {body' : Nat → Environments → Bool × Environments}
    (hbody : ∀ r, Simulates lent (body r) (body' r)) :
    Simulates lent (do bindArg i; Library.iterate i n value body) fun c =>
      Environments.iterate i n value body' (c.update (·.bind lent i)) := by
  have hbound (c : Environments) : (c.update (·.bind lent i)).current.isBound i = true :=
    Environment.isBound_bind ..
  refine ⟨fun c => ?_, fun s c h hclash => ?_⟩
  · exact (Environments.kept_update (Environment.grown_bind ..)).trans
      (Environments.kept_iterate (fun r => (hbody r).kept) (hbound c) n value)
  · exact (h.follows_bindArg hi).bind fun s' h' => follows_iterate hbody hi n h' (hbound c) hclash

private theorem simulates_read (hi : i < maxArgs) (ret : RetTag) (asView : Bool)
    {m : Bool → Value → Engine α}
    {f : Bool → Value → Environments → α × Environments}
    (h : ∀ bound v, Simulates lent (m bound v) (f bound v)) :
    Simulates lent (do
        let bound := (← get).isBound i
        let v ← argValue i (← identAt i) ret asView
        emit (.called [] [.ofBool bound, v])
        m bound v)
      fun c => f (c.current.isBound i) (c.look i ret asView)
        (c.report (c.current.isBound i) (c.look i ret asView)) := by
  have hread (c : Environments) :
      c.Kept lent (c.report (c.current.isBound i) (c.look i ret asView)) := ⟨.of_shape rfl, rfl, id⟩
  refine ⟨fun c => (hread c).trans ((h ..).kept _), fun s c hs hclash => ?_⟩
  have hrest := (hs.follows_emit (c.current.isBound i) (c.look i ret asView)).bind
    (f := fun _ => m (c.current.isBound i) (c.look i ret asView))
    fun s₁ hs₁ => (h ..).follows s₁ _ hs₁ hclash
  obtain ⟨s', h', hs', hsame⟩ := hrest
  refine ⟨s', ?_, hs', hsame⟩
  have hlook := outcome_bind_ok (hs.outcome_argValue hi ret asView) fun v => do
    emit (.called [] [.ofBool (s.isBound i), v])
    m (s.isBound i) v
  rw [bind_assoc, hs.isBound_eq hi, h'] at hlook
  rw [outcome_bind_ok (outcome_get s), hs.isBound_eq hi]
  exact hlook

/-- The interpreter does with its shared slots what the reference does with environments. -/
theorem Script.simulates_perform (p : Script) (lent : Bool) :
    Simulates lent p.perform (p.eval lent) := by
  induction p generalizing lent with
  | done v => exact simulates_pure lent v
  | read i ret asView next ih =>
      have hread := simulates_read i.2 ret asView fun bound v => ih bound v lent
      exact hread
  | write i v next ih =>
      refine Simulates.bind (f := fun c => (⟨⟩, c.update (·.write lent i v))) ⟨fun c => ?_, ?_⟩
        fun _ => ih lent
      · exact Environments.kept_update (Environment.grown_write ..)
      · exact fun s c h _ => h.follows_setArg i.2 v
  | loop i n value body next ihbody ihnext =>
      have hround (r : Nat) : Simulates lent (do return (← (body r).perform).toBool) fun c =>
          (((body r).eval lent c).1.toBool, ((body r).eval lent c).2) :=
        (ihbody r lent).bind fun v => simulates_pure lent v.toBool
      have hloop := (simulates_loop i.2 n value hround).bind fun ended => ihnext ended lent
      rw [bind_assoc] at hloop
      exact hloop
  | call ident overridden args fits body next ihbody ihnext =>
      exact (simulates_withArgs (ihbody false) ident overridden fits).bind fun v => ihnext v lent
  | runOuter body next ihbody ihnext =>
      exact (simulates_withOuterArgs (ihbody true) (ihbody lent)).bind fun v => ihnext v lent

end Steps

/-- Outside all calls every slot is bound. -/
def Environments.outside (s : Interp) : Environments where
  current := ⟨s.table.bindings, fun _ => false⟩
  reads := s.events

theorem AtRest.shows {r : Rigour} {s : Interp} (h : AtRest r s) : Shows false s (.outside s) := by
  have hused (i : Nat) : (usedIn s.outermost s.scopes).has i = decide (i < maxArgs) := by
    rw [h.scopes, ← SlotSet.has_all, ← h.inv.outermost]
    rfl
  have hbound (i : Nat) (hi : i < maxArgs) : (Environments.outside s).current.isBound i = true := by
    obtain ⟨id, hid⟩ := Table.exists_get? (h.inv.table.slot_lt hi)
    simp [Environments.outside, Environment.isBound, Table.bindings_of_get? hid]
  refine ⟨rfl, fun i _ => (List.append_nil _).symm, .outside ?_ (fun i hi => ?_) hbound, hused maxArgs⟩
  · rw [h.scopes]
    rfl
  · rw [hused, hbound i hi, decide_eq_true hi]

/-- The shared slots of the interpreter refine environments. Whatever a script does with its
arguments, by calls, reads, writes, loops and code that is run with the arguments of callers, nested to
any depth: it ends with the same result, each read sees the same value and whether the slot is bound,
and the slots have the same values afterwards. The exception are scripts that run code in the place of
the caller while the call has more than its own bindings, which the interpreter does not take off. -/
theorem Script.perform_refines_eval {r : Rigour} {s : Interp} (hs : AtRest r s) (p : Script)
    (hclash : (p.eval false (.outside s)).2.clash = false) :
    ∃ s', outcome p.perform s = (.ok (p.eval false (.outside s)).1, s') ∧
      s'.events = (p.eval false (.outside s)).2.reads ∧
      ∀ i < maxArgs, s'.table.bindings i = (p.eval false (.outside s)).2.current.slots i := by
  obtain ⟨s', h', hshows, -⟩ := (p.simulates_perform false).follows s _ hs.shows hclash
  refine ⟨s', h', hshows.events, fun i hi => ?_⟩
  have hcallers := List.map_eq_nil_iff.mp (p.kept_eval false (.outside s)).callers
  rw [hshows.bindings i hi, Environments.bindings, hcallers, List.flatMap_nil, List.append_nil]

namespace Script

/-- Reads a slot and goes on. -/
def look (i : Fin 25) (next : Script) : Script := .read i .null false fun _ _ => next

/-- Calls nested twice, code for the caller nested twice in them: it writes to a slot of the outermost
caller, and binds a slot of the caller for a while. -/
def nested : Script :=
  .call 121 false [.int 5] (by decide)
    (.call 122 false [.int 6] (by decide)
      (.runOuter
        (look 0 (.runOuter (.write (0 : Fin 25) (.int 9) (look 0 (.done .null))) fun _ =>
          look 0 (.write (1 : Fin 25) (.int 8) (look 1 (.done .null)))))
        fun _ => look 0 (look 1 (.done .null)))
      fun _ => look 1 (.done .null))
    fun _ => look 0 (.done (.int 1))

theorem perform_refines_eval_nested : ∃ s', outcome nested.perform .new =
      (.ok (nested.eval false (.outside .new)).1, s') ∧
    s'.events = (nested.eval false (.outside .new)).2.reads ∧
    ∀ i < maxArgs, s'.table.bindings i = (nested.eval false (.outside .new)).2.current.slots i :=
  nested.perform_refines_eval ⟨Interp.inv_new .layout, rfl, Interp.depth_new⟩ (by decide)

end Script

end ConsoleScript
