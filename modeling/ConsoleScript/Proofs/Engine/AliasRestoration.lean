import Mathlib
import ConsoleScript.Proofs.Engine.Executions

/-!
Aliases that are shadowed get their values back. A run that shadows an alias by `local`, and a command
that does so with its first argument, take back what they have saved, however the code inside ends.

Flags are not saved. Shadowing makes an alias known, the writes inside leave their flags on it, and at
the end it keeps the flags that it has by then.
-/

namespace ConsoleScript

open Bytecode Engine Library

variable {α : Type} {k : Runner} {s s' s₁ s₂ : Interp} {i x : Nat} {args : List Value}

/-- An alias by name, which is shadowed by itself. -/
def Table.IsNamedAlias (t : Table) (x : Nat) : Prop :=
  ∃ id, t.get? x = some id ∧ isNamedAlias x id = true

theorem Table.IsNamedAlias.le {t : Table} (h : t.IsNamedAlias x) : maxArgs ≤ x := by
  obtain ⟨id, -, hid⟩ := h
  exact of_decide_eq_true (Bool.and_eq_true_iff.mp hid).2

def Table.flags? (t : Table) (i : Nat) : Option Flags := (t.get? i).map (·.flags)

/-- The flags of an identifier that has been defined. -/
def Flags.known (f : Flags) : Flags := { f with unknown := false }

def Interp.shadow (s : Interp) (x : Nat) (v : Value) : Interp :=
  (s.modifyIdent x (·.pushValue v)).modifyIdent x clearUnknown

theorem snd_outcome_shadowing (x : Nat) (v : Value) (m : Engine α) (s : Interp) :
    (outcome (do pushArg x v; modifyIdent x clearUnknown; ensuring m (popArg x)) s).2 =
      (outcome (popArg x) (outcome m (s.shadow x v)).2).2 :=
  snd_outcome_ensuring m (s.shadow x v) (popArg x)

/-- Rounds in which a command runs code while an alias has one value after the other. -/
structure Rounds where
  count : Nat
  value : Nat → Value
  body : Nat → Engine Bool

/-- The rounds of the commands that shadow the alias that their first argument names. -/
def roundsOf (k : Runner) (args : List Value) : Builtin → Option Rounds
  | .push => some {
      count := 1
      value _ := args.getD 1 .null
      body _ := do
        let _ ← runValue k (args.getD 2 .null)
        return false }
  | .loop form =>
      let at1 := if form.offset then 2 else 1
      let at2 := if form.step then at1 + 1 else at1
      let offset := if form.offset then (args.getD 1 .null).toInt else 0
      let step := if form.step then (args.getD at1 .null).toInt else 1
      some {
        count := (args.getD at2 .null).toInt.toInt.toNat
        value r := .int (offset + Int32.ofNat r * step)
        body _ := do
          if form.condition then
            if !(← holds k (args.getD (at2 + 1) .null)) then return true
          let _ ← runValue k (args.getD (if form.condition then at2 + 2 else at2 + 1) .null)
          return false }
  | .listFind =>
      let values := (Syntax.parseList (args.getD 1 .null).toBytes).toArray
      some {
        count := values.size
        value r := .ofBytes (values.getD r [])
        body _ := holds k (args.getD 2 .null) }
  | .loopList =>
      let values := (Syntax.parseList (args.getD 1 .null).toBytes).toArray
      some {
        count := values.size
        value r := .ofBytes (values.getD r [])
        body _ := do
          let _ ← runValue k (args.getD 2 .null)
          return false }
  | _ => none

/-- Where rounds end, if there are any. -/
def Rounds.leave (c : Rounds) (x : Nat) (s : Interp) : Interp :=
  (outcome (rounds x c.value c.body c.count 0) (s.shadow x (c.value 0))).2

theorem Rounds.snd_outcome_iterate {c : Rounds} (hc : 0 < c.count) (x : Nat) (s : Interp) :
    (outcome (iterate x c.count c.value c.body) s).2 = (outcome (popArg x) (c.leave x s)).2 := by
  have hn : ¬(c.count == 0) = true := by simpa using Nat.ne_of_gt hc
  rw [iterate, if_neg hn]
  exact snd_outcome_shadowing x (c.value 0) (rounds x c.value c.body c.count 0) s

theorem arg_eq_pure (hi : i < args.length) : arg args i = pure (args.getD i .null) := by
  unfold arg
  rw [List.getD_eq_getElem?_getD, List.getElem?_eq_getElem hi]
  rfl

private theorem argIf_eq_pure {there : Bool} (hi : there = true → i < args.length) :
    argIf there args i = pure (if there then some (args.getD i .null) else none) := by
  cases there with
  | false => rfl
  | true =>
      unfold argIf
      rw [if_pos rfl, if_pos rfl, arg_eq_pure (hi rfl)]
      rfl

/-- An alias by name that the first argument of a command refers to. -/
structure Names (s : Interp) (args : List Value) (x : Nat) : Prop where
  first : args.getD 0 .null = .ident x
  isAlias : s.table.IsNamedAlias x

namespace Names

theorem arg (h : Names s args x) : arg args 0 = pure (.ident x) := by
  have hfirst := h.first
  cases args with
  | nil => cases hfirst
  | cons v rest => exact hfirst ▸ rfl

theorem outcome_loopVariable? (h : Names s args x) :
    outcome (loopVariable? (.ident x)) s = (.ok (some x), s) := by
  obtain ⟨id, hid, hx⟩ := h.isAlias
  rw [loopVariable?]
  dsimp only [Value.ident?]
  rw [outcome_bind_ok (outcome_identAt hid), (Bool.and_eq_true_iff.mp hx).1]
  rfl

variable {c : Rounds}

private theorem snd_outcome_shadowed (h : Names s args x) (hn : 3 ≤ args.length)
    (hc : roundsOf k args .push = some c) :
    (outcome (shadowed k args) s).2 = (outcome (iterate x c.count c.value c.body) s).2 := by
  cases hc
  have hbody (s : Interp) : (outcome (runValue k (args.getD 2 .null)) s).2 =
      (outcome (rounds x (fun _ => args.getD 1 .null) (fun _ => do
        let _ ← runValue k (args.getD 2 .null)
        return false) 1 0) s).2 := by
    rw [rounds, if_neg (Nat.lt_irrefl 0), bind_assoc, outcome_bind]
    rcases outcome (runValue k (args.getD 2 .null)) s with ⟨e | v, s'⟩ <;> rfl
  rw [shadowed, h.arg, pure_bind, outcome_bind_ok h.outcome_loopVariable?]
  dsimp only
  rw [if_neg (Nat.not_lt.mpr h.isAlias.le), arg_eq_pure (by omega), arg_eq_pure (by omega), pure_bind,
    pure_bind, snd_outcome_shadowing, hbody]
  exact (Rounds.snd_outcome_iterate (c := ⟨1, _, _⟩) Nat.one_pos x s).symm

private theorem snd_outcome_findElement (h : Names s args x) (hn : 3 ≤ args.length)
    (hc : roundsOf k args .listFind = some c) :
    (outcome (findElement k args) s).2 = (outcome (iterate x c.count c.value c.body) s).2 := by
  cases hc
  rw [findElement, h.arg, pure_bind, outcome_bind_ok h.outcome_loopVariable?]
  dsimp only
  rw [arg_eq_pure (by omega), arg_eq_pure (by omega), pure_bind, pure_bind, listLoop, outcome_bind]
  generalize outcome (iterate x _ _ _) s = p
  obtain ⟨e | _ | n, s'⟩ := p <;> rfl

private theorem snd_outcome_eachElement (h : Names s args x) (hn : 3 ≤ args.length)
    (hc : roundsOf k args .loopList = some c) :
    (outcome (eachElement k args) s).2 = (outcome (iterate x c.count c.value c.body) s).2 := by
  cases hc
  rw [eachElement, h.arg, pure_bind, outcome_bind_ok h.outcome_loopVariable?]
  dsimp only
  rw [arg_eq_pure (by omega), arg_eq_pure (by omega), pure_bind, pure_bind, listLoop]
  exact snd_outcome_map _ _ _

private theorem snd_outcome_countedLoop (h : Names s args x) {form : LoopForm}
    (hn : (Builtin.loop form).arity ≤ args.length) (hc : roundsOf k args (.loop form) = some c) :
    (outcome (countedLoop k form args) s).2 = (outcome (iterate x c.count c.value c.body) s).2 := by
  cases hc
  obtain ⟨offset, step, condition⟩ := form
  unfold Builtin.arity at hn
  dsimp only at hn
  rw [countedLoop, h.arg, pure_bind]
  dsimp only
  rw [argIf_eq_pure, pure_bind, argIf_eq_pure, pure_bind, arg_eq_pure, pure_bind, argIf_eq_pure,
    pure_bind, arg_eq_pure, pure_bind, outcome_bind_ok h.outcome_loopVariable?]
  · refine (snd_outcome_map _ _ _).trans ?_
    cases offset <;> cases step <;> cases condition <;> rfl
  -- Each argument that a form reads has its place among those that it takes.
  all_goals cases offset <;> cases step <;> cases condition <;> simp at hn ⊢ <;> omega

end Names

private theorem snd_outcome_apply {b : Builtin} {c : Rounds} (hc : roundsOf k args b = some c)
    (hn : b.arity ≤ args.length) (h : Names s args x) :
    (outcome (Library.apply k b args) s).2 = (outcome (iterate x c.count c.value c.body) s).2 := by
  cases b with
  | push => exact h.snd_outcome_shadowed hn hc
  | loop form => exact (snd_outcome_map _ _ _).trans (h.snd_outcome_countedLoop hn hc)
  | listFind => exact h.snd_outcome_findElement hn hc
  | loopList => exact h.snd_outcome_eachElement hn hc
  | _ => cases hc

section Flags

theorem Table.flags?_modify {t : Table} {g : Ident → Ident} (hg : ∀ id, (g id).flags = id.flags)
    (i x : Nat) : (t.modify i g).flags? x = t.flags? x := by
  unfold flags?
  rw [get?_modify]
  split
  · rw [Option.map_map]
    exact congrArg (fun f => Option.map f _) (funext hg)
  · rfl

theorem flags?_popArg (i x : Nat) (s : Interp) :
    (outcome (popArg i) s).2.table.flags? x = s.table.flags? x := by
  unfold popArg
  cases hid : s.table.get? i with
  | none => rw [outcome_bind_error (outcome_identAt_none hid)]
  | some id =>
      rw [outcome_bind_ok (outcome_identAt hid)]
      cases id.saved with
      | nil => rfl
      | cons v rest =>
          exact Table.flags?_modify (g := fun id => { id with value := v, saved := rest, body := none })
            (fun _ => rfl) i x

private theorem flags?_popAlias (i x : Nat) (s : Interp) :
    (outcome (popAlias i) s).2.table.flags? x = s.table.flags? x := by
  unfold popAlias
  cases hid : s.table.get? i with
  | none => rw [outcome_bind_error (outcome_identAt_none hid)]
  | some id =>
      rw [outcome_bind_ok (outcome_identAt hid)]
      split
      · exact flags?_popArg i x s
      · rfl

private theorem flags?_endLocals (l : List Nat) (x : Nat) (s : Interp) :
    (outcome (endLocals l) s).2.table.flags? x = s.table.flags? x := by
  induction l generalizing s with
  | nil => rfl
  | cons i l ih =>
      have hsplit : endLocals (i :: l) = (do popAlias i; endLocals l) := rfl
      rw [hsplit, outcome_bind, ← flags?_popAlias i x s]
      generalize outcome (popAlias i) s = p
      obtain ⟨e | _, s'⟩ := p
      · rfl
      · exact ih s'

theorem Interp.get?_shadow (s : Interp) (i : Nat) (v : Value) (x : Nat) :
    (s.shadow i v).table.get? x = if i = x then
      (s.table.get? x).map fun id => clearUnknown (id.pushValue v) else s.table.get? x := by
  unfold Interp.shadow Interp.modifyIdent
  rw [Table.modify_modify, Table.get?_modify]

theorem Interp.flags?_shadow (s : Interp) (x : Nat) (v : Value) :
    (s.shadow x v).table.flags? x = (s.table.flags? x).map Flags.known := by
  rw [Table.flags?, get?_shadow, if_pos rfl, Table.flags?, Option.map_map, Option.map_map]
  rfl

theorem Interp.flags?_shadow_ne (s : Interp) (v : Value) (h : i ≠ x) :
    (s.shadow i v).table.flags? x = s.table.flags? x := by
  rw [Table.flags?, get?_shadow, if_neg h]
  rfl

private theorem outcome_pushAlias_eq {id : Ident} (hid : s.table.get? i = some id) :
    outcome (pushAlias i) s = (.ok ⟨⟩, if isNamedAlias i id = true then s.shadow i .null else s) := by
  unfold pushAlias
  rw [outcome_bind_ok (outcome_identAt hid)]
  split <;> rfl

/-- Shadowing one more identifier makes it known, if it is an alias by name. -/
theorem outcome_pushAlias_flags? (hx : s.table.IsNamedAlias x) (hi : i < s.table.size) :
    ∃ s₁, outcome (pushAlias i) s = (.ok ⟨⟩, s₁) ∧ s₁.table.IsNamedAlias x ∧
      s₁.table.size = s.table.size ∧ s₁.table.flags? x =
        if i = x then (s.table.flags? x).map Flags.known else s.table.flags? x := by
  obtain ⟨id, hid⟩ := Table.exists_get? hi
  refine ⟨_, outcome_pushAlias_eq hid, ?_⟩
  split
  next hnamed =>
    obtain ⟨idx, hidx, hisx⟩ := hx
    refine ⟨⟨if i = x then clearUnknown (idx.pushValue .null) else idx, ?_, ?_⟩, ?_, ?_⟩
    · rw [Interp.get?_shadow, hidx]
      split <;> rfl
    · split
      · exact hisx
      · exact hisx
    · exact (Table.size_modify _ _ _).trans (Table.size_modify _ _ _)
    · split
      next h => exact h ▸ s.flags?_shadow i .null
      next h => exact s.flags?_shadow_ne .null h
  next hnamed =>
    refine ⟨hx, rfl, (if_neg fun h => hnamed ?_).symm⟩
    obtain ⟨idx, hidx, hisx⟩ := hx
    subst h
    cases hid.symm.trans hidx
    exact hisx

/-- Shadowing the aliases of a list makes those in it known and leaves the others alone. -/
theorem flags?_pushAliases {l : List Nat} (hx : s.table.IsNamedAlias x)
    (hl : ∀ i ∈ l, i < s.table.size) : (outcome (l.forM pushAlias) s).2.table.flags? x =
      if x ∈ l then (s.table.flags? x).map Flags.known else s.table.flags? x := by
  induction l generalizing s with
  | nil => exact (if_neg List.not_mem_nil).symm
  | cons i l ih =>
      obtain ⟨s₁, h₁, hx₁, hsize, hflags⟩ := outcome_pushAlias_flags? hx (hl i List.mem_cons_self)
      have hrest := ih hx₁ fun j hj => hsize ▸ hl j (List.mem_cons_of_mem i hj)
      refine (congrArg (·.2.table.flags? x) (outcome_bind_ok h₁ fun _ => l.forM pushAlias)).trans ?_
      refine hrest.trans ?_
      rw [hflags]
      by_cases hi : i = x <;> by_cases hxl : x ∈ l
      · rw [if_pos hi, if_pos hxl, if_pos (List.mem_cons_of_mem i hxl), Option.map_map]
        rfl
      · rw [if_pos hi, if_neg hxl, if_pos (hi ▸ List.mem_cons_self)]
      · rw [if_neg hi, if_pos hxl, if_pos (List.mem_cons_of_mem i hxl)]
      · rw [if_neg hi, if_neg hxl, if_neg fun h => (List.mem_cons.mp h).elim (hi ∘ Eq.symm) hxl]

end Flags

section Rounds

variable {r : Rigour} {c : Rounds}

/-- Rounds with values that can be stored, of code that is run safely. -/
structure Rounds.Ok (r : Rigour) (s : Interp) (c : Rounds) : Prop where
  value : ∀ n t, s.table.Extends r t → (c.value n).Ok r t
  body : ∀ n (w : World r), (w.live → s.table.Extends r w.state.table) →
    w.Safe (c.body n) fun _ _ => True

private theorem roundsOf_ok (hk : RunsSafely r k) (hargs : ∀ v ∈ args, v.Ok r s.table) {b : Builtin}
    (hc : roundsOf k args b = some c) : c.Ok r s := by
  have hgood (i : Nat) (t : Table) (ht : s.table.Extends r t) : (args.getD i .null).Ok r t := by
    rw [List.getD_eq_getElem?_getD]
    cases hi : args[i]? with
    | none => exact trivial
    | some v => exact (hargs v (List.mem_of_getElem? hi)).mono ht
  have hrun (i : Nat) (w : World r) (hw : w.live → s.table.Extends r w.state.table) :
      w.Safe (do let _ ← runValue k (args.getD i .null); return false) fun _ _ => True :=
    (World.safe_runValue hk fun hl => hgood i _ (hw hl)).bind fun _ _ _ _ => .pure fun _ => trivial
  have hholds (i : Nat) (w : World r) (hw : w.live → s.table.Extends r w.state.table) :
      w.Safe (holds k (args.getD i .null)) fun _ _ => True :=
    World.safe_holds hk fun hl => hgood i _ (hw hl)
  cases b with
  | push =>
      cases hc
      exact ⟨fun _ => hgood 1, fun _ => hrun 2⟩
  | loop form =>
      cases hc
      refine ⟨fun _ _ _ => trivial, fun n w hw => .ite (fun _ => ?_) fun _ => hrun _ w hw⟩
      refine (hholds _ w hw).bind fun w' _ hw' _ => .ite (fun _ => .pure fun _ => trivial) fun _ => ?_
      exact hrun _ w' fun hl => (hw (hw' hl).1).trans (hw'.forms hl)
  | listFind =>
      cases hc
      exact ⟨fun _ _ _ => trivial, fun _ => hholds 2⟩
  | loopList =>
      cases hc
      exact ⟨fun _ _ _ => trivial, fun _ => hrun 2⟩
  | _ => cases hc

/-- Rounds leave all former bindings of their alias to be taken back. -/
theorem Rounds.Ok.bindings_popArg (hc : c.Ok r s) (hs : Inv r s) (hx : x < s.table.size)
    (hnamed : maxArgs ≤ x) (hw : Within r (c.leave x s)) :
    (outcome (popArg x) (c.leave x s)).2.table.bindings x = s.table.bindings x := by
  have hpush : Covers r x s (s.shadow x (c.value 0)) :=
    .push hs hx (hc.value 0 _ (.refl r _))
  obtain ⟨hcovers, -⟩ := World.covers_rounds hc.value
    (fun n => World.Safe.steady (w := ⟨s, True, fun _ => hs⟩) fun w hw =>
      hc.body n w fun hl => (hw hl).2)
    (fun s₁ hs₁ n hx => hc.body n _ fun _ => hx) c.count 0 hpush hw
  obtain ⟨s', hpop, -, hadds⟩ := outcome_popArg hcovers.inv.table hcovers.saved
  rw [← hcovers.beneath hnamed]
  change (outcome (popArg x) (outcome (rounds x c.value c.body c.count 0) _).2).2.table.bindings x = _
  rw [hpop, hadds.bindings, if_pos rfl]

end Rounds

section Runs

variable {r : Rigour} {b : Block} {a : Activation} {l : List Nat}

/-- Steps up to the exit, at most `left` of them, as a run does them. Instead of restoring the aliases
that the run shadows, it gives them. -/
def stepsFrom (k : Runner) (b : Block) : (left : Nat) → Activation → Engine (List Nat)
  | 0, a => return a.locals
  | left + 1, a => do
      match ← attempt (step k b a) with
      | .ok (.go a) => stepsFrom k b left a
      | .ok (.done ..) | .error _ => return a.locals

/-- A run ends where the aliases are restored that its steps have shadowed. -/
theorem snd_outcome_runFrom (k : Runner) (b : Block) (left : Nat) (a : Activation) (s : Interp) :
    (outcome (runFrom k b left a) s).2 = (outcome (stepsFrom k b left a >>= endLocals) s).2 := by
  have hend {β : Type} (l : List Nat) (m : Engine β) (hm : ∀ s, (outcome m s).2 = s) (s : Interp) :
      (outcome (do endLocals l; m) s).2 = (outcome (endLocals l) s).2 := by
    rw [outcome_bind]
    generalize outcome (endLocals l) s = p
    obtain ⟨e | _, s'⟩ := p
    · rfl
    · exact hm s'
  induction left generalizing a s with
  | zero => exact hend a.locals _ (fun _ => rfl) s
  | succ left ih =>
      rw [runFrom, stepsFrom, bind_assoc, outcome_bind_ok (outcome_attempt _ _),
        outcome_bind_ok (outcome_attempt _ _)]
      generalize outcome (step k b a) s = p
      obtain ⟨e | a' | ⟨v, pc⟩, s'⟩ := p
      · exact hend a.locals _ (fun _ => rfl) s'
      · exact ih a' s'
      · exact hend a.locals _ (fun _ => rfl) s'

private theorem flags?_runFrom (k : Runner) (b : Block) (left : Nat) (a : Activation) (x : Nat)
    (s : Interp) : (outcome (runFrom k b left a) s).2.table.flags? x =
      (outcome (stepsFrom k b left a) s).2.table.flags? x := by
  rw [snd_outcome_runFrom, outcome_bind]
  generalize outcome (stepsFrom k b left a) s = p
  obtain ⟨e | l, s'⟩ := p
  · rfl
  · exact flags?_endLocals l x s'

/-- A run restores the aliases that it shadows: at its end an alias has the bindings again that it had
before the instruction, less those by which the run had shadowed it already. -/
theorem bindings_runFrom {owed : Nat → Nat} {word : UInt32} {h left : Nat} {e : Nat}
    (hk : RunsSafely r k) (hs : Inv r s) (ha : a.Ok r s.table h)
    (hr : Runnable r s.table b a.pc h e) (hl : Shadowed r owed a.locals s)
    (hleft : b.size ≤ a.pc + left) (hword : b.words[a.pc]? = some word)
    (hop : Word.op? word = some .local) (hn : (Word.arg word).toNat ≤ a.stack.length)
    (hx : s.table.IsNamedAlias x) (hmem : x ∈ World.shadowedBy (Word.arg word).toNat a)
    (hw : Within r (outcome (runFrom k b (left + 1) a) s).2) :
    (outcome (runFrom k b (left + 1) a) s).2.table.bindings x =
      (s.table.bindings x).drop (a.locals.count x) := by
  have hshadows (l : List Nat) : s.table.shadows r l x = l.count x := by
    obtain ⟨id, hid, halias⟩ := hx
    exact if_pos ((isNamedAlias_iff hid).mp halias)
  obtain ⟨m, hm, hrest⟩ := hr.after hword hop
  obtain ⟨s₁, a₁, hrun, hb₁, hd₁, hl₁, ha₁, hpc₁⟩ :=
    World.runFrom_shadow (k := k) hs.table hl ha hword hop hn hm left
  have hs₁ : Inv r s₁ := by
    refine ⟨hb₁.ready, fun j hj => ?_, hb₁.outermost.trans hs.outermost⟩
    have := hs.backed j hj
    rw [hb₁.scopes, hd₁.depth]
    omega
  rw [hrun] at hw ⊢
  obtain ⟨hkeep, -⟩ := (World.sees_runFrom (w := ⟨s₁, True, fun _ => hs₁⟩) hk left (fun _ => ha₁)
    (fun _ => hpc₁ ▸ hrest.mono hb₁.forms) (fun _ => hl₁) fun _ => by omega).2 trivial hw
  have hpos : 0 < s.table.shadows r (World.shadowedBy (Word.arg word).toNat a) x :=
    hshadows _ ▸ List.count_pos_iff.mpr hmem
  rw [(hkeep.aliases x hx.le).value (Nat.add_pos_left hpos _), hd₁.bindings, List.drop_drop,
    hl.counts, hshadows a.locals]

end Runs

/-- What shadows an alias by name, from an interpreter: how many bindings of the alias it takes back
besides its own, and where the code begins and ends for which the alias is shadowed. -/
inductive Shadows (k : Runner) (s : Interp) (x : Nat) :
    {α : Type} → Engine α → Nat → Interp → Interp → Prop
  /-- A command shadows the alias that its first argument names, in rounds of its code. -/
  | command {b : Builtin} {args : List Value} {c : Rounds} (hc : roundsOf k args b = some c)
      (hcount : 0 < c.count) (hx : Names s args x) (hn : b.arity ≤ args.length)
      (hargs : ∀ v ∈ args, v.Ok .layout s.table) :
      Shadows k s x (Library.apply k b args) 0 (s.shadow x (c.value 0)) (c.leave x s)
  /-- An instruction shadows the aliases that its operands name up to the end of the run, which also
  takes back what it has shadowed before. -/
  | inRun {b : Block} {a : Activation} {word : UInt32} {owed : Nat → Nat} {left h e : Nat}
      (hword : b.words[a.pc]? = some word) (hop : Word.op? word = some .local)
      (hn : (Word.arg word).toNat ≤ a.stack.length)
      (hx : x ∈ World.shadowedBy (Word.arg word).toNat a) (halias : s.table.IsNamedAlias x)
      (ha : a.Ok .layout s.table h) (hr : Runnable .layout s.table b a.pc h e)
      (hl : Shadowed .layout owed a.locals s) (hleft : b.size ≤ a.pc + left) :
      Shadows k s x (runFrom k b (left + 1) a) (a.locals.count x)
        (outcome ((World.shadowedBy (Word.arg word).toNat a).forM pushAlias) s).2
        (outcome (stepsFrom k b (left + 1) a) s).2

/-- Shadowing an alias leaves its value alone. However a run ends that shadows it by `local`, or a
command that shadows it for its code, the alias has the value and the saved values again that it had
before, whatever the code has done with it. Its flags are not restored: where the code begins, the
alias is known, and afterwards it has the flags that the code has left on it. -/
theorem Shadows.restores {m : Engine α} {taken room : Nat} {answer : Except Stop α}
    (h : Shadows (run room) s x m taken s₁ s₂) (hs : Inv .layout s)
    (hrun : outcome m s = (answer, s')) (hw : Within .layout s') :
    s'.table.bindings x = (s.table.bindings x).drop taken ∧
      s₁.table.flags? x = (s.table.flags? x).map Flags.known ∧
      s'.table.flags? x = s₂.table.flags? x := by
  have hk := runsSafely_run .layout room
  have hend : (outcome m s).2 = s' := by rw [hrun]
  cases h with
  | command hc hcount hx hn hargs =>
      rw [snd_outcome_apply hc hn hx, Rounds.snd_outcome_iterate hcount] at hend
      subst hend
      obtain ⟨id, hid, -⟩ := hx.isAlias
      refine ⟨?_, s.flags?_shadow x _, flags?_popArg x x _⟩
      exact (roundsOf_ok hk hargs hc).bindings_popArg hs (Table.lt_size_of_get? hid) hx.isAlias.le
        (hw.of_grows (steady_popArg x _).grows)
  | inRun hword hop hn hx halias ha hr hl hleft =>
      subst hend
      refine ⟨bindings_runFrom hk hs ha hr hl hleft hword hop hn halias hx hw, ?_,
        flags?_runFrom _ _ _ _ x s⟩
      rw [flags?_pushAliases halias (World.shadowedBy_known ha hs.table), if_pos hx]

def namedAlias : Interp :=
  { Interp.new with table := Interp.new.table.push (Table.unknownAlias (utf8 "x")) }

/-- A call of `push` whose code writes to the alias. -/
def pushedArgs : List Value := [.ident 121, .int 1, .ofBytes (utf8 "x = 2")]

set_option maxRecDepth 100000 in
private theorem run_pushedArgs :
    ((outcome (Library.apply (run 9) .push pushedArgs) namedAlias).2.compiled,
      fitsWords (namedAlias.shadow 121 (.int 1)).table (utf8 "x = 2") [],
      Interp.new.table.size) =
    (fun t src name => False ∨ (t = (namedAlias.shadow 121 (.int 1)).table ∧ src = utf8 "x = 2" ∧
      name = []), true, 121) := by
  with_unfolding_all rfl

private theorem inv_namedAlias : Inv .layout namedAlias :=
  ((Interp.inv_new .layout).settles_names (.push (.refl _) (utf8 "x"))).inv

theorem shadows_push_restores : ∃ c, roundsOf (run 9) pushedArgs .push = some c ∧
    let s' := (outcome (Library.apply (run 9) .push pushedArgs) namedAlias).2
    s'.table.bindings 121 = (namedAlias.table.bindings 121).drop 0 ∧
      (namedAlias.shadow 121 (c.value 0)).table.flags? 121 =
        (namedAlias.table.flags? 121).map Flags.known ∧
      s'.table.flags? 121 = (c.leave 121 namedAlias).table.flags? 121 := by
  obtain ⟨hw, hsize⟩ := Within.of_run (r := .layout) run_pushedArgs
  have hx : namedAlias.table.IsNamedAlias 121 := by
    refine ⟨Table.unknownAlias (utf8 "x"), ?_, by decide⟩
    rw [namedAlias, Table.get?_push, if_pos hsize.symm]
  have hargs : ∀ v ∈ pushedArgs, v.Ok .layout namedAlias.table := by
    intro v hv
    rcases List.mem_cons.mp hv with rfl | hv
    · exact Table.lt_size_of_get? hx.choose_spec.1
    · rcases List.mem_cons.mp hv with rfl | hv
      · trivial
      · rw [List.mem_singleton.mp hv]
        exact Value.ok_ofBytes _ _ _
  exact ⟨_, rfl, Shadows.restores (.command rfl Nat.one_pos ⟨rfl, hx⟩ (by decide) hargs)
    inv_namedAlias (Prod.eta _).symm hw⟩

/-- An interpreter in which a text has looked up an alias that is not defined. -/
def lookedUp : Interp := (Request.execute (utf8 "echo $x")).perform .new

/-- An interpreter in override mode with an alias from before. -/
def overriding : Interp :=
  (Request.setOverrideMode true).perform ((Request.execute (utf8 "x = 1")).perform .new)

def assigned : Interp := (Request.execute (utf8 "x = 1")).perform .new

/-- A block that no text has, which writes an alias as arguments are written. -/
def foreignArgument : Block := { name := utf8 "b", words := #[0, 1356, 31026, 9] }

/-- After an alias was shadowed, it is known, and a write to it while it was shadowed makes its former
value an override. Code of the host that can not come from a text may leave it with another value,
because it saves the one that shadows. -/
theorem shadowing_leaves_traces :
    ((Request.execute (utf8 "push x 1 []")).perform lookedUp).table.flags? 121 ≠
        lookedUp.table.flags? 121 ∧
      ((Request.execute (utf8 "push x 1 [x = 2]")).perform overriding).table.flags? 121 ≠
        overriding.table.flags? 121 ∧
      ((Request.call (utf8 "loop") [.ident 121, .int 1, .code foreignArgument 1]).perform
        assigned).table.bindings 121 ≠ assigned.table.bindings 121 := by
  decide +kernel

end ConsoleScript
