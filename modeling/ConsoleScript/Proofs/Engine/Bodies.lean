import ConsoleScript.Proofs.Engine.Compiling
import ConsoleScript.Proofs.Engine.Identifiers
import ConsoleScript.Proofs.Engine.Indifference
import ConsoleScript.Proofs.Interp.Slots

/-!
The bodies of aliases. The body of an alias is compiled from the text of its value when it is called for
the first time, and kept until the alias gets another value. So what is kept is always what the text is
compiled to, at rest and in the middle of executions.

A call binds its arguments first, and looks at the callee then. So an argument slot that is called with
an argument of its own runs that argument, and every other alias runs the value that it had.
-/

namespace ConsoleScript

open Bytecode Engine

/-- What the engine does in the course of an execution: whatever meets all guarantees that its parts
meet and that do not depend on what identifiers are bound to. -/
def Engine.IsPart {α : Type} (m : Engine α) : Prop :=
  ∀ G : Guarantee, G.Indifferent → G.Based → Meets G m

/-- What changes the value of an identifier, one at a time: assignments, and binding a name to another
value and back, as calls, loops, runs that shadow aliases and code that is run with the arguments of a
caller do, and the end of an override. -/
inductive Engine.WritesValue : Engine Unit → Prop
  | setAlias (i : Nat) (v : Value) : WritesValue (setAlias i v)
  | setValue (i : Nat) (v : Value) : WritesValue (modifyIdent i (·.setValue v))
  | setArg (i : Nat) (v : Value) : WritesValue (setArg i v)
  | bindArg (i : Nat) : WritesValue (bindArg i)
  | pushArg (i : Nat) (v : Value) : WritesValue (pushArg i v)
  | popArg (i : Nat) : WritesValue (popArg i)
  | pushAlias (i : Nat) : WritesValue (pushAlias i)
  | popAlias (i : Nat) : WritesValue (popAlias i)
  | takeArgs (is : List Nat) : WritesValue (do let _ ← is.mapM takeArg)
  | leaveOuter (caller : SlotSet) (taken : List (Nat × Value)) :
      WritesValue (leaveOuter caller taken)
  | clearOverride (n i : Nat) : WritesValue (clearOverride (run n) i)

namespace Interp

/-- The interpreters that a host can have, and those in the middle of its executions. -/
inductive Occurs : Interp → Prop
  | host {s : Interp} (h : s.Arises) : Occurs s
  | part {α : Type} {m : Engine α} {s : Interp} (h : Occurs s) (hm : IsPart m) :
      Occurs (outcome m s).2
  /-- A call begins, and lets writes override if the alias is overridden. -/
  | enter {s : Interp} (h : Occurs s) (overridden : Bool) : Occurs (s.enterFlags overridden)

/-- A block is what a text is compiled to under a name, by a table whose identifiers are still where
they were. -/
def HasCompiled (s : Interp) (text name : Bytes) (b : Block) : Prop :=
  ∃ t, b = (compile t text name).block ∧ (compile t text name).table.Keeps s.table

/-- A block is what a text was compiled to under a name once, by the table that there was then. -/
def WasCompiled (s : Interp) (text name : Bytes) (b : Block) : Prop :=
  ∃ t, s.compiled t text name ∧ b = (compile t text name).block ∧
    (compile t text name).table.Keeps s.table

/-- The body that is kept for an identifier is what the text of its value was compiled to. -/
def Bodied (s : Interp) : Prop :=
  ∀ i id b, s.table.get? i = some id → id.body = some b → s.WasCompiled id.value.toBytes id.name b

/-- Identifiers stay what they are, and what is kept for them stays right. -/
structure KeepsBodies (s s' : Interp) : Prop where
  lasts : s.table.Lasts s'.table
  grows : Grows s s'
  bodied : s.Bodied → s'.Bodied

/-- What a call finds that may be made. -/
structure CanCall (s : Interp) (i : Nat) (id : Ident) : Prop where
  found : s.table.get? i = some id
  role : id.role = .alias
  known : id.flags.unknown = false
  bound : i < maxArgs → s.isBound i = true

end Interp

/-- Bodies are kept as long as they are right. -/
def Engine.Guarantee.bodied : Guarantee where
  From _ := True
  To := Interp.KeepsBodies
  ends := False

section Keeping

variable {s s' s'' : Interp} {i : Nat} {id : Ident} {text name : Bytes} {b : Block}

theorem Table.Keeps.trans {t t' t'' : Table} (h : t.Keeps t') (h' : t'.Keeps t'') : t.Keeps t'' :=
  ⟨fun i name kind hl => h'.label i name kind (h.label i name kind hl), Nat.le_trans h.size h'.size⟩

namespace Interp

theorem WasCompiled.hasCompiled (h : s.WasCompiled text name b) : s.HasCompiled text name b := by
  obtain ⟨t, -, hb, hkeeps⟩ := h
  exact ⟨t, hb, hkeeps⟩

theorem WasCompiled.keeps (h : s.WasCompiled text name b) (ht : s.table.Keeps s'.table)
    (hg : Grows s s') : s'.WasCompiled text name b := by
  obtain ⟨t, hc, hb, hkeeps⟩ := h
  exact ⟨t, hg _ _ _ hc, hb, hkeeps.trans ht⟩

theorem Bodied.of_bodies (h : s.Bodied) (ht : s.table.Keeps s'.table) (hg : Grows s s')
    (hids : ∀ i id', s'.table.get? i = some id' → id'.body = none ∨
      ∃ id, s.table.get? i = some id ∧ id'.body = id.body ∧ id'.value = id.value ∧
        id'.name = id.name) : s'.Bodied := by
  intro i id' b hid' hb
  rcases hids i id' hid' with hnone | ⟨id, hid, hbody, hvalue, hname⟩
  · rw [hnone] at hb
    cases hb
  · rw [hvalue, hname]
    exact (h i id b hid (hbody ▸ hb)).keeps ht hg

namespace KeepsBodies

theorem of_bodies (ht : s.table.Lasts s'.table) (hg : Grows s s')
    (hids : ∀ i id', s'.table.get? i = some id' → id'.body = none ∨
      ∃ id, s.table.get? i = some id ∧ id'.body = id.body ∧ id'.value = id.value ∧
        id'.name = id.name) : s.KeepsBodies s' :=
  ⟨ht, hg, fun h => h.of_bodies ht.keeps hg hids⟩

theorem of_table (ht : s'.table = s.table) (hg : Grows s s') : s.KeepsBodies s' :=
  .of_bodies (ht ▸ .refl _) hg fun _ id' hid' => .inr ⟨id', ht ▸ hid', rfl, rfl, rfl⟩

theorem trans (h : s.KeepsBodies s') (h' : s'.KeepsBodies s'') : s.KeepsBodies s'' :=
  ⟨h.lasts.trans h'.lasts, h.grows.trans h'.grows, fun hs => h'.bodied (h.bodied hs)⟩

theorem modify {f : Ident → Ident} (hf : ∀ id, s.table.get? i = some id → id.Like (f id) ∧
    ((f id).body = none ∨ (f id).body = id.body ∧ (f id).value = id.value)) :
    s.KeepsBodies (s.modifyIdent i f) := by
  refine .of_bodies (.modify _ fun id hid => (hf id hid).1) (.refl s) fun j id' hid' => ?_
  rw [modifyIdent, Table.get?_modify] at hid'
  split at hid'
  next hj =>
    subst hj
    obtain ⟨id, hid, rfl⟩ := Option.map_eq_some_iff.mp hid'
    obtain ⟨hlike, hbody⟩ := hf id hid
    exact hbody.imp_right fun hsame => ⟨id, hid, hsame.1, hsame.2, hlike.1⟩
  next => exact .inr ⟨id', hid', rfl, rfl, rfl⟩

end KeepsBodies

end Interp

end Keeping

instance : Guarantee.bodied.Indifferent where
  refl s := .of_table rfl (.refl s)
  trans h h' := h.trans h'
  later _ _ := trivial
  aside h := .of_table (by rw [h.same]) h.kept
  stamp s := .of_table rfl (.refl s)
  push {s name} unknown hn hx := by
    refine .of_bodies (.push rfl hx hn) (.refl s) fun i id' hid' => ?_
    rw [Table.get?_push] at hid'
    split at hid'
    · cases hid'
      exact .inl rfl
    · exact .inr ⟨id', hid', rfl, rfl, rfl⟩
  withoutWhile h _ := h.elim
  rebound {s s'} h := by
    have hgrows : Grows s s' := by
      rw [h.same]
      exact .refl s
    refine .of_bodies h.table.lasts hgrows fun i id' hid' => ?_
    cases hid : s.table.get? i with
    | none =>
        rw [h.table.get?_eq_none hid] at hid'
        cases hid'
    | some id =>
        obtain ⟨id₂, hid₂, hsame⟩ := h.table.idents i id hid
        cases hid₂.symm.trans hid'
        exact hsame.body.imp_right fun ⟨hbody, hvalue⟩ => ⟨id, rfl, hbody, hvalue, hsame.like.1⟩
  entered _ h := h
  left _ _ h := ⟨h.lasts, h.grows, h.bodied⟩

section Bodies

variable {s : Interp} {i : Nat} {id : Ident}

/-- A text is compiled, and the block is kept as the body of the identifier. -/
theorem keepsBodies_compiled {out : Compile.Output} (hid : s.table.get? i = some id)
    (hout : out = compile s.table id.value.toBytes id.name) {s₁ : Interp}
    (hs₁ : s.KeepsBodies s₁) (ht : s₁.table = out.table)
    (hc : s₁.compiled s.table id.value.toBytes id.name) :
    s.KeepsBodies (s₁.modifyIdent i fun id => { id with body := some out.block }) ∧
      (s₁.modifyIdent i fun id => { id with body := some out.block }).WasCompiled id.value.toBytes
        id.name out.block := by
  have hlasts : s₁.table.Lasts (s₁.modifyIdent i fun id => { id with body := some out.block }).table :=
    .modify _ fun _ _ => ⟨rfl, rfl⟩
  have hcompiled : (s₁.modifyIdent i fun id => { id with body := some out.block }).WasCompiled
      id.value.toBytes id.name out.block := by
    refine ⟨s.table, hc, by rw [hout], ?_⟩
    rw [← hout, ← ht]
    exact hlasts.keeps
  refine ⟨⟨hs₁.lasts.trans hlasts, hs₁.grows, fun hs j id' b hid' hb => ?_⟩, hcompiled⟩
  have hget := Table.get?_modify s₁.table i (fun id => { id with body := some out.block }) j
  rw [show (s₁.modifyIdent i fun id => { id with body := some out.block }).table.get? j = _ from hget]
    at hid'
  split at hid'
  next hj =>
    subst hj
    obtain ⟨id₁, hid₁, rfl⟩ := Option.map_eq_some_iff.mp hid'
    cases hb
    rw [ht, hout, Compile.compile_table] at hid₁
    cases hid₁.symm.trans
      ((Compile.program_makes s.table id.value.toBytes id.name).1.names.get? hid)
    exact hcompiled
  next => exact (hs₁.bodied hs j id' b hid' hb).keeps hlasts.keeps (.refl s₁)

/-- The body of an identifier, which is compiled if it is not kept. Its bindings stay, and nothing
changes that calls go by. -/
theorem outcome_bodyOf (hid : s.table.get? i = some id) :
    ∃ b s', outcome (bodyOf i) s = (.ok b, s') ∧
      (s.Bodied → s'.WasCompiled id.value.toBytes id.name b) ∧
      s.KeepsBodies s' ∧ s'.scopes = s.scopes ∧
      ∀ j id₀, s.table.get? j = some id₀ → (s'.table.get? j).map (·.value) = some id₀.value := by
  unfold bodyOf
  rw [outcome_bind_ok (outcome_identAt hid)]
  cases hbody : id.body with
  | some b =>
      exact ⟨b, s, rfl, fun hs => hs i id b hid hbody, .of_table rfl (.refl s), rfl,
        fun j id₀ h => by rw [h]; rfl⟩
  | none =>
      dsimp only
      obtain ⟨texts, hcompile⟩ := outcome_compileText id.value.toBytes id.name s
      have hgains : s.table.Gains (compile s.table id.value.toBytes id.name).table := by
        rw [Compile.compile_table]
        exact (Compile.program_makes s.table id.value.toBytes id.name).1
      generalize hout : compile s.table id.value.toBytes id.name = out at hcompile hgains
      have hafter : s.KeepsBodies (warned texts (s.addCompiled id.value.toBytes id.name out.table)) :=
        Guarantee.Composes.trans (G := .bodied) (Guarantee.Composes.gains (G := .bodied) hgains)
          (Guarantee.Composes.aside (G := .bodied) ⟨rfl, fun _ _ _ => .inl⟩)
      obtain ⟨hkeeps, hcompiled⟩ :=
        keepsBodies_compiled hid hout.symm hafter rfl (.inr ⟨rfl, rfl, rfl⟩)
      refine ⟨out.block, _, outcome_bind_ok hcompile _, fun _ => hcompiled, hkeeps, rfl,
        fun j id₀ h => ?_⟩
      have hget := Table.get?_modify out.table i (fun id => { id with body := some out.block }) j
      rw [hgains.names.get? h] at hget
      refine (congrArg (Option.map (·.value)) hget).trans ?_
      split <;> rfl

instance : Guarantee.bodied.Lawful where
  rewrite h := .modify fun id hid => ⟨(h id hid).like, (h id hid).body⟩
  bodyOf i := fun s _ => by
    cases hid : s.table.get? i with
    | none =>
        unfold bodyOf
        rw [outcome_bind_error (outcome_identAt_none hid)]
        exact ⟨.of_table rfl (.refl s), False.elim⟩
    | some id =>
        obtain ⟨b, s', hok, -, hkept, -⟩ := outcome_bodyOf hid
        rw [hok]
        exact ⟨hkept, False.elim⟩
  cell {_} hk {_ i _ _ _ c _} _ _ _ _ :=
    Meets.bindAt (Meets.changeAt fun _ => by
      cases c <;> exact Interp.KeepsBodies.of_table rfl (.refl _))
      fun _ s' _ => meets_notify hk i s'
  mode s _ := .of_table rfl (.refl s)
  setAlias i v := Meets.read fun _ =>
    .bind (fun s => Meets.changeAt fun _ => .of_table rfl (.refl s)) fun _ _ =>
      Meets.changeAt fun _ => .modify fun _ _ => ⟨⟨rfl, rfl⟩, .inl rfl⟩

namespace Interp

theorem Occurs.modify {f : Interp → Interp} (h : s.Occurs) (hf : IsPart (modify f)) :
    (f s).Occurs :=
  h.part hf

private theorem bodied_new : Interp.new.Bodied := by
  intro i id b hid hb
  have hnone := of_get?_new (p := (·.body.isNone)) (by decide) hid
  rw [hb] at hnone
  cases hnone

theorem Bodied.registered (h : s.Bodied) (hd : s.table.Distinct) (hid : id.Registered) :
    (Request.registered s (s.register id)).Bodied := by
  have hgrows : Grows s (Request.registered s (s.register id)) := by
    unfold Grows
    rw [compiled_registered]
    exact fun _ _ _ h => h
  refine h.of_bodies (keeps_registered hd id).1 hgrows fun i id' hid' => ?_
  rcases get?_registered hid' with hold | ⟨rfl, -⟩
  · exact .inr ⟨id', hold, rfl, rfl, rfl⟩
  · exact .inl (congrArg Ident.body hid.blank)

theorem Arises.bodied (h : s.Arises) : s.Bodied := by
  induction h with
  | new => exact bodied_new
  | @move s hs m ih =>
      rcases m.meets (G := .bodied) trivial with ht | ⟨-, id, hid, heq⟩
      · exact ht.bodied ih
      · rw [heq]
        exact ih.registered hs.intact.distinct hid

theorem Occurs.bodied (h : s.Occurs) : s.Bodied ∧ maxArgs ≤ s.table.size := by
  induction h with
  | host h =>
      refine ⟨h.bodied, Nat.le_of_not_lt fun hlt => ?_⟩
      have hslot := h.intact.slots _ (Nat.lt_of_lt_of_le hlt (Nat.le_refl _))
      rw [Table.label?, Table.get?_eq_none (Nat.le_refl _)] at hslot
      cases hslot
  | @part α m s _ hm ih =>
      obtain ⟨hs, hsize⟩ := ih
      have hkept := (hm .bodied inferInstance inferInstance s trivial).1
      exact ⟨hkept.bodied hs, Nat.le_trans hsize hkept.lasts.keeps.size⟩
  | enter _ _ ih => exact ih

end Interp

theorem Engine.WritesValue.isPart {m : Engine Unit} (h : WritesValue m) : IsPart m := by
  intro G _ _
  cases h with
  | setAlias i v => exact Guarantee.Based.setAlias i v
  | setValue i v => exact Guarantee.Based.setValue i v
  | setArg i v => exact Guarantee.Binds.setArg i v
  | bindArg i => exact Guarantee.Binds.bindArg i
  | pushArg i v => exact meets_pushArg i v
  | popArg i => exact meets_popArg i
  | pushAlias i => exact meets_pushAlias i
  | popAlias i => exact meets_popAlias i
  | takeArgs is => exact (Meets.mapM meets_takeArg is).bind fun _ => .pure _
  | leaveOuter caller taken => exact meets_leaveOuter caller taken
  | clearOverride n i => exact Guarantee.Based.clearOverride (meets_run n) i

private theorem isPart_step (n : Nat) (b : Block) {a : Activation}
    (ha : a.stack.length ≤ maxOperands) :
    IsPart (step (run n) b a) :=
  fun _ _ _ => meets_step_of (fun _ w a hop ha => meets_perform (meets_run n) b a hop ha w) ha

/-- The body that is kept for an identifier is what the text of the value that it has was compiled to
under its name, by the table that there was when that was done. This is so wherever an interpreter
occurs: at rest, after every single write, and after every instruction, from which there follow the
writes and the instructions of the code that it runs in turn. -/
theorem kept_bodies_are_current (h : s.Occurs) :
    (∀ i id b, s.table.get? i = some id → id.body = some b →
      s.WasCompiled id.value.toBytes id.name b) ∧
    (∀ m, WritesValue m → (outcome m s).2.Occurs) ∧
    ∀ n b a, a.stack.length ≤ maxOperands → (outcome (step (run n) b a) s).2.Occurs :=
  ⟨h.bodied.1, fun _ hm => h.part hm.isPart, fun n b _ ha => h.part (isPart_step n b ha)⟩

/-- A host that has called an alias, and once more after giving it another value. -/
def redefinedAlias : Interp :=
  (Move.request (.execute (utf8 "f = [result 1]; f; f = [result 2]; f"))).perform .new

/-- What is kept is what the later value is compiled to, also after the first instruction of it. -/
theorem kept_bodies_are_current_redefined :
    ∃ id b, redefinedAlias.table.get? 121 = some id ∧ id.body = some b ∧
      redefinedAlias.WasCompiled (utf8 "result 2") (utf8 "f") b ∧
      (outcome (step (run 3) b { pc := 1 }) redefinedAlias).2.Bodied := by
  have hkept : (redefinedAlias.table.get? 121).any (fun id => id.body.isSome &&
      id.value.toBytes == utf8 "result 2" && id.name == utf8 "f") = true := by decide +kernel
  obtain ⟨id, hid, hall⟩ := (Option.any_eq_true _ _).mp hkept
  simp only [Bool.and_eq_true, beq_iff_eq] at hall
  obtain ⟨⟨hsome, htext⟩, hname⟩ := hall
  obtain ⟨b, hbody⟩ := Option.isSome_iff_exists.mp hsome
  obtain ⟨hcurrent, -, hsteps⟩ := kept_bodies_are_current (.host (.move .new _) : redefinedAlias.Occurs)
  refine ⟨id, b, hid, hbody, ?_, (hsteps 3 b { pc := 1 } (Nat.zero_le _)).bodied.1⟩
  rw [← htext, ← hname]
  exact hcurrent 121 id b hid hbody

end Bodies

section Calls

variable {s s' : Interp} {i n : Nat} {id : Ident} {args : List Value}

/-- Values are bound one after the other, from an index on. -/
theorem outcome_pushArgs_from (args : List Value) (n : Nat) (s : Interp) :
    ∃ t, outcome ((args.zipIdx n).forM fun (v, i) => pushArg i v) s =
        (.ok ⟨⟩, { s with table := t }) ∧
      ∀ j, t.get? j = (s.table.get? j).map fun id =>
        if n ≤ j then (args[j - n]?).elim id id.pushValue else id := by
  induction args generalizing n s with
  | nil => exact ⟨s.table, rfl, fun j => by simp⟩
  | cons v rest ih =>
      obtain ⟨t, hrest, ht⟩ := ih (n + 1) (s.modifyIdent n (·.pushValue v))
      refine ⟨t, hrest, fun j => ?_⟩
      rw [ht, Interp.modifyIdent, Table.get?_modify]
      rcases Nat.lt_trichotomy j n with hj | rfl | hj
      · have hbefore : ¬n + 1 ≤ j ∧ ¬n ≤ j := by omega
        simp only [if_neg (Nat.ne_of_gt hj), if_neg hbefore.1, if_neg hbefore.2]
      · simp only [if_neg (Nat.not_succ_le_self j), if_pos (Nat.le_refl j), Nat.sub_self,
          List.getElem?_cons_zero, Option.elim_some, reduceIte, Option.map_id']
      · have hbehind : n + 1 ≤ j ∧ n ≤ j ∧ j - n = (j - (n + 1)) + 1 := by omega
        obtain ⟨hnext, hle, hsub⟩ := hbehind
        simp only [if_neg (Nat.ne_of_lt hj), if_pos hnext, if_pos hle, hsub, List.getElem?_cons_succ]

private theorem outcome_ensuring_ok {α β : Type} {m : Engine α} {f : α → Engine β}
    {cleanup : Engine Unit}
    {a : α} (h : outcome m s = (.ok a, s')) :
    outcome (ensuring (m >>= f) cleanup) s = outcome (ensuring (f a) cleanup) s' := by
  rw [outcome_ensuring, outcome_ensuring, outcome_bind_ok h]

private theorem outcome_protect_congr {m m' : Engine Value} (h : outcome m s = outcome m' s) :
    outcome (protect m) s = outcome (protect m') s := by
  rw [outcome_protect, outcome_protect, h]

private theorem isPart_bodyOf (i : Nat) : IsPart (bodyOf i) := fun _ _ _ => Guarantee.Based.bodyOf i

/-- An interpreter in which a call has begun. -/
theorem occurs_entered (h : s.Occurs) (ident : Nat) (overridden : Bool) (args : List Value) {t : Table}
    (ht : outcome ((args.zipIdx 0).forM fun (v, i) => pushArg i v) s =
      (.ok ⟨⟩, { s with table := t })) :
    Interp.Occurs { ({ s with table := t } : Interp).enterFlags overridden with
      callArgs := Int32.ofNat args.length
      scopes := ⟨ident, SlotSet.below args.length⟩ :: s.scopes } := by
  have hpushed : Interp.Occurs { s with table := t } := by
    have hafter := h.part (m := (args.zipIdx 0).forM fun (v, i) => pushArg i v)
      fun _ _ _ => Meets.forM (fun _ => meets_pushArg _ _) _
    rw [ht] at hafter
    exact hafter
  exact (hpushed.enter overridden).modify (f := fun s' => { s' with
    callArgs := Int32.ofNat args.length
    scopes := ⟨ident, SlotSet.below args.length⟩ :: s'.scopes }) fun _ _ _ => meets_rescope fun _ => rfl

/-- A call is the run of a block from an interpreter in which the first slots hold the arguments, and
what there is to be done when it has ended. -/
theorem outcome_callAlias (h : s.Occurs) (hid : s.table.get? i = some id) (hn : args.length ≤ maxArgs)
    (ret : RetTag) : ∃ b s₁, (∀ k, outcome (callAlias k i args ret) s = outcome (ensuring
        (do return (← k b 1).1.force ret) (leaveCall args.length s.callArgs s.writeFlags)) s₁) ∧
      s₁.HasCompiled (args.getD i id.value).toBytes id.name b ∧ s₁.Occurs ∧
      s₁.scopes = ⟨i, SlotSet.below args.length⟩ :: s.scopes ∧
      ∀ j < args.length, (s₁.table.get? j).map (·.value) = args[j]? := by
  obtain ⟨t, hpush, ht⟩ := outcome_pushArgs_from args 0 s
  let inside : Interp := { ({ s with table := t } : Interp).enterFlags id.flags.overridden with
    callArgs := Int32.ofNat args.length
    scopes := ⟨i, SlotSet.below args.length⟩ :: s.scopes }
  have hentered : inside.Occurs := occurs_entered h i id.flags.overridden args hpush
  have hget (j : Nat) : t.get? j = (s.table.get? j).map fun id => (args[j]?).elim id id.pushValue := by
    rw [ht]
    simp
  obtain ⟨id₀, hid₀, hname, hvalue⟩ : ∃ id₀, t.get? i = some id₀ ∧ id₀.name = id.name ∧
      id₀.value = args.getD i id.value := by
    rw [hget, hid, List.getD_eq_getElem?_getD]
    cases args[i]? with
    | none => exact ⟨id, rfl, rfl, rfl⟩
    | some v => exact ⟨id.pushValue v, rfl, rfl, rfl⟩
  obtain ⟨b, s₁, hbody, hcompiled, -, hscopes, hvalues⟩ :=
    outcome_bodyOf (show inside.table.get? i = some id₀ from hid₀)
  refine ⟨b, s₁, fun k => ?_, hvalue ▸ hname ▸ (hcompiled hentered.bodied.1).hasCompiled, ?_, hscopes,
    fun j hj => ?_⟩
  · rw [callAlias, outcome_bind_ok (outcome_identAt hid), withArgs, outcome_bind_ok hpush]
    exact outcome_ensuring_ok hbody
  · have hafter := hentered.part (isPart_bodyOf i)
    rw [hbody] at hafter
    exact hafter
  · obtain ⟨id₂, hid₂⟩ : ∃ id₂, s.table.get? j = some id₂ :=
      Table.exists_get? (Nat.lt_of_lt_of_le hj (Nat.le_trans hn h.bodied.2))
    have hslot : t.get? j = some (id₂.pushValue args[j]) := by
      rw [hget, hid₂, List.getElem?_eq_getElem hj]
      rfl
    rw [hvalues j _ hslot, List.getElem?_eq_getElem hj]
    rfl

/-- Where code, a computed name or the host calls an alias that can be called, they do so in the same
way. -/
theorem Interp.CanCall.reached (h : s.CanCall i id) (args : List Value) (ret : RetTag) :
    (∀ k name, outcome (callFound k name i id args ret) s = outcome (callAlias k i args ret) s) ∧
    (∀ k n a, outcome (Activation.window n a) s = (.ok args, s) →
      outcome (callIdent k i id (decide (i < maxArgs)) n ret a) s =
        outcome (do return (a.drop n).setResult ((← callAlias k i args ret).force ret)) s) ∧
    outcome (executeIdent i args) s =
      outcome (protect (callAlias (run s.maxDepth.toNat) i (args.take maxArgs) .null)) s := by
  have hunbound : (decide (i < maxArgs) && !s.isBound i) = false := by
    by_cases hi : i < maxArgs
    · rw [h.bound hi, Bool.not_true, Bool.and_false]
    · rw [decide_eq_false hi, Bool.false_and]
  refine ⟨fun k name => ?_, fun k n a hwindow => ?_, ?_⟩
  · unfold callFound
    rw [h.role]
    dsimp only
    rw [if_neg (by rw [h.known]; decide), outcome_bind_ok (outcome_get s), if_neg]
    rw [hunbound]
    decide
  · have hdefined : outcome (isUndefined i id (decide (i < maxArgs))) s = (.ok false, s) := by
      unfold isUndefined
      by_cases hi : i < maxArgs
      · rw [decide_eq_true hi, if_pos rfl, outcome_bind_ok (outcome_get s), h.bound hi]
        rfl
      · rw [decide_eq_false hi, if_neg (by decide), if_neg (by rw [h.known]; decide), h.known]
        rfl
    unfold callIdent
    rw [outcome_bind_ok hdefined, if_neg (by decide), outcome_bind_ok hwindow]
  · have hcalled : outcome (do
        let id ← identAt i
        if id.role.isAlias then
          if id.flags.unknown then
            debug (utf8 "unknown command: " ++ id.name)
            return .null
          else callAlias (run s.maxDepth.toNat) i (args.take maxArgs) .null
        else if isCallable id then
          ensuringLevel (.taking .host) .untaken
            (callShaped (run s.maxDepth.toNat) i id false (args.take maxArgs))
        else return .null) s =
          outcome (callAlias (run s.maxDepth.toNat) i (args.take maxArgs) .null) s := by
      rw [outcome_bind_ok (outcome_identAt h.found), if_pos (by rw [h.role]; rfl),
        if_neg (by rw [h.known]; decide)]
    rw [executeIdent, outcome_runner]
    exact outcome_protect_congr hcalled

/-- An alias that can be called runs, wherever and however it is called, a block that its text was
compiled to: the text of its value, or of the argument that is bound to it, if it is an argument slot
and there is such an argument. When the block begins to run the first slots hold the arguments, and no
others are bound. -/
theorem calls_run_text_of_callee (h : s.Occurs) (hcall : s.CanCall i id) (hn : args.length ≤ maxArgs)
    (ret : RetTag) :
    (∃ b s₁, (∀ k, outcome (callAlias k i args ret) s = outcome (ensuring
        (do return (← k b 1).1.force ret) (leaveCall args.length s.callArgs s.writeFlags)) s₁) ∧
      s₁.HasCompiled (args.getD i id.value).toBytes id.name b ∧ s₁.Occurs ∧
      (∀ j < args.length, (s₁.table.get? j).map (·.value) = args[j]?) ∧
      ∀ j < maxArgs, s₁.isBound j = decide (j < args.length)) ∧
    (∀ k name, outcome (callFound k name i id args ret) s = outcome (callAlias k i args ret) s) ∧
    (∀ k n a, outcome (Activation.window n a) s = (.ok args, s) →
      outcome (callIdent k i id (decide (i < maxArgs)) n ret a) s =
        outcome (do return (a.drop n).setResult ((← callAlias k i args ret).force ret)) s) ∧
    outcome (executeIdent i args) s =
      outcome (protect (callAlias (run s.maxDepth.toNat) i (args.take maxArgs) .null)) s := by
  refine ⟨?_, hcall.reached args ret⟩
  obtain ⟨b, s₁, hruns, hcompiled, hoccurs, hscopes, hvalues⟩ := outcome_callAlias h hcall.found hn ret
  refine ⟨b, s₁, hruns, hcompiled, hoccurs, hvalues, fun j _ => ?_⟩
  rw [Interp.isBound, Interp.used, hscopes]
  exact SlotSet.has_below (Nat.lt_of_le_of_lt hn (by decide)) j

/-- A host that has given an argument slot and an alias values. -/
def namingCode : Interp :=
  (Move.request (.execute (utf8 "arg1 = [echo hi]; f = [echo $arg1]"))).perform .new

/-- The slot runs its argument, and the alias its value. -/
theorem calls_run_text_of_callee_bound : ∃ b s₁ b' s₁',
    (∀ k, outcome (callAlias k 0 [.ofBytes (utf8 "echo x")] .null) namingCode = outcome (ensuring
      (do return (← k b 1).1.force .null) (leaveCall 1 namingCode.callArgs namingCode.writeFlags)) s₁) ∧
    s₁.HasCompiled (utf8 "echo x") (utf8 "arg1") b ∧
    (∀ k, outcome (callAlias k 121 [.ofBytes (utf8 "echo x")] .null) namingCode = outcome (ensuring
      (do return (← k b' 1).1.force .null) (leaveCall 1 namingCode.callArgs namingCode.writeFlags)) s₁') ∧
    s₁'.HasCompiled (utf8 "echo $arg1") (utf8 "f") b' := by
  have hoccurs : namingCode.Occurs := .host (.move .new _)
  have hcan (i : Nat) (name text : Bytes) (h : (namingCode.table.get? i).any (fun id =>
      id.role.isAlias && !id.flags.unknown && id.name == name && id.value.toBytes == text) = true ∧
        (namingCode.isBound i = true ∨ maxArgs ≤ i)) :
      ∃ id, namingCode.CanCall i id ∧ id.name = name ∧ id.value.toBytes = text := by
    obtain ⟨hsome, hbound⟩ := h
    obtain ⟨id, hid, hall⟩ := (Option.any_eq_true _ _).mp hsome
    simp only [Bool.and_eq_true, Bool.not_eq_true', beq_iff_eq] at hall
    obtain ⟨⟨⟨halias, hknown⟩, hname⟩, htext⟩ := hall
    refine ⟨id, ⟨hid, ?_, hknown, fun hi => hbound.resolve_right (Nat.not_le.mpr hi)⟩, hname, htext⟩
    exact Role.eq_alias_of_form ((Role.isAlias_iff .layout _).mp halias)
  have hall : ∀ p ∈ [(0, utf8 "arg1", utf8 "echo hi"), (121, utf8 "f", utf8 "echo $arg1")],
      (namingCode.table.get? p.1).any (fun id => id.role.isAlias && !id.flags.unknown &&
        id.name == p.2.1 && id.value.toBytes == p.2.2) = true ∧
        (namingCode.isBound p.1 = true ∨ maxArgs ≤ p.1) := by decide +kernel
  obtain ⟨slot, hslot, hname, -⟩ := hcan 0 (utf8 "arg1") (utf8 "echo hi") (hall _ List.mem_cons_self)
  obtain ⟨f, hf, hname', htext⟩ := hcan 121 (utf8 "f") (utf8 "echo $arg1")
    (hall _ (List.mem_cons_of_mem _ List.mem_cons_self))
  have hn : [Value.ofBytes (utf8 "echo x")].length ≤ maxArgs := by decide
  obtain ⟨⟨b, s₁, hruns, hcompiled, -⟩, -⟩ := calls_run_text_of_callee hoccurs hslot hn .null
  obtain ⟨⟨b', s₁', hruns', hcompiled', -⟩, -⟩ := calls_run_text_of_callee hoccurs hf hn .null
  refine ⟨b, s₁, b', s₁', hruns, hname ▸ hcompiled, hruns', ?_⟩
  rw [hname'] at hcompiled'
  exact htext ▸ hcompiled'

end Calls

end ConsoleScript
