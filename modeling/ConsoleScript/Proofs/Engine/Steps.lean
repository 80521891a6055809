import ConsoleScript.Proofs.Engine.Calls

/-!
Instructions are safe. An instruction of code that can be run finds the operands that it takes, the
operands that it leaves fit the stack, and the run can go on behind it.
-/

namespace ConsoleScript

open Bytecode Engine

/-- The instructions of one word that neither call by index nor change the order of execution. -/
def Bytecode.Op.isPlain : Op → Bool
  | .start | .offset | .exit | .bool | .down | .enter | .enterResult | .val | .valInline | .view
  | .block | .local | .jump | .jumpTrue | .jumpFalse | .jumpResultTrue | .jumpResultFalse
  | .comAll | .comJoined | .call | .callArg => false
  | _ => true

theorem Rigour.Moves.spec {r : Rigour} {k l h m : Nat} (hm : r.Moves k l h m) (hr : r ≠ .layout) :
    k ≤ h ∧ m + k = h + l ∧ (r = .room → m ≤ maxOperands) :=
  hm.resolve_left hr

/-- The operands and the result of a run are good, and there are `h` operands where their number
counts. -/
structure Activation.Ok (r : Rigour) (t : Table) (h : Nat) (a : Activation) : Prop where
  height : r ≠ .layout → a.stack.length = h
  stack : ∀ v ∈ a.stack, v.Ok r t
  result : a.result.Ok r t

namespace Activation.Ok

variable {r : Rigour} {t t' : Table} {h m n : Nat} {a : Activation} {v : Value}

theorem mono (ha : a.Ok r t h) (ht : t.Extends r t') : a.Ok r t' h :=
  ⟨ha.height, fun v hv => (ha.stack v hv).mono ht, ha.result.mono ht⟩

theorem setResult (ha : a.Ok r t h) (hv : v.Ok r t) : (a.setResult v).Ok r t h :=
  ⟨ha.height, ha.stack, hv⟩

private theorem push (ha : a.Ok r t h) (hv : v.Ok r t) :
    Ok r t (h + 1) { a with stack := v :: a.stack } := by
  refine ⟨fun hr => congrArg (· + 1) (ha.height hr), fun u hu => ?_, ha.result⟩
  rcases List.mem_cons.mp hu with rfl | hu
  · exact hv
  · exact ha.stack u hu

theorem drop (ha : a.Ok r t h) (hm : r ≠ .layout → m + n = h) : (a.drop n).Ok r t m := by
  refine ⟨fun hr => ?_, fun v hv => ha.stack v (List.mem_of_mem_drop hv), ha.result⟩
  have := ha.height hr
  have := hm hr
  simp only [Activation.drop, List.length_drop]
  omega

theorem stay (ha : a.Ok r t h) (hm : r.Moves 0 0 h m) : a.Ok r t m :=
  ⟨fun hr => (ha.height hr).trans (hm.spec hr).2.1.symm, ha.stack, ha.result⟩

end Activation.Ok

namespace World

variable {α : Type} {r : Rigour} {w w' : World r} {k : Runner} {b : Block} {a : Activation}
  {h m n i : Nat} {v : Value} {Q : Interp → α → Prop} {ret : RetTag}

/-- A run with the given number of operands, at the same position and with the same locals. -/
def Leaves (r : Rigour) (a : Activation) (m : Nat) (s : Interp) (a' : Activation) : Prop :=
  a'.Ok r s.table m ∧ a'.pc = a.pc ∧ a'.locals = a.locals

theorem Leaves.behind {a' a'' : Activation} {s s' : Interp} (h : Leaves r a' m s a'')
    (h' : Leaves r a n s' a') : Leaves r a m s a'' :=
  ⟨h.1, h.2.1.trans h'.2.1, h.2.2.trans h'.2.2⟩

theorem permits_of_height {c : Fault.Cause} (hr : r ≠ .layout → False) :
    r.Permits (.fault { cause := c }) := by
  cases r with
  | layout => trivial
  | _ => exact (hr (by decide)).elim

theorem safe_push (ha : w.live → a.Ok r w.state.table h) (hv : w.Good v)
    (hm : w.live → r ≠ .layout → m = h + 1 ∧ (r = .room → m ≤ maxOperands)) :
    w.Safe (a.push v) (Leaves r a m) := by
  refine .ite (fun _ => .pure fun hl => ?_) fun hfull => .fail fun hl => ?_
  · have hok := (ha hl).push (hv hl)
    exact ⟨⟨fun hr => (hm hl hr).1 ▸ hok.height hr, hok.stack, hok.result⟩, rfl, rfl⟩
  · cases r with
    | layout => trivial
    | operands => rfl
    | room =>
        obtain ⟨hm, hroom⟩ := hm hl (by decide)
        have := (ha hl).height (by decide)
        have := hroom rfl
        omega

theorem Safe.pop {f : Value × Activation → Engine α} (ha : w.live → a.Ok r w.state.table h)
    (hh : w.live → r ≠ .layout → 1 ≤ h)
    (hf : ∀ v, w.Good v → w.Safe (f (v, a.drop 1)) Q) : w.Safe (a.pop >>= f) Q := by
  unfold Activation.pop
  cases hs : a.stack with
  | nil =>
      refine ⟨.error (.refl _), fun hl _ => ⟨.refl (w.inv hl), permits_of_height fun hr => ?_⟩⟩
      have := (ha hl).height hr
      have := hh hl hr
      rw [hs, List.length_nil] at *
      omega
  | cons v rest =>
      have hdrop : a.drop 1 = { a with stack := rest } := by rw [Activation.drop, hs]; rfl
      have hrest := hf v fun hl => (ha hl).stack v (hs ▸ List.mem_cons_self)
      rw [hdrop] at hrest
      exact hrest

theorem Safe.top {f : Value × List Value → Engine α} (ha : w.live → a.Ok r w.state.table h)
    (hh : w.live → r ≠ .layout → 1 ≤ h)
    (hf : ∀ v rest, a.stack = v :: rest → w.Safe (f (v, rest)) Q) : w.Safe (a.top >>= f) Q := by
  unfold Activation.top
  cases hs : a.stack with
  | nil =>
      refine ⟨.error (.refl _), fun hl _ => ⟨.refl (w.inv hl), permits_of_height fun hr => ?_⟩⟩
      have := (ha hl).height hr
      have := hh hl hr
      rw [hs, List.length_nil] at *
      omega
  | cons v rest => exact hf v rest hs

theorem safe_replaceTop {f : Value → Engine Value} (ha : w.live → a.Ok r w.state.table h)
    (hm : w.live → r.Moves 1 1 h m)
    (hf : ∀ v, w.Good v → w.Safe (f v) fun s v => v.Ok r s.table) :
    w.Safe (a.replaceTop f) (Leaves r a m) := by
  refine .top ha (fun hl hr => ((hm hl).spec hr).1) fun v rest hs => ?_
  refine (hf v fun hl => (ha hl).stack v (hs ▸ List.mem_cons_self)).bind fun w' v' hw hv' => ?_
  refine .pure fun hl => ⟨⟨fun hr => ?_, fun u hu => ?_, ?_⟩, rfl, rfl⟩
  · have hlen := (ha (hw hl).1).height hr
    have hmoves := ((hm (hw hl).1).spec hr).2.1
    rw [hs] at hlen
    simp only [List.length_cons] at hlen ⊢
    omega
  · rcases List.mem_cons.mp hu with rfl | hu
    · exact hv' hl
    · exact ((ha (hw hl).1).stack u (hs ▸ List.mem_cons_of_mem v hu)).mono (hw.forms hl)
  · exact (ha (hw hl).1).result.mono (hw.forms hl)

theorem Safe.window {f : List Value → Engine α} (ha : w.live → a.Ok r w.state.table h)
    (hh : w.live → r ≠ .layout → n ≤ h)
    (hf : ∀ vs, w.AllGood vs → vs.length = n → w.Safe (f vs) Q) : w.Safe (a.window n >>= f) Q := by
  unfold Activation.window
  split
  next hn =>
    refine hf _ (fun hl v hv => ?_) ?_
    · exact (ha hl).stack v (List.mem_of_mem_take (List.mem_reverse.mp hv))
    · rw [List.length_reverse, List.length_take]
      omega
  next hn =>
    refine ⟨.error (.refl _), fun hl _ => ⟨.refl (w.inv hl), permits_of_height fun hr => ?_⟩⟩
    have := (ha hl).height hr
    have := hh hl hr
    omega

theorem outcome_identIn (s : Interp) : outcome (a.identIn b i) s = match s.table.get? i with
    | some id => (.ok id, s)
    | none => (.error (.fault { cause := .identOutOfRange i, block := b.name, pc := a.pc - 1 }),
        s) := by
  unfold Activation.identIn
  rw [outcome_bind_ok (outcome_identAt? s i)]
  cases s.table.get? i <;> rfl

theorem Safe.identIn {f : Ident → Engine α} (hi : w.live → r ≠ .layout → i < w.state.table.size)
    (hf : ∀ id, w.state.table.get? i = some id → w.Safe (f id) Q) :
    w.Safe (a.identIn b i >>= f) Q := by
  have hread := outcome_identIn (a := a) (b := b) (i := i) w.state
  unfold Safe
  cases hid : w.state.table.get? i with
  | some id =>
      rw [hid] at hread
      rw [outcome_bind_ok hread]
      exact hf id hid
  | none =>
      rw [hid] at hread
      rw [outcome_bind_error hread]
      refine ⟨.error (.refl _), fun hl _ => ⟨.refl (w.inv hl), ?_⟩⟩
      cases r with
      | layout => trivial
      | operands | room =>
          obtain ⟨id, hid'⟩ := Table.exists_get? (hi hl (by decide))
          rw [hid] at hid'
          cases hid'

/-- The value of a variable of the kind that the instruction reads. -/
theorem safe_variableValue {op : Op} {f : Form} {id : Ident}
    (hid : w.state.table.get? i = some id) (hf : w.live → w.state.table.form? r i = some f)
    (hop : (op = .textVar ∨ op = .textVarView) ∧ f = .textVar ∨ op = .intVar ∧ f = .intVar ∨
      op = .floatVar ∧ f = .floatVar) :
    w.Safe (variableValue op ret id) fun s v => v.Ok r s.table := by
  have hform (hl : w.live) : id.role.form r = f := form_of_get? (hf hl) hid
  unfold variableValue
  rcases hop with ⟨rfl | rfl, rfl⟩ | ⟨rfl, rfl⟩ | ⟨rfl, rfl⟩
  all_goals
    cases hrole : id.role <;> first
      | exact .pure fun _ => trivial
      | exact .pure fun _ => Value.ok_lookedUp _ _ _ _ _
      | exact .read (.pure fun _ => Value.ok_lookedUp _ _ _ _ _)
      | exact .fail fun hl => absurd (hform hl) (by rw [hrole]; nofun)

/-- A value that is popped and stored, with what follows. -/
theorem safe_store {f : Value → Engine Unit} (ha : w.live → a.Ok r w.state.table h)
    (hm : w.live → r.Moves 1 0 h m) (hi : w.live → i < w.state.table.size)
    (hs : ∀ v, w.Good v → w.Safe (f v) fun _ _ => True) :
    w.Safe (do
      let _ ← a.identIn b i
      let (v, a) ← a.pop
      f v
      return a) (Leaves r a m) := by
  refine .identIn (fun hl _ => hi hl) fun _ _ => ?_
  refine .pop ha (fun hl hr => ((hm hl).spec hr).1) fun v hv => ?_
  refine (hs v hv).bind fun w' _ hw _ => .pure fun hl => ⟨?_, rfl, rfl⟩
  refine ((ha (hw hl).1).drop fun hr => ?_).mono (hw.forms hl)
  exact ((hm (hw hl).1).spec hr).2.1

theorem safe_load {f : Ident → Engine Value} (ha : w.live → a.Ok r w.state.table h)
    (hm : w.live → r.Moves 0 1 h m) (hi : w.live → i < w.state.table.size)
    (hload : ∀ id, w.state.table.get? i = some id → w.Safe (f id) fun s v => v.Ok r s.table) :
    w.Safe (do a.push (← f (← a.identIn b i))) (Leaves r a m) := by
  refine .identIn (fun hl _ => hi hl) fun id hid => (hload id hid).bind fun w' v hw hv => ?_
  refine safe_push (fun hl => (ha (hw hl).1).mono (hw.forms hl)) hv fun hl hr => ?_
  exact ((hm (hw hl).1).spec hr).2

private theorem safe_stepVariable (hk : RunsSafely r k) (b : Block) (ret : RetTag) {op : Op}
    {x y : Nat}
    (ha : w.live → a.Ok r w.state.table h) (hi : w.live → Plain r w.state.table op i x y)
    (hm : w.live → r.Moves x y h m)
    (hop : op ∈ [.textVar, .textVarView, .setTextVar, .intVar, .setIntVar, .setIntVar2, .setIntVar3,
      .floatVar, .setFloatVar, .print]) :
    w.Safe (stepVariable k b op ret i a) (Leaves r a m) := by
  simp only [List.mem_cons, List.not_mem_nil, or_false] at hop
  have hlt {f : Form} (hf : w.live → w.state.table.form? r i = some f) (hl : w.live) :
      i < w.state.table.size := Table.lt_size_of_form? (hf hl)
  -- Each instruction names a variable of its kind, and takes or leaves what it must.
  rcases hop with rfl | rfl | rfl | rfl | rfl | rfl | rfl | rfl | rfl | rfl
  · have hf (hl : w.live) : w.state.table.form? r i = some .textVar := by cases hi hl; assumption
    refine safe_load ha (fun hl => by cases hi hl; exact hm hl) (hlt hf) fun id hid => ?_
    exact safe_variableValue hid hf (.inl ⟨.inl rfl, rfl⟩)
  · have hf (hl : w.live) : w.state.table.form? r i = some .textVar := by cases hi hl; assumption
    refine safe_load ha (fun hl => by cases hi hl; exact hm hl) (hlt hf) fun id hid => ?_
    exact safe_variableValue hid hf (.inl ⟨.inr rfl, rfl⟩)
  · have hf (hl : w.live) : w.state.table.form? r i = some .textVar := by cases hi hl; assumption
    exact safe_store (f := fun v => setTextVar k i v.toBytes) ha
      (fun hl => by cases hi hl; exact hm hl) (hlt hf) fun v _ => safe_setTextVar hk _ hf
  · have hf (hl : w.live) : w.state.table.form? r i = some .intVar := by cases hi hl; assumption
    refine safe_load ha (fun hl => by cases hi hl; exact hm hl) (hlt hf) fun id hid => ?_
    exact safe_variableValue hid hf (.inr (.inl ⟨rfl, rfl⟩))
  · have hf (hl : w.live) : w.state.table.form? r i = some .intVar := by cases hi hl; assumption
    exact safe_store (f := fun v => setIntVar k i v.toInt) ha
      (fun hl => by cases hi hl; exact hm hl) (hlt hf) fun v _ => safe_setIntVar hk _ hf
  · have hf (hl : w.live) : w.state.table.form? r i = some .intVar := by cases hi hl; assumption
    have hm' (hl : w.live) : r.Moves 2 0 h m := by cases hi hl; exact hm hl
    have hone (hl : w.live) (hr : r ≠ .layout) : h - 1 + 1 = h := by
      have := ((hm' hl).spec hr).1
      omega
    refine .pop ha (fun hl hr => by have := hone hl hr; omega) fun y _ => ?_
    refine .pop (fun hl => (ha hl).drop (hone hl)) (fun hl hr => ?_) fun x _ => ?_
    · have := ((hm' hl).spec hr).1
      omega
    refine .identIn (fun hl _ => hlt hf hl) fun _ _ => ?_
    refine (safe_setIntVar hk _ hf).bind fun w' _ hw _ => .pure fun hl => ⟨?_, rfl, rfl⟩
    have hl := (hw hl).1
    refine (((ha hl).drop (hone hl)).drop fun hr => ?_).mono (hw.forms ‹_›)
    have := ((hm' hl).spec hr).2.1
    omega
  · have hf (hl : w.live) : w.state.table.form? r i = some .intVar := by cases hi hl; assumption
    have hm' (hl : w.live) : r.Moves 3 0 h m := by cases hi hl; exact hm hl
    have hone (hl : w.live) (hr : r ≠ .layout) : h - 1 + 1 = h := by
      have := ((hm' hl).spec hr).1
      omega
    have htwo (hl : w.live) (hr : r ≠ .layout) : h - 2 + 1 = h - 1 := by
      have := ((hm' hl).spec hr).1
      omega
    refine .pop ha (fun hl hr => by have := hone hl hr; omega) fun z _ => ?_
    refine .pop (fun hl => (ha hl).drop (hone hl)) (fun hl hr => by have := htwo hl hr; omega)
      fun y _ => ?_
    refine .pop (fun hl => ((ha hl).drop (hone hl)).drop (htwo hl)) (fun hl hr => ?_) fun x _ => ?_
    · have := ((hm' hl).spec hr).1
      omega
    refine .identIn (fun hl _ => hlt hf hl) fun _ _ => ?_
    refine (safe_setIntVar hk _ hf).bind fun w' _ hw _ => .pure fun hl => ⟨?_, rfl, rfl⟩
    have hl := (hw hl).1
    refine ((((ha hl).drop (hone hl)).drop (htwo hl)).drop fun hr => ?_).mono (hw.forms ‹_›)
    have := ((hm' hl).spec hr).2.1
    omega
  · have hf (hl : w.live) : w.state.table.form? r i = some .floatVar := by cases hi hl; assumption
    refine safe_load ha (fun hl => by cases hi hl; exact hm hl) (hlt hf) fun id hid => ?_
    exact safe_variableValue hid hf (.inr (.inr ⟨rfl, rfl⟩))
  · have hf (hl : w.live) : w.state.table.form? r i = some .floatVar := by cases hi hl; assumption
    exact safe_store (f := fun v => setFloatVar k i v.toSingle) ha
      (fun hl => by cases hi hl; exact hm hl) (hlt hf) fun v _ => safe_setFloatVar hk _ hf
  · have hi' (hl : w.live) : i < w.state.table.size := by
      cases hi hl
      exact Table.lt_size_of_form? ‹_›
    refine .identIn (fun hl _ => hi' hl) fun _ _ => ?_
    refine (safe_printVar hi').bind fun w' _ hw _ => .pure fun hl => ⟨?_, rfl, rfl⟩
    refine ((ha (hw hl).1).stay ?_).mono (hw.forms hl)
    cases hi (hw hl).1
    exact hm (hw hl).1

private theorem safe_aliasValue (id : Ident) (asView : Bool) :
    w.Safe (aliasValue id ret asView) fun s v => v.Ok r s.table := by
  refine .ite (fun _ => ?_) fun _ => .pure fun _ => Value.ok_lookedUp _ _ _ _ _
  exact (w.safe_debug _).bind fun _ _ _ _ => .pure fun _ => Value.ok_lookedUp _ _ _ _ _

private theorem safe_argValue (id : Ident) (asView : Bool) :
    w.Safe (argValue i id ret asView) fun s v => v.Ok r s.table :=
  .read (.ite (fun _ => .pure fun _ => Value.ok_lookedUp _ _ _ _ _) fun _ =>
    .pure fun _ => Value.ok_absent _ _ _ _)

theorem safe_replaceByName (hk : RunsSafely r k) {asView : Bool}
    (ha : w.live → a.Ok r w.state.table h) (hm : w.live → r.Moves 1 1 h m) :
    w.Safe (a.replaceTop fun v => match v.text? with
      | some name => lookupNamed k name ret asView
      | none => return v) (Leaves r a m) := by
  refine safe_replaceTop ha hm fun v hv => ?_
  split
  · exact safe_lookupNamed hk _ _ _
  · exact .pure hv

private theorem safe_stepAlias (hk : RunsSafely r k) (b : Block) (ret : RetTag) {op : Op}
    {x y : Nat}
    (ha : w.live → a.Ok r w.state.table h) (hi : w.live → Plain r w.state.table op i x y)
    (hm : w.live → r.Moves x y h m)
    (hop : op ∈ [.ident, .identNamed, .identArg, .lookup, .lookupNamed, .lookupArg, .lookupView,
      .lookupViewNamed, .lookupViewArg, .alias, .aliasNamed, .aliasArg]) :
    w.Safe (stepAlias k b op ret i a) (Leaves r a m) := by
  simp only [List.mem_cons, List.not_mem_nil, or_false] at hop
  have hform {f : Form} (hf : w.live → w.state.table.form? r i = some f) (hl : w.live) :
      i < w.state.table.size := Table.lt_size_of_form? (hf hl)
  have hslot (hs : w.live → i < maxArgs) (hl : w.live) : i < w.state.table.size :=
    (w.inv hl).table.slot_lt (hs hl)
  rcases hop with rfl | rfl | rfl | rfl | rfl | rfl | rfl | rfl | rfl | rfl | rfl | rfl
  · have hi' (hl : w.live) : i < w.state.table.size := by
      cases hi hl
      exact Table.lt_size_of_form? ‹_›
    refine .identIn (fun hl _ => hi' hl) fun _ _ => safe_push ha hi' fun hl hr => ?_
    cases hi hl
    exact ((hm hl).spec hr).2
  · exact safe_replaceTop ha (fun hl => by cases hi hl; exact hm hl) fun v _ => safe_identOf v
  · have hs (hl : w.live) : i < maxArgs := by cases hi hl; assumption
    refine .identIn (fun hl _ => hslot hs hl) fun _ _ => ?_
    refine (safe_bindArg hs).bind fun w' _ hw _ => ?_
    refine safe_push (fun hl => (ha (hw hl).1).mono (hw.forms hl)) (lt_later (hslot hs) hw)
      fun hl hr => ?_
    have hm' : r.Moves 0 1 h m := by cases hi (hw hl).1; exact hm (hw hl).1
    exact (hm'.spec hr).2
  · have hf (hl : w.live) : w.state.table.form? r i = some .alias := by cases hi hl; assumption
    exact safe_load ha (fun hl => by cases hi hl; exact hm hl) (hform hf) fun id _ =>
      safe_aliasValue id false
  · exact safe_replaceByName hk ha fun hl => by cases hi hl; exact hm hl
  · have hs (hl : w.live) : i < maxArgs := by cases hi hl; assumption
    exact safe_load ha (fun hl => by cases hi hl; exact hm hl) (hslot hs) fun id _ =>
      safe_argValue id false
  · have hf (hl : w.live) : w.state.table.form? r i = some .alias := by cases hi hl; assumption
    exact safe_load ha (fun hl => by cases hi hl; exact hm hl) (hform hf) fun id _ =>
      safe_aliasValue id true
  · exact safe_replaceByName hk ha fun hl => by cases hi hl; exact hm hl
  · have hs (hl : w.live) : i < maxArgs := by cases hi hl; assumption
    exact safe_load ha (fun hl => by cases hi hl; exact hm hl) (hslot hs) fun id _ =>
      safe_argValue id true
  · have hf (hl : w.live) : w.state.table.form? r i = some .alias := by cases hi hl; assumption
    exact safe_store (f := fun v => setAlias i v) ha (fun hl => by cases hi hl; exact hm hl)
      (hform hf) fun v hv => safe_setAlias hf (fun hl => by cases hi hl; assumption) hv
  · have hm' (hl : w.live) : r.Moves 2 0 h m := by cases hi hl; exact hm hl
    have hone (hl : w.live) (hr : r ≠ .layout) : h - 1 + 1 = h := by
      have := ((hm' hl).spec hr).1
      omega
    refine .pop ha (fun hl hr => by have := hone hl hr; omega) fun v hv => ?_
    refine .pop (fun hl => (ha hl).drop (hone hl)) (fun hl hr => ?_) fun name _ => ?_
    · have := ((hm' hl).spec hr).1
      omega
    refine (safe_assignNamed hk _ hv).bind fun w' _ hw _ => .pure fun hl => ⟨?_, rfl, rfl⟩
    have hl := (hw hl).1
    refine (((ha hl).drop (hone hl)).drop fun hr => ?_).mono (hw.forms ‹_›)
    have := ((hm' hl).spec hr).2.1
    omega
  · have hs (hl : w.live) : i < maxArgs := by cases hi hl; assumption
    exact safe_store (f := fun v => setArg i v) ha (fun hl => by cases hi hl; exact hm hl)
      (hslot hs) fun v hv => safe_setArg hs hv

theorem safe_callCommand (hk : RunsSafely r k) (ha : w.live → a.Ok r w.state.table h) {id : Ident}
    (hid : w.live → id.Ok r w.state.table) (hm : w.live → r.Moves n 0 h m)
    (hn : w.live → r ≠ .layout → id.role.signature.Passes n) :
    w.Safe (callCommand k id n ret a) (Leaves r a m) := by
  refine .window ha (fun hl hr => ((hm hl).spec hr).1) fun vs hvs hlen => ?_
  refine (safe_invoke hk hvs hid fun hl hr => hlen ▸ hn hl hr).bind fun w' v hw hv => ?_
  refine .pure fun hl => ⟨Activation.Ok.setResult ?_ ((hv hl).force ret), rfl, rfl⟩
  exact ((ha (hw hl).1).drop fun hr => ((hm (hw hl).1).spec hr).2.1).mono (hw.forms hl)

private theorem safe_callJoined (hk : RunsSafely r k) (ha : w.live → a.Ok r w.state.table h)
    {id : Ident}
    (hid : w.live → id.Ok r w.state.table) (hm : w.live → r.Moves n 0 h m)
    (hn : w.live → r ≠ .layout → .joined ∈ id.role.signature) :
    w.Safe (callJoined k id n ret a) (Leaves r a m) := by
  refine .window ha (fun hl hr => ((hm hl).spec hr).1) fun vs hvs hlen => ?_
  have hone : w.AllGood [.ofBytes (Value.join true vs)] := fun _ v hv => by
    cases List.mem_singleton.mp hv
    trivial
  refine (safe_invoke hk hone hid fun hl hr => .inl ⟨hn hl hr, rfl⟩).bind fun w' v hw hv => ?_
  refine .pure fun hl => ⟨Activation.Ok.setResult ?_ ((hv hl).force ret), rfl, rfl⟩
  exact ((ha (hw hl).1).drop fun hr => ((hm (hw hl).1).spec hr).2.1).mono (hw.forms hl)

private theorem safe_isUndefined (id : Ident) (isArg : Bool) :
    w.Safe (isUndefined i id isArg) fun _ _ => True := by
  refine .ite (fun _ => .read (.pure fun _ => trivial)) fun _ => ?_
  refine .ite (fun _ => ?_) fun _ => .pure fun _ => trivial
  exact (w.safe_debug _).bind fun _ _ _ _ => .pure fun _ => trivial

private theorem safe_callIdent (hk : RunsSafely r k) (ha : w.live → a.Ok r w.state.table h)
    (hi : w.live → i < w.state.table.size) (hm : w.live → r.Moves n 0 h m)
    (hn : w.live → n ≤ maxArgs) (id : Ident) (isArg : Bool) :
    w.Safe (callIdent k i id isArg n ret a) (Leaves r a m) := by
  have hdrop {w' : World r} (hw : w.Leads w') (hl : w'.live) :
      (a.drop n).Ok r w'.state.table m :=
    ((ha (hw hl).1).drop fun hr => ((hm (hw hl).1).spec hr).2.1).mono (hw.forms hl)
  refine (safe_isUndefined id isArg).bind fun w₁ _ hw₁ _ => .ite (fun _ => ?_) fun _ => ?_
  · refine .ite (fun hshort => .fail fun hl => permits_of_height fun hr => ?_) fun _ => ?_
    · have := (ha (hw₁ hl).1).height hr
      have := ((hm (hw₁ hl).1).spec hr).1
      omega
    · exact .pure fun hl => ⟨(hdrop hw₁ hl).setResult ((Value.ok_null _ _).force ret), rfl, rfl⟩
  · refine .window (fun hl => (ha (hw₁ hl).1).mono (hw₁.forms hl))
      (fun hl hr => ((hm (hw₁ hl).1).spec hr).1) fun vs hvs hlen => ?_
    refine (safe_callAlias hk hvs (lt_later hi hw₁) (fun hl => hlen ▸ hn (hw₁ hl).1) ret).bind
      fun w₂ v hw₂ hv => .pure fun hl => ?_
    exact ⟨(hdrop (hw₁.trans hw₂) hl).setResult ((hv hl).force ret), rfl, rfl⟩

theorem signature_of_form (hr : r ≠ .layout) {f : Form} (hf : w.state.table.form? r i = some f)
    {id : Ident} (hid : w.state.table.get? i = some id) : f.signature = id.role.signature := by
  rw [← form_of_get? hf hid, Role.signature_form hr]

private theorem safe_com (hk : RunsSafely r k) {x y : Nat} (ha : w.live → a.Ok r w.state.table h)
    (hi : w.live → Plain r w.state.table .com i x y) (hm : w.live → r.Moves x y h m) :
    w.Safe (do
      let id ← a.identIn b i
      callCommand k id id.role.signature.slots ret a) (Leaves r a m) := by
  have hform (hl : w.live) : ∃ f, w.state.table.form? r i = some f ∧
      (r ≠ .layout → .joined ∉ f.signature) ∧ r.Moves f.signature.slots 0 h m := by
    cases hi hl with
    | com hf hj => exact ⟨_, hf, hj, hm hl⟩
  refine .identIn (fun hl _ => ?_) fun id hid =>
    safe_callCommand hk ha (fun hl => ok_of_get? hl hid) (fun hl => ?_) fun hl hr => ?_
  · obtain ⟨f, hf, -⟩ := hform hl
    exact Table.lt_size_of_form? hf
  · obtain ⟨f, hf, -, hm⟩ := hform hl
    by_cases hr : r = .layout
    · exact .inl hr
    · exact signature_of_form hr hf hid ▸ hm
  · obtain ⟨f, hf, hj, -⟩ := hform hl
    have hsig := signature_of_form hr hf hid
    exact .inr ⟨hsig ▸ hj hr, Nat.le_refl _⟩

private theorem safe_comPressed (hk : RunsSafely r k) {x y : Nat}
    (ha : w.live → a.Ok r w.state.table h)
    (hi : w.live → Plain r w.state.table .comPressed i x y) (hm : w.live → r.Moves x y h m) :
    w.Safe (do
      let id ← a.identIn b i
      callCommand k id id.role.signature.slots ret (← a.push (.int 1))) (Leaves r a m) := by
  have hform (hl : w.live) : ∃ f, w.state.table.form? r i = some f ∧ r ≠ .room ∧
      (r ≠ .layout → .joined ∉ f.signature ∧ 1 ≤ f.signature.slots) ∧
      r.Moves (f.signature.slots - 1) 0 h m := by
    cases hi hl with
    | comPressed hf hr hj => exact ⟨_, hf, hr, hj, hm hl⟩
  refine .identIn (fun hl _ => ?_) fun id hid => ?_
  · obtain ⟨f, hf, -⟩ := hform hl
    exact Table.lt_size_of_form? hf
  have hpush : w.Safe (a.push (.int 1)) (Leaves r a (h + 1)) := by
    refine safe_push ha (fun _ => trivial) fun hl _ => ⟨rfl, fun hroom => ?_⟩
    obtain ⟨f, -, hr, -⟩ := hform hl
    exact absurd hroom hr
  refine hpush.bind fun w' a' hw hleaves => ?_
  refine Safe.mono (Q := Leaves r a' m) ?_ fun hl _ _ _ _ hs => hs.behind (hleaves hl)
  refine safe_callCommand hk (fun hl => (hleaves hl).1)
    (fun hl => (ok_of_get? (hw hl).1 hid).mono (hw.forms hl)) (fun hl => ?_) fun hl hr => ?_
  · obtain ⟨f, hf, hroom, hj, hm⟩ := hform (hw hl).1
    by_cases hr : r = .layout
    · exact .inl hr
    · rw [← signature_of_form hr hf hid]
      have := (hm.spec hr).1
      have := (hm.spec hr).2.1
      have := (hj hr).2
      exact .inr ⟨by omega, by omega, fun h => absurd h hroom⟩
  · obtain ⟨f, hf, -, hj, -⟩ := hform (hw hl).1
    exact .inr ⟨signature_of_form hr hf hid ▸ (hj hr).1, Nat.le_refl _⟩

private theorem safe_callNamedOperands (hk : RunsSafely r k) (ha : w.live → a.Ok r w.state.table h)
    (hn : w.live → n ≤ maxArgs) (hm : w.live → r.Moves (n + 1) 0 h m) :
    w.Safe (do
      match ← a.window (n + 1) with
      | [] => fail .badAccess
      | head :: args =>
          let v ← callNamed k head args ret
          return (a.drop (n + 1)).setResult v) (Leaves r a m) := by
  refine .window ha (fun hl hr => ((hm hl).spec hr).1) fun vs hvs hlen => ?_
  cases vs with
  | nil => cases hlen
  | cons head args =>
      have hargs : w.AllGood args := fun hl v hv => hvs hl v (List.mem_cons_of_mem head hv)
      have hlen : args.length = n := Nat.succ.inj hlen
      refine (safe_callNamed hk hargs (fun hl => hlen ▸ hn hl) head ret).bind fun w' v hw hv => ?_
      refine .pure fun hl => ⟨Activation.Ok.setResult ?_ (hv hl), rfl, rfl⟩
      exact ((ha (hw hl).1).drop fun hr => ((hm (hw hl).1).spec hr).2.1).mono (hw.forms hl)

/-- The calls with a number of arguments and an index. -/
theorem safe_stepCall (hk : RunsSafely r k) {op : Op} {word : UInt32}
    (ha : w.live → a.Ok r w.state.table h)
    (hi : w.live → Call r w.state.table op (Word.callArgc word) (Word.callIndex word))
    (hm : w.live → r.Moves (Word.callArgc word) 0 h m)
    (hop : op ∈ [.comAll, .comJoined, .call, .callArg]) :
    w.Safe (stepCall k b op word a) (Leaves r a m) := by
  simp only [List.mem_cons, List.not_mem_nil, or_false] at hop
  rcases hop with rfl | rfl | rfl | rfl
  · have hform (hl : w.live) (hr : r ≠ .layout) : ∃ f,
        w.state.table.form? r (Word.callIndex word) = some f ∧ .joined ∉ f.signature ∧
          f.signature.slots ≤ Word.callArgc word := by
      cases hi hl with
      | comAll _ h => exact h hr
    refine .identIn (fun hl hr => ?_) fun id hid =>
      safe_callCommand hk ha (fun hl => ok_of_get? hl hid) hm fun hl hr => ?_
    · obtain ⟨f, hf, -⟩ := hform hl hr
      exact Table.lt_size_of_form? hf
    · obtain ⟨f, hf, hj, hn⟩ := hform hl hr
      exact signature_of_form hr hf hid ▸ .inr ⟨hj, hn⟩
  · have hform (hl : w.live) (hr : r ≠ .layout) : ∃ f,
        w.state.table.form? r (Word.callIndex word) = some f ∧ .joined ∈ f.signature := by
      cases hi hl with
      | comJoined _ h => exact h hr
    refine .identIn (fun hl hr => ?_) fun id hid =>
      safe_callJoined hk ha (fun hl => ok_of_get? hl hid) hm fun hl hr => ?_
    · obtain ⟨f, hf, -⟩ := hform hl hr
      exact Table.lt_size_of_form? hf
    · obtain ⟨f, hf, hj⟩ := hform hl hr
      exact signature_of_form hr hf hid ▸ hj
  · refine .identIn (fun hl hr => ?_) fun id hid => safe_callIdent hk ha
      (fun _ => Table.lt_size_of_get? hid) hm (fun hl => by cases hi hl; assumption) id false
    cases hi hl with
    | call _ h => exact Table.lt_size_of_form? (h hr)
  · refine .identIn (fun hl hr => ?_) fun id hid => safe_callIdent hk ha
      (fun _ => Table.lt_size_of_get? hid) hm (fun hl => by cases hi hl; assumption) id true
    cases hi hl with
    | callArg _ h => exact (w.inv hl).table.slot_lt (h hr)

private theorem safe_compileValue (v : Value) :
    w.Safe (compileValue v) fun s v => v.Ok r s.table := by
  unfold compileValue
  split
  · exact .pure fun _ => runnable_literalBlock r _ (.int _)
  · exact .pure fun _ => runnable_literalBlock r _ (.float _)
  · exact safe_codeOf _
  · exact .pure fun _ => Value.ok_emptyCode r _ .null

private theorem safe_compileCondition (hv : w.Good v) :
    w.Safe (compileCondition v) fun s v => v.Ok r s.table := by
  unfold compileCondition
  split
  · exact .pure fun _ => trivial
  · exact safe_codeOf _
  · exact .pure hv

private theorem safe_popResult {f : Value → Engine Value} {g : Value → Value}
    (ha : w.live → a.Ok r w.state.table h) (hm : w.live → r.Moves 1 0 h m)
    (hf : ∀ v, w.Good v → w.Safe (f v) fun s v => (g v).Ok r s.table) :
    w.Safe (do
      let (v, a) ← a.pop
      return a.setResult (g (← f v))) (Leaves r a m) := by
  refine .pop ha (fun hl hr => ((hm hl).spec hr).1) fun v hv => (hf v hv).bind fun w' v' hw hv' => ?_
  refine .pure fun hl => ⟨Activation.Ok.setResult ?_ (hv' hl), rfl, rfl⟩
  exact ((ha (hw hl).1).drop fun hr => ((hm (hw hl).1).spec hr).2.1).mono (hw.forms hl)

theorem Safe.joinOperands {f : Value × Activation → Engine α} {spaced : Bool}
    (ha : w.live → a.Ok r w.state.table h) (hh : w.live → r ≠ .layout → n ≤ h)
    (hf : ∀ v, w.Good v → w.Safe (f (v, a.drop n)) Q) :
    w.Safe (joinOperands spaced n ret a >>= f) Q := by
  unfold Engine.joinOperands
  rw [bind_assoc]
  exact .window ha hh fun vs _ _ => hf _ fun _ => (Value.ok_ofBytes _ _ _).force ret

/-- The instructions of one word are safe. -/
theorem safe_performPlain (hk : RunsSafely r k) {op : Op} {word : UInt32} {x y : Nat}
    (hn : (Word.arg word).toNat = n) (ha : w.live → a.Ok r w.state.table h)
    (hi : w.live → Plain r w.state.table op n x y) (hm : w.live → r.Moves x y h m)
    (hop : op.isPlain = true) : w.Safe (perform k b op word a) (Leaves r a m) := by
  have hresult {v : Value} (hv : w.Good v) (hm : w.live → r.Moves 0 0 h m) :
      w.Safe (pure (a.setResult v)) (Leaves r a m) :=
    .pure fun hl => ⟨((ha hl).stay (hm hl)).setResult (hv hl), rfl, rfl⟩
  cases op with
  | null => exact hresult (fun _ => (Value.ok_null _ _).force _) fun hl => by cases hi hl; exact hm hl
  | yes | no =>
      exact hresult (fun _ => Value.Ok.force (v := .int _) trivial _) fun hl => by
        cases hi hl
        exact hm hl
  | not =>
      exact safe_popResult (f := Library.codeResult k)
        (g := fun v => (Value.ofBool !v.toBool).force (Word.ret word)) ha
        (fun hl => by cases hi hl; exact hm hl) fun v hv =>
          (safe_codeResult hk hv).mono fun _ _ _ _ _ _ => (Value.ok_ofBool _ _ _).force _
  | pop =>
      have hm' (hl : w.live) : r.Moves 1 0 h m := by cases hi hl; exact hm hl
      refine .pop ha (fun hl hr => ((hm' hl).spec hr).1) fun v _ => .pure fun hl => ⟨?_, rfl, rfl⟩
      exact (ha hl).drop fun hr => ((hm' hl).spec hr).2.1
  | resultArg =>
      refine safe_push (fun hl => (ha hl).setResult (Value.ok_null _ _))
        (fun hl => (ha hl).result.force _) fun hl hr => ?_
      cases hi hl
      exact ((hm hl).spec hr).2
  | dup =>
      have hm' (hl : w.live) : r.Moves 1 2 h m := by cases hi hl; exact hm hl
      refine .top ha (fun hl hr => ((hm' hl).spec hr).1) fun v rest _ => ?_
      refine safe_push ha (fun _ => Value.ok_lookedUp _ _ _ _ _) fun hl hr => ?_
      obtain ⟨-, heq, hroom⟩ := (hm' hl).spec hr
      exact ⟨by omega, hroom⟩
  | empty =>
      refine safe_push ha (fun _ => Value.ok_emptyCode r _ _) fun hl hr => ?_
      cases hi hl
      exact ((hm hl).spec hr).2
  | compile =>
      exact safe_replaceTop ha (fun hl => by cases hi hl; exact hm hl) fun v _ => safe_compileValue v
  | cond =>
      exact safe_replaceTop ha (fun hl => by cases hi hl; exact hm hl) fun v hv =>
        safe_compileCondition hv
  | force =>
      exact safe_replaceTop ha (fun hl => by cases hi hl; exact hm hl) fun v hv =>
        .pure fun hl => (hv hl).force _
  | result =>
      have hm' (hl : w.live) : r.Moves 1 0 h m := by cases hi hl; exact hm hl
      refine .pop ha (fun hl hr => ((hm' hl).spec hr).1) fun v hv => .pure fun hl => ?_
      exact ⟨((ha hl).drop fun hr => ((hm' hl).spec hr).2.1).setResult ((hv hl).force _), rfl, rfl⟩
  | run =>
      exact safe_popResult (f := runValue k) (g := Value.force (Word.ret word)) ha
        (fun hl => by cases hi hl; exact hm hl) fun v hv =>
          (safe_runValue hk hv).mono fun _ _ _ _ _ hv => hv.force _
  | runOuter =>
      refine safe_popResult (f := fun v => withOuterArgs (runValue k v))
        (g := Value.force (Word.ret word)) ha (fun hl => by cases hi hl; exact hm hl) fun v hv => ?_
      exact (safe_withOuterArgs (fun w' hw => safe_runValue hk (hv.inside hw))
        fun _ _ _ he hv => hv.mono he).mono fun _ _ _ _ _ hv => hv.force _
  | conc | concWord =>
      subst hn
      have hm' (hl : w.live) : r.Moves (Word.arg word).toNat 1 h m := by cases hi hl; exact hm hl
      refine .joinOperands ha (fun hl hr => ((hm' hl).spec hr).1) fun v hv => ?_
      refine safe_push (h := h - (Word.arg word).toNat) (fun hl => (ha hl).drop fun hr => ?_) hv
        fun hl hr => ?_
      · have := ((hm' hl).spec hr).1
        omega
      · obtain ⟨hle, heq, hroom⟩ := (hm' hl).spec hr
        exact ⟨by omega, hroom⟩
  | concResult =>
      subst hn
      have hm' (hl : w.live) : r.Moves (Word.arg word).toNat 0 h m := by cases hi hl; exact hm hl
      refine .joinOperands ha (fun hl hr => ((hm' hl).spec hr).1) fun v hv => .pure fun hl => ?_
      exact ⟨((ha hl).drop fun hr => ((hm' hl).spec hr).2.1).setResult (hv hl), rfl, rfl⟩
  | textVar | textVarView | setTextVar | intVar | setIntVar | setIntVar2 | setIntVar3 | floatVar
  | setFloatVar | print =>
      subst hn
      exact safe_stepVariable hk b (Word.ret word) ha hi hm (by decide)
  | ident | identNamed | identArg | lookup | lookupNamed | lookupArg | lookupView | lookupViewNamed
  | lookupViewArg | «alias» | aliasNamed | aliasArg =>
      subst hn
      exact safe_stepAlias hk b (Word.ret word) ha hi hm (by decide)
  | com =>
      subst hn
      exact safe_com hk ha hi hm
  | comPressed =>
      subst hn
      exact safe_comPressed hk ha hi hm
  | callNamed =>
      subst hn
      exact safe_callNamedOperands hk ha (fun hl => by cases hi hl; assumption)
        fun hl => by cases hi hl; exact hm hl
  | _ => cases hop

end World

end ConsoleScript
