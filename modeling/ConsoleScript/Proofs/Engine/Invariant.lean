import ConsoleScript.Proofs.Compile.Arguments
import ConsoleScript.Proofs.Engine.Outcome
import ConsoleScript.Proofs.Interp.Slots

/-!
The invariant of an interpreter that runs code. All code that it holds can be run, and what the host
has registered gives back only code that can be run. For each scope whose bindings are in effect,
the slots that it has bound have a value saved below.

A computation keeps the scopes as they are, except that it may bind further slots in the innermost
one: each such slot then has one more value saved. All other numbers of saved values stay.
-/

namespace ConsoleScript

open Bytecode

/-- The reasons to end a run that are permitted. A loop may always take too many rounds. -/
def Rigour.Permits (r : Rigour) : Stop → Prop
  | .exhausted => True
  | .fault f => match r with
    | .layout => True
    | .operands => f.cause = .stackOverflow
    | .room => f.cause ≠ .stackOverflow

/-- Code among values can be run, and references are to identifiers. -/
def Value.Ok (r : Rigour) (t : Table) : Value → Prop
  | .code b pc => ∃ e, Runnable r t b pc 0 e
  | .ident i => i < t.size
  | _ => True

/-- A program of the host gives and runs only values that are well formed, whatever it gets back
from the interpreter, which may know further identifiers by then. It need not reckon with faults that
are not permitted. -/
def HostProgram.Honest (r : Rigour) : HostProgram → Table → Prop
  | .done v, t => v.Ok r t
  | .fail _, _ => r ≠ .operands
  | .emit _ next, t => next.Honest r t
  | .execute _ next, t => ∀ t' outcome, t.Extends r t' → (∀ v, outcome = .ok v → v.Ok r t') →
      (∀ f, outcome = .error f → r.Permits (.fault f)) → (next outcome).Honest r t'
  | .runValue v next, t => v.Ok r t ∧ ∀ t' result, t.Extends r t' → result.Ok r t' →
      (next result).Honest r t'

def Watch.Ok (r : Rigour) (t : Table) : Watch → Prop
  | .host f => ∀ t' v, t.Extends r t' → v.Ok r t' → (f v).Honest r t'
  | _ => True

/-- The number of arguments that a command of the library reads. -/
def Builtin.arity : Builtin → Nat
  | .loop form =>
      3 + (if form.offset then 1 else 0) + (if form.step then 1 else 0) +
        (if form.condition then 1 else 0)
  | .choose | .push | .textReplace | .listFind | .loopList => 3
  | .while | .alias | .textFind | .toHex | .exec => 2
  | .substring | .sublist => 4
  | .cases _ | .nodebug | .getAlias | .identExists | .resetVar | .complement | .intAbs | .floatAbs
  | .textLength | .small | .capital | .escape | .unescape | .listLength | .echo | .error => 1
  | _ => 0

/-- The number of arguments that a control word reads. -/
def Control.arity : Control → Nat
  | .run | .runOuter | .result | .not => 1
  | .branch => 3
  | _ => 0

/-- A call with the given parameters can pass `n` arguments: all as one text, or one for each
parameter and possibly more. -/
def Signature.Passes (sig : Signature) (n : Nat) : Prop :=
  (.joined ∈ sig ∧ n = 1) ∨ (.joined ∉ sig ∧ sig.slots ≤ n)

def Action.Ok (r : Rigour) (t : Table) (sig : Signature) : Action → Prop
  | .builtin b => r ≠ .layout → ∀ n, sig.Passes n → b.arity ≤ n
  | .host f => r ≠ .room ∧ ∀ t' args, t.Extends r t' → (∀ v ∈ args, v.Ok r t') →
      (f args).Honest r t'

def Role.Ok (r : Rigour) (t : Table) : Role → Prop
  | .command sig action => action.Ok r t sig
  | role => role.watch.Ok r t

/-- Shows the number of arguments of the running alias. -/
def Role.showsCallArgs : Role → Bool
  | .intVar _ _ (.shared .callArgs) _ => true
  | _ => false

structure Ident.Ok (r : Rigour) (t : Table) (id : Ident) : Prop where
  value : id.value.Ok r t
  saved : ∀ v ∈ id.saved, v.Ok r t
  body : ∀ b, id.body = some b → ∃ e, Runnable r t b 1 0 e
  role : id.role.Ok r t
  /-- No write changes the number of arguments. -/
  locked : id.role.showsCallArgs = true → id.flags.readOnly = true ∧ id.flags.overridden = false

section Mono

variable {r : Rigour} {t t' : Table}

theorem Value.Ok.mono {v : Value} (h : v.Ok r t) (ht : t.Extends r t') : v.Ok r t' := by
  cases v with
  | code b pc =>
      obtain ⟨e, he⟩ := h
      exact ⟨e, he.mono ht⟩
  | ident i => exact ht.lt_size h
  | _ => trivial

theorem HostProgram.Honest.mono {p : HostProgram} (h : p.Honest r t) (ht : t.Extends r t') :
    p.Honest r t' := by
  induction p with
  | done v => exact Value.Ok.mono h ht
  | fail _ => exact h
  | emit _ next ih => exact ih h
  | execute src next _ => exact fun t'' o he ho hf => h t'' o (ht.trans he) ho hf
  | runValue v next _ => exact ⟨h.1.mono ht, fun t'' v' he hv => h.2 t'' v' (ht.trans he) hv⟩

theorem Watch.Ok.mono {watch : Watch} (h : watch.Ok r t) (ht : t.Extends r t') :
    watch.Ok r t' := by
  cases watch with
  | host f => exact fun t'' v he hv => h t'' v (ht.trans he) hv
  | _ => trivial

theorem Role.Ok.mono {role : Role} (h : role.Ok r t) (ht : t.Extends r t') : role.Ok r t' := by
  cases role with
  | command sig action =>
      cases action with
      | builtin b => exact h
      | host f => exact ⟨h.1, fun t'' args he hargs => h.2 t'' args (ht.trans he) hargs⟩
  | «alias» | control => trivial
  | _ => exact Watch.Ok.mono h ht

theorem Ident.Ok.mono {id : Ident} (h : id.Ok r t) (ht : t.Extends r t') : id.Ok r t' where
  value := h.value.mono ht
  saved v hv := (h.saved v hv).mono ht
  body b hb := by
    obtain ⟨e, he⟩ := h.body b hb
    exact ⟨e, he.mono ht⟩
  role := h.role.mono ht
  locked := h.locked

theorem Role.Ok.watch {role : Role} (h : role.Ok r t) : role.watch.Ok r t := by
  cases role with
  | command | «alias» | control => trivial
  | _ => exact h

end Mono

namespace Value

variable (r : Rigour) (t : Table) (v : Value) (ret : RetTag) (asView : Bool)

@[simp] theorem ok_settle : v.settle.Ok r t := by cases v <;> trivial

@[simp] theorem ok_settleView : v.settleView.Ok r t := by cases v <;> trivial

@[simp] theorem ok_absent : (absent ret asView).Ok r t := by cases ret <;> trivial

@[simp] theorem ok_lookedUp : (v.lookedUp ret asView).Ok r t := by
  cases ret <;> cases asView <;> simp [lookedUp] <;> trivial

@[simp] theorem ok_null : Value.null.Ok r t := trivial

@[simp] theorem ok_ofBytes (s : Bytes) : (ofBytes s).Ok r t := trivial

@[simp] theorem ok_ofBool (b : Bool) : (ofBool b).Ok r t := trivial

theorem Ok.force {r : Rigour} {t : Table} {v : Value} (h : v.Ok r t) (ret : RetTag) :
    (v.force ret).Ok r t := by
  cases ret <;> first | exact h | trivial

end Value

namespace Table

variable {r : Rigour} {t t' : Table} {i j : Nat} {g : Ident → Ident}

/-- How many values of an identifier are saved. -/
def depth (t : Table) (i : Nat) : Nat := (t.get? i).elim 0 Ident.depth

/-- The value of an identifier, and behind it those that are saved. -/
def bindings (t : Table) (i : Nat) : List Value :=
  (t.get? i).elim [] fun id => id.value :: id.saved

/-- A table with which code can be compiled and run. -/
structure Ready (r : Rigour) (t : Table) : Prop extends t.Sound r where
  idents : ∀ i id, t.get? i = some id → id.Ok r t
  /-- Argument slots are not overridden, so that nothing brings old values of theirs back. -/
  plain : ∀ i < maxArgs, ∀ id, t.get? i = some id → id.flags.overridden = false

theorem depth_of_get? {id : Ident} (h : t.get? i = some id) : t.depth i = id.depth := by
  rw [depth, h]
  rfl

theorem depth_modify (t : Table) (j : Nat) (g : Ident → Ident) (i : Nat) :
    (t.modify j g).depth i = if j = i then (t.get? i).elim 0 fun id => (g id).depth
      else t.depth i := by
  rw [depth, get?_modify]
  split
  · cases t.get? i <;> rfl
  · rfl

theorem depth_push (t : Table) {id : Ident} (hid : id.saved = []) (i : Nat) :
    (t.push id).depth i = t.depth i := by
  rw [depth, get?_push]
  split <;> rename_i hi
  · have hnone : t.get? i = none := Array.getElem?_eq_none (Nat.le_of_eq hi.symm)
    rw [depth, hnone, Option.elim_some, Ident.depth, hid]
    rfl
  · rfl

theorem bindings_of_get? {id : Ident} (h : t.get? i = some id) :
    t.bindings i = id.value :: id.saved := by
  rw [bindings, h]
  rfl

theorem bindings_modify_ne (h : j ≠ i) : (t.modify j g).bindings i = t.bindings i := by
  rw [bindings, get?_modify, if_neg h]
  rfl

theorem bindings_modify_self {id : Ident} (h : t.get? i = some id) :
    (t.modify i g).bindings i = (g id).value :: (g id).saved := by
  rw [bindings, get?_modify, if_pos rfl, h]
  rfl

theorem bindings_modify (hg : ∀ id, t.get? j = some id → i = j →
    (g id).value = id.value ∧ (g id).saved = id.saved) :
    (t.modify j g).bindings i = t.bindings i := by
  by_cases hj : j = i
  · subst hj
    cases hid : t.get? j with
    | none => rw [bindings, bindings, get?_modify, if_pos rfl, hid]; rfl
    | some id =>
        rw [bindings_modify_self hid, bindings_of_get? hid, (hg id hid rfl).1, (hg id hid rfl).2]
  · exact bindings_modify_ne hj

theorem bindings_push (t : Table) (id : Ident) (h : i < t.size) :
    (t.push id).bindings i = t.bindings i := by
  rw [bindings, get?_push, if_neg (Nat.ne_of_lt h)]
  rfl

theorem saved_push (t : Table) {id : Ident} (hid : id.saved = []) (i : Nat) :
    ((t.push id).bindings i).drop 1 = (t.bindings i).drop 1 := by
  rw [bindings, get?_push]
  split
  next hi =>
    have hnone : t.get? i = none := Array.getElem?_eq_none (Nat.le_of_eq hi.symm)
    rw [bindings, hnone]
    exact hid
  next => rfl

private theorem form?_modify
    (hg : ∀ id, t.get? j = some id → (g id).role.form r = id.role.form r) (i : Nat) :
    (t.modify j g).form? r i = t.form? r i := by
  rw [form?, form?, get?_modify]
  split
  next hj =>
    subst hj
    cases hid : t.get? j with
    | none => rfl
    | some id => exact congrArg some (hg id hid)
  next => rfl

theorem get?_eq_none (h : t.size ≤ i) : t.get? i = none := Array.getElem?_eq_none h

theorem exists_get? (h : i < t.size) : ∃ id, t.get? i = some id :=
  ⟨_, Array.getElem?_eq_getElem h⟩

theorem lt_size_of_depth (h : 0 < t.depth i) : i < t.size := by
  refine Nat.lt_of_not_le fun hle => ?_
  rw [depth, get?_eq_none hle] at h
  exact absurd h (Nat.lt_irrefl 0)

theorem Ready.dummy_lt (h : t.Ready r) : dummyIndex < t.size :=
  lt_size_of_form? (h.founded dummyIndex (Nat.le_refl _))

theorem Ready.slot_lt (h : t.Ready r) (hi : i < maxArgs) : i < t.size :=
  Nat.lt_trans hi h.dummy_lt

/-- A change of an identifier that keeps its form leaves the table ready. -/
theorem Ready.modify (h : t.Ready r) (hg : ∀ id, t.get? j = some id →
    (g id).role.form r = id.role.form r ∧ (g id).Ok r t ∧
      (j < maxArgs → id.flags.overridden = false → (g id).flags.overridden = false)) :
    (t.modify j g).Ready r := by
  have hforms := form?_modify fun id hid => (hg id hid).1
  have hext : t.Extends r (t.modify j g) := extends_modify j g fun id hid => (hg id hid).1
  refine ⟨⟨fun i hi => ?_, fun hr i sig hf => ?_⟩, fun i id hid => ?_, fun i hi id hid => ?_⟩
  · rw [hforms]
    exact h.founded i hi
  · rw [hforms] at hf
    exact h.regular hr i sig hf
  · rw [get?_modify] at hid
    split at hid
    next hj =>
      subst hj
      obtain ⟨id', hid', rfl⟩ := Option.map_eq_some_iff.mp hid
      exact (hg id' hid').2.1.mono hext
    next => exact (h.idents i id hid).mono hext
  · rw [get?_modify] at hid
    split at hid
    next hj =>
      subst hj
      obtain ⟨id', hid', rfl⟩ := Option.map_eq_some_iff.mp hid
      exact (hg id' hid').2.2 hi (h.plain j hi id' hid')
    next => exact h.plain i hi id hid

theorem Ready.plain_push (h : t.Ready r) (id : Ident) :
    ∀ i < maxArgs, ∀ id', (t.push id).get? i = some id' → id'.flags.overridden = false := by
  intro i hi id' hid
  rw [get?_push, if_neg (Nat.ne_of_lt (h.slot_lt hi))] at hid
  exact h.plain i hi id' hid

theorem Ready.push_alias (h : t.Ready r) {id : Ident} (hr : id.role = .alias)
    (hid : id.Ok r t) : (t.push id).Ready r := by
  refine ⟨h.toSound.push_alias hr, fun i id' hi => ?_, h.plain_push id⟩
  rw [get?_push] at hi
  split at hi
  · cases hi
    exact hid.mono (extends_push r t id)
  · exact (h.idents i id' hi).mono (extends_push r t id)

/-- An alias that is not overridden. -/
def Plain (t : Table) (i : Nat) : Prop :=
  ∃ id, t.get? i = some id ∧ id.role = .alias ∧ id.flags.overridden = false

theorem plain_modify (hg : ∀ id, t.get? j = some id →
    (g id).role = id.role ∧ (g id).flags.overridden = id.flags.overridden) (i : Nat) :
    (t.modify j g).Plain i ↔ t.Plain i := by
  unfold Plain
  rw [get?_modify]
  split
  next hj =>
    subst hj
    cases hid : t.get? j with
    | none => simp
    | some id => simp [hg id hid]
  next => rfl

theorem Plain.push (h : t.Plain i) (id : Ident) : (t.push id).Plain i := by
  obtain ⟨id', hid', halias⟩ := h
  refine ⟨id', ?_, halias⟩
  rw [get?_push, if_neg (Nat.ne_of_lt (lt_size_of_get? hid'))]
  exact hid'

end Table

theorem Ident.ok_alias (r : Rigour) (t : Table) (name : Bytes) (flags : Flags) :
    ({ name, role := .alias, flags } : Ident).Ok r t where
  value := trivial
  saved := nofun
  body := nofun
  role := trivial
  locked := nofun

/-- For each slot, how many of the scopes whose bindings are in effect have bound it. A marked scope
takes the bindings of one more scope out of effect, counted by the first argument. -/
def pending : (marked : Nat) → List Scope → Nat → Nat
  | _, [], _ => 0
  | marked, c :: rest, i =>
      if c.used.has maxArgs then pending (marked + 1) rest i
      else match marked with
        | 0 => (if c.used.has i then 1 else 0) + pending 0 rest i
        | marked + 1 => pending marked rest i

section Pending

variable {c : Scope} {rest : List Scope} {marked : Nat} (i : Nat)

theorem pending_marked (h : c.used.has maxArgs = true) :
    pending marked (c :: rest) i = pending (marked + 1) rest i := by
  rw [pending.eq_def]
  exact if_pos h

theorem pending_zero (h : ¬c.used.has maxArgs = true) :
    pending 0 (c :: rest) i = (if c.used.has i then 1 else 0) + pending 0 rest i := by
  rw [pending, if_neg h]

theorem pending_succ (h : ¬c.used.has maxArgs = true) :
    pending (marked + 1) (c :: rest) i = pending marked rest i := by
  rw [pending, if_neg h]

/-- The scope in effect is the first that counts, and one more mark takes it out of effect. -/
theorem pending_of_scopeInEffect {scopes : List Scope}
    (h : Engine.scopeInEffect? marked scopes = some (c, rest)) :
    pending marked scopes i = (if c.used.has i then 1 else 0) + pending 0 rest i ∧
      pending (marked + 1) scopes i = pending 0 rest i := by
  induction scopes generalizing marked with
  | nil => cases h
  | cons c' scopes ih =>
      unfold Engine.scopeInEffect? at h
      split at h
      next hm =>
        rw [pending_marked i hm, pending_marked i hm]
        exact ih h
      next hm =>
        cases marked with
        | zero =>
            cases h
            exact ⟨pending_zero i hm, pending_succ i hm⟩
        | succ marked =>
            rw [pending_succ i hm, pending_succ i hm]
            exact ih h

end Pending

/-- The invariant of an interpreter. -/
structure Inv (r : Rigour) (s : Interp) : Prop where
  table : s.table.Ready r
  /-- What the scopes in effect have bound can be restored. -/
  backed : ∀ i < maxArgs, pending 0 s.scopes i ≤ s.table.depth i
  outermost : s.outermost = SlotSet.all

/-- The bindings of a slot that the callers of the innermost scope have made. -/
def Interp.callerBindings (s : Interp) (i : Nat) : List Value :=
  (s.table.bindings i).drop (if s.isBound i then 1 else 0)

/-- Code that is not run with the arguments of a caller leaves the bindings of the callers alone. -/
structure Spares (s s' : Interp) : Prop where
  outerRuns : s.outerRuns ≤ s'.outerRuns
  callers : s'.outerRuns = s.outerRuns → ∀ i < maxArgs, s'.callerBindings i = s.callerBindings i

/-- How the bindings of an alias change when `n` of its saved values are taken back: those beneath
stay as they are, and the last one that is taken back is the value then. -/
structure Uncovers (n : Nat) (before after : List Value) : Prop where
  saved : after.drop 1 = before.drop (n + 1)
  value : 0 < n → after = before.drop n

namespace Uncovers

variable {n m : Nat} {vs vs' vs'' : List Value}

theorem of_drop (h : vs' = vs.drop n) : Uncovers n vs vs' :=
  ⟨by rw [h, List.drop_drop], fun _ => h⟩

theorem refl (vs : List Value) : Uncovers 0 vs vs := .of_drop rfl

theorem of_saved (h : vs'.drop 1 = vs.drop 1) : Uncovers 0 vs vs' :=
  ⟨h, fun h => absurd h (Nat.lt_irrefl 0)⟩

theorem trans (h : Uncovers 0 vs vs') (h' : Uncovers n vs' vs'') : Uncovers n vs vs'' := by
  have hbeneath (k : Nat) : vs'.drop (k + 1) = vs.drop (k + 1) := by
    rw [Nat.add_comm k 1, ← List.drop_drop, h.saved, List.drop_drop, Nat.zero_add]
  refine ⟨h'.saved.trans (hbeneath n), fun hn => ?_⟩
  obtain ⟨k, rfl⟩ := Nat.exists_eq_add_of_lt hn
  rw [Nat.zero_add] at *
  rw [h'.value hn, hbeneath]

private theorem drop (h : Uncovers 0 vs vs') (n : Nat) : Uncovers 0 (vs.drop n) (vs'.drop n) := by
  refine .of_saved ?_
  rw [List.drop_drop, List.drop_drop, Nat.add_comm, ← List.drop_drop, ← List.drop_drop, h.saved]

theorem behind (h : Uncovers (n + m) vs' vs'') (hadd : vs = vs'.drop n) : Uncovers m vs vs'' := by
  refine ⟨?_, fun hm => ?_⟩
  · rw [h.saved, hadd, List.drop_drop, Nat.add_assoc]
  · rw [h.value (Nat.add_pos_right n hm), hadd, List.drop_drop]

end Uncovers

/-- An alias was written after a number of writes. -/
def Interp.WrittenSince (s : Interp) (n i : Nat) : Prop := ∃ m f, n ≤ m ∧ s.written m i f

/-- Writes are on record. An alias that is not overridden and has no write on record keeps its
bindings, except for those that are taken back. -/
structure Heeds (owed : Nat → Nat) (s s' : Interp) : Prop where
  writes : s.writes ≤ s'.writes
  written : ∀ n i f, s.written n i f → s'.written n i f
  others : ∀ i, maxArgs ≤ i → s.table.Plain i → ¬s'.WrittenSince s.writes i →
    s'.table.Plain i ∧ s'.table.bindings i = (s.table.bindings i).drop (owed i)

namespace Heeds

variable {owed : Nat → Nat} {s s' s'' s₁ s₂ : Interp}

theorem of_same (hw : s'.writes = s.writes) (hr : s'.written = s.written)
    (h : ∀ i, maxArgs ≤ i → s.table.Plain i →
      s'.table.Plain i ∧ s'.table.bindings i = (s.table.bindings i).drop (owed i)) :
    Heeds owed s s' :=
  ⟨Nat.le_of_eq hw.symm, fun _ _ _ hn => hr ▸ hn, fun i hi hp _ => h i hi hp⟩

theorem refl (s : Interp) :
    Heeds (fun _ => 0) s s := .of_same rfl rfl fun _ _ hp => ⟨hp, rfl⟩

theorem trans (h : Heeds (fun _ => 0) s s') (h' : Heeds owed s' s'') :
    Heeds owed s s'' := by
  refine ⟨Nat.le_trans h.writes h'.writes, fun n i f hn => h'.written n i f (h.written n i f hn),
    fun i hi hp hu => ?_⟩
  obtain ⟨hp', hb⟩ := h.others i hi hp fun ⟨m, f, hm, hn⟩ => hu ⟨m, f, hm, h'.written m i f hn⟩
  obtain ⟨hp'', hb'⟩ := h'.others i hi hp' fun ⟨m, f, hm, hn⟩ =>
    hu ⟨m, f, Nat.le_trans h.writes hm, hn⟩
  exact ⟨hp'', by rw [hb', hb]; rfl⟩

theorem around (h : Heeds (fun _ => 0) s₁ s₂) (hw : s₁.writes = s.writes)
    (hr : s₁.written = s.written) (hw' : s'.writes = s₂.writes) (hr' : s'.written = s₂.written)
    (hp : ∀ i, s.table.Plain i → s₁.table.Plain i) (hp' : ∀ i, s₂.table.Plain i → s'.table.Plain i)
    (n : Nat → Nat)
    (hb : ∀ i, maxArgs ≤ i → s.table.bindings i = (s₁.table.bindings i).drop (n i))
    (hb' : ∀ i, maxArgs ≤ i → s'.table.bindings i = (s₂.table.bindings i).drop (n i)) :
    Heeds (fun _ => 0) s s' := by
  refine ⟨hw ▸ hw' ▸ h.writes, fun m i f hn => hr' ▸ h.written m i f (hr ▸ hn),
    fun i hi hplain hu => ?_⟩
  obtain ⟨hplain', hsame⟩ := h.others i hi (hp i hplain) fun ⟨m, f, hm, hn⟩ =>
    hu ⟨m, f, hw ▸ hm, hr' ▸ hn⟩
  exact ⟨hp' i hplain', by rw [hb' i hi, hsame, hb i hi]; rfl⟩

theorem behind {n x : Nat → Nat} (h : Heeds (fun i => n i + x i) s₁ s') (hw : s₁.writes = s.writes)
    (hr : s₁.written = s.written) (hp : ∀ i, s.table.Plain i → s₁.table.Plain i)
    (hb : ∀ i, s.table.bindings i = (s₁.table.bindings i).drop (n i)) : Heeds x s s' := by
  refine ⟨hw ▸ h.writes, fun m i f hn => h.written m i f (hr ▸ hn), fun i hi hplain hu => ?_⟩
  obtain ⟨hplain', hsame⟩ := h.others i hi (hp i hplain) (hw ▸ hu)
  exact ⟨hplain', by rw [hsame, hb, List.drop_drop]⟩

end Heeds

/-- How a computation leaves the bindings, and the numbers that belong to the running calls. `owed`
says how many saved values of each identifier it has taken back on behalf of others. -/
structure Framed (owed : Nat → Nat) (s s' : Interp) : Prop where
  scopes : s'.scopes = (s.setUsed s'.used).scopes
  outermost : s'.outermost = (s.setUsed s'.used).outermost
  keeps : ∀ i, s.isBound i = true → s'.isBound i = true
  slots : ∀ i, s'.isBound i = true → s.isBound i = true ∨ i < maxArgs
  depth : ∀ i, s'.table.depth i + owed i =
    s.table.depth i + if s'.isBound i && !s.isBound i then 1 else 0
  callArgs : s'.callArgs = s.callArgs
  muted : s'.muted = s.muted
  spares : Spares s s'
  aliases : ∀ i, maxArgs ≤ i → Uncovers (owed i) (s.table.bindings i) (s'.table.bindings i)
  heeds : Heeds owed s s'

namespace Interp

variable (s : Interp) {u : SlotSet} (u' : SlotSet)

@[simp] theorem used_setUsed (u : SlotSet) : (s.setUsed u).used = u := by
  unfold setUsed used
  cases h : s.scopes <;> rfl

@[simp] theorem setUsed_setUsed (u : SlotSet) : (s.setUsed u).setUsed u' = s.setUsed u' := by
  unfold setUsed
  cases s.scopes <;> simp

@[simp] theorem setUsed_used : s.setUsed s.used = s := by
  unfold setUsed used
  cases h : s.scopes <;> simp [← h]

theorem setUsed_congr {s s' : Interp} (hs : s'.scopes = s.scopes)
    (ho : s'.outermost = s.outermost) (u : SlotSet) :
    (s'.setUsed u).scopes = (s.setUsed u).scopes ∧
      (s'.setUsed u).outermost = (s.setUsed u).outermost := by
  unfold setUsed
  rw [hs]
  cases s.scopes <;> simp [ho]

theorem used_congr {s s' : Interp} (hs : s'.scopes = s.scopes)
    (ho : s'.outermost = s.outermost) : s'.used = s.used := by
  unfold used
  rw [hs, ho]

theorem setUsed_eq (u : SlotSet) : s.setUsed u =
    { s with scopes := (s.setUsed u).scopes, outermost := (s.setUsed u).outermost } := by
  unfold setUsed
  cases s.scopes <;> rfl

@[simp] theorem table_setUsed (u : SlotSet) : (s.setUsed u).table = s.table := by
  rw [setUsed_eq]

/-- Binding further slots in the innermost scope, each of them counts once more at most. -/
theorem pending_setUsed {i : Nat} (hm : u.has maxArgs = s.used.has maxArgs)
    (hk : s.used.has i = true → u.has i = true) : pending 0 (s.setUsed u).scopes i ≤
      pending 0 s.scopes i + if u.has i && !s.used.has i then 1 else 0 := by
  unfold setUsed used at *
  cases hc : s.scopes with
  | nil =>
      simp only [pending]
      exact Nat.zero_le _
  | cons c rest =>
      rw [hc] at hm hk
      dsimp only at hm hk ⊢
      by_cases hmark : c.used.has maxArgs = true
      · rw [pending_marked i hmark, pending_marked i (hm.trans hmark)]
        exact Nat.le_add_right _ _
      · rw [pending_zero i hmark, pending_zero i (fun h => hmark (hm.symm.trans h))]
        cases hold : c.used.has i <;> cases hnew : u.has i <;> simp_all
        omega

end Interp

theorem Interp.isBound_congr {s s' : Interp} (hs : s'.scopes = s.scopes)
    (ho : s'.outermost = s.outermost) (i : Nat) : s'.isBound i = s.isBound i :=
  congrArg (SlotSet.has · i) (Interp.used_congr hs ho)

theorem Interp.callerBindings_drop {s s' : Interp} {i n : Nat} (hb : s'.isBound i = s.isBound i)
    (hd : s'.table.bindings i = (s.table.bindings i).drop n) :
    s'.callerBindings i = (s.callerBindings i).drop n := by
  rw [callerBindings, callerBindings, hd, hb, List.drop_drop, List.drop_drop, Nat.add_comm]

namespace Spares

variable {s s' s'' : Interp}

theorem refl (s : Interp) : Spares s s := ⟨Nat.le_refl _, fun _ _ _ => rfl⟩

theorem trans (h : Spares s s') (h' : Spares s' s'') : Spares s s'' := by
  refine ⟨Nat.le_trans h.outerRuns h'.outerRuns, fun hr i hi => ?_⟩
  have hle := h.outerRuns
  have hle' := h'.outerRuns
  rw [h'.callers (by omega) i hi, h.callers (by omega) i hi]

theorem of_same (hs : s'.scopes = s.scopes) (ho : s'.outermost = s.outermost)
    (hr : s'.outerRuns = s.outerRuns)
    (hb : ∀ i < maxArgs, s'.table.bindings i = s.table.bindings i) : Spares s s' := by
  refine ⟨Nat.le_of_eq hr.symm, fun _ i hi => ?_⟩
  exact Interp.callerBindings_drop (n := 0) (Interp.isBound_congr hs ho i) (hb i hi)

theorem of_lt (h : s.outerRuns < s'.outerRuns) : Spares s s' :=
  ⟨Nat.le_of_lt h, fun hr => absurd hr (Nat.ne_of_gt h)⟩

theorem around {s₁ s₂ : Interp} (h : Spares s₁ s₂) (hs : s₁.scopes = s.scopes)
    (ho : s₁.outermost = s.outermost) (hr : s₁.outerRuns = s.outerRuns)
    (hs' : s'.scopes = s₂.scopes) (ho' : s'.outermost = s₂.outermost)
    (hr' : s'.outerRuns = s₂.outerRuns) (n : Nat → Nat)
    (hb : ∀ i < maxArgs, s.table.bindings i = (s₁.table.bindings i).drop (n i))
    (hb' : ∀ i < maxArgs, s'.table.bindings i = (s₂.table.bindings i).drop (n i)) :
    Spares s s' := by
  refine ⟨hr ▸ hr' ▸ h.outerRuns, fun heq i hi => ?_⟩
  rw [Interp.callerBindings_drop (Interp.isBound_congr hs' ho' i) (hb' i hi),
    Interp.callerBindings_drop (Interp.isBound_congr hs ho i).symm (hb i hi),
    h.callers (by omega) i hi]

end Spares

namespace Framed

variable {x : Nat → Nat} {s s' s'' : Interp}

/-- Nothing is owed. -/
abbrev Settled : Interp → Interp → Prop := Framed fun _ => 0

theorem refl (s : Interp) : Settled s s where
  scopes := by rw [Interp.setUsed_used]
  outermost := by rw [Interp.setUsed_used]
  keeps _ h := h
  slots _ h := .inl h
  depth i := by cases s.isBound i <;> rfl
  callArgs := rfl
  muted := rfl
  spares := .refl s
  aliases _ _ := .refl _
  heeds := .refl s

theorem trans (h : Settled s s') (h' : Framed x s' s'') : Framed x s s'' := by
  have hset : (s'.setUsed s''.used).scopes = (s.setUsed s''.used).scopes ∧
      (s'.setUsed s''.used).outermost = (s.setUsed s''.used).outermost := by
    have hc := Interp.setUsed_congr h.scopes h.outermost s''.used
    rwa [Interp.setUsed_setUsed] at hc
  refine ⟨h'.scopes.trans hset.1, h'.outermost.trans hset.2, fun i hi => h'.keeps i (h.keeps i hi),
    fun i hi => ?_, fun i => ?_, h'.callArgs.trans h.callArgs, h'.muted.trans h.muted,
    h.spares.trans h'.spares,
    fun i hi => (h.aliases i hi).trans (h'.aliases i hi), h.heeds.trans h'.heeds⟩
  · rcases h'.slots i hi with hi | hi
    · exact h.slots i hi
    · exact .inr hi
  · have hd := h.depth i
    have hd' := h'.depth i
    have hk := h.keeps i
    have hk' := h'.keeps i
    cases hb : s.isBound i <;> cases hb' : s'.isBound i <;> cases hb'' : s''.isBound i <;>
      simp_all

/-- The scopes and the slots in them, if nothing is bound anew. -/
theorem of_same (hs : s'.scopes = s.scopes) (ho : s'.outermost = s.outermost)
    (hd : ∀ i, s'.table.depth i + x i = s.table.depth i) (hc : s'.callArgs = s.callArgs)
    (hm : s'.muted = s.muted) (hsp : Spares s s')
    (ha : ∀ i, maxArgs ≤ i → Uncovers (x i) (s.table.bindings i) (s'.table.bindings i))
    (hh : Heeds x s s') : Framed x s s' := by
  have hu : s'.used = s.used := Interp.used_congr hs ho
  have hb := Interp.isBound_congr hs ho
  refine ⟨?_, ?_, fun i hi => (hb i).trans hi, fun i hi => .inl ((hb i).symm.trans hi),
    fun i => ?_, hc, hm, hsp, ha, hh⟩
  · rw [hu, Interp.setUsed_used, hs]
  · rw [hu, Interp.setUsed_used, ho]
  · rw [hd, hb]
    cases s.isBound i <;> rfl

/-- Binding further slots in the innermost scope, each with one more value saved. -/
theorem of_setUsed {u : SlotSet} (hs : s'.scopes = s.scopes) (ho : s'.outermost = s.outermost)
    (hk : ∀ i, s.isBound i = true → u.has i = true)
    (hu : ∀ i, u.has i = true → s.isBound i = true ∨ i < maxArgs)
    (hd : ∀ i, s'.table.depth i = s.table.depth i + if u.has i && !s.isBound i then 1 else 0)
    (hc : s'.callArgs = s.callArgs) (hm : s'.muted = s.muted)
    (hsp : Spares s (s'.setUsed u))
    (ha : ∀ i, maxArgs ≤ i → Uncovers 0 (s.table.bindings i) (s'.table.bindings i))
    (hh : Heeds (fun _ => 0) s s') : Settled s (s'.setUsed u) := by
  have hb (i : Nat) : (s'.setUsed u).isBound i = u.has i := by rw [Interp.isBound, Interp.used_setUsed]
  have hset := Interp.setUsed_congr hs ho u
  refine ⟨?_, ?_, fun i hi => (hb i).trans (hk i hi), fun i hi => hu i ((hb i).symm.trans hi),
    fun i => ?_, ?_, ?_, hsp, fun i hi => ?_, ?_⟩
  · rw [Interp.used_setUsed, hset.1]
  · rw [Interp.used_setUsed, hset.2]
  · rw [Interp.table_setUsed, hb]
    exact hd i
  · rw [Interp.setUsed_eq]
    exact hc
  · rw [Interp.setUsed_eq]
    exact hm
  · rw [Interp.table_setUsed]
    exact ha i hi
  · rw [Interp.setUsed_eq]
    exact ⟨hh.writes, hh.written, hh.others⟩

/-- A computation between two changes that do not touch the scopes and otherwise cancel out. -/
theorem around {s₁ s₂ : Interp} (h : Settled s₁ s₂) (hs : s₁.scopes = s.scopes)
    (ho : s₁.outermost = s.outermost) (hs' : s'.scopes = s₂.scopes)
    (ho' : s'.outermost = s₂.outermost)
    (hd : ∀ i, s₁.table.depth i + s'.table.depth i = s.table.depth i + s₂.table.depth i)
    (hc : s'.callArgs = s.callArgs) (hm : s'.muted = s.muted)
    (hsp : Spares s s') (hh : Heeds (fun _ => 0) s s') (n : Nat → Nat)
    (ha : ∀ i, s.table.bindings i = (s₁.table.bindings i).drop (n i))
    (ha' : ∀ i, s'.table.bindings i = (s₂.table.bindings i).drop (n i)) : Settled s s' := by
  have hu' : s'.used = s₂.used := Interp.used_congr hs' ho'
  have hb := Interp.isBound_congr hs ho
  have hb' := Interp.isBound_congr hs' ho'
  have hset := Interp.setUsed_congr hs ho s'.used
  refine ⟨?_, ?_, fun i hi => ?_, fun i hi => ?_, fun i => ?_, hc, hm, hsp, fun i hi => ?_, hh⟩
  · rw [hs', h.scopes, ← hu', hset.1]
  · rw [ho', h.outermost, ← hu', hset.2]
  · rw [hb']
    exact h.keeps i ((hb i).trans hi)
  · rw [hb'] at hi
    rw [← hb]
    exact h.slots i hi
  · have hnew := h.depth i
    have := hd i
    rw [hb] at hnew
    rw [hb']
    omega
  · rw [ha, ha']
    exact (h.aliases i hi).drop (n i)

private theorem mark_eq (h : Framed x s s') : s'.isBound maxArgs = s.isBound maxArgs := by
  have hk := h.keeps maxArgs
  have hs := h.slots maxArgs
  cases hb : s.isBound maxArgs <;> cases hb' : s'.isBound maxArgs <;> simp_all

theorem backed (h : Settled s s') (hb : ∀ i < maxArgs, pending 0 s.scopes i ≤ s.table.depth i) :
    ∀ i < maxArgs, pending 0 s'.scopes i ≤ s'.table.depth i := by
  intro i hi
  have hp := Interp.pending_setUsed s h.mark_eq (h.keeps i)
  rw [← h.scopes] at hp
  have hold := hb i hi
  have hd : s'.table.depth i = s.table.depth i + _ := h.depth i
  unfold Interp.isBound at hd
  omega

theorem outermost_all (h : Framed x s s') (ho : s.outermost = SlotSet.all) :
    s'.outermost = SlotSet.all := by
  rw [h.outermost]
  unfold Interp.setUsed
  cases hc : s.scopes with
  | cons => exact ho
  | nil =>
      have hused : s.used = SlotSet.all := by
        rw [Interp.used, hc]
        exact ho
      refine SlotSet.ext fun i => ?_
      have hk := h.keeps i
      have hs := h.slots i
      unfold Interp.isBound at hk hs
      rw [hused, SlotSet.has_all] at hk hs
      rw [SlotSet.has_all]
      by_cases hi : i < maxArgs
      · simp_all
      · cases hb : s'.used.has i <;> simp_all

end Framed

end ConsoleScript
