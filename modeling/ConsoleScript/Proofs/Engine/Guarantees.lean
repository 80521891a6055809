import ConsoleScript.Proofs.Engine.Lasting
import ConsoleScript.Proofs.Engine.Positions

/-!
What every part of the engine guarantees, whatever words the code is made of that it runs. A guarantee
says from which interpreters it is given, how an interpreter is afterwards, and whether a computation
ends by itself. To be met by all parts it has to be met by a few of them: by those that write an
identifier, and by those that save values of identifiers for as long as something else runs.

The writes to variables in turn are made of a few changes of the interpreter. A guarantee that is given
for each of these by itself is met by them all; one for which it matters that they come together is
shown for the writes as they are.
-/

namespace ConsoleScript

open Bytecode Engine

/-- A guarantee about computations. -/
structure Engine.Guarantee where
  /-- The interpreters from which it is given. -/
  From : Interp → Prop
  /-- How an interpreter is afterwards. -/
  To : Interp → Interp → Prop
  /-- A computation ends by itself. -/
  ends : Prop

/-- A computation meets a guarantee from an interpreter on, however it ends. -/
def Engine.MeetsAt (G : Guarantee) {α : Type} (m : Engine α) (s : Interp) : Prop :=
  G.From s → G.To s (outcome m s).2 ∧ (G.ends → (outcome m s).1 ≠ .error .exhausted)

def Engine.Meets (G : Guarantee) {α : Type} (m : Engine α) : Prop := ∀ s, MeetsAt G m s

/-- Neither the identifiers nor the calls change, nor what writes go by: it is reported something, a
result or a file is kept, it is set up how code runs, code is nested less or more deeply, or it is
noted that a text was compiled. -/
structure Interp.Aside (s s' : Interp) : Prop where
  same : s' = { s with
    events := s'.events
    maxDepth := s'.maxDepth
    trace := s'.trace
    dir := s'.dir
    disk := s'.disk
    missed := s'.missed
    level := s'.level
    result := s'.result
    muted := s'.muted
    compiled := s'.compiled }
  kept : ∀ t src name, s.compiled t src name → s'.compiled t src name

/-- An identifier gets another value, or leave to take one. -/
structure Ident.Rewrites (id id' : Ident) : Prop where
  like : id.Like id'
  saved : id'.saved = id.saved
  readOnly : id'.flags.readOnly = true →
    id.flags.readOnly = true ∧ (id'.flags.overridden = true → id.flags.overridden = true)

/-- An identifier gets another value and loses the body that was compiled for the one that it had, or
keeps both. -/
structure Ident.Revises (id id' : Ident) : Prop extends id.Rewrites id' where
  body : id'.body = none ∨ id'.body = id.body ∧ id'.value = id.value

/-- A variable of an index can be written: nothing forbids it, or it was written before. -/
def Interp.OpenAt (s : Interp) (i : Nat) : Prop :=
  ∀ id, s.table.get? i = some id → id.flags.readOnly = false ∨ id.flags.overridden = true

/-- A variable of an index takes a write, which is no override if the variable persists; where writes
override, its value from before is kept. -/
def Interp.Admitted (s : Interp) (i : Nat) : Prop :=
  ∀ id, s.table.get? i = some id → id.flags.readOnly = false ∧
    (id.flags.override = true → id.flags.persist = false) ∧
    (s.writeFlags.overridden = true → id.flags.overridden = true)

theorem Interp.Admitted.openAt {s : Interp} {i : Nat} (h : s.Admitted i) : s.OpenAt i :=
  fun id hid => .inl (h id hid).1

namespace Engine

/-- A guarantee that one computation after the other meets. -/
class Guarantee.Composes (G : Guarantee) : Prop where
  refl (s : Interp) : G.To s s
  trans {s s' s'' : Interp} : G.To s s' → G.To s' s'' → G.To s s''
  later {s s' : Interp} : G.From s → G.To s s' → G.From s'
  aside {s s' : Interp} : s.Aside s' → G.To s s'
  stamp (s : Interp) : G.To s s.stampPersistence
  push {s : Interp} {name : Bytes} (unknown : Bool) : s.table.find? name = none →
    Reading.isNumeral name = false →
      G.To s { s with table := s.table.push { name, role := .alias, flags := { unknown } } }
  withoutWhile {s : Interp} : G.ends → G.From s → s.WithoutWhile

/-- A guarantee that all computations meet which save values and restore them, if what runs in between
meets it. -/
class Guarantee.Binds (G : Guarantee) : Prop extends G.Composes where
  setArg (i : Nat) (v : Value) : Meets G (setArg i v)
  bindArg (i : Nat) : Meets G (bindArg i)
  covered {α : Type} {m : Engine α} (i : Nat) (v : Value) : Meets G m →
    Meets G (do pushArg i v; modifyIdent i clearUnknown; ensuring m (popArg i))
  withOuterArgs {α : Type} {m : Engine α} : Meets G m → Meets G (withOuterArgs m)
  withArgs {α : Type} {m : Engine α} (ident : Nat) (overridden : Bool) {args : List Value} :
    args.length ≤ maxOperands → Meets G m → Meets G (withArgs ident overridden args m)
  runFrom {k : Runner} {b : Block} : (∀ op w a, op ≠ .local → a.stack.length ≤ maxOperands →
      Meets G (perform k b op w a)) →
    ∀ left a, a.locals = [] → a.stack.length ≤ maxOperands → Meets G (runFrom k b left a)

/-- A guarantee that those parts of the engine meet on which all others rest. -/
class Guarantee.Based (G : Guarantee) : Prop extends G.Binds where
  setValue (i : Nat) (v : Value) : Meets G (modifyIdent i (·.setValue v))
  bodyOf (i : Nat) : Meets G (bodyOf i)
  setAlias (i : Nat) (v : Value) : Meets G (setAlias i v)
  setIntVar {k : Runner} (hk : ∀ b pc, Meets G (k b pc)) (i : Nat) (v : Int32) :
    Meets G (setIntVar k i v)
  setFloatVar {k : Runner} (hk : ∀ b pc, Meets G (k b pc)) (i : Nat) (v : Single) :
    Meets G (setFloatVar k i v)
  setTextVar {k : Runner} (hk : ∀ b pc, Meets G (k b pc)) (i : Nat) (t : Bytes) :
    Meets G (setTextVar k i t)
  clearOverride {k : Runner} (hk : ∀ b pc, Meets G (k b pc)) (i : Nat) : Meets G (clearOverride k i)

/-- A guarantee that is given for each of the changes of which writes to variables are made. A number
of the interpreter itself is written and announced at once. -/
class Guarantee.Lawful (G : Guarantee) : Prop extends G.Binds where
  rewrite {s : Interp} {i : Nat} {f : Ident → Ident} :
    (∀ id, s.table.get? i = some id → id.Revises (f id)) → G.To s (s.modifyIdent i f)
  bodyOf (i : Nat) : Meets G (bodyOf i)
  cell {k : Runner} (hk : ∀ b pc, Meets G (k b pc)) {s : Interp} {i : Nat} {id : Ident}
    {least greatest : Int32} {c : Cell} {watch : Watch} (v : Int32) : s.table.get? i = some id →
      id.role = .intVar least greatest (.shared c) watch → s.OpenAt i →
        MeetsAt G (do modify (·.setCell c v); notify k i) s
  mode (s : Interp) (on : Bool) : G.To s (s.setMode on)
  setAlias (i : Nat) (v : Value) : Meets G (setAlias i v)

theorem Guarantee.Composes.gains {G : Guarantee} [G.Composes] {s : Interp} {t : Table}
    (h : s.table.Gains t) : G.To s { s with table := t } := by
  induction h with
  | refl => exact Composes.refl s
  | @push t name _ hn hx ih =>
      exact Composes.trans ih (Composes.push (s := { s with table := t }) true hn hx)

namespace Meets

variable {G : Guarantee} [G.Composes] {α β : Type} {m : Engine α} {f : α → Engine β}

theorem pure (a : α) : Meets G (Pure.pure a : Engine α) :=
  fun s _ => ⟨Guarantee.Composes.refl s, fun _ h => by cases h⟩

theorem fault (e : Fault) : Meets G (throw (.fault e) : Engine α) :=
  fun s _ => ⟨Guarantee.Composes.refl s, fun _ h => by cases h⟩

theorem bindAt {s : Interp} (h : MeetsAt G m s)
    (hf : ∀ a s', outcome m s = (.ok a, s') → MeetsAt G (f a) s') : MeetsAt G (m >>= f) s := by
  intro hs
  obtain ⟨ht, he⟩ := h hs
  rw [outcome_bind]
  generalize outcome m s = o at ht he hf
  obtain ⟨e | a, s'⟩ := o
  · exact ⟨ht, fun hp h => he hp (by injection h with h; rw [h])⟩
  · obtain ⟨ht', he'⟩ := hf a s' rfl (Guarantee.Composes.later hs ht)
    exact ⟨Guarantee.Composes.trans ht ht', he'⟩

theorem bind (h : Meets G m) (hf : ∀ a, Meets G (f a)) : Meets G (m >>= f) :=
  fun s => bindAt (h s) fun a s' _ => hf a s'

omit [G.Composes] in
theorem readAt {f : Interp → Engine β} {s : Interp} (h : MeetsAt G (f s) s) :
    MeetsAt G (get >>= f) s := by
  unfold MeetsAt
  rw [outcome_bind_ok (outcome_get s)]
  exact h

omit [G.Composes] in
theorem read {f : Interp → Engine β} (h : ∀ s, Meets G (f s)) : Meets G (get >>= f) :=
  fun s => readAt (h s s)

theorem moved {m' : Engine α} (h : Meets G m) {s : Interp} (s' : Interp) (ht : G.To s s')
    (ho : outcome m' s = outcome m s') : MeetsAt G m' s := by
  intro hs
  obtain ⟨ht', he⟩ := h s' (Guarantee.Composes.later hs ht)
  rw [ho]
  exact ⟨Guarantee.Composes.trans ht ht', he⟩

omit [G.Composes] in
theorem changeAt {f : Interp → Interp} {s : Interp} (h : G.From s → G.To s (f s)) :
    MeetsAt G (modify f) s :=
  fun hs => ⟨h hs, fun _ h => by cases h⟩

theorem update {f : Interp → Interp} (h : ∀ s : Interp, s.Aside (f s)) : Meets G (modify f) :=
  fun s => changeAt fun _ => Guarantee.Composes.aside (h s)

theorem identAtAt {i : Nat} {f : Ident → Engine β} {s : Interp}
    (h : ∀ id, s.table.get? i = some id → MeetsAt G (f id) s) : MeetsAt G (identAt i >>= f) s := by
  cases hid : s.table.get? i with
  | none =>
      unfold MeetsAt
      rw [outcome_bind_error (outcome_identAt_none hid)]
      exact fault _ s
  | some id =>
      unfold MeetsAt
      rw [outcome_bind_ok (outcome_identAt hid)]
      exact h id hid

theorem identAt {i : Nat} {f : Ident → Engine β}
    (h : ∀ id, (G.ends → id.role.isWhile = false) → Meets G (f id)) :
    Meets G (identAt i >>= f) := fun s hs =>
  identAtAt (fun id hid => h id (fun hp => Guarantee.Composes.withoutWhile hp hs i id hid) s) hs

theorem identIn {b : Block} {a : Activation} {i : Nat} {f : Ident → Engine β}
    (h : ∀ id, (G.ends → id.role.isWhile = false) → Meets G (f id)) :
    Meets G (a.identIn b i >>= f) := by
  intro s hs
  cases hid : s.table.get? i with
  | none =>
      have hfault : ∃ e, outcome (a.identIn b i) s = (.error (.fault e), s) := by
        unfold Activation.identIn
        rw [outcome_bind_ok (outcome_identAt? s i), hid]
        exact ⟨_, rfl⟩
      obtain ⟨e, he⟩ := hfault
      rw [outcome_bind_error he]
      exact ⟨Guarantee.Composes.refl s, fun _ h => by cases h⟩
  | some id =>
      have hread : outcome (a.identIn b i) s = (.ok id, s) := by
        unfold Activation.identIn
        rw [outcome_bind_ok (outcome_identAt? s i), hid]
        rfl
      rw [outcome_bind_ok hread]
      exact h id (fun hp => Guarantee.Composes.withoutWhile hp hs i id hid) s hs

theorem ensuring {cleanup : Engine Unit} (h : Meets G m) (hc : Meets G cleanup) :
    Meets G (ensuring m cleanup) := by
  intro s hs
  obtain ⟨ht, he⟩ := h s hs
  obtain ⟨ht', he'⟩ := hc (outcome m s).2 (Guarantee.Composes.later hs ht)
  rw [outcome_ensuring]
  generalize outcome cleanup (outcome m s).2 = o at ht' he'
  obtain ⟨e | _, s'⟩ := o
  · exact ⟨Guarantee.Composes.trans ht ht', fun hp h => he' hp (by injection h with h; rw [h])⟩
  · exact ⟨Guarantee.Composes.trans ht ht', he⟩

theorem protect {m : Engine Value} (h : Meets G m) : Meets G (protect m) := by
  intro s hs
  obtain ⟨ht, he⟩ := h s hs
  rw [outcome_protect]
  generalize outcome m s = o at ht he
  obtain ⟨(e | _) | v, s'⟩ := o
  · refine ⟨Guarantee.Composes.trans ht (Guarantee.Composes.aside ?_), fun _ h => by cases h⟩
    exact ⟨rfl, fun _ _ _ h => h⟩
  · refine ⟨Guarantee.Composes.trans ht (Guarantee.Composes.aside ?_), fun hp => absurd rfl (he hp)⟩
    exact ⟨rfl, fun _ _ _ h => h⟩
  · refine ⟨Guarantee.Composes.trans ht (Guarantee.Composes.aside ?_), fun _ h => by cases h⟩
    exact ⟨rfl, fun _ _ _ h => h⟩

theorem setLevel (f : Interp → Level) : Meets G (modify fun s => s.setLevel (f s)) :=
  update fun _ => ⟨rfl, fun _ _ _ h => h⟩

theorem atLevel {enter : Level → Level} {leave : Level → Level → Level} (h : Meets G m) :
    Meets G (atLevel enter leave m) :=
  read fun _ => (setLevel _).bind fun _ => h.bind fun a => (setLevel _).bind fun _ => pure a

theorem ensuringLevel {enter : Level → Level} {leave : Level → Level → Level} (h : Meets G m) :
    Meets G (ensuringLevel enter leave m) :=
  read fun _ => (setLevel _).bind fun _ => h.ensuring (setLevel _)

theorem attempted {s : Interp} {f : Except Stop α → Engine β} (h : MeetsAt G m s)
    (hf : ∀ o s', outcome m s = (o, s') → (G.ends → o ≠ .error .exhausted) → MeetsAt G (f o) s') :
    MeetsAt G (attempt m >>= f) s := by
  intro hs
  obtain ⟨ht, he⟩ := h hs
  rw [outcome_bind_ok (outcome_attempt m s)]
  obtain ⟨ht', he'⟩ := hf _ _ rfl he (Guarantee.Composes.later hs ht)
  exact ⟨Guarantee.Composes.trans ht ht', he'⟩

theorem forM {γ : Type} {g : γ → Engine Unit} (h : ∀ c, Meets G (g c)) (l : List γ) :
    Meets G (l.forM g) := by
  induction l with
  | nil => exact pure _
  | cons c l ih => exact (h c).bind fun _ => ih

theorem mapM {γ : Type} {g : γ → Engine β} (h : ∀ c, Meets G (g c)) (l : List γ) :
    Meets G (l.mapM g) := by
  induction l with
  | nil => exact pure _
  | cons c l ih =>
      rw [List.mapM_cons]
      exact (h c).bind fun _ => ih.bind fun _ => pure _

end Meets

end Engine

section Activations

variable {k : Runner} {b : Block} {a a' : Activation}

/-- A later state of the same run, in which the stack is no fuller than it may be. -/
structure Activation.Follows (a a' : Activation) : Prop where
  locals : a'.locals = a.locals
  room : a.stack.length ≤ maxOperands → a'.stack.length ≤ maxOperands

namespace Activation.Follows

theorem refl (a : Activation) : a.Follows a := ⟨rfl, id⟩

theorem trans {a'' : Activation} (h : a.Follows a') (h' : a'.Follows a'') : a.Follows a'' :=
  ⟨h'.locals.trans h.locals, fun hr => h'.room (h.room hr)⟩

theorem setResult (h : a.Follows a') (v : Value) : a.Follows (a'.setResult v) := ⟨h.locals, h.room⟩

private theorem jump (h : a.Follows a') (n : UInt32) : a.Follows (a'.jump n) := ⟨h.locals, h.room⟩

theorem drop (a : Activation) (n : Nat) : a.Follows (a.drop n) := by
  refine ⟨rfl, fun hr => Nat.le_trans ?_ hr⟩
  unfold Activation.drop
  rw [List.length_drop]
  exact Nat.sub_le _ _

end Activation.Follows

theorem follows_push (v : Value) (a : Activation) : Yields (a.push v) a.Follows := by
  unfold Activation.push
  split
  next h => exact .pure ⟨rfl, fun _ => h⟩
  next => exact .stop _

private theorem follows_moved (v : Value) (a : Activation) (pc : Nat) :
    Yields (Activation.push v { a with pc }) a.Follows :=
  (follows_push v _).mono fun _ h => ⟨h.locals, h.room⟩

theorem follows_pop (a : Activation) : Yields a.pop fun p => a.Follows p.2 := by
  unfold Activation.pop
  split
  next => exact .stop _
  next v rest hstack =>
    refine .pure ⟨rfl, fun hr => ?_⟩
    rw [hstack] at hr
    exact Nat.le_of_succ_le hr

theorem Yields.followed {α : Type} {f : Value × Activation → Engine α} {P : α → Prop}
    (h : ∀ v a', a.Follows a' → Yields (f (v, a')) P) : Yields (a.pop >>= f) P :=
  (follows_pop a).bind fun p hp => h p.1 p.2 hp

theorem follows_replaceTop (f : Value → Engine Value) (a : Activation) :
    Yields (a.replaceTop f) a.Follows := by
  have htop : Yields a.top fun p => p.2.length < a.stack.length := by
    unfold Activation.top
    split
    next => exact .stop _
    next v rest hstack =>
      refine .pure ?_
      rw [hstack]
      exact Nat.lt_succ_self _
  refine htop.bind fun p hp => (Yields.any _).bind fun v _ => .pure ?_
  exact ⟨rfl, fun hr => Nat.le_trans hp hr⟩

private theorem follows_joinOperands (spaced : Bool) (n : Nat) (ret : RetTag) (a : Activation) :
    Yields (joinOperands spaced n ret a) fun p => a.Follows p.2 :=
  (Yields.any _).bind fun _ _ => .pure (.drop a n)

private theorem follows_callIdent (i : Nat) (id : Ident) (isArg : Bool) (n : Nat) (ret : RetTag)
    (a : Activation) : Yields (callIdent k i id isArg n ret a) a.Follows := by
  refine (Yields.any _).bind fun _ _ => .ite (.ite (.stop _) (.pure (.setResult (.drop a n) _))) ?_
  exact (Yields.any _).bind fun _ _ => (Yields.any _).bind fun _ _ =>
    .pure (.setResult (.drop a n) _)

private theorem follows_stepVariable (op : Op) (ret : RetTag) (i : Nat) (a : Activation) :
    Yields (stepVariable k b op ret i a) a.Follows := by
  unfold stepVariable
  split
  · exact (Yields.any _).bind fun _ _ => .followed fun _ _ h =>
      (Yields.any _).bind fun _ _ => .pure h
  · exact (Yields.any _).bind fun _ _ => .followed fun _ _ h =>
      (Yields.any _).bind fun _ _ => .pure h
  · exact .followed fun _ _ h => .followed fun _ _ h' => (Yields.any _).bind fun _ _ =>
      (Yields.any _).bind fun _ _ => .pure (h.trans h')
  · exact .followed fun _ _ h => .followed fun _ _ h' => .followed fun _ _ h'' =>
      (Yields.any _).bind fun _ _ => (Yields.any _).bind fun _ _ =>
        .pure (h.trans (h'.trans h''))
  · exact (Yields.any _).bind fun _ _ => .followed fun _ _ h =>
      (Yields.any _).bind fun _ _ => .pure h
  · exact (Yields.any _).bind fun _ _ => (Yields.any _).bind fun _ _ => .pure (.refl a)
  · exact (Yields.any _).bind fun _ _ => (Yields.any _).bind fun _ _ => follows_push _ _

private theorem follows_stepAlias (op : Op) (ret : RetTag) (i : Nat) (a : Activation) :
    Yields (stepAlias k b op ret i a) a.Follows := by
  unfold stepAlias
  split
  · exact (Yields.any _).bind fun _ _ => follows_push _ _
  · exact (Yields.any _).bind fun _ _ => (Yields.any _).bind fun _ _ => follows_push _ _
  · exact follows_replaceTop _ _
  · exact (Yields.any _).bind fun _ _ => (Yields.any _).bind fun _ _ => follows_push _ _
  · exact (Yields.any _).bind fun _ _ => (Yields.any _).bind fun _ _ => follows_push _ _
  · exact (Yields.any _).bind fun _ _ => (Yields.any _).bind fun _ _ => follows_push _ _
  · exact (Yields.any _).bind fun _ _ => (Yields.any _).bind fun _ _ => follows_push _ _
  · exact follows_replaceTop _ _
  · exact follows_replaceTop _ _
  · exact (Yields.any _).bind fun _ _ => .followed fun _ _ h =>
      (Yields.any _).bind fun _ _ => .pure h
  · exact (Yields.any _).bind fun _ _ => .followed fun _ _ h =>
      (Yields.any _).bind fun _ _ => .pure h
  · exact .followed fun _ _ h => .followed fun _ _ h' =>
      (Yields.any _).bind fun _ _ => .pure (h.trans h')

private theorem follows_stepCall (op : Op) (w : UInt32) (a : Activation) :
    Yields (stepCall k b op w a) a.Follows := by
  have hcommand (id : Ident) (n : Nat) (a : Activation) :
      Yields (callCommand k id n (Word.ret w) a) a.Follows :=
    (Yields.any _).bind fun _ _ => (Yields.any _).bind fun _ _ => .pure (.setResult (.drop a n) _)
  unfold stepCall
  split
  · exact (Yields.any _).bind fun _ _ => hcommand _ _ a
  · exact (Yields.any _).bind fun _ _ => (follows_push _ a).bind fun a' h =>
      (hcommand _ _ a').mono fun _ h' => h.trans h'
  · exact (Yields.any _).bind fun _ _ => hcommand _ _ a
  · exact (Yields.any _).bind fun _ _ => (Yields.any _).bind fun _ _ =>
      (Yields.any _).bind fun _ _ => .pure (.setResult (.drop a _) _)
  · exact (Yields.any _).bind fun _ _ => follows_callIdent _ _ _ _ _ a
  · exact (Yields.any _).bind fun _ _ => follows_callIdent _ _ _ _ _ a
  · refine (Yields.any _).bind fun args _ => ?_
    split
    · exact .stop _
    · exact (Yields.any _).bind fun _ _ => .pure (.setResult (.drop a _) _)

private theorem follows_stepJump (op : Op) (n : UInt32) (a : Activation) :
    Yields (stepJump k op n a) a.Follows := by
  have hjump {a' : Activation} (h : a.Follows a') (c : Bool) :
      a.Follows (if c then a'.jump n else a') := by
    cases c
    · exact h
    · exact h.jump n
  unfold stepJump
  split
  · exact .followed fun v a' h => .pure (hjump h v.toBool)
  · refine .followed fun v a' h => .pure ?_
    cases v.toBool
    · exact h.jump n
    · exact h
  · exact .followed fun v a' h => (Yields.any _).bind fun v' _ => .pure (hjump (h.setResult v') _)
  · exact .followed fun v a' h => (Yields.any _).bind fun v' _ => .pure (hjump (h.setResult v') _)
  · exact .pure (.jump (.refl a) n)

/-- Only the instruction that shadows aliases changes which of them a run shadows. -/
theorem follows_perform {op : Op} (hop : op ≠ .local) (w : UInt32) (a : Activation) :
    Yields (perform k b op w a) a.Follows := by
  unfold perform
  cases op with
  | «local» => exact absurd rfl hop
  | start | offset => exact .pure (.refl a)
  | null | yes | no => exact .pure (.setResult (.refl a) _)
  | exit | bool | down => exact .stop _
  | pop => exact (follows_pop a).bind fun _ h => .pure h
  | not | run | runOuter =>
      exact .followed fun _ _ h => (Yields.any _).bind fun _ _ => .pure (h.setResult _)
  | result => exact .followed fun _ _ h => .pure (h.setResult _)
  | enter => exact (Yields.any _).bind fun p _ => follows_moved p.1 a p.2
  | enterResult =>
      refine (Yields.any _).bind fun p _ => .pure ?_
      exact ⟨rfl, id⟩
  | resultArg => exact (follows_push _ _).mono fun _ h => ⟨h.locals, h.room⟩
  | val | valInline | view =>
      unfold pushLiteral
      dsimp only
      split
      · exact .stop _
      · exact follows_moved _ a _
  | dup => exact (Yields.any _).bind fun _ _ => follows_push _ _
  | block => exact (follows_push _ _).mono fun _ h => ⟨h.locals, h.room⟩
  | empty => exact follows_push _ _
  | compile | cond | force => exact follows_replaceTop _ _
  | conc | concWord =>
      exact (follows_joinOperands _ _ _ a).bind fun p h =>
        (follows_push _ _).mono fun _ h' => h.trans h'
  | concResult => exact (follows_joinOperands _ _ _ a).bind fun _ h => .pure (h.setResult _)
  | textVar | textVarView | setTextVar | intVar | setIntVar | setIntVar2 | setIntVar3 | floatVar
  | setFloatVar | print => exact follows_stepVariable _ _ _ a
  | ident | identNamed | identArg | lookup | lookupNamed | lookupArg | lookupView
  | lookupViewNamed | lookupViewArg | «alias» | aliasNamed | aliasArg =>
      exact follows_stepAlias _ _ _ a
  | com | comPressed | comJoined | comAll | call | callNamed | callArg =>
      exact follows_stepCall _ w a
  | jump | jumpTrue | jumpFalse | jumpResultTrue | jumpResultFalse => exact follows_stepJump _ _ a

/-- No step overfills the stack. -/
theorem yields_step_room (ha : a.stack.length ≤ maxOperands) :
    Yields (step k b a) fun next => ∀ a', next = .go a' → a'.stack.length ≤ maxOperands := by
  have hgo {m : Engine Activation} (h : Yields m fun a' => a'.stack.length ≤ maxOperands) :
      Yields (do return Next.go (← m)) fun next =>
        ∀ a', next = .go a' → a'.stack.length ≤ maxOperands :=
    h.bind fun a₁ h₁ => .pure fun a' h => by
      cases h
      exact h₁
  unfold step
  split
  · exact .stop _
  · split
    · exact .stop _
    · exact .pure fun _ h => by cases h
    next _ op _ _ =>
      refine hgo ?_
      by_cases hop : op = .local
      · subst hop
        refine (Yields.any _).bind fun _ _ => (Yields.any _).bind fun _ _ => .pure ?_
        exact (Activation.Follows.drop a _).room ha
      · exact (follows_perform hop _ _).mono fun _ h => h.room ha

end Activations

end ConsoleScript
