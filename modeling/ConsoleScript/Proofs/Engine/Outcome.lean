import ConsoleScript.Engine.Run

/-!
How computations end. The outcome of a computation is its answer, or why there is none, together
with the interpreter afterwards; outcomes of compound computations are put together from those of
their parts.
-/

namespace ConsoleScript.Engine

variable {α β : Type}

/-- How a computation ends from an interpreter. -/
def outcome (m : Engine α) (s : Interp) : Except Stop α × Interp := (ExceptT.run m).run s

theorem ext {m m' : Engine α} (h : ∀ s, outcome m s = outcome m' s) : m = m' := funext h

variable (m : Engine α) (s : Interp)

@[simp] theorem outcome_pure (a : α) : outcome (pure a) s = (.ok a, s) := rfl

@[simp] theorem outcome_throw (e : Stop) : outcome (throw e : Engine α) s = (.error e, s) := rfl

@[simp] theorem outcome_get : outcome get s = (.ok s, s) := rfl

@[simp] theorem outcome_modify (f : Interp → Interp) : outcome (modify f) s = (.ok ⟨⟩, f s) := rfl

@[simp] theorem outcome_modifyIdent (i : Nat) (f : Ident → Ident) :
    outcome (modifyIdent i f) s = (.ok ⟨⟩, s.modifyIdent i f) := rfl

theorem outcome_bind (f : α → Engine β) : outcome (m >>= f) s = match outcome m s with
    | (.ok a, s') => outcome (f a) s'
    | (.error e, s') => (.error e, s') := by
  change (ExceptT.bindCont f (outcome m s).1).run (outcome m s).2 = _
  rcases outcome m s with ⟨a | e, s'⟩ <;> rfl

theorem outcome_bind_ok {m : Engine α} {s s' : Interp} {a : α} (h : outcome m s = (.ok a, s'))
    (f : α → Engine β) : outcome (m >>= f) s = outcome (f a) s' := by
  rw [outcome_bind, h]

theorem outcome_bind_error {m : Engine α} {s s' : Interp} {e : Stop}
    (h : outcome m s = (.error e, s')) (f : α → Engine β) :
    outcome (m >>= f) s = (.error e, s') := by
  rw [outcome_bind, h]

@[simp] theorem outcome_attempt : outcome (attempt m) s = (.ok (outcome m s).1, (outcome m s).2) :=
  rfl

@[simp] theorem outcome_identAt? (i : Nat) :
    outcome (identAt? i) s = (.ok (s.table.get? i), s) := rfl

theorem outcome_identAt {s : Interp} {i : Nat} {id : Ident} (h : s.table.get? i = some id) :
    outcome (identAt i) s = (.ok id, s) := by
  unfold identAt
  rw [outcome_bind_ok (outcome_get s), h]
  rfl

theorem outcome_identAt_none {s : Interp} {i : Nat} (h : s.table.get? i = none) :
    outcome (identAt i) s = (.error (.fault { cause := .badAccess }), s) := by
  unfold identAt
  rw [outcome_bind_ok (outcome_get s), h]
  rfl

/-- A clean-up runs from where the computation ended; a fault of its own comes before that of the
computation. -/
theorem outcome_ensuring (cleanup : Engine Unit) :
    outcome (ensuring m cleanup) s = match outcome cleanup (outcome m s).2 with
      | (.ok _, s') => ((outcome m s).1, s')
      | (.error e, s') => (.error e, s') := by
  unfold ensuring
  rw [outcome_bind_ok (outcome_attempt m s)]
  rcases outcome m s with ⟨a | e, s'⟩ <;> dsimp only <;> rw [outcome_bind] <;>
    rcases outcome cleanup s' with ⟨e' | _, s''⟩ <;> rfl

theorem snd_outcome_ensuring (cleanup : Engine Unit) :
    (outcome (ensuring m cleanup) s).2 = (outcome cleanup (outcome m s).2).2 := by
  rw [outcome_ensuring]
  rcases outcome cleanup (outcome m s).2 with ⟨e | _, s'⟩ <;> rfl

theorem snd_outcome_map (f : α → β) : (outcome (do return f (← m)) s).2 = (outcome m s).2 := by
  rw [outcome_bind]
  rcases outcome m s with ⟨a | e, s'⟩ <;> rfl

theorem outcome_protect (m : Engine Value) : outcome (protect m) s = match outcome m s with
    | (.ok v, s') => (.ok (.ok v), { s' with result := v })
    | (.error (.fault f), s') => (.ok (.error f), s'.setLevel s.level)
    | (.error .exhausted, s') => (.error .exhausted, s'.setLevel s.level) := by
  unfold protect
  rw [outcome_bind_ok (outcome_get s), outcome_bind_ok (outcome_attempt m s)]
  rcases outcome m s with ⟨(f | _) | v, s'⟩ <;> rfl

theorem outcome_atLevel (enter : Level → Level) (leave : Level → Level → Level) :
    outcome (atLevel enter leave m) s = match outcome m (s.setLevel (enter s.level)) with
      | (.ok a, s') => (.ok a, s'.setLevel (leave s.level s'.level))
      | (.error e, s') => (.error e, s') := by
  unfold atLevel
  rw [outcome_bind_ok (outcome_get s), outcome_bind_ok (outcome_modify s _), outcome_bind]
  rcases outcome m (s.setLevel (enter s.level)) with ⟨e | a, s'⟩ <;> rfl

theorem outcome_atLevel_ok {m : Engine α} {enter : Level → Level} {a : α} {s s' : Interp}
    (h : outcome m (s.setLevel (enter s.level)) = (.ok a, s')) (leave : Level → Level → Level) :
    outcome (atLevel enter leave m) s = (.ok a, s'.setLevel (leave s.level s'.level)) := by
  rw [outcome_atLevel, h]

theorem atLevel_map (enter : Level → Level) (leave : Level → Level → Level) (f : α → β) :
    atLevel enter leave (do return f (← m)) = do return f (← atLevel enter leave m) := by
  refine Engine.ext fun s => ?_
  rw [outcome_atLevel, outcome_bind, outcome_bind, outcome_atLevel]
  rcases outcome m (s.setLevel (enter s.level)) with ⟨e | a, s'⟩ <;> rfl

theorem outcome_ensuringLevel (enter : Level → Level) (leave : Level → Level → Level) :
    outcome (ensuringLevel enter leave m) s = match outcome m (s.setLevel (enter s.level)) with
      | (o, s') => (o, s'.setLevel (leave s.level s'.level)) := by
  unfold ensuringLevel
  rw [outcome_bind_ok (outcome_get s), outcome_bind_ok (outcome_modify s _), outcome_ensuring]
  rfl

end ConsoleScript.Engine
