import ConsoleScript.Proofs.Engine.Runs

/-!
Positions of runs. An instruction leaves the position alone unless it is a literal, a jump or enters
code, and no instruction goes back. So a run that has enough steps left for the rest of its block
does not depend on how many they are, and code ends where its layout says, in whatever state of the
interpreter it is run and whatever happens on the way.
-/

namespace ConsoleScript

open Bytecode Engine

variable {k : Runner} {b : Block} {a : Activation}

namespace Yields

variable {α : Type} {P Q : α → Prop} {m m' : Engine α}

theorem stop (e : Stop) : Yields (throw e : Engine α) P := by
  intro s a s' h
  rw [outcome_throw] at h
  cases h

theorem mono (h : Yields m P) (hpq : ∀ a, P a → Q a) : Yields m Q :=
  fun s a s' ha => hpq a (h s a s' ha)

theorem ite {c : Prop} [Decidable c] (h : Yields m P) (h' : Yields m' P) :
    Yields (if c then m else m') P := by
  split
  · exact h
  · exact h'

theorem attempt (h : Yields m P) : Yields (Engine.attempt m) fun o => ∀ a, o = .ok a → P a := by
  intro s o s' ho a ha
  rw [outcome_attempt] at ho
  cases ho
  exact h s a _ (Prod.ext ha rfl)

theorem atLevel {enter : Level → Level} {leave : Level → Level → Level} (h : Yields m P) :
    Yields (Engine.atLevel enter leave m) P :=
  (any _).bind fun _ _ => (any _).bind fun _ _ => h.bind fun _ ha => (any _).bind fun _ _ => .pure ha

end Yields

section Stack

theorem yields_push (v : Value) (a : Activation) :
    Yields (a.push v) fun a' => a'.pc = a.pc := by
  unfold Activation.push
  exact .ite (.pure rfl) (.stop _)

theorem yields_pop (a : Activation) : Yields a.pop fun p => p.2.pc = a.pc := by
  unfold Activation.pop
  split
  · exact .stop _
  · exact .pure rfl

theorem yields_replaceTop (f : Value → Engine Value) (a : Activation) :
    Yields (a.replaceTop f) fun a' => a'.pc = a.pc :=
  (Yields.any _).bind fun _ _ => (Yields.any _).bind fun _ _ => .pure rfl

theorem Yields.afterPop {α : Type} {f : Value × Activation → Engine α} {P : α → Prop}
    (h : ∀ v a', a'.pc = a.pc → Yields (f (v, a')) P) : Yields (a.pop >>= f) P :=
  (yields_pop a).bind fun p hp => h p.1 p.2 hp

private theorem yields_joinOperands (spaced : Bool) (n : Nat) (ret : RetTag) (a : Activation) :
    Yields (joinOperands spaced n ret a) fun p => p.2.pc = a.pc :=
  (Yields.any _).bind fun _ _ => .pure rfl

end Stack

section Instructions

private theorem yields_callCommand (id : Ident) (n : Nat) (ret : RetTag) (a : Activation) :
    Yields (callCommand k id n ret a) fun a' => a'.pc = a.pc :=
  (Yields.any _).bind fun _ _ => (Yields.any _).bind fun _ _ => .pure rfl

private theorem yields_callJoined (id : Ident) (n : Nat) (ret : RetTag) (a : Activation) :
    Yields (callJoined k id n ret a) fun a' => a'.pc = a.pc :=
  (Yields.any _).bind fun _ _ => (Yields.any _).bind fun _ _ => .pure rfl

private theorem yields_callIdent (i : Nat) (id : Ident) (isArg : Bool) (n : Nat) (ret : RetTag)
    (a : Activation) : Yields (callIdent k i id isArg n ret a) fun a' => a'.pc = a.pc := by
  refine (Yields.any _).bind fun _ _ => .ite (.ite (.stop _) (.pure rfl)) ?_
  exact (Yields.any _).bind fun _ _ => (Yields.any _).bind fun _ _ => .pure rfl

private theorem yields_stepVariable (b : Block) (op : Op) (ret : RetTag) (i : Nat)
    (a : Activation) :
    Yields (stepVariable k b op ret i a) fun a' => a'.pc = a.pc := by
  unfold stepVariable
  split
  · exact (Yields.any _).bind fun _ _ => .afterPop fun _ _ h =>
      (Yields.any _).bind fun _ _ => .pure h
  · exact (Yields.any _).bind fun _ _ => .afterPop fun _ _ h =>
      (Yields.any _).bind fun _ _ => .pure h
  · exact .afterPop fun _ _ h => .afterPop fun _ _ h' => (Yields.any _).bind fun _ _ =>
      (Yields.any _).bind fun _ _ => .pure (h'.trans h)
  · exact .afterPop fun _ _ h => .afterPop fun _ _ h' => .afterPop fun _ _ h'' =>
      (Yields.any _).bind fun _ _ => (Yields.any _).bind fun _ _ =>
        .pure (h''.trans (h'.trans h))
  · exact (Yields.any _).bind fun _ _ => .afterPop fun _ _ h =>
      (Yields.any _).bind fun _ _ => .pure h
  · exact (Yields.any _).bind fun _ _ => (Yields.any _).bind fun _ _ => .pure rfl
  · exact (Yields.any _).bind fun _ _ => (Yields.any _).bind fun _ _ => yields_push _ _

private theorem yields_stepAlias (b : Block) (op : Op) (ret : RetTag) (i : Nat) (a : Activation) :
    Yields (stepAlias k b op ret i a) fun a' => a'.pc = a.pc := by
  unfold stepAlias
  split
  · exact (Yields.any _).bind fun _ _ => yields_push _ _
  · exact (Yields.any _).bind fun _ _ => (Yields.any _).bind fun _ _ => yields_push _ _
  · exact yields_replaceTop _ _
  · exact (Yields.any _).bind fun _ _ => (Yields.any _).bind fun _ _ => yields_push _ _
  · exact (Yields.any _).bind fun _ _ => (Yields.any _).bind fun _ _ => yields_push _ _
  · exact (Yields.any _).bind fun _ _ => (Yields.any _).bind fun _ _ => yields_push _ _
  · exact (Yields.any _).bind fun _ _ => (Yields.any _).bind fun _ _ => yields_push _ _
  · exact yields_replaceTop _ _
  · exact yields_replaceTop _ _
  · exact (Yields.any _).bind fun _ _ => .afterPop fun _ _ h =>
      (Yields.any _).bind fun _ _ => .pure h
  · exact (Yields.any _).bind fun _ _ => .afterPop fun _ _ h =>
      (Yields.any _).bind fun _ _ => .pure h
  · exact .afterPop fun _ _ h => .afterPop fun _ _ h' =>
      (Yields.any _).bind fun _ _ => .pure (h'.trans h)

private theorem yields_stepCall (b : Block) (op : Op) (w : UInt32) (a : Activation) :
    Yields (stepCall k b op w a) fun a' => a'.pc = a.pc := by
  unfold stepCall
  split
  · exact (Yields.any _).bind fun _ _ => yields_callCommand _ _ _ _
  · exact (Yields.any _).bind fun _ _ => (yields_push _ a).bind fun _ h =>
      (yields_callCommand _ _ _ _).mono fun _ h' => h'.trans h
  · exact (Yields.any _).bind fun _ _ => yields_callCommand _ _ _ _
  · exact (Yields.any _).bind fun _ _ => yields_callJoined _ _ _ _
  · exact (Yields.any _).bind fun _ _ => yields_callIdent _ _ _ _ _ _
  · exact (Yields.any _).bind fun _ _ => yields_callIdent _ _ _ _ _ _
  · refine (Yields.any _).bind fun args _ => ?_
    split
    · exact .stop _
    · exact (Yields.any _).bind fun _ _ => .pure rfl

end Instructions

/-- The instructions of one word behind which the next one follows. -/
def Bytecode.Op.isSingle (op : Op) : Bool := op.isForward && !op.isLiteral

/-- Such an instruction leaves the position alone. -/
theorem yields_perform_single {op : Op} (hop : op.isSingle = true) (w : UInt32) :
    Yields (perform k b op w a) fun a' => a'.pc = a.pc := by
  unfold perform
  cases op with
  | exit | enter | enterResult | val | valInline | view | block | jump | jumpTrue | jumpFalse
  | jumpResultTrue | jumpResultFalse => cases hop
  | start | offset | null | yes | no => exact .pure rfl
  | bool | down => exact .stop _
  | pop => exact (yields_pop a).bind fun _ h => .pure h
  | not | run | runOuter =>
      exact .afterPop fun _ _ h => (Yields.any _).bind fun _ _ => .pure h
  | result => exact .afterPop fun _ _ h => .pure h
  | resultArg => exact yields_push _ _
  | dup => exact (Yields.any _).bind fun _ _ => yields_push _ _
  | empty => exact yields_push _ _
  | compile | cond | force => exact yields_replaceTop _ _
  | conc | concWord =>
      exact (yields_joinOperands _ _ _ a).bind fun p h =>
        (yields_push _ _).mono fun _ h' => h'.trans h
  | concResult => exact (yields_joinOperands _ _ _ a).bind fun _ h => .pure h
  | textVar | textVarView | setTextVar | intVar | setIntVar | setIntVar2 | setIntVar3 | floatVar
  | setFloatVar | print => exact yields_stepVariable b _ _ _ a
  | ident | identNamed | identArg | lookup | lookupNamed | lookupArg | lookupView
  | lookupViewNamed | lookupViewArg | «alias» | aliasNamed | aliasArg =>
      exact yields_stepAlias b _ _ _ a
  | com | comPressed | comJoined | comAll | call | callNamed | callArg =>
      exact yields_stepCall b _ w a
  | «local» => exact (Yields.any _).bind fun _ _ => (Yields.any _).bind fun _ _ => .pure rfl

theorem size_of_decode {words : Array UInt32} {pc : Nat} {i : Instr}
    (h : decode words pc = .ok i) : 0 < i.size := by
  have htext {n : Nat} {f : Bytes → Instr} (hf : ∀ s, 0 < (f s).size)
      (h : (textAt words (pc + 1) n >>= fun s => Except.ok (f s)) = .ok i) : 0 < i.size := by
    cases ht : textAt words (pc + 1) n with
    | error e =>
        rw [ht] at h
        cases h
    | ok s =>
        rw [ht] at h
        cases h
        exact hf s
  unfold decode at h
  dsimp only at h
  split at h
  · cases h
  · split at h
    · cases h
    · cases h
      exact Nat.one_pos
    · split at h
      · cases h
        exact Nat.one_pos
      · cases h
        exact Nat.two_pos
      · cases h
        exact Nat.two_pos
      · exact htext (fun _ => Nat.add_pos_left Nat.one_pos _) h
      · cases h
    · exact htext (fun _ => Nat.add_pos_left Nat.one_pos _) h
    · cases h
      exact Nat.one_pos

/-- A runner that ends behind the code that it runs. -/
def Forward (k : Runner) : Prop := ∀ b pc, Yields (k b pc) fun p => pc < p.2

private theorem yields_pushLiteral (op : Op) (a : Activation) :
    Yields (pushLiteral b op a) fun a' => a.pc ≤ a'.pc := by
  unfold pushLiteral
  dsimp only
  split
  next => exact .stop _
  next i hi =>
    have := size_of_decode hi
    refine (yields_push _ _).mono fun a' h => ?_
    rw [h]
    dsimp only
    omega

private theorem yields_stepJump (op : Op) (n : UInt32) (a : Activation) :
    Yields (stepJump k op n a) fun a' => a.pc ≤ a'.pc := by
  have hjump {a' : Activation} (h : a'.pc = a.pc) : a.pc ≤ (a'.jump n).pc :=
    h ▸ Nat.le_add_right _ _
  have hset {a' : Activation} (v : Value) (h : a'.pc = a.pc) : (a'.setResult v).pc = a.pc := h
  unfold stepJump
  split
  · refine .afterPop fun v a' h => .pure ?_
    split
    · exact hjump h
    · exact Nat.le_of_eq h.symm
  · refine .afterPop fun v a' h => .pure ?_
    split
    · exact Nat.le_of_eq h.symm
    · exact hjump h
  · refine .afterPop fun v a' h => (Yields.any _).bind fun v' _ => .pure ?_
    split
    · exact hjump (hset v' h)
    · exact Nat.le_of_eq (hset v' h).symm
  · refine .afterPop fun v a' h => (Yields.any _).bind fun v' _ => .pure ?_
    split
    · exact hjump (hset v' h)
    · exact Nat.le_of_eq (hset v' h).symm
  · exact .pure (hjump rfl)

/-- No instruction goes back. -/
theorem yields_perform (hk : Forward k) (op : Op) (w : UInt32) (a : Activation) :
    Yields (perform k b op w a) fun a' => a.pc ≤ a'.pc := by
  by_cases hop : op.isSingle = true
  · exact (yields_perform_single hop w).mono fun _ h => Nat.le_of_eq h.symm
  · unfold perform
    cases op with
    | exit => exact .stop _
    | enter =>
        refine (hk b a.pc).bind fun p hp => (yields_push _ _).mono fun a' h => ?_
        rw [h]
        exact Nat.le_of_lt hp
    | enterResult => exact (hk b a.pc).bind fun p hp => .pure (Nat.le_of_lt hp)
    | val | valInline | view => exact yields_pushLiteral _ a
    | block =>
        refine (yields_push _ _).mono fun a' h => ?_
        rw [h]
        exact Nat.le_add_right _ _
    | jump | jumpTrue | jumpFalse | jumpResultTrue | jumpResultFalse => exact yields_stepJump _ _ a
    | _ => exact absurd rfl hop

/-- The position that a step leads to lies behind another one. -/
def Engine.Next.Behind (pc : Nat) : Next → Prop
  | .go a => pc < a.pc
  | .done _ pc' => pc < pc'

theorem yields_step (hk : Forward k) (b : Block) (a : Activation) :
    Yields (step k b a) (Next.Behind a.pc) := by
  unfold step
  split
  · exact .stop _
  · split
    · exact .stop _
    · exact .pure (Nat.lt_succ_self _)
    · exact (yields_perform hk _ _ _).bind fun _ h => .pure h

private theorem yields_runFrom (hk : Forward k) (b : Block) (left : Nat) (a : Activation) :
    Yields (runFrom k b left a) fun p => a.pc < p.2 := by
  induction left generalizing a with
  | zero => exact (Yields.any _).bind fun _ _ => .stop _
  | succ left ih =>
      refine (yields_step hk b a).attempt.bind fun o ho => ?_
      rcases o with e | a' | ⟨v, pc⟩
      · exact (Yields.any _).bind fun _ _ => .stop _
      · exact (ih a').mono fun _ h => Nat.lt_trans (ho _ rfl) h
      · exact (Yields.any _).bind fun _ _ => .pure (ho _ rfl)

private theorem yields_skipFrom (b : Block) (start left depth pc : Nat) :
    Yields (skipFrom b start left depth pc) fun p => pc < p.2 := by
  fun_induction skipFrom b start left depth pc with
  | case1 | case2 | case3 => exact .stop _
  | case6 left pc _ i hi next =>
      have := size_of_decode hi
      exact .pure (by omega)
  | _ =>
      have hsize := size_of_decode ‹decode _ _ = .ok _›
      exact Yields.mono ‹Yields _ _› fun _ h => by omega

theorem forward_run (room : Nat) : Forward (run room) := by
  induction room with
  | zero => exact fun b pc => (Yields.any _).bind fun _ _ => yields_skipFrom b _ _ _ pc
  | succ room ih => exact fun b pc => .atLevel (yields_runFrom ih b _ { pc })

section Steps

/-- Goes on with a run from where a computation of its state has led. If there is none, the aliases
that the run shadows are restored. -/
def Engine.goOn (k : Runner) (b : Block) (left : Nat) (locals : List Nat) (m : Engine Activation) :
    Engine (Value × Nat) := do
  match ← attempt m with
  | .ok a => runFrom k b left a
  | .error e =>
      endLocals locals
      throw e

theorem runFrom_succ {w : UInt32} {op : Op} (hw : b.words[a.pc]? = some w)
    (ho : Word.op? w = some op) (hx : op ≠ .exit) (left : Nat) : runFrom k b (left + 1) a =
      goOn k b left a.locals (perform k b op w { a with pc := a.pc + 1 }) := by
  refine Engine.ext fun s => ?_
  rw [runFrom, goOn, outcome_bind_ok (outcome_attempt _ _), outcome_bind_ok (outcome_attempt _ _),
    World.step_perform hw ho hx, outcome_bind]
  rcases outcome (perform k b op w { a with pc := a.pc + 1 }) s with ⟨e | a', s'⟩ <;> rfl

/-- Steps that are not needed make no difference: a run with enough of them left for the rest of
its block ends before they run out. -/
theorem runFrom_enough (hk : Forward k) {left left' : Nat} (h : b.size < a.pc + left)
    (h' : b.size < a.pc + left') : runFrom k b left a = runFrom k b left' a := by
  -- Behind the last word a step faults as a run without steps does.
  have hend {a : Activation} (ha : b.size < a.pc) (n : Nat) :
      runFrom k b n a = runFrom k b 0 a := by
    cases n with
    | zero => rfl
    | succ n =>
        have hw : b.words[a.pc]? = none := Array.getElem?_eq_none (Nat.le_of_lt ha)
        simp only [runFrom, step, hw]
        rfl
  induction left generalizing a left' with
  | zero => exact (hend h left').symm
  | succ left ih =>
      cases left' with
      | zero => exact hend h' _
      | succ left' =>
          refine Engine.ext fun s => ?_
          rw [runFrom, runFrom, outcome_bind_ok (outcome_attempt _ _),
            outcome_bind_ok (outcome_attempt _ _)]
          cases ho : outcome (step k b a) s with
          | mk o s' =>
              rcases o with e | a' | ⟨v, pc⟩
              · rfl
              · have hlt : a.pc < a'.pc := yields_step hk b a s _ s' ho
                exact congrArg (outcome · s') (ih (by omega) (by omega))
              · rfl

theorem goOn_pure (a : Activation) (left : Nat) (locals : List Nat) :
    goOn k b left locals (pure a) = runFrom k b left a := rfl

/-- A run goes on alike from an interpreter if it does so from where its next computation ends. -/
theorem outcome_goOn_bind_congr {α : Type} {m : Engine α} {f g : α → Engine Activation}
    {left left' : Nat} {locals : List Nat} {s : Interp}
    (h : ∀ v s', outcome m s = (.ok v, s') →
      outcome (goOn k b left locals (f v)) s' = outcome (goOn k b left' locals (g v)) s') :
    outcome (goOn k b left locals (m >>= f)) s = outcome (goOn k b left' locals (m >>= g)) s := by
  rw [goOn, goOn, outcome_bind_ok (outcome_attempt _ _), outcome_bind_ok (outcome_attempt _ _),
    outcome_bind, outcome_bind]
  cases ho : outcome m s with
  | mk o s' =>
      rcases o with e | v
      · rfl
      · have hv := h v s' ho
        simp only [goOn, outcome_bind_ok (outcome_attempt _ _)] at hv
        exact hv

theorem goOn_bind_congr {α : Type} {m : Engine α} {f g : α → Engine Activation}
    {left left' : Nat} {locals : List Nat}
    (h : Yields m fun v => goOn k b left locals (f v) = goOn k b left' locals (g v)) :
    goOn k b left locals (m >>= f) = goOn k b left' locals (m >>= g) :=
  Engine.ext fun s => outcome_goOn_bind_congr fun v s' hv => congrArg (outcome · s') (h s v s' hv)

private theorem goOn_congr {m : Engine Activation} {left left' : Nat}
    (h : Yields m fun a => runFrom k b left a = runFrom k b left' a) (locals : List Nat) :
    goOn k b left locals m = goOn k b left' locals m := by
  have hpure : goOn k b left locals (m >>= pure) = goOn k b left' locals (m >>= pure) :=
    goOn_bind_congr h
  rwa [bind_pure] at hpure

theorem runFrom_perform (hk : Forward k) {w : UInt32} {op : Op} (hw : b.words[a.pc]? = some w)
    (ho : Word.op? w = some op) (hx : op ≠ .exit) {left : Nat} (h : b.size < a.pc + left) :
    runFrom k b left a =
      goOn k b left a.locals (perform k b op w { a with pc := a.pc + 1 }) := by
  have := Block.lt_size hw
  obtain ⟨left, rfl⟩ : ∃ n, left = n + 1 := ⟨left - 1, by omega⟩
  rw [runFrom_succ hw ho hx]
  refine goOn_congr ((yields_perform hk op w _).mono fun a' ha' => ?_) _
  have ha' : a.pc + 1 ≤ a'.pc := ha'
  exact runFrom_enough hk (by omega) (by omega)

end Steps

section Ends

variable {r : Rigour} {t : Table} {h e : Nat}

/-- Behind an instruction of one word that does not jump, the code can be run further. -/
theorem After.next {op : Op} {word : UInt32} {pc : Nat} (h0 : After r t b word pc h e op)
    (hop : op.isSingle = true) : ∃ m, Runnable r t b (pc + 1) m e := by
  cases op with
  | exit | enter | enterResult | val | valInline | view | block | jump | jumpTrue | jumpFalse
  | jumpResultTrue | jumpResultFalse => exact absurd hop Bool.false_ne_true
  | start | offset | bool | down => exact h0.elim
  | «local» =>
      obtain ⟨m, -, hr⟩ := h0
      exact ⟨m, hr⟩
  | comAll | comJoined | call | callArg =>
      obtain ⟨m, -, -, hr⟩ := h0
      exact ⟨m, hr⟩
  | _ =>
      obtain ⟨-, -, m, -, -, hr⟩ := h0
      exact ⟨m, hr⟩

/-- A step leads to where the code can be run further, or is the exit. -/
def Engine.Next.Runs (r : Rigour) (t : Table) (b : Block) (e : Nat) : Next → Prop
  | .go a => ∃ m, Runnable r t b a.pc m e
  | .done _ pc => pc = e

private theorem yields_step_runs
    (hk : ∀ pc h e, Runnable r t b pc h e → Yields (k b pc) fun p => p.2 = e)
    (h0 : Runnable r t b a.pc h e) : Yields (step k b a) (Next.Runs r t b e) := by
  obtain ⟨word, op, hw, ho⟩ := h0.word
  have hafter := h0.after hw ho
  by_cases hx : op = .exit
  · subst hx
    rw [World.step_exit hw ho]
    exact .pure hafter.symm
  rw [World.step_perform hw ho hx]
  have hgo {m : Engine Activation} (h : Yields m fun a' => ∃ m, Runnable r t b a'.pc m e) :
      Yields (do return Next.go (← m)) (Next.Runs r t b e) := h.bind fun _ h => .pure h
  refine hgo ?_
  by_cases hop : op.isSingle = true
  · -- Such an instruction is followed by the next one.
    refine (yields_perform_single hop word).mono fun a' hpc => ?_
    rw [hpc]
    exact hafter.next hop
  · unfold perform
    cases op with
    | exit => exact absurd rfl hx
    | enter =>
        obtain ⟨q, m, hb, -, hr⟩ := hafter
        refine (hk _ _ _ hb).bind fun p hp => (yields_push _ _).mono fun a' hpc => ⟨m, ?_⟩
        rw [hpc]
        exact hp ▸ hr
    | enterResult =>
        obtain ⟨q, hb, hr⟩ := hafter
        exact (hk _ _ _ hb).bind fun p hp => .pure ⟨h, hp ▸ hr⟩
    | val | valInline | view =>
        obtain ⟨n, m, hl, -, hr⟩ := hafter
        obtain ⟨-, i, -, -, -, hd, hsize⟩ := hl
        simp only [pushLiteral, Nat.add_sub_cancel, hd]
        refine (yields_push _ _).mono fun a' hpc => ⟨m, ?_⟩
        rw [hpc]
        exact hsize ▸ hr
    | block =>
        obtain ⟨-, m, -, hr⟩ := hafter
        refine (yields_push _ _).mono fun a' hpc => ⟨m, ?_⟩
        rw [hpc]
        exact hr
    | jump => exact .pure ⟨h, hafter⟩
    | jumpTrue | jumpFalse =>
        obtain ⟨m, -, hr, hj⟩ := hafter
        refine .afterPop fun v a' hpc => .pure ⟨m, ?_⟩
        split
        · first
            | exact (hpc ▸ hr : Runnable r t b a'.pc m e)
            | exact (hpc ▸ hj : Runnable r t b (a'.pc + (Word.arg word).toNat) m e)
        · first
            | exact (hpc ▸ hr : Runnable r t b a'.pc m e)
            | exact (hpc ▸ hj : Runnable r t b (a'.pc + (Word.arg word).toNat) m e)
    | jumpResultTrue | jumpResultFalse =>
        obtain ⟨m, -, hr, hj⟩ := hafter
        refine .afterPop fun v a' hpc => (Yields.any _).bind fun v' _ => .pure ⟨m, ?_⟩
        split
        · exact (hpc ▸ hj : Runnable r t b (a'.pc + (Word.arg word).toNat) m e)
        · exact (hpc ▸ hr : Runnable r t b a'.pc m e)
    | _ => exact absurd rfl hop

private theorem yields_runFrom_end
    (hk : ∀ pc h e, Runnable r t b pc h e → Yields (k b pc) fun p => p.2 = e) (left : Nat)
    (h0 : Runnable r t b a.pc h e) : Yields (runFrom k b left a) fun p => p.2 = e := by
  induction left generalizing a h with
  | zero => exact (Yields.any _).bind fun _ _ => .stop _
  | succ left ih =>
      refine (yields_step_runs hk h0).attempt.bind fun o ho => ?_
      rcases o with stop | a' | ⟨v, pc⟩
      · exact (Yields.any _).bind fun _ _ => .stop _
      · obtain ⟨m, hr⟩ := ho _ rfl
        exact ih hr
      · exact (Yields.any _).bind fun _ _ => .pure (ho _ rfl)

theorem Runnable.ends {pc : Nat} (h0 : Runnable r t b pc h e) (room : Nat) :
    Yields (run room b pc) fun p => p.2 = e := by
  induction room generalizing pc h e with
  | zero =>
      refine (Yields.any _).bind fun _ _ => ?_
      obtain ⟨ret, _, -, hskip⟩ := h0.skipsTo pc (b.size + 1)
        (Nat.lt_of_lt_of_le (Nat.lt_succ_self _) (Nat.le_add_left _ _))
      rw [skip, hskip]
      exact .pure rfl
  | succ room ih => exact .atLevel (yields_runFrom_end (fun _ _ _ h => ih h) _ h0)

end Ends

end ConsoleScript
