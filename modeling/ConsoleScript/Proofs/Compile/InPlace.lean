import ConsoleScript.Proofs.Compile.Agreement

/-!
Block literals that are compiled in place. The compiler that reads a text and the one that reads a
thinner text go through the same statements and arguments and give the same code, so the code of a
block literal is the code of the text that the literal stands for elsewhere.
-/

namespace ConsoleScript.Compile

open Bytecode Syntax

/-- A word that is wanted as code is compiled as a text of its own, which is no shorter. -/
def Want.cost : Want → Nat
  | .code | .condition => 1
  | _ => 0

theorem Want.cost_le (w : Want) : w.cost ≤ 1 := by
  cases w <;> decide

/-- Two compilers for nested arguments and first words agree on texts that are shorter than their
levels. -/
structure Nested.InStep (l₁ l₂ : Nat) (k₁ k₂ : Nested) : Prop where
  builds : k₁.Builds
  arg : ∀ (want : Want) (prev : Nat) {n₁ n₂ : Nat}, n₁ ≤ l₁ - want.cost → n₂ ≤ l₂ - want.cost →
    Agree (Near n₁ n₂) (k₁.arg want prev) (k₂.arg want prev) (Passed n₁ n₂)
  head : ∀ (prev : Nat) {n₁ n₂ : Nat}, n₁ ≤ l₁ → n₂ ≤ l₂ →
    Agree (Near n₁ n₂) (k₁.head prev) (k₂.head prev) (Passed n₁ n₂)

section Calls

variable {k₁ k₂ : Nested} {l₁ l₂ n₁ n₂ : Nat} {α : Type} {post : α → State → State → Prop}

theorem Near.onward {s₁ s₂ : State} (h : Near n₁ n₂ s₁ s₂) : Onward n₁ n₂ true s₁ s₂ := ⟨h, nofun⟩

theorem Onward.mono {more : Bool} {m₁ m₂ : Nat} {s₁ s₂ : State} (h : Onward n₁ n₂ more s₁ s₂)
    (h₁ : n₁ ≤ m₁) (h₂ : n₂ ≤ m₂) : Onward m₁ m₂ more s₁ s₂ := ⟨h.near.mono h₁ h₂, h.atEnd⟩

theorem not_near_zero_left (s₁ s₂ : State) : ¬Near 0 n₂ s₁ s₂ :=
  fun h => Nat.not_lt_zero _ h.short₁

theorem not_near_zero_right (s₁ s₂ : State) : ¬Near n₁ 0 s₁ s₂ :=
  fun h => Nat.not_lt_zero _ h.short₂

/-- Reading and dropping arguments ends where there is none, as there are no more than bytes. -/
theorem agree_dropArgs (hk : Nested.InStep l₁ l₂ k₁ k₂) (h₁ : n₁ ≤ l₁) (h₂ : n₂ ≤ l₂) (prev : Nat)
    (fuel₁ fuel₂ : Nat) : Agree (Near (min n₁ fuel₁) (min n₂ fuel₂)) (dropArgs k₁ prev fuel₁)
      (dropArgs k₂ prev fuel₂) fun _ => Onward n₁ n₂ false := by
  induction fuel₁ generalizing fuel₂ with
  | zero =>
      rw [Nat.min_zero]
      exact .vacuous (fun s => .refl s) not_near_zero_left
  | succ fuel₁ ih =>
      cases fuel₂ with
      | zero =>
          rw [Nat.min_zero]
          exact .vacuous (fun s => (makes_dropArgs hk.builds prev _ s).1) not_near_zero_right
      | succ fuel₂ =>
          have harg : Agree (Near (min n₁ (fuel₁ + 1)) (min n₂ (fuel₂ + 1)))
              (k₁.arg .nothing prev) (k₂.arg .nothing prev) _ :=
            hk.arg .nothing prev (by simp only [Want.cost]; omega) (by simp only [Want.cost]; omega)
          refine harg.bind fun answer => ?_
          cases answer with
          | none => exact .pure fun s₁ s₂ h => h.mono (Nat.min_le_left _ _) (Nat.min_le_left _ _)
          | some code =>
              refine .bind ((ih fuel₂).restrict fun s₁ s₂ h => h.mono ?_ ?_)
                fun rest => .pure fun _ _ h => h
              · omega
              · omega

theorem agree_surplusArgs (hk : Nested.InStep l₁ l₂ k₁ k₂) (h₁ : n₁ ≤ l₁) (h₂ : n₂ ≤ l₂)
    (more : Bool) (prev : Nat) :
    Agree (Onward n₁ n₂ more) (surplusArgs k₁ more prev) (surplusArgs k₂ more prev)
      fun _ => Onward n₁ n₂ false := by
  refine .ite (fun _ => .onCursor fun c₁ c₂ => ?_) fun hm => .pure fun s₁ s₂ h => ?_
  · refine (agree_dropArgs hk h₁ h₂ prev _ _).restrict fun s₁ s₂ h => ?_
    exact h.1.near.tighten (congrArg Cursor.rest h.2.1) (congrArg Cursor.rest h.2.2)
  · exact Bool.eq_false_iff.mpr hm ▸ h

variable (hk : Nested.InStep l₁ l₂ k₁ k₂) (h₁ : n₁ ≤ l₁ - 1) (h₂ : n₂ ≤ l₂ - 1)
include hk h₁ h₂

theorem Nested.InStep.take {want : Want} {prev : Nat} {f₁ f₂ : Option Code → CompileM α}
    (hnone : Agree (Onward n₁ n₂ false) (f₁ none) (f₂ none) post)
    (hsome : ∀ code, Agree (Near n₁ n₂) (f₁ (some code)) (f₂ (some code)) post) :
    Agree (Near n₁ n₂) (k₁.arg want prev >>= f₁) (k₂.arg want prev >>= f₂) post := by
  have hcost := want.cost_le
  refine (hk.arg want prev (by omega) (by omega)).bind fun answer => ?_
  cases answer with
  | none => exact hnone
  | some code =>
      exact (hsome code).restrict fun _ _ h => h.mono (Nat.sub_le _ _) (Nat.sub_le _ _)

theorem agree_takeArgs (want : Want) (prev left given : Nat) :
    Agree (Near n₁ n₂) (takeArgs k₁ want prev left given) (takeArgs k₂ want prev left given)
      fun a => Onward n₁ n₂ a.2.2 := by
  induction left generalizing given with
  | zero => exact .pure fun _ _ h => h.onward
  | succ left ih =>
      refine hk.take h₁ h₂ (.pure fun _ _ h => h) fun code => ?_
      exact (ih (given + 1)).bind fun a => .pure fun _ _ h => h

private theorem agree_argOr (want : Want) (prev : Nat) (missing : Code) :
    Agree (Near n₁ n₂) (argOr k₁ want prev missing) (argOr k₂ want prev missing)
      fun a => Onward n₁ n₂ a.2 :=
  hk.take h₁ h₂ (.pure fun _ _ h => h) fun _ => .pure fun _ _ h => h.onward

theorem agree_callComputed (push : Code) (prev : Nat) :
    Agree (Near n₁ n₂) (callComputed k₁ push prev) (callComputed k₂ push prev)
      fun a => Onward n₁ n₂ a.2 :=
  (agree_takeArgs hk h₁ h₂ .anyView (prev + 1) maxArgs 0).bind fun _ => .pure fun _ _ h => h

private theorem agree_argIfMore (want : Want) (prev : Nat) (more : Bool) :
    Agree (Onward n₁ n₂ more) (argIfMore k₁ want prev more) (argIfMore k₂ want prev more)
      fun answer => Onward n₁ n₂ (answer.isSome && more) := by
  cases more with
  | false => exact .ite nofun fun _ => .pure fun _ _ h => h
  | true =>
      have hcost := want.cost_le
      refine .ite (fun _ => ?_) fun h => absurd rfl h
      refine ((hk.arg want prev (by omega) (by omega)).restrict fun _ _ h => h.near).mono
        fun answer s₁ s₂ h => ?_
      cases answer with
      | none => exact h
      | some code => exact (Near.mono h (Nat.sub_le _ _) (Nat.sub_le _ _)).onward

private theorem agree_restOfArgs (prev given : Nat) (more : Bool) :
    Agree (Onward n₁ n₂ more) (restOfArgs k₁ prev given more) (restOfArgs k₂ prev given more)
      fun a => Onward n₁ n₂ a.2.2 := by
  refine .ite (fun _ => ?_) fun hm => .pure fun s₁ s₂ h => ?_
  · exact (agree_takeArgs hk h₁ h₂ .anyView prev _ given).restrict fun _ _ h => h.near
  · exact Bool.eq_false_iff.mpr hm ▸ h

private theorem agree_letterArg (l : Letter) (isLast : Bool) (prev : Nat) (st : CallState) :
    Agree (Onward n₁ n₂ st.more) (letterArg k₁ l isLast prev st) (letterArg k₂ l isLast prev st)
      fun st' => Onward n₁ n₂ st'.more := by
  refine (agree_argIfMore hk h₁ h₂ (wantOf l) (prev + st.given) st.more).bind fun answer => ?_
  cases answer with
  | none => exact .ite (fun _ => .pure fun _ _ h => h) fun _ => .pure fun _ _ h => h
  | some code =>
      refine .ite (fun _ => ?_) fun _ => .pure fun _ _ h => h
      exact Agree.bind ((agree_takeArgs hk h₁ h₂ .textView (prev + st.given) _ 1).restrict fun _ _ h => h.near) fun a => .pure fun _ _ h => h

private theorem agree_commandArgs (sig : Array Letter) (self prev fuel at' : Nat) {st : CallState}
    {more : Bool} (hm : st.more = more) :
    Agree (Onward n₁ n₂ more) (commandArgs k₁ sig self prev fuel at' st)
      (commandArgs k₂ sig self prev fuel at' st) fun a => Onward n₁ n₂ a.2 := by
  induction fuel generalizing at' st more with
  | zero => exact .pure fun _ _ h => hm ▸ h
  | succ fuel ih =>
      subst hm
      rw [commandArgs, commandArgs]
      cases sig[at']? with
      | none => exact .pure fun _ _ h => h
      | some l =>
          have hletter := (agree_letterArg hk h₁ h₂ l (at' + 1 == sig.size) prev st).bind
            fun st' => ih (at' + 1) (rfl : st'.more = st'.more)
          have hrest {f : Code × Nat × Bool → Code} :
              Agree (Onward n₁ n₂ st.more)
                (restOfArgs k₁ prev st.given st.more >>= fun a => Pure.pure (f a, a.2.2))
                (restOfArgs k₂ prev st.given st.more >>= fun a => Pure.pure (f a, a.2.2))
                fun a => Onward n₁ n₂ a.2 :=
            (agree_restOfArgs hk h₁ h₂ prev st.given st.more).bind fun _ => .pure fun _ _ h => h
          cases l with
          | self | count | pressed => exact ih (at' + 1) (by rfl)
          | joined | all => exact hrest
          | again n => exact .ite (fun _ => ih _ (by rfl)) fun _ => ih (at' + 1) (by rfl)
          | _ => exact hletter

theorem agree_takeOne (want : Want) (prev : Nat) (missing tail : Code) :
    Agree (Near n₁ n₂)
      (do
        match ← k₁.arg want prev with
        | none => return (missing, false)
        | some code => return (code ++ tail, true))
      (do
        match ← k₂.arg want prev with
        | none => return (missing, false)
        | some code => return (code ++ tail, true))
      fun a : Statement => Onward n₁ n₂ a.2 :=
  hk.take h₁ h₂ (.pure fun _ _ h => h) fun _ => .pure fun _ _ h => h.onward

private theorem agree_branch (self prev : Nat) :
    Agree (Near n₁ n₂) (branch k₁ self prev) (branch k₂ self prev) fun a => Onward n₁ n₂ a.2 := by
  refine hk.take h₁ h₂ (.pure fun _ _ h => h) fun cond => ?_
  refine hk.take h₁ h₂ (.pure fun _ _ h => h) fun yes => ?_
  refine hk.take h₁ h₂ ?_ fun no => ?_
  · dsimp only
    cases literalBody? yes <;> exact .pure fun _ _ h => h
  · dsimp only
    cases literalBody? yes <;> cases literalBody? no <;> exact .pure fun _ _ h => h.onward

private theorem agree_takeLiterals (prev left given : Nat) :
    Agree (Near n₁ n₂) (takeLiterals k₁ prev left given) (takeLiterals k₂ prev left given)
      fun a => Onward n₁ n₂ a.2.2.2 := by
  induction left generalizing given with
  | zero => exact .pure fun _ _ h => h.onward
  | succ left ih =>
      refine hk.take h₁ h₂ (.pure fun _ _ h => h) fun code => ?_
      dsimp only
      cases literalBody? code with
      | none => exact .pure fun _ _ h => h.onward
      | some body => exact (ih (given + 1)).bind fun a => .pure fun _ _ h => h

private theorem agree_connective (isAnd : Bool) (self prev : Nat) :
    Agree (Near n₁ n₂) (connective k₁ isAnd self prev) (connective k₂ isAnd self prev)
      fun a => Onward n₁ n₂ a.2 := by
  refine hk.take h₁ h₂ (.pure fun _ _ h => h) fun first => ?_
  refine (agree_takeLiterals hk h₁ h₂ prev (maxArgs - 1) 1).bind fun a => ?_
  obtain ⟨bodies, other, n, more⟩ := a
  refine .ite (fun _ => ?_) fun hm => .pure fun s₁ s₂ h => ?_
  · exact Agree.bind ((agree_takeArgs hk h₁ h₂ .condition prev (maxArgs - n) n).restrict fun _ _ h => h.near) fun a => .pure fun _ _ h => h
  · obtain rfl : more = false := Bool.eq_false_iff.mpr hm
    exact h

private theorem agree_control (c : Control) (self prev : Nat) :
    Agree (Near n₁ n₂) (control k₁ c self prev) (control k₂ c self prev)
      fun a => Onward n₁ n₂ a.2 := by
  cases c with
  | «local» =>
      refine (agree_takeArgs hk h₁ h₂ .ident prev maxArgs 0).bind fun a => ?_
      exact (agree_surplusArgs hk (by omega) (by omega) a.2.2 prev).bind fun _ => .pure fun _ _ h => h
  | run | runOuter | result | not => exact agree_takeOne hk h₁ h₂ _ prev _ _
  | branch => exact agree_branch hk h₁ h₂ self prev
  | and => exact agree_connective hk h₁ h₂ true self prev
  | or => exact agree_connective hk h₁ h₂ false self prev

private theorem agree_intVarStatement (hex : Bool) (self prev : Nat) :
    Agree (Near n₁ n₂) (intVarStatement k₁ hex self prev) (intVarStatement k₂ hex self prev)
      fun a => Onward n₁ n₂ a.2 := by
  refine hk.take h₁ h₂ (.pure fun _ _ h => h) fun a => ?_
  refine .ite (fun _ => .pure fun _ _ h => h.onward) fun _ => ?_
  refine hk.take h₁ h₂ (.pure fun _ _ h => h) fun b => ?_
  exact hk.take h₁ h₂ (.pure fun _ _ h => h) fun c => .pure fun _ _ h => h.onward

private theorem agree_textVarStatement (self prev : Nat) :
    Agree (Near n₁ n₂) (textVarStatement k₁ self prev) (textVarStatement k₂ self prev)
      fun a => Onward n₁ n₂ a.2 := by
  refine hk.take h₁ h₂ (.pure fun _ _ h => h) fun a => ?_
  exact (agree_takeArgs hk h₁ h₂ .anyView prev (maxArgs - 1) 1).bind fun rest =>
    .pure fun _ _ h => h

private theorem agree_assignment (head : Head) (prev : Nat) :
    Agree (Near n₁ n₂) (assignment k₁ head prev) (assignment k₂ head prev)
      fun a => Onward n₁ n₂ a.2 := by
  have hbyName (push : Code) :
      Agree (Near n₁ n₂)
        (argOr k₁ .any (prev + 1) (textCode []) >>= fun a =>
          Pure.pure (push ++ a.1 ++ plain .aliasNamed, a.2))
        (argOr k₂ .any (prev + 1) (textCode []) >>= fun a =>
          Pure.pure (push ++ a.1 ++ plain .aliasNamed, a.2)) fun a => Onward n₁ n₂ a.2 :=
    (agree_argOr hk h₁ h₂ .any (prev + 1) _).bind fun a => .pure fun _ _ h => h
  cases head with
  | computed push => exact hbyName push
  | bare name =>
      refine (agree_intern name).bind fun i => (agree_roleOf i).bind fun role => ?_
      cases role with
      | «alias» | intVar | floatVar | textVar =>
          exact (agree_argOr hk h₁ h₂ _ prev _).bind fun a => .pure fun _ _ h => h
      | command | control => exact hbyName (viewCode name)

private theorem agree_callBare (view : Bool) (name : Bytes) (prev : Nat) :
    Agree (Near n₁ n₂) (callBare k₁ view name prev) (callBare k₂ view name prev)
      fun a => Onward n₁ n₂ a.2 := by
  refine .onTable (fun _ _ h => h.table) (fun s s' h => by simp only [h]) fun s => ?_
  dsimp only
  cases s.table.lookup? name with
  | none =>
      exact .ite (fun _ => .pure fun _ _ h => h.onward) fun _ => agree_callComputed hk h₁ h₂ _ prev
  | some found =>
      obtain ⟨i, id⟩ := found
      dsimp only
      cases id.role with
      | «alias» =>
          exact (agree_takeArgs hk h₁ h₂ .any prev maxArgs 0).bind fun a => .pure fun _ _ h => h
      | command sig action =>
          exact (agree_commandArgs hk h₁ h₂ _ i prev _ 0 rfl).restrict fun _ _ h => h.onward
      | control c => exact agree_control hk h₁ h₂ c i prev
      | intVar => exact agree_intVarStatement hk h₁ h₂ _ i prev
      | floatVar => exact agree_takeOne hk h₁ h₂ .float prev _ _
      | textVar => exact agree_textVarStatement hk h₁ h₂ i prev

end Calls

section Statements

variable {k₁ k₂ : Nested} {l₁ l₂ n₁ n₂ : Nat}

private theorem front_of_isAssignment {c : Cursor} (h : isAssignment c = true) :
    Bytes.byteAt c.rest 0 = code '=' :=
  beq_iff_eq.mp (Bool.and_eq_true_iff.mp h).1

private theorem agree_statement (hk : Nested.InStep l₁ l₂ k₁ k₂) (h₁ : n₁ ≤ l₁) (h₂ : n₂ ≤ l₂)
    (view : Bool) (prev : Nat) :
    Agree (Near n₁ n₂) (statement k₁ view prev) (statement k₂ view prev)
      fun a => Onward n₁ n₂ a.2 := by
  refine (hk.head prev h₁ h₂).bind fun answer => ?_
  cases answer with
  | none => exact .pure fun _ _ h => h
  | some head =>
      have hargs₁ : n₁ - 1 ≤ l₁ - 1 := Nat.sub_le_sub_right h₁ 1
      have hargs₂ : n₂ - 1 ≤ l₂ - 1 := Nat.sub_le_sub_right h₂ 1
      have hwiden (a : Statement) (s₁ s₂ : State) (h : Onward (n₁ - 1) (n₂ - 1) a.2 s₁ s₂) :
          Onward n₁ n₂ a.2 s₁ s₂ := h.mono (Nat.sub_le _ _) (Nat.sub_le _ _)
      refine agree_skipComments.bind fun _ => .onTest (fun s₁ s₂ h => ?_) ?_ ?_
      · exact (h.near.thins.isAssignment (startsComment_of_skipped h.skipped) rfl rfl).symm
      · have hsign : Agree (fun s₁ s₂ => Clear (n₁ - 1) (n₂ - 1) s₁ s₂ ∧
            isAssignment s₁.cursor = true) (advance 1) (advance 1)
            fun _ => Near (n₁ - 1) (n₂ - 1) :=
          ((agree_advance (c := code '=') (by decide)).restrict fun s₁ s₂ h =>
            ⟨h.1.near, front_of_isAssignment h.2⟩).mono
              fun _ _ _ h => h.mono (Nat.sub_le _ _) (Nat.sub_le _ _)
        exact hsign.bind fun _ => (agree_assignment hk hargs₁ hargs₂ head prev).mono hwiden
      · cases head with
        | computed push =>
            exact ((agree_callComputed hk hargs₁ hargs₂ push prev).restrict
              fun _ _ h => h.1.near).mono hwiden
        | bare name =>
            exact ((agree_callBare hk hargs₁ hargs₂ view name prev).restrict
              fun _ _ h => h.1.near).mono hwiden

private theorem agree_warn (text : Bytes) :
    Agree (Near n₁ n₂) (warn text) (warn text) fun _ => Near n₁ n₂ :=
  ⟨fun s => (makes_warn text s).1, fun s₁ s₂ h _ => ⟨rfl, h.lands (lands_warn text s₁)
    (lands_warn text s₂) h.thins (.refl _) h.short₁ h.short₂⟩⟩

theorem Onward.front {s₁ s₂ : State} (h : Onward n₁ n₂ false s₁ s₂) {c : UInt8} {u : Bytes}
    (hu : s₁.cursor.rest = c :: u) : (c = code ';' ∨ c = 0x0A ∨ c = code ')' ∨ c = code ']') ∧
      ∃ v, s₂.cursor.rest = c :: v ∧ Thins u v := by
  have hend : AtEnd (c :: u) := hu ▸ h.atEnd rfl
  have hc := hend c rfl
  have hne : c ≠ quote ∧ c ≠ 0x2F := by
    rcases hc with rfl | rfl | rfl | rfl <;> decide
  have hcomment : startsComment (c :: u) = false := by
    rw [startsComment_eq, beq_eq_false_iff_ne.mpr hne.2, Bool.false_and]
  obtain ⟨v, hv, -, ht⟩ := (hu ▸ h.near.thins).front hne.1 hcomment
  exact ⟨hc, v, hv, ht⟩

/-- The end of a statement is found at once. -/
theorem agree_skipToEnd {p : UInt8 → Bool}
    (hp : ∀ c, c = code ';' ∨ c = 0x0A ∨ c = code ')' ∨ c = code ']' → p c = true) :
    Agree (Onward n₁ n₂ false) (skipTo p) (skipTo p) fun _ => Onward n₁ n₂ false := by
  refine ⟨fun s => (makes_skipTo p s).1, fun s₁ s₂ h _ => ⟨rfl, ?_⟩⟩
  have hlands {s : State} (hs : ∀ c r, s.cursor.rest = c :: r → p c = true) :
      s.Lands ((skipTo p).run s).2 s.cursor.rest := by
    refine ⟨rfl, rfl, (rest_skipTo p s.cursor).trans ?_⟩
    cases hr : s.cursor.rest with
    | nil => rfl
    | cons c r => rw [List.dropWhile_cons_of_neg (by simp [hs c r hr])]
  have hl₁ := hlands (s := s₁) fun c r hr => hp c (h.front hr).1
  have hl₂ := hlands (s := s₂) fun c r hr => by
    cases hu : s₁.cursor.rest with
    | nil =>
        have := h.near.thins.eq_nil_iff.mp hu
        rw [hr] at this
        cases this
    | cons d u =>
        obtain ⟨hd, v, hv, -⟩ := h.front hu
        rw [hr] at hv
        cases hv
        exact hp c hd
  refine ⟨h.near.lands hl₁ hl₂ h.near.thins (.refl _) h.near.short₁ h.near.short₂, fun _ => ?_⟩
  rw [hl₁.rest]
  exact h.atEnd rfl

private theorem agree_next : Agree
    (fun s₁ s₂ => Onward n₁ n₂ false s₁ s₂ ∧ s₁.cursor.rest.isEmpty = false) next next
    fun c s₁ s₂ => Near (n₁ - 1) (n₂ - 1) s₁ s₂ ∧
      (c = code ';' ∨ c = 0x0A ∨ c = code ')' ∨ c = code ']') := by
  refine ⟨fun s => (makes_next s).1, fun s₁ s₂ hpre _ => ?_⟩
  obtain ⟨h, hne⟩ := hpre
  cases hu : s₁.cursor.rest with
  | nil =>
      rw [hu] at hne
      cases hne
  | cons c u =>
      obtain ⟨hc, v, hv, ht⟩ := h.front hu
      have hrun (s : State) {r : Bytes} (hr : s.cursor.rest = c :: r) :
          (next.run s).1 = c ∧ s.Lands (next.run s).2 r :=
        ⟨congrArg (Bytes.byteAt · 0) hr, rfl, rfl, congrArg (List.drop 1) hr⟩
      obtain ⟨ha₁, hl₁⟩ := hrun s₁ hu
      obtain ⟨ha₂, hl₂⟩ := hrun s₂ hv
      have hn₁ := h.near.short₁
      have hn₂ := h.near.short₂
      rw [hu, List.length_cons] at hn₁
      rw [hv, List.length_cons] at hn₂
      rw [ha₁, ha₂]
      refine ⟨rfl, h.near.lands hl₁ hl₂ ht ?_ (by omega) (by omega), hc⟩
      rw [hu]
      exact List.sublist_cons_self c u

/-- Both pass over the end of a statement, and if more follows, less is left. -/
theorem agree_endOfStatement (closing : UInt8) (fuel₁ fuel₂ : Nat) :
    Agree (Onward n₁ n₂ false) (endOfStatement closing (fuel₁ + 1))
      (endOfStatement closing (fuel₂ + 1))
      fun ended => if ended then Near n₁ n₂ else Near (n₁ - 1) (n₂ - 1) := by
  refine (agree_skipToEnd fun c hc => ?_).bind fun _ => .onTest (fun s₁ s₂ h => ?_) ?_ ?_
  · rcases hc with rfl | rfl | rfl | rfl <;> decide
  · rw [Bool.eq_iff_iff, List.isEmpty_iff, List.isEmpty_iff, h.near.thins.eq_nil_iff]
  · refine (?_ : Agree (Near n₁ n₂) _ _ _).restrict fun _ _ h => h.1.near
    refine .ite (fun _ => ?_) fun _ => .pure fun _ _ h => h
    exact (agree_warn _).bind fun _ => .pure fun _ _ h => h
  · refine agree_next.bind fun c => .ite (fun _ => .ite (fun _ => ?_) fun _ => ?_) fun _ =>
      .ite (fun hc => ?_) fun _ => .pure fun _ _ h => h.1
    · exact .pure fun _ _ h => h.1.mono (Nat.sub_le _ _) (Nat.sub_le _ _)
    · exact ((agree_warn _).restrict fun _ _ h => h.1).bind fun _ => .pure fun _ _ h => h
    · refine .vacuous (fun s => ?_) fun s₁ s₂ h => ?_
      · have hmakes := (makes_peek 0).after (R := fun _ => True) fun d =>
          Makes.ite (c := (d == code '/') = true)
            ((makes_skipTo (· == 0x0A)).after fun _ => makes_endOfStatement closing fuel₁)
            (makes_endOfStatement closing fuel₁)
        exact (hmakes s).1
      · rw [beq_iff_eq.mp hc] at h
        exact absurd h.2 (by decide)

/-- Statements go on to the closing bracket, as there are no more than bytes. -/
theorem agree_statementsFrom (hk : Nested.InStep l₁ l₂ k₁ k₂) (h₁ : n₁ ≤ l₁) (h₂ : n₂ ≤ l₂)
    (view : Bool) (closing : UInt8) (prev fuel₁ fuel₂ : Nat) :
    Agree (Near (min n₁ fuel₁) (min n₂ fuel₂)) (statementsFrom k₁ view closing prev fuel₁)
      (statementsFrom k₂ view closing prev fuel₂) fun _ => Near n₁ n₂ := by
  induction fuel₁ generalizing fuel₂ with
  | zero =>
      rw [Nat.min_zero]
      exact .vacuous (fun s => .refl s) not_near_zero_left
  | succ fuel₁ ih =>
      cases fuel₂ with
      | zero =>
          rw [Nat.min_zero]
          exact .vacuous (fun s => (makes_statementsFrom hk.builds view closing prev _ s).1)
            not_near_zero_right
      | succ fuel₂ =>
          refine (agree_statement hk (by omega) (by omega) view prev).bind fun a => ?_
          refine .onCursor fun c₁ c₂ => ?_
          have hsurplus : Agree (Onward (min n₁ (fuel₁ + 1)) (min n₂ (fuel₂ + 1)) a.2)
              (surplusArgs k₁ a.2 prev) (surplusArgs k₂ a.2 prev) _ :=
            agree_surplusArgs hk (by omega) (by omega) a.2 prev
          refine (hsurplus.restrict fun _ _ h => h.1).bind fun surplus =>
            (agree_endOfStatement closing _ _).bind fun ended => ?_
          cases ended with
          | true =>
              exact .ite (fun _ => .pure fun _ _ h => h.mono (Nat.min_le_left _ _)
                (Nat.min_le_left _ _)) fun h => absurd rfl h
          | false =>
              refine .ite nofun fun _ => Agree.bind ((ih fuel₂).restrict fun s₁ s₂ h => ?_)
                fun rest => .pure fun _ _ h => h
              exact Near.mono h (by omega) (by omega)

theorem agree_statements (hk : Nested.InStep l₁ l₂ k₁ k₂) (h₁ : n₁ ≤ l₁) (h₂ : n₂ ≤ l₂)
    (view : Bool) (closing : UInt8) (prev : Nat) :
    Agree (Near n₁ n₂) (statements k₁ view closing prev) (statements k₂ view closing prev)
      fun _ => Near n₁ n₂ := by
  refine .onCursor fun c₁ c₂ => ?_
  refine (agree_statementsFrom hk h₁ h₂ view closing prev _ _).restrict fun s₁ s₂ h => ?_
  exact h.1.tighten (congrArg Cursor.rest h.2.1) (congrArg Cursor.rest h.2.2)

theorem agree_textLiteral (hk : Nested.InStep l₁ l₂ k₁ k₂) {m₁ m₂ : Nat} (h₁ : m₁ ≤ l₁)
    (h₂ : m₂ ≤ l₂) {u v : Bytes} (ht : Thins u v) (name₁ name₂ : Bytes)
    (line₁ line₂ : Nat) :
    Agree (fun s₁ s₂ => Near n₁ n₂ s₁ s₂ ∧ code '@' ∉ u ∧ u.length < m₁ ∧ v.length < m₂)
      (textLiteral k₁ u name₁ line₁) (textLiteral k₂ v name₂ line₂) fun _ => Near n₁ n₂ := by
  refine ⟨fun s => (makes_textLiteral hk.builds u name₁ line₁ s).1, fun s₁ s₂ h hclear => ?_⟩
  obtain ⟨h, hu, hm₁, hm₂⟩ := h
  have hstart : Near m₁ m₂ { s₁ with cursor := { rest := u, line := line₁, name := name₁ } }
      { s₂ with cursor := { rest := v, line := line₂, name := name₂ } } :=
    ⟨h.table, ht, hu, hm₁, hm₂⟩
  obtain ⟨ha, hn⟩ := (agree_statements hk h₁ h₂ false 0 0).follows _ _ hstart hclear
  exact ⟨congrArg literal ha, hn.table, h.thins, h.unspliced, h.short₁, h.short₂⟩

end Statements

section Arguments

variable {k₁ k₂ : Nested} {l₁ l₂ n₁ n₂ : Nat}

theorem agree_wordCode (hk : Nested.InStep l₁ l₂ k₁ k₂) {want : Want} {m₁ m₂ : Nat}
    (h₁ : m₁ ≤ l₁ + 1 - want.cost) (h₂ : m₂ ≤ l₂ + 1 - want.cost) (word name₁ name₂ : Bytes) :
    Agree (fun s₁ s₂ => Near n₁ n₂ s₁ s₂ ∧ Short m₁ m₂ word) (wordCode k₁ want word name₁)
      (wordCode k₂ want word name₂) fun _ => Near n₁ n₂ := by
  have htext (hc : want.cost = 1) :
      Agree (fun s₁ s₂ => Near n₁ n₂ s₁ s₂ ∧ Short m₁ m₂ word) (textLiteral k₁ word name₁)
        (textLiteral k₂ word name₂) fun _ => Near n₁ n₂ := by
    rw [hc] at h₁ h₂
    exact (agree_textLiteral hk h₁ h₂ (.refl word) name₁ name₂ 1 1).restrict fun _ _ h =>
      ⟨h.1, h.2.unspliced, h.2.short₁, h.2.short₂⟩
  cases want with
  | code => exact htext rfl
  | condition => exact .ite (fun _ => .pure fun _ _ h => h.1) fun _ => htext rfl
  | ident => exact ((agree_intern word).restrict fun _ _ h => h.1).bind fun i => .pure fun _ _ h => h
  | any | anyView | int | float | text | textView | head | nothing =>
      exact .pure fun _ _ h => h.1

section Lookups

variable (hk : Nested.InStep l₁ l₂ k₁ k₂) {want : Want} (h₁ : n₁ ≤ l₁ - want.cost)
  (h₂ : n₂ ≤ l₂ - want.cost)
include hk h₁ h₂

theorem agree_wordCode_nil (name₁ name₂ : Bytes) :
    Agree (Near n₁ n₂) (wordCode k₁ want [] name₁) (wordCode k₂ want [] name₂)
      fun _ => Near n₁ n₂ :=
  (agree_wordCode hk (by omega) (by omega) [] name₁ name₂).restrict fun _ _ h => ⟨h, h.short_nil⟩

theorem agree_invalidLookup :
    Agree (Near n₁ n₂) (invalidLookup k₁ want) (invalidLookup k₂ want) fun _ => Near n₁ n₂ := by
  cases want with
  | nothing | any | anyView | head | condition => exact .pure fun _ _ h => h
  | int | float | text | textView | code | ident => exact agree_wordCode_nil hk h₁ h₂ [] []

private theorem agree_lookupNamed (name : Bytes) (prev : Nat) :
    Agree (Near n₁ n₂) (lookupNamed k₁ name want prev) (lookupNamed k₂ name want prev)
      fun _ => Near n₁ n₂ := by
  refine (agree_intern name).bind fun i => (agree_roleOf i).bind fun role => ?_
  refine .ite (fun _ => .pure fun _ _ h => h) fun _ => ?_
  cases role with
  | intVar | floatVar | textVar | «alias» | command => exact .pure fun _ _ h => h
  | control => exact agree_invalidLookup hk h₁ h₂

private theorem agree_lookupOne (prev : Nat) :
    Agree (Near n₁ n₂) (lookupOne k₁ want prev) (lookupOne k₂ want prev) fun _ => Near n₁ n₂ := by
  have hwiden {s₁ s₂ : State} (h : Near (n₁ - 1) (n₂ - 1) s₁ s₂) : Near n₁ n₂ s₁ s₂ :=
    h.mono (Nat.sub_le _ _) (Nat.sub_le _ _)
  refine .onPeek rfl fun c => .ite (fun _ => ?_) fun _ => .ite (fun hc => ?_) fun _ => ?_
  · have harg : Agree (Near n₁ n₂) (k₁.arg .textView prev) (k₂.arg .textView prev) _ :=
      hk.arg .textView prev (by simp only [Want.cost]; omega) (by simp only [Want.cost]; omega)
    refine (harg.restrict fun _ _ h => h.1).bind fun answer => ?_
    cases answer with
    | none => exact (agree_invalidLookup hk h₁ h₂).restrict fun _ _ h => h.near
    | some name => exact .pure fun _ _ h => hwiden h
  · refine (agree_cutRaw.restrict fun _ _ h => ⟨h.1, h.2.trans (beq_iff_eq.mp hc)⟩).bind
      fun name => ?_
    exact (agree_lookupNamed hk h₁ h₂ name prev).restrict fun _ _ h => hwiden h.2
  · refine ((agree_cutWord fun _ => True).restrict fun _ _ h => ⟨h.1, fun _ => trivial⟩).bind
      fun name => .ite (fun hn => ?_) fun hn => ?_
    · refine (agree_invalidLookup hk h₁ h₂).restrict fun _ _ h => ?_
      rw [if_pos hn] at h
      exact h.2.1
    · refine (agree_lookupNamed hk h₁ h₂ name prev).restrict fun _ _ h => ?_
      rw [if_neg hn] at h
      exact hwiden h.2

private theorem agree_group (prev : Nat) :
    Agree (Near n₁ n₂) (group k₁ want prev) (group k₂ want prev) fun _ => Near n₁ n₂ := by
  refine .onCursor fun c₁ c₂ => ?_
  refine (?_ : Agree (Near n₁ n₂) _ _ _).restrict fun _ _ h => h.1
  refine .ite (fun _ => ?_) fun _ => ?_
  · exact (agree_statements hk (by omega) (by omega) _ _ 0).bind fun inner => .pure fun _ _ h => h
  · refine (agree_statements hk (by omega) (by omega) _ _ prev).bind fun inner => ?_
    exact .ite (fun _ => agree_wordCode_nil hk h₁ h₂ _ _) fun _ => .pure fun _ _ h => h

end Lookups

/-- A look-up behind its signs. -/
def lookupBehind (k : Nested) (want : Want) (prev signs : Nat) : CompileM Code := do
  advance signs
  if signs ≤ 1 then lookupOne k want prev
  else
    let name ← lookupOne k .textView prev
    let between := (List.replicate (signs - 2) (lookupComputed .textView)).flatten
    return name ++ between ++ lookupComputed want

private theorem lookup_eq (k : Nested) (want : Want) (prev : Nat) :
    lookup k want prev = cursor >>= fun c =>
      lookupBehind k want prev (c.rest.takeWhile (· == code '$')).length := rfl

/-- Both pass over the same signs, one at least. -/
theorem agree_advanceSigns (signs : Nat) :
    Agree (fun s₁ s₂ => (Near n₁ n₂ s₁ s₂ ∧ Bytes.byteAt s₁.cursor.rest 0 = code '$') ∧
        (s₁.cursor.rest.takeWhile (· == code '$')).length = signs) (advance signs) (advance signs)
      fun _ => Near (n₁ - 1) (n₂ - 1) := by
  refine ⟨fun s => (makes_advance signs s).1, fun s₁ s₂ hpre _ => ⟨rfl, ?_⟩⟩
  obtain ⟨⟨h, hfront⟩, hsigns⟩ := hpre
  obtain ⟨u, hu⟩ := eq_cons_of_byteAt hfront (by decide)
  have hf := h.thins.signsFront.2
  have hsome₂ : s₂.cursor.rest ≠ [] := fun hnil => by
    rw [h.thins.eq_nil_iff.mpr hnil] at hu
    cases hu
  have hpos : 0 < signs := by
    rw [← hsigns, hu, List.takeWhile_cons_of_pos (by decide)]
    exact Nat.succ_pos _
  have hpos₂ := List.length_pos_iff.mpr hsome₂
  have hlen : s₁.cursor.rest.length = u.length + 1 := congrArg List.length hu
  have hn₁ := h.short₁
  have hn₂ := h.short₂
  rw [hsigns] at hf
  exact h.advance (lands_advance s₁ signs) (lands_advance s₂ signs) hf (by omega) (by omega)

section Kinds

variable (hk : Nested.InStep l₁ l₂ k₁ k₂) {want : Want} (h₁ : n₁ ≤ l₁ + 1 - want.cost)
  (h₂ : n₂ ≤ l₂ + 1 - want.cost)
include hk h₁ h₂

private theorem agree_lookup (prev : Nat) :
    Agree (fun s₁ s₂ => Near n₁ n₂ s₁ s₂ ∧ Bytes.byteAt s₁.cursor.rest 0 = code '$')
      (lookup k₁ want prev) (lookup k₂ want prev) fun _ => Near (n₁ - 1) (n₂ - 1) := by
  rw [lookup_eq, lookup_eq]
  refine .onRead _ (fun _ _ h => h.1.thins.signsFront.1) fun signs => ?_
  refine (agree_advanceSigns signs).bind fun _ => .ite (fun _ => ?_) fun _ => ?_
  · exact agree_lookupOne hk (by omega) (by omega) prev
  · have hname : Agree (Near (n₁ - 1) (n₂ - 1)) (lookupOne k₁ .textView prev)
        (lookupOne k₂ .textView prev) _ :=
      agree_lookupOne hk (by simp only [Want.cost]; omega) (by simp only [Want.cost]; omega) prev
    exact hname.bind fun name => .pure fun _ _ h => h

private theorem agree_stringArg :
    Agree (fun s₁ s₂ => Near n₁ n₂ s₁ s₂ ∧ Bytes.byteAt s₁.cursor.rest 0 = quote)
      (stringArg k₁ want) (stringArg k₂ want) fun _ => Near (n₁ - 1) (n₂ - 1) := by
  refine .onCursor fun c₁ c₂ => (agree_cutString.restrict fun _ _ h => h.1).bind fun s => ?_
  have hword : Agree (fun s₁ s₂ => Short n₁ n₂ s ∧ Near (n₁ - 1) (n₂ - 1) s₁ s₂)
      (wordCode k₁ want s c₁.name) (wordCode k₂ want s c₂.name) _ :=
    (agree_wordCode hk h₁ h₂ s c₁.name c₂.name).restrict fun _ _ h => ⟨h.2, h.1⟩
  cases want with
  | any | text | anyView | textView => exact .pure fun _ _ h => h.2
  | int | float | code | condition | ident | head | nothing => exact hword

private theorem agree_wordArg :
    Agree (fun s₁ s₂ => Clear n₁ n₂ s₁ s₂ ∧ beginsPlain s₁.cursor.rest)
      (wordArg k₁ want) (wordArg k₂ want) (Passed n₁ n₂) := by
  refine .onCursor fun c₁ c₂ => ?_
  refine ((agree_cutWord AtEnd).restrict fun _ _ h =>
    ⟨h.1.1.near, atEnd_of_wordLength h.1.1.skipped h.1.2⟩).bind fun word => ?_
  refine .ite (fun hw => .pure fun _ _ h => ?_) fun hw => ?_
  · rw [if_pos hw] at h
    exact ⟨h.2.1, fun _ => h.2.2⟩
  · have hword : Agree (fun s₁ s₂ => Near (n₁ - 1) (n₂ - 1) s₁ s₂ ∧ Short n₁ n₂ word)
        (wordCode k₁ want word c₁.name) (wordCode k₂ want word c₂.name) _ :=
      agree_wordCode hk h₁ h₂ word c₁.name c₂.name
    refine (hword.restrict fun _ _ h => ?_).bind fun code => .pure fun _ _ h => h
    rw [if_neg hw] at h
    exact ⟨h.2, h.1⟩

end Kinds

/-- A literal that stands for a name that is not clear. -/
theorem agree_nameLiteral {u v : Bytes} (ht : Thins u v) :
    Agree (Near n₁ n₂)
      (noteLiteralName u >>= fun _ => intern u >>= fun i => Pure.pure (identCode i))
      (noteLiteralName v >>= fun _ => intern v >>= fun i => Pure.pure (identCode i))
      fun _ => Near n₁ n₂ := by
  by_cases huv : v = u
  · subst huv
    have hnote : Agree (Near n₁ n₂) (noteLiteralName v) (noteLiteralName v) fun _ => Near n₁ n₂ :=
      ⟨fun s => (makes_noteLiteralName v s).1, fun s₁ s₂ h _ => ⟨rfl, { h with }⟩⟩
    exact hnote.bind fun _ => (agree_intern v).bind fun i => .pure fun _ _ h => h
  · have hmakes := (makes_noteLiteralName u).after (R := fun _ => True) fun _ =>
      (makes_intern u).after fun i => .pure (a := identCode i) trivial
    refine ⟨fun s => (hmakes s).1, fun s₁ s₂ _ hclear => absurd ?_ huv⟩
    -- The name is among those that are clear at the end.
    refine ht.eq_of_blockText (hclear u ?_)
    obtain ⟨-, ws, hs⟩ := run_intern_eq u ((noteLiteralName u).run s₁).2
    have hrun : (noteLiteralName u >>= fun _ => intern u >>= fun i =>
        Pure.pure (identCode i)).run s₁ =
        (intern u >>= fun i => Pure.pure (identCode i)).run ((noteLiteralName u).run s₁).2 := rfl
    have hnames : ((intern u >>= fun i => Pure.pure (identCode i)).run
        ((noteLiteralName u).run s₁).2).2 = ((intern u).run ((noteLiteralName u).run s₁).2).2 := rfl
    rw [hrun, hnames, hs]
    exact List.mem_cons_self

/-- The code of a block literal without splices. -/
def literalCode (k : Nested) (want : Want) (segment name : Bytes) (line : Nat) : CompileM Code :=
  if segment.isEmpty then emptyLiteral k want name else plainLiteral k want segment name line

theorem run_blockLiteral (k : Nested) (want : Want) (prev : Nat) {s : State}
    {segment rest : Bytes}
    (hcut : cutBracketed (code '[') (code ']') 0 .plain s.cursor.rest = (segment, rest))
    (hat : code '@' ∉ segment) :
    ∃ s', s.Lands s' rest ∧ (blockLiteral k want prev).run s =
      (literalCode k want segment s.cursor.name s.cursor.line).run s' := by
  obtain ⟨ha, hl⟩ := run_readLiteral k prev { source := s.cursor.rest } 0 []
    (hcut ▸ hat) (Nat.lt_succ_self _) rfl
  rw [hcut] at ha hl
  refine ⟨_, hl, ?_⟩
  have hpair : (readLiteral k prev (s.cursor.rest.length + 1) 1 { source := s.cursor.rest }).run s =
      (({ source := s.cursor.rest }, segment), ((readLiteral k prev (s.cursor.rest.length + 1) 1
        { source := s.cursor.rest }).run s).2) := Prod.ext ha rfl
  rw [run_blockLiteral_read, StateT.run_bind, hpair]
  rfl

section Brackets

variable (hk : Nested.InStep l₁ l₂ k₁ k₂) {want : Want} (h₁ : n₁ ≤ l₁ - want.cost)
  (h₂ : n₂ ≤ l₂ - want.cost)
include hk h₁ h₂

private theorem agree_literalCode {u v : Bytes} (ht : Thins u v) (name₁ name₂ : Bytes)
    (line₁ line₂ : Nat) :
    Agree (fun s₁ s₂ => Near n₁ n₂ s₁ s₂ ∧ code '@' ∉ u ∧ u.length < n₁ ∧ v.length < n₂)
      (literalCode k₁ want u name₁ line₁) (literalCode k₂ want v name₂ line₂)
      fun _ => Near n₁ n₂ := by
  have hempty : v.isEmpty = u.isEmpty := by
    rw [Bool.eq_iff_iff, List.isEmpty_iff, List.isEmpty_iff, ht.eq_nil_iff]
  unfold literalCode
  rw [hempty]
  refine .ite (fun _ => ?_) fun _ => ?_
  · cases want with
    | int | float =>
        exact (agree_wordCode_nil hk h₁ h₂ name₁ name₂).restrict fun _ _ h => h.1
    | _ => exact .pure fun _ _ h => h.1
  · have htext (view : Bool) : blockTextCode view u = blockTextCode view v := by
      unfold blockTextCode
      rw [ht.blockText]
    cases want with
    | nothing => exact .pure fun _ _ h => h.1
    | code | condition =>
        exact agree_textLiteral hk (by simp only [Want.cost] at h₁; omega)
          (by simp only [Want.cost] at h₂; omega) ht _ _ _ _
    | ident => exact (agree_nameLiteral ht).restrict fun _ _ h => h.1
    | any | anyView | int | float | text | textView | head =>
        simp only [plainLiteral, htext]
        exact .pure fun _ _ h => h.1

private theorem agree_blockLiteral (prev : Nat) :
    Agree (Near n₁ n₂) (blockLiteral k₁ want prev) (blockLiteral k₂ want prev)
      fun _ => Near n₁ n₂ := by
  refine ⟨fun s => (makes_blockLiteral hk.builds want prev s).1, fun s₁ s₂ h hclear => ?_⟩
  obtain ⟨hsegment, hrest⟩ :=
    h.thins.cutBracketed (o := code '[') (c := code ']') (by decide) (by decide) 0
  have hn₁ := h.short₁
  have hn₂ := h.short₂
  have hle (s : State) := (cutBracketed_isPrefix (code '[') (code ']') 0 .plain s.cursor.rest)
  have hsuffix (s : State) := cutBracketed_isSuffix (code '[') (code ']') 0 .plain s.cursor.rest
  have hat₁ := fun hm => h.unspliced ((hle s₁).mem hm)
  have hat₂ := fun hm => h.unspliced (h.thins.sublist.mem ((hle s₂).mem hm))
  obtain ⟨s₁', hl₁, hrun₁⟩ := run_blockLiteral k₁ want prev rfl hat₁
  obtain ⟨s₂', hl₂, hrun₂⟩ := run_blockLiteral k₂ want prev rfl hat₂
  have hlen₁ := (hle s₁).length_le
  have hlen₂ := (hle s₂).length_le
  have hrest₁ := (hsuffix s₁).length_le
  have hrest₂ := (hsuffix s₂).length_le
  rw [hrun₁] at hclear ⊢
  rw [hrun₂]
  have hnear : Near n₁ n₂ s₁' s₂' :=
    h.lands hl₁ hl₂ hrest (hsuffix s₁).sublist (by omega) (by omega)
  exact (agree_literalCode hk h₁ h₂ hsegment _ _ _ _).follows s₁' s₂'
    ⟨hnear, hat₁, by omega, by omega⟩ hclear

end Brackets

theorem beginsPlain_of {s : Bytes} {c : UInt8} (hs : Bytes.byteAt s 0 = c)
    (hq : ¬(c == quote) = true) (hd : ¬(c == code '$') = true) (hp : ¬(c == code '(') = true)
    (hb : ¬(c == code '[') = true) : beginsPlain s := by
  rw [beq_iff_eq] at hq hd hp hb
  rw [beginsPlain, hs]
  exact ⟨hq, hd, hp, hb⟩

/-- One argument. -/
theorem agree_argument (hk : Nested.InStep l₁ l₂ k₁ k₂) {want : Want}
    (h₁ : n₁ ≤ l₁ + 1 - want.cost) (h₂ : n₂ ≤ l₂ + 1 - want.cost) (prev : Nat) :
    Agree (Near n₁ n₂) (argument k₁ want prev) (argument k₂ want prev) (Passed n₁ n₂) := by
  have hsome {pre : State → State → Prop} {m₁ m₂ : CompileM Code}
      (h : Agree pre m₁ m₂ fun _ => Near (n₁ - 1) (n₂ - 1)) :
      Agree pre (m₁ >>= fun code => Pure.pure (some code))
        (m₂ >>= fun code => Pure.pure (some code)) (Passed n₁ n₂) :=
    h.bind fun _ => .pure fun _ _ h => h
  refine agree_skipComments.bind fun _ => agree_peek.bind fun c => ?_
  refine .ite (fun hc => hsome ?_) fun hq => .ite (fun hc => hsome ?_) fun hd => .ite (fun hc => ?_)
    fun hp => .ite (fun hc => ?_) fun hb => ?_
  · exact (agree_stringArg hk h₁ h₂).restrict fun _ _ h =>
      ⟨h.1.near, h.2.trans (beq_iff_eq.mp hc)⟩
  · exact (agree_lookup hk h₁ h₂ prev).restrict fun _ _ h =>
      ⟨h.1.near, h.2.trans (beq_iff_eq.mp hc)⟩
  · refine ((agree_advance (c := code '(') (by decide)).restrict fun _ _ h =>
      ⟨h.1.near, h.2.trans (beq_iff_eq.mp hc)⟩).bind fun _ => hsome ?_
    exact agree_group hk (by omega) (by omega) prev
  · refine ((agree_advance (c := code '[') (by decide)).restrict fun _ _ h =>
      ⟨h.1.near, h.2.trans (beq_iff_eq.mp hc)⟩).bind fun _ => hsome ?_
    exact agree_blockLiteral hk (by omega) (by omega) prev
  · refine (agree_wordArg hk h₁ h₂).restrict fun _ _ h => ⟨h.1, ?_⟩
    exact beginsPlain_of h.2 hq hd hp hb

/-- The first word of a statement. -/
theorem agree_firstWord (hk : Nested.InStep l₁ l₂ k₁ k₂) (h₁ : n₁ ≤ l₁ + 1) (h₂ : n₂ ≤ l₂ + 1)
    (prev : Nat) :
    Agree (Near n₁ n₂) (firstWord k₁ prev) (firstWord k₂ prev) (Passed n₁ n₂) := by
  refine agree_skipComments.bind fun _ => agree_peek.bind fun c => ?_
  refine .ite (fun hc => ?_) fun hq => .ite (fun hc => ?_) fun hd => ?_
  · exact (agree_cutString.restrict fun _ _ h => ⟨h.1.near, h.2.trans (beq_iff_eq.mp hc)⟩).bind
      fun s => .pure fun _ _ h => h.2
  · have harg : Agree (Near n₁ n₂) (argument k₁ .head prev) (argument k₂ .head prev) _ :=
      agree_argument hk h₁ h₂ prev
    refine (harg.restrict fun _ _ h => h.1.near).bind fun answer => .pure fun _ _ h => ?_
    cases answer with
    | none => exact h
    | some code => exact h
  · refine ((agree_cutWord AtEnd).restrict fun _ _ h =>
      ⟨h.1.near, atEnd_of_wordLength h.1.skipped ?_⟩).bind fun word => ?_
    · rw [Bool.or_eq_true_iff, Bool.or_eq_true_iff, not_or, not_or] at hd
      exact beginsPlain_of h.2 hq hd.1.1 hd.1.2 hd.2
    · refine .ite (fun hw => .pure fun _ _ h => ?_) fun hw => .pure fun _ _ h => ?_
      · rw [if_pos hw] at h
        exact ⟨h.2.1, fun _ => h.2.2⟩
      · rw [if_neg hw] at h
        exact h.2

/-- The compilers for nested texts agree, each to its own number of levels. -/
theorem nested_inStep (l₁ l₂ : Nat) : Nested.InStep l₁ l₂ (nested l₁) (nested l₂) := by
  induction l₁ generalizing l₂ with
  | zero =>
      refine ⟨nested_builds 0, fun want prev n₁ n₂ h₁ _ => ?_, fun prev n₁ n₂ h₁ _ => ?_⟩
      · obtain rfl : n₁ = 0 := by omega
        exact .vacuous (fun s => .refl s) not_near_zero_left
      · obtain rfl : n₁ = 0 := by omega
        exact .vacuous (fun s => .refl s) not_near_zero_left
  | succ l₁ ih =>
      have hbuilds := nested_builds (l₁ + 1)
      cases l₂ with
      | zero =>
          refine ⟨hbuilds, fun want prev n₁ n₂ _ h₂ => ?_, fun prev n₁ n₂ _ h₂ => ?_⟩
          · obtain rfl : n₂ = 0 := by omega
            exact .vacuous (fun s => (hbuilds.arg want prev s).1) not_near_zero_right
          · obtain rfl : n₂ = 0 := by omega
            exact .vacuous (fun s => (hbuilds.head prev s).1) not_near_zero_right
      | succ l₂ =>
          exact ⟨hbuilds, fun want prev _ _ h₁ h₂ => agree_argument (ih l₂) h₁ h₂ prev,
            fun prev _ _ h₁ h₂ => agree_firstWord (ih l₂) h₁ h₂ prev⟩

end Arguments

section BlockBodies

variable {b tail : Bytes} {s : State}

/-- A block literal is read up to its closing bracket. -/
theorem run_argument_block (k : Nested) (want : Want) (prev : Nat) (hb : BlockBody 0 b)
    (hat : code '@' ∉ b) (hs : s.cursor.rest = code '[' :: (b ++ code ']' :: tail)) :
    ∃ s' line, s.Lands s' tail ∧ (argument k want prev).run s =
      (literalCode k want b s.cursor.name line >>= fun code => Pure.pure (some code)).run s' := by
  have hopen : skipBlanks false s.cursor.rest = code '[' :: (b ++ code ']' :: tail) := by
    rw [hs]
    rfl
  have hbehind : s.Lands (s.goTo (b ++ code ']' :: tail) s.cursor.line) (b ++ code ']' :: tail) :=
    ⟨rfl, rfl, rfl⟩
  obtain ⟨s', hl, hliteral⟩ :=
    run_blockLiteral k want prev (hbehind.rest.symm ▸ hb.cut tail) hat
  refine ⟨s', s.cursor.line, hbehind.trans hl, ?_⟩
  rw [run_argument_bracket k want prev hopen, hliteral]
  rfl

end BlockBodies

private theorem program_nil (t : Table) (label : Bytes) :
    (program t [] label).1 = [] ∧ (program t [] label).2.table = t :=
  ⟨rfl, rfl⟩

/-- A block literal means the same compiled in place and carried as a text. Let `b` be without
carriage returns and splice signs, let its brackets nest, its strings close and its comments end.
Where code is wanted, `[b]` gives a block of the code that a compiler for the whole text of the
literal gives with the same table, and afterwards the table is the same. In no block literal within
`b` that stands for a name may a comment have been dropped: the name in place is the source as it
is. -/
theorem literal_eq_program {b tail : Bytes} {s : State} (hb : BlockBody 0 b) (hcr : 0x0D ∉ b)
    (hat : code '@' ∉ b) (hs : s.cursor.rest = code '[' :: (b ++ code ']' :: tail)) {levels : Nat}
    (hlevels : s.cursor.rest.length ≤ levels) {want : Want}
    (hwant : want = .code ∨ want = .condition ∧ b ≠ []) (prev : Nat) (label : Bytes)
    (hclear : (((nested levels).arg want prev).run s).2.NamesClear) :
    (((nested levels).arg want prev).run s).1 =
        some (literal (program s.table (blockText .plain b) label).1) ∧
      (((nested levels).arg want prev).run s).2.table =
        (program s.table (blockText .plain b) label).2.table ∧
      (((nested levels).arg want prev).run s).2.cursor.rest = tail := by
  have hlen : b.length + 2 ≤ levels := by
    rw [hs] at hlevels
    simp at hlevels
    omega
  obtain ⟨l, rfl⟩ : ∃ l, levels = l + 1 := ⟨levels - 1, by omega⟩
  obtain ⟨s', line, hl, hrun⟩ := run_argument_block (nested l) want prev hb hat hs
  have harg : ((nested (l + 1)).arg want prev).run s = _ := hrun
  rw [harg] at hclear ⊢
  by_cases hempty : b = []
  · subst hempty
    obtain rfl : want = .code := hwant.resolve_right fun h => h.2 rfl
    obtain ⟨hcode, htable⟩ := program_nil s.table label
    have htext : blockText .plain [] = [] := rfl
    rw [htext, hcode, htable]
    exact ⟨rfl, hl.table, hl.rest⟩
  · have hliteral : literalCode (nested l) want b s.cursor.name line =
        textLiteral (nested l) b s.cursor.name line := by
      rw [literalCode, if_neg (by simpa using hempty)]
      rcases hwant with rfl | ⟨rfl, -⟩ <;> rfl
    rw [hliteral] at hclear ⊢
    have hstart : Near (b.length + 1) ((blockText .plain b).length + 1)
        { s' with cursor := { rest := b, line, name := s.cursor.name } }
        { cursor := { rest := blockText .plain b, name := label }, table := s.table } :=
      ⟨hl.table.symm, hb.thins hcr, hat, Nat.lt_succ_self _, Nat.lt_succ_self _⟩
    obtain ⟨hcode, hend⟩ := (agree_statements (nested_inStep l ((blockText .plain b).length + 4))
      (by omega) (by omega) false 0 0).follows _ _ hstart hclear
    exact ⟨congrArg (some ∘ literal) hcode.symm, hend.table.symm, hl.rest⟩

/-- A body with a block literal that stands for a name, and a comment that is dropped. -/
def commentedBody : Bytes := utf8 "local [x] //c\n"

private theorem blockBody_commented : BlockBody 0 commentedBody := by
  have hbytes : commentedBody = [0x6C, 0x6F, 0x63, 0x61, 0x6C, 0x20, 0x5B, 0x78, 0x5D, 0x20, 0x2F,
      0x2F, 0x63, 0x0A] := by decide
  rw [hbytes]
  iterate 6 refine .byte (by decide) (by decide) (by decide) (by decide) ?_
  refine .opening (.byte (by decide) (by decide) (by decide) (by decide) (.closing ?_))
  exact .byte (by decide) (by decide) (by decide) (by decide)
    (.comment (t := [0x63]) (by decide) .nil)

/-- The compiler at a block literal with that body. -/
def commentedState : State :=
  { cursor := { rest := code '[' :: (commentedBody ++ [code ']']) }, table := controlTable }

instance (s : State) : Decidable s.NamesClear :=
  inferInstanceAs (Decidable (∀ name ∈ s.literalNames, blockText .plain name = name))

theorem literal_eq_program_commented :
    (((nested 20).arg .code 0).run commentedState).2.NamesClear ∧
      (((nested 20).arg .code 0).run commentedState).1 =
        some (literal (program controlTable (blockText .plain commentedBody) []).1) ∧
      (((nested 20).arg .code 0).run commentedState).2.table =
        (program controlTable (blockText .plain commentedBody) []).2.table ∧
      (((nested 20).arg .code 0).run commentedState).2.cursor.rest = [] := by
  have hclear : (((nested 20).arg .code 0).run commentedState).2.NamesClear := by decide +kernel
  exact ⟨hclear, literal_eq_program blockBody_commented (by decide) (by decide) rfl
    (by decide) (.inl rfl) 0 [] hclear⟩

end ConsoleScript.Compile
