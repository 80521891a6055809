import ConsoleScript.Proofs.Engine.Variables

/-!
The commands of the library and the control words are safe, for any runner that is: they run only
code that they are given, and their loops restore the variables that they bind.
-/

namespace ConsoleScript

open Bytecode Engine Library

namespace World

variable {α : Type} {r : Rigour} {w w' w'' : World r} {k : Runner} {i : Nat} {v : Value}
  {args : List Value} {Q : Interp → α → Prop}

theorem Knows.trans (h : w.Knows w') (h' : w'.Knows w'') : w.Knows w'' := fun hl =>
  ⟨(h (h' hl).1).1, (h (h' hl).1).2.trans (h' hl).2⟩

theorem Safe.arg {f : Value → Engine α} (hn : w.live → r ≠ .layout → i < args.length)
    (h : ∀ v, v ∈ args → w.Safe (f v) Q) : w.Safe (arg args i >>= f) Q := by
  unfold Library.arg
  cases hv : args[i]? with
  | some v => exact h v (List.mem_of_getElem? hv)
  | none =>
      refine ⟨.error (.refl _), fun hl _ => ⟨.refl (w.inv hl), ?_⟩⟩
      cases r with
      | layout => trivial
      | operands | room =>
          exact absurd (hn hl (by decide)) (Nat.not_lt.mpr (List.getElem?_eq_none_iff.mp hv))

theorem Safe.argIf {f : Option Value → Engine α} {there : Bool}
    (hn : w.live → r ≠ .layout → there = true → i < args.length)
    (h : ∀ o, (∀ v, o = some v → v ∈ args) → w.Safe (f o) Q) :
    w.Safe (argIf there args i >>= f) Q := by
  unfold Library.argIf
  cases there with
  | false => exact h none nofun
  | true =>
      rw [if_pos rfl, bind_assoc]
      refine .arg (fun hl hr => hn hl hr rfl) fun v hv => h (some v) fun v' hv' => ?_
      cases hv'
      exact hv

theorem safe_arg (hargs : w.AllGood args) (hn : w.live → r ≠ .layout → i < args.length) :
    w.Safe (arg args i) fun s v => v.Ok r s.table := by
  rw [← bind_pure (Library.arg args i)]
  exact .arg hn fun v hv => .pure (hargs.good hv)

theorem steady_rounds {value : Nat → Value} {body : Nat → Engine Bool}
    (hb : ∀ n, Steady (body n)) (left round : Nat) :
    Steady (rounds i value body left round) := by
  induction left generalizing round with
  | zero => exact .pure _
  | succ left ih =>
      have hround : Steady (do
          if ← body round then return some round
          rounds i value body left (round + 1)) := by
        refine (hb round).bind fun b => ?_
        split
        · exact .pure _
        · exact ih (round + 1)
      unfold rounds
      split
      · exact (steady_modifyIdent i _).bind fun _ => hround
      · exact hround

/-- Rounds of a loop, however they end, leave the value of its variable to be taken back. -/
theorem covers_rounds {s s₁ : Interp} {value : Nat → Value} {body : Nat → Engine Bool}
    (hv : ∀ n t, s.table.Extends r t → (value n).Ok r t) (hg : ∀ n, Steady (body n))
    (hb : ∀ s₁ (h : Inv r s₁) n, s.table.Extends r s₁.table →
      Safe ⟨s₁, True, fun _ => h⟩ (body n) fun _ _ => True)
    (left round : Nat) (hc : Covers r i s s₁)
    (hw : Within r (outcome (rounds i value body left round) s₁).2) :
    Covers r i s (outcome (rounds i value body left round) s₁).2 ∧
      Ends r (fun _ _ => True) (outcome (rounds i value body left round) s₁) := by
  induction left generalizing round s₁ with
  | zero => exact ⟨hc, trivial⟩
  | succ left ih =>
      -- The body may end the loop by its answer or by a fault, or there is another round.
      have hround {s₁ : Interp} (hc : Covers r i s s₁)
          (hw : Within r (outcome (do
            if ← body round then return some round
            rounds i value body left (round + 1)) s₁).2) :
          Covers r i s (outcome (do
            if ← body round then return some round
            rounds i value body left (round + 1)) s₁).2 ∧ Ends r (fun _ _ => True) (outcome (do
            if ← body round then return some round
            rounds i value body left (round + 1)) s₁) := by
        have hbody := (hb s₁ hc.inv round hc.forms).2 trivial
        cases h : outcome (body round) s₁ with
        | mk answer s₂ =>
            rw [h] at hbody
            rcases answer with e | b
            · rw [outcome_bind_error h] at hw ⊢
              exact ⟨hc.later (hbody hw).1, (hbody hw).2⟩
            · rw [outcome_bind_ok h] at hw ⊢
              cases b with
              | true => exact ⟨hc.later (hbody hw).1, trivial⟩
              | false =>
                  have hw₂ := hw.of_grows (steady_rounds hg left (round + 1) s₂).grows
                  exact ih (round + 1) (hc.later (hbody hw₂).1) hw
      unfold rounds at hw ⊢
      split at hw
      · rw [if_pos ‹_›, outcome_bind_ok (outcome_modifyIdent s₁ i _)] at *
        exact hround (hc.setValue (hv round _ hc.forms)) hw
      · rw [if_neg ‹_›]
        exact hround hc hw

theorem safe_iterate {n : Nat} {value : Nat → Value} {body : Nat → Engine Bool}
    (hi : w.live → i < w.state.table.size) (hv : ∀ n t, (value n).Ok r t)
    (hb : ∀ (w' : World r) n, w.Knows w' → w'.Safe (body n) fun _ _ => True) :
    w.Safe (iterate i n value body) fun _ _ => True := by
  have hg (n : Nat) : Steady (body n) := Safe.steady fun w' hw => hb w' n hw
  refine .ite (fun _ => .pure fun _ => trivial) fun _ => ?_
  refine safe_covered hi (fun _ => hv 0 _) (steady_rounds hg n 0) (fun hl s₁ hc hw => ?_)
    fun _ _ _ _ _ => trivial
  exact covers_rounds (fun n t _ => hv n t) hg
    (fun s₁ h n hx => hb ⟨s₁, True, fun _ => h⟩ n fun _ => ⟨hl, hx⟩) n 0 hc hw

/-- A loop variable is an identifier. -/
theorem Safe.loopVariable? {f : Option Nat → Engine α} (hv : w.Good v)
    (h : ∀ o, (w.live → ∀ i, o = some i → i < w.state.table.size) → w.Safe (f o) Q) :
    w.Safe (loopVariable? v >>= f) Q := by
  unfold Library.loopVariable?
  split
  next => exact h none nofun
  next i hi =>
    have hlt (hl : w.live) : i < w.state.table.size := by
      cases v <;> cases hi
      exact hv hl
    rw [bind_assoc]
    refine .identAt hlt fun id _ => ?_
    cases id.role.isAlias with
    | false => exact h none nofun
    | true => exact h (some i) fun hl j hj => by cases hj; exact hlt hl

theorem safe_holds (hk : RunsSafely r k) (hv : w.Good v) :
    w.Safe (holds k v) fun _ _ => True :=
  (safe_runValue hk hv).bind fun _ _ _ _ => .pure fun _ => trivial

private theorem safe_repeatWhile {condition : Engine Bool} {body : Engine Unit}
    (hc : ∀ w' : World r, w.Knows w' → w'.Safe condition fun _ _ => True)
    (hb : ∀ w' : World r, w.Knows w' → w'.Safe body fun _ _ => True) (left : Nat) :
    w.Safe (repeatWhile condition body left) fun _ _ => True := by
  induction left generalizing w with
  | zero => exact .stop fun _ => trivial
  | succ left ih =>
      refine (hc w fun hl => ⟨hl, .refl r _⟩).bind fun w₁ _ hw₁ _ => ?_
      refine .ite (fun _ => ?_) fun _ => .pure fun _ => trivial
      refine (hb w₁ hw₁.knows).bind fun w₂ _ hw₂ _ => ?_
      have hw := (hw₁.trans hw₂).knows
      exact ih (fun w' h => hc w' (hw.trans h)) fun w' h => hb w' (hw.trans h)

private theorem safe_countedLoop (hk : RunsSafely r k) (hargs : w.AllGood args) {form : LoopForm}
    (hn : w.live → r ≠ .layout → (Builtin.loop form).arity ≤ args.length) :
    w.Safe (countedLoop k form args) fun _ _ => True := by
  obtain ⟨offset, step, condition⟩ := form
  have hlt {i : Nat} (hi : i < (Builtin.loop ⟨offset, step, condition⟩).arity) (hl : w.live)
      (hr : r ≠ .layout) : i < args.length := Nat.lt_of_lt_of_le hi (hn hl hr)
  refine .arg (hlt (by simp only [Builtin.arity]; omega)) fun named hnamed => ?_
  refine .argIf (fun hl hr ho => hlt (by simp only [Builtin.arity]; omega) hl hr) fun _ _ => ?_
  refine .argIf (fun hl hr ho => hlt ?_ hl hr) fun _ _ => ?_
  · cases offset <;> simp [Builtin.arity] <;> omega
  refine .arg (hlt ?_) fun _ _ => ?_
  · cases offset <;> cases step <;> simp [Builtin.arity] <;> omega
  refine .argIf (fun hl hr ho => hlt ?_ hl hr) fun test htest => ?_
  · cases offset <;> cases step <;> simp [Builtin.arity] <;> omega
  refine .arg (hlt ?_) fun body hbody => ?_
  · cases offset <;> cases step <;> cases condition <;> simp [Builtin.arity]
  refine .loopVariable? (hargs.good hnamed) fun o hi => ?_
  cases o with
  | none => exact .pure fun _ => trivial
  | some i =>
      refine .bind (safe_iterate (fun hl => hi hl i rfl) (fun _ _ => trivial) fun w' _ hw => ?_)
        fun _ _ _ _ => .pure fun _ => trivial
      have hrun {w'' : World r} (hw' : w.Knows w'') :
          w''.Safe (do let _ ← runValue k body; return false) fun _ _ => True :=
        (safe_runValue hk ((hargs.good hbody).inside hw')).bind fun _ _ _ _ =>
          .pure fun _ => trivial
      dsimp only
      split
      next c =>
        refine (safe_holds hk ((hargs.good (htest c rfl)).inside hw)).bind fun w'' _ hw' _ => ?_
        exact .ite (fun _ => .pure fun _ => trivial) fun _ => hrun (hw.trans hw'.knows)
      next => exact hrun hw

theorem safe_listLoop {list : Bytes} {body : Engine Bool} (hi : w.live → i < w.state.table.size)
    (hb : ∀ w' : World r, w.Knows w' → w'.Safe body fun _ _ => True) :
    w.Safe (listLoop i list body) fun _ _ => True :=
  safe_iterate hi (fun _ _ => trivial) fun w' _ hw => hb w' hw

private theorem safe_firstHolding (hk : RunsSafely r k) (hargs : w.AllGood args) :
    w.Safe (firstHolding k args) fun s v => v.Ok r s.table := by
  fun_induction firstHolding k args generalizing w with
  | case1 => exact .pure fun _ => trivial
  | case2 body => exact safe_runValue hk (hargs.good List.mem_cons_self)
  | case3 condition body rest ih =>
      refine (safe_holds hk (hargs.good List.mem_cons_self)).bind fun w' _ hw _ => ?_
      have hlater := hargs.later hw
      refine .ite (fun _ => safe_runValue hk (hlater.good (by simp))) fun _ => ih fun hl v hv => ?_
      exact hlater hl v (List.mem_cons_of_mem _ (List.mem_cons_of_mem _ hv))

private theorem safe_firstMatching (hk : RunsSafely r k) (hargs : w.AllGood args)
    (p : Value → Bool) :
    w.Safe (firstMatching k p args) fun s v => v.Ok r s.table := by
  fun_induction firstMatching k p args with
  | case1 label body rest _ => exact safe_runValue hk (hargs.good (by simp))
  | case2 label body rest _ ih =>
      exact ih fun hl v hv => hargs hl v (List.mem_cons_of_mem _ (List.mem_cons_of_mem _ hv))
  | case3 => exact .pure fun _ => trivial

theorem safe_codeResult (hk : RunsSafely r k) (hv : w.Good v) :
    w.Safe (codeResult k v) fun s v => v.Ok r s.table := by
  unfold codeResult
  split
  next => exact (safe_runCode hk hv).bind fun _ _ _ ha => .pure ha
  next => exact .pure hv

private theorem safe_firstBeing (hk : RunsSafely r k) (stop : Bool) {before : Value}
    (hb : w.Good before) (hargs : w.AllGood args) :
    w.Safe (firstBeing k stop before args) fun s v => v.Ok r s.table := by
  induction args generalizing w before with
  | nil => exact .pure hb
  | cons v rest ih =>
      refine (safe_codeResult hk (hargs.good List.mem_cons_self)).bind fun w' v' hw hv' => ?_
      refine .ite (fun _ => .pure hv') fun _ => ih hv' fun hl u hu => ?_
      exact hargs.later hw hl u (List.mem_cons_of_mem v hu)

private theorem safe_shadowed (hk : RunsSafely r k) (hargs : w.AllGood args)
    (hn : w.live → r ≠ .layout → 3 ≤ args.length) :
    w.Safe (shadowed k args) fun s v => v.Ok r s.table := by
  have hlt {i : Nat} (hi : i < 3) {w' : World r} (hw : w.Knows w') (hl : w'.live)
      (hr : r ≠ .layout) : i < args.length := Nat.lt_of_lt_of_le hi (hn (hw hl).1 hr)
  have hself : w.Knows w := fun hl => ⟨hl, .refl r _⟩
  refine .arg (hlt (by decide) hself) fun named hnamed => ?_
  refine .loopVariable? (hargs.good hnamed) fun o hi => ?_
  cases o with
  | none => exact .pure fun _ => trivial
  | some i =>
      refine .ite (fun _ => .pure fun _ => trivial) fun _ => ?_
      refine .arg (hlt (by decide) hself) fun v hv => ?_
      refine safe_shadowing (fun hl => hi hl i rfl) (hargs.good hv) (fun w' hw => ?_)
        fun _ _ _ he ha => ha.mono he
      exact .arg (hlt (by decide) hw) fun body hbody =>
        safe_runValue hk ((hargs.good hbody).inside hw)

private theorem safe_silenced {m : Engine α} (hm : ∀ w' : World r, w.Knows w' → w'.Safe m Q)
    (hQ : ∀ s s' a, s.table.Extends r s'.table → Q s a → Q s' a) : w.Safe (silenced m) Q := by
  have hcleanup : Steady (modify fun s => { s with muted := s.muted - 1 }) :=
    .change fun _ => .refl _
  have hgrow : Steady (silenced m) :=
    .bind (.change fun _ => .refl _) fun _ => (Safe.steady hm).ensuring hcleanup
  refine ⟨hgrow w.state, fun hl hw => ?_⟩
  have hinv := w.inv hl
  have hinside : Inv r { w.state with muted := w.state.muted + 1 } :=
    ⟨hinv.table, hinv.backed, hinv.outermost⟩
  have hbefore : outcome (silenced m) w.state = outcome (ensuring m (modify fun s =>
      { s with muted := s.muted - 1 })) { w.state with muted := w.state.muted + 1 } := rfl
  rw [hbefore] at hw ⊢
  refine bracket (fun _ => hinside) (hm _ fun _ => ⟨hl, .refl r _⟩) hcleanup
    (fun _ s₂ hk => ⟨_, rfl, ?_, .refl r _⟩) hQ hl hw
  refine .of_frame hinv (hk.toFramed.around rfl rfl rfl rfl (fun _ => rfl) hk.callArgs ?_
    ⟨hk.spares.outerRuns, hk.spares.callers⟩
    ⟨hk.heeds.writes, hk.heeds.written, hk.heeds.others⟩ (fun _ => 0) (fun _ => rfl) fun _ => rfl)
    hk.inv.table hk.forms hk.targets
  have hmuted : s₂.muted = w.state.muted + 1 := hk.muted
  dsimp only
  omega

theorem safe_readScript (path : Bytes) : w.Safe (readScript path) fun _ _ => True := by
  refine .read ?_
  dsimp only
  split
  next =>
    have hcalm : Calm w.state
        { w.state with missed := scriptPath w.state path :: w.state.missed } := {}
    refine .bind (Q := fun _ _ => True) ?_ fun _ _ _ _ => .pure fun _ => trivial
    exact ⟨.ok hcalm.grows rfl, fun hl _ => ⟨hcalm.keeps (w.inv hl), trivial⟩⟩
  next => exact .pure fun _ => trivial

private theorem safe_runScript (hk : RunsSafely r k) (path : Bytes) :
    w.Safe (runScript k path) fun _ _ => True := by
  refine (safe_readScript path).bind fun w' answer _ _ => ?_
  split
  · exact .pure fun _ => trivial
  · exact (safe_runText hk _ _).bind fun _ _ _ _ => .pure fun _ => trivial

section Arguments

variable {n : Nat} (hargs : w.AllGood args) (hn : w.live → r ≠ .layout → n ≤ args.length)

include hn

theorem arg_lt (hi : i < n) (hl : w.live) (hr : r ≠ .layout) : i < args.length :=
  Nat.lt_of_lt_of_le hi (hn hl hr)

theorem arg_lt_inside (hi : i < n) (hw : w.Knows w') (hl : w'.live) (hr : r ≠ .layout) :
    i < args.length :=
  arg_lt hn hi (hw hl).1 hr

theorem safe_ofArg {f : Value → α} (h0 : 0 < n) (hf : ∀ v s, Q s (f v)) :
    w.Safe (do return f (← arg args 0)) Q :=
  .arg (arg_lt hn h0) fun v _ => .pure fun _ => hf v _

private theorem safe_partOf (part : Bytes → Int32 → Option Int32 → α) (h3 : 3 < n) :
    w.Safe (partOf args part) fun _ _ => True := by
  refine .arg (arg_lt hn (by omega)) fun _ _ => .arg (arg_lt hn (by omega)) fun _ _ => ?_
  refine .arg (arg_lt hn h3) fun _ _ => .argIf (fun hl hr _ => arg_lt hn (by omega) hl hr) ?_
  exact fun _ _ => .pure fun _ => trivial

private theorem safe_execScript (hk : RunsSafely r k) (h1 : 1 < n) :
    w.Safe (execScript k args) fun s v => v.Ok r s.table := by
  refine .arg (arg_lt hn (by omega)) fun path _ => ?_
  refine (safe_runScript hk _).bind fun w' answer hw _ => ?_
  split
  · exact .pure fun _ => trivial
  · refine .arg (arg_lt_inside hn h1 hw.knows) fun _ _ => .ite (fun _ => ?_) fun _ => ?_
    · exact (w'.safe_warn _).bind fun _ _ _ _ => .pure fun _ => trivial
    · exact .pure fun _ => trivial

include hargs

private theorem safe_findElement (hk : RunsSafely r k) (h2 : 2 < n) :
    w.Safe (findElement k args) fun s v => v.Ok r s.table := by
  refine .arg (arg_lt hn (by omega)) fun named hnamed => ?_
  refine .loopVariable? (hargs.good hnamed) fun o hi => ?_
  cases o with
  | none => exact .pure fun _ => trivial
  | some i =>
      refine .arg (arg_lt hn (by omega)) fun list _ => ?_
      refine (safe_listLoop (fun hl => hi hl i rfl) fun w' hw => ?_).bind fun _ o _ _ => ?_
      · exact .arg (arg_lt_inside hn h2 hw) fun body hbody =>
          safe_holds hk ((hargs.good hbody).inside hw)
      · cases o <;> exact .pure fun _ => trivial

private theorem safe_eachElement (hk : RunsSafely r k) (h2 : 2 < n) :
    w.Safe (eachElement k args) fun s v => v.Ok r s.table := by
  refine .arg (arg_lt hn (by omega)) fun named hnamed => ?_
  refine .loopVariable? (hargs.good hnamed) fun o hi => ?_
  cases o with
  | none => exact .pure fun _ => trivial
  | some i =>
      refine .arg (arg_lt hn (by omega)) fun list _ => ?_
      refine (safe_listLoop (fun hl => hi hl i rfl) fun w' hw => ?_).bind fun _ _ _ _ =>
        .pure fun _ => trivial
      refine .arg (arg_lt_inside hn h2 hw) fun body hbody => ?_
      exact (safe_runValue hk ((hargs.good hbody).inside hw)).bind fun _ _ _ _ =>
        .pure fun _ => trivial

end Arguments

/-- The commands of the library are safe with the arguments that they declare. -/
theorem safe_apply (hk : RunsSafely r k) (hargs : w.AllGood args) {b : Builtin}
    (hn : w.live → r ≠ .layout → b.arity ≤ args.length) :
    w.Safe (apply k b args) fun s v => v.Ok r s.table := by
  have hself : w.Knows w := fun hl => ⟨hl, .refl r _⟩
  cases b with
  | loop form => exact (safe_countedLoop hk hargs hn).bind fun _ _ _ _ => .pure fun _ => trivial
  | «while» =>
      refine .arg (arg_lt hn (by decide)) fun condition hc => .read ?_
      refine (safe_repeatWhile (fun w' hw => ?_) (fun w' hw => ?_) _).bind fun _ _ _ _ =>
        .pure fun _ => trivial
      · exact safe_holds hk ((hargs.good hc).inside hw)
      · exact .arg (arg_lt_inside hn (by decide) hw) fun body hbody =>
          (safe_runValue hk ((hargs.good hbody).inside hw)).bind fun _ _ _ _ =>
            .pure fun _ => trivial
  | choose =>
      refine .arg (arg_lt hn (by decide)) fun _ _ => .ite (fun _ => ?_) fun _ => ?_
      · exact safe_arg hargs (arg_lt hn (by decide))
      · exact safe_arg hargs (arg_lt hn (by decide))
  | cond => exact safe_firstHolding hk hargs
  | cases kind =>
      refine .arg (arg_lt hn (by decide : 0 < 1)) fun _ _ => ?_
      exact safe_firstMatching hk (fun hl v hv => hargs hl v (List.mem_of_mem_tail hv)) _
  | push => exact safe_shadowed hk hargs hn
  | nodebug =>
      refine safe_silenced (fun w' hw => ?_) fun _ _ _ he ha => ha.mono he
      exact .arg (arg_lt_inside hn (by decide) hw) fun v hv =>
        safe_runValue hk ((hargs.good hv).inside hw)
  | «alias» =>
      refine .arg (arg_lt hn (by decide)) fun _ _ => .arg (arg_lt hn (by decide)) fun _ _ => ?_
      exact (safe_assignNamed hk _ fun _ => Value.ok_settle _ _ _).bind fun _ _ _ _ =>
        .pure fun _ => trivial
  | getAlias =>
      refine .arg (arg_lt hn (by decide)) fun name _ => .bind (Q := fun _ _ => True) ?_
        fun _ _ _ _ => .pure fun _ => trivial
      refine .read ?_
      split <;> exact .pure fun _ => trivial
  | identExists =>
      exact .arg (arg_lt hn (by decide)) fun _ _ => .read (.pure fun _ => trivial)
  | resetVar =>
      exact .arg (arg_lt hn (by decide)) fun _ _ => (safe_resetNamed hk _).bind fun _ _ _ _ =>
        .pure fun _ => trivial
  | substring | sublist =>
      exact (safe_partOf hn _ (by decide)).bind fun _ _ _ _ => .pure fun _ => trivial
  | textFind | toHex =>
      exact .arg (arg_lt hn (by decide)) fun _ _ => .arg (arg_lt hn (by decide)) fun _ _ =>
        .pure fun _ => trivial
  | textReplace =>
      refine .arg (arg_lt hn (by decide)) fun _ _ => .ite (fun _ => ?_) fun _ => ?_
      · exact safe_ofArg hn (by decide) fun _ _ => trivial
      · exact .arg (arg_lt hn (by decide)) fun _ _ => safe_ofArg hn (by decide) fun _ _ => trivial
  | listFind => exact safe_findElement hargs hn hk (by decide)
  | loopList => exact safe_eachElement hargs hn hk (by decide)
  | listAt => cases args <;> exact .pure fun _ => trivial
  | echo =>
      exact .arg (arg_lt hn (by decide)) fun _ _ => (w.safe_echo _).bind fun _ _ _ _ =>
        .pure fun _ => trivial
  | error =>
      exact .arg (arg_lt hn (by decide)) fun _ _ => (w.safe_warn _).bind fun _ _ _ _ =>
        .pure fun _ => trivial
  | exec => exact safe_execScript hn hk (by decide)
  | complement | intAbs | floatAbs | textLength | small | capital | escape | unescape
  | listLength => exact safe_ofArg hn (by decide) fun _ _ => trivial
  | _ => exact .pure fun _ => trivial

/-- The control words are safe with the arguments that they declare. -/
theorem safe_applyControl (hk : RunsSafely r k) (hargs : w.AllGood args) {c : Control}
    (hn : w.live → r ≠ .layout → c.arity ≤ args.length) :
    w.Safe (applyControl k c args) fun s v => v.Ok r s.table := by
  have hrun {i : Nat} (hi : i < c.arity) :
      w.Safe (do runValue k (← arg args i)) fun s v => v.Ok r s.table :=
    .arg (arg_lt hn hi) fun v hv => safe_runValue hk (hargs.good hv)
  cases c with
  | «local» => exact .pure fun _ => trivial
  | run => exact hrun (by decide)
  | runOuter =>
      refine .arg (arg_lt hn (by decide)) fun v hv => ?_
      exact safe_withOuterArgs (fun w' hw => safe_runValue hk ((hargs.good hv).inside hw))
        fun _ _ _ he ha => ha.mono he
  | branch =>
      refine .arg (arg_lt hn (by decide)) fun _ _ => .ite (fun _ => ?_) fun _ => ?_
      · exact hrun (by decide)
      · exact hrun (by decide)
  | result => exact safe_arg hargs (arg_lt hn (by decide))
  | not => exact safe_ofArg hn (by decide) fun _ _ => trivial
  | and | or =>
      refine .ite (fun _ => .pure fun _ => trivial) fun _ => ?_
      exact safe_firstBeing hk _ (fun _ => trivial) hargs

end World

end ConsoleScript
