import ConsoleScript.Proofs.Engine.Invariant

/-!
Safe computations. A computation is safe from an interpreter that satisfies the invariant if it
keeps the invariant and the bindings, ends only for reasons that are permitted, and otherwise with an
answer that satisfies a condition.

All of this holds only as long as what was compiled fits the fields of instruction words, and that
is a matter of the whole execution: what was compiled is recorded in the interpreter, and safety is
claimed if the record at the end is within the limits. So that nothing is lost on the way, the record
must only grow, also where the invariant does not hold. A world is an interpreter together with the
assumption under which it satisfies the invariant, and everything that is known of a world is known
under its assumption.
-/

namespace ConsoleScript

open Bytecode Engine

/-- Everything that was compiled is still on record. -/
def Grows (s s' : Interp) : Prop := ∀ t src name, s.compiled t src name → s'.compiled t src name

theorem Grows.refl (s : Interp) : Grows s s := fun _ _ _ h => h

theorem Grows.trans {s s' s'' : Interp} (h : Grows s s') (h' : Grows s' s'') : Grows s s'' :=
  fun t src name hc => h' t src name (h t src name hc)

/-- An outcome after which everything that was compiled is still on record and, if there is an answer,
the level is the one from before. -/
structure Steadies {α : Type} (s : Interp) (p : Except Stop α × Interp) : Prop where
  grows : Grows s p.2
  level : ∀ a, p.1 = .ok a → p.2.level = s.level

namespace Steadies

variable {α β : Type} {s s' : Interp} {a : α}

theorem ok (hg : Grows s s') (hl : s'.level = s.level) : Steadies s (.ok a, s') :=
  ⟨hg, fun _ _ => hl⟩

theorem error {e : Stop} (hg : Grows s s') : @Steadies α s (.error e, s') := ⟨hg, nofun⟩

theorem trans {p : Except Stop β × Interp} (h : Steadies s (.ok a, s')) (hp : Steadies s' p) :
    Steadies s p :=
  ⟨h.grows.trans hp.grows, fun b hb => (hp.level b hb).trans (h.level a rfl)⟩

theorem stopping {m : Engine β} {e : Stop} (hg : Grows s s') (hm : Steadies s' (outcome m s')) :
    @Steadies α s (outcome (do let _ ← m; throw e) s') := by
  rw [outcome_bind]
  generalize outcome m s' = p at hm
  obtain ⟨_ | _, s''⟩ := p <;> exact .error (hg.trans hm.grows)

private theorem ensuring {m : Engine α} {cleanup : Engine Unit} (h : Steadies s (outcome m s))
    (hc : Steadies (outcome m s).2 (outcome cleanup (outcome m s).2)) :
    Steadies s (outcome (ensuring m cleanup) s) := by
  rw [outcome_ensuring]
  generalize outcome cleanup (outcome m s).2 = p at hc
  obtain ⟨e | _, s'⟩ := p
  · exact .error (h.grows.trans hc.grows)
  · exact ⟨h.grows.trans hc.grows, fun a ha => (hc.level _ rfl).trans (h.level a ha)⟩

private theorem atLevel {m : Engine α} {enter : Level → Level} {leave : Level → Level → Level}
    (hback : ∀ l, leave l (enter l) = l)
    (h : Steadies (s.setLevel (enter s.level)) (outcome m (s.setLevel (enter s.level)))) :
    Steadies s (outcome (atLevel enter leave m) s) := by
  rw [outcome_atLevel]
  generalize outcome m (s.setLevel (enter s.level)) = p at h
  obtain ⟨e | a, s'⟩ := p
  · exact .error h.grows
  · exact .ok h.grows ((congrArg (leave s.level) (h.level a rfl)).trans (hback s.level))

private theorem ensuringLevel {m : Engine α} {enter : Level → Level} {leave : Level → Level → Level}
    (hback : ∀ l, leave l (enter l) = l)
    (h : Steadies (s.setLevel (enter s.level)) (outcome m (s.setLevel (enter s.level)))) :
    Steadies s (outcome (ensuringLevel enter leave m) s) := by
  rw [outcome_ensuringLevel]
  exact ⟨h.grows, fun a ha => (congrArg (leave s.level) (h.level a ha)).trans (hback s.level)⟩

theorem level_protect {m : Engine Value} (h : Steadies s (outcome m s)) :
    (outcome (protect m) s).2.level = s.level := by
  rw [outcome_protect]
  generalize outcome m s = p at h
  obtain ⟨(f | _) | v, s'⟩ := p
  · rfl
  · rfl
  · exact h.level v rfl

private theorem protect {m : Engine Value} (h : Steadies s (outcome m s)) :
    Steadies s (outcome (protect m) s) := by
  refine ⟨?_, fun _ _ => h.level_protect⟩
  rw [outcome_protect]
  have hg := h.grows
  generalize outcome m s = p at hg
  obtain ⟨(f | _) | v, s'⟩ := p <;> exact hg

end Steadies

/-- A computation that only adds to the record, and ends at the level where it began if it ends with a
value. -/
def Steady {α : Type} (m : Engine α) : Prop := ∀ s, Steadies s (outcome m s)

namespace Steady

variable {α β : Type} {m : Engine α}

theorem pure (a : α) : Steady (Pure.pure a : Engine α) := fun s => .ok (.refl s) rfl

theorem stop (e : Stop) : Steady (throw e : Engine α) := fun s => .error (.refl s)

theorem change {f : Interp → Interp} (h : ∀ s, Grows s (f s))
    (hl : ∀ s, (f s).level = s.level := by intro s; rfl) : Steady (modify f) :=
  fun s => .ok (h s) (hl s)

theorem read {f : Interp → Engine α} (h : ∀ s, Steady (f s)) : Steady (get >>= f) :=
  fun s => h s s

theorem bind {f : α → Engine β} (hm : Steady m) (hf : ∀ a, Steady (f a)) :
    Steady (m >>= f) := by
  intro s
  have hs := hm s
  rw [outcome_bind]
  generalize outcome m s = p at hs
  obtain ⟨e | a, s'⟩ := p
  · exact .error hs.grows
  · exact hs.trans (hf a s')

theorem each {f : α → Engine PUnit} (l : List α) (h : ∀ a, Steady (f a)) :
    Steady (l.forM f) := by
  induction l with
  | nil => exact .pure _
  | cons a l ih => exact (h a).bind fun _ => ih

theorem ensuring {cleanup : Engine Unit} (hm : Steady m) (hc : Steady cleanup) :
    Steady (Engine.ensuring m cleanup) :=
  fun s => (hm s).ensuring (hc _)

end Steady

/-- What was compiled is within the limits of the format, and, where the room of the stack counts,
surplus arguments did not crowd it. -/
structure Within (r : Rigour) (s : Interp) : Prop where
  texts : ∀ t src name, s.compiled t src name → src.length < operandLimit
  blocks : ∀ t src name, s.compiled t src name → (compile t src name).block.size < operandLimit
  tables : ∀ t src name, s.compiled t src name → (compile t src name).table.size ≤ operandLimit
  calls : r ≠ .layout → ∀ t src name, s.compiled t src name →
    (compile t src name).table.size ≤ callIndexLimit
  uncrowded : r = .room → ∀ t src name, s.compiled t src name →
    Compile.Code.uncrowded (Compile.program t src name).1 = true

theorem Within.of_grows {r : Rigour} {s s' : Interp} (h : Within r s') (hg : Grows s s') :
    Within r s where
  texts t src name hc := h.texts t src name (hg t src name hc)
  blocks t src name hc := h.blocks t src name (hg t src name hc)
  tables t src name hc := h.tables t src name (hg t src name hc)
  calls hr t src name hc := h.calls hr t src name (hg t src name hc)
  uncrowded hr t src name hc := h.uncrowded hr t src name (hg t src name hc)

/-- An alias that is not an argument slot. -/
def Table.IsNamed (r : Rigour) (t : Table) (i : Nat) : Prop :=
  t.form? r i = some .alias ∧ maxArgs ≤ i

theorem Table.IsNamed.mono {r : Rigour} {t t' : Table} {i : Nat} (h : t.IsNamed r i)
    (ht : t.Extends r t') : t'.IsNamed r i :=
  ⟨ht i _ h.1, h.2⟩

/-- A change that keeps the invariant, the forms of all identifiers and the bindings, and writes
named aliases only. -/
structure Keeps (r : Rigour) (owed : Nat → Nat) (s s' : Interp) : Prop
    extends Framed owed s s' where
  inv : Inv r s'
  forms : s.table.Extends r s'.table
  targets : ∀ n i f, s'.written n i f → s.written n i f ∨ s'.table.IsNamed r i

/-- A change that owes nothing. -/
abbrev Settles (r : Rigour) : Interp → Interp → Prop := Keeps r fun _ => 0

theorem Keeps.refl {r : Rigour} {s : Interp} (h : Inv r s) : Settles r s s :=
  ⟨Framed.refl s, h, .refl r _, fun _ _ _ hn => .inl hn⟩

theorem Keeps.trans {r : Rigour} {s s' s'' : Interp} {owed : Nat → Nat} (h : Settles r s s')
    (h' : Keeps r owed s' s'') : Keeps r owed s s'' :=
  ⟨h.toFramed.trans h'.toFramed, h'.inv, h.forms.trans h'.forms, fun n i f hn =>
    (h'.targets n i f hn).elim (fun hn => (h.targets n i f hn).imp_right (·.mono h'.forms)) .inr⟩

theorem Keeps.of_frame {r : Rigour} {s s' : Interp} (h : Inv r s) (hf : Framed.Settled s s')
    (ht : s'.table.Ready r) (hx : s.table.Extends r s'.table)
    (hw : ∀ n i f, s'.written n i f → s.written n i f ∨ s'.table.IsNamed r i) :
    Settles r s s' :=
  ⟨hf, ⟨ht, hf.backed h.backed, hf.outermost_all h.outermost⟩, hx, hw⟩

/-- A change of what neither bindings nor code depend on. -/
structure Calm (s s' : Interp) : Prop where
  table : s'.table = s.table := by rfl
  scopes : s'.scopes = s.scopes := by rfl
  outermost : s'.outermost = s.outermost := by rfl
  callArgs : s'.callArgs = s.callArgs := by rfl
  muted : s'.muted = s.muted := by rfl
  compiled : s'.compiled = s.compiled := by rfl
  outerRuns : s'.outerRuns = s.outerRuns := by rfl
  writes : s'.writes = s.writes := by rfl
  written : s'.written = s.written := by rfl

theorem Calm.grows {s s' : Interp} (h : Calm s s') : Grows s s' := by
  intro t src name hc
  rw [h.compiled]
  exact hc

theorem Calm.keeps {r : Rigour} {s s' : Interp} (h : Calm s s') (hi : Inv r s) :
    Settles r s s' := by
  refine .of_frame hi (.of_same h.scopes h.outermost (fun i => by rw [h.table]; rfl) h.callArgs
    h.muted (.of_same h.scopes h.outermost h.outerRuns fun i _ => ?_) (fun i _ => ?_)
    (.of_same h.writes h.written fun i _ hp => ?_)) ?_ ?_ fun _ _ _ hn => .inl (h.written ▸ hn) <;>
    rw [h.table]
  · exact .refl _
  · exact ⟨hp, rfl⟩
  · exact hi.table
  · exact .refl r _

/-- An answer satisfies a condition, or there is none for a reason that is permitted. -/
def Ends {α : Type} (r : Rigour) (Q : Interp → α → Prop) : Except Stop α × Interp → Prop
  | (.ok a, s) => Q s a
  | (.error e, _) => r.Permits e

/-- An interpreter and the assumption under which it satisfies the invariant. -/
structure World (r : Rigour) where
  state : Interp
  live : Prop
  inv : live → Inv r state

namespace World

variable {α β : Type} {r : Rigour} {w w' w'' : World r} {owed : Nat → Nat}
  {Q R : Interp → α → Prop} {m : Engine α}

/-- An outcome that is safe, except that values are taken back on behalf of others. -/
def Sees (w : World r) (owed : Nat → Nat) (Q : Interp → α → Prop) (p : Except Stop α × Interp) :
    Prop :=
  Steadies w.state p ∧ (w.live → Within r p.2 → Keeps r owed w.state p.2 ∧ Ends r Q p)

/-- A computation is safe, and its answer satisfies a condition. -/
def Safe (w : World r) (m : Engine α) (Q : Interp → α → Prop) : Prop :=
  w.Sees (fun _ => 0) Q (outcome m w.state)

/-- A world in which a safe computation from another one may end. -/
def Leads (w w' : World r) : Prop := w'.live → w.live ∧ Settles r w.state w'.state

theorem Leads.refl (w : World r) : w.Leads w := fun h => ⟨h, .refl (w.inv h)⟩

theorem Leads.trans (h : w.Leads w') (h' : w'.Leads w'') : w.Leads w'' := by
  intro hl
  obtain ⟨hl', hk'⟩ := h' hl
  obtain ⟨hl'', hk⟩ := h hl'
  exact ⟨hl'', hk.trans hk'⟩

/-- A world whose interpreter knows the identifiers of another one. -/
def Knows (w w' : World r) : Prop := w'.live → w.live ∧ w.state.table.Extends r w'.state.table

theorem Leads.knows (h : w.Leads w') : w.Knows w' := fun hl => ⟨(h hl).1, (h hl).2.forms⟩

theorem Leads.forms (h : w.Leads w') (hl : w'.live) : w.state.table.Extends r w'.state.table :=
  (h hl).2.forms

def Good (w : World r) (v : Value) : Prop := w.live → v.Ok r w.state.table

theorem Good.inside {v : Value} (h : w.Good v) (hw : w.Knows w') : w'.Good v :=
  fun hl => (h (hw hl).1).mono (hw hl).2

theorem Good.later {v : Value} (h : w.Good v) (hw : w.Leads w') : w'.Good v := h.inside hw.knows

def AllGood (w : World r) (vs : List Value) : Prop := w.live → ∀ v ∈ vs, v.Ok r w.state.table

theorem AllGood.later {vs : List Value} (h : w.AllGood vs) (hw : w.Leads w') : w'.AllGood vs :=
  fun hl v hv => (h (hw hl).1 v hv).mono (hw.forms hl)

theorem AllGood.good {vs : List Value} (h : w.AllGood vs) {v : Value} (hv : v ∈ vs) : w.Good v :=
  fun hl => h hl v hv

/-- What a safe computation leads to, if its record is within the limits. -/
def after (w : World r) (s : Interp) (h : w.live → Within r s → Settles r w.state s) : World r where
  state := s
  live := w.live ∧ Within r s
  inv hl := (h hl.1 hl.2).inv

private theorem leads_after {s : Interp} (h : w.live → Within r s → Settles r w.state s) :
    w.Leads (w.after s h) :=
  fun hl => ⟨hl.1, h hl.1 hl.2⟩

theorem Sees.settle {s : Interp} {p : Except Stop α × Interp}
    (h : w.live → Within r s → Settles r w.state s) (hg : Steadies w.state p)
    (hp : (w.after s h).Sees owed Q p) : w.Sees owed Q p := by
  refine ⟨hg, fun hl hw => ?_⟩
  have hs := hw.of_grows hp.1.grows
  obtain ⟨hk, he⟩ := hp.2 ⟨hl, hs⟩ hw
  exact ⟨(h hl hs).trans hk, he⟩

theorem Sees.after {s : Interp} {b : β} (h : w.live → Within r s → Settles r w.state s)
    (hg : Steadies w.state (.ok b, s)) {p : Except Stop α × Interp}
    (hp : (w.after s h).Sees owed Q p) : w.Sees owed Q p :=
  .settle h (hg.trans hp.1) hp

theorem Safe.pure {a : α} (h : w.live → Q w.state a) : w.Safe (Pure.pure a) Q :=
  ⟨Steady.pure a w.state, fun hl _ => ⟨.refl (w.inv hl), h hl⟩⟩

theorem Safe.stop {e : Stop} (h : w.live → r.Permits e) : w.Safe (throw e : Engine α) Q :=
  ⟨Steady.stop e w.state, fun hl _ => ⟨.refl (w.inv hl), h hl⟩⟩

theorem Safe.bind {f : α → Engine β} {R : Interp → β → Prop} (hm : w.Safe m Q)
    (hf : ∀ (w' : World r) a, w.Leads w' → (w'.live → Q w'.state a) → w'.Safe (f a) R) :
    w.Safe (m >>= f) R := by
  obtain ⟨hg, hk⟩ := hm
  unfold Safe
  rw [outcome_bind]
  cases h : outcome m w.state with
  | mk answer s =>
      rw [h] at hg hk
      cases answer with
      | error e => exact ⟨.error hg.grows, hk⟩
      | ok a =>
          exact Sees.after (fun hl hw => (hk hl hw).1) hg
            (hf (w.after s _) a (leads_after _) fun hl => (hk hl.1 hl.2).2)

theorem Safe.mono (hm : w.Safe m Q)
    (h : w.live → ∀ s a, Inv r s → w.state.table.Extends r s.table → Q s a → R s a) :
    w.Safe m R := by
  refine ⟨hm.1, fun hl hw => ?_⟩
  obtain ⟨hk, he⟩ := hm.2 hl hw
  refine ⟨hk, ?_⟩
  generalize outcome m w.state = p at hk he
  obtain ⟨answer | a, s⟩ := p
  · exact he
  · exact h hl s a hk.inv hk.forms he

theorem Safe.also {P : α → Prop} (hm : w.Safe m Q)
    (h : ∀ a s, outcome m w.state = (.ok a, s) → P a) : w.Safe m fun s a => Q s a ∧ P a := by
  refine ⟨hm.1, fun hl hw => ?_⟩
  obtain ⟨hk, he⟩ := hm.2 hl hw
  refine ⟨hk, ?_⟩
  generalize outcome m w.state = p at he h
  obtain ⟨e | a, s⟩ := p
  · exact he
  · exact ⟨he, h a s rfl⟩

theorem Safe.drop (hm : w.Safe m Q) : w.Safe m fun _ _ => True := hm.mono fun _ _ _ _ _ _ => trivial

theorem Safe.read {f : Interp → Engine α} (h : w.Safe (f w.state) Q) : w.Safe (get >>= f) Q := h

theorem Safe.ite {c : Prop} [Decidable c] {m' : Engine α} (h : c → w.Safe m Q)
    (h' : ¬c → w.Safe m' Q) : w.Safe (if c then m else m') Q := by
  split
  · exact h ‹_›
  · exact h' ‹_›

theorem Safe.change {f : Interp → Interp} {Q : Interp → PUnit → Prop}
    (hg : Grows w.state (f w.state))
    (h : w.live → Within r (f w.state) →
      Settles r w.state (f w.state) ∧ Q (f w.state) ⟨⟩)
    (hl : (f w.state).level = w.state.level := by rfl) : w.Safe (modify f) Q :=
  ⟨.ok hg hl, h⟩

theorem Safe.calm {f : Interp → Interp} (h : ∀ s, Calm s (f s))
    (hl : (f w.state).level = w.state.level := by rfl) :
    w.Safe (modify f) fun s _ => s.table = w.state.table :=
  .change (h _).grows (fun hl _ => ⟨(h _).keeps (w.inv hl), (h _).table⟩) hl

/-- A computation at another level. -/
theorem Safe.atLevel {enter : Level → Level} {leave : Level → Level → Level}
    (hback : ∀ l, leave l (enter l) = l)
    (hm : ∀ w' : World r, w.Leads w' → w'.state.table = w.state.table → w'.Safe m Q)
    (hQ : ∀ s l a, Q s a → Q (s.setLevel l) a) : w.Safe (atLevel enter leave m) Q := by
  have hcalm (s : Interp) (l : Level) : Calm s (s.setLevel l) := {}
  have henter (hl : w.live) := (hcalm w.state (enter w.state.level)).keeps (w.inv hl)
  obtain ⟨hg, hk⟩ := hm ⟨_, w.live, fun hl => (henter hl).inv⟩ (fun hl => ⟨hl, henter hl⟩) rfl
  refine ⟨.atLevel hback hg, ?_⟩
  rw [outcome_atLevel]
  dsimp only at hk
  generalize outcome m (w.state.setLevel (enter w.state.level)) = p at hk
  obtain ⟨e | a, s⟩ := p
  · exact fun hl hw => ⟨(henter hl).trans (hk hl hw).1, (hk hl hw).2⟩
  · intro hl hw
    have hleave := hcalm s (leave w.state.level s.level)
    obtain ⟨hk, hq⟩ := hk hl (hw.of_grows hleave.grows)
    exact ⟨((henter hl).trans hk).trans (hleave.keeps hk.inv), hQ _ _ _ hq⟩

/-- A computation at another level, from which it comes back however it ends. -/
theorem Safe.ensuringLevel {enter : Level → Level} {leave : Level → Level → Level}
    (hback : ∀ l, leave l (enter l) = l)
    (hm : ∀ w' : World r, w.Leads w' → w'.state.table = w.state.table → w'.Safe m Q)
    (hQ : ∀ s l a, Q s a → Q (s.setLevel l) a) : w.Safe (ensuringLevel enter leave m) Q := by
  have hcalm (s : Interp) (l : Level) : Calm s (s.setLevel l) := {}
  have henter (hl : w.live) := (hcalm w.state (enter w.state.level)).keeps (w.inv hl)
  obtain ⟨hg, hk⟩ := hm ⟨_, w.live, fun hl => (henter hl).inv⟩ (fun hl => ⟨hl, henter hl⟩) rfl
  refine ⟨.ensuringLevel hback hg, ?_⟩
  rw [outcome_ensuringLevel]
  dsimp only at hk
  generalize outcome m (w.state.setLevel (enter w.state.level)) = p at hk
  obtain ⟨o, s⟩ := p
  intro hl hw
  have hleave := hcalm s (leave w.state.level s.level)
  obtain ⟨hk, hq⟩ := hk hl (hw.of_grows hleave.grows)
  refine ⟨((henter hl).trans hk).trans (hleave.keeps hk.inv), ?_⟩
  cases o with
  | error e => exact hq
  | ok a => exact hQ _ _ _ hq

theorem Safe.each {γ : Type} {f : γ → Engine PUnit} (l : List γ)
    (h : ∀ w', w.Leads w' → ∀ a ∈ l, w'.Safe (f a) fun _ _ => True) :
    w.Safe (l.forM f) fun _ _ => True := by
  induction l generalizing w with
  | nil => exact .pure fun _ => trivial
  | cons a l ih =>
      refine (h w (.refl w) a List.mem_cons_self).bind fun w' _ hw _ => ih fun w'' hw' b hb => ?_
      exact h w'' (hw.trans hw') b (List.mem_cons_of_mem a hb)

theorem Safe.steady (h : ∀ w' : World r, w.Knows w' → w'.Safe m Q) : Steady m :=
  fun s => (h ⟨s, False, nofun⟩ nofun).1

/-- A computation with a clean-up, from an interpreter that was prepared for it. The clean-up undoes
what was prepared, wherever the computation ended. -/
theorem bracket {s₁ : Interp} {cleanup : Engine Unit} (hs : w.live → Inv r s₁)
    (hm : (World.mk s₁ w.live hs).Safe m Q) (hgc : Steady cleanup)
    (hc : w.live → ∀ s₂, Settles r s₁ s₂ → ∃ s₃, outcome cleanup s₂ = (.ok ⟨⟩, s₃) ∧
      Settles r w.state s₃ ∧ s₂.table.Extends r s₃.table)
    (hQ : ∀ s s' a, s.table.Extends r s'.table → Q s a → R s' a) (hl : w.live)
    (hw : Within r (outcome (ensuring m cleanup) s₁).2) :
    Settles r w.state (outcome (ensuring m cleanup) s₁).2 ∧
      Ends r R (outcome (ensuring m cleanup) s₁) := by
  obtain ⟨-, hk⟩ := hm
  dsimp only at hk
  rw [snd_outcome_ensuring] at *
  obtain ⟨hk, he⟩ := hk hl (hw.of_grows (hgc _).grows)
  obtain ⟨s₃, hs₃, hk₃, hx⟩ := hc hl _ hk
  rw [outcome_ensuring, hs₃]
  refine ⟨hk₃, ?_⟩
  generalize outcome m s₁ = p at he hx
  obtain ⟨e | a, s₂⟩ := p
  · exact he
  · exact hQ s₂ s₃ a hx he

/-- A protected computation ends with a fault only if it is permitted. -/
theorem Safe.shielded {m : Engine Value} (hm : w.Safe m fun s v => v.Ok r s.table) :
    w.Safe (protect m) fun s o => (∀ v, o = .ok v → v.Ok r s.table) ∧
      ∀ f, o = .error f → r.Permits (.fault f) := by
  obtain ⟨hg, hk⟩ := hm
  refine ⟨hg.protect, ?_⟩
  rw [outcome_protect]
  generalize outcome m w.state = p at hk
  intro hl hw
  obtain ⟨(f | _) | v, s⟩ := p
  · have hcalm : Calm s (s.setLevel w.state.level) := {}
    obtain ⟨hk, he⟩ := hk hl (hw.of_grows hcalm.grows)
    exact ⟨hk.trans (hcalm.keeps hk.inv), nofun, fun f' hf => by cases hf; exact he⟩
  · have hcalm : Calm s (s.setLevel w.state.level) := {}
    obtain ⟨hk, he⟩ := hk hl (hw.of_grows hcalm.grows)
    exact ⟨hk.trans (hcalm.keeps hk.inv), he⟩
  · have hcalm : Calm s { s with result := v } := {}
    obtain ⟨hk, he⟩ := hk hl (hw.of_grows hcalm.grows)
    exact ⟨hk.trans (hcalm.keeps hk.inv), fun v' hv => by cases hv; exact he, nofun⟩

end World

end ConsoleScript
