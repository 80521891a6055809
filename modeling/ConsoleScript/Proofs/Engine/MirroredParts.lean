import ConsoleScript.Proofs.Engine.Relabelling

/-!
The parts of the engine, one after the other: each mirrors itself, with operands that differ in labels
only, if nested code does. Bindings and writes come first, then what the library does.
-/

namespace ConsoleScript

open Bytecode Engine

variable {past past' : List Event} {k : Runner}

/-- Code of blocks with the same words runs alike, up to the same position. -/
def RunsBlindly (past past' : List Event) (k : Runner) : Prop :=
  ∀ (b b' : Block) (pc : Nat), b.Relabels b' →
    Mirrors past past' (fun p p' => p.1.Relabels p'.1 ∧ p'.2 = p.2) (k b pc) (k b' pc)

section Hosts

variable (hk : RunsBlindly past past' k)
include hk

theorem mirrors_runCode {b b' : Block} (hb : b.Relabels b') (pc : Nat) :
    Mirrors past past' Value.Relabels (do return (← k b pc).1) (do return (← k b' pc).1) :=
  (hk b b' pc hb).bind fun _ _ hp => .pure hp.1

theorem mirrors_runText (src name : Bytes) :
    Mirrors past past' Value.Relabels (runText k src name) (runText k src name) :=
  (mirrors_compileText src name).bind fun _ _ hb => mirrors_runCode hk hb 1

theorem mirrors_runValue {v v' : Value} (hv : v.Relabels v') :
    Mirrors past past' Value.Relabels (runValue k v) (runValue k v') := by
  cases hv with
  | code hb pc => exact mirrors_runCode hk hb pc
  | refl =>
      cases v with
      | code b pc => exact mirrors_runCode hk rfl pc
      | text kind s => exact mirrors_runText hk s []
      | null | int | float | ident => exact .pure (.refl _)

theorem mirrors_runHost {p p' : HostProgram} (hp : p.Relabels p') :
    Mirrors past past' Value.Relabels (runHost k p) (runHost k p') := by
  induction hp with
  | done hv => exact .pure hv
  | fail message => exact .fail _
  | emit he _ ih => exact (mirrors_emit he).next fun _ => ih
  | execute src _ ih => exact (mirrors_runText hk src []).protect.bind ih
  | runValue hv _ ih => exact (mirrors_runValue hk hv).bind ih

end Hosts

section Bindings

theorem mirrors_pushArg (i : Nat) {v v' : Value} (hv : v.Relabels v') :
    Mirrors past past' Eq (pushArg i v) (pushArg i v') := by
  apply Mirrors.modifyIdent
  intro id id' h
  exact { h with value := hv, body := .none, saved := .cons h.value h.saved }

theorem mirrors_popArg (i : Nat) : Mirrors past past' Eq (popArg i) (popArg i) := by
  apply Mirrors.identAt
  intro id id' h
  have hsaved := h.saved
  rw [h.name]
  generalize id.saved = saved at hsaved
  generalize id'.saved = saved' at hsaved
  cases hsaved with
  | nil => exact .fail _
  | cons hv hrest =>
      apply Mirrors.modifyIdent
      intro id id' h
      exact { h with value := hv, saved := hrest, body := .none }

theorem mirrors_clearUnknown (i : Nat) :
    Mirrors past past' Eq (modifyIdent i clearUnknown) (modifyIdent i clearUnknown) := by
  apply Mirrors.modifyIdent
  intro id id' h
  exact { h with flags := by simp [clearUnknown, h.flags] }

theorem mirrors_setValue (i : Nat) {v v' : Value} (hv : v.Relabels v') :
    Mirrors past past' Eq (modifyIdent i (·.setValue v)) (modifyIdent i (·.setValue v')) := by
  apply Mirrors.modifyIdent
  intro id id' h
  exact { h with value := hv, body := .none }

theorem isNamedAlias_relabels {id id' : Ident} (h : id.Relabels id') (i : Nat) :
    isNamedAlias i id' = isNamedAlias i id := by
  simp [isNamedAlias, h.role]

theorem mirrors_pushAlias (i : Nat) : Mirrors past past' Eq (pushAlias i) (pushAlias i) := by
  apply Mirrors.identAt
  intro id id' h
  rw [isNamedAlias_relabels h]
  exact .ite ((mirrors_pushArg i (.refl _)).next fun _ => mirrors_clearUnknown i) (.pure rfl)

theorem mirrors_popAlias (i : Nat) : Mirrors past past' Eq (popAlias i) (popAlias i) := by
  apply Mirrors.identAt
  intro id id' h
  rw [isNamedAlias_relabels h]
  exact .ite (mirrors_popArg i) (.pure rfl)

/-- A change that does not touch what labels are in, and does not look at it. -/
theorem mirrors_update {f : Interp → Interp}
    (hf : ∀ (s : Interp) (table : Table) (events : List Event) (result : Value)
      (compiled : Table → Bytes → Bytes → Prop),
      f { s with table, events, result, compiled } = { f s with table, events, result, compiled }) :
    Mirrors past past' Eq (modify f) (modify f) := by
  apply Mirrors.change
  intro s s' hs
  have hsame : f s = { f s with
      table := s.table
      events := s.events
      result := s.result
      compiled := s.compiled } := hf s _ _ _ _
  cases hs with
  | @intro table events result ht he hr c =>
      have hmoved := hf s table events result c
      rw [hmoved]
      refine .intro (f s) ?_ ?_ ?_ c
      · rwa [hsame]
      · rwa [hsame]
      · rwa [hsame]

theorem mirrors_markUsed (i : Nat) : Mirrors past past' Eq (markUsed i) (markUsed i) := by
  apply mirrors_update
  intro s _ _ _ _
  cases hs : s.scopes <;> simp [Interp.setUsed, Interp.used, hs]

theorem Engine.Mirrors.ifBound {α β : Type} {R : α → β → Prop} (i : Nat) {m n : Engine α}
    {m' n' : Engine β} (h : Mirrors past past' R m m') (h' : Mirrors past past' R n n') :
    Mirrors past past' R (do if (← get).isBound i then m else n)
      (do if (← get).isBound i then m' else n') := by
  apply Mirrors.read
  intro s s' hs
  cases hs
  exact .ite h h'

theorem mirrors_setArg (i : Nat) {v v' : Value} (hv : v.Relabels v') :
    Mirrors past past' Eq (setArg i v) (setArg i v') :=
  .ifBound i (mirrors_setValue i hv) ((mirrors_pushArg i hv).next fun _ => mirrors_markUsed i)

theorem mirrors_bindArg (i : Nat) : Mirrors past past' Eq (bindArg i) (bindArg i) :=
  .ifBound i (.pure rfl) ((mirrors_pushArg i (.refl _)).next fun _ => mirrors_markUsed i)

theorem mirrors_setAlias (i : Nat) {v v' : Value} (hv : v.Relabels v') :
    Mirrors past past' Eq (setAlias i v) (setAlias i v') := by
  apply Mirrors.read
  intro s s' hs
  have hflags : s'.writeFlags = s.writeFlags := by cases hs; rfl
  rw [hflags]
  refine (mirrors_update fun _ _ _ _ _ => rfl).next fun _ => ?_
  apply Mirrors.modifyIdent
  intro id id' h
  exact { h with value := hv, body := .none, flags := rfl }

theorem mirrors_pushScope (c : Scope) :
    Mirrors past past' Eq (pushScope c) (pushScope c) :=
  mirrors_update fun _ _ _ _ _ => rfl

theorem mirrors_popScope : Mirrors past past' Eq popScope popScope := by
  intro s s' hs
  cases hs with
  | intro ht he hr c => exact ⟨.ok rfl, .intro { s with scopes := s.scopes.tail } ht he hr c⟩

private theorem mirrors_takeArg (i : Nat) :
    Mirrors past past' (fun p p' => p'.1 = p.1 ∧ p.2.Relabels p'.2) (takeArg i) (takeArg i) := by
  apply Mirrors.identAt
  intro id id' h
  exact (mirrors_popArg i).next fun _ => .pure ⟨rfl, h.value⟩

private theorem mirrors_leaveOuter (caller : SlotSet) {taken taken' : List (Nat × Value)}
    (h : List.Forall₂ (fun p p' => p'.1 = p.1 ∧ p.2.Relabels p'.2) taken taken') :
    Mirrors past past' Eq (leaveOuter caller taken) (leaveOuter caller taken') := by
  refine mirrors_popScope.next fun _ => (Mirrors.forM mirrors_popArg _).next fun _ => ?_
  apply Mirrors.forEach _ h
  rintro ⟨i, v⟩ ⟨i', v'⟩ ⟨hi, hv⟩
  obtain rfl : i' = i := hi
  exact mirrors_pushArg i' hv

theorem mirrors_withOuterArgs {α β : Type} {R : α → β → Prop} {m : Engine α} {m' : Engine β}
    (h : Mirrors past past' R m m') :
    Mirrors past past' R (withOuterArgs m) (withOuterArgs m') := by
  refine (mirrors_update fun _ _ _ _ _ => rfl).next fun _ => ?_
  apply Mirrors.read
  intro s s' hs
  cases hs
  dsimp only
  cases scopeInEffect? 0 s.scopes with
  | none => exact h
  | some found =>
      obtain ⟨c, rest⟩ := found
      refine (Mirrors.mapM mirrors_takeArg _).bind fun taken taken' htaken => ?_
      refine (mirrors_pushScope _).next fun _ => ?_
      exact h.ensuring (mirrors_leaveOuter _ htaken)

private theorem mirrors_leaveCall (argc : Nat) (callArgs : Int32) (flags : Flags) :
    Mirrors past past' Eq (leaveCall argc callArgs flags) (leaveCall argc callArgs flags) := by
  refine mirrors_popScope.next fun _ => ?_
  refine (mirrors_update fun _ _ _ _ _ => rfl).next fun _ => ?_
  refine (Mirrors.forM mirrors_popArg _).next fun _ => (Mirrors.forM mirrors_popArg _).next fun _ => ?_
  exact mirrors_update fun _ _ _ _ _ => rfl

theorem mirrors_withArgs {α β : Type} {R : α → β → Prop} {m : Engine α} {m' : Engine β}
    (ident : Nat) (overridden : Bool) {args args' : List Value}
    (hargs : List.Forall₂ Value.Relabels args args') (h : Mirrors past past' R m m') :
    Mirrors past past' R (withArgs ident overridden args m)
      (withArgs ident overridden args' m') := by
  have hpush : List.Forall₂ (fun p p' => p'.2 = p.2 ∧ p.1.Relabels p'.1) args.zipIdx
      args'.zipIdx := by
    generalize 0 = n
    induction hargs generalizing n with
    | nil => exact .nil
    | cons hv _ ih => exact .cons ⟨rfl, hv⟩ (ih _)
  have hargc : args'.length = args.length := hargs.length_eq.symm
  unfold withArgs
  rw [hargc]
  refine (Mirrors.forEach ?_ hpush).next fun _ => ?_
  · rintro ⟨v, i⟩ ⟨v', i'⟩ ⟨hi, hv⟩
    obtain rfl : i' = i := hi
    exact mirrors_pushArg i' hv
  apply Mirrors.read
  intro s s' hs
  cases hs
  apply Mirrors.read
  intro t t' ht
  cases ht
  refine (mirrors_update fun _ _ _ _ _ => rfl).next fun _ => (mirrors_pushScope _).next fun _ => ?_
  exact h.ensuring (mirrors_leaveCall _ _ _)

end Bindings

section Variables

theorem Interp.Relabels.writeFlags {s s' : Interp} (hs : s.Relabels past past' s') :
    s'.writeFlags = s.writeFlags := by
  cases hs
  rfl

theorem Interp.Relabels.valueOf {s s' : Interp} (hs : s.Relabels past past' s') {id id' : Ident}
    (h : id.Relabels id') : s'.valueOf id' = s.valueOf id := by
  cases hs
  unfold Interp.valueOf
  rw [h.role, h.value.settle]
  rfl

theorem Interp.Relabels.printed? {s s' : Interp} (hs : s.Relabels past past' s') {id id' : Ident}
    (h : id.Relabels id') : s'.printed? id' = s.printed? id := by
  cases hs
  unfold Interp.printed? Interp.textOf
  rw [h.role, h.value.toBytes, h.flags, h.name]
  rfl

theorem Role.Blind.watch {role : Role} (h : role.Blind) : role.watch.Blind := by
  cases role <;> first | exact h | trivial

private theorem mirrors_override (i : Nat) {id id' : Ident} (h : id.Relabels id') :
    Mirrors past past' Eq (override i id) (override i id') := by
  apply Mirrors.read
  intro s s' hs
  dsimp only
  rw [hs.writeFlags, h.flags, h.name]
  refine .ite (.ite ?_ (.ite ?_ (.pure rfl))) (.ite ?_ (.pure rfl))
  · exact (mirrors_debug _).next fun _ => .pure rfl
  · refine (Mirrors.modifyIdent i fun id id' h => ?_).next fun _ => .pure rfl
    rw [hs.valueOf h, h.flags]
    exact { h with flags := rfl, before := .refl _ }
  · refine (Mirrors.modifyIdent i fun id id' h => ?_).next fun _ => .pure rfl
    rw [h.flags]
    exact { h with flags := rfl, before := .refl _ }

theorem mirrors_admits (i : Nat) : Mirrors past past' Eq (admits i) (admits i) := by
  apply Mirrors.identAt
  intro id id' h
  rw [h.flags, h.name]
  exact .ite ((mirrors_debug _).next fun _ => .pure rfl) (mirrors_override i h)

theorem mirrors_storeInt (i : Nat) (choose : Int32 → Int32 → Int32) :
    Mirrors past past' Eq (storeInt i choose) (storeInt i choose) := by
  apply Mirrors.identAt
  intro id id' h
  rw [h.role]
  cases hrole : id.role with
  | intVar least greatest store watch =>
      have hblind : (Role.intVar least greatest store watch).watch.Blind := hrole ▸ h.blind.watch
      cases store with
      | own =>
          apply Mirrors.modifyIdent
          intro id id' h
          exact { h with role := rfl, blind := hblind }
      | shared c => exact mirrors_update fun _ _ _ _ _ => by cases c <;> rfl
  | floatVar | textVar | command | «alias» | control => exact .fail _

theorem mirrors_storeFloat (i : Nat) (choose : Single → Single → Single) :
    Mirrors past past' Eq (storeFloat i choose) (storeFloat i choose) := by
  apply Mirrors.identAt
  intro id id' h
  rw [h.role]
  cases hrole : id.role with
  | floatVar least greatest old watch =>
      have hblind : (Role.floatVar least greatest old watch).watch.Blind := hrole ▸ h.blind.watch
      apply Mirrors.modifyIdent
      intro id id' h
      exact { h with role := rfl, blind := hblind }
  | intVar | textVar | command | «alias» | control => exact .fail _

theorem mirrors_storeText (i : Nat) (t : Bytes) :
    Mirrors past past' Eq (storeText i t) (storeText i t) := by
  apply Mirrors.identAt
  intro id id' h
  rw [h.role]
  cases hrole : id.role with
  | textVar old watch =>
      have hblind : (Role.textVar old watch).watch.Blind := hrole ▸ h.blind.watch
      apply Mirrors.modifyIdent
      intro id id' h
      exact { h with role := rfl, blind := hblind }
  | intVar | floatVar | command | «alias» | control => exact .fail _

theorem mirrors_printVar (i : Nat) : Mirrors past past' Eq (printVar i) (printVar i) := by
  apply Mirrors.identAt
  intro id id' h
  apply Mirrors.read
  intro s s' hs
  rw [hs.printed? h]
  cases s.printed? id with
  | none => exact .pure rfl
  | some line => exact mirrors_echo line

variable (hk : RunsBlindly past past' k)
include hk

theorem mirrors_notify (i : Nat) : Mirrors past past' Eq (notify k i) (notify k i) := by
  apply Mirrors.identAt
  intro id id' h
  rw [h.role]
  cases hwatch : id.role.watch with
  | none => exact .pure rfl
  | persistence => exact mirrors_update fun _ _ _ _ _ => rfl
  | host f =>
      apply Mirrors.read
      intro s s' hs
      rw [hs.valueOf h]
      have hblind : (Watch.host f).Blind := hwatch ▸ h.blind.watch
      exact (mirrors_runHost hk (hblind _)).andThen fun _ _ => .pure rfl

theorem mirrors_setIntVar (i : Nat) {v v' : Int32} (h : v' = v) :
    Mirrors past past' Eq (setIntVar k i v) (setIntVar k i v') := by
  subst h
  exact (mirrors_admits i).next fun _ =>
    .ite ((mirrors_storeInt i _).next fun _ => mirrors_notify hk i) (.pure rfl)

theorem mirrors_setFloatVar (i : Nat) {v v' : Single} (h : v' = v) :
    Mirrors past past' Eq (setFloatVar k i v) (setFloatVar k i v') := by
  subst h
  exact (mirrors_admits i).next fun _ =>
    .ite ((mirrors_storeFloat i _).next fun _ => mirrors_notify hk i) (.pure rfl)

theorem mirrors_setTextVar (i : Nat) {t t' : Bytes} (h : t' = t) :
    Mirrors past past' Eq (setTextVar k i t) (setTextVar k i t') := by
  subst h
  exact (mirrors_admits i).next fun _ =>
    .ite ((mirrors_storeText i _).next fun _ => mirrors_notify hk i) (.pure rfl)

theorem mirrors_assign (i : Nat) {v v' : Value} (hv : v.Relabels v') :
    Mirrors past past' Eq (assign k i v) (assign k i v') := by
  apply Mirrors.identAt
  intro id id' h
  rw [h.role, h.name]
  cases id.role with
  | «alias» => exact .ite (mirrors_setArg i hv) (mirrors_setAlias i hv)
  | intVar => exact mirrors_setIntVar hk i hv.toInt
  | floatVar => exact mirrors_setFloatVar hk i hv.toSingle
  | textVar => exact mirrors_setTextVar hk i hv.toBytes
  | command | control => exact mirrors_debug _

theorem mirrors_assignNamed (name : Bytes) {v v' : Value} (hv : v.Relabels v') :
    Mirrors past past' Eq (assignNamed k name v) (assignNamed k name v') := by
  apply Mirrors.read
  intro s s' hs
  dsimp only
  rw [hs.table.find?, hs.table.size]
  cases s.table.find? name with
  | some i => exact mirrors_assign hk i hv
  | none =>
      refine .ite (mirrors_debug _) ((Mirrors.change fun s s' hs => ?_).next fun _ =>
        mirrors_setAlias _ hv)
      cases hs with
      | intro ht he hr c =>
          exact .intro { s with table := s.table.push { name, role := .alias } }
            (ht.push (by exact trivial)) he hr c

private theorem mirrors_clearOverride (i : Nat) :
    Mirrors past past' Eq (clearOverride k i) (clearOverride k i) := by
  apply Mirrors.identAt
  intro id id' h
  dsimp only
  rw [h.flags, h.role, h.value.text?, h.before.toInt, h.before.toSingle, h.before.toBytes]
  refine .ite ?_ (.pure rfl)
  have hend : Mirrors past past' Eq
      (modifyIdent i fun id => { id with
        before := .null
        flags := { id.flags with overridden := false } })
      (modifyIdent i fun id => { id with
        before := .null
        flags := { id.flags with overridden := false } }) := by
    apply Mirrors.modifyIdent
    intro id id' h
    rw [h.flags]
    exact { h with flags := rfl, before := .refl _ }
  cases id.role with
  | «alias» => exact .ite ((mirrors_setValue i (.refl _)).next fun _ => hend) hend
  | intVar =>
      exact (mirrors_storeInt i _).next fun _ => (mirrors_notify hk i).next fun _ => hend
  | floatVar =>
      exact (mirrors_storeFloat i _).next fun _ => (mirrors_notify hk i).next fun _ => hend
  | textVar =>
      exact (mirrors_storeText i _).next fun _ => (mirrors_notify hk i).next fun _ => hend
  | command | control => exact hend

private theorem mirrors_resetNamed (name : Bytes) :
    Mirrors past past' Eq (resetNamed k name) (resetNamed k name) := by
  apply Mirrors.read
  intro s s' hs
  rcases hs.table.lookup? name with ⟨hid, hid'⟩ | ⟨i, id, id', hid, hid', h⟩
  · rw [hid, hid']
    exact .pure rfl
  · rw [hid, hid']
    dsimp only
    rw [h.flags, h.role, h.name]
    exact .ite (mirrors_debug _) (mirrors_clearOverride hk i)

end Variables

section Shaping

theorem mirrors_codeOf (src : Bytes) :
    Mirrors past past' Value.Relabels (codeOf src) (codeOf src) :=
  (mirrors_compileText src []).bind fun _ _ hb => .pure (.code hb 1)

private theorem mirrors_indexOf {v v' : Value} (hv : v.Relabels v') :
    Mirrors past past' Eq (indexOf v) (indexOf v') := by
  unfold indexOf
  rw [hv.text?]
  cases v.text? with
  | some name => exact mirrors_intern name
  | none => exact .pure rfl

theorem mirrors_identOf {v v' : Value} (hv : v.Relabels v') :
    Mirrors past past' Value.Relabels (identOf v) (identOf v') := by
  refine (mirrors_indexOf hv).next fun i => ?_
  apply Mirrors.identAt
  intro id id' h
  rw [h.role]
  exact .ite ((mirrors_bindArg i).next fun _ => .pure (.refl _)) (.pure (.refl _))

theorem mirrors_compileCondition {v v' : Value} (hv : v.Relabels v') :
    Mirrors past past' Value.Relabels (compileCondition v) (compileCondition v') := by
  unfold compileCondition
  rw [hv.text?]
  rcases v.text? with _ | _ | ⟨c, s⟩
  · exact .pure hv
  · exact .pure (.refl _)
  · exact mirrors_codeOf _

private theorem mirrors_convertArg {v v' : Value} (hv : v.Relabels v') (l : Letter) :
    Mirrors past past' Value.Relabels (convertArg v l) (convertArg v' l) := by
  cases l with
  | condition => exact mirrors_compileCondition hv
  | code =>
      change Mirrors past past' _ (if v.isCode then return v else codeOf v.toBytes)
        (if v'.isCode then return v' else codeOf v'.toBytes)
      rw [hv.isCode, hv.toBytes]
      exact .ite (.pure hv) (mirrors_codeOf _)
  | ident =>
      unfold convertArg
      rw [hv.ident?]
      cases v.ident? with
      | some _ => exact .pure hv
      | none => exact mirrors_identOf hv
  | int | intOrLeast =>
      unfold convertArg
      rw [hv.toInt]
      exact .pure (.refl _)
  | float | floatOrPrevious =>
      unfold convertArg
      rw [hv.toSingle]
      exact .pure (.refl _)
  | text | ownText =>
      unfold convertArg
      rw [hv.toBytes]
      exact .pure (.refl _)
  | _ => exact .pure hv

theorem tail_relabels {vs vs' : List Value} (h : List.Forall₂ Value.Relabels vs vs') :
    List.Forall₂ Value.Relabels vs.tail vs'.tail := by
  cases h with
  | nil => exact .nil
  | cons _ h => exact h

theorem isEmpty_relabels {vs vs' : List Value} (h : List.Forall₂ Value.Relabels vs vs') :
    vs'.isEmpty = vs.isEmpty := by
  cases h <;> rfl

/-- Arguments that are shaped alike, but for labels. -/
structure Engine.Shaping.Relabels (st st' : Shaping) : Prop where
  shaped : List.Forall₂ Value.Relabels st.shaped st'.shaped
  rest : List.Forall₂ Value.Relabels st.rest st'.rest
  madeUp : st'.madeUp = st.madeUp
  again : st'.again = st.again

namespace Engine.Shaping.Relabels

variable {st st' : Shaping} {v v' : Value}

theorem add (h : st.Relabels st') (hv : v.Relabels v') : (st.add v).Relabels (st'.add v') where
  shaped := List.rel_append h.shaped (.cons hv .nil)
  rest := tail_relabels h.rest
  madeUp := h.madeUp
  again := h.again

theorem addMadeUp (h : st.Relabels st') (hv : v.Relabels v') :
    (st.addMadeUp v).Relabels (st'.addMadeUp v') :=
  { h.add hv with madeUp := congrArg (· + 1) h.madeUp }

theorem all (h : st.Relabels st') : List.Forall₂ Value.Relabels st.all st'.all :=
  List.rel_append h.shaped h.rest

end Engine.Shaping.Relabels

private theorem missingArg_relabels {vs vs' : List Value} (h : List.Forall₂ Value.Relabels vs vs')
    (l : Letter) : missingArg vs'.getLast? l = missingArg vs.getLast? l := by
  cases l with
  | floatOrPrevious =>
      rw [List.getLast?_eq_getElem?, List.getLast?_eq_getElem?, h.length_eq]
      rcases getElem?_relabels h (vs'.length - 1) with ⟨hv, hv'⟩ | ⟨v, v', hv, hv', hlast⟩
      · rw [hv, hv']
      · rw [hv, hv']
        exact congrArg Value.float hlast.toSingle
  | _ => rfl

private theorem mirrors_addGiven (l : Letter) {st st' : Shaping} (h : st.Relabels st') :
    Mirrors past past' Shaping.Relabels (st.addGiven l) (st'.addGiven l) := by
  have hrest := h.rest
  unfold Shaping.addGiven
  rw [missingArg_relabels h.shaped, h.again]
  generalize st.rest = rest at hrest
  generalize st'.rest = rest' at hrest
  cases hrest with
  | nil => exact .ite (.pure (h.add (.refl _))) (.pure (h.addMadeUp (.refl _)))
  | cons hv _ => exact (mirrors_convertArg hv l).bind fun _ _ hw => .pure (h.add hw)

private theorem mirrors_shapeFrom (sig : Array Letter) (self : Nat) (isLookup : Bool)
    (fuel at' : Nat)
    {st st' : Shaping} (h : st.Relabels st') :
    Mirrors past past' (List.Forall₂ Value.Relabels) (shapeFrom sig self isLookup fuel at' st)
      (shapeFrom sig self isLookup fuel at' st') := by
  induction fuel generalizing at' st st' with
  | zero => exact .pure h.shaped
  | succ fuel ih =>
      unfold shapeFrom
      cases sig[at']? with
      | none => exact .pure h.shaped
      | some l =>
          cases l with
          | self => exact ih _ (h.add (.refl _))
          | count =>
              dsimp only
              rw [h.madeUp, h.shaped.length_eq]
              exact ih _ (h.add (.refl _))
          | pressed => exact ih _ (h.addMadeUp (.refl _))
          | joined =>
              dsimp only
              rw [join_relabels true h.all]
              exact .pure (relabels_refl _)
          | all => exact .pure h.all
          | again n =>
              dsimp only
              rw [isEmpty_relabels h.rest]
              exact .ite (ih _ h) (ih _ { h with again := rfl })
          | _ => exact (mirrors_addGiven _ h).bind fun _ _ hst => ih _ hst

theorem mirrors_shape (sig : Signature) (self : Nat) (isLookup : Bool) {args args' : List Value}
    (h : List.Forall₂ Value.Relabels args args') :
    Mirrors past past' (List.Forall₂ Value.Relabels) (shape sig self isLookup args)
      (shape sig self isLookup args') := by
  unfold shape
  rw [h.length_eq]
  exact mirrors_shapeFrom _ _ _ _ _ ⟨.nil, h, rfl, rfl⟩

end Shaping

section Library

open Library

variable {args args' : List Value}

theorem mirrors_loopVariable {v v' : Value} (hv : v.Relabels v') :
    Mirrors past past' Eq (loopVariable? v) (loopVariable? v') := by
  unfold loopVariable?
  rw [hv.ident?]
  cases v.ident? with
  | none => exact .pure rfl
  | some i =>
      apply Mirrors.identAt
      intro id id' h
      rw [h.role]
      exact .pure rfl

theorem mirrors_arg (h : List.Forall₂ Value.Relabels args args') (i : Nat) :
    Mirrors past past' Value.Relabels (arg args i) (arg args' i) := by
  unfold arg
  rcases getElem?_relabels h i with ⟨hv, hv'⟩ | ⟨v, v', hv, hv', hi⟩
  · rw [hv, hv']
    exact .fail _
  · rw [hv, hv']
    exact .pure hi

theorem mirrors_argIf (there : Bool) (h : List.Forall₂ Value.Relabels args args') (i : Nat) :
    Mirrors past past' (Option.Rel Value.Relabels) (argIf there args i) (argIf there args' i) :=
  .ite ((mirrors_arg h i).bind fun _ _ hv => .pure (.some hv)) (.pure .none)

private theorem mirrors_rounds (i : Nat) (value : Nat → Value) {body body' : Nat → Engine Bool}
    (hbody : ∀ r, Mirrors past past' Eq (body r) (body' r)) (left round : Nat) :
    Mirrors past past' Eq (rounds i value body left round) (rounds i value body' left round) := by
  induction left generalizing round with
  | zero => exact .pure rfl
  | succ left ih =>
      have hround : Mirrors past past' Eq (do
          if ← body round then return some round
          rounds i value body left (round + 1)) (do
          if ← body' round then return some round
          rounds i value body' left (round + 1)) :=
        (hbody round).next fun _ => .ite (.pure rfl) (ih (round + 1))
      unfold rounds
      exact .ite ((mirrors_setValue i (.refl _)).next fun _ => hround) hround

theorem mirrors_iterate (i n : Nat) (value : Nat → Value) {body body' : Nat → Engine Bool}
    (hbody : ∀ r, Mirrors past past' Eq (body r) (body' r)) :
    Mirrors past past' Eq (iterate i n value body) (iterate i n value body') := by
  refine .ite (.pure rfl) ?_
  refine (mirrors_pushArg i (.refl _)).next fun _ => (mirrors_clearUnknown i).next fun _ => ?_
  exact (mirrors_rounds i value hbody n 0).ensuring (mirrors_popArg i)

theorem mirrors_listLoop (i : Nat) (list : Bytes) {body body' : Engine Bool}
    (h : Mirrors past past' Eq body body') :
    Mirrors past past' Eq (listLoop i list body) (listLoop i list body') :=
  mirrors_iterate i _ _ fun _ => h

private theorem mirrors_repeatWhile {condition condition' : Engine Bool} {body body' : Engine Unit}
    (hc : Mirrors past past' Eq condition condition') (hb : Mirrors past past' Eq body body')
    (left : Nat) :
    Mirrors past past' Eq (repeatWhile condition body left) (repeatWhile condition' body' left) := by
  induction left with
  | zero => exact .stop .exhausted
  | succ left ih => exact hc.next fun _ => .ite (hb.next fun _ => ih) (.pure rfl)

private theorem mirrors_silenced {α β : Type} {R : α → β → Prop} {m : Engine α} {m' : Engine β}
    (h : Mirrors past past' R m m') : Mirrors past past' R (silenced m) (silenced m') :=
  (mirrors_update fun _ _ _ _ _ => rfl).next fun _ =>
    h.ensuring (mirrors_update fun _ _ _ _ _ => rfl)

private theorem mirrors_aliasText (name : Bytes) :
    Mirrors past past' Eq (aliasText name) (aliasText name) := by
  apply Mirrors.read
  intro s s' hs
  rcases hs.table.lookup? name with ⟨hid, hid'⟩ | ⟨i, id, id', hid, hid', h⟩
  · rw [hid, hid']
    exact .pure rfl
  · rw [hid, hid']
    dsimp only
    rw [h.role, h.value.toBytes]
    cases hs
    exact .pure rfl

private theorem mirrors_readScript (path : Bytes) :
    Mirrors past past' Eq (readScript path) (readScript path) := by
  apply Mirrors.read
  intro s s' hs
  have hpath : scriptPath s' path = scriptPath s path := by
    cases hs
    rfl
  have hdisk : s'.disk = s.disk := by
    cases hs
    rfl
  dsimp only
  rw [hpath, hdisk]
  cases s.disk.read (scriptPath s path) with
  | error e =>
      refine Mirrors.next (fun _ _ _ => ⟨.ok rfl, ?_⟩) fun _ => .pure rfl
      cases hs with
      | intro ht he hr c =>
          exact .intro { s with missed := scriptPath s path :: s.missed } ht he hr c
  | ok src => exact .pure rfl

variable (hk : RunsBlindly past past' k)
include hk

theorem mirrors_holds {v v' : Value} (hv : v.Relabels v') :
    Mirrors past past' Eq (holds k v) (holds k v') :=
  (mirrors_runValue hk hv).bind fun _ _ hw => .pure hw.toBool.symm

theorem mirrors_codeResult {v v' : Value} (hv : v.Relabels v') :
    Mirrors past past' Value.Relabels (codeResult k v) (codeResult k v') := by
  cases hv with
  | code hb pc => exact mirrors_runCode hk hb pc
  | refl =>
      cases v with
      | code b pc => exact mirrors_runCode hk rfl pc
      | null | int | float | text | ident => exact .pure (.refl _)

private theorem mirrors_countedLoop (form : LoopForm) (h : List.Forall₂ Value.Relabels args args') :
    Mirrors past past' Eq (countedLoop k form args) (countedLoop k form args') := by
  unfold countedLoop
  refine (mirrors_arg h _).bind fun named named' hnamed => ?_
  refine (mirrors_argIf _ h _).bind fun offset offset' hoffset => ?_
  refine (mirrors_argIf _ h _).bind fun step step' hstep => ?_
  refine (mirrors_arg h _).bind fun n n' hn => ?_
  refine (mirrors_argIf _ h _).bind fun condition condition' hcondition => ?_
  refine (mirrors_arg h _).bind fun body body' hbody => ?_
  refine (mirrors_loopVariable hnamed).next fun found => ?_
  have hstart : offset'.elim 0 Value.toInt = offset.elim 0 Value.toInt := by
    cases hoffset with
    | none => rfl
    | some hv => exact hv.toInt
  have hstride : step'.elim 1 Value.toInt = step.elim 1 Value.toInt := by
    cases hstep with
    | none => rfl
    | some hv => exact hv.toInt
  rw [hstart, hstride, hn.toInt]
  cases found with
  | none => exact .pure rfl
  | some i =>
      have hrun : Mirrors past past' Eq (do
          let _ ← runValue k body
          return false) (do
          let _ ← runValue k body'
          return false) :=
        (mirrors_runValue hk hbody).andThen fun _ _ => .pure rfl
      refine (mirrors_iterate i _ _ fun r => ?_).next fun _ => .pure rfl
      cases hcondition with
      | none => exact hrun
      | some hc =>
          refine (mirrors_holds hk hc).next fun held => ?_
          exact .ite (.pure rfl) hrun

private theorem mirrors_firstHolding (h : List.Forall₂ Value.Relabels args args') :
    Mirrors past past' Value.Relabels (firstHolding k args) (firstHolding k args') := by
  induction args using firstHolding.induct generalizing args' with
  | case1 =>
      cases h
      exact .pure (.refl _)
  | case2 body =>
      obtain _ | ⟨hbody, _ | _⟩ := h
      exact mirrors_runValue hk hbody
  | case3 condition body rest ih =>
      obtain _ | ⟨hcondition, _ | ⟨hbody, hrest⟩⟩ := h
      exact (mirrors_holds hk hcondition).next fun _ =>
        .ite (mirrors_runValue hk hbody) (ih hrest)

private theorem mirrors_firstMatching {isMatch isMatch' : Value → Bool}
    (hmatch : ∀ v v', v.Relabels v' → isMatch' v' = isMatch v)
    (h : List.Forall₂ Value.Relabels args args') :
    Mirrors past past' Value.Relabels (firstMatching k isMatch args)
      (firstMatching k isMatch' args') := by
  induction args using firstMatching.induct isMatch generalizing args' with
  | case1 label body rest hfound =>
      obtain _ | ⟨hlabel, _ | ⟨hbody, hrest⟩⟩ := h
      unfold firstMatching
      rw [hlabel.isNull, hmatch _ _ hlabel, if_pos hfound, if_pos hfound]
      exact mirrors_runValue hk hbody
  | case2 label body rest hnot ih =>
      obtain _ | ⟨hlabel, _ | ⟨hbody, hrest⟩⟩ := h
      unfold firstMatching
      rw [hlabel.isNull, hmatch _ _ hlabel, if_neg hnot, if_neg hnot]
      exact ih hrest
  | case3 vs hshort =>
      obtain _ | ⟨hv, _ | ⟨hw, _⟩⟩ := h
      · exact .pure (.refl _)
      · exact .pure (.refl _)
      · exact absurd rfl (hshort _ _ _)

private theorem mirrors_firstBeing (stop : Bool) {before before' : Value}
    (hbefore : before.Relabels before') (h : List.Forall₂ Value.Relabels args args') :
    Mirrors past past' Value.Relabels (firstBeing k stop before args)
      (firstBeing k stop before' args') := by
  induction h generalizing before before' with
  | nil => exact .pure hbefore
  | cons hv _ ih =>
      refine (mirrors_codeResult hk hv).bind fun w w' hw => ?_
      rw [hw.toBool]
      exact .ite (.pure hw) (ih hw)

private theorem mirrors_shadowed (h : List.Forall₂ Value.Relabels args args') :
    Mirrors past past' Value.Relabels (shadowed k args) (shadowed k args') := by
  refine (mirrors_arg h 0).bind fun _ _ hnamed => (mirrors_loopVariable hnamed).next fun found => ?_
  cases found with
  | none => exact .pure (.refl _)
  | some i =>
      refine .ite (.pure (.refl _)) ((mirrors_arg h 1).bind fun _ _ hv => ?_)
      refine (mirrors_pushArg i hv).next fun _ => (mirrors_clearUnknown i).next fun _ => ?_
      refine Mirrors.ensuring ?_ (mirrors_popArg i)
      exact (mirrors_arg h 2).bind fun _ _ hbody => mirrors_runValue hk hbody

private theorem mirrors_runScript (path : Bytes) :
    Mirrors past past' (Both Eq Value.Relabels) (runScript k path) (runScript k path) := by
  refine (mirrors_readScript path).next fun found => ?_
  cases found with
  | error e => exact .pure (.error rfl)
  | ok file => exact (mirrors_runText hk _ _).bind fun _ _ hv => .pure (.ok hv)

private theorem mirrors_execScript (h : List.Forall₂ Value.Relabels args args') :
    Mirrors past past' Value.Relabels (execScript k args) (execScript k args') := by
  refine (mirrors_arg h 0).bind fun path path' hpath => ?_
  dsimp only
  rw [hpath.toBytes]
  refine (mirrors_runScript hk _).bind fun found found' hfound => ?_
  cases hfound with
  | ok _ => exact .pure (.refl _)
  | error _ =>
      refine (mirrors_arg h 1).bind fun loud loud' hloud => ?_
      rw [hloud.toInt]
      exact .ite ((mirrors_warn _).next fun _ => .pure (.refl _)) (.pure (.refl _))

private theorem mirrors_findElement (h : List.Forall₂ Value.Relabels args args') :
    Mirrors past past' Value.Relabels (findElement k args) (findElement k args') := by
  refine (mirrors_arg h 0).bind fun _ _ hnamed => (mirrors_loopVariable hnamed).next fun found => ?_
  cases found with
  | none => exact .pure (.refl _)
  | some i =>
      refine (mirrors_arg h 1).bind fun _ _ hlist => ?_
      rw [hlist.toBytes]
      refine (mirrors_listLoop i _ ?_).next fun n => ?_
      · exact (mirrors_arg h 2).bind fun _ _ hv => mirrors_holds hk hv
      · cases n with
        | none => exact .pure (.refl _)
        | some n => exact .pure (.refl _)

private theorem mirrors_eachElement (h : List.Forall₂ Value.Relabels args args') :
    Mirrors past past' Value.Relabels (eachElement k args) (eachElement k args') := by
  refine (mirrors_arg h 0).bind fun _ _ hnamed => (mirrors_loopVariable hnamed).next fun found => ?_
  cases found with
  | none => exact .pure (.refl _)
  | some i =>
      refine (mirrors_arg h 1).bind fun _ _ hlist => ?_
      dsimp only
      rw [hlist.toBytes]
      refine (mirrors_listLoop i _ ?_).next fun _ => .pure (.refl _)
      exact (mirrors_arg h 2).bind fun _ _ hv =>
        (mirrors_runValue hk hv).andThen fun _ _ => .pure rfl

omit hk in
private theorem mirrors_partOf {α : Type} (part : Bytes → Int32 → Option Int32 → α)
    (h : List.Forall₂ Value.Relabels args args') :
    Mirrors past past' Eq (partOf args part) (partOf args' part) := by
  refine (mirrors_arg h 0).bind fun _ _ hs => (mirrors_arg h 1).bind fun _ _ hstart => ?_
  refine (mirrors_arg h 3).bind fun _ _ hgiven => ?_
  dsimp only
  rw [hs.toBytes, hstart.toInt, hgiven.toInt]
  refine (mirrors_argIf _ h 2).bind fun length length' hlength => ?_
  cases hlength with
  | none => exact .pure rfl
  | some hn =>
      simp only [Option.map_some, hn.toInt]
      exact .pure rfl

omit hk in
theorem mirrors_onArg (h : List.Forall₂ Value.Relabels args args') (i : Nat) {f : Value → Value}
    (hf : ∀ v v', v.Relabels v' → f v' = f v) :
    Mirrors past past' Value.Relabels (do return f (← arg args i)) (do return f (← arg args' i)) :=
  (mirrors_arg h i).bind fun v v' hv => .pure (hf v v' hv ▸ .refl _)

omit hk in
/-- What is put in for the arguments of a format does not go by labels. -/
theorem format_relabels (h : List.Forall₂ Value.Relabels args args') (s : Bytes) :
    Texts.format args' s = Texts.format args s := by
  have hplace (i : Nat) : (args'[i]?).elim [] Value.toBytes = (args[i]?).elim [] Value.toBytes := by
    rcases getElem?_relabels h i with ⟨hv, hv'⟩ | ⟨v, v', hv, hv', hi⟩
    · rw [hv, hv']
    · rw [hv, hv']
      exact hi.toBytes
  fun_induction Texts.format args s with
  | case1 => rfl
  | case2 | case3 => simp [Texts.format, *]
  | case4 => simp [Texts.format, *]
  | case5 => simp [Texts.format, *]
  | case6 => simp [Texts.format, *]

/-- No command of the library goes by labels. -/
theorem mirrors_apply (b : Builtin) (h : List.Forall₂ Value.Relabels args args') :
    Mirrors past past' Value.Relabels (apply k b args) (apply k b args') := by
  have hints : args'.map Value.toInt = args.map Value.toInt := map_relabels (fun _ _ h => h.toInt) h
  have hsingles : args'.map Value.toSingle = args.map Value.toSingle :=
    map_relabels (fun _ _ h => h.toSingle) h
  have htexts : args'.map Value.toBytes = args.map Value.toBytes :=
    map_relabels (fun _ _ h => h.toBytes) h
  unfold apply
  cases b with
  | loop form => exact (mirrors_countedLoop hk form h).next fun _ => .pure (.refl _)
  | «while» =>
      refine (mirrors_arg h 0).bind fun _ _ hc => ?_
      apply Mirrors.read
      intro s s' hs
      have hpatience : s'.patience = s.patience := by
        cases hs
        rfl
      rw [hpatience]
      refine (mirrors_repeatWhile (mirrors_holds hk hc) ?_ _).next fun _ => .pure (.refl _)
      exact (mirrors_arg h 1).bind fun _ _ hv => (mirrors_runValue hk hv).andThen fun _ _ => .pure rfl
  | choose =>
      refine (mirrors_arg h 0).bind fun _ _ hv => ?_
      rw [hv.toBool]
      exact .ite (mirrors_arg h 1) (mirrors_arg h 2)
  | cond => exact mirrors_firstHolding hk h
  | cases kind =>
      refine (mirrors_arg h 0).bind fun v v' hv => mirrors_firstMatching hk ?_ (tail_relabels h)
      intro w w' hw
      cases kind <;> simp [CaseKind.matches, hv.toInt, hw.toInt, hv.toSingle, hw.toSingle,
        hv.toBytes, hw.toBytes]
  | push => exact mirrors_shadowed hk h
  | nodebug => exact mirrors_silenced ((mirrors_arg h 0).bind fun _ _ hv => mirrors_runValue hk hv)
  | «alias» =>
      refine (mirrors_arg h 0).bind fun _ _ hname => ?_
      dsimp only
      rw [hname.toBytes]
      refine (mirrors_arg h 1).bind fun _ _ hv => ?_
      rw [hv.settle]
      exact (mirrors_assignNamed hk _ (.refl _)).next fun _ => .pure (.refl _)
  | getAlias =>
      refine (mirrors_arg h 0).bind fun _ _ hname => ?_
      rw [hname.toBytes]
      exact (mirrors_aliasText _).next fun _ => .pure (.refl _)
  | identExists =>
      refine (mirrors_arg h 0).bind fun _ _ hname => ?_
      dsimp only
      rw [hname.toBytes]
      apply Mirrors.read
      intro s s' hs
      rw [hs.table.find?]
      exact .pure (.refl _)
  | resetVar =>
      refine (mirrors_arg h 0).bind fun _ _ hname => ?_
      rw [hname.toBytes]
      exact (mirrors_resetNamed hk _).next fun _ => .pure (.refl _)
  | intFold | intExtreme | intCompare =>
      dsimp only
      rw [hints]
      exact .pure (.refl _)
  | floatFold | floatExtreme | floatCompare =>
      dsimp only
      rw [hsingles]
      exact .pure (.refl _)
  | textCompare =>
      dsimp only
      rw [htexts]
      exact .pure (.refl _)
  | concat spaced =>
      dsimp only
      rw [join_relabels spaced h]
      exact .pure (.refl _)
  | complement | intAbs => exact mirrors_onArg h 0 fun _ _ hv => by rw [hv.toInt]
  | floatAbs => exact mirrors_onArg h 0 fun _ _ hv => by rw [hv.toSingle]
  | textLength | small | capital | escape | unescape | listLength =>
      exact mirrors_onArg h 0 fun _ _ hv => by rw [hv.toBytes]
  | format =>
      cases h with
      | nil => exact .pure (.refl _)
      | cons hv hrest =>
          dsimp only
          rw [hv.toBytes, format_relabels (.cons hv hrest)]
          exact .pure (.refl _)
  | substring | sublist => exact (mirrors_partOf _ h).next fun _ => .pure (.refl _)
  | textFind =>
      refine (mirrors_arg h 0).bind fun _ _ hs => ?_
      rw [hs.toBytes]
      exact mirrors_onArg h 1 fun _ _ hv => by rw [hv.toBytes]
  | toHex =>
      refine (mirrors_arg h 0).bind fun _ _ hs => ?_
      rw [hs.toInt]
      exact mirrors_onArg h 1 fun _ _ hv => by rw [hv.toInt]
  | textReplace =>
      refine (mirrors_arg h 1).bind fun _ _ hp => ?_
      dsimp only
      rw [hp.toBytes]
      refine .ite (mirrors_onArg h 0 fun _ _ hv => by rw [hv.toBytes]) ?_
      refine (mirrors_arg h 2).bind fun _ _ hs => ?_
      rw [hs.toBytes]
      exact mirrors_onArg h 0 fun _ _ hv => by rw [hv.toBytes]
  | listAt =>
      cases h with
      | nil => exact .pure (.refl _)
      | cons hv hplaces =>
          dsimp only
          rw [hv.toBytes, map_relabels (fun _ _ h => h.toInt) hplaces]
          exact .pure (.refl _)
  | listFind => exact mirrors_findElement hk h
  | loopList => exact mirrors_eachElement hk h
  | echo =>
      refine (mirrors_arg h 0).bind fun _ _ hv => ?_
      rw [hv.toBytes]
      exact (mirrors_echo _).next fun _ => .pure (.refl _)
  | error =>
      refine (mirrors_arg h 0).bind fun _ _ hv => ?_
      rw [hv.toBytes]
      exact (mirrors_warn _).next fun _ => .pure (.refl _)
  | exec => exact mirrors_execScript hk h

theorem mirrors_applyControl (c : Control) (h : List.Forall₂ Value.Relabels args args') :
    Mirrors past past' Value.Relabels (applyControl k c args) (applyControl k c args') := by
  cases c with
  | «local» => exact .pure (.refl _)
  | run => exact (mirrors_arg h 0).bind fun _ _ hv => mirrors_runValue hk hv
  | runOuter =>
      exact (mirrors_arg h 0).bind fun _ _ hv => mirrors_withOuterArgs (mirrors_runValue hk hv)
  | branch =>
      refine (mirrors_arg h 0).bind fun _ _ hc => ?_
      rw [hc.toBool]
      exact .ite ((mirrors_arg h 1).bind fun _ _ hv => mirrors_runValue hk hv)
        ((mirrors_arg h 2).bind fun _ _ hv => mirrors_runValue hk hv)
  | result => exact mirrors_arg h 0
  | not => exact mirrors_onArg h 0 fun _ _ hv => by rw [hv.toBool]
  | and =>
      unfold applyControl
      dsimp only
      rw [isEmpty_relabels h]
      exact .ite (.pure (.refl _)) (mirrors_firstBeing hk false (.refl _) h)
  | or =>
      unfold applyControl
      dsimp only
      rw [isEmpty_relabels h]
      exact .ite (.pure (.refl _)) (mirrors_firstBeing hk true (.refl _) h)

end Library

end ConsoleScript
