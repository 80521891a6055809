import Mathlib.Data.List.Forall2
import ConsoleScript.Proofs.Compile.Faces
import ConsoleScript.Proofs.Engine.Compiling
import ConsoleScript.Proofs.Engine.Invariant

/-!
Labels. A block has a label, and a stored one has the names that it was compiled with; both say where
it comes from, and neither what it does. Values, identifiers and interpreters are relabelled ones of
others if they differ from them in such labels only.

One computation mirrors another if from relabelled interpreters they end alike: with answers that are
related, or with the same fault in places of any label, and again in relabelled interpreters.
-/

namespace ConsoleScript

open Bytecode Engine

section Relations

/-- A block with the same words. -/
def Bytecode.Block.Relabels (b b' : Block) : Prop := b'.words = b.words

/-- The same value, except that code may be that of a relabelled block. -/
inductive Value.Relabels : Value → Value → Prop
  | refl (v : Value) : Relabels v v
  | code {b b' : Block} (h : b.Relabels b') (pc : Nat) : Relabels (.code b pc) (.code b' pc)

/-- The same fault in a place of any label. -/
structure Fault.Relabels (f f' : Fault) : Prop where
  cause : f'.cause = f.cause
  pc : f'.pc = f.pc

/-- Two answers that are related, or two errors that are. -/
inductive Both {ε α β : Type} (E : ε → ε → Prop) (R : α → β → Prop) : Except ε α → Except ε β → Prop
  | ok {x : α} {y : β} (h : R x y) : Both E R (.ok x) (.ok y)
  | error {e e' : ε} (h : E e e') : Both E R (.error e) (.error e')

/-- What an execution answers, but for labels. -/
abbrev AnswersRelabel : Except Fault Value → Except Fault Value → Prop :=
  Both Fault.Relabels Value.Relabels

/-- The same event, but for the labels of what it is about. -/
inductive Event.Relabels : Event → Event → Prop
  | refl (e : Event) : Relabels e e
  | changed (name : Bytes) {v v' : Value} (h : v.Relabels v') :
      Relabels (.changed name v) (.changed name v')
  | called (name : Bytes) {vs vs' : List Value} (h : List.Forall₂ Value.Relabels vs vs') :
      Relabels (.called name vs) (.called name vs')
  | ran {o o' : Except Fault Value} (h : AnswersRelabel o o') : Relabels (.ran o) (.ran o')

/-- Programs of the host that ask for the same, and go on alike with answers that differ in labels. -/
inductive HostProgram.Relabels : HostProgram → HostProgram → Prop
  | done {v v' : Value} (h : v.Relabels v') : Relabels (.done v) (.done v')
  | fail (message : Bytes) : Relabels (.fail message) (.fail message)
  | emit {e e' : Event} {next next' : HostProgram} (he : e.Relabels e') (h : Relabels next next') :
      Relabels (.emit e next) (.emit e' next')
  | execute (src : Bytes) {next next' : Except Fault Value → HostProgram}
      (h : ∀ o o', AnswersRelabel o o' → Relabels (next o) (next' o')) :
      Relabels (.execute src next) (.execute src next')
  | runValue {v v' : Value} {next next' : Value → HostProgram} (hv : v.Relabels v')
      (h : ∀ w w', w.Relabels w' → Relabels (next w) (next' w')) :
      Relabels (.runValue v next) (.runValue v' next')

/-- A command whose function does not go by labels. -/
def Action.Blind : Action → Prop
  | .builtin _ => True
  | .host f => ∀ vs vs', List.Forall₂ Value.Relabels vs vs' → (f vs).Relabels (f vs')

/-- A watcher that does not go by labels. -/
def Watch.Blind : Watch → Prop
  | .host f => ∀ v, (f v).Relabels (f v)
  | _ => True

/-- What the host does for an identifier does not go by labels. -/
def Role.Blind : Role → Prop
  | .intVar _ _ _ watch | .floatVar _ _ _ watch | .textVar _ watch => watch.Blind
  | .command _ action => action.Blind
  | _ => True

/-- The same identifier, but for the labels of the code in it. -/
structure Ident.Relabels (id id' : Ident) : Prop where
  name : id'.name = id.name
  role : id'.role = id.role
  flags : id'.flags = id.flags
  value : id.value.Relabels id'.value
  body : Option.Rel Block.Relabels id.body id'.body
  saved : List.Forall₂ Value.Relabels id.saved id'.saved
  before : id.before.Relabels id'.before
  blind : id.role.Blind

/-- The same identifiers at the same indices, but for labels. -/
structure Table.Relabels (t t' : Table) : Prop where
  size : t'.size = t.size
  idents : ∀ i id id', t.get? i = some id → t'.get? i = some id' → id.Relabels id'

/-- The same events, but for labels, each after what was reported before. -/
def Reports (past past' es es' : List Event) : Prop :=
  ∃ new new', es = new ++ past ∧ es' = new' ++ past' ∧ List.Forall₂ Event.Relabels new new'

/-- The same interpreter but for labels, for what was reported before, and for the texts that were
compiled. -/
inductive Interp.Relabels (past past' : List Event) : Interp → Interp → Prop
  | intro (s : Interp) {table : Table} {events : List Event} {result : Value}
      (ht : s.table.Relabels table) (he : Reports past past' s.events events)
      (hr : s.result.Relabels result) (compiled : Table → Bytes → Bytes → Prop) :
      Relabels past past' s { s with table, events, result, compiled }

/-- The same stop, but for labels. -/
inductive Stop.Relabels : Stop → Stop → Prop
  | fault {f f' : Fault} (h : f.Relabels f') : Relabels (.fault f) (.fault f')
  | exhausted : Relabels .exhausted .exhausted

end Relations

section Values

variable {v v' : Value} {vs vs' : List Value}

namespace Value.Relabels

theorem toBytes (h : v.Relabels v') : v'.toBytes = v.toBytes := by cases h <;> rfl

theorem toInt (h : v.Relabels v') : v'.toInt = v.toInt := by cases h <;> rfl

theorem toSingle (h : v.Relabels v') : v'.toSingle = v.toSingle := by cases h <;> rfl

theorem toBool (h : v.Relabels v') : v'.toBool = v.toBool := by cases h <;> rfl

theorem text? (h : v.Relabels v') : v'.text? = v.text? := by cases h <;> rfl

theorem ident? (h : v.Relabels v') : v'.ident? = v.ident? := by cases h <;> rfl

theorem isNull (h : v.Relabels v') : v'.isNull = v.isNull := by cases h <;> rfl

theorem isCode (h : v.Relabels v') : v'.isCode = v.isCode := by cases h <;> rfl

theorem settle (h : v.Relabels v') : v'.settle = v.settle := by cases h <;> rfl

theorem lookedUp (h : v.Relabels v') (ret : RetTag) (view : Bool) :
    v'.lookedUp ret view = v.lookedUp ret view := by
  cases h with
  | refl => rfl
  | code => cases ret <;> cases view <;> rfl

theorem force (h : v.Relabels v') (ret : RetTag) : (v.force ret).Relabels (v'.force ret) := by
  cases h with
  | refl => exact .refl _
  | code hb pc =>
      cases ret with
      | null => exact .code hb pc
      | int | float | text => exact .refl _

end Value.Relabels

theorem map_relabels {γ : Type} {f : Value → γ} (hf : ∀ v v', v.Relabels v' → f v' = f v)
    (h : List.Forall₂ Value.Relabels vs vs') : vs'.map f = vs.map f := by
  induction h with
  | nil => rfl
  | cons hv _ ih => simp [hf _ _ hv, ih]

theorem join_relabels (spaced : Bool) (h : List.Forall₂ Value.Relabels vs vs') :
    Value.join spaced vs' = Value.join spaced vs := by
  unfold Value.join
  rw [map_relabels (fun _ _ hv => hv.toBytes) h]

theorem relabels_refl (vs : List Value) : List.Forall₂ Value.Relabels vs vs := by
  induction vs with
  | nil => exact .nil
  | cons v vs ih => exact .cons (.refl v) ih

theorem getElem?_relabels (h : List.Forall₂ Value.Relabels vs vs') (i : Nat) :
    vs[i]? = none ∧ vs'[i]? = none ∨
      ∃ v v', vs[i]? = some v ∧ vs'[i]? = some v' ∧ v.Relabels v' := by
  induction h generalizing i with
  | nil => simp
  | cons hv _ ih =>
      cases i with
      | zero => exact .inr ⟨_, _, rfl, rfl, hv⟩
      | succ i => simpa using ih i

end Values

section Tables

variable {t t' : Table} {id id' : Ident} {i : Nat}

theorem Ident.Relabels.of_blind (h : id.role.Blind) : id.Relabels id where
  name := rfl
  role := rfl
  flags := rfl
  value := .refl _
  body := by cases id.body <;> constructor; rfl
  saved := relabels_refl _
  before := .refl _
  blind := h

theorem Table.names_of_faces (h : t'.faces = t.faces) : t'.names = t.names := by
  have hnames (t : Table) : t.names = t.faces.toList.map Face.name := by
    simp only [names, faces, Array.toList_map, List.map_map]
    rfl
  rw [hnames, hnames, h]

namespace Table.Relabels

theorem get? (h : t.Relabels t') (i : Nat) : t.get? i = none ∧ t'.get? i = none ∨
    ∃ id id', t.get? i = some id ∧ t'.get? i = some id' ∧ id.Relabels id' := by
  rcases Nat.lt_or_ge i t.size with hi | hi
  · obtain ⟨id, hid⟩ := exists_get? hi
    obtain ⟨id', hid'⟩ := exists_get? (h.size.symm ▸ hi)
    exact .inr ⟨id, id', hid, hid', h.idents i id id' hid hid'⟩
  · exact .inl ⟨get?_eq_none hi, get?_eq_none (h.size.symm ▸ hi)⟩

theorem faces (h : t.Relabels t') : t'.faces = t.faces := by
  apply Array.ext_getElem?
  intro i
  rw [← face_get?, ← face_get?]
  rcases h.get? i with ⟨hid, hid'⟩ | ⟨id, id', hid, hid', hface⟩
  · rw [hid, hid']
  · simp [hid, hid', Ident.face, hface.name, hface.role, hface.flags]

theorem find? (h : t.Relabels t') (name : Bytes) : t'.find? name = t.find? name :=
  find?_of_faces h.faces name

private theorem nameOf (h : t.Relabels t') (i : Nat) : t'.nameOf i = t.nameOf i := by
  unfold Table.nameOf
  rcases h.get? i with ⟨hid, hid'⟩ | ⟨id, id', hid, hid', hname⟩
  · rw [hid, hid']
  · simp [hid, hid', hname.name]

theorem lookup? (h : t.Relabels t') (name : Bytes) :
    t.lookup? name = none ∧ t'.lookup? name = none ∨
      ∃ i id id', t.lookup? name = some (i, id) ∧ t'.lookup? name = some (i, id') ∧
        id.Relabels id' := by
  unfold Table.lookup?
  rw [h.find?]
  cases t.find? name with
  | none => exact .inl ⟨rfl, rfl⟩
  | some i =>
      rcases h.get? i with ⟨hid, hid'⟩ | ⟨id, id', hid, hid', hi⟩
      · exact .inl (by simp [hid, hid'])
      · exact .inr ⟨i, id, id', by simp [hid], by simp [hid'], hi⟩

private theorem modify (h : t.Relabels t') (i : Nat) {f f' : Ident → Ident}
    (hf : ∀ id id', id.Relabels id' → (f id).Relabels (f' id')) :
    (t.modify i f).Relabels (t'.modify i f') := by
  constructor
  · simp [h.size]
  · intro j id id' hid hid'
    rw [get?_modify] at hid hid'
    split at hid
    · rcases h.get? j with ⟨hj, -⟩ | ⟨old, old', hj, hj', hold⟩
      · simp [hj] at hid
      · simp_all
        exact hid ▸ hid' ▸ hf old old' hold
    · exact h.idents j id id' hid (by simpa [*] using hid')

theorem push (h : t.Relabels t') (hid : id.role.Blind) : (t.push id).Relabels (t'.push id) := by
  constructor
  · simp [h.size]
  · intro i old old' hi hi'
    rw [get?_push] at hi hi'
    rw [h.size] at hi'
    split at hi
    · simp_all
      exact .of_blind (hi' ▸ hid)
    · exact h.idents i old old' hi (by simpa [*] using hi')

theorem names (h : t.Relabels t') : t'.names = t.names := names_of_faces h.faces

/-- The same names are appended to both. -/
theorem append (h : t.Relabels t') (names : List Bytes) {u u' : Table}
    (hu : u.idents = t.idents ++ (names.map Table.unknownAlias).toArray)
    (hu' : u'.idents = t'.idents ++ (names.map Table.unknownAlias).toArray) : u.Relabels u' := by
  have hsize : t'.idents.size = t.idents.size := h.size
  constructor
  · simp [Table.size, hu, hu', hsize]
  · intro i id id' hid hid'
    unfold Table.get? at hid hid'
    rw [hu, Array.getElem?_append] at hid
    rw [hu', Array.getElem?_append, hsize] at hid'
    split at hid
    next hi =>
      rw [if_pos hi] at hid'
      exact h.idents i id id' hid hid'
    next hi =>
      rw [if_neg hi] at hid'
      cases hid.symm.trans hid'
      obtain ⟨name, -, rfl⟩ : ∃ name ∈ names, Table.unknownAlias name = id := by
        simpa using Array.mem_of_getElem? hid
      exact .of_blind trivial

end Table.Relabels

theorem Table.names_append {u : Table} {names : List Bytes}
    (hu : u.idents = t.idents ++ (names.map unknownAlias).toArray) : u.names = t.names ++ names := by
  have hname : Ident.name ∘ unknownAlias = id := rfl
  simp [Table.names, hu, hname]

theorem Table.Relabels.gains (h : t.Relabels t') {u u' : Table} (hu : t.Gains u)
    (hu' : t'.Gains u') (hfaces : u'.faces = u.faces) : u.Relabels u' := by
  obtain ⟨added, hadded, -, -⟩ := hu.appended
  obtain ⟨added', hadded', -, -⟩ := hu'.appended
  have hnames : u'.names = u.names := Table.names_of_faces hfaces
  rw [names_append hadded, names_append hadded', h.names] at hnames
  rw [List.append_cancel_left hnames] at hadded'
  exact h.append added hadded hadded'

theorem Table.Relabels.intern (h : t.Relabels t') (name : Bytes) :
    (t'.intern name).1 = (t.intern name).1 ∧ (t'.intern name).2.1 = (t.intern name).2.1 ∧
      (t.intern name).2.2.Relabels (t'.intern name).2.2 := by
  obtain ⟨hi, hn, hfaces⟩ := intern_of_faces h.faces name
  exact ⟨hi, hn, h.gains (gains_intern t name) (gains_intern t' name) hfaces⟩

theorem Table.Relabels.compile (h : t.Relabels t') (src name : Bytes) :
    (ConsoleScript.compile t src name).block.Relabels (ConsoleScript.compile t' src name).block ∧
      (ConsoleScript.compile t' src name).warnings = (ConsoleScript.compile t src name).warnings ∧
      (ConsoleScript.compile t src name).table.Relabels (ConsoleScript.compile t' src name).table := by
  obtain ⟨hwords, hfaces, hwarnings⟩ := compile_of_faces h.faces src name name
  refine ⟨hwords, hwarnings rfl, h.gains ?_ ?_ hfaces⟩
  · rw [Compile.compile_table]
    exact (Compile.program_makes t src name).1
  · rw [Compile.compile_table]
    exact (Compile.program_makes t' src name).1

end Tables

section Mirroring

variable {α β γ δ : Type} {past past' : List Event} {R : α → β → Prop} {S : γ → δ → Prop}
  {m : Engine α} {m' : Engine β}

/-- From relabelled interpreters both computations end alike, in relabelled interpreters. -/
def Engine.Mirrors (past past' : List Event) (R : α → β → Prop) (m : Engine α) (m' : Engine β) :
    Prop :=
  ∀ s s' : Interp, s.Relabels past past' s' →
    Both Stop.Relabels R (outcome m s).1 (outcome m' s').1 ∧
      (outcome m s).2.Relabels past past' (outcome m' s').2

theorem Interp.Relabels.table {s s' : Interp} (h : s.Relabels past past' s') :
    s.table.Relabels s'.table := by
  cases h with
  | intro ht _ _ _ => exact ht

theorem Interp.Relabels.level {s s' : Interp} (h : s.Relabels past past' s') : s'.level = s.level := by
  cases h with
  | intro _ _ _ _ => rfl

theorem Interp.Relabels.setLevel {s s' : Interp} (h : s.Relabels past past' s') (l : Level) :
    (s.setLevel l).Relabels past past' (s'.setLevel l) := by
  cases h with
  | intro ht he hr c => exact .intro (s.setLevel l) ht he hr c

theorem Interp.Relabels.modifyIdent {s s' : Interp} (h : s.Relabels past past' s') (i : Nat)
    {f f' : Ident → Ident} (hf : ∀ id id', id.Relabels id' → (f id).Relabels (f' id')) :
    (s.modifyIdent i f).Relabels past past' (s'.modifyIdent i f') := by
  cases h with
  | intro ht he hr c => exact .intro (s.modifyIdent i f) (ht.modify i hf) he hr c

namespace Engine.Mirrors

theorem pure {x : α} {y : β} (h : R x y) : Mirrors past past' R (Pure.pure x) (Pure.pure y) :=
  fun _ _ hs => ⟨.ok h, hs⟩

theorem stop {e e' : Stop} (h : e.Relabels e') : Mirrors past past' R (throw e) (throw e') :=
  fun _ _ hs => ⟨.error h, hs⟩

theorem fail (c : Fault.Cause) : Mirrors past past' R (Engine.fail c) (Engine.fail c) :=
  stop (.fault ⟨rfl, rfl⟩)

theorem failAt (block block' : Bytes) (pc : Int) (c : Fault.Cause) :
    Mirrors past past' R (Engine.failAt block pc c) (Engine.failAt block' pc c) :=
  stop (.fault ⟨rfl, rfl⟩)

theorem bind {f : α → Engine γ} {f' : β → Engine δ} (h : Mirrors past past' R m m')
    (hf : ∀ x y, R x y → Mirrors past past' S (f x) (f' y)) :
    Mirrors past past' S (m >>= f) (m' >>= f') := by
  intro s s' hs
  obtain ⟨ha, ht⟩ := h s s' hs
  rw [outcome_bind, outcome_bind]
  generalize outcome m s = p at ha ht
  generalize outcome m' s' = p' at ha ht
  obtain ⟨o, s₁⟩ := p
  obtain ⟨o', s₁'⟩ := p'
  cases ha with
  | ok hR => exact hf _ _ hR _ _ ht
  | error he => exact ⟨.error he, ht⟩

theorem next {m m' : Engine α} {f : α → Engine γ} {f' : α → Engine δ}
    (h : Mirrors past past' Eq m m') (hf : ∀ x, Mirrors past past' S (f x) (f' x)) :
    Mirrors past past' S (m >>= f) (m' >>= f') := by
  apply h.bind
  rintro x _ rfl
  exact hf x

theorem andThen {f : α → Engine γ} {f' : β → Engine δ} (h : Mirrors past past' R m m')
    (hf : ∀ x y, Mirrors past past' S (f x) (f' y)) : Mirrors past past' S (m >>= f) (m' >>= f') :=
  h.bind fun x y _ => hf x y

theorem read {f : Interp → Engine γ} {f' : Interp → Engine δ}
    (h : ∀ s s', s.Relabels past past' s' → Mirrors past past' S (f s) (f' s')) :
    Mirrors past past' S (get >>= f) (get >>= f') := by
  intro s s' hs
  rw [outcome_bind_ok (outcome_get s), outcome_bind_ok (outcome_get s')]
  exact h s s' hs s s' hs

theorem change {f f' : Interp → Interp}
    (h : ∀ s s', s.Relabels past past' s' → (f s).Relabels past past' (f' s')) :
    Mirrors past past' Eq (modify f) (modify f') :=
  fun s s' hs => ⟨.ok rfl, h s s' hs⟩

theorem setLevel (l : Level) :
    Mirrors past past' Eq (modify (·.setLevel l)) (modify (·.setLevel l)) :=
  change fun _ _ hs => hs.setLevel l

theorem ite {c : Prop} [Decidable c] {n : Engine α} {n' : Engine β} (h : Mirrors past past' R m m')
    (h' : Mirrors past past' R n n') :
    Mirrors past past' R (if c then m else n) (if c then m' else n') := by
  split
  · exact h
  · exact h'

theorem modifyIdent (i : Nat) {f f' : Ident → Ident}
    (h : ∀ id id', id.Relabels id' → (f id).Relabels (f' id')) :
    Mirrors past past' Eq (Engine.modifyIdent i f) (Engine.modifyIdent i f') :=
  change fun _ _ hs => hs.modifyIdent i h

theorem identAt (i : Nat) {f : Ident → Engine γ} {f' : Ident → Engine δ}
    (h : ∀ id id', id.Relabels id' → Mirrors past past' S (f id) (f' id')) :
    Mirrors past past' S (identAt i >>= f) (identAt i >>= f') := by
  intro s s' hs
  rcases hs.table.get? i with ⟨hid, hid'⟩ | ⟨id, id', hid, hid', hi⟩
  · rw [outcome_bind_error (outcome_identAt_none hid),
      outcome_bind_error (outcome_identAt_none hid')]
    exact ⟨.error (.fault ⟨rfl, rfl⟩), hs⟩
  · rw [outcome_bind_ok (outcome_identAt hid), outcome_bind_ok (outcome_identAt hid')]
    exact h id id' hi s s' hs

theorem attempt (h : Mirrors past past' R m m') :
    Mirrors past past' (Both Stop.Relabels R) (attempt m) (attempt m') := by
  intro s s' hs
  obtain ⟨ha, ht⟩ := h s s' hs
  exact ⟨.ok ha, ht⟩

theorem ensuring {c c' : Engine Unit} (h : Mirrors past past' R m m')
    (hc : Mirrors past past' Eq c c') :
    Mirrors past past' R (ensuring m c) (ensuring m' c') := by
  apply h.attempt.bind
  intro o o' ho
  cases ho with
  | ok hR => exact hc.next fun _ => pure hR
  | error he => exact hc.next fun _ => stop he

theorem protect {m m' : Engine Value} (h : Mirrors past past' Value.Relabels m m') :
    Mirrors past past' AnswersRelabel (protect m) (protect m') := by
  refine read fun s s' hs => ?_
  rw [hs.level]
  apply h.attempt.bind
  intro o o' ho
  cases ho with
  | @ok v _ hv =>
      refine (change fun s s' hs => ?_).next fun _ => pure (.ok hv)
      cases hs with
      | intro ht he _ c => exact .intro { s with result := v } ht he hv c
  | error he =>
      refine (setLevel _).next fun _ => ?_
      cases he with
      | fault hf => exact pure (.error hf)
      | exhausted => exact stop .exhausted

theorem atLevel (h : Mirrors past past' R m m') (enter : Level → Level)
    (leave : Level → Level → Level) :
    Mirrors past past' R (atLevel enter leave m) (atLevel enter leave m') := by
  refine read fun s s' hs => ?_
  rw [hs.level]
  refine (setLevel _).next fun _ => h.bind fun x y hxy => ?_
  refine (change fun s s' hs => ?_).next fun _ => pure hxy
  rw [hs.level]
  exact hs.setLevel _

theorem forEach {P : γ → δ → Prop} {g : γ → Engine Unit} {g' : δ → Engine Unit}
    (h : ∀ c c', P c c' → Mirrors past past' Eq (g c) (g' c')) {l : List γ} {l' : List δ}
    (hl : List.Forall₂ P l l') : Mirrors past past' Eq (l.forM g) (l'.forM g') := by
  induction hl with
  | nil => exact pure rfl
  | cons hc _ ih => exact (h _ _ hc).next fun _ => ih

theorem forM {g g' : γ → Engine Unit} (h : ∀ c, Mirrors past past' Eq (g c) (g' c)) (l : List γ) :
    Mirrors past past' Eq (l.forM g) (l.forM g') := by
  induction l with
  | nil => exact pure rfl
  | cons c l ih => exact (h c).next fun _ => ih

theorem mapM {g : γ → Engine α} {g' : γ → Engine β} (h : ∀ c, Mirrors past past' R (g c) (g' c))
    (l : List γ) : Mirrors past past' (List.Forall₂ R) (l.mapM g) (l.mapM g') := by
  induction l with
  | nil => exact pure .nil
  | cons c l ih =>
      rw [List.mapM_cons, List.mapM_cons]
      exact (h c).bind fun _ _ hx => ih.bind fun _ _ hxs => pure (.cons hx hxs)

end Engine.Mirrors

end Mirroring

section Reporting

variable {past past' : List Event} {k : Runner}

theorem mirrors_emit {e e' : Event} (h : e.Relabels e') :
    Mirrors past past' Eq (emit e) (emit e') := by
  apply Mirrors.change
  intro s s' hs
  cases hs with
  | intro ht he hr c =>
      obtain ⟨new, new', hes, hes', hnew⟩ := he
      refine .intro { s with events := e :: s.events } ht ⟨e :: new, e' :: new', ?_, ?_, .cons h hnew⟩ hr c
      · simp [hes]
      · simp [hes']

theorem mirrors_echo (line : Bytes) : Mirrors past past' Eq (echo line) (echo line) :=
  mirrors_emit (.refl _)

theorem mirrors_warn (text : Bytes) : Mirrors past past' Eq (warn text) (warn text) :=
  mirrors_emit (.refl _)

theorem mirrors_debug (text : Bytes) : Mirrors past past' Eq (debug text) (debug text) := by
  apply Mirrors.read
  intro s s' hs
  cases hs with
  | intro ht he hr c =>
      have hchain (s : Interp) {table : Table} (h : s.table.Relabels table) :
          callChain { s with table } = callChain s := by
        simp [callChain, h.nameOf]
      refine .ite ((mirrors_warn text).next fun _ => .ite ?_ (.pure rfl)) (.pure rfl)
      have hchain := hchain s ht
      unfold callChain at hchain ⊢
      dsimp only at hchain ⊢
      rw [hchain]
      exact .forM mirrors_warn _

private theorem mirrors_setTable {t t' : Table} (ht : t.Relabels t') :
    Mirrors past past' Eq (modify fun s => { s with table := t })
      (modify fun s => { s with table := t' }) := by
  apply Mirrors.change
  intro s s' hs
  cases hs with
  | intro _ he hr c => exact .intro { s with table := t } ht he hr c

theorem mirrors_intern (name : Bytes) : Mirrors past past' Eq (intern name) (intern name) := by
  apply Mirrors.read
  intro s s' hs
  obtain ⟨hi, hn, hu⟩ := hs.table.intern name
  generalize s.table.intern name = q at hi hn hu
  generalize s'.table.intern name = q' at hi hn hu
  obtain ⟨_, _, u⟩ := q
  obtain ⟨i, isName, u'⟩ := q'
  subst hi hn
  refine (mirrors_setTable hu).next fun _ => ?_
  cases isName with
  | true => exact .pure rfl
  | false => exact (mirrors_debug _).next fun _ => .pure rfl

theorem mirrors_compileText (src name : Bytes) :
    Mirrors past past' Block.Relabels (compileText src name) (compileText src name) := by
  apply Mirrors.read
  intro s s' hs
  obtain ⟨hwords, hwarnings, hu⟩ := hs.table.compile src name
  dsimp only
  generalize compile s.table src name = out at hwords hwarnings hu
  generalize compile s'.table src name = out' at hwords hwarnings hu
  have hadd : Mirrors past past' Eq (modify (·.addCompiled src name out.table))
      (modify (·.addCompiled src name out'.table)) := by
    apply Mirrors.change
    intro s s' hs
    cases hs with
    | intro _ he hr c => exact .intro (s.addCompiled src name out.table) hu he hr _
  refine hadd.next fun _ => ?_
  rw [hwarnings]
  exact (Mirrors.forM mirrors_debug _).next fun _ => .pure hwords

end Reporting

end ConsoleScript
