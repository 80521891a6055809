import ConsoleScript.Proofs.Compile.Making

/-!
What the compiler looks at. Of an identifier it sees the name, the kind with the parameters, and
whether it is shown in hexadecimal; the label of a text gets into warnings and nowhere else. So tables
with the same faces give the same code, whatever values are in them and whatever the labels are.
-/

namespace ConsoleScript

open Bytecode

/-- What the compiler sees of an identifier. -/
structure Face where
  name : Bytes
  form : Form
  hex : Bool
deriving DecidableEq

def Ident.face (id : Ident) : Face := ⟨id.name, id.role.form .operands, id.flags.hex⟩

/-- What the compiler sees of a table. -/
def Table.faces (t : Table) : Array Face := t.idents.map Ident.face

/-- Roles of one form. -/
inductive Role.Kin : Role → Role → Prop
  | intVar {least greatest least' greatest' : Int32} {store store' : IntStore} {w w' : Watch} :
      Kin (.intVar least greatest store w) (.intVar least' greatest' store' w')
  | floatVar {least greatest value least' greatest' value' : Single} {w w' : Watch} :
      Kin (.floatVar least greatest value w) (.floatVar least' greatest' value' w')
  | textVar {t t' : Bytes} {w w' : Watch} : Kin (.textVar t w) (.textVar t' w')
  | command {sig : Signature} {a a' : Action} : Kin (.command sig a) (.command sig a')
  | «alias» : Kin .alias .alias
  | control {c : Control} : Kin (.control c) (.control c)

theorem Role.kin_of_form {role role' : Role} (h : role'.form .operands = role.form .operands) :
    role.Kin role' := by
  cases role <;> cases role' <;> first
    | (cases h; constructor)
    | cases h

section Faces

variable {t t' : Table}

theorem Table.size_faces (t : Table) : t.faces.size = t.size := Array.size_map

theorem Table.size_of_faces (h : t'.faces = t.faces) : t'.size = t.size := by
  rw [← size_faces, h, size_faces]

theorem Table.faces_push (t : Table) (id : Ident) : (t.push id).faces = t.faces.push id.face :=
  Array.map_push

theorem Table.face_get? (t : Table) (i : Nat) : (t.get? i).map Ident.face = t.faces[i]? := by
  rw [faces, Array.getElem?_map]
  rfl

theorem Table.find?_of_faces (h : t'.faces = t.faces) (name : Bytes) :
    t'.find? name = t.find? name := by
  have hfind (t : Table) : t.find? name = t.faces.findIdx? (·.name == name) := by
    rw [faces, Array.findIdx?_map]
    rfl
  rw [hfind, hfind, h]

/-- Where one table has an identifier the other one has too. -/
theorem Table.get?_of_faces (h : t'.faces = t.faces) (i : Nat) :
    t.get? i = none ∧ t'.get? i = none ∨
      ∃ id id', t.get? i = some id ∧ t'.get? i = some id' ∧ id'.face = id.face := by
  have hface := t.face_get? i
  have hface' := t'.face_get? i
  rw [h] at hface'
  cases hid : t.get? i with
  | none =>
      rw [hid] at hface
      rw [← hface] at hface'
      exact .inl ⟨rfl, Option.map_eq_none_iff.mp hface'⟩
  | some id =>
      rw [hid] at hface
      rw [← hface] at hface'
      obtain ⟨id', hid', heq⟩ := Option.map_eq_some_iff.mp hface'
      exact .inr ⟨id, id', rfl, hid', heq⟩

/-- What a name stands for has the same index and the same face. -/
theorem Table.lookup?_of_faces (h : t'.faces = t.faces) (name : Bytes) :
    t.lookup? name = none ∧ t'.lookup? name = none ∨
      ∃ i id id', t.lookup? name = some (i, id) ∧ t'.lookup? name = some (i, id') ∧
        id'.face = id.face := by
  unfold lookup?
  rw [find?_of_faces h]
  cases t.find? name with
  | none => exact .inl ⟨rfl, rfl⟩
  | some i =>
      rcases get?_of_faces h i with ⟨hid, hid'⟩ | ⟨id, id', hid, hid', hface⟩
      · left
        simp [hid, hid']
      · right
        exact ⟨i, id, id', by simp [hid], by simp [hid'], hface⟩

theorem Table.intern_of_faces (h : t'.faces = t.faces) (name : Bytes) :
    (t'.intern name).1 = (t.intern name).1 ∧ (t'.intern name).2.1 = (t.intern name).2.1 ∧
      (t'.intern name).2.2.faces = (t.intern name).2.2.faces := by
  unfold intern
  rw [find?_of_faces h]
  cases t.find? name with
  | some i => exact ⟨rfl, rfl, h⟩
  | none =>
      dsimp only
      split
      · exact ⟨rfl, rfl, h⟩
      · exact ⟨size_of_faces h, rfl, by rw [faces_push, faces_push, h]⟩

end Faces

namespace Compile

/-- Two places in the same text; if the labels count, under one label. -/
structure Cursor.Resembles (labelled : Prop) (c c' : Cursor) : Prop where
  rest : c'.rest = c.rest
  line : c'.line = c.line
  name : labelled → c'.name = c.name

/-- Two states of the compiler that look the same to it. If the labels count, the warnings are the
same too. -/
structure State.Resembles (labelled : Prop) (s s' : State) : Prop where
  cursor : s.cursor.Resembles labelled s'.cursor
  faces : s'.table.faces = s.table.faces
  warnings : labelled → s'.warnings = s.warnings

/-- Two steps give the same from states that look the same, and end in such states. -/
def Resemble {α : Type} (labelled : Prop) (m m' : CompileM α) : Prop :=
  ∀ s s' : State, s.Resembles labelled s' →
    (m'.run s').1 = (m.run s).1 ∧ (m.run s).2.Resembles labelled (m'.run s').2

section Rules

variable {α β : Type} {labelled : Prop} {m m' : CompileM α}

theorem Resemble.pure (a : α) : Resemble labelled (Pure.pure a) (Pure.pure a) :=
  fun _ _ hs => ⟨rfl, hs⟩

theorem Resemble.bind {f f' : α → CompileM β} (hm : Resemble labelled m m')
    (hf : ∀ a, Resemble labelled (f a) (f' a)) : Resemble labelled (m >>= f) (m' >>= f') := by
  intro s s' hs
  obtain ⟨ha, ht⟩ := hm s s' hs
  have hrun : (m' >>= f').run s' = (f' (m'.run s').1).run (m'.run s').2 := rfl
  rw [hrun, ha]
  exact hf _ _ _ ht

theorem Resemble.ite {c : Prop} [Decidable c] {n n' : CompileM α} (h : Resemble labelled m m')
    (h' : Resemble labelled n n') : Resemble labelled (if c then m else n) (if c then m' else n') := by
  split
  · exact h
  · exact h'

theorem resemble_modify {f : State → State}
    (hf : ∀ s s' : State, s.Resembles labelled s' → (f s).Resembles labelled (f s')) :
    Resemble labelled (modify f : CompileM Unit) (modify f) :=
  fun s s' hs => ⟨rfl, hf s s' hs⟩

theorem Resemble.onCursor {f f' : Cursor → CompileM β}
    (hf : ∀ c c' : Cursor, c.Resembles labelled c' → Resemble labelled (f c) (f' c')) :
    Resemble labelled (cursor >>= f) (cursor >>= f') :=
  fun s s' hs => hf _ _ hs.cursor s s' hs

theorem Resemble.onState {f f' : State → CompileM β}
    (hf : ∀ s s' : State, s.Resembles labelled s' → Resemble labelled (f s) (f' s')) :
    Resemble labelled (get >>= f) (get >>= f') :=
  fun s s' hs => hf s s' hs s s' hs

theorem Resemble.onRole {f f' : Role → CompileM β} (i : Nat)
    (hf : ∀ role role' : Role, role.Kin role' → Resemble labelled (f role) (f' role')) :
    Resemble labelled (roleOf i >>= f) (roleOf i >>= f') := by
  refine fun s s' hs => hf _ _ ?_ s s' hs
  rcases Table.get?_of_faces hs.faces i with ⟨hid, hid'⟩ | ⟨id, id', hid, hid', hface⟩
  · rw [hid, hid']
    exact .alias
  · rw [hid, hid']
    exact Role.kin_of_form (congrArg Face.form hface)

end Rules

section Steps

variable {labelled : Prop}

theorem resemble_modifyCursor (f : Cursor → Cursor)
    (hf : ∀ c c' : Cursor, c.Resembles labelled c' → (f c).Resembles labelled (f c')) :
    Resemble labelled (modify fun s => { s with cursor := f s.cursor } : CompileM Unit)
      (modify fun s => { s with cursor := f s.cursor }) :=
  resemble_modify fun _ _ hs => { hs with cursor := hf _ _ hs.cursor }

theorem Cursor.Resembles.advance {c c' : Cursor} (h : c.Resembles labelled c') (n : Nat) :
    (c.advance n).Resembles labelled (c'.advance n) := by
  refine ⟨?_, ?_, h.name⟩
  · rw [Cursor.advance, h.rest]
    rfl
  · rw [Cursor.advance, h.rest, h.line]
    rfl

theorem Cursor.Resembles.peek {c c' : Cursor} (h : c.Resembles labelled c') (k : Nat) :
    c'.peek k = c.peek k := by
  rw [Cursor.peek, h.rest]
  rfl

theorem resemble_peek (k : Nat) : Resemble labelled (peek k) (peek k) :=
  .onCursor fun _ _ hc => hc.peek k ▸ .pure _

theorem resemble_advance (n : Nat) : Resemble labelled (advance n) (advance n) :=
  resemble_modifyCursor (·.advance n) fun _ _ hc => hc.advance n

theorem resemble_skipTo (p : UInt8 → Bool) : Resemble labelled (skipTo p) (skipTo p) := by
  refine resemble_modifyCursor (·.skipTo p) fun c c' hc => ?_
  rw [Cursor.skipTo, Cursor.skipTo, Cursor.before, Cursor.before, hc.rest]
  exact hc.advance _

theorem resemble_skipComments : Resemble labelled skipComments skipComments :=
  resemble_modifyCursor (fun c => { c with rest := skipBlanks false c.rest }) fun _ _ hc =>
    { hc with rest := congrArg (skipBlanks false) hc.rest }

theorem resemble_next : Resemble labelled next next :=
  (resemble_peek 0).bind fun _ => (resemble_advance 1).bind fun _ => .pure _

private theorem resemble_note {text text' : Bytes} (h : labelled → text' = text) :
    Resemble labelled (note text) (note text') := by
  refine fun s s' hs => ⟨rfl, { hs with warnings := fun hl => ?_ }⟩
  change text' :: s'.warnings = text :: s.warnings
  rw [h hl, hs.warnings hl]

/-- Under other labels warnings are other ones. -/
theorem resemble_warn (text : Bytes) : Resemble labelled (warn text) (warn text) := by
  have hnote (b b' : Bool) (text text' : Bytes) (h : labelled → b' = b ∧ text' = text)
      (plain : Bytes) : Resemble labelled (if b then note plain else note text)
        (if b' then note plain else note text') := by
    intro s s' hs
    have hright (b : Bool) (text : Bytes) (s : State) :
        (StateT.run (if b then note plain else note text) s).1 = ⟨⟩ ∧
          (StateT.run (if b then note plain else note text) s).2 =
            { s with warnings := (if b then plain else text) :: s.warnings } := by
      cases b <;> exact ⟨rfl, rfl⟩
    rw [(hright b text s).2, (hright b' text' s').2]
    refine ⟨rfl, { hs with warnings := fun hl => ?_ }⟩
    dsimp only
    rw [(h hl).1, (h hl).2, hs.warnings hl]
  refine .onCursor fun c c' hc => hnote _ _ _ _ (fun hl => ?_) text
  rw [hc.name hl, hc.line]
  exact ⟨rfl, rfl⟩

private theorem resemble_noteLiteralName (name : Bytes) :
    Resemble labelled (noteLiteralName name) (noteLiteralName name) :=
  resemble_modify fun _ _ hs => ⟨hs.cursor, hs.faces, hs.warnings⟩

theorem resemble_intern (name : Bytes) : Resemble labelled (intern name) (intern name) := by
  intro s s' hs
  obtain ⟨hi, hn, ht⟩ := Table.intern_of_faces hs.faces name
  have hrun (s : State) : (intern name).run s = StateT.run (m := Id) (do
      if !(s.table.intern name).2.1 then
        note (utf8 "number " ++ name ++ utf8 " is not a valid identifier name")
      return (s.table.intern name).1) { s with table := (s.table.intern name).2.2 } := rfl
  have hstate : State.Resembles labelled { s with table := (s.table.intern name).2.2 }
      { s' with table := (s'.table.intern name).2.2 } := ⟨hs.cursor, ht, hs.warnings⟩
  rw [hrun, hrun, hi, hn]
  cases (s.table.intern name).2.1 with
  | true => exact ⟨rfl, hstate⟩
  | false => exact (resemble_note fun _ => rfl).bind (fun _ => .pure _) _ _ hstate

theorem resemble_cutStringBody : Resemble labelled cutStringBody cutStringBody := by
  refine .onCursor fun c c' hc => ?_
  rw [hc.rest]
  exact (resemble_advance _).bind fun _ => (resemble_peek 0).bind fun _ =>
    .ite ((resemble_advance 1).bind fun _ => .pure _) (.pure _)

theorem resemble_cutRaw : Resemble labelled cutRaw cutRaw :=
  (resemble_advance 1).bind fun _ => resemble_cutStringBody

theorem resemble_cutString : Resemble labelled cutString cutString :=
  resemble_cutRaw.bind fun _ => .pure _

theorem resemble_cutWord : Resemble labelled cutWord cutWord := by
  refine .onCursor fun c c' hc => ?_
  rw [hc.rest]
  exact (resemble_advance _).bind fun _ => .pure _

theorem Resemble.withText {α : Type} {m m' : CompileM α} (text : Bytes) {name name' : Bytes}
    (hname : labelled → name' = name) (line : Nat) (hm : Resemble labelled m m') :
    Resemble labelled (withText text name line m) (withText text name' line m') := by
  intro s s' hs
  have hin : State.Resembles labelled { s with cursor := { rest := text, line, name } }
      { s' with cursor := { rest := text, line, name := name' } } :=
    ⟨⟨rfl, rfl, hname⟩, hs.faces, hs.warnings⟩
  obtain ⟨ha, ht⟩ := hm _ _ hin
  exact ⟨ha, hs.cursor, ht.faces, ht.warnings⟩

end Steps

/-- Compilers for nested arguments and first words that give the same. -/
structure Nested.Resemble (labelled : Prop) (k k' : Nested) : Prop where
  arg : ∀ want prev, Compile.Resemble labelled (k.arg want prev) (k'.arg want prev)
  head : ∀ prev, Compile.Resemble labelled (k.head prev) (k'.head prev)

section Calls

variable {α : Type} {labelled : Prop} {k k' : Nested}

theorem Nested.Resemble.take (hk : k.Resemble labelled k') {want : Want} {prev : Nat}
    {f f' : Option Code → CompileM α} (hnone : Compile.Resemble labelled (f none) (f' none))
    (hsome : ∀ code, Compile.Resemble labelled (f (some code)) (f' (some code))) :
    Compile.Resemble labelled (k.arg want prev >>= f) (k'.arg want prev >>= f') :=
  (hk.arg want prev).bind fun answer => by
    cases answer with
    | none => exact hnone
    | some code => exact hsome code

variable (hk : k.Resemble labelled k')
include hk

theorem resemble_takeArgs (want : Want) (prev left given : Nat) :
    Resemble labelled (takeArgs k want prev left given) (takeArgs k' want prev left given) := by
  induction left generalizing given with
  | zero => exact .pure _
  | succ left ih => exact hk.take (.pure _) fun code => (ih (given + 1)).bind fun _ => .pure _

private theorem resemble_argOr (want : Want) (prev : Nat) (missing : Code) :
    Resemble labelled (argOr k want prev missing) (argOr k' want prev missing) :=
  hk.take (.pure _) fun _ => .pure _

private theorem resemble_dropArgs (prev fuel : Nat) :
    Resemble labelled (dropArgs k prev fuel) (dropArgs k' prev fuel) := by
  induction fuel with
  | zero => exact .pure _
  | succ fuel ih => exact hk.take (.pure _) fun _ => ih.bind fun _ => .pure _

theorem resemble_surplusArgs (more : Bool) (prev : Nat) :
    Resemble labelled (surplusArgs k more prev) (surplusArgs k' more prev) :=
  .ite (.onCursor fun _ _ hc => hc.rest ▸ resemble_dropArgs hk prev _) (.pure _)

theorem resemble_callComputed (push : Code) (prev : Nat) :
    Resemble labelled (callComputed k push prev) (callComputed k' push prev) :=
  (resemble_takeArgs hk .anyView (prev + 1) maxArgs 0).bind fun _ => .pure _

private theorem resemble_argIfMore (want : Want) (prev : Nat) (more : Bool) :
    Resemble labelled (argIfMore k want prev more) (argIfMore k' want prev more) :=
  .ite (hk.arg want prev) (.pure _)

private theorem resemble_restOfArgs (prev given : Nat) (more : Bool) :
    Resemble labelled (restOfArgs k prev given more) (restOfArgs k' prev given more) :=
  .ite (resemble_takeArgs hk .anyView prev _ given) (.pure _)

private theorem resemble_letterArg (letter : Letter) (isLast : Bool) (prev : Nat) (st : CallState) :
    Resemble labelled (letterArg k letter isLast prev st) (letterArg k' letter isLast prev st) := by
  refine (resemble_argIfMore hk (wantOf letter) (prev + st.given) st.more).bind fun answer => ?_
  cases answer with
  | none => exact .ite (.pure _) (.pure _)
  | some code =>
      refine .ite ?_ (.pure _)
      exact (resemble_takeArgs hk .textView (prev + st.given) _ 1).bind fun _ => .pure _

private theorem resemble_commandArgs (sig : Array Letter) (self prev fuel at' : Nat)
    (st : CallState) :
    Resemble labelled (commandArgs k sig self prev fuel at' st)
      (commandArgs k' sig self prev fuel at' st) := by
  induction fuel generalizing at' st with
  | zero => exact .pure _
  | succ fuel ih =>
      rw [commandArgs, commandArgs]
      cases sig[at']? with
      | none => exact .pure _
      | some letter =>
          have hletter := (resemble_letterArg hk letter (at' + 1 == sig.size) prev st).bind
            fun st' => ih (at' + 1) st'
          cases letter with
          | self | count | pressed => exact ih _ _
          | joined | all => exact (resemble_restOfArgs hk prev st.given st.more).bind fun _ => .pure _
          | again n => exact .ite (ih _ _) (ih _ _)
          | _ => exact hletter

end Calls

section Statements

variable {labelled : Prop} {k k' : Nested} (hk : k.Resemble labelled k')
include hk

private theorem resemble_assignment (head : Head) (prev : Nat) :
    Resemble labelled (assignment k head prev) (assignment k' head prev) := by
  have htake {want : Want} {missing : Code} {f : Statement → CompileM Statement}
      (hf : ∀ a, Resemble labelled (f a) (f a)) (prev : Nat) : Resemble labelled
        (argOr k want prev missing >>= f) (argOr k' want prev missing >>= f) :=
    (resemble_argOr hk want prev missing).bind hf
  cases head with
  | computed push => exact htake (fun _ => .pure _) (prev + 1)
  | bare name =>
      refine (resemble_intern name).bind fun i => .onRole i fun role role' hrole => ?_
      cases hrole with
      | «alias» | intVar | floatVar | textVar => exact htake (fun _ => .pure _) prev
      | command | control => exact htake (fun _ => .pure _) (prev + 1)

private theorem resemble_branch (self prev : Nat) :
    Resemble labelled (branch k self prev) (branch k' self prev) := by
  refine hk.take (.pure _) fun cond => hk.take (.pure _) fun yes => hk.take ?_ fun no => ?_
  · dsimp only
    cases literalBody? yes <;> exact .pure _
  · dsimp only
    cases literalBody? yes <;> cases literalBody? no <;> exact .pure _

private theorem resemble_takeLiterals (prev left given : Nat) :
    Resemble labelled (takeLiterals k prev left given) (takeLiterals k' prev left given) := by
  induction left generalizing given with
  | zero => exact .pure _
  | succ left ih =>
      refine hk.take (.pure _) fun code => ?_
      dsimp only
      cases literalBody? code with
      | none => exact .pure _
      | some body => exact (ih (given + 1)).bind fun _ => .pure _

private theorem resemble_connective (isAnd : Bool) (self prev : Nat) :
    Resemble labelled (connective k isAnd self prev) (connective k' isAnd self prev) := by
  refine hk.take (.pure _) fun first => ?_
  refine (resemble_takeLiterals hk prev (maxArgs - 1) 1).bind fun a => .ite ?_ (.pure _)
  exact (resemble_takeArgs hk .condition prev _ _).bind fun _ => .pure _

private theorem resemble_control (c : Control) (self prev : Nat) :
    Resemble labelled (control k c self prev) (control k' c self prev) := by
  cases c with
  | «local» =>
      refine (resemble_takeArgs hk .ident prev maxArgs 0).bind fun a => ?_
      exact (resemble_surplusArgs hk a.2.2 prev).bind fun _ => .pure _
  | run | runOuter | result | not => exact hk.take (.pure _) fun _ => .pure _
  | branch => exact resemble_branch hk self prev
  | and => exact resemble_connective hk true self prev
  | or => exact resemble_connective hk false self prev

private theorem resemble_intVarStatement (hex : Bool) (self prev : Nat) :
    Resemble labelled (intVarStatement k hex self prev) (intVarStatement k' hex self prev) :=
  hk.take (.pure _) fun _ => .ite (.pure _)
    (hk.take (.pure _) fun _ => hk.take (.pure _) fun _ => .pure _)

private theorem resemble_textVarStatement (self prev : Nat) :
    Resemble labelled (textVarStatement k self prev) (textVarStatement k' self prev) :=
  hk.take (.pure _) fun _ =>
    (resemble_takeArgs hk .anyView prev (maxArgs - 1) 1).bind fun _ => .pure _

/-- A bare word is called for what its name stands for, which has the same face. -/
theorem resemble_callBare (view : Bool) (name : Bytes) (prev : Nat) :
    Resemble labelled (callBare k view name prev) (callBare k' view name prev) := by
  refine .onState fun s s' hs => ?_
  dsimp only
  rcases Table.lookup?_of_faces hs.faces name with ⟨hn, hn'⟩ | ⟨i, id, id', hid, hid', hface⟩
  · rw [hn, hn']
    exact .ite (.pure _) (resemble_callComputed hk _ prev)
  · rw [hid, hid']
    have hrole : id.role.Kin id'.role := Role.kin_of_form (congrArg Face.form hface)
    have hhex : id'.flags.hex = id.flags.hex := congrArg Face.hex hface
    dsimp only
    rw [hhex]
    generalize id.role = role at hrole
    generalize id'.role = role' at hrole
    cases hrole with
    | «alias» => exact (resemble_takeArgs hk .any prev maxArgs 0).bind fun _ => .pure _
    | command => exact resemble_commandArgs hk _ i prev _ 0 {}
    | control => exact resemble_control hk _ i prev
    | intVar => exact resemble_intVarStatement hk _ i prev
    | floatVar => exact hk.take (.pure _) fun _ => .pure _
    | textVar => exact resemble_textVarStatement hk i prev

private theorem resemble_statement (view : Bool) (prev : Nat) :
    Resemble labelled (statement k view prev) (statement k' view prev) := by
  refine (hk.head prev).bind fun answer => ?_
  cases answer with
  | none => exact .pure _
  | some head =>
      refine resemble_skipComments.bind fun _ => .onCursor fun c c' hc => ?_
      have hsign : isAssignment c' = isAssignment c := by
        unfold isAssignment
        rw [hc.peek, hc.peek, hc.peek]
      rw [hsign]
      refine .ite ((resemble_advance 1).bind fun _ => resemble_assignment hk head prev) ?_
      cases head with
      | computed push => exact resemble_callComputed hk push prev
      | bare name => exact resemble_callBare hk view name prev

omit hk in
private theorem resemble_endOfStatement (closing : UInt8) (fuel : Nat) :
    Resemble labelled (endOfStatement closing fuel) (endOfStatement closing fuel) := by
  induction fuel with
  | zero => exact .pure _
  | succ fuel ih =>
      refine (resemble_skipTo _).bind fun _ => .onCursor fun c c' hc => ?_
      rw [hc.rest]
      refine .ite (.ite ((resemble_warn _).bind fun _ => .pure _) (.pure _)) ?_
      refine resemble_next.bind fun _ => .ite (.ite (.pure _) ?_) (.ite ?_ (.pure _))
      · exact (resemble_warn _).bind fun _ => .pure _
      · exact (resemble_peek 0).bind fun _ => .ite ((resemble_skipTo _).bind fun _ => ih) ih

private theorem resemble_statementsFrom (view : Bool) (closing : UInt8) (prev fuel : Nat) :
    Resemble labelled (statementsFrom k view closing prev fuel)
      (statementsFrom k' view closing prev fuel) := by
  induction fuel with
  | zero => exact .pure _
  | succ fuel ih =>
      refine (resemble_statement hk view prev).bind fun a => .onCursor fun c c' hc => ?_
      rw [hc.rest]
      refine (resemble_surplusArgs hk a.2 prev).bind fun surplus => ?_
      refine (resemble_endOfStatement closing _).bind fun ended => ?_
      exact .ite (.pure _) (ih.bind fun _ => .pure _)

theorem resemble_statements (view : Bool) (closing : UInt8) (prev : Nat) :
    Resemble labelled (statements k view closing prev) (statements k' view closing prev) :=
  .onCursor fun _ _ hc => hc.rest ▸ resemble_statementsFrom hk view closing prev _

theorem resemble_textLiteral (text : Bytes) {name name' : Bytes} (hname : labelled → name' = name)
    (line : Nat) : Resemble labelled (textLiteral k text name line) (textLiteral k' text name' line) :=
  (Resemble.withText text hname line (resemble_statements hk false 0 0)).bind fun _ => .pure _

end Statements

section Arguments

variable {labelled : Prop} {k k' : Nested} (hk : k.Resemble labelled k')
include hk

theorem resemble_wordCode (want : Want) (word : Bytes) {name name' : Bytes}
    (hname : labelled → name' = name) :
    Resemble labelled (wordCode k want word name) (wordCode k' want word name') := by
  cases want with
  | code => exact resemble_textLiteral hk word hname 1
  | condition => exact .ite (.pure _) (resemble_textLiteral hk word hname 1)
  | ident => exact (resemble_intern word).bind fun _ => .pure _
  | any | anyView | int | float | text | textView | head | nothing => exact .pure _

theorem resemble_invalidLookup (want : Want) :
    Resemble labelled (invalidLookup k want) (invalidLookup k' want) := by
  cases want with
  | nothing | any | anyView | head | condition => exact .pure _
  | int | float | text | textView | code | ident =>
      exact resemble_wordCode hk _ [] fun _ => rfl

private theorem resemble_lookupNamed (name : Bytes) (want : Want) (prev : Nat) :
    Resemble labelled (lookupNamed k name want prev) (lookupNamed k' name want prev) := by
  refine (resemble_intern name).bind fun i => .onRole i fun role role' hrole => ?_
  cases hrole with
  | intVar | floatVar | textVar | «alias» | command => exact .ite (.pure _) (.pure _)
  | control => exact .ite (.pure _) (resemble_invalidLookup hk want)

private theorem resemble_lookupOne (want : Want) (prev : Nat) :
    Resemble labelled (lookupOne k want prev) (lookupOne k' want prev) := by
  refine (resemble_peek 0).bind fun c => .ite ?_ (.ite ?_ ?_)
  · exact hk.take (resemble_invalidLookup hk want) fun _ => .pure _
  · exact resemble_cutRaw.bind fun name => resemble_lookupNamed hk name want prev
  · exact resemble_cutWord.bind fun name =>
      .ite (resemble_invalidLookup hk want) (resemble_lookupNamed hk name want prev)

private theorem resemble_lookup (want : Want) (prev : Nat) :
    Resemble labelled (lookup k want prev) (lookup k' want prev) := by
  refine .onCursor fun c c' hc => ?_
  rw [hc.rest]
  refine (resemble_advance _).bind fun _ => .ite (resemble_lookupOne hk want prev) ?_
  exact (resemble_lookupOne hk .textView prev).bind fun _ => .pure _

private theorem resemble_splice (prev : Nat) :
    Resemble labelled (splice k prev) (splice k' prev) := by
  refine (resemble_peek 0).bind fun c => .ite (hk.arg .anyView prev) (.ite ?_ (.ite ?_ ?_))
  · exact (hk.arg .textView prev).bind fun _ => .pure _
  · refine resemble_cutRaw.bind fun name => (resemble_intern name).bind fun i => ?_
    exact .onRole i fun role role' hrole => by cases hrole <;> exact .pure _
  · refine .onCursor fun c c' hc => ?_
    rw [hc.rest]
    refine .ite (.pure _) ((resemble_advance _).bind fun _ => (resemble_intern _).bind fun i => ?_)
    exact .onRole i fun role role' hrole => by cases hrole <;> exact .pure _

private theorem resemble_addSplice (prev : Nat) (segment : Bytes) (st : Splicing) :
    Resemble labelled (addSplice k prev segment st) (addSplice k' prev segment st) :=
  (resemble_splice hk _).bind fun _ => .onCursor fun _ _ hc => hc.rest ▸ .pure _

private theorem resemble_readLiteral (prev fuel depth : Nat) (st : Splicing) :
    Resemble labelled (readLiteral k prev fuel depth st) (readLiteral k' prev fuel depth st) := by
  induction fuel generalizing depth st with
  | zero => exact .pure _
  | succ fuel ih =>
      refine (resemble_skipTo _).bind fun _ => .onCursor fun here here' hc => ?_
      rw [hc.rest]
      refine .ite ((resemble_warn _).bind fun _ => .pure _) ?_
      refine resemble_next.bind fun _ => .ite ?_ (.ite ?_ (.ite (ih _ st) (.ite ?_ ?_)))
      · exact resemble_cutStringBody.bind fun _ => ih depth st
      · exact (resemble_peek 0).bind fun _ =>
          .ite ((resemble_skipTo _).bind fun _ => ih depth st) (ih depth st)
      · exact .ite (.pure _) (ih _ st)
      · refine .onCursor fun c c' hc => ?_
        rw [hc.rest]
        refine (resemble_advance _).bind fun _ => .ite (ih depth st) ?_
        have hsplice := (resemble_addSplice hk prev (st.segment here.rest) st).bind
          fun st' => ih depth st'
        exact .ite ((resemble_warn _).bind fun _ => hsplice) hsplice

private theorem resemble_plainLiteral (want : Want) (segment : Bytes) {name name' : Bytes}
    (hname : labelled → name' = name) (line : Nat) :
    Resemble labelled (plainLiteral k want segment name line)
      (plainLiteral k' want segment name' line) := by
  cases want with
  | code | condition => exact resemble_textLiteral hk segment hname line
  | ident =>
      refine (resemble_noteLiteralName segment).bind fun _ => ?_
      exact (resemble_intern segment).bind fun _ => .pure _
  | nothing | any | anyView | int | float | text | textView | head => exact .pure _

private theorem resemble_emptyLiteral (want : Want) {name name' : Bytes}
    (hname : labelled → name' = name) :
    Resemble labelled (emptyLiteral k want name) (emptyLiteral k' want name') := by
  cases want with
  | int | float => exact resemble_wordCode hk _ [] hname
  | nothing | any | anyView | code | condition | ident | text | textView | head => exact .pure _

private theorem resemble_blockLiteral (want : Want) (prev : Nat) :
    Resemble labelled (blockLiteral k want prev) (blockLiteral k' want prev) := by
  refine .onCursor fun c₁ c₁' hc₁ => .onCursor fun c₂ c₂' hc₂ => .onCursor fun c₃ c₃' hc₃ => ?_
  rw [hc₁.line, hc₃.rest]
  refine (resemble_readLiteral hk prev _ 1 _).bind fun a => .ite (.ite ?_ ?_) (.pure _)
  · exact resemble_emptyLiteral hk want hc₂.name
  · exact resemble_plainLiteral hk want _ hc₂.name _

private theorem resemble_group (want : Want) (prev : Nat) :
    Resemble labelled (group k want prev) (group k' want prev) := by
  refine .onCursor fun c c' hc => .ite ?_ ?_
  · exact (resemble_statements hk _ _ 0).bind fun _ => .pure _
  · refine (resemble_statements hk _ _ prev).bind fun inner => ?_
    exact .ite (resemble_wordCode hk want [] hc.name) (.pure _)

private theorem resemble_stringArg (want : Want) :
    Resemble labelled (stringArg k want) (stringArg k' want) := by
  refine .onCursor fun c c' hc => resemble_cutString.bind fun s => ?_
  cases want with
  | any | text | anyView | textView => exact .pure _
  | int | float | code | condition | ident | head | nothing =>
      exact resemble_wordCode hk _ s hc.name

private theorem resemble_wordArg (want : Want) :
    Resemble labelled (wordArg k want) (wordArg k' want) :=
  .onCursor fun _ _ hc => resemble_cutWord.bind fun word =>
    .ite (.pure _) ((resemble_wordCode hk want word hc.name).bind fun _ => .pure _)

theorem resemble_argument (want : Want) (prev : Nat) :
    Resemble labelled (argument k want prev) (argument k' want prev) := by
  refine resemble_skipComments.bind fun _ => (resemble_peek 0).bind fun c => ?_
  refine .ite ((resemble_stringArg hk want).bind fun _ => .pure _) (.ite ?_ (.ite ?_ (.ite ?_ ?_)))
  · exact (resemble_lookup hk want prev).bind fun _ => .pure _
  · exact (resemble_advance 1).bind fun _ => (resemble_group hk want prev).bind fun _ => .pure _
  · exact (resemble_advance 1).bind fun _ =>
      (resemble_blockLiteral hk want prev).bind fun _ => .pure _
  · exact resemble_wordArg hk want

private theorem resemble_firstWord (prev : Nat) :
    Resemble labelled (firstWord k prev) (firstWord k' prev) := by
  refine resemble_skipComments.bind fun _ => (resemble_peek 0).bind fun c => .ite ?_ (.ite ?_ ?_)
  · exact resemble_cutString.bind fun _ => .pure _
  · exact (resemble_argument hk .head prev).bind fun _ => .pure _
  · exact resemble_cutWord.bind fun _ => .ite (.pure _) (.pure _)

omit hk in
private theorem nested_resemble (levels : Nat) :
    (nested levels).Resemble labelled (nested levels) := by
  induction levels with
  | zero => exact ⟨fun _ _ => .pure _, fun _ => .pure _⟩
  | succ levels ih => exact ⟨resemble_argument ih, resemble_firstWord ih⟩

end Arguments

end Compile

open Compile

/-- Tables with the same faces give the same words and get the same names. Under the same label the
warnings are the same too. -/
theorem compile_of_faces {t t' : Table} (h : t'.faces = t.faces) (src name name' : Bytes) :
    (compile t' src name').block.words = (compile t src name).block.words ∧
      (compile t' src name').table.faces = (compile t src name).table.faces ∧
      (name' = name → (compile t' src name').warnings = (compile t src name).warnings) := by
  have hstart : State.Resembles (name' = name) { cursor := { rest := src, name }, table := t }
      { cursor := { rest := src, name := name' }, table := t' } :=
    ⟨⟨rfl, rfl, fun h => h⟩, h, fun _ => rfl⟩
  obtain ⟨hcode, hstate⟩ := resemble_statements (nested_resemble (src.length + 4)) false 0 0 _ _ hstart
  have hprogram : (program t' src name').1 = (program t src name).1 := hcode
  refine ⟨?_, ?_, fun hname => ?_⟩
  · rw [compile_block, compile_block, hprogram]
    rfl
  · rw [compile_table, compile_table]
    exact hstate.faces
  · rw [compile_warnings, compile_warnings]
    exact congrArg List.reverse (hstate.warnings hname)

end ConsoleScript
