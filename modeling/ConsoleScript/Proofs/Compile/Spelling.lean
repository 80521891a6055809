import ConsoleScript.Proofs.Code.Operands
import ConsoleScript.Proofs.Compile.Arguments

/-!
Literal words in a source text. A text spells words if an argument that is read from it is the first
of them, whatever blanks and comments stand between, and what is left spells the others; behind the
last one there is no argument. What such words are compiled to depends on the words alone, and
compiling them passes over them.
-/

namespace ConsoleScript.Compile

open Bytecode

/-- What begins here is no string, look-up, parenthesis or block literal. -/
def beginsPlain (s : Bytes) : Prop :=
  Bytes.byteAt s 0 ≠ Syntax.quote ∧ Bytes.byteAt s 0 ≠ code '$' ∧
    Bytes.byteAt s 0 ≠ code '(' ∧ Bytes.byteAt s 0 ≠ code '['

instance (s : Bytes) : Decidable (beginsPlain s) :=
  inferInstanceAs (Decidable (_ ∧ _ ∧ _ ∧ _))

/-- A text begins with literal words and no further argument, and goes on with another text. -/
inductive Spells : List Bytes → Bytes → Bytes → Prop
  | nil {s e : Bytes} (hs : skipBlanks false s = e) (hp : beginsPlain e)
      (hw : Syntax.wordLength e = 0) : Spells [] s e
  | cons {w : Bytes} {ws : List Bytes} {s r e : Bytes} (hs : skipBlanks false s = w ++ r)
      (hp : beginsPlain (w ++ r)) (hw : Syntax.wordLength (w ++ r) = w.length) (hne : w ≠ [])
      (hr : Spells ws r e) : Spells (w :: ws) s e

section Texts

variable {w s e : Bytes} {ws : List Bytes}

theorem skipBlanks_skipBlanks (comment : Bool) (s : Bytes) :
    skipBlanks false (skipBlanks comment s) = skipBlanks comment s := by
  fun_induction skipBlanks comment s with
  | case1 => rfl
  | case2 c s h =>
      obtain rfl := eq_of_beq h
      rfl
  | case3 _ _ _ ih | case4 _ _ _ ih | case5 _ _ _ _ ih => exact ih
  | case6 c s hc hs => rw [skipBlanks, if_neg hc, if_neg hs]

theorem Spells.skip (h : Spells ws s e) : Spells ws (skipBlanks false s) e := by
  cases h with
  | nil hs hp hw => exact .nil ((skipBlanks_skipBlanks false s).trans hs) hp hw
  | cons hs hp hw hne hr => exact .cons ((skipBlanks_skipBlanks false s).trans hs) hp hw hne hr

private theorem spells_nil :
    Spells [] s e ↔ skipBlanks false s = e ∧ beginsPlain e ∧ Syntax.wordLength e = 0 :=
  ⟨fun h => by cases h with | nil hs hp hw => exact ⟨hs, hp, hw⟩, fun ⟨hs, hp, hw⟩ => .nil hs hp hw⟩

/-- The first word stands behind blanks and comments. -/
theorem spells_cons : Spells (w :: ws) s e ↔ w ≠ [] ∧ (skipBlanks false s).take w.length = w ∧
    beginsPlain (skipBlanks false s) ∧ Syntax.wordLength (skipBlanks false s) = w.length ∧
    Spells ws ((skipBlanks false s).drop w.length) e := by
  constructor
  · intro h
    cases h with
    | cons hs hp hw hne hr =>
        rw [hs, List.take_left, List.drop_left]
        exact ⟨hne, rfl, hp, hw, hr⟩
  · rintro ⟨hne, htake, hp, hw, hr⟩
    have hs : skipBlanks false s = w ++ (skipBlanks false s).drop w.length := by
      conv => lhs; rw [← List.take_append_drop w.length (skipBlanks false s), htake]
    exact .cons hs (hs ▸ hp) (hs ▸ hw) hne hr

instance Spells.decide : (ws : List Bytes) → ∀ s e : Bytes, Decidable (Spells ws s e)
  | [], _, _ => decidable_of_iff _ spells_nil.symm
  | _ :: ws, _, _ =>
      have := Spells.decide ws
      decidable_of_iff _ spells_cons.symm

theorem Spells.length_le (h : Spells ws s e) : e.length ≤ s.length := by
  induction h with
  | @nil s e hs _ _ => exact hs ▸ length_skipBlanks false s
  | @cons w ws s r e hs _ _ _ _ ih =>
      have hle := length_skipBlanks false s
      rw [hs, List.length_append] at hle
      omega

theorem Spells.word_length_le (h : Spells ws s e) (hw : w ∈ ws) : w.length ≤ s.length := by
  induction h with
  | nil => cases hw
  | @cons v ws s r e hs _ _ _ _ ih =>
      have hle := length_skipBlanks false s
      rw [hs, List.length_append] at hle
      rcases List.mem_cons.mp hw with rfl | hw
      · omega
      · have := ih hw
        omega

theorem Spells.word_ne_nil (h : Spells ws s e) (hw : w ∈ ws) : w ≠ [] := by
  induction h with
  | nil => cases hw
  | cons _ _ _ hne _ ih =>
      rcases List.mem_cons.mp hw with rfl | hw
      · exact hne
      · exact ih hw

theorem Spells.count_le (h : Spells ws s e) : ws.length ≤ s.length := by
  induction h with
  | nil => exact Nat.zero_le _
  | @cons w ws s r e hs _ _ hne _ ih =>
      have hle := length_skipBlanks false s
      have hpos := List.length_pos_iff.mpr hne
      rw [hs, List.length_append] at hle
      rw [List.length_cons]
      omega

end Texts

/-- The compiler at another place of the same text. -/
def State.goTo (st : State) (rest : Bytes) (line : Nat) : State :=
  { st with cursor := { st.cursor with rest, line } }

section Steps

variable {k : Nested} {w e : Bytes} {ws : List Bytes} {st : State}

/-- The argument that begins with a byte. -/
def argumentAt (k : Nested) (want : Want) (prev : Nat) (c : UInt8) : CompileM (Option Code) := do
  if c == Syntax.quote then return some (← stringArg k want)
  else if c == code '$' then return some (← lookup k want prev)
  else if c == code '(' then
    advance 1
    return some (← group k want prev)
  else if c == code '[' then
    advance 1
    return some (← blockLiteral k want prev)
  else wordArg k want

/-- An argument goes by the byte behind blanks and comments. -/
theorem run_argument (k : Nested) (want : Want) (prev : Nat) (st : State) :
    (argument k want prev).run st =
      (argumentAt k want prev (Bytes.byteAt (skipBlanks false st.cursor.rest) 0)).run
        (st.goTo (skipBlanks false st.cursor.rest) st.cursor.line) := rfl

/-- An argument that begins as a bare word is read as one. -/
theorem run_argument_plain (hp : beginsPlain (skipBlanks false st.cursor.rest)) (want : Want)
    (prev : Nat) : (argument k want prev).run st =
      (wordArg k want).run (st.goTo (skipBlanks false st.cursor.rest) st.cursor.line) := by
  rw [run_argument, argumentAt, if_neg (by simpa using hp.1), if_neg (by simpa using hp.2.1),
    if_neg (by simpa using hp.2.2.1), if_neg (by simpa using hp.2.2.2)]

/-- An opening bracket begins a block literal. -/
theorem run_argument_bracket {s : Bytes} (k : Nested) (want : Want) (prev : Nat)
    (h : skipBlanks false st.cursor.rest = code '[' :: s) :
    (argument k want prev).run st =
      ((blockLiteral k want prev).run (st.goTo s st.cursor.line)).map some id := by
  rw [run_argument, h]
  rfl

/-- The code of a block literal whose parts have been read. -/
def assembledLiteral (k : Nested) (want : Want) (prev : Nat) (name : Bytes) (line : Nat)
    (read : Splicing × Bytes) : CompileM Code :=
  if read.1.parts == 0 then
    if read.2.isEmpty then emptyLiteral k want name else plainLiteral k want read.2 name line
  else
    let last := if read.2.isEmpty then ([], read.1.parts)
      else (blockTextCode true read.2, read.1.parts + 1)
    let code := read.1.code ++ last.1
    let joined :=
      if maxResults ≤ prev then [.spill (code ++ plain .concResult want.tag last.2) want.tag]
      else code ++ plain .concWord want.tag last.2
    return joined ++ lookupTail want

/-- A block literal is compiled when all of it has been read. -/
theorem run_blockLiteral_read (k : Nested) (want : Want) (prev : Nat) (st : State) :
    (blockLiteral k want prev).run st = StateT.run (m := Id) (do
      assembledLiteral k want prev st.cursor.name st.cursor.line
        (← readLiteral k prev (st.cursor.rest.length + 1) 1 { source := st.cursor.rest })) st := rfl

theorem run_argument_none (h : Spells [] st.cursor.rest e) (want : Want) (prev : Nat) :
    (argument k want prev).run st = (none, st.goTo e st.cursor.line) := by
  cases h with
  | nil hs hp hw =>
      rw [run_argument_plain (hs.symm ▸ hp), hs]
      have hword : (wordArg k want).run (st.goTo e st.cursor.line) = StateT.run (m := Id) (do
          if (e.take (Syntax.wordLength e)).isEmpty then return none
          else return some (← wordCode k want (e.take (Syntax.wordLength e)) st.cursor.name))
          (st.goTo (e.drop (Syntax.wordLength e))
            (st.cursor.line + (e.take (Syntax.wordLength e)).count 0x0A)) := rfl
      rw [hword, hw]
      rfl

/-- The next word is an argument, and the words behind it are left. -/
theorem run_argument_word (h : Spells (w :: ws) st.cursor.rest e) (want : Want) (prev : Nat) :
    ∃ r line, Spells ws r e ∧ w.length + r.length ≤ st.cursor.rest.length ∧
      (argument k want prev).run st =
        ((wordCode k want w st.cursor.name).run (st.goTo r line)).map some id := by
  cases h with
  | @cons _ _ _ r _ hs hp hw hne hr =>
      have hle := length_skipBlanks false st.cursor.rest
      rw [hs, List.length_append] at hle
      refine ⟨r, st.cursor.line + w.count 0x0A, hr, hle, ?_⟩
      rw [run_argument_plain (hs.symm ▸ hp), hs]
      have hword : (wordArg k want).run (st.goTo (w ++ r) st.cursor.line) =
          StateT.run (m := Id) (do
            if ((w ++ r).take (Syntax.wordLength (w ++ r))).isEmpty then return none
            else return some (← wordCode k want ((w ++ r).take (Syntax.wordLength (w ++ r)))
              st.cursor.name))
            (st.goTo ((w ++ r).drop (Syntax.wordLength (w ++ r)))
              (st.cursor.line + ((w ++ r).take (Syntax.wordLength (w ++ r))).count 0x0A)) := rfl
      rw [hword, hw, List.take_left, List.drop_left, if_neg (by simpa using hne)]
      rfl

end Steps

/-- What a literal word is compiled to where a place wants something. -/
def wordOperand (want : Want) (w : Bytes) : Operand :=
  match want with
  | .int => .int (Reading.int w)
  | .float => .float (Reading.single w)
  | .code | .condition => .code w
  | .ident => .named w
  | _ => .text w

/-- Compiling words has brought the compiler from one state to another. -/
structure Passes (st st' : State) : Prop where
  names : st.table.Names st'.table
  shorter : st'.cursor.rest.length ≤ st.cursor.rest.length

namespace Passes

variable {st st' st'' : State}

theorem refl (st : State) : Passes st st := ⟨.refl _, Nat.le_refl _⟩

theorem trans (h : Passes st st') (h' : Passes st' st'') : Passes st st'' :=
  ⟨h.names.trans h'.names, Nat.le_trans h'.shorter h.shorter⟩

end Passes

/-- A state of the compiler in which words can be compiled: the table is founded, the text fits its
fields, and there are levels enough for what is nested in it. -/
structure Ready (levels : Nat) (st : State) : Prop where
  founded : st.table.Founded .layout
  short : st.cursor.rest.length < operandLimit
  deep : st.cursor.rest.length + 4 ≤ levels

theorem Ready.passes {levels : Nat} {st st' : State} (h : Ready levels st) (hp : Passes st st') :
    Ready levels st' :=
  ⟨h.founded.mono (hp.names.extends .layout), Nat.lt_of_le_of_lt hp.shorter h.short,
    Nat.le_trans (Nat.add_le_add_right hp.shorter 4) h.deep⟩

section Words

variable {levels : Nat} {w e : Bytes} {ws : List Bytes} {st : State}

private theorem run_intern (hst : st.table.Founded .layout) (name : Bytes) :
    ((intern name).run st).2.cursor = st.cursor ∧
      ((intern name).run st).1 < ((intern name).run st).2.table.size ∧
      Stands ((intern name).run st).2.table name ((intern name).run st).1 := by
  obtain ⟨hindex, ws, hstate⟩ := run_intern_eq name st
  rw [hindex, hstate]
  have hd := Table.lt_size_of_form? (hst dummyIndex (Nat.le_refl _))
  exact ⟨rfl, (Table.intern_spec hd name).1, stands_intern _ name⟩

/-- The code of a word that is wanted pushes it. -/
theorem run_wordCode (hst : Ready levels st) {want : Want} (hwant : want ≠ .nothing) (hne : w ≠ [])
    (hw : w.length < operandLimit) (hdeep : w.length + 4 ≤ levels) (name : Bytes) :
    ∃ code st', (wordCode (nested levels) want w name).run st = (code, st') ∧
      st'.cursor = st.cursor ∧ st.table.Names st'.table ∧
      Pushes st'.table code (wordOperand want w) := by
  have hsound : st.table.Sound .layout := ⟨hst.founded, absurd rfl⟩
  have hgives : Gives .layout st.table (wordCode (nested levels) want w name)
      fun t code => ArgTyped .layout t want 0 code :=
    gives_wordCode (nested_serves .layout levels) st.table want hw name
  obtain ⟨-, hnames, -⟩ := hgives hsound st rfl hst.short
  have hempty : w.isEmpty = false := by simpa using hne
  have hliteral {st' : State} {code : Code}
      (hrun : (textLiteral (nested levels) w name).run st = (code, st')) :
      st'.cursor = st.cursor ∧ Pushes st'.table code (.code w) := by
    cases hrun
    exact ⟨rfl, .code ⟨levels, _, hdeep, rfl, rfl⟩⟩
  cases want with
  | nothing => exact absurd rfl hwant
  | int => exact ⟨_, _, rfl, rfl, hnames, .int _⟩
  | float => exact ⟨_, _, rfl, rfl, hnames, .float _⟩
  | text | head => exact ⟨_, _, rfl, rfl, hnames, .text hw⟩
  | textView => exact ⟨_, _, rfl, rfl, hnames, .view hw⟩
  | any =>
      have hrun : (wordCode (nested levels) .any w name).run st = (textCode w, st) := by
        rw [wordCode, hempty]
        rfl
      rw [hrun] at hnames
      exact ⟨_, _, hrun, rfl, hnames, .text hw⟩
  | anyView =>
      have hrun : (wordCode (nested levels) .anyView w name).run st = (viewCode w, st) := by
        rw [wordCode, hempty]
        rfl
      rw [hrun] at hnames
      exact ⟨_, _, hrun, rfl, hnames, .view hw⟩
  | code =>
      obtain ⟨hcursor, hcode⟩ := hliteral rfl
      exact ⟨_, _, rfl, hcursor, hnames, hcode⟩
  | condition =>
      have hrun : (wordCode (nested levels) .condition w name).run st =
          (textLiteral (nested levels) w name).run st := by
        rw [wordCode, hempty]
        rfl
      rw [hrun] at hnames
      obtain ⟨hcursor, hcode⟩ := hliteral rfl
      exact ⟨_, _, hrun, hcursor, hnames, hcode⟩
  | ident =>
      obtain ⟨hcursor, hsize, hstands⟩ := run_intern hst.founded w
      exact ⟨_, _, rfl, hcursor, hnames, .named hsize hstands⟩

/-- The words that are left in a text, where it may be known that there are none. -/
inductive Left (e : Bytes) : List Bytes → (more : Bool) → Bytes → Prop
  | words {ws : List Bytes} {s : Bytes} (h : Spells ws s e) : Left e ws true s
  | none : Left e [] false e

/-- The next word as an argument. -/
theorem run_word (hst : Ready levels st) (h : Spells (w :: ws) st.cursor.rest e) {want : Want}
    (hwant : want ≠ .nothing) (prev : Nat) :
    ∃ code st', ((nested (levels + 1)).arg want prev).run st = (some code, st') ∧ Passes st st' ∧
      Spells ws st'.cursor.rest e ∧ Pushes st'.table code (wordOperand want w) := by
  obtain ⟨r, line, hr, hle, hrun⟩ := run_argument_word (k := nested levels) h want prev
  have hne : w ≠ [] := by
    cases h
    assumption
  have hshort := hst.short
  have hdeep := hst.deep
  have hst' : Ready levels (st.goTo r line) :=
    hst.passes ⟨.refl _, Nat.le_trans (Nat.le_add_left r.length w.length) hle⟩
  obtain ⟨code, st', hcode, hcursor, hnames, hpush⟩ :=
    run_wordCode hst' hwant hne (by omega) (by omega) st.cursor.name
  refine ⟨code, st', hrun.trans (by rw [hcode]; rfl), ⟨hnames, ?_⟩, ?_, hpush⟩ <;> rw [hcursor]
  · exact Nat.le_trans (Nat.le_add_left r.length w.length) hle
  · exact hr

theorem run_noWord (levels : Nat) (h : Spells [] st.cursor.rest e) (want : Want) (prev : Nat) :
    ∃ st', ((nested (levels + 1)).arg want prev).run st = (none, st') ∧ Passes st st' ∧
      st'.cursor.rest = e :=
  ⟨_, run_argument_none h want prev, ⟨.refl _, h.length_le⟩, rfl⟩

/-- Of the words that are left, at most a number are taken. -/
theorem run_takeArgs (hst : Ready levels st) (h : Spells ws st.cursor.rest e) (want : Want)
    (hwant : want ≠ .nothing) (prev left given : Nat) :
    ∃ code st', (takeArgs (nested (levels + 1)) want prev left given).run st =
        ((code, given + (ws.take left).length, decide (left ≤ ws.length)), st') ∧ Passes st st' ∧
      Left e (ws.drop left) (decide (left ≤ ws.length)) st'.cursor.rest ∧
      ∀ n os, os.length + (ws.take left).length ≤ n →
        Lays st'.table n os code (os ++ (ws.take left).map (wordOperand want)) := by
  induction left generalizing ws given st with
  | zero =>
      refine ⟨[], st, ?_, .refl st, ?_, fun n os _ => (List.append_nil os).symm ▸ .nil⟩
      · rw [decide_eq_true (Nat.zero_le _)]
        rfl
      · rw [decide_eq_true (Nat.zero_le _)]
        exact .words h
  | succ left ih =>
      cases ws with
      | nil =>
          obtain ⟨st', hrun, hpass, hrest⟩ := run_noWord levels h want (prev + given)
          refine ⟨[], st', ?_, hpass, hrest ▸ .none, fun n os _ =>
            (List.append_nil os).symm ▸ .nil⟩
          rw [takeArgs, StateT.run_bind, hrun]
          rfl
      | cons w ws =>
          obtain ⟨code, st₁, hrun, hpass, hspells, hpush⟩ := run_word hst h hwant (prev + given)
          obtain ⟨rest, st₂, hrun', hpass', hleft, hlays⟩ :=
            ih (hst.passes hpass) hspells (given + 1)
          have hmore : decide (left + 1 ≤ (w :: ws).length) = decide (left ≤ ws.length) := by
            simp only [List.length_cons, Nat.add_le_add_iff_right]
          rw [hmore]
          refine ⟨code ++ rest, st₂, ?_, hpass.trans hpass', hleft, fun n os hn => ?_⟩
          · rw [takeArgs, StateT.run_bind, hrun]
            change StateT.run (takeArgs (nested (levels + 1)) want prev left (given + 1) >>= _) st₁ = _
            rw [StateT.run_bind, hrun']
            simp only [List.take_succ_cons, List.length_cons, Nat.add_comm, Nat.add_left_comm]
            rfl
          · simp only [List.take_succ_cons, List.length_cons] at hn
            rw [List.take_succ_cons, List.map_cons, List.append_cons]
            refine .push (hpush.mono hpass'.names) (by omega) (hlays n _ ?_)
            rw [List.length_append, List.length_singleton]
            omega

/-- Words that are not wanted leave no code. -/
theorem run_dropArgs (h : Spells ws st.cursor.rest e) (prev : Nat) {fuel : Nat}
    (hfuel : ws.length < fuel) :
    ∃ st', (dropArgs (nested (levels + 1)) prev fuel).run st = ([], st') ∧ Passes st st' ∧
      st'.cursor.rest = e := by
  induction fuel generalizing ws st with
  | zero => cases hfuel
  | succ fuel ih =>
      cases ws with
      | nil =>
          obtain ⟨st', hrun, hpass, hrest⟩ := run_noWord levels h .nothing prev
          refine ⟨st', ?_, hpass, hrest⟩
          rw [dropArgs, StateT.run_bind, hrun]
          rfl
      | cons w ws =>
          obtain ⟨r, line, hr, hle, hrun⟩ := run_argument_word (k := nested levels) h .nothing prev
          have hpass : Passes st (st.goTo r line) :=
            ⟨.refl _, Nat.le_trans (Nat.le_add_left r.length w.length) hle⟩
          obtain ⟨st', hrun', hpass', hrest⟩ :=
            ih (show Spells ws (st.goTo r line).cursor.rest e from hr) (Nat.lt_of_succ_lt_succ hfuel)
          refine ⟨st', ?_, hpass.trans hpass', hrest⟩
          have harg : ((nested (levels + 1)).arg .nothing prev).run st =
              (some [], st.goTo r line) := hrun
          rw [dropArgs, StateT.run_bind, harg]
          change StateT.run (dropArgs (nested (levels + 1)) prev fuel >>= _) (st.goTo r line) = _
          rw [StateT.run_bind, hrun']
          rfl

/-- Words that are left at the end of a statement leave no code. -/
theorem run_surplusArgs (levels : Nat) {more : Bool} (h : Left e ws more st.cursor.rest)
    (prev : Nat) :
    ∃ st', (surplusArgs (nested (levels + 1)) more prev).run st = ([], st') ∧ Passes st st' ∧
      st'.cursor.rest = e := by
  cases hmore : more with
  | false =>
      subst hmore
      generalize hs : st.cursor.rest = s at h
      cases h with
      | none => exact ⟨st, rfl, .refl st, hs⟩
  | true =>
      subst hmore
      generalize hs : st.cursor.rest = s at h
      cases h with
      | words h =>
          subst hs
          exact run_dropArgs h prev (Nat.lt_succ_of_le h.count_le)

end Words

end ConsoleScript.Compile
