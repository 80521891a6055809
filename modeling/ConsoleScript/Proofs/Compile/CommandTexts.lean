import ConsoleScript.Proofs.Compile.Commands

/-!
Texts that call commands with literal words: a statement by itself, a whole text, and a text in
parentheses. Each is compiled to the code of the operands and the call.
-/

namespace ConsoleScript.Compile

open Bytecode

/-- A word that stands for the sign of an assignment. -/
def isSign (w : Bytes) : Bool := Bytes.byteAt w 0 == code '=' && Bytes.byteAt w 1 == 0

section Texts

variable {ws : List Bytes} {s e : Bytes}

theorem of_wordLengthIn_ne_zero {closers : Bytes} {c : UInt8}
    (h : Syntax.wordLengthIn closers (c :: s) ≠ 0) :
    Syntax.endsWord c = false ∧ Syntax.startsComment (c :: s) = false := by
  rw [Syntax.wordLengthIn] at h
  cases hend : Syntax.endsWord c || Syntax.startsComment (c :: s) with
  | true =>
      rw [hend, if_pos rfl] at h
      exact absurd rfl h
  | false => exact Bool.or_eq_false_iff.mp hend

theorem startsComment_eq (c : UInt8) (s : Bytes) :
    Syntax.startsComment (c :: s) = (c == 0x2F && Bytes.byteAt s 0 == 0x2F) := by
  unfold Syntax.startsComment
  split
  next h =>
    cases h
    rfl
  next h =>
    cases s with
    | nil => exact (Bool.and_false _).symm
    | cons d s =>
        refine (Bool.eq_false_iff.mpr fun hcd => h s ?_).symm
        rw [Bool.and_eq_true, beq_iff_eq, beq_iff_eq] at hcd
        obtain ⟨rfl, hd⟩ := hcd
        cases hd
        rfl

/-- A text that spells words is no assignment if its first word is not the sign of one. -/
theorem not_isAssignment (h : Spells ws s e) (hsign : ∀ w ∈ ws.head?, isSign w = false)
    (line : Nat) (name : Bytes) :
    isAssignment { rest := skipBlanks false s, line, name } = false := by
  have hequals (t : Bytes) :
      Syntax.wordLength (code '=' :: t) = 1 + Syntax.wordLengthIn [] t := rfl
  cases h with
  | nil hs hp hw =>
      rw [hs]
      cases e with
      | nil => rfl
      | cons c e =>
          refine Bool.and_eq_false_imp.mpr fun hc => ?_
          obtain rfl : c = code '=' := beq_iff_eq.mp hc
          rw [hequals] at hw
          omega
  | @cons w ws s r e hs hp hw hne hr =>
      rw [hs]
      obtain ⟨c, w, rfl⟩ := List.exists_cons_of_ne_nil hne
      refine Bool.and_eq_false_imp.mpr fun hc => ?_
      obtain rfl : c = code '=' := beq_iff_eq.mp hc
      have hsign := hsign _ rfl
      cases w with
      | nil => cases hsign
      | cons d w =>
          have hd : (d == 0) = false := by
            have hone : isSign (code '=' :: d :: w) = (d == 0) := rfl
            rwa [hone] at hsign
          simp only [List.cons_append, hequals, List.length_cons] at hw
          obtain ⟨hend, hcomment⟩ := of_wordLengthIn_ne_zero
            (show Syntax.wordLengthIn [] (d :: (w ++ r)) ≠ 0 by omega)
          rw [startsComment_eq] at hcomment
          simp only [Syntax.endsWord, Syntax.isGap, Bool.or_eq_false_iff] at hend
          obtain ⟨⟨-, hsemi⟩, ⟨⟨hblank, htab⟩, hcr⟩, hlf⟩ := hend
          have hpeek : (Cursor.mk (code '=' :: d :: w ++ r) line name).peek 1 = d := rfl
          have hpeek' : (Cursor.mk (code '=' :: d :: w ++ r) line name).peek 2 =
              Bytes.byteAt (w ++ r) 0 := rfl
          have hslash : code '/' = 0x2F := rfl
          simp only [hpeek, hpeek', hslash, hcomment, hsemi, hblank, htab, hcr, hlf, hd, Bool.or_self]

end Texts

section Statements

variable {levels n prev self : Nat} {name e : Bytes} {ws : List Bytes} {st : State} {id : Ident}
  {sig : Signature} {action : Action}

/-- The first word of a statement that begins with a byte. -/
def firstWordAt (k : Nested) (prev : Nat) (c : UInt8) : CompileM (Option Head) := do
  if c == Syntax.quote then
    let s ← cutString
    return some (if s.isEmpty then .computed (viewCode []) else .bare s)
  else if c == code '$' || c == code '(' || c == code '[' then
    return (← argument k .head prev).map .computed
  else
    let word ← cutWord
    if word.isEmpty then return none else return some (.bare word)

/-- The first word goes by the byte behind blanks and comments. -/
theorem run_firstWord_at (k : Nested) (prev : Nat) (st : State) :
    (firstWord k prev).run st =
      (firstWordAt k prev (Bytes.byteAt (skipBlanks false st.cursor.rest) 0)).run
        (st.goTo (skipBlanks false st.cursor.rest) st.cursor.line) := rfl

/-- The first word of a statement, if it is a bare one. -/
theorem run_firstWord_word {r : Bytes} (k : Nested) (prev : Nat)
    (hs : skipBlanks false st.cursor.rest = name ++ r) (hp : beginsPlain (name ++ r))
    (hw : Syntax.wordLength (name ++ r) = name.length) (hne : name ≠ []) :
    (firstWord k prev).run st =
      (some (.bare name), st.goTo r (st.cursor.line + name.count 0x0A)) := by
  rw [run_firstWord_at, hs, firstWordAt, if_neg (by simpa using hp.1),
    if_neg (by simpa [and_assoc] using hp.2)]
  have hword : StateT.run (m := Id) (do
      let word ← cutWord
      if word.isEmpty then return none else return some (.bare word))
      (st.goTo (name ++ r) st.cursor.line) = StateT.run (m := Id) (do
        if ((name ++ r).take (Syntax.wordLength (name ++ r))).isEmpty then return none
        else return some (Head.bare ((name ++ r).take (Syntax.wordLength (name ++ r)))))
        (st.goTo ((name ++ r).drop (Syntax.wordLength (name ++ r))) (st.cursor.line +
          ((name ++ r).take (Syntax.wordLength (name ++ r))).count 0x0A)) := rfl
  rw [hword, hw, List.take_left, List.drop_left, if_neg (by simpa using hne)]
  rfl

private theorem run_firstWord (h : Spells (name :: ws) st.cursor.rest e) (k : Nested) (prev : Nat) :
    ∃ r line, Spells ws r e ∧ name.length + r.length ≤ st.cursor.rest.length ∧
      (firstWord k prev).run st = (some (.bare name), st.goTo r line) := by
  cases h with
  | @cons _ _ _ r _ hs hp hw hne hr =>
      have hle := length_skipBlanks false st.cursor.rest
      rw [hs, List.length_append] at hle
      exact ⟨r, _, hr, hle, run_firstWord_word k prev hs hp hw hne⟩

/-- Behind the first word, a bare one, and blanks, a statement is a call if no sign of an assignment
is there. -/
theorem run_statement_bare (h : Spells (name :: ws) st.cursor.rest e)
    (hsign : ∀ w ∈ ws.head?, isSign w = false) (levels : Nat) (view : Bool) (prev : Nat) :
    ∃ r line, Spells ws r e ∧ name.length + r.length ≤ st.cursor.rest.length ∧
      (statement (nested (levels + 1)) view prev).run st =
        (callBare (nested (levels + 1)) view name prev).run (st.goTo (skipBlanks false r) line) := by
  obtain ⟨r, line, hr, hle, hhead⟩ := run_firstWord h (nested levels) prev
  refine ⟨r, line, hr, hle, ?_⟩
  have hstep : (statement (nested (levels + 1)) view prev).run st = StateT.run (m := Id) (do
      if isAssignment { rest := skipBlanks false r, line, name := st.cursor.name } then
        advance 1
        assignment (nested (levels + 1)) (.bare name) prev
      else callBare (nested (levels + 1)) view name prev)
      (st.goTo (skipBlanks false r) line) := by
    have hhead : ((nested (levels + 1)).head prev).run st = (some (.bare name), st.goTo r line) :=
      hhead
    rw [statement, StateT.run_bind, hhead]
    rfl
  rw [hstep, not_isAssignment hr hsign, if_neg Bool.false_ne_true]

theorem run_callBare_command (k : Nested) (view : Bool) (prev : Nat)
    (hfound : st.table.lookup? name = some (self, id)) (hrole : id.role = .command sig action) :
    (callBare k view name prev).run st =
      (commandArgs k sig.toArray self prev ((sig.length + 2) * (maxArgs + 2)) 0 {}).run st := by
  have hget (f : State → CompileM Statement) : (get >>= f).run st = (f st).run st := rfl
  rw [callBare, hget]
  simp only [hfound, hrole]

/-- A statement that calls a command with literal words. -/
theorem run_statement (hst : st.table.Founded .layout) (hshort : st.cursor.rest.length < operandLimit)
    (hdeep : st.cursor.rest.length + 3 ≤ levels) (h : Spells (name :: ws) st.cursor.rest e)
    (hfound : st.table.lookup? name = some (self, id)) (hrole : id.role = .command sig action)
    (hsig : sig.Built) (hslots : sig.slots ≤ maxArgs) (hsign : ∀ w ∈ ws.head?, isSign w = false)
    (hn : maxArgs ≤ n) (hgroup : maxArgs + sig.groupSize ≤ n + 1) (view : Bool) (prev : Nat) :
    ∃ code op os words more st', (statement (nested (levels + 1)) view prev).run st =
        ((code ++ [.instr (callInstr op os.length self)], more), st') ∧
      Passes st st' ∧ Lays st'.table n [] code os ∧ Called self ws sig op os ∧
      Left e words more st'.cursor.rest := by
  have hpos : 0 < name.length := by
    cases h
    exact List.length_pos_iff.mpr ‹_›
  obtain ⟨r, line, hr, hle, hstep⟩ := run_statement_bare h hsign levels view prev
  have hlen := length_skipBlanks false r
  have hpass : Passes st (st.goTo (skipBlanks false r) line) :=
    ⟨.refl _, show (skipBlanks false r).length ≤ st.cursor.rest.length by omega⟩
  have hready : Ready levels (st.goTo (skipBlanks false r) line) :=
    ⟨hst, show (skipBlanks false r).length < operandLimit by omega,
      show (skipBlanks false r).length + 4 ≤ levels by omega⟩
  obtain ⟨code, op, os, words, more, st', hrun, hpass', hlays, hcalled, hleft⟩ := run_commandArgs
    hsig hslots hready (Table.lt_size_of_get? (Table.get?_of_lookup? hfound)) hr.skip hn hgroup prev
  refine ⟨code, op, os, words, more, st', ?_, hpass.trans hpass', hlays, hcalled, hleft⟩
  have hfound' : (st.goTo (skipBlanks false r) line).table.lookup? name = some (self, id) := hfound
  rw [hstep, run_callBare_command _ view prev hfound' hrole]
  exact hrun

theorem run_endOfStatement_text (h : st.cursor.rest = []) (fuel : Nat) :
    ∃ line, (endOfStatement 0 (fuel + 1)).run st = (true, st.goTo [] line) := by
  obtain ⟨⟨rest, line, name⟩, table, warnings⟩ := st
  cases h
  exact ⟨_, rfl⟩

private theorem run_endOfStatement_group {r : Bytes} (h : st.cursor.rest = code ')' :: r)
    (fuel : Nat) :
    (endOfStatement (code ')') (fuel + 1)).run st = (true, st.goTo r st.cursor.line) := by
  obtain ⟨⟨rest, line, name⟩, table, warnings⟩ := st
  cases h
  rfl

/-- Statements that consist of one, whose words are followed by the end of all of them. -/
theorem run_statements_one {levels prev : Nat} {view more : Bool} {closing : UInt8} {e r : Bytes}
    {words : List Bytes} {code : Code} {st st₁ : State}
    (hrun : (statement (nested (levels + 1)) view prev).run st = ((code, more), st₁))
    (hpass : Passes st st₁) (hleft : Left e words more st₁.cursor.rest)
    (hend : closing = 0 ∧ e = [] ∧ r = [] ∨ closing = ConsoleScript.code ')' ∧
      e = ConsoleScript.code ')' :: r) :
    ∃ st', (statements (nested (levels + 1)) view closing prev).run st = (code, st') ∧
      Passes st st' ∧ Passes st₁ st' ∧ st'.cursor.rest = r := by
  obtain ⟨st₂, hrun₂, hpass₂, hrest⟩ := run_surplusArgs levels hleft prev
  obtain ⟨st₃, hrun₃, htable, hrest₃⟩ : ∃ st₃,
      (endOfStatement closing (st₁.cursor.rest.length + 1)).run st₂ = (true, st₃) ∧
        st₃.table = st₂.table ∧ st₃.cursor.rest = r := by
    rcases hend with ⟨rfl, rfl, rfl⟩ | ⟨rfl, rfl⟩
    · obtain ⟨line, hrun₃⟩ := run_endOfStatement_text hrest st₁.cursor.rest.length
      exact ⟨_, hrun₃, rfl, rfl⟩
    · exact ⟨_, run_endOfStatement_group hrest _, rfl, rfl⟩
  have hle : st₃.cursor.rest.length ≤ st₂.cursor.rest.length := by
    rw [hrest₃, hrest]
    rcases hend with ⟨-, rfl, rfl⟩ | ⟨-, rfl⟩
    · exact Nat.le_refl _
    · exact Nat.le_succ _
  have hpass₃ : Passes st₁ st₃ := hpass₂.trans ⟨htable ▸ .refl _, hle⟩
  refine ⟨st₃, ?_, hpass.trans hpass₃, hpass₃, hrest₃⟩
  have hstatements : (statements (nested (levels + 1)) view closing prev).run st =
      (statementsFrom (nested (levels + 1)) view closing prev (st.cursor.rest.length + 1)).run st := rfl
  rw [hstatements, statementsFrom, StateT.run_bind, hrun]
  have hcursor : (cursor).run st₁ = (st₁.cursor, st₁) := rfl
  change StateT.run (cursor >>= _) st₁ = _
  rw [StateT.run_bind, hcursor]
  change StateT.run (surplusArgs (nested (levels + 1)) more prev >>= _) st₁ = _
  rw [StateT.run_bind, hrun₂]
  change StateT.run (endOfStatement closing (st₁.cursor.rest.length + 1) >>= _) st₂ = _
  rw [StateT.run_bind, hrun₃]
  change (code ++ [], st₃) = _
  rw [List.append_nil]

/-- Statements that consist of one call of a command with literal words. -/
theorem run_statements (hst : st.table.Founded .layout)
    (hshort : st.cursor.rest.length < operandLimit) (hdeep : st.cursor.rest.length + 3 ≤ levels)
    (h : Spells (name :: ws) st.cursor.rest e)
    (hfound : st.table.lookup? name = some (self, id)) (hrole : id.role = .command sig action)
    (hsig : sig.Built) (hslots : sig.slots ≤ maxArgs) (hsign : ∀ w ∈ ws.head?, isSign w = false)
    (hn : maxArgs ≤ n) (hgroup : maxArgs + sig.groupSize ≤ n + 1) (view : Bool) (prev : Nat)
    {closing : UInt8} {r : Bytes}
    (hend : closing = 0 ∧ e = [] ∧ r = [] ∨ closing = code ')' ∧ e = code ')' :: r) :
    ∃ code op os st', (statements (nested (levels + 1)) view closing prev).run st =
        (code ++ [.instr (callInstr op os.length self)], st') ∧
      Passes st st' ∧ Lays st'.table n [] code os ∧ Called self ws sig op os ∧
      st'.cursor.rest = r := by
  obtain ⟨code, op, os, words, more, st₁, hrun, hpass, hlays, hcalled, hleft⟩ :=
    run_statement hst hshort hdeep h hfound hrole hsig hslots hsign hn hgroup view prev
  obtain ⟨st', hrun', hpass', hpass₁, hrest⟩ := run_statements_one hrun hpass hleft hend
  exact ⟨code, op, os, st', hrun', hpass', hlays.mono hpass₁.names (Nat.le_refl n), hcalled, hrest⟩

end Statements

section Texts

theorem run_bind_eq {α β : Type} {m : CompileM α} {f : α → CompileM β} {st st' : State} {a : α}
    (h : m.run st = (a, st')) : (m >>= f).run st = (f a).run st' := by
  rw [StateT.run_bind, h]
  rfl

/-- A text of one statement behind which no argument is left is compiled to the code of the statement,
with the names and the warnings of the statement. -/
theorem program_statement {t : Table} {src label r : Bytes} {code : Code} {more : Bool} {line : Nat}
    {t' : Table} {st : State} (hst : st = { cursor := { rest := src, name := label }, table := t })
    (hrun : (statement (nested (src.length + 4)) false 0).run st =
      ((code, more), State.goTo { st with table := t' } r line))
    (hleft : Left [] [] more r) :
    ∃ st', program t src label = (code, st') ∧ st'.table = t' ∧ st'.warnings = [] := by
  subst hst
  let st₁ := State.goTo { cursor := { rest := src, name := label }, table := t' } r line
  have hsurplus : ∃ line₂, (surplusArgs (nested (src.length + 4)) more 0).run st₁ =
      ([], st₁.goTo [] line₂) := by
    cases hmore : more with
    | false =>
        subst hmore
        cases hleft
        exact ⟨line, rfl⟩
    | true =>
        subst hmore
        cases hleft with
        | words hnone =>
            refine ⟨line, ?_⟩
            have hnone : ((nested (src.length + 4)).arg .nothing 0).run st₁ =
                (none, st₁.goTo [] line) := run_argument_none hnone .nothing 0
            change (dropArgs (nested (src.length + 4)) 0 (r.length + 1)).run st₁ = _
            rw [dropArgs, run_bind_eq hnone]
            rfl
  obtain ⟨line₂, hsurplus⟩ := hsurplus
  have hempty : (st₁.goTo [] line₂).cursor.rest = [] := rfl
  obtain ⟨line₃, hend⟩ := run_endOfStatement_text hempty r.length
  have hcursor (st : State) : cursor.run st = (st.cursor, st) := rfl
  refine ⟨(st₁.goTo [] line₂).goTo [] line₃, ?_, rfl, rfl⟩
  rw [program, statements, run_bind_eq (hcursor _), statementsFrom, run_bind_eq hrun,
    run_bind_eq (hcursor _), run_bind_eq hsurplus]
  change StateT.run (endOfStatement 0 (r.length + 1) >>= _) _ = _
  rw [run_bind_eq hend]
  change (_ ++ [], _) = _
  rw [List.append_nil]

end Texts

end ConsoleScript.Compile
