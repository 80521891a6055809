import ConsoleScript.Proofs.Compile.CommandTexts

/-!
Texts that call what an alias names, with literal words. The look-up in front becomes code that
pushes the value of the alias; the words are pushed as texts, and the call takes them all.
-/

namespace ConsoleScript.Compile

open Bytecode

/-- A text begins with the look-up of a name, and goes on with literal words. -/
def SpellsLookup (name : Bytes) (ws : List Bytes) (s e : Bytes) : Prop :=
  ∃ r, s = code '$' :: (name ++ r) ∧ name ≠ [] ∧ beginsPlain (name ++ r) ∧
    Syntax.wordLength (name ++ r) = name.length ∧ Spells ws r e

/-- The code of a call of what an alias names. -/
def computedCall (index : Nat) (args : Code) (n : Nat) : Code :=
  plain .lookup .text index ++ args ++ plain .callNamed .null n

section Heads

variable {levels prev j : Nat} {name e : Bytes} {ws : List Bytes} {st : State} {id : Ident}

private theorem run_intern_known (hfound : st.table.find? name = some j) :
    (intern name).run st = (j, st) := by
  have hrun : (intern name).run st = StateT.run (m := Id) (do
      if !(st.table.intern name).2.1 then
        note (utf8 "number " ++ name ++ utf8 " is not a valid identifier name")
      return (st.table.intern name).1) { st with table := (st.table.intern name).2.2 } := rfl
  have hintern : st.table.intern name = (j, true, st.table) := by
    rw [Table.intern, hfound]
  rw [hrun, hintern]
  rfl

private theorem run_lookupNamed_alias (k : Nested) (hfound : st.table.find? name = some j)
    (hid : st.table.get? j = some id) (hrole : id.role = .alias) (hj : maxArgs ≤ j) (prev : Nat) :
    (lookupNamed k name .head prev).run st = (plain .lookup .text j, st) := by
  have hroleOf : (roleOf j).run st = (.alias, st) := by
    have hrun : (roleOf j).run st = ((st.table.get? j).elim .alias Ident.role, st) := rfl
    rw [hrun, hid, ← hrole]
    rfl
  rw [lookupNamed, StateT.run_bind, run_intern_known hfound]
  change StateT.run (roleOf j >>= _) st = _
  rw [StateT.run_bind, hroleOf]
  change (plain (if j < maxArgs then .lookupArg else .lookup) .text j ++ [], st) = _
  rw [if_neg (Nat.not_lt.mpr hj), List.append_nil]

/-- A look-up behind one sign. -/
theorem run_lookup_one (k : Nested) {r : Bytes} (hs : st.cursor.rest = code '$' :: (name ++ r))
    (hne : name ≠ []) (hp : beginsPlain (name ++ r))
    (hw : Syntax.wordLength (name ++ r) = name.length) (hfound : st.table.find? name = some j)
    (hid : st.table.get? j = some id) (hrole : id.role = .alias) (hj : maxArgs ≤ j) (prev : Nat) :
    ∃ line, (lookup k .head prev).run st = (plain .lookup .text j, st.goTo r line) := by
  obtain ⟨hquote, hsign, hparen, hbracket⟩ := hp
  have hsigns : (st.cursor.rest.takeWhile (· == code '$')).length = 1 := by
    rw [hs, List.takeWhile_cons_of_pos (by decide)]
    obtain ⟨c, name', rfl⟩ := List.exists_cons_of_ne_nil hne
    have hc : c ≠ code '$' := hsign
    rw [List.cons_append, List.takeWhile_cons_of_neg (by simpa using hc)]
    rfl
  have hlookup : (lookup k .head prev).run st =
      (lookupOne k .head prev).run { st with cursor := st.cursor.advance 1 } := by
    have hrun : (lookup k .head prev).run st = StateT.run (m := Id) (do
        let signs := (st.cursor.rest.takeWhile (· == code '$')).length
        advance signs
        if signs ≤ 1 then lookupOne k .head prev
        else
          let name ← lookupOne k .textView prev
          let between := (List.replicate (signs - 2) (lookupComputed .textView)).flatten
          return name ++ between ++ lookupComputed .head) st := rfl
    rw [hrun, hsigns]
    rfl
  have hrest : (st.cursor.advance 1).rest = name ++ r := congrArg (List.drop 1) hs
  have hpeek : StateT.run (m := Id) peek { st with cursor := st.cursor.advance 1 } =
      (Bytes.byteAt (name ++ r) 0, { st with cursor := st.cursor.advance 1 }) := by
    rw [← hrest]
    rfl
  rw [hlookup, lookupOne, StateT.run_bind, hpeek]
  change ∃ line, StateT.run (m := Id) (if (Bytes.byteAt (name ++ r) 0 == code '(' ||
    Bytes.byteAt (name ++ r) 0 == code '[') = true then _ else _) _ = _
  rw [if_neg (by simpa using ⟨hparen, hbracket⟩), if_neg (by simpa using hquote)]
  refine ⟨((st.cursor.advance 1).advance name.length).line, ?_⟩
  have hword : cutWord.run { st with cursor := st.cursor.advance 1 } =
      (name, st.goTo r ((st.cursor.advance 1).advance name.length).line) := by
    have hrun : cutWord.run { st with cursor := st.cursor.advance 1 } =
        ((st.cursor.advance 1).rest.take (Syntax.wordLength (st.cursor.advance 1).rest),
          st.goTo ((st.cursor.advance 1).rest.drop (Syntax.wordLength (st.cursor.advance 1).rest))
            ((st.cursor.advance 1).advance
              (Syntax.wordLength (st.cursor.advance 1).rest)).line) := rfl
    rw [hrun, hrest, hw, List.take_left, List.drop_left]
  rw [StateT.run_bind, hword]
  change StateT.run (if name.isEmpty = true then invalidLookup k .head
    else lookupNamed k name .head prev) (st.goTo r _) = _
  rw [if_neg (by simpa using hne)]
  exact run_lookupNamed_alias k (show (st.goTo r _).table.find? name = some j from hfound) hid hrole hj
    prev

/-- The first word of a statement is what an alias is looked up for. -/
theorem run_firstWord_lookup (h : SpellsLookup name ws st.cursor.rest e)
    (hfound : st.table.find? name = some j) (hid : st.table.get? j = some id)
    (hrole : id.role = .alias) (hj : maxArgs ≤ j) (k : Nested) (prev : Nat) :
    ∃ r line, Spells ws r e ∧ r.length < st.cursor.rest.length ∧
      (firstWord k prev).run st = (some (.computed (plain .lookup .text j)), st.goTo r line) := by
  obtain ⟨r, hs, hne, hp, hw, hr⟩ := h
  obtain ⟨line, hlookup⟩ := run_lookup_one k hs hne hp hw hfound hid hrole hj prev
  refine ⟨r, line, hr, ?_, ?_⟩
  · rw [hs, List.length_cons, List.length_append]
    omega
  have hskip : skipBlanks false st.cursor.rest = st.cursor.rest := by
    rw [hs]
    rfl
  have hfront : Bytes.byteAt st.cursor.rest 0 = code '$' := by
    rw [hs]
    rfl
  have hcode : (argument k .head prev).run st = (some (plain .lookup .text j), st.goTo r line) := by
    rw [run_argument, hskip, hfront]
    change StateT.run (lookup k .head prev >>= _) st = _
    rw [StateT.run_bind, hlookup]
    rfl
  rw [run_firstWord_at, hskip, hfront]
  change StateT.run (argument k .head prev >>= _) st = _
  rw [StateT.run_bind, hcode]
  rfl

/-- A statement that calls what an alias names, with literal words. -/
theorem run_statement_lookup (hst : st.table.Founded .layout)
    (hshort : st.cursor.rest.length < operandLimit) (hdeep : st.cursor.rest.length + 3 ≤ levels)
    (h : SpellsLookup name ws st.cursor.rest e) (hfound : st.table.find? name = some j)
    (hid : st.table.get? j = some id) (hrole : id.role = .alias) (hj : maxArgs ≤ j)
    (hsign : ∀ w ∈ ws.head?, isSign w = false) (hlen : ws.length ≤ maxArgs) (view : Bool)
    (prev : Nat) :
    ∃ code words more st', (statement (nested (levels + 1)) view prev).run st =
        ((computedCall j code ws.length, more), st') ∧ Passes st st' ∧
      Left e words more st'.cursor.rest ∧
      ∀ n os, os.length + ws.length ≤ n → Lays st'.table n os code (os ++ ws.map .text) := by
  obtain ⟨r, line, hr, hle, hhead⟩ :=
    run_firstWord_lookup h hfound hid hrole hj (nested levels) prev
  have hskip := length_skipBlanks false r
  have hpass : Passes st (st.goTo (skipBlanks false r) line) :=
    ⟨.refl _, show (skipBlanks false r).length ≤ st.cursor.rest.length by omega⟩
  have hready : Ready levels (st.goTo (skipBlanks false r) line) :=
    ⟨hst, show (skipBlanks false r).length < operandLimit by omega,
      show (skipBlanks false r).length + 4 ≤ levels by omega⟩
  obtain ⟨code, st', hrun, hpass', hleft, hlays⟩ := run_takeArgs hready hr.skip .anyView (by decide)
    (prev + 1) maxArgs 0
  have htake : ws.take maxArgs = ws := List.take_of_length_le hlen
  rw [htake] at hrun hlays
  refine ⟨code, _, _, st', ?_, hpass.trans hpass', hleft, hlays⟩
  have hstep : (statement (nested (levels + 1)) view prev).run st = StateT.run (m := Id) (do
      if isAssignment { rest := skipBlanks false r, line, name := st.cursor.name } then
        advance 1
        assignment (nested (levels + 1)) (.computed (plain .lookup .text j)) prev
      else callComputed (nested (levels + 1)) (plain .lookup .text j) prev)
      (st.goTo (skipBlanks false r) line) := by
    have hhead : ((nested (levels + 1)).head prev).run st =
        (some (.computed (plain .lookup .text j)), st.goTo r line) := hhead
    rw [statement, StateT.run_bind, hhead]
    rfl
  rw [hstep, not_isAssignment hr hsign, if_neg Bool.false_ne_true, callComputed, StateT.run_bind,
    hrun, Nat.zero_add]
  rfl

/-- Statements that consist of one call of what an alias names. -/
theorem run_statements_lookup (hst : st.table.Founded .layout)
    (hshort : st.cursor.rest.length < operandLimit) (hdeep : st.cursor.rest.length + 3 ≤ levels)
    (h : SpellsLookup name ws st.cursor.rest []) (hfound : st.table.find? name = some j)
    (hid : st.table.get? j = some id) (hrole : id.role = .alias) (hj : maxArgs ≤ j)
    (hsign : ∀ w ∈ ws.head?, isSign w = false) (hlen : ws.length ≤ maxArgs) (view : Bool)
    (prev : Nat) :
    ∃ code st', (statements (nested (levels + 1)) view 0 prev).run st =
        (computedCall j code ws.length, st') ∧ Passes st st' ∧
      ∀ n os, os.length + ws.length ≤ n → Lays st'.table n os code (os ++ ws.map .text) := by
  obtain ⟨code, words, more, st₁, hrun, hpass, hleft, hlays⟩ := run_statement_lookup hst hshort
    hdeep h hfound hid hrole hj hsign hlen view prev
  obtain ⟨st', hrun', hpass', hpass₁, -⟩ :=
    run_statements_one hrun hpass hleft (.inl ⟨rfl, rfl, rfl⟩)
  exact ⟨code, st', hrun', hpass', fun n os hn => (hlays n os hn).mono hpass₁.names (Nat.le_refl n)⟩

end Heads

end ConsoleScript.Compile
