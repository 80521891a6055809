import ConsoleScript.Proofs.Compile.EntryStatements

/-!
Calls of commands that take any number of integers. Whatever separates the words behind the name of
such a command, its text is compiled to the literals of the integers that the words are read as and
one call; where there are no words, a zero stands in for the first one.
-/

namespace ConsoleScript.Compile

open Bytecode Syntax

/-- The letters of a command that takes any number of integers. -/
def integers : Signature := [.int, .again 1, .all]

/-- The literals of integers, one after another. -/
def intCodes (vs : List Int32) : Code := vs.flatMap intCode

/-- The arguments of a call with integers: at least one, which is zero if none is given. -/
def givenInts (vs : List Int32) : List Int32 := if vs = [] then [0] else vs

def integersCode (self : Nat) (vs : List Int32) : Code :=
  intCodes (givenInts vs) ++ [.instr (.call .comAll .null (givenInts vs).length self)]

section Arguments

variable {levels self prev : Nat} {w e : Bytes} {ws : List Bytes} {st : State}

/-- Behind the letters, the last of them takes what is left and calls the command. -/
theorem run_integers_last {cs : CallState} (hop : cs.given ≤ maxArgs)
    (hmore : cs.more = true → cs.given = maxArgs) (st : State) (prev self fuel : Nat) :
    (commandArgs (nested levels) integers.toArray self prev (fuel + 2) 1 cs).run st =
      ((cs.code ++ [.instr (.call .comAll .null cs.given self)], cs.more), st) := by
  have hstop : ¬(cs.more && decide (cs.given < maxArgs)) = true := by
    intro h
    rw [Bool.and_eq_true, decide_eq_true_iff] at h
    exact absurd (hmore h.1) (Nat.ne_of_lt h.2)
  have hnone : cs.given - maxArgs = 0 := by omega
  have hagain : commandArgs (nested levels) integers.toArray self prev (fuel + 2) 1 cs =
      commandArgs (nested levels) integers.toArray self prev (fuel + 1) 2 cs := by
    have hat : integers.toArray[1]? = some (.again 1) := rfl
    rw [commandArgs, hat]
    dsimp only
    rw [if_neg hstop, hnone, List.replicate_zero, List.flatten_nil, List.append_nil, Nat.sub_zero]
  have hrest : (restOfArgs (nested levels) prev cs.given cs.more).run st =
      (([], cs.given, cs.more), st) := by
    cases hm : cs.more with
    | false => rfl
    | true =>
        rw [restOfArgs, if_pos rfl, hmore hm, Nat.sub_self]
        rfl
  have hat : integers.toArray[2]? = some .all := rfl
  rw [hagain, commandArgs, hat, StateT.run_bind, hrest]
  change ((cs.code ++ [] ++ [.instr (.call .comAll .null cs.given self)], cs.more), st) = _
  rw [List.append_nil]

/-- The letter of an integer takes a word that is there. -/
theorem run_integers_word {cs : CallState} {r : Bytes} {line : Nat} (hmore : cs.more = true)
    (hword : ((nested (levels + 1)).arg .int (prev + cs.given)).run st =
      (some (intCode (Reading.int w)), st.goTo r line)) (self fuel : Nat) :
    (commandArgs (nested (levels + 1)) integers.toArray self prev (fuel + 1) 0 cs).run st =
      (commandArgs (nested (levels + 1)) integers.toArray self prev fuel 1
        { cs with code := cs.code ++ intCode (Reading.int w), given := cs.given + 1 }).run
        (st.goTo r line) := by
  have hat : integers.toArray[0]? = some .int := rfl
  have hwant : ((nested (levels + 1)).arg (wantOf .int) (prev + cs.given)).run st =
      (some (intCode (Reading.int w)), st.goTo r line) := hword
  have hletter : (letterArg (nested (levels + 1)) .int (0 + 1 == integers.toArray.size) prev cs).run
      st = ({ cs with code := cs.code ++ intCode (Reading.int w), given := cs.given + 1 },
        st.goTo r line) := by
    rw [letterArg, argIfMore, hmore, if_pos rfl, StateT.run_bind, hwant]
    rfl
  rw [commandArgs, hat]
  dsimp only
  rw [StateT.run_bind, hletter]
  rfl

/-- The letter of an integer finds that no word is left; only the first one is made up for. -/
theorem run_integers_noWord {cs : CallState} {line : Nat} (hmore : cs.more = true)
    (hnone : ((nested (levels + 1)).arg .int (prev + cs.given)).run st = (none, st.goTo e line))
    (self fuel : Nat) :
    (commandArgs (nested (levels + 1)) integers.toArray self prev (fuel + 1) 0 cs).run st =
      (commandArgs (nested (levels + 1)) integers.toArray self prev fuel 1
        (if cs.again then { cs with more := false }
          else { cs with
            code := cs.code ++ intCode 0
            given := cs.given + 1
            absent := cs.absent + 1
            more := false })).run (st.goTo e line) := by
  have hat : integers.toArray[0]? = some .int := rfl
  have hwant : ((nested (levels + 1)).arg (wantOf .int) (prev + cs.given)).run st =
      (none, st.goTo e line) := hnone
  have hletter : (letterArg (nested (levels + 1)) .int (0 + 1 == integers.toArray.size) prev cs).run
      st = (if cs.again then { cs with more := false }
          else { cs with
            code := cs.code ++ intCode 0
            given := cs.given + 1
            absent := cs.absent + 1
            more := false }, st.goTo e line) := by
    rw [letterArg, argIfMore, hmore, if_pos rfl, StateT.run_bind, hwant]
    cases cs.again <;> rfl
  rw [commandArgs, hat]
  dsimp only
  rw [StateT.run_bind, hletter]
  rfl

/-- While there are words and room for their integers, the letters are repeated. -/
theorem run_integers {cs : CallState} (h : Spells ws st.cursor.rest e) (hmore : cs.more = true)
    (hagain : ws = [] → cs.again = true) (hroom : cs.given < maxArgs)
    (hlength : cs.given + ws.length ≤ maxArgs) (prev self : Nat) {fuel : Nat}
    (hfuel : 2 * ws.length + 3 ≤ fuel) :
    ∃ more r line, (commandArgs (nested (levels + 1)) integers.toArray self prev fuel 0 cs).run st =
        ((cs.code ++ intCodes (ws.map Reading.int) ++
          [.instr (.call .comAll .null (cs.given + ws.length) self)], more), st.goTo r line) ∧
      Left e [] more r := by
  induction ws generalizing st cs fuel with
  | nil =>
      obtain ⟨fuel, rfl⟩ : ∃ n, fuel = n + 3 := ⟨fuel - 3, by simp at hfuel; omega⟩
      have hnone := run_argument_none (k := nested levels) h .int (prev + cs.given)
      refine ⟨false, e, st.cursor.line, ?_, .none⟩
      have hlast := @run_integers_last (levels + 1) { cs with more := false } (Nat.le_of_lt hroom)
        fun h => absurd h Bool.false_ne_true
      rw [run_integers_noWord hmore hnone, if_pos (hagain rfl), hlast]
      change ((cs.code ++ _, false), _) = ((cs.code ++ [] ++ _, false), _)
      rw [List.append_nil]
      rfl
  | cons w ws ih =>
      rw [List.length_cons] at hfuel hlength
      obtain ⟨fuel, rfl⟩ : ∃ n, fuel = n + 3 := ⟨fuel - 3, by omega⟩
      obtain ⟨r, line, hr, -, hword⟩ :=
        run_argument_word (k := nested levels) h .int (prev + cs.given)
      have hcode : cs.code ++ intCodes ((w :: ws).map Reading.int) =
          cs.code ++ intCode (Reading.int w) ++ intCodes (ws.map Reading.int) := by
        rw [intCodes, List.map_cons, List.flatMap_cons, ← List.append_assoc]
        rfl
      rw [run_integers_word hmore hword, hcode]
      by_cases hlast : cs.given + 1 < maxArgs
      · obtain ⟨more, r', line', hrun, hleft⟩ := @ih (st.goTo r line)
          { cs with
            code := cs.code ++ intCode (Reading.int w), given := cs.given + 1, again := true }
          hr hmore (fun _ => rfl) hlast (by simp only; omega) (fuel + 1) (by omega)
        refine ⟨more, r', line', ?_, hleft⟩
        have hat : integers.toArray[1]? = some (.again 1) := rfl
        have hcond : (cs.more && decide (cs.given + 1 < maxArgs)) = true := by
          rw [hmore, decide_eq_true hlast]
          rfl
        rw [commandArgs, hat]
        dsimp only
        rw [if_pos hcond, hrun, Nat.add_right_comm, Nat.add_assoc]
        rfl
      · obtain rfl : ws = [] := List.length_eq_zero_iff.mp (by omega)
        refine ⟨true, r, line, ?_, .words hr⟩
        rw [run_integers_last (by simp only; omega) (fun _ => by simp only; omega)]
        simp only [hmore, List.map_nil, intCodes, List.flatMap_nil, List.append_nil,
          List.length_singleton]

/-- A call of a command that takes integers. -/
theorem run_integers_call (h : Spells ws st.cursor.rest e) (hlength : ws.length ≤ maxArgs)
    (prev self : Nat) {fuel : Nat} (hfuel : 2 * ws.length + 3 ≤ fuel) :
    ∃ more r line, (commandArgs (nested (levels + 1)) integers.toArray self prev fuel 0 {}).run st =
        ((integersCode self (ws.map Reading.int), more), st.goTo r line) ∧ Left e [] more r := by
  by_cases hne : ws = []
  · subst hne
    obtain ⟨fuel, rfl⟩ : ∃ n, fuel = n + 3 := ⟨fuel - 3, by simp at hfuel; omega⟩
    have hnone := run_argument_none (k := nested levels) h .int (prev + 0)
    refine ⟨false, e, st.cursor.line, ?_, .none⟩
    let cs : CallState := {}
    have hmore : cs.more = true := rfl
    rw [run_integers_noWord hmore hnone, if_neg Bool.false_ne_true]
    exact @run_integers_last _ { code := intCode 0, given := 1, absent := 1, more := false }
      (by decide) (fun h => absurd h Bool.false_ne_true) _ prev self fuel
  · obtain ⟨more, r, line, hrun, hleft⟩ := @run_integers levels _ _ _ {} h rfl
      (fun h => absurd h hne) (by decide) ((Nat.zero_add _).symm ▸ hlength) prev self _ hfuel
    refine ⟨more, r, line, ?_, hleft⟩
    have hgiven : givenInts (ws.map Reading.int) = ws.map Reading.int :=
      if_neg (mt List.map_eq_nil_iff.mp hne)
    rw [hrun, integersCode, hgiven, List.length_map]
    change (([] ++ intCodes _ ++ [Piece.instr (.call .comAll .null (0 + ws.length) self)], more), _) = _
    rw [Nat.zero_add, List.nil_append]

end Arguments

section Texts

variable {self : Nat} {name src : Bytes} {ws : List Bytes} {t : Table} {id : Ident} {action : Action}

/-- A text that is a call of a command that takes integers is compiled to the integers and the call;
no name is new, and nothing is reported. -/
theorem program_integers (h : Spells (name :: ws) src [])
    (hfound : t.lookup? name = some (self, id)) (hrole : id.role = .command integers action)
    (hsign : ∀ w ∈ ws.head?, isSign w = false) (hlength : ws.length ≤ maxArgs) (label : Bytes) :
    ∃ st, program t src label = (integersCode self (ws.map Reading.int), st) ∧ st.table = t ∧
      st.warnings = [] := by
  let st : State := { cursor := { rest := src, name := label }, table := t }
  have hst : Spells (name :: ws) st.cursor.rest [] := h
  have hfuel {n : Nat} (h : n ≤ maxArgs) : 2 * n + 3 ≤ (integers.length + 2) * (maxArgs + 2) := by
    have hfuel : (integers.length + 2) * (maxArgs + 2) = 135 := rfl
    unfold maxArgs at h
    omega
  obtain ⟨r, line, hr, -, hstatement⟩ :=
    run_statement_bare hst hsign (src.length + 3) false 0
  have hskipped : Spells ws (st.goTo (skipBlanks false r) line).cursor.rest [] := hr.skip
  have hfound' : (st.goTo (skipBlanks false r) line).table.lookup? name = some (self, id) := hfound
  obtain ⟨more, r', line', hcall, hleft⟩ :=
    run_integers_call hskipped hlength 0 self (hfuel hlength)
  rw [run_callBare_command _ false 0 hfound' hrole, hcall] at hstatement
  exact program_statement rfl hstatement hleft

end Texts

section Words

variable {w r e : Bytes} {ws : List Bytes}

/-- A bare word is one of a text if it ends there or a blank follows. -/
theorem spells_bareWord (hw : Entry.IsBareWord w) (hr : r = [] ∨ r.head? = some 0x20)
    (h : Spells ws r e) : Spells (w :: ws) (w ++ r) e := by
  rcases hr with rfl | hr
  · rw [List.append_nil]
    have hskip : skipBlanks false w = w := by
      obtain ⟨c, w, rfl⟩ := List.exists_cons_of_ne_nil hw.nonempty
      have hlength := hw.whole
      have hends : wordLengthIn [] (c :: w) ≠ 0 := by
        rw [← wordLength, hlength]
        exact Nat.succ_ne_zero _
      obtain ⟨hend, hcomment⟩ := of_wordLengthIn_ne_zero hends
      have hgap : (c == 0x20 || c == 0x09 || c == 0x0D) = false := by
        simp only [endsWord, isGap, Bool.or_eq_false_iff] at hend ⊢
        exact hend.2.1
      rw [skipBlanks, hgap, hcomment]
      rfl
    refine .cons (r := []) ?_ ?_ ?_ hw.nonempty h <;> rw [List.append_nil]
    · exact hskip
    · exact hw.start
    · exact hw.whole
  · obtain ⟨r, rfl⟩ : ∃ r', r = 0x20 :: r' := by
      cases r with
      | nil => cases hr
      | cons c r =>
          cases hr
          exact ⟨r, rfl⟩
    exact .cons (hw.skipBlanks_blank r) (hw.beginsPlain_blank r) (hw.wordLength_blank r) hw.nonempty h

/-- Bare words with blanks between them are the words of their text. -/
theorem spells_joinWith (hws : ∀ w ∈ ws, Entry.IsBareWord w) :
    Spells ws (Bytes.joinWith [0x20] ws) [] := by
  have hnone : Spells [] [] [] := .nil rfl (by decide) rfl
  induction ws with
  | nil => exact hnone
  | cons w ws ih =>
      obtain ⟨hw, hws⟩ := List.forall_mem_cons.mp hws
      cases ws with
      | nil =>
          have hone := spells_bareWord hw (.inl rfl) hnone
          rwa [List.append_nil] at hone
      | cons w' ws =>
          have hblank : Spells (w' :: ws) (0x20 :: Bytes.joinWith [0x20] (w' :: ws)) [] := by
            cases ih hws with
            | cons hs hp hl hne hr => exact .cons (by rw [← hs]; rfl) hp hl hne hr
          have hcons := spells_bareWord hw (.inr rfl) hblank
          rwa [Bytes.joinWith, List.append_assoc]

theorem isBareWord_printInt (v : Int32) : Entry.IsBareWord (Printing.int v) := by
  obtain ⟨hbytes, hne⟩ : (∀ c ∈ Printing.int v, Byte.isWordByte c = true) ∧ Printing.int v ≠ [] :=
    wordBytes_intText false 0 v
  have hstart := beginsPlain_append hbytes hne []
  have hwhole := wordLength_append (r := []) hbytes rfl
  rw [List.append_nil] at hstart hwhole
  exact ⟨hne, hstart, hwhole⟩

theorem isSign_printInt (v : Int32) : isSign (Printing.int v) = false := by
  obtain ⟨hbytes, hne⟩ : (∀ c ∈ Printing.int v, Byte.isWordByte c = true) ∧ Printing.int v ≠ [] :=
    wordBytes_intText false 0 v
  obtain ⟨c, w, hw⟩ := List.exists_cons_of_ne_nil hne
  rw [hw] at hbytes ⊢
  refine Bool.and_eq_false_imp.mpr fun hc => ?_
  exact absurd (beq_iff_eq.mp hc) (ne_of_isWordByte (hbytes c List.mem_cons_self) rfl)

end Words

end ConsoleScript.Compile
