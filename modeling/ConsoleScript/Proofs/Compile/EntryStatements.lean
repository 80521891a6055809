import ConsoleScript.Proofs.Compile.Quoting
import ConsoleScript.Proofs.Number.Numerals

/-!
The statements of a config script, compiled. The statement of an entry is compiled to code that pushes
the value of the entry and writes it to the identifier of its name; a name that is new becomes an alias.
-/

namespace ConsoleScript

open Bytecode Syntax Compile

/-- A byte of words that are names or integers. -/
def Byte.isWordByte (c : UInt8) : Bool := isAlnum c || c == code '_' || c == code '-'

/-- A name of letters, digits and underscores that does not begin with a digit. -/
structure Entry.IsName (name : Bytes) : Prop where
  nonempty : name ≠ []
  bytes : ∀ c ∈ name, (Byte.isAlnum c || c == code '_') = true
  start : Byte.isDigit (Bytes.byteAt name 0) = false

theorem Entry.IsName.isNumeral {name : Bytes} (h : IsName name) : Reading.isNumeral name = false := by
  obtain ⟨c, s, rfl⟩ := List.exists_cons_of_ne_nil h.nonempty
  have hc := h.bytes c List.mem_cons_self
  have hdigit : Byte.isDigit c = false := h.start
  have hne (d : UInt8) (hd : (Byte.isAlnum d || d == code '_') = false) : (c == d) = false := by
    refine beq_eq_false_iff_ne.mpr ?_
    rintro rfl
    rw [hc] at hd
    cases hd
  simp only [Reading.isNumeral, hdigit, hne (code '+') rfl, hne (code '-') rfl, hne (code '.') rfl]
  rfl

theorem Entry.IsName.wordBytes {name : Bytes} (h : IsName name) :
    ∀ c ∈ name, Byte.isWordByte c = true := by
  intro c hc
  rw [Byte.isWordByte, h.bytes c hc, Bool.true_or]

/-- A text that is read as one word at the beginning of a statement. -/
structure Entry.IsBareWord (name : Bytes) : Prop where
  nonempty : name ≠ []
  start : beginsPlain name
  whole : wordLength name = name.length

/-- A name that is read as one word at the beginning of a statement, and is no number. -/
structure Entry.IsWord (name : Bytes) : Prop where
  nonempty : name ≠ []
  start : beginsPlain name
  whole : wordLength name = name.length
  isNumeral : Reading.isNumeral name = false

namespace Compile

section Words

variable {w r : Bytes}

theorem ne_of_isWordByte {c d : UInt8} (h : Byte.isWordByte c = true)
    (hd : Byte.isWordByte d = false) : c ≠ d := by
  rintro rfl
  rw [h] at hd
  cases hd

/-- Such bytes are read as one word. -/
theorem wordLength_append (hw : ∀ c ∈ w, Byte.isWordByte c = true) (hr : wordLength r = 0) :
    wordLength (w ++ r) = w.length := by
  induction w with
  | nil => exact hr
  | cons c w ih =>
      have hc := hw c List.mem_cons_self
      have hne (d : UInt8) (hd : Byte.isWordByte d = false) : (c == d) = false :=
        beq_eq_false_iff_ne.mpr (ne_of_isWordByte hc hd)
      have hcomment : startsComment (c :: (w ++ r)) = false := by
        rw [startsComment_eq, hne 0x2F rfl, Bool.false_and]
      have hstep : wordLength (c :: (w ++ r)) = 1 + wordLength (w ++ r) := by
        rw [wordLength, wordLengthIn, hcomment, endsWord, isGap, hne quote rfl, hne (code ';') rfl,
          hne 0x20 rfl, hne 0x09 rfl, hne 0x0D rfl, hne 0x0A rfl, hne (code '[') rfl,
          hne (code '(') rfl, hne (code ']') rfl, hne (code ')') rfl]
        rfl
      rw [List.cons_append, hstep, ih fun d hd => hw d (List.mem_cons_of_mem c hd), List.length_cons,
        Nat.add_comm]

theorem beginsPlain_append (hw : ∀ c ∈ w, Byte.isWordByte c = true) (hne : w ≠ []) (r : Bytes) :
    beginsPlain (w ++ r) := by
  obtain ⟨c, w, rfl⟩ := List.exists_cons_of_ne_nil hne
  have hc := hw c List.mem_cons_self
  exact ⟨ne_of_isWordByte hc rfl, ne_of_isWordByte hc rfl, ne_of_isWordByte hc rfl,
    ne_of_isWordByte hc rfl⟩

private theorem skipBlanks_append (hw : ∀ c ∈ w, Byte.isWordByte c = true) (hne : w ≠ [])
    (r : Bytes) :
    skipBlanks false (w ++ r) = w ++ r := by
  obtain ⟨c, w, rfl⟩ := List.exists_cons_of_ne_nil hne
  have hc := hw c List.mem_cons_self
  have hne (d : UInt8) (hd : Byte.isWordByte d = false) : (c == d) = false :=
    beq_eq_false_iff_ne.mpr (ne_of_isWordByte hc hd)
  have hcomment : startsComment (c :: (w ++ r)) = false := by
    rw [startsComment_eq, hne 0x2F rfl, Bool.false_and]
  rw [List.cons_append, skipBlanks, hcomment, hne 0x20 rfl, hne 0x09 rfl, hne 0x0D rfl]
  rfl

private theorem byteAt_append (hne : w ≠ []) (r : Bytes) :
    Bytes.byteAt (w ++ r) 0 = Bytes.byteAt w 0 := by
  obtain ⟨c, w, rfl⟩ := List.exists_cons_of_ne_nil hne
  rfl

private theorem startsComment_blank (c : UInt8) (w r : Bytes) (h : startsComment (c :: w) = false) :
    startsComment (c :: (w ++ 0x20 :: r)) = false := by
  rw [startsComment_eq] at h ⊢
  cases w with
  | nil => exact Bool.and_false _
  | cons d w => exact h

/-- A text that is one word is still read as that word in front of a blank. -/
theorem wordLengthIn_blank {closers : Bytes} (hw : wordLengthIn closers w = w.length) (r : Bytes) :
    wordLengthIn closers (w ++ 0x20 :: r) = w.length := by
  have hgoes {c : UInt8} {s : Bytes} (h : ¬(endsWord c || startsComment (c :: s)) = true) :
      ¬(endsWord c || startsComment (c :: (s ++ 0x20 :: r))) = true := by
    rw [Bool.not_eq_true, Bool.or_eq_false_iff] at h ⊢
    exact ⟨h.1, startsComment_blank c s r h.2⟩
  have htail {n : Nat} {c : UInt8} {s : Bytes} (h : 1 + n = (c :: s).length) : n = s.length := by
    rw [List.length_cons] at h
    omega
  fun_induction wordLengthIn closers w with
  | case1 => rfl
  | case2 | case5 => cases hw
  | case3 closers c s hend hsquare ih =>
      rw [List.cons_append, wordLengthIn, if_neg (hgoes hend), if_pos hsquare, ih (htail hw),
        List.length_cons, Nat.add_comm]
  | case4 closers c s hend hsquare hround ih =>
      rw [List.cons_append, wordLengthIn, if_neg (hgoes hend), if_neg hsquare, if_pos hround,
        ih (htail hw), List.length_cons, Nat.add_comm]
  | case6 closers c s hend hsquare hround hclose d outer houter ih =>
      rw [List.cons_append, wordLengthIn, if_neg (hgoes hend), if_neg hsquare, if_neg hround,
        if_pos hclose, houter]
      dsimp only
      rw [ih (htail hw), List.length_cons, Nat.add_comm]
  | case7 closers c s hend hsquare hround hclose ih =>
      rw [List.cons_append, wordLengthIn, if_neg (hgoes hend), if_neg hsquare, if_neg hround,
        if_neg hclose, ih (htail hw), List.length_cons, Nat.add_comm]

theorem spells_lineFeed (r : Bytes) : Spells [] (0x0A :: r) (0x0A :: r) :=
  .nil rfl ⟨show (0x0A : UInt8) ≠ _ by decide, show (0x0A : UInt8) ≠ _ by decide,
    show (0x0A : UInt8) ≠ _ by decide, show (0x0A : UInt8) ≠ _ by decide⟩ rfl

private theorem isWordByte_of_digitValue? {c : UInt8} {d : Nat} (h : Byte.digitValue? c = some d) :
    Byte.isWordByte c = true := by
  suffices halnum : Byte.isAlnum c = true by
    rw [Byte.isWordByte, halnum]
    rfl
  unfold Byte.digitValue? at h
  simp only [Byte.isAlnum, Byte.isAlpha, Byte.isLower, Byte.isUpper, Byte.isDigit] at h ⊢
  grind

private theorem digitsAux_ne_nil {base : Nat} {upper : Bool} (fuel n : Nat) {s : Bytes}
    (hs : s ≠ []) :
    Bytes.digitsAux base upper fuel n s ≠ [] := by
  induction fuel generalizing n s with
  | zero => exact hs
  | succ fuel ih =>
      rw [Bytes.digitsAux]
      split
      · exact List.cons_ne_nil _ _
      · exact ih _ (List.cons_ne_nil _ _)

private theorem wordBytes_digitsAux (base : Nat) (hb : base ≤ 16) (hpos : 0 < base) (upper : Bool)
    (n : Nat) :
    (∀ c ∈ Bytes.digitsAux base upper (n + 1) n [], Byte.isWordByte c = true) ∧
      Bytes.digitsAux base upper (n + 1) n [] ≠ [] := by
  refine ⟨fun c hc => ?_, ?_⟩
  · have hdigits : Numeral.Digits base (Bytes.digitsAux base upper (n + 1) n []) :=
      Bytes.digits_digitsAux hb hpos (n + 1) n fun _ h => absurd h List.not_mem_nil
    obtain ⟨d, -, hd⟩ := hdigits c hc
    exact isWordByte_of_digitValue? hd
  · rw [Bytes.digitsAux]
    split
    · exact List.cons_ne_nil _ _
    · exact digitsAux_ne_nil _ _ (List.cons_ne_nil _ _)

/-- The text of an integer variable is a word. -/
theorem wordBytes_intText (hex : Bool) (greatest v : Int32) :
    (∀ c ∈ Interp.intText hex greatest v, Byte.isWordByte c = true) ∧
      Interp.intText hex greatest v ≠ [] := by
  unfold Interp.intText
  split
  · obtain ⟨hbytes, -⟩ := wordBytes_digitsAux 16 (by decide) (by decide) true v.toInt.toNat
    have hmark : ∀ c ∈ utf8 "0x", Byte.isWordByte c = true := List.all_eq_true.mp (by decide)
    have hdigits : ∀ c ∈ if greatest == Interp.greatestColour then
        Bytes.padLeft 0x30 6 (Bytes.ofNatHex v.toInt.toNat) else Bytes.ofNatHex v.toInt.toNat,
        Byte.isWordByte c = true := by
      split
      · intro c hc
        rcases List.mem_append.mp hc with hc | hc
        · rw [List.eq_of_mem_replicate hc]
          rfl
        · exact hbytes c hc
      · exact hbytes
    exact ⟨fun c hc => (List.mem_append.mp hc).elim (hmark c) (hdigits c),
      fun hnil => absurd (List.append_eq_nil_iff.mp hnil).1 (by decide)⟩
  · unfold Printing.int
    cases v.toInt with
    | ofNat n => exact wordBytes_digitsAux 10 (by decide) (by decide) false n
    | negSucc n =>
        obtain ⟨hbytes, -⟩ := wordBytes_digitsAux 10 (by decide) (by decide) false (n + 1)
        refine ⟨fun c hc => ?_, List.cons_ne_nil _ _⟩
        rcases List.mem_cons.mp hc with rfl | hc
        · rfl
        · exact hbytes c hc

end Words

end Compile

namespace Entry

variable {name : Bytes}

theorem IsName.isWord (h : IsName name) : IsWord name where
  nonempty := h.nonempty
  start := by
    have hplain := beginsPlain_append h.wordBytes h.nonempty []
    rwa [List.append_nil] at hplain
  whole := by
    have hlength := wordLength_append (r := []) h.wordBytes rfl
    rwa [List.append_nil] at hlength
  isNumeral := h.isNumeral

theorem IsWord.bare (h : IsWord name) : IsBareWord name := ⟨h.nonempty, h.start, h.whole⟩

namespace IsBareWord

theorem wordLength_blank (h : IsBareWord name) (r : Bytes) :
    wordLength (name ++ 0x20 :: r) = name.length :=
  wordLengthIn_blank h.whole r

theorem beginsPlain_blank (h : IsBareWord name) (r : Bytes) : beginsPlain (name ++ 0x20 :: r) := by
  rw [beginsPlain, byteAt_append h.nonempty]
  exact h.start

/-- There are no blanks in front of a word. -/
theorem skipBlanks_blank (h : IsBareWord name) (r : Bytes) :
    skipBlanks false (name ++ 0x20 :: r) = name ++ 0x20 :: r := by
  obtain ⟨c, w, rfl⟩ := List.exists_cons_of_ne_nil h.nonempty
  have hgoes : ¬(endsWord c || startsComment (c :: (w ++ 0x20 :: r))) = true := by
    intro hend
    have hlength := h.wordLength_blank r
    rw [List.cons_append, wordLength, wordLengthIn, if_pos hend] at hlength
    cases hlength
  rw [Bool.not_eq_true, Bool.or_eq_false_iff] at hgoes
  have hblank : ¬(c == 0x20 || c == 0x09 || c == 0x0D) = true := by
    intro hc
    have hgap : endsWord c = true := by
      rw [endsWord, isGap, hc, Bool.true_or, Bool.or_true]
    exact Bool.false_ne_true (hgoes.1.symm.trans hgap)
  rw [List.cons_append, skipBlanks, if_neg hblank, if_neg (Bool.eq_false_iff.mp hgoes.2)]

end IsBareWord

end Entry

namespace Compile

section Arguments

variable {k : Nested} {prev : Nat} {st : State} {s b r : Bytes}

/-- A text between quotes is an argument that gives the text. -/
theorem run_argument_string (k : Nested) (prev : Nat) (st : State) (hs : 0x0D ∉ s)
    (h : skipBlanks false st.cursor.rest = escape s ++ r) :
    ∃ line, (argument k .any prev).run st = (some (textCode s), st.goTo r line) ∧
      (argument k .textView prev).run st = (some (viewCode s), st.goTo r line) := by
  obtain ⟨line, hcut⟩ := run_cutString (st.goTo (escape s ++ r) st.cursor.line) hs rfl
  have hstring (want : Want) : (argument k want prev).run st =
      ((stringArg k want).run (st.goTo (escape s ++ r) st.cursor.line)).map some id := by
    rw [run_argument, h]
    rfl
  have hany : (stringArg k .any).run (st.goTo (escape s ++ r) st.cursor.line) =
      (cutString.run (st.goTo (escape s ++ r) st.cursor.line)).map textCode id := rfl
  have hview : (stringArg k .textView).run (st.goTo (escape s ++ r) st.cursor.line) =
      (cutString.run (st.goTo (escape s ++ r) st.cursor.line)).map viewCode id := rfl
  exact ⟨line, by rw [hstring, hany, hcut]; rfl, by rw [hstring, hview, hcut]; rfl⟩

end Arguments

/-- A statement is compiled to code, where the table has become another one, and nothing but the end
of its line is left. -/
def LineOf (levels : Nat) (st : State) (t : Table) (code : Code) (r : Bytes) : Prop :=
  ∃ more rest line, (statement (nested (levels + 1)) false 0).run st =
    ((code, more), State.goTo { st with table := t } rest line) ∧ Left (0x0A :: r) [] more rest

section Statements

variable {levels i : Nat} {st : State} {name value r : Bytes} {id : Ident} {watch : Watch}

/-- A statement that begins with a word and a blank is an assignment or a call. -/
theorem run_statement_name (levels : Nat) (hn : Entry.IsBareWord name)
    (h : st.cursor.rest = name ++ 0x20 :: r) :
    ∃ line, (statement (nested (levels + 1)) false 0).run st = StateT.run (m := Id) (do
      if isAssignment { rest := skipBlanks false r, line, name := st.cursor.name } then
        advance 1
        assignment (nested (levels + 1)) (.bare name) 0
      else callBare (nested (levels + 1)) false name 0) (st.goTo (skipBlanks false r) line) := by
  have hhead : ((nested (levels + 1)).head 0).run st = _ :=
    run_firstWord_word (r := 0x20 :: r) (nested levels) 0
      (by rw [h]; exact hn.skipBlanks_blank r) (hn.beginsPlain_blank r) (hn.wordLength_blank r)
      hn.nonempty
  refine ⟨st.cursor.line + name.count 0x0A, ?_⟩
  rw [statement, StateT.run_bind, hhead]
  rfl

private theorem run_callBare_int (st : State) {least greatest : Int32} {store : IntStore}
    (hfound : st.table.lookup? name = some (i, id))
    (hrole : id.role = .intVar least greatest store watch) :
    (callBare (nested (levels + 1)) false name 0).run st =
      (intVarStatement (nested (levels + 1)) id.flags.hex i 0).run st := by
  have hget (f : State → CompileM Statement) : (get >>= f).run st = (f st).run st := rfl
  rw [callBare, hget]
  simp only [hfound, hrole]

private theorem run_callBare_text (st : State) {old : Bytes}
    (hfound : st.table.lookup? name = some (i, id))
    (hrole : id.role = .textVar old watch) :
    (callBare (nested (levels + 1)) false name 0).run st =
      (textVarStatement (nested (levels + 1)) i 0).run st := by
  have hget (f : State → CompileM Statement) : (get >>= f).run st = (f st).run st := rfl
  rw [callBare, hget]
  simp only [hfound, hrole]

/-- The statement of an integer variable. -/
theorem lineOf_int {least greatest : Int32} {store : IntStore} (hn : Entry.IsWord name)
    (hfound : st.table.lookup? name = some (i, id))
    (hrole : id.role = .intVar least greatest store watch)
    (hv : ∀ c ∈ value, Byte.isWordByte c = true) (hne : value ≠ [])
    (h : st.cursor.rest = name ++ 0x20 :: (value ++ 0x0A :: r)) :
    LineOf levels st st.table (intCode (Reading.int value) ++ plain .setIntVar .null i) r := by
  have hskip := skipBlanks_append hv hne (0x0A :: r)
  obtain ⟨line, hrun⟩ := run_statement_name levels hn.bare h
  have hsign : isAssignment { rest := value ++ 0x0A :: r, line, name := st.cursor.name } = false := by
    obtain ⟨c, w, rfl⟩ := List.exists_cons_of_ne_nil hne
    refine Bool.and_eq_false_imp.mpr fun hc => ?_
    exact absurd (beq_iff_eq.mp hc) (ne_of_isWordByte (hv c List.mem_cons_self) rfl)
  have hspells : Spells [value] (st.goTo (value ++ 0x0A :: r) line).cursor.rest (0x0A :: r) :=
    .cons hskip (beginsPlain_append hv hne _) (wordLength_append hv rfl) hne (spells_lineFeed r)
  obtain ⟨rest, line', hleft, -, hword⟩ := run_argument_word (k := nested levels) hspells .int 0
  have harg : ((nested (levels + 1)).arg .int 0).run (st.goTo (value ++ 0x0A :: r) line) =
      (some (intCode (Reading.int value)), st.goTo rest line') := hword
  rw [hskip, hsign, if_neg Bool.false_ne_true,
    run_callBare_int (st.goTo (value ++ 0x0A :: r) line) hfound hrole, intVarStatement,
    StateT.run_bind, harg] at hrun
  cases hhex : id.flags.hex with
  | false =>
      rw [hhex] at hrun
      exact ⟨true, rest, line', hrun, .words hleft⟩
  | true =>
      have hnone : ((nested (levels + 1)).arg .int 1).run (st.goTo rest line') =
          (none, st.goTo (0x0A :: r) line') := run_argument_none hleft .int 1
      rw [hhex] at hrun
      refine ⟨false, 0x0A :: r, line', hrun.trans ?_, .none⟩
      change StateT.run ((nested (levels + 1)).arg .int 1 >>= _) (st.goTo rest line') = _
      rw [StateT.run_bind, hnone]
      rfl

/-- The statement of a text variable writes the text behind its name, wherever the statement ends. -/
theorem run_statement_text {old e : Bytes} (levels : Nat) (hn : Entry.IsBareWord name)
    (hfound : st.table.lookup? name = some (i, id)) (hrole : id.role = .textVar old watch)
    (hv : 0x0D ∉ value) (he : Spells [] e e) (h : st.cursor.rest = name ++ 0x20 :: (escape value ++ e)) :
    ∃ line, (statement (nested (levels + 1)) false 0).run st =
      ((viewCode value ++ plain .setTextVar .null i, false), st.goTo e line) := by
  have hskip : skipBlanks false (escape value ++ e) = escape value ++ e := rfl
  obtain ⟨line, hrun⟩ := run_statement_name levels hn h
  have hsign : isAssignment { rest := escape value ++ e, line, name := st.cursor.name } = false := rfl
  obtain ⟨line', -, hstring⟩ := run_argument_string (nested levels) 0
    (st.goTo (escape value ++ e) line) hv hskip
  have harg : ((nested (levels + 1)).arg .textView 0).run (st.goTo (escape value ++ e) line) =
      (some (viewCode value), st.goTo e line') := hstring
  have hnone : ((nested (levels + 1)).arg .anyView 1).run (st.goTo e line') =
      (none, st.goTo e line') := run_argument_none he .anyView 1
  have htake : (takeArgs (nested (levels + 1)) .anyView 0 (maxArgs - 1) 1).run
      (st.goTo e line') = (([], 1, false), st.goTo e line') := by
    change (takeArgs (nested (levels + 1)) .anyView 0 (23 + 1) 1).run (st.goTo e line') = _
    rw [takeArgs, StateT.run_bind, hnone]
    rfl
  rw [hskip, hsign, if_neg Bool.false_ne_true,
    run_callBare_text (st.goTo (escape value ++ e) line) hfound hrole, textVarStatement,
    StateT.run_bind, harg] at hrun
  refine ⟨line', hrun.trans ?_⟩
  change StateT.run (takeArgs (nested (levels + 1)) .anyView 0 (maxArgs - 1) 1 >>= _)
    (st.goTo e line') = _
  rw [StateT.run_bind, htake]
  rfl

theorem lineOf_text {old : Bytes} (hn : Entry.IsWord name)
    (hfound : st.table.lookup? name = some (i, id)) (hrole : id.role = .textVar old watch)
    (hv : 0x0D ∉ value) (h : st.cursor.rest = name ++ 0x20 :: (escape value ++ 0x0A :: r)) :
    LineOf levels st st.table (viewCode value ++ plain .setTextVar .null i) r := by
  obtain ⟨line, hrun⟩ := run_statement_text levels hn.bare hfound hrole hv (spells_lineFeed r) h
  exact ⟨false, 0x0A :: r, line, hrun, .none⟩

/-- The statement of an alias that is new. -/
theorem lineOf_alias (arg : Bytes) (hn : Entry.IsWord name) (hfree : st.table.find? name = none)
    (hmax : maxArgs ≤ st.table.size)
    (harg : ∀ st' : State, st'.cursor.rest = 0x20 :: (arg ++ 0x0A :: r) → ∃ line,
      (argument (nested levels) .any 0).run st' =
        (some (textCode value), st'.goTo (0x0A :: r) line))
    (h : st.cursor.rest = name ++ 0x20 :: (code '=' :: 0x20 :: (arg ++ 0x0A :: r))) :
    LineOf levels st (st.table.push (Table.unknownAlias name))
      (textCode value ++ plain .alias .null st.table.size) r := by
  obtain ⟨line, hrun⟩ := run_statement_name levels hn.bare h
  let st₁ := State.goTo { st with table := st.table.push (Table.unknownAlias name) }
    (0x20 :: (arg ++ 0x0A :: r)) line
  have hskip : skipBlanks false (code '=' :: 0x20 :: (arg ++ 0x0A :: r)) =
      code '=' :: 0x20 :: (arg ++ 0x0A :: r) := rfl
  have hsign : isAssignment
      { rest := code '=' :: 0x20 :: (arg ++ 0x0A :: r), line, name := st.cursor.name } = true := rfl
  have hintern : st.table.intern name =
      (st.table.size, true, st.table.push (Table.unknownAlias name)) := by
    simp only [Table.intern, hfree, hn.isNumeral, Bool.false_eq_true, if_false]
  have hrole : ((st.table.push (Table.unknownAlias name)).get? st.table.size).elim .alias Ident.role =
      .alias := by
    rw [Table.get?_push, if_pos rfl]
    rfl
  obtain ⟨line', hvalue⟩ := harg st₁ rfl
  have hvalue : (argument (nested levels) .any 0).run st₁ = (some (textCode value),
      State.goTo { st with table := st.table.push (Table.unknownAlias name) } (0x0A :: r) line') := hvalue
  have hname : (intern name).run (st.goTo (0x20 :: (arg ++ 0x0A :: r)) line) = (st.table.size, st₁) := by
    have hrun : (intern name).run (st.goTo (0x20 :: (arg ++ 0x0A :: r)) line) = StateT.run (m := Id) (do
        if !(st.table.intern name).2.1 then
          note (utf8 "number " ++ name ++ utf8 " is not a valid identifier name")
        return (st.table.intern name).1)
        (State.goTo { st with table := (st.table.intern name).2.2 }
          (0x20 :: (arg ++ 0x0A :: r)) line) := rfl
    rw [hrun, hintern]
    rfl
  have hroleOf : (roleOf st.table.size).run st₁ = (.alias, st₁) := congrArg (·, st₁) hrole
  have hargOr : (argOr (nested (levels + 1)) .any 0 (textCode [])).run st₁ =
      ((textCode value, true),
        State.goTo { st with table := st.table.push (Table.unknownAlias name) } (0x0A :: r) line') := by
    have harg : ((nested (levels + 1)).arg .any 0).run st₁ = _ := hvalue
    rw [argOr, StateT.run_bind, harg]
    rfl
  rw [hskip, hsign, if_pos rfl] at hrun
  refine ⟨true, 0x0A :: r, line', hrun.trans ?_, .words (spells_lineFeed r)⟩
  change (assignment (nested (levels + 1)) (.bare name) 0).run
    (st.goTo (0x20 :: (arg ++ 0x0A :: r)) line) = _
  rw [assignment, StateT.run_bind, hname]
  change StateT.run (roleOf st.table.size >>= _) st₁ = _
  rw [StateT.run_bind, hroleOf]
  change StateT.run (argOr (nested (levels + 1)) .any 0 (textCode []) >>= _) st₁ = _
  rw [StateT.run_bind, hargOr, if_neg (Nat.not_lt.mpr hmax)]
  rfl

end Statements

section Lines

variable {levels fuel : Nat} {st : State} {t : Table} {code : Code} {r : Bytes}

/-- A line without a statement. -/
theorem lineOf_blank (levels : Nat) (st : State) (h : skipBlanks false st.cursor.rest = 0x0A :: r) :
    LineOf levels st st.table [] r := by
  have hhead : ((nested (levels + 1)).head 0).run st =
      (none, st.goTo (0x0A :: r) st.cursor.line) := by
    have hrun : ((nested (levels + 1)).head 0).run st = StateT.run (m := Id) (do
        let c := Bytes.byteAt (skipBlanks false st.cursor.rest) 0
        if c == Syntax.quote then
          let s ← cutString
          return some (if s.isEmpty then .computed (viewCode []) else .bare s)
        else if c == code '$' || c == code '(' || c == code '[' then
          return (← argument (nested levels) .head 0).map .computed
        else
          let word ← cutWord
          if word.isEmpty then return none else return some (.bare word))
        (st.goTo (skipBlanks false st.cursor.rest) st.cursor.line) := rfl
    rw [hrun, h]
    rfl
  refine ⟨false, 0x0A :: r, st.cursor.line, ?_, .none⟩
  rw [statement, StateT.run_bind, hhead]
  rfl

/-- Nothing on a line is surplus. -/
theorem run_surplusArgs_line (levels : Nat) {more : Bool} (h : Left (0x0A :: r) [] more st.cursor.rest) :
    ∃ line, (surplusArgs (nested (levels + 1)) more 0).run st = ([], st.goTo (0x0A :: r) line) := by
  generalize hs : st.cursor.rest = s at h
  cases h with
  | none => exact ⟨st.cursor.line, by rw [← hs]; rfl⟩
  | words h =>
      subst hs
      have hnone : ((nested (levels + 1)).arg .nothing 0).run st =
          (none, st.goTo (0x0A :: r) st.cursor.line) := run_argument_none h .nothing 0
      refine ⟨st.cursor.line, ?_⟩
      change StateT.run (dropArgs (nested (levels + 1)) 0 (st.cursor.rest.length + 1)) st = _
      rw [dropArgs, StateT.run_bind, hnone]
      rfl

/-- The statement of a line is followed by those of the lines behind it. -/
theorem LineOf.run_statementsFrom (h : LineOf levels st t code r) (fuel : Nat) :
    ∃ line, (statementsFrom (nested (levels + 1)) false 0 0 (fuel + 1)).run st =
      ((statementsFrom (nested (levels + 1)) false 0 0 fuel).run
        (State.goTo { st with table := t } r line)).map (code ++ ·) id := by
  obtain ⟨more, rest, line, hrun, hleft⟩ := h
  obtain ⟨line', hsurplus⟩ : ∃ line', (surplusArgs (nested (levels + 1)) more 0).run
      (State.goTo { st with table := t } rest line) =
        ([], State.goTo { st with table := t } (0x0A :: r) line') := run_surplusArgs_line levels hleft
  have hend : (endOfStatement 0 (rest.length + 1)).run
      (State.goTo { st with table := t } (0x0A :: r) line') =
      (false, State.goTo { st with table := t } r (line' + 0 + 1)) := rfl
  refine ⟨line' + 0 + 1, ?_⟩
  let st₁ := State.goTo { st with table := t } rest line
  have hcursor : cursor.run st₁ = (st₁.cursor, st₁) := rfl
  rw [statementsFrom, StateT.run_bind, hrun]
  change StateT.run (cursor >>= _) st₁ = _
  rw [StateT.run_bind, hcursor]
  change StateT.run (surplusArgs (nested (levels + 1)) more 0 >>= _) st₁ = _
  rw [StateT.run_bind, hsurplus]
  change StateT.run (endOfStatement 0 (rest.length + 1) >>= _)
    (State.goTo { st with table := t } (0x0A :: r) line') = _
  rw [StateT.run_bind, hend]
  change StateT.run (m := Id) (do
    return code ++ [] ++ (← statementsFrom (nested (levels + 1)) false 0 0 fuel))
    (State.goTo { st with table := t } r (line' + 0 + 1)) = _
  rw [List.append_nil]
  rfl

theorem run_statementsFrom_end (levels fuel : Nat) (h : st.cursor.rest = []) :
    ∃ line, (statementsFrom (nested (levels + 1)) false 0 0 (fuel + 1)).run st =
      ([], st.goTo [] line) := by
  obtain ⟨⟨rest, line, name⟩, table, warnings, names⟩ := st
  cases h
  exact ⟨_, rfl⟩

end Lines

end Compile

end ConsoleScript
