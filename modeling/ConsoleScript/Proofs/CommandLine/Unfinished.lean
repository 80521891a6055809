import ConsoleScript.CommandLine.Repl
import ConsoleScript.Proofs.Compile.EntryStatements

/-!
Text that is not finished yet. The console collects lines while more brackets are open than closed, and
has a scanner of its own for that. The compiler says what is missing only when it has read everything.
Where a block is typed in that a name is to stand for, line by line, both agree: the console waits for
more exactly as long as the compiler would miss the end of the block.

They count differently elsewhere. For the compiler brackets in a word belong to the word, parentheses in
a block are text like any other, and a bracket that closes nothing is no part of what follows.
-/

namespace ConsoleScript

open Bytecode Syntax Compile CommandLine

/-- A compiled text lacks a closing bracket or parenthesis: there is a warning that says so, with the
place or without. -/
def Compile.Output.LacksEnd (o : Compile.Output) : Prop :=
  ∃ w ∈ o.warnings, ∃ c ∈ [code ')', code ']'], utf8 "missing " ++ quotedBracket c <:+ w

/-- What the value of an assignment is wanted as, by what the name stands for. -/
def Compile.Want.isAssigned : Want → Bool
  | .any | .int | .float | .textView => true
  | _ => false

namespace CommandLine

/-- Text in a block, at the beginning of which so many brackets inside it are open, and so many at its
end; none is closed that was not opened. The number is that of parentheses opened less those closed. -/
inductive Typed : (opened left : Nat) → (parens : Int) → Bytes → Prop
  | nil (d : Nat) : Typed d d 0 []
  | byte {d e : Nat} {p : Int} {c : UInt8} {s : Bytes} (hm : isMark c = false) (ho : c ≠ code '(')
      (hc : c ≠ code ')') (h : Typed d e p s) : Typed d e p (c :: s)
  | slash {d e : Nat} {p : Int} {s : Bytes} (hs : startsComment (code '/' :: s) = false)
      (h : Typed d e p s) : Typed d e p (code '/' :: s)
  | comment {d e : Nat} {p : Int} {l s : Bytes} (hl : 0x0A ∉ l) (h : Typed d e p s) :
      Typed d e p (code '/' :: code '/' :: (l ++ 0x0A :: s))
  | string {d e : Nat} {p : Int} {body s : Bytes} (hb : ClosedBody body) (h : Typed d e p s) :
      Typed d e p (quote :: (body ++ quote :: s))
  | openParen {d e : Nat} {p : Int} {s : Bytes} (h : Typed d e p s) : Typed d e (1 + p) (code '(' :: s)
  | closeParen {d e : Nat} {p : Int} {s : Bytes} (h : Typed d e p s) : Typed d e (p - 1) (code ')' :: s)
  | openBracket {d e : Nat} {p : Int} {s : Bytes} (h : Typed (d + 1) e p s) :
      Typed d e p (code '[' :: s)
  | closeBracket {d e : Nat} {p : Int} {s : Bytes} (h : Typed d e p s) :
      Typed (d + 1) e p (code ']' :: s)

/-- What a text may end in: the string or the comment that is being typed. -/
inductive Unended : Bytes → Prop
  | nil : Unended []
  | string {body : Bytes} (hb : ClosedBody body) : Unended (quote :: body)
  | comment {l : Bytes} (hl : 0x0A ∉ l) : Unended (code '/' :: code '/' :: l)

/-- The beginning of the statement that gives a name a block. -/
def opening (name : Bytes) : Bytes := name ++ [0x20, code '=', 0x20, code '[']

/-- A name that stands for a block. -/
structure Definition where
  name : Bytes
  body : Bytes

def Definition.line (d : Definition) : Bytes := opening d.name ++ (d.body ++ [code ']', 0x0A])

/-- A definition that is typed completely. -/
structure Definition.Whole (d : Definition) : Prop where
  name : Entry.IsName d.name
  body : Typed 0 0 0 d.body

/-- No comment begins where two texts meet. -/
def Apart (b r : Bytes) : Prop := ∀ b', b = b' ++ [code '/'] → Bytes.byteAt r 0 ≠ code '/'

/-- Definitions as they are entered at the console. All are whole but the last, which lacks its end as
long as it is being typed; the parentheses in it are closed at its end, and never more than opened. -/
inductive Entered : (whole : Bool) → Bytes → Prop
  | unfinished {ds : List Definition} {name b r : Bytes} {e : Nat} {p : Int}
      (hds : ∀ d ∈ ds, d.Whole) (hn : Entry.IsName name) (hb : Typed 0 e p b) (hp : 0 ≤ p)
      (hr : Unended r) (hapart : Apart b r) :
      Entered false (ds.flatMap Definition.line ++ (opening name ++ (b ++ r)))
  | whole {ds : List Definition} {d : Definition} (hds : ∀ d ∈ ds, d.Whole) (hd : d.Whole) :
      Entered true (ds.flatMap Definition.line ++ (opening d.name ++ (d.body ++ [code ']'])))

section Scanning

variable {d e : Nat} {p : Int} {b r s : Bytes}

theorem Apart.append_left (h : Apart (s ++ b) r) : Apart b r :=
  fun b' hb => h (s ++ b') (by rw [hb, List.append_assoc])

theorem Apart.tail {c : UInt8} (h : Apart (c :: b) r) : Apart b r := Apart.append_left (s := [c]) h

theorem Apart.not_startsComment (h : Apart (code '/' :: b) r)
    (hs : startsComment (code '/' :: b) = false) : startsComment (code '/' :: (b ++ r)) = false := by
  rw [startsComment_eq] at hs ⊢
  cases b with
  | nil => exact beq_false_of_ne (h [] rfl)
  | cons c b => exact hs

theorem apart_cons {c : UInt8} (hc : c ≠ code '/') (b r : Bytes) : Apart b (c :: r) := fun _ _ => hc

theorem bracketDepth_byte {c : UInt8} (hm : isMark c = false) (ho : c ≠ code '(') (hc : c ≠ code ')') :
    bracketDepth .plain (c :: s) = bracketDepth .plain s := by
  simp only [isMark, Bool.or_eq_false_iff, beq_eq_false_iff_ne] at hm
  obtain ⟨⟨⟨⟨-, hquote⟩, hslash⟩, hopen⟩, hclose⟩ := hm
  have hcomment : startsComment (c :: s) = false := by
    rw [startsComment_eq, show (c == 0x2F) = false from beq_false_of_ne hslash, Bool.false_and]
  rw [bracketDepth, hcomment]
  simp [*]

private theorem bracketDepth_slash (hs : startsComment (code '/' :: s) = false) :
    bracketDepth .plain (code '/' :: s) = bracketDepth .plain s := by
  rw [bracketDepth, hs]
  rfl

private theorem bracketDepth_comment {l : Bytes} (hl : 0x0A ∉ l) (s : Bytes) :
    bracketDepth .comment (l ++ 0x0A :: s) = bracketDepth .plain s := by
  induction l with
  | nil => rfl
  | cons c l ih =>
      obtain ⟨hc, hl⟩ := List.ne_and_not_mem_of_not_mem_cons hl
      rw [List.cons_append, bracketDepth, if_neg (by simpa using hc.symm), ih hl]

theorem bracketDepth_body {body : Bytes} (hb : ClosedBody body) (s : Bytes) :
    bracketDepth .quoted (body ++ s) = bracketDepth .quoted s := by
  induction hb with
  | nil => rfl
  | @byte c body hq hc hl _ ih =>
      have hfeed : c ≠ 0x0A := by
        rintro rfl
        cases hl
      rw [List.cons_append, bracketDepth.eq_def]
      simp [hq, hc, hfeed, ih]
  | @escape c body hl _ ih => exact ih

/-- What is being typed at the end opens nothing. -/
theorem Unended.bracketDepth (h : Unended r) : bracketDepth .plain r = 0 := by
  cases h with
  | nil => rfl
  | @string body hb =>
      have hbody := bracketDepth_body hb []
      rw [List.append_nil] at hbody
      exact hbody
  | @comment l hl =>
      change CommandLine.bracketDepth .comment (code '/' :: l) = 0
      induction l with
      | nil => rfl
      | cons c l ih =>
          obtain ⟨hc, hl⟩ := List.ne_and_not_mem_of_not_mem_cons hl
          have hrest : CommandLine.bracketDepth .comment l = 0 := ih hl
          change CommandLine.bracketDepth (if c == 0x0A then .plain else .comment) l = 0
          rw [if_neg (by simpa using hc.symm), hrest]

private theorem bracketDepth_word {w : Bytes} (hw : ∀ c ∈ w, Byte.isWordByte c = true) (r : Bytes) :
    bracketDepth .plain (w ++ r) = bracketDepth .plain r := by
  induction w with
  | nil => rfl
  | cons c w ih =>
      have hc := hw c List.mem_cons_self
      have hne {a : UInt8} (ha : Byte.isWordByte a = false) : c ≠ a := ne_of_isWordByte hc ha
      rw [List.cons_append, bracketDepth_byte (isMark_of_ne (hne rfl) (hne rfl) (hne rfl) (hne rfl)
        (hne rfl)) (hne rfl) (hne rfl), ih fun c' hc' => hw c' (List.mem_cons_of_mem c hc')]

/-- The console counts the brackets and the parentheses of a text in a block. -/
theorem Typed.bracketDepth (h : Typed d e p b) (hr : Apart b r) :
    bracketDepth .plain (b ++ r) = e - d + p + bracketDepth .plain r := by
  induction h with
  | nil => simp
  | byte hm ho hc _ ih => rw [List.cons_append, bracketDepth_byte hm ho hc, ih hr.tail]
  | slash hs _ ih =>
      rw [List.cons_append, bracketDepth_slash (hr.not_startsComment hs), ih hr.tail]
  | @comment d e p l s hl _ ih =>
      have hopen : CommandLine.bracketDepth .plain (code '/' :: code '/' :: (l ++ 0x0A :: s) ++ r) =
          CommandLine.bracketDepth .comment (l ++ 0x0A :: (s ++ r)) := by
        rw [List.cons_append, List.cons_append, List.append_assoc]
        rfl
      rw [hopen, bracketDepth_comment hl]
      exact ih (hr.tail.tail.append_left (s := l)).tail
  | @string d e p body s hb _ ih =>
      have hopen : CommandLine.bracketDepth .plain (quote :: (body ++ quote :: s) ++ r) =
          CommandLine.bracketDepth .quoted (body ++ quote :: (s ++ r)) := by
        rw [List.cons_append, List.append_assoc]
        rfl
      have hclose : CommandLine.bracketDepth .quoted (quote :: (s ++ r)) =
          CommandLine.bracketDepth .plain (s ++ r) := by
        rw [CommandLine.bracketDepth.eq_def]
        rfl
      rw [hopen, bracketDepth_body hb, hclose, ih (hr.tail.append_left (s := body)).tail]
  | @openParen d e p s _ ih | @openBracket d e p s _ ih =>
      rw [List.cons_append]
      change 1 + CommandLine.bracketDepth .plain (s ++ r) = _
      rw [ih hr.tail]
      omega
  | @closeParen d e p s _ ih | @closeBracket d e p s _ ih =>
      rw [List.cons_append]
      change CommandLine.bracketDepth .plain (s ++ r) - 1 = _
      rw [ih hr.tail]
      omega

theorem bracketDepth_opening {name : Bytes} (hn : Entry.IsName name) (r : Bytes) :
    bracketDepth .plain (opening name ++ r) = 1 + bracketDepth .plain r := by
  rw [opening, List.append_assoc, bracketDepth_word hn.wordBytes]
  rfl

/-- Whole definitions leave nothing open. -/
theorem bracketDepth_lines {ds : List Definition} (hds : ∀ d ∈ ds, d.Whole) (r : Bytes) :
    bracketDepth .plain (ds.flatMap Definition.line ++ r) = bracketDepth .plain r := by
  induction ds with
  | nil => rfl
  | cons d ds ih =>
      obtain ⟨hname, hbody⟩ := hds d List.mem_cons_self
      have hline : d.line ++ (ds.flatMap Definition.line ++ r) =
          opening d.name ++ (d.body ++ code ']' :: 0x0A :: (ds.flatMap Definition.line ++ r)) := by
        simp [Definition.line]
      have hclose (s : Bytes) :
          bracketDepth .plain (code ']' :: 0x0A :: s) = bracketDepth .plain s - 1 := rfl
      rw [List.flatMap_cons, List.append_assoc, hline, bracketDepth_opening hname,
        hbody.bracketDepth (apart_cons (by decide) _ _), hclose,
        ih fun d' hd' => hds d' (List.mem_cons_of_mem d hd')]
      omega

end Scanning

section Reading

variable (k : Nested) (prev : Nat) {fuel depth d e : Nat} {p : Int} {st : State} {b r s : Bytes}

private theorem run_skipTo (q : UInt8 → Bool) (h : st.cursor.rest.dropWhile (!q ·) = r) :
    ∃ line, (skipTo q).run st = (⟨⟩, st.goTo r line) := by
  obtain ⟨⟨rest, line, name⟩, table, warnings, names⟩ := st
  have hrest := rest_skipTo q ⟨rest, line, name⟩
  rw [h] at hrest
  exact ⟨(Cursor.skipTo q ⟨rest, line, name⟩).line, by rw [← hrest]; rfl⟩

private theorem dropWhile_comment {l : Bytes} (hl : 0x0A ∉ l) (s : Bytes) :
    (l ++ s).dropWhile (!· == (0x0A : UInt8)) = s.dropWhile (!· == (0x0A : UInt8)) :=
  List.dropWhile_append_of_pos fun c hc => by
    have hne : c ≠ 0x0A := fun h => hl (h ▸ hc)
    simpa using hne

/-- A comment in a block literal is passed over. -/
theorem run_readLiteral_comment (fuel depth : Nat) {l : Bytes} (hl : 0x0A ∉ l) (sp : Splicing)
    (h : st.cursor.rest = code '/' :: code '/' :: (l ++ s)) :
    ∃ line, (readLiteral k prev (fuel + 1) depth sp).run st =
      (readLiteral k prev fuel depth sp).run (st.goTo (s.dropWhile (!· == (0x0A : UInt8))) line) := by
  obtain ⟨line, hrun⟩ := run_readLiteral_at k prev depth fuel (by decide) h sp
  have hread : (readMark k prev fuel depth sp (code '/' :: code '/' :: (l ++ s)) (code '/')).run
      (st.goTo (code '/' :: (l ++ s)) line) = StateT.run (m := Id) (do
        skipTo (· == 0x0A)
        readLiteral k prev fuel depth sp) (st.goTo (code '/' :: (l ++ s)) line) := rfl
  have hrest : (st.goTo (code '/' :: (l ++ s)) line).cursor.rest.dropWhile (!· == (0x0A : UInt8)) =
      s.dropWhile (!· == (0x0A : UInt8)) :=
    dropWhile_comment (l := code '/' :: l) (fun hm => (List.mem_cons.mp hm).elim (by decide) hl) s
  obtain ⟨line', hskip⟩ := run_skipTo (· == 0x0A) hrest
  refine ⟨line', (hrun.trans hread).trans ?_⟩
  rw [StateT.run_bind, hskip]
  rfl

/-- Text in a block is passed over, and so many brackets are open behind it. -/
theorem run_readLiteral_typed (h : Typed d e p b) (hr : Apart b r) (sp : Splicing)
    (hrest : st.cursor.rest = b ++ r) (hfuel : st.cursor.rest.length < fuel) :
    ∃ line fuel', r.length < fuel' ∧ (readLiteral k prev fuel (d + 1) sp).run st =
      (readLiteral k prev fuel' (e + 1) sp).run (st.goTo r line) := by
  rw [hrest] at hfuel
  induction h generalizing st fuel with
  | nil =>
      exact ⟨st.cursor.line, fuel, hfuel, by rw [← hrest.trans (List.nil_append r)]; rfl⟩
  | @byte d e p c s hm _ _ _ ih =>
      obtain ⟨fuel, rfl⟩ : ∃ n, fuel = n + 1 := ⟨fuel - 1, by omega⟩
      rw [List.cons_append, List.length_cons] at hfuel
      obtain ⟨line, hrun⟩ := run_readLiteral_pass k prev (d + 1) fuel hm hrest sp
      obtain ⟨line', fuel', hlt, hrun'⟩ :=
        @ih (fuel + 1) (st.goTo (s ++ r) line) hr.tail rfl (by omega)
      exact ⟨line', fuel', hlt, hrun.trans hrun'⟩
  | @slash d e p s hs _ ih =>
      obtain ⟨fuel, rfl⟩ : ∃ n, fuel = n + 1 := ⟨fuel - 1, by omega⟩
      rw [List.cons_append, List.length_cons] at hfuel
      obtain ⟨line, hrun⟩ := run_readLiteral_at k prev (d + 1) fuel (by decide) hrest sp
      have hslash : (Bytes.byteAt (s ++ r) 0 == code '/') = false := by
        have hno := hr.not_startsComment hs
        rw [startsComment_eq] at hno
        exact hno
      have hread : (readMark k prev fuel (d + 1) sp (code '/' :: (s ++ r)) (code '/')).run
          (st.goTo (s ++ r) line) = StateT.run (m := Id) (do
            if Bytes.byteAt (s ++ r) 0 == code '/' then skipTo (· == 0x0A)
            readLiteral k prev fuel (d + 1) sp) (st.goTo (s ++ r) line) := rfl
      rw [hslash] at hread
      obtain ⟨line', fuel', hlt, hrun'⟩ := @ih fuel (st.goTo (s ++ r) line) hr.tail rfl (by omega)
      exact ⟨line', fuel', hlt, (hrun.trans hread).trans hrun'⟩
  | @comment d e p l s hl _ ih =>
      obtain ⟨fuel, rfl⟩ : ∃ n, fuel = n + 1 + 1 := by
        rw [List.cons_append, List.cons_append, List.length_cons, List.length_cons] at hfuel
        exact ⟨fuel - 2, by omega⟩
      rw [List.cons_append, List.cons_append, List.append_assoc, List.length_cons, List.length_cons,
        List.length_append, List.cons_append, List.length_cons] at hfuel
      rw [List.cons_append, List.cons_append, List.append_assoc] at hrest
      obtain ⟨line, hrun⟩ := run_readLiteral_comment k prev (fuel + 1) (d + 1) hl sp hrest
      obtain ⟨line', hpass⟩ := run_readLiteral_pass k prev (d + 1) fuel (c := 0x0A) (by decide)
        (show (st.goTo (0x0A :: (s ++ r)) line).cursor.rest = _ from rfl) sp
      obtain ⟨line'', fuel', hlt, hrun'⟩ := @ih (fuel + 1) (st.goTo (s ++ r) line')
        (hr.tail.tail.append_left (s := l)).tail rfl (by omega)
      exact ⟨line'', fuel', hlt, hrun.trans (hpass.trans hrun')⟩
  | @string d e p body s hb _ ih =>
      obtain ⟨fuel, rfl⟩ : ∃ n, fuel = n + 1 := ⟨fuel - 1, by omega⟩
      rw [List.cons_append, List.append_assoc, List.length_cons, List.length_append, List.cons_append,
        List.length_cons] at hfuel
      rw [List.cons_append, List.append_assoc] at hrest
      obtain ⟨line, hrun⟩ := run_readLiteral_at k prev (d + 1) fuel (by decide) hrest sp
      obtain ⟨line', hcut⟩ := run_cutStringBody_closed (st.goTo (body ++ quote :: (s ++ r)) line) hb rfl
      have hread : (readMark k prev fuel (d + 1) sp (quote :: (body ++ quote :: (s ++ r))) quote).run
          (st.goTo (body ++ quote :: (s ++ r)) line) = (readLiteral k prev fuel (d + 1) sp).run
            (cutStringBody.run (st.goTo (body ++ quote :: (s ++ r)) line)).2 := rfl
      rw [hcut] at hread
      obtain ⟨line'', fuel', hlt, hrun'⟩ := @ih fuel (st.goTo (s ++ r) line')
        (hr.tail.append_left (s := body)).tail rfl (by omega)
      exact ⟨line'', fuel', hlt, (hrun.trans hread).trans hrun'⟩
  | @openParen d e p s _ ih | @closeParen d e p s _ ih =>
      obtain ⟨fuel, rfl⟩ : ∃ n, fuel = n + 1 := ⟨fuel - 1, by omega⟩
      rw [List.cons_append, List.length_cons] at hfuel
      obtain ⟨line, hrun⟩ := run_readLiteral_pass k prev (d + 1) fuel (by decide) hrest sp
      obtain ⟨line', fuel', hlt, hrun'⟩ :=
        @ih (fuel + 1) (st.goTo (s ++ r) line) hr.tail rfl (by omega)
      exact ⟨line', fuel', hlt, hrun.trans hrun'⟩
  | @openBracket d e p s _ ih =>
      obtain ⟨fuel, rfl⟩ : ∃ n, fuel = n + 1 := ⟨fuel - 1, by omega⟩
      rw [List.cons_append, List.length_cons] at hfuel
      obtain ⟨line, hrun⟩ := run_readLiteral_at k prev (d + 1) fuel (by decide) hrest sp
      obtain ⟨line', fuel', hlt, hrun'⟩ := @ih fuel (st.goTo (s ++ r) line) hr.tail rfl (by omega)
      exact ⟨line', fuel', hlt, hrun.trans hrun'⟩
  | @closeBracket d e p s _ ih =>
      obtain ⟨fuel, rfl⟩ : ∃ n, fuel = n + 1 := ⟨fuel - 1, by omega⟩
      rw [List.cons_append, List.length_cons] at hfuel
      obtain ⟨line, hrun⟩ := run_readLiteral_at k prev (d + 1 + 1) fuel (by decide) hrest sp
      obtain ⟨line', fuel', hlt, hrun'⟩ := @ih fuel (st.goTo (s ++ r) line) hr.tail rfl (by omega)
      exact ⟨line', fuel', hlt, hrun.trans hrun'⟩

private theorem bodyLength_typed {body : Bytes} (hb : ClosedBody body) :
    bodyLength body = body.length := by
  induction hb with
  | nil => rfl
  | @byte c body hq hc hl _ ih =>
      rw [bodyLength.eq_def]
      cases body with
      | nil => simp [hl, hq]
      | cons a body =>
          rw [List.length_cons, ← ih]
          simp [hl, hq, hc, Nat.add_comm]
  | @escape c body hl _ ih =>
      rw [bodyLength, ih, List.length_cons, List.length_cons]
      simp only [show isLineBreak caret = false by decide, show (caret == quote) = false by decide, hl,
        Bool.or_self, Bool.false_eq_true, if_false, beq_self_eq_true, if_true]
      omega

private theorem run_cutStringBody_typed {body : Bytes} (hb : ClosedBody body)
    (h : st.cursor.rest = body) :
    ∃ line, cutStringBody.run st = (body, st.goTo [] line) := by
  obtain ⟨⟨rest, line, name⟩, table, warnings, names⟩ := st
  obtain rfl : rest = body := h
  have hrun : cutStringBody.run ⟨⟨rest, line, name⟩, table, warnings, names⟩ =
      StateT.run (m := Id) (do
        if Bytes.byteAt (rest.drop (bodyLength rest)) 0 == quote then advance 1
        return rest.take (bodyLength rest))
        ⟨Cursor.advance ⟨rest, line, name⟩ (bodyLength rest), table, warnings, names⟩ := rfl
  rw [hrun, bodyLength_typed hb, List.take_length, List.drop_length, Cursor.advance, List.drop_length,
    List.take_length]
  exact ⟨_, rfl⟩

/-- The warning that is given where a block literal has no end. -/
def missesBracket (st : State) : State := ((warn (utf8 "missing " ++ quotedBracket (code ']'))).run st).2

private theorem run_warn (text : Bytes) (st : State) : ∃ w, text <:+ w ∧
    (warn text).run st = (⟨⟩, { st with warnings := w :: st.warnings }) := by
  have hrun : (warn text).run st = StateT.run (m := Id)
      (if st.cursor.name.isEmpty then note text
        else note (st.cursor.name ++ utf8 ":" ++ Bytes.ofNat st.cursor.line ++ utf8 ": " ++ text)) st := rfl
  rw [hrun]
  split
  · exact ⟨text, List.suffix_rfl, rfl⟩
  · exact ⟨_, List.suffix_append _ text, rfl⟩

/-- Where the text ends in a block literal, it is missed that the block is closed. -/
theorem run_readLiteral_unended (depth : Nat) (h : Unended r) (sp : Splicing) (hrest : st.cursor.rest = r)
    (hfuel : r.length < fuel) : ∃ line, (readLiteral k prev fuel depth sp).run st =
      ((sp, sp.source), missesBracket (st.goTo [] line)) := by
  have hend {fuel : Nat} (st : State) (hrest : st.cursor.rest = []) :
      (readLiteral k prev (fuel + 1) depth sp).run st =
        ((sp, sp.source), missesBracket (st.goTo [] st.cursor.line)) := by
    obtain ⟨⟨rest, line, name⟩, table, warnings, names⟩ := st
    obtain rfl : rest = [] := hrest
    rfl
  obtain ⟨fuel, rfl⟩ : ∃ n, fuel = n + 1 := ⟨fuel - 1, by omega⟩
  cases h with
  | nil => exact ⟨_, hend st hrest⟩
  | @string body hb =>
      rw [List.length_cons] at hfuel
      obtain ⟨fuel, rfl⟩ : ∃ n, fuel = n + 1 := ⟨fuel - 1, by omega⟩
      obtain ⟨line, hrun⟩ := run_readLiteral_at k prev depth (fuel + 1) (by decide) hrest sp
      obtain ⟨line', hcut⟩ := run_cutStringBody_typed hb
        (show (st.goTo body line).cursor.rest = body from rfl)
      have hread : (readMark k prev (fuel + 1) depth sp (quote :: body) quote).run (st.goTo body line) =
          (readLiteral k prev (fuel + 1) depth sp).run (cutStringBody.run (st.goTo body line)).2 := rfl
      rw [hcut] at hread
      exact ⟨line', (hrun.trans hread).trans (hend _ rfl)⟩
  | @comment l hl =>
      rw [List.length_cons, List.length_cons] at hfuel
      obtain ⟨fuel, rfl⟩ : ∃ n, fuel = n + 1 := ⟨fuel - 1, by omega⟩
      obtain ⟨line, hrun⟩ := run_readLiteral_comment k prev (fuel + 1) depth hl sp
        (hrest.trans (by rw [List.append_nil]))
      exact ⟨line, hrun.trans (hend _ rfl)⟩

theorem run_argument_assigned {want : Want} {segment : Bytes} {st' : State} (hwant : want.isAssigned = true)
    (h : skipBlanks false st.cursor.rest = code '[' :: s)
    (hread : (readLiteral k prev (s.length + 1) 1 { source := s }).run (st.goTo s st.cursor.line) =
      (({ source := s }, segment), st')) : ∃ code, (argument k want prev).run st = (some code, st') := by
  obtain ⟨code, hpure⟩ : ∃ code, (if segment.isEmpty then emptyLiteral k want st.cursor.name
      else plainLiteral k want segment st.cursor.name st.cursor.line) = (pure code : CompileM Code) := by
    split
    · cases want <;> cases hwant <;> exact ⟨_, rfl⟩
    · cases want <;> cases hwant <;> exact ⟨_, rfl⟩
  refine ⟨code, ?_⟩
  rw [run_argument_segment h hread, hpure]
  rfl

/-- A whole block that is assigned ends with its bracket. -/
theorem run_argument_whole {want : Want} (hwant : want.isAssigned = true) (hb : Typed 0 0 p b)
    (h : skipBlanks false st.cursor.rest = code '[' :: (b ++ code ']' :: r)) :
    ∃ code line, (argument k want prev).run st = (some code, st.goTo r line) := by
  obtain ⟨line, fuel, hlt, hread⟩ := run_readLiteral_typed k prev hb
    (apart_cons (by decide) b r) { source := b ++ code ']' :: r }
    (show (st.goTo (b ++ code ']' :: r) st.cursor.line).cursor.rest = _ from rfl) (Nat.lt_succ_self _)
  obtain ⟨fuel, rfl⟩ : ∃ n, fuel = n + 1 := ⟨fuel - 1, by omega⟩
  obtain ⟨line', hclose⟩ := run_readLiteral_at k prev 1 fuel (c := code ']') (s := r) (by decide)
    (show (st.goTo (code ']' :: r) line).cursor.rest = _ from rfl) { source := b ++ code ']' :: r }
  have hsegment : Splicing.segment { source := b ++ code ']' :: r } (code ']' :: r) = b :=
    Splicing.segment_eq rfl
  have hmark : (readMark k prev fuel 1 { source := b ++ code ']' :: r } (code ']' :: r) (code ']')).run
      (st.goTo r line') = (({ source := b ++ code ']' :: r },
        Splicing.segment { source := b ++ code ']' :: r } (code ']' :: r)), st.goTo r line') := rfl
  rw [hsegment] at hmark
  obtain ⟨code, hrun⟩ := run_argument_assigned k prev hwant h
    (hread.trans (hclose.trans hmark))
  exact ⟨code, line', hrun⟩

private theorem run_argument_unfinished {want : Want} (hwant : want.isAssigned = true)
    (hb : Typed 0 e p b)
    (hr : Unended r) (hapart : Apart b r) (h : skipBlanks false st.cursor.rest = code '[' :: (b ++ r)) :
    ∃ code line, (argument k want prev).run st = (some code, missesBracket (st.goTo [] line)) := by
  obtain ⟨line, fuel, hlt, hread⟩ := run_readLiteral_typed k prev hb hapart { source := b ++ r }
    (show (st.goTo (b ++ r) st.cursor.line).cursor.rest = _ from rfl) (Nat.lt_succ_self _)
  obtain ⟨line', hend⟩ := run_readLiteral_unended k prev (e + 1) hr
    { source := b ++ r } (show (st.goTo r line).cursor.rest = r from rfl) hlt
  obtain ⟨code, hrun⟩ := run_argument_assigned k prev hwant h (hread.trans hend)
  exact ⟨code, line', hrun⟩

end Reading

section Statements

variable {levels fuel e : Nat} {p : Int} {st st' : State} {name b r : Bytes} {pushed : Code}

/-- An assignment to a name reads one argument, whatever the name stands for. -/
theorem run_assignment (levels : Nat) (hn : Reading.isNumeral name = false) (st : State) :
    ∃ (want : Want) (prev : Nat) (missing : Code), want.isAssigned = true ∧ ∃ f : Code → Code,
      (assignment (nested (levels + 1)) (.bare name) 0).run st =
        ((argOr (nested (levels + 1)) want prev missing).run
          { st with table := (st.table.intern name).2.2 }).map (fun value => (f value.1, value.2)) id := by
  let st₁ : State := { st with table := (st.table.intern name).2.2 }
  have hname : (st.table.intern name).2.1 = true := by
    unfold Table.intern
    cases st.table.find? name with
    | none => simp [hn]
    | some i => rfl
  have hintern : (intern name).run st = ((st.table.intern name).1, st₁) := by
    have hrun : (intern name).run st = StateT.run (m := Id) (do
        if !(st.table.intern name).2.1 then
          note (utf8 "number " ++ name ++ utf8 " is not a valid identifier name")
        return (st.table.intern name).1) st₁ := rfl
    rw [hrun, hname]
    rfl
  rw [assignment, StateT.run_bind, hintern]
  obtain ⟨role, hrole⟩ : ∃ role, (roleOf (st.table.intern name).1).run st₁ = (role, st₁) :=
    ⟨_, rfl⟩
  change ∃ (want : Want) (prev : Nat) (missing : Code), want.isAssigned = true ∧ ∃ f : Code → Code,
    StateT.run (roleOf (st.table.intern name).1 >>= _) st₁ = _
  rw [StateT.run_bind, hrole]
  cases role with
  | «alias» =>
      exact ⟨.any, 0, textCode [], rfl, (· ++ plain (if (st.table.intern name).1 < maxArgs then .aliasArg
        else .alias) .null (st.table.intern name).1), rfl⟩
  | intVar =>
      exact ⟨.int, 0, intCode 0, rfl, (· ++ plain .setIntVar .null (st.table.intern name).1), rfl⟩
  | floatVar =>
      exact ⟨.float, 0, floatCode Single.zero, rfl,
        (· ++ plain .setFloatVar .null (st.table.intern name).1), rfl⟩
  | textVar =>
      exact ⟨.textView, 0, textCode [], rfl,
        (· ++ plain .setTextVar .null (st.table.intern name).1), rfl⟩
  | command | control =>
      exact ⟨.any, 0 + 1, textCode [], rfl, (viewCode name ++ · ++ plain .aliasNamed), rfl⟩

/-- The statement that gives a name a block does what reading the block does. -/
theorem run_statement_opening (levels : Nat) (hn : Entry.IsName name)
    (h : st.cursor.rest = opening name ++ r) :
    ∃ (want : Want) (prev line : Nat), want.isAssigned = true ∧ ∀ value st',
      (argument (nested levels) want prev).run (State.goTo
        { st with table := (st.table.intern name).2.2 } (0x20 :: code '[' :: r) line) =
          (some value, st') →
      ∃ pushed, (statement (nested (levels + 1)) false 0).run st = ((pushed, true), st') := by
  obtain ⟨line, hrun⟩ := run_statement_name levels hn.isWord.bare
    (r := code '=' :: 0x20 :: code '[' :: r) (by rw [h, opening, List.append_assoc]; rfl)
  have hskip : skipBlanks false (code '=' :: 0x20 :: code '[' :: r) =
      code '=' :: 0x20 :: code '[' :: r := rfl
  have hsign : isAssignment
      { rest := code '=' :: 0x20 :: code '[' :: r, line, name := st.cursor.name } = true := rfl
  obtain ⟨want, prev, missing, hwant, f, hassign⟩ :=
    run_assignment levels hn.isNumeral (st.goTo (0x20 :: code '[' :: r) line)
  refine ⟨want, prev, line, hwant, fun value st' hvalue => ⟨f value, ?_⟩⟩
  have harg : ((nested (levels + 1)).arg want prev).run (State.goTo
      { st with table := (st.table.intern name).2.2 } (0x20 :: code '[' :: r) line) =
        (some value, st') := hvalue
  have hvalue : (argOr (nested (levels + 1)) want prev missing).run (State.goTo
      { st with table := (st.table.intern name).2.2 } (0x20 :: code '[' :: r) line) =
        ((value, true), st') := by
    rw [argOr, StateT.run_bind, harg]
    rfl
  rw [hskip, hsign, if_pos rfl] at hrun
  refine hrun.trans ?_
  change (assignment (nested (levels + 1)) (.bare name) 0).run
    (st.goTo (0x20 :: code '[' :: r) line) = _
  rw [hassign]
  exact congrArg (Prod.map (fun value => (f value.1, value.2)) id) hvalue

theorem Definition.Whole.lineOf {d : Definition} (hd : d.Whole) (levels : Nat)
    (h : st.cursor.rest = d.line ++ r) :
    ∃ pushed, LineOf levels st (st.table.intern d.name).2.2 pushed r := by
  have hrest : st.cursor.rest = opening d.name ++ (d.body ++ code ']' :: 0x0A :: r) := by
    rw [h, Definition.line]
    simp
  obtain ⟨want, prev, line, hwant, hread⟩ := run_statement_opening levels hd.name hrest
  obtain ⟨value, line', hvalue⟩ := run_argument_whole (nested levels) prev hwant hd.body
    (show skipBlanks false (State.goTo { st with table := (st.table.intern d.name).2.2 }
      (0x20 :: code '[' :: (d.body ++ code ']' :: 0x0A :: r)) line).cursor.rest = _ from rfl)
  obtain ⟨pushed, hrun⟩ := hread value _ hvalue
  exact ⟨pushed, true, 0x0A :: r, line', hrun, .words (spells_lineFeed r)⟩

/-- Behind whole definitions the compiler goes on without a warning. -/
theorem run_statementsFrom_lines {ds : List Definition} (hds : ∀ d ∈ ds, d.Whole) (levels : Nat)
    (h : st.cursor.rest = ds.flatMap Definition.line ++ r) (hfuel : st.cursor.rest.length < fuel) :
    ∃ st' fuel', st'.cursor.rest = r ∧ st'.warnings = st.warnings ∧ r.length < fuel' ∧
      ((statementsFrom (nested (levels + 1)) false 0 0 fuel).run st).2 =
        ((statementsFrom (nested (levels + 1)) false 0 0 fuel').run st').2 := by
  induction ds generalizing st fuel with
  | nil => exact ⟨st, fuel, h, rfl, by rwa [h] at hfuel, rfl⟩
  | cons d ds ih =>
      rw [List.flatMap_cons, List.append_assoc] at h
      obtain ⟨pushed, hline⟩ := (hds d List.mem_cons_self).lineOf levels h
      obtain ⟨fuel, rfl⟩ : ∃ n, fuel = n + 1 := ⟨fuel - 1, by omega⟩
      obtain ⟨line, hrun⟩ := hline.run_statementsFrom fuel
      let st₁ := State.goTo { st with table := (st.table.intern d.name).2.2 }
        (ds.flatMap Definition.line ++ r) line
      have hshorter : st₁.cursor.rest.length < fuel := by
        have hpos : 0 < d.line.length := by
          rw [Definition.line, List.length_append, List.length_append, List.length_cons]
          omega
        rw [h, List.length_append] at hfuel
        change (ds.flatMap Definition.line ++ r).length < fuel
        omega
      obtain ⟨st', fuel', hrest, hwarnings, hlt, hrun'⟩ :=
        ih (fun d' hd' => hds d' (List.mem_cons_of_mem d hd')) (show st₁.cursor.rest = _ from rfl) hshorter
      exact ⟨st', fuel', hrest, hwarnings, hlt, (congrArg Prod.snd hrun).trans hrun'⟩

/-- Where the last statement ends with the text, nothing more is missed. -/
theorem run_statementsFrom_last (levels fuel : Nat) (hrest : st'.cursor.rest = [])
    (h : (statement (nested (levels + 1)) false 0).run st = ((pushed, true), st')) :
    ((statementsFrom (nested (levels + 1)) false 0 0 (fuel + 1)).run st).2.warnings = st'.warnings := by
  have hnone : ((nested (levels + 1)).arg .nothing 0).run st' =
      (none, st'.goTo [] st'.cursor.line) :=
    run_argument_none (by rw [hrest]; exact .nil rfl ⟨by decide, by decide, by decide, by decide⟩ rfl)
      .nothing 0
  have hsurplus : (surplusArgs (nested (levels + 1)) true 0).run st' =
      ([], st'.goTo [] st'.cursor.line) := by
    change StateT.run (dropArgs (nested (levels + 1)) 0 (st'.cursor.rest.length + 1)) st' = _
    rw [dropArgs, StateT.run_bind, hnone]
    rfl
  have hcursor : cursor.run st' = (st'.cursor, st') := rfl
  rw [statementsFrom, StateT.run_bind, h]
  change (StateT.run (cursor >>= _) st').2.warnings = _
  rw [StateT.run_bind, hcursor]
  change (StateT.run (surplusArgs (nested (levels + 1)) true 0 >>= _) st').2.warnings = _
  rw [StateT.run_bind, hsurplus]
  rfl

end Statements

section Console

variable {whole : Bool} {src : Bytes}

/-- The console waits while more brackets are open than closed, which is while the last definition is
being typed. -/
theorem Entered.isIncomplete (h : Entered whole src) : isIncomplete src = !whole := by
  cases h with
  | unfinished hds hn hb hp hr hapart =>
      refine decide_eq_true ?_
      rw [bracketDepth_lines hds, bracketDepth_opening hn, hb.bracketDepth hapart, hr.bracketDepth]
      omega
  | whole hds hd =>
      refine decide_eq_false ?_
      rw [bracketDepth_lines hds, bracketDepth_opening hd.name,
        hd.body.bracketDepth (apart_cons (by decide) _ _)]
      decide

/-- The compiler gives no warning but that the last definition has no end, if it has none. -/
theorem Entered.warnings (h : Entered whole src) (t : Table) (label : Bytes) :
    ∃ w, utf8 "missing " ++ quotedBracket (code ']') <:+ w ∧
      (compile t src label).warnings = if whole then [] else [w] := by
  let st : State := { cursor := { rest := src, name := label }, table := t }
  have hprogram : program t src label =
      (statementsFrom (nested (src.length + 3 + 1)) false 0 0 (src.length + 1)).run st := by
    have hcursor (st : State) : cursor.run st = (st.cursor, st) := rfl
    rw [program, statements, StateT.run_bind, hcursor]
    rfl
  have hwarnings : (compile t src label).warnings = ((statementsFrom (nested (src.length + 3 + 1))
      false 0 0 (src.length + 1)).run st).2.warnings.reverse := by
    rw [← hprogram]
    rfl
  rw [hwarnings]
  generalize src.length + 3 = levels
  cases h with
  | @unfinished ds name b r e p hds hn hb hp hr hapart =>
      obtain ⟨st₁, fuel, hrest, hnone, hlt, hlines⟩ :=
        run_statementsFrom_lines hds levels (show st.cursor.rest = _ from rfl) (Nat.lt_succ_self _)
      obtain ⟨fuel, rfl⟩ : ∃ n, fuel = n + 1 := ⟨fuel - 1, by omega⟩
      obtain ⟨want, prev, line, hwant, hread⟩ := run_statement_opening levels hn hrest
      obtain ⟨value, line', hvalue⟩ := run_argument_unfinished (nested levels) prev
        hwant hb hr hapart (show skipBlanks false (State.goTo { st₁ with table := (st₁.table.intern name).2.2 }
          (0x20 :: code '[' :: (b ++ r)) line).cursor.rest = _ from rfl)
      obtain ⟨pushed, hrun⟩ := hread value _ hvalue
      obtain ⟨w, hsuffix, hwarn⟩ := run_warn (utf8 "missing " ++ quotedBracket (code ']'))
        (State.goTo (State.goTo { st₁ with table := (st₁.table.intern name).2.2 }
          (0x20 :: code '[' :: (b ++ r)) line) [] line')
      rw [missesBracket, hwarn] at hrun
      refine ⟨w, hsuffix, ?_⟩
      rw [hlines, run_statementsFrom_last levels fuel rfl hrun]
      change (w :: st₁.warnings).reverse = [w]
      rw [hnone]
      rfl
  | @whole ds d hds hd =>
      obtain ⟨st₁, fuel, hrest, hnone, hlt, hlines⟩ :=
        run_statementsFrom_lines hds levels (show st.cursor.rest = _ from rfl) (Nat.lt_succ_self _)
      obtain ⟨fuel, rfl⟩ : ∃ n, fuel = n + 1 := ⟨fuel - 1, by omega⟩
      obtain ⟨want, prev, line, hwant, hread⟩ := run_statement_opening levels hd.name hrest
      obtain ⟨value, line', hvalue⟩ := run_argument_whole (nested levels) prev
        hwant hd.body (show skipBlanks false (State.goTo { st₁ with table := (st₁.table.intern d.name).2.2 }
          (0x20 :: code '[' :: (d.body ++ [code ']'])) line).cursor.rest = _ from rfl)
      obtain ⟨pushed, hrun⟩ := hread value _ hvalue
      refine ⟨_, List.suffix_rfl, ?_⟩
      rw [hlines, run_statementsFrom_last levels fuel rfl hrun]
      change st₁.warnings.reverse = []
      rw [hnone]
      rfl

/-- The console waits for what the compiler misses. Where definitions of blocks are entered, line by
line, with any text in the blocks that opens what it closes, the console waits for more as long as the
last definition lacks its end, and this is exactly as long as the compiler says that an end is missing,
whatever identifiers there are. -/
theorem console_waits_for_end (h : Entered whole src) (t : Table) (label : Bytes) :
    (isIncomplete src = true ↔ (compile t src label).LacksEnd) ∧ isIncomplete src = !whole := by
  obtain ⟨w, hw, hwarnings⟩ := h.warnings t label
  refine ⟨?_, h.isIncomplete⟩
  rw [h.isIncomplete, Compile.Output.LacksEnd, hwarnings]
  cases whole with
  | false =>
      refine ⟨fun _ => ⟨w, List.mem_singleton_self w, code ']', ?_, hw⟩, fun _ => rfl⟩
      exact List.mem_cons_of_mem _ List.mem_cons_self
  | true => exact ⟨nofun, fun ⟨_, hmem, _⟩ => absurd hmem List.not_mem_nil⟩

/-- Behind a whole definition another one is being typed, and a comment in it. -/
theorem console_waits_for_end_comment :
    Entered false (utf8 "f = [a]\ng = [b [// c") ∧ isIncomplete (utf8 "f = [a]\ng = [b [// c") = true ∧
      (compile Interp.new.table (utf8 "f = [a]\ng = [b [// c") []).LacksEnd := by
  have hname (c : UInt8) (hc : (Byte.isAlnum c || c == code '_') = true)
      (hdigit : Byte.isDigit c = false) : Entry.IsName [c] :=
    ⟨List.cons_ne_nil c [], fun c' hc' => List.mem_singleton.mp hc' ▸ hc, hdigit⟩
  have hbyte {d e : Nat} {p : Int} (c : UInt8) {s : Bytes} (hm : isMark c = false ∧ c ≠ code '(' ∧
      c ≠ code ')') (h : Typed d e p s) : Typed d e p (c :: s) := .byte hm.1 hm.2.1 hm.2.2 h
  have hwhole : Definition.Whole ⟨utf8 "f", utf8 "a"⟩ :=
    ⟨hname (code 'f') (by decide) (by decide), hbyte (code 'a') (by decide) (.nil 0)⟩
  have hentered : Entered false (utf8 "f = [a]\ng = [b [// c") :=
    .unfinished (fun d hd => List.mem_singleton.mp hd ▸ hwhole)
      (hname (code 'g') (by decide) (by decide))
      (hbyte (code 'b') (by decide) (hbyte 0x20 (by decide) (.openBracket (.nil 1)))) (by decide)
      (.comment (l := utf8 " c") (by decide))
      (fun b' hb' => absurd (congrArg List.getLast? hb') (by rw [List.getLast?_concat]; decide))
  obtain ⟨hwaits, hwhole⟩ := console_waits_for_end hentered Interp.new.table []
  exact ⟨hentered, hwhole, hwaits.mp hwhole⟩

end Console

end CommandLine

end ConsoleScript
