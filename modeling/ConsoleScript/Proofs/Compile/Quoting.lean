import ConsoleScript.Persist.Config
import ConsoleScript.Proofs.Compile.Agreement

/-!
Texts that read back. A text that is put between quotes, with its escapes, is a string argument that
gives the text again, and a text that reads back from between brackets is a block literal that does,
but for its carriage returns.
-/

namespace ConsoleScript

open Bytecode Syntax Compile

/-- A value without a carriage return, and without a caret that takes a line feed with it. -/
def Entry.IsClean (s : Bytes) : Prop := 0x0D ∉ s ∧ ¬[caret, 0x0A] <:+: s

theorem Entry.IsClean.tail {c : UInt8} {s : Bytes} (h : IsClean (c :: s)) : IsClean s :=
  ⟨fun hm => h.1 (List.mem_cons_of_mem c hm), fun hm => h.2 (hm.trans (List.suffix_cons c s).isInfix)⟩

/-- Between the quotes of a text no caret stands before a line break, which would end the string in
source. The mode tells whether a string is open. -/
def Entry.unbrokenFrom : (inString : Bool) → Bytes → Bool
  | _, [] => true
  | false, c :: s => unbrokenFrom (c == quote) s
  | true, c :: s =>
      if c == quote then unbrokenFrom false s
      else if c == caret then
        match s with
        | [] => true
        | e :: s => !isLineBreak e && unbrokenFrom true s
      else unbrokenFrom true s

def Entry.unbroken (s : Bytes) : Bool := unbrokenFrom false s

/-- A clean text has no such caret. -/
theorem Entry.IsClean.unbrokenFrom {inString : Bool} {s : Bytes} (h : IsClean s) :
    unbrokenFrom inString s = true := by
  fun_induction Entry.unbrokenFrom inString s with
  | case1 | case4 => rfl
  | case2 c s ih => exact ih h.tail
  | case3 c s hq ih => exact ih h.tail
  | case5 c hq hc e s ih =>
      obtain rfl := beq_iff_eq.mp hc
      have hr : e ≠ 0x0D := fun he => h.1 (by simp [he])
      have hf : e ≠ 0x0A := by
        rintro rfl
        exact h.2 ⟨[], s, rfl⟩
      rw [ih h.tail.tail, Bool.and_true]
      simp [isLineBreak, hr, hf]
  | case6 c s hq hc ih => exact ih h.tail

namespace Compile

/-- The body of a block literal that is read as it stands: there is no splice and no comment in it. -/
inductive Verbatim : (depth : Nat) → Bytes → Prop
  | nil : Verbatim 0 []
  | byte {d : Nat} {c : UInt8} {s : Bytes} (hm : isMark c = false ∨ c = code '/')
      (hs : startsComment (c :: s) = false) (h : Verbatim d s) : Verbatim d (c :: s)
  | string {d : Nat} {body s : Bytes} (hb : ClosedBody body) (h : Verbatim d s) :
      Verbatim d (quote :: (body ++ quote :: s))
  | opening {d : Nat} {s : Bytes} (h : Verbatim (d + 1) s) : Verbatim d (code '[' :: s)
  | closing {d : Nat} {s : Bytes} (h : Verbatim d s) : Verbatim (d + 1) (code ']' :: s)

section Texts

theorem isMark_of_ne {c : UInt8} (hat : c ≠ code '@') (hq : c ≠ quote) (hs : c ≠ code '/')
    (ho : c ≠ code '[') (hc : c ≠ code ']') : isMark c = false := by
  simp [isMark, hat, hq, hs, ho, hc]

/-- A text without its carriage returns. -/
def withoutReturns (s : Bytes) : Bytes := s.filter (· != 0x0D)

theorem withoutReturns_cons {c : UInt8} (hr : c ≠ 0x0D) (s : Bytes) :
    withoutReturns (c :: s) = c :: withoutReturns s :=
  List.filter_cons_of_pos (p := (· != (0x0D : UInt8))) (bne_iff_ne.mpr hr)

private theorem withoutReturns_append (s t : Bytes) :
    withoutReturns (s ++ t) = withoutReturns s ++ withoutReturns t :=
  List.filter_append s t

theorem withoutReturns_eq_iff {s : Bytes} : withoutReturns s = s ↔ 0x0D ∉ s := by
  rw [withoutReturns, List.filter_eq_self]
  exact ⟨fun h hm => absurd (h _ hm) (by decide), fun h c hc => bne_iff_ne.mpr fun he => h (he ▸ hc)⟩

theorem ClosedBody.withoutReturns {body : Bytes} (h : ClosedBody body) :
    withoutReturns body = body := by
  have hne {c : UInt8} (hl : isLineBreak c = false) : c ≠ 0x0D := by
    rintro rfl
    cases hl
  induction h with
  | nil => rfl
  | byte _ _ hl _ ih => rw [withoutReturns_cons (hne hl), ih]
  | escape hl _ ih => rw [withoutReturns_cons (by decide), withoutReturns_cons (hne hl), ih]

/-- The text of such a body is the body without its carriage returns. -/
theorem Verbatim.blockText {d : Nat} {b : Bytes} (h : Verbatim d b) :
    blockText .plain b = withoutReturns b := by
  have hbyte {c : UInt8} {s : Bytes} (hq : c ≠ quote) (hs : startsComment (c :: s) = false)
      (ih : Compile.blockText .plain s = withoutReturns s) :
      Compile.blockText .plain (c :: s) = withoutReturns (c :: s) := by
    by_cases hr : c = 0x0D
    · subst hr
      exact ih
    · rw [Compile.blockText, hs, ih, withoutReturns_cons hr]
      simp [hq, hr]
  induction h with
  | nil => rfl
  | byte hm hs _ ih =>
      refine hbyte ?_ hs ih
      rintro rfl
      rcases hm with hm | hm <;> cases hm
  | @string d body s hb _ ih =>
      have hopen : Compile.blockText .plain (quote :: (body ++ quote :: s)) =
          quote :: Compile.blockText .quoted (body ++ quote :: s) := rfl
      rw [hopen, hb.blockText, ih, withoutReturns_cons (by decide), withoutReturns_append,
        hb.withoutReturns, withoutReturns_cons (by decide)]
  | opening _ ih | closing _ ih => exact hbyte (by decide) rfl ih

/-- A text that reads back from between brackets is read as it stands there, if none of its strings is
broken; behind an opening quote it closes the string first. -/
theorem verbatim_of_readsBackFrom {inString : Bool} {stack s : Bytes}
    (hs : Entry.unbrokenFrom inString s = true) : Entry.readsBackFrom inString stack s = true →
    bif inString then ∃ body rest, s = body ++ quote :: rest ∧ ClosedBody body ∧
      Verbatim (stack.count (code '[')) rest
    else Verbatim (stack.count (code '[')) s := by
  intro h
  fun_induction Entry.readsBackFrom inString stack s with
  | case1 stack =>
      obtain rfl := List.isEmpty_iff.mp h
      exact .nil
  | case2 | case5 | case7 | case10 | case11 => cases h
  | case3 stack c s hc ih =>
      rcases Bool.or_eq_true_iff.mp hc with hc | hc <;> obtain rfl := beq_iff_eq.mp hc
      · have ih := ih hs h
        rw [List.count_cons_self] at ih
        exact .opening ih
      · have ih := ih hs h
        rw [List.count_cons_of_ne (show code '(' ≠ code '[' by decide)] at ih
        exact .byte (.inl rfl) rfl ih
  | case4 c s _ hc opening d outer ih =>
      obtain ⟨hd, h⟩ := Bool.and_eq_true_iff.mp h
      rcases Bool.or_eq_true_iff.mp hc with hc | hc <;> obtain rfl := beq_iff_eq.mp hc <;>
        obtain rfl := beq_iff_eq.mp hd
      · change Verbatim ((code '[' :: outer).count (code '[')) _
        rw [List.count_cons_self]
        exact .closing (ih hs h)
      · change Verbatim ((code '(' :: outer).count (code '[')) _
        rw [List.count_cons_of_ne (show code '(' ≠ code '[' by decide)]
        exact .byte (.inl rfl) rfl (ih hs h)
  | case6 stack c s _ _ hc ih =>
      obtain rfl := beq_iff_eq.mp hc
      obtain ⟨body, rest, rfl, hb, hrest⟩ := ih hs h
      exact .string hb hrest
  | case8 stack c s ho hc hq hp ih =>
      simp only [Bool.or_eq_true, not_or, beq_iff_eq, Bool.not_eq_true] at ho hc hp
      have hs : Entry.unbrokenFrom false s = true := by
        rwa [Entry.unbrokenFrom, Bool.eq_false_iff.mpr hq] at hs
      refine .byte ?_ hp.2 (ih hs h)
      by_cases hslash : c = code '/'
      · exact .inr hslash
      · exact .inl (isMark_of_ne hp.1.1 (by simpa using hq) hslash ho.1 hc.1)
  | case9 stack c s hc ih =>
      obtain rfl := beq_iff_eq.mp hc
      have hs : Entry.unbrokenFrom false s = true := by rwa [Entry.unbrokenFrom.eq_def] at hs
      exact ⟨[], s, rfl, .nil, ih hs h⟩
  | case12 stack c hq hl hc e s ih =>
      obtain rfl := beq_iff_eq.mp hc
      obtain ⟨he, hs⟩ := Bool.and_eq_true_iff.mp
        (show (!isLineBreak e && Entry.unbrokenFrom true s) = true from hs)
      obtain ⟨body, rest, rfl, hb, hrest⟩ := ih hs h
      exact ⟨caret :: e :: body, rest, rfl, .escape (by simpa using he) hb, hrest⟩
  | case13 stack c s hq hl hc ih =>
      have hs : Entry.unbrokenFrom true s = true := by
        rw [Entry.unbrokenFrom.eq_def] at hs
        dsimp only at hs
        rwa [if_neg hq, if_neg hc] at hs
      obtain ⟨body, rest, rfl, hb, hrest⟩ := ih hs h
      exact ⟨c :: body, rest, rfl, .byte (by simpa using hq) (by simpa using hc) (by simpa using hl) hb,
        hrest⟩

theorem verbatim_of_readsBack {s : Bytes} (h : Entry.readsBack s = true)
    (hs : Entry.unbroken s = true) : Verbatim 0 s :=
  verbatim_of_readsBackFrom hs h

/-- The forms that a byte takes between quotes. -/
theorem escapeByte_cases (c : UInt8) : (escapeByte c = [c] ∧ c ≠ quote ∧ c ≠ caret ∧ c ≠ 0x0A) ∨
    ∃ e, escapeByte c = [caret, e] ∧ isLineBreak e = false ∧
      ∀ s, unescape (caret :: e :: s) = c :: unescape s := by
  by_cases hfeed : c = 0x0A
  · subst hfeed
    exact .inr ⟨code 'n', rfl, rfl, fun s => by rw [unescape.eq_def]; rfl⟩
  by_cases htab : c = 0x09
  · subst htab
    exact .inr ⟨code 't', rfl, rfl, fun s => by rw [unescape.eq_def]; rfl⟩
  by_cases hform : c = 0x0C
  · subst hform
    exact .inr ⟨code 'f', rfl, rfl, fun s => by rw [unescape.eq_def]; rfl⟩
  by_cases hquote : c = quote
  · subst hquote
    exact .inr ⟨quote, rfl, rfl, fun s => by rw [unescape.eq_def]; rfl⟩
  by_cases hcaret : c = caret
  · subst hcaret
    exact .inr ⟨caret, rfl, rfl, fun s => by rw [unescape.eq_def]; rfl⟩
  refine .inl ⟨?_, hquote, hcaret, hfeed⟩
  simp [escapeByte, hfeed, htab, hform, hquote, hcaret]

theorem unescape_cons {c : UInt8} (hr : c ≠ 0x0D) (hc : c ≠ caret) (s : Bytes) :
    unescape (c :: s) = c :: unescape s := by
  rw [unescape.eq_def]
  cases s <;> simp [hr, hc, unescape]

theorem unescape_escape {s : Bytes} (hs : 0x0D ∉ s) : unescape (s.flatMap escapeByte) = s := by
  induction s with
  | nil => rfl
  | cons c s ih =>
      obtain ⟨hr, hs⟩ := List.ne_and_not_mem_of_not_mem_cons hs
      rw [List.flatMap_cons]
      rcases escapeByte_cases c with ⟨hc, -, hcaret, -⟩ | ⟨e, hc, -, hback⟩ <;> rw [hc]
      · rw [List.singleton_append, unescape_cons hr.symm hcaret, ih hs]
      · rw [List.cons_append, List.singleton_append, hback, ih hs]

theorem closedBody_escape {s : Bytes} (hs : 0x0D ∉ s) : ClosedBody (s.flatMap escapeByte) := by
  induction s with
  | nil => exact .nil
  | cons c s ih =>
      obtain ⟨hr, hs⟩ := List.ne_and_not_mem_of_not_mem_cons hs
      rw [List.flatMap_cons]
      rcases escapeByte_cases c with ⟨hc, hq, hcaret, hf⟩ | ⟨e, hc, hl, -⟩ <;> rw [hc]
      · refine .byte hq hcaret ?_ (ih hs)
        simp [isLineBreak, hr.symm, hf]
      · exact .escape hl (ih hs)

end Texts

section Steps

variable {k : Nested} {prev depth fuel : Nat} {st : State} {s r : Bytes}

theorem Cursor.advance_append (u r : Bytes) (line : Nat) (name : Bytes) :
    Cursor.advance ⟨u ++ r, line, name⟩ u.length = ⟨r, line + u.count 0x0A, name⟩ := by
  rw [Cursor.advance, List.drop_left, List.take_left]

/-- The body of a string is passed over with the quote behind it. -/
theorem run_cutStringBody_closed (st : State) {body : Bytes} (hb : ClosedBody body)
    (h : st.cursor.rest = body ++ quote :: r) :
    ∃ line, cutStringBody.run st = (body, st.goTo r line) := by
  obtain ⟨⟨rest, line, name⟩, table, warnings, names⟩ := st
  obtain rfl : rest = body ++ quote :: r := h
  have hrun : cutStringBody.run ⟨⟨body ++ quote :: r, line, name⟩, table, warnings, names⟩ =
      StateT.run (m := Id) (do
        if Bytes.byteAt ((body ++ quote :: r).drop (bodyLength (body ++ quote :: r))) 0 == quote then
          advance 1
        return (body ++ quote :: r).take (bodyLength (body ++ quote :: r)))
        ⟨Cursor.advance ⟨body ++ quote :: r, line, name⟩ (bodyLength (body ++ quote :: r)), table,
          warnings, names⟩ := rfl
  rw [hrun, hb.bodyLength, List.take_left, List.drop_left, Cursor.advance_append]
  exact ⟨_, rfl⟩

/-- A string in the source is its value. -/
theorem run_cutString (st : State) (hs : 0x0D ∉ s) (hrest : st.cursor.rest = escape s ++ r) :
    ∃ line, cutString.run st = (s, st.goTo r line) := by
  obtain ⟨⟨rest, line, name⟩, table, warnings, names⟩ := st
  obtain rfl : rest = quote :: (s.flatMap escapeByte ++ quote :: r) := by
    have hrest : rest = escape s ++ r := hrest
    rw [hrest, escape]
    simp
  obtain ⟨line', hbody⟩ := run_cutStringBody_closed
    ⟨⟨s.flatMap escapeByte ++ quote :: r, line, name⟩, table, warnings, names⟩
    (closedBody_escape hs) rfl
  have hrun : cutString.run
      ⟨⟨quote :: (s.flatMap escapeByte ++ quote :: r), line, name⟩, table, warnings, names⟩ =
      (cutStringBody.run ⟨⟨s.flatMap escapeByte ++ quote :: r, line, name⟩, table, warnings, names⟩).map
        unescape id := rfl
  rw [hrun, hbody, Prod.map, unescape_escape hs]
  exact ⟨line', rfl⟩

variable (k prev depth fuel) in
/-- A byte that is no mark is passed over in a block literal. -/
theorem run_readLiteral_pass {c : UInt8} (hc : isMark c = false) (h : st.cursor.rest = c :: s)
    (sp : Splicing) : ∃ line, (readLiteral k prev (fuel + 1) depth sp).run st =
      (readLiteral k prev (fuel + 1) depth sp).run (st.goTo s line) := by
  obtain ⟨⟨rest, line, name⟩, table, warnings, names⟩ := st
  obtain rfl : rest = c :: s := h
  refine ⟨line + [c].count 0x0A, ?_⟩
  have hskip : Cursor.skipTo isMark ⟨c :: s, line, name⟩ =
      Cursor.skipTo isMark ⟨s, line + [c].count 0x0A, name⟩ := by
    have hbefore : Cursor.before isMark ⟨c :: s, line, name⟩ =
        c :: Cursor.before isMark ⟨s, line + [c].count 0x0A, name⟩ :=
      List.takeWhile_cons_of_pos (by rw [hc]; rfl)
    generalize hw : Cursor.before isMark ⟨s, line + [c].count 0x0A, name⟩ = w at hbefore
    rw [Cursor.skipTo, hbefore, Cursor.skipTo, hw]
    change (⟨s.drop w.length, line + ([c] ++ s.take w.length).count 0x0A, name⟩ : Cursor) =
      ⟨s.drop w.length, line + [c].count 0x0A + (s.take w.length).count 0x0A, name⟩
    rw [List.count_append, Nat.add_assoc]
  have hrun (cur : Cursor) : (readLiteral k prev (fuel + 1) depth sp).run ⟨cur, table, warnings, names⟩ =
      StateT.run (m := Id) (do
        if (cur.skipTo isMark).rest.isEmpty then
          warn (utf8 "missing " ++ quotedBracket (code ']'))
          return (sp, sp.source)
        else readMark k prev fuel depth sp (cur.skipTo isMark).rest (← next))
        ⟨cur.skipTo isMark, table, warnings, names⟩ := rfl
  rw [hrun, hskip]
  exact (hrun _).symm

variable (k prev depth fuel) in
/-- At a mark a block literal is read by what the mark is. -/
theorem run_readLiteral_at {c : UInt8} (hc : isMark c = true) (h : st.cursor.rest = c :: s)
    (sp : Splicing) : ∃ line, (readLiteral k prev (fuel + 1) depth sp).run st =
      (readMark k prev fuel depth sp (c :: s) c).run (st.goTo s line) := by
  obtain ⟨⟨rest, line, name⟩, table, warnings, names⟩ := st
  obtain rfl : rest = c :: s := h
  have hskip : Cursor.skipTo isMark ⟨c :: s, line, name⟩ = ⟨c :: s, line, name⟩ := by
    have hbefore : Cursor.before isMark ⟨c :: s, line, name⟩ = [] :=
      List.takeWhile_cons_of_neg (by rw [hc]; decide)
    rw [Cursor.skipTo, hbefore]
    rfl
  have hrun : (readLiteral k prev (fuel + 1) depth sp).run
      ⟨⟨c :: s, line, name⟩, table, warnings, names⟩ = StateT.run (m := Id) (do
        if (Cursor.skipTo isMark ⟨c :: s, line, name⟩).rest.isEmpty then
          warn (utf8 "missing " ++ quotedBracket (code ']'))
          return (sp, sp.source)
        else readMark k prev fuel depth sp (Cursor.skipTo isMark ⟨c :: s, line, name⟩).rest (← next))
        ⟨Cursor.skipTo isMark ⟨c :: s, line, name⟩, table, warnings, names⟩ := rfl
  rw [hrun, hskip]
  exact ⟨_, rfl⟩

/-- A body that is read as it stands is the segment of its block literal. -/
theorem run_readLiteral_verbatim (k : Nested) (prev : Nat) (st : State) {d : Nat} {b : Bytes}
    (hb : Verbatim d b) (sp : Splicing) (front : Bytes) (h : st.cursor.rest = b ++ code ']' :: r) (hfuel : st.cursor.rest.length < fuel)
    (hsp : sp.source = front ++ st.cursor.rest) :
    ∃ line, (readLiteral k prev fuel (d + 1) sp).run st = ((sp, front ++ b), st.goTo r line) := by
  rw [h] at hfuel hsp
  induction hb generalizing st front fuel with
  | nil =>
      obtain ⟨fuel, rfl⟩ : ∃ n, fuel = n + 1 := ⟨fuel - 1, by omega⟩
      obtain ⟨line, hrun⟩ := run_readLiteral_at k prev 1 fuel (by decide) h sp
      refine ⟨line, hrun.trans ?_⟩
      have hsegment : sp.segment (code ']' :: r) = front := Splicing.segment_eq hsp
      change ((sp, sp.segment (code ']' :: r)), st.goTo r line) = _
      rw [hsegment, List.append_nil]
  | @byte d c s hm hs hb ih =>
      obtain ⟨fuel, rfl⟩ : ∃ n, fuel = n + 1 := ⟨fuel - 1, by omega⟩
      rw [List.cons_append, List.length_cons] at hfuel
      rw [List.cons_append, List.append_cons] at hsp
      rw [List.append_cons]
      rcases hm with hm | rfl
      · obtain ⟨line, hrun⟩ := run_readLiteral_pass k prev (d + 1) fuel hm h sp
        rw [hrun]
        exact @ih (fuel + 1) (st.goTo (s ++ code ']' :: r) line) _ rfl (by omega) hsp
      · obtain ⟨line, hrun⟩ := run_readLiteral_at k prev (d + 1) fuel (by decide) h sp
        have hslash : (Bytes.byteAt (s ++ code ']' :: r) 0 == code '/') = false := by
          rw [startsComment_eq] at hs
          cases s with
          | nil => rfl
          | cons a s => exact hs
        have hread : (readMark k prev fuel (d + 1) sp (code '/' :: (s ++ code ']' :: r)) (code '/')).run
            (st.goTo (s ++ code ']' :: r) line) = StateT.run (m := Id) (do
              if Bytes.byteAt (s ++ code ']' :: r) 0 == code '/' then skipTo (· == 0x0A)
              readLiteral k prev fuel (d + 1) sp) (st.goTo (s ++ code ']' :: r) line) := rfl
        rw [hslash] at hread
        obtain ⟨line', hrun'⟩ :=
          @ih fuel (st.goTo (s ++ code ']' :: r) line) _ rfl (by omega) hsp
        exact ⟨line', (hrun.trans hread).trans hrun'⟩
  | @string d body s hbody hb ih =>
      obtain ⟨fuel, rfl⟩ : ∃ n, fuel = n + 1 := ⟨fuel - 1, by omega⟩
      have hpiece : quote :: (body ++ quote :: s) = (quote :: (body ++ [quote])) ++ s := by simp
      rw [hpiece, List.append_assoc, List.length_append] at hfuel
      rw [hpiece, List.append_assoc, ← List.append_assoc] at hsp
      obtain ⟨line, hrun⟩ := run_readLiteral_at k prev (d + 1) fuel (c := quote) (by decide)
        (show st.cursor.rest = quote :: (body ++ quote :: (s ++ code ']' :: r)) by simpa using h) sp
      obtain ⟨line', hcut⟩ := run_cutStringBody_closed
        (st.goTo (body ++ quote :: (s ++ code ']' :: r)) line) hbody rfl
      have hread : (readMark k prev fuel (d + 1) sp (quote :: (body ++ quote :: (s ++ code ']' :: r)))
          quote).run (st.goTo (body ++ quote :: (s ++ code ']' :: r)) line) =
          (readLiteral k prev fuel (d + 1) sp).run
            (cutStringBody.run (st.goTo (body ++ quote :: (s ++ code ']' :: r)) line)).2 := rfl
      obtain ⟨line'', hrun'⟩ := @ih fuel (st.goTo (s ++ code ']' :: r) line') _ rfl
        (by rw [List.length_cons] at hfuel; omega) hsp
      rw [hcut] at hread
      refine ⟨line'', (hrun.trans hread).trans (hrun'.trans ?_)⟩
      rw [hpiece, List.append_assoc front]
      rfl
  | @opening d s hb ih =>
      obtain ⟨fuel, rfl⟩ : ∃ n, fuel = n + 1 := ⟨fuel - 1, by omega⟩
      obtain ⟨line, hrun⟩ := run_readLiteral_at k prev (d + 1) fuel (by decide) h sp
      rw [List.cons_append, List.length_cons] at hfuel
      rw [List.cons_append, List.append_cons] at hsp
      rw [hrun, List.append_cons]
      exact @ih fuel (st.goTo (s ++ code ']' :: r) line) _ rfl (by omega) hsp
  | @closing d s hb ih =>
      obtain ⟨fuel, rfl⟩ : ∃ n, fuel = n + 1 := ⟨fuel - 1, by omega⟩
      obtain ⟨line, hrun⟩ := run_readLiteral_at k prev (d + 2) fuel (by decide) h sp
      rw [List.cons_append, List.length_cons] at hfuel
      rw [List.cons_append, List.append_cons] at hsp
      rw [hrun, List.append_cons]
      exact @ih fuel (st.goTo (s ++ code ']' :: r) line) _ rfl (by omega) hsp

end Steps

section Literals

variable {k : Nested} {prev : Nat} {st : State} {b r : Bytes}

def Want.pushText? : Want → Option (Bytes → Code)
  | .any | .text | .head => some textCode
  | .anyView | .textView => some viewCode
  | _ => none

/-- An argument that begins with a bracket is what is made of the segment that is read behind it, if
there is no splice in it. -/
theorem run_argument_segment {want : Want} {s segment : Bytes} {st' : State}
    (h : skipBlanks false st.cursor.rest = code '[' :: s)
    (hread : (readLiteral k prev (s.length + 1) 1 { source := s }).run (st.goTo s st.cursor.line) =
      (({ source := s }, segment), st')) :
    (argument k want prev).run st = (StateT.run (m := Id)
      (if segment.isEmpty then emptyLiteral k want st.cursor.name
        else plainLiteral k want segment st.cursor.name st.cursor.line) st').map some id := by
  rw [run_argument_bracket k want prev h, run_blockLiteral_read]
  exact congrArg (Prod.map some id) (run_bind_eq hread)

/-- A text between brackets that is read as it stands is an argument that gives the text, but for its
carriage returns. -/
theorem run_argument_literal {want : Want} {push : Bytes → Code} (hwant : want.pushText? = some push)
    (hb : Verbatim 0 b) (h : skipBlanks false st.cursor.rest = code '[' :: (b ++ code ']' :: r)) :
    ∃ line, (argument k want prev).run st =
      (some (push (withoutReturns b)), st.goTo r line) := by
  let st₁ := st.goTo (b ++ code ']' :: r) st.cursor.line
  obtain ⟨line, hread⟩ := run_readLiteral_verbatim k prev st₁ hb
    { source := b ++ code ']' :: r } [] rfl (Nat.lt_succ_self _) rfl
  have hread : (readLiteral k prev ((b ++ code ']' :: r).length + 1) 1
      { source := b ++ code ']' :: r }).run st₁ =
      (({ source := b ++ code ']' :: r }, b), st.goTo r line) := hread
  -- What is pushed for an empty literal is what is pushed for an empty text.
  have hempty : emptyLiteral k want st.cursor.name = (pure (push []) : CompileM Code) := by
    cases want <;> cases hwant <;> rfl
  have hplain : plainLiteral k want b st.cursor.name st.cursor.line =
      (pure (push (blockText .plain b)) : CompileM Code) := by
    cases want <;> cases hwant <;> rfl
  refine ⟨line, ?_⟩
  rw [run_argument_segment h hread, hempty, hplain, hb.blockText]
  cases b <;> rfl

/-- Texts read back. A text that reads back from between brackets, none of whose strings is broken by a
caret before a line break, is given by the literal of these brackets wherever a text is wanted and
whatever follows: the literal ends at the bracket behind the text, nothing in it is replaced, no
identifier is named in it, and what is pushed is the text without its carriage returns. So it is the
text itself exactly if the text has no carriage return. -/
theorem readsBack_literal {s : Bytes} (h : Entry.readsBack s = true) (hs : Entry.unbroken s = true) :
    (∀ (k : Nested) (want : Want) (push : Bytes → Code) (prev : Nat) (st : State) (r : Bytes),
      want.pushText? = some push → st.cursor.rest = code '[' :: (s ++ code ']' :: r) →
      ∃ line, (argument k want prev).run st = (some (push (withoutReturns s)), st.goTo r line)) ∧
    (withoutReturns s = s ↔ 0x0D ∉ s) := by
  have hverbatim := verbatim_of_readsBack h hs
  refine ⟨fun k want push prev st r hwant hrest => ?_, withoutReturns_eq_iff⟩
  refine run_argument_literal hwant hverbatim ?_
  rw [hrest]
  rfl

/-- Brackets, a splice sign in a string and an escaped quote are read as they stand. -/
theorem readsBack_literal_nested :
    let s := utf8 "if (= $a 1) [say \"a@b^\"]\"]"
    let st : State := { cursor := { rest := code '[' :: (s ++ code ']' :: utf8 "; quit") }, table := {} }
    (Entry.readsBack s = true ∧ Entry.unbroken s = true ∧ Want.any.pushText? = some textCode) ∧
      (∃ line, (argument (nested 0) .any 0).run st = (some (textCode s), st.goTo (utf8 "; quit") line)) ∧
      0x0D ∉ s := by
  intro s st
  have h : Entry.readsBack s = true ∧ Entry.unbroken s = true ∧ withoutReturns s = s := by
    decide
  obtain ⟨hread, hreturns⟩ := readsBack_literal h.1 h.2.1
  have hliteral := hread (nested 0) .any textCode 0 st (utf8 "; quit") rfl rfl
  rw [h.2.2] at hliteral
  exact ⟨⟨h.1, h.2.1, rfl⟩, hliteral, hreturns.mp h.2.2⟩

end Literals

end Compile

end ConsoleScript
