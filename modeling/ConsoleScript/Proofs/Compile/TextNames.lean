import ConsoleScript.Proofs.Compile.Consuming
import ConsoleScript.Proofs.Compile.Quoting
import ConsoleScript.Proofs.Interp.Naming
import ConsoleScript.Proofs.Text.Utf8

/-!
Names in texts of UTF-8. Words, strings, blanks and comments begin and end at ASCII bytes, and escapes
are ASCII too. Whatever the compiler cuts out of a text of UTF-8, to take it for a name or to compile
it by itself, is therefore UTF-8 again, and so are all names that it adds to the table.
-/

namespace ConsoleScript

open Bytecode Syntax

namespace Utf8

variable {c : UInt8} {u s : Bytes}

theorem unescape_high (hu : ∀ c ∈ u, 0x80 ≤ c) (s : Bytes) :
    unescape (u ++ s) = u ++ Syntax.unescape s := by
  induction u with
  | nil => rfl
  | cons c u ih =>
      have hhigh := hu c List.mem_cons_self
      rw [List.cons_append, Compile.unescape_cons _ _ (u ++ s),
        ih fun d hd => hu d (List.mem_cons_of_mem c hd)]
      · rfl
      · rintro rfl
        exact absurd hhigh (by decide)
      · rintro rfl
        exact absurd hhigh (by decide)

/-- What a caret escapes is dropped, is a letter for an ASCII byte, or stands for itself. -/
theorem IsText.unescape_escaped (h : IsText s)
    (ih : ∀ t : Bytes, t.length < s.length → IsText t → IsText (unescape t)) :
    IsText (unescape (caret :: s)) := by
  cases h with
  | nil => exact .nil
  | @wide u t hu ht =>
      obtain ⟨e, u, rfl⟩ := List.exists_cons_of_ne_nil hu.nonempty
      have he := hu.high e List.mem_cons_self
      have hne {d : UInt8} (hd : d < 0x80) : (e == d) = false :=
        beq_false_of_ne fun h => absurd (h ▸ he) (UInt8.not_le.mpr hd)
      have hitself : Syntax.unescape (caret :: (e :: u ++ t)) = e :: Syntax.unescape (u ++ t) := by
        change Syntax.unescape (caret :: e :: (u ++ t)) = _
        rw [unescape.eq_def]
        simp only [show (caret == 0x0D) = false from rfl, beq_self_eq_true, if_true,
          hne (show code 'n' < 0x80 by decide), hne (show code 't' < 0x80 by decide),
          hne (show code 'f' < 0x80 by decide), hne (show 0x0D < 0x80 by decide),
          hne (show 0x0A < 0x80 by decide), Bool.false_eq_true, if_false]
      rw [hitself, unescape_high fun d hd => hu.high d (List.mem_cons_of_mem e hd)]
      refine .wide hu (ih t ?_ ht)
      rw [List.length_append, List.length_cons]
      omega
  | @ascii e t he ht =>
      have hrest : IsText (Syntax.unescape t) := ih t (Nat.lt_succ_self _) ht
      rw [unescape.eq_def]
      dsimp only
      rw [if_neg (show ¬(caret == 0x0D) = true by decide),
        if_pos (show (caret == caret) = true by decide)]
      split
      · exact .ascii (by decide) hrest
      split
      · exact .ascii (by decide) hrest
      split
      · exact .ascii (by decide) hrest
      split
      · split
        next r =>
          have hr : IsText r := ht.of_ascii_cons (by decide)
          exact ih r (Nat.lt_succ_of_lt (Nat.lt_succ_self _)) hr
        · exact hrest
      split
      · exact hrest
      · exact .ascii he hrest

private theorem unescape_return (s : Bytes) : Syntax.unescape (0x0D :: s) = Syntax.unescape s := by
  cases s with
  | nil => rfl
  | cons e s =>
      rw [unescape.eq_def]
      exact if_pos (by decide)

/-- Escapes are ASCII, so resolving them leaves UTF-8. -/
theorem IsText.unescape (h : IsText s) : IsText (unescape s) := by
  induction hn : s.length using Nat.strongRecOn generalizing s with
  | ind n ih =>
    subst hn
    have ih (t : Bytes) (ht : t.length < s.length) (h : IsText t) := ih _ ht h rfl
    cases h with
    | nil => exact .nil
    | @wide u s hu hs =>
        rw [unescape_high hu.high]
        refine .wide hu (ih s ?_ hs)
        have hpos := List.length_pos_iff.mpr hu.nonempty
        rw [List.length_append]
        omega
    | @ascii c s hc hs =>
        by_cases hreturn : c = 0x0D
        · rw [hreturn, unescape_return]
          exact ih s (Nat.lt_succ_self _) hs
        by_cases hcaret : c = caret
        · subst hcaret
          exact hs.unescape_escaped fun t ht => ih t (Nat.lt_succ_of_lt ht)
        · rw [Compile.unescape_cons hreturn hcaret]
          exact .ascii hc (ih s (Nat.lt_succ_self _) hs)

theorem IsText.pass (h : IsText s) (hmark : AtMark s) : IsText (s.drop 1) := by
  cases s with
  | nil => exact .nil
  | cons c s => exact h.of_ascii_cons (hmark c rfl)

theorem IsText.cutBody (h : IsText s) : IsText (cutBody s).1 ∧ IsText (cutBody s).2 := by
  rw [← List.take_append_drop (bodyLength s) s] at h
  obtain ⟨hbody, hrest⟩ := h.cut (atMark_body s)
  rw [Compile.cutBody_eq]
  refine ⟨hbody, ?_⟩
  dsimp only
  split
  · exact hrest.pass (atMark_body s)
  · exact hrest

theorem drop_length_takeWhile (p : UInt8 → Bool) (s : Bytes) :
    s.drop (s.takeWhile p).length = s.dropWhile p := by
  have h : (s.takeWhile p ++ s.dropWhile p).drop (s.takeWhile p).length = s.dropWhile p :=
    List.drop_left
  rwa [List.takeWhile_append_dropWhile] at h

theorem atMark_of_byteAt (h : Bytes.byteAt s 0 < 0x80) : AtMark s := by
  intro c hc
  cases s with
  | nil => cases hc
  | cons d s =>
      cases hc
      exact h

end Utf8

namespace Compile

open Utf8 (AtMark)

section Steps

/-- What is left of the source is UTF-8, and so are the names of the table. -/
structure State.IsText (s : State) : Prop where
  rest : Utf8.IsText s.cursor.rest
  names : ∀ name ∈ s.table.names, Utf8.IsText name

/-- A state of UTF-8 in which nothing is left or an ASCII byte is next. -/
def State.IsMarked (s : State) : Prop := s.IsText ∧ AtMark s.cursor.rest

/-- From a state of UTF-8 a step leads to another one. -/
abbrev Keeps {α : Type} (m : CompileM α) : Prop := Ensures State.IsText m fun _ => State.IsText

variable {α β : Type} {pre : State → Prop} {m : CompileM α} {P : α → Prop}
  {Q : β → State → Prop} {text name : Bytes}

theorem keeps_pure (a : α) : Keeps (Pure.pure a : CompileM α) := fun _ hs => hs

theorem Ensures.cutting {f : α → CompileM β} (hm : Ensures pre m fun a s => P a ∧ s.IsText)
    (hf : ∀ a, P a → Ensures State.IsText (f a) Q) : Ensures pre (m >>= f) Q :=
  hm.bind fun a s hs => hf a hs.1 s hs.2

theorem Ensures.onByte {f : UInt8 → CompileM β}
    (h : ∀ c, Ensures (fun s => s.IsText ∧ (c < 0x80 → AtMark s.cursor.rest)) (f c) Q) :
    Ensures State.IsText (peek 0 >>= f) Q :=
  fun s hs => h (Bytes.byteAt s.cursor.rest 0) s ⟨hs, Utf8.atMark_of_byteAt⟩

theorem Ensures.atMark {c d : UInt8} {f : CompileM β} (hm : Ensures State.IsMarked f Q)
    (hc : (c == d) = true) (hd : d < 0x80) :
    Ensures (fun s => s.IsText ∧ (c < 0x80 → AtMark s.cursor.rest)) f Q :=
  hm.restrict fun _ hs => ⟨hs.1, hs.2 (beq_iff_eq.mp hc ▸ hd)⟩

theorem Ensures.anywhere {p : State → Prop} {f : CompileM β} (hm : Ensures State.IsText f Q) :
    Ensures (fun s => s.IsText ∧ p s) f Q :=
  hm.restrict fun _ hs => hs.1

private theorem keeps_get : Keeps (get : CompileM State) := fun _ hs => hs

theorem keeps_cursor : Keeps cursor := fun _ hs => hs

theorem keeps_peek (i : Nat) : Keeps (peek i) := fun _ hs => hs

private theorem keeps_note (text : Bytes) : Keeps (note text) := fun _ hs => ⟨hs.rest, hs.names⟩

private theorem keeps_noteLiteralName (name : Bytes) : Keeps (noteLiteralName name) :=
  fun _ hs => ⟨hs.rest, hs.names⟩

theorem keeps_warn (text : Bytes) : Keeps (warn text) :=
  keeps_cursor.bind fun _ => .ite (fun _ => keeps_note _) fun _ => keeps_note _

private theorem keeps_roleOf (i : Nat) : Keeps (roleOf i) := fun _ hs => hs

theorem keeps_pass : Ensures State.IsMarked (advance 1) fun _ => State.IsText :=
  fun _ hs => ⟨hs.1.rest.pass hs.2, hs.1.names⟩

theorem keeps_next : Ensures State.IsMarked next fun _ => State.IsText := fun s hs => keeps_pass s hs

theorem keeps_advance_while {p : UInt8 → Bool} (hp : ∀ c, p c = true → c < 0x80) (here : Cursor) :
    Ensures (fun s => s.IsText ∧ s.cursor = here) (advance (here.rest.takeWhile p).length) fun _ =>
      State.IsText := by
  rintro s ⟨hs, rfl⟩
  refine ⟨?_, hs.names⟩
  have hsplit := List.takeWhile_append_dropWhile (p := p) (l := s.cursor.rest)
  change Utf8.IsText (s.cursor.rest.drop _)
  rw [Utf8.drop_length_takeWhile]
  refine (hsplit.symm ▸ hs.rest).behind_ascii fun c hc => hp c ?_
  exact List.all_eq_true.mp List.all_takeWhile c hc

theorem marks_skipTo {p : UInt8 → Bool} (hp : ∀ c, p c = true → c < 0x80) :
    Ensures State.IsText (skipTo p) fun _ => State.IsMarked := by
  intro s hs
  have hsplit := List.takeWhile_append_dropWhile (p := (!p ·)) (l := s.cursor.rest)
  have hmark := Utf8.atMark_dropWhile hp s.cursor.rest
  have hrest : ((skipTo p).run s).2.cursor.rest = s.cursor.rest.dropWhile (!p ·) :=
    Utf8.drop_length_takeWhile (!p ·) s.cursor.rest
  exact ⟨⟨hrest ▸ ((hsplit.symm ▸ hs.rest).cut hmark).2, hs.names⟩, hrest ▸ hmark⟩

theorem keeps_skipTo {p : UInt8 → Bool} (hp : ∀ c, p c = true → c < 0x80) : Keeps (skipTo p) :=
  (marks_skipTo hp).mono fun _ _ h => h.1

private theorem skipBlanks_inComment (s : Bytes) :
    skipBlanks true s = s.dropWhile (!· == 0x0A) := by
  induction s with
  | nil => rfl
  | cons c s ih =>
      rw [skipBlanks, List.dropWhile_cons]
      cases h : c == 0x0A with
      | true => rfl
      | false => exact ih

private theorem isText_skipBlanks (h : Utf8.IsText text) : Utf8.IsText (skipBlanks false text) := by
  induction text with
  | nil => exact h
  | cons c s ih =>
      unfold skipBlanks
      split
      next hblank =>
        refine ih (h.of_ascii_cons ?_)
        simp only [Bool.or_eq_true, beq_iff_eq] at hblank
        rcases hblank with (rfl | rfl) | rfl <;> decide
      next =>
        split
        next hcomment =>
          have hslash : c < 0x80 := by
            unfold startsComment at hcomment
            split at hcomment
            next heq =>
              cases heq
              decide
            · cases hcomment
          have hs := h.of_ascii_cons hslash
          rw [← List.takeWhile_append_dropWhile (p := (!· == 0x0A)) (l := s)] at hs
          rw [skipBlanks_inComment]
          refine (hs.cut (Utf8.atMark_dropWhile (fun d hd => ?_) s)).2
          rw [beq_iff_eq.mp hd]
          decide
        · exact h

theorem keeps_skipComments : Keeps skipComments :=
  fun _ hs => ⟨isText_skipBlanks hs.rest, hs.names⟩

theorem cuts_stringBody :
    Ensures State.IsText cutStringBody fun text s => Utf8.IsText text ∧ s.IsText := by
  intro s hs
  obtain ⟨hbody, hlands⟩ := run_cutStringBody s
  obtain ⟨htext, hrest⟩ := hs.rest.cutBody
  rw [hbody]
  exact ⟨htext, hlands.rest ▸ hrest, hlands.table ▸ hs.names⟩

theorem cuts_raw : Ensures State.IsMarked cutRaw fun text s => Utf8.IsText text ∧ s.IsText :=
  keeps_pass.bind fun _ => cuts_stringBody

theorem cuts_string : Ensures State.IsMarked cutString fun text s => Utf8.IsText text ∧ s.IsText :=
  cuts_raw.bind fun _ => .pure fun _ h => ⟨h.1.unescape, h.2⟩

theorem cuts_word : Ensures State.IsText cutWord fun text s => Utf8.IsText text ∧ s.IsText := by
  intro s hs
  have hrest := hs.rest
  rw [← List.take_append_drop (wordLength s.cursor.rest) s.cursor.rest] at hrest
  obtain ⟨hword, hrest⟩ := hrest.cut (Utf8.atMark_word [] s.cursor.rest)
  exact ⟨hword, hrest, hs.names⟩

theorem keeps_intern (hname : Utf8.IsText name) : Keeps (intern name) := by
  intro s hs
  obtain ⟨-, ws, hstate⟩ := run_intern_eq name s
  rw [hstate]
  refine ⟨hs.rest, fun n hn => ?_⟩
  change n ∈ (s.table.intern name).2.2.names at hn
  unfold Table.intern at hn
  split at hn
  · exact hs.names n hn
  · split at hn
    · exact hs.names n hn
    · rw [Table.names_push] at hn
      rcases List.mem_append.mp hn with hn | hn
      · exact hs.names n hn
      · rw [List.mem_singleton.mp hn]
        exact hname

theorem keeps_named {f : Nat → Role → CompileM α} (hname : Utf8.IsText name)
    (hf : ∀ i role, Keeps (f i role)) : Keeps (intern name >>= fun i => roleOf i >>= f i) :=
  (keeps_intern hname).bind fun i => (keeps_roleOf i).bind (hf i)

theorem Ensures.withText (htext : Utf8.IsText text) (label : Bytes) (line : Nat) (hm : Keeps m) :
    Keeps (withText text label line m) := fun s hs =>
  ⟨hs.rest, (hm { s with cursor := { rest := text, line, name := label } } ⟨htext, hs.names⟩).names⟩

end Steps

/-- A first word that is a name is UTF-8. -/
def Head.IsText : Head → Prop
  | .bare name => Utf8.IsText name
  | .computed _ => True

/-- The compiler for nested arguments and first words keeps to UTF-8. -/
structure Nested.KeepsText (k : Nested) : Prop where
  arg : ∀ want prev, Keeps (k.arg want prev)
  head : ∀ prev, Ensures State.IsText (k.head prev) fun answer s =>
    (∀ head, answer = some head → head.IsText) ∧ s.IsText

section Calls

variable {k : Nested} (hk : k.KeepsText) {α : Type}
include hk

theorem Nested.KeepsText.take {want : Want} {prev : Nat} {f : Option Code → CompileM α}
    (hnone : Keeps (f none)) (hsome : ∀ code, Keeps (f (some code))) :
    Keeps (k.arg want prev >>= f) := by
  refine (hk.arg want prev).bind fun answer => ?_
  cases answer with
  | none => exact hnone
  | some code => exact hsome code

theorem keeps_takeArgs (want : Want) (prev left given : Nat) :
    Keeps (takeArgs k want prev left given) := by
  induction left generalizing given with
  | zero => exact keeps_pure _
  | succ left ih => exact hk.take (keeps_pure _) fun _ => (ih _).bind fun _ => keeps_pure _

private theorem keeps_argOr (want : Want) (prev : Nat) (missing : Code) :
    Keeps (argOr k want prev missing) :=
  hk.take (keeps_pure _) fun _ => keeps_pure _

private theorem keeps_dropArgs (prev fuel : Nat) : Keeps (dropArgs k prev fuel) := by
  induction fuel with
  | zero => exact keeps_pure _
  | succ fuel ih => exact hk.take (keeps_pure _) fun _ => ih.bind fun _ => keeps_pure _

theorem keeps_surplusArgs (more : Bool) (prev : Nat) : Keeps (surplusArgs k more prev) :=
  .ite (fun _ => keeps_cursor.bind fun _ => keeps_dropArgs hk prev _) fun _ => keeps_pure _

theorem keeps_callComputed (push : Code) (prev : Nat) : Keeps (callComputed k push prev) :=
  (keeps_takeArgs hk .anyView (prev + 1) maxArgs 0).bind fun _ => keeps_pure _

private theorem keeps_restOfArgs (prev given : Nat) (more : Bool) :
    Keeps (restOfArgs k prev given more) :=
  .ite (fun _ => keeps_takeArgs hk .anyView prev _ given) fun _ => keeps_pure _

private theorem keeps_letterArg (l : Letter) (isLast : Bool) (prev : Nat) (st : CallState) :
    Keeps (letterArg k l isLast prev st) := by
  have harg : Keeps (argIfMore k (wantOf l) (prev + st.given) st.more) :=
    .ite (fun _ => hk.arg _ _) fun _ => keeps_pure _
  refine harg.bind fun answer => ?_
  cases answer with
  | none => exact .ite (fun _ => keeps_pure _) fun _ => keeps_pure _
  | some code =>
      refine .ite (fun _ => ?_) fun _ => keeps_pure _
      exact (keeps_takeArgs hk .textView _ _ 1).bind fun _ => keeps_pure _

private theorem keeps_commandArgs (sig : Array Letter) (self prev fuel at' : Nat) (st : CallState) :
    Keeps (commandArgs k sig self prev fuel at' st) := by
  induction fuel generalizing at' st with
  | zero => exact keeps_pure _
  | succ fuel ih =>
      rw [commandArgs]
      cases sig[at']? with
      | none => exact keeps_pure _
      | some l =>
          have hletter := (keeps_letterArg hk l (at' + 1 == sig.size) prev st).bind
            fun st' => ih (at' + 1) st'
          cases l with
          | self | count | pressed => exact ih _ _
          | joined | all => exact (keeps_restOfArgs hk prev _ _).bind fun _ => keeps_pure _
          | again n => exact .ite (fun _ => ih _ _) fun _ => ih _ _
          | _ => exact hletter

end Calls

section Statements

variable {k : Nested} (hk : k.KeepsText)
include hk

private theorem keeps_assignment {head : Head} (hh : head.IsText) (prev : Nat) :
    Keeps (assignment k head prev) := by
  cases head with
  | computed push => exact (keeps_argOr hk _ _ _).bind fun _ => keeps_pure _
  | bare name =>
      refine keeps_named hh fun i role => ?_
      cases role <;> exact (keeps_argOr hk _ _ _).bind fun _ => keeps_pure _

private theorem keeps_branch (self prev : Nat) : Keeps (branch k self prev) := by
  refine hk.take (keeps_pure _) fun cond => hk.take (keeps_pure _) fun yes => hk.take ?_ fun no => ?_
  · cases literalBody? yes <;> exact keeps_pure _
  · dsimp only
    cases literalBody? yes <;> cases literalBody? no <;> exact keeps_pure _

private theorem keeps_takeLiterals (prev left given : Nat) :
    Keeps (takeLiterals k prev left given) := by
  induction left generalizing given with
  | zero => exact keeps_pure _
  | succ left ih =>
      refine hk.take (keeps_pure _) fun code => ?_
      dsimp only
      cases literalBody? code with
      | none => exact keeps_pure _
      | some body => exact (ih _).bind fun _ => keeps_pure _

private theorem keeps_connective (isAnd : Bool) (self prev : Nat) :
    Keeps (connective k isAnd self prev) := by
  refine hk.take (keeps_pure _) fun first => ?_
  refine (keeps_takeLiterals hk prev (maxArgs - 1) 1).bind fun a => ?_
  refine .ite (fun _ => ?_) fun _ => keeps_pure _
  exact (keeps_takeArgs hk .condition prev _ _).bind fun _ => keeps_pure _

private theorem keeps_control (c : Control) (self prev : Nat) : Keeps (control k c self prev) := by
  cases c with
  | «local» =>
      refine (keeps_takeArgs hk .ident prev maxArgs 0).bind fun a => ?_
      exact (keeps_surplusArgs hk a.2.2 prev).bind fun _ => keeps_pure _
  | run | runOuter | result | not => exact hk.take (keeps_pure _) fun _ => keeps_pure _
  | branch => exact keeps_branch hk self prev
  | and => exact keeps_connective hk true self prev
  | or => exact keeps_connective hk false self prev

private theorem keeps_intVarStatement (hex : Bool) (self prev : Nat) :
    Keeps (intVarStatement k hex self prev) := by
  refine hk.take (keeps_pure _) fun a => .ite (fun _ => keeps_pure _) fun _ => ?_
  exact hk.take (keeps_pure _) fun b => hk.take (keeps_pure _) fun c => keeps_pure _

private theorem keeps_textVarStatement (self prev : Nat) : Keeps (textVarStatement k self prev) :=
  hk.take (keeps_pure _) fun _ =>
    (keeps_takeArgs hk .anyView prev (maxArgs - 1) 1).bind fun _ => keeps_pure _

private theorem keeps_callBare (view : Bool) (name : Bytes) (prev : Nat) :
    Keeps (callBare k view name prev) := by
  refine keeps_get.bind fun s => ?_
  dsimp only
  cases s.table.lookup? name with
  | none => exact .ite (fun _ => keeps_pure _) fun _ => keeps_callComputed hk _ prev
  | some found =>
      obtain ⟨i, id⟩ := found
      dsimp only
      cases id.role with
      | «alias» => exact (keeps_takeArgs hk .any prev maxArgs 0).bind fun _ => keeps_pure _
      | command sig action => exact keeps_commandArgs hk _ i prev _ 0 _
      | control c => exact keeps_control hk c i prev
      | intVar => exact keeps_intVarStatement hk _ i prev
      | floatVar => exact hk.take (keeps_pure _) fun _ => keeps_pure _
      | textVar => exact keeps_textVarStatement hk i prev

private theorem keeps_statement (view : Bool) (prev : Nat) : Keeps (statement k view prev) := by
  refine (hk.head prev).cutting fun answer ha => ?_
  cases answer with
  | none => exact keeps_pure _
  | some head =>
      refine keeps_skipComments.bind fun _ => .onCursor fun c => .ite (fun hsign => ?_) fun _ => ?_
      · -- the sign is an ASCII byte
        have hsign : (c.peek == code '=') = true := (Bool.and_eq_true_iff.mp hsign).1
        refine Ensures.bind (keeps_pass.restrict fun s hs => ⟨hs.1, ?_⟩) fun _ =>
          keeps_assignment hk (ha head rfl) prev
        obtain ⟨-, rfl⟩ := hs
        refine Utf8.atMark_of_byteAt ?_
        rw [show Bytes.byteAt s.cursor.rest 0 = code '=' from beq_iff_eq.mp hsign]
        decide
      · refine .anywhere ?_
        cases head with
        | computed push => exact keeps_callComputed hk push prev
        | bare name => exact keeps_callBare hk view name prev

omit hk in
private theorem keeps_endOfStatement (closing : UInt8) (fuel : Nat) :
    Keeps (endOfStatement closing fuel) := by
  induction fuel with
  | zero => exact keeps_pure _
  | succ fuel ih =>
      refine (marks_skipTo fun c hc => ?_).bind fun _ => ?_
      · simp only [Bool.or_eq_true, beq_iff_eq] at hc
        rcases hc with (((rfl | rfl) | rfl) | rfl) | rfl <;> decide
      have hcursor : Ensures State.IsMarked cursor fun _ => State.IsMarked := fun _ hs => hs
      refine hcursor.bind fun c => .ite (fun _ => ?_) fun _ => keeps_next.bind fun d => ?_
      · refine Ensures.restrict ?_ fun _ hs => hs.1
        exact .ite (fun _ => (keeps_warn _).bind fun _ => keeps_pure _) fun _ => keeps_pure _
      · refine .ite (fun _ => .ite (fun _ => keeps_pure _) fun _ => ?_) fun _ =>
          .ite (fun _ => ?_) fun _ => keeps_pure _
        · exact (keeps_warn _).bind fun _ => keeps_pure _
        · refine (keeps_peek 0).bind fun _ => .ite (fun _ => ?_) fun _ => ih
          exact (keeps_skipTo fun c hc => by rw [beq_iff_eq.mp hc]; decide).bind fun _ => ih

theorem keeps_statements (view : Bool) (closing : UInt8) (prev : Nat) :
    Keeps (statements k view closing prev) := by
  refine keeps_cursor.bind fun c => ?_
  generalize c.rest.length + 1 = fuel
  induction fuel with
  | zero => exact keeps_pure _
  | succ fuel ih =>
      refine (keeps_statement hk view prev).bind fun a => keeps_cursor.bind fun c => ?_
      refine (keeps_surplusArgs hk a.2 prev).bind fun surplus => ?_
      refine (keeps_endOfStatement closing _).bind fun ended => ?_
      exact .ite (fun _ => keeps_pure _) fun _ => ih.bind fun _ => keeps_pure _

theorem keeps_textLiteral {text : Bytes} (htext : Utf8.IsText text) (label : Bytes) (line : Nat) :
    Keeps (textLiteral k text label line) :=
  (Ensures.withText htext label line (keeps_statements hk false 0 0)).bind fun _ => keeps_pure _

end Statements

section Arguments

variable {k : Nested} (hk : k.KeepsText) {word name : Bytes}
include hk

theorem keeps_wordCode (want : Want) (hword : Utf8.IsText word) (label : Bytes) :
    Keeps (wordCode k want word label) := by
  cases want with
  | any | anyView | int | float | text | head | textView | nothing => exact keeps_pure _
  | code => exact keeps_textLiteral hk hword label 1
  | condition => exact .ite (fun _ => keeps_pure _) fun _ => keeps_textLiteral hk hword label 1
  | ident => exact (keeps_intern hword).bind fun _ => keeps_pure _

theorem keeps_invalidLookup (want : Want) : Keeps (invalidLookup k want) := by
  cases want with
  | nothing | any | anyView | head | condition => exact keeps_pure _
  | int | float | text | textView | code | ident => exact keeps_wordCode hk _ .nil []

private theorem keeps_lookupNamed (hname : Utf8.IsText name) (want : Want) (prev : Nat) :
    Keeps (lookupNamed k name want prev) := by
  refine keeps_named hname fun i role => .ite (fun _ => keeps_pure _) fun _ => ?_
  cases role with
  | intVar | floatVar | textVar | «alias» | command => exact keeps_pure _
  | control c => exact keeps_invalidLookup hk want

private theorem keeps_lookupOne (want : Want) (prev : Nat) : Keeps (lookupOne k want prev) := by
  refine .onByte fun c => .ite (fun _ => .anywhere ?_) fun _ => .ite (fun hc => ?_) fun _ =>
    .anywhere ?_
  · exact hk.take (keeps_invalidLookup hk want) fun name => keeps_pure _
  · refine .atMark ?_ hc (by decide)
    exact cuts_raw.cutting fun name hname => keeps_lookupNamed hk hname want prev
  · refine cuts_word.cutting fun name hname => .ite (fun _ => ?_) fun _ => ?_
    · exact keeps_invalidLookup hk want
    · exact keeps_lookupNamed hk hname want prev

private theorem keeps_lookup (want : Want) (prev : Nat) : Keeps (lookup k want prev) := by
  refine .onCursor fun here => Ensures.bind (keeps_advance_while (fun c hc => ?_) here) fun _ => ?_
  · rw [beq_iff_eq.mp hc]
    decide
  · refine .ite (fun _ => keeps_lookupOne hk want prev) fun _ => ?_
    exact (keeps_lookupOne hk .textView prev).bind fun _ => keeps_pure _

omit hk in
private theorem ascii_of_isNameByte {c : UInt8} (h : (Byte.isAlnum c || c == code '_') = true) :
    c < 0x80 := by
  simp only [Byte.isAlnum, Byte.isAlpha, Byte.isLower, Byte.isUpper, Byte.isDigit, Bool.or_eq_true,
    Bool.and_eq_true, decide_eq_true_eq, beq_iff_eq] at h
  rcases h with ((⟨-, h⟩ | ⟨-, h⟩) | ⟨-, h⟩) | rfl
  · exact UInt8.lt_of_le_of_lt h (by decide)
  · exact UInt8.lt_of_le_of_lt h (by decide)
  · exact UInt8.lt_of_le_of_lt h (by decide)
  · decide

private theorem keeps_splice (prev : Nat) : Keeps (splice k prev) := by
  refine .onByte fun c => .ite (fun _ => .anywhere (hk.arg .anyView prev)) fun _ =>
    .ite (fun _ => .anywhere ?_) fun _ => .ite (fun hc => .atMark ?_ hc (by decide)) fun _ =>
      .anywhere (.onCursor fun here => .ite (fun _ => ?_) fun _ => ?_)
  · exact (hk.arg .textView prev).bind fun _ => keeps_pure _
  · refine cuts_raw.cutting fun name hname => keeps_named hname fun i role => ?_
    cases role <;> exact keeps_pure _
  · exact .anywhere (keeps_pure _)
  · refine Ensures.bind (keeps_advance_while (fun c hc => ascii_of_isNameByte hc) here) fun _ => ?_
    refine keeps_named (.of_ascii fun c hc => ?_) fun i role => ?_
    · exact ascii_of_isNameByte (List.all_eq_true.mp List.all_takeWhile c hc)
    · cases role <;> exact keeps_pure _

end Arguments

section Literals

variable {k : Nested} {source : Bytes}

/-- The cursor is in the rest of a source of UTF-8. -/
def Within (source : Bytes) (s : State) : Prop := s.IsText ∧ s.cursor.rest <:+ source

theorem Ensures.within {α : Type} {pre : State → Prop} {m : CompileM α} {P : α → Prop}
    (hm : Ensures pre m fun _ => State.IsText) (hmakes : Makes m P) :
    Ensures (fun s => pre s ∧ s.cursor.rest <:+ source) m fun _ => Within source :=
  fun s hs => ⟨hm s hs.1, (hmakes s).1.rest.trans hs.2⟩

private theorem isText_segment {st : Splicing} {here : Bytes} (hst : Utf8.IsText st.source)
    (hsuffix : here <:+ st.source) (hmark : AtMark here) : Utf8.IsText (st.segment here) := by
  obtain ⟨u, hu⟩ := hsuffix
  have hsegment : st.segment here = u := by
    unfold Splicing.segment
    rw [← hu, List.length_append, Nat.add_sub_cancel, List.take_left]
  rw [hsegment]
  exact ((hu.symm ▸ hst).cut hmark).1

variable (hk : k.KeepsText)
include hk

private theorem keeps_addSplice (prev : Nat) (segment : Bytes) (st : Splicing) :
    Ensures State.IsText (addSplice k prev segment st) fun st' s =>
      Utf8.IsText st'.source ∧ Within st'.source s := by
  unfold addSplice
  generalize (if maxArgs < st.parts + 2 then (plain .concWord .text st.parts, 1)
    else ([], st.parts)) = merged
  obtain ⟨merge, parts⟩ := merged
  refine (keeps_splice hk _).bind fun spliced => .onCursor fun here => .pure fun s hs => ?_
  obtain ⟨hs, rfl⟩ := hs
  exact ⟨hs.rest, hs, List.suffix_rfl⟩

/-- The text behind the last splice is cut out of the source. -/
theorem keeps_readLiteral (prev fuel depth : Nat) {st : Splicing} (hst : Utf8.IsText st.source) :
    Ensures (Within st.source) (readLiteral k prev fuel depth st) fun a s =>
      Utf8.IsText a.2 ∧ s.IsText := by
  induction fuel generalizing depth st with
  | zero => exact .pure fun s hs => ⟨.nil, hs.1⟩
  | succ fuel ih =>
      have hmarks : Ensures (Within st.source) (skipTo fun c => c == code '@' || c == quote ||
          c == code '/' || c == code '[' || c == code ']') fun _ s =>
          s.IsMarked ∧ s.cursor.rest <:+ st.source := by
        refine fun s hs => ⟨marks_skipTo (fun c hc => ?_) s hs.1,
          ((makes_skipTo _) s).1.rest.trans hs.2⟩
        simp only [Bool.or_eq_true, beq_iff_eq] at hc
        rcases hc with (((rfl | rfl) | rfl) | rfl) | rfl <;> decide
      refine hmarks.bind fun _ => .onCursor fun here => ?_
      refine .given (p := Utf8.IsText (st.segment here.rest)) (fun s hs => ?_) fun hsegment => ?_
      · obtain ⟨⟨hs, hsuffix⟩, rfl⟩ := hs
        exact isText_segment hst hsuffix hs.2
      refine Ensures.restrict ?_ fun s hs => hs.1
      refine .ite (fun _ => ?_) fun _ => (keeps_next.within makes_next).bind fun c =>
        .ite (fun _ => ?_) fun _ => .ite (fun _ => ?_) fun _ => .ite (fun _ => ih _ hst) fun _ =>
          .ite (fun _ => .ite (fun _ => ?_) fun _ => ih _ hst) fun _ => .onCursor fun next => ?_
      · exact Ensures.bind ((keeps_warn _).restrict fun s hs => hs.1.1) fun _ =>
          .pure fun s hs => ⟨hst, hs⟩
      · have hstring : Keeps cutStringBody := cuts_stringBody.mono fun _ _ h => h.2
        exact (hstring.within makes_cutStringBody).bind fun _ => ih depth hst
      · refine ((keeps_peek 0).within (makes_peek 0)).bind fun _ => .ite (fun _ => ?_) fun _ =>
          ih depth hst
        have hskip : Keeps (skipTo (· == 0x0A)) :=
          keeps_skipTo fun c hc => by rw [beq_iff_eq.mp hc]; decide
        exact (hskip.within (makes_skipTo _)).bind fun _ => ih depth hst
      · exact .pure fun s hs => ⟨hsegment, hs.1⟩
      · have hsigns : Ensures (fun s => Within st.source s ∧ s.cursor = next)
            (advance (next.rest.takeWhile (· == code '@')).length) fun _ => Within st.source := by
          refine ((keeps_advance_while (fun c hc => ?_) next).within (makes_advance _)).restrict
            fun s hs => ⟨⟨hs.1.1, hs.2⟩, hs.1.2⟩
          rw [beq_iff_eq.mp hc]
          decide
        have hsplice : Ensures State.IsText (do
            readLiteral k prev fuel depth (← addSplice k prev (st.segment here.rest) st))
            fun a s => Utf8.IsText a.2 ∧ s.IsText :=
          (keeps_addSplice hk prev _ st).bind fun st' => .given (fun s hs => hs.1) fun hst' =>
            (ih depth hst').restrict fun s hs => hs.2
        refine hsigns.bind fun _ => .ite (fun _ => ih depth hst) fun _ =>
          Ensures.restrict ?_ fun s hs => hs.1
        exact .ite (fun _ => (keeps_warn _).bind fun _ => hsplice) fun _ => hsplice

private theorem keeps_plainLiteral (want : Want) {segment : Bytes} (hsegment : Utf8.IsText segment)
    (label : Bytes) (line : Nat) : Keeps (plainLiteral k want segment label line) := by
  cases want with
  | code | condition => exact keeps_textLiteral hk hsegment label line
  | ident =>
      refine (keeps_noteLiteralName segment).bind fun _ => ?_
      exact (keeps_intern hsegment).bind fun _ => keeps_pure _
  | nothing | textView | anyView | int | float | any | text | head => exact keeps_pure _

private theorem keeps_emptyLiteral (want : Want) (label : Bytes) :
    Keeps (emptyLiteral k want label) := by
  cases want with
  | int | float => exact keeps_wordCode hk _ .nil label
  | nothing | condition | code | ident | textView | anyView | any | text | head =>
      exact keeps_pure _

private theorem keeps_blockLiteral (want : Want) (prev : Nat) :
    Keeps (blockLiteral k want prev) := by
  refine keeps_cursor.bind fun c₁ => keeps_cursor.bind fun c₂ => .onCursor fun c₃ => ?_
  refine .given (p := Utf8.IsText c₃.rest) (fun s hs => hs.2 ▸ hs.1.rest) fun hsource => ?_
  have hread : Ensures (Within c₃.rest)
      (readLiteral k prev (c₃.rest.length + 1) 1 { source := c₃.rest }) fun a s =>
      Utf8.IsText a.2 ∧ s.IsText :=
    keeps_readLiteral hk prev _ 1 (show Utf8.IsText ({ source := c₃.rest } : Splicing).source from hsource)
  refine (hread.restrict fun s (hs : s.IsText ∧ s.cursor = c₃) => ⟨hs.1, hs.2 ▸ List.suffix_rfl⟩).cutting fun a hsegment => ?_
  obtain ⟨st, segment⟩ := a
  refine .ite (fun _ => .ite (fun _ => ?_) fun _ => ?_) fun _ => ?_
  · exact keeps_emptyLiteral hk want _
  · exact keeps_plainLiteral hk want hsegment _ _
  · generalize (if segment.isEmpty then ([], st.parts)
      else (blockTextCode true segment, st.parts + 1)) = last
    exact keeps_pure _

end Literals

section Arguments

variable {k : Nested} (hk : k.KeepsText)
include hk

private theorem keeps_group (want : Want) (prev : Nat) : Keeps (group k want prev) := by
  refine keeps_cursor.bind fun c => .ite (fun _ => ?_) fun _ => ?_
  · exact (keeps_statements hk _ _ 0).bind fun _ => keeps_pure _
  · refine (keeps_statements hk _ _ prev).bind fun inner => .ite (fun _ => ?_) fun _ => keeps_pure _
    exact keeps_wordCode hk want .nil _

private theorem keeps_stringArg (want : Want) :
    Ensures State.IsMarked (stringArg k want) fun _ => State.IsText := by
  have hcursor : Ensures State.IsMarked cursor fun _ => State.IsMarked := fun _ hs => hs
  refine hcursor.bind fun c => cuts_string.cutting fun text htext => ?_
  cases want with
  | any | text | anyView | textView => exact keeps_pure _
  | int | float | code | condition | ident | head | nothing => exact keeps_wordCode hk _ htext _

theorem keeps_argument (want : Want) (prev : Nat) : Keeps (argument k want prev) := by
  have hsome {pre : State → Prop} {m : CompileM Code} (hm : Ensures pre m fun _ => State.IsText) :
      Ensures pre (m >>= fun code => Pure.pure (some code)) fun _ => State.IsText :=
    hm.bind fun _ => keeps_pure _
  refine keeps_skipComments.bind fun _ => .onByte fun c =>
    .ite (fun hc => .atMark ?_ hc (by decide)) fun _ => .ite (fun _ => .anywhere ?_) fun _ =>
    .ite (fun hc => .atMark ?_ hc (by decide)) fun _ =>
    .ite (fun hc => .atMark ?_ hc (by decide)) fun _ => .anywhere ?_
  · exact hsome (keeps_stringArg hk want)
  · exact hsome (keeps_lookup hk want prev)
  · exact keeps_pass.bind fun _ => hsome (keeps_group hk want prev)
  · exact keeps_pass.bind fun _ => hsome (keeps_blockLiteral hk want prev)
  · refine keeps_cursor.bind fun c => cuts_word.cutting fun word hword => ?_
    exact .ite (fun _ => keeps_pure _) fun _ => hsome (keeps_wordCode hk want hword _)

private theorem cuts_firstWord (prev : Nat) :
    Ensures State.IsText (firstWord k prev) fun answer s =>
    (∀ head, answer = some head → head.IsText) ∧ s.IsText := by
  refine keeps_skipComments.bind fun _ => .onByte fun c =>
    .ite (fun hc => .atMark ?_ hc (by decide)) fun _ => .ite (fun _ => .anywhere ?_) fun _ =>
    .anywhere ?_
  · refine cuts_string.cutting fun text htext => .pure fun s hs => ⟨fun head hh => ?_, hs⟩
    cases hh
    split
    · trivial
    · exact htext
  · refine (keeps_argument hk .head prev).bind fun answer => .pure fun s hs => ⟨?_, hs⟩
    intro head hh
    obtain ⟨code, -, rfl⟩ := Option.map_eq_some_iff.mp hh
    trivial
  · refine cuts_word.cutting fun word hword => .ite (fun _ => ?_) fun _ => ?_
    · exact .pure fun s hs => ⟨fun head hh => (by cases hh), hs⟩
    · refine .pure fun s hs => ⟨fun head hh => ?_, hs⟩
      cases hh
      exact hword

end Arguments

private theorem nested_keepsText (levels : Nat) : (nested levels).KeepsText := by
  induction levels with
  | zero => exact ⟨fun _ _ => keeps_pure _, fun _ =>
      .pure fun s hs => ⟨fun head hh => (by cases hh), hs⟩⟩
  | succ levels ih => exact ⟨keeps_argument ih, cuts_firstWord ih⟩

end Compile

theorem isText_names_compile {t : Table} {src : Bytes} (ht : ∀ n ∈ t.names, Utf8.IsText n)
    (hsrc : Utf8.IsText src) (label : Bytes) :
    ∀ n ∈ (compile t src label).table.names, Utf8.IsText n := by
  rw [Compile.compile_table]
  have hkeeps := Compile.keeps_statements (Compile.nested_keepsText (src.length + 4)) false 0 0
  exact (hkeeps { cursor := { rest := src, name := label }, table := t } ⟨hsrc, ht⟩).names

end ConsoleScript
