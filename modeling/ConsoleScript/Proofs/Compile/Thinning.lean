import ConsoleScript.Proofs.Compile.CommandTexts
import ConsoleScript.Proofs.Compile.Making

/-!
Source texts without their comments. A text is thinner than another one if some comments of it are
dropped, each up to its line feed, which stays. Whatever the compiler reads off the front of a text,
a word, a string, blanks or a block literal, it reads alike off a thinner one, and what is left is
thinner again. The text of a block literal is its source, thinned.
-/

namespace ConsoleScript.Compile

open Bytecode Syntax

/-- The body of a string that is closed by a quote behind it. -/
inductive ClosedBody : Bytes → Prop
  | nil : ClosedBody []
  | byte {c : UInt8} {s : Bytes} (hq : c ≠ quote) (hc : c ≠ caret) (hl : isLineBreak c = false)
      (h : ClosedBody s) : ClosedBody (c :: s)
  | escape {c : UInt8} {s : Bytes} (hl : isLineBreak c = false) (h : ClosedBody s) :
      ClosedBody (caret :: c :: s)

/-- The second text is the first one without some of its comments. -/
inductive Thins : Bytes → Bytes → Prop
  | refl (s : Bytes) : Thins s s
  | byte {c : UInt8} {u v : Bytes} (hq : c ≠ quote) (hu : startsComment (c :: u) = false)
      (hv : startsComment (c :: v) = false) (h : Thins u v) : Thins (c :: u) (c :: v)
  | string {body u v : Bytes} (hb : ClosedBody body) (h : Thins u v) :
      Thins (quote :: (body ++ quote :: u)) (quote :: (body ++ quote :: v))
  | kept {t u v : Bytes} (ht : 0x0A ∉ t) (h : Thins u v) :
      Thins (0x2F :: 0x2F :: (t ++ 0x0A :: u)) (0x2F :: 0x2F :: (t ++ 0x0A :: v))
  | dropped {t u v : Bytes} (ht : 0x0A ∉ t) (hk : Byte.isPunct (Bytes.byteAt (t ++ [0x0A]) 0) = false)
      (h : Thins u v) : Thins (0x2F :: 0x2F :: (t ++ 0x0A :: u)) (0x0A :: v)

section Strings

variable {body : Bytes} (hb : ClosedBody body) (s : Bytes)
include hb

theorem ClosedBody.bodyLength : bodyLength (body ++ quote :: s) = body.length := by
  induction hb with
  | nil => cases s <;> rfl
  | @byte c s' hq hc hl _ ih =>
      cases hs : s' ++ quote :: s with
      | nil => simp at hs
      | cons d r =>
          rw [List.cons_append, hs, Syntax.bodyLength, ← hs, ih, List.length_cons]
          simp [hl, hq, hc, Nat.add_comm]
  | @escape c s' hl _ ih =>
      rw [List.cons_append, List.cons_append, Syntax.bodyLength, ih]
      simp only [List.length_cons]
      have : isLineBreak caret = false := by decide
      have : (caret == quote) = false := by decide
      simp [*]
      omega

theorem ClosedBody.blockText :
    blockText .quoted (body ++ quote :: s) = body ++ quote :: blockText .plain s := by
  have hlb {c : UInt8} (hl : isLineBreak c = false) : (c == 0x0D) = false ∧ (c == 0x0A) = false := by
    unfold isLineBreak at hl
    exact Bool.or_eq_false_iff.mp hl
  induction hb with
  | nil => rfl
  | @byte c s' hq hc hl _ ih =>
      obtain ⟨h1, h2⟩ := hlb hl
      rw [List.cons_append, Compile.blockText]
      simp [h1, h2, hq, hc, ih]
  | @escape c s' hl _ ih =>
      obtain ⟨h1, h2⟩ := hlb hl
      rw [List.cons_append, List.cons_append, Compile.blockText]
      have : (caret == 0x0D) = false ∧ (caret == 0x0A || caret == quote) = false := by decide
      simp only [this, Bool.false_eq_true, if_false, beq_self_eq_true, if_true]
      rw [Compile.blockText]
      simp [h1, h2, ih]

theorem ClosedBody.cutBracketed (o c : UInt8) (d : Nat) :
    cutBracketed o c d .quoted (body ++ quote :: s) =
      (body ++ quote :: (cutBracketed o c d .plain s).1, (cutBracketed o c d .plain s).2) := by
  induction hb with
  | nil => rfl
  | @byte a s' hq hc hl _ ih =>
      have hmode : ScanMode.inString false a = .quoted := by simp [ScanMode.inString, hl, hq, hc]
      rw [List.cons_append, Syntax.cutBracketed, hmode, ih]
      rfl
  | @escape a s' hl _ ih =>
      have hmode : ScanMode.inString true a = .quoted := by simp [ScanMode.inString, hl]
      have hcaret : ScanMode.inString false caret = .escaped := by decide
      rw [List.cons_append, List.cons_append, Syntax.cutBracketed, hcaret, Syntax.cutBracketed,
        hmode, ih]
      rfl

end Strings

section Comments

variable {t : Bytes}

private theorem skipBlanks_comment (ht : 0x0A ∉ t) (s : Bytes) :
    skipBlanks true (t ++ 0x0A :: s) = 0x0A :: s := by
  induction t with
  | nil => rfl
  | cons c t ih =>
      obtain ⟨hc, ht⟩ := List.ne_and_not_mem_of_not_mem_cons ht
      rw [List.cons_append, skipBlanks, if_neg (by simpa using Ne.symm hc), ih ht]

private theorem blockText_comment (ht : 0x0A ∉ t) (s : Bytes) (kept : Bool) :
    blockText (.comment kept) (t ++ 0x0A :: s) =
      (if kept then t else []) ++ 0x0A :: blockText .plain s := by
  induction t with
  | nil => cases kept <;> rfl
  | cons c t ih =>
      obtain ⟨hc, ht⟩ := List.ne_and_not_mem_of_not_mem_cons ht
      rw [List.cons_append, blockText, if_neg (by simpa using Ne.symm hc)]
      cases kept <;> simpa using ih ht

private theorem cutBracketed_comment (ht : 0x0A ∉ t) (s : Bytes) (o c : UInt8) (d : Nat) :
    cutBracketed o c d .comment (t ++ 0x0A :: s) =
      (t ++ 0x0A :: (cutBracketed o c d .plain s).1, (cutBracketed o c d .plain s).2) := by
  induction t with
  | nil => rfl
  | cons a t ih =>
      obtain ⟨ha, ht⟩ := List.ne_and_not_mem_of_not_mem_cons ht
      rw [List.cons_append, cutBracketed, if_neg (by simpa using Ne.symm ha), ih ht]
      rfl

variable (ht : 0x0A ∉ t) (s : Bytes)
include ht

theorem slash_comment : 0x0A ∉ 0x2F :: t := by simp [ht]

theorem skipBlanks_slashes : skipBlanks false (0x2F :: 0x2F :: (t ++ 0x0A :: s)) = 0x0A :: s :=
  skipBlanks_comment (slash_comment ht) s

/-- Comments are dropped from the text of a block literal, up to the line feed, if what is behind
the slashes is no punctuation. -/
theorem blockText_slashes : blockText .plain (0x2F :: 0x2F :: (t ++ 0x0A :: s)) =
    (if Byte.isPunct (Bytes.byteAt (t ++ [0x0A]) 0) then 0x2F :: 0x2F :: t else []) ++
      0x0A :: blockText .plain s := by
  have hmark : Bytes.byteAt (0x2F :: (t ++ 0x0A :: s)) 1 = Bytes.byteAt (t ++ [0x0A]) 0 := by
    cases t <;> rfl
  have hrest := blockText_comment (slash_comment ht) s
  have hopen : blockText .plain (0x2F :: 0x2F :: (t ++ 0x0A :: s)) =
      if Byte.isPunct (Bytes.byteAt (0x2F :: (t ++ 0x0A :: s)) 1) then
        0x2F :: blockText (.comment true) (0x2F :: t ++ 0x0A :: s)
      else blockText (.comment false) (0x2F :: t ++ 0x0A :: s) := rfl
  rw [hopen, hmark, hrest, hrest]
  split <;> rfl

theorem cutBracketed_slashes (o c : UInt8) (d : Nat) :
    cutBracketed o c d .plain (0x2F :: 0x2F :: (t ++ 0x0A :: s)) =
      (0x2F :: 0x2F :: (t ++ 0x0A :: (cutBracketed o c d .plain s).1),
        (cutBracketed o c d .plain s).2) := by
  have hopen : cutBracketed o c d .plain (0x2F :: 0x2F :: (t ++ 0x0A :: s)) =
      (0x2F :: (cutBracketed o c d .comment (0x2F :: t ++ 0x0A :: s)).1,
        (cutBracketed o c d .comment (0x2F :: t ++ 0x0A :: s)).2) := rfl
  rw [hopen, cutBracketed_comment (slash_comment ht)]
  rfl

end Comments

section Fronts

variable {c : UInt8} {u v : Bytes}

private theorem startsComment_append {p : Bytes} (hp : startsComment p = true) (r : Bytes) :
    startsComment (p ++ r) = true := by
  unfold startsComment at hp
  split at hp
  · rfl
  · cases hp

theorem cutBracketed_isPrefix (o c : UInt8) (d : Nat) (mode : ScanMode) (s : Bytes) :
    (cutBracketed o c d mode s).1 <+: s := by
  fun_induction cutBracketed o c d mode s with
  | case1 => exact List.prefix_rfl
  | case5 => exact List.nil_prefix
  | case2 _ _ _ _ _ ih | case3 _ _ _ _ _ _ ih | case4 _ _ _ _ _ _ _ ih | case6 _ _ _ _ _ _ _ _ ih
  | case7 _ _ _ _ _ _ _ _ ih | case8 _ _ _ _ ih | case9 _ _ _ _ ih | case10 _ _ _ _ ih =>
      exact List.cons_prefix_cons.mpr ⟨rfl, ih⟩

theorem cutBracketed_isSuffix (o c : UInt8) (d : Nat) (mode : ScanMode) (s : Bytes) :
    (cutBracketed o c d mode s).2 <:+ s := by
  fun_induction cutBracketed o c d mode s with
  | case1 => exact List.suffix_rfl
  | case5 => exact List.suffix_cons _ _
  | case2 _ _ _ _ _ ih | case3 _ _ _ _ _ _ ih | case4 _ _ _ _ _ _ _ ih | case6 _ _ _ _ _ _ _ _ ih
  | case7 _ _ _ _ _ _ _ _ ih | case8 _ _ _ _ ih | case9 _ _ _ _ ih | case10 _ _ _ _ ih =>
      exact ih.trans (List.suffix_cons _ _)

private theorem startsComment_cut {a : UInt8} {s : Bytes} (hs : startsComment (a :: s) = false)
    (o c : UInt8) (d : Nat) (mode : ScanMode) :
    startsComment (a :: (cutBracketed o c d mode s).1) = false := by
  obtain ⟨r, hr⟩ := cutBracketed_isPrefix o c d mode s
  cases hp : startsComment (a :: (cutBracketed o c d mode s).1) with
  | false => rfl
  | true =>
      have := startsComment_append hp r
      rw [List.cons_append, hr, hs] at this
      cases this

theorem Thins.front (h : Thins (c :: u) v) (hq : c ≠ quote)
    (hc : startsComment (c :: u) = false) :
    ∃ w, v = c :: w ∧ startsComment (c :: w) = false ∧ Thins u w := by
  cases h with
  | refl => exact ⟨u, rfl, hc, .refl u⟩
  | byte _ _ hv h => exact ⟨_, rfl, hv, h⟩
  | string => exact absurd rfl hq
  | kept | dropped => cases hc

theorem Thins.sublist (h : Thins u v) : v.Sublist u := by
  induction h with
  | refl s => exact .refl s
  | byte _ _ _ _ ih => exact ih.cons_cons _
  | string _ _ ih => exact ((List.Sublist.refl _).append (ih.cons_cons _)).cons_cons _
  | kept _ _ ih => exact (((List.Sublist.refl _).append (ih.cons_cons _)).cons_cons _).cons_cons _
  | @dropped t u v _ _ _ ih => exact (((ih.cons_cons _).trans (List.sublist_append_right t _)).cons _).cons _

theorem Thins.eq_nil_iff (h : Thins u v) : u = [] ↔ v = [] := by
  cases h <;> simp

/-- A block literal has the same text after some of its comments are dropped. -/
theorem Thins.blockText (h : Thins u v) : blockText .plain u = blockText .plain v := by
  induction h with
  | refl => rfl
  | @byte c u v hq hu hv _ ih =>
      rw [Compile.blockText, Compile.blockText, hu, hv, ih]
      simp [hq]
  | @string body u v hb _ ih =>
      change quote :: Compile.blockText .quoted _ = quote :: Compile.blockText .quoted _
      rw [hb.blockText, hb.blockText, ih]
  | kept ht _ ih => rw [blockText_slashes ht, blockText_slashes ht, ih]
  | dropped ht hk _ ih =>
      rw [blockText_slashes ht, hk, ih]
      rfl

private theorem length_blockText_plain_le (s : Bytes) :
    (Compile.blockText .plain s).length ≤ s.length :=
  length_blockText _ _

theorem Thins.eq_of_blockText (h : Thins u v) (hu : Compile.blockText .plain u = u) : v = u := by
  refine h.sublist.eq_of_length_le ?_
  calc u.length = (Compile.blockText .plain v).length := by rw [← h.blockText, hu]
    _ ≤ v.length := length_blockText_plain_le v

end Fronts

/-- Two texts begin with the same bytes, as many as are given, and the second one is thinner behind
them. -/
structure SameFront (n : Nat) (u v : Bytes) : Prop where
  take : v.take n = u.take n
  drop : Thins (u.drop n) (v.drop n)

theorem SameFront.zero {u v : Bytes} (h : Thins u v) : SameFront 0 u v := ⟨rfl, h⟩

theorem SameFront.cons {n : Nat} {u v : Bytes} (h : SameFront n u v) (c : UInt8) :
    SameFront (1 + n) (c :: u) (c :: v) := by
  rw [Nat.add_comm]
  exact ⟨congrArg (c :: ·) h.take, h.drop⟩

/-- The closing brackets that a word waits for behind a byte that is none of a comment; nothing if
the word ends in front of it. -/
def wordStep (closers : Bytes) (c : UInt8) : Option Bytes :=
  if endsWord c then none
  else if c == code '[' then some (code ']' :: closers)
  else if c == code '(' then some (code ')' :: closers)
  else if c == code ']' || c == code ')' then
    match closers.dropWhile (· != c) with
    | [] => none
    | _ :: outer => some outer
  else some closers

theorem wordLengthIn_cons (closers : Bytes) {c : UInt8} {s : Bytes}
    (hs : startsComment (c :: s) = false) : wordLengthIn closers (c :: s) =
      match wordStep closers c with
      | none => 0
      | some closers => 1 + wordLengthIn closers s := by
  rw [wordLengthIn, hs, wordStep, Bool.or_false]
  repeat' split
  all_goals simp_all

/-- The number of open brackets behind a byte that is none of a string or a comment; nothing if the
byte closes the last one. -/
def bracketStep (o c : UInt8) (d : Nat) (a : UInt8) : Option Nat :=
  if a == o then some (d + 1)
  else if a == c then
    match d with
    | 0 => none
    | d + 1 => some d
  else some d

theorem cutBracketed_cons (o c : UInt8) (d : Nat) {a : UInt8} {s : Bytes} (ha : a ≠ quote)
    (hs : startsComment (a :: s) = false) : cutBracketed o c d .plain (a :: s) =
      match bracketStep o c d a with
      | none => ([], s)
      | some d => (a :: (cutBracketed o c d .plain s).1, (cutBracketed o c d .plain s).2) := by
  rw [cutBracketed.eq_def, bracketStep.eq_def]
  simp only [beq_eq_false_iff_ne.mpr ha, hs, Bool.false_eq_true, if_false]
  split
  · rfl
  split
  · cases d <;> rfl
  · rfl

private theorem startsComment_eq_byteAt (s : Bytes) :
    startsComment s = (Bytes.byteAt s 0 == 0x2F && Bytes.byteAt s 1 == 0x2F) := by
  cases s with
  | nil => rfl
  | cons c s => exact startsComment_eq c s

/-- What follows an assignment sign ends it. -/
def endsSign (s : Bytes) : Bool :=
  startsComment s ||
    (let d := Bytes.byteAt s 0
     d == code ';' || d == 0x20 || d == 0x09 || d == 0x0D || d == 0x0A || d == 0)

private theorem isAssignment_eq (c : Cursor) : isAssignment c =
    (Bytes.byteAt c.rest 0 == code '=' && endsSign (c.rest.drop 1)) := by
  have hbyte (k : Nat) : Bytes.byteAt (c.rest.drop 1) k = c.peek (1 + k) := by
    cases h : c.rest <;> simp [Cursor.peek, Bytes.byteAt, h, Nat.add_comm]
  rw [endsSign, startsComment_eq_byteAt, hbyte, hbyte, isAssignment]
  simp [Bool.or_assoc]
  rfl

section Readers

variable {u v : Bytes} (h : Thins u v)
include h

theorem Thins.byteAt : Bytes.byteAt v 0 = Bytes.byteAt u 0 ∨
    startsComment u = true ∧ Bytes.byteAt u 0 = 0x2F ∧ Bytes.byteAt v 0 = 0x0A := by
  cases h with
  | dropped => exact .inr ⟨rfl, rfl, rfl⟩
  | _ => exact .inl rfl

theorem Thins.skipBlanks : Thins (skipBlanks false u) (skipBlanks false v) := by
  induction h with
  | refl s => exact .refl _
  | @byte c u v hq hu hv h ih =>
      rw [Compile.skipBlanks, Compile.skipBlanks, hu, hv]
      split
      · exact ih
      · exact .byte hq hu hv h
  | string hb h => exact .string hb h
  | kept ht h | dropped ht _ h =>
      rw [skipBlanks_slashes ht]
      first | rw [skipBlanks_slashes ht] | skip
      exact .byte (by decide) rfl rfl h

theorem Thins.wordFront (closers : Bytes) :
    wordLengthIn closers v = wordLengthIn closers u ∧
      SameFront (wordLengthIn closers u) u v := by
  induction h generalizing closers with
  | refl s => exact ⟨rfl, rfl, .refl _⟩
  | @byte c u v hq hu hv h ih =>
      rw [wordLengthIn_cons closers hu, wordLengthIn_cons closers hv]
      cases wordStep closers c with
      | none => exact ⟨rfl, .zero (.byte hq hu hv h)⟩
      | some closers =>
          obtain ⟨hn, hf⟩ := ih closers
          exact ⟨congrArg (1 + ·) hn, hf.cons c⟩
  | string hb h => exact ⟨rfl, .zero (.string hb h)⟩
  | kept ht h => exact ⟨rfl, .zero (.kept ht h)⟩
  | dropped ht hk h => exact ⟨rfl, .zero (.dropped ht hk h)⟩

theorem Thins.signsFront : (v.takeWhile (· == code '$')).length =
      (u.takeWhile (· == code '$')).length ∧
    SameFront (u.takeWhile (· == code '$')).length u v := by
  induction h with
  | refl s => exact ⟨rfl, rfl, .refl _⟩
  | @byte c u v hq hu hv h ih =>
      rw [List.takeWhile_cons, List.takeWhile_cons]
      split
      · rw [List.length_cons, List.length_cons, Nat.add_comm, Nat.add_comm _ 1]
        exact ⟨congrArg (1 + ·) ih.1, ih.2.cons c⟩
      · exact ⟨rfl, .zero (.byte hq hu hv h)⟩
  | string hb h => exact ⟨rfl, .zero (.string hb h)⟩
  | kept ht h => exact ⟨rfl, .zero (.kept ht h)⟩
  | dropped ht hk h => exact ⟨rfl, .zero (.dropped ht hk h)⟩

theorem Thins.cutBracketed {o c : UInt8} (ho : 0x0A ≠ o) (hc : 0x0A ≠ c) (d : Nat) :
    Thins (cutBracketed o c d .plain u).1 (cutBracketed o c d .plain v).1 ∧
      Thins (cutBracketed o c d .plain u).2 (cutBracketed o c d .plain v).2 := by
  induction h generalizing d with
  | refl s => exact ⟨.refl _, .refl _⟩
  | @byte a u v hq hu hv h ih =>
      rw [cutBracketed_cons o c d hq hu, cutBracketed_cons o c d hq hv]
      cases bracketStep o c d a with
      | none => exact ⟨.refl _, h⟩
      | some d =>
          obtain ⟨hsegment, hrest⟩ := ih d
          exact ⟨.byte hq (startsComment_cut hu o c d _) (startsComment_cut hv o c d _) hsegment,
            hrest⟩
  | @string body u v hb h ih =>
      obtain ⟨hsegment, hrest⟩ := ih d
      have hopen (s : Bytes) : Syntax.cutBracketed o c d .plain (quote :: s) =
          (quote :: (Syntax.cutBracketed o c d .quoted s).1,
            (Syntax.cutBracketed o c d .quoted s).2) := rfl
      rw [hopen, hopen, hb.cutBracketed, hb.cutBracketed]
      exact ⟨.string hb hsegment, hrest⟩
  | kept ht h ih =>
      obtain ⟨hsegment, hrest⟩ := ih d
      rw [cutBracketed_slashes ht, cutBracketed_slashes ht]
      exact ⟨.kept ht hsegment, hrest⟩
  | dropped ht hk h ih =>
      obtain ⟨hsegment, hrest⟩ := ih d
      have hfeed : bracketStep o c d 0x0A = some d := by
        rw [bracketStep.eq_def, if_neg (by simpa using ho), if_neg (by simpa using hc)]
      rw [cutBracketed_slashes ht, cutBracketed_cons o c d (by decide) rfl, hfeed]
      exact ⟨.dropped ht hk hsegment, hrest⟩

/-- What may stand behind an assignment sign: a comment is as good as the line feed that is left of
it. -/
theorem Thins.endsSign : endsSign u = endsSign v := by
  cases h with
  | refl => rfl
  | byte hq hu hv h => rw [Compile.endsSign, Compile.endsSign, hu, hv]; rfl
  | string hb h => rfl
  | kept ht h => rfl
  | dropped ht hk h => rfl

theorem Thins.isAssignment (hu : startsComment u = false) {c d : Cursor} (hc : c.rest = u)
    (hd : d.rest = v) : isAssignment c = isAssignment d := by
  rw [isAssignment_eq, isAssignment_eq, hc, hd]
  cases h with
  | refl => rfl
  | @byte a u v hq hu hv h =>
      have hdrop (s : Bytes) : (a :: s).drop 1 = s := rfl
      rw [hdrop, hdrop, h.endsSign]
      rfl
  | string hb h => rfl
  | kept | dropped => cases hu

end Readers

/-- A string at the front is read alike. -/
theorem Thins.cutBody {u v : Bytes} (h : Thins (quote :: u) v) : ∃ w, v = quote :: w ∧
    (cutBody w).1 = (cutBody u).1 ∧ Thins (cutBody u).2 (cutBody w).2 := by
  cases h with
  | refl => exact ⟨u, rfl, rfl, .refl _⟩
  | byte hq => exact absurd rfl hq
  | @string body u v hb h =>
      have hcut (s : Bytes) : Syntax.cutBody (body ++ quote :: s) = (body, s) := by
        rw [Syntax.cutBody, hb.bodyLength, List.drop_left, List.take_left]
        rfl
      refine ⟨_, rfl, ?_, ?_⟩
      · rw [hcut, hcut]
      · rw [hcut, hcut]
        exact h


/-- The body of a block literal in which `depth` more brackets are to be closed: brackets nest,
strings are closed, and comments end before the body does. -/
inductive BlockBody : (depth : Nat) → Bytes → Prop
  | nil : BlockBody 0 []
  | byte {d : Nat} {c : UInt8} {s : Bytes} (hq : c ≠ quote) (ho : c ≠ code '[') (hc : c ≠ code ']')
      (hs : startsComment (c :: s) = false) (h : BlockBody d s) : BlockBody d (c :: s)
  | string {d : Nat} {body s : Bytes} (hb : ClosedBody body) (h : BlockBody d s) :
      BlockBody d (quote :: (body ++ quote :: s))
  | comment {d : Nat} {t s : Bytes} (ht : 0x0A ∉ t) (h : BlockBody d s) :
      BlockBody d (0x2F :: 0x2F :: (t ++ 0x0A :: s))
  | opening {d : Nat} {s : Bytes} (h : BlockBody (d + 1) s) : BlockBody d (code '[' :: s)
  | closing {d : Nat} {s : Bytes} (h : BlockBody d s) : BlockBody (d + 1) (code ']' :: s)

section Bodies

variable {d : Nat} {b : Bytes} (h : BlockBody d b)
include h

/-- The body ends at the bracket behind it. -/
theorem BlockBody.cut (tail : Bytes) :
    cutBracketed (code '[') (code ']') d .plain (b ++ code ']' :: tail) = (b, tail) := by
  have hcut (d : Nat) {c : UInt8} (s : Bytes) (hq : c ≠ quote)
      (hs : startsComment (c :: s) = false) :=
    cutBracketed_cons (code '[') (code ']') d hq hs
  induction h with
  | nil => rfl
  | @byte d c s hq ho hc hs h ih =>
      have hcomment : startsComment (c :: (s ++ code ']' :: tail)) = false := by
        rw [startsComment_eq] at hs ⊢
        cases s with
        | nil => exact Bool.and_false _
        | cons a s => exact hs
      have hstep : bracketStep (code '[') (code ']') d c = some d := by
        simp [bracketStep, ho, hc]
      rw [List.cons_append, hcut d _ hq hcomment, hstep]
      dsimp only
      rw [ih]
  | @string d body s hb h ih =>
      have hopen : cutBracketed (code '[') (code ']') d .plain
          (quote :: (body ++ quote :: (s ++ code ']' :: tail))) =
          (quote :: (cutBracketed (code '[') (code ']') d .quoted
            (body ++ quote :: (s ++ code ']' :: tail))).1,
            (cutBracketed (code '[') (code ']') d .quoted
              (body ++ quote :: (s ++ code ']' :: tail))).2) := rfl
      rw [List.cons_append, List.append_assoc, List.cons_append, hopen, hb.cutBracketed, ih]
  | comment ht h ih =>
      rw [List.cons_append, List.cons_append, List.append_assoc, List.cons_append,
        cutBracketed_slashes ht, ih]
  | @opening d s h ih =>
      rw [List.cons_append, hcut d _ (by decide) rfl]
      change (code '[' :: (cutBracketed _ _ (d + 1) _ _).1, (cutBracketed _ _ (d + 1) _ _).2) = _
      rw [ih]
  | @closing d s h ih =>
      rw [List.cons_append, hcut (d + 1) _ (by decide) rfl]
      change (code ']' :: (cutBracketed _ _ d _ _).1, (cutBracketed _ _ d _ _).2) = _
      rw [ih]

/-- The text of a block literal is its body, thinned. -/
theorem BlockBody.thins (hcr : 0x0D ∉ b) : Thins b (blockText .plain b) := by
  have hbyte {c : UInt8} {s : Bytes} (hq : c ≠ quote) (hc : (0x0D : UInt8) ≠ c)
      (hs : startsComment (c :: s) = false) (ht : Thins s (blockText .plain s)) :
      Thins (c :: s) (blockText .plain (c :: s)) := by
    have htext : blockText .plain (c :: s) = c :: blockText .plain s := by
      rw [blockText, hs]
      simp [hq, hc.symm]
    rw [htext]
    refine .byte hq hs ?_ ht
    -- What a comment behind a slash leaves in front is a line feed.
    rw [startsComment_eq] at hs ⊢
    rcases ht.byteAt with heq | ⟨-, -, hfeed⟩
    · rw [heq]
      exact hs
    · rw [hfeed]
      exact Bool.and_false _
  induction h with
  | nil => exact .refl []
  | byte hq ho hc hs h ih =>
      obtain ⟨hne, hcr⟩ := List.ne_and_not_mem_of_not_mem_cons hcr
      exact hbyte hq hne hs (ih hcr)
  | @string d body s hb h ih =>
      have htext : blockText .plain (quote :: (body ++ quote :: s)) =
          quote :: blockText .quoted (body ++ quote :: s) := rfl
      rw [htext, hb.blockText]
      exact .string hb (ih fun hm => hcr (by simp [hm]))
  | @comment d t s ht h ih =>
      have hrest := ih fun hm => hcr (by simp [hm])
      rw [blockText_slashes ht]
      cases hk : Byte.isPunct (Bytes.byteAt (t ++ [0x0A]) 0) with
      | true => exact .kept ht hrest
      | false => exact .dropped ht hk hrest
  | opening h ih | closing h ih =>
      exact hbyte (by decide) (by decide) rfl (ih fun hm => hcr (List.mem_cons_of_mem _ hm))

end Bodies

end ConsoleScript.Compile
