import ConsoleScript.Proofs.Compile.Agreement

/-!
How far the compiler gets. An argument and the first word of a statement take a byte at least, and
so does a statement with what ends it, unless nothing follows. Behind the statements of a text that
no bracket closes nothing is left.
-/

namespace ConsoleScript.Compile

open Bytecode Syntax

/-- The number of bytes that are left. -/
def State.left (s : State) : Nat := s.cursor.rest.length

theorem State.Gains.left_le {s s' : State} (h : s.Gains s') : s'.left ≤ s.left := h.rest.length_le

/-- Fewer bytes are left than a bound. -/
def Below (n : Nat) (s : State) : Prop := s.left < n

theorem Below.mono {n n' : Nat} {s : State} (h : Below n s) (hn : n ≤ n') : Below n' s :=
  Nat.lt_of_lt_of_le h hn

theorem Below.of_sub {n i : Nat} {s : State} (h : Below (n - i) s) : Below n s :=
  h.mono (Nat.sub_le n i)

/-- Fewer bytes are left than a bound, and a given one is the first of them. -/
def BelowAt (n : Nat) (c : UInt8) (s : State) : Prop :=
  Below n s ∧ Bytes.byteAt s.cursor.rest 0 = c

/-- Behind an answer less is left. -/
def Past {α : Type} (n : Nat) : Option α → State → Prop
  | none => Below n
  | some _ => Below (n - 1)

/-- From a state with one property, a step leads to an answer and a state with another. -/
def Ensures {α : Type} (pre : State → Prop) (m : CompileM α) (post : α → State → Prop) : Prop :=
  ∀ s, pre s → post (m.run s).1 (m.run s).2

section Rules

variable {α β : Type} {pre pre' : State → Prop} {m m' : CompileM α} {post post' : α → State → Prop}
  {n : Nat}

theorem Ensures.pure {a : α} (h : ∀ s, pre s → post a s) : Ensures pre (Pure.pure a) post := h

theorem Ensures.bind {f : α → CompileM β} {Q : β → State → Prop} (hm : Ensures pre m post)
    (hf : ∀ a, Ensures (post a) (f a) Q) : Ensures pre (m >>= f) Q :=
  fun s hs => hf _ _ (hm s hs)

theorem Ensures.mono (hm : Ensures pre m post) (h : ∀ a s, post a s → post' a s) :
    Ensures pre m post' :=
  fun s hs => h _ _ (hm s hs)

theorem Ensures.restrict (hm : Ensures pre m post) (h : ∀ s, pre' s → pre s) :
    Ensures pre' m post :=
  fun s hs => hm s (h s hs)

theorem Ensures.ite {c : Prop} [Decidable c] (h : c → Ensures pre m post)
    (h' : ¬c → Ensures pre m' post) : Ensures pre (if c then m else m') post := by
  split
  · exact h ‹_›
  · exact h' ‹_›

theorem Ensures.onCursor {f : Cursor → CompileM β} {Q : β → State → Prop}
    (h : ∀ c, Ensures (fun s => pre s ∧ s.cursor = c) (f c) Q) : Ensures pre (cursor >>= f) Q :=
  fun s hs => h s.cursor s ⟨hs, rfl⟩

theorem Ensures.given {p : Prop} (hp : ∀ s, pre s → p) (h : p → Ensures pre m post) :
    Ensures pre m post :=
  fun s hs => h (hp s hs) s hs

theorem Makes.ensures {P : α → Prop} (hm : Makes m P) : Ensures (Below n) m fun _ => Below n :=
  fun s hs => Nat.lt_of_le_of_lt (hm s).1.left_le hs

end Rules

section Steps

variable {n : Nat}

theorem ensures_peek : Ensures (Below n) (peek 0) fun c => BelowAt n c := fun _ hs => ⟨hs, rfl⟩

theorem left_advance (i : Nat) (s : State) : ((advance i).run s).2.left = s.left - i :=
  List.length_drop

theorem BelowAt.pos {c : UInt8} {s : State} (h : BelowAt n c s) (hc : c ≠ 0) : 0 < s.left := by
  obtain ⟨r, hr⟩ := eq_cons_of_byteAt h.2 hc
  exact List.length_pos_iff.mpr (hr ▸ List.cons_ne_nil c r)

theorem ensures_advance {c : UInt8} (hc : c ≠ 0) :
    Ensures (BelowAt n c) (advance 1) fun _ => Below (n - 1) := by
  intro s hs
  have hpos := hs.pos hc
  have hlt : s.left < n := hs.1
  change ((advance 1).run s).2.left < n - 1
  rw [left_advance]
  omega

private theorem ensures_cutStringBody : Ensures (Below n) cutStringBody fun text s =>
    text.length < n ∧ Below n s := by
  intro s hs
  obtain ⟨ha, hl⟩ := run_cutStringBody s
  rw [ha]
  exact ⟨Nat.lt_of_le_of_lt (cutBody_isPrefix _).length_le hs, makes_cutStringBody.ensures s hs⟩

private theorem ensures_cutRaw : Ensures (BelowAt n quote) cutRaw fun text s =>
    text.length < n - 1 ∧ Below (n - 1) s :=
  (ensures_advance (by decide)).bind fun _ => ensures_cutStringBody

theorem ensures_cutString : Ensures (BelowAt n quote) cutString fun text s =>
    text.length < n - 1 ∧ Below (n - 1) s :=
  ensures_cutRaw.bind fun _ => .pure fun _ h => ⟨Nat.lt_of_le_of_lt (length_unescape _) h.1, h.2⟩

theorem ensures_cutWord : Ensures (Below n) cutWord fun word s => word.length < n ∧
    if word.isEmpty then Below n s else Below (n - 1) s := by
  intro s hs
  have hlt : s.left < n := hs
  have hword : (cutWord.run s).1 = s.cursor.rest.take (wordLength s.cursor.rest) := rfl
  have hleft : (cutWord.run s).2.left = s.left - wordLength s.cursor.rest := left_advance _ s
  rw [hword]
  refine ⟨Nat.lt_of_le_of_lt (List.length_take_le' _ _) hs, ?_⟩
  split
  · exact makes_cutWord.ensures s hs
  next hword =>
    have hpos : 0 < (s.cursor.rest.take (wordLength s.cursor.rest)).length :=
      List.length_pos_iff.mpr (by simpa using hword)
    rw [List.length_take] at hpos
    have hleft' : s.left = s.cursor.rest.length := rfl
    change (cutWord.run s).2.left < n - 1
    omega

/-- Passing over the signs of a look-up. -/
theorem ensures_signs (c : Cursor) :
    Ensures (fun s => BelowAt n (code '$') s ∧ s.cursor = c)
      (advance (c.rest.takeWhile (· == code '$')).length) fun _ => Below (n - 1) := by
  rintro s ⟨hs, rfl⟩
  have hlt : s.left < n := hs.1
  obtain ⟨r, hr⟩ := eq_cons_of_byteAt hs.2 (by decide)
  have hpos := hs.pos (by decide)
  have hsigns : 0 < (s.cursor.rest.takeWhile (· == code '$')).length := by
    rw [hr, List.takeWhile_cons_of_pos (by decide)]
    exact Nat.succ_pos _
  change ((advance _).run s).2.left < n - 1
  rw [left_advance]
  omega

theorem ensures_next (c : Cursor) (hc : ¬c.rest.isEmpty = true) :
    Ensures (fun s => Below n s ∧ s.cursor = c) next fun _ => Below (n - 1) := by
  rintro s ⟨hs, rfl⟩
  have hlt : s.left < n := hs
  have hpos : 0 < s.left := List.length_pos_iff.mpr (by simpa using hc)
  have hnext : (next.run s).2.left = s.left - 1 := left_advance 1 s
  change (next.run s).2.left < n - 1
  omega

end Steps

/-- Behind an argument, and behind the first word of a statement, less is left. -/
structure Nested.Advances (k : Nested) : Prop where
  arg : ∀ (want : Want) (prev n : Nat), Ensures (Below n) (k.arg want prev) (Past n)
  head : ∀ prev n : Nat, Ensures (Below n) (k.head prev) (Past n)

section Arguments

variable {k : Nested} (hk : k.Builds) (prev : Nat) {n : Nat}
include hk

private theorem ensures_lookup (want : Want) :
    Ensures (BelowAt n (code '$')) (lookup k want prev) fun _ => Below (n - 1) := by
  refine .onCursor fun c => (ensures_signs c).bind fun _ => .ite (fun _ => ?_) fun _ => ?_
  · exact (makes_lookupOne hk want prev).ensures
  · exact (makes_lookupOne hk .textView prev).ensures.bind fun _ => .pure fun _ h => h

theorem ensures_argument (want : Want) : Ensures (Below n) (argument k want prev) (Past n) := by
  have hsome {pre : State → Prop} {m : CompileM Code} (h : Ensures pre m fun _ => Below (n - 1)) :
      Ensures pre (m >>= fun code => Pure.pure (some code)) (Past n) :=
    h.bind fun _ => .pure fun _ h => h
  refine makes_skipComments.ensures.bind fun _ => ensures_peek.bind fun c => ?_
  refine .ite (fun hc => ?_) fun _ => .ite (fun hc => ?_) fun _ => .ite (fun hc => ?_) fun _ =>
    .ite (fun hc => ?_) fun _ => ?_
  · obtain rfl := beq_iff_eq.mp hc
    refine hsome (.onCursor fun c => ?_)
    refine (ensures_cutString.restrict fun _ h => h.1).bind fun text => ?_
    have hword := (makes_wordCode hk want text c.name).ensures (n := n - 1)
    cases want with
    | any | text | anyView | textView => exact .pure fun _ h => h.2
    | int | float | code | condition | ident | head | nothing =>
        exact hword.restrict fun _ h => h.2
  · obtain rfl := beq_iff_eq.mp hc
    exact hsome (ensures_lookup hk prev want)
  · obtain rfl := beq_iff_eq.mp hc
    exact (ensures_advance (by decide)).bind fun _ => hsome (makes_group hk want prev).ensures
  · obtain rfl := beq_iff_eq.mp hc
    exact (ensures_advance (by decide)).bind fun _ =>
      hsome (makes_blockLiteral hk want prev).ensures
  · refine .onCursor fun c => (ensures_cutWord.restrict fun _ h => h.1.1).bind fun word => ?_
    refine .ite (fun hw => .pure fun s h => ?_) fun hw => ?_
    · rw [if_pos hw] at h
      exact h.2
    · refine hsome ((makes_wordCode hk want word _).ensures.restrict fun s h => ?_)
      rw [if_neg hw] at h
      exact h.2

theorem ensures_firstWord : Ensures (Below n) (firstWord k prev) (Past n) := by
  refine makes_skipComments.ensures.bind fun _ => ensures_peek.bind fun c => ?_
  refine .ite (fun hc => ?_) fun _ => .ite (fun hc => ?_) fun _ => ?_
  · obtain rfl := beq_iff_eq.mp hc
    exact ensures_cutString.bind fun text => .pure fun _ h => h.2
  · refine ((ensures_argument hk prev .head).restrict fun _ h => h.1).bind fun answer =>
      .pure fun _ h => ?_
    cases answer with
    | none => exact h
    | some code => exact h
  · refine (ensures_cutWord.restrict fun _ h => h.1).bind fun word => ?_
    refine .ite (fun hw => .pure fun s h => ?_) fun hw => .pure fun s h => ?_
    · rw [if_pos hw] at h
      exact h.2
    · rw [if_neg hw] at h
      exact h.2

end Arguments

theorem nested_advances (levels : Nat) : (nested levels).Advances := by
  cases levels with
  | zero => exact ⟨fun _ _ _ => .pure fun _ h => h, fun _ _ => .pure fun _ h => h⟩
  | succ levels =>
      have hk := nested_builds levels
      exact ⟨fun want prev _ => ensures_argument hk prev want,
        fun prev _ => ensures_firstWord hk prev⟩

section Rounds

/-- One round: a statement, what is left on its line, and its end. True if it is the end of all
statements. -/
def round (k : Nested) (view : Bool) (closing : UInt8) (prev : Nat) : CompileM (Code × Bool) := do
  let (code, more) ← statement k view prev
  let left := (← cursor).rest.length
  let surplus ← surplusArgs k more prev
  return (code ++ surplus, ← endOfStatement closing (left + 1))

theorem statementsFrom_succ (k : Nested) (view : Bool) (closing : UInt8) (prev fuel : Nat) :
    statementsFrom k view closing prev (fuel + 1) = round k view closing prev >>= fun a =>
      if a.2 then return a.1 else return a.1 ++ (← statementsFrom k view closing prev fuel) := by
  rw [round, statementsFrom]
  simp only [bind_assoc, pure_bind]

/-- Where a round may end: if it is not the last one less is left, and behind the last statement of
a text that no bracket closes nothing is left. -/
def Ended (closing : UInt8) (n : Nat) (ended : Bool) (s : State) : Prop :=
  if ended then Below n s ∧ (closing = 0 → s.left = 0) else Below (n - 1) s

theorem Ended.mono {closing : UInt8} {n n' : Nat} {ended : Bool} {s : State}
    (h : Ended closing n ended s) (hn : n ≤ n') : Ended closing n' ended s := by
  cases ended with
  | true => exact ⟨h.1.mono hn, h.2⟩
  | false => exact Below.mono h (Nat.sub_le_sub_right hn 1)

private theorem ensures_endOfStatement (closing : UInt8) {n fuel : Nat} (hn : n ≤ fuel) :
    Ensures (Below n) (endOfStatement closing fuel) (Ended closing n) := by
  induction fuel generalizing n with
  | zero => exact .pure fun s h => absurd h (by simp [Below]; omega)
  | succ fuel ih =>
      refine (makes_skipTo _).ensures.bind fun _ => .onCursor fun c => ?_
      refine .ite (fun hc => ?_) fun hc => ?_
      · have hleft (s : State) (h : Below n s ∧ s.cursor = c) : Ended closing n true s := by
          obtain ⟨h, rfl⟩ := h
          exact ⟨h, fun _ => List.length_eq_zero_iff.mpr (List.isEmpty_iff.mp hc)⟩
        refine .ite (fun hclosing => ?_) fun _ => .pure hleft
        refine ((makes_warn _).ensures.restrict fun _ h => h.1).bind fun _ => .pure fun s h => ?_
        exact ⟨h, fun h0 => absurd h0 (by simpa using hclosing)⟩
      · refine (ensures_next c hc).bind fun b => .ite (fun hb => ?_) fun _ =>
          .ite (fun _ => ?_) fun _ => ?_
        · refine .ite (fun hclosing => .pure fun s h => ⟨h.of_sub, fun h0 => ?_⟩) fun _ => ?_
          · rw [beq_iff_eq.mp hclosing, h0] at hb
            exact absurd hb (by decide)
          · exact (makes_warn _).ensures.bind fun _ => .pure fun _ h => h
        · have hrest : Ensures (Below (n - 1)) (endOfStatement closing fuel) (Ended closing n) :=
            (ih (by omega)).mono fun _ _ h => h.mono (Nat.sub_le n 1)
          refine ensures_peek.bind fun d =>
            .ite (fun _ => ?_) fun _ => hrest.restrict fun _ h => h.1
          exact ((makes_skipTo _).ensures.restrict fun _ h => h.1).bind fun _ => hrest
        · exact .pure fun _ h => h

variable {k : Nested} (hk : k.Builds) (view : Bool) (closing : UInt8) (prev : Nat)
include hk

theorem makes_round : Makes (round k view closing prev) fun _ => True :=
  (makes_statement hk view prev).bind fun a _ => makes_cursor.after fun _ =>
    (makes_surplusArgs hk a.2 prev).bind fun _ _ =>
      (makes_endOfStatement closing _).after fun _ => .pure trivial

theorem ensures_round {n : Nat} : Ensures (Below n) (round k view closing prev) fun a =>
    Ended closing n a.2 := by
  refine (makes_statement hk view prev).ensures.bind fun a => .onCursor fun c => ?_
  refine .given (p := c.rest.length < n) (fun s h => h.2 ▸ h.1) fun hc => ?_
  have hsurplus := (makes_surplusArgs hk a.2 prev).ensures (n := c.rest.length + 1)
  refine (hsurplus.restrict fun s (h : Below n s ∧ s.cursor = c) => ?_).bind fun surplus => ?_
  · exact h.2 ▸ Nat.lt_succ_self _
  refine (ensures_endOfStatement closing (Nat.le_refl _)).bind fun ended => .pure fun s h => ?_
  exact Ended.mono h hc

private theorem ensures_statementsFrom (n : Nat) :
    Ensures (Below n) (statementsFrom k view 0 prev n) fun _ s => s.left = 0 := by
  induction n with
  | zero => exact fun s hs => absurd hs (Nat.not_lt_zero _)
  | succ n ih =>
      rw [statementsFrom_succ]
      refine (ensures_round hk view 0 prev).bind fun a => ?_
      cases a.2 with
      | true => exact .ite (fun _ => .pure fun s h => h.2 rfl) fun h => absurd rfl h
      | false =>
          refine .ite nofun fun _ => ?_
          exact Ensures.bind (ih.restrict fun _ h => h) fun _ => .pure fun _ h => h

theorem statements_toEnd (s : State) :
    ((statements k view 0 prev).run s).2.cursor.rest = [] :=
  List.length_eq_zero_iff.mp
    (ensures_statementsFrom hk view prev (s.left + 1) s (Nat.lt_succ_self _))

end Rounds

end ConsoleScript.Compile
