import ConsoleScript.Proofs.Compile.Thinning

/-!
Lists are read element by element. An element is read alike wherever it stands and whatever follows
it, as long as what follows begins alike or nothing follows: strings and brackets are closed or reach
to the end of the list, and a word ends at a byte that it does not take itself. So a list may be cut
behind any element, and the part of a list holds the elements that were asked for.
-/

namespace ConsoleScript.Syntax

open Compile

/-- A text that may stand in the place of another one behind an element: there is nothing, or the
first byte is the same and it opens a comment in both or in neither. -/
def BeginsAs (r' r : Bytes) : Prop :=
  r' = [] ∨ r'.head? = r.head? ∧ startsComment r' = startsComment r

section Beginnings

variable {c : UInt8} {r r' u v : Bytes}

theorem BeginsAs.eq_nil (h : BeginsAs r' []) : r' = [] := by
  rcases h with rfl | ⟨h, -⟩
  · rfl
  · exact List.head?_eq_none_iff.mp h

theorem BeginsAs.cases (h : BeginsAs r' r) : r' = [] ∨
    ∃ c t t', r = c :: t ∧ r' = c :: t' ∧ startsComment (c :: t') = startsComment (c :: t) := by
  rcases h with rfl | ⟨hhead, hcomment⟩
  · exact .inl rfl
  · cases r' with
    | nil => exact .inl rfl
    | cons c t' =>
        cases r with
        | nil => cases hhead
        | cons a t =>
            obtain rfl : c = a := Option.some.inj hhead
            exact .inr ⟨c, t, t', rfl, rfl, hcomment⟩

theorem startsComment_eq_of_head? (h : u.head? = v.head?) :
    startsComment (c :: u) = startsComment (c :: v) := by
  have hbyte (s : Bytes) : Bytes.byteAt s 0 = s.head?.getD 0 := by cases s <;> rfl
  rw [startsComment_eq, startsComment_eq, hbyte, hbyte, h]

theorem head?_append_eq_of_ne_nil (hu : u ≠ []) : (u ++ r').head? = (u ++ r).head? := by
  cases u with
  | nil => exact absurd rfl hu
  | cons => rfl

/-- No comment begins in front of what may stand in the place of a text, if none does in front of the
text itself. -/
theorem BeginsAs.not_startsComment (h : BeginsAs r' r)
    (hc : startsComment (c :: (u ++ r)) = false) : startsComment (c :: (u ++ r')) = false := by
  cases u with
  | cons d u =>
      have hhead : (d :: u ++ r').head? = (d :: u ++ r).head? := rfl
      exact (startsComment_eq_of_head? hhead).trans hc
  | nil =>
      rcases h with rfl | ⟨hhead, -⟩
      · rw [List.nil_append, startsComment_eq]
        exact Bool.and_false _
      · rwa [List.nil_append, startsComment_eq_of_head? hhead]

theorem BeginsAs.append (h : BeginsAs r' r) (hu : u ≠ [])
    (hc : u.length = 1 → startsComment (u ++ r) = false) : BeginsAs (u ++ r') (u ++ r) := by
  refine .inr ⟨head?_append_eq_of_ne_nil hu, ?_⟩
  cases u with
  | nil => exact absurd rfl hu
  | cons c u =>
      cases u with
      | nil =>
          have hc := hc rfl
          rw [hc]
          exact h.not_startsComment (u := []) hc
      | cons => exact startsComment_eq_of_head? rfl

end Beginnings

/-! A scanner reads the same off a beginning of the text, whatever the rest is that it leaves: each of
these lemmas is about one scanner and gives the beginning that it takes. -/

section Scanners

variable {c o closing : UInt8} {e : Element} {b r r' s t u : Bytes}

private theorem cutBody_quote (s : Bytes) : cutBody (quote :: s) = ([], s) := by
  cases s <;> rfl

private theorem cutBody_break (hc : isLineBreak c = true) (s : Bytes) :
    cutBody (c :: s) = ([], c :: s) := by
  have hq : (c == quote) = false := beq_eq_false_iff_ne.mpr fun hq => by
    rw [hq] at hc
    cases hc
  cases s <;> simp [cutBody, bodyLength, hc, hq]

private theorem cutBody_byte (hc : ¬(isLineBreak c || c == quote) = true) (hcaret : c ≠ caret)
    (s : Bytes) :
    cutBody (c :: s) = (cutBody s).map (c :: ·) id := by
  have hlength : bodyLength (c :: s) = bodyLength s + 1 := by
    cases s with
    | nil => simp [bodyLength, hc]
    | cons d s => simp [bodyLength, hc, hcaret, Nat.add_comm]
  rw [cutBody, hlength, List.drop_succ_cons, List.take_succ_cons, cutBody]
  cases s.drop (bodyLength s) <;> rfl

private theorem cutBody_caret_break {d : UInt8} (hd : isLineBreak d = true) (s : Bytes) :
    cutBody (caret :: d :: s) = ([caret], d :: s) := by
  have hq : (d == quote) = false := beq_eq_false_iff_ne.mpr fun hq => by
    rw [hq] at hd
    cases hd
  have hlength : bodyLength (caret :: d :: s) = 1 := by
    rw [bodyLength, if_neg (by decide), if_pos (beq_self_eq_true _), if_pos hd]
  rw [cutBody, hlength]
  simp [hq]

private theorem cutBody_escape {d : UInt8} (hd : ¬isLineBreak d = true) (s : Bytes) :
    cutBody (caret :: d :: s) = (cutBody s).map (caret :: d :: ·) id := by
  have hlength : bodyLength (caret :: d :: s) = bodyLength s + 2 := by
    rw [bodyLength, if_neg (by decide), if_pos (beq_self_eq_true _), if_neg hd, Nat.add_comm]
  rw [cutBody, hlength]
  simp only [List.drop_succ_cons, List.take_succ_cons]
  rw [cutBody]
  cases s.drop (bodyLength s) <;> rfl

/-- A string is read alike whatever follows its closing quote, and if it is not closed, whatever
follows from the line break on. -/
theorem cutBody_cut (t : Bytes) : ∃ u, t = u ++ (cutBody t).2 ∧
    ∀ r', BeginsAs r' (cutBody t).2 → cutBody (u ++ r') = ((cutBody t).1, r') := by
  have hstop {c : UInt8} (hc : (isLineBreak c || c == quote) = true) (s : Bytes) :
      ∃ u, c :: s = u ++ (cutBody (c :: s)).2 ∧ ∀ r', BeginsAs r' (cutBody (c :: s)).2 →
        cutBody (u ++ r') = ((cutBody (c :: s)).1, r') := by
    rcases Bool.or_eq_true_iff.mp hc with hc | hc
    · rw [cutBody_break hc]
      refine ⟨[], rfl, fun r' hr => ?_⟩
      obtain rfl | ⟨_, _, t', ⟨⟩, rfl, -⟩ := hr.cases
      · rfl
      · exact cutBody_break hc t'
    · obtain rfl := beq_iff_eq.mp hc
      rw [cutBody_quote]
      exact ⟨[quote], rfl, fun r' _ => cutBody_quote r'⟩
  induction t using bodyLength.induct with
  | case1 =>
      refine ⟨[], rfl, fun r' hr => ?_⟩
      obtain rfl := hr.eq_nil
      rfl
  | case2 c hc => exact hstop hc []
  | case3 c hc =>
      have hcut : cutBody [c] = ([c], []) := by simp [cutBody, bodyLength, hc]
      rw [hcut]
      refine ⟨[c], rfl, fun r' hr => ?_⟩
      obtain rfl := hr.eq_nil
      exact hcut
  | case4 c d s hc => exact hstop hc (d :: s)
  | case5 c d s hc hcaret hd =>
      obtain rfl := beq_iff_eq.mp hcaret
      rw [cutBody_caret_break hd]
      refine ⟨[caret], rfl, fun r' hr => ?_⟩
      obtain rfl | ⟨_, _, t', ⟨⟩, rfl, -⟩ := hr.cases
      · rfl
      · exact cutBody_caret_break hd t'
  | case6 c d s hc hcaret hd ih =>
      obtain rfl := beq_iff_eq.mp hcaret
      obtain ⟨u, hu, hcut⟩ := ih
      rw [cutBody_escape hd]
      refine ⟨caret :: d :: u, congrArg (caret :: d :: ·) hu, fun r' hr => ?_⟩
      exact (cutBody_escape hd (u ++ r')).trans (congrArg (Prod.map _ id) (hcut r' hr))
  | case7 c d s hc hcaret ih =>
      obtain ⟨u, hu, hcut⟩ := ih
      have hcaret : c ≠ caret := fun h => hcaret (beq_iff_eq.mpr h)
      rw [cutBody_byte hc hcaret]
      refine ⟨c :: u, congrArg (c :: ·) hu, fun r' hr => ?_⟩
      exact (cutBody_byte hc hcaret (u ++ r')).trans (congrArg (Prod.map _ id) (hcut r' hr))

private theorem eq_closing_of_bracketStep {d : Nat} (h : bracketStep o closing d c = none) :
    c = closing := by
  unfold bracketStep at h
  split at h
  · cases h
  split at h
  next hc => exact beq_iff_eq.mp hc
  · cases h

/-- Brackets that are closed are read alike whatever follows them. -/
theorem cutBracketed_cut (hclosing : closing ≠ code '/') (d : Nat) (mode : ScanMode) (s : Bytes)
    (hr : (cutBracketed o closing d mode s).2 ≠ []) :
    ∃ u, u ≠ [] ∧ s = u ++ (cutBracketed o closing d mode s).2 ∧
      ∀ r', cutBracketed o closing d mode (u ++ r') = ((cutBracketed o closing d mode s).1, r') := by
  induction s generalizing d mode with
  | nil => exact absurd rfl hr
  | cons c s ih =>
      -- A byte that is kept is kept in front of any text, if it begins a comment in both or in neither.
      have hkept (d' : Nat) (mode' : ScanMode)
          (hstep : ∀ x, startsComment (c :: x) = startsComment (c :: s) →
            cutBracketed o closing d mode (c :: x) =
              (cutBracketed o closing d' mode' x).map (c :: ·) id) :
          ∃ u, u ≠ [] ∧ c :: s = u ++ (cutBracketed o closing d mode (c :: s)).2 ∧
            ∀ r', cutBracketed o closing d mode (u ++ r') =
              ((cutBracketed o closing d mode (c :: s)).1, r') := by
        rw [hstep s rfl] at hr ⊢
        obtain ⟨u, hu, hs, hcut⟩ := ih d' mode' hr
        refine ⟨c :: u, by simp, congrArg (c :: ·) hs, fun r' => ?_⟩
        have hcomment : startsComment (c :: (u ++ r')) = startsComment (c :: s) := by
          rw [hs]
          exact startsComment_eq_of_head? (head?_append_eq_of_ne_nil hu)
        exact (hstep (u ++ r') hcomment).trans (congrArg (Prod.map _ id) (hcut r'))
      cases mode with
      | quoted => exact hkept d _ fun x _ => rfl
      | escaped => exact hkept d _ fun x _ => rfl
      | comment => exact hkept d _ fun x _ => rfl
      | plain =>
          by_cases hq : c = quote
          · subst hq
            exact hkept d .quoted fun x _ => by rw [cutBracketed.eq_def]; rfl
          cases hcomment : startsComment (c :: s) with
          | true =>
              refine hkept d .comment fun x hx => ?_
              rw [cutBracketed.eq_def]
              simp only [beq_eq_false_iff_ne.mpr hq, hx, hcomment, Bool.false_eq_true, if_false, if_true]
              rfl
          | false =>
              cases hstep : bracketStep o closing d c with
              | some d' =>
                  refine hkept d' .plain fun x hx => ?_
                  rw [cutBracketed_cons o closing d hq (hx.trans hcomment), hstep]
                  rfl
              | none =>
                  have hc : c = closing := eq_closing_of_bracketStep hstep
                  have hcomment' (x : Bytes) : startsComment (c :: x) = false := by
                    rw [startsComment_eq, beq_eq_false_iff_ne.mpr (show c ≠ 0x2F from hc ▸ hclosing),
                      Bool.false_and]
                  have hend (x : Bytes) : cutBracketed o closing d .plain (c :: x) = ([], x) := by
                    rw [cutBracketed_cons o closing d hq (hcomment' x), hstep]
                  rw [hend]
                  exact ⟨[c], by simp, rfl, hend⟩

private theorem cutBracketed_cut_or_end (hclosing : closing ≠ code '/') (t : Bytes) :
    ∃ u, t = u ++ (cutBracketed o closing 0 .plain t).2 ∧
      ∀ r', BeginsAs r' (cutBracketed o closing 0 .plain t).2 →
        cutBracketed o closing 0 .plain (u ++ r') =
          ((cutBracketed o closing 0 .plain t).1, r') := by
  by_cases hr : (cutBracketed o closing 0 .plain t).2 = []
  · rw [hr]
    refine ⟨t, (List.append_nil t).symm, fun r' hr' => ?_⟩
    obtain rfl := hr'.eq_nil
    rw [List.append_nil, ← hr]
  · obtain ⟨u, -, ht, hcut⟩ := cutBracketed_cut hclosing 0 .plain t hr
    exact ⟨u, ht, fun r' _ => hcut r'⟩

private theorem wordLengthIn_le (closers s : Bytes) : wordLengthIn closers s ≤ s.length := by
  fun_induction wordLengthIn closers s <;> simp only [List.length_cons, List.length_nil] <;> omega

/-- A word is read alike if it ends in front of a byte that stays. -/
theorem wordLengthIn_cut {closers : Bytes} (h : wordLengthIn closers (u ++ r) = u.length)
    (hr : BeginsAs r' r) : wordLengthIn closers (u ++ r') = u.length := by
  -- Where a comment begins there is no word.
  have hnone {closers : Bytes} {c : UInt8} {s : Bytes} (hc : startsComment (c :: s) = true) :
      wordLengthIn closers (c :: s) = 0 := by
    rw [wordLengthIn, hc, Bool.or_true, if_pos rfl]
  induction u generalizing closers with
  | nil =>
      obtain rfl | ⟨c, t, t', rfl, rfl, hcomment⟩ := hr.cases
      · rfl
      cases hc : startsComment (c :: t) with
      | true => exact hnone (hcomment.trans hc)
      | false =>
          rw [List.nil_append, wordLengthIn_cons _ hc] at h
          rw [List.nil_append, wordLengthIn_cons _ (hcomment.trans hc)]
          cases hstep : wordStep closers c with
          | none => rfl
          | some closers' =>
              rw [hstep] at h
              exact absurd h (by simp)
  | cons c u ih =>
      rw [List.cons_append] at h ⊢
      cases hc : startsComment (c :: (u ++ r)) with
      | true =>
          rw [hnone hc] at h
          cases h
      | false =>
          rw [wordLengthIn_cons _ hc] at h
          rw [wordLengthIn_cons _ (hr.not_startsComment hc)]
          cases hstep : wordStep closers c with
          | none =>
              rw [hstep] at h
              cases h
          | some closers' =>
              rw [hstep] at h
              have h : 1 + wordLengthIn closers' (u ++ r) = u.length + 1 := h
              change 1 + wordLengthIn closers' (u ++ r') = u.length + 1
              rw [ih (by omega), Nat.add_comm]

theorem skipGap_eq_cons {comment : Bool} (h : skipGap comment s = c :: t) :
    isGap c = false ∧ startsComment (c :: t) = false := by
  fun_induction skipGap comment s with
  | case1 => cases h
  | case2 _ _ ih | case3 _ _ _ ih | case4 _ _ _ _ ih => exact ih h
  | case5 a s hgap hcomment =>
      cases h
      exact ⟨Bool.eq_false_iff.mpr hgap, Bool.eq_false_iff.mpr hcomment⟩

theorem skipGap_of_cons (hgap : isGap c = false) (hcomment : startsComment (c :: t) = false) :
    skipGap false (c :: t) = c :: t := by
  simp [skipGap, hgap, hcomment]

private theorem skipGap_skipGap (s : Bytes) :
    skipGap false (skipGap false s) = skipGap false s := by
  cases h : skipGap false s with
  | nil => rfl
  | cons c t => exact skipGap_of_cons (skipGap_eq_cons h).1 (skipGap_eq_cons h).2

private theorem length_skipGap (comment : Bool) (s : Bytes) :
    (skipGap comment s).length ≤ s.length := by
  fun_induction skipGap comment s <;> simp only [List.length_cons, List.length_nil] at * <;> omega

private theorem length_skipGap_lt (h : startsComment (c :: s) = true) :
    (skipGap true s).length < s.length := by
  cases s with
  | nil =>
      rw [startsComment_eq] at h
      exact absurd (Bool.and_eq_true_iff.mp h).2 (by decide)
  | cons d s => exact Nat.lt_succ_of_le (length_skipGap _ s)

/-- A gap in front of an element is passed over whatever the element is. -/
theorem skipGap_cut {comment : Bool} (ht : skipGap comment s ≠ []) :
    ∃ g, s = g ++ skipGap comment s ∧
      ∀ t', skipGap false t' = t' → skipGap comment (g ++ t') = t' := by
  fun_induction skipGap comment s with
  | case1 => exact absurd rfl ht
  | case2 c s ih =>
      obtain ⟨g, hs, hskip⟩ := ih ht
      exact ⟨c :: g, congrArg _ hs, hskip⟩
  | case3 c s hgap ih =>
      obtain ⟨g, hs, hskip⟩ := ih ht
      refine ⟨c :: g, congrArg _ hs, fun t' ht' => ?_⟩
      rw [List.cons_append, skipGap, if_pos hgap, hskip t' ht']
  | case4 c s hgap hcomment ih =>
      obtain ⟨g, hs, hskip⟩ := ih ht
      refine ⟨c :: g, congrArg _ hs, fun t' ht' => ?_⟩
      -- The comment goes on behind its first slash, so the gap does.
      have hg : g ≠ [] := by
        rintro rfl
        have hlt := length_skipGap_lt hcomment
        rw [List.nil_append] at hs
        rw [← hs] at hlt
        exact Nat.lt_irrefl _ hlt
      rw [hs, startsComment_eq_of_head? (head?_append_eq_of_ne_nil hg)] at hcomment
      rw [List.cons_append, skipGap, if_neg hgap, if_pos hcomment, hskip t' ht']
  | case5 c s hgap hcomment => exact ⟨[], rfl, fun t' ht' => ht'⟩

/-- An element that is a word, or a byte that is no word by itself, is read alike. -/
theorem word_cut (hs : startsComment (c :: t) = false) :
    ∃ u r, t = u ++ r ∧ max 1 (wordLength (c :: t)) = u.length + 1 ∧
      ∀ r', BeginsAs r' r → max 1 (wordLength (c :: (u ++ r'))) = u.length + 1 := by
  cases hn : wordLength (c :: t) with
  | zero =>
      refine ⟨[], t, rfl, rfl, fun r' hr => ?_⟩
      have hbegins : BeginsAs (c :: r') (c :: t) := hr.append (List.cons_ne_nil c []) fun _ => hs
      have hcut : wordLength (c :: r') = 0 := wordLengthIn_cut (u := []) hn hbegins
      rw [List.nil_append, hcut]
      rfl
  | succ n =>
      have hlength : (t.take n).length = n := by
        have hle : n + 1 ≤ (c :: t).length := hn.symm ▸ wordLengthIn_le [] (c :: t)
        exact List.length_take_of_le (Nat.le_of_succ_le_succ hle)
      have happend : t.take n ++ t.drop n = t := List.take_append_drop n t
      refine ⟨t.take n, t.drop n, happend.symm, ?_, fun r' hr => ?_⟩
      · rw [hlength, Nat.max_eq_right (Nat.succ_pos n)]
      · have hread : wordLength (c :: t.take n ++ t.drop n) = (c :: t.take n).length := by
          rw [List.cons_append, happend, hn, List.length_cons, hlength]
        have hcut : wordLength (c :: t.take n ++ r') = (c :: t.take n).length :=
          wordLengthIn_cut hread hr
        rw [← List.cons_append, hcut]
        exact Nat.max_eq_right (Nat.succ_pos _)

/-- An element without a gap in front of it is read alike whatever stands behind it in the place of
the rest. -/
theorem cutElement_cut (h : cutElement s = some (e, r)) (hs : startsComment s = false) :
    ∃ w, w ≠ [] ∧ s = w ++ r ∧ ∀ r', BeginsAs r' r → cutElement (w ++ r') = some (e, r') := by
  cases s with
  | nil => cases h
  | cons c t =>
      simp only [cutElement] at h ⊢
      split at h
      next hq =>
        obtain ⟨u, ht, hcut⟩ := cutBody_cut t
        cases h
        refine ⟨c :: u, by simp, congrArg _ ht, fun r' hr => ?_⟩
        simp only [List.cons_append, if_pos hq, hcut r' hr]
      next hq =>
        split at h
        next ho =>
          obtain ⟨u, ht, hcut⟩ := @cutBracketed_cut_or_end c (code ')') (by decide) t
          cases h
          refine ⟨c :: u, by simp, congrArg _ ht, fun r' hr => ?_⟩
          simp only [List.cons_append, if_neg hq, if_pos ho, hcut r' hr]
        next ho =>
          split at h
          next ho' =>
            obtain ⟨u, ht, hcut⟩ := @cutBracketed_cut_or_end c (code ']') (by decide) t
            cases h
            refine ⟨c :: u, by simp, congrArg _ ht, fun r' hr => ?_⟩
            simp only [List.cons_append, if_neg hq, if_neg ho, if_pos ho', hcut r' hr]
          next ho' =>
            obtain ⟨u, r, rfl, hword, hcut⟩ := word_cut hs
            rw [hword, List.take_succ_cons, List.drop_succ_cons, List.take_left, List.drop_left] at h
            cases h
            refine ⟨c :: u, by simp, rfl, fun r' hr => ?_⟩
            simp only [List.cons_append, if_neg hq, if_neg ho, if_neg ho', hcut r' hr,
              List.take_succ_cons, List.drop_succ_cons, List.take_left, List.drop_left]

/-- An element of a list is read alike if the rest of the list is cut somewhere behind it. -/
theorem nextElement_cut (h : nextElement s = some (e, r)) :
    ∃ v, v ≠ [] ∧ s = v ++ r ∧
      ∀ r', BeginsAs r' r → nextElement (v ++ r') = some (e, r') ∧ BeginsAs (v ++ r') s := by
  have hgap : skipGap false s ≠ [] := fun hgap => by
    rw [nextElement, hgap] at h
    cases h
  obtain ⟨g, hs, hskip⟩ := skipGap_cut hgap
  obtain ⟨c, t, ht⟩ := List.exists_cons_of_ne_nil hgap
  obtain ⟨hc, hcomment⟩ := skipGap_eq_cons ht
  rw [nextElement, ht] at h
  obtain ⟨w, hw, hwr, hcut⟩ := cutElement_cut h hcomment
  obtain ⟨a, w, rfl⟩ := List.exists_cons_of_ne_nil hw
  obtain ⟨rfl, rfl⟩ := List.cons.inj hwr
  have hs : s = (g ++ c :: w) ++ r := by rw [hs, ht, List.append_assoc]; rfl
  refine ⟨g ++ c :: w, by simp, hs, fun r' hr => ⟨?_, ?_⟩⟩
  · have hstay : skipGap false (c :: w ++ r') = c :: w ++ r' :=
      skipGap_of_cons hc (hr.not_startsComment hcomment)
    rw [List.append_assoc, nextElement, hskip _ hstay]
    exact hcut r' hr
  · rw [hs]
    refine hr.append (by simp) fun hlength => ?_
    obtain ⟨rfl, rfl⟩ : g = [] ∧ w = [] := by
      rw [List.length_append, List.length_cons] at hlength
      exact ⟨List.eq_nil_of_length_eq_zero (by omega), List.eq_nil_of_length_eq_zero (by omega)⟩
    exact hcomment

end Scanners

/-! The elements of a list, one after the other. -/

section Lists

variable {e : Element} {n : Nat} {r s t : Bytes}

theorem length_nextElement (h : nextElement s = some (e, r)) : r.length < s.length := by
  obtain ⟨v, hv, rfl, -⟩ := nextElement_cut h
  rw [List.length_append]
  exact Nat.lt_add_of_pos_left (List.length_pos_iff.mpr hv)

private theorem elementsFrom_enough (h : s.length ≤ n) : elementsFrom n s = elements s := by
  have hboth {n n' : Nat} {s : Bytes} (h : s.length ≤ n) (h' : s.length ≤ n') :
      elementsFrom n s = elementsFrom n' s := by
    induction n generalizing n' s with
    | zero =>
        cases List.eq_nil_of_length_eq_zero (Nat.le_zero.mp h)
        cases n' <;> rfl
    | succ n ih =>
        cases n' with
        | zero =>
            cases List.eq_nil_of_length_eq_zero (Nat.le_zero.mp h')
            rfl
        | succ n' =>
            rw [elementsFrom, elementsFrom]
            cases hnext : nextElement s with
            | none => rfl
            | some found =>
                have hlt := length_nextElement hnext
                exact congrArg _ (ih (by omega) (by omega))
  exact hboth h (Nat.le_refl _)

theorem elements_of_none (h : nextElement s = none) : elements s = [] := by
  cases s with
  | nil => rfl
  | cons c s => rw [elements, List.length_cons, elementsFrom, h]

theorem elements_of_some (h : nextElement s = some (e, r)) : elements s = e :: elements r := by
  have hlt := length_nextElement h
  obtain ⟨n, hn⟩ : ∃ n, s.length = n + 1 := ⟨s.length - 1, by omega⟩
  rw [elements, hn, elementsFrom, h, ← elementsFrom_enough (show r.length ≤ n by omega)]

theorem nextElement_skipGap (s : Bytes) : nextElement (skipGap false s) = nextElement s := by
  rw [nextElement, skipGap_skipGap, nextElement]

theorem elements_skipGap (s : Bytes) : elements (skipGap false s) = elements s := by
  have hgap := nextElement_skipGap s
  cases hnext : nextElement s with
  | none => rw [elements_of_none (hgap.trans hnext), elements_of_none hnext]
  | some found => rw [elements_of_some (hgap.trans hnext), elements_of_some hnext]

private theorem nextElement_eq_head? (s : Bytes) :
    (nextElement s).map Prod.fst = (elements s).head? := by
  cases hnext : nextElement s with
  | none =>
      rw [elements_of_none hnext]
      rfl
  | some found =>
      rw [elements_of_some hnext]
      rfl

private theorem length_elements (s : Bytes) : (elements s).length ≤ s.length := by
  have hfuel (n : Nat) (s : Bytes) : (elementsFrom n s).length ≤ n := by
    induction n generalizing s with
    | zero => exact Nat.le_refl 0
    | succ n ih =>
        rw [elementsFrom]
        cases nextElement s with
        | none => exact Nat.zero_le _
        | some found => exact Nat.succ_le_succ (ih found.2)
  exact hfuel s.length s

/-- What is left behind the elements that are dropped holds the others; it is not there only if none of
them is. -/
theorem elements_dropElements (n : Nat) (s : Bytes) :
    (dropElements n s).elim [] elements = (elements s).drop n := by
  induction n generalizing s with
  | zero => rfl
  | succ n ih =>
      rw [dropElements]
      cases hnext : nextElement s with
      | none =>
          rw [elements_of_none hnext]
          rfl
      | some found =>
          rw [elements_of_some hnext, List.drop_succ_cons]
          exact ih found.2

/-- The text of the first elements of a list holds these elements, and it begins as the list does. -/
theorem passElements_cut (n : Nat) (s : Bytes) :
    ∃ v, s = v ++ passElements n s ∧ elements v = (elements s).take n ∧ BeginsAs v s := by
  induction n generalizing s with
  | zero => exact ⟨[], rfl, rfl, .inl rfl⟩
  | succ n ih =>
      rw [passElements]
      cases hnext : nextElement s with
      | none =>
          rw [elements_of_none hnext]
          exact ⟨[], rfl, rfl, .inl rfl⟩
      | some found =>
          obtain ⟨e, r⟩ := found
          obtain ⟨v, hr, hv, hbegins⟩ := ih r
          obtain ⟨w, -, hs, hcut⟩ := nextElement_cut hnext
          obtain ⟨hnext', hbegins'⟩ := hcut v hbegins
          refine ⟨w ++ v, ?_, ?_, hbegins'⟩
          · rw [List.append_assoc, ← hr, ← hs]
          · rw [elements_of_some hnext, elements_of_some hnext', hv, List.take_succ_cons]

theorem nextElement_dropElements (n : Nat) (s : Bytes) :
    ((dropElements n s).bind nextElement).map Prod.fst = (elements s)[n]? := by
  rw [← List.head?_drop, ← elements_dropElements]
  cases dropElements n s with
  | none => rfl
  | some t => exact nextElement_eq_head? t

/-- The text from the first element of a list to the end of another one holds the elements up to that
one. -/
theorem elements_front {found : Element × Bytes} (n : Nat) (hnext : nextElement t = some found) :
    elements ((skipGap false t).take
      ((skipGap false t).length - (passElements (n + 1) t).length)) = (elements t).take (n + 1) := by
  have hpass : passElements (n + 1) (skipGap false t) = passElements (n + 1) t := by
    rw [passElements, passElements, nextElement_skipGap, hnext]
  obtain ⟨v, hcut, hv, -⟩ := passElements_cut (n + 1) (skipGap false t)
  rw [hpass] at hcut
  rw [elements_skipGap] at hv
  generalize passElements (n + 1) t = rest at hcut
  rw [← hv, hcut, List.length_append, Nat.add_sub_cancel, List.take_left]

/-- A part of a list holds the elements of the list that were asked for. -/
theorem elements_sublist (s : Bytes) (skip : Nat) (count : Option Nat) :
    elements (sublist s skip count) =
      count.elim ((elements s).drop skip) ((elements s).drop skip).take := by
  have hdrop := elements_dropElements skip s
  unfold sublist
  cases ht : dropElements skip s with
  | none =>
      rw [ht] at hdrop
      rw [← hdrop]
      cases count with
      | none => rfl
      | some n => exact List.take_nil.symm
  | some t =>
      rw [ht] at hdrop
      rw [← hdrop]
      -- No more elements are asked for than there are if all of them are.
      have hcount : (elements t).take (count.getD t.length) =
          count.elim (elements t) (elements t).take := by
        cases count with
        | none => exact List.take_of_length_le (length_elements t)
        | some n => rfl
      refine Eq.trans ?_ hcount
      dsimp only
      generalize count.getD t.length = n
      cases n with
      | zero => rfl
      | succ n =>
          cases hnext : nextElement t with
          | none =>
              rw [elements_of_none hnext]
              rfl
          | some found => exact elements_front n hnext

end Lists

end ConsoleScript.Syntax
