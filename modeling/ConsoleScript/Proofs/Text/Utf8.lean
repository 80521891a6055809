import ConsoleScript.Syntax.Words
import ConsoleScript.Text.Utf8

/-!
Texts of well-formed UTF-8, as they are built from the front: of ASCII bytes, and of the encodings of
other code points, in which no byte is ASCII. So a text can be cut before every ASCII byte, and both
parts are well formed; what looks for ASCII marks only, as the reading of words and strings does, never
cuts a code point.
-/

namespace ConsoleScript

open Syntax

namespace Utf8

/-- An encoding of a code point beyond ASCII, which is read whatever follows it. -/
structure IsWide (u : Bytes) : Prop where
  nonempty : u ≠ []
  high : ∀ c ∈ u, 0x80 ≤ c
  reads : ∀ s, ∃ p, first? (u ++ s) = some (p, u.length)

/-- A text of well-formed encodings. -/
inductive IsText : Bytes → Prop
  | nil : IsText []
  | ascii {c : UInt8} {s : Bytes} (hc : c < 0x80) (hs : IsText s) : IsText (c :: s)
  | wide {u s : Bytes} (hu : IsWide u) (hs : IsText s) : IsText (u ++ s)

section Reading

variable {a b : UInt8} {s t u : Bytes} {p n : Nat}

private theorem high_of_tail? (h : tail? b = some n) : 0x80 ≤ b := by
  unfold tail? at h
  split at h
  next hb => exact of_decide_eq_true (Bool.and_eq_true_iff.mp hb).1
  · cases h

/-- The code point at the beginning of a text is an ASCII byte or has a wide encoding. -/
theorem ascii_or_wide (h : first? (a :: s) = some (p, n)) :
    a < 0x80 ∨ ∃ u t, a :: s = u ++ t ∧ IsWide u ∧ u.length = n := by
  by_cases ha : a < 0x80
  · exact .inl ha
  have hlead : 0x80 ≤ a := UInt8.not_lt.mp ha
  right
  by_cases h₂ : (0xC2 ≤ a && a ≤ 0xDF) = true
  · match s with
    | [] => simp [first?, ha, h₂] at h
    | b :: t =>
        simp only [first?, if_neg ha, if_pos h₂, List.head?_cons, Option.bind_eq_bind,
          Option.bind_some, Option.bind_eq_some_iff] at h
        obtain ⟨x, hb, hn⟩ := h
        cases hn
        refine ⟨[a, b], t, rfl, ⟨List.cons_ne_nil _ _, ?_, fun s => ?_⟩, rfl⟩
        · simpa using ⟨hlead, high_of_tail? hb⟩
        · simp [first?, ha, h₂, hb]
  by_cases h₃ : (0xE0 ≤ a && a ≤ 0xEF) = true
  · match s with
    | [] | [_] => simp [first?, ha, h₂, h₃] at h
    | b :: c :: t =>
        simp only [first?, if_neg ha, if_neg h₂, if_pos h₃, List.head?_cons, Option.bind_eq_bind,
          Option.bind_some, Option.bind_eq_some_iff, List.getElem?_cons_succ,
          List.getElem?_cons_zero] at h
        obtain ⟨x, hb, y, hc, h⟩ := h
        split at h
        next hp =>
          obtain ⟨hcode, rfl⟩ := Prod.mk.inj (Option.some.inj h)
          rw [hcode] at hp
          refine ⟨[a, b, c], t, rfl, ⟨List.cons_ne_nil _ _, ?_, fun s => ⟨p, ?_⟩⟩, rfl⟩
          · simpa using ⟨hlead, high_of_tail? hb, high_of_tail? hc⟩
          · simp only [first?, if_neg ha, if_neg h₂, if_pos h₃, List.cons_append, List.nil_append,
              List.head?_cons, Option.bind_eq_bind, Option.bind_some, List.getElem?_cons_succ,
              List.getElem?_cons_zero, hb, hc, hcode, if_pos hp]
            rfl
        · cases h
  by_cases h₄ : (0xF0 ≤ a && a ≤ 0xF4) = true
  · match s with
    | [] | [_] | [_, _] => simp [first?, ha, h₂, h₃, h₄] at h
    | b :: c :: d :: t =>
        simp only [first?, if_neg ha, if_neg h₂, if_neg h₃, if_pos h₄, List.head?_cons,
          Option.bind_eq_bind, Option.bind_some, Option.bind_eq_some_iff, List.getElem?_cons_succ,
          List.getElem?_cons_zero] at h
        obtain ⟨x, hb, y, hc, z, hd, h⟩ := h
        split at h
        next hp =>
          obtain ⟨hcode, rfl⟩ := Prod.mk.inj (Option.some.inj h)
          rw [hcode] at hp
          refine ⟨[a, b, c, d], t, rfl, ⟨List.cons_ne_nil _ _, ?_, fun s => ⟨p, ?_⟩⟩, rfl⟩
          · simpa using ⟨hlead, high_of_tail? hb, high_of_tail? hc, high_of_tail? hd⟩
          · simp only [first?, if_neg ha, if_neg h₂, if_neg h₃, if_pos h₄, List.cons_append,
              List.nil_append, List.head?_cons, Option.bind_eq_bind, Option.bind_some,
              List.getElem?_cons_succ, List.getElem?_cons_zero, hb, hc, hd, hcode, if_pos hp]
            rfl
        · cases h
  · simp [first?, ha, h₂, h₃, h₄] at h

private theorem runesFrom_append (u t : Bytes) : runesFrom u.length (u ++ t) = runesFrom 0 t := by
  induction u with
  | nil => rfl
  | cons c u ih => exact ih

theorem isValid_ascii (ha : a < 0x80) (s : Bytes) : isValid (a :: s) = isValid s := by
  simp [isValid, runes, runesFrom, first?, ha]

theorem IsWide.isValid (hu : IsWide u) (s : Bytes) : isValid (u ++ s) = isValid s := by
  obtain ⟨p, hp⟩ := hu.reads s
  obtain ⟨a, v, rfl⟩ := List.exists_cons_of_ne_nil hu.nonempty
  have hrest : runesFrom v.length (v ++ s) = runesFrom 0 s := runesFrom_append v s
  have hrunes : runes (a :: v ++ s) = .point p :: runes s := by
    change runesFrom 0 (a :: (v ++ s)) = _
    rw [runesFrom, show first? (a :: (v ++ s)) = some (p, v.length + 1) from hp]
    exact congrArg _ hrest
  unfold Utf8.isValid
  rw [hrunes]
  rfl

/-- The bytes of a text belong to well-formed encodings exactly if it is built of such. -/
theorem isValid_iff : isValid s = true ↔ IsText s := by
  constructor
  · intro h
    induction hn : s.length using Nat.strongRecOn generalizing s with
    | ind n ih =>
      subst hn
      match s with
      | [] => exact .nil
      | a :: s =>
          cases hfirst : first? (a :: s) with
          | none => simp [isValid, runes, runesFrom, hfirst] at h
          | some pn =>
              rcases ascii_or_wide hfirst with ha | ⟨u, t, hs, hu, -⟩
              · rw [isValid_ascii ha] at h
                exact .ascii ha (ih _ (Nat.lt_succ_self _) h rfl)
              · rw [hs, hu.isValid] at h
                rw [hs] at ih ⊢
                refine .wide hu (ih _ ?_ h rfl)
                have := List.length_pos_iff.mpr hu.nonempty
                simp
                omega
  · intro h
    induction h with
    | nil => rfl
    | ascii hc _ ih => rw [isValid_ascii hc, ih]
    | wide hu _ ih => rw [hu.isValid, ih]

end Reading

section Cutting

variable {a b u s : Bytes} {c : UInt8}

/-- A text has nothing behind it, or an ASCII byte. -/
def AtMark (s : Bytes) : Prop := ∀ c ∈ s.head?, c < 0x80

namespace IsText

theorem of_ascii_cons (hc : c < 0x80) (h : IsText (c :: s)) : IsText s := by
  rwa [← isValid_iff, isValid_ascii hc, isValid_iff] at h

theorem of_ascii : ∀ {a : Bytes}, (∀ c ∈ a, c < 0x80) → IsText a
  | [], _ => .nil
  | _ :: _, h => .ascii (h _ List.mem_cons_self) (of_ascii fun c hc => h c (List.mem_cons_of_mem _ hc))

theorem behind_ascii (h : IsText (a ++ s)) (ha : ∀ c ∈ a, c < 0x80) : IsText s := by
  induction a with
  | nil => exact h
  | cons c a ih =>
      exact ih (h.of_ascii_cons (ha c List.mem_cons_self)) fun d hd => ha d (List.mem_cons_of_mem c hd)

/-- A text is cut before a mark into two texts. -/
theorem cut (h : IsText (a ++ b)) (hb : AtMark b) : IsText a ∧ IsText b := by
  generalize hs : a ++ b = s at h
  induction h generalizing a with
  | nil =>
      obtain ⟨rfl, rfl⟩ := List.append_eq_nil_iff.mp hs
      exact ⟨.nil, .nil⟩
  | @ascii c s hc h ih =>
      match a with
      | [] =>
          cases hs
          exact ⟨.nil, .ascii hc h⟩
      | d :: a =>
          cases hs
          exact ⟨.ascii hc (ih rfl).1, (ih rfl).2⟩
  | @wide u s hu h ih =>
      rcases List.append_eq_append_iff.mp hs with ⟨x, rfl, rfl⟩ | ⟨x, rfl, rfl⟩
      · match x with
        | [] =>
            rw [List.append_nil] at hu
            have ha := IsText.wide hu .nil
            rw [List.append_nil] at ha
            exact ⟨ha, h⟩
        | c :: x =>
            -- the cut would be inside of an encoding
            have hhigh := hu.high c (by simp)
            exact absurd (hb c rfl) (UInt8.not_lt.mpr hhigh)
      · exact ⟨.wide hu (ih rfl).1, (ih rfl).2⟩

end IsText

theorem AtMark.of_cons (hc : c < 0x80) (s : Bytes) : AtMark (c :: s) := by
  intro d hd
  cases hd
  exact hc

theorem atMark_nil : AtMark [] := nofun

theorem atMark_dropWhile {p : UInt8 → Bool} (hp : ∀ c, p c = true → c < 0x80) (s : Bytes) :
    AtMark (s.dropWhile (!p ·)) := by
  intro c hc
  have hmark := List.head?_dropWhile_not (!p ·) s
  rw [hc] at hmark
  exact hp c (by simpa using hmark)

private theorem ascii_of_isLineBreak (h : isLineBreak c = true) : c < 0x80 := by
  simp only [isLineBreak, Bool.or_eq_true, beq_iff_eq] at h
  rcases h with rfl | rfl <;> decide

private theorem ascii_of_endsWord (h : endsWord c = true) : c < 0x80 := by
  simp only [endsWord, isGap, Bool.or_eq_true, beq_iff_eq] at h
  rcases h with (rfl | rfl) | ((rfl | rfl) | rfl) | rfl <;> decide

/-- Behind a word stands a mark. -/
theorem atMark_word (closers s : Bytes) : AtMark (s.drop (wordLengthIn closers s)) := by
  fun_induction wordLengthIn closers s with
  | case1 => exact atMark_nil
  | case2 closers c s hend =>
      rcases Bool.or_eq_true_iff.mp hend with hend | hcomment
      · exact .of_cons (ascii_of_endsWord hend) s
      · unfold startsComment at hcomment
        split at hcomment
        next heq =>
          rw [List.drop_zero, heq]
          exact .of_cons (by decide) _
        · cases hcomment
  | case5 closers c s hend hsquare hround hclosing hnone =>
      apply AtMark.of_cons
      simp only [Bool.or_eq_true, beq_iff_eq] at hclosing
      rcases hclosing with rfl | rfl <;> decide
  | _ => rwa [Nat.add_comm, List.drop_succ_cons]

/-- Behind the body of a string stands a mark. -/
theorem atMark_body (s : Bytes) : AtMark (s.drop (bodyLength s)) := by
  have hends {c : UInt8} {s : Bytes} (h : (isLineBreak c || c == quote) = true) : AtMark (c :: s) := by
    apply AtMark.of_cons
    rcases Bool.or_eq_true_iff.mp h with hbreak | hquote
    · exact ascii_of_isLineBreak hbreak
    · rw [beq_iff_eq.mp hquote]
      decide
  fun_induction bodyLength s with
  | case1 | case3 => exact atMark_nil
  | case2 c h | case4 c d s h => exact hends h
  | case5 c d s h hcaret hbreak => exact .of_cons (ascii_of_isLineBreak hbreak) s
  | case6 c d s h hcaret hbreak ih => rwa [Nat.add_comm]
  | case7 c d s h hcaret ih => rwa [Nat.add_comm, List.drop_succ_cons]

end Cutting

end Utf8

end ConsoleScript
