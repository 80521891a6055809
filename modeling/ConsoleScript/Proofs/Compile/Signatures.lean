import Mathlib.Logic.Basic
import ConsoleScript.Proofs.Compile.Calls

/-!
The shape of accepted signatures. Letters with an argument each come first; behind them there may be
the number 1 as a last argument, or all arguments that are left, with repetitions before them. A
signature can also have letters with an argument behind a repetition; those that have none are
tight.
-/

namespace ConsoleScript.Signature

/-- No letter behind a repetition has an argument of its own. -/
def Tight (sig : Signature) : Prop :=
  sig.Pairwise fun l l' => (∃ n, l = .again n) → l'.isSlot = false

/-- The number of letters that the first repetition goes back over; zero if there is none. -/
def groupSize : Signature → Nat
  | [] => 0
  | .again n :: _ => n
  | _ :: sig => groupSize sig

/-- The signatures that are accepted behind a number of letters. -/
inductive Accepted : Nat → Signature → Prop
  | nil {seen : Nat} : Accepted seen []
  | plain {seen : Nat} {l : Letter} {sig : Signature} (hl : l.isPlain = true)
      (h : Accepted (seen + 1) sig) : Accepted seen (l :: sig)
  | last {seen : Nat} {l : Letter} (hl : l = .pressed ∨ l.takesAll = true) : Accepted seen [l]
  | again {seen n : Nat} {sig : Signature} (hpos : 0 < n) (hmax : n ≤ 4) (hseen : n ≤ seen)
      (hrest : sig.any Letter.takesAll = true) (h : Accepted (seen + 1) sig) :
      Accepted seen (.again n :: sig)

/-- A signature that is accepted and tight: its letters with an argument each, and what follows. -/
inductive Built : Signature → Prop
  | fixed {pre : Signature} (hp : ∀ l ∈ pre, l.isPlain = true) (hl : pre.length ≤ maxDeclared) :
      Built pre
  | pressed {pre : Signature} (hp : ∀ l ∈ pre, l.isPlain = true) (hl : pre.length < maxDeclared) :
      Built (pre ++ [.pressed])
  | rest {pre : Signature} {l : Letter} (hp : ∀ l ∈ pre, l.isPlain = true)
      (hl : l.takesAll = true) : Built (pre ++ [l])
  | again {pre : Signature} {g : Nat} {ds : List Nat} {l : Letter}
      (hp : ∀ l ∈ pre, l.isPlain = true) (hpos : 0 < g) (hmax : g ≤ 4) (hg : g ≤ pre.length)
      (hl : l.takesAll = true) : Built (pre ++ .again g :: ds.map .again ++ [l])

variable {seen : Nat} {sig : Signature}

theorem ofByte?_again {c : UInt8} {n : Nat} (h : Letter.ofByte? c = some (.again n)) :
    0 < n ∧ n ≤ 4 := by
  unfold Letter.ofByte? at h
  iterate 16
    rcases ite_eq_iff.mp h with ⟨-, h⟩ | ⟨-, h⟩
    · cases h
  rcases ite_eq_iff.mp h with ⟨hc, h⟩ | ⟨-, h⟩
  · cases h
    simp only [Bool.and_eq_true, decide_eq_true_eq, UInt8.le_iff_toNat_le] at hc
    have hlow : (ConsoleScript.code '1').toNat = 49 := rfl
    have hhigh : (ConsoleScript.code '4').toNat = 52 := rfl
    omega
  · cases h

/-- A signature is read letter by letter. -/
theorem parseFrom_letter {c : UInt8} {s : Bytes} (h : parseFrom seen (c :: s) = .ok sig) :
    ∃ l rest, Letter.ofByte? c = some l ∧ sig = l :: rest ∧ parseFrom (seen + 1) s = .ok rest ∧
      (l = .pressed ∨ l.takesAll = true → s = []) ∧
      ∀ n, l = .again n →
        n ≤ seen ∧ s.any (fun c => (Letter.ofByte? c).any Letter.takesAll) = true := by
  unfold parseFrom at h
  cases hl : Letter.ofByte? c with
  | none =>
      rw [hl] at h
      cases h
  | some l =>
      rw [hl] at h
      cases hrest : parseFrom (seen + 1) s with
      | error e =>
          rw [hrest] at h
          cases l <;> simp [bind, Except.bind] at h <;> split at h <;> cases h
      | ok rest =>
          rw [hrest] at h
          refine ⟨l, rest, rfl, ?_⟩
          cases l <;> simp [bind, Except.bind, pure, Except.pure] at h <;> (try split at h) <;>
            simp_all [Letter.takesAll]

private theorem any_takesAll_of_parseFrom {s : Bytes} (h : parseFrom seen s = .ok sig) :
    sig.any Letter.takesAll = s.any fun c => (Letter.ofByte? c).any Letter.takesAll := by
  induction s generalizing seen sig with
  | nil =>
      cases h
      rfl
  | cons c s ih =>
      obtain ⟨l, rest, hc, rfl, hrest, -⟩ := parseFrom_letter h
      rw [List.any_cons, List.any_cons, ih hrest, hc]
      rfl

theorem accepted_of_parseFrom {s : Bytes} (h : parseFrom seen s = .ok sig) : Accepted seen sig := by
  induction s generalizing seen sig with
  | nil =>
      cases h
      exact .nil
  | cons c s ih =>
      obtain ⟨l, rest, hc, rfl, hrest, hlast, hagain⟩ := parseFrom_letter h
      by_cases hl : l = .pressed ∨ l.takesAll = true
      · rw [hlast hl] at hrest
        cases hrest
        exact .last hl
      · cases l with
        | again n =>
            obtain ⟨hpos, hmax⟩ := ofByte?_again hc
            obtain ⟨hseen, hany⟩ := hagain n rfl
            exact .again hpos hmax hseen ((any_takesAll_of_parseFrom hrest).trans hany) (ih hrest)
        | pressed => exact absurd (.inl rfl) hl
        | joined | all => exact absurd (.inr rfl) hl
        | _ => exact .plain rfl (ih hrest)

/-- Behind a repetition a tight signature has repetitions only, and the letter that takes all
arguments. -/
theorem Accepted.behind (h : Accepted seen sig) (hslot : ∀ l ∈ sig, l.isSlot = false)
    (hall : sig.any Letter.takesAll = true) :
    ∃ (ds : List Nat) (l : Letter), l.takesAll = true ∧ sig = ds.map .again ++ [l] := by
  induction h with
  | nil => cases hall
  | @plain seen l sig hl h ih =>
      have := hslot l List.mem_cons_self
      simp [Letter.isPlain, this] at hl
  | @last seen l hl =>
      refine ⟨[], l, ?_, rfl⟩
      rcases hl with rfl | hl
      · cases hslot _ List.mem_cons_self
      · exact hl
  | @again seen n sig _ _ _ hrest h ih =>
      obtain ⟨ds, l, hl, rfl⟩ := ih (fun l hl => hslot l (List.mem_cons_of_mem _ hl)) hrest
      exact ⟨n :: ds, l, hl, rfl⟩

/-- A tight signature has its letters with an argument each first. -/
theorem Accepted.split (h : Accepted seen sig) (ht : sig.Tight) :
    ∃ pre tail, sig = pre ++ tail ∧ (∀ l ∈ pre, l.isPlain = true) ∧
      (tail = [] ∨ tail = [.pressed] ∨ (∃ l, Letter.takesAll l = true ∧ tail = [l]) ∨
        ∃ g ds l, Letter.takesAll l = true ∧ 0 < g ∧ g ≤ 4 ∧ g ≤ seen + pre.length ∧
          tail = .again g :: List.map .again ds ++ [l]) := by
  induction h with
  | nil => exact ⟨[], [], rfl, nofun, .inl rfl⟩
  | @last seen l hl =>
      refine ⟨[], [l], rfl, nofun, ?_⟩
      rcases hl with rfl | hl
      · exact .inr (.inl rfl)
      · exact .inr (.inr (.inl ⟨l, hl, rfl⟩))
  | @plain seen l sig hl h ih =>
      obtain ⟨pre, tail, rfl, hp, htail⟩ := ih (List.pairwise_cons.mp ht).2
      refine ⟨l :: pre, tail, rfl, List.forall_mem_cons.mpr ⟨hl, hp⟩, ?_⟩
      rw [List.length_cons, Nat.add_comm pre.length, ← Nat.add_assoc]
      exact htail
  | @again seen n sig hpos hmax hseen hrest h ih =>
      obtain ⟨ds, l, hl, rfl⟩ := h.behind
        (fun l hl => (List.pairwise_cons.mp ht).1 l hl ⟨n, rfl⟩) hrest
      exact ⟨[], _, rfl, nofun, .inr (.inr (.inr ⟨n, ds, l, hl, hpos, hmax, hseen, rfl⟩))⟩

/-- An accepted signature has an argument for every letter, or a last letter that takes all arguments;
in front of that there may be repetitions. -/
theorem Accepted.ends (h : Accepted seen sig) :
    (∃ pre : Signature, (∀ l ∈ pre, l.isPlain = true) ∧ (sig = pre ∨ sig = pre ++ [.pressed])) ∨
      ∃ (pre : Signature) (l : Letter), sig = pre ++ [l] ∧ l.takesAll = true ∧
        ∀ l ∈ pre, l.isPlain = true ∨ ∃ n, l = .again n := by
  induction h with
  | nil => exact .inl ⟨[], by simp, .inl rfl⟩
  | @plain seen l sig hl _ ih =>
      rcases ih with ⟨pre, hp, h⟩ | ⟨pre, l', rfl, hl', hp⟩
      · refine .inl ⟨l :: pre, List.forall_mem_cons.mpr ⟨hl, hp⟩, ?_⟩
        rcases h with rfl | rfl
        · exact .inl rfl
        · exact .inr rfl
      · exact .inr ⟨l :: pre, l', rfl, hl', List.forall_mem_cons.mpr ⟨.inl hl, hp⟩⟩
  | @last seen l hl =>
      rcases hl with rfl | hl
      · exact .inl ⟨[], by simp, .inr rfl⟩
      · exact .inr ⟨[], l, rfl, hl, by simp⟩
  | @again seen n sig _ _ _ hrest _ ih =>
      rcases ih with ⟨pre, hp, h⟩ | ⟨pre, l', rfl, hl', hp⟩
      · -- There is no letter that takes all arguments, and so nothing is repeated.
        have hnone (l : Letter) (hl : l ∈ sig) : l.takesAll = false := by
          rcases h with rfl | rfl
          · have := hp l hl
            cases l <;> first | rfl | cases this
          · rcases List.mem_append.mp hl with hl | hl
            · have := hp l hl
              cases l <;> first | rfl | cases this
            · rw [List.mem_singleton.mp hl]
              rfl
        obtain ⟨l, hl, hall⟩ := List.any_eq_true.mp hrest
        rw [hnone l hl] at hall
        cases hall
      · exact .inr ⟨.again n :: pre, l', rfl, hl', List.forall_mem_cons.mpr ⟨.inr ⟨n, rfl⟩, hp⟩⟩

private theorem takesAll_of_isPlain {pre : Signature} (hp : ∀ l ∈ pre, l.isPlain = true) :
    pre.any Letter.takesAll = false := by
  rw [List.any_eq_false]
  intro l hl
  have := hp l hl
  cases l <;> simp_all [Letter.isPlain, Letter.isSlot, Letter.takesAll]

/-- An accepted text is read letter by letter; only in front of a letter that takes all arguments
there may be any number of letters. -/
theorem parseFrom_of_parse {text : Bytes} (h : parse text = .ok sig) : parseFrom 0 text = .ok sig ∧
    (sig.any Letter.takesAll = false → slots sig ≤ maxDeclared) := by
  unfold parse at h
  cases hs : parseFrom 0 text with
  | error e =>
      rw [hs] at h
      cases h
  | ok sig' =>
      rw [hs] at h
      simp only [bind, Except.bind] at h
      split at h
      · cases h
      next hmany =>
        cases h
        refine ⟨rfl, fun hall => ?_⟩
        rw [hall] at hmany
        simpa using hmany

theorem accepted_of_parse {text : Bytes} (h : parse text = .ok sig) : sig.Accepted 0 :=
  accepted_of_parseFrom (parseFrom_of_parse h).1

/-- An accepted tight signature is built of parts. -/
theorem built_of_parse {s : Bytes} (h : parse s = .ok sig) (ht : sig.Tight) : sig.Built := by
  obtain ⟨hparse, hlen⟩ := parseFrom_of_parse h
  obtain ⟨pre, tail, rfl, hp, rfl | rfl | ⟨l, hl, rfl⟩ | ⟨g, ds, l, hl, hpos, hmax, hg, rfl⟩⟩ :=
    (accepted_of_parseFrom hparse).split ht
  · rw [List.append_nil] at hlen ⊢
    exact .fixed hp (Compile.slots_of_plain hp ▸ hlen (takesAll_of_isPlain hp))
  · have hslots : slots (pre ++ [.pressed]) = pre.length + 1 := by
      rw [slots, List.countP_append, ← slots, Compile.slots_of_plain hp]
      rfl
    have hall : (pre ++ [Letter.pressed]).any Letter.takesAll = false := by
      rw [List.any_append, takesAll_of_isPlain hp]
      rfl
    have hle := hlen hall
    rw [hslots] at hle
    exact .pressed hp hle
  · exact .rest hp hl
  · rw [Nat.zero_add] at hg
    exact List.append_assoc .. ▸ .again hp hpos hmax hg hl

section Places

/-- Letters in front of others have their places, the first of them and those behind it. -/
theorem front_cons {sig : Array Letter} {at' : Nat} {l : Letter} {ls : List Letter}
    (h : l :: ls <+: sig.toList.drop at') :
    sig[at']? = some l ∧ ls <+: sig.toList.drop (at' + 1) := by
  obtain ⟨rest, hrest⟩ := h
  constructor
  · rw [← Array.getElem?_toList, ← List.head?_drop, ← hrest]
    rfl
  · refine ⟨rest, ?_⟩
    rw [← List.drop_drop, ← hrest]
    rfl

/-- Where a signature repeats its last letters: the first repetition, the letters that it goes back
over, the repetitions behind it, and the letter that takes what is left. -/
theorem again_places (pre : Signature) (g : Nat) (ds : List Nat) (l : Letter) {sig : Array Letter}
    (hsig : (pre ++ Letter.again g :: ds.map .again ++ [l]).toArray = sig) :
    sig[pre.length]? = some (Letter.again g) ∧
      pre.drop (pre.length - g) <+: sig.toList.drop (pre.length - g) ∧
      ds.map Letter.again <+: sig.toList.drop (pre.length + 1) ∧
      sig[pre.length + 1 + ds.length]? = some l := by
  subst hsig
  have hpre : pre ++ Letter.again g :: ds.map .again ++ [l] =
      pre ++ (Letter.again g :: ds.map .again ++ [l]) := List.append_assoc ..
  refine ⟨by simp, ⟨Letter.again g :: ds.map .again ++ [l], ?_⟩, ⟨[l], by simp⟩, ?_⟩
  · rw [hpre, List.drop_append_of_le_length (Nat.sub_le ..)]
  · have hat : pre.length + 1 + ds.length = (pre ++ Letter.again g :: ds.map .again).length := by
      simp [Nat.add_comm, Nat.add_left_comm]
    rw [hat, List.getElem?_toArray, List.getElem?_concat_length]

end Places

section Repetitions

/-- A bound on the letters that a call still takes, from a position and with so many arguments left:
it goes back only while arguments are left, and every letter that it goes back to takes one. -/
def lettersLeft (letters at' args : Nat) : Nat :=
  if args = 0 then letters + 1 - at' else args * (letters + 2) + at' + 1

/-- A letter in front of which there are as many letters as it repeats. -/
theorem Accepted.again_le {seen n at' : Nat} {sig : Signature} (h : Accepted seen sig)
    (hl : sig[at']? = some (.again n)) : 0 < n ∧ n ≤ seen + at' := by
  induction h generalizing at' with
  | nil => cases hl
  | plain hp _ ih =>
      cases at' with
      | zero =>
          cases hl
          cases hp
      | succ at' =>
          have := ih hl
          omega
  | last hlast =>
      cases at' with
      | zero =>
          cases hl
          rcases hlast with h | h <;> cases h
      | succ at' => cases hl
  | again hpos _ hseen _ _ ih =>
      cases at' with
      | zero =>
          cases hl
          exact ⟨hpos, by omega⟩
      | succ at' =>
          have := ih hl
          omega

section

variable {letters at' n : Nat} (args : Nat)

theorem lettersLeft_next (h : at' < letters) :
    lettersLeft letters (at' + 1) (args - 1) < lettersLeft letters at' args := by
  unfold lettersLeft
  cases args with
  | zero =>
      simp only [Nat.zero_sub, if_true]
      omega
  | succ args =>
      rw [if_neg (Nat.succ_ne_zero args), Nat.add_sub_cancel, Nat.succ_mul]
      split <;> omega

theorem lettersLeft_back (hargs : args ≠ 0) (hn : 0 < n) (hle : n ≤ at') :
    lettersLeft letters (at' - n) args < lettersLeft letters at' args := by
  unfold lettersLeft
  rw [if_neg hargs, if_neg hargs]
  omega

theorem lettersLeft_mono {args args' : Nat} (h : args' ≤ args) :
    lettersLeft letters at' args' ≤ lettersLeft letters at' args := by
  have hmul := Nat.mul_le_mul_right (letters + 2) h
  unfold lettersLeft
  split <;> split <;> first | omega | skip
  have : letters + 2 ≤ args * (letters + 2) := Nat.le_mul_of_pos_left _ (by omega)
  omega

theorem lettersLeft_pos (h : at' < letters) : 0 < lettersLeft letters at' args := by
  unfold lettersLeft
  split <;> omega

end

end Repetitions

end ConsoleScript.Signature
