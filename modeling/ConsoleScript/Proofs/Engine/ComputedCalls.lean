import ConsoleScript.Proofs.Engine.CommandCalls

/-!
Arguments of calls through computed names. Such a call passes its words as texts, and the letters of
the signature shape them one after another. They give what the operands of a compiled call with the
same words stand for, except in three situations: a letter that has no word of its own, but takes
the place of one, stands before letters that have one; a text at the end of a signature is left with
several words; the last round of a repetition is not filled.
-/

namespace ConsoleScript

open Bytecode Engine Compile

def Letter.takesWord : Letter → Bool
  | .self | .count | .pressed | .again _ => false
  | _ => true

namespace Signature

/-- The number of letters that take a word. -/
def words (sig : Signature) : Nat := sig.countP Letter.takesWord

/-- Letters without a word of their own come before letters with one only where no word is left. -/
def Aligned : Signature → (given : Nat) → Prop
  | [], _ => True
  | l :: sig, n =>
      (l = .self ∨ l = .count → n = 0 ∨ ∀ l' ∈ sig, l'.takesWord = false) ∧
        Aligned sig (if l.takesWord then n - 1 else n)

instance decidableAligned : (sig : Signature) → (n : Nat) → Decidable (sig.Aligned n)
  | [], _ => isTrue trivial
  | l :: sig, n =>
      have := decidableAligned sig (if l.takesWord then n - 1 else n)
      inferInstanceAs (Decidable (_ ∧ _))

/-- So many words are the same arguments to a call that is compiled and to one through a computed
name. -/
structure Agrees (sig : Signature) (n : Nat) : Prop where
  aligned : sig.Aligned n
  /-- A text at the end is left with one word at most. -/
  joined : ∀ pre, sig = pre ++ [.text] → n ≤ words pre + 1
  /-- The rounds of a repetition are filled, by letters that take words, unless there are too few
  words to begin one. -/
  rounds : ∀ pre g tail, sig = pre ++ .again g :: tail → (∀ l ∈ pre, l.isPlain = true) →
    n < words pre ∨ g ∣ n - words pre ∧ ∀ l ∈ pre.drop (pre.length - g), l.takesWord = true

end Signature

section Words

variable {self : Nat} {tk : Taken} {l : Letter} {ls : List Letter}

/-- A plain letter takes a word unless it stands for the command or the number of its arguments. -/
theorem Letter.takesWord_eq (hl : l.isPlain = true) :
    l.takesWord = true ∧ l ≠ .self ∧ l ≠ .count ∨ l.takesWord = false ∧ (l = .self ∨ l = .count) := by
  cases l with
  | self => exact .inr ⟨rfl, .inl rfl⟩
  | count => exact .inr ⟨rfl, .inr rfl⟩
  | pressed | joined | all | again => cases hl
  | _ => exact .inl ⟨rfl, by decide, by decide⟩

/-- The next word is the operand of a letter that takes one, also where the letter is a text that takes
all words that are left. -/
theorem take_next (hself : l ≠ .self) (hcount : l ≠ .count) {isLast : Bool}
    {operands : List Compile.Operand} {absent : Nat} {w : Bytes} {ws : List Bytes} {again : Bool}
    (hlast : l = .text → isLast = true → (w :: ws).length ≤ 1) :
    ∃ more, (ws ≠ [] → more = true) ∧
      Taken.take self isLast l ⟨operands, absent, w :: ws, true, again⟩ =
        ⟨operands ++ [wordOperand (wantOf l) w], absent, ws, more, again⟩ := by
  rw [take_value hself hcount]
  dsimp only
  split
  next hjoin =>
    obtain ⟨rfl, hfinal⟩ : l = .text ∧ isLast = true := by simpa using hjoin
    obtain rfl : ws = [] := List.length_eq_zero_iff.mp (Nat.le_zero.mp
      (Nat.le_of_succ_le_succ (hlast rfl hfinal)))
    rw [List.take_nil, List.drop_nil]
    exact ⟨_, fun hne => absurd rfl hne, rfl⟩
  next => exact ⟨true, fun _ => rfl, rfl⟩

/-- A letter takes its word off those that are left. If there is none, this is known from then on. -/
theorem words_take (hl : l.isPlain = true) (hmore : tk.words ≠ [] → tk.more = true) {isLast : Bool}
    (hlast : l = .text → isLast = true → tk.words.length ≤ 1) :
    (tk.take self isLast l).words = (if l.takesWord then tk.words.tail else tk.words) ∧
      (tk.take self isLast l).again = tk.again ∧
      ((tk.take self isLast l).words ≠ [] → (tk.take self isLast l).more = true) ∧
      (tk.more = false ∨ l.takesWord = true ∧ tk.words = [] →
        (tk.take self isLast l).more = false) := by
  rcases Letter.takesWord_eq hl with ⟨hword, hself, hcount⟩ | ⟨hword, hown⟩
  · rw [hword, if_pos rfl]
    obtain ⟨operands, absent, words, more, again⟩ := tk
    cases words with
    | nil =>
        rw [take_value hself hcount]
        cases again <;> exact ⟨rfl, rfl, (absurd rfl ·), fun _ => rfl⟩
    | cons w ws =>
        obtain rfl : more = true := hmore (List.cons_ne_nil w ws)
        obtain ⟨more, hmore', htake⟩ : ∃ more, (ws ≠ [] → more = true) ∧
            Taken.take self isLast l ⟨operands, absent, w :: ws, true, again⟩ =
              ⟨operands ++ [wordOperand (wantOf l) w], absent, ws, more, again⟩ :=
          take_next hself hcount hlast
        rw [htake]
        refine ⟨rfl, rfl, hmore', ?_⟩
        rintro (h | ⟨-, h⟩) <;> cases h
  · rw [hword]
    have hfalse (h : tk.more = false ∨ false = true ∧ tk.words = []) : tk.more = false :=
      h.elim id fun h => nomatch h.1
    rcases hown with rfl | rfl
    · exact ⟨rfl, rfl, hmore, hfalse⟩
    · exact ⟨rfl, rfl, hmore, hfalse⟩

/-- Letters take as many words as there are letters that take one. -/
theorem words_takeAll (hls : ∀ l ∈ ls, l.isPlain = true) (hmore : tk.words ≠ [] → tk.more = true) :
    (tk.takeAll self false ls).words.length = tk.words.length - Signature.words ls ∧
      (tk.more = false ∨ tk.words.length < Signature.words ls →
        (tk.takeAll self false ls).more = false) := by
  induction ls generalizing tk with
  | nil => exact ⟨rfl, fun h => h.elim id fun h => absurd h (Nat.not_lt_zero _)⟩
  | cons l ls ih =>
      have hfirst (h : l = .text) : false = true → tk.words.length ≤ 1 := by
        rintro ⟨⟩
      obtain ⟨hwords, -, hmore', hfalse⟩ := words_take (hls l List.mem_cons_self) hmore hfirst
      obtain ⟨hlen, hend⟩ := ih (fun l hl => hls l (List.mem_cons_of_mem _ hl)) hmore'
      have htake : tk.takeAll self false (l :: ls) = (tk.take self false l).takeAll self false ls := rfl
      have hcount : Signature.words (l :: ls) =
          Signature.words ls + if l.takesWord then 1 else 0 := List.countP_cons
      rw [htake, hlen, hcount, hwords]
      constructor
      · split
        · rw [List.length_tail]
          omega
        · rfl
      · intro h
        refine hend ?_
        rcases h with h | h
        · exact .inl (hfalse (.inl h))
        · rw [hwords]
          split at h
          next hword =>
            rw [if_pos hword, List.length_tail]
            rcases Nat.eq_zero_or_pos tk.words.length with h0 | hpos
            · exact .inl (hfalse (.inr ⟨hword, List.length_eq_zero_iff.mp h0⟩))
            · exact .inr (by omega)
          next hword =>
            rw [if_neg hword]
            exact .inr h

end Words

section Shaped

variable {self : Nat} {tk tk' : Taken} {st : Shaping} {s : Interp} {t : Table} {l : Letter}
  {ls : List Letter}

/-- The arguments that are shaped so far are what the operands so far stand for. -/
structure Engine.Shaping.Mirrors (st : Shaping) (t : Table) (tk : Taken) : Prop where
  shaped : List.Forall₂ (Compile.Operand.Is t) tk.operands st.shaped
  madeUp : st.madeUp = tk.absent
  absent : tk.absent ≤ tk.operands.length
  again : st.again = tk.again

/-- The arguments that are left are the words that are left. -/
structure Engine.Shaping.Continues (st : Shaping) (tk : Taken) : Prop where
  rest : List.Forall₂ (fun w v => ∃ kind, v = .text kind w) tk.words st.rest
  words : ∀ w ∈ tk.words, w ≠ [] ∧ w.length < operandLimit
  more : tk.words ≠ [] → tk.more = true
  room : tk.words ≠ [] → tk.operands.length + tk.words.length ≤ maxArgs

theorem Engine.Shaping.Mirrors.add (h : st.Mirrors t tk) {o : Compile.Operand} {v : Value}
    (hv : o.Is t v) : (st.add v).Mirrors t (tk.add o) := by
  refine ⟨List.rel_append h.shaped (.cons hv .nil), h.madeUp, ?_, h.again⟩
  rw [Taken.add, List.length_append]
  exact Nat.le_succ_of_le h.absent

theorem Engine.Shaping.Mirrors.mono {t' : Table} (h : st.Mirrors t tk) (ht : t.Retains t') :
    st.Mirrors t' tk :=
  ⟨h.shaped.imp fun _ _ hv => hv.retained ht, h.madeUp, h.absent, h.again⟩

/-- What stands in for a missing argument is what the operand for a missing word stands for. -/
theorem missingArg_is (hl : l.isPlain = true) (hself : l ≠ .self) (hcount : l ≠ .count)
    {os : List Compile.Operand} {vs : List Value} (hvs : List.Forall₂ (Compile.Operand.Is t) os vs) :
    (missingOperand os l).Is t (Engine.missingArg vs.getLast? l) := by
  have hempty : IsBody [] [] := ⟨4, { cursor := { rest := [] }, table := t }, Nat.le_refl 4, rfl, rfl⟩
  cases l with
  | self => exact absurd rfl hself
  | count => exact absurd rfl hcount
  | pressed | joined | all | again => cases hl
  | int | intOrLeast | any | anyOrNull | condition | ident => exact rfl
  | float => exact ⟨_, rfl, .inl rfl⟩
  | text => exact ⟨.view, rfl⟩
  | ownText => exact ⟨_, rfl⟩
  | code => exact .empty hempty
  | floatOrPrevious =>
      rcases List.eq_nil_or_concat os with rfl | ⟨os, o, rfl⟩
      · cases hvs
        exact ⟨_, rfl, .inl rfl⟩
      · rw [List.concat_eq_append] at hvs ⊢
        obtain ⟨vs, us, rfl, -, hus⟩ := exists_append_of_is hvs
        cases hus with
        | cons hv hnil =>
            cases hnil
            refine ⟨_, rfl, ?_⟩
            rw [List.getLast?_concat, List.getLast?_concat]
            exact hv.toSingle

theorem Engine.Shaping.Mirrors.count (h : st.Mirrors t tk) :
    Int32.ofNat (st.shaped.length - st.madeUp) =
      Int32.ofInt ((tk.operands.length : Int) - tk.absent) := by
  rw [h.madeUp, ← h.shaped.length_eq, ← Int.ofNat_sub h.absent]
  exact (Int32.ofInt_eq_ofNat).symm

/-- A letter without a word of its own, in both ways of calling. Only where no word is left are the
same arguments left behind it. -/
theorem quiet_take_own (h : st.Mirrors s.table tk) (hl : l = .self ∨ l = .count) (isLast : Bool) :
    Quiet (st.take self false l) s fun st' s' => st'.Mirrors s'.table (tk.take self isLast l) ∧
      (tk.words = [] → st.Continues tk → st'.Continues (tk.take self isLast l)) := by
  have hcontinues {v : Value} {o : Compile.Operand} (hwords : tk.words = []) (hc : st.Continues tk) :
      (st.add v).Continues (tk.add o) := by
    have hrest := hc.rest
    rw [hwords] at hrest
    refine ⟨?_, hc.words, hc.more, fun hne => absurd hwords hne⟩
    rw [Shaping.add, List.forall₂_nil_left_iff.mp hrest]
    exact hwords ▸ .nil
  rcases hl with rfl | rfl
  · exact .pure ⟨h.add rfl, hcontinues⟩
  · refine .pure ⟨h.add ?_, hcontinues⟩
    exact congrArg Value.int h.count

/-- A letter that takes a word, in both ways of calling. A text that is the last letter must not find
several words, and within a repetition there must be a word for the letter. -/
theorem quiet_take_word (hs : s.table.Founded .layout) (h : st.Mirrors s.table tk)
    (hc : st.Continues tk) (hl : l.isPlain = true) (hself : l ≠ .self) (hcount : l ≠ .count)
    {isLast : Bool} (hlast : l = .text → isLast = true → tk.words.length ≤ 1)
    (hagain : tk.again = true → tk.words ≠ []) :
    Quiet (st.take self false l) s fun st' s' => st'.Mirrors s'.table (tk.take self isLast l) ∧
      st'.Continues (tk.take self isLast l) := by
  have hgiven : st.take self false l = st.addGiven l := by
    cases l with
    | self => exact absurd rfl hself
    | count => exact absurd rfl hcount
    | _ => rfl
  rw [hgiven]
  obtain ⟨hrest, hwords, hmore, hroom⟩ := hc
  obtain ⟨operands, absent, words, more, again⟩ := tk
  obtain ⟨shaped, rest, madeUp, again'⟩ := st
  obtain rfl : again' = again := h.again
  dsimp only at hrest hwords hmore hroom hlast hagain
  cases hrest with
  | nil =>
      obtain rfl : again' = false := Bool.eq_false_iff.mpr fun h => hagain h rfl
      have hadd := h.add (missingArg_is hl hself hcount h.shaped)
      rw [take_value hself hcount]
      refine .pure ⟨⟨hadd.shaped, ?_, ?_, rfl⟩, ⟨?_, ?_, ?_, ?_⟩⟩
      · exact congrArg (· + 1) h.madeUp
      · simpa [Taken.add] using h.absent
      · exact .nil
      · exact fun _ hw => absurd hw List.not_mem_nil
      · exact fun hne => absurd rfl hne
      · exact fun hne => absurd rfl hne
  | @cons w v ws rest hv hrest =>
      obtain ⟨kind, rfl⟩ := hv
      obtain rfl : more = true := hmore (List.cons_ne_nil w ws)
      obtain ⟨hne, hshort⟩ := hwords w List.mem_cons_self
      have hroom := hroom (List.cons_ne_nil w ws)
      rw [List.length_cons] at hroom
      obtain ⟨more, hmore', htake⟩ : ∃ more, (ws ≠ [] → more = true) ∧
          Taken.take self isLast l ⟨operands, absent, w :: ws, true, again'⟩ =
            ⟨operands ++ [wordOperand (wantOf l) w], absent, ws, more, again'⟩ :=
        take_next hself hcount hlast
      rw [htake]
      refine (quiet_convertArg hs (show (Value.text kind w).Short from hshort) l).bind ?_
      intro v' s' hprep hv'
      have hadd := (h.mono hprep.idents).add (hv' hl hself hcount kind w rfl hne)
      refine .pure ⟨⟨hadd.shaped, hadd.madeUp, hadd.absent, rfl⟩, ⟨hrest, ?_, hmore', fun _ => ?_⟩⟩
      · exact fun w' hw' => hwords w' (List.mem_cons_of_mem _ hw')
      · change (operands ++ [wordOperand (wantOf l) w]).length + ws.length ≤ maxArgs
        rw [List.length_append, List.length_singleton]
        omega

/-- Letters one after another, in both ways of calling. What is left behind them is the same as long
as letters behind them take words. -/
theorem quiet_takeAll_mirrors {tail : Signature} {final : Bool} (hs : s.table.Founded .layout)
    (h : st.Mirrors s.table tk) (hls : ∀ l ∈ ls, l.isPlain = true)
    (haligned : Signature.Aligned (ls ++ tail) tk.words.length)
    (hc : (∃ l ∈ ls ++ tail, l.takesWord = true) → st.Continues tk)
    (hjoin : final = true → ∀ pre, ls = pre ++ [.text] → tk.words.length ≤ Signature.words pre + 1)
    (hagain : tk.again = true → ls.length ≤ tk.words.length ∧ ∀ l ∈ ls, l.takesWord = true) :
    Quiet (ls.foldlM (Shaping.take self false) st) s fun st' s' =>
      st'.Mirrors s'.table (tk.takeAll self final ls) ∧
        ((∃ l ∈ tail, l.takesWord = true) → st'.Continues (tk.takeAll self final ls)) := by
  induction ls generalizing tk st s with
  | nil => exact .pure ⟨h, hc⟩
  | cons l ls ih =>
      rw [List.foldlM_cons]
      have hl := hls l List.mem_cons_self
      have hls' : ∀ l ∈ ls, l.isPlain = true := fun l hl => hls l (List.mem_cons_of_mem _ hl)
      obtain ⟨hown, haligned'⟩ := haligned
      have hlast : l = .text → (final && ls.isEmpty) = true → tk.words.length ≤ 1 := by
        rintro rfl hfinal
        rw [Bool.and_eq_true, List.isEmpty_iff] at hfinal
        obtain ⟨hfinal, rfl⟩ := hfinal
        exact hjoin hfinal [] rfl
      rcases Letter.takesWord_eq hl with ⟨hword, hself, hcount⟩ | ⟨hword, hl'⟩
      · have hcontinues := hc ⟨l, List.mem_append_left _ List.mem_cons_self, hword⟩
        obtain ⟨hwords, hagain', -, -⟩ := @words_take self tk l hl hcontinues.more _ hlast
        rw [hword, if_pos rfl] at hwords haligned'
        have hsome (h : tk.again = true) : tk.words ≠ [] := by
          have := (hagain h).1
          rw [List.length_cons] at this
          exact List.length_pos_iff.mp (by omega)
        refine (quiet_take_word hs h hcontinues hl hself hcount hlast hsome).bind ?_
        rintro st' s' hprep ⟨h', hc'⟩
        refine ih (hs.mono (hprep.idents.extends .layout)) h' hls' ?_ (fun _ => hc') ?_ ?_
        · rw [hwords, List.length_tail]
          exact haligned'
        · intro hfinal pre hpre
          have := hjoin hfinal (l :: pre) (congrArg (l :: ·) hpre)
          have hcount : Signature.words (l :: pre) = Signature.words pre + 1 :=
            List.countP_cons_of_pos hword
          rw [hwords, List.length_tail]
          omega
        · intro hagain''
          rw [hagain'] at hagain''
          obtain ⟨hlen, hall⟩ := hagain hagain''
          rw [List.length_cons] at hlen
          refine ⟨?_, fun l hl => hall l (List.mem_cons_of_mem _ hl)⟩
          rw [hwords, List.length_tail]
          omega
      · rw [if_neg (by rw [hword]; exact Bool.false_ne_true)] at haligned'
        have hwords : (tk.take self (final && ls.isEmpty) l).words = tk.words ∧
            (tk.take self (final && ls.isEmpty) l).again = tk.again := by
          rcases hl' with rfl | rfl <;> exact ⟨rfl, rfl⟩
        refine (quiet_take_own h hl' (final && ls.isEmpty)).bind ?_
        rintro st' s' hprep ⟨h', hc'⟩
        refine ih (hs.mono (hprep.idents.extends .layout)) h' hls' (hwords.1 ▸ haligned') ?_ ?_ ?_
        · rintro ⟨l', hmem, hword'⟩
          rcases hown hl' with h0 | hnone
          · exact hc' (List.length_eq_zero_iff.mp h0) (hc ⟨l', List.mem_cons_of_mem _ hmem, hword'⟩)
          · rw [hnone l' hmem] at hword'
            cases hword'
        · intro hfinal pre hpre
          have := hjoin hfinal (l :: pre) (congrArg (l :: ·) hpre)
          have hcount : Signature.words (l :: pre) = Signature.words pre :=
            List.countP_cons_of_neg (by rw [hword]; exact Bool.false_ne_true)
          rw [hwords.1]
          omega
        · intro hagain'
          rw [hwords.2] at hagain'
          have := (hagain hagain').2 l List.mem_cons_self
          rw [hword] at this
          cases this

private theorem length_takeAll_le (self : Nat) (final : Bool) (ls : List Letter) (tk : Taken) :
    (tk.takeAll self final ls).operands.length ≤ tk.operands.length + ls.length := by
  induction ls generalizing tk with
  | nil => exact Nat.le_refl _
  | cons l ls ih =>
      have hrest := ih (tk.take self (final && ls.isEmpty) l)
      have hfirst := length_take_le self (final && ls.isEmpty) l tk
      rw [Taken.takeAll, List.length_cons]
      omega

/-- Letters that are repeated leave nothing where no word is left. -/
theorem operands_takeAll_none (hls : ∀ l ∈ ls, l.isPlain = true ∧ l.takesWord = true)
    (hwords : tk.words = []) (hagain : tk.again = true) :
    (tk.takeAll self false ls).operands = tk.operands := by
  induction ls generalizing tk with
  | nil => rfl
  | cons l ls ih =>
      obtain ⟨hplain, hword⟩ := hls l List.mem_cons_self
      have htake : tk.take self false l = { tk with words := [], more := false } := by
        rcases Letter.takesWord_eq hplain with ⟨-, hself, hcount⟩ | ⟨hnone, -⟩
        · rw [take_value hself hcount, hwords, hagain]
          rfl
        · rw [hword] at hnone
          cases hnone
      have hfirst : tk.takeAll self false (l :: ls) =
          Taken.takeAll self false ls { tk with words := [], more := false } :=
        congrArg (Taken.takeAll self false ls) htake
      rw [hfirst]
      exact ih (fun l hl => hls l (List.mem_cons_of_mem _ hl)) rfl hagain

/-- Repetitions leave nothing where no word is left. -/
theorem operands_rounds_none {group : List Letter} (hr : Taken.Rounds self group tk tk')
    (hgroup : ∀ l ∈ group, l.isPlain = true ∧ l.takesWord = true) (hwords : tk.words = []) :
    tk'.operands = tk.operands ∧ tk'.words = [] := by
  induction hr with
  | stop h => exact ⟨rfl, hwords⟩
  | again h hr ih =>
      rename_i tk tk'
      have hplain : ∀ l ∈ group, l.isPlain = true := fun l hl => (hgroup l hl).1
      obtain ⟨hlen, -⟩ := @words_takeAll self { tk with again := true } group hplain
        fun hne => absurd hwords hne
      have hnone : (Taken.takeAll self false group { tk with again := true }).words = [] := by
        have hzero : ({ tk with again := true } : Taken).words.length = 0 :=
          congrArg List.length hwords
        rw [hzero, Nat.zero_sub] at hlen
        exact List.length_eq_zero_iff.mp hlen
      obtain ⟨hoperands, hend⟩ := ih hnone
      have hsame : (Taken.takeAll self false group { tk with again := true }).operands =
          tk.operands := operands_takeAll_none hgroup hwords rfl
      exact ⟨hoperands.trans hsame, hend⟩

private theorem aligned_of_takesWord {sig : Signature} (hsig : ∀ l ∈ sig, l.takesWord = true)
    (n : Nat) :
    sig.Aligned n := by
  induction sig generalizing n with
  | nil => trivial
  | cons l sig ih =>
      refine ⟨fun h => ?_, ih (fun l hl => hsig l (List.mem_cons_of_mem _ hl)) _⟩
      have := hsig l List.mem_cons_self
      rcases h with rfl | rfl <;> cases this

/-- A repetition whose rounds are filled, in both ways of calling. -/
theorem quiet_rounds_mirrors {sig : Array Letter} {at' : Nat} {group : List Letter}
    {P : List Value → Interp → Prop} (hsig : sig[at']? = some (.again group.length))
    (hfront : group <+: sig.toList.drop (at' - group.length)) (hat : group.length ≤ at')
    (hpos : 0 < group.length) (hgroup : ∀ l ∈ group, l.isPlain = true ∧ l.takesWord = true)
    (hr : Taken.Rounds self group tk tk') (hs : s.table.Founded .layout)
    (h : st.Mirrors s.table tk) (hc : st.Continues tk) (hdvd : group.length ∣ tk.words.length)
    (hlen : tk.operands.length ≤ maxArgs) (fuel : Nat)
    (hend : ∀ st s fuel', fuel ≤ fuel' → st.rest = [] → tk'.words = [] →
      tk'.operands.length ≤ maxArgs →
      List.Forall₂ (Compile.Operand.Is s.table) tk'.operands st.shaped →
      Quiet (shapeFrom sig self false fuel' (at' + 1) st) s P)
    (m : Nat) (hm : st.rest.length ≤ m) :
    Quiet (shapeFrom sig self false (m * (group.length + 1) + (fuel + 1)) at' st) s P := by
  have hcount : Signature.words group = group.length :=
    List.countP_eq_length.mpr fun l hl => (hgroup l hl).2
  -- How far the rounds have come: what is left of them leads to the same operands.
  let I (st : Shaping) (s : Interp) : Prop := ∃ tk, Taken.Rounds self group tk tk' ∧
    s.table.Founded .layout ∧ st.Mirrors s.table tk ∧ st.Continues tk ∧
      group.length ∣ tk.words.length ∧ tk.operands.length ≤ maxArgs
  have hround (st : Shaping) (s : Interp) (hI : I st s) (hne : st.rest ≠ []) :
      Quiet (group.foldlM (Shaping.take self false) { st with again := true }) s fun st' s' =>
        st'.rest = st.rest.drop group.length ∧ I st' s' := by
    obtain ⟨tk, hr, hs, h, hc, hdvd, hlen⟩ := hI
    have hwords : tk.words ≠ [] := by
      intro h0
      have hrest := hc.rest
      rw [h0] at hrest
      exact hne (List.forall₂_nil_left_iff.mp hrest)
    have hpositive := List.length_pos_iff.mpr hwords
    have hroom := hc.room hwords
    cases hr with
    | stop hstop => exact absurd ⟨hc.more hwords, by omega⟩ hstop
    | again hgo hr =>
        have hle := Nat.le_of_dvd hpositive hdvd
        have hplain : ∀ l ∈ group, l.isPlain = true := fun l hl => (hgroup l hl).1
        have hall : ∀ l ∈ group ++ [Letter.all], l.takesWord = true := by
          intro l hl
          rcases List.mem_append.mp hl with hl | hl
          · exact (hgroup l hl).2
          · exact List.mem_singleton.mp hl ▸ rfl
        have hshort : Shaping.Short { st with again := true } := by
          intro v hv
          obtain ⟨i, hi, rfl⟩ := List.getElem_of_mem hv
          have hi' : i < tk.words.length := hc.rest.length_eq ▸ hi
          obtain ⟨kind, hkind⟩ := hc.rest.get hi' hi
          rw [List.get_eq_getElem] at hkind
          have hw := (hc.words _ (List.get_mem tk.words ⟨i, hi'⟩)).2
          exact hkind ▸ hw
        have hround : ({ st with again := true } : Shaping).Mirrors s.table
            { tk with again := true } := ⟨h.shaped, h.madeUp, h.absent, rfl⟩
        have hcontinues : ({ st with again := true } : Shaping).Continues
            { tk with again := true } := ⟨hc.rest, hc.words, hc.more, hc.room⟩
        have hfirst : false = true → ∀ pre, group = pre ++ [.text] →
            ({ tk with again := true } : Taken).words.length ≤ Signature.words pre + 1 := by
          rintro ⟨⟩
        refine ((quiet_takeAll hs _ hshort group).and
          (quiet_takeAll_mirrors hs hround hplain (aligned_of_takesWord hall _) (fun _ => hcontinues)
            hfirst (fun _ => ⟨hle, fun l hl => (hgroup l hl).2⟩))).mono ?_
        · rintro st' s' hprep ⟨⟨-, hrest⟩, h', hc'⟩
          have hmore' : ({ tk with again := true } : Taken).words ≠ [] → tk.more = true := hc.more
          obtain ⟨hlen', -⟩ := @words_takeAll self { tk with again := true } group hplain hmore'
          rw [hcount] at hlen'
          have hoperands := length_takeAll_le self false group { tk with again := true }
          refine ⟨hrest, _, hr, hs.mono (hprep.idents.extends .layout), h',
            hc' ⟨.all, List.mem_singleton_self _, rfl⟩, ?_, ?_⟩
          · rw [hlen']
            exact (Nat.dvd_sub hdvd (Nat.dvd_refl _))
          · dsimp only at hoperands
            omega
  refine quiet_shapeFrom_rounds (I := I) hsig hfront hat hpos (fun l hl => (hgroup l hl).1) hround
    fuel ?_ m hm ⟨tk, hr, hs, h, hc, hdvd, hlen⟩
  rintro st s fuel' ⟨tk, hr, -, h, hc, -, hlen⟩ hrest hle
  have hwords : tk.words = [] := by
    have hrest' := hc.rest
    rw [hrest] at hrest'
    exact List.forall₂_nil_right_iff.mp hrest'
  obtain ⟨hoperands, hnone⟩ := operands_rounds_none hr hgroup hwords
  exact hend st s fuel' hle hrest hnone (hoperands ▸ hlen) (hoperands ▸ h.shaped)
end Shaped

section Signatures

variable {self : Nat} {s : Interp} {sig : Signature} {ws : List Bytes} {args : List Value}

/-- The words of a call are its arguments. -/
structure Compile.CallsAs (ws : List Bytes) (args : List Value) : Prop where
  texts : List.Forall₂ (fun w v => ∃ kind, v = .text kind w) ws args
  words : ∀ w ∈ ws, w ≠ [] ∧ w.length < operandLimit
  room : ws.length ≤ maxArgs

/-- The letters with an argument each, in both ways of calling, leave enough steps for what follows
them. -/
theorem quiet_shape_mirrors {pre tail : Signature} {P : List Value → Interp → Prop}
    (hs : s.table.Founded .layout) (hargs : CallsAs ws args) (hpre : ∀ l ∈ pre, l.isPlain = true)
    (hagrees : Signature.Agrees (pre ++ tail) ws.length)
    (h : ∀ fuel st s, args.length * (pre.length + 1) + tail.length + 2 ≤ fuel →
      s.table.Founded .layout →
      st.Mirrors s.table (Taken.takeAll self tail.isEmpty pre { words := ws }) →
      ((∃ l ∈ tail, l.takesWord = true) →
        st.Continues (Taken.takeAll self tail.isEmpty pre { words := ws }) ∧
          st.rest.length ≤ args.length) →
      Quiet (shapeFrom (pre ++ tail).toArray self false fuel pre.length st) s P) :
    Quiet (shape (pre ++ tail) self false args) s P := by
  obtain ⟨fuel, hle, hshape⟩ : ∃ fuel, args.length * (pre.length + 1) + tail.length + 2 ≤ fuel ∧
      shape (pre ++ tail) self false args = (do
        shapeFrom (pre ++ tail).toArray self false fuel pre.length
          (← pre.foldlM (Shaping.take self false) { rest := args })) := shape_letters hpre
  rw [hshape]
  have hstart : Shaping.Mirrors { rest := args } s.table { words := ws } :=
    ⟨.nil, rfl, Nat.le_refl 0, rfl⟩
  have hcontinues : Shaping.Continues { rest := args } { words := ws } :=
    ⟨hargs.texts, hargs.words, fun _ => rfl, fun _ => (Nat.zero_add ws.length).symm ▸ hargs.room⟩
  have hjoin (hfinal : tail.isEmpty = true) (p : Signature) (hp : pre = p ++ [.text]) :
      ({ words := ws } : Taken).words.length ≤ Signature.words p + 1 := by
    rw [List.isEmpty_iff] at hfinal
    refine hagrees.joined p ?_
    rw [hfinal, List.append_nil, hp]
  refine (quiet_takeAll_mirrors hs hstart hpre hagrees.aligned (fun _ => hcontinues) hjoin
    (fun h => nomatch h)).bind ?_
  rintro st s' hprep ⟨hst, hc⟩
  refine h fuel st s' hle (hs.mono (hprep.idents.extends .layout)) hst fun hword => ⟨hc hword, ?_⟩
  have hlen := (hc hword).rest.length_eq
  have hmore : ({ words := ws } : Taken).words ≠ [] → ({ words := ws } : Taken).more = true :=
    fun _ => rfl
  have hfalse : tail.isEmpty = false := by
    obtain ⟨l, hl, -⟩ := hword
    exact List.isEmpty_eq_false_iff_exists_mem.mpr ⟨l, hl⟩
  rw [hfalse] at hlen
  have hcount := (@words_takeAll self _ pre hpre hmore).1
  rw [← hlen, hcount, ← hargs.texts.length_eq]
  exact Nat.sub_le ..

/-- A letter that takes all arguments that are left gives what the operands stand for. -/
theorem quiet_shapeFrom_rest {sig : Array Letter} {at' : Nat} {l : Letter} {tk : Taken}
    {st : Shaping} (hl : l.takesAll = true) (hsig : sig[at']? = some l) (fuel : Nat)
    (hvs : List.Forall₂ (Compile.Operand.Is s.table) tk.operands st.shaped)
    (hrest : List.Forall₂ (fun w v => ∃ kind, v = .text kind w) tk.words st.rest)
    (hroom : tk.words ≠ [] → tk.operands.length + tk.words.length ≤ maxArgs) :
    Quiet (shapeFrom sig self false (fuel + 1) at' st) s fun vs s' =>
      ∃ us, List.Forall₂ (Compile.Operand.Is s'.table) tk.rest us ∧ vs = received (restOp l) us := by
  have htake : tk.words.take (maxArgs - tk.operands.length) = tk.words := by
    refine List.take_of_length_le ?_
    rcases List.eq_nil_or_concat tk.words with h | ⟨ws, w, h⟩
    · exact h ▸ Nat.zero_le _
    · have := hroom (by simp [h])
      omega
  have hall : List.Forall₂ (Compile.Operand.Is s.table) tk.rest st.all := by
    rw [Taken.rest, htake]
    refine List.rel_append hvs ?_
    rw [List.forall₂_map_left_iff]
    exact hrest
  rw [shapeFrom, hsig]
  cases l with
  | joined | all => exact .pure ⟨_, hall, rfl⟩
  | _ => cases hl

/-- A repetition behind the letters with an argument each, and the letter that takes all arguments
that are left. -/
theorem quiet_shapeFrom_again {sig : Array Letter} {at' : Nat} {group : List Letter} {ds : List Nat}
    {l : Letter} {tk tk' : Taken} {st : Shaping} (hsig : sig[at']? = some (.again group.length))
    (hfront : group <+: sig.toList.drop (at' - group.length)) (hat : group.length ≤ at')
    (hpos : 0 < group.length) (hgroup : ∀ l ∈ group, l.isPlain = true)
    (hdigits : ds.map Letter.again <+: sig.toList.drop (at' + 1))
    (hlast : sig[at' + 1 + ds.length]? = some l) (hl : l.takesAll = true)
    (hr : Taken.Rounds self group tk tk') (hs : s.table.Founded .layout)
    (h : st.Mirrors s.table tk) (hc : st.Continues tk) (hlen : tk.operands.length ≤ maxArgs)
    (hfilled : tk.more = false ∨
      group.length ∣ tk.words.length ∧ ∀ l ∈ group, l.takesWord = true)
    {m fuel : Nat} (hm : st.rest.length ≤ m)
    (hfuel : m * (group.length + 1) + (ds.length + 2) ≤ fuel) :
    Quiet (shapeFrom sig self false fuel at' st) s fun vs s' =>
      ∃ us, List.Forall₂ (Compile.Operand.Is s'.table)
        { tk' with operands := tk'.operands.take maxArgs }.rest us ∧ vs = received (restOp l) us := by
  -- Behind the last round there are no words left, and nothing is cut off.
  have hend (st : Shaping) (s : Interp) (fuel' : Nat) (hle : ds.length + 1 ≤ fuel')
      (hrest : st.rest = []) (hwords : tk'.words = []) (hlen : tk'.operands.length ≤ maxArgs)
      (hvs : List.Forall₂ (Compile.Operand.Is s.table) tk'.operands st.shaped) :
      Quiet (shapeFrom sig self false fuel' (at' + 1) st) s fun vs s' =>
        ∃ us, List.Forall₂ (Compile.Operand.Is s'.table)
          { tk' with operands := tk'.operands.take maxArgs }.rest us ∧
            vs = received (restOp l) us := by
    obtain ⟨k, rfl⟩ : ∃ k, fuel' = k + 1 + ds.length := ⟨fuel' - 1 - ds.length, by omega⟩
    rw [shapeFrom_digits hdigits (k + 1) hrest, List.take_of_length_le hlen]
    refine quiet_shapeFrom_rest hl hlast k hvs ?_ fun h => absurd hwords h
    rw [hwords, hrest]
    exact .nil
  rcases hfilled with hmore | ⟨hdvd, hword⟩
  · have hwords : tk.words = [] := by
      cases hw : tk.words with
      | nil => rfl
      | cons w ws =>
          have := hc.more (hw ▸ List.cons_ne_nil w ws)
          rw [hmore] at this
          cases this
    have hrest : st.rest = [] := by
      have hrest := hc.rest
      rw [hwords] at hrest
      exact List.forall₂_nil_left_iff.mp hrest
    obtain rfl : tk' = tk := by
      cases hr with
      | stop => rfl
      | again hgo =>
          rw [hmore] at hgo
          cases hgo.1
    obtain ⟨k, rfl⟩ : ∃ k, fuel = k + 1 := ⟨fuel - 1, by omega⟩
    rw [shapeFrom, hsig]
    simp only [hrest, List.isEmpty_nil, if_true]
    exact hend st s k (by omega) hrest hwords hlen h.shaped
  · obtain ⟨k, rfl⟩ : ∃ k, fuel = m * (group.length + 1) + (k + 1) :=
      ⟨fuel - 1 - m * (group.length + 1), by omega⟩
    exact quiet_rounds_mirrors hsig hfront hat hpos (fun l hl => ⟨hgroup l hl, hword l hl⟩) hr hs h
      hc hdvd hlen k (fun st s fuel' hle => hend st s fuel' (by omega)) m hm

/-- What a call through a computed name hands over is what the operands of the compiled call stand
for, if the words are the same arguments to both. -/
theorem quiet_shape_called {op : Op} {os : List Compile.Operand}
    (hcalled : Called self ws sig op os) (haccepted : Signature.Accepted 0 sig)
    (hslots : sig.slots ≤ maxArgs) (hs : s.table.Founded .layout) (hargs : CallsAs ws args)
    (hagrees : sig.Agrees ws.length) :
    Quiet (shape sig self false args) s fun vs s' =>
      ∃ us, List.Forall₂ (Compile.Operand.Is s'.table) os us ∧ vs = received op us := by
  cases hcalled with
  | fixed hp =>
      have happend : sig ++ [] = sig := List.append_nil sig
      suffices h : Quiet (shape (sig ++ []) self false args) s fun vs s' =>
          ∃ us, List.Forall₂ (Compile.Operand.Is s'.table)
            (Taken.takeAll self true sig { words := ws }).operands us ∧ vs = received .com us by
        rwa [happend] at h
      rw [← happend] at hagrees
      refine quiet_shape_mirrors hs hargs hp hagrees fun fuel st s' hfuel _ hst _ => ?_
      obtain ⟨fuel, rfl⟩ : ∃ k, fuel = k + 1 := ⟨fuel - 1, by omega⟩
      have hnone : (sig ++ []).toArray[sig.length]? = none := by simp
      rw [shapeFrom, hnone]
      exact .pure ⟨st.shaped, hst.shaped, rfl⟩
  | @pressed pre hp =>
      refine quiet_shape_mirrors hs hargs hp hagrees fun fuel st s' hfuel _ hst _ => ?_
      obtain ⟨fuel, rfl⟩ : ∃ k, fuel = k + 1 + 1 := ⟨fuel - 2, by omega⟩
      have hsome : (pre ++ [Letter.pressed]).toArray[pre.length]? = some .pressed := by simp
      have hnone : (pre ++ [Letter.pressed]).toArray[pre.length + 1]? = none := by simp
      rw [shapeFrom, hsome]
      dsimp only
      rw [shapeFrom, hnone]
      exact .pure ⟨st.shaped, hst.shaped, rfl⟩
  | @rest pre l hp hl =>
      refine quiet_shape_mirrors hs hargs hp hagrees fun fuel st s' hfuel _ hst hc => ?_
      obtain ⟨fuel, rfl⟩ : ∃ k, fuel = k + 1 := ⟨fuel - 1, by omega⟩
      have hword : ∃ l' ∈ [l], l'.takesWord = true := ⟨l, List.mem_singleton_self l, by
        cases l <;> first | rfl | cases hl⟩
      obtain ⟨hc, -⟩ := hc hword
      exact quiet_shapeFrom_rest hl (by simp) fuel hst.shaped hc.rest hc.room
  | @again pre g ds l tk hp hl hr =>
      have hpre : pre ++ Letter.again g :: ds.map .again ++ [l] =
          pre ++ (Letter.again g :: ds.map .again ++ [l]) := List.append_assoc ..
      have hget : (pre ++ Letter.again g :: ds.map .again ++ [l])[pre.length]? =
          some (.again g) := by simp
      obtain ⟨hpos, hg⟩ := haccepted.again_le hget
      rw [Nat.zero_add] at hg
      have hsize : g = (pre.drop (pre.length - g)).length := by
        rw [List.length_drop]
        omega
      obtain ⟨-, hfront, hdigits, hlast⟩ := Signature.again_places pre g ds l rfl
      have hpre_slots : pre.length ≤ maxArgs := by
        rw [hpre, Signature.slots, List.countP_append, ← Signature.slots, slots_of_plain hp] at hslots
        omega
      have hrounds := hagrees.rounds pre g (ds.map Letter.again ++ [l]) hpre hp
      rw [hpre] at hagrees ⊢
      refine quiet_shape_mirrors hs hargs hp hagrees fun fuel st s' hfuel hs' hst hc => ?_
      have hword : ∃ l' ∈ Letter.again g :: ds.map .again ++ [l], l'.takesWord = true :=
        ⟨l, List.mem_append_right _ (List.mem_singleton_self l), by
          cases l <;> first | rfl | cases hl⟩
      obtain ⟨hc, hrest⟩ := hc hword
      have hmore : ({ words := ws } : Taken).words ≠ [] → ({ words := ws } : Taken).more = true :=
        fun _ => rfl
      obtain ⟨hcount, hfalse⟩ := @words_takeAll self _ pre hp hmore
      have hoperands := length_takeAll self false pre { words := ws } rfl
      rw [← hpre]
      refine quiet_shapeFrom_again (by rw [← hsize, List.getElem?_toArray, hget]) ?_ ?_ ?_
        (fun l hl => hp l (List.mem_of_mem_drop hl)) hdigits hlast hl hr hs' hst hc ?_ ?_ hrest ?_
      · rw [← hsize]
        exact hfront
      · omega
      · omega
      · exact Nat.le_trans (Nat.le_of_eq (hoperands.trans (Nat.zero_add _))) hpre_slots
      · rw [← hsize]
        exact hrounds.imp (fun h => hfalse (.inr h)) fun h => ⟨hcount ▸ h.1, h.2⟩
      · have hmul : args.length * ((pre.drop (pre.length - g)).length + 1) ≤
            args.length * (pre.length + 1) := Nat.mul_le_mul_left _ (by omega)
        simp only [List.length_cons, List.length_append, List.length_map, List.length_nil] at hfuel
        omega

end Signatures

end ConsoleScript
