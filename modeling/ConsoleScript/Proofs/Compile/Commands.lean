import ConsoleScript.Proofs.Compile.Signatures
import ConsoleScript.Proofs.Compile.Spelling

/-!
Calls of commands with literal words. The letters of a signature take the words one after another,
and the operands that they leave depend on the letters and the words alone: they are computed here
without a source text, and the code that the compiler makes of a text that spells the words is shown
to push them.
-/

namespace ConsoleScript.Compile

open Bytecode

/-- How far literal words have been taken. -/
structure Taken where
  operands : List Operand := []
  /-- How many of them stand in for missing words. -/
  absent : Nat := 0
  words : List Bytes
  /-- It is not known that there are no more words. -/
  more : Bool := true
  again : Bool := false

/-- What stands in for a missing word, given the operands before it. -/
def missingOperand (before : List Operand) : Letter → Operand
  | .int => .int 0
  | .intOrLeast => .int Int32.minValue
  | .float => .float Single.zero
  | .floatOrPrevious => .float (before.getLast?.elim Single.zero Operand.toSingle)
  | .text | .ownText => .text []
  | .code => .code []
  | .ident => .ident dummyIndex
  | _ => .null

namespace Taken

def add (o : Operand) (tk : Taken) : Taken := { tk with operands := tk.operands ++ [o] }

/-- A letter takes its word. A text that is the last letter takes all words that are left. -/
def take (self : Nat) (isLast : Bool) (l : Letter) (tk : Taken) : Taken :=
  match l with
  | .self => tk.add (.ident self)
  | .count => tk.add (.int (Int32.ofInt ((tk.operands.length : Int) - tk.absent)))
  | l =>
      match tk.words, tk.more with
      | w :: ws, true =>
          if l = .text && isLast then
            let room := maxArgs - (tk.operands.length + 1)
            { tk.add (.text (Bytes.joinWith [0x20] (w :: ws.take room))) with
              words := ws.drop room
              more := room ≤ ws.length }
          else { tk.add (wordOperand (wantOf l) w) with words := ws }
      | _, _ =>
          if tk.again then { tk with words := [], more := false }
          else { tk.add (missingOperand tk.operands l) with
            absent := tk.absent + 1
            words := []
            more := false }

/-- The letters take their words, the last of them as the last one of the signature if `final`. -/
def takeAll (self : Nat) (final : Bool) : List Letter → Taken → Taken
  | [], tk => tk
  | l :: ls, tk => takeAll self final ls (tk.take self (final && ls.isEmpty) l)

/-- A group of letters takes words as often as there are more of them and room for an operand. -/
inductive Rounds (self : Nat) (group : List Letter) : Taken → Taken → Prop
  | stop {tk : Taken} (h : ¬(tk.more = true ∧ tk.operands.length < maxArgs)) :
      Rounds self group tk tk
  | again {tk tk' : Taken} (h : tk.more = true ∧ tk.operands.length < maxArgs)
      (hr : Rounds self group (takeAll self false group { tk with again := true }) tk') :
      Rounds self group tk tk'

end Taken

/-- The compiler in the middle of a command call is as far as the letters with their words. -/
structure Follows (levels n : Nat) (e : Bytes) (tk : Taken) (cs : CallState) (st : State) : Prop where
  ready : Ready levels st
  lays : Lays st.table n [] cs.code tk.operands
  given : cs.given = tk.operands.length
  absent : cs.absent = tk.absent
  more : cs.more = tk.more
  again : cs.again = tk.again
  op : cs.op = .com
  left : Left e tk.words tk.more st.cursor.rest

section Letters

variable {levels n : Nat} {e : Bytes} {tk : Taken} {cs : CallState} {st st' : State} {t : Table}

/-- The code that stands in for a missing argument pushes what stands in for a missing word. -/
theorem lays_missingArg (ht : t.Founded .layout) {l : Letter} (hl : l.isPlain = true)
    (hself : l ≠ .self) (hcount : l ≠ .count) {os : List Operand} (hn : os.length < n) :
    Lays t n os (missingArg l os.length) (os ++ [missingOperand os l]) := by
  have hdummy := Table.lt_size_of_form? (ht dummyIndex (Nat.le_refl _))
  have hempty : IsBody [] [] := ⟨4, { cursor := { rest := [] }, table := t }, Nat.le_refl 4, rfl, rfl⟩
  cases l with
  | self => exact absurd rfl hself
  | count => exact absurd rfl hcount
  | pressed | joined | all | again => cases hl
  | int | intOrLeast => exact .single (.int _) hn
  | float => exact .single (.float _) hn
  | text => exact .single (.view (by decide)) hn
  | ownText => exact .single (.text (by decide)) hn
  | any | anyOrNull | condition => exact .single .null hn
  | code => exact .single (.code hempty) hn
  | ident => exact .single (.ident hdummy) hn
  | floatOrPrevious =>
      rcases List.eq_nil_or_concat os with rfl | ⟨os, o, rfl⟩
      · exact .single (.float _) hn
      · simp only [List.concat_eq_append, List.length_append, List.length_singleton] at hn ⊢
        have hlast : missingOperand (os ++ [o]) .floatOrPrevious = .float o.toSingle := by
          simp [missingOperand]
        have hcode : missingArg .floatOrPrevious (os.length + 1) = plain .dup .float := rfl
        rw [hlast, hcode, ← List.append_nil (plain .dup .float)]
        exact .dup hn .nil

/-- What a letter does that takes a word. -/
theorem take_value {l : Letter} (hself : l ≠ .self) (hcount : l ≠ .count) (self : Nat)
    (isLast : Bool) (tk : Taken) : tk.take self isLast l =
      match tk.words, tk.more with
      | w :: ws, true =>
          if l = .text && isLast then
            let room := maxArgs - (tk.operands.length + 1)
            { tk.add (.text (Bytes.joinWith [0x20] (w :: ws.take room))) with
              words := ws.drop room
              more := room ≤ ws.length }
          else { tk.add (wordOperand (wantOf l) w) with words := ws }
      | _, _ =>
          if tk.again then { tk with words := [], more := false }
          else { tk.add (missingOperand tk.operands l) with
            absent := tk.absent + 1
            words := []
            more := false } := by
  cases l with
  | self => exact absurd rfl hself
  | count => exact absurd rfl hcount
  | _ => rfl

private theorem wantOf_ne_nothing (l : Letter) : wantOf l ≠ .nothing := by
  cases l <;> exact nofun

/-- Where there is no argument, something stands in for it unless letters are repeated. -/
theorem Follows.missing (h : Follows levels n e tk cs st) {l : Letter} (hl : l.isPlain = true)
    (hself : l ≠ .self) (hcount : l ≠ .count) (hn : tk.operands.length < n) (hp : Passes st st')
    (hrest : st'.cursor.rest = e) :
    Follows levels n e
      (if tk.again then { tk with words := [], more := false }
        else { tk.add (missingOperand tk.operands l) with
          absent := tk.absent + 1
          words := []
          more := false })
      (if cs.again then { cs with more := false }
        else { cs with
          code := cs.code ++ missingArg l cs.given
          given := cs.given + 1
          absent := cs.absent + 1
          more := false }) st' := by
  have hready := h.ready.passes hp
  have hlays := h.lays.mono hp.names (Nat.le_refl n)
  have hleft : Left e [] false st'.cursor.rest := hrest ▸ .none
  rw [h.again]
  cases hagain : tk.again with
  | true => exact ⟨hready, hlays, h.given, h.absent, rfl, rfl, h.op, hleft⟩
  | false =>
      have hmissing := lays_missingArg hready.founded hl hself hcount hn
      rw [← h.given] at hmissing
      refine ⟨hready, hlays.append hmissing, ?_, ?_, rfl, ?_, h.op, hleft⟩
      · simp [Taken.add, h.given]
      · simp [Taken.add, h.absent]
      · simp [Taken.add, hagain]

/-- The argument of a letter that takes a value. -/
theorem run_letterArg (h : Follows levels n e tk cs st) {l : Letter} (hl : l.isPlain = true)
    (hself : l ≠ .self) (hcount : l ≠ .count) (isLast : Bool) (prev self : Nat)
    (hn : tk.operands.length < n) (hmax : isLast = true → maxArgs ≤ n) :
    ∃ cs' st', (letterArg (nested (levels + 1)) l isLast prev cs).run st = (cs', st') ∧
      Passes st st' ∧ Follows levels n e (tk.take self isLast l) cs' st' := by
  rw [take_value hself hcount]
  obtain ⟨operands, absent, words, more, again⟩ := tk
  have hleft := h.left
  dsimp only at hleft hn ⊢
  have hmore : cs.more = more := h.more
  have hgiven : cs.given = operands.length := h.given
  generalize hs : st.cursor.rest = s at hleft
  cases hleft with
  | none =>
      refine ⟨_, _, ?_, .refl st, h.missing hl hself hcount hn (.refl st) hs⟩
      rw [letterArg, argIfMore, hmore]
      cases cs.again <;> rfl
  | words hwords =>
      subst hs
      cases words with
      | nil =>
          obtain ⟨st', hrun, hpass, hrest⟩ :=
            run_noWord levels hwords (wantOf l) (prev + cs.given)
          refine ⟨_, st', ?_, hpass, h.missing hl hself hcount hn hpass hrest⟩
          rw [letterArg, argIfMore, hmore, if_pos rfl, StateT.run_bind, hrun]
          cases cs.again <;> rfl
      | cons w ws =>
          obtain ⟨code, st₁, hrun, hpass, hspells, hpush⟩ :=
            run_word h.ready hwords (wantOf_ne_nothing l) (prev + cs.given)
          have hready := h.ready.passes hpass
          have hlays := h.lays.mono hpass.names (Nat.le_refl n)
          have harg : (letterArg (nested (levels + 1)) l isLast prev cs).run st = StateT.run (do
              if l = .text && isLast then
                let taken ← takeArgs (nested (levels + 1)) .textView (prev + cs.given)
                  (maxArgs - (cs.given + 1)) 1
                let join := if 1 < taken.2.1 then plain .conc .text taken.2.1 else []
                return { cs with
                  code := cs.code ++ code ++ taken.1 ++ join
                  given := cs.given + 1
                  more := taken.2.2 }
              else return { cs with code := cs.code ++ code, given := cs.given + 1 }) st₁ := by
            rw [letterArg, argIfMore, hmore, if_pos rfl, StateT.run_bind, hrun]
            rfl
          rw [harg]
          dsimp only
          by_cases hjoin : (l = .text && isLast) = true
          · rw [if_pos hjoin, if_pos hjoin, hgiven]
            obtain ⟨rfl, hlast⟩ : l = .text ∧ isLast = true := by simpa using hjoin
            obtain ⟨rest, st₂, hrun', hpass', hleft', hlays'⟩ := run_takeArgs hready hspells
              Want.textView (by decide) (prev + operands.length) (maxArgs - (operands.length + 1)) 1
            have hroom := List.length_take_le (maxArgs - (operands.length + 1)) ws
            generalize hdef : maxArgs - (operands.length + 1) = room at *
            refine ⟨{ cs with
              code := cs.code ++ code ++ rest ++
                if 1 < 1 + (ws.take room).length then plain .conc .text (1 + (ws.take room).length)
                else []
              given := operands.length + 1
              more := decide (room ≤ ws.length) }, st₂, ?_, hpass.trans hpass',
              hready.passes hpass', ?_, ?_, h.absent, rfl, h.again, h.op, hleft'⟩
            · rw [StateT.run_bind, hrun']
              rfl
            · have hmax := hmax hlast
              have hjoined := Lays.joined (hpush.mono hpass'.names)
                (fun os hos => hlays' n os hos) (by unfold operandLimit maxArgs at *; omega)
                (by omega : operands.length + 1 + (ws.take room).length ≤ n)
              rw [List.append_assoc, List.append_assoc, ← List.append_assoc code]
              exact (hlays.mono hpass'.names (Nat.le_refl n)).append hjoined
            · simp [Taken.add]
          · rw [if_neg hjoin, if_neg hjoin]
            refine ⟨_, _, rfl, hpass, hready, hlays.append (.single hpush hn), ?_, h.absent, h.more,
              h.again, h.op, .words hspells⟩
            simp [Taken.add, h.given]

theorem length_take_le (self : Nat) (isLast : Bool) (l : Letter) (tk : Taken) :
    (tk.take self isLast l).operands.length ≤ tk.operands.length + 1 := by
  unfold Taken.take
  split
  · simp [Taken.add]
  · simp [Taken.add]
  · split
    · split <;> simp [Taken.add]
    · split <;> simp [Taken.add]

variable {sig : Array Letter} {self at' : Nat}

/-- A letter that takes at most one word. -/
theorem run_commandArgs_letter (h : Follows levels n e tk cs st) (hself : self < st.table.size)
    {l : Letter} (hl : l.isPlain = true) (hsig : sig[at']? = some l) (prev fuel : Nat)
    (hn : tk.operands.length < n) (hmax : at' + 1 = sig.size → maxArgs ≤ n) :
    ∃ cs' st', (commandArgs (nested (levels + 1)) sig self prev (fuel + 1) at' cs).run st =
        (commandArgs (nested (levels + 1)) sig self prev fuel (at' + 1) cs').run st' ∧
      Passes st st' ∧ Follows levels n e (tk.take self (at' + 1 == sig.size) l) cs' st' := by
  -- The letters without a word push what is known already.
  have hpushed {o : Operand} {code : Code} (hc : Pushes st.table code o) :
      Follows levels n e (tk.add o) { cs with code := cs.code ++ code, given := cs.given + 1 } st :=
    ⟨h.ready, h.lays.append (.single hc hn), by simp [Taken.add, h.given], h.absent, h.more, h.again,
      h.op, h.left⟩
  by_cases hl' : l = .self
  · subst hl'
    refine ⟨_, st, ?_, .refl st, hpushed (.ident hself)⟩
    rw [commandArgs, hsig]
  by_cases hl'' : l = .count
  · subst hl''
    have hcount : Int32.ofInt ((cs.given : Int) - cs.absent) =
        Int32.ofInt ((tk.operands.length : Int) - tk.absent) := by rw [h.given, h.absent]
    refine ⟨_, st, ?_, .refl st, hpushed (.int _)⟩
    rw [commandArgs, hsig, ← hcount]
  obtain ⟨cs', st', hrun, hpass, hfollows⟩ :=
    run_letterArg h hl hl' hl'' (at' + 1 == sig.size) prev self hn fun hlast => hmax (by simpa using hlast)
  refine ⟨cs', st', ?_, hpass, hfollows⟩
  have hstep : commandArgs (nested (levels + 1)) sig self prev (fuel + 1) at' cs = (do
      let cs ← letterArg (nested (levels + 1)) l (at' + 1 == sig.size) prev cs
      commandArgs (nested (levels + 1)) sig self prev fuel (at' + 1) cs) := by
    rw [commandArgs, hsig]
    cases l with
    | self => exact absurd rfl hl'
    | count => exact absurd rfl hl''
    | pressed | joined | all | again => cases hl
    | _ => rfl
  rw [hstep, StateT.run_bind, hrun]
  rfl

/-- Letters that take at most one word each. -/
theorem run_commandArgs_letters {ls : List Letter} (h : Follows levels n e tk cs st)
    (hself : self < st.table.size) (hls : ∀ l ∈ ls, l.isPlain = true)
    (hsig : ls <+: sig.toList.drop at') (prev fuel : Nat)
    (hn : tk.operands.length + ls.length ≤ n) (hmax : at' + ls.length = sig.size → maxArgs ≤ n) :
    ∃ cs' st', (commandArgs (nested (levels + 1)) sig self prev (fuel + ls.length) at' cs).run st =
        (commandArgs (nested (levels + 1)) sig self prev fuel (at' + ls.length) cs').run st' ∧
      Passes st st' ∧
      Follows levels n e (tk.takeAll self (at' + ls.length == sig.size) ls) cs' st' := by
  induction ls generalizing tk cs st at' with
  | nil => exact ⟨cs, st, rfl, .refl st, h⟩
  | cons l ls ih =>
      obtain ⟨hget, hsig'⟩ := Signature.front_cons hsig
      have hlength : at' + (l :: ls).length = at' + 1 + ls.length := by
        rw [List.length_cons]
        omega
      have hsize : at' + (l :: ls).length ≤ sig.size := by
        have hle := hsig.length_le
        have hlt := (Array.getElem?_eq_some_iff.mp hget).1
        have hlist : sig.toList.length = sig.size := Array.length_toList
        rw [List.length_drop] at hle
        omega
      have hlast : (at' + 1 == sig.size) = (at' + (l :: ls).length == sig.size && ls.isEmpty) := by
        cases ls with
        | nil => exact (Bool.and_true _).symm
        | cons l' ls =>
            simp only [List.length_cons] at hsize
            rw [List.isEmpty_cons, Bool.and_false, beq_eq_false_iff_ne]
            omega
      have hfinal : at' + 1 = sig.size → at' + (l :: ls).length = sig.size := fun hat => by
        have hat := beq_iff_eq.mpr hat
        rw [hlast, Bool.and_eq_true] at hat
        exact beq_iff_eq.mp hat.1
      rw [List.length_cons] at hn
      obtain ⟨cs₁, st₁, hrun, hpass, hfollows⟩ := run_commandArgs_letter h hself
        (hls l List.mem_cons_self) hget prev (fuel + ls.length) (by omega)
        (fun hat => hmax (hfinal hat))
      have hlen := length_take_le self (at' + 1 == sig.size) l tk
      obtain ⟨cs₂, st₂, hrun', hpass', hfollows'⟩ := ih hfollows
        ((hpass.names.extends .layout).lt_size hself) (fun l hl => hls l (List.mem_cons_of_mem _ hl))
        hsig' (by omega) (hlength ▸ hmax)
      refine ⟨cs₂, st₂, ?_, hpass.trans hpass', ?_⟩
      · rw [hlength]
        exact hrun.trans hrun'
      · rw [hlast, ← hlength] at hfollows'
        exact hfollows'

/-- As long as there are more words, every letter leaves an operand. -/
theorem more_take {l : Letter} (h : (tk.take self false l).more = true) :
    tk.more = true ∧ (tk.take self false l).operands.length = tk.operands.length + 1 := by
  have hadd (o : Operand) : (tk.add o).operands.length = tk.operands.length + 1 := by
    simp [Taken.add]
  by_cases hself : l = .self
  · subst hself
    exact ⟨h, hadd _⟩
  by_cases hcount : l = .count
  · subst hcount
    exact ⟨h, hadd _⟩
  rw [take_value hself hcount] at h ⊢
  split at h
  next hmore =>
    simp only [hmore, Bool.and_false]
    exact ⟨trivial, hadd _⟩
  next =>
    exfalso
    split at h <;> cases h

private theorem more_takeAll {ls : List Letter} (h : (tk.takeAll self false ls).more = true) :
    tk.more = true ∧
      (tk.takeAll self false ls).operands.length = tk.operands.length + ls.length := by
  induction ls generalizing tk with
  | nil => exact ⟨h, rfl⟩
  | cons l ls ih =>
      obtain ⟨hmore, hlen⟩ := ih h
      rw [Bool.false_and] at hmore hlen
      obtain ⟨hmore, hlen'⟩ := more_take hmore
      refine ⟨hmore, ?_⟩
      rw [Taken.takeAll, Bool.false_and, hlen, hlen', List.length_cons]
      omega

/-- A repetition goes back over its letters while there are more words and room for an operand. -/
theorem run_commandArgs_rounds {group : List Letter} (h : Follows levels n e tk cs st)
    (hself : self < st.table.size) (hsig : sig[at']? = some (.again group.length))
    (hgroup : group <+: sig.toList.drop (at' - group.length)) (hat : group.length ≤ at')
    (hpos : 0 < group.length) (hls : ∀ l ∈ group, l.isPlain = true)
    (hn : maxArgs + group.length ≤ n + 1) (prev fuel m : Nat)
    (hm : tk.more = true → maxArgs ≤ tk.operands.length + m) :
    ∃ tk' cs' st' fuel', fuel ≤ fuel' ∧
      (commandArgs (nested (levels + 1)) sig self prev (m * (group.length + 1) + fuel) at' cs).run st =
        (commandArgs (nested (levels + 1)) sig self prev fuel' at' cs').run st' ∧
      Passes st st' ∧ Taken.Rounds self group tk tk' ∧ Follows levels n e tk' cs' st' ∧
      ¬(tk'.more = true ∧ tk'.operands.length < maxArgs) := by
  induction m generalizing tk cs st with
  | zero =>
      have hstop : ¬(tk.more = true ∧ tk.operands.length < maxArgs) := fun ⟨hmore, hlt⟩ => by
        have := hm hmore
        omega
      exact ⟨tk, cs, st, _, Nat.le_add_left fuel _, rfl, .refl st, .stop hstop, h, hstop⟩
  | succ m ih =>
      by_cases hgo : tk.more = true ∧ tk.operands.length < maxArgs
      · have hstep : commandArgs (nested (levels + 1)) sig self prev
            ((m + 1) * (group.length + 1) + fuel) at' cs =
            commandArgs (nested (levels + 1)) sig self prev
              (m * (group.length + 1) + fuel + group.length) (at' - group.length)
              { cs with again := true } := by
          have hfuel : (m + 1) * (group.length + 1) + fuel =
              m * (group.length + 1) + fuel + group.length + 1 := by
            rw [Nat.succ_mul]
            omega
          rw [hfuel, commandArgs, hsig]
          dsimp only
          rw [h.more, h.given, hgo.1, decide_eq_true hgo.2]
          rfl
        have hfollows : Follows levels n e { tk with again := true } { cs with again := true } st :=
          ⟨h.ready, h.lays, h.given, h.absent, h.more, rfl, h.op, h.left⟩
        have hback : at' - group.length + group.length = at' := Nat.sub_add_cancel hat
        have hlt := (Array.getElem?_eq_some_iff.mp hsig).1
        have hfinal : (at' - group.length + group.length == sig.size) = false := by
          rw [hback, beq_eq_false_iff_ne]
          omega
        obtain ⟨cs₁, st₁, hrun, hpass, hfollows'⟩ := run_commandArgs_letters hfollows hself hls hgroup
          prev (m * (group.length + 1) + fuel) (by dsimp only; omega) (fun hend => by omega)
        rw [hfinal] at hfollows'
        rw [hback] at hrun
        obtain ⟨tk', cs', st', fuel', hle, hrun', hpass', hrounds, hfollows'', hstop⟩ :=
          ih hfollows' ((hpass.names.extends .layout).lt_size hself) fun hmore => by
            have hlen := (more_takeAll hmore).2
            have := hm hgo.1
            dsimp only at hlen
            omega
        exact ⟨tk', cs', st', fuel', hle, hstep ▸ hrun.trans hrun', hpass.trans hpass',
          .again hgo hrounds, hfollows'', hstop⟩
      · exact ⟨tk, cs, st, _, Nat.le_add_left fuel _, rfl, .refl st, .stop hgo, h, hgo⟩

/-- A repetition that does not go back drops the operands for which there is no room. -/
theorem run_commandArgs_stop (self : Nat) {g : Nat} (h : Follows levels n e tk cs st)
    (hsig : sig[at']? = some (.again g))
    (hstop : ¬(tk.more = true ∧ tk.operands.length < maxArgs)) (prev fuel : Nat) :
    ∃ cs', (commandArgs (nested (levels + 1)) sig self prev (fuel + 1) at' cs).run st =
        (commandArgs (nested (levels + 1)) sig self prev fuel (at' + 1) cs').run st ∧
      Follows levels n e { tk with operands := tk.operands.take maxArgs } cs' st := by
  have hlays : Lays st.table n (tk.operands.take maxArgs ++ tk.operands.drop maxArgs) _ _ :=
    .pops (tk.operands.drop maxArgs)
  rw [List.take_append_drop, List.length_drop, ← h.given] at hlays
  refine ⟨{ cs with
    code := cs.code ++ (List.replicate (cs.given - maxArgs) (plain .pop)).flatten
    given := cs.given - (cs.given - maxArgs) }, ?_,
    ⟨h.ready, h.lays.append hlays, ?_, h.absent, h.more, h.again, h.op, h.left⟩⟩
  · rw [commandArgs, hsig]
    dsimp only
    rw [if_neg (by simpa [h.more, h.given] using hstop)]
  · simp only [List.length_take, h.given]
    omega

/-- Repetitions one after another, none of which goes back. -/
theorem run_commandArgs_digits (self : Nat) {ds : List Nat} (h : Follows levels n e tk cs st)
    (hsig : ds.map Letter.again <+: sig.toList.drop at') (hlen : tk.operands.length ≤ maxArgs)
    (hstop : ¬(tk.more = true ∧ tk.operands.length < maxArgs)) (prev fuel : Nat) :
    ∃ cs', (commandArgs (nested (levels + 1)) sig self prev (fuel + ds.length) at' cs).run st =
        (commandArgs (nested (levels + 1)) sig self prev fuel (at' + ds.length) cs').run st ∧
      Follows levels n e tk cs' st := by
  induction ds generalizing cs at' with
  | nil => exact ⟨cs, rfl, h⟩
  | cons d ds ih =>
      obtain ⟨hget, hsig'⟩ := Signature.front_cons hsig
      obtain ⟨cs₁, hrun, hfollows⟩ := run_commandArgs_stop self h hget hstop prev
        (fuel + ds.length)
      rw [List.take_of_length_le hlen] at hfollows
      obtain ⟨cs₂, hrun', hfollows'⟩ := ih hfollows hsig'
      have hlength : at' + (d :: ds).length = at' + 1 + ds.length := by
        rw [List.length_cons]
        omega
      rw [hlength]
      exact ⟨cs₂, hrun.trans hrun', hfollows'⟩

/-- The operation that calls a command with all words that are left. -/
def restOp (l : Letter) : Op := if l = .joined then .comJoined else .comAll

/-- The operands with as many of the words that are left as there is room for. -/
def Taken.rest (tk : Taken) : List Operand :=
  tk.operands ++ (tk.words.take (maxArgs - tk.operands.length)).map (wordOperand .anyView)

/-- A letter that takes all words that are left ends the call. -/
theorem run_commandArgs_rest (self : Nat) {l : Letter} (h : Follows levels n e tk cs st)
    (hl : l.takesAll = true) (hsig : sig[at']? = some l) (hlen : tk.operands.length ≤ maxArgs)
    (hn : maxArgs ≤ n) (prev fuel : Nat) :
    ∃ code words more st',
      (commandArgs (nested (levels + 1)) sig self prev (fuel + 1) at' cs).run st =
        ((code ++ [.instr (.call (restOp l) .null tk.rest.length self)], more), st') ∧
      Passes st st' ∧ Lays st'.table n [] code tk.rest ∧ Left e words more st'.cursor.rest := by
  have hstep : commandArgs (nested (levels + 1)) sig self prev (fuel + 1) at' cs = (do
      let taken ← restOfArgs (nested (levels + 1)) prev cs.given cs.more
      return (cs.code ++ taken.1 ++ [.instr (.call (restOp l) .null taken.2.1 self)],
        taken.2.2)) := by
    rw [commandArgs, hsig]
    cases l with
    | joined => rfl
    | all => rfl
    | _ => cases hl
  have hleft := h.left
  generalize hs : st.cursor.rest = s at hleft
  generalize hwords : tk.words = ws at hleft
  generalize hmore : tk.more = more at hleft
  cases hleft with
  | none =>
      have hrest : tk.rest = tk.operands := by
        rw [Taken.rest, hwords]
        simp
      refine ⟨cs.code ++ [], [], false, st, ?_, .refl st, ?_, hs ▸ .none⟩
      · rw [hstep, restOfArgs, h.more, hmore, h.given, hrest, if_neg Bool.false_ne_true]
        rfl
      · rw [List.append_nil, hrest]
        exact h.lays
  | words hspells =>
      subst hs
      obtain ⟨code, st', hrun, hpass, hleft', hlays⟩ := run_takeArgs h.ready hspells
        Want.anyView (by decide) prev (maxArgs - tk.operands.length) tk.operands.length
      have hcount := List.length_take_le (maxArgs - tk.operands.length) ws
      have hrest : tk.rest = tk.operands ++
          (ws.take (maxArgs - tk.operands.length)).map (wordOperand .anyView) := by
        rw [Taken.rest, hwords]
      have hlength : tk.rest.length =
          tk.operands.length + (ws.take (maxArgs - tk.operands.length)).length := by
        rw [hrest, List.length_append, List.length_map]
      refine ⟨cs.code ++ code, _, _, st', ?_, hpass, ?_, hleft'⟩
      · rw [hstep, restOfArgs, h.more, hmore, h.given, if_pos rfl, StateT.run_bind, hrun, hlength]
        rfl
      · rw [hrest]
        exact (h.lays.mono hpass.names (Nat.le_refl n)).append (hlays n _ (by omega))

end Letters

/-- Letters outside a repetition leave an operand each. -/
theorem length_take (self : Nat) (isLast : Bool) (l : Letter) {tk : Taken} (h : tk.again = false) :
    (tk.take self isLast l).operands.length = tk.operands.length + 1 ∧
      (tk.take self isLast l).again = false := by
  have hadd (o : Operand) : (tk.add o).operands.length = tk.operands.length + 1 := by
    simp [Taken.add]
  by_cases hself : l = .self
  · subst hself
    exact ⟨hadd _, h⟩
  by_cases hcount : l = .count
  · subst hcount
    exact ⟨hadd _, h⟩
  rw [take_value hself hcount]
  split
  · split <;> exact ⟨hadd _, h⟩
  · rw [h, if_neg Bool.false_ne_true]
    exact ⟨hadd _, h⟩

theorem length_takeAll (self : Nat) (final : Bool) (ls : List Letter) (tk : Taken)
    (h : tk.again = false) :
    (tk.takeAll self final ls).operands.length = tk.operands.length + ls.length := by
  induction ls generalizing tk with
  | nil => rfl
  | cons l ls ih =>
      obtain ⟨hlen, hagain⟩ := length_take self (final && ls.isEmpty) l h
      rw [Taken.takeAll, ih _ hagain, hlen, List.length_cons]
      omega

/-- The operands that a command is called with for literal words, and the operation. -/
inductive Called (self : Nat) (ws : List Bytes) : Signature → Op → List Operand → Prop
  | fixed {pre : Signature} (hp : ∀ l ∈ pre, l.isPlain = true) :
      Called self ws pre .com (Taken.takeAll self true pre { words := ws }).operands
  | pressed {pre : Signature} (hp : ∀ l ∈ pre, l.isPlain = true) :
      Called self ws (pre ++ [.pressed]) .comPressed
        (Taken.takeAll self false pre { words := ws }).operands
  | rest {pre : Signature} {l : Letter} (hp : ∀ l ∈ pre, l.isPlain = true)
      (hl : l.takesAll = true) :
      Called self ws (pre ++ [l]) (restOp l) (Taken.takeAll self false pre { words := ws }).rest
  | again {pre : Signature} {g : Nat} {ds : List Nat} {l : Letter} {tk : Taken}
      (hp : ∀ l ∈ pre, l.isPlain = true) (hl : l.takesAll = true)
      (hr : Taken.Rounds self (pre.drop (pre.length - g))
        (Taken.takeAll self false pre { words := ws }) tk) :
      Called self ws (pre ++ .again g :: ds.map .again ++ [l]) (restOp l)
        { tk with operands := tk.operands.take maxArgs }.rest

/-- The instruction that calls a command with operands. -/
def callInstr (op : Op) (n self : Nat) : Instr :=
  if op = .com ∨ op = .comPressed then .plain op .null self else .call op .null n self

private theorem callInstr_rest (l : Letter) (n self : Nat) :
    callInstr (restOp l) n self = .call (restOp l) .null n self := by
  refine if_neg ?_
  unfold restOp
  split <;> decide

theorem groupSize_plain {pre : Signature} (hp : ∀ l ∈ pre, l.isPlain = true) (tail : Signature) :
    Signature.groupSize (pre ++ tail) = tail.groupSize := by
  induction pre with
  | nil => rfl
  | cons l pre ih =>
      have hl := hp l List.mem_cons_self
      cases l with
      | pressed | joined | all | again => cases hl
      | _ => exact ih fun l hl => hp l (List.mem_cons_of_mem _ hl)

/-- From the first repetition on: its group takes words as often as it can, further repetitions do
nothing, and the last letter takes what is left. -/
theorem run_commandArgs_again {levels n self g : Nat} {e : Bytes} {tk : Taken} {cs : CallState}
    {st : State} {pre : Signature} {ds : List Nat} {l : Letter} (h : Follows levels n e tk cs st)
    (hself : self < st.table.size) (hp : ∀ l ∈ pre, l.isPlain = true) (hpos : 0 < g)
    (hg : g ≤ pre.length) (hl : l.takesAll = true) (hn : maxArgs ≤ n)
    (hgroup : maxArgs + g ≤ n + 1) (prev fuel : Nat) :
    ∃ tk' code words more st',
      (commandArgs (nested (levels + 1)) (pre ++ Letter.again g :: ds.map .again ++ [l]).toArray self
        prev (25 * (g + 1) + (fuel + 1 + ds.length + 1)) pre.length cs).run st =
        ((code ++ [.instr (.call (restOp l) .null
          { tk' with operands := tk'.operands.take maxArgs }.rest.length self)], more), st') ∧
      Passes st st' ∧
      Lays st'.table n [] code { tk' with operands := tk'.operands.take maxArgs }.rest ∧
      Taken.Rounds self (pre.drop (pre.length - g)) tk tk' ∧ Left e words more st'.cursor.rest := by
  have hsize : g = (pre.drop (pre.length - g)).length := by
    rw [List.length_drop]
    omega
  generalize hsig : (pre ++ Letter.again g :: ds.map .again ++ [l]).toArray = sig
  obtain ⟨hget, hdrop, hdigits, hlast⟩ := Signature.again_places pre g ds l hsig
  obtain ⟨tk', cs₂, st₂, fuel', hle, hrun₂, hpass₂, hrounds, h₂, hstop⟩ :=
    run_commandArgs_rounds h hself (hsize ▸ hget) (hsize ▸ hdrop) (hsize ▸ hg) (hsize ▸ hpos)
      (fun l hl => hp l (List.mem_of_mem_drop hl)) (hsize ▸ hgroup) prev (fuel + 1 + ds.length + 1)
      25 fun _ => Nat.le_add_left ..
  rw [← hsize] at hrun₂
  obtain ⟨fuel', rfl⟩ : ∃ k, fuel' = k + 1 + ds.length + 1 :=
    ⟨fuel' - (1 + ds.length + 1), by omega⟩
  obtain ⟨cs₃, hrun₃, h₃⟩ := run_commandArgs_stop self h₂ hget hstop prev (fuel' + 1 + ds.length)
  have hmin : (tk'.operands.take maxArgs).length ≤ maxArgs := List.length_take_le ..
  obtain ⟨cs₄, hrun₄, h₄⟩ := run_commandArgs_digits self h₃ hdigits hmin
    (fun ⟨hmore, hlt⟩ => hstop ⟨hmore, by
      rw [List.length_take] at hlt
      omega⟩) prev (fuel' + 1)
  obtain ⟨code, words, more, st', hrun₅, hpass₅, hlays, hleft⟩ := run_commandArgs_rest self h₄ hl
    hlast hmin hn prev fuel'
  exact ⟨tk', code, words, more, st', hrun₂.trans (hrun₃.trans (hrun₄.trans hrun₅)),
    hpass₂.trans hpass₅, hlays, hrounds, hleft⟩

/-- A command call with literal words is compiled to code of its operands and the call. -/
theorem run_commandArgs {levels n self : Nat} {e : Bytes} {ws : List Bytes} {st : State}
    {sig : Signature} (hsig : sig.Built) (hslots : sig.slots ≤ maxArgs) (hst : Ready levels st)
    (hself : self < st.table.size) (hws : Spells ws st.cursor.rest e) (hn : maxArgs ≤ n)
    (hgroup : maxArgs + sig.groupSize ≤ n + 1) (prev : Nat) :
    ∃ code op os words more st',
      (commandArgs (nested (levels + 1)) sig.toArray self prev ((sig.length + 2) * (maxArgs + 2)) 0
        {}).run st = ((code ++ [.instr (callInstr op os.length self)], more), st') ∧
      Passes st st' ∧ Lays st'.table n [] code os ∧ Called self ws sig op os ∧
      Left e words more st'.cursor.rest := by
  have hstart : Follows levels n e { words := ws } {} st :=
    ⟨hst, .nil, rfl, rfl, rfl, rfl, rfl, .words hws⟩
  -- The letters with an argument each come first, whatever follows them.
  have hletters {pre tail : Signature} (hpre : sig = pre ++ tail)
      (hp : ∀ l ∈ pre, l.isPlain = true) (hlen : pre.length ≤ n) (fuel : Nat) :
      ∃ cs st', (commandArgs (nested (levels + 1)) sig.toArray self prev (fuel + pre.length) 0
          {}).run st =
          (commandArgs (nested (levels + 1)) sig.toArray self prev fuel pre.length cs).run st' ∧
        Passes st st' ∧
        Follows levels n e (Taken.takeAll self tail.isEmpty pre { words := ws }) cs st' := by
    have hprefix : pre <+: sig.toArray.toList.drop 0 := ⟨tail, by simp [hpre]⟩
    obtain ⟨cs, st', hrun, hpass, h⟩ := run_commandArgs_letters hstart hself hp hprefix prev fuel
      (by simpa using hlen) fun _ => hn
    have hfinal : (0 + pre.length == sig.toArray.size) = tail.isEmpty := by
      cases tail <;> simp [hpre]
    rw [hfinal] at h
    rw [Nat.zero_add] at hrun
    exact ⟨cs, st', hrun, hpass, h⟩
  have hfuel {k : Nat} (hk : k ≤ 25 * sig.length + 27) :
      ∃ fuel, (sig.length + 2) * (maxArgs + 2) = fuel + k :=
    ⟨(sig.length + 2) * (maxArgs + 2) - k, by unfold maxArgs; omega⟩
  cases hsig with
  | fixed hp hl =>
      obtain ⟨fuel, hfuel⟩ := hfuel (k := 1 + sig.length) (by omega)
      obtain ⟨cs, st', hrun, hpass, h⟩ := hletters (List.append_nil sig).symm hp
        (by unfold maxDeclared maxArgs at *; omega) (fuel + 1)
      refine ⟨cs.code, .com, _, _, _, st', ?_, hpass, h.lays, .fixed hp, h.left⟩
      rw [hfuel, ← Nat.add_assoc, hrun, commandArgs, Array.getElem?_eq_none (by simp), h.op, h.more]
      rfl
  | @pressed pre hp hl =>
      obtain ⟨fuel, hfuel⟩ := hfuel (k := 2 + pre.length) (by simp; omega)
      obtain ⟨cs, st', hrun, hpass, h⟩ := hletters rfl hp
        (by unfold maxDeclared maxArgs at *; omega) (fuel + 2)
      refine ⟨cs.code, .comPressed, _, _, _, st', ?_, hpass, h.lays, .pressed hp, h.left⟩
      have hget : (pre ++ [Letter.pressed]).toArray[pre.length]? = some .pressed := by simp
      have hend : (pre ++ [Letter.pressed]).toArray[pre.length + 1]? = none := by simp
      rw [hfuel, ← Nat.add_assoc, hrun, commandArgs, hget]
      dsimp only
      rw [commandArgs, hend, h.more]
      rfl
  | @rest pre l hp hl =>
      have hlen : pre.length ≤ maxArgs := by
        rw [Signature.slots, List.countP_append, ← Signature.slots, slots_of_plain hp] at hslots
        omega
      obtain ⟨fuel, hfuel⟩ := hfuel (k := 1 + pre.length) (by simp; omega)
      obtain ⟨cs, st₁, hrun, hpass, h⟩ := hletters rfl hp (by omega) (fuel + 1)
      have hcount := length_takeAll self false pre { words := ws } rfl
      have hget : (pre ++ [l]).toArray[pre.length]? = some l := by simp
      obtain ⟨code, words, more, st', hrun', hpass', hlays, hleft⟩ := run_commandArgs_rest self h hl
        hget (by simpa [hcount] using hlen) hn prev fuel
      refine ⟨code, restOp l, _, words, more, st', ?_, hpass.trans hpass', hlays, .rest hp hl, hleft⟩
      rw [hfuel, ← Nat.add_assoc, hrun, hrun', callInstr_rest]
  | @again pre g ds l hp hpos hmax hg hl =>
      have hpre : pre ++ Letter.again g :: ds.map .again ++ [l] =
          pre ++ (Letter.again g :: ds.map .again ++ [l]) := List.append_assoc ..
      have hlen : pre.length ≤ maxArgs := by
        rw [hpre, Signature.slots, List.countP_append, ← Signature.slots, slots_of_plain hp] at hslots
        omega
      rw [hpre, groupSize_plain hp] at hgroup
      obtain ⟨fuel, hfuel⟩ := hfuel (k := 25 * (g + 1) + (1 + ds.length + 1) + pre.length)
        (by simp; omega)
      obtain ⟨cs, st₁, hrun, hpass, h⟩ := hletters hpre hp (by omega)
        (25 * (g + 1) + (fuel + 1 + ds.length + 1))
      obtain ⟨tk, code, words, more, st', hrun', hpass', hlays, hrounds, hleft⟩ :=
        run_commandArgs_again h ((hpass.names.extends .layout).lt_size hself) hp hpos hg hl hn hgroup
          prev fuel
      refine ⟨code, restOp l, _, words, more, st', ?_, hpass.trans hpass', hlays,
        .again hp hl hrounds, hleft⟩
      rw [hfuel, callInstr_rest, ← hrun', ← hrun]
      congr 2
      omega

end ConsoleScript.Compile
