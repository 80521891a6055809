import Mathlib.Data.List.Induction
import ConsoleScript.Proofs.Code.Kinds
import ConsoleScript.Proofs.Compile.Arguments
import ConsoleScript.Proofs.Compile.Signatures

/-!
What the code of arguments and of command calls makes of what is known of the operands. An argument
is of the kind that it is compiled for, and so is what stands in for a missing one; a command with a
fixed signature is therefore called with what its letters declare. Of other commands it is only shown
that their code leaves no operand behind, however often its letters are repeated.
-/

namespace ConsoleScript

open Bytecode

/-- Every command of a table was registered with a signature that is accepted. -/
def Table.Declares (t : Table) : Prop :=
  ∀ i sig, t.form? .operands i = some (.command sig) → ∃ text, Signature.parse text = .ok sig

theorem Table.Names.declares {t t' : Table} (h : t.Names t') (ht : t.Declares) : t'.Declares := by
  induction h with
  | refl => exact ht
  | push _ name ih =>
      intro i sig hf
      rw [form?, get?_push] at hf
      split at hf
      · cases hf
      · exact ih i sig hf

namespace Compile

/-- A step that begins with a given table of declared commands ends with what satisfies a
condition. -/
def Declaring {α : Type} (t : Table) (m : CompileM α) (P : Table → α → Prop) : Prop :=
  t.Founded .layout → t.Declares → ∀ s : State, s.table = t → s.cursor.rest.length < operandLimit →
    (m.run s).2.cursor.rest.length < operandLimit ∧ t.Names (m.run s).2.table ∧
      P (m.run s).2.table (m.run s).1

section Judgement

variable {α β : Type} {t : Table} {m m' : CompileM α} {P Q : Table → α → Prop}

theorem Declaring.of_gives (h : Gives .layout t m P) : Declaring t m P :=
  fun hf _ => h ⟨hf, absurd rfl⟩

theorem Declaring.pure {a : α} (h : P t a) : Declaring t (Pure.pure a) P := .of_gives (.pure h)

theorem Declaring.bind {f : α → CompileM β} {R : Table → β → Prop} (hm : Declaring t m P)
    (hf : ∀ t' a, t.Names t' → P t' a → Declaring t' (f a) R) : Declaring t (m >>= f) R := by
  intro hfound hd s hs hc
  obtain ⟨hc', he, ha⟩ := hm hfound hd s hs hc
  obtain ⟨hc'', he', hb⟩ :=
    hf _ _ he ha (hfound.mono (he.extends .layout)) (he.declares hd) _ rfl hc'
  exact ⟨hc'', he.trans he', hb⟩

theorem Declaring.mono (hm : Declaring t m P) (h : ∀ t' a, t.Names t' → P t' a → Q t' a) :
    Declaring t m Q := by
  intro hfound hd s hs hc
  obtain ⟨hc', he, ha⟩ := hm hfound hd s hs hc
  exact ⟨hc', he, h _ _ he ha⟩

theorem Declaring.ite {c : Prop} [Decidable c] (h : c → Declaring t m P)
    (h' : ¬c → Declaring t m' P) : Declaring t (if c then m else m') P := by
  split
  · exact h ‹_›
  · exact h' ‹_›

theorem Declaring.after {f : α → CompileM β} {R : Table → β → Prop} (hm : Gives .layout t m P)
    (hf : ∀ t' a, t.Names t' → P t' a → Declaring t' (f a) R) : Declaring t (m >>= f) R :=
  (Declaring.of_gives hm).bind hf

theorem Declaring.withDeclared (h : t.Declares → Declaring t m P) : Declaring t m P :=
  fun hfound hd => h hd hfound hd

theorem Declaring.withText {text : Bytes} (htext : text.length < operandLimit) (name : Bytes)
    (line : Nat) (hm : Declaring t m P) : Declaring t (withText text name line m) P := by
  intro hfound hd s hs hc
  obtain ⟨-, he, ha⟩ := hm hfound hd { s with cursor := { rest := text, line, name } } hs htext
  exact ⟨hc, he, ha⟩

theorem kinds_roleOf {i : Nat} (hi : i < t.size) : Declaring t (roleOf i) fun t' role =>
    t'.form? .operands i = some (role.form .operands) := by
  refine .after (gives_get .layout t (P := fun t' s => s.table = t') fun _ hs _ => hs)
    fun t' s he hs => .pure ?_
  obtain ⟨f, hf⟩ := Table.exists_form? .operands ((he.extends .layout).lt_size hi)
  rw [hs]
  unfold Table.form? at hf ⊢
  cases hid : t'.get? i with
  | none => rw [hid] at hf; cases hf
  | some id => rfl

end Judgement

/-- Code of an argument that is of the kind it was compiled for. -/
def ArgKinded (t : Table) (want : Want) (code : Code) : Prop :=
  ∀ ks, Kinded t code ks (want.onto ks)

/-- Code that leaves the operands as they are. -/
def StatementKinded (t : Table) (code : Code) : Prop := ∀ ks, Kinded t code ks ks

/-- Code that leaves so many operands, whatever they are. -/
def Leaves (t : Table) (code : Code) (n : Nat) : Prop :=
  ∃ ps : Kinds, ps.length = n ∧ ∀ ks, Kinded t code ks (ps ++ ks)

/-- Code that leaves arguments for letters. -/
def Declared (t : Table) (self : Nat) (letters : Signature) (code : Code) : Prop :=
  ∃ ps : Kinds, ps.length = letters.length ∧ (∀ ks, Kinded t code ks (ps ++ ks)) ∧
    ∀ vs, ps.Fit vs → letters.Admits self vs.reverse

def HeadKinded (t : Table) : Head → Prop
  | .bare name => name.length < operandLimit
  | .computed code => ArgKinded t .head code

section Pieces

variable {t t' : Table} {want : Want} {code code' : Code} {n n' : Nat} {q : Value → Prop}

theorem ArgKinded.mono (h : ArgKinded t want code) (ht : t.Names t') : ArgKinded t' want code :=
  fun ks => (h ks).mono (ht.extends .operands)

theorem StatementKinded.mono (h : StatementKinded t code) (ht : t.Names t') :
    StatementKinded t' code :=
  fun ks => (h ks).mono (ht.extends .operands)

theorem Leaves.mono (h : Leaves t code n) (ht : t.Names t') : Leaves t' code n := by
  obtain ⟨ps, hn, hc⟩ := h
  exact ⟨ps, hn, fun ks => (hc ks).mono (ht.extends .operands)⟩

theorem Declared.mono {self : Nat} {letters : Signature} (h : Declared t self letters code)
    (ht : t.Names t') : Declared t' self letters code := by
  obtain ⟨ps, hn, hc, hfit⟩ := h
  exact ⟨ps, hn, fun ks => (hc ks).mono (ht.extends .operands), hfit⟩

theorem HeadKinded.mono {head : Head} (h : HeadKinded t head) (ht : t.Names t') :
    HeadKinded t' head := by
  cases head with
  | bare name => exact h
  | computed code => exact ArgKinded.mono h ht

theorem StatementKinded.nil : StatementKinded t [] := fun _ => .nil

theorem StatementKinded.append (h : StatementKinded t code) (h' : StatementKinded t code') :
    StatementKinded t (code ++ code') :=
  fun ks => (h ks).append (h' ks)

theorem Leaves.nil : Leaves t [] 0 := ⟨[], rfl, fun _ => .nil⟩

theorem Leaves.append (h : Leaves t code n) (h' : Leaves t code' n') :
    Leaves t (code ++ code') (n + n') := by
  obtain ⟨ps, rfl, hc⟩ := h
  obtain ⟨ps', rfl, hc'⟩ := h'
  refine ⟨ps' ++ ps, by rw [List.length_append, Nat.add_comm], fun ks => ?_⟩
  rw [List.append_assoc]
  exact (hc ks).append (hc' (ps ++ ks))

theorem Leaves.one (h : ∀ ks, Kinded t code ks (q :: ks)) : Leaves t code 1 := ⟨[q], rfl, h⟩

theorem ArgKinded.leaves (h : ArgKinded t want code) (hw : want ≠ .nothing) : Leaves t code 1 :=
  .one fun ks => want.onto_eq hw ks ▸ h ks

theorem Leaves.taken (h : Leaves t code n)
    (h' : ∀ ps : Kinds, ps.length = n → ∀ ks, Kinded t code' (ps ++ ks) ks) :
    StatementKinded t (code ++ code') := by
  obtain ⟨ps, hn, hc⟩ := h
  exact fun ks => (hc ks).append (h' ps hn ks)

theorem kinded_plain {op : Op} {ret : RetTag} {ps qs : Kinds} (hi : Shift t op ret n ps qs)
    (ks : Kinds) : Kinded t (plain op ret n) (ps ++ ks) (qs ++ ks) :=
  .plain hi .nil

theorem kinded_drops {op : Op} {ret : RetTag} {m : Nat} {ps : Kinds} (hop : op.drops? = some m)
    (hps : ps.length = m) (ks : Kinds) : Kinded t (plain op ret n) (ps ++ ks) ks :=
  kinded_plain (.drops (hps ▸ hop)) ks

theorem kinded_push {op : Op} {ret : RetTag} {q : Value → Prop} (hi : Shift t op ret n [] [q])
    (ks : Kinds) : Kinded t (plain op ret n) ks (q :: ks) :=
  kinded_plain hi ks

theorem kinded_turn {op : Op} {ret : RetTag} {p q : Value → Prop} (hi : Shift t op ret n [p] [q])
    (ks : Kinds) : Kinded t (plain op ret n) (p :: ks) (q :: ks) :=
  kinded_plain hi ks

theorem kinded_drop {op : Op} {ret : RetTag} {p : Value → Prop} (hop : op.drops? = some 1)
    (ks : Kinds) : Kinded t (plain op ret n) (p :: ks) ks := by
  have hdrops : Shift t op ret n [p] [] := .drops hop
  exact kinded_plain hdrops ks

theorem kinded_null (hq : q .null) (ks : Kinds) : Kinded t nullCode ks (q :: ks) := by
  refine .literal .null (fun l hl => ?_) .nil
  cases l <;> first | exact hq | cases hl

theorem kinded_int (hq : ∀ n, q (.int n)) (i : Int32) (ks : Kinds) :
    Kinded t (intCode i) ks (q :: ks) := by
  have hlit : (Instr.ofInt i).lit = .int i := by
    unfold Instr.ofInt
    split <;> rfl
  refine .literal (.int i) (fun l hl => ?_) .nil
  rw [hlit] at hl
  cases l <;> first | exact hq _ | cases hl

theorem kinded_float (hq : ∀ x, q (.float x)) (x : Single) (ks : Kinds) :
    Kinded t (floatCode x) ks (q :: ks) := by
  have hlit : (Instr.ofFloat x).lit = .float x := by
    unfold Instr.ofFloat
    split <;> rfl
  refine .literal (.float x) (fun l hl => ?_) .nil
  rw [hlit] at hl
  cases l <;> first | exact hq _ | cases hl

theorem kinded_text (hq : ∀ kind s, q (.text kind s)) {s : Bytes} (hs : s.length < operandLimit)
    (ks : Kinds) : Kinded t (textCode s) ks (q :: ks) := by
  have hlit : (Instr.ofText s).lit = .text s := by
    unfold Instr.ofText
    split <;> rfl
  refine .literal (.text s hs) (fun l hl => ?_) .nil
  rw [hlit] at hl
  cases l <;> first | exact hq _ _ | cases hl

theorem kinded_view (hq : ∀ kind s, q (.text kind s)) {s : Bytes} (hs : s.length < operandLimit)
    (ks : Kinds) : Kinded t (viewCode s) ks (q :: ks) := by
  refine .literal (.view s hs) (fun l hl => ?_) .nil
  cases l <;> first | exact hq _ _ | cases hl

theorem kinded_identCode {i : Nat} (hq : ∀ j, (i < t.size → j = i) → q (.ident j)) (ks : Kinds) :
    Kinded t (identCode i) ks (q :: ks) := by
  refine kinded_push (.ident ?_ hq) ks
  split
  · exact .inr rfl
  · exact .inl rfl

theorem kinded_blockLiteral {body : Code} (hb : Kinded t body [] []) (hq : ∀ b pc, q (.code b pc))
    (ks : Kinds) : Kinded t (literal body) ks (q :: ks) := by
  unfold literal
  split
  · exact kinded_push (.empty hq) ks
  · exact .block hb hq .nil

theorem kinded_spill {body : Code} {ret : RetTag} (hb : StatementKinded t body)
    (hq : ∀ v : Value, v.Tagged ret → q v) (ks : Kinds) :
    Kinded t [.spill body ret] ks (q :: ks) :=
  .spill (hb []) hq .nil

theorem kinded_blockTextCode (view : Bool) (hq : ∀ kind s, q (.text kind s)) {s : Bytes}
    (hs : s.length < operandLimit) (ks : Kinds) : Kinded t (blockTextCode view s) ks (q :: ks) := by
  have hlen := Nat.lt_of_le_of_lt (length_blockText .plain s) hs
  unfold blockTextCode
  split
  · exact kinded_view hq hlen ks
  · exact kinded_text hq hlen ks

/-- What stands in for a missing argument is what its letter declares. -/
theorem kinded_missingArg {l : Letter} (hl : l.isPlain = true) (hself : l ≠ .self)
    (hcount : l ≠ .count) (self : Nat) {given : Nat} {ks : Kinds} (hks : given = 0 ∨ ks ≠ []) :
    Kinded t (missingArg l given) ks (l.Admits self :: ks) := by
  cases l with
  | int | intOrLeast => exact kinded_int (fun n => ⟨n, rfl⟩) _ ks
  | float => exact kinded_float (fun x => ⟨x, rfl⟩) _ ks
  | floatOrPrevious =>
      change Kinded t (floatAgain given) ks _
      unfold floatAgain
      split
      next => exact kinded_float (fun x => ⟨x, rfl⟩) _ ks
      next hg =>
        rw [beq_iff_eq] at hg
        cases ks with
        | nil =>
            rcases hks with h | h
            · exact absurd h hg
            · exact absurd rfl h
        | cons p ks => 
            have hdup : Shift t .dup .float 0 [p] [Letter.Admits self .floatOrPrevious, p] :=
              .dup fun _ hv => hv
            exact kinded_plain hdup ks
  | text => exact kinded_view (fun kind s => ⟨kind, s, rfl⟩) (by decide) ks
  | ownText => exact kinded_text (fun kind s => ⟨kind, s, rfl⟩) (by decide) ks
  | any | anyOrNull => exact kinded_null trivial ks
  | condition => exact kinded_null (q := Letter.Admits self .condition) rfl ks
  | code => exact kinded_blockLiteral .nil (fun b pc => ⟨b, pc, rfl⟩) ks
  | ident => exact kinded_identCode (fun i _ => ⟨i, rfl⟩) ks
  | self => exact absurd rfl hself
  | count => exact absurd rfl hcount
  | pressed | joined | all | again _ => cases hl

private theorem gives_eq_admits {l : Letter} (hl : l.isPlain = true) (hself : l ≠ .self)
    (hcount : l ≠ .count) (self : Nat) : (wantOf l).Gives = l.Admits self := by
  cases l with
  | self => exact absurd rfl hself
  | count => exact absurd rfl hcount
  | pressed | joined | all | again _ => cases hl
  | _ => rfl

end Pieces

section Letters

variable {t : Table} {self : Nat} {letters pre : Signature} {l : Letter} {code code' : Code} {n : Nat}

/-- One more letter with its argument. -/
theorem Declared.concat (h : Declared t self letters code)
    (h' : ∀ ks, letters.length = 0 ∨ ks ≠ [] → Kinded t code' ks (l.Admits self :: ks)) :
    Declared t self (letters ++ [l]) (code ++ code') := by
  obtain ⟨ps, hn, hc, hfit⟩ := h
  refine ⟨l.Admits self :: ps, by simp [hn], fun ks => (hc ks).append (h' _ ?_), fun vs hvs => ?_⟩
  · rw [← hn]
    cases ps with
    | nil => exact .inl rfl
    | cons p ps => exact .inr (List.cons_ne_nil _ _)
  · cases hvs with
    | cons hv hvs =>
        rw [List.reverse_cons]
        exact List.rel_append (hfit _ hvs) (.cons hv .nil)

theorem Leaves.concat (h : Leaves t code n) {q : Value → Prop}
    (h' : ∀ ks, n = 0 ∨ ks ≠ [] → Kinded t code' ks (q :: ks)) :
    Leaves t (code ++ code') (n + 1) := by
  obtain ⟨ps, rfl, hc⟩ := h
  refine ⟨q :: ps, rfl, fun ks => (hc ks).append (h' _ ?_)⟩
  cases ps with
  | nil => exact .inl rfl
  | cons p ps => exact .inr (List.cons_ne_nil _ _)

theorem Declared.called {sig : Signature} {ret : RetTag}
    (hf : t.form? .operands self = some (.command sig)) (hp : ∀ l ∈ sig, l.isPlain = true)
    (h : Declared t self sig code) : StatementKinded t (code ++ plain .com ret self) := by
  obtain ⟨ps, hn, hc, hfit⟩ := h
  intro ks
  refine (hc ks).append (kinded_plain (.com hf (hn.trans (slots_of_plain hp).symm) ?_) ks)
  intro sig' heq _ vs hvs
  cases heq
  exact hfit vs hvs

theorem Declared.called_pressed {ret : RetTag} (hp : ∀ l ∈ pre, l.isPlain = true)
    (hf : t.form? .operands self = some (.command (pre ++ [.pressed])))
    (h : Declared t self pre code) : StatementKinded t (code ++ plain .comPressed ret self) := by
  have hslots : Signature.slots (pre ++ [.pressed]) = pre.length + 1 := by
    rw [Signature.slots, List.countP_append, ← Signature.slots, slots_of_plain hp]
    rfl
  obtain ⟨ps, hn, hc, hfit⟩ := h
  intro ks
  refine (hc ks).append (kinded_plain (.comPressed hf (by rw [hn]; exact hslots.symm) ?_) ks)
  intro sig' heq _ vs hvs
  cases heq
  exact List.rel_append (hfit vs hvs) (.cons rfl .nil)

theorem Leaves.called {op : Op} {ret : RetTag} {f : Form} (ho : op = .comAll ∨ op = .comJoined)
    (hf : t.form? .operands self = some f) (hsig : ∀ sig, f = .command sig → ¬sig.IsFixed)
    (h : Leaves t code n) : StatementKinded t (code ++ [.instr (.call op ret n self)]) :=
  h.taken fun _ hps _ => .call (.inr (.inr ⟨ho, f, hf, hsig⟩)) hps .nil

theorem not_isFixed_of_takesAll (hl : l.takesAll = true) : ¬Signature.IsFixed (pre ++ [l]) := by
  intro h
  have hslot := h l (List.mem_append_right pre List.mem_cons_self)
  cases l with
  | joined | all => exact Bool.false_ne_true hslot
  | _ => exact Bool.false_ne_true hl

theorem kinded_self (hself : self < t.size) (ks : Kinds) :
    Kinded t (identCode self) ks (Letter.Admits self .self :: ks) :=
  kinded_identCode (q := Letter.Admits self .self) (fun _ h => congrArg Value.ident (h hself)) ks

theorem kinded_lookupArg (hl : l.isPlain = true) (hself : self < t.size) {given : Nat} {ks : Kinds}
    (hks : given = 0 ∨ ks ≠ []) :
    Kinded t (lookupArg l self given) ks (l.Admits self :: ks) := by
  cases l with
  | self => exact kinded_self hself ks
  | count => exact kinded_int (fun n => ⟨n, rfl⟩) _ ks
  | pressed | joined | all | again _ => cases hl
  | _ => exact kinded_missingArg hl (by decide) (by decide) self hks

theorem lookupArgs_concat (letters : Signature) (l : Letter) (self : Nat) :
    lookupArgs (letters ++ [l]) self = addLookupArg self (lookupArgs letters self) l := by
  rw [lookupArgs, List.foldl_append]
  rfl

theorem declared_lookupArgs (hself : self < t.size) (hp : ∀ l ∈ letters, l.isPlain = true) :
    (lookupArgs letters self).2 = letters.length ∧
      Declared t self letters (lookupArgs letters self).1 := by
  induction letters using List.reverseRecOn with
  | nil => exact ⟨rfl, [], rfl, fun _ => .nil, fun vs hvs => by cases hvs; exact .nil⟩
  | append_singleton letters l ih =>
      obtain ⟨hn, hc⟩ := ih fun l hl => hp l (List.mem_append_left _ hl)
      have hl := hp l (List.mem_append_right _ List.mem_cons_self)
      have hslot : l.isSlot = true := (Bool.and_eq_true_iff.mp hl).1
      rw [lookupArgs_concat]
      refine ⟨?_, hc.concat fun ks hks => kinded_lookupArg hl hself (hn ▸ hks)⟩
      simp [addLookupArg, hslot, hn]

theorem leaves_lookupArgs (hself : self < t.size)
    (hp : ∀ l ∈ letters, l.isPlain = true ∨ l.isSlot = false) :
    Leaves t (lookupArgs letters self).1 (lookupArgs letters self).2 := by
  induction letters using List.reverseRecOn with
  | nil => exact .nil
  | append_singleton letters l ih =>
      have hc := ih fun l hl => hp l (List.mem_append_left _ hl)
      rw [lookupArgs_concat]
      rcases hp l (List.mem_append_right _ List.mem_cons_self) with hl | hl
      · have hslot : l.isSlot = true := (Bool.and_eq_true_iff.mp hl).1
        rw [addLookupArg, hslot]
        exact hc.concat fun ks hks => kinded_lookupArg hl hself hks
      · have hnone : lookupArg l self (lookupArgs letters self).2 = [] := by
          cases l <;> first | rfl | cases hl
        rw [addLookupArg, hl, hnone, List.append_nil]
        exact hc

end Letters

/-- What the compiler for nested arguments and first words gives is of the kind that was asked for. -/
structure Nested.Sorts (k : Nested) : Prop where
  arg : ∀ t want prev, Declaring t (k.arg want prev) fun t' answer =>
    ∀ code, answer = some code → ArgKinded t' want code
  head : ∀ t prev, Declaring t (k.head prev) fun t' answer =>
    ∀ head, answer = some head → HeadKinded t' head

section Calls

variable {k : Nested} {t : Table}

theorem kinds_takeArgs (hk : k.Sorts) (t : Table) {want : Want} (hw : want ≠ .nothing)
    (prev left given : Nat) : Declaring t (takeArgs k want prev left given) fun t' a =>
      ∃ m, a.2.1 = given + m ∧ Leaves t' a.1 m := by
  induction left generalizing t given with
  | zero => exact .pure ⟨0, rfl, .nil⟩
  | succ left ih =>
      refine (hk.arg t want (prev + given)).bind fun t' answer _ harg => ?_
      cases answer with
      | none => exact .pure ⟨0, rfl, .nil⟩
      | some code =>
          refine (ih t' (given + 1)).bind fun t'' a he ha => ?_
          obtain ⟨m, hn, hmore⟩ := ha
          refine .pure ⟨1 + m, by rw [hn, Nat.add_assoc], ?_⟩
          exact (((harg code rfl).mono he).leaves hw).append hmore

theorem kinds_argOr (hk : k.Sorts) (t : Table) (want : Want) (prev : Nat) {missing : Code}
    (hm : ∀ t, ArgKinded t want missing) :
    Declaring t (argOr k want prev missing) fun t' a => ArgKinded t' want a.1 := by
  refine (hk.arg t want prev).bind fun t' answer _ harg => ?_
  cases answer with
  | none => exact .pure (hm t')
  | some code => exact .pure (harg code rfl)

private theorem kinds_dropArgs (hk : k.Sorts) (t : Table) (prev fuel : Nat) :
    Declaring t (dropArgs k prev fuel) StatementKinded := by
  induction fuel generalizing t with
  | zero => exact .pure .nil
  | succ fuel ih =>
      refine (hk.arg t .nothing prev).bind fun t' answer _ harg => ?_
      cases answer with
      | none => exact .pure .nil
      | some code =>
          refine (ih t').bind fun t'' rest he hrest => .pure ?_
          exact StatementKinded.append (ArgKinded.mono (harg code rfl) he) hrest

theorem kinds_surplusArgs (hk : k.Sorts) (t : Table) (more : Bool) (prev : Nat) :
    Declaring t (surplusArgs k more prev) StatementKinded :=
  .ite (fun _ => .after (gives_cursor .layout t) fun t' _ _ _ => kinds_dropArgs hk t' prev _)
    fun _ => .pure .nil

private theorem kinds_argIfMore (hk : k.Sorts) (t : Table) (want : Want) (prev : Nat)
    (more : Bool) :
    Declaring t (argIfMore k want prev more) fun t' answer =>
      ∀ code, answer = some code → more = true ∧ ArgKinded t' want code := by
  refine .ite (fun hm => (hk.arg t want prev).mono fun _ _ _ h code hc => ⟨hm, h code hc⟩) ?_
  intro _
  refine .pure fun code hc => ?_
  cases hc

private theorem kinds_restOfArgs (hk : k.Sorts) (t : Table) (prev given : Nat) (more : Bool) :
    Declaring t (restOfArgs k prev given more) fun t' a =>
      ∃ m, a.2.1 = given + m ∧ Leaves t' a.1 m :=
  .ite (fun _ => kinds_takeArgs hk t (by decide) prev _ given) fun _ => .pure ⟨0, rfl, .nil⟩

theorem kinds_callComputed (hk : k.Sorts) (t : Table) {push : Code} (hpush : Leaves t push 1)
    (prev : Nat) : Declaring t (callComputed k push prev) fun t' a => StatementKinded t' a.1 := by
  refine (kinds_takeArgs hk t (by decide) (prev + 1) maxArgs 0).bind fun t' a he ha => ?_
  obtain ⟨m, hn, hargs⟩ := ha
  refine .pure (((hpush.mono he).append hargs).taken fun ps hps ks => ?_)
  have hlength : ps.length = a.2.1 + 1 := by omega
  exact kinded_plain (.callNamed hlength) ks

/-- How many arguments a call in progress may still take. -/
def CallState.argsLeft (st : CallState) : Nat := if st.more then maxArgs - st.given else 0

/-- What is known of a call in progress behind one of its letters: the argument of the letter is
there, unless the letters are being repeated and there is none. -/
structure CallState.Goes (t : Table) (i : Nat) (l : Letter) (st st' : CallState) : Prop where
  again : st'.again = st.again
  op : st'.op = st.op
  args : st'.argsLeft ≤ st.argsLeft - 1
  code : (st'.code = st.code ∧ st'.given = st.given ∧ st.again = true) ∨
    ∃ code, st'.code = st.code ++ code ∧ st'.given = st.given + 1 ∧
      ∀ ks, st.given = 0 ∨ ks ≠ [] → Kinded t code ks (l.Admits i :: ks)

theorem CallState.Goes.given {self : Nat} {l : Letter} {st : CallState} {code : Code}
    (h : ∀ ks, Kinded t code ks (l.Admits self :: ks)) :
    st.Goes t self l { st with code := st.code ++ code, given := st.given + 1 } := by
  refine ⟨rfl, rfl, ?_, .inr ⟨code, rfl, rfl, fun ks _ => h ks⟩⟩
  unfold argsLeft
  dsimp only
  split <;> omega

theorem kinds_letterArg (hk : k.Sorts) (t : Table) {l : Letter} (hl : l.isPlain = true)
    (hself : l ≠ .self) (hcount : l ≠ .count) (self : Nat) (isLast : Bool) (prev : Nat)
    (st : CallState) :
    Declaring t (letterArg k l isLast prev st) fun t' st' => st.Goes t' self l st' := by
  have hwant : wantOf l ≠ .nothing := by
    cases l with
    | again n => cases hl
    | _ => decide
  refine (kinds_argIfMore hk t _ _ _).bind fun t' answer he harg => ?_
  cases answer with
  | none =>
      refine .ite (fun hagain => .pure ?_) fun _ => .pure ?_
      · exact ⟨rfl, rfl, Nat.zero_le _, .inl ⟨rfl, rfl, hagain⟩⟩
      · exact ⟨rfl, rfl, Nat.zero_le _, .inr ⟨_, rfl, rfl, fun ks hks =>
          kinded_missingArg hl hself hcount self hks⟩⟩
  | some code =>
      obtain ⟨hmore, harg⟩ := harg code rfl
      have hleft : st.argsLeft = maxArgs - st.given := if_pos hmore
      refine .ite (fun hlast => ?_) fun _ => ?_
      · rw [Bool.and_eq_true, decide_eq_true_eq] at hlast
        obtain ⟨rfl, -⟩ := hlast
        refine (kinds_takeArgs hk t' (by decide) (prev + st.given) _ 1).bind fun t'' a he' ha => ?_
        obtain ⟨m, hn, hrest⟩ := ha
        refine .pure ⟨rfl, rfl, ?_, .inr ⟨code ++ a.1 ++ (if 1 < a.2.1 then plain .conc .text a.2.1
          else []), by simp only [List.append_assoc], rfl, fun ks _ => ?_⟩⟩
        · rw [hleft, CallState.argsLeft]
          dsimp only
          split <;> omega
        · obtain ⟨ps, rfl, hps⟩ := hrest
          have hall := ((harg.mono he') ks).append (hps _)
          split
          next hone =>
            have hlength : (ps ++ [Want.Gives .textView]).length = a.2.1 := by
              rw [hn, List.length_append, Nat.add_comm]
              rfl
            have hshift : Shift t'' .conc .text a.2.1 (ps ++ [Want.Gives .textView])
                [Letter.Admits self .text] := .joins (.inl rfl) hlength fun _ hv => hv
            have hconc := kinded_plain hshift ks
            rw [List.append_assoc] at hconc
            exact hall.append hconc
          next hone =>
            have hnil : ps = [] := List.length_eq_zero_iff.mp (by omega)
            subst hnil
            rw [List.append_nil]
            exact hall
      · refine .pure ⟨rfl, rfl, ?_, .inr ⟨code, rfl, rfl, fun ks _ => ?_⟩⟩
        · rw [hleft, CallState.argsLeft]
          dsimp only
          split <;> omega
        · rw [← gives_eq_admits hl hself hcount, ← Want.onto_eq hwant]
          exact harg ks

private theorem kinded_pops (n : Nat) (ps ks : Kinds) (hn : n ≤ ps.length) :
    Kinded t (List.replicate n (plain .pop)).flatten (ps ++ ks) (ps.drop n ++ ks) := by
  induction n generalizing ps with
  | zero => exact .nil
  | succ n ih =>
      cases ps with
      | nil => cases hn
      | cons p ps =>
          exact (kinded_drop rfl (ps ++ ks)).append (ih ps (Nat.le_of_succ_le_succ hn))

section Commands

variable {self prev : Nat} {pre : Signature} {l : Letter}

/-- The letters of a command with a fixed signature. -/
theorem kinds_commandArgs_fixed (hk : k.Sorts) (hp : ∀ l ∈ pre, l.isPlain = true)
    {sig : Signature} (hsig : sig = pre ∨ sig = pre ++ [.pressed]) {fuel at' : Nat}
    {st : CallState} (hself : t.form? .operands self = some (.command sig)) (hat : at' ≤ pre.length)
    (hfuel : sig.length < fuel + at') (hgiven : st.given = at') (hagain : st.again = false)
    (hop : st.op = .com) (hst : Declared t self (pre.take at') st.code) :
    Declaring t (commandArgs k sig.toArray self prev fuel at' st) fun t' a =>
      StatementKinded t' a.1 := by
  have hle : pre.length ≤ sig.length := by
    rcases hsig with rfl | rfl
    · exact Nat.le_refl _
    · simp
  induction fuel generalizing t at' st with
  | zero => omega
  | succ fuel ih =>
      rcases Nat.lt_or_eq_of_le hat with hlt | rfl
      · -- A letter with an argument, which is there in any case.
        obtain ⟨l, hl⟩ : ∃ l, pre[at']? = some l := ⟨_, List.getElem?_eq_getElem hlt⟩
        have hplain := hp l (List.mem_of_getElem? hl)
        have hget : sig.toArray[at']? = some l := by
          rw [List.getElem?_toArray]
          rcases hsig with rfl | rfl
          · exact hl
          · rw [List.getElem?_append_left hlt, hl]
        have hgo {t' : Table} {st' : CallState} (he : t.Names t') (h : st.Goes t' self l st') :
            Declaring t' (commandArgs k sig.toArray self prev fuel (at' + 1) st') fun t' a =>
              StatementKinded t' a.1 := by
          rcases h.code with ⟨-, -, h0⟩ | ⟨code, hcode, hgiven', hone⟩
          · rw [hagain] at h0
            cases h0
          have htake : pre.take (at' + 1) = pre.take at' ++ [l] := by
            rw [List.take_add_one, hl]
            rfl
          refine ih (he.extends .operands _ _ hself) hlt (by omega) (hgiven'.trans (by rw [hgiven]))
            (h.again.trans hagain) (h.op.trans hop) ?_
          rw [htake, hcode]
          refine (hst.mono he).concat fun ks hks => hone ks ?_
          rw [List.length_take, Nat.min_eq_left hat] at hks
          rwa [hgiven]
        rw [commandArgs, hget]
        cases l with
        | self =>
            exact hgo (.refl t) (.given (kinded_self (Table.lt_size_of_form? hself)))
        | count => exact hgo (.refl t) (.given (kinded_int (fun n => ⟨n, rfl⟩) _))
        | pressed | joined | all | again _ => cases hplain
        | _ =>
            exact (kinds_letterArg hk t hplain (by decide) (by decide) self _ prev st).bind
              fun t' st' he h => hgo he h
      · -- Behind these letters there may be the pressed key; then the command is called.
        rw [List.take_length] at hst
        rcases hsig with rfl | rfl
        · have hget : sig.toArray[sig.length]? = none := by simp
          rw [commandArgs, hget]
          refine .pure ?_
          rw [hop]
          exact hst.called hself hp
        · have hget : (pre ++ [Letter.pressed]).toArray[pre.length]? = some .pressed := by simp
          have hend : (pre ++ [Letter.pressed]).toArray[pre.length + 1]? = none := by simp
          obtain ⟨fuel, rfl⟩ : ∃ n, fuel = n + 1 := ⟨fuel - 1, by simp at hfuel; omega⟩
          rw [commandArgs, hget]
          dsimp only
          rw [commandArgs, hend]
          exact .pure (hst.called_pressed hp hself)

/-- The letters of a command that takes all arguments: each round of repetitions takes an argument
or is the last, so that the letters are never cut off. -/
theorem kinds_commandArgs_variadic (hk : k.Sorts)
    (hp : ∀ l ∈ pre, l.isPlain = true ∨ ∃ n, l = .again n) (hl : l.takesAll = true)
    (haccepted : Signature.Accepted 0 (pre ++ [l])) {fuel at' : Nat} {st : CallState}
    (hself : t.form? .operands self = some (.command (pre ++ [l]))) (hat : at' ≤ pre.length)
    (hfuel : Signature.lettersLeft (pre ++ [l]).length at' st.argsLeft ≤ fuel)
    (hst : Leaves t st.code st.given) :
    Declaring t (commandArgs k (pre ++ [l]).toArray self prev fuel at' st) fun t' a =>
      StatementKinded t' a.1 := by
  have hlength : (pre ++ [l]).length = pre.length + 1 := by simp
  induction fuel generalizing t at' st with
  | zero =>
      have hlt : at' < (pre ++ [l]).length := by omega
      have := Signature.lettersLeft_pos st.argsLeft hlt
      omega
  | succ fuel ih =>
      have hlt : at' < (pre ++ [l]).length := by omega
      have hnext := Signature.lettersLeft_next st.argsLeft hlt
      rcases Nat.lt_or_eq_of_le hat with hin | rfl
      · obtain ⟨l', hl'⟩ : ∃ l', pre[at']? = some l' := ⟨_, List.getElem?_eq_getElem hin⟩
        have hsig : (pre ++ [l])[at']? = some l' := by rw [List.getElem?_append_left hin, hl']
        have hget : (pre ++ [l]).toArray[at']? = some l' := by rw [List.getElem?_toArray, hsig]
        have hgo {t' : Table} {st' : CallState} (he : t.Names t')
            (hargs : st'.argsLeft ≤ st.argsLeft - 1) (hst' : Leaves t' st'.code st'.given) :
            Declaring t' (commandArgs k (pre ++ [l]).toArray self prev fuel (at' + 1) st')
              fun t' a => StatementKinded t' a.1 := by
          have hless : Signature.lettersLeft (pre ++ [l]).length (at' + 1) st'.argsLeft ≤
              Signature.lettersLeft (pre ++ [l]).length (at' + 1) (st.argsLeft - 1) :=
            Signature.lettersLeft_mono hargs
          exact ih (he.extends .operands _ _ hself) hin (by omega) hst'
        have hletter {t' : Table} {st' : CallState} (he : t.Names t')
            (h : st.Goes t' self l' st') :
            Declaring t' (commandArgs k (pre ++ [l]).toArray self prev fuel (at' + 1) st')
              fun t' a => StatementKinded t' a.1 := by
          refine hgo he h.args ?_
          rcases h.code with ⟨hcode, hgiven, -⟩ | ⟨code, hcode, hgiven, hone⟩ <;> rw [hcode, hgiven]
          · exact hst.mono he
          · exact (hst.mono he).concat hone
        rw [commandArgs, hget]
        rcases hp l' (List.mem_of_getElem? hl') with hplain | ⟨n, rfl⟩
        · cases l' with
          | self => exact hletter (.refl t) (.given (kinded_self (Table.lt_size_of_form? hself)))
          | count => exact hletter (.refl t) (.given (kinded_int (fun n => ⟨n, rfl⟩) _))
          | pressed | joined | all | again _ => cases hplain
          | _ =>
              exact (kinds_letterArg hk t hplain (by decide) (by decide) self _ prev st).bind
                fun t' st' he h => hletter he h
        · obtain ⟨hn, hle⟩ := haccepted.again_le hsig
          refine .ite (fun hmore => ?_) fun hmore => ?_
          · simp only [Bool.and_eq_true, decide_eq_true_eq] at hmore
            have hleft : st.argsLeft = maxArgs - st.given := if_pos hmore.1
            have hback : Signature.lettersLeft (pre ++ [l]).length (at' - n) st.argsLeft <
                Signature.lettersLeft (pre ++ [l]).length at' st.argsLeft :=
              Signature.lettersLeft_back _ (by omega) hn (by omega)
            have hround : Leaves t ({ st with again := true } : CallState).code
                ({ st with again := true } : CallState).given := hst
            exact ih hself (by omega)
              (show Signature.lettersLeft _ (at' - n) st.argsLeft ≤ fuel by omega) hround
          · have hzero : st.argsLeft = 0 := by
              unfold CallState.argsLeft
              split
              next hm =>
                simp only [hm, Bool.true_and, decide_eq_true_eq] at hmore
                omega
              next => rfl
            obtain ⟨ps, hps, hc⟩ := hst
            refine hgo (.refl t) ?_ ⟨ps.drop (st.given - maxArgs), ?_, fun ks => ?_⟩
            · have hlast : CallState.argsLeft { st with
                  code := st.code ++ (List.replicate (st.given - maxArgs) (plain .pop)).flatten
                  given := st.given - (st.given - maxArgs) } = 0 := by
                unfold CallState.argsLeft at hzero ⊢
                dsimp only
                split <;> rename_i hm
                · rw [if_pos hm] at hzero
                  omega
                · rfl
              exact Nat.le_trans (Nat.le_of_eq hlast) (Nat.zero_le _)
            · rw [List.length_drop, hps]
            · exact (hc ks).append (kinded_pops _ _ _ (by omega))
      · have hget : (pre ++ [l]).toArray[pre.length]? = some l := by simp
        have hrest {op : Op} (ho : op = .comAll ∨ op = .comJoined) :
            Declaring t (restOfArgs k prev st.given st.more >>= fun a => Pure.pure (st.code ++ a.1 ++
              [.instr (.call op .null a.2.1 self)], a.2.2)) fun t' (a : Statement) =>
                StatementKinded t' a.1 := by
          refine (kinds_restOfArgs hk t prev st.given st.more).bind fun t' a he ha => .pure ?_
          obtain ⟨m, hn, hargs⟩ := ha
          have hf := he.extends .operands _ _ hself
          have hall := (hst.mono he).append hargs
          rw [← hn] at hall
          refine hall.called ho hf fun sig heq => ?_
          cases heq
          exact not_isFixed_of_takesAll hl
        rw [commandArgs, hget]
        cases l with
        | joined => exact hrest (.inr rfl)
        | all => exact hrest (.inl rfl)
        | _ => cases hl

end Commands

end Calls

end Compile

end ConsoleScript
