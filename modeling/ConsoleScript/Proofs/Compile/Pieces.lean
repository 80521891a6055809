import ConsoleScript.Proofs.Compile.Judgement

/-!
The types of the code that the compiler puts together, and what is asked of the compiler for nested
texts. An argument leaves one operand, or none if nothing is wanted; a statement leaves none. Where
room counts, the code for an argument may begin with as many operands as the compiler was told of,
and with room for one more; the code for statements with fewer than are kept before further results
are computed by themselves.
-/

namespace ConsoleScript

open Bytecode

/-- Above `h` operands there is room for `n` more. -/
def Rigour.Roomy (r : Rigour) (h n : Nat) : Prop := r = .room → h + n ≤ maxOperands

/-- There are no more than `n` operands. -/
def Rigour.Under (r : Rigour) (h n : Nat) : Prop := r = .room → h ≤ n

namespace Rigour

variable {r : Rigour} {h n k : Nat}

theorem Roomy.le (hh : r.Roomy h n) (hk : k ≤ n) : r.Roomy h k :=
  fun hr => Nat.le_trans (Nat.add_le_add_left hk h) (hh hr)

theorem Roomy.above (hh : r.Roomy h (n + k)) : r.Roomy (h + n) k :=
  fun hr => Nat.add_assoc h n k ▸ hh hr

theorem Under.add (hh : r.Under h n) (k : Nat) : r.Under (h + k) (n + k) :=
  fun hr => Nat.add_le_add_right (hh hr) k

theorem roomy_zero (hn : n ≤ maxOperands) : r.Roomy 0 n := fun _ => by rwa [Nat.zero_add]

theorem under_zero : r.Under 0 n := fun _ => Nat.zero_le n

/-- Below the number of results that are kept there is room for the arguments of a call and one
more. -/
theorem Under.roomy (hh : r.Under h n) (hn : n < Compile.maxResults) : r.Roomy h (maxArgs + 1) := by
  intro hr
  have := hh hr
  unfold maxOperands
  omega

theorem Moves.push (hh : r.Roomy h 1) : r.Moves 0 1 h (h + 1) :=
  .inr ⟨Nat.zero_le h, rfl, hh⟩

theorem Moves.stay (hh : r.Roomy h 0) : r.Moves 0 0 h h :=
  .inr ⟨Nat.zero_le h, rfl, hh⟩

theorem Moves.join (n : Nat) (hh : r.Roomy h 1) : r.Moves n 1 (h + n) (h + 1) :=
  .inr ⟨Nat.le_add_left n h, Nat.add_right_comm h 1 n, hh⟩

theorem Moves.drop (n : Nat) (hh : r.Roomy h n) : r.Moves n 0 (h + n) h :=
  .inr ⟨Nat.le_add_left n h, rfl, fun hr => Nat.le_trans (Nat.le_add_right h n) (hh hr)⟩

end Rigour

namespace Compile

/-- The number of operands that the code for an argument leaves. -/
def Want.leaves : Want → Nat
  | .nothing => 0
  | _ => 1

/-- The code of an argument, compiled for `prev` operands below it. -/
def ArgTyped (r : Rigour) (t : Table) (want : Want) (prev : Nat) (code : Code) : Prop :=
  ∀ h, r.Under h prev → r.Roomy h 1 → Typed r t code h (h + want.leaves)

/-- The code of statements, compiled for `prev` operands below them. -/
def StatementTyped (r : Rigour) (t : Table) (prev : Nat) (code : Code) : Prop :=
  ∀ h, r.Under h prev → Typed r t code h h

/-- The first word of a statement: a name that fits its field, or code that pushes what is to be
called. -/
def HeadTyped (r : Rigour) (t : Table) (prev : Nat) : Head → Prop
  | .bare name => name.length < operandLimit
  | .computed code => ArgTyped r t .any prev code

/-- What is asked of the compiler for nested arguments and first words. -/
structure Nested.Serves (r : Rigour) (k : Nested) : Prop where
  arg : ∀ t want prev, Gives r t (k.arg want prev) fun t' answer =>
    ∀ code, answer = some code → ArgTyped r t' want prev code
  head : ∀ t prev, Gives r t (k.head prev) fun t' answer =>
    ∀ head, answer = some head → HeadTyped r t' prev head

variable {r : Rigour} {t t' : Table} {h h' : Nat}

theorem ArgTyped.mono {want : Want} {prev : Nat} {code : Code} (hc : ArgTyped r t want prev code)
    (ht : t.Extends r t') : ArgTyped r t' want prev code :=
  fun h hu hr => (hc h hu hr).mono ht

theorem HeadTyped.mono {prev : Nat} {head : Head} (hh : HeadTyped r t prev head)
    (ht : t.Extends r t') : HeadTyped r t' prev head := by
  cases head with
  | bare name => exact hh
  | computed code => exact ArgTyped.mono hh ht

theorem ArgTyped.typed {want : Want} {prev : Nat} {code : Code} (hc : ArgTyped r t want prev code)
    (hr : r ≠ .room) (h : Nat) : Typed r t code h (h + want.leaves) :=
  hc h (fun h => absurd h hr) (fun h => absurd h hr)

theorem typed_plain {op : Op} {ret : RetTag} {n k l : Nat} (hi : Plain r t op n k l)
    (hm : r.Moves k l h h') : Typed r t (plain op ret n) h h' :=
  .plain hi hm (.nil (.inr rfl))

theorem typed_call {op : Op} {ret : RetTag} {n i : Nat} (hi : Call r t op n i)
    (hh : r.Roomy h n) : Typed r t [.instr (.call op ret n i)] (h + n) h :=
  .call hi (.drop n hh) (.nil (.inr rfl))

theorem typed_literal {i : Instr} (hi : i.IsLiteral) (hh : r.Roomy h 1) :
    Typed r t [.instr i] h (h + 1) :=
  .literal hi (.push hh) (.nil (.inr rfl))

theorem typed_null (hh : r.Roomy h 1) : Typed r t nullCode h (h + 1) := typed_literal .null hh

theorem typed_text {s : Bytes} (hs : s.length < operandLimit) (hh : r.Roomy h 1) :
    Typed r t (textCode s) h (h + 1) :=
  typed_literal (.text s hs) hh

theorem typed_view {s : Bytes} (hs : s.length < operandLimit) (hh : r.Roomy h 1) :
    Typed r t (viewCode s) h (h + 1) :=
  typed_literal (.view s hs) hh

theorem typed_int (n : Int32) (hh : r.Roomy h 1) : Typed r t (intCode n) h (h + 1) :=
  typed_literal (.int n) hh

theorem typed_float (x : Single) (hh : r.Roomy h 1) : Typed r t (floatCode x) h (h + 1) :=
  typed_literal (.float x) hh

theorem typed_identCode {i : Nat} (hi : i < t.size) (hh : r.Roomy h 1) :
    Typed r t (identCode i) h (h + 1) := by
  unfold identCode
  split
  · exact typed_plain (.identArg ‹_›) (.push hh)
  · obtain ⟨f, hf⟩ := Table.exists_form? r hi
    exact typed_plain (.ident hf) (.push hh)

theorem typed_dummyCode (ht : t.Sound r) (hh : r.Roomy h 1) : Typed r t dummyCode h (h + 1) :=
  typed_identCode (Table.lt_size_of_form? (ht.founded dummyIndex (Nat.le_refl _))) hh

theorem typed_blockLiteral {body : Code} (hb : Typed r t body 0 0) (hh : r.Roomy h 1) :
    Typed r t (literal body) h (h + 1) := by
  unfold literal
  split
  · exact typed_plain .empty (.push hh)
  · exact .block hb (.push hh) (.nil (.inr rfl))

theorem typed_spill {body : Code} (hb : Typed r t body 0 0) (ret : RetTag) (hh : r.Roomy h 1) :
    Typed r t [.spill body ret] h (h + 1) :=
  .spill hb (.push hh) (.nil (.inr rfl))

theorem typed_lookupTail (want : Want) (hh : r.Roomy h 1) :
    Typed r t (lookupTail want) (h + 1) (h + want.leaves) := by
  cases want with
  | nothing => exact typed_plain .pop (.drop 1 hh)
  | code => exact typed_plain .compile (.join 1 hh)
  | condition => exact typed_plain .cond (.join 1 hh)
  | ident => exact typed_plain .identNamed (.join 1 hh)
  | _ => exact .nil (.inr rfl)

end Compile

end ConsoleScript
