import Mathlib.Data.List.Forall2
import ConsoleScript.Engine.Step
import ConsoleScript.Proofs.Bytecode.Literals
import ConsoleScript.Proofs.Code.Forms

/-!
Kinds of operands. Of every operand on the stack of a run something may be known: that it is an
integer, a text, code. Code is judged by what it makes of that, and a command may be called only when
what is known of its operands is what its letters declare.
-/

namespace ConsoleScript

open Bytecode

/-- The values that a command may get for a letter, where `self` is its own index. -/
def Letter.Admits (self : Nat) : Letter → Value → Prop
  | .int, v | .intOrLeast, v | .count, v => ∃ n, v = .int n
  | .float, v | .floatOrPrevious, v => ∃ x, v = .float x
  | .text, v | .ownText, v => ∃ kind s, v = .text kind s
  | .code, v => ∃ b pc, v = .code b pc
  | .condition, v => v.text? = none
  | .ident, v => ∃ i, v = .ident i
  | .self, v => v = .ident self
  | .pressed, v => v = .int 1
  | .any, _ | .anyOrNull, _ | .joined, _ | .all, _ | .again _, _ => True

/-- The arguments that a command with a fixed signature may get: one for each letter. -/
def Signature.Admits (sig : Signature) (self : Nat) (vs : List Value) : Prop :=
  List.Forall₂ (Letter.Admits self) sig vs

theorem Signature.Admits.length_eq {sig : Signature} {self : Nat} {vs : List Value}
    (h : sig.Admits self vs) (hsig : sig.IsFixed) : vs.length = sig.slots := by
  rw [← List.Forall₂.length_eq h]
  exact (List.countP_eq_length.mpr hsig).symm

/-- The values of the type of a tag. -/
def Value.Tagged (ret : RetTag) (v : Value) : Prop :=
  match ret with
  | .null => True
  | .int => ∃ n, v = .int n
  | .float => ∃ x, v = .float x
  | .text => ∃ kind s, v = .text kind s

namespace Value

variable (ret : RetTag) (v : Value)

theorem tagged_force : (v.force ret).Tagged ret := by
  cases ret with
  | null => trivial
  | int | float => exact ⟨_, rfl⟩
  | text => exact ⟨_, _, rfl⟩

theorem tagged_lookedUp (view : Bool) : (v.lookedUp ret view).Tagged ret := by
  cases ret with
  | null => trivial
  | int | float => exact ⟨_, rfl⟩
  | text => exact ⟨_, _, rfl⟩

theorem tagged_absent (view : Bool) : (absent ret view).Tagged ret := by
  cases ret with
  | null => trivial
  | int | float => exact ⟨_, rfl⟩
  | text => exact ⟨_, _, rfl⟩

end Value

/-- What is known of operands, the top first. -/
abbrev Kinds := List (Value → Prop)

/-- Operands of which all that holds. -/
def Kinds.Fit (ps : Kinds) (vs : List Value) : Prop := List.Forall₂ (fun p v => p v) ps vs

namespace Compile

/-- What is known of an argument by what it was compiled for. -/
def Want.Gives : Want → Value → Prop
  | .code, v => ∃ b pc, v = .code b pc
  | .condition, v => v.text? = none
  | .ident, v => ∃ i, v = .ident i
  | w, v => v.Tagged w.tag

/-- The operands behind an argument. -/
def Want.onto : Want → Kinds → Kinds
  | .nothing, ks => ks
  | w, ks => w.Gives :: ks

theorem Want.onto_eq {want : Want} (h : want ≠ .nothing) (ks : Kinds) :
    want.onto ks = want.Gives :: ks := by
  cases want <;> first | rfl | exact absurd rfl h

end Compile

namespace Bytecode.Op

/-- How many operands an instruction takes that leaves none, if it takes them whatever they are. -/
def drops? : Op → Option Nat
  | .null | .yes | .no | .print => some 0
  | .not | .pop | .result | .run | .runOuter | .setTextVar | .setIntVar | .setFloatVar | .alias
  | .aliasArg | .jumpResultTrue | .jumpResultFalse => some 1
  | .aliasNamed | .setIntVar2 => some 2
  | .setIntVar3 => some 3
  | _ => none

/-- Takes no operand and leaves one of the type of its tag. -/
def pushesTagged : Op → Bool
  | .resultArg | .textVar | .intVar | .floatVar | .lookup | .lookupView | .lookupArg
  | .lookupViewArg => true
  | _ => false

end Bytecode.Op

/-- What an instruction with a plain operand makes of what is known of its operands: those that it
takes, and those that it leaves. A command is called only with what its letters declare. -/
inductive Shift (t : Table) : Op → RetTag → Nat → Kinds → Kinds → Prop
  | drops {op : Op} {ret : RetTag} {n : Nat} {ps : Kinds} (h : op.drops? = some ps.length) :
      Shift t op ret n ps []
  | pushes {op : Op} {ret : RetTag} {n : Nat} {q : Value → Prop} (h : op.pushesTagged = true)
      (hq : ∀ v : Value, v.Tagged ret → q v) : Shift t op ret n [] [q]
  | view {ret : RetTag} {n : Nat} {q : Value → Prop} (hq : ∀ v : Value, v.Tagged .text → q v) :
      Shift t .textVarView ret n [] [q]
  | empty {ret : RetTag} {n : Nat} {q : Value → Prop} (hq : ∀ b pc, q (.code b pc)) :
      Shift t .empty ret n [] [q]
  /-- The index of an identifier that is there fits its word. -/
  | ident {op : Op} {ret : RetTag} {n : Nat} {q : Value → Prop}
      (ho : op = .ident ∨ op = .identArg) (hq : ∀ i, (n < t.size → i = n) → q (.ident i)) :
      Shift t op ret n [] [q]
  | dup {ret : RetTag} {n : Nat} {p q : Value → Prop} (hq : ∀ v : Value, v.Tagged ret → q v) :
      Shift t .dup ret n [p] [q, p]
  | compile {ret : RetTag} {n : Nat} {p q : Value → Prop} (hq : ∀ b pc, q (.code b pc)) :
      Shift t .compile ret n [p] [q]
  | cond {ret : RetTag} {n : Nat} {p q : Value → Prop} (hq : ∀ v : Value, v.text? = none → q v) :
      Shift t .cond ret n [p] [q]
  | identNamed {ret : RetTag} {n : Nat} {p q : Value → Prop} (hq : ∀ i, q (.ident i)) :
      Shift t .identNamed ret n [p] [q]
  | force {ret : RetTag} {n : Nat} {p q : Value → Prop} (hq : ∀ v : Value, v.Tagged ret → q v) :
      Shift t .force ret n [p] [q]
  /-- What is looked up must be a name: other values would stay as they are. -/
  | lookupNamed {op : Op} {ret : RetTag} {n : Nat} {p q : Value → Prop}
      (ho : op = .lookupNamed ∨ op = .lookupViewNamed) (hp : ∀ v : Value, p v → v.Tagged .text)
      (hq : ∀ v : Value, v.Tagged ret → q v) : Shift t op ret n [p] [q]
  | joins {op : Op} {ret : RetTag} {n : Nat} {ps : Kinds} {q : Value → Prop}
      (ho : op = .conc ∨ op = .concWord) (hn : ps.length = n)
      (hq : ∀ v : Value, v.Tagged ret → q v) : Shift t op ret n ps [q]
  | joinsResult {ret : RetTag} {n : Nat} {ps : Kinds} (hn : ps.length = n) :
      Shift t .concResult ret n ps []
  | callNamed {ret : RetTag} {n : Nat} {ps : Kinds} (hn : ps.length = n + 1) :
      Shift t .callNamed ret n ps []
  | com {ret : RetTag} {n : Nat} {f : Form} {ps : Kinds} (hf : t.form? .operands n = some f)
      (hn : ps.length = f.signature.slots)
      (hfit : ∀ sig, f = .command sig → sig.IsFixed →
        ∀ vs, ps.Fit vs → sig.Admits n vs.reverse) : Shift t .com ret n ps []
  | comPressed {ret : RetTag} {n : Nat} {f : Form} {ps : Kinds} (hf : t.form? .operands n = some f)
      (hn : ps.length + 1 = f.signature.slots)
      (hfit : ∀ sig, f = .command sig → sig.IsFixed →
        ∀ vs, ps.Fit vs → sig.Admits n (vs.reverse ++ [.int 1])) : Shift t .comPressed ret n ps []

/-- The calls with a number of arguments: a command with a fixed signature is not called so. -/
def Bytecode.Op.CallsBy (t : Table) (op : Op) (i : Nat) : Prop :=
  op = .call ∨ op = .callArg ∨ (op = .comAll ∨ op = .comJoined) ∧
    ∃ f, t.form? .operands i = some f ∧ ∀ sig, f = .command sig → ¬sig.IsFixed

namespace Compile

/-- What code makes of what is known of the operands. -/
inductive Kinded (t : Table) : Code → Kinds → Kinds → Prop
  | nil {ks : Kinds} : Kinded t [] ks ks
  | plain {op : Op} {ret : RetTag} {n : Nat} {ps qs ks ks' : Kinds} {rest : Code}
      (hi : Shift t op ret n ps qs) (hr : Kinded t rest (qs ++ ks) ks') :
      Kinded t (.instr (.plain op ret n) :: rest) (ps ++ ks) ks'
  | call {op : Op} {ret : RetTag} {n i : Nat} {ps ks ks' : Kinds} {rest : Code}
      (hi : op.CallsBy t i) (hn : ps.length = n) (hr : Kinded t rest ks ks') :
      Kinded t (.instr (.call op ret n i) :: rest) (ps ++ ks) ks'
  | literal {i : Instr} {q : Value → Prop} {ks ks' : Kinds} {rest : Code} (hi : i.IsLiteral)
      (hq : ∀ l, i.lit.Alike l → q (Engine.literalValue i.op l)) (hr : Kinded t rest (q :: ks) ks') :
      Kinded t (.instr i :: rest) ks ks'
  | block {body rest : Code} {q : Value → Prop} {ks ks' : Kinds} (hb : Kinded t body [] [])
      (hq : ∀ b pc, q (.code b pc)) (hr : Kinded t rest (q :: ks) ks') :
      Kinded t (.block body :: rest) ks ks'
  | spill {body rest : Code} {ret : RetTag} {q : Value → Prop} {ks ks' : Kinds}
      (hb : Kinded t body [] []) (hq : ∀ v : Value, v.Tagged ret → q v)
      (hr : Kinded t rest (q :: ks) ks') : Kinded t (.spill body ret :: rest) ks ks'
  | shadow {names surplus rest : Code} {n : Nat} {ps ks ks' : Kinds}
      (hn : Kinded t names ks (ps ++ ks)) (hs : Kinded t surplus (ps ++ ks) (ps ++ ks))
      (hps : ps.length = n) (hr : Kinded t rest ks ks') :
      Kinded t (.shadow names surplus n :: rest) ks ks'
  | whenTrue {body rest : Code} {p : Value → Prop} {ks ks' : Kinds} (hb : Kinded t body [] [])
      (hr : Kinded t rest ks ks') : Kinded t (.whenTrue body :: rest) (p :: ks) ks'
  | whenFalse {body rest : Code} {p : Value → Prop} {ks ks' : Kinds} (hb : Kinded t body [] [])
      (hr : Kinded t rest ks ks') : Kinded t (.whenFalse body :: rest) (p :: ks) ks'
  | choice {yes no rest : Code} {p : Value → Prop} {ks ks' : Kinds} (hy : Kinded t yes [] [])
      (hn : Kinded t no [] []) (hr : Kinded t rest ks ks') :
      Kinded t (.choice yes no :: rest) (p :: ks) ks'
  | link {op : Op} {body rest : Code} {next : Piece} {p : Value → Prop} {ks ks' : Kinds}
      (hb : Kinded t body [] []) (hn : Kinded t [next] ((fun _ => True) :: ks) ks)
      (hr : Kinded t rest ks ks') : Kinded t (.link op body next :: rest) (p :: ks) ks'

end Compile

variable {t t' : Table}

theorem Shift.mono {op : Op} {ret : RetTag} {n : Nat} {ps qs : Kinds} (h : Shift t op ret n ps qs)
    (ht : t.Extends .operands t') : Shift t' op ret n ps qs := by
  cases h with
  | com hf hn hfit => exact .com (ht _ _ hf) hn hfit
  | comPressed hf hn hfit => exact .comPressed (ht _ _ hf) hn hfit
  | drops h => exact .drops h
  | pushes h hq => exact .pushes h hq
  | view hq => exact .view hq
  | empty hq => exact .empty hq
  | ident ho hq => exact .ident ho fun i hi => hq i fun hn => hi (ht.lt_size hn)
  | dup hq => exact .dup hq
  | compile hq => exact .compile hq
  | cond hq => exact .cond hq
  | identNamed hq => exact .identNamed hq
  | force hq => exact .force hq
  | lookupNamed ho hp hq => exact .lookupNamed ho hp hq
  | joins ho hn hq => exact .joins ho hn hq
  | joinsResult hn => exact .joinsResult hn
  | callNamed hn => exact .callNamed hn

theorem Bytecode.Op.CallsBy.mono {op : Op} {i : Nat} (h : op.CallsBy t i)
    (ht : t.Extends .operands t') : op.CallsBy t' i := by
  rcases h with h | h | ⟨h, f, hf, hsig⟩
  · exact .inl h
  · exact .inr (.inl h)
  · exact .inr (.inr ⟨h, f, ht i f hf, hsig⟩)

namespace Compile

variable {code code' : Code} {ks ks' ks'' : Kinds}

theorem Kinded.append (h : Kinded t code ks ks') (h' : Kinded t code' ks' ks'') :
    Kinded t (code ++ code') ks ks'' := by
  induction h with
  | nil => exact h'
  | plain hi _ ih => exact .plain hi (ih h')
  | call hi hn _ ih => exact .call hi hn (ih h')
  | literal hi hq _ ih => exact .literal hi hq (ih h')
  | block hb hq _ _ ih => exact .block hb hq (ih h')
  | spill hb hq _ _ ih => exact .spill hb hq (ih h')
  | shadow hn hs hps _ _ _ ih => exact .shadow hn hs hps (ih h')
  | whenTrue hb _ _ ih => exact .whenTrue hb (ih h')
  | whenFalse hb _ _ ih => exact .whenFalse hb (ih h')
  | choice hy hn _ _ _ ih => exact .choice hy hn (ih h')
  | link hb hn _ _ _ ih => exact .link hb hn (ih h')

theorem Kinded.mono (h : Kinded t code ks ks') (ht : t.Extends .operands t') :
    Kinded t' code ks ks' := by
  induction h with
  | nil => exact .nil
  | plain hi _ ih => exact .plain (hi.mono ht) ih
  | call hi hn _ ih => exact .call (hi.mono ht) hn ih
  | literal hi hq _ ih => exact .literal hi hq ih
  | block _ hq _ ihb ih => exact .block ihb hq ih
  | spill _ hq _ ihb ih => exact .spill ihb hq ih
  | shadow _ _ hps _ ihn ihs ih => exact .shadow ihn ihs hps ih
  | whenTrue _ _ ihb ih => exact .whenTrue ihb ih
  | whenFalse _ _ ihb ih => exact .whenFalse ihb ih
  | choice _ _ _ ihy ihn ih => exact .choice ihy ihn ih
  | link _ _ _ ihb ihn ih => exact .link ihb ihn ih

end Compile

end ConsoleScript
