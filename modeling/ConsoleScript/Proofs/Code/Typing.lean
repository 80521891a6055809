import ConsoleScript.Proofs.Bytecode.Words
import ConsoleScript.Proofs.Code.Forms

/-!
Stack types of code. Code is typed with the number of operands before and after it. An instruction
is admitted if the identifiers that it names have the forms that it needs; what it takes off the
stack must be there, and what it leaves must fit. Code that is run by itself begins with an empty
stack and leaves nothing.
-/

namespace ConsoleScript

open Bytecode

/-- A step from `h` operands to `h'` that takes and leaves some. Where only the layout counts, any
step will do. -/
def Rigour.Moves (r : Rigour) (takes leaves h h' : Nat) : Prop :=
  r = .layout ∨ (takes ≤ h ∧ h' + takes = h + leaves ∧ (r = .room → h' ≤ maxOperands))

/-- The instructions of one word with a plain operand that are admitted: operation, operand, and the
numbers of operands taken and left. -/
inductive Plain (r : Rigour) (t : Table) : Op → Nat → Nat → Nat → Prop
  | null : Plain r t .null 0 0 0
  | yes : Plain r t .yes 0 0 0
  | no : Plain r t .no 0 0 0
  | not : Plain r t .not 0 1 0
  | pop : Plain r t .pop 0 1 0
  | resultArg : Plain r t .resultArg 0 0 1
  | dup : Plain r t .dup 0 1 2
  | empty : Plain r t .empty 0 0 1
  | compile : Plain r t .compile 0 1 1
  | cond : Plain r t .cond 0 1 1
  | force : Plain r t .force 0 1 1
  | result : Plain r t .result 0 1 0
  | run : Plain r t .run 0 1 0
  | runOuter : Plain r t .runOuter 0 1 0
  | identNamed : Plain r t .identNamed 0 1 1
  | lookupNamed : Plain r t .lookupNamed 0 1 1
  | lookupViewNamed : Plain r t .lookupViewNamed 0 1 1
  | aliasNamed : Plain r t .aliasNamed 0 2 0
  /-- The last jump of a chain only moves a value into the result. -/
  | settleTrue : Plain r t .jumpResultTrue 0 1 0
  | settleFalse : Plain r t .jumpResultFalse 0 1 0
  | conc {n : Nat} (h : n ≤ maxOperands) : Plain r t .conc n n 1
  | concWord {n : Nat} (h : n ≤ maxOperands) : Plain r t .concWord n n 1
  | concResult {n : Nat} (h : n ≤ maxOperands) : Plain r t .concResult n n 0
  | callNamed {n : Nat} (h : n ≤ maxArgs) : Plain r t .callNamed n (n + 1) 0
  | identArg {i : Nat} (h : i < maxArgs) : Plain r t .identArg i 0 1
  | lookupArg {i : Nat} (h : i < maxArgs) : Plain r t .lookupArg i 0 1
  | lookupViewArg {i : Nat} (h : i < maxArgs) : Plain r t .lookupViewArg i 0 1
  | aliasArg {i : Nat} (h : i < maxArgs) : Plain r t .aliasArg i 1 0
  | ident {i : Nat} {f : Form} (h : t.form? r i = some f) : Plain r t .ident i 0 1
  | print {i : Nat} {f : Form} (h : t.form? r i = some f) : Plain r t .print i 0 0
  | lookup {i : Nat} (h : t.form? r i = some .alias) : Plain r t .lookup i 0 1
  | lookupView {i : Nat} (h : t.form? r i = some .alias) : Plain r t .lookupView i 0 1
  /-- Argument slots are not written as aliases by name are. -/
  | alias {i : Nat} (h : t.form? r i = some .alias) (hi : maxArgs ≤ i) : Plain r t .alias i 1 0
  | textVar {i : Nat} (h : t.form? r i = some .textVar) : Plain r t .textVar i 0 1
  | textVarView {i : Nat} (h : t.form? r i = some .textVar) : Plain r t .textVarView i 0 1
  | setTextVar {i : Nat} (h : t.form? r i = some .textVar) : Plain r t .setTextVar i 1 0
  | intVar {i : Nat} (h : t.form? r i = some .intVar) : Plain r t .intVar i 0 1
  | setIntVar {i : Nat} (h : t.form? r i = some .intVar) : Plain r t .setIntVar i 1 0
  | setIntVar2 {i : Nat} (h : t.form? r i = some .intVar) : Plain r t .setIntVar2 i 2 0
  | setIntVar3 {i : Nat} (h : t.form? r i = some .intVar) : Plain r t .setIntVar3 i 3 0
  | floatVar {i : Nat} (h : t.form? r i = some .floatVar) : Plain r t .floatVar i 0 1
  | setFloatVar {i : Nat} (h : t.form? r i = some .floatVar) : Plain r t .setFloatVar i 1 0
  | com {i : Nat} {f : Form} (h : t.form? r i = some f)
      (hj : r ≠ .layout → .joined ∉ f.signature) : Plain r t .com i f.signature.slots 0
  | comPressed {i : Nat} {f : Form} (h : t.form? r i = some f) (hr : r ≠ .room)
      (hj : r ≠ .layout → .joined ∉ f.signature ∧ 1 ≤ f.signature.slots) :
      Plain r t .comPressed i (f.signature.slots - 1) 0

/-- The calls that are admitted: operation, number of arguments, and index. The index, and for a
command the number, matter only where operands count. -/
inductive Call (r : Rigour) (t : Table) : Op → Nat → Nat → Prop
  | comAll {n i : Nat} (hn : r ≠ .layout → n ≤ maxArgs)
      (h : r ≠ .layout → ∃ f, t.form? r i = some f ∧ .joined ∉ f.signature ∧
        f.signature.slots ≤ n) : Call r t .comAll n i
  | comJoined {n i : Nat} (hn : r ≠ .layout → n ≤ maxArgs)
      (h : r ≠ .layout → ∃ f, t.form? r i = some f ∧ .joined ∈ f.signature) :
      Call r t .comJoined n i
  | call {n i : Nat} (hn : n ≤ maxArgs) (h : r ≠ .layout → t.form? r i = some .alias) :
      Call r t .call n i
  | callArg {n i : Nat} (hn : n ≤ maxArgs) (h : r ≠ .layout → i < maxArgs) :
      Call r t .callArg n i

namespace Compile

/-- Code that takes the stack from `h` operands to `h'`. -/
inductive Typed (r : Rigour) (t : Table) : Code → Nat → Nat → Prop
  | nil {h h' : Nat} (hh : r = .layout ∨ h = h') : Typed r t [] h h'
  | plain {op : Op} {ret : RetTag} {n k l h m h' : Nat} {rest : Code} (hi : Plain r t op n k l)
      (hm : r.Moves k l h m) (hr : Typed r t rest m h') :
      Typed r t (.instr (.plain op ret n) :: rest) h h'
  | call {op : Op} {ret : RetTag} {n i h m h' : Nat} {rest : Code} (hi : Call r t op n i)
      (hm : r.Moves n 0 h m) (hr : Typed r t rest m h') :
      Typed r t (.instr (.call op ret n i) :: rest) h h'
  | literal {i : Instr} {h m h' : Nat} {rest : Code} (hi : i.IsLiteral) (hm : r.Moves 0 1 h m)
      (hr : Typed r t rest m h') : Typed r t (.instr i :: rest) h h'
  | block {body rest : Code} {h m h' : Nat} (hb : Typed r t body 0 0) (hm : r.Moves 0 1 h m)
      (hr : Typed r t rest m h') : Typed r t (.block body :: rest) h h'
  | spill {body rest : Code} {ret : RetTag} {h m h' : Nat} (hb : Typed r t body 0 0)
      (hm : r.Moves 0 1 h m) (hr : Typed r t rest m h') : Typed r t (.spill body ret :: rest) h h'
  /-- Surplus code has the names below it, so that there need not be room for it. -/
  | shadow {names surplus rest : Code} {n h m m' h' : Nat} (hk : n ≤ maxArgs)
      (hn : Typed r t names h m) (hs : r ≠ .room → Typed r t surplus m m)
      (hm : r.Moves n 0 m m') (hr : Typed r t rest m' h') :
      Typed r t (.shadow names surplus n :: rest) h h'
  | whenTrue {body rest : Code} {h m h' : Nat} (hb : Typed r t body 0 0) (hm : r.Moves 1 0 h m)
      (hr : Typed r t rest m h') : Typed r t (.whenTrue body :: rest) h h'
  | whenFalse {body rest : Code} {h m h' : Nat} (hb : Typed r t body 0 0) (hp : r.Moves 0 0 h h)
      (hm : r.Moves 1 0 h m) (hr : Typed r t rest m h') : Typed r t (.whenFalse body :: rest) h h'
  | choice {yes no rest : Code} {h m h' : Nat} (hy : Typed r t yes 0 0) (hn : Typed r t no 0 0)
      (hm : r.Moves 1 0 h m) (hr : Typed r t rest m h') : Typed r t (.choice yes no :: rest) h h'
  | link {op : Op} {body rest : Code} {next : Piece} {h m h' : Nat}
      (ho : op = .jumpResultTrue ∨ op = .jumpResultFalse) (hb : Typed r t body 0 0)
      (hm : r.Moves 1 0 h m) (hp : r.Moves 0 1 m h) (hn : Typed r t [next] h m)
      (hr : Typed r t rest m h') : Typed r t (.link op body next :: rest) h h'

end Compile

variable {r : Rigour} {t t' : Table}

theorem Plain.settle {op : Op} (h : op = .jumpResultTrue ∨ op = .jumpResultFalse) :
    Plain r t op 0 1 0 := by
  rcases h with rfl | rfl
  · exact .settleTrue
  · exact .settleFalse

theorem Plain.mono {op : Op} {n k l : Nat} (h : Plain r t op n k l) (ht : t.Extends r t') :
    Plain r t' op n k l := by
  cases h with
  | com h hj => exact .com (ht _ _ h) hj
  | comPressed h hr hj => exact .comPressed (ht _ _ h) hr hj
  | «alias» h hi => exact .alias (ht _ _ h) hi
  | _ => first
    | constructor; apply ht; assumption
    | constructor; assumption
    | constructor

theorem Call.mono {op : Op} {n i : Nat} (h : Call r t op n i) (ht : t.Extends r t') :
    Call r t' op n i := by
  cases h with
  | comAll hn h =>
      refine .comAll hn fun hr => ?_
      obtain ⟨f, hf, hs⟩ := h hr
      exact ⟨f, ht _ _ hf, hs⟩
  | comJoined hn h =>
      refine .comJoined hn fun hr => ?_
      obtain ⟨f, hf, hs⟩ := h hr
      exact ⟨f, ht _ _ hf, hs⟩
  | call hn h => exact .call hn fun hr => ht _ _ (h hr)
  | callArg hn h => exact .callArg hn h

theorem Plain.operand_lt {op : Op} {n k l : Nat} (h : Plain r t op n k l)
    (ht : t.size ≤ operandLimit) : n < operandLimit := by
  have hindex {f : Form} {i : Nat} (h : t.form? r i = some f) : i < operandLimit :=
    Nat.lt_of_lt_of_le (Table.lt_size_of_form? h) ht
  have hcount {i : Nat} (h : i ≤ 32) : i < operandLimit :=
    Nat.lt_of_le_of_lt h (by decide)
  cases h <;> first
    | exact hindex (by assumption)
    | exact hcount (by assumption)
    | exact hcount (Nat.le_of_lt (Nat.lt_of_lt_of_le (by assumption) (by decide)))
    | exact hcount (Nat.le_trans (by assumption) (by decide))
    | decide

namespace Compile

variable {code code' : Code} {h m h' : Nat}

/-- Where only the layout counts, code is typed with any heights. -/
theorem Typed.heights (hl : r = .layout) (ht : Typed r t code h h') (k k' : Nat) :
    Typed r t code k k' := by
  have hm {a b c d : Nat} : r.Moves a b c d := .inl hl
  induction ht generalizing k k' with
  | nil _ => exact .nil (.inl hl)
  | plain hi _ _ ih => exact .plain hi hm (ih 0 k')
  | call hi _ _ ih => exact .call hi hm (ih 0 k')
  | literal hi _ _ ih => exact .literal hi hm (ih 0 k')
  | block hb _ _ _ ih => exact .block hb hm (ih 0 k')
  | spill hb _ _ _ ih => exact .spill hb hm (ih 0 k')
  | shadow hk _ _ _ _ ihn ihs ih =>
      exact .shadow hk (ihn k 0) (fun hr => ihs hr 0 0) hm (ih 0 k')
  | whenTrue hb _ _ _ ih => exact .whenTrue hb hm (ih 0 k')
  | whenFalse hb _ _ _ _ ih => exact .whenFalse hb hm hm (ih 0 k')
  | choice hy hn _ _ _ _ ih => exact .choice hy hn hm (ih 0 k')
  | link ho hb _ _ _ _ _ ihn ih => exact .link ho hb hm hm (ihn k 0) (ih 0 k')

theorem Typed.append (ha : Typed r t code h m) (hb : Typed r t code' m h') :
    Typed r t (code ++ code') h h' := by
  induction ha with
  | nil hh =>
      rcases hh with hl | rfl
      · exact hb.heights hl _ _
      · exact hb
  | plain hi hm _ ih => exact .plain hi hm (ih hb)
  | call hi hm _ ih => exact .call hi hm (ih hb)
  | literal hi hm _ ih => exact .literal hi hm (ih hb)
  | block h0 hm _ _ ih => exact .block h0 hm (ih hb)
  | spill h0 hm _ _ ih => exact .spill h0 hm (ih hb)
  | shadow hk hn hs hm _ _ _ ih => exact .shadow hk hn hs hm (ih hb)
  | whenTrue h0 hm _ _ ih => exact .whenTrue h0 hm (ih hb)
  | whenFalse h0 hp hm _ _ ih => exact .whenFalse h0 hp hm (ih hb)
  | choice hy hn hm _ _ _ ih => exact .choice hy hn hm (ih hb)
  | link ho h0 hm hp hn _ _ _ ih => exact .link ho h0 hm hp hn (ih hb)

theorem Typed.mono (h0 : Typed r t code h h') (ht : t.Extends r t') : Typed r t' code h h' := by
  induction h0 with
  | nil hh => exact .nil hh
  | plain hi hm _ ih => exact .plain (hi.mono ht) hm ih
  | call hi hm _ ih => exact .call (hi.mono ht) hm ih
  | literal hi hm _ ih => exact .literal hi hm ih
  | block _ hm _ ihb ih => exact .block ihb hm ih
  | spill _ hm _ ihb ih => exact .spill ihb hm ih
  | shadow hk _ _ hm _ ihn ihs ih => exact .shadow hk ihn ihs hm ih
  | whenTrue _ hm _ ihb ih => exact .whenTrue ihb hm ih
  | whenFalse _ hp hm _ ihb ih => exact .whenFalse ihb hp hm ih
  | choice _ _ hm _ ihy ihn ih => exact .choice ihy ihn hm ih
  | link ho _ hm hp _ _ ihb ihn ih => exact .link ho ihb hm hp ihn ih

theorem Typed.body {body : Code} (h0 : Typed r t [.block body] h h') : Typed r t body 0 0 := by
  cases h0 with
  | block hb _ _ => exact hb

end Compile

end ConsoleScript
