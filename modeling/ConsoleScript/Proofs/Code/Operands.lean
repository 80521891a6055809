import ConsoleScript.Proofs.Code.Typing

/-!
Operands that are known when code is compiled. A literal word, a value that stands in for a missing
argument, and the command itself are compiled to code that pushes one operand, which does not depend
on the interpreter. Code of such operands is described by the operands on the stack before and after
it; what they are in a running interpreter is another matter.
-/

namespace ConsoleScript.Compile

open Bytecode

/-- What the code of an argument pushes. Who holds the bytes of a text is left open. -/
inductive Operand where
  | null
  | int (i : Int32)
  | float (x : Single)
  | text (s : Bytes)
  /-- The code that a text is compiled to. -/
  | code (src : Bytes)
  /-- The identifier with a name, or the dummy alias if the name is a number. -/
  | named (name : Bytes)
  /-- The identifier with an index. -/
  | ident (i : Nat)

namespace Operand

/-- The operand as a float. -/
def toSingle : Operand → Single
  | .float x => x
  | .int i => Single.ofInt32 i
  | .text s => Reading.single s
  | _ => Single.zero

end Operand

/-- The code of the statements of a text, with levels enough for what is nested in it. -/
def IsBody (src : Bytes) (body : Code) : Prop :=
  ∃ levels st, src.length + 4 ≤ levels ∧ st.cursor.rest = src ∧
    body = ((statements (nested levels) false 0 0).run st).1

/-- A number, which is not a name, stands for the dummy alias. -/
def Stands (t : Table) (name : Bytes) (i : Nat) : Prop :=
  t.find? name = some i ∨ Reading.isNumeral name = true ∧ i = dummyIndex

/-- The code of one operand. -/
inductive Pushes (t : Table) : Code → Operand → Prop
  | null : Pushes t nullCode .null
  | int (i : Int32) : Pushes t (intCode i) (.int i)
  | float (x : Single) : Pushes t (floatCode x) (.float x)
  | text {s : Bytes} (hs : s.length < operandLimit) : Pushes t (textCode s) (.text s)
  | view {s : Bytes} (hs : s.length < operandLimit) : Pushes t (viewCode s) (.text s)
  | code {src : Bytes} {body : Code} (h : IsBody src body) : Pushes t (literal body) (.code src)
  | named {name : Bytes} {i : Nat} (hi : i < t.size) (h : Stands t name i) :
      Pushes t (identCode i) (.named name)
  | ident {i : Nat} (hi : i < t.size) : Pushes t (identCode i) (.ident i)

/-- Code that changes the operands on the stack, the last one on top. There are never more than `n`
of them. -/
inductive Lays (t : Table) (n : Nat) : List Operand → Code → List Operand → Prop
  | nil {os : List Operand} : Lays t n os [] os
  | push {os os' : List Operand} {o : Operand} {code rest : Code} (hc : Pushes t code o)
      (hn : os.length < n) (hr : Lays t n (os ++ [o]) rest os') : Lays t n os (code ++ rest) os'
  /-- The last operand once more, as a float. -/
  | dup {os os' : List Operand} {o : Operand} {rest : Code} (hn : os.length + 1 < n)
      (hr : Lays t n (os ++ [o] ++ [.float o.toSingle]) rest os') :
      Lays t n (os ++ [o]) (plain .dup .float ++ rest) os'
  /-- The last operands, which are texts, as one text with blanks between them. -/
  | join {os os' : List Operand} {ss : List Bytes} {rest : Code} (hs : ss.length < operandLimit)
      (hn : os.length < n) (hr : Lays t n (os ++ [.text (Bytes.joinWith [0x20] ss)]) rest os') :
      Lays t n (os ++ ss.map .text) (plain .conc .text ss.length ++ rest) os'
  | pop {os os' : List Operand} {o : Operand} {rest : Code} (hr : Lays t n os rest os') :
      Lays t n (os ++ [o]) (plain .pop ++ rest) os'

variable {t t' : Table} {n : Nat} {os os' os'' : List Operand} {code code' : Code} {o : Operand}

theorem Lays.append (h : Lays t n os code os') (h' : Lays t n os' code' os'') :
    Lays t n os (code ++ code') os'' := by
  induction h with
  | nil => exact h'
  | push hc hn _ ih => exact List.append_assoc .. ▸ .push hc hn (ih h')
  | dup hn _ ih => exact List.append_assoc .. ▸ .dup hn (ih h')
  | join hs hn _ ih => exact List.append_assoc .. ▸ .join hs hn (ih h')
  | pop _ ih => exact List.append_assoc .. ▸ .pop (ih h')

theorem Lays.single (hc : Pushes t code o) (hn : os.length < n) :
    Lays t n os code (os ++ [o]) := by
  have h := Lays.push hc hn (.nil : Lays t n (os ++ [o]) [] _)
  rwa [List.append_nil] at h

theorem Lays.pops (xs : List Operand) :
    Lays t n (os ++ xs) (List.replicate xs.length (plain .pop)).flatten os := by
  induction xs generalizing os with
  | nil => exact (List.append_nil os).symm ▸ .nil
  | cons x xs ih =>
      have hlast : Lays t n (os ++ [x]) (plain .pop) os := by
        have h := Lays.pop (o := x) (.nil : Lays t n os [] os)
        rwa [List.append_nil] at h
      rw [List.length_cons, List.replicate_succ', List.flatten_append, List.flatten_singleton,
        List.append_cons]
      exact ih.append hlast

/-- Texts as one text; one by itself stays as it is. -/
theorem Lays.joined {s : Bytes} {ss : List Bytes} {rest : Code} (hc : Pushes t code (.text s))
    (hr : ∀ os, os.length + ss.length ≤ n → Lays t n os rest (os ++ ss.map .text))
    (hs : 1 + ss.length < operandLimit) (hn : os.length + 1 + ss.length ≤ n) :
    Lays t n os
      (code ++ rest ++ if 1 < 1 + ss.length then plain .conc .text (1 + ss.length) else [])
      (os ++ [.text (Bytes.joinWith [0x20] (s :: ss))]) := by
  have hpushed : Lays t n os (code ++ rest) (os ++ [.text s] ++ ss.map .text) := by
    refine (Lays.single hc (by omega)).append (hr _ ?_)
    rw [List.length_append, List.length_singleton]
    exact hn
  rw [← List.append_cons, ← List.map_cons] at hpushed
  cases ss with
  | nil =>
      rw [if_neg (by simp), List.append_nil]
      exact hpushed
  | cons s' ss =>
      rw [Nat.add_comm] at hs ⊢
      have hjoin := Lays.join (show (s :: s' :: ss).length < operandLimit from hs)
        (by omega : os.length < n)
        (.nil : Lays t n (os ++ [.text (Bytes.joinWith [0x20] (s :: s' :: ss))]) [] _)
      rw [List.append_nil] at hjoin
      rw [if_pos (by simp)]
      exact hpushed.append hjoin

end ConsoleScript.Compile

namespace ConsoleScript

open Compile

variable {t t' : Table}

theorem Table.Names.find? (h : t.Names t') {name : Bytes} {i : Nat}
    (hi : t.find? name = some i) : t'.find? name = some i := by
  induction h with
  | refl => exact hi
  | push _ other ih =>
      rw [Table.find?] at ih ⊢
      rw [Table.push, Array.findIdx?_push, ih]
      rfl

namespace Compile

/-- A name stands for the index that it is given. -/
theorem stands_intern (t : Table) (name : Bytes) :
    Stands (t.intern name).2.2 name (t.intern name).1 := by
  unfold Table.intern
  split
  next i hi => exact .inl hi
  next hnone =>
    split
    next hn => exact .inr ⟨hn, rfl⟩
    next =>
      refine .inl ?_
      have hname : (Table.unknownAlias name).name = name := rfl
      rw [Table.find?] at hnone ⊢
      rw [Table.push, Array.findIdx?_push, hnone, hname, beq_self_eq_true]
      rfl

theorem Stands.mono {name : Bytes} {i : Nat} (h : Stands t name i) (ht : t.Names t') :
    Stands t' name i :=
  h.imp_left ht.find?

theorem Pushes.mono {code : Code} {o : Operand} (h : Pushes t code o) (ht : t.Names t') :
    Pushes t' code o := by
  have hsize {i : Nat} (hi : i < t.size) : i < t'.size := (ht.extends .layout).lt_size hi
  cases h with
  | named hi h => exact .named (hsize hi) (h.mono ht)
  | ident hi => exact .ident (hsize hi)
  | null => exact .null
  | int i => exact .int i
  | float x => exact .float x
  | text hs => exact .text hs
  | view hs => exact .view hs
  | code h => exact .code h

theorem Lays.mono {n n' : Nat} {os os' : List Operand} {code : Code} (h : Lays t n os code os')
    (ht : t.Names t') (hn : n ≤ n') : Lays t' n' os code os' := by
  induction h with
  | nil => exact .nil
  | push hc hlt _ ih => exact .push (hc.mono ht) (Nat.lt_of_lt_of_le hlt hn) ih
  | dup hlt _ ih => exact .dup (Nat.lt_of_lt_of_le hlt hn) ih
  | join hx hlt _ ih => exact .join hx (Nat.lt_of_lt_of_le hlt hn) ih
  | pop _ ih => exact .pop ih

end Compile

end ConsoleScript
