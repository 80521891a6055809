import ConsoleScript.Proofs.Compile.EntryStatements

/-!
Block literals with splices of aliases. Between the signs and names of the splices stand texts that
are read as they are. The code of such a literal leaves operands for the texts and the values of the
aliases in their order, never more than a call can have and one: before there would be too many, those
there are joined into one.
-/

namespace ConsoleScript.Compile

open Bytecode Syntax

/-- A byte that stands for itself in a block literal. -/
def isInert (c : UInt8) : Bool := !isMark c && c != 0x0D

/-- A byte of the name behind a splice sign. -/
def isSpliceByte (c : UInt8) : Bool := Byte.isAlnum c || c == code '_'

/-- A splice of an alias, and the text behind it. -/
structure Splice where
  name : Bytes
  text : Bytes

namespace Splice

def source (p : Splice) : Bytes := code '@' :: (p.name ++ p.text)

/-- The name of the splice ends where its text begins, and the text stands for itself. -/
structure IsPlain (p : Splice) : Prop where
  nonempty : p.name ≠ []
  bytes : ∀ c ∈ p.name, isSpliceByte c = true
  inert : ∀ c ∈ p.text, isInert c = true
  apart : ∀ c ∈ p.text.head?, isSpliceByte c = false

end Splice

/-- The source of a block literal behind its opening bracket: a text and splices. -/
def literalSource (t : Bytes) (ps : List Splice) : Bytes :=
  t ++ (ps.flatMap Splice.source ++ [code ']'])

namespace Splice

variable {p : Splice}

theorem IsPlain.no_sign (hp : p.IsPlain) (s : Bytes) :
    (p.name ++ s).takeWhile (· == code '@') = [] := by
  obtain ⟨c, w, hname⟩ := List.exists_cons_of_ne_nil hp.nonempty
  have hc := hp.bytes c (hname ▸ List.mem_cons_self)
  have hsign : ¬(c == code '@') = true := by
    intro he
    rw [beq_iff_eq.mp he] at hc
    cases hc
  rw [hname, List.cons_append]
  exact List.takeWhile_cons_of_neg (p := (· == code '@')) hsign

/-- The name of a splice ends where the rest of the literal begins. -/
theorem IsPlain.apart_literalSource (hp : p.IsPlain) (ps : List Splice) (r : Bytes) :
    ∀ c ∈ (literalSource p.text ps ++ r).head?, isSpliceByte c = false := by
  intro c hc
  cases htext : p.text with
  | cons d w =>
      rw [literalSource, htext] at hc
      obtain rfl : d = c := by simpa using hc
      exact hp.apart d (by rw [htext]; rfl)
  | nil =>
      rw [literalSource, htext] at hc
      have hc : c = code '@' ∨ c = code ']' := by
        cases ps with
        | nil => exact .inr (by simpa using hc.symm)
        | cons q ps => exact .inl (by simpa [source] using hc.symm)
      rcases hc with rfl | rfl <;> rfl

end Splice

/-- A part of a text that is put together: a text, or the value of an alias. -/
inductive Part where
  | text (s : Bytes)
  | alias (index : Nat)

/-- The parts of a block literal, where aliases have indices. -/
def literalParts (index : Bytes → Nat) (t : Bytes) (ps : List Splice) : List Part :=
  .text t :: ps.flatMap fun p => [.alias (index p.name), .text p.text]

def aliasCode (i : Nat) : Code :=
  plain (if i < maxArgs then .lookupViewArg else .lookupView) .null i

/-- Code that leaves so many operands, whose texts one after another are those of parts. -/
inductive Joins : Code → Nat → List Part → Prop
  | nil : Joins [] 0 []
  | text {c : Code} {n : Nat} {parts : List Part} (h : Joins c n parts) (hn : n ≤ maxArgs)
      (s : Bytes) : Joins (c ++ viewCode s) (n + 1) (parts ++ [.text s])
  | alias {c : Code} {n : Nat} {parts : List Part} (h : Joins c n parts) (hn : n ≤ maxArgs)
      (i : Nat) : Joins (c ++ aliasCode i) (n + 1) (parts ++ [.alias i])
  | join {c : Code} {n : Nat} {parts : List Part} (h : Joins c n parts) :
      Joins (c ++ plain .concWord .text n) 1 parts
  /-- Nothing stands for an empty text. -/
  | empty {c : Code} {n : Nat} {parts : List Part} (h : Joins c n parts) :
      Joins c n (parts ++ [.text []])

/-- The place takes a value, and neither code nor a name. -/
def Want.isValue : Want → Bool
  | .code | .condition | .ident | .nothing => false
  | _ => true

/-- Code of a block literal behind operands: what is pushed for a single text, and for several parts
their concatenation, in place or by itself. -/
inductive Puts (want : Want) (prev : Nat) : List Part → Code → Prop
  | text {push : Bytes → Code} (hwant : want.pushText? = some push) (t : Bytes) :
      Puts want prev [.text t] (push t)
  | forced (hwant : want = .int ∨ want = .float) (t : Bytes) :
      Puts want prev [.text t] (textCode t ++ plain .force want.tag)
  | int (hwant : want = .int) : Puts want prev [.text []] (intCode (Reading.int []))
  | float (hwant : want = .float) : Puts want prev [.text []] (floatCode (Reading.single []))
  | inPlace {c : Code} {n : Nat} {parts : List Part} (h : Joins c n parts)
      (hprev : prev < maxResults) : Puts want prev parts (c ++ plain .concWord want.tag n)
  | byItself {c : Code} {n : Nat} {parts : List Part} (h : Joins c n parts)
      (hmany : 1 < parts.length) (hprev : maxResults ≤ prev) :
      Puts want prev parts [.spill (c ++ plain .concResult want.tag n) want.tag]

/-- The aliases of splices have indices in a table. -/
def Indexes (t : Table) (index : Bytes → Nat) (ps : List Splice) : Prop :=
  ∀ p ∈ ps, ∃ id, t.lookup? p.name = some (index p.name, id) ∧ id.role = .alias

/-- What stands in a block literal: a text, and splices of aliases with the texts behind them. -/
structure Template where
  text : Bytes
  splices : List Splice

namespace Template

/-- The source of the literal behind its opening bracket. -/
def source (m : Template) : Bytes := literalSource m.text m.splices

/-- The parts of the literal, where aliases have indices. -/
def parts (index : Bytes → Nat) (m : Template) : List Part := literalParts index m.text m.splices

/-- The texts stand for themselves, and names end where texts begin. -/
structure IsPlain (m : Template) : Prop where
  text : ∀ c ∈ m.text, isInert c = true
  splices : ∀ p ∈ m.splices, p.IsPlain

end Template

section Texts

variable {s : Bytes} {c : UInt8}

theorem isMark_of_isInert (h : isInert c = true) : isMark c = false := by
  simpa using (Bool.and_eq_true_iff.mp h).1

private theorem verbatim_of_isInert (hs : ∀ c ∈ s, isInert c = true) : Verbatim 0 s := by
  induction s with
  | nil => exact .nil
  | cons c s ih =>
      have hc := isMark_of_isInert (hs c List.mem_cons_self)
      refine .byte (.inl hc) ?_ (ih fun d hd => hs d (List.mem_cons_of_mem c hd))
      have hslash : (c == 0x2F) = false := by
        refine beq_eq_false_iff_ne.mpr ?_
        rintro rfl
        cases hc
      rw [startsComment_eq, hslash, Bool.false_and]

private theorem withoutReturns_of_isInert (hs : ∀ c ∈ s, isInert c = true) :
    withoutReturns s = s := by
  refine withoutReturns_eq_iff.mpr fun hr => ?_
  cases hs _ hr

theorem blockTextCode_of_isInert (hs : ∀ c ∈ s, isInert c = true) (view : Bool) :
    blockTextCode view s = if view then viewCode s else textCode s := by
  rw [blockTextCode, (verbatim_of_isInert hs).blockText, withoutReturns_of_isInert hs]

end Texts

section Steps

variable {k : Nested} {prev : Nat} {st : State} {index : Bytes → Nat} {r s t : Bytes}

private theorem run_advance_append {u : Bytes} (h : st.cursor.rest = u ++ s) :
    ∃ line, (advance u.length).run st = (⟨⟩, st.goTo s line) := by
  obtain ⟨⟨rest, line, name⟩, table, warnings, names⟩ := st
  obtain rfl : rest = u ++ s := h
  refine ⟨line + u.count 0x0A, ?_⟩
  change (PUnit.unit, (⟨Cursor.advance ⟨u ++ s, line, name⟩ u.length, table, warnings, names⟩ :
    State)) = _
  rw [Cursor.advance_append]
  rfl

private theorem run_intern_found {name : Bytes} {i : Nat} (h : st.table.find? name = some i) :
    (intern name).run st = (i, st) := by
  have hfound : st.table.intern name = (i, true, st.table) := by rw [Table.intern, h]
  have hrun : (intern name).run st = StateT.run (m := Id) (do
      if !(st.table.intern name).2.1 then
        note (utf8 "number " ++ name ++ utf8 " is not a valid identifier name")
      return (st.table.intern name).1) { st with table := (st.table.intern name).2.2 } := rfl
  rw [hrun, hfound]
  rfl

/-- The splice of an alias gives its value. -/
theorem run_splice (k : Nested) (prev : Nat) {p : Splice} {id : Ident} {i : Nat} (hp : p.IsPlain)
    (hfound : st.table.lookup? p.name = some (i, id)) (hrole : id.role = .alias)
    (h : st.cursor.rest = p.name ++ s) (hs : ∀ c ∈ s.head?, isSpliceByte c = false) :
    ∃ line, (splice k prev).run st = (some (aliasCode i), st.goTo s line) := by
  obtain ⟨c, w, hname⟩ := List.exists_cons_of_ne_nil hp.nonempty
  have hc := hp.bytes c (hname ▸ List.mem_cons_self)
  have hne {d : UInt8} (hd : isSpliceByte d = false) : (c == d) = false := by
    refine beq_eq_false_iff_ne.mpr ?_
    rintro rfl
    rw [hc] at hd
    cases hd
  have hword : (p.name ++ s).takeWhile isSpliceByte = p.name := by
    rw [List.takeWhile_append_of_pos hp.bytes]
    cases s with
    | nil => exact List.append_nil _
    | cons d s =>
        rw [List.takeWhile_cons_of_neg (Bool.eq_false_iff.mp (hs d rfl)), List.append_nil]
  have hfind := Table.find?_of_lookup? hfound
  have hget := Table.get?_of_lookup? hfound
  have hpeek : peek.run st = (c, st) := by
    change (Bytes.byteAt st.cursor.rest 0, st) = _
    rw [h, hname]
    rfl
  have hcursor (st : State) : cursor.run st = (st.cursor, st) := rfl
  rw [splice, run_bind_eq hpeek, if_neg (by simpa using hne rfl), if_neg (by simpa using hne rfl),
    if_neg (by simpa using hne rfl), run_bind_eq (hcursor st), h]
  have hword' : (p.name ++ s).takeWhile (fun c => Byte.isAlnum c || c == code '_') = p.name := hword
  obtain ⟨line, hadvance⟩ := run_advance_append h
  have hrole' : (roleOf i).run (st.goTo s line) = (.alias, st.goTo s line) := by
    change ((st.table.get? i).elim .alias Ident.role, st.goTo s line) = _
    rw [hget]
    exact congrArg (·, st.goTo s line) hrole
  have hfind' : (st.goTo s line).table.find? p.name = some i := hfind
  have hintern := run_intern_found hfind'
  refine ⟨line, ?_⟩
  dsimp only
  rw [hword', if_neg (by simpa using hp.nonempty), run_bind_eq hadvance,
    run_bind_eq hintern, run_bind_eq hrole']
  rfl

/-- Bytes that are no marks are passed over in a block literal. -/
theorem run_readLiteral_inert (k : Nested) (prev depth fuel : Nat) (sp : Splicing)
    (ht : ∀ c ∈ t, isInert c = true) (h : st.cursor.rest = t ++ s) :
    ∃ line, (readLiteral k prev (fuel + 1) depth sp).run st =
      (readLiteral k prev (fuel + 1) depth sp).run (st.goTo s line) := by
  induction t generalizing st with
  | nil =>
      obtain ⟨⟨rest, line, name⟩, table, warnings, names⟩ := st
      obtain rfl : rest = s := h
      exact ⟨line, rfl⟩
  | cons c t ih =>
      obtain ⟨line, hpass⟩ := run_readLiteral_pass k prev depth fuel
        (isMark_of_isInert (ht c List.mem_cons_self)) h sp
      obtain ⟨line', hrest⟩ := @ih (st.goTo (t ++ s) line)
        (fun d hd => ht d (List.mem_cons_of_mem c hd)) rfl
      exact ⟨line', hpass.trans hrest⟩

/-- The text before a splice and the splice are added to what was read. -/
theorem run_addSplice (k : Nested) (prev : Nat) {p : Splice} {id : Ident} {i : Nat}
    {parts : List Part} {sp : Splicing} (hp : p.IsPlain) (hfound : st.table.lookup? p.name = some (i, id)) (hrole : id.role = .alias)
    (h : st.cursor.rest = p.name ++ s) (hs : ∀ c ∈ s.head?, isSpliceByte c = false)
    (ht : ∀ c ∈ t, isInert c = true) (hsp : Joins sp.code sp.parts parts) :
    ∃ sp' line, (addSplice k prev t sp).run st = (sp', st.goTo s line) ∧ sp'.source = s ∧
      Joins sp'.code sp'.parts (parts ++ [.text t, .alias i]) ∧ 0 < sp'.parts ∧
      sp'.parts ≤ maxArgs := by
  have hview : blockTextCode true t = viewCode t := blockTextCode_of_isInert ht true
  have hcursor (st : State) : cursor.run st = (st.cursor, st) := rfl
  have hadds {c : Code} {n : Nat} (hc : Joins c n parts) (hn : n + 2 ≤ maxArgs) :
      Joins (c ++ viewCode t ++ aliasCode i) (n + 1 + 1) (parts ++ [.text t, .alias i]) := by
    rw [List.append_cons parts]
    exact (hc.text (by omega) t).alias (by omega) i
  -- Where there would be too many operands, they are joined first.
  obtain ⟨merge, n, hroom, hmerged, hn'⟩ : ∃ merge n,
      (if maxArgs < sp.parts + 2 then (plain .concWord .text sp.parts, 1) else ([], sp.parts)) =
        (merge, n) ∧ Joins (sp.code ++ merge) n parts ∧ n + 2 ≤ maxArgs := by
    by_cases hmany : maxArgs < sp.parts + 2
    · exact ⟨_, _, if_pos hmany, hsp.join, by decide⟩
    · exact ⟨_, _, if_neg hmany, by rwa [List.append_nil], by omega⟩
  obtain ⟨line, hsplice⟩ := run_splice k (prev + n + 1) hp hfound hrole h hs
  refine ⟨⟨sp.code ++ merge ++ viewCode t ++ aliasCode i, n + 1 + 1, s⟩, line, ?_, rfl,
    hadds hmerged hn', Nat.succ_pos _, hn'⟩
  rw [addSplice, hroom]
  dsimp only
  rw [run_bind_eq hsplice, run_bind_eq (hcursor _), hview]
  rfl

/-- One sign behind one bracket makes a splice. -/
theorem run_readMark_splice (k : Nested) (prev fuel : Nat) (sp : Splicing)
    (h : st.cursor.rest.takeWhile (· == code '@') = []) (here : Bytes) :
    (readMark k prev fuel 1 sp here (code '@')).run st = StateT.run (m := Id) (do
      readLiteral k prev fuel 1 (← addSplice k prev (sp.segment here) sp)) st := by
  have hmark : (readMark k prev fuel 1 sp here (code '@')).run st = StateT.run (m := Id) (do
      let more := (st.cursor.rest.takeWhile (· == code '@')).length
      advance more
      if more + 1 < 1 then readLiteral k prev fuel 1 sp
      else
        if 1 < more + 1 then warn (utf8 "too many @s")
        readLiteral k prev fuel 1 (← addSplice k prev (sp.segment here) sp)) st := rfl
  rw [hmark, h]
  rfl

/-- A block literal with splices of aliases is read up to its closing bracket: what is left of its
parts is the text behind the last splice. -/
theorem run_readLiteral_splices {ps : List Splice} {parts : List Part} {sp : Splicing} {fuel : Nat}
    (k : Nested) (prev : Nat) (ht : ∀ c ∈ t, isInert c = true) (hps : ∀ p ∈ ps, p.IsPlain)
    (hindex : Indexes st.table index ps) (h : st.cursor.rest = literalSource t ps ++ r)
    (hsource : sp.source = st.cursor.rest) (hsp : Joins sp.code sp.parts parts)
    (hn : sp.parts ≤ maxArgs) (hfuel : ps.length < fuel) :
    ∃ sp' last line, (readLiteral k prev fuel 1 sp).run st = ((sp', last), st.goTo r line) ∧
      (∃ parts', Joins sp'.code sp'.parts parts' ∧
        parts' ++ [.text last] = parts ++ literalParts index t ps) ∧
      (∀ c ∈ last, isInert c = true) ∧ sp'.parts ≤ maxArgs ∧
      (ps = [] → sp' = sp ∧ last = t) ∧ (ps ≠ [] → 0 < sp'.parts) := by
  induction ps generalizing st sp parts t fuel with
  | nil =>
      obtain ⟨fuel, rfl⟩ : ∃ n, fuel = n + 1 := ⟨fuel - 1, by omega⟩
      have h : st.cursor.rest = t ++ code ']' :: r := by simpa [literalSource] using h
      obtain ⟨line, hpass⟩ := run_readLiteral_inert k prev 1 fuel sp ht h
      have hclosing : (st.goTo (code ']' :: r) line).cursor.rest = code ']' :: r := rfl
      obtain ⟨line', hat⟩ := run_readLiteral_at k prev 1 fuel (by decide) hclosing sp
      have hsegment : sp.segment (code ']' :: r) = t := Splicing.segment_eq (hsource.trans h)
      refine ⟨sp, t, line', hpass.trans (hat.trans ?_), ⟨parts, hsp, rfl⟩, ht, hn,
        fun _ => ⟨rfl, rfl⟩, fun h => absurd rfl h⟩
      change ((sp, sp.segment (code ']' :: r)), st.goTo r line') = _
      rw [hsegment]
  | cons p ps ih =>
      obtain ⟨fuel, rfl⟩ : ∃ n, fuel = n + 1 := ⟨fuel - 1, by omega⟩
      obtain ⟨hp, hps⟩ := List.forall_mem_cons.mp hps
      obtain ⟨⟨id, hfound, hrole⟩, hindex⟩ := List.forall_mem_cons.mp hindex
      let behind := p.name ++ (literalSource p.text ps ++ r)
      have h : st.cursor.rest = t ++ code '@' :: behind := by
        simpa [literalSource, Splice.source, behind] using h
      obtain ⟨line, hpass⟩ := run_readLiteral_inert k prev 1 fuel sp ht h
      have hsign : (st.goTo (code '@' :: behind) line).cursor.rest = code '@' :: behind := rfl
      obtain ⟨line', hat⟩ := run_readLiteral_at k prev 1 fuel (by decide) hsign sp
      let st' := st.goTo behind line'
      have hbehind : st'.cursor.rest = p.name ++ (literalSource p.text ps ++ r) := rfl
      have hone : st'.cursor.rest.takeWhile (· == code '@') = [] := hp.no_sign _
      have hfound' : st'.table.lookup? p.name = some (index p.name, id) := hfound
      have hsegment : sp.segment (code '@' :: behind) = t := Splicing.segment_eq (hsource.trans h)
      have hmark : (readMark k prev fuel 1 sp (code '@' :: behind) (code '@')).run
          (st.goTo behind line') = StateT.run (m := Id) (do
            readLiteral k prev fuel 1 (← addSplice k prev t sp)) (st.goTo behind line') := by
        rw [run_readMark_splice k prev fuel sp hone, hsegment]
      obtain ⟨sp₁, line₁, hadd, hsource₁, hjoins₁, hpos₁, hn₁⟩ :=
        run_addSplice k prev hp hfound' hrole hbehind (hp.apart_literalSource ps r) ht hsp
      obtain ⟨sp', last, line₂, hrun, ⟨parts', hjoins, hparts⟩, hlast, hn', hnil, hcons⟩ :=
        @ih (st.goTo (literalSource p.text ps ++ r) line₁) p.text _ sp₁ fuel hp.inert hps hindex rfl
          hsource₁ hjoins₁ hn₁ (Nat.lt_of_succ_lt_succ hfuel)
      rw [run_bind_eq hadd] at hmark
      refine ⟨sp', last, line₂, hpass.trans (hat.trans (hmark.trans hrun)), ⟨parts', hjoins, ?_⟩,
        hlast, hn', nofun, fun _ => ?_⟩
      · rw [hparts]
        simp [literalParts]
      · cases ps with
        | nil => exact (hnil rfl).1 ▸ hpos₁
        | cons q ps => exact hcons (List.cons_ne_nil _ _)

/-- The literal of a text, where a value is wanted. -/
theorem literal_of_isInert (k : Nested) {want : Want} (prev : Nat) (hwant : want.isValue = true)
    (ht : ∀ c ∈ t, isInert c = true) (name : Bytes) (line : Nat) :
    ∃ c, (if t.isEmpty then emptyLiteral k want name else plainLiteral k want t name line) =
        (pure (c ++ lookupTail want) : CompileM Code) ∧ Puts want prev [.text t] c := by
  have hview := blockTextCode_of_isInert ht true
  have htext := blockTextCode_of_isInert ht false
  have hpush {push : Bytes → Code} (hpush : want.pushText? = some push)
      (htail : lookupTail want = [])
      (hempty : emptyLiteral k want name = (pure (push []) : CompileM Code))
      (hplain : plainLiteral k want t name line = (pure (push t) : CompileM Code)) :
      ∃ c, (if t.isEmpty then emptyLiteral k want name else plainLiteral k want t name line) =
        (pure (c ++ lookupTail want) : CompileM Code) ∧ Puts want prev [.text t] c := by
    refine ⟨push t, ?_, .text hpush t⟩
    rw [htail, List.append_nil, hempty, hplain]
    cases t <;> rfl
  have hnumber {c : Code} (hwant : want = .int ∨ want = .float) (htail : lookupTail want = [])
      (hempty : emptyLiteral k want name = (pure c : CompileM Code))
      (hc : Puts want prev [.text []] c)
      (hplain : plainLiteral k want t name line =
        (pure (textCode t ++ plain .force want.tag) : CompileM Code)) :
      ∃ c, (if t.isEmpty then emptyLiteral k want name else plainLiteral k want t name line) =
        (pure (c ++ lookupTail want) : CompileM Code) ∧ Puts want prev [.text t] c := by
    rw [htail, hempty, hplain]
    cases t with
    | nil => exact ⟨c, by rw [List.append_nil]; rfl, hc⟩
    | cons b t => exact ⟨_, by rw [List.append_nil]; rfl, .forced hwant _⟩
  cases want with
  | code | condition | ident | nothing => cases hwant
  | any | text | head => exact hpush rfl rfl rfl (congrArg pure htext)
  | anyView | textView => exact hpush rfl rfl rfl (congrArg pure hview)
  | int => exact hnumber (.inl rfl) rfl rfl (.int rfl) (congrArg (pure <| · ++ _) htext)
  | float => exact hnumber (.inr rfl) rfl rfl (.float rfl) (congrArg (pure <| · ++ _) htext)

private theorem length_le_literalSource (t : Bytes) (ps : List Splice) :
    ps.length ≤ (literalSource t ps).length := by
  have hsplices : ps.length ≤ (ps.flatMap Splice.source).length := by
    induction ps with
    | nil => exact Nat.le_refl 0
    | cons p ps ih =>
        rw [List.flatMap_cons, List.length_append, List.length_cons, Splice.source, List.length_cons]
        omega
  rw [literalSource, List.length_append, List.length_append]
  omega

/-- A block literal with splices of aliases, where a value is wanted or there is a splice, is compiled
to code that puts its parts together; no name is new, and nothing is reported. -/
theorem run_blockLiteral_template {m : Template} (k : Nested) {want : Want} (prev : Nat)
    (hwant : m.splices ≠ [] ∨ want.isValue = true) (hm : m.IsPlain)
    (hindex : Indexes st.table index m.splices) (h : st.cursor.rest = m.source ++ r) :
    ∃ c line, (blockLiteral k want prev).run st = (c ++ lookupTail want, st.goTo r line) ∧
      Puts want prev (m.parts index) c := by
  have hlength : m.splices.length < st.cursor.rest.length + 1 := by
    have := length_le_literalSource m.text m.splices
    rw [h, List.length_append, Template.source]
    omega
  let start : Splicing := { source := st.cursor.rest }
  have hstart : Joins start.code start.parts [] := .nil
  obtain ⟨sp, last, line, hread, ⟨parts, hjoins, hparts⟩, hlast, hn, hnil, hcons⟩ :=
    run_readLiteral_splices k prev hm.text hm.splices hindex h rfl hstart (Nat.zero_le _) hlength
  rw [List.nil_append] at hparts
  rw [run_blockLiteral_read, run_bind_eq hread]
  unfold assembledLiteral
  dsimp only
  by_cases hempty : m.splices = []
  · obtain ⟨rfl, rfl⟩ := hnil hempty
    obtain ⟨c, hc, hputs⟩ := literal_of_isInert k prev (hwant.resolve_left fun h => h hempty) hm.text
      st.cursor.name st.cursor.line
    have hone : m.parts index = [.text m.text] := by rw [Template.parts, hempty]; rfl
    refine ⟨c, line, ?_, hone ▸ hputs⟩
    refine Eq.trans (b := ((if m.text.isEmpty then emptyLiteral k want st.cursor.name
      else plainLiteral k want m.text st.cursor.name st.cursor.line).run (st.goTo r line))) rfl ?_
    rw [hc]
    rfl
  · have hpos := hcons hempty
    rw [if_neg (by simpa using Nat.ne_of_gt hpos)]
    -- Behind the last splice, only a text that is not empty is an operand more.
    obtain ⟨c, n, hlast', hjoins'⟩ : ∃ c n, (if last.isEmpty then ([], sp.parts)
        else (blockTextCode true last, sp.parts + 1)) = (c, n) ∧
          Joins (sp.code ++ c) n (m.parts index) := by
      rw [Template.parts, ← hparts]
      cases last with
      | nil => exact ⟨_, _, rfl, by rw [List.append_nil]; exact hjoins.empty⟩
      | cons b last =>
          refine ⟨_, _, rfl, ?_⟩
          rw [blockTextCode_of_isInert hlast]
          exact hjoins.text hn _
    rw [hlast']
    by_cases hprev : maxResults ≤ prev
    · have hmany : 1 < (m.parts index).length := by
        obtain ⟨p, ps, hps⟩ := List.exists_cons_of_ne_nil hempty
        rw [Template.parts, hps]
        simp [literalParts]
      rw [if_pos hprev]
      exact ⟨_, line, rfl, .byItself hjoins' hmany hprev⟩
    · rw [if_neg hprev]
      exact ⟨_, line, rfl, .inPlace hjoins' (Nat.lt_of_not_le hprev)⟩

/-- So is an argument that begins with the bracket of such a literal. -/
theorem run_argument_template {m : Template} (k : Nested) {want : Want} (prev : Nat)
    (hwant : m.splices ≠ [] ∨ want.isValue = true) (hm : m.IsPlain)
    (hindex : Indexes st.table index m.splices)
    (h : skipBlanks false st.cursor.rest = code '[' :: (m.source ++ r)) :
    ∃ c line, (argument k want prev).run st = (some (c ++ lookupTail want), st.goTo r line) ∧
      Puts want prev (m.parts index) c := by
  let st' := st.goTo (m.source ++ r) st.cursor.line
  have hsource : st'.cursor.rest = m.source ++ r := rfl
  obtain ⟨c, line, hrun, hputs⟩ := run_blockLiteral_template k prev hwant hm
    (show Indexes st'.table index m.splices from hindex) hsource
  refine ⟨c, line, ?_, hputs⟩
  rw [run_argument_bracket k want prev h, hrun]
  rfl

end Steps

section Calls

variable {st : State} {index : Bytes → Nat} {levels : Nat}

/-- The code of block literals one after another, behind operands that are there. -/
inductive PutsAll : (given : Nat) → List (List Part) → Code → Prop
  | nil {n : Nat} : PutsAll n [] []
  | cons {n : Nat} {parts : List Part} {rest : List (List Part)} {c c' : Code}
      (h : Puts .anyView n parts c) (hr : PutsAll (n + 1) rest c') :
      PutsAll n (parts :: rest) (c ++ c')

/-- Block literals as arguments, with blanks in front of them. -/
def templatesSource (ms : List Template) : Bytes :=
  ms.flatMap fun m => 0x20 :: code '[' :: m.source

/-- The arguments of a call that are block literals. -/
theorem run_takeArgs_templates {ms : List Template} (hms : ∀ m ∈ ms, m.IsPlain)
    (hindex : ∀ m ∈ ms, Indexes st.table index m.splices)
    (h : skipBlanks false st.cursor.rest = skipBlanks false (templatesSource ms)) {left : Nat}
    (hleft : ms.length ≤ left)
    (prev given : Nat) :
    ∃ c more r line, (takeArgs (nested (levels + 1)) .anyView prev left given).run st =
        ((c, given + ms.length, more), st.goTo r line) ∧
      PutsAll (prev + given) (ms.map (Template.parts index)) c ∧ Left [] [] more r := by
  induction ms generalizing st left given with
  | nil =>
      have hnone : Spells [] st.cursor.rest [] := .nil h (by decide) rfl
      cases left with
      | zero => exact ⟨[], true, st.cursor.rest, st.cursor.line, rfl, .nil, .words hnone⟩
      | succ left =>
          have harg : ((nested (levels + 1)).arg .anyView (prev + given)).run st =
              (none, st.goTo [] st.cursor.line) := run_argument_none hnone _ _
          refine ⟨[], false, [], st.cursor.line, ?_, .nil, .none⟩
          rw [takeArgs, run_bind_eq harg]
          rfl
  | cons m ms ih =>
      obtain ⟨hm, hms⟩ := List.forall_mem_cons.mp hms
      obtain ⟨hi, hindex⟩ := List.forall_mem_cons.mp hindex
      rw [List.length_cons] at hleft
      obtain ⟨left, rfl⟩ : ∃ n, left = n + 1 := ⟨left - 1, by omega⟩
      have hrest : skipBlanks false st.cursor.rest =
          code '[' :: (m.source ++ templatesSource ms) := by
        rw [h]
        rfl
      have hvalue : m.splices ≠ [] ∨ Want.isValue .anyView = true := .inr rfl
      obtain ⟨c, line, hrun, hputs⟩ :=
        run_argument_template (nested levels) (prev + given) hvalue hm hi hrest
      obtain ⟨c', more, r, line', hrun', hall, hend⟩ := @ih (st.goTo (templatesSource ms) line)
        hms hindex rfl left (Nat.le_of_succ_le_succ hleft) (given + 1)
      have harg : ((nested (levels + 1)).arg .anyView (prev + given)).run st =
          (some (c ++ []), st.goTo (templatesSource ms) line) := hrun
      rw [List.append_nil] at harg
      refine ⟨c ++ c', more, r, line', ?_, .cons hputs hall, hend⟩
      rw [takeArgs, run_bind_eq harg]
      dsimp only
      rw [run_bind_eq hrun', List.length_cons, Nat.add_right_comm, Nat.add_assoc]
      rfl

/-- A text that is a call with block literals, of a command that takes any number of arguments. -/
theorem program_templates {t : Table} {name label : Bytes} {self : Nat} {id : Ident} {action : Action}
    {ms : List Template} (hname : Entry.IsBareWord name) (hne : ms ≠ [])
    (hfound : t.lookup? name = some (self, id)) (hrole : id.role = .command [.all] action)
    (hms : ∀ m ∈ ms, m.IsPlain) (hindex : ∀ m ∈ ms, Indexes t index m.splices)
    (hlength : ms.length ≤ maxArgs) :
    ∃ c st, program t (name ++ templatesSource ms) label =
        (c ++ [.instr (.call .comAll .null ms.length self)], st) ∧
      st.table = t ∧ st.warnings = [] ∧ PutsAll 0 (ms.map (Template.parts index)) c := by
  obtain ⟨m, ms, rfl⟩ := List.exists_cons_of_ne_nil hne
  obtain ⟨src, hsrc⟩ : ∃ src, src = name ++ templatesSource (m :: ms) := ⟨_, rfl⟩
  let behind := code '[' :: (m.source ++ templatesSource ms)
  let st : State := { cursor := { rest := src, name := label }, table := t }
  have hrest : st.cursor.rest = name ++ 0x20 :: behind := hsrc
  obtain ⟨line, hstatement⟩ := run_statement_name (src.length + 3) hname hrest
  have hsign : isAssignment { rest := behind, line, name := label } = false := rfl
  have hindex' : ∀ m' ∈ m :: ms, Indexes (st.goTo behind line).table index m'.splices := hindex
  have hfound' : (st.goTo behind line).table.lookup? name = some (self, id) := hfound
  obtain ⟨c, more, r, line', hargs, hputs, hleft⟩ :=
    @run_takeArgs_templates _ _ (src.length + 3) _ hms hindex' rfl _ hlength 0 0
  have hcall : (commandArgs (nested (src.length + 4)) [Letter.all].toArray self 0
      ((1 + 2) * (maxArgs + 2)) 0 {}).run (st.goTo behind line) =
        ((c ++ [.instr (.call .comAll .null (m :: ms).length self)], more), st.goTo r line') := by
    have hrest : (restOfArgs (nested (src.length + 4)) 0 0 true).run (st.goTo behind line) =
        ((c, 0 + (m :: ms).length, more), st.goTo r line') := hargs
    rw [show (1 + 2) * (maxArgs + 2) = 80 + 1 from rfl, commandArgs,
      show [Letter.all].toArray[0]? = some .all from rfl]
    dsimp only
    rw [run_bind_eq hrest, Nat.zero_add]
    rfl
  have hbehind : skipBlanks false behind = behind := rfl
  rw [hbehind, show st.cursor.name = label from rfl, hsign, if_neg Bool.false_ne_true,
    run_callBare_command _ false 0 hfound' hrole] at hstatement
  obtain ⟨st', hprogram, htable, hwarnings⟩ :=
    program_statement rfl (hstatement.trans hcall) hleft
  rw [← hsrc]
  exact ⟨c, st', hprogram, htable, hwarnings, hputs⟩

end Calls

end ConsoleScript.Compile
