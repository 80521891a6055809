import ConsoleScript.Proofs.Compile.ConfigScripts
import ConsoleScript.Proofs.Engine.Compiling
import ConsoleScript.Proofs.Engine.Operands
import ConsoleScript.Proofs.Persist.Restoring

/-!
Config scripts, run. The code of an entry pushes its value and writes it to the identifier of its name,
which then has the text of the entry. So a run through the code of entries brings them back one after
another, and leaves all other identifiers as they are.
-/

namespace ConsoleScript

open Bytecode Engine Compile

variable {k : Runner} {b : Block} {a : Activation} {s s' : Interp} {t : Table} {i : Nat}
  {id id' : Ident} {e : Entry} {v : Value}

/-- An identifier takes the text of an entry, or it is a variable that refuses to be written and has the
text already. -/
inductive Interp.Takes (s : Interp) (e : Entry) (i : Nat) (id : Ident) : Prop
  | receives (h : s.Receives e i id)
  | refuses (hid : s.table.get? i = some id) (hname : id.name = e.name)
      (hkind : e.kind = utf8 id.role.kindName) (hvar : id.role.isVar = true) (hopen : id.flags.readOnly = false)
      (hoverride : id.flags.override = true) (hpersist : id.flags.persist = true)
      (htext : s.textOf id = e.value)

/-- An identifier of the kind of an entry has its text, and an alias the flags of writes. -/
structure Interp.Brought (s : Interp) (e : Entry) (i : Nat) (id : Ident) : Prop
    extends s.Restored e i id where
  kind : e.kind = utf8 id.role.kindName
  «alias» : id.role = .alias → id.value.settle.isNull = false ∧ id.flags = s.writeFlags

/-- Entries are brought back, variables keep their flags, and nothing else changes that identifiers
depend on. -/
structure Interp.BringsBack (es : List Entry) (s s' : Interp) : Prop where
  lasts : s.table.Lasts s'.table
  cells : ∀ c, s'.cell c = s.cell c
  writeFlags : s'.writeFlags = s.writeFlags
  brought : ∀ e ∈ es, ∃ i id, s'.Brought e i id
  others : ∀ i id, s.table.get? i = some id → (∀ e ∈ es, e.name ≠ id.name) →
    s'.table.get? i = some id
  absent : ∀ i, s.table.get? i = none → s'.table.get? i = none
  flags : ∀ i id id', s.table.get? i = some id → s'.table.get? i = some id' → id.role.isVar = true →
    id'.flags = id.flags

/-- The instruction that writes an identifier of a role as an assignment does. -/
inductive Engine.Writer : Op → Role → Prop
  | int {least greatest : Int32} {store : IntStore} {watch : Watch} :
      Writer .setIntVar (.intVar least greatest store watch)
  | text {old : Bytes} {watch : Watch} : Writer .setTextVar (.textVar old watch)
  | «alias» : Writer .alias .alias

section Entries

theorem Interp.Takes.found (h : s.Takes e i id) : s.table.get? i = some id := by
  cases h with
  | receives h => exact h.found
  | refuses hid => exact hid

theorem Interp.Takes.puts {j : Nat} (h : s.Takes e j id) (hput : s.Puts i id' s') (hij : i ≠ j) :
    s'.Takes e j id := by
  have hget : s'.table.get? j = some id := by rw [hput.table, if_neg hij, h.found]
  cases h with
  | receives h => exact .receives ⟨hget, h.name, h.kind, h.readOnly, h.suits⟩
  | refuses _ hname hkind hvar hopen hoverride hpersist htext =>
      exact .refuses hget hname hkind hvar hopen hoverride hpersist
        ((Interp.textOf_of_cells hput.cells id).trans htext)

theorem Interp.Takes.kind (h : s.Takes e i id) : e.kind = utf8 id.role.kindName := by
  cases h with
  | receives h => exact h.kind
  | refuses _ _ hkind => exact hkind

/-- The flags of writes stay as they are while they agree with the number that says whether new aliases
persist. -/
theorem Interp.Puts.writeFlags (h : s.Puts i id' s')
    (hstep : s.writeFlags.persist = (s.persistence != 0)) : s'.writeFlags = s.writeFlags := by
  have hnumber : s'.persistence = s.persistence := h.cells .persistence
  have hpersist : s'.writeFlags.persist = s.writeFlags.persist := by
    rw [h.inStep hstep, hnumber, hstep]
  have hmode := h.mode
  rwa [← hpersist] at hmode

private theorem outcome_admits_refused (hid : s.table.get? i = some id)
    (hopen : id.flags.readOnly = false)
    (hoverride : id.flags.override = true) (hpersist : id.flags.persist = true) :
    ∃ texts, outcome (admits i) s = (.ok false, warned texts s) := by
  obtain ⟨texts, hwarns⟩ :=
    onlyWarns_debug (utf8 "cannot override persistent variable " ++ id.name) s
  refine ⟨texts, ?_⟩
  rw [admits, outcome_bind_ok (outcome_identAt hid), hopen, if_neg Bool.false_ne_true, override,
    outcome_bind_ok (outcome_get s), hoverride, Bool.or_true, if_pos rfl, hpersist, if_pos rfl]
  exact outcome_bind_ok hwarns _

/-- The text of an entry is written to its identifier, or there already. -/
theorem outcome_assign_takes (hu : s.Unwatched) (hmode : s.WritesPlain) (h : s.Takes e i id)
    (hv : v.Spells e.value id.role) :
    ∃ id' s', outcome (assign k i v) s = (.ok ⟨⟩, s') ∧ s.Puts i id' s' ∧ id.Like id' ∧
      s'.Restored e i id' ∧ (id.role.isVar = true → id'.flags = id.flags) ∧
      (id.role = .alias → id'.value = v ∧ id'.flags = s.writeFlags) := by
  cases h with
  | receives h =>
      obtain ⟨id', s', hok, hput, hlike, -, hrest⟩ := outcome_assign_entry (k := k) hu hmode h hv
      exact ⟨id', s', hok, hput, hlike, hrest⟩
  | refuses hid hname _ hvar hopen hoverride hpersist htext =>
      obtain ⟨texts, hadmits⟩ := outcome_admits_refused hid hopen hoverride hpersist
      have hsame (c : Cell) : (warned texts s).cell c = s.cell c := by cases c <;> rfl
      have hput : s.Puts i id (warned texts s) := by
        refine ⟨fun j => ?_, hsame, rfl, fun h => h⟩
        split
        next hj => rw [← hj]; exact hid
        next => rfl
      refine ⟨id, warned texts s, ?_, hput, .refl id, ⟨hid, hname, fun _ =>
        (Interp.textOf_of_cells hsame id).trans htext⟩, fun _ => rfl, fun hrole => ?_⟩
      · rw [assign, outcome_bind_ok (outcome_identAt hid)]
        generalize id.role = role at hvar
        cases role with
        | intVar | floatVar | textVar => exact outcome_bind_ok hadmits _
        | command | control | «alias» => cases hvar
      · rw [hrole] at hvar
        cases hvar

end Entries

section Steps

/-- An identifier that is like one that is written by an instruction is written by it, too. -/
theorem Engine.Writer.like {op : Op} (h : Writer op id.role) (hlike : id.Like id') :
    Writer op id'.role := by
  have hrole := hlike.2
  generalize id.role = role at h hrole
  generalize id'.role = role' at hrole
  cases h with
  | @int least greatest store watch =>
      cases role' with
      | intVar => exact .int
      | _ => cases store <;> cases hrole
  | text =>
      cases role' with
      | textVar => exact .text
      | intVar least greatest store watch => cases store <;> cases hrole
      | _ => cases hrole
  | «alias» =>
      rw [Role.emptied_eq_alias hrole]
      exact .alias

/-- Such an instruction takes the value from the stack and assigns it. -/
theorem outcome_perform_writer {op : Op} (hop : Writer op id.role) (hid : s.table.get? i = some id)
    (hi : id.role = .alias → maxArgs ≤ i) (hfits : i < operandLimit) (pc : Nat) :
    outcome (perform k b op (Word.make op .null (UInt32.ofNat i))
      { a with pc, stack := v :: a.stack }) s =
      outcome (do assign k i v; return { a with pc }) s := by
  have hread : outcome (Activation.identIn b { a with pc, stack := v :: a.stack } i) s =
      (.ok id, s) := by
    rw [World.outcome_identIn, hid]
  have hassign {m : Engine Unit} (h : outcome (assign k i v) s = outcome m s) :
      outcome (do assign k i v; return { a with pc }) s =
        outcome (do m; return { a with pc }) s := by
    rw [outcome_bind, outcome_bind, h]
  have harg (op : Op) := Word.toNat_arg_make op .null hfits
  have hbegin : outcome (assign k i v) s = outcome _ s := outcome_bind_ok (outcome_identAt hid) _
  generalize hrole : id.role = role at hop
  rw [hrole] at hbegin hi
  cases hop with
  | int | text =>
      rw [hassign hbegin, perform, harg]
      simp only [stepVariable]
      exact outcome_bind_ok hread _
  | «alias» =>
      dsimp only at hbegin
      rw [if_neg (Nat.not_lt.mpr (hi rfl))] at hbegin
      rw [hassign hbegin, perform, harg]
      simp only [stepAlias]
      exact outcome_bind_ok hread _

/-- A literal is pushed and assigned. -/
theorem leads_assign (hk : Forward k) {x : Instr} (hx : x.IsLiteral) {op : Op}
    (hop : Writer op id.role) (hid : s.table.get? i = some id)
    (hi : id.role = .alias → maxArgs ≤ i) (hfits : i < operandLimit)
    (hw : b.Holds a.pc (Code.words a.pc ([.instr x] ++ plain op .null i)))
    (hroom : a.stack.length < maxOperands) : ∃ l, x.lit.Alike l ∧
      ∀ s', outcome (assign k i (literalValue x.op l)) s = (.ok ⟨⟩, s') →
        Leads k b a s
          { a with pc := a.pc + (Code.words a.pc ([.instr x] ++ plain op .null i)).length } s' := by
  have hplain : op ≠ .exit ∧ op.isLiteral = false := by
    generalize id.role = role at hop
    cases hop <;> exact ⟨nofun, rfl⟩
  have hwords : Code.words a.pc ([.instr x] ++ plain op .null i) =
      x.encode ++ [Word.make op .null (UInt32.ofNat i)] := by
    rw [words_append, words_plain hplain.2]
    simp only [Code.words, Piece.words, List.append_nil]
  rw [hwords] at hw ⊢
  obtain ⟨hpush, hwrite⟩ := Block.holds_append.mp hw
  obtain ⟨l, hl, hleads⟩ := leads_literal hk hx hpush hroom s
  refine ⟨l, hl, fun s' hok => hleads.trans ?_⟩
  refine .step hk (Block.holds_cons.mp hwrite).1 (Word.op?_make ..) hplain.1 ?_ rfl
  rw [outcome_perform_writer hop hid hi hfits, List.length_append, ← Nat.add_assoc]
  exact outcome_bind_ok hok _

/-- The code of an entry brings it back. -/
theorem leads_entry (hk : Forward k) {code : Code} (hc : Writes t e code)
    (hsize : t.size ≤ operandLimit) (hshort : e.value.length < operandLimit) (hu : s.Unwatched)
    (hmode : s.WritesPlain) (ht : t.Lasts s.table)
    (hat : ∀ i id, s.table.get? i = some id → id.name = e.name → s.Takes e i id)
    (hw : b.Holds a.pc (Code.words a.pc code)) (hroom : a.stack.length < maxOperands) :
    ∃ i id id' s', s.Takes e i id ∧ id.name = e.name ∧
      Leads k b a s { a with pc := a.pc + (Code.words a.pc code).length } s' ∧
      s.Puts i id' s' ∧ id.Like id' ∧ s'.Restored e i id' ∧
      (id.role.isVar = true → id'.flags = id.flags) ∧
      (id.role = .alias → id'.value.settle.isNull = false ∧ id'.flags = s.writeFlags) := by
  -- The kinds of entries differ in the instructions of their code.
  have hgeneral {i : Nat} {id₀ : Ident} {x : Instr} {op : Op} (hid₀ : t.get? i = some id₀)
      (hname : id₀.name = e.name) (hop : Writer op id₀.role) (hi : id₀.role = .alias → maxArgs ≤ i)
      (hx : x.IsLiteral)
      (hw : b.Holds a.pc (Code.words a.pc ([.instr x] ++ plain op .null i)))
      (hv : ∀ id : Ident, Writer op id.role → ∀ l, x.lit.Alike l →
        (literalValue x.op l).Spells e.value id.role ∧ (literalValue x.op l).settle.isNull = false) :
      ∃ j id id' s', s.Takes e j id ∧ id.name = e.name ∧ Leads k b a s
          { a with pc := a.pc + (Code.words a.pc ([.instr x] ++ plain op .null i)).length } s' ∧
        s.Puts j id' s' ∧ id.Like id' ∧ s'.Restored e j id' ∧
        (id.role.isVar = true → id'.flags = id.flags) ∧
        (id.role = .alias → id'.value.settle.isNull = false ∧ id'.flags = s.writeFlags) := by
    obtain ⟨id, hid, hlike⟩ := ht.kept i id₀ hid₀
    have hfits : i < operandLimit := Nat.lt_of_lt_of_le (Table.lt_size_of_get? hid₀) hsize
    have hop := hop.like hlike
    obtain ⟨l, hl, hleads⟩ := leads_assign hk hx hop hid
      (fun hrole => hi (hlike.alias_iff.mp hrole)) hfits hw hroom
    obtain ⟨hspells, hnull⟩ := hv id hop l hl
    have htakes := hat i id hid (hlike.1.trans hname)
    obtain ⟨id', s', hok, hput, hlike', hrestored, hvar, halias⟩ :=
      outcome_assign_takes (k := k) hu hmode htakes hspells
    refine ⟨i, id, id', s', htakes, hlike.1.trans hname, hleads s' hok, hput, hlike', hrestored, hvar,
      fun hrole => ?_⟩
    obtain ⟨hvalue, hflags⟩ := halias hrole
    exact ⟨by rw [hvalue, hnull], hflags⟩
  cases hc with
  | int hid hname hrole =>
      refine hgeneral hid hname (hrole ▸ .int) (fun h => by rw [hrole] at h; cases h)
        (.int (Reading.int e.value)) hw fun id hop l hl => ?_
      rw [lit_ofInt] at hl
      cases hl
      generalize id.role = role at hop
      cases hop
      exact ⟨rfl, rfl⟩
  | text hid hname hrole =>
      refine hgeneral hid hname (hrole ▸ .text) (fun h => by rw [hrole] at h; cases h)
        (.view e.value hshort) hw fun id hop l hl => ?_
      cases hl
      generalize id.role = role at hop
      cases hop
      exact ⟨rfl, rfl⟩
  | «alias» hid hname hrole hi =>
      refine hgeneral hid hname (hrole ▸ .alias) (fun _ => hi) (.text e.value hshort) hw
        fun id hop l hl => ?_
      rw [lit_ofText] at hl
      cases hl
      generalize id.role = role at hop
      cases hop
      exact ⟨rfl, rfl⟩

end Steps

section Runs

variable {es : List Entry} {code : Code}

namespace Interp.BringsBack

theorem nil (s : Interp) : s.BringsBack [] s :=
  ⟨.refl _, fun _ => rfl, rfl, nofun, fun _ _ hid _ => hid, fun _ hnone => hnone,
    fun _ _ _ hid hid' _ => by cases hid.symm.trans hid'; rfl⟩

/-- One entry is brought back, and then others. -/
theorem cons {s₁ : Interp} (hid : s.table.get? i = some id) (hname : id.name = e.name)
    (hput : s.Puts i id' s₁) (hlike : id.Like id') (hvar : id.role.isVar = true → id'.flags = id.flags)
    (hflags : s₁.writeFlags = s.writeFlags) (hbrought : s₁.Brought e i id')
    (hne : e.name ∉ es.map Entry.name) (h : s₁.BringsBack es s') : s.BringsBack (e :: es) s' := by
  have hfirst : s'.table.get? i = some id' :=
    h.others i id' hput.get? fun e' he' heq => hne (hbrought.name ▸ heq ▸ List.mem_map_of_mem he')
  refine ⟨(hput.lasts hid hlike).trans h.lasts, fun c => (h.cells c).trans (hput.cells c),
    h.writeFlags.trans hflags, fun e' he' => ?_, fun j id₂ hid₂ hothers => ?_, fun j hnone => ?_,
    fun j id₂ id₃ hid₂ hid₃ hvar₂ => ?_⟩
  · rcases List.mem_cons.mp he' with rfl | he'
    · refine ⟨i, id', ⟨hfirst, hbrought.name, fun hkind => ?_⟩, hbrought.kind, fun hrole => ?_⟩
      · rw [textOf_of_cells h.cells, hbrought.text hkind]
      · rw [h.writeFlags]
        exact hbrought.alias hrole
    · exact h.brought e' he'
  · have hij : i ≠ j := by
      rintro rfl
      cases hid.symm.trans hid₂
      exact hothers e List.mem_cons_self hname.symm
    refine h.others j id₂ ?_ fun e' he' => hothers e' (List.mem_cons_of_mem e he')
    rw [hput.table, if_neg hij, hid₂]
  · have hij : i ≠ j := by
      rintro rfl
      rw [hid] at hnone
      cases hnone
    exact h.absent j (by rw [hput.table, if_neg hij, hnone])
  · by_cases hij : i = j
    · subst hij
      cases hid.symm.trans hid₂
      exact (h.flags i id' id₃ hput.get? hid₃ (hlike.isVar.trans hvar₂)).trans (hvar hvar₂)
    · exact h.flags j id₂ id₃ (by rw [hput.table, if_neg hij, hid₂]) hid₃ hvar₂

private theorem ended (h : s.BringsBack es s') (l : Level) (v : Value) :
    s.BringsBack es { s'.setLevel l with result := v } := by
  have hcells (c : Cell) : ({ s'.setLevel l with result := v } : Interp).cell c = s'.cell c := by
    cases c <;> rfl
  refine ⟨h.lasts, fun c => (hcells c).trans (h.cells c), h.writeFlags, fun e he => ?_, h.others,
    h.absent, h.flags⟩
  obtain ⟨i, id, hbrought⟩ := h.brought e he
  refine ⟨i, id, ⟨hbrought.found, hbrought.name, fun hkind => ?_⟩, hbrought.kind, hbrought.alias⟩
  rw [textOf_of_cells hcells, hbrought.text hkind]

end Interp.BringsBack

/-- The code of entries brings them back one after another. -/
theorem leads_entries (hk : Forward k) (hall : WritesAll t es code) (hsize : t.size ≤ operandLimit)
    (hshort : ∀ e ∈ es, e.value.length < operandLimit) (hu : s.Unwatched) (hmode : s.WritesPlain)
    (hstep : s.writeFlags.persist = (s.persistence != 0)) (hd : s.table.Distinct)
    (ht : t.Lasts s.table) (hnames : (es.map Entry.name).Nodup)
    (hat : ∀ e ∈ es, ∀ i id, s.table.get? i = some id → id.name = e.name → s.Takes e i id)
    (hw : b.Holds a.pc (Code.words a.pc code)) (hroom : a.stack.length < maxOperands) :
    ∃ s', Leads k b a s { a with pc := a.pc + (Code.words a.pc code).length } s' ∧
      s.BringsBack es s' := by
  induction hall generalizing a s with
  | nil => exact ⟨s, .refl k b a s, .nil s⟩
  | @cons e es code rest hc _ ih =>
      rw [words_append, Block.holds_append] at hw
      rw [List.map_cons, List.nodup_cons] at hnames
      obtain ⟨i, id, id', s₁, htakes, hname, hleads, hput, hlike, hrestored, hvar, halias⟩ :=
        leads_entry hk hc hsize (hshort e List.mem_cons_self) hu hmode ht
          (hat e List.mem_cons_self) hw.1 hroom
      have hid := htakes.found
      have hlasts := hput.lasts hid hlike
      have hflags := hput.writeFlags hstep
      have hstep₁ : s₁.writeFlags.persist = (s₁.persistence != 0) := hput.inStep hstep
      -- What the other entries are for is at other indices.
      have hlater (e' : Entry) (he' : e' ∈ es) (j : Nat) (id₂ : Ident)
          (hid₂ : s₁.table.get? j = some id₂) (hname₂ : id₂.name = e'.name) : s₁.Takes e' j id₂ := by
        have hij : i ≠ j := by
          rintro rfl
          cases hput.get?.symm.trans hid₂
          exact hnames.1 (hname ▸ hlike.1 ▸ hname₂ ▸ List.mem_map_of_mem he')
        rw [hput.table, if_neg hij] at hid₂
        exact (hat e' (List.mem_cons_of_mem e he') j id₂ hid₂ hname₂).puts hput hij
      obtain ⟨s', hleads', hback⟩ := ih
        (a := { a with pc := a.pc + (Code.words a.pc code).length })
        (fun e' he' => hshort e' (List.mem_cons_of_mem e he')) (hu.lasts hlasts) (hmode.puts hput) hstep₁
        (hlasts.distinct hd) (ht.trans hlasts) hnames.2 hlater hw.2 hroom
      have hbrought : s₁.Brought e i id' := by
        refine ⟨hrestored, ?_, fun hrole => ?_⟩
        · rw [htakes.kind, ← Role.kindName_emptied, ← hlike.2, Role.kindName_emptied]
        · rw [hflags]
          exact halias (hlike.alias_iff.mp hrole)
      refine ⟨s', hleads.trans ?_, .cons hid hname hput hlike hvar hflags hbrought hnames.1 hback⟩
      rw [words_append, List.length_append, ← Nat.add_assoc]
      exact hleads'

/-- Entries whose statements can be read are brought back when their script is executed. Their aliases
were named before. -/
theorem outcome_execute_entries {src : Bytes}
    (hsrc : src = Interp.configHeader ++ Interp.statementLines false es)
    (hnames : ∀ e ∈ es, Entry.IsName e.name) (hes : ∀ e ∈ es, e.Readable s.table)
    (hnodup : (es.map Entry.name).Nodup) (hmax : maxArgs ≤ s.table.size)
    (hsize : (compile s.table src []).table.size ≤ operandLimit)
    (hshort : ∀ e ∈ es, e.value.length < operandLimit) (hroom : 0 < s.maxDepth.toNat)
    (hu : s.Unwatched) (hmode : s.WritesPlain)
    (hstep : s.writeFlags.persist = (s.persistence != 0)) (hd : s.table.Distinct)
    (hat : ∀ e ∈ es, ∀ i id, s.table.get? i = some id → id.name = e.name → s.Takes e i id) :
    ∃ (v : Value) (s₁ s' : Interp), outcome (execute src) s = (.ok (.ok v), s') ∧
      s₁.table = s.table.naming (Entry.aliasNames es) ∧ s₁.writeFlags = s.writeFlags ∧
      s₁.BringsBack es s' := by
  obtain ⟨code, st, hprogram, htable, -, hall⟩ := program_configScript (fun e he => (hnames e he).isWord) hes hnodup hmax
  rw [← hsrc] at hprogram
  have hcompiled : (compile s.table src []).table = s.table.naming (Entry.aliasNames es) := by
    rw [compile_table, hprogram, htable]
  have hblock : (compile s.table src []).block = toBlock [] code := by
    rw [compile_block, hprogram]
  obtain ⟨texts, hcompile⟩ := outcome_compileText src [] s
  rw [hcompiled] at hsize
  rw [hcompiled, hblock] at hcompile
  let s₁ := (warned texts (s.addCompiled src [] (s.table.naming (Entry.aliasNames es)))).setLevel
    s.level.inner
  have hcells (c : Cell) : s₁.cell c = s.cell c := by cases c <;> rfl
  have hlasts : s.table.Lasts s₁.table := by
    have hmeets := (meets_compileText (G := .lasting False) src [] s False.elim).1
    rwa [hcompile] at hmeets
  -- The identifiers of the names take the texts also when the aliases have been named.
  have hat₁ (e : Entry) (he : e ∈ es) (i : Nat) (id : Ident) (hid : s₁.table.get? i = some id)
      (hname : id.name = e.name) : s₁.Takes e i id := by
    rcases Nat.lt_or_ge i s.table.size with hlt | hge
    · have hold : s.table.get? i = some id := (Table.get?_naming _ hlt).symm.trans hid
      cases hat e he i id hold hname with
      | receives h => exact .receives ⟨hid, h.name, h.kind, h.readOnly, h.suits⟩
      | refuses _ _ hkind hvar hopen hoverride hpersist htext =>
          exact .refuses hid hname hkind hvar hopen hoverride hpersist
            ((Interp.textOf_of_cells hcells id).trans htext)
    · obtain ⟨n, hn, rfl⟩ := Table.of_get?_naming _ hid hge
      obtain ⟨e', he', rfl⟩ := List.mem_map.mp hn
      obtain ⟨he', hkind⟩ := List.mem_filter.mp he'
      cases List.inj_on_of_nodup_map hnodup he' he hname
      exact .receives ⟨hid, rfl, beq_iff_eq.mp hkind, rfl, .alias rfl (Nat.le_trans hmax hge)⟩
  obtain ⟨room, hroom⟩ : ∃ n, s.maxDepth.toNat = n + 1 := ⟨s.maxDepth.toNat - 1, by omega⟩
  obtain ⟨hw, -⟩ := Block.holds_append.mp (holds_toBlock [] code)
  obtain ⟨s', hleads, hback⟩ := leads_entries (a := { pc := 1 }) (forward_run room) hall hsize hshort
    (hu.lasts hlasts) hmode hstep (hlasts.distinct hd) (.refl _) hnodup hat₁ hw (by decide)
  refine ⟨.null, s₁, _, ?_, rfl, rfl, hback.ended (s.level.outer s'.level) .null⟩
  rw [execute, outcome_runner, hroom, executeText, outcome_protect, Leads.runText hcompile hleads]
  rfl

end Runs

end ConsoleScript
