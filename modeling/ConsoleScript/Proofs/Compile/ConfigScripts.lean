import ConsoleScript.Proofs.Compile.EntryStatements
import ConsoleScript.Proofs.Interp.Naming

/-!
Config scripts, compiled. The script of entries that can be read back is compiled to code that writes
them one after another. The names of its aliases become identifiers behind those that there were.
-/

namespace ConsoleScript

open Bytecode Syntax Compile

namespace Compile

/-- Code that pushes the value of an entry and writes it to the identifier of its name. -/
inductive Writes (t : Table) (e : Entry) : Code → Prop
  | int {i : Nat} {id : Ident} {least greatest : Int32} {store : IntStore} {watch : Watch}
      (hid : t.get? i = some id) (hname : id.name = e.name)
      (hrole : id.role = .intVar least greatest store watch) :
      Writes t e (intCode (Reading.int e.value) ++ plain .setIntVar .null i)
  | text {i : Nat} {id : Ident} {old : Bytes} {watch : Watch} (hid : t.get? i = some id)
      (hname : id.name = e.name) (hrole : id.role = .textVar old watch) :
      Writes t e (viewCode e.value ++ plain .setTextVar .null i)
  | «alias» {i : Nat} {id : Ident} (hid : t.get? i = some id) (hname : id.name = e.name)
      (hrole : id.role = .alias) (hi : maxArgs ≤ i) :
      Writes t e (textCode e.value ++ plain .alias .null i)

/-- Code that writes entries one after another. -/
inductive WritesAll (t : Table) : List Entry → Code → Prop
  | nil : WritesAll t [] []
  | cons {e : Entry} {es : List Entry} {code rest : Code} (h : Writes t e code)
      (hs : WritesAll t es rest) : WritesAll t (e :: es) (code ++ rest)

theorem Writes.mono {t t' : Table} {e : Entry} {code : Code} (h : Writes t e code)
    (ht : ∀ i id, t.get? i = some id → t'.get? i = some id) : Writes t' e code := by
  cases h with
  | int hid hname hrole => exact .int (ht _ _ hid) hname hrole
  | text hid hname hrole => exact .text (ht _ _ hid) hname hrole
  | «alias» hid hname hrole hi => exact .alias (ht _ _ hid) hname hrole hi

end Compile

/-- The statement of an entry can be read where the identifiers are those of a table: a variable is
there, an alias is not, and the value reads back. -/
inductive Entry.Readable (t : Table) (e : Entry) : Prop
  | int {i : Nat} {id : Ident} {least greatest : Int32} {store : IntStore} {watch : Watch}
      (hkind : e.kind = utf8 "var") (hfound : t.lookup? e.name = some (i, id))
      (hrole : id.role = .intVar least greatest store watch)
      (hv : ∀ c ∈ e.value, Byte.isWordByte c = true) (hne : e.value ≠ [])
  | text {i : Nat} {id : Ident} {old : Bytes} {watch : Watch} (hkind : e.kind = utf8 "svar")
      (hfound : t.lookup? e.name = some (i, id)) (hrole : id.role = .textVar old watch)
      (hv : 0x0D ∉ e.value)
  | «alias» (hkind : e.kind = utf8 "alias") (hfree : t.find? e.name = none)
      (hv : Entry.IsClean e.value)

def Entry.aliasNames (es : List Entry) : List Bytes :=
  (es.filter (·.kind == utf8 "alias")).map Entry.name

/-- The table behind the statement of an entry. -/
def Entry.meet (e : Entry) (t : Table) : Table := t.naming (aliasNames [e])

namespace Entry

variable {t : Table} {e e' : Entry} {es : List Entry}

theorem meet_alias (hkind : e.kind = utf8 "alias") (t : Table) :
    e.meet t = t.push (Table.unknownAlias e.name) := by
  rw [meet, aliasNames, List.filter_cons_of_pos (by rw [hkind]; rfl)]
  rfl

theorem meet_var (hkind : (e.kind == utf8 "alias") = false) (t : Table) : e.meet t = t := by
  rw [meet, aliasNames, List.filter_cons_of_neg (by rw [hkind]; decide)]
  rfl

private theorem naming_aliasNames_cons (e : Entry) (es : List Entry) (t : Table) :
    t.naming (aliasNames (e :: es)) = (e.meet t).naming (aliasNames es) := by
  cases hkind : e.kind == utf8 "alias" with
  | true =>
      rw [meet_alias (beq_iff_eq.mp hkind), aliasNames,
        List.filter_cons_of_pos (p := fun e : Entry => e.kind == utf8 "alias") hkind]
      rfl
  | false =>
      rw [meet_var hkind, aliasNames, List.filter_cons_of_neg (by rw [hkind]; decide)]
      rfl

private theorem size_le_meet (e : Entry) (t : Table) : t.size ≤ (e.meet t).size := by
  rw [meet, Table.size_naming]
  exact Nat.le_add_right _ _

/-- What the statement of another name adds is in no way. -/
theorem Readable.meet (h : e'.Readable t) (hne : e.name ≠ e'.name) : e'.Readable (e.meet t) := by
  cases hkind : e.kind == utf8 "alias" with
  | false =>
      rw [meet_var hkind]
      exact h
  | true =>
      rw [meet_alias (beq_iff_eq.mp hkind)]
      have hfind : (t.push (Table.unknownAlias e.name)).find? e'.name = t.find? e'.name := by
        have hother : ¬((Table.unknownAlias e.name).name == e'.name) = true := by
          simpa [Table.unknownAlias] using hne
        rw [Table.find?_push, if_neg hother, Option.or_none]
      have hlookup {i : Nat} {id : Ident} (h : t.lookup? e'.name = some (i, id)) :
          (t.push (Table.unknownAlias e.name)).lookup? e'.name = some (i, id) := by
        have hget := Table.get?_of_lookup? h
        have hpush : (t.push (Table.unknownAlias e.name)).get? i = some id := by
          rw [Table.get?_push, if_neg (Nat.ne_of_lt (Table.lt_size_of_get? hget)), hget]
        rw [Table.lookup?, hfind, Table.find?_of_lookup? h]
        change (do return (i, ← (t.push (Table.unknownAlias e.name)).get? i)) = _
        rw [hpush]
        rfl
      cases h with
      | int hk hfound hrole hv hnil => exact .int hk (hlookup hfound) hrole hv hnil
      | text hk hfound hrole hv => exact .text hk (hlookup hfound) hrole hv
      | «alias» hk hfree hv => exact .alias hk (hfind.trans hfree) hv

end Entry

namespace Compile

section Scripts

variable {levels fuel : Nat} {st : State} {t : Table} {e : Entry} {es : List Entry} {r : Bytes}

/-- The statement of an entry writes its value. -/
theorem lineOf_entry (levels : Nat) (hn : Entry.IsWord e.name) (he : e.Readable st.table)
    (hmax : maxArgs ≤ st.table.size) (h : st.cursor.rest = e.statement ++ 0x0A :: r) :
    ∃ code, LineOf levels st (e.meet st.table) code r ∧ Writes (e.meet st.table) e code := by
  cases he with
  | int hkind hfound hrole hv hne =>
      have hget := Table.get?_of_lookup? hfound
      rw [Entry.meet_var (by rw [hkind]; decide)]
      have hstatement : e.statement = e.name ++ 0x20 :: e.value := by
        rw [Entry.statement, hkind]
        exact (List.append_cons e.name 0x20 e.value).symm
      rw [hstatement, List.append_assoc, List.cons_append] at h
      exact ⟨_, lineOf_int hn hfound hrole hv hne h, .int hget (Table.name_of_lookup? hfound) hrole⟩
  | text hkind hfound hrole hv =>
      have hget := Table.get?_of_lookup? hfound
      rw [Entry.meet_var (by rw [hkind]; decide)]
      have hstatement : e.statement = e.name ++ 0x20 :: escape e.value := by
        rw [Entry.statement, hkind]
        exact (List.append_cons e.name 0x20 (escape e.value)).symm
      rw [hstatement, List.append_assoc, List.cons_append] at h
      exact ⟨_, lineOf_text hn hfound hrole hv h, .text hget (Table.name_of_lookup? hfound) hrole⟩
  | «alias» hkind hfree hv =>
      have hwrites : Writes (e.meet st.table) e (textCode e.value ++ plain .alias .null st.table.size) := by
        refine .alias (show _ = some (Table.unknownAlias e.name) from ?_) rfl rfl hmax
        rw [Entry.meet_alias hkind, Table.get?_push, if_pos rfl]
      rw [Entry.meet_alias hkind] at hwrites ⊢
      refine ⟨_, ?_, hwrites⟩
      have hstatement : e.statement = if Entry.readsBack e.value then
          e.name ++ 0x20 :: code '=' :: 0x20 :: (code '[' :: (e.value ++ [code ']']))
          else e.name ++ 0x20 :: code '=' :: 0x20 :: escape e.value := by
        rw [Entry.statement, hkind]
        change (if Entry.readsBack e.value then e.name ++ utf8 " = [" ++ e.value ++ utf8 "]"
          else e.name ++ utf8 " = " ++ escape e.value) = _
        have hopen : utf8 " = [" = [0x20, code '=', 0x20, code '['] := by decide
        have hclose : utf8 "]" = [code ']'] := by decide
        have hsign : utf8 " = " = [0x20, code '=', 0x20] := by decide
        rw [hopen, hclose, hsign]
        simp
      rw [hstatement] at h
      split at h
      next hback =>
        refine lineOf_alias (code '[' :: (e.value ++ [code ']'])) hn hfree hmax
          (fun st' hst' => ?_) (by simpa using h)
        obtain ⟨line, hrun⟩ : ∃ line, (argument (nested levels) .any 0).run st' =
            (some (textCode (withoutReturns e.value)), st'.goTo (0x0A :: r) line) := by
          refine run_argument_literal rfl (verbatim_of_readsBack hback hv.unbrokenFrom) ?_
          rw [hst', List.cons_append, List.append_assoc]
          rfl
        rw [withoutReturns_eq_iff.mpr hv.1] at hrun
        exact ⟨line, hrun⟩
      next =>
        refine lineOf_alias (escape e.value) hn hfree hmax (fun st' hst' => ?_) (by simpa using h)
        obtain ⟨line, hrun, -⟩ := run_argument_string (nested levels) 0 st' hv.1
          (by rw [hst']; rfl)
        exact ⟨line, hrun⟩

/-- The statements of entries write them one after another. -/
theorem run_statementLines (levels : Nat) (st : State)
    (hnames : ∀ e ∈ es, Entry.IsWord e.name) (hes : ∀ e ∈ es, e.Readable st.table) (hne : (es.map Entry.name).Nodup)
    (hmax : maxArgs ≤ st.table.size) {aliases : Bool}
    (h : st.cursor.rest = Interp.statementLines aliases es) (hfuel : st.cursor.rest.length < fuel) :
    ∃ code line, (statementsFrom (nested (levels + 1)) false 0 0 fuel).run st =
      (code, State.goTo { st with table := st.table.naming (Entry.aliasNames es) } [] line) ∧
      WritesAll (st.table.naming (Entry.aliasNames es)) es code := by
  obtain ⟨fuel, rfl⟩ : ∃ n, fuel = n + 1 := ⟨fuel - 1, by omega⟩
  induction es generalizing st fuel aliases with
  | nil =>
      obtain ⟨line, hrun⟩ := run_statementsFrom_end levels fuel h
      exact ⟨[], line, hrun, .nil⟩
  | cons e es ih =>
      -- The line of the entry, behind which the induction hypothesis applies.
      have hline {st : State} {fuel : Nat} {aliases : Bool} (hes : ∀ e' ∈ e :: es, e'.Readable st.table)
          (hmax : maxArgs ≤ st.table.size)
          (h : st.cursor.rest = e.statement ++ 0x0A :: Interp.statementLines aliases es)
          (hfuel : st.cursor.rest.length < fuel + 1) :
          ∃ code line, (statementsFrom (nested (levels + 1)) false 0 0 (fuel + 1)).run st =
            (code, State.goTo { st with table := st.table.naming (Entry.aliasNames (e :: es)) } [] line) ∧
            WritesAll (st.table.naming (Entry.aliasNames (e :: es))) (e :: es) code := by
        obtain ⟨code, hlineOf, hwrites⟩ := lineOf_entry levels (hnames e List.mem_cons_self)
          (hes e List.mem_cons_self) hmax h
        obtain ⟨line, hrun⟩ := hlineOf.run_statementsFrom fuel
        rw [h, List.length_append, List.length_cons] at hfuel
        obtain ⟨fuel, rfl⟩ : ∃ n, fuel = n + 1 := ⟨fuel - 1, by omega⟩
        rw [List.map_cons, List.nodup_cons] at hne
        obtain ⟨rest, line', hrun', hall⟩ := @ih
          (State.goTo { st with table := e.meet st.table } (Interp.statementLines aliases es) line)
          (fun e' he' => hnames e' (List.mem_cons_of_mem e he'))
          (fun e' he' => (hes e' (List.mem_cons_of_mem e he')).meet fun hsame =>
            hne.1 (hsame ▸ List.mem_map_of_mem he'))
          hne.2 (Nat.le_trans hmax (e.size_le_meet st.table)) aliases rfl fuel
          (show (Interp.statementLines aliases es).length < fuel + 1 by omega)
        rw [Entry.naming_aliasNames_cons]
        refine ⟨code ++ rest, line', ?_, .cons (hwrites.mono fun i id hid => ?_) hall⟩
        · rw [hrun, hrun']
          rfl
        · rw [Table.get?_naming _ (Table.lt_size_of_get? hid), hid]
      have hlines : Interp.statementLines aliases (e :: es) =
          (if (e.kind == utf8 "alias" && !aliases) = true then [0x0A] else []) ++ (e.statement ++
            0x0A :: Interp.statementLines (aliases || e.kind == utf8 "alias") es) := by
        have hfeed : utf8 "\n" = [0x0A] := by decide
        rw [Interp.statementLines, hfeed]
        simp
      rw [hlines] at h
      split at h
      next =>
        -- An empty line stands before the first alias.
        let rest := e.statement ++ 0x0A :: Interp.statementLines (aliases || e.kind == utf8 "alias") es
        have hblank : skipBlanks false st.cursor.rest = 0x0A :: rest := by
          rw [h]
          rfl
        obtain ⟨line, hrun⟩ := (lineOf_blank levels st hblank).run_statementsFrom fuel
        rw [h, List.length_append, List.length_singleton] at hfuel
        obtain ⟨fuel, rfl⟩ : ∃ n, fuel = n + 1 := ⟨fuel - 1, by omega⟩
        have hshorter : (st.goTo rest line).cursor.rest.length < fuel + 1 :=
          Nat.lt_of_add_lt_add_left (Nat.add_comm fuel 1 ▸ hfuel)
        obtain ⟨code, line', hrun', hall⟩ := @hline (st.goTo rest line) fuel
          (aliases || e.kind == utf8 "alias") hes hmax rfl hshorter
        refine ⟨code, line', hrun.trans ?_, hall⟩
        rw [hrun']
        rfl
      next => exact hline hes hmax h hfuel

/-- A config script is compiled to code that writes its entries, and its aliases are met on the way. -/
theorem program_configScript (hnames : ∀ e ∈ es, Entry.IsWord e.name) (hes : ∀ e ∈ es, e.Readable t)
    (hne : (es.map Entry.name).Nodup) (hmax : maxArgs ≤ t.size) :
    ∃ code st, program t (Interp.configHeader ++ Interp.statementLines false es) [] = (code, st) ∧
      st.table = t.naming (Entry.aliasNames es) ∧ st.warnings = [] ∧
      WritesAll (t.naming (Entry.aliasNames es)) es code := by
  obtain ⟨src, hsrc⟩ : ∃ src, src = Interp.configHeader ++ Interp.statementLines false es := ⟨_, rfl⟩
  have hprogram : program t src [] = (statementsFrom (nested (src.length + 3 + 1)) false 0 0
      (src.length + 1)).run { cursor := { rest := src, name := [] }, table := t } := by
    have hcursor (st : State) : cursor.run st = (st.cursor, st) := rfl
    rw [program, statements, StateT.run_bind, hcursor]
    rfl
  have hheader : skipBlanks false src = 0x0A :: Interp.statementLines false es := by
    have hcomment : Interp.configHeader = 0x2F :: 0x2F ::
        (utf8 " written automatically on exit; put overrides in autoexec.cfg" ++ [0x0A]) := by decide
    rw [hsrc, hcomment, List.cons_append, List.cons_append, List.append_assoc]
    exact skipBlanks_slashes (by decide) _
  have hshorter : (Interp.statementLines false es).length < src.length := by
    have hpos : 0 < Interp.configHeader.length := by decide
    rw [hsrc, List.length_append]
    omega
  obtain ⟨line, hrun⟩ := (lineOf_blank (src.length + 3)
    { cursor := { rest := src, name := [] }, table := t } hheader).run_statementsFrom src.length
  obtain ⟨code, line', hrun', hall⟩ := run_statementLines (src.length + 3)
    (State.goTo { cursor := { rest := src, name := [] }, table := t }
      (Interp.statementLines false es) line) hnames hes hne hmax rfl hshorter
  refine ⟨code, State.goTo { cursor := { rest := src, name := [] }
                             table := t.naming (Entry.aliasNames es) } [] line', ?_, rfl, rfl, hall⟩
  rw [← hsrc, hprogram, hrun, hrun']
  rfl

end Scripts

end Compile

end ConsoleScript
