import ConsoleScript.Proofs.Persist.Rewriting

/-!
The config script of an alias. Where the name of the alias is read as one word, the script is compiled
to code that pushes the value and assigns it, and nothing else: run where the name is new, it adds the
alias with its value and changes nothing else that a script could see. The name stands in the script as
it is, so that a name which is no word, as one with a blank, is read as something else.
-/

namespace ConsoleScript

open Bytecode Engine Syntax Compile

/-- The saved form of an alias. -/
def Entry.ofAlias (name value : Bytes) : Entry := ⟨name, utf8 "alias", value⟩

/-- An alias that was written with a text where writes leave the given flags. -/
def Ident.textAlias (name value : Bytes) (flags : Flags) : Ident :=
  { name, role := .alias, value := .ofBytes value, flags }

/-- The config script that brings one alias back. -/
def Interp.aliasScript (name value : Bytes) : Bytes :=
  configHeader ++ statementLines false [.ofAlias name value]

theorem Entry.isClean_of_letters {v : Bytes} (hv : ∀ c ∈ v, Byte.isAlpha c = true) : IsClean v := by
  refine ⟨fun hr => absurd (hv _ hr) (by decide), fun hcaret => ?_⟩
  exact absurd (hv caret (hcaret.mem List.mem_cons_self)) (by decide)

/-- A word begins no comment. -/
theorem Entry.IsWord.startsWith {name : Bytes} (hn : IsWord name) :
    Bytes.startsWith name (utf8 "//") = false := by
  obtain ⟨c, w, rfl⟩ := List.exists_cons_of_ne_nil hn.nonempty
  refine Bool.eq_false_iff.mpr fun hcomment => ?_
  have hslashes : utf8 "//" = [0x2F, 0x2F] := by decide
  rw [hslashes] at hcomment
  have hstarts : startsComment (c :: w) = true := by
    cases w with
    | nil => simp [Bytes.startsWith, Bytes.dropPrefix?] at hcomment
    | cons d w =>
        have hread : Bytes.startsWith (c :: d :: w) [0x2F, 0x2F] = (0x2F == c && 0x2F == d) := by
          change (if (0x2F : UInt8) == c then if (0x2F : UInt8) == d then some w else none
            else none).isSome = _
          cases (0x2F : UInt8) == c <;> cases (0x2F : UInt8) == d <;> rfl
        rw [hread, Bool.and_eq_true, beq_iff_eq, beq_iff_eq] at hcomment
        rw [← hcomment.1, ← hcomment.2]
        rfl
  have hlength := hn.whole
  rw [wordLength, wordLengthIn, hstarts, Bool.or_true, if_pos rfl] at hlength
  cases hlength

namespace Compile

variable {t : Table} {e : Entry} {n v : Bytes}

/-- Where a name belongs to an alias only, code that writes an entry of this name assigns its value to
the alias. -/
theorem Writes.code_eq {code : Code} {j : Nat} (h : Writes t e code)
    (hkey : ∀ i id, t.get? i = some id → id.name = e.name → i = j ∧ id.role = .alias) :
    code = textCode e.value ++ plain .alias .null j := by
  cases h with
  | int hid hname hrole | text hid hname hrole =>
      rw [(hkey _ _ hid hname).2] at hrole
      cases hrole
  | «alias» hid hname _ _ =>
      obtain ⟨rfl, -⟩ := hkey _ _ hid hname
      rfl

/-- The script of an alias is compiled to code that assigns the value to it, without warnings, and
only its name becomes an identifier. -/
theorem program_aliasScript (hn : Entry.IsWord n) (hfree : t.find? n = none) (hv : Entry.IsClean v)
    (hmax : maxArgs ≤ t.size) :
    ∃ st, program t (Interp.aliasScript n v) [] =
        (textCode v ++ plain .alias .null t.size, st) ∧
      st.table = t.push (Table.unknownAlias n) ∧ st.warnings = [] := by
  have hword : ∀ e ∈ [Entry.ofAlias n v], Entry.IsWord e.name := List.forall_mem_singleton.mpr hn
  obtain ⟨code, st, hprogram, htable, hwarnings, hall⟩ := program_configScript hword
    (List.forall_mem_singleton.mpr (.alias rfl hfree hv)) (List.nodup_singleton _) hmax
  have htable' : t.naming (Entry.aliasNames [.ofAlias n v]) = t.push (Table.unknownAlias n) := rfl
  rw [htable'] at htable hall
  refine ⟨st, ?_, htable, hwarnings⟩
  rw [Interp.aliasScript, hprogram]
  cases hall with
  | cons hwrites hrest =>
      cases hrest
      refine congrArg (·, st) ((List.append_nil _).trans (hwrites.code_eq fun i id hid hname => ?_))
      rw [Table.get?_push] at hid
      split at hid
      next hi =>
        cases hid
        exact ⟨hi, rfl⟩
      next => exact absurd hname (Table.name_ne_of_find? hfree hid)

end Compile

section Runs

variable {s A : Interp} {n v src : Bytes}

/-- An interpreter in which the script of an alias was executed. -/
def Interp.withAlias (s : Interp) (n v : Bytes) : Interp :=
  let s₁ := s.addCompiled (aliasScript n v) [] (s.table.push (Table.unknownAlias n))
  let s₂ := (s₁.addWrite s.table.size s.writeFlags).modifyIdent s.table.size fun id =>
    { id.setValue (.ofBytes v) with flags := s.writeFlags }
  { s₂ with result := .null }

theorem Interp.table_withAlias (s : Interp) (n v : Bytes) :
    (s.withAlias n v).table = s.table.push (.textAlias n v s.writeFlags) := by
  have hpush (id : Ident) (f : Ident → Ident) :
      (s.table.push id).modify s.table.size f = s.table.push (f id) := by
    refine congrArg Table.mk (Array.ext_getElem? fun i => ?_)
    rw [Table.push, Table.size, Array.getElem?_modify, Array.getElem?_push, Array.getElem?_push]
    split
    next h => rw [← h, if_pos rfl, if_pos rfl, Option.map_some]
    next h => rw [if_neg (Ne.symm h), if_neg (Ne.symm h)]
  exact hpush _ _

theorem outcome_compileText_silent (label : Bytes)
    (h : (compile s.table src label).warnings = []) :
    outcome (compileText src label) s = (.ok (compile s.table src label).block,
      s.addCompiled src label (compile s.table src label).table) := by
  rw [compileText, outcome_bind_ok (outcome_get s), outcome_bind_ok (outcome_modify s _), h]
  rfl

/-- A script that is compiled in silence ends where its code leads. -/
theorem outcome_execute_leads {code : Code} {st : State} {room : Nat} {s' : Interp}
    (hprogram : program s.table src [] = (code, st)) (hwarnings : st.warnings = [])
    (hroom : s.maxDepth.toNat = room + 1)
    (hleads : Leads (run room) (toBlock [] code) { pc := 1 }
      ((s.addCompiled src [] st.table).setLevel s.level.inner)
      { pc := 1 + (Code.words 1 code).length } s') :
    outcome (execute src) s =
      (.ok (.ok .null), { s'.setLevel (s.level.outer s'.level) with result := .null }) := by
  have hsilent : (compile s.table src []).warnings = [] := by
    rw [compile_warnings, hprogram]
    exact List.reverse_eq_nil_iff.mpr hwarnings
  have hcompile := outcome_compileText_silent [] hsilent
  rw [compile_table, compile_block, hprogram] at hcompile
  rw [execute, outcome_runner, hroom, executeText, outcome_protect, hleads.runText hcompile]
  rfl

/-- The script of an alias adds the alias with its value. -/
theorem outcome_execute_aliasScript (hn : Entry.IsWord n) (hfree : s.table.find? n = none)
    (hv : Entry.IsClean v) (hshort : v.length < operandLimit) (hmax : maxArgs ≤ s.table.size)
    (hsize : s.table.size < operandLimit) (hroom : 0 < s.maxDepth.toNat) :
    outcome (execute (Interp.aliasScript n v)) s = (.ok (.ok .null), s.withAlias n v) := by
  obtain ⟨st, hprogram, htable, hwarnings⟩ := program_aliasScript hn hfree hv hmax
  let s₁ := (s.addCompiled (Interp.aliasScript n v) [] (s.table.push (Table.unknownAlias n))).setLevel
    s.level.inner
  have hid : s₁.table.get? s.table.size = some (Table.unknownAlias n) := by
    change (s.table.push (Table.unknownAlias n)).get? s.table.size = _
    rw [Table.get?_push, if_pos rfl]
  obtain ⟨room, hroom⟩ : ∃ room, s.maxDepth.toNat = room + 1 := ⟨s.maxDepth.toNat - 1, by omega⟩
  obtain ⟨hw, -⟩ :=
    Block.holds_append.mp (holds_toBlock [] (textCode v ++ plain .alias .null s.table.size))
  obtain ⟨l, hl, hleads⟩ := leads_assign (a := { pc := 1 }) (forward_run room) (.text v hshort)
    .alias hid (fun _ => hmax) hsize hw (by decide)
  rw [lit_ofText] at hl
  obtain rfl : Literal.text v = l := hl
  -- The value is written as it is pushed, as an owned text.
  have hvalue : literalValue (Instr.ofText v).op (.text v) = .ofBytes v := by
    unfold Instr.ofText
    split <;> rfl
  let s₂ := (s₁.addWrite s.table.size s.writeFlags).modifyIdent s.table.size fun id =>
    { id.setValue (.ofBytes v) with flags := s.writeFlags }
  have hassign : outcome (assign (run room) s.table.size (.ofBytes v)) s₁ = (.ok ⟨⟩, s₂) := by
    rw [assign, outcome_bind_ok (outcome_identAt hid)]
    change outcome (if s.table.size < maxArgs then setArg s.table.size (.ofBytes v)
      else setAlias s.table.size (.ofBytes v)) s₁ = _
    rw [if_neg (Nat.not_lt.mpr hmax)]
    rfl
  have hlast := hleads s₂ (hvalue ▸ hassign)
  change Leads _ _ _ ((s.addCompiled _ [] _).setLevel _) _ _ at hlast
  rw [← htable] at hlast
  exact outcome_execute_leads hprogram hwarnings hroom hlast

/-- Where nothing else persists, the alias is all that is collected. -/
theorem Interp.collect_withAlias (hn : Entry.IsWord n) (hfree : s.table.find? n = none)
    (hd : s.table.Distinct) (hflags : s.writeFlags = { persist := true })
    (hnone : ∀ i id, s.table.get? i = some id → id.flags.persist = false) :
    (s.withAlias n v).collect = [.ofAlias n v] := by
  have htable := s.table_withAlias n v
  have hdistinct : (s.withAlias n v).table.Distinct := by
    rw [htable]
    exact (hd.push hfree).2
  have hmem (e : Entry) : e ∈ (s.withAlias n v).collect ↔ e = .ofAlias n v := by
    rw [mem_collect, htable]
    constructor
    · rintro ⟨i, id, hid, hsaved, rfl⟩
      rw [Table.get?_push] at hid
      split at hid
      next =>
        cases hid
        rfl
      next => exact absurd ((hnone i id hid).symm.trans hsaved.persist) Bool.false_ne_true
    · rintro rfl
      refine ⟨s.table.size, .textAlias n v s.writeFlags, ?_, ?_, rfl⟩
      · rw [Table.get?_push, if_pos rfl]
      · rw [hflags]
        exact ⟨rfl, rfl, rfl, rfl, rfl, hn.startsWith, .inr ⟨rfl, rfl⟩⟩
  have hnodup : (s.withAlias n v).collect.Nodup := (nodup_names_collect hdistinct).of_map _
  have hperm : (s.withAlias n v).collect.Perm [.ofAlias n v] :=
    (List.perm_ext_iff_of_nodup hnodup (List.nodup_singleton _)).mpr fun e =>
      (hmem e).trans List.mem_singleton.symm
  exact List.perm_singleton.mp hperm

/-- The config script of an alias brings it back. Let an alias with a value of letters be all that
persists in an interpreter, under a name that is read as one word, is no number and is none of a new
interpreter. Its config script, executed in a new interpreter, ends without a fault and adds the alias
with this value to the identifiers that there were; nothing is reported, nothing but the script is
compiled, so no alias is called, and what persists there is what persisted before. The value has to be
within the limits of the format. -/
theorem config_script_defines_alias (hA : A.collect = [.ofAlias n v]) (hn : Entry.IsWord n)
    (hfree : Interp.new.table.find? n = none) (hv : ∀ c ∈ v, Byte.isAlpha c = true)
    (hshort : v.length < operandLimit) :
    ∃ B, outcome (execute A.configScript) .new = (.ok (.ok .null), B) ∧
      B.table = Interp.new.table.push (.textAlias n v { persist := true }) ∧ B.events = [] ∧
      (∀ t src label, B.compiled t src label → src = A.configScript) ∧ B.collect = A.collect := by
  have hscript : A.configScript = Interp.aliasScript n v := by
    rw [Interp.configScript, hA]
    rfl
  have hsize : maxArgs ≤ Interp.new.table.size ∧ Interp.new.table.size < operandLimit := by
    decide +kernel
  rw [hscript, hA]
  refine ⟨Interp.new.withAlias n v, outcome_execute_aliasScript hn hfree
    (Entry.isClean_of_letters hv) hshort hsize.1 hsize.2 (by decide), Interp.table_withAlias _ n v,
    rfl, ?_, Interp.collect_withAlias hn hfree Interp.intact_new.distinct rfl fun i id hid => ?_⟩
  · rintro t src label (h | ⟨-, rfl, -⟩)
    · exact h.elim
    · rfl
  · exact (Bool.not_eq_true' _).mp
      (Interp.of_get?_new (p := fun id => !id.flags.persist) (by decide) hid)

/-- An alias whose name has a bracket and an equals sign, set by a script. -/
theorem config_script_defines_alias_bracket :
    let A := (Move.request (.execute (utf8 "\"a[=b\" = x"))).perform .new
    (A.collect = [.ofAlias (utf8 "a[=b") (utf8 "x")] ∧ Entry.IsWord (utf8 "a[=b") ∧
        Interp.new.table.find? (utf8 "a[=b") = none) ∧
      ∃ B, outcome (execute A.configScript) .new = (.ok (.ok .null), B) ∧
        B.table = Interp.new.table.push (.textAlias (utf8 "a[=b") (utf8 "x") { persist := true }) ∧
        B.events = [] ∧ (∀ t src label, B.compiled t src label → src = A.configScript) ∧
        B.collect = A.collect := by
  intro A
  have hA : A.collect = [.ofAlias (utf8 "a[=b") (utf8 "x")] := by decide +kernel
  have hn : Entry.IsWord (utf8 "a[=b") := ⟨by decide, by decide, by decide, by decide⟩
  have hfree : Interp.new.table.find? (utf8 "a[=b") = none := by decide +kernel
  have hletter : ∀ c ∈ utf8 "x", Byte.isAlpha c = true := List.forall_mem_singleton.mpr rfl
  exact ⟨⟨hA, hn, hfree⟩, config_script_defines_alias hA hn hfree hletter (by decide)⟩

end Runs

end ConsoleScript
