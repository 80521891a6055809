import ConsoleScript.Proofs.Compile.Making
import ConsoleScript.Proofs.Engine.Outcome

/-!
Compiling in the middle of an execution. Texts are compiled wherever code is wanted and a text is
there, so a script that is running must not notice: all that compiling does to an interpreter is to
report warnings and to append the aliases that were named for the first time.
-/

namespace ConsoleScript

open Bytecode Engine Compile

section Names

theorem Table.Names.get? {t t' : Table} (h : t.Names t') {i : Nat} {id : Ident}
    (hi : t.get? i = some id) : t'.get? i = some id := by
  induction h with
  | refl => exact hi
  | push _ name ih => rw [get?_push, if_neg (Nat.ne_of_lt (lt_size_of_get? ih)), ih]

/-- The names that a table has gained stand behind those that it had; they are new, distinct and no
numbers. -/
theorem Table.Gains.appended {t t' : Table} (h : t.Gains t') :
    ∃ names : List Bytes, t'.idents = t.idents ++ (names.map unknownAlias).toArray ∧ names.Nodup ∧
      ∀ n ∈ names, n ∉ t.names ∧ Reading.isNumeral n = false := by
  induction h with
  | refl => exact ⟨[], by simp, List.nodup_nil, nofun⟩
  | @push t' name _ hn hx ih =>
      obtain ⟨names, hidents, hnodup, hnew⟩ := ih
      -- the name is none of the old ones and none of those that were added before it
      have hfresh (id : Ident) (hid : id ∈ t'.idents) : id.name ≠ name := by
        have := Array.findIdx?_eq_none_iff.mp hn id hid
        simpa using this
      rw [hidents] at hfresh
      have hold : name ∉ t.names := by
        intro h
        obtain ⟨id, hid, hname⟩ := List.mem_map.mp h
        exact hfresh id (by simpa using .inl (Array.mem_toList_iff.mp hid)) hname
      have hadded : name ∉ names := by
        intro h
        exact hfresh (unknownAlias name) (by simpa using .inr ⟨name, h, rfl⟩) rfl
      refine ⟨names ++ [name], ?_, ?_, ?_⟩
      · change t'.idents.push (unknownAlias name) = _
        simp [hidents]
      · exact List.nodup_append.mpr ⟨hnodup, by simp, by
          rintro a ha b hb rfl
          exact hadded (List.mem_singleton.mp hb ▸ ha)⟩
      · intro n hn
        rcases List.mem_append.mp hn with hn | hn
        · exact hnew n hn
        · cases List.mem_singleton.mp hn
          exact ⟨hold, hx⟩

end Names

namespace Engine

variable {s : Interp}

/-- An interpreter to which warnings were reported, the last first. -/
def warned (texts : List Bytes) (s : Interp) : Interp :=
  { s with events := texts.map .warn ++ s.events }

theorem warned_warned (texts texts' : List Bytes) (s : Interp) :
    warned texts' (warned texts s) = warned (texts' ++ texts) s := by
  simp [warned]

/-- A computation that only reports warnings. -/
def OnlyWarns (m : Engine Unit) : Prop := ∀ s, ∃ texts, outcome m s = (.ok (), warned texts s)

theorem onlyWarns_forM {m : Bytes → Engine Unit} (hm : ∀ text, OnlyWarns (m text))
    (texts : List Bytes) : OnlyWarns (texts.forM m) := by
  intro s
  induction texts generalizing s with
  | nil => exact ⟨[], rfl⟩
  | cons text rest ih =>
      obtain ⟨first, hfirst⟩ := hm text s
      obtain ⟨others, hothers⟩ := ih (warned first s)
      refine ⟨others ++ first, ?_⟩
      change outcome (m text >>= fun _ => rest.forM m) s = _
      rw [outcome_bind_ok hfirst, hothers, warned_warned]

private theorem onlyWarns_warn (text : Bytes) : OnlyWarns (warn text) := fun _ => ⟨[text], rfl⟩

theorem onlyWarns_debug (text : Bytes) : OnlyWarns (debug text) := by
  intro s
  unfold debug
  rw [outcome_bind_ok (outcome_get s)]
  split
  · have hwarn : outcome (warn text) s = (.ok (), warned [text] s) := rfl
    rw [outcome_bind_ok hwarn]
    split
    · obtain ⟨texts, h⟩ := onlyWarns_forM onlyWarns_warn
        (chainLines s.traceLimit.toInt.toNat (callChain s).length 0 (callChain s)) (warned [text] s)
      exact ⟨texts ++ [text], by rw [h, warned_warned]⟩
    · exact ⟨[text], rfl⟩
  · exact ⟨[], rfl⟩

/-- Compiling ends with the block that the text has for the table; beside taking over the names of the
text it only reports warnings. -/
theorem outcome_compileText (src label : Bytes) (s : Interp) :
    ∃ texts, outcome (compileText src label) s = (.ok (compile s.table src label).block,
      warned texts (s.addCompiled src label (compile s.table src label).table)) := by
  obtain ⟨texts, htexts⟩ := onlyWarns_forM onlyWarns_debug (compile s.table src label).warnings
    (s.addCompiled src label (compile s.table src label).table)
  refine ⟨texts, ?_⟩
  unfold compileText
  rw [outcome_bind_ok (outcome_get s), outcome_bind_ok (outcome_modify s _), outcome_bind_ok htexts]
  rfl

/-- Compiling changes nothing but the end of the identifier table. From whatever interpreter a text
is compiled, compiling ends with a block; the identifiers that there were are as they were, and
behind them stand aliases that are unset and marked as unknown, under distinct names that were not
there and are no numbers. Apart from that and from what it notes about itself, only warnings were
reported: no other part of the interpreter has changed. -/
theorem compileText_only_appends (s : Interp) (src label : Bytes) :
    ∃ (names texts : List Bytes) (t : Table),
      outcome (compileText src label) s =
        (.ok (compile s.table src label).block, warned texts (s.addCompiled src label t)) ∧
      t.idents = s.table.idents ++ (names.map Table.unknownAlias).toArray ∧
      names.Nodup ∧ ∀ n ∈ names, n ∉ s.table.names ∧ Reading.isNumeral n = false := by
  obtain ⟨names, hidents, hnodup, hnew⟩ := (program_makes s.table src label).1.appended
  rw [← compile_table] at hidents
  obtain ⟨texts, hcompile⟩ := outcome_compileText src label s
  exact ⟨names, texts, _, hcompile, hidents, hnodup, hnew⟩

end Engine

end ConsoleScript
