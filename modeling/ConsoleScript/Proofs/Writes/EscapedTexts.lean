import ConsoleScript.Proofs.Persist.AliasConfigs
import ConsoleScript.Proofs.Writes.HostWrites

/-!
Escaped texts in source. A text between quotes is read back wherever it stands, exactly if it has no
carriage return, which no string of the language can hold. So a statement that names a text variable
and has an escaped text behind it writes the text to the variable.
-/

namespace ConsoleScript

open Bytecode Engine Syntax Compile

namespace Compile

private theorem return_notMem_unescape (s : Bytes) : 0x0D ∉ unescape s := by
  have hcons {c : UInt8} {t : Bytes} (hc : ¬(c == 0x0D) = true) (ht : 0x0D ∉ t) : 0x0D ∉ c :: t :=
    List.not_mem_cons_of_ne_of_not_mem (fun h => hc (beq_iff_eq.mpr h.symm)) ht
  fun_induction unescape s with
  | case1 | case2 => exact List.not_mem_nil
  | case3 c hc => exact hcons (fun h => hc (Bool.or_eq_true_iff.mpr (.inl h))) List.not_mem_nil
  | case5 _ _ _ _ _ _ ih | case6 _ _ _ _ _ _ _ ih | case7 _ _ _ _ _ _ _ _ ih =>
      exact hcons (by decide) ih
  | case4 _ _ _ _ ih | case8 _ _ _ _ _ _ _ _ _ ih | case9 _ _ _ _ _ _ _ _ _ _ ih
  | case10 _ _ _ _ _ _ _ _ _ _ ih => exact ih
  | case11 c d s _ _ _ _ _ hd _ ih => exact hcons hd ih
  | case12 c d s hc _ ih => exact hcons hc ih

section Scripts

variable {t : Table} {i : Nat} {id : Ident} {name old text : Bytes} {watch : Watch}

/-- The script that names a text variable with an escaped text behind it is compiled to one write. -/
theorem program_text (hn : Entry.IsBareWord name) (hfound : t.lookup? name = some (i, id))
    (hrole : id.role = .textVar old watch) (htext : 0x0D ∉ text) :
    ∃ st, program t (name ++ 0x20 :: escape text) [] =
        (viewCode text ++ plain .setTextVar .null i, st) ∧ st.table = t ∧ st.warnings = [] := by
  obtain ⟨src, hsrc⟩ : ∃ src, src = name ++ 0x20 :: escape text := ⟨_, rfl⟩
  let st : State := { cursor := { rest := src, name := [] }, table := t }
  have hprogram : program t src [] =
      (statementsFrom (nested (src.length + 3 + 1)) false 0 0 (src.length + 1)).run st := by
    have hcursor (st : State) : cursor.run st = (st.cursor, st) := rfl
    rw [program, statements, StateT.run_bind, hcursor]
    rfl
  have hend : Spells [] [] [] := .nil rfl (by decide) rfl
  obtain ⟨line, hrun⟩ := @run_statement_text i st name text id watch old [] (src.length + 3) hn hfound
    hrole htext hend (by rw [List.append_nil]; exact hsrc)
  rw [← hsrc, hprogram, statementsFrom, StateT.run_bind, hrun]
  exact ⟨_, rfl, rfl, rfl⟩

end Scripts

end Compile

section Runs

variable {s s' : Interp} {i : Nat} {id : Ident} {name old text : Bytes} {watch : Watch}

/-- Such a script writes the text as an assignment does, one level deeper. -/
theorem outcome_execute_text (hn : Entry.IsBareWord name)
    (hfound : s.table.lookup? name = some (i, id)) (hrole : id.role = .textVar old watch)
    (htext : 0x0D ∉ text) (hshort : text.length < operandLimit) (hfits : i < operandLimit)
    {room : Nat} (hroom : s.maxDepth.toNat = room + 1)
    (hset : outcome (deeper (setTextVar (run room) i text))
      (s.addCompiled (name ++ 0x20 :: escape text) [] s.table) = (.ok ⟨⟩, s')) :
    outcome (execute (name ++ 0x20 :: escape text)) s =
      (.ok (.ok .null), { s' with result := .null }) := by
  obtain ⟨st, hprogram, htable, hwarnings⟩ := Compile.program_text hn hfound hrole htext
  let s₁ := (s.addCompiled (name ++ 0x20 :: escape text) [] s.table).setLevel s.level.inner
  obtain ⟨s₂, hwrite, rfl⟩ : ∃ s₂, outcome (setTextVar (run room) i text) s₁ = (.ok ⟨⟩, s₂) ∧
      s' = s₂.setLevel (s.level.outer s₂.level) := by
    rw [deeper, outcome_atLevel] at hset
    split at hset
    next s₂ h =>
      cases hset
      exact ⟨s₂, h, rfl⟩
    next => cases hset
  refine outcome_execute_leads hprogram hwarnings hroom ?_
  rw [htable]
  have hid : s₁.table.get? i = some id := Table.get?_of_lookup? hfound
  have hwriter : Writer .setTextVar id.role := hrole ▸ .text
  obtain ⟨hw, -⟩ := Block.holds_append.mp
    (holds_toBlock [] (viewCode text ++ plain .setTextVar .null i))
  obtain ⟨l, hl, hleads⟩ := leads_assign (a := { pc := 1 }) (forward_run room) (.view text hshort)
    hwriter hid (fun h => by rw [hrole] at h; cases h) hfits hw (by decide)
  cases hl
  refine hleads s₂ ?_
  rw [assign, outcome_bind_ok (outcome_identAt hid), hrole]
  exact hwrite

/-- Escaped texts read back. Between quotes, with its escapes, a text is read as the text itself and
nothing behind the closing quote is taken, whatever follows, exactly if it has no carriage return. A
script of the name of a text variable, a blank and such a text then writes the text to the variable,
if it is within the limits of the format: it ends where that write ends, without a fault if the write
has none. So a variable that takes writes holds the text afterwards, if no program of the host
watches. -/
theorem escaped_texts_read_back (text : Bytes) :
    (∀ (r : Bytes) (st : State), st.cursor.rest = escape text ++ r →
      ((∃ line, cutString.run st = (text, st.goTo r line)) ↔ 0x0D ∉ text)) ∧
    ∀ (s : Interp) (i : Nat) (id : Ident) (name old : Bytes) (watch : Watch), 0x0D ∉ text →
      text.length < operandLimit → Entry.IsBareWord name → s.table.lookup? name = some (i, id) →
      id.role = .textVar old watch → i < operandLimit → 0 < s.maxDepth.toNat →
      let script := name ++ 0x20 :: escape text
      (∀ s', outcome (deeper (setTextVar (run (s.maxDepth.toNat - 1)) i text))
          (s.addCompiled script [] s.table) = (.ok ⟨⟩, s') →
        outcome (execute script) s = (.ok (.ok .null), { s' with result := .null })) ∧
      (s.Unwatched → id.flags.readOnly = false →
        (id.flags.persist && (s.writeFlags.overridden || id.flags.override)) = false →
        ∃ s', outcome (execute script) s = (.ok (.ok .null), s') ∧
          s.HasWritten name (.ofBytes text) s') := by
  refine ⟨fun r st hrest => ⟨?_, fun htext => run_cutString st htext hrest⟩, ?_⟩
  · rintro ⟨line, hrun⟩
    have hvalue : (cutString.run st).1 = text := congrArg Prod.fst hrun
    rw [← hvalue]
    exact return_notMem_unescape _
  intro s i id name old watch htext hshort hn hfound hrole hfits hdepth script
  have hroom : s.maxDepth.toNat = s.maxDepth.toNat - 1 + 1 := by omega
  have hwrites (s' : Interp) (hset : outcome (deeper (setTextVar (run (s.maxDepth.toNat - 1)) i text))
      (s.addCompiled script [] s.table) = (.ok ⟨⟩, s')) :
      outcome (execute script) s = (.ok (.ok .null), { s' with result := .null }) :=
    outcome_execute_text hn hfound hrole htext hshort hfits hroom hset
  refine ⟨hwrites, fun hu hopen htakes => ?_⟩
  let s₁ := (s.addCompiled script [] s.table).setLevel s.level.inner
  have hid : s₁.table.get? i = some id := Table.get?_of_lookup? hfound
  obtain ⟨s', hassign, hwritten⟩ := outcome_assign_written (s := s₁) (run (s.maxDepth.toNat - 1)) hu hid
    hopen (by rw [hrole]; rfl) (fun _ => htakes) (.ofBytes text)
  rw [Table.name_of_lookup? hfound, hrole] at hwritten
  rw [assign, outcome_bind_ok (outcome_identAt hid), hrole] at hassign
  have hset : outcome (deeper (setTextVar (run (s.maxDepth.toNat - 1)) i text))
      (s.addCompiled script [] s.table) = (.ok ⟨⟩, s'.setLevel (s.level.outer s'.level)) :=
    outcome_atLevel_ok hassign .outer
  refine ⟨_, hwrites _ hset, ?_⟩
  have hstored : s.HasWritten name (.ofBytes text) s' := ⟨hwritten.lasts, hwritten.holds⟩
  exact hstored.of_table rfl fun c => by cases c <;> rfl

/-- A host with a text variable. -/
def escapingHost : Interp := (Move.request (.registerText (utf8 "x") [] {} .none)).perform .new

set_option maxRecDepth 100000 in
/-- Quotes, carets, a line feed and a bracket come back. -/
theorem escaped_texts_read_back_marks :
    let text := utf8 "say \"^\" [" ++ [0x0A]
    let st : State := { cursor := { rest := escape text ++ utf8 "; quit" }, table := {} }
    (0x0D ∉ text ∧ text.length < operandLimit ∧ Entry.IsBareWord (utf8 "x")) ∧
      (∃ line, cutString.run st = (text, st.goTo (utf8 "; quit") line)) ∧
      ∃ s', outcome (execute (utf8 "x" ++ 0x20 :: escape text)) escapingHost = (.ok (.ok .null), s') ∧
        escapingHost.HasWritten (utf8 "x") (.ofBytes text) s' := by
  intro text st
  have htext : 0x0D ∉ text := by decide
  have hshort : text.length < operandLimit := by decide
  have hn : Entry.IsBareWord (utf8 "x") := ⟨by decide, by decide, by decide⟩
  obtain ⟨hread, hwrite⟩ := escaped_texts_read_back text
  refine ⟨⟨htext, hshort, hn⟩, (hread _ st rfl).mpr htext, ?_⟩
  obtain ⟨hwatches, hdepth⟩ : escapingHost.table.idents.all (!·.role.watch.isHost) = true ∧
      0 < escapingHost.maxDepth.toNat := by decide +kernel
  have hfound : escapingHost.table.lookup? (utf8 "x") = some (121, {
      name := utf8 "x"
      role := .textVar [] .none
      flags := ({} : Flags).forRegistration }) := by
    with_unfolding_all rfl
  exact (hwrite escapingHost _ _ _ _ _ htext hshort hn hfound rfl (by decide) hdepth).2
    (.of_all hwatches) rfl rfl

end Runs

end ConsoleScript
