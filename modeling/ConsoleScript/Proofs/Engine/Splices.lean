import ConsoleScript.Proofs.Compile.Splices
import ConsoleScript.Proofs.Engine.TextCalls

/-!
Runs of block literals with splices of aliases. Wherever such a literal stands and however its
operands are kept in bounds, a run through its code pushes the concatenation of its texts and the
texts of its aliases, in the form that the place wants, and leaves everything else alone.
-/

namespace ConsoleScript

open Bytecode Engine Compile

/-- The text of the value of an identifier. -/
def Interp.aliasText (s : Interp) (i : Nat) : Bytes :=
  (s.table.get? i).elim [] fun id => id.value.toBytes

/-- An index is that of an alias that is defined, or of an argument slot that is bound. -/
structure Interp.Defines (s : Interp) (i : Nat) : Prop where
  known : ∃ id, s.table.get? i = some id ∧ (maxArgs ≤ i → id.flags.unknown = false)
  bound : i < maxArgs → s.isBound i = true
  fits : i < operandLimit

namespace Compile

def Part.bytes (s : Interp) : Part → Bytes
  | .text t => t
  | .alias i => s.aliasText i

/-- The parts of a text, put together. -/
def joinParts (s : Interp) (parts : List Part) : Bytes := parts.flatMap (Part.bytes s)

/-- A part can be compiled, and stands for something. -/
def Part.IsShown (s : Interp) : Part → Prop
  | .text t => t.length < operandLimit
  | .alias i => s.Defines i

theorem Part.IsShown.atLevel {s : Interp} {p : Part} (h : p.IsShown s) (l : Level) :
    p.IsShown (s.setLevel l) := by
  cases p with
  | text t => exact h
  | «alias» i =>
      have h : s.Defines i := h
      exact ⟨h.known, h.bound, h.fits⟩

/-- The texts of a literal and those of names, one after another. -/
def Template.expand (textOf : Bytes → Bytes) (m : Template) : Bytes :=
  m.text ++ m.splices.flatMap fun p => textOf p.name ++ p.text

/-- The texts of a literal are not too long for the format, and its aliases are defined. -/
structure Template.IsShown (s : Interp) (index : Bytes → Nat) (m : Template) : Prop where
  text : m.text.length < operandLimit
  texts : ∀ p ∈ m.splices, p.text.length < operandLimit
  defined : ∀ p ∈ m.splices, s.Defines (index p.name)

theorem Template.IsShown.parts {s : Interp} {index : Bytes → Nat} {m : Template}
    (h : m.IsShown s index) : ∀ p ∈ m.parts index, p.IsShown s := by
  refine List.forall_mem_cons.mpr ⟨h.text, fun q hq => ?_⟩
  obtain ⟨p, hp, hq⟩ := List.mem_flatMap.mp hq
  rcases List.mem_cons.mp hq with rfl | hq
  · exact h.defined p hp
  · obtain rfl := List.mem_singleton.mp hq
    exact h.texts p hp

theorem joinParts_template (s : Interp) (index : Bytes → Nat) (m : Template) :
    joinParts s (m.parts index) = m.expand fun name => s.aliasText (index name) := by
  have hsplices (ps : List Splice) :
      joinParts s (ps.flatMap fun p => [Part.alias (index p.name), .text p.text]) =
        ps.flatMap fun p => s.aliasText (index p.name) ++ p.text := by
    induction ps with
    | nil => rfl
    | cons p ps ih =>
        rw [List.flatMap_cons, List.flatMap_cons, ← ih]
        exact (List.append_assoc ..).symm
  exact congrArg (m.text ++ ·) (hsplices m.splices)

/-- A value that stands for a text where something is wanted. -/
def Want.Takes (want : Want) (text : Bytes) (v : Value) : Prop :=
  match want with
  | .int => v = .int (Reading.int text)
  | .float => v = .float (Reading.single text)
  | _ => v.text? = some text

end Compile

section Runs

variable {k : Runner} {b : Block} {a : Activation} {s : Interp}

private theorem toBytes_settleView (v : Value) : v.settleView.toBytes = v.toBytes := by
  cases v <;> rfl

/-- The value of an alias is pushed. -/
theorem leads_alias (hk : Forward k) {i : Nat} (h : s.Defines i)
    (hw : b.Holds a.pc (Code.words a.pc (aliasCode i))) (hroom : a.stack.length < maxOperands) :
    ∃ v, v.toBytes = s.aliasText i ∧ Leads k b a s { a with
      pc := a.pc + (Code.words a.pc (aliasCode i)).length, stack := v :: a.stack } s := by
  obtain ⟨⟨id, hid, hknown⟩, hbound, hfits⟩ := h
  have htext : s.aliasText i = id.value.toBytes := by rw [Interp.aliasText, hid]; rfl
  have harg (op : Op) := Word.toNat_arg_make op .null hfits
  have hread {pc : Nat} : outcome (Activation.identIn b { a with pc } i) s = (.ok id, s) := by
    rw [World.outcome_identIn, hid]
  refine ⟨id.value.settleView, (toBytes_settleView _).trans htext.symm, ?_⟩
  have hplain : (if i < maxArgs then Op.lookupViewArg else .lookupView).isLiteral = false := by
    split <;> rfl
  rw [aliasCode, words_plain hplain] at hw ⊢
  by_cases hslot : i < maxArgs
  · rw [if_pos hslot] at hw
    refine .step hk (Block.holds_cons.mp hw).1 (Word.op?_make ..) (by decide) ?_ rfl
    rw [perform, harg]
    simp only [stepAlias, Word.ret_make]
    have hvalue : outcome (argValue i id .null true) s = (.ok id.value.settleView, s) := by
      rw [argValue, outcome_bind_ok (outcome_get s), if_pos (hbound hslot)]
      rfl
    rw [outcome_bind_ok hread, outcome_bind_ok hvalue]
    exact outcome_push hroom _ _ s
  · rw [if_neg hslot] at hw
    refine .step hk (Block.holds_cons.mp hw).1 (Word.op?_make ..) (by decide) ?_ rfl
    rw [perform, harg]
    simp only [stepAlias, Word.ret_make]
    have hvalue : outcome (aliasValue id .null true) s = (.ok id.value.settleView, s) := by
      rw [aliasValue, hknown (Nat.le_of_not_lt hslot)]
      rfl
    rw [outcome_bind_ok hread, outcome_bind_ok hvalue]
    exact outcome_push hroom _ _ s

theorem leads_view (hk : Forward k) {t : Bytes} (ht : t.length < operandLimit)
    (hw : b.Holds a.pc (Code.words a.pc (viewCode t))) (hroom : a.stack.length < maxOperands)
    (s : Interp) :
    Leads k b a s { a with
      pc := a.pc + (Code.words a.pc (viewCode t)).length
      stack := .text .literal t :: a.stack } s := by
  have hcode : Code.words a.pc (viewCode t) = (Instr.ofView t).encode := by
    simp [viewCode, Code.words, Piece.words]
  rw [hcode] at hw ⊢
  obtain ⟨l, hl, hleads⟩ := leads_literal hk (.view t ht) hw hroom s
  cases hl
  exact hleads

theorem joinWith_nil (ss : List Bytes) : Bytes.joinWith [] ss = ss.flatten := by
  induction ss with
  | nil => rfl
  | cons s ss ih =>
      cases ss with
      | nil => exact (List.append_nil s).symm
      | cons t ss =>
          rw [Bytes.joinWith, ih, List.append_nil]
          rfl

theorem outcome_joinOperands {vs rest : List Value} (hstack : a.stack = vs.reverse ++ rest)
    (ret : RetTag) (s : Interp) :
    outcome (joinOperands false vs.length ret a) s =
      (.ok ((Value.ofBytes (vs.flatMap Value.toBytes)).force ret, { a with stack := rest }), s) := by
  obtain ⟨hwindow, hdrop⟩ := window_reverse hstack rfl
  have hjoin : Value.join false vs = vs.flatMap Value.toBytes := joinWith_nil _
  rw [joinOperands, hwindow, pure_bind, hdrop, hjoin]
  rfl

/-- Operands that are joined into one are replaced by their text. -/
theorem leads_join (hk : Forward k) {vs rest : List Value} {ret : RetTag}
    (hstack : a.stack = vs.reverse ++ rest) (hn : vs.length ≤ maxOperands)
    (hroom : rest.length < maxOperands)
    (hw : b.Holds a.pc (Code.words a.pc (plain .concWord ret vs.length))) (s : Interp) :
    Leads k b a s { a with
      pc := a.pc + (Code.words a.pc (plain .concWord ret vs.length)).length
      stack := (Value.ofBytes (vs.flatMap Value.toBytes)).force ret :: rest } s := by
  rw [words_plain rfl] at hw ⊢
  have harg : (Word.arg (Word.make .concWord ret (UInt32.ofNat vs.length))).toNat = vs.length :=
    Word.toNat_arg_make _ _ (Nat.lt_of_le_of_lt hn (by decide))
  refine .step hk (Block.holds_cons.mp hw).1 (Word.op?_make ..) (by decide) ?_ rfl
  rw [perform, harg]
  simp only [Word.ret_make]
  have hjoin : outcome (joinOperands (decide (Op.concWord = .conc)) vs.length ret
      { a with pc := a.pc + 1 }) s = _ :=
    outcome_joinOperands (a := { a with pc := a.pc + 1 }) hstack ret s
  rw [outcome_bind_ok hjoin]
  exact outcome_push (a := { a with stack := rest }) hroom _ _ s

/-- A run through code of parts pushes operands for them. -/
theorem Compile.Joins.leads (hk : Forward k) {c : Code} {n : Nat} {parts : List Part}
    (h : Joins c n parts) (hparts : ∀ p ∈ parts, p.IsShown s)
    (hw : b.Holds a.pc (Code.words a.pc c)) (hroom : a.stack.length < maxResults) :
    ∃ vs : List Value, vs.length = n ∧ n ≤ maxArgs + 1 ∧
      vs.flatMap Value.toBytes = joinParts s parts ∧
      Leads k b a s { a with
        pc := a.pc + (Code.words a.pc c).length, stack := vs.reverse ++ a.stack } s := by
  have hmax : maxOperands = maxArgs + maxResults := rfl
  induction h with
  | nil => exact ⟨[], rfl, Nat.zero_le _, rfl, .refl k b a s⟩
  | @text c n parts h hn t ih =>
      rw [List.forall_mem_append] at hparts
      rw [words_append, Block.holds_append] at hw
      obtain ⟨vs, hlength, -, hbytes, hleads⟩ := ih hparts.1 hw.1
      have hpush := leads_view (a := { a with
        pc := a.pc + (Code.words a.pc c).length, stack := vs.reverse ++ a.stack }) hk
        (hparts.2 _ List.mem_cons_self) hw.2 (by simp; omega) s
      refine ⟨vs ++ [.text .literal t], by simp [hlength], by omega, ?_, ?_⟩
      · simp [hbytes, joinParts, Part.bytes, Value.toBytes]
      · rw [words_append, List.length_append, ← Nat.add_assoc, List.reverse_append]
        exact hleads.trans hpush
  | @«alias» c n parts h hn i ih =>
      rw [List.forall_mem_append] at hparts
      rw [words_append, Block.holds_append] at hw
      obtain ⟨vs, hlength, -, hbytes, hleads⟩ := ih hparts.1 hw.1
      obtain ⟨v, hv, hpush⟩ := leads_alias (a := { a with
        pc := a.pc + (Code.words a.pc c).length, stack := vs.reverse ++ a.stack }) hk
        (hparts.2 _ List.mem_cons_self) hw.2 (by simp; omega)
      refine ⟨vs ++ [v], by simp [hlength], by omega, ?_, ?_⟩
      · simp [hbytes, joinParts, Part.bytes, hv]
      · rw [words_append, List.length_append, ← Nat.add_assoc, List.reverse_append]
        exact hleads.trans hpush
  | @join c n parts h ih =>
      rw [words_append, Block.holds_append] at hw
      obtain ⟨vs, rfl, hn, hbytes, hleads⟩ := ih hparts hw.1
      have hpush := leads_join (a := { a with
        pc := a.pc + (Code.words a.pc c).length, stack := vs.reverse ++ a.stack }) hk rfl
        (by omega) (by omega) hw.2 s
      refine ⟨[.ofBytes (vs.flatMap Value.toBytes)], rfl, by decide, ?_, ?_⟩
      · rw [← hbytes]
        exact List.append_nil _
      · rw [words_append, List.length_append, ← Nat.add_assoc]
        exact hleads.trans hpush
  | @empty c n parts h ih =>
      rw [List.forall_mem_append] at hparts
      obtain ⟨vs, hlength, hn, hbytes, hleads⟩ := ih hparts.1 hw
      refine ⟨vs, hlength, hn, ?_, hleads⟩
      simp [hbytes, joinParts, Part.bytes]

/-- The text of a literal is pushed as a text of its own. -/
theorem leads_text (hk : Forward k) {t : Bytes} (ht : t.length < operandLimit)
    (hw : b.Holds a.pc (Code.words a.pc (textCode t))) (hroom : a.stack.length < maxOperands)
    (s : Interp) :
    Leads k b a s { a with
      pc := a.pc + (Code.words a.pc (textCode t)).length, stack := .text .owned t :: a.stack } s := by
  have hcode : Code.words a.pc (textCode t) = (Instr.ofText t).encode := by
    simp [textCode, Code.words, Piece.words]
  have hvalue : literalValue (Instr.ofText t).op (.text t) = .text .owned t := by
    unfold Instr.ofText
    split <;> rfl
  rw [hcode] at hw ⊢
  obtain ⟨l, hl, hleads⟩ := leads_literal hk (.text t ht) hw hroom s
  rw [lit_ofText] at hl
  obtain rfl : Literal.text t = l := hl
  rw [hvalue] at hleads
  exact hleads

private theorem takes_force (want : Want) (s : Bytes) :
    want.Takes s ((Value.ofBytes s).force want.tag) := by
  cases want <;> rfl

private theorem force_force (ret : RetTag) (v : Value) : (v.force ret).force ret = v.force ret := by
  cases ret <;> rfl

/-- What code of a block literal puts together is pushed as the place wants it. -/
theorem Compile.Puts.leads {want : Want} {prev room : Nat} {parts : List Part} {c : Code}
    (h : Puts want prev parts c) (hparts : ∀ p ∈ parts, p.IsShown s)
    (hw : b.Holds a.pc (Code.words a.pc c)) (hstack : a.stack.length ≤ prev)
    (hroom : a.stack.length < maxOperands)
    (hdeep : maxResults ≤ prev → 1 < parts.length → 0 < room) :
    ∃ v, want.Takes (joinParts s parts) v ∧ Leads (run room) b a s { a with
      pc := a.pc + (Code.words a.pc c).length, stack := v :: a.stack } s := by
  have hk := forward_run room
  have hmax : maxOperands = maxArgs + maxResults := rfl
  have hone (t : Bytes) : joinParts s [.text t] = t := List.append_nil t
  cases h with
  | text hwant t =>
      have ht := hparts _ List.mem_cons_self
      rw [hone]
      cases want with
      | int | float | code | condition | ident | nothing => cases hwant
      | any | text | head =>
          cases hwant
          exact ⟨.text .owned t, rfl, leads_text hk ht hw hroom s⟩
      | anyView | textView =>
          cases hwant
          exact ⟨.text .literal t, rfl, leads_view hk ht hw hroom s⟩
  | forced hwant t =>
      rw [words_append, Block.holds_append, words_plain rfl] at hw
      have hpush := leads_text hk (hparts _ List.mem_cons_self) hw.1 hroom s
      have hforce : Leads (run room) b { a with
          pc := a.pc + (Code.words a.pc (textCode t)).length, stack := .text .owned t :: a.stack } s
          { a with
            pc := a.pc + (Code.words a.pc (textCode t)).length + 1
            stack := (Value.ofBytes t).force want.tag :: a.stack } s := by
        refine .step hk (Block.holds_cons.mp hw.2).1 (Word.op?_make ..) (by decide) ?_
          rfl
        rw [perform]
        simp only [Word.ret_make]
        rfl
      rw [hone, words_append, List.length_append, ← Nat.add_assoc, words_plain rfl]
      exact ⟨_, takes_force want t, hpush.trans hforce⟩
  | int hwant =>
      subst hwant
      have hcode (n : Int32) : Code.words a.pc (intCode n) = (Instr.ofInt n).encode := by
        simp [intCode, Code.words, Piece.words]
      rw [hcode] at hw ⊢
      obtain ⟨l, hl, hleads⟩ := leads_literal hk (.int _) hw hroom s
      rw [lit_ofInt] at hl
      cases hl
      exact ⟨_, rfl, hleads⟩
  | float hwant =>
      subst hwant
      have hcode (x : Single) : Code.words a.pc (floatCode x) = (Instr.ofFloat x).encode := by
        simp [floatCode, Code.words, Piece.words]
      rw [hcode] at hw ⊢
      obtain ⟨l, hl, hleads⟩ := leads_literal hk (.float _) hw hroom s
      have hlit (x : Single) : (Instr.ofFloat x).lit = .float x := by
        unfold Instr.ofFloat
        split <;> rfl
      rw [hlit] at hl
      cases l with
      | float y =>
          have hzero : y = Reading.single [] := by
            rcases hl with rfl | ⟨hneg, -⟩
            · rfl
            · exact absurd hneg (by decide)
          subst hzero
          exact ⟨_, rfl, hleads⟩
      | _ => cases hl
  | @inPlace c n parts h hprev =>
      rw [words_append, Block.holds_append] at hw
      obtain ⟨vs, rfl, hn, hbytes, hleads⟩ := h.leads hk hparts hw.1 (by omega)
      have hjoin := leads_join (a := { a with
        pc := a.pc + (Code.words a.pc c).length, stack := vs.reverse ++ a.stack }) hk
        rfl (by unfold maxResults at hmax; omega) hroom hw.2 s
      rw [← hbytes, words_append, List.length_append, ← Nat.add_assoc]
      exact ⟨_, takes_force want _, hleads.trans hjoin⟩
  | @byItself c n parts h hmany hprev =>
      obtain ⟨room, rfl⟩ : ∃ r, room = r + 1 := ⟨room - 1, by have := hdeep hprev hmany; omega⟩
      have hlength : a.pc + 1 + (Code.words (a.pc + 1) (c ++ plain .concResult want.tag n)).length + 1 =
          a.pc + (Code.words a.pc [.spill (c ++ plain .concResult want.tag n) want.tag]).length := by
        simp only [Code.words, Piece.words, List.append_nil, List.length_append, List.length_cons,
          List.length_nil]
        omega
      simp only [Code.words, Piece.words, List.append_nil, List.cons_append, Block.holds_cons,
        Block.holds_append] at hw
      obtain ⟨henter, hcode, hexit, -⟩ := hw
      refine ⟨_, takes_force want _, ?_⟩
      have hinner : outcome (run (room + 1) b (a.pc + 1)) s = (.ok
          ((Value.ofBytes (joinParts s parts)).force want.tag,
            a.pc + (Code.words a.pc [.spill (c ++ plain .concResult want.tag n) want.tag]).length),
          s) := by
        rw [words_append, Block.holds_append, words_plain rfl] at hcode
        rw [words_append, List.length_append, words_plain rfl,
          ← Nat.add_assoc] at hexit hlength
        obtain ⟨vs, rfl, hn, hbytes, hleads⟩ := h.leads (a := { pc := a.pc + 1 }) (forward_run room)
          (fun p hp => (hparts p hp).atLevel s.level.inner) hcode.1 (show 0 < maxResults by decide)
        have hbytes : vs.flatMap Value.toBytes = joinParts s parts := hbytes
        generalize a.pc + 1 + (Code.words (a.pc + 1) c).length = at' at hcode hleads hexit hlength
        have harg : (Word.arg (Word.make .concResult want.tag (UInt32.ofNat vs.length))).toNat =
            vs.length := Word.toNat_arg_make _ _ (Nat.lt_of_le_of_lt hn (by decide))
        have hjoin : outcome (perform (run room) b .concResult
            (Word.make .concResult want.tag (UInt32.ofNat vs.length))
            { pc := at' + 1, stack := vs.reverse ++ [] }) (s.setLevel s.level.inner) = (.ok {
              pc := at' + 1
              result := (Value.ofBytes (joinParts s parts)).force want.tag },
              s.setLevel s.level.inner) := by
          rw [perform, harg]
          simp only [Word.ret_make]
          rw [outcome_bind_ok (outcome_joinOperands rfl want.tag _), hbytes]
          rfl
        have hends := hleads.trans (.step (forward_run room)
          (Block.holds_cons.mp hcode.2).1 (Word.op?_make ..) (by decide) hjoin rfl)
        rw [run, deeper, outcome_atLevel, hends.runs _ (by change b.size < a.pc + 1 + _; omega),
          runFrom_exit hexit rfl, ← hlength, force_force]
        rfl
      have hstep : outcome (perform (run (room + 1)) b .enter (Word.make .enter .null 0)
          { a with pc := a.pc + 1 }) s = (.ok { a with
            pc := a.pc + (Code.words a.pc [.spill (c ++ plain .concResult want.tag n) want.tag]).length
            stack := (Value.ofBytes (joinParts s parts)).force want.tag :: a.stack }, s) := by
        rw [perform]
        dsimp only
        rw [outcome_bind_ok hinner]
        exact outcome_push hroom _ _ s
      exact .step hk henter (Word.op?_make ..) (by decide) hstep rfl

/-- So are block literals that are arguments of a call. -/
theorem Compile.PutsAll.leads {given room : Nat} {all : List (List Part)} {c : Code}
    (h : PutsAll given all c) (hparts : ∀ parts ∈ all, ∀ p ∈ parts, p.IsShown s)
    (hw : b.Holds a.pc (Code.words a.pc c)) (hstack : a.stack.length = given)
    (hroom : given + all.length ≤ maxOperands)
    (hdeep : ∀ parts ∈ all.drop (maxResults - given), 1 < parts.length → 0 < room) :
    ∃ vs : List Value, List.Forall₂ (fun parts v => v.text? = some (joinParts s parts)) all vs ∧
      Leads (run room) b a s { a with
        pc := a.pc + (Code.words a.pc c).length, stack := vs.reverse ++ a.stack } s := by
  induction h generalizing a with
  | nil => exact ⟨[], .nil, .refl _ b a s⟩
  | @cons given parts rest c c' h hr ih =>
      obtain ⟨hhead, hparts⟩ := List.forall_mem_cons.mp hparts
      rw [words_append, Block.holds_append] at hw
      rw [List.length_cons] at hroom
      have hhere (hprev : maxResults ≤ given) : 1 < parts.length → 0 < room := by
        refine hdeep parts ?_
        rw [Nat.sub_eq_zero_of_le hprev]
        exact List.mem_cons_self
      have hbehind : ∀ parts ∈ rest.drop (maxResults - (given + 1)), 1 < parts.length → 0 < room := by
        intro parts hmem
        refine hdeep parts ?_
        rcases Nat.lt_or_ge given maxResults with hlt | hge
        · rw [show maxResults - given = (maxResults - (given + 1)) + 1 by omega]
          exact hmem
        · rw [Nat.sub_eq_zero_of_le hge]
          exact List.mem_cons_of_mem _ (List.mem_of_mem_drop hmem)
      obtain ⟨v, hv, hpush⟩ := h.leads hhead hw.1 (Nat.le_of_eq hstack) (by omega) hhere
      obtain ⟨vs, hvs, hleads⟩ := ih (a := { a with
        pc := a.pc + (Code.words a.pc c).length, stack := v :: a.stack }) hparts hw.2
        (by rw [List.length_cons, hstack]) (by omega) hbehind
      refine ⟨v :: vs, .cons hv hvs, ?_⟩
      rw [words_append, List.length_append, ← Nat.add_assoc, List.reverse_cons, List.append_assoc]
      exact hpush.trans hleads

end Runs

private theorem toBytes_of_text? {v : Value} {t : Bytes} (h : v.text? = some t) :
    v.toBytes = t := by
  cases v with
  | text kind u => exact Option.some.inj h
  | null | int | float | code | ident => cases h

/-- Values with the texts of parts are joined to what the parts stand for. -/
theorem flatMap_toBytes {s : Interp} {index : Bytes → Nat} {ms : List Template} {vs : List Value}
    (h : List.Forall₂ (fun parts v => v.text? = some (joinParts s parts))
      (ms.map (Template.parts index)) vs) :
    vs.flatMap Value.toBytes =
      ms.flatMap (Template.expand fun name => s.aliasText (index name)) := by
  induction ms generalizing vs with
  | nil =>
      cases h
      rfl
  | cons m ms ih =>
      cases h with
      | cons hv hvs =>
          rw [List.flatMap_cons, List.flatMap_cons, ih hvs, toBytes_of_text? hv, joinParts_template]

theorem Template.one_lt_length_parts {m : Template} {index : Bytes → Nat} :
    1 < (m.parts index).length ↔ m.splices ≠ [] := by
  obtain ⟨t, ps⟩ := m
  cases ps <;> simp [Template.parts, literalParts]

/-- Splices concatenate. Where an argument begins with a block literal of texts and splices of aliases,
the code behind which nothing but the cursor has moved pushes the concatenation of the texts and of the
texts of the aliases, as the place takes it, whatever is pending. Only where so many operands are
pending that the literal is run by itself, another level of runs has to be left. In particular, the
text of the command that joins its arguments and block literals gives the concatenation of all. -/
theorem templates_concatenate :
    (∀ (k : Nested) (want : Want) (prev : Nat) (st : State) (index : Bytes → Nat) (m : Template)
      (r : Bytes), (m.splices ≠ [] ∨ want.isValue = true) → m.IsPlain →
      Indexes st.table index m.splices →
      skipBlanks false st.cursor.rest = code '[' :: (m.source ++ r) →
      ∃ c line, (argument k want prev).run st = (some (c ++ lookupTail want), st.goTo r line) ∧
        ∀ (room : Nat) (b : Block) (a : Activation) (s : Interp), m.IsShown s index →
          b.Holds a.pc (Code.words a.pc c) → a.stack.length ≤ prev →
          a.stack.length < maxOperands → (maxResults ≤ prev → m.splices ≠ [] → 0 < room) →
          ∃ v, want.Takes (m.expand fun name => s.aliasText (index name)) v ∧
            Leads (run room) b a s { a with
              pc := a.pc + (Code.words a.pc c).length, stack := v :: a.stack } s) ∧
    ∀ (s : Interp) (name : Bytes) (self : Nat) (index : Bytes → Nat) (ms : List Template),
      Entry.IsBareWord name → s.table.HasBuiltin name self [.all] (.concat false) →
      ms ≠ [] → ms.length ≤ maxArgs →
      (∀ m ∈ ms, m.IsPlain ∧ Indexes s.table index m.splices ∧ m.IsShown s index) →
      0 < s.maxDepth → (∀ m ∈ ms.drop maxResults, m.splices ≠ [] → 1 < s.maxDepth) →
      outcome (execute (name ++ templatesSource ms)) s =
        (.ok (.ok (.ofBytes (ms.flatMap (Template.expand fun n => s.aliasText (index n))))),
          { s.addCompiled (name ++ templatesSource ms) [] s.table with
            result := .ofBytes (ms.flatMap (Template.expand fun n => s.aliasText (index n))) }) := by
  refine ⟨fun k want prev st index m r hwant hm hindex h => ?_,
    fun s name self index ms hname hbuiltin hne hlength hms hdepth hdeep => ?_⟩
  · obtain ⟨c, line, hrun, hputs⟩ := run_argument_template k prev hwant hm hindex h
    refine ⟨c, line, hrun, fun room b a s hs hw hstack hroom hdeep => ?_⟩
    obtain ⟨v, hv, hleads⟩ := hputs.leads hs.parts hw hstack hroom
      fun hprev hmany => hdeep hprev (Template.one_lt_length_parts.mp hmany)
    rw [joinParts_template] at hv
    exact ⟨v, hv, hleads⟩
  · obtain ⟨room, hroom⟩ : ∃ room, s.maxDepth.toNat = room + 1 := ⟨s.maxDepth.toNat - 1, by omega⟩
    obtain ⟨id, hfound, hrole⟩ := hbuiltin.found
    obtain ⟨c, st, hprogram, htable, hwarnings, hputs⟩ := program_templates hname hne
      hfound hrole (fun m hm => (hms m hm).1) (fun m hm => (hms m hm).2.1) hlength
    have hparts : ∀ parts ∈ ms.map (Template.parts index), ∀ p ∈ parts,
        p.IsShown (s.addCompiled (name ++ templatesSource ms) [] s.table) := by
      intro parts hparts p hp
      obtain ⟨m, hm, rfl⟩ := List.mem_map.mp hparts
      have hshown := (hms m hm).2.2
      have hshown' : m.IsShown (s.addCompiled (name ++ templatesSource ms) [] s.table) index :=
        ⟨hshown.text, hshown.texts, fun p hp =>
          let h := hshown.defined p hp
          ⟨h.known, h.bound, h.fits⟩⟩
      exact hshown'.parts p hp
    have hlevels : ∀ parts ∈ (ms.map (Template.parts index)).drop (maxResults - 0),
        1 < parts.length → 0 < room := by
      intro parts hmem hmany
      rw [← List.map_drop] at hmem
      obtain ⟨m, hm, rfl⟩ := List.mem_map.mp hmem
      have hone := hdeep m hm (Template.one_lt_length_parts.mp hmany)
      omega
    have hmany : 0 + (ms.map (Template.parts index)).length ≤ maxOperands := by
      have hmax : maxOperands = maxArgs + maxResults := rfl
      rw [List.length_map]
      omega
    refine outcome_execute_comAll hbuiltin (by decide) hprogram htable hwarnings hlength hroom
      fun b hw => ?_
    obtain ⟨vs, hvs, hleads⟩ := hputs.leads (a := { pc := 1 })
      (fun parts hmem p hp => (hparts parts hmem p hp).atLevel s.level.inner) hw rfl hmany hlevels
    have hvs : List.Forall₂ (fun parts v => v.text? = some (joinParts s parts)) _ vs := hvs
    refine ⟨vs, hvs.length_eq.symm.trans (List.length_map ..), hleads, ?_⟩
    have hjoin : Value.join false vs = vs.flatMap Value.toBytes := joinWith_nil _
    rw [Library.apply, hjoin, flatMap_toBytes hvs]

/-- A new interpreter with one alias, where runs may nest so deep. -/
def greetingHost (levels : Int) : Interp :=
  { Interp.new.withAlias (utf8 "x") (utf8 "hi") with maxDepth := levels }

/-- A literal with so many splices of the alias. -/
def splicedOften (n : Nat) : Template := ⟨utf8 "12", List.replicate n ⟨utf8 "x", utf8 "-"⟩⟩

/-- It stands behind literals for all operands that are kept in place. -/
def eighthSpliced (n : Nat) : List Template :=
  List.replicate maxResults ⟨utf8 "1", []⟩ ++ [splicedOften n]

theorem isBareWord_concatword : Entry.IsBareWord (utf8 "concatword") :=
  ⟨by decide, by decide, by decide⟩

set_option maxRecDepth 100000 in
theorem hasBuiltin_greetingHost (levels : Int) : ∃ self,
    (greetingHost levels).table.HasBuiltin (utf8 "concatword") self [.all] (.concat false) :=
  ⟨_, ⟨_, by with_unfolding_all rfl, by with_unfolding_all rfl⟩, by decide⟩

set_option maxRecDepth 100000 in
theorem eighthSpliced_shown (levels : Int) (n : Nat) : ∃ i,
    (greetingHost levels).aliasText i = utf8 "hi" ∧ ∀ m ∈ eighthSpliced n,
      m.IsPlain ∧ Indexes (greetingHost levels).table (fun _ => i) m.splices ∧
        m.IsShown (greetingHost levels) fun _ => i := by
  obtain ⟨i, id, hfound, hrole, hvalue, hknown, hslot, hfits⟩ : ∃ i id,
      (greetingHost levels).table.lookup? (utf8 "x") = some (i, id) ∧ id.role = .alias ∧
        id.value = .ofBytes (utf8 "hi") ∧ id.flags.unknown = false ∧ maxArgs ≤ i ∧ i < operandLimit :=
    ⟨_, _, by with_unfolding_all rfl, by with_unfolding_all rfl, by with_unfolding_all rfl,
      by with_unfolding_all rfl, by decide, by decide⟩
  have hget := Table.get?_of_lookup? hfound
  refine ⟨i, ?_, fun m hm => ?_⟩
  · rw [Interp.aliasText, hget]
    exact congrArg Value.toBytes hvalue
  rcases List.mem_append.mp hm with hm | hm
  · obtain rfl := List.eq_of_mem_replicate hm
    exact ⟨⟨by decide, nofun⟩, nofun, by decide, nofun, nofun⟩
  · obtain rfl := List.mem_singleton.mp hm
    have hsplice {P : Splice → Prop} (h : P ⟨utf8 "x", utf8 "-"⟩) :
        ∀ p ∈ List.replicate n ⟨utf8 "x", utf8 "-"⟩, P p :=
      fun p hp => List.eq_of_mem_replicate hp ▸ h
    have hplain : Splice.IsPlain ⟨utf8 "x", utf8 "-"⟩ :=
      ⟨by decide, by decide, by decide, by decide⟩
    have hinert : ∀ c ∈ utf8 "12", isInert c = true := by decide
    have hdefined : (greetingHost levels).Defines i :=
      ⟨⟨id, hget, fun _ => hknown⟩, fun h => absurd h (Nat.not_lt_of_le hslot), hfits⟩
    exact ⟨⟨hinert, hsplice hplain⟩, hsplice ⟨id, hfound, hrole⟩,
      show (utf8 "12").length < operandLimit by decide, hsplice (by decide),
      hsplice hdefined⟩

/-- Behind seven operands, thirteen splices of an alias are concatenated, and where an integer is
wanted, it is read from the concatenation. -/
theorem templates_concatenate_spilled :
    (∃ s, outcome (execute (utf8 "concatword" ++ templatesSource (eighthSpliced 13)))
        (greetingHost 2) = (.ok (.ok (.ofBytes
          (utf8 "111111112hi-hi-hi-hi-hi-hi-hi-hi-hi-hi-hi-hi-hi-"))), s)) ∧
    ∃ c st, (argument (nested 0) .int maxResults).run
        { cursor := { rest := templatesSource [splicedOften 13], name := [] },
          table := (greetingHost 2).table } = (some c, st) ∧
      ∃ pc, Leads (run 1) (toBlock [] c) { pc := 1 } (greetingHost 2)
        { pc, stack := [.int 12] } (greetingHost 2) := by
  obtain ⟨self, hbuiltin⟩ := hasBuiltin_greetingHost 2
  obtain ⟨i, htext, hms⟩ := eighthSpliced_shown 2 13
  constructor
  · have hall := templates_concatenate.2 (greetingHost 2) (utf8 "concatword") self (fun _ => i)
      (eighthSpliced 13) isBareWord_concatword hbuiltin (by decide) (by decide) hms (by decide)
      fun _ _ _ => by decide
    rw [htext] at hall
    exact ⟨_, hall⟩
  · obtain ⟨hplain, hindex, hshown⟩ := hms _ (List.mem_append_right _ List.mem_cons_self)
    obtain ⟨c, line, hrun, hleads⟩ := templates_concatenate.1 (nested 0) .int maxResults
      { cursor := { rest := templatesSource [splicedOften 13], name := [] },
        table := (greetingHost 2).table } _ _ [] (.inr rfl) hplain hindex rfl
    obtain ⟨v, hv, hleads⟩ := hleads 1 (toBlock [] c) { pc := 1 } (greetingHost 2) hshown
      (Block.holds_append.mp (holds_toBlock [] c)).1 (Nat.zero_le _) (by decide) fun _ _ => by decide
    have hv : v = .int (Reading.int
      ((splicedOften 13).expand fun _ => (greetingHost 2).aliasText i)) := hv
    have hint : Reading.int ((splicedOften 13).expand fun _ => utf8 "hi") = 12 := by decide
    rw [htext, hint] at hv
    rw [hv] at hleads
    exact ⟨c, _, hrun.trans (by rw [show lookupTail .int = [] from rfl, List.append_nil]), _, hleads⟩

/-- Without a level of runs left, a literal behind seven operands is not concatenated. -/
theorem spilled_template_needs_level :
    ¬∀ (s : Interp) (name : Bytes) (self : Nat) (index : Bytes → Nat) (ms : List Template),
      Entry.IsBareWord name → s.table.HasBuiltin name self [.all] (.concat false) →
      ms ≠ [] → ms.length ≤ maxArgs →
      (∀ m ∈ ms, m.IsPlain ∧ Indexes s.table index m.splices ∧ m.IsShown s index) →
      0 < s.maxDepth →
      (outcome (execute (name ++ templatesSource ms)) s).1 =
        .ok (.ok (.ofBytes (ms.flatMap (Template.expand fun n => s.aliasText (index n))))) := by
  intro h
  obtain ⟨self, hbuiltin⟩ := hasBuiltin_greetingHost 1
  obtain ⟨i, htext, hms⟩ := eighthSpliced_shown 1 1
  have hall := h (greetingHost 1) (utf8 "concatword") self (fun _ => i) (eighthSpliced 1) isBareWord_concatword
    hbuiltin (by decide) (by decide) hms (by decide)
  have hvalue : ((outcome (execute (utf8 "concatword" ++ templatesSource (eighthSpliced 1)))
      (greetingHost 1)).1.toOption.bind (·.toOption)).map Value.toBytes = some (utf8 "1111111") := by
    decide +kernel
  rw [hall, htext] at hvalue
  exact absurd hvalue (by decide)

end ConsoleScript
