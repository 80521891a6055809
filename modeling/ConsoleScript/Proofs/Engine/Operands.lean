import Mathlib.Data.List.Forall2
import ConsoleScript.Proofs.Bytecode.Literals
import ConsoleScript.Proofs.Engine.Inlining
import ConsoleScript.Proofs.Engine.Preparing

/-!
Runs of the code of operands. A run through such code pushes values of the operands one after
another; on the way argument slots are bound and nothing else happens.
-/

namespace ConsoleScript

open Bytecode Engine Compile

variable {k : Runner} {b : Block} {a a' a'' : Activation} {s s' s'' : Interp} {t : Table}

/-- A run goes on from another place as it does here, however many steps are left. -/
structure Engine.Leads (k : Runner) (b : Block) (a : Activation) (s : Interp) (a' : Activation)
    (s' : Interp) : Prop where
  forward : a.pc ≤ a'.pc
  locals : a'.locals = a.locals
  runs : ∀ left, b.size < a.pc + left →
    outcome (runFrom k b left a) s = outcome (runFrom k b left a') s'

namespace Engine.Leads

theorem refl (k : Runner) (b : Block) (a : Activation) (s : Interp) : Leads k b a s a s :=
  ⟨Nat.le_refl _, rfl, fun _ _ => rfl⟩

theorem trans (h : Leads k b a s a' s') (h' : Leads k b a' s' a'' s'') : Leads k b a s a'' s'' := by
  refine ⟨Nat.le_trans h.forward h'.forward, h'.locals.trans h.locals, fun left hleft => ?_⟩
  have hforward := h.forward
  rw [h.runs left hleft, h'.runs left (by omega)]

theorem step (hk : Forward k) {w : UInt32} {op : Op} (hw : b.words[a.pc]? = some w)
    (ho : Word.op? w = some op) (hx : op ≠ .exit)
    (hp : outcome (perform k b op w { a with pc := a.pc + 1 }) s = (.ok a', s'))
    (hl : a'.locals = a.locals) : Leads k b a s a' s' := by
  refine ⟨?_, hl, fun left hleft => ?_⟩
  · have hle := yields_perform hk op w { a with pc := a.pc + 1 } s a' s' hp
    exact Nat.le_of_succ_le hle
  · rw [runFrom_perform hk hw ho hx hleft, goOn, outcome_bind_ok (outcome_attempt _ _), hp]

theorem runText {src label : Bytes} {code : Code} {room : Nat}
    (hcompile : outcome (compileText src label) s = (.ok (toBlock label code), s'))
    (hleads : Leads (run room) (toBlock label code) { pc := 1 } (s'.setLevel s'.level.inner)
      { pc := 1 + (Code.words 1 code).length } s'') :
    outcome (runText (run (room + 1)) src label) s =
      (.ok .null, s''.setLevel (s'.level.outer s''.level)) := by
  obtain ⟨-, hexit⟩ := Block.holds_append.mp (holds_toBlock label code)
  have hruns := (hleads.runs ((toBlock label code).size + 1) (by change _ < 1 + _; omega)).trans
    (congrArg (outcome · s'') (runFrom_exit (Block.holds_cons.mp hexit).1 rfl _))
  rw [Engine.runText, outcome_bind_ok hcompile, run, outcome_bind, deeper, outcome_atLevel, hruns]
  rfl

end Engine.Leads

section Steps

variable {rest : List Value} {v : Value}

theorem outcome_push (hroom : a.stack.length < maxOperands) (pc : Nat) (v : Value) (s : Interp) :
    outcome (Activation.push v { a with pc }) s = (.ok { a with pc, stack := v :: a.stack }, s) := by
  rw [Activation.push, if_pos hroom]
  rfl

/-- A literal is pushed as it is read back from its words. -/
theorem leads_literal (hk : Forward k) {i : Instr} (hi : i.IsLiteral) (hw : b.Holds a.pc i.encode)
    (hroom : a.stack.length < maxOperands) (s : Interp) :
    ∃ l, i.lit.Alike l ∧ Leads k b a s
      { a with pc := a.pc + i.encode.length, stack := literalValue i.op l :: a.stack } s := by
  obtain ⟨j, hj, -⟩ := hw.reads hi
  obtain ⟨w, hword, hwop⟩ := hj.word
  have hperform : i.op ≠ .exit ∧ perform k b i.op w { a with pc := a.pc + 1 } =
      pushLiteral b i.op { a with pc := a.pc + 1 } := by
    rcases hi.op with h | h | h <;> rw [h] <;> exact ⟨nofun, rfl⟩
  refine ⟨j.lit, hj.lit, .step hk hword hwop hperform.1 ?_ rfl⟩
  rw [hperform.2, pushLiteral]
  simp only [Nat.add_sub_cancel, hj.decodes, hj.size]
  exact outcome_push hroom _ _ s

/-- A reference is pushed; an argument slot is bound before. -/
theorem leads_ident (hk : Forward k) {i : Nat} (hi : i < s.table.size) (hfits : i < operandLimit)
    (hw : b.Holds a.pc (Code.words a.pc (identCode i))) (hroom : a.stack.length < maxOperands) :
    ∃ s', Leads k b a s { a with
        pc := a.pc + (Code.words a.pc (identCode i)).length
        stack := .ident i :: a.stack } s' ∧
      Prepares s s' := by
  obtain ⟨id, hid⟩ : ∃ id, s.table.get? i = some id := ⟨_, Array.getElem?_eq_getElem hi⟩
  have hread {pc : Nat} : outcome (Activation.identIn b { a with pc } i) s = (.ok id, s) := by
    rw [World.outcome_identIn, hid]
  have harg (op : Op) := Word.toNat_arg_make op .null hfits
  rw [identCode] at hw ⊢
  split at hw
  next hslot =>
    obtain ⟨⟨⟩, s', hbind, hprep, -⟩ := quiet_bindArg i s
    rw [words_plain rfl] at hw
    rw [if_pos hslot, words_plain rfl]
    refine ⟨s', .step hk (Block.holds_cons.mp hw).1 (Word.op?_make ..) (by decide) ?_ rfl, hprep⟩
    rw [perform, harg]
    simp only [stepAlias]
    rw [outcome_bind_ok hread, outcome_bind_ok hbind]
    exact outcome_push hroom _ _ s'
  next hslot =>
    rw [words_plain rfl] at hw
    rw [if_neg hslot, words_plain rfl]
    refine ⟨s, .step hk (Block.holds_cons.mp hw).1 (Word.op?_make ..) (by decide) ?_ rfl, .refl s⟩
    rw [perform, harg]
    simp only [stepAlias]
    rw [outcome_bind_ok hread]
    exact outcome_push hroom _ _ s

/-- The body of a block literal is pushed as code, and passed over. -/
theorem leads_block (hk : Forward k) (hb : b.size < operandLimit) {body : Code}
    (hw : b.Holds a.pc (Code.words a.pc [.block body])) (hroom : a.stack.length < maxOperands)
    (s : Interp) :
    Leads k b a s { a with
      pc := a.pc + (Code.words a.pc [.block body]).length
      stack := .code b (a.pc + 2) :: a.stack } s ∧
    b.Holds (a.pc + 2) (Code.words (a.pc + 2) body) ∧
    b.words[a.pc + 2 + (Code.words (a.pc + 2) body).length]? = some (Word.make .exit .null 0) := by
  rw [length_words_block]
  simp only [Code.words, Piece.words, List.append_nil, Block.holds_cons, Block.holds_append,
    List.cons_append] at hw
  obtain ⟨hword, -, hbody, hx, -⟩ := hw
  have hx' : b.words[a.pc + 2 + (Code.words (a.pc + 2) body).length]? =
      some (Word.make .exit .null 0) := hx
  have hlt := Block.lt_size hx'
  refine ⟨.step hk hword (Word.op?_make ..) (by decide) ?_ rfl, hbody, hx'⟩
  have harg := Word.toNat_arg_make .block .null (n := (Code.words (a.pc + 2) body).length + 2)
    (by omega)
  rw [perform]
  dsimp only
  rw [Activation.jump, harg]
  have hpc : a.pc + 1 + ((Code.words (a.pc + 2) body).length + 2) =
      a.pc + ((Code.words (a.pc + 2) body).length + 3) := by omega
  dsimp only
  rw [hpc]
  exact outcome_push hroom _ _ s

end Steps

theorem lit_ofInt (n : Int32) : (Instr.ofInt n).lit = .int n := by
  unfold Instr.ofInt
  split <;> rfl

theorem lit_ofText (src : Bytes) : (Instr.ofText src).lit = .text src := by
  unfold Instr.ofText
  split <;> rfl

/-- What code stands for is pushed: a run through the code of an operand pushes a value of it. -/
theorem Compile.Pushes.leads (hk : Forward k) (hb : b.size < operandLimit) {code : Code}
    {o : Operand} (hc : Pushes t code o) (ht : t.Retains s.table) (hsize : t.size ≤ operandLimit)
    (hw : b.Holds a.pc (Code.words a.pc code)) (hroom : a.stack.length < maxOperands) :
    ∃ v s', Leads k b a s
        { a with pc := a.pc + (Code.words a.pc code).length, stack := v :: a.stack } s' ∧
      Prepares s s' ∧ o.Is s'.table v := by
  have hliteral {i : Instr} (hi : i.IsLiteral) (hcode : code = [.instr i])
      (hval : ∀ l, i.lit.Alike l → o.Is s.table (literalValue i.op l)) :
      ∃ v s', Leads k b a s
          { a with pc := a.pc + (Code.words a.pc code).length, stack := v :: a.stack } s' ∧
        Prepares s s' ∧ o.Is s'.table v := by
    subst hcode
    simp only [Code.words, Piece.words, List.append_nil] at hw ⊢
    obtain ⟨l, hl, hleads⟩ := leads_literal hk hi hw hroom s
    exact ⟨_, s, hleads, .refl s, hval l hl⟩
  have hident {i : Nat} (hi : i < t.size) (hcode : code = identCode i)
      (hval : ∀ s', Prepares s s' → o.Is s'.table (.ident i)) :
      ∃ v s', Leads k b a s
          { a with pc := a.pc + (Code.words a.pc code).length, stack := v :: a.stack } s' ∧
        Prepares s s' ∧ o.Is s'.table v := by
    subst hcode
    have hi' := (ht.extends .layout).lt_size hi
    obtain ⟨s', hleads, hprep⟩ := leads_ident hk hi' (Nat.lt_of_lt_of_le hi hsize) hw hroom
    exact ⟨_, s', hleads, hprep, hval s' hprep⟩
  cases hc with
  | null =>
      refine hliteral .null rfl fun l hl => ?_
      cases hl
      exact rfl
  | int i =>
      refine hliteral (.int i) rfl fun l hl => ?_
      rw [lit_ofInt] at hl
      cases hl
      exact rfl
  | float x =>
      refine hliteral (.float x) rfl fun l hl => ?_
      have hlit : (Instr.ofFloat x).lit = .float x := by
        unfold Instr.ofFloat
        split <;> rfl
      rw [hlit] at hl
      cases l with
      | float y => exact ⟨y, rfl, hl⟩
      | _ => cases hl
  | @text src hs =>
      refine hliteral (.text src hs) rfl fun l hl => ?_
      rw [lit_ofText] at hl
      cases hl
      exact ⟨_, rfl⟩
  | @view src hs =>
      refine hliteral (.view src hs) rfl fun l hl => ?_
      cases hl
      exact ⟨_, rfl⟩
  | @code src body h =>
      rw [Compile.literal] at hw ⊢
      split at hw
      next hempty =>
        have hbody : body = [] := List.isEmpty_iff.mp hempty
        rw [if_pos hempty]
        subst hbody
        refine ⟨emptyCode .null, s, ?_, .refl s, .empty h⟩
        exact .step hk (Block.holds_cons.mp hw).1 (Word.op?_make ..) (by decide) (outcome_push hroom _ _ s) rfl
      next hne =>
        rw [if_neg hne]
        obtain ⟨hleads, hbody, hx⟩ := leads_block hk hb hw hroom s
        exact ⟨_, s, hleads, .refl s, .block h hbody hx⟩
  | @named name i hi h =>
      exact hident hi rfl fun s' hprep => ⟨i, rfl, (h.retained ht).retained hprep.idents⟩
  | @ident i hi => exact hident hi rfl fun _ _ => rfl

/-- An operand and its value are the same float, but for the sign of zero. -/
theorem Compile.Operand.Is.toSingle {o : Operand} {v : Value} (h : o.Is t v) :
    o.toSingle = v.toSingle ∨ o.toSingle = Single.zero.neg ∧ v.toSingle = .zero := by
  cases o with
  | float x =>
      obtain ⟨y, rfl, hxy⟩ := h
      exact hxy
  | text =>
      obtain ⟨kind, rfl⟩ := h
      exact .inl rfl
  | code =>
      cases h <;> exact .inl rfl
  | named =>
      obtain ⟨i, rfl, -⟩ := h
      exact .inl rfl
  | null | int | ident =>
      subst h
      exact .inl rfl

private theorem toBytes_of_is {ss : List Bytes} {vs : List Value}
    (h : List.Forall₂ (Compile.Operand.Is t) (ss.map .text) vs) : vs.map Value.toBytes = ss := by
  induction ss generalizing vs with
  | nil =>
      cases h
      rfl
  | cons s ss ih =>
      cases h with
      | cons hv hvs =>
          obtain ⟨kind, rfl⟩ := hv
          exact congrArg (s :: ·) (ih hvs)

theorem exists_append_of_is {os os' : List Compile.Operand} {vs : List Value}
    (h : List.Forall₂ (Compile.Operand.Is t) (os ++ os') vs) : ∃ vs₁ vs₂, vs = vs₁ ++ vs₂ ∧
      List.Forall₂ (Compile.Operand.Is t) os vs₁ ∧ List.Forall₂ (Compile.Operand.Is t) os' vs₂ := by
  refine ⟨_, _, (List.take_append_drop os.length vs).symm, ?_, ?_⟩
  · have h := List.forall₂_take os.length h
    rwa [List.take_left] at h
  · have h := List.forall₂_drop os.length h
    rwa [List.drop_left] at h

/-- Code that lays out operands is run through: the values of the operands before it, on top of the
stack, give way to values of those behind it. -/
theorem Compile.Lays.leads (hk : Forward k) (hb : b.size < operandLimit) {n : Nat}
    {os os' : List Compile.Operand} {code : Code} (hc : Lays t n os code os') (ht : t.Retains s.table)
    (hsize : t.size ≤ operandLimit) (hw : b.Holds a.pc (Code.words a.pc code)) {vs rest : List Value}
    (hstack : a.stack = vs.reverse ++ rest) (hvs : List.Forall₂ (Compile.Operand.Is s.table) os vs)
    (hroom : n + rest.length ≤ maxOperands) :
    ∃ vs' s', Leads k b a s
        { a with pc := a.pc + (Code.words a.pc code).length, stack := vs'.reverse ++ rest } s' ∧
      Prepares s s' ∧ List.Forall₂ (Compile.Operand.Is s'.table) os' vs' := by
  induction hc generalizing a s vs with
  | nil =>
      have ha : Leads k b a s { a with pc := a.pc + 0, stack := vs.reverse ++ rest } s := by
        rw [← hstack]
        exact .refl k b a s
      exact ⟨vs, s, ha, .refl s, hvs⟩
  | @push os os' o code more hc hn _ ih =>
      rw [words_append, Block.holds_append] at hw
      have hlen := hvs.length_eq
      have hcount : a.stack.length = os.length + rest.length := by
        rw [hstack, List.length_append, List.length_reverse, hlen]
      obtain ⟨v, s₁, hleads, hprep, hv⟩ := hc.leads hk hb ht hsize hw.1 (by omega)
      have hvs₁ : List.Forall₂ (Compile.Operand.Is s₁.table) (os ++ [o]) (vs ++ [v]) :=
        List.rel_append (hvs.imp fun _ _ h => h.retained hprep.idents) (.cons hv .nil)
      obtain ⟨vs', s', hleads', hprep', hvs'⟩ := ih
        (a := { a with pc := a.pc + (Code.words a.pc code).length, stack := v :: a.stack })
        (ht.trans hprep.idents) hw.2 (by simp [hstack]) hvs₁
      refine ⟨vs', s', hleads.trans ?_, hprep.trans hprep', hvs'⟩
      rw [words_append, List.length_append, ← Nat.add_assoc]
      exact hleads'
  | @dup os os' o more hn _ ih =>
      obtain ⟨vs, us, rfl, hos, hus⟩ := exists_append_of_is hvs
      obtain ⟨v, hv, rfl⟩ : ∃ v, o.Is s.table v ∧ us = [v] := by
        cases hus with
        | cons hv hnil =>
            cases hnil
            exact ⟨_, hv, rfl⟩
      rw [List.reverse_append, List.reverse_singleton, List.singleton_append,
        List.cons_append] at hstack
      rw [words_append, words_plain rfl, Block.holds_append, Block.holds_cons] at hw
      have hcount : a.stack.length < maxOperands := by
        rw [hstack, List.length_cons, List.length_append, List.length_reverse, ← hos.length_eq]
        omega
      have hstep : Leads k b a s
          { a with pc := a.pc + 1, stack := .float v.toSingle :: a.stack } s := by
        refine .step hk hw.1.1 (Word.op?_make ..) (by decide) ?_ rfl
        have htop : Activation.top { a with pc := a.pc + 1 } = pure (v, vs.reverse ++ rest) := by
          rw [Activation.top, hstack]
        simp only [perform, htop, pure_bind, Word.ret_make]
        exact outcome_push hcount _ _ s
      have hvs₁ : List.Forall₂ (Compile.Operand.Is s.table) (os ++ [o] ++ [.float o.toSingle])
          (vs ++ [v] ++ [.float v.toSingle]) :=
        List.rel_append hvs (.cons ⟨v.toSingle, rfl, hv.toSingle⟩ .nil)
      obtain ⟨vs', s', hleads', hprep', hvs'⟩ := ih
        (a := { a with pc := a.pc + 1, stack := .float v.toSingle :: a.stack }) ht hw.2
        (by simp [hstack]) hvs₁
      refine ⟨vs', s', hstep.trans ?_, hprep', hvs'⟩
      rw [words_append, words_plain rfl, List.length_append, ← Nat.add_assoc]
      exact hleads'
  | @join os os' ss more hs hn _ ih =>
      obtain ⟨vs, us, rfl, hos, hus⟩ := exists_append_of_is hvs
      rw [List.reverse_append, List.append_assoc] at hstack
      rw [words_append, words_plain rfl, Block.holds_append, Block.holds_cons] at hw
      have hlen : us.length = ss.length := by rw [← hus.length_eq, List.length_map]
      have hstep : Leads k b a s { a with
          pc := a.pc + 1
          stack := .text .owned (Bytes.joinWith [0x20] ss) :: (vs.reverse ++ rest) } s := by
        obtain ⟨hwindow, hdrop⟩ :=
          window_reverse (a := { a with pc := a.pc + 1 }) hstack hlen
        refine .step hk hw.1.1 (Word.op?_make ..) (by decide) ?_ rfl
        simp only [perform, joinOperands, Word.ret_make, Word.toNat_arg_make .conc .text hs, hwindow,
          hdrop, pure_bind, Value.join, toBytes_of_is hus]
        have hcount : (vs.reverse ++ rest).length < maxOperands := by
          rw [List.length_append, List.length_reverse, ← hos.length_eq]
          omega
        exact outcome_push (a := { a with stack := vs.reverse ++ rest }) hcount _ _ s
      have hvs₁ : List.Forall₂ (Compile.Operand.Is s.table) (os ++ [.text (Bytes.joinWith [0x20] ss)])
          (vs ++ [.text .owned (Bytes.joinWith [0x20] ss)]) :=
        List.rel_append hos (.cons ⟨.owned, rfl⟩ .nil)
      obtain ⟨vs', s', hleads', hprep', hvs'⟩ := ih
        (a := { a with
          pc := a.pc + 1
          stack := .text .owned (Bytes.joinWith [0x20] ss) :: (vs.reverse ++ rest) })
        ht hw.2 (by simp) hvs₁
      refine ⟨vs', s', hstep.trans ?_, hprep', hvs'⟩
      rw [words_append, words_plain rfl, List.length_append, ← Nat.add_assoc]
      exact hleads'
  | @pop os os' o more _ ih =>
      obtain ⟨vs, us, rfl, hos, hus⟩ := exists_append_of_is hvs
      obtain ⟨v, rfl⟩ : ∃ v, us = [v] := List.length_eq_one_iff.mp hus.length_eq.symm
      rw [List.reverse_append, List.reverse_singleton, List.singleton_append,
        List.cons_append] at hstack
      rw [words_append, words_plain rfl, Block.holds_append, Block.holds_cons] at hw
      have hstep : Leads k b a s { a with pc := a.pc + 1, stack := vs.reverse ++ rest } s := by
        refine .step hk hw.1.1 (Word.op?_make ..) (by decide) ?_ rfl
        simp only [perform, Activation.pop, hstack, pure_bind]
        rfl
      obtain ⟨vs', s', hleads', hprep', hvs'⟩ := ih
        (a := { a with pc := a.pc + 1, stack := vs.reverse ++ rest }) ht hw.2 rfl hos
      refine ⟨vs', s', hstep.trans ?_, hprep', hvs'⟩
      rw [words_append, words_plain rfl, List.length_append, ← Nat.add_assoc]
      exact hleads'

end ConsoleScript
