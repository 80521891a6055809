import ConsoleScript.Proofs.Compile.KindedArguments
import ConsoleScript.Proofs.Engine.Effects
import ConsoleScript.Proofs.Engine.LastingRuns
import ConsoleScript.Proofs.Engine.Skipping

/-!
Runs of code that calls commands with what their letters declare. What is known of the operands at the
beginning of a body, nothing, determines what is known of them at every position that a run of the
body comes to. So at the position of a call the operands are what the letters of the command declare,
whatever the code does and whatever happens in the commands that it calls.
-/

namespace ConsoleScript

open Bytecode Compile Engine

/-- From a position of a block up to an exit, code calls commands only with what their letters
declare, if the operands at the position are as it is known. -/
inductive KindedAt (t : Table) (b : Block) : (pc : Nat) → Kinds → Prop
  | exit {w : UInt32} {pc : Nat} {ks : Kinds} (hw : b.words[pc]? = some w)
      (ho : Word.op? w = some .exit) : KindedAt t b pc ks
  | plain {w : UInt32} {op : Op} {pc : Nat} {ps qs ks : Kinds} (hw : b.words[pc]? = some w)
      (ho : Word.op? w = some op) (hop : op.isSingle = true)
      (hi : Shift t op (Word.ret w) (Word.arg w).toNat ps qs) (hr : KindedAt t b (pc + 1) (qs ++ ks)) :
      KindedAt t b pc (ps ++ ks)
  /-- The number of operands may not fit the field of a call. -/
  | call {w : UInt32} {op : Op} {pc : Nat} {ps ks : Kinds} (hw : b.words[pc]? = some w)
      (ho : Word.op? w = some op) (hi : op.CallsBy t (Word.callIndex w))
      (hn : ps.length < 32 → Word.callArgc w = ps.length) (hr : KindedAt t b (pc + 1) ks) :
      KindedAt t b pc (ps ++ ks)
  | shadow {w : UInt32} {pc : Nat} {ps ks : Kinds} (hw : b.words[pc]? = some w)
      (ho : Word.op? w = some .local) (hn : ps.length = (Word.arg w).toNat)
      (hr : KindedAt t b (pc + 1) ks) : KindedAt t b pc (ps ++ ks)
  | literal {w : UInt32} {i : Instr} {pc : Nat} {q : Value → Prop} {ks : Kinds}
      (hw : b.words[pc]? = some w) (ho : Word.op? w = some i.op) (hlit : i.op.isLiteral = true)
      (hd : decode b.words pc = .ok i) (hq : q (literalValue i.op i.lit))
      (hr : KindedAt t b (pc + i.size) (q :: ks)) : KindedAt t b pc ks
  | block {w : UInt32} {pc : Nat} {q : Value → Prop} {ks : Kinds} (hw : b.words[pc]? = some w)
      (ho : Word.op? w = some .block) (hq : ∀ b pc, q (.code b pc))
      (hr : KindedAt t b (pc + 1 + (Word.arg w).toNat) (q :: ks)) : KindedAt t b pc ks
  | enter {w : UInt32} {pc p : Nat} {q : Value → Prop} {ks : Kinds} (hw : b.words[pc]? = some w)
      (ho : Word.op? w = some .enter)
      (hb : ∀ room, Yields (run room b (pc + 1)) fun r => r.2 = p ∧ q r.1)
      (hr : KindedAt t b p (q :: ks)) : KindedAt t b pc ks
  | enterResult {w : UInt32} {pc p : Nat} {ks : Kinds} (hw : b.words[pc]? = some w)
      (ho : Word.op? w = some .enterResult)
      (hb : ∀ room, Yields (run room b (pc + 1)) fun r => r.2 = p) (hr : KindedAt t b p ks) :
      KindedAt t b pc ks
  | jump {w : UInt32} {pc : Nat} {ks : Kinds} (hw : b.words[pc]? = some w)
      (ho : Word.op? w = some .jump) (hr : KindedAt t b (pc + 1 + (Word.arg w).toNat) ks) :
      KindedAt t b pc ks
  | branch {w : UInt32} {op : Op} {pc : Nat} {p : Value → Prop} {ks : Kinds}
      (hw : b.words[pc]? = some w) (ho : Word.op? w = some op) (hc : op.isBranch = true)
      (hr : KindedAt t b (pc + 1) ks) (hj : KindedAt t b (pc + 1 + (Word.arg w).toNat) ks) :
      KindedAt t b pc (p :: ks)
  /-- No run comes to a position with more operands than a stack has room for. -/
  | surplus {pc : Nat} {ks : Kinds} (h : maxOperands < ks.length) : KindedAt t b pc ks

variable {t : Table} {b : Block} {pc q e : Nat}

section Values

/-- The value of a run is of the type that its last word asks for. -/
theorem yields_runFrom_tagged (k : Runner) (b : Block) (left : Nat) (a : Activation) :
    Yields (runFrom k b left a) fun r => ∃ w, b.words[r.2 - 1]? = some w ∧ r.1.Tagged (Word.ret w) := by
  induction left generalizing a with
  | zero => exact (Yields.any _).bind fun _ _ => .stop _
  | succ left ih =>
      have hstep : Yields (step k b a) fun next => ∀ v pc, next = .done v pc →
          ∃ w, b.words[pc - 1]? = some w ∧ v.Tagged (Word.ret w) := by
        unfold step
        split
        next => exact .stop _
        next w hw =>
          split
          next => exact .stop _
          next =>
            refine .pure fun v pc h => ?_
            cases h
            exact ⟨w, hw, Value.tagged_force ..⟩
          next => exact (Yields.any _).bind fun _ _ => .pure fun _ _ h => by cases h
      refine hstep.attempt.bind fun o ho => ?_
      rcases o with stop | a' | ⟨v, pc⟩
      · exact (Yields.any _).bind fun _ _ => .stop _
      · exact ih a'
      · exact (Yields.any _).bind fun _ _ => .pure (ho _ rfl v pc rfl)

/-- A run of a body ends behind its exit with a value of the type that the exit asks for. -/
theorem BodyAt.yields_tagged {p : Nat} {ret : RetTag} (h : BodyAt t b p q)
    (hx : b.words[q]? = some (Word.make .exit ret 0)) (room : Nat) :
    Yields (run room b p) fun r => r.2 = q + 1 ∧ r.1.Tagged ret := by
  cases room with
  | zero =>
      refine (Yields.any _).bind fun _ _ => ?_
      rw [h.skip_eq hx]
      exact .pure ⟨rfl, Value.tagged_force ..⟩
  | succ room =>
      intro s r s' hr
      obtain ⟨w, hw, htag⟩ :=
        Yields.atLevel (yields_runFrom_tagged (run room) b (b.size + 1) { pc := p }) s r s' hr
      have hend := h.yields_run (room + 1) s r s' hr
      rw [hend, Nat.add_sub_cancel, hx] at hw
      cases hw
      rw [Word.ret_make] at htag
      exact ⟨hend, htag⟩

end Values

section Code

variable {code : Code} {h h' : Nat} {ks ks' : Kinds}

theorem Bytecode.Op.CallsBy.readBack {op : Op} {i : Nat} (h : op.CallsBy t i) (ret : RetTag) (n : Nat)
    (htable : t.size ≤ callIndexLimit) : op.CallsBy t (Word.callIndex
      (Word.make op ret (Word.callOperand (UInt32.ofNat n) (UInt32.ofNat i)))) := by
  rcases h with h | h | ⟨h, f, hf, hsig⟩
  · exact .inl h
  · exact .inr (.inl h)
  · have hi : i < callIndexLimit := Nat.lt_of_lt_of_le (Table.lt_size_of_form? hf) htable
    rw [Word.callIndex_make op ret n hi]
    exact .inr (.inr ⟨h, f, hf, hsig⟩)

theorem Bytecode.Op.CallsBy.isSingle {op : Op} {i : Nat} (h : op.CallsBy t i) : op.isSingle = true := by
  rcases h with rfl | rfl | ⟨rfl | rfl, -⟩ <;> rfl

/-- What jumps on a condition takes an operand. -/
theorem Shift.of_branch {op : Op} {ret : RetTag} {n : Nat} {ps qs : Kinds} (h : Shift t op ret n ps qs)
    (hop : op.isBranch = true) : ∃ p, ps = [p] ∧ qs = [] := by
  cases h with
  | drops h =>
      have hone : ps.length = 1 := by
        cases op with
        | jumpTrue | jumpFalse => cases h
        | jumpResultTrue | jumpResultFalse => exact (Option.some.inj h).symm
        | _ => cases hop
      obtain ⟨p, rfl⟩ := List.length_eq_one_iff.mp hone
      exact ⟨p, rfl, rfl⟩
  | pushes h =>
      cases op with
      | jumpTrue | jumpFalse | jumpResultTrue | jumpResultFalse => cases h
      | _ => cases hop
  | ident ho => rcases ho with rfl | rfl <;> cases hop
  | lookupNamed ho => rcases ho with rfl | rfl <;> cases hop
  | joins ho => rcases ho with rfl | rfl <;> cases hop
  | _ => cases hop

/-- An operand that matters is the one that is read back, as long as there can be that many operands
and identifiers. -/
theorem Shift.readBack {op : Op} {ret : RetTag} {n m : Nat} {ps qs : Kinds} (h : Shift t op ret n ps qs)
    (hm : m < operandLimit) (hnm : UInt32.ofNat n = UInt32.ofNat m) (htable : t.size ≤ operandLimit)
    (hps : ps.length ≤ maxOperands) : Shift t op ret m ps qs := by
  have heq (hn : n < operandLimit) : n = m := by
    have := congrArg UInt32.toNat hnm
    simp only [UInt32.toNat_ofNat'] at this
    unfold operandLimit at hn hm
    omega
  have hlength (hn : ps.length = n) : n = m :=
    heq (Nat.lt_of_le_of_lt (hn ▸ hps) (by decide))
  have hindex {f : Form} (hf : t.form? .operands n = some f) : n = m :=
    heq (Nat.lt_of_lt_of_le (Table.lt_size_of_form? hf) htable)
  cases h with
  | drops h => exact .drops h
  | pushes h hq => exact .pushes h hq
  | view hq => exact .view hq
  | empty hq => exact .empty hq
  | ident ho hq =>
      refine .ident ho fun i hi => hq i fun hn => ?_
      have := heq (Nat.lt_of_lt_of_le hn htable)
      rw [hi (this ▸ hn), this]
  | dup hq => exact .dup hq
  | compile hq => exact .compile hq
  | cond hq => exact .cond hq
  | identNamed hq => exact .identNamed hq
  | force hq => exact .force hq
  | lookupNamed ho hp hq => exact .lookupNamed ho hp hq
  | joins ho hn hq => exact .joins ho (hn.trans (hlength hn)) hq
  | joinsResult hn => exact .joinsResult (hn.trans (hlength hn))
  | callNamed hn =>
      have hle : n + 1 ≤ maxOperands := hn ▸ hps
      have := heq (Nat.lt_of_succ_le (Nat.le_trans hle (by decide)))
      exact .callNamed (this ▸ hn)
  | com hf hn hfit => exact hindex hf ▸ .com hf hn hfit
  | comPressed hf hn hfit => exact hindex hf ▸ .comPressed hf hn hfit

theorem Shift.op_ne {op : Op} {ret : RetTag} {n : Nat} {ps qs : Kinds} (h : Shift t op ret n ps qs) :
    op.isLiteral = false ∧ op ≠ .comAll ∧ op ≠ .comJoined ∧ op ≠ .call ∧ op ≠ .callArg := by
  cases h with
  | drops h => cases op <;> first | decide | cases h
  | pushes h => cases op <;> first | decide | cases h
  | ident ho => rcases ho with rfl | rfl <;> decide
  | lookupNamed ho => rcases ho with rfl | rfl <;> decide
  | joins ho => rcases ho with rfl | rfl <;> decide
  | _ => decide

/-- An instruction of typed code is plain, a call or a literal. -/
theorem Compile.Typed.instr {r : Rigour} {i : Instr} {rest : Code}
    (ht : Typed r t (.instr i :: rest) h h') :
    (∃ m, Typed r t rest m h') ∧
      ((∃ op ret n k l, i = .plain op ret n ∧ Plain r t op n k l) ∨
        (∃ op ret n j, i = .call op ret n j ∧ Call r t op n j) ∨ i.IsLiteral) := by
  generalize hc : Piece.instr i :: rest = code at ht
  cases ht with
  | plain hi _ hr =>
      cases hc
      exact ⟨⟨_, hr⟩, .inl ⟨_, _, _, _, _, rfl, hi⟩⟩
  | call hi _ hr =>
      cases hc
      exact ⟨⟨_, hr⟩, .inr (.inl ⟨_, _, _, _, rfl, hi⟩)⟩
  | literal hi _ hr =>
      cases hc
      exact ⟨⟨_, hr⟩, .inr (.inr hi)⟩
  | _ => cases hc

/-- Code that stands in a block is followed by what comes behind it. -/
theorem Compile.Kinded.at (hk : Kinded t code ks ks') (ht : Typed .layout t code h h')
    (hp : Placed b code pc e) (htable : t.size ≤ callIndexLimit) (he : KindedAt t b e ks') :
    KindedAt t b pc ks := by
  have hfits : t.size ≤ operandLimit := Nat.le_trans htable (by decide)
  have hresult {body : Code} {w : UInt32} {pc q : Nat} {ks : Kinds} (ht : Typed .layout t body 0 0)
      (hw : b.words[pc]? = some w) (ho : Word.op? w = some .enterResult) (hp : Placed b body (pc + 1) q)
      (hx : b.words[q]? = some (Word.make .exit .null 0)) (h : KindedAt t b (q + 1) ks) :
      KindedAt t b pc ks :=
    .enterResult hw ho (BodyAt.of_typed ht hp hx).yields_run h
  induction hk generalizing pc e h h' with
  | nil =>
      cases hp
      exact he
  | @plain op ret n ps qs ks ks' rest hi _ ih =>
      obtain ⟨⟨m, hrest⟩, hcase⟩ := ht.instr
      obtain ⟨hlit, hall, hjoined, hcall, hcallArg⟩ := hi.op_ne
      rcases hcase with ⟨op', ret', n', _, _, heq, hplain⟩ | ⟨op', ret', n', j, heq, hc⟩ | hl
      · obtain ⟨rfl, rfl, hn, -, -⟩ := Instr.mk.inj heq
        by_cases hps : maxOperands < ps.length
        · exact .surplus (Nat.lt_of_lt_of_le hps (by simp))
        have hsmall := hplain.operand_lt hfits
        have hi' := hi.readBack hsmall hn hfits (Nat.le_of_not_lt hps)
        rw [heq] at hp
        obtain ⟨hw, hr⟩ := hp.plain hplain
        have hop := Word.op?_make op ret (UInt32.ofNat n')
        have harg := Word.toNat_arg_make op ret hsmall
        have hnext := ih hrest hr he
        rcases hplain.isSingle_or with hsingle | ⟨hbranch, -, rfl⟩
        · refine .plain hw hop hsingle ?_ hnext
          rwa [harg, Word.ret_make]
        · obtain ⟨p, rfl, rfl⟩ := hi.of_branch hbranch
          refine .branch hw hop hbranch hnext ?_
          rw [harg]
          exact hnext
      · obtain ⟨rfl, -⟩ := Instr.mk.inj heq
        cases hc with
        | comAll => exact absurd rfl hall
        | comJoined => exact absurd rfl hjoined
        | call => exact absurd rfl hcall
        | callArg => exact absurd rfl hcallArg
      · have hop : (Instr.plain op ret n).op = op := rfl
        rcases hl.op with h | h | h <;>
        · rw [hop] at h
          rw [h] at hlit
          cases hlit
  | @call op ret n i ps ks ks' rest hi hn _ ih =>
      obtain ⟨⟨m, hrest⟩, -⟩ := ht.instr
      cases hp with
      | instr hw hr =>
          have hencode : (Instr.call op ret n i).encode =
              [Word.make op ret (Word.callOperand (UInt32.ofNat n) (UInt32.ofNat i))] := by
            rcases hi with rfl | rfl | ⟨rfl | rfl, -⟩ <;> rfl
          rw [hencode] at hw hr
          refine .call (Block.holds_cons.mp hw).1 (Word.op?_make ..) (hi.readBack ret n htable)
            (fun hlt => ?_) (ih hrest hr he)
          rw [hn] at hlt ⊢
          exact Word.callArgc_make op ret hlt
  | literal hi hq _ ih =>
      obtain ⟨⟨m, hrest⟩, -⟩ := ht.instr
      cases hp with
      | instr hw hr =>
          obtain ⟨j, hj, hop⟩ := hw.reads hi
          obtain ⟨w, hword, hwop⟩ := hj.word
          rw [← hop] at hwop
          refine .literal hword hwop ?_ hj.decodes (hop ▸ hq _ hj.lit) ?_
          · rcases hi.op with h | h | h <;> rw [hop, h] <;> rfl
          · rw [hj.size]
            exact ih hrest hr he
  | block _ hq _ _ ih =>
      cases ht with
      | block _ _ ht =>
          cases hp with
          | block hw hn _ _ _ hr =>
              refine .block hw (Word.op?_make ..) hq ?_
              rw [hn]
              exact ih ht hr he
  | spill _ hq _ _ ih =>
      cases ht with
      | spill hb _ ht =>
          cases hp with
          | spill hw hbody hx hr =>
              refine .enter hw (Word.op?_make ..) (fun room => ?_) (ih ht hr he)
              exact ((BodyAt.of_typed hb hbody hx).yields_tagged hx room).mono fun r h => ⟨h.1, hq _ h.2⟩
  | shadow _ _ hps _ ihn ihs ih =>
      cases ht with
      | shadow hk hn hs _ ht =>
          cases hp with
          | shadow hnames hsurplus hw hr =>
              refine ihn hn hnames (ihs (hs (by decide)) hsurplus ?_)
              refine .shadow hw (Word.op?_make ..) ?_ (ih ht hr he)
              rw [Word.toNat_arg_make _ _ (Nat.lt_of_le_of_lt hk (by decide))]
              exact hps
  | whenTrue _ _ _ ih =>
      cases ht with
      | whenTrue hb _ ht =>
          cases hp with
          | whenTrue hw hn hen hbody hx hr =>
              have hrest := ih ht hr he
              refine .branch hw (Word.op?_make ..) rfl (hresult hb hen (Word.op?_make ..) hbody hx hrest) ?_
              rw [hn]
              exact hrest
  | whenFalse _ _ _ ih =>
      cases ht with
      | whenFalse hb _ _ ht =>
          cases hp with
          | whenFalse h0 hw hn hen hbody hx hr =>
              have hrest := ih ht hr he
              have hdrops : Shift t .null .null 0 [] [] := .drops rfl
              refine .plain h0 (Word.op?_make ..) rfl hdrops
                (.branch hw (Word.op?_make ..) rfl
                  (hresult hb hen (Word.op?_make ..) hbody hx hrest) ?_)
              rw [hn]
              exact hrest
  | choice _ _ _ _ _ ih =>
      cases ht with
      | choice hy hn _ ht =>
          cases hp with
          | choice hw hnext hen hyes hx hj hn' hen' hno hx' hr =>
              have hrest := ih ht hr he
              refine .branch hw (Word.op?_make ..) rfl
                (hresult hy hen (Word.op?_make ..) hyes hx (.jump hj (Word.op?_make ..) ?_)) ?_
              · rw [hn']
                exact hrest
              · rw [hnext]
                exact hresult hn hen' (Word.op?_make ..) hno hx' hrest
  | link _ _ _ _ ihn ih =>
      cases ht with
      | link ho hb _ _ hn ht =>
          cases hp with
          | link hw hnext hen hbody hx hl hr =>
              have hrest := ih ht hr he
              refine .branch hw (Word.op?_make ..) ?_
                (.enter hen (Word.op?_make ..) (fun room => ?_) (ihn hn hl hrest)) ?_
              · rcases ho with rfl | rfl <;> rfl
              · exact ((BodyAt.of_typed hb hbody hx).yields_run room).mono fun r h => ⟨h, trivial⟩
              · rw [hnext]
                exact hrest

/-- The bodies of code begin without operands. -/
theorem Compile.Kinded.bodies (hk : Kinded t code ks ks') :
    ∀ body ∈ Code.bodies code, Kinded t body [] [] := by
  induction hk with
  | nil => exact fun _ hbody => absurd hbody List.not_mem_nil
  | plain _ _ ih | call _ _ _ ih | literal _ _ _ ih => exact ih
  | block hb _ _ ihb ih | spill hb _ _ ihb ih =>
      exact List.forall_mem_append.mpr ⟨List.forall_mem_cons.mpr ⟨hb, ihb⟩, ih⟩
  | whenTrue hb _ ihb ih | whenFalse hb _ ihb ih =>
      exact List.forall_mem_append.mpr ⟨List.forall_mem_cons.mpr ⟨hb, ihb⟩, ih⟩
  | shadow _ _ _ _ ihn ihs ih =>
      exact List.forall_mem_append.mpr ⟨List.forall_mem_append.mpr ⟨ihn, ihs⟩, ih⟩
  | choice hy hn _ ihy ihn ih =>
      refine List.forall_mem_append.mpr ⟨List.forall_mem_cons.mpr ⟨hy, ?_⟩, ih⟩
      exact List.forall_mem_cons.mpr ⟨hn, List.forall_mem_append.mpr ⟨ihy, ihn⟩⟩
  | link hb _ _ ihb ihn ih =>
      refine List.forall_mem_append.mpr ⟨List.forall_mem_cons.mpr ⟨hb, ?_⟩, ih⟩
      exact List.forall_mem_append.mpr ⟨ihb, by simpa [Code.bodies] using ihn⟩

/-- Wherever code of a compiled text is run from, nothing needs to be known of operands. -/
theorem Compile.kindedAt_bodyStart {t : Table} (ht : t.Founded .layout) (hd : t.Declares)
    {src name : Bytes} (hsrc : src.length < operandLimit)
    (hsize : (compile t src name).block.size < operandLimit)
    (htable : (compile t src name).table.size ≤ callIndexLimit) {p : Nat}
    (hp : (compile t src name).block.BodyStart p) :
    KindedAt (compile t src name).table (compile t src name).block p [] := by
  obtain ⟨-, htyped⟩ := program_typed (r := .layout) ⟨ht, absurd rfl⟩ hsrc name
  have hkinded := program_kinded ht hd hsrc name []
  rw [compile_block] at hsize hp ⊢
  rw [compile_table] at htable ⊢
  generalize (program t src name).1 = code at *
  generalize (program t src name).2.table = t' at *
  have hbegins {body : Code} {q : Nat} {ret : RetTag} (ht : Typed .layout t' body 0 0)
      (hk : Kinded t' body [] []) (hp : Placed (toBlock name code) body p q)
      (hx : (toBlock name code).words[q]? = some (Word.make .exit ret 0)) :
      KindedAt t' (toBlock name code) p [] :=
    hk.at ht hp htable (.exit hx (Word.op?_make ..))
  obtain ⟨body, q, ret, hbody, hplaced, hx⟩ := htyped.bodyPlaced hsize hp
  rcases hbody with rfl | hbody
  · exact hbegins htyped hkinded hplaced hx
  · exact hbegins (htyped.bodies (by decide) body hbody) (hkinded.bodies body hbody) hplaced hx

end Code

section Steps

variable {k : Runner} {room : Nat} {a a' : Activation} {s s' : Interp} {ks : Kinds}

theorem Shift.of_com {ret : RetTag} {n : Nat} {ps qs : Kinds} (h : Shift t .com ret n ps qs) :
    qs = [] ∧ ∃ f, t.form? .operands n = some f ∧ ps.length = f.signature.slots ∧
      ∀ sig, f = .command sig → sig.IsFixed → ∀ vs, ps.Fit vs → sig.Admits n vs.reverse := by
  cases h with
  | drops h | pushes h => cases h
  | ident ho | lookupNamed ho | joins ho => rcases ho with h | h <;> cases h
  | com hf hn hfit => exact ⟨rfl, _, hf, hn, hfit⟩

theorem Shift.of_comPressed {ret : RetTag} {n : Nat} {ps qs : Kinds}
    (h : Shift t .comPressed ret n ps qs) :
    qs = [] ∧ ∃ f, t.form? .operands n = some f ∧ ps.length + 1 = f.signature.slots ∧
      ∀ sig, f = .command sig → sig.IsFixed →
        ∀ vs, ps.Fit vs → sig.Admits n (vs.reverse ++ [.int 1]) := by
  cases h with
  | drops h | pushes h => cases h
  | ident ho | lookupNamed ho | joins ho => rcases ho with h | h <;> cases h
  | comPressed hf hn hfit => exact ⟨rfl, _, hf, hn, hfit⟩

theorem outcome_com {w : UInt32} {id : Ident} (hid : s.table.get? (Word.arg w).toNat = some id) :
    outcome (perform k b .com w a) s =
      outcome (callCommand k id id.role.signature.slots (Word.ret w) a) s := by
  have hread := World.outcome_identIn (a := a) (b := b) (i := (Word.arg w).toNat) s
  rw [hid] at hread
  exact outcome_bind_ok hread _

theorem outcome_comPressed {w : UInt32} {id : Ident}
    (hid : s.table.get? (Word.arg w).toNat = some id) :
    outcome (perform k b .comPressed w a) s = outcome (do
      callCommand k id id.role.signature.slots (Word.ret w) (← a.push (.int 1))) s := by
  have hread := World.outcome_identIn (a := a) (b := b) (i := (Word.arg w).toNat) s
  rw [hid] at hread
  exact outcome_bind_ok hread _

theorem Table.signature_of_form? {t t' : Table} {i : Nat} {f : Form} (ht : t.Extends .operands t')
    (hf : t.form? .operands i = some f) :
    ∃ id, t'.get? i = some id ∧ id.role.form .operands = f ∧ id.role.signature = f.signature := by
  have hf' := ht i f hf
  unfold Table.form? at hf'
  cases hid : t'.get? i with
  | none =>
      rw [hid] at hf'
      cases hf'
  | some id =>
      rw [hid, Option.map_some, Option.some.injEq] at hf'
      exact ⟨id, rfl, hf', hf' ▸ (Role.signature_form (by decide) id.role).symm⟩

theorem Kinds.Top.yields_push {q : Value → Prop} {v : Value} (ha : ks.Top a.stack) (hv : q v) {pc : Nat} :
    Yields (Activation.push v { a with pc }) fun a' => a'.pc = pc ∧ Kinds.Top (q :: ks) a'.stack := by
  intro s a' s' h
  obtain ⟨hstack, hroom⟩ := yields_pushed _ _ s a' s' h
  rw [hstack]
  exact ⟨ConsoleScript.yields_push _ _ s a' s' h, ha.push hv hroom⟩

private theorem performed_of_step {w : UInt32} {op : Op} (hw : b.words[a.pc]? = some w)
    (ho : Word.op? w = some op) (hx : op ≠ .exit)
    (hs : outcome (Engine.step k b a) s = (.ok (.go a'), s')) :
    outcome (perform k b op w { a with pc := a.pc + 1 }) s = (.ok a', s') := by
  rw [World.step_perform hw ho hx, outcome_bind] at hs
  generalize outcome (perform k b op w { a with pc := a.pc + 1 }) s = o at hs
  obtain ⟨e | a'', s''⟩ := o
  · cases hs
  · cases hs
    rfl

/-- A jump on a condition takes an operand, and leads to the next word or to its target. -/
theorem yields_branch {op : Op} (hop : op.isBranch = true) (w : UInt32) :
    Yields (perform k b op w { a with pc := a.pc + 1 }) fun a' =>
      (a'.pc = a.pc + 1 ∨ a'.pc = a.pc + 1 + (Word.arg w).toNat) ∧ a'.stack = a.stack.drop 1 := by
  have hpopped {f : Value × Activation → Engine Activation} {P : Activation → Prop}
      (h : ∀ v a', a'.pc = a.pc + 1 ∧ a'.stack = a.stack.drop 1 → Yields (f (v, a')) P) :
      Yields (Activation.pop { a with pc := a.pc + 1 } >>= f) P := by
    have hpop : Yields (Activation.pop { a with pc := a.pc + 1 }) fun p =>
        p.2.pc = a.pc + 1 ∧ p.2.stack = a.stack.drop 1 :=
      fun s p s' h =>
        ⟨yields_pop _ s p s' h, yields_popped { a with pc := a.pc + 1 } s p s' h⟩
    exact hpop.bind fun p hp => h p.1 p.2 hp
  have hgo {a' : Activation} (c : Bool) (h : a'.pc = a.pc + 1 ∧ a'.stack = a.stack.drop 1) :
      ((if c then a'.jump (Word.arg w) else a').pc = a.pc + 1 ∨
        (if c then a'.jump (Word.arg w) else a').pc = a.pc + 1 + (Word.arg w).toNat) ∧
      (if c then a'.jump (Word.arg w) else a').stack = a.stack.drop 1 := by
    cases c with
    | false => exact ⟨.inl h.1, h.2⟩
    | true => exact ⟨.inr (by rw [← h.1]; rfl), h.2⟩
  cases op with
  | jumpTrue => exact hpopped fun v a' h => .pure (hgo v.toBool h)
  | jumpFalse =>
      refine hpopped fun v a' h => .pure ?_
      have := hgo (!v.toBool) h
      cases hv : v.toBool <;> rw [hv] at this <;> exact this
  | jumpResultTrue | jumpResultFalse =>
      exact hpopped fun v a' h => (Yields.any _).bind fun v' _ =>
        .pure (@hgo (a'.setResult v') _ h)
  | _ => cases hop

/-- What a step makes of the operands is known where it leads. -/
theorem KindedAt.step (h : KindedAt t b a.pc ks) (ha : ks.Top a.stack)
    (ht : t.Extends .operands s.table)
    (hs : outcome (Engine.step (run room) b a) s = (.ok (.go a'), s')) :
    ∃ ks', KindedAt t b a'.pc ks' ∧ ks'.Top a'.stack := by
  generalize hpc : a.pc = pc at h
  have hgo {w : UInt32} {op : Op} (hw : b.words[pc]? = some w) (ho : Word.op? w = some op)
      (hx : op ≠ .exit) {P : Activation → Prop}
      (h : Yields (perform (run room) b op w { a with pc := a.pc + 1 }) P) : P a' :=
    h s a' s' (performed_of_step (hpc ▸ hw) ho hx hs)
  have hnext {w : UInt32} {op : Op} (hw : b.words[pc]? = some w) (ho : Word.op? w = some op)
      (hop : op.isSingle = true) : a'.pc = pc + 1 := by
    rw [hgo hw ho (by rintro rfl; cases hop) (yields_perform_single hop w), ← hpc]
  cases h with
  | surplus h =>
      obtain ⟨⟨vs, rest, hstack, hvs⟩, hroom⟩ := ha
      rw [hstack, List.length_append, ← hvs.length_eq] at hroom
      omega
  | exit hw ho =>
      rw [World.step_exit (hpc ▸ hw) ho] at hs
      cases hs
  | @plain w op _ ps qs ks hw ho hop hi hr =>
      refine ⟨qs ++ ks, hnext hw ho hop ▸ hr, ?_⟩
      by_cases hcom : op ≠ .com ∧ op ≠ .comPressed
      · exact hgo hw ho (by rintro rfl; cases hop) (hi.yields (a := { a with pc := a.pc + 1 }) ha hcom)
      rcases not_and_or.mp hcom with hcom | hcom <;> rw [not_not] at hcom <;> subst hcom
      · obtain ⟨rfl, f, hf, hn, -⟩ := hi.of_com
        obtain ⟨id, hid, -, hsig⟩ := Table.signature_of_form? ht hf
        have hs' := performed_of_step (hpc ▸ hw) ho (by decide) hs
        rw [outcome_com hid, hsig, ← hn] at hs'
        rw [yields_callCommand_stack _ _ _ hs']
        exact ha.drop
      · obtain ⟨rfl, f, hf, hn, -⟩ := hi.of_comPressed
        obtain ⟨id, hid, -, hsig⟩ := Table.signature_of_form? ht hf
        have hs' := performed_of_step (hpc ▸ hw) ho (by decide) hs
        have hdrop : Yields (do
            callCommand (run room) id (ps.length + 1) (Word.ret w)
              (← Activation.push (.int 1) { a with pc := a.pc + 1 }))
            fun a' => a'.stack = a.stack.drop ps.length :=
          (yields_pushed _ _).bind fun a₁ h₁ => (yields_callCommand_stack).mono fun a₂ h₂ => by
            rw [h₂, h₁.1, List.drop_succ_cons]
        rw [outcome_comPressed hid, hsig, ← hn] at hs'
        rw [hdrop _ _ _ hs']
        exact ha.drop
  | @call w op _ ps ks hw ho hi hn hr =>
      have hop := hi.isSingle
      refine ⟨ks, hnext hw ho hop ▸ hr, ?_⟩
      have hcalls : op = .comAll ∨ op = .comJoined ∨ op = .call ∨ op = .callArg := by
        rcases hi with h | h | ⟨h | h, -⟩
        · exact .inr (.inr (.inl h))
        · exact .inr (.inr (.inr h))
        · exact .inl h
        · exact .inr (.inl h)
      rw [hgo hw ho (by rintro rfl; cases hop) (yields_call_stack hcalls w)]
      by_cases hlt : ps.length < 32
      · rw [hn hlt]
        exact ha.drop
      · -- The field is too small only for as many operands as there is room for.
        obtain ⟨⟨vs, rest, hstack, hvs⟩, hroom⟩ := ha
        have hnil : ks = [] := by
          have hlength := hvs.length_eq
          have hmost : maxOperands = 32 := rfl
          rw [hstack, List.length_append] at hroom
          rw [List.length_append] at hlength
          exact List.length_eq_zero_iff.mp (by omega)
        subst hnil
        refine ⟨⟨[], _, rfl, .nil⟩, Nat.le_trans ?_ hroom⟩
        rw [List.length_drop]
        exact Nat.sub_le ..
  | @shadow w _ ps ks hw ho hn hr =>
      refine ⟨ks, hnext hw ho rfl ▸ hr, ?_⟩
      have hdrop : Yields (perform (run room) b .local w { a with pc := a.pc + 1 }) fun a' =>
          a'.stack = a.stack.drop ps.length :=
        (Yields.any _).bind fun _ _ => (Yields.any _).bind fun _ _ => .pure (by rw [hn]; rfl)
      rw [hgo hw ho (by decide) hdrop]
      exact ha.drop
  | @literal w i _ q ks hw ho hlit hd hq hr =>
      have hpush : Yields (pushLiteral b i.op { a with pc := a.pc + 1 }) fun a' =>
          a'.pc = pc + i.size ∧ Kinds.Top (q :: ks) a'.stack := by
        rw [← hpc] at hd
        simp only [pushLiteral, Nat.add_sub_cancel, hd]
        rw [← hpc]
        exact ha.yields_push hq
      have hperform : i.op ≠ .exit ∧ perform (run room) b i.op w { a with pc := a.pc + 1 } =
          pushLiteral b i.op { a with pc := a.pc + 1 } := by
        cases hop : i.op <;> rw [hop] at hlit <;> first | exact ⟨by decide, rfl⟩ | cases hlit
      obtain ⟨hpc', htop⟩ := hgo hw ho hperform.1 (hperform.2 ▸ hpush)
      exact ⟨q :: ks, hpc' ▸ hr, htop⟩
  | @block w _ q ks hw ho hq hr =>
      have hpush : Yields (perform (run room) b .block w { a with pc := a.pc + 1 }) fun a' =>
          a'.pc = pc + 1 + (Word.arg w).toNat ∧ Kinds.Top (q :: ks) a'.stack := by
        rw [← hpc]
        exact ha.yields_push (hq _ _)
      obtain ⟨hpc', htop⟩ := hgo hw ho (by decide) hpush
      exact ⟨q :: ks, hpc' ▸ hr, htop⟩
  | @enter w _ p q ks hw ho hb hr =>
      have hpush : Yields (perform (run room) b .enter w { a with pc := a.pc + 1 }) fun a' =>
          a'.pc = p ∧ Kinds.Top (q :: ks) a'.stack := by
        rw [← hpc] at hb
        refine (hb room).bind fun r hr => ?_
        rw [← hr.1]
        exact ha.yields_push hr.2
      obtain ⟨hpc', htop⟩ := hgo hw ho (by decide) hpush
      exact ⟨q :: ks, hpc' ▸ hr, htop⟩
  | @enterResult w _ p ks hw ho hb hr =>
      have hend : Yields (perform (run room) b .enterResult w { a with pc := a.pc + 1 }) fun a' =>
          a'.pc = p ∧ ks.Top a'.stack := by
        rw [← hpc] at hb
        exact (hb room).bind fun r hv => .pure ⟨hv, ha⟩
      obtain ⟨hpc', htop⟩ := hgo hw ho (by decide) hend
      exact ⟨ks, hpc' ▸ hr, htop⟩
  | @jump w _ ks hw ho hr =>
      have hjump : Yields (perform (run room) b .jump w { a with pc := a.pc + 1 }) fun a' =>
          a'.pc = pc + 1 + (Word.arg w).toNat ∧ ks.Top a'.stack := .pure ⟨by rw [← hpc]; rfl, ha⟩
      obtain ⟨hpc', htop⟩ := hgo hw ho (by decide) hjump
      exact ⟨ks, hpc' ▸ hr, htop⟩
  | @branch w op _ p ks hw ho hc hr hj =>
      obtain ⟨hpc', hstack⟩ := hgo hw ho (by rintro rfl; cases hc) (yields_branch hc w)
      refine ⟨ks, ?_, ?_⟩
      · rcases hpc' with hpc' | hpc'
        · rw [hpc', hpc]
          exact hr
        · rw [hpc', hpc]
          exact hj
      · rw [hstack]
        have happ : Kinds.Top ([p] ++ ks) a.stack := ha
        exact happ.drop

/-- A run comes from one of its states to another one by steps. -/
inductive Engine.Reaches (k : Runner) (b : Block) (a : Activation) (s : Interp) :
    Activation → Interp → Prop
  | refl : Reaches k b a s a s
  | step {a₁ a₂ : Activation} {s₁ s₂ : Interp} (h : Reaches k b a s a₁ s₁)
      (hs : outcome (Engine.step k b a₁) s₁ = (.ok (.go a₂), s₂)) : Reaches k b a s a₂ s₂

theorem KindedAt.reaches (h : KindedAt t b a.pc ks) (ha : ks.Top a.stack)
    (ht : t.Extends .operands s.table) (hr : Reaches (run room) b a s a' s') :
    (∃ ks', KindedAt t b a'.pc ks' ∧ ks'.Top a'.stack) ∧ t.Extends .operands s'.table := by
  induction hr with
  | refl => exact ⟨⟨ks, h, ha⟩, ht⟩
  | @step a₁ a₂ s₁ s₂ _ hs ih =>
      obtain ⟨⟨ks₁, h₁, ha₁⟩, ht₁⟩ := ih
      refine ⟨h₁.step ha₁ ht₁ hs, ht₁.trans ?_⟩
      obtain ⟨hlasts, -⟩ := lasting_step (p := False) (meets_run room) b ha₁.room s₁ False.elim
      rw [hs] at hlasts
      exact hlasts.extends .operands

end Steps

end ConsoleScript
