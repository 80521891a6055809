import ConsoleScript.Proofs.Engine.Steps

/-!
Steps make progress. From a position where code can be run, an instruction is safe and leads to a
later position where the code can be run further, or it is the exit. Instructions that shadow aliases
are left aside, since what they save is not restored before the end of the run.
-/

namespace ConsoleScript

open Bytecode Engine

variable {r : Rigour} {t : Table} {b : Block}

/-- What it means for an instruction that code can be run from it. -/
def After (r : Rigour) (t : Table) (b : Block) (word : UInt32) (pc h e : Nat) : Op → Prop
  | .exit => e = pc + 1
  | .start | .offset | .bool | .down => False
  | .local => ∃ m, r.Moves (Word.arg word).toNat 0 h m ∧ Runnable r t b (pc + 1) m e
  | .val | .valInline | .view => ∃ n m, b.LiteralAt pc (n + 1) ∧ r.Moves 0 1 h m ∧
      Runnable r t b (pc + (n + 1)) m e
  | .block => Runnable r t b (pc + 2) 0 (pc + 1 + (Word.arg word).toNat) ∧
      ∃ m, r.Moves 0 1 h m ∧ Runnable r t b (pc + 1 + (Word.arg word).toNat) m e
  | .enter => ∃ q m, Runnable r t b (pc + 1) 0 q ∧ r.Moves 0 1 h m ∧ Runnable r t b q m e
  | .enterResult => ∃ q, Runnable r t b (pc + 1) 0 q ∧ Runnable r t b q h e
  | .jump => Runnable r t b (pc + 1 + (Word.arg word).toNat) h e
  | .jumpTrue | .jumpFalse | .jumpResultTrue | .jumpResultFalse => ∃ m, r.Moves 1 0 h m ∧
      Runnable r t b (pc + 1) m e ∧ Runnable r t b (pc + 1 + (Word.arg word).toNat) m e
  | .comAll => ∃ m, Call r t .comAll (Word.callArgc word) (Word.callIndex word) ∧
      r.Moves (Word.callArgc word) 0 h m ∧ Runnable r t b (pc + 1) m e
  | .comJoined => ∃ m, Call r t .comJoined (Word.callArgc word) (Word.callIndex word) ∧
      r.Moves (Word.callArgc word) 0 h m ∧ Runnable r t b (pc + 1) m e
  | .call => ∃ m, Call r t .call (Word.callArgc word) (Word.callIndex word) ∧
      r.Moves (Word.callArgc word) 0 h m ∧ Runnable r t b (pc + 1) m e
  | .callArg => ∃ m, Call r t .callArg (Word.callArgc word) (Word.callIndex word) ∧
      r.Moves (Word.callArgc word) 0 h m ∧ Runnable r t b (pc + 1) m e
  | op => ∃ x y m, Plain r t op (Word.arg word).toNat x y ∧ r.Moves x y h m ∧
      Runnable r t b (pc + 1) m e

theorem After.of_plain {word : UInt32} {pc h e : Nat} {op : Op} (hop : op.isPlain = true) :
    After r t b word pc h e op ↔ ∃ x y m, Plain r t op (Word.arg word).toNat x y ∧
      r.Moves x y h m ∧ Runnable r t b (pc + 1) m e := by
  cases op <;> first | exact Iff.rfl | cases hop

/-- Instructions with a plain operand do not jump, except for the last jump of a chain, which goes
nowhere. -/
theorem Plain.isPlain {op : Op} {n x y : Nat} (h : Plain r t op n x y) : op.isPlain = true ∨
    (op = .jumpResultTrue ∨ op = .jumpResultFalse) ∧ n = 0 ∧ x = 1 ∧ y = 0 := by
  cases h with
  | settleTrue => exact .inr ⟨.inl rfl, rfl, rfl, rfl⟩
  | settleFalse => exact .inr ⟨.inr rfl, rfl, rfl, rfl⟩
  | _ => exact .inl rfl

theorem Runnable.after {pc h e : Nat} (h0 : Runnable r t b pc h e) {word : UInt32} {op : Op}
    (hw : b.words[pc]? = some word) (ho : Word.op? word = some op) :
    After r t b word pc h e op := by
  have hsame {word' : UInt32} {op' : Op} (hw' : b.words[pc]? = some word')
      (ho' : Word.op? word' = some op') : word' = word ∧ op' = op := by
    cases hw.symm.trans hw'
    exact ⟨rfl, Option.some.inj (ho'.symm.trans ho)⟩
  cases h0 with
  | exit hw' ho' =>
      obtain ⟨rfl, rfl⟩ := hsame hw' ho'
      rfl
  | plain hw' ho' hi hm hr =>
      obtain ⟨rfl, rfl⟩ := hsame hw' ho'
      rcases hi.isPlain with hop | ⟨hop, hn, rfl, rfl⟩
      · exact (After.of_plain hop).mpr ⟨_, _, _, hi, hm, hr⟩
      · have hbranch := And.intro hr ((Nat.add_zero (pc + 1)).symm ▸ hr)
        rw [← hn] at hbranch
        rcases hop with rfl | rfl
        · exact ⟨_, hm, hbranch⟩
        · exact ⟨_, hm, hbranch⟩
  | call hw' ho' hi hm hr =>
      obtain ⟨rfl, rfl⟩ := hsame hw' ho'
      have hi' := hi
      cases hi <;> exact ⟨_, hi', hm, hr⟩
  | shadow hw' ho' hm hr =>
      obtain ⟨rfl, rfl⟩ := hsame hw' ho'
      exact ⟨_, hm, hr⟩
  | literal hl hm hr =>
      have hl' := hl
      obtain ⟨word', i, hw', ho', hlit, -⟩ := hl
      obtain ⟨rfl, rfl⟩ := hsame hw' ho'
      clear hw' ho'
      generalize i.op = op at hlit ⊢
      cases op <;> first | exact ⟨_, _, hl', hm, hr⟩ | cases hlit
  | block hw' ho' hb hm hr =>
      obtain ⟨rfl, rfl⟩ := hsame hw' ho'
      exact ⟨hb, _, hm, hr⟩
  | enter hw' ho' hb hm hr =>
      obtain ⟨rfl, rfl⟩ := hsame hw' ho'
      exact ⟨_, _, hb, hm, hr⟩
  | enterResult hw' ho' hb hr =>
      obtain ⟨rfl, rfl⟩ := hsame hw' ho'
      exact ⟨_, hb, hr⟩
  | jump hw' ho' hr =>
      obtain ⟨rfl, rfl⟩ := hsame hw' ho'
      exact hr
  | @branch _ op' _ _ _ _ hw' ho' hc hm hr hj =>
      obtain ⟨rfl, rfl⟩ := hsame hw' ho'
      cases op' <;> first | exact ⟨_, hm, hr, hj⟩ | cases hc

theorem Runnable.word {pc h e : Nat} (h0 : Runnable r t b pc h e) :
    ∃ word op, b.words[pc]? = some word ∧ Word.op? word = some op := by
  cases h0 with
  | literal hl _ _ =>
      obtain ⟨word, i, hw, ho, -⟩ := hl
      exact ⟨word, i.op, hw, ho⟩
  | exit hw ho | plain hw ho _ _ _ | call hw ho _ _ _ | shadow hw ho _ _ | block hw ho _ _ _
  | enter hw ho _ _ _ | enterResult hw ho _ _ | jump hw ho _ | branch hw ho _ _ _ _ =>
      exact ⟨_, _, hw, ho⟩

/-- A run that can go on behind an instruction, with the same locals. -/
def Proceeds (r : Rigour) (b : Block) (e : Nat) (a : Activation) (s : Interp) (a' : Activation) :
    Prop :=
  a'.locals = a.locals ∧ a.pc ≤ a'.pc ∧
    ∃ h, a'.Ok r s.table h ∧ Runnable r s.table b a'.pc h e

/-- A run that goes on, or has ended at its exit. -/
def Goes (r : Rigour) (b : Block) (e : Nat) (a : Activation) (s : Interp) : Next → Prop
  | .go a' => Proceeds r b e { a with pc := a.pc + 1 } s a'
  | .done v pc => v.Ok r s.table ∧ pc = e

namespace World

variable {w : World r} {k : Runner} {a : Activation} {h m e : Nat}

theorem Safe.proceeds {p : Engine Activation} {a' : Activation} (hp : w.Safe p (Leaves r a' m))
    (hlocals : a'.locals = a.locals)
    (hr : w.live → a.pc ≤ a'.pc ∧ Runnable r w.state.table b a'.pc m e) :
    w.Safe p (Proceeds r b e a) := by
  refine hp.mono fun hl s a'' _ hx hq => ?_
  obtain ⟨hok, hpc, hlocals'⟩ := hq
  obtain ⟨hle, hr⟩ := hr hl
  exact ⟨hlocals'.trans hlocals, hpc.symm ▸ hle, m, hok, hpc.symm ▸ hr.mono hx⟩

private theorem safe_pushLiteral {op : Op} {pc : Nat} (hpc : a.pc = pc + 1)
    (ha : w.live → a.Ok r w.state.table h)
    (hr : w.live → ∃ n m, b.LiteralAt pc (n + 1) ∧ r.Moves 0 1 h m ∧
      Runnable r w.state.table b (pc + (n + 1)) m e) :
    w.Safe (pushLiteral b op a) (Proceeds r b e a) := by
  unfold pushLiteral
  rw [hpc, Nat.add_sub_cancel]
  dsimp only
  cases hd : decode b.words pc with
  | error d =>
      refine .failAt fun hl => ?_
      obtain ⟨n, m, ⟨_, i, -, -, -, hd', -⟩, -⟩ := hr hl
      rw [hd] at hd'
      cases hd'
  | ok i =>
      obtain ⟨m, hm⟩ : ∃ m, w.live → r.Moves 0 1 h m ∧ pc + 1 ≤ pc + i.size ∧
          Runnable r w.state.table b (pc + i.size) m e := exists_of_live fun hl => by
        obtain ⟨n, m, ⟨_, i', -, -, -, hd', hsize⟩, hm, hr⟩ := hr hl
        cases hd.symm.trans hd'
        exact ⟨m, hm, by omega, hsize ▸ hr⟩
      have hv : w.Good (literalValue op i.lit) := fun _ => by
        cases i.lit <;> trivial
      have hpush : w.Safe (Activation.push (literalValue op i.lit) { a with pc := pc + i.size })
          (Leaves r { a with pc := pc + i.size } m) :=
        safe_push (fun hl => ⟨(ha hl).height, (ha hl).stack, (ha hl).result⟩) hv
          fun hl hr => ((hm hl).1.spec hr).2
      exact hpush.proceeds rfl fun hl => ⟨hpc ▸ (hm hl).2.1, (hm hl).2.2⟩

/-- Code that is run on the way, whose value becomes an operand. -/
theorem safe_enter (hk : RunsSafely r k) (ha : w.live → a.Ok r w.state.table h)
    (hr : w.live → ∃ q m, Runnable r w.state.table b a.pc 0 q ∧ r.Moves 0 1 h m ∧
      Runnable r w.state.table b q m e) :
    w.Safe (do
      let (v, pc) ← k b a.pc
      Activation.push v { a with pc }) (Proceeds r b e a) := by
  obtain ⟨q, hq⟩ := exists_of_live hr
  obtain ⟨m, hm⟩ := exists_of_live hq
  refine (hk w b a.pc q fun hl => (hm hl).1).bind fun w' p hw hp => ?_
  obtain ⟨v, pc⟩ := p
  have hpush : w'.Safe (Activation.push v { a with pc }) (Leaves r { a with pc } m) := by
    refine safe_push (h := h) (fun hl => ?_) (fun hl => (hp hl).1) fun hl hr =>
      ((hm (hw hl).1).2.1.spec hr).2
    obtain ⟨hheight, hstack, hresult⟩ := (ha (hw hl).1).mono (hw.forms hl)
    exact ⟨hheight, hstack, hresult⟩
  refine hpush.proceeds rfl fun hl => ?_
  obtain ⟨hb, -, hr⟩ := hm (hw hl).1
  cases (hp hl).2
  exact ⟨Nat.le_of_lt hb.bounds.1, hr.mono (hw.forms hl)⟩

private theorem safe_enterResult (hk : RunsSafely r k) (ha : w.live → a.Ok r w.state.table h)
    (hr : w.live → ∃ q, Runnable r w.state.table b a.pc 0 q ∧ Runnable r w.state.table b q h e) :
    w.Safe (do
      let (v, pc) ← k b a.pc
      return { a with pc, result := v }) (Proceeds r b e a) := by
  obtain ⟨q, hq⟩ := exists_of_live hr
  refine (hk w b a.pc q fun hl => (hq hl).1).bind fun w' p hw hp => .pure fun hl => ?_
  obtain ⟨hb, hr⟩ := hq (hw hl).1
  obtain ⟨hv, rfl⟩ := hp hl
  obtain ⟨hheight, hstack, -⟩ := (ha (hw hl).1).mono (hw.forms hl)
  exact ⟨rfl, Nat.le_of_lt hb.bounds.1, h, ⟨hheight, hstack, hv⟩, hr.mono (hw.forms hl)⟩

private theorem proceeds_either {s : Interp} {n : UInt32} {a' : Activation} (ha : a'.Ok r s.table m)
    (hlocals : a'.locals = a.locals) (hpc : a'.pc = a.pc) (hr : Runnable r s.table b a.pc m e)
    (hj : Runnable r s.table b (a.pc + n.toNat) m e) :
    Proceeds r b e a s (a'.jump n) ∧ Proceeds r b e a s a' := by
  rw [← hpc] at hr hj
  exact ⟨⟨hlocals, hpc ▸ Nat.le_add_right _ _, m, ⟨ha.height, ha.stack, ha.result⟩, hj⟩,
    ⟨hlocals, Nat.le_of_eq hpc.symm, m, ha, hr⟩⟩

/-- The jumps on a condition, whichever way they go. -/
theorem safe_branch (hk : RunsSafely r k) {op : Op} {word : UInt32}
    (ha : w.live → a.Ok r w.state.table h) (hop : op.isBranch = true)
    (hr : w.live → ∃ m, r.Moves 1 0 h m ∧ Runnable r w.state.table b a.pc m e ∧
      Runnable r w.state.table b (a.pc + (Word.arg word).toNat) m e) :
    w.Safe (perform k b op word a) (Proceeds r b e a) := by
  have hjump : perform k b op word a = stepJump k op (Word.arg word) a := by
    cases op <;> first | rfl | cases hop
  rw [hjump]
  obtain ⟨m, hm⟩ := exists_of_live hr
  have hone (hl : w.live) (hr : r ≠ .layout) : 1 ≤ h := ((hm hl).1.spec hr).1
  have hdrop (hl : w.live) : (a.drop 1).Ok r w.state.table m :=
    (ha hl).drop fun hr => ((hm hl).1.spec hr).2.1
  cases op with
  | jumpTrue | jumpFalse =>
      refine .pop ha hone fun v _ => .pure fun hl => ?_
      obtain ⟨-, hr, hj⟩ := hm hl
      obtain ⟨hjump, hstay⟩ := proceeds_either (a := a) (hdrop hl) rfl rfl hr hj
      split
      · first | exact hjump | exact hstay
      · first | exact hstay | exact hjump
  | jumpResultTrue | jumpResultFalse =>
      refine .pop ha hone fun v hv => (safe_codeResult hk hv).bind fun w' v' hw hv' => ?_
      refine .pure fun hl => ?_
      obtain ⟨-, hr, hj⟩ := hm (hw hl).1
      obtain ⟨hjump, hstay⟩ := proceeds_either (a := a)
        (((hdrop (hw hl).1).mono (hw.forms hl)).setResult (hv' hl)) rfl rfl (hr.mono (hw.forms hl))
        (hj.mono (hw.forms hl))
      split
      · exact hjump
      · exact hstay
  | _ => cases hop

/-- An instruction of code that can be run, other than its exit and the shadowing of aliases. -/
theorem safe_perform (hk : RunsSafely r k) {op : Op} {word : UInt32} {pc : Nat}
    (hpc : a.pc = pc + 1) (ha : w.live → a.Ok r w.state.table h)
    (hr : w.live → After r w.state.table b word pc h e op) (hx : op ≠ .exit) (hs : op ≠ .local) :
    w.Safe (perform k b op word a) (Proceeds r b e a) := by
  by_cases hop : op.isPlain = true
  · obtain ⟨x, hx⟩ := exists_of_live fun hl => (After.of_plain hop).mp (hr hl)
    obtain ⟨y, hy⟩ := exists_of_live hx
    obtain ⟨m, hm⟩ := exists_of_live hy
    refine (safe_performPlain hk rfl ha (fun hl => (hm hl).1) (fun hl => (hm hl).2.1) hop).proceeds
      rfl fun hl => ⟨Nat.le_refl _, ?_⟩
    exact hpc.symm ▸ (hm hl).2.2
  have hcall (hop : op ∈ [.comAll, .comJoined, .call, .callArg])
      (hr : w.live → ∃ m, Call r w.state.table op (Word.callArgc word) (Word.callIndex word) ∧
        r.Moves (Word.callArgc word) 0 h m ∧ Runnable r w.state.table b (pc + 1) m e) :
      w.Safe (stepCall k b op word a) (Proceeds r b e a) := by
    obtain ⟨m, hm⟩ := exists_of_live hr
    refine (safe_stepCall hk ha (fun hl => (hm hl).1) (fun hl => (hm hl).2.1) hop).proceeds
      rfl fun hl => ⟨Nat.le_refl _, ?_⟩
    exact hpc.symm ▸ (hm hl).2.2
  cases op with
  | exit => exact absurd rfl hx
  | «local» => exact absurd rfl hs
  | start | offset => exact .pure fun hl => (hr hl).elim
  | bool | down => exact .failAt fun hl => (hr hl).elim
  | val | valInline | view => exact safe_pushLiteral hpc ha hr
  | block =>
      obtain ⟨m, hm⟩ := exists_of_live fun hl => (hr hl).2
      have hpush : w.Safe (perform k b .block word a) (Leaves r (a.jump (Word.arg word)) m) := by
        refine safe_push (h := h) (fun hl => ⟨(ha hl).height, (ha hl).stack, (ha hl).result⟩)
          (fun hl => ?_) fun hl hr => ((hm hl).1.spec hr).2
        rw [hpc]
        exact ⟨_, (hr hl).1⟩
      refine hpush.proceeds rfl fun hl => ?_
      rw [Activation.jump, hpc]
      exact ⟨Nat.le_add_right _ _, (hm hl).2⟩
  | enter => exact safe_enter hk ha (hpc.symm ▸ hr)
  | enterResult => exact safe_enterResult hk ha (hpc.symm ▸ hr)
  | jump =>
      refine .pure fun hl => ⟨rfl, Nat.le_add_right _ _, h, ?_, ?_⟩
      · exact ⟨(ha hl).height, (ha hl).stack, (ha hl).result⟩
      · rw [Activation.jump, hpc]
        exact hr hl
  | jumpTrue | jumpFalse | jumpResultTrue | jumpResultFalse =>
      exact safe_branch hk ha rfl (hpc.symm ▸ hr)
  | comAll | comJoined | call | callArg => exact hcall (by decide) hr
  | _ => exact absurd rfl hop

theorem shadow_short {n : Nat} (hs : a.stack.length < n) :
    shadow n a = fail (.stackShort n a.stack.length) := by
  unfold shadow Activation.window
  rw [if_neg (Nat.not_le.mpr hs)]
  rfl

theorem step_exit {word : UInt32} (hw : b.words[a.pc]? = some word)
    (ho : Word.op? word = some .exit) :
    step k b a = return .done (a.result.force (Word.ret word)) (a.pc + 1) := by
  simp only [step, hw, ho]

theorem step_perform {word : UInt32} {op : Op} (hw : b.words[a.pc]? = some word)
    (ho : Word.op? word = some op) (hx : op ≠ .exit) :
    step k b a = return .go (← perform k b op word { a with pc := a.pc + 1 }) := by
  simp only [step, hw, ho]

/-- A step of code that can be run, except where it shadows aliases. -/
theorem safe_step (hk : RunsSafely r k) (ha : w.live → a.Ok r w.state.table h)
    (hr : w.live → Runnable r w.state.table b a.pc h e)
    (hs : ∀ word, b.words[a.pc]? = some word → Word.op? word = some .local →
      a.stack.length < (Word.arg word).toNat) :
    w.Safe (step k b a) (Goes r b e a) := by
  cases hw : b.words[a.pc]? with
  | none =>
      simp only [step, hw]
      refine .failAt fun hl => ?_
      obtain ⟨word, op, hw', -⟩ := (hr hl).word
      rw [hw] at hw'
      cases hw'
  | some word =>
      cases ho : Word.op? word with
      | none =>
          simp only [step, hw, ho]
          refine .failAt fun hl => ?_
          obtain ⟨word', op, hw', ho'⟩ := (hr hl).word
          cases hw.symm.trans hw'
          rw [ho] at ho'
          cases ho'
      | some op =>
          have hafter (hl : w.live) := (hr hl).after hw ho
          by_cases hx : op = .exit
          · subst hx
            rw [step_exit hw ho]
            exact .pure fun hl => ⟨(ha hl).result.force _, (hafter hl).symm⟩
          rw [step_perform hw ho hx]
          refine Safe.bind (Q := Proceeds r b e { a with pc := a.pc + 1 }) ?_
            fun _ _ _ hgo => .pure hgo
          by_cases hshadow : op = .local
          · subst hshadow
            have hshort := hs word hw ho
            simp only [perform]
            rw [shadow_short (a := { a with pc := a.pc + 1 }) hshort]
            refine .fail fun hl => permits_of_height fun hr => ?_
            obtain ⟨m, hm, -⟩ := hafter hl
            have := (hm.spec hr).1
            have := (ha hl).height hr
            omega
          · exact safe_perform hk rfl (fun hl => ⟨(ha hl).height, (ha hl).stack, (ha hl).result⟩)
              hafter hx hshadow

end World

end ConsoleScript
