import ConsoleScript.Proofs.Code.Placement
import ConsoleScript.Proofs.Compile.Arguments
import ConsoleScript.Proofs.Engine.Beginning
import ConsoleScript.Proofs.Engine.Positions

/-!
Passing over code and running it. Code that may not nest deeper is passed over: along every jump,
over the bodies of block literals, and counting the code that is entered. A run takes the jumps that
its values ask for, and runs what it enters by itself. Both come to the end of code wherever it
stands, so that from the beginning of a body both end behind the same exit.
-/

namespace ConsoleScript

open Bytecode Compile Engine

variable {b : Block} {pc q e : Nat}

section Passing

/-- Passing over code from a position comes to another one, no deeper than before. -/
def PassesTo (b : Block) (pc e : Nat) : Prop :=
  ∀ start left depth, b.size < pc + left → ∃ left', b.size < e + left' ∧
    skipFrom b start left depth pc = skipFrom b start left' depth e

theorem PassesTo.refl (b : Block) (pc : Nat) : PassesTo b pc pc :=
  fun _ left _ h => ⟨left, h, rfl⟩

theorem PassesTo.trans (h : PassesTo b pc q) (h' : PassesTo b q e) : PassesTo b pc e := by
  intro start left depth hleft
  obtain ⟨left₁, hleft₁, hskip⟩ := h start left depth hleft
  obtain ⟨left₂, hleft₂, hskip'⟩ := h' start left₁ depth hleft₁
  exact ⟨left₂, hleft₂, hskip.trans hskip'⟩

theorem PassesTo.step (hpc : pc < b.size) (hlt : pc < q)
    (hstep : ∀ start left depth,
      skipFrom b start (left + 1) depth pc = skipFrom b start left depth q) : PassesTo b pc q := by
  intro start left depth hleft
  obtain ⟨left, rfl⟩ : ∃ n, left = n + 1 := ⟨left - 1, by omega⟩
  exact ⟨left, by omega, hstep start left depth⟩

theorem PassesTo.single {w : UInt32} {op : Op} (hw : b.words[pc]? = some w)
    (ho : Word.op? w = some op) (hop : op.isSingle = true) : PassesTo b pc (pc + 1) := by
  obtain ⟨hforward, hlit⟩ := Bool.and_eq_true_iff.mp hop
  refine .step (Block.lt_size hw) (Nat.lt_succ_self pc) fun _ _ _ => ?_
  exact skipFrom_forward (decode_plain hw ho (Bool.not_eq_true' _ ▸ hlit)) (Block.lt_size hw) hforward

theorem PassesTo.literal {n : Nat} (hl : b.LiteralAt pc (n + 1)) : PassesTo b pc (pc + (n + 1)) := by
  obtain ⟨word, i, hw, ho, hlit, hd, hsize⟩ := hl
  have hop : i.op.isForward = true := by
    cases hop : i.op <;> rw [hop] at hlit <;> first | rfl | cases hlit
  refine .step (Block.lt_size hw) (by omega) fun _ _ _ => ?_
  rw [skipFrom_forward hd (Block.lt_size hw) hop, hsize]

theorem PassesTo.jump {w : UInt32} {op : Op} (hw : b.words[pc]? = some w) (ho : Word.op? w = some op)
    (hop : (op = .block || op.isJump) = true) (hn : pc + 1 + (Word.arg w).toNat = q) :
    PassesTo b pc q := by
  have hlit : op.isLiteral = false := by
    cases op <;> first | rfl | cases hop
  subst hn
  refine .step (Block.lt_size hw) (by omega) fun _ _ _ => ?_
  rw [skipFrom_decode (decode_plain hw ho hlit) (Block.lt_size hw)]
  exact if_pos hop

/-- Code that is entered is passed over up to its exit. -/
theorem PassesTo.enter {w x : UInt32} {op : Op} (hw : b.words[pc]? = some w)
    (ho : Word.op? w = some op) (hop : op = .enter ∨ op = .enterResult)
    (hbody : PassesTo b (pc + 1) q) (hx : b.words[q]? = some x) (hex : Word.op? x = some .exit) :
    PassesTo b pc (q + 1) := by
  intro start left depth hleft
  have hpc := Block.lt_size hw
  obtain ⟨left, rfl⟩ : ∃ n, left = n + 1 := ⟨left - 1, by omega⟩
  obtain ⟨left', hleft', hskip⟩ := hbody start left (depth + 1) (by omega)
  have hq := Block.lt_size hx
  obtain ⟨left', rfl⟩ : ∃ n, left' = n + 1 := ⟨left' - 1, by omega⟩
  refine ⟨left', by omega, ?_⟩
  have henter : skipFrom b start (left + 1) depth pc = skipFrom b start left (depth + 1) (pc + 1) := by
    rw [skipFrom_decode (decode_plain hw ho (by rcases hop with rfl | rfl <;> rfl)) hpc]
    rcases hop with rfl | rfl <;> rfl
  rw [henter, hskip, skipFrom_decode (decode_plain hx hex rfl) hq]
  rfl

end Passing

section Running

/-- A run that comes to a position and ends has come to another one on the way. -/
def RunsThrough (k : Runner) (b : Block) (pc e : Nat) : Prop :=
  ∀ P : Value × Nat → Prop, (∀ left a, a.pc = e → Yields (runFrom k b left a) P) →
    ∀ left a, a.pc = pc → Yields (runFrom k b left a) P

variable {k : Runner}

theorem RunsThrough.refl (k : Runner) (b : Block) (pc : Nat) : RunsThrough k b pc pc :=
  fun _ h => h

/-- A property of the positions up to some position holds where an instruction of a certain kind
stands as soon as it holds wherever the instruction leads. -/
def Carried (k : Runner) (b : Block) (n : Nat) (kind : Op → Prop) (I : Nat → Prop) : Prop :=
  ∀ ⦃pc : Nat⦄ ⦃w : UInt32⦄ ⦃op : Op⦄, pc < n → b.words[pc]? = some w → Word.op? w = some op →
    op ≠ .exit → kind op →
      (∀ a : Activation, a.pc = pc + 1 → Yields (perform k b op w a) fun a' => I a'.pc) → I pc

private theorem carried_runsThrough (k : Runner) (b : Block) (n : Nat) :
    Carried k b n (fun _ => True) (RunsThrough k b · e) := by
  intro pc w op _ hw ho hx _ h P he left a ha
  cases left with
  | zero => exact (Yields.any _).bind fun _ _ => .stop _
  | succ left =>
      subst ha
      rw [runFrom_succ hw ho hx]
      refine (h _ rfl).attempt.bind fun o ho => ?_
      rcases o with stop | a'
      · exact (Yields.any _).bind fun _ _ => .stop _
      · exact ho a' rfl P he left a' rfl

namespace Carried

variable {n : Nat} {kind : Op → Prop} {I : Nat → Prop}

theorem single (hI : Carried k b n kind I) {w : UInt32} {op : Op} (hpc : pc < n)
    (hw : b.words[pc]? = some w) (ho : Word.op? w = some op) (hop : op.isSingle = true)
    (hkind : kind op) (h : I (pc + 1)) : I pc := by
  refine hI hpc hw ho (by rintro rfl; cases hop) hkind fun a ha => ?_
  refine (yields_perform_single hop w).mono fun a' ha' => ?_
  rw [ha', ha]
  exact h

private theorem literal (hI : Carried k b n kind I) {m : Nat} (hpc : pc < n)
    (hl : b.LiteralAt pc (m + 1))
    (hkind : ∀ op : Op, op.isLiteral = true → kind op) (h : I (pc + (m + 1))) : I pc := by
  obtain ⟨word, i, hw, ho, hlit, hd, hsize⟩ := hl
  refine hI hpc hw ho (by rintro hx; rw [hx] at hlit; cases hlit) (hkind _ hlit) fun a ha => ?_
  have hpush : Yields (pushLiteral b i.op a) fun a' => I a'.pc := by
    simp only [pushLiteral, ha, Nat.add_sub_cancel, hd]
    refine (yields_push _ _).mono fun a' ha' => ?_
    rw [ha', hsize]
    exact h
  cases hop : i.op <;> rw [hop] at hlit hpush <;> first | exact hpush | cases hlit

private theorem block (hI : Carried k b n kind I) {w : UInt32} (hpc : pc < n)
    (hw : b.words[pc]? = some w) (ho : Word.op? w = some .block) (hkind : kind .block)
    (h : I (pc + 1 + (Word.arg w).toNat)) : I pc := by
  refine hI hpc hw ho (by decide) hkind fun a ha => (yields_push _ _).mono fun a' ha' => ?_
  rw [ha']
  change I (a.pc + (Word.arg w).toNat)
  rw [ha]
  exact h

/-- Behind a jump, or behind its target. -/
theorem branch (hI : Carried k b n kind I) {w : UInt32} {op : Op} (hpc : pc < n)
    (hw : b.words[pc]? = some w) (ho : Word.op? w = some op) (hop : op.isBranch = true)
    (hkind : kind op) (hnext : I (pc + 1)) (htarget : I (pc + 1 + (Word.arg w).toNat)) : I pc := by
  refine hI hpc hw ho (by rintro rfl; cases hop) hkind fun a ha => ?_
  rw [← ha] at hnext htarget
  unfold perform
  cases op with
  | jumpTrue | jumpFalse =>
      refine .afterPop fun v a' ha' => .pure ?_
      rw [← ha'] at hnext htarget
      split <;> assumption
  | jumpResultTrue | jumpResultFalse =>
      refine .afterPop fun v a' ha' => (Yields.any _).bind fun v' _ => .pure ?_
      rw [← ha'] at hnext htarget
      split <;> assumption
  | _ => cases hop

theorem jump (hI : Carried k b n kind I) {w : UInt32} (hpc : pc < n)
    (hw : b.words[pc]? = some w) (ho : Word.op? w = some .jump) (hkind : kind .jump)
    (h : I (pc + 1 + (Word.arg w).toNat)) : I pc := by
  refine hI hpc hw ho (by decide) hkind fun a ha => .pure ?_
  change I (a.pc + (Word.arg w).toNat)
  rw [ha]
  exact h

theorem enter (hI : Carried k b n kind I) {w : UInt32} {op : Op} (hpc : pc < n)
    (hw : b.words[pc]? = some w) (ho : Word.op? w = some op) (hop : op = .enter ∨ op = .enterResult)
    (hkind : kind op) (hbody : Yields (k b (pc + 1)) fun p => p.2 = q) (h : I q) : I pc := by
  refine hI hpc hw ho (by rcases hop with rfl | rfl <;> decide) hkind fun a ha => ?_
  rw [← ha] at hbody
  unfold perform
  rcases hop with rfl | rfl
  · refine hbody.bind fun p hp => (yields_push _ _).mono fun a' ha' => ?_
    rw [ha']
    exact hp ▸ h
  · exact hbody.bind fun p hp => .pure (hp ▸ h)

end Carried

end Running

section Bodies

variable {t : Table} {code : Code} {h h' : Nat}

/-- A body stands in front of its exit. -/
structure BodyAt (t : Table) (b : Block) (p q : Nat) : Prop where
  placed : ∃ code, Placed b code p q ∧ Typed .layout t code 0 0
  exit : ∃ ret, b.words[q]? = some (Word.make .exit ret 0)

theorem BodyAt.of_typed {p : Nat} {ret : RetTag} (ht : Typed .layout t code 0 0)
    (hp : Placed b code p q) (hx : b.words[q]? = some (Word.make .exit ret 0)) : BodyAt t b p q :=
  ⟨⟨code, hp, ht⟩, ret, hx⟩

theorem Plain.isSingle_or {op : Op} {n k l : Nat} (hi : Plain .layout t op n k l) :
    op.isSingle = true ∨ op.isBranch = true ∧ op.isJump = true ∧ n = 0 := by
  cases hi <;> first | exact .inl rfl | exact .inr ⟨rfl, rfl, rfl⟩

theorem Call.isSingle {op : Op} {n i : Nat} (hi : Call .layout t op n i) : op.isSingle = true := by
  cases hi <;> rfl

theorem Placed.plain {op : Op} {ret : RetTag} {n k l : Nat} {rest : Code}
    (hi : Plain .layout t op n k l) (hp : Placed b (.instr (.plain op ret n) :: rest) pc e) :
    b.words[pc]? = some (Word.make op ret (UInt32.ofNat n)) ∧ Placed b rest (pc + 1) e := by
  cases hp with
  | instr hw hr =>
      rw [encode_plain hi] at hw hr
      exact ⟨(Block.holds_cons.mp hw).1, hr⟩

theorem Placed.call {op : Op} {ret : RetTag} {n i : Nat} {rest : Code}
    (hi : Call .layout t op n i) (hp : Placed b (.instr (.call op ret n i) :: rest) pc e) :
    b.words[pc]? = some (Word.make op ret (Word.callOperand (UInt32.ofNat n) (UInt32.ofNat i))) ∧
      Placed b rest (pc + 1) e := by
  cases hp with
  | instr hw hr =>
      rw [encode_call hi] at hw hr
      exact ⟨(Block.holds_cons.mp hw).1, hr⟩

theorem Placed.literal {i : Instr} {rest : Code} (hi : i.IsLiteral)
    (hp : Placed b (.instr i :: rest) pc e) :
    ∃ n, b.LiteralAt pc (n + 1) ∧ Placed b rest (pc + (n + 1)) e := by
  cases hp with
  | instr hw hr =>
      have hl := hw.literalAt hi
      obtain ⟨n, hn⟩ := Nat.exists_eq_succ_of_ne_zero (encode_length_ne_zero i)
      rw [hn] at hl hr
      exact ⟨n, hl, hr⟩

/-- Code is passed over from its beginning to its end. -/
theorem Placed.passesTo (ht : Typed .layout t code h h') (hp : Placed b code pc e) :
    PassesTo b pc e := by
  induction ht generalizing pc e with
  | nil _ =>
      cases hp
      exact .refl b _
  | plain hi _ _ ih =>
      obtain ⟨hw, hr⟩ := hp.plain hi
      refine PassesTo.trans ?_ (ih hr)
      rcases hi.isSingle_or with hop | ⟨-, hop, rfl⟩
      · exact .single hw (Word.op?_make ..) hop
      · refine .jump hw (Word.op?_make ..) (Bool.or_eq_true_iff.mpr (.inr hop)) ?_
        rw [Word.toNat_arg_make _ _ (by decide)]
  | call hi _ _ ih =>
      obtain ⟨hw, hr⟩ := hp.call hi
      exact .trans (.single hw (Word.op?_make ..) hi.isSingle) (ih hr)
  | literal hi _ _ ih =>
      obtain ⟨n, hl, hr⟩ := hp.literal hi
      exact .trans (.literal hl) (ih hr)
  | block _ _ _ _ ih =>
      cases hp with
      | block hw hn _ _ _ hr => exact .trans (.jump hw (Word.op?_make ..) rfl hn) (ih hr)
  | spill _ _ _ ihb ih =>
      cases hp with
      | spill hw hb hx hr =>
          exact .trans (.enter hw (Word.op?_make ..) (.inl rfl) (ihb hb) hx (Word.op?_make ..)) (ih hr)
  | shadow _ _ _ _ _ ihn ihs ih =>
      cases hp with
      | shadow hn hs hw hr =>
          exact ((ihn hn).trans (ihs nofun hs)).trans
            (.trans (.single hw (Word.op?_make ..) rfl) (ih hr))
  | whenTrue _ _ _ _ ih =>
      cases hp with
      | whenTrue hw hn _ _ _ hr => exact .trans (.jump hw (Word.op?_make ..) rfl hn) (ih hr)
  | whenFalse _ _ _ _ _ ih =>
      cases hp with
      | whenFalse h0 hw hn _ _ _ hr =>
          exact .trans (.single h0 (Word.op?_make ..) rfl)
            (.trans (.jump hw (Word.op?_make ..) rfl hn) (ih hr))
  | choice _ _ _ _ _ ihn ih =>
      cases hp with
      | choice hw hn _ _ _ _ _ he hb hx hr =>
          exact .trans (.jump hw (Word.op?_make ..) rfl hn)
            (.trans (.enter he (Word.op?_make ..) (.inr rfl) (ihn hb) hx (Word.op?_make ..)) (ih hr))
  | link ho _ _ _ _ _ _ _ ih =>
      cases hp with
      | link hw hn _ _ _ _ hr =>
          refine .trans (.jump hw (Word.op?_make ..) ?_ hn) (ih hr)
          rcases ho with rfl | rfl <;> rfl

/-- What is carried back over instructions is carried back over code, if runs of the bodies that it
enters end behind their exits. -/
theorem Placed.carries {k : Runner} {n : Nat} {kind : Op → Prop} {I : Nat → Prop}
    (hI : Carried k b n kind I) (hk : ∀ p q, BodyAt t b p q → Yields (k b p) fun r => r.2 = q + 1)
    (ht : Typed .layout t code h h') (hp : Placed b code pc e) (he : e ≤ n)
    (hlit : ∀ op : Op, op.isLiteral = true → kind op) (hkind : ∀ op ∈ Code.ops code, kind op)
    (h0 : I e) : I pc := by
  have henter {w : UInt32} {op : Op} {ret : RetTag} {body : Code} {pc q : Nat} (hpc : pc < n)
      (hw : b.words[pc]? = some w) (ho : Word.op? w = some op) (hop : op = .enter ∨ op = .enterResult)
      (hkind : kind op) (ht : Typed .layout t body 0 0) (hb : Placed b body (pc + 1) q)
      (hx : b.words[q]? = some (Word.make .exit ret 0)) (h : I (q + 1)) : I pc :=
    hI.enter hpc hw ho hop hkind (hk _ _ (.of_typed ht hb hx)) h
  induction ht generalizing pc e with
  | nil _ =>
      cases hp
      exact h0
  | plain hi _ _ ih =>
      obtain ⟨hw, hr⟩ := hp.plain hi
      have hle := hr.le
      have hrest := ih hr he (fun op hop => hkind op (List.mem_cons_of_mem _ hop)) h0
      have hop := hkind _ (List.mem_cons_self ..)
      rcases hi.isSingle_or with hsingle | ⟨hbranch, -, rfl⟩
      · exact hI.single (by omega) hw (Word.op?_make ..) hsingle hop hrest
      · refine hI.branch (by omega) hw (Word.op?_make ..) hbranch hop hrest ?_
        rw [Word.toNat_arg_make _ _ (by decide)]
        exact hrest
  | call hi _ _ ih =>
      obtain ⟨hw, hr⟩ := hp.call hi
      have hle := hr.le
      exact hI.single (by omega) hw (Word.op?_make ..) hi.isSingle (hkind _ (List.mem_cons_self ..))
        (ih hr he (fun op hop => hkind op (List.mem_cons_of_mem _ hop)) h0)
  | literal hi _ _ ih =>
      obtain ⟨m, hl, hr⟩ := hp.literal hi
      have hle := hr.le
      exact hI.literal (by omega) hl hlit
        (ih hr he (fun op hop => hkind op (List.mem_cons_of_mem _ hop)) h0)
  | block _ _ _ _ ih =>
      cases hp with
      | block hw hn _ _ _ hr =>
          have hle := hr.le
          refine hI.block (by omega) hw (Word.op?_make ..) (hkind _ (List.mem_cons_self ..)) ?_
          rw [hn]
          exact ih hr he (fun op hop => hkind op (List.mem_cons_of_mem _ hop)) h0
  | spill hb _ _ _ ih =>
      cases hp with
      | spill hw hp hx hr =>
          have hle := hp.le
          have hle' := hr.le
          exact henter (by omega) hw (Word.op?_make ..) (.inl rfl) (hkind _ (List.mem_cons_self ..))
            hb hp hx (ih hr he (fun op hop => hkind op (List.mem_cons_of_mem _ hop)) h0)
  | shadow _ _ _ _ _ ihn ihs ih =>
      cases hp with
      | shadow hn hs hw hr =>
          have hle := hs.le
          have hle' := hr.le
          simp only [Code.ops, Piece.ops, List.append_assoc, List.forall_mem_append] at hkind
          obtain ⟨hnames, hsurplus, hlocal, hrest⟩ := hkind
          refine ihn hn (by omega) hnames (ihs (fun h => Rigour.noConfusion h) hs (by omega) hsurplus ?_)
          exact hI.single (by omega) hw (Word.op?_make ..) rfl (hlocal _ (List.mem_cons_self ..))
            (ih hr he hrest h0)
  | whenTrue hb _ _ _ ih =>
      cases hp with
      | whenTrue hw hn he' hp hx hr =>
          have hle := hp.le
          have hle' := hr.le
          simp only [Code.ops, Piece.ops, List.cons_append, List.forall_mem_cons] at hkind
          obtain ⟨hjump, henterKind, hrest⟩ := hkind
          have hnext := ih hr he hrest h0
          refine hI.branch (by omega) hw (Word.op?_make ..) rfl hjump
            (henter (by omega) he' (Word.op?_make ..) (.inr rfl) henterKind hb hp hx hnext) ?_
          rw [hn]
          exact hnext
  | whenFalse hb _ _ _ _ ih =>
      cases hp with
      | whenFalse hnull hw hn he' hp hx hr =>
          have hle := hp.le
          have hle' := hr.le
          simp only [Code.ops, Piece.ops, List.cons_append, List.forall_mem_cons] at hkind
          obtain ⟨hnullKind, hjump, henterKind, hrest⟩ := hkind
          have hnext := ih hr he hrest h0
          refine hI.single (by omega) hnull (Word.op?_make ..) rfl hnullKind
            (hI.branch (by omega) hw (Word.op?_make ..) rfl hjump
              (henter (by omega) he' (Word.op?_make ..) (.inr rfl) henterKind hb hp hx hnext) ?_)
          rw [hn]
          exact hnext
  | choice hy hn _ _ _ _ ih =>
      cases hp with
      | choice hw hn₁ he' hp hx hj hn₂ he'' hp' hx' hr =>
          have hle := hp.le
          have hle' := hp'.le
          have hle'' := hr.le
          simp only [Code.ops, Piece.ops, List.cons_append, List.forall_mem_cons] at hkind
          obtain ⟨hbranch, henterKind, hjump, hrest⟩ := hkind
          have hnext := ih hr he hrest h0
          refine hI.branch (by omega) hw (Word.op?_make ..) rfl hbranch
            (henter (by omega) he' (Word.op?_make ..) (.inr rfl) henterKind hy hp hx
              (hI.jump (by omega) hj (Word.op?_make ..) hjump ?_)) ?_
          · rw [hn₂]
            exact hnext
          · rw [hn₁]
            exact henter (by omega) he'' (Word.op?_make ..) (.inr rfl) henterKind hn hp' hx' hnext
  | link ho hb _ _ _ _ _ ihn ih =>
      cases hp with
      | link hw hn he' hp hx hl hr =>
          have hle := hp.le
          have hle' := hl.le
          have hle'' := hr.le
          simp only [Code.ops, Piece.ops, List.cons_append, List.forall_mem_cons,
            List.forall_mem_append] at hkind
          obtain ⟨hbranch, henterKind, hlink, hrest⟩ := hkind
          have hnext := ih hr he hrest h0
          refine hI.branch (by omega) hw (Word.op?_make ..) (by rcases ho with rfl | rfl <;> rfl)
            hbranch (henter (by omega) he' (Word.op?_make ..) (.inl rfl) henterKind hb hp hx
              (ihn hl (by omega) (by simpa [Code.ops] using hlink) hnext)) ?_
          rw [hn]
          exact hnext

theorem Placed.runsThrough {k : Runner} (hk : ∀ p q, BodyAt t b p q → Yields (k b p) fun r => r.2 = q + 1)
    (ht : Typed .layout t code h h') (hp : Placed b code pc e) : RunsThrough k b pc e :=
  hp.carries (I := (RunsThrough k b · e)) (carried_runsThrough k b e) hk ht (Nat.le_refl _) (fun _ _ => trivial)
    (fun _ _ => trivial) (.refl k b e)

/-- Passing over a body ends behind its exit, with null converted to the type that the exit asks
for. -/
theorem BodyAt.skip_eq {p : Nat} {ret : RetTag} (h : BodyAt t b p q)
    (hx : b.words[q]? = some (Word.make .exit ret 0)) :
    skip b p = pure (Value.null.force ret, q + 1) := by
  obtain ⟨⟨code, hp, ht⟩, -⟩ := h
  obtain ⟨left, hleft, hskip⟩ := hp.passesTo ht p (b.size + 1) 0 (by omega)
  have hq := Block.lt_size hx
  obtain ⟨left, rfl⟩ : ∃ n, left = n + 1 := ⟨left - 1, by omega⟩
  rw [skip, hskip, skipFrom_decode (decode_plain hx (Word.op?_make ..) rfl) hq, Word.ret_make]
  rfl

/-- A run of a body ends behind its exit, however deep it nests. -/
theorem BodyAt.yields_run {p : Nat} (h : BodyAt t b p q) (room : Nat) :
    Yields (run room b p) fun r => r.2 = q + 1 := by
  induction room generalizing p q with
  | zero =>
      obtain ⟨ret, hx⟩ := h.exit
      refine (Yields.any _).bind fun _ _ => ?_
      rw [h.skip_eq hx]
      exact .pure rfl
  | succ room ih =>
      obtain ⟨⟨code, hp, ht⟩, ret, hx⟩ := h
      refine .atLevel (hp.runsThrough (fun _ _ => ih) ht _ (fun left a ha => ?_) _ { pc := p } rfl)
      subst ha
      cases left with
      | zero => exact (Yields.any _).bind fun _ _ => .stop _
      | succ left =>
          rw [runFrom, World.step_exit hx (Word.op?_make ..)]
          have hdone : Yields (pure (Next.done (a.result.force (Word.ret (Word.make .exit ret 0)))
              (a.pc + 1))) fun next => ∃ v, next = .done v (a.pc + 1) := .pure ⟨_, rfl⟩
          refine hdone.attempt.bind fun o ho => ?_
          rcases o with stop | next
          · exact (Yields.any _).bind fun _ _ => .stop _
          · obtain ⟨v, rfl⟩ := ho _ rfl
            exact (Yields.any _).bind fun _ _ => .pure rfl

end Bodies

/-- The positions from which the code of a block is run: behind its start marker, behind the header
of a block literal, and behind an instruction that enters code. -/
inductive Bytecode.Block.BodyStart (b : Block) : Nat → Prop
  | program : BodyStart b 1
  | literal {pc : Nat} {i : Instr} (h : b.Begins pc) (hd : decode b.words pc = .ok i)
      (ho : i.op = .block) : BodyStart b (pc + 2)
  | entered {pc : Nat} {i : Instr} (h : b.Begins pc) (hd : decode b.words pc = .ok i)
      (ho : i.op = .enter ∨ i.op = .enterResult) : BodyStart b (pc + 1)

section Walking

variable {t : Table} {code : Code} {h h' : Nat}

/-- What is behind an instruction that opens a body. -/
def Opens (B : Nat → Prop) (pc : Nat) (op : Op) : Prop :=
  (op = .block → B (pc + 2)) ∧ (op = .enter ∨ op = .enterResult → B (pc + 1))

/-- Instructions follow each other from one position up to another, and what they open is known. -/
inductive Walks (B : Nat → Prop) (b : Block) : (pc e : Nat) → Prop
  | refl (pc : Nat) : Walks B b pc pc
  | step {pc e : Nat} {i : Instr} (hd : decode b.words pc = .ok i) (hi : Opens B pc i.op)
      (h : Walks B b (pc + i.size) e) : Walks B b pc e

variable {B : Nat → Prop}

theorem Walks.trans (h : Walks B b pc q) (h' : Walks B b q e) : Walks B b pc e := by
  induction h with
  | refl => exact h'
  | step hd hi _ ih => exact .step hd hi (ih h')

theorem Walks.single {w : UInt32} {op : Op} (hw : b.words[pc]? = some w) (ho : Word.op? w = some op)
    (hlit : op.isLiteral = false) (hop : op ≠ .block ∧ op ≠ .enter ∧ op ≠ .enterResult) :
    Walks B b pc (pc + 1) := by
  refine .step (decode_plain hw ho hlit) ⟨fun h => absurd h hop.1, ?_⟩ (.refl _)
  rintro (h | h)
  · exact absurd h hop.2.1
  · exact absurd h hop.2.2

theorem Walks.literal {n : Nat} (hl : b.LiteralAt pc (n + 1)) : Walks B b pc (pc + (n + 1)) := by
  obtain ⟨word, i, hw, ho, hlit, hd, hsize⟩ := hl
  refine .step hd ⟨?_, ?_⟩ (hsize ▸ .refl _)
  · intro h
    rw [h] at hlit
    cases hlit
  · rintro (h | h) <;> rw [h] at hlit <;> cases hlit

theorem Walks.entered {w x : UInt32} {op : Op} (hw : b.words[pc]? = some w) (ho : Word.op? w = some op)
    (hop : op = .enter ∨ op = .enterResult) (hB : B (pc + 1)) (hx : b.words[q]? = some x)
    (hex : Word.op? x = some .exit) (hbody : Walks B b (pc + 1) q) : Walks B b pc (q + 1) := by
  have hlit : op.isLiteral = false := by rcases hop with rfl | rfl <;> rfl
  refine .step (decode_plain hw ho hlit) ⟨?_, fun _ => hB⟩
    (hbody.trans (.single hx hex rfl (by decide)))
  rintro rfl
  rcases hop with h | h <;> cases h

/-- Read one after another, the instructions of code come to its end, and open its bodies. -/
theorem Placed.walks (ht : Typed .layout t code h h') (hp : Placed b code pc e)
    (hB : ∀ body ∈ Code.bodies code, ∀ p q ret, Placed b body p q →
      b.words[q]? = some (Word.make .exit ret 0) → B p) : Walks B b pc e := by
  induction ht generalizing pc e with
  | nil _ =>
      cases hp
      exact .refl _
  | plain hi _ _ ih =>
      obtain ⟨hw, hr⟩ := hp.plain hi
      exact .trans (.single hw (Word.op?_make ..) (by cases hi <;> rfl) (by cases hi <;> decide))
        (ih hr hB)
  | call hi _ _ ih =>
      obtain ⟨hw, hr⟩ := hp.call hi
      exact .trans (.single hw (Word.op?_make ..) (by cases hi <;> rfl) (by cases hi <;> decide))
        (ih hr hB)
  | literal hi _ _ ih =>
      obtain ⟨n, hl, hr⟩ := hp.literal hi
      exact .trans (.literal hl) (ih hr hB)
  | block ht _ _ ihb ih =>
      simp only [Code.bodies, Piece.bodies, List.cons_append, List.forall_mem_cons,
        List.forall_mem_append] at hB
      obtain ⟨hbody, hinner, hrest⟩ := hB
      cases hp with
      | block hw _ ho hb hx hr =>
          refine .step (decode_plain hw (Word.op?_make ..) rfl)
            ⟨fun _ => hbody _ _ _ hb hx, by rintro (h | h) <;> cases h⟩ ?_
          exact .trans (.single ho (Word.op?_make ..) rfl (by decide))
            (.trans (ihb hb hinner)
              (.trans (.single hx (Word.op?_make ..) rfl (by decide)) (ih hr hrest)))
  | spill ht _ _ ihb ih =>
      simp only [Code.bodies, Piece.bodies, List.cons_append, List.forall_mem_cons,
        List.forall_mem_append] at hB
      obtain ⟨hbody, hinner, hrest⟩ := hB
      cases hp with
      | spill hw hb hx hr =>
          exact .trans (.entered hw (Word.op?_make ..) (.inl rfl) (hbody _ _ _ hb hx) hx
            (Word.op?_make ..) (ihb hb hinner)) (ih hr hrest)
  | shadow _ _ _ _ _ ihn ihs ih =>
      simp only [Code.bodies, Piece.bodies, List.forall_mem_append] at hB
      obtain ⟨⟨hnames, hsurplus⟩, hrest⟩ := hB
      cases hp with
      | shadow hn hs hw hr =>
          exact ((ihn hn hnames).trans (ihs (by decide) hs hsurplus)).trans
            (.trans (.single hw (Word.op?_make ..) rfl (by decide)) (ih hr hrest))
  | whenTrue ht _ _ ihb ih =>
      simp only [Code.bodies, Piece.bodies, List.cons_append, List.forall_mem_cons,
        List.forall_mem_append] at hB
      obtain ⟨hbody, hinner, hrest⟩ := hB
      cases hp with
      | whenTrue hw _ he hb hx hr =>
          exact .trans (.single hw (Word.op?_make ..) rfl (by decide))
            (.trans (.entered he (Word.op?_make ..) (.inr rfl) (hbody _ _ _ hb hx) hx
              (Word.op?_make ..) (ihb hb hinner)) (ih hr hrest))
  | whenFalse ht _ _ _ ihb ih =>
      simp only [Code.bodies, Piece.bodies, List.cons_append, List.forall_mem_cons,
        List.forall_mem_append] at hB
      obtain ⟨hbody, hinner, hrest⟩ := hB
      cases hp with
      | whenFalse h0 hw _ he hb hx hr =>
          exact .trans (.single h0 (Word.op?_make ..) rfl (by decide))
            (.trans (.single hw (Word.op?_make ..) rfl (by decide))
              (.trans (.entered he (Word.op?_make ..) (.inr rfl) (hbody _ _ _ hb hx) hx
                (Word.op?_make ..) (ihb hb hinner)) (ih hr hrest)))
  | choice hy hn _ _ ihy ihn ih =>
      simp only [Code.bodies, Piece.bodies, List.cons_append, List.forall_mem_cons,
        List.forall_mem_append] at hB
      obtain ⟨hyes, hno, ⟨hinner, hinner'⟩, hrest⟩ := hB
      cases hp with
      | choice hw _ he hp hx hj _ he' hp' hx' hr =>
          exact .trans (.single hw (Word.op?_make ..) rfl (by decide))
            (.trans (.entered he (Word.op?_make ..) (.inr rfl) (hyes _ _ _ hp hx) hx
                (Word.op?_make ..) (ihy hp hinner))
              (.trans (.single hj (Word.op?_make ..) rfl (by decide))
                (.trans (.entered he' (Word.op?_make ..) (.inr rfl) (hno _ _ _ hp' hx') hx'
                  (Word.op?_make ..) (ihn hp' hinner')) (ih hr hrest))))
  | link ho hb _ _ _ _ ihb ihn ih =>
      simp only [Code.bodies, Piece.bodies, List.cons_append, List.forall_mem_cons,
        List.forall_mem_append] at hB
      obtain ⟨hbody, ⟨hinner, hnext⟩, hrest⟩ := hB
      cases hp with
      | link hw _ he hp hx hl hr =>
          refine .trans (.single hw (Word.op?_make ..) ?_ ?_)
            (.trans (.entered he (Word.op?_make ..) (.inl rfl) (hbody _ _ _ hp hx) hx
                (Word.op?_make ..) (ihb hp hinner))
              (.trans (ihn hl (by simpa [Code.bodies] using hnext)) (ih hr hrest)))
          · rcases ho with rfl | rfl <;> rfl
          · rcases ho with rfl | rfl <;> decide

theorem Walks.uncons (h : Walks B b pc b.size) {i : Instr} (hd : decode b.words pc = .ok i) :
    Opens B pc i.op ∧ Walks B b (pc + i.size) b.size := by
  cases h with
  | refl =>
      have hw : b.words[b.size]? = none := Array.getElem?_eq_none (Nat.le_refl _)
      rw [decode, hw] at hd
      cases hd
  | step hd' hi hrest =>
      cases hd.symm.trans hd'
      exact ⟨hi, hrest⟩

theorem Walks.rest (h : Walks B b 0 b.size) (hpc : b.Begins pc) : Walks B b pc b.size := by
  induction hpc with
  | first => exact h
  | next _ hd ih => exact (ih.uncons hd).2

/-- Wherever code is run from in the block of typed code, the code itself begins or one of its
bodies. -/
theorem Compile.Typed.bodyPlaced (ht : Typed .layout t code 0 0) {name : Bytes}
    (hsize : (toBlock name code).size < operandLimit) {p : Nat}
    (hp : (toBlock name code).BodyStart p) :
    ∃ body q ret, (body = code ∨ body ∈ Code.bodies code) ∧
      Placed (toBlock name code) body p q ∧
        (toBlock name code).words[q]? = some (Word.make .exit ret 0) := by
  have hw : (toBlock name code).Holds 0 (Word.make .start .null 0 :: Code.words 1 code ++
      [Word.make .exit .null 0]) := by
    unfold Block.Holds toBlock
    simp
  obtain ⟨hstart, hx⟩ := Block.holds_append.mp hw
  obtain ⟨hstart, hcode⟩ := Block.holds_cons.mp hstart
  obtain ⟨hx, -⟩ := Block.holds_cons.mp hx
  have hplaced := Code.placed hsize code hcode
  have hlast : 1 + (Code.words 1 code).length + 1 = (toBlock name code).size := by
    simp [toBlock, Block.size, Nat.add_comm]
  rw [List.length_cons, Nat.zero_add, Nat.add_comm] at hx
  have hwalk : Walks (fun p => ∃ body q ret, (body = code ∨ body ∈ Code.bodies code) ∧
      Placed (toBlock name code) body p q ∧
        (toBlock name code).words[q]? = some (Word.make .exit ret 0))
      (toBlock name code) 0 (toBlock name code).size := by
    rw [← hlast]
    refine .trans (.single hstart (Word.op?_make ..) rfl (by decide))
      (.trans (hplaced.walks ht fun body hbody p q ret hp hx => ?_)
        (.single hx (Word.op?_make ..) rfl (by decide)))
    exact ⟨body, q, ret, .inr hbody, hp, hx⟩
  cases hp with
  | program => exact ⟨code, _, _, .inl rfl, hplaced, hx⟩
  | literal hb hd ho => exact ((hwalk.rest hb).uncons hd).1.1 ho
  | entered hb hd ho => exact ((hwalk.rest hb).uncons hd).1.2 ho

/-- The bodies of typed code are typed by themselves. -/
theorem Compile.Typed.bodies {r : Rigour} (ht : Typed r t code h h') (hr : r ≠ .room) :
    ∀ body ∈ Code.bodies code, Typed r t body 0 0 := by
  induction ht with
  | nil _ => exact fun _ hbody => absurd hbody List.not_mem_nil
  | plain _ _ _ ih | call _ _ _ ih | literal _ _ _ ih => exact ih
  | block hb _ _ ihb ih | spill hb _ _ ihb ih | whenTrue hb _ _ ihb ih =>
      exact List.forall_mem_append.mpr ⟨List.forall_mem_cons.mpr ⟨hb, ihb⟩, ih⟩
  | whenFalse hb _ _ _ ihb ih =>
      exact List.forall_mem_append.mpr ⟨List.forall_mem_cons.mpr ⟨hb, ihb⟩, ih⟩
  | shadow _ _ _ _ _ ihn ihs ih =>
      exact List.forall_mem_append.mpr ⟨List.forall_mem_append.mpr ⟨ihn, ihs hr⟩, ih⟩
  | choice hy hn _ _ ihy ihn ih =>
      refine List.forall_mem_append.mpr ⟨List.forall_mem_cons.mpr ⟨hy, ?_⟩, ih⟩
      exact List.forall_mem_cons.mpr ⟨hn, List.forall_mem_append.mpr ⟨ihy, ihn⟩⟩
  | link _ hb _ _ _ _ ihb ihn ih =>
      refine List.forall_mem_append.mpr ⟨List.forall_mem_cons.mpr ⟨hb, ?_⟩, ih⟩
      exact List.forall_mem_append.mpr ⟨ihb, by simpa [Code.bodies] using ihn⟩

theorem Compile.Typed.bodyAt (ht : Typed .layout t code 0 0) {name : Bytes}
    (hsize : (toBlock name code).size < operandLimit) {p : Nat}
    (hp : (toBlock name code).BodyStart p) : ∃ q, BodyAt t (toBlock name code) p q := by
  obtain ⟨body, q, ret, hbody, hplaced, hx⟩ := ht.bodyPlaced hsize hp
  rcases hbody with rfl | hbody
  · exact ⟨q, .of_typed ht hplaced hx⟩
  · exact ⟨q, .of_typed (ht.bodies (by decide) body hbody) hplaced hx⟩

end Walking

/-- Passing over code lands where running it would. From wherever the code of a compiled block is
run, passing over it comes behind the exit behind which every run ends that ends, whatever branches
it takes and however deep it nests; its value is null, converted to the type that this exit asks for.
The table is any with the argument slots and the dummy alias at their places, as every interpreter
has them. -/
theorem skip_lands_with_runs {t : Table} (ht : t.Founded .layout) {src name : Bytes}
    (hsrc : src.length < operandLimit) (hsize : (compile t src name).block.size < operandLimit)
    {p : Nat} (hp : (compile t src name).block.BodyStart p) :
    ∃ q ret, (compile t src name).block.words[q]? = some (Word.make .exit ret 0) ∧
      skip (compile t src name).block p = pure (Value.null.force ret, q + 1) ∧
      ∀ room s v e s',
        outcome (run room (compile t src name).block p) s = (.ok (v, e), s') → e = q + 1 := by
  obtain ⟨-, hcode⟩ := program_typed (r := .layout) ⟨ht, absurd rfl⟩ hsrc name
  rw [compile_block] at hsize hp ⊢
  generalize (program t src name).1 = code at hcode hsize hp ⊢
  obtain ⟨q, hbody⟩ := hcode.bodyAt hsize hp
  obtain ⟨ret, hx⟩ := hbody.exit
  exact ⟨q, ret, hx, hbody.skip_eq hx, fun room s v e s' h => hbody.yields_run room s (v, e) s' h⟩

/-- A branch that is run in place. -/
def branchingBlock : Block := (compile Interp.new.table (utf8 "if $arg1 [result 3]") []).block

private theorem bodyStart_branchingBlock : branchingBlock.BodyStart 4 := by
  have hwords : branchingBlock.words = #[Word.make .start .null 0, Word.make .lookupViewArg .null 0,
      Word.make .jumpFalse .null 4, Word.make .enterResult .null 0,
      Word.make .valInline .text 0x33, Word.make .result .null 0, Word.make .exit .null 0,
      Word.make .exit .null 0] := by decide +kernel
  have hword {pc : Nat} {op : Op} {n : UInt32}
      (hw : branchingBlock.words[pc]? = some (Word.make op .null n)) (hlit : op.isLiteral = false) :=
    decode_plain hw (Word.op?_make ..) hlit
  have hbegins : branchingBlock.Begins 3 :=
    .next (.next (.next .first (hword (by rw [hwords]; rfl) rfl)) (hword (by rw [hwords]; rfl) rfl))
      (hword (by rw [hwords]; rfl) rfl)
  exact .entered hbegins (hword (by rw [hwords]; rfl) rfl) (.inr rfl)

theorem skip_lands_with_runs_branch :
    branchingBlock.BodyStart 4 ∧ ∃ q ret, branchingBlock.words[q]? = some (Word.make .exit ret 0) ∧
      skip branchingBlock 4 = pure (Value.null.force ret, q + 1) ∧
      ∀ room s v e s', outcome (run room branchingBlock 4) s = (.ok (v, e), s') → e = q + 1 :=
  ⟨bodyStart_branchingBlock, skip_lands_with_runs (Interp.inv_new .layout).table.founded
    (by decide +kernel) (by decide +kernel) bodyStart_branchingBlock⟩

end ConsoleScript
