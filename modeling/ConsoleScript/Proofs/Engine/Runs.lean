import ConsoleScript.Proofs.Engine.Progress
import ConsoleScript.Proofs.Engine.Shadowing

/-!
Runs are safe. The position only grows, so that a run reaches its exit within the steps that it has;
aliases that it shadows on the way are restored at its end. Code that is passed over ends at the same
exit. By induction on the depth to which code may nest, the runner of the interpreter is safe.
-/

namespace ConsoleScript

open Bytecode Engine

variable {r : Rigour} {t : Table} {b : Block}

section Growth

variable {k : Runner} {α : Type}

private theorem steady_pushAlias (i : Nat) : Steady (pushAlias i) := by
  refine (steady_identAt i).bind fun id => ?_
  split
  · exact (steady_modifyIdent i _).bind fun _ => steady_modifyIdent i _
  · exact .pure _

theorem steady_endLocals (l : List Nat) : Steady (endLocals l) := by
  refine .each l fun i => (steady_identAt i).bind fun id => ?_
  split
  · exact steady_popArg i
  · exact .pure _

private theorem steady_shadow (n : Nat) (a : Activation) : Steady (shadow n a) := by
  unfold shadow Activation.window
  split
  · exact (Steady.each _ steady_pushAlias).bind fun _ => .pure _
  · exact .stop _

private theorem steady_step (hk : RunsSafely r k) (b : Block) (a : Activation) :
    Steady (step k b a) := by
  by_cases hs : ∃ word, b.words[a.pc]? = some word ∧ Word.op? word = some .local
  · obtain ⟨word, hw, ho⟩ := hs
    rw [World.step_perform hw ho (by decide)]
    exact (steady_shadow _ _).bind fun _ => .pure _
  · intro s
    exact (World.safe_step (w := ⟨s, False, nofun⟩) (h := 0) (e := 0) hk nofun nofun
      fun word hw ho => absurd ⟨word, hw, ho⟩ hs).1

private theorem steady_runFrom (hk : RunsSafely r k) (b : Block) (left : Nat) (a : Activation) :
    Steady (runFrom k b left a) := by
  induction left generalizing a with
  | zero => exact (steady_endLocals _).bind fun _ => .stop _
  | succ left ih =>
      intro s
      have hstep := steady_step hk b a s
      rw [runFrom, outcome_bind_ok (outcome_attempt _ _)]
      generalize outcome (step k b a) s = p at hstep
      obtain ⟨e | a' | ⟨v, pc⟩, s'⟩ := p
      · exact .stopping hstep.grows (steady_endLocals _ s')
      · exact hstep.trans (ih a' s')
      · exact hstep.trans (((steady_endLocals _).bind fun _ => .pure _) s')

end Growth

/-- The aliases that a run shadows are known, and have as many values saved as are owed for them. -/
structure Shadowed (r : Rigour) (owed : Nat → Nat) (l : List Nat) (s : Interp) : Prop where
  known : ∀ i ∈ l, i < s.table.size
  counts : ∀ j, owed j = s.table.shadows r l j
  saved : ∀ j, owed j ≤ s.table.depth j

theorem Shadowed.later {owed : Nat → Nat} {l : List Nat} {s s' : Interp}
    (h : Shadowed r owed l s) (hk : Settles r s s') : Shadowed r owed l s' where
  known i hi := hk.forms.lt_size (h.known i hi)
  counts j := by rw [hk.forms.shadows_eq h.known, h.counts]
  saved j := by
    have hd : s'.table.depth j = s.table.depth j + _ := hk.depth j
    have := h.saved j
    omega

theorem Shadowed.slot {owed : Nat → Nat} {l : List Nat} {s : Interp} (h : Shadowed r owed l s)
    {j : Nat} (hj : j < maxArgs) : owed j = 0 := by
  rw [h.counts, Table.shadows_slot hj]

theorem Rebinds.framed {owed : Nat → Nat} {s s' : Interp} (h : Rebinds r s s')
    (hd : s'.table.Adds owed s.table) (hslot : ∀ j < maxArgs, owed j = 0) : Framed owed s s' := by
  refine .of_same h.scopes h.outermost (fun j => (hd.depth j).symm) h.callArgs h.muted
    (.of_same h.scopes h.outermost h.outerRuns fun j hj => ?_) (fun j _ => .of_drop (hd.bindings j))
    (.of_same h.writes h.written fun j _ hp => ⟨(h.plain j).mpr hp, hd.bindings j⟩)
  rw [hd.bindings, hslot j hj]
  rfl

/-- What is owed before a change that saves values of aliases. -/
theorem Framed.behind {n x : Nat → Nat} {s s₁ s' : Interp} (h : Framed (fun j => n j + x j) s₁ s')
    (hb : Rebinds r s s₁) (hd : s.table.Adds n s₁.table) (hslot : ∀ j < maxArgs, n j = 0) :
    Framed x s s' := by
  have hset := Interp.setUsed_congr hb.scopes hb.outermost s'.used
  have hbound := Interp.isBound_congr hb.scopes hb.outermost
  refine ⟨h.scopes.trans hset.1, h.outermost.trans hset.2, fun j hj => h.keeps j ((hbound j).trans hj),
    fun j hj => hbound j ▸ h.slots j hj, fun j => ?_, h.callArgs.trans hb.callArgs,
    h.muted.trans hb.muted,
    (Spares.of_same hb.scopes hb.outermost hb.outerRuns fun j hj => ?_).trans h.spares,
    fun j hj => (h.aliases j hj).behind (hd.bindings j), h.heeds.behind hb.writes hb.written
      (fun j => (hb.plain j).mpr) hd.bindings⟩
  · have h₁ := h.depth j
    have h₀ := hd.depth j
    rw [hbound] at h₁
    omega
  · rw [hd.bindings, hslot j hj]
    rfl

namespace World

variable {α : Type} {w : World r} {k : Runner} {a : Activation} {h m e : Nat} {l : List Nat}
  {owed : Nat → Nat} {Q : Interp → α → Prop}

/-- At the end of a run the aliases are restored, and nothing more happens. -/
theorem sees_endLocals (hl : w.live → Shadowed r owed l w.state) {p : Engine α}
    (hp : ∀ s, (outcome p s).2 = s)
    (hQ : w.live → ∀ s', w.state.table.Extends r s'.table → Ends r Q (outcome p s')) :
    w.Sees owed Q (outcome (do endLocals l; p) w.state) := by
  have hgrow : Steady (do endLocals l; p) :=
    (steady_endLocals l).bind fun _ s => ⟨(hp s).symm ▸ .refl s, fun _ _ => by rw [hp s]⟩
  refine ⟨hgrow w.state, fun hlive hw => ?_⟩
  have hs := hl hlive
  have hinv := w.inv hlive
  obtain ⟨s', h', hb, hd⟩ := outcome_endLocals hinv.table hs.known
    fun j => hs.counts j ▸ hs.saved j
  have hd := hd.of_eq fun j => (hs.counts j).symm
  rw [outcome_bind_ok h'] at hw ⊢
  have hinside : Inv r s' := by
    refine ⟨hb.ready, fun j hj => ?_, hb.outermost.trans hinv.outermost⟩
    have := hinv.backed j hj
    have := hd.depth j
    have := hs.slot hj
    rw [hb.scopes]
    omega
  refine ⟨?_, hQ hlive s' hb.forms⟩
  rw [hp]
  exact ⟨hb.framed hd fun j => hs.slot, hinside, hb.forms, fun _ _ _ hn => .inl (hb.written ▸ hn)⟩

/-- The aliases that an instruction shadows. -/
def shadowedBy (n : Nat) (a : Activation) : List Nat :=
  (a.stack.take n).reverse.map fun v => v.ident?.getD dummyIndex

theorem shadow_enough {n : Nat} (hn : n ≤ a.stack.length) : shadow n a = do
    (shadowedBy n a).forM pushAlias
    return { a.drop n with locals := (shadowedBy n a).reverse ++ a.locals } := by
  unfold shadow Activation.window
  rw [if_pos hn]
  rfl

theorem shadowedBy_known {n : Nat} (ha : a.Ok r t h) (ht : t.Ready r) :
    ∀ i ∈ shadowedBy n a, i < t.size := by
  intro i hi
  obtain ⟨v, hv, rfl⟩ := List.mem_map.mp hi
  have hok := ha.stack v (List.mem_of_mem_take (List.mem_reverse.mp hv))
  cases v with
  | ident i => exact hok
  | _ => exact ht.dummy_lt

/-- A step that shadows aliases saves a value for each, and owes it. -/
theorem runFrom_shadow {s : Interp} {word : UInt32} (hr : s.table.Ready r)
    (hlocals : Shadowed r owed a.locals s) (ha : a.Ok r s.table h)
    (hw : b.words[a.pc]? = some word) (ho : Word.op? word = some .local)
    (hn : (Word.arg word).toNat ≤ a.stack.length) (hm : r.Moves (Word.arg word).toNat 0 h m)
    (left : Nat) : ∃ s₁ a₁,
      outcome (runFrom k b (left + 1) a) s = outcome (runFrom k b left a₁) s₁ ∧
      Rebinds r s s₁ ∧
      s.table.Adds (s.table.shadows r (shadowedBy (Word.arg word).toNat a)) s₁.table ∧
      Shadowed r (fun j => s.table.shadows r (shadowedBy (Word.arg word).toNat a) j + owed j)
        a₁.locals s₁ ∧
      a₁.Ok r s₁.table m ∧ a₁.pc = a.pc + 1 := by
  generalize hids : shadowedBy (Word.arg word).toNat a = ids
  have hknown : ∀ i ∈ ids, i < s.table.size := hids ▸ shadowedBy_known ha hr
  obtain ⟨s₁, h₁, hb₁, hd₁⟩ := outcome_pushAliases hr hknown
  have hall : ∀ i ∈ ids.reverse ++ a.locals, i < s.table.size := fun i hi =>
    (List.mem_append.mp hi).elim (fun hi => hknown i (List.mem_reverse.mp hi)) (hlocals.known i)
  have hcount (j : Nat) : s.table.shadows r ids j + owed j =
      s.table.shadows r (ids.reverse ++ a.locals) j := by
    rw [Table.shadows_append, Table.shadows_reverse, hlocals.counts]
  refine ⟨s₁, { a.drop (Word.arg word).toNat with pc := a.pc + 1, locals := ids.reverse ++ a.locals },
    ?_, hb₁, hd₁, ⟨fun i hi => ?_, fun j => ?_, fun j => ?_⟩, ?_, rfl⟩
  · have hstep : outcome (step k b a) s = (.ok (.go { a.drop (Word.arg word).toNat with
        pc := a.pc + 1, locals := ids.reverse ++ a.locals }), s₁) := by
      have hshadow := shadow_enough (a := { a with pc := a.pc + 1 }) hn
      have hids' : shadowedBy (Word.arg word).toNat { a with pc := a.pc + 1 } = ids := hids
      rw [hids'] at hshadow
      rw [step_perform hw ho (by decide)]
      simp only [perform]
      rw [hshadow, bind_assoc, outcome_bind_ok h₁]
      rfl
    rw [runFrom, outcome_bind_ok (outcome_attempt _ _), hstep]
  · exact hb₁.forms.lt_size (hall i hi)
  · rw [hcount, hb₁.forms.shadows_eq hall]
  · have := hlocals.saved j
    rw [hd₁.depth]
    omega
  · have hdrop := (ha.drop fun hr => (hm.spec hr).2.1).mono hb₁.forms
    exact ⟨hdrop.height, hdrop.stack, hdrop.result⟩

/-- A run of code that can be run is safe, and takes back what it owes for the aliases that it
shadows. The induction is on the steps that are left, which suffice to reach the end of the block. -/
theorem sees_runFrom (hk : RunsSafely r k) (left : Nat)
    (ha : w.live → a.Ok r w.state.table h) (hr : w.live → Runnable r w.state.table b a.pc h e)
    (hlocals : w.live → Shadowed r owed a.locals w.state)
    (hleft : w.live → b.size < a.pc + left) :
    w.Sees owed (fun s p => p.1.Ok r s.table ∧ p.2 = e)
      (outcome (runFrom k b left a) w.state) := by
  induction left generalizing w a h owed with
  | zero =>
      refine ⟨steady_runFrom hk b 0 a w.state, fun hl => ?_⟩
      have := (hr hl).bounds
      have := hleft hl
      omega
  | succ left ih =>
      by_cases hs : ∀ word, b.words[a.pc]? = some word → Word.op? word = some .local →
        a.stack.length < (Word.arg word).toNat
      · have hstep := (safe_step hk ha hr hs).2
        have hrun := steady_runFrom hk b (left + 1) a w.state
        rw [runFrom, outcome_bind_ok (outcome_attempt _ _)] at hrun ⊢
        generalize outcome (step k b a) w.state = p at hstep hrun
        obtain ⟨next, s'⟩ := p
        refine .settle (fun hl hw => (hstep hl hw).1) hrun ?_
        have hlater (hl : w.live ∧ Within r s') : Shadowed r owed a.locals s' :=
          (hlocals hl.1).later (hstep hl.1 hl.2).1
        rcases next with stop | a' | ⟨v, pc⟩
        · exact sees_endLocals hlater (fun _ => rfl) fun hl _ _ => (hstep hl.1 hl.2).2
        · obtain ⟨h', hh'⟩ := exists_of_live (w := w.after s' _) fun hl =>
            (hstep hl.1 hl.2).2.2.2
          have hpc (hl : w.live ∧ Within r s') : a'.locals = a.locals ∧ a.pc + 1 ≤ a'.pc :=
            ⟨(hstep hl.1 hl.2).2.1, (hstep hl.1 hl.2).2.2.1⟩
          refine ih (fun hl => (hh' hl).1) (fun hl => (hh' hl).2) (fun hl => ?_) fun hl => ?_
          · rw [(hpc hl).1]
            exact hlater hl
          · have := (hpc hl).2
            have := hleft hl.1
            omega
        · refine sees_endLocals hlater (fun _ => rfl) fun hl s'' hx => ?_
          obtain ⟨hv, he⟩ := (hstep hl.1 hl.2).2
          exact ⟨hv.mono hx, he⟩
      · refine ⟨steady_runFrom hk b _ a w.state, fun hl => ?_⟩
        obtain ⟨word, hw, ho, hn⟩ : ∃ word, b.words[a.pc]? = some word ∧
            Word.op? word = some .local ∧ (Word.arg word).toNat ≤ a.stack.length := by
          simpa only [Classical.not_forall, Nat.not_lt, exists_prop] using hs
        obtain ⟨m, hm, hrest⟩ := (hr hl).after hw ho
        have hinv := w.inv hl
        obtain ⟨s₁, a₁, hrun, hb₁, hd₁, hlocals₁, ha₁, hpc₁⟩ :=
          runFrom_shadow (k := k) hinv.table (hlocals hl) (ha hl) hw ho hn hm left
        have hinside : Inv r s₁ := by
          refine ⟨hb₁.ready, fun j hj => ?_, hb₁.outermost.trans hinv.outermost⟩
          have := hinv.backed j hj
          rw [hb₁.scopes, hd₁.depth]
          omega
        intro hw
        rw [hrun] at hw ⊢
        obtain ⟨hkeep, hend⟩ := (ih (w := ⟨s₁, True, fun _ => hinside⟩) (fun _ => ha₁)
          (fun _ => hpc₁ ▸ hrest.mono hb₁.forms) (fun _ => hlocals₁) fun _ => by
            have := hleft hl
            omega).2 trivial hw
        exact ⟨⟨hkeep.toFramed.behind hb₁ hd₁ fun j => Table.shadows_slot, hkeep.inv,
          hb₁.forms.trans hkeep.forms, fun n j f hn => hb₁.written ▸ hkeep.targets n j f hn⟩, hend⟩

end World

section Skipping

variable {start left depth pc h e : Nat}

/-- The instructions behind which code is passed over as it stands. -/
def Bytecode.Op.isForward (op : Op) : Bool :=
  !(op = .block || op.isJump || op = .enter || op = .enterResult || op = .exit)

theorem Bytecode.Op.isForward_of_isPlain {op : Op} (h : op.isPlain = true) : op.isForward = true := by
  cases op <;> first | rfl | cases h

theorem Bytecode.Op.isLiteral_of_isPlain {op : Op} (h : op.isPlain = true) :
    op.isLiteral = false := by
  cases op <;> first | rfl | cases h

theorem skipFrom_decode {i : Instr} (hd : decode b.words pc = .ok i) (hpc : pc < b.size) :
    skipFrom b start (left + 1) depth pc =
      if i.op = .block || i.op.isJump then skipFrom b start left depth (pc + i.size + i.arg.toNat)
      else if i.op = .enter || i.op = .enterResult then
        skipFrom b start left (depth + 1) (pc + i.size)
      else if i.op = .exit then
        match depth with
        | 0 => return (Value.null.force i.ret, pc + i.size)
        | depth + 1 => skipFrom b start left depth (pc + i.size)
      else skipFrom b start left depth (pc + i.size) := by
  rw [skipFrom, if_neg (Nat.not_le.mpr hpc)]
  cases depth <;> simp only [hd]

private theorem steady_skipFrom (b : Block) (start left depth pc : Nat) :
    Steady (skipFrom b start left depth pc) := by
  fun_induction skipFrom b start left depth pc <;> first
    | exact .stop _
    | exact .pure _
    | assumption

theorem skipFrom_forward {i : Instr} (hd : decode b.words pc = .ok i) (hpc : pc < b.size)
    (hop : i.op.isForward = true) :
    skipFrom b start (left + 1) depth pc = skipFrom b start left depth (pc + i.size) := by
  rw [skipFrom_decode hd hpc]
  simp only [Op.isForward, Bool.not_eq_true', Bool.or_eq_false_iff] at hop
  obtain ⟨⟨⟨⟨hblock, hjump⟩, henter⟩, hresult⟩, hexit⟩ := hop
  simp_all

/-- Passing over code from a position ends at an exit, one level further out. -/
def SkipsTo (b : Block) (start pc e : Nat) : Prop :=
  ∀ left, b.size < pc + left → ∃ ret left', b.size < e + left' ∧
    ∀ depth, skipFrom b start left depth pc = match depth with
      | 0 => return (Value.null.force ret, e)
      | depth + 1 => skipFrom b start left' depth e

theorem SkipsTo.behind {pc' : Nat} (h : SkipsTo b start pc' e) (hpc : pc < b.size)
    (hlt : pc < pc') (hstep : ∀ left depth,
      skipFrom b start (left + 1) depth pc = skipFrom b start left depth pc') :
    SkipsTo b start pc e := by
  intro left hleft
  obtain ⟨left, rfl⟩ : ∃ n, left = n + 1 := ⟨left - 1, by omega⟩
  obtain ⟨ret, left', hleft', hskip⟩ := h left (by omega)
  exact ⟨ret, left', hleft', fun depth => (hstep left depth).trans (hskip depth)⟩

theorem SkipsTo.enter {q : Nat} (hb : SkipsTo b start (pc + 1) q) (h : SkipsTo b start q e)
    (hpc : pc < b.size) (hstep : ∀ left depth,
      skipFrom b start (left + 1) depth pc = skipFrom b start left (depth + 1) (pc + 1)) :
    SkipsTo b start pc e := by
  intro left hleft
  obtain ⟨left, rfl⟩ : ∃ n, left = n + 1 := ⟨left - 1, by omega⟩
  obtain ⟨_, left₁, hleft₁, hskip₁⟩ := hb left (by omega)
  obtain ⟨ret, left₂, hleft₂, hskip₂⟩ := h left₁ hleft₁
  refine ⟨ret, left₂, hleft₂, fun depth => ?_⟩
  rw [hstep, hskip₁]
  exact hskip₂ depth

/-- Code that can be run is passed over up to its exit. -/
theorem Runnable.skipsTo (h0 : Runnable r t b pc h e) (start : Nat) : SkipsTo b start pc e := by
  have hword {pc e : Nat} {word : UInt32} {op : Op} (hw : b.words[pc]? = some word)
      (ho : Word.op? word = some op) (hop : op.isForward = true) (hlit : op.isLiteral = false)
      (h : SkipsTo b start (pc + 1) e) : SkipsTo b start pc e :=
    h.behind (Block.lt_size hw) (Nat.lt_succ_self pc) fun _ _ =>
      skipFrom_forward (decode_plain hw ho hlit) (Block.lt_size hw) hop
  have hjump {pc e : Nat} {word : UInt32} {op : Op} (hw : b.words[pc]? = some word)
      (ho : Word.op? word = some op) (hop : (op = .block || op.isJump) = true)
      (h : SkipsTo b start (pc + 1 + (Word.arg word).toNat) e) : SkipsTo b start pc e := by
    have hlit : op.isLiteral = false := by
      cases op <;> first | rfl | cases hop
    refine h.behind (Block.lt_size hw) (by omega) fun _ _ => ?_
    rw [skipFrom_decode (decode_plain hw ho hlit) (Block.lt_size hw)]
    exact if_pos hop
  induction h0 with
  | @exit w pc h hw ho =>
      intro left hleft
      have hpc := Block.lt_size hw
      obtain ⟨left, rfl⟩ : ∃ n, left = n + 1 := ⟨left - 1, by omega⟩
      refine ⟨Word.ret w, left, by omega, fun depth => ?_⟩
      rw [skipFrom_decode (decode_plain hw ho rfl) hpc]
      rfl
  | plain hw ho hi _ _ ih =>
      rcases hi.isPlain with hop | ⟨hop, hn, -⟩
      · exact hword hw ho (Op.isForward_of_isPlain hop) (Op.isLiteral_of_isPlain hop) ih
      · refine hjump hw ho (by rcases hop with rfl | rfl <;> rfl) ?_
        rw [hn]
        exact ih
  | call hw ho hi _ _ ih => exact hword hw ho (by cases hi <;> rfl) (by cases hi <;> rfl) ih
  | shadow hw ho _ _ ih => exact hword hw ho rfl rfl ih
  | literal hl _ _ ih =>
      obtain ⟨word, i, hw, ho, hlit, hd, hsize⟩ := hl
      have hop : i.op.isForward = true := by
        cases hop : i.op <;> rw [hop] at hlit <;> first | rfl | cases hlit
      refine ih.behind (Block.lt_size hw) (by omega) fun _ _ => ?_
      rw [skipFrom_forward hd (Block.lt_size hw) hop, hsize]
  | block hw ho _ _ _ _ ih => exact hjump hw ho rfl ih
  | enter hw ho _ _ _ ihb ih =>
      refine ihb.enter ih (Block.lt_size hw) fun _ _ => ?_
      rw [skipFrom_decode (decode_plain hw ho rfl) (Block.lt_size hw)]
      rfl
  | enterResult hw ho _ _ ihb ih =>
      refine ihb.enter ih (Block.lt_size hw) fun _ _ => ?_
      rw [skipFrom_decode (decode_plain hw ho rfl) (Block.lt_size hw)]
      rfl
  | jump hw ho _ ih => exact hjump hw ho rfl ih
  | @branch _ op _ _ _ _ hw ho hc _ _ _ _ ih =>
      refine hjump hw ho ?_ ih
      cases op <;> first | rfl | cases hc

end Skipping

namespace World

variable {w : World r}

private theorem safe_skip {pc h e : Nat} (hr : w.live → Runnable r w.state.table b pc h e) :
    w.Safe (skip b pc) fun s p => p.1.Ok r s.table ∧ p.2 = e := by
  refine ⟨steady_skipFrom _ _ _ _ _ w.state, fun hl => ?_⟩
  obtain ⟨ret, _, -, hskip⟩ := (hr hl).skipsTo pc (b.size + 1)
    (Nat.lt_of_lt_of_le (Nat.lt_succ_self _) (Nat.le_add_left _ _))
  rw [skip, hskip]
  exact fun _ => ⟨.refl (w.inv hl), (Value.ok_null _ _).force ret, rfl⟩

end World

/-- The runner of an interpreter is safe, to whatever depth code nests. -/
theorem runsSafely_run (r : Rigour) (room : Nat) : RunsSafely r (run room) := by
  induction room with
  | zero =>
      intro w b pc e hr
      refine (w.safe_debug _).bind fun w' _ hw _ => ?_
      exact World.safe_skip fun hl => (hr (hw hl).1).mono (hw.forms hl)
  | succ room ih =>
      intro w b pc e hr
      refine .atLevel (fun _ => rfl) (fun w' hw ht => ?_) fun _ _ _ h => h
      refine World.sees_runFrom ih (b.size + 1) (h := 0) (fun _ => ⟨fun _ => rfl, nofun, trivial⟩)
        (fun hl => ht ▸ hr (hw hl).1) (fun _ => ⟨nofun, fun j => ?_, fun _ => Nat.zero_le _⟩)
        fun _ => ?_
      · rw [Table.shadows_nil]
      · exact Nat.lt_of_lt_of_le (Nat.lt_succ_self _) (Nat.le_add_left _ _)

end ConsoleScript
