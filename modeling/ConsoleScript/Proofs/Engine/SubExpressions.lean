import ConsoleScript.Proofs.Bytecode.Literals
import ConsoleScript.Proofs.Engine.SideBySide

/-!
Statements in parentheses as an argument. While few operands are pending they are run in place, with
the result so far and the operands below them, and the result is moved to the stack; behind many
operands they are run by themselves. Run in place they give what they would give by themselves, except
that they begin with the result so far instead of null.
-/

namespace ConsoleScript

open Bytecode Compile Engine

namespace Compile

/-- A piece that sets the result, whichever way a run takes through it, without reading it before. -/
def Piece.settles : Piece → Bool
  | .instr i => i.op.setsResult && i.op ≠ .resultArg
  | .whenFalse _ | .choice .. | .link .. => true
  | _ => false

/-- Code that sets the result before it reads it. -/
def Code.settles : Code → Bool
  | [] => false
  | p :: rest => p.settles || (.resultArg : Op) ∉ p.ops && Code.settles rest

end Compile

/-- A computation does not miss operands or room for them. -/
def Engine.HasRoom {α : Type} (m : Engine α) (s : Interp) : Prop :=
  ∀ e, (outcome m s).1 = .error e → ¬e.IsMiss

variable {k : Runner} {b : Block} {a : Activation} {t : Table} {code : Code} {h h' pc e n : Nat}

section Settling

theorem Placed.eq {pc e : Nat} (hp : Placed b [] pc e) : pc = e := by
  cases hp
  rfl

theorem Placed.uncons {p : Piece} (hp : Placed b (p :: code) pc e) :
    ∃ q, Placed b [p] pc q ∧ Placed b code q e := by
  cases hp with
  | instr hw hr => exact ⟨_, .instr hw .nil, hr⟩
  | block hw hn ho hb hx hr => exact ⟨_, .block hw hn ho hb hx .nil, hr⟩
  | spill hw hb hx hr => exact ⟨_, .spill hw hb hx .nil, hr⟩
  | shadow hn hs hw hr => exact ⟨_, .shadow hn hs hw .nil, hr⟩
  | whenTrue hw hn he hb hx hr => exact ⟨_, .whenTrue hw hn he hb hx .nil, hr⟩
  | whenFalse h0 hw hn he hb hx hr => exact ⟨_, .whenFalse h0 hw hn he hb hx .nil, hr⟩
  | choice hw hn he hy hx hj hn' he' hb hx' hr =>
      exact ⟨_, .choice hw hn he hy hx hj hn' he' hb hx' .nil, hr⟩
  | link hw hn he hb hx hl hr => exact ⟨_, .link hw hn he hb hx hl .nil, hr⟩

/-- Where only the layout counts, pieces are typed one by one. -/
theorem Compile.Typed.uncons {p : Piece} (ht : Typed .layout t (p :: code) h h') :
    Typed .layout t [p] h h' ∧ Typed .layout t code h h' := by
  have hnil {m : Nat} : Typed .layout t [] 0 m := .nil (.inl rfl)
  have hm {a b c d : Nat} : Rigour.layout.Moves a b c d := .inl rfl
  cases ht with
  | plain hi _ hr => exact ⟨.plain hi hm hnil, hr.heights rfl _ _⟩
  | call hi _ hr => exact ⟨.call hi hm hnil, hr.heights rfl _ _⟩
  | literal hi _ hr => exact ⟨.literal hi hm hnil, hr.heights rfl _ _⟩
  | block hb _ hr => exact ⟨.block hb hm hnil, hr.heights rfl _ _⟩
  | spill hb _ hr => exact ⟨.spill hb hm hnil, hr.heights rfl _ _⟩
  | shadow hk hn hs _ hr => exact ⟨.shadow hk (hn.heights rfl h 0) (fun hr => (hs hr).heights rfl 0 0) hm hnil, hr.heights rfl _ _⟩
  | whenTrue hb _ hr => exact ⟨.whenTrue hb hm hnil, hr.heights rfl _ _⟩
  | whenFalse hb _ _ hr => exact ⟨.whenFalse hb hm hm hnil, hr.heights rfl _ _⟩
  | choice hy hn _ hr => exact ⟨.choice hy hn hm hnil, hr.heights rfl _ _⟩
  | link ho hb _ _ hn hr => exact ⟨.link ho hb hm hm (hn.heights rfl h 0) hnil, hr.heights rfl _ _⟩

/-- Walks from a position match if they are in step, or if the first instruction sets the result. -/
structure Engine.Restarts (k : Runner) (b : Block) (e pc : Nat) : Prop where
  inStep : Matches k b e True True pc
  anew : pc < e → ∀ {w : UInt32} {op : Op}, b.words[pc]? = some w → Word.op? w = some op →
    op.setsResult = true → op ≠ .resultArg → Matches k b e False True pc

theorem carried_restarts (hk : Forward k) (b : Block) (hn : n ≤ e) :
    Carried k b n (· ≠ .local) (Restarts k b e) := by
  intro pc w op hpc hw ho hx hop h
  have hbehind (a : Activation) (ha : a.pc = pc + 1) :
      Yields (perform k b op w a) fun a' => Matches k b e True True a'.pc :=
    (h a ha).mono fun _ hr => hr.inStep
  have hpc := Nat.lt_of_lt_of_le hpc hn
  refine ⟨.step hk hpc hw ho hop (fun _ => trivial) .inl hbehind, ?_⟩
  intro _ w' op' hw' ho' hset hread
  cases hw.symm.trans hw'
  cases ho.symm.trans ho'
  exact .step hk hpc hw ho hop (fun h => absurd h hread) (fun _ => .inr hset) hbehind

/-- A piece settles the result with its first instruction, or on both ways behind it. -/
theorem Placed.settles_piece (hk : Forward k)
    (hbody : ∀ p q, BodyAt t b p q → Yields (k b p) fun r => r.2 = q + 1) {p : Piece} {q : Nat}
    (ht : Typed .layout t [p] h h') (hp : Placed b [p] pc q) (hset : p.settles = true) (hq : q ≤ e)
    (hstart : Restarts k b e pc) (hrest : Restarts k b e q) : Matches k b e False True pc := by
  cases p with
  | instr i =>
      obtain ⟨hset, hread⟩ := Bool.and_eq_true_iff.mp hset
      have hread := of_decide_eq_true hread
      cases ht with
      | plain hi _ _ =>
          obtain ⟨hw, hr⟩ := hp.plain hi
          exact hstart.anew (Nat.lt_of_lt_of_le hr.le hq) hw (Word.op?_make ..) hset hread
      | call hi _ _ =>
          obtain ⟨hw, hr⟩ := hp.call hi
          exact hstart.anew (Nat.lt_of_lt_of_le hr.le hq) hw (Word.op?_make ..) hset hread
      | literal hi _ _ => rcases hi.op with h | h | h <;> rw [h] at hset <;> cases hset
  | whenFalse body =>
      cases hp with
      | whenFalse hnull hw hn he hp hx hr =>
          have hle := hp.le
          have hle' := hr.le
          exact hstart.anew (by omega) hnull (Word.op?_make ..) rfl (by decide)
  | link op body next =>
      cases ht with
      | link ho _ _ _ _ _ =>
          cases hp with
          | link hw hn he hp hx hl hr =>
              have hle := hp.le
              have hle' := hl.le
              have hle'' := hr.le
              refine hstart.anew (by omega) hw (Word.op?_make ..) ?_ ?_ <;>
                rcases ho with rfl | rfl <;> first | rfl | decide
  | choice yes no =>
      cases ht with
      | choice hy hn _ _ =>
          cases hp with
          | choice hw hn₁ he hyes hx hj hn₂ he' hno hx' hr =>
              have hle := hyes.le
              have hle' := hno.le
              have hle'' := hr.le
              have hrestarts := carried_restarts hk b (Nat.le_refl e)
              have henter := hrestarts.enter (by omega) he' (Word.op?_make ..) (.inr rfl) (by decide)
                (hbody _ _ (.of_typed hn hno hx')) (hr.eq ▸ hrest)
              have hjump := hrestarts.jump (by omega) hj (Word.op?_make ..) (by decide)
                (hn₂ ▸ hr.eq ▸ hrest)
              have henter' := hrestarts.enter (by omega) he (Word.op?_make ..) (.inr rfl) (by decide)
                (hbody _ _ (.of_typed hy hyes hx)) hjump
              refine (carried_matches hk b (Nat.le_refl e) False True).branch (by omega) hw
                (Word.op?_make ..) rfl ⟨by decide, nofun⟩
                (henter'.anew (by omega) he (Word.op?_make ..) rfl (by decide)) ?_
              rw [hn₁]
              exact henter.anew (by omega) he' (Word.op?_make ..) rfl (by decide)
  | block | spill | shadow | whenTrue => cases hset

/-- Performed side by side with different results, code that settles the result leaves the same. -/
theorem Placed.settles (hk : Forward k)
    (hbody : ∀ p q, BodyAt t b p q → Yields (k b p) fun r => r.2 = q + 1)
    (ht : Typed .layout t code h h') (hp : Placed b code pc e) (hlocal : .local ∉ Code.ops code)
    (hs : Code.settles code = true) : Matches k b e False True pc := by
  have hrestarts {code : Code} {pc q : Nat} (ht : Typed .layout t code h h')
      (hp : Placed b code pc q) (hq : q ≤ e) (hlocal : .local ∉ Code.ops code)
      (h : Restarts k b e q) : Restarts k b e pc :=
    hp.carries (carried_restarts hk b hq) hbody ht (Nat.le_refl q)
      (fun op hlit => by rintro rfl; cases hlit) (fun op hop h => hlocal (h ▸ hop)) h
  have hend : Restarts k b e e :=
    ⟨.refl k b e True, fun hlt => absurd hlt (Nat.lt_irrefl e)⟩
  induction code generalizing pc with
  | nil => cases hs
  | cons p rest ih =>
      have hstart := hrestarts ht hp (Nat.le_refl e) hlocal hend
      obtain ⟨q, hp, hrest⟩ := hp.uncons
      obtain ⟨ht, htrest⟩ := ht.uncons
      rw [Code.ops, List.mem_append, not_or] at hlocal
      obtain ⟨hlocal, hlocals⟩ := hlocal
      rcases Bool.or_eq_true_iff.mp hs with hset | hneutral
      · exact hp.settles_piece hk hbody ht hset hrest.le hstart
           (hrestarts htrest hrest (Nat.le_refl e) hlocals hend)
      · obtain ⟨hread, hs⟩ := Bool.and_eq_true_iff.mp hneutral
        refine hp.carries (carried_matches hk b hrest.le False True) hbody ht (Nat.le_refl q)
          (fun op hlit => ⟨?_, ?_⟩) (fun op hop => ?_) (ih htrest hrest hlocals hs)
        · rintro rfl
          cases hlit
        · rintro rfl
          cases hlit
        · rw [Code.ops, Code.ops, List.append_nil] at hop
          exact ⟨fun h => hlocal (h ▸ hop), fun h => of_decide_eq_true hread (h ▸ hop)⟩

end Settling

section Performing

variable {s : Interp} {left : Nat} {m m' : Engine Activation}

theorem Placed.matches (hk : Forward k)
    (hbody : ∀ p q, BodyAt t b p q → Yields (k b p) fun r => r.2 = q + 1)
    (ht : Typed .layout t code h h') (hp : Placed b code pc e) (hlocal : .local ∉ Code.ops code) :
    Matches k b e True True pc :=
  hp.carries (carried_matches hk b (Nat.le_refl e) True True) hbody ht (Nat.le_refl e)
    (fun op hlit => ⟨(by rintro rfl; cases hlit), fun _ => trivial⟩)
    (fun op hop => ⟨fun h => hlocal (h ▸ hop), fun _ => trivial⟩) (.refl k b e True)

theorem Engine.Matches.yields (h : Matches k b e True True a.pc) :
    Yields (walk k b e a) fun c => c.pc = e ∧ c.locals = a.locals := by
  have hself : a.Beside [] a.locals a.locals True a :=
    ⟨rfl, (List.append_nil _).symm, rfl, rfl, fun _ => rfl⟩
  exact ((h.agree rfl hself).mono fun _ _ hc => ⟨hc.1, hc.2.shadowed⟩).yields

theorem Placed.runFrom_walk (hk : Forward k)
    (hbody : ∀ p q, BodyAt t b p q → Yields (k b p) fun r => r.2 = q + 1)
    (ht : Typed .layout t code h h') (hp : Placed b code a.pc e) (hlocal : .local ∉ Code.ops code)
    (hleft : b.size < a.pc + left) :
    runFrom k b left a = goOn k b left a.locals (walk k b e a) := by
  refine hp.carries (carried_runs hk b (Nat.le_refl e)) hbody ht (Nat.le_refl e)
    (fun op hlit => by rintro rfl; cases hlit) (fun op hop h => hlocal (h ▸ hop)) ?_ a rfl left hleft
  intro c hc left _
  rw [walk_end k b (Nat.le_of_eq hc.symm), goOn_pure]

/-- Going on from computations that end alike. -/
theorem goOn_alike {R : Activation → Activation → Prop} {below : List Value} {locals : List Nat}
    {f : Activation → Engine Activation} (h : Alike below R (outcome m s) (outcome m' s))
    (hroom : below ≠ [] → m.HasRoom s ∧ m'.HasRoom s)
    (hf : ∀ c c' s, R c c' → outcome (runFrom k b left c') s =
      outcome (goOn k b left locals (f c)) s) :
    outcome (goOn k b left locals m') s = outcome (goOn k b left locals (m >>= f)) s := by
  rw [goOn, goOn, outcome_bind_ok (outcome_attempt _ _), outcome_bind_ok (outcome_attempt _ _),
    outcome_bind]
  generalize hp : outcome m s = p at h
  generalize hp' : outcome m' s = p' at h
  cases h with
  | ok hR s' =>
      refine (hf _ _ s' hR).trans ?_
      rw [goOn, outcome_bind_ok (outcome_attempt _ _)]
  | error e s' => rfl
  | missed hb he s' => exact absurd he ((hroom hb).1 _ (congrArg Prod.fst hp))
  | missed' hb he _ s' => exact absurd he ((hroom hb).2 _ (congrArg Prod.fst hp'))

/-- Code in front of an exit, run by itself one level deeper. -/
theorem run_alone {p : Nat} {ret : RetTag} {room : Nat} (hf : Fits .layout t b)
    (ht : Typed .layout t code 0 0) (hlocal : .local ∉ Code.ops code)
    (hw : b.Holds p (Code.words p code))
    (hx : b.words[p + (Code.words p code).length]? = some (Word.make .exit ret 0)) :
    run (room + 1) b p = (do
      let c ← deeper (performCode (run room) b code { pc := p })
      return (c.result.force ret, p + (Code.words p code).length + 1)) := by
  have hk := forward_run room
  have hbody (p q : Nat) (h : BodyAt t b p q) := h.yields_run room
  have hp := Code.placed hf.block code hw
  have hends := (hp.matches (k := run room) hk hbody ht hlocal).yields (a := { pc := p })
  rw [run, deeper, deeper, ← atLevel_map,
    hp.runFrom_walk (a := { pc := p }) hk hbody ht hlocal (by dsimp only; omega),
    walk_code (a := { pc := p }) hw]
  rw [walk_code (a := { pc := p }) hw] at hends
  refine congrArg (atLevel .inner .outer) (Engine.ext fun s => ?_)
  rw [goOn, outcome_bind_ok (outcome_attempt _ _), outcome_bind]
  cases ho : outcome (performCode (run room) b code { pc := p }) s with
  | mk o s' =>
      rcases o with stop | c
      · rfl
      · obtain ⟨hc, hlocals⟩ := hends s c s' ho
        have hexit := runFrom_exit (k := run room) (a := c) (hc ▸ hx) hlocals b.size
        rw [hc] at hexit
        exact congrArg (outcome · s') hexit

/-- Code in front of the move of its result to the stack, run in place. -/
theorem runFrom_inPlace {ret : RetTag} {room : Nat} (hf : Fits .layout t b)
    (ht : Typed .layout t code h h') (hlocal : .local ∉ Code.ops code)
    (hw : b.Holds a.pc (Code.words a.pc code))
    (hx : b.words[a.pc + (Code.words a.pc code).length]? = some (Word.make .resultArg ret 0))
    (hleft : b.size < a.pc + left)
    (hroom : a.stack ≠ [] →
      (performCode (run room) b code { pc := a.pc, result := a.result }).HasRoom s ∧
        (performCode (run room) b code a).HasRoom s) :
    outcome (runFrom (run room) b left a) s =
      outcome (goOn (run room) b left a.locals (do
        let c ← performCode (run room) b code { pc := a.pc, result := a.result }
        Activation.push (c.result.force ret) { a with
          pc := a.pc + (Code.words a.pc code).length + 1
          stack := c.stack ++ a.stack
          result := .null })) s := by
  have hk := forward_run room
  have hbody (p q : Nat) (h : BodyAt t b p q) := h.yields_run room
  have hp := Code.placed hf.block code hw
  have hbeside : Activation.Beside a.stack [] a.locals True { pc := a.pc, result := a.result } a :=
    ⟨rfl, rfl, rfl, rfl, fun _ => rfl⟩
  have hagree := (hp.matches hk hbody ht hlocal).agree
    (a := { pc := a.pc, result := a.result }) rfl hbeside s
  rw [hp.runFrom_walk hk hbody ht hlocal hleft]
  rw [walk_code (a := { pc := a.pc, result := a.result }) hw, walk_code hw] at hagree
  rw [walk_code hw]
  refine goOn_alike hagree hroom ?_
  rintro c c' s' ⟨hpc, hc⟩
  have hc' : c' = { a with
      pc := a.pc + (Code.words a.pc code).length
      stack := c.stack ++ a.stack
      result := c.result } := by
    obtain ⟨p', stack', result', locals'⟩ := c'
    obtain ⟨hpc', hstack, -, hlocals, hresult⟩ := hc
    exact Activation.mk.injEq .. |>.mpr ⟨hpc'.trans hpc, hstack, hresult trivial, hlocals⟩
  rw [hc', runFrom_perform hk hx (Word.op?_make ..) (by decide) (by dsimp only; omega)]
  simp only [perform, Word.ret_make]
  rfl

/-- Code that runs by itself, between its header and its exit. -/
theorem runFrom_byItself {ret : RetTag} {room : Nat} (hf : Fits .layout t b)
    (ht : Typed .layout t code 0 0) (hlocal : .local ∉ Code.ops code)
    (hw : b.Holds a.pc (Code.words a.pc [.spill code ret])) (hleft : b.size < a.pc + left) :
    runFrom (run (room + 1)) b left a = goOn (run (room + 1)) b left a.locals (do
      let c ← deeper (performCode (run room) b code { pc := a.pc + 1 })
      Activation.push (c.result.force ret) { a with
        pc := a.pc + (Code.words a.pc [.spill code ret]).length }) := by
  have hlength : a.pc + 1 + (Code.words (a.pc + 1) code).length + 1 =
      a.pc + (Code.words a.pc [.spill code ret]).length := by
    simp only [Code.words, Piece.words, List.append_nil, List.length_append, List.length_cons,
      List.length_nil]
    omega
  simp only [Code.words, Piece.words, List.append_nil, List.cons_append, Block.holds_cons,
    Block.holds_append] at hw
  obtain ⟨henter, hcode, hexit, -⟩ := hw
  rw [runFrom_perform (forward_run (room + 1)) henter (Word.op?_make ..) (by decide) hleft]
  simp only [perform]
  rw [run_alone hf ht hlocal hcode hexit, bind_assoc, hlength]
  rfl

theorem Compile.Typed.result_performCode {p room : Nat} (hf : Fits .layout t b)
    (ht : Typed .layout t code h h') (hlocal : .local ∉ Code.ops code)
    (hw : b.Holds p (Code.words p code)) (hs : Code.settles code = true) (v : Value) :
    (do return (← performCode (run room) b code { pc := p, result := v }).result : Engine Value) = do
      return (← performCode (run room) b code { pc := p }).result := by
  have hp := Code.placed hf.block code hw
  have hmatch := hp.settles (forward_run room) (fun _ _ h => h.yields_run room) ht hlocal hs
  have hbeside : Activation.Beside [] [] [] False { pc := p, result := v } { pc := p } :=
    ⟨rfl, rfl, rfl, rfl, False.elim⟩
  have hagree := hmatch.agree (a := { pc := p, result := v }) rfl hbeside
  rw [walk_code (a := { pc := p, result := v }) hw, walk_code (a := { pc := p }) hw] at hagree
  exact (hagree.bind fun c c' hc => .pure (hc.2.result trivial).symm).eq

end Performing

section Groups

variable {st : State}

/-- What statements in parentheses push. In place they are performed with the result so far, with
the operands below them left alone, and their result is pushed; behind many operands they are
performed one level deeper with null as the result so far, on a stack of their own. Otherwise both push
the same: the
result of the statements, converted to the type of the same tag. The difference counts only for
statements that do not settle the result. -/
theorem group_pushes_result (hs : st.table.Founded .layout)
    (hshort : st.cursor.rest.length < operandLimit) (levels : Nat) (want : Want) :
    (∀ prev inner st', prev < maxResults →
      (enclosed (nested levels) want prev).run st = (inner, st') →
      inner ≠ [] → (group (nested levels) want prev).run st =
        (inner ++ plain .resultArg want.tag ++ lookupTail want, st') ∧
      (.local ∉ Code.ops inner → ∀ room b a s left, Fits .layout st'.table b →
        b.Holds a.pc (Code.words a.pc (inner ++ plain .resultArg want.tag)) →
        b.size < a.pc + left →
        (a.stack ≠ [] →
          (performCode (run room) b inner { pc := a.pc, result := a.result }).HasRoom s ∧
            (performCode (run room) b inner a).HasRoom s) →
        outcome (runFrom (run room) b left a) s =
          outcome (goOn (run room) b left a.locals (do
            let c ← performCode (run room) b inner { pc := a.pc, result := a.result }
            Activation.push (c.result.force want.tag) { a with
              pc := a.pc + (Code.words a.pc (inner ++ plain .resultArg want.tag)).length
              stack := c.stack ++ a.stack
              result := .null })) s)) ∧
    (∀ prev inner st', maxResults ≤ prev →
      (enclosed (nested levels) want 0).run st = (inner, st') →
      (group (nested levels) want prev).run st =
        ([.spill inner want.tag] ++ lookupTail want, st') ∧
      (.local ∉ Code.ops inner → ∀ room b a left, Fits .layout st'.table b →
        b.Holds a.pc (Code.words a.pc [.spill inner want.tag]) → b.size < a.pc + left →
        runFrom (run (room + 1)) b left a = goOn (run (room + 1)) b left a.locals (do
          let c ← deeper (performCode (run room) b inner { pc := a.pc + 1 })
          Activation.push (c.result.force want.tag) { a with
            pc := a.pc + (Code.words a.pc [.spill inner want.tag]).length }))) ∧
    (∀ prev inner st', prev < maxResults →
      (enclosed (nested levels) want prev).run st = (inner, st') →
      .local ∉ Code.ops inner → Code.settles inner = true →
      ∀ room b p v, Fits .layout st'.table b → b.Holds p (Code.words p inner) →
        (do return (← performCode (run room) b inner { pc := p, result := v }).result :
          Engine Value) = do
        return (← performCode (run room) b inner { pc := p }).result) := by
  have htyped {prev : Nat} {inner : Code} {st' : State} (hprev : prev < maxResults)
      (hrun : (enclosed (nested levels) want prev).run st = (inner, st')) :
      Typed .layout st'.table inner 0 0 := by
    have hgives := gives_statements (nested_serves .layout levels) st.table hprev want.takesView
      (ConsoleScript.code ')')
    obtain ⟨-, -, hinner⟩ := hgives ⟨hs, absurd rfl⟩ st rfl hshort
    rw [← enclosed, hrun] at hinner
    exact hinner 0 Rigour.under_zero
  refine ⟨fun prev inner st' hprev hrun hne => ⟨group_inPlace hprev hrun hne, ?_⟩,
    fun prev inner st' hprev hrun => ⟨group_byItself hprev hrun, ?_⟩, ?_⟩
  · intro hlocal room b a s left hf hw hleft hroom
    have hlength : (Code.words a.pc (inner ++ plain .resultArg want.tag)).length =
        (Code.words a.pc inner).length + 1 := by
      rw [words_append, words_plain rfl, List.length_append]
      rfl
    rw [words_append, Block.holds_append, words_plain rfl] at hw
    rw [hlength, ← Nat.add_assoc]
    exact runFrom_inPlace hf (htyped hprev hrun) hlocal hw.1 (Block.holds_cons.mp hw.2).1 hleft hroom
  · intro hlocal room b a left hf hw hleft
    exact runFrom_byItself hf (htyped (by decide) hrun) hlocal hw hleft
  · intro prev inner st' hprev hrun hlocal hsettles room b p v hf hw
    exact (htyped hprev hrun).result_performCode hf hlocal hw hsettles v

/-- A sum in parentheses, in front of another argument. -/
def sumText : State := { cursor := { rest := utf8 "+ 1 2) 3" }, table := Interp.new.table }

def sumCode : Code := ((enclosed (nested 20) .any 2).run sumText).1

set_option maxRecDepth 100000 in
/-- The sum behind two operands and behind seven, and what it gives in place of any result. -/
theorem group_pushes_result_sum :
    (∃ st', (group (nested 20) .any 2).run sumText =
      (sumCode ++ plain .resultArg Want.any.tag ++ lookupTail .any, st')) ∧
    (∃ st', (group (nested 20) .any 7).run sumText =
      ([.spill sumCode Want.any.tag] ++ lookupTail .any, st')) ∧
    ∀ v, (do return (← performCode (run 8) (toBlock [] sumCode) sumCode
        { pc := 1, result := v }).result : Engine Value) = do
      return (← performCode (run 8) (toBlock [] sumCode) sumCode { pc := 1 }).result := by
  have hall := @group_pushes_result sumText (Interp.inv_new .layout).table.founded
    (by decide) 20 .any
  have hsame : (enclosed (nested 20) .any 0).run sumText =
      (sumCode, ((enclosed (nested 20) .any 2).run sumText).2) := by
    with_unfolding_all rfl
  refine ⟨⟨_, (hall.1 2 _ _ (by decide) rfl ?_).1⟩, ⟨_, (hall.2.1 7 _ _ (by decide) hsame).1⟩,
    fun v => hall.2.2 2 _ _ (by decide) rfl ?_ ?_ 8 _ 1 v ?_ ?_⟩
  · have hne : sumCode.isEmpty = false := by decide +kernel
    intro h
    rw [show sumCode = [] from h] at hne
    cases hne
  · decide +kernel
  · decide +kernel
  · have hsize : (toBlock [] sumCode).size < operandLimit ∧
        ((enclosed (nested 20) .any 2).run sumText).2.table.size ≤ operandLimit := by decide +kernel
    exact ⟨hsize.1, hsize.2, absurd rfl⟩
  · exact (Block.holds_append.mp (holds_toBlock [] sumCode)).1

/-- An assignment leaves the result as it was. -/
example : Code.settles ((enclosed (nested 20) .any 0).run
    { cursor := { rest := utf8 "x = 1)" }, table := Interp.new.table }).1 = false := by
  decide +kernel

end Groups

end ConsoleScript
