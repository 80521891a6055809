import ConsoleScript.Proofs.Engine.Library

/-!
Calls are safe. Arguments that are shaped at run time are good, and there are as many of them as the
signature declares; an alias is called with its own bindings, and the body that is compiled for it
can be run.
-/

namespace ConsoleScript

open Bytecode Engine

section Literals

variable (r : Rigour) (t : Table)

theorem Value.ok_emptyCode (ret : RetTag) : (emptyCode ret).Ok r t :=
  ⟨2, .exit (w := Word.make .exit ret 0) rfl (Word.op?_make _ _ _)⟩

/-- Code that gives a number can be run. -/
theorem runnable_literalBlock {i : Instr} (hi : i.IsLiteral) :
    ∃ e, Runnable r t (literalBlock i) 1 0 e := by
  have hw : (literalBlock i).Holds 1
      (i.encode ++ [Word.make .result .null 0, Word.make .exit .null 0]) := by
    unfold Block.Holds literalBlock Block.emit Block.emitInstr Block.start
    simp
  obtain ⟨hi', hrest⟩ := Block.holds_append.mp hw
  obtain ⟨hresult, hexit⟩ := Block.holds_cons.mp hrest
  obtain ⟨hexit, -⟩ := Block.holds_cons.mp hexit
  have hl := hi'.literalAt hi
  obtain ⟨n, hn⟩ := Nat.exists_eq_succ_of_ne_zero (encode_length_ne_zero i)
  rw [hn] at hl hresult hexit
  have hm : r.Moves 0 1 0 1 := .inr ⟨Nat.le_refl _, rfl, fun _ => by decide⟩
  have hm' : r.Moves 1 0 1 0 := .inr ⟨Nat.le_refl _, rfl, fun _ => by decide⟩
  have hplain : Plain r t .result (Word.arg (Word.make .result .null 0)).toNat 1 0 :=
    (by decide : (Word.arg (Word.make .result .null 0)).toNat = 0) ▸ .result
  exact ⟨_, .literal hl hm (.plain hresult (Word.op?_make _ _ _) hplain hm'
    (.exit hexit (Word.op?_make _ _ _)))⟩

end Literals

/-- Every answer of a computation satisfies a condition. -/
def Yields {α : Type} (m : Engine α) (P : α → Prop) : Prop :=
  ∀ s a s', outcome m s = (.ok a, s') → P a

namespace Yields

variable {α β : Type} {P : α → Prop} {R : β → Prop}

theorem pure {a : α} (h : P a) : Yields (Pure.pure a) P := by
  intro s a' s' ha
  cases ha
  exact h

theorem any (m : Engine α) : Yields m fun _ => True := fun _ _ _ _ => trivial

theorem bind {m : Engine α} {f : α → Engine β} (hm : Yields m P)
    (hf : ∀ a, P a → Yields (f a) R) : Yields (m >>= f) R := by
  intro s b s' hb
  rw [outcome_bind] at hb
  cases h : outcome m s with
  | mk answer s₁ =>
      rw [h] at hb
      cases answer with
      | error e => cases hb
      | ok a => exact hf a (hm s a s₁ h) s₁ b s' hb

end Yields

section Lengths

variable {self : Nat} {isLookup : Bool}

theorem yields_addGiven (l : Letter) (st : Shaping) :
    Yields (st.addGiven l) fun st' => st'.shaped.length = st.shaped.length + 1 := by
  unfold Shaping.addGiven
  split
  · exact (Yields.any _).bind fun v _ => .pure (by simp [Shaping.add])
  · split <;> exact .pure (by simp [Shaping.add, Shaping.addMadeUp])

/-- A letter with an operand of its own adds one argument. -/
theorem yields_shapeFrom_plain {sig : Array Letter} {at' fuel n : Nat} {l : Letter} {st : Shaping}
    {P : List Value → Prop} (hl : sig[at']? = some l) (hp : l.isPlain = true)
    (hn : n = st.shaped.length)
    (h : ∀ st' : Shaping, st'.shaped.length = n + 1 →
      Yields (shapeFrom sig self isLookup fuel (at' + 1) st') P) :
    Yields (shapeFrom sig self isLookup (fuel + 1) at' st) P := by
  subst hn
  unfold shapeFrom
  rw [hl]
  cases l with
  | self | count => exact h _ (by simp [Shaping.add])
  | pressed | joined | all | again => cases hp
  | _ => exact (yields_addGiven _ st).bind fun st' hst => h st' hst

/-- The arguments of the letters that are taken first. -/
theorem yields_shapeFrom_prefix {pre tail : Signature} (hp : ∀ l ∈ pre, l.isPlain = true)
    {P : List Value → Prop} {fuel : Nat}
    (h : ∀ st : Shaping, st.shaped.length = pre.length →
      Yields (shapeFrom (pre ++ tail).toArray self isLookup fuel pre.length st) P)
    (left : Nat) (st : Shaping) (hat : st.shaped.length + left = pre.length) :
    Yields (shapeFrom (pre ++ tail).toArray self isLookup (fuel + left) st.shaped.length st) P := by
  induction left generalizing st with
  | zero =>
      rw [Nat.add_zero] at hat
      exact hat ▸ h st hat
  | succ left ih =>
      have hlt : st.shaped.length < pre.length := by omega
      refine yields_shapeFrom_plain (l := pre[st.shaped.length]) ?_ (hp _ (List.getElem_mem hlt)) rfl
        fun st' hst => ?_
      · rw [List.getElem?_toArray, List.getElem?_append_left hlt, List.getElem?_eq_getElem hlt]
      · exact hst ▸ ih st' (by omega)

/-- Arguments are only added. -/
theorem yields_shapeFrom_grow {sig : Array Letter} (hj : ∀ i : Nat, sig[i]? ≠ some Letter.joined)
    (fuel at' : Nat) (st : Shaping) :
    Yields (shapeFrom sig self isLookup fuel at' st) fun vs =>
      st.shaped.length ≤ vs.length := by
  have hle {st st' : Shaping} (hst : st.shaped.length ≤ st'.shaped.length) {m : Engine (List Value)}
      (h : Yields m fun vs => st'.shaped.length ≤ vs.length) :
      Yields m fun vs => st.shaped.length ≤ vs.length :=
    fun s vs s' hvs => Nat.le_trans hst (h s vs s' hvs)
  induction fuel generalizing at' st with
  | zero => exact .pure (Nat.le_refl _)
  | succ fuel ih =>
      unfold shapeFrom
      split
      next => exact .pure (Nat.le_refl _)
      next l hl =>
        cases l with
        | joined => exact absurd hl (hj at')
        | self | count | pressed =>
            exact hle (by simp [Shaping.add, Shaping.addMadeUp]) (ih _ _)
        | all => exact .pure (by simp [Shaping.all])
        | again n =>
            dsimp only
            split
            · exact ih _ _
            · exact hle (Nat.le_refl _) (ih _ _)
        | _ =>
            exact (yields_addGiven _ st).bind fun st' hst => hle (by omega) (ih _ st')

/-- A call that is shaped passes the arguments that the signature declares. -/
theorem yields_shape {r : Rigour} {sig : Signature} (hsig : sig.Regular r) (args : List Value) :
    Yields (shape sig self isLookup args) fun vs => sig.Passes vs.length := by
  -- Whatever follows the letters with one argument each, there is fuel left for it.
  have hshape {pre tail : Signature} (hp : ∀ l ∈ pre, l.isPlain = true)
      (h : ∀ fuel (st : Shaping), st.shaped.length = pre.length →
        Yields (shapeFrom (pre ++ tail).toArray self isLookup (fuel + 2) pre.length st) fun vs =>
          Signature.Passes (pre ++ tail) vs.length) :
      Yields (shape (pre ++ tail) self isLookup args) fun vs =>
        Signature.Passes (pre ++ tail) vs.length := by
    have hfuel : ∃ fuel, ((pre ++ tail).length + 2) * (args.length + 2) =
        fuel + 2 + pre.length := by
      refine ⟨((pre ++ tail).length + 2) * (args.length + 2) - 2 - pre.length, ?_⟩
      have h2 : ((pre ++ tail).length + 2) * 2 ≤ ((pre ++ tail).length + 2) * (args.length + 2) :=
        Nat.mul_le_mul_left _ (by omega)
      rw [List.length_append] at *
      omega
    obtain ⟨fuel, hfuel⟩ := hfuel
    unfold shape
    rw [hfuel]
    exact yields_shapeFrom_prefix hp (h fuel) pre.length { rest := args } (Nat.zero_add _)
  have hat {pre tail : Signature} : (pre ++ tail).toArray[pre.length]? = tail[0]? := by
    rw [List.getElem?_toArray, List.getElem?_append_right (Nat.le_refl _), Nat.sub_self]
  have hslots {pre tail : Signature} (hp : ∀ l ∈ pre, l.isPlain = true) :
      Signature.slots (pre ++ tail) = pre.length + Signature.slots tail := by
    rw [Signature.slots, List.countP_append, ← Signature.slots, ← Signature.slots,
      Compile.slots_of_plain hp]
  have hjoined {pre tail : Signature} (hp : ∀ l ∈ pre, l.isPlain = true)
      (ht : Letter.joined ∉ tail) : Letter.joined ∉ pre ++ tail := fun h =>
    (List.mem_append.mp h).elim (Compile.not_mem_of_plain hp) ht
  have hpasses {pre tail : Signature} (hp : ∀ l ∈ pre, l.isPlain = true)
      (ht : Letter.joined ∉ tail) {n : Nat} (hn : pre.length + Signature.slots tail ≤ n) :
      Signature.Passes (pre ++ tail) n := .inr ⟨hjoined hp ht, hslots hp ▸ hn⟩
  -- Once there are enough arguments, there are enough at the end.
  have hgrow {pre tail : Signature} (hp : ∀ l ∈ pre, l.isPlain = true)
      (ht : Letter.joined ∉ tail) (fuel at' : Nat) (st : Shaping)
      (hst : pre.length + Signature.slots tail ≤ st.shaped.length) :
      Yields (shapeFrom (pre ++ tail).toArray self isLookup fuel at' st) fun vs =>
        Signature.Passes (pre ++ tail) vs.length := fun s vs s' hvs =>
    hpasses hp ht (Nat.le_trans hst (yields_shapeFrom_grow
      (fun i hi => hjoined hp ht (List.mem_of_getElem? (List.getElem?_toArray.symm.trans hi)))
      fuel at' st s vs s' hvs))
  cases hsig with
  | fixed hl hp =>
      rw [← List.append_nil sig]
      exact hshape hp fun fuel st hst => hgrow hp List.not_mem_nil _ _ st (Nat.le_of_eq hst.symm)
  | pressed hr hl hp =>
      refine hshape hp fun fuel st hst => ?_
      unfold shapeFrom
      rw [hat]
      refine hgrow hp (by simp) _ _ _ ?_
      have hone : Signature.slots [.pressed] = 1 := rfl
      simp [Shaping.add, Shaping.addMadeUp, hst, hone]
  | all hl hp =>
      exact hshape hp fun fuel st hst => hgrow hp (by simp) _ _ st (Nat.le_of_eq hst.symm)
  | joined hl hp =>
      refine hshape hp fun fuel st hst => ?_
      unfold shapeFrom
      rw [hat]
      exact .pure (.inl ⟨by simp, rfl⟩)
  | again hl hp hn hn' hs =>
      exact hshape hp fun fuel st hst => hgrow hp (by simp) _ _ st (Nat.le_of_eq hst.symm)

end Lengths

namespace World

variable {r : Rigour} {w w' : World r} {k : Runner} {i : Nat} {v : Value} {args : List Value}

theorem safe_codeOf (src : Bytes) : w.Safe (codeOf src) fun s v => v.Ok r s.table :=
  (safe_compileText src []).bind fun _ _ _ hb => .pure hb

private theorem safe_indexOf (v : Value) : w.Safe (indexOf v) fun s i => i < s.table.size := by
  unfold indexOf
  split
  · exact safe_intern _
  · exact .pure fun hl => (w.inv hl).table.dummy_lt

theorem safe_identOf (v : Value) : w.Safe (identOf v) fun s v => v.Ok r s.table := by
  refine (safe_indexOf v).bind fun w' i _ hi => ?_
  refine .identAt hi fun id hid => ?_
  refine .ite (fun hslot => ?_) fun _ => .pure hi
  have hlt : i < maxArgs := of_decide_eq_true (Bool.and_eq_true_iff.mp hslot).1
  exact (safe_bindArg fun _ => hlt).bind fun w'' _ hw _ => .pure (lt_later hi hw)

private theorem safe_convertArg (hv : w.Good v) (l : Letter) :
    w.Safe (convertArg v l) fun s v => v.Ok r s.table := by
  cases l with
  | condition =>
      simp only [convertArg]
      split
      · exact .pure fun _ => trivial
      · exact safe_codeOf _
      · exact .pure hv
  | code => exact .ite (fun _ => .pure hv) fun _ => safe_codeOf _
  | ident =>
      simp only [convertArg]
      split
      · exact .pure hv
      · exact safe_identOf v
  | int | intOrLeast | float | floatOrPrevious | text | ownText => exact .pure fun _ => trivial
  | _ => exact .pure hv

private theorem good_missingArg (previous : Option Value) (l : Letter) :
    w.Good (missingArg previous l) := by
  intro hl
  cases l with
  | code => exact Value.ok_emptyCode r _ .null
  | ident => exact (w.inv hl).table.dummy_lt
  | _ => trivial

theorem AllGood.add {st : Shaping} (h : w.AllGood st.all) (hv : w.Good v) :
    w.AllGood (st.add v).all := by
  intro hl u hu
  simp only [Shaping.add, Shaping.all, List.mem_append, List.mem_singleton] at hu
  rcases hu with (hu | rfl) | hu
  · exact h hl u (List.mem_append_left _ hu)
  · exact hv hl
  · exact h hl u (List.mem_append_right _ (List.mem_of_mem_tail hu))

private theorem safe_addGiven {st : Shaping} (h : w.AllGood st.all) (l : Letter) :
    w.Safe (st.addGiven l) fun s st => ∀ v ∈ st.all, v.Ok r s.table := by
  unfold Shaping.addGiven
  split
  next v rest hrest =>
    have hv : w.Good v := h.good (List.mem_append_right _ (hrest ▸ List.mem_cons_self))
    exact (safe_convertArg hv l).bind fun w' v' hw hv' => .pure ((h.later hw).add hv')
  next =>
    refine .ite (fun _ => .pure (h.add fun _ => trivial)) fun _ => ?_
    exact .pure (h.add (good_missingArg _ l))

private theorem safe_shapeFrom {sig : Array Letter} {self : Nat} {isLookup : Bool}
    (hself : w.live → self < w.state.table.size) (fuel at' : Nat) {st : Shaping}
    (h : w.AllGood st.all) :
    w.Safe (shapeFrom sig self isLookup fuel at' st) fun s vs => ∀ v ∈ vs, v.Ok r s.table := by
  have hshaped {w : World r} {st : Shaping} (h : w.AllGood st.all) : w.AllGood st.shaped :=
    fun hl v hv => h hl v (List.mem_append_left _ hv)
  induction fuel generalizing w at' st with
  | zero => exact .pure (hshaped h)
  | succ fuel ih =>
      unfold shapeFrom
      split
      next => exact .pure (hshaped h)
      next l _ =>
        cases l with
        | self => exact ih hself _ (h.add hself)
        | count => exact ih hself _ (h.add fun _ => trivial)
        | pressed => exact ih hself _ (h.add fun _ => trivial)
        | joined => exact .pure fun _ v hv => by cases List.mem_singleton.mp hv; trivial
        | all => exact .pure h
        | again n => exact .ite (fun _ => ih hself _ h) fun _ => ih hself _ h
        | _ =>
            exact (safe_addGiven h _).bind fun w' st' hw hst => ih (lt_later hself hw) _ hst

/-- The parameters of an identifier are such that calls of it can be compiled. -/
theorem regular_signature (hr : r ≠ .layout) (hl : w.live) {id : Ident}
    (hid : w.state.table.get? i = some id) : id.role.signature.Regular r := by
  cases hrole : id.role with
  | command sig action =>
      refine (w.inv hl).table.regular hr i sig ?_
      rw [Table.form?_of_get? hid, hrole, Role.form, if_neg hr]
  | control c =>
      cases c with
      | and | or =>
          have hplain : ∀ l ∈ [Letter.condition], l.isPlain = true := by decide
          exact .again (by decide) hplain (Nat.le_refl 1) (by decide) (by decide)
      | _ => exact .fixed (by decide) (by decide)
  | _ => exact .fixed (Nat.zero_le _) fun _ hl => absurd hl List.not_mem_nil

theorem Control.arity_le {c : Control} {n : Nat} (h : c.signature.Passes n) : c.arity ≤ n := by
  rcases h with ⟨hj, -⟩ | ⟨-, hn⟩
  · cases c <;> exact absurd hj (by decide)
  · refine Nat.le_trans ?_ hn
    cases c <;> decide

/-- Calling a command or a control word with arguments as its signature passes them. -/
theorem safe_invoke (hk : RunsSafely r k) (hargs : w.AllGood args) {id : Ident}
    (hid : w.live → id.Ok r w.state.table)
    (hn : w.live → r ≠ .layout → id.role.signature.Passes args.length) :
    w.Safe (invoke k id args) fun s v => v.Ok r s.table := by
  have hrole (hl : w.live) := (hid hl).role
  unfold invoke
  split
  next sig b h =>
    rw [h] at hrole hn
    exact safe_apply hk hargs fun hl hr => hrole hl hr _ (hn hl hr)
  next sig f h =>
    rw [h] at hrole
    exact safe_runHost hk fun hl => (hrole hl).2 _ args (.refl r _) (hargs hl)
  next c h =>
    rw [h] at hn
    exact safe_applyControl hk hargs fun hl hr => Control.arity_le (hn hl hr)
  next => exact .pure fun _ => trivial

theorem safe_callShaped (hk : RunsSafely r k) (hargs : w.AllGood args) {id : Ident}
    (hid : w.state.table.get? i = some id) (isLookup : Bool) :
    w.Safe (callShaped k i id isLookup args) fun s v => v.Ok r s.table := by
  have hi : i < w.state.table.size := Table.lt_size_of_get? hid
  have hshape : w.Safe (shape id.role.signature i isLookup args) fun s vs =>
      (∀ v ∈ vs, v.Ok r s.table) ∧
        (w.live → r ≠ .layout → id.role.signature.Passes vs.length) := by
    have hstart : w.AllGood ({ rest := args } : Shaping).all := hargs
    exact (safe_shapeFrom (fun _ => hi) _ _ hstart).also fun vs s hvs hl hr =>
      yields_shape (regular_signature hr hl hid) args _ vs s hvs
  refine hshape.bind fun w' vs hw hvs => safe_invoke hk (fun hl => (hvs hl).1) (fun hl => ?_)
    fun hl hr => (hvs hl).2 (hw hl).1 hr
  exact (ok_of_get? (hw hl).1 hid).mono (hw.forms hl)

/-- The body of an alias can be run. -/
theorem safe_bodyOf (hi : w.live → i < w.state.table.size) :
    w.Safe (bodyOf i) fun s b => ∃ e, Runnable r s.table b 1 0 e := by
  refine .identAt hi fun id hid => ?_
  split
  next b hb => exact .pure fun hl => (ok_of_get? hl hid).body b hb
  next =>
    refine (safe_compileText _ _).bind fun w₁ b hw₁ hb => ?_
    refine (safe_modifyIdent fun hl id' hid' => ?_).bind fun w₂ _ hw₂ _ => .pure fun hl => ?_
    · have hok := ok_of_get? hl hid'
      refine ⟨⟨rfl, ⟨hok.value, hok.saved, fun b' hb' => ?_, hok.role, hok.locked⟩, rfl,
        fun _ _ => rfl, fun _ h => h⟩, fun _ _ hplain => ⟨hplain, rfl⟩⟩
      cases hb'
      exact hb hl
    · obtain ⟨e, he⟩ := hb (hw₂ hl).1
      exact ⟨e, he.mono (hw₂.forms hl)⟩

theorem safe_runBody (hk : RunsSafely r k) (hi : w.live → i < w.state.table.size) (ret : RetTag) :
    w.Safe (do let block ← bodyOf i; return (← k block 1).1.force ret) fun s v => v.Ok r s.table :=
  (safe_bodyOf hi).bind fun _ _ _ hb => (safe_runCode hk hb).bind fun _ _ _ ha =>
    .pure fun hl => (ha hl).force ret

theorem safe_callAlias (hk : RunsSafely r k) (hargs : w.AllGood args)
    (hi : w.live → i < w.state.table.size) (hn : w.live → args.length ≤ maxArgs) (ret : RetTag) :
    w.Safe (callAlias k i args ret) fun s v => v.Ok r s.table := by
  refine .identAt hi fun id hid => ?_
  refine safe_withArgs hargs hn (fun w' hw => ?_) (fun _ _ _ he ha => ha.mono he) i _
  exact safe_runBody hk (fun hl => (hw hl).2.lt_size (hi (hw hl).1)) ret

theorem safe_lookupNamed (hk : RunsSafely r k) (name : Bytes) (ret : RetTag) (asView : Bool) :
    w.Safe (lookupNamed k name ret asView) fun s v => v.Ok r s.table := by
  have habsent (text : Bytes) {w : World r} : w.Safe (do debug text; return .absent ret asView)
      fun s (v : Value) => v.Ok r s.table :=
    (w.safe_debug text).bind fun _ _ _ _ => .pure fun _ => Value.ok_absent _ _ _ _
  refine .read ?_
  split
  next => exact habsent _
  next i id h =>
    have hid := Table.get?_of_lookup? h
    split
    · refine .ite (fun _ => habsent _) fun _ => .ite (fun _ => ?_) fun _ => ?_
      · exact .pure fun _ => Value.ok_absent _ _ _ _
      · exact .pure fun _ => Value.ok_lookedUp _ _ _ _ _
    · exact .pure fun _ => Value.ok_lookedUp _ _ _ _ _
    · exact .pure fun _ => Value.ok_lookedUp _ _ _ _ _
    · exact .pure fun _ => Value.ok_lookedUp _ _ _ _ _
    · have hcalled : w.Safe (atLevel (.taking .lookup) .untaken (callShaped k i id true []))
          fun s v => v.Ok r s.table :=
        .atLevel (fun _ => rfl) (fun w' _ ht => safe_callShaped hk
          (fun _ _ hv => absurd hv List.not_mem_nil) (by rwa [ht]) true) fun _ _ _ ha => ha
      exact hcalled.bind fun _ _ _ ha => .pure fun hl => (ha hl).force ret
    · exact .pure fun _ => Value.ok_absent _ _ _ _

theorem safe_callVariable (hk : RunsSafely r k) (hargs : w.AllGood args)
    (hi : w.live → i < w.state.table.size) : w.Safe (match args with
      | [] => do
          printVar i
          return .null
      | v :: _ => do
          assign k i v
          return .null) fun s (v : Value) => v.Ok r s.table := by
  split
  · exact (safe_printVar hi).bind fun _ _ _ _ => .pure fun _ => trivial
  · exact (safe_assign hk hi (hargs.good List.mem_cons_self)).bind fun _ _ _ _ =>
      .pure fun _ => trivial

private theorem safe_callFound (hk : RunsSafely r k) (hargs : w.AllGood args) {id : Ident}
    (hid : w.state.table.get? i = some id) (hn : w.live → args.length ≤ maxArgs) (name : Bytes)
    (ret : RetTag) : w.Safe (callFound k name i id args ret) fun s v => v.Ok r s.table := by
  have hi (_ : w.live) : i < w.state.table.size := Table.lt_size_of_get? hid
  have hvariable := safe_callVariable hk hargs hi
  unfold callFound
  split
  · refine .ite (fun _ => ?_) fun _ => .read (.ite (fun _ => .pure fun _ => trivial) fun _ => ?_)
    · exact (w.safe_debug _).bind fun _ _ _ _ => .pure fun _ => trivial
    · exact safe_callAlias hk hargs hi hn ret
  · exact hvariable
  · exact hvariable
  · exact hvariable
  · refine .ite (fun _ => ?_) fun _ => .pure fun _ => trivial
    exact safe_callShaped hk hargs hid false

theorem safe_callNamed (hk : RunsSafely r k) (hargs : w.AllGood args)
    (hn : w.live → args.length ≤ maxArgs) (head : Value) (ret : RetTag) :
    w.Safe (callNamed k head args ret) fun s v => v.Ok r s.table := by
  unfold callNamed
  split
  · exact .pure fun _ => (Value.ok_settle _ _ _).force ret
  · refine .read ?_
    split
    · refine .ite (fun _ => .pure fun _ => (Value.ok_ofBytes _ _ _).force ret) fun _ => ?_
      exact (w.safe_debug _).bind fun _ _ _ _ => .pure fun _ => (Value.ok_null _ _).force ret
    · refine (safe_callFound hk hargs (Table.get?_of_lookup? ‹_›) hn _ ret).bind fun _ _ _ ha => ?_
      exact .pure fun hl => (ha hl).force ret

end World

end ConsoleScript
