import ConsoleScript.Engine.Bindings
import Mathlib.Logic.Function.Basic

/-!
Arguments as environments. Here every call has slots of its own, and the environments of the running
calls form a chain; code that is run with the arguments of the caller is run in the environment of the
caller. Scripts are trees of what code can do to arguments, so that a script may depend on all that it
has read.

The main statement is that a script keeps the shape of the chain: it can add bindings to the
environment that it is run in, and leaves as many bindings in all others as there were.
-/

namespace ConsoleScript

open Bytecode (RetTag)

/-- The argument slots of one call. -/
structure Environment where
  /-- The value of a slot, if it is bound, and behind it those that running loops have put aside. -/
  slots : Nat → List Value
  /-- Whether the call itself has bound a slot, and not code that was run in its place. -/
  own : Nat → Bool

namespace Environment

def ofArgs (args : List Value) : Environment where
  slots i := args[i]?.toList
  own i := decide (i < args.length)

def value? (e : Environment) (i : Nat) : Option Value := (e.slots i).head?

def isBound (e : Environment) (i : Nat) : Bool := !(e.slots i).isEmpty

def setSlot (i : Nat) (vs : List Value) (e : Environment) : Environment :=
  { e with slots := Function.update e.slots i vs }

/-- Binds a slot that is not bound. It is not the call's own if the environment is lent. -/
def add (lent : Bool) (i : Nat) (v : Value) (e : Environment) : Environment where
  slots := Function.update e.slots i [v]
  own j := e.own j || (j == i && !lent)

/-- Puts another value in the place of the value of a slot. -/
def replace (i : Nat) (v : Value) (e : Environment) : Environment :=
  e.setSlot i (v :: (e.slots i).tail)

def write (lent : Bool) (i : Nat) (v : Value) (e : Environment) : Environment :=
  if e.isBound i then e.replace i v else e.add lent i v

/-- Binds a slot to null if it is not bound. -/
def bind (lent : Bool) (i : Nat) (e : Environment) : Environment :=
  if e.isBound i then e else e.add lent i .null

/-- Puts the value of a slot aside. -/
def push (i : Nat) (v : Value) (e : Environment) : Environment := e.setSlot i (v :: e.slots i)

/-- Takes the value back that was put aside last. -/
def pop (i : Nat) (e : Environment) : Environment := e.setSlot i (e.slots i).tail

/-- Unbinds the slots that were not bound before. -/
def restrict (e before : Environment) : Environment :=
  { e with slots := fun i => if before.isBound i then e.slots i else [] }

/-- Every slot that is bound is bound once, by the call itself. -/
def IsPlain (e : Environment) : Prop :=
  ∀ i < maxArgs, (e.slots i).length = if e.own i then 1 else 0

instance (e : Environment) : Decidable e.IsPlain :=
  inferInstanceAs (Decidable (∀ i < maxArgs, _))

end Environment

/-- The environments of the running calls, and what happened in them. -/
structure Environments where
  current : Environment
  /-- The environments of the callers, the innermost first; the last one is outside all calls. -/
  callers : List Environment := []
  /-- What was read, the last first. -/
  reads : List Event := []
  /-- Whether code was run in the place of the caller of an environment that was not plain. -/
  clash : Bool := false

namespace Environments

def update (f : Environment → Environment) (c : Environments) : Environments :=
  { c with current := f c.current }

def report (bound : Bool) (v : Value) (c : Environments) : Environments :=
  { c with reads := .called [] [.ofBool bound, v] :: c.reads }

/-- The value of a slot as a look-up gives it. -/
def look (i : Nat) (ret : RetTag) (asView : Bool) (c : Environments) : Value :=
  (c.current.value? i).elim (.absent ret asView) (·.lookedUp ret asView)

def enter (args : List Value) (c : Environments) : Environments :=
  { c with current := .ofArgs args, callers := c.current :: c.callers }

def leave (c : Environments) : Environments := match c.callers with
  | [] => c
  | e :: rest => { c with current := e, callers := rest }

/-- Runs code in an environment of its own. -/
def inCall (args : List Value) (body : Environments → Value × Environments) (c : Environments) :
    Value × Environments :=
  let (v, c) := body (c.enter args)
  (v, c.leave)

/-- The environment of the caller is the current one. -/
def lend (e : Environment) (rest : List Environment) (c : Environments) : Environments :=
  { c with current := e, callers := rest, clash := c.clash || !decide c.current.IsPlain }

/-- Runs code in the environment of the caller; slots that are first bound there are unbound again.
Outside all calls there is no caller. -/
def inCaller (body outside : Environments → Value × Environments) (c : Environments) :
    Value × Environments := match c.callers with
  | [] => outside c
  | e :: rest =>
      let (v, c') := body (c.lend e rest)
      (v, { c' with current := c.current, callers := c'.current.restrict e :: c'.callers })

/-- Rounds of a loop, each with its value in the slot, up to the first that ends the loop. -/
def rounds (i : Nat) (value : Nat → Value) (body : Nat → Environments → Bool × Environments) :
    (left round : Nat) → Environments → Option Nat × Environments
  | 0, _, c => (none, c)
  | left + 1, round, c =>
      let (stop, c) := body round (c.update (·.replace i (value round)))
      if stop then (some round, c) else rounds i value body left (round + 1) c

/-- A loop over a slot. -/
def iterate (i n : Nat) (value : Nat → Value) (body : Nat → Environments → Bool × Environments)
    (c : Environments) : Option Nat × Environments :=
  let (ended, c) := rounds i value body n 0 (c.update (·.push i .null))
  (ended, c.update (·.pop i))

end Environments

/-- What code does to arguments. -/
inductive Script where
  | done (result : Value)
  | read (i : Fin maxArgs) (ret : RetTag) (asView : Bool) (next : Bool → Value → Script)
  | write (i : Fin maxArgs) (v : Value) (next : Script)
  /-- A loop with a slot as its variable; a round that gives a true value is the last one. -/
  | loop (i : Fin maxArgs) (n : Nat) (value : Nat → Value) (body : Nat → Script)
      (next : Option Nat → Script)
  /-- A call of an alias. -/
  | call (ident : Nat) (overridden : Bool) (args : List Value) (fits : args.length ≤ maxArgs)
      (body : Script) (next : Value → Script)
  /-- Code that is run with the arguments of the caller. -/
  | runOuter (body : Script) (next : Value → Script)

open Environments in
/-- What a script does in an environment, which may be lent to it. -/
def Script.eval : Script → (lent : Bool) → Environments → Value × Environments
  | .done v, _, c => (v, c)
  | .read i ret asView next, lent, c =>
      let bound := c.current.isBound i
      let v := c.look i ret asView
      (next bound v).eval lent (c.report bound v)
  | .write i v next, lent, c => next.eval lent (c.update (·.write lent i v))
  | .loop i n value body next, lent, c =>
      let round (r : Nat) (c : Environments) : Bool × Environments :=
        let (v, c) := (body r).eval lent c
        (v.toBool, c)
      let (ended, c) := iterate i n value round (c.update (·.bind lent i))
      (next ended).eval lent c
  | .call _ _ args _ body next, lent, c =>
      let (v, c) := inCall args (body.eval false) c
      (next v).eval lent c
  | .runOuter body next, lent, c =>
      let (v, c) := inCaller (body.eval true) (body.eval lent) c
      (next v).eval lent c

namespace Environment

variable {lent : Bool} {e e' e'' : Environment} {i j : Nat} {v : Value} {vs : List Value}

/-- How often a slot is bound. -/
def depth (e : Environment) (i : Nat) : Nat := (e.slots i).length

theorem isBound_iff : e.isBound i = true ↔ 0 < e.depth i := by
  simp [isBound, depth, List.length_pos_iff]

theorem isBound_eq_false : e.isBound i = false ↔ e.depth i = 0 := by
  simp [isBound, depth]

theorem slots_setSlot (e : Environment) (i j : Nat) (vs : List Value) :
    (e.setSlot i vs).slots j = if j = i then vs else e.slots j :=
  Function.update_apply ..

theorem slots_add (e : Environment) (lent : Bool) (i j : Nat) (v : Value) :
    (e.add lent i v).slots j = if j = i then [v] else e.slots j :=
  Function.update_apply ..

theorem depth_setSlot (e : Environment) (i j : Nat) (vs : List Value) :
    (e.setSlot i vs).depth j = if j = i then vs.length else e.depth j := by
  rw [depth, slots_setSlot]
  split <;> rfl

private theorem depth_add (e : Environment) (lent : Bool) (i j : Nat) (v : Value) :
    (e.add lent i v).depth j = if j = i then 1 else e.depth j := by
  rw [depth, slots_add]
  split <;> rfl

theorem isBound_setSlot (e : Environment) (i j : Nat) (vs : List Value) :
    (e.setSlot i vs).isBound j = if j = i then !vs.isEmpty else e.isBound j := by
  rw [isBound, slots_setSlot]
  split <;> rfl

theorem pop_push (e : Environment) (i : Nat) (v : Value) : (e.push i v).pop i = e := by
  simp [pop, push, setSlot]

theorem replace_push (e : Environment) (i : Nat) (u v : Value) :
    (e.push i u).replace i v = e.push i v := by
  simp [replace, push, setSlot]

/-- How often the slots are bound, and by whom. -/
def shape (e : Environment) : (Nat → Nat) × (Nat → Bool) := (e.depth, e.own)

theorem shape_ext (hd : ∀ i, e'.depth i = e.depth i) (ho : ∀ i, e'.own i = e.own i) :
    e'.shape = e.shape := by
  rw [shape, funext hd, funext ho, shape]

theorem isBound_of_shape (h : e'.shape = e.shape) (i : Nat) : e'.isBound i = e.isBound i := by
  rw [Bool.eq_iff_iff, isBound_iff, isBound_iff, (Prod.mk.inj h).1]

/-- An environment in which further slots may be bound. -/
structure Grown (lent : Bool) (e e' : Environment) : Prop where
  bound : ∀ i, 0 < e.depth i → e'.depth i = e.depth i
  fresh : ∀ i, e.depth i = 0 → e'.depth i ≤ 1
  own : ∀ i, e'.own i = true ↔ e.own i = true ∨ lent = false ∧ e.depth i = 0 ∧ 0 < e'.depth i

theorem Grown.of_shape (h : e'.shape = e.shape) : e.Grown lent e' := by
  obtain ⟨hd, ho⟩ := Prod.mk.inj h
  refine ⟨fun i _ => congrFun hd i, fun i hi => ?_, fun i => ?_⟩
  · rw [hd, hi]
    exact Nat.zero_le 1
  · rw [hd, ho]
    grind

namespace Grown

theorem trans (h : e.Grown lent e') (h' : e'.Grown lent e'') : e.Grown lent e'' := by
  refine ⟨fun i hi => ?_, fun i hi => ?_, fun i => ?_⟩
  · have := h.bound i hi
    have := h'.bound i
    omega
  · have := h.fresh i hi
    have := h'.bound i
    have := h'.fresh i
    omega
  · rw [h'.own, h.own]
    have := h.bound i
    have := h'.bound i
    grind

theorem isPlain (h : e.Grown false e') (hp : e.IsPlain) : e'.IsPlain := by
  intro i hi
  have hd : e.depth i = if e.own i then 1 else 0 := hp i hi
  change e'.depth i = _
  have := h.bound i
  have := h.fresh i
  have := h.own i
  grind

/-- Without the slots that were bound since, an environment that was lent is as it was. -/
theorem shape_restrict (h : e.Grown true e') : (e'.restrict e).shape = e.shape := by
  refine shape_ext (fun i => ?_) fun i => ?_
  · cases hb : e.isBound i with
    | false =>
        rw [isBound_eq_false.mp hb]
        simp [depth, restrict, hb]
    | true => simpa [depth, restrict, hb] using h.bound i (isBound_iff.mp hb)
  · have := h.own i
    simp only [Bool.true_eq_false, false_and, or_false] at this
    exact Bool.eq_iff_iff.mpr this

end Grown

theorem IsPlain.slots_eq (h : e.IsPlain) (hi : i < maxArgs) (ho : e.own i = false) :
    e.slots i = [] :=
  List.eq_nil_of_length_eq_zero ((h i hi).trans (by rw [ho]; rfl))

theorem IsPlain.exists_slots_eq (h : e.IsPlain) (hi : i < maxArgs) (ho : e.own i = true) :
    ∃ v, e.slots i = [v] :=
  List.length_eq_one_iff.mp ((h i hi).trans (by rw [ho]; rfl))

theorem IsPlain.own_eq (h : e.IsPlain) (hi : i < maxArgs) : e.own i = e.isBound i := by
  cases ho : e.own i with
  | false => simp [isBound, h.slots_eq hi ho]
  | true =>
      obtain ⟨v, hv⟩ := h.exists_slots_eq hi ho
      simp [isBound, hv]

theorem isPlain_ofArgs (args : List Value) : (ofArgs args).IsPlain := by
  intro i _
  by_cases hi : i < args.length <;> simp [ofArgs, hi]

theorem grown_add (h : e.isBound i = false) : e.Grown lent (e.add lent i v) := by
  have hd := isBound_eq_false.mp h
  refine ⟨fun j hj => ?_, fun j hj => ?_, fun j => ?_⟩
  · rw [depth_add, if_neg]
    rintro rfl
    omega
  · rw [depth_add]
    split <;> omega
  · rw [depth_add]
    by_cases hj : j = i <;> cases lent <;> grind [add]

theorem shape_replace (h : e.isBound i = true) (v : Value) : (e.replace i v).shape = e.shape := by
  refine shape_ext (fun j => ?_) fun _ => rfl
  rw [replace, depth_setSlot]
  split
  next hj =>
    subst hj
    have := isBound_iff.mp h
    simp only [List.length_cons, List.length_tail, depth] at *
    omega
  next => rfl

theorem grown_write (e : Environment) (lent : Bool) (i : Nat) (v : Value) :
    e.Grown lent (e.write lent i v) := by
  unfold write
  split
  next h => exact .of_shape (shape_replace h v)
  next h => exact grown_add (Bool.eq_false_iff.mpr h)

theorem grown_bind (e : Environment) (lent : Bool) (i : Nat) : e.Grown lent (e.bind lent i) := by
  unfold bind
  split
  next => exact .of_shape rfl
  next h => exact grown_add (Bool.eq_false_iff.mpr h)

theorem isBound_bind (e : Environment) (lent : Bool) (i : Nat) :
    (e.bind lent i).isBound i = true := by
  unfold bind
  split
  next h => exact h
  next => simp [isBound, slots_add]

/-- A loop takes the value back that it has put aside. -/
theorem Grown.pop (h : e.isBound i = true) (hg : (e.push i v).Grown lent e') :
    e.Grown lent (e'.pop i) := by
  have hpos := isBound_iff.mp h
  have hpush (j : Nat) : (e.push i v).depth j = if j = i then e.depth i + 1 else e.depth j :=
    depth_setSlot ..
  have hpop (j : Nat) : (e'.pop i).depth j = if j = i then e'.depth i - 1 else e'.depth j := by
    rw [Environment.pop, depth_setSlot, List.length_tail]
    rfl
  refine ⟨fun j hj => ?_, fun j hj => ?_, fun j => ?_⟩
  · have := hg.bound j
    rw [hpush] at this
    rw [hpop]
    grind
  · have := hg.fresh j
    rw [hpush] at this
    rw [hpop]
    grind
  · have := hg.own j
    have := hg.bound j
    rw [hpush] at *
    rw [hpop]
    change e'.own j = true ↔ e.own j = true ∨ _
    have hown : (e.push i v).own j = e.own j := rfl
    grind

end Environment

namespace Environments

variable {lent : Bool} {c c' c'' : Environments}

/-- How a script leaves the environments: it may bind slots in the current one. -/
structure Kept (lent : Bool) (c c' : Environments) : Prop where
  current : c.current.Grown lent c'.current
  callers : c'.callers.map Environment.shape = c.callers.map Environment.shape
  clash : c.clash = true → c'.clash = true

theorem Kept.refl (lent : Bool) (c : Environments) : Kept lent c c := ⟨.of_shape rfl, rfl, id⟩

theorem Kept.trans (h : Kept lent c c') (h' : Kept lent c' c'') : Kept lent c c'' :=
  ⟨h.current.trans h'.current, h'.callers.trans h.callers, fun hc => h'.clash (h.clash hc)⟩

theorem kept_update {f : Environment → Environment} (h : c.current.Grown lent (f c.current)) :
    Kept lent c (c.update f) :=
  ⟨h, rfl, id⟩

variable {i : Nat} {body : Nat → Environments → Bool × Environments}

theorem kept_rounds (hbody : ∀ r c, Kept lent c (body r c).2) (hi : c.current.isBound i = true)
    (value : Nat → Value) (left round : Nat) :
    Kept lent c (rounds i value body left round c).2 := by
  induction left generalizing round c with
  | zero => exact .refl lent c
  | succ left ih =>
      have hset : Kept lent c (c.update (·.replace i (value round))) :=
        kept_update (.of_shape (Environment.shape_replace hi _))
      have hround := hset.trans (hbody round _)
      unfold rounds
      dsimp only
      split
      · exact hround
      · refine hround.trans (ih ?_ _)
        rw [Environment.isBound_iff] at hi ⊢
        rw [hround.current.bound i hi]
        exact hi

theorem kept_iterate (hbody : ∀ r c, Kept lent c (body r c).2) (hi : c.current.isBound i = true)
    (n : Nat) (value : Nat → Value) : Kept lent c (iterate i n value body c).2 := by
  have hpush : (c.current.push i .null).isBound i = true := by
    simp [Environment.push, Environment.isBound, Environment.slots_setSlot]
  obtain ⟨hcurrent, hcallers, hclash⟩ :=
    kept_rounds hbody (c := c.update (·.push i .null)) hpush value n 0
  exact ⟨hcurrent.pop hi, hcallers, hclash⟩

theorem kept_inCall {body : Environments → Value × Environments}
    (hbody : ∀ c, Kept false c (body c).2) (args : List Value) (c : Environments) :
    Kept lent c (inCall args body c).2 := by
  obtain ⟨-, hcallers, hclash⟩ := hbody (c.enter args)
  obtain ⟨e, rest, hc, he, hrest⟩ := List.map_eq_cons_iff.mp hcallers
  change Kept lent c (body (c.enter args)).2.leave
  rw [leave, hc]
  exact ⟨.of_shape he, hrest, hclash⟩

theorem kept_inCaller {body outside : Environments → Value × Environments}
    (hbody : ∀ c, Kept true c (body c).2) (houtside : ∀ c, Kept lent c (outside c).2)
    (c : Environments) : Kept lent c (inCaller body outside c).2 := by
  unfold inCaller
  cases hc : c.callers with
  | nil => exact houtside c
  | cons e rest =>
      obtain ⟨hcurrent, hcallers, hclash⟩ := hbody (c.lend e rest)
      refine ⟨.of_shape rfl, ?_, fun h => hclash (by simp [lend, h])⟩
      rw [hc, List.map_cons, List.map_cons]
      exact congrArg₂ (· :: ·) hcurrent.shape_restrict hcallers

end Environments

/-- A script leaves the environments of the callers as often bound as they were. -/
theorem Script.kept_eval (p : Script) (lent : Bool) (c : Environments) :
    c.Kept lent (p.eval lent c).2 := by
  induction p generalizing lent c with
  | done v => exact .refl lent c
  | read i ret asView next ih =>
      have hread : c.Kept lent (c.report (c.current.isBound i) (c.look i ret asView)) :=
        ⟨.of_shape rfl, rfl, id⟩
      exact hread.trans (ih ..)
  | write i v next ih =>
      exact (Environments.kept_update (Environment.grown_write ..)).trans (ih ..)
  | loop i n value body next ihbody ihnext =>
      have hbind : c.Kept lent (c.update (·.bind lent i)) :=
        Environments.kept_update (Environment.grown_bind ..)
      refine (hbind.trans ?_).trans (ihnext ..)
      exact Environments.kept_iterate (fun r c => ihbody r lent c) (Environment.isBound_bind ..) n value
  | call ident overridden args fits body next ihbody ihnext =>
      exact (Environments.kept_inCall (ihbody false) args c).trans (ihnext ..)
  | runOuter body next ihbody ihnext =>
      exact (Environments.kept_inCaller (ihbody true) (ihbody lent) c).trans (ihnext ..)

end ConsoleScript
