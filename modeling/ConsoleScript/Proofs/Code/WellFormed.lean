import ConsoleScript.Proofs.Code.Placement

/-!
Well-formed blocks. A block that is read one instruction after another from its first word comes to
its end; what a jump passes over and what a block literal holds ends where an instruction begins;
of any two such stretches one lies in the other or behind it; and in each of them every exit ends
the body that was opened last.

What a stretch of a block has to be for this is said once, by the shapes that stretches are put
together from, and everything else is read off the shapes. Code in which each piece is of one of
these shapes is laid out as such a stretch.
-/

namespace ConsoleScript

open Bytecode

namespace Bytecode

/-- The operations that open a body of code: the start of a stream, the head of the body of a block
literal, and those that enter code which runs by itself. -/
def Op.opens : Op → Bool
  | .start | .offset | .enter | .enterResult => true
  | _ => false

/-- The operations that only stand for themselves. -/
def Op.isStraight (op : Op) : Bool := !op.opens && op != .exit && !op.isJump && op != .block

/-- Operations in which every exit ends the body that was opened last, and every body ends. -/
inductive Balanced : List Op → Prop
  | nil : Balanced []
  | step {op : Op} {ops : List Op} (ho : op.opens = false) (hx : op ≠ .exit) (h : Balanced ops) :
      Balanced (op :: ops)
  | body {op : Op} {inner ops : List Op} (ho : op.opens = true) (hi : Balanced inner)
      (h : Balanced ops) : Balanced (op :: inner ++ .exit :: ops)

theorem Balanced.append {ops ops' : List Op} (h : Balanced ops) (h' : Balanced ops') :
    Balanced (ops ++ ops') := by
  induction h with
  | nil => exact h'
  | step ho hx _ ih => exact .step ho hx ih
  | body ho hi _ _ ih =>
      rw [List.append_assoc, List.cons_append]
      exact .body ho hi ih

namespace Block

/-- The operations of the instructions that are read one after another from one position up to
another. -/
inductive Lists (b : Block) : (pc : Nat) → List Op → (e : Nat) → Prop
  | nil (pc : Nat) : Lists b pc [] pc
  | cons {pc e : Nat} {i : Instr} {ops : List Op} (hd : decode b.words pc = .ok i)
      (h : Lists b (pc + i.size) ops e) : Lists b pc (i.op :: ops) e

/-- The words behind a jump that it passes over, and the words of a block literal behind its
header. -/
inductive Span (b : Block) : (lo hi : Nat) → Prop
  | jump {pc : Nat} {i : Instr} (h : b.Begins pc) (hd : decode b.words pc = .ok i)
      (ho : i.op.isJump = true) : Span b (pc + i.size) (i.target pc)
  | literal {pc : Nat} {i : Instr} (h : b.Begins pc) (hd : decode b.words pc = .ok i)
      (ho : i.op = .block) : Span b (pc + i.size) (pc + 1 + i.arg.toNat)

/-- A block that begins with its start marker and ends with an exit, can be read to its end, and in
which jumps and block literals are properly nested and lead to instructions. -/
structure WellFormed (b : Block) : Prop where
  start : ∃ i, decode b.words 0 = .ok i ∧ i.op = .start
  exit : ∃ pc i, b.Begins pc ∧ decode b.words pc = .ok i ∧ i.op = .exit ∧ pc + i.size = b.size
  valid : b.validate = .ok ()
  whole : ∃ ops, b.Lists 0 ops b.size ∧ Balanced ops
  lands : ∀ lo hi, b.Span lo hi → b.Begins hi
  nested : ∀ lo hi lo' hi', b.Span lo hi → b.Span lo' hi' → lo ≤ lo' → hi' ≤ hi ∨ hi ≤ lo'
  balanced : ∀ lo hi, b.Span lo hi → ∃ ops, b.Lists lo ops hi ∧ Balanced ops
  /-- A block literal is the head of its body, the body and an exit. -/
  literals : ∀ pc i, b.Begins pc → decode b.words pc = .ok i → i.op = .block →
    ∃ ops, b.Lists (pc + 1) (.offset :: ops ++ [.exit]) (pc + 1 + i.arg.toNat) ∧ Balanced ops

variable {b : Block} {pc q e p p' hi hi' : Nat} {ops ops' : List Op}

theorem Lists.trans (h : b.Lists pc ops q) (h' : b.Lists q ops' e) :
    b.Lists pc (ops ++ ops') e := by
  induction h with
  | nil => exact h'
  | cons hd _ ih => exact .cons hd (ih h')

theorem Lists.total (h : b.Lists pc ops q) (h' : b.Lists pc ops' e) :
    (∃ ops, b.Lists q ops e) ∨ ∃ ops, b.Lists e ops q := by
  induction h generalizing ops' with
  | nil => exact .inl ⟨_, h'⟩
  | cons hd h ih =>
      cases h' with
      | nil => exact .inr ⟨_, .cons hd h⟩
      | cons hd' h' =>
          cases hd.symm.trans hd'
          exact ih h'

theorem Lists.begins (h : b.Lists pc ops e) (hpc : b.Begins pc) : b.Begins e := by
  induction h with
  | nil => exact hpc
  | cons hd _ ih => exact ih (.next hpc hd)

theorem Begins.lists (h : b.Begins pc) : ∃ ops, b.Lists 0 ops pc := by
  induction h with
  | first => exact ⟨[], .nil 0⟩
  | next _ hd ih =>
      obtain ⟨ops, hops⟩ := ih
      exact ⟨_, hops.trans (.cons hd (.nil _))⟩

theorem Lists.le (h : b.Lists pc ops e) : pc ≤ e := by
  induction h with
  | nil => exact Nat.le_refl _
  | cons _ _ ih => exact Nat.le_trans (Nat.le_add_right _ _) ih

theorem Lists.locate (h : b.Lists pc ops q) (hp : b.Lists pc ops' p) :
    p < q ∨ ∃ ops, b.Lists q ops p := by
  rcases h.total hp with h | ⟨ops, h⟩
  · exact .inr h
  · rcases Nat.lt_or_ge p q with hlt | hge
    · exact .inl hlt
    · cases Nat.le_antisymm hge h.le
      exact .inr ⟨[], .nil _⟩

theorem Lists.uncons (h : b.Lists pc ops p) {i : Instr} (hd : decode b.words pc = .ok i) :
    p = pc ∨ ∃ ops, b.Lists (pc + i.size) ops p := by
  cases h with
  | nil => exact .inl rfl
  | cons hd' h =>
      cases hd.symm.trans hd'
      exact .inr ⟨_, h⟩

end Block

/-- An instruction with a span: a jump, or the header of a block literal. -/
def Instr.hasSpan (i : Instr) : Bool := i.op.isJump || i.op == .block

/-- Only literals take more than one word. -/
theorem size_of_decode {words : Array UInt32} {pc : Nat} {i : Instr}
    (hd : decode words pc = .ok i) (hi : i.op.isLiteral = false) : i.size = 1 := by
  unfold decode at hd
  split at hd
  · cases hd
  · dsimp only at hd
    split at hd
    · cases hd
    · cases hd
      rfl
    · split at hd
      · cases hd; rfl
      · cases hd; cases hi
      · cases hd; cases hi
      · cases ht : textAt words (pc + 1) (Word.arg _).toNat with
        | error => rw [ht] at hd; cases hd
        | ok => rw [ht] at hd; cases hd; cases hi
      · cases hd
    · cases ht : textAt words (pc + 1) (Word.arg _).toNat with
      | error => rw [ht] at hd; cases hd
      | ok => rw [ht] at hd; cases hd; cases hi
    · cases hd
      rfl

theorem Instr.size_of_hasSpan {words : Array UInt32} {pc : Nat} {i : Instr}
    (hd : decode words pc = .ok i) (hi : i.hasSpan = true) : i.size = 1 := by
  refine size_of_decode hd ?_
  unfold Instr.hasSpan at hi
  cases h : i.op <;> first | rfl | (rw [h] at hi; cases hi)

namespace Block

variable {b : Block} {pc q e : Nat}

theorem Lists.word {i : Instr} {ops : List Op} (hd : decode b.words pc = .ok i) (hi : i.size = 1)
    (h : b.Lists (pc + 1) ops e) : b.Lists pc (i.op :: ops) e :=
  .cons hd (hi.symm ▸ h)

/-- The span of the instruction at a position is balanced, and for a block literal it is a body with
its head and exit. -/
def Encloses (b : Block) (p : Nat) (i : Instr) : Prop :=
  ∃ ops, b.Lists (p + 1) ops (i.target p) ∧ Balanced ops ∧
    (i.op = .block → ∃ inner, ops = .offset :: inner ++ [.exit] ∧ Balanced inner)

/-- A stretch of a block that contains the spans of its instructions, one in another or behind
it. -/
structure Nests (b : Block) (pc e : Nat) : Prop where
  reads : ∃ ops, b.Lists pc ops e
  inside : ∀ p i ops, b.Lists pc ops p → p < e → decode b.words p = .ok i → i.hasSpan = true →
    i.target p ≤ e ∧ b.Encloses p i
  apart : ∀ p p' i i' ops ops', b.Lists pc ops p → b.Lists pc ops' p' → p < p' → p' < e →
    decode b.words p = .ok i → decode b.words p' = .ok i' → i.hasSpan = true → i'.hasSpan = true →
    i'.target p' ≤ i.target p ∨ i.target p ≤ p' + 1

namespace Nests

theorem nil (b : Block) (pc : Nat) : b.Nests pc pc where
  reads := ⟨[], .nil pc⟩
  inside _ _ _ h hlt _ _ := absurd h.le (Nat.not_le_of_lt hlt)
  apart _ _ _ _ _ _ _ h _ hlt _ _ _ _ := absurd h.le (Nat.not_le_of_lt hlt)

theorem append (h : b.Nests pc q) (h' : b.Nests q e) : b.Nests pc e := by
  obtain ⟨ops, hq⟩ := h.reads
  obtain ⟨ops', he⟩ := h'.reads
  refine ⟨⟨_, hq.trans he⟩, fun p i o hp hlt hd hs => ?_,
    fun p p' i i' o o' hp hp' hlt hlt' hd hd' hs hs' => ?_⟩
  · rcases hq.locate hp with hpq | ⟨_, hp⟩
    · obtain ⟨hle, henc⟩ := h.inside p i o hp hpq hd hs
      exact ⟨Nat.le_trans hle he.le, henc⟩
    · exact h'.inside p i _ hp hlt hd hs
  · rcases hq.locate hp' with hpq' | ⟨_, hp'⟩
    · exact h.apart p p' i i' o o' hp ‹_› hlt hpq' hd hd' hs hs'
    rcases hq.locate hp with hpq | ⟨_, hp⟩
    · -- a span of the first stretch ends before the second one
      have := (h.inside p i o hp hpq hd hs).1
      have := hp'.le
      exact .inr (by omega)
    · exact h'.apart p p' i i' _ _ hp hp' hlt hlt' hd hd' hs hs'

/-- An instruction without a span. -/
theorem single {i : Instr} (hd : decode b.words pc = .ok i) (hi : i.hasSpan = false) :
    b.Nests pc (pc + i.size) := by
  have hbehind {p : Nat} {ops : List Op} (h : b.Lists pc ops p) (hlt : p < pc + i.size) :
      p = pc := by
    rcases h.uncons hd with rfl | ⟨_, h⟩
    · rfl
    · exact absurd h.le (Nat.not_le_of_lt hlt)
  refine ⟨⟨_, .cons hd (.nil _)⟩, fun p i' _ hp hlt hd' hs => ?_,
    fun p p' _ _ _ _ hp hp' hlt hlt' _ _ _ _ => ?_⟩
  · cases hbehind hp hlt
    cases hd.symm.trans hd'
    rw [hi] at hs
    cases hs
  · have := hbehind hp (Nat.lt_trans hlt hlt')
    have := hbehind hp' hlt'
    omega

/-- An instruction and its span. -/
theorem span {i : Instr} (hd : decode b.words pc = .ok i) (hi : i.hasSpan = true)
    (henc : b.Encloses pc i) (h : b.Nests (pc + 1) (i.target pc)) : b.Nests pc (i.target pc) := by
  have hsize := Instr.size_of_hasSpan hd hi
  obtain ⟨ops, hops⟩ := h.reads
  refine ⟨⟨_, .word hd hsize hops⟩, fun p j o hp hlt hd' hs => ?_,
    fun p p' j j' o o' hp hp' hlt hlt' hd' hd'' hs hs' => ?_⟩
  · rcases hp.uncons hd with rfl | ⟨_, hp⟩
    · cases hd.symm.trans hd'
      exact ⟨Nat.le_refl _, henc⟩
    · exact h.inside p j _ (hsize ▸ hp) hlt hd' hs
  · rcases hp'.uncons hd with rfl | ⟨_, hp'⟩
    · exact absurd hp.le (Nat.not_le_of_lt hlt)
    rw [hsize] at hp'
    rcases hp.uncons hd with rfl | ⟨_, hp⟩
    · cases hd.symm.trans hd'
      exact .inl (h.inside p' j' _ hp' hlt' hd'' hs').1
    · exact h.apart p p' j j' _ _ (hsize ▸ hp) hp' hlt hlt' hd' hd'' hs hs'

/-- A jump over a stretch and the jump behind it, which has a span of its own. -/
theorem fork {i j : Instr} (hd : decode b.words pc = .ok i) (hi : i.hasSpan = true)
    (henc : b.Encloses pc i) (hq : i.target pc = q + 1) (h : b.Nests (pc + 1) q)
    (hd' : decode b.words q = .ok j) (hj : j.hasSpan = true) (h' : b.Nests q (j.target q)) :
    b.Nests pc (j.target q) := by
  have hsize := Instr.size_of_hasSpan hd hi
  have hrest := h.append h'
  obtain ⟨ops, hops⟩ := hrest.reads
  obtain ⟨_, hfirst⟩ := h.reads
  have hend : q + 1 ≤ j.target q := by
    rw [Instr.target, Instr.size_of_hasSpan hd' hj]
    exact Nat.le_add_right _ _
  refine ⟨⟨_, .word hd hsize hops⟩, fun p k o hp hlt hdk hs => ?_,
    fun p p' k k' o o' hp hp' hlt hlt' hdk hdk' hs hs' => ?_⟩
  · rcases hp.uncons hd with rfl | ⟨_, hp⟩
    · cases hd.symm.trans hdk
      exact ⟨hq ▸ hend, henc⟩
    · exact hrest.inside p k _ (hsize ▸ hp) hlt hdk hs
  · rcases hp'.uncons hd with rfl | ⟨_, hp'⟩
    · exact absurd hp.le (Nat.not_le_of_lt hlt)
    rw [hsize] at hp'
    rcases hp.uncons hd with rfl | ⟨_, hp⟩
    · cases hd.symm.trans hdk
      -- the first span ends behind the second jump, whose own span follows it
      rcases hfirst.locate hp' with hpq | ⟨_, hp'⟩
      · have := (h.inside p' k' _ hp' hpq hdk' hs').1
        exact .inl (by omega)
      · have := hp'.le
        exact .inr (by omega)
    · exact hrest.apart p p' k k' _ _ (hsize ▸ hp) hp' hlt hlt' hdk hdk' hs hs'

end Nests

/-- A stretch of a block whose spans are nested and whose bodies are balanced. -/
structure Tidy (b : Block) (pc e : Nat) : Prop where
  nests : b.Nests pc e
  balanced : ∃ ops, b.Lists pc ops e ∧ Balanced ops

namespace Tidy

theorem nil (b : Block) (pc : Nat) : b.Tidy pc pc := ⟨.nil b pc, [], .nil pc, .nil⟩

theorem append (h : b.Tidy pc q) (h' : b.Tidy q e) : b.Tidy pc e := by
  obtain ⟨ops, hops, hb⟩ := h.balanced
  obtain ⟨ops', hops', hb'⟩ := h'.balanced
  exact ⟨h.nests.append h'.nests, _, hops.trans hops', hb.append hb'⟩

private theorem hasSpan_of_isStraight {i : Instr} (hi : i.op.isStraight = true) :
    i.hasSpan = false := by
  unfold Op.isStraight at hi
  unfold Instr.hasSpan
  grind

theorem straight {i : Instr} (hd : decode b.words pc = .ok i) (hi : i.op.isStraight = true) :
    b.Tidy pc (pc + i.size) := by
  refine ⟨.single hd (hasSpan_of_isStraight hi), _, .cons hd (.nil _), ?_⟩
  unfold Op.isStraight at hi
  exact .step (by grind) (by grind) .nil

/-- A body between what opens it and its exit. -/
theorem body {i x : Instr} (hd : decode b.words pc = .ok i) (hi : i.op.opens = true)
    (h : b.Tidy (pc + 1) q) (hx : decode b.words q = .ok x) (ho : x.op = .exit) :
    b.Tidy pc (q + 1) := by
  have hsize : i.size = 1 := size_of_decode hd (by
    cases hop : i.op <;> first | rfl | (rw [hop] at hi; cases hi))
  have hspan : i.hasSpan = false := by
    unfold Instr.hasSpan
    cases hop : i.op <;> first | rfl | (rw [hop] at hi; cases hi)
  have hsize' : x.size = 1 := size_of_decode hx (by rw [ho]; rfl)
  have hspan' : x.hasSpan = false := by rw [Instr.hasSpan, ho]; rfl
  obtain ⟨ops, hops, hb⟩ := h.balanced
  refine ⟨?_, i.op :: ops ++ [x.op], .word hd hsize (hops.trans (.word hx hsize' (.nil _))), ?_⟩
  · have hfirst := Nests.single hd hspan
    have hlast := Nests.single hx hspan'
    rw [hsize] at hfirst
    rw [hsize'] at hlast
    exact (hfirst.append h.nests).append hlast
  · rw [ho]
    exact .body hi hb .nil

private theorem encloses {i : Instr} (hi : i.op.isJump = true) (h : b.Tidy (pc + 1) (i.target pc)) :
    b.Encloses pc i := by
  obtain ⟨ops, hops, hb⟩ := h.balanced
  exact ⟨ops, hops, hb, fun ho => by rw [ho] at hi; cases hi⟩

theorem jump {i : Instr} (hd : decode b.words pc = .ok i) (hi : i.op.isJump = true)
    (h : b.Tidy (pc + 1) (i.target pc)) : b.Tidy pc (i.target pc) := by
  have hspan : i.hasSpan = true := by rw [Instr.hasSpan, hi]; rfl
  have hsize := Instr.size_of_hasSpan hd hspan
  obtain ⟨ops, hops, hb⟩ := h.balanced
  refine ⟨.span hd hspan (encloses hi h) h.nests, _, .word hd hsize hops, .step ?_ ?_ hb⟩ <;>
    cases hop : i.op <;> first | rfl | decide | (rw [hop] at hi; cases hi)

/-- A block literal: its header, the head of its body, the body and an exit. -/
theorem literal {i j x : Instr} (hd : decode b.words pc = .ok i) (hi : i.op = .block)
    (hd' : decode b.words (pc + 1) = .ok j) (hj : j.op = .offset) (h : b.Tidy (pc + 2) q)
    (hx : decode b.words q = .ok x) (ho : x.op = .exit) (hq : i.target pc = q + 1) :
    b.Tidy pc (q + 1) := by
  have hspan : i.hasSpan = true := by rw [Instr.hasSpan, hi]; rfl
  have hsize : i.size = 1 := Instr.size_of_hasSpan hd hspan
  have hbody : b.Tidy (pc + 1) (q + 1) := body hd' (by rw [hj]; rfl) h hx ho
  obtain ⟨ops, hops, hb⟩ := h.balanced
  have hsize' : j.size = 1 := size_of_decode hd' (by rw [hj]; rfl)
  have hsize'' : x.size = 1 := size_of_decode hx (by rw [ho]; rfl)
  have hlists : b.Lists (pc + 1) (.offset :: ops ++ [.exit]) (q + 1) := by
    rw [← hj, ← ho]
    exact .word hd' hsize' (hops.trans (.word hx hsize'' (.nil _)))
  have henc : b.Encloses pc i :=
    ⟨_, hq.symm ▸ hlists, .body rfl hb .nil, fun _ => ⟨ops, rfl, hb⟩⟩
  refine ⟨?_, _, .word hd hsize hlists,
    .step (by rw [hi]; rfl) (by rw [hi]; decide) (.body rfl hb .nil)⟩
  have := Nests.span hd hspan henc (hq.symm ▸ hbody.nests)
  rwa [hq] at this

/-- Two stretches, of which the first ends with a jump over the second, in front of them a jump over
the first. -/
theorem fork {i j : Instr} (hd : decode b.words pc = .ok i) (hi : i.op.isJump = true)
    (h : b.Tidy (pc + 1) q) (hq : i.target pc = q + 1) (hd' : decode b.words q = .ok j)
    (hj : j.op.isJump = true) (h' : b.Tidy (q + 1) (j.target q)) : b.Tidy pc (j.target q) := by
  have hspan : i.hasSpan = true := by rw [Instr.hasSpan, hi]; rfl
  have hspan' : j.hasSpan = true := by rw [Instr.hasSpan, hj]; rfl
  have hsize := Instr.size_of_hasSpan hd hspan
  have hsize' := Instr.size_of_hasSpan hd' hspan'
  have hstep {i : Instr} {ops : List Op} (hi : i.op.isJump = true) (hb : Balanced ops) :
      Balanced (i.op :: ops) :=
    .step (by cases hop : i.op <;> first | rfl | (rw [hop] at hi; cases hi))
      (by rintro ho; rw [ho] at hi; cases hi) hb
  have hrest := jump hd' hj h'
  obtain ⟨ops, hops, hb⟩ := h.balanced
  obtain ⟨ops', hops', hb'⟩ := hrest.balanced
  have henc : b.Encloses pc i := by
    refine ⟨ops ++ [j.op], ?_, hb.append (hstep hj .nil), fun ho => by rw [ho] at hi; cases hi⟩
    rw [hq]
    exact hops.trans (.word hd' hsize' (.nil _))
  exact ⟨.fork hd hspan henc hq h.nests hd' hspan' hrest.nests, _,
    .word hd hsize (hops.trans hops'), hstep hi (hb.append hb')⟩

end Tidy

theorem lt_size_of_decode {p : Nat} {i : Instr} (hd : decode b.words p = .ok i) : p < b.size := by
  refine Nat.lt_of_not_le fun hp => ?_
  rw [decode, Array.getElem?_eq_none hp] at hd
  cases hd

theorem Nests.span_of_begins (h : b.Nests 0 b.size) {p : Nat} {i : Instr} (hp : b.Begins p)
    (hd : decode b.words p = .ok i) (hi : i.hasSpan = true) :
    i.target p ≤ b.size ∧ b.Encloses p i := by
  obtain ⟨ops, hops⟩ := hp.lists
  exact h.inside p i ops hops (lt_size_of_decode hd) hd hi

/-- Checking a block that nests finds nothing wrong from any instruction on. -/
theorem Nests.validateFrom (h : b.Nests 0 b.size) (fuel : Nat) {p : Nat} (hp : b.Begins p) :
    validateFrom b.words fuel p = .ok () := by
  induction fuel generalizing p with
  | zero => rfl
  | succ fuel ih =>
      rw [Block.validateFrom]
      split
      · rfl
      obtain ⟨ops, hops⟩ := hp.lists
      obtain ⟨all, hall⟩ := h.reads
      -- an instruction begins here, since reading comes to the end and not only to this position
      obtain ⟨i, hd⟩ : ∃ i, decode b.words p = .ok i := by
        rcases hall.locate hops with hlt | ⟨_, hrest⟩
        · rcases hops.total hall with ⟨_, h⟩ | ⟨_, h⟩
          · cases h with
            | nil => exact absurd hlt (Nat.lt_irrefl _)
            | cons hd _ => exact ⟨_, hd⟩
          · exact absurd h.le (Nat.not_le_of_lt hlt)
        · have : p = b.size := by
            cases hrest with
            | nil => rfl
            | cons hd _ => exact absurd (lt_size_of_decode hd) (Nat.lt_irrefl _)
          exact absurd (Nat.le_of_eq this.symm) ‹_›
      rw [hd]
      dsimp only
      have hspan (hi : i.hasSpan = true) := (h.span_of_begins hp hd hi).1
      split
      next hbad =>
        obtain ⟨hj, hlt⟩ := Bool.and_eq_true_iff.mp hbad
        have := hspan (by rw [Instr.hasSpan, hj]; rfl)
        exact absurd (of_decide_eq_true hlt) (Nat.not_lt_of_le this)
      next =>
        split
        next hbad =>
          obtain ⟨ho, hlt⟩ := Bool.and_eq_true_iff.mp hbad
          replace ho := of_decide_eq_true ho
          have hi : i.hasSpan = true := by rw [Instr.hasSpan, ho]; rfl
          have := hspan hi
          rw [Instr.target, Instr.size_of_hasSpan hd hi] at this
          exact absurd (of_decide_eq_true hlt) (Nat.not_lt_of_le this)
        next => exact ih (.next hp hd)

theorem Span.instr {lo hi : Nat} (h : b.Span lo hi) : ∃ p i, b.Begins p ∧
    decode b.words p = .ok i ∧ i.hasSpan = true ∧ lo = p + 1 ∧ hi = i.target p := by
  cases h with
  | @jump pc i hp hd ho =>
      have hs : i.hasSpan = true := by rw [Instr.hasSpan, ho]; rfl
      exact ⟨pc, i, hp, hd, hs, by rw [Instr.size_of_hasSpan hd hs], rfl⟩
  | @literal pc i hp hd ho =>
      have hs : i.hasSpan = true := by rw [Instr.hasSpan, ho]; rfl
      have hsize := Instr.size_of_hasSpan hd hs
      exact ⟨pc, i, hp, hd, hs, by rw [hsize], by rw [Instr.target, hsize]⟩

/-- A block that is a tidy stretch from its first word on and ends with an exit is well-formed. -/
theorem Tidy.wellFormed {x : Instr} (hw : b.words[0]? = some (Word.make .start .null 0))
    (h : b.Tidy 1 q) (hx : decode b.words q = .ok x) (ho : x.op = .exit) (hq : q + 1 = b.size) :
    b.WellFormed := by
  have hd := decode_plain hw (Word.op?_make .start .null 0) rfl
  have hall : b.Tidy 0 b.size := hq ▸ .body hd rfl h hx ho
  obtain ⟨ops, hops⟩ := h.nests.reads
  refine ⟨⟨_, hd, rfl⟩, ⟨q, x, hops.begins (.next .first hd), hx, ho, ?_⟩, ?_, hall.balanced,
    fun lo hi hs => ?_, fun lo hi lo' hi' hs hs' hle => ?_, fun lo hi hs => ?_,
    fun pc i hp hd ho => ?_⟩
  · rw [size_of_decode hx (by rw [ho]; rfl), hq]
  · rw [validate, hw]
    exact hall.nests.validateFrom _ .first
  · obtain ⟨p, i, hp, hd, hi, rfl, rfl⟩ := hs.instr
    obtain ⟨ops, hops, -⟩ := (hall.nests.span_of_begins hp hd hi).2
    have hbehind := Begins.next hp hd
    rw [Instr.size_of_hasSpan hd hi] at hbehind
    exact hops.begins hbehind
  · obtain ⟨p, i, hp, hd, hi, rfl, rfl⟩ := hs.instr
    obtain ⟨p', i', hp', hd', hi', rfl, rfl⟩ := hs'.instr
    obtain ⟨_, hops⟩ := hp.lists
    obtain ⟨_, hops'⟩ := hp'.lists
    rcases Nat.lt_or_ge p p' with hlt | hge
    · exact hall.nests.apart p p' i i' _ _ hops hops' hlt (lt_size_of_decode hd') hd hd' hi hi'
    · cases Nat.le_antisymm hge (Nat.le_of_succ_le_succ hle)
      cases hd.symm.trans hd'
      exact .inl (Nat.le_refl _)
  · obtain ⟨p, i, hp, hd, hi, rfl, rfl⟩ := hs.instr
    obtain ⟨ops, hops, hb, -⟩ := (hall.nests.span_of_begins hp hd hi).2
    exact ⟨ops, hops, hb⟩
  · have hi : i.hasSpan = true := by rw [Instr.hasSpan, ho]; rfl
    obtain ⟨ops, hops, -, hlit⟩ := (hall.nests.span_of_begins hp hd hi).2
    obtain ⟨inner, rfl, hb⟩ := hlit ho
    rw [Instr.target, Instr.size_of_hasSpan hd hi] at hops
    exact ⟨inner, hops, hb⟩

end Block

end Bytecode

namespace Compile

mutual

/-- The texts in a piece of code. -/
def Piece.texts : Piece → List Bytes
  | .instr i => match i.lit with
    | .text s => [s]
    | _ => []
  | .block body | .spill body _ | .whenTrue body | .whenFalse body => Code.texts body
  | .shadow names surplus _ => Code.texts names ++ Code.texts surplus
  | .choice yes no => Code.texts yes ++ Code.texts no
  | .link _ body next => Code.texts body ++ next.texts

def Code.texts : List Piece → List Bytes
  | [] => []
  | p :: rest => p.texts ++ Code.texts rest

end

/-- The instructions that push a literal. -/
inductive Pushing : Instr → Prop
  | null : Pushing (.plain .valInline)
  | int (n : Int32) : Pushing (.ofInt n)
  | float (x : Single) : Pushing (.ofFloat x)
  | text (s : Bytes) : Pushing (.ofText s)
  | view (s : Bytes) : Pushing (.ofView s)

/-- Code made of instructions that stand for themselves, of block literals and of the shapes of
control words. Only at the end of a chain a jump stands by itself; it leads to what is next. -/
inductive Built : Code → Prop
  | nil : Built []
  | plain {op : Op} {ret : RetTag} {n : Nat} {rest : Code} (ho : op.isStraight = true)
      (hl : op.isLiteral = false) (hr : Built rest) : Built (.instr (.plain op ret n) :: rest)
  | call {op : Op} {ret : RetTag} {n i : Nat} {rest : Code} (ho : op.isCall = true)
      (hr : Built rest) : Built (.instr (.call op ret n i) :: rest)
  | settle {op : Op} {rest : Code} (ho : op = .jumpResultTrue ∨ op = .jumpResultFalse)
      (hr : Built rest) : Built (.instr (.plain op) :: rest)
  | literal {i : Instr} {rest : Code} (hi : Pushing i) (hr : Built rest) :
      Built (.instr i :: rest)
  | block {body rest : Code} (hb : Built body) (hr : Built rest) : Built (.block body :: rest)
  | spill {body rest : Code} {ret : RetTag} (hb : Built body) (hr : Built rest) :
      Built (.spill body ret :: rest)
  | shadow {names surplus rest : Code} {n : Nat} (hn : Built names) (hs : Built surplus)
      (hr : Built rest) : Built (.shadow names surplus n :: rest)
  | whenTrue {body rest : Code} (hb : Built body) (hr : Built rest) :
      Built (.whenTrue body :: rest)
  | whenFalse {body rest : Code} (hb : Built body) (hr : Built rest) :
      Built (.whenFalse body :: rest)
  | choice {yes no rest : Code} (hy : Built yes) (hn : Built no) (hr : Built rest) :
      Built (.choice yes no :: rest)
  | link {op : Op} {body rest : Code} {next : Piece}
      (ho : op = .jumpResultTrue ∨ op = .jumpResultFalse) (hb : Built body) (hn : Built [next])
      (hr : Built rest) : Built (.link op body next :: rest)

theorem Built.append {code code' : Code} (h : Built code) (h' : Built code') :
    Built (code ++ code') := by
  induction h with
  | nil => exact h'
  | plain ho hl _ ih => exact .plain ho hl ih
  | call ho _ ih => exact .call ho ih
  | settle ho _ ih => exact .settle ho ih
  | literal hi _ ih => exact .literal hi ih
  | block hb _ _ ih => exact .block hb ih
  | spill hb _ _ ih => exact .spill hb ih
  | shadow hn hs _ _ _ ih => exact .shadow hn hs ih
  | whenTrue hb _ _ ih => exact .whenTrue hb ih
  | whenFalse hb _ _ ih => exact .whenFalse hb ih
  | choice hy hn _ _ _ ih => exact .choice hy hn ih
  | link ho hb hn _ _ _ ih => exact .link ho hb hn ih

theorem Pushing.isLiteral {i : Instr} (hi : Pushing i)
    (ht : ∀ s ∈ (Piece.instr i).texts, s.length < operandLimit) : i.IsLiteral := by
  cases hi with
  | null => exact .null
  | int n => exact .int n
  | float x => exact .float x
  | text s =>
      refine .text s (ht s ?_)
      unfold Instr.ofText
      split <;> exact List.mem_singleton.mpr rfl
  | view s => exact .view s (ht s (List.mem_singleton.mpr rfl))

end Compile

section Layout

open Compile

variable {b : Block} {code : Code} {pc e : Nat}

private theorem tidy_word {op : Op} {ret : RetTag} {n : UInt32}
    (hw : b.words[pc]? = some (Word.make op ret n)) (ho : op.isStraight = true)
    (hl : op.isLiteral = false) : b.Tidy pc (pc + 1) :=
  .straight (decode_plain hw (Word.op?_make ..) hl) ho

private theorem tidy_literal {n : Nat} (h : b.LiteralAt pc n) : b.Tidy pc (pc + n) := by
  obtain ⟨w, i, -, -, hl, hd, rfl⟩ := h
  refine .straight hd ?_
  cases hop : i.op <;> first | rfl | (rw [hop] at hl; cases hl)

private theorem tidy_body {op : Op} {ret ret' : RetTag} {n n' : UInt32} {q : Nat}
    (hw : b.words[pc]? = some (Word.make op ret n)) (ho : op.opens = true)
    (h : b.Tidy (pc + 1) q) (hx : b.words[q]? = some (Word.make .exit ret' n')) :
    b.Tidy pc (q + 1) := by
  have hl : op.isLiteral = false := by cases op <;> first | rfl | cases ho
  exact .body (decode_plain hw (Word.op?_make ..) hl) ho h
    (decode_plain hx (Word.op?_make ..) rfl) rfl

private theorem tidy_jump {op : Op} {n : UInt32} {q : Nat}
    (hw : b.words[pc]? = some (Word.make op .null n)) (ho : op.isJump = true)
    (hq : pc + 1 + (Word.arg (Word.make op .null n)).toNat = q) (h : b.Tidy (pc + 1) q) :
    b.Tidy pc q := by
  have hl : op.isLiteral = false := by cases op <;> first | rfl | cases ho
  subst hq
  exact .jump (decode_plain hw (Word.op?_make ..) hl) ho h

/-- Code that stands in a block makes a tidy stretch of it, if its texts fit their fields. -/
theorem Placed.tidy (hc : Built code) (ht : ∀ s ∈ Code.texts code, s.length < operandLimit)
    (hp : Placed b code pc e) : b.Tidy pc e := by
  induction hc generalizing pc e with
  | nil =>
      cases hp
      exact .nil b pc
  | @plain op ret n rest ho hl _ ih =>
      obtain ⟨ht, hr'⟩ := List.forall_mem_append.mp ht
      have henc : (Instr.plain op ret n).encode = [Word.make op ret (UInt32.ofNat n)] := by
        cases op <;> first | rfl | cases hl
      cases hp with
      | instr hw hr =>
          rw [henc] at hw hr
          have hrest := ih hr' hr
          exact (tidy_word (Block.holds_cons.mp hw).1 ho hl).append hrest
  | @call op ret n i rest ho _ ih =>
      obtain ⟨ht, hr'⟩ := List.forall_mem_append.mp ht
      have henc : (Instr.call op ret n i).encode =
          [Word.make op ret (Word.callOperand (UInt32.ofNat n) (UInt32.ofNat i))] := by
        cases op <;> first | rfl | cases ho
      cases hp with
      | instr hw hr =>
          rw [henc] at hw hr
          have hrest := ih hr' hr
          refine (tidy_word (Block.holds_cons.mp hw).1 ?_ ?_).append hrest <;>
            cases op <;> first | rfl | cases ho
  | @settle op rest ho _ ih =>
      obtain ⟨ht, hr'⟩ := List.forall_mem_append.mp ht
      have henc : (Instr.plain op).encode = [Word.make op .null 0] := by
        rcases ho with rfl | rfl <;> rfl
      cases hp with
      | instr hw hr =>
          rw [henc] at hw hr
          have hrest := ih hr' hr
          refine Block.Tidy.append ?_ hrest
          refine tidy_jump (Block.holds_cons.mp hw).1 ?_ ?_ (.nil _ _) <;>
            rcases ho with rfl | rfl <;> rfl
  | literal hi _ ih =>
      obtain ⟨ht, hr'⟩ := List.forall_mem_append.mp ht
      have hi := hi.isLiteral ht
      cases hp with
      | instr hw hr =>
          exact (tidy_literal (hw.literalAt hi)).append (ih hr' hr)
  | block _ _ ihb ih =>
      obtain ⟨ht, hr'⟩ := List.forall_mem_append.mp ht
      cases hp with
      | block hw hn ho hb hx hr =>
          have hbody := ihb ht hb
          have hrest := ih hr' hr
          refine Block.Tidy.append ?_ hrest
          exact .literal (decode_plain hw (Word.op?_make ..) rfl) rfl
            (decode_plain ho (Word.op?_make ..) rfl) rfl hbody
            (decode_plain hx (Word.op?_make ..) rfl) rfl hn
  | spill _ _ ihb ih =>
      obtain ⟨ht, hr'⟩ := List.forall_mem_append.mp ht
      cases hp with
      | spill hw hb hx hr =>
          have hbody := ihb ht hb
          have hrest := ih hr' hr
          exact (tidy_body hw rfl hbody hx).append hrest
  | shadow _ _ _ ihn ihs ih =>
      obtain ⟨ht, hr'⟩ := List.forall_mem_append.mp ht
      obtain ⟨hf, hs'⟩ := List.forall_mem_append.mp ht
      cases hp with
      | shadow hn hs hw hr =>
          have hnames := ihn hf hn
          have hsurplus := ihs hs' hs
          have hrest := ih hr' hr
          exact ((hnames.append hsurplus).append (tidy_word hw rfl rfl)).append hrest
  | whenTrue _ _ ihb ih =>
      obtain ⟨ht, hr'⟩ := List.forall_mem_append.mp ht
      cases hp with
      | whenTrue hw hn he hb hx hr =>
          have hbody := ihb ht hb
          have hrest := ih hr' hr
          exact (tidy_jump hw rfl hn (tidy_body he rfl hbody hx)).append hrest
  | whenFalse _ _ ihb ih =>
      obtain ⟨ht, hr'⟩ := List.forall_mem_append.mp ht
      cases hp with
      | whenFalse h0 hw hn he hb hx hr =>
          have hbody := ihb ht hb
          have hrest := ih hr' hr
          exact ((tidy_word h0 rfl rfl).append
            (tidy_jump hw rfl hn (tidy_body he rfl hbody hx))).append hrest
  | choice _ _ _ ihy ihn ih =>
      obtain ⟨ht, hr'⟩ := List.forall_mem_append.mp ht
      obtain ⟨hf, hs'⟩ := List.forall_mem_append.mp ht
      cases hp with
      | choice hw hn he hy hx hj hn' he' hb hx' hr =>
          have hyes := ihy hf hy
          have hno := ihn hs' hb
          have hrest := ih hr' hr
          refine Block.Tidy.append ?_ hrest
          have hsecond := tidy_body he' rfl hno hx'
          rw [← hn'] at hsecond ⊢
          exact .fork (decode_plain hw (Word.op?_make ..) rfl) rfl (tidy_body he rfl hyes hx) hn
            (decode_plain hj (Word.op?_make ..) rfl) rfl hsecond
  | link ho _ _ _ ihb ihn ih =>
      obtain ⟨ht, hr'⟩ := List.forall_mem_append.mp ht
      obtain ⟨hf, hs'⟩ := List.forall_mem_append.mp ht
      cases hp with
      | link hw hn he hb hx hl hr =>
          have hbody := ihb hf hb
          have hnext := ihn (by rwa [Code.texts, Code.texts, List.append_nil]) hl
          have hrest := ih hr' hr
          refine (tidy_jump hw ?_ hn ((tidy_body he rfl hbody hx).append hnext)).append hrest
          rcases ho with rfl | rfl <;> rfl

theorem wellFormed_toBlock (hc : Built code) {name : Bytes}
    (hsize : (toBlock name code).size < operandLimit)
    (ht : ∀ s ∈ Code.texts code, s.length < operandLimit) : (toBlock name code).WellFormed := by
  obtain ⟨hcode, hx⟩ := Block.holds_append.mp (holds_toBlock name code)
  have hstart : (toBlock name code).words[0]? = some (Word.make .start .null 0) := by
    simp [toBlock]
  have hx := (Block.holds_cons.mp hx).1
  refine Block.Tidy.wellFormed hstart ((Code.placed hsize code hcode).tidy hc ht)
    (decode_plain hx (Word.op?_make ..) rfl) rfl ?_
  simp [toBlock, Block.size, Nat.add_comm]

end Layout

end ConsoleScript
