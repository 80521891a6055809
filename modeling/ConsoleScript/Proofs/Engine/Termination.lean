import ConsoleScript.Proofs.Compile.Agreement
import ConsoleScript.Proofs.Engine.LastingSessions

/-!
Running code ends. Nested code is run to a bounded depth; within a run every instruction goes forward;
and a loop of the library counts its rounds, all but the one on a condition. So without that one a run
either ends behind where it began or with a fault, whatever words its block is made of.
-/

namespace ConsoleScript

open Bytecode Engine

variable {p : Prop} {k : Runner}

/-! Where a recursion of the engine counts down, the count is never what ends it: the number of
steps that a run may take, of instructions that are passed over and of letters in a call. -/

section Enough

private theorem skipFrom_enough {b : Block} {start left left' depth pc : Nat}
    (h : b.size < pc + left)
    (h' : b.size < pc + left') :
    skipFrom b start left depth pc = skipFrom b start left' depth pc := by
  -- Behind the last word there is nothing to pass over, however many instructions may be left.
  have hend {pc depth : Nat} (hpc : b.size ≤ pc) (n : Nat) :
      skipFrom b start n depth pc = failAt b.name start .noExit := by
    cases n with
    | zero => rfl
    | succ n => rw [skipFrom, if_pos hpc]
  induction left generalizing left' depth pc with
  | zero => rw [hend (by omega), hend (by omega)]
  | succ left ih =>
      by_cases hpc : b.size ≤ pc
      · rw [hend hpc, hend hpc]
      cases left' with
      | zero => omega
      | succ left' =>
          rw [skipFrom, skipFrom, if_neg hpc, if_neg hpc]
          split
          · rfl
          next i hi =>
            have hsize := ConsoleScript.size_of_decode hi
            have hjump (d : Nat) : skipFrom b start left d (pc + i.size + i.arg.toNat) =
                skipFrom b start left' d (pc + i.size + i.arg.toNat) := ih (by omega) (by omega)
            have hnext (d : Nat) : skipFrom b start left d (pc + i.size) =
                skipFrom b start left' d (pc + i.size) := ih (by omega) (by omega)
            simp only [hjump, hnext]

end Enough

section Letters

open Signature

private theorem yields_addGiven_rest (l : Letter) (st : Shaping) :
    Yields (st.addGiven l) fun st' => st'.rest = st.rest.tail := by
  unfold Shaping.addGiven
  split
  · exact (Yields.any _).bind fun v _ => .pure rfl
  · split <;> exact .pure rfl

private theorem shapeFrom_enough {sig : Signature} (hsig : Accepted 0 sig) {self : Nat}
    {isLookup : Bool}
    {n n' at' : Nat} {st : Shaping} (h : lettersLeft sig.length at' st.rest.length ≤ n)
    (h' : lettersLeft sig.length at' st.rest.length ≤ n') :
    shapeFrom sig.toArray self isLookup n at' st = shapeFrom sig.toArray self isLookup n' at' st := by
  -- Behind the last letter nothing is taken, however many letters may be left.
  have hend {at' : Nat} (hl : sig[at']? = none) (st : Shaping) (n : Nat) :
      shapeFrom sig.toArray self isLookup n at' st = pure st.shaped := by
    cases n with
    | zero => rfl
    | succ n =>
        rw [shapeFrom, List.getElem?_toArray, hl]
  induction n generalizing n' at' st with
  | zero =>
      cases hl : sig[at']? with
      | none => rw [hend hl, hend hl]
      | some l =>
          have hpos := lettersLeft_pos st.rest.length (List.getElem?_eq_some_iff.mp hl).1
          omega
  | succ n ih =>
      cases hl : sig[at']? with
      | none => rw [hend hl, hend hl]
      | some l =>
          obtain ⟨hat, -⟩ := List.getElem?_eq_some_iff.mp hl
          have hpos := lettersLeft_pos st.rest.length hat
          have hnext := lettersLeft_next st.rest.length hat
          cases n' with
          | zero => omega
          | succ n' =>
              have htake {st' : Shaping} (hst : st'.rest = st.rest.tail) :
                  shapeFrom sig.toArray self isLookup n (at' + 1) st' =
                    shapeFrom sig.toArray self isLookup n' (at' + 1) st' := by
                refine ih ?_ ?_ <;> rw [hst, List.length_tail] <;> omega
              have hgiven : (st.addGiven l >>= fun st' =>
                    shapeFrom sig.toArray self isLookup n (at' + 1) st') =
                  st.addGiven l >>= fun st' =>
                    shapeFrom sig.toArray self isLookup n' (at' + 1) st' := by
                refine Engine.ext fun s => ?_
                rw [outcome_bind, outcome_bind]
                cases ho : outcome (st.addGiven l) s with
                | mk o s' =>
                    cases o with
                    | error e => rfl
                    | ok st' => exact congrArg (outcome · s') (htake (yields_addGiven_rest l st s st' s' ho))
              rw [shapeFrom, shapeFrom, List.getElem?_toArray, hl]
              dsimp only
              cases l with
              | self | count | pressed => exact htake rfl
              | joined | all => rfl
              | again m =>
                  obtain ⟨hm, hle⟩ := hsig.again_le hl
                  dsimp only
                  split
                  next hempty =>
                    have hzero : st.rest = [] := List.isEmpty_iff.mp hempty
                    exact htake (by rw [hzero]; rfl)
                  next hrest =>
                    have hargs : st.rest.length ≠ 0 := fun h =>
                      hrest (List.isEmpty_iff.mpr (List.eq_nil_of_length_eq_zero h))
                    have hback : lettersLeft sig.length (at' - m) st.rest.length <
                        lettersLeft sig.length at' st.rest.length :=
                      lettersLeft_back _ hargs hm (by omega)
                    have hfrom {n : Nat} (h : lettersLeft sig.length at' st.rest.length ≤ n + 1) :
                        lettersLeft sig.length (at' - m)
                          { st with again := true : Shaping }.rest.length ≤ n := by
                      dsimp only
                      omega
                    exact ih (hfrom h) (hfrom h')
              | _ => exact hgiven

private theorem shape_enough {sig : Signature} (hsig : Accepted 0 sig) {self : Nat}
    {isLookup : Bool}
    {args : List Value} {n : Nat} (h : (sig.length + 2) * (args.length + 2) ≤ n) :
    shapeFrom sig.toArray self isLookup n 0 { rest := args } = shape sig self isLookup args := by
  have hbound : lettersLeft sig.length 0 args.length ≤ (sig.length + 2) * (args.length + 2) := by
    have hexpand : (sig.length + 2) * (args.length + 2) =
        args.length * (sig.length + 2) + 2 * (sig.length + 2) := by
      rw [Nat.mul_comm, Nat.add_mul]
    unfold lettersLeft
    split <;> omega
  exact shapeFrom_enough hsig (Nat.le_trans hbound h) hbound

end Letters

/-! The interpreters that are meant here: whatever a host does with one that was made without
`while`, it stays without it. -/

section Sessions

/-- An interpreter from which the command `while` is taken. -/
def Interp.omitWhile (s : Interp) : Interp :=
  { s with table := ⟨s.table.idents.filter fun id => !id.role.isWhile⟩ }

theorem Interp.withoutWhile_omitWhile (s : Interp) : s.omitWhile.WithoutWhile := by
  intro i id hid
  have hmem : id ∈ s.table.idents.filter fun id => !id.role.isWhile := Array.mem_of_getElem? hid
  simpa using (Array.mem_filter.mp hmem).2

variable {s : Interp}

theorem Interp.WithoutWhile.perform (hs : s.WithoutWhile) (q : Request) :
    (q.perform s).WithoutWhile :=
  q.keeps_roles (P := fun role => role.isWhile = false) ⟨fun role => by rw [Role.isWhile_emptied], rfl⟩
    (fun role hvar => by cases role <;> first | rfl | cases hvar) (fun _ _ _ _ => rfl) hs

/-- Running code ends, unless there is `while`. Whatever words a block is made of and from whatever
position it is run, an interpreter without `while`, inside other code or outside, comes to the end of
the run: with a position behind the one it began at, or with a fault. Neither the steps of a run nor
those that are passed over below the greatest depth are cut off, nor the letters that are taken for the
arguments of a call, and code that is run later ends just as well. -/
theorem run_ends (hs : s.WithoutWhile) (room : Nat) (b : Block) (pc : Nat) :
    ((∃ v q, (outcome (run room b pc) s).1 = .ok (v, q) ∧ pc < q) ∨
      ∃ f, (outcome (run room b pc) s).1 = .error (.fault f)) ∧
    (∀ left, b.size < pc + left → deeper (runFrom (run room) b left { pc }) = run (room + 1) b pc ∧
      skipFrom b pc left 0 pc = skip b pc) ∧
    (∀ sig self isLookup args n, Signature.Accepted 0 sig → (sig.length + 2) * (args.length + 2) ≤ n →
      shapeFrom sig.toArray self isLookup n 0 { rest := args } = shape sig self isLookup args) ∧
    (outcome (run room b pc) s).2.WithoutWhile := by
  obtain ⟨ht, he⟩ := meets_run (G := .lasting True) room b pc s fun _ => hs
  refine ⟨?_, fun left hleft => ⟨?_, ?_⟩, fun sig self isLookup args n hsig => shape_enough hsig,
    hs.lasts ht⟩
  · have hforward := forward_run room b pc s
    generalize outcome (run room b pc) s = o at he hforward
    obtain ⟨(f | _) | ⟨v, q⟩, s'⟩ := o
    · exact .inr ⟨f, rfl⟩
    · exact absurd rfl (he trivial)
    · exact .inl ⟨v, q, rfl, hforward (v, q) s' rfl⟩
  · have henough : b.size < pc + (b.size + 1) := by omega
    exact congrArg deeper (runFrom_enough (a := { pc }) (forward_run room) hleft henough)
  · exact skipFrom_enough hleft (by omega)

/-- Words that no text is compiled to, in an interpreter that was made without `while` and then has
run a text with an alias that calls itself. -/
theorem run_ends_foreign_words :
    let s := (Request.execute (utf8 "f = [f]; f")).perform Interp.new.omitWhile
    let b : Block := { words := #[0, 0xFFFFFF05, 0x1234, 77, 0x7F, 9] }
    s.WithoutWhile ∧ ((∃ v q, (outcome (run 512 b 1) s).1 = .ok (v, q) ∧ 1 < q) ∨
      ∃ f, (outcome (run 512 b 1) s).1 = .error (.fault f)) := by
  intro s b
  have hs : s.WithoutWhile := (Interp.withoutWhile_omitWhile .new).perform _
  exact ⟨hs, (run_ends hs 512 b 1).1⟩

end Sessions

end ConsoleScript
