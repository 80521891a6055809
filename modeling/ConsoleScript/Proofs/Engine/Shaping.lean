import ConsoleScript.Proofs.Engine.Preparing

/-!
Shaping arguments. Whatever the arguments are, the letters of an accepted signature shape them to a
list, and a list that is longer than both the arguments and the letters comes from a repetition
whose last round was not filled.
-/

namespace ConsoleScript

open Bytecode Engine Compile

namespace Engine

/-- The argument of a letter that has one. -/
def Shaping.take (self : Nat) (isLookup : Bool) (st : Shaping) (l : Letter) : Engine Shaping :=
  match l with
  | .self => return st.add (.ident self)
  | .count =>
      return st.add (.int (if isLookup then -1 else Int32.ofNat (st.shaped.length - st.madeUp)))
  | l => st.addGiven l

end Engine

section Letters

variable {self at' : Nat} {isLookup : Bool} {sig : Array Letter} {st : Shaping} {s : Interp}

theorem shapeFrom_letter {l : Letter} (hl : l.isPlain = true) (hsig : sig[at']? = some l)
    (fuel : Nat) (st : Shaping) : shapeFrom sig self isLookup (fuel + 1) at' st = (do
      shapeFrom sig self isLookup fuel (at' + 1) (← st.take self isLookup l)) := by
  rw [shapeFrom, hsig]
  cases l with
  | self | count => exact (pure_bind _ _).symm
  | pressed | joined | all | again => cases hl
  | _ => rfl

theorem shapeFrom_letters {ls : List Letter} (hls : ∀ l ∈ ls, l.isPlain = true)
    (hsig : ls <+: sig.toList.drop at') (fuel : Nat) (st : Shaping) :
    shapeFrom sig self isLookup (fuel + ls.length) at' st = (do
      shapeFrom sig self isLookup fuel (at' + ls.length)
        (← ls.foldlM (Shaping.take self isLookup) st)) := by
  induction ls generalizing at' st with
  | nil => exact (pure_bind _ _).symm
  | cons l ls ih =>
      obtain ⟨hget, hsig'⟩ := Signature.front_cons hsig
      have hlength : at' + (l :: ls).length = at' + 1 + ls.length := by
        rw [List.length_cons]
        omega
      have hfuel : fuel + (l :: ls).length = fuel + ls.length + 1 := rfl
      rw [hfuel, shapeFrom_letter (hls l List.mem_cons_self) hget, List.foldlM_cons, bind_assoc,
        hlength]
      exact bind_congr fun st' => ih (fun l hl => hls l (List.mem_cons_of_mem _ hl)) hsig' st'

/-- The arguments that are left are not too long to be compiled. -/
def Engine.Shaping.Short (st : Shaping) : Prop := ∀ v ∈ st.rest, v.Short

/-- A letter adds an argument, in the place of the next one that is left. -/
theorem quiet_take (hs : s.table.Founded .layout) (hst : st.Short) (l : Letter) :
    Quiet (st.take self isLookup l) s fun st' _ =>
      st'.shaped.length = st.shaped.length + 1 ∧ st'.rest = st.rest.tail := by
  have hadd (v : Value) : (st.add v).shaped.length = st.shaped.length + 1 ∧
      (st.add v).rest = st.rest.tail := ⟨by simp [Shaping.add], rfl⟩
  have hgiven : Quiet (st.addGiven l) s fun st' _ =>
      st'.shaped.length = st.shaped.length + 1 ∧ st'.rest = st.rest.tail := by
    unfold Shaping.addGiven
    split
    next v rest hrest =>
      have hv : v.Short := hst v (hrest ▸ List.mem_cons_self)
      exact (quiet_convertArg hs hv l).bind fun v' _ _ _ => .pure (hadd v')
    next =>
      split
      · exact .pure (hadd _)
      · exact .pure (hadd _)
  cases l with
  | self | count => exact .pure (hadd _)
  | _ => exact hgiven

theorem quiet_takeAll (hs : s.table.Founded .layout) (st : Shaping) (hst : st.Short)
    (ls : List Letter) :
    Quiet (ls.foldlM (Shaping.take self isLookup) st) s fun st' _ =>
      st'.shaped.length = st.shaped.length + ls.length ∧ st'.rest = st.rest.drop ls.length := by
  induction ls generalizing st s with
  | nil => exact .pure ⟨rfl, rfl⟩
  | cons l ls ih =>
      rw [List.foldlM_cons]
      refine (quiet_take hs hst l).bind ?_
      rintro st₁ s₁ hpre ⟨hlen, hrest⟩
      have hst₁ : st₁.Short := fun v hv => hst v (List.mem_of_mem_tail (hrest ▸ hv))
      refine (ih (hs.mono (hpre.idents.extends .layout)) _ hst₁).mono ?_
      rintro st₂ - - ⟨hlen', hrest'⟩
      rw [hlen', hlen, hrest', hrest, List.length_cons, List.drop_tail]
      exact ⟨by omega, rfl⟩

/-- Behind the last letter nothing is added, and a letter that takes everything ends the list. -/
theorem quiet_shapeFrom_last {l : Letter} (hl : l.takesAll = true) (hsig : sig[at']? = some l)
    (fuel : Nat) (st : Shaping) (s : Interp) :
    Quiet (shapeFrom sig self isLookup (fuel + 1) at' st) s fun vs _ =>
      vs.length ≤ max 1 (st.shaped.length + st.rest.length) ∧
        (l = .joined → ∃ text, vs = [.ofBytes text]) := by
  rw [shapeFrom, hsig]
  cases l with
  | joined => exact .pure ⟨Nat.le_max_left .., fun _ => ⟨_, rfl⟩⟩
  | all =>
      refine .pure ⟨?_, nofun⟩
      rw [Shaping.all, List.length_append]
      exact Nat.le_max_right ..
  | _ => cases hl

/-- Repetitions do nothing where no argument is left. -/
theorem shapeFrom_digits {ds : List Nat} (hsig : ds.map Letter.again <+: sig.toList.drop at')
    (fuel : Nat) (hst : st.rest = []) :
    shapeFrom sig self isLookup (fuel + ds.length) at' st =
      shapeFrom sig self isLookup fuel (at' + ds.length) st := by
  induction ds generalizing at' with
  | nil => rfl
  | cons d ds ih =>
      obtain ⟨hget, hsig'⟩ := Signature.front_cons hsig
      have hlength : at' + (d :: ds).length = at' + 1 + ds.length := by
        rw [List.length_cons]
        omega
      have hstep : shapeFrom sig self isLookup (fuel + (d :: ds).length) at' st =
          shapeFrom sig self isLookup (fuel + ds.length) (at' + 1) st := by
        rw [List.length_cons, ← Nat.add_assoc, shapeFrom, hget]
        simp only [hst, List.isEmpty_nil, if_true]
      rw [hstep, ih hsig', hlength]

/-- A repetition goes back over its letters while arguments are left. What each round keeps holds
behind the last one. -/
theorem quiet_shapeFrom_rounds {group : List Letter} {I : Shaping → Interp → Prop}
    {P : List Value → Interp → Prop} (hsig : sig[at']? = some (.again group.length))
    (hgroup : group <+: sig.toList.drop (at' - group.length)) (hat : group.length ≤ at')
    (hpos : 0 < group.length) (hls : ∀ l ∈ group, l.isPlain = true)
    (hround : ∀ st s, I st s → st.rest ≠ [] →
      Quiet (group.foldlM (Shaping.take self isLookup) { st with again := true }) s fun st' s' =>
        st'.rest = st.rest.drop group.length ∧ I st' s')
    (fuel : Nat) (hend : ∀ st s fuel', I st s → st.rest = [] → fuel ≤ fuel' →
      Quiet (shapeFrom sig self isLookup fuel' (at' + 1) st) s P)
    (m : Nat) (hm : st.rest.length ≤ m) (hst : I st s) :
    Quiet (shapeFrom sig self isLookup (m * (group.length + 1) + (fuel + 1)) at' st) s P := by
  have hstop {st : Shaping} {s : Interp} (hrest : st.rest = []) (hst : I st s) (m : Nat) :
      Quiet (shapeFrom sig self isLookup (m * (group.length + 1) + (fuel + 1)) at' st) s P := by
    rw [← Nat.add_assoc, shapeFrom, hsig]
    simp only [hrest, List.isEmpty_nil, if_true]
    exact hend st s _ hst hrest (Nat.le_add_left ..)
  induction m generalizing st s with
  | zero => exact hstop (List.length_eq_zero_iff.mp (Nat.le_zero.mp hm)) hst 0
  | succ m ih =>
      by_cases hrest : st.rest = []
      · exact hstop hrest hst (m + 1)
      have hfuel : (m + 1) * (group.length + 1) + (fuel + 1) =
          m * (group.length + 1) + (fuel + 1) + group.length + 1 := by
        rw [Nat.succ_mul]
        omega
      have hsome : st.rest.isEmpty = false := by simpa using hrest
      have hpositive := List.length_pos_iff.mpr hrest
      rw [hfuel, shapeFrom, hsig]
      simp only [hsome, Bool.false_eq_true, if_false]
      rw [shapeFrom_letters hls hgroup, Nat.sub_add_cancel hat]
      refine (hround st s hst hrest).bind ?_
      rintro st₁ s₁ - ⟨hdrop, hst₁⟩
      refine ih ?_ hst₁
      rw [hdrop, List.length_drop]
      omega

end Letters

section Signatures

variable {self : Nat} {isLookup : Bool} {sig : Signature} {args : List Value} {s : Interp}

/-- The letters with an argument each come first, and leave enough steps for what follows them. -/
theorem shape_letters {pre tail : Signature} (hpre : ∀ l ∈ pre, l.isPlain = true) :
    ∃ fuel, args.length * (pre.length + 1) + tail.length + 2 ≤ fuel ∧
      shape (pre ++ tail) self isLookup args = (do
        shapeFrom (pre ++ tail).toArray self isLookup fuel pre.length
          (← pre.foldlM (Shaping.take self isLookup) { rest := args })) := by
  obtain ⟨fuel, hfuel, hle⟩ : ∃ fuel, ((pre ++ tail).length + 2) * (args.length + 2) =
      fuel + pre.length ∧ args.length * (pre.length + 1) + tail.length + 2 ≤ fuel := by
    have hmul : args.length * (pre.length + 1) ≤ (pre.length + tail.length + 2) * args.length := by
      rw [Nat.mul_comm]
      exact Nat.mul_le_mul_right _ (by omega)
    refine ⟨((pre ++ tail).length + 2) * (args.length + 2) - pre.length, ?_, ?_⟩ <;>
    · rw [List.length_append, Nat.mul_add _ args.length 2]
      omega
  have hprefix : pre <+: (pre ++ tail).toArray.toList.drop 0 := ⟨tail, by simp⟩
  refine ⟨fuel, hle, ?_⟩
  unfold shape
  rw [hfuel, shapeFrom_letters hpre hprefix, Nat.zero_add]

private theorem quiet_shape_letters {pre tail : Signature} {P : List Value → Interp → Prop}
    (hs : s.table.Founded .layout) (hargs : ∀ v ∈ args, v.Short)
    (hpre : ∀ l ∈ pre, l.isPlain = true)
    (h : ∀ fuel st s, args.length * (pre.length + 1) + tail.length + 2 ≤ fuel →
      s.table.Founded .layout → st.Short → st.shaped.length = pre.length →
      st.rest = args.drop pre.length →
      Quiet (shapeFrom (pre ++ tail).toArray self isLookup fuel pre.length st) s P) :
    Quiet (shape (pre ++ tail) self isLookup args) s P := by
  obtain ⟨fuel, hle, hshape⟩ : ∃ fuel, args.length * (pre.length + 1) + tail.length + 2 ≤ fuel ∧
      shape (pre ++ tail) self isLookup args = (do
        shapeFrom (pre ++ tail).toArray self isLookup fuel pre.length
          (← pre.foldlM (Shaping.take self isLookup) { rest := args })) := shape_letters hpre
  rw [hshape]
  refine (quiet_takeAll hs { rest := args } hargs pre).bind ?_
  rintro st s' hprep ⟨hlen, hrest⟩
  refine h fuel st s' hle (hs.mono (hprep.idents.extends .layout)) (fun v hv => hargs v ?_)
    (by simpa using hlen) hrest
  exact List.mem_of_mem_drop (hrest ▸ hv)

/-- The arguments that a command gets: no more than there are or than its letters have, but for a
repetition whose last round is not filled. -/
theorem quiet_shape (self : Nat) (isLookup : Bool) (hsig : sig.Built) (hs : s.table.Founded .layout)
    (hargs : ∀ v ∈ args, v.Short) :
    Quiet (shape sig self isLookup args) s fun vs _ =>
      vs.length ≤ max (max 1 sig.slots) (args.length + (sig.groupSize - 1)) ∧
        (.joined ∈ sig → ∃ text, vs = [.ofBytes text]) := by
  cases hsig with
  | fixed hp hl =>
      rw [← List.append_nil sig]
      refine quiet_shape_letters hs hargs hp fun fuel st s' hfuel _ _ hlen _ => ?_
      obtain ⟨fuel, rfl⟩ : ∃ k, fuel = k + 1 := ⟨fuel - 1, by omega⟩
      have hnone : (sig ++ []).toArray[sig.length]? = none := by simp
      rw [shapeFrom, hnone]
      refine .pure ⟨?_, fun h => absurd h (by simpa using not_mem_of_plain hp)⟩
      rw [List.append_nil, slots_of_plain hp, hlen]
      omega
  | @pressed pre hp hl =>
      refine quiet_shape_letters hs hargs hp fun fuel st s' hfuel _ _ hlen _ => ?_
      obtain ⟨fuel, rfl⟩ : ∃ k, fuel = k + 1 + 1 := ⟨fuel - 2, by omega⟩
      have hsome : (pre ++ [Letter.pressed]).toArray[pre.length]? = some .pressed := by simp
      have hnone : (pre ++ [Letter.pressed]).toArray[pre.length + 1]? = none := by simp
      rw [shapeFrom, hsome]
      dsimp only
      rw [shapeFrom, hnone]
      have hslots : Signature.slots (pre ++ [.pressed]) = pre.length + 1 := by
        rw [Signature.slots, List.countP_append]
        exact congrArg (· + 1) (slots_of_plain hp)
      refine .pure ⟨?_, fun h => absurd h (by simpa using not_mem_of_plain hp)⟩
      rw [hslots, Shaping.addMadeUp, Shaping.add]
      simp only [List.length_append, List.length_singleton, hlen]
      omega
  | @rest pre l hp hl =>
      refine quiet_shape_letters hs hargs hp fun fuel st s' hfuel _ _ hlen hrest => ?_
      obtain ⟨fuel, rfl⟩ : ∃ k, fuel = k + 1 := ⟨fuel - 1, by omega⟩
      refine (quiet_shapeFrom_last hl (by simp) fuel st s').mono fun vs _ _ h => ?_
      obtain ⟨hle, hjoined⟩ := h
      rw [hlen, hrest, List.length_drop] at hle
      refine ⟨?_, fun h => hjoined ?_⟩
      · have hslots : pre.length ≤ Signature.slots (pre ++ [l]) := by
          rw [Signature.slots, List.countP_append, ← slots_of_plain hp]
          exact Nat.le_add_right ..
        omega
      · simpa [not_mem_of_plain hp, eq_comm] using h
  | @again pre g ds l hp hpos hmax hg hl =>
      have hslots : pre.length ≤ Signature.slots (pre ++ .again g :: ds.map .again ++ [l]) := by
        rw [Signature.slots, List.append_assoc, List.countP_append, ← slots_of_plain hp]
        exact Nat.le_add_right ..
      have hgroup : Signature.groupSize (pre ++ .again g :: ds.map .again ++ [l]) = g := by
        rw [List.append_assoc]
        exact groupSize_plain hp _
      have hjoined : Letter.joined ∈ pre ++ Letter.again g :: ds.map .again ++ [l] → l = .joined := by
        intro h
        simpa [not_mem_of_plain hp, eq_comm] using h
      have hsize : g = (pre.drop (pre.length - g)).length := by
        rw [List.length_drop]
        omega
      have hget : (pre ++ Letter.again g :: ds.map .again ++ [l]).toArray[pre.length]? =
          some (.again g) := by simp
      have hdrop : pre.drop (pre.length - g) <+: (pre ++ Letter.again g :: ds.map .again ++
          [l]).toArray.toList.drop (pre.length - g) :=
        ⟨Letter.again g :: ds.map .again ++ [l], by
          rw [List.append_assoc, List.drop_append_of_le_length (Nat.sub_le ..)]⟩
      have hdigits : ds.map Letter.again <+: (pre ++ Letter.again g :: ds.map .again ++
          [l]).toArray.toList.drop (pre.length + 1) := ⟨[l], by simp⟩
      have hlast : (pre ++ Letter.again g :: ds.map .again ++
          [l]).toArray[pre.length + 1 + ds.length]? = some l := by
        have hat : pre.length + 1 + ds.length =
            (pre ++ Letter.again g :: ds.map .again).length := by
          simp [Nat.add_comm, Nat.add_left_comm]
        rw [hat, List.getElem?_toArray, List.getElem?_concat_length]
      rw [hgroup, List.append_assoc]
      refine quiet_shape_letters hs hargs hp fun fuel st s' hfuel hs' hst hlen hrest => ?_
      rw [← List.append_assoc]
      generalize (pre ++ Letter.again g :: ds.map .again ++ [l]).toArray = sig at *
      generalize hmost : max (max 1 (Signature.slots _)) (args.length + (g - 1)) = most at *
      -- A round adds as many arguments as it has letters, at least one of them for one that was left.
      let I (st : Shaping) (s : Interp) : Prop := s.table.Founded .layout ∧ st.Short ∧
        st.shaped.length + st.rest.length ≤ most ∧
        (st.rest ≠ [] → st.shaped.length + st.rest.length + (g - 1) ≤ most)
      have hround (st : Shaping) (s : Interp) (h : I st s) (hne : st.rest ≠ []) :
          Quiet ((pre.drop (pre.length - g)).foldlM (Shaping.take self isLookup)
            { st with again := true }) s fun st' s' =>
              st'.rest = st.rest.drop (pre.drop (pre.length - g)).length ∧ I st' s' := by
        obtain ⟨hs, hst, -, hle⟩ := h
        have hle := hle hne
        refine (quiet_takeAll hs { st with again := true } hst _).mono ?_
        rintro st' s' hprep ⟨hlen, hrest⟩
        rw [← hsize] at hlen hrest ⊢
        have hpositive := List.length_pos_iff.mpr hne
        have hcount := congrArg List.length hrest
        rw [List.length_drop] at hcount
        dsimp only at hlen hcount
        refine ⟨hrest, hs.mono (hprep.idents.extends .layout), fun v hv => hst v ?_, by omega,
          fun hne' => ?_⟩
        · exact List.mem_of_mem_drop (hrest ▸ hv)
        · have := List.length_pos_iff.mpr hne'
          omega
      obtain ⟨fuel, rfl⟩ : ∃ k, fuel = args.length * ((pre.drop (pre.length - g)).length + 1) +
          (k + 1 + ds.length + 1) := by
        have hmul : args.length * (g + 1) ≤ args.length * (pre.length + 1) :=
          Nat.mul_le_mul_left _ (by omega)
        rw [← hsize]
        refine ⟨fuel - args.length * (g + 1) - (ds.length + 2), ?_⟩
        simp only [List.length_append, List.length_cons, List.length_map, List.length_nil] at hfuel
        omega
      have hcount := congrArg List.length hrest
      rw [List.length_drop] at hcount
      refine quiet_shapeFrom_rounds (I := I) (hsize ▸ hget) (hsize ▸ hdrop) (hsize ▸ hg)
        (hsize ▸ hpos) (fun l hl => hp l (List.mem_of_mem_drop hl)) hround (fuel + 1 + ds.length)
        (fun st s fuel' h hrest hle => ?_) args.length (by omega) ?_
      · obtain ⟨k, rfl⟩ : ∃ k, fuel' = k + 1 + ds.length := ⟨fuel' - 1 - ds.length, by omega⟩
        rw [shapeFrom_digits hdigits (k + 1) hrest]
        refine (quiet_shapeFrom_last hl hlast k st s).mono fun vs _ _ h' => ?_
        obtain ⟨-, -, hbound, -⟩ := h
        exact ⟨by omega, fun hj => h'.2 (hjoined hj)⟩
      · refine ⟨hs', hst, by omega, fun hne => ?_⟩
        have := List.length_pos_iff.mpr hne
        omega

end Signatures

end ConsoleScript
