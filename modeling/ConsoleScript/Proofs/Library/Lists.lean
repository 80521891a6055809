import ConsoleScript.Proofs.Compile.Quoting
import ConsoleScript.Proofs.Engine.AliasRestoration
import ConsoleScript.Proofs.Syntax.Elements

/-!
The list commands of the library. What they find in a list is what the list is read to: its length,
its elements by number, its parts, and the values that a loop visits. Any texts make a list, if each
is put between quotes.
-/

namespace ConsoleScript

open Engine Library Syntax

section Parts

/-- Parts of a list are read as they are in it. For every list, the elements of a part are those that
were asked for, in number or up to the end; the command that counts elements gives their number; and
the element with a number, whether it is reached by walking over those in front of it or by an
index, is there exactly if there are so many, and is the one that the list is read to. -/
theorem parseList_parts (list : Value) :
    let s := list.toBytes
    (∀ skip count, parseList (sublist s skip (some count)) = ((parseList s).drop skip).take count) ∧
    (∀ skip, parseList (sublist s skip none) = (parseList s).drop skip) ∧
    (∀ k : Runner, apply k .listLength [list] = pure (.int (Int32.ofNat (parseList s).length))) ∧
    (∀ n, ((dropElements n s).bind nextElement).map (·.1.value) = (parseList s)[n]? ∧
      (((dropElements n s).bind nextElement).isSome ↔ n < (parseList s).length)) ∧
    ∀ i : Int32, (Texts.element? s i).map Element.value =
      if 0 ≤ i then (parseList s)[i.toInt.toNat]? else none := by
  intro s
  have hpart (skip : Nat) (count : Option Nat) : parseList (sublist s skip count) =
      count.elim ((parseList s).drop skip) ((parseList s).drop skip).take := by
    rw [parseList, elements_sublist]
    cases count with
    | none => exact List.map_drop
    | some n => exact List.map_take.trans (congrArg (List.take n) List.map_drop)
  have hnth (n : Nat) : ((elements s)[n]?).map Element.value = (parseList s)[n]? :=
    List.getElem?_map.symm
  refine ⟨fun skip count => hpart skip (some count), fun skip => hpart skip none, fun k => ?_,
    fun n => ?_, fun i => ?_⟩
  · rw [parseList, List.length_map]
    rfl
  · have hwalk := nextElement_dropElements n s
    constructor
    · rw [← hnth, ← hwalk, Option.map_map]
      rfl
    · rw [← Option.isSome_map, hwalk, parseList, List.length_map]
      simp
  · rw [Texts.element?]
    split
    next hneg =>
      rw [if_neg (Int32.not_le.mpr hneg)]
      rfl
    next hpos =>
      rw [if_pos (Int32.not_lt.mp hpos)]
      exact hnth i.toInt.toNat

end Parts

section Quoted

variable {x y : Bytes} {xs : List Bytes}

private theorem nextElement_escape (hx : 0x0D ∉ x) (r : Bytes) :
    nextElement (escape x ++ r) = some (⟨x.flatMap escapeByte, true⟩, r) := by
  have hescape : escape x ++ r = quote :: (x.flatMap escapeByte ++ quote :: r) := by simp [escape]
  have hcut : cutBody (x.flatMap escapeByte ++ quote :: r) = (x.flatMap escapeByte, r) := by
    rw [Compile.cutBody_eq, (Compile.closedBody_escape hx).bodyLength, List.take_left, List.drop_left]
    rfl
  have hnext : nextElement (quote :: (x.flatMap escapeByte ++ quote :: r)) =
      some (⟨(cutBody (x.flatMap escapeByte ++ quote :: r)).1, true⟩,
        (cutBody (x.flatMap escapeByte ++ quote :: r)).2) := rfl
  rw [hescape, hnext, hcut]

/-- Texts between quotes, with a blank between neighbours. -/
def quotedList (xs : List Bytes) : Bytes := Bytes.joinWith [0x20] (xs.map escape)

/-- No text leaks into the next one. -/
theorem elements_quotedList (hxs : ∀ x ∈ xs, 0x0D ∉ x) :
    elements (quotedList xs) = xs.map fun x => ⟨x.flatMap escapeByte, true⟩ := by
  induction xs with
  | nil => rfl
  | cons x xs ih =>
      have hx := hxs x List.mem_cons_self
      have ih := ih fun y hy => hxs y (List.mem_cons_of_mem x hy)
      cases xs with
      | nil =>
          have hnext := nextElement_escape hx []
          rw [List.append_nil] at hnext
          exact elements_of_some hnext
      | cons y xs =>
          have hjoin : quotedList (x :: y :: xs) = escape x ++ 0x20 :: quotedList (y :: xs) := by
            change escape x ++ [0x20] ++ quotedList (y :: xs) = _
            rw [List.append_assoc]
            rfl
          have hblank : elements (0x20 :: quotedList (y :: xs)) = elements (quotedList (y :: xs)) := by
            rw [← elements_skipGap, ← elements_skipGap (quotedList (y :: xs))]
            rfl
          rw [hjoin, elements_of_some (nextElement_escape hx _), hblank, ih]
          rfl

private theorem parseList_quotedList (hxs : ∀ x ∈ xs, 0x0D ∉ x) :
    parseList (quotedList xs) = xs := by
  rw [parseList, elements_quotedList hxs, List.map_map]
  refine (List.map_congr_left fun x hx => ?_).trans (List.map_id xs)
  exact Compile.unescape_escape (hxs x hx)

end Quoted

section Loops

/-- Runs a body for one text after the other. An alias is shadowed by the first one, which the others
replace; what it was bound to before comes back at the end, however the body ends. -/
def visit (x : Nat) (body : Engine Unit) : List Bytes → Engine Unit
  | [] => return ()
  | first :: rest => do
      pushArg x (.ofBytes first)
      modifyIdent x clearUnknown
      ensuring (do
        body
        rest.forM fun next => do
          modifyIdent x (·.setValue (.ofBytes next))
          body) (popArg x)

variable {body : Engine Unit}

/-- The rounds behind the first one, for texts that are the values of their rounds. -/
theorem rounds_eq_forM (x : Nat) (value : Nat → Value) (round : Nat) (rest : List Bytes)
    (hround : 0 < round)
    (hvalue : ∀ j (hj : j < rest.length), value (round + j) = .ofBytes rest[j]) :
    rounds x value (fun _ => do body; return false) rest.length round = (do
      rest.forM fun next => do
        modifyIdent x (·.setValue (.ofBytes next))
        body
      return none) := by
  induction rest generalizing round with
  | nil => rfl
  | cons next rest ih =>
      have hnext : value round = .ofBytes next := hvalue 0 (Nat.succ_pos _)
      have ih := ih (round + 1) (Nat.succ_pos round) fun j hj => by
        rw [Nat.add_assoc, Nat.add_comm 1 j]
        exact hvalue (j + 1) (Nat.succ_lt_succ hj)
      rw [List.length_cons, rounds, if_pos hround, hnext]
      simp only [List.forM_eq_forM, List.forM_cons, bind_assoc, pure_bind, Bool.false_eq_true,
        if_false] at ih ⊢
      rw [ih]

private theorem ensuring_map {α β : Type} (f : α → β) (m : Engine α) (cleanup : Engine Unit) :
    ensuring (do return f (← m)) cleanup = (do return f (← ensuring m cleanup)) := by
  refine Engine.ext fun s => ?_
  rw [outcome_ensuring, outcome_bind, outcome_bind, outcome_ensuring]
  rcases outcome m s with ⟨e | a, s'⟩
  all_goals
    dsimp only [outcome_pure]
    rcases outcome cleanup s' with ⟨e' | _, s''⟩ <;> rfl

private theorem iterate_eq_visit (x : Nat) (values : List Bytes) :
    (do let _ ← iterate x values.toArray.size (fun r => .ofBytes (values.toArray.getD r []))
          fun _ => do body; return false) = visit x body values := by
  cases values with
  | nil => rfl
  | cons first rest =>
      let value (r : Nat) : Value := .ofBytes ((first :: rest).toArray.getD r [])
      have hvalue (j : Nat) (hj : j < rest.length) : value (1 + j) = .ofBytes rest[j] := by
        simp [value, Nat.add_comm 1 j, hj]
      have hrest := @rounds_eq_forM body x value 1 rest Nat.one_pos hvalue
      have hrounds : rounds x value (fun _ => do body; return false) (rest.length + 1) 0 = ((do
            body
            rest.forM fun next => do
              modifyIdent x (·.setValue (.ofBytes next))
              body) >>= fun _ => pure none) := by
        rw [rounds, if_neg (Nat.lt_irrefl 0)]
        simp only [bind_assoc, pure_bind, Bool.false_eq_true, if_false]
        rw [hrest]
      have hiterate : iterate x (first :: rest).toArray.size value (fun _ => do body; return false) =
          (do
            pushArg x (.ofBytes first)
            modifyIdent x clearUnknown
            ensuring (rounds x value (fun _ => do body; return false) (rest.length + 1) 0)
              (popArg x)) := rfl
      rw [hiterate, hrounds, ensuring_map]
      simp only [visit, bind_assoc, pure_bind, bind_pure_unit]

/-- A loop over a list visits the elements that the list is read to. -/
theorem eachElement_eq (k : Runner) (named list body : Value) :
    eachElement k [named, list, body] = (do
      match ← loopVariable? named with
      | none => return .null
      | some x =>
          visit x (do let _ ← runValue k body) (parseList list.toBytes)
          return .null) := by
  have hargs : eachElement k [named, list, body] = (do
      match ← loopVariable? named with
      | none => return .null
      | some x =>
          let _ ← listLoop x list.toBytes (do let _ ← runValue k body; return false)
          return .null) := rfl
  rw [hargs]
  congr
  funext found
  cases found with
  | none => rfl
  | some x =>
      dsimp only
      rw [← iterate_eq_visit]
      simp only [bind_assoc, pure_bind]
      rfl

end Loops

section Escaped

/-- Lists can be built by escaping. Texts without a carriage return, each between quotes and with a
blank between neighbours, make a list that is read to exactly these texts. So the commands of the
library find their number, the text with each number, and nothing behind the last one, and a loop
visits exactly these texts in order. -/
theorem quotedList_reads (xs : List Bytes) (hxs : ∀ x ∈ xs, 0x0D ∉ x) (list : Value)
    (hlist : list.toBytes = Bytes.joinWith [0x20] (xs.map escape)) :
    parseList list.toBytes = xs ∧ ∀ k : Runner,
      apply k .listLength [list] = pure (.int (Int32.ofNat xs.length)) ∧
      (∀ place : Value, 0 ≤ place.toInt →
        apply k .listAt [list, place] = pure (.ofBytes ((xs[place.toInt.toInt.toNat]?).getD []))) ∧
      ∀ named body, apply k .loopList [named, list, body] = (do
        match ← loopVariable? named with
        | none => return .null
        | some x =>
            visit x (do let _ ← runValue k body) xs
            return .null) := by
  have hparse : parseList list.toBytes = xs := by
    rw [hlist]
    exact parseList_quotedList hxs
  obtain ⟨-, -, hlength, -, helement⟩ := parseList_parts list
  rw [hparse] at hlength helement
  refine ⟨hparse, fun k => ⟨hlength k, fun place hplace => ?_, fun named body => ?_⟩⟩
  · have helement := helement place.toInt
    rw [if_pos hplace] at helement
    rw [← helement]
    have happly : apply k .listAt [list, place] =
        pure (.ofBytes (Texts.elementAt ⟨list.toBytes, false⟩ [place.toInt])) := rfl
    rw [happly, Texts.elementAt]
    cases Texts.element? list.toBytes place.toInt <;> rfl
  · rw [← hparse]
    exact eachElement_eq k named list body

/-- A blank, nothing at all, marks of strings, comments and brackets, and a line feed. -/
theorem quotedList_reads_marks :
    let xs : List Bytes := [utf8 "a b", [], utf8 "x^\"//[", [0x0A]]
    let list : Value := .ofBytes (utf8 "\"a b\" \"\" \"x^^^\"//[\" \"^n\"")
    ((∀ x ∈ xs, 0x0D ∉ x) ∧ list.toBytes = Bytes.joinWith [0x20] (xs.map escape) ∧
      0 ≤ (Value.int 2).toInt) ∧
    parseList list.toBytes = xs ∧ ∀ k : Runner,
      apply k .listLength [list] = pure (.int 4) ∧
      apply k .listAt [list, .int 2] = pure (.ofBytes (utf8 "x^\"//[")) ∧
      ∀ named body, apply k .loopList [named, list, body] = (do
        match ← loopVariable? named with
        | none => return .null
        | some x =>
            visit x (do let _ ← runValue k body) xs
            return .null) := by
  intro xs list
  have hxs : ∀ x ∈ xs, 0x0D ∉ x := by decide
  have hlist : list.toBytes = Bytes.joinWith [0x20] (xs.map escape) := by decide
  have hplace : 0 ≤ (Value.int 2).toInt := by decide
  obtain ⟨hparse, hcommands⟩ := quotedList_reads xs hxs list hlist
  refine ⟨⟨hxs, hlist, hplace⟩, hparse, fun k => ?_⟩
  obtain ⟨hlength, helement, hloop⟩ := hcommands k
  exact ⟨hlength, helement (.int 2) hplace, hloop⟩

end Escaped

end ConsoleScript
