import Mathlib.Data.List.Forall2
import Mathlib.Tactic.Ring
import ConsoleScript.Bytecode.Cbor

/-!
Writing and reading data items. What is relied on for a writer and a reader is a law: an item of definite
lengths that is not nested too deep is read back as it was written, unless one of its arrays or maps has
more items than the reader accepts; then it is refused. The writer has no such limit. The law holds for
the writer and the reader here.
-/

namespace ConsoleScript

namespace Cbor

/-- Numbers in an item are below this one. -/
def numberLimit : Nat := 18446744073709551616

/-- Items without tags and without pieces that nest at most so deep, with lengths that are numbers of the
machine. -/
inductive Plain : Nat → Cbor → Prop
  | uint {d : Nat} (n : UInt64) : Plain d (.uint n)
  | bytes {d : Nat} {s : Bytes} (h : s.length < numberLimit) : Plain d (.bytes s)
  | text {d : Nat} {s : Bytes} (h : s.length < numberLimit) : Plain d (.text [s])
  | array {d : Nat} {items : List Cbor} (hn : items.length < numberLimit)
      (h : ∀ c ∈ items, Plain d c) : Plain (d + 1) (.array items)
  | map {d : Nat} {entries : List (Cbor × Cbor)} (hn : entries.length < numberLimit)
      (hk : ∀ e ∈ entries, Plain d e.1) (hv : ∀ e ∈ entries, Plain d e.2) :
      Plain (d + 1) (.map entries)

/-- No array and no map has more items than are accepted. -/
inductive Counted : Cbor → Prop
  | uint (n : UInt64) : Counted (.uint n)
  | bytes (s : Bytes) : Counted (.bytes s)
  | text (chunks : List Bytes) : Counted (.text chunks)
  | array {items : List Cbor} (hn : items.length ≤ maxCount) (h : ∀ c ∈ items, Counted c) :
      Counted (.array items)
  | map {entries : List (Cbor × Cbor)} (hn : entries.length ≤ maxCount)
      (hk : ∀ e ∈ entries, Counted e.1) (hv : ∀ e ∈ entries, Counted e.2) : Counted (.map entries)

theorem counted_array {items : List Cbor} :
    Counted (.array items) ↔ items.length ≤ maxCount ∧ ∀ c ∈ items, Counted c :=
  ⟨fun | .array hn h => ⟨hn, h⟩, fun h => .array h.1 h.2⟩

theorem counted_map {entries : List (Cbor × Cbor)} : Counted (.map entries) ↔
    entries.length ≤ maxCount ∧ ∀ e ∈ entries, Counted e.1 ∧ Counted e.2 :=
  ⟨fun | .map hn hk hv => ⟨hn, fun e he => ⟨hk e he, hv e he⟩⟩,
    fun h => .map h.1 (fun e he => (h.2 e he).1) fun e he => (h.2 e he).2⟩

end Cbor

/-- What is relied on for a codec. -/
structure ItemCodec.Lawful (codec : ItemCodec) : Prop where
  reads : ∀ c, Cbor.Plain Cbor.maxDepth c → c.Counted → codec.read? (codec.write c) = some c
  refuses : ∀ c, Cbor.Plain Cbor.maxDepth c → ¬c.Counted → codec.read? (codec.write c) = none

namespace Cbor

section Heads

private theorem length_bigEndian (width n : Nat) : (bigEndian width n).length = width := by
  induction width with
  | zero => rfl
  | succ width ih => rw [bigEndian, List.length_cons, ih]

private theorem foldl_bigEndian (width n acc : Nat) :
    (bigEndian width n).foldl (fun n b => n * 256 + b.toNat) acc =
      acc * 256 ^ width + n % 256 ^ width := by
  induction width generalizing acc with
  | zero => simp [bigEndian, Nat.mod_one]
  | succ width ih =>
      have hbyte : (UInt8.ofNat (n / Nat.pow 256 width % 256)).toNat = n / 256 ^ width % 256 := by
        rw [UInt8.toNat_ofNat']
        exact Nat.mod_eq_of_lt (Nat.mod_lt _ (by decide))
      rw [bigEndian, List.foldl_cons, ih, hbyte, Nat.mod_pow_succ, Nat.pow_succ]
      ring

private theorem natOfBytes_bigEndian {width n : Nat} (hn : n < 256 ^ width) :
    natOfBytes (bigEndian width n) = n := by
  rw [natOfBytes, foldl_bigEndian, Nat.mod_eq_of_lt hn]
  omega

/-- The major type is in the first byte of a head. -/
theorem head_first {major : Nat} (hm : major < 7) (n : Nat) :
    ∃ b s, head major n = b :: s ∧ b.toNat / 32 = major := by
  have hbyte {k : Nat} (hk : k < 32) : (UInt8.ofNat (major * 32 + k)).toNat / 32 = major := by
    rw [UInt8.toNat_ofNat']
    omega
  unfold head
  split
  · exact ⟨_, _, rfl, hbyte (by omega)⟩
  split
  · exact ⟨_, _, rfl, hbyte (by omega)⟩
  split
  · exact ⟨_, _, rfl, hbyte (by omega)⟩
  split
  · exact ⟨_, _, rfl, hbyte (by omega)⟩
  · exact ⟨_, _, rfl, hbyte (by omega)⟩

/-- A head is read back: its major type, its number, and what follows. Its information is never that
of an indefinite length. -/
theorem head?_head {major n : Nat} (hm : major < 7) (hn : n < numberLimit) (rest : Bytes) :
    ∃ info, info < 28 ∧ head? (head major n ++ rest) = some (major, info, n, rest) := by
  unfold numberLimit at hn
  have hbyte {k : Nat} (hk : k < 32) : (UInt8.ofNat (major * 32 + k)).toNat = major * 32 + k := by
    rw [UInt8.toNat_ofNat']
    omega
  have hmajor {k : Nat} (hk : k < 32) : (major * 32 + k) / 32 = major := by omega
  have hinfo {k : Nat} (hk : k < 32) : (major * 32 + k) % 32 = k := by omega
  have hwide (width : Nat) (h : n < 256 ^ width) :
      width ≤ (bigEndian width n ++ rest).length ∧
        natOfBytes ((bigEndian width n ++ rest).take width) = n ∧
        (bigEndian width n ++ rest).drop width = rest := by
    have hl := length_bigEndian width n
    refine ⟨by rw [List.length_append, hl]; omega, ?_, ?_⟩
    · rw [List.take_left' hl, natOfBytes_bigEndian h]
    · exact List.drop_left' hl
  have hseven : (major == 7) = false := beq_false_of_ne (by omega)
  unfold head
  split
  · rename_i h
    refine ⟨n, by omega, ?_⟩
    simp only [List.cons_append, List.nil_append, head?, hbyte (show n < 32 by omega),
      hmajor (show n < 32 by omega), hinfo (show n < 32 by omega), h, if_true]
  split
  · rename_i h
    obtain ⟨hl, ht, hd⟩ := hwide 1 (by omega)
    refine ⟨24, by omega, ?_⟩
    simp only [List.cons_append, head?, hbyte (show 24 < 32 by omega),
      hmajor (show 24 < 32 by omega), hinfo (show 24 < 32 by omega), hl, ht, hd, hseven, if_true]
    rfl
  split
  · rename_i h
    obtain ⟨hl, ht, hd⟩ := hwide 2 (by omega)
    refine ⟨25, by omega, ?_⟩
    simp only [List.cons_append, head?, hbyte (show 25 < 32 by omega),
      hmajor (show 25 < 32 by omega), hinfo (show 25 < 32 by omega), hl, ht, hd, if_true]
    rfl
  split
  · rename_i h
    obtain ⟨hl, ht, hd⟩ := hwide 4 (by omega)
    refine ⟨26, by omega, ?_⟩
    simp only [List.cons_append, head?, hbyte (show 26 < 32 by omega),
      hmajor (show 26 < 32 by omega), hinfo (show 26 < 32 by omega), hl, ht, hd, if_true]
    rfl
  · obtain ⟨hl, ht, hd⟩ := hwide 8 (by omega)
    refine ⟨27, by omega, ?_⟩
    simp only [List.cons_append, head?, hbyte (show 27 < 32 by omega),
      hmajor (show 27 < 32 by omega), hinfo (show 27 < 32 by omega), hl, ht, hd, if_true]
    rfl

theorem takeTags_head {major : Nat} (hm : major < 6) (n : Nat) (rest : Bytes) :
    takeTags (head major n ++ rest).length (head major n ++ rest) =
      some ([], head major n ++ rest) := by
  obtain ⟨b, s, hs, hb⟩ := head_first (Nat.lt_succ_of_lt hm) n
  have hne : (b.toNat / 32 != 6) = true := by
    rw [hb]
    exact bne_iff_ne.mpr (by omega)
  rw [hs, List.cons_append, List.length_cons, takeTags]
  simp only [hne, if_true]

end Heads

section Items

/-- What the reader makes of a text, whatever follows it. -/
def Reads (fuel depth : Nat) (s : Bytes) (item : Option Cbor) : Prop :=
  s ≠ [] ∧ ∀ rest, readItem fuel depth (s ++ rest) = item.map (·, rest)

variable {fuel depth : Nat}

theorem head_ne_nil {major : Nat} (hm : major < 7) (n : Nat) : head major n ≠ [] := by
  obtain ⟨b, s, hs, -⟩ := head_first hm n
  rw [hs]
  exact List.cons_ne_nil b s

/-- What the reader makes of what stands behind a head of definite length. -/
def readBehind (read : Bytes → Option (Cbor × Bytes)) (major n : Nat) (rest : Bytes) :
    Option (Cbor × Bytes) :=
  match major with
  | 0 => some (.uint (.ofNat n), rest)
  | 1 => some (.negative (.ofNat n), rest)
  | 2 => if rest.length < n then none else some (.bytes (rest.take n), rest.drop n)
  | 3 => if rest.length < n then none else some (.text [rest.take n], rest.drop n)
  | 4 =>
      if maxCount < n ∨ rest.length < n then none
      else (readMany read n rest).bind fun (xs, r) =>
        if maxCount < xs.length then none else some (.array xs, r)
  | 5 =>
      if maxCount < n ∨ rest.length < n then none
      else (readMany read (2 * n) rest).bind fun (xs, r) =>
        if 2 * maxCount < xs.length then none else (pairUp xs).map fun es => (.map es, r)
  | _ => none

/-- The reader goes by the head, and refuses what is nested too deep. -/
theorem readItem_head {major n : Nat} (hm : major < 6) (hn : n < numberLimit)
    (hdepth : (if major = 4 ∨ major = 5 then depth + 1 else depth) ≤ maxDepth) (rest : Bytes) :
    readItem (fuel + 1) depth (head major n ++ rest) =
      readBehind (readItem fuel (depth + 1)) major n rest := by
  obtain ⟨info, hinfo, hhead⟩ := head?_head (Nat.lt_succ_of_lt hm) hn rest
  have htags := takeTags_head hm n rest
  have hdef : (info == 31) = false := beq_false_of_ne (by omega)
  unfold readItem
  simp only [htags, hhead, Option.bind_eq_bind, Option.bind_some, hdef]
  have hin : ¬maxDepth < if (major == 4 || major == 5) = true then depth + 1 else depth := by
    simpa only [Bool.or_eq_true, beq_iff_eq, Nat.not_lt] using hdepth
  simp only [List.length_nil, Nat.zero_sub, Nat.add_zero, if_neg hin, List.foldr_nil]
  obtain rfl | rfl | rfl | rfl | rfl | rfl :
      major = 0 ∨ major = 1 ∨ major = 2 ∨ major = 3 ∨ major = 4 ∨ major = 5 := by omega
  all_goals simp [readBehind]

private theorem reads_uint (hdepth : depth ≤ maxDepth) (n : UInt64) :
    Reads (fuel + 1) depth (encode (.uint n)) (some (.uint n)) := by
  rw [encode]
  refine ⟨head_ne_nil (by decide) _, fun rest => ?_⟩
  rw [readItem_head (by decide) n.toNat_lt (by simpa using hdepth), readBehind, UInt64.ofNat_toNat]
  rfl

private theorem reads_bytes (hdepth : depth ≤ maxDepth) {s : Bytes} (hs : s.length < numberLimit) :
    Reads (fuel + 1) depth (encode (.bytes s)) (some (.bytes s)) := by
  rw [encode]
  refine ⟨List.append_ne_nil_of_left_ne_nil (head_ne_nil (by decide) _) _, fun rest => ?_⟩
  rw [List.append_assoc, readItem_head (by decide) hs (by simpa using hdepth), readBehind,
    if_neg (by simp), List.take_left, List.drop_left]
  rfl

private theorem reads_text (hdepth : depth ≤ maxDepth) {s : Bytes} (hs : s.length < numberLimit) :
    Reads (fuel + 1) depth (encode (.text [s])) (some (.text [s])) := by
  rw [encode, List.flatten_singleton]
  refine ⟨List.append_ne_nil_of_left_ne_nil (head_ne_nil (by decide) _) _, fun rest => ?_⟩
  rw [List.append_assoc, readItem_head (by decide) hs (by simpa using hdepth), readBehind,
    if_neg (by simp), List.take_left, List.drop_left]
  rfl

/-- All of a list, or nothing if one is missing. -/
def allOf {α : Type} : List (Option α) → Option (List α)
  | [] => some []
  | item :: more => item.bind fun a => (allOf more).map (a :: ·)

private theorem allOf_map_some {α β : Type} (f : α → β) (as : List α) :
    allOf (as.map fun a => some (f a)) = some (as.map f) := by
  induction as with
  | nil => rfl
  | cons a as ih => rw [List.map_cons, allOf, ih]; rfl

private theorem allOf_eq_none {α : Type} {items : List (Option α)} (h : none ∈ items) :
    allOf items = none := by
  induction items with
  | nil => cases h
  | cons item items ih =>
      rw [allOf]
      rcases List.mem_cons.mp h with rfl | h
      · rfl
      · rw [ih h]
        cases item <;> rfl

/-- Items one after another. -/
theorem readMany_flatten {texts : List Bytes} {items : List (Option Cbor)}
    (h : List.Forall₂ (Reads fuel depth) texts items) (rest : Bytes) :
    readMany (readItem fuel depth) texts.length (texts.flatten ++ rest) =
      (allOf items).map (·, rest) := by
  induction h with
  | nil => rfl
  | @cons s item texts items hs _ ih =>
      rw [List.length_cons, readMany, List.flatten_cons, List.append_assoc, hs.2]
      cases item with
      | none => rfl
      | some c =>
          simp only [Option.map_some, Option.bind_eq_bind, Option.bind_some, ih, allOf]
          cases allOf items <;> rfl

theorem length_le_flatten {texts : List Bytes} {items : List (Option Cbor)}
    (h : List.Forall₂ (Reads fuel depth) texts items) : texts.length ≤ texts.flatten.length := by
  induction h with
  | nil => exact Nat.le_refl 0
  | cons hs _ ih =>
      have hs := List.length_pos_iff.mpr hs.1
      rw [List.flatten_cons, List.length_append, List.length_cons]
      omega

open scoped Classical in
/-- What the reader makes of an item that was written. -/
noncomputable def answer (c : Cbor) : Option Cbor := if c.Counted then some c else none

theorem answer_of_counted {c : Cbor} (h : c.Counted) : answer c = some c := if_pos h

theorem answer_of_not_counted {c : Cbor} (h : ¬c.Counted) : answer c = none := if_neg h

theorem allOf_answers {items : List Cbor} (h : ∀ c ∈ items, Counted c) :
    allOf (items.map answer) = some items := by
  rw [List.map_congr_left fun c hc => answer_of_counted (h c hc), allOf_map_some, List.map_id']

theorem allOf_answers_none {items : List Cbor} (h : ¬∀ c ∈ items, Counted c) :
    allOf (items.map answer) = none := by
  obtain ⟨c, hc, hno⟩ := by simpa only [not_forall, exists_prop] using h
  exact allOf_eq_none (answer_of_not_counted hno ▸ List.mem_map_of_mem hc)

theorem reads_many {items : List Cbor}
    (h : ∀ c ∈ items, Reads fuel depth (encode c) (answer c)) :
    List.Forall₂ (Reads fuel depth) (items.map encode) (items.map answer) := by
  rw [List.forall₂_map_left_iff, List.forall₂_map_right_iff, List.forall₂_same]
  exact h

/-- The items of a collection are read, if it is not longer than the reader accepts. The texts of items
are not empty, so that what is left cannot be too short for them. -/
private theorem readMany_answers {items : List Cbor}
    (h : ∀ c ∈ items, Reads fuel depth (encode c) (answer c)) (rest : Bytes) :
    items.length ≤ ((items.map encode).flatten ++ rest).length ∧
      readMany (readItem fuel depth) items.length ((items.map encode).flatten ++ rest) =
        (allOf (items.map answer)).map (·, rest) := by
  have hall := reads_many h
  have hlength := length_le_flatten hall
  have hmany := readMany_flatten hall rest
  rw [List.length_map] at hlength hmany
  exact ⟨List.length_append ▸ Nat.le_add_right_of_le hlength, hmany⟩

/-- An array is read if it has no more items than the reader accepts. -/
theorem reads_array (hdepth : depth < maxDepth) {items : List Cbor}
    (hn : items.length < numberLimit)
    (h : ∀ c ∈ items, Reads fuel (depth + 1) (encode c) (answer c)) :
    Reads (fuel + 1) depth (encode (.array items)) (answer (.array items)) := by
  rw [encode]
  refine ⟨List.append_ne_nil_of_left_ne_nil (head_ne_nil (by decide) _) _, fun rest => ?_⟩
  obtain ⟨hroom, hmany⟩ := readMany_answers h rest
  rw [List.append_assoc, readItem_head (by decide) hn (by simpa using Nat.succ_le_of_lt hdepth),
    readBehind]
  by_cases hc : items.length ≤ maxCount
  · rw [if_neg (not_or.mpr ⟨Nat.not_lt.mpr hc, Nat.not_lt.mpr hroom⟩), hmany]
    by_cases hitems : ∀ c ∈ items, Counted c
    · rw [allOf_answers hitems, answer_of_counted (counted_array.mpr ⟨hc, hitems⟩)]
      exact if_neg (Nat.not_lt.mpr hc)
    · rw [allOf_answers_none hitems,
        answer_of_not_counted fun h => hitems (counted_array.mp h).2]
      rfl
  · rw [if_pos (by omega), answer_of_not_counted fun h => hc (counted_array.mp h).1]
    rfl

/-- The items of entries, in the order in which they are written. -/
def flatEntries (entries : List (Cbor × Cbor)) : List Cbor := entries.flatMap fun e => [e.1, e.2]

private theorem length_flatEntries (entries : List (Cbor × Cbor)) :
    (flatEntries entries).length = 2 * entries.length := by
  induction entries with
  | nil => rfl
  | cons e entries ih =>
      rw [flatEntries, List.flatMap_cons, List.length_append, ← flatEntries, ih, List.length_cons]
      simp only [List.length_cons, List.length_nil]
      omega

private theorem pairUp_flatEntries (entries : List (Cbor × Cbor)) :
    pairUp (flatEntries entries) = some entries := by
  induction entries with
  | nil => rfl
  | cons e entries ih =>
      change (pairUp (flatEntries entries)).map _ = _
      rw [ih]
      rfl

private theorem mem_flatEntries {entries : List (Cbor × Cbor)} {P : Cbor → Prop} :
    (∀ c ∈ flatEntries entries, P c) ↔ ∀ e ∈ entries, P e.1 ∧ P e.2 := by
  simp only [flatEntries, List.mem_flatMap, List.mem_cons, List.not_mem_nil, or_false]
  constructor
  · exact fun h e he => ⟨h _ ⟨e, he, .inl rfl⟩, h _ ⟨e, he, .inr rfl⟩⟩
  · rintro h c ⟨e, he, rfl | rfl⟩
    · exact (h e he).1
    · exact (h e he).2

/-- So is a map. -/
theorem reads_map (hdepth : depth < maxDepth) {entries : List (Cbor × Cbor)}
    (hn : entries.length < numberLimit)
    (h : ∀ e ∈ entries, Reads fuel (depth + 1) (encode e.1) (answer e.1) ∧
      Reads fuel (depth + 1) (encode e.2) (answer e.2)) :
    Reads (fuel + 1) depth (encode (.map entries)) (answer (.map entries)) := by
  have hflat : (entries.flatMap fun e => [encode e.1, encode e.2]) =
      (flatEntries entries).map encode := by
    rw [flatEntries, List.map_flatMap]
    rfl
  rw [encode, hflat]
  refine ⟨List.append_ne_nil_of_left_ne_nil (head_ne_nil (by decide) _) _, fun rest => ?_⟩
  obtain ⟨hroom, hmany⟩ := readMany_answers (mem_flatEntries.mpr h) rest
  rw [length_flatEntries] at hroom hmany
  rw [List.append_assoc, readItem_head (by decide) hn (by simpa using Nat.succ_le_of_lt hdepth),
    readBehind]
  by_cases hc : entries.length ≤ maxCount
  · rw [if_neg (by omega), hmany]
    by_cases hitems : ∀ c ∈ flatEntries entries, Counted c
    · rw [allOf_answers hitems, answer_of_counted (counted_map.mpr ⟨hc, mem_flatEntries.mp hitems⟩)]
      simp only [Option.map_some, Option.bind_some, length_flatEntries]
      rw [if_neg (by omega), pairUp_flatEntries]
      rfl
    · rw [allOf_answers_none hitems,
        answer_of_not_counted fun h => hitems (mem_flatEntries.mpr (counted_map.mp h).2)]
      rfl
  · rw [if_pos (by omega), answer_of_not_counted fun h => hc (counted_map.mp h).1]
    rfl

/-- An item is read back from what was written. The induction is on the item; every level of it takes one
of the levels that the reader has. -/
theorem Plain.reads {d : Nat} {c : Cbor} (h : Plain d c) : ∀ fuel depth, d < fuel →
    depth + d ≤ maxDepth → Reads fuel depth (encode c) (answer c) := by
  have hfuel {d fuel : Nat} (h : d < fuel) : ∃ n, fuel = n + 1 ∧ d ≤ n :=
    ⟨fuel - 1, by omega, by omega⟩
  induction h with
  | uint n =>
      intro fuel depth hd hdepth
      obtain ⟨fuel, rfl, -⟩ := hfuel hd
      rw [answer_of_counted (.uint n)]
      exact reads_uint (by omega) n
  | @bytes d s hs =>
      intro fuel depth hd hdepth
      obtain ⟨fuel, rfl, -⟩ := hfuel hd
      rw [answer_of_counted (.bytes s)]
      exact reads_bytes (by omega) hs
  | @text d s hs =>
      intro fuel depth hd hdepth
      obtain ⟨fuel, rfl, -⟩ := hfuel hd
      rw [answer_of_counted (.text [s])]
      exact reads_text (by omega) hs
  | array hn _ ih =>
      intro fuel depth hd hdepth
      obtain ⟨fuel, rfl, hlt⟩ := hfuel hd
      exact reads_array (by omega) hn fun c hc => ih c hc fuel (depth + 1) hlt (by omega)
  | map hn _ _ ihk ihv =>
      intro fuel depth hd hdepth
      obtain ⟨fuel, rfl, hlt⟩ := hfuel hd
      exact reads_map (by omega) hn fun e he =>
        ⟨ihk e he fuel (depth + 1) hlt (by omega), ihv e he fuel (depth + 1) hlt (by omega)⟩

theorem Plain.read?_encode {c : Cbor} (h : Plain maxDepth c) : read? (encode c) = answer c := by
  have hread := (h.reads (maxDepth + 2) 0 (by omega) (by omega)).2 []
  rw [List.append_nil] at hread
  rw [read?, hread]
  cases answer c <;> rfl

theorem codec_lawful : codec.Lawful :=
  ⟨fun _ h hc => h.read?_encode.trans (answer_of_counted hc),
    fun _ h hc => h.read?_encode.trans (answer_of_not_counted hc)⟩

end Items

end Cbor

end ConsoleScript
