import ConsoleScript.Bytecode.CacheFile
import ConsoleScript.Proofs.Bytecode.Items

/-!
Reading a cache file back. What is written is read back by every codec that keeps the law, up to two
limits of the reader: an array with more items than it accepts is refused, and so is a text that is not
well-formed UTF-8. The writer has neither limit. A file is therefore read back exactly if its label, its
source and its identifier names are UTF-8 and its words and names are not too many.
-/

namespace ConsoleScript

namespace Bytecode

namespace CacheFile

/-- The numbers and lengths in a file are numbers of the machine. -/
structure Sized (f : CacheFile) : Prop where
  mark : f.mark.length < Cbor.numberLimit
  version : f.version < 65536
  name : f.name.length < Cbor.numberLimit
  source : f.source.length < Cbor.numberLimit
  words : f.words.length < Cbor.numberLimit
  idents : f.idents.length < Cbor.numberLimit
  ident : ∀ n ∈ f.idents, n.length < Cbor.numberLimit

/-- What the reader asks of a file and the writer does not: texts of UTF-8, and no more words and
names than it accepts in an array. -/
structure Readable (f : CacheFile) : Prop where
  name : Utf8.isValid f.name = true
  source : Utf8.isValid f.source = true
  ident : ∀ n ∈ f.idents, Utf8.isValid n = true
  words : f.words.length ≤ Cbor.maxCount
  idents : f.idents.length ≤ Cbor.maxCount

theorem length_entries_le (f : CacheFile) : f.entries.length ≤ 6 := by
  unfold entries
  split <;> split <;> split <;> exact Nat.le_of_ble_eq_true rfl

/-- What holds of every value that a file can have holds of those it has. -/
theorem forall_entries {f : CacheFile} {P : Cbor → Prop} (hmark : P (.bytes f.mark))
    (hversion : P (.uint (UInt64.ofNat f.version))) (hname : P (.text [f.name]))
    (hsource : P (.text [f.source])) (hwords : P (.array (f.words.map wordItem)))
    (hidents : P (.array (f.idents.map fun n => .text [n]))) : ∀ e ∈ f.entries, P e.2 := by
  have hunless {empty : Bool} {e entry : UInt64 × Cbor} (he : e ∈ if empty then [] else [entry])
      (h : P entry.2) : P e.2 := by
    split at he
    · cases he
    · rwa [List.mem_singleton.mp he]
  intro e he
  simp only [entries, List.mem_append] at he
  rcases he with (((he | he) | he) | he) | he
  · rcases List.mem_pair.mp he with rfl | rfl
    · exact hmark
    · exact hversion
  · exact hunless he hname
  · exact hunless he hsource
  · rwa [List.mem_singleton.mp he]
  · exact hunless he hidents

theorem forall_mem_item {f : CacheFile} {P : Cbor → Prop} (hkey : ∀ n, P (.uint n))
    (h : ∀ e ∈ f.entries, P e.2) : ∀ e ∈ f.entries.map fun e => (Cbor.uint e.1, e.2), P e.1 ∧ P e.2 := by
  intro e he
  obtain ⟨entry, hentry, rfl⟩ := List.mem_map.mp he
  exact ⟨hkey entry.1, h entry hentry⟩

/-- The lengths in a file are those of the machine, and its items nest two deep. -/
theorem plain_item {f : CacheFile} (hf : f.Sized) : Cbor.Plain Cbor.maxDepth f.item := by
  have hwords : Cbor.Plain 31 (.array (f.words.map wordItem)) := by
    refine .array (by rw [List.length_map]; exact hf.words) fun c hc => ?_
    obtain ⟨w, -, rfl⟩ := List.mem_map.mp hc
    exact .uint _
  have hidents : Cbor.Plain 31 (.array (f.idents.map fun n => .text [n])) := by
    refine .array (by rw [List.length_map]; exact hf.idents) fun c hc => ?_
    obtain ⟨n, hn, rfl⟩ := List.mem_map.mp hc
    exact .text (hf.ident n hn)
  have hall := forall_mem_item .uint (forall_entries (.bytes hf.mark) (.uint _) (.text hf.name)
    (.text hf.source) hwords hidents)
  have hlength : (f.entries.map fun e => (Cbor.uint e.1, e.2)).length < Cbor.numberLimit := by
    rw [List.length_map]
    exact Nat.lt_of_le_of_lt f.length_entries_le (by decide)
  exact .map hlength (fun e he => (hall e he).1) fun e he => (hall e he).2

/-- A file has no more items than are accepted unless its words or names are too many. -/
theorem counted_item (f : CacheFile) :
    f.item.Counted ↔ f.words.length ≤ Cbor.maxCount ∧ f.idents.length ≤ Cbor.maxCount := by
  have hwords : Cbor.Counted (.array (f.words.map wordItem)) ↔ f.words.length ≤ Cbor.maxCount := by
    rw [Cbor.counted_array, List.length_map]
    refine and_iff_left fun c hc => ?_
    obtain ⟨w, -, rfl⟩ := List.mem_map.mp hc
    exact .uint _
  have hidents : Cbor.Counted (.array (f.idents.map fun n => .text [n])) ↔
      f.idents.length ≤ Cbor.maxCount := by
    rw [Cbor.counted_array, List.length_map]
    refine and_iff_left fun c hc => ?_
    obtain ⟨n, -, rfl⟩ := List.mem_map.mp hc
    exact .text _
  have hcount : (f.entries.map fun e => (Cbor.uint e.1, e.2)).length ≤ Cbor.maxCount := by
    rw [List.length_map]
    exact Nat.le_trans f.length_entries_le (by decide)
  rw [item, Cbor.counted_map, and_iff_right hcount]
  constructor
  · intro h
    replace h (e : UInt64 × Cbor) (he : e ∈ f.entries) : e.2.Counted :=
      (h _ (List.mem_map_of_mem he)).2
    refine ⟨hwords.mp (h (5, _) (by simp [entries])), ?_⟩
    cases hi : f.idents with
    | nil => exact Nat.zero_le _
    | cons n names =>
        rw [← hi]
        exact hidents.mp (h (6, _) (by simp [entries, hi]))
  · exact fun h => forall_mem_item .uint (forall_entries (.bytes _) (.uint _) (.text _) (.text _)
      (hwords.mpr h.1) (hidents.mpr h.2))

/-- Keys that differ fill their fields one after another. -/
theorem setFields_distinct (entries : List (UInt64 × Cbor)) (seen : List UInt64) (f : CacheFile)
    (hseen : ∀ e ∈ entries, e.1 ∉ seen) (hnodup : (entries.map (·.1)).Nodup) :
    setFields seen f (entries.map fun e => (.uint e.1, e.2)) =
      entries.foldlM (fun f e => setField f e.1 e.2) f := by
  induction entries generalizing seen f with
  | nil => rfl
  | cons e entries ih =>
      have hnew : seen.contains e.1 = false := by
        simpa using hseen e (.head _)
      rw [List.map_cons, List.nodup_cons] at hnodup
      have hrest (g : CacheFile) := ih (e.1 :: seen) g
        (fun e' he' h => by
          rcases List.mem_cons.mp h with h | h
          · exact hnodup.1 (h ▸ List.mem_map.mpr ⟨e', he', rfl⟩)
          · exact hseen e' (.tail _ he') h) hnodup.2
      rw [List.map_cons, setFields, List.foldlM_cons]
      simp only [keyOf?, Option.bind_eq_bind, Option.bind_some, hnew, hrest, Bool.false_eq_true,
        if_false]

private theorem nodup_entries (f : CacheFile) : (f.entries.map (·.1)).Nodup := by
  unfold entries
  split <;> split <;> split <;>
  · simp only [List.map_cons, List.map_nil, List.append_nil, List.cons_append, List.nil_append]
    decide

/-- A text is filled in if it is UTF-8. -/
theorem setField_text {k : UInt64} {p : Bytes → CacheFile → CacheFile} {s : Bytes}
    (hset : ∀ g c, setField g k c = (text? c).map fun v => p v g) {g : CacheFile}
    (hempty : s = [] → p s g = g) :
    (if s.isEmpty then [] else [(k, Cbor.text [s])]).foldlM
        (fun f e => setField f e.1 e.2) g =
      if Utf8.isValid s then some (p s g) else none := by
  cases s with
  | nil => exact congrArg some (hempty rfl).symm
  | cons b s =>
      have htext : text? (.text [b :: s]) =
          if Utf8.isValid (b :: s) then some (b :: s) else none := by
        simp [text?, open?, dropSelfDescribed, tagsFit, untag]
      simp only [List.isEmpty_cons, Bool.false_eq_true, if_false, List.foldlM_cons, hset, htext]
      split <;> rfl

/-- The words of a file are read to themselves. -/
theorem list?_words (ws : List UInt32) :
    (list? (number? 4294967296) (.array (ws.map wordItem))).map (·.map UInt32.ofNat) = some ws := by
  have hnumber (w : UInt32) : number? 4294967296 (wordItem w) = some w.toNat := by
    have hw : (UInt64.ofNat w.toNat).toNat = w.toNat := by
      rw [UInt64.toNat_ofNat']
      exact Nat.mod_eq_of_lt (Nat.lt_trans w.toNat_lt (by decide))
    simp only [number?, wordItem, open?, dropSelfDescribed, tagsFit, untag, if_true, hw]
    exact if_pos w.toNat_lt
  have hmany : (ws.map wordItem).mapM (number? 4294967296) = some (ws.map UInt32.toNat) := by
    induction ws with
    | nil => rfl
    | cons w ws ih => simp [hnumber, ih]
  simp only [list?, open?, dropSelfDescribed, tagsFit, untag, if_true, hmany, Option.map_some,
    List.map_map]
  exact congrArg some (List.map_id'' (fun w => UInt32.ofNat_toNat) ws)

/-- The names of a file are read to themselves if they are UTF-8. -/
theorem list?_idents (names : List Bytes) :
    list? text? (.array (names.map fun n => .text [n])) =
      if ∀ n ∈ names, Utf8.isValid n = true then some names else none := by
  have htext (n : Bytes) : text? (.text [n]) = if Utf8.isValid n then some n else none := by
    simp [text?, open?, dropSelfDescribed, tagsFit, untag]
  have hmany : (names.map fun n => Cbor.text [n]).mapM text? =
      if ∀ n ∈ names, Utf8.isValid n = true then some names else none := by
    induction names with
    | nil => rfl
    | cons n names ih =>
        rw [List.map_cons, List.mapM_cons, htext, ih]
        simp only [List.forall_mem_cons]
        by_cases hn : Utf8.isValid n = true
        · by_cases hrest : ∀ m ∈ names, Utf8.isValid m = true
          · rw [if_pos hn, if_pos hrest, if_pos ⟨hn, hrest⟩]
            rfl
          · rw [if_pos hn, if_neg hrest, if_neg fun h : _ ∧ _ => hrest h.2]
            rfl
        · rw [if_neg hn, if_neg fun h : _ ∧ _ => hn h.1]
          rfl
  simp only [list?, open?, dropSelfDescribed, tagsFit, untag, if_true, hmany]

instance (f : CacheFile) : Decidable f.Readable :=
  decidable_of_iff (Utf8.isValid f.name = true ∧ Utf8.isValid f.source = true ∧
      (∀ n ∈ f.idents, Utf8.isValid n = true) ∧ f.words.length ≤ Cbor.maxCount ∧
      f.idents.length ≤ Cbor.maxCount)
    ⟨fun ⟨a, b, c, d, e⟩ => ⟨a, b, c, d, e⟩, fun ⟨a, b, c, d, e⟩ => ⟨a, b, c, d, e⟩⟩

/-- The entries of a file fill the fields that they were made of. -/
theorem setFields_entries {f : CacheFile} (hf : f.Sized) :
    setFields [] {} (f.entries.map fun e => (.uint e.1, e.2)) =
      if Utf8.isValid f.name = true ∧ Utf8.isValid f.source = true ∧
        ∀ n ∈ f.idents, Utf8.isValid n = true then some f else none := by
  have hversion : number? 65536 (.uint (UInt64.ofNat f.version)) = some f.version := by
    have hv : (UInt64.ofNat f.version).toNat = f.version := by
      rw [UInt64.toNat_ofNat']
      exact Nat.mod_eq_of_lt (Nat.lt_trans hf.version (by decide))
    simp only [number?, open?, dropSelfDescribed, tagsFit, untag, if_true, hv]
    exact if_pos hf.version
  have hhead : [((1 : UInt64), Cbor.bytes f.mark), (2, .uint (UInt64.ofNat f.version))].foldlM
      (fun f e => setField f e.1 e.2) ({} : CacheFile) =
        some { mark := f.mark, version := f.version } := by
    have hmark (g : CacheFile) : setField g 1 (.bytes f.mark) = some { g with mark := f.mark } :=
      rfl
    have hset (g : CacheFile) (c : Cbor) : setField g 2 c =
      (number? 65536 c).map fun v => { g with version := v } := rfl
    simp only [List.foldlM_cons, List.foldlM_nil, hmark, hset, hversion]
    rfl
  have hname (g : CacheFile) (hg : g.name = []) :=
    setField_text (k := 3) (p := fun v g => { g with name := v }) (s := f.name)
      (fun _ _ => rfl) (g := g) fun h => by rw [h, ← hg]
  have hsource (g : CacheFile) (hg : g.source = []) :=
    setField_text (k := 4) (p := fun v g => { g with source := v }) (s := f.source)
      (fun _ _ => rfl) (g := g) fun h => by rw [h, ← hg]
  have hwords (g : CacheFile) : setField g 5 (.array (f.words.map wordItem)) =
      some { g with words := f.words } := by
    have hset (c : Cbor) : setField g 5 c = (list? (number? 4294967296) c).map fun v =>
      { g with words := v.map UInt32.ofNat } := rfl
    have hread := list?_words f.words
    obtain ⟨ns, hns, hws⟩ := Option.map_eq_some_iff.mp hread
    rw [hset, hns, Option.map_some, hws]
  have hidents (g : CacheFile) (hg : g.idents = []) :
      (if f.idents.isEmpty then []
        else [((6 : UInt64), Cbor.array (f.idents.map fun n => .text [n]))]).foldlM
          (fun f e => setField f e.1 e.2) g =
        if ∀ n ∈ f.idents, Utf8.isValid n = true then some { g with idents := f.idents }
        else none := by
    have hset (c : Cbor) : setField g 6 c = (list? text? c).map fun v =>
      { g with idents := v } := rfl
    cases hi : f.idents with
    | nil =>
        rw [if_pos (fun n h => absurd h List.not_mem_nil : ∀ n ∈ [], Utf8.isValid n = true)]
        cases g
        cases hg
        rfl
    | cons n names =>
        simp only [List.isEmpty_cons, Bool.false_eq_true, if_false, List.foldlM_cons,
          List.foldlM_nil, hset, list?_idents]
        split <;> rfl
  rw [setFields_distinct _ _ _ (fun _ _ => List.not_mem_nil) f.nodup_entries]
  unfold entries
  simp only [List.foldlM_append, hhead, Option.bind_eq_bind, Option.bind_some]
  rw [hname _ rfl]
  by_cases hn : Utf8.isValid f.name = true
  · rw [if_pos hn, Option.bind_some, hsource _ rfl]
    by_cases hs : Utf8.isValid f.source = true
    · rw [if_pos hs]
      simp only [List.foldlM_cons, List.foldlM_nil, hwords, Option.bind_eq_bind, Option.bind_some,
        Option.pure_def]
      rw [hidents _ rfl]
      simp only [hn, hs, true_and]
    · rw [if_neg hs, if_neg fun h : _ ∧ _ => hs h.2.1]
      rfl
  · rw [if_neg hn, if_neg fun h : _ ∧ _ => hn h.1]
    rfl

/-- A file is read back exactly if it is readable; otherwise the reader finds it malformed. -/
theorem decode_item {codec : ItemCodec} (hcodec : codec.Lawful) {f : CacheFile} (hf : f.Sized) :
    (codec.read? (codec.write f.item)).bind ofCbor? = if f.Readable then some f else none := by
  have hmap (entries : List (Cbor × Cbor)) : ofCbor? (.map entries) = setFields [] {} entries := rfl
  by_cases hc : f.item.Counted
  · obtain ⟨hw, hi⟩ := f.counted_item.mp hc
    rw [hcodec.reads _ (plain_item hf) hc, Option.bind_some, item, hmap, setFields_entries hf]
    exact if_congr ⟨fun h => ⟨h.1, h.2.1, h.2.2, hw, hi⟩, fun h => ⟨h.1, h.2, h.3⟩⟩ rfl rfl
  · rw [hcodec.refuses _ (plain_item hf) hc,
      if_neg fun h => hc (f.counted_item.mpr ⟨h.words, h.idents⟩)]
    rfl

end CacheFile

namespace Block

theorem block_cacheFile {b : Block} (hb : b.validate = .ok ()) (source : Bytes) :
    (b.cacheFile source).block = .ok b := by
  have hsame : ({ name := b.name, words := b.words.toList.toArray, idents := b.idents } : Block) =
      b := by
    rw [Array.toArray_toList]
  unfold cacheFile CacheFile.block
  simp only [hsame, hb]
  rfl

/-- With any lawful codec, a valid block is read back from its file, with the same label, words,
identifier names and source, exactly if its texts are UTF-8 and its words and names are not too many.
Otherwise the file that was written is malformed for the reader. -/
theorem ofFile_toFile {codec : ItemCodec} (hcodec : codec.Lawful) {b : Block}
    (hb : b.validate = .ok ()) {source : Bytes} (hsized : (b.cacheFile source).Sized) :
    ofFile (b.toFile source codec) codec =
      if (b.cacheFile source).Readable then .ok (b, source) else .error .malformed := by
  unfold ofFile toFile
  rw [CacheFile.decode_item hcodec hsized]
  by_cases h : (b.cacheFile source).Readable
  · simp only [if_pos h, block_cacheFile hb source]
    rfl
  · simp only [if_neg h]

/-- A block with a label and an identifier name, and a source beyond ASCII. -/
theorem ofFile_toFile_accented :
    let b : Block := ⟨utf8 "boot.cfg", #[0, 9], [utf8 "arg1"]⟩
    b.validate = .ok () ∧ (b.cacheFile (utf8 "// café")).Sized ∧
      ofFile (b.toFile (utf8 "// café")) = .ok (b, utf8 "// café") := by
  have hvalid : (Block.mk (utf8 "boot.cfg") #[0, 9] [utf8 "arg1"]).validate = .ok () := by
    rfl
  have hsized : ((Block.mk (utf8 "boot.cfg") #[0, 9] [utf8 "arg1"]).cacheFile
      (utf8 "// café")).Sized :=
    ⟨by decide, by decide, by decide, by decide, by decide, by decide, by decide⟩
  exact ⟨hvalid, hsized, (ofFile_toFile Cbor.codec_lawful hvalid hsized).trans (if_pos (by decide))⟩

end Block

end Bytecode

end ConsoleScript
