import ConsoleScript.Proofs.Bytecode.CacheFiles
import ConsoleScript.Proofs.Compile.TextNames
import ConsoleScript.Proofs.Engine.StoredScripts

/-!
Scripts in cache files. A compiled script is written to a file with its source and the names that there
were; an interpreter with the same registrations reads the file, binds the names and executes the block.
The reader refuses names that are not UTF-8 and arrays that are too long, which the writer does not look
at, and then the whole script is lost. A script that is read does what executing its source does, and
stops as exhausted where the source does; of a loop without a count the rounds beyond `Interp.patience`
are left out.
-/

namespace ConsoleScript

open Bytecode Engine

theorem Bytecode.Block.readable_cacheFile (b : Block) (source : Bytes) :
    (b.cacheFile source).Readable ↔ Utf8.isValid b.name = true ∧ Utf8.isValid source = true ∧
      (∀ name ∈ b.idents, Utf8.isValid name = true) ∧ b.size ≤ Cbor.maxCount ∧
      b.idents.length ≤ Cbor.maxCount := by
  have hwords : (b.cacheFile source).words.length = b.size := Array.length_toList
  constructor
  · rintro ⟨hname, hsource, hidents, hsize, hlength⟩
    exact ⟨hname, hsource, hidents, hwords ▸ hsize, hlength⟩
  · rintro ⟨hname, hsource, hidents, hsize, hlength⟩
    exact ⟨hname, hsource, hidents, hwords.symm ▸ hsize, hlength⟩

theorem Bytecode.Block.sized_cacheFile {b : Block} {source : Bytes}
    (hname : b.name.length < Cbor.numberLimit) (hsource : source.length < Cbor.numberLimit)
    (hsize : b.size < Cbor.numberLimit) (hidents : b.idents.length < Cbor.numberLimit)
    (hident : ∀ name ∈ b.idents, name.length < Cbor.numberLimit) : (b.cacheFile source).Sized where
  mark := show CacheFile.fileMark.length < Cbor.numberLimit by decide
  version := show formatVersion < 65536 by decide
  name := hname
  source := hsource
  words := (show b.words.toList.length = b.size from Array.length_toList).trans_lt hsize
  idents := hidents
  ident := hident

variable {s : Interp} {src label : Bytes}

namespace Interp

/-- What the reader of a cache file asks of a script whose source is UTF-8, and its writer does not. -/
structure Caches (s : Interp) (src label : Bytes) : Prop where
  utf8Label : Utf8.isValid label = true
  utf8Names : ∀ name ∈ s.table.names, Utf8.isValid name = true
  words : (s.stored src label).size ≤ Cbor.maxCount
  idents : (s.stored src label).idents.length ≤ Cbor.maxCount

/-- A text of UTF-8 has no other names but of UTF-8, so the stored names are UTF-8 if those were that
there were before. -/
theorem isValid_idents_stored (hsrc : Utf8.isValid src = true) :
    (∀ name ∈ (s.stored src label).idents, Utf8.isValid name = true) ↔
      ∀ name ∈ s.table.names, Utf8.isValid name = true := by
  rw [s.idents_stored]
  constructor
  · intro h name hname
    obtain ⟨added, hadded, -, -⟩ := (s.table.gains_compile src label).appended
    rw [Table.names_append hadded] at h
    exact h name (List.mem_append_left added hname)
  · intro h name hname
    have hnames : ∀ name ∈ s.table.names, Utf8.IsText name := fun name hname =>
      Utf8.isValid_iff.mp (h name hname)
    exact Utf8.isValid_iff.mpr
      (isText_names_compile hnames (Utf8.isValid_iff.mp hsrc) label name hname)

theorem name_stored (src label : Bytes) (s : Interp) : (s.stored src label).name = label := by
  have hname : (compile s.table src label).block.name = label := by
    rw [Compile.compile_block]
    rfl
  exact hname

private theorem readable_stored (hsrc : Utf8.isValid src = true) :
    ((s.stored src label).cacheFile src).Readable ↔ s.Caches src label := by
  rw [Block.readable_cacheFile, isValid_idents_stored hsrc, name_stored]
  constructor
  · rintro ⟨hlabel, -, hnames, hwords, hidents⟩
    exact ⟨hlabel, hnames, hwords, hidents⟩
  · rintro ⟨hlabel, hnames, hwords, hidents⟩
    exact ⟨hlabel, hsrc, hnames, hwords, hidents⟩

private theorem validate_stored (hsize : (s.stored src label).size < operandLimit)
    (htexts : ∀ t ∈ Compile.Code.texts (Compile.program s.table src label).1,
      t.length < operandLimit) : (s.stored src label).validate = .ok () := by
  have hsame (b : Block) (idents : List Bytes) : ({ b with idents } : Block).size = b.size ∧
      ({ b with idents } : Block).validate = b.validate := ⟨rfl, rfl⟩
  rw [stored, (hsame _ _).1, Compile.compile_block] at hsize
  rw [stored, (hsame _ _).2, Compile.compile_block]
  exact (wellFormed_toBlock (Compile.program_makes s.table src label).2 hsize htexts).valid

/-- A stored script is read back exactly if its label and the names before it are UTF-8 and its words and
names are not too many. -/
theorem ofFile_stored {codec : ItemCodec} (hcodec : codec.Lawful) (hsrc : Utf8.isValid src = true)
    (hsize : (s.stored src label).size < operandLimit)
    (htexts : ∀ t ∈ Compile.Code.texts (Compile.program s.table src label).1,
      t.length < operandLimit)
    (hsized : ((s.stored src label).cacheFile src).Sized) :
    (s.Caches src label →
        Block.ofFile ((s.stored src label).toFile src codec) codec = .ok (s.stored src label, src)) ∧
      (¬s.Caches src label →
        Block.ofFile ((s.stored src label).toFile src codec) codec = .error .malformed) := by
  have hvalid := validate_stored hsize htexts
  have hreadable : ((s.stored src label).cacheFile src).Readable ↔ s.Caches src label :=
    readable_stored hsrc
  generalize s.stored src label = b at hsized hvalid hreadable ⊢
  rw [← hreadable]
  unfold Block.ofFile Block.toFile
  rw [CacheFile.decode_item hcodec hsized]
  constructor
  · intro h
    simp only [if_pos h, Block.block_cacheFile hvalid src]
    rfl
  · intro h
    simp only [if_neg h]

end Interp

/-- Cached scripts do what their sources do, with any lawful codec for the files. Take an interpreter
with registrations of a host that does not go by labels of code, and a source of UTF-8 within the limits
of the format. If the label and the registered names are UTF-8, and the words and names of the compiled
script are not more than the reader of cache files accepts, the file that is written is read back;
binding the stored names then succeeds, and executing the stored block ends with what executing the
source ends with, but for labels: the same value or the same fault, the same events after those of
compiling, and the same identifiers. In all other cases the reader finds the file malformed. -/
theorem cached_scripts_run {codec : ItemCodec} (hcodec : codec.Lawful) (h : s.Hosts)
    (hsrc : Utf8.isValid src = true) (hsize : (s.stored src label).size < operandLimit)
    (htexts : ∀ t ∈ Compile.Code.texts (Compile.program s.table src label).1, t.length < operandLimit)
    (hsized : ((s.stored src label).cacheFile src).Sized) :
    (s.Caches src label → ∃ block bound,
        Block.ofFile ((s.stored src label).toFile src codec) codec = .ok (block, src) ∧
        outcome (bindIdents block.idents) s = (.ok true, bound) ∧
        Both Stop.Relabels AnswersRelabel (outcome (execute src) s).1
          (outcome (executeBlock block) bound).1 ∧
        (outcome (execute src) s).2.Relabels (s.compiling src []).events s.events
          (outcome (executeBlock block) bound).2) ∧
      (¬s.Caches src label →
        Block.ofFile ((s.stored src label).toFile src codec) codec = .error .malformed) := by
  obtain ⟨hread, hlost⟩ := Interp.ofFile_stored hcodec hsrc hsize htexts hsized
  refine ⟨fun hcaches => ?_, hlost⟩
  have hbind := s.outcome_bindIdents_stored src label
  have hbound : s.binding (s.stored src label).idents =
      { s with table := (compile s.table src label).table } := congrArg Prod.snd hbind
  obtain ⟨hanswers, hstates⟩ := h.blind.stored_executes src label
  rw [hbound] at hanswers hstates
  exact ⟨_, _, hread hcaches, hbind, hanswers, hstates⟩

/-- A host with an integer variable under a name beyond ASCII. -/
def accentedHost : Interp := (Request.registerInt (utf8 "é") 0 5 9 {} .none).perform .new

/-- A script that sets the variable. -/
theorem cached_scripts_run_accented :
    let src := utf8 "é 7"
    let label := utf8 "boot.cfg"
    (accentedHost.Hosts ∧ Utf8.isValid src = true ∧
        (accentedHost.stored src label).size < operandLimit ∧
        (∀ t ∈ Compile.Code.texts (Compile.program accentedHost.table src label).1,
          t.length < operandLimit) ∧
        ((accentedHost.stored src label).cacheFile src).Sized) ∧
      ∃ block bound,
        Block.ofFile ((accentedHost.stored src label).toFile src) = .ok (block, src) ∧
        outcome (bindIdents block.idents) accentedHost = (.ok true, bound) ∧
        Both Stop.Relabels AnswersRelabel (outcome (execute src) accentedHost).1
          (outcome (executeBlock block) bound).1 ∧
        (outcome (execute src) accentedHost).2.Relabels (accentedHost.compiling src []).events
          accentedHost.events (outcome (executeBlock block) bound).2 := by
  intro src label
  have hhosts : accentedHost.Hosts := .register .new _ trivial
  have hsrc : Utf8.isValid src = true := by decide
  have hlabel : (accentedHost.stored src label).name = label := Interp.name_stored src label _
  obtain ⟨htexts, hwords, hcount, hshort, hnames⟩ :
      (∀ t ∈ Compile.Code.texts (Compile.program accentedHost.table src label).1,
        t.length < operandLimit) ∧
      (accentedHost.stored src label).size ≤ Cbor.maxCount ∧
      (accentedHost.stored src label).idents.length ≤ Cbor.maxCount ∧
      (∀ name ∈ (accentedHost.stored src label).idents, name.length < Cbor.numberLimit) ∧
      ∀ name ∈ accentedHost.table.names, Utf8.isValid name = true := by
    decide +kernel
  have hsize : (accentedHost.stored src label).size < operandLimit :=
    Nat.lt_of_le_of_lt hwords (by decide)
  have hsized : ((accentedHost.stored src label).cacheFile src).Sized :=
    Block.sized_cacheFile (hlabel ▸ by decide) (by decide)
      (Nat.lt_of_le_of_lt hwords (by decide)) (Nat.lt_of_le_of_lt hcount (by decide)) hshort
  have hcaches : accentedHost.Caches src label := ⟨by decide, hnames, hwords, hcount⟩
  exact ⟨⟨hhosts, hsrc, hsize, htexts, hsized⟩,
    (cached_scripts_run Cbor.codec_lawful hhosts hsrc hsize htexts hsized).1 hcaches⟩

end ConsoleScript
