import ConsoleScript.Proofs.Compile.Thinning

/-!
Two compilers side by side, at a text and at a thinner one. What the second step gives is what the
first one gives, and their places in the texts stay level, as long as no block literal with a
comment in it has stood for a name in the first text: the name it stands for is the source as it is.
-/

namespace ConsoleScript.Compile

open Bytecode Syntax

/-- No block literal that stood for a name holds a comment that its text would do without. -/
def State.NamesClear (s : State) : Prop := ∀ name ∈ s.literalNames, blockText .plain name = name

theorem State.Gains.namesClear {s s' : State} (h : s.Gains s') (hs : s'.NamesClear) :
    s.NamesClear :=
  fun name hm => hs name (h.literalNames.mem hm)

/-- From states that a relation holds of, the second step gives what the first one gives, and
another relation holds at the end, provided all names that the first one took from block literals
are clear. -/
structure Agree {α : Type} (pre : State → State → Prop) (m₁ m₂ : CompileM α)
    (post : α → State → State → Prop) : Prop where
  gains : ∀ s : State, s.Gains (m₁.run s).2
  follows : ∀ s₁ s₂ : State, pre s₁ s₂ → (m₁.run s₁).2.NamesClear →
    (m₂.run s₂).1 = (m₁.run s₁).1 ∧ post (m₁.run s₁).1 (m₁.run s₁).2 (m₂.run s₂).2

section Rules

variable {α β : Type} {m₁ m₂ : CompileM α} {pre pre' : State → State → Prop}
  {post post' : α → State → State → Prop}

theorem Agree.pure {a : α} (h : ∀ s₁ s₂, pre s₁ s₂ → post a s₁ s₂) :
    Agree pre (Pure.pure a) (Pure.pure a) post :=
  ⟨fun s => .refl s, fun s₁ s₂ hp _ => ⟨rfl, h s₁ s₂ hp⟩⟩

theorem Agree.bind {mid : β → State → State → Prop} {m₁ m₂ : CompileM β} {f₁ f₂ : β → CompileM α}
    (hm : Agree pre m₁ m₂ mid) (hf : ∀ b, Agree (mid b) (f₁ b) (f₂ b) post) :
    Agree pre (m₁ >>= f₁) (m₂ >>= f₂) post := by
  refine ⟨fun s => (hm.gains s).trans ((hf _).gains _), fun s₁ s₂ hp hclear => ?_⟩
  -- The names stay clear to the end of the whole, so they are clear in the middle.
  obtain ⟨hb, hmid⟩ := hm.follows s₁ s₂ hp (((hf _).gains _).namesClear hclear)
  have hrun : (m₂ >>= f₂).run s₂ = (f₂ (m₁.run s₁).1).run (m₂.run s₂).2 := by
    rw [← hb]
    rfl
  rw [hrun]
  exact (hf _).follows _ _ hmid hclear

theorem Agree.mono (h : Agree pre m₁ m₂ post) (hpost : ∀ a s₁ s₂, post a s₁ s₂ → post' a s₁ s₂) :
    Agree pre m₁ m₂ post' :=
  ⟨h.gains, fun s₁ s₂ hp hclear =>
    have ⟨ha, hs⟩ := h.follows s₁ s₂ hp hclear
    ⟨ha, hpost _ _ _ hs⟩⟩

theorem Agree.restrict (h : Agree pre m₁ m₂ post) (hpre : ∀ s₁ s₂, pre' s₁ s₂ → pre s₁ s₂) :
    Agree pre' m₁ m₂ post :=
  ⟨h.gains, fun s₁ s₂ hp => h.follows s₁ s₂ (hpre s₁ s₂ hp)⟩

theorem Agree.ite {c : Prop} [Decidable c] {m₁' m₂' : CompileM α} (h : c → Agree pre m₁ m₂ post)
    (h' : ¬c → Agree pre m₁' m₂' post) :
    Agree pre (if c then m₁ else m₁') (if c then m₂ else m₂') post := by
  split
  · exact h ‹_›
  · exact h' ‹_›

theorem Agree.vacuous (hg : ∀ s : State, s.Gains (m₁.run s).2) (h : ∀ s₁ s₂, ¬pre s₁ s₂) :
    Agree pre m₁ m₂ post :=
  ⟨hg, fun s₁ s₂ hp => absurd hp (h s₁ s₂)⟩

theorem Agree.onCursor {f₁ f₂ : Cursor → CompileM α}
    (h : ∀ c₁ c₂, Agree (fun s₁ s₂ => pre s₁ s₂ ∧ s₁.cursor = c₁ ∧ s₂.cursor = c₂)
      (f₁ c₁) (f₂ c₂) post) :
    Agree pre (cursor >>= f₁) (cursor >>= f₂) post :=
  ⟨fun s => (h s.cursor s.cursor).gains s,
    fun s₁ s₂ hp => (h s₁.cursor s₂.cursor).follows s₁ s₂ ⟨hp, rfl, rfl⟩⟩

theorem Agree.onRead (g : Cursor → β) {f₁ f₂ : β → CompileM α}
    (hg : ∀ s₁ s₂, pre s₁ s₂ → g s₂.cursor = g s₁.cursor)
    (h : ∀ b, Agree (fun s₁ s₂ => pre s₁ s₂ ∧ g s₁.cursor = b) (f₁ b) (f₂ b) post) :
    Agree pre (cursor >>= fun c => f₁ (g c)) (cursor >>= fun c => f₂ (g c)) post := by
  refine ⟨fun s => (h (g s.cursor)).gains s, fun s₁ s₂ hpre hclear => ?_⟩
  have hrun : (cursor >>= fun c => f₂ (g c)).run s₂ = (f₂ (g s₁.cursor)).run s₂ := by
    rw [← hg s₁ s₂ hpre]
    rfl
  rw [hrun]
  exact (h (g s₁.cursor)).follows s₁ s₂ ⟨hpre, rfl⟩ hclear

theorem Agree.onTest {p : Cursor → Bool} {m₁' m₂' : CompileM α}
    (hp : ∀ s₁ s₂, pre s₁ s₂ → p s₂.cursor = p s₁.cursor)
    (h : Agree (fun s₁ s₂ => pre s₁ s₂ ∧ p s₁.cursor = true) m₁ m₂ post)
    (h' : Agree (fun s₁ s₂ => pre s₁ s₂ ∧ p s₁.cursor = false) m₁' m₂' post) :
    Agree pre (cursor >>= fun c => if p c then m₁ else m₁')
      (cursor >>= fun c => if p c then m₂ else m₂') post := by
  have hread : ∀ b : Bool, Agree (fun s₁ s₂ => pre s₁ s₂ ∧ p s₁.cursor = b)
      (if b then m₁ else m₁') (if b then m₂ else m₂') post
    | true => .ite (fun _ => h) fun hn => absurd rfl hn
    | false => .ite nofun fun _ => h'
  exact (Agree.onRead p hp hread :)

/-- Two steps may look at the state if they only look at the table, and that is the same. -/
theorem Agree.onTable {f₁ f₂ : State → CompileM α}
    (ht : ∀ s₁ s₂, pre s₁ s₂ → s₂.table = s₁.table)
    (hf : ∀ s s' : State, s'.table = s.table → f₂ s' = f₂ s)
    (h : ∀ s, Agree pre (f₁ s) (f₂ s) post) : Agree pre (get >>= f₁) (get >>= f₂) post := by
  refine ⟨fun s => (h s).gains s, fun s₁ s₂ hp hclear => ?_⟩
  have hrun : (get >>= f₂ : CompileM α).run s₂ = (f₂ s₁).run s₂ := by
    rw [← hf s₁ s₂ (ht s₁ s₂ hp)]
    rfl
  rw [hrun]
  exact (h s₁).follows s₁ s₂ hp hclear

end Rules

/-- A step ends with the same names as it begins with, where a text is left. -/
structure State.Lands (s s' : State) (rest : Bytes) : Prop where
  table : s'.table = s.table
  literalNames : s'.literalNames = s.literalNames
  rest : s'.cursor.rest = rest

theorem State.Lands.trans {s s' s'' : State} {r r' : Bytes} (h : s.Lands s' r)
    (h' : s'.Lands s'' r') : s.Lands s'' r' :=
  ⟨h'.table.trans h.table, h'.literalNames.trans h.literalNames, h'.rest⟩

/-- Two compilers with the same table are level: what is left for the second one is thinner than what
is left for the first one. No splice is ahead, and what is left is shorter than two bounds. -/
structure Near (n₁ n₂ : Nat) (s₁ s₂ : State) : Prop where
  table : s₂.table = s₁.table
  thins : Thins s₁.cursor.rest s₂.cursor.rest
  unspliced : code '@' ∉ s₁.cursor.rest
  short₁ : s₁.cursor.rest.length < n₁
  short₂ : s₂.cursor.rest.length < n₂

/-- A text without splices that is shorter than two bounds. -/
structure Short (n₁ n₂ : Nat) (text : Bytes) : Prop where
  unspliced : code '@' ∉ text
  short₁ : text.length < n₁
  short₂ : text.length < n₂

/-- What is left begins with what ends a statement. -/
def AtEnd (s : Bytes) : Prop :=
  ∀ c ∈ s.head?, c = code ';' ∨ c = 0x0A ∨ c = code ')' ∨ c = code ']'

/-- Behind the arguments that are taken, more may follow only where the statement does not end. -/
structure Onward (n₁ n₂ : Nat) (more : Bool) (s₁ s₂ : State) : Prop where
  near : Near n₁ n₂ s₁ s₂
  atEnd : more = false → AtEnd s₁.cursor.rest

/-- Behind an argument less is left, and where there is none the statement ends. -/
def Passed {α : Type} (n₁ n₂ : Nat) : Option α → State → State → Prop
  | none => Onward n₁ n₂ false
  | some _ => Near (n₁ - 1) (n₂ - 1)

section Near

variable {n₁ n₂ : Nat} {s₁ s₂ : State} (h : Near n₁ n₂ s₁ s₂)
include h

theorem Near.mono {m₁ m₂ : Nat} (h₁ : n₁ ≤ m₁) (h₂ : n₂ ≤ m₂) : Near m₁ m₂ s₁ s₂ :=
  { h with
    short₁ := Nat.lt_of_lt_of_le h.short₁ h₁
    short₂ := Nat.lt_of_lt_of_le h.short₂ h₂ }

theorem Near.tighten {r₁ r₂ : Bytes} (h₁ : s₁.cursor.rest = r₁) (h₂ : s₂.cursor.rest = r₂) :
    Near (min n₁ (r₁.length + 1)) (min n₂ (r₂.length + 1)) s₁ s₂ := by
  subst h₁ h₂
  have := h.short₁
  have := h.short₂
  exact { h with short₁ := by omega, short₂ := by omega }

theorem Near.short_nil : Short n₁ n₂ [] :=
  ⟨nofun, Nat.lt_of_le_of_lt (Nat.zero_le _) h.short₁, Nat.lt_of_le_of_lt (Nat.zero_le _) h.short₂⟩

theorem Near.lands {m₁ m₂ : Nat} {s₁' s₂' : State} {u v : Bytes} (h₁ : s₁.Lands s₁' u)
    (h₂ : s₂.Lands s₂' v) (ht : Thins u v) (hu : u.Sublist s₁.cursor.rest) (hn₁ : u.length < m₁)
    (hn₂ : v.length < m₂) : Near m₁ m₂ s₁' s₂' where
  table := by rw [h₁.table, h₂.table, h.table]
  thins := by rw [h₁.rest, h₂.rest]; exact ht
  unspliced := by rw [h₁.rest]; exact fun hm => h.unspliced (hu.mem hm)
  short₁ := by rw [h₁.rest]; exact hn₁
  short₂ := by rw [h₂.rest]; exact hn₂

theorem Near.advance {k : Nat} {m₁ m₂ : Nat} {s₁' s₂' : State} (h₁ : s₁.Lands s₁' (s₁.cursor.rest.drop k))
    (h₂ : s₂.Lands s₂' (s₂.cursor.rest.drop k)) (hf : SameFront k s₁.cursor.rest s₂.cursor.rest)
    (hn₁ : s₁.cursor.rest.length - k < m₁) (hn₂ : s₂.cursor.rest.length - k < m₂) :
    Near m₁ m₂ s₁' s₂' :=
  h.lands h₁ h₂ hf.drop (List.drop_sublist k _) (by rwa [List.length_drop])
    (by rwa [List.length_drop])

end Near

section Steps

variable {n₁ n₂ : Nat}

theorem lands_advance (s : State) (k : Nat) :
    s.Lands ((advance k).run s).2 (s.cursor.rest.drop k) := ⟨rfl, rfl, rfl⟩

private theorem lands_cutWord (s : State) :
    s.Lands (cutWord.run s).2 (s.cursor.rest.drop (wordLength s.cursor.rest)) := ⟨rfl, rfl, rfl⟩

theorem rest_skipTo (p : UInt8 → Bool) (c : Cursor) :
    (c.skipTo p).rest = c.rest.dropWhile (!p ·) :=
  List.append_cancel_left ((List.prefix_iff_eq_append.mp (List.takeWhile_prefix (!p ·))).trans
    List.takeWhile_append_dropWhile.symm)

theorem lands_warn (text : Bytes) (s : State) :
    s.Lands ((warn text).run s).2 s.cursor.rest := by
  have hrun : (warn text).run s = StateT.run (m := Id)
      (if s.cursor.name.isEmpty then note text
      else note (s.cursor.name ++ utf8 ":" ++ Bytes.ofNat s.cursor.line ++ utf8 ": " ++ text))
      s := rfl
  rw [hrun]
  split <;> exact ⟨rfl, rfl, rfl⟩

theorem cutBody_eq (s : Bytes) : cutBody s = (s.take (bodyLength s),
    if Bytes.byteAt (s.drop (bodyLength s)) 0 == quote then (s.drop (bodyLength s)).drop 1
    else s.drop (bodyLength s)) := by
  unfold cutBody
  cases h : s.drop (bodyLength s) <;> simp only [h] <;> rfl

theorem cutBody_isPrefix (s : Bytes) : (cutBody s).1 <+: s := by
  rw [cutBody_eq]
  exact List.take_prefix _ s

private theorem cutBody_isSuffix (s : Bytes) : (cutBody s).2 <:+ s := by
  rw [cutBody_eq]
  dsimp only
  split
  · exact (List.drop_suffix 1 _).trans (List.drop_suffix _ s)
  · exact List.drop_suffix _ s

theorem run_cutStringBody (s : State) : (cutStringBody.run s).1 = (cutBody s.cursor.rest).1 ∧
    s.Lands (cutStringBody.run s).2 (cutBody s.cursor.rest).2 := by
  have hrun : cutStringBody.run s = StateT.run (m := Id) (do
      if Bytes.byteAt (s.cursor.rest.drop (bodyLength s.cursor.rest)) 0 == quote then advance 1
      return s.cursor.rest.take (bodyLength s.cursor.rest))
      { s with cursor := s.cursor.advance (bodyLength s.cursor.rest) } := rfl
  rw [hrun, cutBody_eq]
  dsimp only
  split <;> exact ⟨rfl, rfl, rfl, rfl⟩

theorem agree_intern (name : Bytes) :
    Agree (Near n₁ n₂) (intern name) (intern name) fun _ => Near n₁ n₂ := by
  refine ⟨fun s => (makes_intern name s).1, fun s₁ s₂ h _ => ?_⟩
  obtain ⟨hi₁, ws₁, hs₁⟩ := run_intern_eq name s₁
  obtain ⟨hi₂, ws₂, hs₂⟩ := run_intern_eq name s₂
  rw [hi₁, hi₂, hs₁, hs₂, h.table]
  exact ⟨rfl, { h with table := rfl }⟩

theorem agree_roleOf (i : Nat) :
    Agree (Near n₁ n₂) (roleOf i) (roleOf i) fun _ => Near n₁ n₂ := by
  refine ⟨fun s => (makes_roleOf i s).1, fun s₁ s₂ h _ => ⟨?_, h⟩⟩
  change (s₂.table.get? i).elim Role.alias Ident.role = _
  rw [h.table]
  rfl

/-- Both are level behind blanks and comments. -/
structure Clear (n₁ n₂ : Nat) (s₁ s₂ : State) : Prop where
  near : Near n₁ n₂ s₁ s₂
  skipped : skipBlanks false s₁.cursor.rest = s₁.cursor.rest

/-- Where there is nothing to skip, neither a blank nor a comment is in front: less would be left
behind it. -/
theorem of_skipped {c : UInt8} {s : Bytes} (h : skipBlanks false (c :: s) = c :: s) :
    (c == 0x20 || c == 0x09 || c == 0x0D) = false ∧ startsComment (c :: s) = false := by
  have hless {comment : Bool} : skipBlanks comment s ≠ c :: s := fun heq => by
    have := length_skipBlanks comment s
    rw [heq, List.length_cons] at this
    omega
  rw [skipBlanks] at h
  split at h
  · exact absurd h hless
  next hblank =>
    split at h
    · exact absurd h hless
    next hcomment => exact ⟨Bool.eq_false_iff.mpr hblank, Bool.eq_false_iff.mpr hcomment⟩

theorem startsComment_of_skipped {s : Bytes} (h : skipBlanks false s = s) :
    startsComment s = false := by
  cases s with
  | nil => rfl
  | cons c s => exact (of_skipped h).2

/-- Where no argument begins, the statement ends. -/
theorem atEnd_of_wordLength {s : Bytes} (h : skipBlanks false s = s) (hp : beginsPlain s)
    (hw : wordLength s = 0) : AtEnd s := by
  cases s with
  | nil => exact nofun
  | cons c s =>
      obtain ⟨hblank, hcomment⟩ := of_skipped h
      have hstep : wordStep [] c = none := by
        rw [wordLength, wordLengthIn_cons [] hcomment] at hw
        cases hs : wordStep [] c with
        | none => rfl
        | some closers =>
            rw [hs] at hw
            exact absurd hw (Nat.ne_of_gt (Nat.lt_add_right _ Nat.one_pos))
      rintro d hd
      obtain rfl : c = d := by simpa using hd
      have hfront : c ≠ quote ∧ c ≠ code '$' ∧ c ≠ code '(' ∧ c ≠ code '[' := hp
      unfold wordStep endsWord isGap at hstep
      simp_all
      grind

theorem agree_skipComments :
    Agree (Near n₁ n₂) skipComments skipComments fun _ => Clear n₁ n₂ := by
  refine ⟨fun s => (makes_skipComments s).1, fun s₁ s₂ h _ => ⟨rfl, ?_, ?_⟩⟩
  · have hlands (s : State) : s.Lands (skipComments.run s).2 (skipBlanks false s.cursor.rest) :=
      ⟨rfl, rfl, rfl⟩
    have hle₁ := length_skipBlanks false s₁.cursor.rest
    have hle₂ := length_skipBlanks false s₂.cursor.rest
    have := h.short₁
    have := h.short₂
    exact h.lands (hlands s₁) (hlands s₂) h.thins.skipBlanks (skipBlanks_isSuffix _ _).sublist
      (by omega) (by omega)
  · exact skipBlanks_skipBlanks false _

theorem eq_cons_of_byteAt {s : Bytes} {c : UInt8} (h : Bytes.byteAt s 0 = c) (hc : c ≠ 0) :
    ∃ r, s = c :: r := by
  cases s with
  | nil => exact absurd h.symm hc
  | cons d r => exact ⟨r, congrArg (· :: r) h⟩

theorem agree_peek : Agree (Clear n₁ n₂) (peek 0) (peek 0) fun c s₁ s₂ =>
    Clear n₁ n₂ s₁ s₂ ∧ Bytes.byteAt s₁.cursor.rest 0 = c := by
  refine ⟨fun s => (makes_peek 0 s).1, fun s₁ s₂ h _ => ⟨?_, h, rfl⟩⟩
  rcases h.near.thins.byteAt with heq | ⟨hcomment, -⟩
  · exact heq
  · rw [startsComment_of_skipped h.skipped] at hcomment
    cases hcomment

/-- Two steps may look at the bytes in front if the second one does not tell a line feed from a
slash. -/
theorem Agree.onPeek {α : Type} {f₁ f₂ : UInt8 → CompileM α} {post : α → State → State → Prop}
    (hf : f₂ 0x0A = f₂ 0x2F)
    (h : ∀ c, Agree (fun s₁ s₂ => Near n₁ n₂ s₁ s₂ ∧ Bytes.byteAt s₁.cursor.rest 0 = c)
      (f₁ c) (f₂ c) post) : Agree (Near n₁ n₂) (peek 0 >>= f₁) (peek 0 >>= f₂) post := by
  refine ⟨fun s => (h (s.cursor.peek 0)).gains s, fun s₁ s₂ hn hclear => ?_⟩
  have hrun : (peek 0 >>= f₂).run s₂ = (f₂ (Bytes.byteAt s₁.cursor.rest 0)).run s₂ := by
    have hopen : (peek 0 >>= f₂).run s₂ = (f₂ (Bytes.byteAt s₂.cursor.rest 0)).run s₂ := rfl
    rw [hopen]
    rcases hn.thins.byteAt with heq | ⟨-, hslash, hfeed⟩
    · rw [heq]
    · rw [hslash, hfeed, hf]
  rw [hrun]
  exact (h _).follows s₁ s₂ ⟨hn, rfl⟩ hclear

/-- Both pass over a byte that begins neither a string nor a comment. -/
theorem agree_advance {c : UInt8} (hc : c ≠ 0 ∧ c ≠ quote ∧ c ≠ 0x2F) :
    Agree (fun s₁ s₂ => Near n₁ n₂ s₁ s₂ ∧ Bytes.byteAt s₁.cursor.rest 0 = c) (advance 1)
      (advance 1) fun _ => Near (n₁ - 1) (n₂ - 1) := by
  refine ⟨fun s => (makes_advance 1 s).1, fun s₁ s₂ h _ => ⟨rfl, ?_⟩⟩
  obtain ⟨h, hfront⟩ := h
  obtain ⟨u, hu⟩ := eq_cons_of_byteAt hfront hc.1
  have hcomment : startsComment (c :: u) = false := by
    rw [startsComment_eq, beq_eq_false_iff_ne.mpr hc.2.2, Bool.false_and]
  obtain ⟨v, hv, -, ht⟩ := (hu ▸ h.thins).front hc.2.1 hcomment
  have hn₁ := h.short₁
  have hn₂ := h.short₂
  rw [hu, List.length_cons] at hn₁
  rw [hv, List.length_cons] at hn₂
  refine h.advance (lands_advance s₁ 1) (lands_advance s₂ 1) ?_ ?_ ?_
  · rw [hu, hv]
    exact (SameFront.zero ht).cons c
  · rw [hu, List.length_cons]
    omega
  · rw [hv, List.length_cons]
    omega

/-- Both take the same word. What is known to be left where there is none may be carried along. -/
theorem agree_cutWord (left : Bytes → Prop) :
    Agree (fun s₁ s₂ => Near n₁ n₂ s₁ s₂ ∧
        (wordLength s₁.cursor.rest = 0 → left s₁.cursor.rest)) cutWord cutWord
      fun word s₁ s₂ => Short n₁ n₂ word ∧
        if word.isEmpty then Near n₁ n₂ s₁ s₂ ∧ left s₁.cursor.rest
        else Near (n₁ - 1) (n₂ - 1) s₁ s₂ := by
  refine ⟨fun s => (makes_cutWord s).1, fun s₁ s₂ hpre _ => ?_⟩
  obtain ⟨h, hleft⟩ := hpre
  obtain ⟨hlen, hfront⟩ : wordLength s₂.cursor.rest = wordLength s₁.cursor.rest ∧
      SameFront (wordLength s₁.cursor.rest) s₁.cursor.rest s₂.cursor.rest :=
    h.thins.wordFront []
  have hrun (s : State) {n : Nat} (hn : wordLength s.cursor.rest = n) :
      (cutWord.run s).1 = s.cursor.rest.take n ∧
        s.Lands (cutWord.run s).2 (s.cursor.rest.drop n) := hn ▸ ⟨rfl, lands_cutWord s⟩
  obtain ⟨ha₁, hl₁⟩ := hrun s₁ rfl
  obtain ⟨ha₂, hl₂⟩ := hrun s₂ hlen
  have hn₁ := h.short₁
  have hn₂ := h.short₂
  rw [ha₁, ha₂]
  refine ⟨hfront.take, ⟨fun hm => h.unspliced (List.mem_of_mem_take hm), ?_, ?_⟩, ?_⟩
  · exact Nat.lt_of_le_of_lt (List.length_take_le' _ _) hn₁
  · rw [← hfront.take]
    exact Nat.lt_of_le_of_lt (List.length_take_le' _ _) hn₂
  by_cases hnone : wordLength s₁.cursor.rest = 0
  · rw [hnone] at hl₁ hl₂ hfront ⊢
    rw [List.take_zero, if_pos List.isEmpty_nil, hl₁.rest]
    exact ⟨h.advance hl₁ hl₂ hfront (by omega) (by omega), hleft hnone⟩
  · have hsome : s₁.cursor.rest ≠ [] := by
      intro hnil
      rw [hnil] at hnone
      exact hnone rfl
    have hsome₂ : s₂.cursor.rest ≠ [] := fun hnil => hsome (h.thins.eq_nil_iff.mpr hnil)
    have hpos₁ := List.length_pos_iff.mpr hsome
    have hpos₂ := List.length_pos_iff.mpr hsome₂
    rw [if_neg (by simp [hnone, hsome])]
    exact h.advance hl₁ hl₂ hfront (by omega) (by omega)

/-- What begins a string ends it alike. -/
theorem agree_cutRaw : Agree (fun s₁ s₂ => Near n₁ n₂ s₁ s₂ ∧
      Bytes.byteAt s₁.cursor.rest 0 = quote) cutRaw cutRaw
    fun text s₁ s₂ => Short n₁ n₂ text ∧ Near (n₁ - 1) (n₂ - 1) s₁ s₂ := by
  refine ⟨fun s => (makes_cutRaw s).1, fun s₁ s₂ hpre _ => ?_⟩
  obtain ⟨h, hfront⟩ := hpre
  obtain ⟨u, hu⟩ := eq_cons_of_byteAt hfront (by decide)
  obtain ⟨v, hv, htext, ht⟩ := (hu ▸ h.thins).cutBody
  have hrun (s : State) {r : Bytes} (hs : s.cursor.rest = quote :: r) :
      (cutRaw.run s).1 = (cutBody r).1 ∧ s.Lands (cutRaw.run s).2 (cutBody r).2 := by
    obtain ⟨ha, hl⟩ := run_cutStringBody { s with cursor := s.cursor.advance 1 }
    have hr : (s.cursor.advance 1).rest = r := congrArg (List.drop 1) hs
    rw [hr] at ha hl
    exact ⟨ha, (lands_advance s 1).trans hl⟩
  obtain ⟨ha₁, hl₁⟩ := hrun s₁ hu
  obtain ⟨ha₂, hl₂⟩ := hrun s₂ hv
  have hn₁ := h.short₁
  have hn₂ := h.short₂
  rw [hu, List.length_cons] at hn₁
  rw [hv, List.length_cons] at hn₂
  have hle₁ := (cutBody_isPrefix u).length_le
  have hle₂ := (cutBody_isPrefix v).length_le
  have hrest₁ := (cutBody_isSuffix u).length_le
  have hrest₂ := (cutBody_isSuffix v).length_le
  rw [ha₁, ha₂]
  refine ⟨htext, ⟨fun hm => h.unspliced ?_, by omega, by rw [← htext]; omega⟩, ?_⟩
  · rw [hu]
    exact List.mem_cons_of_mem _ ((cutBody_isPrefix u).mem hm)
  · refine h.lands hl₁ hl₂ ht ?_ (by omega) (by omega)
    rw [hu]
    exact (cutBody_isSuffix u).sublist.cons _

private theorem mem_unescape {c : UInt8} {s : Bytes} (h : c ∈ unescape s) :
    c ∈ s ∨ c = 0x0A ∨ c = 0x09 ∨ c = 0x0C := by
  fun_induction unescape s <;> simp_all <;> grind

theorem agree_cutString : Agree (fun s₁ s₂ => Near n₁ n₂ s₁ s₂ ∧
      Bytes.byteAt s₁.cursor.rest 0 = quote) cutString cutString
    fun text s₁ s₂ => Short n₁ n₂ text ∧ Near (n₁ - 1) (n₂ - 1) s₁ s₂ := by
  refine agree_cutRaw.bind fun text => .pure fun s₁ s₂ h => ⟨⟨fun hm => ?_, ?_, ?_⟩, h.2⟩
  · rcases mem_unescape hm with hm | hm | hm | hm
    · exact h.1.unspliced hm
    all_goals exact absurd hm (by decide)
  · exact Nat.lt_of_le_of_lt (length_unescape text) h.1.short₁
  · exact Nat.lt_of_le_of_lt (length_unescape text) h.1.short₂

end Steps

section Literals

/-- What reading a block literal stops at. -/
def isMark (c : UInt8) : Bool :=
  c == code '@' || c == quote || c == code '/' || c == code '[' || c == code ']'

/-- What reading a block literal does at a mark, behind it; `here` is what is left from the mark
on. -/
def readMark (k : Nested) (prev fuel depth : Nat) (st : Splicing) (here : Bytes) (c : UInt8) :
    CompileM (Splicing × Bytes) := do
  if c == quote then
    let _ ← cutStringBody
    readLiteral k prev fuel depth st
  else if c == code '/' then
    if (← peek) == code '/' then skipTo (· == 0x0A)
    readLiteral k prev fuel depth st
  else if c == code '[' then readLiteral k prev fuel (depth + 1) st
  else if c == code ']' then
    if depth ≤ 1 then return (st, st.segment here)
    else readLiteral k prev fuel (depth - 1) st
  else
    let more := ((← cursor).rest.takeWhile (· == code '@')).length
    advance more
    if more + 1 < depth then readLiteral k prev fuel depth st
    else
      if depth < more + 1 then warn (utf8 "too many @s")
      readLiteral k prev fuel depth (← addSplice k prev (st.segment here) st)

/-- Texts without marks are passed over. -/
theorem cutBracketed_unmarked {w : Bytes} (h : ∀ a ∈ w, isMark a = false) (d : Nat) (r : Bytes) :
    cutBracketed (code '[') (code ']') d .plain (w ++ r) =
      (w ++ (cutBracketed (code '[') (code ']') d .plain r).1,
        (cutBracketed (code '[') (code ']') d .plain r).2) := by
  induction w with
  | nil => rfl
  | cons a w ih =>
      obtain ⟨⟨⟨⟨-, hquote⟩, hslash⟩, hopen⟩, hclose⟩ : (((¬a = code '@' ∧ ¬a = quote) ∧
          ¬a = code '/') ∧ ¬a = code '[') ∧ ¬a = code ']' := by
        simpa [isMark] using h a List.mem_cons_self
      have hcomment : startsComment (a :: (w ++ r)) = false := by
        rw [startsComment_eq, beq_eq_false_iff_ne.mpr (show a ≠ 0x2F from hslash), Bool.false_and]
      have hstep : bracketStep (code '[') (code ']') d a = some d := by
        simp [bracketStep, hopen, hclose]
      have hrest := ih fun b hb => h b (List.mem_cons_of_mem a hb)
      rw [List.cons_append, cutBracketed_cons _ _ _ hquote hcomment, hstep]
      dsimp only
      rw [hrest]
      rfl

theorem cutBracketed_lineBreak {c : UInt8} (h : isLineBreak c = true) (d : Nat) (r : Bytes) :
    cutBracketed (code '[') (code ']') d .plain (c :: r) =
      (c :: (cutBracketed (code '[') (code ']') d .plain r).1,
        (cutBracketed (code '[') (code ']') d .plain r).2) := by
  have hmark : isMark c = false := by
    rcases Bool.or_eq_true_iff.mp h with hc | hc <;> rw [beq_iff_eq.mp hc] <;> decide
  exact cutBracketed_unmarked (w := [c]) (by simpa using hmark) d r

/-- The rest of a comment is passed over. -/
theorem cutBracketed_toLineFeed (d : Nat) (t : Bytes) :
    cutBracketed (code '[') (code ']') d .comment t =
      (t.takeWhile (· != 0x0A) ++
        (cutBracketed (code '[') (code ']') d .plain (t.dropWhile (· != 0x0A))).1,
        (cutBracketed (code '[') (code ']') d .plain (t.dropWhile (· != 0x0A))).2) := by
  induction t with
  | nil => rfl
  | cons a t ih =>
      by_cases ha : a = 0x0A
      · subst ha
        rw [cutBracketed, List.takeWhile_cons_of_neg (by decide),
          List.dropWhile_cons_of_neg (by decide), cutBracketed_lineBreak rfl]
        rfl
      · rw [cutBracketed, if_neg (by simpa using ha), ih,
          List.takeWhile_cons_of_pos (by simpa using ha),
          List.dropWhile_cons_of_pos (by simpa using ha)]
        rfl

/-- What is cut off from the end of a string body on. -/
def cutClosing (d : Nat) (r : Bytes) : Bytes × Bytes :=
  if Bytes.byteAt r 0 == quote then
    (quote :: (cutBracketed (code '[') (code ']') d .plain (r.drop 1)).1,
      (cutBracketed (code '[') (code ']') d .plain (r.drop 1)).2)
  else cutBracketed (code '[') (code ']') d .plain r

private theorem cutClosing_cons {c : UInt8} (h : (isLineBreak c || c == quote) = true) (d : Nat)
    (s : Bytes) : cutClosing d (c :: s) =
      (c :: (cutBracketed (code '[') (code ']') d .plain s).1,
        (cutBracketed (code '[') (code ']') d .plain s).2) := by
  have hfront : Bytes.byteAt (c :: s) 0 = c := rfl
  rw [cutClosing, hfront]
  by_cases hq : c = quote
  · subst hq
    rfl
  · rw [if_neg (by simpa using hq)]
    exact cutBracketed_lineBreak (by simpa [hq] using h) d s

private theorem inString_stop {c : UInt8} (h : (isLineBreak c || c == quote) = true) :
    ScanMode.inString false c = .plain := by
  unfold ScanMode.inString
  rcases Bool.or_eq_true_iff.mp h with hc | hc <;> simp [hc]

/-- A string is passed over, whether it is closed or not. -/
theorem cutBracketed_quoted (d : Nat) (t : Bytes) :
    cutBracketed (code '[') (code ']') d .quoted t =
      (t.take (bodyLength t) ++ (cutClosing d (t.drop (bodyLength t))).1,
        (cutClosing d (t.drop (bodyLength t))).2) := by
  have hstop {c : UInt8} (s : Bytes) (h : (isLineBreak c || c == quote) = true) :
      cutBracketed (code '[') (code ']') d .quoted (c :: s) = cutClosing d (c :: s) := by
    rw [cutClosing_cons h, cutBracketed, inString_stop h]
  have hgo {c : UInt8} {mode : ScanMode} (s : Bytes) {n : Nat}
      (hm : ScanMode.inString false c = mode)
      (h : cutBracketed (code '[') (code ']') d mode s =
        (s.take n ++ (cutClosing d (s.drop n)).1, (cutClosing d (s.drop n)).2)) :
      cutBracketed (code '[') (code ']') d .quoted (c :: s) =
        ((c :: s).take (1 + n) ++ (cutClosing d ((c :: s).drop (1 + n))).1,
          (cutClosing d ((c :: s).drop (1 + n))).2) := by
    rw [cutBracketed, hm, h, Nat.add_comm]
    rfl
  have hescape {c : UInt8} (hc : (c == caret) = true) : ScanMode.inString false c = .escaped := by
    rw [beq_iff_eq.mp hc]
    decide
  fun_induction bodyLength t with
  | case1 => rfl
  | case2 c h => exact hstop [] h
  | case3 c h =>
      rw [cutBracketed]
      cases ScanMode.inString false c <;> rfl
  | case4 c e s h => exact hstop (e :: s) h
  | case5 c e s h hc he =>
      refine hgo (n := 0) (e :: s) (hescape hc) ?_
      have hstop : (isLineBreak e || e == quote) = true := by rw [he, Bool.true_or]
      rw [cutBracketed, ScanMode.inString, he, if_pos rfl, List.take_zero, List.drop_zero,
        cutClosing_cons hstop]
      rfl
  | case6 c e s h hc he ih =>
      have hn : 2 + bodyLength s = 1 + (1 + bodyLength s) := by omega
      rw [hn]
      refine hgo (e :: s) (hescape hc) ?_
      rw [cutBracketed, ScanMode.inString, if_neg he, if_pos rfl, ih, Nat.add_comm]
      rfl
  | case7 c e s h hc ih =>
      refine hgo (e :: s) ?_ ih
      rw [Bool.or_eq_true_iff, not_or] at h
      rw [ScanMode.inString, if_neg h.1, if_neg Bool.false_ne_true, if_neg h.2, if_neg hc]

private theorem cutBracketed_string (d : Nat) (t : Bytes) : ∃ piece, t = piece ++ (cutBody t).2 ∧
    cutBracketed (code '[') (code ']') d .quoted t =
      (piece ++ (cutBracketed (code '[') (code ']') d .plain (cutBody t).2).1,
        (cutBracketed (code '[') (code ']') d .plain (cutBody t).2).2) := by
  rw [cutBracketed_quoted, cutBody_eq, cutClosing]
  dsimp only
  split
  next hq =>
    obtain ⟨r, hr⟩ := eq_cons_of_byteAt (beq_iff_eq.mp hq) (by decide)
    refine ⟨t.take (bodyLength t) ++ [quote], ?_, ?_⟩
    · rw [hr, List.append_assoc]
      exact (hr ▸ List.take_append_drop _ t).symm
    · rw [List.append_assoc]
      rfl
  next => exact ⟨_, (List.take_append_drop _ t).symm, rfl⟩

theorem Splicing.segment_eq {st : Splicing} {front rest : Bytes}
    (h : st.source = front ++ rest) :
    st.segment rest = front := by
  rw [Splicing.segment, h, List.length_append, Nat.add_sub_cancel, List.take_left]

private theorem isMark_of_skipTo {s : State} {c : UInt8} {t : Bytes}
    (h : (s.cursor.skipTo isMark).rest = c :: t) :
    isMark c = true := by
  have := List.head?_dropWhile_not (!isMark ·) s.cursor.rest
  rw [rest_skipTo] at h
  rw [h] at this
  simpa using this

private theorem eq_of_isMark {c : UInt8} (h : isMark c = true) (hc : c ≠ code '@') :
    c = quote ∨ c = code '/' ∨ c = code '[' ∨ c = code ']' := by
  simpa [isMark, hc, or_assoc] using h

variable (k : Nested) (prev : Nat) {fuel : Nat} (st : Splicing) {s : State}

private theorem run_readLiteral_end (depth : Nat) (h : (s.cursor.skipTo isMark).rest = []) :
    ((readLiteral k prev (fuel + 1) depth st).run s).1 = (st, st.source) ∧
      s.Lands ((readLiteral k prev (fuel + 1) depth st).run s).2 [] := by
  have hrun : (readLiteral k prev (fuel + 1) depth st).run s = StateT.run (m := Id) (do
      if (s.cursor.skipTo isMark).rest.isEmpty then
        warn (utf8 "missing " ++ quotedBracket (code ']'))
        return (st, st.source)
      else readMark k prev fuel depth st (s.cursor.skipTo isMark).rest (← next))
      { s with cursor := s.cursor.skipTo isMark } := rfl
  rw [hrun, h, if_pos List.isEmpty_nil]
  have hl := lands_warn (utf8 "missing " ++ quotedBracket (code ']'))
    { s with cursor := s.cursor.skipTo isMark }
  exact ⟨rfl, hl.table, hl.literalNames, hl.rest.trans h⟩

private theorem run_readLiteral_mark (depth : Nat) {c : UInt8} {t : Bytes}
    (h : (s.cursor.skipTo isMark).rest = c :: t) :
    ∃ s', s.Lands s' t ∧ (readLiteral k prev (fuel + 1) depth st).run s =
      (readMark k prev fuel depth st (c :: t) c).run s' := by
  refine ⟨{ s with cursor := (s.cursor.skipTo isMark).advance 1 },
    ⟨rfl, rfl, congrArg (List.drop 1) h⟩, ?_⟩
  have hrun : (readLiteral k prev (fuel + 1) depth st).run s = StateT.run (m := Id) (do
      if (s.cursor.skipTo isMark).rest.isEmpty then
        warn (utf8 "missing " ++ quotedBracket (code ']'))
        return (st, st.source)
      else readMark k prev fuel depth st (s.cursor.skipTo isMark).rest (← next))
      { s with cursor := s.cursor.skipTo isMark } := rfl
  have hnext : (s.cursor.skipTo isMark).peek = c := congrArg (Bytes.byteAt · 0) h
  rw [hrun, h, if_neg (by simp), ← hnext]
  rfl

/-- A block literal without splices is the text up to its closing bracket. -/
theorem run_readLiteral (d : Nat) (front : Bytes)
    (hat : code '@' ∉ (cutBracketed (code '[') (code ']') d .plain s.cursor.rest).1)
    (hfuel : s.cursor.rest.length < fuel) (hst : st.source = front ++ s.cursor.rest) :
    ((readLiteral k prev fuel (d + 1) st).run s).1 =
        (st, front ++ (cutBracketed (code '[') (code ']') d .plain s.cursor.rest).1) ∧
      s.Lands ((readLiteral k prev fuel (d + 1) st).run s).2
        (cutBracketed (code '[') (code ']') d .plain s.cursor.rest).2 := by
  induction fuel generalizing s d front with
  | zero => exact absurd hfuel (Nat.not_lt_zero _)
  | succ fuel ih =>
      obtain ⟨w, hw⟩ : ∃ w, w = s.cursor.before isMark := ⟨_, rfl⟩
      have hsplit : s.cursor.rest = w ++ (s.cursor.skipTo isMark).rest := by
        rw [hw]
        exact (List.prefix_iff_eq_append.mp (List.takeWhile_prefix _)).symm
      have hunmarked : ∀ a ∈ w, isMark a = false := by
        intro a ha
        rw [hw] at ha
        simpa using List.all_eq_true.mp List.all_takeWhile a ha
      cases hrest : (s.cursor.skipTo isMark).rest with
      | nil =>
          obtain ⟨ha, hl⟩ := run_readLiteral_end k prev st (d + 1) hrest
          rw [hrest] at hsplit
          rw [hsplit, cutBracketed_unmarked hunmarked, ha, hst, hsplit]
          exact ⟨rfl, hl⟩
      | cons c t =>
          have hmark := isMark_of_skipTo hrest
          rw [hrest] at hsplit
          obtain ⟨s', hl, hrun⟩ := run_readLiteral_mark k prev st (d + 1) hrest
          rw [hsplit, cutBracketed_unmarked hunmarked, List.mem_append, not_or] at hat
          rw [hsplit, List.length_append, List.length_cons] at hfuel
          rw [hsplit, cutBracketed_unmarked hunmarked, hrun]
          have hplain (hq : c ≠ quote) (hc : startsComment (c :: t) = false) :=
            cutBracketed_cons (code '[') (code ']') d hq hc
          -- What is left behind the mark is read by the induction hypothesis.
          have hgo {d' : Nat} (s'' : State) (piece : Bytes) {r : Bytes} (hr : t = piece ++ r)
              (hl' : s'.Lands s'' r) (hcut : cutBracketed (code '[') (code ']') d .plain (c :: t) =
                (c :: (piece ++ (cutBracketed (code '[') (code ']') d' .plain r).1),
                  (cutBracketed (code '[') (code ']') d' .plain r).2)) :
              ((readLiteral k prev fuel (d' + 1) st).run s'').1 =
                (st, front ++ (w ++ (cutBracketed (code '[') (code ']') d .plain (c :: t)).1)) ∧
              s.Lands ((readLiteral k prev fuel (d' + 1) st).run s'').2
                (cutBracketed (code '[') (code ']') d .plain (c :: t)).2 := by
            rw [hcut] at hat ⊢
            have hstep := ih d' (front ++ (w ++ c :: piece))
              (by rw [hl'.rest]; exact fun hm => hat.2 (by simp [hm]))
              (by rw [hr, List.length_append] at hfuel; rw [hl'.rest]; omega)
              (by rw [hst, hsplit, hr, hl'.rest]; simp)
            rw [hl'.rest] at hstep
            refine ⟨?_, (hl.trans hl').trans hstep.2⟩
            rw [hstep.1]
            simp
          have hstay : s'.Lands s' t := ⟨rfl, rfl, hl.rest⟩
          have hsign : c ≠ code '@' := by
            rintro rfl
            exact hat.2 (by rw [hplain (by decide) rfl]; exact List.mem_cons_self)
          rcases eq_of_isMark hmark hsign with rfl | rfl | rfl | rfl
          · obtain ⟨piece, ht, hcut⟩ := cutBracketed_string d t
            have hl' := (run_cutStringBody s').2
            rw [hl.rest] at hl'
            have hopen : cutBracketed (code '[') (code ']') d .plain (quote :: t) =
                (quote :: (cutBracketed (code '[') (code ']') d .quoted t).1,
                  (cutBracketed (code '[') (code ']') d .quoted t).2) := rfl
            exact hgo _ piece ht hl' (by rw [hopen, hcut])
          · have hread : (readMark k prev fuel (d + 1) st (code '/' :: t) (code '/')).run s' =
                StateT.run (m := Id) (do
                  if Bytes.byteAt s'.cursor.rest 0 == code '/' then skipTo (· == 0x0A)
                  readLiteral k prev fuel (d + 1) st) s' := rfl
            rw [hread, hl.rest]
            by_cases hslash : Bytes.byteAt t 0 = code '/'
            · obtain ⟨r, hr⟩ := eq_cons_of_byteAt hslash (by decide)
              have hopen : cutBracketed (code '[') (code ']') d .plain (code '/' :: t) =
                  (code '/' :: (cutBracketed (code '[') (code ']') d .comment t).1,
                    (cutBracketed (code '[') (code ']') d .comment t).2) := by
                rw [hr]
                rfl
              have hskip : (s'.cursor.skipTo (· == 0x0A)).rest = t.dropWhile (· != 0x0A) := by
                rw [rest_skipTo, hl.rest]
                rfl
              rw [if_pos (by simpa using hslash)]
              refine hgo { s' with cursor := s'.cursor.skipTo (· == 0x0A) } _
                (List.takeWhile_append_dropWhile).symm ⟨rfl, rfl, hskip⟩ ?_
              rw [hopen, cutBracketed_toLineFeed]
            · have hcomment : startsComment (code '/' :: t) = false := by
                rw [startsComment_eq, Bool.and_eq_false_iff]
                exact .inr (beq_eq_false_iff_ne.mpr hslash)
              rw [if_neg (by simpa using hslash)]
              exact hgo s' [] rfl hstay (hplain (by decide) hcomment)
          · exact hgo s' [] rfl hstay (hplain (by decide) rfl)
          · cases d with
            | zero =>
                rw [hplain (by decide) rfl]
                refine ⟨congrArg (st, ·) (Splicing.segment_eq ?_), hl⟩
                change st.source = (front ++ (w ++ [])) ++ code ']' :: t
                rw [hst, hsplit, List.append_nil, List.append_assoc]
            | succ d => exact hgo s' [] rfl hstay (hplain (by decide) rfl)

end Literals

end ConsoleScript.Compile
