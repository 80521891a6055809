import ConsoleScript.Proofs.Compile.ComputedTexts
import ConsoleScript.Proofs.Engine.Compiling
import ConsoleScript.Proofs.Engine.ComputedCalls

/-!
Calls with literal words, of a command and of an alias that holds its name. The one is compiled for
the signature of the command, the other shapes its arguments when it is called. Where the words are
the same arguments to both, the command is called once with the same arguments.
-/

namespace ConsoleScript

open Bytecode Engine Compile

variable {s : Interp} {t t' : Table} {sig : Signature} {id : Ident} {action : Action}
variable {self : Nat} {name var : Bytes} {ws : List Bytes}

section Arguments

/-- A float is zero, of either sign. -/
def Single.IsZero (x : Single) : Prop := x = zero ∨ x = zero.neg

/-- Two arguments, each in an interpreter of its own, are of one kind and have the same contents,
whoever holds the bytes of a text. Code is compiled from the same text. A float that is zero may have
lost its sign. -/
inductive Value.SameArgument (t t' : Table) : Value → Value → Prop
  | null : SameArgument t t' .null .null
  | int (i : Int32) : SameArgument t t' (.int i) (.int i)
  | float {x y : Single} (h : x = y ∨ x.IsZero ∧ y.IsZero) :
      SameArgument t t' (.float x) (.float y)
  | text (kind kind' : TextKind) (s : Bytes) : SameArgument t t' (.text kind s) (.text kind' s)
  | code {src : Bytes} {v v' : Value} (h : IsCode src v) (h' : IsCode src v') : SameArgument t t' v v'
  | ident (i : Nat) : SameArgument t t' (.ident i) (.ident i)
  | named {name : Bytes} {i i' : Nat} (h : Stands t name i) (h' : Stands t' name i') :
      SameArgument t t' (.ident i) (.ident i')

/-- What stands for one operand is the same argument. -/
theorem Compile.Operand.Is.sameArgument {o : Compile.Operand} {v v' : Value} (h : o.Is t v)
    (h' : o.Is t' v') : v.SameArgument t t' v' := by
  cases o with
  | null =>
      subst h h'
      exact .null
  | int i =>
      subst h h'
      exact .int i
  | float x =>
      obtain ⟨y, rfl, hy⟩ := h
      obtain ⟨y', rfl, hy'⟩ := h'
      refine .float ?_
      rcases hy with rfl | ⟨rfl, rfl⟩ <;> rcases hy' with hy' | ⟨hx, rfl⟩
      · exact .inl hy'
      · exact .inr ⟨.inr hx, .inl rfl⟩
      · exact .inr ⟨.inl rfl, .inr hy'.symm⟩
      · exact .inl rfl
  | text w =>
      obtain ⟨kind, rfl⟩ := h
      obtain ⟨kind', rfl⟩ := h'
      exact .text kind kind' w
  | code src => exact .code h h'
  | named name =>
      obtain ⟨i, rfl, hi⟩ := h
      obtain ⟨i', rfl, hi'⟩ := h'
      exact .named hi hi'
  | ident i =>
      subst h h'
      exact .ident i

private theorem forall₂_sameArgument {os : List Compile.Operand} {vs vs' : List Value}
    (h : List.Forall₂ (Compile.Operand.Is t) os vs) (h' : List.Forall₂ (Compile.Operand.Is t') os vs') :
    List.Forall₂ (Value.SameArgument t t') vs vs' := by
  induction h generalizing vs' with
  | nil =>
      cases h'
      exact .nil
  | cons hv _ ih =>
      cases h' with
      | cons hv' h' => exact .cons (hv.sameArgument hv') (ih h')

end Arguments

section Runs

variable {k : Runner} {b : Block} {a : Activation} {j : Nat}

/-- An alias holds a text. -/
structure Table.HoldsText (t : Table) (var text : Bytes) (j : Nat) : Prop where
  found : t.find? var = some j
  holds : ∃ id kind, t.get? j = some id ∧ id.role = .alias ∧ id.value = .text kind text
  noSlot : maxArgs ≤ j

theorem Table.Names.holdsText (h : t.Names t') {text : Bytes} (ht : t.HoldsText var text j) :
    t'.HoldsText var text j := by
  obtain ⟨id, kind, hid, hrole, hvalue⟩ := ht.holds
  exact ⟨h.find? ht.found, ⟨id, kind, h.get? hid, hrole, hvalue⟩, ht.noSlot⟩

theorem Table.Retains.lookup? (h : t.Retains t') (hfound : t.lookup? name = some (self, id)) :
    ∃ id', t'.lookup? name = some (self, id') ∧ id'.role = id.role := by
  obtain ⟨id', hid', -, hrole⟩ := h self id (get?_of_lookup? hfound)
  refine ⟨id', ?_, hrole⟩
  rw [Table.lookup?, h.find? (find?_of_lookup? hfound)]
  simp [hid']

theorem Compile.SpellsLookup.callsAs {src e : Bytes} {args : List Value}
    (h : SpellsLookup var ws src e) (hshort : src.length < operandLimit)
    (hargs : List.Forall₂ (fun w v => ∃ kind, v = Value.text kind w) ws args)
    (hlen : ws.length ≤ maxArgs) : CallsAs ws args := by
  obtain ⟨r, hsrc, -, -, -, hr⟩ := h
  refine ⟨hargs, fun w hw => ⟨hr.word_ne_nil hw, ?_⟩, hlen⟩
  have hle := hr.word_length_le hw
  rw [hsrc, List.length_cons, List.length_append] at hshort
  omega

/-- An alias is looked up: its text is pushed. -/
theorem leads_lookup (hk : Forward k) {text : Bytes} (ht : s.table.HoldsText var text j)
    (hfits : j < operandLimit) (hw : b.words[a.pc]? = some (Word.make .lookup .text (UInt32.ofNat j)))
    (hroom : a.stack.length < maxOperands) :
    ∃ s', Leads k b a s { a with pc := a.pc + 1, stack := .text .owned text :: a.stack } s' ∧
      Prepares s s' := by
  obtain ⟨id, kind, hid, -, hvalue⟩ := ht.holds
  have hread : Quiet (aliasValue id .text false) s fun v _ => v = .text .owned text := by
    have hlooked : id.value.lookedUp .text false = .text .owned text := by rw [hvalue]; rfl
    unfold aliasValue
    split
    · exact (quiet_debug _ s).bind fun _ s' _ _ => .pure hlooked
    · exact .pure hlooked
  obtain ⟨v, s', hread, hprep, rfl⟩ := hread
  refine ⟨s', .step hk hw (Word.op?_make ..) (by decide) ?_ rfl, hprep⟩
  have hident : outcome (Activation.identIn b { a with pc := a.pc + 1 } j) s = (.ok id, s) := by
    rw [World.outcome_identIn, hid]
  rw [perform, Word.toNat_arg_make .lookup .text hfits, Word.ret_make]
  simp only [stepAlias]
  rw [outcome_bind_ok hident, outcome_bind_ok hread]
  exact outcome_push hroom _ _ s'

/-- The instruction of a call through a computed name passes what is on the stack, the lowest for the
name. -/
theorem runFrom_callNamed (hk : Forward k) {kind : TextKind} {args : List Value}
    (hfound : s.table.lookup? name = some (self, id)) (hrole : id.role = .command sig action)
    {P : List Value → Interp → Prop} (hshape : Quiet (shape sig self false args) s P)
    (hn : args.length < operandLimit) (hstack : a.stack = (.text kind name :: args).reverse)
    (hw : b.words[a.pc]? = some (Word.make .callNamed .null (UInt32.ofNat args.length))) {left : Nat}
    (hleft : b.size < a.pc + left) :
    ∃ vs s', P vs s' ∧ Prepares s s' ∧ outcome (runFrom k b left a) s =
      outcome (goOn k b left a.locals (do
        let v ← invoke k id vs
        return { a with pc := a.pc + 1, stack := [], result := v })) s' := by
  obtain ⟨vs, s', hvs, hprep, hcall⟩ := outcome_callNamed k hfound hrole hshape kind .null
  have hnamed : outcome (callNamed k (.text kind name) args .null) s =
      outcome (invoke k id vs) s' := hcall.trans (congrArg (outcome · s') (bind_pure _))
  obtain ⟨hwindow, hdrop⟩ := window_reverse (a := { a with pc := a.pc + 1 })
    (show a.stack = (.text kind name :: args).reverse ++ [] from
      hstack.trans (List.append_nil _).symm) rfl
  refine ⟨vs, s', hvs, hprep, ?_⟩
  rw [runFrom_perform hk hw (Word.op?_make ..) nofun hleft]
  refine outcome_goOn ?_ _
  rw [perform]
  simp only [stepCall, Word.toNat_arg_make .callNamed .null hn, Word.ret_make]
  rw [← List.length_cons (a := Value.text kind name), hwindow, pure_bind, hdrop]
  change outcome (callNamed k (.text kind name) args .null >>= _) s = _
  rw [outcome_bind, hnamed, outcome_bind]
  rfl

/-- A run through the code of a call of what an alias names. -/
theorem runFrom_computed (hk : Forward k) {code : Code} (hvar : s.table.HoldsText var name j)
    (hfound : s.table.lookup? name = some (self, id)) (hrole : id.role = .command sig action)
    (hcode : Lays s.table (ws.length + 1) [.text name] code (.text name :: ws.map .text))
    (hf : Fits .operands s.table b) (hlen : ws.length ≤ maxArgs)
    (hw : b.Holds a.pc (Code.words a.pc (computedCall j code ws.length))) (hstack : a.stack = [])
    {P : Table → List Value → Prop}
    (hshape : ∀ s' args, Prepares s s' →
      List.Forall₂ (fun w v => ∃ kind, v = Value.text kind w) ws args →
      Quiet (shape sig self false args) s' fun vs s'' => P s''.table vs) {left : Nat}
    (hleft : b.size < a.pc + left) :
    Invokes k id P (runFrom k b left a) (fun v => goOn k b left a.locals (do
      return { a with
        pc := a.pc + (Code.words a.pc (computedCall j code ws.length)).length
        stack := []
        result := ← v })) s := by
  have hroom : ws.length + 1 ≤ maxOperands := by
    unfold maxOperands maxResults
    omega
  have hcount : ws.length < operandLimit := Nat.lt_of_le_of_lt hlen (by decide)
  rw [computedCall, words_append, words_append, words_plain rfl, words_plain rfl] at hw ⊢
  rw [Block.holds_append, Block.holds_append, Block.holds_cons, Block.holds_cons] at hw
  obtain ⟨⟨⟨hlookup, -⟩, hwords⟩, hcall, -⟩ := hw
  rw [List.length_append, List.length_singleton, ← Nat.add_assoc] at hcall
  -- The name is looked up, and the words are pushed behind it.
  obtain ⟨s₁, hleads₁, hprep₁⟩ := leads_lookup hk hvar
    (Nat.lt_of_lt_of_le (Table.find?_lt hvar.found) hf.table) hlookup (hstack ▸ by decide)
  have hname : Value.text .owned name :: a.stack = [Value.text .owned name].reverse ++ [] := by
    rw [hstack]
    rfl
  obtain ⟨vs, s₂, hleads₂, hprep₂, hvs⟩ := hcode.leads
    (a := { a with pc := a.pc + 1, stack := .text .owned name :: a.stack }) hk hf.block
    hprep₁.idents hf.table hwords hname (.cons ⟨.owned, rfl⟩ .nil) hroom
  cases hvs with
  | @cons _ head _ args hhead hargs =>
      obtain ⟨kind, rfl⟩ := hhead
      rw [List.forall₂_map_left_iff] at hargs
      have hprep := hprep₁.trans hprep₂
      have hargc : ws.length = args.length := hargs.length_eq
      obtain ⟨id', hfound', hrole'⟩ := hprep.idents.lookup? hfound
      rw [hargc] at hcall hcount
      obtain ⟨us, s₃, hus, hprep₃, hrun⟩ := runFrom_callNamed (a := { a with
          pc := a.pc + 1 + (Code.words (a.pc + 1) code).length
          stack := (Value.text kind name :: args).reverse ++ [] }) hk hfound'
        (hrole'.trans hrole) (hshape s₂ args hprep hargs) hcount (List.append_nil _) hcall
        (show b.size < a.pc + 1 + (Code.words (a.pc + 1) code).length + left by omega)
      refine ⟨us, s₃, hus, hprep.trans hprep₃, ?_⟩
      rw [(hleads₁.trans hleads₂).runs left hleft, hrun, invoke_role hrole']
      simp only [List.length_append, List.length_cons, List.length_nil, Nat.add_assoc, Nat.zero_add]

/-- A text that is one call of what an alias names. -/
theorem invokes_lookup {op : Op} {os : List Compile.Operand} (hs : s.table.Founded .layout)
    (hfound : s.table.lookup? name = some (self, id)) (hrole : id.role = .command sig action)
    (hcalled : Called self ws sig op os) (haccepted : Signature.Accepted 0 sig)
    (hslots : sig.slots ≤ maxArgs) (hagrees : sig.Agrees ws.length)
    (hvar : s.table.HoldsText var name j) {src : Bytes} (hws : SpellsLookup var ws src [])
    (hsign : ∀ w ∈ ws.head?, isSign w = false) (hlen : ws.length ≤ maxArgs)
    (hshort : src.length < operandLimit) (label : Bytes)
    (hf : Fits .operands (compile s.table src label).table (compile s.table src label).block)
    (room : Nat) :
    Invokes (run room) id (fun t args => ∃ vs, List.Forall₂ (Compile.Operand.Is t) os vs ∧
      args = received op vs) (runText (run (room + 1)) src label) deeper s := by
  obtain ⟨idVar, -, hidVar, hroleVar, -⟩ := hvar.holds
  obtain ⟨code, st', hrun, hpass, hlays⟩ := run_statements_lookup
    (show Table.Founded .layout
      (State.table { cursor := { rest := src, name := label }, table := s.table }) from hs)
    hshort (Nat.le_refl (src.length + 3)) hws hvar.found hidVar hroleVar hvar.noSlot hsign hlen false 0
  have hprogram : program s.table src label = (computedCall j code ws.length, st') := hrun
  have htable : (compile s.table src label).table = st'.table := by rw [compile_table, hprogram]
  have hblock : (compile s.table src label).block =
      toBlock label (computedCall j code ws.length) := by
    rw [compile_block, hprogram]
  obtain ⟨block, s₁, hcompile, hprep₁, rfl, htable₁⟩ := quiet_compileText hs hshort label
  rw [hblock] at hf hcompile
  rw [← htable₁] at hf
  rw [htable] at htable₁
  obtain ⟨hw, hx⟩ := Block.holds_append.mp (holds_toBlock label (computedCall j code ws.length))
  generalize toBlock label (computedCall j code ws.length) = b at *
  obtain ⟨id', hfound', hrole'⟩ := hprep₁.idents.lookup? hfound
  have hshape (s' : Interp) (args : List Value) (hprep : Prepares (s₁.setLevel s₁.level.inner) s')
      (hargs : List.Forall₂ (fun w v => ∃ kind, v = Value.text kind w) ws args) :
      Quiet (shape sig self false args) s' fun vs s'' =>
        ∃ us, List.Forall₂ (Compile.Operand.Is s''.table) os us ∧ vs = received op us :=
    quiet_shape_called hcalled haccepted hslots
      (hs.mono ((hprep₁.leave hprep).idents.extends .layout)) (hws.callsAs hshort hargs hlen) hagrees
  obtain ⟨args, s₂, hargs, hprep₂, hcall⟩ := runFrom_computed (s := s₁.setLevel s₁.level.inner)
    (a := { pc := 1 })
    (P := fun t args => ∃ us, List.Forall₂ (Compile.Operand.Is t) os us ∧ args = received op us)
    (forward_run room) (htable₁ ▸ hpass.names.holdsText hvar) hfound' (hrole'.trans hrole)
    (htable₁ ▸ hlays (ws.length + 1) [.text name] (Nat.le_of_eq (Nat.add_comm ..))) hf hlen hw rfl
    hshape (show b.size < 1 + (b.size + 1) by omega)
  rw [invoke_role hrole'] at hcall
  exact ⟨args, s₂.setLevel s₁.level, hargs, hprep₁.leave hprep₂,
    outcome_runText hcompile hprep₂.level hcall (Block.holds_cons.mp hx).1⟩

end Runs

/-- Two computations each prepare a call and then invoke a command once, one level deeper, and do
nothing behind it. The command gets the same arguments from both, put together for an operation in the
same way. -/
def Engine.InvokeAlike (k : Runner) (id : Ident) (m m' : Engine Value) (s : Interp) : Prop :=
  ∃ op vs vs' s₁ s₂, List.Forall₂ (Value.SameArgument s₁.table s₂.table) vs vs' ∧
    Prepares s s₁ ∧ outcome m s = outcome (deeper (invoke k id (received op vs))) s₁ ∧
    Prepares s s₂ ∧ outcome m' s = outcome (deeper (invoke k id (received op vs'))) s₂

/-- A call with literal words hands a command the same arguments whether its name is written, and the
call is compiled for its signature, or is what an alias holds. The signature is accepted, has no more
letters than a call can pass arguments, and none behind a repetition that take a word; and the words
are the same arguments to both. -/
theorem named_calls_alike {text : Bytes} (hparse : Signature.parse text = .ok sig)
    (htight : sig.Tight) (hslots : sig.slots ≤ maxArgs) (hs : s.table.Founded .layout)
    (hfound : s.table.lookup? name = some (self, id)) (hrole : id.role = .command sig action)
    {j : Nat} (hvar : s.table.HoldsText var name j) (hagrees : sig.Agrees ws.length)
    (hlen : ws.length ≤ maxArgs) {src src' : Bytes} (hws : SpellsCall name ws src [])
    (hws' : SpellsLookup var ws src' []) (hshort : src'.length < operandLimit) (label label' : Bytes)
    (hf : Fits .operands (compile s.table src label).table (compile s.table src label).block)
    (hf' : Fits .operands (compile s.table src' label').table (compile s.table src' label').block)
    (room : Nat) :
    InvokeAlike (run room) id (runText (run (room + 1)) src label)
      (runText (run (room + 1)) src' label') s := by
  have haccepted := Signature.accepted_of_parse hparse
  have hbuilt := Signature.built_of_parse hparse htight
  obtain ⟨args, s₁, ⟨op, os, vs, hcalled, hvs, rfl⟩, hprep₁, hcall₁⟩ :=
    invokes_text hs hfound hrole hbuilt hslots hws.words hws.sign hws.short label hf room
  obtain ⟨args', s₂, ⟨vs', hvs', rfl⟩, hprep₂, hcall₂⟩ := invokes_lookup hs hfound hrole hcalled
    haccepted hslots hagrees hvar hws' hws.sign hlen hshort label' hf' room
  exact ⟨op, vs, vs', s₁, s₂, forall₂_sameArgument hvs hvs', hprep₁, hcall₁, hprep₂, hcall₂⟩

/-- A host with a command that repeats an integer, and an alias that holds its name. -/
def namingHost : Interp :=
  (Request.setValue (utf8 "n") (.text .owned (utf8 "foo"))).perform repeatingHost

set_option maxRecDepth 100000 in
theorem checked_namingHost :
    (namingHost.table.lookup? (utf8 "foo"), namingHost.table.lookup? (utf8 "n"),
      [utf8 "foo 1 2", utf8 "$n 1 2"].all fun src =>
        decide ((compile namingHost.table src []).block.size < operandLimit) &&
          decide ((compile namingHost.table src []).table.size ≤ callIndexLimit)) =
    (some (121, repeatingIdent), some (122, {
      name := utf8 "n", role := .alias, flags := { persist := true }
      value := .text .owned (utf8 "foo") }), true) := by
  with_unfolding_all rfl

private theorem namingHost_founded : namingHost.table.Founded .layout := by
  unfold Table.Founded
  decide +kernel

private theorem namingHost_holdsText : namingHost.table.HoldsText (utf8 "n") (utf8 "foo") 122 := by
  have hfound := (Prod.mk.inj (Prod.mk.inj checked_namingHost).2).1
  exact ⟨Table.find?_of_lookup? hfound, ⟨_, .owned, Table.get?_of_lookup? hfound, rfl, rfl⟩, by decide⟩

/-- Two words fill two rounds. -/
theorem agrees_repeating : Signature.Agrees [.int, .again 1, .all] 2 := by
  refine ⟨by decide, fun pre h => ?_, fun pre g tail h hp => ?_⟩
  · have hlast := congrArg List.getLast? h
    rw [List.getLast?_concat] at hlast
    cases hlast
  · cases pre with
    | nil => cases h
    | cons l pre =>
        cases pre with
        | nil =>
            cases h
            exact .inr ⟨by decide, by decide⟩
        | cons l' pre =>
            obtain ⟨-, rfl, -⟩ : .int = l ∧ .again 1 = l' ∧ _ := by simpa using h
            exact nomatch hp (.again 1) (by simp)

private theorem spellsLookup_n :
    SpellsLookup (utf8 "n") [utf8 "1", utf8 "2"] (utf8 "$n 1 2") [] := by
  refine ⟨utf8 " 1 2", ?_⟩
  decide

/-- Two integers, one of them in a further round. -/
theorem named_calls_alike_repeating : ∃ id, namingHost.table.get? 121 = some id ∧
    InvokeAlike (run 8) id (runText (run 9) (utf8 "foo 1 2") []) (runText (run 9) (utf8 "$n 1 2") [])
      namingHost := by
  obtain ⟨hfound, -, hall⟩ := by simpa only [Prod.mk.injEq] using checked_namingHost
  have hfits (src : Bytes) (h : src = utf8 "foo 1 2" ∨ src = utf8 "$n 1 2") :
      Fits .operands (compile namingHost.table src []).table (compile namingHost.table src []).block := by
    have hle := Bool.and_eq_true_iff.mp (List.all_eq_true.mp hall src (List.mem_pair.mpr h))
    have htable := of_decide_eq_true hle.2
    exact ⟨of_decide_eq_true hle.1, Nat.le_trans htable (by decide), fun _ => htable⟩
  exact ⟨repeatingIdent, Table.get?_of_lookup? hfound, named_calls_alike parse_repeating
    tight_repeating (by decide) namingHost_founded hfound rfl namingHost_holdsText
    (show Signature.Agrees _ [utf8 "1", utf8 "2"].length from agrees_repeating) (by decide)
    (spellsCall_foo rfl (.inl rfl)) spellsLookup_n (by decide) [] [] (hfits _ (.inl rfl))
    (hfits _ (.inr rfl)) 8⟩

end ConsoleScript
