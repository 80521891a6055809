import ConsoleScript.Proofs.Compile.CommandTexts
import ConsoleScript.Proofs.Engine.Operands
import ConsoleScript.Proofs.Engine.Sessions
import ConsoleScript.Proofs.Engine.Shaping

/-!
Calls of commands of the host. A call with literal words, compiled into a statement of its own or in
parentheses, and a call through a name that is computed, all come to one call of the function behind
the command. What goes before it only prepares the interpreter.
-/

namespace ConsoleScript

open Bytecode Engine Compile

/-- The arguments that a command gets for the operands of its call. -/
def Compile.received (op : Op) (vs : List Value) : List Value :=
  match op with
  | .comPressed => vs ++ [.int 1]
  | .comJoined => [.ofBytes (Value.join true vs)]
  | _ => vs

/-- What a command may be passed: few enough arguments, and one text if they are joined. -/
def Signature.Receives (sig : Signature) (args : List Value) : Prop :=
  args.length ≤ maxArgs ∧ (.joined ∈ sig → ∃ text, args = [.ofBytes text])

/-- The operations that call a command, and the operands that each of them takes. -/
inductive Compile.CallsWith (sig : Signature) (n : Nat) : Op → Prop
  | com (hn : n = sig.slots) (hj : .joined ∉ sig) : CallsWith sig n .com
  | comPressed (hn : n + 1 = sig.slots) (hj : .joined ∉ sig) : CallsWith sig n .comPressed
  | comAll (hn : n ≤ maxArgs) (hj : .joined ∉ sig) : CallsWith sig n .comAll
  | comJoined (hn : n ≤ maxArgs) : CallsWith sig n .comJoined

/-- Where there are as many letters as a call can pass arguments, there are as many operands as its
operation takes. -/
theorem Compile.Called.callsWith {self : Nat} {ws : List Bytes} {sig : Signature} {op : Op}
    {os : List Compile.Operand} (h : Called self ws sig op os) (hslots : sig.slots ≤ maxArgs) :
    CallsWith sig os.length op := by
  -- Behind its letters a command takes words up to the limit.
  have hrest {sig : Signature} {l : Letter} (hl : l.takesAll = true)
      (hmem : .joined ∈ sig → l = .joined) {tk : Taken} (hlen : tk.operands.length ≤ maxArgs) :
      CallsWith sig tk.rest.length (restOp l) := by
    have hn : tk.rest.length ≤ maxArgs := by
      rw [Taken.rest, List.length_append, List.length_map, List.length_take]
      omega
    unfold restOp
    split
    next => exact .comJoined hn
    next hne => exact .comAll hn fun h => hne (hmem h)
  cases h with
  | fixed hp =>
      refine .com ?_ (not_mem_of_plain hp)
      rw [length_takeAll _ _ _ _ rfl, slots_of_plain hp]
      exact Nat.zero_add _
  | @pressed pre hp =>
      refine .comPressed ?_ (by simpa using not_mem_of_plain hp)
      rw [length_takeAll _ _ _ _ rfl, Signature.slots, List.countP_append]
      have hslots := slots_of_plain hp
      rw [Signature.slots] at hslots
      rw [hslots]
      exact congrArg (· + 1) (Nat.zero_add _)
  | @rest pre l hp hl =>
      refine hrest hl (fun h => ?_) ?_
      · simpa [not_mem_of_plain hp, eq_comm] using h
      · rw [length_takeAll _ _ _ _ rfl, ← slots_of_plain hp]
        rw [Signature.slots, List.countP_append] at hslots
        exact Nat.le_trans (Nat.le_of_eq (Nat.zero_add _)) (Nat.le_trans (Nat.le_add_right ..) hslots)
  | @again pre g ds l tk hp hl _ =>
      refine hrest hl (fun h => ?_) (List.length_take_le ..)
      simpa [not_mem_of_plain hp, eq_comm] using h

theorem Compile.CallsWith.receives {sig : Signature} {op : Op} {vs : List Value}
    (h : CallsWith sig vs.length op) (hslots : sig.slots ≤ maxArgs) :
    sig.Receives (received op vs) := by
  cases h with
  | com hn hj => exact ⟨Nat.le_trans (Nat.le_of_eq hn) hslots, fun h => absurd h hj⟩
  | comPressed hn hj =>
      refine ⟨?_, fun h => absurd h hj⟩
      rw [received, List.length_append]
      exact Nat.le_trans (Nat.le_of_eq hn) hslots
  | comAll hn hj => exact ⟨hn, fun h => absurd h hj⟩
  | comJoined hn => exact ⟨Nat.le_add_left 1 24, fun _ => ⟨_, rfl⟩⟩

variable {k : Runner} {b : Block} {a : Activation} {s : Interp} {sig : Signature} {id : Ident}
variable {f : List Value → HostProgram} {self : Nat} {vs rest : List Value} {op : Op}
variable {action : Action}

theorem invoke_host (hrole : id.role = .command sig (.host f)) (args : List Value) :
    invoke k id args = runHost k (f args) := by
  rw [invoke, hrole]

theorem invoke_role {id' : Ident} (hrole : id'.role = id.role) (args : List Value) :
    invoke k id' args = invoke k id args := by
  rw [invoke, invoke, hrole]

/-- The instruction of a call passes the operands, and takes them off the stack. -/
theorem runFrom_callInstr (hk : Forward k) (h : CallsWith sig vs.length op)
    (hid : s.table.get? self = some id) (hrole : id.role = .command sig action)
    (hfits : self < callIndexLimit) (hstack : a.stack = vs.reverse ++ rest)
    (hroom : a.stack.length < maxOperands)
    (hw : b.Holds a.pc (callInstr op vs.length self).encode) {left : Nat}
    (hleft : b.size < a.pc + left) :
    outcome (runFrom k b left a) s = outcome (goOn k b left a.locals (do
      let v ← invoke k id (received op vs)
      return { a with pc := a.pc + 1, stack := rest, result := v })) s := by
  have hread {a : Activation} : outcome (a.identIn b self) s = (.ok id, s) := by
    rw [World.outcome_identIn, hid]
  have hperform {op : Op} {w : UInt32} (hw : b.words[a.pc]? = some w) (ho : Word.op? w = some op)
      (hx : op ≠ .exit) {args : List Value}
      (hp : outcome (perform k b op w { a with pc := a.pc + 1 }) s = outcome (do
        let v ← invoke k id args
        return { a with pc := a.pc + 1, stack := rest, result := v }) s) :
      outcome (runFrom k b left a) s = outcome (goOn k b left a.locals (do
        let v ← invoke k id args
        return { a with pc := a.pc + 1, stack := rest, result := v })) s := by
    rw [runFrom_perform hk hw ho hx hleft]
    exact outcome_goOn hp _
  have hnext : ({ a with pc := a.pc + 1 } : Activation).stack = vs.reverse ++ rest := hstack
  have hsignature : id.role.signature = sig := by rw [hrole, Role.signature]
  have hplain (op : Op) : (Word.arg (Word.make op .null (UInt32.ofNat self))).toNat = self :=
    Word.toNat_arg_make op .null (Nat.lt_of_lt_of_le hfits (by decide))
  cases h with
  | com hn hj =>
      have hw : b.words[a.pc]? = some (Word.make .com .null (UInt32.ofNat self)) :=
        (Block.holds_cons.mp hw).1
      refine hperform hw (Word.op?_make ..) (by decide) ?_
      simp only [perform, stepCall, hplain, Word.ret_make]
      rw [outcome_bind_ok hread, hsignature, callCommand_reverse hnext hn]
      rfl
  | comPressed hn hj =>
      have hw : b.words[a.pc]? = some (Word.make .comPressed .null (UInt32.ofNat self)) :=
        (Block.holds_cons.mp hw).1
      refine hperform hw (Word.op?_make ..) (by decide) ?_
      simp only [perform, stepCall, hplain, Word.ret_make]
      rw [outcome_bind_ok hread, outcome_bind_ok (outcome_push hroom _ _ s), hsignature,
        callCommand_reverse
          (show Value.int 1 :: a.stack = (vs ++ [Value.int 1]).reverse ++ rest by simp [hstack])
          (by simpa using hn)]
      rfl
  | comAll hn hj =>
      have hw : b.words[a.pc]? = some (Word.make .comAll .null
          (Word.callOperand (UInt32.ofNat vs.length) (UInt32.ofNat self))) :=
        (Block.holds_cons.mp hw).1
      have hcount : vs.length < 32 := Nat.lt_of_le_of_lt hn (by decide)
      refine hperform hw (Word.op?_make ..) (by decide) ?_
      simp only [perform, stepCall, Word.callArgc_make _ _ hcount,
        Word.callIndex_make _ _ _ hfits, Word.ret_make]
      rw [outcome_bind_ok hread, callCommand_reverse hnext rfl]
      rfl
  | comJoined hn =>
      have hw : b.words[a.pc]? = some (Word.make .comJoined .null
          (Word.callOperand (UInt32.ofNat vs.length) (UInt32.ofNat self))) :=
        (Block.holds_cons.mp hw).1
      have hcount : vs.length < 32 := Nat.lt_of_le_of_lt hn (by decide)
      obtain ⟨hwindow, hdrop⟩ := window_reverse hnext rfl
      refine hperform hw (Word.op?_make ..) (by decide) ?_
      simp only [perform, stepCall, Word.callArgc_make _ _ hcount,
        Word.callIndex_make _ _ _ hfits, Word.ret_make]
      rw [outcome_bind_ok hread, callJoined, hwindow, pure_bind, hdrop]
      rfl

/-- From an interpreter a computation prepares a call and then invokes a command once, with arguments
of which something is known; it goes on with what the command gives. -/
def Engine.Invokes {α : Type} (k : Runner) (id : Ident) (P : Table → List Value → Prop)
    (m : Engine α) (next : Engine Value → Engine α) (s : Interp) : Prop :=
  ∃ args s', P s'.table args ∧ Prepares s s' ∧
    outcome m s = outcome (next (invoke k id args)) s'

/-- The arguments of a compiled call with literal words are what the operands for the words stand
for. -/
def Compile.HandsWords (self : Nat) (ws : List Bytes) (sig : Signature) (t : Table)
    (args : List Value) : Prop :=
  ∃ op os vs, Called self ws sig op os ∧ List.Forall₂ (Operand.Is t) os vs ∧ args = received op vs

theorem Compile.HandsWords.receives {ws : List Bytes} {t : Table} {args : List Value}
    (h : HandsWords self ws sig t args) (hslots : sig.slots ≤ maxArgs) : sig.Receives args := by
  obtain ⟨op, os, vs, hcalled, hvs, rfl⟩ := h
  have hcalls := hcalled.callsWith hslots
  rw [hvs.length_eq] at hcalls
  exact hcalls.receives hslots

/-- From an interpreter a computation prepares a call and then calls a function of the host once; it
goes on with what the function gives. -/
def Engine.CallsOnce {α : Type} (k : Runner) (sig : Signature) (f : List Value → HostProgram)
    (m : Engine α) (next : Engine Value → Engine α) (s : Interp) : Prop :=
  ∃ args s', sig.Receives args ∧ Prepares s s' ∧
    outcome m s = outcome (next (runHost k (f args))) s'

theorem Engine.Invokes.callsOnce {α : Type} {P : Table → List Value → Prop} {m : Engine α}
    {next : Engine Value → Engine α} (h : Invokes k id P m next s)
    (hrole : id.role = .command sig (.host f)) (hP : ∀ t args, P t args → sig.Receives args) :
    CallsOnce k sig f m next s := by
  obtain ⟨args, s', hargs, hprep, hcall⟩ := h
  rw [invoke_host hrole] at hcall
  exact ⟨args, s', hP _ _ hargs, hprep, hcall⟩

/-- A run through the code of a call. -/
theorem runFrom_called (hk : Forward k) {t : Table} {n : Nat} {code : Code}
    {os : List Compile.Operand} (hcode : Lays t n [] code os) (hcalls : CallsWith sig os.length op)
    (hslots : sig.slots ≤ maxArgs) (hf : Fits .operands t b) (hid : t.get? self = some id)
    (hrole : id.role = .command sig action) (ht : t.Retains s.table)
    (hw : b.Holds a.pc (Code.words a.pc (code ++ [.instr (callInstr op os.length self)])))
    (hstack : a.stack.length < maxResults) (hroom : n + a.stack.length ≤ maxOperands) {left : Nat}
    (hleft : b.size < a.pc + left) :
    Invokes k id (fun t args => ∃ vs, List.Forall₂ (Compile.Operand.Is t) os vs ∧ args = received op vs)
      (runFrom k b left a) (fun v => goOn k b left a.locals (do
        return { a with
          pc := a.pc + (Code.words a.pc (code ++ [.instr (callInstr op os.length self)])).length
          result := ← v })) s := by
  rw [words_append, Block.holds_append] at hw
  obtain ⟨vs, s', hleads, hprep, hvs⟩ := hcode.leads hk hf.block ht hf.table hw.1
    (show a.stack = ([] : List Value).reverse ++ a.stack from rfl) .nil hroom
  have hlen := hvs.length_eq
  rw [hlen] at hcalls hw ⊢
  obtain ⟨id', hid', -, hrole'⟩ := (ht.trans hprep.idents) self id hid
  have hmax : vs.length ≤ maxArgs := by
    cases hcalls with
    | com hn => omega
    | comPressed hn => omega
    | comAll hn => exact hn
    | comJoined hn => exact hn
  have hfits := Nat.lt_of_lt_of_le (Table.lt_size_of_get? hid) (hf.calls nofun)
  have hcall := runFrom_callInstr (a := { a with
      pc := a.pc + (Code.words a.pc code).length
      stack := vs.reverse ++ a.stack }) hk hcalls hid' (hrole'.trans hrole) hfits rfl
    (by
      simp only [List.length_append, List.length_reverse]
      unfold maxOperands
      omega)
    (by simpa [Code.words, Piece.words] using hw.2)
    (show b.size < a.pc + (Code.words a.pc code).length + left by omega)
  refine ⟨received op vs, s', ⟨vs, hvs, rfl⟩, hprep, ?_⟩
  rw [hleads.runs left hleft, hcall, invoke_role hrole']
  have hword : (callInstr op vs.length self).encode.length = 1 := by
    cases hcalls <;> rfl
  simp only [words_append, Code.words, Piece.words, List.append_nil, List.length_append, hword,
    Nat.add_assoc]

theorem Signature.Built.groupSize_le {sig : Signature} (h : sig.Built) : sig.groupSize ≤ 4 := by
  cases h with
  | fixed hp =>
      have h := groupSize_plain hp []
      rw [List.append_nil] at h
      rw [h]
      exact Nat.zero_le 4
  | pressed hp =>
      rw [groupSize_plain hp]
      exact Nat.zero_le 4
  | @rest pre l hp hl =>
      rw [groupSize_plain hp]
      cases l with
      | joined | all => exact Nat.zero_le 4
      | _ => cases hl
  | again hp _ hmax =>
      rw [List.append_assoc, groupSize_plain hp]
      exact hmax

section Commands

variable {name : Bytes} {ws : List Bytes}

/-- A text that is one call: behind it the run ends, and gives what the call gives one level deeper. -/
theorem outcome_runText {room pc : Nat} {src label : Bytes} {s₁ s' : Interp} {m : Engine Value}
    (hcompile : outcome (compileText src label) s = (.ok b, s₁)) (hlevel : s'.level = s₁.level.inner)
    (hcall : outcome (runFrom (run room) b (b.size + 1) { pc := 1 }) (s₁.setLevel s₁.level.inner) =
      outcome (goOn (run room) b (b.size + 1) [] (do return { pc, result := ← m })) s')
    (hx : b.words[pc]? = some (Word.make .exit .null 0)) :
    outcome (runText (run (room + 1)) src label) s =
      outcome (deeper m) (s'.setLevel s₁.level) := by
  have hlocals : Activation.locals { pc := 1 } = [] := rfl
  have hends := goOn_exit (k := run room) hx hlocals m b.size
  have hback : (s'.setLevel s₁.level).setLevel s₁.level.inner = s' := by rw [← hlevel]; rfl
  rw [runText, outcome_bind_ok hcompile, run, outcome_bind, deeper, outcome_atLevel, hcall, hends,
    outcome_bind, deeper, outcome_atLevel, Interp.level_setLevel, hback]
  rcases outcome m s' with ⟨stop | v, s''⟩ <;> rfl

/-- A text that is one call of a command. -/
theorem invokes_text (hs : s.table.Founded .layout)
    (hfound : s.table.lookup? name = some (self, id)) (hrole : id.role = .command sig action)
    (hsig : sig.Built) (hslots : sig.slots ≤ maxArgs) {src : Bytes}
    (hws : Spells (name :: ws) src []) (hsign : ∀ w ∈ ws.head?, isSign w = false)
    (hshort : src.length < operandLimit) (label : Bytes)
    (hf : Fits .operands (compile s.table src label).table (compile s.table src label).block)
    (room : Nat) :
    Invokes (run room) id (HandsWords self ws sig) (runText (run (room + 1)) src label) deeper s := by
  have hgroup := hsig.groupSize_le
  obtain ⟨code, op, os, st', hrun, hpass, hlays, hcalled, -⟩ := run_statements
    (show Table.Founded .layout
      (State.table { cursor := { rest := src, name := label }, table := s.table }) from hs)
    hshort (Nat.le_refl (src.length + 3)) hws hfound hrole hsig hslots hsign
    (show maxArgs ≤ maxOperands by decide) (by unfold maxOperands maxResults; omega) false 0
    (.inl ⟨rfl, rfl, rfl⟩)
  have hprogram : program s.table src label =
      (code ++ [.instr (callInstr op os.length self)], st') := hrun
  have htable : (compile s.table src label).table = st'.table := by rw [compile_table, hprogram]
  have hblock : (compile s.table src label).block =
      toBlock label (code ++ [.instr (callInstr op os.length self)]) := by
    rw [compile_block, hprogram]
  obtain ⟨block, s₁, hcompile, hprep, rfl, htable₁⟩ := quiet_compileText hs hshort label
  rw [htable, hblock] at hf
  rw [hblock] at hcompile
  rw [htable] at htable₁
  obtain ⟨id', hid', -, hrole'⟩ := hpass.names.retains self id (Table.get?_of_lookup? hfound)
  obtain ⟨hw, hx⟩ := Block.holds_append.mp
    (holds_toBlock label (code ++ [.instr (callInstr op os.length self)]))
  generalize toBlock label (code ++ [.instr (callInstr op os.length self)]) = b at *
  obtain ⟨args, s', hargs, hprep', hcall⟩ := runFrom_called (s := s₁.setLevel s₁.level.inner)
    (a := { pc := 1 }) (forward_run room) hlays (hcalled.callsWith hslots) hslots hf hid' (hrole'.trans hrole)
    (htable₁ ▸ .refl _) hw (by decide) (Nat.le_refl _) (show b.size < 1 + (b.size + 1) by omega)
  obtain ⟨vs, hvs, hargs⟩ := hargs
  refine ⟨args, s'.setLevel s₁.level, ⟨op, os, vs, hcalled, hvs, hargs⟩, hprep.leave hprep', ?_⟩
  rw [invoke_role hrole'] at hcall
  exact outcome_runText hcompile hprep'.level hcall (Block.holds_cons.mp hx).1

private theorem goOn_resultArg (hk : Forward k) {ret : RetTag} {pc left : Nat}
    (hw : b.words[pc]? = some (Word.make .resultArg ret 0)) (hroom : a.stack.length < maxOperands)
    (hleft : b.size < pc + left) (m : Engine Value) (locals : List Nat) :
    goOn k b left locals (do return { a with pc, result := ← m }) =
      goOn k b left locals (do
        return { a with pc := pc + 1, stack := (← m).force ret :: a.stack, result := .null }) := by
  refine goOn_bind_congr fun s v s' _ => ?_
  change runFrom k b left { a with pc, result := v } = runFrom k b left _
  refine runFrom_moved (a := { a with pc, result := v }) hk hw (Word.op?_make ..) nofun hleft ?_
  rw [perform, Word.ret_make]
  exact if_pos hroom

/-- A call of a command in parentheses, behind other operands. -/
theorem invokes_group {levels prev : Nat} {st : State} {want : Want} {r : Bytes}
    (hs : st.table.Founded .layout) (hfound : st.table.lookup? name = some (self, id))
    (hrole : id.role = .command sig action) (hsig : sig.Built) (hslots : sig.slots ≤ maxArgs)
    (hws : Spells (name :: ws) st.cursor.rest (code ')' :: r))
    (hsign : ∀ w ∈ ws.head?, isSign w = false) (hshort : st.cursor.rest.length < operandLimit)
    (hdeep : st.cursor.rest.length + 3 ≤ levels) (hprev : prev < maxResults)
    (hroom : prev + sig.groupSize ≤ maxResults + 1) :
    ∃ code st', (group (nested (levels + 1)) want prev).run st = (code ++ lookupTail want, st') ∧
      st'.cursor.rest = r ∧ ∀ room b a s left, Fits .operands st'.table b →
        st'.table.Retains s.table → b.Holds a.pc (Code.words a.pc code) → a.stack.length ≤ prev →
        b.size < a.pc + left →
        Invokes (run room) id (HandsWords self ws sig) (runFrom (run room) b left a)
          (fun v => goOn (run room) b left a.locals (do
            return { a with
              pc := a.pc + (Code.words a.pc code).length
              stack := (← v).force want.tag :: a.stack
              result := .null })) s := by
  have hresults : maxResults = 7 := rfl
  have hargs : maxArgs = 25 := rfl
  obtain ⟨code, op, os, st', hrun, hpass, hlays, hcalled, hrest⟩ := run_statements
    (n := maxOperands - prev) hs hshort hdeep hws hfound hrole hsig hslots hsign
    (by unfold maxOperands; omega) (by unfold maxOperands; omega) want.takesView prev
    (.inr ⟨rfl, rfl⟩)
  refine ⟨code ++ [.instr (callInstr op os.length self)] ++ plain .resultArg want.tag, st', ?_,
    hrest, ?_⟩
  · exact group_inPlace hprev hrun (by simp)
  · intro room b a s left hf ht hw hstack hleft
    have hlength : (Code.words a.pc (code ++ [.instr (callInstr op os.length self)] ++
        plain .resultArg want.tag)).length =
          (Code.words a.pc (code ++ [.instr (callInstr op os.length self)])).length + 1 := by
      rw [words_append _ (code ++ _), words_plain rfl, List.length_append]
      rfl
    rw [words_append _ (code ++ _), Block.holds_append, words_plain rfl] at hw
    obtain ⟨id', hid', -, hrole'⟩ := hpass.names.retains self id (Table.get?_of_lookup? hfound)
    obtain ⟨args, s', ⟨vs, hvs, hargs⟩, hprep, hcall⟩ := runFrom_called (forward_run room) hlays
      (hcalled.callsWith hslots) hslots hf hid' (hrole'.trans hrole) ht hw.1 (by omega)
      (by unfold maxOperands at *; omega) hleft
    rw [invoke_role hrole'] at hcall
    refine ⟨args, s', ⟨op, os, vs, hcalled, hvs, hargs⟩, hprep,
      hcall.trans (congrArg (outcome · s') ?_)⟩
    have harg := goOn_resultArg (forward_run room) (Block.holds_cons.mp hw.2).1 (a := a)
      (by unfold maxOperands; omega) (show b.size < _ + left by omega) (invoke (run room) id args)
      a.locals
    rw [hlength, ← Nat.add_assoc]
    exact harg

/-- A call of a command through a name that is known only then. -/
theorem outcome_callNamed (k : Runner)
    (hfound : s.table.lookup? name = some (self, id)) (hrole : id.role = .command sig action)
    {args : List Value} {P : List Value → Interp → Prop}
    (hshape : Quiet (shape sig self false args) s P) (kind : TextKind) (ret : RetTag) :
    ∃ vs s', P vs s' ∧ Prepares s s' ∧ outcome (callNamed k (.text kind name) args ret) s =
      outcome (do return (← invoke k id vs).force ret) s' := by
  obtain ⟨vs, s', hshape, hprep, hvs⟩ := hshape
  refine ⟨vs, s', hvs, hprep, ?_⟩
  have hcallable : isCallable id = true := by rw [isCallable, hrole]
  have hfoundCall : callFound k name self id args ret = callShaped k self id false args := by
    simp only [callFound, hrole, hcallable, if_true]
  have hsignature : id.role.signature = sig := by rw [hrole, Role.signature]
  have hshaped : outcome (callShaped k self id false args) s = outcome (invoke k id vs) s' := by
    rw [callShaped, hsignature, outcome_bind_ok hshape]
  have hnamed : outcome (callNamed k (.text kind name) args ret) s =
      outcome (do return (← callShaped k self id false args).force ret) s := by
    rw [← hfoundCall]
    unfold callNamed
    simp only [Value.text?]
    rw [outcome_bind_ok (outcome_get s), hfound]
  rw [hnamed, outcome_bind, hshaped]
  exact (outcome_bind ..).symm

private theorem callsOnce_named (k : Runner) (hs : s.table.Founded .layout)
    (hfound : s.table.lookup? name = some (self, id)) (hrole : id.role = .command sig (.host f))
    (hsig : sig.Built) (hslots : sig.slots ≤ maxArgs) {args : List Value}
    (hargs : ∀ v ∈ args, v.Short) (hn : args.length + (sig.groupSize - 1) ≤ maxArgs)
    (kind : TextKind) (ret : RetTag) :
    CallsOnce k sig f (callNamed k (.text kind name) args ret) (fun v => do return (← v).force ret)
      s := by
  obtain ⟨vs, s', ⟨hlen, hjoined⟩, hprep, hcall⟩ :=
    outcome_callNamed k hfound hrole (quiet_shape self false hsig hs hargs) kind ret
  rw [invoke_host hrole] at hcall
  refine ⟨vs, s', ⟨?_, hjoined⟩, hprep, hcall⟩
  have hone : 1 ≤ maxArgs := by decide
  omega

end Commands

/-- A name stands for a command of the host. -/
structure Table.HasCommand (t : Table) (name : Bytes) (index : Nat) (sig : Signature)
    (f : List Value → HostProgram) : Prop where
  founded : t.Founded .layout
  found : ∃ id, t.lookup? name = some (index, id) ∧ id.role = .command sig (.host f)

/-- A text begins with a call with literal words, the first of which is not the sign of an
assignment, and is not too long to be compiled. -/
structure Compile.SpellsCall (name : Bytes) (ws : List Bytes) (s e : Bytes) : Prop where
  words : Spells (name :: ws) s e
  sign : ∀ w ∈ ws.head?, isSign w = false
  short : s.length < operandLimit

/-- Signatures that are accepted can be called: with any number of literal words, as a statement,
which runs one level deeper, or in parentheses behind operands, and with arguments through a computed
name. The function is then called once and gets no more arguments than there may be. The signature has no more letters than
that, none of them behind a repetition, and behind operands and with many arguments there is room for
the last round of one. -/
theorem accepted_callable {name text : Bytes} {sig : Signature} {self : Nat}
    {f : List Value → HostProgram} (hparse : Signature.parse text = .ok sig) (htight : sig.Tight)
    (hslots : sig.slots ≤ maxArgs) :
    (∀ (s : Interp) (ws : List Bytes) (src label : Bytes) (room : Nat),
      s.table.HasCommand name self sig f → SpellsCall name ws src [] →
      Fits .operands (compile s.table src label).table (compile s.table src label).block →
      CallsOnce (run room) sig f (runText (run (room + 1)) src label) deeper s) ∧
    (∀ (st : State) (ws : List Bytes) (r : Bytes) (want : Want) (prev levels : Nat),
      st.table.HasCommand name self sig f →
      SpellsCall name ws st.cursor.rest (ConsoleScript.code ')' :: r) →
      st.cursor.rest.length + 3 ≤ levels → prev < maxResults →
      prev + sig.groupSize ≤ maxResults + 1 →
      ∃ code st', (group (nested (levels + 1)) want prev).run st = (code ++ lookupTail want, st') ∧
        st'.cursor.rest = r ∧
        ∀ (room : Nat) (b : Block) (a : Activation) (s : Interp) (left : Nat),
          Fits .operands st'.table b → st'.table.Retains s.table →
          b.Holds a.pc (Code.words a.pc code) → a.stack.length ≤ prev → b.size < a.pc + left →
          CallsOnce (run room) sig f (runFrom (run room) b left a)
            (fun v => goOn (run room) b left a.locals (do
              return { a with
                pc := a.pc + (Code.words a.pc code).length
                stack := (← v).force want.tag :: a.stack
                result := .null })) s) ∧
    (∀ (s : Interp) (k : Runner) (args : List Value) (kind : TextKind) (ret : RetTag),
      s.table.HasCommand name self sig f → (∀ v ∈ args, v.Short) →
      args.length + (sig.groupSize - 1) ≤ maxArgs →
      CallsOnce k sig f (callNamed k (.text kind name) args ret)
        (fun v => do return (← v).force ret) s) := by
  have hbuilt := Signature.built_of_parse hparse htight
  refine ⟨fun s ws src label room h hws hf => ?_, fun st ws r want prev levels h hws => ?_,
    fun s k args kind ret h hargs hn => ?_⟩
  · obtain ⟨id, hfound, hrole⟩ := h.found
    exact (invokes_text h.founded hfound hrole hbuilt hslots hws.words hws.sign hws.short label hf
      room).callsOnce hrole fun _ _ h => h.receives hslots
  · obtain ⟨id, hfound, hrole⟩ := h.found
    intro hdeep hprev hroom
    obtain ⟨code, st', hrun, hrest, hcalls⟩ := invokes_group h.founded hfound hrole hbuilt hslots
      hws.words hws.sign hws.short hdeep hprev hroom
    refine ⟨code, st', hrun, hrest, fun room b a s left hf ht hw hstack hleft => ?_⟩
    exact (hcalls room b a s left hf ht hw hstack hleft).callsOnce hrole fun _ _ h =>
      h.receives hslots
  · obtain ⟨id, hfound, hrole⟩ := h.found
    exact callsOnce_named k h.founded hfound hrole hbuilt hslots hargs hn kind ret

def repeatingHost : Interp :=
  (Request.registerCommand (utf8 "foo") (utf8 "i1V") (some fun args => .done (args.headD .null))
    {}).perform .new

/-- The command of the host. -/
def repeatingIdent : Ident where
  name := utf8 "foo"
  role := .command [.int, .again 1, .all] (.host fun args => .done (args.headD .null))
  flags := ({} : Flags).forRegistration

set_option maxRecDepth 100000 in
theorem checked_repeatingHost :
    (Signature.parse (utf8 "i1V"), repeatingHost.table.lookup? (utf8 "foo"),
      decide ((compile repeatingHost.table (utf8 "foo 1 2") []).block.size < operandLimit),
      decide ((compile repeatingHost.table (utf8 "foo 1 2") []).table.size ≤ callIndexLimit)) =
    (.ok [.int, .again 1, .all], some (121, repeatingIdent), true, true) := by
  with_unfolding_all rfl

theorem parse_repeating : Signature.parse (utf8 "i1V") = .ok [.int, .again 1, .all] :=
  (Prod.mk.inj checked_repeatingHost).1

private theorem repeatingHost_hasCommand : repeatingHost.table.HasCommand (utf8 "foo") 121
    [.int, .again 1, .all] fun args => .done (args.headD .null) := by
  have hfound := (Prod.mk.inj (Prod.mk.inj checked_repeatingHost).2).1
  refine ⟨?_, repeatingIdent, hfound, rfl⟩
  unfold Table.Founded
  decide +kernel

theorem tight_repeating : Signature.Tight [.int, .again 1, .all] := by
  refine .cons (fun l hl hagain => ?_) (.cons (fun l hl _ => ?_) (.cons nofun .nil))
  · obtain ⟨n, h⟩ := hagain
    cases h
  · cases List.mem_singleton.mp hl
    rfl

theorem spellsCall_foo {src e : Bytes} (hsrc : src = utf8 "foo 1 2" ++ e)
    (he : e = [] ∨ e = utf8 ") 3") : SpellsCall (utf8 "foo") [utf8 "1", utf8 "2"] src e := by
  have hsign : ∀ w ∈ [utf8 "1", utf8 "2"].head?, isSign w = false := by decide
  have hall : ∀ e ∈ [[], utf8 ") 3"],
      Spells [utf8 "foo", utf8 "1", utf8 "2"] (utf8 "foo 1 2" ++ e) e ∧
        (utf8 "foo 1 2" ++ e).length < operandLimit := by decide
  subst hsrc
  obtain ⟨hspells, hshort⟩ := hall e (List.mem_pair.mpr he)
  exact ⟨hspells, hsign, hshort⟩

/-- A statement, a call in parentheses behind two operands, and a call through a computed name. -/
theorem accepted_callable_repeating :
    let sig : Signature := [.int, .again 1, .all]
    let f (args : List Value) : HostProgram := .done (args.headD .null)
    CallsOnce (run 8) sig f (runText (run 9) (utf8 "foo 1 2") []) deeper repeatingHost ∧
    (∃ code st', (group (nested 20) .any 2).run
        { cursor := { rest := utf8 "foo 1 2) 3" }, table := repeatingHost.table } =
          (code ++ lookupTail .any, st') ∧ st'.cursor.rest = utf8 " 3") ∧
    CallsOnce (run 8) sig f (callNamed (run 8) (.text .owned (utf8 "foo")) [.int 1, .null] .null)
      (fun v => do return (← v).force .null) repeatingHost := by
  have hall := @accepted_callable (utf8 "foo") _ _ 121 (fun args => .done (args.headD .null))
    parse_repeating tight_repeating (by decide)
  refine ⟨?_, ?_, ?_⟩
  · obtain ⟨-, -, hsize, htable⟩ := by
      simpa only [Prod.mk.injEq, decide_eq_true_eq] using checked_repeatingHost
    exact hall.1 repeatingHost [utf8 "1", utf8 "2"] (utf8 "foo 1 2") [] 8 repeatingHost_hasCommand
      (spellsCall_foo rfl (.inl rfl))
      ⟨hsize, Nat.le_trans htable (by decide), fun _ => htable⟩
  · obtain ⟨code, st', hrun, hrest, -⟩ := hall.2.1
      { cursor := { rest := utf8 "foo 1 2) 3" }, table := repeatingHost.table }
      [utf8 "1", utf8 "2"] (utf8 " 3") .any 2 19 repeatingHost_hasCommand
      (spellsCall_foo rfl (.inr rfl)) (by decide) (by decide) (by decide)
    exact ⟨code, st', hrun, hrest⟩
  · refine hall.2.2 repeatingHost (run 8) [.int 1, .null] .owned .null repeatingHost_hasCommand ?_
      (by decide)
    intro v hv
    rcases List.mem_cons.mp hv with rfl | hv
    · exact (by decide : (Value.int 1).toBytes.length < operandLimit)
    · cases List.mem_singleton.mp hv
      exact (by decide : 0 < operandLimit)

end ConsoleScript
