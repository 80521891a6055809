import ConsoleScript.Proofs.Engine.KindedRuns
import ConsoleScript.Proofs.Engine.LastingSessions
import ConsoleScript.Proofs.Engine.Operands
import ConsoleScript.Proofs.Engine.Shaping

/-!
What commands get. A command with a letter for each of its arguments is called with as many as it has
letters, each of them a value of the kind that its letter declares: by compiled code, whatever text it
was compiled from, and through a name that is computed, with any arguments.
-/

namespace ConsoleScript

open Bytecode Compile Engine

section Conversions

variable {s : Interp} {self : Nat} {isLookup : Bool}

theorem Engine.Quiet.yields {α : Type} {m : Engine α} {P : α → Interp → Prop} {Q : α → Prop}
    (h : Quiet m s P) (hq : Yields m Q) : Quiet m s fun a _ => Q a := by
  obtain ⟨a, s', hm, hs, -⟩ := h
  exact ⟨a, s', hm, hs, hq s a s' hm⟩

private theorem quiet_compileText_any (src name : Bytes) (s : Interp) :
    Quiet (compileText src name) s fun _ _ => True := by
  have hgains := (program_makes s.table src name).1
  rw [← compile_table] at hgains
  have hadd : Prepares s (s.addCompiled src name (compile s.table src name).table) :=
    ⟨hgains.names.retains, rfl, [], rfl⟩
  refine .read ((Quiet.change hadd).bind fun _ s' _ _ => ?_)
  exact (quiet_forM quiet_debug _ _).bind fun _ _ _ _ => .pure trivial

private theorem quiet_codeOf_any (src : Bytes) (s : Interp) :
    Quiet (codeOf src) s fun v _ => ∃ b pc, v = .code b pc :=
  (quiet_compileText_any src [] s).bind fun _ _ _ _ => .pure ⟨_, _, rfl⟩

/-- An argument is converted to what its letter declares. -/
theorem quiet_converted (hs : s.table.Founded .layout) (v : Value) {l : Letter}
    (hl : l.isPlain = true) (hself : l ≠ .self) (hcount : l ≠ .count) :
    Quiet (convertArg v l) s fun v' _ => l.Admits self v' := by
  cases l with
  | int | intOrLeast => exact .pure ⟨_, rfl⟩
  | float | floatOrPrevious => exact .pure ⟨_, rfl⟩
  | text | ownText => exact .pure ⟨_, _, rfl⟩
  | any | anyOrNull => exact .pure trivial
  | self => exact absurd rfl hself
  | count => exact absurd rfl hcount
  | pressed | joined | all | again => cases hl
  | condition =>
      simp only [convertArg]
      split
      next => exact .pure rfl
      next =>
        refine (quiet_codeOf_any _ s).mono ?_
        rintro _ _ - ⟨b, pc, rfl⟩
        exact rfl
      next hnone => exact .pure hnone
  | code =>
      simp only [convertArg]
      split
      next hcode =>
        cases v with
        | code b pc => exact .pure ⟨b, pc, rfl⟩
        | _ => cases hcode
      next => exact quiet_codeOf_any _ s
  | ident =>
      simp only [convertArg]
      split
      next i hi =>
        cases v with
        | ident i => exact .pure ⟨i, rfl⟩
        | _ => cases hi
      next => exact (quiet_identOf hs v).yields (yields_identOf v)

private theorem admits_missingArg {l : Letter} (hl : l.isPlain = true) (hself : l ≠ .self)
    (hcount : l ≠ .count) (previous : Option Value) : l.Admits self (missingArg previous l) := by
  cases l with
  | int | intOrLeast | float | floatOrPrevious | ident => exact ⟨_, rfl⟩
  | text | ownText | code => exact ⟨_, _, rfl⟩
  | any | anyOrNull => trivial
  | condition => exact rfl
  | self => exact absurd rfl hself
  | count => exact absurd rfl hcount
  | pressed | joined | all | again => cases hl

/-- Shaping in progress: the arguments so far are what the letters so far declare. -/
structure Engine.Shaping.Fits (i : Nat) (ls : Signature) (st : Shaping) : Prop where
  admits : ls.Admits i st.shaped
  once : st.again = false

theorem Engine.Shaping.Fits.add {ls : Signature} {l : Letter} {st : Shaping} {v : Value}
    (h : st.Fits self ls) (hv : l.Admits self v) : (st.add v).Fits self (ls ++ [l]) :=
  ⟨List.rel_append h.admits (.cons hv .nil), h.once⟩

/-- The argument of a letter that has one is what the letter declares. -/
theorem quiet_take_fits (hs : s.table.Founded .layout) {ls : Signature} {l : Letter} {st : Shaping}
    (hst : st.Fits self ls) (hl : l.isPlain = true) :
    Quiet (st.take self isLookup l) s fun st' _ => st'.Fits self (ls ++ [l]) := by
  have hgiven (hself : l ≠ .self) (hcount : l ≠ .count) :
      Quiet (st.addGiven l) s fun st' _ => st'.Fits self (ls ++ [l]) := by
    unfold Shaping.addGiven
    split
    next v rest _ =>
      exact (quiet_converted hs v hl hself hcount).bind fun v' _ _ hv' => .pure (hst.add hv')
    next =>
      rw [hst.once]
      exact .pure ⟨(hst.add (admits_missingArg hl hself hcount _)).admits, hst.once⟩
  cases l with
  | self => exact .pure (hst.add rfl)
  | count => exact .pure (hst.add ⟨_, rfl⟩)
  | again => cases hl
  | _ => exact hgiven (by decide) (by decide)

/-- The arguments of a call through a computed name are what the letters declare. -/
theorem quiet_shapeFrom_fits {sig : Signature} (hsig : sig.IsFixed) (hs : s.table.Founded .layout)
    {fuel at' : Nat} {st : Shaping} (hat : at' ≤ sig.length) (hfuel : sig.length ≤ fuel + at')
    (hst : st.Fits self (sig.take at')) :
    Quiet (shapeFrom sig.toArray self isLookup fuel at' st) s fun vs _ => sig.Admits self vs := by
  induction fuel generalizing at' st s with
  | zero =>
      have hend : at' = sig.length := by omega
      subst hend
      rw [List.take_length] at hst
      exact .pure hst.admits
  | succ fuel ih =>
      rcases Nat.lt_or_eq_of_le hat with hlt | rfl
      · obtain ⟨l, hl⟩ : ∃ l, sig[at']? = some l := ⟨_, List.getElem?_eq_getElem hlt⟩
        have hget : sig.toArray[at']? = some l := by rw [List.getElem?_toArray, hl]
        have htake : sig.take (at' + 1) = sig.take at' ++ [l] := by
          rw [List.take_add_one, hl]
          rfl
        have hgo {s' : Interp} {st' : Shaping} (hs : s'.table.Founded .layout)
            (h : st'.Fits self (sig.take at' ++ [l])) :
            Quiet (shapeFrom sig.toArray self isLookup fuel (at' + 1) st') s' fun vs _ =>
              sig.Admits self vs :=
          ih hs hlt (by omega) (htake ▸ h)
        by_cases hplain : l.isPlain = true
        · rw [shapeFrom_letter hplain hget]
          refine (quiet_take_fits hs hst hplain).bind fun st' s' hprep h => ?_
          exact hgo (hs.mono (hprep.idents.extends .layout)) h
        · have hpressed : l = .pressed := by
            have hslot := hsig l (List.mem_of_getElem? hl)
            unfold Letter.isPlain at hplain
            rw [hslot] at hplain
            simpa using hplain
          subst hpressed
          rw [shapeFrom, hget]
          exact hgo hs ⟨(hst.add (l := .pressed) rfl).admits, hst.once⟩
      · have hnone : sig.toArray[sig.length]? = none := by simp
        rw [shapeFrom, hnone]
        rw [List.take_length] at hst
        exact .pure hst.admits

private theorem quiet_shape_fits {sig : Signature} (hsig : sig.IsFixed)
    (hs : s.table.Founded .layout)
    (args : List Value) :
    Quiet (shape sig self isLookup args) s fun vs _ => sig.Admits self vs := by
  refine quiet_shapeFrom_fits hsig hs (Nat.zero_le _) ?_ ⟨.nil, rfl⟩
  exact Nat.le_trans (Nat.le_add_right _ 2) (Nat.le_mul_of_pos_right _ (by omega))

end Conversions

section Interpreters

theorem Library.items_accepted : Library.items.all (fun item =>
    (Signature.parse item.signature.toBytes).toOption == some item.signature) = true := by decide

/-- The commands of the library have signatures that are accepted. -/
theorem Interp.declares_new : Interp.new.table.Declares := by
  intro i sig hf
  obtain ⟨id, hid, hform⟩ := Option.map_eq_some_iff.mp hf
  rw [Interp.get?_new] at hid
  rcases List.mem_append.mp (List.mem_of_getElem? hid) with h | h
  · obtain ⟨name, flags, rfl⟩ := Interp.eq_alias_of_mem_slots h
    cases hform
  rcases List.mem_append.mp h with h | h
  · rcases List.mem_append.mp h with h | h
    · simp only [Interp.cellIdents, List.mem_cons, List.not_mem_nil, or_false] at h
      rcases h with rfl | rfl | rfl <;> cases hform
    · obtain ⟨c, -, rfl⟩ := List.mem_map.mp h
      cases hform
  · obtain ⟨item, hitem, rfl⟩ := List.mem_map.mp h
    have hsig : item.signature = sig := by
      simpa [Library.Item.toIdent, Role.form] using hform
    have haccepted := List.all_eq_true.mp Library.items_accepted item hitem
    rw [hsig, beq_iff_eq] at haccepted
    cases hparse : Signature.parse sig.toBytes with
    | error e =>
        rw [hparse] at haccepted
        cases haccepted
    | ok letters =>
        rw [hparse] at haccepted
        exact ⟨sig.toBytes, Option.some.inj haccepted ▸ hparse⟩

/-- Whatever a host does with an interpreter, every command has a signature that is accepted, and
the argument slots are at their places. -/
theorem Interp.founded_declares (qs : List Request) {s : Interp}
    (h : s.table.Founded .layout ∧ s.table.Declares) :
    (qs.foldl (fun s q => q.perform s) s).table.Founded .layout ∧
      (qs.foldl (fun s q => q.perform s) s).table.Declares := by
  induction qs generalizing s with
  | nil => exact h
  | cons q qs ih =>
      refine ih ⟨q.keeps_slots h.1, fun i sig hf => ?_⟩
      have hrole : ∀ i id, (q.perform s).table.get? i = some id →
          ∀ sig, id.role.form .operands = .command sig → ∃ text, Signature.parse text = .ok sig := by
        refine q.keeps_roles (P := fun role => ∀ sig, role.form .operands = .command sig →
          ∃ text, Signature.parse text = .ok sig) ⟨fun role => by rw [Role.form_emptied], ?_⟩ ?_ ?_ ?_
        · exact fun sig h => by cases h
        · intro role hvar sig hform
          cases role with
          | command => cases hvar
          | _ => cases hform
        · intro text letters f hparse sig hform
          cases hform
          exact ⟨text, hparse⟩
        · exact fun i id hid sig hform => h.2 i sig (by rw [Table.form?_of_get? hid, hform])
      obtain ⟨id, hid, hform⟩ := Option.map_eq_some_iff.mp hf
      exact hrole i id hid sig hform

end Interpreters

def Bytecode.Word.calledCommand? (w : UInt32) : Option Nat := match Word.op? w with
  | some .com | some .comPressed => some (Word.arg w).toNat
  | some .comAll | some .comJoined => some (Word.callIndex w)
  | _ => none

section Calls

variable {t : Table} {b : Block} {k : Runner} {room : Nat} {a : Activation} {s : Interp} {ks : Kinds}
  {w : UInt32} {self : Nat} {id : Ident} {sig : Signature} {action : Action}

/-- A step that hands a command the arguments that its letters declare, or has no room for the last
one. -/
inductive Engine.HandsOver (k : Runner) (b : Block) (a : Activation) (s : Interp) (ret : RetTag)
    (self : Nat) (sig : Signature) (id : Ident) : Prop
  | full (h : outcome (step k b a) s = (.error (.fault { cause := .stackOverflow }), s))
  | called (args below : List Value) (hargs : sig.Admits self args) (hlength : args.length = sig.slots)
      (h : outcome (step k b a) s = outcome (do
        let v ← invoke k id args
        return .go { pc := a.pc + 1, stack := below, result := v.force ret, locals := a.locals }) s)

private theorem callCommand_eq {n : Nat} {ret : RetTag} (h : n ≤ a.stack.length) :
    callCommand k id n ret a = do
      let v ← invoke k id (a.stack.take n).reverse
      return { a with stack := a.stack.drop n, result := v.force ret } := by
  unfold callCommand Activation.window
  rw [if_pos h]
  rfl

/-- Where what is known of the operands is what the code was compiled for, a command that is called
gets what its letters declare. -/
theorem KindedAt.handsOver (h : KindedAt t b a.pc ks) (ha : ks.Top a.stack)
    (ht : t.Extends .operands s.table) (hw : b.words[a.pc]? = some w)
    (hcall : Word.calledCommand? w = some self) (hid : s.table.get? self = some id)
    (hrole : id.role = .command sig action) (hsig : sig.IsFixed) :
    HandsOver k b a s (Word.ret w) self sig id := by
  have hform {f : Form} (hf : t.form? .operands self = some f) : f = .command sig := by
    obtain ⟨id', hid', hform, -⟩ := Table.signature_of_form? ht hf
    rw [hid] at hid'
    cases hid'
    rw [← hform, hrole]
    rfl
  have hslots : id.role.signature.slots = sig.slots := by rw [hrole]; rfl
  -- The other instructions call no command by its index.
  have hother {op : Op} (ho : Word.op? w = some op)
      (hop : op ≠ .com ∧ op ≠ .comPressed ∧ op ≠ .comAll ∧ op ≠ .comJoined) : False := by
    unfold Word.calledCommand? at hcall
    rw [ho] at hcall
    obtain ⟨h₁, h₂, h₃, h₄⟩ := hop
    cases op with
    | com => exact h₁ rfl
    | comPressed => exact h₂ rfl
    | comAll => exact h₃ rfl
    | comJoined => exact h₄ rfl
    | _ => cases hcall
  generalize hpc : a.pc = pc at h
  rw [hpc] at hw
  cases h with
  | surplus h =>
      obtain ⟨⟨vs, rest, hstack, hvs⟩, hroom⟩ := ha
      rw [hstack, List.length_append, ← hvs.length_eq] at hroom
      omega
  | @plain w' op _ ps qs ks hw' ho hop hi hr =>
      rw [hw] at hw'
      cases hw'
      obtain ⟨hfits, -⟩ := ha.taken
      obtain ⟨-, hall, hjoined, -, -⟩ := hi.op_ne
      have hread : ps.length ≤ a.stack.length := by
        have := hfits.length_eq
        rw [List.length_take] at this
        omega
      have hindex (hcom : op = .com ∨ op = .comPressed) : (Word.arg w).toNat = self := by
        unfold Word.calledCommand? at hcall
        rw [ho] at hcall
        rcases hcom with rfl | rfl <;> exact Option.some.inj hcall
      by_cases hcom : op = .com
      · subst hcom
        obtain ⟨rfl, f, hf, hn, hfit⟩ := hi.of_com
        have hself := hindex (.inl rfl)
        rw [hself] at hf hfit
        have hfsig := hform hf
        subst hfsig
        have hadmits := hfit sig rfl hsig _ hfits
        refine .called _ (a.stack.drop ps.length) hadmits (hadmits.length_eq hsig) ?_
        rw [World.step_perform (hpc ▸ hw) ho (by decide), outcome_bind, outcome_com (hself ▸ hid),
          hslots]
        replace hn : ps.length = sig.slots := hn
        rw [← hn, callCommand_eq (a := { a with pc := a.pc + 1 }) hread, ← outcome_bind, bind_assoc]
        rfl
      by_cases hpressed : op = .comPressed
      · subst hpressed
        obtain ⟨rfl, f, hf, hn, hfit⟩ := hi.of_comPressed
        have hself := hindex (.inr rfl)
        rw [hself] at hf hfit
        have hfsig := hform hf
        subst hfsig
        replace hn : ps.length + 1 = sig.slots := hn
        have hadmits := hfit sig rfl hsig _ hfits
        have hstep : outcome (Engine.step k b a) s = outcome (do
            let a₁ ← Activation.push (.int 1) { a with pc := a.pc + 1 }
            return Next.go (← callCommand k id (ps.length + 1) (Word.ret w) a₁)) s := by
          rw [World.step_perform (hpc ▸ hw) ho (by decide), outcome_bind,
            outcome_comPressed (hself ▸ hid), hslots, ← hn, ← outcome_bind, bind_assoc]
        by_cases hroom : a.stack.length < maxOperands
        · refine .called _ (a.stack.drop ps.length) hadmits (hadmits.length_eq hsig) ?_
          rw [hstep, outcome_bind_ok (outcome_push hroom _ _ s), callCommand_eq (Nat.succ_le_succ hread),
            bind_assoc, List.take_succ_cons, List.reverse_cons]
          rfl
        · refine .full ?_
          rw [hstep, Activation.push, if_neg hroom]
          rfl
      exact (hother ho ⟨hcom, hpressed, hall, hjoined⟩).elim
  | @call w' op _ ps ks hw' ho hi hn hr =>
      rw [hw] at hw'
      cases hw'
      rcases hi with rfl | rfl | ⟨hop, f, hf, hfixed⟩
      · exact (hother ho (by decide)).elim
      · exact (hother ho (by decide)).elim
      · have hself : Word.callIndex w = self := by
          unfold Word.calledCommand? at hcall
          rw [ho] at hcall
          rcases hop with rfl | rfl <;> exact Option.some.inj hcall
        rw [hself] at hf
        exact absurd hsig (hfixed sig (hform hf))
  | literal hw' ho hlit =>
      rw [hw] at hw'
      cases hw'
      refine (hother ho ⟨?_, ?_, ?_, ?_⟩).elim <;>
      · intro h
        rw [h] at hlit
        cases hlit
  | branch hw' ho hc =>
      rw [hw] at hw'
      cases hw'
      refine (hother ho ⟨?_, ?_, ?_, ?_⟩).elim <;>
      · intro h
        rw [h] at hc
        cases hc
  | exit hw' ho | shadow hw' ho | block hw' ho | enter hw' ho | enterResult hw' ho | jump hw' ho =>
      rw [hw] at hw'
      cases hw'
      exact (hother ho (by decide)).elim

/-- The code of a text hands a command what it declares, wherever a run of it comes to the call. -/
theorem compiled_handsOver {src name : Bytes} {p : Nat} {s' : Interp} (ht : t.Founded .layout)
    (hd : t.Declares) (hsrc : src.length < operandLimit)
    (hsize : (compile t src name).block.size < operandLimit)
    (htable : (compile t src name).table.size ≤ callIndexLimit)
    (hp : (compile t src name).block.BodyStart p)
    (hext : (compile t src name).table.Extends .operands s.table)
    (hreach : Reaches (run room) (compile t src name).block { pc := p } s a s')
    (hw : (compile t src name).block.words[a.pc]? = some w) (hcall : Word.calledCommand? w = some self)
    (hid : s'.table.get? self = some id) (hrole : id.role = .command sig action)
    (hsig : sig.IsFixed) :
    HandsOver (run room) (compile t src name).block a s' (Word.ret w) self sig id := by
  have hstart : Kinds.Top [] (Activation.stack { pc := p }) := ⟨⟨[], [], rfl, .nil⟩, Nat.zero_le _⟩
  obtain ⟨⟨ks, hk, hks⟩, hext'⟩ :=
    (kindedAt_bodyStart ht hd hsrc hsize htable hp).reaches (a := { pc := p }) hstart hext hreach
  exact hk.handsOver hks hext' hw hcall hid hrole hsig

/-- So does the code of a text that is compiled after anything that a host may have done before. -/
theorem Interp.hosted_handsOver (qs : List Request) {src name : Bytes} {p : Nat} {s₀ s' : Interp}
    (hs₀ : s₀ = qs.foldl (fun s q => q.perform s) .new) (hsrc : src.length < operandLimit)
    (hsize : (compile s₀.table src name).block.size < operandLimit)
    (htable : (compile s₀.table src name).table.size ≤ callIndexLimit)
    (hp : (compile s₀.table src name).block.BodyStart p)
    (hext : (compile s₀.table src name).table.Extends .operands s.table)
    (hreach : Reaches (run room) (compile s₀.table src name).block { pc := p } s a s')
    (hw : (compile s₀.table src name).block.words[a.pc]? = some w)
    (hcall : Word.calledCommand? w = some self) (hid : s'.table.get? self = some id)
    (hrole : id.role = .command sig action) (hsig : sig.IsFixed) :
    HandsOver (run room) (compile s₀.table src name).block a s' (Word.ret w) self sig id := by
  obtain ⟨ht, hd⟩ :=
    founded_declares qs ⟨(Interp.inv_new .layout).table.founded, Interp.declares_new⟩
  rw [← hs₀] at ht hd
  exact compiled_handsOver ht hd hsrc hsize htable hp hext hreach hw hcall hid hrole hsig

private theorem shaped_handsOver {isLookup : Bool} {args : List Value}
    (hs : s.table.Founded .layout)
    (hrole : id.role = .command sig action) (hsig : sig.IsFixed) :
    ∃ vs s', outcome (shape sig self isLookup args) s = (.ok vs, s') ∧ sig.Admits self vs ∧
      vs.length = sig.slots ∧
        outcome (callShaped k self id isLookup args) s = outcome (invoke k id vs) s' := by
  have hquiet : Quiet (shape sig self isLookup args) s fun vs _ => sig.Admits self vs :=
    quiet_shape_fits hsig hs args
  obtain ⟨vs, s', hshape, -, hvs⟩ := hquiet
  refine ⟨vs, s', hshape, hvs, hvs.length_eq hsig, ?_⟩
  rw [callShaped, hrole]
  exact outcome_bind_ok hshape _

end Calls

/-- Commands get what they declare. A command with a letter for each of its arguments is called with
as many arguments as it has letters, and each of them is what its letter declares: an integer, a
float, a text, code, a value that is no text, a reference, the command itself or the number 1. So it
is called by the code of every text, compiled for a table in which the signatures of commands are
accepted, wherever code of its block is run from and whatever the run does before the call, as long
as identifiers are what they were when the text was compiled. And so it is called through a name that
is computed, with any arguments. -/
theorem commands_get_what_they_declare {t : Table} (ht : t.Founded .layout) (hd : t.Declares)
    {src name : Bytes} (hsrc : src.length < operandLimit)
    (hsize : (compile t src name).block.size < operandLimit)
    (htable : (compile t src name).table.size ≤ callIndexLimit) {self : Nat} {id : Ident}
    {sig : Signature} {action : Action} (hrole : id.role = .command sig action) (hsig : sig.IsFixed) :
    (∀ p room s a s' w, (compile t src name).block.BodyStart p →
      (compile t src name).table.Extends .operands s.table →
      Reaches (run room) (compile t src name).block { pc := p } s a s' →
      (compile t src name).block.words[a.pc]? = some w → Word.calledCommand? w = some self →
      s'.table.get? self = some id →
        HandsOver (run room) (compile t src name).block a s' (Word.ret w) self sig id) ∧
      ∀ k s isLookup args, s.table.Founded .layout → ∃ vs s',
        outcome (shape sig self isLookup args) s = (.ok vs, s') ∧ sig.Admits self vs ∧
          vs.length = sig.slots ∧
            outcome (callShaped k self id isLookup args) s = outcome (invoke k id vs) s' :=
  ⟨fun _ _ _ _ _ _ hp hext hreach hw hcall hid =>
      compiled_handsOver ht hd hsrc hsize htable hp hext hreach hw hcall hid hrole hsig,
    fun _ _ _ _ hs => shaped_handsOver hs hrole hsig⟩

/-- A call of a command whose argument is missing. -/
def missingArgument : Block := (compile Interp.new.table (utf8 "nodebug") []).block

private theorem words_missingArgument : missingArgument.words = #[Word.make .start .null 0,
    Word.make .empty .null 0, Word.make .com .null 52, Word.make .exit .null 0] := by decide +kernel

/-- The command gets code that does nothing. -/
theorem commands_get_what_they_declare_missing : ∃ (s : Interp) (id : Ident),
    s.table.get? 52 = some id ∧ id.role = .command [.code] (.builtin .nodebug) ∧
      missingArgument.words[2]? = some (Word.make .com .null 52) ∧
        HandsOver (run 0) missingArgument { pc := 2, stack := [emptyCode .null] } s .null 52 [.code]
          id := by
  have hfounded := (Interp.inv_new .layout).table.founded
  have hsrc : (utf8 "nodebug").length < operandLimit := by decide
  obtain ⟨hnames, -⟩ := program_typed (r := .layout) ⟨hfounded, absurd rfl⟩ hsrc []
  rw [← compile_table] at hnames
  obtain ⟨id₀, hid₀, hrole₀⟩ : ∃ id, Interp.new.table.get? 52 = some id ∧
      id.role = .command [.code] (.builtin .nodebug) := ⟨_, Interp.get?_new 52, rfl⟩
  obtain ⟨id, hid, -, hrole⟩ := hnames.retains 52 id₀ hid₀
  rw [hrole₀] at hrole
  have hw : missingArgument.words[1]? = some (Word.make .empty .null 0) := by
    rw [words_missingArgument]
    rfl
  have hw' : missingArgument.words[2]? = some (Word.make .com .null 52) := by
    rw [words_missingArgument]
    rfl
  have hstep (s : Interp) : outcome (step (run 0) missingArgument { pc := 1 }) s =
      (.ok (.go { pc := 2, stack := [emptyCode .null] }), s) := by
    rw [World.step_perform hw (Word.op?_make ..) (by decide)]
    rfl
  have hcalled := (@commands_get_what_they_declare Interp.new.table hfounded Interp.declares_new
    (utf8 "nodebug") [] hsrc (by decide +kernel) (by decide +kernel) 52 id _ _ hrole
    fun l hl => List.mem_singleton.mp hl ▸ rfl).1 1 0
  exact ⟨_, id, hid, hrole, hw', hcalled { Interp.new with
    table := (compile Interp.new.table (utf8 "nodebug") []).table } _ _ _ .program (.refl _ _)
      (.step .refl (hstep _)) hw' (by decide) hid⟩

/-- An alias that was compiled for a command which then got another parameter. The command gives its
argument back. -/
def reregisteredHost : Interp :=
  let foo (sig : String) :=
    Request.registerCommand (utf8 "foo") (utf8 sig) (some fun args => .done (args.headD .null)) {}
  (foo "s").perform ((Request.execute (utf8 "a = [foo 1]; a")).perform ((foo "i").perform .new))

/-- The code of the alias hands over an integer where the command now declares a text. -/
theorem reregistered_command_gets_integer :
    (reregisteredHost.table.lookup? (utf8 "foo")).map (·.2.role.signature) = some [.text] ∧
      ((outcome (execute (utf8 "a")) reregisteredHost).1.toOption.bind Except.toOption).map
        Value.typeName = some "int" := by
  decide +kernel

end ConsoleScript
