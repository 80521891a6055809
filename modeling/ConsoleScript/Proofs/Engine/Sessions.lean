import ConsoleScript.Engine.Interface
import ConsoleScript.Proofs.Compile.Making
import ConsoleScript.Proofs.Engine.Beginning
import ConsoleScript.Proofs.Engine.Runs

/-!
Sessions of a host with an interpreter. While nothing is executed, a host registers variables and
commands, executes texts and code, calls and writes identifiers, and changes how the interpreter is
set up. Whatever it asks for, the interpreter is at rest again afterwards: no call is running and no
value is saved.
-/

namespace ConsoleScript

open Bytecode Engine

/-- What a host asks of an interpreter while nothing is executed. -/
inductive Request where
  | execute (src : Bytes)
  | executeCode (b : Block) (pc : Nat)
  | executeIdent (i : Nat) (args : List Value)
  | call (name : Bytes) (args : List Value)
  | runValue (v : Value)
  | execFile (path : Bytes)
  | compile (src name : Bytes)
  | setValue (name : Bytes) (v : Value)
  | newAlias (name : Bytes)
  | bindIdents (names : List Bytes)
  | setOverrideMode (on : Bool)
  | clearOverrides
  | registerInt (name : Bytes) (least default greatest : Int32) (flags : Flags) (watch : Watch)
  | registerFloat (name : Bytes) (least default greatest : Single) (flags : Flags) (watch : Watch)
  | registerText (name default : Bytes) (flags : Flags) (watch : Watch)
  | registerCommand (name sig : Bytes) (f : Option (List Value → HostProgram)) (flags : Flags)
  | configure (maxDepth : Int) (trace : Bool) (dir : Bytes) (disk : Disk)

namespace Request

/-- The interpreter after a computation, however it ended. -/
def after {α : Type} (m : Engine α) (s : Interp) : Interp := (outcome m s).2

/-- The interpreter after a registration; one that is refused changes nothing. -/
def registered (s : Interp) : Except RegisterError (Nat × Interp) → Interp
  | .ok (_, s') => s'
  | .error _ => s

/-- The interpreter after a request. -/
def perform : Request → Interp → Interp
  | .execute src, s => after (Engine.execute src) s
  | .executeCode b pc, s => after (Engine.executeCode b pc) s
  | .executeIdent i args, s => after (Engine.executeIdent i args) s
  | .call name args, s => after (Engine.call name args) s
  | .runValue v, s => after (do Engine.runValue (← runner) v) s
  | .execFile path, s => after (Engine.execFile path) s
  | .compile src name, s => after (compileText src name) s
  | .setValue name v, s => after (Engine.setValue name v) s
  | .newAlias name, s => after (intern name) s
  | .bindIdents names, s => after (Engine.bindIdents names) s
  | .setOverrideMode on, s => after (Engine.setOverrideMode on) s
  | .clearOverrides, s => after Engine.clearOverrides s
  | .registerInt name least default greatest flags watch, s =>
      registered s (s.registerInt name least default greatest flags watch)
  | .registerFloat name least default greatest flags watch, s =>
      registered s (s.registerFloat name least default greatest flags watch)
  | .registerText name default flags watch, s =>
      registered s (s.registerText name default flags watch)
  | .registerCommand name sig f flags, s => registered s (s.registerCommand name sig f flags)
  | .configure maxDepth trace dir disk, s => { s with maxDepth, trace, dir, disk }

/-- What is expected of a host. It hands in only code that can be run; where operands count, its
commands have fixed signatures, and keep them when they are registered again. -/
def Allowed (r : Rigour) (s : Interp) : Request → Prop
  | .executeCode b pc => (Value.code b pc).Ok r s.table
  | .executeIdent i args => i < s.table.size ∧ ∀ v ∈ args, v.Ok r s.table
  | .call _ args => ∀ v ∈ args, v.Ok r s.table
  | .runValue v | .setValue _ v => v.Ok r s.table
  | .registerInt _ _ _ _ _ watch | .registerFloat _ _ _ _ _ watch | .registerText _ _ _ watch =>
      watch.Ok r s.table
  | .registerCommand name text f _ => ∀ g sig, f = some g → Signature.parse text = .ok sig →
      (Action.host g).Ok r s.table sig ∧
        (r ≠ .layout → sig.IsFixed ∧ ∀ i id sig' action, s.table.lookup? name = some (i, id) →
          id.role = .command sig' action → sig' = sig)
  | _ => True

end Request

theorem compiled_registered (id : Ident) (s : Interp) :
    (Request.registered s (s.register id)).compiled = s.compiled := by
  unfold Interp.register
  cases s.table.add id <;> rfl

/-- The interpreters that a host can have. -/
inductive Reachable (r : Rigour) : Interp → Prop
  | new : Reachable r .new
  | request {s : Interp} (h : Reachable r s) (q : Request) (hq : q.Allowed r s) :
      Reachable r (q.perform s)

/-- No call is running, and nothing is to be restored. -/
structure AtRest (r : Rigour) (s : Interp) : Prop where
  inv : Inv r s
  scopes : s.scopes = []
  depth : ∀ i, s.table.depth i = 0

/-- A request leaves an interpreter at rest: outside all calls, with identifiers of the same forms, with
the number of arguments that it had, and with writes of named aliases only. -/
structure Interp.Rests (r : Rigour) (s s' : Interp) : Prop where
  atRest : AtRest r s'
  forms : s.table.Extends r s'.table
  callArgs : s'.callArgs = s.callArgs
  named : ∀ n i f, s'.written n i f → s.written n i f ∨ s'.table.IsNamed r i

theorem Interp.Rests.refl {r : Rigour} {s : Interp} (h : AtRest r s) : s.Rests r s :=
  ⟨h, .refl r _, rfl, fun _ _ _ => .inl⟩

section Registration

variable {r : Rigour} {t t' : Table} {s : Interp} {i : Nat}

theorem Table.Ready.push (h : t.Ready r) {id : Ident} (hid : id.Ok r t)
    (hreg : r ≠ .layout → ∀ sig, id.role.form r = .command sig → sig.Regular r) :
    (t.push id).Ready r := by
  have hext := Table.extends_push r t id
  refine ⟨⟨h.founded.mono hext, fun hr j sig hf => ?_⟩, fun j id' hj => ?_, h.plain_push id⟩
  · rw [Table.form?, Table.get?_push] at hf
    split at hf
    · exact hreg hr sig (Option.some.inj hf)
    · exact h.regular hr j sig hf
  · rw [Table.get?_push] at hj
    split at hj
    · cases hj
      exact hid.mono hext
    · exact (h.idents j id' hj).mono hext

/-- A registration that keeps the forms leaves the table ready, and saves nothing. -/
theorem Table.Ready.add (h : t.Ready r) {id : Ident} (hid : id.Ok r t)
    (hreg : r ≠ .layout → ∀ sig, id.role.form r = .command sig → sig.Regular r)
    (hsame : ∀ j old, t.lookup? id.name = some (j, old) → old.role.kindName = id.role.kindName →
      old.role.form r = id.role.form r) (hnamed : id.role ≠ .alias) (hsaved : id.saved = [])
    (hd : ∀ j, t.depth j = 0) (hadd : t.add id = .ok (i, t')) : t'.Ready r ∧ t.Extends r t' ∧ ∀ j, t'.depth j = 0 := by
  unfold Table.add at hadd
  split at hadd
  · cases hadd
    refine ⟨h.push hid hreg, Table.extends_push r t id, fun j => ?_⟩
    rw [Table.depth_push t hsaved, hd]
  next j old hold =>
    split at hadd
    next hkind =>
      cases hadd
      have hform (old' : Ident) (hold' : t.get? i = some old') :
          id.role.form r = old'.role.form r := by
        cases (Table.get?_of_lookup? hold).symm.trans hold'
        exact (hsame i old hold (eq_of_beq hkind)).symm
      refine ⟨h.modify fun old' hold' => ⟨hform old' hold', hid, fun hi => ?_⟩,
        Table.extends_modify i _ hform, fun j => ?_⟩
      · have hslot := h.founded i (Nat.le_of_lt hi)
        rw [Table.form?_of_get? hold', ← hform old' hold', Option.some.injEq] at hslot
        exact absurd (Role.eq_alias_of_form hslot) hnamed
      rw [Table.depth_modify]
      split
      · cases t.get? j with
        | none => rfl
        | some _ => exact congrArg List.length hsaved
      · exact hd j
    · cases hadd

theorem AtRest.registered (h : AtRest r s) {id : Ident} (hid : id.Ok r s.table)
    (hreg : r ≠ .layout → ∀ sig, id.role.form r = .command sig → sig.Regular r)
    (hsame : ∀ j old, s.table.lookup? id.name = some (j, old) →
      old.role.kindName = id.role.kindName → old.role.form r = id.role.form r)
    (hnamed : id.role ≠ .alias) (hsaved : id.saved = []) :
    s.Rests r (Request.registered s (s.register id)) := by
  unfold Interp.register
  cases hadd : s.table.add id with
  | error c => exact .refl h
  | ok p =>
      obtain ⟨i, t⟩ := p
      obtain ⟨hready, hforms, hdepth⟩ := h.inv.table.add hid hreg hsame hnamed hsaved h.depth hadd
      refine ⟨⟨⟨hready, fun j _ => ?_, h.inv.outermost⟩, h.scopes, hdepth⟩, hforms, rfl,
        fun _ _ _ => .inl⟩
      change pending 0 s.scopes j ≤ _
      rw [h.scopes]
      exact Nat.zero_le _

theorem Request.grows_registered (id : Ident) (s : Interp) :
    Grows s (registered s (s.register id)) := by
  unfold Interp.register
  cases s.table.add id <;> exact .refl s

theorem Control.kindName_not_mem (c : Control) :
    c.kindName ∉ ["var", "fvar", "svar", "command", "alias"] := by
  cases c <;> decide

theorem Control.kindName_inj {c c' : Control} (h : c.kindName = c'.kindName) : c = c' := by
  revert h
  cases c <;> cases c' <;> decide

/-- Identifiers of one kind have one form, if commands have the same parameters. -/
theorem Role.form_of_kindName {role role' : Role} (h : role.kindName = role'.kindName)
    (hc : ∀ sig action sig' action', role = .command sig action → role' = .command sig' action' →
      r ≠ .layout → sig = sig') : role.form r = role'.form r := by
  have hcontrol {c : Control} {name : String}
      (hn : name ∈ ["var", "fvar", "svar", "command", "alias"]) (h : c.kindName = name) : False :=
    c.kindName_not_mem (h ▸ hn)
  cases role with
  | control c =>
      cases role' with
      | control c' => exact congrArg Form.control (Control.kindName_inj h)
      | _ => exact (hcontrol (by simp [Role.kindName]) h).elim
  | command sig action =>
      cases role' with
      | command sig' action' =>
          by_cases hr : r = .layout
          · simp [Role.form, hr]
          · rw [hc sig action sig' action' rfl rfl hr]
            rfl
      | control c => exact (hcontrol (by simp [Role.kindName]) h.symm).elim
      | _ => simp [Role.kindName] at h
  | _ =>
      cases role' with
      | control c => exact (hcontrol (by simp [Role.kindName]) h.symm).elim
      | _ => first | rfl | simp [Role.kindName] at h

/-- A variable is registered again only as one of its kind. -/
theorem AtRest.registered_variable (h : AtRest r s) {name : Bytes} {role : Role} {flags : Flags}
    (hvar : role.isVar = true) (hs : role.showsCallArgs = false) (hw : role.watch.Ok r s.table) :
    s.Rests r (Request.registered s (s.register { name, role, flags })) := by
  have hnone (sig : Signature) (action : Action) : role ≠ .command sig action := by
    rintro rfl
    cases hvar
  refine h.registered ⟨trivial, nofun, nofun, ?_, fun hshow => ?_⟩ (fun hr sig hf => ?_)
    (fun j old _ hkind => ?_) (fun halias => ?_) rfl
  · cases role <;> first | exact hw | cases hvar
  · exact absurd (hs.symm.trans hshow) Bool.false_ne_true
  · cases role with
    | command sig action => exact absurd rfl (hnone sig action)
    | _ => cases hf
  · exact Role.form_of_kindName hkind fun _ _ sig action _ hrole _ => absurd hrole (hnone sig action)
  · have halias : role = .alias := halias
    rw [halias] at hvar
    cases hvar

/-- A command of the host, with the parameters that it had before where they count. -/
theorem AtRest.registered_command (h : AtRest r s) {name : Bytes} {sig : Signature}
    {g : List Value → HostProgram} {flags : Flags} (hg : (Action.host g).Ok r s.table sig)
    (hreg : r ≠ .layout → sig.Regular r)
    (hsame : r ≠ .layout → ∀ i id sig' action, s.table.lookup? name = some (i, id) →
      id.role = .command sig' action → sig' = sig) :
    s.Rests r (Request.registered s (s.register { name, role := .command sig (.host g), flags })) := by
  refine h.registered ⟨trivial, nofun, nofun, hg, nofun⟩ (fun hr sig' hf => ?_)
    (fun j old hold hkind => ?_) nofun rfl
  · simp only [Role.form, hr, if_false] at hf
    cases hf
    exact hreg hr
  · refine Role.form_of_kindName hkind fun sig₁ action₁ sig₂ action₂ hrole hrole' hr => ?_
    cases hrole'
    exact hsame hr j old sig₁ action₁ hold hrole

end Registration

theorem outcome_runner {α : Type} (f : Runner → Engine α) (s : Interp) :
    outcome (runner >>= f) s = outcome (f (run s.maxDepth.toNat)) s := rfl

namespace World

variable {α : Type} {r : Rigour} {w : World r}

/-- The answer of an execution: a value that is well formed, or a fault that is permitted. -/
def Answers (r : Rigour) (s : Interp) (o : Except Fault Value) : Prop :=
  (∀ v, o = .ok v → v.Ok r s.table) ∧ ∀ f, o = .error f → r.Permits (.fault f)

theorem Safe.runner {f : Runner → Engine α} {Q : Interp → α → Prop}
    (h : ∀ k, RunsSafely r k → w.Safe (f k) Q) : w.Safe (runner >>= f) Q :=
  h (run w.state.maxDepth.toNat) (runsSafely_run r _)

theorem safe_execute (src : Bytes) : w.Safe (execute src) (Answers r) :=
  .runner fun _ hk => safe_executeText hk src

theorem safe_executeCode {b : Block} {pc : Nat} (h : w.Good (.code b pc)) :
    w.Safe (executeCode b pc) (Answers r) := by
  refine .runner fun k hk => .shielded (.ite (fun hneg => ?_) fun _ => ?_)
  · exact absurd hneg (Int.not_lt.mpr (Int.natCast_nonneg pc))
  · exact (safe_runCode hk h).bind fun _ _ _ ha => .pure ha

theorem safe_executeIdent {i : Nat} {args : List Value} (hi : w.live → i < w.state.table.size)
    (hargs : w.AllGood args) : w.Safe (executeIdent i args) (Answers r) := by
  have htake : w.AllGood (args.take maxArgs) := fun hl v hv => hargs hl v (List.mem_of_mem_take hv)
  have hlen : (args.take maxArgs).length ≤ maxArgs := List.length_take_le _ _
  refine .runner fun k hk => .shielded (.identAt hi fun id hid => ?_)
  refine .ite (fun _ => .ite (fun _ => ?_) fun _ => ?_) fun _ => .ite (fun _ => ?_) fun _ => ?_
  · exact (w.safe_debug _).bind fun _ _ _ _ => .pure fun _ => trivial
  · exact safe_callAlias hk htake hi (fun _ => hlen) .null
  · refine .ensuringLevel (fun _ => rfl) (fun w' hw ht => ?_) fun _ _ _ h => h
    exact safe_callShaped hk (AllGood.later htake hw) (ht ▸ hid) false
  · exact .pure fun _ => trivial

private theorem safe_call (name : Bytes) {args : List Value} (hargs : w.AllGood args) :
    w.Safe (call name args) fun _ _ => True := by
  refine .read ?_
  split
  · exact .pure fun _ => trivial
  next i hi =>
    exact (safe_executeIdent (fun _ => Table.find?_lt hi) hargs).bind fun _ _ _ _ =>
      .pure fun _ => trivial

private theorem safe_execFile (path : Bytes) : w.Safe (execFile path) fun _ _ => True := by
  refine .runner fun k hk => (safe_readScript path).bind fun w' answer _ _ => ?_
  split
  · exact (Safe.calm fun _ => {}).bind fun _ _ _ _ => .pure fun _ => trivial
  · exact (Safe.shielded (safe_runText hk _ _)).bind fun _ _ _ _ => .pure fun _ => trivial

theorem safe_setValue (name : Bytes) {v : Value} (hv : w.Good v) :
    w.Safe (setValue name v) fun _ _ => True := by
  refine .runner fun k hk => .read ?_
  split
  · exact (safe_assignNamed hk name hv).bind fun _ _ _ _ => .pure fun _ => trivial
  next i id hid =>
    refine .ite (fun _ => .pure fun _ => trivial) fun _ => .ite (fun _ => ?_) fun _ => ?_
    · exact (safe_assign hk (fun _ => Table.lt_size_of_get? (Table.get?_of_lookup? hid)) hv).bind
        fun _ _ _ _ => .pure fun _ => trivial
    · exact .pure fun _ => trivial

private theorem safe_setOverrideMode (on : Bool) : w.Safe (setOverrideMode on) fun _ _ => True :=
  (Safe.calm fun _ => {}).drop

theorem safe_clearOverrides : w.Safe clearOverrides fun _ _ => True := by
  refine .runner fun k hk => .read (.each _ fun w' hw i hi => safe_clearOverride hk fun hl => ?_)
  exact (hw.forms hl).lt_size (List.mem_range.mp hi)

private theorem safe_bindIdents (names : List Bytes) :
    w.Safe (bindIdents names) fun _ _ => True := by
  refine .read ?_
  rcases h : w.state.table.bind names with ⟨isBound, t⟩
  have hnames : w.state.table.Names t := by
    have ht : t = (w.state.table.bind names).2 := by rw [h]
    rw [ht]
    exact (Table.gains_bindFrom 0 _ names).names
  have hset : w.Safe (modify fun s => { s with table := t }) fun _ _ => True :=
    .change (.refl _) fun hl _ => ⟨(w.inv hl).settles_names hnames, trivial⟩
  exact hset.bind fun _ _ _ _ => .pure fun _ => trivial

end World

section Rest

variable {r : Rigour} {s s' : Interp}

theorem AtRest.isBound_eq (h : AtRest r s) (i : Nat) : s.isBound i = decide (i < maxArgs) := by
  rw [Interp.isBound, Interp.used, h.scopes]
  dsimp only
  rw [h.inv.outermost, SlotSet.has_all]

theorem AtRest.settled (h : AtRest r s) (hk : Settles r s s') : AtRest r s' := by
  have hscopes : s'.scopes = [] := by
    rw [hk.scopes, Interp.setUsed, h.scopes]
  refine ⟨hk.inv, hscopes, fun i => ?_⟩
  have hbound : s'.isBound i = s.isBound i := by
    rw [h.isBound_eq, Interp.isBound, Interp.used, hscopes]
    dsimp only
    rw [hk.inv.outermost, SlotSet.has_all]
  have hd : s'.table.depth i = s.table.depth i + _ := hk.depth i
  rw [hd, h.depth, hbound]
  cases s.isBound i <;> rfl

theorem AtRest.after {α : Type} {P : Prop} {m : Engine α} {Q : Interp → α → Prop}
    (hm : ∀ h, World.Safe (r := r) ⟨s, AtRest r s ∧ P, h⟩ m Q) : Grows s (Request.after m s) ∧
      (AtRest r s → P → Within r (Request.after m s) → s.Rests r (Request.after m s)) := by
  obtain ⟨hg, hk⟩ := hm fun h => h.1.inv
  refine ⟨hg.grows, fun hr hp hw => ?_⟩
  obtain ⟨hk, -⟩ := hk ⟨hr, hp⟩ hw
  exact ⟨hr.settled hk, hk.forms, hk.callArgs, hk.targets⟩

/-- The interpreter is at rest after every request. -/
theorem Request.rests (q : Request) (s : Interp) : Grows s (q.perform s) ∧
    (AtRest r s → q.Allowed r s → Within r (q.perform s) → s.Rests r (q.perform s)) := by
  cases q with
  | execute src => exact AtRest.after fun _ => World.safe_execute src
  | executeCode b pc => exact AtRest.after fun _ => World.safe_executeCode And.right
  | executeIdent i args =>
      exact AtRest.after fun _ => World.safe_executeIdent (fun hl => hl.2.1) fun hl => hl.2.2
  | call name args => exact AtRest.after fun _ => World.safe_call name And.right
  | runValue v => exact AtRest.after fun _ => .runner fun k hk => World.safe_runValue hk And.right
  | execFile path => exact AtRest.after fun _ => World.safe_execFile path
  | compile src name => exact AtRest.after fun _ => World.safe_compileText src name
  | setValue name v => exact AtRest.after fun _ => World.safe_setValue name And.right
  | newAlias name => exact AtRest.after fun _ => World.safe_intern name
  | bindIdents names => exact AtRest.after fun _ => World.safe_bindIdents names
  | setOverrideMode on => exact AtRest.after fun _ => World.safe_setOverrideMode on
  | clearOverrides => exact AtRest.after fun _ => World.safe_clearOverrides
  | registerInt name least default greatest flags watch =>
      exact ⟨grows_registered _ s, fun h hq _ => h.registered_variable rfl rfl hq⟩
  | registerFloat name least default greatest flags watch =>
      exact ⟨grows_registered _ s, fun h hq _ => h.registered_variable rfl rfl hq⟩
  | registerText name default flags watch =>
      exact ⟨grows_registered _ s, fun h hq _ => h.registered_variable rfl rfl hq⟩
  | registerCommand name text f flags =>
      simp only [perform, Interp.registerCommand]
      cases f with
      | none => exact ⟨.refl s, fun h _ _ => .refl h⟩
      | some g =>
          cases hsig : Signature.parse text with
          | error e => exact ⟨.refl s, fun h _ _ => .refl h⟩
          | ok sig =>
              refine ⟨grows_registered _ s, fun h hq _ => ?_⟩
              obtain ⟨hg, hfixed⟩ := hq g sig rfl hsig
              exact h.registered_command hg
                (fun hr => Signature.regular_of_parse hsig (hfixed hr).1 hg.1)
                fun hr => (hfixed hr).2
  | configure maxDepth trace dir disk =>
      exact ⟨.refl s, fun h _ _ => ⟨⟨⟨h.inv.table, h.inv.backed, h.inv.outermost⟩, h.scopes, h.depth⟩,
        .refl r _, rfl, fun _ _ _ => .inl⟩⟩

theorem Reachable.atRest (h : Reachable r s) (hw : Within r s) : AtRest r s := by
  induction h with
  | new => exact ⟨Interp.inv_new r, rfl, Interp.depth_new⟩
  | @request s _ q hq ih =>
      obtain ⟨hg, hrest⟩ := q.rests (r := r) s
      exact (hrest (ih (hw.of_grows hg)) hq hw).atRest

end Rest

end ConsoleScript
