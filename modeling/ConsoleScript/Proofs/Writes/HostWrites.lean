import ConsoleScript.Proofs.Engine.Compiling
import ConsoleScript.Proofs.Engine.Identifiers
import ConsoleScript.Proofs.Writes.Overrides

/-!
Writes of the host to a name. The answer tells whether the name may be written: it is an error for a
name that is read-only or stands for a command, and the write is then not tried. It does not tell
whether the value was stored. A new name that is a number, and a variable that persists where the write
would override it, are left as they are with a warning, and the host is told that all went well. Every
other write is there when the value is read again.
-/

namespace ConsoleScript

open Bytecode Engine

/-- What an identifier of a role holds when a value was written to it: an alias the value on its own, a
variable what the value is as one of its kind, brought into its range. -/
def Role.written (v : Value) : Role → Value
  | .alias => v.settle
  | .intVar least greatest _ _ => .int (clampInt least greatest v.toInt)
  | .floatVar least greatest _ _ => .float (clampFloat least greatest v.toSingle)
  | .textVar .. => .ofBytes v.toBytes
  | _ => .null

namespace Interp

/-- The role of a name; a new name becomes an alias. -/
def roleNamed (s : Interp) (name : Bytes) : Role := (s.table.lookup? name).elim .alias (·.2.role)

/-- Whether a name cannot be written by the host: it is read-only, or stands for a command. -/
def locks (s : Interp) (name : Bytes) : Bool :=
  match s.table.lookup? name with
  | none => false
  | some (_, id) => id.flags.readOnly || !(id.role.isVar || id.role.isAlias)

/-- Whether a write to a name is dropped: the name is new and a number, or it is a variable that
persists, and the write would override it. -/
def drops (s : Interp) (name : Bytes) : Bool :=
  match s.table.lookup? name with
  | none => Reading.isNumeral name
  | some (_, id) =>
      id.role.isVar && (id.flags.persist && (s.writeFlags.overridden || id.flags.override))

/-- A name holds a value, and all identifiers are what they were. -/
structure HasWritten (name : Bytes) (v : Value) (s s' : Interp) : Prop where
  lasts : s.table.Lasts s'.table
  holds : ∃ i id, s'.table.get? i = some id ∧ id.name = name ∧ s'.valueOf id = v

end Interp

section Variables

variable {k : Runner} {s : Interp} {i : Nat} {id : Ident}

private theorem outcome_admits_drops (hid : s.table.get? i = some id)
    (hopen : id.flags.readOnly = false)
    (hdrops : (id.flags.persist && (s.writeFlags.overridden || id.flags.override)) = true) :
    ∃ texts, outcome (admits i) s = (.ok false, warned texts s) := by
  obtain ⟨hpersist, hover⟩ := Bool.and_eq_true_iff.mp hdrops
  obtain ⟨texts, htexts⟩ :=
    onlyWarns_debug (utf8 "cannot override persistent variable " ++ id.name) s
  refine ⟨texts, ?_⟩
  rw [admits, outcome_bind_ok (outcome_identAt hid), hopen, if_neg Bool.false_ne_true, override,
    outcome_bind_ok (outcome_get s), if_pos hover, if_pos hpersist]
  exact outcome_bind_ok htexts _

/-- Any other write to a variable that is not read-only is taken; the variable may become overridden by
it, or plain. -/
theorem outcome_admits_takes (hid : s.table.get? i = some id) (hopen : id.flags.readOnly = false)
    (htakes : (id.flags.persist && (s.writeFlags.overridden || id.flags.override)) = false) :
    ∃ id' s', outcome (admits i) s = (.ok true, s') ∧ s.Varies i id id' s' ∧ id'.role = id.role := by
  have hstays : s.Varies i id id s := .of_table hid rfl (fun _ _ _ => rfl) rfl rfl rfl
  rw [admits, outcome_bind_ok (outcome_identAt hid), hopen, if_neg Bool.false_ne_true, override,
    outcome_bind_ok (outcome_get s)]
  split
  next hover =>
    rw [hover, Bool.and_true] at htakes
    rw [htakes, if_neg Bool.false_ne_true]
    split
    · exact ⟨_, _, rfl, .modify hid ⟨rfl, rfl⟩ (.setOverridden _ _), rfl⟩
    · exact ⟨id, s, rfl, hstays, rfl⟩
  next =>
    split
    · exact ⟨_, _, rfl, .modify hid ⟨rfl, rfl⟩ (.setOverridden _ _), rfl⟩
    · exact ⟨id, s, rfl, hstays, rfl⟩

private theorem outcome_write_drops {m : Engine Unit} (hid : s.table.get? i = some id)
    (hopen : id.flags.readOnly = false)
    (hdrops : (id.flags.persist && (s.writeFlags.overridden || id.flags.override)) = true) :
    ∃ texts, outcome (do if ← admits i then m; notify k i) s = (.ok ⟨⟩, warned texts s) := by
  obtain ⟨texts, htexts⟩ := outcome_admits_drops hid hopen hdrops
  exact ⟨texts, outcome_bind_ok htexts _⟩

/-- A variable that takes a write holds the value afterwards, if no program of the host watches. -/
theorem outcome_write_takes {m : Engine Unit} {chosen : Role → Option Value} {w : Value}
    (hu : s.Unwatched) (hid : s.table.get? i = some id) (hopen : id.flags.readOnly = false)
    (htakes : (id.flags.persist && (s.writeFlags.overridden || id.flags.override)) = false)
    (hm : ∀ s, StoresAt m i chosen s) (hw : chosen id.role = some w) :
    ∃ s', outcome (do if ← admits i then m; notify k i) s = (.ok ⟨⟩, s') ∧
      s.HasWritten id.name w s' := by
  obtain ⟨id₁, s₁, hadmits, hvaries, hrole⟩ := outcome_admits_takes hid hopen htakes
  rcases hm s₁ with ⟨hnone, -⟩ | ⟨id₁', id₂, w', s₂, hw', hstore, hstores⟩
  · have hnothing := hnone id₁ hvaries.get?
    rw [hrole, hw] at hnothing
    cases hnothing
  cases hvaries.get?.symm.trans hstores.found
  rw [hrole, hw] at hw'
  cases hw'
  have hall := hvaries.trans hstores.toVaries
  obtain ⟨s₃, hnotify, hs₃⟩ :=
    outcome_notify_unwatched (k := k) (hu.lasts hall.lasts) hstores.get?
  refine ⟨s₃, ?_, ?_⟩
  · rw [outcome_bind_ok hadmits]
    exact (outcome_bind_ok hstore _).trans hnotify
  · rcases hs₃ with rfl | rfl <;>
      exact ⟨hall.lasts, i, id₂, hstores.get?, hall.like.1, hstores.value⟩

end Variables

section Aliases

variable {s s' s'' : Interp} {i : Nat} {id : Ident} {name : Bytes} {v : Value}

namespace Interp

theorem HasWritten.of_table (h : s.HasWritten name v s') (ht : s''.table = s'.table)
    (hc : ∀ c, s''.cell c = s'.cell c) : s.HasWritten name v s'' := by
  obtain ⟨hlasts, i, id, hid, hname, hvalue⟩ := h
  exact ⟨ht ▸ hlasts, i, id, ht ▸ hid, hname, (valueOf_of_cells hc id).trans hvalue⟩

theorem HasWritten.modifyIdent {f : Ident → Ident} (hid : s.table.get? i = some id)
    (hrole : id.role = .alias) (hlike : ∀ id : Ident, id.Like (f id)) (hvalue : (f id).value = v) :
    s.HasWritten id.name v.settle (s.modifyIdent i f) := by
  refine ⟨.modify s.table fun id _ => hlike id, i, f id, ?_, (hlike id).1, ?_⟩
  · rw [Interp.modifyIdent, Table.get?_modify, if_pos rfl, hid]
    rfl
  · have hrole' : (f id).role = .alias := (hlike id).alias_iff.mpr hrole
    rw [valueOf, hrole', hvalue]

end Interp

private theorem outcome_setArg_written (hid : s.table.get? i = some id) (hrole : id.role = .alias)
    (v : Value) :
    ∃ s', outcome (setArg i v) s = (.ok ⟨⟩, s') ∧ s.HasWritten id.name v.settle s' := by
  rw [setArg, outcome_bind_ok (outcome_get s)]
  split
  · exact ⟨_, rfl, .modifyIdent hid hrole (fun _ => ⟨rfl, rfl⟩) rfl⟩
  · have hpushed : s.HasWritten id.name v.settle (s.modifyIdent i (·.pushValue v)) :=
      .modifyIdent hid hrole (fun _ => ⟨rfl, rfl⟩) rfl
    refine ⟨_, rfl, hpushed.of_table (Interp.table_setUsed _ _) fun c => ?_⟩
    dsimp only
    rw [Interp.setUsed_eq]
    cases c <;> rfl

theorem outcome_setAlias_written (hid : s.table.get? i = some id) (hrole : id.role = .alias)
    (v : Value) :
    ∃ s', outcome (setAlias i v) s = (.ok ⟨⟩, s') ∧ s.HasWritten id.name v.settle s' := by
  refine ⟨_, rfl, ?_⟩
  exact (Interp.HasWritten.modifyIdent (f := fun id => { id.setValue v with flags := s.writeFlags })
    hid hrole (fun _ => ⟨rfl, rfl⟩) rfl).of_table rfl fun c => by cases c <;> rfl

end Aliases

section Names

variable {s s' : Interp} {i : Nat} {id : Ident} {name : Bytes} {v : Value}

theorem Interp.HasWritten.outcome_getValue (h : s.HasWritten name v s') (hd : s.table.Distinct) :
    outcome (getValue name) s' = (.ok (.ok v), s') := by
  obtain ⟨hlasts, i, id, hid, hname, hvalue⟩ := h
  have hlookup : s'.table.lookup? name = some (i, id) :=
    ((hlasts.distinct hd).lookup name i id).mpr ⟨hid, hname⟩
  rw [getValue, outcome_bind_ok (outcome_get s'), hlookup, ← hvalue]
  rfl

private theorem outcome_setValue_assign (hfound : s.table.lookup? name = some (i, id))
    (hopen : id.flags.readOnly = false) (hwritable : (id.role.isVar || id.role.isAlias) = true)
    (h : outcome (assign (run s.maxDepth.toNat) i v) s = (.ok ⟨⟩, s')) :
    outcome (setValue name v) s = (.ok (.ok ⟨⟩), s') := by
  rw [setValue, outcome_runner, outcome_bind_ok (outcome_get s), hfound]
  dsimp only
  rw [hopen, if_neg Bool.false_ne_true, if_pos hwritable]
  exact outcome_bind_ok h _

/-- An identifier that takes a write holds the value as one of its role. -/
theorem outcome_assign_written (k : Runner) (hu : s.Unwatched) (hid : s.table.get? i = some id)
    (hopen : id.flags.readOnly = false) (hwritable : (id.role.isVar || id.role.isAlias) = true)
    (htakes : id.role.isVar = true →
      (id.flags.persist && (s.writeFlags.overridden || id.flags.override)) = false)
    (v : Value) :
    ∃ s', outcome (assign k i v) s = (.ok ⟨⟩, s') ∧
      s.HasWritten id.name (id.role.written v) s' := by
  rw [assign, outcome_bind_ok (outcome_identAt hid)]
  cases hrole : id.role with
  | «alias» =>
      dsimp only
      split
      · exact outcome_setArg_written hid hrole v
      · exact outcome_setAlias_written hid hrole v
  | intVar =>
      rw [hrole] at htakes
      exact outcome_write_takes hu hid hopen (htakes rfl) (fun s => storesAt_storeInt s i _)
        (by rw [hrole]; rfl)
  | floatVar =>
      rw [hrole] at htakes
      exact outcome_write_takes hu hid hopen (htakes rfl) (fun s => storesAt_storeFloat s i _)
        (by rw [hrole]; rfl)
  | textVar =>
      rw [hrole] at htakes
      exact outcome_write_takes hu hid hopen (htakes rfl) (fun s => storesAt_storeText s i _)
        (by rw [hrole]; rfl)
  | _ =>
      rw [hrole] at hwritable
      cases hwritable

private theorem outcome_assign_drops (k : Runner) (hid : s.table.get? i = some id)
    (hopen : id.flags.readOnly = false) (hvar : id.role.isVar = true)
    (hdrops : (id.flags.persist && (s.writeFlags.overridden || id.flags.override)) = true)
    (v : Value) :
    ∃ texts, outcome (assign k i v) s = (.ok ⟨⟩, warned texts s) := by
  rw [assign, outcome_bind_ok (outcome_identAt hid)]
  cases hrole : id.role with
  | intVar | floatVar | textVar => exact outcome_write_drops hid hopen hdrops
  | _ =>
      rw [hrole] at hvar
      cases hvar

private theorem outcome_setValue_locked (hfound : s.table.lookup? name = some (i, id))
    (hlocks : (id.flags.readOnly || !(id.role.isVar || id.role.isAlias)) = true) (v : Value) :
    ∃ e, outcome (setValue name v) s = (.ok (.error e), s) := by
  rw [setValue, outcome_runner, outcome_bind_ok (outcome_get s), hfound]
  dsimp only
  split
  · exact ⟨_, rfl⟩
  next hopen =>
    rw [Bool.eq_false_iff.mpr hopen, Bool.false_or, Bool.not_eq_true'] at hlocks
    rw [hlocks, if_neg Bool.false_ne_true]
    exact ⟨_, rfl⟩

private theorem outcome_assignNamed_drops (k : Runner) (hnew : s.table.find? name = none)
    (hname : Reading.isNumeral name = true) (v : Value) :
    ∃ texts, outcome (assignNamed k name v) s = (.ok ⟨⟩, warned texts s) := by
  obtain ⟨texts, htexts⟩ := onlyWarns_debug (utf8 "cannot alias number " ++ name) s
  refine ⟨texts, ?_⟩
  rw [assignNamed, outcome_bind_ok (outcome_get s)]
  dsimp only
  rw [hnew]
  dsimp only
  rw [hname, if_pos rfl]
  exact htexts

/-- A new name becomes an alias that holds the value. -/
theorem outcome_assignNamed_written (k : Runner) (hnew : s.table.find? name = none)
    (hname : Reading.isNumeral name = false) (v : Value) :
    ∃ s', outcome (assignNamed k name v) s = (.ok ⟨⟩, s') ∧ s.HasWritten name v.settle s' := by
  let s₁ : Interp := { s with table := s.table.push { name, role := .alias } }
  have hid : s₁.table.get? s.table.size = some { name, role := .alias } := by
    change (s.table.push _).get? s.table.size = _
    rw [Table.get?_push, if_pos rfl]
  obtain ⟨s', hset, hlasts, hholds⟩ := outcome_setAlias_written hid rfl v
  have hpush : s.table.Lasts s₁.table := .push rfl hname hnew
  refine ⟨s', ?_, hpush.trans hlasts, hholds⟩
  rw [assignNamed, outcome_bind_ok (outcome_get s)]
  dsimp only
  rw [hnew]
  dsimp only
  rw [hname, if_neg Bool.false_ne_true]
  exact (outcome_bind_ok (outcome_modify s _) _).trans hset

/-- The answer of a write is about the name, and the value is there unless the write is dropped. In
every interpreter that a host can have, without a watcher of the host, writing any value to any name
ends with an answer. The answer is an error exactly for a name that cannot be written, and then nothing
has changed. If the write is dropped, the answer is no error either, and at most a warning was printed.
If it is not, the name is found afterwards and holds the value as an assignment stores it. -/
theorem host_writes_are_stored (h : Interp.Arises s) (hu : s.Unwatched) (name : Bytes) (v : Value) :
    ∃ answer s', outcome (setValue name v) s = (.ok answer, s') ∧
      ((∃ e, answer = .error e) ↔ s.locks name = true) ∧ (s.locks name = true → s' = s) ∧
      (s.locks name = false → s.drops name = true → ∃ texts, s' = warned texts s) ∧
      (s.locks name = false → s.drops name = false →
        outcome (getValue name) s' = (.ok (.ok ((s.roleNamed name).written v)), s')) := by
  have hd := h.intact.distinct
  unfold Interp.locks Interp.drops Interp.roleNamed
  cases hlookup : s.table.lookup? name with
  | none =>
      have hnew := Table.find?_of_lookup?_none hlookup
      have hset {s' : Interp} (h : outcome (assignNamed (run s.maxDepth.toNat) name v) s = (.ok ⟨⟩, s')) :
          outcome (setValue name v) s = (.ok (.ok ⟨⟩), s') := by
        rw [setValue, outcome_runner, outcome_bind_ok (outcome_get s), hlookup]
        exact outcome_bind_ok h _
      cases hnumeral : Reading.isNumeral name with
      | true =>
          obtain ⟨texts, htexts⟩ := outcome_assignNamed_drops (run s.maxDepth.toNat) hnew hnumeral v
          exact ⟨_, _, hset htexts, ⟨nofun, nofun⟩, nofun, fun _ _ => ⟨texts, rfl⟩, fun _ => nofun⟩
      | false =>
          obtain ⟨s', hok, hwritten⟩ :=
            outcome_assignNamed_written (run s.maxDepth.toNat) hnew hnumeral v
          exact ⟨_, s', hset hok, ⟨nofun, nofun⟩, nofun, fun _ => nofun,
            fun _ _ => hwritten.outcome_getValue hd⟩
  | some found =>
      obtain ⟨i, id⟩ := found
      obtain ⟨hid, rfl⟩ := (hd.lookup name i id).mp hlookup
      dsimp only [Option.elim_some]
      cases hlocks : id.flags.readOnly || !(id.role.isVar || id.role.isAlias) with
      | true =>
          obtain ⟨e, he⟩ := outcome_setValue_locked hlookup hlocks v
          exact ⟨_, s, he, ⟨fun _ => rfl, fun _ => ⟨e, rfl⟩⟩, fun _ => rfl, nofun, nofun⟩
      | false =>
          obtain ⟨hopen, hwritable⟩ := Bool.or_eq_false_iff.mp hlocks
          rw [Bool.not_eq_false'] at hwritable
          have hset {s' : Interp}
              (h : outcome (assign (run s.maxDepth.toNat) i v) s = (.ok ⟨⟩, s')) :
              outcome (setValue id.name v) s = (.ok (.ok ⟨⟩), s') :=
            outcome_setValue_assign hlookup hopen hwritable h
          cases hdrops : id.role.isVar &&
              (id.flags.persist && (s.writeFlags.overridden || id.flags.override)) with
          | true =>
              obtain ⟨hvar, hdrops⟩ := Bool.and_eq_true_iff.mp hdrops
              obtain ⟨texts, hok⟩ :=
                outcome_assign_drops (run s.maxDepth.toNat) hid hopen hvar hdrops v
              exact ⟨_, _, hset hok, ⟨nofun, nofun⟩, nofun, fun _ _ => ⟨texts, rfl⟩, fun _ => nofun⟩
          | false =>
              obtain ⟨s', hok, hwritten⟩ := outcome_assign_written (run s.maxDepth.toNat) hu hid hopen
                hwritable (fun hvar => by rwa [hvar, Bool.true_and] at hdrops) v
              exact ⟨_, s', hset hok, ⟨nofun, nofun⟩, nofun, fun _ => nofun,
                fun _ _ => hwritten.outcome_getValue hd⟩

def rangedHost : Interp := (Move.request (.registerInt (utf8 "x") 0 5 9 {} .none)).perform .new

/-- A number that is too large is brought into the range of the variable. -/
theorem host_writes_are_stored_clamped :
    (Interp.Arises rangedHost ∧ rangedHost.Unwatched) ∧
      ∃ s', outcome (setValue (utf8 "x") (.int 12)) rangedHost = (.ok (.ok ⟨⟩), s') ∧
        outcome (getValue (utf8 "x")) s' = (.ok (.ok (.int 9)), s') := by
  have harises : Interp.Arises rangedHost := .move .new _
  obtain ⟨hwatches, hlocks, hdrops, hrole⟩ :
      rangedHost.table.idents.all (!·.role.watch.isHost) = true ∧
      rangedHost.locks (utf8 "x") = false ∧ rangedHost.drops (utf8 "x") = false ∧
      (rangedHost.roleNamed (utf8 "x")).written (.int 12) = .int 9 := by decide +kernel
  have hu : rangedHost.Unwatched := .of_all hwatches
  obtain ⟨answer, s', hset, hanswer, -, -, hget⟩ :=
    host_writes_are_stored harises hu (utf8 "x") (.int 12)
  cases answer with
  | error e => exact absurd (hlocks.symm.trans (hanswer.mp ⟨e, rfl⟩)) Bool.false_ne_true
  | ok => exact ⟨⟨harises, hu⟩, s', hset, hrole ▸ hget hlocks hdrops⟩

end Names

end ConsoleScript
