import ConsoleScript.Proofs.Engine.Identifiers

/-!
What running code may do to variables. A variable keeps its flags, but for the one that says that it is
overridden. While it is overridden it can be written and does not persist, and its value from before is
kept; an integer stays in the range of its variable; and what is read-only keeps its value, as what
persists does if each write to it would be an override. Where writes override and no program of the
host watches, the value from before an override comes back when the override ends.

All this holds as long as only aliases are written as aliases are. Code that no compiler has made can
name a variable in such an instruction, and then the variable loses its flags. So it is kept on record
which identifiers were written in this way, and what is said of variables is said for the case that all
of them are aliases.
-/

namespace ConsoleScript

open Bytecode Engine

section Variables

/-- A variable that keeps its value when calls begin and end: it shows something else than the number
of arguments. -/
def Role.isKept (role : Role) : Bool := role.isVar && !role.showsCallArgs

/-- A number is in the range of an integer variable. Variables of other kinds contain any. -/
def Role.Contains : Role → Int32 → Prop
  | .intVar least greatest _ _, n => least ≤ n ∧ n ≤ greatest
  | _, _ => True

instance (role : Role) (n : Int32) : Decidable (role.Contains n) := match role with
  | .intVar least greatest _ _ => inferInstanceAs (Decidable (least ≤ n ∧ n ≤ greatest))
  | .floatVar .. | .textVar .. | .command .. | .alias | .control .. => .isTrue trivial

/-- A value is of the kind that a variable holds. -/
def Role.Fits : Role → Value → Prop
  | .intVar .., v => ∃ n, v = .int n
  | .floatVar .., v => ∃ x, v = .float x
  | .textVar .., v => ∃ t, v = .ofBytes t
  | _, _ => False

/-- What a variable holds after a value is stored in it as it is. -/
def Role.stored : Role → Value → Value
  | .intVar .., v => .int v.toInt
  | .floatVar .., v => .float v.toSingle
  | .textVar .., v => .ofBytes v.toBytes
  | _, _ => .null

/-- Flags that differ at most in an override, and in that an unknown name became known. -/
structure Flags.Descend (f f' : Flags) : Prop where
  same : { f' with overridden := f.overridden, unknown := f.unknown } = f
  unknown : f'.unknown = true → f.unknown = true

/-- Writes to a variable that is not overridden change nothing: it is read-only, or each of them would be
an override and it persists. -/
def Flags.Refuses (f : Flags) : Prop := f.readOnly = true ∨ f.override = true ∧ f.persist = true

/-- A variable is known, and while it is overridden it takes writes, does not persist and keeps a value
of its kind from before. -/
structure Ident.Sound (id : Ident) : Prop where
  known : id.flags.unknown = false
  persist : id.flags.overridden = true → id.flags.persist = false
  readOnly : id.flags.overridden = true → id.flags.readOnly = false
  before : id.flags.overridden = true → id.role.Fits id.before

namespace Interp

/-- The value of a variable is in its range, and while the variable is overridden the value from
before is, too. -/
structure InRange (s : Interp) (id : Ident) : Prop where
  value : id.role.Contains (s.valueOf id).toInt
  before : id.flags.overridden = true → id.role.Contains id.before.toInt

/-- A variable has a value, or has it back when its override ends. -/
def Reverts (s : Interp) (v : Value) (id : Ident) : Prop :=
  if id.flags.overridden then id.before = v else s.valueOf id = v

/-- No program of the host watches a variable. -/
def Unwatched (s : Interp) : Prop :=
  ∀ i id, s.table.get? i = some id → ∀ f, id.role.watch ≠ .host f

/-- No two variables show the same number of the interpreter itself. -/
def Apart (s : Interp) : Prop :=
  ∀ i j id id' c, s.table.get? i = some id → s.table.get? j = some id' →
    id.role.cell? = some c → id'.role.cell? = some c → i = j

/-- Only aliases were written as aliases are. -/
def WellWritten (s : Interp) : Prop :=
  ∀ n i f id, s.written n i f → s.table.get? i = some id → id.role = .alias

/-- How a variable may change. -/
structure Tends (s s' : Interp) (id id' : Ident) : Prop where
  flags : id.flags.Descend id'.flags
  sound : id.Sound → id'.Sound
  inRange : s.InRange id → s'.InRange id'
  locked : id.flags.Refuses → id.flags.overridden = false →
    s'.valueOf id' = s.valueOf id ∧ id'.flags.overridden = false
  reverts : s.Unwatched → s.writeFlags.overridden = true → id.Sound →
    ∀ v, s.Reverts v id → s'.Reverts v id'

/-- An alias has flags that a write has left since, or those from before if it was not written since,
or those of a name that was just met. -/
inductive Descends (s s' : Interp) (i : Nat) (id' : Ident) : Prop
  | written {n : Nat} {f : Flags} (hn : s.writes ≤ n) (hf : s'.written n i f)
      (h : f.Descend id'.flags)
  | kept {id : Ident} (hid : s.table.get? i = some id) (h : id.flags.Descend id'.flags)
      (hn : ∀ n f, s'.written n i f → s.written n i f)
  | added (hnone : s.table.get? i = none) (h : Flags.Descend { unknown := true } id'.flags)

/-- Identifiers stay what they are, writes of aliases are kept on record, and variables are protected,
if only aliases are written as aliases are. -/
structure Protects (s s' : Interp) : Prop where
  lasts : s.table.Lasts s'.table
  mode : { s'.writeFlags with persist := s.writeFlags.persist } = s.writeFlags
  writes : s.writes ≤ s'.writes
  written : ∀ n i f, s.written n i f → s'.written n i f
  recorded : ∀ n i f, s'.written n i f → s.written n i f ∨ s.writes ≤ n ∧ n < s'.writes ∧
    { f with persist := s.writeFlags.persist, overridden := s.writeFlags.overridden } = s.writeFlags
  aliases : ∀ i id', s'.table.get? i = some id' → id'.role = .alias → s.Descends s' i id'
  kept : s'.WellWritten → ∀ i id, s.table.get? i = some id → id.role.isKept = true →
    ∃ id', s'.table.get? i = some id' ∧ s.Tends s' id id'

end Interp

/-- From interpreters in which variables are apart, variables are protected. -/
def Engine.Guarantee.protecting : Guarantee where
  From := Interp.Apart
  To := Interp.Protects
  ends := False

end Variables

section Basics

namespace Role

private theorem isKept_emptied (role : Role) : role.emptied.isKept = role.isKept := by
  cases role with
  | intVar least greatest store watch => cases store <;> rfl
  | _ => rfl

private theorem contains_emptied (role : Role) (n : Int32) :
    role.emptied.Contains n ↔ role.Contains n := by
  cases role with
  | intVar least greatest store watch => cases store <;> rfl
  | _ => rfl

private theorem fits_emptied (role : Role) (v : Value) : role.emptied.Fits v ↔ role.Fits v := by
  cases role with
  | intVar least greatest store watch => cases store <;> rfl
  | _ => rfl

theorem isVar_of_isKept {role : Role} (h : role.isKept = true) : role.isVar = true :=
  (Bool.and_eq_true_iff.mp h).1

theorem cell?_of_isKept {role : Role} (h : role.isKept = true) : role.cell? ≠ some .callArgs := by
  intro hc
  cases role with
  | intVar least greatest store watch =>
      cases store with
      | own => cases hc
      | shared c =>
          cases hc
          cases h
  | _ => cases hc

theorem stored_of_fits {role : Role} {v : Value} (h : role.Fits v) : role.stored v = v := by
  cases role with
  | intVar | floatVar | textVar =>
      obtain ⟨_, rfl⟩ := h
      rfl
  | _ => exact h.elim

end Role

theorem Ident.Like.isKept {id id' : Ident} (h : id.Like id') : id'.role.isKept = id.role.isKept := by
  rw [← Role.isKept_emptied, h.2, Role.isKept_emptied]

theorem Ident.Like.contains {id id' : Ident} (h : id.Like id') (n : Int32) :
    id'.role.Contains n ↔ id.role.Contains n := by
  rw [← Role.contains_emptied, h.2, Role.contains_emptied]

theorem Ident.Like.fits {id id' : Ident} (h : id.Like id') (v : Value) :
    id'.role.Fits v ↔ id.role.Fits v := by
  rw [← Role.fits_emptied, h.2, Role.fits_emptied]

theorem Ident.Like.cell? {id id' : Ident} (h : id.Like id') : id'.role.cell? = id.role.cell? := by
  rw [← Role.cell?_emptied, h.2, Role.cell?_emptied]

theorem Ident.Like.alias_iff {id id' : Ident} (h : id.Like id') :
    id'.role = .alias ↔ id.role = .alias := by
  refine ⟨fun hrole => ?_, fun hrole => ?_⟩
  · have hempty := h.2
    rw [hrole] at hempty
    exact Role.emptied_eq_alias hempty.symm
  · have hempty := h.2
    rw [hrole] at hempty
    exact Role.emptied_eq_alias hempty

namespace Flags.Descend

theorem refl (f : Flags) : f.Descend f := ⟨rfl, id⟩

theorem trans {f f' f'' : Flags} (h : f.Descend f') (h' : f'.Descend f'') : f.Descend f'' := by
  refine ⟨?_, fun hu => h.unknown (h'.unknown hu)⟩
  have h₁ := h.same
  rw [← h'.same] at h₁
  exact h₁

theorem persist {f f' : Flags} (h : f.Descend f') : f'.persist = f.persist :=
  (congrArg Flags.persist h.same :)

theorem readOnly {f f' : Flags} (h : f.Descend f') : f'.readOnly = f.readOnly :=
  (congrArg Flags.readOnly h.same :)

theorem arg {f f' : Flags} (h : f.Descend f') : f'.arg = f.arg :=
  (congrArg Flags.arg h.same :)

theorem hex {f f' : Flags} (h : f.Descend f') : f'.hex = f.hex :=
  (congrArg Flags.hex h.same :)

theorem override {f f' : Flags} (h : f.Descend f') : f'.override = f.override :=
  (congrArg Flags.override h.same :)

theorem refuses {f f' : Flags} (h : f.Descend f') : f'.Refuses ↔ f.Refuses := by
  rw [Refuses, Refuses, h.readOnly, h.override, h.persist]

theorem setOverridden (f : Flags) (overridden : Bool) : f.Descend { f with overridden } :=
  ⟨rfl, id⟩

end Flags.Descend

namespace Interp

variable {s s' s'' : Interp} {i : Nat} {id id' id'' : Ident}

theorem valueOf_eq (hvar : id.role.isVar = true) (hrole : id'.role = id.role)
    (hc : ∀ c, id.role.cell? = some c → s'.cell c = s.cell c) : s'.valueOf id' = s.valueOf id := by
  unfold valueOf
  rw [hrole]
  generalize id.role = role at hvar hc
  cases role with
  | intVar least greatest store watch =>
      cases store with
      | own => rfl
      | shared c => exact congrArg Value.int (hc c rfl)
  | floatVar | textVar => rfl
  | command | control | «alias» => cases hvar

theorem valueOf_of_cells (hc : ∀ c, s'.cell c = s.cell c) (id : Ident) :
    s'.valueOf id = s.valueOf id := by
  unfold valueOf
  split
  next store _ _ =>
    cases store with
    | own => rfl
    | shared c => exact congrArg Value.int (hc c)
  all_goals rfl

theorem fits_valueOf (hvar : id.role.isVar = true) : id.role.Fits (s.valueOf id) := by
  unfold valueOf
  generalize id.role = role at hvar
  cases role with
  | intVar | floatVar | textVar => exact ⟨_, rfl⟩
  | command | control | «alias» => cases hvar

theorem Unwatched.lasts (h : s.Unwatched) (ht : s.table.Lasts s'.table) : s'.Unwatched :=
  ht.roles (P := fun role => ∀ f, role.watch ≠ .host f)
    ⟨fun role => by rw [Role.watch_emptied], nofun⟩ h

theorem Unwatched.of_lasts (h : s'.Unwatched) (ht : s.table.Lasts s'.table) : s.Unwatched := by
  intro i id hid f
  obtain ⟨id', hid', hlike⟩ := ht.kept i id hid
  rw [← Role.watch_emptied, ← hlike.2, Role.watch_emptied]
  exact h i id' hid' f

theorem Apart.lasts (h : s.Apart) (ht : s.table.Lasts s'.table) : s'.Apart := by
  have hback {i : Nat} {id' : Ident} {c : Cell} (hid' : s'.table.get? i = some id')
      (hc : id'.role.cell? = some c) : ∃ id, s.table.get? i = some id ∧ id.role.cell? = some c := by
    cases hid : s.table.get? i with
    | none =>
        rw [(ht.added i id' hid hid').role] at hc
        cases hc
    | some id =>
        obtain ⟨id₂, hid₂, hlike⟩ := ht.kept i id hid
        cases hid₂.symm.trans hid'
        exact ⟨id, rfl, hlike.cell?.symm.trans hc⟩
  intro i j id₁ id₂ c h₁ h₂ hc₁ hc₂
  obtain ⟨old₁, hold₁, hcell₁⟩ := hback h₁ hc₁
  obtain ⟨old₂, hold₂, hcell₂⟩ := hback h₂ hc₂
  exact h i j old₁ old₂ c hold₁ hold₂ hcell₁ hcell₂

theorem WellWritten.of_lasts (h : s'.WellWritten) (ht : s.table.Lasts s'.table)
    (hw : ∀ n i f, s.written n i f → s'.written n i f) : s.WellWritten := by
  intro n i f id hn hid
  obtain ⟨id', hid', hlike⟩ := ht.kept i id hid
  exact hlike.alias_iff.mp (h n i f id' (hw n i f hn) hid')

namespace Tends

/-- A variable that stays as it is. -/
theorem of_same (hvar : id.role.isVar = true) (hrole : id'.role = id.role)
    (hbefore : id'.before = id.before) (hover : id'.flags.overridden = id.flags.overridden)
    (hflags : id.flags.Descend id'.flags) (hc : ∀ c, id.role.cell? = some c → s'.cell c = s.cell c) :
    s.Tends s' id id' := by
  have hvalue := valueOf_eq hvar hrole hc
  refine ⟨hflags, fun h => ⟨?_, ?_, ?_, ?_⟩, fun h => ⟨?_, ?_⟩, fun _ h => ⟨hvalue, hover ▸ h⟩,
    fun _ _ _ v h => ?_⟩
  · exact Bool.eq_false_iff.mpr fun hu => Bool.false_ne_true (h.known.symm.trans (hflags.unknown hu))
  · rw [hover, hflags.persist]
    exact h.persist
  · rw [hover, hflags.readOnly]
    exact h.readOnly
  · rw [hover, hrole, hbefore]
    exact h.before
  · rw [hrole, hvalue]
    exact h.value
  · rw [hover, hrole, hbefore]
    exact h.before
  · unfold Reverts
    rw [hover, hbefore, hvalue]
    exact h

theorem trans (hu : s.Unwatched → s'.Unwatched)
    (hm : s'.writeFlags.overridden = s.writeFlags.overridden) (h : s.Tends s' id id')
    (h' : s'.Tends s'' id' id'') : s.Tends s'' id id'' := by
  refine ⟨h.flags.trans h'.flags, fun hs => h'.sound (h.sound hs),
    fun hr => h'.inRange (h.inRange hr), fun hr ho => ?_, fun hs hw hid v hv => ?_⟩
  · obtain ⟨hvalue, ho'⟩ := h.locked hr ho
    obtain ⟨hvalue', ho''⟩ := h'.locked (h.flags.refuses.mpr hr) ho'
    exact ⟨hvalue'.trans hvalue, ho''⟩
  · exact h'.reverts (hu hs) (hm.trans hw) (h.sound hid) v (h.reverts hs hw hid v hv)

end Tends

namespace Descends

theorem trans (hn : s.writes ≤ s'.writes) (hw : ∀ n i f, s'.written n i f → s''.written n i f)
    (ht : s.table.Lasts s'.table)
    (h : ∀ id', s'.table.get? i = some id' → s.Descends s' i id') (h' : s'.Descends s'' i id'') :
    s.Descends s'' i id'' := by
  cases h' with
  | written hn' hf hd => exact .written (Nat.le_trans hn hn') hf hd
  | @kept id' hid' hd hsame =>
      cases h id' hid' with
      | written hn' hf hd' => exact .written hn' (hw _ _ _ hf) (hd'.trans hd)
      | kept hid hd' hsame' =>
          exact .kept hid (hd'.trans hd) fun n f hf => hsame' n f (hsame n f hf)
      | added hnone hd' => exact .added hnone (hd'.trans hd)
  | added hnone hd =>
      refine .added ?_ hd
      cases hid : s.table.get? i with
      | none => rfl
      | some id =>
          obtain ⟨id', hid', -⟩ := ht.kept i id hid
          rw [hnone] at hid'
          cases hid'

end Descends

namespace Protects

private theorem overridden (h : s.Protects s') :
    s'.writeFlags.overridden = s.writeFlags.overridden :=
  (congrArg Flags.overridden h.mode :)

theorem trans (h : s.Protects s') (h' : s'.Protects s'') : s.Protects s'' := by
  refine ⟨h.lasts.trans h'.lasts, ?_, Nat.le_trans h.writes h'.writes,
    fun n i f hn => h'.written n i f (h.written n i f hn), fun n i f hn => ?_, fun i id'' hid'' hrole => ?_,
    fun hw i id hid hkept => ?_⟩
  · have h₁ := h.mode
    rw [← h'.mode] at h₁
    exact h₁
  · rcases h'.recorded n i f hn with hn | ⟨hle, hlt, hf⟩
    · exact (h.recorded n i f hn).imp_right fun ⟨hle, hlt, hf⟩ =>
        ⟨hle, Nat.lt_of_lt_of_le hlt h'.writes, hf⟩
    · refine .inr ⟨Nat.le_trans h.writes hle, hlt, ?_⟩
      have h₁ := h.mode
      rw [← hf] at h₁
      rw [← h₁]
  · refine .trans h.writes h'.written h.lasts (fun id' hid' => ?_) (h'.aliases i id'' hid'' hrole)
    obtain ⟨id₂, hid₂, hlike⟩ := h'.lasts.kept i id' hid'
    cases hid₂.symm.trans hid''
    exact h.aliases i id' hid' (hlike.alias_iff.mp hrole)
  · obtain ⟨id', hid', ht⟩ := h.kept (hw.of_lasts h'.lasts h'.written) i id hid hkept
    obtain ⟨id₂, hid₂, hlike⟩ := h.lasts.kept i id hid
    cases hid₂.symm.trans hid'
    obtain ⟨id'', hid'', ht'⟩ := h'.kept hw i id' hid' (hlike.isKept.trans hkept)
    exact ⟨id'', hid'', ht.trans (·.lasts h.lasts) h.overridden ht'⟩

end Protects

end Interp

end Basics

end ConsoleScript
