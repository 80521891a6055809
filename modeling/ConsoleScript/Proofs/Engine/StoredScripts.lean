import ConsoleScript.Proofs.Bytecode.CacheFiles
import ConsoleScript.Proofs.Engine.BoundBlocks
import ConsoleScript.Proofs.Engine.MirroredRuns

/-!
Scripts that are stored after they were compiled. A stored block has the names of the table that it
was compiled with; where the same names are given the same indices again, the table is the one that
compiling has left behind, and the block does what executing its source would have done.
-/

namespace ConsoleScript

open Bytecode Engine

section Binding

variable {t u : Table}

theorem Table.find?_eq_none {name : Bytes} (h : name ∉ t.names) : t.find? name = none := by
  apply Array.findIdx?_eq_none_iff.mpr
  intro id hid
  have hne : id.name ≠ name := by
    rintro rfl
    exact h (List.mem_map_of_mem (Array.mem_toList_iff.mpr hid))
  simpa using hne

theorem Table.idents_naming (t : Table) (added : List Bytes) :
    (t.naming added).idents = t.idents ++ (added.map unknownAlias).toArray := by
  induction added generalizing t with
  | nil => simp [naming]
  | cons name rest ih =>
      rw [naming_cons, ih]
      simp [push]

/-- All names that a table has gained can be given again to the table as it was, and make it the table
that it has become. -/
theorem Table.Gains.bind (h : t.Gains u) : t.bind u.names = (true, u) := by
  obtain ⟨names, hidents, hnodup, hnew⟩ := h.appended
  have hnames : u.names = t.names ++ names := names_append hidents
  have htake : (t.names ++ names).take t.size = t.names := by
    rw [← length_names, List.take_left]
  have hdrop : (t.names ++ names).drop t.size = names := by
    rw [← length_names, List.drop_left]
  have hu : t.naming names = u := by
    cases u
    exact congrArg Table.mk ((idents_naming t names).trans hidents.symm)
  obtain ⟨isBound, added, hadded, -, -, -, hbound, hunbound⟩ := bindFrom_size t names
  have htrue : isBound = true := by
    by_contra hfalse
    obtain ⟨name, rest, rfl, htaken⟩ := hunbound (Bool.eq_false_iff.mpr hfalse)
    -- the name that is refused is none of the old ones and none of those that were given before it
    obtain ⟨hold, hword⟩ := hnew name (by simp)
    have hother : name ∉ added := fun hmem => (List.nodup_append.mp hnodup).2.2 name hmem name (by simp) rfl
    apply htaken
    exact ⟨find?_eq_none (by simp [names_naming, hold, hother]), hword⟩
  rw [hnames, bind_eq, htake, hdrop, if_pos List.prefix_rfl, hadded, htrue, hbound htrue, hu]

end Binding

section Blindness

/-- No identifier has a command or a watcher of the host that goes by labels of code. -/
def Interp.Blind (s : Interp) : Prop := ∀ i id, s.table.get? i = some id → id.role.Blind

/-- A registration of a host that does not go by labels of code. -/
def Request.RegistersBlind : Request → Prop
  | .registerInt _ _ _ _ _ watch | .registerFloat _ _ _ _ _ watch | .registerText _ _ _ watch =>
      watch.Blind
  | .registerCommand _ _ f _ => ∀ g, f = some g → (Action.host g).Blind
  | _ => False

/-- A new interpreter with registrations of a host that does not go by labels of code. -/
inductive Interp.Hosts : Interp → Prop
  | new : Hosts .new
  | register {s : Interp} (h : Hosts s) (q : Request) (hq : q.RegistersBlind) : Hosts (q.perform s)

variable {s : Interp}

/-- The host has nothing to do with an identifier. -/
def Role.isOwn : Role → Bool
  | .intVar _ _ _ (.host _) | .floatVar _ _ _ (.host _) | .textVar _ (.host _) => false
  | .command _ (.host _) => false
  | _ => true

theorem Role.Blind.of_isOwn {role : Role} (h : role.isOwn = true) : role.Blind := by
  cases role with
  | intVar _ _ _ watch | floatVar _ _ _ watch | textVar _ watch =>
      cases watch with
      | host f => cases h
      | none | persistence => trivial
  | command sig action =>
      cases action with
      | host f => cases h
      | builtin b => trivial
  | «alias» | control c => trivial

theorem Interp.blind_new : Interp.new.Blind :=
  fun _ _ hid => .of_isOwn (of_get?_new (p := fun id => id.role.isOwn) (by decide) hid)

/-- A registration puts an identifier into the table, or nothing. -/
theorem Interp.Blind.registered (h : s.Blind) {id : Ident} (hid : id.role.Blind) :
    (Request.registered s (s.register id)).Blind := by
  unfold Interp.register Table.add
  split
  next hadd =>
    split at hadd
    · cases hadd
      intro j id' hj
      change (s.table.push id).get? j = some id' at hj
      rw [Table.get?_push] at hj
      split at hj
      · cases hj
        exact hid
      · exact h j id' hj
    · split at hadd
      · cases hadd
        intro j id' hj
        change (s.table.modify _ fun _ => id).get? j = some id' at hj
        rw [Table.get?_modify] at hj
        split at hj
        · obtain ⟨_, -, rfl⟩ := Option.map_eq_some_iff.mp hj
          exact hid
        · exact h j id' hj
      · cases hadd
  · exact h

theorem Interp.Hosts.blind (h : s.Hosts) : s.Blind := by
  induction h with
  | new => exact blind_new
  | @register s _ q hq ih =>
      cases q with
      | registerInt | registerFloat | registerText => exact ih.registered hq
      | registerCommand name sig f flags =>
          cases f with
          | none => exact ih
          | some f =>
              change (Request.registered s (s.registerCommand name sig (some f) flags)).Blind
              unfold Interp.registerCommand
              dsimp only
              split
              · exact ih
              · exact ih.registered (hq f rfl)
      | _ => exact hq.elim

end Blindness

section Stored

/-- The block of a text, with the names that there are when it was compiled. -/
def Interp.stored (src name : Bytes) (s : Interp) : Block :=
  { (compile s.table src name).block with idents := (s.compiling src name).table.names }

variable {s : Interp} {src name : Bytes}

theorem Interp.compiling_table (src name : Bytes) (s : Interp) :
    (s.compiling src name).table = (compile s.table src name).table := by
  obtain ⟨texts, h⟩ := s.compiling_eq src name
  rw [h]
  rfl

theorem Table.gains_compile (t : Table) (src name : Bytes) : t.Gains (compile t src name).table := by
  rw [Compile.compile_table]
  exact (Compile.program_makes t src name).1

theorem Interp.idents_stored (src name : Bytes) (s : Interp) :
    (s.stored src name).idents = (compile s.table src name).table.names := by
  simp only [Interp.stored, s.compiling_table]

theorem Interp.outcome_bindIdents_stored (src name : Bytes) (s : Interp) :
    outcome (bindIdents (s.stored src name).idents) s =
      (.ok true, { s with table := (compile s.table src name).table }) := by
  rw [outcome_bindIdents, s.idents_stored, (s.table.gains_compile src name).bind]

theorem Interp.Blind.relabels (h : s.Blind) : s.table.Relabels s.table where
  size := rfl
  idents i id id' hid hid' := by
    cases hid.symm.trans hid'
    exact .of_blind (h i id hid)

/-- After compiling a text to execute it, the interpreter is as it is when the names of the stored block
have been bound, but for what compiling has reported. -/
theorem Interp.Blind.compiling_relabels (h : s.Blind) (src name : Bytes) :
    (s.compiling src []).Relabels (s.compiling src []).events s.events
      (s.binding (s.stored src name).idents) := by
  obtain ⟨-, hfaces, -⟩ := compile_of_faces (rfl : s.table.faces = s.table.faces) src [] name
  have htables := h.relabels.gains (s.table.gains_compile src []) (s.table.gains_compile src name) hfaces
  obtain ⟨texts, hcompiling⟩ := s.compiling_eq src []
  have hbinding : s.binding (s.stored src name).idents =
      { s with table := (compile s.table src name).table } :=
    congrArg Prod.snd (s.outcome_bindIdents_stored src name)
  rw [hcompiling, hbinding]
  exact .intro (warned texts (s.addCompiled src [] _)) htables ⟨[], [], rfl, rfl, .nil⟩ (.refl _) s.compiled

theorem outcome_executeBlock (b : Block) (s : Interp) : outcome (executeBlock b) s =
    outcome (protect do return (← run s.maxDepth.toNat b 1).1) s := rfl

/-- A text is executed as the block that it is compiled to. -/
theorem outcome_execute_compiled (src : Bytes) (s : Interp) : outcome (execute src) s =
    outcome (executeBlock (compile s.table src []).block) (s.compiling src []) := by
  have hcompile : outcome (compileText src []) s =
      (.ok (compile s.table src []).block, s.compiling src []) := by
    obtain ⟨texts, hok⟩ := outcome_compileText src [] s
    have hafter : s.compiling src [] = (outcome (compileText src []) s).2 := rfl
    rw [hafter, hok]
  have hkept : (s.compiling src []).maxDepth = s.maxDepth ∧
      (s.compiling src []).level = s.level := by
    obtain ⟨texts, hcompiling⟩ := s.compiling_eq src []
    rw [hcompiling]
    exact ⟨rfl, rfl⟩
  generalize s.compiling src [] = s₁ at hcompile hkept ⊢
  generalize (compile s.table src []).block = b at hcompile ⊢
  have hrun : outcome (runText (run s.maxDepth.toNat) src []) s =
      outcome (do return (← run s.maxDepth.toNat b 1).1) s₁ :=
    outcome_bind_ok hcompile _
  rw [execute, outcome_runner, executeText, outcome_protect, hrun, outcome_executeBlock,
    hkept.1, outcome_protect, hkept.2]

theorem Interp.Relabels.maxDepth {past past' : List Event} {s' : Interp} (h : s.Relabels past past' s') :
    s'.maxDepth = s.maxDepth := by
  cases h with
  | intro => rfl

theorem Interp.Blind.stored_executes (h : s.Blind) (src name : Bytes) :
    Both Stop.Relabels AnswersRelabel (outcome (execute src) s).1
        (outcome (executeBlock (s.stored src name)) (s.binding (s.stored src name).idents)).1 ∧
      (outcome (execute src) s).2.Relabels (s.compiling src []).events s.events
        (outcome (executeBlock (s.stored src name)) (s.binding (s.stored src name).idents)).2 := by
  have hstart := h.compiling_relabels src name
  have hblock : (compile s.table src []).block.Relabels (s.stored src name) :=
    (compile_of_faces (rfl : s.table.faces = s.table.faces) src [] name).1
  rw [outcome_execute_compiled, outcome_executeBlock, outcome_executeBlock, hstart.maxDepth]
  exact (mirrors_runCode (runsBlindly_run _) hblock 1).protect _ _ hstart

end Stored

end ConsoleScript
