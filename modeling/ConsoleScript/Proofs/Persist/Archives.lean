import ConsoleScript.Persist.Archive
import ConsoleScript.Proofs.Engine.Outcome

/-!
What is relied on where snapshots are kept: one that was added under an id of its own is found as it was
added. Archives keep that. The archive is found where it was, and holds the snapshot under its id.
-/

namespace ConsoleScript

open Engine

namespace Disk

variable {d d' : Disk} {place q : List Bytes} {path : Bytes} {n : Node}

private theorem node?_put (d : Disk) (n : Node) (hplace : place ≠ []) :
    (d.put place n).node? place = some n := by
  unfold node? put
  rw [if_neg (by simpa using hplace), List.lookup_cons, beq_self_eq_true]

private theorem lookup_filter_ne (nodes : List (List Bytes × Node)) (hq : q ≠ place) :
    (nodes.filter (·.1 != place)).lookup q = nodes.lookup q := by
  induction nodes with
  | nil => rfl
  | cons p rest ih =>
      rw [List.filter_cons]
      cases hp : p.1 != place with
      | true =>
          rw [if_pos rfl, List.lookup_cons, List.lookup_cons, ih]
      | false =>
          have hp : p.1 = place := by simpa using hp
          rw [if_neg Bool.false_ne_true, List.lookup_cons, hp, beq_false_of_ne hq, ih]

private theorem node?_put_ne (d : Disk) (n : Node) (hq : q ≠ place) :
    (d.put place n).node? q = d.node? q := by
  unfold node? put
  split
  · rfl
  · rw [List.lookup_cons, beq_false_of_ne hq]
    exact lookup_filter_ne d.nodes hq

/-- Folders are followed as before when something is put at a place that is no folder. -/
theorem follow_put (n : Node) (hn : d.node? place ≠ some .folder) (names start : List Bytes)
    (h : d.follow start names = .ok q) : (d.put place n).follow start names = .ok q := by
  induction names generalizing start with
  | nil => exact h
  | cons p rest ih =>
      unfold follow at h ⊢
      split at h
      · cases h
      next hfolder =>
        have hne : start.reverse ≠ place := fun heq => hn (heq ▸ hfolder)
        rw [node?_put_ne d n hne, hfolder]
        dsimp only
        split at h
        next hdots =>
          rw [if_pos hdots]
          exact ih _ h
        next hdots =>
          rw [if_neg hdots]
          split at h
          · cases h
          next hlong =>
            rw [if_neg hlong]
            exact ih _ h
      · cases h

/-- A place, unless there is a file where only a folder is meant. -/
def folderOnly (d : Disk) (path : Bytes) (place : List Bytes) : Except FileError (List Bytes) :=
  match Path.namesFolder path, d.node? place with
  | false, _ | true, none | true, some .folder => pure place
  | true, some _ => .error .notFolder

private theorem folderOnly_of (h : Path.namesFolder path = true → d.node? place = none ∨
    d.node? place = some .folder) : d.folderOnly path place = .ok place := by
  unfold folderOnly
  cases hname : Path.namesFolder path with
  | false => rfl
  | true => rcases h hname with hnone | hfolder <;> simp only [*] <;> rfl

private theorem folderOnly_ok (h : d.folderOnly path q = .ok place) : q = place ∧
    (Path.namesFolder path = true → d.node? place = none ∨ d.node? place = some .folder) := by
  unfold folderOnly at h
  split at h
  next hname =>
    cases h
    exact ⟨rfl, fun htrue => absurd (hname.symm.trans htrue) Bool.false_ne_true⟩
  next hnone =>
    cases h
    exact ⟨rfl, fun _ => .inl hnone⟩
  next hfolder =>
    cases h
    exact ⟨rfl, fun _ => .inr hfolder⟩
  next => cases h

/-- What the place that a path names depends on: the folders on the way, and that it can only name a
folder where there is one, or nothing. -/
theorem locate_ok (h : d.locate path = .ok place) :
    (Path.namesFolder path = true → d.node? place = none ∨ d.node? place = some .folder) ∧
    ∀ d' : Disk, d'.cwd = d.cwd →
      (∀ start names q, d.follow start names = .ok q → d'.follow start names = .ok q) →
      (Path.namesFolder path = true → d'.node? place = none ∨ d'.node? place = some .folder) →
        d'.locate path = .ok place := by
  unfold locate at h ⊢
  split at h
  · cases h
  next hzero =>
  split at h
  · cases h
  next hempty =>
  split at h
  · cases h
  next hlong =>
  dsimp only at h
  cases hq : d.follow (if Path.isAbsolute path then [] else d.cwd).reverse (Path.components path) with
  | error e =>
      rw [hq] at h
      cases h
  | ok q =>
      rw [hq] at h
      change d.folderOnly path q.reverse = .ok place at h
      obtain ⟨rfl, hname⟩ := folderOnly_ok h
      refine ⟨hname, fun d' hcwd hfollow hname' => ?_⟩
      rw [if_neg hzero, if_neg hempty, if_neg hlong]
      dsimp only
      rw [hcwd, hfollow _ _ _ hq]
      exact folderOnly_of hname'

private theorem locate_put (n : Node) (hn : d.node? place ≠ some .folder)
    (hname : Path.namesFolder path = false) (h : d.locate path = .ok place) :
    (d.put place n).locate path = .ok place :=
  (locate_ok h).2 _ rfl (fun start names _ hq => follow_put n hn names start hq) fun htrue =>
    absurd (hname.symm.trans htrue) Bool.false_ne_true

/-- What replaces a file is found under the same path. -/
theorem replace_ok (h : d.replace path n = .ok d') :
    ∃ place, d.locate path = .ok place ∧ d'.locate path = .ok place ∧ d'.node? place = some n := by
  unfold replace at h
  cases hplace : d.locate path with
  | error e =>
      rw [hplace] at h
      cases h
  | ok place =>
      rw [hplace] at h
      have hput (hn : d.node? place ≠ some .folder) (hname : Path.namesFolder path = false)
          (h : pure (d.put place n) = Except.ok (ε := FileError) d') :
          ∃ place', Except.ok (ε := FileError) place = .ok place' ∧ d'.locate path = .ok place' ∧
            d'.node? place' = some n := by
        cases h
        refine ⟨place, rfl, locate_put n hn hname hplace, node?_put d n ?_⟩
        rintro rfl
        exact hn rfl
      dsimp only [bind, Except.bind] at h
      split at h
      · cases h
      next other hother hsome =>
        have hfile : d.node? place ≠ some .folder := fun hf => hother (Option.some.inj (hsome.symm.trans hf))
        refine hput hfile (Bool.eq_false_iff.mpr fun htrue => ?_) h
        rcases (locate_ok hplace).1 htrue with hnone | hfolder
        · rw [hsome] at hnone
          cases hnone
        · exact hfile hfolder
      next hnone =>
        split at h
        · split at h
          · cases h
          next hname =>
            exact hput (by rw [hnone]; nofun) (Bool.eq_false_iff.mpr hname) h
        · cases h
        · cases h

end Disk

namespace SnapshotStore

variable {store : SnapshotStore} {s s' : Interp} {d d' : Disk} {key key' label : Bytes} {now : Nat}
  {entries : List Entry}

def Has (store : SnapshotStore) (d : Disk) (key : Bytes) (entries : List Entry) : Prop :=
  ∃ d', store.rows key d = .ok (some entries, d')

def Fresh (store : SnapshotStore) (d : Disk) (key : Bytes) : Prop :=
  ∀ entries, ¬store.Has d key entries

/-- A snapshot that is added under a fresh id is found under it, with its entries in the order of their
names. -/
def Lawful (store : SnapshotStore) : Prop :=
  ∀ snapshot d d', store.Fresh d snapshot.id → (snapshot.entries.map Entry.name).Nodup →
    store.insert snapshot d = .ok d' → store.Has d' snapshot.id (snapshot.entries.mergeSort Entry.before)

theorem Lawful.has_save (hlawful : store.Lawful) (hfresh : store.Fresh s.disk key)
    (hnames : (s.collect.map Entry.name).Nodup)
    (h : outcome (store.save key label now) s = (.ok (.ok key'), s')) :
    key' = key ∧ store.Has s'.disk key (s.collect.mergeSort Entry.before) := by
  unfold save at h
  rw [outcome_bind_ok (outcome_get s)] at h
  split at h
  · cases h
  next disk hinsert =>
    cases h
    exact ⟨rfl, hlawful ⟨key, label, now, s.collect⟩ s.disk disk hfresh hnames hinsert⟩

theorem outcome_load (h : store.Has s.disk key entries) : ∃ disk, outcome (store.load key) s =
    outcome (do
      entries.forM Entry.restore
      return .ok ⟨⟩) { s with disk } := by
  obtain ⟨disk, hrows⟩ := h
  refine ⟨disk, ?_⟩
  rw [load, outcome_bind_ok (outcome_get s), hrows]
  rfl

end SnapshotStore

namespace Archive

variable {d : Disk} {path : Bytes}

/-- An archive that was written where one could be opened is opened. -/
theorem openAt_replace {found : List Snapshot × Disk} {d' : Disk} {snapshots : List Snapshot}
    (hopen : openAt d path = .ok found)
    (h : found.2.replace (Location.plain path) (.archive snapshots) = .ok d') :
    openAt d' path = .ok (snapshots, d') := by
  obtain ⟨place, -, hplace, hnode⟩ := Disk.replace_ok h
  unfold openAt at hopen ⊢
  have hfile : Location.file path = .ok (Location.plain path) := by
    unfold Location.file at hopen ⊢
    split at hopen
    · cases hopen
    · rfl
  rw [hfile] at hopen ⊢
  change (if maxPath < (Location.plain path).length then _ else _) = _ at hopen
  change (if maxPath < (Location.plain path).length then _ else _) = _
  split at hopen
  · cases hopen
  next hshort =>
  rw [if_neg hshort, hplace]
  dsimp only [bind, Except.bind, Except.mapError]
  rw [hnode]
  rfl

private theorem rows_of_open {found : List Snapshot × Disk} (hopen : openAt d path = .ok found)
    (key : Bytes) :
    (store path).rows key d = .ok ((found.1.find? (·.id == key)).map fun s =>
      s.entries.mergeSort Entry.before, found.2) := by
  dsimp only [store]
  rw [hopen]
  rfl

/-- A snapshot is added in front of those that an archive has. -/
theorem insert_ok {d' : Disk} {snapshot : Snapshot} (h : (store path).insert snapshot d = .ok d') :
    ∃ found, openAt d path = .ok found ∧
      found.2.replace (Location.plain path) (.archive (snapshot :: found.1)) = .ok d' := by
  dsimp only [store] at h
  cases hopen : openAt d path with
  | error e =>
      rw [hopen] at h
      cases h
  | ok found =>
      rw [hopen] at h
      refine ⟨found, rfl, ?_⟩
      change Except.mapError _ (found.2.replace _ _) = _ at h
      cases hreplace : found.2.replace (Location.plain path) (.archive (snapshot :: found.1)) with
      | error e =>
          rw [hreplace] at h
          cases h
      | ok disk =>
          rw [hreplace] at h
          cases h
          rfl

theorem lawful_store (path : Bytes) : (store path).Lawful := by
  intro snapshot d d' _ _ h
  obtain ⟨found, hopen, hreplace⟩ := insert_ok h
  refine ⟨d', ?_⟩
  rw [rows_of_open (openAt_replace hopen hreplace), List.find?_cons, beq_self_eq_true]
  rfl

end Archive

end ConsoleScript
