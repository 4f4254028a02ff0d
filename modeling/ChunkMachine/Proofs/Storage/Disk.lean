import ChunkMachine.Proofs.Storage.Tree

set_option relaxedAutoImplicit false
set_option autoImplicit false

/-!
# Changes on disks

A disk keeps all trees that it has had. A change that is possible adds one, and a change that is not
possible adds none.

## Main definitions

* `Disk.step`, `Disk.states` — a change, and all trees.
* `Disk.prepared`, `Disk.moved` — a new file with its content, and a file at another address.

## Main results

* `Disk.change_eq_ok_iff`, `Disk.change_eq_error_iff` — what a change does.
* `Disk.get?_prepared`, `Disk.fileAt_prepared` — what there is behind a new file.
* `Disk.create_write` — new files can be made and written.
-/

namespace ChunkMachine.Disk

/-- The disk with another tree, the one that was there being kept among those of the past. -/
def step (d : Disk) (t : Tree) : Disk := ⟨t, d.tree :: d.past⟩

/-- All trees of a disk, the latest first. This is what another program could have seen in the
meantime. -/
def states (d : Disk) : List Tree := d.tree :: d.past

/-- The disk with a new file that was made empty and then written. These are two changes, one after
the other. -/
def prepared (d : Disk) (b : Address) (content : List UInt8) : Disk :=
  let made := d.step (d.tree.put b (.file []))
  made.step (made.tree.put b (.file content))

/-- The disk with a file moved, which is a single change: the content is never at both addresses. -/
def moved (d : Disk) (b a : Address) (content : List UInt8) : Disk :=
  d.step ((d.tree.erase b).put a (.file content))

/-! ## Changes -/

section Changes

variable {d d' : Disk} {f : Tree → Except OsError Tree}

/-- What follows an operation works on what the operation left, be that a disk or anything else. -/
theorem bind_apply {σ α β : Type} (x : StateM σ α) (f : α → StateM σ β) (d : σ) :
    (x >>= f) d = f (x d).1 (x d).2 := rfl

/-- A change takes place if it is possible, and the tree before it is kept. All operations that
write are of this kind. -/
theorem change_eq_ok_iff :
    change f d = (.ok (), d') ↔ ∃ t, f d.tree = .ok t ∧ d' = d.step t := by
  unfold change
  cases f d.tree with
  | error e => exact ⟨fun h => (nomatch h), fun ⟨_, h, _⟩ => (nomatch h)⟩
  | ok t =>
    refine ⟨fun h => ⟨t, rfl, ?_⟩, ?_⟩
    · cases h
      rfl
    · rintro ⟨_, ⟨⟩, rfl⟩
      rfl

/-- A change that is not possible changes nothing, and adds no tree to those of the past. -/
theorem change_eq_error_iff {e : OsError} :
    change f d = (.error e, d') ↔ f d.tree = .error e ∧ d' = d := by
  unfold change
  cases f d.tree with
  | error e' =>
    constructor
    · intro h
      cases h
      exact ⟨rfl, rfl⟩
    · rintro ⟨⟨⟩, rfl⟩
      rfl
  | ok t => exact ⟨fun h => (nomatch h), fun h => (nomatch h.1)⟩

/-- A change that is possible gives the disk with the new tree. -/
theorem change_of_ok {t : Tree} (h : f d.tree = .ok t) : change f d = (.ok (), d.step t) :=
  change_eq_ok_iff.2 ⟨t, h, rfl⟩

/-- A change that is not possible is answered with its error. -/
theorem change_of_error {e : OsError} (h : f d.tree = .error e) : change f d = (.error e, d) :=
  change_eq_error_iff.2 ⟨h, rfl⟩

/-- A change that gives no tree is answered with some error, and leaves the disk as it is. -/
theorem exists_change_eq_error (h : ∀ t, f d.tree ≠ .ok t) : ∃ e, change f d = (.error e, d) := by
  cases hf : f d.tree with
  | ok t => exact absurd hf (h t)
  | error e => exact ⟨e, change_of_error hf⟩

end Changes

/-! ## New files -/

section Prepared

variable {d d' : Disk} {source : String} {a b : Address} {content : List UInt8}

/-- Beside a new file all is as it was, and at its address there is the content. -/
theorem get?_prepared (hsource : d.tree.Names source b) (content : List UInt8) (a : Address) :
    (d.prepared b content).tree.get? a =
      if a = b then some (.file content) else d.tree.get? a := by
  have hb := hsource.ordinary
  change ((d.tree.put b (.file [])).put b (.file content)).get? a = _
  rw [Tree.get?_put _ hb, Tree.get?_put _ hb]
  split <;> rfl

/-- A new file changes no directory, so that paths lead where they led before. -/
theorem sameDirectories_prepared (hsource : d.tree.Names source b) (hfree : d.tree.get? b = none)
    (content : List UInt8) : d.tree.SameDirectories (d.prepared b content).tree := by
  intro a
  rw [get?_prepared hsource]
  split
  · rename_i hab
    simp [hab, hfree]
  · rfl

/-- The content is found in the new file, by the path under which it was made. -/
theorem fileAt_prepared (hsource : d.tree.Names source b) (hfree : d.tree.get? b = none)
    (content : List UInt8) :
    (d.prepared b content).tree.fileAt source = .ok (b, content) := by
  rw [Tree.fileAt_eq_ok_iff, get?_prepared hsource, if_pos rfl,
    ← (sameDirectories_prepared hsource hfree content).names_iff]
  exact ⟨hsource, rfl⟩

/-- A file is made at the address that writing to its path would change. So a file that was made can
be written. -/
theorem target_of_create (h : fileSystem.create source d = (.ok (), d')) :
    ∃ b, d.tree.target source = .ok b := by
  obtain ⟨t, hwrite, -⟩ := (change_eq_ok_iff (f := (·.create source))).1 h
  obtain ⟨b, htarget, -⟩ := Tree.write_eq_ok_iff.1 hwrite
  exact ⟨b, htarget⟩

/-- A file that could not be made changes nothing, so that nothing has to be cleared away. -/
theorem eq_of_create {e : OsError} (h : fileSystem.create source d = (.error e, d')) : d' = d :=
  ((change_eq_error_iff (f := (·.create source))).1 h).2

/-- A new file is made and written, and neither can fail at an address at which there is nothing. -/
theorem create_write (hsource : d.tree.Names source b) (hfree : d.tree.get? b = none)
    (content : List UInt8) :
    ∃ made, fileSystem.create source d = (.ok (), made) ∧
      fileSystem.write source content made = (.ok (), d.prepared b content) := by
  have hb := hsource.ordinary
  have hdirectory : d.tree.get? b ≠ some .directory := by simp [hfree]
  have hcreate : d.tree.create source = .ok (d.tree.put b (.file [])) :=
    Tree.write_eq_ok_iff.2 ⟨b, Tree.target_eq_ok_iff.2 ⟨hsource, hdirectory⟩, rfl⟩
  have hmade : (d.tree.put b (.file [])).target source = .ok b := by
    have hnames := (Tree.sameDirectories_put hb hdirectory []).names_iff.1 hsource
    refine Tree.target_eq_ok_iff.2 ⟨hnames, ?_⟩
    simp [Tree.get?_put _ hb]
  have hwrite : (d.tree.put b (.file [])).write source content =
      .ok ((d.tree.put b (.file [])).put b (.file content)) :=
    Tree.write_eq_ok_iff.2 ⟨b, hmade, rfl⟩
  exact ⟨_, change_of_ok (f := (·.create source)) hcreate,
    change_of_ok (d := d.step _) (f := (·.write source content)) hwrite⟩

/-- With a file moved the one address is free, the other one holds the content, and all else is as
it was. -/
theorem get?_moved (ha : Tree.Ordinary a) (hb : Tree.Ordinary b) (x : Address) :
    (d.moved b a content).tree.get? x =
      if x = a then some (.file content) else if x = b then none else d.tree.get? x := by
  change ((d.tree.erase b).put a (.file content)).get? x = _
  rw [Tree.get?_put _ ha, Tree.get?_erase _ hb]

end Prepared

end ChunkMachine.Disk
