import ChunkMachine.Proofs.Storage.Temporary

set_option relaxedAutoImplicit false
set_option autoImplicit false

/-!
# The ways of a replacement

A file is replaced in one of four ways. The replacement may be refused before anything was done, or
it may be abandoned when the temporary file holds the new content and cannot be moved. Otherwise the
temporary file is moved to its target, from which a file that was there was removed before.

## Main definitions

* `moveOrCopy` — the last part of an installation.
* `Tree.Spare` — a temporary file that is free.
* `Replacement` — the four ways, each with the disk that it leaves.

## Main results

* `install_of_not_target`, `install_of_free`, `install_of_file` — what an installation does.
* `replacement` — every replacement goes one of the four ways.
* `read_of_replaceFile` — the new content is read behind a replacement.
-/

namespace ChunkMachine

/-! ## Installations -/

/-- Moves a file, or copies and removes it. The second way is taken if the first one is not
possible, as between two file systems. -/
def moveOrCopy {m : Type → Type} [Monad m] (fs : FileSystem m) (source target : String) :
    m (Except OsError Unit) := do
  match ← fs.rename source target with
  | .ok () => pure (.ok ())
  | .error _ =>
    match ← fs.copy source target with
    | .ok () => fs.remove source
    | .error e => pure (.error e)

section Install

variable {d : Disk} {source path : String} {a b : Address} {content : List UInt8}

/-- A file is moved on a disk from which its target was removed, if it was there and could be. If it
could not be removed, the move is tried all the same. -/
theorem install_apply (source target : String) (d : Disk) :
    install Disk.fileSystem source target d =
      moveOrCopy Disk.fileSystem source target
        (if (d.tree.stat target).isOk then (Disk.fileSystem.remove target d).2 else d) := by
  rw [install, Disk.bind_apply]
  change (if (d.tree.stat target).isOk then _ else _ : StateM Disk (Except OsError Unit)) d = _
  split <;> rfl

/-- A file is moved to a path at which there can be one. What was there is overwritten. -/
theorem moveOrCopy_of_target (hsource : d.tree.fileAt source = .ok (b, content))
    (htarget : d.tree.target path = .ok a) :
    moveOrCopy Disk.fileSystem source path d = (.ok (), d.moved b a content) := by
  have hrename : Disk.fileSystem.rename source path d = (.ok (), d.moved b a content) :=
    Disk.change_of_ok (f := (·.rename source path))
      (Tree.rename_eq_ok_iff.2 ⟨b, content, a, hsource, htarget, rfl⟩)
  rw [moveOrCopy, Disk.bind_apply, hrename]
  rfl

/-- At other paths it is neither moved nor copied, and stays where it is.

**Proof sketch.** Both a move and a copy need an address at which there can be a file, and fail
without one. -/
theorem moveOrCopy_of_not_target (h : ∀ a, d.tree.target path ≠ .ok a) :
    ∃ e, moveOrCopy Disk.fileSystem source path d = (.error e, d) := by
  obtain ⟨e, hrename⟩ : ∃ e, Disk.fileSystem.rename source path d = (.error e, d) := by
    refine Disk.exists_change_eq_error (f := (·.rename source path)) fun t hmove => ?_
    obtain ⟨_, _, a, -, htarget, -⟩ := Tree.rename_eq_ok_iff.1 hmove
    exact h a htarget
  obtain ⟨e', hcopy⟩ : ∃ e, Disk.fileSystem.copy source path d = (.error e, d) := by
    refine Disk.exists_change_eq_error (f := (·.copy source path)) fun t hwrite => ?_
    obtain ⟨_, _, a, -, htarget, -⟩ := Tree.copy_eq_ok_iff.1 hwrite
    exact h a htarget
  refine ⟨e', ?_⟩
  rw [moveOrCopy, Disk.bind_apply, hrename]
  simp only
  rw [Disk.bind_apply, hcopy]
  rfl

/-- **An installation is refused** if there can be no file at its target. Then there is nothing to
be removed, either. -/
theorem install_of_not_target (source : String) (h : ∀ a, d.tree.target path ≠ .ok a) :
    ∃ e, install Disk.fileSystem source path d = (.error e, d) := by
  have hremove : (Disk.fileSystem.remove path d).2 = d := by
    cases hfile : d.tree.remove path with
    | error e => exact congrArg Prod.snd (Disk.change_of_error (f := (·.remove path)) hfile)
    | ok t =>
      obtain ⟨a, content, hfound, -⟩ := Tree.remove_eq_ok_iff.1 hfile
      obtain ⟨hpath, hentry⟩ := Tree.fileAt_eq_ok_iff.1 hfound
      exact absurd (Tree.target_eq_ok_iff.2 ⟨hpath, by simp [hentry]⟩) (h a)
  rw [install_apply, hremove, ite_self]
  exact moveOrCopy_of_not_target h

/-- **A file is installed at a path of its own**, at which there was nothing. This is a single
change. -/
theorem install_of_free (hsource : d.tree.fileAt source = .ok (b, content))
    (hpath : d.tree.Names path a) (hfree : d.tree.get? a = none) :
    install Disk.fileSystem source path d = (.ok (), d.moved b a content) := by
  have habsent : ¬ (d.tree.stat path).isOk := by
    rw [hpath.stat_eq, hfree]
    exact Bool.false_ne_true
  rw [install_apply, if_neg habsent]
  exact moveOrCopy_of_target hsource (Tree.target_eq_ok_iff.2 ⟨hpath, by simp [hfree]⟩)

/-- **A file is installed in the place of another one**, which is removed before. These are two
changes, and between them there is no file.

**Proof sketch.** The file is there, and is removed. That changes no directory, so the paths lead
where they did: that of the target to an address at which there is nothing, and that of the
temporary file to the content. -/
theorem install_of_file {old : List UInt8} (hsource : d.tree.fileAt source = .ok (b, content))
    (hpath : d.tree.Names path a) (hold : d.tree.get? a = some (.file old)) (hne : a ≠ b) :
    install Disk.fileSystem source path d =
      (.ok (), (d.step (d.tree.erase a)).moved b a content) := by
  have hpresent : (d.tree.stat path).isOk := by
    rw [hpath.stat_eq, hold]
    rfl
  have hremove : Disk.fileSystem.remove path d = (.ok (), d.step (d.tree.erase a)) :=
    Disk.change_of_ok (f := (·.remove path))
      (Tree.remove_eq_ok_iff.2 ⟨a, old, Tree.fileAt_eq_ok_iff.2 ⟨hpath, hold⟩, rfl⟩)
  have hsame : d.tree.SameDirectories (d.tree.erase a) :=
    Tree.sameDirectories_erase hpath.ordinary (by simp [hold])
  obtain ⟨hnames, hentry⟩ := Tree.fileAt_eq_ok_iff.1 hsource
  rw [install_apply, if_pos hpresent, hremove]
  refine moveOrCopy_of_target ?_ (Tree.target_eq_ok_iff.2 ⟨hsame.names_iff.1 hpath, ?_⟩)
  · refine Tree.fileAt_eq_ok_iff.2 ⟨hsame.names_iff.1 hnames, ?_⟩
    change (d.tree.erase a).get? b = _
    rw [Tree.get?_erase _ hpath.ordinary, if_neg hne.symm, hentry]
  · change (d.tree.erase a).get? a ≠ _
    rw [Tree.get?_erase _ hpath.ordinary, if_pos rfl]
    exact nofun

end Install

/-! ## Replacements -/

/-- A temporary file of a path that is free, with its number and its address. It is what a
replacement looks for first. -/
structure Tree.Spare (t : Tree) (path : String) (name : List Char) (i : Nat) (b : Address) :
    Prop where
  /-- The path has a name, from which that of the temporary file is made. -/
  fileName : Path.fileName? path = some name
  /-- The path of the temporary file leads to the address. -/
  names : t.Names (temporary path name i) b
  /-- There is nothing at the address. -/
  free : t.get? b = none

section Spare

variable {d : Disk} {path : String} {name : List Char} {i : Nat} {a b : Address}

/-- A temporary file that was moved leaves nothing behind: only the entry at its target is another
one. -/
theorem Tree.Spare.get?_placed (h : d.tree.Spare path name i b) (ha : Tree.Ordinary a)
    (content : List UInt8) (x : Address) :
    ((d.prepared b content).moved b a content).tree.get? x =
      if x = a then some (.file content) else d.tree.get? x := by
  rw [Disk.get?_moved ha h.names.ordinary, Disk.get?_prepared h.names]
  by_cases hx : x = b
  · simp [hx, h.free]
  · simp [hx]

/-- The same holds if a file was removed before. In the end it does not matter how the content got
there. -/
theorem Tree.Spare.get?_replaced (h : d.tree.Spare path name i b) (ha : Tree.Ordinary a)
    (content : List UInt8) (x : Address) :
    (((d.prepared b content).step ((d.prepared b content).tree.erase a)).moved
        b a content).tree.get? x =
      if x = a then some (.file content) else d.tree.get? x := by
  rw [Disk.get?_moved ha h.names.ordinary]
  change (if x = a then _ else if x = b then none
    else ((d.prepared b content).tree.erase a).get? x) = _
  rw [Tree.get?_erase _ ha, Disk.get?_prepared h.names]
  by_cases hx : x = b
  · simp [hx, h.free]
  · by_cases hxa : x = a
    · simp [hxa]
    · simp [hx, hxa]

end Spare

/-- **The ways of a replacement**: what it answers, and the disk that it leaves. That these are all
is shown by `replacement` below. -/
inductive Replacement (path : String) (content : List UInt8) (d : Disk) :
    Except WriteError Unit → Disk → Prop
  /-- It is refused; for want of a free name only if there are too many entries in a directory. -/
  | refused {e : WriteError} (hfull : e = .noFreeName path → ¬ d.tree.Sparse) :
      Replacement path content d (.error e) d
  /-- The temporary file cannot be moved to a path at which there can be no file. -/
  | abandoned {name : List Char} {i : Nat} {b : Address} {e : OsError}
      (hspare : d.tree.Spare path name i b) (htarget : ∀ a, d.tree.target path ≠ .ok a) :
      Replacement path content d (.error (.system e)) (d.prepared b content)
  /-- The temporary file is moved to a path at which there is nothing. -/
  | placed {name : List Char} {i : Nat} {a b : Address} (hspare : d.tree.Spare path name i b)
      (hpath : d.tree.Names path a) (hfree : d.tree.get? a = none) :
      Replacement path content d (.ok ()) ((d.prepared b content).moved b a content)
  /-- The file that is there is removed, and the temporary file is moved. -/
  | replaced {name : List Char} {i : Nat} {a b : Address} {old : List UInt8}
      (hspare : d.tree.Spare path name i b) (hpath : d.tree.Names path a)
      (hold : d.tree.get? a = some (.file old)) :
      Replacement path content d (.ok ())
        (((d.prepared b content).step ((d.prepared b content).tree.erase a)).moved b a content)

variable {path : String} {content : List UInt8}

/-- A temporary file that was made was free, since it was looked for and not found before. -/
theorem spare_of_create {d made : Disk} {name : List Char} {i : Nat}
    (hname : Path.fileName? path = some name)
    (hfree : ¬ (d.tree.stat (temporary path name i)).isOk)
    (hcreate : Disk.fileSystem.create (temporary path name i) d = (.ok (), made)) :
    ∃ b, d.tree.Spare path name i b := by
  obtain ⟨b, htarget⟩ := Disk.target_of_create hcreate
  obtain ⟨hnames, -⟩ := Tree.target_eq_ok_iff.1 htarget
  refine ⟨b, hname, hnames, ?_⟩
  cases hentry : d.tree.get? b with
  | none => rfl
  | some entry =>
    rw [hnames.stat_eq, hentry] at hfree
    exact absurd rfl hfree

/-- A replacement whose temporary file was made and written goes on with the installation. -/
theorem replaceFile_of_written {d made written : Disk} {name : List Char} {source : String}
    (hname : Path.fileName? path = some name)
    (hfree : (freeTemporary Disk.fileSystem path name 0 temporaryLimit d).1 = some source)
    (hcreate : Disk.fileSystem.create source d = (.ok (), made))
    (hwrite : Disk.fileSystem.write source content made = (.ok (), written)) :
    replaceFile Disk.fileSystem path content d =
      ((install Disk.fileSystem source path written).1.mapError .system,
        (install Disk.fileSystem source path written).2) := by
  rw [replaceFile, hname]
  simp only
  rw [Disk.bind_apply, freeTemporary_snd, hfree]
  simp only
  rw [Disk.bind_apply, hcreate]
  simp only
  rw [Disk.bind_apply, hwrite]
  rfl

/-- The way of a replacement whose temporary file was made, by what there is at its target.

**Proof sketch.** The temporary file is made and written, which changes no directory and nothing at
the target. Then the installation goes by what is there: nothing, a file, or no place for one. -/
theorem replacement_of_spare {d : Disk} {name : List Char} {i : Nat} {b : Address}
    (hspare : d.tree.Spare path name i b)
    (hfree : (freeTemporary Disk.fileSystem path name 0 temporaryLimit d).1 =
      some (temporary path name i)) :
    Replacement path content d (replaceFile Disk.fileSystem path content d).1
      (replaceFile Disk.fileSystem path content d).2 := by
  obtain ⟨made, hcreate, hwrite⟩ := Disk.create_write hspare.names hspare.free content
  have hsame := Disk.sameDirectories_prepared hspare.names hspare.free content
  have hsource := Disk.fileAt_prepared hspare.names hspare.free content
  rw [replaceFile_of_written hspare.fileName hfree hcreate hwrite]
  by_cases htarget : ∃ a, d.tree.target path = .ok a
  · obtain ⟨a, htarget⟩ := htarget
    obtain ⟨hpath, hdirectory⟩ := Tree.target_eq_ok_iff.1 htarget
    have hne := hpath.ne_temporary hspare.fileName hspare.names
    have hget : (d.prepared b content).tree.get? a = d.tree.get? a := by
      rw [Disk.get?_prepared hspare.names, if_neg hne]
    cases hentry : d.tree.get? a with
    | none =>
      rw [install_of_free hsource (hsame.names_iff.1 hpath) (hget.trans hentry)]
      exact .placed hspare hpath hentry
    | some entry =>
      cases entry with
      | directory => exact absurd hentry hdirectory
      | file old =>
        rw [install_of_file hsource (hsame.names_iff.1 hpath) (hget.trans hentry) hne]
        exact .replaced hspare hpath hentry
  · rw [not_exists] at htarget
    -- the temporary file has changed no directory, so there is no place for a file yet
    have hrefused (a : Address) : (d.prepared b content).tree.target path ≠ .ok a := by
      intro hprepared
      obtain ⟨hpath, hdirectory⟩ := Tree.target_eq_ok_iff.1 hprepared
      exact htarget a
        (Tree.target_eq_ok_iff.2 ⟨hsame.names_iff.2 hpath, mt (hsame a).1 hdirectory⟩)
    obtain ⟨e, hinstall⟩ := install_of_not_target (temporary path name i) hrefused
    rw [hinstall]
    exact .abandoned hspare htarget

/-- **Every replacement goes one of the four ways.** It is refused before anything was made, or a
temporary file was made for it.

**Proof sketch.** By the steps of a replacement, each of which may fail: the name of the target, a
free name, and the making of the temporary file. Up to there nothing was changed. -/
theorem replacement (path : String) (content : List UInt8) (d : Disk) :
    Replacement path content d (replaceFile Disk.fileSystem path content d).1
      (replaceFile Disk.fileSystem path content d).2 := by
  cases hname : Path.fileName? path with
  | none =>
    have hrun : replaceFile Disk.fileSystem path content d = (.error (.noFileName path), d) := by
      rw [replaceFile, hname]
      rfl
    rw [hrun]
    exact .refused nofun
  | some name =>
    cases hfree : (freeTemporary Disk.fileSystem path name 0 temporaryLimit d).1 with
    | none =>
      have hrun : replaceFile Disk.fileSystem path content d = (.error (.noFreeName path), d) := by
        rw [replaceFile, hname]
        simp only
        rw [Disk.bind_apply, freeTemporary_snd, hfree]
        rfl
      rw [hrun]
      exact .refused fun _ hsparse => hsparse.freeTemporary_ne_none hname hfree
    | some source =>
      obtain ⟨i, rfl, habsent⟩ := freeTemporary_eq_some hfree
      rcases hcreate : Disk.fileSystem.create (temporary path name i) d with ⟨e | _, made⟩
      · obtain rfl := Disk.eq_of_create hcreate
        have hrun : replaceFile Disk.fileSystem path content made =
            (.error (.create (temporary path name i) e), made) := by
          rw [replaceFile, hname]
          simp only
          rw [Disk.bind_apply, freeTemporary_snd, hfree]
          simp only
          rw [Disk.bind_apply, hcreate]
          rfl
        rw [hrun]
        exact .refused nofun
      · obtain ⟨b, hspare⟩ := spare_of_create hname habsent hcreate
        exact replacement_of_spare hspare hfree

/-- What a replacement does that was possible: the content is found at the target, and all else is
as it was. -/
theorem Replacement.exists_of_ok {d d' : Disk} (h : Replacement path content d (.ok ()) d') :
    ∃ a, d'.tree.fileAt path = .ok (a, content) ∧
      ∀ x, d'.tree.get? x = if x = a then some (.file content) else d.tree.get? x := by
  cases h with
  | placed hspare hpath hfree =>
    have hget := hspare.get?_placed hpath.ordinary content
    exact ⟨_, hpath.fileAt_eq_ok (by simp [hfree]) hget, hget⟩
  | replaced hspare hpath hold =>
    have hget := hspare.get?_replaced hpath.ordinary content
    exact ⟨_, hpath.fileAt_eq_ok (by simp [hold]) hget, hget⟩

/-- **The new content is read behind a replacement**, if that was possible. -/
theorem read_of_replaceFile {d d' : Disk}
    (h : replaceFile Disk.fileSystem path content d = (.ok (), d')) :
    d'.tree.read path = .ok content := by
  have hway := replacement path content d
  rw [h] at hway
  obtain ⟨a, hfile, -⟩ := hway.exists_of_ok
  rw [Tree.read, hfile]
  rfl

end ChunkMachine
