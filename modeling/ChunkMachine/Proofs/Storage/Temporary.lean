import ChunkMachine.Proofs.Storage.Directory
import ChunkMachine.Proofs.Storage.Disk
import ChunkMachine.Proofs.Text.Numeral
import ChunkMachine.Storage.AtomicWrite

set_option relaxedAutoImplicit false
set_option autoImplicit false

/-!
# Temporary files

The temporary files of a path have names of their own in the directory of the path, one for each
number. So a path is never that of one of its temporary files, and there is one that is free, unless
all names are taken.

## Main definitions

* `temporaryName` — the names of temporary files.
* `Tree.Sparse` — a tree whose directories have fewer entries than temporary files are tried.

## Main results

* `temporaryName_inj` — no two temporary files have the same name.
* `Tree.Names.eq_target`, `Tree.Names.eq_temporary` — a file and its temporary files are in one
  directory.
* `freeTemporary_eq_some` — the temporary file that is picked is free.
* `Tree.Sparse.freeTemporary_ne_none` — in a sparse tree one is free.
-/

namespace ChunkMachine

/-! ## Names -/

/-- The name of a temporary file: that of its target with an ending and a number behind it. -/
def temporaryName (name : List Char) (i : Nat) : List Char :=
  name ++ ".tmp".toList ++ (toString i).toList

variable {path source : String} {name : List Char} {i : Nat}

/-- The name of a temporary file in digits, which is how it is compared with others. -/
theorem temporaryName_eq (name : List Char) (i : Nat) :
    temporaryName name i = name ++ ".tmp".toList ++ Nat.toDigits 10 i := by
  simp [temporaryName]

/-- **No two temporary files have the same name.** -/
theorem temporaryName_inj {j : Nat} (h : temporaryName name i = temporaryName name j) : i = j := by
  rw [temporaryName_eq, temporaryName_eq] at h
  exact Text.toDigits_inj (List.append_cancel_left h)

/-- The name of a temporary file is longer than that of its target, by the ending at least. -/
theorem length_temporaryName (name : List Char) (i : Nat) :
    name.length + 4 ≤ (temporaryName name i).length := by
  simp [temporaryName]

/-- The name of a temporary file is never that of its target. -/
theorem temporaryName_ne (name : List Char) (i : Nat) : temporaryName name i ≠ name := by
  intro heq
  have hlength := length_temporaryName name i
  rw [heq] at hlength
  omega

/-- The name of a temporary file can be told from its directory, as that of its target can. So a
path is made of it that leads into that directory.

**Proof sketch.** The ending and the digits hold no slash, and the name has four characters more
than that of its target, which is too long for a dot or two. -/
theorem proper_temporaryName (h : Path.Proper name) (i : Nat) :
    Path.Proper (temporaryName name i) := by
  have hlength := length_temporaryName name i
  refine ⟨?_, ?_, ?_⟩
  · intro hmem
    rw [temporaryName_eq, List.mem_append, List.mem_append] at hmem
    rcases hmem with (hmem | hmem) | hdigit
    · exact h.not_mem hmem
    · exact absurd hmem (by decide)
    · exact absurd (Text.isDigit_of_mem_toDigits hdigit) (by decide)
  · intro hvoid
    simp only [Path.isVoid, Bool.or_eq_true, decide_eq_true_eq] at hvoid
    rcases hvoid with hnil | hdot
    · rw [hnil, List.length_nil] at hlength
      omega
    · rw [hdot, List.length_singleton] at hlength
      omega
  · intro hup
    rw [hup, List.length_cons, List.length_singleton] at hlength
    omega

/-! ## Addresses -/

namespace Tree

variable {t : Tree} {a b : Address}

/-- A path that names a file leads into its directory, to an entry by that name. -/
theorem Names.eq_target (h : t.Names path a) (hname : Path.fileName? path = some name) :
    ∃ dir, t.directoryAt (Path.directory path) = .ok dir ∧ a = dir ++ [name] := by
  obtain ⟨parent, last, hresolve, -, rfl⟩ := h
  obtain ⟨hlast, hdir⟩ := resolve_named hname hresolve
  exact ⟨parent, hdir, congrArg (fun last => parent ++ [last]) hlast⟩

/-- So do the paths of its temporary files, to entries by their names. -/
theorem Names.eq_temporary (h : t.Names (temporary path name i) b)
    (hname : Path.fileName? path = some name) :
    ∃ dir, t.directoryAt (Path.directory path) = .ok dir ∧ b = dir ++ [temporaryName name i] := by
  obtain ⟨parent, last, hresolve, -, rfl⟩ := h
  have hproper := proper_temporaryName (Path.fileName?_eq_some hname).1 i
  obtain ⟨dir, hdir, hplace⟩ := resolve_join hproper hresolve
  cases hplace
  exact ⟨parent, hdir, rfl⟩

/-- **No path is that of one of its temporary files**, since both are in one directory under
different names. -/
theorem Names.ne_temporary (h : t.Names path a) (hname : Path.fileName? path = some name)
    (htemporary : t.Names (temporary path name i) b) : a ≠ b := by
  obtain ⟨dir, hdir, rfl⟩ := h.eq_target hname
  obtain ⟨dir', hdir', rfl⟩ := htemporary.eq_temporary hname
  rw [hdir] at hdir'
  cases hdir'
  intro heq
  have hlast := List.append_cancel_left heq
  rw [List.singleton_inj] at hlast
  exact temporaryName_ne name i hlast.symm

end Tree

/-! ## Free names -/

/-- One temporary file after another is looked for, by numbers that go up, until one is not
there. -/
theorem freeTemporary_succ (path : String) (name : List Char) (i n : Nat) (d : Disk) :
    freeTemporary Disk.fileSystem path name i (n + 1) d =
      if (d.tree.stat (temporary path name i)).isOk then
        freeTemporary Disk.fileSystem path name (i + 1) n d
      else (some (temporary path name i), d) := by
  rw [freeTemporary, Disk.bind_apply]
  generalize temporary path name i = candidate
  change (if (d.tree.stat candidate).isOk then _ else _ : StateM Disk (Option String)) d = _
  split <;> rfl

/-- Looking for a free name changes nothing. Names are only looked at. -/
theorem freeTemporary_snd (path : String) (name : List Char) (i n : Nat) (d : Disk) :
    (freeTemporary Disk.fileSystem path name i n d).2 = d := by
  induction n generalizing i with
  | zero => rfl
  | succ n ih =>
    rw [freeTemporary_succ]
    split
    · exact ih (i + 1)
    · rfl

/-- If no temporary file is free, each one that was tried is there. No number is left out. -/
theorem isOk_stat_of_freeTemporary {d : Disk} {n : Nat}
    (h : (freeTemporary Disk.fileSystem path name i n d).1 = none) {k : Nat} (hlow : i ≤ k)
    (hhigh : k < i + n) : (d.tree.stat (temporary path name k)).isOk := by
  induction n generalizing i with
  | zero => omega
  | succ n ih =>
    rw [freeTemporary_succ] at h
    split at h
    · rename_i hpresent
      by_cases heq : k = i
      · exact heq ▸ hpresent
      · exact ih h (by omega) (by omega)
    · exact absurd h (Option.some_ne_none _)

/-- **The temporary file that is picked is free**, when it is looked for. No other program is at
work in between. -/
theorem freeTemporary_eq_some {d : Disk} {n : Nat}
    (h : (freeTemporary Disk.fileSystem path name i n d).1 = some source) :
    ∃ k, source = temporary path name k ∧ ¬ (d.tree.stat source).isOk := by
  induction n generalizing i with
  | zero => contradiction
  | succ n ih =>
    rw [freeTemporary_succ] at h
    split at h
    · exact ih h
    · rename_i hfree
      cases h
      exact ⟨i, rfl, hfree⟩

/-- There are fewer entries in each directory than temporary files are tried. Entries are counted by
different names, so that the order of the tree does not matter. -/
def Tree.Sparse (t : Tree) : Prop :=
  ∀ (dir : Address) (names : List (List Char)), names.Nodup →
    (∀ name ∈ names, t.get? (dir ++ [name]) ≠ none) → names.length < temporaryLimit

/-- **In a sparse tree there is a free temporary file**, since otherwise all of them were entries of
one directory.

**Proof sketch.** Otherwise each temporary file that was tried is there. They have different names,
so they are as many entries of one directory as files were tried. -/
theorem Tree.Sparse.freeTemporary_ne_none {d : Disk} (h : d.tree.Sparse)
    (hname : Path.fileName? path = some name) :
    (freeTemporary Disk.fileSystem path name 0 temporaryLimit d).1 ≠ none := by
  intro hnone
  have htaken {k : Nat} (hk : k < temporaryLimit) : (d.tree.stat (temporary path name k)).isOk :=
    isOk_stat_of_freeTemporary hnone (Nat.zero_le k) (by omega)
  have hproper (k : Nat) : Path.Proper (temporaryName name k) :=
    proper_temporaryName (Path.fileName?_eq_some hname).1 k
  obtain ⟨dir, hdir, -⟩ := exists_of_isOk_stat_join (hproper 0) (htaken (by decide))
  let names := (List.range temporaryLimit).map (temporaryName name)
  have hnodup : names.Nodup :=
    List.Pairwise.map _ (fun i j hne heq => hne (temporaryName_inj heq)) List.nodup_range
  have hentries : ∀ taken ∈ names, d.tree.get? (dir ++ [taken]) ≠ none := by
    intro taken hmem
    obtain ⟨k, hk, rfl⟩ := List.mem_map.1 hmem
    obtain ⟨dir', hdir', hentry⟩ :=
      exists_of_isOk_stat_join (hproper k) (htaken (List.mem_range.1 hk))
    rw [hdir] at hdir'
    cases hdir'
    exact hentry
  have hlength := h dir names hnodup hentries
  rw [List.length_map, List.length_range] at hlength
  exact Nat.lt_irrefl _ hlength

end ChunkMachine
