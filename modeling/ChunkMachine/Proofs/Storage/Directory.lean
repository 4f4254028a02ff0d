import ChunkMachine.Proofs.Storage.Tree
import ChunkMachine.Proofs.Text.Pieces

set_option relaxedAutoImplicit false
set_option autoImplicit false

/-!
# Paths into one directory

A path that names a file leads to that name in a directory, and the path of the directory, as it is
written, leads to that very directory. So does the path of another file beside the first one: both
names are looked up in the same place, whatever dots and slashes the path has.

## Main definitions

* `Path.Proper` — a name that is a piece of its own and that says something.
* `Tree.directoryAt` — the address of the directory to which a path leads.

## Main results

* `Path.fileName?_eq_some` — the pieces of a path that names a file.
* `Tree.resolve_named` — where the path of a file leads.
* `Tree.resolve_join` — where the path of a file in a directory leads.
-/

namespace ChunkMachine

/-! ## Names -/

namespace Path

/-- A name by which a file can be told from its directory: it holds no slash, and it is neither void
nor a pair of dots. A file can only be replaced under such a name. -/
structure Proper (name : List Char) : Prop where
  /-- It holds no slash, so it is a single piece of a path. -/
  not_mem : '/' ∉ name
  /-- It is neither empty nor a single dot. -/
  not_isVoid : ¬ isVoid name
  /-- It does not lead to the directory above. -/
  ne_up : name ≠ ['.', '.']

variable {path dir : String} {name : List Char}

/-- Such a name is not empty, since an empty one is void. -/
theorem Proper.ne_nil (h : Proper name) : name ≠ [] := by
  rintro rfl
  exact h.not_isVoid rfl

/-- What is cut off the end of a path says nothing: these are slashes and single dots. -/
theorem exists_voids (ps : List (List Char)) :
    ∃ voids, ps = voids ++ trimEnd ps ∧ ∀ piece ∈ voids, isVoid piece := by
  induction ps with
  | nil => exact ⟨[], rfl, nofun⟩
  | cons piece rest ih =>
    cases rest with
    | nil => exact ⟨[], rfl, nofun⟩
    | cons next rest =>
      rw [trimEnd]
      split
      · obtain ⟨voids, hrest, hvoids⟩ := ih
        exact ⟨piece :: voids, congrArg (piece :: ·) hrest, List.forall_mem_cons.2 ⟨‹_›, hvoids⟩⟩
      · exact ⟨[], rfl, nofun⟩
      · nofun

/-- The first piece of a path is never cut off, so that something is left of every path. -/
theorem trimEnd_eq_nil {ps : List (List Char)} (h : trimEnd ps = []) : ps = [] := by
  induction ps with
  | nil => rfl
  | cons piece rest ih =>
    cases rest with
    | nil => contradiction
    | cons next rest =>
      rw [trimEnd] at h
      · split at h
        · exact absurd (ih h) (List.cons_ne_nil _ _)
        · contradiction
      · nofun

/-- **A path that names a file**: pieces, the name, and pieces that say nothing.

**Proof sketch.** The pieces are read from the last one on, and void ones are cut off, by
`exists_voids`. What is then the first is the name, and it holds no slash since the path was cut at
slashes. -/
theorem fileName?_eq_some (h : fileName? path = some name) :
    Proper name ∧ ∃ before voids, reversedPieces path = name :: before ∧
      pieces path = before.reverse ++ name :: voids ∧ ∀ piece ∈ voids, isVoid piece := by
  obtain ⟨voids, hpieces, hvoids⟩ := exists_voids (pieces path).reverse
  unfold fileName? at h
  split at h
  · contradiction
  · rename_i last before hreversed
    split at h
    · contradiction
    · rename_i hlast
      cases h
      have hcut : pieces path = before.reverse ++ name :: voids.reverse := by
        have htrimmed : trimEnd (pieces path).reverse = name :: before := hreversed
        rw [htrimmed] at hpieces
        rw [← List.reverse_reverse (pieces path), hpieces]
        simp
      have hname : '/' ∉ name := by
        have hmem : name ∈ pieces path := by simp [hcut]
        exact Text.not_mem_of_mem_splitOn hmem
      rw [not_or] at hlast
      exact ⟨⟨hname, hlast.1, hlast.2⟩, before, voids.reverse, hreversed, hcut,
        fun piece hpiece => hvoids piece (List.mem_reverse.1 hpiece)⟩

end Path

/-! ## Directories -/

namespace Tree

/-- Where the pieces of a path are followed from: a path that begins with a slash is followed from
the root. -/
def startOf (pieces : List (List Char)) : Address :=
  if pieces.head? = some [] then [] else workingDirectory

/-- The address of the directory to which the pieces of a path lead, one after another. Here the
last piece is followed like all others, and has to be a directory. -/
def directoryAt (t : Tree) (path : String) : Except OsError Address :=
  ((Path.pieces path).filter (· ≠ [])).foldlM t.enter (startOf (Path.pieces path))

variable {t : Tree} {path dir : String} {name last : List Char} {a : Address} {slash : Bool}
  {place : Place}

/-- The first piece tells where pieces are followed from, whatever comes behind it. -/
theorem startOf_append {pieces : List (List Char)} (h : pieces ≠ []) (more : List (List Char)) :
    startOf (pieces ++ more) = startOf pieces := by
  obtain ⟨first, rest, rfl⟩ := List.exists_cons_of_ne_nil h
  rfl

/-- The pieces of a path that leads somewhere are followed. The empty ones do not count, but that
there is one at the end does. -/
theorem follow_of_resolve (h : t.resolve path = .ok place) :
    t.follow (startOf (Path.pieces path)) ((Path.pieces path).getLast? = some [])
      ((Path.pieces path).filter (· ≠ [])) = .ok place := by
  unfold resolve at h
  split at h
  · contradiction
  · split at h
    · contradiction
    · split at h
      · contradiction
      · exact h

/-- All pieces but the last one lead to directories, and the last one leads on from there.

**Proof sketch.** Induction on the pieces before the last one. Each of them is entered before those
behind it are followed. -/
theorem follow_append_eq_ok_iff {before : List (List Char)} :
    t.follow a slash (before ++ [last]) = .ok place ↔
      ∃ b, before.foldlM t.enter a = .ok b ∧ t.follow b slash [last] = .ok place := by
  induction before generalizing a with
  | nil =>
    refine ⟨fun h => ⟨a, rfl, h⟩, ?_⟩
    rintro ⟨b, ⟨⟩, h⟩
    exact h
  | cons piece rest ih =>
    obtain ⟨next, more, hmore⟩ : ∃ next more, rest ++ [last] = next :: more :=
      List.exists_cons_of_ne_nil (by simp)
    rw [List.cons_append, hmore, follow, ← hmore, List.foldlM_cons]
    · cases t.enter a piece with
      | error e =>
        constructor
        · intro h
          contradiction
        · rintro ⟨b, h, -⟩
          contradiction
      | ok b => exact ih
    · simp

/-- A name at the end is looked up where the pieces before it lead. Whether there is anything by
that name is not asked. -/
theorem follow_proper (h : Path.Proper name) :
    t.follow a slash [name] = .ok (.named a name slash) := by
  rw [follow, if_neg]
  rintro (hvoid | hup)
  · exact h.not_isVoid hvoid
  · exact h.ne_up hup

/-- Void pieces lead nowhere else, wherever they are followed. -/
theorem foldlM_enter_voids {voids : List (List Char)} (h : ∀ piece ∈ voids, Path.isVoid piece)
    (a : Address) : voids.foldlM t.enter a = .ok a := by
  induction voids with
  | nil => rfl
  | cons piece rest ih =>
    obtain ⟨hpiece, hrest⟩ := List.forall_mem_cons.1 h
    rw [List.foldlM_cons, enter, if_pos hpiece]
    exact ih hrest

/-! ## Files in a directory -/

/-- The pieces of the path of a file in a directory are those of the directory and the name. The
path is followed from the same place, and has no slash at its end.

**Proof sketch.** A join puts a slash and the name behind the path of the directory, which are cut
apart again. The root is the one directory whose path already ends with a slash. -/
theorem pieces_join (dir : String) (h : Path.Proper name) :
    (Path.pieces (Path.join dir name)).filter (· ≠ []) =
        (Path.pieces dir).filter (· ≠ []) ++ [name] ∧
      startOf (Path.pieces (Path.join dir name)) = startOf (Path.pieces dir) ∧
      (Path.pieces (Path.join dir name)).getLast? = some name := by
  have hsingle : Text.splitOn '/' name = [name] := Text.splitOn_of_not_mem h.not_mem
  unfold Path.join
  split
  -- the path of the root is a slash already, and gets no other one
  · rename_i hroot
    have hpieces : Path.pieces (String.ofList ('/' :: name)) = [[], name] := by
      rw [Path.pieces, String.toList_ofList, ← List.nil_append ('/' :: name),
        Text.splitOn_append_separator, hsingle]
      rfl
    have hslash : Path.pieces "/" = [[], []] := by decide
    rw [hpieces, hroot, hslash]
    exact ⟨by simp [h.ne_nil], rfl, rfl⟩
  · have hpieces :
        Path.pieces (dir ++ String.ofList ('/' :: name)) = Path.pieces dir ++ [name] := by
      rw [Path.pieces, String.toList_append, String.toList_ofList, Text.splitOn_append_separator,
        hsingle]
      rfl
    rw [hpieces]
    exact ⟨by simp [h.ne_nil], startOf_append (Text.splitOn_ne_nil _ _) _, by simp⟩

/-- **The path of a file in a directory** leads to its name, where the path of the directory
leads. -/
theorem resolve_join (hname : Path.Proper name) (h : t.resolve (Path.join dir name) = .ok place) :
    ∃ a, t.directoryAt dir = .ok a ∧ place = .named a name false := by
  obtain ⟨hfilter, hstart, hlast⟩ := pieces_join dir hname
  have hslash : decide ((Path.pieces (Path.join dir name)).getLast? = some []) = false := by
    simp [hlast, hname.ne_nil]
  have hfollow := follow_of_resolve h
  rw [hfilter, hstart, hslash, follow_append_eq_ok_iff] at hfollow
  obtain ⟨a, hdir, hplace⟩ := hfollow
  rw [follow_proper hname] at hplace
  exact ⟨a, hdir, (Except.ok.inj hplace).symm⟩

/-- What is seen of a file in a directory is an entry there. This is how files that are there are
counted.

**Proof sketch.** The path leads to the name in the directory, by `resolve_join`. If there were no
entry there, nothing would be seen. -/
theorem exists_of_isOk_stat_join (hname : Path.Proper name)
    (h : (t.stat (Path.join dir name)).isOk) :
    ∃ a, t.directoryAt dir = .ok a ∧ t.get? (a ++ [name]) ≠ none := by
  unfold stat at h
  cases hresolve : t.resolve (Path.join dir name) with
  | error e =>
    rw [hresolve] at h
    contradiction
  | ok place =>
    obtain ⟨a, hdir, rfl⟩ := resolve_join hname hresolve
    refine ⟨a, hdir, fun hnone => ?_⟩
    rw [hresolve] at h
    simp only [lookup, hnone] at h
    by_cases hlong : nameLimit < (String.ofList name).utf8ByteSize
    · rw [if_pos hlong] at h
      contradiction
    · rw [if_neg hlong] at h
      contradiction

/-- The path of the directory of a file leads where the pieces before its name lead. These may be
none, as in a path that is a name only.

**Proof sketch.** The path of the directory has the pieces before the name, but for the void ones at
their end, which lead nowhere else. If none is left, the path is empty or the root. -/
theorem directoryAt_directory (t : Tree) {before : List (List Char)} (hname : Path.Proper name)
    (hreversed : Path.reversedPieces path = name :: before)
    (hslash : ∀ piece ∈ before, '/' ∉ piece) :
    t.directoryAt (Path.directory path) =
      (before.reverse.filter (· ≠ [])).foldlM t.enter (startOf (before.reverse ++ [name])) := by
  obtain ⟨voids, hbefore, hvoids⟩ := Path.exists_voids before
  have hfold (a : Address) : (before.reverse.filter (· ≠ [])).foldlM t.enter a =
      ((Path.trimEnd before).reverse.filter (· ≠ [])).foldlM t.enter a := by
    have hnowhere (b : Address) : (voids.reverse.filter (· ≠ [])).foldlM t.enter b = .ok b :=
      foldlM_enter_voids
        (fun piece hpiece => hvoids piece (List.mem_reverse.1 (List.mem_filter.1 hpiece).1)) b
    conv => lhs; rw [hbefore]
    rw [List.reverse_append, List.filter_append, List.foldlM_append]
    cases ((Path.trimEnd before).reverse.filter (· ≠ [])).foldlM t.enter a with
    | error e => rfl
    | ok b => exact hnowhere b
  have hstart (h : Path.trimEnd before ≠ []) :
      startOf (before.reverse ++ [name]) = startOf (Path.trimEnd before).reverse := by
    conv => lhs; rw [hbefore]
    rw [List.reverse_append, List.append_assoc, startOf_append (by simpa using h)]
  rw [hfold, Path.directory, hreversed, List.tail_cons]
  -- the directory has no path, is the root, or has pieces of its own
  split
  · rename_i hnil
    have hworking : startOf ([] ++ [name]) = workingDirectory := by
      simp [startOf, hname.ne_nil]
    rw [hnil, Path.trimEnd_eq_nil hnil, List.reverse_nil, hworking]
    rfl
  · rename_i hroot
    rw [hstart (by simp [hroot]), hroot]
    rfl
  · rename_i hnil hroot
    have hpieces : Path.pieces (Path.ofPieces (Path.trimEnd before).reverse) =
        (Path.trimEnd before).reverse := by
      rw [Path.pieces, Path.ofPieces, String.toList_ofList]
      refine Text.splitOn_intercalate (by simpa using hnil) fun piece hpiece => hslash piece ?_
      rw [hbefore]
      exact List.mem_append_right _ (List.mem_reverse.1 hpiece)
    rw [directoryAt, hpieces, hstart hnil]

/-- **The path of a file** leads to its name, where the path of its directory leads.

**Proof sketch.** The pieces behind the name are void. If there is none but empty ones, the name is
the last piece that is followed, and it is looked up where the pieces before it lead. A single dot
behind it is a last piece that names nothing. -/
theorem resolve_named (hname : Path.fileName? path = some name)
    (h : t.resolve path = .ok (.named a last slash)) :
    last = name ∧ t.directoryAt (Path.directory path) = .ok a := by
  obtain ⟨hproper, before, voids, hreversed, hpieces, hvoids⟩ := Path.fileName?_eq_some hname
  have hslash : ∀ piece ∈ before, '/' ∉ piece := by
    intro piece hpiece
    have hmem : piece ∈ Path.pieces path := by simp [hpieces, hpiece]
    exact Text.not_mem_of_mem_splitOn hmem
  have hstart : startOf (Path.pieces path) = startOf (before.reverse ++ [name]) := by
    rw [hpieces, ← List.singleton_append, ← List.append_assoc, startOf_append (by simp)]
  have hkept : (Path.pieces path).filter (· ≠ []) =
      before.reverse.filter (· ≠ []) ++ name :: voids.filter (· ≠ []) := by
    rw [hpieces, List.filter_append, List.filter_cons_of_pos (by simp [hproper.ne_nil])]
  have hfollow := follow_of_resolve h
  rw [hstart, hkept] at hfollow
  rw [directoryAt_directory t hproper hreversed hslash]
  rcases List.eq_nil_or_concat (voids.filter (· ≠ [])) with hnone | ⟨more, void, hmore⟩
  · rw [hnone, follow_append_eq_ok_iff] at hfollow
    obtain ⟨b, hdir, hplace⟩ := hfollow
    rw [follow_proper hproper] at hplace
    cases hplace
    exact ⟨rfl, hdir⟩
  · exfalso
    have hvoid : Path.isVoid void := by
      have hmem : void ∈ voids.filter (· ≠ []) := by
        rw [hmore]
        simp
      exact hvoids void (List.mem_filter.1 hmem).1
    rw [hmore, List.concat_eq_append, ← List.cons_append, ← List.append_assoc,
      follow_append_eq_ok_iff] at hfollow
    obtain ⟨b, -, hplace⟩ := hfollow
    rw [follow, if_pos (.inl hvoid), enter, if_pos hvoid] at hplace
    cases hplace

end Tree

end ChunkMachine
