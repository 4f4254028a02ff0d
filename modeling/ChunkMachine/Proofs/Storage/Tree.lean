import ChunkMachine.Storage.Tree

set_option relaxedAutoImplicit false
set_option autoImplicit false

/-!
# What operations on files do to a tree

Where a path leads depends on the directories of a tree only, and the operations on files change no
directory. So a path leads to the same address before and after each of them, and what is read
behind a change is what stands at that address.

## Main definitions

* `Tree.Names` — a path leads to an address at which there can be a file.
* `Tree.SameDirectories` — two trees with the same directories.

## Main results

* `Tree.SameDirectories.names_iff` — paths lead to the same addresses in such trees.
* `Tree.fileAt_eq_ok_iff`, `Tree.target_eq_ok_iff` — which files are read and written.
* `Tree.Names.stat_eq`, `Tree.Names.read_eq` — what is seen and read there.
* `Tree.remove_eq_ok_iff`, `Tree.rename_eq_ok_iff`, `Tree.copy_eq_ok_iff` — what the changes do.
-/

namespace ChunkMachine.Tree

/-- A path leads to an address at which there can be a file: to a name that is not too long, without
a slash behind it. -/
def Names (t : Tree) (path : String) (a : Address) : Prop :=
  ∃ parent name, t.resolve path = .ok (.named parent name false) ∧
    (String.ofList name).utf8ByteSize ≤ nameLimit ∧ a = parent ++ [name]

/-- Two trees have the same directories. Then paths lead to the same addresses, whichever files
there are. -/
def SameDirectories (t t' : Tree) : Prop :=
  ∀ a, t.get? a = some .directory ↔ t'.get? a = some .directory

/-- An address that is not that of the root or of the working directory. These two are always
directories. -/
def Ordinary (a : Address) : Prop := ¬ (a = [] ∨ a = workingDirectory)

/-! ## Entries -/

section Entries

variable {a : Address}

/-- Without an entry there is nothing at its address, and all others are there as they were.

**Proof sketch.** Erasing leaves out the entries at the address. Induction on the entries, for the
two ways in which each of them may be met. -/
theorem get?_erase (t : Tree) (ha : Ordinary a) (b : Address) :
    (t.erase a).get? b = if b = a then none else t.get? b := by
  have hlookup : (t.entries.filter fun e => e.1 ≠ a).lookup b =
      if b = a then none else t.entries.lookup b := by
    induction t.entries with
    | nil => simp
    | cons e rest ih =>
      obtain ⟨a', e⟩ := e
      by_cases hfirst : a' = a
      · rw [List.filter_cons_of_neg (by simpa using hfirst), ih, List.lookup_cons]
        by_cases hb : b = a
        · rw [if_pos hb, if_pos hb]
        · have hne : (b == a') = false := by simpa [hfirst] using hb
          rw [if_neg hb, if_neg hb, hne]
      · rw [List.filter_cons_of_pos (by simpa using hfirst), List.lookup_cons, List.lookup_cons, ih]
        by_cases hb : b = a
        · have hne : (b == a') = false := by simpa [hb] using Ne.symm hfirst
          rw [if_pos hb, hne, if_pos hb]
        · rw [if_neg hb, if_neg hb]
  unfold get? erase
  by_cases hb : b = [] ∨ b = workingDirectory
  · have hne : b ≠ a := by
      rintro rfl
      exact ha hb
    rw [if_pos hb, if_neg hne, if_pos hb]
  · rw [if_neg hb, if_neg hb, hlookup]

/-- With an entry put there is that entry at its address, in place of what was there, and all others
are there. -/
theorem get?_put (t : Tree) (ha : Ordinary a) (e : Entry) (b : Address) :
    (t.put a e).get? b = if b = a then some e else t.get? b := by
  by_cases hb : b = a
  · subst hb
    rw [if_pos rfl, get?, if_neg ha, put, List.lookup_cons, beq_self_eq_true]
  · have hput : (t.put a e).get? b = (t.erase a).get? b := by
      have hne : (b == a) = false := by simpa using hb
      unfold get? put
      rw [List.lookup_cons, hne]
    rw [hput, get?_erase t ha, if_neg hb, if_neg hb]

end Entries

/-! ## Following paths -/

/-- A path is refused for how it is written, or its pieces are followed. Which of the two it is does
not depend on the tree. -/
theorem resolve_cases (path : String) :
    (∃ e, ∀ t : Tree, t.resolve path = .error e) ∨
      ∃ start slash pieces, ∀ t : Tree, t.resolve path = t.follow start slash pieces := by
  unfold resolve
  split
  · exact .inl ⟨_, fun _ => rfl⟩
  · split
    · exact .inl ⟨_, fun _ => rfl⟩
    · split
      · exact .inl ⟨_, fun _ => rfl⟩
      · exact .inr ⟨_, _, _, fun _ => rfl⟩

/-- A name in a directory is looked up if it is not too long. The length is that of its bytes. -/
theorem lookup_eq_ok_iff {t : Tree} {parent : Address} {name : List Char} {entry : Option Entry} :
    t.lookup parent name = .ok entry ↔
      (String.ofList name).utf8ByteSize ≤ nameLimit ∧ t.get? (parent ++ [name]) = entry := by
  unfold lookup
  split
  · exact ⟨fun h => (nomatch h), fun h => absurd h.1 (Nat.not_le_of_lt ‹_›)⟩
  · exact ⟨fun h => ⟨Nat.le_of_not_lt ‹_›, Except.ok.inj h⟩, fun h => congrArg Except.ok h.2⟩

/-- The directories to which the pieces of a path lead: the same one, the one above, or one that is
there.

**Proof sketch.** By the piece, in the order in which it is looked at: void, a pair of dots, too
long, and then by what there is under that name. -/
theorem enter_eq_ok_iff {t : Tree} {a b : Address} {piece : List Char} :
    t.enter a piece = .ok b ↔
      if Path.isVoid piece then b = a
      else if piece = up then b = a.dropLast
      else (String.ofList piece).utf8ByteSize ≤ nameLimit ∧
        t.get? (a ++ [piece]) = some .directory ∧ b = a ++ [piece] := by
  have hok (x : Address) : (Except.ok x : Except OsError Address) = .ok b ↔ b = x :=
    ⟨fun h => (Except.ok.inj h).symm, fun h => congrArg Except.ok h.symm⟩
  unfold enter lookup
  by_cases hvoid : Path.isVoid piece
  · rw [if_pos hvoid, if_pos hvoid, hok]
  rw [if_neg hvoid, if_neg hvoid]
  by_cases hup : piece = up
  · rw [if_pos hup, if_pos hup, hok]
  rw [if_neg hup, if_neg hup]
  by_cases hlong : nameLimit < (String.ofList piece).utf8ByteSize
  · rw [if_pos hlong]
    exact ⟨fun h => (nomatch h), fun h => absurd h.1 (Nat.not_le_of_lt hlong)⟩
  · rw [if_neg hlong]
    cases t.get? (a ++ [piece]) with
    | none => simp
    | some e =>
      cases e with
      | file content => simp
      | directory => simp [hok, Nat.le_of_not_lt hlong]

namespace SameDirectories

variable {t t' : Tree}

/-- The two trees may be exchanged. -/
theorem symm (h : t.SameDirectories t') : t'.SameDirectories t := fun a => (h a).symm

/-- A third tree may be compared by way of the second one. -/
theorem trans {t'' : Tree} (h : t.SameDirectories t') (h' : t'.SameDirectories t'') :
    t.SameDirectories t'' := fun a => (h a).trans (h' a)

/-- A piece leads to the same directory in both trees. -/
theorem enter_eq_ok (h : t.SameDirectories t') {a b : Address} {piece : List Char}
    (he : t.enter a piece = .ok b) : t'.enter a piece = .ok b := by
  rw [enter_eq_ok_iff] at he ⊢
  rwa [← h (a ++ [piece])]

/-- Pieces lead to the same place. The last one may name anything, or nothing.

**Proof sketch.** Induction on the pieces. All but a last name are entered, and directories are the
same in both trees. -/
theorem follow_eq_ok (h : t.SameDirectories t') {a : Address} {slash : Bool}
    {pieces : List (List Char)} {place : Place} (hf : t.follow a slash pieces = .ok place) :
    t'.follow a slash pieces = .ok place := by
  induction pieces generalizing a with
  | nil => exact hf
  | cons piece rest ih =>
    cases rest with
    | nil =>
      simp only [follow] at hf ⊢
      split
      · rw [if_pos ‹_›] at hf
        cases he : t.enter a piece with
        | error e => simp [he, Except.map] at hf
        | ok b => rwa [h.enter_eq_ok he, ← he]
      · rwa [if_neg ‹_›] at hf
    | cons next rest =>
      simp only [follow] at hf ⊢
      cases he : t.enter a piece with
      | error e => simp [he] at hf
      | ok b =>
        rw [he] at hf
        rw [h.enter_eq_ok he]
        exact ih hf

/-- A path leads to the same place in both trees. -/
theorem resolve_eq_ok (h : t.SameDirectories t') {path : String} {place : Place}
    (hr : t.resolve path = .ok place) : t'.resolve path = .ok place := by
  rcases resolve_cases path with ⟨e, herror⟩ | ⟨start, slash, pieces, hfollow⟩
  · rw [herror t] at hr
    contradiction
  · rw [hfollow t] at hr
    rw [hfollow t']
    exact h.follow_eq_ok hr

/-- **Paths lead to the same addresses** in trees with the same directories. -/
theorem names_iff (h : t.SameDirectories t') {path : String} {a : Address} :
    t.Names path a ↔ t'.Names path a := by
  have hnames {t t' : Tree} (h : t.SameDirectories t') (hn : t.Names path a) : t'.Names path a := by
    obtain ⟨parent, name, hresolve, hname, rfl⟩ := hn
    exact ⟨parent, name, h.resolve_eq_ok hresolve, hname, rfl⟩
  exact ⟨hnames h, hnames h.symm⟩

end SameDirectories

section Names

variable {t : Tree} {path : String} {a : Address} {content : List UInt8}

/-- The name to which pieces lead says something, and cannot be passed over. -/
theorem not_isVoid_of_follow {a parent : Address} {slash slash' : Bool}
    {pieces : List (List Char)} {name : List Char}
    (h : t.follow a slash pieces = .ok (.named parent name slash')) : ¬ Path.isVoid name := by
  induction pieces generalizing a with
  | nil => cases h
  | cons piece rest ih =>
    cases rest with
    | nil =>
      simp only [follow] at h
      split at h
      · cases he : t.enter a piece <;> simp [he, Except.map] at h
      · cases h
        rename_i hlast
        exact fun hvoid => hlast (.inl hvoid)
    | cons next rest =>
      simp only [follow] at h
      split at h
      · exact ih h
      · contradiction

/-- There can be a file only at an ordinary address. Neither the root nor the working directory can
be replaced by one. -/
theorem Names.ordinary (h : t.Names path a) : Ordinary a := by
  obtain ⟨parent, name, hresolve, -, rfl⟩ := h
  have hvoid : ¬ Path.isVoid name := by
    rcases resolve_cases path with ⟨e, herror⟩ | ⟨start, slash, pieces, hfollow⟩
    · rw [herror t] at hresolve
      contradiction
    · rw [hfollow t] at hresolve
      exact not_isVoid_of_follow hresolve
  rintro (hnil | hdot)
  · simp at hnil
  · have hsplit : parent ++ [name] = [] ++ [['.']] := hdot
    obtain ⟨-, hname⟩ := List.append_inj' hsplit rfl
    cases hname
    exact hvoid rfl

/-- The file to which a path leads is the one at the address that the path names.

**Proof sketch.** By the steps of the lookup, each of which may fail: the path, the name, and the
entry under it. -/
theorem fileAt_eq_ok_iff :
    t.fileAt path = .ok (a, content) ↔ t.Names path a ∧ t.get? a = some (.file content) := by
  constructor
  · intro h
    unfold fileAt at h
    split at h
    · contradiction
    · contradiction
    · rename_i parent name slash hresolve
      split at h
      · contradiction
      · contradiction
      · contradiction
      · rename_i content' hlookup
        obtain ⟨hname, hentry⟩ := lookup_eq_ok_iff.1 hlookup
        cases slash with
        | true => contradiction
        | false =>
          cases h
          exact ⟨⟨parent, name, hresolve, hname, rfl⟩, hentry⟩
  · rintro ⟨⟨parent, name, hresolve, hname, rfl⟩, hentry⟩
    simp [fileAt, hresolve, lookup_eq_ok_iff.2 ⟨hname, hentry⟩]

/-- The address that writing to a path would change: any that the path names, but not that of a
directory.

**Proof sketch.** By the steps of the lookup. Unlike for a file that is read, there may be nothing
under the name. -/
theorem target_eq_ok_iff :
    t.target path = .ok a ↔ t.Names path a ∧ t.get? a ≠ some .directory := by
  constructor
  · intro h
    unfold target at h
    split at h
    · contradiction
    · contradiction
    · rename_i parent name slash hresolve
      cases slash with
      | true => contradiction
      | false =>
        simp only [Bool.false_eq_true, if_false] at h
        split at h
        · contradiction
        · contradiction
        · rename_i entry hfree hlookup
          cases h
          obtain ⟨hname, hentry⟩ := lookup_eq_ok_iff.1 hlookup
          refine ⟨⟨parent, name, hresolve, hname, rfl⟩, fun hdirectory => hfree ?_⟩
          rw [← hdirectory, hentry]
  · rintro ⟨⟨parent, name, hresolve, hname, rfl⟩, hfree⟩
    simp [target, hresolve, lookup_eq_ok_iff.2 ⟨hname, rfl⟩]

/-- What is seen of a path is the entry at its address, or that there is none. -/
theorem Names.stat_eq (h : t.Names path a) :
    t.stat path = match t.get? a with
      | none => .error .notFound
      | some entry => .ok entry := by
  obtain ⟨parent, last, hresolve, hlast, rfl⟩ := h
  rw [stat, hresolve]
  simp only [lookup_eq_ok_iff.2 ⟨hlast, rfl⟩]
  cases t.get? (parent ++ [last]) with
  | none => rfl
  | some entry => cases entry <;> rfl

/-- What is read of a path is the entry at its address. A directory cannot be read. -/
theorem Names.read_eq (h : t.Names path a) :
    t.read path = match t.get? a with
      | none => .error .notFound
      | some .directory => .error .isDirectory
      | some (.file content) => .ok content := by
  obtain ⟨parent, last, hresolve, hlast, rfl⟩ := h
  rw [read, fileAt, hresolve]
  simp only [lookup_eq_ok_iff.2 ⟨hlast, rfl⟩]
  cases t.get? (parent ++ [last]) with
  | none => rfl
  | some entry => cases entry <;> rfl

/-- A file that is read is at the address of its path, and what was read is what it holds. -/
theorem exists_of_read (h : t.read path = .ok content) :
    ∃ a, t.Names path a ∧ t.get? a = some (.file content) := by
  unfold read at h
  cases hfile : t.fileAt path with
  | error e =>
    rw [hfile] at h
    contradiction
  | ok found =>
    obtain ⟨a, content'⟩ := found
    rw [hfile] at h
    cases h
    exact ⟨a, fileAt_eq_ok_iff.1 hfile⟩

end Names

/-! ## Changes -/

section Changes

variable {t t' : Tree} {a : Address} {path source : String} {content : List UInt8}

/-- Putting a file where there is no directory changes no directory, whether or not there was a
file. -/
theorem sameDirectories_put (ha : Ordinary a) (h : t.get? a ≠ some .directory)
    (content : List UInt8) : t.SameDirectories (t.put a (.file content)) := by
  intro b
  rw [get?_put t ha]
  by_cases hb : b = a
  · subst hb
    simp [h]
  · rw [if_neg hb]

/-- Taking away what is no directory changes no directory. -/
theorem sameDirectories_erase (ha : Ordinary a) (h : t.get? a ≠ some .directory) :
    t.SameDirectories (t.erase a) := by
  intro b
  rw [get?_erase t ha]
  by_cases hb : b = a
  · subst hb
    simp [h]
  · rw [if_neg hb]

/-- What writing does: a file is put at the address that the path names, new or not. -/
theorem write_eq_ok_iff :
    t.write path content = .ok t' ↔
      ∃ a, t.target path = .ok a ∧ t' = t.put a (.file content) := by
  unfold write
  cases t.target path <;> simp [Except.map, eq_comm]

/-- What removing does: the file at the address of the path is taken away. Directories are not
removed. -/
theorem remove_eq_ok_iff :
    t.remove path = .ok t' ↔ ∃ a content, t.fileAt path = .ok (a, content) ∧ t' = t.erase a := by
  unfold remove
  cases t.fileAt path with
  | error e => simp [Except.map]
  | ok found =>
    obtain ⟨a, content⟩ := found
    simp [Except.map, eq_comm]

/-- What moving does: the file is taken away from the one address and put at the other one, at
once.

**Proof sketch.** By the steps of the move. It looks at its source first, and at its target as
writing does. -/
theorem rename_eq_ok_iff :
    t.rename source path = .ok t' ↔
      ∃ a content b, t.fileAt source = .ok (a, content) ∧ t.target path = .ok b ∧
        t' = (t.erase a).put b (.file content) := by
  constructor
  · intro h
    unfold rename at h
    split at h
    · contradiction
    · rename_i a content hsource
      split at h
      · contradiction
      · contradiction
      · rename_i parent name slash hresolve
        split at h
        · contradiction
        · rename_i entry hlookup
          obtain ⟨hname, hentry⟩ := lookup_eq_ok_iff.1 hlookup
          cases slash with
          | true => contradiction
          | false =>
            simp only [Bool.false_eq_true, if_false] at h
            split at h
            · contradiction
            · rename_i hfree
              cases h
              have htarget : t.target path = .ok (parent ++ [name]) :=
                target_eq_ok_iff.2 ⟨⟨parent, name, hresolve, hname, rfl⟩, hentry ▸ hfree⟩
              exact ⟨a, content, parent ++ [name], hsource, htarget, rfl⟩
  · rintro ⟨a, content, b, hsource, htarget, rfl⟩
    obtain ⟨⟨parent, name, hresolve, hname, rfl⟩, hfree⟩ := target_eq_ok_iff.1 htarget
    simp [rename, hsource, hresolve, lookup_eq_ok_iff.2 ⟨hname, rfl⟩, hfree]

/-- What copying does: a file with the same content is put at the other address, and the first one
stays. -/
theorem copy_eq_ok_iff :
    t.copy source path = .ok t' ↔
      ∃ a content b, t.fileAt source = .ok (a, content) ∧ t.target path = .ok b ∧
        t' = t.put b (.file content) := by
  unfold copy read
  cases t.fileAt source with
  | error e => simp [Except.map]
  | ok found =>
    obtain ⟨a, content⟩ := found
    simp only [Except.map, write_eq_ok_iff, Except.ok.injEq, Prod.mk.injEq]
    constructor
    · rintro ⟨b, htarget, rfl⟩
      exact ⟨a, content, b, ⟨rfl, rfl⟩, htarget, rfl⟩
    · rintro ⟨_, _, b, ⟨rfl, rfl⟩, htarget, rfl⟩
      exact ⟨b, htarget, rfl⟩

/-- A file at the address of a path is found there, if all else is as it was. -/
theorem Names.fileAt_eq_ok (hpath : t.Names path a) (hfree : t.get? a ≠ some .directory)
    (hget : ∀ x, t'.get? x = if x = a then some (.file content) else t.get? x) :
    t'.fileAt path = .ok (a, content) := by
  have hsame : t.SameDirectories t' := by
    intro x
    rw [hget]
    split
    · rename_i hx
      simp [hx, hfree]
    · rfl
  rw [fileAt_eq_ok_iff, ← hsame.names_iff, hget, if_pos rfl]
  exact ⟨hpath, rfl⟩

end Changes

end ChunkMachine.Tree
